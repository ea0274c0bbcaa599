import Ncrs.Native.RemoteHref

/-!
# Hrefs map back to the paths they were made from

An href is decoded before the prefix is taken off, and the prefix is the path of the base URL as the `url` crate
writes it, with its escapes. They agree if there is nothing to decode in it. Otherwise no href begins with the
prefix, as the slashes show, and every path of a listing keeps the path of the server in front.

## Key results

- `decode_pathPart_buildUrl` / `decode_pathPart_davUrl`: the decoded path of a request.
- `hrefToRemotePath_eq`: what becomes of an href that is not rejected.
- `href_maps_back_iff`: the base URLs under which every href maps back.
-/

namespace Ncrs

open PercentEncoding

/-! ## Base URLs -/

/-- A base URL as the client uses it: `https://host/remote.php/dav/files/user/`, where the server may have a
    path of its own. -/
structure WebdavBase where
  scheme : Line
  host : Line
  serverPath : Line
  user : Line
  slashes : Nat
  scheme_colon : ':' ∉ scheme
  host_ne : host ≠ []
  host_slash : '/' ∉ host
  serverPath_head : serverPath.head?.all (· = '/') = true
  serverPath_last : serverPath.getLast? ≠ some '/'
  user_ne : user ≠ []
  user_slash : '/' ∉ user
  plain : ∀ c ∈ serverPath ++ user, isControl c = false ∧ c ≠ '\\' ∧ c ≠ '?' ∧ c ≠ '#'
  parents : "..".toList ∉ segments (serverPath ++ "/remote.php/dav/files/".toList ++ user)

namespace WebdavBase

variable (b : WebdavBase)

/-- The server URL as the settings name it. -/
def baseUrl : Line := b.scheme ++ "://".toList ++ b.host ++ b.serverPath

/-- The path of the user's files on the server. -/
def path : Line := b.serverPath ++ "/remote.php/dav/files/".toList ++ b.user

/-- The WebDAV URL, with the slashes the settings may end it with. -/
def url : Line := b.scheme ++ "://".toList ++ b.host ++ b.path ++ List.replicate b.slashes '/'

end WebdavBase

/-- A remote path whose names are components of UTF-8, without control characters and parent segments. -/
def HrefPath (path : PathBuf) : Prop :=
  ∀ name ∈ path, name ≠ "" ∧ name ≠ "." ∧ '/' ∉ name.toList ∧ (∀ c ∈ name.toList, isControl c = false) ∧
    "..".toList ∉ segments name.toList

/-- A text in which nothing is encoded, neither by the `url` crate nor before. -/
def Unescaped (k : Coder) (set : Char → Bool) (t : Line) : Prop :=
  (∀ c ∈ t, c.toNat < 128 ∧ set c = false) ∧ k.decode t = t

variable {k : Coder} {b : WebdavBase} {set : Char → Bool} {path : PathBuf}

/-- Text outside the encode set stays as it is. -/
theorem encode_of_kept {t : Line} (h : ∀ c ∈ t, c.toNat < 128 ∧ set c = false) : encode set t = t := by
  induction t with
  | nil => rfl
  | cons c t ih =>
    obtain ⟨hlt, hset⟩ := h c List.mem_cons_self
    have ht : encode set t = t := ih fun d hd => h d (List.mem_cons_of_mem _ hd)
    rw [encode, List.flatMap_cons]
    rw [encode] at ht
    rw [ht, decide_eq_true hlt, hset]
    rfl

/-! ## Paths -/

/-- A slash separates the names on both sides of it. -/
theorem pathOf_append_slash (x y : Line) : pathOf (x ++ '/' :: y) = pathOf x ++ pathOf y := by
  unfold pathOf
  rw [List.splitOn_append_cons_self, List.filter_append, List.map_append]

/-- A leading slash adds no name. -/
theorem pathOf_slash (y : Line) : pathOf ('/' :: y) = pathOf y := pathOf_append_slash [] y

/-- Trailing slashes add no name. -/
theorem pathOf_rdropWhile (t : Line) : pathOf (t.rdropWhile (· = '/')) = pathOf t := by
  induction t using List.reverseRecOn with
  | nil => rfl
  | append_singleton t c ih =>
    by_cases hc : c = '/'
    · rw [List.rdropWhile_concat_pos _ _ _ (by simpa using hc), ih, hc, pathOf_append_slash]
      have hnil : pathOf [] = [] := rfl
      rw [hnil, List.append_nil]
    · rw [List.rdropWhile_concat_neg _ _ _ (by simpa using hc)]

/-- The names of a path's text are the path. -/
theorem pathOf_relText (h : HrefPath path) : pathOf (relText path) = path := by
  cases path with
  | nil => rfl
  | cons name path =>
    unfold pathOf relText
    rw [List.splitOn_intercalate]
    · rw [List.filter_eq_self.mpr, List.map_map]
      · have hid : String.ofList ∘ String.toList = id := funext fun s => String.ofList_toList
        rw [hid, List.map_id]
      · intro t ht
        obtain ⟨s, hs, rfl⟩ := List.mem_map.mp ht
        obtain ⟨hne, hdot, -⟩ := h s hs
        have hne' : s.toList ≠ [] := by simpa using hne
        have hdot' : s.toList ≠ ['.'] := fun heq => hdot (String.toList_inj.mp heq)
        simp [hne', hdot']
    · intro t ht
      obtain ⟨s, hs, rfl⟩ := List.mem_map.mp ht
      exact (h s hs).2.2.1
    · simp

/-- The text of a longer path. -/
theorem relText_cons_cons (name name' : String) (path : PathBuf) :
    relText (name :: name' :: path) = name.toList ++ '/' :: relText (name' :: path) := by
  unfold relText
  rw [List.map_cons, List.map_cons, List.intercalate_cons_cons]
  simp

/-- The text of a single name. -/
theorem relText_singleton (name : String) : relText [name] = name.toList := by
  unfold relText
  simp

/-- A slash separates the segments on both sides of it. -/
theorem segments_append_slash (x y : Line) : segments (x ++ '/' :: y) = segments x ++ segments y := by
  unfold segments
  exact List.splitOnP_append_cons x y (by decide)

/-- What holds of the text of a path whose names it holds of. -/
theorem relText_plain (h : HrefPath path) :
    (∀ c ∈ relText path, isControl c = false) ∧ "..".toList ∉ segments (relText path) ∧
      (path ≠ [] → (relText path).getLast? ≠ some '/') := by
  induction path with
  | nil => exact ⟨nofun, by decide, fun hne => absurd rfl hne⟩
  | cons name path ih =>
    obtain ⟨hne, -, hslash, hcontrol, hparents⟩ := h name List.mem_cons_self
    have hlast : name.toList.getLast? ≠ some '/' := fun hlast => hslash (List.mem_of_getLast? hlast)
    -- the separator is plain too, and the last name ends the text
    cases path with
    | nil =>
      rw [relText_singleton]
      exact ⟨hcontrol, hparents, fun _ => hlast⟩
    | cons name' path =>
      obtain ⟨hcontrol', hparents', hlast'⟩ := ih fun s hs => h s (List.mem_cons_of_mem _ hs)
      rw [relText_cons_cons, segments_append_slash]
      refine ⟨?_, ?_, fun _ => ?_⟩
      · -- a character of the first name, the slash, or one of the rest
        intro c hc
        obtain hc | hc := List.mem_append.mp hc
        · exact hcontrol c hc
        · obtain rfl | hc := List.mem_cons.mp hc
          · decide
          · exact hcontrol' c hc
      · rw [List.mem_append, not_or]
        exact ⟨hparents, hparents'⟩
      · have hrest := hlast' (List.cons_ne_nil _ _)
        rw [List.getLast?_append, List.getLast?_cons]
        -- the text after the slash is not empty, so its last character is the text's
        cases hr : (relText (name' :: path)).getLast? with
        | none =>
          have hnil := List.getLast?_eq_none_iff.mp hr
          obtain ⟨hne', -⟩ := h name' (by simp)
          cases path with
          | nil =>
            rw [relText_singleton] at hnil
            exact absurd hnil (by simpa using hne')
          | cons =>
            rw [relText_cons_cons] at hnil
            simp at hnil
        | some c =>
          rw [hr] at hrest
          exact hrest

/-! ## The URL of a request -/

/-- The path part of a URL starts after its host. -/
theorem pathPart_append {scheme host rest : Line} (hscheme : ':' ∉ scheme) (hhost : '/' ∉ host) :
    pathPart (scheme ++ "://".toList ++ host ++ '/' :: rest) = '/' :: rest := by
  have hdrop : ∀ {d : Char} {a l : Line}, d ∉ a → (a ++ d :: l).dropWhile (· ≠ d) = d :: l := by
    intro d a l hd
    rw [List.dropWhile_append_of_pos]
    · simp
    · intro c hc
      have hne : c ≠ d := fun heq => hd (heq ▸ hc)
      simpa using hne
  have hsplit : scheme ++ "://".toList ++ host ++ '/' :: rest =
      scheme ++ ':' :: ('/' :: '/' :: (host ++ '/' :: rest)) := by
    simp
  unfold pathPart
  rw [hsplit, hdrop hscheme]
  exact hdrop hhost

/-- Trimming takes the slashes added at the end, and no more. -/
theorem rdropWhile_append_slashes {t : Line} (h : t.getLast? ≠ some '/') (n : Nat) :
    (t ++ List.replicate n '/').rdropWhile (· = '/') = t := by
  induction n with
  | zero =>
    rw [List.replicate_zero, List.append_nil, List.rdropWhile_eq_self_iff_getLast?]
    cases ht : t.getLast? with
    | none => rfl
    | some c =>
      rw [ht] at h
      simpa using h
  | succ n ih =>
    rw [List.replicate_succ', ← List.append_assoc, List.rdropWhile_concat_pos _ _ _ (by decide), ih]

namespace WebdavBase

/-- A base ends in the user name, so in no slash. -/
theorem getLast?_append_user (t : Line) : (t ++ b.user).getLast? ≠ some '/' := by
  rw [List.getLast?_append]
  cases hlast : b.user.getLast? with
  | none => exact absurd (List.getLast?_eq_none_iff.mp hlast) b.user_ne
  | some c =>
    have hmem : c ∈ b.user := List.mem_of_getLast? hlast
    intro heq
    have hc : c = '/' := by simpa using heq
    exact b.user_slash (hc ▸ hmem)

/-- The path of the user's files ends in no slash. -/
theorem getLast?_path : b.path.getLast? ≠ some '/' := b.getLast?_append_user _

/-- The path of a base URL, cut where the path of the server ends and where the user's name begins. -/
theorem path_eq :
    b.path = b.serverPath ++ '/' :: ("remote.php".toList ++ '/' :: ("dav/files".toList ++ '/' :: b.user)) := by
  unfold path
  simp

/-- What follows the host begins with a slash. -/
theorem exists_cons (rest : Line) : ∃ rest', b.serverPath ++ '/' :: rest = '/' :: rest' := by
  cases hserver : b.serverPath with
  | nil => exact ⟨_, rfl⟩
  | cons c t =>
    have hhead := b.serverPath_head
    rw [hserver] at hhead
    have hc : c = '/' := by simpa using hhead
    exact ⟨_, by rw [hc, List.cons_append]⟩

/-- The path part of a URL of this server. -/
theorem pathPart_eq (rest : Line) :
    pathPart (b.scheme ++ "://".toList ++ b.host ++ (b.serverPath ++ '/' :: rest)) =
    b.serverPath ++ '/' :: rest := by
  obtain ⟨rest', hrest⟩ := b.exists_cons rest
  rw [hrest]
  exact pathPart_append b.scheme_colon b.host_slash

/-- Trimming the WebDAV URL leaves it without its slashes. -/
theorem rdropWhile_url : b.url.rdropWhile (· = '/') = b.scheme ++ "://".toList ++ b.host ++ b.path := by
  unfold url
  refine rdropWhile_append_slashes ?_ _
  unfold path
  rw [← List.append_assoc, ← List.append_assoc]
  exact b.getLast?_append_user _

/-- The server URL has no trailing slash to trim. -/
theorem rdropWhile_baseUrl : b.baseUrl.rdropWhile (· = '/') = b.baseUrl := by
  have hlast : b.baseUrl.getLast? ≠ some '/' := by
    unfold baseUrl
    rw [List.getLast?_append]
    cases hserver : b.serverPath.getLast? with
    | some c =>
      have := b.serverPath_last
      rw [hserver] at this
      exact this
    | none =>
      rw [Option.none_or, List.getLast?_append]
      cases hhost : b.host.getLast? with
      | none => exact absurd (List.getLast?_eq_none_iff.mp hhost) b.host_ne
      | some c =>
        have hmem : c ∈ b.host := List.mem_of_getLast? hhost
        intro heq
        have hc : c = '/' := by simpa using heq
        exact b.host_slash (hc ▸ hmem)
  have h := rdropWhile_append_slashes hlast 0
  rwa [List.replicate_zero, List.append_nil] at h

/-- The prefix is the path of the base URL, with its escapes. -/
theorem webdavPrefix_eq (hset : set '/' = false) {urlPath : Line → Option Line}
    (hurl : urlPath b.url = some (encode set b.path ++ List.replicate b.slashes '/')) :
    webdavPrefix urlPath b.url = encode set b.path := by
  unfold webdavPrefix
  rw [hurl]
  refine rdropWhile_append_slashes (fun hlast => ?_) _
  -- the encoded path ends in the encoded user name, which has no slash and is not empty
  have hsplit : encode set b.path =
      encode set (b.serverPath ++ "/remote.php/dav/files/".toList) ++ encode set b.user := by
    unfold path encode
    rw [List.flatMap_append]
  have hnotMem : '/' ∉ encode set b.user := by
    rw [← List.count_eq_zero, count_slash_encode hset, List.count_eq_zero]
    exact b.user_slash
  -- an empty text has no bytes, and the user name has some
  have hne : encode set b.user ≠ [] := by
    intro hnil
    have hlen := (length_utf8_le_encode set b.user).1
    rw [hnil] at hlen
    have hutf8 : utf8 b.user = [] := List.eq_nil_of_length_eq_zero (by simpa using hlen)
    have hback := ofUtf8Lossy_utf8 b.user
    rw [hutf8] at hback
    exact b.user_ne hback.symm
  rw [hsplit, List.getLast?_append] at hlast
  cases hl : (encode set b.user).getLast? with
  | none => exact hne (List.getLast?_eq_none_iff.mp hl)
  | some c =>
    rw [hl] at hlast
    have hc : c = '/' := by simpa using hlast
    exact hnotMem (hc ▸ List.mem_of_getLast? hl)

end WebdavBase

/-- The URL of a file: the base, and the path encoded behind it. -/
theorem buildUrl_eq (k : Coder) (path : PathBuf) :
    buildUrl k b.url path =
      b.scheme ++ "://".toList ++ b.host ++ (b.path ++ '/' :: encode pathEncodeSet (relText path)) := by
  unfold buildUrl
  rw [b.rdropWhile_url, k.encode_eq]
  split
  · rename_i hpath
    rw [hpath]
    have hnil : encode pathEncodeSet (relText []) = [] := rfl
    rw [hnil]
    simp
  · simp

/-- The path of a request that `build_url` makes, decoded. -/
theorem decode_pathPart_buildUrl (k : Coder) (path : PathBuf) :
    decode (pathPart (buildUrl k b.url path)) = decode b.path ++ '/' :: relText path := by
  have hpart : pathPart (buildUrl k b.url path) = b.path ++ '/' :: encode pathEncodeSet (relText path) := by
    have hpath := b.pathPart_eq ("remote.php".toList ++ '/' :: ("dav/files".toList ++
      '/' :: (b.user ++ '/' :: encode pathEncodeSet (relText path))))
    rw [buildUrl_eq, b.path_eq]
    simpa using hpath
  rw [hpart, decode_append_slash, decode_encode (by decide)]

/-- Decoding the encoded names gives the text of the path. -/
theorem decode_intercalate (path : PathBuf) :
    decode (['/'].intercalate (path.map fun name => encode pathComponentSet name.toList)) = relText path := by
  induction path with
  | nil => rfl
  | cons name path ih =>
    cases path with
    | nil =>
      rw [relText_singleton, List.map_singleton, List.intercalate_singleton, decode_encode (by decide)]
    | cons name' path =>
      rw [relText_cons_cons, ← ih, List.map_cons, List.map_cons, List.intercalate_cons_cons]
      rw [List.append_assoc, List.singleton_append, decode_append_slash, decode_encode (by decide)]

/-- The path of a request that `dav_url` makes, decoded. -/
theorem decode_pathPart_davUrl (k : Coder) {username : Line} (huser : decode b.user = username)
    (path : PathBuf) :
    decode (pathPart (davUrl k b.baseUrl username path)) = decode b.path ++ '/' :: relText path := by
  have hpart : pathPart (davUrl k b.baseUrl username path) = b.serverPath ++
      '/' :: ("remote.php".toList ++ '/' :: ("dav/files".toList ++ '/' :: (encode pathComponentSet username ++
        '/' :: ['/'].intercalate (path.map fun name => encode pathComponentSet name.toList)))) := by
    rw [← b.pathPart_eq]
    unfold davUrl
    rw [b.rdropWhile_baseUrl]
    unfold WebdavBase.baseUrl
    simp [k.encode_eq]
  rw [hpart, WebdavBase.path_eq]
  simp only [decode_append_slash, decode_encode (show pathComponentSet '%' = true by decide),
    decode_intercalate, huser, List.append_assoc, List.cons_append]

/-! ## Back to the path -/

/-- What is left of a decoded href. -/
def remoteText (decoded pre : Line) : Line :=
  let trimmed := decoded.rdropWhile (· = '/')
  if !pre.isEmpty && pre.isPrefixOf trimmed then trimmed.drop pre.length else trimmed

theorem hrefToRemotePath_eq (k : Coder) (href pre : Line) :
    hrefToRemotePath k href pre =
      if "..".toList ∈ segments (decode href) ∨ ∃ c ∈ decode href, isControl c = true then none
      else some (pathOf (remoteText (decode href) pre)) := by
  unfold hrefToRemotePath
  rw [k.decode_eq]
  dsimp only
  -- `..` in the decoded text is refused first, control characters next
  by_cases hparents : "..".toList ∈ segments (decode href)
  · have hany : ((segments (decode href)).any fun s => decide (s = "..".toList)) = true := by
      rw [List.any_eq_true]
      exact ⟨_, hparents, by simp⟩
    rw [hany, if_pos rfl, if_pos (Or.inl hparents)]
  · have hany : ((segments (decode href)).any fun s => decide (s = "..".toList)) = false := by
      rw [List.any_eq_false]
      intro s hs
      have hne : s ≠ "..".toList := fun heq => hparents (heq ▸ hs)
      simpa using hne
    rw [hany]
    by_cases hcontrol : ∃ c ∈ decode href, isControl c = true
    · rw [if_neg Bool.false_ne_true, if_pos (List.any_eq_true.mpr hcontrol), if_pos (Or.inr hcontrol)]
    · have hnone : (decode href).any isControl = false := by
        rw [List.any_eq_false]
        exact fun c hc hcc => hcontrol ⟨c, hc, hcc⟩
      have hok : ¬("..".toList ∈ segments (decode href) ∨ ∃ c ∈ decode href, isControl c = true) := by
        intro h
        exact h.elim hparents hcontrol
      rw [if_neg hok, hnone, if_neg Bool.false_ne_true, if_neg Bool.false_ne_true]
      show some (if (remoteText (decode href) pre).isEmpty = true then [] else
        if (remoteText (decode href) pre).head? = some '/' then pathOf (remoteText (decode href) pre)
        -- the leading slash the other branch has is not needed: it adds no name
        else pathOf ('/' :: remoteText (decode href) pre)) = _
      generalize remoteText (decode href) pre = remote
      cases remote with
      | nil => rfl
      | cons c t =>
        rw [if_neg (by simp)]
        split
        · rfl
        · rw [pathOf_slash]

/-- A path with a named middle is not the root. -/
theorem pathOf_ne_nil {x y z : Line} (h : pathOf y ≠ []) : pathOf (x ++ '/' :: (y ++ '/' :: z)) ≠ [] := by
  rw [pathOf_append_slash, pathOf_append_slash]
  simp [h]

/-- The path of a base URL has components, decoded too. -/
theorem pathOf_decode_path_ne_nil (b : WebdavBase) : pathOf (decode b.path) ≠ [] := by
  have hremote : pathOf (decode "remote.php".toList) ≠ [] := by decide +kernel
  rw [b.path_eq, decode_append_slash, decode_append_slash]
  exact pathOf_ne_nil hremote

/-- An href begins with the prefix only if there is nothing to decode in it: else it has a slash too few. -/
theorem unescaped_of_isPrefix (hset : set '/' = false) {p rest : Line}
    (h : encode set p <+: decode p ++ '/' :: rest) : Unescaped k set p := by
  obtain ⟨hlen, hkept⟩ := length_utf8_le_encode set p
  have hdecode := length_decode_le p
  by_cases hle : (encode set p).length ≤ (decode p).length
  · obtain ⟨hencode, hall⟩ := hkept (Nat.le_trans hle hdecode)
    have hpre : encode set p <+: decode p :=
      List.prefix_of_prefix_length_le h (List.prefix_append _ _) hle
    have heq : encode set p = decode p := hpre.eq_of_length (by omega)
    exact ⟨hall, by rw [k.decode_eq, ← heq, hencode]⟩
  · have hpre : decode p ++ ['/'] <+: encode set p := by
      refine List.prefix_of_prefix_length_le ⟨rest, by simp⟩ h ?_
      rw [List.length_append, List.length_singleton]
      omega
    have hcount := hpre.sublist.count_le '/'
    rw [List.count_append, List.count_singleton_self, count_slash_encode hset] at hcount
    have hmore := count_slash_le_decode p
    omega

/-- An href that is made from a path maps back to it exactly under a prefix with nothing to decode. -/
theorem hrefToRemotePath_eq_some_iff (hset : set '/' = false) (hpath : HrefPath path) {href : Line}
    (hhref : decode href = decode b.path ++ '/' :: relText path) :
    hrefToRemotePath k href (encode set b.path) = some path ↔ Unescaped k set b.path := by
  obtain ⟨hcontrol, hparents, hlast⟩ := relText_plain hpath
  rw [hrefToRemotePath_eq, hhref]
  constructor
  · intro heq
    -- it was mapped to the path, so the prefix was taken off
    split at heq
    · cases heq
    · have hremote : pathOf (remoteText (decode b.path ++ '/' :: relText path) (encode set b.path)) = path := by
        simpa using heq
      unfold remoteText at hremote
      dsimp only at hremote
      split at hremote
      · rename_i hpre
        -- then the encoded prefix starts the decoded text, which leaves nothing for the encoding to
        -- change
        rw [Bool.and_eq_true, List.isPrefixOf_iff_prefix] at hpre
        have hfront := List.rdropWhile_prefix (· = '/') (decode b.path ++ '/' :: relText path)
        exact unescaped_of_isPrefix hset (hpre.2.trans hfront)
      · -- the prefix was left in the path, and its names with it
        rw [pathOf_rdropWhile, pathOf_append_slash, pathOf_relText hpath] at hremote
        have hnil : pathOf (decode b.path) = [] := List.append_left_eq_self.mp hremote
        exact absurd hnil (pathOf_decode_path_ne_nil b)
  · intro ⟨hall, hdecode⟩
    rw [k.decode_eq] at hdecode
    have hencode : encode set b.path = b.path := encode_of_kept hall
    have hne : b.path ≠ [] := by
      rw [b.path_eq]
      simp
    -- the base has no control character: neither the user nor the server path has one
    have hchars : ∀ c ∈ b.path, isControl c = false := by
      intro c hc
      have hfiles : ("/remote.php/dav/files/".toList.any isControl) = false := by decide
      have hplain := fun h => (b.plain c h).1
      simp only [List.mem_append] at hplain
      unfold WebdavBase.path at hc
      rw [List.mem_append, List.mem_append] at hc
      obtain (hc | hc) | hc := hc
      · exact hplain (.inl hc)
      · exact Bool.eq_false_iff.mpr (List.any_eq_false.mp hfiles c hc)
      · exact hplain (.inr hc)
    rw [hdecode, hencode, if_neg]
    · have hremote : pathOf (remoteText (b.path ++ '/' :: relText path) b.path) = path := by
        have hempty : b.path.isEmpty = false := by simpa using hne
        unfold remoteText
        dsimp only
        -- the root comes with one slash, which is trimmed
        cases path with
        | nil =>
          have htrim : (b.path ++ '/' :: relText []).rdropWhile (· = '/') = b.path :=
            rdropWhile_append_slashes b.getLast?_path 1
          have hself : b.path.isPrefixOf b.path = true := List.isPrefixOf_iff_prefix.mpr (List.prefix_refl _)
          rw [htrim, hempty, hself]
          simp [pathOf]
        | cons name names =>
          -- below the root nothing is trimmed: the last name ends in no slash
          have hrel := hlast (List.cons_ne_nil _ _)
          have htrim : (b.path ++ '/' :: relText (name :: names)).rdropWhile (· = '/') =
              b.path ++ '/' :: relText (name :: names) := by
            have h := rdropWhile_append_slashes (t := b.path ++ '/' :: relText (name :: names)) ?_ 0
            · rwa [List.replicate_zero, List.append_nil] at h
            · rw [List.getLast?_append, List.getLast?_cons]
              cases hr : (relText (name :: names)).getLast? with
              | none =>
                have hback := pathOf_relText hpath
                rw [List.getLast?_eq_none_iff.mp hr] at hback
                cases hback
              | some c =>
                rw [hr] at hrel
                exact hrel
          have hself : b.path.isPrefixOf (b.path ++ '/' :: relText (name :: names)) = true :=
            List.isPrefixOf_iff_prefix.mpr (List.prefix_append _ _)
          rw [htrim, hempty, hself]
          simp only [Bool.not_false, Bool.and_self, if_true, List.drop_left]
          rw [pathOf_slash, pathOf_relText hpath]
      rw [hremote]
    · -- nothing of the decoded text is refused
      rw [segments_append_slash, List.mem_append]
      intro h
      obtain (h | h) | ⟨c, hc, hcc⟩ := h
      · exact b.parents h
      · exact hparents h
      · obtain hc | hc := List.mem_append.mp hc
        · rw [hchars c hc] at hcc
          cases hcc
        · obtain rfl | hc := List.mem_cons.mp hc
          · exact absurd hcc (by decide)
          · rw [hcontrol c hc] at hcc
            cases hcc

/-- The hrefs of the URLs that requests are sent to map back to their remote paths, the root to the root, if and
    only if there is nothing to decode in the path of the base URL as the `url` crate writes it. -/
theorem href_maps_back_iff (k : Coder) (b : WebdavBase) (urlPath : Line → Option Line) (set : Char → Bool)
    (hset : set '/' = false)
    (hurl : urlPath b.url = some (k.encode set b.path ++ List.replicate b.slashes '/'))
    (username : Line) (huser : k.decode b.user = username) (path : PathBuf) (hpath : HrefPath path) :
    (hrefToRemotePath k (pathPart (buildUrl k b.url path)) (webdavPrefix urlPath b.url) = some path ↔
        Unescaped k set b.path) ∧
      (hrefToRemotePath k (pathPart (davUrl k b.baseUrl username path))
        (webdavPrefix urlPath b.url) = some path ↔
        Unescaped k set b.path) := by
  rw [k.encode_eq] at hurl
  rw [k.decode_eq] at huser
  rw [b.webdavPrefix_eq hset hurl]
  exact ⟨hrefToRemotePath_eq_some_iff hset hpath (decode_pathPart_buildUrl k path),
    hrefToRemotePath_eq_some_iff hset hpath (decode_pathPart_davUrl k huser path)⟩

/-- What the `url` crate encodes in a path, the characters that are not ASCII apart. -/
def urlPathSet (c : Char) : Bool := c.toNat < 0x21 || c.toNat = 0x7f || "\"#<>?`\x7b\x7d".toList.contains c

/-- What the `url` crate reads in the base URLs below. -/
def examplePath (url : Line) : Option Line := some (encode urlPathSet (pathPart url))

/-- The base URL of a user whose name is this in a URL. -/
def exampleBase (user : Line) (hne : user ≠ []) (hslash : '/' ∉ user)
    (hplain : ∀ c ∈ [] ++ user, isControl c = false ∧ c ≠ '\\' ∧ c ≠ '?' ∧ c ≠ '#')
    (hparents : "..".toList ∉ segments ([] ++ "/remote.php/dav/files/".toList ++ user)) : WebdavBase where
  scheme := "https".toList
  host := "cloud".toList
  serverPath := []
  user := user
  slashes := 1
  scheme_colon := by decide
  host_ne := by decide
  host_slash := by decide
  serverPath_head := rfl
  serverPath_last := by decide
  user_ne := hne
  user_slash := hslash
  plain := hplain
  parents := hparents

/-- The name of the user in the examples is plain. -/
theorem plain_jane : ∀ c ∈ [] ++ "jane".toList, isControl c = false ∧ c ≠ '\\' ∧ c ≠ '?' ∧ c ≠ '#' := by
  intro c hc
  have hmem : c = 'j' ∨ c = 'a' ∨ c = 'n' ∨ c = 'e' := by simpa using hc
  obtain rfl | rfl | rfl | rfl := hmem <;> decide

/-- An account whose name needs no encoding. -/
def plainUser : WebdavBase := exampleBase "jane".toList (by decide) (by decide) plain_jane (by decide +kernel)

/-- A name with a space can stand in a path. -/
theorem hrefPath_example : HrefPath ["a b"] := by
  intro name hname
  rw [List.mem_singleton] at hname
  subst hname
  have hcontrol : ("a b".toList.any isControl) = false := by decide
  exact ⟨by decide, by decide, by decide, fun c hc => Bool.eq_false_iff.mpr (List.any_eq_false.mp hcontrol c hc),
    by decide +kernel⟩

/-- The name of a user with nothing to decode: a listing maps back. -/
theorem href_maps_back_plain_user :
    Unescaped coder urlPathSet plainUser.path ∧
      hrefToRemotePath coder (pathPart (buildUrl coder plainUser.url ["a b"]))
        (webdavPrefix examplePath plainUser.url) = some ["a b"] ∧
      hrefToRemotePath coder (pathPart (davUrl coder plainUser.baseUrl "jane".toList ["a b"]))
        (webdavPrefix examplePath plainUser.url) = some ["a b"] := by
  have hurl : examplePath plainUser.url =
      some (coder.encode urlPathSet plainUser.path ++ List.replicate plainUser.slashes '/') := by decide +kernel
  have huser : coder.decode plainUser.user = "jane".toList := by decide +kernel
  have hkept : plainUser.path.all (fun c => decide (c.toNat < 128) && !urlPathSet c) = true := by decide +kernel
  have hdecode : coder.decode plainUser.path = plainUser.path := by decide +kernel
  have hplain : Unescaped coder urlPathSet plainUser.path := by
    refine ⟨fun c hc => ?_, hdecode⟩
    have hc := List.all_eq_true.mp hkept c hc
    rw [Bool.and_eq_true, decide_eq_true_iff, Bool.not_eq_true'] at hc
    exact hc
  have hback := href_maps_back_iff coder plainUser examplePath urlPathSet
    (by decide) hurl "jane".toList huser ["a b"]
    hrefPath_example
  exact ⟨hplain, hback.1.mpr hplain, hback.2.mpr hplain⟩

/-- The name of a user with an escape for the dot in it, as `webdav_url` writes `john.doe`, and one
    with a space. -/
theorem escaped_user_re_roots :
    hrefToRemotePath coder
        (pathPart (buildUrl coder "https://cloud/remote.php/dav/files/john%2Edoe/".toList ["f"]))
        (webdavPrefix examplePath "https://cloud/remote.php/dav/files/john%2Edoe/".toList) =
      some ["remote.php", "dav", "files", "john.doe", "f"] ∧
    hrefToRemotePath coder (pathPart (davUrl coder "https://cloud".toList "john doe".toList ["f"]))
        (webdavPrefix examplePath "https://cloud/remote.php/dav/files/john doe/".toList) =
      some ["remote.php", "dav", "files", "john doe", "f"] := by
  decide +kernel

end Ncrs
