import Ncrs.Native.LoginFlow

/-!
# Server addresses and their origin

A server address is normalised by cutting it before the first thing that looks like a part of
Nextcloud. The search goes over the whole text, so a host or an install path that looks like one is
cut too, a suffix after another one is not the one that is found, and `/dav` at the end is not found
at all because its slash is gone by then.

## Key results

- `baseServer_text_iff`: when the cut is where the suffix begins.
- `normalizeWebdavUrl_idem`: a normalised address stays.
- `normalized_url_iff`: when an address keeps its origin and its install path, and when a login
  server that was accepted is the one that is connected to.
- `webdav_host_is_cut`: a host that is called after what it serves.
-/

namespace Ncrs

open WebUrl
open PercentEncoding (Coder)

/-! ## Server addresses -/

/-- A character of an address. -/
def isUrlChar (c : Char) : Bool := !isWhitespace c && !isBlank c && c ≠ '?' && c ≠ '#'

/-- A path of a URL. -/
structure IsPath (p : Line) : Prop where
  chars : ∀ c ∈ p, isUrlChar c = true
  slash : p = [] ∨ ∃ q, p = '/' :: q
  last : p.getLast? ≠ some '/'

/-- What an address may be given with after the install path, up to the next slash. -/
def suffixNames : List Line := ["/remote.php".toList, "/index.php".toList, "/webdav".toList, "/dav".toList]

/-- A server address in its parts. -/
structure ServerUrl where
  scheme : Line
  /-- Host and port. -/
  authority : Line
  install : Line
  suffix : Line
  slashes : Nat
  web : scheme.map Char.toLower = "http".toList ∨ scheme.map Char.toLower = "https".toList
  authority_ne : authority ≠ []
  authority_chars : ∀ c ∈ authority, isUrlChar c = true ∧ isAuthorityEnd c = false
  install_path : IsPath install
  suffix_path : suffix = [] ∨ ∃ name ∈ suffixNames, ∃ rest, IsPath rest ∧ suffix = name ++ rest

namespace ServerUrl

/-- Scheme, authority and installation path. -/
def base (u : ServerUrl) : Line := u.scheme ++ "://".toList ++ u.authority ++ u.install

/-- The address as it is typed. -/
def text (u : ServerUrl) : Line := u.base ++ u.suffix ++ List.replicate u.slashes '/'

/-- Nothing in the address looks like a part of Nextcloud before its suffix does, nor anything that is
    looked for earlier, and the suffix is one that is looked for. -/
def Ordinary (u : ServerUrl) : Prop :=
  if u.suffix = [] then ∀ m ∈ serverSuffixes, ¬m <:+: u.base
  else ∃ earlier m later, serverSuffixes = earlier ++ m :: later ∧ m <+: u.suffix ∧
    ¬List.OccursBefore m u.base u.suffix ∧ ∀ m' ∈ earlier, ¬m' <:+: u.base ++ u.suffix

end ServerUrl

/-- The path of a user's files. -/
def filesPath (k : Coder) (user : Line) : Line :=
  "/remote.php/dav/files/".toList ++ k.encode nonAlphanumeric user ++ ['/']

/-! ## Encoded names -/

/-- A hexadecimal digit is a letter or a digit. -/
theorem isAlphanum_hexDigit {n : Nat} (hn : n < 16) : (PercentEncoding.hexDigit n).isAlphanum = true := by
  have hall : ∀ n < 16, (PercentEncoding.hexDigit n).isAlphanum = true := by decide
  exact hall n hn

/-- A name is encoded in letters, digits and percent signs. -/
theorem mem_encode {k : Coder} {t : Line} {c : Char} (hc : c ∈ k.encode nonAlphanumeric t) :
    c.isAlphanum = true ∨ c = '%' := by
  rw [k.encode_eq] at hc
  obtain ⟨x, -, hc⟩ := List.mem_flatMap.mp hc
  split at hc
  · rename_i hx
    rw [Bool.and_eq_true, nonAlphanumeric, Bool.not_not] at hx
    rw [List.mem_singleton.mp hc]
    exact .inl hx.2
  · obtain ⟨b, -, hc⟩ := List.mem_flatMap.mp hc
    have hb : b.toNat < 256 := b.toNat_lt
    simp only [PercentEncoding.escape, List.mem_cons, List.not_mem_nil, or_false] at hc
    obtain rfl | rfl | rfl := hc
    · exact .inr rfl
    · exact .inl (isAlphanum_hexDigit (by omega))
    · exact .inl (isAlphanum_hexDigit (by omega))

/-- A name that is not empty is encoded by something. -/
theorem encode_ne_nil {k : Coder} {t : Line} (ht : t ≠ []) : k.encode nonAlphanumeric t ≠ [] := by
  rw [k.encode_eq]
  intro h
  have hlen := (PercentEncoding.length_utf8_le_encode nonAlphanumeric t).1
  rw [h] at hlen
  have hutf8 : PercentEncoding.utf8 t = [] := List.eq_nil_of_length_eq_zero (by simpa using hlen)
  have hback := PercentEncoding.ofUtf8Lossy_utf8 t
  rw [hutf8] at hback
  exact ht hback.symm

theorem toNat_of_isAlphanum {c : Char} (hc : c.isAlphanum = true) :
    48 ≤ c.toNat ∧ c.toNat ≤ 57 ∨ 65 ≤ c.toNat ∧ c.toNat ≤ 90 ∨ 97 ≤ c.toNat ∧ c.toNat ≤ 122 := by
  simp only [Char.isAlphanum, Char.isAlpha, Char.isUpper, Char.isLower, Char.isDigit, ge_iff_le,
    UInt32.le_iff_toNat_le, Bool.or_eq_true, Bool.and_eq_true, decide_eq_true_iff] at hc
  change ((65 ≤ c.toNat ∧ c.toNat ≤ 90) ∨ 97 ≤ c.toNat ∧ c.toNat ≤ 122) ∨ 48 ≤ c.toNat ∧ c.toNat ≤ 57 at hc
  omega

/-- Letters and digits may stand in a URL. -/
theorem isUrlChar_of_isAlphanum {c : Char} (hc : c.isAlphanum = true) : isUrlChar c = true := by
  have hn := toNat_of_isAlphanum hc
  have hblank : isBlank c = false := by
    cases hb : isBlank c with
    | false => rfl
    | true =>
      have := toNat_le_of_isBlank hb
      omega
  have hwhite : isWhitespace c = false := by
    simp only [isWhitespace, Bool.or_eq_false_iff, Bool.and_eq_false_iff, decide_eq_false_iff_not]
    omega
  have hne : c ≠ '?' ∧ c ≠ '#' := by
    constructor <;> rintro rfl <;> simp at hn
  simp [isUrlChar, hblank, hwhite, hne]

/-- Nothing an encoded name brings in is blank. -/
theorem isUrlChar_of_mem_filesPath {k : Coder} {user : Line} {c : Char}
    (hc : c ∈ filesPath k user) : isUrlChar c = true := by
  have hfixed : ∀ c ∈ "/remote.php/dav/files/".toList, isUrlChar c = true :=
    List.all_eq_true.mp (by decide)
  unfold filesPath at hc
  cases List.mem_append.mp hc with
  | inl hc =>
    cases List.mem_append.mp hc with
    | inl hc => exact hfixed c hc
    | inr hc =>
      obtain h | h := mem_encode hc
      · exact isUrlChar_of_isAlphanum h
      · rw [h]
        decide
  | inr hc =>
    rw [List.mem_singleton.mp hc]
    decide

/-- What may stand in a URL is no blank. -/
theorem not_isBlank_of_isUrlChar {c : Char} (hc : isUrlChar c = true) : isBlank c = false := by
  simp only [isUrlChar, Bool.and_eq_true, Bool.not_eq_true'] at hc
  exact hc.1.1.2

/-- Nor white space. -/
theorem not_isWhitespace_of_isUrlChar {c : Char} (hc : isUrlChar c = true) : isWhitespace c = false := by
  simp only [isUrlChar, Bool.and_eq_true, Bool.not_eq_true'] at hc
  exact hc.1.1.1

/-! ## Where the cut is -/

/-- Cutting at the first of the suffixes that occurs leaves the base exactly when one of them begins
    the rest and none occurs earlier. -/
theorem findSome?_getD_eq_iff {s base suffix : Line} (hs : s = base ++ suffix) (hne : suffix ≠ [])
    (ms : List Line) :
    (ms.findSome? fun m => List.before? m s).getD s = base ↔
      ∃ earlier m later, ms = earlier ++ m :: later ∧ m <+: suffix ∧ ¬List.OccursBefore m base suffix ∧
        ∀ m' ∈ earlier, ¬m' <:+: s := by
  have hlonger : s ≠ base := by
    intro h
    rw [hs] at h
    simp [hne] at h
  constructor
  · intro h
    cases hfind : ms.findSome? fun m => List.before? m s with
    | none => exact absurd (by simpa [hfind] using h) hlonger
    | some b =>
      obtain rfl : b = base := by simpa [hfind] using h
      obtain ⟨earlier, m, later, hms, hm, hearlier⟩ := List.findSome?_eq_some_iff.mp hfind
      rw [hs] at hm
      obtain ⟨hbefore, hfirst⟩ := List.before?_append_eq_some_iff.mp hm
      exact ⟨earlier, m, later, hms, hbefore, hfirst,
        fun m' hm' => List.before?_eq_none_iff.mp (hearlier m' hm')⟩
  · intro ⟨earlier, m, later, hms, hbefore, hfirst, hearlier⟩
    have hfind : (ms.findSome? fun m => List.before? m s) = some base := by
      refine List.findSome?_eq_some_iff.mpr ⟨earlier, m, later, hms, ?_, fun m' hm' =>
        List.before?_eq_none_iff.mpr (hearlier m' hm')⟩
      rw [hs]
      exact List.before?_append_eq_some_iff.mpr ⟨hbefore, hfirst⟩
    rw [hfind, Option.getD_some]

/-- And changes nothing exactly when none occurs. -/
theorem findSome?_getD_eq_self_iff {s : Line} {ms : List Line} (hms : ∀ m ∈ ms, m ≠ []) :
    (ms.findSome? fun m => List.before? m s).getD s = s ↔ ∀ m ∈ ms, ¬m <:+: s := by
  constructor
  · intro h
    cases hfind : ms.findSome? fun m => List.before? m s with
    | none =>
      intro m hm
      exact List.before?_eq_none_iff.mp (List.findSome?_eq_none_iff.mp hfind m hm)
    | some b =>
      rw [hfind, Option.getD_some] at h
      subst h
      obtain ⟨m, hm, hbefore⟩ := List.exists_of_findSome?_eq_some hfind
      obtain ⟨r, hr, hprefix, -⟩ := List.eq_of_before? hbefore
      have hnil : r = [] := by simpa using hr
      rw [hnil, List.prefix_nil] at hprefix
      exact absurd hprefix (hms m hm)
  · intro h
    rw [List.findSome?_eq_none_iff.mpr fun m hm => List.before?_eq_none_iff.mpr (h m hm), Option.getD_none]

theorem serverSuffixes_ne_nil : ∀ m ∈ serverSuffixes, m ≠ [] := by decide

/-- An encoded name does not end in a slash. -/
theorem getLast?_encode {k : Coder} {user : Line} : (k.encode nonAlphanumeric user).getLast? ≠ some '/' := by
  intro h
  obtain h | h := mem_encode (List.mem_of_getLast? h)
  · exact absurd h (by decide)
  · exact absurd h (by decide)

/-- The slashes at the end are dropped. -/
theorem rdropWhile_slash {t : Line} (ht : t.getLast? ≠ some '/') (n : Nat) :
    (t ++ List.replicate n '/').rdropWhile (· = '/') = t := by
  induction n with
  | zero =>
    rw [List.replicate_zero, List.append_nil, List.rdropWhile_eq_self_iff_getLast?]
    cases hl : t.getLast? with
    | none => rfl
    | some c =>
      rw [hl] at ht
      simpa using ht
  | succ n ih =>
    rw [List.replicate_succ', ← List.append_assoc, List.rdropWhile_concat_pos _ _ _ (by simp), ih]

theorem baseServer_eq (s : Line) :
    baseServer s = (serverSuffixes.findSome? fun m => List.before? m (s.rdropWhile (· = '/'))).getD
      (s.rdropWhile (· = '/')) := rfl

/-- What the cut leaves, and that the first thing looked for is not in it. -/
theorem baseServer_spec (s : Line) :
    baseServer s <+: s ∧ ¬"/remote.php".toList <:+: baseServer s := by
  rw [baseServer_eq]
  have ht : s.rdropWhile (· = '/') <+: s := List.rdropWhile_prefix _ _
  generalize s.rdropWhile (· = '/') = t at ht ⊢
  cases hfind : serverSuffixes.findSome? fun m => List.before? m t with
  | none =>
    rw [Option.getD_none]
    exact ⟨ht, List.before?_eq_none_iff.mp (List.findSome?_eq_none_iff.mp hfind _ List.mem_cons_self)⟩
  | some b =>
    rw [Option.getD_some]
    obtain ⟨earlier, m, later, hms, hm, hearlier⟩ := List.findSome?_eq_some_iff.mp hfind
    obtain ⟨r, hr, hprefix, hfirst⟩ := List.eq_of_before? hm
    have hbt : b <+: t := hr ▸ List.prefix_append b r
    refine ⟨hbt.trans ht, fun hin => ?_⟩
    cases earlier with
    | nil =>
      -- it is the one that was found, and it was found where it is first
      obtain rfl : "/remote.php".toList = m := (List.cons.inj hms).1
      obtain ⟨x, rfl⟩ := hprefix
      exact hfirst ((List.occursBefore_sep_iff (x := '/') (p := "remote.php".toList) (by decide)).mpr hin)
    | cons m' earlier =>
      obtain rfl : "/remote.php".toList = m' := (List.cons.inj hms).1
      exact List.before?_eq_none_iff.mp (hearlier _ List.mem_cons_self) (hin.trans hbt.isInfix)

/-- A suffix put behind the cut is found there again. -/
theorem baseServer_append (s : Line) {x : Line} (hx : x.getLast? ≠ some '/') (hne : x ≠ []) (n : Nat) :
    baseServer (baseServer s ++ "/remote.php".toList ++ x ++ List.replicate n '/') = baseServer s := by
  have hlast : (baseServer s ++ "/remote.php".toList ++ x).getLast? ≠ some '/' := by
    rw [List.getLast?_append_of_ne_nil _ hne]
    exact hx
  have hfirst : List.before? "/remote.php".toList (baseServer s ++ "/remote.php".toList ++ x) =
      some (baseServer s) := by
    rw [List.append_assoc]
    refine List.before?_append_eq_some_iff.mpr ⟨List.prefix_append _ _, fun h => ?_⟩
    exact (baseServer_spec s).2
      ((List.occursBefore_sep_iff (x := '/') (p := "remote.php".toList) (by decide)).mp h)
  rw [baseServer_eq, rdropWhile_slash hlast, serverSuffixes, List.findSome?_cons, hfirst, Option.getD_some]

/-- The WebDAV address is the server's with the files' path. -/
theorem webdavUrl_eq (k : Coder) (server user : Line) :
    webdavUrl k server user = baseServer server ++ filesPath k user := by
  unfold webdavUrl filesPath
  generalize "/remote.php/dav/files/".toList = files
  simp only [List.append_assoc]

/-- The server's address is found again in it. -/
theorem baseServer_webdavUrl (k : Coder) (server : Line) {user : Line} (huser : user ≠ []) :
    baseServer (webdavUrl k server user) = baseServer server := by
  have hne : k.encode nonAlphanumeric user ≠ [] := encode_ne_nil huser
  have h := baseServer_append server (x := "/dav/files/".toList ++ k.encode nonAlphanumeric user) (by
    rw [List.getLast?_append_of_ne_nil _ hne]
    exact getLast?_encode) (by simp) 1
  rw [← h, webdavUrl, show "/remote.php/dav/files/".toList = "/remote.php".toList ++
    "/dav/files/".toList from rfl, ← List.append_assoc, ← List.append_assoc]
  rfl

/-! ## A normalised address stays -/

/-- It has no white space around it if the server's has none. -/
theorem trim_webdavUrl (k : Coder) {t : Line} (ht : trim t = t) (user : Line) :
    trim (webdavUrl k t user) = webdavUrl k t user := by
  have hprefix := (baseServer_spec t).1
  rw [trim, List.strip_eq_self_iff] at ht ⊢
  constructor
  · cases hb : baseServer t with
    | nil =>
      rw [webdavUrl, hb]
      exact (by decide : isWhitespace '/' = false)
    | cons c b =>
      obtain ⟨r, hr⟩ := hprefix
      rw [hb] at hr
      rw [webdavUrl, hb]
      rw [← hr] at ht
      exact ht.1
  · rw [webdavUrl, List.getLast?_concat]
    decide

/-- A normalised address stays. -/
theorem normalizeWebdavUrl_idem (k : Coder) (url user : Line) :
    normalizeWebdavUrl k (normalizeWebdavUrl k url user) user = normalizeWebdavUrl k url user := by
  have htrim : trim (trim url) = trim url := List.strip_strip url
  unfold normalizeWebdavUrl
  by_cases hplain : trim url = [] ∨ trim user = []
  · have hcond : (decide (trim url = []) || decide (trim user = [])) = true := by simpa using hplain
    simp only [hcond, if_true, htrim]
  · rw [not_or] at hplain
    have hcond : (decide (trim url = []) || decide (trim user = [])) = false := by simpa using hplain
    have huser : user ≠ [] := by
      rintro rfl
      exact hplain.2 rfl
    have hne : webdavUrl k (trim url) user ≠ [] := by simp [webdavUrl]
    simp only [hcond, Bool.false_eq_true, if_false, trim_webdavUrl k htrim]
    simp only [hne, hplain.2, decide_false, Bool.or_false, Bool.false_eq_true, if_false]
    rw [webdavUrl_eq, baseServer_webdavUrl k _ huser, webdavUrl_eq]

/-! ## An address in its parts -/

namespace ServerUrl

variable {u : ServerUrl}

/-- The scheme is not empty. -/
theorem scheme_ne_nil (u : ServerUrl) : u.scheme ≠ [] := by
  intro h
  obtain hw | hw := u.web
  all_goals
    rw [h] at hw
    cases hw

/-- The scheme has letters only. -/
theorem isAlpha_of_mem_scheme {c : Char} (hc : c ∈ u.scheme) : c.isAlpha = true := by
  have hlower : c.toLower ∈ "https".toList := by
    have hmem := List.mem_map_of_mem (f := Char.toLower) hc
    obtain hw | hw := u.web
    all_goals
      rw [hw] at hmem
    · exact List.mem_of_mem_dropLast (l := "https".toList) hmem
    · exact hmem
  by_cases hupper : c.isUpper = true
  · simp [Char.isAlpha, hupper]
  · have hsame : c.toLower = c := by
      unfold Char.toLower
      rw [dif_neg]
      simpa [Char.isUpper] using hupper
    rw [hsame] at hlower
    exact List.all_eq_true.mp (by decide : "https".toList.all Char.isAlpha = true) c hlower

/-- The parts have the characters of an address, and so has the whole. -/
theorem isUrlChar_of_mem_text {c : Char} (hc : c ∈ u.text) : isUrlChar c = true := by
  have hcolon : ∀ c ∈ "://".toList, isUrlChar c = true := List.all_eq_true.mp (by decide)
  have hnames : ∀ name ∈ suffixNames, ∀ c ∈ name, isUrlChar c = true := by
    have : suffixNames.all (fun name => name.all isUrlChar) = true := by decide
    intro name hname c hc
    exact List.all_eq_true.mp (List.all_eq_true.mp this name hname) c hc
  unfold text base at hc
  simp only [List.mem_append] at hc
  obtain ((((hc | hc) | hc) | hc) | hc) | hc := hc
  · have halpha := isAlpha_of_mem_scheme hc
    exact isUrlChar_of_isAlphanum (by simp [Char.isAlphanum, halpha])
  · exact hcolon c hc
  · exact (u.authority_chars c hc).1
  · exact u.install_path.chars c hc
  · obtain hnil | ⟨name, hname, rest, hrest, hsuffix⟩ := u.suffix_path
    · rw [hnil] at hc
      cases hc
    · rw [hsuffix] at hc
      obtain hc | hc := List.mem_append.mp hc
      · exact hnames name hname c hc
      · exact hrest.chars c hc
  · rw [List.eq_of_mem_replicate hc]
    decide

/-- The address has no white space around it. -/
theorem trim_text (u : ServerUrl) : trim u.text = u.text := by
  rw [trim, List.strip_eq_self_iff]
  have hnot : ∀ o : Option Char, (∀ c ∈ o, c ∈ u.text) → o.any isWhitespace = false := by
    intro o ho
    cases o with
    | none => rfl
    | some c => exact not_isWhitespace_of_isUrlChar (isUrlChar_of_mem_text (ho c rfl))
  exact ⟨hnot _ fun c hc => List.mem_of_mem_head? hc, hnot _ fun c hc => List.mem_of_mem_getLast? hc⟩

/-- Its base does not end in a slash. -/
theorem getLast?_base (u : ServerUrl) : u.base.getLast? ≠ some '/' := by
  unfold base
  by_cases hinstall : u.install = []
  · rw [hinstall, List.append_nil, List.getLast?_append_of_ne_nil _ u.authority_ne]
    intro h
    have := (u.authority_chars _ (List.mem_of_getLast? h)).2
    simp [isAuthorityEnd, isSlash] at this
  · rw [List.getLast?_append_of_ne_nil _ hinstall]
    exact u.install_path.last

/-- Nor does it with the suffix. -/
theorem getLast?_base_suffix (u : ServerUrl) : (u.base ++ u.suffix).getLast? ≠ some '/' := by
  obtain hnil | ⟨name, hname, rest, hrest, hsuffix⟩ := u.suffix_path
  · rw [hnil, List.append_nil]
    exact u.getLast?_base
  · have hnames : ∀ name ∈ suffixNames, name ≠ [] ∧ name.getLast? ≠ some '/' := by decide
    obtain ⟨hne, hlast⟩ := hnames name hname
    rw [hsuffix]
    by_cases hr : rest = []
    · rw [hr, List.append_nil, List.getLast?_append_of_ne_nil _ hne]
      exact hlast
    · rw [← List.append_assoc, List.getLast?_append_of_ne_nil _ hr]
      exact hrest.last

/-- The cut is where the suffix begins if and only if the address is an ordinary one. -/
theorem baseServer_text_iff (u : ServerUrl) : baseServer u.text = u.base ↔ u.Ordinary := by
  rw [baseServer_eq, text, rdropWhile_slash u.getLast?_base_suffix, Ordinary]
  split
  · rename_i hnil
    rw [hnil, List.append_nil]
    exact findSome?_getD_eq_self_iff serverSuffixes_ne_nil
  · rename_i hne
    exact findSome?_getD_eq_iff rfl hne _

/-- A text that begins with the address up to its install path has the origin of the address. -/
theorem parse_base_append (p : Parser) (u : ServerUrl) {x : Line} (hx : x = [] ∨ ∃ y, x = '/' :: y)
    (hchars : ∀ c ∈ x, isUrlChar c = true) : p.parse (u.base ++ x) = p.parse u.base := by
  have hweb : (defaultPort (u.scheme.map Char.toLower)).isSome := by
    obtain hw | hw := u.web <;> rw [hw] <;> rfl
  have hscheme : ∀ c ∈ u.scheme, isSchemeChar c = true := by
    intro c hc
    simp [isSchemeChar, Char.isAlphanum, isAlpha_of_mem_scheme hc]
  have halpha : u.scheme.head?.any Char.isAlpha = true := by
    obtain ⟨c, l, hl⟩ := List.exists_cons_of_ne_nil u.scheme_ne_nil
    rw [hl, List.head?_cons, Option.any_some]
    exact isAlpha_of_mem_scheme (u := u) (by simp [hl])
  have hauthority : ∀ c ∈ u.authority, isAuthorityEnd c = false := fun c hc => (u.authority_chars c hc).2
  have hbase : ∀ c ∈ u.base, isBlank c = false := by
    intro c hc
    refine not_isBlank_of_isUrlChar (isUrlChar_of_mem_text (u := u) ?_)
    rw [text, List.append_assoc]
    exact List.mem_append_left _ hc
  -- the path is that of the installation and what follows
  have hpath : u.install ++ x = [] ∨ ∃ y, u.install ++ x = '/' :: y := by
    obtain hi | ⟨q, hi⟩ := u.install_path.slash
    · rwa [hi, List.nil_append]
    · exact .inr ⟨q ++ x, by rw [hi, List.cons_append]⟩
  have hsame : u.base ++ x = u.scheme ++ "://".toList ++ u.authority ++ (u.install ++ x) := by
    rw [base, List.append_assoc]
  have hblank : ∀ c ∈ u.scheme ++ "://".toList ++ u.authority ++ (u.install ++ x), isBlank c = false := by
    intro c hc
    rw [← hsame] at hc
    obtain hc | hc := List.mem_append.mp hc
    · exact hbase c hc
    · exact not_isBlank_of_isUrlChar (hchars c hc)
  rw [hsame]
  exact p.parse_path hweb hscheme halpha hauthority u.authority_ne hpath u.install_path.slash hblank hbase

end ServerUrl

/-! ## The server that is connected to -/

/-- `url` has the host of the requested server, and no password is sent to it in plain text. -/
def PointsAt (p : Parser) (url requestedServer : Line) : Prop :=
  ∃ o r, p.parse url = some o ∧ p.parse (baseServer requestedServer) = some r ∧
    eqIgnoreAsciiCase (o.host.getD []) (r.host.getD []) = true ∧
    ¬(o.scheme = "http".toList ∧ isLoopbackHost (o.host.getD []) = false)

variable {p : Parser} {k : Coder} {returned requested : Line}

/-- What the checks passed with. -/
theorem validateServerScheme_ok (hok : validateServerScheme p returned false = .ok ()) :
    ∃ o, p.parse (baseServer returned) = some o ∧ (o.scheme = "https".toList ∨ o.scheme = "http".toList) ∧
      ¬(o.scheme = "http".toList ∧ isLoopbackHost (o.host.getD []) = false) := by
  unfold validateServerScheme at hok
  split at hok
  · cases hok
  · rename_i o ho
    split at hok
    · rename_i hscheme
      refine ⟨o, ho, .inl hscheme, fun ⟨hhttp, _⟩ => ?_⟩
      rw [hscheme] at hhttp
      exact absurd hhttp (by decide)
    · split at hok
      · rename_i hscheme
        split at hok
        · rename_i hloopback
          refine ⟨o, ho, .inr hscheme, fun ⟨_, hnot⟩ => ?_⟩
          simp [hnot] at hloopback
        · cases hok
      · cases hok

/-- What the check of the login server has passed. -/
theorem validateLoginServer_ok (hok : validateLoginServer p returned requested = .ok ()) :
    ∃ o r, p.parse (baseServer returned) = some o ∧ p.parse (baseServer requested) = some r ∧
      (defaultPort o.scheme).isSome ∧ eqIgnoreAsciiCase (o.host.getD []) (r.host.getD []) = true ∧
      ¬(o.scheme = "http".toList ∧ isLoopbackHost (o.host.getD []) = false) := by
  unfold validateLoginServer at hok
  cases hscheme : validateServerScheme p returned false with
  | error e =>
    rw [hscheme] at hok
    cases hok
  | ok =>
    obtain ⟨o, ho, hweb, hplain⟩ := validateServerScheme_ok hscheme
    rw [hscheme] at hok
    simp only [ho] at hok
    split at hok
    · cases hok
    · rename_i r hr
      refine ⟨o, r, ho, hr, ?_, ?_, hplain⟩
      · obtain hs | hs := hweb <;> rw [hs] <;> rfl
      · cases hhost : eqIgnoreAsciiCase (o.host.getD []) (r.host.getD []) with
        | true => rfl
        | false =>
          simp only [hhost, Bool.not_false, Bool.or_true, if_true] at hok
          split at hok <;> cases hok

/-- An accepted server is the one that is connected to if and only if no blank ends its host. -/
theorem pointsAt_webdavUrl_iff (hok : validateLoginServer p returned requested = .ok ()) (login : Line) :
    PointsAt p (webdavUrl k returned login) requested ↔ endsInBlank (baseServer returned) = false := by
  obtain ⟨o, r, ho, hr, hweb, hhost, hplain⟩ := validateLoginServer_ok hok
  have htail : ∃ tail, filesPath k login = '/' :: tail := ⟨_, rfl⟩
  obtain ⟨tail, htail⟩ := htail
  have hblank : ∀ c ∈ tail, isBlank c = false := fun c hc =>
    not_isBlank_of_isUrlChar (@isUrlChar_of_mem_filesPath k login _ (by simp [htail, hc]))
  have hparse := p.parse_append ho hweb hblank
  rw [← htail, ← webdavUrl_eq] at hparse
  cases hends : endsInBlank (baseServer returned) with
  | false =>
    rw [hends] at hparse
    exact ⟨fun _ => rfl, fun _ => ⟨o, r, hparse, hr, hhost, hplain⟩⟩
  | true =>
    rw [hends] at hparse
    constructor
    · intro ⟨o', _, ho', _⟩
      rw [ho'] at hparse
      cases hparse
    · intro hfalse
      cases hfalse

/-! ## Origin and install path -/

/-- The address is cut right, or it is the canonical one and there is no user to add. -/
def ServerUrl.Kept (k : Coder) (u : ServerUrl) (user : Line) : Prop :=
  if trim user = [] then u.suffix ++ List.replicate u.slashes '/' = filesPath k user else u.Ordinary

/-- The address is normalized to the server's files exactly when nothing is cut from it. -/
theorem normalizeWebdavUrl_text_iff (k : Coder) (u : ServerUrl) (user : Line) :
    normalizeWebdavUrl k u.text user = u.base ++ filesPath k user ↔ u.Kept k user := by
  have hne : u.text ≠ [] := by
    intro hnil
    simp only [ServerUrl.text, ServerUrl.base, List.append_eq_nil_iff] at hnil
    exact u.authority_ne hnil.1.1.1.2
  unfold normalizeWebdavUrl ServerUrl.Kept
  simp only [u.trim_text, hne, decide_false, Bool.false_or, decide_eq_true_iff]
  split
  · rw [ServerUrl.text, List.append_assoc, List.append_right_inj]
  · rw [webdavUrl_eq, List.append_left_inj]
    exact u.baseServer_text_iff

/-- An address keeps its origin and its install path if and only if it is cut right, and a login server
    that was accepted is the one that is connected to if and only if no blank ends its host. -/
theorem normalized_url_iff (p : Parser) (k : Coder) (u : ServerUrl) (user returned requested login : Line) :
    (normalizeWebdavUrl k u.text user = u.base ++ filesPath k user ∧
      p.parse (normalizeWebdavUrl k u.text user) = p.parse u.text ∧
      normalizeWebdavUrl k (normalizeWebdavUrl k u.text user) user = normalizeWebdavUrl k u.text user ∧
      (validateLoginServer p returned requested = .ok () → PointsAt p (webdavUrl k returned login) requested)) ↔
      u.Kept k user ∧
      (validateLoginServer p returned requested = .ok () → endsInBlank (baseServer returned) = false) := by
  have hlogin : (validateLoginServer p returned requested = .ok () →
      PointsAt p (webdavUrl k returned login) requested) ↔
      (validateLoginServer p returned requested = .ok () → endsInBlank (baseServer returned) = false) :=
    imp_congr_right fun hok => pointsAt_webdavUrl_iff hok login
  -- the suffix and the slashes belong to the path
  have htext : p.parse u.text = p.parse u.base := by
    have hmem : ∀ c ∈ u.suffix ++ List.replicate u.slashes '/', c ∈ u.text := by
      intro c hc
      rw [ServerUrl.text, List.append_assoc]
      exact List.mem_append_right _ hc
    rw [ServerUrl.text, List.append_assoc]
    refine u.parse_base_append p ?_ fun c hc => ServerUrl.isUrlChar_of_mem_text (hmem c hc)
    obtain hnil | ⟨name, hname, rest, -, hsuffix⟩ := u.suffix_path
    · rw [hnil, List.nil_append]
      cases u.slashes with
      | zero => exact .inl rfl
      | succ n => exact .inr ⟨_, List.replicate_succ⟩
    · have hslash : ∀ name ∈ suffixNames, ∃ y, name = '/' :: y := by
        intro name hname
        simp only [suffixNames, List.mem_cons, List.not_mem_nil, or_false] at hname
        obtain rfl | rfl | rfl | rfl := hname <;> exact ⟨_, rfl⟩
      obtain ⟨y, hy⟩ := hslash name hname
      exact .inr ⟨y ++ rest ++ List.replicate u.slashes '/', by simp [hsuffix, hy]⟩
  rw [hlogin, normalizeWebdavUrl_text_iff]
  constructor
  · exact fun ⟨hkept, _, _, hok⟩ => ⟨hkept, hok⟩
  · -- what is parsed does not depend on the path
    intro ⟨hkept, hok⟩
    refine ⟨hkept, ?_, normalizeWebdavUrl_idem _ _ _, hok⟩
    rw [(normalizeWebdavUrl_text_iff k u user).mpr hkept, htext]
    exact u.parse_base_append p (.inr ⟨_, rfl⟩) fun c hc => isUrlChar_of_mem_filesPath hc

/-- A host parser that takes anything without blanks. -/
def asciiHosts : HostParser where
  host t := if t.any isBlank then none else some (t.map Char.toLower)
  host_blank _ c hc hb := if_pos (List.any_eq_true.mpr ⟨c, hc, hb⟩)
  other _ _ := none

/-- A text all of whose characters may stand in an authority. -/
theorem chars_of_all {t : Line} (h : t.all (fun c => isUrlChar c && !isAuthorityEnd c) = true) :
    ∀ c ∈ t, isUrlChar c = true ∧ isAuthorityEnd c = false := by
  intro c hc
  simpa using List.all_eq_true.mp h c hc

/-- `https://cloud.example.com:8443/nc/remote.php/webdav/`. -/
def installedCloud : ServerUrl where
  scheme := "https".toList
  authority := "cloud.example.com:8443".toList
  install := "/nc".toList
  suffix := "/remote.php/webdav".toList
  slashes := 1
  web := .inr (by decide)
  authority_ne := by decide
  authority_chars := chars_of_all (by decide)
  install_path := ⟨List.all_eq_true.mp (by decide), .inr ⟨_, rfl⟩, by decide⟩
  suffix_path := .inr ⟨"/remote.php".toList, by decide, "/webdav".toList,
    ⟨List.all_eq_true.mp (by decide), .inr ⟨_, rfl⟩, by decide⟩, rfl⟩

/-- An address in a common form keeps its origin and its install path. -/
theorem installed_cloud_is_kept :
    normalizeWebdavUrl PercentEncoding.coder installedCloud.text "alice".toList =
        installedCloud.base ++ filesPath PercentEncoding.coder "alice".toList ∧
      asciiHosts.parser.parse (normalizeWebdavUrl PercentEncoding.coder installedCloud.text "alice".toList) =
        asciiHosts.parser.parse installedCloud.text ∧
      normalizeWebdavUrl PercentEncoding.coder
          (normalizeWebdavUrl PercentEncoding.coder installedCloud.text "alice".toList) "alice".toList =
        normalizeWebdavUrl PercentEncoding.coder installedCloud.text "alice".toList ∧
      (validateLoginServer asciiHosts.parser "https://cloud.example.com:8443/nc".toList
        installedCloud.text = .ok () →
        PointsAt asciiHosts.parser
          (webdavUrl PercentEncoding.coder "https://cloud.example.com:8443/nc".toList "alice".toList)
          installedCloud.text) := by
  refine (normalized_url_iff asciiHosts.parser PercentEncoding.coder installedCloud "alice".toList
    "https://cloud.example.com:8443/nc".toList installedCloud.text "alice".toList).mpr ⟨?_, fun _ => by decide⟩
  have hfirst : ¬List.OccursBefore "/remote.php".toList installedCloud.base installedCloud.suffix := by
    intro h
    exact absurd ((List.occursBefore_sep_iff (x := '/') (p := "remote.php".toList) (by decide)).mp
      h) (by decide)
  show installedCloud.Ordinary
  exact ⟨[], "/remote.php".toList, _, rfl, by decide, hfirst, nofun⟩

/-- `https://webdav.example.com`. -/
def webdavHost : ServerUrl where
  scheme := "https".toList
  authority := "webdav.example.com".toList
  install := []
  suffix := []
  slashes := 0
  web := .inr (by decide)
  authority_ne := by decide
  authority_chars := chars_of_all (by decide)
  install_path := ⟨nofun, .inl rfl, by decide⟩
  suffix_path := .inl rfl

/-- The host is cut away, and the files are asked for on a host called `remote.php`. -/
theorem webdav_host_is_cut :
    webdavHost.text = "https://webdav.example.com".toList ∧
      normalizeWebdavUrl PercentEncoding.coder webdavHost.text "alice".toList =
        "https://remote.php/dav/files/alice/".toList ∧
      normalizeWebdavUrl PercentEncoding.coder webdavHost.text "alice".toList ≠
        webdavHost.base ++ filesPath PercentEncoding.coder "alice".toList := by
  decide

/-- The blank is ignored by the check, and makes the address that is connected to none. -/
example :
    validateLoginServer asciiHosts.parser "https://cloud.example.com ".toList
        "https://cloud.example.com".toList = .ok () ∧
      asciiHosts.parser.parse
        (webdavUrl PercentEncoding.coder "https://cloud.example.com ".toList "alice".toList) = none := by
  decide

end Ncrs
