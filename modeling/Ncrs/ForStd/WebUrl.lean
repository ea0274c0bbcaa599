import Ncrs.ForStd.Fields

/-!
# Web URLs

How an `http` or `https` URL is taken apart: blanks at the ends and tabs anywhere go first, then
come the scheme, any number of slashes, and the authority up to the next slash, `?` or `#`. A `Parser`
is a library that reads URLs in this way; what it makes of an authority, and of other schemes, is its own
matter. `HostParser.parser` is one, over any way to read and normalise host names.

What follows a complete authority does not matter for the origin, except that a blank the end of
the text loses is kept when more text comes after it (`Parser.parse_append`).
-/

namespace WebUrl

/-- A C0 control or a space. -/
def isBlank (c : Char) : Bool := c ≤ ' '

/-- A character the parser takes out wherever it stands. -/
def isTabOrNewline (c : Char) : Bool := c = '\t' || c = '\n' || c = '\r'

/-- A slash, written either way. -/
def isSlash (c : Char) : Bool := c = '/' || c = '\\'

/-- What ends an authority. -/
def isAuthorityEnd (c : Char) : Bool := isSlash c || c = '?' || c = '#'

/-- Where a URL leads: scheme, host and port. -/
structure Origin where
  scheme : List Char
  host : Option (List Char)
  /-- `none` for the default port. -/
  port : Option Nat := none
  deriving DecidableEq, Repr

/-- The text without what is ignored. -/
def prepared (t : List Char) : List Char := (t.strip isBlank).filter fun c => !isTabOrNewline c

/-- A character a scheme may have behind its first one. -/
def isSchemeChar (c : Char) : Bool := c.isAlphanum || c = '+' || c = '-' || c = '.'

/-- The scheme in lower case, and what comes after the colon. -/
def splitScheme (t : List Char) : Option (List Char × List Char) :=
  match t.dropWhile isSchemeChar with
  | ':' :: rest =>
    if t.head?.any Char.isAlpha then some ((t.takeWhile isSchemeChar).map Char.toLower, rest) else none
  | _ => none

/-- `None` for a scheme that is not one of the two. -/
def defaultPort (scheme : List Char) : Option Nat :=
  if scheme = "http".toList then some 80 else if scheme = "https".toList then some 443 else none

/-- The part between the scheme's slashes and the path. -/
def authority (rest : List Char) : List Char := (rest.dropWhile isSlash).takeWhile fun c => !isAuthorityEnd c

/-- A reader of URLs: the scheme, host and port of a text, or `none` where it is no URL. -/
structure Parser where
  parse : List Char → Option Origin
  /-- The scheme is what stands before the colon, in lower case. -/
  scheme_eq : ∀ t o, parse t = some o → ∃ rest, splitScheme (prepared t) = some (o.scheme, rest)
  /-- The host and port of an `http` or `https` URL are in its authority. -/
  authority_eq : ∀ t t' scheme rest rest', splitScheme (prepared t) = some (scheme, rest) →
    splitScheme (prepared t') = some (scheme, rest') → (defaultPort scheme).isSome →
    authority rest = authority rest' → parse t = parse t'
  /-- They have a host. -/
  authority_ne_nil : ∀ t scheme rest, splitScheme (prepared t) = some (scheme, rest) →
    (defaultPort scheme).isSome → authority rest = [] → parse t = none
  /-- Neither a host nor a port ends in a blank. -/
  authority_blank : ∀ t scheme rest, splitScheme (prepared t) = some (scheme, rest) →
    (defaultPort scheme).isSome → (authority rest).getLast?.any isBlank = true → parse t = none

/-! ## More text after a URL -/

/-- The text is not over with the authority. -/
def hasPath (t : List Char) : Bool :=
  (splitScheme (prepared t)).any fun r => (r.2.dropWhile isSlash).any isAuthorityEnd

/-- The text ends in its authority, with a blank that is ignored there. -/
def endsInBlank (t : List Char) : Bool :=
  (t.rtakeWhile isBlank).any (fun c => !isTabOrNewline c) && !hasPath t

variable {c : Char} {b l t tail : List Char}

/-- A blank is a space or a control character. -/
theorem toNat_le_of_isBlank (hc : isBlank c = true) : c.toNat ≤ 32 := by
  simpa [isBlank, Char.le_def, UInt32.le_iff_toNat_le] using hc

/-- A blank is no character that is none. -/
theorem ne_of_isBlank {d : Char} (hc : isBlank c = true) (hd : isBlank d = false) : c ≠ d := by
  rintro rfl
  rw [hc] at hd
  cases hd

/-- A blank does not end the authority. -/
theorem not_isAuthorityEnd_of_isBlank (hc : isBlank c = true) : isAuthorityEnd c = false := by
  have hne : ∀ d, isBlank d = false → c ≠ d := fun d => ne_of_isBlank hc
  simp [isAuthorityEnd, isSlash, hne '/' (by decide), hne '\\' (by decide), hne '?' (by decide),
    hne '#' (by decide)]

/-- A longer text has the scheme it had. -/
theorem splitScheme_append {r : List Char × List Char} (hr : splitScheme t = some r) (l : List Char) :
    splitScheme (t ++ l) = some (r.1, r.2 ++ l) := by
  unfold splitScheme at hr ⊢
  split at hr
  · rename_i rest hrest
    split at hr
    · rename_i halpha
      cases hr
      have hnot : ¬(t.dropWhile isSchemeChar).isEmpty = true := by simp [hrest]
      have htake : (t ++ l).takeWhile isSchemeChar = t.takeWhile isSchemeChar := by
        rw [List.takeWhile_append, if_neg]
        intro hlen
        have := congrArg List.length (List.takeWhile_append_dropWhile (p := isSchemeChar) (l := t))
        rw [List.length_append, hrest, List.length_cons] at this
        omega
      have hhead : (t ++ l).head? = t.head? := by
        cases t with
        | nil => simp at halpha
        | cons c t => rfl
      rw [List.dropWhile_append, if_neg hnot, hrest, List.cons_append]
      simp only [hhead, halpha, if_true, htake]
    · cases hr
  · cases hr

/-- What follows an authority begins with a slash and may have blanks before it. -/
theorem authority_append {rest : List Char} (hrest : authority rest ≠ []) (hb : ∀ c ∈ b, isBlank c = true)
    (tail : List Char) :
    authority (rest ++ (b ++ '/' :: tail)) =
      if (rest.dropWhile isSlash).any isAuthorityEnd then authority rest else authority rest ++ b := by
  unfold authority at hrest ⊢
  have hne : ¬(rest.dropWhile isSlash).isEmpty = true := by
    intro hempty
    rw [List.isEmpty_iff.mp hempty] at hrest
    exact hrest rfl
  rw [List.dropWhile_append, if_neg hne]
  generalize rest.dropWhile isSlash = a
  induction a with
  | nil =>
    rw [List.nil_append, List.takeWhile_append_of_pos fun c hc => by
      rw [not_isAuthorityEnd_of_isBlank (hb c hc), Bool.not_false]]
    simp [isAuthorityEnd, isSlash]
  | cons c a ih =>
    rw [List.cons_append, List.takeWhile_cons, List.takeWhile_cons, List.any_cons]
    cases isAuthorityEnd c with
    | true => simp
    | false =>
      simp only [Bool.not_false, if_true, Bool.false_or, ih]
      split <;> simp

/-- Tabs and line ends are blanks. -/
theorem isBlank_of_isTabOrNewline (hc : isTabOrNewline c = true) : isBlank c = true := by
  simp only [isTabOrNewline, Bool.or_eq_true, decide_eq_true_iff] at hc
  obtain (rfl | rfl) | rfl := hc <;> decide

/-- Dropping blanks in front leaves those at the end. -/
theorem rtakeWhile_dropWhile {p : Char → Bool} (hsome : ∃ c ∈ t, p c = false) :
    (t.dropWhile p).rtakeWhile p = t.rtakeWhile p := by
  conv_rhs => rw [← List.takeWhile_append_dropWhile (p := p) (l := t)]
  rw [List.rtakeWhile, List.rtakeWhile, List.reverse_append, List.takeWhile_append, if_neg]
  intro hlen
  have hall : ∀ c ∈ (t.dropWhile p).reverse, p c = true := by
    rw [← List.takeWhile_eq_self_iff]
    exact (List.takeWhile_prefix p).eq_of_length hlen
  obtain ⟨c, hc, hpc⟩ := hsome
  cases hd : t.dropWhile p with
  | nil =>
    rw [List.dropWhile_eq_nil_iff.mp hd c hc] at hpc
    cases hpc
  | cons d ds =>
    have hhead := List.head_dropWhile_not p (l := t) (by rw [hd]; simp)
    rw [hall _ (by simp)] at hhead
    cases hhead

/-- A path added behind keeps the blanks in front of it from being taken off. -/
theorem prepared_append (hsome : ∃ c ∈ t, isBlank c = false) (htail : ∀ c ∈ tail, isBlank c = false) :
    prepared (t ++ '/' :: tail) =
      prepared t ++ ((t.rtakeWhile isBlank).filter (fun c => !isTabOrNewline c) ++ '/' :: tail) := by
  have hend : ∀ c ∈ '/' :: tail, isBlank c = false := by
    intro c hc
    obtain rfl | hc := List.mem_cons.mp hc
    · decide
    · exact htail c hc
  have hself : ('/' :: tail).rdropWhile isBlank = '/' :: tail := by
    rw [List.rdropWhile_eq_self_iff]
    intro hl
    simp [hend _ (List.getLast_mem hl)]
  have hfilter : ('/' :: tail).filter (fun c => !isTabOrNewline c) = '/' :: tail := by
    rw [List.filter_eq_self]
    intro c hc
    cases htab : isTabOrNewline c with
    | false => rfl
    | true => exact absurd (isBlank_of_isTabOrNewline htab) (by simp [hend c hc])
  have hparts : (t.dropWhile isBlank).rdropWhile isBlank ++ t.rtakeWhile isBlank = t.dropWhile isBlank := by
    rw [← rtakeWhile_dropWhile hsome]
    exact List.rdropWhile_append_rtakeWhile
  rw [prepared, prepared, List.strip, List.strip, List.dropWhile_append_of_exists _ hsome,
    List.rdropWhile_append_of_exists _ ⟨'/', List.mem_cons_self, by decide⟩, hself, List.filter_append, hfilter,
    ← List.append_assoc, ← List.filter_append, hparts]

/-- More text after a slash leaves the origin what it is, unless a blank before it counts now. -/
theorem Parser.parse_append (p : Parser) {o : Origin} (ho : p.parse t = some o)
    (hweb : (defaultPort o.scheme).isSome)
    (htail : ∀ c ∈ tail, isBlank c = false) :
    p.parse (t ++ '/' :: tail) = if endsInBlank t then none else some o := by
  obtain ⟨rest, hscheme⟩ := p.scheme_eq t o ho
  have hsome : ∃ c ∈ t, isBlank c = false := by
    by_contra hall
    have hall : ∀ c ∈ t, isBlank c = true := by simpa using hall
    have hnil : prepared t = [] := by simp [prepared, List.strip, List.dropWhile_eq_nil_iff.mpr hall]
    rw [hnil] at hscheme
    cases hscheme
  set b := (t.rtakeWhile isBlank).filter fun c => !isTabOrNewline c with hbdef
  have hb : ∀ c ∈ b, isBlank c = true := fun c hc =>
    List.mem_rtakeWhile_imp (List.mem_of_mem_filter hc)
  have hany : (t.rtakeWhile isBlank).any (fun c => !isTabOrNewline c) = true ↔ b ≠ [] := by
    simp [hbdef]
  have hpath : hasPath t = (rest.dropWhile isSlash).any isAuthorityEnd := by simp [hasPath, hscheme]
  have hscheme' : splitScheme (prepared (t ++ '/' :: tail)) = some (o.scheme, rest ++ (b ++ '/' :: tail)) := by
    rw [prepared_append hsome htail]
    exact splitScheme_append hscheme _
  have hne : authority rest ≠ [] := by
    intro hnil
    rw [p.authority_ne_nil t o.scheme rest hscheme hweb hnil] at ho
    cases ho
  have happend := authority_append hne hb tail
  rw [← hpath] at happend
  have hsame : authority (rest ++ (b ++ '/' :: tail)) = authority rest →
    p.parse (t ++ '/' :: tail) = some o := by
    intro heq
    rw [p.authority_eq _ t o.scheme _ rest hscheme' hscheme hweb heq, ho]
  rw [endsInBlank]
  cases hp : hasPath t with
  | true =>
    rw [hp, if_pos rfl] at happend
    simpa using hsame happend
  | false =>
    rw [hp, if_neg Bool.false_ne_true] at happend
    by_cases hbnil : b = []
    · have hnot : ¬(t.rtakeWhile isBlank).any (fun c => !isTabOrNewline c) = true := fun h => hany.mp h hbnil
      rw [hbnil, List.append_nil] at happend
      rw [hsame (by rw [hbnil]; exact happend)]
      simp [hnot]
    · -- the blank is in the authority now, at its end
      have hlast : (authority (rest ++ (b ++ '/' :: tail))).getLast?.any isBlank = true := by
        rw [happend, List.getLast?_append_of_ne_nil _ hbnil, List.getLast?_eq_some_getLast hbnil,
          Option.any_some]
        exact hb _ (List.getLast_mem hbnil)
      rw [p.authority_blank _ o.scheme _ hscheme' hweb hlast, hany.mpr hbnil]
      rfl

/-! ## A URL written out -/

/-- A text without blanks is read as it is. -/
theorem prepared_of_no_blank (ht : ∀ c ∈ t, isBlank c = false) : prepared t = t := by
  have hstrip : t.strip isBlank = t := by
    rw [List.strip, List.dropWhile_eq_self_iff.mpr, List.rdropWhile_eq_self_iff.mpr]
    · exact fun hl => by simp [ht _ (List.getLast_mem hl)]
    · exact fun hl => by simp [ht _ (List.getElem_mem hl)]
  rw [prepared, hstrip, List.filter_eq_self]
  intro c hc
  cases htab : isTabOrNewline c with
  | false => rfl
  | true => exact absurd (isBlank_of_isTabOrNewline htab) (by simp [ht c hc])

/-- A URL without blanks is cut where its scheme ends. -/
theorem splitScheme_written {scheme x : List Char} (hscheme : ∀ c ∈ scheme, isSchemeChar c = true)
    (halpha : scheme.head?.any Char.isAlpha = true) (hblank : ∀ c ∈ scheme ++ ':' :: x, isBlank c = false) :
    splitScheme (prepared (scheme ++ ':' :: x)) = some (scheme.map Char.toLower, x) := by
  have hdrop : (scheme ++ ':' :: x).dropWhile isSchemeChar = ':' :: x := by
    rw [List.dropWhile_append_of_pos hscheme]
    rfl
  have htake : (scheme ++ ':' :: x).takeWhile isSchemeChar = scheme := by
    rw [List.takeWhile_append_of_pos hscheme]
    simp [isSchemeChar]
  have hhead : (scheme ++ ':' :: x).head? = scheme.head? := by
    cases scheme with
    | nil => simp at halpha
    | cons c scheme => rfl
  rw [prepared_of_no_blank hblank, splitScheme, hdrop]
  simp only [hhead, halpha, if_true, htake]

/-- The authority is read back from a URL that is written with one. -/
theorem authority_written {a x : List Char} (ha : ∀ c ∈ a, isAuthorityEnd c = false) (hne : a ≠ [])
    (hx : x = [] ∨ ∃ y, x = '/' :: y) : authority ('/' :: '/' :: (a ++ x)) = a := by
  obtain ⟨c, a, rfl⟩ := List.exists_cons_of_ne_nil hne
  have hc : isSlash c = false := by
    have := ha c List.mem_cons_self
    simp only [isAuthorityEnd, Bool.or_eq_false_iff] at this
    exact this.1.1
  rw [authority]
  simp only [List.dropWhile_cons, List.cons_append, hc, show isSlash '/' = true from rfl, if_true,
    Bool.false_eq_true, if_false]
  rw [← List.cons_append, List.takeWhile_append_of_pos fun c hc => by simp [ha c hc]]
  obtain rfl | ⟨y, rfl⟩ := hx <;> simp [isAuthorityEnd, isSlash]

/-- The origin does not depend on the path. -/
theorem Parser.parse_path (p : Parser) {scheme a x x' : List Char}
    (hweb : (defaultPort (scheme.map Char.toLower)).isSome)
    (hscheme : ∀ c ∈ scheme, isSchemeChar c = true) (halpha : scheme.head?.any Char.isAlpha = true)
    (ha : ∀ c ∈ a, isAuthorityEnd c = false) (hne : a ≠ []) (hx : x = [] ∨ ∃ y, x = '/' :: y)
    (hx' : x' = [] ∨ ∃ y, x' = '/' :: y) (hblank : ∀ c ∈ scheme ++ "://".toList ++ a ++ x, isBlank c = false)
    (hblank' : ∀ c ∈ scheme ++ "://".toList ++ a ++ x', isBlank c = false) :
    p.parse (scheme ++ "://".toList ++ a ++ x) = p.parse (scheme ++ "://".toList ++ a ++ x') := by
  have hcut : ∀ z, scheme ++ "://".toList ++ a ++ z = scheme ++ ':' :: ('/' :: '/' :: (a ++ z)) := by
    intro z
    simp
  rw [hcut] at hblank hblank' ⊢
  rw [hcut]
  exact p.authority_eq _ _ _ _ _ (splitScheme_written hscheme halpha hblank)
    (splitScheme_written hscheme halpha hblank') hweb
    ((authority_written ha hne hx).trans (authority_written ha hne hx').symm)

/-! ## A parser -/

/-- What is left to others. -/
structure HostParser where
  /-- The host parser, for the schemes here. -/
  host : List Char → Option (List Char)
  /-- A text is rejected for a blank in it. -/
  host_blank : ∀ t c, c ∈ t → isBlank c = true → host t = none
  /-- The host of a URL of another scheme, if that is one. -/
  other : List Char → List Char → Option (Option (List Char))

/-- The host and what comes after it; a colon inside brackets belongs to the host. -/
def splitHost : Bool → List Char → List Char × List Char
  | _, [] => ([], [])
  | inside, c :: t =>
    if c = ':' && !inside then ([], c :: t)
    else
      let r := splitHost (if c = '[' then true else if c = ']' then false else inside) t
      (c :: r.1, r.2)

/-- The port after a host, `none` where the scheme's own is meant. -/
def readPort (default : Nat) : List Char → Option (Option Nat)
  | [] => some none
  | _ :: digits =>
    if digits.all Char.isDigit then
      let n := digits.foldl (fun n c => n * 10 + (c.toNat - '0'.toNat)) 0
      if n < 65536 then some (if digits = [] || n = default then none else some n) else none
    else none

/-- The origin of an authority, which may have a user in front. -/
def readAuthority (h : HostParser) (scheme : List Char) (default : Nat) (authority : List Char) :
    Option Origin :=
  let r := splitHost false (authority.rtakeWhile (· ≠ '@'))
  if r.1 = [] then none
  else
    match h.host r.1, readPort default r.2 with
    | some host, some port => some { scheme := scheme, host := some host, port := port }
    | _, _ => none

/-- The parser, once blanks are taken off. -/
def parsePrepared (h : HostParser) (t : List Char) : Option Origin :=
  match splitScheme t with
  | none => none
  | some (scheme, rest) =>
    match defaultPort scheme with
    | some default => readAuthority h scheme default (authority rest)
    | none => (h.other scheme rest).map fun host => { scheme := scheme, host := host }

/-- The host ends at the first colon outside brackets. -/
theorem splitHost_cons (inside : Bool) (c : Char) (t : List Char) : splitHost inside (c :: t) =
    if c = ':' && !inside then ([], c :: t)
    else
      let r := splitHost (if c = '[' then true else if c = ']' then false else inside) t
      (c :: r.1, r.2) := rfl

/-- Without a colon all of it is the host. -/
theorem splitHost_of_notMem (hl : ':' ∉ l) (inside : Bool) : splitHost inside l = (l, []) := by
  induction l generalizing inside with
  | nil => rfl
  | cons c l ih =>
    rw [List.mem_cons, not_or] at hl
    simp [splitHost_cons, ih hl.2, Ne.symm hl.1]

/-- Text without a colon goes where the end of the text was. -/
theorem splitHost_append (hb : ':' ∉ b) (inside : Bool) (l : List Char) :
    splitHost inside (l ++ b) =
      if (splitHost inside l).2 = [] then ((splitHost inside l).1 ++ b, [])
      else ((splitHost inside l).1, (splitHost inside l).2 ++ b) := by
  induction l generalizing inside with
  | nil => exact splitHost_of_notMem hb inside
  | cons c l ih =>
    simp only [List.cons_append, splitHost_cons]
    split
    · simp
    · generalize (if c = '[' then true else if c = ']' then false else inside) = i
      simp only [ih]
      split
      · rfl
      · rfl

/-- Behind the host comes the colon of the port. -/
theorem splitHost_tail {inside : Bool} (hne : (splitHost inside l).2 ≠ []) :
    ∃ r, (splitHost inside l).2 = ':' :: r := by
  induction l generalizing inside with
  | nil => exact absurd rfl hne
  | cons c l ih =>
    simp only [splitHost_cons] at hne ⊢
    split
    · rename_i hc
      rw [Bool.and_eq_true, decide_eq_true_iff] at hc
      exact ⟨l, by rw [hc.1]⟩
    · rename_i hc
      rw [if_neg hc] at hne
      exact ih hne

/-- A blank at the end of an authority makes it none. -/
theorem readAuthority_blank {h : HostParser} {scheme : List Char} {default : Nat}
    (hb : ∀ c ∈ b, isBlank c = true)
    (hne : b ≠ []) (a : List Char) : readAuthority h scheme default (a ++ b) = none := by
  have hcolon : ':' ∉ b := fun hmem => absurd (hb _ hmem) (by decide)
  have hat : ∀ c ∈ b.reverse, decide (c ≠ '@') = true := by
    intro c hc
    simpa using ne_of_isBlank (hb c (List.mem_reverse.mp hc)) (by decide)
  have huser : (a ++ b).rtakeWhile (· ≠ '@') = a.rtakeWhile (· ≠ '@') ++ b := by
    simp only [List.rtakeWhile, List.reverse_append]
    rw [List.takeWhile_append_of_pos hat, List.reverse_append, List.reverse_reverse]
  obtain ⟨c, hc⟩ := List.exists_mem_of_ne_nil b hne
  simp only [readAuthority, huser, splitHost_append hcolon]
  split
  · -- the blank is in the host
    split
    · rfl
    · rw [h.host_blank _ c (by simp [hc]) (hb c hc)]
  · -- the blank is in the port
    rename_i hport
    obtain ⟨r, hr⟩ := splitHost_tail hport
    have hdigits : (r ++ b).all Char.isDigit = false := by
      rw [List.all_eq_false]
      refine ⟨c, by simp [hc], ?_⟩
      have hle := toNat_le_of_isBlank (hb c hc)
      simp only [Char.isDigit, ge_iff_le, UInt32.le_iff_toNat_le, Bool.and_eq_true, decide_eq_true_iff, not_and]
      intro hlow
      change 48 ≤ c.toNat at hlow
      omega
    split
    · rfl
    · rw [hr, List.cons_append, readPort, hdigits]
      cases h.host _ <;> rfl


/-- A web URL leads where its authority says. -/
theorem parsePrepared_eq (h : HostParser) {scheme rest : List Char}
    (hscheme : splitScheme t = some (scheme, rest))
    (hweb : (defaultPort scheme).isSome) :
    ∃ default, parsePrepared h t = readAuthority h scheme default (authority rest) ∧
      defaultPort scheme = some default := by
  obtain ⟨default, hdefault⟩ := Option.isSome_iff_exists.mp hweb
  refine ⟨default, ?_, hdefault⟩
  simp only [parsePrepared, hscheme, hdefault]

/-- URLs are read this way over any reader of host names. -/
def HostParser.parser (h : HostParser) : Parser where
  parse t := parsePrepared h (prepared t)
  scheme_eq t o ho := by
    cases hscheme : splitScheme (prepared t) with
    | none => simp [parsePrepared, hscheme] at ho
    | some r =>
      obtain ⟨scheme, rest⟩ := r
      refine ⟨rest, ?_⟩
      simp only [parsePrepared, hscheme] at ho
      split at ho
      · unfold readAuthority at ho
        dsimp only at ho
        split at ho
        · cases ho
        · split at ho
          · rw [← Option.some.inj ho]
          · cases ho
      · obtain ⟨host, -, rfl⟩ := Option.map_eq_some_iff.mp ho
        rfl
  authority_eq t t' scheme rest rest' ht ht' hweb heq := by
    obtain ⟨default, hparse, hdefault⟩ := parsePrepared_eq h ht hweb
    obtain ⟨default', hparse', hdefault'⟩ := parsePrepared_eq h ht' hweb
    rw [hparse, hparse', heq, Option.some.inj (hdefault.symm.trans hdefault')]
  authority_ne_nil t scheme rest ht hweb hnil := by
    obtain ⟨default, hparse, -⟩ := parsePrepared_eq h ht hweb
    rw [hparse, hnil]
    rfl
  authority_blank t scheme rest ht hweb hlast := by
    obtain ⟨default, hparse, -⟩ := parsePrepared_eq h ht hweb
    cases hl : (authority rest).getLast? with
    | none =>
      rw [hl] at hlast
      cases hlast
    | some c =>
      rw [hl, Option.any_some] at hlast
      obtain ⟨a, ha⟩ := List.getLast?_eq_some_iff.mp hl
      rw [hparse, ha]
      exact readAuthority_blank (by simpa using hlast) (List.cons_ne_nil _ _) a

end WebUrl
