import Mathlib.Algebra.Group.Nat.Defs
import Ncrs.ForStd.Fields

/-!
# Flat YAML documents

A flat document is a block mapping in column 0, one line an entry, from plain keys to one-line
double-quoted scalars, booleans and decimal numbers, with comment and blank lines between. A
`Reader` is a YAML loader that reads such documents the way YAML 1.2 does; what it makes of other
texts is left open.
-/

namespace FlatYaml

/-- A node, as far as it is asked for. -/
inductive Value where
  | str (s : List Char)
  | bool (b : Bool)
  | int (i : Int)
  /-- A sequence, with `none` for an item that is not a string. -/
  | seq (items : List (Option (List Char)))
  | other
  deriving DecidableEq, Repr

namespace Value

/-- The text of a string. -/
def asStr : Value → Option (List Char)
  | str s => some s
  | _ => none

/-- A boolean. -/
def asBool : Value → Option Bool
  | bool b => some b
  | _ => none

/-- The number of an integer. -/
def asI64 : Value → Option Int
  | int i => some i
  | _ => none

/-- The items of a list, with their texts. -/
def asVec : Value → Option (List (Option (List Char)))
  | seq items => some items
  | _ => none

end Value

/-- `doc[key]`, which is `other` where there is none. -/
abbrev Doc := String → Value

/-! ## The lines -/

/-- A character that is printable, and neither a line break in any version of YAML nor a mark of the
    byte order. -/
def isLineChar (c : Char) : Bool :=
  let n := c.toNat
  (0x20 ≤ n && n < 0x7f) || (0xa0 ≤ n && !([0x2028, 0x2029, 0xfeff, 0xfffe, 0xffff].contains n))

/-- What stands for a character in a double-quoted scalar. -/
inductive QuotedPart where
  | raw (c : Char)
  /-- A backslash and one character. -/
  | escape (c : Char)
  /-- A `\u` with this behind it instead of a hex digit. -/
  | notHex (c : Char)
  deriving DecidableEq, Repr

/-- The escapes of one character. -/
def oneCharEscape (c : Char) : Option Char :=
  if c = '0' then some '\x00'
  else if c = 'a' then some '\x07'
  else if c = 'b' then some '\x08'
  else if c = 't' then some '\t'
  else if c = 'n' then some '\n'
  else if c = 'v' then some '\x0b'
  else if c = 'f' then some '\x0c'
  else if c = 'r' then some '\r'
  else if c = 'e' then some '\x1b'
  else if c = ' ' || c = '"' || c = '/' || c = '\\' then some c
  else if c = 'N' then some (Char.ofNat 0x85)
  else if c = '_' then some (Char.ofNat 0xa0)
  else if c = 'L' then some (Char.ofNat 0x2028)
  else if c = 'P' then some (Char.ofNat 0x2029)
  else none

/-- A digit of an escape. -/
def isHexDigit (c : Char) : Bool := c.isDigit || ('a' ≤ c.toLower && c.toLower ≤ 'f')

namespace QuotedPart

/-- A part, as it stands in the file. -/
def text : QuotedPart → List Char
  | raw c => [c]
  | escape c => ['\\', c]
  | notHex c => ['\\', 'u', c]

/-- The character, or `none` where the text is not well-formed. -/
def value : QuotedPart → Option Char
  | raw c => some c
  | escape c => oneCharEscape c
  | notHex _ => none

/-- A character that is itself between quotes. -/
def isPlain (c : Char) : Bool := isLineChar c && c ≠ '"' && c ≠ '\\'

/-- The part is one that YAML reads as meant. -/
def WellFormed : QuotedPart → Prop
  | raw c => isPlain c = true
  | escape c => (oneCharEscape c).isSome
  | notHex c => isPlain c = true ∧ isHexDigit c = false

end QuotedPart

/-- A value, as it may stand in the file. -/
inductive Scalar where
  | quoted (parts : List QuotedPart)
  | bool (b : Bool)
  | nat (n : Nat)
  deriving DecidableEq, Repr

namespace Scalar

/-- The text of a value. -/
def text : Scalar → List Char
  | quoted parts => '"' :: parts.flatMap QuotedPart.text ++ ['"']
  | bool b => if b then "true".toList else "false".toList
  | nat n => n.repr.toList

/-- The value read, if it is one. -/
def value : Scalar → Option Value
  | quoted parts =>
    if parts.all fun p => p.value.isSome then some (.str (parts.filterMap QuotedPart.value)) else none
  | bool b => some (.bool b)
  -- a number that is no `i64` is read as a float
  | nat n => some (if n < 2 ^ 63 then .int n else .other)

/-- The value is written so that YAML reads it as meant. -/
def WellFormed : Scalar → Prop
  | quoted parts => ∀ p ∈ parts, p.WellFormed
  | bool _ => True
  | nat _ => True

end Scalar

/-- A line of a flat file. -/
inductive FlatLine where
  /-- A line of a comment, or a blank one. -/
  | comment (t : List Char)
  | entry (key : String) (value : Scalar)
  deriving DecidableEq, Repr

/-- A character of a key. -/
def isKeyChar (c : Char) : Bool := c.isLower || c.isDigit || c = '_'

/-- A key that is a string without quotes, and not longer than one on a line may be. -/
def IsKey (key : String) : Prop :=
  key.toList.head?.any Char.isLower = true ∧ key.toList.all isKeyChar = true ∧ key.toList.length < 1024 ∧
    key ≠ "true" ∧ key ≠ "false" ∧ key ≠ "null"

namespace FlatLine

/-- The text of a line. -/
def text : FlatLine → List Char
  | comment t => t
  | entry key value => key.toList ++ ':' :: ' ' :: value.text

/-- The line is one that YAML reads as meant. -/
def WellFormed : FlatLine → Prop
  | comment t => t.all isLineChar = true ∧ (t = [] ∨ t.head? = some '#')
  | entry key value => IsKey key ∧ value.WellFormed

/-- The key of an entry. -/
def key? : FlatLine → Option String
  | comment _ => none
  | entry key _ => some key

/-- The line is well-formed YAML. -/
def readable : FlatLine → Bool
  | comment _ => true
  | entry _ value => value.value.isSome

/-- The entry of a line, if it has one. -/
def entry? : FlatLine → Option (String × Value)
  | comment _ => none
  | entry key value => value.value.map fun v => (key, v)

end FlatLine

/-- The text of the lines, each with its line feed. -/
def text (ls : List FlatLine) : List Char := ls.flatMap fun l => l.text ++ ['\n']

/-- A flat document: the keys are distinct, and there is one. -/
structure Flat (ls : List FlatLine) : Prop where
  lines : ∀ l ∈ ls, l.WellFormed
  nodup : (ls.filterMap FlatLine.key?).Nodup
  nonempty : ls.filterMap FlatLine.key? ≠ []

/-- The mapping of entries that were read. -/
def docOf (entries : List (String × Value)) : Doc := fun key =>
  ((entries.find? fun e => e.1 = key).map (·.2)).getD .other

/-- What a flat document says, if all its lines can be read. -/
def read (ls : List FlatLine) : Option Doc :=
  if ls.all FlatLine.readable then some (docOf (ls.filterMap FlatLine.entry?)) else none

/-- A YAML loader: the documents of a text, or `none` for an error. -/
structure Reader where
  load : List Char → Option (List Doc)
  /-- A flat document is read as YAML 1.2 says. -/
  load_flat : ∀ ls, Flat ls → load (text ls) = (read ls).map fun doc => [doc]

/-! ## Looking up a key -/

/-- Nothing is in an empty document. -/
theorem docOf_nil (key : String) : docOf [] key = .other := rfl

/-- The first entry of a key counts. -/
theorem docOf_cons (e : String × Value) (es : List (String × Value)) (key : String) :
    docOf (e :: es) key = if e.1 = key then e.2 else docOf es key := by
  unfold docOf
  rw [List.find?_cons]
  by_cases h : e.1 = key <;> simp [h]

/-! ## A reader -/

/-- The text between the quotes, with no escape of more than one character; `true` after a
    backslash. -/
def unquote : Bool → List Char → Option (List Char)
  | false, [] => some []
  | true, [] => none
  | true, c :: t => (oneCharEscape c).bind fun d => (unquote false t).map (d :: ·)
  | false, c :: t => if c = '\\' then unquote true t else (unquote false t).map (c :: ·)

/-- The value a text stands for. -/
def readScalar (t : List Char) : Option Value :=
  match t with
  | '"' :: body => if body.getLast? = some '"' then (unquote false body.dropLast).map .str else none
  | _ =>
    if t = "true".toList then some (.bool true)
    else if t = "false".toList then some (.bool false)
    else if t ≠ [] && t.all Char.isDigit then
      let n := Nat.ofDigitChars 10 t 0
      some (if n < 2 ^ 63 then .int n else .other)
    else none

/-- `some none` for a line without an entry. -/
def readLine (t : List Char) : Option (Option (String × Value)) :=
  if t.isEmpty || t.head? == some '#' then some none
  else
    match t.splitFirst ':' with
    | (key, some (' ' :: value)) => (readScalar value).map fun v => some (String.ofList key, v)
    | _ => none

/-- A loader of flat documents and no others. -/
def loadLines (t : List Char) : Option (List Doc) :=
  let lines := (t.splitOn '\n').map readLine
  if lines.all Option.isSome then some [docOf (lines.filterMap id |>.filterMap id)] else none

/-- Quoted parts are read back, if all of them can be. -/
theorem unquote_parts {parts : List QuotedPart} (h : ∀ p ∈ parts, p.WellFormed) :
    unquote false (parts.flatMap QuotedPart.text) =
      if parts.all fun p => p.value.isSome then some (parts.filterMap QuotedPart.value) else none := by
  induction parts with
  | nil => rfl
  | cons p parts ih =>
    have hp := h p List.mem_cons_self
    have hrest := ih fun x hx => h x (List.mem_cons_of_mem _ hx)
    rw [List.flatMap_cons, List.all_cons]
    cases p with
    | raw c =>
      have hc : c ≠ '\\' := by
        simp only [QuotedPart.WellFormed, QuotedPart.isPlain, Bool.and_eq_true, decide_eq_true_iff] at hp
        exact hp.2
      have hvalue : (QuotedPart.raw c).value = some c := rfl
      rw [QuotedPart.text, List.singleton_append, unquote, if_neg hc, hrest, hvalue,
        List.filterMap_cons_some hvalue, Option.isSome_some, Bool.true_and]
      split <;> rfl
    | escape c =>
      obtain ⟨d, hd⟩ := Option.isSome_iff_exists.mp hp
      have hvalue : (QuotedPart.escape c).value = some d := hd
      rw [QuotedPart.text, List.cons_append, List.cons_append, List.nil_append, unquote, if_pos rfl,
        unquote, hd, Option.bind_some, hrest, hvalue, List.filterMap_cons_some hvalue,
          Option.isSome_some, Bool.true_and]
      split <;> rfl
    | notHex c =>
      have hu : oneCharEscape 'u' = none := by decide
      simp [QuotedPart.text, QuotedPart.value, unquote, hu]

/-- A number is written in digits. -/
theorem isDigit_of_mem_repr {n : Nat} {c : Char} (h : c ∈ n.repr.toList) : c.isDigit = true := by
  rw [Nat.toList_repr] at h
  exact Nat.isDigit_of_mem_toDigits (by decide) (by decide) h

/-- A value is read back from its text. -/
theorem readScalar_text {x : Scalar} (h : x.WellFormed) : readScalar x.text = x.value := by
  cases x with
  | quoted parts =>
    simp only [Scalar.text, Scalar.value, List.cons_append, readScalar, List.getLast?_concat, if_true,
      List.dropLast_concat]
    rw [unquote_parts h]
    split <;> rfl
  | bool b => cases b <;> rfl
  | nat n =>
    have hdigit : ∀ c ∈ n.repr.toList, c.isDigit = true := fun c => isDigit_of_mem_repr
    have hne : n.repr.toList ≠ [] := by simp
    have hnot : ∀ t : List Char, t.any (fun c => !c.isDigit) = true → n.repr.toList ≠ t := by
      rintro t ht rfl
      obtain ⟨c, hc, hnd⟩ := List.any_eq_true.mp ht
      simp [hdigit c hc] at hnd
    have htrue := hnot "true".toList (by decide)
    have hfalse := hnot "false".toList (by decide)
    have hall : (n.repr.toList).all Char.isDigit = true := List.all_eq_true.mpr hdigit
    have hvalue : Nat.ofDigitChars 10 n.repr.toList 0 = n := by
      rw [Nat.toList_repr]
      exact Nat.ofDigitChars_ten_toDigits
    simp only [Scalar.text, Scalar.value]
    unfold readScalar
    split
    · rename_i body hbody
      have := hdigit '"' (by rw [hbody]; exact List.mem_cons_self)
      exact absurd this (by decide)
    · simp only [htrue, hfalse, hne, hall, hvalue, if_false, if_true, ne_eq, not_false_iff, decide_true,
        Bool.and_self]

/-- What the lines say one by one. -/
theorem readLine_text {l : FlatLine} (h : l.WellFormed) :
    readLine l.text = if l.readable then some l.entry? else none := by
  cases l with
  | comment t =>
    have ht : (t.isEmpty || t.head? == some '#') = true := by simpa using h.2
    simp only [FlatLine.text, readLine, ht, if_true, FlatLine.readable, FlatLine.entry?]
  | entry key value =>
    obtain ⟨⟨hhead, hall, -⟩, hvalue⟩ := h
    have hcolon : ':' ∉ key.toList := by
      intro hmem
      exact absurd (List.all_eq_true.mp hall ':' hmem) (by decide)
    obtain ⟨c, k, hk, hc⟩ : ∃ c k, key.toList = c :: k ∧ c.isLower = true := by
      cases hk : key.toList with
      | nil => simp [hk] at hhead
      | cons c k => exact ⟨c, k, rfl, by simpa [hk] using hhead⟩
    have hfirst : ((key.toList ++ ':' :: ' ' :: value.text).isEmpty ||
        (key.toList ++ ':' :: ' ' :: value.text).head? == some '#') = false := by
      have hne : c ≠ '#' := by
        rintro rfl
        exact absurd hc (by decide)
      simp [hk, hne]
    simp only [FlatLine.text, readLine, hfirst, Bool.false_eq_true, if_false]
    rw [List.splitFirst_append hcolon]
    simp only [readScalar_text hvalue, String.ofList_toList, FlatLine.readable, FlatLine.entry?]
    by_cases hread : value.value.isSome
    · obtain ⟨v, hv⟩ := Option.isSome_iff_exists.mp hread
      simp [hv]
    · simp [Option.not_isSome_iff_eq_none.mp hread]

/-- A line has no line end in it. -/
theorem notMem_newline_text {l : FlatLine} (h : l.WellFormed) : '\n' ∉ l.text := by
  cases l with
  | comment t => exact fun hmem => absurd (List.all_eq_true.mp h.1 '\n' hmem) (by decide)
  | entry key value =>
    obtain ⟨⟨-, hall, -⟩, hvalue⟩ := h
    have hkey : '\n' ∉ key.toList := by
      intro hmem
      exact absurd (List.all_eq_true.mp hall '\n' hmem) (by decide)
    have htext : '\n' ∉ value.text := by
      cases value with
      | bool b => cases b <;> decide
      | nat n =>
        intro hmem
        exact absurd (isDigit_of_mem_repr hmem) (by decide)
      | quoted parts =>
        simp only [Scalar.text, List.mem_cons, List.mem_append, List.mem_flatMap, List.not_mem_nil, or_false]
        rintro ((hq | ⟨p, hp, hmem⟩) | hq)
        · exact absurd hq (by decide)
        · have hwf := hvalue p hp
          cases p with
          | raw c =>
            obtain rfl : '\n' = c := List.mem_singleton.mp hmem
            exact absurd (show QuotedPart.isPlain '\n' = true from hwf) (by decide)
          | escape c =>
            simp only [QuotedPart.text, List.mem_cons, List.not_mem_nil, or_false] at hmem
            obtain hmem | rfl := hmem
            · exact absurd hmem (by decide)
            · exact absurd (show (oneCharEscape '\n').isSome = true from hwf) (by decide)
          | notHex c =>
            simp only [QuotedPart.text, List.mem_cons, List.not_mem_nil, or_false] at hmem
            obtain hmem | hmem | rfl := hmem
            · exact absurd hmem (by decide)
            · exact absurd hmem (by decide)
            · exact absurd hwf.1 (by decide)
        · exact absurd hq (by decide)
    simp [FlatLine.text, hkey, htext]

/-- The lines of the text are the lines. -/
theorem splitOn_text {ls : List FlatLine} (h : ∀ l ∈ ls, l.WellFormed) :
    (text ls).splitOn '\n' = ls.map FlatLine.text ++ [[]] := by
  have hjoin : text ls = ['\n'].intercalate (ls.map FlatLine.text ++ [[]]) := by
    rw [List.intercalate_concat, List.append_nil, List.flatMap_map]
    rfl
  rw [hjoin, List.splitOn_intercalate]
  · intro t ht
    obtain ht | ht := List.mem_append.mp ht
    · obtain ⟨l, hl, rfl⟩ := List.mem_map.mp ht
      exact notMem_newline_text (h l hl)
    · simp [List.mem_singleton.mp ht]
  · simp

/-- The loader reads flat documents as it has to. -/
def lineReader : Reader where
  load := loadLines
  load_flat ls hls := by
    have hlines : ls.map (readLine ∘ FlatLine.text) =
        ls.map fun l => if l.readable then some l.entry? else none :=
      List.map_congr_left fun l hl => readLine_text (hls.lines l hl)
    simp only [loadLines, splitOn_text hls.lines, List.map_append, List.map_map, hlines, read]
    have hend : [([] : List Char)].map readLine = [some none] := rfl
    rw [hend]
    by_cases hall : ls.all FlatLine.readable
    · have hsome : (ls.map fun l => if l.readable then some l.entry? else none) = ls.map fun l =>
        some l.entry? :=
        List.map_congr_left fun l hl => if_pos (List.all_eq_true.mp hall l hl)
      simp [hsome, hall, List.filterMap_map, Function.comp_def]
    · have hnone : (ls.map fun l => if l.readable then some l.entry? else none).all Option.isSome = false := by
        obtain ⟨l, hl, hread⟩ : ∃ l ∈ ls, l.readable = false := by simpa using hall
        rw [List.all_eq_false]
        exact ⟨none, List.mem_map.mpr ⟨l, hl, by simp [hread]⟩, by simp⟩
      simp [hnone, hall]

end FlatYaml
