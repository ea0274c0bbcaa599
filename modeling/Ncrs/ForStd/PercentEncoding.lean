import Mathlib.Data.List.Basic

/-!
# Percent-encoded text

A text is encoded byte by byte of its UTF-8, and decoded to bytes again, which are read as UTF-8 with a
replacement character for each part that is none. A byte below 128 is never part of a longer sequence, so
that text may be cut there before it is decoded.

A `Coder` is a library that does this; its laws say what becomes of one character and of one escape, and
they leave no choice (`Coder.encode_eq`, `Coder.unescape_eq`).
-/

namespace PercentEncoding

/-! ## UTF-8 -/

/-- The bytes of a text. -/
def utf8 (t : List Char) : List UInt8 := t.flatMap String.utf8EncodeChar

/-- The byte continues a character. -/
def isTail (b : Nat) : Bool := decide (0x80 ≤ b) && decide (b ≤ 0xBF)

/-- Whether `b` may follow the first byte `a` of a longer sequence. -/
def isSecond (a b : Nat) : Bool :=
  if a = 0xE0 then decide (0xA0 ≤ b) && decide (b ≤ 0xBF)
  else if a = 0xED then decide (0x80 ≤ b) && decide (b ≤ 0x9F)
  else if a = 0xF0 then decide (0x90 ≤ b) && decide (b ≤ 0xBF)
  else if a = 0xF4 then decide (0x80 ≤ b) && decide (b ≤ 0x8F)
  else decide (0xC2 ≤ a) && decide (a ≤ 0xF4) && isTail b

/-- The character for what is no text. -/
def replacement : Char := Char.ofNat 0xFFFD

/-- Bytes read as UTF-8. The longest beginning of a sequence that cannot be continued is replaced. -/
def ofUtf8Lossy : List UInt8 → List Char
  | [] => []
  | a :: rest =>
    if a.toNat < 0x80 then Char.ofNat a.toNat :: ofUtf8Lossy rest
    else
      match rest with
      | [] => [replacement]
      | b :: rest₁ =>
        if !isSecond a.toNat b.toNat then replacement :: ofUtf8Lossy (b :: rest₁)
        else if a.toNat < 0xE0 then
          Char.ofNat (a.toNat % 32 * 64 + b.toNat % 64) :: ofUtf8Lossy rest₁
        else
          match rest₁ with
          | [] => [replacement]
          | c :: rest₂ =>
            if !isTail c.toNat then replacement :: ofUtf8Lossy (c :: rest₂)
            else if a.toNat < 0xF0 then
              Char.ofNat (a.toNat % 16 * 4096 + b.toNat % 64 * 64 + c.toNat % 64) :: ofUtf8Lossy rest₂
            else
              match rest₂ with
              | [] => [replacement]
              | d :: rest₃ =>
                if !isTail d.toNat then replacement :: ofUtf8Lossy (d :: rest₃)
                else
                  Char.ofNat (a.toNat % 8 * 262144 + b.toNat % 64 * 4096 + c.toNat % 64 * 64 + d.toNat % 64) ::
                    ofUtf8Lossy rest₃

/-! ## Escapes -/

/-- The digit of a value below 16. -/
def hexDigit (n : Nat) : Char := Char.ofNat (if n < 10 then 0x30 + n else 0x37 + n)

/-- The value of a digit. -/
def hexValue (b : Nat) : Option Nat :=
  if 0x30 ≤ b ∧ b ≤ 0x39 then some (b - 0x30)
  else if 0x41 ≤ b ∧ b ≤ 0x46 then some (b - 0x37)
  else if 0x61 ≤ b ∧ b ≤ 0x66 then some (b - 0x57)
  else none

/-- A byte, escaped. -/
def escape (b : UInt8) : List Char := ['%', hexDigit (b.toNat / 16), hexDigit (b.toNat % 16)]

/-- A text with the characters of a set encoded, and every one that is not ASCII. -/
def encode (set : Char → Bool) (t : List Char) : List Char :=
  t.flatMap fun c => if c.toNat < 128 && !set c then [c] else (String.utf8EncodeChar c).flatMap escape

/-- Escapes are replaced by their bytes, and anything else stays. -/
def unescape : List UInt8 → List UInt8
  | [] => []
  | a :: rest =>
    if a.toNat = 0x25 then
      match rest with
      | h :: l :: rest' =>
        match hexValue h.toNat, hexValue l.toNat with
        | some x, some y => UInt8.ofNat (x * 16 + y) :: unescape rest'
        | _, _ => a :: unescape (h :: l :: rest')
      | [h] => a :: unescape [h]
      | [] => [a]
    else a :: unescape rest

/-- A text with its escapes decoded. -/
def decode (t : List Char) : List Char := ofUtf8Lossy (unescape (utf8 t))

/-! ## Libraries -/

/-- An encoder and a decoder of percent-encoded text. -/
structure Coder where
  encode : (Char → Bool) → List Char → List Char
  unescape : List UInt8 → List UInt8
  /-- A text is encoded one character after the other. -/
  encode_append : ∀ set s t, encode set (s ++ t) = encode set s ++ encode set t
  /-- An ASCII character outside the set stays. -/
  encode_kept : ∀ set c, c.toNat < 128 → set c = false → encode set [c] = [c]
  /-- Of the others each byte is written as a percent sign and two digits. -/
  encode_escaped : ∀ set c, ¬(c.toNat < 128 ∧ set c = false) →
    encode set [c] = (String.utf8EncodeChar c).flatMap escape
  unescape_nil : unescape [] = []
  /-- A percent sign with two digits is the byte they give. -/
  unescape_digits : ∀ h l x y rest, hexValue h.toNat = some x → hexValue l.toNat = some y →
    unescape (0x25 :: h :: l :: rest) = UInt8.ofNat (x * 16 + y) :: unescape rest
  /-- Any other byte stays, a percent sign without two digits too. -/
  unescape_kept : ∀ b rest,
    (b = 0x25 → ∀ h l rest', rest = h :: l :: rest' → hexValue h.toNat = none ∨ hexValue l.toNat = none) →
    unescape (b :: rest) = b :: unescape rest

namespace Coder

/-- A text with its escapes decoded. -/
def decode (k : Coder) (t : List Char) : List Char := ofUtf8Lossy (k.unescape (utf8 t))

/-- Every coder encodes as this one. -/
theorem encode_eq (k : Coder) (set : Char → Bool) (t : List Char) :
    k.encode set t = PercentEncoding.encode set t := by
  induction t with
  | nil =>
    have hnil : k.encode set ([] ++ []) = k.encode set [] ++ k.encode set [] := k.encode_append set [] []
    exact List.self_eq_append_left.mp hnil
  | cons c t ih =>
    have hcons : k.encode set (c :: t) = k.encode set [c] ++ k.encode set t := k.encode_append set [c] t
    rw [hcons, ih, PercentEncoding.encode, PercentEncoding.encode, List.flatMap_cons]
    congr 1
    split
    · rename_i hc
      rw [Bool.and_eq_true, decide_eq_true_eq, Bool.not_eq_true'] at hc
      exact k.encode_kept set c hc.1 hc.2
    · rename_i hc
      rw [Bool.and_eq_true, decide_eq_true_eq, Bool.not_eq_true'] at hc
      exact k.encode_escaped set c hc

/-- Every coder takes escapes out as this one. -/
theorem unescape_eq (k : Coder) (l : List UInt8) : k.unescape l = PercentEncoding.unescape l := by
  fun_induction PercentEncoding.unescape l with
  | case1 => exact k.unescape_nil
  | case2 a ha h l rest x y hy hx ih =>
    obtain rfl : a = 0x25 := UInt8.toNat_inj.mp ha
    rw [k.unescape_digits h l x y rest hx hy, ih]
  | case3 a ha h l rest hnone ih =>
    rw [k.unescape_kept a (h :: l :: rest), ih]
    intro _ h' l' rest' heq
    obtain ⟨hh, heq⟩ := List.cons.inj heq
    rw [← hh, ← (List.cons.inj heq).1]
    cases hx : hexValue h.toNat with
    | none => exact .inl rfl
    | some x =>
      cases hy : hexValue l.toNat with
      | none => exact .inr rfl
      | some y => exact absurd hy (hnone x y hx)
  | case4 a ha h ih =>
    rw [k.unescape_kept a [h], ih]
    intro _ h' l' rest' heq
    cases heq
  | case5 a ha => rw [k.unescape_kept a [] (fun _ _ _ _ heq => nomatch heq), k.unescape_nil]
  | case6 a rest ha ih =>
    rw [k.unescape_kept a rest, ih]
    rintro rfl
    exact absurd rfl ha

/-- Every coder decodes as this one. -/
theorem decode_eq (k : Coder) (t : List Char) : k.decode t = PercentEncoding.decode t := by
  rw [decode, PercentEncoding.decode, k.unescape_eq]

end Coder

/-- The coder of the definitions above. -/
def coder : Coder where
  encode := encode
  unescape := unescape
  encode_append _ _ _ := List.flatMap_append
  encode_kept set c hc hset := by simp [encode, hc, hset]
  encode_escaped set c hc := by
    rw [encode, List.flatMap_singleton, if_neg]
    rwa [Bool.and_eq_true, decide_eq_true_eq, Bool.not_eq_true']
  unescape_nil := rfl
  unescape_digits h l x y rest hx hy := by
    rw [unescape.eq_def]
    simp [hx, hy]
  unescape_kept b rest hb := by
    rw [unescape.eq_def]
    by_cases hpercent : b = 0x25
    · have hdigits := hb hpercent
      simp only [hpercent]
      match rest with
      | [] => rfl
      | [h] => rfl
      | h :: l :: rest =>
        obtain hx | hy := hdigits h l rest rfl
        · simp only [hx]
          rfl
        · simp only [hy]
          cases hexValue h.toNat <;> rfl
    · have hne : b.toNat ≠ 0x25 := fun h => hpercent (UInt8.toNat_inj.mp h)
      simp only [if_neg hne]

/-! ## Cuts -/

variable {set : Char → Bool} {t : List Char} {b : UInt8}

/-- A byte below 128 is no second byte. -/
theorem isSecond_of_lt {a b : Nat} (hb : b < 0x80) : isSecond a b = false := by
  unfold isSecond isTail
  split
  · simp; omega
  · split
    · simp; omega
    · split
      · simp; omega
      · split
        · simp; omega
        · simp; omega

/-- A byte below 128 continues no character. -/
theorem isTail_of_lt {b : Nat} (hb : b < 0x80) : isTail b = false := by
  unfold isTail
  simp
  omega

/-- Bytes may be cut at one below 128. -/
theorem ofUtf8Lossy_append (hb : b.toNat < 0x80) (x y : List UInt8) :
    ofUtf8Lossy (x ++ b :: y) = ofUtf8Lossy x ++ Char.ofNat b.toNat :: ofUtf8Lossy y := by
  have hone : ofUtf8Lossy (b :: y) = Char.ofNat b.toNat :: ofUtf8Lossy y := by
    rw [ofUtf8Lossy.eq_def]
    simp [hb]
  fun_induction ofUtf8Lossy x with
  | case1 => exact hone
  | case2 a rest ha ih =>
    rw [List.cons_append, ofUtf8Lossy.eq_def]
    simp [ha, ih]
  | case3 a ha =>
    rw [List.cons_append, List.nil_append, ofUtf8Lossy.eq_def]
    simp [ha, isSecond_of_lt hb, hone]
  | case4 a ha c rest hc ih =>
    rw [List.cons_append, List.cons_append, ofUtf8Lossy.eq_def]
    simp only [ha, if_false, hc, if_true]
    rw [← List.cons_append, ih, List.cons_append]
  | case5 a ha c rest hc hlt ih =>
    rw [List.cons_append, List.cons_append, ofUtf8Lossy.eq_def]
    simp [ha, hc, hlt, ih]
  | case6 a ha c hc hlt =>
    rw [List.cons_append, List.cons_append, List.nil_append, ofUtf8Lossy.eq_def]
    simp [ha, hc, hlt, isTail_of_lt hb, hone]
  | case7 a ha c hc hlt d rest hd ih =>
    rw [List.cons_append, List.cons_append, List.cons_append, ofUtf8Lossy.eq_def]
    simp only [ha, if_false, hc, hlt, hd, if_true, Bool.false_eq_true]
    rw [← List.cons_append, ih, List.cons_append]
  | case8 a ha c hc hlt d rest hd hlt' ih =>
    rw [List.cons_append, List.cons_append, List.cons_append, ofUtf8Lossy.eq_def]
    simp [ha, hc, hlt, hd, hlt', ih]
  | case9 a ha c hc hlt d hd hlt' =>
    rw [List.cons_append, List.cons_append, List.cons_append, List.nil_append, ofUtf8Lossy.eq_def]
    simp [ha, hc, hlt, hd, hlt', isTail_of_lt hb, hone]
  | case10 a ha c hc hlt d hd hlt' e rest he ih =>
    rw [List.cons_append, List.cons_append, List.cons_append, List.cons_append, ofUtf8Lossy.eq_def]
    simp only [ha, if_false, hc, hlt, hd, hlt', he, if_true, Bool.false_eq_true]
    rw [← List.cons_append, ih, List.cons_append]
  | case11 a ha c hc hlt d hd hlt' e rest he ih =>
    rw [List.cons_append, List.cons_append, List.cons_append, List.cons_append, ofUtf8Lossy.eq_def]
    simp [ha, hc, hlt, hd, hlt', he, ih]

/-- An escape does not reach over a byte that is neither a percent sign nor a digit. -/
theorem unescape_append (hb : b.toNat ≠ 0x25) (hhex : hexValue b.toNat = none) (x y : List UInt8) :
    unescape (x ++ b :: y) = unescape x ++ b :: unescape y := by
  have hone : unescape (b :: y) = b :: unescape y := by
    rw [unescape.eq_def]
    simp [hb]
  fun_induction unescape x with
  | case1 => exact hone
  | case2 a ha h l rest v w hv hw ih =>
    rw [List.cons_append, List.cons_append, List.cons_append, unescape.eq_def]
    simp [ha, hv, hw, ih]
  | case3 a ha h l rest hnone ih =>
    rw [List.cons_append, List.cons_append, List.cons_append, unescape.eq_def]
    simp only [ha, if_true]
    rw [← List.cons_append, ← List.cons_append, ih, List.cons_append]
  | case4 a ha h ih =>
    rw [List.cons_append, List.cons_append, List.nil_append, unescape.eq_def]
    simp only [ha, if_true, hhex]
    cases hexValue h.toNat <;> exact congrArg (a :: ·) ih
  | case5 a ha =>
    rw [List.cons_append, List.nil_append, unescape.eq_def]
    simp only [ha, if_true]
    cases y with
    | nil => exact congrArg (a :: ·) hone
    | cons c y =>
      simp only [hhex]
      exact congrArg (a :: ·) hone
  | case6 a rest ha ih =>
    rw [List.cons_append, unescape.eq_def]
    simp [ha, ih]

/-- The bytes of two texts, one behind the other. -/
theorem utf8_append (s t : List Char) : utf8 (s ++ t) = utf8 s ++ utf8 t := List.flatMap_append

/-- A slash cuts an encoded text. -/
theorem decode_append_slash (s t : List Char) : decode (s ++ '/' :: t) = decode s ++ '/' :: decode t := by
  have hslash : utf8 (s ++ '/' :: t) = utf8 s ++ 0x2F :: utf8 t := by
    rw [utf8_append]
    rfl
  unfold decode
  rw [hslash, unescape_append (by decide) (by decide), ofUtf8Lossy_append (by decide)]
  rfl

/-! ## Lengths of encoded texts -/

/-- An escaped byte has three characters. -/
theorem length_flatMap_escape (l : List UInt8) : (l.flatMap escape).length = 3 * l.length := by
  induction l with
  | nil => rfl
  | cons a l ih =>
    rw [List.flatMap_cons, List.length_append, ih, List.length_cons]
    show 3 + 3 * l.length = _
    omega

/-- A character below 128 is its own byte. -/
theorem utf8EncodeChar_of_lt {c : Char} (hc : c.toNat < 128) :
    String.utf8EncodeChar c = [UInt8.ofNat c.toNat] := by
  unfold String.utf8EncodeChar
  have hle : c.val.toNat ≤ 0x7f := Nat.lt_succ_iff.mp hc
  simp only [hle, if_true]
  rfl

/-- An encoded text is longer than its UTF-8, unless nothing is encoded. -/
theorem length_utf8_le_encode (set : Char → Bool) (t : List Char) :
    (utf8 t).length ≤ (encode set t).length ∧
      ((encode set t).length ≤ (utf8 t).length → encode set t = t ∧ ∀ c ∈ t, c.toNat < 128 ∧
        set c = false) := by
  induction t with
  | nil => simp [utf8, encode]
  | cons c t ih =>
    have hutf8 : (utf8 (c :: t)).length = (String.utf8EncodeChar c).length + (utf8 t).length := by
      rw [utf8, List.flatMap_cons, List.length_append]
      rfl
    have hencode : encode set (c :: t) =
        (if c.toNat < 128 && !set c then [c] else (String.utf8EncodeChar c).flatMap escape) ++ encode set t :=
      List.flatMap_cons
    rw [hutf8, hencode, List.length_append]
    split
    · rename_i hc
      rw [Bool.and_eq_true, decide_eq_true_eq, Bool.not_eq_true'] at hc
      rw [utf8EncodeChar_of_lt hc.1, List.length_singleton, List.length_singleton]
      refine ⟨by omega, fun hle => ?_⟩
      obtain ⟨heq, hall⟩ := ih.2 (by omega)
      refine ⟨by rw [heq, List.singleton_append], ?_⟩
      simpa using ⟨hc, hall⟩
    · have hpos : 0 < (String.utf8EncodeChar c).length :=
        List.length_pos_of_ne_nil String.utf8EncodeChar_ne_nil
      rw [length_flatMap_escape]
      refine ⟨by omega, fun hle => absurd hle (by omega)⟩

/-! ## The round trip -/

/-- A value below 256 is a byte's. -/
theorem toNat_ofNat_of_lt {n : Nat} (hn : n < 256) : (UInt8.ofNat n).toNat = n := by
  rw [UInt8.toNat_ofNat']
  omega

/-- The bytes that continue a character. -/
theorem isTail_of_le {b : Nat} (hb : 0x80 ≤ b) (hb' : b ≤ 0xBF) : isTail b = true := by
  unfold isTail
  simp [hb, hb']

/-- The second bytes of the longer characters. -/
theorem isSecond_of_tail {a b : Nat} (ha : 0xC2 ≤ a) (ha' : a ≤ 0xF4) (hb : 0x80 ≤ b) (hb' : b ≤ 0xBF)
    (h₁ : a = 0xE0 → 0xA0 ≤ b) (h₂ : a = 0xED → b ≤ 0x9F) (h₃ : a = 0xF0 → 0x90 ≤ b)
    (h₄ : a = 0xF4 → b ≤ 0x8F) :
    isSecond a b = true := by
  unfold isSecond
  split
  · simp; omega
  · split
    · simp; omega
    · split
      · simp; omega
      · split
        · simp; omega
        · simp [ha, ha', isTail_of_le hb hb']

/-- UTF-8 is read again as the text it is of. -/
theorem ofUtf8Lossy_utf8EncodeChar (c : Char) (l : List UInt8) :
    ofUtf8Lossy (String.utf8EncodeChar c ++ l) = c :: ofUtf8Lossy l := by
  have hvalid : c.toNat < 0xd800 ∨ 0xdfff < c.toNat ∧ c.toNat < 0x110000 := c.valid
  have hchar : Char.ofNat c.toNat = c := Char.ofNat_toNat c
  have hval : c.val.toNat = c.toNat := rfl
  unfold String.utf8EncodeChar
  rw [hval]
  generalize c.toNat = n at hvalid hchar
  dsimp only
  split
  · rw [List.singleton_append, ofUtf8Lossy.eq_def]
    have ha := toNat_ofNat_of_lt (show n < 256 by omega)
    simp only [ha]
    rw [if_pos (by omega), hchar]
  · split
    · have ha := toNat_ofNat_of_lt (show n / 64 % 0x20 + 0xc0 < 256 by omega)
      have hb := toNat_ofNat_of_lt (show n % 0x40 + 0x80 < 256 by omega)
      have hsecond : isSecond (n / 64 % 0x20 + 0xc0) (n % 0x40 + 0x80) = true := by
        apply isSecond_of_tail <;> omega
      have hsum : (n / 64 % 0x20 + 0xc0) % 32 * 64 + (n % 0x40 + 0x80) % 64 = n := by omega
      rw [List.cons_append, List.cons_append, List.nil_append, ofUtf8Lossy.eq_def]
      simp only [ha, hb, hsecond, hsum, hchar]
      rw [if_neg (by omega), if_neg (by decide), if_pos (by omega)]
    · split
      · have ha := toNat_ofNat_of_lt (show n / 4096 % 0x10 + 0xe0 < 256 by omega)
        have hb := toNat_ofNat_of_lt (show n / 64 % 0x40 + 0x80 < 256 by omega)
        have hc := toNat_ofNat_of_lt (show n % 0x40 + 0x80 < 256 by omega)
        have hsecond : isSecond (n / 4096 % 0x10 + 0xe0) (n / 64 % 0x40 + 0x80) = true := by
          apply isSecond_of_tail <;> omega
        have htail : isTail (n % 0x40 + 0x80) = true := isTail_of_le (by omega) (by omega)
        have hsum : (n / 4096 % 0x10 + 0xe0) % 16 * 4096 + (n / 64 % 0x40 + 0x80) % 64 * 64 +
            (n % 0x40 + 0x80) % 64 = n := by omega
        rw [List.cons_append, List.cons_append, List.cons_append, List.nil_append, ofUtf8Lossy.eq_def]
        simp only [ha, hb, hc, hsecond, htail, hsum, hchar]
        rw [if_neg (by omega), if_neg (by decide), if_neg (by omega), if_neg (by decide), if_pos (by omega)]
      · have ha := toNat_ofNat_of_lt (show n / 262144 % 0x08 + 0xf0 < 256 by omega)
        have hb := toNat_ofNat_of_lt (show n / 4096 % 0x40 + 0x80 < 256 by omega)
        have hc := toNat_ofNat_of_lt (show n / 64 % 0x40 + 0x80 < 256 by omega)
        have hd := toNat_ofNat_of_lt (show n % 0x40 + 0x80 < 256 by omega)
        have hsecond : isSecond (n / 262144 % 0x08 + 0xf0) (n / 4096 % 0x40 + 0x80) = true := by
          apply isSecond_of_tail <;> omega
        have htail : isTail (n / 64 % 0x40 + 0x80) = true := isTail_of_le (by omega) (by omega)
        have htail' : isTail (n % 0x40 + 0x80) = true := isTail_of_le (by omega) (by omega)
        have hsum : (n / 262144 % 0x08 + 0xf0) % 8 * 262144 + (n / 4096 % 0x40 + 0x80) % 64 * 4096 +
            (n / 64 % 0x40 + 0x80) % 64 * 64 + (n % 0x40 + 0x80) % 64 = n := by omega
        rw [List.cons_append, List.cons_append, List.cons_append, List.cons_append, List.nil_append,
          ofUtf8Lossy.eq_def]
        simp only [ha, hb, hc, hd, hsecond, htail, htail', hsum, hchar]
        rw [if_neg (by omega), if_neg (by decide), if_neg (by omega), if_neg (by decide), if_neg (by omega),
          if_neg (by decide)]

/-- The bytes of a text are read back as the text. -/
theorem ofUtf8Lossy_utf8 (t : List Char) : ofUtf8Lossy (utf8 t) = t := by
  induction t with
  | nil => rfl
  | cons c t ih =>
    rw [utf8, List.flatMap_cons, ofUtf8Lossy_utf8EncodeChar]
    exact congrArg (c :: ·) ih

/-- A digit has the value it stands for. -/
theorem hexValue_hexDigit {n : Nat} (hn : n < 16) :
    (hexDigit n).toNat < 128 ∧ hexValue (UInt8.ofNat (hexDigit n).toNat).toNat = some n := by
  have hall : ∀ n < 16, (hexDigit n).toNat < 128 ∧ hexValue (UInt8.ofNat (hexDigit n).toNat).toNat =
    some n := by
    decide
  exact hall n hn

/-- An escaped byte is taken out as the byte. -/
theorem unescape_escape (b : UInt8) (l : List UInt8) : unescape (utf8 (escape b) ++ l) = b :: unescape l := by
  have hb : b.toNat < 256 := b.toNat_lt
  obtain ⟨hhi, hhi'⟩ := hexValue_hexDigit (show b.toNat / 16 < 16 by omega)
  obtain ⟨hlo, hlo'⟩ := hexValue_hexDigit (show b.toNat % 16 < 16 by omega)
  have hutf8 : utf8 (escape b) =
      [0x25, UInt8.ofNat (hexDigit (b.toNat / 16)).toNat, UInt8.ofNat (hexDigit (b.toNat % 16)).toNat] := by
    rw [utf8, escape, List.flatMap_cons, List.flatMap_cons, List.flatMap_cons, List.flatMap_nil,
      utf8EncodeChar_of_lt hhi, utf8EncodeChar_of_lt hlo]
    rfl
  have hsum : b.toNat / 16 * 16 + b.toNat % 16 = b.toNat := by omega
  rw [hutf8, List.cons_append, List.cons_append, List.cons_append, List.nil_append, unescape.eq_def]
  simp only [hhi', hlo', hsum, UInt8.ofNat_toNat]
  rw [if_pos (by decide)]

/-- What is encoded is decoded again, with a set that has the percent sign in it. -/
theorem unescape_utf8_encode (hset : set '%' = true) (t : List Char) (l : List UInt8) :
    unescape (utf8 (encode set t) ++ l) = utf8 t ++ unescape l := by
  have hbytes : ∀ (bs l : List UInt8), unescape (utf8 (bs.flatMap escape) ++ l) = bs ++ unescape l := by
    intro bs l
    induction bs with
    | nil => rfl
    | cons b bs ih =>
      rw [List.flatMap_cons, utf8_append, List.append_assoc, unescape_escape, ih, List.cons_append]
  induction t with
  | nil => rfl
  | cons c t ih =>
    have hcons : utf8 (c :: t) = String.utf8EncodeChar c ++ utf8 t := List.flatMap_cons
    rw [encode, List.flatMap_cons, utf8_append, List.append_assoc, hcons, List.append_assoc, ← ih]
    split
    · rename_i hc
      rw [Bool.and_eq_true, decide_eq_true_eq, Bool.not_eq_true'] at hc
      have hutf8 : utf8 [c] = [UInt8.ofNat c.toNat] := by
        rw [utf8, List.flatMap_singleton, utf8EncodeChar_of_lt hc.1]
      have hne : (UInt8.ofNat c.toNat).toNat ≠ 0x25 := by
        rw [toNat_ofNat_of_lt (by omega)]
        intro heq
        have hpercent : c = '%' := Char.toNat_inj.mp heq
        rw [hpercent, hset] at hc
        exact absurd hc.2 (by decide)
      rw [hutf8, utf8EncodeChar_of_lt hc.1, List.singleton_append, List.singleton_append, unescape.eq_def]
      simp only [hne, if_false]
      rfl
    · exact hbytes _ _

/-- With `%` among the escaped characters decoding gives the text back. -/
theorem decode_encode (hset : set '%' = true) (t : List Char) : decode (encode set t) = t := by
  have h := unescape_utf8_encode hset t []
  rw [List.append_nil] at h
  have hnil : unescape [] = [] := rfl
  rw [hnil, List.append_nil] at h
  rw [decode, h, ofUtf8Lossy_utf8]

/-! ## Slashes -/

/-- Where slashes are left as they are, encoding keeps their number. -/
theorem count_slash_encode (hset : set '/' = false) (t : List Char) :
    (encode set t).count '/' = t.count '/' := by
  have hescape : ∀ bs : List UInt8, (bs.flatMap escape).count '/' = 0 := by
    intro bs
    rw [List.count_eq_zero]
    intro hmem
    obtain ⟨b, -, hb⟩ := List.mem_flatMap.mp hmem
    have hlt : b.toNat < 256 := b.toNat_lt
    have hdigit : ∀ n < 16, hexDigit n ≠ '/' := by decide
    simp only [escape, List.mem_cons, List.not_mem_nil, or_false] at hb
    obtain hb | hb | hb := hb
    · exact absurd hb (by decide)
    · exact hdigit _ (by omega) hb.symm
    · exact hdigit _ (by omega) hb.symm
  induction t with
  | nil => rfl
  | cons c t ih =>
    rw [encode, List.flatMap_cons, List.count_append, List.count_cons]
    rw [encode] at ih
    rw [ih]
    split
    · rw [List.count_singleton]
      omega
    · rename_i hc
      have hne : c ≠ '/' := by
        rintro rfl
        rw [hset] at hc
        exact hc (by decide)
      rw [hescape]
      simp [hne]

/-- Decoding may add slashes and takes none away. -/
theorem count_slash_le_decode (t : List Char) : t.count '/' ≤ (decode t).count '/' := by
  induction hlen : t.length using Nat.strongRecOn generalizing t with
  | ind n ih =>
    by_cases hmem : '/' ∈ t
    · obtain ⟨a, b, rfl⟩ := List.append_of_mem hmem
      rw [List.length_append, List.length_cons] at hlen
      have ha := ih a.length (by omega) a rfl
      have hb := ih b.length (by omega) b rfl
      rw [decode_append_slash, List.count_append, List.count_append, List.count_cons_self, List.count_cons_self]
      omega
    · rw [List.count_eq_zero.mpr hmem]
      exact Nat.zero_le _

/-! ## Lengths of decoded texts -/

/-- A text has no more characters than bytes. -/
theorem length_ofUtf8Lossy_le (l : List UInt8) : (ofUtf8Lossy l).length ≤ l.length := by
  fun_induction ofUtf8Lossy l <;> simp only [List.length_cons, List.length_nil] at * <;> omega

/-- Taking escapes out makes nothing longer. -/
theorem length_unescape_le (l : List UInt8) : (unescape l).length ≤ l.length := by
  fun_induction unescape l <;> simp only [List.length_cons, List.length_nil] at * <;> omega

/-- A decoded text has no more characters than the bytes it came from. -/
theorem length_decode_le (t : List Char) : (decode t).length ≤ (utf8 t).length :=
  Nat.le_trans (length_ofUtf8Lossy_le _) (length_unescape_le _)

end PercentEncoding
