import Ncrs.Native.StreamUpload

/-!
# Bytes of a staging file

What the file operations do to the single bytes and to slices of a file.

## Key results

- `slice_placeBytes`: a write outside a slice leaves it
- `getElem?_placeBytes_congr`: a write keeps two files equal where they were
- `getElem?_punchHole`: a hole changes nothing outside it
-/

namespace Ncrs.Bytes

theorem length_writeAt (b : Bytes) (off : Nat) (data : Bytes) :
    (b.writeAt off data).length =
      if data.isEmpty then b.length else max b.length (off + data.length) := by
  unfold writeAt
  split
  · rfl
  · simp only [List.length_append, List.length_take, List.length_replicate, List.length_drop]
    omega

theorem getElem?_writeAt (b : Bytes) (off : Nat) (data : Bytes) (i : Nat) :
    (b.writeAt off data)[i]? =
      if data.isEmpty then b[i]?
      else if i < off then if i < b.length then b[i]? else some 0
      else if i < off + data.length then data[i - off]? else b[i]? := by
  unfold writeAt
  split
  · rfl
  · have hpre : (b.take off ++ List.replicate (off - b.length) (0 : UInt8)).length = off := by
      simp only [List.length_append, List.length_take, List.length_replicate]
      omega
    rw [List.append_assoc]
    split
    · rename_i hlt
      rw [List.getElem?_append_left (by omega)]
      split
      · rename_i hb
        rw [List.getElem?_append_left (by rw [List.length_take]; omega),
          List.getElem?_take_of_lt hlt]
      · rename_i hb
        rw [List.getElem?_append_right (by rw [List.length_take]; omega), List.getElem?_replicate]
        rw [List.length_take, if_pos (by omega)]
    · rename_i hge
      rw [List.getElem?_append_right (by omega), hpre]
      split
      · rw [List.getElem?_append_left (by omega)]
      · rw [List.getElem?_append_right (by omega), List.getElem?_drop]
        congr 1
        omega

theorem length_slice {b : Bytes} {off n : Nat} (h : off + n ≤ b.length) :
    (b.slice off n).length = n := by
  simp only [slice, List.length_take, List.length_drop]
  omega

theorem getElem?_slice (b : Bytes) (off n i : Nat) :
    (b.slice off n)[i]? = if i < n then b[off + i]? else none := by
  unfold slice
  split
  · rename_i h
    rw [List.getElem?_take_of_lt h, List.getElem?_drop]
  · rw [List.getElem?_eq_none]
    rw [List.length_take]
    omega

/-- Slices agree where the bytes do. -/
theorem slice_congr {a b : Bytes} {off n : Nat}
    (h : ∀ i, off ≤ i → i < off + n → a[i]? = b[i]?) : a.slice off n = b.slice off n := by
  apply List.ext_getElem?
  intro i
  rw [getElem?_slice, getElem?_slice]
  split
  · exact h (off + i) (by omega) (by omega)
  · rfl

theorem slice_append (b : Bytes) (off n m : Nat) :
    b.slice off n ++ b.slice (off + n) m = b.slice off (n + m) := by
  simp only [slice, ← List.drop_drop]
  exact (List.take_add).symm

theorem take_append_slice (b : Bytes) (n m : Nat) :
    b.take n ++ b.slice n m = b.take (n + m) := (List.take_add).symm

/-! ## Writes -/

theorem length_placeBytes (append : Bool) (b : Bytes) (off : Nat) (data : Bytes) :
    b.length ≤ (placeBytes append b off data).length := by
  cases append with
  | true => simp [placeBytes]
  | false =>
    simp only [placeBytes, Bool.false_eq_true, if_false, length_writeAt]
    split <;> omega

/-- A write that starts inside the file ends inside the file it makes. -/
theorem end_le_length_placeBytes {append : Bool} {b : Bytes} {off : Nat} (data : Bytes)
    (hoff : off ≤ b.length) : off + data.length ≤ (placeBytes append b off data).length := by
  cases append with
  | true =>
    simp only [placeBytes, if_true, List.length_append]
    omega
  | false =>
    simp only [placeBytes, Bool.false_eq_true, if_false, length_writeAt]
    split
    · rename_i hempty
      rw [List.isEmpty_iff] at hempty
      simpa [hempty] using hoff
    · omega

/-- Two files that agree on a byte agree on it after the same write. -/
theorem getElem?_placeBytes_congr {append : Bool} {a b : Bytes} {off i : Nat} {data : Bytes}
    (hlen : a.length = b.length) (h : a[i]? = b[i]?) :
    (placeBytes append a off data)[i]? = (placeBytes append b off data)[i]? := by
  cases append with
  | true => simp only [placeBytes, if_true, List.getElem?_append, hlen, h]
  | false => simp only [placeBytes, Bool.false_eq_true, if_false, getElem?_writeAt, hlen, h]

theorem length_placeBytes_congr {append : Bool} {a b : Bytes} {off : Nat} {data : Bytes}
    (hlen : a.length = b.length) :
    (placeBytes append a off data).length = (placeBytes append b off data).length := by
  cases append with
  | true => simp only [placeBytes, if_true, List.length_append, hlen]
  | false => simp only [placeBytes, Bool.false_eq_true, if_false, length_writeAt, hlen]

/-- A write leaves the bytes of the file that it does not reach. -/
theorem slice_placeBytes {append : Bool} {b : Bytes} {off a n : Nat} {data : Bytes}
    (hin : a + n ≤ b.length) (hout : off + data.length ≤ a ∨ a + n ≤ off) :
    (placeBytes append b off data).slice a n = b.slice a n := by
  apply slice_congr
  intro i hlo hhi
  cases append with
  | true =>
    simp only [placeBytes, if_true]
    rw [List.getElem?_append_left (by omega)]
  | false =>
    simp only [placeBytes, Bool.false_eq_true, if_false, getElem?_writeAt]
    have hib : i < b.length := by omega
    split
    · rfl
    · split
      · rfl
      · rw [if_neg (by omega)]

/-- An append is a write at the end. -/
theorem append_eq_writeAt (b data : Bytes) : b ++ data = b.writeAt b.length data := by
  unfold writeAt
  split
  · rename_i hempty
    rw [List.isEmpty_iff] at hempty
    rw [hempty, List.append_nil]
  · simp

theorem placeBytes_eq_writeAt {append : Bool} {b : Bytes} {off : Nat} (data : Bytes)
    (h : append = true → off = b.length) : placeBytes append b off data = b.writeAt off data := by
  cases append with
  | true => rw [h rfl, ← append_eq_writeAt]; rfl
  | false => rfl

theorem setLen_length (b : Bytes) : b.setLen b.length = b := by
  simp [setLen]

/-! ## Holes -/

theorem length_punchHole {b : Bytes} {off n : Nat} (h : off + n ≤ b.length) :
    (b.punchHole off n).length = b.length := by
  simp only [punchHole, List.length_append, List.length_take, List.length_replicate,
    List.length_drop]
  omega

theorem getElem?_punchHole {b : Bytes} {off n i : Nat} (hin : off + n ≤ b.length)
    (hout : i < off ∨ off + n ≤ i) : (b.punchHole off n)[i]? = b[i]? := by
  unfold punchHole
  obtain hlt | hge := hout
  · rw [List.append_assoc, List.getElem?_append_left (by rw [List.length_take]; omega),
      List.getElem?_take_of_lt hlt]
  · have hlen : (b.take off ++ List.replicate (min n (b.length - off)) (0 : UInt8)).length
        = off + n := by
      simp only [List.length_append, List.length_take, List.length_replicate]
      omega
    rw [List.getElem?_append_right (by omega), hlen, List.getElem?_drop]
    congr 1
    omega

end Ncrs.Bytes
