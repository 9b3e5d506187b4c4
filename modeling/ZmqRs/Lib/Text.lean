import Mathlib.Data.List.Basic

/-! Texts and their UTF-8 bytes.  Positions in a text are counted in bytes, and a text
can be cut between two characters only. -/

namespace ZmqRs.Lib

abbrev Text := List Char

namespace Text

def bytes (s : Text) : List UInt8 := s.flatMap String.utf8EncodeChar

def len (s : Text) : Nat := (bytes s).length

def splitAtByte : Nat → Text → Option (Text × Text)
  | 0, s => some ([], s)
  | _ + 1, [] => none
  | n + 1, c :: s =>
    if n + 1 < c.utf8Size then none
    else (splitAtByte (n + 1 - c.utf8Size) s).map fun r => (c :: r.1, r.2)

def slice (i j : Nat) (s : Text) : Option Text := do
  let (upto, _) ← splitAtByte j s
  let (_, mid) ← splitAtByte i upto
  return mid

@[simp] theorem len_nil : len [] = 0 := rfl

@[simp] theorem len_cons (c : Char) (s : Text) : len (c :: s) = c.utf8Size + len s := by
  simp [len, bytes]

@[simp] theorem len_append (s t : Text) : len (s ++ t) = len s + len t := by
  simp [len, bytes]

theorem length_le_len (s : Text) : s.length ≤ len s := by
  induction s with
  | nil => exact Nat.le_refl 0
  | cons c s ih =>
    have hpos := c.utf8Size_pos
    rw [List.length_cons, len_cons]
    omega

theorem len_eq_length {s : Text} (h : ∀ c ∈ s, c.utf8Size = 1) : len s = s.length := by
  induction s with
  | nil => rfl
  | cons c s ih =>
    rw [List.forall_mem_cons] at h
    rw [len_cons, List.length_cons, h.1, ih h.2, Nat.add_comm]

theorem splitAtByte_append (s t : Text) : splitAtByte (len s) (s ++ t) = some (s, t) := by
  induction s with
  | nil => cases t <;> rfl
  | cons c s ih =>
    obtain ⟨n, hn⟩ := Nat.exists_eq_succ_of_ne_zero (Nat.ne_of_gt c.utf8Size_pos)
    have hlen : len (c :: s) = (n + len s) + 1 := by
      rw [len_cons, hn]
      omega
    have hrest : n + len s + 1 - c.utf8Size = len s := by omega
    rw [List.cons_append, hlen, splitAtByte, if_neg (by omega), hrest, ih, Option.map_some]

theorem notMem_of_forall {p : Char → Bool} {s : Text} {c : Char} (h : ∀ a ∈ s, p a = true)
    (hc : p c = false) : c ∉ s := by
  intro hmem
  rw [h c hmem] at hc
  cases hc

theorem slice_append (s t u : Text) : slice (len s) (len s + len t) (s ++ t ++ u) = some t := by
  rw [← len_append, slice, splitAtByte_append]
  exact congrArg (Option.bind · _) (splitAtByte_append s t)

theorem utf8Size_eq_one_of_getLast? {c d : Char} (hd : d.utf8Size = 1)
    (h : (String.utf8EncodeChar c).getLast? = (String.utf8EncodeChar d).getLast?) :
    c.utf8Size = 1 := by
  have hlen : (String.utf8EncodeChar c).length = c.utf8Size := String.length_utf8EncodeChar c
  have hlen' : (String.utf8EncodeChar d).length = 1 := by rw [String.length_utf8EncodeChar, hd]
  have hpos := c.utf8Size_pos
  have hlt : c.utf8Size - 1 < (String.utf8EncodeChar c).length := by omega
  have hlt' : 0 < (String.utf8EncodeChar d).length := by omega
  rw [List.getLast?_eq_getElem?, List.getLast?_eq_getElem?, hlen, hlen',
    List.getElem?_eq_getElem hlt, List.getElem?_eq_getElem hlt'] at h
  have hfirst : (String.utf8EncodeChar c)[c.utf8Size - 1].IsUTF8FirstByte := by
    rw [Option.some.inj h, UInt8.isUTF8FirstByte_getElem_utf8EncodeChar]
  rw [UInt8.isUTF8FirstByte_getElem_utf8EncodeChar] at hfirst
  omega

theorem eq_of_getLast?_bytes {s : Text} {c d : Char} (hd : d.utf8Size = 1)
    (h : (bytes (s ++ [c])).getLast? = (String.utf8EncodeChar d).getLast?) : c = d := by
  have hlast : (bytes (s ++ [c])).getLast? = (String.utf8EncodeChar c).getLast? := by
    rw [bytes, List.flatMap_append, List.flatMap_singleton,
      List.getLast?_append_of_ne_nil _ String.utf8EncodeChar_ne_nil]
  rw [hlast] at h
  have hc := utf8Size_eq_one_of_getLast? hd h
  rw [String.utf8EncodeChar_eq_singleton hc, String.utf8EncodeChar_eq_singleton hd] at h
  rw [List.getLast?_singleton, List.getLast?_singleton] at h
  have hval := congrArg UInt8.toNat (Option.some.inj h)
  rw [UInt32.toNat_toUInt8, UInt32.toNat_toUInt8] at hval
  have hc' := UInt32.le_iff_toNat_le.mp (Char.utf8Size_eq_one_iff.mp hc)
  have hd' := UInt32.le_iff_toNat_le.mp (Char.utf8Size_eq_one_iff.mp hd)
  have h127 : (127 : UInt32).toNat = 127 := rfl
  apply Char.toNat_inj.mp
  change c.val.toNat = d.val.toNat
  omega

end Text

end ZmqRs.Lib
