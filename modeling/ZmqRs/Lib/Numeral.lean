import ZmqRs.Lib.Text

/-! Texts of numbers in a radix up to sixteen, as they are printed by `Nat.toDigits`:
reading the digits off the front of a text gives the number back. -/

namespace ZmqRs.Lib

namespace Numeral

def toDigit (radix : Nat) (c : Char) : Option Nat :=
  let digit :=
    if c.isDigit then some (c.toNat - '0'.toNat)
    else if c.isLower then some (c.toNat - 'a'.toNat + 10)
    else if c.isUpper then some (c.toNat - 'A'.toNat + 10)
    else none
  digit.filter (· < radix)

def digits (radix : Nat) : Text → List Nat × Text
  | [] => ([], [])
  | c :: s =>
    match toDigit radix c with
    | some d => (d :: (digits radix s).1, (digits radix s).2)
    | none => ([], c :: s)

def value (radix : Nat) (ds : List Nat) : Nat := ds.foldl (fun n d => n * radix + d) 0

def Stops (radix : Nat) (s : Text) : Prop := ∀ c ∈ s.head?, toDigit radix c = none

@[simp] theorem stops_nil (radix : Nat) : Stops radix [] := by
  intro c h
  cases h

theorem stops_cons {radix : Nat} {c : Char} (s : Text) (h : toDigit radix c = none) :
    Stops radix (c :: s) := by
  intro c' hc
  cases hc
  exact h

theorem toDigit_digitChar {radix d : Nat} (hr : radix ≤ 16) (hd : d < radix) :
    toDigit radix d.digitChar = some d := by
  have hall : ∀ d < 16, (toDigit 16 d.digitChar) = some d := by decide
  have h := hall d (by omega)
  rw [toDigit, Option.filter_eq_some_iff] at h ⊢
  exact ⟨h.1, decide_eq_true hd⟩

theorem digits_of_stops {radix : Nat} {s : Text} (h : Stops radix s) :
    digits radix s = ([], s) := by
  cases s with
  | nil => rfl
  | cons c s => rw [digits, h c rfl]

theorem digits_map_append {radix : Nat} {ds : List Nat} {s : Text} (hr : radix ≤ 16)
    (hd : ∀ d ∈ ds, d < radix) (hs : Stops radix s) :
    digits radix (ds.map Nat.digitChar ++ s) = (ds, s) := by
  induction ds with
  | nil => exact digits_of_stops hs
  | cons d ds ih =>
    rw [List.forall_mem_cons] at hd
    rw [List.map_cons, List.cons_append, digits, toDigit_digitChar hr hd.1, ih hd.2]

theorem exists_toDigits (radix n : Nat) (hr : 1 < radix) :
    ∃ ds : List Nat, Nat.toDigits radix n = ds.map Nat.digitChar ∧
      (∀ d ∈ ds, d < radix) ∧ value radix ds = n := by
  induction n using Nat.base_induction radix hr with
  | single m hm =>
    refine ⟨[m], Nat.toDigits_of_lt_base hm, ?_, ?_⟩
    · simpa using hm
    · simp [value]
  | digit m k hk hm ih =>
    obtain ⟨ds, htext, hlt, hval⟩ := ih
    refine ⟨ds ++ [k], ?_, ?_, ?_⟩
    · rw [← Nat.toDigits_append_toDigits hr hm hk, htext, Nat.toDigits_of_lt_base hk,
        List.map_append, List.map_singleton]
    · intro d hd
      cases List.mem_append.mp hd with
      | inl h => exact hlt d h
      | inr h =>
        rw [List.mem_singleton.mp h]
        exact hk
    · rw [value] at hval
      rw [value, List.foldl_append, hval, List.foldl_cons, List.foldl_nil, Nat.mul_comm]

theorem digits_toDigits {radix : Nat} (n : Nat) {s : Text} (hr : 1 < radix) (hr' : radix ≤ 16)
    (hs : Stops radix s) :
    ∃ ds : List Nat, digits radix (Nat.toDigits radix n ++ s) = (ds, s) ∧
      value radix ds = n ∧ ds.length = (Nat.toDigits radix n).length := by
  obtain ⟨ds, htext, hlt, hval⟩ := exists_toDigits radix n hr
  refine ⟨ds, ?_, hval, ?_⟩
  · rw [htext, digits_map_append hr' hlt hs]
  · rw [htext, List.length_map]

theorem head?_toDigits_ne_zero {radix n : Nat} (hr : 1 < radix) (hr' : radix ≤ 16) (hn : 0 < n) :
    (Nat.toDigits radix n).head? ≠ some '0' := by
  induction n using Nat.base_induction radix hr with
  | single m hm =>
    have hall : ∀ m < 16, 0 < m → [m.digitChar].head? ≠ some '0' := by decide
    rw [Nat.toDigits_of_lt_base hm]
    exact hall m (by omega) hn
  | digit m k hk hm ih =>
    rw [← Nat.toDigits_append_toDigits hr hm hk, List.head?_append_of_ne_nil _ Nat.toDigits_ne_nil]
    exact ih hm

theorem mem_toDigits {radix n : Nat} {c : Char} (hr : 1 < radix) (hr' : radix ≤ 16)
    (hc : c ∈ Nat.toDigits radix n) : ∃ d, toDigit radix c = some d := by
  obtain ⟨ds, htext, hlt, -⟩ := exists_toDigits radix n hr
  rw [htext] at hc
  obtain ⟨d, hd, rfl⟩ := List.mem_map.mp hc
  exact ⟨d, toDigit_digitChar hr' (hlt d hd)⟩

theorem mem_of_mem_digits {radix : Nat} {s : Text} {c : Char} (h : c ∈ (digits radix s).2) :
    c ∈ s := by
  induction s with
  | nil => exact h
  | cons c' s ih =>
    rw [digits] at h
    split at h
    · exact List.mem_cons_of_mem c' (ih h)
    · exact h

def parseUint (bound : Nat) (s : Text) : Option Nat :=
  let s := if s.head? = some '+' then s.tail else s
  if (digits 10 s).1 = [] ∨ (digits 10 s).2 ≠ [] then none
  else if value 10 (digits 10 s).1 < bound then some (value 10 (digits 10 s).1)
  else none

theorem parseUint_toDigits {bound n : Nat} (h : n < bound) :
    parseUint bound (Nat.toDigits 10 n) = some n := by
  have hplus : (Nat.toDigits 10 n).head? ≠ some '+' := by
    intro hhead
    have hdigit := Nat.isDigit_of_mem_toDigits (by decide) (by decide)
      (List.mem_of_mem_head? hhead)
    exact absurd hdigit (by decide)
  obtain ⟨ds, hdigits, hval, hlen⟩ := digits_toDigits n (by decide) (by decide) (stops_nil 10)
  rw [List.append_nil] at hdigits
  have hne : ds ≠ [] := by
    rw [← List.length_pos_iff, hlen]
    exact Nat.length_toDigits_pos
  simp only [parseUint, if_neg hplus, hdigits, hval]
  rw [if_neg (by simp [hne]), if_pos h]

end Numeral

end ZmqRs.Lib
