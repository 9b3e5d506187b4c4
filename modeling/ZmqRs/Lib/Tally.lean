import Mathlib.Data.List.Infix

/-! A counter that goes up and down and never below zero. -/

namespace ZmqRs.Lib

def tally (l : List Bool) : Nat := l.foldl (fun n up => if up then n + 1 else n - 1) 0

@[simp] theorem tally_nil : tally [] = 0 := rfl

@[simp] theorem tally_concat (l : List Bool) (up : Bool) :
    tally (l ++ [up]) = if up then tally l + 1 else tally l - 1 := by
  rw [tally, List.foldl_append]
  rfl

theorem forall_suffix_concat {α : Type} (l : List α) (a : α) (P : List α → Prop) :
    (∀ tail, tail <:+ l ++ [a] → P tail) ↔ P [] ∧ ∀ tail, tail <:+ l → P (tail ++ [a]) := by
  simp only [List.suffix_concat_iff]
  constructor
  · intro h
    exact ⟨h [] (.inl rfl), fun tail ht => h _ (.inr ⟨tail, rfl, ht⟩)⟩
  · rintro ⟨hnil, h⟩ tail (rfl | ⟨tail, rfl, ht⟩)
    · exact hnil
    · exact h tail ht

/-- The counter is the greatest excess of a tail. -/
theorem tally_le_iff (l : List Bool) (n : Nat) :
    tally l ≤ n ↔ ∀ tail, tail <:+ l → tail.count true ≤ tail.count false + n := by
  induction l using List.reverseRecOn generalizing n with
  | nil => simp
  | append_singleton l up ih =>
    rw [tally_concat, forall_suffix_concat]
    cases up with
    | false => simp [ih, Nat.add_assoc, Nat.add_comm 1]
    | true =>
      cases n with
      | zero =>
        rw [if_pos rfl, iff_false_intro (Nat.not_succ_le_zero _), false_iff]
        intro ⟨_, h⟩
        simpa using h [] List.nil_suffix
      | succ n => simp [ih, ← Nat.add_assoc]

theorem tally_pos_of_getLast? {l : List Bool} (h : l.getLast? = some true) : 0 < tally l := by
  obtain ⟨l, rfl⟩ := List.getLast?_eq_some_iff.mp h
  simp

end ZmqRs.Lib
