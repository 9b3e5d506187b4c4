import Mathlib.Data.List.Perm.Basic

/-! Things at places.  All of them stand in one list, so that what is moved is neither lost nor
doubled; those at one place come off in the order in which they were put there. -/

namespace ZmqRs.Lib.Places

variable {P α β : Type} [DecidableEq P]

def take (p : P) : List (P × α) → Option (α × List (P × α))
  | [] => none
  | (q, a) :: items =>
    if q = p then some (a, items) else (take p items).map fun taken => (taken.1, (q, a) :: taken.2)

theorem perm_of_take {p : P} {items rest : List (P × α)} {a : α}
    (h : take p items = some (a, rest)) : items.Perm ((p, a) :: rest) := by
  induction items generalizing rest with
  | nil => cases h
  | cons x items ih =>
    rcases x with ⟨q, b⟩
    rw [take] at h
    split at h
    · rename_i hq
      subst hq
      cases h
      exact .refl _
    · obtain ⟨⟨c, rest'⟩, ht, hrest⟩ := Option.map_eq_some_iff.mp h
      cases hrest
      exact ((ih ht).cons _).trans (.swap _ _ _)

def moveAll (p q : P) (items : List (P × α)) : List (P × α) :=
  items.map fun x => if x.1 = p then (q, x.2) else x

theorem mem_moveAll {p q : P} {items : List (P × α)} {x : P × α} (h : x ∈ moveAll p q items) :
    x ∈ items ∧ x.1 ≠ p ∨ x.1 = q ∧ (p, x.2) ∈ items := by
  obtain ⟨⟨r, a⟩, hy, hx⟩ := List.mem_map.mp h
  split at hx
  · rename_i hr
    cases hr
    cases hx
    exact .inr ⟨rfl, hy⟩
  · rename_i hr
    cases hx
    exact .inl ⟨hy, hr⟩

theorem map_snd_moveAll (p q : P) (f : α → β) (items : List (P × α)) :
    (moveAll p q items).map (fun x => f x.2) = items.map fun x => f x.2 := by
  rw [moveAll, List.map_map]
  apply List.map_congr_left
  intro x _
  simp only [Function.comp]
  split <;> rfl

end ZmqRs.Lib.Places
