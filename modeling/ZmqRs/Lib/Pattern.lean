import Mathlib.Data.List.Basic

/-! Anchored patterns.  A pattern is a sequence of single characters and of groups
`(x+)` for a class `x`, and it has to match a whole text.  Groups are greedy, and
where the rest of the pattern does not match, a group gives characters back. -/

universe u

namespace ZmqRs.Lib

inductive Piece (α : Type u)
  | lit (a : α)
  | plus (p : α → Bool)

namespace Pattern

variable {α : Type u} [DecidableEq α]

def lengths (p : α → Bool) (s : List α) : List Nat :=
  ((List.range (s.takeWhile p).length).map Nat.succ).reverse

def captures : List (Piece α) → List α → Option (List (List α))
  | [], [] => some []
  | [], _ :: _ => none
  | .lit _ :: _, [] => none
  | .lit a :: ps, b :: s => if a = b then captures ps s else none
  | .plus p :: ps, s =>
    (lengths p s).findSome? fun n => (captures ps (s.drop n)).map (s.take n :: ·)

inductive Matches : List (Piece α) → List (List α) → List α → Prop
  | nil : Matches [] [] []
  | lit {a : α} {ps : List (Piece α)} {gs : List (List α)} {s : List α} :
    Matches ps gs s → Matches (.lit a :: ps) gs (a :: s)
  | plus {p : α → Bool} {g : List α} {ps : List (Piece α)} {gs : List (List α)} {s : List α} :
    g ≠ [] → (∀ a ∈ g, p a = true) → Matches ps gs s → Matches (.plus p :: ps) (g :: gs) (g ++ s)

omit [DecidableEq α] in
theorem le_length_takeWhile {p : α → Bool} {s : List α} {n : Nat} :
    n ≤ (s.takeWhile p).length ↔ n ≤ s.length ∧ ∀ a ∈ s.take n, p a = true := by
  induction s generalizing n with
  | nil => simp
  | cons a s ih =>
    cases n with
    | zero => simp
    | succ n =>
      by_cases ha : p a = true
      · simp [ha, ih]
      · simp [ha]

omit [DecidableEq α] in
theorem mem_lengths {p : α → Bool} {s : List α} {n : Nat} :
    n ∈ lengths p s ↔ 0 < n ∧ n ≤ s.length ∧ ∀ a ∈ s.take n, p a = true := by
  rw [← le_length_takeWhile, lengths, List.mem_reverse, List.mem_map]
  constructor
  · rintro ⟨m, hm, rfl⟩
    exact ⟨Nat.succ_pos m, List.mem_range.mp hm⟩
  · rintro ⟨hpos, hle⟩
    exact ⟨n - 1, List.mem_range.mpr (by omega), by omega⟩

theorem Matches.of_captures {ps : List (Piece α)} {s : List α} {gs : List (List α)}
    (h : captures ps s = some gs) : Matches ps gs s := by
  induction ps generalizing s gs with
  | nil =>
    cases s with
    | nil =>
      cases h
      exact .nil
    | cons => cases h
  | cons piece ps ih =>
    cases piece with
    | lit a =>
      cases s with
      | nil => cases h
      | cons b s =>
        rw [captures] at h
        split at h
        · rename_i hab
          subst hab
          exact .lit (ih h)
        · cases h
    | plus p =>
      rw [captures] at h
      obtain ⟨n, hn, h⟩ := List.exists_of_findSome?_eq_some h
      obtain ⟨gs', hgs, rfl⟩ := Option.map_eq_some_iff.mp h
      obtain ⟨hpos, hle, hp⟩ := mem_lengths.mp hn
      have hne : s.take n ≠ [] := by
        intro he
        have hlen := congrArg List.length he
        rw [List.length_take, List.length_nil] at hlen
        omega
      have hm := Matches.plus hne hp (ih hgs)
      rw [List.take_append_drop] at hm
      exact hm

theorem Matches.isSome {ps : List (Piece α)} {s : List α} {gs : List (List α)}
    (h : Matches ps gs s) : (captures ps s).isSome := by
  induction h with
  | nil => rfl
  | lit _ ih => simpa [captures] using ih
  | @plus p g ps gs s hne hp _ ih =>
    rw [captures, List.findSome?_isSome_iff]
    refine ⟨g.length, mem_lengths.mpr ⟨List.length_pos_iff.mpr hne, ?_, ?_⟩, ?_⟩
    · simp
    · simpa using hp
    · simpa using ih

/-- Where a text can be cut in one way only, the match gives that one. -/
theorem captures_eq_some {ps : List (Piece α)} {s : List α} {gs : List (List α)}
    (h : Matches ps gs s) (hu : ∀ gs', Matches ps gs' s → gs' = gs) : captures ps s = some gs := by
  obtain ⟨gs', hgs⟩ := Option.isSome_iff_exists.mp h.isSome
  rw [hgs, hu gs' (.of_captures hgs)]

omit [DecidableEq α] in
theorem append_cons_inj_first {a : α} {x x' z z' : List α} (hx : a ∉ x) (hx' : a ∉ x')
    (h : x ++ a :: z = x' ++ a :: z') : x = x' ∧ z = z' := by
  induction x generalizing x' with
  | nil =>
    cases x' with
    | nil =>
      cases h
      exact ⟨rfl, rfl⟩
    | cons b x' =>
      cases h
      exact absurd List.mem_cons_self hx'
  | cons b x ih =>
    cases x' with
    | nil =>
      cases h
      exact absurd List.mem_cons_self hx
    | cons b' x' =>
      rw [List.cons_append, List.cons_append, List.cons.injEq] at h
      rw [List.mem_cons, not_or] at hx hx'
      obtain ⟨rfl, rfl⟩ := ih hx.2 hx'.2 h.2
      rw [h.1]
      exact ⟨rfl, rfl⟩

omit [DecidableEq α] in
theorem append_cons_inj_last {a : α} {x x' z z' : List α} (hz : a ∉ z) (hz' : a ∉ z')
    (h : x ++ a :: z = x' ++ a :: z') : x = x' ∧ z = z' := by
  have hrev := congrArg List.reverse h
  simp only [List.reverse_append, List.reverse_cons, List.append_assoc, List.singleton_append]
    at hrev
  have heq := append_cons_inj_first (mt List.mem_reverse.mp hz) (mt List.mem_reverse.mp hz') hrev
  exact ⟨List.reverse_inj.mp heq.2, List.reverse_inj.mp heq.1⟩

end Pattern

end ZmqRs.Lib
