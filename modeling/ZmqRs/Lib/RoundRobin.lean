import Mathlib.Data.List.Basic
import Mathlib.Data.List.Range

/-! Round robin over a queue of finite sources: the first source gives an item
and goes to the end, an empty one leaves.  Seen as rounds, round `r` is the
`r`-th item of every source that has one. -/

namespace ZmqRs.Lib

variable {K T : Type}

def items : List (K × List T) → Nat
  | [] => 0
  | s :: l => s.2.length + items l

@[simp] theorem items_append (l l' : List (K × List T)) : items (l ++ l') = items l + items l' := by
  induction l with
  | nil => simp [items]
  | cons s l ih =>
    rw [List.cons_append, items, items, ih]
    omega

def serve : List (K × List T) → List (K × T)
  | [] => []
  | (_, []) :: l => serve l
  | (k, x :: xs) :: l => (k, x) :: serve (l ++ [(k, xs)])
  termination_by l => items l + l.length
  decreasing_by
    · simp only [items, List.length_cons]
      omega
    · simp only [items, items_append, List.length_append, List.length_cons, List.length_nil]
      omega

def round (l : List (K × List T)) (r : Nat) : List (K × T) :=
  l.filterMap fun s => s.2[r]?.map (s.1, ·)

def longest : List (K × List T) → Nat
  | [] => 0
  | s :: l => max s.2.length (longest l)

def rounds (l : List (K × List T)) : List (K × T) := (List.range (longest l)).flatMap (round l)

theorem length_le_longest {l : List (K × List T)} {s : K × List T} (h : s ∈ l) :
    s.2.length ≤ longest l := by
  induction l with
  | nil => cases h
  | cons s' l ih =>
    rw [longest]
    cases List.mem_cons.mp h with
    | inl h =>
      rw [h]
      exact Nat.le_max_left _ _
    | inr h => exact (ih h).trans (Nat.le_max_right _ _)

def rest (l : List (K × List T)) : List (K × List T) :=
  l.filterMap fun s =>
    match s.2 with
    | [] => none
    | _ :: xs => some (s.1, xs)

theorem serve_append (l l' : List (K × List T)) :
    serve (l ++ l') = round l 0 ++ serve (l' ++ rest l) := by
  induction l generalizing l' with
  | nil => simp [round, rest]
  | cons s l ih =>
    obtain ⟨k, xs⟩ := s
    cases xs with
    | nil =>
      rw [List.cons_append, serve, ih]
      simp [round, rest]
    | cons x xs =>
      rw [List.cons_append, serve, List.append_assoc, ih]
      simp [round, rest]

theorem round_rest (l : List (K × List T)) (r : Nat) : round (rest l) r = round l (r + 1) := by
  rw [round, rest, List.filterMap_filterMap, round]
  congr 1
  funext s
  obtain ⟨k, xs⟩ := s
  cases xs with
  | nil => rfl
  | cons x xs => simp

theorem length_of_mem_rest {l : List (K × List T)} {s : K × List T} (h : s ∈ rest l) :
    ∃ s' ∈ l, s'.2.length = s.2.length + 1 := by
  obtain ⟨s', hs', h⟩ := List.mem_filterMap.mp h
  refine ⟨s', hs', ?_⟩
  split at h
  · cases h
  · rename_i hxs
    cases h
    rw [hxs, List.length_cons]

theorem serve_eq_flatMap (n : Nat) (l : List (K × List T)) (h : ∀ s ∈ l, s.2.length ≤ n) :
    serve l = (List.range n).flatMap (round l) := by
  induction n generalizing l with
  | zero =>
    induction l with
    | nil => simp [serve]
    | cons s l ih =>
      obtain ⟨k, xs⟩ := s
      obtain rfl : xs = [] := List.eq_nil_of_length_eq_zero
        (Nat.le_zero.mp (h (k, xs) List.mem_cons_self))
      rw [serve, ih fun s hs => h s (List.mem_cons_of_mem _ hs)]
      simp
  | succ n ih =>
    have hrest : ∀ s ∈ rest l, s.2.length ≤ n := by
      intro s hs
      obtain ⟨s', hs', hlen⟩ := length_of_mem_rest hs
      have := h s' hs'
      omega
    have hserve := serve_append l []
    rw [List.append_nil, List.nil_append, ih _ hrest] at hserve
    rw [hserve, List.range_succ_eq_map, List.flatMap_cons, List.flatMap_map]
    congr 2
    funext r
    exact round_rest l r

/-- Serving the queue goes by rounds. -/
theorem serve_eq_rounds (l : List (K × List T)) : serve l = rounds l :=
  serve_eq_flatMap _ l fun _ hs => length_le_longest hs

end ZmqRs.Lib
