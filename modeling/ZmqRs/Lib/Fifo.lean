import ZmqRs.Lib.Mpsc
import ZmqRs.Lib.Transition

/-! First-in first-out queues in a family, seen from outside: what was put into each and what was
taken from it, over a run. -/

universe u v w

namespace ZmqRs.Lib

structure Fifo (M : Type u) where
  queue : List M
  closed : Bool
  deriving DecidableEq

def Mpsc.fifo {M : Type u} (c : Mpsc M) : Fifo M := ⟨c.queue, c.closed⟩

def only {ι : Type v} [DecidableEq ι] {M : Type u} (q : ι) (x : Option (ι × M)) : List M :=
  ((x.filter (·.1 = q)).map Prod.snd).toList

namespace Fifo

variable {M : Type u} {ι : Type v} [DecidableEq ι]

/-- What a step may do at one place, with what it puts in and what it takes out.  Closing a queue
drops what waits in it. -/
inductive Step : Option (Fifo M) → List M → List M → Option (Fifo M) → Prop
  | absent : Step none [] [] none
  | opened (closed : Bool) : Step none [] [] (some ⟨[], closed⟩)
  | kept (f : Fifo M) : Step (some f) [] [] (some f)
  | put (l : List M) (m : M) (closed : Bool) :
      Step (some ⟨l, false⟩) [m] [] (some ⟨l ++ [m], closed⟩)
  | took (l : List M) (m : M) (closed : Bool) :
      Step (some ⟨m :: l, closed⟩) [] [m] (some ⟨l, closed⟩)
  | closed (f : Fifo M) : Step (some f) [] [] (some ⟨[], true⟩)

theorem Step.same (f : Option (Fifo M)) : Step f [] [] f := by
  cases f with
  | none => exact .absent
  | some f => exact .kept f

theorem Step.queue {f f' : Fifo M} {put took : List M} (h : Step (some f) put took (some f')) :
    put = [] ∧ f'.queue.length ≤ f.queue.length ∨ ∃ m, put = [m] ∧ f'.queue = f.queue ++ [m] := by
  cases h with
  | kept => exact .inl ⟨rfl, Nat.le_refl _⟩
  | put l m closed => exact .inr ⟨m, rfl, rfl⟩
  | took l m closed => exact .inl ⟨rfl, Nat.le_succ _⟩
  | closed => exact .inl ⟨rfl, Nat.zero_le _⟩

theorem Step.put_unique {f f' : Fifo M} {put took put' took' : List M}
    (h : Step (some f) put took (some f')) (h' : Step (some f) put' took' (some f')) :
    put = put' := by
  rcases h.queue with ⟨rfl, hle⟩ | ⟨m, rfl, hq⟩
  · rcases h'.queue with ⟨rfl, -⟩ | ⟨m', rfl, hq'⟩
    · rfl
    · rw [hq', List.length_append] at hle
      exact absurd hle (Nat.not_succ_le_self _)
  · rcases h'.queue with ⟨rfl, hle⟩ | ⟨m', rfl, hq'⟩
    · rw [hq, List.length_append] at hle
      exact absurd hle (Nat.not_succ_le_self _)
    · rw [hq] at hq'
      exact List.append_cancel_left hq'

@[simp] theorem only_none (q : ι) : only (M := M) q none = [] := rfl

@[simp] theorem only_some (q q' : ι) (m : M) :
    only q (some (q', m)) = if q' = q then [m] else [] := by
  by_cases h : q' = q <;> simp [only, h]

theorem only_of_ne {q q' : ι} {x : Option (ι × M)} (hx : ∀ r ∈ x, r.1 = q') (hq : q' ≠ q) :
    only q x = [] := by
  cases x with
  | none => rfl
  | some r =>
    obtain rfl : r.1 = q' := hx r rfl
    exact (only_some q r.1 r.2).trans (if_neg hq)

def Line (entered taken : List M) : Option (Fifo M) → Prop
  | none => entered = [] ∧ taken = []
  | some f => taken ++ f.queue <+: entered ∧ (f.closed = false → taken ++ f.queue = entered)

theorem Line.step {f f' : Option (Fifo M)} {put took entered taken : List M}
    (hl : Line entered taken f) (h : Step f put took f') :
    Line (entered ++ put) (taken ++ took) f' := by
  cases h with
  | absent => simpa [Line] using hl
  | opened closed =>
    obtain ⟨rfl, rfl⟩ := hl
    simp [Line]
  | kept f => simpa [Line] using hl
  | put l m closed =>
    obtain ⟨-, hopen⟩ := hl
    have heq : taken ++ [] ++ (l ++ [m]) = entered ++ [m] := by
      rw [List.append_nil, ← List.append_assoc, hopen rfl]
    exact ⟨heq ▸ List.prefix_rfl, fun _ => heq⟩
  | took l m closed =>
    obtain ⟨hp, hopen⟩ := hl
    have heq : taken ++ [m] ++ l = taken ++ m :: l := by
      rw [List.append_assoc, List.singleton_append]
    rw [List.append_nil, Line, heq]
    exact ⟨hp, hopen⟩
  | closed f =>
    obtain ⟨hp, -⟩ := hl
    simp only [Line, List.append_nil]
    exact ⟨(List.prefix_append _ _).trans hp, by simp⟩

end Fifo

structure Feeder (σ : Type u) (α : Type v) (M : Type w) extends System σ α where
  lane : σ → Nat → Option (Fifo M)
  entered : σ → Nat → List M
  lane_init : ∀ q, lane init q = none ∧ entered init q = []
  lane_next : ∀ {s s' a}, toSystem.Reachable s → next s a = some s' → ∀ q,
    ∃ put took, Fifo.Step (lane s q) put took (lane s' q) ∧ entered s' q = entered s q ++ put

namespace Feeder

variable {σ : Type u} {α : Type v} {M : Type w} {F : Feeder σ α M}

theorem entered_of_absent {s : σ} (h : F.toSystem.Reachable s) {q : Nat} (hq : F.lane s q = none) :
    F.entered s q = [] := by
  have hinv : F.toSystem.Reachable s ∧ (F.lane s q = none → F.entered s q = []) := by
    refine h.invariant (P := fun s =>
      F.toSystem.Reachable s ∧ (F.lane s q = none → F.entered s q = [])) ?_ ?_
    · exact ⟨⟨[], rfl⟩, fun _ => (F.lane_init q).2⟩
    · intro s a s' ⟨hr, hs⟩ hn
      refine ⟨hr.next hn, fun hq' => ?_⟩
      obtain ⟨put, took, hstep, he⟩ := F.lane_next hr hn q
      rw [hq'] at hstep
      generalize hf : F.lane s q = f at hstep
      cases hstep
      rw [he, hs hf, List.append_nil]
  exact hinv.2 hq

end Feeder

end ZmqRs.Lib
