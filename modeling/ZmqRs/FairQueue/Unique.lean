import ZmqRs.FairQueue

/-! Turns.  `queued` is to keep a key from being in the ready queue twice; `remove` takes the
key out of `queued` and leaves its event behind. -/

namespace ZmqRs

namespace QueueInner

variable {S K W : Type} [DecidableEq K]

def readyKeys (q : QueueInner S K W) : List K := q.readyQueue.map ReadyEvent.key

def Stale (q : QueueInner S K W) (k : K) : Prop := k ∉ q.queued ∧ k ∈ q.readyKeys

instance (q : QueueInner S K W) (k : K) : Decidable (q.Stale k) :=
  inferInstanceAs (Decidable (_ ∧ _))

/-- A full pass: the events in the order in which they are popped until none is left. -/
inductive Pass : QueueInner S K W → List (ReadyEvent K) → Prop
  | done {q : QueueInner S K W} : q.readyQueue = [] → Pass q []
  | pop {q : QueueInner S K W} {e : ReadyEvent K} {es : List (ReadyEvent K)} :
    q.Greatest e → Pass (q.take e).2 es → Pass q (e :: es)

theorem Pass.perm {q : QueueInner S K W} {es : List (ReadyEvent K)} (h : Pass q es) :
    es.Perm q.readyQueue := by
  induction h with
  | done h => rw [h]
  | pop he _ ih => exact (ih.cons _).trans (List.perm_cons_erase he.1).symm

structure Unique (q : QueueInner S K W) : Prop where
  nodup : q.readyKeys.Nodup
  queued : ∀ k ∈ q.queued, k ∈ q.readyKeys

namespace Unique

variable {q q' : QueueInner S K W}

omit [DecidableEq K] in
theorem congr (h : Unique q) (hr : q'.readyQueue = q.readyQueue) (hq : q'.queued = q.queued) :
    Unique q' := by
  constructor
  · rw [readyKeys, hr]
    exact h.nodup
  · rw [readyKeys, hr, hq]
    exact h.queued

theorem pushReady [Target] (h : Unique q) {k : K} (hs : ¬ q.Stale k) : Unique (q.pushReady k) := by
  rw [QueueInner.pushReady]
  split
  · exact h
  · rename_i hk
    have hne : k ∉ q.readyKeys := fun hm => hs ⟨hk, hm⟩
    constructor
    · have hp : ((q.readyQueue ++ [(⟨q.counter, k⟩ : ReadyEvent K)]).map ReadyEvent.key).Perm
          (k :: q.readyKeys) := by
        rw [List.map_append]
        exact List.perm_append_singleton _ _
      exact hp.nodup_iff.mpr (List.nodup_cons.mpr ⟨hne, h.nodup⟩)
    · intro k' hk'
      simp only [readyKeys, List.map_append, List.map_cons, List.map_nil, List.mem_append,
        List.mem_singleton]
      cases Finset.mem_insert.mp hk' with
      | inl hk' => exact .inr hk'
      | inr hk' => exact .inl (h.queued k' hk')

theorem remove (h : Unique q) (k : K) : Unique (q.remove k) where
  nodup := h.nodup
  queued := by
    intro k' hk'
    exact h.queued k' (Finset.mem_of_mem_erase hk')

theorem take (h : Unique q) (e : ReadyEvent K) : Unique (q.take e).2 := by
  constructor
  · exact h.nodup.sublist (List.erase_sublist.map _)
  · intro k hk
    have hne : k ≠ e.key := Finset.ne_of_mem_erase hk
    obtain ⟨e', he', hkey⟩ := List.mem_map.mp (h.queued k (Finset.mem_of_mem_erase hk))
    apply List.mem_map.mpr
    refine ⟨e', (List.mem_erase_of_ne ?_).mpr he', hkey⟩
    intro heq
    rw [← hkey, heq] at hne
    exact hne rfl

omit [DecidableEq K] in
theorem clear (q : QueueInner S K W) : Unique q.clear.1 where
  nodup := List.nodup_nil
  queued := by
    intro k hk
    cases hk

theorem turn (h : Unique q) {es : List (ReadyEvent K)} (hp : Pass q es) :
    (es.map ReadyEvent.key).Nodup :=
  (hp.perm.map _).nodup_iff.mpr h.nodup

end Unique

end QueueInner

namespace FairQueue

open Codec (Poll)

variable {S K W T E : Type} [DecidableEq K] (poll : S → E → Poll (Option T) × S)

def pushes (st : State S K W T) : Action S K W E → Option K
  | .insert k _ => some k
  | .wake w => st.wakers[w]?
  | .polled env =>
    match st.consumer with
    | .polling _ _ k held _ =>
      match (poll held.stream env).1 with
      | .ready (some _) => some k
      | _ => none
    | _ => none
  | _ => none

/-- The step pushes no key of which `remove` has left an event in the ready queue. -/
def pushesFresh (st : State S K W T) (a : Action S K W E) : Bool :=
  (pushes poll st a).all fun k => !decide (st.inner.Stale k)

variable {poll} [Target] {block : Bool} {st st' : State S K W T}

theorem unique_next {a : Action S K W E} (hf : pushesFresh poll st a = true)
    (hu : st.inner.Unique) (h : next block poll st a = some st') : st'.inner.Unique := by
  cases stepped h with
  | insert k s =>
    apply QueueInner.Unique.pushReady
    · exact hu.congr rfl rfl
    · change ¬ st.inner.Stale k
      simpa [pushesFresh, pushes] using hf
  | remove k => exact hu.remove k
  | clear hc => exact .clear st.inner
  | @wake w k hw =>
    have hs : ¬ st.inner.Stale k := by
      simpa [pushesFresh, pushes, hw] using hf
    exact (hu.pushReady hs).congr rfl rfl
  | @skip e _ _ hc hg hl => exact (hu.take e).congr rfl rfl
  | @take e _ _ _ hc hg hl => exact (hu.take e).congr rfl rfl
  | @item env task n k held w t hc hp =>
    have hs : ¬ st.inner.Stale k := by
      simpa [pushesFresh, pushes, hc, hp] using hf
    apply QueueInner.Unique.pushReady
    · exact hu.congr rfl rfl
    · exact hs
  | pollNext | popNone | pending | exit => exact hu.congr rfl rfl
  | ended | resume | finish => exact hu

section Runs

omit [Target]

def silent (s : Unit) (_ : Unit) : Poll (Option Unit) × Unit := (.pending, s)

end Runs

end FairQueue

end ZmqRs
