import ZmqRs.Lib.Transition
import ZmqRs.Codec.Framed
import Mathlib.Data.List.AList
import Mathlib.Data.Finset.Basic

/-! The fair queue.  `QueueInner` and its lock-protected sections come first;
`FairQueue.system` then interleaves one consumer's `poll_next` with what other
tasks may do between two of its sections. -/

namespace ZmqRs

open Codec (Poll)

structure ReadyEvent (K : Type) where
  priority : Nat
  key : K
  deriving DecidableEq

/-- The heap is the list of its events.  `waker` is the task that waits. -/
structure QueueInner (S K W : Type) where
  counter : Nat
  readyQueue : List (ReadyEvent K)
  queued : Finset K
  streams : AList fun _ : K => S
  waker : Option W

namespace QueueInner

variable [Target] {S K W : Type} [DecidableEq K]

def new : QueueInner S K W := ⟨0, [], ∅, ∅, none⟩

def pushReady (q : QueueInner S K W) (k : K) : QueueInner S K W :=
  if k ∈ q.queued then q
  else
    { q with
      queued := insert k q.queued
      readyQueue := q.readyQueue ++ [⟨q.counter, k⟩]
      counter := (q.counter + 1) % 2 ^ Target.usizeBits }

@[simp] theorem pushReady_streams (q : QueueInner S K W) (k : K) :
    (q.pushReady k).streams = q.streams := by
  rw [pushReady]
  split <;> rfl

@[simp] theorem pushReady_waker (q : QueueInner S K W) (k : K) :
    (q.pushReady k).waker = q.waker := by
  rw [pushReady]
  split <;> rfl

def insert (q : QueueInner S K W) (k : K) (s : S) : QueueInner S K W × Option W :=
  (({ q with streams := q.streams.insert k s }).pushReady k, q.waker)

def remove (q : QueueInner S K W) (k : K) : QueueInner S K W :=
  { q with streams := q.streams.erase k, queued := q.queued.erase k }

def clear (q : QueueInner S K W) : QueueInner S K W × Option W :=
  ({ q with streams := ∅, readyQueue := [], queued := ∅, waker := none }, q.waker)

def wake (q : QueueInner S K W) (k : K) : QueueInner S K W × Option W :=
  ({ q.pushReady k with waker := none }, q.waker)

/-- `pop` returns a greatest event, and `Ord` reverses the priorities; among
equal priorities the heap promises nothing. -/
def Greatest (q : QueueInner S K W) (e : ReadyEvent K) : Prop :=
  e ∈ q.readyQueue ∧ ∀ e' ∈ q.readyQueue, e.priority ≤ e'.priority

instance (q : QueueInner S K W) (e : ReadyEvent K) : Decidable (q.Greatest e) :=
  inferInstanceAs (Decidable (_ ∧ _))

def take (q : QueueInner S K W) (e : ReadyEvent K) : Option S × QueueInner S K W :=
  (q.streams.lookup e.key,
    { q with
      readyQueue := q.readyQueue.erase e
      queued := q.queued.erase e.key
      streams := q.streams.erase e.key })

def putBack (q : QueueInner S K W) (k : K) (s : S) : QueueInner S K W :=
  { q with streams := q.streams.insert k s }

end QueueInner

namespace FairQueue

section Defs

variable (S K W T : Type)

/-- A stream with a note for the proofs: the `StreamWaker` it was last polled
with, if that poll returned `Pending`. -/
structure Held where
  stream : S
  pendingWaker : Option Nat

/-- Where the consumer is in `poll_next`.  `ended` is the unlocked call of
`on_disconnect`; what the callback does to the queue is a sequence of the
operations that other tasks may do as well. -/
inductive Consumer
  | idle (last : Option (W × Poll (Option (K × T))))
  | looping (task : W) (remaining : Nat)
  | polling (task : W) (remaining : Nat) (key : K) (held : Held S) (waker : Nat)
  | ended (task : W) (remaining : Nat) (key : K)
  | returning (task : W) (shouldWake : Bool) (result : Poll (Option (K × T)))

/-- `wakers` are the keys of the `StreamWaker`s made so far and `invoked` those
that were invoked; `woken` are the tasks woken since the consumer's last
section, `yielded` the items it has returned. -/
structure State where
  inner : QueueInner (Held S) K W
  consumer : Consumer S K W T
  wakers : List K
  invoked : List Nat
  woken : List W
  yielded : List (K × T)

inductive Action (E : Type)
  | insert (k : K) (s : S)
  | remove (k : K)
  | clear
  | wake (w : Nat)
  | pollNext (task : W)
  | pop (e : ReadyEvent K)
  | popNone
  | polled (env : E)
  | resume
  | exit
  | finish

end Defs

variable [Target] {S K W T E : Type} [DecidableEq K]

def State.init : State S K W T := ⟨.new, .idle none, [], [], [], []⟩

def noItem (block : Bool) (q : QueueInner S K W) : Poll (Option (K × T)) :=
  if !q.streams.entries.isEmpty || block then .pending else .ready none

variable (block : Bool) (poll : S → E → Poll (Option T) × S)

/-- One atomic step.  `poll` is the inner streams' `poll_next`, whose outcome may
depend on anything outside the queue. -/
def next (st : State S K W T) : Action S K W E → Option (State S K W T)
  | .insert k s =>
    let (inner, woken) := st.inner.insert k ⟨s, none⟩
    some { st with inner := inner, woken := st.woken ++ woken.toList }
  | .remove k => some { st with inner := st.inner.remove k }
  | .clear =>
    match st.consumer with
    | .idle _ =>
      let (inner, woken) := st.inner.clear
      some { st with inner := inner, woken := st.woken ++ woken.toList }
    | _ => none
  | .wake w =>
    match st.wakers[w]? with
    | none => none
    | some k =>
      let (inner, woken) := st.inner.wake k
      some { st with
        inner := inner, invoked := w :: st.invoked, woken := st.woken ++ woken.toList }
  | .pollNext task =>
    match st.consumer with
    | .idle _ =>
      some { st with
        inner := { st.inner with waker := some task }
        consumer := .looping task st.inner.readyQueue.length }
    | _ => none
  | .pop e =>
    match st.consumer with
    | .looping task (remaining + 1) =>
      if st.inner.Greatest e then
        let inner := { st.inner with waker := some task }
        match inner.take e with
        | (none, inner) => some { st with inner := inner, consumer := .looping task remaining }
        | (some held, inner) =>
          some { st with
            inner := inner
            consumer := .polling task remaining e.key held st.wakers.length
            wakers := st.wakers ++ [e.key] }
      else none
    | _ => none
  | .popNone =>
    match st.consumer with
    | .looping task (_ + 1) =>
      if st.inner.readyQueue = [] then
        let inner := { st.inner with waker := some task }
        some { st with
          inner := inner, consumer := .idle (some (task, noItem block inner)), woken := [] }
      else none
    | _ => none
  | .polled env =>
    match st.consumer with
    | .polling task remaining k held w =>
      match poll held.stream env with
      | (.ready (some t), s) =>
        some { st with
          inner := (st.inner.putBack k ⟨s, none⟩).pushReady k
          consumer := .idle (some (task, .ready (some (k, t))))
          yielded := st.yielded ++ [(k, t)] }
      | (.ready none, _) => some { st with consumer := .ended task remaining k }
      | (.pending, s) =>
        some { st with
          inner := st.inner.putBack k ⟨s, some w⟩
          consumer := .looping task remaining }
    | _ => none
  | .resume =>
    match st.consumer with
    | .ended task remaining _ => some { st with consumer := .looping task remaining }
    | _ => none
  | .exit =>
    match st.consumer with
    | .looping task 0 =>
      let inner := { st.inner with waker := some task }
      some { st with
        inner := inner
        consumer := .returning task (!inner.readyQueue.isEmpty) (noItem block inner)
        woken := [] }
    | _ => none
  | .finish =>
    match st.consumer with
    | .returning task shouldWake result =>
      some { st with
        consumer := .idle (some (task, result))
        woken := if shouldWake then st.woken ++ [task] else st.woken }
    | _ => none

def system : Lib.System (State S K W T) (Action S K W E) where
  init := .init
  next := next block poll

inductive Stepped (st : State S K W T) : Action S K W E → State S K W T → Prop
  | insert (k : K) (s : S) :
    Stepped st (.insert k s) { st with
      inner := (st.inner.insert k ⟨s, none⟩).1, woken := st.woken ++ st.inner.waker.toList }
  | remove (k : K) : Stepped st (.remove k) { st with inner := st.inner.remove k }
  | clear {last : Option (W × Poll (Option (K × T)))} (hc : st.consumer = .idle last) :
    Stepped st .clear { st with
      inner := st.inner.clear.1, woken := st.woken ++ st.inner.waker.toList }
  | wake {w : Nat} {k : K} (hw : st.wakers[w]? = some k) :
    Stepped st (.wake w) { st with
      inner := (st.inner.wake k).1
      invoked := w :: st.invoked
      woken := st.woken ++ st.inner.waker.toList }
  | pollNext (task : W) {last : Option (W × Poll (Option (K × T)))}
    (hc : st.consumer = .idle last) :
    Stepped st (.pollNext task) { st with
      inner := { st.inner with waker := some task }
      consumer := .looping task st.inner.readyQueue.length }
  | skip {e : ReadyEvent K} {task : W} {n : Nat} (hc : st.consumer = .looping task (n + 1))
    (hg : st.inner.Greatest e) (hl : st.inner.streams.lookup e.key = none) :
    Stepped st (.pop e) { st with
      inner := { (st.inner.take e).2 with waker := some task }
      consumer := .looping task n }
  | take {e : ReadyEvent K} {task : W} {n : Nat} {held : Held S}
    (hc : st.consumer = .looping task (n + 1)) (hg : st.inner.Greatest e)
    (hl : st.inner.streams.lookup e.key = some held) :
    Stepped st (.pop e) { st with
      inner := { (st.inner.take e).2 with waker := some task }
      consumer := .polling task n e.key held st.wakers.length
      wakers := st.wakers ++ [e.key] }
  | popNone {task : W} {n : Nat} (hc : st.consumer = .looping task (n + 1))
    (he : st.inner.readyQueue = []) :
    Stepped st .popNone { st with
      inner := { st.inner with waker := some task }
      consumer := .idle (some (task, noItem block { st.inner with waker := some task }))
      woken := [] }
  | item {env : E} {task : W} {n : Nat} {k : K} {held : Held S} {w : Nat} {t : T}
    (hc : st.consumer = .polling task n k held w)
    (hp : (poll held.stream env).1 = .ready (some t)) :
    Stepped st (.polled env) { st with
      inner := (st.inner.putBack k ⟨(poll held.stream env).2, none⟩).pushReady k
      consumer := .idle (some (task, .ready (some (k, t))))
      yielded := st.yielded ++ [(k, t)] }
  | ended {env : E} {task : W} {n : Nat} {k : K} {held : Held S} {w : Nat}
    (hc : st.consumer = .polling task n k held w) (hp : (poll held.stream env).1 = .ready none) :
    Stepped st (.polled env) { st with consumer := .ended task n k }
  | pending {env : E} {task : W} {n : Nat} {k : K} {held : Held S} {w : Nat}
    (hc : st.consumer = .polling task n k held w) (hp : (poll held.stream env).1 = .pending) :
    Stepped st (.polled env) { st with
      inner := st.inner.putBack k ⟨(poll held.stream env).2, some w⟩
      consumer := .looping task n }
  | resume {task : W} {n : Nat} {k : K} (hc : st.consumer = .ended task n k) :
    Stepped st .resume { st with consumer := .looping task n }
  | exit {task : W} (hc : st.consumer = .looping task 0) :
    Stepped st .exit { st with
      inner := { st.inner with waker := some task }
      consumer := .returning task (!st.inner.readyQueue.isEmpty)
        (noItem block { st.inner with waker := some task })
      woken := [] }
  | finish {task : W} {shouldWake : Bool} {result : Poll (Option (K × T))}
    (hc : st.consumer = .returning task shouldWake result) :
    Stepped st .finish { st with
      consumer := .idle (some (task, result))
      woken := if shouldWake then st.woken ++ [task] else st.woken }

variable {block poll} {st st' : State S K W T}

theorem stepped_pop {e : ReadyEvent K} (h : next block poll st (.pop e) = some st') :
    Stepped block poll st (.pop e) st' := by
  simp only [next] at h
  split at h
  · rename_i hc
    split at h
    · rename_i hg
      split at h
      · rename_i ht
        obtain ⟨hl, rfl⟩ := Prod.mk.inj ht
        cases h
        exact .skip hc hg hl
      · rename_i ht
        obtain ⟨hl, rfl⟩ := Prod.mk.inj ht
        cases h
        exact .take hc hg hl
    · cases h
  · cases h

theorem stepped_polled {env : E} (h : next block poll st (.polled env) = some st') :
    Stepped block poll st (.polled env) st' := by
  simp only [next] at h
  split at h
  · rename_i hc
    split at h
    · rename_i hp
      cases h
      have hstep : Stepped block poll st (.polled env) _ := .item hc (congrArg Prod.fst hp)
      rwa [hp] at hstep
    · rename_i hp
      cases h
      exact .ended hc (congrArg Prod.fst hp)
    · rename_i hp
      cases h
      have hstep : Stepped block poll st (.polled env) _ := .pending hc (congrArg Prod.fst hp)
      rwa [hp] at hstep
  · cases h

theorem stepped {a : Action S K W E} (h : next block poll st a = some st') :
    Stepped block poll st a st' := by
  cases a with
  | insert k s =>
    cases h
    exact .insert k s
  | remove k =>
    cases h
    exact .remove k
  | clear =>
    simp only [next] at h
    split at h
    · rename_i hc
      cases h
      exact .clear hc
    · cases h
  | wake w =>
    simp only [next] at h
    split at h
    · cases h
    · rename_i hw
      cases h
      exact .wake hw
  | pollNext task =>
    simp only [next] at h
    split at h
    · rename_i hc
      cases h
      exact .pollNext task hc
    · cases h
  | pop e => exact stepped_pop h
  | popNone =>
    simp only [next] at h
    split at h
    · rename_i hc
      split at h
      · rename_i he
        cases h
        exact .popNone hc he
      · cases h
    · cases h
  | polled env => exact stepped_polled h
  | resume =>
    simp only [next] at h
    split at h
    · rename_i hc
      cases h
      exact .resume hc
    · cases h
  | exit =>
    simp only [next] at h
    split at h
    · rename_i hc
      cases h
      exact .exit hc
    · cases h
  | finish =>
    simp only [next] at h
    split at h
    · rename_i hc
      cases h
      exact .finish hc
    · cases h

end FairQueue

end ZmqRs
