import ZmqRs.Lib.Transition
import ZmqRs.Basic

/-! The queue between the callers of `send` on a PUB socket and the task that fans
messages out.  Every operation on the queue, on `wake_pending` and on the wake channel is
a step. -/

namespace ZmqRs.PubFanoutQueue

inductive Publish
  | push (message : ZmqMessage)
  | load
  | swap
  | send
  | done
  deriving DecidableEq

inductive Worker
  | next
  | pop
  | fanout (message : ZmqMessage)
  | clear
  | isEmpty
  | set
  | ended
  deriving DecidableEq

/-- `tokens` counts what the wake channel holds.  `pushed` and `handed` are the messages
pushed so far and those given to `fanout_message`. -/
structure State where
  queue : List ZmqMessage
  wakePending : Bool
  tokens : Nat
  senderAlive : Bool
  calls : List Publish
  worker : Worker
  pushed : List ZmqMessage
  handed : List ZmqMessage

inductive Action
  | publish (message : ZmqMessage)
  | call (i : Nat)
  | work
  | drop

def State.init : State := ⟨[], false, 0, true, [], .next, [], []⟩

def callNext (capacity : Nat) (st : State) (i : Nat) : Publish → Option State
  | .push m =>
    if st.queue.length < capacity then
      some { st with
        queue := st.queue ++ [m]
        pushed := st.pushed ++ [m]
        calls := st.calls.set i .load }
    else some { st with calls := st.calls.set i .done }
  | .load =>
    some { st with calls := st.calls.set i (if st.wakePending then .done else .swap) }
  | .swap =>
    some { st with
      wakePending := true
      calls := st.calls.set i (if st.wakePending then .done else .send) }
  | .send => some { st with tokens := st.tokens + 1, calls := st.calls.set i .done }
  | .done => none

def workNext (st : State) : Option State :=
  match st.worker with
  | .next =>
    if 0 < st.tokens then some { st with tokens := st.tokens - 1, worker := .pop }
    else if st.senderAlive then none
    else some { st with worker := .ended }
  | .pop =>
    match st.queue with
    | [] => some { st with worker := .clear }
    | m :: queue =>
      some { st with queue := queue, worker := .fanout m, handed := st.handed ++ [m] }
  | .fanout _ => some { st with worker := .pop }
  | .clear => some { st with wakePending := false, worker := .isEmpty }
  | .isEmpty => some { st with worker := if st.queue.isEmpty then .next else .set }
  | .set => some { st with wakePending := true, worker := .pop }
  | .ended => none

def next (capacity : Nat) (st : State) : Action → Option State
  -- `publish` needs the queue, and the queue is dropped when no call is left.
  | .publish m =>
    if st.senderAlive then some { st with calls := st.calls ++ [.push m] } else none
  | .call i => st.calls[i]?.bind (callNext capacity st i)
  | .work => workNext st
  | .drop =>
    if ∀ c ∈ st.calls, c = .done then some { st with senderAlive := false } else none

def system (capacity : Nat) : Lib.System State Action where
  init := .init
  next := next capacity

open Lib (mem_set_of_mem mem_set_self_of_getElem?)

def Signalled (st : State) : Prop := 0 < st.tokens ∨ .send ∈ st.calls

def Worker.clears : Worker → Prop
  | .pop | .fanout _ | .clear => True
  | _ => False

structure Inv (capacity : Nat) (st : State) : Prop where
  fifo : st.pushed = st.handed ++ st.queue
  bound : st.queue.length ≤ capacity
  pending : st.wakePending → st.worker.clears ∨ Signalled st
  waiting : st.queue ≠ [] → st.worker = .next →
    Signalled st ∨ st.wakePending = false ∧ ∃ c ∈ st.calls, c = .load ∨ c = .swap

section Steps

variable {capacity : Nat} {st : State} {i : Nat}

theorem Signalled.set {c : Publish} (h : Signalled st) (hi : st.calls[i]? = some c)
    (hc : c ≠ .send) (c' : Publish) : 0 < st.tokens ∨ .send ∈ st.calls.set i c' := by
  refine h.imp_right fun hm => ?_
  rcases mem_set_of_mem c' hi hm with rfl | hm
  · exact absurd rfl hc
  · exact hm

theorem Inv.publish (hv : Inv capacity st) (m : ZmqMessage) :
    Inv capacity { st with calls := st.calls ++ [.push m] } where
  fifo := hv.fifo
  bound := hv.bound
  pending h := (hv.pending h).imp_right fun h => h.imp_right (List.mem_append_left _)
  waiting hq hw := by
    refine (hv.waiting hq hw).imp (fun h => h.imp_right (List.mem_append_left _)) ?_
    rintro ⟨hp, c, hc, h⟩
    exact ⟨hp, c, List.mem_append_left _ hc, h⟩

theorem Inv.push (hv : Inv capacity st) {m : ZmqMessage} (hi : st.calls[i]? = some (.push m))
    (hl : st.queue.length < capacity) :
    Inv capacity { st with
      queue := st.queue ++ [m], pushed := st.pushed ++ [m], calls := st.calls.set i .load } where
  fifo := by rw [hv.fifo, List.append_assoc]
  bound := by
    rw [List.length_append, List.length_singleton]
    exact hl
  pending h := (hv.pending h).imp_right fun h => h.set hi (by simp) _
  waiting _ hw := by
    cases hp : st.wakePending with
    | false => exact .inr ⟨rfl, .load, mem_set_self_of_getElem? _ hi, .inl rfl⟩
    | true =>
      refine .inl (Signalled.set ?_ hi (by simp) _)
      refine (hv.pending hp).resolve_left ?_
      simp only at hw
      simp [hw, Worker.clears]

theorem Inv.drop_push (hv : Inv capacity st) {m : ZmqMessage}
    (hi : st.calls[i]? = some (.push m)) : Inv capacity { st with calls := st.calls.set i .done } where
  fifo := hv.fifo
  bound := hv.bound
  pending h := (hv.pending h).imp_right fun h => h.set hi (by simp) _
  waiting hq hw := by
    refine (hv.waiting hq hw).imp (fun h => h.set hi (by simp) _) ?_
    rintro ⟨hp, c, hc, h⟩
    rcases mem_set_of_mem .done hi hc with rfl | hc
    · simp at h
    · exact ⟨hp, c, hc, h⟩

theorem Inv.load (hv : Inv capacity st) (hi : st.calls[i]? = some .load) :
    Inv capacity { st with calls := st.calls.set i (if st.wakePending then .done else .swap) } where
  fifo := hv.fifo
  bound := hv.bound
  pending h := (hv.pending h).imp_right fun h => h.set hi (by simp) _
  waiting hq hw := by
    refine (hv.waiting hq hw).imp (fun h => h.set hi (by simp) _) ?_
    rintro ⟨hp, -⟩
    refine ⟨hp, .swap, ?_, .inr rfl⟩
    rw [hp]
    exact mem_set_self_of_getElem? _ hi

theorem Inv.swap (hv : Inv capacity st) (hi : st.calls[i]? = some .swap) :
    Inv capacity { st with
      wakePending := true
      calls := st.calls.set i (if st.wakePending then .done else .send) } := by
  -- the call that finds the flag clear sends, and one that finds it set was signalled for
  have hsig : ∀ {p : Prop}, (st.wakePending → p ∨ Signalled st) → p ∨ (0 < st.tokens ∨
      .send ∈ st.calls.set i (if st.wakePending then .done else .send)) := by
    intro p h
    cases hp : st.wakePending with
    | false => exact .inr (.inr (mem_set_self_of_getElem? _ hi))
    | true => exact (h hp).imp_right fun h => h.set hi (by simp) _
  refine ⟨hv.fifo, hv.bound, ?_, ?_⟩
  · exact fun _ => hsig hv.pending
  · intro hq hw
    refine .inl ((hsig (p := False) fun hp => ?_).resolve_left id)
    refine .inr ((hv.waiting hq hw).resolve_right ?_)
    rintro ⟨hp', -⟩
    rw [hp] at hp'
    cases hp'

theorem Inv.send (hv : Inv capacity st) :
    Inv capacity { st with tokens := st.tokens + 1, calls := st.calls.set i .done } where
  fifo := hv.fifo
  bound := hv.bound
  pending _ := .inr (.inl (Nat.succ_pos _))
  waiting _ _ := .inl (.inl (Nat.succ_pos _))

theorem Inv.wake (hv : Inv capacity st) :
    Inv capacity { st with tokens := st.tokens - 1, worker := .pop } where
  fifo := hv.fifo
  bound := hv.bound
  pending _ := .inl trivial
  waiting _ hw := by simp at hw

theorem Inv.work (hv : Inv capacity st) {worker : Worker}
    (hc : st.worker.clears → worker.clears) (hn : worker ≠ .next) :
    Inv capacity { st with worker := worker } where
  fifo := hv.fifo
  bound := hv.bound
  pending h := (hv.pending h).imp_left hc
  waiting _ hw := absurd hw hn

theorem Inv.pop (hv : Inv capacity st) {m : ZmqMessage} {queue : List ZmqMessage}
    (hq : st.queue = m :: queue) :
    Inv capacity { st with queue := queue, worker := .fanout m, handed := st.handed ++ [m] } where
  fifo := by rw [hv.fifo, hq, List.append_assoc, List.singleton_append]
  bound := by
    have := hv.bound
    rw [hq, List.length_cons] at this
    exact Nat.le_of_succ_le this
  pending _ := .inl trivial
  waiting _ hw := by simp at hw

theorem Inv.clear (hv : Inv capacity st) :
    Inv capacity { st with wakePending := false, worker := .isEmpty } where
  fifo := hv.fifo
  bound := hv.bound
  pending h := by cases h
  waiting _ hw := by simp at hw

theorem Inv.set (hv : Inv capacity st) :
    Inv capacity { st with wakePending := true, worker := .pop } where
  fifo := hv.fifo
  bound := hv.bound
  pending _ := .inl trivial
  waiting _ hw := by simp at hw

theorem Inv.sleep (hv : Inv capacity st) (hw : st.worker = .isEmpty) (hq : st.queue = []) :
    Inv capacity { st with worker := .next } where
  fifo := hv.fifo
  bound := hv.bound
  pending h := (hv.pending h).imp_left fun h => by simp [hw, Worker.clears] at h
  waiting h := absurd hq h

end Steps

theorem inv_init (capacity : Nat) : Inv capacity .init where
  fifo := rfl
  bound := Nat.zero_le _
  pending h := by cases h
  waiting h := absurd rfl h

variable {capacity : Nat} {st st' : State}

theorem inv_call (hv : Inv capacity st) {i : Nat} {c : Publish} (hi : st.calls[i]? = some c)
    (h : callNext capacity st i c = some st') : Inv capacity st' := by
  cases c with
  | push m =>
    simp only [callNext] at h
    split at h
    · rename_i hl
      cases h
      exact hv.push hi hl
    · cases h
      exact hv.drop_push hi
  | load =>
    cases h
    exact hv.load hi
  | swap =>
    cases h
    exact hv.swap hi
  | send =>
    cases h
    exact hv.send
  | done => cases h

theorem inv_work (hv : Inv capacity st) (h : workNext st = some st') : Inv capacity st' := by
  rw [workNext] at h
  split at h
  · rename_i hw
    split at h
    · cases h
      exact hv.wake
    · split at h
      · cases h
      · cases h
        exact hv.work (fun hc => by simp [hw, Worker.clears] at hc) (by simp)
  · split at h
    · cases h
      exact hv.work (fun _ => trivial) (by simp)
    · rename_i hq
      cases h
      exact hv.pop hq
  · cases h
    exact hv.work (fun _ => trivial) (by simp)
  · cases h
    exact hv.clear
  · rename_i hw
    cases h
    split
    · rename_i hq
      exact hv.sleep hw (List.isEmpty_iff.mp hq)
    · exact hv.work (fun hc => by simp [hw, Worker.clears] at hc) (by simp)
  · cases h
    exact hv.set
  · cases h

theorem inv_next (hv : Inv capacity st) {a : Action} (h : next capacity st a = some st') :
    Inv capacity st' := by
  cases a with
  | publish m =>
    simp only [next] at h
    split at h
    · cases h
      exact hv.publish m
    · cases h
  | call i =>
    obtain ⟨c, hi, h⟩ := Option.bind_eq_some_iff.mp h
    exact inv_call hv hi h
  | work => exact inv_work hv h
  | drop =>
    simp only [next] at h
    split at h
    · cases h
      exact ⟨hv.fifo, hv.bound, hv.pending, hv.waiting⟩
    · cases h

theorem Reachable.inv (h : (system capacity).Reachable st) : Inv capacity st := by
  refine h.invariant (inv_init capacity) ?_
  exact fun _ _ _ hv hn => inv_next hv hn

def WillSend (capacity : Nat) (st : State) (i : Nat) : Prop :=
  (∃ c, st.calls[i]? = some c ∧ ∀ m, c ≠ .push m) ∧
    ∃ n st', (system capacity).run st (List.replicate n (.call i)) = some st' ∧
      st'.tokens = st.tokens + 1

section WillSend

variable {i : Nat}

theorem WillSend.step {c : Publish} (hi : st.calls[i]? = some c) (hc : ∀ m, c ≠ .push m)
    {st₁ : State} (h : next capacity st (.call i) = some st₁) (ht : st₁.tokens = st.tokens)
    (hs : WillSend capacity st₁ i) : WillSend capacity st i := by
  obtain ⟨-, n, st', hr, ht'⟩ := hs
  refine ⟨⟨c, hi, hc⟩, n + 1, st', ?_, ht'.trans (by rw [ht])⟩
  rw [List.replicate_succ, Lib.System.run_cons]
  change (next capacity st (.call i)).bind _ = _
  rw [h]
  exact hr

theorem willSend_send (hi : st.calls[i]? = some .send) : WillSend capacity st i := by
  refine ⟨⟨_, hi, by simp⟩, 1, { st with tokens := st.tokens + 1, calls := st.calls.set i .done },
    ?_, rfl⟩
  rw [List.replicate_one, Lib.System.run_cons]
  simp only [system, next, hi, Option.bind_some, callNext]
  rfl

theorem getElem?_set_call {c : Publish} (hi : st.calls[i]? = some c) (c' : Publish) :
    (st.calls.set i c')[i]? = some c' :=
  List.getElem?_set_self (List.getElem?_eq_some_iff.mp hi).1

theorem willSend_swap (hi : st.calls[i]? = some .swap) (hp : st.wakePending = false) :
    WillSend capacity st i := by
  have h : next capacity st (.call i) =
      some { st with wakePending := true, calls := st.calls.set i .send } := by
    simp [next, hi, callNext, hp]
  exact .step hi (by simp) h rfl (willSend_send (getElem?_set_call hi _))

theorem willSend_load (hi : st.calls[i]? = some .load) (hp : st.wakePending = false) :
    WillSend capacity st i := by
  have h : next capacity st (.call i) = some { st with calls := st.calls.set i .swap } := by
    simp [next, hi, callNext, hp]
  exact .step hi (by simp) h rfl (willSend_swap (getElem?_set_call hi _) hp)

end WillSend


theorem Inv.awake (hv : Inv capacity st) (hq : st.queue ≠ []) (hw : st.worker = .next) :
    0 < st.tokens ∨ ∃ i, WillSend capacity st i := by
  rcases hv.waiting hq hw with (ht | hs) | ⟨hp, c, hc, h⟩
  · exact .inl ht
  · obtain ⟨i, hi⟩ := List.mem_iff_getElem?.mp hs
    exact .inr ⟨i, willSend_send hi⟩
  · obtain ⟨i, hi⟩ := List.mem_iff_getElem?.mp hc
    rcases h with rfl | rfl
    · exact .inr ⟨i, willSend_load hi hp⟩
    · exact .inr ⟨i, willSend_swap hi hp⟩

theorem queue_next_ne_nil {a : Action} (ha : a ≠ .work) (h : next capacity st a = some st')
    (hq : st.queue ≠ []) : st'.queue ≠ [] ∧ st'.worker = st.worker := by
  cases a with
  | publish m =>
    simp only [next] at h
    split at h
    · cases h
      exact ⟨hq, rfl⟩
    · cases h
  | call i =>
    obtain ⟨c, -, h⟩ := Option.bind_eq_some_iff.mp h
    cases c with
    | push m =>
      simp only [callNext] at h
      split at h
      · cases h
        exact ⟨by simp, rfl⟩
      · cases h
        exact ⟨hq, rfl⟩
    | load | swap | send =>
      cases h
      exact ⟨hq, rfl⟩
    | done => cases h
  | work => exact absurd rfl ha
  | drop =>
    simp only [next] at h
    split at h
    · cases h
      exact ⟨hq, rfl⟩
    · cases h

theorem queue_run_ne_nil {as : List Action} (ha : ∀ a ∈ as, a ≠ .work)
    (h : (system capacity).run st as = some st') (hq : st.queue ≠ []) :
    st'.queue ≠ [] ∧ st'.worker = st.worker := by
  induction as generalizing st with
  | nil =>
    cases h
    exact ⟨hq, rfl⟩
  | cons a as ih =>
    rw [Lib.System.run_cons] at h
    obtain ⟨st₁, h₁, h⟩ := Option.bind_eq_some_iff.mp h
    obtain ⟨hq₁, hw₁⟩ := queue_next_ne_nil (ha a (by simp)) h₁ hq
    obtain ⟨hq₂, hw₂⟩ := ih (fun b hb => ha b (by simp [hb])) h hq₁
    exact ⟨hq₂, hw₂.trans hw₁⟩

/-- The worker never sleeps on a message: a token is there or a call past its push is
about to send one, and whichever order the calls return in, a token is there in the end.
The messages are fanned out in the order of their pushes, and a message is dropped only
when the queue is full. -/
theorem worker_never_sleeps (h : (system capacity).Reachable st) :
    (st.queue ≠ [] → st.worker = .next →
      (0 < st.tokens ∨ ∃ i, WillSend capacity st i) ∧
      ∀ as st', (∀ a ∈ as, a ≠ .work) → (system capacity).run st as = some st' →
        (∀ c ∈ st'.calls, c = .done) → 0 < st'.tokens) ∧
    st.handed <+: st.pushed ∧
    ∀ i m st', st.calls[i]? = some (.push m) → next capacity st (.call i) = some st' →
      st.queue.length < capacity ∧ st'.pushed = st.pushed ++ [m] ∨
        st.queue.length = capacity ∧ st'.pushed = st.pushed := by
  have hv := Reachable.inv h
  refine ⟨fun hq hw => ⟨hv.awake hq hw, ?_⟩, ⟨st.queue, hv.fifo.symm⟩, ?_⟩
  · intro as st' ha hr hd
    obtain ⟨hq', hw'⟩ := queue_run_ne_nil ha hr hq
    obtain ⟨bs, hb⟩ := h
    have hv' : Inv capacity st' := by
      refine Reachable.inv ⟨bs ++ as, ?_⟩
      rw [Lib.System.run_append, hb]
      exact hr
    rcases hv'.waiting hq' (hw'.trans hw) with (ht | hs) | ⟨-, c, hc, h⟩
    · exact ht
    · cases hd _ hs
    · rw [hd c hc] at h
      simp at h
  · intro i m st' hi hn
    simp only [next, hi, Option.bind_some, callNext] at hn
    split at hn
    · rename_i hl
      cases hn
      exact .inl ⟨hl, rfl⟩
    · rename_i hl
      cases hn
      exact .inr ⟨Nat.le_antisymm hv.bound (Nat.not_lt.mp hl), rfl⟩

theorem worker_never_sleeps_pushed :
    ∃ st, (system 1).run .init [.publish ⟨[[7]]⟩, .call 0] = some st ∧ st.queue = [⟨[[7]]⟩] ∧
      st.worker = .next ∧ (0 < st.tokens ∨ ∃ i, WillSend 1 st i) := by
  have hst : (system 1).run .init [.publish ⟨[[7]]⟩, .call 0] = some _ := rfl
  refine ⟨_, hst, rfl, rfl, ?_⟩
  exact ((worker_never_sleeps ⟨_, hst⟩).1 (by decide) rfl).1

end ZmqRs.PubFanoutQueue
