import ZmqRs.Lib.Mpsc
import ZmqRs.Lib.Transition
import ZmqRs.PubBackend.Subscriptions

/-! Calls of `fanout_message` and the queues of the subscribers.  Peers come and go and
change their subscriptions, writers drain the queues at any rate or not at all, and any
number of calls may run at the same time. -/

namespace ZmqRs

open Codec (Message)
open Lib (Mpsc)

def pubSendQueueCapacity : Nat := 100000

theorem Subscribers.sendQueue_modify (subscribers : Subscribers) (p p' : PeerIdentity)
    (f : List Bytes → List Bytes) :
    ((subscribers.modify p f).lookup p').map Subscriber.sendQueue =
      (subscribers.lookup p').map Subscriber.sendQueue := by
  rw [modify]
  split
  · rfl
  · rename_i entry h
    by_cases hp : p' = p
    · subst hp
      simp [h]
    · rw [AList.lookup_insert_ne hp]

namespace Fanout

/-- Where a call is: between two entries, or in `send_to_subscriber` with the handle it
has cloned (a channel and the number of the handle), before or after `try_send`. -/
inductive Stage
  | iterating
  | cloned (channel handle : Nat)
  | tried (channel handle : Nat)
  deriving DecidableEq

structure Call where
  message : ZmqMessage
  firstFrame : Bytes
  stage : Stage

structure State where
  subscribers : Subscribers
  channels : List (Mpsc Message)
  calls : List Call

inductive Action
  | peerConnected (p : PeerIdentity)
  | peerDisconnected (p : PeerIdentity)
  | shutdown
  | messageReceived (p : PeerIdentity) (m : Message)
  | fanoutMessage (message : ZmqMessage)
  /-- The iterator of a call comes to the entry of `p`. -/
  | visit (call : Nat) (p : PeerIdentity)
  | trySend (call : Nat)
  /-- `send_to_subscriber` returns, and the handle it was given is dropped. -/
  | returned (call : Nat)
  | finish (call : Nat)
  /-- The writer takes a message, or ends and drops the receiver. -/
  | drain (channel : Nat)
  | close (channel : Nat)

namespace State

def init : State := ⟨∅, [], []⟩

def queueOf (st : State) (p : PeerIdentity) : Option Nat :=
  (st.subscribers.lookup p).map Subscriber.sendQueue

def release (st : State) (p : PeerIdentity) : List (Mpsc Message) :=
  match st.queueOf p with
  | none => st.channels
  | some q => st.channels.modify q (·.drop 0)

def peerConnected (st : State) (p : PeerIdentity) : State :=
  { st with
    subscribers := st.subscribers.insert p ⟨[], st.channels.length⟩
    channels := st.release p ++ [.channel pubSendQueueCapacity] }

def peerDisconnected (st : State) (p : PeerIdentity) : State :=
  { st with subscribers := st.subscribers.erase p, channels := st.release p }

def shutdown (st : State) : State :=
  { st with subscribers := ∅, channels := st.channels.map (·.drop 0) }

def fanoutMessage (st : State) (message : ZmqMessage) : State :=
  match message.get 0 with
  | none => st
  | some firstFrame => { st with calls := st.calls ++ [⟨message, firstFrame, .iterating⟩] }

def setStage (st : State) (i : Nat) (stage : Stage) : State :=
  { st with calls := st.calls.modify i ({ · with stage := stage }) }

def onChannel (st : State) (q : Nat) (c : Mpsc Message) : State :=
  { st with channels := st.channels.set q c }

def visit (st : State) (i : Nat) (call : Call) (subscriber : Subscriber) : Option State :=
  if PubSocketBackend.subscriptionMatches subscriber.subscriptions call.firstFrame then do
    let c ← st.channels[subscriber.sendQueue]?
    return (st.onChannel subscriber.sendQueue c.clone).setStage i
      (.cloned subscriber.sendQueue c.senders.length)
  else return st

end State

def next (st : State) : Action → Option State
  | .peerConnected p => some (st.peerConnected p)
  | .peerDisconnected p => some (st.peerDisconnected p)
  | .shutdown => some st.shutdown
  | .messageReceived p m =>
    some { st with subscribers := st.subscribers.messageReceived p m }
  | .fanoutMessage message => some (st.fanoutMessage message)
  | .visit i p =>
    match st.calls[i]?, st.subscribers.lookup p with
    | some call, some subscriber =>
      if call.stage = .iterating then st.visit i call subscriber else none
    | _, _ => none
  | .trySend i =>
    match st.calls[i]? with
    | some ⟨message, _, .cloned q handle⟩ => do
      let c ← st.channels[q]?
      -- Whatever the result, the message is not tried again.
      return (st.onChannel q (c.trySend handle (.message message)).2).setStage i (.tried q handle)
    | _ => none
  | .returned i =>
    match st.calls[i]? with
    | some ⟨_, _, .tried q handle⟩ => do
      let c ← st.channels[q]?
      return (st.onChannel q (c.drop handle)).setStage i .iterating
    | _ => none
  | .finish i =>
    match st.calls[i]? with
    | some ⟨_, _, .iterating⟩ => some { st with calls := st.calls.eraseIdx i }
    | _ => none
  | .drain q => do
    let c ← st.channels[q]?
    let (_, c) ← c.recv
    return st.onChannel q c
  | .close q => do
    let c ← st.channels[q]?
    return st.onChannel q c.close

def system : Lib.System State Action := ⟨.init, next⟩

/-- The queue of every subscriber holds at most the capacity and one message for each
handle that there is at the moment. -/
def Bounded (st : State) : Prop :=
  ∀ p q c, st.queueOf p = some q → st.channels[q]? = some c →
    c.queue.length ≤ pubSendQueueCapacity + c.alive

def offered (st : State) : Action → Option (Mpsc Message)
  | .trySend i =>
    match st.calls[i]? with
    | some ⟨_, _, .cloned q _⟩ => st.channels[q]?
    | _ => none
  | _ => none

/-- A message is offered to an open queue only while that holds at most its capacity. -/
def Meets (st : State) (a : Action) : Prop :=
  ∀ c ∈ offered st a, c.closed = false → c.queue.length ≤ pubSendQueueCapacity

instance (st : State) (a : Action) : Decidable (Meets st a) :=
  inferInstanceAs (Decidable (∀ c ∈ offered st a, _))

structure Inv (st : State) : Prop where
  length_le : ∀ c ∈ st.channels, c.queue.length ≤ pubSendQueueCapacity + 1
  live : ∀ p q, st.queueOf p = some q → ∃ c, st.channels[q]? = some c ∧ c.isLive 0
  own : ∀ p p' q, st.queueOf p = some q → st.queueOf p' = some q → p = p'
  handle : ∀ call ∈ st.calls, ∀ q i, call.stage = .tried q i ∨ call.stage = .cloned q i → i ≠ 0

theorem Inv.bounded {st : State} (hi : Inv st) : Bounded st := by
  intro p q c hq hc
  obtain ⟨c', hc', hl⟩ := hi.live p q hq
  obtain rfl : c = c' := Option.some.inj (hc.symm.trans hc')
  have hlen := hi.length_le c (List.mem_of_getElem? hc)
  have hpos := Mpsc.alive_pos hl
  omega

theorem inv_init : Inv .init where
  length_le := by simp [State.init]
  live := by simp [State.init, State.queueOf]
  own := by simp [State.init, State.queueOf]
  handle := by simp [State.init]

section

variable {st : State}

@[simp] theorem queueOf_onChannel (q : Nat) (c : Mpsc Message) (p : PeerIdentity) :
    (st.onChannel q c).queueOf p = st.queueOf p := rfl

@[simp] theorem queueOf_setStage (i : Nat) (stage : Stage) (p : PeerIdentity) :
    (st.setStage i stage).queueOf p = st.queueOf p := rfl

theorem Inv.onChannel (hi : Inv st) {q : Nat} {c c' : Mpsc Message} (hc : st.channels[q]? = some c)
    (hlen : c'.queue.length ≤ pubSendQueueCapacity + 1) (hl : c.isLive 0 → c'.isLive 0) :
    Inv (st.onChannel q c') where
  length_le := by
    intro d hd
    rcases List.mem_or_eq_of_mem_set hd with hd | rfl
    · exact hi.length_le d hd
    · exact hlen
  live := by
    intro p q' hq'
    obtain ⟨d, hd, hdl⟩ := hi.live p q' hq'
    by_cases hqq : q = q'
    · subst hqq
      obtain rfl : c = d := Option.some.inj (hc.symm.trans hd)
      refine ⟨c', ?_, hl hdl⟩
      exact List.getElem?_set_self (List.getElem?_eq_some_iff.mp hc).1
    · exact ⟨d, (List.getElem?_set_ne hqq).trans hd, hdl⟩
  own := hi.own
  handle := hi.handle

theorem Inv.setStage (hi : Inv st) (i : Nat) {stage : Stage}
    (hs : ∀ q k, stage = .tried q k ∨ stage = .cloned q k → k ≠ 0) : Inv (st.setStage i stage) where
  length_le := hi.length_le
  live := hi.live
  own := hi.own
  handle := by
    intro call hcall
    obtain ⟨j, hj⟩ := List.mem_iff_getElem?.mp hcall
    rw [State.setStage, List.getElem?_modify, Option.map_eq_map, Option.map_eq_some_iff] at hj
    obtain ⟨d, hd, rfl⟩ := hj
    split
    · exact hs
    · exact hi.handle d (List.mem_of_getElem? hd)

theorem Inv.visit (hi : Inv st) {i : Nat} {call : Call} {p : PeerIdentity} {s : Subscriber}
    {st' : State} (hp : st.subscribers.lookup p = some s) (h : st.visit i call s = some st') :
    Inv st' := by
  rw [State.visit] at h
  split at h
  · simp only [Option.bind_eq_bind, Option.bind_eq_some_iff] at h
    obtain ⟨c, hc, h⟩ := h
    cases h
    have hq : st.queueOf p = some s.sendQueue := by simp [State.queueOf, hp]
    obtain ⟨d, hd, hl⟩ := hi.live p s.sendQueue hq
    obtain rfl : c = d := Option.some.inj (hc.symm.trans hd)
    have hlen : c.clone.queue.length ≤ pubSendQueueCapacity + 1 :=
      hi.length_le c (List.mem_of_getElem? hc)
    refine (hi.onChannel hc hlen Mpsc.isLive_clone).setStage i ?_
    rintro q k (hk | hk)
    · cases hk
    · cases hk
      -- The first handle of the channel is there, so the new one has another number.
      rintro h0
      simp [Mpsc.isLive, List.eq_nil_of_length_eq_zero h0] at hl
  · cases h
    exact hi

theorem mem_release {c : Mpsc Message} {p : PeerIdentity} (h : c ∈ st.release p) :
    ∃ d ∈ st.channels, c.queue = d.queue := by
  rw [State.release] at h
  split at h
  · exact ⟨c, h, rfl⟩
  · obtain ⟨j, hj⟩ := List.mem_iff_getElem?.mp h
    rw [List.getElem?_modify, Option.map_eq_map, Option.map_eq_some_iff] at hj
    obtain ⟨d, hd, rfl⟩ := hj
    refine ⟨d, List.mem_of_getElem? hd, ?_⟩
    split <;> rfl

theorem Inv.release (hi : Inv st) {p p' : PeerIdentity} (hp : p' ≠ p) {q : Nat}
    (hq : st.queueOf p' = some q) : ∃ c, (st.release p)[q]? = some c ∧ c.isLive 0 := by
  obtain ⟨c, hc, hl⟩ := hi.live p' q hq
  refine ⟨c, ?_, hl⟩
  rw [State.release]
  split
  · exact hc
  · rename_i r hr
    have hne : r ≠ q := by
      rintro rfl
      exact hp (hi.own p' p r hq hr)
    simp [hne, hc]

theorem length_release (p : PeerIdentity) : (st.release p).length = st.channels.length := by
  rw [State.release]
  split <;> simp

theorem queueOf_lt (hi : Inv st) {p : PeerIdentity} {q : Nat} (hq : st.queueOf p = some q) :
    q < st.channels.length := by
  obtain ⟨c, hc, -⟩ := hi.live p q hq
  exact (List.getElem?_eq_some_iff.mp hc).1

theorem queueOf_peerConnected (p p' : PeerIdentity) :
    (st.peerConnected p).queueOf p' =
      if p' = p then some st.channels.length else st.queueOf p' := by
  simp only [State.queueOf, State.peerConnected]
  split
  · rename_i h
    subst h
    simp
  · rename_i h
    rw [AList.lookup_insert_ne h]

theorem queueOf_peerDisconnected (p p' : PeerIdentity) :
    (st.peerDisconnected p).queueOf p' = if p' = p then none else st.queueOf p' := by
  simp only [State.queueOf, State.peerDisconnected]
  split
  · rename_i h
    subst h
    simp
  · rename_i h
    rw [AList.lookup_erase_ne h]

theorem Inv.peerConnected (hi : Inv st) (p : PeerIdentity) : Inv (st.peerConnected p) where
  length_le := by
    intro c hc
    rcases List.mem_append.mp hc with hc | hc
    · obtain ⟨d, hd, hq⟩ := mem_release hc
      rw [hq]
      exact hi.length_le d hd
    · obtain rfl := List.mem_singleton.mp hc
      exact Nat.zero_le _
  live := by
    intro p' q hq
    rw [queueOf_peerConnected] at hq
    split at hq
    · cases hq
      refine ⟨.channel pubSendQueueCapacity, ?_, rfl⟩
      rw [State.peerConnected, ← length_release p, List.getElem?_concat_length]
    · rename_i hp
      obtain ⟨c, hc, hl⟩ := hi.release hp hq
      refine ⟨c, ?_, hl⟩
      rw [State.peerConnected, List.getElem?_append_left (List.getElem?_eq_some_iff.mp hc).1, hc]
  own := by
    intro p₁ p₂ q h₁ h₂
    rw [queueOf_peerConnected] at h₁ h₂
    -- The new channel has a number that no entry has yet.
    split at h₁ <;> split at h₂
    · simp [*]
    · cases h₁
      exact absurd (queueOf_lt hi h₂) (Nat.lt_irrefl _)
    · cases h₂
      exact absurd (queueOf_lt hi h₁) (Nat.lt_irrefl _)
    · exact hi.own p₁ p₂ q h₁ h₂
  handle := hi.handle

theorem Inv.peerDisconnected (hi : Inv st) (p : PeerIdentity) : Inv (st.peerDisconnected p) where
  length_le := by
    intro c hc
    obtain ⟨d, hd, hq⟩ := mem_release hc
    rw [hq]
    exact hi.length_le d hd
  live := by
    intro p' q hq
    rw [queueOf_peerDisconnected] at hq
    split at hq
    · cases hq
    · rename_i hp
      exact hi.release hp hq
  own := by
    intro p₁ p₂ q h₁ h₂
    rw [queueOf_peerDisconnected] at h₁ h₂
    split at h₁ <;> split at h₂
    · cases h₁
    · cases h₁
    · cases h₂
    · exact hi.own p₁ p₂ q h₁ h₂
  handle := hi.handle

theorem Inv.shutdown (hi : Inv st) : Inv st.shutdown where
  length_le := by
    intro c hc
    obtain ⟨d, hd, rfl⟩ := List.mem_map.mp hc
    exact hi.length_le d hd
  live := by simp [State.shutdown, State.queueOf]
  own := by simp [State.shutdown, State.queueOf]
  handle := hi.handle

theorem Inv.messageReceived (hi : Inv st) (p : PeerIdentity) (m : Message) :
    Inv { st with subscribers := st.subscribers.messageReceived p m } := by
  have hq : ∀ p', State.queueOf { st with subscribers := st.subscribers.messageReceived p m } p' =
      st.queueOf p' := by
    intro p'
    simp only [State.queueOf, Subscribers.messageReceived_eq]
    split
    · exact Subscribers.sendQueue_modify st.subscribers p p' _
    · rfl
  exact
    { length_le := hi.length_le
      live := fun p' q h => hi.live p' q (hq p' ▸ h)
      own := fun p₁ p₂ q h₁ h₂ => hi.own p₁ p₂ q (hq p₁ ▸ h₁) (hq p₂ ▸ h₂)
      handle := hi.handle }

theorem Inv.calls (hi : Inv st) {calls : List Call}
    (h : ∀ call ∈ calls, call ∈ st.calls ∨ call.stage = .iterating) :
    Inv { st with calls := calls } where
  length_le := hi.length_le
  live := hi.live
  own := hi.own
  handle := by
    intro call hcall q i hs
    rcases h call hcall with hmem | hit
    · exact hi.handle call hmem q i hs
    · simp [hit] at hs

theorem Inv.trySend (hi : Inv st) {i q k : Nat} {message : ZmqMessage} {firstFrame : Bytes}
    {c : Mpsc Message} (hcall : st.calls[i]? = some ⟨message, firstFrame, .cloned q k⟩)
    (hc : st.channels[q]? = some c)
    (hm : c.closed = false → c.queue.length ≤ pubSendQueueCapacity) :
    Inv ((st.onChannel q (c.trySend k (.message message)).2).setStage i (.tried q k)) := by
  have hk : k ≠ 0 := hi.handle _ (List.mem_of_getElem? hcall) q k (.inr rfl)
  have hlen : (c.trySend k (.message message)).2.queue.length ≤ pubSendQueueCapacity + 1 := by
    cases hcl : c.closed with
    | true =>
      rw [Mpsc.length_trySend_closed hcl]
      exact hi.length_le c (List.mem_of_getElem? hc)
    | false =>
      calc (c.trySend k (.message message)).2.queue.length
          ≤ c.queue.length + 1 := Mpsc.length_trySend_le c k _
        _ ≤ pubSendQueueCapacity + 1 := Nat.add_le_add_right (hm hcl) 1
  have hl : c.isLive 0 → (c.trySend k (.message message)).2.isLive 0 :=
    fun h => (Mpsc.isLive_trySend 0 k _).trans h
  refine (hi.onChannel hc hlen hl).setStage i ?_
  rintro q' k' (h | h)
  · cases h
    exact hk
  · cases h

theorem Inv.returned (hi : Inv st) {i q k : Nat} {message : ZmqMessage} {firstFrame : Bytes}
    {c : Mpsc Message} (hcall : st.calls[i]? = some ⟨message, firstFrame, .tried q k⟩)
    (hc : st.channels[q]? = some c) :
    Inv ((st.onChannel q (c.drop k)).setStage i .iterating) := by
  have hk : k ≠ 0 := hi.handle _ (List.mem_of_getElem? hcall) q k (.inl rfl)
  have hlen : (c.drop k).queue.length ≤ pubSendQueueCapacity + 1 :=
    hi.length_le c (List.mem_of_getElem? hc)
  refine (hi.onChannel hc hlen (Mpsc.isLive_drop hk)).setStage i ?_
  rintro q' k' (h | h)
  · cases h
  · cases h

end

theorem inv_next {st st' : State} {a : Action} (hm : Meets st a) (hi : Inv st)
    (h : next st a = some st') : Inv st' := by
  cases a with
  | peerConnected p =>
    cases h
    exact hi.peerConnected p
  | peerDisconnected p =>
    cases h
    exact hi.peerDisconnected p
  | shutdown =>
    cases h
    exact hi.shutdown
  | messageReceived p m =>
    cases h
    exact hi.messageReceived p m
  | fanoutMessage message =>
    cases h
    rw [State.fanoutMessage]
    split
    · exact hi
    · refine hi.calls fun call hcall => ?_
      rcases List.mem_append.mp hcall with hcall | hcall
      · exact .inl hcall
      · exact .inr (by rw [List.mem_singleton.mp hcall])
  | visit i p =>
    rw [next] at h
    split at h
    · rename_i call s _ hp
      split at h
      · exact hi.visit hp h
      · cases h
    · cases h
  | trySend i =>
    rw [next] at h
    split at h
    · rename_i message firstFrame q k hcall
      simp only [Option.bind_eq_bind, Option.bind_eq_some_iff] at h
      obtain ⟨c, hc, h⟩ := h
      cases h
      exact hi.trySend hcall hc (hm c (by simp [offered, hcall, hc]))
    · cases h
  | returned i =>
    rw [next] at h
    split at h
    · rename_i message firstFrame q k hcall
      simp only [Option.bind_eq_bind, Option.bind_eq_some_iff] at h
      obtain ⟨c, hc, h⟩ := h
      cases h
      exact hi.returned hcall hc
    · cases h
  | finish i =>
    rw [next] at h
    split at h
    · cases h
      exact hi.calls fun call hcall => .inl (List.mem_of_mem_eraseIdx hcall)
    · cases h
  | drain q =>
    simp only [next, Option.bind_eq_bind, Option.bind_eq_some_iff] at h
    obtain ⟨c, hc, ⟨_, c'⟩, hrecv, h⟩ := h
    cases h
    have hlen := (Mpsc.length_recv hrecv).trans (hi.length_le c (List.mem_of_getElem? hc))
    exact hi.onChannel hc hlen fun hl => (Mpsc.isLive_recv hrecv 0).trans hl
  | close q =>
    simp only [next, Option.bind_eq_bind, Option.bind_eq_some_iff] at h
    obtain ⟨c, hc, h⟩ := h
    cases h
    exact hi.onChannel hc (Nat.zero_le _) fun hl => (Mpsc.isLive_close c 0).trans hl

/-- Slow subscribers cost at most their capacity and the handles in use, as long as
nothing is offered to a queue that is over its capacity. -/
theorem queue_bounded {st : State} (h : (system.guarded Meets).Reachable st) : Bounded st :=
  (h.invariant_guarded inv_init fun _ _ _ hm hi hn => inv_next hm hi hn).bounded

def publish (p : PeerIdentity) (message : ZmqMessage) : List Action :=
  [.fanoutMessage message, .visit 0 p, .trySend 0, .returned 0, .finish 0]

def subscribed (p : PeerIdentity) : List Action :=
  [.peerConnected p, .messageReceived p (.message ⟨[[1]]⟩)]

theorem queue_bounded_drained :
    let p : PeerIdentity := .ofByte 1
    ∃ st, (system.guarded Meets).run .init
        (subscribed p ++ publish p ⟨[[7]]⟩ ++ [.drain 0] ++ publish p ⟨[[8]]⟩) = some st ∧
      (st.channels.map fun c => c.queue.length) = [1] ∧ Bounded st := by
  intro p
  have h : ((system.guarded Meets).run .init
      (subscribed p ++ publish p ⟨[[7]]⟩ ++ [.drain 0] ++ publish p ⟨[[8]]⟩)).any
        (fun st => (st.channels.map fun c => c.queue.length) = [1]) := by
    decide +kernel
  obtain ⟨st, hst, hq⟩ := (Option.any_eq_true _ _).mp h
  exact ⟨st, hst, of_decide_eq_true hq, queue_bounded ⟨_, hst⟩⟩

structure Stalled (p : PeerIdentity) (n : Nat) (st : State) : Prop where
  subscribers : st.subscribers.lookup p = some ⟨[[]], 0⟩
  calls : st.calls = []
  channel : ∃ c, st.channels = [c] ∧ c.closed = false ∧ c.alive = 1 ∧ c.queue.length = n

theorem Stalled.publish {p : PeerIdentity} {n : Nat} {st : State} (h : Stalled p n st) :
    ∃ st', system.run st (publish p ⟨[[7]]⟩) = some st' ∧ Stalled p (n + 1) st' := by
  obtain ⟨c, hc, hopen, halive, hlen⟩ := h.channel
  obtain ⟨-, hopen', hqueue', halive'⟩ := Mpsc.trySend_clone hopen (Message.message ⟨[[7]]⟩)
  refine ⟨⟨st.subscribers, [(c.clone.trySend c.senders.length _).2.drop c.senders.length], []⟩,
    ?_, h.subscribers, rfl, _, rfl, hopen', halive'.trans halive, ?_⟩
  · have hm : PubSocketBackend.subscriptionMatches [[]] [7] = true := by decide
    simp [system, Lib.System.run, Fanout.publish, next, State.fanoutMessage, ZmqMessage.get,
      h.calls, h.subscribers, State.visit, hm, hc, State.onChannel, State.setStage]
  · change (c.clone.trySend c.senders.length _).2.queue.length = n + 1
    rw [hqueue', List.length_append, hlen]
    rfl

theorem stalled_run {p : PeerIdentity} {st : State} {m : Nat} (h : Stalled p m st) (n : Nat) :
    ∃ st', system.run st (List.replicate n (publish p ⟨[[7]]⟩)).flatten = some st' ∧
      Stalled p (m + n) st' := by
  induction n with
  | zero => exact ⟨st, rfl, h⟩
  | succ n ih =>
    obtain ⟨st₁, hrun, h₁⟩ := ih
    obtain ⟨st₂, hpub, h₂⟩ := h₁.publish
    refine ⟨st₂, ?_, h₂⟩
    rw [List.replicate_succ', List.flatten_append, List.flatten_singleton,
      Lib.System.run_append, hrun]
    exact hpub

theorem overfull_of_stalled (p : PeerIdentity) {n : Nat} (hn : pubSendQueueCapacity + 1 < n) :
    ∃ st, system.run .init
        (subscribed p ++ (List.replicate n (publish p ⟨[[7]]⟩)).flatten) = some st ∧
      ¬ Bounded st := by
  have hs : ∃ st, system.run .init (subscribed p) = some st ∧ Stalled p 0 st := by
    refine ⟨_, rfl, ?_, rfl, _, rfl, rfl, rfl, rfl⟩
    change ((State.init.peerConnected p).subscribers.modify p (· ++ [[]])).lookup p = _
    rw [Subscribers.modify, State.peerConnected, AList.lookup_insert]
    exact AList.lookup_insert _
  obtain ⟨st₀, h₀, hs⟩ := hs
  obtain ⟨st, hrun, hst⟩ := stalled_run hs n
  refine ⟨st, ?_, fun hb => ?_⟩
  · rw [Lib.System.run_append, h₀]
    exact hrun
  · obtain ⟨c, hc, -, halive, hlen⟩ := hst.channel
    have hq : st.queueOf p = some 0 := by simp [State.queueOf, hst.subscribers]
    have hle := hb p 0 c hq (by simp [hc])
    omega

/-- With a reader that has stalled, 100002 messages wait in a queue with room for 100000
and one handle: each was sent through a handle of its own. -/
theorem stalled_unbounded :
    let p : PeerIdentity := .ofByte 1
    ∃ st, system.run .init
        (subscribed p ++ (List.replicate 100002 (publish p ⟨[[7]]⟩)).flatten) = some st ∧
      ¬ Bounded st :=
  overfull_of_stalled _ (by decide)

end Fanout

end ZmqRs
