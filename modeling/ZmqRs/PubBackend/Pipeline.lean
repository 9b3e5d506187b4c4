import ZmqRs.Lib.Fifo
import ZmqRs.PubBackend.Fanout
import ZmqRs.PubBackend.FanoutQueue

/-! From `send` on a PUB socket to the writers of its subscribers: the fan-out queue, whose task
is the only caller of `fanout_message`, and the queues of the subscribers. -/

namespace ZmqRs

open Codec (Message)
open Lib (Fifo Mpsc only)
open Lib.Fifo (Line only_some)

def PubSocket.published (subscriberCount : Nat) (message : ZmqMessage) : Option ZmqMessage :=
  if (message.get 0).isNone then none
  else if subscriberCount = 0 then none
  else some message

namespace PubPipeline

/-- `visited` are the channels that the call in progress came to.  For each channel, `asked` are
the subscriptions that `message_received` pushed to the entry that holds it: after a reconnect the
reader of the old connection may still bring one.  `entered` are the messages that were put into
the channel, and `taken` those that its writer has taken. -/
structure State where
  queue : PubFanoutQueue.State
  fanout : Fanout.State
  visited : List Nat
  asked : Nat → List Bytes
  entered : Nat → List Message
  taken : Nat → List Message

inductive Action
  | send (subscriberCount : Nat) (message : ZmqMessage)
  | queue (a : PubFanoutQueue.Action)
  | fanout (a : Fanout.Action)

def visitedBy (st : Fanout.State) : Fanout.Action → Option Nat
  | .visit _ p => st.queueOf p
  | _ => none

def askedBy (st : Fanout.State) : Fanout.Action → Option (Nat × Bytes)
  | .messageReceived p m =>
    match subscriptionChange m with
    | some (t, true) => (st.queueOf p).map (·, t)
    | _ => none
  | _ => none

def enteredBy (st : Fanout.State) : Fanout.Action → Option (Nat × Message)
  | .trySend i =>
    match st.calls[i]? with
    | some ⟨m, _, .cloned q handle⟩ =>
      st.channels[q]?.bind fun c =>
        if (c.trySend handle (.message m)).1 = .sent then some (q, .message m) else none
    | _ => none
  | _ => none

def takenBy (st : Fanout.State) : Fanout.Action → Option (Nat × Message)
  | .drain q => (st.channels[q]?.bind Mpsc.recv).map fun r => (q, r.1)
  | _ => none

namespace State

def init : State := ⟨.init, .init, [], fun _ => [], fun _ => [], fun _ => []⟩

def record (st : State) (a : Fanout.Action) (fanout : Fanout.State) : State :=
  { st with
    fanout := fanout
    visited := st.visited ++ (visitedBy st.fanout a).toList
    asked := fun q => st.asked q ++ only q (askedBy st.fanout a)
    entered := fun q => st.entered q ++ only q (enteredBy st.fanout a)
    taken := fun q => st.taken q ++ only q (takenBy st.fanout a) }

def handOver (st : State) (queue : PubFanoutQueue.State) : State :=
  match queue.worker with
  | .fanout m => { st with queue := queue, fanout := st.fanout.fanoutMessage m, visited := [] }
  | _ => { st with queue := queue }

end State

section Defs

variable (visits capacity : Nat)

/-- `visits` is how often the iterator of a call may come to one entry, which is more than once
where the map grows meanwhile. -/
def next (st : State) : Action → Option State
  | .send subscriberCount message =>
    match PubSocket.published subscriberCount message with
    | none => some st
    | some m =>
      (PubFanoutQueue.next capacity st.queue (.publish m)).map ({ st with queue := · })
  | .queue (.publish _) => none
  | .queue .work =>
    match st.queue.worker with
    | .pop => (PubFanoutQueue.workNext st.queue).map st.handOver
    | .fanout _ =>
      if st.fanout.calls.isEmpty then
        (PubFanoutQueue.workNext st.queue).map ({ st with queue := · })
      else none
    | _ => (PubFanoutQueue.workNext st.queue).map ({ st with queue := · })
  | .queue a => (PubFanoutQueue.next capacity st.queue a).map ({ st with queue := · })
  | .fanout (.fanoutMessage _) => none
  | .fanout a =>
    if ∃ q ∈ visitedBy st.fanout a, visits ≤ st.visited.count q then none
    else (Fanout.next st.fanout a).map (st.record a)

def system : Lib.System State Action := ⟨.init, next visits capacity⟩

end Defs

/-! ### What a step of the fan-out can do -/

section Steps

variable {st st' : Fanout.State} {i q : Nat}

theorem next_visit {p : PeerIdentity} (h : Fanout.next st (.visit i p) = some st') :
    ∃ call s, st.calls[i]? = some call ∧ st.subscribers.lookup p = some s ∧
      (st' = st ∨
        PubSocketBackend.subscriptionMatches s.subscriptions call.firstFrame ∧
        ∃ c, st.channels[s.sendQueue]? = some c ∧
          st' = (st.onChannel s.sendQueue c.clone).setStage i
            (.cloned s.sendQueue c.senders.length)) := by
  rw [Fanout.next] at h
  split at h
  · rename_i call s hi hp
    refine ⟨call, s, hi, hp, ?_⟩
    split at h
    · rw [Fanout.State.visit] at h
      split at h
      · rename_i hm
        simp only [Option.bind_eq_bind, Option.bind_eq_some_iff] at h
        obtain ⟨c, hc, h⟩ := h
        cases h
        exact .inr ⟨hm, c, hc, rfl⟩
      · cases h
        exact .inl rfl
    · cases h
  · cases h

theorem next_trySend (h : Fanout.next st (.trySend i) = some st') :
    ∃ m f q k c, st.calls[i]? = some ⟨m, f, .cloned q k⟩ ∧ st.channels[q]? = some c ∧
      st' = (st.onChannel q (c.trySend k (.message m)).2).setStage i (.tried q k) := by
  rw [Fanout.next] at h
  split at h
  · rename_i m f q k hi
    simp only [Option.bind_eq_bind, Option.bind_eq_some_iff] at h
    obtain ⟨c, hc, h⟩ := h
    cases h
    exact ⟨m, f, q, k, c, hi, hc, rfl⟩
  · cases h

theorem next_returned (h : Fanout.next st (.returned i) = some st') :
    ∃ m f q k c, st.calls[i]? = some ⟨m, f, .tried q k⟩ ∧ st.channels[q]? = some c ∧
      st' = (st.onChannel q (c.drop k)).setStage i .iterating := by
  rw [Fanout.next] at h
  split at h
  · rename_i m f q k hi
    simp only [Option.bind_eq_bind, Option.bind_eq_some_iff] at h
    obtain ⟨c, hc, h⟩ := h
    cases h
    exact ⟨m, f, q, k, c, hi, hc, rfl⟩
  · cases h

theorem next_finish (h : Fanout.next st (.finish i) = some st') :
    (∃ call, st.calls[i]? = some call) ∧ st' = { st with calls := st.calls.eraseIdx i } := by
  rw [Fanout.next] at h
  split at h
  · rename_i hi
    cases h
    exact ⟨⟨_, hi⟩, rfl⟩
  · cases h

theorem next_drain (h : Fanout.next st (.drain q) = some st') :
    ∃ c m c', st.channels[q]? = some c ∧ c.recv = some (m, c') ∧ st' = st.onChannel q c' := by
  simp only [Fanout.next, Option.bind_eq_bind, Option.bind_eq_some_iff] at h
  obtain ⟨c, hc, ⟨m, c'⟩, hr, h⟩ := h
  cases h
  exact ⟨c, m, c', hc, hr, rfl⟩

theorem next_close (h : Fanout.next st (.close q) = some st') :
    ∃ c, st.channels[q]? = some c ∧ st' = st.onChannel q c.close := by
  simp only [Fanout.next, Option.bind_eq_bind, Option.bind_eq_some_iff] at h
  obtain ⟨c, hc, h⟩ := h
  cases h
  exact ⟨c, hc, rfl⟩

end Steps

/-! ### The channels -/

section Channels

variable {st st' : Fanout.State} {q₀ : Nat} {c c' : Mpsc Message}

def lane (st : Fanout.State) (q : Nat) : Option (Fifo Message) := st.channels[q]?.map Mpsc.fifo

theorem lane_onChannel (c' : Mpsc Message) {x y : Option (Nat × Message)}
    (hc : st.channels[q₀]? = some c)
    (hx : ∀ r ∈ x, r.1 = q₀) (hy : ∀ r ∈ y, r.1 = q₀)
    (h : Fifo.Step (some c.fifo) (only q₀ x) (only q₀ y) (some c'.fifo)) (q : Nat) :
    Fifo.Step (lane st q) (only q x) (only q y) (lane (st.onChannel q₀ c') q) := by
  by_cases hq : q₀ = q
  · subst hq
    rw [lane, lane, Fanout.State.onChannel,
      List.getElem?_set_self (List.getElem?_eq_some_iff.mp hc).1, hc]
    exact h
  · rw [lane, lane, Fanout.State.onChannel, List.getElem?_set_ne hq, Fifo.only_of_ne hx hq,
      Fifo.only_of_ne hy hq]
    exact .same _

theorem lane_kept (c' : Mpsc Message) (hc : st.channels[q₀]? = some c) (h : c'.fifo = c.fifo)
    (q : Nat) :
    Fifo.Step (lane st q) [] [] (lane (st.onChannel q₀ c') q) :=
  lane_onChannel c' (x := none) (y := none) hc (by simp) (by simp) (h ▸ .kept c.fifo) q

theorem lane_release (p : PeerIdentity) (q : Nat) :
    (st.release p)[q]?.map Mpsc.fifo = lane st q := by
  rw [Fanout.State.release, lane]
  split
  · rfl
  · rw [List.getElem?_modify, Option.map_eq_map, Option.map_map]
    congr 1
    funext c
    simp only [Function.comp_apply]
    split <;> rfl

theorem lane_peerConnected (p : PeerIdentity) (q : Nat) :
    Fifo.Step (lane st q) [] [] (lane (st.peerConnected p) q) := by
  have hlen : (st.release p).length = st.channels.length := Fanout.length_release p
  change Fifo.Step _ _ _ ((st.release p ++ [Mpsc.channel pubSendQueueCapacity])[q]?.map Mpsc.fifo)
  by_cases hq : q < st.channels.length
  · rw [List.getElem?_append_left (hlen ▸ hq), lane_release]
    exact .same _
  · rw [lane, List.getElem?_eq_none (Nat.le_of_not_lt hq), List.getElem?_append_right (by omega)]
    cases hc : [Mpsc.channel pubSendQueueCapacity][q - (st.release p).length]? with
    | none => exact .absent
    | some c =>
      obtain rfl := List.mem_singleton.mp (List.mem_of_getElem? hc)
      exact .opened false

theorem lane_trySend {i handle : Nat} {m : ZmqMessage} {f : Bytes}
    (hi : st.calls[i]? = some ⟨m, f, .cloned q₀ handle⟩) (hc : st.channels[q₀]? = some c)
    (q : Nat) :
    Fifo.Step (lane st q) (only q (enteredBy st (.trySend i))) []
      (lane (st.onChannel q₀ (c.trySend handle (.message m)).2) q) := by
  have hby : enteredBy st (.trySend i) =
      if (c.trySend handle (.message m)).1 = .sent then some (q₀, .message m) else none := by
    simp [enteredBy, hi, hc]
  obtain ⟨r, c', ht⟩ : ∃ r c', c.trySend handle (.message m) = (r, c') := ⟨_, _, rfl⟩
  rw [hby, ht]
  refine lane_onChannel _ (y := none) hc (fun r hr => ?_) (by simp) ?_ q
  · split at hr
    · cases hr
      rfl
    · cases hr
  · split
    · rename_i hr
      subst hr
      obtain ⟨hopen, -, hq⟩ := Mpsc.trySend_of_sent ht
      rw [only_some, if_pos rfl, Mpsc.fifo, Mpsc.fifo, hopen, hq]
      exact .put _ _ _
    · rename_i hr
      rw [Mpsc.trySend_of_ne_sent ht hr]
      exact .kept _

theorem lane_next {a : Fanout.Action} (h : Fanout.next st a = some st') (q : Nat) :
    Fifo.Step (lane st q) (only q (enteredBy st a)) (only q (takenBy st a)) (lane st' q) := by
  cases a with
  | peerConnected p =>
    cases h
    exact lane_peerConnected p q
  | peerDisconnected p =>
    cases h
    have heq : lane (st.peerDisconnected p) q = lane st q := lane_release p q
    rw [heq]
    exact .same _
  | shutdown =>
    cases h
    have heq : lane st.shutdown q = lane st q := by
      rw [lane, Fanout.State.shutdown, List.getElem?_map, Option.map_map]
      rfl
    rw [heq]
    exact .same _
  | messageReceived p m =>
    cases h
    exact .same _
  | fanoutMessage message =>
    cases h
    rw [Fanout.State.fanoutMessage]
    split <;> exact .same _
  | visit i p =>
    obtain ⟨call, s, -, -, rfl | ⟨-, c, hc, rfl⟩⟩ := next_visit h
    · exact .same _
    · exact lane_kept c.clone hc rfl q
  | trySend i =>
    obtain ⟨message, firstFrame, q₀, handle, c, hi, hc, rfl⟩ := next_trySend h
    exact lane_trySend hi hc q
  | returned i =>
    obtain ⟨_, _, _, handle, c, -, hc, rfl⟩ := next_returned h
    exact lane_kept (c.drop handle) hc rfl q
  | finish i =>
    obtain ⟨-, rfl⟩ := next_finish h
    exact .same _
  | drain q₀ =>
    obtain ⟨c, m, c', hc, hrecv, rfl⟩ := next_drain h
    have hby : takenBy st (.drain q₀) = some (q₀, m) := by simp [takenBy, hc, hrecv]
    rw [hby]
    refine lane_onChannel _ (x := none) hc (by simp) (fun r hr => ?_) ?_ q
    · cases hr
      rfl
    · obtain ⟨hq, hcl⟩ := Mpsc.recv_eq_some hrecv
      rw [only_some, if_pos rfl, Mpsc.fifo, Mpsc.fifo, hq, hcl]
      exact .took _ _ _
  | close q₀ =>
    obtain ⟨c, hc, rfl⟩ := next_close h
    exact lane_onChannel c.close (x := none) (y := none) hc (by simp) (by simp)
      (.closed c.fifo) q

end Channels

/-! ### The call in progress -/

def owed (q : Nat) (call : Fanout.Call) : List Message :=
  match call.stage with
  | .cloned q' _ => if q' = q then [.message call.message] else []
  | _ => []

def Wanted (asked : List Bytes) (message : Message) : Prop :=
  ∃ m firstFrame, message = .message m ∧ m.get 0 = some firstFrame ∧
    ∃ t ∈ asked, t <+: firstFrame

section Call

variable {st st' : Fanout.State} {call : Fanout.Call}

inductive CallStep (st : Fanout.State) (call : Fanout.Call) (a : Fanout.Action) :
    List Fanout.Call → Prop
  | other (calls : List Fanout.Call) : enteredBy st a = none →
      (∀ call' ∈ calls, call' = call ∨ call' = { call with stage := .iterating }) →
      calls.length ≤ 1 → CallStep st call a calls
  | cloned (q handle : Nat) (s : Subscriber) (p : PeerIdentity) : visitedBy st a = some q →
      enteredBy st a = none → st.subscribers.lookup p = some s → s.sendQueue = q →
      PubSocketBackend.subscriptionMatches s.subscriptions call.firstFrame →
      CallStep st call a [{ call with stage := .cloned q handle }]
  | tried (q handle : Nat) : call.stage = .cloned q handle →
      (∀ x ∈ enteredBy st a, x = (q, .message call.message)) →
      CallStep st call a [{ call with stage := .tried q handle }]

theorem getElem?_singleton_eq {x y : Fanout.Call} {i : Nat} (h : [x][i]? = some y) :
    i = 0 ∧ x = y := by
  cases i with
  | zero => exact ⟨rfl, Option.some.inj h⟩
  | succ i => cases h

theorem calls_onChannel_setStage (hc : st.calls = [call]) (q : Nat) (c : Mpsc Message)
    (stage : Fanout.Stage) :
    ((st.onChannel q c).setStage 0 stage).calls = [{ call with stage := stage }] := by
  simp [Fanout.State.setStage, Fanout.State.onChannel, hc]

theorem call_next (hc : st.calls = [call]) {a : Fanout.Action} (ha : ∀ m, a ≠ .fanoutMessage m)
    (h : Fanout.next st a = some st') : CallStep st call a st'.calls := by
  have hsame : st'.calls = st.calls → enteredBy st a = none → CallStep st call a st'.calls := by
    intro hcalls hby
    rw [hcalls, hc]
    exact .other _ hby (fun call' h => .inl (List.mem_singleton.mp h)) (Nat.le_refl 1)
  cases a with
  | peerConnected p | peerDisconnected p | shutdown | messageReceived p m =>
    cases h
    exact hsame rfl rfl
  | fanoutMessage message => exact absurd rfl (ha message)
  | visit i p =>
    obtain ⟨call', s, hi, hp, rfl | ⟨hm, c, -, rfl⟩⟩ := next_visit h
    · exact hsame rfl rfl
    · obtain ⟨rfl, rfl⟩ := getElem?_singleton_eq (hc ▸ hi)
      rw [calls_onChannel_setStage hc]
      have hv : visitedBy st (.visit 0 p) = some s.sendQueue := by
        simp [visitedBy, Fanout.State.queueOf, hp]
      exact .cloned _ _ s p hv rfl hp rfl hm
  | trySend i =>
    obtain ⟨message, firstFrame, q, handle, c, hi, hq, rfl⟩ := next_trySend h
    rw [hc] at hi
    obtain ⟨rfl, rfl⟩ := getElem?_singleton_eq hi
    rw [calls_onChannel_setStage hc]
    refine .tried q handle rfl fun x hx => ?_
    simp only [enteredBy, hc, hi, hq, Option.bind_some] at hx
    split at hx
    · exact (Option.some.inj hx).symm
    · cases hx
  | returned i =>
    obtain ⟨_, _, q, handle, c, hi, -, rfl⟩ := next_returned h
    obtain ⟨rfl, rfl⟩ := getElem?_singleton_eq (hc ▸ hi)
    rw [calls_onChannel_setStage hc]
    exact .other _ rfl (fun call' h => .inr (List.mem_singleton.mp h)) (Nat.le_refl 1)
  | finish i =>
    obtain ⟨⟨_, hi⟩, rfl⟩ := next_finish h
    obtain ⟨rfl, -⟩ := getElem?_singleton_eq (hc ▸ hi)
    exact .other _ rfl (by simp [hc]) (by simp [hc])
  | drain q =>
    obtain ⟨c, m, c', -, -, rfl⟩ := next_drain h
    exact hsame rfl rfl
  | close q =>
    obtain ⟨c, -, rfl⟩ := next_close h
    exact hsame rfl rfl

theorem call_next_nil (hc : st.calls = []) {a : Fanout.Action} (ha : ∀ m, a ≠ .fanoutMessage m)
    (h : Fanout.next st a = some st') :
    st'.calls = [] ∧ enteredBy st a = none ∧ ∀ q ∈ visitedBy st a, False := by
  cases a with
  | peerConnected p | peerDisconnected p | shutdown | messageReceived p m =>
    cases h
    exact ⟨hc, rfl, by simp [visitedBy]⟩
  | fanoutMessage message => exact absurd rfl (ha message)
  | visit i p => simp [Fanout.next, hc] at h
  | trySend i => simp [Fanout.next, hc] at h
  | returned i => simp [Fanout.next, hc] at h
  | finish i => simp [Fanout.next, hc] at h
  | drain q =>
    obtain ⟨c, m, c', -, -, rfl⟩ := next_drain h
    exact ⟨hc, rfl, by simp [visitedBy]⟩
  | close q =>
    obtain ⟨c, -, rfl⟩ := next_close h
    exact ⟨hc, rfl, by simp [visitedBy]⟩

theorem CallStep.owed {a : Fanout.Action} {calls : List Fanout.Call} (h : CallStep st call a calls)
    (q : Nat) :
    (only q (enteredBy st a) ++ calls.flatMap (owed q)).Sublist (PubPipeline.owed q call) ∨
      only q (enteredBy st a) ++ calls.flatMap (PubPipeline.owed q) = [.message call.message] ∧
        visitedBy st a = some q ∧ ∃ p s, st.subscribers.lookup p = some s ∧ s.sendQueue = q ∧
          PubSocketBackend.subscriptionMatches s.subscriptions call.firstFrame := by
  cases h with
  | other calls hby hmem hlen =>
    rw [hby]
    match calls, hlen with
    | [], _ => exact .inl (List.nil_sublist _)
    | [call'], _ =>
      rcases hmem call' (List.mem_singleton_self _) with rfl | rfl
      · simp [only]
      · simp [only, PubPipeline.owed]
  | cloned q' handle s p hv hby hp hq hm =>
    rw [hby]
    by_cases h : q' = q
    · subst h
      exact .inr ⟨by simp [only, PubPipeline.owed], hv, p, s, hp, hq, hm⟩
    · simp [only, PubPipeline.owed, h]
  | tried q' handle hs hby =>
    refine .inl ?_
    cases hx : enteredBy st a with
    | none => simp [only, PubPipeline.owed]
    | some x =>
      obtain rfl := hby x hx
      simp [only_some, PubPipeline.owed, hs]

end Call

/-! ### The subscriptions -/

theorem lookup_modify (subscribers : Subscribers) (p p' : PeerIdentity)
    (f : List Bytes → List Bytes) :
    (subscribers.modify p f).lookup p' =
      if p' = p then
        (subscribers.lookup p).map fun s => { s with subscriptions := f s.subscriptions }
      else subscribers.lookup p' := by
  rw [Subscribers.modify]
  split
  · rename_i hp
    split
    · rename_i h
      rw [h, hp, Option.map_none]
    · rfl
  · rename_i s hp
    by_cases h : p' = p
    · subst h
      rw [if_pos rfl, AList.lookup_insert, hp, Option.map_some]
    · rw [if_neg h, AList.lookup_insert_ne h]

theorem mem_applyToList {subscriptions : List Bytes} {change : Bytes × Bool} {t : Bytes}
    (h : t ∈ applyToList subscriptions change) : t ∈ subscriptions ∨ change = (t, true) := by
  obtain ⟨t', up⟩ := change
  cases up with
  | true =>
    rcases List.mem_append.mp h with h | h
    · exact .inl h
    · exact .inr (by rw [List.mem_singleton.mp h])
  | false => exact .inl (List.mem_of_mem_erase h)

theorem subscribers_next {st st' : Fanout.State} {a : Fanout.Action}
    (h : Fanout.next st a = some st') {p : PeerIdentity} {s : Subscriber}
    (hs : st'.subscribers.lookup p = some s) {t : Bytes} (ht : t ∈ s.subscriptions) :
    (∃ s₀, st.subscribers.lookup p = some s₀ ∧ s₀.sendQueue = s.sendQueue ∧
      t ∈ s₀.subscriptions) ∨ t ∈ only s.sendQueue (askedBy st a) := by
  have hsame : st'.subscribers = st.subscribers →
      ∃ s₀, st.subscribers.lookup p = some s₀ ∧ s₀.sendQueue = s.sendQueue ∧
        t ∈ s₀.subscriptions := fun heq => ⟨s, heq ▸ hs, rfl, ht⟩
  cases a with
  | peerConnected p' =>
    cases h
    change (st.subscribers.insert p' _).lookup p = some s at hs
    by_cases hp : p = p'
    · subst hp
      rw [AList.lookup_insert] at hs
      cases hs
      cases ht
    · rw [AList.lookup_insert_ne hp] at hs
      exact .inl ⟨s, hs, rfl, ht⟩
  | peerDisconnected p' =>
    cases h
    change (st.subscribers.erase p').lookup p = some s at hs
    by_cases hp : p = p'
    · subst hp
      rw [AList.lookup_erase] at hs
      cases hs
    · rw [AList.lookup_erase_ne hp] at hs
      exact .inl ⟨s, hs, rfl, ht⟩
  | shutdown =>
    cases h
    rw [Fanout.State.shutdown, AList.lookup_empty] at hs
    cases hs
  | messageReceived p' m =>
    cases h
    rw [Subscribers.messageReceived_eq] at hs
    cases hm : subscriptionChange m with
    | none => exact .inl ⟨s, by simpa [hm] using hs, rfl, ht⟩
    | some change =>
      simp only [hm, lookup_modify] at hs
      split at hs
      · rename_i hp
        subst hp
        obtain ⟨s₀, h₀, rfl⟩ := Option.map_eq_some_iff.mp hs
        rcases mem_applyToList ht with ht | rfl
        · exact .inl ⟨s₀, h₀, rfl, ht⟩
        · exact .inr (by simp [askedBy, hm, Fanout.State.queueOf, h₀, only])
      · exact .inl ⟨s, hs, rfl, ht⟩
  | fanoutMessage message =>
    cases h
    refine .inl (hsame ?_)
    rw [Fanout.State.fanoutMessage]
    split <;> rfl
  | visit i p' =>
    obtain ⟨call, s, -, -, rfl | ⟨-, c, -, rfl⟩⟩ := next_visit h <;> exact .inl (hsame rfl)
  | trySend i =>
    obtain ⟨_, _, _, _, _, -, -, rfl⟩ := next_trySend h
    exact .inl (hsame rfl)
  | returned i =>
    obtain ⟨_, _, _, _, _, -, -, rfl⟩ := next_returned h
    exact .inl (hsame rfl)
  | finish i =>
    obtain ⟨-, rfl⟩ := next_finish h
    exact .inl (hsame rfl)
  | drain q =>
    obtain ⟨_, _, _, -, -, rfl⟩ := next_drain h
    exact .inl (hsame rfl)
  | close q =>
    obtain ⟨_, -, rfl⟩ := next_close h
    exact .inl (hsame rfl)

/-! ### The queue -/

theorem queue_next {capacity : Nat} {st st' : PubFanoutQueue.State} {a : PubFanoutQueue.Action}
    (ha : a ≠ .work) (h : PubFanoutQueue.next capacity st a = some st') :
    st'.worker = st.worker ∧ st'.handed = st.handed := by
  cases a with
  | publish m | drop =>
    simp only [PubFanoutQueue.next] at h
    split at h
    · cases h
      exact ⟨rfl, rfl⟩
    · cases h
  | call i =>
    obtain ⟨c, -, h⟩ := Option.bind_eq_some_iff.mp h
    cases c with
    | push m =>
      simp only [PubFanoutQueue.callNext] at h
      split at h <;> cases h <;> exact ⟨rfl, rfl⟩
    | load | swap | send =>
      cases h
      exact ⟨rfl, rfl⟩
    | done => cases h
  | work => exact absurd rfl ha

theorem queue_workNext {st st' : PubFanoutQueue.State} (hw : st.worker ≠ .pop)
    (h : PubFanoutQueue.workNext st = some st') :
    (∀ m, st'.worker ≠ .fanout m) ∧ st'.handed = st.handed := by
  rw [PubFanoutQueue.workNext] at h
  split at h
  · split at h
    · cases h
      exact ⟨by simp, rfl⟩
    · split at h
      · cases h
      · cases h
        exact ⟨by simp, rfl⟩
  · contradiction
  · cases h
    exact ⟨by simp, rfl⟩
  · cases h
    exact ⟨by simp, rfl⟩
  · cases h
    refine ⟨fun m => ?_, rfl⟩
    dsimp only
    split <;> simp
  · cases h
    exact ⟨by simp, rfl⟩
  · cases h

theorem queue_pop {st st' : PubFanoutQueue.State} (hw : st.worker = .pop)
    (h : PubFanoutQueue.workNext st = some st') :
    ((∀ m, st'.worker ≠ .fanout m) ∧ st'.handed = st.handed) ∨
      ∃ m, st'.worker = .fanout m ∧ st'.handed = st.handed ++ [m] := by
  rw [PubFanoutQueue.workNext, hw] at h
  dsimp only at h
  split at h
  · cases h
    exact .inl ⟨by simp, rfl⟩
  · cases h
    exact .inr ⟨_, rfl, rfl⟩

/-! ### The invariant -/

def copies (visits : Nat) (messages : List ZmqMessage) : List Message :=
  messages.flatMap fun m => List.replicate visits (.message m)

def State.offered (visits : Nat) (st : State) (q : Nat) : List Message :=
  match st.queue.worker with
  | .fanout m =>
    copies visits st.queue.handed.dropLast ++
      List.replicate (st.visited.count q) (.message m)
  | _ => copies visits st.queue.handed

def State.due (st : State) (q : Nat) : List Message := st.fanout.calls.flatMap (owed q)

structure Inv (visits capacity : Nat) (st : State) : Prop where
  queue : PubFanoutQueue.Inv capacity st.queue
  last : ∀ m, st.queue.worker = .fanout m → st.queue.handed.getLast? = some m
  alone : st.fanout.calls.length ≤ 1
  call : ∀ call ∈ st.fanout.calls,
    st.queue.worker = .fanout call.message ∧ call.message.get 0 = some call.firstFrame
  count : ∀ q, st.visited.count q ≤ visits
  order : ∀ q, (st.entered q ++ st.due q).Sublist (st.offered visits q)
  asked : ∀ p s, st.fanout.subscribers.lookup p = some s →
    ∀ t ∈ s.subscriptions, t ∈ st.asked s.sendQueue
  wanted : ∀ q, ∀ x ∈ st.entered q ++ st.due q, Wanted (st.asked q) x

theorem Wanted.mono {asked asked' : List Bytes} {x : Message} (h : Wanted asked x) :
    Wanted (asked ++ asked') x := by
  obtain ⟨m, f, hx, hf, t, ht, hp⟩ := h
  exact ⟨m, f, hx, hf, t, List.mem_append_left _ ht, hp⟩

theorem inv_init (visits capacity : Nat) : Inv visits capacity .init where
  queue := PubFanoutQueue.inv_init capacity
  last := by simp [State.init, PubFanoutQueue.State.init]
  alone := Nat.zero_le _
  call := by simp [State.init, Fanout.State.init]
  count := by simp [State.init]
  order q := by simp [State.init, State.due, Fanout.State.init]
  asked := by simp [State.init, Fanout.State.init]
  wanted q := by simp [State.due, State.init, Fanout.State.init]

variable {visits capacity : Nat} {st : State}

theorem copies_concat (messages : List ZmqMessage) (m : ZmqMessage) :
    copies visits (messages ++ [m]) =
      copies visits messages ++ List.replicate visits (.message m) := by
  simp [copies]

theorem Inv.offered_sublist (hi : Inv visits capacity st) (q : Nat) :
    (st.offered visits q).Sublist (copies visits st.queue.handed) := by
  rw [State.offered]
  split
  · rename_i m hw
    have hlast := hi.last m hw
    rw [← List.dropLast_append_getLast? m hlast, copies_concat, List.dropLast_concat]
    exact (List.replicate_sublist_replicate _ |>.mpr (hi.count q)).append_left _
  · exact List.Sublist.refl _

theorem Inv.not_called (hi : Inv visits capacity st) (hw : ∀ m, st.queue.worker ≠ .fanout m) :
    st.fanout.calls = [] := by
  cases hc : st.fanout.calls with
  | nil => rfl
  | cons call calls => exact absurd (hi.call call (by simp [hc])).1 (hw _)

theorem offered_of_ne {visits : Nat} {st : State} (hw : ∀ m, st.queue.worker ≠ .fanout m)
    (q : Nat) :
    st.offered visits q = copies visits st.queue.handed := by
  rw [State.offered]
  split
  · rename_i m h
    exact absurd h (hw m)
  · rfl

theorem Inv.onQueue (hi : Inv visits capacity st) {queue : PubFanoutQueue.State}
    (hq : PubFanoutQueue.Inv capacity queue) (hh : queue.handed = st.queue.handed)
    (hw : queue.worker = st.queue.worker ∨ st.fanout.calls = [] ∧ ∀ m, queue.worker ≠ .fanout m) :
    Inv visits capacity { st with queue := queue } := by
  refine ⟨hq, ?_, hi.alone, ?_, hi.count, ?_, hi.asked, hi.wanted⟩
  · intro m hm
    rcases hw with hw | ⟨-, hw⟩
    · exact hh ▸ hi.last m (hw ▸ hm)
    · exact absurd hm (hw m)
  · intro call hc
    rcases hw with hw | ⟨hnil, -⟩
    · exact ⟨hw.trans (hi.call call hc).1, (hi.call call hc).2⟩
    · exact absurd (hnil ▸ hc) (List.not_mem_nil)
  · intro q
    rcases hw with hw | ⟨-, hw⟩
    · have heq : State.offered visits { st with queue := queue } q = st.offered visits q := by
        simp only [State.offered, hw, hh]
      rw [heq]
      exact hi.order q
    · rw [offered_of_ne hw, hh]
      exact (hi.order q).trans (hi.offered_sublist q)

theorem due_fanoutMessage (hc : st.fanout.calls = []) (m : ZmqMessage) (q : Nat) :
    (st.fanout.fanoutMessage m).calls.flatMap (owed q) = [] := by
  rw [Fanout.State.fanoutMessage]
  split
  · simp [hc]
  · simp [hc, owed]

theorem Inv.handOver (hi : Inv visits capacity st) (hw : st.queue.worker = .pop)
    {queue : PubFanoutQueue.State} (h : PubFanoutQueue.workNext st.queue = some queue) :
    Inv visits capacity (st.handOver queue) := by
  have hq := PubFanoutQueue.inv_work hi.queue h
  have hne : ∀ m, st.queue.worker ≠ .fanout m := by simp [hw]
  have hnil := hi.not_called hne
  rcases queue_pop hw h with ⟨hw', hh⟩ | ⟨m, hw', hh⟩
  · have heq : st.handOver queue = { st with queue := queue } := by
      rw [State.handOver]
      split
      · rename_i m hm
        exact absurd hm (hw' m)
      · rfl
    rw [heq]
    exact hi.onQueue hq hh (.inr ⟨hnil, hw'⟩)
  · have heq : st.handOver queue =
        { st with queue := queue, fanout := st.fanout.fanoutMessage m, visited := [] } := by
      rw [State.handOver, hw']
    have hcalls : ∀ call ∈ (st.fanout.fanoutMessage m).calls,
        call.message = m ∧ m.get 0 = some call.firstFrame := by
      intro call hc
      rw [Fanout.State.fanoutMessage] at hc
      split at hc
      · exact absurd (hnil ▸ hc) List.not_mem_nil
      · rename_i f hf
        rw [hnil, List.nil_append] at hc
        obtain rfl := List.mem_singleton.mp hc
        exact ⟨rfl, hf⟩
    have hkept : (st.fanout.fanoutMessage m).subscribers = st.fanout.subscribers := by
      rw [Fanout.State.fanoutMessage]
      split <;> rfl
    have hdue := due_fanoutMessage hnil m
    have hbefore : ∀ q, st.due q = [] := fun q => by simp [State.due, hnil]
    rw [heq]
    refine ⟨hq, ?_, ?_, ?_, ?_, ?_, ?_, ?_⟩
    · intro m' hm'
      obtain rfl : m' = m := by simpa [hw'] using hm'.symm
      simp [hh]
    · rw [Fanout.State.fanoutMessage]
      split <;> simp [hnil]
    · intro call hc
      obtain ⟨rfl, hf⟩ := hcalls call hc
      exact ⟨hw', hf⟩
    · simp
    · intro q
      have ho := hi.order q
      rw [hbefore q, List.append_nil, offered_of_ne hne] at ho
      simpa [State.due, hdue q, State.offered, hw', hh] using ho
    · rw [hkept]
      exact hi.asked
    · intro q x hx
      simp only [State.due, hdue q, List.append_nil] at hx
      exact hi.wanted q x (List.mem_append_left _ hx)

theorem Inv.owed_next (hi : Inv visits capacity st) {a : Fanout.Action} {fanout : Fanout.State}
    (ha : ∀ m, a ≠ .fanoutMessage m) (h : Fanout.next st.fanout a = some fanout) (q : Nat) :
    (only q (enteredBy st.fanout a) ++ fanout.calls.flatMap (owed q)).Sublist (st.due q) ∨
      ∃ m, only q (enteredBy st.fanout a) ++ fanout.calls.flatMap (owed q) = [.message m] ∧
        st.queue.worker = .fanout m ∧ visitedBy st.fanout a = some q ∧
        Wanted (st.asked q) (.message m) := by
  match hc : st.fanout.calls, hi.alone with
  | [], _ =>
    obtain ⟨hnil, hby, -⟩ := call_next_nil hc ha h
    rw [hby, hnil]
    exact .inl (List.nil_sublist _)
  | [call], _ =>
    obtain ⟨hw, hf⟩ := hi.call call (by simp [hc])
    have hdue : st.due q = owed q call := by simp [State.due, hc]
    rw [hdue]
    refine ((call_next hc ha h).owed q).imp id ?_
    rintro ⟨heq, hv, p, s, hp, rfl, hm⟩
    rw [subscriptionMatches_eq_any, any_filterMatches] at hm
    obtain ⟨t, ht, hpre⟩ := hm
    exact ⟨_, heq, hw, hv, _, _, rfl, hf, t, hi.asked p s hp t ht, hpre⟩

theorem Inv.record (hi : Inv visits capacity st) {a : Fanout.Action} {fanout : Fanout.State}
    (ha : ∀ m, a ≠ .fanoutMessage m)
    (hv : ∀ q ∈ visitedBy st.fanout a, st.visited.count q < visits)
    (h : Fanout.next st.fanout a = some fanout) : Inv visits capacity (st.record a fanout) := by
  refine ⟨hi.queue, hi.last, ?_, ?_, ?_, ?_, ?_, ?_⟩
  · match hc : st.fanout.calls, hi.alone with
    | [], _ => simp [State.record, (call_next_nil hc ha h).1]
    | [call], _ =>
      have hn := call_next hc ha h
      change fanout.calls.length ≤ 1
      generalize fanout.calls = calls at hn
      cases hn with
      | other _ _ _ hlen => exact hlen
      | cloned => exact Nat.le_refl 1
      | tried => exact Nat.le_refl 1
  · intro call' hc'
    change call' ∈ fanout.calls at hc'
    match hc : st.fanout.calls, hi.alone with
    | [], _ => simp [(call_next_nil hc ha h).1] at hc'
    | [call], _ =>
      have hcall := hi.call call (by simp [hc])
      -- The call keeps its message and first frame, whatever its stage.
      have hkept : call'.message = call.message ∧ call'.firstFrame = call.firstFrame := by
        have hn := call_next hc ha h
        generalize fanout.calls = calls at hn hc'
        cases hn with
        | other _ _ hmem => rcases hmem call' hc' with rfl | rfl <;> exact ⟨rfl, rfl⟩
        | cloned => simp [List.mem_singleton.mp hc']
        | tried => simp [List.mem_singleton.mp hc']
      rw [hkept.1, hkept.2]
      exact hcall
  · intro q
    change (st.visited ++ (visitedBy st.fanout a).toList).count q ≤ visits
    rw [List.count_append]
    cases hby : visitedBy st.fanout a with
    | none => simpa using hi.count q
    | some q' =>
      have hlt := hv q' hby
      have hle := hi.count q
      by_cases hq : q' = q
      · subst hq
        simpa using Nat.succ_le_of_lt hlt
      · simpa [hq] using hle
  · intro q
    have ho := hi.order q
    change (st.entered q ++ only q (enteredBy st.fanout a) ++
      fanout.calls.flatMap (owed q)).Sublist _
    rw [List.append_assoc]
    rcases hi.owed_next ha h q with hs | ⟨m, heq, hw, hby, -⟩
    · refine ((hs.append_left _).trans ho).trans ?_
      simp only [State.offered, State.record]
      split
      · refine List.Sublist.append_left ?_ _
        rw [List.replicate_sublist_replicate, List.count_append]
        exact Nat.le_add_right _ _
      · exact List.Sublist.refl _
    · rw [heq]
      simp only [State.offered, State.record, hw, hby, List.count_append, Option.toList_some,
        List.count_singleton_self, List.replicate_succ', ← List.append_assoc] at ho ⊢
      exact ((List.sublist_append_left _ _).trans ho).append_right _
  · intro p s hs t ht
    refine List.mem_append.mpr ?_
    refine (subscribers_next h hs ht).imp_left ?_
    rintro ⟨s₀, h₀, heq, ht₀⟩
    exact heq ▸ hi.asked p s₀ h₀ t ht₀
  · intro q x hx
    change x ∈ st.entered q ++ only q (enteredBy st.fanout a) ++ fanout.calls.flatMap (owed q) at hx
    rw [List.append_assoc] at hx
    refine Wanted.mono ?_
    rcases List.mem_append.mp hx with hx | hx
    · exact hi.wanted q x (List.mem_append_left _ hx)
    · rcases hi.owed_next ha h q with hs | ⟨m, heq, -, -, hwant⟩
      · exact hi.wanted q x (List.mem_append_right _ (hs.subset hx))
      · rw [heq] at hx
        rw [List.mem_singleton.mp hx]
        exact hwant

inductive Stepped (visits capacity : Nat) (st : State) : State → Prop
  | queue (a : PubFanoutQueue.Action) (queue : PubFanoutQueue.State) :
      PubFanoutQueue.next capacity st.queue a = some queue → a ≠ .work ∨
        st.queue.worker ≠ .pop ∧ ((∃ m, st.queue.worker = .fanout m) → st.fanout.calls = []) →
      Stepped visits capacity st { st with queue := queue }
  | handOver (queue : PubFanoutQueue.State) : st.queue.worker = .pop →
      PubFanoutQueue.workNext st.queue = some queue → Stepped visits capacity st (st.handOver queue)
  | fanout (a : Fanout.Action) (fanout : Fanout.State) : (∀ m, a ≠ .fanoutMessage m) →
      (∀ q ∈ visitedBy st.fanout a, st.visited.count q < visits) →
      Fanout.next st.fanout a = some fanout → Stepped visits capacity st (st.record a fanout)
  | idle : Stepped visits capacity st st

theorem next_fanout {a : Fanout.Action} (ha : ∀ m, a ≠ .fanoutMessage m) :
    next visits capacity st (.fanout a) =
      if ∃ q ∈ visitedBy st.fanout a, visits ≤ st.visited.count q then none
      else (Fanout.next st.fanout a).map (st.record a) := by
  cases a with
  | fanoutMessage m => exact absurd rfl (ha m)
  | _ => rfl

theorem stepped {st' : State} {a : Action} (h : next visits capacity st a = some st') :
    Stepped visits capacity st st' := by
  cases a with
  | send subscriberCount message =>
    simp only [next] at h
    split at h
    · cases h
      exact .idle
    · obtain ⟨queue, hq, rfl⟩ := Option.map_eq_some_iff.mp h
      exact .queue _ queue hq (.inl (by simp))
  | queue a' =>
    cases a' with
    | publish m => cases h
    | call i | drop =>
      obtain ⟨queue, hq, rfl⟩ := Option.map_eq_some_iff.mp h
      exact .queue _ queue hq (.inl (by simp))
    | work =>
      simp only [next] at h
      split at h
      · rename_i hw
        obtain ⟨queue, hq, rfl⟩ := Option.map_eq_some_iff.mp h
        exact .handOver queue hw hq
      · rename_i m hw
        split at h
        · rename_i hnil
          obtain ⟨queue, hq, rfl⟩ := Option.map_eq_some_iff.mp h
          exact .queue .work queue hq (.inr ⟨by simp [hw], fun _ => List.isEmpty_iff.mp hnil⟩)
        · cases h
      · rename_i hpop hfan
        obtain ⟨queue, hq, rfl⟩ := Option.map_eq_some_iff.mp h
        refine .queue .work queue hq (.inr ⟨hpop, ?_⟩)
        rintro ⟨m, hm⟩
        exact absurd hm (hfan m)
  | fanout a' =>
    by_cases ha : ∀ m, a' ≠ .fanoutMessage m
    · rw [next_fanout ha] at h
      split at h
      · cases h
      · rename_i hv
        obtain ⟨fanout, hf, rfl⟩ := Option.map_eq_some_iff.mp h
        refine .fanout a' fanout ha (fun q hq => ?_) hf
        exact Nat.lt_of_not_le fun hle => hv ⟨q, hq, hle⟩
    · obtain ⟨m, hm⟩ := not_forall.mp ha
      obtain rfl := not_not.mp hm
      cases h

theorem inv_next (hi : Inv visits capacity st) {st' : State} {a : Action}
    (h : next visits capacity st a = some st') : Inv visits capacity st' := by
  cases stepped h with
  | queue a queue hq hwork =>
    have hqi := PubFanoutQueue.inv_next hi.queue hq
    by_cases ha : a = .work
    · subst ha
      obtain ⟨hw, hnil⟩ := hwork.resolve_left (not_not.mpr rfl)
      have hcalls : st.fanout.calls = [] := by
        by_cases hf : ∃ m, st.queue.worker = .fanout m
        · exact hnil hf
        · exact hi.not_called fun m hm => hf ⟨m, hm⟩
      obtain ⟨hw', hh⟩ := queue_workNext hw hq
      exact hi.onQueue hqi hh (.inr ⟨hcalls, hw'⟩)
    · obtain ⟨hw, hh⟩ := queue_next ha hq
      exact hi.onQueue hqi hh (.inl hw)
  | handOver queue hw hq => exact hi.handOver hw hq
  | fanout a fanout ha hv hf => exact hi.record ha hv hf
  | idle => exact hi

theorem Reachable.inv (h : (system visits capacity).Reachable st) : Inv visits capacity st := by
  refine h.invariant (inv_init visits capacity) ?_
  exact fun _ _ _ hi hn => inv_next hi hn

theorem lane_step {st' : State} {a : Action} (h : next visits capacity st a = some st') (q : Nat) :
    ∃ put took, Fifo.Step (lane st.fanout q) put took (lane st'.fanout q) ∧
      st'.entered q = st.entered q ++ put ∧ st'.taken q = st.taken q ++ took := by
  have hkept : ∀ {st' : State}, lane st'.fanout q = lane st.fanout q → st'.entered = st.entered →
      st'.taken = st.taken → ∃ put took, Fifo.Step (lane st.fanout q) put took (lane st'.fanout q) ∧
        st'.entered q = st.entered q ++ put ∧ st'.taken q = st.taken q ++ took := by
    intro st' hl he ht
    exact ⟨[], [], hl ▸ .same _, by rw [he, List.append_nil], by rw [ht, List.append_nil]⟩
  cases stepped h with
  | queue a queue => exact hkept rfl rfl rfl
  | handOver queue =>
    rw [State.handOver]
    split
    · rename_i m _
      refine hkept ?_ rfl rfl
      change ((st.fanout.fanoutMessage m).channels[q]?.map Mpsc.fifo) = _
      rw [Fanout.State.fanoutMessage]
      split <;> rfl
    · exact hkept rfl rfl rfl
  | fanout a fanout ha hv hf => exact ⟨_, _, lane_next hf q, rfl, rfl⟩
  | idle => exact hkept rfl rfl rfl

theorem Reachable.line (h : (system visits capacity).Reachable st) (q : Nat) :
    Line (st.entered q) (st.taken q) (lane st.fanout q) := by
  refine h.invariant (P := fun st => Line (st.entered q) (st.taken q) (lane st.fanout q)) ?_ ?_
  · exact ⟨rfl, rfl⟩
  · intro st a st' hl hn
    obtain ⟨put, took, hstep, he, ht⟩ := lane_step hn q
    exact he ▸ ht ▸ hl.step hstep

theorem Inv.selected (hi : Inv visits capacity st) (q : Nat) :
    (st.entered q).Sublist (copies visits st.queue.handed) ∧
      ∀ x ∈ st.entered q, Wanted (st.asked q) x :=
  ⟨(List.sublist_append_left _ _).trans ((hi.order q).trans (hi.offered_sublist q)),
    fun x hx => hi.wanted q x (List.mem_append_left _ hx)⟩

/-- What was put into the channel of a subscriber are messages that were published, in the order
they were published in and each at most as often as the iterator may come to an entry, and only
such as a subscription is for that was pushed to the entry of this channel.  The writer takes them
in that order, and misses none while the channel is open. -/
theorem subscribers_in_order (h : (system visits capacity).Reachable st) :
    st.queue.pushed = st.queue.handed ++ st.queue.queue ∧
    ∀ q, (st.entered q).Sublist (copies visits st.queue.handed) ∧
      (∀ x ∈ st.entered q, Wanted (st.asked q) x) ∧
      Line (st.entered q) (st.taken q) (lane st.fanout q) := by
  have hi := Reachable.inv h
  refine ⟨hi.queue.fifo, fun q => ?_⟩
  obtain ⟨horder, hwanted⟩ := hi.selected q
  exact ⟨horder, hwanted, Reachable.line h q⟩

def filtered (p : PeerIdentity) : List Action :=
  [.fanout (.peerConnected p), .fanout (.messageReceived p (.message ⟨[[1, 7]]⟩)),
    .send 1 ⟨[[7, 0]]⟩, .send 1 ⟨[[9]]⟩] ++
  [.call 0, .call 0, .call 1, .call 0, .call 0, .call 1, .work, .work].map .queue ++
  [.visit 0 p, .trySend 0, .returned 0, .finish 0].map .fanout ++ [.queue .work, .queue .work] ++
  [.visit 0 p, .finish 0, .drain 0].map .fanout

theorem subscribers_in_order_filtered :
    let p : PeerIdentity := .ofByte 1
    ∃ st, (system 1 4).run .init (filtered p) = some st ∧
      (st.queue.handed, st.taken 0, st.asked 0) =
        ([⟨[[7, 0]]⟩, ⟨[[9]]⟩], [.message ⟨[[7, 0]]⟩], [[7]]) ∧
      st.queue.pushed = st.queue.handed ++ st.queue.queue ∧
      ∀ q, (st.entered q).Sublist (copies 1 st.queue.handed) ∧
        (∀ x ∈ st.entered q, Wanted (st.asked q) x) ∧
        Line (st.entered q) (st.taken q) (lane st.fanout q) := by
  intro p
  have h : ((system 1 4).run .init (filtered p)).any fun st =>
      (st.queue.handed, st.taken 0, st.asked 0) =
        ([⟨[[7, 0]]⟩, ⟨[[9]]⟩], [.message ⟨[[7, 0]]⟩], [[7]]) := by
    decide +kernel
  obtain ⟨st, hst, hq⟩ := (Option.any_eq_true _ _).mp h
  exact ⟨st, hst, of_decide_eq_true hq, subscribers_in_order ⟨_, hst⟩⟩

end PubPipeline

end ZmqRs
