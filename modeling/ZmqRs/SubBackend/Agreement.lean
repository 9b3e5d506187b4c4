import ZmqRs.PubBackend.Subscriptions

/-! SUB remembers a set of topics, a publisher a list with one entry per subscribe
message.  For which sequences of calls the two agree. -/

namespace ZmqRs

open Codec (Message)
open Lib (tally)

namespace SubCalls

open SubSocketBackend

inductive Kind
  | sub
  | xsub
  deriving DecidableEq

inductive Call (S : Type)
  | subscribe (targets : List PeerEntry) (subscription : String)
  | unsubscribe (targets : List PeerEntry) (subscription : String)
  | send (targets : List PeerEntry) (message : ZmqMessage)
  | connect (order : List Bytes) (peerId : PeerIdentity) (recvQueue : S)

variable [Target] {S W N : Type}

def next (kind : Kind) (b : SubSocketBackend S W N) : Call S → Option (SubSocketBackend S W N)
  | .subscribe targets subscription =>
    if targets.Perm b.peers.entries then
      match kind with
      | .sub => some (SubSocket.subscribe b targets subscription).2
      | .xsub => some (XSubSocket.subscribe b targets subscription).2
    else none
  | .unsubscribe targets subscription =>
    if targets.Perm b.peers.entries then
      match kind with
      | .sub => some (SubSocket.unsubscribe b targets subscription).2
      | .xsub => some (XSubSocket.unsubscribe b targets subscription).2
    else none
  | .send targets message =>
    match kind with
    | .sub => none
    | .xsub =>
      if targets.Perm b.peers.entries then some (XSubSocket.send b targets message).2 else none
  | .connect order peerId recvQueue =>
    if b.IsOrder order then some (b.peerConnected order peerId recvQueue ⟨[], none⟩) else none

def system (kind : Kind) : Lib.System (SubSocketBackend S W N) (Call S) where
  init := .withOptions (some .new)
  next := next kind

def Call.change : Call S → Option (Bytes × Bool)
  | .subscribe _ subscription => some (Codec.utf8 subscription, true)
  | .unsubscribe _ subscription => some (Codec.utf8 subscription, false)
  | .send _ message => subscriptionChange (.message message)
  | .connect .. => none

structure LastConnect (calls before : List (Call S)) (order : List Bytes) (p : PeerIdentity)
    (after : List (Call S)) : Prop where
  split : ∃ recvQueue, calls = before ++ .connect order p recvQueue :: after
  last : ∀ order recvQueue, .connect order p recvQueue ∉ after

def told (order : List Bytes) (after : List (Call S)) : List (Bytes × Bool) :=
  order.map (·, true) ++ after.filterMap Call.change

/-- For every peer and every topic whose last change was to unsubscribe it: in
every tail of what the peer is told, the topic is unsubscribed at least as often as it
is subscribed. -/
def Balanced (calls : List (Call S)) : Prop :=
  ∀ before order p after, LastConnect calls before order p after →
    ∀ t, (changesOf t (calls.filterMap Call.change)).getLast? ≠ some true →
      ∀ tail, tail <:+ changesOf t (told order after) → tail.count true ≤ tail.count false

structure Agrees (b : SubSocketBackend S W N) : Prop where
  topics : ∀ p c wire, b.peers.lookup p = some c → b.wires[c]? = some wire →
    ∀ (pub : Publisher Unit Unit) (me : PeerIdentity) (w : Wire),
      (((pub.peerConnected me () w).hears me wire.sent).subscriptions me).toFinset = b.subs
  accepts : ∀ p c wire, b.peers.lookup p = some c → b.wires[c]? = some wire →
    ∀ p' c' wire', b.peers.lookup p' = some c' → b.wires[c']? = some wire' →
      ∀ (pub pub' : Publisher Unit Unit) (me me' : PeerIdentity) (w w' : Wire)
        (firstFrame : Bytes),
        ((pub.peerConnected me () w).hears me wire.sent).accepts me firstFrame =
          ((pub'.peerConnected me' () w').hears me' wire'.sent).accepts me' firstFrame

section Open

omit [Target]

def Open (wires : List Wire) : Prop := ∀ wire ∈ wires, wire.failure = none

theorem Open.modify {wires : List Wire} (h : Open wires) (c : Nat) (m : Message) :
    Open (wires.modify c (·.push m)) := by
  intro wire hw
  obtain ⟨i, hi, rfl⟩ := List.getElem_of_mem hw
  rw [List.length_modify] at hi
  rw [List.getElem_modify]
  split <;> exact h wires[i] (List.getElem_mem hi)

theorem sendOnWire_open {wires : List Wire} (h : Open wires) (c : Nat) (m : Message) :
    sendOnWire wires c m = .ok (wires.modify c (·.push m)) := by
  rw [sendOnWire]
  split
  · rename_i hc
    rw [List.modify_eq_self (List.getElem?_eq_none_iff.mp hc)]
  · rename_i wire hc
    obtain ⟨hl, rfl⟩ := List.getElem?_eq_some_iff.mp hc
    rw [Wire.send_open (h _ (List.getElem_mem hl)), List.modify_eq_set_get _ hl]
    rfl

def pushAll (m : Message) : List Nat → List Wire → List Wire
  | [], wires => wires
  | c :: cs, wires => pushAll m cs (wires.modify c (·.push m))

theorem broadcastLoop_open {wires : List Wire} (h : Open wires) (m : ZmqMessage)
    (targets : List PeerEntry) (deadPeers : List PeerIdentity) (firstError : Option CodecError) :
    broadcastLoop m targets wires deadPeers firstError =
      (pushAll (.message m) (targets.map Sigma.snd) wires, deadPeers, firstError) := by
  induction targets generalizing wires with
  | nil => rfl
  | cons target targets ih =>
    rw [broadcastLoop, sendOnWire_open h]
    exact ih (h.modify _ _)

theorem fanoutLoop_open {wires : List Wire} (h : Open wires) (m : ZmqMessage)
    (targets : List PeerEntry) (deadPeers : List PeerIdentity) :
    fanoutLoop m targets wires deadPeers =
      (pushAll (.message m) (targets.map Sigma.snd) wires, .ok deadPeers) := by
  induction targets generalizing wires with
  | nil => rfl
  | cons target targets ih =>
    rw [fanoutLoop, sendOnWire_open h]
    exact ih (h.modify _ _)

theorem Open.pushAll {wires : List Wire} (h : Open wires) (m : Message) (cs : List Nat) :
    Open (pushAll m cs wires) := by
  induction cs generalizing wires with
  | nil => exact h
  | cons c cs ih => exact ih (h.modify c m)

theorem getElem?_pushAll_of_notMem (m : Message) {cs : List Nat} {c : Nat} (h : c ∉ cs)
    (wires : List Wire) : (pushAll m cs wires)[c]? = wires[c]? := by
  induction cs generalizing wires with
  | nil => rfl
  | cons c' cs ih =>
    rw [List.mem_cons, not_or] at h
    rw [pushAll, ih h.2, List.getElem?_modify_ne _ _ (Ne.symm h.1)]

theorem getElem?_pushAll_of_mem (m : Message) {cs : List Nat} (hn : cs.Nodup) {c : Nat}
    (h : c ∈ cs) (wires : List Wire) :
    (pushAll m cs wires)[c]? = wires[c]?.map (·.push m) := by
  induction cs generalizing wires with
  | nil => cases h
  | cons c' cs ih =>
    rw [List.nodup_cons] at hn
    rw [pushAll]
    by_cases hc : c = c'
    · subst hc
      rw [getElem?_pushAll_of_notMem m hn.1, List.getElem?_modify_eq]
      rfl
    · rw [ih hn.2 ((List.mem_cons.mp h).resolve_left hc),
        List.getElem?_modify_ne _ _ (Ne.symm hc)]

theorem replay_open {wire : Wire} (h : wire.failure = none) (messages : List ZmqMessage) :
    replay wire messages = .ok ⟨wire.sent ++ messages.map .message, none⟩ := by
  induction messages generalizing wire with
  | nil => simp [replay, ← h]
  | cons m messages ih =>
    rw [replay, Wire.send_open h]
    exact (@ih (wire.push (.message m)) h).trans (by simp [Wire.push])

end Open

section Step

variable {b b' : SubSocketBackend S W N}

def applyToSet (subs : Finset Bytes) : Option (Bytes × Bool) → Finset Bytes
  | some (t, true) => insert t subs
  | some (t, false) => subs.erase t
  | none => subs

omit [Target] in
theorem applySubscriptionMessage_eq (b : SubSocketBackend S W N) (m : ZmqMessage) :
    b.applySubscriptionMessage m =
      ((subscriptionChange (.message m)).isSome,
        { b with subs := applyToSet b.subs (subscriptionChange (.message m)) }) := by
  obtain ⟨frames⟩ := m
  generalize hm : Message.message ⟨frames⟩ = message
  fun_cases subscriptionChange message with
  | case1 sub =>
    obtain rfl : frames = [1 :: sub] := by simpa using hm
    rfl
  | case2 sub =>
    obtain rfl : frames = [0 :: sub] := by simpa using hm
    rfl
  | case3 _ h₁ h₂ =>
    subst hm
    change b.applySubscriptionMessage ⟨frames⟩ = (false, b)
    cases frames with
    | nil => rfl
    | cons frame frames =>
      rw [applySubscriptionMessage]
      simp only [ZmqMessage.get, List.getElem?_cons_zero]
      split
      · rfl
      · rename_i hlen
        rw [not_or, not_not] at hlen
        obtain rfl : frames = [] := by simpa [ZmqMessage.len] using hlen.1
        split
        · exact (h₁ _ rfl).elim
        · exact (h₂ _ rfl).elim
        · rfl

omit [Target] in
theorem broadcast_open (h : Open b.wires) (targets : List PeerEntry) (m : ZmqMessage) :
    b.broadcastMessageReliably targets m =
      (.ok (), { b with wires := pushAll (.message m) (targets.map Sigma.snd) b.wires }) := by
  rw [broadcastMessageReliably, broadcastControlMessage, broadcastLoop_open h]
  rfl

omit [Target] in
theorem fanout_open (h : Open b.wires) (targets : List PeerEntry) {m : ZmqMessage}
    (hm : m.isEmpty = false) :
    b.fanoutMessage targets m =
      (.ok (), { b with wires := pushAll (.message m) (targets.map Sigma.snd) b.wires }) := by
  rw [fanoutMessage, hm, fanoutLoop_open h]
  rfl

structure Sends (b b' : SubSocketBackend S W N) (call : Call S) : Prop where
  notConnect : ∀ order p recvQueue, call ≠ .connect order p recvQueue
  effect : (call.change = none ∧ b' = b) ∨
    ∃ targets m, List.Perm targets b.peers.entries ∧
      call.change = subscriptionChange (.message m) ∧
      b' = { b with
        wires := pushAll (.message m) (targets.map Sigma.snd) b.wires
        subs := applyToSet b.subs call.change }

theorem next_cases {kind : Kind} {call : Call S} (ho : Open b.wires)
    (h : next kind b call = some b') :
    (∃ order p recvQueue, call = .connect order p recvQueue ∧ b.IsOrder order ∧
      b' = (b.insertPeer p ⟨(subscriptionMessages order).map .message, none⟩).insertStream p
        recvQueue) ∨ Sends b b' call := by
  cases call with
  | connect order p recvQueue =>
    simp only [next] at h
    split at h
    · rename_i hi
      cases h
      exact .inl ⟨order, p, recvQueue, rfl, hi, by rw [peerConnected, replay_open rfl]; rfl⟩
    · cases h
  | subscribe targets subscription =>
    simp only [next] at h
    split at h
    · rename_i ht
      have h : some (SubSocket.subscribe b targets subscription).2 = some b' := by
        cases kind <;> exact h
      refine .inr ⟨by simp, .inr ⟨targets, createSubsMessage _ .subscribe, ht, rfl, ?_⟩⟩
      rw [← Option.some.inj h, SubSocket.subscribe, broadcastSubscription]
      exact congrArg Prod.snd (broadcast_open (b := b.rememberSubscription _) ho targets _)
    · cases h
  | unsubscribe targets subscription =>
    simp only [next] at h
    split at h
    · rename_i ht
      have h : some (SubSocket.unsubscribe b targets subscription).2 = some b' := by
        cases kind <;> exact h
      refine .inr ⟨by simp, .inr ⟨targets, createSubsMessage _ .unsubscribe, ht, rfl, ?_⟩⟩
      rw [← Option.some.inj h, SubSocket.unsubscribe, broadcastSubscription]
      exact congrArg Prod.snd (broadcast_open (b := b.forgetSubscription _) ho targets _)
    · cases h
  | send targets m =>
    cases kind with
    | sub => cases h
    | xsub =>
      simp only [next] at h
      split at h
      · rename_i ht
        rw [XSubSocket.send, applySubscriptionMessage_eq] at h
        refine .inr ⟨by simp, ?_⟩
        cases hc : subscriptionChange (.message m) with
        | some change =>
          simp only [hc] at h
          cases h
          refine .inr ⟨targets, m, ht, rfl, ?_⟩
          rw [Call.change, hc]
          let b₁ := { b with subs := applyToSet b.subs (some change) }
          exact congrArg Prod.snd (broadcast_open (b := b₁) ho targets m)
        | none =>
          simp only [hc] at h
          cases h
          cases hm : m.isEmpty with
          | true => exact .inl ⟨hc, by simp [fanoutMessage, hm, applyToSet]⟩
          | false =>
            refine .inr ⟨targets, m, ht, rfl, ?_⟩
            rw [Call.change, hc]
            exact congrArg Prod.snd (fanout_open (b := b) ho targets hm)
      · cases h

omit [Target] in
theorem mem_applyToSet {subs : Finset Bytes} {changes : List (Bytes × Bool)} {t : Bytes}
    (h : t ∈ subs ↔ (changesOf t changes).getLast? = some true) (change : Option (Bytes × Bool)) :
    t ∈ applyToSet subs change ↔
      (changesOf t (changes ++ change.toList)).getLast? = some true := by
  match change with
  | none => simpa [applyToSet] using h
  | some (t', up) =>
    rw [Option.toList_some, changesOf_concat]
    by_cases ht : t' = t
    · subst ht
      cases up <;> simp [applyToSet]
    · cases up <;> simp [applyToSet, ht, Ne.symm ht, h]

end Step

omit [Target] in
theorem filterMap_singleton {α β : Type} (f : α → Option β) (a : α) :
    [a].filterMap f = (f a).toList := by
  cases h : f a <;> simp [h]

omit [Target] in
theorem changes_concat (calls : List (Call S)) (call : Call S) :
    (calls ++ [call]).filterMap Call.change = calls.filterMap Call.change ++ call.change.toList := by
  rw [List.filterMap_append, filterMap_singleton]

omit [Target] in
theorem told_concat (order : List Bytes) (after : List (Call S)) (call : Call S) :
    told order (after ++ [call]) = told order after ++ call.change.toList := by
  rw [told, told, changes_concat, List.append_assoc]

structure Inv (calls : List (Call S)) (b : SubSocketBackend S W N) : Prop where
  isOpen : Open b.wires
  subs : ∀ t, t ∈ b.subs ↔ (changesOf t (calls.filterMap Call.change)).getLast? = some true
  owner : ∀ p p' c, b.peers.lookup p = some c → b.peers.lookup p' = some c → p = p'
  known : ∀ p c, b.peers.lookup p = some c → ∃ before order after,
    LastConnect calls before order p after
  entry : ∀ before order p after, LastConnect calls before order p after →
    ∃ c wire, b.peers.lookup p = some c ∧ b.wires[c]? = some wire ∧
      wire.sent.filterMap subscriptionChange = told order after ∧
      ∀ t, t ∈ order ↔ (changesOf t (before.filterMap Call.change)).getLast? = some true

namespace Inv

variable {calls : List (Call S)} {b b' : SubSocketBackend S W N} {call : Call S}

omit [Target] in
theorem lastConnect_concat {before after : List (Call S)} {order : List Bytes} {p : PeerIdentity}
    (h : LastConnect (calls ++ [call]) before order p after) :
    (∃ recvQueue, call = .connect order p recvQueue ∧ before = calls ∧ after = []) ∨
      (∀ order recvQueue, call ≠ .connect order p recvQueue) ∧
        ∃ after', after = after' ++ [call] ∧ LastConnect calls before order p after' := by
  obtain ⟨⟨recvQueue, hs⟩, hl⟩ := h
  rcases List.eq_nil_or_concat after with rfl | ⟨after', call', rfl⟩
  · obtain ⟨rfl, hc⟩ := List.append_inj' hs rfl
    exact .inl ⟨recvQueue, by simpa using hc, rfl, rfl⟩
  · rw [List.concat_eq_append] at hs hl ⊢
    have hs : calls ++ [call] = (before ++ .connect order p recvQueue :: after') ++ [call'] := by
      simpa using hs
    obtain ⟨hs', hc⟩ := List.append_inj' hs rfl
    obtain rfl : call = call' := by simpa using hc
    refine .inr ⟨?_, after', rfl, ⟨recvQueue, hs'⟩, fun order recvQueue h => ?_⟩
    · rintro order recvQueue rfl
      exact hl order recvQueue (by simp)
    · exact hl order recvQueue (List.mem_append_left _ h)

omit [Target] in
theorem lastConnect_snoc {before after : List (Call S)} {order : List Bytes} {p : PeerIdentity}
    (h : LastConnect calls before order p after)
    (hc : ∀ order recvQueue, call ≠ .connect order p recvQueue) :
    LastConnect (calls ++ [call]) before order p (after ++ [call]) := by
  obtain ⟨⟨recvQueue, rfl⟩, hl⟩ := h
  refine ⟨⟨recvQueue, by simp⟩, fun order recvQueue h => ?_⟩
  cases List.mem_append.mp h with
  | inl h =>
    exact hl order recvQueue h
  | inr h =>
    exact hc order recvQueue (List.mem_singleton.mp h).symm

omit [Target] in
theorem entry_lt (hi : Inv calls b) {p : PeerIdentity} {c : Nat} (h : b.peers.lookup p = some c) :
    c < b.wires.length := by
  obtain ⟨before, order, after, hl⟩ := hi.known p c h
  obtain ⟨c', wire, hc, hw, -⟩ := hi.entry before order p after hl
  obtain rfl : c = c' := Option.some.inj (h.symm.trans hc)
  exact (List.getElem?_eq_some_iff.mp hw).1

theorem connect (hi : Inv calls b) {order : List Bytes} (ho : b.IsOrder order) (p : PeerIdentity)
    (recvQueue : S) :
    Inv (calls ++ [.connect order p recvQueue])
      ((b.insertPeer p ⟨(subscriptionMessages order).map .message, none⟩).insertStream p
        recvQueue) := by
  refine ⟨?_, ?_, ?_, ?_, ?_⟩
  · intro wire hw
    cases List.mem_append.mp hw with
    | inl hw =>
      exact hi.isOpen wire hw
    | inr hw =>
      rw [List.mem_singleton.mp hw]
  · intro t
    rw [changes_concat, Call.change, Option.toList_none, List.append_nil]
    exact hi.subs t
  · intro q q' c hq hq'
    simp only [insertStream, insertPeer] at hq hq'
    by_cases h : q = p
    · by_cases h' : q' = p
      · rw [h, h']
      · rw [h, AList.lookup_insert] at hq
        rw [AList.lookup_insert_ne h'] at hq'
        have := hi.entry_lt hq'
        have := Option.some.inj hq
        omega
    · rw [AList.lookup_insert_ne h] at hq
      by_cases h' : q' = p
      · rw [h', AList.lookup_insert] at hq'
        have := hi.entry_lt hq
        have := Option.some.inj hq'
        omega
      · rw [AList.lookup_insert_ne h'] at hq'
        exact hi.owner q q' c hq hq'
  · intro q c hq
    simp only [insertStream, insertPeer] at hq
    by_cases h : q = p
    · subst h
      exact ⟨calls, order, [], ⟨recvQueue, rfl⟩, by simp⟩
    · rw [AList.lookup_insert_ne h] at hq
      obtain ⟨before, order', after, hl⟩ := hi.known q c hq
      exact ⟨before, order', _, lastConnect_snoc hl (by simp [Ne.symm h])⟩
  · intro before order' q after hl
    rcases lastConnect_concat hl with ⟨recvQueue', hc, rfl, rfl⟩ | ⟨hn, after', rfl, hl'⟩
    · obtain ⟨rfl, rfl, rfl⟩ : order = order' ∧ p = q ∧ recvQueue = recvQueue' := by simpa using hc
      refine ⟨b.wires.length, _, AList.lookup_insert _, List.getElem?_concat_length, ?_, ?_⟩
      · rw [subscriptionChange_messages, told, List.filterMap_nil, List.append_nil]
      · intro t
        rw [← hi.subs t, ← ho.2, List.mem_toFinset]
    · have h : q ≠ p := by
        rintro rfl
        exact hn order recvQueue rfl
      obtain ⟨c, wire, hc, hw, ht, ho⟩ := hi.entry before order' q after' hl'
      refine ⟨c, wire, ?_, ?_, ?_, ho⟩
      · exact (AList.lookup_insert_ne h).trans hc
      · exact (List.getElem?_append_left (hi.entry_lt hc)).trans hw
      · rw [ht, told_concat, Call.change, Option.toList_none, List.append_nil]

omit [Target] in
theorem targets_nodup (hi : Inv calls b) {targets : List PeerEntry}
    (h : targets.Perm b.peers.entries) : (targets.map Sigma.snd).Nodup := by
  rw [(h.map _).nodup_iff]
  refine List.Nodup.map_on ?_ b.peers.nodupKeys.nodup
  intro e he e' he' hs
  have he := AList.mem_lookup_iff.mpr he
  have he' := AList.mem_lookup_iff.mpr he'
  rw [← hs] at he'
  exact Sigma.ext (hi.owner _ _ _ he he') (heq_of_eq hs)

omit [Target] in
theorem sends (hi : Inv calls b) (h : Sends b b' call) : Inv (calls ++ [call]) b' := by
  have hl : ∀ {before after : List (Call S)} {order p},
      LastConnect (calls ++ [call]) before order p after →
        ∃ after', after = after' ++ [call] ∧ LastConnect calls before order p after' := by
    intro before after order p hl
    rcases lastConnect_concat hl with ⟨recvQueue, hc, -⟩ | ⟨-, hl⟩
    · exact (h.notConnect _ _ _ hc).elim
    · exact hl
  have hk : ∀ p c, b.peers.lookup p = some c → ∃ before order after,
      LastConnect (calls ++ [call]) before order p after := by
    intro p c hp
    obtain ⟨before, order, after, hl⟩ := hi.known p c hp
    exact ⟨before, order, _, lastConnect_snoc hl fun order => h.notConnect order p⟩
  obtain ⟨hn, ⟨hc, rfl⟩ | ⟨targets, m, ht, hc, rfl⟩⟩ := h
  · refine ⟨hi.isOpen, ?_, hi.owner, hk, ?_⟩
    · intro t
      rw [changes_concat, hc, Option.toList_none, List.append_nil]
      exact hi.subs t
    · intro before order p after h
      obtain ⟨after', rfl, h'⟩ := hl h
      rw [told_concat, hc, Option.toList_none, List.append_nil]
      exact hi.entry before order p after' h'
  · refine ⟨hi.isOpen.pushAll _ _, ?_, hi.owner, hk, ?_⟩
    · intro t
      rw [changes_concat]
      exact mem_applyToSet (hi.subs t) call.change
    · intro before order p after h
      obtain ⟨after', rfl, h'⟩ := hl h
      obtain ⟨c, wire, hp, hw, hs, ho⟩ := hi.entry before order p after' h'
      have hm : c ∈ targets.map Sigma.snd :=
        List.mem_map.mpr ⟨⟨p, c⟩, ht.mem_iff.mpr (AList.mem_lookup_iff.mp hp), rfl⟩
      refine ⟨c, wire.push (.message m), hp, ?_, ?_, ho⟩
      · rw [getElem?_pushAll_of_mem _ (hi.targets_nodup ht) hm, hw]
        rfl
      · rw [Wire.push, List.filterMap_append, hs, told_concat, hc]
        rw [filterMap_singleton]

end Inv

variable {kind : Kind} {calls : List (Call S)} {b : SubSocketBackend S W N}

theorem inv_of_run (h : (system kind).run (system kind).init calls = some b) : Inv calls b := by
  refine Lib.System.run_history (system kind) ?_ ?_ h
  · refine ⟨by simp [Open, system, withOptions], by simp [system, withOptions], ?_, ?_, ?_⟩
    · simp [system, withOptions]
    · simp [system, withOptions]
    · intro before order p after hl
      obtain ⟨⟨recvQueue, h⟩, -⟩ := hl
      simp at h
  · intro calls b call b' hi h
    rcases next_cases hi.isOpen h with ⟨order, p, recvQueue, rfl, ho, rfl⟩ | h
    · exact hi.connect ho p recvQueue
    · exact hi.sends h

omit [Target] in
theorem Inv.getLast?_told (hi : Inv calls b) {before after : List (Call S)} {order : List Bytes}
    {p : PeerIdentity} (hl : LastConnect calls before order p after) {t : Bytes}
    (ht : (changesOf t (calls.filterMap Call.change)).getLast? = some true) :
    (changesOf t (told order after)).getLast? = some true := by
  obtain ⟨c, wire, -, -, -, ho⟩ := hi.entry before order p after hl
  obtain ⟨recvQueue, rfl⟩ := hl.split
  rw [List.filterMap_append, List.filterMap_cons_none rfl, changesOf_append,
    List.getLast?_append] at ht
  rw [told, changesOf_append, List.getLast?_append]
  cases ha : (changesOf t (after.filterMap Call.change)).getLast? with
  | some up =>
    rw [ha] at ht
    exact ht
  | none =>
    rw [ha, Option.none_or, ← ho] at ht
    rw [Option.none_or]
    exact (getLast?_changesOf_map_true t order).mpr ht

theorem mem_subscriptions_iff (pub : Publisher Unit Unit) (me : PeerIdentity) (w : Wire)
    (sent : List Message) (t : Bytes) :
    t ∈ ((pub.peerConnected me () w).hears me sent).subscriptions me ↔
      0 < tally (changesOf t (sent.filterMap subscriptionChange)) := by
  rw [Publisher.subscriptions_hears, ← count_foldl_applyToList, List.count_pos_iff]

theorem topics_iff (hi : Inv calls b) {before after : List (Call S)} {order : List Bytes}
    {p : PeerIdentity} {c : Nat} {wire : Wire} (hl : LastConnect calls before order p after)
    (hp : b.peers.lookup p = some c) (hw : b.wires[c]? = some wire) (pub : Publisher Unit Unit)
    (me : PeerIdentity) (w : Wire) :
    (((pub.peerConnected me () w).hears me wire.sent).subscriptions me).toFinset = b.subs ↔
      ∀ t, (changesOf t (calls.filterMap Call.change)).getLast? ≠ some true →
        ∀ tail, tail <:+ changesOf t (told order after) → tail.count true ≤ tail.count false := by
  obtain ⟨c', wire', hp', hw', hs, -⟩ := hi.entry before order p after hl
  obtain rfl : c = c' := Option.some.inj (hp.symm.trans hp')
  obtain rfl : wire = wire' := Option.some.inj (hw.symm.trans hw')
  rw [Finset.ext_iff]
  refine forall_congr' fun t => ?_
  rw [List.mem_toFinset, mem_subscriptions_iff, hs, hi.subs]
  by_cases ht : (changesOf t (calls.filterMap Call.change)).getLast? = some true
  · simp only [ht, iff_true, ne_eq, not_true_eq_false, false_implies]
    exact Lib.tally_pos_of_getLast? (hi.getLast?_told hl ht)
  · simp only [ht, iff_false, ne_eq, not_false_eq_true, true_implies, Nat.not_lt]
    exact Lib.tally_le_iff _ 0

/-- The calls decide whether the publishers agree with the backend. -/
theorem agrees_iff_balanced (h : (system kind).run (system kind).init calls = some b) :
    Agrees b ↔ Balanced calls := by
  have hi := inv_of_run h
  constructor
  · intro ha before order p after hl
    obtain ⟨c, wire, hp, hw, -⟩ := hi.entry before order p after hl
    let pub : Publisher Unit Unit := .pub ⟨∅, 0, none, []⟩
    exact (topics_iff hi hl hp hw pub p wire).mp (ha.topics p c wire hp hw pub p wire)
  · intro hb
    have ht : ∀ p c wire, b.peers.lookup p = some c → b.wires[c]? = some wire →
        ∀ (pub : Publisher Unit Unit) (me : PeerIdentity) (w : Wire),
          (((pub.peerConnected me () w).hears me wire.sent).subscriptions me).toFinset =
            b.subs := by
      intro p c wire hp hw pub me w
      obtain ⟨before, order, after, hl⟩ := hi.known p c hp
      exact (topics_iff hi hl hp hw pub me w).mpr (hb before order p after hl)
    refine ⟨ht, ?_⟩
    intro p c wire hp hw p' c' wire' hp' hw' pub pub' me me' w w' firstFrame
    have h := (ht p c wire hp hw pub me w).trans (ht p' c' wire' hp' hw' pub' me' w').symm
    rw [Publisher.accepts_eq_any, Publisher.accepts_eq_any, Bool.eq_iff_iff, List.any_eq_true,
      List.any_eq_true]
    simp only [← List.mem_toFinset, h]

section Example

omit [Target]

def peerA : PeerIdentity := .ofByte 1

def peerB : PeerIdentity := .ofByte 2

def subscribeRun (n : Nat) : List (Call Unit) :=
  .connect [] peerA () :: List.replicate n (.subscribe [⟨peerA, 0⟩] "a") ++
    [.unsubscribe [⟨peerA, 0⟩] "a", .connect [] peerB ()]

theorem agrees_iff_balanced_once :
    letI := Target.x64
    ∃ b : SubSocketBackend Unit Unit Unit,
      (system .sub).run (system .sub).init (subscribeRun 1) = some b ∧ b.subs = ∅ ∧
        b.peers.lookup peerA = some 0 ∧ (Agrees b ↔ Balanced (subscribeRun 1)) := by
  let _ := Target.x64
  have h : ((system .sub).run ((system .sub).init : SubSocketBackend Unit Unit Unit)
      (subscribeRun 1)).any fun b => b.subs = ∅ ∧ b.peers.lookup peerA = some 0 := by
    decide +kernel
  obtain ⟨b, hb, h⟩ := (Option.any_eq_true _ _).mp h
  obtain ⟨hs, hp⟩ := of_decide_eq_true h
  exact ⟨b, hb, hs, hp, agrees_iff_balanced hb⟩

/-- After two calls of `subscribe` and one of `unsubscribe` the first publisher
still holds the topic, which neither the backend nor the second one does. -/
theorem subscribedTwice_disagrees :
    letI := Target.x64
    let pub : Publisher Unit Unit := .pub ⟨∅, 0, none, []⟩
    let heard (wire : Wire) := (pub.peerConnected peerA () ⟨[], none⟩).hears peerA wire.sent
    ∃ (b : SubSocketBackend Unit Unit Unit) (first second : Wire),
      (system .sub).run (system .sub).init (subscribeRun 2) = some b ∧ b.subs = ∅ ∧
        b.peers.lookup peerA = some 0 ∧ b.wires[0]? = some first ∧
        b.peers.lookup peerB = some 1 ∧ b.wires[1]? = some second ∧
        (heard first).subscriptions peerA = [[97]] ∧
        (heard first).accepts peerA [97] = true ∧ (heard second).accepts peerA [97] = false ∧
        ¬ Agrees b := by
  let _ := Target.x64
  intro pub heard
  have h : ((system .sub).run ((system .sub).init : SubSocketBackend Unit Unit Unit)
      (subscribeRun 2)).any fun b => b.subs = ∅ ∧ b.peers.lookup peerA = some 0 ∧
        b.peers.lookup peerB = some 1 ∧ b.wires[0]?.any (fun first =>
          (heard first).subscriptions peerA = [[97]] ∧ (heard first).accepts peerA [97] = true) ∧
        b.wires[1]?.any (fun second => (heard second).accepts peerA [97] = false) := by
    decide +kernel
  obtain ⟨b, hb, h⟩ := (Option.any_eq_true _ _).mp h
  obtain ⟨hs, hA, hB, h₁, h₂⟩ := of_decide_eq_true h
  obtain ⟨first, hf, h₁⟩ := (Option.any_eq_true _ _).mp h₁
  obtain ⟨second, hg, h₂⟩ := (Option.any_eq_true _ _).mp h₂
  obtain ⟨ht, ha⟩ := of_decide_eq_true h₁
  refine ⟨b, first, second, hb, hs, hA, hf, hB, hg, ht, ha, of_decide_eq_true h₂, fun h => ?_⟩
  have := h.topics peerA 0 first hA hf pub peerA ⟨[], none⟩
  rw [ht, hs] at this
  exact absurd this (by decide)

end Example

end SubCalls

end ZmqRs
