import ZmqRs.SubBackend

/-! `peer_connected` of SUB and XSUB next to calls of `subscribe` and
`unsubscribe`: a change that is made and broadcast between the snapshot of a new
peer and its insertion does not reach the peer. -/

namespace ZmqRs.Connecting

open Codec (Message)
open SubSocketBackend (createSubsMessage subscriptionMessages)

inductive Stage
  | started
  | updated
  | sending (targets : List PeerEntry)

structure PendingCall where
  topic : Bytes
  msgType : SubscriptionMessageType
  stage : Stage

structure NewPeer (S : Type) where
  peerId : PeerIdentity
  recvQueue : S
  snapshot : List Bytes
  sendQueue : Wire
  rest : List ZmqMessage

/-- `subscribed` and `unsubscribed` are the topics there was a call for. -/
structure State (S W N : Type) where
  backend : SubSocketBackend S W N
  connecting : List (NewPeer S)
  calls : List PendingCall
  subscribed : List Bytes
  unsubscribed : List Bytes

inductive Action (S : Type)
  | subscribe (t : Bytes)
  | unsubscribe (t : Bytes)
  | update (k : Nat)
  | collect (k : Nat) (targets : List PeerEntry)
  | send (k : Nat)
  | finish (k : Nat)
  | snapshot (order : List Bytes) (peerId : PeerIdentity) (recvQueue : S)
  | replay (i : Nat)
  | insert (i : Nat)
  | disconnect (peerId : PeerIdentity)

variable [Target] {S W N : Type}

namespace State

def init : State S W N := ⟨.withOptions (some .new), [], [], [], []⟩

def setStage (st : State S W N) (k : Nat) (call : PendingCall) (stage : Stage) : State S W N :=
  { st with calls := st.calls.set k { call with stage := stage } }

end State

def next (st : State S W N) : Action S → Option (State S W N)
  -- A topic is subscribed at most once, and unsubscribed at most once after that.
  | .subscribe t =>
    if t ∉ st.subscribed ∧ t ∉ st.calls.map (·.topic) then
      some { st with
        calls := st.calls ++ [⟨t, .subscribe, .started⟩]
        subscribed := t :: st.subscribed }
    else none
  | .unsubscribe t =>
    if t ∈ st.subscribed ∧ t ∉ st.unsubscribed ∧ t ∉ st.calls.map (·.topic) then
      some { st with
        calls := st.calls ++ [⟨t, .unsubscribe, .started⟩]
        unsubscribed := t :: st.unsubscribed }
    else none
  | .update k =>
    match st.calls[k]? with
    | some ⟨t, msgType, .started⟩ =>
      let backend := match msgType with
        | .subscribe => st.backend.rememberSubscription t
        | .unsubscribe => st.backend.forgetSubscription t
      some ({ st with backend := backend }.setStage k ⟨t, msgType, .started⟩ .updated)
    | _ => none
  | .collect k targets =>
    match st.calls[k]? with
    | some ⟨t, msgType, .updated⟩ =>
      if targets.Perm st.backend.peers.entries then
        some (st.setStage k ⟨t, msgType, .updated⟩ (.sending targets))
      else none
    | _ => none
  | .send k =>
    match st.calls[k]? with
    | some ⟨t, msgType, .sending (⟨p, c⟩ :: targets)⟩ =>
      match sendOnWire st.backend.wires c (.message (createSubsMessage t msgType)) with
      | .ok wires =>
        some ({ st with backend := { st.backend with wires := wires } }.setStage k
          ⟨t, msgType, .sending (⟨p, c⟩ :: targets)⟩ (.sending targets))
      | .error _ => none
    | _ => none
  | .finish k =>
    match st.calls[k]? with
    | some ⟨_, _, .sending []⟩ => some { st with calls := st.calls.eraseIdx k }
    | _ => none
  | .snapshot order peerId recvQueue =>
    if st.backend.IsOrder order then
      some { st with
        connecting := st.connecting ++
          [⟨peerId, recvQueue, order, ⟨[], none⟩, subscriptionMessages order⟩] }
    else none
  | .replay i =>
    match st.connecting[i]? with
    | some ⟨peerId, recvQueue, snapshot, sendQueue, message :: rest⟩ =>
      match sendQueue.send (.message message) with
      | .ok wire =>
        some { st with
          connecting := st.connecting.set i ⟨peerId, recvQueue, snapshot, wire, rest⟩ }
      | .error _ => none
    | _ => none
  | .insert i =>
    match st.connecting[i]? with
    | some ⟨peerId, recvQueue, _, sendQueue, []⟩ =>
      some { st with
        backend := (st.backend.insertPeer peerId sendQueue).insertStream peerId recvQueue
        connecting := st.connecting.eraseIdx i }
    | _ => none
  | .disconnect peerId => some { st with backend := st.backend.peerDisconnected peerId }

def system : Lib.System (State S W N) (Action S) where
  init := .init
  next := next

def Told (sent : List Message) (t : Bytes) : Prop :=
  (changesOf t (sent.filterMap subscriptionChange)).getLast? = some true

instance (sent : List Message) (t : Bytes) : Decidable (Told sent t) :=
  inferInstanceAs (Decidable (_ = _))

/-- When a call collects its targets, a peer that is between its snapshot and its
insertion has taken the snapshot after the update of the call. -/
def Meets (st : State S W N) : Action S → Prop
  | .collect k _ => ∀ call ∈ st.calls[k]?, ∀ conn ∈ st.connecting,
    call.topic ∈ conn.snapshot ↔ call.msgType = .subscribe
  | _ => True

instance (st : State S W N) (a : Action S) : Decidable (Meets st a) :=
  match a with
  | .collect k _ =>
    inferInstanceAs (Decidable (∀ call ∈ st.calls[k]?, ∀ conn ∈ st.connecting,
      call.topic ∈ conn.snapshot ↔ call.msgType = .subscribe))
  | .subscribe _ | .unsubscribe _ | .update _ | .send _ | .finish _ | .snapshot .. | .replay _
  | .insert _ | .disconnect _ => isTrue trivial

def Stage.Owes (c : Nat) : Stage → Prop
  | .started => False
  | .updated => True
  | .sending targets => c ∈ targets.map Sigma.snd

structure Inv (st : State S W N) : Prop where
  topics : (st.calls.map (·.topic)).Nodup
  updated : ∀ call ∈ st.calls, call.stage ≠ .started →
    (call.topic ∈ st.backend.subs ↔ call.msgType = .subscribe)
  targets : ∀ call ∈ st.calls, ∀ targets, call.stage = .sending targets →
    ∀ e ∈ targets, e.2 < st.backend.wires.length
  replayed : ∀ conn ∈ st.connecting,
    conn.sendQueue.sent ++ conn.rest.map .message =
      (subscriptionMessages conn.snapshot).map .message
  snapshot : ∀ conn ∈ st.connecting, ∀ t,
    (∀ call ∈ st.calls, call.topic = t → call.stage ≠ .updated) →
      (t ∈ conn.snapshot ↔ t ∈ st.backend.subs)
  entry : ∀ p c, st.backend.peers.lookup p = some c → ∃ wire, st.backend.wires[c]? = some wire ∧
    ∀ t, (∀ call ∈ st.calls, call.topic = t → ¬ call.stage.Owes c) →
      (Told wire.sent t ↔ t ∈ st.backend.subs)

section Lemmas

omit [Target]

theorem forall_of_forall_set {α : Type} {l : List α} {k : Nat} {old new : α}
    (hk : l[k]? = some old) {Q : α → Prop} (h : ∀ x ∈ l.set k new, Q x) (ho : Q new → Q old) :
    ∀ x ∈ l, Q x := by
  intro x hx
  obtain ⟨i, hi, rfl⟩ := List.getElem_of_mem hx
  by_cases hki : k = i
  · subst hki
    obtain rfl : l[k] = old := Option.some.inj ((List.getElem?_eq_getElem hi).symm.trans hk)
    exact ho (h new (List.mem_set hi _))
  · exact h _ (List.mem_of_getElem? ((List.getElem?_set_ne hki).trans (List.getElem?_eq_getElem hi)))

theorem told_push {wire : Wire} {m : Message} {t' : Bytes} {up : Bool}
    (hm : subscriptionChange m = some (t', up)) (t : Bytes) :
    Told (wire.push m).sent t ↔ if t' = t then up = true else Told wire.sent t := by
  rw [Told, Wire.push, List.filterMap_append, List.filterMap_cons_some hm, List.filterMap_nil,
    changesOf_concat]
  split
  · simp
  · simp [Told]

theorem told_snapshot (snapshot : List Bytes) (t : Bytes) :
    Told ((subscriptionMessages snapshot).map .message) t ↔ t ∈ snapshot := by
  rw [Told, SubSocketBackend.subscriptionChange_messages]
  exact getLast?_changesOf_map_true t snapshot

theorem topics_set {calls : List PendingCall} {k : Nat} {call : PendingCall}
    (hk : calls[k]? = some call) (stage : Stage) :
    (calls.set k { call with stage := stage }).map (·.topic) = calls.map (·.topic) :=
  Lib.map_set_of_getElem? _ hk rfl

theorem forall_of_forall_eraseIdx {α : Type} {l : List α} {k : Nat} {old : α}
    (hk : l[k]? = some old) {Q : α → Prop} (h : ∀ x ∈ l.eraseIdx k, Q x) (ho : Q old) :
    ∀ x ∈ l, Q x := by
  intro x hx
  obtain ⟨i, hi⟩ := List.mem_iff_getElem?.mp hx
  by_cases hki : i = k
  · subst hki
    rwa [Option.some.inj (hi.symm.trans hk)]
  · exact h x (List.mem_eraseIdx_iff_getElem?.mpr ⟨i, hki, hi⟩)

theorem subscriptionChange_createSubsMessage (t : Bytes) (msgType : SubscriptionMessageType) :
    subscriptionChange (.message (createSubsMessage t msgType)) =
      some (t, decide (msgType = .subscribe)) := by
  cases msgType <;> rfl

end Lemmas

variable {st st' : State S W N}

namespace Inv

omit [Target] in
theorem start (hi : Inv st) {t : Bytes} (ht : t ∉ st.calls.map (·.topic))
    (msgType : SubscriptionMessageType) (subscribed unsubscribed : List Bytes) :
    Inv { st with
      calls := st.calls ++ [⟨t, msgType, .started⟩]
      subscribed := subscribed
      unsubscribed := unsubscribed } := by
  refine ⟨?_, ?_, ?_, hi.replayed, ?_, ?_⟩
  · rw [List.map_append, List.map_singleton, ← List.concat_eq_append]
    exact hi.topics.concat ht
  · intro call hc hs
    cases List.mem_append.mp hc with
    | inl hc =>
      exact hi.updated call hc hs
    | inr hc =>
      obtain rfl := List.mem_singleton.mp hc
      exact absurd rfl hs
  · intro call hc targets hs
    cases List.mem_append.mp hc with
    | inl hc =>
      exact hi.targets call hc targets hs
    | inr hc =>
      obtain rfl := List.mem_singleton.mp hc
      cases hs
  · intro conn hc t' h
    exact hi.snapshot conn hc t' fun call hc => h call (List.mem_append_left _ hc)
  · intro p c hp
    obtain ⟨wire, hw, hw'⟩ := hi.entry p c hp
    exact ⟨wire, hw, fun t' h => hw' t' fun call hc => h call (List.mem_append_left _ hc)⟩

omit [Target] in
theorem update (hi : Inv st) {k : Nat} {t : Bytes} {msgType : SubscriptionMessageType}
    (hk : st.calls[k]? = some ⟨t, msgType, .started⟩) {subs : Finset Bytes}
    (hs : t ∈ subs ↔ msgType = .subscribe) (hn : ∀ t' ≠ t, t' ∈ subs ↔ t' ∈ st.backend.subs) :
    Inv ({ st with backend := { st.backend with subs := subs } }.setStage k
      ⟨t, msgType, .started⟩ .updated) := by
  have hset := List.mem_set (List.getElem?_eq_some_iff.mp hk).1 (⟨t, msgType, .updated⟩ : PendingCall)
  -- only the topic of the call changes, and for it nothing is promised now
  have hother : ∀ {Q : Stage → Prop}, ¬ Q .updated → ∀ t',
      (∀ call ∈ st.calls.set k ⟨t, msgType, .updated⟩, call.topic = t' → Q call.stage) →
        t' ≠ t ∧ ∀ call ∈ st.calls, call.topic = t' → Q call.stage := by
    intro Q hq t' h
    have ht : t ≠ t' := fun ht => hq (h _ hset ht)
    exact ⟨ht.symm, forall_of_forall_set hk h fun _ ht' => absurd ht' ht⟩
  have htopics : ((st.calls.set k ⟨t, msgType, .updated⟩).map (·.topic)).Nodup := by
    have := topics_set hk .updated
    simp only at this
    rw [this]
    exact hi.topics
  refine ⟨htopics, ?_, ?_, hi.replayed, ?_, ?_⟩
  · intro call hc hst
    by_cases ht : call.topic = t
    · obtain rfl := List.inj_on_of_nodup_map htopics hc hset ht
      exact hs
    · rcases List.mem_or_eq_of_mem_set hc with hc | rfl
      · exact (hn _ ht).trans (hi.updated call hc hst)
      · exact absurd rfl ht
  · intro call hc targets hst
    rcases List.mem_or_eq_of_mem_set hc with hc | rfl
    · exact hi.targets call hc targets hst
    · cases hst
  · intro conn hc t' h
    obtain ⟨ht, h⟩ := hother (Q := (· ≠ .updated)) (by simp) t' h
    exact (hi.snapshot conn hc t' h).trans (hn t' ht).symm
  · intro p c hp
    obtain ⟨wire, hw, hw'⟩ := hi.entry p c hp
    refine ⟨wire, hw, fun t' h => ?_⟩
    obtain ⟨ht, h⟩ := hother (Q := (¬ ·.Owes c)) (by simp [Stage.Owes]) t' h
    exact (hw' t' h).trans (hn t' ht).symm

omit [Target] in
theorem collect (hi : Inv st) {k : Nat} {t : Bytes} {msgType : SubscriptionMessageType}
    {targets : List PeerEntry} (hk : st.calls[k]? = some ⟨t, msgType, .updated⟩)
    (hp : targets.Perm st.backend.peers.entries)
    (hm : ∀ conn ∈ st.connecting, t ∈ conn.snapshot ↔ msgType = .subscribe) :
    Inv (st.setStage k ⟨t, msgType, .updated⟩ (.sending targets)) := by
  have hu := hi.updated _ (List.mem_of_getElem? hk) (by simp)
  have hset := List.mem_set (List.getElem?_eq_some_iff.mp hk).1
    (⟨t, msgType, .sending targets⟩ : PendingCall)
  refine ⟨?_, ?_, ?_, hi.replayed, ?_, ?_⟩
  · exact (topics_set hk _).symm ▸ hi.topics
  · intro call hc hst
    rcases List.mem_or_eq_of_mem_set hc with hc | rfl
    · exact hi.updated call hc hst
    · exact hu
  · intro call hc targets' hst e he
    rcases List.mem_or_eq_of_mem_set hc with hc | rfl
    · exact hi.targets call hc targets' hst e he
    · obtain rfl : targets = targets' := Stage.sending.inj hst
      obtain ⟨wire, hw, -⟩ := hi.entry e.1 e.2 (AList.mem_lookup_iff.mpr (hp.mem_iff.mp he))
      exact (List.getElem?_eq_some_iff.mp hw).1
  · intro conn hc t' h
    by_cases ht : t = t'
    · subst ht
      exact (hm conn hc).trans hu.symm
    · exact hi.snapshot conn hc t' (forall_of_forall_set hk h fun _ ht' => absurd ht' ht)
  · intro p c hpc
    obtain ⟨wire, hw, hw'⟩ := hi.entry p c hpc
    refine ⟨wire, hw, fun t' h => hw' t' (forall_of_forall_set hk h fun _ ht => ?_)⟩
    have hc : c ∈ targets.map Sigma.snd :=
      List.mem_map.mpr ⟨⟨p, c⟩, hp.mem_iff.mpr (AList.mem_lookup_iff.mp hpc), rfl⟩
    exact absurd hc (h _ hset ht)

omit [Target] in
theorem send (hi : Inv st) {k : Nat} {t : Bytes} {msgType : SubscriptionMessageType}
    {target : PeerEntry} {targets : List PeerEntry}
    (hk : st.calls[k]? = some ⟨t, msgType, .sending (target :: targets)⟩) :
    Inv ({ st with
      backend := { st.backend with
        wires := st.backend.wires.modify target.2
          (·.push (.message (createSubsMessage t msgType))) } }.setStage k
      ⟨t, msgType, .sending (target :: targets)⟩ (.sending targets)) := by
  have hu := hi.updated _ (List.mem_of_getElem? hk) (by simp)
  refine ⟨?_, ?_, ?_, hi.replayed, ?_, ?_⟩
  · exact (topics_set hk _).symm ▸ hi.topics
  · intro call hc hst
    rcases List.mem_or_eq_of_mem_set hc with hc | rfl
    · exact hi.updated call hc hst
    · exact hu
  · intro call hc targets' hst e he
    change e.2 < (st.backend.wires.modify _ _).length
    rw [List.length_modify]
    rcases List.mem_or_eq_of_mem_set hc with hc | rfl
    · exact hi.targets call hc targets' hst e he
    · obtain rfl : targets = targets' := Stage.sending.inj hst
      exact hi.targets _ (List.mem_of_getElem? hk) _ rfl e (List.mem_cons_of_mem _ he)
  · intro conn hc t' h
    exact hi.snapshot conn hc t' (forall_of_forall_set hk h fun _ _ => by simp)
  · intro p c hpc
    obtain ⟨wire, hw, hw'⟩ := hi.entry p c hpc
    by_cases hc : target.2 = c
    · subst hc
      refine ⟨wire.push (.message (createSubsMessage t msgType)), ?_, fun t' h => ?_⟩
      · exact (List.getElem?_modify_eq _ _ _).trans (congrArg (Option.map _) hw)
      · rw [told_push (subscriptionChange_createSubsMessage t msgType)]
        split
        · rename_i ht
          subst ht
          exact decide_eq_true_iff.trans hu.symm
        · rename_i ht
          exact hw' t' (forall_of_forall_set hk h fun _ ht' => absurd ht' ht)
    · refine ⟨wire, (List.getElem?_modify_ne _ _ hc).trans hw, fun t' h => ?_⟩
      refine hw' t' (forall_of_forall_set hk h fun hn ht => ?_)
      simp only [Stage.Owes, List.map_cons, List.mem_cons, not_or]
      exact ⟨Ne.symm hc, hn ht⟩

omit [Target] in
theorem finish (hi : Inv st) {k : Nat} {t : Bytes} {msgType : SubscriptionMessageType}
    (hk : st.calls[k]? = some ⟨t, msgType, .sending []⟩) :
    Inv { st with calls := st.calls.eraseIdx k } := by
  refine ⟨?_, ?_, ?_, hi.replayed, ?_, ?_⟩
  · exact hi.topics.sublist ((List.eraseIdx_sublist _ _).map _)
  · exact fun call hc => hi.updated call (List.mem_of_mem_eraseIdx hc)
  · exact fun call hc => hi.targets call (List.mem_of_mem_eraseIdx hc)
  · intro conn hc t' h
    exact hi.snapshot conn hc t' (forall_of_forall_eraseIdx hk h fun _ => by simp)
  · intro p c hp
    obtain ⟨wire, hw, hw'⟩ := hi.entry p c hp
    refine ⟨wire, hw, fun t' h => hw' t' (forall_of_forall_eraseIdx hk h fun _ => ?_)⟩
    simp [Stage.Owes]

omit [Target] in
theorem takeSnapshot (hi : Inv st) {order : List Bytes} (ho : st.backend.IsOrder order)
    (peerId : PeerIdentity) (recvQueue : S) :
    Inv { st with
      connecting := st.connecting ++
        [⟨peerId, recvQueue, order, ⟨[], none⟩, subscriptionMessages order⟩] } := by
  refine ⟨hi.topics, hi.updated, hi.targets, ?_, ?_, hi.entry⟩
  · intro conn hc
    cases List.mem_append.mp hc with
    | inl hc =>
      exact hi.replayed conn hc
    | inr hc =>
      rw [List.mem_singleton.mp hc]
      rfl
  · intro conn hc t h
    cases List.mem_append.mp hc with
    | inl hc =>
      exact hi.snapshot conn hc t h
    | inr hc =>
      rw [List.mem_singleton.mp hc, ← ho.2, List.mem_toFinset]

omit [Target] in
theorem replay (hi : Inv st) {i : Nat} {peerId : PeerIdentity} {recvQueue : S}
    {snapshot : List Bytes} {wire : Wire} {message : ZmqMessage} {rest : List ZmqMessage}
    (hc : st.connecting[i]? = some ⟨peerId, recvQueue, snapshot, wire, message :: rest⟩) :
    Inv { st with
      connecting := st.connecting.set i
        ⟨peerId, recvQueue, snapshot, wire.push (.message message), rest⟩ } := by
  have hmem := List.mem_of_getElem? hc
  refine ⟨hi.topics, hi.updated, hi.targets, ?_, ?_, hi.entry⟩
  · intro conn hc
    rcases List.mem_or_eq_of_mem_set hc with hc | rfl
    · exact hi.replayed conn hc
    · rw [← hi.replayed _ hmem]
      simp [Wire.push]
  · intro conn hc
    rcases List.mem_or_eq_of_mem_set hc with hc | rfl
    · exact hi.snapshot conn hc
    · exact fun t => hi.snapshot _ hmem t

theorem insert (hi : Inv st) {i : Nat} {peerId : PeerIdentity} {recvQueue : S}
    {snapshot : List Bytes} {wire : Wire}
    (hc : st.connecting[i]? = some ⟨peerId, recvQueue, snapshot, wire, []⟩) :
    Inv { st with
      backend := (st.backend.insertPeer peerId wire).insertStream peerId recvQueue
      connecting := st.connecting.eraseIdx i } := by
  have hmem := List.mem_of_getElem? hc
  refine ⟨hi.topics, hi.updated, ?_, ?_, ?_, ?_⟩
  · intro call hcall targets hs e he
    refine Nat.lt_of_lt_of_le (hi.targets call hcall targets hs e he) ?_
    simp [SubSocketBackend.insertStream, SubSocketBackend.insertPeer]
  · exact fun conn hc => hi.replayed conn (List.mem_of_mem_eraseIdx hc)
  · exact fun conn hc => hi.snapshot conn (List.mem_of_mem_eraseIdx hc)
  · intro p c hp
    simp only [SubSocketBackend.insertStream, SubSocketBackend.insertPeer] at hp ⊢
    by_cases h : p = peerId
    · subst h
      obtain rfl : st.backend.wires.length = c := by simpa using hp
      refine ⟨wire, List.getElem?_concat_length, fun t h => ?_⟩
      have hs := hi.replayed _ hmem
      simp only [List.map_nil, List.append_nil] at hs
      rw [hs, told_snapshot]
      refine hi.snapshot _ hmem t fun call hcall ht hu => ?_
      exact h call hcall ht (by simp [hu, Stage.Owes])
    · rw [AList.lookup_insert_ne h] at hp
      obtain ⟨wire', hw, hw'⟩ := hi.entry p c hp
      refine ⟨wire', ?_, hw'⟩
      rw [List.getElem?_append_left (List.getElem?_eq_some_iff.mp hw).1, hw]

omit [Target] in
theorem disconnect (hi : Inv st) (peerId : PeerIdentity) :
    Inv { st with backend := st.backend.peerDisconnected peerId } := by
  refine ⟨hi.topics, hi.updated, hi.targets, hi.replayed, hi.snapshot, ?_⟩
  intro p c hp
  refine hi.entry p c ?_
  simp only [SubSocketBackend.peerDisconnected] at hp
  by_cases h : p = peerId
  · subst h
    simp at hp
  · rwa [AList.lookup_erase_ne h] at hp

end Inv

omit [Target] in
theorem sendOnWire_eq_ok {wires wires' : List Wire} {c : Nat} {m : Message}
    (h : sendOnWire wires c m = .ok wires') : wires' = wires.modify c (·.push m) := by
  rw [sendOnWire] at h
  split at h
  · rename_i hc
    rw [List.modify_eq_self (List.getElem?_eq_none_iff.mp hc), Except.ok.inj h]
  · rename_i wire hc
    obtain ⟨hl, rfl⟩ := List.getElem?_eq_some_iff.mp hc
    cases hw : wires[c].send m with
    | error e =>
      rw [hw] at h
      cases h
    | ok w =>
      rw [hw] at h
      rw [List.modify_eq_set_get _ hl, ← Except.ok.inj h, Wire.eq_push_of_send hw]
      rfl

omit [Target] in
theorem inv_init : Inv (State.init : State S W N) := by
  refine ⟨by simp [State.init], by simp [State.init], by simp [State.init], by simp [State.init],
    by simp [State.init], ?_⟩
  simp [State.init, SubSocketBackend.withOptions]

theorem inv_next (hi : Inv st) {a : Action S} (hm : Meets st a) (h : next st a = some st') :
    Inv st' := by
  cases a with
  | subscribe t =>
    simp only [next] at h
    split at h
    · rename_i ht
      cases h
      exact hi.start ht.2 _ _ _
    · cases h
  | unsubscribe t =>
    simp only [next] at h
    split at h
    · rename_i ht
      cases h
      exact hi.start ht.2.2 _ _ _
    · cases h
  | update k =>
    simp only [next] at h
    split at h
    · rename_i t msgType hk
      cases h
      cases msgType with
      | subscribe =>
        exact hi.update hk (by simp) fun t' ht => by simp [ht]
      | unsubscribe =>
        exact hi.update hk (by simp) fun t' ht => by simp [ht]
    · cases h
  | collect k targets =>
    simp only [next] at h
    split at h
    · rename_i t msgType hk
      split at h
      · rename_i hp
        cases h
        exact hi.collect hk hp (hm _ hk)
      · cases h
    · cases h
  | send k =>
    simp only [next] at h
    split at h
    · rename_i t msgType p c targets hk
      split at h
      · rename_i wires hw
        cases h
        obtain rfl := sendOnWire_eq_ok hw
        exact hi.send hk
      · cases h
    · cases h
  | finish k =>
    simp only [next] at h
    split at h
    · rename_i hk
      cases h
      exact hi.finish hk
    · cases h
  | snapshot order peerId recvQueue =>
    simp only [next] at h
    split at h
    · rename_i ho
      cases h
      exact hi.takeSnapshot ho peerId recvQueue
    · cases h
  | replay i =>
    simp only [next] at h
    split at h
    · rename_i hc
      split at h
      · rename_i hw
        cases h
        obtain rfl := Wire.eq_push_of_send hw
        exact hi.replay hc
      · cases h
    · cases h
  | insert i =>
    simp only [next] at h
    split at h
    · rename_i hc
      cases h
      exact hi.insert hc
    · cases h
  | disconnect peerId =>
    cases h
    exact hi.disconnect peerId

/-- In the runs that meet the condition, once the calls have finished every peer
in the table has been told what the backend holds. -/
theorem told_iff_mem_subs (h : (system.guarded Meets).Reachable st) (hcalls : st.calls = [])
    {p : PeerIdentity} {c : Nat} (hp : st.backend.peers.lookup p = some c) :
    ∃ wire, st.backend.wires[c]? = some wire ∧ ∀ t, Told wire.sent t ↔ t ∈ st.backend.subs := by
  have hi : Inv st := h.invariant_guarded inv_init fun _ _ _ hm hi => inv_next hi hm
  obtain ⟨wire, hw, ht⟩ := hi.entry p c hp
  exact ⟨wire, hw, fun t => ht t (by simp [hcalls])⟩

omit [Target] in
theorem told_iff_mem_subs_overlapping :
    letI := Target.x64
    let p : PeerIdentity := .ofByte 9
    ∃ (st : State Unit Unit Unit) (wire : Wire),
      (system.guarded Meets).run State.init
        [.subscribe [97], .update 0, .snapshot [[97]] p (), .collect 0 [], .finish 0, .replay 0,
          .insert 0] = some st ∧
      st.calls = [] ∧ st.backend.peers.lookup p = some 0 ∧ st.backend.wires[0]? = some wire ∧
      st.backend.subs = {[97]} ∧ ∀ t, Told wire.sent t ↔ t ∈ st.backend.subs := by
  let _ := Target.x64
  intro p
  have h : ((system.guarded Meets).run (State.init : State Unit Unit Unit)
      [.subscribe [97], .update 0, .snapshot [[97]] p (), .collect 0 [], .finish 0, .replay 0,
        .insert 0]).any fun st => st.calls.isEmpty ∧ st.backend.peers.lookup p = some 0 ∧
          st.backend.subs = {[97]} := by
    decide +kernel
  obtain ⟨st, hst, h⟩ := (Option.any_eq_true _ _).mp h
  obtain ⟨hc, hp, hs⟩ := of_decide_eq_true h
  have hc := List.isEmpty_iff.mp hc
  obtain ⟨wire, hw, ht⟩ := told_iff_mem_subs ⟨_, hst⟩ hc hp
  exact ⟨st, wire, hst, hc, hp, hw, hs, ht⟩

omit [Target] in
/-- A call that updates and collects between the snapshot and the insertion. -/
theorem subscription_lost :
    letI := Target.x64
    let p : PeerIdentity := .ofByte 9
    ∃ (st : State Unit Unit Unit) (wire : Wire),
      system.run State.init
        [.snapshot [] p (), .subscribe [97], .update 0, .collect 0 [], .finish 0, .insert 0] =
          some st ∧
      st.calls = [] ∧ st.connecting = [] ∧ st.backend.peers.lookup p = some 0 ∧
      st.backend.wires[0]? = some wire ∧ [97] ∈ st.backend.subs ∧ ¬ Told wire.sent [97] := by
  let _ := Target.x64
  exact ⟨_, _, rfl, rfl, rfl, rfl, rfl, by decide, by decide⟩

end ZmqRs.Connecting
