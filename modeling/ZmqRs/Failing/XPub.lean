import ZmqRs.Failing

/-! XPUB and its subscribers, whose connections may fail. -/

namespace ZmqRs.Failing

open Codec (Message)

/-- `recvError` is a `recv` that returns an error of `p`, and at `fail` the connection of `p`
fails. -/
inductive XPubAction (S : Type)
  | connect (p : PeerIdentity) (recvQueue : S)
  | recv (p : PeerIdentity) (m : ZmqMessage)
  | recvError (p : PeerIdentity)
  | fail (p : PeerIdentity) (e : IoError)
  | send (order : List (Sigma fun _ : PeerIdentity => Subscriber)) (m : ZmqMessage)

variable {S W : Type}

section Defs

variable [Target]

def xpubNext (b : XPubSocketBackend S W) : XPubAction S → Option (XPubSocketBackend S W)
  | .connect p recvQueue => some (b.peerConnected p recvQueue ⟨[], none⟩)
  | .recv p m => some (b.messageReceived p (.message m))
  | .recvError p => some (b.peerDisconnected p)
  | .fail p e =>
    (b.subscribers.lookup p).map fun s => { b with wires := b.wires.modify s.sendQueue (·.fail e) }
  | .send order m =>
    if order.Perm b.subscribers.entries then some (XPubSocket.send b order m).2 else none

def xpubSystem : Lib.System (XPubSocketBackend S W) (XPubAction S) where
  init := ⟨∅, .new, []⟩
  next := xpubNext

end Defs

inductive Event
  | connect
  | recv (m : ZmqMessage)
  | recvError
  | fail (e : IoError)
  | send (m : ZmqMessage)

def Event.step : Option (List Bytes × Wire) → Event → Option (List Bytes × Wire)
  | _, .connect => some ([], ⟨[], none⟩)
  | subscriber, .recv m =>
    subscriber.map fun (subscriptions, wire) =>
      match subscriptionChange (.message m) with
      | some change => (applyToList subscriptions change, wire)
      | none => (subscriptions, wire)
  | _, .recvError => none
  | subscriber, .fail e =>
    subscriber.map fun (subscriptions, wire) => (subscriptions, wire.fail e)
  | subscriber, .send m =>
    subscriber.bind fun (subscriptions, wire) =>
      if (m.get 0).any fun frame => subscriptions.any (·.isPrefixOf frame) then
        (wire.served (.message m)).map (subscriptions, ·)
      else some (subscriptions, wire)

def XPubAction.event (p : PeerIdentity) : XPubAction S → Option Event
  | .connect q _ => if q = p then some .connect else none
  | .recv q m => if q = p then some (.recv m) else none
  | .recvError q => if q = p then some .recvError else none
  | .fail q e => if q = p then some (.fail e) else none
  | .send _ m => some (.send m)

def subscriberOf (b : XPubSocketBackend S W) (p : PeerIdentity) : Option (List Bytes × Wire) :=
  (b.subscribers.lookup p).bind fun s => b.wires[s.sendQueue]?.map (s.subscriptions, ·)

def xpubConn (b : XPubSocketBackend S W) (p : PeerIdentity) : Option Nat :=
  (b.subscribers.lookup p).map Subscriber.sendQueue

section XPub

variable {b b' : XPubSocketBackend S W}

theorem subscriberOf_eq (b : XPubSocketBackend S W) (p : PeerIdentity) :
    subscriberOf b p = (b.subscribers.lookup p).bind fun s =>
      (wireOf (xpubConn b) b.wires p).map (s.subscriptions, ·) := by
  rw [subscriberOf, wireOf, xpubConn]
  cases b.subscribers.lookup p <;> rfl

theorem lookup_messageReceived (subscribers : Subscribers) (q p : PeerIdentity) (m : Message) :
    (subscribers.messageReceived q m).lookup p =
      if q = p then (subscribers.lookup p).map fun s => { s with
        subscriptions := match subscriptionChange m with
          | some change => applyToList s.subscriptions change
          | none => s.subscriptions }
      else subscribers.lookup p := by
  rw [Subscribers.messageReceived_eq]
  cases subscriptionChange m with
  | none => simp
  | some change =>
    simp only [Subscribers.modify]
    by_cases hq : q = p
    · subst hq
      cases hl : subscribers.lookup q with
      | none => simp [hl]
      | some s => simp [AList.lookup_insert]
    · cases hl : subscribers.lookup q with
      | none => simp [hq]
      | some s => simp [hq, AList.lookup_insert_ne (Ne.symm hq)]

structure XPubStep (b b' : XPubSocketBackend S W) (a : XPubAction S) : Prop where
  owned : Owned (xpubConn b') b'.wires
  each : ∀ p, subscriberOf b' p = (a.event p).toList.foldl Event.step (subscriberOf b p)

theorem xpubStep_connect [Target] (h : Owned (xpubConn b) b.wires) (q : PeerIdentity)
    (recvQueue : S) :
    XPubStep b (b.peerConnected q recvQueue ⟨[], none⟩) (.connect q recvQueue) := by
  have hconn : xpubConn (b.peerConnected q recvQueue ⟨[], none⟩) =
      Function.update (xpubConn b) q (some b.wires.length) := by
    funext p
    rw [Function.update_apply, xpubConn, XPubSocketBackend.peerConnected]
    split
    · rename_i hp
      rw [hp, AList.lookup_insert]
      rfl
    · rename_i hp
      rw [AList.lookup_insert_ne hp]
      rfl
  constructor
  · rw [hconn]
    exact h.connect q rfl
  · intro p
    have hwire := h.wireOf_connect q ⟨[], none⟩ p
    rw [subscriberOf_eq, subscriberOf_eq, hconn]
    rw [XPubSocketBackend.peerConnected]
    by_cases hp : p = q
    · subst hp
      rw [hwire, if_pos rfl, AList.lookup_insert]
      simp [XPubAction.event, Event.step]
    · rw [hwire, if_neg hp, AList.lookup_insert_ne hp]
      simp [XPubAction.event, Ne.symm hp]

theorem xpubStep_recv (h : Owned (xpubConn b) b.wires) (q : PeerIdentity) (m : ZmqMessage) :
    XPubStep b (b.messageReceived q (.message m)) (.recv q m : XPubAction S) := by
  have hconn : xpubConn (b.messageReceived q (.message m)) = xpubConn b := by
    funext p
    rw [xpubConn, xpubConn, XPubSocketBackend.messageReceived, lookup_messageReceived]
    split
    · rw [Option.map_map]
      rfl
    · rfl
  constructor
  · rw [hconn]
    exact h
  · intro p
    rw [subscriberOf_eq, subscriberOf_eq, hconn]
    rw [XPubSocketBackend.messageReceived, lookup_messageReceived]
    by_cases hp : q = p
    · subst hp
      cases b.subscribers.lookup q with
      | none => simp [XPubAction.event, Event.step]
      | some s =>
        cases hw : wireOf (xpubConn b) b.wires q with
        | none => simp [XPubAction.event, Event.step]
        | some w => cases hc : subscriptionChange (.message m) <;>
            simp [XPubAction.event, Event.step, hc]
    · simp [XPubAction.event, hp]

theorem lookup_disconnected (peers : List PeerIdentity) (b : XPubSocketBackend S W)
    (p : PeerIdentity) :
    (peers.foldl XPubSocketBackend.peerDisconnected b).subscribers.lookup p =
      if p ∈ peers then none else b.subscribers.lookup p := by
  induction peers generalizing b with
  | nil => simp
  | cons q peers ih =>
    rw [List.foldl_cons, ih, XPubSocketBackend.peerDisconnected]
    by_cases hp : p = q
    · subst hp
      simp [AList.lookup_erase]
    · simp [hp, AList.lookup_erase_ne hp]

theorem wires_disconnected (peers : List PeerIdentity) (b : XPubSocketBackend S W) :
    (peers.foldl XPubSocketBackend.peerDisconnected b).wires = b.wires := by
  induction peers generalizing b with
  | nil => rfl
  | cons q peers ih => exact ih _

theorem xpubConn_disconnected (peers : List PeerIdentity) (b : XPubSocketBackend S W)
    (p : PeerIdentity) :
    xpubConn (peers.foldl XPubSocketBackend.peerDisconnected b) p =
      if p ∈ peers then none else xpubConn b p := by
  rw [xpubConn, lookup_disconnected, xpubConn]
  split <;> rfl

theorem xpubStep_recvError (h : Owned (xpubConn b) b.wires) (q : PeerIdentity) :
    XPubStep b (b.peerDisconnected q) (.recvError q : XPubAction S) := by
  have hconn := xpubConn_disconnected [q] b
  change ∀ p, xpubConn (b.peerDisconnected q) p = _ at hconn
  constructor
  · refine h.narrow fun p c hp => ?_
    rw [hconn] at hp
    split at hp
    · cases hp
    · exact hp
  · intro p
    have hl := lookup_disconnected [q] b p
    change (b.peerDisconnected q).subscribers.lookup p = _ at hl
    rw [subscriberOf, hl, subscriberOf]
    by_cases hp : q = p
    · subst hp
      simp [XPubAction.event, Event.step]
    · simp [XPubAction.event, hp, Ne.symm hp, XPubSocketBackend.peerDisconnected]

theorem xpubStep_fail (h : Owned (xpubConn b) b.wires) {q : PeerIdentity} {s : Subscriber}
    (hl : b.subscribers.lookup q = some s) (e : IoError) :
    XPubStep b { b with wires := b.wires.modify s.sendQueue (·.fail e) }
      (.fail q e : XPubAction S) := by
  have hq : xpubConn b q = some s.sendQueue := by rw [xpubConn, hl]; rfl
  constructor
  · exact h.modify s.sendQueue fun w e' he => failure_fail he
  · intro p
    have hwire := h.wireOf_modify hq (·.fail e) p
    rw [subscriberOf_eq, subscriberOf_eq]
    change ((b.subscribers.lookup p).bind fun s' =>
      (wireOf (xpubConn b) (b.wires.modify s.sendQueue (·.fail e)) p).map _) = _
    rw [hwire]
    by_cases hp : p = q
    · subst hp
      rw [if_pos rfl]
      cases hw : wireOf (xpubConn b) b.wires p <;> simp [hl, XPubAction.event, Event.step]
    · simp [XPubAction.event, hp, Ne.symm hp]

def targetsOf (order : List (Sigma fun _ : PeerIdentity => Subscriber)) (frame : Bytes) :
    List PeerEntry :=
  (order.filter fun entry => XPubSocketBackend.selects entry.2.subscriptions frame).map
    fun entry => ⟨entry.1, entry.2.sendQueue⟩

theorem send_eq (h : Owned (xpubConn b) b.wires)
    (order : List (Sigma fun _ : PeerIdentity => Subscriber)) {m : ZmqMessage} {frame : Bytes}
    (hm : m.get 0 = some frame) :
    XPubSocket.send b order m =
      (.ok (), (deadOf b.wires (targetsOf order frame)).foldl XPubSocketBackend.peerDisconnected
        { b with
          wires := attemptAll (.message m) ((targetsOf order frame).map Sigma.snd) b.wires }) := by
  simp only [XPubSocket.send, hm]
  rw [fanoutLoop_eq m _ h.io]
  rfl

theorem lookup_of_mem {order : List (Sigma fun _ : PeerIdentity => Subscriber)}
    (ho : order.Perm b.subscribers.entries) {entry : Sigma fun _ : PeerIdentity => Subscriber}
    (he : entry ∈ order) : b.subscribers.lookup entry.1 = some entry.2 :=
  AList.mem_lookup_iff.mpr (ho.mem_iff.mp he)

theorem conn_of_mem_targets {order : List (Sigma fun _ : PeerIdentity => Subscriber)}
    (ho : order.Perm b.subscribers.entries) {frame : Bytes} {target : PeerEntry}
    (ht : target ∈ targetsOf order frame) : xpubConn b target.1 = some target.2 := by
  obtain ⟨entry, he, rfl⟩ := List.mem_map.mp ht
  rw [xpubConn, lookup_of_mem ho (List.mem_filter.mp he).1]
  rfl

theorem nodup_targetsOf {order : List (Sigma fun _ : PeerIdentity => Subscriber)}
    (ho : order.Perm b.subscribers.entries) (frame : Bytes) : (targetsOf order frame).Nodup := by
  refine List.Nodup.map_on ?_ (((ho.nodup_iff).mpr b.subscribers.nodupKeys.nodup).filter _)
  intro entry he entry' he' heq
  have hkey : entry.1 = entry'.1 := congrArg (Sigma.fst : PeerEntry → PeerIdentity) heq
  have hl := lookup_of_mem ho (List.mem_filter.mp he).1
  rw [hkey, lookup_of_mem ho (List.mem_filter.mp he').1] at hl
  exact Sigma.ext hkey (heq_of_eq (Option.some.inj hl).symm)

theorem mem_targetsOf {order : List (Sigma fun _ : PeerIdentity => Subscriber)}
    (ho : order.Perm b.subscribers.entries) (frame : Bytes) {p : PeerIdentity} {s : Subscriber}
    (hl : b.subscribers.lookup p = some s) :
    p ∈ (targetsOf order frame).map Sigma.fst ↔
      s.subscriptions.any (·.isPrefixOf frame) = true := by
  have hselects : XPubSocketBackend.selects s.subscriptions frame = true ↔
      s.subscriptions.any (·.isPrefixOf frame) = true := by
    rw [XPubSocketBackend.selects, any_filterMatches]
    simp
  rw [← hselects, List.mem_map]
  constructor
  · rintro ⟨target, ht, rfl⟩
    obtain ⟨entry, he, rfl⟩ := List.mem_map.mp ht
    obtain ⟨he, hsel⟩ := List.mem_filter.mp he
    obtain rfl : s = entry.2 := Option.some.inj (hl.symm.trans (lookup_of_mem ho he))
    exact hsel
  · intro hsel
    refine ⟨⟨p, s.sendQueue⟩, List.mem_map.mpr ⟨⟨p, s⟩, List.mem_filter.mpr ⟨?_, hsel⟩, rfl⟩, rfl⟩
    exact ho.mem_iff.mpr (AList.mem_lookup_iff.mp hl)

theorem xpubStep_send (h : Owned (xpubConn b) b.wires)
    {order : List (Sigma fun _ : PeerIdentity => Subscriber)}
    (ho : order.Perm b.subscribers.entries) (m : ZmqMessage) :
    XPubStep b (XPubSocket.send b order m).2 (.send order m : XPubAction S) := by
  cases hm : m.get 0 with
  | none =>
    have hsend : XPubSocket.send b order m = (.ok (), b) := by simp only [XPubSocket.send, hm]
    rw [hsend]
    refine ⟨h, fun p => ?_⟩
    simp [XPubAction.event, Event.step, hm]
  | some frame =>
    rw [send_eq h order hm]
    have hconn := xpubConn_disconnected (deadOf b.wires (targetsOf order frame))
      { b with wires := attemptAll (.message m) ((targetsOf order frame).map Sigma.snd) b.wires }
    constructor
    · rw [wires_disconnected]
      refine (h.attemptAll _ _).narrow fun p c hp => ?_
      rw [hconn] at hp
      split at hp
      · cases hp
      · exact hp
    · intro p
      have hserved := h.wireOf_served (nodup_targetsOf ho frame)
        (fun target ht => conn_of_mem_targets ho ht) (.message m) p (hconn p)
      rw [subscriberOf_eq, subscriberOf_eq, wires_disconnected, lookup_disconnected]
      cases hl : b.subscribers.lookup p with
      | none => simp [XPubAction.event, Event.step]
      | some s =>
        simp only [mem_targetsOf ho frame hl] at hserved
        have hleft : ∀ wire : Option Wire,
            (p ∈ deadOf b.wires (targetsOf order frame) → wire = none) →
            ((if p ∈ deadOf b.wires (targetsOf order frame) then none else some s).bind fun s =>
              wire.map (s.subscriptions, ·)) = wire.map (s.subscriptions, ·) := by
          intro wire hwire
          split
          · rename_i hp
            rw [hwire hp]
            rfl
          · rfl
        -- of a dead peer the send leaves no connection
        rw [hleft _ fun hp => by rw [wireOf, hconn, if_pos hp, Option.bind_none], hserved]
        cases wireOf (xpubConn b) b.wires p with
        | none => simp [XPubAction.event, Event.step]
        | some w =>
          simp only [XPubAction.event, Option.toList_some, List.foldl_cons, List.foldl_nil,
            Event.step, Option.bind_some, Option.map_some, hm, Option.any_some]
          split <;> rfl

theorem xpubStep [Target] {a : XPubAction S} (h : Owned (xpubConn b) b.wires)
    (hn : xpubNext b a = some b') : XPubStep b b' a := by
  cases a with
  | connect q recvQueue =>
    cases hn
    exact xpubStep_connect h q recvQueue
  | recv q m =>
    cases hn
    exact xpubStep_recv h q m
  | recvError q =>
    cases hn
    exact xpubStep_recvError h q
  | fail q e =>
    obtain ⟨s, hl, rfl⟩ := Option.map_eq_some_iff.mp hn
    exact xpubStep_fail h hl e
  | send order m =>
    rw [xpubNext] at hn
    split at hn
    · rename_i ho
      cases hn
      exact xpubStep_send h ho m
    · cases hn

/-- XPUB does for each subscriber what it would do for it alone: whichever others there are,
whatever they subscribe to and however their connections fail, the subscriber is in the table
with the subscriptions that it has made, and its connection has been sent the messages that they
are for.  No call of `send` fails. -/
theorem each_by_itself [Target] {as : List (XPubAction S)}
    (h : (xpubSystem (W := W)).run xpubSystem.init as = some b) :
    (∀ p, subscriberOf b p = (as.filterMap (XPubAction.event p)).foldl Event.step none) ∧
      ∀ order m, (XPubSocket.send b order m).1 = .ok () := by
  have hrun := Lib.System.run_history (P := fun as b => Owned (xpubConn b) b.wires ∧
    ∀ p, subscriberOf b p = (as.filterMap (XPubAction.event p)).foldl Event.step none)
    xpubSystem ?_ ?_ h
  · refine ⟨hrun.2, fun order m => ?_⟩
    cases hm : m.get 0 with
    | none => simp only [XPubSocket.send, hm]
    | some frame => rw [send_eq hrun.1 order hm]
  · exact ⟨Owned.empty, fun p => rfl⟩
  · intro as b a b' hi hn
    have hstep := xpubStep hi.1 hn
    refine ⟨hstep.owned, fun p => ?_⟩
    rw [hstep.each, hi.2, Lib.filterMap_append_singleton, List.foldl_append]

end XPub

def brokenSubscriber (p q : PeerIdentity) : List (XPubAction Unit) :=
  [.connect p (), .connect q (), .recv p ⟨[[1, 97]]⟩, .recv q ⟨[[1, 97]]⟩,
    .fail q ⟨.brokenPipe, ""⟩, .send [⟨q, [[97]], 1⟩, ⟨p, [[97]], 0⟩] ⟨[[97, 98]]⟩]

theorem each_by_itself_broken :
    letI := Target.x64
    let p : PeerIdentity := .ofByte 1
    let q : PeerIdentity := .ofByte 2
    ∃ b : XPubSocketBackend Unit Unit,
      xpubSystem.run xpubSystem.init (brokenSubscriber p q) = some b ∧
      subscriberOf b p = some ([[97]], ⟨[.message ⟨[[97, 98]]⟩], none⟩) ∧
      subscriberOf b q = none := by
  let _ := Target.x64
  intro p q
  have hrun : ((xpubSystem (W := Unit)).run xpubSystem.init (brokenSubscriber p q)).isSome := by
    decide +kernel
  obtain ⟨b, hb⟩ := Option.isSome_iff_exists.mp hrun
  have h := (each_by_itself hb).1
  refine ⟨b, hb, (h p).trans ?_, (h q).trans ?_⟩
  · decide +kernel
  · decide +kernel

end ZmqRs.Failing
