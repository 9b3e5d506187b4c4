import ZmqRs.Failing

/-! SUB or XSUB and its publishers, whose connections may fail. -/

namespace ZmqRs.Failing

open Codec (utf8)
open SubCalls (Call Kind applyToSet)
open SubSocketBackend (subscriptionMessages createSubsMessage)

variable {S W N : Type}

/-- `disconnect` is a `recv` that returns an error of `p`, and at `fail` the connection of `p`
fails. -/
inductive SubAction (S : Type)
  | call (c : Call S)
  | disconnect (p : PeerIdentity)
  | fail (p : PeerIdentity) (e : IoError)

def subNext [Target] (kind : Kind) (b : SubSocketBackend S W N) :
    SubAction S → Option (SubSocketBackend S W N)
  | .call c => SubCalls.next kind b c
  | .disconnect p => some (b.peerDisconnected p)
  | .fail p e => (b.peers.lookup p).map fun c => { b with wires := b.wires.modify c (·.fail e) }

def subSystem [Target] (kind : Kind) : Lib.System (SubSocketBackend S W N) (SubAction S) where
  init := .withOptions (some .new)
  next := subNext kind

inductive PublisherEvent
  | connect (order : List Bytes)
  | tell (m : ZmqMessage)
  | disconnect
  | fail (e : IoError)

def PublisherEvent.step : Option Wire → PublisherEvent → Option Wire
  | _, .connect order => some ⟨(subscriptionMessages order).map .message, none⟩
  | wire, .tell m => wire.bind (·.served (.message m))
  | _, .disconnect => none
  | wire, .fail e => wire.map (·.fail e)

def SubAction.event (p : PeerIdentity) : SubAction S → Option PublisherEvent
  | .call (.subscribe _ subscription) =>
    some (.tell (createSubsMessage (utf8 subscription) .subscribe))
  | .call (.unsubscribe _ subscription) =>
    some (.tell (createSubsMessage (utf8 subscription) .unsubscribe))
  | .call (.send _ m) => if m.isEmpty then none else some (.tell m)
  | .call (.connect order q _) => if q = p then some (.connect order) else none
  | .disconnect q => if q = p then some .disconnect else none
  | .fail q e => if q = p then some (.fail e) else none

def SubAction.change : SubAction S → Option (Bytes × Bool)
  | .call c => c.change
  | _ => none

def subConn (b : SubSocketBackend S W N) (p : PeerIdentity) : Option Nat := b.peers.lookup p

def publisherOf (b : SubSocketBackend S W N) (p : PeerIdentity) : Option Wire :=
  wireOf (subConn b) b.wires p

section Sub

variable {b b' : SubSocketBackend S W N} {targets : List PeerEntry}

theorem peers_disconnected (peers : List PeerIdentity) (b : SubSocketBackend S W N)
    (p : PeerIdentity) :
    subConn (peers.foldl SubSocketBackend.peerDisconnected b) p =
      if p ∈ peers then none else subConn b p := by
  induction peers generalizing b with
  | nil => simp
  | cons q peers ih =>
    rw [List.foldl_cons, ih, subConn, SubSocketBackend.peerDisconnected]
    by_cases hp : p = q
    · subst hp
      simp [AList.lookup_erase]
    · simp [hp, AList.lookup_erase_ne hp, subConn]

theorem rest_disconnected (peers : List PeerIdentity) (b : SubSocketBackend S W N) :
    (peers.foldl SubSocketBackend.peerDisconnected b).wires = b.wires ∧
      (peers.foldl SubSocketBackend.peerDisconnected b).subs = b.subs := by
  induction peers generalizing b with
  | nil => exact ⟨rfl, rfl⟩
  | cons q peers ih => exact ih _

structure SubStep (b b' : SubSocketBackend S W N) (a : SubAction S) : Prop where
  owned : Owned (subConn b') b'.wires
  each : ∀ p, publisherOf b' p = (a.event p).toList.foldl PublisherEvent.step (publisherOf b p)
  subs : b'.subs = applyToSet b.subs a.change

structure Told (b b' : SubSocketBackend S W N) (m : ZmqMessage) : Prop where
  owned : Owned (subConn b') b'.wires
  each : ∀ p, publisherOf b' p = (publisherOf b p).bind (·.served (.message m))
  subs : b'.subs = b.subs

theorem told_targets (h : Owned (subConn b) b.wires) (ht : targets.Perm b.peers.entries)
    (m : ZmqMessage) :
    Told b ((deadOf b.wires targets).foldl SubSocketBackend.peerDisconnected
      { b with wires := attemptAll (.message m) (targets.map Sigma.snd) b.wires }) m := by
  have hconn := peers_disconnected (deadOf b.wires targets)
    { b with wires := attemptAll (.message m) (targets.map Sigma.snd) b.wires }
  obtain ⟨hwires, hsubs⟩ := rest_disconnected (deadOf b.wires targets)
    { b with wires := attemptAll (.message m) (targets.map Sigma.snd) b.wires }
  refine ⟨?_, fun p => ?_, hsubs⟩
  · rw [hwires]
    refine (h.attemptAll _ _).narrow fun p c hp => ?_
    rw [hconn] at hp
    split at hp
    · cases hp
    · exact hp
  · have hmem : ∀ target ∈ targets, subConn b target.1 = some target.2 := fun target hm =>
      AList.mem_lookup_iff.mpr (ht.mem_iff.mp hm)
    have hserved := h.wireOf_served ((ht.nodup_iff).mpr b.peers.nodupKeys.nodup) hmem
      (.message m) p (hconn p)
    rw [publisherOf, hwires, hserved, publisherOf]
    split
    · rfl
    · rename_i hp
      have hnone : subConn b p = none := by
        refine Option.eq_none_iff_forall_ne_some.mpr fun c hc => hp ?_
        exact List.mem_map.mpr ⟨⟨p, c⟩, ht.mem_iff.mpr (AList.mem_lookup_iff.mp hc), rfl⟩
      rw [wireOf, hnone]
      rfl

theorem broadcast_eq (b : SubSocketBackend S W N) (targets : List PeerEntry) (m : ZmqMessage) :
    b.broadcastMessageReliably targets m =
      ((targets.findSome? fun target => failureOf b.wires target.2).elim (.ok ())
        fun e => .error (.codec e),
      (deadOf b.wires targets).foldl SubSocketBackend.peerDisconnected
        { b with wires := attemptAll (.message m) (targets.map Sigma.snd) b.wires }) := by
  rw [SubSocketBackend.broadcastMessageReliably, SubSocketBackend.broadcastControlMessage,
    broadcastLoop_eq]
  simp only [List.nil_append, Option.none_or]
  cases targets.findSome? fun target => failureOf b.wires target.2 <;> rfl

theorem fanout_eq (h : Owned (subConn b) b.wires) (targets : List PeerEntry) {m : ZmqMessage}
    (hm : m.isEmpty = false) :
    (b.fanoutMessage targets m).2 =
      (deadOf b.wires targets).foldl SubSocketBackend.peerDisconnected
        { b with wires := attemptAll (.message m) (targets.map Sigma.snd) b.wires } := by
  rw [SubSocketBackend.fanoutMessage, hm, if_neg Bool.false_ne_true, fanoutLoop_eq m targets h.io]
  rfl

theorem subStep_tell {a : SubAction S} {m : ZmqMessage}
    (ha : ∀ p, a.event p = some (.tell m)) {b₁ : SubSocketBackend S W N}
    (h₁ : b₁ = { b with subs := applyToSet b.subs a.change }) (h : Told b₁ b' m) :
    SubStep b b' a := by
  subst h₁
  refine ⟨h.owned, fun p => ?_, h.subs⟩
  rw [h.each, ha]
  rfl

theorem subStep_connect [Target] (h : Owned (subConn b) b.wires) (order : List Bytes)
    (q : PeerIdentity) (recvQueue : S) :
    SubStep b ((b.insertPeer q ⟨(subscriptionMessages order).map .message, none⟩).insertStream q
      recvQueue) (.call (.connect order q recvQueue)) := by
  have hconn : subConn ((b.insertPeer q ⟨(subscriptionMessages order).map .message,
      none⟩).insertStream q recvQueue) = Function.update (subConn b) q (some b.wires.length) := by
    funext p
    rw [Function.update_apply, subConn, SubSocketBackend.insertStream, SubSocketBackend.insertPeer]
    split
    · rename_i hp
      rw [hp, AList.lookup_insert]
    · rename_i hp
      rw [AList.lookup_insert_ne hp]
      rfl
  refine ⟨?_, fun p => ?_, rfl⟩
  · rw [hconn]
    exact h.connect q rfl
  · rw [publisherOf, hconn]
    refine (h.wireOf_connect q _ p).trans ?_
    by_cases hp : p = q
    · simp [SubAction.event, PublisherEvent.step, hp]
    · simp [SubAction.event, hp, Ne.symm hp, publisherOf]

theorem subStep_call [Target] {kind : Kind} {c : Call S} (h : Owned (subConn b) b.wires)
    (hn : SubCalls.next kind b c = some b') : SubStep b b' (.call c) := by
  cases c with
  | subscribe targets subscription =>
    simp only [SubCalls.next] at hn
    split at hn
    · rename_i ht
      have hn : some (SubSocket.subscribe b targets subscription).2 = some b' := by
        cases kind <;> exact hn
      rw [← Option.some.inj hn, SubSocket.subscribe, SubSocketBackend.broadcastSubscription,
        broadcast_eq]
      exact subStep_tell (fun _ => rfl) rfl (told_targets (b := b.rememberSubscription _) h ht _)
    · cases hn
  | unsubscribe targets subscription =>
    simp only [SubCalls.next] at hn
    split at hn
    · rename_i ht
      have hn : some (SubSocket.unsubscribe b targets subscription).2 = some b' := by
        cases kind <;> exact hn
      rw [← Option.some.inj hn, SubSocket.unsubscribe, SubSocketBackend.broadcastSubscription,
        broadcast_eq]
      exact subStep_tell (fun _ => rfl) rfl (told_targets (b := b.forgetSubscription _) h ht _)
    · cases hn
  | send targets m =>
    cases kind with
    | sub => cases hn
    | xsub =>
      simp only [SubCalls.next] at hn
      split at hn
      · rename_i ht
        rw [XSubSocket.send, SubCalls.applySubscriptionMessage_eq] at hn
        cases hc : subscriptionChange (.message m) with
        | some change =>
          have hm : m.isEmpty = false := by
            by_contra he
            obtain ⟨frames⟩ := m
            obtain rfl : frames = [] := by simpa [ZmqMessage.isEmpty] using he
            cases hc
          simp only [hc, Option.isSome_some] at hn
          rw [← Option.some.inj hn, broadcast_eq]
          refine subStep_tell (fun p => ?_) ?_
            (told_targets (b := { b with subs := applyToSet b.subs (some change) }) h ht m)
          · simp [SubAction.event, hm]
          · simp [SubAction.change, Call.change, hc]
        | none =>
          simp only [hc, Option.isSome_none] at hn
          have hb : ({ b with subs := applyToSet b.subs none } : SubSocketBackend S W N) = b := rfl
          rw [hb] at hn
          cases hm : m.isEmpty with
          | true =>
            rw [SubSocketBackend.fanoutMessage, hm] at hn
            cases hn
            refine ⟨h, fun p => ?_, ?_⟩
            · simp [SubAction.event, hm]
            · simp [SubAction.change, Call.change, hc, applyToSet]
          | false =>
            rw [fanout_eq h targets hm] at hn
            rw [← Option.some.inj hn]
            refine subStep_tell (fun p => ?_) ?_ (told_targets h ht m)
            · simp [SubAction.event, hm]
            · simp [SubAction.change, Call.change, hc, applyToSet]
      · cases hn
  | connect order q recvQueue =>
    simp only [SubCalls.next] at hn
    split at hn
    · cases hn
      rw [SubSocketBackend.peerConnected, SubCalls.replay_open rfl]
      exact subStep_connect h order q recvQueue
    · cases hn

theorem subStep [Target] {kind : Kind} {a : SubAction S} (h : Owned (subConn b) b.wires)
    (hn : subNext kind b a = some b') : SubStep b b' a := by
  cases a with
  | call c => exact subStep_call h hn
  | disconnect q =>
    cases hn
    have hconn := peers_disconnected [q] b
    change ∀ p, subConn (b.peerDisconnected q) p = _ at hconn
    refine ⟨h.narrow fun p c hp => ?_, fun p => ?_, rfl⟩
    · rw [hconn] at hp
      split at hp
      · cases hp
      · exact hp
    · rw [publisherOf, wireOf, hconn, publisherOf, wireOf]
      by_cases hp : q = p
      · simp [SubAction.event, PublisherEvent.step, hp]
      · simp [SubAction.event, hp, Ne.symm hp, SubSocketBackend.peerDisconnected]
  | fail q e =>
    obtain ⟨c, hc, rfl⟩ := Option.map_eq_some_iff.mp hn
    refine ⟨h.modify c fun w e' he => failure_fail he, fun p => ?_, rfl⟩
    have hwire := h.wireOf_modify hc (·.fail e) p
    change wireOf (subConn b) (b.wires.modify c (·.fail e)) p = _
    rw [hwire, publisherOf]
    by_cases hp : p = q
    · simp [SubAction.event, PublisherEvent.step, hp]
    · simp [SubAction.event, hp, Ne.symm hp]

theorem subscribe_ok_iff [Target] (h : Owned (subConn b) b.wires)
    (ht : targets.Perm b.peers.entries) (subscription : String) :
    (SubSocket.subscribe b targets subscription).1 = .ok () ↔
      ∀ p w, publisherOf b p = some w → w.failure = none := by
  have hnone : (SubSocket.subscribe b targets subscription).1 = .ok () ↔
      targets.findSome? (fun target => failureOf b.wires target.2) = none := by
    rw [SubSocket.subscribe, SubSocketBackend.broadcastSubscription, broadcast_eq]
    change (targets.findSome? fun target => failureOf b.wires target.2).elim _ _ = _ ↔ _
    cases targets.findSome? fun target => failureOf b.wires target.2 <;> simp
  rw [hnone, List.findSome?_eq_none_iff]
  constructor
  · intro hall p w hw
    obtain ⟨c, hc, hw⟩ := Option.bind_eq_some_iff.mp hw
    have hf := hall ⟨p, c⟩ (ht.mem_iff.mpr (AList.mem_lookup_iff.mp hc))
    rwa [failureOf, hw] at hf
  · intro hall target hm
    have hc : subConn b target.1 = some target.2 := AList.mem_lookup_iff.mpr (ht.mem_iff.mp hm)
    have hlt := h.bound _ _ hc
    rw [failureOf, List.getElem?_eq_getElem hlt]
    refine hall target.1 _ ?_
    rw [publisherOf, wireOf, hc]
    exact List.getElem?_eq_getElem hlt

/-- SUB and XSUB do for each publisher what they would do for it alone: whichever others there
are and however their connections fail, the publisher is told the subscriptions of the moment it
connects and then every message of a call, until its own connection fails.  The set of
subscriptions does not depend on the publishers, and a call of `subscribe` succeeds just where no
connection has failed. -/
theorem each_publisher_by_itself [Target] {kind : Kind} {as : List (SubAction S)}
    (h : (subSystem (W := W) (N := N) kind).run (subSystem kind).init as = some b) :
    (∀ p, publisherOf b p = (as.filterMap (SubAction.event p)).foldl PublisherEvent.step none) ∧
      b.subs = (as.map SubAction.change).foldl applyToSet ∅ ∧
      ∀ targets, targets.Perm b.peers.entries → ∀ subscription,
        ((SubSocket.subscribe b targets subscription).1 = .ok () ↔
          ∀ p w, publisherOf b p = some w → w.failure = none) := by
  have hrun := Lib.System.run_history (P := fun as b => Owned (subConn b) b.wires ∧
    (∀ p, publisherOf b p = (as.filterMap (SubAction.event p)).foldl PublisherEvent.step none) ∧
      b.subs = (as.map SubAction.change).foldl applyToSet ∅) (subSystem kind) ?_ ?_ h
  · exact ⟨hrun.2.1, hrun.2.2, fun targets ht subscription =>
      subscribe_ok_iff hrun.1 ht subscription⟩
  · exact ⟨Owned.empty, fun p => rfl, rfl⟩
  · intro as b a b' hi hn
    have hstep := subStep hi.1 hn
    refine ⟨hstep.owned, fun p => ?_, ?_⟩
    · rw [hstep.each, hi.2.1, Lib.filterMap_append_singleton, List.foldl_append]
    · rw [hstep.subs, hi.2.2, List.map_append, List.foldl_append]
      rfl

end Sub

def brokenPublisher (p q : PeerIdentity) : List (SubAction Unit) :=
  [.call (.connect [] p ()), .call (.connect [] q ()), .fail p ⟨.brokenPipe, ""⟩,
    .call (.subscribe [⟨p, 0⟩, ⟨q, 1⟩] "a")]

theorem each_publisher_by_itself_broken :
    letI := Target.x64
    let p : PeerIdentity := .ofByte 1
    let q : PeerIdentity := .ofByte 2
    ∃ b : SubSocketBackend Unit Unit Unit,
      (subSystem .sub).run (subSystem .sub).init (brokenPublisher p q) = some b ∧
      publisherOf b p = none ∧ publisherOf b q = some ⟨[.message ⟨[[1, 97]]⟩], none⟩ ∧
      b.subs = {[97]} := by
  let _ := Target.x64
  intro p q
  have hrun : ((subSystem (W := Unit) (N := Unit) .sub).run (subSystem .sub).init
      (brokenPublisher p q)).isSome := by
    decide +kernel
  obtain ⟨b, hb⟩ := Option.isSome_iff_exists.mp hrun
  obtain ⟨h, hsubs, -⟩ := each_publisher_by_itself hb
  refine ⟨b, hb, (h p).trans ?_, (h q).trans ?_, hsubs.trans ?_⟩
  · decide +kernel
  · decide +kernel
  · decide +kernel

end ZmqRs.Failing
