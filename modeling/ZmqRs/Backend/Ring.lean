import ZmqRs.Backend

/-! The send paths of `GenericSocketBackend` against a backend that is nothing
but a ring of the connected peers. -/

namespace ZmqRs

open Codec (Message)

namespace Channels

def queued (channels : Channels) (c : Sender) : Nat :=
  (channels[c]?.map fun channel => channel.queue.length).getD 0

variable {channels : Channels} {c : Sender}

theorem isClosed_modify (f : Channel → Channel)
    (hf : ∀ channel, (f channel).closed = channel.closed) (c' : Sender) : isClosed (channels.modify c' f) c = isClosed channels c := by
  rw [isClosed, isClosed, List.getElem?_modify]
  cases channels[c]? with
  | none => rfl
  | some channel =>
    change (if c' = c then f channel else channel).closed = channel.closed
    split
    · exact hf channel
    · rfl

theorem isClosed_apply {e : ChannelEvent} (he : e ≠ .closed c) :
    (channels.apply e).isClosed c = channels.isClosed c := by
  cases e with
  | received c' =>
    exact isClosed_modify (fun channel => { channel with queue := channel.queue.tail })
      (fun _ => rfl) c'
  | closed c' =>
    have hc : c' ≠ c := fun h => he (congrArg _ h)
    rw [isClosed, isClosed, apply, List.getElem?_modify_ne _ _ hc]

theorem isClosed_apply_closed : (channels.apply (.closed c)).isClosed c = true := by
  rw [isClosed, apply, List.getElem?_modify_eq]
  cases channels[c]? with
  | none => rfl
  | some channel => rfl

theorem isClosed_apply_of_isClosed (h : channels.isClosed c = true) (e : ChannelEvent) :
    (channels.apply e).isClosed c = true := by
  by_cases he : e = .closed c
  · rw [he]
    exact isClosed_apply_closed
  · rw [isClosed_apply he, h]

theorem isClosed_foldl {events : List ChannelEvent} (ho : .closed c ∉ events) :
    (events.foldl apply channels).isClosed c = channels.isClosed c := by
  induction events generalizing channels with
  | nil => rfl
  | cons e events ih =>
    rw [List.mem_cons, not_or] at ho
    rw [List.foldl_cons, ih ho.2, isClosed_apply (Ne.symm ho.1)]

theorem isClosed_foldl_of_mem {events : List ChannelEvent} (hc : .closed c ∈ events) :
    (events.foldl apply channels).isClosed c = true := by
  have hkeep : ∀ (events : List ChannelEvent) (channels : Channels),
      channels.isClosed c = true → (events.foldl apply channels).isClosed c = true := by
    intro events
    induction events with
    | nil => exact fun _ h => h
    | cons e events ih => exact fun channels h => ih _ (isClosed_apply_of_isClosed h e)
  induction events generalizing channels with
  | nil => cases hc
  | cons e events ih =>
    rcases List.mem_cons.mp hc with rfl | hc
    · exact hkeep events _ isClosed_apply_closed
    · exact ih hc

theorem apply_push {e : ChannelEvent} (ho : e ≠ .closed c)
    (hq : e = .received c → 0 < channels.queued c) (m : Message) :
    (channels.push c m).apply e = (channels.apply e).push c m := by
  cases e with
  | received c' =>
    by_cases hc : c = c'
    · subst hc
      simp only [apply, push, List.modify_modify_eq]
      refine List.ext_getElem? fun i => ?_
      by_cases hi : c = i
      · subst hi
        rw [List.getElem?_modify_eq, List.getElem?_modify_eq]
        cases hch : channels[c]? with
        | none => rfl
        | some channel =>
          have hne : channel.queue ≠ [] := by
            have hpos := hq rfl
            rw [queued, hch] at hpos
            exact List.length_pos_iff.mp hpos
          simp [List.tail_append_of_ne_nil hne]
      · rw [List.getElem?_modify_ne _ _ hi, List.getElem?_modify_ne _ _ hi]
    · simp only [apply, push]
      exact List.modify_modify_ne _ _ _ hc
  | closed c' =>
    have hc : c ≠ c' := fun h => ho (congrArg _ h.symm)
    simp only [apply, push]
    exact List.modify_modify_ne _ _ _ hc

theorem queued_apply_ne {e : ChannelEvent} (hr : e ≠ .received c) (ho : e ≠ .closed c) :
    (channels.apply e).queued c = channels.queued c := by
  cases e with
  | received c' =>
    have hc : c' ≠ c := fun h => hr (congrArg _ h)
    rw [queued, queued, apply, List.getElem?_modify_ne _ _ hc]
  | closed c' =>
    have hc : c' ≠ c := fun h => ho (congrArg _ h)
    rw [queued, queued, apply, List.getElem?_modify_ne _ _ hc]

theorem queued_apply_received :
    (channels.apply (.received c)).queued c = channels.queued c - 1 := by
  rw [queued, queued, apply, List.getElem?_modify_eq]
  cases channels[c]? with
  | none => rfl
  | some channel => exact List.length_tail

theorem foldl_push {events : List ChannelEvent} (ho : .closed c ∉ events)
    (hq : events.count (.received c) ≤ channels.queued c) (m : Message) :
    events.foldl apply (channels.push c m) = (events.foldl apply channels).push c m := by
  induction events generalizing channels with
  | nil => rfl
  | cons e events ih =>
    rw [List.mem_cons, not_or] at ho
    rw [List.count_cons] at hq
    have hpush : (channels.push c m).apply e = (channels.apply e).push c m := by
      refine apply_push (Ne.symm ho.1) (fun he => ?_) m
      rw [he] at hq
      simp at hq
      omega
    rw [List.foldl_cons, List.foldl_cons, hpush]
    apply ih ho.2
    by_cases he : e = .received c
    · subst he
      rw [queued_apply_received]
      simp at hq
      omega
    · rw [queued_apply_ne he (Ne.symm ho.1)]
      omega

end Channels

/-- A parked handle has room at the latest when its receiver has taken what is in the queue:
`mpsc` unparks a handle with each message taken, and each parked handle has put one in. -/
def Room.Fits (channels : Channels) (c : Sender) (room : Room) : Prop :=
  room.events.count (.received c) ≤ channels.queued c

instance (channels : Channels) (c : Sender) (room : Room) : Decidable (room.Fits channels c) :=
  inferInstanceAs (Decidable (_ ≤ _))

/-- The plain backend: no cache, and no id that is not connected. -/
structure RingBackend where
  ring : List (PeerIdentity × Sender)
  channels : Channels

namespace RingBackend

def connect (r : RingBackend) (p : PeerIdentity) : RingBackend :=
  ⟨r.ring ++ [(p, r.channels.length)], r.channels ++ [⟨[], false⟩]⟩

def disconnect (r : RingBackend) (p : PeerIdentity) : RingBackend :=
  { r with ring := r.ring.filter (·.1 ≠ p) }

def settle (channels : Channels) (c : Sender) : Room → Channels
  | .free => channels
  | .full events => if channels.isClosed c then channels else events.foldl Channels.apply channels

def deliver (r : RingBackend) (room : Room) (p : PeerIdentity) (c : Sender) (m : Message)
    (ring : List (PeerIdentity × Sender)) : Except ZmqError Unit × RingBackend :=
  let channels := settle r.channels c room
  if channels.isClosed c then
    (.error (.bufferFull "Failed to send message. Send queue full/broken"),
      { r with channels := channels }.disconnect p)
  else (.ok (), ⟨ring, channels.push c m⟩)

def sendRoundRobin (r : RingBackend) (room : Room) (m : ZmqMessage) :
    Except ZmqError Unit × RingBackend :=
  match r.ring with
  | [] => (.error (.returnToSender "Not connected to peers. Unable to send messages" m), r)
  | (p, c) :: rest => r.deliver room p c (.message m) (rest ++ [(p, c)])

def sendToPeer (r : RingBackend) (room : Room) (p : PeerIdentity) (m : ZmqMessage) :
    Except ZmqError Unit × RingBackend :=
  match r.ring.find? (·.1 = p) with
  | none => (.error (.other "Destination client not found by identity"), r)
  | some (_, c) => r.deliver room p c (.message m) r.ring

def after (r : RingBackend) (p : PeerIdentity) (sent : Except SendError Unit × Channels)
    (ring : List (PeerIdentity × Sender)) : Except ZmqError Unit × RingBackend :=
  match sent with
  | (.ok (), channels) => (.ok (), ⟨ring, channels⟩)
  | (.error e, channels) => (.error e.toZmqError, { r with channels := channels }.disconnect p)

end RingBackend

def sendToCached (channels : Channels) (c : Sender) (room : Room) (m : Message) :
    Except SendError Unit × Channels :=
  match trySend channels c room m with
  | .sent channels => (.ok (), channels)
  | .error .full => send channels c [] room.events m
  | .error e => (.error e, channels)

namespace RingBackend

def put (r : RingBackend) (c : Sender) (room : Room) (m : Message) :
    Except SendError Unit × Channels :=
  if r.ring.length = 1 then sendToCached r.channels c room m
  else sendToPeerQueue r.channels c room m

def putRoundRobin (r : RingBackend) (room : Room) (m : ZmqMessage) :
    Except ZmqError Unit × RingBackend :=
  match r.ring with
  | [] => (.error (.returnToSender "Not connected to peers. Unable to send messages" m), r)
  | (p, c) :: rest => r.after p (r.put c room (.message m)) (rest ++ [(p, c)])

def putToPeer (r : RingBackend) (room : Room) (p : PeerIdentity) (m : ZmqMessage) :
    Except ZmqError Unit × RingBackend :=
  match r.ring.find? (·.1 = p) with
  | none => (.error (.other "Destination client not found by identity"), r)
  | some (_, c) => r.after p (r.put c room (.message m)) r.ring

end RingBackend

section Sends

variable (channels : Channels) (c : Sender) (room : Room) (m : Message)

theorem sendToPeerQueue_eq :
    sendToPeerQueue channels c room m =
      if (RingBackend.settle channels c room).isClosed c then
        (.error .disconnected, RingBackend.settle channels c room)
      else (.ok (), (RingBackend.settle channels c room).push c m) := by
  by_cases hc : channels.isClosed c = true
  · cases room <;> simp [sendToPeerQueue, trySend, RingBackend.settle, hc]
  · cases room with
    | free => simp [sendToPeerQueue, trySend, RingBackend.settle, hc]
    | full events =>
      simp only [sendToPeerQueue, trySend, RingBackend.settle, hc, send, Room.events,
        Bool.false_eq_true, if_false, List.foldl_nil]
      rfl

theorem sendToCached_eq :
    sendToCached channels c room m =
      if channels.isClosed c then (.error .disconnected, channels)
      else (.ok (), room.events.foldl Channels.apply (channels.push c m)) := by
  by_cases hc : channels.isClosed c = true
  · simp [sendToCached, trySend, hc]
  · cases room with
    | free => simp [sendToCached, trySend, hc, Room.events]
    | full events => simp [sendToCached, trySend, hc, send, Room.events]

variable {channels c room}

theorem sendToCached_eq_sendToPeerQueue
    (h : channels.isClosed c = false → .closed c ∉ room.events ∧ room.Fits channels c) :
    sendToCached channels c room m = sendToPeerQueue channels c room m := by
  rw [sendToCached_eq, sendToPeerQueue_eq]
  cases room with
  | free => rfl
  | full events =>
    by_cases hc : channels.isClosed c = true
    · simp [RingBackend.settle, hc]
    · obtain ⟨ho, hq⟩ := h (Bool.eq_false_of_not_eq_true hc)
      have hsettle : RingBackend.settle channels c (.full events) =
          events.foldl Channels.apply channels := if_neg hc
      have ho' : .closed c ∉ events := ho
      rw [hsettle, Channels.isClosed_foldl ho', if_neg hc, if_neg hc]
      exact congrArg _ (Channels.foldl_push ho' hq m)

end Sends

theorem RingBackend.deliver_eq (r : RingBackend) (room : Room) (p : PeerIdentity) (c : Sender)
    (m : Message) (ring : List (PeerIdentity × Sender)) :
    r.deliver room p c m ring = r.after p (sendToPeerQueue r.channels c room m) ring := by
  rw [sendToPeerQueue_eq, RingBackend.deliver]
  split
  · rfl
  · rfl

namespace GenericSocketBackend

variable [Target] {S W : Type}

inductive Call (S : Type)
  | peerConnected (p : PeerIdentity) (recvQueue : S)
  | peerDisconnected (p : PeerIdentity)
  | sendRoundRobin (room : Room) (m : ZmqMessage)
  | sendToPeer (room : Room) (p : PeerIdentity) (m : ZmqMessage)
  | channel (e : ChannelEvent)

def Call.connects : Call S → Option PeerIdentity
  | .peerConnected p _ => some p
  | _ => none

def call (b : GenericSocketBackend S W) :
    Call S → Option (Except ZmqError Unit) × GenericSocketBackend S W
  | .peerConnected p s => (none, b.peerConnected p s)
  | .peerDisconnected p => (none, b.peerDisconnected p)
  | .sendRoundRobin room m => (b.sendRoundRobin room (.message m)).map some id
  | .sendToPeer room p m => (b.sendToPeer room p (.message m)).map some id
  | .channel e => (none, { b with channels := b.channels.apply e })

def cachedHandle (b : GenericSocketBackend S W) (expectedPeerId : Option PeerIdentity) :
    Option Sender :=
  if b.peerCount ≠ 1 then none
  else
    b.singlePeer.bind fun singlePeer =>
      if expectedPeerId.any (singlePeer.peerId ≠ ·) ∨ b.channels.isClosed singlePeer.sendQueue then
        none
      else some singlePeer.sendQueue

def cachedWait (b : GenericSocketBackend S W) : Call S → Option (Sender × List ChannelEvent)
  | .sendRoundRobin (.full events) _ => (b.cachedHandle none).map (·, events)
  | .sendToPeer (.full events) p _ => (b.cachedHandle (some p)).map (·, events)
  | _ => none

/-- The queue is not closed until the parked handle in the cache has room. -/
def StaysOpen (b : GenericSocketBackend S W) (call : Call S) : Prop :=
  ∀ wait ∈ b.cachedWait call, .closed wait.1 ∉ wait.2

def Fits (b : GenericSocketBackend S W) (call : Call S) : Prop :=
  ∀ wait ∈ b.cachedWait call, Room.Fits b.channels wait.1 (.full wait.2)

instance (b : GenericSocketBackend S W) (call : Call S) : Decidable (b.StaysOpen call) :=
  inferInstanceAs (Decidable (∀ wait ∈ b.cachedWait call, .closed wait.1 ∉ wait.2))

instance (b : GenericSocketBackend S W) (call : Call S) : Decidable (b.Fits call) :=
  inferInstanceAs (Decidable (∀ wait ∈ b.cachedWait call,
    Room.Fits b.channels wait.1 (.full wait.2)))

def callRing (r : RingBackend) : Call S → Option (Except ZmqError Unit) × RingBackend
  | .peerConnected p _ => (none, r.connect p)
  | .peerDisconnected p => (none, r.disconnect p)
  | .sendRoundRobin room m => (r.sendRoundRobin room m).map some id
  | .sendToPeer room p m => (r.sendToPeer room p m).map some id
  | .channel e => (none, { r with channels := r.channels.apply e })

def calls (b : GenericSocketBackend S W) :
    List (Call S) → List (Except ZmqError Unit) × GenericSocketBackend S W
  | [] => ([], b)
  | c :: cs =>
    let (result, b) := b.call c
    let (results, b) := b.calls cs
    (result.toList ++ results, b)

def callsRing (r : RingBackend) : List (Call S) → List (Except ZmqError Unit) × RingBackend
  | [] => ([], r)
  | c :: cs =>
    let (result, r) := callRing r c
    let (results, r) := callsRing r cs
    (result.toList ++ results, r)

def Along (P : GenericSocketBackend S W → Call S → Prop) (b : GenericSocketBackend S W) :
    List (Call S) → Prop
  | [] => True
  | c :: cs => P b c ∧ (b.call c).2.Along P cs

instance decidableAlong {P : GenericSocketBackend S W → Call S → Prop}
    [∀ b c, Decidable (P b c)] :
    (b : GenericSocketBackend S W) → (cs : List (Call S)) → Decidable (b.Along P cs)
  | _, [] => .isTrue trivial
  | b, c :: cs =>
    have : Decidable ((b.call c).2.Along P cs) := decidableAlong (b.call c).2 cs
    inferInstanceAs (Decidable (P b c ∧ (b.call c).2.Along P cs))

structure Refines (used : List PeerIdentity) (b : GenericSocketBackend S W) (r : RingBackend) :
    Prop where
  channels : b.channels = r.channels
  ring : b.roundRobin.filter (· ∈ b.peers) = r.ring.map Prod.fst
  lookup : ∀ p c, b.peers.lookup p = some c ↔ (p, c) ∈ r.ring
  nodup : b.roundRobin.Nodup
  used : ∀ p, p ∈ b.roundRobin ∨ p ∈ b.peers → p ∈ used
  count : b.peerCount = b.peers.entries.length
  single : b.singlePeer = onlyPeer b.peers

variable {used : List PeerIdentity} {b : GenericSocketBackend S W} {r : RingBackend}

omit [Target] in
theorem refines_withOptions (fairQueueInner : Option (QueueInner S PeerIdentity W)) :
    Refines [] (withOptions fairQueueInner) ⟨[], []⟩ where
  channels := rfl
  ring := rfl
  lookup := by simp [withOptions]
  nodup := List.nodup_nil
  used := by simp [withOptions]
  count := rfl
  single := rfl

omit [Target] in
theorem Refines.setChannels (hr : Refines used b r) (channels : Channels) :
    Refines used { b with channels := channels } { r with channels := channels } where
  channels := rfl
  ring := hr.ring
  lookup := hr.lookup
  nodup := hr.nodup
  used := hr.used
  count := hr.count
  single := hr.single

theorem Refines.peerConnected (hr : Refines used b r) {p : PeerIdentity} (hp : p ∉ used) (s : S) :
    Refines (p :: used) (b.peerConnected p s) (r.connect p) := by
  have hrr : p ∉ b.roundRobin := fun h => hp (hr.used p (.inl h))
  have hpe : p ∉ b.peers := fun h => hp (hr.used p (.inr h))
  have hmem : ∀ q ∈ b.roundRobin, q ∈ b.peers.insert p b.channels.length ↔ q ∈ b.peers := by
    intro q hq
    have hne : q ≠ p := by
      rintro rfl
      exact hrr hq
    simp [hne]
  refine ⟨?_, ?_, ?_, ?_, ?_, rfl, rfl⟩
  · change b.channels ++ [⟨[], false⟩] = r.channels ++ [⟨[], false⟩]
    rw [hr.channels]
  · change (b.roundRobin ++ [p]).filter (· ∈ b.peers.insert p b.channels.length) =
      (r.ring ++ [(p, r.channels.length)]).map Prod.fst
    rw [List.filter_append, List.map_append, ← hr.ring]
    congr 1
    · apply List.filter_congr
      intro q hq
      simp only [hmem q hq]
    · simp
  · intro q c
    change (b.peers.insert p b.channels.length).lookup q = some c ↔
      (q, c) ∈ r.ring ++ [(p, r.channels.length)]
    rw [List.mem_append, ← hr.lookup, ← hr.channels]
    by_cases hq : q = p
    · subst hq
      simp [AList.lookup_eq_none.mpr hpe, eq_comm]
    · simp [AList.lookup_insert_ne hq, hq]
  · exact List.nodup_append.mpr ⟨hr.nodup, List.nodup_singleton p, by
      rintro q hq _ hp' rfl
      obtain rfl := List.mem_singleton.mp hp'
      exact hrr hq⟩
  · intro q hq
    change q ∈ b.roundRobin ++ [p] ∨ q ∈ b.peers.insert p b.channels.length at hq
    have := hr.used q
    simp at hq ⊢
    tauto

omit [Target] in
theorem Refines.peerDisconnected (hr : Refines used b r) (p : PeerIdentity) :
    Refines used (b.peerDisconnected p) (r.disconnect p) := by
  refine ⟨hr.channels, ?_, ?_, hr.nodup, ?_, rfl, rfl⟩
  · change b.roundRobin.filter (· ∈ b.peers.erase p) = (r.ring.filter (·.1 ≠ p)).map Prod.fst
    have hf : (r.ring.filter (·.1 ≠ p)).map Prod.fst = (r.ring.map Prod.fst).filter (· ≠ p) := by
      rw [List.filter_map]
      rfl
    rw [hf, ← hr.ring, List.filter_filter]
    apply List.filter_congr
    intro q _
    simp [AList.mem_erase]
  · intro q c
    change (b.peers.erase p).lookup q = some c ↔ (q, c) ∈ r.ring.filter (·.1 ≠ p)
    rw [List.mem_filter, ← hr.lookup]
    by_cases hq : q = p
    · subst hq
      simp
    · simp [AList.lookup_erase_ne hq, hq]
  · intro q hq
    change q ∈ b.roundRobin ∨ q ∈ b.peers.erase p at hq
    rw [AList.mem_erase] at hq
    exact hr.used q (hq.imp id And.right)

def after (b : GenericSocketBackend S W) (p : PeerIdentity)
    (sent : Except SendError Unit × Channels) (roundRobin dropped : List PeerIdentity) :
    Except ZmqError Unit × GenericSocketBackend S W :=
  match sent with
  | (.ok (), channels) => (.ok (), { b with channels := channels, roundRobin := roundRobin })
  | (.error e, channels) =>
    (.error e.toZmqError, { b with channels := channels, roundRobin := dropped }.peerDisconnected p)

omit [Target] in
theorem Refines.dropStale {p : PeerIdentity} {queue : List PeerIdentity}
    (hr : Refines used { b with roundRobin := p :: queue } r) (hp : p ∉ b.peers) :
    Refines used { b with roundRobin := queue } r where
  channels := hr.channels
  ring := by
    have h := hr.ring
    rwa [List.filter_cons_of_neg (by simpa using hp)] at h
  lookup := hr.lookup
  nodup := (List.nodup_cons.mp hr.nodup).2
  used q hq := hr.used q (hq.imp (List.mem_cons_of_mem p) id)
  count := hr.count
  single := hr.single

omit [Target] in
theorem Refines.after {p : PeerIdentity} {roundRobin dropped : List PeerIdentity}
    {ring : List (PeerIdentity × Sender)}
    (hok : Refines used { b with roundRobin := roundRobin } { r with ring := ring })
    (hdrop : Refines used ({ b with roundRobin := dropped }.peerDisconnected p) (r.disconnect p))
    (sent : Except SendError Unit × Channels) :
    (b.after p sent roundRobin dropped).1 = (r.after p sent ring).1 ∧
      Refines used (b.after p sent roundRobin dropped).2 (r.after p sent ring).2 := by
  obtain ⟨result, channels⟩ := sent
  cases result with
  | ok u => exact ⟨rfl, hok.setChannels channels⟩
  | error e => exact ⟨rfl, hdrop.setChannels channels⟩

omit [Target] in
theorem Refines.rotate {p : PeerIdentity} {c : Sender} {queue : List PeerIdentity}
    {rest : List (PeerIdentity × Sender)}
    (hr : Refines used { b with roundRobin := p :: queue } r) (hring : r.ring = (p, c) :: rest)
    (hp : p ∈ b.peers) :
    Refines used { b with roundRobin := queue ++ [p] } { r with ring := rest ++ [(p, c)] } where
  channels := hr.channels
  ring := by
    have h := hr.ring
    rw [hring, List.filter_cons_of_pos (by simpa using hp), List.map_cons] at h
    rw [List.filter_append, List.map_append, List.filter_cons_of_pos (by simpa using hp),
      (List.cons.inj h).2]
    rfl
  lookup q d := by
    have h := hr.lookup q d
    rw [hring, List.mem_cons] at h
    rw [h, List.mem_append, List.mem_singleton, or_comm]
  nodup := (List.perm_append_singleton p queue).nodup_iff.mpr hr.nodup
  used q hq := by
    refine hr.used q (hq.imp (fun h => ?_) id)
    exact (List.perm_append_singleton p queue).mem_iff.mp h
  count := hr.count
  single := hr.single

omit [Target] in
theorem Refines.roundRobinLoop {queue : List PeerIdentity} (room : Room) (m : ZmqMessage)
    (hr : Refines used { b with roundRobin := queue } r) :
    (b.roundRobinLoop room (.message m) queue).1 = (r.sendRoundRobin room m).1 ∧
      Refines used (b.roundRobinLoop room (.message m) queue).2 (r.sendRoundRobin room m).2 := by
  induction queue with
  | nil =>
    have hn : r.ring = [] := by simpa using hr.ring.symm
    rw [RingBackend.sendRoundRobin, hn]
    exact ⟨rfl, hr⟩
  | cons p queue ih =>
    cases hl : b.peers.lookup p with
    | none =>
      rw [GenericSocketBackend.roundRobinLoop, hl]
      exact ih (hr.dropStale (AList.lookup_eq_none.mp hl))
    | some c =>
      have hp : p ∈ b.peers := AList.lookup_isSome.mp (by simp [hl])
      -- the ring starts with this peer
      obtain ⟨rest, hring⟩ : ∃ rest, r.ring = (p, c) :: rest := by
        have h := hr.ring
        rw [List.filter_cons_of_pos (by simpa using hp)] at h
        rcases hrr : r.ring with _ | ⟨⟨q, d⟩, rest⟩ <;> rw [hrr] at h
        · cases h
        · obtain rfl : p = q := (List.cons.inj h).1
          have hd := (hr.lookup p d).mpr (by simp [hrr])
          obtain rfl : c = d := by simpa [hl] using hd
          exact ⟨rest, rfl⟩
      have hs : b.roundRobinLoop room (.message m) (p :: queue) =
          GenericSocketBackend.after { b with roundRobin := p :: queue } p
            (sendToPeerQueue b.channels c room (.message m)) (queue ++ [p]) queue := by
        rw [GenericSocketBackend.roundRobinLoop, hl]
        rfl
      have hch : b.channels = r.channels := hr.channels
      rw [hs, RingBackend.sendRoundRobin, hring]
      dsimp only
      rw [RingBackend.deliver_eq, hch]
      refine Refines.after (hr.rotate hring hp) ?_ _
      exact (hr.peerDisconnected p).dropStale (b := { b with roundRobin := queue }.peerDisconnected p)
        (by simp [GenericSocketBackend.peerDisconnected, removePeer, refreshSinglePeerCache,
          removeStream])

omit [Target] in
theorem cached_hit {p : PeerIdentity} {c : Sender} (expected : Option PeerIdentity) (room : Room)
    (m : Message) (hn : b.peerCount = 1) (hs : b.singlePeer = some ⟨p, c⟩)
    (he : expected.any (p ≠ ·) = false) :
    (b.trySendCachedSinglePeer room m expected).2.finishCachedSend room
        (b.trySendCachedSinglePeer room m expected).1 =
      (b.after p (sendToCached b.channels c room m) b.roundRobin b.roundRobin).map
        (·.map fun _ => .sent) id := by
  obtain ⟨peers, inner, roundRobin, monitor, single, count, channels⟩ := b
  dsimp only at hn hs
  subst hn hs
  rw [trySendCachedSinglePeer, if_neg (by simp)]
  dsimp only
  rw [he, if_neg Bool.false_ne_true, sendToCached]
  cases trySend channels c room m with
  | sent channels => rfl
  | error e =>
    cases e with
    | full =>
      dsimp only [finishCachedSend]
      rcases send channels c [] room.events m with ⟨_ | _, channels⟩ <;> rfl
    | disconnected => rfl

omit [Target] in
theorem cached_miss (expected : Option PeerIdentity) (room : Room) (m : Message)
    (h : b.peerCount ≠ 1 ∨ ∀ single, b.singlePeer = some single →
      expected.any (single.peerId ≠ ·) = true) :
    b.trySendCachedSinglePeer room m expected = (.miss m, b) := by
  rw [trySendCachedSinglePeer]
  split
  · rfl
  · split
    · rfl
    · rename_i hn _ single hs
      rw [if_pos]
      exact h.resolve_left hn single hs

omit [Target] in
theorem Refines.perm_keys (hr : Refines used b r) : (r.ring.map Prod.fst).Perm b.peers.keys := by
  apply (List.perm_ext_iff_of_nodup ?_ b.peers.keys_nodup).mpr
  · intro p
    rw [List.mem_map]
    constructor
    · rintro ⟨⟨q, c⟩, hq, rfl⟩
      exact AList.lookup_isSome.mp (by rw [(hr.lookup q c).mpr hq]; rfl)
    · intro hp
      obtain ⟨c, hc⟩ := Option.isSome_iff_exists.mp (AList.lookup_isSome.mpr hp)
      exact ⟨(p, c), (hr.lookup p c).mp hc, rfl⟩
  · rw [← hr.ring]
    exact hr.nodup.filter _

omit [Target] in
theorem Refines.length_ring (hr : Refines used b r) : r.ring.length = b.peers.keys.length := by
  rw [← hr.perm_keys.length_eq, List.length_map]

omit [Target] in
theorem Refines.ring_of_onlyPeer (hr : Refines used b r) {p : PeerIdentity} {c : Sender}
    (ho : onlyPeer b.peers = some ⟨p, c⟩) :
    r.ring = [(p, c)] ∧ b.peerCount = 1 ∧ b.singlePeer = some ⟨p, c⟩ := by
  have he : b.peers.entries = [⟨p, c⟩] := by
    rw [onlyPeer] at ho
    split at ho <;> simp_all
  have hlen : r.ring.length = 1 := by
    rw [hr.length_ring, AList.keys, List.keys, List.length_map, he]
    rfl
  obtain ⟨⟨q, d⟩, hring⟩ := List.length_eq_one_iff.mp hlen
  have hd := (hr.lookup q d).mpr (by simp [hring])
  rw [← Option.mem_def, AList.mem_lookup_iff, he, List.mem_singleton] at hd
  cases hd
  exact ⟨hring, by rw [hr.count, he]; rfl, by rw [hr.single, ho]⟩

omit [Target] in
theorem Refines.length_ring_ne (hr : Refines used b r) (ho : onlyPeer b.peers = none) :
    r.ring.length ≠ 1 := by
  rw [hr.length_ring, AList.keys, List.keys, List.length_map]
  intro hlen
  obtain ⟨⟨p, c⟩, he⟩ := List.length_eq_one_iff.mp hlen
  rw [onlyPeer, he] at ho
  cases ho

omit [Target] in
theorem Refines.putRoundRobin (hr : Refines used b r) (room : Room) (m : ZmqMessage) :
    (b.sendRoundRobin room (.message m)).1 = (r.putRoundRobin room m).1 ∧
      Refines used (b.sendRoundRobin room (.message m)).2 (r.putRoundRobin room m).2 := by
  cases ho : onlyPeer b.peers with
  | none =>
    have hm := cached_miss (b := b) none room (.message m)
      (.inr (by simp [hr.single, ho]))
    have hs : b.sendRoundRobin room (.message m) =
        b.roundRobinLoop room (.message m) b.roundRobin := by
      rw [GenericSocketBackend.sendRoundRobin, hm]
      rfl
    have hput : r.putRoundRobin room m = r.sendRoundRobin room m := by
      have hlen := hr.length_ring_ne ho
      rw [RingBackend.putRoundRobin, RingBackend.sendRoundRobin]
      split
      · rfl
      · rw [RingBackend.deliver_eq, RingBackend.put, if_neg hlen]
    rw [hs, hput]
    exact hr.roundRobinLoop room m
  | some single =>
    obtain ⟨p, c⟩ := single
    obtain ⟨hring, hn, hs⟩ := hr.ring_of_onlyPeer ho
    have hh := cached_hit (b := b) none room (.message m) hn hs rfl
    have hv : b.sendRoundRobin room (.message m) =
        b.after p (sendToCached b.channels c room (.message m)) b.roundRobin b.roundRobin := by
      rw [GenericSocketBackend.sendRoundRobin]
      dsimp only
      rw [hh]
      rcases b.after p (sendToCached b.channels c room (.message m)) b.roundRobin
        b.roundRobin with ⟨_ | _, b'⟩ <;> rfl
    have hput : r.put c room (.message m) = sendToCached b.channels c room (.message m) := by
      rw [RingBackend.put, if_pos (hring ▸ rfl), hr.channels]
    rw [hv, RingBackend.putRoundRobin, hring]
    dsimp only
    rw [hput]
    refine Refines.after ?_ (hr.peerDisconnected p) _
    have hsame : r = { r with ring := [(p, c)] } := by rw [← hring]
    rw [hsame] at hr
    exact hr

omit [Target] in
theorem Refines.find?_ring (hr : Refines used b r) (p : PeerIdentity) :
    r.ring.find? (·.1 = p) = (b.peers.lookup p).map (p, ·) := by
  cases hl : b.peers.lookup p with
  | none =>
    rw [Option.map_none, List.find?_eq_none]
    rintro ⟨q, d⟩ hq hp
    obtain rfl : q = p := by simpa using hp
    have := (hr.lookup q d).mpr hq
    simp [hl] at this
  | some c =>
    cases hf : r.ring.find? (·.1 = p) with
    | none =>
      have := List.find?_eq_none.mp hf (p, c) ((hr.lookup p c).mp hl)
      simp at this
    | some x =>
      obtain ⟨q, d⟩ := x
      obtain rfl : q = p := by simpa using List.find?_some hf
      have := (hr.lookup q d).mpr (List.mem_of_find?_eq_some hf)
      obtain rfl : c = d := by simpa [hl] using this
      rfl

omit [Target] in
theorem Refines.putToPeer (hr : Refines used b r) (room : Room) (p : PeerIdentity)
    (m : ZmqMessage) :
    (b.sendToPeer room p (.message m)).1 = (r.putToPeer room p m).1 ∧
      Refines used (b.sendToPeer room p (.message m)).2 (r.putToPeer room p m).2 := by
  -- both paths send through the entry of `p`
  have hvia : ∀ c, b.peers.lookup p = some c → b.sendToPeer room p (.message m) =
      b.after p (r.put c room (.message m)) b.roundRobin b.roundRobin →
      (b.sendToPeer room p (.message m)).1 = (r.putToPeer room p m).1 ∧
        Refines used (b.sendToPeer room p (.message m)).2 (r.putToPeer room p m).2 := by
    intro c hl hv
    rw [hv, RingBackend.putToPeer, hr.find?_ring, hl]
    exact Refines.after hr (hr.peerDisconnected p) _
  by_cases hs : ∃ c, b.singlePeer = some ⟨p, c⟩
  · obtain ⟨c, hs⟩ := hs
    rw [hr.single] at hs
    obtain ⟨hring, hn, hs⟩ := hr.ring_of_onlyPeer hs
    apply hvia c ((hr.lookup p c).mpr (by simp [hring]))
    have hh := cached_hit (b := b) (some p) room (.message m) hn hs (by simp)
    rw [GenericSocketBackend.sendToPeer, RingBackend.put, if_pos (hring ▸ rfl), ← hr.channels]
    dsimp only
    rw [hh]
    rcases b.after p (sendToCached b.channels c room (.message m)) b.roundRobin
      b.roundRobin with ⟨_ | _, b'⟩ <;> rfl
  · have hm := cached_miss (b := b) (some p) room (.message m) (.inr (by
      rintro ⟨q, c⟩ hq
      have hne : q ≠ p := by
        rintro rfl
        exact hs ⟨c, hq⟩
      simpa using hne))
    cases hl : b.peers.lookup p with
    | none =>
      rw [GenericSocketBackend.sendToPeer, hm, RingBackend.putToPeer, hr.find?_ring, hl]
      dsimp only [finishCachedSend]
      rw [hl]
      exact ⟨rfl, hr⟩
    | some c =>
      apply hvia c hl
      -- with one peer in the ring it would be `p`, and cached
      have hlen : r.ring.length ≠ 1 := by
        intro hlen
        obtain ⟨⟨q, d⟩, hring⟩ := List.length_eq_one_iff.mp hlen
        cases ho : onlyPeer b.peers with
        | none => exact hr.length_ring_ne ho hlen
        | some single =>
          obtain ⟨hring', -, hsingle⟩ := hr.ring_of_onlyPeer (p := single.peerId) ho
          have hp := (hr.lookup p c).mp hl
          rw [hring', List.mem_singleton] at hp
          cases hp
          exact hs ⟨_, hsingle⟩
      rw [GenericSocketBackend.sendToPeer, hm, RingBackend.put, if_neg hlen, ← hr.channels]
      dsimp only [finishCachedSend]
      rw [hl]
      rfl

omit [Target] in
theorem Refines.cached_of_ring (hr : Refines used b r) {p : PeerIdentity} {c : Sender}
    (hring : r.ring = [(p, c)]) : b.peerCount = 1 ∧ b.singlePeer = some ⟨p, c⟩ := by
  cases ho : onlyPeer b.peers with
  | none => exact absurd (hring ▸ rfl) (hr.length_ring_ne ho)
  | some single =>
    obtain ⟨hring', hn, hs⟩ := hr.ring_of_onlyPeer (p := single.peerId) ho
    rw [hring] at hring'
    cases hring'
    exact ⟨hn, hs⟩

omit [Target] in
theorem Refines.cachedHandle (hr : Refines used b r) {p : PeerIdentity} {c : Sender}
    (hring : r.ring = [(p, c)]) (hc : b.channels.isClosed c = false)
    {expected : Option PeerIdentity} (he : expected.any (p ≠ ·) = false) :
    b.cachedHandle expected = some c := by
  obtain ⟨hn, hs⟩ := hr.cached_of_ring hring
  rw [GenericSocketBackend.cachedHandle, if_neg (not_not.mpr hn), hs, Option.bind_some, he, hc,
    if_neg (by simp)]

omit [Target] in
theorem Refines.put_eq (hr : Refines used b r) {room : Room} {p : PeerIdentity} {c : Sender}
    (hp : (p, c) ∈ r.ring)
    (hw : r.ring = [(p, c)] → b.channels.isClosed c = false →
      .closed c ∉ room.events ∧ room.Fits b.channels c) (m : Message) :
    r.put c room m = sendToPeerQueue r.channels c room m := by
  rw [RingBackend.put]
  split
  · rename_i hlen
    obtain ⟨peer, hring⟩ := List.length_eq_one_iff.mp hlen
    rw [hring, List.mem_singleton] at hp
    rw [← hp] at hring
    have hw := hw hring
    rw [hr.channels] at hw
    exact sendToCached_eq_sendToPeerQueue m hw
  · rfl

omit [Target] in
theorem undisturbed {call : Call S} (hf : b.Fits call) (ho : b.StaysOpen call) {room : Room}
    {c : Sender} (hw : ∀ events, room = .full events → b.cachedWait call = some (c, events)) :
    .closed c ∉ room.events ∧ room.Fits b.channels c := by
  cases room with
  | free => exact ⟨by simp [Room.events], Nat.zero_le _⟩
  | full events =>
    have hw := hw events rfl
    exact ⟨ho _ hw, hf _ hw⟩

omit [Target] in
theorem Refines.sendRoundRobin (hr : Refines used b r) {room : Room} {m : ZmqMessage}
    (hf : b.Fits (.sendRoundRobin room m)) (ho : b.StaysOpen (.sendRoundRobin room m)) :
    (b.sendRoundRobin room (.message m)).1 = (r.sendRoundRobin room m).1 ∧
      Refines used (b.sendRoundRobin room (.message m)).2 (r.sendRoundRobin room m).2 := by
  have hput : r.putRoundRobin room m = r.sendRoundRobin room m := by
    rw [RingBackend.putRoundRobin, RingBackend.sendRoundRobin]
    split
    · rfl
    · rename_i p c rest hring
      rw [RingBackend.deliver_eq, hr.put_eq (p := p) (by rw [hring]; exact List.mem_cons_self)]
      intro hone hc
      refine undisturbed hf ho fun events hroom => ?_
      rw [hroom, cachedWait, hr.cachedHandle hone hc rfl]
      rfl
  rw [← hput]
  exact hr.putRoundRobin room m

omit [Target] in
theorem Refines.sendToPeer (hr : Refines used b r) {room : Room} {p : PeerIdentity}
    {m : ZmqMessage} (hf : b.Fits (.sendToPeer room p m))
    (ho : b.StaysOpen (.sendToPeer room p m)) :
    (b.sendToPeer room p (.message m)).1 = (r.sendToPeer room p m).1 ∧
      Refines used (b.sendToPeer room p (.message m)).2 (r.sendToPeer room p m).2 := by
  have hput : r.putToPeer room p m = r.sendToPeer room p m := by
    rw [RingBackend.putToPeer, RingBackend.sendToPeer]
    split
    · rfl
    · rename_i q c hfind
      obtain rfl : q = p := by simpa using List.find?_some hfind
      rw [RingBackend.deliver_eq, hr.put_eq (List.mem_of_find?_eq_some hfind)]
      intro hone hc
      refine undisturbed hf ho fun events hroom => ?_
      rw [hroom, cachedWait, hr.cachedHandle hone hc (by simp)]
      rfl
  rw [← hput]
  exact hr.putToPeer room p m

theorem Refines.call (hr : Refines used b r) {c : Call S} (hc : ∀ p ∈ c.connects, p ∉ used)
    (hf : b.Fits c) (ho : b.StaysOpen c) :
    (b.call c).1 = (callRing r c).1 ∧
      Refines (c.connects.toList ++ used) (b.call c).2 (callRing r c).2 := by
  cases c with
  | peerConnected p s => exact ⟨rfl, hr.peerConnected (hc p rfl) s⟩
  | peerDisconnected p => exact ⟨rfl, hr.peerDisconnected p⟩
  | sendRoundRobin room m =>
    obtain ⟨h₁, h₂⟩ := hr.sendRoundRobin hf ho
    exact ⟨congrArg some h₁, h₂⟩
  | sendToPeer room p m =>
    obtain ⟨h₁, h₂⟩ := hr.sendToPeer hf ho
    exact ⟨congrArg some h₁, h₂⟩
  | channel e =>
    have h := hr.setChannels (b.channels.apply e)
    rw [hr.channels] at h
    exact ⟨rfl, by rw [GenericSocketBackend.call, hr.channels]; exact h⟩

theorem Refines.step (hr : Refines used b r) {c : Call S} (hc : ∀ p ∈ c.connects, p ∉ used) :
    ∃ r', Refines (c.connects.toList ++ used) (b.call c).2 r' := by
  cases c with
  | peerConnected p s => exact ⟨_, hr.peerConnected (hc p rfl) s⟩
  | peerDisconnected p => exact ⟨_, hr.peerDisconnected p⟩
  | sendRoundRobin room m => exact ⟨_, (hr.putRoundRobin room m).2⟩
  | sendToPeer room p m => exact ⟨_, (hr.putToPeer room p m).2⟩
  | channel e => exact ⟨_, hr.setChannels (b.channels.apply e)⟩

omit [Target] in
theorem connects_cons {c : Call S} {cs : List (Call S)}
    (hn : ((c :: cs).filterMap Call.connects).Nodup)
    (hd : ∀ p ∈ (c :: cs).filterMap Call.connects, p ∉ used) :
    (∀ p ∈ c.connects, p ∉ used) ∧ (cs.filterMap Call.connects).Nodup ∧
      ∀ p ∈ cs.filterMap Call.connects, p ∉ c.connects.toList ++ used := by
  cases h : c.connects with
  | none =>
    rw [List.filterMap_cons_none h] at hn hd
    exact ⟨by simp, hn, hd⟩
  | some q =>
    rw [List.filterMap_cons_some h] at hn hd
    obtain ⟨hq, hn⟩ := List.nodup_cons.mp hn
    refine ⟨fun p hp => ?_, hn, fun p hp => ?_⟩
    · cases hp
      exact hd q List.mem_cons_self
    · have hpq : p ≠ q := by
        rintro rfl
        exact hq hp
      simpa [hpq] using hd p (List.mem_cons_of_mem q hp)

theorem Refines.steps (hr : Refines used b r) {cs : List (Call S)}
    (hn : (cs.filterMap Call.connects).Nodup) (hd : ∀ p ∈ cs.filterMap Call.connects, p ∉ used) :
    ∃ used' r', Refines used' (b.calls cs).2 r' := by
  induction cs generalizing b r used with
  | nil => exact ⟨used, r, hr⟩
  | cons c cs ih =>
    obtain ⟨hc, hn, hd⟩ := connects_cons hn hd
    obtain ⟨r', hr'⟩ := hr.step hc
    exact ih hr' hn hd

theorem Refines.calls (hr : Refines used b r) {cs : List (Call S)}
    (hn : (cs.filterMap Call.connects).Nodup) (hd : ∀ p ∈ cs.filterMap Call.connects, p ∉ used)
    (hf : b.Along Fits cs) (ho : b.Along StaysOpen cs) :
    (b.calls cs).1 = (callsRing r cs).1 ∧
      ∃ used', Refines used' (b.calls cs).2 (callsRing r cs).2 := by
  induction cs generalizing b r used with
  | nil => exact ⟨rfl, used, hr⟩
  | cons c cs ih =>
    obtain ⟨hc, hn, hd⟩ := connects_cons hn hd
    obtain ⟨h₁, h₂⟩ := hr.call hc hf.1 ho.1
    obtain ⟨h₃, h₄⟩ := ih h₂ hn hd hf.2 ho.2
    refine ⟨?_, h₄⟩
    rw [GenericSocketBackend.calls, callsRing]
    dsimp only
    rw [h₁, h₃]

omit [Target] in
theorem Refines.ring_of_cachedHandle (hr : Refines used b r) {c : Sender}
    {expected : Option PeerIdentity} (h : b.cachedHandle expected = some c) :
    ∃ p, r.ring = [(p, c)] ∧ r.channels.isClosed c = false ∧ ∀ q ∈ expected, p = q := by
  rw [GenericSocketBackend.cachedHandle] at h
  split at h
  · cases h
  · obtain ⟨single, hs, h⟩ := Option.bind_eq_some_iff.mp h
    split at h
    · cases h
    · rename_i hcond
      cases h
      rw [not_or] at hcond
      obtain ⟨hring, -⟩ := hr.ring_of_onlyPeer (p := single.peerId) (hr.single ▸ hs)
      refine ⟨_, hring, ?_, ?_⟩
      · rw [← hr.channels]
        exact Bool.eq_false_of_not_eq_true hcond.2
      · intro q hq
        rw [Option.mem_def.mp hq] at hcond
        simpa using hcond.1

omit [Target] in
theorem RingBackend.put_closed {r : RingBackend} {p : PeerIdentity} {c : Sender}
    {events : List ChannelEvent} (hring : r.ring = [(p, c)]) (ho : r.channels.isClosed c = false)
    (hc : .closed c ∈ events) (m : Message) (ring : List (PeerIdentity × Sender)) :
    (r.after p (r.put c (.full events) m) ring).1 = .ok () ∧
      (r.deliver (.full events) p c m ring).1 =
        .error (.bufferFull "Failed to send message. Send queue full/broken") := by
  constructor
  · rw [RingBackend.put, if_pos (hring ▸ rfl), sendToCached_eq, ho]
    rfl
  · have hsettle : RingBackend.settle r.channels c (.full events) =
        events.foldl Channels.apply r.channels := by
      rw [RingBackend.settle, ho, if_neg Bool.false_ne_true]
    rw [RingBackend.deliver, hsettle]
    rw [if_pos (Channels.isClosed_foldl_of_mem hc)]

theorem Refines.disturbed (hr : Refines used b r) {c : Call S} (h : ¬ b.StaysOpen c) :
    (b.call c).1 = some (.ok ()) ∧ (callRing r c).1 =
      some (.error (.bufferFull "Failed to send message. Send queue full/broken")) := by
  simp only [StaysOpen, not_forall, not_not] at h
  obtain ⟨⟨s, events⟩, hw, hc⟩ := h
  cases c with
  | peerConnected p s => cases hw
  | peerDisconnected p => cases hw
  | channel e => cases hw
  | sendRoundRobin room m =>
    cases room with
    | free => cases hw
    | full events' =>
      obtain ⟨c, hh, heq⟩ := Option.map_eq_some_iff.mp hw
      cases heq
      obtain ⟨p, hring, ho, -⟩ := hr.ring_of_cachedHandle hh
      obtain ⟨hok, herr⟩ := RingBackend.put_closed hring ho hc (.message m) [(p, s)]
      obtain ⟨h₁, -⟩ := hr.putRoundRobin (.full events) m
      simp only [RingBackend.putRoundRobin, hring] at h₁
      refine ⟨congrArg some (h₁.trans hok), congrArg some ?_⟩
      simp only [hring]
      exact herr
  | sendToPeer room q m =>
    cases room with
    | free => cases hw
    | full events' =>
      obtain ⟨c, hh, heq⟩ := Option.map_eq_some_iff.mp hw
      cases heq
      obtain ⟨p, hring, ho, hp⟩ := hr.ring_of_cachedHandle hh
      obtain rfl : p = q := hp q rfl
      obtain ⟨hok, herr⟩ := RingBackend.put_closed hring ho hc (.message m) r.ring
      obtain ⟨h₁, -⟩ := hr.putToPeer (.full events) p m
      have hfind : r.ring.find? (·.1 = p) = some (p, s) := by simp [hring]
      simp only [RingBackend.putToPeer, hfind] at h₁
      refine ⟨congrArg some (h₁.trans hok), congrArg some ?_⟩
      simp only [hfind]
      exact herr

def joinAndLeave (p q : PeerIdentity) : List (Call Unit) :=
  [.sendRoundRobin .free ⟨[[0]]⟩, .peerConnected p (), .sendRoundRobin .free ⟨[[1]]⟩,
    .sendRoundRobin (.full [.received 0]) ⟨[[5]]⟩, .peerConnected q (),
    .sendRoundRobin .free ⟨[[2]]⟩, .sendRoundRobin (.full [.received 1]) ⟨[[3]]⟩,
    .peerDisconnected q, .channel (.closed 0), .sendToPeer .free p ⟨[[4]]⟩]

end GenericSocketBackend

end ZmqRs
