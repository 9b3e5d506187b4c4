import ZmqRs.Backend

/-! `SubSocketBackend`, which SUB and XSUB share, and their calls run to the end.
What a hash map or a hash set iterates over comes in an order that the caller of
the model picks. -/

namespace ZmqRs

open Codec (Message utf8)

inductive SubscriptionMessageType
  | unsubscribe
  | subscribe
  deriving DecidableEq

def SubscriptionMessageType.toByte : SubscriptionMessageType → UInt8
  | .unsubscribe => 0
  | .subscribe => 1

def subscriptionChange : Message → Option (Bytes × Bool)
  | .message ⟨[1 :: subscription]⟩ => some (subscription, true)
  | .message ⟨[0 :: subscription]⟩ => some (subscription, false)
  | _ => none

def changesOf (t : Bytes) (changes : List (Bytes × Bool)) : List Bool :=
  changes.filterMap fun (subscription, up) => if subscription = t then some up else none

@[simp] theorem changesOf_nil (t : Bytes) : changesOf t [] = [] := rfl

theorem changesOf_append (t : Bytes) (l l' : List (Bytes × Bool)) :
    changesOf t (l ++ l') = changesOf t l ++ changesOf t l' :=
  List.filterMap_append

theorem changesOf_concat (t : Bytes) (l : List (Bytes × Bool)) (t' : Bytes) (up : Bool) :
    changesOf t (l ++ [(t', up)]) = changesOf t l ++ if t' = t then [up] else [] := by
  rw [changesOf_append]
  by_cases h : t' = t <;> simp [changesOf, h]

theorem changesOf_map_true (t : Bytes) (order : List Bytes) :
    changesOf t (order.map (·, true)) = List.replicate (order.count t) true := by
  induction order with
  | nil => rfl
  | cons t' order ih =>
    rw [List.map_cons, ← List.singleton_append, changesOf_append, ih]
    by_cases h : t' = t <;> simp [changesOf, h, List.replicate_succ]

theorem getLast?_changesOf_map_true (t : Bytes) (order : List Bytes) :
    (changesOf t (order.map (·, true))).getLast? = some true ↔ t ∈ order := by
  rw [changesOf_map_true, List.getLast?_replicate, ← List.count_pos_iff, Nat.pos_iff_ne_zero]
  by_cases h : order.count t = 0 <;> simp only [h, if_true, if_false, reduceCtorEq, ne_eq,
    not_true_eq_false, not_false_eq_true]

abbrev PeerEntry := Sigma fun _ : PeerIdentity => Nat

/-- `wires` are the write halves of the connections, and `notices` what the
notifiers, which are of type `N`, have sent. -/
structure SubSocketBackend (S W N : Type) where
  peers : AList fun _ : PeerIdentity => Nat
  fairQueueInner : Option (QueueInner S PeerIdentity W)
  monitor : Option (List PeerIdentity)
  subs : Finset Bytes
  disconnectNotifiers : AList fun _ : PeerIdentity => N
  notices : List (N × PeerIdentity)
  wires : List Wire

def sendOnWire (wires : List Wire) (c : Nat) (m : Message) : Except CodecError (List Wire) :=
  match wires[c]? with
  | none => .ok wires
  | some wire => (wire.send m).map fun wire => wires.set c wire

def CodecError.isBrokenPipe : CodecError → Bool
  | .io error => error.kind = .brokenPipe
  | _ => false

namespace SubSocketBackend

variable [Target] {S W N : Type}

def withOptions (fairQueueInner : Option (QueueInner S PeerIdentity W)) :
    SubSocketBackend S W N :=
  ⟨∅, fairQueueInner, none, ∅, ∅, [], []⟩

def createSubsMessage (subscription : Bytes) (msgType : SubscriptionMessageType) : ZmqMessage :=
  .ofBytes (msgType.toByte :: subscription)

def rememberSubscription (b : SubSocketBackend S W N) (subscription : Bytes) :
    SubSocketBackend S W N :=
  { b with subs := insert subscription b.subs }

def forgetSubscription (b : SubSocketBackend S W N) (subscription : Bytes) :
    SubSocketBackend S W N :=
  { b with subs := b.subs.erase subscription }

def applySubscriptionMessage (b : SubSocketBackend S W N) (message : ZmqMessage) :
    Bool × SubSocketBackend S W N :=
  match message.get 0 with
  | none => (false, b)
  | some frame =>
    if message.len ≠ 1 ∨ frame.isEmpty then (false, b)
    else
      match frame with
      | 1 :: subscription => (true, b.rememberSubscription subscription)
      | 0 :: subscription => (true, b.forgetSubscription subscription)
      | _ => (false, b)

def registerDisconnectNotifier (b : SubSocketBackend S W N) (peerId : PeerIdentity)
    (notifier : N) : SubSocketBackend S W N :=
  { b with disconnectNotifiers := b.disconnectNotifiers.insert peerId notifier }

def peerDisconnected (b : SubSocketBackend S W N) (peerId : PeerIdentity) :
    SubSocketBackend S W N :=
  -- The notifier is a fresh clone of its sender, so `try_send` finds room.
  { b with
    monitor := b.monitor.map (· ++ [peerId])
    peers := b.peers.erase peerId
    fairQueueInner := b.fairQueueInner.map fun inner => inner.remove peerId
    disconnectNotifiers := b.disconnectNotifiers.erase peerId
    notices := b.notices ++
      ((b.disconnectNotifiers.lookup peerId).map fun notifier => (notifier, peerId)).toList }

def shutdown (b : SubSocketBackend S W N) : SubSocketBackend S W N :=
  { b with
    peers := ∅
    fairQueueInner := b.fairQueueInner.map fun inner => inner.clear.1 }

/-- `order` is the order in which the set of subscriptions is iterated over. -/
def subscriptionMessages (order : List Bytes) : List ZmqMessage :=
  order.map fun subscription => createSubsMessage subscription .subscribe

omit [Target] in
theorem subscriptionChange_messages (order : List Bytes) :
    ((subscriptionMessages order).map Message.message).filterMap subscriptionChange =
      order.map (·, true) := by
  induction order with
  | nil => rfl
  | cons t order ih => exact congrArg ((t, true) :: ·) ih

def IsOrder (b : SubSocketBackend S W N) (order : List Bytes) : Prop :=
  order.Nodup ∧ order.toFinset = b.subs

instance (b : SubSocketBackend S W N) (order : List Bytes) : Decidable (b.IsOrder order) :=
  inferInstanceAs (Decidable (_ ∧ _))

def replay (wire : Wire) : List ZmqMessage → Except CodecError Wire
  | [] => .ok wire
  | message :: messages =>
    match wire.send (.message message) with
    | .error e => .error e
    | .ok wire => replay wire messages

def insertPeer (b : SubSocketBackend S W N) (peerId : PeerIdentity) (wire : Wire) :
    SubSocketBackend S W N :=
  { b with
    wires := b.wires ++ [wire]
    peers := b.peers.insert peerId b.wires.length }

def insertStream (b : SubSocketBackend S W N) (peerId : PeerIdentity) (recvQueue : S) :
    SubSocketBackend S W N :=
  { b with fairQueueInner := b.fairQueueInner.map fun inner => (inner.insert peerId recvQueue).1 }

def peerConnected (b : SubSocketBackend S W N) (order : List Bytes) (peerId : PeerIdentity)
    (recvQueue : S) (sendQueue : Wire) : SubSocketBackend S W N :=
  match replay sendQueue (subscriptionMessages order) with
  | .error _ => b
  | .ok wire => (b.insertPeer peerId wire).insertStream peerId recvQueue

def broadcastLoop (message : ZmqMessage) : List PeerEntry → List Wire → List PeerIdentity →
    Option CodecError → List Wire × List PeerIdentity × Option CodecError
  | [], wires, deadPeers, firstError => (wires, deadPeers, firstError)
  | ⟨peerId, sendQueue⟩ :: targets, wires, deadPeers, firstError =>
    match sendOnWire wires sendQueue (.message message) with
    | .ok wires => broadcastLoop message targets wires deadPeers firstError
    | .error e =>
      broadcastLoop message targets wires
        (if e.isBrokenPipe then deadPeers ++ [peerId] else deadPeers) (firstError.or (some e))

/-- `targets` are the entries of `peers`, in the order of the iteration. -/
def broadcastControlMessage (b : SubSocketBackend S W N) (targets : List PeerEntry)
    (message : ZmqMessage) : Except ZmqError Unit × SubSocketBackend S W N :=
  let (wires, deadPeers, firstError) := broadcastLoop message targets b.wires [] none
  let b := deadPeers.foldl peerDisconnected { b with wires := wires }
  match firstError with
  | none => (.ok (), b)
  | some e => (.error (.codec e), b)

def broadcastMessageReliably (b : SubSocketBackend S W N) (targets : List PeerEntry)
    (message : ZmqMessage) : Except ZmqError Unit × SubSocketBackend S W N :=
  b.broadcastControlMessage targets message

def broadcastSubscription (b : SubSocketBackend S W N) (targets : List PeerEntry)
    (subscription : Bytes) (msgType : SubscriptionMessageType) :
    Except ZmqError Unit × SubSocketBackend S W N :=
  b.broadcastMessageReliably targets (createSubsMessage subscription msgType)

/-- The loop of `fanout_message`.  An error that is not one of the transport
ends it at once. -/
def fanoutLoop (message : ZmqMessage) : List PeerEntry → List Wire → List PeerIdentity →
    List Wire × Except CodecError (List PeerIdentity)
  | [], wires, deadPeers => (wires, .ok deadPeers)
  | ⟨peerId, sendQueue⟩ :: targets, wires, deadPeers =>
    match sendOnWire wires sendQueue (.message message) with
    | .ok wires => fanoutLoop message targets wires deadPeers
    | .error (.io e) =>
      fanoutLoop message targets wires
        (if e.kind = .brokenPipe then deadPeers ++ [peerId] else deadPeers)
    | .error e => (wires, .error e)

def fanoutMessage (b : SubSocketBackend S W N) (targets : List PeerEntry) (message : ZmqMessage) :
    Except ZmqError Unit × SubSocketBackend S W N :=
  if message.isEmpty then (.ok (), b)
  else
    match fanoutLoop message targets b.wires [] with
    | (wires, .ok deadPeers) => (.ok (), deadPeers.foldl peerDisconnected { b with wires := wires })
    | (wires, .error e) => (.error (.codec e), { b with wires := wires })

end SubSocketBackend

variable [Target] {S W N : Type}

namespace SubSocket

def subscribe (b : SubSocketBackend S W N) (targets : List PeerEntry) (subscription : String) :
    Except ZmqError Unit × SubSocketBackend S W N :=
  (b.rememberSubscription (utf8 subscription)).broadcastSubscription targets (utf8 subscription)
    .subscribe

def unsubscribe (b : SubSocketBackend S W N) (targets : List PeerEntry) (subscription : String) :
    Except ZmqError Unit × SubSocketBackend S W N :=
  (b.forgetSubscription (utf8 subscription)).broadcastSubscription targets (utf8 subscription)
    .unsubscribe

end SubSocket

namespace XSubSocket

def subscribe (b : SubSocketBackend S W N) (targets : List PeerEntry) (subscription : String) :
    Except ZmqError Unit × SubSocketBackend S W N :=
  SubSocket.subscribe b targets subscription

def unsubscribe (b : SubSocketBackend S W N) (targets : List PeerEntry) (subscription : String) :
    Except ZmqError Unit × SubSocketBackend S W N :=
  SubSocket.unsubscribe b targets subscription

def send (b : SubSocketBackend S W N) (targets : List PeerEntry) (message : ZmqMessage) :
    Except ZmqError Unit × SubSocketBackend S W N :=
  match b.applySubscriptionMessage message with
  | (true, b) => b.broadcastMessageReliably targets message
  | (false, b) => b.fanoutMessage targets message

end XSubSocket

end ZmqRs
