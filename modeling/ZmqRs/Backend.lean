import ZmqRs.FairQueue

/-! `GenericSocketBackend`, the peer table of PUSH, PULL, DEALER and ROUTER, with
what sockets send through: connections and bounded channels. -/

namespace ZmqRs

open Codec (Message)

/-- The write half of a connection: what was written, and the error that every
further write gives. -/
structure Wire where
  sent : List Message
  failure : Option CodecError

namespace Wire

def push (w : Wire) (m : Message) : Wire := { w with sent := w.sent ++ [m] }

def send (w : Wire) (m : Message) : Except CodecError Wire :=
  match w.failure with
  | some e => .error e
  | none => .ok (w.push m)

theorem send_open {w : Wire} (h : w.failure = none) (m : Message) : w.send m = .ok (w.push m) := by
  simp only [send, h]

theorem eq_push_of_send {w w' : Wire} {m : Message} (h : w.send m = .ok w') : w' = w.push m := by
  rw [send] at h
  split at h
  · cases h
  · exact (Except.ok.inj h).symm

def lastSent (w : Wire) : Option ZmqMessage :=
  match w.sent.getLast? with
  | some (.message m) => some m
  | _ => none

end Wire

structure Channel where
  queue : List Message
  closed : Bool
  deriving DecidableEq

abbrev Sender := Nat

inductive ChannelEvent
  | received (channel : Sender)
  | closed (channel : Sender)
  deriving DecidableEq

/-- What `try_send` finds: a handle that is free, or one that is parked.  The list is what happens
to the channels until a parked handle has room again.  It does not bind the clones of the handle,
which are made unparked. -/
inductive Room
  | free
  | full (events : List ChannelEvent)

def Room.events : Room → List ChannelEvent
  | .free => []
  | .full events => events

abbrev Channels := List Channel

namespace Channels

def isClosed (channels : Channels) (c : Sender) : Bool :=
  match channels[c]? with
  | some channel => channel.closed
  | none => true

def push (channels : Channels) (c : Sender) (m : Message) : Channels :=
  channels.modify c fun channel => { channel with queue := channel.queue ++ [m] }

def apply (channels : Channels) : ChannelEvent → Channels
  | .received c => channels.modify c fun channel => { channel with queue := channel.queue.tail }
  | .closed c => channels.modify c fun _ => ⟨[], true⟩

end Channels

inductive SendError
  | full
  | disconnected
  deriving DecidableEq

def SendError.toZmqError (_ : SendError) : ZmqError :=
  .bufferFull "Failed to send message. Send queue full/broken"

inductive TrySend
  | sent (channels : Channels)
  | error (e : SendError)

/-- `Sender::try_send`.  A closed channel is never full: closing unparks its senders. -/
def trySend (channels : Channels) (c : Sender) (room : Room) (m : Message) : TrySend :=
  if channels.isClosed c then .error .disconnected
  else
    match room with
    | .free => .sent (channels.push c m)
    | .full _ => .error .full

/-- `Sender::send`, awaited to its end.  `ready` is what happens before the handle has room for
the message, `flush` what happens before it could take one more.  A flush cannot fail: the receiver
may go away meanwhile. -/
def send (channels : Channels) (c : Sender) (ready flush : List ChannelEvent) (m : Message) :
    Except SendError Unit × Channels :=
  let channels := ready.foldl Channels.apply channels
  if channels.isClosed c then (.error .disconnected, channels)
  else (.ok (), flush.foldl Channels.apply (channels.push c m))

def sendToPeerQueue (channels : Channels) (c : Sender) (room : Room) (m : Message) :
    Except SendError Unit × Channels :=
  match trySend channels c room m with
  | .sent channels => (.ok (), channels)
  -- what happens in its flush may as well happen behind the call
  | .error .full => send channels c room.events [] m
  | .error e => (.error e, channels)

structure SinglePeer where
  peerId : PeerIdentity
  sendQueue : Sender
  deriving DecidableEq

inductive CachedSend
  | sent
  | full (peerId : PeerIdentity) (sendQueue : Sender) (message : Message)
  | disconnected (peerId : PeerIdentity) (error : SendError)
  | miss (message : Message)

inductive SendResolution
  | sent
  | miss (message : Message)

/-- `monitor` is what was sent to the installed monitor.  `S` and `W` are the
streams and the wakers of the fair queue. -/
structure GenericSocketBackend (S W : Type) where
  peers : AList fun _ : PeerIdentity => Sender
  fairQueueInner : Option (QueueInner S PeerIdentity W)
  roundRobin : List PeerIdentity
  monitor : Option (List PeerIdentity)
  singlePeer : Option SinglePeer
  peerCount : Nat
  channels : Channels

namespace GenericSocketBackend

variable [Target] {S W : Type}

def withOptions (fairQueueInner : Option (QueueInner S PeerIdentity W)) :
    GenericSocketBackend S W :=
  ⟨∅, fairQueueInner, [], none, none, 0, []⟩

def onlyPeer (peers : AList fun _ : PeerIdentity => Sender) : Option SinglePeer :=
  -- With one peer, `begin_sync` finds that peer.
  match peers.entries with
  | [⟨peerId, sendQueue⟩] => some ⟨peerId, sendQueue⟩
  | _ => none

def refreshSinglePeerCache (b : GenericSocketBackend S W) : GenericSocketBackend S W :=
  { b with peerCount := b.peers.entries.length, singlePeer := onlyPeer b.peers }

def upsertPeer (b : GenericSocketBackend S W) (peerId : PeerIdentity) :
    GenericSocketBackend S W :=
  { b with
    channels := b.channels ++ [⟨[], false⟩]
    peers := b.peers.insert peerId b.channels.length }

def insertStream (b : GenericSocketBackend S W) (peerId : PeerIdentity) (recvQueue : S) :
    GenericSocketBackend S W :=
  { b with fairQueueInner := b.fairQueueInner.map fun inner => (inner.insert peerId recvQueue).1 }

def peerConnected (b : GenericSocketBackend S W) (peerId : PeerIdentity) (recvQueue : S) :
    GenericSocketBackend S W :=
  let b := (b.upsertPeer peerId).refreshSinglePeerCache
  { b with roundRobin := b.roundRobin ++ [peerId] }.insertStream peerId recvQueue

def removePeer (b : GenericSocketBackend S W) (peerId : PeerIdentity) :
    GenericSocketBackend S W :=
  { b with peers := b.peers.erase peerId }

def removeStream (b : GenericSocketBackend S W) (peerId : PeerIdentity) :
    GenericSocketBackend S W :=
  { b with fairQueueInner := b.fairQueueInner.map fun inner => inner.remove peerId }

-- Nothing registers with `disconnect_notifiers` of this backend.
def peerDisconnected (b : GenericSocketBackend S W) (peerId : PeerIdentity) :
    GenericSocketBackend S W :=
  let peerRemoved := (b.peers.lookup peerId).isSome
  let b := (b.removePeer peerId).refreshSinglePeerCache.removeStream peerId
  { b with monitor := if peerRemoved then b.monitor.map (· ++ [peerId]) else b.monitor }

def shutdown (b : GenericSocketBackend S W) : GenericSocketBackend S W :=
  { b with
    peers := ∅
    singlePeer := none
    peerCount := 0
    fairQueueInner := b.fairQueueInner.map fun inner => inner.clear.1 }

def trySendCachedSinglePeer (b : GenericSocketBackend S W) (room : Room) (message : Message)
    (expectedPeerId : Option PeerIdentity) : CachedSend × GenericSocketBackend S W :=
  if b.peerCount ≠ 1 then (.miss message, b)
  else
    match b.singlePeer with
    | none => (.miss message, b)
    | some singlePeer =>
      if expectedPeerId.any (singlePeer.peerId ≠ ·) then (.miss message, b)
      else
        match trySend b.channels singlePeer.sendQueue room message with
        | .sent channels => (.sent, { b with channels := channels })
        | .error .full => (.full singlePeer.peerId singlePeer.sendQueue message, b)
        | .error e => (.disconnected singlePeer.peerId e, b)

def finishCachedSend (b : GenericSocketBackend S W) (room : Room) :
    CachedSend → Except ZmqError SendResolution × GenericSocketBackend S W
  | .sent => (.ok .sent, b)
  | .full peerId sendQueue message =>
    -- a fresh clone is not parked, so the message is in the queue before any wait
    match send b.channels sendQueue [] room.events message with
    | (.ok (), channels) => (.ok .sent, { b with channels := channels })
    | (.error e, channels) =>
      (.error e.toZmqError, { b with channels := channels }.peerDisconnected peerId)
  | .disconnected peerId error => (.error error.toZmqError, b.peerDisconnected peerId)
  | .miss message => (.ok (.miss message), b)

def notConnected : Message → ZmqError
  | .greeting _ => .socket "Sending greeting is not supported"
  | .command _ => .socket "Sending commands is not supported"
  | .message m => .returnToSender "Not connected to peers. Unable to send messages" m

def roundRobinLoop (b : GenericSocketBackend S W) (room : Room) (message : Message) :
    List PeerIdentity → Except ZmqError Unit × GenericSocketBackend S W
  | [] => (.error (notConnected message), { b with roundRobin := [] })
  | nextPeerId :: queue =>
    match b.peers.lookup nextPeerId with
    | none => roundRobinLoop b room message queue
    | some sendQueue =>
      match sendToPeerQueue b.channels sendQueue room message with
      | (.ok (), channels) =>
        (.ok (), { b with channels := channels, roundRobin := queue ++ [nextPeerId] })
      | (.error e, channels) =>
        (.error e.toZmqError,
          { b with channels := channels, roundRobin := queue }.peerDisconnected nextPeerId)

def sendRoundRobin (b : GenericSocketBackend S W) (room : Room) (message : Message) :
    Except ZmqError Unit × GenericSocketBackend S W :=
  let (cachedSend, b) := b.trySendCachedSinglePeer room message none
  match b.finishCachedSend room cachedSend with
  | (.error e, b) => (.error e, b)
  | (.ok .sent, b) => (.ok (), b)
  | (.ok (.miss message), b) => b.roundRobinLoop room message b.roundRobin

def sendToPeer (b : GenericSocketBackend S W) (room : Room) (peerId : PeerIdentity)
    (message : Message) : Except ZmqError Unit × GenericSocketBackend S W :=
  let (cachedSend, b) := b.trySendCachedSinglePeer room message (some peerId)
  match b.finishCachedSend room cachedSend with
  | (.error e, b) => (.error e, b)
  | (.ok .sent, b) => (.ok (), b)
  | (.ok (.miss message), b) =>
    match b.peers.lookup peerId with
    | none => (.error (.other "Destination client not found by identity"), b)
    | some sendQueue =>
      match sendToPeerQueue b.channels sendQueue room message with
      | (.ok (), channels) => (.ok (), { b with channels := channels })
      | (.error e, channels) =>
        (.error e.toZmqError, { b with channels := channels }.peerDisconnected peerId)

end GenericSocketBackend

end ZmqRs
