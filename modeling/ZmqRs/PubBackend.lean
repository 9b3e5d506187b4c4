import ZmqRs.Backend

/-! The subscriber tables of PUB and XPUB.  `Publisher` is either of the two. -/

namespace ZmqRs

open Codec (Message)

/-- `sendQueue` is the number of a channel in PUB and of a connection in XPUB. -/
structure Subscriber where
  subscriptions : List Bytes
  sendQueue : Nat

abbrev Subscribers := AList fun _ : PeerIdentity => Subscriber

namespace Subscribers

def modify (subscribers : Subscribers) (peerId : PeerIdentity) (f : List Bytes → List Bytes) :
    Subscribers :=
  match subscribers.lookup peerId with
  | none => subscribers
  | some entry => subscribers.insert peerId { entry with subscriptions := f entry.subscriptions }

def removeFirst (sub : Bytes) (subscriptions : List Bytes) : List Bytes :=
  match subscriptions.findIdx? (· = sub) with
  | none => subscriptions
  | some index => subscriptions.eraseIdx index

/-- `message_received` of both backends, which differ in what they log only. -/
def messageReceived (subscribers : Subscribers) (peerId : PeerIdentity) :
    Message → Subscribers
  | .message m =>
    if m.len ≠ 1 then subscribers
    else
      match m.frames.getLast?.getD [] with
      | [] => subscribers
      | 1 :: sub => subscribers.modify peerId (· ++ [sub])
      | 0 :: sub => subscribers.modify peerId (removeFirst sub)
      | _ => subscribers
  | _ => subscribers

end Subscribers

structure PubSocketBackend where
  subscribers : Subscribers
  subscriberCount : Nat
  monitor : Option (List PeerIdentity)
  channels : Channels

namespace PubSocketBackend

def peerConnected [Target] (b : PubSocketBackend) (peerId : PeerIdentity) : PubSocketBackend :=
  { b with
    channels := b.channels ++ [⟨[], false⟩]
    subscribers := b.subscribers.insert peerId ⟨[], b.channels.length⟩
    subscriberCount :=
      if (b.subscribers.lookup peerId).isNone then (b.subscriberCount + 1) % 2 ^ Target.usizeBits
      else b.subscriberCount }

def messageReceived (b : PubSocketBackend) (peerId : PeerIdentity) (message : Message) :
    PubSocketBackend :=
  { b with subscribers := b.subscribers.messageReceived peerId message }

def filterMatches (firstFrame subFilter : Bytes) : Bool :=
  subFilter.length ≤ firstFrame.length && subFilter == firstFrame.take subFilter.length

def subscriptionMatches (subscriptions : List Bytes) (firstFrame : Bytes) : Bool :=
  if subscriptions.length ≤ 1 then subscriptions.any (filterMatches firstFrame)
  else
    let firstByte := firstFrame.head?
    subscriptions.any fun subFilter =>
      match subFilter.head? with
      | some prefixFirst =>
        if some prefixFirst ≠ firstByte then false else filterMatches firstFrame subFilter
      | none => filterMatches firstFrame subFilter

end PubSocketBackend

structure XPubSocketBackend (S W : Type) where
  subscribers : Subscribers
  fairQueueInner : QueueInner S PeerIdentity W
  wires : List Wire

namespace XPubSocketBackend

variable [Target] {S W : Type}

def peerConnected (b : XPubSocketBackend S W) (peerId : PeerIdentity) (recvQueue : S)
    (sendQueue : Wire) : XPubSocketBackend S W :=
  { b with
    wires := b.wires ++ [sendQueue]
    subscribers := b.subscribers.insert peerId ⟨[], b.wires.length⟩
    fairQueueInner := (b.fairQueueInner.insert peerId recvQueue).1 }

def messageReceived (b : XPubSocketBackend S W) (peerId : PeerIdentity) (message : Message) :
    XPubSocketBackend S W :=
  { b with subscribers := b.subscribers.messageReceived peerId message }

def selects (subscriptions : List Bytes) (firstFrame : Bytes) : Bool :=
  subscriptions.any (PubSocketBackend.filterMatches firstFrame)

end XPubSocketBackend

inductive Publisher (S W : Type)
  | pub (b : PubSocketBackend)
  | xpub (b : XPubSocketBackend S W)

namespace Publisher

variable [Target] {S W : Type}

def peerConnected (b : Publisher S W) (peerId : PeerIdentity) (recvQueue : S)
    (sendQueue : Wire) : Publisher S W :=
  match b with
  | .pub b => .pub (b.peerConnected peerId)
  | .xpub b => .xpub (b.peerConnected peerId recvQueue sendQueue)

def messageReceived (b : Publisher S W) (peerId : PeerIdentity) (message : Message) :
    Publisher S W :=
  match b with
  | .pub b => .pub (b.messageReceived peerId message)
  | .xpub b => .xpub (b.messageReceived peerId message)

def subscribers : Publisher S W → Subscribers
  | .pub b => b.subscribers
  | .xpub b => b.subscribers

def subscriptions (b : Publisher S W) (peerId : PeerIdentity) : List Bytes :=
  ((b.subscribers.lookup peerId).map (·.subscriptions)).getD []

def accepts (b : Publisher S W) (peerId : PeerIdentity) (firstFrame : Bytes) : Bool :=
  match b with
  | .pub b =>
    (b.subscribers.lookup peerId).any fun s =>
      PubSocketBackend.subscriptionMatches s.subscriptions firstFrame
  | .xpub b =>
    (b.subscribers.lookup peerId).any fun s =>
      XPubSocketBackend.selects s.subscriptions firstFrame

end Publisher

end ZmqRs
