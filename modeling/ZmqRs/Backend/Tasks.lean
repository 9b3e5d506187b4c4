import ZmqRs.Backend

/-! The tasks around a `GenericSocketBackend`: calls of `peer_connected` and
`peer_disconnected`, one writer per connection, the sends, and the consumer of
the fair queue.  A connection is named by the number of its channel. -/

namespace ZmqRs.Tasks

open Codec (Message Poll)

inductive Stage
  | upserted
  | refreshed
  | spawned
  | done
  deriving DecidableEq

inductive Writer
  | unborn
  | idle
  | busy
  | ended
  deriving DecidableEq

inductive Todo
  | remove
  | refresh
  | stream
  deriving DecidableEq

structure Disconnect where
  peer : PeerIdentity
  cause : Sender
  todo : Todo
  deriving DecidableEq

inductive Outcome
  | pending
  | item
  | error
  | ended
  deriving DecidableEq

def poll (c : Sender) : Outcome → Poll (Option (Sender × Bool)) × Sender
  | .pending => (.pending, c)
  | .item => (.ready (some (c, false)), c)
  | .error => (.ready (some (c, true)), c)
  | .ended => (.ready none, c)

/-- A send through the cache that found the queue full, and waits with a clone of
the cached sender. -/
structure WaitingSend where
  peer : PeerIdentity
  sender : Sender
  message : Message

/-- `owners`, `stages` and `writers` are indexed by the connections.  The fair
queue of the backend is `queue`. -/
structure State (W : Type) where
  backend : GenericSocketBackend Unit Unit
  queue : FairQueue.State Sender PeerIdentity W (Sender × Bool)
  owners : List PeerIdentity
  stages : List Stage
  writers : List Writer
  sends : List WaitingSend
  disconnects : List Disconnect

inductive Action (W : Type)
  | connect (p : PeerIdentity)
  | refresh (c : Sender)
  | spawn (c : Sender)
  | insert (c : Sender)
  | send (p : PeerIdentity) (m : Message)
  | sendCached (m : Message)
  | sendFull (m : Message)
  | resume (j : Nat)
  | take (c : Sender)
  | flush (c : Sender)
  | fail (c : Sender)
  | finish (c : Sender)
  | disconnect (i : Nat)
  | queue (a : FairQueue.Action Sender PeerIdentity W Outcome)

variable [Target] {W : Type}

namespace State

def init : State W := ⟨.withOptions none, .init, [], [], [], [], []⟩

def queueOf (st : State W) (c : Sender) : List Message :=
  match st.backend.channels[c]? with
  | some channel => channel.queue
  | none => []

def setChannels (st : State W) (channels : Channels) : State W :=
  { st with backend := { st.backend with channels := channels } }

def disconnecting (st : State W) (p : PeerIdentity) (c : Sender) : State W :=
  { st with disconnects := st.disconnects ++ [⟨p, c, .remove⟩] }

def sendOn (st : State W) (p : PeerIdentity) (c : Sender) (m : Message) : State W :=
  if st.backend.channels.isClosed c then st.disconnecting p c
  else st.setChannels (st.backend.channels.push c m)

def queueNext (st : State W) (a : FairQueue.Action Sender PeerIdentity W Outcome) :
    Option (State W) :=
  (FairQueue.next true poll st.queue a).map fun queue => { st with queue := queue }

def disconnectNext (st : State W) (i : Nat) (d : Disconnect) : Option (State W) :=
  match d.todo with
  | .remove =>
    some { st with
      backend := st.backend.removePeer d.peer
      disconnects := st.disconnects.set i { d with todo := .refresh } }
  | .refresh =>
    some { st with
      backend := st.backend.refreshSinglePeerCache
      disconnects := st.disconnects.set i { d with todo := .stream } }
  | .stream => { st with disconnects := st.disconnects.eraseIdx i }.queueNext (.remove d.peer)

end State

def next (st : State W) : Action W → Option (State W)
  | .connect p =>
    some { st with
      backend := st.backend.upsertPeer p
      owners := st.owners ++ [p]
      stages := st.stages ++ [.upserted]
      writers := st.writers ++ [.unborn] }
  | .refresh c =>
    match st.stages[c]? with
    | some .upserted =>
      some { st with
        backend := st.backend.refreshSinglePeerCache
        stages := st.stages.set c .refreshed }
    | _ => none
  | .spawn c =>
    match st.stages[c]?, st.owners[c]? with
    | some .refreshed, some p =>
      some { st with
        backend := { st.backend with roundRobin := st.backend.roundRobin ++ [p] }
        stages := st.stages.set c .spawned
        writers := st.writers.set c .idle }
    | _, _ => none
  | .insert c =>
    match st.stages[c]?, st.owners[c]? with
    | some .spawned, some p => { st with stages := st.stages.set c .done }.queueNext (.insert p c)
    | _, _ => none
  | .send p m => (st.backend.peers.lookup p).map fun c => st.sendOn p c m
  | .sendCached m =>
    if st.backend.peerCount = 1 then
      st.backend.singlePeer.map fun single => st.sendOn single.peerId single.sendQueue m
    else none
  | .sendFull m =>
    if st.backend.peerCount = 1 then
      st.backend.singlePeer.map fun single =>
        { st with sends := st.sends ++ [⟨single.peerId, single.sendQueue, m⟩] }
    else none
  | .resume j =>
    st.sends[j]?.map fun s =>
      { st with sends := st.sends.eraseIdx j }.sendOn s.peer s.sender s.message
  | .take c =>
    match st.writers[c]?, st.queueOf c with
    | some .idle, _ :: _ | some .busy, _ :: _ =>
      some { st.setChannels (st.backend.channels.apply (.received c)) with
        writers := st.writers.set c .busy }
    | _, _ => none
  | .flush c =>
    match st.writers[c]? with
    | some .busy => some { st with writers := st.writers.set c .idle }
    | _ => none
  | .fail c =>
    -- the error drops the receiver, and `peer_disconnected` is called next
    match st.writers[c]?, st.owners[c]? with
    | some .busy, some p =>
      some ({ st.setChannels (st.backend.channels.apply (.closed c)) with
        writers := st.writers.set c .ended }.disconnecting p c)
    | _, _ => none
  | .finish c =>
    -- the writer returns when the last sender is gone and the queue is empty
    match st.writers[c]?, st.queueOf c with
    | some .idle, [] =>
      if (∀ e ∈ st.backend.peers.entries, e.2 ≠ c) ∧
          st.backend.singlePeer.all (·.sendQueue ≠ c) ∧ (∀ s ∈ st.sends, s.sender ≠ c) then
        some { st.setChannels (st.backend.channels.apply (.closed c)) with
          writers := st.writers.set c .ended }
      else none
    | _, _ => none
  | .disconnect i => st.disconnects[i]?.bind fun d => st.disconnectNext i d
  | .queue (.insert _ _) => none
  | .queue (.remove _) => none
  | .queue .clear => none
  | .queue (.polled outcome) =>
    match st.queue.consumer with
    | .polling _ _ p held _ =>
      -- the callback for an ended stream and `recv` for an error call `peer_disconnected`
      if outcome = .error ∨ outcome = .ended then
        (st.disconnecting p held.stream).queueNext (.polled outcome)
      else st.queueNext (.polled outcome)
    | _ => none
  | .queue a => st.queueNext a

def system : Lib.System (State W) (Action W) where
  init := .init
  next := next

def actor (st : State W) : Action W → Option Sender
  | .connect _ => some st.owners.length
  | .refresh c | .spawn c | .insert c | .take c | .flush c | .fail c | .finish c => some c
  | .disconnect i => st.disconnects[i]?.map Disconnect.cause
  | .queue (.polled _) =>
    match st.queue.consumer with
    | .polling _ _ _ held _ => some held.stream
    | _ => none
  | _ => none

def Replaced (st : State W) (c : Sender) : Prop :=
  c < st.owners.length ∧ ∃ c', c' < st.owners.length ∧ c < c' ∧ st.owners[c']? = st.owners[c]?

instance (st : State W) (c : Sender) : Decidable (Replaced st c) :=
  inferInstanceAs (Decidable (_ ∧ _))

end ZmqRs.Tasks
