import ZmqRs.SubBackend

/-! `connect_with_reconnect` and its background tasks, next to the fair queue of
the socket, the accept callbacks and the other callers of `peer_disconnected`. -/

namespace ZmqRs.Reconnect

open Codec (Poll)
open SubSocketBackend (subscriptionMessages)

/-- Where a connection task is.  The first three are in `peer_connected` or right
behind it; `retrying` is the loop around `try_reconnect`. -/
inductive Pc
  | replaying (p : PeerIdentity) (sendQueue : Wire) (rest : List ZmqMessage)
  | upserted (p : PeerIdentity)
  | connected (p : PeerIdentity)
  | waiting
  | retrying
  | stopped

/-- `registered` is the identity the task registered its notifier for last.  An
accept callback ends with `peer_connected` and registers nothing. -/
structure Task where
  pc : Pc
  registered : Option PeerIdentity
  accepted : Bool

/-- The notifier of a task is its number.  The fair queue of the backend is `queue`. -/
structure State (S W T : Type) where
  backend : SubSocketBackend Unit Unit Nat
  queue : FairQueue.State S PeerIdentity W T
  tasks : List Task

inductive Action (S W E : Type)
  | subscribe (t : Bytes)
  | unsubscribe (t : Bytes)
  | connect (accepted : Bool) (p : PeerIdentity) (order : List Bytes)
  | replay (i : Nat) (failure : Option CodecError)
  | upsert (i : Nat)
  | insert (i : Nat) (recvQueue : S)
  | register (i : Nat)
  | notified (i : Nat)
  | retryFailed (i : Nat)
  | reconnect (i : Nat) (p : PeerIdentity) (order : List Bytes)
  | shutdown (i : Nat)
  | disconnect (p : PeerIdentity)
  | callback
  | queue (a : FairQueue.Action S PeerIdentity W E)

variable [Target] {S W T E : Type}

namespace State

def init : State S W T := ⟨.withOptions none, .init, []⟩

def setPc (st : State S W T) (i : Nat) (task : Task) (pc : Pc) : State S W T :=
  { st with tasks := st.tasks.set i { task with pc := pc } }

def peerDisconnected (st : State S W T) (p : PeerIdentity) : State S W T :=
  { st with
    backend := st.backend.peerDisconnected p
    queue := { st.queue with inner := st.queue.inner.remove p } }

end State

variable (poll : S → E → Poll (Option T) × S)

def next (st : State S W T) : Action S W E → Option (State S W T)
  | .subscribe t => some { st with backend := st.backend.rememberSubscription t }
  | .unsubscribe t => some { st with backend := st.backend.forgetSubscription t }
  | .connect accepted p order =>
    -- the handshake is over and `peer_connected` takes its snapshot
    if st.backend.IsOrder order then
      some { st with
        tasks := st.tasks ++
          [⟨.replaying p ⟨[], none⟩ (subscriptionMessages order), none, accepted⟩] }
    else none
  | .replay i failure =>
    match st.tasks[i]? with
    | some ⟨.replaying p sendQueue (message :: rest), registered, accepted⟩ =>
      let task : Task := ⟨.replaying p sendQueue (message :: rest), registered, accepted⟩
      match failure with
      | some _ => some (st.setPc i task (.connected p))
      | none => some (st.setPc i task (.replaying p (sendQueue.push (.message message)) rest))
    | _ => none
  | .upsert i =>
    match st.tasks[i]? with
    | some ⟨.replaying p sendQueue [], registered, accepted⟩ =>
      some ({ st with backend := st.backend.insertPeer p sendQueue }.setPc i
        ⟨.replaying p sendQueue [], registered, accepted⟩ (.upserted p))
    | _ => none
  | .insert i recvQueue =>
    match st.tasks[i]? with
    | some ⟨.upserted p, registered, accepted⟩ =>
      (FairQueue.next true poll st.queue (.insert p recvQueue)).map fun queue =>
        { st with queue := queue }.setPc i ⟨.upserted p, registered, accepted⟩ (.connected p)
    | _ => none
  | .register i =>
    match st.tasks[i]? with
    | some ⟨.connected p, _, false⟩ =>
      some { st with
        backend := st.backend.registerDisconnectNotifier p i
        tasks := st.tasks.set i ⟨.waiting, some p, false⟩ }
    | _ => none
  | .notified i =>
    match st.tasks[i]? with
    | some ⟨.waiting, registered, accepted⟩ =>
      (st.backend.notices.find? (·.1 = i)).map fun notice =>
        { st with
          backend := { st.backend with notices := st.backend.notices.erase notice } }.setPc i
            ⟨.waiting, registered, accepted⟩ .retrying
    | _ => none
  | .retryFailed i =>
    match st.tasks[i]? with
    | some ⟨.retrying, _, _⟩ => some st
    | _ => none
  | .reconnect i p order =>
    match st.tasks[i]? with
    | some ⟨.retrying, registered, accepted⟩ =>
      if st.backend.IsOrder order then
        some (st.setPc i ⟨.retrying, registered, accepted⟩
          (.replaying p ⟨[], none⟩ (subscriptionMessages order)))
      else none
    | _ => none
  | .shutdown i =>
    match st.tasks[i]? with
    | some ⟨.waiting, registered, accepted⟩ =>
      some (st.setPc i ⟨.waiting, registered, accepted⟩ .stopped)
    | some ⟨.retrying, registered, accepted⟩ =>
      some (st.setPc i ⟨.retrying, registered, accepted⟩ .stopped)
    | _ => none
  | .disconnect p => some (st.peerDisconnected p)
  | .callback =>
    -- the callback for an ended stream, and the way back into the loop of `poll_next`
    match st.queue.consumer with
    | .ended _ _ p =>
      (FairQueue.next true poll (st.peerDisconnected p).queue .resume).map fun queue =>
        { st.peerDisconnected p with queue := queue }
    | _ => none
  | .queue (.insert _ _) => none
  | .queue (.remove _) => none
  | .queue .clear => none
  | .queue .resume => none
  | .queue a => (FairQueue.next true poll st.queue a).map fun queue => { st with queue := queue }

def system : Lib.System (State S W T) (Action S W E) where
  init := .init
  next := next poll

def takenOut : FairQueue.Consumer S PeerIdentity W T → Option PeerIdentity
  | .polling _ _ p _ _ => some p
  | .ended _ _ p => some p
  | _ => none

def InQueue (queue : FairQueue.State S PeerIdentity W T) (p : PeerIdentity) : Prop :=
  (queue.inner.streams.lookup p).isSome ∨ takenOut queue.consumer = some p

def Reportable (st : State S W T) (i : Nat) (task : Task) : Prop :=
  ∃ p, task.registered = some p ∧ st.backend.disconnectNotifiers.lookup p = some i ∧
    (st.backend.peers.lookup p).isSome ∧ InQueue st.queue p

end ZmqRs.Reconnect
