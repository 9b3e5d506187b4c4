import ZmqRs.FairQueue
import ZmqRs.Codec.FramedLaws

/-! Receiving from a socket: the `recv` loops of PULL, SUB, XSUB, DEALER and
ROUTER over one fair queue of readers.  The futures a caller makes, drops and
polls are part of the system. -/

namespace ZmqRs

open Codec

def Fault.map (f : ε → ε') : Fault ε → Fault ε'
  | .error e => .error (f e)
  | .panic => .panic

def Codec.Poll.toOption : Poll α → Option α
  | .pending => none
  | .ready a => some a

namespace Recv

abbrev Item := ZmqFramedRead.Item

def ready (b : Bytes) : PollRead := fun len =>
  .ready ⟨min b.length len, by omega⟩ ⟨(b ++ List.replicate len 0).take len, by simp⟩

structure Arm where
  disconnect : Option PeerIdentity
  result : Option (Res ZmqError ZmqMessage)

/-- What the loops differ in: what is returned for a message, and whether an
error of a connection disconnects the peer and ends the call. -/
structure Loop where
  deliver : PeerIdentity → ZmqMessage → ZmqMessage
  disconnects : Bool
  reports : Bool

def Loop.arm (l : Loop) : Option (PeerIdentity × Item) → Arm
  | some (p, .ok (.message m)) => ⟨none, some (.ok (l.deliver p m))⟩
  | some (_, .ok _) => ⟨none, none⟩
  | some (p, .error e) =>
    ⟨if l.disconnects then some p else none,
      if l.reports then some (.error (e.map .codec)) else none⟩
  | none => ⟨none, some (.error (.error .noMessage))⟩

def PullSocket.recv : Loop := ⟨fun _ message => message, true, true⟩

def SubSocket.recv : Loop := ⟨fun _ message => message, true, true⟩

def XSubSocket.recv : Loop := ⟨fun _ message => message, true, true⟩

def DealerSocket.recv : Loop := ⟨fun _ message => message, false, true⟩

def RouterSocket.recv : Loop := ⟨fun peerId message => message.pushFront peerId.bytes, true, false⟩

inductive Receiver
  | pull
  | sub
  | xsub
  | dealer
  | router
  deriving DecidableEq

def Receiver.recv : Receiver → Loop
  | .pull => PullSocket.recv
  | .sub => SubSocket.recv
  | .xsub => XSubSocket.recv
  | .dealer => DealerSocket.recv
  | .router => RouterSocket.recv

section Defs

variable [Target] (W : Type)

inductive Pc
  | parked
  | polling (task : W)
  | again (task : W)
  | done
  deriving DecidableEq

/-- `delivered` and `decoded` are the bytes each peer's connection has given to
its reader and what the codec made of them, the handshake included. -/
structure Core where
  queue : FairQueue.State ZmqFramedRead PeerIdentity W Item
  connected : List PeerIdentity
  delivered : PeerIdentity → Bytes
  decoded : PeerIdentity → List Item
  returned : List (Option PeerIdentity × Res ZmqError ZmqMessage)
  pc : Pc W

structure State where
  core : Core W
  future : Bool

/-- `connect p n reads` is `n` polls of a new reader by the handshake, followed
by `peer_connected`.  `queue` is a section of `poll_next` or of another task. -/
inductive CoreAction
  | connect (p : PeerIdentity) (n : Nat) (reads : List PollRead)
  | queue (a : FairQueue.Action ZmqFramedRead PeerIdentity W (List PollRead))
  | poll (task : W)
  | handle
  | loop
  | return

inductive Action
  | recv
  | drop
  | core (a : CoreAction W)

end Defs

variable [Target] {W : Type}

def poll (r : ZmqFramedRead) (reads : List PollRead) : Poll (Option Item) × ZmqFramedRead :=
  ((r.pollNext reads).result, (r.pollNext reads).reader)

def handshaken (run : ZmqFramedRead.Run) : Bool :=
  match run.results.filterMap Poll.toOption with
  | [some (.ok (.greeting _)), some (.ok (.command _))] => true
  | _ => false

namespace Core

def init : Core W := ⟨.init, [], fun _ => [], fun _ => [], [], .parked⟩

variable (l : Loop) (options : SocketOptions)

def queueNext (c : Core W)
    (a : FairQueue.Action ZmqFramedRead PeerIdentity W (List PollRead)) : Option (Core W) :=
  (FairQueue.next true poll c.queue a).map fun queue => { c with queue := queue }

def record (c : Core W) (p : PeerIdentity) (polled : ZmqFramedRead.Polled) : Core W :=
  { c with
    delivered := Function.update c.delivered p (c.delivered p ++ polled.taken)
    decoded := Function.update c.decoded p
      (c.decoded p ++ (ZmqFramedRead.decodeItem polled.result).toList) }

def connect (c : Core W) (p : PeerIdentity) (run : ZmqFramedRead.Run) : Option (Core W) :=
  { c with
    connected := p :: c.connected
    delivered := Function.update c.delivered p run.taken
    decoded := Function.update c.decoded p (ZmqFramedRead.items run)
  }.queueNext (.insert p run.reader)

def onReady (c : Core W) (task : W) (r : Option (PeerIdentity × Item)) : Core W :=
  let queue := match (l.arm r).disconnect with
    | none => c.queue
    | some p => { c.queue with inner := c.queue.inner.remove p }
  match (l.arm r).result with
  | none => { c with queue := queue, pc := .again task }
  | some result =>
    { c with queue := queue, returned := c.returned ++ [(r.map (·.1), result)], pc := .done }

def next (c : Core W) : CoreAction W → Option (Core W)
  | .connect p n reads =>
    let run := ZmqFramedRead.pollMany n (.new options) reads
    if p ∉ c.connected ∧ handshaken run then c.connect p run else none
  | .queue (.insert _ _) => none
  | .queue (.pollNext _) => none
  | .queue (.polled reads) =>
    match c.queue.consumer with
    | .polling _ _ p held _ => (c.record p (held.stream.pollNext reads)).queueNext (.polled reads)
    | _ => none
  | .queue a => c.queueNext a
  | .poll task =>
    match c.pc with
    | .parked => { c with pc := .polling task }.queueNext (.pollNext task)
    | _ => none
  | .handle =>
    match c.pc, c.queue.consumer with
    | .polling _, .idle (some (_, .pending)) => some { c with pc := .parked }
    | .polling task, .idle (some (_, .ready r)) => some (c.onReady l task r)
    | _, _ => none
  | .loop =>
    match c.pc with
    | .again task => { c with pc := .polling task }.queueNext (.pollNext task)
    | _ => none
  | .return =>
    match c.pc with
    | .done => some { c with pc := .parked }
    | _ => none

end Core

variable (l : Loop) (options : SocketOptions)

def coreSystem : Lib.System (Core W) (CoreAction W) where
  init := .init
  next := Core.next l options

def Action.core? : Action W → Option (CoreAction W)
  | .core a => some a
  | _ => none

def next (st : State W) : Action W → Option (State W)
  -- A future can be made when there is none and dropped between two polls.
  | .recv => if st.future then none else some { st with future := true }
  | .drop =>
    match st.future, st.core.pc with
    | true, .parked => some { st with future := false }
    | _, _ => none
  | .core (.poll task) =>
    if st.future then (st.core.next l options (.poll task)).map (⟨·, true⟩) else none
  | .core .return => (st.core.next l options .return).map (⟨·, false⟩)
  | .core a => (st.core.next l options a).map (⟨·, st.future⟩)

def system : Lib.System (State W) (Action W) where
  init := ⟨.init, false⟩
  next := next l options

end Recv

end ZmqRs
