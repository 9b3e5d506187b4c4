import ZmqRs.Recv
import ZmqRs.Codec.Frames
import ZmqRs.Codec.Await

/-! The handshake: an exchange of greetings, then one of `READY` commands. -/

namespace ZmqRs

open Codec

inductive SocketType
  | pair
  | pub
  | sub
  | req
  | rep
  | dealer
  | router
  | pull
  | push
  | xpub
  | xsub
  | stream
  deriving DecidableEq

namespace SocketType

def toNat : SocketType → Nat
  | .pair => 0
  | .pub => 1
  | .sub => 2
  | .req => 3
  | .rep => 4
  | .dealer => 5
  | .router => 6
  | .pull => 7
  | .push => 8
  | .xpub => 9
  | .xsub => 10
  | .stream => 11

def asBytes : SocketType → Bytes
  | .pair => [0x50, 0x41, 0x49, 0x52]
  | .pub => [0x50, 0x55, 0x42]
  | .sub => [0x53, 0x55, 0x42]
  | .req => [0x52, 0x45, 0x51]
  | .rep => [0x52, 0x45, 0x50]
  | .dealer => [0x44, 0x45, 0x41, 0x4c, 0x45, 0x52]
  | .router => [0x52, 0x4f, 0x55, 0x54, 0x45, 0x52]
  | .pull => [0x50, 0x55, 0x4c, 0x4c]
  | .push => [0x50, 0x55, 0x53, 0x48]
  | .xpub => [0x58, 0x50, 0x55, 0x42]
  | .xsub => [0x58, 0x53, 0x55, 0x42]
  | .stream => [0x53, 0x54, 0x52, 0x45, 0x41, 0x4d]

def all : List SocketType :=
  [.pair, .pub, .sub, .req, .rep, .dealer, .router, .pull, .push, .xpub, .xsub, .stream]

def tryFrom (s : Bytes) : Except ZmqError SocketType :=
  match all.find? fun t => t.asBytes = s with
  | some t => .ok t
  | none => .error (.other "Unknown socket type")

def compatibilityMatrix : List UInt8 :=
  [1, 0, 0, 0, 0, 0, 0, 0, 0, 0, 0,
   0, 0, 1, 0, 0, 0, 0, 0, 0, 0, 1,
   0, 1, 0, 0, 0, 0, 0, 0, 0, 1, 0,
   0, 0, 0, 0, 1, 0, 1, 0, 0, 0, 0,
   0, 0, 0, 1, 0, 1, 0, 0, 0, 0, 0,
   0, 0, 0, 0, 1, 1, 1, 0, 0, 0, 0,
   0, 0, 0, 1, 0, 1, 1, 0, 0, 0, 0,
   0, 0, 0, 0, 0, 0, 0, 0, 1, 0, 0,
   0, 0, 0, 0, 0, 0, 0, 1, 0, 0, 0,
   0, 0, 1, 0, 0, 0, 0, 0, 0, 0, 1,
   0, 1, 0, 0, 0, 0, 0, 0, 0, 1, 0]

/-- The matrix has no row and no column for `STREAM`; an index past its end panics. -/
def compatible (self other : SocketType) : Res ZmqError Bool :=
  match compatibilityMatrix[self.toNat * 11 + other.toNat]? with
  | some entry => .ok (entry != 0)
  | none => .error .panic

def implemented : SocketType → Bool
  | .pair | .stream => false
  | _ => true

theorem tryFrom_eq_ok {s : Bytes} {t : SocketType} : tryFrom s = .ok t ↔ s = t.asBytes := by
  constructor
  · intro h
    rw [tryFrom] at h
    split at h
    · rename_i t' hf
      cases h
      simpa [eq_comm] using List.find?_some hf
    · cases h
  · rintro rfl
    cases t <;> rfl

theorem compatible_eq_panic {t u : SocketType} (ht : t.implemented = true) :
    t.compatible u = .error .panic ↔ t = .xsub ∧ u = .stream := by
  revert ht
  cases t <;> cases u <;> decide

theorem compatible_error {t u : SocketType} {e : Fault ZmqError}
    (h : t.compatible u = .error e) : e = .panic := by
  rw [compatible] at h
  split at h <;> cases h
  rfl

theorem compatible_comm {t u : SocketType} (ht : t.implemented = true)
    (hu : u.implemented = true) : t.compatible u = u.compatible t := by
  revert hu ht
  cases t <;> cases u <;> decide

end SocketType

abbrev VersionLe (a b : UInt8 × UInt8) : Prop := a.1 < b.1 ∨ a.1 = b.1 ∧ a.2 ≤ b.2

def negotiateVersion : Message → Res ZmqError (UInt8 × UInt8)
  | .greeting peer =>
    if VersionLe ZmqGreeting.default.version peer.version then .ok ZmqGreeting.default.version
    else .error (.error (.unsupportedVersion peer.version))
  | _ => .error (.error (.other "Failed Greeting exchange"))

namespace Handshake

abbrev Item := ZmqFramedRead.Item

def onGreeting : Option Item → Res ZmqError (UInt8 × UInt8)
  | some (.ok message) => negotiateVersion message
  | some (.error e) => .error (e.map .codec)
  | none => .error (.error (.other "Failed Greeting exchange"))

def otherSockType (properties : Properties) : Res ZmqError SocketType :=
  match properties.lookup "Socket-Type" with
  | some s => (SocketType.tryFrom s).mapError .error
  | none => .error (.error (.other "Failed to parse other socket type"))

def peerId (fresh : PeerIdentity) (properties : Properties) : Res ZmqError PeerIdentity :=
  match properties.lookup "Identity" with
  | some x => (PeerIdentity.tryFrom fresh x).mapError .error
  | none => .ok fresh

def onProperties (socketType : SocketType) (fresh : PeerIdentity) (properties : Properties) :
    Res ZmqError PeerIdentity := do
  let otherSockType ← otherSockType properties
  let peerId ← peerId fresh properties
  if ← socketType.compatible otherSockType then return peerId
  else throw (.error (.other "Provided sockets combination is not compatible"))

def onReady (socketType : SocketType) (fresh : PeerIdentity) :
    Option Item → Res ZmqError PeerIdentity
  | some (.ok (.command command)) =>
    match command.name with
    | .ready => onProperties socketType fresh command.properties
  | some (.ok _) => .error (.error (.other "Failed to confirm ready state"))
  | some (.error e) => .error (e.map .codec)
  | none => .error (.error (.other "No reply from server"))

def readyProperties (socketType : SocketType) (peerId : Option PeerIdentity) : Properties :=
  let ready := Finmap.singleton "Socket-Type" socketType.asBytes
  match peerId with
  | none => ready
  | some identity => ready.insert "Identity" identity.bytes

end Handshake

section Exchanges

variable [Target]

namespace Handshake

structure Exchange (α : Type) where
  result : Poll (Res ZmqError α)
  reader : ZmqFramedRead
  reads : List PollRead
  taken : Bytes

/-- The two exchanges: `sent` is how the write ended, `handle` what is made of the answer. -/
def exchange (handle : Option Item → Res ZmqError α) (sent : Except CodecError Unit)
    (r : ZmqFramedRead) (reads : List PollRead) : Exchange α :=
  match sent with
  | .error e => ⟨.ready (.error (.error (.codec e))), r, reads, []⟩
  | .ok () =>
    let p := r.awaitNext reads
    match p.result with
    | .pending => ⟨.pending, p.reader, p.reads, p.taken⟩
    | .ready item => ⟨.ready (handle item), p.reader, p.reads, p.taken⟩

def greetExchange : Except CodecError Unit → ZmqFramedRead → List PollRead →
    Exchange (UInt8 × UInt8) :=
  exchange onGreeting

def readyExchange (socketType : SocketType) (fresh : PeerIdentity) :
    Except CodecError Unit → ZmqFramedRead → List PollRead → Exchange PeerIdentity :=
  exchange (onReady socketType fresh)

def peerHandshake (socketType : SocketType) (fresh : PeerIdentity)
    (greeting ready : Except CodecError Unit) (r : ZmqFramedRead) (reads : List PollRead) :
    Exchange PeerIdentity :=
  -- `greeting` and `ready` are how the two writes end.
  let g := greetExchange greeting r reads
  match g.result with
  | .pending => ⟨.pending, g.reader, g.reads, g.taken⟩
  | .ready (.error e) => ⟨.ready (.error e), g.reader, g.reads, g.taken⟩
  | .ready (.ok _) =>
    let h := readyExchange socketType fresh ready g.reader g.reads
    { h with taken := g.taken ++ h.taken }

end Handshake

end Exchanges

end ZmqRs
