import ZmqRs.Lib.BigEndian

/-! The vocabulary shared by every part of the model: machine words, byte
buffers and the panics they can raise, messages, peer identities and options. -/

namespace ZmqRs

/-- The compilation target fixes the width of `usize` and `isize`. -/
class Target where
  usizeBits : Nat
  usizeBits_eq : usizeBits = 32 ∨ usizeBits = 64

@[reducible] def Target.x64 : Target := ⟨64, .inr rfl⟩

def usizeMax [Target] : Nat := 2 ^ Target.usizeBits - 1

def isizeMax [Target] : Nat := 2 ^ (Target.usizeBits - 1) - 1

theorem isizeMax_cases [Target] : isizeMax = 2 ^ 31 - 1 ∨ isizeMax = 2 ^ 63 - 1 := by
  rcases Target.usizeBits_eq with h | h <;> simp [isizeMax, h]

theorem isizeMax_le_usizeMax [Target] : isizeMax ≤ usizeMax := by
  rcases Target.usizeBits_eq with h | h <;> simp [isizeMax, usizeMax, h]

abbrev Bytes := List UInt8

/-- How a fallible call ends when it does not succeed: with the error it
returns, or by unwinding. -/
inductive Fault (ε : Type)
  | error (e : ε)
  | panic
  deriving DecidableEq

abbrev Res (ε α : Type) := Except (Fault ε) α

namespace Buf

def getU8 : Bytes → Res ε (UInt8 × Bytes)
  | [] => .error .panic
  | b :: rest => .ok (b, rest)

def splitTo (n : Nat) (buf : Bytes) : Res ε (Bytes × Bytes) :=
  if buf.length < n then .error .panic else .ok (buf.take n, buf.drop n)

def getUint (n : Nat) (buf : Bytes) : Res ε (Nat × Bytes) :=
  if buf.length < n then .error .panic
  else .ok (Lib.BigEndian.decode (buf.take n), buf.drop n)

@[simp] theorem getU8_cons (b : UInt8) (rest : Bytes) :
    (getU8 (b :: rest) : Res ε _) = .ok (b, rest) := rfl

theorem splitTo_of_le {n : Nat} {buf : Bytes} (h : n ≤ buf.length) :
    (splitTo n buf : Res ε _) = .ok (buf.take n, buf.drop n) := by
  rw [splitTo, if_neg (Nat.not_lt.mpr h)]

theorem getUint_of_le {n : Nat} {buf : Bytes} (h : n ≤ buf.length) :
    (getUint n buf : Res ε _) = .ok (Lib.BigEndian.decode (buf.take n), buf.drop n) := by
  rw [getUint, if_neg (Nat.not_lt.mpr h)]

@[simp] theorem splitTo_append (a rest : Bytes) :
    (splitTo a.length (a ++ rest) : Res ε _) = .ok (a, rest) := by
  simp [splitTo]

theorem getUint_encode (n : Nat) {v : Nat} (h : v < 256 ^ n) (rest : Bytes) :
    (getUint n (Lib.BigEndian.encode n v ++ rest) : Res ε _) = .ok (v, rest) := by
  simp [getUint, List.take_left', List.drop_left', Lib.BigEndian.decode_encode n h]

end Buf

inductive ErrorKind
  | brokenPipe
  | unexpectedEof
  | other (code : Nat)
  deriving DecidableEq

structure IoError where
  kind : ErrorKind
  message : String
  deriving DecidableEq

inductive CodecError
  | command (message : String)
  | greeting (message : String)
  | mechanism (message : String)
  | decode (message : String)
  | io (error : IoError)
  | other (message : String)
  deriving DecidableEq

def Fault.Reported : Fault CodecError → Prop
  | .error (.io _) => False
  | .error _ => True
  | .panic => False

/-- A multipart message.  Nothing here forbids an empty frame list; the
constructors of the source do, its other operations need not. -/
structure ZmqMessage where
  frames : List Bytes
  deriving DecidableEq

namespace ZmqMessage

def ofBytes (b : Bytes) : ZmqMessage := ⟨[b]⟩

def pushBack (m : ZmqMessage) (frame : Bytes) : ZmqMessage := ⟨m.frames ++ [frame]⟩

def pushFront (m : ZmqMessage) (frame : Bytes) : ZmqMessage := ⟨frame :: m.frames⟩

def popFront (m : ZmqMessage) : Option Bytes × ZmqMessage :=
  match m.frames with
  | [] => (none, m)
  | f :: fs => (some f, ⟨fs⟩)

def len (m : ZmqMessage) : Nat := m.frames.length

def isEmpty (m : ZmqMessage) : Bool := m.frames.isEmpty

def get (m : ZmqMessage) (index : Nat) : Option Bytes := m.frames[index]?

def prepend (m message : ZmqMessage) : ZmqMessage :=
  message.frames.reverse.foldl pushFront m

def splitOff (m : ZmqMessage) (at' : Nat) : Option (ZmqMessage × ZmqMessage) :=
  -- The part kept and the part returned; `VecDeque::split_off` panics past the end.
  if m.len < at' then none else some (⟨m.frames.take at'⟩, ⟨m.frames.drop at'⟩)

@[simp] theorem frames_prepend (m message : ZmqMessage) :
    (m.prepend message).frames = message.frames ++ m.frames := by
  suffices h : ∀ l : List Bytes, (l.foldl pushFront m).frames = l.reverse ++ m.frames by
    rw [prepend, h, List.reverse_reverse]
  intro l
  induction l generalizing m with
  | nil => rfl
  | cons f l ih => simp [ih, pushFront]

end ZmqMessage

/-- The constructors of the source reject more than 255 bytes and replace an
empty identity by a fresh one. -/
structure PeerIdentity where
  bytes : Bytes
  nonempty : bytes ≠ []
  short : bytes.length ≤ 255
  deriving DecidableEq

def PeerIdentity.ofByte (b : UInt8) : PeerIdentity := ⟨[b], by simp, by simp⟩

inductive ZmqError
  | network (error : IoError)
  | codec (error : CodecError)
  | socket (message : String)
  | bufferFull (message : String)
  | returnToSender (reason : String) (message : ZmqMessage)
  | other (message : String)
  | noMessage
  | peerIdentity
  | unsupportedVersion (version : UInt8 × UInt8)
  deriving DecidableEq

/-- `TryFrom<Bytes> for PeerIdentity`; `fresh` is the random identity that
`PeerIdentity::new` would make. -/
def PeerIdentity.tryFrom (fresh : PeerIdentity) (data : Bytes) : Except ZmqError PeerIdentity :=
  if he : data = [] then .ok fresh
  else if hl : 255 < data.length then .error .peerIdentity
  else .ok ⟨data, he, Nat.le_of_not_lt hl⟩

@[simp] theorem PeerIdentity.tryFrom_bytes (fresh p : PeerIdentity) :
    PeerIdentity.tryFrom fresh p.bytes = .ok p := by
  rw [PeerIdentity.tryFrom, dif_neg p.nonempty, dif_neg (Nat.not_lt.mpr p.short)]

theorem PeerIdentity.tryFrom_eq_ok {fresh id : PeerIdentity} {x : Bytes} :
    PeerIdentity.tryFrom fresh x = .ok id ↔
      x.length ≤ 255 ∧ id.bytes = if x = [] then fresh.bytes else x := by
  rcases id with ⟨bytes, hne, hle⟩
  rcases fresh with ⟨fbytes, fne, fle⟩
  rw [PeerIdentity.tryFrom]
  split
  · simp [*, eq_comm]
  · split
    · simp [*]
    · simp [*, eq_comm]
      omega

/-- The options a connection reads.  The bounds are what `read_buffer` asserts
before it stores anything. -/
structure SocketOptions [Target] where
  peerId : Option PeerIdentity
  readBufferInitialSize : Nat
  readBufferMaxSize : Nat
  readBufferShortReads : Nat
  initial_pos : 0 < readBufferInitialSize
  initial_le_max : readBufferInitialSize ≤ readBufferMaxSize
  max_le : readBufferMaxSize ≤ isizeMax / 2
  shortReads_pos : 0 < readBufferShortReads

namespace SocketOptions

variable [Target]

def default : SocketOptions where
  peerId := none
  readBufferInitialSize := 128
  readBufferMaxSize := 64 * 1024
  readBufferShortReads := 2
  initial_pos := by decide
  initial_le_max := by decide
  max_le := by rcases isizeMax_cases with h | h <;> rw [h] <;> decide
  shortReads_pos := by decide

def readBuffer (o : SocketOptions) (initialSize maxSize shortReads : Nat) : Option SocketOptions :=
  -- `none` is a failed assertion.
  if h₁ : 0 < initialSize then
    if h₂ : initialSize ≤ maxSize then
      if h₃ : maxSize ≤ isizeMax / 2 then
        if h₄ : 0 < shortReads then
          some ⟨o.peerId, initialSize, maxSize, shortReads, h₁, h₂, h₃, h₄⟩
        else none
      else none
    else none
  else none

section ReadBuffer

variable {o o' : SocketOptions} {initialSize maxSize shortReads : Nat}

theorem readBuffer_isSome : (o.readBuffer initialSize maxSize shortReads).isSome ↔
    0 < initialSize ∧ initialSize ≤ maxSize ∧ maxSize ≤ isizeMax / 2 ∧ 0 < shortReads := by
  rw [readBuffer]
  split_ifs with h₁ h₂ h₃ h₄ <;> simp [*]

theorem readBuffer_eq_some : o.readBuffer initialSize maxSize shortReads = some o' ↔
    o'.peerId = o.peerId ∧ o'.readBufferInitialSize = initialSize ∧
      o'.readBufferMaxSize = maxSize ∧ o'.readBufferShortReads = shortReads := by
  constructor
  · intro h
    rw [readBuffer] at h
    split_ifs at h
    obtain rfl := Option.some.inj h
    exact ⟨rfl, rfl, rfl, rfl⟩
  · rcases o' with ⟨peerId, initial, max, short, h₁, h₂, h₃, h₄⟩
    rintro ⟨rfl, rfl, rfl, rfl⟩
    rw [readBuffer, dif_pos h₁, dif_pos h₂, dif_pos h₃, dif_pos h₄]

end ReadBuffer

end SocketOptions

end ZmqRs
