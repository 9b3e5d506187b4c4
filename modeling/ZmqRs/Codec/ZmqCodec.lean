import ZmqRs.Lib.Incremental
import ZmqRs.Codec.Greeting
import ZmqRs.Codec.Command

namespace ZmqRs.Codec

open Lib.Incremental

inductive Message
  | greeting (g : ZmqGreeting)
  | command (c : ZmqCommand)
  | message (m : ZmqMessage)
  deriving DecidableEq

structure Frame where
  command : Bool
  long : Bool
  more : Bool
  deriving DecidableEq

def Frame.ofFlags (flags : UInt8) : Frame where
  command := (flags &&& 0b0000_0100) != 0
  long := (flags &&& 0b0000_0010) != 0
  more := (flags &&& 0b0000_0001) != 0

inductive DecoderState
  | greeting
  | frameHeader
  | frameLen (frame : Frame)
  | frame (frame : Frame)
  deriving DecidableEq

structure ZmqCodec where
  state : DecoderState
  waitingFor : Nat
  bufferedMessage : Option ZmqMessage
  maxReadChunkSize : Nat
  deriving DecidableEq

namespace ZmqCodec

variable [Target]

def withOptions (options : SocketOptions) : ZmqCodec where
  state := .greeting
  waitingFor := 64
  bufferedMessage := none
  maxReadChunkSize := options.readBufferMaxSize

def bytesNeeded (c : ZmqCodec) (bufferedLen : Nat) : Nat := c.waitingFor - bufferedLen

def checkLen (max len : Nat) : Except CodecError Nat :=
  -- The body of the `FrameLen` state after the length has been read. The error leaves the state
  -- and `waiting_for` as they were, with the length consumed.
  if usizeMax < len then .error (.decode "Frame length exceeds read buffer capacity")
  -- `checked_add` fails past `usize::MAX`, the filter past `isize::MAX`
  else if usizeMax < len + max ∨ isizeMax < len + max then
    .error (.decode "Frame length exceeds read buffer capacity")
  else .ok len

abbrev Turn := Move ZmqCodec UInt8 Message (Fault CodecError)

def onGreeting (c : ZmqCodec) : Bytes → Turn
  | [] => .fail .panic c []
  | first :: src =>
    if first != 0xff then .fail (.error (.decode "Bad first byte of greeting")) c (first :: src)
    else
      let c := { c with state := .frameHeader, waitingFor := 1 }
      match Buf.splitTo 64 (first :: src) with
      | .error e => .fail e c (first :: src)
      | .ok (data, src) =>
        match ZmqGreeting.tryFrom data with
        | .error e => .fail (.error e) c src
        | .ok g => .emit (.greeting g) c src

def onFrameHeader (c : ZmqCodec) (src : Bytes) : Turn :=
  match Buf.getU8 src with
  | .error e => .fail e c src
  | .ok (flags, src) =>
    let frame := Frame.ofFlags flags
    .go { c with state := .frameLen frame, waitingFor := if frame.long then 8 else 1 } src

def onFrameLen (c : ZmqCodec) (frame : Frame) (src : Bytes) : Turn :=
  if frame.long then
    match Buf.getUint 8 src with
    | .error e => .fail e c src
    | .ok (len, src) =>
      match checkLen c.maxReadChunkSize len with
      | .error e => .fail (.error e) c src
      | .ok len => .go { c with state := .frame frame, waitingFor := len } src
  else
    match Buf.getU8 src with
    | .error e => .fail e c src
    | .ok (len, src) => .go { c with state := .frame frame, waitingFor := len.toNat } src

def bufferFrame (c : ZmqCodec) (data : Bytes) : ZmqMessage :=
  match c.bufferedMessage with
  | some v => v.pushBack data
  | none => .ofBytes data

def onFrame (c : ZmqCodec) (frame : Frame) (src : Bytes) : Turn :=
  match Buf.splitTo c.waitingFor src with
  | .error e => .fail e c src
  | .ok (data, src) =>
    let c := { c with state := .frameHeader, waitingFor := 1 }
    if frame.command then
      match ZmqCommand.tryFrom data with
      | .error e => .fail e c src
      | .ok command => .emit (.command command) c src
    else if frame.more then .go { c with bufferedMessage := some (c.bufferFrame data) } src
    -- the `expect` cannot fail: the message was stored just above
    else .emit (.message (c.bufferFrame data)) { c with bufferedMessage := none } src

/-- One turn of the loop in `decode`.  A turn that waits has made a reservation, which leaves the
bytes of the buffer as they are.  It panics if the buffer cannot grow so far: `checkedDecode` in
`Codec.Capacity` is `decode` with that panic. -/
def turn (c : ZmqCodec) (src : Bytes) : Turn :=
  if src.length < c.waitingFor then .wait
  else
    match c.state with
    | .greeting => c.onGreeting src
    | .frameHeader => c.onFrameHeader src
    | .frameLen frame => c.onFrameLen frame src
    | .frame frame => c.onFrame frame src

def rank (c : ZmqCodec) (src : Bytes) : Nat :=
  2 * src.length + match c.state with
    | .frame _ => 1
    | _ => 0

theorem rank_turn_go {c c' : ZmqCodec} {src rest : Bytes} (h : c.turn src = .go c' rest) :
    c'.rank rest < c.rank src := by
  rcases c with ⟨state, n, buffered, max⟩
  cases state <;> simp only [turn] at h
  case greeting => cases src <;> grind [onGreeting]
  case frameHeader => cases src <;> grind [onFrameHeader, Buf.getU8, rank]
  case frameLen frame => cases src <;> grind [onFrameLen, Buf.getU8, Buf.getUint, rank]
  case frame frame => grind [onFrame, Buf.splitTo, rank]

theorem rank_turn_emit {c c' : ZmqCodec} {src rest : Bytes} {m : Message}
    (h : c.turn src = .emit m c' rest) : c'.rank rest < c.rank src := by
  rcases c with ⟨state, n, buffered, max⟩
  cases state <;> simp only [turn] at h
  case greeting => cases src <;> grind [onGreeting, Buf.splitTo, rank]
  case frameHeader => grind [onFrameHeader]
  case frameLen frame => grind [onFrameLen]
  case frame frame => grind [onFrame, Buf.splitTo, rank]

/-- What ties the byte demand to the state.  `headroom` is the bound that the
reader and the reservation in `decode` rely on. -/
structure Valid (c : ZmqCodec) : Prop where
  demand : match c.state with
    | .greeting => c.waitingFor = 64
    | .frameHeader => c.waitingFor = 1
    | .frameLen frame => c.waitingFor = if frame.long then 8 else 1
    | .frame _ => True
  headroom : c.waitingFor + c.maxReadChunkSize ≤ isizeMax
  max_le : c.maxReadChunkSize ≤ isizeMax / 2

theorem small_headroom {n max : Nat} (hn : n ≤ 255) (hm : max ≤ isizeMax / 2) :
    n + max ≤ isizeMax := by
  rcases isizeMax_cases with h | h <;> omega

theorem valid_withOptions (options : SocketOptions) : (withOptions options).Valid where
  demand := rfl
  headroom := small_headroom (show 64 ≤ 255 by decide) options.max_le
  max_le := options.max_le

theorem checkLen_ok {max len n : Nat} (h : checkLen max len = .ok n) : n + max ≤ isizeMax := by
  simp only [checkLen] at h
  grind

theorem valid_frameHeader {c : ZmqCodec} (hv : c.Valid) (m : Option ZmqMessage) :
    Valid { c with state := .frameHeader, waitingFor := 1, bufferedMessage := m } where
  demand := rfl
  headroom := small_headroom (show 1 ≤ 255 by decide) hv.max_le
  max_le := hv.max_le

theorem valid_turn {c : ZmqCodec} (src : Bytes) (hv : c.Valid) : (c.turn src).All Valid := by
  have hh := valid_frameHeader hv
  rw [turn]
  split
  · trivial
  split
  · cases src with
    | nil => exact hv
    | cons b src =>
      simp only [onGreeting]
      split
      · exact hv
      · split
        · exact hh _
        · split <;> exact hh _
  · simp only [onFrameHeader]
    split
    · exact hv
    · exact ⟨rfl, small_headroom (by dsimp only; split <;> decide) hv.max_le, hv.max_le⟩
  · rename_i frame _
    simp only [onFrameLen]
    split
    · split
      · exact hv
      · split
        · exact hv
        · rename_i h
          exact ⟨trivial, checkLen_ok h, hv.max_le⟩
    · split
      · exact hv
      · rename_i len _ _
        exact ⟨trivial, small_headroom (Nat.le_of_lt_succ len.toNat_lt) hv.max_le, hv.max_le⟩
  · simp only [onFrame]
    split
    · exact hv
    · split
      · split <;> exact hh _
      · split <;> exact hh _

theorem checkLen_error {max len : Nat} {e : CodecError} (h : checkLen max len = .error e) :
    (Fault.error e).Reported := by
  simp only [checkLen] at h
  grind [Fault.Reported]

theorem turn_fail {c c' : ZmqCodec} {src rest : Bytes} {e : Fault CodecError} (hv : c.Valid)
    (h : c.turn src = .fail e c' rest) : e.Reported := by
  have hd := hv.demand
  rw [turn] at h
  split at h
  · simp at h
  rename_i hl
  rcases hs : c.state with _ | _ | frame | frame <;> simp only [hs] at hd h
  · cases src with
    | nil => simp [hd] at hl
    | cons first src =>
      rw [onGreeting, Buf.splitTo_of_le (by omega)] at h
      grind [Fault.Reported, ZmqGreeting.tryFrom_error]
  · cases src with
    | nil => simp [hd] at hl
    | cons flags src => simp [onFrameHeader] at h
  · rw [onFrameLen] at h
    split at h
    · rename_i hlong
      rw [if_pos hlong] at hd
      rw [Buf.getUint_of_le (by omega)] at h
      grind [checkLen_error]
    · rename_i hlong
      rw [if_neg hlong] at hd
      cases src with
      | nil => simp [hd] at hl
      | cons len src => simp at h
  · rw [onFrame, Buf.splitTo_of_le (by omega)] at h
    grind [ZmqCommand.tryFrom_error]

omit [Target] in
theorem onGreeting_append {c : ZmqCodec} {src : Bytes} (more : Bytes) (h : 64 ≤ src.length) :
    c.onGreeting (src ++ more) = (c.onGreeting src).append more := by
  cases src with
  | nil => simp at h
  | cons first src =>
    have h' : 64 ≤ (first :: (src ++ more)).length := by simp at h ⊢; omega
    simp only [List.cons_append, onGreeting, Buf.splitTo_of_le h, Buf.splitTo_of_le h']
    rw [← List.cons_append, List.take_append_of_le_length h, List.drop_append_of_le_length h]
    split
    · rfl
    · split <;> rfl

omit [Target] in
theorem onFrameHeader_append {c : ZmqCodec} {src : Bytes} (more : Bytes) (h : 1 ≤ src.length) :
    c.onFrameHeader (src ++ more) = (c.onFrameHeader src).append more := by
  cases src with
  | nil => simp at h
  | cons flags src => rfl

theorem onFrameLen_append {c : ZmqCodec} {frame : Frame} {src : Bytes} (more : Bytes)
    (h : (if frame.long then 8 else 1) ≤ src.length) :
    c.onFrameLen frame (src ++ more) = (c.onFrameLen frame src).append more := by
  simp only [onFrameLen]
  split at h
  · have h' : 8 ≤ (src ++ more).length := by simp; omega
    simp only [if_pos, *, Buf.getUint_of_le h, Buf.getUint_of_le h']
    rw [List.take_append_of_le_length h, List.drop_append_of_le_length h]
    split <;> rfl
  · cases src with
    | nil => simp at h
    | cons len src => simp [*, Move.append]

omit [Target] in
theorem onFrame_append {c : ZmqCodec} {frame : Frame} {src : Bytes} (more : Bytes)
    (h : c.waitingFor ≤ src.length) :
    c.onFrame frame (src ++ more) = (c.onFrame frame src).append more := by
  have h' : c.waitingFor ≤ (src ++ more).length := by simp; omega
  simp only [onFrame, Buf.splitTo_of_le h, Buf.splitTo_of_le h']
  rw [List.take_append_of_le_length h, List.drop_append_of_le_length h]
  split
  · split <;> rfl
  · split <;> rfl

theorem turn_append {c : ZmqCodec} {src : Bytes} (more : Bytes) (hv : c.Valid)
    (h : c.turn src ≠ .wait) : c.turn (src ++ more) = (c.turn src).append more := by
  have hl : c.waitingFor ≤ src.length := by
    by_contra hl
    exact h (by simp [turn]; omega)
  have hl' : ¬ (src ++ more).length < c.waitingFor := by
    rw [List.length_append]
    omega
  have hd := hv.demand
  rw [turn, turn, if_neg hl', if_neg (Nat.not_lt.mpr hl)]
  rcases hs : c.state with _ | _ | frame | frame <;> simp only [hs] at hd ⊢
  · exact onGreeting_append more (by omega)
  · exact onFrameHeader_append more (by omega)
  · exact onFrameLen_append more (by omega)
  · exact onFrame_append more hl

def machine : Machine ZmqCodec UInt8 Message (Fault CodecError) where
  step := turn
  rank := rank
  rank_go := rank_turn_go
  rank_emit := rank_turn_emit
  Valid := Valid
  valid_step := valid_turn
  step_append := turn_append

def decode (c : ZmqCodec) (src : Bytes) : Reply Message (Fault CodecError) × ZmqCodec × Bytes :=
  machine.next c src

section Calls

variable {c c' : ZmqCodec} {src rest : Bytes}

theorem decode_wait (h : c.turn src = .wait) : c.decode src = (.none, c, src) :=
  machine.next_wait h

theorem turn_of_decode_none (h : c.decode src = (.none, c', rest)) : c'.turn rest = .wait :=
  machine.step_of_next_none h

theorem valid_decode (hv : c.Valid) (h : c.decode src = (a, c', rest)) : c'.Valid :=
  machine.valid_next hv h

theorem decode_append (more : Bytes) (hv : c.Valid) (h : c.decode src = (a, c', rest))
    (ha : a ≠ .none) : c.decode (src ++ more) = (a, c', rest ++ more) :=
  machine.next_append more hv h ha

theorem decode_append_none (more : Bytes) (hv : c.Valid) (h : c.decode src = (.none, c', rest)) :
    c.decode (src ++ more) = c'.decode (rest ++ more) :=
  machine.next_append_none more hv h

theorem rank_decode (h : c.decode src = (.item m, c', rest)) : c'.rank rest < c.rank src :=
  machine.rank_next h

end Calls

theorem decode_error {c c' : ZmqCodec} {src rest : Bytes} {e : Fault CodecError} (hv : c.Valid)
    (h : c.decode src = (.error e, c', rest)) : e.Reported := by
  obtain ⟨c₀, src₀, hv₀, hs⟩ := machine.step_of_next_error hv h
  exact turn_fail hv₀ hs

def decodeAll (c : ZmqCodec) (src : Bytes) : Drained ZmqCodec UInt8 Message (Fault CodecError) :=
  machine.drain c src

def decodeCalls (c : ZmqCodec) (n : Nat) (src : Bytes) : List (Except (Fault CodecError) Message) :=
  machine.calls n c src

def feed (c : ZmqCodec) (src : Bytes) (chunks : List Bytes) :
    Drained ZmqCodec UInt8 Message (Fault CodecError) :=
  machine.feed c src chunks

theorem decodeAll_none {c c' : ZmqCodec} {src rest : Bytes} (h : c.decode src = (.none, c', rest)) :
    c.decodeAll src = ⟨[], none, c', rest⟩ :=
  machine.drain_none h

theorem decodeAll_item {c c' : ZmqCodec} {src rest : Bytes} {m : Message}
    (h : c.decode src = (.item m, c', rest)) :
    c.decodeAll src = (c'.decodeAll rest).prepend [m] :=
  machine.drain_item h

theorem decodeAll_error {c c' : ZmqCodec} {src rest : Bytes} {e : Fault CodecError}
    (h : c.decode src = (.error e, c', rest)) : c.decodeAll src = ⟨[], some e, c', rest⟩ :=
  machine.drain_error h

theorem decodeAll_congr {c c' : ZmqCodec} {src src' : Bytes}
    (h : c.decode src = c'.decode src') : c.decodeAll src = c'.decodeAll src' :=
  machine.drain_congr_next h

theorem decodeAll_wait {c : ZmqCodec} {src : Bytes} (h : src.length < c.waitingFor) :
    c.decodeAll src = ⟨[], none, c, src⟩ := by
  apply machine.drain_wait
  change c.turn src = .wait
  rw [turn, if_pos h]

theorem length_lt_of_wait {c : ZmqCodec} {src : Bytes} (h : c.turn src = .wait) :
    src.length < c.waitingFor := by
  by_contra hl
  rw [turn, if_neg hl] at h
  rcases c with ⟨_ | _ | frame | frame, n, buffered, max⟩ <;> simp only at h
  · cases src <;> grind [onGreeting]
  · grind [onFrameHeader]
  · grind [onFrameLen]
  · grind [onFrame]

def decodeLoop (c : ZmqCodec) (turns : Nat) (src : Bytes) :
    Option (Reply Message (Fault CodecError) × ZmqCodec × Bytes) :=
  machine.loop turns c src

/-- The chunks one after another, `decodeAll` after each and then as many more calls of `decode`
as stand beside it. -/
def feedCalls (c : ZmqCodec) (src : Bytes) (chunks : List (Bytes × Nat)) :
    Drained ZmqCodec UInt8 Message (Fault CodecError) :=
  machine.feedCalls c src chunks

theorem decodeLoop_eq (c : ZmqCodec) (src : Bytes) :
    c.decodeLoop (2 * src.length + 2) src = some (c.decode src) := by
  apply machine.loop_of_rank_lt
  change c.rank src < _
  rw [rank]
  split <;> omega

/-- How the bytes were cut and how often `decode` was called cannot be seen, on malformed
input either; and every call ends. -/
theorem chunks_unobservable (options : SocketOptions) (chunks : List (Bytes × Nat)) :
    let fed := (withOptions options).feedCalls [] chunks
    let whole := (withOptions options).decodeAll (chunks.map Prod.fst).flatten
    fed.items = whole.items ∧ fed.error = whole.error ∧
      (whole.error = none → fed.state = whole.state ∧ fed.rest = whole.rest) ∧
      (∀ (c : ZmqCodec) (src : Bytes),
        c.decodeLoop (2 * src.length + 2) src = some (c.decode src)) ∧
      ∀ (c c' : ZmqCodec) (src rest : Bytes),
        c.decode src = (.none, c', rest) → rest.length < c'.waitingFor := by
  have hv : machine.Valid (withOptions options) := valid_withOptions options
  have hw : machine.step (withOptions options) [] = .wait := rfl
  have hfeed : (withOptions options).feedCalls [] chunks =
      machine.feed (withOptions options) [] (chunks.map Prod.fst) :=
    machine.feedCalls_eq_feed chunks
  have hie := machine.feed_items_error hv hw (chunks.map Prod.fst)
  intro fed whole
  change fed = _ at hfeed
  refine ⟨?_, ?_, ?_, decodeLoop_eq, ?_⟩
  · rw [hfeed]
    exact hie.1
  · rw [hfeed]
    exact hie.2
  · intro he
    rw [hfeed, machine.feed_eq_drain hv hw (chunks.map Prod.fst) he]
    exact ⟨rfl, rfl⟩
  · intro c c' src rest h
    exact length_lt_of_wait (turn_of_decode_none h)

def encodeFrame (frame : Bytes) (more : Bool) : Bytes :=
  let flags : UInt8 := if more then 0b0000_0001 else 0
  if 255 < frame.length then
    (flags ||| 0b0000_0010) :: Lib.BigEndian.encode 8 frame.length ++ frame
  else [flags, UInt8.ofNat frame.length] ++ frame

/-- The bytes that `encode` appends to `dst`.  `order` is what
`command.properties.iter()` yields; only commands look at it. -/
def encode (order : List (String × Bytes)) : Message → Res CodecError Bytes
  | .greeting payload => .ok payload.encode
  | .command command => .ok (ZmqCommand.encode command.name order)
  | .message message =>
    -- `message.len() - 1` underflows
    if message.len = 0 then .error .panic
    else
      let lastElement := message.len - 1
      .ok (message.frames.zipIdx.flatMap fun (part, idx) => encodeFrame part (idx != lastElement))

end ZmqCodec

end ZmqRs.Codec
