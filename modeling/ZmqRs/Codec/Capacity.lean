import ZmqRs.Codec.Await
import Mathlib.Tactic.Common

/-! The arithmetic of the read path as the machine does it.  Every operation that can panic
does so here.  In the states that a reader reaches only the growth of its buffer is ever seen to:
`BytesMut` may count bytes that were taken from the buffer, and the bounds of the source do not. -/

open private Nat.nextPowerOfTwo.go from Init.Data.Nat.Power2.Basic

namespace ZmqRs

namespace Usize

variable [Target]

def fit (n : Nat) : Res ε Nat := if usizeMax < n then .error .panic else .ok n

def add (a b : Nat) : Res ε Nat := fit (a + b)

def mul (a b : Nat) : Res ε Nat := fit (a * b)

def sub (a b : Nat) : Res ε Nat := if a < b then .error .panic else .ok (a - b)

def nextPowerOfTwo (a : Nat) : Res ε Nat := fit a.nextPowerOfTwo

def capacity (n : Nat) : Res ε Nat := if isizeMax < n then .error .panic else .ok n

theorem fit_of_le {n : Nat} (h : n ≤ usizeMax) : (fit n : Res ε Nat) = .ok n := by
  rw [fit, if_neg (Nat.not_lt.mpr h)]

omit [Target] in
theorem sub_of_le {a b : Nat} (h : b ≤ a) : (sub a b : Res ε Nat) = .ok (a - b) := by
  rw [sub, if_neg (Nat.not_lt.mpr h)]

end Usize

/-- `BytesMut`, as far as its growth goes: the capacity it makes of what it is to hold, which may
count bytes that were consumed before and may be more than is needed, and whether the allocator has
so much.  Nothing else is needed of its history, for a request that was met is met again until
bytes are taken. -/
structure BytesMut where
  capacity : (consumed wanted : Nat) → Nat
  allocates : (consumed wanted : Nat) → Bool

namespace BytesMut

variable [Target]

def grow (b : BytesMut) (consumed wanted : Nat) : Res ε Nat := do
  -- `reserve` and `resize`, which panic where the new capacity overflows.  Where there is no
  -- memory for it the process aborts, which is no other end here.
  let capacity ← Usize.capacity (b.capacity consumed wanted)
  if b.allocates consumed wanted then return capacity else .error .panic

def Grants (b : BytesMut) (asked : Nat × Nat) : Prop :=
  b.capacity asked.1 asked.2 ≤ isizeMax ∧ b.allocates asked.1 asked.2 = true

def Granted (b : BytesMut) (asked : List (Nat × Nat)) : Prop := ∀ x ∈ asked, b.Grants x

instance (b : BytesMut) (asked : Nat × Nat) : Decidable (b.Grants asked) :=
  inferInstanceAs (Decidable (_ ∧ _))

instance (b : BytesMut) (asked : List (Nat × Nat)) : Decidable (b.Granted asked) :=
  inferInstanceAs (Decidable (∀ x ∈ asked, b.Grants x))

theorem grow_eq (b : BytesMut) (consumed wanted : Nat) :
    (b.grow consumed wanted : Res ε Nat) =
      if b.Grants (consumed, wanted) then .ok (b.capacity consumed wanted) else .error .panic := by
  rw [grow, Usize.capacity]
  by_cases h : isizeMax < b.capacity consumed wanted
  · have hg : ¬ b.Grants (consumed, wanted) := fun hg => Nat.not_le.mpr h hg.1
    rw [if_pos h, if_neg hg]
    rfl
  · rw [if_neg h]
    by_cases ha : b.allocates consumed wanted = true
    · have hg : b.Grants (consumed, wanted) := ⟨Nat.not_lt.mp h, ha⟩
      rw [if_pos hg]
      exact if_pos ha
    · have hg : ¬ b.Grants (consumed, wanted) := fun hg => ha hg.2
      rw [if_neg hg]
      exact if_neg ha

omit [Target] in
def kept : BytesMut where
  capacity consumed wanted := consumed + wanted
  allocates _ _ := true

end BytesMut

theorem nextPowerOfTwo_le {n : Nat} (h : 0 < n) : n.nextPowerOfTwo ≤ 2 * n := by
  have hgo : ∀ (power : Nat) (hp : power > 0),
      Nat.nextPowerOfTwo.go n power hp ≤ max power (2 * n) := by
    intro power hp
    fun_induction Nat.nextPowerOfTwo.go n power hp with
    | case1 power hp hlt ih => omega
    | case2 power hp hlt => omega
  have := hgo 1 (by decide)
  rw [Nat.nextPowerOfTwo]
  omega

theorem le_nextPowerOfTwo (n : Nat) : n ≤ n.nextPowerOfTwo := by
  have hgo : ∀ (power : Nat) (hp : power > 0), n ≤ Nat.nextPowerOfTwo.go n power hp := by
    intro power hp
    fun_induction Nat.nextPowerOfTwo.go n power hp with
    | case1 power hp hlt ih => exact ih
    | case2 power hp hlt => omega
  exact hgo 1 (by decide)

namespace Codec

open Lib.Incremental

namespace ZmqCodec

variable [Target]

def reserveTo (c : ZmqCodec) : Res CodecError Nat := do
  if (← Usize.mul 2 c.maxReadChunkSize) < c.waitingFor then
    Usize.add c.waitingFor c.maxReadChunkSize
  else return c.waitingFor

def reserve (b : BytesMut) (c : ZmqCodec) (consumed : Nat) (src : Bytes) :
    Res CodecError Nat := do
  -- `src.reserve(reserve_to - src.len())`, when `consumed` bytes were taken from `src` before.
  let additional ← Usize.sub (← c.reserveTo) src.length
  b.grow consumed (src.length + additional)

def reserved (c : ZmqCodec) : Nat :=
  if 2 * c.maxReadChunkSize < c.waitingFor then c.waitingFor + c.maxReadChunkSize
  else c.waitingFor

def checkedFrame (c : ZmqCodec) (frame : Frame) (src : Bytes) : Turn :=
  match Buf.splitTo c.waitingFor src with
  | .error e => .fail e c src
  | .ok (data, src) =>
    let c := { c with state := .frameHeader, waitingFor := 1 }
    if frame.command then
      match ZmqCommand.tryFrom data with
      | .error e => .fail e c src
      | .ok command => .emit (.command command) c src
    else
      let c := { c with bufferedMessage := some (c.bufferFrame data) }
      if frame.more then .go c src
      else
        match c.bufferedMessage with
        | none => .fail .panic c src
        | some message => .emit (.message message) { c with bufferedMessage := none } src

def checkedTurn (c : ZmqCodec) (src : Bytes) : Turn :=
  if src.length < c.waitingFor then .wait
  else
    match c.state with
    | .greeting => c.onGreeting src
    | .frameHeader => c.onFrameHeader src
    | .frameLen frame => c.onFrameLen frame src
    | .frame frame => c.checkedFrame frame src

omit [Target] in
theorem checkedFrame_eq (c : ZmqCodec) (frame : Frame) (src : Bytes) :
    c.checkedFrame frame src = c.onFrame frame src := by
  unfold checkedFrame onFrame
  cases Buf.splitTo c.waitingFor src with
  | error e => rfl
  | ok p => cases frame.command <;> cases frame.more <;> rfl

theorem reserveTo_eq {c : ZmqCodec} (hv : c.Valid) :
    c.reserveTo = .ok c.reserved ∧ c.waitingFor ≤ c.reserved ∧ c.reserved ≤ isizeMax := by
  have hh := hv.headroom
  have hm := hv.max_le
  have hu := isizeMax_le_usizeMax
  simp only [reserveTo, reserved, Usize.mul, Usize.add, bind, Except.bind, pure, Except.pure,
    Usize.fit_of_le (show 2 * c.maxReadChunkSize ≤ usizeMax by omega),
    Usize.fit_of_le (show c.waitingFor + c.maxReadChunkSize ≤ usizeMax by omega)]
  split
  · exact ⟨rfl, by omega, hh⟩
  · exact ⟨rfl, by omega, by omega⟩

theorem reserve_eq (b : BytesMut) {c : ZmqCodec} (consumed : Nat) {src : Bytes} (hv : c.Valid)
    (hl : src.length < c.waitingFor) : c.reserve b consumed src = b.grow consumed c.reserved := by
  obtain ⟨hn, hle, -⟩ := reserveTo_eq hv
  simp only [reserve, hn, bind, Except.bind,
    Usize.sub_of_le (show src.length ≤ c.reserved by omega)]
  rw [Nat.add_sub_cancel' (by omega)]

theorem checkedTurn_eq (c : ZmqCodec) (src : Bytes) : c.checkedTurn src = c.turn src := by
  unfold checkedTurn turn
  split
  · rfl
  · cases c.state with
    | greeting => rfl
    | frameHeader => rfl
    | frameLen frame => rfl
    | frame frame => exact checkedFrame_eq c frame src

def checkedMachine : Machine ZmqCodec UInt8 Message (Fault CodecError) where
  step := checkedTurn
  rank := rank
  rank_go {c src c' rest} h := rank_turn_go ((checkedTurn_eq c src).symm.trans h)
  rank_emit {c src m c' rest} h := rank_turn_emit ((checkedTurn_eq c src).symm.trans h)
  Valid := Valid
  valid_step {c} src hv := by
    rw [checkedTurn_eq]
    exact valid_turn src hv
  step_append {c src} more hv h := by
    rw [checkedTurn_eq] at h ⊢
    rw [checkedTurn_eq]
    exact turn_append more hv h

/-- `decode` with its `expect` and with the reservation it makes before `Ok(None)`.  `received` is
how many bytes the buffer was ever given. -/
def checkedDecode (b : BytesMut) (received : Nat) (c : ZmqCodec) (src : Bytes) :
    Reply Message (Fault CodecError) × ZmqCodec × Bytes :=
  match checkedMachine.next c src with
  | (.none, c, rest) =>
    match c.reserve b (received - rest.length) rest with
    | .error e => (.error e, c, rest)
    | .ok _ => (.none, c, rest)
  | reply => reply

theorem checkedDecode_eq (b : BytesMut) (received : Nat) {c : ZmqCodec} (src : Bytes)
    (hv : c.Valid) :
    c.checkedDecode b received src =
      match c.decode src with
      | (.none, c, rest) =>
        if b.Grants (received - rest.length, c.reserved) then (.none, c, rest)
        else (.error .panic, c, rest)
      | reply => reply := by
  have hnext : checkedMachine.next c src = c.decode src :=
    machine.next_congr (N := checkedMachine) (fun {c} src _ => checkedTurn_eq c src) hv
  rw [checkedDecode, hnext]
  rcases hd : c.decode src with ⟨_ | m | e, c', rest⟩
  · have hl := length_lt_of_wait (turn_of_decode_none hd)
    simp only [reserve_eq b _ (valid_decode hv hd) hl, BytesMut.grow_eq]
    by_cases hg : b.Grants (received - rest.length, c'.reserved)
    · simp only [if_pos hg]
    · simp only [if_neg hg]
  · rfl
  · rfl

theorem turn_maxReadChunkSize (c : ZmqCodec) (src : Bytes) {m : Nat}
    (h : c.maxReadChunkSize = m) : (c.turn src).All fun c' => c'.maxReadChunkSize = m := by
  rw [turn]
  split
  · trivial
  split
  · cases src with
    | nil => exact h
    | cons b src => grind [onGreeting, Move.All]
  · grind [onFrameHeader, Move.All]
  · grind [onFrameLen, Move.All]
  · grind [onFrame, Move.All]

end ZmqCodec

namespace ZmqFramedRead

variable [Target]

def checkedDecode (b : BytesMut) (received : Nat) (r : ZmqFramedRead) :
    Reply Message (Fault CodecError) × ZmqFramedRead :=
  match r.codec.checkedDecode b received r.buffer with
  | (reply, codec, buffer) => (reply, { r with codec := codec, buffer := buffer })

def checkedGrown (r : ZmqFramedRead) (readSize bytesRead : Nat) : Res CodecError Nat := do
  if readSize ≤ bytesRead ∧ r.readChunkSize < r.options.readBufferMaxSize then
    return min (← Usize.mul r.readChunkSize 2) r.options.readBufferMaxSize
  else return r.readChunkSize

def checkedAdapt (r : ZmqFramedRead) (readSize bytesRead : Nat) :
    Res CodecError ZmqFramedRead := do
  let chunk ← r.checkedGrown readSize bytesRead
  if 0 < bytesRead ∧ bytesRead < chunk / 2 then
    -- `short_reads` only counts up to an option of the same type
    if r.shortReads + 1 = r.options.readBufferShortReads then
      let above ← Usize.mul (← Usize.nextPowerOfTwo bytesRead) 2
      let floor ← Usize.mul r.options.readBufferInitialSize 2
      return { r with readChunkSize := min (max above floor) chunk, shortReads := 0 }
    else return { r with readChunkSize := chunk, shortReads := r.shortReads + 1 }
  else if 0 < bytesRead then return { r with readChunkSize := chunk, shortReads := 0 }
  else return { r with readChunkSize := chunk }

def checkedResize (b : BytesMut) (received : Nat) (r : ZmqFramedRead) (minReadSize : Nat) :
    Res CodecError Nat := do
  b.grow (received - r.buffer.length) (← Usize.add r.buffer.length (r.readSize minReadSize))

def checkedRead (b : BytesMut) (received : Nat) (r : ZmqFramedRead) (minReadSize : Nat)
    (read : PollRead) : Res CodecError (Poll (Except IoError Nat) × ZmqFramedRead) := do
  let start := r.buffer.length
  let readSize := r.readSize minReadSize
  let _ ← r.checkedResize b received minReadSize
  let resized := r.buffer ++ List.replicate readSize 0
  match read readSize with
  | .ready n slice =>
    let buffer := (resized.take start ++ slice.toList).take (start + n)
    return (.ready (.ok n), ← { r with buffer := buffer }.checkedAdapt readSize n)
  | .error e slice =>
    let buffer := (resized.take start ++ slice.toList).take start
    return (.ready (.error e), { r with buffer := buffer })
  | .pending slice =>
    let buffer := (resized.take start ++ slice.toList).take start
    return (.pending, { r with buffer := buffer })

def checkedAtEof (b : BytesMut) (received : Nat) (r : ZmqFramedRead) :
    Poll (Option Item) × ZmqFramedRead :=
  if r.buffer = [] then (.ready none, r)
  else
    match r.checkedDecode b received with
    | (.item m, r) => (.ready (some (.ok m)), r)
    | (.error e, r) => (.ready (some (.error e)), r)
    | (.none, r) =>
      if r.buffer = [] then (.ready none, r)
      else
        (.ready (some (.error (.error (.io ⟨.unexpectedEof, "bytes remaining in stream"⟩)))), r)

def checkedReadLoop (b : BytesMut) (received : Nat) (r : ZmqFramedRead) : List PollRead → Polled
  | [] =>
    match r.checkedResize b received (r.codec.bytesNeeded r.buffer.length) with
    | .error e => ⟨.ready (some (.error e)), r, [], []⟩
    | .ok _ => ⟨.pending, r, [], []⟩
  | read :: reads =>
    let minReadSize := r.codec.bytesNeeded r.buffer.length
    let taken := r.delivered minReadSize read
    match r.checkedRead b received minReadSize read with
    | .error e => ⟨.ready (some (.error e)), r, read :: reads, []⟩
    | .ok (.pending, r) => ⟨.pending, r, reads, taken⟩
    | .ok (.ready (.error e), r) =>
      ⟨.ready (some (.error (.error (.io e)))), r, reads, taken⟩
    | .ok (.ready (.ok n), r) =>
      match r.checkedDecode b (received + n) with
      | (.item m, r) => ⟨.ready (some (.ok m)), r, reads, taken⟩
      | (.error e, r) => ⟨.ready (some (.error e)), r, reads, taken⟩
      | (.none, r) =>
        if n = 0 then
          let (result, r) := r.checkedAtEof b (received + n)
          ⟨result, r, reads, taken⟩
        else
          let p := checkedReadLoop b (received + n) r reads
          { p with taken := taken ++ p.taken }

def checkedPollNext (b : BytesMut) (received : Nat) (r : ZmqFramedRead) (reads : List PollRead) :
    Polled :=
  match r.checkedDecode b received with
  | (.item m, r) => ⟨.ready (some (.ok m)), r, reads, []⟩
  | (.error e, r) => ⟨.ready (some (.error e)), r, reads, []⟩
  | (.none, r) => r.checkedReadLoop b received reads

/-- What a waiting reader asks of its buffer: the decoder's reservation, then the slice for a
read. -/
def asks (received : Nat) (r : ZmqFramedRead) : List (Nat × Nat) :=
  [(received - r.buffer.length, r.codec.reserved),
    (received - r.buffer.length,
      r.buffer.length + r.readSize (r.codec.bytesNeeded r.buffer.length))]

def loopAsks (received : Nat) (r : ZmqFramedRead) : List PollRead → List (Nat × Nat)
  | [] => r.asks received
  | read :: reads =>
    r.asks received ++
      match r.pollReadIntoBuffer (r.codec.bytesNeeded r.buffer.length) read with
      | (.ready (.ok n), r) =>
        match r.decode with
        | (.none, r) => if n = 0 then [] else loopAsks (received + n) r reads
        | _ => []
      | _ => []

def pollAsks (received : Nat) (r : ZmqFramedRead) (reads : List PollRead) : List (Nat × Nat) :=
  match r.decode with
  | (.none, r) => r.loopAsks received reads
  | _ => []

structure Sound (options : SocketOptions) (r : ZmqFramedRead) : Prop where
  options_eq : r.options = options
  valid : r.codec.Valid
  max_eq : r.codec.maxReadChunkSize = options.readBufferMaxSize
  chunk_le : r.readChunkSize ≤ options.readBufferMaxSize
  shortReads_lt : r.shortReads < options.readBufferShortReads

section Sound

variable {options : SocketOptions} {r r' : ZmqFramedRead}

theorem sound_new (options : SocketOptions) : Sound options (new options) where
  options_eq := rfl
  valid := ZmqCodec.valid_withOptions options
  max_eq := rfl
  chunk_le := options.initial_le_max
  shortReads_lt := options.shortReads_pos

theorem Sound.turn {c : ZmqCodec} {rest : Bytes} (h : Sound options r)
    (hm : (r.codec.turn r.buffer).leaves = some (c, rest)) :
    Sound options { r with codec := c, buffer := rest } := by
  have hv := ZmqCodec.valid_turn r.buffer h.valid
  have hmax := ZmqCodec.turn_maxReadChunkSize r.codec r.buffer h.max_eq
  cases ht : r.codec.turn r.buffer <;> rw [ht] at hm hv hmax <;> cases hm
  all_goals exact ⟨h.options_eq, hv, hmax, h.chunk_le, h.shortReads_lt⟩

theorem grown_le (h : Sound options r) (readSize bytesRead : Nat) :
    r.grown readSize bytesRead ≤ options.readBufferMaxSize := by
  have hc := h.chunk_le
  rw [grown, h.options_eq]
  split
  · exact Nat.min_le_right _ _
  · exact hc

theorem Sound.adapt (h : Sound options r) (readSize bytesRead : Nat) :
    Sound options (r.adapt readSize bytesRead) := by
  have hg := grown_le h readSize bytesRead
  have hs := h.shortReads_lt
  have hpos := options.shortReads_pos
  have ho := h.options_eq
  rw [ZmqFramedRead.adapt]
  split
  · split
    · exact ⟨ho, h.valid, h.max_eq, Nat.le_trans (Nat.min_le_right _ _) hg, hpos⟩
    · rename_i hne
      rw [ho] at hne
      exact ⟨ho, h.valid, h.max_eq, hg, by change r.shortReads + 1 < _; omega⟩
  · split
    · exact ⟨ho, h.valid, h.max_eq, hg, hpos⟩
    · exact ⟨ho, h.valid, h.max_eq, hg, hs⟩

theorem Sound.withBuffer (h : Sound options r) (buffer : Bytes) :
    Sound options { r with buffer := buffer } :=
  ⟨h.options_eq, h.valid, h.max_eq, h.chunk_le, h.shortReads_lt⟩

theorem Sound.read (h : Sound options r) (minReadSize : Nat) (read : PollRead) :
    Sound options (r.pollReadIntoBuffer minReadSize read).2 := by
  rw [pollReadIntoBuffer]
  split
  · exact (h.withBuffer _).adapt _ _
  · exact h.withBuffer _
  · exact h.withBuffer _

theorem checkedAdapt_eq (h : Sound options r) (readSize bytesRead : Nat) :
    r.checkedAdapt readSize bytesRead = .ok (r.adapt readSize bytesRead) := by
  have hg := grown_le h readSize bytesRead
  have hc := h.chunk_le
  have hm := options.max_le
  have hi := options.initial_le_max
  have hu := isizeMax_le_usizeMax
  have ho := h.options_eq
  have hgrown : r.checkedGrown readSize bytesRead = .ok (r.grown readSize bytesRead) := by
    rw [checkedGrown, grown]
    split
    · simp only [Usize.mul, bind, Except.bind, pure, Except.pure,
        Usize.fit_of_le (show r.readChunkSize * 2 ≤ usizeMax by omega)]
    · rfl
  have hfloor : r.options.readBufferInitialSize * 2 ≤ usizeMax := by
    rw [ho]
    omega
  simp only [checkedAdapt, hgrown, bind, Except.bind, ZmqFramedRead.adapt]
  split
  · rename_i hshort
    have hpow := nextPowerOfTwo_le hshort.1
    split
    · simp only [Usize.mul, Usize.nextPowerOfTwo, pure, Except.pure,
        Usize.fit_of_le hfloor,
        Usize.fit_of_le (show bytesRead.nextPowerOfTwo ≤ usizeMax by omega),
        Usize.fit_of_le (show bytesRead.nextPowerOfTwo * 2 ≤ usizeMax by omega)]
    · rfl
  · split <;> rfl

theorem start_add_readSize_le (h : Sound options r) (hl : r.buffer.length < r.codec.waitingFor)
    (minReadSize : Nat) : r.buffer.length + r.readSize minReadSize ≤ isizeMax := by
  have hh := h.valid.headroom
  have hr : r.readSize minReadSize ≤ options.readBufferMaxSize := by
    rw [readSize, h.options_eq]
    exact Nat.min_le_right _ _
  rw [h.max_eq] at hh
  omega

theorem checkedDecode_eq (b : BytesMut) (received : Nat) (h : Sound options r) :
    r.checkedDecode b received =
      match r.decode with
      | (.none, r) =>
        if b.Grants (received - r.buffer.length, r.codec.reserved) then (.none, r)
        else (.error .panic, r)
      | reply => reply := by
  rw [checkedDecode, ZmqCodec.checkedDecode_eq b received _ h.valid, ZmqFramedRead.decode]
  rcases r.codec.decode r.buffer with ⟨_ | m | e, c, rest⟩
  · dsimp only
    split
    · rfl
    · rfl
  · rfl
  · rfl

theorem checkedDecode_panic_iff {b : BytesMut} {received : Nat} (h : Sound options r) :
    (r.checkedDecode b received).1 = .error .panic ↔ ∃ r', r.decode = (.none, r') ∧
      ¬ b.Grants (received - r'.buffer.length, r'.codec.reserved) := by
  rw [checkedDecode_eq b received h]
  rcases hd : r.decode with ⟨_ | m | e, r'⟩
  · by_cases hg : b.Grants (received - r'.buffer.length, r'.codec.reserved)
    · simp [hg]
    · simp [hg]
  · simp
  · have he := ZmqCodec.decode_error h.valid (decode_eq hd)
    cases e with
    | error e => simp
    | panic => exact he.elim

theorem checkedResize_eq (b : BytesMut) (received : Nat) (h : Sound options r)
    (hl : r.buffer.length < r.codec.waitingFor) (minReadSize : Nat) :
    r.checkedResize b received minReadSize =
      b.grow (received - r.buffer.length) (r.buffer.length + r.readSize minReadSize) := by
  have hs := start_add_readSize_le h hl minReadSize
  have hu := Nat.le_trans hs isizeMax_le_usizeMax
  simp only [checkedResize, Usize.add, Usize.fit_of_le hu, bind, Except.bind]

theorem checkedRead_eq (b : BytesMut) (received : Nat) (h : Sound options r)
    (hl : r.buffer.length < r.codec.waitingFor) (minReadSize : Nat) (read : PollRead) :
    r.checkedRead b received minReadSize read =
      if b.Grants (received - r.buffer.length, r.buffer.length + r.readSize minReadSize) then
        .ok (r.pollReadIntoBuffer minReadSize read)
      else .error .panic := by
  simp only [checkedRead, pollReadIntoBuffer, checkedResize_eq b received h hl, bind, Except.bind,
    BytesMut.grow_eq]
  by_cases hg : b.Grants (received - r.buffer.length, r.buffer.length + r.readSize minReadSize)
  · simp only [if_pos hg]
    cases read (r.readSize minReadSize) with
    | ready n slice => simp only [checkedAdapt_eq (h.withBuffer _), pure, Except.pure]
    | error e slice => rfl
    | pending slice => rfl
  · simp only [if_neg hg]

theorem Sound.decode (h : Sound options r) {reply : Reply Message (Fault CodecError)}
    (hd : r.decode = (reply, r')) : Sound options r' := by
  have hr' : r' = { r with codec := (r.codec.decode r.buffer).2.1,
                           buffer := (r.codec.decode r.buffer).2.2 } := by
    rw [ZmqFramedRead.decode] at hd
    exact (Prod.mk.inj hd).2.symm
  rw [hr']
  exact ZmqCodec.machine.next_induction (P := fun c src => Sound options
    { r with codec := c, buffer := src }) (fun h hm => h.turn hm) h

section Growth

variable {b : BytesMut} {received : Nat} {reads : List PollRead}

theorem granted_append {asked asked' : List (Nat × Nat)} :
    b.Granted (asked ++ asked') ↔ b.Granted asked ∧ b.Granted asked' :=
  List.forall_mem_append

theorem granted_asks :
    b.Granted (r.asks received) ↔
      b.Grants (received - r.buffer.length, r.codec.reserved) ∧
        b.Grants (received - r.buffer.length,
          r.buffer.length + r.readSize (r.codec.bytesNeeded r.buffer.length)) := by
  simp [BytesMut.Granted, asks]

theorem granted_loopAsks (h : b.Granted (r.loopAsks received reads)) :
    b.Granted (r.asks received) := by
  cases reads with
  | nil => exact h
  | cons read reads => exact (granted_append.mp h).1

theorem checkedAtEof_eq (h : Sound options r) (hw : r.codec.turn r.buffer = .wait)
    (hg : b.Grants (received - r.buffer.length, r.codec.reserved)) :
    r.checkedAtEof b received = r.atEof := by
  have hd := decode_of_wait hw
  rw [checkedAtEof, atEof, checkedDecode_eq b received h, hd]
  simp only [if_pos hg]

theorem round_of_read (h : Sound options r) (hw : r.codec.turn r.buffer = .wait) {n : Nat}
    {read : PollRead} {r₁ r₂ : ZmqFramedRead}
    (hp : r.pollReadIntoBuffer (r.codec.bytesNeeded r.buffer.length) read = (.ready (.ok n), r₁))
    (hd : r₁.decode = (.none, r₂)) :
    Sound options r₂ ∧ r₂.codec.turn r₂.buffer = .wait ∧
      (n = 0 → r₂.codec = r.codec ∧ r₂.buffer = r.buffer) := by
  have h₁ : Sound options r₁ := by
    have hread := h.read (r.codec.bytesNeeded r.buffer.length) read
    rwa [hp] at hread
  refine ⟨h₁.decode hd, ZmqCodec.turn_of_decode_none (decode_eq hd), ?_⟩
  rintro rfl
  obtain ⟨hc, hb⟩ := pollReadIntoBuffer_ok hp
  obtain ⟨k, slice, hr, hk⟩ := pollReadIntoBuffer_read hp
  have hsame := (decode_of_read_zero hw hp).2
  rw [hd] at hsame
  obtain rfl : r₂ = r₁ := (Prod.mk.inj hsame).2
  exact ⟨hc, by simp [hb, delivered, hr, hk]⟩

theorem checkedReadLoop_granted (h : Sound options r) (hw : r.codec.turn r.buffer = .wait)
    (hg : b.Granted (r.loopAsks received reads)) :
    r.checkedReadLoop b received reads = r.readLoop reads := by
  induction reads generalizing received r with
  | nil =>
    have hl := ZmqCodec.length_lt_of_wait hw
    obtain ⟨-, hread⟩ := granted_asks.mp (granted_loopAsks hg)
    rw [checkedReadLoop, checkedResize_eq b received h hl, BytesMut.grow_eq, if_pos hread]
    rfl
  | cons read reads ih =>
    have hl := ZmqCodec.length_lt_of_wait hw
    obtain ⟨hres, hread⟩ := granted_asks.mp (granted_loopAsks hg)
    rw [checkedReadLoop, readLoop]
    dsimp only
    rw [checkedRead_eq b received h hl, if_pos hread]
    rw [loopAsks] at hg
    have hrest := (granted_append.mp hg).2
    rcases hp : r.pollReadIntoBuffer (r.codec.bytesNeeded r.buffer.length) read with
      ⟨_ | (e | n), r₁⟩
    · rfl
    · rfl
    · have h₁ : Sound options r₁ := by
        have hread := h.read (r.codec.bytesNeeded r.buffer.length) read
        rwa [hp] at hread
      dsimp only
      rw [checkedDecode_eq b _ h₁]
      rcases hd : r₁.decode with ⟨_ | m | e, r₂⟩
      · obtain ⟨h₂, hw₂, hzero⟩ := round_of_read h hw hp hd
        simp only [hp, hd] at hrest ⊢
        by_cases hn : n = 0
        · obtain ⟨hc, hb⟩ := hzero hn
          have hres₂ : b.Grants (received + n - r₂.buffer.length, r₂.codec.reserved) := by
            rwa [hc, hb, hn, Nat.add_zero]
          rw [if_pos hres₂]
          simp only [if_pos hn, checkedAtEof_eq h₂ hw₂ hres₂]
        · rw [if_neg hn] at hrest
          obtain ⟨hres₂, -⟩ := granted_asks.mp (granted_loopAsks hrest)
          rw [if_pos hres₂]
          simp only [if_neg hn, ih h₂ hw₂ hrest]
      · rfl
      · rfl

theorem checkedReadLoop_refused (h : Sound options r) (hw : r.codec.turn r.buffer = .wait)
    (hres : b.Grants (received - r.buffer.length, r.codec.reserved))
    (hg : ¬ b.Granted (r.loopAsks received reads)) :
    (r.checkedReadLoop b received reads).result = .ready (some (.error .panic)) := by
  induction reads generalizing received r with
  | nil =>
    have hl := ZmqCodec.length_lt_of_wait hw
    have hread := fun hread => hg (granted_asks.mpr ⟨hres, hread⟩)
    rw [checkedReadLoop, checkedResize_eq b received h hl, BytesMut.grow_eq, if_neg hread]
  | cons read reads ih =>
    have hl := ZmqCodec.length_lt_of_wait hw
    rw [checkedReadLoop]
    dsimp only
    rw [checkedRead_eq b received h hl]
    by_cases hread : b.Grants (received - r.buffer.length,
        r.buffer.length + r.readSize (r.codec.bytesNeeded r.buffer.length))
    · rw [if_pos hread]
      rw [loopAsks, granted_append, granted_asks] at hg
      have hrest := fun hrest => hg ⟨⟨hres, hread⟩, hrest⟩
      rcases hp : r.pollReadIntoBuffer (r.codec.bytesNeeded r.buffer.length) read with
        ⟨_ | (e | n), r₁⟩
      · exact absurd (by simp [hp, BytesMut.Granted]) hrest
      · exact absurd (by simp [hp, BytesMut.Granted]) hrest
      · have h₁ : Sound options r₁ := by
          have hread := h.read (r.codec.bytesNeeded r.buffer.length) read
          rwa [hp] at hread
        dsimp only
        rw [checkedDecode_eq b _ h₁]
        rcases hd : r₁.decode with ⟨_ | m | e, r₂⟩
        · obtain ⟨h₂, hw₂, -⟩ := round_of_read h hw hp hd
          simp only [hp, hd] at hrest ⊢
          by_cases hn : n = 0
          · exact absurd (by simp [hn, BytesMut.Granted]) hrest
          · rw [if_neg hn] at hrest
            by_cases hres₂ : b.Grants (received + n - r₂.buffer.length, r₂.codec.reserved)
            · rw [if_pos hres₂]
              simp only [if_neg hn]
              exact ih h₂ hw₂ hres₂ hrest
            · rw [if_neg hres₂]
        · exact absurd (by simp [hp, hd, BytesMut.Granted]) hrest
        · exact absurd (by simp [hp, hd, BytesMut.Granted]) hrest
    · rw [if_neg hread]

theorem checkedPollNext_granted (h : Sound options r) (hg : b.Granted (r.pollAsks received reads)) :
    r.checkedPollNext b received reads = r.pollNext reads := by
  rw [pollAsks] at hg
  rw [checkedPollNext, checkedDecode_eq b received h, pollNext]
  rcases hd : r.decode with ⟨_ | m | e, r₁⟩
  · rw [hd] at hg
    obtain ⟨hres, -⟩ := granted_asks.mp (granted_loopAsks hg)
    dsimp only
    rw [if_pos hres]
    exact checkedReadLoop_granted (h.decode hd) (ZmqCodec.turn_of_decode_none (decode_eq hd)) hg
  · rfl
  · rfl

theorem checkedPollNext_refused (h : Sound options r)
    (hg : ¬ b.Granted (r.pollAsks received reads)) :
    (r.checkedPollNext b received reads).result = .ready (some (.error .panic)) := by
  rw [pollAsks] at hg
  rw [checkedPollNext, checkedDecode_eq b received h]
  rcases hd : r.decode with ⟨_ | m | e, r₁⟩ <;> rw [hd] at hg
  · dsimp only
    by_cases hres : b.Grants (received - r₁.buffer.length, r₁.codec.reserved)
    · rw [if_pos hres]
      exact checkedReadLoop_refused (h.decode hd)
        (ZmqCodec.turn_of_decode_none (decode_eq hd)) hres hg
    · rw [if_neg hres]
  · exact absurd (by simp [BytesMut.Granted]) hg
  · exact absurd (by simp [BytesMut.Granted]) hg

theorem pollNext_ne_panic (h : Sound options r) :
    (r.pollNext reads).result ≠ .ready (some (.error .panic)) := by
  intro hp
  have hd := pollNext_decodesTo h.valid reads
  rw [DecodesTo, hp] at hd
  exact ZmqCodec.decode_error h.valid hd

end Growth

end Sound

/-- The states of a reader, with the number of bytes it was given: between two turns of the
decoder's loop, and after a read, which is made where the decoder waits. -/
inductive Reaches (options : SocketOptions) : Nat → ZmqFramedRead → Prop
  | new : Reaches options 0 (new options)
  | turn {received : Nat} {r : ZmqFramedRead} {c : ZmqCodec} {rest : Bytes} :
    Reaches options received r → (r.codec.turn r.buffer).leaves = some (c, rest) →
    Reaches options received { r with codec := c, buffer := rest }
  | read {received : Nat} {r : ZmqFramedRead} (read : PollRead) : Reaches options received r →
    r.codec.turn r.buffer = .wait →
    Reaches options
      (received + (r.delivered (r.codec.bytesNeeded r.buffer.length) read).length)
      (r.pollReadIntoBuffer (r.codec.bytesNeeded r.buffer.length) read).2

namespace Reaches

variable {options : SocketOptions} {received : Nat} {r r' : ZmqFramedRead}

theorem sound (h : Reaches options received r) : Sound options r := by
  induction h with
  | new => exact sound_new options
  | turn _ hm ih => exact ih.turn hm
  | read read _ _ ih => exact ih.read _ read

theorem decode (h : Reaches options received r) {reply : Reply Message (Fault CodecError)}
    (hd : r.decode = (reply, r')) : Reaches options received r' := by
  have hr' : r' = { r with codec := (r.codec.decode r.buffer).2.1,
                           buffer := (r.codec.decode r.buffer).2.2 } := by
    rw [ZmqFramedRead.decode] at hd
    exact (Prod.mk.inj hd).2.symm
  rw [hr']
  exact ZmqCodec.machine.next_induction (P := fun c src => Reaches options received
    { r with codec := c, buffer := src }) (fun h hm => h.turn hm) h

theorem atEof (h : Reaches options received r) : Reaches options received r.atEof.2 := by
  rw [ZmqFramedRead.atEof]
  split
  · exact h
  · split
    · rename_i hd
      exact h.decode hd
    · rename_i hd
      exact h.decode hd
    · rename_i hd
      split <;> exact h.decode hd

theorem readLoop (h : Reaches options received r) (hw : r.codec.turn r.buffer = .wait)
    (reads : List PollRead) :
    Reaches options (received + (r.readLoop reads).taken.length) (r.readLoop reads).reader := by
  induction reads generalizing received r with
  | nil => exact h
  | cons read reads ih =>
    have hread := h.read read hw
    rw [ZmqFramedRead.readLoop]
    split
    · rename_i hp
      rwa [hp] at hread
    · rename_i hp
      rwa [hp] at hread
    · rename_i hp
      rw [hp] at hread
      split
      · rename_i hd
        exact hread.decode hd
      · rename_i hd
        exact hread.decode hd
      · rename_i hd
        split
        · exact (hread.decode hd).atEof
        · have hnext := ih (hread.decode hd) (ZmqCodec.turn_of_decode_none (decode_eq hd))
          dsimp only
          rwa [List.length_append, ← Nat.add_assoc]

theorem pollNext (h : Reaches options received r) (reads : List PollRead) :
    Reaches options (received + (r.pollNext reads).taken.length) (r.pollNext reads).reader := by
  rw [ZmqFramedRead.pollNext]
  split
  · rename_i hd
    exact h.decode hd
  · rename_i hd
    exact h.decode hd
  · rename_i hd
    exact (h.decode hd).readLoop (ZmqCodec.turn_of_decode_none (decode_eq hd)) reads

end Reaches

structure Bounds (r : ZmqFramedRead) : Prop where
  two_chunks : 2 * r.codec.maxReadChunkSize ≤ usizeMax
  headroom : r.codec.waitingFor + r.codec.maxReadChunkSize ≤ usizeMax
  reserveTo : ∃ n, r.codec.reserveTo = .ok n ∧ n ≤ isizeMax ∧
    (r.buffer.length < r.codec.waitingFor → r.buffer.length ≤ n)
  doubled : r.readChunkSize * 2 ≤ usizeMax
  power : ∀ readSize bytesRead, 0 < bytesRead → bytesRead < r.grown readSize bytesRead / 2 →
    bytesRead.nextPowerOfTwo * 2 ≤ usizeMax
  floor : r.options.readBufferInitialSize * 2 ≤ usizeMax
  shortReads : r.shortReads + 1 ≤ r.options.readBufferShortReads

theorem Sound.bounds {options : SocketOptions} {r : ZmqFramedRead} (h : Sound options r) :
    Bounds r := by
  have hh := h.valid.headroom
  have hm := h.valid.max_le
  have hc := h.chunk_le
  have hs := h.shortReads_lt
  have ho := options.max_le
  have hi := options.initial_le_max
  have hu := isizeMax_le_usizeMax
  refine ⟨by omega, by omega, ?_, by omega, ?_, ?_, ?_⟩
  · obtain ⟨hn, hle, hmax⟩ := ZmqCodec.reserveTo_eq h.valid
    exact ⟨_, hn, hmax, fun hl => by omega⟩
  · intro readSize bytesRead hpos hlt
    have hg := grown_le h readSize bytesRead
    have hpow := nextPowerOfTwo_le hpos
    omega
  · rw [h.options_eq]
    omega
  · rw [h.options_eq]
    exact hs

/-- In every state of a reader the bounds of the source hold.  Where the decoder waits, it panics
just if its buffer cannot grow by what it reserves, since bytes that were consumed still count, and
a read just if the buffer cannot grow to the slice; and `poll_next` panics just where its buffer
cannot hold what the call asks for. -/
theorem reader_panics_iff {options : SocketOptions} {received : Nat} {r : ZmqFramedRead}
    (b : BytesMut) (h : Reaches options received r) :
    Bounds r ∧
      (r.buffer.length < r.codec.waitingFor →
        ((r.checkedDecode b received).1 = .error .panic ↔
          ¬ b.Grants (received - r.buffer.length, r.codec.reserved)) ∧
        ∀ minReadSize read, r.checkedRead b received minReadSize read = .error .panic ↔
          ¬ b.Grants (received - r.buffer.length, r.buffer.length + r.readSize minReadSize)) ∧
      ((r.checkedDecode b received).1 = .error .panic ↔ ∃ r', r.decode = (.none, r') ∧
        ¬ b.Grants (received - r'.buffer.length, r'.codec.reserved)) ∧
      (∀ r', r.decode = (.none, r') → r'.buffer.length < r'.codec.waitingFor ∧
        r'.buffer.length + r'.readSize (r'.codec.bytesNeeded r'.buffer.length) ≤ isizeMax) ∧
      ∀ reads,
        ((r.checkedPollNext b received reads).result = .ready (some (.error .panic)) ↔
          ¬ b.Granted (r.pollAsks received reads)) ∧
        (b.Granted (r.pollAsks received reads) →
          r.checkedPollNext b received reads = r.pollNext reads ∧
            Reaches options (received + (r.pollNext reads).taken.length)
              (r.pollNext reads).reader) := by
  have hs := h.sound
  refine ⟨hs.bounds, fun hl => ⟨?_, fun minReadSize read => ?_⟩, checkedDecode_panic_iff hs, ?_,
    fun reads => ⟨?_, ?_⟩⟩
  · have hw : r.codec.turn r.buffer = .wait := by rw [ZmqCodec.turn, if_pos hl]
    have hd := decode_of_wait hw
    simp [checkedDecode_panic_iff hs, hd]
  · rw [checkedRead_eq b received hs hl]
    split
    · rename_i hg
      exact iff_of_false (fun he => by cases he) (fun hn => hn hg)
    · rename_i hg
      exact iff_of_true rfl hg
  · intro r' hd
    have hs' := hs.decode hd
    have hl := ZmqCodec.length_lt_of_wait (ZmqCodec.turn_of_decode_none (decode_eq hd))
    exact ⟨hl, start_add_readSize_le hs' hl _⟩
  · constructor
    · intro hp hg
      rw [checkedPollNext_granted hs hg] at hp
      exact pollNext_ne_panic hs hp
    · exact checkedPollNext_refused hs
  · exact fun hg => ⟨checkedPollNext_granted hs hg, h.pollNext reads⟩

section Runs

omit [Target]

def announcing (length : Bytes) : Bytes := ZmqGreeting.encode .default ++ 2 :: length

theorem reader_panics_iff_long :
    letI := Target.x64
    let wire := announcing [0, 0, 0, 0, 0, 0x10, 0, 0]
    let r := ((new .default).pollNext [PollRead.giving wire]).reader
    Reaches .default wire.length r ∧ Bounds r ∧
      (r.checkedDecode .kept wire.length).1 = .none ∧
      (r.checkedPollNext .kept wire.length []).result ≠ .ready (some (.error .panic)) := by
  let _ := Target.x64
  intro wire r
  have ht : ((new .default).pollNext [PollRead.giving wire]).taken.length = wire.length := by
    decide +kernel
  have hnew : Reaches .default 0 (new .default) := .new
  have h : Reaches .default wire.length r := by
    simpa only [Nat.zero_add, ht] using hnew.pollNext [PollRead.giving wire]
  have hb := reader_panics_iff .kept h
  refine ⟨h, hb.1, by decide +kernel, fun hp => ?_⟩
  exact (hb.2.2.2.2 []).1.mp hp (by decide +kernel)

/-- A frame that is a chunk short of `isize::MAX`: the decoder lets its length through, and the
73 bytes before it make the reservation too large. -/
theorem reservation_overflows :
    letI := Target.x64
    let wire := announcing [0x7f, 0xff, 0xff, 0xff, 0xff, 0xfe, 0xff, 0xff]
    let r := ((new .default).pollNext [PollRead.giving wire]).reader
    Reaches .default wire.length r ∧ r.codec.reserved ≤ isizeMax ∧
      (r.checkedDecode .kept wire.length).1 = .error .panic ∧
      (r.checkedPollNext .kept wire.length []).result = .ready (some (.error .panic)) := by
  let _ := Target.x64
  intro wire r
  have ht : ((new .default).pollNext [PollRead.giving wire]).taken.length = wire.length := by
    decide +kernel
  have hnew : Reaches .default 0 (new .default) := .new
  refine ⟨?_, by decide +kernel, by decide +kernel, by decide +kernel⟩
  simpa only [Nat.zero_add, ht] using hnew.pollNext [PollRead.giving wire]

end Runs

end ZmqFramedRead

end Codec

end ZmqRs
