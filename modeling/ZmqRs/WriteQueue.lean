import ZmqRs.Lib.Mpsc
import ZmqRs.Lib.Sink
import ZmqRs.Lib.Transition
import ZmqRs.Codec.ZmqCodec

/-! The writer task.  `write_message_queue` takes messages out of a channel and
feeds them to the framed sink in batches, while senders put messages into the
channel and the transport takes bytes whenever it likes. -/

namespace ZmqRs.WriteQueue

open Codec (Message)
open Lib (Mpsc Sink)

def writeBatchLimit : Nat := 128

/-- The task, by what it waits for or does next: `queue_receiver.next()`, `feed`, the `for` with
its rounds that are left, `flush`. -/
inductive Writer
  | next
  | feed (message : Message) (left : Nat)
  | tryRecv (left : Nat)
  | flush
  | returned (result : Res CodecError Unit)
  deriving DecidableEq

/-- `sent` are the messages put into the channel so far, `taken` those taken out. -/
structure State where
  chan : Mpsc Message
  sink : Sink UInt8
  writer : Writer
  sent : List Message
  taken : List Message

inductive Action
  | clone (i : Nat)
  | drop (i : Nat)
  | trySend (i : Nat) (message : Message)
  | next
  | tryRecv
  | startSend
  | write (n : Nat)
  | writeError (e : IoError)
  | flushed
  | flushError (e : IoError)

def State.init (capacity : Nat) : State := ⟨.channel capacity, .new, .next, [], []⟩

def State.finish (st : State) (result : Res CodecError Unit) : State :=
  { st with writer := .returned result, chan := st.chan.close }

section Defs

variable (highWaterMark : Nat) (order : Message → List (String × Bytes))

def State.writes (st : State) : Bool :=
  match st.writer with
  | .feed _ _ => highWaterMark ≤ st.sink.buffer.length
  | .flush => !st.sink.buffer.isEmpty
  | _ => false

def next (st : State) : Action → Option State
  | .clone i => if st.chan.isLive i then some { st with chan := st.chan.clone } else none
  | .drop i => if st.chan.isLive i then some { st with chan := st.chan.drop i } else none
  | .trySend i m =>
    if st.chan.isLive i then
      match st.chan.trySend i m with
      | (.sent, chan) => some { st with chan := chan, sent := st.sent ++ [m] }
      | (_, chan) => some { st with chan := chan }
    else none
  | .next =>
    match st.writer with
    | .next =>
      match st.chan.recv with
      | some (m, chan) =>
        some { st with
          chan := chan, taken := st.taken ++ [m], writer := .feed m (writeBatchLimit - 1) }
      | none => if st.chan.alive = 0 then some (st.finish (.ok ())) else none
    | _ => none
  | .tryRecv =>
    match st.writer with
    | .tryRecv 0 => some { st with writer := .flush }
    | .tryRecv (left + 1) =>
      match st.chan.recv with
      | some (m, chan) =>
        some { st with chan := chan, taken := st.taken ++ [m], writer := .feed m left }
      | none => some { st with writer := .flush }
    | _ => none
  | .startSend =>
    match st.writer with
    | .feed m left =>
      if st.writes highWaterMark then none
      else
        match Codec.ZmqCodec.encode (order m) m with
        | .ok bytes => some { st with sink := st.sink.feed bytes, writer := .tryRecv left }
        | .error e => some (st.finish (.error e))
    | _ => none
  | .write n =>
    if st.writes highWaterMark then (st.sink.write n).map fun sink => { st with sink := sink }
    else none
  | .writeError e =>
    if st.writes highWaterMark then some (st.finish (.error (.error (.io e)))) else none
  | .flushed =>
    match st.writer with
    | .flush => st.sink.flush.map fun sink => { st with sink := sink, writer := .next }
    | _ => none
  | .flushError e =>
    match st.writer with
    | .flush =>
      if st.writes highWaterMark then none else some (st.finish (.error (.error (.io e))))
    | _ => none

def system (capacity : Nat) : Lib.System State Action where
  init := .init capacity
  next := next highWaterMark order

end Defs

variable {highWaterMark : Nat} {order : Message → List (String × Bytes)} {capacity : Nat}
  {st st' : State}

def bytes (order : Message → List (String × Bytes)) (m : Message) : Bytes :=
  match Codec.ZmqCodec.encode (order m) m with
  | .ok bytes => bytes
  | .error _ => []

def NonEmpty : Message → Prop
  | .message m => m.len ≠ 0
  | _ => True

theorem encode_of_nonEmpty {m : Message} (h : NonEmpty m) :
    Codec.ZmqCodec.encode (order m) m = .ok (bytes order m) := by
  cases m with
  | greeting g => rfl
  | command c => rfl
  | message m =>
    rw [NonEmpty] at h
    simp only [bytes, Codec.ZmqCodec.encode, if_neg h]

structure Kept (st : State) : Prop where
  isPrefix : st.taken <+: st.sent
  running : (∀ r, st.writer ≠ .returned r) → st.sent = st.taken ++ st.chan.queue
  returned : ∀ r, st.writer = .returned r → st.chan.closed = true

def Fed (fed : List Message) (st : State) : Writer → Prop
  | .next => fed = st.taken ∧ st.sink.flushed = st.sink.fed
  | .feed m _ => st.taken = fed ++ [m]
  | .tryRecv _ | .flush => fed = st.taken
  | .returned (.ok _) =>
    fed = st.taken ∧ st.sink.flushed = st.sink.fed ∧ st.taken = st.sent ∧ st.chan.alive = 0
  | .returned (.error _) => fed <+: st.taken

theorem Fed.isPrefix {fed : List Message} {w : Writer} (h : Fed fed st w) : fed <+: st.taken := by
  cases w with
  | next => exact h.1 ▸ List.prefix_rfl
  | feed m left => exact ⟨[m], Eq.symm h⟩
  | tryRecv | flush =>
    obtain rfl : fed = st.taken := h
    exact List.prefix_rfl
  | returned r =>
    cases r with
    | error e => exact h
    | ok u => exact h.1 ▸ List.prefix_rfl

structure Inv (order : Message → List (String × Bytes)) (st : State) : Prop where
  kept : Kept st
  wire : ∃ fed, st.sink.fed = fed.flatMap (bytes order) ∧ Fed fed st st.writer

theorem inv_init : Inv order (State.init capacity) where
  kept := ⟨List.nil_prefix, fun _ => rfl, fun r h => by cases h⟩
  wire := ⟨[], rfl, rfl, rfl⟩

theorem Inv.sender (h : Inv order st) (ha : 0 < st.chan.alive) (chan : Mpsc Message)
    (ms : List Message) (hq : chan.queue = st.chan.queue ++ ms)
    (hc : chan.closed = st.chan.closed) :
    Inv order { st with chan := chan, sent := st.sent ++ ms } := by
  obtain ⟨⟨hp, hrun, hret⟩, fed, hfed, hpos⟩ := h
  refine ⟨⟨hp.trans (List.prefix_append _ _), ?_, ?_⟩, fed, hfed, ?_⟩
  · intro hw
    rw [hrun hw, hq, List.append_assoc]
  · intro r hw
    rw [hc]
    exact hret r hw
  · cases hw : st.writer with
    | next | feed | tryRecv | flush =>
      rw [hw] at hpos
      exact hpos
    | returned r =>
      rw [hw] at hpos
      cases r with
      | error e => exact hpos
      | ok u =>
        obtain ⟨-, -, -, hzero⟩ := hpos
        rw [hzero] at ha
        cases ha

theorem Inv.trySend (h : Inv order st) {i : Nat} {m : Message}
    (hn : next highWaterMark order st (.trySend i m) = some st') : Inv order st' := by
  simp only [next] at hn
  split at hn
  · rename_i hl
    have ha := Mpsc.alive_pos hl
    split at hn
    · rename_i hs
      obtain ⟨hc, hc', hq⟩ := Mpsc.trySend_of_sent hs
      cases hn
      exact h.sender ha _ _ hq (hc'.trans hc.symm)
    · rename_i hr hs
      cases hn
      rw [Mpsc.trySend_of_ne_sent hs hr]
      exact h
  · cases hn

theorem Inv.take (h : Inv order st) (hrun : ∀ r, st.writer ≠ .returned r)
    (hfed : st.sink.fed = st.taken.flatMap (bytes order)) {m : Message} {chan : Mpsc Message}
    (hr : st.chan.recv = some (m, chan)) (left : Nat) :
    Inv order { st with chan := chan, taken := st.taken ++ [m], writer := .feed m left } := by
  obtain ⟨hq, -⟩ := Mpsc.recv_eq_some hr
  have hsent : st.sent = (st.taken ++ [m]) ++ chan.queue := by
    rw [h.kept.running hrun, hq, List.append_assoc, List.singleton_append]
  refine ⟨⟨?_, fun _ => hsent, fun r hw => by cases hw⟩, st.taken, hfed, rfl⟩
  rw [hsent]
  exact List.prefix_append _ _

theorem Inv.finish_error (h : Inv order st) (e : Fault CodecError) :
    Inv order (st.finish (.error e)) := by
  obtain ⟨⟨hp, -, -⟩, fed, hfed, hpos⟩ := h
  exact ⟨⟨hp, fun hw => absurd rfl (hw _), fun _ _ => rfl⟩, fed, hfed, hpos.isPrefix⟩

theorem Inv.recv (h : Inv order st) (hn : next highWaterMark order st .next = some st') :
    Inv order st' := by
  simp only [next] at hn
  split at hn
  · rename_i hw
    obtain ⟨fed, hfed, hpos⟩ := h.wire
    rw [hw] at hpos
    obtain ⟨rfl, hflush⟩ := hpos
    have hrun : ∀ r, st.writer ≠ .returned r := by simp [hw]
    split at hn
    · rename_i hr
      cases hn
      exact h.take hrun hfed hr _
    · rename_i hr
      split at hn
      · rename_i ha
        cases hn
        have hsent : st.taken = st.sent := by
          rw [h.kept.running hrun, Mpsc.recv_eq_none hr, List.append_nil]
        refine ⟨⟨h.kept.isPrefix, fun hw => absurd rfl (hw _), fun _ _ => rfl⟩, st.taken, hfed, rfl,
          hflush, hsent, ?_⟩
        exact (Mpsc.alive_close _).trans ha
      · cases hn
  · cases hn

theorem Inv.tryRecv (h : Inv order st) (hn : next highWaterMark order st .tryRecv = some st') :
    Inv order st' := by
  obtain ⟨fed, hfed, hpos⟩ := h.wire
  simp only [next] at hn
  split at hn
  · rename_i hw
    rw [hw] at hpos
    cases hn
    have hrun := h.kept.running (by simp [hw])
    exact ⟨⟨h.kept.isPrefix, fun _ => hrun, fun r hw => by cases hw⟩, fed, hfed, hpos⟩
  · rename_i left hw
    rw [hw] at hpos
    obtain rfl : fed = st.taken := hpos
    split at hn
    · rename_i hr
      cases hn
      exact h.take (by simp [hw]) hfed hr left
    · cases hn
      have hrun := h.kept.running (by simp [hw])
      exact ⟨⟨h.kept.isPrefix, fun _ => hrun, fun r hw => by cases hw⟩, st.taken, hfed, rfl⟩
  · cases hn

theorem Inv.startSend (h : Inv order st)
    (hn : next highWaterMark order st .startSend = some st') : Inv order st' := by
  simp only [next] at hn
  split at hn
  · rename_i m left hw
    split at hn
    · cases hn
    · split at hn
      · rename_i bs henc
        obtain ⟨fed, hfed, hpos⟩ := h.wire
        rw [hw] at hpos
        cases hn
        have hrun := h.kept.running (by simp [hw])
        refine ⟨⟨h.kept.isPrefix, fun _ => hrun, fun r hw => by cases hw⟩, st.taken, ?_, rfl⟩
        have hbytes : bytes order m = bs := by rw [bytes, henc]
        rw [Sink.fed_feed, hfed, hpos, List.flatMap_append, List.flatMap_singleton, hbytes]
      · cases hn
        exact h.finish_error _
  · cases hn

theorem Inv.write (h : Inv order st) {n : Nat}
    (hn : next highWaterMark order st (.write n) = some st') : Inv order st' := by
  simp only [next] at hn
  split at hn
  · rename_i hwr
    obtain ⟨sink, hs, rfl⟩ := Option.map_eq_some_iff.mp hn
    obtain ⟨fed, hfed, hpos⟩ := h.wire
    refine ⟨⟨h.kept.isPrefix, h.kept.running, h.kept.returned⟩, fed,
      (Sink.fed_write hs).trans hfed, ?_⟩
    cases hw : st.writer with
    | next | returned => simp [State.writes, hw] at hwr
    | feed | tryRecv | flush =>
      rw [hw] at hpos
      exact hpos
  · cases hn

theorem Inv.flushed (h : Inv order st) (hn : next highWaterMark order st .flushed = some st') :
    Inv order st' := by
  simp only [next] at hn
  split at hn
  · rename_i hw
    obtain ⟨sink, hs, rfl⟩ := Option.map_eq_some_iff.mp hn
    obtain ⟨fed, hfed, hpos⟩ := h.wire
    rw [hw] at hpos
    obtain ⟨hf, hf'⟩ := Sink.flushed_of_flush hs
    have hrun := h.kept.running (by simp [hw])
    exact ⟨⟨h.kept.isPrefix, fun _ => hrun, fun r hw => by cases hw⟩, fed, hf'.trans hfed, hpos,
      hf.trans hf'.symm⟩
  · cases hn

theorem inv_next (h : Inv order st) {a : Action} (hn : next highWaterMark order st a = some st') :
    Inv order st' := by
  cases a with
  | clone i =>
    simp only [next] at hn
    split at hn
    · rename_i hl
      cases hn
      simpa using h.sender (Mpsc.alive_pos hl) st.chan.clone [] (by simp; rfl) rfl
    · cases hn
  | drop i =>
    simp only [next] at hn
    split at hn
    · rename_i hl
      cases hn
      simpa using h.sender (Mpsc.alive_pos hl) (st.chan.drop i) [] (by simp; rfl) rfl
    · cases hn
  | trySend i m => exact h.trySend hn
  | next => exact h.recv hn
  | tryRecv => exact h.tryRecv hn
  | startSend => exact h.startSend hn
  | write n => exact h.write hn
  | flushed => exact h.flushed hn
  | writeError e =>
    simp only [next] at hn
    split at hn
    · cases hn
      exact h.finish_error _
    · cases hn
  | flushError e =>
    simp only [next] at hn
    split at hn
    · split at hn
      · cases hn
      · cases hn
        exact h.finish_error _
    · cases hn

theorem reachable_inv (h : (system highWaterMark order capacity).Reachable st) : Inv order st :=
  h.invariant (P := Inv order) inv_init fun _ _ _ hi hn => inv_next hi hn

theorem written_next {a : Action} (hn : next highWaterMark order st a = some st') :
    st.sink.written <+: st'.sink.written := by
  cases a with
  | write n =>
    simp only [next] at hn
    split at hn
    · obtain ⟨sink, hs, rfl⟩ := Option.map_eq_some_iff.mp hn
      exact Sink.written_write hs
    · cases hn
  | flushed =>
    simp only [next] at hn
    split at hn
    · obtain ⟨sink, hs, rfl⟩ := Option.map_eq_some_iff.mp hn
      rw [← Sink.written_flush hs]
    · cases hn
  | clone | drop | trySend | next | tryRecv | startSend | writeError | flushError =>
    suffices h : st'.sink.written = st.sink.written by rw [h]
    simp only [next, State.finish] at hn
    split at hn <;> grind [Sink.feed]

theorem Inv.written_isPrefix (h : Inv order st) :
    st.sink.written <+: st.sent.flatMap (bytes order) := by
  obtain ⟨hkept, fed, hfed, hpos⟩ := h
  have hall : st.sink.fed <+: st.sent.flatMap (bytes order) := by
    rw [hfed]
    exact (hpos.isPrefix.trans hkept.isPrefix).flatMap _
  exact st.sink.written_isPrefix.trans hall

theorem Inv.written_of_idle (h : Inv order st) (hw : st.writer = .next)
    (hq : st.chan.queue = []) : st.sink.flushed = st.sent.flatMap (bytes order) := by
  obtain ⟨hkept, fed, hfed, hpos⟩ := h
  rw [hw] at hpos
  obtain ⟨rfl, hflush⟩ := hpos
  rw [hflush, hfed, hkept.running (by simp [hw]), hq, List.append_nil]

/-- In whatever batches the task takes the messages and in whatever pieces the transport takes
the bytes, the wire holds the encodings one after another, in the order of the channel.  Nothing
is left in the sink while the task waits for a message or after it has returned `Ok`, which it
does when the channel is closed and empty. -/
theorem batching_keeps_wire (h : (system highWaterMark order capacity).Reachable st)
    (hm : ∀ m ∈ st.sent, NonEmpty m) :
    (∀ m ∈ st.sent, Codec.ZmqCodec.encode (order m) m = .ok (bytes order m)) ∧
      st.sink.written <+: st.sent.flatMap (bytes order) ∧
      (st.writer = .next → st.sent = st.taken ++ st.chan.queue ∧
        st.sink.flushed = st.taken.flatMap (bytes order)) ∧
      (st.writer = .returned (.ok ()) → st.chan.alive = 0 ∧
        st.sink.flushed = st.sent.flatMap (bytes order)) := by
  have hinv : Inv order st :=
    h.invariant (P := Inv order) inv_init fun _ _ _ hi hn => inv_next hi hn
  obtain ⟨hkept, fed, hfed, hpos⟩ := hinv
  refine ⟨fun m hmem => encode_of_nonEmpty (hm m hmem), ?_, ?_, ?_⟩
  · have hall : st.sink.fed <+: st.sent.flatMap (bytes order) := by
      rw [hfed]
      exact (hpos.isPrefix.trans hkept.isPrefix).flatMap _
    exact st.sink.written_isPrefix.trans hall
  · intro hw
    rw [hw] at hpos
    obtain ⟨rfl, hflush⟩ := hpos
    exact ⟨hkept.running (by simp [hw]), hflush.trans hfed⟩
  · intro hw
    rw [hw] at hpos
    obtain ⟨rfl, hflush, hsent, ha⟩ := hpos
    exact ⟨ha, by rw [hflush, hfed, hsent]⟩

def twoMessages : List Action :=
  [.trySend 0 (.message ⟨[[97]]⟩), .next, .startSend, .trySend 0 (.message ⟨[[98]]⟩), .tryRecv,
    .startSend, .tryRecv, .write 2, .write 4, .flushed, .drop 0, .next]

theorem batching_keeps_wire_two :
    ∃ st, (system 8 (fun _ => []) 1).run (.init 1) twoMessages = some st ∧
      st.writer = .returned (.ok ()) ∧ st.sink.flushed = [0, 1, 97, 0, 1, 98] := by
  have hrun : ∃ st, (system 8 (fun _ => []) 1).run (.init 1) twoMessages = some st ∧
      st.writer = .returned (.ok ()) ∧
      st.sent = [.message ⟨[[97]]⟩, .message ⟨[[98]]⟩] :=
    ⟨_, rfl, rfl, rfl⟩
  obtain ⟨st, hrun, hw, hsent⟩ := hrun
  have hm : ∀ m ∈ st.sent, NonEmpty m := by
    rw [hsent]
    simp [NonEmpty, ZmqMessage.len]
  obtain ⟨-, -, -, hret⟩ := batching_keeps_wire ⟨_, hrun⟩ hm
  obtain ⟨-, hflushed⟩ := hret hw
  refine ⟨st, hrun, hw, ?_⟩
  rw [hflushed, hsent]
  rfl

end ZmqRs.WriteQueue
