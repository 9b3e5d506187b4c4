import ZmqRs.Codec.Frames
import ZmqRs.Codec.Await

/-! The end of a stream.  At the end the reader looks at its buffer only, so that a stream
that was cut where the decoder had used up every byte passes for a complete one. -/

namespace ZmqRs.Codec

open Lib Lib.Incremental

/-- Where a stream of frames can end: behind a whole item, between the frames of a message,
behind the flags or behind the header of a frame, or inside of a length or a body. -/
inductive End
  | closed
  | split
  | flags
  | header
  | inside
  deriving DecidableEq

def opens (opened : Bool) (flags : UInt8) : Bool :=
  if (Frame.ofFlags flags).command then opened else (Frame.ofFlags flags).more

inductive Ends : Bool → Bytes → End → Prop
  | closed : Ends false [] .closed
  | split : Ends true [] .split
  | flags {opened : Bool} (flags : UInt8) : Ends opened [flags] .flags
  | len {opened : Bool} {flags : UInt8} {len : Bytes} : len ≠ [] →
    len.length < ZmqCodec.lenSize flags → Ends opened (flags :: len) .inside
  | header {opened : Bool} {flags : UInt8} {len : Bytes} :
    len.length = ZmqCodec.lenSize flags → 0 < BigEndian.decode len →
    Ends opened (flags :: len) .header
  | body {opened : Bool} {flags : UInt8} {len body : Bytes} :
    len.length = ZmqCodec.lenSize flags → body ≠ [] → body.length < BigEndian.decode len →
    Ends opened (flags :: (len ++ body)) .inside
  | frame {opened : Bool} {flags : UInt8} {len body rest : Bytes} {e : End} :
    len.length = ZmqCodec.lenSize flags → body.length = BigEndian.decode len →
    Ends (opens opened flags) rest e → Ends opened (flags :: (len ++ body) ++ rest) e

def EndsAt (b : Bytes) (e : End) : Prop :=
  ∃ greeting rest, b = greeting ++ rest ∧ greeting.length = 64 ∧ Ends false rest e

/-- Nothing at all, or a greeting and whole items.  A command may stand between the frames of
a message, as the decoder allows. -/
def Complete (b : Bytes) : Prop := b = [] ∨ EndsAt b .closed

namespace ZmqCodec

variable [Target]

def endOf (c : ZmqCodec) (rest : Bytes) : End :=
  match c.state with
  | .frameLen _ => if rest = [] then .flags else .inside
  | .frame _ => if rest = [] then .header else .inside
  | _ => if c.bufferedMessage.isSome then .split else .closed

theorem decodeAll_frame {max : Nat} {flags : UInt8} {body : Bytes} (held : Option ZmqMessage)
    (hf : FrameFits max flags body) (rest : Bytes)
    (he : ((between held max).decodeAll (frameBytes flags body ++ rest)).error = none) :
    ∃ held' items, held'.isSome = opens held.isSome flags ∧
      (between held max).decodeAll (frameBytes flags body ++ rest) =
        ((between held' max).decodeAll rest).prepend items := by
  rw [opens]
  cases hc : (Frame.ofFlags flags).command with
  | true =>
    have hd := decode_commandFrame held hf hc rest
    cases ht : ZmqCommand.tryFrom body with
    | error e =>
      rw [ht] at hd
      rw [decodeAll_error hd] at he
      cases he
    | ok command =>
      rw [ht] at hd
      exact ⟨held, [.command command], rfl, decodeAll_item hd⟩
  | false =>
    cases hm : (Frame.ofFlags flags).more with
    | true =>
      exact ⟨some ⟨heldFrames held ++ [body]⟩, [], rfl,
        decodeAll_congr (decode_moreFrame held hf hc hm rest)⟩
    | false => exact ⟨none, _, rfl, decodeAll_item (decode_lastFrame held hf hc hm rest)⟩

theorem decodeAll_between_nil (held : Option ZmqMessage) (max : Nat) :
    (between held max).decodeAll [] = ⟨[], none, between held max, []⟩ :=
  decodeAll_wait Nat.zero_lt_one

theorem decode_header_ok {max : Nat} {flags : UInt8} {len rest : Bytes}
    {held : Option ZmqMessage} (hl : len.length = lenSize flags)
    (he : ((between held max).decodeAll (flags :: (len ++ rest))).error = none) :
    announced max flags len = .ok (BigEndian.decode len) ∧
      (between held max).decode (flags :: (len ++ rest)) =
        decode ⟨.frame (Frame.ofFlags flags), BigEndian.decode len, held, max⟩ rest := by
  have hd := decode_header held max hl rest
  cases ha : announced max flags len with
  | error e =>
    rw [ha] at hd
    rw [decodeAll_error hd] at he
    cases he
  | ok n =>
    obtain rfl := announced_eq_ok ha
    rw [ha] at hd
    exact ⟨rfl, hd⟩

theorem endOf_decodeAll {opened : Bool} {src : Bytes} {e : End} (h : Ends opened src e)
    {held : Option ZmqMessage} {max : Nat} (ho : held.isSome = opened)
    (he : ((between held max).decodeAll src).error = none) :
    endOf ((between held max).decodeAll src).state ((between held max).decodeAll src).rest = e ∧
      (((between held max).decodeAll src).rest = [] ↔ e ≠ .inside) := by
  induction h generalizing held with
  | closed =>
    rw [decodeAll_between_nil]
    simp [endOf, between, ho]
  | split =>
    rw [decodeAll_between_nil]
    simp [endOf, between, ho]
  | flags flags =>
    have hs : ([] : Bytes).length < lenSize flags := by
      rw [lenSize]
      split <;> decide
    rw [decodeAll_none (decode_header_short held max hs)]
    simp [endOf]
  | len hne hl =>
    rw [decodeAll_none (decode_header_short held max hl)]
    simp [endOf, hne]
  | @header _ flags len hl hpos =>
    rw [← List.append_nil len] at he ⊢
    have hd := (decode_header_ok hl he).2
    rw [decodeAll_none (hd.trans (decode_wait (if_pos hpos)))]
    simp [endOf]
  | @body _ flags len body hl hne hlt =>
    have hd := (decode_header_ok hl he).2
    rw [decodeAll_none (hd.trans (decode_wait (if_pos hlt)))]
    simp [endOf, hne]
  | @frame opened flags len body rest e hl hb _ ih =>
    have hf : FrameFits max flags body := by
      rw [List.cons_append, List.append_assoc] at he
      exact frameFits_of_announced hl hb (decode_header_ok hl he).1
    rw [← frameBytes_eq hl hb] at he ⊢
    obtain ⟨held', items, hh, hd⟩ := decodeAll_frame held hf rest he
    rw [hd] at he ⊢
    apply ih
    · rw [hh, ho]
    · exact he

theorem exists_ends {held : Option ZmqMessage} {max : Nat} {src : Bytes}
    (he : ((between held max).decodeAll src).error = none) : ∃ e, Ends held.isSome src e := by
  induction hn : src.length using Nat.strong_induction_on generalizing src held with
  | _ n ih =>
    cases src with
    | nil =>
      cases held with
      | none => exact ⟨_, .closed⟩
      | some m => exact ⟨_, .split⟩
    | cons flags src =>
      by_cases hs : src.length < lenSize flags
      · by_cases hne : src = []
        · rw [hne]
          exact ⟨_, .flags flags⟩
        · exact ⟨_, .len hne hs⟩
      -- the header is there, and so is the body or only a part of it
      have hl : (src.take (lenSize flags)).length = lenSize flags := by
        rw [List.length_take]
        omega
      have hsplit := List.take_append_drop (lenSize flags) src
      generalize src.take (lenSize flags) = len at hl hsplit
      generalize src.drop (lenSize flags) = tail at hsplit
      rw [← hsplit] at he hn ⊢
      by_cases hlt : tail.length < BigEndian.decode len
      · by_cases hne : tail = []
        · rw [hne, List.append_nil]
          rw [hne] at hlt
          exact ⟨_, .header hl hlt⟩
        · exact ⟨_, .body hl hne hlt⟩
      · have hb : (tail.take (BigEndian.decode len)).length = BigEndian.decode len := by
          rw [List.length_take]
          omega
        have hframe := List.take_append_drop (BigEndian.decode len) tail
        have hf := frameFits_of_announced hl hb (decode_header_ok hl he).1
        rw [← hframe, ← List.append_assoc, ← List.cons_append] at he ⊢
        rw [← frameBytes_eq hl hb] at he
        obtain ⟨held', items, hh, hd⟩ := decodeAll_frame held hf _ he
        rw [hd] at he
        have hlt : (tail.drop (BigEndian.decode len)).length < n := by
          rw [← hn, List.length_drop]
          simp
          omega
        obtain ⟨e, h⟩ := ih _ hlt he rfl
        rw [hh] at h
        exact ⟨e, .frame hl hb h⟩

theorem decodeAll_withOptions {options : SocketOptions} {b : Bytes}
    (he : ((withOptions options).decodeAll b).error = none) :
    b.length < 64 ∧ ((withOptions options).decodeAll b).rest = b ∨
      ∃ greeting rest items, b = greeting ++ rest ∧ greeting.length = 64 ∧
        (withOptions options).decodeAll b =
          ((idle options.readBufferMaxSize).decodeAll rest).prepend items := by
  by_cases hl : b.length < 64
  · left
    rw [decodeAll_wait hl]
    exact ⟨hl, rfl⟩
  right
  cases ht : (withOptions options).turn b with
  | wait => exact absurd (length_lt_of_wait ht) hl
  | go c rest =>
    rw [turn] at ht
    cases b <;> grind [onGreeting, withOptions]
  | emit m c rest =>
    have hd := decode_emit ht
    obtain ⟨greeting, g, hb, hg, -, rfl⟩ := decode_eq_greeting.mp hd
    exact ⟨greeting, rest, [m], hb, (ZmqGreeting.tryFrom_eq_ok.mp hg).1, decodeAll_item hd⟩
  | fail e c rest =>
    rw [decodeAll_error (decode_fail ht)] at he
    cases he

theorem exists_endsAt {options : SocketOptions} {b : Bytes}
    (he : ((withOptions options).decodeAll b).error = none) :
    b.length < 64 ∧ ((withOptions options).decodeAll b).rest = b ∨
      64 ≤ b.length ∧ ∃ e, (∀ e', EndsAt b e' ↔ e' = e) ∧
        (((withOptions options).decodeAll b).rest = [] ↔ e ≠ .inside) := by
  cases decodeAll_withOptions he with
  | inl h => exact .inl h
  | inr h =>
    right
    obtain ⟨greeting, rest, items, rfl, hg, hd⟩ := h
    rw [hd] at he ⊢
    obtain ⟨e, h⟩ := exists_ends he
    refine ⟨by simp [hg], e, ?_, (endOf_decodeAll h rfl he).2⟩
    intro e'
    constructor
    · rintro ⟨greeting', rest', hb, hg', h'⟩
      obtain ⟨-, rfl⟩ := List.append_inj hb (hg.trans hg'.symm)
      rw [← (endOf_decodeAll h rfl he).1, ← (endOf_decodeAll h' rfl he).1]
    · rintro rfl
      exact ⟨greeting, rest, rfl, hg, h⟩

end ZmqCodec

/-- A stream that was cut where the decoder had used up all of it: between the frames of a
message, behind the flags of a frame, or behind the header of a frame with a body. -/
def Cut (b : Bytes) : Prop := EndsAt b .split ∨ EndsAt b .flags ∨ EndsAt b .header

theorem rest_eq_nil_iff [Target] {options : SocketOptions} {b : Bytes}
    (he : ((ZmqCodec.withOptions options).decodeAll b).error = none) :
    (((ZmqCodec.withOptions options).decodeAll b).rest = [] ↔ Complete b ∨ Cut b) ∧
      ¬ (Complete b ∧ Cut b) := by
  cases ZmqCodec.exists_endsAt he with
  | inl h =>
    have hno : ∀ e, ¬ EndsAt b e := by
      rintro e ⟨greeting, rest, rfl, hg, -⟩
      simp [hg] at h
    simp [Complete, Cut, hno, h.2]
  | inr h =>
    obtain ⟨hl, e, hends, hrest⟩ := h
    have hne : b ≠ [] := by
      rintro rfl
      simp at hl
    rw [hrest]
    cases e <;> simp [Complete, Cut, hends, hne]

namespace ZmqFramedRead

variable [Target]

def atEnd (buffer : Bytes) : Poll (Option Item) :=
  if buffer = [] then .ready none
  else .ready (some (.error (.error (.io ⟨.unexpectedEof, "bytes remaining in stream"⟩))))

theorem atEof_eq {r : ZmqFramedRead} (hw : r.codec.turn r.buffer = .wait) :
    r.atEof = (atEnd r.buffer, r) := by
  have hd := decode_of_wait hw
  rw [atEof, hd, atEnd]
  by_cases hb : r.buffer = [] <;> simp [hb]

theorem readLoop_atEnd {r : ZmqFramedRead} (hv : r.codec.Valid)
    (hw : r.codec.turn r.buffer = .wait) {reads : List PollRead}
    (h : (r.readLoop (reads ++ [.eof])).reads = []) :
    (r.readLoop (reads ++ [.eof])).result = atEnd (r.readLoop (reads ++ [.eof])).reader.buffer := by
  induction reads generalizing r with
  | nil =>
    obtain ⟨r₁, hp⟩ := r.pollReadIntoBuffer_eof (r.codec.bytesNeeded r.buffer.length)
    obtain ⟨hw₁, hd⟩ := decode_of_read_zero hw hp
    simp only [List.nil_append, readLoop, hp, hd, if_true, atEof_eq hw₁]
  | cons read reads ih =>
    rw [List.cons_append] at h ⊢
    rcases hp : r.pollReadIntoBuffer (r.codec.bytesNeeded r.buffer.length) read with
      ⟨_ | (e | n), r₁⟩
    · simp [readLoop, hp] at h
    · simp [readLoop, hp] at h
    · obtain ⟨hc, hb⟩ := pollReadIntoBuffer_ok hp
      rcases hd : r₁.decode with ⟨_ | m | e, r₂⟩ <;> simp only [readLoop, hp, hd] at h ⊢
      · have hd' := decode_eq hd
        rw [hc] at hd'
        by_cases hn : n = 0
        · simp [hn] at h
        · simp only [if_neg hn] at h ⊢
          exact ih (ZmqCodec.valid_decode hv hd') (ZmqCodec.turn_of_decode_none hd') h
      · simp at h
      · simp at h

theorem pollNext_atEnd {r : ZmqFramedRead} (hv : r.codec.Valid) {reads : List PollRead}
    (h : (r.pollNext (reads ++ [.eof])).reads = []) :
    (r.pollNext (reads ++ [.eof])).result = atEnd (r.pollNext (reads ++ [.eof])).reader.buffer := by
  rcases hd : r.decode with ⟨_ | m | e, r₁⟩ <;> simp only [pollNext, hd] at h ⊢
  · have hd' := decode_eq hd
    exact readLoop_atEnd (ZmqCodec.valid_decode hv hd') (ZmqCodec.turn_of_decode_none hd') h
  · simp at h
  · simp at h

theorem pollMany_drain {r : ZmqFramedRead} (hv : r.codec.Valid) (n : Nat) (reads : List PollRead)
    (more : Bytes)
    (he : (r.codec.decodeAll (r.buffer ++ ((pollMany n r reads).taken ++ more))).error = none) :
    (∃ used, reads = used ++ (pollMany n r reads).reads) ∧
      (pollMany n r reads).reader.codec.Valid ∧
      ∃ items, r.codec.decodeAll (r.buffer ++ ((pollMany n r reads).taken ++ more)) =
        ((pollMany n r reads).reader.codec.decodeAll
          ((pollMany n r reads).reader.buffer ++ more)).prepend items := by
  induction n generalizing r reads with
  | zero => exact ⟨⟨[], rfl⟩, hv, [], rfl⟩
  | succ n ih =>
    obtain ⟨used, hused, -⟩ := pollNext_used hv reads
    have hp := pollNext_decodesTo hv reads
    rw [DecodesTo] at hp
    have hv' := ZmqCodec.valid_decode hv hp
    rw [pollMany] at he ⊢
    dsimp only at he ⊢
    rw [List.append_assoc, ← List.append_assoc] at he ⊢
    have key : ∃ items, r.codec.decodeAll (r.buffer ++ (r.pollNext reads).taken ++
        ((pollMany n (r.pollNext reads).reader (r.pollNext reads).reads).taken ++ more)) =
        ((r.pollNext reads).reader.codec.decodeAll ((r.pollNext reads).reader.buffer ++
          ((pollMany n (r.pollNext reads).reader (r.pollNext reads).reads).taken ++ more))).prepend
            items := by
      cases hr : replyOf (r.pollNext reads).result with
      | none =>
        rw [hr] at hp
        exact ⟨[], ZmqCodec.decodeAll_congr (ZmqCodec.decode_append_none _ hv hp)⟩
      | item m =>
        rw [hr] at hp
        exact ⟨[m], ZmqCodec.decodeAll_item (ZmqCodec.decode_append _ hv hp (by simp))⟩
      | error e =>
        rw [hr] at hp
        rw [ZmqCodec.decodeAll_error (ZmqCodec.decode_append _ hv hp (by simp))] at he
        cases he
    obtain ⟨items, hitems⟩ := key
    rw [hitems] at he ⊢
    obtain ⟨⟨used', hused'⟩, hv'', items', hi⟩ := ih hv' (r.pollNext reads).reads he
    refine ⟨⟨used ++ used', ?_⟩, hv'', items ++ items', ?_⟩
    · rw [List.append_assoc, ← hused', ← hused]
    · rw [hi, Drained.prepend_prepend]

structure MeetsEnd (options : SocketOptions) (reads : List PollRead) (run : Run) (p : Polled) :
    Prop where
  calls : ∃ n, run = pollMany n (new options) (reads ++ [.eof])
  call : p = run.reader.pollNext run.reads
  before : run.reads ≠ []
  last : p.reads = []

structure Reported (b : Bytes) (result : Poll (Option Item)) : Prop where
  clean : result = .ready none ↔ Complete b
  truncated : ¬ Complete b →
    ∃ message, result = .ready (some (.error (.error (.io ⟨.unexpectedEof, message⟩))))

theorem MeetsEnd.result_eq {options : SocketOptions} {reads : List PollRead} {run : Run}
    {p : Polled} (h : MeetsEnd options reads run p)
    (he : ((ZmqCodec.withOptions options).decodeAll (run.taken ++ p.taken)).error = none) :
    p.result = atEnd ((ZmqCodec.withOptions options).decodeAll (run.taken ++ p.taken)).rest := by
  obtain ⟨⟨n, hrun⟩, hp, hbefore, hlast⟩ := h
  have hdrain := pollMany_drain (r := new options) (ZmqCodec.valid_withOptions options) n
    (reads ++ [PollRead.eof]) p.taken (by rw [← hrun]; exact he)
  rw [← hrun] at hdrain
  obtain ⟨⟨used, hused⟩, hv, items, hd⟩ := hdrain
  -- the end of the stream is the last read there is, so it is still to come
  have hleft : ∃ left, run.reads = left ++ [PollRead.eof] := by
    rcases List.suffix_concat_iff.mp ⟨used, hused.symm⟩ with h | ⟨left, h, -⟩
    · exact absurd h hbefore
    · exact ⟨left, h⟩
  obtain ⟨left, hleft⟩ := hleft
  rw [hleft] at hp
  rw [hp] at hlast
  have hres := pollNext_atEnd hv hlast
  have hdec := pollNext_decodesTo hv (left ++ [PollRead.eof])
  rw [← hp] at hres hdec
  have hnone : replyOf p.result = .none := by
    rw [hres, atEnd]
    split <;> rfl
  rw [DecodesTo, hnone] at hdec
  rw [ZmqCodec.decodeAll_none hdec] at hd
  have hrest : ((ZmqCodec.withOptions options).decodeAll (run.taken ++ p.taken)).rest =
      p.reader.buffer := congrArg Drained.rest hd
  rw [hres, hrest]

theorem MeetsEnd.clean_of_cut {options : SocketOptions} {reads : List PollRead} {run : Run}
    {p : Polled} (h : MeetsEnd options reads run p)
    (he : ((ZmqCodec.withOptions options).decodeAll (run.taken ++ p.taken)).error = none)
    (hcut : Cut (run.taken ++ p.taken)) :
    p.result = .ready none ∧ ¬ Complete (run.taken ++ p.taken) := by
  obtain ⟨hrest, hboth⟩ := rest_eq_nil_iff he
  constructor
  · rw [h.result_eq he, hrest.mpr (.inr hcut)]
    rfl
  · exact fun hc => hboth ⟨hc, hcut⟩

section Streams

omit [Target]

def sends (tail : Bytes) : List PollRead :=
  [PollRead.giving (ZmqGreeting.encode .default ++ tail)]

theorem meetsEnd_sends [Target] {tail : Bytes} {run : Run} {p : Polled}
    (hrun : run = pollMany 1 (new .default) (sends tail ++ [PollRead.eof]))
    (hp : p = run.reader.pollNext run.reads) (hbefore : run.reads.isEmpty = false)
    (hlast : p.reads.isEmpty = true) : MeetsEnd .default (sends tail) run p where
  calls := ⟨1, hrun⟩
  call := hp
  before := by
    intro h
    rw [h] at hbefore
    cases hbefore
  last := List.isEmpty_iff.mp hlast

def PassesForComplete (tail : Bytes) : Prop :=
  let run := pollMany 1 (new .default) (sends tail ++ [PollRead.eof])
  let p := run.reader.pollNext run.reads
  MeetsEnd .default (sends tail) run p ∧
    ((ZmqCodec.withOptions .default).decodeAll (run.taken ++ p.taken)).error = none ∧
    p.result = .ready none ∧ ¬ Complete (run.taken ++ p.taken)

end Streams

end ZmqFramedRead

end ZmqRs.Codec
