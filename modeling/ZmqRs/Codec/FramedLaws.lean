import ZmqRs.Codec.Framed

/-! The reader refines the decoder: one `poll_next` is one call of `decode` on
the buffer followed by the bytes that call was given, so a run of calls returns
what draining the decoder on all the delivered bytes returns. -/

namespace ZmqRs.Codec

open Lib.Incremental

namespace ZmqFramedRead

variable [Target]

theorem pollReadIntoBuffer_pending {r r' : ZmqFramedRead} {min : Nat} {read : PollRead}
    (h : r.pollReadIntoBuffer min read = (.pending, r')) :
    r' = r ∧ r.delivered min read = [] := by
  simp only [pollReadIntoBuffer, List.take_left] at h
  split at h <;> simp_all [delivered, Prod.mk.injEq, eq_comm]

theorem pollReadIntoBuffer_error {r r' : ZmqFramedRead} {min : Nat} {read : PollRead} {e : IoError}
    (h : r.pollReadIntoBuffer min read = (.ready (.error e), r')) :
    r' = r ∧ r.delivered min read = [] := by
  simp only [pollReadIntoBuffer, List.take_left] at h
  split at h <;> simp_all [delivered, Prod.mk.injEq, eq_comm]

@[simp] theorem adapt_codec (r : ZmqFramedRead) (m n : Nat) : (r.adapt m n).codec = r.codec := by
  simp only [adapt]
  split
  · split <;> rfl
  · split <;> rfl

@[simp] theorem adapt_buffer (r : ZmqFramedRead) (m n : Nat) : (r.adapt m n).buffer = r.buffer := by
  simp only [adapt]
  split
  · split <;> rfl
  · split <;> rfl

theorem pollReadIntoBuffer_ok {r r' : ZmqFramedRead} {min n : Nat} {read : PollRead}
    (h : r.pollReadIntoBuffer min read = (.ready (.ok n), r')) :
    r'.codec = r.codec ∧ r'.buffer = r.buffer ++ r.delivered min read := by
  simp only [pollReadIntoBuffer] at h
  split at h
  · rename_i hr
    obtain ⟨-, rfl⟩ := Prod.mk.inj h
    simp [delivered, hr, List.take_length_add_append]
  · simp at h
  · simp at h

def decodeItem : Poll (Option Item) → Option Item
  | .ready (some (.ok m)) => some (.ok m)
  | .ready (some (.error (.error (.io _)))) => none
  | .ready (some (.error e)) => some (.error e)
  | _ => none

def replyOf (p : Poll (Option Item)) : Reply Message (Fault CodecError) :=
  match decodeItem p with
  | none => .none
  | some (.ok m) => .item m
  | some (.error e) => .error e

omit [Target] in
theorem replyOf_error {e : Fault CodecError} (he : e.Reported) :
    replyOf (.ready (some (.error e))) = .error e := by
  rcases e with e | _
  · cases e <;> simp_all [Fault.Reported, replyOf, decodeItem]
  · exact he.elim

theorem decode_eq {r r' : ZmqFramedRead} {reply : Reply Message (Fault CodecError)}
    (h : r.decode = (reply, r')) :
    r.codec.decode r.buffer = (reply, r'.codec, r'.buffer) := by
  rcases hd : r.codec.decode r.buffer with ⟨a, c, b⟩
  simp only [decode, hd, Prod.mk.injEq] at h
  obtain ⟨rfl, rfl⟩ := h
  rfl

theorem decode_of_wait {r : ZmqFramedRead} (hw : r.codec.turn r.buffer = .wait) :
    r.decode = (.none, r) := by
  simp [decode, ZmqCodec.decode_wait hw]

/-- A call, as one call of the decoder on the buffer and the bytes `taken` behind it. -/
def DecodesTo (r : ZmqFramedRead) (taken : Bytes) (result : Poll (Option Item))
    (r' : ZmqFramedRead) : Prop :=
  r.codec.decode (r.buffer ++ taken) = (replyOf result, r'.codec, r'.buffer)

theorem atEof_decodesTo {r : ZmqFramedRead} (hw : r.codec.turn r.buffer = .wait) :
    r.DecodesTo [] r.atEof.1 r.atEof.2 := by
  have hd := ZmqCodec.decode_wait hw
  have hr : r.decode = (.none, r) := by simp [decode, hd]
  rw [DecodesTo, List.append_nil, atEof, hr]
  split
  · exact hd
  · rename_i hb
    simpa [hb, replyOf, decodeItem] using hd

theorem readLoop_decodesTo {r : ZmqFramedRead} (hv : r.codec.Valid)
    (hw : r.codec.turn r.buffer = .wait) (reads : List PollRead) :
    r.DecodesTo (r.readLoop reads).taken (r.readLoop reads).result (r.readLoop reads).reader := by
  have hd := ZmqCodec.decode_wait hw
  induction reads generalizing r with
  | nil => simpa [DecodesTo, readLoop, replyOf, decodeItem] using hd
  | cons read reads ih =>
    rw [readLoop]
    rcases hp : r.pollReadIntoBuffer (r.codec.bytesNeeded r.buffer.length) read with ⟨_ | (e | n), r₁⟩
    · obtain ⟨rfl, ht⟩ := pollReadIntoBuffer_pending hp
      simpa [DecodesTo, ht, replyOf, decodeItem] using hd
    · obtain ⟨rfl, ht⟩ := pollReadIntoBuffer_error hp
      simpa [DecodesTo, ht, replyOf, decodeItem] using hd
    · obtain ⟨hc, hb⟩ := pollReadIntoBuffer_ok hp
      rcases hr : r₁.decode with ⟨_ | m | e, r₂⟩ <;> have hr' := decode_eq hr <;> rw [hc, hb] at hr'
      · -- the bytes so far gave nothing, so the loop goes on from where the decoder stopped
        have hw₂ := ZmqCodec.turn_of_decode_none hr'
        have hv₂ := ZmqCodec.valid_decode hv hr'
        have hm := fun more => ZmqCodec.decode_append_none more hv hr'
        simp only [hr]
        split
        · have := atEof_decodesTo hw₂
          rw [DecodesTo, List.append_nil] at this
          rw [DecodesTo]
          refine Eq.trans ?_ this
          simpa using hm []
        · have := ih hv₂ hw₂ (ZmqCodec.decode_wait hw₂)
          rw [DecodesTo] at this ⊢
          rw [← this, ← List.append_assoc]
          exact hm _
      · simpa [hr, DecodesTo, replyOf, decodeItem] using hr'
      · simpa [hr, DecodesTo, replyOf_error (ZmqCodec.decode_error hv hr')] using hr'

theorem pollNext_decodesTo {r : ZmqFramedRead} (hv : r.codec.Valid) (reads : List PollRead) :
    r.DecodesTo (r.pollNext reads).taken (r.pollNext reads).result (r.pollNext reads).reader := by
  rcases hr : r.decode with ⟨_ | m | e, r₁⟩ <;> have hr' := decode_eq hr
  · have hw := ZmqCodec.turn_of_decode_none hr'
    have hv₁ := ZmqCodec.valid_decode hv hr'
    have := readLoop_decodesTo hv₁ hw reads
    rw [DecodesTo] at this ⊢
    simp only [pollNext, hr]
    rw [← this]
    exact ZmqCodec.decode_append_none _ hv hr'
  · simpa [DecodesTo, pollNext, hr, replyOf, decodeItem] using hr'
  · simpa [DecodesTo, pollNext, hr, replyOf_error (ZmqCodec.decode_error hv hr')] using hr'

def upToError : List Item → List Item
  | [] => []
  | .ok m :: items => .ok m :: upToError items
  | .error e :: _ => [.error e]

def items (run : Run) : List Item := run.results.filterMap decodeItem

/-- The run has met an error of the codec, or its last call returned no item. -/
def Settled (run : Run) : Prop :=
  (∃ e, .error e ∈ items run) ∨ ∃ last, run.results.getLast? = some last ∧ decodeItem last = none

theorem settled_cons {p : Polled} {run : Run}
    (h : Settled ⟨p.result :: run.results, run.reader, run.reads, p.taken ++ run.taken⟩) :
    run.results = [] ∨ (∃ e, decodeItem p.result = some (.error e)) ∨ Settled run := by
  rcases h with ⟨e, he⟩ | ⟨last, hl, hn⟩
  · rw [items, List.filterMap_cons] at he
    cases hi : decodeItem p.result with
    | none =>
      rw [hi] at he
      exact .inr (.inr (.inl ⟨e, he⟩))
    | some i =>
      simp only [hi, List.mem_cons] at he
      rcases he with rfl | he
      · exact .inr (.inl ⟨e, rfl⟩)
      · exact .inr (.inr (.inl ⟨e, he⟩))
  · cases hr : run.results with
    | nil => exact .inl rfl
    | cons a l =>
      rw [hr, List.getLast?_cons_cons] at hl
      exact .inr (.inr (.inr ⟨last, by rw [hr]; exact hl, hn⟩))

theorem pollMany_results_nil {n : Nat} {r : ZmqFramedRead} {reads : List PollRead}
    (h : (pollMany n r reads).results = []) : n = 0 := by
  cases n with
  | zero => rfl
  | succ n => simp [pollMany] at h

theorem pollMany_results {r : ZmqFramedRead} (hv : r.codec.Valid) (n : Nat)
    (reads : List PollRead) :
    ∃ rest, (r.codec.decodeAll (r.buffer ++ (pollMany n r reads).taken)).results =
        upToError (items (pollMany n r reads)) ++ rest ∧
      (Settled (pollMany n r reads) → rest = []) := by
  induction n generalizing r reads with
  | zero => exact ⟨_, rfl, by simp [Settled, items, pollMany]⟩
  | succ n ih =>
    have hp := pollNext_decodesTo hv reads
    rw [pollMany]
    generalize r.pollNext reads = p at hp ⊢
    obtain ⟨rest, hr, hs⟩ := ih (ZmqCodec.valid_decode hv hp) p.reads
    rw [DecodesTo, replyOf] at hp
    dsimp only
    rw [← List.append_assoc]
    rcases hi : decodeItem p.result with _ | e | m <;> rw [hi] at hp
    · rw [ZmqCodec.decodeAll_congr (ZmqCodec.decode_append_none _ hv hp), hr]
      refine ⟨rest, by simp [items, hi], ?_⟩
      intro hset
      rcases settled_cons hset with h | ⟨e, he⟩ | h
      · -- this was the last call, and the decoder was left waiting
        obtain rfl := pollMany_results_nil h
        have hw := ZmqCodec.decodeAll_none (ZmqCodec.decode_wait (ZmqCodec.turn_of_decode_none hp))
        simpa [pollMany, hw, Drained.results, items, upToError] using hr.symm
      · simp [hi] at he
      · exact hs h
    · rw [ZmqCodec.decodeAll_error (ZmqCodec.decode_append _ hv hp (by simp))]
      exact ⟨[], by simp [items, hi, upToError, Drained.results], fun _ => rfl⟩
    · rw [ZmqCodec.decodeAll_item (ZmqCodec.decode_append _ hv hp (by simp)),
        Drained.results_prepend, hr]
      refine ⟨rest, by simp [items, hi, upToError], ?_⟩
      intro hset
      rcases settled_cons hset with h | ⟨e, he⟩ | h
      · obtain rfl := pollMany_results_nil h
        rcases hset with ⟨e, he⟩ | ⟨last, hl, hn⟩
        · simp [items, pollMany, hi] at he
        · simp only [pollMany, List.getLast?_singleton, Option.some.injEq] at hl
          rw [← hl, hi] at hn
          simp at hn
      · simp [hi] at he
      · exact hs h

theorem readLoop_reads (r : ZmqFramedRead) (reads : List PollRead) :
    (r.readLoop reads).reads.length < reads.length ∨
      (r.readLoop reads).reads = [] ∧ (r.readLoop reads).result = .pending := by
  induction reads generalizing r with
  | nil => exact .inr ⟨rfl, rfl⟩
  | cons read reads ih =>
    rw [readLoop]
    dsimp only
    split
    · exact .inl (by simp)
    · exact .inl (by simp)
    · split
      · exact .inl (by simp)
      · exact .inl (by simp)
      · rename_i r₂ _
        split
        · exact .inl (by simp)
        · cases ih r₂ with
          | inl h =>
            exact .inl (by simp; omega)
          | inr h =>
            exact .inr h

/-- All reads have been made and the last call is waiting for another, unless
the codec has failed. -/
def Exhausted (run : Run) : Prop :=
  (∃ e, .error e ∈ items run) ∨ run.reads = [] ∧ run.results.getLast? = some .pending

theorem Exhausted.cons {r : ZmqFramedRead} {reads : List PollRead} {n : Nat}
    (h : Exhausted (pollMany n (r.pollNext reads).reader (r.pollNext reads).reads)) :
    Exhausted (pollMany (n + 1) r reads) := by
  rcases h with ⟨e, he⟩ | ⟨hr, hl⟩
  · refine .inl ⟨e, ?_⟩
    rw [items, pollMany, List.filterMap_cons]
    split
    · exact he
    · exact List.mem_cons_of_mem _ he
  · refine .inr ⟨hr, ?_⟩
    rw [pollMany]
    dsimp only
    cases hres : (pollMany n (r.pollNext reads).reader (r.pollNext reads).reads).results with
    | nil => simp [hres] at hl
    | cons a l => rw [List.getLast?_cons_cons, ← hres, hl]

theorem exists_exhausted {r : ZmqFramedRead} (hv : r.codec.Valid) (reads : List PollRead) :
    ∃ n, Exhausted (pollMany n r reads) := by
  have hp := ZmqCodec.valid_decode hv (pollNext_decodesTo hv reads)
  rcases hr : r.decode with ⟨_ | m | e, r₁⟩ <;> have hr' := decode_eq hr
  · have hn : r.pollNext reads = r₁.readLoop reads := by simp [pollNext, hr]
    rcases readLoop_reads r₁ reads with hl | ⟨hnil, hres⟩
    · rw [hn] at hp
      obtain ⟨n, h⟩ := exists_exhausted hp (r₁.readLoop reads).reads
      exact ⟨n + 1, .cons (by rwa [hn])⟩
    · exact ⟨1, .inr (by simp [pollMany, hn, hnil, hres])⟩
  · have hn : r.pollNext reads = ⟨.ready (some (.ok m)), r₁, reads, []⟩ := by simp [pollNext, hr]
    have hlt := ZmqCodec.rank_decode hr'
    rw [hn] at hp
    obtain ⟨n, h⟩ := exists_exhausted hp reads
    exact ⟨n + 1, .cons (by rwa [hn])⟩
  · refine ⟨1, .inl ⟨e, ?_⟩⟩
    have he := replyOf_error (ZmqCodec.decode_error hv hr')
    have hi : decodeItem (.ready (some (.error e))) = some (.error e) := by
      rw [replyOf] at he
      split at he <;> simp_all
    simp [items, pollMany, pollNext, hr, hi]
termination_by (reads.length, r.codec.rank r.buffer)

def offered (r : ZmqFramedRead) : List PollRead → List (PollRead × Nat)
  | [] => []
  | read :: reads =>
    let minReadSize := r.codec.bytesNeeded r.buffer.length
    (read, r.readSize minReadSize) ::
      match r.pollReadIntoBuffer minReadSize read with
      | (.ready (.ok n), r) =>
        match r.decode with
        | (.none, r) => if n = 0 then [] else offered r reads
        | _ => []
      | _ => []

def pollOffered (r : ZmqFramedRead) (reads : List PollRead) : List (PollRead × Nat) :=
  match r.decode with
  | (.none, r) => r.offered reads
  | _ => []

def manyOffered : Nat → ZmqFramedRead → List PollRead → List (PollRead × Nat)
  | 0, _, _ => []
  | n + 1, r, reads =>
    r.pollOffered reads ++ manyOffered n (r.pollNext reads).reader (r.pollNext reads).reads

omit [Target] in
def given (x : PollRead × Nat) : Bytes :=
  match x.1 x.2 with
  | .ready n slice => slice.toList.take n
  | _ => []

theorem delivered_eq_given (r : ZmqFramedRead) (min : Nat) (read : PollRead) :
    r.delivered min read = given (read, r.readSize min) := by
  simp only [delivered, given]
  cases read (r.readSize min) <;> rfl

theorem readLoop_taken (r : ZmqFramedRead) (reads : List PollRead) :
    reads = (r.offered reads).map Prod.fst ++ (r.readLoop reads).reads ∧
      (r.readLoop reads).taken = (r.offered reads).flatMap given := by
  induction reads generalizing r with
  | nil => exact ⟨rfl, rfl⟩
  | cons read reads ih =>
    rw [readLoop, offered]
    dsimp only
    rw [delivered_eq_given]
    rcases r.pollReadIntoBuffer (r.codec.bytesNeeded r.buffer.length) read with ⟨_ | (e | n), r₁⟩
    · simp
    · simp
    · rcases hd : r₁.decode with ⟨_ | m | e, r₂⟩
      · by_cases hn : n = 0
        · simp [hd, hn]
        · obtain ⟨hreads, htaken⟩ := ih r₂
          simp only [hd, if_neg hn]
          exact ⟨congrArg (read :: ·) hreads, by rw [htaken, List.flatMap_cons]⟩
      · simp [hd]
      · simp [hd]

theorem pollNext_taken (r : ZmqFramedRead) (reads : List PollRead) :
    reads = (r.pollOffered reads).map Prod.fst ++ (r.pollNext reads).reads ∧
      (r.pollNext reads).taken = (r.pollOffered reads).flatMap given := by
  rcases hd : r.decode with ⟨_ | m | e, r₁⟩ <;> simp only [pollNext, pollOffered, hd]
  · exact r₁.readLoop_taken reads
  · exact ⟨rfl, rfl⟩
  · exact ⟨rfl, rfl⟩

theorem pollMany_taken (n : Nat) (r : ZmqFramedRead) (reads : List PollRead) :
    reads = (manyOffered n r reads).map Prod.fst ++ (pollMany n r reads).reads ∧
      (pollMany n r reads).taken = (manyOffered n r reads).flatMap given := by
  induction n generalizing r reads with
  | zero => exact ⟨rfl, rfl⟩
  | succ n ih =>
    obtain ⟨hreads, htaken⟩ := r.pollNext_taken reads
    obtain ⟨hreads', htaken'⟩ := ih (r.pollNext reads).reader (r.pollNext reads).reads
    rw [pollMany, manyOffered, List.map_append, List.flatMap_append, ← htaken, ← htaken']
    refine ⟨?_, rfl⟩
    rw [List.append_assoc]
    exact hreads.trans (congrArg _ hreads')

/-- Whatever the transport does, the items a fresh reader returns are those of
the decoder run on the delivered bytes: a prefix at any time, all of them when a
call has returned without one, and no byte stays unread if the calls go on.  A
read that suspends or fails leaves no trace. -/
theorem pollMany_decodes_delivered (options : SocketOptions) (reads : List PollRead) :
    (∀ n, upToError (items (pollMany n (new options) reads)) <+:
        ((ZmqCodec.withOptions options).decodeAll
          (pollMany n (new options) reads).taken).results ∧
      (Settled (pollMany n (new options) reads) →
        upToError (items (pollMany n (new options) reads)) =
          ((ZmqCodec.withOptions options).decodeAll
            (pollMany n (new options) reads).taken).results)) ∧
    (∃ n, Exhausted (pollMany n (new options) reads)) ∧
    (∀ (r r' : ZmqFramedRead) (min : Nat) (read : PollRead),
      (r.pollReadIntoBuffer min read = (.pending, r') ∨
        ∃ e, r.pollReadIntoBuffer min read = (.ready (.error e), r')) →
      r'.buffer = r.buffer ∧ r'.readChunkSize = r.readChunkSize ∧
        r'.shortReads = r.shortReads ∧ r'.codec = r.codec) := by
  have hv : (new options).codec.Valid := ZmqCodec.valid_withOptions options
  refine ⟨?_, exists_exhausted hv reads, ?_⟩
  · intro n
    obtain ⟨rest, hr, hs⟩ := pollMany_results hv n reads
    refine ⟨⟨rest, hr.symm⟩, ?_⟩
    intro hset
    rw [hs hset, List.append_nil] at hr
    exact hr.symm
  · rintro r r' min read (h | ⟨e, h⟩)
    · obtain ⟨rfl, -⟩ := pollReadIntoBuffer_pending h
      exact ⟨rfl, rfl, rfl, rfl⟩
    · obtain ⟨rfl, -⟩ := pollReadIntoBuffer_error h
      exact ⟨rfl, rfl, rfl, rfl⟩

end ZmqFramedRead

end ZmqRs.Codec
