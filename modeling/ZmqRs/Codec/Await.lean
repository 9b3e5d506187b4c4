import ZmqRs.Codec.FramedLaws

/-! Waiting for the next item: `next().await` on a reader, and what a connection that works
and may come to its end lets it return. -/

namespace ZmqRs.Codec

open Lib.Incremental

def PollRead.eof : PollRead := fun len => .ready 0 ⟨List.replicate len 0, List.length_replicate⟩

def PollRead.suspend : PollRead := fun len => .pending ⟨List.replicate len 0, List.length_replicate⟩

/-- A read of a connection that works: it suspends, or gives at least one byte. -/
def PollRead.Healthy (read : PollRead) : Prop :=
  ∀ len, 0 < len → match read len with
    | .pending _ => True
    | .error _ _ => False
    | .ready n _ => 0 < n.val

variable [Target]

namespace ZmqFramedRead

def Polled.after (p : Polled) (taken : Bytes) : Polled := { p with taken := taken ++ p.taken }

def awaitLoop : Nat → ZmqFramedRead → List PollRead → Polled
  | 0, r, reads => r.pollNext reads
  | n + 1, r, reads =>
    let p := r.pollNext reads
    match p.result with
    | .ready _ => p
    | .pending =>
      let rest := awaitLoop n p.reader p.reads
      { rest with taken := p.taken ++ rest.taken }

/-- `next().await`: polls until one is ready.  It stays pending if the transport has no
more to say; every poll before that makes a read. -/
def awaitNext (r : ZmqFramedRead) (reads : List PollRead) : Polled :=
  awaitLoop reads.length r reads

theorem awaitLoop_decodesTo {r : ZmqFramedRead} (hv : r.codec.Valid) (n : Nat)
    (reads : List PollRead) :
    r.DecodesTo (awaitLoop n r reads).taken (awaitLoop n r reads).result
      (awaitLoop n r reads).reader := by
  induction n generalizing r reads with
  | zero => exact pollNext_decodesTo hv reads
  | succ n ih =>
    have hp := pollNext_decodesTo hv reads
    rw [awaitLoop]
    split
    · exact hp
    · rename_i hpend
      rw [DecodesTo, hpend] at hp
      have hrest := ih (ZmqCodec.valid_decode hv hp) (r.pollNext reads).reads
      rw [DecodesTo] at hrest ⊢
      rw [← hrest, ← List.append_assoc]
      exact ZmqCodec.decode_append_none _ hv hp

theorem awaitNext_decodesTo {r : ZmqFramedRead} (hv : r.codec.Valid) (reads : List PollRead) :
    r.DecodesTo (r.awaitNext reads).taken (r.awaitNext reads).result (r.awaitNext reads).reader :=
  awaitLoop_decodesTo hv reads.length reads

def endOfStream : Poll (Option Item) → Bool
  | .ready none => true
  | .ready (some (.error (.error (.io _)))) => true
  | _ => false

omit [Target] in
theorem endOfStream_ready {item : Option Item} :
    endOfStream (.ready item) = true ↔ replyOf (.ready item) = .none := by
  rcases item with _ | (e | _) | m
  · exact iff_of_true rfl rfl
  · cases e <;> simp [endOfStream, replyOf, decodeItem]
  · simp [endOfStream, replyOf, decodeItem]
  · simp [endOfStream, replyOf, decodeItem]

/-- What the reads of a call come to.  Either the connection worked throughout, and the
call is pending or has an item; or it worked up to the last read, which ended the call. -/
inductive Used (result : Poll (Option Item)) : List PollRead → Prop
  | worked {used : List PollRead} : .eof ∉ used → result = .pending ∨ replyOf result ≠ .none →
    Used result used
  | ended {used : List PollRead} {read : PollRead} : .eof ∉ used → ¬ read.Healthy →
    endOfStream result = true → Used result (used ++ [read])

theorem readSize_pos {r : ZmqFramedRead} (hw : r.codec.turn r.buffer = .wait) :
    0 < r.readSize (r.codec.bytesNeeded r.buffer.length) := by
  have hlt := ZmqCodec.length_lt_of_wait hw
  have hle := r.options.initial_le_max
  have hpos := r.options.initial_pos
  simp only [readSize, ZmqCodec.bytesNeeded]
  omega

theorem pollReadIntoBuffer_read {r r' : ZmqFramedRead} {min n : Nat} {read : PollRead}
    (h : r.pollReadIntoBuffer min read = (.ready (.ok n), r')) :
    ∃ k slice, read (r.readSize min) = .ready k slice ∧ k.val = n := by
  simp only [pollReadIntoBuffer] at h
  split at h
  · rename_i k slice hr
    cases h
    exact ⟨k, slice, hr, rfl⟩
  · cases h
  · cases h

theorem pollReadIntoBuffer_eof (r : ZmqFramedRead) (min : Nat) :
    ∃ r', r.pollReadIntoBuffer min .eof = (.ready (.ok 0), r') :=
  ⟨_, rfl⟩

theorem decode_of_read_zero {r r' : ZmqFramedRead} {min : Nat} {read : PollRead}
    (hw : r.codec.turn r.buffer = .wait)
    (h : r.pollReadIntoBuffer min read = (.ready (.ok 0), r')) :
    r'.codec.turn r'.buffer = .wait ∧ r'.decode = (.none, r') := by
  obtain ⟨hc, hb⟩ := pollReadIntoBuffer_ok h
  obtain ⟨k, slice, hr, hk⟩ := pollReadIntoBuffer_read h
  have hb' : r'.buffer = r.buffer := by
    rw [hb]
    simp [delivered, hr, hk]
  rw [← hc, ← hb'] at hw
  exact ⟨hw, decode_of_wait hw⟩

theorem atEof_ended {r : ZmqFramedRead} (hw : r.codec.turn r.buffer = .wait) :
    endOfStream r.atEof.1 = true := by
  have hd := atEof_decodesTo hw
  rw [DecodesTo, List.append_nil, ZmqCodec.decode_wait hw] at hd
  have hready : ∃ item, r.atEof.1 = .ready item := by
    simp only [atEof]
    split
    · exact ⟨_, rfl⟩
    · split
      · exact ⟨_, rfl⟩
      · exact ⟨_, rfl⟩
      · split <;> exact ⟨_, rfl⟩
  obtain ⟨item, hi⟩ := hready
  rw [hi] at hd
  rw [hi]
  exact endOfStream_ready.mpr (Prod.mk.inj hd).1.symm

omit [Target] in
theorem Used.cons {result : Poll (Option Item)} {read : PollRead} {used : List PollRead}
    (hr : read ≠ .eof) (h : Used result used) : Used result (read :: used) := by
  have hmem : ∀ {l : List PollRead}, .eof ∉ l → .eof ∉ read :: l := by
    intro l hl hm
    rcases List.mem_cons.mp hm with h | h
    · exact hr h.symm
    · exact hl h
  cases h with
  | worked hu hres => exact .worked (hmem hu) hres
  | ended hu hread hend => exact .ended (hmem hu) hread hend

theorem readLoop_used {r : ZmqFramedRead} (hv : r.codec.Valid)
    (hw : r.codec.turn r.buffer = .wait) (reads : List PollRead) :
    ∃ used, reads = used ++ (r.readLoop reads).reads ∧ Used (r.readLoop reads).result used := by
  induction reads generalizing r with
  | nil => exact ⟨[], rfl, .worked (by simp) (.inl rfl)⟩
  | cons read reads ih =>
    have hpos := readSize_pos hw
    have heof := r.pollReadIntoBuffer_eof (r.codec.bytesNeeded r.buffer.length)
    rw [readLoop]
    rcases hp : r.pollReadIntoBuffer (r.codec.bytesNeeded r.buffer.length) read with ⟨_ | (e | n), r₁⟩
    · have hne : read ≠ .eof := by
        rintro rfl
        simp [hp] at heof
      exact ⟨[read], rfl, .cons hne (.worked (by simp) (.inl rfl))⟩
    · refine ⟨[read], rfl, @Used.ended _ [] _ (by simp) ?_ rfl⟩
      intro hh
      have := hh _ hpos
      simp only [pollReadIntoBuffer] at hp
      grind
    · obtain ⟨k, slice, hr, hk⟩ := pollReadIntoBuffer_read hp
      by_cases hn : n = 0
      · subst hn
        obtain ⟨hw₁, hd⟩ := decode_of_read_zero hw hp
        simp only [hd, if_true]
        refine ⟨[read], rfl, @Used.ended _ [] _ (by simp) ?_ (atEof_ended hw₁)⟩
        intro hh
        have := hh _ hpos
        rw [hr] at this
        exact Nat.lt_irrefl 0 (hk ▸ this)
      · have hne : read ≠ .eof := by
          rintro rfl
          obtain ⟨r', hr'⟩ := heof
          cases hp.symm.trans hr'
          exact hn rfl
        obtain ⟨hc, hb⟩ := pollReadIntoBuffer_ok hp
        rcases hd : r₁.decode with ⟨_ | m | e, r₂⟩ <;> have hd' := decode_eq hd <;> rw [hc] at hd'
        · obtain ⟨used, hused, hu⟩ := ih (ZmqCodec.valid_decode hv hd')
            (ZmqCodec.turn_of_decode_none hd')
          simp only [hd, if_neg hn]
          exact ⟨read :: used, by rw [List.cons_append, ← hused], hu.cons hne⟩
        · simp only [hd]
          exact ⟨[read], rfl, .cons hne (.worked (by simp) (.inr (by simp [replyOf, decodeItem])))⟩
        · simp only [hd]
          refine ⟨[read], rfl, .cons hne (.worked (by simp) (.inr ?_))⟩
          simp [replyOf_error (ZmqCodec.decode_error hv hd')]

theorem pollNext_used {r : ZmqFramedRead} (hv : r.codec.Valid) (reads : List PollRead) :
    ∃ used, reads = used ++ (r.pollNext reads).reads ∧ Used (r.pollNext reads).result used := by
  rcases hr : r.decode with ⟨_ | m | e, r₁⟩ <;> have hr' := decode_eq hr <;> simp only [pollNext, hr]
  · exact readLoop_used (ZmqCodec.valid_decode hv hr') (ZmqCodec.turn_of_decode_none hr') reads
  · exact ⟨[], rfl, .worked (by simp) (.inr (by simp [replyOf, decodeItem]))⟩
  · refine ⟨[], rfl, .worked (by simp) (.inr ?_)⟩
    simp [replyOf_error (ZmqCodec.decode_error hv hr')]

theorem pollNext_pending {r : ZmqFramedRead} {reads : List PollRead}
    (h : (r.pollNext reads).result = .pending) :
    (r.pollNext reads).reads.length < reads.length ∨ (r.pollNext reads).reads = [] := by
  revert h
  rcases hr : r.decode with ⟨_ | m | e, r₁⟩ <;> simp only [pollNext, hr]
  · intro _
    exact (r₁.readLoop_reads reads).imp id And.left
  · intro h
    cases h
  · intro h
    cases h

omit [Target] in
theorem Used.append {result : Poll (Option Item)} {used used' : List PollRead}
    (hu : .eof ∉ used) (h : Used result used') : Used result (used ++ used') := by
  induction used with
  | nil => exact h
  | cons read used ih =>
    rw [List.mem_cons, not_or] at hu
    exact (ih hu.2).cons (Ne.symm hu.1)

theorem awaitLoop_used {r : ZmqFramedRead} (hv : r.codec.Valid) {n : Nat} {reads : List PollRead}
    (hn : reads.length ≤ n) :
    ∃ used, reads = used ++ (awaitLoop n r reads).reads ∧
      Used (awaitLoop n r reads).result used ∧
      ((awaitLoop n r reads).result = .pending → (awaitLoop n r reads).reads = []) := by
  induction n generalizing r reads with
  | zero =>
    obtain rfl := List.eq_nil_of_length_eq_zero (Nat.le_zero.mp hn)
    obtain ⟨used, hused, hu⟩ := pollNext_used hv []
    refine ⟨used, hused, hu, fun _ => ?_⟩
    exact (List.append_eq_nil_iff.mp hused.symm).2
  | succ n ih =>
    obtain ⟨used, hused, hu⟩ := pollNext_used hv reads
    rw [awaitLoop]
    dsimp only
    split
    · rename_i item hres
      refine ⟨used, hused, hu, ?_⟩
      simp [hres]
    · rename_i hres
      have hd := pollNext_decodesTo hv reads
      have hlen : (r.pollNext reads).reads.length ≤ n := by
        rcases pollNext_pending hres with h | h
        · omega
        · simp [h]
      obtain ⟨used', hused', hu', hp⟩ := ih (ZmqCodec.valid_decode hv hd) hlen
      rw [hres] at hu
      refine ⟨used ++ used', by rw [List.append_assoc, ← hused', ← hused], ?_, hp⟩
      cases hu with
      | worked hu _ => exact .append hu hu'
      | ended _ _ hend => cases hend

theorem awaitLoop_of_ready {r : ZmqFramedRead} {reads : List PollRead} {item : Option Item}
    (h : (r.pollNext reads).result = .ready item) (n : Nat) :
    awaitLoop n r reads = r.pollNext reads := by
  cases n with
  | zero => rfl
  | succ n => rw [awaitLoop, h]

theorem awaitLoop_of_pending {r : ZmqFramedRead} {reads : List PollRead}
    (h : (r.pollNext reads).result = .pending) (n : Nat) :
    awaitLoop (n + 1) r reads =
      (awaitLoop n (r.pollNext reads).reader (r.pollNext reads).reads).after
        (r.pollNext reads).taken := by
  rw [awaitLoop, h]
  rfl

theorem pollNext_nil {r : ZmqFramedRead} (h : (r.pollNext []).result = .pending) :
    (r.pollNext []).reader.pollNext [] = { r.pollNext [] with taken := [] } := by
  rcases hr : r.decode with ⟨_ | m | e, r₁⟩ <;> simp only [pollNext, hr] at h ⊢
  · have hw := ZmqCodec.decode_wait (ZmqCodec.turn_of_decode_none (decode_eq hr))
    simp [readLoop, decode, hw]
  · cases h
  · cases h

theorem awaitLoop_succ {n : Nat} {r : ZmqFramedRead} {reads : List PollRead}
    (hn : reads.length ≤ n) : awaitLoop (n + 1) r reads = awaitLoop n r reads := by
  induction n generalizing r reads with
  | zero =>
    obtain rfl := List.eq_nil_of_length_eq_zero (Nat.le_zero.mp hn)
    cases hp : (r.pollNext []).result with
    | ready item => rw [awaitLoop_of_ready hp, awaitLoop_of_ready hp]
    | pending =>
      have hnil : (r.pollNext []).reads = [] := by simpa using pollNext_pending hp
      rw [awaitLoop_of_pending hp, hnil, awaitLoop, pollNext_nil hp, awaitLoop, Polled.after,
        List.append_nil]
  | succ n ih =>
    cases hp : (r.pollNext reads).result with
    | ready item => rw [awaitLoop_of_ready hp, awaitLoop_of_ready hp]
    | pending =>
      have hlen : (r.pollNext reads).reads.length ≤ n := by
        rcases pollNext_pending hp with h | h
        · omega
        · simp [h]
      rw [awaitLoop_of_pending hp, awaitLoop_of_pending hp, ih hlen]

theorem awaitLoop_eq {n : Nat} {r : ZmqFramedRead} {reads : List PollRead}
    (hn : reads.length ≤ n) : awaitLoop n r reads = r.awaitNext reads := by
  induction n, hn using Nat.le_induction with
  | base => rfl
  | succ n hn ih => rw [awaitLoop_succ hn, ih]

theorem awaitNext_of_ready {r : ZmqFramedRead} {reads : List PollRead} {item : Option Item}
    (h : (r.pollNext reads).result = .ready item) : r.awaitNext reads = r.pollNext reads :=
  awaitLoop_of_ready h reads.length

theorem awaitNext_of_pending {r : ZmqFramedRead} {reads : List PollRead}
    (h : (r.pollNext reads).result = .pending) :
    r.awaitNext reads =
      ((r.pollNext reads).reader.awaitNext (r.pollNext reads).reads).after
        (r.pollNext reads).taken := by
  have hlen : (r.pollNext reads).reads.length ≤ reads.length := by
    rcases pollNext_pending h with h | h
    · exact h.le
    · simp [h]
  rw [awaitNext, ← awaitLoop_succ (le_refl reads.length), awaitLoop_of_pending h, awaitLoop_eq hlen]

theorem readLoop_exact (r : ZmqFramedRead) (reads : List PollRead) :
    ∃ used, ∀ more, r.readLoop (used ++ more) = { r.readLoop reads with reads := more } := by
  induction reads generalizing r with
  | nil =>
    refine ⟨[.suspend], fun more => ?_⟩
    simp [readLoop, pollReadIntoBuffer, PollRead.suspend, delivered]
  | cons read reads ih =>
    rcases hp : r.pollReadIntoBuffer (r.codec.bytesNeeded r.buffer.length) read with
      ⟨_ | (e | n), r₁⟩
    · exact ⟨[read], fun more => by simp [readLoop, hp]⟩
    · exact ⟨[read], fun more => by simp [readLoop, hp]⟩
    · rcases hd : r₁.decode with ⟨_ | m | e, r₂⟩
      · by_cases hn : n = 0
        · exact ⟨[read], fun more => by simp [readLoop, hp, hd, hn]⟩
        · obtain ⟨used, hu⟩ := ih r₂
          exact ⟨read :: used, fun more => by simp [readLoop, hp, hd, hn, hu]⟩
      · exact ⟨[read], fun more => by simp [readLoop, hp, hd]⟩
      · exact ⟨[read], fun more => by simp [readLoop, hp, hd]⟩

theorem pollNext_exact (r : ZmqFramedRead) (reads : List PollRead) :
    ∃ used, ∀ more, r.pollNext (used ++ more) = { r.pollNext reads with reads := more } := by
  rcases hr : r.decode with ⟨_ | m | e, r₁⟩
  · obtain ⟨used, hu⟩ := r₁.readLoop_exact reads
    exact ⟨used, fun more => by simp [pollNext, hr, hu]⟩
  · exact ⟨[], fun more => by simp [pollNext, hr]⟩
  · exact ⟨[], fun more => by simp [pollNext, hr]⟩

omit [Target] in
theorem reads_of_notMem {used rest reads : List PollRead} {k : Nat} (hu : .eof ∉ used)
    (h : reads ++ List.replicate k .eof = used ++ rest) :
    ∃ left, reads = used ++ left ∧ rest = left ++ List.replicate k .eof := by
  rcases List.append_eq_append_iff.mp h with ⟨l, rfl, hl⟩ | ⟨left, rfl, rfl⟩
  · cases l with
    | nil => exact ⟨[], by simp, by simpa using hl.symm⟩
    | cons read l =>
      have hmem : read ∈ List.replicate k PollRead.eof := by
        rw [hl]
        simp
      rw [List.eq_of_mem_replicate hmem] at hu
      simp at hu
  · exact ⟨left, rfl, rfl⟩

theorem awaitNext_ends {r : ZmqFramedRead} (hv : r.codec.Valid) {reads : List PollRead} {k : Nat}
    {p : Polled} (hp : r.awaitNext (reads ++ List.replicate (k + 1) .eof) = p) :
    (∃ used left, reads = used ++ left ∧ p.reads = left ++ List.replicate (k + 1) .eof ∧
      (replyOf p.result ≠ .none ∨
        endOfStream p.result = true ∧ ∃ read ∈ reads, ¬ read.Healthy)) ∨
    p.reads = List.replicate k .eof ∧ endOfStream p.result = true := by
  obtain ⟨used, hused, hu, hpend⟩ :=
    awaitLoop_used hv (le_refl (reads ++ List.replicate (k + 1) PollRead.eof).length)
  rw [awaitNext] at hp
  rw [hp] at hused hu hpend
  cases hu with
  | worked hu hres =>
    obtain ⟨left, hl, hr⟩ := reads_of_notMem hu hused
    refine .inl ⟨used, left, hl, hr, .inl ?_⟩
    rcases hres with hres | hres
    · have := hpend hres
      simp [hr] at this
    · exact hres
  | @ended used read hu hread hend =>
    rw [List.append_assoc] at hused
    obtain ⟨left, hl, hr⟩ := reads_of_notMem hu hused
    cases left with
    | nil =>
      rw [List.nil_append, List.replicate_succ, List.singleton_append] at hr
      exact .inr ⟨(List.cons.inj hr).2, hend⟩
    | cons read' left =>
      rw [List.singleton_append, List.cons_append] at hr
      obtain ⟨rfl, hrest⟩ := List.cons.inj hr
      exact .inl ⟨used ++ [read], left, by simp [hl], hrest, .inr ⟨hend, read, by simp [hl], hread⟩⟩

omit [Target] in
theorem eq_of_replyOf_item {p : Poll (Option Item)} {m : Message} (h : replyOf p = .item m) :
    p = .ready (some (.ok m)) := by
  rcases p with _ | (_ | (e | _) | m')
  · cases h
  · cases h
  · cases e <;> cases h
  · cases h
  · cases h
    rfl

def Tracks (c₀ : ZmqCodec) (taken : Bytes) (r : ZmqFramedRead) : Prop :=
  ∀ more, c₀.decode (taken ++ more) = r.codec.decode (r.buffer ++ more)

theorem Tracks.pending {c₀ : ZmqCodec} {taken : Bytes} {r : ZmqFramedRead}
    (ht : Tracks c₀ taken r) (hv : r.codec.Valid) {reads : List PollRead}
    (h : (r.pollNext reads).result = .pending) :
    Tracks c₀ (taken ++ (r.pollNext reads).taken) (r.pollNext reads).reader := by
  have hp := pollNext_decodesTo hv reads
  rw [DecodesTo, h] at hp
  intro more
  rw [List.append_assoc, ht, ← List.append_assoc]
  exact ZmqCodec.decode_append_none more hv hp

theorem Tracks.poll {c₀ c : ZmqCodec} {taken v rest : Bytes} {r : ZmqFramedRead} {m : Message}
    (ht : Tracks c₀ taken r) (hv : r.codec.Valid) (reads : List PollRead)
    (hd : c₀.decode (taken ++ (r.pollNext reads).taken ++ v) = (.item m, c, rest)) :
    (r.pollNext reads).result = .pending ∨
      (∃ item, (r.pollNext reads).result = .ready item ∧ endOfStream (.ready item) = true) ∨
      (r.pollNext reads).result = .ready (some (.ok m)) ∧ (r.pollNext reads).reader.codec = c ∧
        (r.pollNext reads).reader.buffer ++ v = rest := by
  have hp := pollNext_decodesTo hv reads
  generalize r.pollNext reads = p at hd hp ⊢
  rw [DecodesTo] at hp
  by_cases hr : replyOf p.result = .none
  · cases hres : p.result with
    | pending => exact .inl rfl
    | ready item =>
      rw [hres] at hr
      exact .inr (.inl ⟨item, rfl, endOfStream_ready.mpr hr⟩)
  · rw [List.append_assoc, ht, ← List.append_assoc, ZmqCodec.decode_append v hv hp hr] at hd
    obtain ⟨hreply, hc, hb⟩ : replyOf p.result = .item m ∧ p.reader.codec = c ∧
        p.reader.buffer ++ v = rest := by simpa using hd
    exact .inr (.inr ⟨eq_of_replyOf_item hreply, hc, hb⟩)

end ZmqFramedRead

end ZmqRs.Codec
