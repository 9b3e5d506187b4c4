import ZmqRs.Codec.Capacity
import ZmqRs.Lib.Transition

/-! The size of the reads.  A full read doubles the chunk, and short reads that
follow one another bring it back; what a read does depends only on the chunk, the
count of short reads and the number of bytes. -/

namespace ZmqRs.Codec.ZmqFramedRead

variable [Target]

/-- What happens to a reader: a read with some demand, which the transport answers as it
likes, or a call of the decoder. -/
inductive Action
  | read (minReadSize : Nat) (read : PollRead)
  | decode

def step (r : ZmqFramedRead) : Action → ZmqFramedRead
  | .read minReadSize read => (r.pollReadIntoBuffer minReadSize read).2
  | .decode => r.decode.2

def system (options : SocketOptions) : Lib.System ZmqFramedRead Action where
  init := new options
  next r a := some (r.step a)

def bytesRead (r : ZmqFramedRead) : Action → Option Nat
  | .read minReadSize read =>
    match read (r.readSize minReadSize) with
    | .ready n _ => some n
    | _ => none
  | .decode => none

def Recovers (r : ZmqFramedRead) (n : Nat) : Prop :=
  0 < n ∧ n < r.readChunkSize / 2 ∧ r.shortReads + 1 = r.options.readBufferShortReads

structure Tuned (options : SocketOptions) (r : ZmqFramedRead) : Prop where
  options_eq : r.options = options
  initial_le : options.readBufferInitialSize ≤ r.readChunkSize
  le_max : r.readChunkSize ≤ options.readBufferMaxSize
  shortReads_lt : r.shortReads < options.readBufferShortReads

inductive Adapts (options : SocketOptions) (readSize n chunk short : Nat) : Nat → Nat → Prop
  | eof (hn : n = 0) : Adapts options readSize n chunk short chunk short
  | short (hpos : 0 < n) (hlt : n < chunk / 2) (hne : short + 1 ≠ options.readBufferShortReads) :
    Adapts options readSize n chunk short chunk (short + 1)
  | recover (hpos : 0 < n) (hlt : n < chunk / 2) (heq : short + 1 = options.readBufferShortReads) :
    Adapts options readSize n chunk short
      (min (max (n.nextPowerOfTwo * 2) (options.readBufferInitialSize * 2)) chunk) 0
  | long (chunk' : Nat) (hpos : 0 < n) (hle : chunk ≤ chunk')
    (hmax : chunk' ≤ options.readBufferMaxSize) (hlong : chunk' / 2 ≤ n)
    (hfull : chunk < chunk' → readSize ≤ n) : Adapts options readSize n chunk short chunk' 0

section Steps

variable {options : SocketOptions} {r r' : ZmqFramedRead} {n : Nat} {a : Action}

theorem tuned_new (options : SocketOptions) : Tuned options (new options) :=
  ⟨rfl, Nat.le_refl _, options.initial_le_max, options.shortReads_pos⟩

theorem Tuned.readSize (h : Tuned options r) (minReadSize : Nat) :
    r.readChunkSize ≤ r.readSize minReadSize ∧ 1 ≤ r.readSize minReadSize ∧
      r.readSize minReadSize ≤ options.readBufferMaxSize := by
  have hpos := options.initial_pos
  have hmin := h.initial_le
  have hmax := h.le_max
  rw [ZmqFramedRead.readSize, h.options_eq]
  omega

theorem Tuned.adapt (h : Tuned options r) (minReadSize : Nat) :
    Adapts options (r.readSize minReadSize) n r.readChunkSize r.shortReads
      (r.adapt (r.readSize minReadSize) n).readChunkSize
      (r.adapt (r.readSize minReadSize) n).shortReads := by
  obtain ⟨hchunk, hone, -⟩ := h.readSize minReadSize
  have hmax := h.le_max
  have ho := h.options_eq
  by_cases hfull : r.readSize minReadSize ≤ n ∧ r.readChunkSize < options.readBufferMaxSize
  · have hg : r.grown (r.readSize minReadSize) n =
        min (r.readChunkSize * 2) options.readBufferMaxSize := by
      rw [grown, ho, if_pos hfull]
    have hpos : 0 < n := by omega
    have hlong : ¬ (0 < n ∧ n < r.grown (r.readSize minReadSize) n / 2) := by
      rw [hg]
      omega
    have hadapt : r.adapt (r.readSize minReadSize) n =
        { r with readChunkSize := r.grown (r.readSize minReadSize) n, shortReads := 0 } := by
      simp only [ZmqFramedRead.adapt]
      rw [if_neg hlong, if_pos hpos]
    rw [hadapt]
    apply Adapts.long _ hpos
    · change _ ≤ r.grown _ _
      rw [hg]
      omega
    · change r.grown _ _ ≤ _
      rw [hg]
      exact Nat.min_le_right _ _
    · change r.grown _ _ / 2 ≤ n
      omega
    · intro _
      exact hfull.1
  · have hg : r.grown (r.readSize minReadSize) n = r.readChunkSize := by
      rw [grown, ho, if_neg hfull]
    simp only [ZmqFramedRead.adapt, hg, ho]
    split
    · rename_i hshort
      split
      · rename_i heq
        exact .recover hshort.1 hshort.2 heq
      · rename_i hne
        exact .short hshort.1 hshort.2 hne
    · rename_i hshort
      split
      · rename_i hpos
        exact .long _ hpos (Nat.le_refl _) hmax (by change r.readChunkSize / 2 ≤ n; omega)
          (fun hlt => absurd hlt (Nat.lt_irrefl _))
      · exact .eof (by omega)

@[simp] theorem options_adapt (r : ZmqFramedRead) (readSize n : Nat) :
    (r.adapt readSize n).options = r.options := by
  simp only [ZmqFramedRead.adapt]
  split
  · split <;> rfl
  · split <;> rfl

theorem options_step (r : ZmqFramedRead) (a : Action) : (r.step a).options = r.options := by
  cases a with
  | decode => rfl
  | read minReadSize read =>
    rw [step, pollReadIntoBuffer]
    split <;> simp

theorem step_of_none (h : r.bytesRead a = none) :
    (r.step a).readChunkSize = r.readChunkSize ∧ (r.step a).shortReads = r.shortReads := by
  cases a with
  | decode => exact ⟨rfl, rfl⟩
  | read minReadSize read =>
    rw [bytesRead] at h
    rw [step, pollReadIntoBuffer]
    split
    · rename_i hread
      rw [hread] at h
      cases h
    · exact ⟨rfl, rfl⟩
    · exact ⟨rfl, rfl⟩

theorem Tuned.step_of_some (h : Tuned options r) (hn : r.bytesRead a = some n) :
    ∃ minReadSize, Adapts options (r.readSize minReadSize) n r.readChunkSize r.shortReads
      (r.step a).readChunkSize (r.step a).shortReads := by
  cases a with
  | decode => cases hn
  | read minReadSize read =>
    refine ⟨minReadSize, ?_⟩
    rw [bytesRead] at hn
    rw [step, pollReadIntoBuffer]
    split
    · rename_i k slice hread
      rw [hread] at hn
      obtain rfl : (k : Nat) = n := Option.some.inj hn
      let resized := r.buffer ++ List.replicate (r.readSize minReadSize) 0
      let buffer := (resized.take r.buffer.length ++ slice.toList).take (r.buffer.length + k)
      have hb : Tuned options { r with buffer := buffer } :=
        ⟨h.options_eq, h.initial_le, h.le_max, h.shortReads_lt⟩
      exact hb.adapt minReadSize
    · rename_i hread
      rw [hread] at hn
      cases hn
    · rename_i hread
      rw [hread] at hn
      cases hn

theorem Tuned.step (h : Tuned options r) (a : Action) : Tuned options (r.step a) := by
  have hpos := options.shortReads_pos
  have hmin := h.initial_le
  have hmax := h.le_max
  have hs := h.shortReads_lt
  have ho := (options_step r a).trans h.options_eq
  cases hn : r.bytesRead a with
  | none =>
    obtain ⟨hc, hs'⟩ := step_of_none hn
    exact ⟨ho, by rw [hc]; exact hmin, by rw [hc]; exact hmax, by rw [hs']; exact hs⟩
  | some n =>
    obtain ⟨minReadSize, hadapts⟩ := h.step_of_some hn
    constructor
    · exact ho
    · generalize (r.step a).readChunkSize = chunk' at hadapts ⊢
      generalize (r.step a).shortReads = short' at hadapts
      cases hadapts <;> omega
    · generalize (r.step a).readChunkSize = chunk' at hadapts ⊢
      generalize (r.step a).shortReads = short' at hadapts
      cases hadapts <;> omega
    · generalize (r.step a).readChunkSize = chunk' at hadapts
      generalize (r.step a).shortReads = short' at hadapts ⊢
      cases hadapts <;> omega

def positive (s : ZmqFramedRead × Action) : Option (Nat × Nat) :=
  match s.1.bytesRead s.2 with
  | some (n + 1) => some (n + 1, s.1.readChunkSize)
  | _ => none

theorem positive_of_pos (hn : r.bytesRead a = some n) (hpos : 0 < n) :
    positive (r, a) = some (n, r.readChunkSize) := by
  cases n with
  | zero => cases hpos
  | succ n =>
    unfold positive
    rw [hn]

def Counts (ps : List (Nat × Nat)) (r : ZmqFramedRead) : Prop :=
  ∃ pre suf, ps = pre ++ suf ∧ suf.length = r.shortReads ∧ ∀ p ∈ suf, p.1 < p.2 / 2

theorem Counts.zero (ps : List (Nat × Nat)) (h : r.shortReads = 0) : Counts ps r :=
  ⟨ps, [], by simp, h.symm, fun p hp => by cases hp⟩

theorem Counts.same {ps : List (Nat × Nat)} (h : Counts ps r) (hs : r'.shortReads = r.shortReads) :
    Counts ps r' := by
  obtain ⟨pre, suf, hps, hlen, hshort⟩ := h
  exact ⟨pre, suf, hps, hlen.trans hs.symm, hshort⟩

theorem Counts.short {ps : List (Nat × Nat)} {chunk : Nat} (h : Counts ps r)
    (hlt : n < chunk / 2) :
    ∃ pre suf, ps ++ [(n, chunk)] = pre ++ suf ∧ suf.length = r.shortReads + 1 ∧
      ∀ p ∈ suf, p.1 < p.2 / 2 := by
  obtain ⟨pre, suf, rfl, hlen, hshort⟩ := h
  refine ⟨pre, suf ++ [(n, chunk)], List.append_assoc _ _ _, by simp [hlen], ?_⟩
  intro p hp
  cases List.mem_append.mp hp with
  | inl hp => exact hshort p hp
  | inr hp =>
    obtain rfl := List.mem_singleton.mp hp
    exact hlt

theorem Counts.step {ps : List (Nat × Nat)} (ht : Tuned options r) (h : Counts ps r) (a : Action) :
    Counts (ps ++ (positive (r, a)).toList) (r.step a) := by
  cases hn : r.bytesRead a with
  | none =>
    have hp : positive (r, a) = none := by
      unfold positive
      rw [hn]
    rw [hp, Option.toList_none, List.append_nil]
    exact h.same (step_of_none hn).2
  | some n =>
    obtain ⟨minReadSize, hadapts⟩ := ht.step_of_some hn
    generalize hchunk : (r.step a).readChunkSize = chunk' at hadapts
    generalize hshort : (r.step a).shortReads = short' at hadapts
    cases hadapts with
    | eof hzero =>
      have hp : positive (r, a) = none := by
        unfold positive
        rw [hn, hzero]
      rw [hp, Option.toList_none, List.append_nil]
      exact h.same hshort
    | short hpos hlt hne =>
      rw [positive_of_pos hn hpos, Option.toList_some]
      obtain ⟨pre, suf, hps, hlen, hall⟩ := h.short hlt
      exact ⟨pre, suf, hps, hlen.trans hshort.symm, hall⟩
    | recover => exact .zero _ hshort
    | long => exact .zero _ hshort

def Steady (n : Nat) (r : ZmqFramedRead) : Prop :=
  n < r.readChunkSize ∧
    r.readChunkSize ≤ max (n.nextPowerOfTwo * 2) (r.options.readBufferInitialSize * 2)

theorem Tuned.steady (h : Tuned options r) (hn : r.bytesRead a = some n) (hr : r.Recovers n) :
    Steady n (r.step a) := by
  obtain ⟨hpos, hlt, heq⟩ := hr
  have hpow := le_nextPowerOfTwo n
  rw [h.options_eq] at heq
  obtain ⟨minReadSize, hadapts⟩ := h.step_of_some hn
  rw [Steady, options_step, h.options_eq]
  generalize (r.step a).readChunkSize = chunk' at hadapts ⊢
  generalize (r.step a).shortReads = short' at hadapts
  cases hadapts <;> omega

theorem Steady.step (ht : Tuned options r) (h : Steady n r)
    (hn : ∀ k, r.bytesRead a = some k → k = n) :
    (r.step a).readChunkSize = r.readChunkSize ∧ Steady n (r.step a) := by
  have hchunk : (r.step a).readChunkSize = r.readChunkSize := by
    cases hk : r.bytesRead a with
    | none => exact (step_of_none hk).1
    | some k =>
      obtain rfl := hn k hk
      obtain ⟨hlt, hle⟩ := h
      rw [ht.options_eq] at hle
      obtain ⟨minReadSize, hadapts⟩ := ht.step_of_some hk
      have hsize := (ht.readSize minReadSize).1
      generalize (r.step a).readChunkSize = chunk' at hadapts ⊢
      generalize (r.step a).shortReads = short' at hadapts
      cases hadapts <;> omega
  refine ⟨hchunk, ?_⟩
  rw [Steady, hchunk, options_step]
  exact h

theorem Steady.run (ht : Tuned options r) (h : Steady n r) {as : List Action}
    (hrun : (system options).run r as = some r')
    (hn : ∀ s ∈ (system options).steps r as, ∀ k, s.1.bytesRead s.2 = some k → k = n) :
    r'.readChunkSize = r.readChunkSize := by
  induction as generalizing r with
  | nil =>
    obtain rfl : r = r' := by simpa using hrun
    rfl
  | cons a as ih =>
    have hnext : (system options).next r a = some (r.step a) := rfl
    rw [Lib.System.steps_cons _ hnext] at hn
    rw [Lib.System.run_cons, hnext, Option.bind_some] at hrun
    obtain ⟨hchunk, hs⟩ := h.step ht (hn (r, a) List.mem_cons_self)
    exact (ih (ht.step a) hs hrun fun s hs => hn s (List.mem_cons_of_mem _ hs)).trans hchunk

end Steps

def positives (options : SocketOptions) (as : List Action) : List (Nat × Nat) :=
  ((system options).steps (new options) as).filterMap positive

/-- Whatever is read and whatever the decoder demands, the chunk stays between its bounds, a
request is never empty, a read that grows the chunk is not a short one, and the chunk shrinks
only where the last positive reads, as many as the option says, were short.  After that, reads
of the same size leave it as it is. -/
theorem read_size_adapts {options : SocketOptions} {as : List Action} {r : ZmqFramedRead}
    (h : (system options).run (new options) as = some r) :
    (options.readBufferInitialSize ≤ r.readChunkSize ∧
        r.readChunkSize ≤ options.readBufferMaxSize ∧
        r.shortReads < options.readBufferShortReads) ∧
      (∀ minReadSize, 1 ≤ r.readSize minReadSize ∧
        r.readSize minReadSize ≤ options.readBufferMaxSize) ∧
      (∀ a, r.readChunkSize < (r.step a).readChunkSize →
        ∃ n, r.bytesRead a = some n ∧ ¬ n < (r.step a).readChunkSize / 2 ∧
          (r.step a).shortReads = 0) ∧
      (∀ a, (r.step a).readChunkSize < r.readChunkSize →
        ∃ n, r.bytesRead a = some n ∧ r.Recovers n) ∧
      ∀ a n, r.bytesRead a = some n → r.Recovers n →
        (∃ pre suf, positives options as ++ [(n, r.readChunkSize)] = pre ++ suf ∧
          suf.length = options.readBufferShortReads ∧ ∀ p ∈ suf, p.1 < p.2 / 2) ∧
        ∀ as' r', (system options).run (r.step a) as' = some r' →
          (∀ s ∈ (system options).steps (r.step a) as', ∀ k,
            s.1.bytesRead s.2 = some k → k = n) →
          r'.readChunkSize = (r.step a).readChunkSize := by
  have hinv := (system options).run_steps
    (P := fun l r => Tuned options r ∧ Counts (l.filterMap positive) r)
    (fun l s a s' hP hn => ?_) (l := []) ⟨tuned_new options, .zero _ rfl⟩ h
  · obtain ⟨ht, hcounts⟩ := hinv
    refine ⟨⟨ht.initial_le, ht.le_max, ht.shortReads_lt⟩, fun m => (ht.readSize m).2, ?_, ?_, ?_⟩
    · intro a hlt
      cases hn : r.bytesRead a with
      | none =>
        rw [(step_of_none hn).1] at hlt
        exact absurd hlt (Nat.lt_irrefl _)
      | some n =>
        refine ⟨n, rfl, ?_⟩
        obtain ⟨minReadSize, hadapts⟩ := ht.step_of_some hn
        generalize (r.step a).readChunkSize = chunk' at hlt hadapts ⊢
        generalize (r.step a).shortReads = short' at hadapts ⊢
        cases hadapts <;> omega
    · intro a hlt
      cases hn : r.bytesRead a with
      | none =>
        rw [(step_of_none hn).1] at hlt
        exact absurd hlt (Nat.lt_irrefl _)
      | some n =>
        refine ⟨n, rfl, ?_⟩
        obtain ⟨minReadSize, hadapts⟩ := ht.step_of_some hn
        rw [Recovers, ht.options_eq]
        generalize (r.step a).readChunkSize = chunk' at hlt hadapts
        generalize (r.step a).shortReads = short' at hadapts
        cases hadapts <;> omega
    · intro a n hn hr
      constructor
      · obtain ⟨pre, suf, hps, hlen, hall⟩ := hcounts.short hr.2.1
        rw [hr.2.2, ht.options_eq] at hlen
        exact ⟨pre, suf, hps, hlen, hall⟩
      · intro as' r' hrun hsame
        exact (ht.steady hn hr).run (ht.step a) hrun hsame
  · obtain rfl : s.step a = s' := Option.some.inj hn
    rw [Lib.filterMap_append_singleton]
    exact ⟨hP.1.step a, hP.2.step hP.1 a⟩

def burst : List Action :=
  [128, 256, 100].map fun n => .read 0 (.giving (List.replicate n 7))

omit [Target] in
theorem read_size_adapts_burst :
    letI := Target.x64
    ∃ r, (system .default).run (new .default) burst = some r ∧ r.readChunkSize = 512 ∧
      ∀ a, r.bytesRead a = some 100 → ∀ as' r',
        (system .default).run (r.step a) as' = some r' →
        (∀ s ∈ (system .default).steps (r.step a) as', ∀ k,
          s.1.bytesRead s.2 = some k → k = 100) →
        r'.readChunkSize = (r.step a).readChunkSize := by
  let _ := Target.x64
  have hrun : ∃ r, (system .default).run (new .default) burst = some r := ⟨_, rfl⟩
  obtain ⟨r, hrun⟩ := hrun
  have hstate : ((system .default).run (new .default) burst).map
      (fun r => (r.readChunkSize, r.shortReads, r.options.readBufferShortReads)) =
        some (512, 1, 2) := by
    decide +kernel
  rw [hrun, Option.map_some, Option.some_inj, Prod.mk_inj, Prod.mk_inj] at hstate
  obtain ⟨hchunk, hshort, hopt⟩ := hstate
  have hr : r.Recovers 100 := by
    rw [Recovers, hchunk, hshort, hopt]
    decide
  refine ⟨r, hrun, hchunk, ?_⟩
  intro a hn as' r' hrun' hsame
  exact ((read_size_adapts hrun).2.2.2.2 a 100 hn hr).2 as' r' hrun' hsame

end ZmqRs.Codec.ZmqFramedRead
