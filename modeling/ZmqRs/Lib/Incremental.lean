import Mathlib.Data.List.Basic

/-! Decoders that work on a growing buffer.  A machine is given by one turn of
its loop; what a whole call does, what calling it to exhaustion does, and that
the cuts between the pieces of input cannot be observed, all follow from two
laws about that turn. -/

universe u v w x

namespace ZmqRs.Lib.Incremental

inductive Move (σ : Type u) (β : Type v) (ι : Type w) (ε : Type x)
  | wait
  | go (s : σ) (rest : List β)
  | emit (i : ι) (s : σ) (rest : List β)
  | fail (e : ε) (s : σ) (rest : List β)

def Move.append (more : List β) : Move σ β ι ε → Move σ β ι ε
  | .wait => .wait
  | .go s rest => .go s (rest ++ more)
  | .emit i s rest => .emit i s (rest ++ more)
  | .fail e s rest => .fail e s (rest ++ more)

def Move.All (P : σ → Prop) : Move σ β ι ε → Prop
  | .wait => True
  | .go s _ => P s
  | .emit _ s _ => P s
  | .fail _ s _ => P s

def Move.leaves : Move σ β ι ε → Option (σ × List β)
  | .wait => none
  | .go s rest => some (s, rest)
  | .emit _ s rest => some (s, rest)
  | .fail _ s rest => some (s, rest)

/-- `step_append` says that a turn from a valid state only looks at bytes it
would consume: input that arrives later cannot change a decision that was
already possible. -/
structure Machine (σ : Type u) (β : Type v) (ι : Type w) (ε : Type x) where
  step : σ → List β → Move σ β ι ε
  rank : σ → List β → Nat
  rank_go : ∀ {s b s' r}, step s b = .go s' r → rank s' r < rank s b
  rank_emit : ∀ {s b i s' r}, step s b = .emit i s' r → rank s' r < rank s b
  Valid : σ → Prop
  valid_step : ∀ {s} (b : List β), Valid s → (step s b).All Valid
  step_append : ∀ {s b} (more : List β), Valid s → step s b ≠ .wait →
    step s (b ++ more) = (step s b).append more

inductive Reply (ι : Type w) (ε : Type x)
  | none
  | item (i : ι)
  | error (e : ε)
  deriving DecidableEq

namespace Machine

variable (M : Machine σ β ι ε)

def next (s : σ) (b : List β) : Reply ι ε × σ × List β :=
  match _h : M.step s b with
  | .wait => (.none, s, b)
  | .go s' r => next s' r
  | .emit i s' r => (.item i, s', r)
  | .fail e s' r => (.error e, s', r)
termination_by M.rank s b
decreasing_by exact M.rank_go _h

theorem next_wait (h : M.step s b = .wait) : M.next s b = (.none, s, b) := by
  rw [next]; split <;> simp_all

theorem next_go (h : M.step s b = .go s' r) : M.next s b = M.next s' r := by
  rw [next]; split <;> simp_all

theorem next_emit (h : M.step s b = .emit i s' r) : M.next s b = (.item i, s', r) := by
  rw [next]; split <;> simp_all

theorem next_fail (h : M.step s b = .fail e s' r) : M.next s b = (.error e, s', r) := by
  rw [next]; split <;> simp_all

def loop : Nat → σ → List β → Option (Reply ι ε × σ × List β)
  | 0, _, _ => none
  | n + 1, s, b =>
    match M.step s b with
    | .wait => some (.none, s, b)
    | .go s' r => loop n s' r
    | .emit i s' r => some (.item i, s', r)
    | .fail e s' r => some (.error e, s', r)

theorem loop_of_rank_lt {n : Nat} (h : M.rank s b < n) : M.loop n s b = some (M.next s b) := by
  induction n generalizing s b with
  | zero => omega
  | succ n ih =>
    rw [loop]
    cases hs : M.step s b with
    | wait => rw [M.next_wait hs]
    | go s' r =>
      have hr := M.rank_go hs
      rw [M.next_go hs]
      exact ih (by omega)
    | emit i s' r => rw [M.next_emit hs]
    | fail e s' r => rw [M.next_fail hs]

theorem rank_next (h : M.next s b = (.item i, s', r)) : M.rank s' r < M.rank s b := by
  fun_induction next M s b with
  | case1 => simp at h
  | case2 s b s₁ r₁ hs ih => exact Nat.lt_trans (ih h) (M.rank_go hs)
  | case3 s b i₁ s₁ r₁ hs =>
    obtain ⟨rfl, rfl, rfl⟩ : i₁ = i ∧ s₁ = s' ∧ r₁ = r := by simpa using h
    exact M.rank_emit hs
  | case4 => simp at h

theorem step_of_next_none (h : M.next s b = (.none, s', r)) : M.step s' r = .wait := by
  fun_induction next M s b with
  | case1 s b hs =>
    obtain ⟨rfl, rfl⟩ : s = s' ∧ b = r := by simpa using h
    exact hs
  | case2 s b s₁ r₁ hs ih => exact ih h
  | case3 => simp at h
  | case4 => simp at h

theorem valid_go (hv : M.Valid s) (h : M.step s b = .go s' r) : M.Valid s' := by
  have := M.valid_step b hv
  rwa [h] at this

theorem all_next {P : σ → Prop} (hP : ∀ {s} (b : List β), P s → (M.step s b).All P) (hs : P s)
    (h : M.next s b = (a, s', r)) : P s' := by
  fun_induction next M s b with
  | case1 s b _ =>
    obtain ⟨rfl, rfl, rfl⟩ : _ ∧ s = s' ∧ b = r := by simpa using h
    exact hs
  | case2 s b s₁ r₁ hm ih =>
    have := hP b hs
    rw [hm] at this
    exact ih this h
  | case3 s b i₁ s₁ r₁ hm =>
    obtain ⟨rfl, rfl, rfl⟩ : _ ∧ s₁ = s' ∧ r₁ = r := by simpa using h
    have := hP b hs
    rwa [hm] at this
  | case4 s b e₁ s₁ r₁ hm =>
    obtain ⟨rfl, rfl, rfl⟩ : _ ∧ s₁ = s' ∧ r₁ = r := by simpa using h
    have := hP b hs
    rwa [hm] at this

theorem next_induction {P : σ → List β → Prop}
    (hP : ∀ {s b s' r}, P s b → (M.step s b).leaves = some (s', r) → P s' r) (hs : P s b) :
    P (M.next s b).2.1 (M.next s b).2.2 := by
  fun_induction next M s b with
  | case1 => exact hs
  | case2 s b s₁ r₁ hm ih => exact ih (hP hs (by rw [hm]; rfl))
  | case3 s b i₁ s₁ r₁ hm => exact hP hs (by rw [hm]; rfl)
  | case4 s b e₁ s₁ r₁ hm => exact hP hs (by rw [hm]; rfl)

theorem valid_next (hv : M.Valid s) (h : M.next s b = (a, s', r)) : M.Valid s' :=
  M.all_next M.valid_step hv h

theorem next_congr {N : Machine σ β ι ε}
    (h : ∀ {s} (b : List β), M.Valid s → N.step s b = M.step s b) (hv : M.Valid s) :
    N.next s b = M.next s b := by
  fun_induction next M s b with
  | case1 s b hs => exact N.next_wait ((h b hv).trans hs)
  | case2 s b s₁ r₁ hs ih => rw [N.next_go ((h b hv).trans hs), ih (M.valid_go hv hs)]
  | case3 s b i₁ s₁ r₁ hs => exact N.next_emit ((h b hv).trans hs)
  | case4 s b e₁ s₁ r₁ hs => exact N.next_fail ((h b hv).trans hs)

theorem step_of_next_item (h : M.next s b = (.item i, s', r)) :
    ∃ s₀ b₀, M.step s₀ b₀ = .emit i s' r := by
  fun_induction next M s b with
  | case1 => simp at h
  | case2 s b s₁ r₁ hs ih => exact ih h
  | case3 s b i₁ s₁ r₁ hs =>
    obtain ⟨rfl, rfl, rfl⟩ : i₁ = i ∧ s₁ = s' ∧ r₁ = r := by simpa using h
    exact ⟨s, b, hs⟩
  | case4 => simp at h

theorem step_of_next_error (hv : M.Valid s) (h : M.next s b = (.error e, s', r)) :
    ∃ s₀ b₀, M.Valid s₀ ∧ M.step s₀ b₀ = .fail e s' r := by
  fun_induction next M s b with
  | case1 => simp at h
  | case2 s b s₁ r₁ hs ih => exact ih (M.valid_go hv hs) h
  | case3 => simp at h
  | case4 s b e₁ s₁ r₁ hs =>
    obtain ⟨rfl, rfl, rfl⟩ : e₁ = e ∧ s₁ = s' ∧ r₁ = r := by simpa using h
    exact ⟨s, b, hv, hs⟩

/-- Input behind the bytes a call used does not change its answer. -/
theorem next_append (more : List β) (hv : M.Valid s) (h : M.next s b = (a, s', r))
    (ha : a ≠ .none) : M.next s (b ++ more) = (a, s', r ++ more) := by
  fun_induction next M s b with
  | case1 => simp_all
  | case2 s b s₁ r₁ hs ih =>
    rw [← ih (M.valid_go hv hs) h]
    apply M.next_go
    rw [M.step_append more hv (by simp [hs]), hs, Move.append]
  | case3 s b i₁ s₁ r₁ hs =>
    obtain ⟨rfl, rfl, rfl⟩ : _ ∧ s₁ = s' ∧ r₁ = r := by simpa using h
    apply M.next_emit
    rw [M.step_append more hv (by simp [hs]), hs, Move.append]
  | case4 s b e₁ s₁ r₁ hs =>
    obtain ⟨rfl, rfl, rfl⟩ : _ ∧ s₁ = s' ∧ r₁ = r := by simpa using h
    apply M.next_fail
    rw [M.step_append more hv (by simp [hs]), hs, Move.append]

theorem next_append_none (more : List β) (hv : M.Valid s) (h : M.next s b = (.none, s', r)) :
    M.next s (b ++ more) = M.next s' (r ++ more) := by
  fun_induction next M s b with
  | case1 s b hs =>
    obtain ⟨rfl, rfl⟩ : s = s' ∧ b = r := by simpa using h
    rfl
  | case2 s b s₁ r₁ hs ih =>
    rw [← ih (M.valid_go hv hs) h]
    apply M.next_go
    rw [M.step_append more hv (by simp [hs]), hs, Move.append]
  | case3 => simp at h
  | case4 => simp at h

end Machine

/-- What calling the decoder to exhaustion gives: the items in order, the error
that ended it if there was one, and what is left. -/
structure Drained (σ : Type u) (β : Type v) (ι : Type w) (ε : Type x) where
  items : List ι
  error : Option ε
  state : σ
  rest : List β

def Drained.prepend (is : List ι) (d : Drained σ β ι ε) : Drained σ β ι ε :=
  { d with items := is ++ d.items }

@[simp] theorem Drained.prepend_nil (d : Drained σ β ι ε) : d.prepend [] = d := rfl

@[simp] theorem Drained.prepend_items (is : List ι) (d : Drained σ β ι ε) :
    (d.prepend is).items = is ++ d.items := rfl

@[simp] theorem Drained.prepend_error (is : List ι) (d : Drained σ β ι ε) :
    (d.prepend is).error = d.error := rfl

@[simp] theorem Drained.prepend_state (is : List ι) (d : Drained σ β ι ε) :
    (d.prepend is).state = d.state := rfl

@[simp] theorem Drained.prepend_rest (is : List ι) (d : Drained σ β ι ε) :
    (d.prepend is).rest = d.rest := rfl

@[simp] theorem Drained.prepend_prepend (is js : List ι) (d : Drained σ β ι ε) :
    (d.prepend js).prepend is = d.prepend (is ++ js) := by
  simp [Drained.prepend]

def Drained.results (d : Drained σ β ι ε) : List (Except ε ι) :=
  d.items.map .ok ++ d.error.toList.map .error

@[simp] theorem Drained.results_prepend (i : ι) (d : Drained σ β ι ε) :
    (d.prepend [i]).results = .ok i :: d.results := rfl

namespace Machine

variable (M : Machine σ β ι ε)

def drain (s : σ) (b : List β) : Drained σ β ι ε :=
  match _h : M.next s b with
  | (.none, s', r) => ⟨[], none, s', r⟩
  | (.item i, s', r) => (drain s' r).prepend [i]
  | (.error e, s', r) => ⟨[], some e, s', r⟩
termination_by M.rank s b
decreasing_by exact M.rank_next _h

theorem drain_none (h : M.next s b = (.none, s', r)) : M.drain s b = ⟨[], none, s', r⟩ := by
  rw [drain]; split <;> simp_all

theorem drain_item (h : M.next s b = (.item i, s', r)) :
    M.drain s b = (M.drain s' r).prepend [i] := by
  rw [drain]; split <;> simp_all

theorem drain_error (h : M.next s b = (.error e, s', r)) :
    M.drain s b = ⟨[], some e, s', r⟩ := by
  rw [drain]; split <;> simp_all

theorem drain_wait (h : M.step s b = .wait) : M.drain s b = ⟨[], none, s, b⟩ :=
  M.drain_none (M.next_wait h)

theorem drain_congr_next (h : M.next s b = M.next s' b') : M.drain s b = M.drain s' b' := by
  rcases hn : M.next s' b' with ⟨a, s₁, r₁⟩
  cases a with
  | none => rw [M.drain_none (h.trans hn), M.drain_none hn]
  | item i => rw [M.drain_item (h.trans hn), M.drain_item hn]
  | error e => rw [M.drain_error (h.trans hn), M.drain_error hn]

theorem step_of_drain (h : (M.drain s b).error = none) :
    M.step (M.drain s b).state (M.drain s b).rest = .wait := by
  fun_induction drain M s b with
  | case1 s b s' r hn => exact M.step_of_next_none hn
  | case2 s b i s' r hn ih => exact ih h
  | case3 => simp at h

theorem valid_drain (hv : M.Valid s) : M.Valid (M.drain s b).state := by
  fun_induction drain M s b with
  | case1 s b s' r hn => exact M.valid_next hv hn
  | case2 s b i s' r hn ih => exact ih (M.valid_next hv hn)
  | case3 s b e s' r hn => exact M.valid_next hv hn

theorem drain_append (more : List β) (hv : M.Valid s) (h : (M.drain s b).error = none) :
    M.drain s (b ++ more) =
      (M.drain (M.drain s b).state ((M.drain s b).rest ++ more)).prepend (M.drain s b).items := by
  fun_induction drain M s b with
  | case1 s b s' r hn =>
    exact M.drain_congr_next (M.next_append_none more hv hn)
  | case2 s b i s' r hn ih =>
    rw [M.drain_item (M.next_append more hv hn (by simp)), ih (M.valid_next hv hn) h]
    simp
  | case3 => simp at h

theorem drain_append_error (more : List β) (hv : M.Valid s) (h : (M.drain s b).error = some e) :
    M.drain s (b ++ more) = { M.drain s b with rest := (M.drain s b).rest ++ more } := by
  fun_induction drain M s b with
  | case1 => simp at h
  | case2 s b i s' r hn ih =>
    rw [M.drain_item (M.next_append more hv hn (by simp)), ih (M.valid_next hv hn) h]
    rfl
  | case3 s b e' s' r hn => exact M.drain_error (M.next_append more hv hn (by simp))

/-- The results of at most `n` calls on a fixed input.  Unlike `drain` this goes
on after an error; a call without a result ends it. -/
def calls : Nat → σ → List β → List (Except ε ι)
  | 0, _, _ => []
  | n + 1, s, b =>
    match M.next s b with
    | (.none, _, _) => []
    | (.item i, s', r) => .ok i :: calls n s' r
    | (.error e, s', r) => .error e :: calls n s' r

theorem calls_congr_next (n : Nat) (h : M.next s b = M.next s' b') :
    M.calls n s b = M.calls n s' b' := by
  cases n with
  | zero => rfl
  | succ n => rw [calls, calls, h]

theorem calls_wait (n : Nat) (h : M.step s b = .wait) : M.calls n s b = [] := by
  cases n with
  | zero => rfl
  | succ n => rw [calls, M.next_wait h]

theorem calls_item (n : Nat) (h : M.next s b = (.item i, s', r)) :
    M.calls (n + 1) s b = .ok i :: M.calls n s' r := by
  rw [calls, h]

theorem calls_error (n : Nat) (h : M.next s b = (.error e, s', r)) :
    M.calls (n + 1) s b = .error e :: M.calls n s' r := by
  rw [calls, h]

theorem step_of_mem_calls {n : Nat} (h : .ok i ∈ M.calls n s b) :
    ∃ s₀ b₀ s' r, M.step s₀ b₀ = .emit i s' r := by
  induction n generalizing s b with
  | zero => simp [calls] at h
  | succ n ih =>
    rcases hn : M.next s b with ⟨_ | j | e, s', r⟩ <;> simp only [calls, hn] at h
    · simp at h
    · cases List.mem_cons.mp h with
      | inl h =>
        cases h
        obtain ⟨s₀, b₀, hs⟩ := M.step_of_next_item hn
        exact ⟨s₀, b₀, s', r, hs⟩
      | inr h => exact ih h
    · cases List.mem_cons.mp h with
      | inl h => cases h
      | inr h => exact ih h

theorem items_of_calls {n : Nat} {is : List ι} {rest : List (Except ε ι)}
    (h : M.calls n s b = is.map .ok ++ rest) : is <+: (M.drain s b).items := by
  induction is generalizing n s b with
  | nil => exact List.nil_prefix
  | cons i is ih =>
    cases n with
    | zero => simp [calls] at h
    | succ n =>
      rcases hn : M.next s b with ⟨_ | j | e, s', r⟩ <;> simp only [calls, hn] at h
      · simp at h
      · rw [List.map_cons, List.cons_append, List.cons.injEq, Except.ok.injEq] at h
        obtain ⟨rfl, h⟩ := h
        rw [M.drain_item hn, Drained.prepend_items]
        exact List.cons_prefix_cons.mpr ⟨rfl, ih h⟩
      · simp at h

theorem calls_of_drain (n : Nat) (h : (M.drain s b).error = none) :
    M.calls n s b = ((M.drain s b).items.take n).map .ok := by
  induction n generalizing s b with
  | zero => rfl
  | succ n ih =>
    rcases hn : M.next s b with ⟨_ | i | e, s', r⟩
    · rw [calls, hn, M.drain_none hn]
      rfl
    · rw [M.drain_item hn] at h
      rw [M.calls_item n hn, M.drain_item hn, ih h]
      rfl
    · rw [M.drain_error hn] at h
      cases h

def feed (s : σ) (b : List β) : List (List β) → Drained σ β ι ε
  | [] => ⟨[], none, s, b⟩
  | c :: cs =>
    let d := M.drain s (b ++ c)
    match d.error with
    | some _ => d
    | none => (feed d.state d.rest cs).prepend d.items

/-- Where the input was cut cannot be seen in the items or in the error. -/
theorem feed_items_error (hv : M.Valid s) (hw : M.step s b = .wait) (cs : List (List β)) :
    (M.feed s b cs).items = (M.drain s (b ++ cs.flatten)).items ∧
      (M.feed s b cs).error = (M.drain s (b ++ cs.flatten)).error := by
  induction cs generalizing s b with
  | nil => simp [feed, M.drain_wait hw]
  | cons c cs ih =>
    rw [List.flatten_cons, ← List.append_assoc]
    rcases he : (M.drain s (b ++ c)).error with _ | e
    · obtain ⟨hi, hr⟩ := ih (M.valid_drain hv) (M.step_of_drain he)
      simp only [feed, he, M.drain_append _ hv he, Drained.prepend_items, Drained.prepend_error]
      exact ⟨by rw [hi], hr⟩
    · rw [M.drain_append_error _ hv he]
      simp [feed, he]

theorem feed_eq_drain (hv : M.Valid s) (hw : M.step s b = .wait) (cs : List (List β))
    (he : (M.drain s (b ++ cs.flatten)).error = none) :
    M.feed s b cs = M.drain s (b ++ cs.flatten) := by
  induction cs generalizing s b with
  | nil => simp [feed, M.drain_wait hw]
  | cons c cs ih =>
    rw [List.flatten_cons, ← List.append_assoc] at he ⊢
    rcases h : (M.drain s (b ++ c)).error with _ | e
    · rw [M.drain_append _ hv h] at he ⊢
      simp only [feed, h]
      rw [ih (M.valid_drain hv) (M.step_of_drain h) he]
    · rw [M.drain_append_error _ hv h] at he
      simp [h] at he

def times : Nat → σ → List β → Drained σ β ι ε
  | 0, s, b => ⟨[], none, s, b⟩
  | n + 1, s, b =>
    match M.next s b with
    | (.none, s', r) => times n s' r
    | (.item i, s', r) => (times n s' r).prepend [i]
    | (.error e, s', r) => ⟨[], some e, s', r⟩

theorem times_wait (n : Nat) (h : M.step s b = .wait) : M.times n s b = ⟨[], none, s, b⟩ := by
  induction n with
  | zero => rfl
  | succ n ih =>
    rw [times, M.next_wait h]
    exact ih

def feedCalls (s : σ) (b : List β) : List (List β × Nat) → Drained σ β ι ε
  | [] => ⟨[], none, s, b⟩
  | (c, n) :: cs =>
    let d := M.drain s (b ++ c)
    match d.error with
    | some _ => d
    | none =>
      let t := M.times n d.state d.rest
      match t.error with
      | some _ => t.prepend d.items
      | none => (feedCalls t.state t.rest cs).prepend (d.items ++ t.items)

theorem feedCalls_eq_feed (cs : List (List β × Nat)) :
    M.feedCalls s b cs = M.feed s b (cs.map Prod.fst) := by
  induction cs generalizing s b with
  | nil => rfl
  | cons c cs ih =>
    obtain ⟨c, n⟩ := c
    simp only [feedCalls, List.map_cons, feed]
    cases he : (M.drain s (b ++ c)).error with
    | some e => rfl
    | none =>
      simp only [M.times_wait n (M.step_of_drain he), List.append_nil]
      rw [ih]

end Machine

end ZmqRs.Lib.Incremental
