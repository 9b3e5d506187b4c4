import ZmqRs.FairQueue.Keys

/-! Whether `remove` and `insert` last.  A stream that is out for polling is put back
under its key whatever happened to the key in the meantime. -/

namespace ZmqRs.FairQueue.Numbered

open Codec (Poll)

variable {S K W T E : Type}

def poll (poll : S → E → Poll (Option T) × S) (s : Nat × S) (env : E) : Poll (Option T) × (Nat × S) :=
  ((poll s.2 env).1, (s.1, (poll s.2 env).2))

def number (n : Nat) : Action S K W E → Action (Nat × S) K W E
  | .insert k s => .insert k (n, s)
  | .remove k => .remove k
  | .clear => .clear
  | .wake w => .wake w
  | .pollNext task => .pollNext task
  | .pop e => .pop e
  | .popNone => .popNone
  | .polled env => .polled env
  | .resume => .resume
  | .exit => .exit
  | .finish => .finish

/-- `clock` counts the steps; a stream is known by the step that inserted it. -/
structure State (S K W T : Type) where
  queue : FairQueue.State (Nat × S) K W T
  clock : Nat

section Defs

variable [Target] [DecidableEq K] (block : Bool) (poll : S → E → Poll (Option T) × S)

def next (st : State S K W T) (a : Action S K W E) : Option (State S K W T) :=
  (FairQueue.next block (Numbered.poll poll) st.queue (number st.clock a)).map (⟨·, st.clock + 1⟩)

def system : Lib.System (State S K W T) (Action S K W E) where
  init := ⟨.init, 0⟩
  next := next block poll

def inserts (k : K) : Action S K W E → Bool
  | .insert k' _ => k' = k
  | _ => false

def leaves (k : K) (st : State S K W T) : Action S K W E → Bool
  | .insert k' _ => k' ≠ k
  | .remove k' => k' ≠ k
  | .clear => false
  | .polled env =>
    match st.queue.hand k with
    | none => true
    | some held =>
      match (poll held.stream.2 env).1 with
      | .ready none => false
      | _ => true
  | _ => true

def Idle (st : State S K W T) : Prop := ∃ last, st.queue.consumer = .idle last

/-- After `remove(k)` in `st`, and until the next `insert(k, _)`: `k` is absent whenever no
poll is in progress, and no call of `poll_next` that starts yields an item under `k`. -/
def RemovalFinal (st : State S K W T) (k : K) : Prop :=
  ∀ st₁ as st₂, next block poll st (.remove k) = some st₁ →
    (system block poll).run st₁ as = some st₂ → (∀ a ∈ as, ¬ inserts k a) →
    (Idle st₂ → st₂.queue.stored k = none) ∧
    ∀ xs task ys st₃, as = xs ++ .pollNext task :: ys → (system block poll).run st₁ xs = some st₃ →
      ∃ new, st₂.queue.yielded = st₃.queue.yielded ++ new ∧ ∀ x ∈ new, x.1 ≠ k

def Holds (st : State S K W T) (k : K) (n : Nat) : Prop :=
  (∃ held, st.queue.stored k = some held ∨ st.queue.hand k = some held) ∧
    ∀ held, st.queue.stored k = some held ∨ st.queue.hand k = some held → held.stream.1 = n

/-- After `insert(k, s)` in `st`, and until the next `insert` or `remove` of `k` or the end
of `s`, the stream stored or being polled under `k` is `s`. -/
def InsertionFinal (st : State S K W T) (k : K) (s : S) : Prop :=
  ∀ st₁ as st₂, next block poll st (.insert k s) = some st₁ →
    ((system block poll).guarded fun st a => leaves poll k st a).run st₁ as = some st₂ →
    Holds st₂ k st.clock

end Defs

variable [Target] [DecidableEq K] {block : Bool} {poll : S → E → Poll (Option T) × S}
  {st st' : State S K W T} {k : K} {a : Action S K W E}

theorem keyStep (h : next block poll st a = some st') (k : K) :
    KeyStep (Numbered.poll poll) k (number st.clock a) (st.queue.stored k) (st.queue.hand k)
      (st'.queue.stored k) (st'.queue.hand k) := by
  obtain ⟨q, hq, rfl⟩ := Option.map_eq_some_iff.mp h
  exact FairQueue.keyStep hq k

theorem clock_next (h : next block poll st a = some st') : st'.clock = st.clock + 1 := by
  obtain ⟨q, -, rfl⟩ := Option.map_eq_some_iff.mp h
  rfl

omit [Target] [DecidableEq K] in
theorem number_eq_insert {n : Nat} {s : Nat × S} (h : number n a = .insert k s) :
    ∃ t, a = .insert k t ∧ s = (n, t) := by
  cases a <;> cases h
  exact ⟨_, rfl, rfl⟩

omit [Target] [DecidableEq K] in
theorem number_eq_polled {n : Nat} {env : E} (h : number n a = .polled env) : a = .polled env := by
  cases a <;> cases h
  rfl

def Absent (st : State S K W T) (k : K) : Prop :=
  st.queue.stored k = none ∧ st.queue.hand k = none

theorem Absent.next (hab : Absent st k) (h : Numbered.next block poll st a = some st')
    (ha : ¬ inserts k a) :
    Absent st' k ∧ ∃ new, st'.queue.yielded = st.queue.yielded ++ new ∧ ∀ x ∈ new, x.1 ≠ k := by
  obtain ⟨hs, hh⟩ := hab
  refine ⟨?_, ?_⟩
  · have hk := keyStep h k
    generalize ht : st'.queue.stored k = stored, hg : st'.queue.hand k = hand at hk
    cases hk with
    | same => exact ⟨ht.trans hs, hg.trans hh⟩
    | insert s hins =>
      obtain ⟨t, rfl, -⟩ := number_eq_insert hins
      simp [inserts] at ha
    | remove => exact ⟨ht, hg.trans hh⟩
    | take e held _ hs' => simp [hs] at hs'
    | putBack env held w _ hh' => simp [hh] at hh'
    | ended env held _ hh' => simp [hh] at hh'
  · obtain ⟨q, hq, rfl⟩ := Option.map_eq_some_iff.mp h
    rcases yielded_next hq with hy | ⟨k', held, env, t, -, hk', -, hy⟩
    · exact ⟨[], by rw [hy, List.append_nil], by simp⟩
    · refine ⟨[(k', t)], hy, fun x hx => ?_⟩
      rw [List.mem_singleton.mp hx]
      rintro rfl
      simp [hh] at hk'

theorem Absent.run (hab : Absent st k) {as : List (Action S K W E)}
    (h : (system block poll).run st as = some st') (ha : ∀ a ∈ as, ¬ inserts k a) :
    Absent st' k ∧ ∃ new, st'.queue.yielded = st.queue.yielded ++ new ∧ ∀ x ∈ new, x.1 ≠ k := by
  induction as generalizing st with
  | nil =>
    cases h
    exact ⟨hab, [], by simp, by simp⟩
  | cons a as ih =>
    rw [Lib.System.run_cons] at h
    obtain ⟨st₁, h₁, h⟩ := Option.bind_eq_some_iff.mp h
    obtain ⟨hab₁, new₁, hy₁, hn₁⟩ := hab.next h₁ (ha a (by simp))
    obtain ⟨hab₂, new₂, hy₂, hn₂⟩ := ih hab₁ h fun b hb => ha b (by simp [hb])
    refine ⟨hab₂, new₁ ++ new₂, by rw [hy₂, hy₁, List.append_assoc], fun x hx => ?_⟩
    cases List.mem_append.mp hx with
    | inl hx => exact hn₁ x hx
    | inr hx => exact hn₂ x hx

theorem removalFinal_of_hand (hh : st.queue.hand k = none) : RemovalFinal block poll st k := by
  intro st₁ as st₂ h₁ h ha
  have hab : Absent st₁ k := by
    cases h₁
    exact ⟨AList.lookup_erase _ _, hh⟩
  refine ⟨fun _ => (hab.run h ha).1.1, ?_⟩
  rintro xs task ys st₃ rfl hx
  rw [Lib.System.run_append, hx] at h
  obtain ⟨hab₃, -⟩ := hab.run hx fun a hm => ha a (List.mem_append_left _ hm)
  exact (hab₃.run h fun a hm => ha a (List.mem_append_right _ hm)).2

def Sole (st : State S K W T) (k : K) (n : Nat) : Prop :=
  (∃ held, st.queue.stored k = some held ∧ st.queue.hand k = none ∧ held.stream.1 = n) ∨
    ∃ held, st.queue.stored k = none ∧ st.queue.hand k = some held ∧ held.stream.1 = n

omit [Target] in
theorem Sole.holds {n : Nat} (h : Sole st k n) : Holds st k n := by
  rcases h with ⟨held, hs, hh, hn⟩ | ⟨held, hs, hh, hn⟩
  · refine ⟨⟨held, .inl hs⟩, fun held' h => ?_⟩
    rw [hs, hh] at h
    rcases h with h | h
    · cases h
      exact hn
    · cases h
  · refine ⟨⟨held, .inr hh⟩, fun held' h => ?_⟩
    rw [hs, hh] at h
    rcases h with h | h
    · cases h
    · cases h
      exact hn

theorem Sole.next {n : Nat} (hso : Sole st k n) (hl : leaves poll k st a)
    (h : Numbered.next block poll st a = some st') : Sole st' k n := by
  have hk := keyStep h k
  generalize ht : st'.queue.stored k = stored, hg : st'.queue.hand k = hand at hk
  cases hk with
  | same => rwa [Sole, ht, hg]
  | insert s hins =>
    obtain ⟨t, rfl, -⟩ := number_eq_insert hins
    simp [leaves] at hl
  | remove hrem =>
    cases a <;> simp_all [leaves, number]
  | take e held _ hs' hh' =>
    rcases hso with ⟨held', hs, -, hn⟩ | ⟨held', -, hh, -⟩
    · cases hs.symm.trans hs'
      exact .inr ⟨held, ht, hg, hn⟩
    · simp [hh] at hh'
  | putBack env held w _ hh' =>
    rcases hso with ⟨held', -, hh, -⟩ | ⟨held', -, hh, hn⟩
    · simp [hh] at hh'
    · cases hh.symm.trans hh'
      exact .inl ⟨_, ht, hg, hn⟩
  | ended env held hpol hh' hp =>
    obtain rfl := number_eq_polled hpol
    replace hp : (poll held.stream.2 env).1 = .ready none := hp
    simp [leaves, hh', hp] at hl

theorem insertionFinal_of_hand (hh : st.queue.hand k = none) (s : S) :
    InsertionFinal block poll st k s := by
  intro st₁ as st₂ h₁ h
  have hso : Sole st₁ k st.clock := by
    cases h₁
    exact .inl ⟨⟨(st.clock, s), none⟩, by simp [State.stored], hh, rfl⟩
  refine Sole.holds ?_
  refine (system block poll).invariant_run_guarded (P := fun st' => Sole st' k st.clock) ?_ hso h
  exact fun _ _ _ hl hs hn => hs.next hl hn

theorem number_lt (h : (system block poll).Reachable st) (k : K) :
    ∀ held, st.queue.stored k = some held ∨ st.queue.hand k = some held →
      held.stream.1 < st.clock := by
  refine h.invariant (P := fun st => ∀ held, st.queue.stored k = some held ∨
    st.queue.hand k = some held → held.stream.1 < st.clock) ?_ ?_
  · intro held hh
    simp [system, State.stored, State.hand, FairQueue.State.init, QueueInner.new] at hh
  · intro st a st' hi hn held hh
    have hk := keyStep hn k
    rw [clock_next hn]
    generalize ht : st'.queue.stored k = stored, hg : st'.queue.hand k = hand at hk hh
    have hold : st.queue.stored k = some held ∨ st.queue.hand k = some held →
        held.stream.1 < st.clock + 1 := fun h => Nat.lt_succ_of_lt (hi held h)
    cases hk with
    | same => exact hold hh
    | insert s hins =>
      obtain ⟨t, -, rfl⟩ := number_eq_insert hins
      rcases hh with hh | hh
      · cases hh
        exact Nat.lt_succ_self _
      · exact hold (.inr hh)
    | remove =>
      rcases hh with hh | hh
      · cases hh
      · exact hold (.inr hh)
    | take e held' _ hs =>
      rcases hh with hh | hh
      · cases hh
      · cases hh
        exact hold (.inl hs)
    | putBack env held' w _ hh' =>
      rcases hh with hh | hh
      · cases hh
        exact Nat.lt_succ_of_lt (hi held' (.inr hh'))
      · cases hh
    | ended =>
      rcases hh with hh | hh
      · exact hold (.inl hh)
      · cases hh

theorem hand_of_insertionFinal (hr : (system block poll).Reachable st) {s : S}
    (h : InsertionFinal block poll st k s) : st.queue.hand k = none := by
  cases hh : st.queue.hand k with
  | none => rfl
  | some held =>
    have hlt := number_lt hr k held (.inr hh)
    obtain ⟨-, hn⟩ := h _ [] _ rfl rfl
    exact absurd (hn held (.inr hh)) (Nat.ne_of_lt hlt)

omit [Target] in
theorem consumer_of_hand {q : FairQueue.State (Nat × S) K W T} {held : Held (Nat × S)}
    (h : q.hand k = some held) : ∃ task n w, q.consumer = .polling task n k held w := by
  rw [State.hand] at h
  split at h
  · rename_i task n key held' w hc
    split at h
    · rename_i hk
      subst hk
      cases h
      exact ⟨task, n, w, hc⟩
    · cases h
  · cases h

theorem not_removalFinal {held : Held (Nat × S)} (env : E) {t : T}
    (hh : st.queue.hand k = some held) (hp : (poll held.stream.2 env).1 = .ready (some t)) :
    ¬ RemovalFinal block poll st k := by
  intro h
  obtain ⟨task, n, w, hc⟩ := consumer_of_hand hh
  have hn : FairQueue.next block (Numbered.poll poll)
      { st.queue with inner := st.queue.inner.remove k } (.polled env) = _ :=
    next_polled_item hc hp
  have hrun : (system block poll).run
      ⟨{ st.queue with inner := st.queue.inner.remove k }, st.clock + 1⟩ [.polled env] = _ :=
    congrArg (fun o => (o.map fun q => (⟨q, st.clock + 1 + 1⟩ : State S K W T)).bind some) hn
  obtain ⟨hs, -⟩ := h _ _ _ rfl hrun (by simp [inserts])
  have := hs ⟨_, rfl⟩
  simp [State.stored, QueueInner.putBack] at this

/-- A `remove` and an `insert` of `k` last, whatever is done afterwards, if they are made
while no stream of `k` is out for polling; else an `insert` does not, and a `remove` does
not if the stream goes on. -/
theorem final_iff_hand (hr : (system block poll).Reachable st) (k : K) :
    (st.queue.hand k = none → RemovalFinal block poll st k) ∧
    (∀ held env t, st.queue.hand k = some held → (poll held.stream.2 env).1 = .ready (some t) →
      ¬ RemovalFinal block poll st k) ∧
    ∀ s, InsertionFinal block poll st k s ↔ st.queue.hand k = none := by
  refine ⟨removalFinal_of_hand, fun _ env _ hh hp => not_removalFinal env hh hp, fun s => ?_⟩
  exact ⟨hand_of_insertionFinal hr, fun hh => insertionFinal_of_hand hh s⟩

def echo (_ : Unit) : Option Nat → Poll (Option Nat) × Unit
  | none => (.pending, ())
  | some n => (.ready (some n), ())

omit [Target] [DecidableEq K] in
theorem final_iff_hand_stored :
    letI := Target.x64
    ∃ st : State Unit Nat Unit Nat,
      (system true echo).run ⟨.init, 0⟩ [.insert 5 ()] = some st ∧ st.queue.hand 5 = none ∧
      RemovalFinal true echo st 5 ∧ InsertionFinal true echo st 5 () := by
  let _ := Target.x64
  have hst : (system true echo).run (⟨.init, 0⟩ : State Unit Nat Unit Nat) [.insert 5 ()] =
    some _ := rfl
  have h := final_iff_hand ⟨_, hst⟩ 5
  exact ⟨_, hst, rfl, h.1 rfl, (h.2.2 ()).mpr rfl⟩

omit [Target] [DecidableEq K] in
/-- The stream of 5 is out for polling when 5 is removed: it is put back, and a poll that
starts later yields an item of it.  When 5 is inserted instead, the old stream replaces
the new one. -/
theorem putBack_undoes :
    letI := Target.x64
    ∃ st : State Unit Nat Unit Nat,
      (system true echo).run ⟨.init, 0⟩ [.insert 5 (), .pollNext (), .pop ⟨0, 5⟩] = some st ∧
      (∃ st', (system true echo).run st
          [.remove 5, .polled (some 8), .pollNext (), .pop ⟨1, 5⟩, .polled (some 9)] = some st' ∧
        st'.queue.yielded = [(5, 8), (5, 9)] ∧ (st'.queue.stored 5).isSome) ∧
      ¬ RemovalFinal true echo st 5 ∧
      (∃ st', (system true echo).run st [.insert 5 (), .polled (some 8)] = some st' ∧
        (st'.queue.stored 5).map (·.stream.1) = some 0) ∧
      ¬ InsertionFinal true echo st 5 () := by
  let _ := Target.x64
  have hst : (system true echo).run (⟨.init, 0⟩ : State Unit Nat Unit Nat)
    [.insert 5 (), .pollNext (), .pop ⟨0, 5⟩] = some _ := rfl
  refine ⟨_, hst, ⟨_, rfl, rfl, rfl⟩, ?_, ⟨_, rfl, rfl⟩, fun h => ?_⟩
  · exact not_removalFinal (some 8) rfl rfl
  · have hh := hand_of_insertionFinal ⟨_, hst⟩ h
    cases hh

end ZmqRs.FairQueue.Numbered
