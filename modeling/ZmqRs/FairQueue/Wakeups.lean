import ZmqRs.FairQueue

/-! The fair queue loses no wakeup.  The invariant says of every stream in the
map that either an event will bring it to a poll or its last poll left a waker
that is still to be invoked, and of a parked consumer that the next event will
find its waker. -/

namespace ZmqRs

open Codec (Poll)

namespace QueueInner

variable [Target] {S K W : Type} [DecidableEq K] {q : QueueInner S K W} {k k' : K}

def HasEvent (q : QueueInner S K W) (k : K) : Prop := ∃ e ∈ q.readyQueue, e.key = k

def Coherent (q : QueueInner S K W) : Prop := ∀ k ∈ q.queued, q.HasEvent k

theorem HasEvent.pushReady (h : q.HasEvent k') : (q.pushReady k).HasEvent k' := by
  obtain ⟨e, he, hk⟩ := h
  refine ⟨e, ?_, hk⟩
  rw [QueueInner.pushReady]
  split
  · exact he
  · exact List.mem_append_left _ he

theorem hasEvent_pushReady_self (hc : q.Coherent) : (q.pushReady k).HasEvent k := by
  rw [pushReady]
  split
  · exact hc k ‹_›
  · exact ⟨⟨q.counter, k⟩, by simp, rfl⟩

theorem Coherent.pushReady (hc : q.Coherent) : (q.pushReady k).Coherent := by
  intro k' hk'
  by_cases h : k' = k
  · subst h
    exact hasEvent_pushReady_self hc
  · apply HasEvent.pushReady
    apply hc
    rw [QueueInner.pushReady] at hk'
    split at hk'
    · exact hk'
    · exact Finset.mem_of_mem_insert_of_ne hk' h

omit [Target] in
theorem Coherent.remove (hc : q.Coherent) : (q.remove k).Coherent :=
  fun k' hk' => hc k' (Finset.mem_of_mem_erase hk')

omit [Target] in
theorem HasEvent.take {e : ReadyEvent K} (h : q.HasEvent k') (hne : k' ≠ e.key) :
    (q.take e).2.HasEvent k' := by
  obtain ⟨e', he', rfl⟩ := h
  refine ⟨e', (List.mem_erase_of_ne ?_).mpr he', rfl⟩
  rintro rfl
  exact hne rfl

omit [Target] in
theorem Coherent.take {e : ReadyEvent K} (hc : q.Coherent) : (q.take e).2.Coherent := by
  intro k' hk'
  have hne := Finset.ne_of_mem_erase hk'
  exact (hc k' (Finset.mem_of_mem_erase hk')).take hne

end QueueInner

namespace FairQueue

variable [Target] {S K W T E : Type} [DecidableEq K] {st st' : State S K W T}

/-- The last poll of the stream returned `Pending` with a waker for its key that
has not been invoked since. -/
def Armed (st : State S K W T) (k : K) (held : Held S) : Prop :=
  ∃ w, held.pendingWaker = some w ∧ st.wakers[w]? = some k ∧ w ∉ st.invoked

def Parked (st : State S K W T) (task : W) (empty : Prop) : Prop :=
  task ∉ st.woken → st.inner.waker = some task ∧ (empty → st.inner.readyQueue = [])

structure Inv (st : State S K W T) : Prop where
  coherent : st.inner.Coherent
  issued : ∀ w ∈ st.invoked, w < st.wakers.length
  covered : ∀ k held, st.inner.streams.lookup k = some held →
    st.inner.HasEvent k ∨ Armed st k held
  inHand : ∀ task n k held w, st.consumer = .polling task n k held w →
    st.wakers[w]? = some k ∧ (w ∈ st.invoked → st.inner.HasEvent k)
  idle : ∀ task, st.consumer = .idle (some (task, .pending)) → Parked st task True
  returning : ∀ task shouldWake result, st.consumer = .returning task shouldWake result →
    Parked st task (shouldWake = false)

omit [Target] in
theorem inv_init : Inv (State.init : State S K W T) where
  coherent := by simp [State.init, QueueInner.new, QueueInner.Coherent]
  issued := by simp [State.init]
  covered := by simp [State.init, QueueInner.new]
  inHand := by simp [State.init]
  idle := by simp [State.init]
  returning := by simp [State.init]

structure Outside (st st' : State S K W T) : Prop where
  consumer : st'.consumer = st.consumer
  wakers : st'.wakers = st.wakers
  events : ∀ k, st.inner.HasEvent k → st'.inner.HasEvent k
  woken : ∀ task ∈ st.woken, task ∈ st'.woken
  parks : ∀ task, task ∉ st'.woken → st.inner.waker = some task →
    st'.inner.waker = some task ∧ st'.inner.readyQueue = st.inner.readyQueue

omit [Target] [DecidableEq K] in
theorem Outside.parked {task : W} {empty : Prop} (ho : Outside st st') (hp : Parked st task empty) :
    Parked st' task empty := by
  intro hw
  obtain ⟨h₁, h₂⟩ := hp (fun h => hw (ho.woken task h))
  obtain ⟨h₃, h₄⟩ := ho.parks task hw h₁
  exact ⟨h₃, fun he => h₄.trans (h₂ he)⟩

omit [Target] in
theorem Inv.outside (hi : Inv st) (ho : Outside st st') (hc : st'.inner.Coherent)
    (issued : ∀ w ∈ st'.invoked, w < st'.wakers.length)
    (hv : ∀ k held, st'.inner.streams.lookup k = some held →
      st'.inner.HasEvent k ∨ Armed st' k held)
    (hh : ∀ w k, st.wakers[w]? = some k → w ∈ st'.invoked → w ∈ st.invoked ∨ st'.inner.HasEvent k) :
    Inv st' where
  coherent := hc
  issued := issued
  covered := hv
  inHand task n k held w h := by
    rw [ho.consumer] at h
    obtain ⟨h₁, h₂⟩ := hi.inHand task n k held w h
    refine ⟨by rw [ho.wakers, h₁], fun hw => ?_⟩
    cases hh w k h₁ hw with
    | inl h =>
      exact ho.events k (h₂ h)
    | inr h =>
      exact h
  idle task h := by
    rw [ho.consumer] at h
    exact ho.parked (hi.idle task h)
  returning task sw r h := by
    rw [ho.consumer] at h
    exact ho.parked (hi.returning task sw r h)

theorem Inv.insert (hi : Inv st) (k : K) (s : S) :
    Inv { st with
      inner := (st.inner.insert k ⟨s, none⟩).1
      woken := st.woken ++ (st.inner.insert k ⟨s, none⟩).2.toList } := by
  have hc : QueueInner.Coherent { st.inner with streams := st.inner.streams.insert k ⟨s, none⟩ } :=
    hi.coherent
  have he : ∀ k', st.inner.HasEvent k' → (st.inner.insert k ⟨s, none⟩).1.HasEvent k' :=
    fun k' h => QueueInner.HasEvent.pushReady (q := { st.inner with streams := _ }) h
  refine hi.outside ⟨rfl, rfl, he, ?_, ?_⟩ hc.pushReady hi.issued ?_ (fun w _ _ h => .inl h)
  · intro task h
    exact List.mem_append_left _ h
  · intro task h hw
    simp [QueueInner.insert, hw] at h
  · intro k' held h
    by_cases hk : k' = k
    · subst hk
      exact .inl (QueueInner.hasEvent_pushReady_self hc)
    · rw [QueueInner.insert, QueueInner.pushReady_streams, AList.lookup_insert_ne hk] at h
      exact (hi.covered k' held h).imp (he k') id

omit [Target] in
theorem Inv.remove (hi : Inv st) (k : K) : Inv { st with inner := st.inner.remove k } := by
  refine hi.outside ⟨rfl, rfl, fun k' h => h, fun task h => h, fun task _ h => ⟨h, rfl⟩⟩
    hi.coherent.remove hi.issued ?_ (fun w _ _ h => .inl h)
  intro k' held h
  by_cases hk : k' = k
  · subst hk
    simp [QueueInner.remove] at h
  · rw [QueueInner.remove, AList.lookup_erase_ne hk] at h
    exact hi.covered k' held h

omit [Target] in
theorem Inv.clear (hi : Inv st) (hidle : st.consumer = .idle last) :
    Inv { st with inner := st.inner.clear.1, woken := st.woken ++ st.inner.clear.2.toList } where
  coherent := by simp [QueueInner.clear, QueueInner.Coherent]
  issued := hi.issued
  covered := by simp [QueueInner.clear]
  inHand := by simp [hidle]
  idle task h hw := by
    obtain ⟨hk, -⟩ := hi.idle task h (fun h => hw (List.mem_append_left _ h))
    simp [QueueInner.clear, hk] at hw
  returning := by simp [hidle]

theorem Inv.wake (hi : Inv st) {w : Nat} {k : K} (hw : st.wakers[w]? = some k) :
    Inv { st with
      inner := (st.inner.wake k).1
      invoked := w :: st.invoked
      woken := st.woken ++ (st.inner.wake k).2.toList } := by
  have he : ∀ k', st.inner.HasEvent k' → (st.inner.wake k).1.HasEvent k' :=
    fun k' h => QueueInner.HasEvent.pushReady h
  have hself : (st.inner.wake k).1.HasEvent k := QueueInner.hasEvent_pushReady_self hi.coherent
  refine hi.outside ⟨rfl, rfl, he, ?_, ?_⟩ hi.coherent.pushReady ?_ ?_ ?_
  · intro task h
    exact List.mem_append_left _ h
  · intro task h ht
    simp [QueueInner.wake, ht] at h
  · intro w' h
    rcases List.mem_cons.mp h with rfl | h
    · exact (List.getElem?_eq_some_iff.mp hw).1
    · exact hi.issued w' h
  · intro k' held h
    have h' : st.inner.streams.lookup k' = some held := by
      simpa [QueueInner.wake] using h
    rcases hi.covered k' held h' with h₁ | ⟨w', hp, hk, hn⟩
    · exact .inl (he k' h₁)
    · -- the waker that was invoked is this stream's own, or another's
      by_cases hww : w' = w
      · subst hww
        obtain rfl : k' = k := by simpa [hw] using hk.symm
        exact .inl hself
      · exact .inr ⟨w', hp, hk, by simp [hww, hn]⟩
  · intro w' k' hk h
    rcases List.mem_cons.mp h with rfl | h
    · obtain rfl : k = k' := by simpa [hw] using hk
      exact .inr hself
    · exact .inl h

omit [Target] in
theorem Inv.pollNext (hi : Inv st) (task : W) (n : Nat) :
    Inv { st with inner := { st.inner with waker := some task }, consumer := .looping task n } where
  coherent := hi.coherent
  issued := hi.issued
  covered := hi.covered
  inHand := by simp
  idle := by simp
  returning := by simp

omit [Target] in
theorem Inv.pop_none (hi : Inv st) (e : ReadyEvent K) (task : W) (n : Nat) :
    Inv { st with
      inner := (QueueInner.take { st.inner with waker := some task } e).2
      consumer := .looping task n } where
  coherent := QueueInner.Coherent.take (q := { st.inner with waker := _ }) hi.coherent
  issued := hi.issued
  covered k held hk := by
    have hne : k ≠ e.key := by
      rintro rfl
      simp [QueueInner.take] at hk
    rw [QueueInner.take, AList.lookup_erase_ne hne] at hk
    exact (hi.covered k held hk).imp
      (fun h => QueueInner.HasEvent.take (q := { st.inner with waker := _ }) h hne) id
  inHand := by simp
  idle := by simp
  returning := by simp

omit [Target] in
theorem Inv.pop_some (hi : Inv st) (e : ReadyEvent K) (task : W) (n : Nat) (held : Held S) :
    Inv { st with
      inner := (QueueInner.take { st.inner with waker := some task } e).2
      consumer := .polling task n e.key held st.wakers.length
      wakers := st.wakers ++ [e.key] } where
  coherent := QueueInner.Coherent.take (q := { st.inner with waker := _ }) hi.coherent
  issued w hw := by
    have := hi.issued w hw
    simp
    omega
  covered k held hk := by
    have hne : k ≠ e.key := by
      rintro rfl
      simp [QueueInner.take] at hk
    rw [QueueInner.take, AList.lookup_erase_ne hne] at hk
    refine (hi.covered k held hk).imp
      (fun h => QueueInner.HasEvent.take (q := { st.inner with waker := _ }) h hne) ?_
    rintro ⟨w, hp, hw, hn⟩
    refine ⟨w, hp, ?_, hn⟩
    rw [List.getElem?_append_left (List.getElem?_eq_some_iff.mp hw).1, hw]
  inHand task' n' k' held' w' h := by
    obtain ⟨rfl, rfl, rfl, rfl, rfl⟩ := Consumer.polling.inj h
    refine ⟨by simp, fun hw => ?_⟩
    exact absurd (hi.issued _ hw) (Nat.lt_irrefl _)
  idle := by simp
  returning := by simp

omit [Target] in
theorem Inv.popNone (hi : Inv st) (task : W) (r : Poll (Option (K × T)))
    (he : st.inner.readyQueue = []) :
    Inv { st with
      inner := { st.inner with waker := some task }
      consumer := .idle (some (task, r))
      woken := [] } where
  coherent := hi.coherent
  issued := hi.issued
  covered := hi.covered
  inHand := by simp
  idle task' h _ := by
    obtain ⟨rfl, -⟩ : task = task' ∧ _ := by simpa using h
    exact ⟨rfl, fun _ => he⟩
  returning := by simp

omit [Target] in
theorem Inv.exit (hi : Inv st) (task : W) (r : Poll (Option (K × T))) :
    Inv { st with
      inner := { st.inner with waker := some task }
      consumer := .returning task (!st.inner.readyQueue.isEmpty) r
      woken := [] } where
  coherent := hi.coherent
  issued := hi.issued
  covered := hi.covered
  inHand := by simp
  idle := by simp
  returning task' sw r' h _ := by
    obtain ⟨rfl, rfl, -⟩ := Consumer.returning.inj h
    exact ⟨rfl, by simp⟩

omit [Target] in
theorem Inv.finish (hi : Inv st) {task : W} {sw : Bool} {r : Poll (Option (K × T))}
    (hc : st.consumer = .returning task sw r) :
    Inv { st with
      consumer := .idle (some (task, r))
      woken := if sw then st.woken ++ [task] else st.woken } where
  coherent := hi.coherent
  issued := hi.issued
  covered := hi.covered
  inHand := by simp
  idle task' h hw := by
    obtain ⟨rfl, -⟩ : task = task' ∧ _ := by simpa using h
    cases sw with
    | true => simp at hw
    | false =>
      obtain ⟨h₁, h₂⟩ := hi.returning task false r hc (by simpa using hw)
      exact ⟨h₁, fun _ => h₂ rfl⟩
  returning := by simp

theorem Inv.yield (hi : Inv st) (task : W) (k : K) (s : S) (r : T) :
    Inv { st with
      inner := (st.inner.putBack k ⟨s, none⟩).pushReady k
      consumer := .idle (some (task, .ready (some (k, r))))
      yielded := st.yielded ++ [(k, r)] } := by
  have hc : (st.inner.putBack k ⟨s, none⟩).Coherent := hi.coherent
  have hv : ∀ k' held, (st.inner.putBack k ⟨s, none⟩).streams.lookup k' = some held → k' ≠ k →
      ((st.inner.putBack k ⟨s, none⟩).pushReady k).HasEvent k' ∨ Armed st k' held := by
    intro k' held h hne
    rw [QueueInner.putBack, AList.lookup_insert_ne hne] at h
    exact (hi.covered k' held h).imp
      (fun h => QueueInner.HasEvent.pushReady (q := st.inner.putBack k ⟨s, none⟩) h) id
  refine ⟨hc.pushReady, hi.issued, ?_, by simp, by simp, by simp⟩
  intro k' held h
  by_cases hk : k' = k
  · subst hk
    exact .inl (QueueInner.hasEvent_pushReady_self hc)
  · exact hv k' held (by simpa using h) hk

omit [Target] in
theorem Inv.pending (hi : Inv st) {task : W} {n : Nat} {k : K} {held : Held S} {w : Nat}
    (hc : st.consumer = .polling task n k held w) (s : S) :
    Inv { st with
      inner := st.inner.putBack k ⟨s, some w⟩
      consumer := .looping task n } where
  coherent := hi.coherent
  issued := hi.issued
  covered k' held' h := by
    by_cases hk : k' = k
    · subst hk
      obtain ⟨hw, hn⟩ := hi.inHand task n k' held w hc
      obtain rfl : (⟨s, some w⟩ : Held S) = held' := by
        simpa [QueueInner.putBack] using h
      by_cases hin : w ∈ st.invoked
      · exact .inl (hn hin)
      · exact .inr ⟨w, rfl, hw, hin⟩
    · rw [QueueInner.putBack, AList.lookup_insert_ne hk] at h
      exact hi.covered k' held' h
  inHand := by simp
  idle := by simp
  returning := by simp

omit [Target] in
theorem Inv.looping (hi : Inv st) (task : W) (n : Nat) :
    Inv { st with consumer := .looping task n } :=
  ⟨hi.coherent, hi.issued, hi.covered, by simp, by simp, by simp⟩

omit [Target] in
theorem Inv.ended (hi : Inv st) (task : W) (n : Nat) (k : K) :
    Inv { st with consumer := .ended task n k } :=
  ⟨hi.coherent, hi.issued, hi.covered, by simp, by simp, by simp⟩

variable (block : Bool) (poll : S → E → Poll (Option T) × S)

theorem inv_next (hi : Inv st) {a : Action S K W E} (h : next block poll st a = some st') :
    Inv st' := by
  cases stepped h with
  | insert k s => exact hi.insert k s
  | remove k => exact hi.remove k
  | clear hc => exact hi.clear hc
  | wake hw => exact hi.wake hw
  | pollNext task hc => exact hi.pollNext task _
  | skip hc hg hl => exact hi.pop_none _ _ _
  | take hc hg hl => exact hi.pop_some _ _ _ _
  | popNone hc he => exact hi.popNone _ _ he
  | item hc hp => exact hi.yield _ _ _ _
  | ended hc hp => exact hi.ended _ _ _
  | pending hc hp => exact hi.pending hc _
  | resume hc => exact hi.looping _ _
  | exit hc => exact hi.exit _ _
  | finish hc => exact hi.finish hc

theorem Reachable.inv (h : (system block poll).Reachable st) : Inv st :=
  h.invariant (P := Inv) inv_init fun _ _ _ hi hn => inv_next block poll hi hn

/-- A pending `poll_next` whose task was not woken since its last section left
its waker and no event behind; a stream in the map has an event, or its last
poll was pending and left a waker that is still to be invoked. -/
theorem no_lost_wakeup (h : (system block poll).Reachable st) :
    (∀ task, st.consumer = .idle (some (task, .pending)) → task ∉ st.woken →
      st.inner.waker = some task ∧ st.inner.readyQueue = []) ∧
    (∀ k held, st.inner.streams.lookup k = some held →
      st.inner.HasEvent k ∨
        ∃ w, held.pendingWaker = some w ∧ st.wakers[w]? = some k ∧ w ∉ st.invoked) := by
  have hi := Reachable.inv block poll h
  refine ⟨fun task hc hw => ?_, hi.covered⟩
  obtain ⟨h₁, h₂⟩ := hi.idle task hc hw
  exact ⟨h₁, h₂ trivial⟩

def parkedRun : List (Action Unit Nat Nat Unit) :=
  [.insert 7 (), .pollNext 0, .pop ⟨0, 7⟩, .polled (), .exit, .finish]

omit [Target] in
theorem no_lost_wakeup_parked :
    letI := Target.x64
    ∃ st : State Unit Nat Nat Unit,
      (system false fun _ (_ : Unit) => (.pending, ())).run State.init parkedRun = some st ∧
      st.consumer = .idle (some (0, .pending)) ∧ st.inner.streams.lookup 7 = some ⟨(), some 0⟩ ∧
      st.inner.waker = some 0 ∧ st.inner.readyQueue = [] ∧
      (st.inner.HasEvent 7 ∨
        ∃ w, (⟨(), some 0⟩ : Held Unit).pendingWaker = some w ∧
          st.wakers[w]? = some 7 ∧ w ∉ st.invoked) := by
  let := Target.x64
  refine ⟨_, rfl, rfl, rfl, ?_⟩
  have h := no_lost_wakeup false (fun (_ : Unit) (_ : Unit) => ((.pending : Poll (Option Unit)), ()))
    ⟨parkedRun, rfl⟩
  obtain ⟨h₁, h₂⟩ := h.1 0 rfl (by decide)
  exact ⟨h₁, h₂, h.2 7 _ rfl⟩

end FairQueue

end ZmqRs
