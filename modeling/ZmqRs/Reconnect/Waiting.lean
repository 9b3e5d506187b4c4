import ZmqRs.FairQueue.Keys
import ZmqRs.Reconnect

/-! What a reconnect task waits for.  `peer_connected` comes first and the
notifier is registered after it, so a replay that fails in the one, or a
disconnect between the two, leaves the task with nothing to wait for. -/

namespace ZmqRs.Reconnect

open Codec (Poll)

variable {S W T E : Type} {st st' : State S W T}

def Pc.unregistered : Pc → Option PeerIdentity
  | .upserted p => some p
  | .connected p => some p
  | _ => none

def Settled (st : State S W T) (p : PeerIdentity) : Prop :=
  ∀ task ∈ st.tasks, task.accepted = false → task.pc.unregistered ≠ some p

instance (st : State S W T) (p : PeerIdentity) : Decidable (Settled st p) :=
  inferInstanceAs (Decidable (∀ task ∈ st.tasks, _))

def endedStream : FairQueue.Consumer S PeerIdentity W T → Option PeerIdentity
  | .ended _ _ p => some p
  | _ => none

/-- In a task that reconnects no replay fails, no peer is disconnected before its
notifier is registered, and no two tasks register for one peer. -/
def Meets (st : State S W T) : Action S W E → Prop
  | .replay i (some _) => ∀ task ∈ st.tasks[i]?, task.accepted = true
  | .register i => ∀ task ∈ st.tasks[i]?, ∀ p ∈ task.pc.unregistered,
    ∀ j ∈ st.backend.disconnectNotifiers.lookup p, j = i
  | .disconnect p => Settled st p
  | .callback => ∀ p ∈ endedStream st.queue.consumer, Settled st p
  | _ => True

instance (st : State S W T) (a : Action S W E) : Decidable (Meets st a) :=
  match a with
  | .replay i (some _) => inferInstanceAs (Decidable (∀ task ∈ st.tasks[i]?, task.accepted = true))
  | .register i =>
    inferInstanceAs (Decidable (∀ task ∈ st.tasks[i]?, ∀ p ∈ task.pc.unregistered,
      ∀ j ∈ st.backend.disconnectNotifiers.lookup p, j = i))
  | .disconnect p => inferInstanceAs (Decidable (Settled st p))
  | .callback =>
    inferInstanceAs (Decidable (∀ p ∈ endedStream st.queue.consumer, Settled st p))
  | .subscribe _ | .unsubscribe _ | .connect .. | .replay _ none | .upsert _ | .insert ..
  | .notified _ | .retryFailed _ | .reconnect .. | .shutdown _ | .queue _ => isTrue trivial

def Sound (st : State S W T) (i : Nat) (task : Task) : Prop :=
  match task.pc with
  | .upserted p => (st.backend.peers.lookup p).isSome
  | .connected p => (st.backend.peers.lookup p).isSome ∧ InQueue st.queue p
  | .waiting => (∃ notice ∈ st.backend.notices, notice.1 = i) ∨ Reportable st i task
  | _ => True

def Inv (st : State S W T) : Prop :=
  ∀ i task, st.tasks[i]? = some task → task.accepted = false → Sound st i task

theorem Sound.mono {i : Nat} {task : Task} (h : Sound st i task)
    (hp : ∀ p, (st.backend.peers.lookup p).isSome → (st'.backend.peers.lookup p).isSome)
    (hq : ∀ p, InQueue st.queue p → InQueue st'.queue p)
    (hn : ∀ p, st.backend.disconnectNotifiers.lookup p = some i →
      st'.backend.disconnectNotifiers.lookup p = some i)
    (ht : ∀ notice ∈ st.backend.notices, notice.1 = i → notice ∈ st'.backend.notices) :
    Sound st' i task := by
  rw [Sound] at h ⊢
  split at h
  · exact hp _ h
  · exact ⟨hp _ h.1, hq _ h.2⟩
  · rcases h with ⟨notice, hm, hi⟩ | ⟨p, hr, hl, hs, hk⟩
    · exact .inl ⟨notice, ht notice hm hi, hi⟩
    · exact .inr ⟨p, hr, hn p hl, hp p hs, hq p hk⟩
  · trivial

theorem Inv.set (hi : Inv st) {i : Nat} {new : Task} (ht : st'.tasks = st.tasks.set i new)
    (hmono : ∀ j task, j ≠ i → Sound st j task → Sound st' j task)
    (hnew : new.accepted = false → Sound st' i new) : Inv st' := by
  intro j task hj ha
  rw [ht] at hj
  by_cases h : i = j
  · subst h
    obtain ⟨hl, rfl⟩ := List.getElem?_eq_some_iff.mp hj
    rw [List.getElem_set_self] at ha ⊢
    exact hnew ha
  · rw [List.getElem?_set_ne h] at hj
    exact hmono j task (Ne.symm h) (hi j task hj ha)

section Queue

variable [Target] {poll : S → E → Poll (Option T) × S}
  {queue queue' : FairQueue.State S PeerIdentity W T}

omit [Target] in
theorem inQueue_iff {p : PeerIdentity} :
    InQueue queue p ↔ ((queue.stored p).isSome ∨ (queue.hand p).isSome) ∨
      endedStream queue.consumer = some p := by
  rw [InQueue, or_assoc]
  refine or_congr_right ?_
  cases hc : queue.consumer <;> simp [takenOut, endedStream, FairQueue.State.hand, hc]

theorem endedStream_next {a : FairQueue.Action S PeerIdentity W E} {p : PeerIdentity}
    (h : FairQueue.next true poll queue a = some queue') (he : a ≠ .resume)
    (hp : endedStream queue.consumer = some p) : endedStream queue'.consumer = some p := by
  have hk := FairQueue.consumerStep h
  generalize queue.consumer = consumer, queue'.consumer = consumer' at hk hp ⊢
  cases hk with
  | other => exact hp
  | resume _ _ _ ha => exact absurd ha he
  | _ => cases hp

theorem endedStream_polled {env : E} {p : PeerIdentity} {held : FairQueue.Held S}
    (h : FairQueue.next true poll queue (.polled env) = some queue')
    (hh : queue.hand p = some held) (hp : (poll held.stream env).1 = .ready none) :
    endedStream queue'.consumer = some p := by
  have hk := FairQueue.consumerStep h
  rw [FairQueue.State.hand] at hh
  generalize queue.consumer = consumer, queue'.consumer = consumer' at hk hh ⊢
  cases hk with
  | other _ ha => simp at ha
  | item _ _ k held' _ _ t ha hp' => grind
  | ended _ _ k held' _ _ ha hp' => grind [endedStream]
  | pending _ _ k held' _ _ ha hp' => grind
  | _ => cases hh

theorem inQueue_next {a : FairQueue.Action S PeerIdentity W E} {p : PeerIdentity}
    (h : FairQueue.next true poll queue a = some queue') (hr : a ≠ .remove p) (hc : a ≠ .clear)
    (he : a ≠ .resume) (hq : InQueue queue p) : InQueue queue' p := by
  rw [inQueue_iff] at hq ⊢
  rcases hq with hq | hq
  · have hk := FairQueue.keyStep h p
    generalize queue'.stored p = stored, queue'.hand p = hand at hk ⊢
    cases hk with
    | same => exact .inl hq
    | insert => exact .inl (.inl rfl)
    | remove ha => exact absurd ha (not_or.mpr ⟨hr, hc⟩)
    | take => exact .inl (.inr rfl)
    | putBack => exact .inl (.inl rfl)
    | ended env held ha hh hp =>
      subst ha
      exact .inr (endedStream_polled h hh hp)
  · exact .inr (endedStream_next h he hq)

end Queue

namespace Inv

theorem setPc (hi : Inv st) (i : Nat) (task : Task) {pc : Pc}
    (hnew : task.accepted = false → Sound st i { task with pc := pc }) :
    Inv (st.setPc i task pc) :=
  hi.set rfl (fun _ _ _ h => h) hnew

theorem connect (hi : Inv st) {task : Task} (h : ∀ i, Sound st i task) :
    Inv { st with tasks := st.tasks ++ [task] } := by
  intro j task' hj ha
  cases Nat.lt_or_ge j st.tasks.length with
  | inl hl =>
    rw [List.getElem?_append_left hl] at hj
    exact hi j task' hj ha
  | inr hl =>
    obtain rfl := List.mem_singleton.mp (List.mem_of_getElem? (List.getElem?_append_right hl ▸ hj))
    exact h j

theorem upsert (hi : Inv st) {i : Nat} {task : Task} (p : PeerIdentity) (sendQueue : Wire) :
    Inv ({ st with backend := st.backend.insertPeer p sendQueue }.setPc i task (.upserted p)) := by
  have hp : ∀ q, (st.backend.peers.lookup q).isSome →
      ((st.backend.peers.insert p st.backend.wires.length).lookup q).isSome := by
    intro q hq
    by_cases h : q = p
    · subst h
      simp
    · rwa [AList.lookup_insert_ne h]
  refine hi.set rfl (fun j task _ h => ?_) fun _ => ?_
  · exact h.mono hp (fun _ h => h) (fun _ h => h) fun _ h _ => h
  · change ((st.backend.peers.insert p _).lookup p).isSome
    simp

theorem register (hi : Inv st) {i : Nat} {p : PeerIdentity} {registered : Option PeerIdentity}
    (ht : st.tasks[i]? = some ⟨.connected p, registered, false⟩)
    (hm : ∀ j ∈ st.backend.disconnectNotifiers.lookup p, j = i) :
    Inv { st with
      backend := st.backend.registerDisconnectNotifier p i
      tasks := st.tasks.set i ⟨.waiting, some p, false⟩ } := by
  obtain ⟨hp, hq⟩ : Sound st i _ := hi i _ ht rfl
  refine hi.set rfl (fun j task hj h => ?_) fun _ => ?_
  · refine h.mono (fun _ h => h) (fun _ h => h) (fun q hl => ?_) fun _ h _ => h
    have hne : q ≠ p := by
      rintro rfl
      exact hj (hm j hl)
    exact (AList.lookup_insert_ne hne).trans hl
  · exact .inr ⟨p, rfl, AList.lookup_insert _, hp, hq⟩

theorem notified (hi : Inv st) {i : Nat} (task : Task) {notice : Nat × PeerIdentity}
    (hn : notice.1 = i) :
    Inv ({ st with
      backend := { st.backend with notices := st.backend.notices.erase notice } }.setPc i
        task .retrying) := by
  refine hi.set rfl (fun j task hj h => ?_) fun _ => trivial
  refine h.mono (fun _ h => h) (fun _ h => h) (fun _ h => h) fun notice' h hj' => ?_
  have hne : notice' ≠ notice := by
    rintro rfl
    exact hj (hj'.symm.trans hn)
  exact (List.mem_erase_of_ne hne).mpr h

theorem disconnect (hi : Inv st) {p : PeerIdentity} (hs : Settled st p)
    {queue : FairQueue.State S PeerIdentity W T}
    (hq : ∀ q ≠ p, InQueue st.queue q → InQueue queue q) :
    Inv { st.peerDisconnected p with queue := queue } := by
  intro j task hj ha
  have h := hi j task hj ha
  have hu := hs task (List.mem_of_getElem? hj) ha
  have hp : ∀ q ≠ p, (st.backend.peers.lookup q).isSome →
      ((st.backend.peers.erase p).lookup q).isSome := by
    intro q hne h
    rwa [AList.lookup_erase_ne hne]
  rw [Sound] at h ⊢
  split at h
  · rename_i q hpc
    have hne : q ≠ p := by simpa [hpc, Pc.unregistered] using hu
    exact hp q hne h
  · rename_i q hpc
    have hne : q ≠ p := by simpa [hpc, Pc.unregistered] using hu
    exact ⟨hp q hne h.1, hq q hne h.2⟩
  · rcases h with ⟨notice, hm, hn⟩ | ⟨q, hr, hl, hs, hk⟩
    · exact .inl ⟨notice, List.mem_append_left _ hm, hn⟩
    · by_cases hne : q = p
      · subst hne
        refine .inl ⟨(j, q), List.mem_append_right _ ?_, rfl⟩
        simp [hl]
      · exact .inr ⟨q, hr, (AList.lookup_erase_ne hne).trans hl, hp q hne hs, hq q hne hk⟩
  · trivial

end Inv

theorem inv_init [Target] : Inv (State.init : State S W T) := by
  intro i task h
  simp [State.init] at h

variable [Target] {poll : S → E → Poll (Option T) × S}

theorem Inv.insert (hi : Inv st) {i : Nat} {p : PeerIdentity} {registered : Option PeerIdentity}
    {accepted : Bool} (ht : st.tasks[i]? = some ⟨.upserted p, registered, accepted⟩)
    {recvQueue : S} {queue : FairQueue.State S PeerIdentity W T}
    (hq : FairQueue.next true poll st.queue (.insert p recvQueue) = some queue) :
    Inv ({ st with queue := queue }.setPc i ⟨.upserted p, registered, accepted⟩
      (.connected p)) := by
  refine hi.set rfl (fun j task _ h => ?_) fun ha => ?_
  · refine h.mono (fun _ h => h) (fun q hin => ?_) (fun _ h => h) fun _ h _ => h
    exact inQueue_next hq (by simp) (by simp) (by simp) hin
  · have hp : Sound st i _ := hi i _ ht ha
    cases hq
    refine ⟨hp, .inl ?_⟩
    change ((st.queue.inner.insert p ⟨recvQueue, none⟩).1.streams.lookup p).isSome
    simp [QueueInner.insert]

theorem inv_queue (hi : Inv st) {a : FairQueue.Action S PeerIdentity W E}
    (h : next poll st (.queue a) = some st') : Inv st' := by
  have hstep : (∀ p, a ≠ .remove p) → a ≠ .clear → a ≠ .resume →
      (FairQueue.next true poll st.queue a).map (fun queue => { st with queue := queue }) =
        some st' → Inv st' := by
    intro hr hc he h
    obtain ⟨queue, hq, rfl⟩ := Option.map_eq_some_iff.mp h
    intro j task hj ha
    refine (hi j task hj ha).mono (fun _ h => h) (fun p hp => ?_) (fun _ h => h) fun _ h _ => h
    exact inQueue_next hq (hr p) hc he hp
  cases a with
  | insert => cases h
  | remove => cases h
  | clear => cases h
  | resume => cases h
  | wake w => exact hstep (by simp) (by simp) (by simp) h
  | pollNext task => exact hstep (by simp) (by simp) (by simp) h
  | pop e => exact hstep (by simp) (by simp) (by simp) h
  | popNone => exact hstep (by simp) (by simp) (by simp) h
  | polled env => exact hstep (by simp) (by simp) (by simp) h
  | exit => exact hstep (by simp) (by simp) (by simp) h
  | finish => exact hstep (by simp) (by simp) (by simp) h

theorem inv_next (hi : Inv st) {a : Action S W E} (hm : Meets st a)
    (h : next poll st a = some st') : Inv st' := by
  cases a with
  | subscribe t =>
    cases h
    exact hi
  | unsubscribe t =>
    cases h
    exact hi
  | connect accepted p order =>
    simp only [next] at h
    split at h
    · cases h
      exact hi.connect fun _ => trivial
    · cases h
  | replay i failure =>
    simp only [next] at h
    split at h
    · rename_i ht
      cases failure with
      | some e =>
        cases h
        refine hi.setPc i _ fun ha => ?_
        exact absurd (hm _ ht) (by simpa using ha)
      | none =>
        cases h
        exact hi.setPc i _ fun _ => trivial
    · cases h
  | upsert i =>
    simp only [next] at h
    split at h
    · cases h
      exact hi.upsert _ _
    · cases h
  | insert i recvQueue =>
    simp only [next] at h
    split at h
    · rename_i ht
      obtain ⟨queue, hq, rfl⟩ := Option.map_eq_some_iff.mp h
      exact hi.insert ht hq
    · cases h
  | register i =>
    simp only [next] at h
    split at h
    · rename_i ht
      cases h
      exact hi.register ht (hm _ ht _ rfl)
    · cases h
  | notified i =>
    simp only [next] at h
    split at h
    · obtain ⟨notice, hn, rfl⟩ := Option.map_eq_some_iff.mp h
      exact hi.notified _ (by simpa using List.find?_some hn)
    · cases h
  | retryFailed i =>
    simp only [next] at h
    split at h
    · cases h
      exact hi
    · cases h
  | reconnect i p order =>
    simp only [next] at h
    split at h
    · split at h
      · cases h
        exact hi.setPc i _ fun _ => trivial
      · cases h
    · cases h
  | shutdown i =>
    simp only [next] at h
    split at h
    · cases h
      exact hi.setPc i _ fun _ => trivial
    · cases h
      exact hi.setPc i _ fun _ => trivial
    · cases h
  | disconnect p =>
    cases h
    refine hi.disconnect hm fun q hne => ?_
    have hr : FairQueue.next true poll st.queue (.remove p) =
        some { st.queue with inner := st.queue.inner.remove p } := rfl
    exact inQueue_next hr (by simpa using Ne.symm hne) (by simp) (by simp)
  | callback =>
    simp only [next] at h
    split at h
    · rename_i p hc
      obtain ⟨queue, hq, rfl⟩ := Option.map_eq_some_iff.mp h
      refine hi.disconnect (hm p (by rw [hc]; rfl)) fun q hne hin => ?_
      simp only [FairQueue.next, State.peerDisconnected, hc] at hq
      cases hq
      have hin : (st.queue.inner.streams.lookup q).isSome := by
        simpa [InQueue, hc, takenOut, Ne.symm hne] using hin
      exact .inl (by simpa [QueueInner.remove, AList.lookup_erase_ne hne] using hin)
    · cases h
  | queue a => exact inv_queue hi h

/-- In the runs that meet the condition a task that waits, with no notification
queued, waits for a disconnect that can still be reported. -/
theorem waiting_reportable (h : ((system poll).guarded Meets).Reachable st) {i : Nat} {task : Task}
    (ht : st.tasks[i]? = some task) (ha : task.accepted = false) (hw : task.pc = .waiting)
    (hn : ∀ notice ∈ st.backend.notices, notice.1 ≠ i) : Reportable st i task := by
  have hi : Inv st := h.invariant_guarded inv_init fun _ _ _ hm hi => inv_next hi hm
  have hs := hi i task ht ha
  rw [Sound, hw] at hs
  rcases hs with ⟨notice, hm, hi⟩ | hs
  · exact absurd hi (hn notice hm)
  · exact hs

section Example

omit [Target]

def peerA : PeerIdentity := .ofByte 1

def peerB : PeerIdentity := .ofByte 2

def reconnectRun : List (Action Unit Unit Unit) :=
  [.connect false peerA [], .upsert 0, .insert 0 (), .register 0, .disconnect peerA, .notified 0,
    .reconnect 0 peerB [], .upsert 0, .insert 0 ()]

def endOfB : List (Action Unit Unit Unit) :=
  [.queue (.pollNext ()), .queue (.pop ⟨0, peerA⟩), .queue (.pop ⟨1, peerB⟩), .queue (.polled ()),
    .callback]

def ends : Unit → Unit → Poll (Option Unit) × Unit := fun _ _ => (.ready none, ())

theorem waiting_reportable_reconnected :
    letI := Target.x64
    ∃ st : State Unit Unit Unit,
      ((system ends).guarded Meets).run State.init (reconnectRun ++ [.register 0]) = some st ∧
      st.tasks[0]? = some ⟨.waiting, some peerB, false⟩ ∧
      (∀ notice ∈ st.backend.notices, notice.1 ≠ 0) ∧
      Reportable st 0 ⟨.waiting, some peerB, false⟩ := by
  let _ := Target.x64
  refine ⟨_, rfl, rfl, by decide, ?_⟩
  have h : ((system ends).guarded Meets).Reachable _ := ⟨reconnectRun ++ [.register 0], rfl⟩
  exact waiting_reportable h rfl rfl rfl (by decide)

/-- The replay of a subscription fails, or the stream ends before the notifier is
registered: the task then waits for a peer that is gone. -/
theorem waiting_forever :
    letI := Target.x64
    (∃ st : State Unit Unit Unit,
      (system ends).run State.init
        [.subscribe [97], .connect false peerA [[97]],
          .replay 0 (some (.io ⟨.brokenPipe, ""⟩)), .register 0] = some st ∧
      st.tasks[0]? = some ⟨.waiting, some peerA, false⟩ ∧ st.backend.notices = [] ∧
      st.backend.peers.lookup peerA = none ∧
      ¬ Reportable st 0 ⟨.waiting, some peerA, false⟩) ∧
    ∃ st : State Unit Unit Unit,
      (system ends).run State.init (reconnectRun ++ endOfB ++ [.register 0]) = some st ∧
      st.tasks[0]? = some ⟨.waiting, some peerB, false⟩ ∧ st.backend.notices = [] ∧
      st.backend.peers.lookup peerB = none ∧
      ¬ Reportable st 0 ⟨.waiting, some peerB, false⟩ := by
  let _ := Target.x64
  have hnot : ∀ {st : State Unit Unit Unit} {i : Nat} {p : PeerIdentity},
      st.backend.peers.lookup p = none → ¬ Reportable st i ⟨.waiting, some p, false⟩ := by
    rintro st i p hp ⟨q, hr, -, hs, -⟩
    obtain rfl : p = q := Option.some.inj hr
    simp [hp] at hs
  refine ⟨⟨_, rfl, rfl, rfl, rfl, hnot rfl⟩, ⟨_, rfl, rfl, rfl, rfl, hnot rfl⟩⟩

end Example

end ZmqRs.Reconnect
