import ZmqRs.Backend.Tasks
import ZmqRs.FairQueue.Keys

/-! An identity that connects again.  `peer_disconnected` knows a connection by its
identity only, and an old stream may be out for polling, so the end of the old
connection can tear down the new one. -/

namespace ZmqRs.Tasks

open Codec (Message Poll)

variable {W : Type}

def inHand (st : State W) : Option (PeerIdentity × Sender) :=
  match st.queue.consumer with
  | .polling _ _ p held _ => some (p, held.stream)
  | _ => none

/-- When an identity connects, no `peer_disconnected` is due or running for an earlier
connection of it.  A replaced connection does not refresh the cache, fail to write,
end, give an error or close its queue to a sender; and a stream is inserted only while
none of its identity is out for polling and no newer one was inserted. -/
def Meets (st : State W) : Action W → Prop
  | .connect p => ∀ d ∈ st.disconnects, st.owners[d.cause]? ≠ some p
  | .refresh c => ¬ Replaced st c
  | .insert c =>
    (∀ h ∈ inHand st, st.owners[h.2]? ≠ st.owners[c]?) ∧
      ∀ c' < st.owners.length, c < c' → st.owners[c']? = st.owners[c]? →
        st.stages[c']? ≠ some .done
  | .sendCached _ => ∀ single ∈ st.backend.singlePeer,
    st.backend.channels.isClosed single.sendQueue → ¬ Replaced st single.sendQueue
  | .resume j => ∀ s ∈ st.sends[j]?,
    st.backend.channels.isClosed s.sender → ¬ Replaced st s.sender
  | .fail c => ¬ Replaced st c
  | .queue (.polled outcome) => outcome = .error ∨ outcome = .ended →
    ∀ h ∈ inHand st, ¬ Replaced st h.2
  | _ => True

instance (st : State W) (a : Action W) : Decidable (Meets st a) :=
  match a with
  | .connect p => inferInstanceAs (Decidable (∀ d ∈ st.disconnects, st.owners[d.cause]? ≠ some p))
  | .refresh c | .fail c => inferInstanceAs (Decidable (¬ Replaced st c))
  | .insert c =>
    inferInstanceAs (Decidable ((∀ h ∈ inHand st, st.owners[h.2]? ≠ st.owners[c]?) ∧
      ∀ c' < st.owners.length, c < c' → st.owners[c']? = st.owners[c]? →
        st.stages[c']? ≠ some .done))
  | .sendCached _ =>
    inferInstanceAs (Decidable (∀ single ∈ st.backend.singlePeer,
      st.backend.channels.isClosed single.sendQueue → ¬ Replaced st single.sendQueue))
  | .resume j =>
    inferInstanceAs (Decidable (∀ s ∈ st.sends[j]?,
      st.backend.channels.isClosed s.sender → ¬ Replaced st s.sender))
  | .queue (.polled outcome) =>
    inferInstanceAs (Decidable (outcome = .error ∨ outcome = .ended →
      ∀ h ∈ inHand st, ¬ Replaced st h.2))
  | .spawn _ | .send _ _ | .sendFull _ | .take _ | .flush _ | .finish _
  | .disconnect _ | .queue (.insert _ _) | .queue (.remove _) | .queue .clear | .queue (.wake _)
  | .queue (.pollNext _) | .queue (.pop _) | .queue .popNone | .queue .resume | .queue .exit
  | .queue .finish => isTrue trivial

structure Newest (st : State W) (p : PeerIdentity) (c : Sender) : Prop where
  owner : st.owners[c]? = some p
  done : st.stages[c]? = some .done
  newer : ∀ c', c < c' → st.owners[c']? = some p → st.stages[c']? ≠ some .done

structure Inv (st : State W) : Prop where
  size : st.backend.channels.length = st.owners.length
  stages : st.stages.length = st.owners.length
  entry : ∀ p c, st.backend.peers.lookup p = some c →
    st.owners[c]? = some p ∧ ¬ Replaced st c
  calls : ∀ d ∈ st.disconnects, ¬ Replaced st d.cause
  stream : ∀ p held, st.queue.inner.streams.lookup p = some held → Newest st p held.stream
  hand : ∀ p c, inHand st = some (p, c) → Newest st p c

variable {st st' : State W}

theorem Newest.setQueue {p : PeerIdentity} {c : Sender} (h : Newest st p c)
    (q : FairQueue.State Sender PeerIdentity W (Sender × Bool)) :
    Newest { st with queue := q } p c :=
  ⟨h.owner, h.done, h.newer⟩

theorem replaced_congr (h : st'.owners = st.owners) {c : Sender} :
    Replaced st' c ↔ Replaced st c := by
  rw [Replaced, Replaced, h]

theorem Inv.step (hi : Inv st) (ho : st'.owners = st.owners)
    (hs : st'.backend.channels.length = st.backend.channels.length)
    (hl : st'.stages.length = st.stages.length)
    (hd : ∀ c : Sender, st'.stages[c]? = some Stage.done ↔ st.stages[c]? = some Stage.done)
    (hp : ∀ p c, st'.backend.peers.lookup p = some c → st.backend.peers.lookup p = some c)
    (hc : ∀ d ∈ st'.disconnects, ¬ Replaced st d.cause)
    (hq : ∀ p held, st'.queue.inner.streams.lookup p = some held → Newest st p held.stream)
    (hh : ∀ p c, inHand st' = some (p, c) → Newest st p c) : Inv st' := by
  have hnew : ∀ {p c}, Newest st p c → Newest st' p c := by
    intro p c h
    refine ⟨by rw [ho, h.owner], (hd c).mpr h.done, fun c' hlt hc' => ?_⟩
    rw [ho] at hc'
    exact fun hn => h.newer c' hlt hc' ((hd c').mp hn)
  refine ⟨by rw [hs, hi.size, ho], by rw [hl, hi.stages, ho], ?_, ?_, ?_, ?_⟩
  · intro p c h
    rw [ho, replaced_congr ho]
    exact hi.entry p c (hp p c h)
  · intro d h
    rw [replaced_congr ho]
    exact hc d h
  · exact fun p held h => hnew (hq p held h)
  · exact fun p c h => hnew (hh p c h)

theorem Inv.channels (hi : Inv st) {channels : Channels}
    (hs : channels.length = st.backend.channels.length) (writers : List Writer)
    (sends : List WaitingSend) :
    Inv { st.setChannels channels with writers := writers, sends := sends } :=
  hi.step rfl hs rfl (fun _ => Iff.rfl) (fun _ _ h => h) hi.calls hi.stream hi.hand

theorem replaced_connect {p : PeerIdentity} {c : Sender} (ho : st'.owners = st.owners ++ [p])
    (h : Replaced st' c) : Replaced st c ∨ st.owners[c]? = some p := by
  obtain ⟨-, c', hc', hlt, he⟩ := h
  rw [ho, List.length_append, List.length_singleton] at hc'
  have hcl : c < st.owners.length := Nat.lt_of_lt_of_le hlt (Nat.le_of_lt_succ hc')
  rw [ho, List.getElem?_append_left hcl] at he
  by_cases hl : c' < st.owners.length
  · rw [List.getElem?_append_left hl] at he
    exact .inl ⟨hcl, c', hl, hlt, he⟩
  · obtain rfl : c' = st.owners.length := by omega
    exact .inr (by simpa using he.symm)

theorem Inv.connect (hi : Inv st) {p : PeerIdentity} (hm : Meets st (.connect p)) :
    Inv { st with
      backend := st.backend.upsertPeer p
      owners := st.owners ++ [p]
      stages := st.stages ++ [.upserted]
      writers := st.writers ++ [.unborn] } := by
  have hstage : ∀ {c}, c < st.owners.length → (st.stages ++ [Stage.upserted])[c]? = st.stages[c]? :=
    fun hc => List.getElem?_append_left (hi.stages ▸ hc)
  have hnew : ∀ {q c}, Newest st q c →
      Newest { st with
        backend := st.backend.upsertPeer p
        owners := st.owners ++ [p]
        stages := st.stages ++ [.upserted]
        writers := st.writers ++ [.unborn] } q c := by
    intro q c h
    have hc := (List.getElem?_eq_some_iff.mp h.owner).1
    refine ⟨(List.getElem?_append_left hc).trans h.owner, (hstage hc).trans h.done, ?_⟩
    intro c' hlt ho hd
    by_cases hc' : c' < st.owners.length
    · rw [List.getElem?_append_left hc'] at ho
      exact h.newer c' hlt ho ((hstage hc').symm.trans hd)
    · have hl := (List.getElem?_eq_some_iff.mp hd).1
      rw [List.length_append, List.length_singleton, hi.stages] at hl
      obtain rfl : c' = st.stages.length := by
        rw [hi.stages]
        exact Nat.le_antisymm (Nat.le_of_lt_succ hl) (Nat.not_lt.mp hc')
      simp at hd
  refine ⟨?_, ?_, ?_, ?_, ?_, ?_⟩
  · simp [GenericSocketBackend.upsertPeer, hi.size]
  · simp [hi.stages]
  · intro q c h
    rw [GenericSocketBackend.upsertPeer] at h
    by_cases hq : q = p
    · subst hq
      obtain rfl : st.backend.channels.length = c := by simpa using h
      refine ⟨by simp [hi.size], fun hr => ?_⟩
      obtain ⟨-, c', hc', hlt, -⟩ := hr
      simp only [List.length_append, List.length_singleton] at hc'
      rw [hi.size] at hlt
      exact absurd hlt (Nat.not_lt.mpr (Nat.le_of_lt_succ hc'))
    · rw [AList.lookup_insert_ne hq] at h
      obtain ⟨ho, hn⟩ := hi.entry q c h
      have hl := (List.getElem?_eq_some_iff.mp ho).1
      refine ⟨by rw [List.getElem?_append_left hl, ho], fun hr => ?_⟩
      rcases replaced_connect rfl hr with hr | hr
      · exact hn hr
      · rw [ho, Option.some.injEq] at hr
        exact hq hr
  · intro d hd hr
    rcases replaced_connect rfl hr with hr | hr
    · exact hi.calls d hd hr
    · exact hm d hd hr
  · exact fun q held h => hnew (hi.stream q held h)
  · exact fun q c h => hnew (hi.hand q c h)

theorem Inv.advance (hi : Inv st) {c : Sender} {s s' : Stage} (hs : st.stages[c]? = some s)
    (hn : s ≠ .done) (hn' : s' ≠ .done) (singlePeer : Option SinglePeer) (peerCount : Nat)
    (roundRobin : List PeerIdentity) (writers : List Writer) :
    Inv { st with
      backend := { st.backend with
        singlePeer := singlePeer, peerCount := peerCount, roundRobin := roundRobin }
      stages := st.stages.set c s'
      writers := writers } := by
  refine hi.step rfl rfl List.length_set (fun c' => ?_) (fun _ _ h => h) hi.calls hi.stream hi.hand
  by_cases hc : c = c'
  · subst hc
    have hl := (List.getElem?_eq_some_iff.mp hs).1
    rw [List.getElem?_set_self hl, hs, Option.some.injEq, Option.some.injEq]
    exact iff_of_false hn' hn
  · rw [List.getElem?_set_ne hc]

theorem Inv.disconnecting (hi : Inv st) (p : PeerIdentity) {c : Sender} (hn : ¬ Replaced st c) :
    Inv (st.disconnecting p c) := by
  refine hi.step rfl rfl rfl (fun _ => Iff.rfl) (fun _ _ h => h) (fun d hd => ?_) hi.stream hi.hand
  cases List.mem_append.mp hd with
  | inl hd => exact hi.calls d hd
  | inr hd =>
    rw [List.mem_singleton.mp hd]
    exact hn

theorem Inv.sendOn (hi : Inv st) (p : PeerIdentity) {c : Sender}
    (hn : st.backend.channels.isClosed c → ¬ Replaced st c) (m : Message) :
    Inv (st.sendOn p c m) := by
  rw [State.sendOn]
  split
  · rename_i hc
    exact hi.disconnecting p (hn hc)
  · exact hi.channels (List.length_modify _ _ _) st.writers st.sends

theorem Inv.disconnects (hi : Inv st) {ds : List Disconnect}
    (hc : ∀ d ∈ ds, ¬ Replaced st d.cause) (singlePeer : Option SinglePeer) (peerCount : Nat) :
    Inv { st with
      backend := { st.backend with singlePeer := singlePeer, peerCount := peerCount }
      disconnects := ds } :=
  hi.step rfl rfl rfl (fun _ => Iff.rfl) (fun _ _ h => h) hc hi.stream hi.hand

theorem Inv.calls_set (hi : Inv st) {i : Nat} {d : Disconnect} (hd : st.disconnects[i]? = some d)
    (todo : Todo) : ∀ e ∈ st.disconnects.set i { d with todo := todo }, ¬ Replaced st e.cause := by
  intro e he
  rcases List.mem_or_eq_of_mem_set he with he | rfl
  · exact hi.calls e he
  · exact hi.calls d (List.mem_of_getElem? hd)

theorem Inv.removePeer (hi : Inv st) (p : PeerIdentity) :
    Inv { st with backend := st.backend.removePeer p } := by
  refine hi.step rfl rfl rfl (fun _ => Iff.rfl) (fun q c h => ?_) hi.calls hi.stream hi.hand
  rw [GenericSocketBackend.removePeer] at h
  by_cases hp : q = p
  · subst hp
    simp at h
  · rwa [AList.lookup_erase_ne hp] at h

theorem Inv.setQueue (hi : Inv st) (q : FairQueue.State Sender PeerIdentity W (Sender × Bool))
    (hq : ∀ p held, q.inner.streams.lookup p = some held → Newest st p held.stream)
    (hh : ∀ p c, inHand { st with queue := q } = some (p, c) → Newest st p c) :
    Inv { st with queue := q } :=
  hi.step rfl rfl rfl (fun _ => Iff.rfl) (fun _ _ h => h) hi.calls hq hh

theorem inHand_of_hand {p : PeerIdentity} {held : FairQueue.Held Sender}
    (h : st.queue.hand p = some held) : inHand st = some (p, held.stream) := by
  rw [FairQueue.State.hand] at h
  split at h
  · rename_i hc
    obtain ⟨rfl, rfl⟩ : _ = p ∧ _ = held := by simpa using h
    rw [inHand, hc]
  · cases h

theorem hand_of_inHand {p : PeerIdentity} {c : Sender} (h : inHand st = some (p, c)) :
    ∃ held, st.queue.hand p = some held ∧ held.stream = c := by
  rw [inHand] at h
  split at h
  · rename_i held _ hc
    cases h
    exact ⟨held, by rw [FairQueue.State.hand, hc]; exact if_pos rfl, rfl⟩
  · cases h

theorem poll_stream (c : Sender) (outcome : Outcome) : (poll c outcome).2 = c := by
  cases outcome <;> rfl

theorem inv_init : Inv (State.init : State W) where
  size := rfl
  stages := rfl
  entry := by simp [State.init, GenericSocketBackend.withOptions]
  calls := by simp [State.init]
  stream := by simp [State.init, FairQueue.State.init, QueueInner.new]
  hand := by simp [State.init, inHand, FairQueue.State.init]

def KeepsNewer (st st' : State W) (c : Sender) : Prop :=
  ∀ c' p, c < c' → st.owners[c]? = some p → st.owners[c']? = some p →
    (st.backend.peers.lookup p = some c' → st'.backend.peers.lookup p = some c') ∧
    (st.backend.singlePeer = some ⟨p, c'⟩ → st'.backend.singlePeer = some ⟨p, c'⟩) ∧
    ((st.queue.inner.streams.lookup p).map FairQueue.Held.stream = some c' →
      (st'.queue.inner.streams.lookup p).map FairQueue.Held.stream = some c')

theorem Inv.keepsNewer_polled (hi : Inv st) {p : PeerIdentity} {c : Sender}
    (hh : inHand st = some (p, c)) (hp : st'.backend.peers = st.backend.peers)
    (hs : st'.backend.singlePeer = st.backend.singlePeer) : KeepsNewer st st' c := by
  intro c' q hlt ho ho'
  have hn := hi.hand p c hh
  obtain rfl : p = q := Option.some.inj (hn.owner.symm.trans ho)
  refine ⟨fun h => by rw [hp, h], fun h => by rw [hs, h], fun h => ?_⟩
  obtain ⟨held, hl, rfl⟩ := Option.map_eq_some_iff.mp h
  exact absurd (hi.stream p held hl).done (hn.newer held.stream hlt ho')

theorem KeepsNewer.of_eq {c : Sender} (hp : st'.backend.peers = st.backend.peers)
    (hs : st'.backend.singlePeer = st.backend.singlePeer)
    (hq : st'.queue.inner.streams = st.queue.inner.streams) : KeepsNewer st st' c :=
  fun _ _ _ _ _ => ⟨fun h => by rw [hp, h], fun h => by rw [hs, h], fun h => by rw [hq, h]⟩

variable [Target]

theorem Inv.insert (hi : Inv st) {c : Sender} {p : PeerIdentity}
    (hs : st.stages[c]? = some .spawned) (ho : st.owners[c]? = some p)
    (hm : Meets st (.insert c))
    (h : { st with stages := st.stages.set c .done }.queueNext (.insert p c) = some st') :
    Inv st' := by
  cases h
  have hl := (List.getElem?_eq_some_iff.mp hs).1
  have hdone : ∀ {c' : Sender}, st.stages[c']? = some .done →
      (st.stages.set c .done)[c']? = some .done := by
    intro c' h
    by_cases hc : c = c'
    · subst hc
      exact List.getElem?_set_self hl
    · exact (List.getElem?_set_ne hc).trans h
  have hc : Newest { st with stages := st.stages.set c .done } p c := by
    refine ⟨ho, List.getElem?_set_self hl, fun c' hlt ho' hd => ?_⟩
    have hl' := (List.getElem?_eq_some_iff.mp ho').1
    rw [List.getElem?_set_ne (Nat.ne_of_lt hlt)] at hd
    exact hm.2 c' hl' hlt (ho'.trans ho.symm) hd
  have hother : ∀ {q c'}, q ≠ p → Newest st q c' →
      Newest { st with stages := st.stages.set c .done } q c' := by
    intro q c' hq h
    refine ⟨h.owner, hdone h.done, fun c'' hlt ho'' hd => ?_⟩
    have hne : c ≠ c'' := by
      rintro rfl
      exact hq (Option.some.inj (ho''.symm.trans ho))
    exact h.newer c'' hlt ho'' ((List.getElem?_set_ne hne).symm.trans hd)
  refine ⟨hi.size, List.length_set.trans hi.stages, hi.entry, hi.calls, ?_, ?_⟩
  · intro q held h
    by_cases hq : q = p
    · subst hq
      obtain rfl : (⟨c, none⟩ : FairQueue.Held Sender) = held := by
        simpa [QueueInner.insert] using h
      exact hc.setQueue _
    · refine (hother hq (hi.stream q held ?_)).setQueue _
      simpa [QueueInner.insert, AList.lookup_insert_ne hq] using h
  · intro q c' h
    have hn := hi.hand q c' h
    refine (hother ?_ hn).setQueue _
    rintro rfl
    exact hm.1 (q, c') h (hn.owner.trans ho.symm)

theorem Inv.queueNext (hi : Inv st) {a : FairQueue.Action Sender PeerIdentity W Outcome}
    (ha : ∀ p c, a ≠ .insert p c) (h : st.queueNext a = some st') : Inv st' := by
  obtain ⟨q, hq, rfl⟩ := Option.map_eq_some_iff.mp h
  have hkey : ∀ p, (∀ held, q.stored p = some held → Newest st p held.stream) ∧
      ∀ held, q.hand p = some held → Newest st p held.stream := by
    intro p
    have hs : ∀ held, st.queue.stored p = some held → Newest st p held.stream := hi.stream p
    have hh : ∀ held, st.queue.hand p = some held → Newest st p held.stream :=
      fun held h => hi.hand p _ (inHand_of_hand h)
    have hk := FairQueue.keyStep hq p
    generalize q.stored p = stored, q.hand p = hand at hk
    cases hk with
    | same => exact ⟨hs, hh⟩
    | insert c hins => exact absurd hins (ha p c)
    | remove => exact ⟨by simp, hh⟩
    | take e held _ hst => exact ⟨by simp, by simpa using hs held hst⟩
    | putBack outcome held w _ hst => exact ⟨by simpa [poll_stream] using hh held hst, by simp⟩
    | ended => exact ⟨hs, by simp⟩
  refine hi.setQueue q (fun p => (hkey p).1) fun p c hc => ?_
  obtain ⟨held, hh, rfl⟩ := hand_of_inHand hc
  exact (hkey p).2 held hh

theorem Inv.queue (hi : Inv st) {a : FairQueue.Action Sender PeerIdentity W Outcome}
    (hm : Meets st (.queue a)) (h : next st (.queue a) = some st') : Inv st' := by
  cases a with
  | insert => cases h
  | remove => cases h
  | clear => cases h
  | polled outcome =>
    simp only [next] at h
    split at h
    · rename_i p held _ hc
      split at h
      · rename_i ho
        refine (hi.disconnecting p ?_).queueNext (by simp) h
        exact hm ho (p, held.stream) (by rw [inHand, hc]; rfl)
      · exact hi.queueNext (by simp) h
    · cases h
  | pop e => exact hi.queueNext (by simp) h
  | wake w => exact hi.queueNext (by simp) h
  | pollNext task => exact hi.queueNext (by simp) h
  | popNone => exact hi.queueNext (by simp) h
  | resume => exact hi.queueNext (by simp) h
  | exit => exact hi.queueNext (by simp) h
  | finish => exact hi.queueNext (by simp) h

theorem inv_next (hi : Inv st) {a : Action W} (hm : Meets st a) (h : next st a = some st') :
    Inv st' := by
  cases a with
  | connect p =>
    cases h
    exact hi.connect hm
  | refresh c =>
    simp only [next] at h
    split at h
    · rename_i hs
      cases h
      exact hi.advance hs (by decide) (by decide) _ _ _ _
    · cases h
  | spawn c =>
    simp only [next] at h
    split at h
    · rename_i hs _
      cases h
      exact hi.advance hs (by decide) (by decide) _ _ _ _
    · cases h
  | insert c =>
    simp only [next] at h
    split at h
    · rename_i hs ho
      exact hi.insert hs ho hm h
    · cases h
  | send p m =>
    obtain ⟨c, hc, rfl⟩ := Option.map_eq_some_iff.mp h
    exact hi.sendOn p (fun _ => (hi.entry p c hc).2) m
  | sendCached m =>
    simp only [next] at h
    split at h
    · obtain ⟨single, hs, rfl⟩ := Option.map_eq_some_iff.mp h
      exact hi.sendOn single.peerId (hm single hs) m
    · cases h
  | sendFull m =>
    simp only [next] at h
    split at h
    · obtain ⟨single, hs, rfl⟩ := Option.map_eq_some_iff.mp h
      exact hi.channels rfl st.writers _
    · cases h
  | resume j =>
    obtain ⟨s, hs, rfl⟩ := Option.map_eq_some_iff.mp h
    have hi' : Inv { st with sends := st.sends.eraseIdx j } := hi.channels rfl st.writers _
    exact hi'.sendOn s.peer (hm s hs) s.message
  | take c =>
    simp only [next] at h
    split at h
    · cases h
      exact hi.channels (List.length_modify _ _ _) _ st.sends
    · cases h
      exact hi.channels (List.length_modify _ _ _) _ st.sends
    · cases h
  | flush c =>
    simp only [next] at h
    split at h
    · cases h
      exact hi.channels rfl _ st.sends
    · cases h
  | fail c =>
    simp only [next] at h
    split at h
    · rename_i p _ _
      cases h
      have hl : (st.backend.channels.apply (.closed c)).length = st.backend.channels.length :=
        List.length_modify _ _ _
      exact (hi.channels hl (st.writers.set c .ended) st.sends).disconnecting p hm
    · cases h
  | finish c =>
    simp only [next] at h
    split at h
    · split at h
      · cases h
        exact hi.channels (List.length_modify _ _ _) _ st.sends
      · cases h
    · cases h
  | disconnect i =>
    obtain ⟨d, hd, h⟩ := Option.bind_eq_some_iff.mp h
    rw [State.disconnectNext] at h
    split at h
    · cases h
      have hi' := hi.removePeer d.peer
      exact hi'.disconnects (hi.calls_set hd .refresh) _ _
    · cases h
      exact hi.disconnects (hi.calls_set hd .stream) _ _
    · have hi' : Inv { st with disconnects := st.disconnects.eraseIdx i } :=
        hi.disconnects (fun e he => hi.calls e (List.mem_of_mem_eraseIdx he)) _ _
      exact hi'.queueNext (by simp) h
  | queue a => exact hi.queue hm h

theorem Inv.keepsNewer (hi : Inv st) {a : Action W} {c : Sender} (hm : Meets st a)
    (ha : actor st a = some c) (hr : Replaced st c) (h : next st a = some st') :
    KeepsNewer st st' c := by
  cases a with
  | connect p =>
    cases ha
    exact absurd hr.1 (Nat.lt_irrefl _)
  | refresh c' =>
    cases ha
    exact absurd hr hm
  | spawn c' =>
    simp only [next] at h
    split at h
    · cases h
      exact .of_eq rfl rfl rfl
    · cases h
  | insert c' =>
    cases ha
    simp only [next] at h
    split at h
    · rename_i p _ ho
      cases h
      -- the stream goes where no newer one is
      intro c' q hlt ho' hc'
      refine ⟨id, id, fun hq => ?_⟩
      obtain ⟨held, hl, rfl⟩ := Option.map_eq_some_iff.mp hq
      have hl' := (List.getElem?_eq_some_iff.mp hc').1
      exact absurd (hi.stream q held hl).done (hm.2 _ hl' hlt (hc'.trans ho'.symm))
    · cases h
  | send => cases ha
  | sendCached => cases ha
  | sendFull => cases ha
  | resume => cases ha
  | take c' =>
    simp only [next] at h
    split at h
    · cases h
      exact .of_eq rfl rfl rfl
    · cases h
      exact .of_eq rfl rfl rfl
    · cases h
  | flush c' =>
    simp only [next] at h
    split at h
    · cases h
      exact .of_eq rfl rfl rfl
    · cases h
  | fail c' =>
    cases ha
    exact absurd hr hm
  | finish c' =>
    simp only [next] at h
    split at h
    · split at h
      · cases h
        exact .of_eq rfl rfl rfl
      · cases h
    · cases h
  | disconnect i =>
    obtain ⟨d, hd, rfl⟩ := Option.map_eq_some_iff.mp ha
    exact absurd hr (hi.calls d (List.mem_of_getElem? hd))
  | queue a =>
    cases a with
    | polled outcome =>
      simp only [actor] at ha
      split at ha
      · rename_i p held _ hc
        cases ha
        have hh : inHand st = some (p, held.stream) := by rw [inHand, hc]
        simp only [next, hc] at h
        split at h
        · rename_i ho
          exact absurd hr (hm ho _ hh)
        · obtain ⟨q, -, rfl⟩ := Option.map_eq_some_iff.mp h
          exact hi.keepsNewer_polled hh rfl rfl
      · cases ha
    | _ => cases ha

/-- In the runs that meet the condition the end of an old connection leaves the
newer one alone, whatever the interleaving. -/
theorem replaced_keepsNewer {a : Action W} {c : Sender}
    (h : (system.guarded Meets).Reachable st) (ha : actor st a = some c) (hr : Replaced st c)
    (hn : (system.guarded Meets).next st a = some st') : KeepsNewer st st' c := by
  have hi : Inv st := h.invariant_guarded inv_init fun _ _ _ hm hi => inv_next hi hm
  obtain ⟨hm, hn⟩ := Lib.System.next_of_guarded hn
  exact hi.keepsNewer hm ha hr hn

def reconnectRun (p : PeerIdentity) (between : List (Action W)) : List (Action W) :=
  [.connect p, .refresh 0, .spawn 0, .insert 0] ++ between ++
    [.connect p, .refresh 1, .spawn 1, .insert 1]

omit [Target] in
theorem replaced_keepsNewer_take :
    letI := Target.x64
    let p : PeerIdentity := .ofByte 9
    ∃ st st' : State Unit,
      (system.guarded Meets).run State.init (reconnectRun p [.send p (.message ⟨[[7]]⟩)]) =
        some st ∧
      Replaced st 0 ∧ (system.guarded Meets).next st (.take 0) = some st' ∧
      st.backend.peers.lookup p = some 1 ∧ KeepsNewer st st' 0 := by
  let _ := Target.x64
  intro p
  have h : ((system.guarded Meets).run (State.init : State Unit)
      (reconnectRun p [.send p (.message ⟨[[7]]⟩)])).any
      (fun st => (Replaced st 0 ∧ st.backend.peers.lookup p = some 1) ∧
        ((system.guarded Meets).next st (.take 0)).isSome) := by
    decide +kernel
  obtain ⟨st, hst, hn⟩ := (Option.any_eq_true _ _).mp h
  obtain ⟨⟨hr, hp⟩, hn⟩ := of_decide_eq_true hn
  obtain ⟨st', hst'⟩ := Option.isSome_iff_exists.mp hn
  refine ⟨st, st', hst, hr, hst', hp, ?_⟩
  exact replaced_keepsNewer ⟨_, hst⟩ (a := .take 0) rfl hr hst'

omit [Target] in
/-- A write of the old connection fails after the peer has connected again. -/
theorem replaced_tornDown :
    letI := Target.x64
    let p : PeerIdentity := .ofByte 9
    ∃ st st' : State Unit,
      system.run State.init (reconnectRun p [.send p (.message ⟨[[7]]⟩)] ++ [.take 0, .fail 0]) =
        some st ∧
      actor st (.disconnect 0) = some 0 ∧ Replaced st 0 ∧
      next st (.disconnect 0) = some st' ∧ ¬ KeepsNewer st st' 0 := by
  let _ := Target.x64
  intro p
  refine ⟨_, _, rfl, rfl, by decide, rfl, fun h => ?_⟩
  exact absurd ((h 1 p (by decide) rfl rfl).1 rfl) (by decide)

end ZmqRs.Tasks
