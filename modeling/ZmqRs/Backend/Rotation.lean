import ZmqRs.Backend.Sends

/-! Which peers stay in the rotation.  A send that is dropped while it waits takes the id that it
has popped with it. -/

namespace ZmqRs.Rotation

open Codec (Message)
open GenericSocketBackend (notConnected onlyPeer withOptions)

variable {S W : Type}

def held (sends : List Sending) : List PeerIdentity := sends.filterMap Sending.held

/-- A send that is dropped does not hold the id of a connected peer, unless that id is in the
rotation queue or with another send as well. -/
def leavesId (st : State S W) : Action S → Bool
  | .drop i => (st.sends[i]?.bind Sending.held).all fun p =>
    decide (p ∈ st.backend.peers → p ∈ st.backend.roundRobin ∨ p ∈ held (st.sends.eraseIdx i))
  | _ => true

section Held

variable {sends : List Sending} {i : Nat} {x : Sending} {p : PeerIdentity}

theorem mem_held (hi : sends[i]? = some x) :
    p ∈ held sends ↔ x.held = some p ∨ p ∈ held (sends.eraseIdx i) := by
  simp [held, List.mem_filterMap, Lib.mem_iff_of_getElem? hi, or_and_right, exists_or]

theorem mem_held_set (hi : sends[i]? = some x) (y : Sending) :
    p ∈ held (sends.set i y) ↔ y.held = some p ∨ p ∈ held (sends.eraseIdx i) := by
  simp [held, List.mem_filterMap, Lib.mem_set_iff_of_getElem? y hi, or_and_right, exists_or]

theorem mem_held_append (y : Sending) :
    p ∈ held (sends ++ [y]) ↔ p ∈ held sends ∨ y.held = some p := by
  simp [held]

end Held

theorem trySendCachedSinglePeer_cases (b : GenericSocketBackend S W) (room : Room) (m : Message) :
    ∃ cachedSend channels,
      b.trySendCachedSinglePeer room m none = (cachedSend, { b with channels := channels }) ∧
      (cachedSend = .miss m ∨ ∃ single, b.singlePeer = some single ∧
        (cachedSend = .sent ∨ cachedSend = .full single.peerId single.sendQueue m ∨
          ∃ e, cachedSend = .disconnected single.peerId e)) := by
  rw [GenericSocketBackend.trySendCachedSinglePeer]
  split
  · exact ⟨_, b.channels, rfl, .inl rfl⟩
  · split
    · exact ⟨_, b.channels, rfl, .inl rfl⟩
    · rename_i single hs
      rw [Option.any_none, if_neg Bool.false_ne_true]
      split
      · exact ⟨_, _, rfl, .inr ⟨single, hs, .inl rfl⟩⟩
      · exact ⟨_, b.channels, rfl, .inr ⟨single, hs, .inr (.inl rfl)⟩⟩
      · exact ⟨_, b.channels, rfl, .inr ⟨single, hs, .inr (.inr ⟨_, rfl⟩)⟩⟩

theorem next_sendRoundRobin [Target] {st st' : State S W} {full : Bool} {m : Message}
    (h : st.next (.sendRoundRobin full m) = some st') :
    ∃ cachedSend channels, st' = (st.setChannels channels).start cachedSend ∧
      (cachedSend = .miss m ∨ ∃ single, st.backend.singlePeer = some single ∧
        (cachedSend = .sent ∨ cachedSend = .full single.peerId single.sendQueue m ∨
          ∃ e, cachedSend = .disconnected single.peerId e)) := by
  obtain ⟨cachedSend, channels, hsend, hcases⟩ :=
    trySendCachedSinglePeer_cases st.backend (room full) m
  simp only [State.next, hsend, Option.some.injEq] at h
  exact ⟨cachedSend, channels, h.symm, hcases⟩

theorem next_drop [Target] {st st' : State S W} {i : Nat} (h : st.next (.drop i) = some st') :
    ∃ x, st.sends[i]? = some x ∧ st' = st.forget i := by
  simp only [State.next] at h
  split at h
  · cases h
  · cases h
  · rename_i x _ hi
    cases h
    exact ⟨x, hi, rfl⟩

structure Inv (st : State S W) : Prop where
  covered : ∀ p ∈ st.backend.peers, p ∈ st.backend.roundRobin ∨ p ∈ held st.sends
  single : st.backend.singlePeer = onlyPeer st.backend.peers

namespace Inv

variable {st : State S W} {i : Nat} {x : Sending} {p : PeerIdentity}

theorem peerConnected [Target] (h : Inv st) (s : S) :
    Inv { st with backend := st.backend.peerConnected p s } where
  covered := by
    intro q hq
    change q ∈ st.backend.peers.insert p st.backend.channels.length at hq
    change q ∈ st.backend.roundRobin ++ [p] ∨ q ∈ held st.sends
    cases (AList.mem_insert _).mp hq with
    | inl hq => exact .inl (List.mem_append_right _ (List.mem_singleton.mpr hq))
    | inr hq =>
      apply (h.covered q hq).imp_left
      exact List.mem_append_left _
  single := rfl

theorem disconnect (h : Inv st) (p : PeerIdentity) : Inv (st.disconnect p) where
  covered := by
    intro q hq
    exact h.covered q (AList.mem_erase.mp hq).2
  single := rfl

theorem setChannels (h : Inv st) (channels : Channels) : Inv (st.setChannels channels) :=
  ⟨h.covered, h.single⟩

theorem report (h : Inv st) (result : Except ZmqError Unit) : Inv (st.report result) :=
  ⟨h.covered, h.single⟩

theorem choose (h : Inv st) (p : Option PeerIdentity) : Inv (st.choose p) :=
  ⟨h.covered, h.single⟩

theorem append (h : Inv st) (x : Sending) : Inv { st with sends := st.sends ++ [x] } where
  covered := by
    intro q hq
    apply (h.covered q hq).imp_right
    exact fun hq => (mem_held_append x).mpr (.inl hq)
  single := h.single

theorem forget (h : Inv st) (hi : st.sends[i]? = some x)
    (hx : ∀ p, x.held = some p → p ∈ st.backend.peers →
      p ∈ st.backend.roundRobin ∨ p ∈ held (st.sends.eraseIdx i)) : Inv (st.forget i) where
  covered := by
    intro q hq
    cases h.covered q hq with
    | inl hrr => exact .inl hrr
    | inr hheld =>
      cases (mem_held hi).mp hheld with
      | inl hxq => exact hx q hxq hq
      | inr hrest => exact .inr hrest
  single := h.single

theorem replace (h : Inv st) (hi : st.sends[i]? = some x) (y : Sending)
    (hy : ∀ p, x.held = some p → p ∈ st.backend.peers → y.held = some p) :
    Inv { st with sends := st.sends.set i y } where
  covered := by
    intro q hq
    apply (h.covered q hq).imp_right
    intro hheld
    rw [mem_held_set hi]
    apply ((mem_held hi).mp hheld).imp_left
    exact fun hxq => hy q hxq hq
  single := h.single

theorem start (h : Inv st) (cachedSend : CachedSend) : Inv (st.start cachedSend) := by
  cases cachedSend with
  | sent => exact (h.choose _).report _
  | full p c m => exact (h.choose (some p)).append (.cached p (.ready c m))
  | disconnected p e => exact ((h.choose (some p)).disconnect p).report _
  | miss m => exact h.append (.pop m)

theorem settleCached (h : Inv st) (hi : st.sends[i]? = some x) (hx : x.held = none)
    (polled : Polled) : Inv (st.settleCached i p polled) := by
  have hno : ∀ q (P : Prop), x.held = some q → P := by
    intro q P hq
    rw [hx] at hq
    cases hq
  cases polled with
  | pending f => exact h.replace hi _ fun q hq _ => hno q _ hq
  | ready result =>
    cases result with
    | ok u => exact (h.forget hi fun q hq _ => hno q _ hq).report _
    | error e => exact ((h.disconnect p).forget hi fun q hq _ => hno q _ hq).report _

theorem settle (h : Inv st) (hi : st.sends[i]? = some x) (hx : x.held = some p)
    (polled : Polled) : Inv (st.settle i p polled) := by
  cases polled with
  | pending f => exact h.replace hi _ fun q hq _ => hx.symm.trans hq
  | ready result =>
    cases result with
    | ok u =>
      have hpushed : Inv ({ st with
          backend.roundRobin := st.backend.roundRobin ++ [p] } : State S W) := by
        constructor
        · intro q hq
          exact (h.covered q hq).imp_left (List.mem_append_left _)
        · exact h.single
      apply (hpushed.forget hi _).report
      intro q hq _
      cases hx.symm.trans hq
      exact .inl (List.mem_append_right _ List.mem_cons_self)
    | error e =>
      apply ((h.disconnect p).forget hi _).report
      intro q hq hpeers
      cases hx.symm.trans hq
      exact absurd rfl (AList.mem_erase.mp hpeers).1

theorem resume (h : Inv st) (hi : st.sends[i]? = some x) (full : Bool) :
    Inv (st.resume i full x) := by
  cases x with
  | cached p f =>
    exact (h.setChannels (f.poll st.backend.channels full).2).settleCached hi rfl _
  | pop m =>
    simp only [State.resume]
    split
    · apply (h.forget hi _).report
      intro q hq _
      cases hq
    · rename_i p roundRobin hrr
      constructor
      · intro q hq
        rw [mem_held_set hi]
        cases h.covered q hq with
        | inl hmem =>
          rw [hrr] at hmem
          cases List.mem_cons.mp hmem with
          | inl hqp =>
            subst hqp
            exact .inr (.inl rfl)
          | inr hmem => exact .inl hmem
        | inr hheld =>
          cases (mem_held hi).mp hheld with
          | inl hq => cases hq
          | inr hheld => exact .inr (.inr hheld)
      · exact h.single
  | get p m =>
    simp only [State.resume]
    split
    · rename_i hl
      apply h.replace hi
      intro q hq hpeers
      cases hq
      exact absurd hpeers (AList.lookup_eq_none.mp hl)
    · rename_i c _
      exact (h.setChannels (pollPeerQueue st.backend.channels c full m).2).settle hi rfl _
  | queue p f => exact (h.setChannels (f.poll st.backend.channels full).2).settle hi rfl _

theorem drop (h : Inv st) {x : Sending} (hi : st.sends[i]? = some x)
    (hd : leavesId st (.drop i : Action S) = true) : Inv (st.forget i) := by
  apply h.forget hi
  intro p hx hp
  rw [leavesId, hi, Option.bind_some, hx, Option.all_some, decide_eq_true_eq] at hd
  exact hd hp

theorem next [Target] {a : Action S} {st' : State S W} (h : Inv st) (ha : leavesId st a = true)
    (hn : st.next a = some st') : Inv st' := by
  cases a with
  | peerConnected p s =>
    cases hn
    exact h.peerConnected s
  | peerDisconnected p =>
    cases hn
    exact h.disconnect p
  | channel e =>
    cases hn
    exact h.setChannels _
  | sendRoundRobin full m =>
    obtain ⟨cachedSend, channels, rfl, -⟩ := next_sendRoundRobin hn
    exact (h.setChannels channels).start cachedSend
  | resume i full =>
    obtain ⟨x, hi, rfl⟩ := Option.map_eq_some_iff.mp hn
    exact h.resume hi full
  | drop i =>
    obtain ⟨x, hi, rfl⟩ := next_drop hn
    exact h.drop hi ha

end Inv

theorem inv_init (fairQueueInner : Option (QueueInner S PeerIdentity W)) :
    Inv (⟨withOptions fairQueueInner, [], [], []⟩ : State S W) where
  covered := by simp [withOptions]
  single := rfl

def Ends (st st' : State S W) : Prop :=
  ∃ result, st'.results = st.results ++ [result] ∧ ∀ m, result ≠ .error (notConnected m)

theorem ends_ok {st st' : State S W} (h : st'.results = st.results ++ [.ok ()]) : Ends st st' :=
  ⟨_, h, nofun⟩

theorem ends_error {st st' : State S W} {e : SendError}
    (h : st'.results = st.results ++ [.error e.toZmqError]) : Ends st st' := by
  refine ⟨_, h, ?_⟩
  intro m hm
  cases m with
  | greeting g => cases hm
  | command c => cases hm
  | message m => cases hm

inductive Step (st st' : State S W) : Prop
  | push (ids : List PeerIdentity) (chosen : st'.chosen = st.chosen)
      (roundRobin : st'.backend.roundRobin = st.backend.roundRobin ++ ids)
      (results : st'.results = st.results ∨ Ends st st')
  | cached (single : SinglePeer) (cache : st.backend.singlePeer = some single)
      (chosen : st'.chosen = st.chosen ++ [single.peerId])
      (results : st'.results = st.results ∨ Ends st st')
  | pop (p : PeerIdentity) (ids : List PeerIdentity) (head : st.backend.roundRobin = p :: ids)
      (roundRobin : st'.backend.roundRobin = ids)
      (chosen : st'.chosen =
        st.chosen ++ (if p ∈ st.backend.peers then some p else none).toList)
      (results : st'.results = st.results)
  | empty (i : Nat) (m : Message) (send : st.sends[i]? = some (.pop m))
      (roundRobin : st.backend.roundRobin = [])
      (end_eq : st' = (st.forget i).report (.error (notConnected m)))

section Steps

variable {st st' : State S W}

theorem Step.keep (hc : st'.chosen = st.chosen)
    (hrr : st'.backend.roundRobin = st.backend.roundRobin)
    (hr : st'.results = st.results ∨ Ends st st') : Step st st' :=
  .push [] hc (hrr.trans (List.append_nil _).symm) hr

theorem step_settleCached (channels : Channels) (i : Nat) (p : PeerIdentity) (polled : Polled) :
    Step st ((st.setChannels channels).settleCached i p polled) := by
  match polled with
  | .pending f => exact .keep rfl rfl (.inl rfl)
  | .ready (.ok ()) => exact .keep rfl rfl (.inr (ends_ok rfl))
  | .ready (.error e) => exact .keep rfl rfl (.inr (ends_error rfl))

theorem step_settle (channels : Channels) (i : Nat) (p : PeerIdentity) (polled : Polled) :
    Step st ((st.setChannels channels).settle i p polled) := by
  match polled with
  | .pending f => exact .keep rfl rfl (.inl rfl)
  | .ready (.ok ()) => exact .push [p] rfl rfl (.inr (ends_ok rfl))
  | .ready (.error e) => exact .keep rfl rfl (.inr (ends_error rfl))

theorem step_start (channels : Channels) {cachedSend : CachedSend} {m : Message}
    (h : cachedSend = .miss m ∨ ∃ single, st.backend.singlePeer = some single ∧
      (cachedSend = .sent ∨ cachedSend = .full single.peerId single.sendQueue m ∨
        ∃ e, cachedSend = .disconnected single.peerId e)) :
    Step st ((st.setChannels channels).start cachedSend) := by
  obtain rfl | ⟨single, hs, rfl | rfl | ⟨e, rfl⟩⟩ := h
  · exact .keep rfl rfl (.inl rfl)
  · refine .cached single hs ?_ (.inr (ends_ok rfl))
    simp only [State.start, State.setChannels, State.choose, State.report, hs]
    rfl
  · exact .cached single hs rfl (.inl rfl)
  · exact .cached single hs rfl (.inr (ends_error rfl))

theorem step_resume {i : Nat} {x : Sending} (hi : st.sends[i]? = some x) (full : Bool) :
    Step st (st.resume i full x) := by
  cases x with
  | cached p f => exact step_settleCached _ i p _
  | pop m =>
    simp only [State.resume]
    split
    · rename_i hrr
      exact .empty i m hi hrr rfl
    · rename_i p ids hrr
      exact .pop p ids hrr rfl rfl rfl
  | get p m =>
    simp only [State.resume]
    split
    · exact .keep rfl rfl (.inl rfl)
    · exact step_settle _ i p _
  | queue p f => exact step_settle _ i p _

theorem step_next [Target] {a : Action S} (hn : st.next a = some st') : Step st st' := by
  cases a with
  | peerConnected p s =>
    cases hn
    exact .push [p] rfl rfl (.inl rfl)
  | peerDisconnected p =>
    cases hn
    exact .keep rfl rfl (.inl rfl)
  | channel e =>
    cases hn
    exact .keep rfl rfl (.inl rfl)
  | sendRoundRobin full m =>
    obtain ⟨cachedSend, channels, rfl, hcases⟩ := next_sendRoundRobin hn
    exact step_start channels hcases
  | resume i full =>
    obtain ⟨x, hi, rfl⟩ := Option.map_eq_some_iff.mp hn
    exact step_resume hi full
  | drop i =>
    obtain ⟨x, -, rfl⟩ := next_drop hn
    exact .keep rfl rfl (.inl rfl)

end Steps

theorem eq_of_onlyPeer {peers : AList fun _ : PeerIdentity => Sender} {single : SinglePeer}
    {p : PeerIdentity} (h : onlyPeer peers = some single) (hp : p ∈ peers) :
    p = single.peerId := by
  rw [onlyPeer] at h
  split at h
  · rename_i q c he
    cases h
    rw [AList.mem_keys, AList.keys, he] at hp
    exact List.mem_singleton.mp hp
  · cases h

def Ahead (chosen : List PeerIdentity) (k : Nat) (p : PeerIdentity) (st : State S W) : Prop :=
  ∃ picked, st.chosen = chosen ++ picked ∧
    (p ∈ picked ∨ p ∈ st.backend.roundRobin ∧
      picked.length + st.backend.roundRobin.idxOf p ≤ k)

theorem Ahead.next [Target] {chosen : List PeerIdentity} {k : Nat} {p : PeerIdentity}
    {st st' : State S W} {a : Action S} (h : Ahead chosen k p st) (hi : Inv st)
    (hp : p ∈ st.backend.peers) (hn : st.next a = some st') : Ahead chosen k p st' := by
  obtain ⟨picked, hc, hpicked⟩ := h
  cases step_next hn with
  | push ids hc' hrr' _ =>
    -- what is pushed stands behind `p`
    refine ⟨picked, hc'.trans hc, ?_⟩
    apply hpicked.imp_right
    rintro ⟨hmem, hk⟩
    rw [hrr', List.idxOf_append_of_mem hmem]
    exact ⟨List.mem_append_left _ hmem, hk⟩
  | cached single hs hc' _ =>
    refine ⟨picked ++ [single.peerId], by rw [hc', hc, List.append_assoc], .inl ?_⟩
    rw [hi.single] at hs
    rw [eq_of_onlyPeer hs hp]
    exact List.mem_append_right _ List.mem_cons_self
  | pop q ids hrr hrr' hc' _ =>
    refine ⟨_, by rw [hc', hc, List.append_assoc], ?_⟩
    by_cases hq : q = p
    · subst hq
      rw [if_pos hp]
      exact .inl (List.mem_append_right _ List.mem_cons_self)
    · apply hpicked.imp (List.mem_append_left _)
      rintro ⟨hmem, hk⟩
      rw [hrr, List.idxOf_cons_ne _ hq] at hk
      rw [hrr] at hmem
      rw [hrr', List.length_append]
      have hone : (if q ∈ st.backend.peers then some q else none).toList.length ≤ 1 := by
        split <;> simp
      exact ⟨List.mem_of_ne_of_mem (Ne.symm hq) hmem, by omega⟩
  | empty i m _ _ hst =>
    subst hst
    exact ⟨picked, hc, hpicked⟩

theorem Inv.held_of_notConnected [Target] {st st' : State S W} {a : Action S} {m : Message}
    (h : Inv st) (hn : st.next a = some st')
    (hr : st'.results = st.results ++ [.error (notConnected m)]) :
    ∀ p ∈ st'.backend.peers, p ∈ held st'.sends := by
  have hends : ¬ (st'.results = st.results ∨ Ends st st') := by
    rintro (hr' | ⟨result, hr', hm⟩)
    · rw [hr', List.self_eq_append_right] at hr
      cases hr
    · rw [hr'] at hr
      cases List.append_cancel_left hr
      exact absurd rfl (hm m)
  cases step_next hn with
  | push _ _ _ hr' => exact absurd hr' hends
  | cached _ _ _ hr' => exact absurd hr' hends
  | pop _ _ _ _ _ hr' => exact absurd (.inl hr') hends
  | empty i m hi hrr hst =>
    subst hst
    intro p hp
    cases h.covered p hp with
    | inl hmem =>
      rw [hrr] at hmem
      cases hmem
    | inr hheld =>
      cases (mem_held hi).mp hheld with
      | inl hq => cases hq
      | inr hheld => exact hheld

/-- In every run in which no send is dropped with the only id of a connected peer:  when no send
is in progress, every connected peer is in the rotation queue; a send says that there are no
peers only if each of them is with another send; and while a peer stays connected, it is picked
before the peers behind it. -/
theorem peers_stay_in_rotation [Target] {fairQueueInner : Option (QueueInner S PeerIdentity W)}
    {st : State S W}
    (h : ((system fairQueueInner).guarded fun st a => leavesId st a = true).Reachable st) :
    (st.sends = [] → ∀ p ∈ st.backend.peers, p ∈ st.backend.roundRobin) ∧
    (∀ a st' m, st.next a = some st' → st'.results = st.results ++ [.error (notConnected m)] →
      ∀ p ∈ st'.backend.peers, p ∈ held st'.sends) ∧
    (st.sends = [] → ∀ p ∈ st.backend.peers, ∀ as st',
      ((system fairQueueInner).guarded fun st a =>
        leavesId st a = true ∧ p ∈ st.backend.peers).run st as = some st' →
      ∃ picked, st'.chosen = st.chosen ++ picked ∧
        (st.backend.roundRobin.idxOf p < picked.length → p ∈ picked)) := by
  have hinv : Inv st := by
    apply Lib.System.Reachable.invariant_guarded (P := Inv) (inv_init fairQueueInner) _ h
    exact fun st a st' ha hi hn => hi.next ha hn
  have hidle : st.sends = [] → ∀ p ∈ st.backend.peers, p ∈ st.backend.roundRobin := by
    intro hs p hp
    apply (hinv.covered p hp).resolve_right
    rw [hs]
    exact List.not_mem_nil
  refine ⟨hidle, ?_, ?_⟩
  · intro a st' m hn hr
    exact hinv.held_of_notConnected hn hr
  · intro hs p hp as st' hrun
    have hahead : Ahead st.chosen (st.backend.roundRobin.idxOf p) p st := by
      refine ⟨[], (List.append_nil _).symm, .inr ⟨hidle hs p hp, ?_⟩⟩
      rw [List.length_nil, Nat.zero_add]
    have hend : Inv st' ∧ Ahead st.chosen (st.backend.roundRobin.idxOf p) p st' := by
      apply Lib.System.invariant_run_guarded _ _ ⟨hinv, hahead⟩ hrun
      rintro st₁ a st₂ ⟨ha, hp⟩ ⟨hi, hk⟩ hn
      exact ⟨hi.next ha hn, hk.next hi hp hn⟩
    obtain ⟨-, picked, hc, hpicked⟩ := hend
    refine ⟨picked, hc, ?_⟩
    intro hlt
    apply hpicked.resolve_right
    rintro ⟨-, hle⟩
    omega

theorem peers_stay_in_rotation_dropped :
    letI := Target.x64
    let p : PeerIdentity := .ofByte 1
    let q : PeerIdentity := .ofByte 2
    let o : PeerIdentity := .ofByte 3
    ∃ st st' : State Unit Unit,
      ((system none).guarded fun st a => leavesId st a = true).run (system none).init
        [.peerConnected p (), .sendRoundRobin true (.message ⟨[[0]]⟩), .drop 0,
          .peerConnected q (), .peerConnected o (), .peerDisconnected p,
          .sendRoundRobin false (.message ⟨[[1]]⟩), .resume 0 false, .drop 0] = some st ∧
      (∀ p ∈ st.backend.peers, p ∈ st.backend.roundRobin) ∧
      ((system none).guarded fun st a => leavesId st a = true ∧ o ∈ st.backend.peers).run st
        [.sendRoundRobin false (.message ⟨[[2]]⟩), .resume 0 false, .resume 0 false,
          .sendRoundRobin false (.message ⟨[[3]]⟩), .resume 0 false] = some st' ∧
      ∃ picked, st'.chosen = st.chosen ++ picked ∧ o ∈ picked := by
  let _ := Target.x64
  intro p q o
  have hrun : (((system none).guarded fun st a => leavesId st a = true).run (system none).init
        [.peerConnected p (), .sendRoundRobin true (.message ⟨[[0]]⟩), .drop 0,
          .peerConnected q (), .peerConnected o (), .peerDisconnected p,
          .sendRoundRobin false (.message ⟨[[1]]⟩), .resume 0 false, .drop 0]).map
      (fun st : State Unit Unit => (st.sends.length, st.chosen, st.backend.roundRobin,
        decide (o ∈ st.backend.peers),
        (((system none).guarded fun st a => leavesId st a = true ∧ o ∈ st.backend.peers).run st
          [.sendRoundRobin false (.message ⟨[[2]]⟩), .resume 0 false, .resume 0 false,
            .sendRoundRobin false (.message ⟨[[3]]⟩), .resume 0 false]).map State.chosen)) =
      some (0, [p], [q, o], true, some [p, q, o]) := by
    decide +kernel
  obtain ⟨st, hrun, hst⟩ := Option.map_eq_some_iff.mp hrun
  simp only [Prod.mk.injEq] at hst
  obtain ⟨hs, hc, hrr, ho, hlast⟩ := hst
  obtain ⟨st', hrun', hc'⟩ := Option.map_eq_some_iff.mp hlast
  obtain ⟨hidle, -, hpicked⟩ := peers_stay_in_rotation ⟨_, hrun⟩
  have hs : st.sends = [] := List.length_eq_zero_iff.mp hs
  obtain ⟨picked, hpicked, hmem⟩ := hpicked hs o (of_decide_eq_true ho) _ _ hrun'
  refine ⟨st, st', hrun, hidle hs, hrun', picked, hpicked, hmem ?_⟩
  rw [hc, hc'] at hpicked
  have hpicked : [p] ++ [q, o] = [p] ++ picked := hpicked
  cases List.append_cancel_left hpicked
  rw [hrr]
  decide

/-- A send that is dropped in `get_async`, or while the queue of the peer is full, takes the
popped id with it.  With both ids lost, a send finds no peers although two are connected. -/
theorem dropped_send_loses_peer :
    letI := Target.x64
    let p : PeerIdentity := .ofByte 1
    let q : PeerIdentity := .ofByte 2
    ((system none).run (system none).init
        [.peerConnected p (), .peerConnected q (),
          .sendRoundRobin false (.message ⟨[[1]]⟩), .resume 0 false, .drop 0]).map
      (fun st : State Unit Unit =>
        (st.sends.length, st.backend.peers.keys, st.backend.roundRobin)) =
      some (0, [q, p], [q]) ∧
    ((system none).run (system none).init
        [.peerConnected p (), .peerConnected q (),
          .sendRoundRobin false (.message ⟨[[1]]⟩), .resume 0 false, .drop 0,
          .sendRoundRobin false (.message ⟨[[2]]⟩), .resume 0 false, .resume 0 true, .drop 0,
          .sendRoundRobin false (.message ⟨[[3]]⟩), .resume 0 false]).map
      (fun st : State Unit Unit => (st.sends.length, st.backend.peers.keys, st.results)) =
      some (0, [q, p], [.error (notConnected (.message ⟨[[3]]⟩))]) := by
  let _ := Target.x64
  intro p q
  constructor
  · decide +kernel
  · decide +kernel

end ZmqRs.Rotation
