import ZmqRs.Backend

/-! Calls of `peer_connected` and `peer_disconnected` that overlap.  A refresh of the
single-peer cache reads the number of peers, stores it and rebuilds the cache in three
steps, and other calls may come between them. -/

namespace ZmqRs

namespace GenericSocketBackend

variable {S W : Type}

def storeCount (b : GenericSocketBackend S W) (peerCount : Nat) : GenericSocketBackend S W :=
  { b with peerCount := peerCount }

def Begins (peers : AList fun _ : PeerIdentity => Sender) : Option SinglePeer → Prop
  -- What `begin_sync` may find: any entry, and none in an empty table.
  | none => peers.entries = []
  | some first => peers.lookup first.peerId = some first.sendQueue

instance (peers : AList fun _ : PeerIdentity => Sender) (first : Option SinglePeer) :
    Decidable (Begins peers first) :=
  match first with
  | none => inferInstanceAs (Decidable (peers.entries = []))
  | some first => inferInstanceAs (Decidable (peers.lookup first.peerId = some first.sendQueue))

def rebuildCache (b : GenericSocketBackend S W) (peerCount : Nat) (first : Option SinglePeer) :
    GenericSocketBackend S W :=
  { b with singlePeer := if peerCount = 1 then first else none }

theorem onlyPeer_eq {peers : AList fun _ : PeerIdentity => Sender} {first : Option SinglePeer}
    (h : Begins peers first) :
    onlyPeer peers = if peers.entries.length = 1 then first else none := by
  rcases he : peers.entries with _ | ⟨e, _ | ⟨e', l⟩⟩
  · simp [onlyPeer, he]
  · cases first with
    | none => simp [Begins, he] at h
    | some first =>
      have hl := AList.mem_lookup_iff.mp h
      rw [he, List.mem_singleton] at hl
      simp [onlyPeer, he, ← hl]
  · simp [onlyPeer, he]

theorem refreshSinglePeerCache_eq {b : GenericSocketBackend S W} {first : Option SinglePeer}
    (h : Begins b.peers first) :
    b.refreshSinglePeerCache =
      (b.storeCount b.peers.entries.length).rebuildCache b.peers.entries.length first := by
  rw [refreshSinglePeerCache, onlyPeer_eq h]
  rfl

end GenericSocketBackend

namespace Refresh

open GenericSocketBackend (Begins onlyPeer)
open Lib (mem_set_of_mem mem_set_self_of_getElem?)

inductive Pc
  | change
  | len
  | store
  | rebuild
  | rest
  | done
  deriving DecidableEq

inductive Op (S : Type)
  | connected (peerId : PeerIdentity) (recvQueue : S)
  | disconnected (peerId : PeerIdentity)

/-- `size` is what `peers.len()` gave and `stamp` tells when; `removed` is the
`peer_removed` of `peer_disconnected`. -/
structure Call (S : Type) where
  op : Op S
  pc : Pc
  removed : Bool
  size : Nat
  stamp : Nat

structure State (S W : Type) where
  backend : GenericSocketBackend S W
  calls : List (Call S)
  reads : Nat

inductive Action (S : Type)
  | call (op : Op S)
  | go (i : Nat) (first : Option SinglePeer)

variable {S W : Type}

section Model

variable [Target]

namespace State

def init (fairQueueInner : Option (QueueInner S PeerIdentity W)) : State S W :=
  ⟨.withOptions fairQueueInner, [], 0⟩

def change (b : GenericSocketBackend S W) : Op S → GenericSocketBackend S W
  | .connected p _ => b.upsertPeer p
  | .disconnected p => b.removePeer p

def removes (b : GenericSocketBackend S W) : Op S → Bool
  | .connected _ _ => false
  | .disconnected p => (b.peers.lookup p).isSome

def rest (b : GenericSocketBackend S W) (removed : Bool) : Op S → GenericSocketBackend S W
  | .connected p recvQueue =>
    { b with roundRobin := b.roundRobin ++ [p] }.insertStream p recvQueue
  | .disconnected p =>
    let b := b.removeStream p
    { b with monitor := if removed then b.monitor.map (· ++ [p]) else b.monitor }

def callNext (st : State S W) (i : Nat) (c : Call S) (first : Option SinglePeer) :
    Option (State S W) :=
  match c.pc with
  | .change =>
    some { st with
      backend := change st.backend c.op
      calls := st.calls.set i { c with pc := .len, removed := removes st.backend c.op } }
  | .len =>
    some { st with
      calls := st.calls.set i
        { c with pc := .store, size := st.backend.peers.entries.length, stamp := st.reads + 1 }
      reads := st.reads + 1 }
  | .store =>
    some { st with
      backend := st.backend.storeCount c.size
      calls := st.calls.set i { c with pc := .rebuild } }
  | .rebuild =>
    if Begins st.backend.peers first then
      some { st with
        backend := st.backend.rebuildCache c.size first
        calls := st.calls.set i { c with pc := .rest } }
    else none
  | .rest =>
    some { st with
      backend := rest st.backend c.removed c.op
      calls := st.calls.set i { c with pc := .done } }
  | .done => none

end State

def next (st : State S W) : Action S → Option (State S W)
  | .call op => some { st with calls := st.calls ++ [⟨op, .change, false, 0, 0⟩] }
  | .go i first => st.calls[i]?.bind fun c => st.callNext i c first

def system (fairQueueInner : Option (QueueInner S PeerIdentity W)) :
    Lib.System (State S W) (Action S) where
  init := .init fairQueueInner
  next := next

end Model

def Coherent (b : GenericSocketBackend S W) : Prop :=
  b.peerCount = b.peers.entries.length ∧ b.singlePeer = onlyPeer b.peers

def Call.read (c : Call S) : Bool :=
  match c.pc with
  | .change | .len => false
  | _ => true

def Call.stored (c : Call S) : Bool :=
  match c.pc with
  | .rebuild | .rest | .done => true
  | _ => false

def Call.rebuilt (c : Call S) : Bool :=
  match c.pc with
  | .rest | .done => true
  | _ => false

theorem Call.read_of_rebuilt (c : Call S) (h : c.rebuilt) : c.read := by
  rw [rebuilt] at h
  rw [read]
  split at h <;> simp_all

/-- A call stores the size it has read only while no call that read another size later
has stored it, and rebuilds the cache only while no call that read later, where one of
the two read a single peer and the other did not, has rebuilt it. -/
def Meets (st : State S W) : Action S → Prop
  | .call _ => True
  | .go i _ => ∀ c ∈ st.calls[i]?, ∀ c' ∈ st.calls, c.stamp < c'.stamp →
    (c.pc = .store → c'.stored → c'.size = c.size) ∧
    (c.pc = .rebuild → c'.rebuilt → (c'.size = 1 ↔ c.size = 1))

instance (st : State S W) (a : Action S) : Decidable (Meets st a) :=
  match a with
  | .call _ => isTrue trivial
  | .go i _ =>
    inferInstanceAs (Decidable (∀ c ∈ st.calls[i]?, ∀ c' ∈ st.calls, c.stamp < c'.stamp →
      (c.pc = .store → c'.stored → c'.size = c.size) ∧
      (c.pc = .rebuild → c'.rebuilt → (c'.size = 1 ↔ c.size = 1))))

def Steady (st : State S W) : Prop := ∀ c ∈ st.calls, c.pc ≠ .len

structure Reads (st : State S W) : Prop where
  stamp_le : ∀ c ∈ st.calls, c.stamp ≤ st.reads
  stamp_pos : ∀ c ∈ st.calls, c.read → 0 < c.stamp
  stamp_zero : ∀ c ∈ st.calls, ¬ c.read → c.stamp = 0 ∧ c.size = 0
  size_eq : ∀ c ∈ st.calls, ∀ c' ∈ st.calls, c.stamp = c'.stamp → c.size = c'.size
  last : 0 < st.reads → ∃ c ∈ st.calls, c.stamp = st.reads
  fresh : Steady st → ∀ c ∈ st.calls, c.read → c.stamp = st.reads →
    c.size = st.backend.peers.entries.length

def Counts (calls : List (Call S)) (n : Nat) : Prop :=
  ∀ c ∈ calls, c.stored → (∀ c' ∈ calls, c.stamp < c'.stamp → ¬ c'.stored) → n = c.size

structure Inv (st : State S W) : Prop extends Reads st where
  unread : Steady st → st.reads = 0 → Coherent st.backend
  count : Counts st.calls st.backend.peerCount
  cache : Steady st → ∀ c ∈ st.calls, c.rebuilt → c.stamp = st.reads →
    st.backend.singlePeer = onlyPeer st.backend.peers

section Steps

variable {st : State S W} {i : Nat} {c : Call S}

theorem Reads.size_zero (hr : Reads st) (h : c ∈ st.calls) (hs : c.stamp = 0) : c.size = 0 := by
  by_cases hc : c.read
  · exact absurd hs (Nat.pos_iff_ne_zero.mp (hr.stamp_pos c h hc))
  · exact (hr.stamp_zero c h hc).2

theorem Reads.call (hr : Reads st) (op : Op S) :
    Reads { st with calls := st.calls ++ [⟨op, .change, false, 0, 0⟩] } := by
  have hmem : ∀ {c}, c ∈ st.calls ++ [⟨op, .change, false, 0, 0⟩] →
      c ∈ st.calls ∨ c = ⟨op, .change, false, 0, 0⟩ := by
    intro c h
    simpa using h
  refine ⟨?_, ?_, ?_, ?_, ?_, ?_⟩
  · intro c h
    rcases hmem h with h | rfl
    · exact hr.stamp_le c h
    · exact Nat.zero_le _
  · intro c h hc
    rcases hmem h with h | rfl
    · exact hr.stamp_pos c h hc
    · cases hc
  · intro c h hc
    rcases hmem h with h | rfl
    · exact hr.stamp_zero c h hc
    · exact ⟨rfl, rfl⟩
  · intro c h c' h' hs
    rcases hmem h with h | rfl <;> rcases hmem h' with h' | rfl
    · exact hr.size_eq c h c' h' hs
    · exact hr.size_zero h hs
    · exact (hr.size_zero h' hs.symm).symm
    · rfl
  · intro h
    obtain ⟨c, hc, hs⟩ := hr.last h
    exact ⟨c, List.mem_append_left _ hc, hs⟩
  · intro hst c h hp hs
    rcases hmem h with h | rfl
    · exact hr.fresh (fun c h => hst c (List.mem_append_left _ h)) c h hp hs
    · cases hp

theorem Reads.set (hr : Reads st) (hi : st.calls[i]? = some c) (c' : Call S)
    (hrd : c'.read = c.read) (hs : c'.stamp = c.stamp) (hz : c'.size = c.size)
    {b : GenericSocketBackend S W}
    (hb : Steady { st with backend := b, calls := st.calls.set i c' } →
      Steady st ∧ b.peers = st.backend.peers) :
    Reads { st with backend := b, calls := st.calls.set i c' } := by
  have hmem := List.mem_of_getElem? hi
  have hset : ∀ {d}, d ∈ st.calls.set i c' → d ∈ st.calls ∨ d = c' := List.mem_or_eq_of_mem_set
  refine ⟨?_, ?_, ?_, ?_, ?_, ?_⟩
  · intro d h
    rcases hset h with h | rfl
    · exact hr.stamp_le d h
    · rw [hs]
      exact hr.stamp_le c hmem
  · intro d h hd
    rcases hset h with h | rfl
    · exact hr.stamp_pos d h hd
    · rw [hs]
      exact hr.stamp_pos c hmem (hrd ▸ hd)
  · intro d h hd
    rcases hset h with h | rfl
    · exact hr.stamp_zero d h hd
    · rw [hs, hz]
      exact hr.stamp_zero c hmem (hrd ▸ hd)
  · intro d h d' h' he
    rcases hset h with hd | rfl <;> rcases hset h' with hd' | rfl
    · exact hr.size_eq d hd d' hd' he
    · exact (hr.size_eq d hd c hmem (he.trans hs)).trans hz.symm
    · exact hz.trans (hr.size_eq c hmem d' hd' (hs.symm.trans he))
    · rfl
  · intro h
    obtain ⟨d, hd, he⟩ := hr.last h
    rcases mem_set_of_mem c' hi hd with rfl | hd
    · exact ⟨c', mem_set_self_of_getElem? _ hi, hs.trans he⟩
    · exact ⟨d, hd, he⟩
  · intro hst d h hd he
    obtain ⟨hst', hp⟩ := hb hst
    rw [hp]
    rcases hset h with h | rfl
    · exact hr.fresh hst' d h hd he
    · exact hz.trans (hr.fresh hst' c hmem (hrd ▸ hd) (hs.symm.trans he))

theorem Reads.len (hr : Reads st) (hi : st.calls[i]? = some c) :
    Reads { st with
      calls := st.calls.set i
        { c with pc := .store, size := st.backend.peers.entries.length, stamp := st.reads + 1 }
      reads := st.reads + 1 } := by
  have hset : ∀ {d}, d ∈ st.calls.set i _ → d ∈ st.calls ∨ d =
      { c with pc := .store, size := st.backend.peers.entries.length, stamp := st.reads + 1 } :=
    List.mem_or_eq_of_mem_set
  have hold : ∀ {d}, d ∈ st.calls → d.stamp ≠ st.reads + 1 := fun h => by
    have := hr.stamp_le _ h
    omega
  refine ⟨?_, ?_, ?_, ?_, ?_, ?_⟩
  · intro d h
    rcases hset h with h | rfl
    · exact Nat.le_succ_of_le (hr.stamp_le d h)
    · exact Nat.le_refl _
  · intro d h hd
    rcases hset h with h | rfl
    · exact hr.stamp_pos d h hd
    · exact Nat.succ_pos _
  · intro d h hd
    rcases hset h with h | rfl
    · exact hr.stamp_zero d h hd
    · exact absurd rfl hd
  · intro d h d' h' he
    rcases hset h with h | rfl <;> rcases hset h' with h' | rfl
    · exact hr.size_eq d h d' h' he
    · exact absurd he (hold h)
    · exact absurd he.symm (hold h')
    · rfl
  · exact fun _ => ⟨_, mem_set_self_of_getElem? _ hi, rfl⟩
  · intro _ d h _ he
    rcases hset h with h | rfl
    · exact absurd he (hold h)
    · rfl

theorem Counts.set {calls : List (Call S)} {n : Nat} (h : Counts calls n)
    (hi : calls[i]? = some c) {c' : Call S} (hst : c'.stored = c.stored)
    (hs : c.stored → c'.stamp = c.stamp ∧ c'.size = c.size) : Counts (calls.set i c') n := by
  intro d hd hd' hmax
  rcases List.mem_or_eq_of_mem_set hd with hd | rfl
  · refine h d hd hd' fun e he hlt hes => ?_
    rcases mem_set_of_mem c' hi he with rfl | he
    · refine hmax c' (mem_set_self_of_getElem? _ hi) ?_ (hst ▸ hes)
      rwa [(hs hes).1]
    · exact hmax e he hlt hes
  · have hc : c.stored := hst ▸ hd'
    rw [(hs hc).2]
    refine h c (List.mem_of_getElem? hi) hc fun e he hlt hes => ?_
    rcases mem_set_of_mem d hi he with rfl | he
    · exact Nat.lt_irrefl _ hlt
    · exact hmax e he ((hs hc).1 ▸ hlt) hes

theorem Counts.store {calls : List (Call S)} (hi : calls[i]? = some c)
    (he : ∀ d ∈ calls, c.stamp = d.stamp → c.size = d.size)
    (hm : ∀ d ∈ calls, c.stamp < d.stamp → d.stored → d.size = c.size)
    {c' : Call S} (hst : c'.stored) (hs : c'.stamp = c.stamp) (hz : c'.size = c.size) :
    Counts (calls.set i c') c.size := by
  intro d hd hd' hmax
  rcases List.mem_or_eq_of_mem_set hd with hd | rfl
  · have hle : c.stamp ≤ d.stamp := by
      by_contra hlt
      refine hmax c' (mem_set_self_of_getElem? _ hi) ?_ hst
      rw [hs]
      omega
    rcases Nat.eq_or_lt_of_le hle with heq | hlt
    · exact he d hd heq
    · exact (hm d hd hlt hd').symm
  · exact hz.symm

theorem Inv.call (hi : Inv st) (op : Op S) :
    Inv { st with calls := st.calls ++ [⟨op, .change, false, 0, 0⟩] } := by
  have hsteady : ∀ {b : GenericSocketBackend S W},
      Steady { st with backend := b, calls := st.calls ++ [⟨op, .change, false, 0, 0⟩] } →
        Steady st :=
    fun h c hc => h c (List.mem_append_left _ hc)
  refine ⟨hi.toReads.call op, fun h => hi.unread (hsteady h), ?_, ?_⟩
  · intro c h hc hmax
    cases List.mem_append.mp h with
    | inl h => exact hi.count c h hc fun c' h' => hmax c' (List.mem_append_left _ h')
    | inr h =>
      rw [List.mem_singleton.mp h] at hc
      cases hc
  · intro hst c h hc
    cases List.mem_append.mp h with
    | inl h => exact hi.cache (hsteady hst) c h hc
    | inr h =>
      rw [List.mem_singleton.mp h] at hc
      cases hc

theorem Inv.change (hi : Inv st) (hc : st.calls[i]? = some c) (hpc : c.pc = .change)
    (removed : Bool) {b : GenericSocketBackend S W} (hb : b.peerCount = st.backend.peerCount) :
    Inv { st with
      backend := b, calls := st.calls.set i { c with pc := .len, removed := removed } } := by
  have hunsteady : ¬ Steady { st with
      backend := b, calls := st.calls.set i { c with pc := .len, removed := removed } } :=
    fun h => h _ (mem_set_self_of_getElem? _ hc) rfl
  refine ⟨?_, fun h => absurd h hunsteady, ?_, fun h => absurd h hunsteady⟩
  · exact hi.toReads.set hc { c with pc := .len, removed := removed } (by simp [Call.read, hpc])
      rfl rfl fun h => absurd h hunsteady
  · rw [hb]
    exact hi.count.set hc (by simp [Call.stored, hpc]) fun _ => ⟨rfl, rfl⟩

theorem Inv.len (hi : Inv st) (hc : st.calls[i]? = some c) (hpc : c.pc = .len) :
    Inv { st with
      calls := st.calls.set i
        { c with pc := .store, size := st.backend.peers.entries.length, stamp := st.reads + 1 }
      reads := st.reads + 1 } := by
  refine ⟨hi.toReads.len hc, fun _ h => absurd h (Nat.succ_ne_zero _), ?_, ?_⟩
  · exact hi.count.set hc (by simp [Call.stored, hpc]) fun h => by simp [Call.stored, hpc] at h
  · intro _ d h hd hs
    rcases List.mem_or_eq_of_mem_set h with h | rfl
    · have := hi.stamp_le d h
      simp only at hs
      omega
    · cases hd

theorem Steady.of_set {b : GenericSocketBackend S W} {c' : Call S}
    (h : Steady { st with backend := b, calls := st.calls.set i c' })
    (hc : st.calls[i]? = some c) (hpc : c.pc ≠ .len) : Steady st := by
  intro d hd
  rcases mem_set_of_mem c' hc hd with rfl | hd
  · exact hpc
  · exact h d hd

theorem Inv.reads_ne_zero (hi : Inv st) (hc : st.calls[i]? = some c) (hr : c.read) :
    st.reads ≠ 0 := by
  have hmem := List.mem_of_getElem? hc
  have hpos := hi.stamp_pos c hmem hr
  have hle := hi.stamp_le c hmem
  omega

theorem Inv.proceed (hi : Inv st) (hc : st.calls[i]? = some c) (hr : c.read) (hpc : c.pc ≠ .len)
    {pc : Pc} (hread : ({ c with pc := pc } : Call S).read) {b : GenericSocketBackend S W}
    (hp : b.peers = st.backend.peers) :
    Reads { st with backend := b, calls := st.calls.set i { c with pc := pc } } := by
  apply hi.toReads.set hc { c with pc := pc } (hread.trans hr.symm) rfl rfl
  intro h
  exact ⟨h.of_set hc hpc, hp⟩

theorem Inv.store (hi : Inv st) (hc : st.calls[i]? = some c) (hpc : c.pc = .store)
    (hm : ∀ d ∈ st.calls, c.stamp < d.stamp → d.stored → d.size = c.size) :
    Inv { st with
      backend := st.backend.storeCount c.size
      calls := st.calls.set i { c with pc := .rebuild } } := by
  have hmem := List.mem_of_getElem? hc
  have hread : c.read := by simp [Call.read, hpc]
  refine ⟨?_, ?_, ?_, ?_⟩
  · exact hi.proceed hc hread (by simp [hpc]) rfl rfl
  · exact fun _ h => absurd h (hi.reads_ne_zero hc hread)
  · exact Counts.store hc (hi.size_eq c hmem) hm rfl rfl rfl
  · intro hst d h hd hs
    rcases List.mem_or_eq_of_mem_set h with h | rfl
    · exact hi.cache (hst.of_set hc (by simp [hpc])) d h hd hs
    · cases hd

theorem Inv.rebuild (hi : Inv st) (hc : st.calls[i]? = some c) (hpc : c.pc = .rebuild)
    {first : Option SinglePeer} (hf : Begins st.backend.peers first)
    (hm : ∀ d ∈ st.calls, c.stamp < d.stamp → d.rebuilt → (d.size = 1 ↔ c.size = 1)) :
    Inv { st with
      backend := st.backend.rebuildCache c.size first
      calls := st.calls.set i { c with pc := .rest } } := by
  have hmem := List.mem_of_getElem? hc
  have hread : c.read := by simp [Call.read, hpc]
  refine ⟨?_, ?_, ?_, ?_⟩
  · exact hi.proceed hc hread (by simp [hpc]) rfl rfl
  · exact fun _ h => absurd h (hi.reads_ne_zero hc hread)
  · exact hi.count.set hc (by simp [Call.stored, hpc]) fun _ => ⟨rfl, rfl⟩
  · intro hst d h hd hs
    have hst' : Steady st := hst.of_set hc (by simp [hpc])
    -- either this call read last, or one that read as well whether there is a single peer
    have hsize : c.size = 1 ↔ st.backend.peers.entries.length = 1 := by
      rcases Nat.eq_or_lt_of_le (hi.stamp_le c hmem) with heq | hlt
      · rw [hi.fresh hst' c hmem hread heq]
      · rcases List.mem_or_eq_of_mem_set h with h | rfl
        · rw [← hi.fresh hst' d h (d.read_of_rebuilt hd) hs, hm d h (hs ▸ hlt) hd]
        · exact absurd hs (Nat.ne_of_lt hlt)
    change (if c.size = 1 then first else none) = onlyPeer st.backend.peers
    rw [GenericSocketBackend.onlyPeer_eq hf]
    simp only [hsize]

theorem Inv.rest (hi : Inv st) (hc : st.calls[i]? = some c) (hpc : c.pc = .rest)
    {b : GenericSocketBackend S W} (hp : b.peers = st.backend.peers)
    (hn : b.peerCount = st.backend.peerCount) (hs : b.singlePeer = st.backend.singlePeer) :
    Inv { st with backend := b, calls := st.calls.set i { c with pc := .done } } := by
  have hmem := List.mem_of_getElem? hc
  have hread : c.read := by simp [Call.read, hpc]
  refine ⟨?_, ?_, ?_, ?_⟩
  · exact hi.proceed hc hread (by simp [hpc]) rfl hp
  · exact fun _ h => absurd h (hi.reads_ne_zero hc hread)
  · rw [hn]
    exact hi.count.set hc (by simp [Call.stored, hpc]) fun _ => ⟨rfl, rfl⟩
  · intro hst d h hd he
    have hst' : Steady st := hst.of_set hc (by simp [hpc])
    rw [hs, hp]
    rcases List.mem_or_eq_of_mem_set h with h | rfl
    · exact hi.cache hst' d h hd he
    · exact hi.cache hst' c hmem (by simp [Call.rebuilt, hpc]) he

end Steps

theorem inv_init (fairQueueInner : Option (QueueInner S PeerIdentity W)) :
    Inv (State.init fairQueueInner) where
  stamp_le := by simp [State.init]
  stamp_pos := by simp [State.init]
  stamp_zero := by simp [State.init]
  size_eq := by simp [State.init]
  last := by simp [State.init]
  fresh := by simp [State.init]
  unread _ _ := ⟨rfl, rfl⟩
  count := by simp [State.init, Counts]
  cache := by simp [State.init]

variable [Target]

theorem inv_next {st st' : State S W} {a : Action S} (hm : Meets st a) (hi : Inv st)
    (h : next st a = some st') : Inv st' := by
  cases a with
  | call op =>
    cases h
    exact hi.call op
  | go i first =>
    obtain ⟨c, hc, h⟩ := Option.bind_eq_some_iff.mp h
    rw [State.callNext] at h
    split at h
    · rename_i hpc
      cases h
      refine hi.change hc hpc _ ?_
      cases c.op <;> rfl
    · rename_i hpc
      cases h
      exact hi.len hc hpc
    · rename_i hpc
      cases h
      exact hi.store hc hpc fun d hd hlt => (hm c hc d hd hlt).1 hpc
    · rename_i hpc
      split at h
      · rename_i hf
        cases h
        exact hi.rebuild hc hpc hf fun d hd hlt => (hm c hc d hd hlt).2 hpc
      · cases h
    · rename_i hpc
      cases h
      refine hi.rest hc hpc ?_ ?_ ?_ <;> cases c.op <;> rfl
    · cases h

/-- In the runs that meet the condition, the count and the cache say what the table
holds whenever all calls have returned. -/
theorem finished_coherent (fairQueueInner : Option (QueueInner S PeerIdentity W))
    {st : State S W} (h : ((system fairQueueInner).guarded Meets).Reachable st)
    (hd : ∀ c ∈ st.calls, c.pc = .done) : Coherent st.backend := by
  have hi : Inv st := by
    refine h.invariant_guarded (inv_init fairQueueInner) ?_
    exact fun _ _ _ hm hi hn => inv_next hm hi hn
  have hst : Steady st := fun c hc => by simp [hd c hc]
  rcases Nat.eq_zero_or_pos st.reads with h0 | hpos
  · exact hi.unread hst h0
  · obtain ⟨c, hc, hs⟩ := hi.last hpos
    have hpc := hd c hc
    have hsize := hi.fresh hst c hc (by simp [Call.read, hpc]) hs
    have hmax : ∀ c' ∈ st.calls, c.stamp < c'.stamp → ¬ c'.stored := by
      intro c' hc' hlt
      have := hi.stamp_le c' hc'
      omega
    have hcount := hi.count c hc (by simp [Call.stored, hpc]) hmax
    exact ⟨hcount.trans hsize, hi.cache hst c hc (by simp [Call.rebuilt, hpc]) hs⟩

def overlap (p q : PeerIdentity) (overtaking rest : List (Action Unit)) : List (Action Unit) :=
  [.call (.connected p ()), .call (.connected q ()), .go 0 none, .go 0 none, .go 1 none] ++
    overtaking ++ rest

omit [Target] in
theorem finished_coherent_inOrder :
    letI := Target.x64
    let p : PeerIdentity := .ofByte 1
    let q : PeerIdentity := .ofByte 2
    ∃ st : State Unit Unit,
      ((system none).guarded Meets).run (.init none)
        (overlap p q [.go 1 none, .go 0 none] [.go 1 none, .go 0 (some ⟨q, 1⟩), .go 1 (some ⟨p, 0⟩),
          .go 0 none, .go 1 none]) = some st ∧
      (∀ c ∈ st.calls, c.pc = .done) ∧ Coherent st.backend := by
  let _ := Target.x64
  intro p q
  have h : (((system none).guarded Meets).run (.init none : State Unit Unit)
        (overlap p q [.go 1 none, .go 0 none] [.go 1 none, .go 0 (some ⟨q, 1⟩), .go 1 (some ⟨p, 0⟩),
          .go 0 none, .go 1 none])).any (fun st => ∀ c ∈ st.calls, c.pc = .done) := by
    decide +kernel
  obtain ⟨st, hst, hd⟩ := (Option.any_eq_true _ _).mp h
  exact ⟨st, hst, of_decide_eq_true hd, finished_coherent none ⟨_, hst⟩ (of_decide_eq_true hd)⟩

omit [Target] in
/-- The first refresh stores and rebuilds after the second one has: with two peers in
the table, the count is 1 and every send goes to one of them. -/
theorem overtaken_incoherent :
    letI := Target.x64
    let p : PeerIdentity := .ofByte 1
    let q : PeerIdentity := .ofByte 2
    ∃ st : State Unit Unit,
      (system none).run (.init none)
        (overlap p q [.go 1 none, .go 1 none, .go 1 (some ⟨p, 0⟩), .go 1 none]
          [.go 0 none, .go 0 (some ⟨p, 0⟩), .go 0 none]) = some st ∧
      (∀ c ∈ st.calls, c.pc = .done) ∧ st.backend.peers.entries.length = 2 ∧
      st.backend.peerCount = 1 ∧ st.backend.singlePeer = some ⟨p, 0⟩ ∧ ¬ Coherent st.backend := by
  let _ := Target.x64
  intro p q
  refine ⟨_, rfl, by decide, rfl, rfl, rfl, fun h => ?_⟩
  exact absurd h.1 (by decide)

end Refresh

end ZmqRs
