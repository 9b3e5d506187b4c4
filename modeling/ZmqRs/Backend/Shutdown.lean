import ZmqRs.Backend.Refresh

/-! Dropping a socket over a `GenericSocketBackend`.  Its tasks hold the backend, the
backend holds the senders, and the writers end when the senders are gone; `shutdown`
breaks the cycle.  Calls of `peer_connected` and `peer_disconnected` may overlap with it
and may come after it. -/

namespace ZmqRs.Shutdown

open Codec (Message)
open GenericSocketBackend (Begins)

inductive Kind
  | push
  | pull
  | dealer
  | router
  deriving DecidableEq

namespace Kind

/-- PULL has no `Drop`; the drop of the others, or of what the halves share, is `shutdown`. -/
def shutsDown : Kind → Bool
  | .pull => false
  | .push | .dealer | .router => true

def splits : Kind → Bool
  | .dealer | .router => true
  | .push | .pull => false

def fairQueueInner {S W : Type} : Kind → Option (QueueInner S PeerIdentity W)
  | .push => none
  | .pull | .dealer | .router => some .new

end Kind

inductive Pc
  | alive
  | clearPeers
  | takeCache
  | storeCount
  | clearStreams
  | done
  deriving DecidableEq

/-- `sends` and `receives` say whether the socket, or the half for it, is there.  `hand` is
the stream that `poll_next` has taken out, `ended` are the connections whose writer has
ended.  A writer runs from the upsert of its connection on. -/
structure State (S W : Type) where
  calls : Refresh.State S W
  hand : Option (PeerIdentity × S)
  sends : Bool
  receives : Bool
  split : Bool
  shutdown : Pc
  ended : List Sender

inductive Action (S : Type)
  | call (a : Refresh.Action S)
  | send (p : PeerIdentity) (m : Message)
  | wake (p : PeerIdentity)
  | pop (e : ReadyEvent PeerIdentity)
  | putBack (s : S) (item : Bool)
  | streamEnded
  | split
  | dropSend
  | dropRecv
  | drop
  | shutdown
  | take (c : Sender)
  | fail (c : Sender)
  | finish (c : Sender)

def Action.isDrop : Action S → Bool
  | .drop => true
  | _ => false

variable {S W : Type}

namespace State

def init (kind : Kind) : State S W :=
  ⟨.init kind.fairQueueInner, none, true, true, false, .alive, []⟩

def backend (st : State S W) : GenericSocketBackend S W := st.calls.backend

def setBackend (st : State S W) (b : GenericSocketBackend S W) : State S W :=
  { st with calls := { st.calls with backend := b } }

def setInner (st : State S W) (inner : QueueInner S PeerIdentity W) : State S W :=
  st.setBackend { st.backend with fairQueueInner := some inner }

def applyChannel (st : State S W) (e : ChannelEvent) : State S W :=
  st.setBackend { st.backend with channels := st.backend.channels.apply e }

def writer (st : State S W) (c : Sender) : Option (List Message) :=
  if c ∈ st.ended then none else (st.backend.channels[c]?).map (·.queue)

def HasSender (st : State S W) (c : Sender) : Prop :=
  (∃ e ∈ st.backend.peers.entries, e.2 = c) ∨ ∃ single ∈ st.backend.singlePeer, single.sendQueue = c

instance (st : State S W) (c : Sender) : Decidable (st.HasSender c) :=
  inferInstanceAs (Decidable (_ ∨ _))

def dropped (kind : Kind) (st : State S W) : State S W :=
  if st.sends ∨ st.receives then st
  else { st with shutdown := if kind.shutsDown then .clearPeers else .done }

def shutdownNext (st : State S W) : Option (State S W) :=
  match st.shutdown with
  | .alive => none
  | .clearPeers => some { st.setBackend { st.backend with peers := ∅ } with shutdown := .takeCache }
  | .takeCache =>
    some { st.setBackend { st.backend with singlePeer := none } with shutdown := .storeCount }
  | .storeCount =>
    some { st.setBackend (st.backend.storeCount 0) with shutdown := .clearStreams }
  | .clearStreams =>
    some { st.setBackend { st.backend with
      fairQueueInner := st.backend.fairQueueInner.map fun inner => inner.clear.1 } with
      shutdown := .done }
  | .done => none

end State

section Model

variable [Target] (kind : Kind)

def next (st : State S W) : Action S → Option (State S W)
  | .call a => (Refresh.next st.calls a).map fun calls => { st with calls := calls }
  | .send p m =>
    if st.sends then
      (st.backend.peers.lookup p).map fun c =>
        st.setBackend { st.backend with channels := st.backend.channels.push c m }
    else none
  | .wake p => st.backend.fairQueueInner.map fun inner => st.setInner (inner.wake p).1
  | .pop e =>
    match st.hand, st.backend.fairQueueInner with
    | none, some inner =>
      if st.receives ∧ inner.Greatest e then
        let (stream, inner) := inner.take e
        some { st.setInner inner with hand := stream.map (e.key, ·) }
      else none
    | _, _ => none
  | .putBack s item =>
    match st.hand, st.backend.fairQueueInner with
    | some (p, _), some inner =>
      let inner := inner.putBack p s
      some { st.setInner (if item then inner.pushReady p else inner) with hand := none }
    | _, _ => none
  | .streamEnded => st.hand.map fun _ => { st with hand := none }
  | .split =>
    if kind.splits ∧ st.sends ∧ st.receives ∧ st.hand.isNone then some { st with split := true }
    else none
  | .dropSend =>
    if st.split ∧ st.sends then some ({ st with sends := false }.dropped kind) else none
  | .dropRecv =>
    -- a poll borrows the half, so that it is not dropped during one
    if st.split ∧ st.receives ∧ st.hand.isNone then some ({ st with receives := false }.dropped kind)
    else none
  | .drop =>
    if ¬ st.split ∧ st.sends ∧ st.receives ∧ st.hand.isNone then
      some ({ st with sends := false, receives := false }.dropped kind)
    else none
  | .shutdown => st.shutdownNext
  | .take c =>
    match st.writer c with
    | some (_ :: _) => some (st.applyChannel (.received c))
    | _ => none
  | .fail c =>
    -- the call of `peer_disconnected` that follows is one of the calls
    match st.writer c with
    | some _ => some { st.applyChannel (.closed c) with ended := c :: st.ended }
    | none => none
  | .finish c =>
    match st.writer c with
    | some [] =>
      if st.HasSender c then none
      else some { st.applyChannel (.closed c) with ended := c :: st.ended }
    | _ => none

def system : Lib.System (State S W) (Action S) where
  init := .init kind
  next := next kind

end Model

structure Released (st : State S W) : Prop where
  peers : st.backend.peers.entries = []
  singlePeer : st.backend.singlePeer = none
  streams : ∀ inner ∈ st.backend.fairQueueInner, inner.streams.entries = []
  hand : st.hand = none

instance (st : State S W) : Decidable (Released st) :=
  decidable_of_iff
    (st.backend.peers.entries = [] ∧ st.backend.singlePeer = none ∧
      (∀ inner ∈ st.backend.fairQueueInner, inner.streams.entries = []) ∧ st.hand.isNone)
    ⟨fun ⟨hp, hc, hs, hh⟩ => ⟨hp, hc, hs, Option.isNone_iff_eq_none.mp hh⟩,
      fun h => ⟨h.peers, h.singlePeer, h.streams, Option.isNone_iff_eq_none.mpr h.hand⟩⟩

def Pc.cleared : Pc → Bool
  | .alive | .clearPeers => false
  | .takeCache | .storeCount | .clearStreams | .done => true

def Pc.taken : Pc → Bool
  | .alive | .clearPeers | .takeCache => false
  | .storeCount | .clearStreams | .done => true

def connecting (st : State S W) : Action S → Option Refresh.Pc
  | .call (.go i _) =>
    match st.calls.calls[i]? with
    | some ⟨.connected _ _, pc, _, _, _⟩ => some pc
    | _ => none
  | _ => none

/-- A PULL is dropped when it has nothing, and no call of `peer_connected` puts its entry
into the table once that is cleared, or its stream into the fair queue once that is. -/
def Meets (kind : Kind) (st : State S W) (a : Action S) : Prop :=
  (a.isDrop → kind.shutsDown = false → Released st) ∧
    (connecting st a = some .change → st.shutdown.cleared = false) ∧
    (connecting st a = some .rest → st.shutdown = .done → st.backend.fairQueueInner.isNone)

instance (kind : Kind) (st : State S W) (a : Action S) : Decidable (Meets kind st a) :=
  inferInstanceAs (Decidable (_ ∧ _ ∧ _))

structure Clean (pc : Pc) (b : GenericSocketBackend S W) : Prop where
  peers : pc.cleared → b.peers.entries = []
  cache : pc.taken → b.singlePeer = none
  streams : pc = .done → ∀ inner ∈ b.fairQueueInner, inner.streams.entries = []

structure Inv (kind : Kind) (st : State S W) : Prop where
  hand : st.receives = false → st.hand = none
  dropped : st.shutdown ≠ .alive → st.sends = false ∧ st.receives = false
  split : st.split → kind.splits
  clean : Clean st.shutdown st.backend

theorem Clean.alive (b : GenericSocketBackend S W) : Clean .alive b where
  peers h := by cases h
  cache h := by cases h
  streams h := by cases h

theorem inv_init (kind : Kind) : Inv kind (.init kind : State S W) where
  hand _ := rfl
  dropped h := absurd rfl h
  split h := by cases h
  clean := .alive _

section Calls

variable {pc : Pc} {b : GenericSocketBackend S W}

theorem Clean.change (hc : Clean pc b) {op : Refresh.Op S}
    (h : ∀ p s, op = .connected p s → pc.cleared = false) : Clean pc (Refresh.State.change b op) := by
  cases op with
  | connected p s =>
    refine ⟨fun hp => ?_, hc.cache, hc.streams⟩
    simp [h p s rfl] at hp
  | disconnected p =>
    refine ⟨fun hp => ?_, hc.cache, hc.streams⟩
    change (b.peers.entries.kerase p) = []
    rw [hc.peers hp, List.kerase_nil]

theorem Clean.rest [Target] (hc : Clean pc b) {op : Refresh.Op S} (removed : Bool)
    (h : ∀ p s, op = .connected p s → pc = .done → b.fairQueueInner.isNone) :
    Clean pc (Refresh.State.rest b removed op) := by
  cases op with
  | connected p s =>
    refine ⟨hc.peers, hc.cache, fun hp inner hi => ?_⟩
    have hn := Option.isNone_iff_eq_none.mp (h p s rfl hp)
    simp [Refresh.State.rest, GenericSocketBackend.insertStream, hn] at hi
  | disconnected p =>
    refine ⟨hc.peers, hc.cache, fun hp inner hi => ?_⟩
    obtain ⟨inner', hi', rfl⟩ := Option.map_eq_some_iff.mp hi
    change (inner'.streams.entries.kerase p) = []
    rw [hc.streams hp inner' hi', List.kerase_nil]

theorem Clean.rebuild (hc : Clean pc b) (size : Nat) {first : Option SinglePeer}
    (hf : Begins b.peers first) : Clean pc (b.rebuildCache size first) := by
  refine ⟨hc.peers, fun hp => ?_, hc.streams⟩
  have hn : first = none := by
    cases first with
    | none => rfl
    | some first =>
      have hmem := AList.mem_lookup_iff.mp hf
      have hcl : pc.cleared := by
        cases pc <;> first | rfl | cases hp
      rw [hc.peers hcl] at hmem
      cases hmem
  subst hn
  simp [GenericSocketBackend.rebuildCache]

end Calls

variable {kind : Kind} {st : State S W}

theorem Inv.setCalls (hi : Inv kind st) {calls : Refresh.State S W}
    (hc : Clean st.shutdown calls.backend) : Inv kind { st with calls := calls } where
  hand := hi.hand
  dropped := hi.dropped
  split := hi.split
  clean := hc

theorem Inv.call [Target] (hi : Inv kind st) {a : Refresh.Action S} (hm : Meets kind st (.call a))
    {calls : Refresh.State S W} (h : Refresh.next st.calls a = some calls) :
    Inv kind { st with calls := calls } := by
  refine hi.setCalls ?_
  have hc := hi.clean
  cases a with
  | call op =>
    cases h
    exact hc
  | go i first =>
    obtain ⟨c, hcall, h⟩ := Option.bind_eq_some_iff.mp h
    have hcon : ∀ {p s}, c.op = .connected p s →
        connecting st (.call (.go i first)) = some c.pc := by
      intro p s hop
      obtain ⟨op, pc, removed, size, stamp⟩ := c
      subst hop
      simp [connecting, hcall]
    rw [Refresh.State.callNext] at h
    split at h
    · rename_i hpc
      cases h
      exact hc.change fun p s hop => hm.2.1 (hpc ▸ hcon hop)
    · cases h
      exact hc
    · cases h
      exact ⟨hc.peers, hc.cache, hc.streams⟩
    · split at h
      · rename_i hb
        cases h
        exact hc.rebuild c.size hb
      · cases h
    · rename_i hpc
      cases h
      exact hc.rest c.removed fun p s hop hd => hm.2.2 (hpc ▸ hcon hop) hd
    · cases h

theorem Inv.alive_of_receives (hi : Inv kind st) (h : st.receives) : st.shutdown = .alive := by
  by_contra hne
  simp [(hi.dropped hne).2] at h

theorem Inv.alive_of_sends (hi : Inv kind st) (h : st.sends) : st.shutdown = .alive := by
  by_contra hne
  simp [(hi.dropped hne).1] at h

theorem Inv.receives_of_hand (hi : Inv kind st) {x : PeerIdentity × S} (h : st.hand = some x) :
    st.receives := by
  by_contra hne
  rw [hi.hand (by simpa using hne)] at h
  cases h

theorem Inv.setInner (hi : Inv kind st) (hr : st.receives = true)
    (inner : QueueInner S PeerIdentity W) (hand : Option (PeerIdentity × S)) :
    Inv kind { st.setInner inner with hand := hand } := by
  have ha := hi.alive_of_receives hr
  refine ⟨?_, fun hne => absurd ha hne, hi.split, ?_⟩
  · intro hf
    exact absurd (hr.symm.trans hf) Bool.noConfusion
  · change Clean st.shutdown _
    rw [ha]
    exact .alive _

theorem Inv.shutsDown_of_split (hi : Inv kind st) (hs : st.split = true) :
    kind.shutsDown = true := by
  have hsplits := hi.split hs
  cases kind <;> simp_all [Kind.splits, Kind.shutsDown]

theorem Inv.dropHandle (hi : Inv kind st) {sends receives : Bool} (ha : st.shutdown = .alive)
    (hh : receives = false → st.hand = none)
    (hrel : sends = false → receives = false → kind.shutsDown = false → Released st) :
    Inv kind ({ st with sends := sends, receives := receives }.dropped kind) := by
  rw [State.dropped]
  split
  · exact ⟨hh, fun hne => absurd ha hne, hi.split, hi.clean⟩
  · rename_i hnone
    simp only [not_or, Bool.not_eq_true] at hnone
    obtain ⟨rfl, rfl⟩ := hnone
    refine ⟨hh, fun _ => ⟨rfl, rfl⟩, hi.split, ?_⟩
    change Clean (if kind.shutsDown then .clearPeers else .done) st.backend
    split
    · exact ⟨nofun, nofun, nofun⟩
    · rename_i hk
      have hr := hrel rfl rfl (by simpa using hk)
      exact ⟨fun _ => hr.peers, fun _ => hr.singlePeer, fun _ => hr.streams⟩

theorem Inv.shutdownNext (hi : Inv kind st) {st' : State S W} (h : st.shutdownNext = some st') :
    Inv kind st' := by
  have hc := hi.clean
  rw [State.shutdownNext] at h
  split at h
  · cases h
  all_goals rename_i hpc
  · cases h
    have hd := hi.dropped (by simp [hpc])
    refine ⟨hi.hand, fun _ => hd, hi.split, ⟨fun _ => rfl, nofun, nofun⟩⟩
  · cases h
    have hd := hi.dropped (by simp [hpc])
    refine ⟨hi.hand, fun _ => hd, hi.split, ⟨?_, fun _ => rfl, nofun⟩⟩
    exact fun _ => hc.peers (by rw [hpc]; rfl)
  · cases h
    have hd := hi.dropped (by simp [hpc])
    refine ⟨hi.hand, fun _ => hd, hi.split, ⟨?_, ?_, nofun⟩⟩
    · exact fun _ => hc.peers (by rw [hpc]; rfl)
    · exact fun _ => hc.cache (by rw [hpc]; rfl)
  · cases h
    have hd := hi.dropped (by simp [hpc])
    refine ⟨hi.hand, fun _ => hd, hi.split, ⟨?_, ?_, ?_⟩⟩
    · exact fun _ => hc.peers (by rw [hpc]; rfl)
    · exact fun _ => hc.cache (by rw [hpc]; rfl)
    · rintro - inner hin
      obtain ⟨inner', -, rfl⟩ := Option.map_eq_some_iff.mp hin
      rfl
  · cases h

theorem Inv.setChannels (hi : Inv kind st) (channels : Channels) (ended : List Sender) :
    Inv kind { st.setBackend { st.backend with channels := channels } with ended := ended } where
  hand := hi.hand
  dropped := hi.dropped
  split := hi.split
  clean := ⟨hi.clean.peers, hi.clean.cache, hi.clean.streams⟩

section Steps

variable [Target]

theorem inv_next (hi : Inv kind st) {a : Action S} (hm : Meets kind st a) {st' : State S W}
    (h : next kind st a = some st') : Inv kind st' := by
  cases a with
  | call a =>
    obtain ⟨calls, hcalls, rfl⟩ := Option.map_eq_some_iff.mp h
    exact hi.call hm hcalls
  | send p m =>
    simp only [next] at h
    split at h
    · obtain ⟨c, -, rfl⟩ := Option.map_eq_some_iff.mp h
      exact hi.setChannels _ st.ended
    · cases h
  | wake p =>
    obtain ⟨inner, hinner, rfl⟩ := Option.map_eq_some_iff.mp h
    refine hi.setCalls ⟨hi.clean.peers, hi.clean.cache, fun hd inner' hi' => ?_⟩
    cases hi'
    change (inner.pushReady p).streams.entries = []
    rw [QueueInner.pushReady_streams]
    exact hi.clean.streams hd inner hinner
  | pop e =>
    simp only [next] at h
    split at h
    · split at h
      · rename_i hr
        cases h
        exact hi.setInner hr.1 _ _
      · cases h
    · cases h
  | putBack s item =>
    simp only [next] at h
    split at h
    · rename_i hh hin
      cases h
      exact hi.setInner (hi.receives_of_hand hh) _ none
    · cases h
  | streamEnded =>
    obtain ⟨x, -, rfl⟩ := Option.map_eq_some_iff.mp h
    exact ⟨fun _ => rfl, hi.dropped, hi.split, hi.clean⟩
  | split =>
    simp only [next] at h
    split at h
    · rename_i hs
      cases h
      exact ⟨hi.hand, hi.dropped, fun _ => hs.1, hi.clean⟩
    · cases h
  | dropSend =>
    simp only [next] at h
    split at h
    · rename_i hs
      cases h
      apply hi.dropHandle (hi.alive_of_sends hs.2) hi.hand
      intro _ _ hk
      cases hk.symm.trans (hi.shutsDown_of_split hs.1)
    · cases h
  | dropRecv =>
    simp only [next] at h
    split at h
    · rename_i hs
      cases h
      apply hi.dropHandle (hi.alive_of_receives hs.2.1)
        (fun _ => Option.isNone_iff_eq_none.mp hs.2.2)
      intro _ _ hk
      cases hk.symm.trans (hi.shutsDown_of_split hs.1)
    · cases h
  | drop =>
    simp only [next] at h
    split at h
    · rename_i hs
      cases h
      refine hi.dropHandle (hi.alive_of_sends hs.2.1)
        (fun _ => Option.isNone_iff_eq_none.mp hs.2.2.2) fun _ _ hk => ?_
      exact hm.1 rfl hk
    · cases h
  | shutdown => exact hi.shutdownNext h
  | take c =>
    simp only [next] at h
    split at h
    · cases h
      exact hi.setChannels _ st.ended
    · cases h
  | fail c =>
    simp only [next] at h
    split at h
    · cases h
      exact hi.setChannels _ _
    · cases h
  | finish c =>
    simp only [next] at h
    split at h
    · split at h
      · cases h
      · cases h
        exact hi.setChannels _ _
    · cases h

omit [Target] in
theorem Inv.released (hi : Inv kind st) (hd : st.shutdown = .done) : Released st where
  peers := hi.clean.peers (by rw [hd]; rfl)
  singlePeer := hi.clean.cache (by rw [hd]; rfl)
  streams := hi.clean.streams hd
  hand := hi.hand (hi.dropped (by simp [hd])).2

omit [Target] in
theorem Released.not_hasSender (hr : Released st) (c : Sender) : ¬ st.HasSender c := by
  rintro (⟨e, he, -⟩ | ⟨single, hs, -⟩)
  · rw [hr.peers] at he
    cases he
  · rw [hr.singlePeer] at hs
    cases hs

omit [Target] in
theorem writer_received {c : Sender} {m : Message} {queue : List Message}
    (h : st.writer c = some (m :: queue)) :
    (st.applyChannel (.received c)).writer c = some queue := by
  rw [State.writer] at h ⊢
  split at h
  · cases h
  · rename_i hc
    obtain ⟨channel, hch, hq⟩ := Option.map_eq_some_iff.mp h
    have hc' : c ∉ (st.applyChannel (.received c)).ended := hc
    rw [if_neg hc']
    change ((st.backend.channels.modify c _)[c]?).map _ = _
    rw [List.getElem?_modify, hch]
    simp [hq]

theorem writer_ends {c : Sender} {queue : List Message} (hw : st.writer c = some queue)
    (hs : ¬ st.HasSender c) :
    ∃ st', (system kind).run st (List.replicate queue.length (.take c) ++ [.finish c]) = some st' ∧
      st'.writer c = none := by
  induction queue generalizing st with
  | nil =>
    refine ⟨{ st.applyChannel (.closed c) with ended := c :: st.ended }, ?_, ?_⟩
    · simp [system, Lib.System.run, next, hw, hs]
    · simp [State.writer]
  | cons m queue ih =>
    have hnext : (system kind).next st (.take c) = some (st.applyChannel (.received c)) := by
      simp [system, next, hw]
    obtain ⟨st', hrun, hend⟩ := ih (writer_received hw) hs
    refine ⟨st', ?_, hend⟩
    rw [List.length_cons, List.replicate_succ, List.cons_append, Lib.System.run_cons, hnext]
    exact hrun

/-- After the drop nothing is left of the peers, and every writer comes to its end. -/
theorem drop_releases (h : ((system kind).guarded (Meets kind)).Reachable st)
    (hd : st.shutdown = .done) :
    Released st ∧ ∀ c queue, st.writer c = some queue →
      ∃ st', (system kind).run st (List.replicate queue.length (.take c) ++ [.finish c]) = some st' ∧
        st'.writer c = none := by
  have hi : Inv kind st :=
    h.invariant_guarded (inv_init kind) fun _ _ _ hm hi hn => inv_next hi hm hn
  have hr := hi.released hd
  exact ⟨hr, fun c queue hw => writer_ends hw (hr.not_hasSender c)⟩

end Steps

def connect (i : Nat) (p : PeerIdentity) : List (Action Unit) :=
  [.call (.call (.connected p ())), .call (.go i none), .call (.go i none), .call (.go i none),
    .call (.go i (some ⟨p, i⟩)), .call (.go i none)]

def overlapping (q : PeerIdentity) : List (Action Unit) :=
  [.call (.call (.connected q ())), .call (.go 1 none), .drop, .call (.go 1 none), .shutdown,
    .call (.go 1 none), .shutdown, .call (.go 1 none), .shutdown, .call (.go 1 none), .shutdown]

theorem drop_releases_overlapping :
    letI := Target.x64
    ∃ st : State Unit Unit, ((system .dealer).guarded (Meets .dealer)).run (.init .dealer)
        (connect 0 (.ofByte 1) ++ overlapping (.ofByte 2)) = some st ∧
      st.shutdown = .done ∧ (∀ c ∈ st.calls.calls, c.pc = .done) ∧ Released st := by
  let _ := Target.x64
  have h : (((system .dealer).guarded (Meets .dealer)).run (.init .dealer : State Unit Unit)
      (connect 0 (.ofByte 1) ++ overlapping (.ofByte 2))).any fun st =>
        st.shutdown = .done ∧ ∀ c ∈ st.calls.calls, c.pc = .done := by decide +kernel
  obtain ⟨st, hst, h⟩ := (Option.any_eq_true _ _).mp h
  obtain ⟨hd, hc⟩ := of_decide_eq_true h
  exact ⟨st, hst, hd, hc, (drop_releases ⟨_, hst⟩ hd).1⟩

/-- The drop of a PULL releases nothing, and a callback that is still in its handshake
when another socket is dropped registers its peer after `shutdown`.  The writer can never
end. -/
theorem dropped_keepsPeer :
    letI := Target.x64
    let p : PeerIdentity := .ofByte 1
    let late : List (Action Unit) :=
      [.drop, .shutdown, .shutdown, .shutdown, .shutdown] ++ connect 0 p
    ∀ x ∈ [(Kind.pull, connect 0 p ++ [.drop]), (.push, late), (.dealer, late), (.router, late)],
      ∃ st : State Unit Unit, (system x.1).run (.init x.1) x.2 = some st ∧ st.shutdown = .done ∧
        (∀ c ∈ st.calls.calls, c.pc = .done) ∧ ¬ Released st ∧
        st.writer 0 = some [] ∧ st.HasSender 0 := by
  let _ := Target.x64
  intro p late x hx
  have h : ((system x.1).run (.init x.1 : State Unit Unit) x.2).any fun st =>
      st.shutdown = .done ∧ (∀ c ∈ st.calls.calls, c.pc = .done) ∧ ¬ Released st ∧
        st.writer 0 = some [] ∧ st.HasSender 0 := by
    revert x
    decide +kernel
  obtain ⟨st, hst, h⟩ := (Option.any_eq_true _ _).mp h
  exact ⟨st, hst, of_decide_eq_true h⟩

end ZmqRs.Shutdown
