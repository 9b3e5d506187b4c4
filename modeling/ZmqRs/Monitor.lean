import ZmqRs.Lib.Transition
import ZmqRs.SubBackend

/-! What a monitor is told about lost connections.  Five backends implement `peer_disconnected`;
writer tasks, reader tasks, `recv`, the fair queue and failed sends call it. -/

namespace ZmqRs.Monitor

inductive Kind
  | generic
  | sub
  | pub
  | xpub
  | rep
  deriving DecidableEq

/-- The locked sections of `peer_disconnected` that have to do with the monitor, the table and
the fair queue.  `emitRemoved` sends the event if `remove` found an entry. -/
inductive Section
  | emit
  | remove
  | stream
  | emitRemoved
  deriving DecidableEq

def Kind.peerDisconnected : Kind → List Section
  | .generic => [.remove, .stream, .emitRemoved]
  | .sub => [.emit, .remove, .stream]
  | .pub => [.emit, .remove]
  | .xpub => [.remove, .stream]
  | .rep => [.emit, .remove]

def Kind.spawnsWriter : Kind → Bool
  | .generic | .pub => true
  | _ => false

def Kind.spawnsReader : Kind → Bool
  | .pub => true
  | _ => false

def Kind.hasQueue : Kind → Bool
  | .pub => false
  | _ => true

def Kind.sendDisconnects : Kind → Bool
  | .generic | .sub | .xpub => true
  | _ => false

def Kind.clearsQueue : Kind → Bool
  | .generic | .sub => true
  | _ => false

structure Call where
  peer : PeerIdentity
  todo : List Section
  emitted : Bool
  found : Bool

/-- Connections are numbered, `owners` are their peers.  `spawning` and `inserting` are those
whose `peer_connected` has still to spawn the tasks, or to put the stream into the fair queue.
`polled` is the stream that `poll_next` has taken out.  `calls` are all calls of
`peer_disconnected` so far, `events` what they sent to the monitor, and `removed` whose entries
they took out of the table. -/
structure State where
  table : AList fun _ : PeerIdentity => Nat
  streams : AList fun _ : PeerIdentity => Nat
  polled : Option (PeerIdentity × Nat)
  owners : List PeerIdentity
  spawning : List Nat
  inserting : List Nat
  writers : List Nat
  readers : List Nat
  calls : List Call
  events : List PeerIdentity
  removed : List PeerIdentity

/-- `putBack` is a poll that is pending or gives an item; `error` one that gives an error to a
`recv` that disconnects the peer. -/
inductive Action
  | upsert (p : PeerIdentity)
  | spawn (c : Nat)
  | insert (c : Nat)
  | writerFails (c : Nat)
  | readerEnds (c : Nat)
  | take (p : PeerIdentity)
  | putBack
  | error
  | ended
  | sendFails (p : PeerIdentity)
  | shutdown
  | go (i : Nat)

namespace State

def init : State := ⟨∅, ∅, none, [], [], [], [], [], [], [], []⟩

def begin (st : State) (kind : Kind) (p : PeerIdentity) : State :=
  { st with calls := st.calls ++ [⟨p, kind.peerDisconnected, false, false⟩] }

def goNext (st : State) (i : Nat) (call : Call) : Option State :=
  match call.todo with
  | [] => none
  | .emit :: todo =>
    some { st with
      events := st.events ++ [call.peer]
      calls := st.calls.set i { call with todo := todo, emitted := true } }
  | .remove :: todo =>
    let found := (st.table.lookup call.peer).isSome
    some { st with
      table := st.table.erase call.peer
      removed := st.removed ++ if found then [call.peer] else []
      calls := st.calls.set i { call with todo := todo, found := found } }
  | .stream :: todo =>
    some { st with
      streams := st.streams.erase call.peer
      calls := st.calls.set i { call with todo := todo } }
  | .emitRemoved :: todo =>
    some { st with
      events := st.events ++ if call.found then [call.peer] else []
      calls := st.calls.set i { call with todo := todo, emitted := call.found } }

def upsert (st : State) (kind : Kind) (p : PeerIdentity) : State :=
  { st with
    table := st.table.insert p st.owners.length
    owners := st.owners ++ [p]
    spawning := if kind.spawnsWriter then st.spawning ++ [st.owners.length] else st.spawning
    inserting := if kind.hasQueue then st.inserting ++ [st.owners.length] else st.inserting }

def next (kind : Kind) (st : State) : Action → Option State
  | .upsert p => some (st.upsert kind p)
  | .spawn c =>
    if c ∈ st.spawning then
      some { st with
        spawning := st.spawning.erase c
        writers := st.writers ++ [c]
        readers := if kind.spawnsReader then st.readers ++ [c] else st.readers }
    else none
  | .insert c =>
    match st.owners[c]? with
    | some p =>
      if c ∈ st.inserting ∧ c ∉ st.spawning then
        some { st with
          inserting := st.inserting.erase c
          streams := st.streams.insert p c }
      else none
    | none => none
  | .writerFails c =>
    match st.owners[c]? with
    | some p =>
      if c ∈ st.writers then some ({ st with writers := st.writers.erase c }.begin kind p) else none
    | none => none
  | .readerEnds c =>
    match st.owners[c]? with
    | some p =>
      if c ∈ st.readers then some ({ st with readers := st.readers.erase c }.begin kind p) else none
    | none => none
  | .take p =>
    match st.polled, st.streams.lookup p with
    | none, some c => some { st with polled := some (p, c), streams := st.streams.erase p }
    | _, _ => none
  | .putBack =>
    st.polled.map fun (p, c) => { st with polled := none, streams := st.streams.insert p c }
  | .error =>
    st.polled.map fun (p, c) =>
      { st with polled := none, streams := st.streams.insert p c }.begin kind p
  | .ended => st.polled.map fun (p, _) => { st with polled := none }.begin kind p
  | .sendFails p =>
    if kind.sendDisconnects ∧ p ∈ st.owners then some (st.begin kind p) else none
  | .shutdown =>
    some { st with
      table := ∅
      streams := if kind.clearsQueue then ∅ else st.streams }
  | .go i => st.calls[i]?.bind (st.goNext i)

end State

def system (kind : Kind) : Lib.System State Action where
  init := .init
  next := State.next kind

def Kind.tells : Kind → Bool → Bool
  | .generic, found => found
  | .sub, _ | .pub, _ | .rep, _ => true
  | .xpub, _ => false

theorem run_peerDisconnected (kind : Kind) (st : State) (p : PeerIdentity) :
    ∃ st', (system kind).run (st.begin kind p)
        (List.replicate kind.peerDisconnected.length (.go st.calls.length)) = some st' ∧
      st'.table = st.table.erase p ∧
      st'.events = st.events ++ if kind.tells (st.table.lookup p).isSome then [p] else [] := by
  cases kind <;> cases hl : (st.table.lookup p).isSome <;>
    simp [system, Lib.System.run, Kind.peerDisconnected, State.begin, State.next, State.goNext,
      Kind.tells, List.replicate_succ, hl]

section Whole

variable {S W N : Type} {st : State} (p : PeerIdentity)

theorem run_generic_peerDisconnected {b : GenericSocketBackend S W} (ht : st.table = b.peers)
    (hm : b.monitor = some st.events) :
    ∃ st', (system .generic).run (st.begin .generic p)
        (List.replicate 3 (.go st.calls.length)) = some st' ∧
      st'.table = (b.peerDisconnected p).peers ∧
      (b.peerDisconnected p).monitor = some st'.events := by
  obtain ⟨st', hrun, ht', he⟩ := run_peerDisconnected .generic st p
  refine ⟨st', hrun, ?_, ?_⟩
  · rw [ht', ht]
    rfl
  · change (if (b.peers.lookup p).isSome then b.monitor.map (· ++ [p]) else b.monitor) = _
    rw [he, ht, hm, Kind.tells]
    split
    · rfl
    · rw [List.append_nil]

theorem run_sub_peerDisconnected {b : SubSocketBackend S W N} (ht : st.table = b.peers)
    (hm : b.monitor = some st.events) :
    ∃ st', (system .sub).run (st.begin .sub p)
        (List.replicate 3 (.go st.calls.length)) = some st' ∧
      st'.table = (b.peerDisconnected p).peers ∧
      (b.peerDisconnected p).monitor = some st'.events := by
  obtain ⟨st', hrun, ht', he⟩ := run_peerDisconnected .sub st p
  refine ⟨st', hrun, ?_, ?_⟩
  · rw [ht', ht]
    rfl
  · rw [he]
    exact congrArg (Option.map (· ++ [p])) hm

end Whole

def Kind.agrees : Kind → Bool → Bool
  | .generic, _ => true
  | .sub, found | .pub, found | .rep, found => found
  | .xpub, found => !found

/-- A call that comes to the table finds an entry (SUB, PUB and REP) or none (XPUB). -/
def meets (kind : Kind) (st : State) : Action → Bool
  | .go i =>
    match st.calls[i]? with
    | some ⟨p, .remove :: _, _, _⟩ => kind.agrees (st.table.lookup p).isSome
    | _ => true
  | _ => true

def Kind.Law : Kind → Bool → Bool → Prop
  | .generic, emitted, found => emitted = found
  | .sub, emitted, _ | .pub, emitted, _ | .rep, emitted, _ => emitted = true
  | .xpub, emitted, _ => emitted = false

theorem Kind.Law.agrees_iff {kind : Kind} {emitted found : Bool} (h : kind.Law emitted found) :
    kind.agrees found = true ↔ emitted = found := by
  revert h
  cases kind <;> cases emitted <;> cases found <;> simp [Kind.Law, Kind.agrees]

def Settles (kind : Kind) : List Section → Bool → Bool → Prop
  | [], emitted, found => kind.Law emitted found
  | .emit :: todo, emitted, found => emitted = false ∧ Settles kind todo true found
  | .remove :: todo, emitted, found => found = false ∧ ∀ found, Settles kind todo emitted found
  | .stream :: todo, emitted, found => Settles kind todo emitted found
  | .emitRemoved :: todo, emitted, found => emitted = false ∧ Settles kind todo found found

theorem settles_peerDisconnected (kind : Kind) :
    Settles kind kind.peerDisconnected false false := by
  cases kind <;> simp [Kind.peerDisconnected, Settles, Kind.Law]

theorem Settles.remove_notMem {kind : Kind} {todo : List Section} {emitted : Bool}
    (h : Settles kind todo emitted true) : .remove ∉ todo := by
  induction todo generalizing emitted with
  | nil => exact List.not_mem_nil
  | cons s todo ih =>
    cases s with
    | emit => exact List.not_mem_cons_of_ne_of_not_mem nofun (ih h.2)
    | remove => cases h.1
    | stream => exact List.not_mem_cons_of_ne_of_not_mem nofun (ih h)
    | emitRemoved => exact List.not_mem_cons_of_ne_of_not_mem nofun (ih h.2)

structure Inv (kind : Kind) (st : State) : Prop where
  settles : ∀ call ∈ st.calls, Settles kind call.todo call.emitted call.found
  events : ∀ p, st.events.count p = st.calls.countP fun call => call.emitted && call.peer == p
  removed : ∀ p, st.removed.count p = st.calls.countP fun call => call.found && call.peer == p

def Begins (kind : Kind) (st st' : State) : Prop :=
  ∃ peers : List PeerIdentity,
    st'.calls = st.calls ++ peers.map (⟨·, kind.peerDisconnected, false, false⟩) ∧
    st'.events = st.events ∧ st'.removed = st.removed

theorem begins_of_eq {kind : Kind} {st st' : State} (hc : st'.calls = st.calls)
    (he : st'.events = st.events) (hr : st'.removed = st.removed) : Begins kind st st' :=
  ⟨[], hc.trans (List.append_nil _).symm, he, hr⟩

theorem next_cases {kind : Kind} {st st' : State} {a : Action} (h : st.next kind a = some st') :
    (Begins kind st st' ∧ ∀ st, meets kind st a = true) ∨
      ∃ i call, a = .go i ∧ st.calls[i]? = some call ∧ st.goNext i call = some st' := by
  cases a with
  | upsert p =>
    cases h
    exact .inl ⟨begins_of_eq rfl rfl rfl, fun _ => rfl⟩
  | spawn c =>
    simp only [State.next] at h
    split at h
    · cases h
      exact .inl ⟨begins_of_eq rfl rfl rfl, fun _ => rfl⟩
    · cases h
  | insert c =>
    simp only [State.next] at h
    split at h
    · split at h
      · cases h
        exact .inl ⟨begins_of_eq rfl rfl rfl, fun _ => rfl⟩
      · cases h
    · cases h
  | writerFails c =>
    simp only [State.next] at h
    split at h
    · rename_i p _
      split at h
      · cases h
        exact .inl ⟨⟨[p], rfl, rfl, rfl⟩, fun _ => rfl⟩
      · cases h
    · cases h
  | readerEnds c =>
    simp only [State.next] at h
    split at h
    · rename_i p _
      split at h
      · cases h
        exact .inl ⟨⟨[p], rfl, rfl, rfl⟩, fun _ => rfl⟩
      · cases h
    · cases h
  | take p =>
    simp only [State.next] at h
    split at h
    · cases h
      exact .inl ⟨begins_of_eq rfl rfl rfl, fun _ => rfl⟩
    · cases h
  | putBack =>
    obtain ⟨⟨p, c⟩, -, rfl⟩ := Option.map_eq_some_iff.mp h
    exact .inl ⟨begins_of_eq rfl rfl rfl, fun _ => rfl⟩
  | error =>
    obtain ⟨⟨p, c⟩, -, rfl⟩ := Option.map_eq_some_iff.mp h
    exact .inl ⟨⟨[p], rfl, rfl, rfl⟩, fun _ => rfl⟩
  | ended =>
    obtain ⟨⟨p, c⟩, -, rfl⟩ := Option.map_eq_some_iff.mp h
    exact .inl ⟨⟨[p], rfl, rfl, rfl⟩, fun _ => rfl⟩
  | sendFails p =>
    simp only [State.next] at h
    split at h
    · cases h
      exact .inl ⟨⟨[p], rfl, rfl, rfl⟩, fun _ => rfl⟩
    · cases h
  | shutdown =>
    cases h
    exact .inl ⟨begins_of_eq rfl rfl rfl, fun _ => rfl⟩
  | go i =>
    obtain ⟨call, hi, hg⟩ := Option.bind_eq_some_iff.mp h
    exact .inr ⟨i, call, rfl, hi, hg⟩

section Steps

variable {kind : Kind} {st st' : State} {i : Nat} {call : Call}

theorem Inv.begins (h : Inv kind st) (hb : Begins kind st st') : Inv kind st' := by
  obtain ⟨peers, hc, he, hr⟩ := hb
  constructor
  · intro call hcall
    rw [hc, List.mem_append, List.mem_map] at hcall
    obtain hcall | ⟨p, -, rfl⟩ := hcall
    · exact h.settles call hcall
    · exact settles_peerDisconnected kind
  · intro p
    rw [he, hc, h.events p]
    simp [List.countP_map, Function.comp_def]
  · intro p
    rw [hr, hc, h.removed p]
    simp [List.countP_map, Function.comp_def]

theorem Inv.of_set (h : Inv kind st) (hi : st.calls[i]? = some call) {call' : Call}
    (hc : st'.calls = st.calls.set i call')
    (hs : Settles kind call'.todo call'.emitted call'.found)
    (he : ∀ p, st'.events.count p + (call.emitted && call.peer == p).toNat =
      st.events.count p + (call'.emitted && call'.peer == p).toNat)
    (hr : ∀ p, st'.removed.count p + (call.found && call.peer == p).toNat =
      st.removed.count p + (call'.found && call'.peer == p).toNat) : Inv kind st' := by
  constructor
  · intro x hx
    rw [hc] at hx
    obtain hx | rfl := List.mem_or_eq_of_mem_set hx
    · exact h.settles x hx
    · exact hs
  · intro p
    have hset := Lib.countP_set_of_getElem? (fun call => call.emitted && call.peer == p) call' hi
    have := he p
    rw [hc]
    rw [h.events p] at this
    omega
  · intro p
    have hset := Lib.countP_set_of_getElem? (fun call => call.found && call.peer == p) call' hi
    have := hr p
    rw [hc]
    rw [h.removed p] at this
    omega

theorem count_singleton_peer (p q : PeerIdentity) : [q].count p = (q == p).toNat := by
  rw [List.count_singleton]
  cases q == p <;> rfl

theorem count_if_peer (found : Bool) (p q : PeerIdentity) :
    (if found then [q] else []).count p = (found && q == p).toNat := by
  cases found with
  | false => rfl
  | true => exact count_singleton_peer p q

theorem Inv.goNext (h : Inv kind st) (hi : st.calls[i]? = some call)
    (hn : st.goNext i call = some st') : Inv kind st' := by
  have hs := h.settles call (List.mem_of_getElem? hi)
  simp only [State.goNext] at hn
  split at hn
  · cases hn
  · rename_i todo htodo
    rw [htodo] at hs
    cases hn
    apply h.of_set hi rfl hs.2
    · intro p
      rw [hs.1, List.count_append, count_singleton_peer]
      rfl
    · exact fun p => rfl
  · rename_i todo htodo
    rw [htodo] at hs
    cases hn
    apply h.of_set hi rfl (hs.2 _)
    · exact fun p => rfl
    · intro p
      rw [hs.1, List.count_append, count_if_peer]
      rfl
  · rename_i todo htodo
    rw [htodo] at hs
    cases hn
    exact h.of_set hi rfl hs (fun p => rfl) (fun p => rfl)
  · rename_i todo htodo
    rw [htodo] at hs
    cases hn
    apply h.of_set hi rfl hs.2
    · intro p
      rw [hs.1, List.count_append, count_if_peer]
      rfl
    · exact fun p => rfl

theorem Inv.next {a : Action} (h : Inv kind st) (hn : st.next kind a = some st') :
    Inv kind st' := by
  obtain ⟨hb, -⟩ | ⟨i, call, -, hi, hg⟩ := next_cases hn
  · exact h.begins hb
  · exact h.goNext hi hg

theorem inv_init (kind : Kind) : Inv kind .init where
  settles := nofun
  events := fun _ => rfl
  removed := fun _ => rfl

def Call.Accounted (kind : Kind) (call : Call) : Prop :=
  .remove ∉ call.todo → kind.agrees call.found = true

def Accounted (kind : Kind) (st : State) : Prop := ∀ call ∈ st.calls, call.Accounted kind

theorem Begins.accounted_iff (h : Begins kind st st') :
    Accounted kind st' ↔ Accounted kind st := by
  obtain ⟨peers, hc, -, -⟩ := h
  have hremove : .remove ∈ kind.peerDisconnected := by
    cases kind <;> simp [Kind.peerDisconnected]
  rw [Accounted, Accounted, hc, List.forall_mem_append]
  apply and_iff_left
  rw [List.forall_mem_map]
  exact fun p _ hnot => absurd hremove hnot

theorem accounted_set_iff (hi : st.calls[i]? = some call) {call' : Call}
    (hc : st'.calls = st.calls.set i call') {P : Prop}
    (h : call'.Accounted kind ↔ call.Accounted kind ∧ P) :
    Accounted kind st' ↔ Accounted kind st ∧ P := by
  simp only [Accounted, hc, Lib.mem_set_iff_of_getElem? call' hi, Lib.mem_iff_of_getElem? hi,
    forall_eq_or_imp, h]
  exact and_right_comm

theorem accounted_goNext_iff (h : Inv kind st) (hi : st.calls[i]? = some call)
    (hn : st.goNext i call = some st') :
    Accounted kind st' ↔ Accounted kind st ∧ meets kind st (.go i) = true := by
  have hs := h.settles call (List.mem_of_getElem? hi)
  obtain ⟨p, todo, emitted, found⟩ := call
  cases todo with
  | nil => cases hn
  | cons s todo =>
    cases s with
    | emit =>
      cases hn
      apply accounted_set_iff hi rfl
      simp [meets, hi, Call.Accounted]
    | remove =>
      cases hn
      apply accounted_set_iff hi rfl
      simp [meets, hi, Call.Accounted, (hs.2 true).remove_notMem]
    | stream =>
      cases hn
      apply accounted_set_iff hi rfl
      simp [meets, hi, Call.Accounted]
    | emitRemoved =>
      cases hn
      apply accounted_set_iff hi rfl
      simp [meets, hi, Call.Accounted]

theorem accounted_next_iff {a : Action} (h : Inv kind st) (hn : st.next kind a = some st') :
    Accounted kind st' ↔ Accounted kind st ∧ meets kind st a = true := by
  obtain ⟨hb, hm⟩ | ⟨i, call, rfl, hi, hg⟩ := next_cases hn
  · rw [hb.accounted_iff, hm st]
    simp
  · exact accounted_goNext_iff h hi hg

end Steps

theorem eq_of_countP_eq {α : Type} {f g : α → Bool} {l : List α} (h : l.countP f = l.countP g)
    (hle : ∀ x ∈ l, f x = true → g x = true) : ∀ x ∈ l, f x = g x := by
  induction l with
  | nil => nofun
  | cons x l ih =>
    rw [List.forall_mem_cons] at hle ⊢
    have hl : l.countP f ≤ l.countP g := List.countP_mono_left hle.2
    rw [List.countP_cons, List.countP_cons] at h
    cases hf : f x with
    | true =>
      rw [hf, hle.1 hf] at h
      exact ⟨(hle.1 hf).symm, ih (by simpa using h) hle.2⟩
    | false =>
      cases hg : g x with
      | false =>
        rw [hf, hg] at h
        exact ⟨rfl, ih (by simpa using h) hle.2⟩
      | true =>
        rw [hf, hg] at h
        simp at h
        omega

theorem Kind.law_le (kind : Kind) :
    (∀ emitted found, kind.Law emitted found → found = true → emitted = true) ∨
      ∀ emitted found, kind.Law emitted found → emitted = true → found = true := by
  cases kind <;> simp [Kind.Law]

theorem counts_eq_iff {kind : Kind} {calls : List Call}
    (hlaw : ∀ call ∈ calls, kind.Law call.emitted call.found) :
    (∀ p, (calls.countP fun call => call.emitted && call.peer == p) =
      calls.countP fun call => call.found && call.peer == p) ↔
      ∀ call ∈ calls, call.emitted = call.found := by
  constructor
  · intro h call hcall
    have hp : (call.emitted && call.peer == call.peer) =
        (call.found && call.peer == call.peer) := by
      cases kind.law_le with
      | inl hle =>
        refine (eq_of_countP_eq (h call.peer).symm ?_ call hcall).symm
        intro x hx
        rw [Bool.and_eq_true, Bool.and_eq_true]
        exact And.imp_left (hle _ _ (hlaw x hx))
      | inr hle =>
        refine eq_of_countP_eq (h call.peer) ?_ call hcall
        intro x hx
        rw [Bool.and_eq_true, Bool.and_eq_true]
        exact And.imp_left (hle _ _ (hlaw x hx))
    simpa using hp
  · intro h p
    apply List.countP_congr
    intro call hcall
    rw [h call hcall]

/-- When no call of `peer_disconnected` is running, the monitor has been told of each peer as
often as an entry of it was removed if and only if every call met the condition; the calls of a
`GenericSocketBackend` always do. -/
theorem monitored_iff {kind : Kind} {as : List Action} {st : State}
    (hrun : (system kind).run .init as = some st) (hended : ∀ call ∈ st.calls, call.todo = []) :
    (kind = .generic → ∀ p, st.events.count p = st.removed.count p) ∧
    ((∀ p, st.events.count p = st.removed.count p) ↔
      ((system kind).guarded fun st a => meets kind st a = true).run .init as = some st) := by
  have hinv : Inv kind st :=
    (system kind).invariant_run (fun _ _ _ h hn => h.next hn) (inv_init kind) hrun
  have hlaw : ∀ call ∈ st.calls, kind.Law call.emitted call.found := by
    intro call hcall
    have hs := hinv.settles call hcall
    rw [hended call hcall] at hs
    exact hs
  have hcounts : (∀ p, st.events.count p = st.removed.count p) ↔
      ∀ call ∈ st.calls, call.emitted = call.found := by
    rw [← counts_eq_iff hlaw]
    simp only [hinv.events, hinv.removed]
  constructor
  · rintro rfl
    exact hcounts.mpr hlaw
  · have hacc : Accounted kind st ↔ ∀ call ∈ st.calls, call.emitted = call.found := by
      apply forall₂_congr
      intro call hcall
      rw [← (hlaw call hcall).agrees_iff, Call.Accounted, hended call hcall]
      exact imp_iff_right List.not_mem_nil
    rw [hcounts, ← hacc]
    have hiff := (system kind).run_guarded_iff (P := Inv kind) (Q := Accounted kind)
      (fun _ _ _ h hn => h.next hn) (fun _ _ _ h hn => accounted_next_iff h hn) (inv_init kind)
      hrun
    rw [hiff]
    exact and_iff_right nofun

theorem monitored_iff_ended :
    let p : PeerIdentity := .ofByte 1
    let as : List Action := [.upsert p, .insert 0, .take p, .ended, .go 0, .go 0]
    ∃ st, (system .rep).run .init as = some st ∧ st.events = [p] ∧ st.removed = [p] ∧
      ((system .rep).guarded fun st a => meets .rep st a = true).run .init as = some st := by
  intro p as
  have hrun : ((system .rep).run .init as).map (fun st =>
      (st.events, st.removed, st.calls.map Call.todo)) = some ([p], [p], [[]]) := by
    decide +kernel
  obtain ⟨st, hrun, hst⟩ := Option.map_eq_some_iff.mp hrun
  simp only [Prod.mk.injEq] at hst
  obtain ⟨he, hr, hc⟩ := hst
  have hended : ∀ call ∈ st.calls, call.todo = [] := by
    intro call hcall
    have hmem := List.mem_map_of_mem hcall (f := Call.todo)
    rw [hc] at hmem
    exact List.mem_singleton.mp hmem
  refine ⟨st, hrun, he, hr, (monitored_iff hrun hended).2.mp ?_⟩
  intro q
  rw [he, hr]

/-- A REP stream that fails stays in the fair queue and ends there; a writer and a reader of PUB
notice one failure; a SUB peer that fails while it is still connecting leaves a stream that ends.
All of these are reported twice, and no peer of XPUB is ever reported. -/
theorem lost_connection_miscounted :
    let p : PeerIdentity := .ofByte 1
    let told := fun st : State => (st.events, st.removed, st.calls.map Call.todo)
    ((system .rep).run .init
        [.upsert p, .insert 0, .take p, .error, .go 0, .go 0, .take p, .ended, .go 1, .go 1]).map
      told = some ([p, p], [p], [[], []]) ∧
    ((system .pub).run .init
        [.upsert p, .spawn 0, .writerFails 0, .readerEnds 0, .go 0, .go 1, .go 0, .go 1]).map
      told = some ([p, p], [p], [[], []]) ∧
    ((system .sub).run .init
        [.upsert p, .sendFails p, .go 0, .go 0, .go 0, .insert 0, .take p, .ended, .go 1, .go 1,
          .go 1]).map
      told = some ([p, p], [p], [[], []]) ∧
    ((system .xpub).run .init [.upsert p, .insert 0, .take p, .ended, .go 0, .go 0]).map told =
      some ([], [p], [[]]) := by
  intro p told
  refine ⟨?_, ?_, ?_, ?_⟩
  · decide +kernel
  · decide +kernel
  · decide +kernel
  · decide +kernel

end ZmqRs.Monitor
