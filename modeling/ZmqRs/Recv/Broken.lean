import ZmqRs.FairQueue.Keys
import ZmqRs.ReqRep

/-! What becomes of a connection after an error.  Every socket that receives through a
fair queue is followed with the calls of `peer_connected` and `peer_disconnected` that
other tasks make; a connection is known by its number. -/

namespace ZmqRs

open Codec
open Recv (Item Arm Loop ready)

def RepSocket.arm : Option (PeerIdentity × Item) → Arm
  | some (_, .ok (.message m)) =>
    if m.len < 2 then ⟨none, some (.error (.error (.other "Invalid message format")))⟩
    else
      match m.splitOff (splitIndex m.frames) with
      | none => ⟨none, some (.error .panic)⟩
      | some (_, data) => ⟨none, some (.ok data)⟩
  | some (_, .ok _) => ⟨none, none⟩
  | some (peerId, .error e) => ⟨some peerId, some (.error (e.map .codec))⟩
  | none => ⟨none, some (.error (.error .noMessage))⟩

theorem RepSocket.onNext_eq_arm (s : RepSocket) (r : Option (PeerIdentity × Item)) :
    (s.onNext r).1 = (arm r).result ∧
      (s.onNext r).2.peers = match (arm r).disconnect with
        | none => s.peers
        | some p => s.peers.erase p := by
  rcases r with _ | ⟨p, e | (g | c | m)⟩
  · exact ⟨rfl, rfl⟩
  · exact ⟨rfl, rfl⟩
  · exact ⟨rfl, rfl⟩
  · exact ⟨rfl, rfl⟩
  · rw [onNext, arm]
    by_cases hm : m.len < 2
    · rw [if_pos hm, if_pos hm]
      exact ⟨rfl, rfl⟩
    · rw [if_neg hm, if_neg hm]
      cases m.splitOff (splitIndex m.frames) <;> exact ⟨rfl, rfl⟩

def Recv.XPubSocket.recv : Loop := ⟨fun _ message => message, true, true⟩

def Recv.DealerRecvHalf.recv : Loop := ⟨fun _ message => message, false, true⟩

def Recv.RouterRecvHalf.recv : Loop :=
  ⟨fun peerId message => message.pushFront peerId.bytes, true, false⟩

namespace Broken

inductive Socket
  | pull
  | sub
  | xsub
  | xpub
  | rep
  | router
  | dealer
  | routerRecvHalf
  | dealerRecvHalf
  deriving DecidableEq

def Socket.arm : Socket → Option (PeerIdentity × Item) → Arm
  | .pull => Recv.PullSocket.recv.arm
  | .sub => Recv.SubSocket.recv.arm
  | .xsub => Recv.XSubSocket.recv.arm
  | .xpub => Recv.XPubSocket.recv.arm
  | .rep => RepSocket.arm
  | .router => Recv.RouterSocket.recv.arm
  | .dealer => Recv.DealerSocket.recv.arm
  | .routerRecvHalf => Recv.RouterRecvHalf.recv.arm
  | .dealerRecvHalf => Recv.DealerRecvHalf.recv.arm

/-- The sections of `peer_disconnected` that matter here: the entry is removed from the
peer table, and the stream from the fair queue. -/
inductive Section
  | entry
  | stream
  deriving DecidableEq

def Socket.peerDisconnected : Socket → List Section
  | .rep => [.entry]
  | .pull | .sub | .xsub | .xpub | .router | .dealer | .routerRecvHalf | .dealerRecvHalf =>
    [.entry, .stream]

section Defs

variable [Target] (W : Type)

structure Connecting where
  peer : PeerIdentity
  connection : Nat
  reader : ZmqFramedRead
  upserted : Bool

inductive Pc
  | waiting
  | polling
  | disconnecting (peer : PeerIdentity) (connection : Nat) (item : Item) (todo : List Section)

/-- Streams and items carry the number of their connection; `owners` are the peers by
connection.  `broken` are the connections of the error items that `recv` has dealt with. -/
structure State where
  owners : List PeerIdentity
  peers : AList fun _ : PeerIdentity => Nat
  queue : FairQueue.State (Nat × ZmqFramedRead) PeerIdentity W (Nat × Item)
  connecting : List Connecting
  disconnecting : List (PeerIdentity × List Section)
  recv : Pc
  broken : List Nat
  returned : List (Option Nat × Res ZmqError ZmqMessage)

/-- `accept` is a handshake of `n` polls.  `disconnect` is a call of `peer_disconnected`
by anyone but `recv`: a writer, a send or the callback of the fair queue. -/
inductive Action
  | accept (p : PeerIdentity) (n : Nat) (reads : List PollRead)
  | connect (call : Nat)
  | abandon (call : Nat)
  | disconnect (p : PeerIdentity)
  | disconnectNext (call : Nat)
  | poll (task : W)
  | queue (a : FairQueue.Action (Nat × ZmqFramedRead) PeerIdentity W (List PollRead))
  | handle
  | recvNext

end Defs

variable [Target] {W : Type}

def poll (s : Nat × ZmqFramedRead) (reads : List PollRead) :
    Poll (Option (Nat × Item)) × (Nat × ZmqFramedRead) :=
  let polled := s.2.pollNext reads
  (match polled.result with
    | .pending => .pending
    | .ready none => .ready none
    | .ready (some item) => .ready (some (s.1, item)),
    (s.1, polled.reader))

def isError : Item → Bool
  | .error _ => true
  | .ok _ => false

namespace State

def init : State W := ⟨[], ∅, .init, [], [], .waiting, [], []⟩

def queueNext (st : State W)
    (a : FairQueue.Action (Nat × ZmqFramedRead) PeerIdentity W (List PollRead)) :
    Option (State W) :=
  (FairQueue.next true poll st.queue a).map fun queue => { st with queue := queue }

def connectNext (st : State W) (i : Nat) (call : Connecting) : Option (State W) :=
  if call.upserted then
    { st with connecting := st.connecting.eraseIdx i }.queueNext
      (.insert call.peer (call.connection, call.reader))
  else
    some { st with
      peers := st.peers.insert call.peer call.connection
      connecting := st.connecting.set i { call with upserted := true } }

def runSection (st : State W) (p : PeerIdentity) : Section → Option (State W)
  | .entry => some { st with peers := st.peers.erase p }
  | .stream => st.queueNext (.remove p)

def dealt (st : State W) (c : Nat) (item : Item) (result : Option (Res ZmqError ZmqMessage)) :
    State W :=
  { st with
    recv := .waiting
    broken := if isError item then c :: st.broken else st.broken
    returned := st.returned ++ (result.map (some c, ·)).toList }

end State

variable (socket : Socket) (options : SocketOptions)

def State.onReady (st : State W) : Option (PeerIdentity × Nat × Item) → State W
  | none =>
    { st with
      recv := .waiting
      returned := st.returned ++ ((socket.arm none).result.map (none, ·)).toList }
  | some (p, c, item) =>
    match (socket.arm (some (p, item))).disconnect with
    | some p => { st with recv := .disconnecting p c item socket.peerDisconnected }
    | none => st.dealt c item (socket.arm (some (p, item))).result

def next (st : State W) : Action W → Option (State W)
  | .accept p n reads =>
    let run := ZmqFramedRead.pollMany n (.new options) reads
    if Recv.handshaken run then
      some { st with
        owners := st.owners ++ [p]
        connecting := st.connecting ++ [⟨p, st.owners.length, run.reader, false⟩] }
    else none
  | .connect i => st.connecting[i]?.bind fun call => st.connectNext i call
  | .abandon i =>
    -- the replay of the subscriptions fails
    match st.connecting[i]? with
    | some ⟨_, _, _, false⟩ =>
      if socket = .sub ∨ socket = .xsub then
        some { st with connecting := st.connecting.eraseIdx i }
      else none
    | _ => none
  | .disconnect p =>
    some { st with disconnecting := st.disconnecting ++ [(p, socket.peerDisconnected)] }
  | .disconnectNext i =>
    match st.disconnecting[i]? with
    | some (p, s :: todo) =>
      { st with disconnecting := st.disconnecting.set i (p, todo) }.runSection p s
    | _ => none
  | .poll task =>
    match st.recv with
    | .waiting => { st with recv := .polling }.queueNext (.pollNext task)
    | _ => none
  | .queue (.insert _ _) => none
  | .queue (.remove _) => none
  | .queue .clear => none
  | .queue (.pollNext _) => none
  | .queue a => st.queueNext a
  | .handle =>
    match st.recv, st.queue.consumer with
    | .polling, .idle (some (_, .pending)) => some { st with recv := .waiting }
    | .polling, .idle (some (_, .ready r)) => some (st.onReady socket r)
    | _, _ => none
  | .recvNext =>
    match st.recv with
    | .disconnecting p c item (s :: todo) =>
      { st with recv := .disconnecting p c item todo }.runSection p s
    | .disconnecting p c item [] => some (st.dealt c item (socket.arm (some (p, item))).result)
    | _ => none

def system : Lib.System (State W) (Action W) where
  init := .init
  next := next socket options

def Gone (st : State W) (c : Nat) : Prop :=
  (∀ p, st.peers.lookup p ≠ some c) ∧
    (∀ p held, st.queue.stored p = some held → held.stream.1 ≠ c) ∧
    ∀ p held, st.queue.hand p = some held → held.stream.1 ≠ c

section Queue

variable {q q' : FairQueue.State (Nat × ZmqFramedRead) PeerIdentity W (Nat × Item)}
  {a : FairQueue.Action (Nat × ZmqFramedRead) PeerIdentity W (List PollRead)}

def Found (q : FairQueue.State (Nat × ZmqFramedRead) PeerIdentity W (Nat × Item))
    (p : PeerIdentity) (c : Nat) : Prop :=
  ∃ held, (q.stored p = some held ∨ q.hand p = some held) ∧ held.stream.1 = c

def resultOf : FairQueue.Consumer (Nat × ZmqFramedRead) PeerIdentity W (Nat × Item) →
    Option (Poll (Option (PeerIdentity × Nat × Item)))
  | .idle last => last.map Prod.snd
  | .returning _ _ result => some result
  | _ => none

def Last (q : FairQueue.State (Nat × ZmqFramedRead) PeerIdentity W (Nat × Item))
    (p : PeerIdentity) (c : Nat) : Prop :=
  ∃ item, resultOf q.consumer = some (.ready (some (p, c, item)))

theorem poll_item {s : Nat × ZmqFramedRead} {reads : List PollRead} {t : Nat × Item}
    (h : (poll s reads).1 = .ready (some t)) : t.1 = s.1 := by
  simp only [poll] at h
  split at h
  · cases h
  · cases h
  · cases h
    rfl

theorem found_next (h : FairQueue.next true poll q a = some q') {p : PeerIdentity} {c : Nat}
    (hf : Found q' p c) : Found q p c ∨ ∃ r, a = .insert p (c, r) := by
  obtain ⟨held, hheld, rfl⟩ := hf
  have hk := FairQueue.keyStep h p
  generalize q'.stored p = stored', q'.hand p = hand' at hk hheld
  cases hk with
  | same => exact .inl ⟨held, hheld, rfl⟩
  | insert s ha =>
    rcases hheld with hheld | hheld
    · cases hheld
      exact .inr ⟨s.2, ha⟩
    · exact .inl ⟨held, .inr hheld, rfl⟩
  | remove =>
    rcases hheld with hheld | hheld
    · cases hheld
    · exact .inl ⟨held, .inr hheld, rfl⟩
  | take e held' ha hs hh =>
    rcases hheld with hheld | hheld
    · cases hheld
    · cases hheld
      exact .inl ⟨held, .inl hs, rfl⟩
  | putBack env held' w ha hh =>
    rcases hheld with hheld | hheld
    · cases hheld
      exact .inl ⟨held', .inr hh, rfl⟩
    · cases hheld
  | ended env held' ha hh =>
    rcases hheld with hheld | hheld
    · exact .inl ⟨held, .inl hheld, rfl⟩
    · cases hheld

theorem noItem_ne (inner : QueueInner (FairQueue.Held (Nat × ZmqFramedRead)) PeerIdentity W)
    (x : PeerIdentity × Nat × Item) : FairQueue.noItem true inner ≠ .ready (some x) := by
  rw [FairQueue.noItem]
  split
  · simp
  · simp

theorem last_next (h : FairQueue.next true poll q a = some q') {p : PeerIdentity} {c : Nat}
    (hl : Last q' p c) : Last q p c ∨ Found q p c := by
  obtain ⟨item, hl⟩ := hl
  have hk := FairQueue.consumerStep h
  generalize hc : q.consumer = consumer, hc' : q'.consumer = consumer' at hk
  rw [hc'] at hl
  cases hk with
  | other => exact .inl ⟨item, (congrArg resultOf hc).trans hl⟩
  | empty => exact absurd (Option.some.inj hl) (noItem_ne _ _)
  | item task n k held w reads t _ hp =>
    cases hl
    exact .inr ⟨held, .inr (by simp [FairQueue.State.hand, hc]), (poll_item hp).symm⟩
  | exit => exact absurd (Option.some.inj hl) (noItem_ne _ _)
  | finish => exact .inl ⟨item, (congrArg resultOf hc).trans hl⟩
  | start | stale | take | ended | pending | resume => cases hl

theorem idle_next (h : FairQueue.next true poll q a = some q')
    {last : Option (W × Poll (Option (PeerIdentity × Nat × Item)))}
    (hi : q.consumer = .idle last) (ha : ∀ task, a ≠ .pollNext task) :
    q'.consumer = .idle last := by
  have hk := FairQueue.consumerStep h
  rw [hi] at hk
  generalize q'.consumer = consumer' at hk
  cases hk with
  | other => rfl
  | start _ task _ hstart => exact absurd hstart (ha task)

end Queue

inductive Named (st : State W) (p : PeerIdentity) (c : Nat) : Prop
  | entry (h : st.peers.lookup p = some c)
  | found (h : Found st.queue p c)
  | last (h : Last st.queue p c)
  | connecting (call : Connecting) (h : call ∈ st.connecting) (hp : call.peer = p)
    (hc : call.connection = c)
  | recv (item : Item) (todo : List Section) (h : st.recv = .disconnecting p c item todo)

structure Inv (st : State W) : Prop where
  owner : ∀ p c, Named st p c → st.owners[c]? = some p
  nodup : (st.connecting.map Connecting.connection).Nodup
  fresh : ∀ call ∈ st.connecting, ∀ p,
    ¬ Found st.queue p call.connection ∧ ¬ Last st.queue p call.connection ∧
      ∀ item todo, st.recv ≠ .disconnecting p call.connection item todo
  unbroken : ∀ call ∈ st.connecting, call.connection ∉ st.broken
  idle : st.recv ≠ .polling → ∃ last, st.queue.consumer = .idle last
  last : st.recv = .polling → ∀ p c, Last st.queue p c → c ∉ st.broken
  dealing : ∀ p c item todo, st.recv = .disconnecting p c item todo →
    c ∉ st.broken ∧ (.entry ∉ todo → st.peers.lookup p ≠ some c) ∧
      (.stream ∉ todo → ¬ Found st.queue p c)
  gone : ∀ c ∈ st.broken, ∀ p, st.peers.lookup p ≠ some c ∧ ¬ Found st.queue p c
  broken_lt : ∀ c ∈ st.broken, c < st.owners.length

theorem inv_init : Inv (.init : State W) where
  owner := by
    rintro p c (h | ⟨held, h, -⟩ | ⟨item, h⟩ | ⟨call, h⟩ | ⟨item, todo, h⟩)
    · simp [State.init] at h
    · simp [State.init, FairQueue.State.init, FairQueue.State.stored, FairQueue.State.hand,
        QueueInner.new] at h
    · simp [State.init, FairQueue.State.init, resultOf] at h
    · simp [State.init] at h
    · simp [State.init] at h
  nodup := List.nodup_nil
  fresh := by simp [State.init]
  unbroken := by simp [State.init]
  idle _ := ⟨none, rfl⟩
  last := by simp [State.init]
  dealing := by simp [State.init]
  gone := by simp [State.init]
  broken_lt := by simp [State.init]

variable {st : State W}

theorem State.of_queueNext {st' : State W}
    {a : FairQueue.Action (Nat × ZmqFramedRead) PeerIdentity W (List PollRead)}
    (h : st.queueNext a = some st') :
    ∃ q, FairQueue.next true poll st.queue a = some q ∧ st' = { st with queue := q } := by
  obtain ⟨q, hq, rfl⟩ := Option.map_eq_some_iff.mp h
  exact ⟨q, hq, rfl⟩

theorem Inv.setQueue (hi : Inv st)
    {a : FairQueue.Action (Nat × ZmqFramedRead) PeerIdentity W (List PollRead)}
    {q : FairQueue.State (Nat × ZmqFramedRead) PeerIdentity W (Nat × Item)}
    (h : FairQueue.next true poll st.queue a = some q) (hp : ∀ task, a ≠ .pollNext task)
    (hins : ∀ p s, a ≠ .insert p s) : Inv { st with queue := q } := by
  have hfound : ∀ {p c}, Found q p c → Found st.queue p c := by
    intro p c hf
    rcases found_next h hf with hf | ⟨r, ha⟩
    · exact hf
    · exact absurd ha (hins p _)
  exact
    { owner := by
        rintro p c (h' | h' | h' | ⟨call, h', hp', hc'⟩ | ⟨item, todo, h'⟩)
        · exact hi.owner p c (.entry h')
        · exact hi.owner p c (.found (hfound h'))
        · rcases last_next h h' with h' | h'
          · exact hi.owner p c (.last h')
          · exact hi.owner p c (.found h')
        · exact hi.owner p c (.connecting call h' hp' hc')
        · exact hi.owner p c (.recv item todo h')
      nodup := hi.nodup
      fresh := by
        intro call hcall p
        obtain ⟨hf, hl, hr⟩ := hi.fresh call hcall p
        refine ⟨fun h' => hf (hfound h'), fun h' => ?_, hr⟩
        rcases last_next h h' with h' | h'
        · exact hl h'
        · exact hf h'
      unbroken := hi.unbroken
      idle := by
        intro hr
        obtain ⟨last, hlast⟩ := hi.idle hr
        exact ⟨last, idle_next h hlast hp⟩
      last := by
        intro hr p c h' hb
        rcases last_next h h' with h' | h'
        · exact hi.last hr p c h' hb
        · exact (hi.gone c hb p).2 h'
      dealing := by
        intro p c item todo hr
        obtain ⟨hb, he, hs⟩ := hi.dealing p c item todo hr
        exact ⟨hb, he, fun ht hf => hs ht (hfound hf)⟩
      gone := fun c hc p => ⟨(hi.gone c hc p).1, fun hf => (hi.gone c hc p).2 (hfound hf)⟩
      broken_lt := hi.broken_lt }

omit [Target] in
theorem lookup_erase_of {peers : AList fun _ : PeerIdentity => Nat} {p p' : PeerIdentity} {c : Nat}
    (h : (peers.erase p).lookup p' = some c) : peers.lookup p' = some c := by
  by_cases hp : p' = p
  · subst hp
    rw [AList.lookup_erase] at h
    cases h
  · rwa [AList.lookup_erase_ne hp] at h

theorem Inv.eraseEntry (hi : Inv st) (p : PeerIdentity) :
    Inv { st with peers := st.peers.erase p } where
  owner := by
    rintro p' c (h | h | h | ⟨call, h, hp, hc⟩ | ⟨item, todo, h⟩)
    · exact hi.owner p' c (.entry (lookup_erase_of h))
    · exact hi.owner p' c (.found h)
    · exact hi.owner p' c (.last h)
    · exact hi.owner p' c (.connecting call h hp hc)
    · exact hi.owner p' c (.recv item todo h)
  nodup := hi.nodup
  fresh := hi.fresh
  unbroken := hi.unbroken
  idle := hi.idle
  last := hi.last
  dealing := by
    intro p' c item todo hr
    obtain ⟨hb, he, hs⟩ := hi.dealing p' c item todo hr
    exact ⟨hb, fun ht h => he ht (lookup_erase_of h), hs⟩
  gone := fun c hc p' => ⟨fun h => (hi.gone c hc p').1 (lookup_erase_of h), (hi.gone c hc p').2⟩
  broken_lt := hi.broken_lt

theorem Inv.runSection (hi : Inv st) {p : PeerIdentity} {s : Section} {st' : State W}
    (h : st.runSection p s = some st') : Inv st' := by
  cases s with
  | entry =>
    cases h
    exact hi.eraseEntry p
  | stream =>
    obtain ⟨q, hq, rfl⟩ := State.of_queueNext h
    exact hi.setQueue hq (by simp) (by simp)

theorem Inv.setDisconnecting (hi : Inv st) (calls : List (PeerIdentity × List Section)) :
    Inv { st with disconnecting := calls } where
  owner := by
    rintro p c (h | h | h | ⟨call, h, hp, hc⟩ | ⟨item, todo, h⟩)
    · exact hi.owner p c (.entry h)
    · exact hi.owner p c (.found h)
    · exact hi.owner p c (.last h)
    · exact hi.owner p c (.connecting call h hp hc)
    · exact hi.owner p c (.recv item todo h)
  nodup := hi.nodup
  fresh := hi.fresh
  unbroken := hi.unbroken
  idle := hi.idle
  last := hi.last
  dealing := hi.dealing
  gone := hi.gone
  broken_lt := hi.broken_lt

theorem Inv.accept (hi : Inv st) (p : PeerIdentity) (reader : ZmqFramedRead) :
    Inv { st with
      owners := st.owners ++ [p]
      connecting := st.connecting ++ [⟨p, st.owners.length, reader, false⟩] } := by
  have hlt : ∀ {p' c}, Named st p' c → c < st.owners.length := fun h =>
    (List.getElem?_eq_some_iff.mp (hi.owner _ _ h)).1
  have hold : ∀ {p' c}, Named st p' c → (st.owners ++ [p])[c]? = some p' := fun h => by
    rw [List.getElem?_append_left (hlt h)]
    exact hi.owner _ _ h
  have hnew : ∀ p', ¬ Named st p' st.owners.length := fun p' h => Nat.lt_irrefl _ (hlt h)
  exact
    { owner := by
        rintro p' c (h | h | h | ⟨call, h, rfl, rfl⟩ | ⟨item, todo, h⟩)
        · exact hold (.entry h)
        · exact hold (.found h)
        · exact hold (.last h)
        · rcases List.mem_append.mp h with h | h
          · exact hold (.connecting call h rfl rfl)
          · obtain rfl := List.mem_singleton.mp h
            exact List.getElem?_concat_length
        · exact hold (.recv item todo h)
      nodup := by
        rw [List.map_append, List.nodup_append]
        refine ⟨hi.nodup, List.nodup_singleton _, ?_⟩
        rintro c hc c' hc' rfl
        obtain ⟨call, hcall, rfl⟩ := List.mem_map.mp hc
        obtain hc' := List.mem_singleton.mp hc'
        exact hnew call.peer (.connecting call hcall rfl hc')
      fresh := by
        intro call hcall p'
        rcases List.mem_append.mp hcall with hcall | hcall
        · exact hi.fresh call hcall p'
        · obtain rfl := List.mem_singleton.mp hcall
          exact ⟨fun h => hnew p' (.found h), fun h => hnew p' (.last h),
            fun item todo h => hnew p' (.recv item todo h)⟩
      unbroken := by
        intro call hcall hb
        rcases List.mem_append.mp hcall with hcall | hcall
        · exact hi.unbroken call hcall hb
        · obtain rfl := List.mem_singleton.mp hcall
          exact Nat.lt_irrefl _ (hi.broken_lt _ hb)
      idle := hi.idle
      last := hi.last
      dealing := hi.dealing
      gone := hi.gone
      broken_lt := by
        intro c hc
        rw [List.length_append]
        exact Nat.lt_add_right _ (hi.broken_lt c hc) }

theorem Inv.upsert (hi : Inv st) {i : Nat} {call : Connecting}
    (hcall : st.connecting[i]? = some call) :
    Inv { st with
      peers := st.peers.insert call.peer call.connection
      connecting := st.connecting.set i { call with upserted := true } } := by
  have hmem := List.mem_of_getElem? hcall
  have hset : ∀ {d}, d ∈ st.connecting.set i { call with upserted := true } →
      ∃ d' ∈ st.connecting, d'.peer = d.peer ∧ d'.connection = d.connection := by
    intro d hd
    rcases List.mem_or_eq_of_mem_set hd with hd | rfl
    · exact ⟨d, hd, rfl, rfl⟩
    · exact ⟨call, hmem, rfl, rfl⟩
  have hentry : ∀ {p c}, (st.peers.insert call.peer call.connection).lookup p = some c →
      st.peers.lookup p = some c ∨ p = call.peer ∧ c = call.connection := by
    intro p c h
    by_cases hp : p = call.peer
    · subst hp
      rw [AList.lookup_insert] at h
      exact .inr ⟨rfl, (Option.some.inj h).symm⟩
    · rw [AList.lookup_insert_ne hp] at h
      exact .inl h
  exact
    { owner := by
        rintro p c (h | h | h | ⟨d, h, rfl, rfl⟩ | ⟨item, todo, h⟩)
        · rcases hentry h with h | ⟨rfl, rfl⟩
          · exact hi.owner p c (.entry h)
          · exact hi.owner _ _ (.connecting call hmem rfl rfl)
        · exact hi.owner p c (.found h)
        · exact hi.owner p c (.last h)
        · obtain ⟨d', hd', hp, hc⟩ := hset h
          exact hi.owner _ _ (.connecting d' hd' hp hc)
        · exact hi.owner p c (.recv item todo h)
      nodup := by
        have hmap : (st.connecting.set i { call with upserted := true }).map Connecting.connection =
            st.connecting.map Connecting.connection :=
          Lib.map_set_of_getElem? _ hcall rfl
        exact hmap ▸ hi.nodup
      fresh := by
        intro d hd p
        obtain ⟨d', hd', -, hc⟩ := hset hd
        rw [← hc]
        exact hi.fresh d' hd' p
      unbroken := by
        intro d hd
        obtain ⟨d', hd', -, hc⟩ := hset hd
        rw [← hc]
        exact hi.unbroken d' hd'
      idle := hi.idle
      last := hi.last
      dealing := by
        intro p c item todo hr
        obtain ⟨hb, he, hs⟩ := hi.dealing p c item todo hr
        refine ⟨hb, fun ht h => ?_, hs⟩
        rcases hentry h with h | ⟨rfl, rfl⟩
        · exact he ht h
        · exact (hi.fresh call hmem call.peer).2.2 item todo hr
      gone := by
        intro c hc p
        refine ⟨fun h => ?_, (hi.gone c hc p).2⟩
        rcases hentry h with h | ⟨rfl, rfl⟩
        · exact (hi.gone c hc p).1 h
        · exact hi.unbroken call hmem hc
      broken_lt := hi.broken_lt }

theorem Inv.finishConnecting (hi : Inv st) (i : Nat) :
    Inv { st with connecting := st.connecting.eraseIdx i } where
  owner := by
    rintro p c (h | h | h | ⟨call, h, hp, hc⟩ | ⟨item, todo, h⟩)
    · exact hi.owner p c (.entry h)
    · exact hi.owner p c (.found h)
    · exact hi.owner p c (.last h)
    · exact hi.owner p c (.connecting call (List.mem_of_mem_eraseIdx h) hp hc)
    · exact hi.owner p c (.recv item todo h)
  nodup := ((List.eraseIdx_sublist st.connecting i).map _).nodup hi.nodup
  fresh call hcall := hi.fresh call (List.mem_of_mem_eraseIdx hcall)
  unbroken call hcall := hi.unbroken call (List.mem_of_mem_eraseIdx hcall)
  idle := hi.idle
  last := hi.last
  dealing := hi.dealing
  gone := hi.gone
  broken_lt := hi.broken_lt

theorem Inv.insert (hi : Inv st) {i : Nat} {call : Connecting}
    (hcall : st.connecting[i]? = some call)
    {q : FairQueue.State (Nat × ZmqFramedRead) PeerIdentity W (Nat × Item)}
    (h : FairQueue.next true poll st.queue (.insert call.peer (call.connection, call.reader)) =
      some q) :
    Inv { st with connecting := st.connecting.eraseIdx i, queue := q } := by
  have hmem := List.mem_of_getElem? hcall
  have hcons : q.consumer = st.queue.consumer := by
    cases h
    rfl
  have hlast : ∀ {p c}, Last q p c → Last st.queue p c := by
    intro p c hl
    rwa [Last, hcons] at hl
  have hfound : ∀ {p c}, Found q p c →
      Found st.queue p c ∨ p = call.peer ∧ c = call.connection := by
    intro p c hf
    rcases found_next h hf with hf | ⟨r, hr⟩
    · exact .inl hf
    · cases hr
      exact .inr ⟨rfl, rfl⟩
  have hne : ∀ d ∈ st.connecting.eraseIdx i, d.connection ≠ call.connection := by
    intro d hd heq
    obtain ⟨j, hj, hd⟩ := List.mem_eraseIdx_iff_getElem?.mp hd
    have hlt : j < (st.connecting.map Connecting.connection).length := by
      simpa using (List.getElem?_eq_some_iff.mp hd).1
    refine hj ((List.getElem?_inj hlt hi.nodup).mp ?_)
    simp [hd, hcall, heq]
  have hi' := hi.finishConnecting i
  exact
    { owner := by
        rintro p c (h' | h' | h' | ⟨d, h', hp, hc⟩ | ⟨item, todo, h'⟩)
        · exact hi.owner p c (.entry h')
        · rcases hfound h' with h' | ⟨rfl, rfl⟩
          · exact hi.owner p c (.found h')
          · exact hi.owner _ _ (.connecting call hmem rfl rfl)
        · exact hi.owner p c (.last (hlast h'))
        · exact hi'.owner p c (.connecting d h' hp hc)
        · exact hi.owner p c (.recv item todo h')
      nodup := hi'.nodup
      fresh := by
        intro d hd p
        obtain ⟨hf, hl, hr⟩ := hi'.fresh d hd p
        refine ⟨fun h' => ?_, fun h' => hl (hlast h'), hr⟩
        rcases hfound h' with h' | ⟨-, hc⟩
        · exact hf h'
        · exact hne d hd hc
      unbroken := hi'.unbroken
      idle := by
        intro hr
        obtain ⟨last, hl⟩ := hi.idle hr
        exact ⟨last, hcons.trans hl⟩
      last := fun hr p c h' => hi.last hr p c (hlast h')
      dealing := by
        intro p c item todo hr
        obtain ⟨hb, he, hs⟩ := hi.dealing p c item todo hr
        refine ⟨hb, he, fun ht h' => ?_⟩
        rcases hfound h' with h' | ⟨rfl, rfl⟩
        · exact hs ht h'
        · exact (hi.fresh call hmem call.peer).2.2 item todo hr
      gone := by
        intro c hc p
        refine ⟨(hi.gone c hc p).1, fun h' => ?_⟩
        rcases hfound h' with h' | ⟨rfl, rfl⟩
        · exact (hi.gone c hc p).2 h'
        · exact hi.unbroken call hmem hc
      broken_lt := hi.broken_lt }

theorem Inv.poll (hi : Inv st) {task : W}
    {q : FairQueue.State (Nat × ZmqFramedRead) PeerIdentity W (Nat × Item)}
    (h : FairQueue.next true poll st.queue (.pollNext task) = some q) :
    Inv { st with recv := .polling, queue := q } := by
  have hfound : ∀ {p c}, Found q p c → Found st.queue p c := by
    intro p c hf
    rcases found_next h hf with hf | ⟨r, ha⟩
    · exact hf
    · cases ha
  have hlast : ∀ p c, ¬ Last q p c := by
    rintro p c ⟨item, hl⟩
    cases FairQueue.stepped h with
    | pollNext _ hc => cases hl
  exact
    { owner := by
        rintro p c (h' | h' | h' | ⟨call, h', hp, hc⟩ | ⟨item, todo, h'⟩)
        · exact hi.owner p c (.entry h')
        · exact hi.owner p c (.found (hfound h'))
        · exact absurd h' (hlast p c)
        · exact hi.owner p c (.connecting call h' hp hc)
        · cases h'
      nodup := hi.nodup
      fresh := fun call hcall p =>
        ⟨fun h' => (hi.fresh call hcall p).1 (hfound h'), hlast p _, by simp⟩
      unbroken := hi.unbroken
      idle := by simp
      last := fun _ p c h' => absurd h' (hlast p c)
      dealing := by simp
      gone := fun c hc p => ⟨(hi.gone c hc p).1, fun h' => (hi.gone c hc p).2 (hfound h')⟩
      broken_lt := hi.broken_lt }

theorem Inv.rest (hi : Inv st) {last : Option (W × Poll (Option (PeerIdentity × Nat × Item)))}
    (hc : st.queue.consumer = .idle last) (returned : List (Option Nat × Res ZmqError ZmqMessage)) :
    Inv { st with recv := .waiting, returned := returned } where
  owner := by
    rintro p c (h | h | h | ⟨call, h, hp, hc⟩ | ⟨item, todo, h⟩)
    · exact hi.owner p c (.entry h)
    · exact hi.owner p c (.found h)
    · exact hi.owner p c (.last h)
    · exact hi.owner p c (.connecting call h hp hc)
    · cases h
  nodup := hi.nodup
  fresh call hcall p := ⟨(hi.fresh call hcall p).1, (hi.fresh call hcall p).2.1, by simp⟩
  unbroken := hi.unbroken
  idle _ := ⟨last, hc⟩
  last := by simp
  dealing := by simp
  gone := hi.gone
  broken_lt := hi.broken_lt

theorem Inv.setTodo (hi : Inv st) {p : PeerIdentity} {c : Nat} (item : Item) {todo : List Section}
    (hidle : ∃ last, st.queue.consumer = .idle last) (hown : st.owners[c]? = some p)
    (hfresh : ∀ call ∈ st.connecting, call.connection ≠ c) (hb : c ∉ st.broken)
    (he : .entry ∉ todo → st.peers.lookup p ≠ some c) (hs : .stream ∉ todo → ¬ Found st.queue p c) :
    Inv { st with recv := .disconnecting p c item todo } where
  owner := by
    rintro p' c' (h | h | h | ⟨call, h, hp, hc⟩ | ⟨item, todo, h⟩)
    · exact hi.owner p' c' (.entry h)
    · exact hi.owner p' c' (.found h)
    · exact hi.owner p' c' (.last h)
    · exact hi.owner p' c' (.connecting call h hp hc)
    · cases h
      exact hown
  nodup := hi.nodup
  fresh call hcall p' := by
    refine ⟨(hi.fresh call hcall p').1, (hi.fresh call hcall p').2.1, ?_⟩
    intro item' todo' h
    cases h
    exact hfresh call hcall rfl
  unbroken := hi.unbroken
  idle _ := hidle
  last := by simp
  dealing := by
    intro p' c' item' todo' h
    cases h
    exact ⟨hb, he, hs⟩
  gone := hi.gone
  broken_lt := hi.broken_lt

theorem Inv.addBroken (hi : Inv st) {p : PeerIdentity} {c : Nat} {item : Item}
    (hr : st.recv = .disconnecting p c item [])
    (returned : List (Option Nat × Res ZmqError ZmqMessage)) :
    Inv { st with recv := .waiting, broken := c :: st.broken, returned := returned } := by
  obtain ⟨last, hidle⟩ := hi.idle (by simp [hr])
  have hw := hi.rest hidle returned
  have hown := hi.owner p c (.recv item [] hr)
  obtain ⟨hb, he, hs⟩ := hi.dealing p c item [] hr
  exact
    { owner := by
        rintro p' c' (h | h | h | ⟨call, h, hp, hc⟩ | ⟨item, todo, h⟩)
        · exact hw.owner p' c' (.entry h)
        · exact hw.owner p' c' (.found h)
        · exact hw.owner p' c' (.last h)
        · exact hw.owner p' c' (.connecting call h hp hc)
        · cases h
      nodup := hw.nodup
      fresh := hw.fresh
      unbroken := by
        intro call hcall hmem
        rcases List.mem_cons.mp hmem with h | h
        · exact (hi.fresh call hcall p).2.2 item [] (h ▸ hr)
        · exact hi.unbroken call hcall h
      idle := hw.idle
      last := by simp
      dealing := by simp
      gone := by
        intro c' hc' p'
        rcases List.mem_cons.mp hc' with rfl | hc'
        · constructor
          · intro h
            -- the entries of a connection stand under its owner
            obtain rfl := Option.some.inj (hown.symm.trans (hi.owner p' c' (.entry h)))
            exact he (by simp) h
          · intro h
            obtain rfl := Option.some.inj (hown.symm.trans (hi.owner p' c' (.found h)))
            exact hs (by simp) h
        · exact hi.gone c' hc' p'
      broken_lt := by
        intro c' hc'
        rcases List.mem_cons.mp hc' with rfl | hc'
        · exact (List.getElem?_eq_some_iff.mp hown).1
        · exact hi.broken_lt c' hc' }

structure Socket.Disconnects (socket : Socket) : Prop where
  arm : ∀ p e, (socket.arm (some (p, .error e))).disconnect = some p
  sections : socket.peerDisconnected = [.entry, .stream]

omit [Target] in
theorem Socket.disconnects {socket : Socket} (hd : socket ≠ .dealer)
    (hh : socket ≠ .dealerRecvHalf) (hr : socket ≠ .rep) : socket.Disconnects := by
  cases socket with
  | dealer => exact absurd rfl hd
  | dealerRecvHalf => exact absurd rfl hh
  | rep => exact absurd rfl hr
  | _ => exact ⟨fun _ _ => rfl, rfl⟩

omit [Target] in
theorem Socket.disconnect_ok (socket : Socket) (p : PeerIdentity) (m : Message) :
    (socket.arm (some (p, .ok m))).disconnect = none := by
  cases socket <;> cases m <;> simp only [arm, Loop.arm, RepSocket.arm]
  split
  · rfl
  · split <;> rfl

variable {socket : Socket} {options : SocketOptions}

theorem Inv.onReady (hs : socket.Disconnects) (hi : Inv st) {task : W}
    {r : Option (PeerIdentity × Nat × Item)} (hr : st.recv = .polling)
    (hc : st.queue.consumer = .idle (some (task, .ready r))) : Inv (st.onReady socket r) := by
  rcases r with _ | ⟨p, c, e | m⟩
  · exact hi.rest hc _
  · have hl : Last st.queue p c := ⟨.error e, by rw [hc]; rfl⟩
    simp only [State.onReady, hs.arm, hs.sections]
    refine hi.setTodo _ ⟨_, hc⟩ (hi.owner p c (.last hl)) ?_ (hi.last hr p c hl) (by simp) (by simp)
    rintro call hcall rfl
    exact (hi.fresh call hcall p).2.1 hl
  · simp only [State.onReady, socket.disconnect_ok]
    exact hi.rest hc _

theorem Inv.recvSection (hi : Inv st) {p : PeerIdentity} {c : Nat} {item : Item} {s : Section}
    {todo : List Section} {st' : State W} (hr : st.recv = .disconnecting p c item (s :: todo))
    (h : { st with recv := .disconnecting p c item todo }.runSection p s = some st') : Inv st' := by
  obtain ⟨last, hidle⟩ := hi.idle (by simp [hr])
  have hown := hi.owner p c (.recv item _ hr)
  obtain ⟨hb, he, hf⟩ := hi.dealing p c item _ hr
  have hfresh : ∀ call ∈ st.connecting, call.connection ≠ c := by
    rintro call hcall rfl
    exact (hi.fresh call hcall p).2.2 item _ hr
  cases s with
  | entry =>
    cases h
    refine (hi.eraseEntry p).setTodo item ⟨last, hidle⟩ hown hfresh hb ?_ (fun ht => hf (by simp [ht]))
    intro _
    simp
  | stream =>
    obtain ⟨q, hq, rfl⟩ := State.of_queueNext h
    have hrem := hi.setQueue hq (by simp) (by simp)
    have hidle' : q.consumer = .idle last := idle_next hq hidle (by simp)
    refine hrem.setTodo item ⟨last, hidle'⟩ hown hfresh hb (fun ht => he (by simp [ht])) ?_
    rintro _ ⟨held, hheld | hheld, -⟩
    · cases hq
      simp [FairQueue.State.stored, QueueInner.remove] at hheld
    · simp [FairQueue.State.hand, hidle'] at hheld

theorem inv_next (hs : socket.Disconnects) (hi : Inv st) {a : Action W} {st' : State W}
    (h : next socket options st a = some st') : Inv st' := by
  cases a with
  | accept p n reads =>
    simp only [next] at h
    split at h
    · cases h
      exact hi.accept p _
    · cases h
  | connect i =>
    obtain ⟨call, hcall, h⟩ := Option.bind_eq_some_iff.mp h
    rw [State.connectNext] at h
    split at h
    · obtain ⟨q, hq, rfl⟩ := State.of_queueNext h
      exact hi.insert hcall hq
    · cases h
      exact hi.upsert hcall
  | abandon i =>
    simp only [next] at h
    split at h
    · split at h
      · cases h
        exact hi.finishConnecting i
      · cases h
    · cases h
  | disconnect p =>
    cases h
    exact hi.setDisconnecting _
  | disconnectNext i =>
    simp only [next] at h
    split at h
    · exact (hi.setDisconnecting _).runSection h
    · cases h
  | poll task =>
    simp only [next] at h
    split at h
    · obtain ⟨q, hq, rfl⟩ := State.of_queueNext h
      exact hi.poll hq
    · cases h
  | queue a =>
    cases a with
    | insert | remove | clear | pollNext => cases h
    | wake | pop | popNone | polled | resume | exit | finish =>
      obtain ⟨q, hq, rfl⟩ := State.of_queueNext h
      exact hi.setQueue hq (by simp) (by simp)
  | handle =>
    simp only [next] at h
    split at h
    · rename_i hc
      cases h
      exact hi.rest hc st.returned
    · rename_i hr hc
      cases h
      exact hi.onReady hs hr hc
    · cases h
  | recvNext =>
    simp only [next] at h
    split at h
    · rename_i hr
      exact hi.recvSection hr h
    · rename_i p c item hr
      cases h
      rw [State.dealt]
      split
      · exact hi.addBroken hr _
      · obtain ⟨last, hidle⟩ := hi.idle (by simp [hr])
        exact hi.rest hidle _
    · cases h

theorem Inv.goneOf (hi : Inv st) {c : Nat} (hc : c ∈ st.broken) : Gone st c := by
  refine ⟨fun p => (hi.gone c hc p).1, fun p held hs hcon => ?_, fun p held hh hcon => ?_⟩
  · exact (hi.gone c hc p).2 ⟨held, .inl hs, hcon⟩
  · exact (hi.gone c hc p).2 ⟨held, .inr hh, hcon⟩

structure Returns (st st' : State W) (new : List (Option Nat × Res ZmqError ZmqMessage)) : Prop where
  broken : ∀ c ∈ st.broken, c ∈ st'.broken
  returned : st'.returned = st.returned ++ new
  unbroken : ∀ r ∈ new, ∀ c, r.1 = some c → c ∉ st.broken

theorem Returns.quiet {st st' : State W} (hb : st'.broken = st.broken)
    (hr : st'.returned = st.returned) : Returns st st' [] where
  broken := fun c hc => hb ▸ hc
  returned := by rw [hr, List.append_nil]
  unbroken := by simp

theorem Returns.trans {st st₁ st₂ : State W} {new₁ new₂ : List (Option Nat × Res ZmqError ZmqMessage)}
    (h₁ : Returns st st₁ new₁) (h₂ : Returns st₁ st₂ new₂) : Returns st st₂ (new₁ ++ new₂) where
  broken := fun c hc => h₂.broken c (h₁.broken c hc)
  returned := by rw [h₂.returned, h₁.returned, List.append_assoc]
  unbroken := by
    intro r hr c hc hb
    rcases List.mem_append.mp hr with hr | hr
    · exact h₁.unbroken r hr c hc hb
    · exact h₂.unbroken r hr c hc (h₁.broken c hb)

theorem Returns.dealt {c : Nat} (hb : c ∉ st.broken) (item : Item)
    (result : Option (Res ZmqError ZmqMessage)) :
    Returns st (st.dealt c item result) (result.map (some c, ·)).toList where
  broken := by
    intro c' hc'
    rw [State.dealt]
    split
    · exact List.mem_cons_of_mem c hc'
    · exact hc'
  returned := rfl
  unbroken := by
    intro r hr c' hc'
    obtain ⟨res, -, rfl⟩ := Option.map_eq_some_iff.mp (Option.mem_toList.mp hr)
    cases hc'
    exact hb

theorem returns_queueNext {st' : State W}
    {a : FairQueue.Action (Nat × ZmqFramedRead) PeerIdentity W (List PollRead)}
    (h : st.queueNext a = some st') : st'.broken = st.broken ∧ st'.returned = st.returned := by
  obtain ⟨q, -, rfl⟩ := State.of_queueNext h
  exact ⟨rfl, rfl⟩

theorem returns_runSection {st' : State W} {p : PeerIdentity} {s : Section}
    (h : st.runSection p s = some st') : st'.broken = st.broken ∧ st'.returned = st.returned := by
  cases s with
  | entry =>
    cases h
    exact ⟨rfl, rfl⟩
  | stream => exact returns_queueNext h

theorem Inv.returnsOnReady (hi : Inv st) {task : W} {r : Option (PeerIdentity × Nat × Item)}
    (hr : st.recv = .polling) (hc : st.queue.consumer = .idle (some (task, .ready r))) :
    ∃ new, Returns st (st.onReady socket r) new := by
  rcases r with _ | ⟨p, c, item⟩
  · refine ⟨_, fun c hc => hc, rfl, ?_⟩
    intro r hr c hc
    obtain ⟨res, -, rfl⟩ := Option.map_eq_some_iff.mp (Option.mem_toList.mp hr)
    cases hc
  · have hl : Last st.queue p c := ⟨item, by rw [hc]; rfl⟩
    rw [State.onReady]
    split
    · exact ⟨[], .quiet rfl rfl⟩
    · exact ⟨_, .dealt (hi.last hr p c hl) item _⟩

theorem returns_next (hi : Inv st) {a : Action W} {st' : State W}
    (h : next socket options st a = some st') : ∃ new, Returns st st' new := by
  cases a with
  | accept p n reads =>
    simp only [next] at h
    split at h
    · cases h
      exact ⟨[], .quiet rfl rfl⟩
    · cases h
  | connect i =>
    obtain ⟨call, hcall, h⟩ := Option.bind_eq_some_iff.mp h
    rw [State.connectNext] at h
    split at h
    · obtain ⟨hb, hr⟩ := returns_queueNext h
      exact ⟨[], .quiet hb hr⟩
    · cases h
      exact ⟨[], .quiet rfl rfl⟩
  | abandon i =>
    simp only [next] at h
    split at h
    · split at h
      · cases h
        exact ⟨[], .quiet rfl rfl⟩
      · cases h
    · cases h
  | disconnect p =>
    cases h
    exact ⟨[], .quiet rfl rfl⟩
  | disconnectNext i =>
    simp only [next] at h
    split at h
    · obtain ⟨hb, hr⟩ := returns_runSection h
      exact ⟨[], .quiet hb hr⟩
    · cases h
  | poll task =>
    simp only [next] at h
    split at h
    · obtain ⟨hb, hr⟩ := returns_queueNext h
      exact ⟨[], .quiet hb hr⟩
    · cases h
  | queue a =>
    cases a with
    | insert | remove | clear | pollNext => cases h
    | wake | pop | popNone | polled | resume | exit | finish =>
      obtain ⟨hb, hr⟩ := returns_queueNext h
      exact ⟨[], .quiet hb hr⟩
  | handle =>
    simp only [next] at h
    split at h
    · cases h
      exact ⟨[], .quiet rfl rfl⟩
    · rename_i hr hc
      cases h
      exact hi.returnsOnReady hr hc
    · cases h
  | recvNext =>
    simp only [next] at h
    split at h
    · obtain ⟨hb, hr⟩ := returns_runSection h
      exact ⟨[], .quiet hb hr⟩
    · rename_i p c item hr
      cases h
      exact ⟨_, .dealt (hi.dealing p c item [] hr).1 item _⟩
    · cases h

theorem inv_returns_run (hs : socket.Disconnects) (hi : Inv st) {as : List (Action W)}
    {st' : State W} (h : (system socket options).run st as = some st') :
    Inv st' ∧ ∃ new, Returns st st' new := by
  induction as generalizing st with
  | nil =>
    cases h
    exact ⟨hi, [], .quiet rfl rfl⟩
  | cons a as ih =>
    obtain ⟨st₁, h₁, h₂⟩ := Option.bind_eq_some_iff.mp h
    obtain ⟨new₁, hr₁⟩ := returns_next hi h₁
    obtain ⟨hi', new₂, hr₂⟩ := ih (inv_next hs hi h₁) h₂
    exact ⟨hi', new₁ ++ new₂, hr₁.trans hr₂⟩

/-- Of a connection whose error has been dealt with, there is no entry and no stream, and
nothing that `recv` returns from then on comes from it. -/
theorem broken_not_read_again (hd : socket ≠ .dealer) (hh : socket ≠ .dealerRecvHalf)
    (hr : socket ≠ .rep) (h : (system socket options).Reachable st) :
    (∀ c ∈ st.broken, Gone st c) ∧
      ∀ as st', (system socket options).run st as = some st' →
        ∃ new, st'.returned = st.returned ++ new ∧
          ∀ r ∈ new, ∀ c, r.1 = some c → c ∉ st.broken := by
  have hs := Socket.disconnects hd hh hr
  obtain ⟨as₀, h₀⟩ := h
  obtain ⟨hi, -⟩ := inv_returns_run hs inv_init h₀
  refine ⟨fun c hc => hi.goneOf hc, fun as st' hrun => ?_⟩
  obtain ⟨-, new, hnew⟩ := inv_returns_run hs hi hrun
  exact ⟨new, hnew.returned, hnew.unbroken⟩

def oversized (p : PeerIdentity) (dealing : List (Action Nat)) : List (Action Nat) :=
  [.accept p 2 [ready (ZmqGreeting.default.encode ++ ZmqCommand.encode .ready [])],
    .connect 0, .connect 0, .poll 0, .queue (.pop ⟨0, p⟩),
    .queue (.polled [ready ([3] ++ List.replicate 8 255 ++ List.replicate 8 0 ++ [0, 1, 7])]),
    .handle] ++ dealing

def recvAgain (p : PeerIdentity) : List (Action Nat) :=
  [.poll 1, .queue (.pop ⟨1, p⟩), .queue (.polled []), .handle]

omit [Target] in
theorem broken_not_read_again_pull :
    letI := Target.x64
    let p : PeerIdentity := .ofByte 9
    ∃ st, (system .pull .default).run .init (oversized p [.recvNext, .recvNext, .recvNext]) =
        some st ∧ st.broken = [0] ∧ Gone st 0 := by
  let _ := Target.x64
  intro p
  have h : ((system .pull .default).run .init (oversized p [.recvNext, .recvNext, .recvNext])).map
      (·.broken) = some [0] := by decide +kernel
  obtain ⟨st, hst, hb⟩ := Option.map_eq_some_iff.mp h
  refine ⟨st, hst, hb, ?_⟩
  exact (broken_not_read_again (by decide) (by decide) (by decide) ⟨_, hst⟩).1 0 (by simp [hb])

omit [Target] in
/-- A DEALER, its receive half and a REP go on reading where the error left the decoder,
and return a message made of payload. -/
theorem broken_read_again :
    letI := Target.x64
    let p : PeerIdentity := .ofByte 9
    ∀ x ∈ [(Socket.dealer, [], (⟨[[], [7]]⟩ : ZmqMessage)), (.dealerRecvHalf, [], ⟨[[], [7]]⟩),
        (.rep, [.recvNext, .recvNext], ⟨[[7]]⟩)],
      ∃ st st', (system x.1 .default).run .init (oversized p x.2.1) = some st ∧
        st.broken = [0] ∧ ¬ Gone st 0 ∧
        (system x.1 .default).run st (recvAgain p) = some st' ∧
        st'.returned = st.returned ++ [(some 0, .ok x.2.2)] := by
  let _ := Target.x64
  intro p x hx
  have h : ((system x.1 .default).run .init (oversized p x.2.1)).any fun st =>
      st.broken = [0] ∧ ((st.queue.stored p).any fun held => held.stream.1 = 0) ∧
      ((system x.1 .default).run st (recvAgain p)).any fun st' =>
        st'.returned = st.returned ++ [(some 0, .ok x.2.2)] := by
    revert x
    decide +kernel
  obtain ⟨st, hst, h⟩ := (Option.any_eq_true _ _).mp h
  obtain ⟨hb, hs, h⟩ := of_decide_eq_true h
  obtain ⟨st', hst', hr⟩ := (Option.any_eq_true _ _).mp h
  obtain ⟨held, hheld, hc⟩ := (Option.any_eq_true _ _).mp hs
  refine ⟨st, st', hst, hb, fun hg => ?_, hst', of_decide_eq_true hr⟩
  exact hg.2.1 p held hheld (of_decide_eq_true hc)

end Broken

end ZmqRs
