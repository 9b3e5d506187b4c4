import ZmqRs.Lib.Transition
import ZmqRs.Backend

/-! Sends that overlap and may be given up.  `send_round_robin` pops the id of a peer, may wait
for the entry of that peer and then for room in its queue, and pushes the id again when the
message is sent. -/

namespace ZmqRs.Rotation

open Codec (Message)
open GenericSocketBackend (notConnected withOptions)

/-- `Sender::send` while it is pending: it waits until it may put the message into the queue,
then until it could put in another one. -/
inductive SendFuture
  | ready (c : Sender) (m : Message)
  | flush

inductive Polled
  | pending (f : SendFuture)
  | ready (result : Except SendError Unit)

def SendFuture.poll (channels : Channels) (full : Bool) : SendFuture → Polled × Channels
  | .ready c m =>
    if channels.isClosed c then (.ready (.error .disconnected), channels)
    else (if full then .pending .flush else .ready (.ok ()), channels.push c m)
  | .flush => (.ready (.ok ()), channels)

def room (full : Bool) : Room := if full then .full [] else .free

def pollPeerQueue (channels : Channels) (c : Sender) (full : Bool) (m : Message) :
    Polled × Channels :=
  match trySend channels c (room full) m with
  | .sent channels => (.ready (.ok ()), channels)
  | .error .full => (.pending (.ready c m), channels)
  | .error e => (.ready (.error e), channels)

/-- How far a call of `send_round_robin` has come.  It can be pending in `finish_cached_send`,
in `get_async` and in `send_to_peer_queue`, but not before it pops. -/
inductive Sending
  | cached (peerId : PeerIdentity) (f : SendFuture)
  | pop (m : Message)
  | get (nextPeerId : PeerIdentity) (m : Message)
  | queue (nextPeerId : PeerIdentity) (f : SendFuture)

def Sending.held : Sending → Option PeerIdentity
  | .cached _ _ | .pop _ => none
  | .get p _ | .queue p _ => some p

structure State (S W : Type) where
  backend : GenericSocketBackend S W
  sends : List Sending
  chosen : List PeerIdentity
  results : List (Except ZmqError Unit)

/-- Calls of the backend and the polls of its sends come in any order.  The entry that a send
holds while it waits in `send_to_peer_queue` is locked, so some of these orders do not occur. -/
inductive Action (S : Type)
  | peerConnected (p : PeerIdentity) (recvQueue : S)
  | peerDisconnected (p : PeerIdentity)
  | channel (e : ChannelEvent)
  | sendRoundRobin (full : Bool) (m : Message)
  | resume (i : Nat) (full : Bool)
  | drop (i : Nat)

variable {S W : Type}

namespace State

def setChannels (st : State S W) (channels : Channels) : State S W :=
  { st with backend := { st.backend with channels := channels } }

def disconnect (st : State S W) (p : PeerIdentity) : State S W :=
  { st with backend := st.backend.peerDisconnected p }

def report (st : State S W) (result : Except ZmqError Unit) : State S W :=
  { st with results := st.results ++ [result] }

def forget (st : State S W) (i : Nat) : State S W := { st with sends := st.sends.eraseIdx i }

def choose (st : State S W) (p : Option PeerIdentity) : State S W :=
  { st with chosen := st.chosen ++ p.toList }

def start (st : State S W) : CachedSend → State S W
  -- the source polls the clone at once; here other steps may come before that
  | .sent => (st.choose (st.backend.singlePeer.map SinglePeer.peerId)).report (.ok ())
  | .full p c m => { st.choose (some p) with sends := st.sends ++ [.cached p (.ready c m)] }
  | .disconnected p e => ((st.choose (some p)).disconnect p).report (.error e.toZmqError)
  | .miss m => { st with sends := st.sends ++ [.pop m] }

def settleCached (st : State S W) (i : Nat) (p : PeerIdentity) : Polled → State S W
  | .pending f => { st with sends := st.sends.set i (.cached p f) }
  | .ready (.ok ()) => (st.forget i).report (.ok ())
  | .ready (.error e) => ((st.disconnect p).forget i).report (.error e.toZmqError)

def settle (st : State S W) (i : Nat) (p : PeerIdentity) : Polled → State S W
  | .pending f => { st with sends := st.sends.set i (.queue p f) }
  | .ready (.ok ()) =>
    ({ st with backend.roundRobin := st.backend.roundRobin ++ [p] }.forget i).report (.ok ())
  | .ready (.error e) => ((st.disconnect p).forget i).report (.error e.toZmqError)

def resume (st : State S W) (i : Nat) (full : Bool) : Sending → State S W
  | .cached p f =>
    let (polled, channels) := f.poll st.backend.channels full
    (st.setChannels channels).settleCached i p polled
  | .pop m =>
    match st.backend.roundRobin with
    | [] => (st.forget i).report (.error (notConnected m))
    | p :: roundRobin =>
      { st.choose (if p ∈ st.backend.peers then some p else none) with
        backend := { st.backend with roundRobin := roundRobin }
        sends := st.sends.set i (.get p m) }
  | .get p m =>
    match st.backend.peers.lookup p with
    | none => { st with sends := st.sends.set i (.pop m) }
    | some c =>
      let (polled, channels) := pollPeerQueue st.backend.channels c full m
      (st.setChannels channels).settle i p polled
  | .queue p f =>
    let (polled, channels) := f.poll st.backend.channels full
    (st.setChannels channels).settle i p polled

def next [Target] (st : State S W) : Action S → Option (State S W)
  | .peerConnected p s => some { st with backend := st.backend.peerConnected p s }
  | .peerDisconnected p => some (st.disconnect p)
  | .channel e => some (st.setChannels (st.backend.channels.apply e))
  | .sendRoundRobin full m =>
    let (cachedSend, b) := st.backend.trySendCachedSinglePeer (room full) m none
    some ({ st with backend := b }.start cachedSend)
  | .resume i full => st.sends[i]?.map (st.resume i full)
  | .drop i =>
    match st.sends[i]? with
    | none | some (.pop _) => none
    | some _ => some (st.forget i)

end State

def system [Target] (fairQueueInner : Option (QueueInner S PeerIdentity W)) :
    Lib.System (State S W) (Action S) where
  init := ⟨withOptions fairQueueInner, [], [], []⟩
  next := State.next

section Completed

variable [Target] (fairQueueInner : Option (QueueInner S PeerIdentity W))

def isFull : Room → Bool
  | .free => false
  | .full _ => true

omit [Target] in
theorem trySend_room (channels : Channels) (c : Sender) (r : Room) (m : Message) :
    trySend channels c (room (isFull r)) m = trySend channels c r m := by
  cases r with
  | free => rfl
  | full events => rfl

theorem run_channels (st : State S W) (events : List ChannelEvent) :
    (system fairQueueInner).run st (events.map .channel) =
      some (st.setChannels (events.foldl Channels.apply st.backend.channels)) := by
  induction events generalizing st with
  | nil => rfl
  | cons e events ih => exact ih _

def Completes (st : State S W) (result : Except ZmqError Unit × GenericSocketBackend S W) :
    Prop :=
  ∃ as st', (system fairQueueInner).run st as = some st' ∧ st'.backend = result.2 ∧
    st'.sends = [] ∧ st'.results = st.results ++ [result.1]

variable {fairQueueInner} {st st₁ : State S W} {p : PeerIdentity} {c : Sender} {m : Message}
  {result : Except ZmqError Unit × GenericSocketBackend S W}

theorem Completes.of_run {as : List (Action S)}
    (hrun : (system fairQueueInner).run st as = some st₁) (hr : st₁.results = st.results)
    (h : Completes fairQueueInner st₁ result) : Completes fairQueueInner st result := by
  obtain ⟨as', st', hrun', hb, hs, hr'⟩ := h
  refine ⟨as ++ as', st', ?_, hb, hs, hr'.trans (by rw [hr])⟩
  rw [Lib.System.run_append, hrun]
  exact hrun'

theorem Completes.of_next {a : Action S} (hn : st.next a = some st₁)
    (hr : st₁.results = st.results) (h : Completes fairQueueInner st₁ result) :
    Completes fairQueueInner st result := by
  have hrun : (system fairQueueInner).run st [a] = some st₁ := congrArg (Option.bind · _) hn
  exact h.of_run hrun hr

theorem completes_of_next {a : Action S} (hn : st.next a = some st₁) (hs : st₁.sends = [])
    (hr : st₁.results = st.results ++ [result.1]) (hb : st₁.backend = result.2) :
    Completes fairQueueInner st result :=
  ⟨[a], st₁, congrArg (Option.bind · _) hn, hb, hs, hr⟩

def sentCached (b : GenericSocketBackend S W) (p : PeerIdentity) :
    Except SendError Unit × Channels → Except ZmqError Unit × GenericSocketBackend S W
  | (.ok (), channels) => (.ok (), { b with channels := channels })
  | (.error e, channels) =>
    (.error e.toZmqError, { b with channels := channels }.peerDisconnected p)

def sentNext (b : GenericSocketBackend S W) (p : PeerIdentity) :
    Except SendError Unit × Channels → Except ZmqError Unit × GenericSocketBackend S W
  | (.ok (), channels) =>
    (.ok (), { b with channels := channels, roundRobin := b.roundRobin ++ [p] })
  | (.error e, channels) =>
    (.error e.toZmqError, { b with channels := channels }.peerDisconnected p)

omit [Target] in
theorem poll_ready (channels : Channels) (c : Sender) (m : Message) :
    (SendFuture.ready c m).poll channels false =
      (.ready (send channels c [] [] m).1, (send channels c [] [] m).2) := by
  rw [SendFuture.poll, send, List.foldl_nil]
  by_cases hc : channels.isClosed c = true
  · simp only [hc, if_true]
  · simp only [hc]
    rfl

theorem next_resume (st : State S W) {x : Sending} (hs : st.sends = [x]) (full : Bool) :
    st.next (.resume 0 full) = some (st.resume 0 full x) := by
  simp only [State.next, hs]
  rfl

theorem completes_settleCached {a : Action S} {result : Except SendError Unit × Channels}
    (hs : st.sends.eraseIdx 0 = [])
    (hn : st.next a = some ((st.setChannels result.2).settleCached 0 p (.ready result.1))) :
    Completes fairQueueInner st (sentCached st.backend p result) := by
  obtain ⟨result, channels⟩ := result
  cases result with
  | ok u => exact completes_of_next hn hs rfl rfl
  | error e => exact completes_of_next hn hs rfl rfl

theorem completes_settle {a : Action S} {result : Except SendError Unit × Channels}
    (hs : st.sends.eraseIdx 0 = [])
    (hn : st.next a = some ((st.setChannels result.2).settle 0 p (.ready result.1))) :
    Completes fairQueueInner st (sentNext st.backend p result) := by
  obtain ⟨result, channels⟩ := result
  cases result with
  | ok u => exact completes_of_next hn hs rfl rfl
  | error e => exact completes_of_next hn hs rfl rfl

theorem completes_cached (hs : st.sends = [.cached p (.ready c m)]) (events : List ChannelEvent) :
    Completes fairQueueInner st
      (sentCached st.backend p (send st.backend.channels c [] events m)) := by
  have hn := next_resume st hs true
  simp only [State.resume, SendFuture.poll] at hn
  rw [send, List.foldl_nil]
  split
  · rename_i hc
    rw [if_pos hc] at hn
    apply completes_settleCached _ hn
    exact congrArg (List.eraseIdx · 0) hs
  · rename_i hc
    rw [if_neg hc] at hn
    apply Completes.of_next hn rfl
    apply Completes.of_run (run_channels fairQueueInner _ events) rfl
    have hflush : (((st.setChannels (st.backend.channels.push c m)).settleCached 0 p
        (.pending .flush)).setChannels (events.foldl Channels.apply
          (st.backend.channels.push c m))).sends = [.cached p .flush] :=
      congrArg (List.set · 0 _) hs
    have hn := next_resume _ hflush false
    exact completes_of_next hn (congrArg (List.eraseIdx · 0) hflush) rfl rfl

theorem completes_queue (hs : st.sends = [.queue p (.ready c m)]) (events : List ChannelEvent) :
    Completes fairQueueInner st
      (sentNext st.backend p (send st.backend.channels c events [] m)) := by
  apply Completes.of_run (run_channels fairQueueInner st events) rfl
  have hn := next_resume (st.setChannels (events.foldl Channels.apply st.backend.channels)) hs
    false
  simp only [State.resume, poll_ready] at hn
  apply completes_settle _ hn
  exact congrArg (List.eraseIdx · 0) hs

omit [Target] in
theorem full_of_trySend {channels : Channels} {r : Room}
    (h : trySend channels c r m = .error .full) : ∃ events, r = .full events := by
  unfold trySend at h
  split at h
  · cases h
  · cases r with
    | free => cases h
    | full events => exact ⟨events, rfl⟩

theorem completes_get (hs : st.sends = [.get p m]) (hl : st.backend.peers.lookup p = some c)
    (r : Room) :
    Completes fairQueueInner st
      (sentNext st.backend p (sendToPeerQueue st.backend.channels c r m)) := by
  have hn := next_resume st hs (isFull r)
  simp only [State.resume, hl, pollPeerQueue, trySend_room] at hn
  rw [sendToPeerQueue]
  cases ht : trySend st.backend.channels c r m with
  | sent channels =>
    rw [ht] at hn
    apply completes_settle _ hn
    exact congrArg (List.eraseIdx · 0) hs
  | error e =>
    rw [ht] at hn
    cases e with
    | disconnected =>
      apply completes_settle _ hn
      exact congrArg (List.eraseIdx · 0) hs
    | full =>
      obtain ⟨events, rfl⟩ := full_of_trySend ht
      apply Completes.of_next hn rfl
      apply completes_queue
      exact congrArg (List.set · 0 _) hs

omit [Target] in
theorem roundRobinLoop_congr (b : GenericSocketBackend S W) (r : Room)
    (ids queue : List PeerIdentity) :
    ({ b with roundRobin := ids } : GenericSocketBackend S W).roundRobinLoop r m queue =
      b.roundRobinLoop r m queue := by
  induction queue with
  | nil => rfl
  | cons p queue ih =>
    simp only [GenericSocketBackend.roundRobinLoop, ih]

omit [Target] in
theorem roundRobinLoop_found {b : GenericSocketBackend S W} {r : Room}
    (hl : b.peers.lookup p = some c) :
    b.roundRobinLoop r m (p :: b.roundRobin) =
      sentNext b p (sendToPeerQueue b.channels c r m) := by
  simp only [GenericSocketBackend.roundRobinLoop, hl]
  generalize sendToPeerQueue b.channels c r m = sent
  obtain ⟨result, channels⟩ := sent
  cases result with
  | ok u => rfl
  | error e => rfl

theorem next_pop {ids : List PeerIdentity} (hs : st.sends = [.pop m])
    (hrr : st.backend.roundRobin = p :: ids) :
    ∃ st₁, st.next (.resume 0 false) = some st₁ ∧ st₁.results = st.results ∧
      st₁.sends = [.get p m] ∧ st₁.backend = { st.backend with roundRobin := ids } := by
  refine ⟨_, next_resume st hs false, ?_⟩
  simp [State.resume, hrr, State.choose, hs]

theorem next_skip (hs : st.sends = [.get p m]) (hl : st.backend.peers.lookup p = none) :
    ∃ st₁, st.next (.resume 0 false) = some st₁ ∧ st₁.results = st.results ∧
      st₁.sends = [.pop m] ∧ st₁.backend = st.backend := by
  refine ⟨_, next_resume st hs false, ?_⟩
  simp [State.resume, hl, hs]

theorem completes_roundRobinLoop (hs : st.sends = [.pop m]) (r : Room) :
    Completes fairQueueInner st
      (st.backend.roundRobinLoop r m st.backend.roundRobin) := by
  generalize hrr : st.backend.roundRobin = ids
  induction ids generalizing st with
  | nil =>
    have hn := next_resume st hs false
    simp only [State.resume, hrr] at hn
    apply completes_of_next hn
    · exact congrArg (List.eraseIdx · 0) hs
    · rfl
    · rw [GenericSocketBackend.roundRobinLoop, ← hrr]
      rfl
  | cons p ids ih =>
    obtain ⟨st₁, hn, hr, hs₁, hb⟩ := next_pop hs hrr
    apply Completes.of_next hn hr
    rw [← roundRobinLoop_congr st.backend r ids, ← hb]
    have hrr₁ : st₁.backend.roundRobin = ids := by rw [hb]
    cases hl : st₁.backend.peers.lookup p with
    | none =>
      obtain ⟨st₂, hn, hr, hs₂, hb⟩ := next_skip hs₁ hl
      apply Completes.of_next hn hr
      rw [GenericSocketBackend.roundRobinLoop, hl]
      rw [← hb] at hrr₁ ⊢
      exact ih hs₂ hrr₁
    | some c =>
      rw [← hrr₁, roundRobinLoop_found hl]
      exact completes_get hs₁ hl r

omit [Target] in
theorem full_of_trySendCachedSinglePeer {b b' : GenericSocketBackend S W} {r : Room}
    {m' : Message} (h : b.trySendCachedSinglePeer r m none = (.full p c m', b')) :
    ∃ events, r = .full events := by
  unfold GenericSocketBackend.trySendCachedSinglePeer at h
  split at h
  · cases h
  · split at h
    · cases h
    · rw [Option.any_none, if_neg Bool.false_ne_true] at h
      split at h
      · cases h
      · rename_i ht
        exact full_of_trySend ht
      · cases h

omit [Target] in
theorem sendRoundRobin_full {b b' : GenericSocketBackend S W} {r : Room} {m' : Message}
    (h : b.trySendCachedSinglePeer r m none = (.full p c m', b')) :
    b.sendRoundRobin r m = sentCached b' p (send b'.channels c [] r.events m') := by
  simp only [GenericSocketBackend.sendRoundRobin, h, GenericSocketBackend.finishCachedSend]
  generalize send b'.channels c [] r.events m' = sent
  obtain ⟨result, channels⟩ := sent
  cases result with
  | ok u => rfl
  | error e => rfl

/-- The steps of a send that nothing else comes between are those of the whole call. -/
theorem completes_sendRoundRobin (hs : st.sends = []) (r : Room) :
    Completes fairQueueInner st (st.backend.sendRoundRobin r m) := by
  have hn : st.next (.sendRoundRobin (isFull r) m) =
      some (State.start { st with backend := (st.backend.trySendCachedSinglePeer r m none).2 }
        (st.backend.trySendCachedSinglePeer r m none).1) := by
    simp only [State.next, GenericSocketBackend.trySendCachedSinglePeer, trySend_room]
  cases hc : st.backend.trySendCachedSinglePeer r m none with
  | mk cachedSend b =>
    rw [hc] at hn
    cases cachedSend with
    | sent =>
      rw [GenericSocketBackend.sendRoundRobin, hc]
      exact completes_of_next hn hs rfl rfl
    | full p c m' =>
      obtain ⟨events, rfl⟩ := full_of_trySendCachedSinglePeer hc
      rw [sendRoundRobin_full hc]
      apply Completes.of_next hn rfl
      apply completes_cached
      exact congrArg (· ++ [.cached p (.ready c m')]) hs
    | disconnected p e =>
      rw [GenericSocketBackend.sendRoundRobin, hc]
      exact completes_of_next hn hs rfl rfl
    | miss m' =>
      rw [GenericSocketBackend.sendRoundRobin, hc]
      apply Completes.of_next hn rfl
      apply completes_roundRobinLoop
      exact congrArg (· ++ [.pop m']) hs

end Completed

end ZmqRs.Rotation
