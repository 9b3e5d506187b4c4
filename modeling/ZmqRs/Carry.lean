import ZmqRs.Lib.Fifo
import ZmqRs.Transfer

/-! From the channels of a sending socket to `recv` of other sockets.  Each channel is the queue
of the writer task at one connection of a receiving socket. -/

namespace ZmqRs.Carry

open Codec Codec.ZmqCodec
open Lib (Feeder)
open Recv (messages messagesFrom)
open Handshake.Agreement (Config)

variable [Target] {σ α W : Type}

structure Receiver where
  kind : Recv.Receiver
  options : SocketOptions
  cfg : PeerIdentity → Config
  highWaterMark : Nat
  order : Message → List (String × Bytes)
  capacity : Nat

def Receiver.system (r : Receiver) : Lib.System (Transfer.State W) (Transfer.Action W) :=
  Transfer.system r.kind.recv r.options r.cfg r.highWaterMark r.order r.capacity

/-- `conns` are the connections of the sender, in the order of its channels: the number of the
receiver, and the identity that the receiver knows the sender by. -/
structure State (σ W : Type) where
  sender : σ
  receivers : Nat → Transfer.State W
  conns : List (Nat × PeerIdentity)

inductive Action (α W : Type)
  | sender (a : α)
  | receiver (r : Nat) (b : Transfer.Action W)
  | both (a : α) (r : Nat) (p : PeerIdentity) (b : WriteQueue.Action)
  | connect (a : α) (r : Nat) (p : PeerIdentity)

def State.task (st : State σ W) (conn : Nat × PeerIdentity) : WriteQueue.State :=
  (st.receivers conn.1).peers conn.2

section Defs

variable (feeder : Feeder σ α Message) (receivers : Nat → Receiver)

def Agrees (st : State σ W) : Prop :=
  feeder.lane st.sender st.conns.length = none ∧
  ∀ x ∈ st.conns.zipIdx, feeder.lane st.sender x.2 = some (st.task x.1).chan.fifo

instance (st : State σ W) : Decidable (Agrees feeder st) :=
  inferInstanceAs (Decidable (_ ∧ ∀ x ∈ st.conns.zipIdx, _))

def check (st : State σ W) : Option (State σ W) := if Agrees feeder st then some st else none

def next (st : State σ W) : Action α W → Option (State σ W)
  | .sender a => do
    let sender ← feeder.next st.sender a
    check feeder { st with sender := sender }
  | .receiver r b => do
    let receiver ← (receivers r).system.next (st.receivers r) b
    check feeder { st with receivers := Function.update st.receivers r receiver }
  | .both a r p b => do
    let sender ← feeder.next st.sender a
    let receiver ← (receivers r).system.next (st.receivers r) (.peer p b)
    check feeder { st with
      sender := sender, receivers := Function.update st.receivers r receiver }
  | .connect a r p =>
    if (r, p) ∉ st.conns ∧ (st.task (r, p)).sent = [] then do
      let sender ← feeder.next st.sender a
      check feeder { st with sender := sender, conns := st.conns ++ [(r, p)] }
    else none

def system : Lib.System (State σ W) (Action α W) where
  init := ⟨feeder.init, fun r => (receivers r).system.init, []⟩
  next := next feeder receivers

end Defs

/-! ### The writer tasks -/

section Task

variable {highWaterMark : Nat} {order : Message → List (String × Bytes)} {st st' : WriteQueue.State}

def TaskStep (st st' : WriteQueue.State) : Prop :=
  ∃ put took, Lib.Fifo.Step (some st.chan.fifo) put took (some st'.chan.fifo) ∧
    st'.sent = st.sent ++ put

omit [Target] in
theorem taskStep_kept (hc : st'.chan.fifo = st.chan.fifo) (hs : st'.sent = st.sent) :
    TaskStep st st' :=
  ⟨[], [], hc ▸ .kept _, by rw [hs, List.append_nil]⟩

omit [Target] in
theorem taskStep_finish (result : Res CodecError Unit) : TaskStep st (st.finish result) :=
  ⟨[], [], .closed _, (List.append_nil _).symm⟩

omit [Target] in
theorem taskStep_recv {m : Message} {chan : Lib.Mpsc Message} (hr : st.chan.recv = some (m, chan))
    (hc : st'.chan = chan) (hs : st'.sent = st.sent) : TaskStep st st' := by
  obtain ⟨hq, hcl⟩ := Lib.Mpsc.recv_eq_some hr
  refine ⟨[], [m], ?_, by rw [hs, List.append_nil]⟩
  rw [hc, Lib.Mpsc.fifo, Lib.Mpsc.fifo, hq, hcl]
  exact .took _ _ _

omit [Target] in
theorem taskStep_next {a : WriteQueue.Action}
    (h : WriteQueue.next highWaterMark order st a = some st') : TaskStep st st' := by
  cases a with
  | clone i | drop i =>
    simp only [WriteQueue.next] at h
    split at h
    · cases h
      exact taskStep_kept rfl rfl
    · cases h
  | trySend i m =>
    simp only [WriteQueue.next] at h
    split at h
    · split at h
      · rename_i hs
        obtain ⟨hopen, -, hq⟩ := Lib.Mpsc.trySend_of_sent hs
        cases h
        refine ⟨[m], [], ?_, rfl⟩
        rw [Lib.Mpsc.fifo, Lib.Mpsc.fifo, hopen, hq]
        exact .put _ _ _
      · rename_i hne hs
        cases h
        exact taskStep_kept (congrArg Lib.Mpsc.fifo (Lib.Mpsc.trySend_of_ne_sent hs hne)) rfl
    · cases h
  | next =>
    simp only [WriteQueue.next] at h
    split at h
    · split at h
      · rename_i hr
        cases h
        exact taskStep_recv hr rfl rfl
      · split at h
        · cases h
          exact taskStep_finish _
        · cases h
    · cases h
  | tryRecv =>
    simp only [WriteQueue.next] at h
    split at h
    · cases h
      exact taskStep_kept rfl rfl
    · split at h
      · rename_i hr
        cases h
        exact taskStep_recv hr rfl rfl
      · cases h
        exact taskStep_kept rfl rfl
    · cases h
  | startSend =>
    simp only [WriteQueue.next] at h
    split at h
    · split at h
      · cases h
      · split at h
        · cases h
          exact taskStep_kept rfl rfl
        · cases h
          exact taskStep_finish _
    · cases h
  | write n =>
    simp only [WriteQueue.next] at h
    split at h
    · obtain ⟨sink, -, rfl⟩ := Option.map_eq_some_iff.mp h
      exact taskStep_kept rfl rfl
    · cases h
  | writeError e =>
    simp only [WriteQueue.next] at h
    split at h
    · cases h
      exact taskStep_finish _
    · cases h
  | flushed =>
    simp only [WriteQueue.next] at h
    split at h
    · obtain ⟨sink, -, rfl⟩ := Option.map_eq_some_iff.mp h
      exact taskStep_kept rfl rfl
    · cases h
  | flushError e =>
    simp only [WriteQueue.next] at h
    split at h
    · split at h
      · cases h
      · cases h
        exact taskStep_finish _
    · cases h

theorem taskStep_transfer {r : Receiver} {t t' : Transfer.State W} {b : Transfer.Action W}
    (h : r.system.next t b = some t') (p : PeerIdentity) : TaskStep (t.peers p) (t'.peers p) := by
  cases b with
  | peer q a =>
    obtain ⟨task, ht, rfl⟩ := Option.map_eq_some_iff.mp h
    by_cases hq : p = q
    · subst hq
      simpa using taskStep_next ht
    · simpa [hq] using (taskStep_kept rfl rfl : TaskStep (t.peers p) (t.peers p))
  | recv a =>
    obtain ⟨recv, -, h⟩ := Option.bind_eq_some_iff.mp h
    split at h
    · cases h
      exact taskStep_kept rfl rfl
    · cases h

end Task

/-! ### The channels -/

variable {feeder : Feeder σ α Message} {receivers : Nat → Receiver} {st st' : State σ W}

structure Inv (feeder : Feeder σ α Message) (receivers : Nat → Receiver) (st : State σ W) :
    Prop where
  sender : feeder.toSystem.Reachable st.sender
  receiver : ∀ r, (receivers r).system.Reachable (st.receivers r)
  agrees : Agrees feeder st
  sent : ∀ x ∈ st.conns.zipIdx, (st.task x.1).sent = feeder.entered st.sender x.2

theorem inv_init : Inv feeder receivers (system (W := W) feeder receivers).init where
  sender := ⟨[], rfl⟩
  receiver _ := ⟨[], rfl⟩
  agrees := ⟨(feeder.lane_init 0).1, by simp [system]⟩
  sent := by simp [system]

theorem sent_next {sender : σ} (hr : feeder.toSystem.Reachable st.sender)
    (hs : sender = st.sender ∨ ∃ a, feeder.next st.sender a = some sender) {c : Nat}
    {t t' : WriteQueue.State} (ht : TaskStep t t')
    (hbefore : feeder.lane st.sender c = some t.chan.fifo)
    (hafter : feeder.lane sender c = some t'.chan.fifo)
    (hsent : t.sent = feeder.entered st.sender c) : t'.sent = feeder.entered sender c := by
  obtain ⟨put, took, hstep, hput⟩ := ht
  obtain ⟨put', took', hstep', hput'⟩ : ∃ put' took',
      Lib.Fifo.Step (feeder.lane st.sender c) put' took' (feeder.lane sender c) ∧
        feeder.entered sender c = feeder.entered st.sender c ++ put' := by
    rcases hs with rfl | ⟨a, ha⟩
    · exact ⟨[], [], .same _, (List.append_nil _).symm⟩
    · exact feeder.lane_next hr ha c
  rw [hbefore, hafter] at hstep'
  rw [hput, hput', hsent, hstep.put_unique hstep']

theorem check_eq_some (h : check feeder st = some st') : Agrees feeder st ∧ st' = st := by
  rw [check] at h
  split at h
  · rename_i ha
    exact ⟨ha, (Option.some.inj h).symm⟩
  · cases h

theorem taskStep_update {r : Nat} {t : Transfer.State W} {b : Transfer.Action W}
    (h : (receivers r).system.next (st.receivers r) b = some t) (conn : Nat × PeerIdentity) :
    TaskStep (st.task conn)
      (State.task { st with receivers := Function.update st.receivers r t } conn) := by
  obtain ⟨r', p⟩ := conn
  by_cases hr : r' = r
  · subst hr
    simpa [State.task] using taskStep_transfer h p
  · simpa [State.task, hr] using
      (taskStep_kept rfl rfl : TaskStep ((st.receivers r').peers p) ((st.receivers r').peers p))

theorem Inv.step (hi : Inv feeder receivers st) {sender : σ} {nets : Nat → Transfer.State W}
    (hs : sender = st.sender ∨ ∃ a, feeder.next st.sender a = some sender)
    (hn : ∀ r, (receivers r).system.Reachable (nets r))
    (ht : ∀ conn, TaskStep (st.task conn) ((nets conn.1).peers conn.2))
    (ha : Agrees feeder { st with sender := sender, receivers := nets }) :
    Inv feeder receivers { st with sender := sender, receivers := nets } where
  sender := by
    rcases hs with rfl | ⟨a, hs⟩
    · exact hi.sender
    · exact hi.sender.next hs
  receiver := hn
  agrees := ha
  sent x hx :=
    sent_next hi.sender hs (ht x.1) (hi.agrees.2 x hx) (ha.2 x hx) (hi.sent x hx)

theorem reachable_update (hi : Inv feeder receivers st) {r : Nat} {t : Transfer.State W}
    {b : Transfer.Action W} (h : (receivers r).system.next (st.receivers r) b = some t) (r' : Nat) :
    (receivers r').system.Reachable (Function.update st.receivers r t r') := by
  by_cases hr : r' = r
  · subst hr
    rw [Function.update_self]
    exact (hi.receiver r').next h
  · rw [Function.update_of_ne hr]
    exact hi.receiver r'

theorem inv_next (hi : Inv feeder receivers st) {a : Action α W}
    (h : next feeder receivers st a = some st') : Inv feeder receivers st' := by
  cases a with
  | sender a =>
    simp only [next, Option.bind_eq_bind, Option.bind_eq_some_iff] at h
    obtain ⟨sender, hs, h⟩ := h
    obtain ⟨ha, rfl⟩ := check_eq_some h
    exact hi.step (.inr ⟨a, hs⟩) hi.receiver (fun conn => taskStep_kept rfl rfl) ha
  | receiver r b =>
    simp only [next, Option.bind_eq_bind, Option.bind_eq_some_iff] at h
    obtain ⟨t, ht, h⟩ := h
    obtain ⟨ha, rfl⟩ := check_eq_some h
    exact hi.step (.inl rfl) (reachable_update hi ht) (taskStep_update ht) ha
  | both a r p b =>
    simp only [next, Option.bind_eq_bind, Option.bind_eq_some_iff] at h
    obtain ⟨sender, hs, t, ht, h⟩ := h
    obtain ⟨ha, rfl⟩ := check_eq_some h
    exact hi.step (.inr ⟨a, hs⟩) (reachable_update hi ht) (taskStep_update ht) ha
  | connect a r p =>
    simp only [next] at h
    split at h
    · rename_i hnew
      simp only [Option.bind_eq_bind, Option.bind_eq_some_iff] at h
      obtain ⟨sender, hs, h⟩ := h
      obtain ⟨ha, rfl⟩ := check_eq_some h
      refine ⟨hi.sender.next hs, hi.receiver, ha, fun x hx => ?_⟩
      rw [List.zipIdx_append] at hx
      rcases List.mem_append.mp hx with hx | hx
      · refine sent_next hi.sender (.inr ⟨a, hs⟩) (taskStep_kept rfl rfl) (hi.agrees.2 x hx) ?_
          (hi.sent x hx)
        exact ha.2 x (by rw [List.zipIdx_append]; exact List.mem_append_left _ hx)
      · -- The new channel is as empty as what its writer task has been sent.
        have hx' : x = ((r, p), st.conns.length) := by simpa using hx
        subst hx'
        obtain ⟨put, took, hstep, hput⟩ := feeder.lane_next hi.sender hs st.conns.length
        rw [hi.agrees.1] at hstep
        have hnil : put = [] := by
          generalize feeder.lane sender st.conns.length = f at hstep
          cases hstep <;> rfl
        change (st.task (r, p)).sent = _
        rw [hnew.2, hput, hnil, feeder.entered_of_absent hi.sender hi.agrees.1]
        rfl
    · cases h

theorem Reachable.inv (h : (system feeder receivers).Reachable st) : Inv feeder receivers st := by
  refine h.invariant inv_init ?_
  exact fun _ _ _ hi hn => inv_next hi hn

def Receiver.made (r : Receiver) (p : PeerIdentity) (ms : List Message) : List ZmqMessage :=
  (messages (ms.map .ok)).map fun m => if r.kind = .router then m.pushFront p.bytes else m

/-- What `recv` has returned from the connection of a channel are the first of the messages that
the sender put into the channel, and all of them once all has arrived. -/
theorem carried (h : (system feeder receivers).Reachable st) {c r : Nat} {p : PeerIdentity}
    (hc : st.conns[c]? = some (r, p))
    (hs : ∀ m ∈ feeder.entered st.sender c,
      Sendable (receivers r).options.readBufferMaxSize ((receivers r).order m, m)) :
    messagesFrom p (st.receivers r).recv.core.returned <+:
        (receivers r).made p (feeder.entered st.sender c) ∧
      (Transfer.Settled (receivers r).cfg (st.receivers r) p →
        messagesFrom p (st.receivers r).recv.core.returned =
          (receivers r).made p (feeder.entered st.sender c)) := by
  have hi := Reachable.inv h
  have hsent : ((st.receivers r).peers p).sent = feeder.entered st.sender c :=
    hi.sent ((r, p), c) (List.mem_zipIdx_iff_getElem?.mpr hc)
  rw [← hsent] at hs ⊢
  exact ⟨Transfer.returned_isPrefix _ (hi.receiver r) hs,
    Transfer.returned_of_settled _ (hi.receiver r) hs⟩

end ZmqRs.Carry
