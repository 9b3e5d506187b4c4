import ZmqRs.Recv.Delivery
import ZmqRs.Recv.Broken

/-! `proxy`: two sockets, each read by a `recv` future that the loop makes anew in every round,
and a capture socket.  `select!` drops both futures before it runs the body for the one that was
ready. -/

namespace ZmqRs

open Codec

namespace Recv

variable [Target] {W : Type} {l : Loop} {options : SocketOptions}

def Core.taken (c : Core W) : List (Option PeerIdentity × Res ZmqError ZmqMessage) :=
  match c.pc with
  | .done => c.returned.dropLast
  | _ => c.returned

theorem Core.returned_of_parked {c : Core W} (h : c.pc = .parked) : c.taken = c.returned := by
  simp [Core.taken, h]

theorem Core.taken_queueNext {c c' : Core W}
    {a : FairQueue.Action ZmqFramedRead PeerIdentity W (List PollRead)}
    (h : c.queueNext a = some c') : c'.taken = c.taken ∧ c'.pc = c.pc := by
  obtain ⟨q, -, rfl⟩ := Option.map_eq_some_iff.mp h
  exact ⟨rfl, rfl⟩

theorem Core.taken_onReady (c : Core W) (task : W) (r : Option (PeerIdentity × Item)) :
    (c.onReady l task r).taken = c.returned := by
  simp only [Core.onReady]
  cases (l.arm r).result <;> simp [Core.taken]

theorem Core.taken_isPrefix (c : Core W) : c.taken <+: c.returned := by
  simp only [Core.taken]
  split
  · exact List.dropLast_prefix _
  · exact List.prefix_rfl

theorem Core.taken_next {c c' : Core W} {a : CoreAction W} (ha : a ≠ .return)
    (hn : c.next l options a = some c') : c'.taken = c.taken := by
  cases a with
  | connect p n reads =>
    simp only [Core.next, Core.connect] at hn
    split at hn
    · exact (taken_queueNext hn).1
    · cases hn
  | queue a =>
    cases a with
    | insert k s => cases hn
    | pollNext task => cases hn
    | polled reads =>
      simp only [Core.next] at hn
      split at hn
      · exact (taken_queueNext hn).1
      · cases hn
    | remove k => exact (taken_queueNext hn).1
    | clear => exact (taken_queueNext hn).1
    | wake w => exact (taken_queueNext hn).1
    | pop e => exact (taken_queueNext hn).1
    | popNone => exact (taken_queueNext hn).1
    | resume => exact (taken_queueNext hn).1
    | exit => exact (taken_queueNext hn).1
    | finish => exact (taken_queueNext hn).1
  | poll task =>
    simp only [Core.next] at hn
    split at hn
    · rename_i hpc
      rw [(taken_queueNext hn).1]
      simp [Core.taken, hpc]
    · cases hn
  | handle =>
    simp only [Core.next] at hn
    split at hn
    · rename_i hpc _
      cases hn
      simp [Core.taken, hpc]
    · rename_i hpc _
      cases hn
      rw [taken_onReady]
      simp [Core.taken, hpc]
    · cases hn
  | loop =>
    simp only [Core.next] at hn
    split at hn
    · rename_i hpc
      rw [(taken_queueNext hn).1]
      simp [Core.taken, hpc]
    · cases hn
  | «return» => exact absurd rfl ha

theorem Core.taken_return {c c' : Core W} (hn : c.next l options .return = some c')
    {x : Option PeerIdentity × Res ZmqError ZmqMessage} (hx : c'.returned.getLast? = some x) :
    c'.returned = c.returned ∧ c'.taken = c.taken ++ [x] := by
  simp only [Core.next] at hn
  split at hn
  · rename_i hpc
    cases hn
    refine ⟨rfl, ?_⟩
    simp only [Core.taken, hpc]
    exact (List.dropLast_append_getLast? x hx).symm
  · cases hn

omit [Target] in
theorem messagesFrom_append_singleton (p : PeerIdentity)
    (l : List (Option PeerIdentity × Res ZmqError ZmqMessage))
    (x : Option PeerIdentity × Res ZmqError ZmqMessage) :
    messagesFrom p (l ++ [x]) = messagesFrom p l ++ messagesFrom p [x] :=
  List.filterMap_append

end Recv

namespace Proxy

open Recv (Loop messages messagesFrom)

inductive Side
  | frontend
  | backend
  deriving DecidableEq

def Side.other : Side → Side
  | .frontend => .backend
  | .backend => .frontend

structure Passed where
  side : Side
  peer : Option PeerIdentity
  message : ZmqMessage
  deriving DecidableEq

inductive Pc
  | select
  | racing
  | capture (x : Passed)
  | forward (x : Passed)
  | returned (e : Fault ZmqError)
  deriving DecidableEq

/-- `captured` and `forwarded` are what `send` was `Ok` for. -/
structure State [Target] (W : Type) where
  sockets : Side → Recv.State W
  pc : Pc
  received : List Passed
  captured : List ZmqMessage
  forwarded : List Passed

/-- `socket` is a step inside of a `recv` future, or of another task on the socket. -/
inductive Action [Target] (W : Type)
  | select
  | socket (s : Side) (a : Recv.CoreAction W)
  | ready (s : Side)
  | captureSent (r : Res ZmqError Unit)
  | forwardSent (r : Res ZmqError Unit)

variable [Target] {W : Type}

section Defs

variable (l : Side → Loop) (options : Side → SocketOptions) (capture : Bool)

def State.setSocket (st : State W) (s : Side) (socket : Recv.State W) : State W :=
  { st with sockets := Function.update st.sockets s socket }

def State.body (st : State W) (s : Side) :
    Option PeerIdentity × Res ZmqError ZmqMessage → State W
  | (p, .ok message) =>
    let x : Passed := ⟨s, p, message⟩
    { st with received := st.received ++ [x], pc := if capture then .capture x else .forward x }
  | (_, .error e) => { st with pc := .returned e }

def State.captureSent (st : State W) (x : Passed) : Res ZmqError Unit → State W
  | .ok () => { st with captured := st.captured ++ [x.message], pc := .forward x }
  | .error e => { st with pc := .returned e }

def State.forwardSent (st : State W) (x : Passed) : Res ZmqError Unit → State W
  | .ok () => { st with forwarded := st.forwarded ++ [x], pc := .select }
  | .error e => { st with pc := .returned e }

def next (st : State W) : Action W → Option (State W)
  | .select =>
    match st.pc with
    | .select => do
      let frontend ← Recv.next (l .frontend) (options .frontend) (st.sockets .frontend) .recv
      let backend ← Recv.next (l .backend) (options .backend) (st.sockets .backend) .recv
      some { (st.setSocket .frontend frontend).setSocket .backend backend with pc := .racing }
    | _ => none
  | .socket _ .return => none
  -- one task polls both futures, one after the other
  | .socket s (.poll task) =>
    match (st.sockets s.other).core.pc with
    | .parked =>
      (Recv.next (l s) (options s) (st.sockets s) (.core (.poll task))).map (st.setSocket s)
    | _ => none
  | .socket s a =>
    (Recv.next (l s) (options s) (st.sockets s) (.core a)).map (st.setSocket s)
  | .ready s =>
    match st.pc with
    | .racing => do
      let socket ← Recv.next (l s) (options s) (st.sockets s) (.core .return)
      let other ← Recv.next (l s.other) (options s.other) (st.sockets s.other) .drop
      let result ← socket.core.returned.getLast?
      some (((st.setSocket s socket).setSocket s.other other).body capture s result)
    | _ => none
  | .captureSent r =>
    match st.pc with
    | .capture x => some (st.captureSent x r)
    | _ => none
  | .forwardSent r =>
    match st.pc with
    | .forward x => some (st.forwardSent x r)
    | _ => none

def system : Lib.System (State W) (Action W) where
  init := ⟨fun s => (Recv.system (l s) (options s)).init, .select, [], [], []⟩
  next := next l options capture

end Defs

def fromPeer (s : Side) (p : PeerIdentity) (xs : List Passed) : List ZmqMessage :=
  xs.filterMap fun x => if x.side = s ∧ x.peer = some p then some x.message else none

variable {l : Side → Loop} {options : Side → SocketOptions} {capture : Bool} {st st' : State W}

def Action.recv? (s : Side) : Action W → Option (Recv.Action W)
  | .select => some .recv
  | .socket t a => if t = s then some (.core a) else none
  | .ready t => some (if t = s then .core .return else .drop)
  | _ => none

omit [Target] in
@[simp] theorem Side.other_ne (s : Side) : s.other ≠ s := by
  cases s <;> decide

omit [Target] in
theorem Side.eq_other_of_ne {s t : Side} (h : t ≠ s) : t = s.other := by
  cases s <;> cases t <;> first | rfl | exact absurd rfl h

omit [Target] in
theorem fromPeer_append (s : Side) (p : PeerIdentity) (xs ys : List Passed) :
    fromPeer s p (xs ++ ys) = fromPeer s p xs ++ fromPeer s p ys :=
  List.filterMap_append

omit [Target] in
theorem fromPeer_singleton (s : Side) (p : PeerIdentity) (q : Option PeerIdentity)
    (m : ZmqMessage) :
    messagesFrom p [(q, .ok m)] = fromPeer s p [⟨s, q, m⟩] := by
  cases q with
  | none => simp [messagesFrom, fromPeer]
  | some q => by_cases h : q = p <;> simp [messagesFrom, fromPeer, h]

@[simp] theorem setSocket_self (s : Side) (socket : Recv.State W) :
    (st.setSocket s socket).sockets s = socket :=
  Function.update_self ..

theorem setSocket_of_ne {s t : Side} (h : t ≠ s) (socket : Recv.State W) :
    (st.setSocket s socket).sockets t = st.sockets t :=
  Function.update_of_ne h ..

@[simp] theorem body_sockets (s : Side) (result : Option PeerIdentity × Res ZmqError ZmqMessage) :
    (st.body capture s result).sockets = st.sockets := by
  rcases result with ⟨p, _ | m⟩ <;> rfl

theorem next_socket {s : Side} {a : Recv.CoreAction W}
    (hn : next l options capture st (.socket s a) = some st') :
    a ≠ .return ∧ ∃ socket, Recv.next (l s) (options s) (st.sockets s) (.core a) = some socket ∧
      st' = st.setSocket s socket := by
  cases a with
  | «return» => cases hn
  | poll task =>
    simp only [next] at hn
    split at hn
    · obtain ⟨socket, hs, rfl⟩ := Option.map_eq_some_iff.mp hn
      exact ⟨by simp, socket, hs, rfl⟩
    · cases hn
  | _ =>
    obtain ⟨socket, hs, rfl⟩ := Option.map_eq_some_iff.mp hn
    exact ⟨by simp, socket, hs, rfl⟩

theorem next_select (hn : next l options capture st .select = some st') :
    st.pc = .select ∧ ∃ frontend backend,
      Recv.next (l .frontend) (options .frontend) (st.sockets .frontend) .recv = some frontend ∧
      Recv.next (l .backend) (options .backend) (st.sockets .backend) .recv = some backend ∧
      st' =
        { (st.setSocket .frontend frontend).setSocket .backend backend with pc := .racing } := by
  simp only [next] at hn
  split at hn
  · rename_i hpc
    obtain ⟨frontend, hf, hn⟩ := Option.bind_eq_some_iff.mp hn
    obtain ⟨backend, hb, hn⟩ := Option.bind_eq_some_iff.mp hn
    cases hn
    exact ⟨hpc, frontend, backend, hf, hb, rfl⟩
  · cases hn

theorem next_ready {s : Side} (hn : next l options capture st (.ready s) = some st') :
    st.pc = .racing ∧ ∃ socket other result,
      Recv.next (l s) (options s) (st.sockets s) (.core .return) = some socket ∧
      Recv.next (l s.other) (options s.other) (st.sockets s.other) .drop = some other ∧
      socket.core.returned.getLast? = some result ∧
      st' = ((st.setSocket s socket).setSocket s.other other).body capture s result := by
  simp only [next] at hn
  split at hn
  · rename_i hpc
    obtain ⟨socket, hs, hn⟩ := Option.bind_eq_some_iff.mp hn
    obtain ⟨other, ho, hn⟩ := Option.bind_eq_some_iff.mp hn
    obtain ⟨result, hr, hn⟩ := Option.bind_eq_some_iff.mp hn
    cases hn
    exact ⟨hpc, socket, other, result, hs, ho, hr, rfl⟩
  · cases hn

theorem next_captureSent {r : Res ZmqError Unit}
    (hn : next l options capture st (.captureSent r) = some st') :
    ∃ x, st.pc = .capture x ∧ st' = st.captureSent x r := by
  simp only [next] at hn
  split at hn
  · cases hn
    exact ⟨_, ‹_›, rfl⟩
  · cases hn

theorem next_forwardSent {r : Res ZmqError Unit}
    (hn : next l options capture st (.forwardSent r) = some st') :
    ∃ x, st.pc = .forward x ∧ st' = st.forwardSent x r := by
  simp only [next] at hn
  split at hn
  · cases hn
    exact ⟨_, ‹_›, rfl⟩
  · cases hn

theorem next_sockets {a : Action W} (hn : next l options capture st a = some st') (s : Side) :
    match a.recv? s with
    | some b => Recv.next (l s) (options s) (st.sockets s) b = some (st'.sockets s)
    | none => st'.sockets s = st.sockets s := by
  cases a with
  | select =>
    obtain ⟨-, frontend, backend, hf, hb, rfl⟩ := next_select hn
    cases s with
    | frontend =>
      exact hf.trans (congrArg some (by simp [State.setSocket]))
    | backend =>
      exact hb.trans (congrArg some (by simp [State.setSocket]))
  | socket t a =>
    obtain ⟨-, socket, hs, rfl⟩ := next_socket hn
    by_cases h : t = s
    · subst h
      simpa [Action.recv?] using hs
    · simpa [Action.recv?, h] using setSocket_of_ne (Ne.symm h) socket
  | ready t =>
    obtain ⟨-, socket, other, result, hs, ho, -, rfl⟩ := next_ready hn
    by_cases h : t = s
    · subst h
      rw [body_sockets, setSocket_of_ne (Side.other_ne t).symm, setSocket_self]
      simpa [Action.recv?] using hs
    · obtain rfl := Side.eq_other_of_ne (Ne.symm h)
      rw [body_sockets, setSocket_self]
      simpa [Action.recv?, h] using ho
  | captureSent r =>
    obtain ⟨x, -, rfl⟩ := next_captureSent hn
    rcases r with _ | ⟨⟩ <;> rfl
  | forwardSent r =>
    obtain ⟨x, -, rfl⟩ := next_forwardSent hn
    rcases r with _ | ⟨⟩ <;> rfl

theorem sockets_reachable (h : (system l options capture).Reachable st) (s : Side) :
    (Recv.system (l s) (options s)).Reachable (st.sockets s) := by
  obtain ⟨as, h⟩ := h
  refine ⟨as.filterMap (Action.recv? s), ?_⟩
  apply Lib.System.run_project _ _ (fun st => st.sockets s) (Action.recv? s) _ _ h
  · intro st a b st' ha hn
    have hs := next_sockets hn s
    rw [ha] at hs
    exact hs
  · intro st a st' ha hn
    have hs := next_sockets hn s
    rw [ha] at hs
    exact hs

def Taken (st : State W) : Prop :=
  ∀ s p, messagesFrom p (st.sockets s).core.taken = fromPeer s p st.received

theorem Taken.next (ht : Taken st) {a : Action W}
    (hn : next l options capture st a = some st') : Taken st' := by
  intro s p
  have hs := next_sockets hn s
  rw [Taken] at ht
  cases a with
  | select =>
    have hc := congrArg Recv.Core.taken (Recv.next_future rfl hs)
    obtain ⟨-, frontend, backend, -, -, rfl⟩ := next_select hn
    rw [hc]
    exact ht s p
  | socket t a =>
    obtain ⟨ha, socket, -, rfl⟩ := next_socket hn
    by_cases h : t = s
    · subst h
      simp only [Action.recv?, if_true] at hs
      exact (congrArg _ (Recv.Core.taken_next ha (Recv.next_core rfl hs))).trans (ht t p)
    · simp only [Action.recv?, h, if_false] at hs
      exact (congrArg (fun socket => messagesFrom p socket.core.taken) hs).trans (ht s p)
  | ready t =>
    obtain ⟨-, socket, other, ⟨q, r⟩, hsocket, ho, hr, rfl⟩ := next_ready hn
    by_cases h : t = s
    · subst h
      obtain ⟨-, htaken⟩ := Recv.Core.taken_return (Recv.next_core rfl hsocket) hr
      rw [body_sockets, setSocket_of_ne (Side.other_ne t).symm, setSocket_self, htaken,
        Recv.messagesFrom_append_singleton, ht t p]
      cases r with
      | error e => cases q <;> exact List.append_nil _
      | ok m =>
        rw [State.body, fromPeer_append]
        exact congrArg _ (fromPeer_singleton t p q m)
    · obtain rfl := Side.eq_other_of_ne (Ne.symm h)
      have hc := congrArg Recv.Core.taken (Recv.next_future rfl ho)
      rw [body_sockets, setSocket_self, hc, ht]
      cases r with
      | error e => rfl
      | ok m =>
        rw [State.body, fromPeer_append]
        simp [fromPeer, h]
        rfl
  | captureSent r =>
    obtain ⟨x, -, rfl⟩ := next_captureSent hn
    rcases r with _ | ⟨⟩ <;> exact ht s p
  | forwardSent r =>
    obtain ⟨x, -, rfl⟩ := next_forwardSent hn
    rcases r with _ | ⟨⟩ <;> exact ht s p

theorem taken (h : (system l options capture).Reachable st) : Taken st :=
  h.invariant (fun _ _ => rfl) fun _ _ _ ht hn => ht.next hn

def capturedOf (capture : Bool) (xs : List Passed) : List ZmqMessage :=
  if capture then xs.map Passed.message else []

def Hand (capture : Bool) (st : State W) : Prop :=
  match st.pc with
  | .capture x => capture = true ∧ st.received = st.forwarded ++ [x] ∧
      st.captured = capturedOf capture st.forwarded
  | .forward x => st.received = st.forwarded ++ [x] ∧ st.captured = capturedOf capture st.received
  | .returned _ => st.forwarded <+: st.received ∧
      st.received.length ≤ st.forwarded.length + 1 ∧
      (st.captured = capturedOf capture st.forwarded ∨ st.captured = capturedOf capture st.received)
  | _ => st.received = st.forwarded ∧ st.captured = capturedOf capture st.forwarded

theorem Hand.next (hh : Hand capture st) {a : Action W}
    (hn : next l options capture st a = some st') : Hand capture st' := by
  cases a with
  | select =>
    obtain ⟨hpc, frontend, backend, -, -, rfl⟩ := next_select hn
    simp only [Hand, hpc] at hh
    exact hh
  | socket s a =>
    obtain ⟨-, socket, -, rfl⟩ := next_socket hn
    exact hh
  | ready s =>
    obtain ⟨hpc, socket, other, ⟨q, r⟩, -, -, -, rfl⟩ := next_ready hn
    simp only [Hand, hpc] at hh
    obtain ⟨hr, hc⟩ := hh
    cases r with
    | error e =>
      refine ⟨⟨[], (List.append_nil _).trans hr.symm⟩, ?_, .inl hc⟩
      exact (congrArg List.length hr).le.trans (Nat.le_succ _)
    | ok m =>
      cases capture with
      | true => exact ⟨rfl, congrArg (· ++ _) hr, hc⟩
      | false => exact ⟨congrArg (· ++ _) hr, hc⟩
  | captureSent r =>
    obtain ⟨x, hpc, rfl⟩ := next_captureSent hn
    simp only [Hand, hpc] at hh
    obtain ⟨rfl, hr, hc⟩ := hh
    rcases r with e | ⟨⟩
    · exact ⟨⟨[x], hr.symm⟩, by simp [State.captureSent, hr], .inl hc⟩
    · refine ⟨hr, ?_⟩
      change st.captured ++ [x.message] = capturedOf true st.received
      rw [hc, hr, capturedOf, capturedOf, if_pos rfl, if_pos rfl, List.map_append]
      rfl
  | forwardSent r =>
    obtain ⟨x, hpc, rfl⟩ := next_forwardSent hn
    simp only [Hand, hpc] at hh
    obtain ⟨hr, hc⟩ := hh
    rcases r with e | ⟨⟩
    · exact ⟨⟨[x], hr.symm⟩, by simp [State.forwardSent, hr], .inr hc⟩
    · exact ⟨hr, hc.trans (congrArg _ hr)⟩

theorem Hand.bounds (hh : Hand capture st) :
    st.forwarded <+: st.received ∧ st.received.length ≤ st.forwarded.length + 1 ∧
      (st.captured = capturedOf capture st.forwarded ∨
        st.captured = capturedOf capture st.received) := by
  rw [Hand] at hh
  split at hh
  · obtain ⟨-, hr, hc⟩ := hh
    exact ⟨⟨_, hr.symm⟩, by simp [hr], .inl hc⟩
  · obtain ⟨hr, hc⟩ := hh
    exact ⟨⟨_, hr.symm⟩, by simp [hr], .inr hc⟩
  · exact hh
  · obtain ⟨hr, hc⟩ := hh
    exact ⟨hr ▸ List.prefix_rfl, by simp [hr], .inl hc⟩

theorem hand (h : (system l options capture).Reachable st) : Hand capture st :=
  h.invariant ⟨rfl, by cases capture <;> rfl⟩ fun _ _ _ hh hn => hh.next hn

def Failed (as : List (Action W)) (st : State W) (e : Fault ZmqError) : Prop :=
  (∃ s q, (q, .error e) ∈ (st.sockets s).core.taken) ∨
    .captureSent (.error e) ∈ as ∨ .forwardSent (.error e) ∈ as

theorem failed {as : List (Action W)}
    (h : (system l options capture).run (system l options capture).init as = some st)
    {e : Fault ZmqError} (he : st.pc = .returned e) : Failed as st e := by
  revert e
  refine Lib.System.run_history (P := fun as st => ∀ {e}, st.pc = .returned e → Failed as st e)
    _ ?_ ?_ h
  · intro e he
    cases he
  · intro as st a st' ih hn e he
    change next l options capture st a = some st' at hn
    cases a with
    | select =>
      obtain ⟨-, frontend, backend, -, -, rfl⟩ := next_select hn
      cases he
    | socket t a =>
      obtain ⟨ha, socket, hs, rfl⟩ := next_socket hn
      have htaken := Recv.Core.taken_next ha (Recv.next_core rfl hs)
      rcases ih he with ⟨s, q, hq⟩ | hfailed | hfailed
      · refine .inl ⟨s, q, ?_⟩
        by_cases h : s = t
        · subst h
          rwa [setSocket_self, htaken]
        · rwa [setSocket_of_ne h]
      · exact .inr (.inl (List.mem_append_left _ hfailed))
      · exact .inr (.inr (List.mem_append_left _ hfailed))
    | ready s =>
      obtain ⟨hpc, socket, other, ⟨q, r⟩, hs, -, hr, rfl⟩ := next_ready hn
      rcases r with e' | m
      · cases he
        refine .inl ⟨s, q, ?_⟩
        obtain ⟨-, htaken⟩ := Recv.Core.taken_return (Recv.next_core rfl hs) hr
        rw [body_sockets, setSocket_of_ne (Side.other_ne s).symm, setSocket_self, htaken]
        exact List.mem_append_right _ (List.mem_singleton_self _)
      · cases capture <;> cases he
    | captureSent r =>
      obtain ⟨x, hpc, rfl⟩ := next_captureSent hn
      rcases r with e' | ⟨⟩
      · cases he
        exact .inr (.inl (by simp))
      · cases he
    | forwardSent r =>
      obtain ⟨x, hpc, rfl⟩ := next_forwardSent hn
      rcases r with e' | ⟨⟩
      · cases he
        exact .inr (.inr (by simp))
      · cases he

omit [Target] in
theorem fromPeer_isPrefix {xs ys : List Passed} (h : xs <+: ys) (s : Side) (p : PeerIdentity) :
    fromPeer s p xs <+: fromPeer s p ys :=
  h.filterMap _

/-- The proxy forwards what it receives once and in order, though it drops a future of `recv` in
every round.  It has forwarded all that it received but at most one message, and has captured the
same messages; the messages forwarded from a peer are the first that its connection decodes to,
and they are all of them while the proxy holds no message, the reader of the peer waits for bytes
and its side of the `select!` is pending.  It returns only where a `recv` or a `send` failed. -/
theorem forwarded_in_order {as : List (Action W)}
    (h : (system l options capture).run (system l options capture).init as = some st) :
    st.forwarded <+: st.received ∧ st.received.length ≤ st.forwarded.length + 1 ∧
      (st.captured = capturedOf capture st.forwarded ∨
        st.captured = capturedOf capture st.received) ∧
      (∀ s p, fromPeer s p st.forwarded <+:
        (messages ((st.sockets s).core.decoded p)).map ((l s).deliver p)) ∧
      (∀ s p held, (st.pc = .select ∨ st.pc = .racing) →
        (st.sockets s).core.queue.inner.streams.lookup p = some held → held.pendingWaker ≠ none →
        (st.sockets s).core.pc = .parked → ∃ n, ∀ n', n ≤ n' →
          fromPeer s p st.forwarded = (messages ((ZmqCodec.withOptions (options s)).decodeCalls n'
            ((st.sockets s).core.delivered p))).map ((l s).deliver p)) ∧
      ∀ e, st.pc = .returned e → Failed as st e := by
  have hh := hand ⟨as, h⟩
  have ht := taken ⟨as, h⟩
  obtain ⟨hpre, hlength, hcaptured⟩ := hh.bounds
  refine ⟨hpre, hlength, hcaptured, ?_, ?_, fun e he => failed h he⟩
  · intro s p
    refine (fromPeer_isPrefix hpre s p).trans ?_
    rw [← ht s p]
    refine List.IsPrefix.trans ?_ 
      (Recv.Link.Ok.returned_prefix (Recv.link_ok (sockets_reachable ⟨as, h⟩ s) p))
    exact (Recv.Core.taken_isPrefix _).filterMap _
  · intro s p held hpc hl hw hparked
    have hall : st.received = st.forwarded := by
      rcases hpc with hpc | hpc <;> simp only [Hand, hpc] at hh <;> exact hh.1
    have hk := Recv.link_ok (sockets_reachable ⟨as, h⟩ s) p
    refine ⟨((st.sockets s).core.decoded p).length, fun n' hn => ?_⟩
    obtain ⟨n, rfl⟩ := Nat.exists_eq_add_of_le hn
    have hret := hk.returned_all hl hw (by simp [Recv.Core.link, hparked, Recv.unhandledOf]) n
    rw [← hall, ← ht s p, Recv.Core.returned_of_parked hparked]
    exact hret.symm

def routerToDealer (p : PeerIdentity) : List (Action Nat) :=
  [.socket .frontend (.connect p 2
      [Recv.ready (ZmqGreeting.default.encode ++ ZmqCommand.encode .ready [] ++ [1, 1])]),
    .select, .socket .frontend (.poll 0), .socket .frontend (.queue (.pop ⟨0, p⟩)),
    .socket .frontend (.queue (.polled [])), .socket .frontend (.queue .exit),
    .socket .frontend (.queue .finish), .socket .frontend .handle,
    .socket .backend (.poll 0), .socket .backend (.queue .exit),
    .socket .backend (.queue .finish), .socket .backend .handle,
    .socket .frontend (.queue (.wake 0)), .socket .frontend (.poll 0),
    .socket .frontend (.queue (.pop ⟨1, p⟩)),
    .socket .frontend (.queue (.polled [Recv.ready [7, 0, 0]])), .socket .frontend .handle,
    .ready .frontend, .captureSent (.ok ()), .forwardSent (.ok ()), .select]

def routerDealer : Side → Loop
  | .frontend => Recv.RouterSocket.recv
  | .backend => Recv.DealerSocket.recv

omit [Target] in
theorem forwarded_in_order_routerToDealer :
    letI := Target.x64
    let p : PeerIdentity := .ofByte 9
    let sys := system routerDealer (fun _ => .default) true
    ∃ st, sys.run sys.init (routerToDealer p) = some st ∧
      st.forwarded = [⟨.frontend, some p, ⟨[[9], [7], []]⟩⟩] ∧
      st.captured = [⟨[[9], [7], []]⟩] ∧
      fromPeer .frontend p st.forwarded <+:
        (messages ((st.sockets .frontend).core.decoded p)).map (·.pushFront [9]) := by
  let _ := Target.x64
  intro p sys
  have hrun : (sys.run sys.init (routerToDealer p)).any fun st =>
      st.forwarded = [⟨.frontend, some p, ⟨[[9], [7], []]⟩⟩] ∧
        st.captured = [⟨[[9], [7], []]⟩] := by
    decide +kernel
  obtain ⟨st, hst, hret⟩ := (Option.any_eq_true _ _).mp hrun
  obtain ⟨hforwarded, hcaptured⟩ := of_decide_eq_true hret
  exact ⟨st, hst, hforwarded, hcaptured, (forwarded_in_order hst).2.2.2.1 .frontend p⟩

end Proxy

end ZmqRs
