import ZmqRs.Backend.Rotation
import ZmqRs.Lib.Fifo

/-! What becomes of the messages that `send_round_robin` is called with.  Every call is followed
from its start to its end, and every message from the call to the writer of the channel that it
was put into. -/

namespace ZmqRs.Accounts

open Codec (Message)
open GenericSocketBackend (notConnected withOptions)
open Lib (Fifo only)
open Lib.Fifo (Line)
open Rotation (Polled Sending SendFuture pollPeerQueue room)

variable {S W : Type}

inductive Outcome
  | pending
  | returned (result : Except ZmqError Unit)
  | dropped

structure Call where
  message : Message
  outcome : Outcome

/-- `calls` are the calls so far, and `tickets` the numbers of those in progress.  `puts` are the
puts into channels, by the number of the call, and `taken` what the writer of a channel took. -/
structure State (S W : Type) where
  rotation : Rotation.State S W
  calls : List Call
  tickets : List Nat
  puts : List (Nat × Sender)
  taken : Sender → List Message

def putOf (b : GenericSocketBackend S W) (full : Bool) : Sending → Option Sender
  | .cached _ (.ready c _) | .queue _ (.ready c _) =>
    if b.channels.isClosed c then none else some c
  | .get p _ =>
    (b.peers.lookup p).bind fun c => if b.channels.isClosed c ∨ full then none else some c
  | _ => none

def putAtOnce [Target] (b : GenericSocketBackend S W) (full : Bool) (m : Message) :
    Option Sender :=
  match (b.trySendCachedSinglePeer (room full) m none).1 with
  | .sent => b.singlePeer.map SinglePeer.sendQueue
  | _ => none

def outcome (before after : Rotation.State S W) : Outcome :=
  match after.results.drop before.results.length with
  | result :: _ => .returned result
  | [] => .pending

def takenBy (b : GenericSocketBackend S W) : Rotation.Action S → Option (Sender × Message)
  | .channel (.received c) => (b.channels[c]?.bind (·.queue.head?)).map (c, ·)
  | _ => none

namespace State

def settle (st : State S W) (i k : Nat) (put : Option Sender) (rotation : Rotation.State S W) :
    State S W :=
  { st with
    rotation := rotation
    calls := st.calls.modify k ({ · with outcome := outcome st.rotation rotation })
    tickets :=
      match outcome st.rotation rotation with
      | .pending => st.tickets
      | _ => st.tickets.eraseIdx i
    puts := st.puts ++ (put.map (k, ·)).toList }

def start (st : State S W) (m : Message) (put : Option Sender) (rotation : Rotation.State S W) :
    State S W :=
  { st with
    rotation := rotation
    calls := st.calls ++ [⟨m, outcome st.rotation rotation⟩]
    tickets :=
      match outcome st.rotation rotation with
      | .pending => st.tickets ++ [st.calls.length]
      | _ => st.tickets
    puts := st.puts ++ (put.map (st.calls.length, ·)).toList }

def next [Target] (st : State S W) (a : Rotation.Action S) : Option (State S W) := do
  let rotation ← st.rotation.next a
  match a with
  | .sendRoundRobin full m =>
    return st.start m (putAtOnce st.rotation.backend full m) rotation
  | .resume i full =>
    let k ← st.tickets[i]?
    let send ← st.rotation.sends[i]?
    return st.settle i k (putOf st.rotation.backend full send) rotation
  | .drop i =>
    let k ← st.tickets[i]?
    return { st with
      rotation := rotation
      calls := st.calls.modify k ({ · with outcome := .dropped })
      tickets := st.tickets.eraseIdx i }
  | _ =>
    return { st with
      rotation := rotation
      taken := fun c => st.taken c ++ only c (takenBy st.rotation.backend a) }

def times (st : State S W) (k : Nat) : Nat := st.puts.countP (·.1 = k)

def entered (st : State S W) (c : Sender) : List Message :=
  (st.puts.filter (·.2 = c)).filterMap fun put => st.calls[put.1]?.map Call.message

end State

def lane (channels : Channels) (c : Sender) : Option (Fifo Message) :=
  channels[c]?.map fun channel => ⟨channel.queue, channel.closed⟩

def system [Target] (fairQueueInner : Option (QueueInner S PeerIdentity W)) :
    Lib.System (State S W) (Rotation.Action S) where
  init := ⟨(Rotation.system fairQueueInner).init, [], [], [], fun _ => []⟩
  next := State.next

/-! ### What a send can do -/

def unsent : Sending → Option Message
  | .cached _ (.ready _ m) | .queue _ (.ready _ m) | .pop m | .get _ m => some m
  | .cached _ .flush | .queue _ .flush => none

def flushed (x : Sending) : Nat := if (unsent x).isNone then 1 else 0

def accepted : Except ZmqError Unit → Nat
  | .ok _ => 1
  | .error _ => 0

inductive Put (channels : Channels) (x : Option Message) : Option Sender → Channels → Prop
  | none : Put channels x none channels
  | some (c : Sender) (m : Message) : channels.isClosed c = false → x = some m →
      Put channels x (some c) (channels.push c m)

inductive Resumed (st st' : Rotation.State S W) (i : Nat) (x : Sending) (put : Option Sender) :
    Prop
  | goesOn (y : Sending) : st'.sends = st.sends.set i y → st'.results = st.results →
      flushed y = flushed x + put.toList.length →
      (∀ m, unsent y = some m → unsent x = some m) → Resumed st st' i x put
  | returns (result : Except ZmqError Unit) : st'.sends = st.sends.eraseIdx i →
      st'.results = st.results ++ [result] → accepted result = flushed x + put.toList.length →
      (∀ reason m, result = .error (.returnToSender reason m) → unsent x = some (.message m)) →
      Resumed st st' i x put

inductive Settles (wrap : SendFuture → Sending) (x : Sending) (put : Option Sender) :
    Polled → Prop
  | pending (f : SendFuture) : flushed (wrap f) = flushed x + put.toList.length →
      (∀ m, unsent (wrap f) = some m → unsent x = some m) → Settles wrap x put (.pending f)
  | ready (result : Except SendError Unit) :
      flushed x + put.toList.length = (if result.isOk then 1 else 0) →
      Settles wrap x put (.ready result)

section Resume

variable {st : Rotation.State S W} {i : Nat} {x : Sending} {p : PeerIdentity} {full : Bool}
  {put : Option Sender} {polled : Polled}

theorem settles_poll (wrap : SendFuture → Sending) (full : Bool) (put : Option Sender)
    (hready : ∀ c m, unsent (wrap (.ready c m)) = some m)
    (hflush : unsent (wrap .flush) = none) (f : SendFuture) (channels : Channels)
    (hput : put = match f with
      | .ready c _ => if channels.isClosed c then none else some c
      | .flush => none) :
    Settles wrap (wrap f) put (f.poll channels full).1 ∧
      Put channels (unsent (wrap f)) put (f.poll channels full).2 := by
  subst hput
  cases f with
  | ready c m =>
    cases hc : channels.isClosed c with
    | true =>
      simp only [SendFuture.poll, hc, if_true]
      exact ⟨.ready _ (by simp [flushed, hready, Except.isOk, Except.toBool]), .none⟩
    | false =>
      simp only [SendFuture.poll, hc, Bool.false_eq_true, if_false]
      refine ⟨?_, .some c m hc (hready c m)⟩
      cases full with
      | true => exact .pending .flush (by simp [flushed, hready, hflush]) (by simp [hflush])
      | false => exact .ready _ (by simp [flushed, hready, Except.isOk, Except.toBool])
  | flush =>
    exact ⟨.ready _ (by simp [flushed, hflush, Except.isOk, Except.toBool]), .none⟩

theorem settles_pollPeerQueue (p : PeerIdentity) (full : Bool) (put : Option Sender) (c : Sender)
    (m : Message) (channels : Channels)
    (hput : put = if channels.isClosed c ∨ full then none else some c) :
    Settles (.queue p) (.get p m) put (pollPeerQueue channels c full m).1 ∧
      Put channels (some m) put (pollPeerQueue channels c full m).2 := by
  subst hput
  cases hc : channels.isClosed c with
  | true =>
    simp only [pollPeerQueue, trySend, hc, if_true, true_or]
    exact ⟨.ready _ (by simp [flushed, unsent, Except.isOk, Except.toBool]), .none⟩
  | false =>
    cases full with
    | true =>
      simp only [pollPeerQueue, trySend, hc, room, Bool.false_eq_true, if_true, if_false, or_true]
      exact ⟨.pending _ (by simp [flushed, unsent]) (by simp [unsent]), .none⟩
    | false =>
      simp only [pollPeerQueue, trySend, hc, room, Bool.false_eq_true, if_false, or_self]
      exact ⟨.ready _ (by simp [flushed, unsent, Except.isOk, Except.toBool]), .some c m hc rfl⟩

theorem resumed_settleCached (st : Rotation.State S W) (i : Nat) (channels : Channels)
    (h : Settles (.cached p) x put polled) :
    Resumed st ((st.setChannels channels).settleCached i p polled) i x put ∧
      ((st.setChannels channels).settleCached i p polled).backend.channels = channels := by
  cases h with
  | pending f hf hm => exact ⟨.goesOn _ rfl rfl hf hm, rfl⟩
  | ready result hr =>
    cases result with
    | ok u => exact ⟨.returns (.ok ()) rfl rfl hr.symm (by simp), rfl⟩
    | error e =>
      exact ⟨.returns (.error e.toZmqError) rfl rfl hr.symm (by simp [SendError.toZmqError]), rfl⟩

theorem resumed_settle (st : Rotation.State S W) (i : Nat) (channels : Channels)
    (h : Settles (.queue p) x put polled) :
    Resumed st ((st.setChannels channels).settle i p polled) i x put ∧
      ((st.setChannels channels).settle i p polled).backend.channels = channels := by
  cases h with
  | pending f hf hm => exact ⟨.goesOn _ rfl rfl hf hm, rfl⟩
  | ready result hr =>
    cases result with
    | ok u => exact ⟨.returns (.ok ()) rfl rfl hr.symm (by simp), rfl⟩
    | error e =>
      exact ⟨.returns (.error e.toZmqError) rfl rfl hr.symm (by simp [SendError.toZmqError]), rfl⟩

theorem resumed (full : Bool) (hi : st.sends[i]? = some x) :
    Resumed st (st.resume i full x) i x (putOf st.backend full x) ∧
      Put st.backend.channels (unsent x) (putOf st.backend full x)
        (st.resume i full x).backend.channels := by
  cases x with
  | cached p f =>
    obtain ⟨hs, hp⟩ := settles_poll (.cached p) full
      (putOf st.backend full (.cached p f)) (fun _ _ => rfl) rfl f st.backend.channels
      (by cases f <;> rfl)
    obtain ⟨hr, hc⟩ := resumed_settleCached st i (f.poll st.backend.channels full).2 hs
    exact ⟨hr, hc ▸ hp⟩
  | pop m =>
    rw [Rotation.State.resume]
    split
    · refine ⟨.returns _ rfl rfl ?_ ?_, .none⟩
      · cases m <;> rfl
      · intro reason m' h
        cases m <;> simp [notConnected] at h
        simp [unsent, h]
    · exact ⟨.goesOn _ rfl rfl rfl fun _ h => h, .none⟩
  | get p m =>
    rw [Rotation.State.resume]
    cases hl : st.backend.peers.lookup p with
    | none =>
      simp only [putOf, hl, Option.bind_none]
      exact ⟨.goesOn _ rfl rfl rfl fun _ h => h, .none⟩
    | some c =>
      obtain ⟨hs, hp⟩ := settles_pollPeerQueue p full
        (putOf st.backend full (.get p m)) c m st.backend.channels (by simp [putOf, hl])
      obtain ⟨hr, hc⟩ := resumed_settle st i
        (pollPeerQueue st.backend.channels c full m).2 hs
      exact ⟨hr, hc ▸ hp⟩
  | queue p f =>
    obtain ⟨hs, hp⟩ := settles_poll (.queue p) full
      (putOf st.backend full (.queue p f)) (fun _ _ => rfl) rfl f st.backend.channels
      (by cases f <;> rfl)
    obtain ⟨hr, hc⟩ := resumed_settle st i (f.poll st.backend.channels full).2 hs
    exact ⟨hr, hc ▸ hp⟩

end Resume

inductive Started (st st' : Rotation.State S W) (m : Message) (put : Option Sender) : Prop
  | waits (y : Sending) : st'.sends = st.sends ++ [y] → st'.results = st.results →
      unsent y = some m → put = none → Started st st' m put
  | returns (result : Except ZmqError Unit) : st'.sends = st.sends →
      st'.results = st.results ++ [result] → accepted result = put.toList.length →
      (∀ reason m', result ≠ .error (.returnToSender reason m')) → Started st st' m put

section Steps

variable [Target] {st st' : Rotation.State S W}

theorem started {full : Bool} {m : Message} (h : st.next (.sendRoundRobin full m) = some st') :
    Started st st' m (putAtOnce st.backend full m) ∧
      Put st.backend.channels (some m) (putAtOnce st.backend full m) st'.backend.channels := by
  rw [Rotation.State.next] at h
  simp only [Option.some.injEq] at h
  subst h
  simp only [putAtOnce, GenericSocketBackend.trySendCachedSinglePeer, Option.any_none]
  split
  · exact ⟨.waits (.pop m) rfl rfl rfl rfl, .none⟩
  · split
    · exact ⟨.waits (.pop m) rfl rfl rfl rfl, .none⟩
    · rename_i single hs
      simp only [Bool.false_eq_true, if_false]
      cases hc : st.backend.channels.isClosed single.sendQueue with
      | true =>
        simp only [trySend, hc, if_true]
        exact ⟨.returns (.error (SendError.toZmqError .disconnected)) rfl rfl rfl
          (by simp [SendError.toZmqError]), .none⟩
      | false =>
        cases full with
        | true =>
          simp only [trySend, hc, room, Bool.false_eq_true, if_true, if_false]
          exact ⟨.waits _ rfl rfl rfl rfl, .none⟩
        | false =>
          simp only [trySend, hc, room, Bool.false_eq_true, if_false, hs, Option.map_some]
          exact ⟨.returns (.ok ()) rfl rfl rfl (by simp), .some _ m hc rfl⟩

omit [Target] in
theorem outcome_pending (h : st'.results = st.results) : outcome st st' = .pending := by
  simp [outcome, h]

omit [Target] in
theorem outcome_returned {result : Except ZmqError Unit}
    (h : st'.results = st.results ++ [result]) :
    outcome st st' = .returned result := by
  simp [outcome, h]

end Steps

/-! ### The channels -/

theorem lane_push {channels : Channels} {c : Sender} (hc : channels.isClosed c = false)
    (m : Message)
    (q : Sender) :
    Fifo.Step (lane channels q) (only q (some (c, m))) [] (lane (channels.push c m) q) := by
  rw [lane, lane, Channels.push, List.getElem?_modify]
  by_cases hq : c = q
  · subst hq
    rw [Channels.isClosed] at hc
    split at hc
    · rename_i channel hl
      simp only [hl, Lib.Fifo.only_some, if_pos, Option.map_eq_map, Option.map_some, hc]
      exact .put _ _ _
    · cases hc
  · simp only [Lib.Fifo.only_some, if_neg hq, Option.map_eq_map, Option.map_id_fun', id]
    exact .same _

theorem lane_put {channels channels' : Channels} {x : Option Message} {put : Option Sender}
    {m : Message} (h : Put channels x put channels') (hx : ∀ m', x = some m' → m' = m)
    (q : Sender) :
    Fifo.Step (lane channels q) (only q (put.map (·, m))) [] (lane channels' q) := by
  cases h with
  | none => exact .same _
  | some c m' hc hm =>
    obtain rfl := hx m' hm
    exact lane_push hc m' q

theorem lane_received (b : GenericSocketBackend S W) (c q : Sender) :
    Fifo.Step (lane b.channels q) [] (only q (takenBy b (.channel (.received c))))
      (lane (b.channels.apply (.received c)) q) := by
  rw [lane, lane, Channels.apply, List.getElem?_modify, takenBy]
  by_cases hq : c = q
  · subst hq
    cases hl : b.channels[c]? with
    | none => exact .absent
    | some channel =>
      obtain ⟨queue, closed⟩ := channel
      cases queue with
      | nil =>
        simp only [Option.bind_some, List.head?_nil, Option.map_none, Lib.Fifo.only_none, if_pos,
          Option.map_eq_map, Option.map_some, List.tail_nil]
        exact .kept _
      | cons m queue =>
        simp only [Option.bind_some, List.head?_cons, Option.map_some, Lib.Fifo.only_some, if_pos,
          Option.map_eq_map, List.tail_cons]
        exact .took _ _ _
  · have hother : ∀ r ∈ (b.channels[c]?.bind (·.queue.head?)).map (c, ·), r.1 = c := by
      intro r hr
      obtain ⟨m, -, rfl⟩ := Option.map_eq_some_iff.mp hr
      rfl
    rw [Fifo.only_of_ne hother hq]
    simp only [if_neg hq, Option.map_eq_map, Option.map_id_fun', id]
    exact .same _

theorem lane_closed (channels : Channels) (c q : Sender) :
    Fifo.Step (lane channels q) [] [] (lane (channels.apply (.closed c)) q) := by
  rw [lane, lane, Channels.apply, List.getElem?_modify]
  by_cases hq : c = q
  · subst hq
    cases hl : channels[c]? with
    | none => exact .absent
    | some channel =>
      simp only [if_pos, Option.map_eq_map, Option.map_some]
      exact .closed _
  · simp only [if_neg hq, Option.map_eq_map, Option.map_id_fun', id]
    exact .same _

theorem lane_opened (channels : Channels) (q : Sender) :
    Fifo.Step (lane channels q) [] [] (lane (channels ++ [⟨[], false⟩]) q) := by
  rw [lane, lane]
  by_cases hq : q < channels.length
  · rw [List.getElem?_append_left hq]
    exact .same _
  · rw [List.getElem?_eq_none (Nat.le_of_not_lt hq),
      List.getElem?_append_right (Nat.le_of_not_lt hq)]
    cases hc : [(⟨[], false⟩ : Channel)][q - channels.length]? with
    | none => exact .absent
    | some c =>
      obtain rfl := List.mem_singleton.mp (List.mem_of_getElem? hc)
      exact .opened false

/-! ### The invariant -/

def Outcome.Allows (n : Nat) : Outcome → Prop
  | .pending | .dropped => n ≤ 1
  | .returned result => n = accepted result

theorem Outcome.Allows.le_one {n : Nat} {o : Outcome} (h : o.Allows n) : n ≤ 1 := by
  cases o with
  | pending | dropped => exact h
  | returned result =>
    cases result with
    | ok u => exact Nat.le_of_eq h
    | error e => exact (Nat.le_of_eq h).trans (Nat.zero_le 1)

def Call.OwnMessage (call : Call) : Prop :=
  ∀ reason m, call.outcome = .returned (.error (.returnToSender reason m)) →
    call.message = .message m

structure Pending (st : State S W) (k : Nat) (x : Sending) : Prop where
  call : ∃ m, st.calls[k]? = some ⟨m, .pending⟩ ∧ ∀ m', unsent x = some m' → m' = m
  times : st.times k = flushed x

structure Inv (st : State S W) : Prop where
  length : st.tickets.length = st.rotation.sends.length
  nodup : st.tickets.Nodup
  pending : ∀ (i k : Nat) (x : Sending), st.tickets[i]? = some k →
    st.rotation.sends[i]? = some x → Pending st k x
  ended : ∀ (k : Nat) (call : Call), st.calls[k]? = some call → k ∉ st.tickets →
    call.outcome ≠ .pending ∧ call.outcome.Allows (st.times k)
  own : ∀ call ∈ st.calls, call.OwnMessage
  known : ∀ put ∈ st.puts, put.1 < st.calls.length

theorem flushed_le (x : Sending) : flushed x ≤ 1 := by
  rw [flushed]
  split <;> simp

theorem inv_init [Target] (fairQueueInner : Option (QueueInner S PeerIdentity W)) :
    Inv (system fairQueueInner).init where
  length := rfl
  nodup := List.nodup_nil
  pending i k x h := by cases h
  ended k call h := by cases h
  own call h := by cases h
  known put h := by cases h

section Preservation

variable {st : State S W} {i k : Nat} {put : Option Sender}

theorem times_append (puts : List (Nat × Sender)) (j : Nat) :
    (puts ++ (put.map (k, ·)).toList).countP (·.1 = j) =
      puts.countP (·.1 = j) + if k = j then put.toList.length else 0 := by
  rw [List.countP_append]
  cases put with
  | none => simp
  | some c => by_cases h : k = j <;> simp [h]

def Keeps (calls calls' : List Call) : Prop :=
  ∀ (k : Nat) (call : Call), calls[k]? = some call →
    (calls'[k]?.map Call.message) = some call.message

theorem keeps_modify (calls : List Call) (k : Nat) (o : Outcome) :
    Keeps calls (calls.modify k ({ · with outcome := o })) := by
  intro j call hj
  rw [List.getElem?_modify, Option.map_eq_map, Option.map_map, hj]
  simp only [Option.map_some, Function.comp_apply]
  split <;> rfl

theorem keeps_append (calls calls' : List Call) : Keeps calls (calls ++ calls') := by
  intro j call hj
  rw [List.getElem?_append_left (List.getElem?_eq_some_iff.mp hj).1, hj, Option.map_some]

theorem entered_append (hknown : ∀ p ∈ st.puts, p.1 < st.calls.length) {calls : List Call}
    (hkeeps : Keeps st.calls calls) {m : Message} (hk : calls[k]?.map Call.message = some m)
    (c : Sender) :
    ((st.puts ++ (put.map (k, ·)).toList).filter (·.2 = c)).filterMap
        (fun p => calls[p.1]?.map Call.message) =
      st.entered c ++ only c (put.map (·, m)) := by
  rw [List.filter_append, List.filterMap_append, State.entered]
  congr 1
  · apply List.filterMap_congr
    intro p hp
    have hlt := hknown p (List.mem_filter.mp hp).1
    rw [hkeeps p.1 _ (List.getElem?_eq_getElem hlt), List.getElem?_eq_getElem hlt, Option.map_some]
  · cases put with
    | none => rfl
    | some c' => by_cases h : c' = c <;> simp [h, hk]

theorem mem_eraseIdx_tickets (hi : Inv st) (hk : st.tickets[i]? = some k) (j : Nat) :
    j ∈ st.tickets.eraseIdx i ↔ j ∈ st.tickets ∧ j ≠ k := by
  obtain ⟨hlt, rfl⟩ := List.getElem?_eq_some_iff.mp hk
  rw [← hi.nodup.erase_getElem i hlt, hi.nodup.mem_erase_iff, and_comm]

theorem Inv.ne_of_ne (hi : Inv st) (hk : st.tickets[i]? = some k) {j k' : Nat}
    (hk' : st.tickets[j]? = some k') (hj : j ≠ i) : k' ≠ k := by
  rintro rfl
  have hlt := (List.getElem?_eq_some_iff.mp hk').1
  exact hj ((List.getElem?_inj hlt hi.nodup).mp (hk'.trans hk.symm))

theorem Inv.lt_of_mem (hi : Inv st) (hk : k ∈ st.tickets) : k < st.calls.length := by
  obtain ⟨i, hk⟩ := List.mem_iff_getElem?.mp hk
  have hlt := hi.length ▸ (List.getElem?_eq_some_iff.mp hk).1
  obtain ⟨⟨m, hcall, -⟩, -⟩ := hi.pending i k _ hk (List.getElem?_eq_getElem hlt)
  exact (List.getElem?_eq_some_iff.mp hcall).1

theorem known_append (hi : Inv st) {n : Nat} (hn : st.calls.length ≤ n) (hk : k < n) :
    ∀ p ∈ st.puts ++ (put.map (k, ·)).toList, p.1 < n := by
  intro p hp
  rcases List.mem_append.mp hp with hp | hp
  · exact Nat.lt_of_lt_of_le (hi.known p hp) hn
  · cases put with
    | none => cases hp
    | some c =>
      obtain rfl := List.mem_singleton.mp hp
      exact hk

theorem lane_puts (hi : Inv st) (put : Option Sender) {calls : List Call}
    (hkeeps : Keeps st.calls calls) {m : Message}
    (hk : calls[k]?.map Call.message = some m) {x : Option Message}
    (hx : ∀ m', x = some m' → m' = m)
    {channels : Channels} (hput : Put st.rotation.backend.channels x put channels) (c : Sender) :
    ∃ put', Fifo.Step (lane st.rotation.backend.channels c) put' [] (lane channels c) ∧
      ((st.puts ++ (put.map (k, ·)).toList).filter (·.2 = c)).filterMap
        (fun p => calls[p.1]?.map Call.message) = st.entered c ++ put' :=
  ⟨_, lane_put hput hx c, entered_append hi.known hkeeps hk c⟩

theorem Inv.goesOn (hi : Inv st) {x y : Sending} {rotation : Rotation.State S W}
    (hk : st.tickets[i]? = some k) (hx : st.rotation.sends[i]? = some x)
    (hs : rotation.sends = st.rotation.sends.set i y)
    (hf : flushed y = flushed x + put.toList.length)
    (hm : ∀ m, unsent y = some m → unsent x = some m) :
    Inv { st with rotation := rotation, puts := st.puts ++ (put.map (k, ·)).toList } := by
  obtain ⟨⟨m, hcall, hown⟩, htimes⟩ := hi.pending i k x hk hx
  have hmem : k ∈ st.tickets := List.mem_of_getElem? hk
  refine ⟨?_, hi.nodup, ?_, ?_, hi.own, ?_⟩
  · rw [hs, List.length_set]
    exact hi.length
  · intro j k' x' hk' hx'
    rw [hs] at hx'
    by_cases hj : j = i
    · subst hj
      obtain rfl : k' = k := Option.some.inj (hk'.symm.trans hk)
      rw [List.getElem?_set_self (List.getElem?_eq_some_iff.mp hx).1] at hx'
      obtain rfl : y = x' := Option.some.inj hx'
      refine ⟨⟨m, hcall, fun m' h => hown m' (hm m' h)⟩, ?_⟩
      rw [State.times, times_append, if_pos rfl, hf, ← htimes]
      rfl
    · rw [List.getElem?_set_ne (Ne.symm hj)] at hx'
      obtain ⟨hcall', htimes'⟩ := hi.pending j k' x' hk' hx'
      refine ⟨hcall', ?_⟩
      rw [State.times, times_append, if_neg (Ne.symm (hi.ne_of_ne hk hk' hj)), Nat.add_zero]
      exact htimes'
  · intro k' call hcall' hk'
    have hne : k ≠ k' := fun h => hk' (h ▸ hmem)
    rw [State.times, times_append, if_neg hne, Nat.add_zero]
    exact hi.ended k' call hcall' hk'
  · exact known_append hi (Nat.le_refl _) (List.getElem?_eq_some_iff.mp hcall).1

theorem Inv.ends (hi : Inv st) (put : Option Sender) (rotation : Rotation.State S W) {x : Sending}
    {o : Outcome}
    (hk : st.tickets[i]? = some k) (hx : st.rotation.sends[i]? = some x)
    (hs : rotation.sends = st.rotation.sends.eraseIdx i) (ho : o ≠ .pending)
    (ha : o.Allows (flushed x + put.toList.length))
    (hown' : ∀ reason m, o = .returned (.error (.returnToSender reason m)) →
      unsent x = some (.message m)) :
    Inv { st with
      rotation := rotation
      calls := st.calls.modify k ({ · with outcome := o })
      tickets := st.tickets.eraseIdx i
      puts := st.puts ++ (put.map (k, ·)).toList } := by
  obtain ⟨⟨m, hcall, hown⟩, htimes⟩ := hi.pending i k x hk hx
  have hcall' : (st.calls.modify k ({ · with outcome := o }))[k]? = some ⟨m, o⟩ := by
    rw [List.getElem?_modify_eq, hcall]
    rfl
  refine ⟨?_, hi.nodup.sublist (List.eraseIdx_sublist ..), ?_, ?_, ?_, ?_⟩
  · rw [hs, List.length_eraseIdx, List.length_eraseIdx, hi.length]
  · intro j k' x' hk' hx'
    -- The send was at another place before this one ended.
    obtain ⟨j', hj', hk', hx'⟩ : ∃ j', j' ≠ i ∧ st.tickets[j']? = some k' ∧
        st.rotation.sends[j']? = some x' := by
      rw [hs] at hx'
      rw [List.getElem?_eraseIdx] at hk' hx'
      split at hk'
      · rename_i hj
        rw [if_pos hj] at hx'
        exact ⟨j, Nat.ne_of_lt hj, hk', hx'⟩
      · rename_i hj
        rw [if_neg hj] at hx'
        exact ⟨j + 1, by omega, hk', hx'⟩
    have hne := hi.ne_of_ne hk hk' hj'
    obtain ⟨⟨m', hcall'', hown''⟩, htimes'⟩ := hi.pending j' k' x' hk' hx'
    refine ⟨⟨m', ?_, hown''⟩, ?_⟩
    · exact (List.getElem?_modify_ne _ _ (Ne.symm hne)).trans hcall''
    · rw [State.times, times_append, if_neg (Ne.symm hne), Nat.add_zero]
      exact htimes'
  · intro k' call hk' hmem
    rw [State.times, times_append]
    by_cases hne : k' = k
    · subst hne
      obtain rfl := Option.some.inj (hcall'.symm.trans hk')
      rw [if_pos rfl]
      have heq : st.puts.countP (·.1 = k') = flushed x := htimes
      exact ⟨ho, heq ▸ ha⟩
    · rw [if_neg (Ne.symm hne), Nat.add_zero]
      rw [List.getElem?_modify_ne _ _ (Ne.symm hne)] at hk'
      refine hi.ended k' call hk' fun h => hmem ?_
      exact (mem_eraseIdx_tickets hi hk k').mpr ⟨h, hne⟩
  · intro call hc
    obtain ⟨j, hj⟩ := List.mem_iff_getElem?.mp hc
    by_cases hne : j = k
    · subst hne
      obtain rfl := Option.some.inj (hcall'.symm.trans hj)
      intro reason m' h
      exact (hown _ (hown' reason m' h)).symm
    · rw [List.getElem?_modify_ne _ _ (Ne.symm hne)] at hj
      exact hi.own call (List.mem_of_getElem? hj)
  · rw [List.length_modify]
    exact known_append hi (Nat.le_refl _) (List.getElem?_eq_some_iff.mp hcall).1

theorem Inv.started_ended (hi : Inv st) (put : Option Sender) {n : Nat} (call : Call)
    (hcall : call.outcome ≠ .pending → call.outcome.Allows n) (hput : put.toList.length = n)
    (k' : Nat) (call' : Call) (h : (st.calls ++ [call])[k']? = some call') (hk : k' ∉ st.tickets)
    (hne : k' = st.calls.length → call.outcome ≠ .pending) :
    call'.outcome ≠ .pending ∧ call'.outcome.Allows
      ((st.puts ++ (put.map (st.calls.length, ·)).toList).countP (·.1 = k')) := by
  rw [times_append]
  by_cases hk' : k' = st.calls.length
  · subst hk'
    rw [List.getElem?_concat_length] at h
    obtain rfl := Option.some.inj h
    have hzero : st.puts.countP (·.1 = st.calls.length) = 0 := by
      rw [List.countP_eq_zero]
      intro p hp
      simpa using Nat.ne_of_lt (hi.known p hp)
    rw [if_pos rfl, hzero, Nat.zero_add, hput]
    exact ⟨hne rfl, hcall (hne rfl)⟩
  · have hlt : k' < st.calls.length := by
      have := (List.getElem?_eq_some_iff.mp h).1
      rw [List.length_append, List.length_singleton] at this
      omega
    rw [List.getElem?_append_left hlt] at h
    rw [if_neg (Ne.symm hk'), Nat.add_zero]
    exact hi.ended k' call' h hk

theorem Inv.started_own (hi : Inv st) {call : Call} (hown : call.OwnMessage) :
    ∀ call' ∈ st.calls ++ [call], call'.OwnMessage := by
  intro call' hc
  rcases List.mem_append.mp hc with hc | hc
  · exact hi.own call' hc
  · exact List.mem_singleton.mp hc ▸ hown

theorem Pending.started {x : Sending} (h : Pending st k x) (put : Option Sender) (call : Call)
    (rotation : Rotation.State S W) (tickets : List Nat) (taken : Sender → List Message) :
    Pending ⟨rotation, st.calls ++ [call], tickets,
      st.puts ++ (put.map (st.calls.length, ·)).toList, taken⟩ k x := by
  obtain ⟨⟨m, hcall, hown⟩, htimes⟩ := h
  have hlt := (List.getElem?_eq_some_iff.mp hcall).1
  refine ⟨⟨m, (List.getElem?_append_left hlt).trans hcall, hown⟩, ?_⟩
  rw [State.times, times_append, if_neg (Nat.ne_of_gt hlt), Nat.add_zero]
  exact htimes

theorem Inv.waits (hi : Inv st) {m : Message} {y : Sending} {rotation : Rotation.State S W}
    (hs : rotation.sends = st.rotation.sends ++ [y]) (hy : unsent y = some m) :
    Inv { st with
      rotation := rotation
      calls := st.calls ++ [⟨m, .pending⟩]
      tickets := st.tickets ++ [st.calls.length] } := by
  have hnew : st.calls.length ∉ st.tickets := fun h => Nat.lt_irrefl _ (hi.lt_of_mem h)
  have hputs : st.puts = st.puts ++ ((none : Option Sender).map (st.calls.length, ·)).toList := by
    simp
  refine ⟨?_, ?_, ?_, ?_, ?_, ?_⟩
  · rw [hs, List.length_append, List.length_append, hi.length]
    rfl
  · exact List.nodup_append.mpr ⟨hi.nodup, List.nodup_singleton _, by
      rintro a ha b hb rfl
      exact hnew (List.mem_singleton.mp hb ▸ ha)⟩
  · intro i k x hk hx
    rw [hs] at hx
    by_cases hlt : i < st.tickets.length
    · rw [List.getElem?_append_left hlt] at hk
      rw [List.getElem?_append_left (hi.length ▸ hlt)] at hx
      have hp := (hi.pending i k x hk hx).started none ⟨m, .pending⟩ rotation
        (st.tickets ++ [st.calls.length]) st.taken
      exact hputs ▸ hp
    · have hi' : i = st.tickets.length := by
        have := (List.getElem?_eq_some_iff.mp hk).1
        rw [List.length_append, List.length_singleton] at this
        omega
      subst hi'
      rw [List.getElem?_concat_length] at hk
      rw [hi.length, List.getElem?_concat_length] at hx
      obtain rfl := Option.some.inj hk
      obtain rfl := Option.some.inj hx
      refine ⟨⟨m, List.getElem?_concat_length, fun m' h => Option.some.inj (h.symm.trans hy)⟩, ?_⟩
      have hzero : st.puts.countP (·.1 = st.calls.length) = 0 := by
        rw [List.countP_eq_zero]
        intro p hp
        simpa using Nat.ne_of_lt (hi.known p hp)
      rw [flushed, hy]
      exact hzero
  · intro k call hcall hk
    rw [List.mem_append, List.mem_singleton, not_or] at hk
    have h := hi.started_ended none (n := 0) ⟨m, .pending⟩ (absurd rfl) rfl k call
      hcall hk.1 fun h => absurd h hk.2
    rwa [← hputs] at h
  · exact hi.started_own fun reason m' h => by cases h
  · intro p hp
    rw [List.length_append]
    exact Nat.lt_add_right _ (hi.known p hp)

theorem Inv.returnsAtOnce (hi : Inv st) {m : Message} {result : Except ZmqError Unit}
    {rotation : Rotation.State S W} (hs : rotation.sends = st.rotation.sends)
    (hr : accepted result = put.toList.length)
    (hown : ∀ reason m', result ≠ .error (.returnToSender reason m')) :
    Inv { st with
      rotation := rotation
      calls := st.calls ++ [⟨m, .returned result⟩]
      puts := st.puts ++ (put.map (st.calls.length, ·)).toList } := by
  refine ⟨hs ▸ hi.length, hi.nodup, ?_, ?_, ?_, ?_⟩
  · intro i k x hk hx
    exact (hi.pending i k x hk (hs ▸ hx)).started _ _ _ _ _
  · intro k call hcall hk
    exact hi.started_ended put ⟨m, .returned result⟩ (fun _ => hr.symm) rfl k call hcall hk
      (by simp)
  · exact hi.started_own fun reason m' h => absurd (Outcome.returned.inj h) (hown reason m')
  · rw [List.length_append, List.length_singleton]
    exact known_append hi (Nat.le_succ _) (Nat.lt_succ_self _)

theorem Inv.elsewhere (hi : Inv st) {rotation : Rotation.State S W} {taken : Sender → List Message}
    (hs : rotation.sends = st.rotation.sends) :
    Inv { st with rotation := rotation, taken := taken } := by
  refine ⟨hs ▸ hi.length, hi.nodup, ?_, hi.ended, hi.own, hi.known⟩
  intro i k x hk hx
  obtain ⟨hcall, htimes⟩ := hi.pending i k x hk (hs ▸ hx)
  exact ⟨hcall, htimes⟩

end Preservation

section Next

variable [Target] {st st' : State S W}

theorem next_sendRoundRobin {full : Bool} {m : Message}
    (h : st.next (.sendRoundRobin full m) = some st') :
    ∃ rotation, st.rotation.next (.sendRoundRobin full m) = some rotation ∧
      st' = st.start m (putAtOnce st.rotation.backend full m) rotation := by
  rw [State.next] at h
  obtain ⟨rotation, hr, h⟩ := Option.bind_eq_some_iff.mp h
  cases h
  exact ⟨rotation, hr, rfl⟩

theorem next_resume {i : Nat} {full : Bool} (h : st.next (.resume i full) = some st') :
    ∃ k x, st.tickets[i]? = some k ∧ st.rotation.sends[i]? = some x ∧
      st' = st.settle i k (putOf st.rotation.backend full x) (st.rotation.resume i full x) := by
  rw [State.next] at h
  obtain ⟨rotation, hr, h⟩ := Option.bind_eq_some_iff.mp h
  simp only [Option.bind_eq_bind, Option.bind_eq_some_iff] at h
  obtain ⟨k, hk, x, hx, h⟩ := h
  cases h
  obtain rfl : st.rotation.resume i full x = rotation := by
    simpa [Rotation.State.next, hx] using hr
  exact ⟨k, x, hk, hx, rfl⟩

theorem next_drop {i : Nat} (h : st.next (.drop i) = some st') :
    ∃ k x, st.tickets[i]? = some k ∧ st.rotation.sends[i]? = some x ∧
      st' = { st with
        rotation := st.rotation.forget i
        calls := st.calls.modify k ({ · with outcome := .dropped })
        tickets := st.tickets.eraseIdx i } := by
  rw [State.next] at h
  obtain ⟨rotation, hr, h⟩ := Option.bind_eq_some_iff.mp h
  simp only [Option.bind_eq_bind, Option.bind_eq_some_iff] at h
  obtain ⟨k, hk, h⟩ := h
  cases h
  obtain ⟨x, hx, rfl⟩ := Rotation.next_drop hr
  exact ⟨k, x, hk, hx, rfl⟩

theorem inv_next (hi : Inv st) {a : Rotation.Action S} (h : st.next a = some st') : Inv st' := by
  cases a with
  | sendRoundRobin full m =>
    obtain ⟨rotation, hr, rfl⟩ := next_sendRoundRobin h
    cases (started hr).1 with
    | waits y hs hres hy hnone =>
      have heq := hi.waits hs hy
      simpa [State.start, outcome_pending hres, hnone] using heq
    | returns result hs hres hacc hown =>
      have heq := hi.returnsAtOnce (m := m) hs hacc hown
      simpa [State.start, outcome_returned hres] using heq
  | resume i full =>
    obtain ⟨k, x, hk, hx, rfl⟩ := next_resume h
    cases (resumed full hx).1 with
    | goesOn y hs hres hf hm =>
      have hcalls : st.calls.modify k ({ · with outcome := .pending }) = st.calls := by
        obtain ⟨⟨m, hcall, -⟩, -⟩ := hi.pending i k x hk hx
        refine List.ext_getElem? fun j => ?_
        rw [List.getElem?_modify, Option.map_eq_map]
        by_cases hj : k = j
        · subst hj
          simp [hcall]
        · simp [hj]
      have heq := hi.goesOn hk hx hs hf hm
      simpa [State.settle, outcome_pending hres, hcalls] using heq
    | returns result hs hres hacc hown =>
      have heq := hi.ends _ _ (o := .returned result) hk hx hs (by simp) hacc.symm
        fun reason m h => hown reason m (Outcome.returned.inj h)
      simpa [State.settle, outcome_returned hres] using heq
  | drop i =>
    obtain ⟨k, x, hk, hx, rfl⟩ := next_drop h
    have heq := hi.ends none (st.rotation.forget i) (o := .dropped) hk hx rfl
      (by simp) (by simpa [Outcome.Allows] using flushed_le x) (by simp)
    simpa using heq
  | peerConnected p s | peerDisconnected p | channel e =>
    rw [State.next] at h
    obtain ⟨rotation, hr, h⟩ := Option.bind_eq_some_iff.mp h
    cases h
    cases hr
    exact hi.elsewhere rfl

theorem Reachable.inv {fairQueueInner : Option (QueueInner S PeerIdentity W)}
    (h : (system fairQueueInner).Reachable st) : Inv st := by
  refine h.invariant (inv_init fairQueueInner) ?_
  exact fun _ _ _ hi hn => inv_next hi hn

theorem lane_next (hi : Inv st) {a : Rotation.Action S} (h : st.next a = some st') (c : Sender) :
    ∃ put took, Fifo.Step (lane st.rotation.backend.channels c) put took
        (lane st'.rotation.backend.channels c) ∧
      st'.entered c = st.entered c ++ put ∧ st'.taken c = st.taken c ++ took := by
  cases a with
  | sendRoundRobin full m =>
    obtain ⟨rotation, hr, rfl⟩ := next_sendRoundRobin h
    obtain ⟨put, hstep, hput⟩ := lane_puts (k := st.calls.length) hi _
      (keeps_append st.calls [⟨m, outcome st.rotation rotation⟩])
      (by rw [List.getElem?_concat_length]; rfl) (fun m' h => (Option.some.inj h).symm)
      (started hr).2 c
    exact ⟨put, [], hstep, hput, (List.append_nil _).symm⟩
  | resume i full =>
    obtain ⟨k, x, hk, hx, rfl⟩ := next_resume h
    obtain ⟨⟨m, hcall, hown⟩, -⟩ := hi.pending i k x hk hx
    obtain ⟨put, hstep, hput⟩ := lane_puts (k := k) hi _ (keeps_modify st.calls k _)
      (by rw [List.getElem?_modify_eq, hcall]; rfl) hown (resumed full hx).2 c
    exact ⟨put, [], hstep, hput, (List.append_nil _).symm⟩
  | drop i =>
    obtain ⟨k, x, hk, hx, rfl⟩ := next_drop h
    obtain ⟨⟨m, hcall, hown⟩, -⟩ := hi.pending i k x hk hx
    obtain ⟨put, hstep, hput⟩ := lane_puts (k := k) hi none
      (keeps_modify st.calls k .dropped) (by rw [List.getElem?_modify_eq, hcall]; rfl) hown .none c
    refine ⟨put, [], hstep, ?_, (List.append_nil _).symm⟩
    simpa [State.entered] using hput
  | peerConnected p s =>
    rw [State.next] at h
    obtain ⟨rotation, hr, h⟩ := Option.bind_eq_some_iff.mp h
    cases h
    cases hr
    exact ⟨[], [], lane_opened _ c, (List.append_nil _).symm, rfl⟩
  | peerDisconnected p =>
    rw [State.next] at h
    obtain ⟨rotation, hr, h⟩ := Option.bind_eq_some_iff.mp h
    cases h
    cases hr
    exact ⟨[], [], .same _, (List.append_nil _).symm, rfl⟩
  | channel e =>
    rw [State.next] at h
    obtain ⟨rotation, hr, h⟩ := Option.bind_eq_some_iff.mp h
    cases h
    cases hr
    cases e with
    | received c' =>
      exact ⟨[], _, lane_received st.rotation.backend c' c, (List.append_nil _).symm, rfl⟩
    | closed c' => exact ⟨[], [], lane_closed _ c' c, (List.append_nil _).symm, rfl⟩

theorem Reachable.line {fairQueueInner : Option (QueueInner S PeerIdentity W)}
    (h : (system fairQueueInner).Reachable st) (c : Sender) :
    Line (st.entered c) (st.taken c) (lane st.rotation.backend.channels c) := by
  have hinv : Inv st ∧ Line (st.entered c) (st.taken c) (lane st.rotation.backend.channels c) := by
    refine h.invariant (P := fun st =>
      Inv st ∧ Line (st.entered c) (st.taken c) (lane st.rotation.backend.channels c)) ?_ ?_
    · exact ⟨inv_init fairQueueInner, rfl, rfl⟩
    · intro st a st' ⟨hi, hl⟩ hn
      obtain ⟨put, took, hstep, he, ht⟩ := lane_next hi hn c
      exact ⟨inv_next hi hn, he ▸ ht ▸ hl.step hstep⟩
  exact hinv.2

omit [Target] in
theorem Inv.allows (hi : Inv st) {k : Nat} {call : Call} (hcall : st.calls[k]? = some call) :
    call.outcome.Allows (st.times k) := by
  by_cases hk : k ∈ st.tickets
  · obtain ⟨i, hk⟩ := List.mem_iff_getElem?.mp hk
    have hlt := hi.length ▸ (List.getElem?_eq_some_iff.mp hk).1
    obtain ⟨⟨m, hpend, -⟩, htimes⟩ := hi.pending i k _ hk (List.getElem?_eq_getElem hlt)
    obtain rfl := Option.some.inj (hpend.symm.trans hcall)
    exact htimes ▸ flushed_le _
  · exact (hi.ended k call hcall hk).2

omit [Target] in
theorem Inv.nodup_puts (hi : Inv st) : (st.puts.map Prod.fst).Nodup := by
  rw [List.nodup_iff_count_le_one]
  intro k
  have heq : (st.puts.map Prod.fst).count k = st.times k := by
    rw [List.count, List.countP_map, State.times]
    rfl
  rw [heq]
  by_cases hk : k < st.calls.length
  · exact (hi.allows (List.getElem?_eq_getElem hk)).le_one
  · have hzero : st.times k = 0 := by
      rw [State.times, List.countP_eq_zero]
      intro put hput
      have hlt := hi.known put hput
      simp only [decide_eq_true_eq]
      omega
    exact hzero ▸ Nat.zero_le 1

omit [Target] in
theorem Inv.mem_puts_of_ok (hi : Inv st) {k : Nat} {call : Call} (hcall : st.calls[k]? = some call)
    (ho : call.outcome = .returned (.ok ())) : ∃ c, (k, c) ∈ st.puts := by
  have htimes : st.times k = 1 := by
    have ha := hi.allows hcall
    rwa [ho] at ha
  have hpos : 0 < st.puts.countP (·.1 = k) := Nat.lt_of_lt_of_eq Nat.one_pos htimes.symm
  obtain ⟨put, hput, hk⟩ := List.countP_pos_iff.mp hpos
  exact ⟨put.2, of_decide_eq_true hk ▸ hput⟩

omit [Target] in
theorem Inv.not_mem_puts_of_error (hi : Inv st) {k : Nat} {call : Call}
    (hcall : st.calls[k]? = some call) {e : ZmqError} (ho : call.outcome = .returned (.error e))
    (c : Sender) : (k, c) ∉ st.puts := by
  have htimes : st.times k = 0 := by
    have ha := hi.allows hcall
    rwa [ho] at ha
  intro hput
  simpa using List.countP_eq_zero.mp htimes (k, c) hput

end Next

/-- Whatever the peers and the writers do and wherever sends are given up: the message of a call
that returned `Ok` was put into one channel and once, that of a call that returned an error into
none, and that of a call that was dropped into one at most; a call that gives a message back gives
back its own; and the writer of every channel takes what was put into it, in that order, and
misses nothing while the channel is open. -/
theorem sends_accounted [Target] {fairQueueInner : Option (QueueInner S PeerIdentity W)}
    {st : State S W} (h : (system fairQueueInner).Reachable st) :
    (∀ (k : Nat) (call : Call), st.calls[k]? = some call →
      call.outcome.Allows (st.times k) ∧ call.OwnMessage) ∧
    (∀ put ∈ st.puts, put.1 < st.calls.length) ∧
    ∀ c, Line (st.entered c) (st.taken c) (lane st.rotation.backend.channels c) := by
  have hi := Reachable.inv h
  refine ⟨fun k call hcall => ⟨hi.allows hcall, ?_⟩, hi.known, Reachable.line h⟩
  exact hi.own call (List.mem_of_getElem? hcall)

theorem sends_accounted_dropped :
    letI := Target.x64
    let p : PeerIdentity := .ofByte 1
    let sys := system (S := Unit) (W := Unit) none
    ∃ st, sys.run sys.init [.peerConnected p (), .sendRoundRobin false (.message ⟨[[7]]⟩),
        .channel (.received 0), .sendRoundRobin true (.message ⟨[[8]]⟩), .resume 0 true,
        .drop 0] = some st ∧
      (st.times 0, st.times 1, st.taken 0, st.entered 0) =
        (1, 1, [.message ⟨[[7]]⟩], [.message ⟨[[7]]⟩, .message ⟨[[8]]⟩]) ∧
      (∀ (k : Nat) (call : Call), st.calls[k]? = some call →
        call.outcome.Allows (st.times k) ∧ call.OwnMessage) ∧
      (∀ put ∈ st.puts, put.1 < st.calls.length) ∧
      ∀ c, Line (st.entered c) (st.taken c) (lane st.rotation.backend.channels c) := by
  let _ := Target.x64
  intro p sys
  have h : (sys.run sys.init [.peerConnected p (), .sendRoundRobin false (.message ⟨[[7]]⟩),
      .channel (.received 0), .sendRoundRobin true (.message ⟨[[8]]⟩), .resume 0 true,
      .drop 0]).any fun st => (st.times 0, st.times 1, st.taken 0, st.entered 0) =
        (1, 1, [.message ⟨[[7]]⟩], [.message ⟨[[7]]⟩, .message ⟨[[8]]⟩]) := by
    decide +kernel
  obtain ⟨st, hst, hq⟩ := (Option.any_eq_true _ _).mp h
  exact ⟨st, hst, of_decide_eq_true hq, sends_accounted ⟨_, hst⟩⟩

end ZmqRs.Accounts
