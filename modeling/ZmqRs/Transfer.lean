import ZmqRs.WriteQueue
import ZmqRs.Recv.Delivery
import ZmqRs.Handshake.Agreement

/-! From the queues of the peers to `recv`.  The writer task of each peer puts messages on a
wire, behind what its handshake wrote, and the transport gives the bytes of the wires to the
readers of one receiving socket. -/

namespace ZmqRs.Transfer

open Codec Codec.ZmqCodec
open Recv (Loop messages messagesFrom)
open Handshake.Agreement (Config)

variable [Target] {W : Type}

structure State (W : Type) where
  recv : Recv.State W
  peers : PeerIdentity → WriteQueue.State

inductive Action (W : Type)
  | peer (p : PeerIdentity) (a : WriteQueue.Action)
  | recv (a : Recv.Action W)

def wire (c : Config) (written : Bytes) : Bytes := c.bytes .greeting ++ (c.bytes .ready ++ written)

section Defs

variable (l : Loop) (options : SocketOptions) (cfg : PeerIdentity → Config)
  (highWaterMark : Nat) (order : Message → List (String × Bytes)) (capacity : Nat)

/-- No reader was given more than its peer wrote, or anything else. -/
def Carried (peers : PeerIdentity → WriteQueue.State) (recv : Recv.State W) : Prop :=
  ∀ p ∈ recv.core.connected, recv.core.delivered p <+: wire (cfg p) (peers p).sink.written

instance (peers : PeerIdentity → WriteQueue.State) (recv : Recv.State W) :
    Decidable (Carried cfg peers recv) :=
  inferInstanceAs (Decidable (∀ p ∈ recv.core.connected, _))

def next (st : State W) : Action W → Option (State W)
  | .peer p a =>
    (WriteQueue.next highWaterMark order (st.peers p) a).map fun task =>
      { st with peers := Function.update st.peers p task }
  | .recv a =>
    (Recv.next l options st.recv a).bind fun recv =>
      if Carried cfg st.peers recv then some { st with recv := recv } else none

def system : Lib.System (State W) (Action W) where
  init := ⟨(Recv.system l options).init, fun _ => .init capacity⟩
  next := next l options cfg highWaterMark order

end Defs

variable {l : Loop} {options : SocketOptions} {cfg : PeerIdentity → Config}
  {highWaterMark : Nat} {order : Message → List (String × Bytes)} {capacity : Nat} {st : State W}

def Action.recv? : Action W → Option (Recv.Action W)
  | .recv a => some a
  | .peer _ _ => none

def Action.peer? (p : PeerIdentity) : Action W → Option WriteQueue.Action
  | .peer q a => if q = p then some a else none
  | .recv _ => none

theorem recv_reachable (h : (system l options cfg highWaterMark order capacity).Reachable st) :
    (Recv.system l options).Reachable st.recv := by
  obtain ⟨as, h⟩ := h
  refine ⟨as.filterMap Action.recv?, ?_⟩
  apply Lib.System.run_project _ _ State.recv Action.recv? _ _ h
  · intro s a b s' ha hn
    cases a with
    | peer p a => cases ha
    | recv a =>
      cases ha
      obtain ⟨recv, hr, hn⟩ := Option.bind_eq_some_iff.mp hn
      split at hn
      · cases hn
        exact hr
      · cases hn
  · intro s a s' ha hn
    cases a with
    | peer p a =>
      obtain ⟨task, -, rfl⟩ := Option.map_eq_some_iff.mp hn
      rfl
    | recv a => cases ha

theorem peer_reachable (h : (system l options cfg highWaterMark order capacity).Reachable st)
    (p : PeerIdentity) :
    (WriteQueue.system highWaterMark order capacity).Reachable (st.peers p) := by
  obtain ⟨as, h⟩ := h
  refine ⟨as.filterMap (Action.peer? p), ?_⟩
  apply Lib.System.run_project _ _ (fun s => s.peers p) (Action.peer? p) _ _ h
  · intro s a b s' ha hn
    cases a with
    | peer q a =>
      simp only [Action.peer?] at ha
      split at ha
      · rename_i hq
        subst hq
        cases ha
        obtain ⟨task, ht, rfl⟩ := Option.map_eq_some_iff.mp hn
        exact ht.trans (by simp)
      · cases ha
    | recv a => cases ha
  · intro s a s' ha hn
    cases a with
    | peer q a =>
      simp only [Action.peer?] at ha
      split at ha
      · cases ha
      · rename_i hq
        obtain ⟨task, -, rfl⟩ := Option.map_eq_some_iff.mp hn
        exact Function.update_of_ne (Ne.symm hq) _ _
    | recv a =>
      obtain ⟨recv, -, hn⟩ := Option.bind_eq_some_iff.mp hn
      split at hn
      · cases hn
        rfl
      · cases hn

theorem wire_mono {c : Config} {written written' : Bytes} (h : written <+: written') :
    wire c written <+: wire c written' := by
  simpa only [wire, List.prefix_append_right_inj] using h

theorem carried (h : (system l options cfg highWaterMark order capacity).Reachable st) :
    Carried cfg st.peers st.recv := by
  refine h.invariant (P := fun st => Carried cfg st.peers st.recv) ?_ ?_
  · intro p hp
    cases hp
  · intro s a s' hc hn
    cases a with
    | peer q a =>
      obtain ⟨task, ht, rfl⟩ := Option.map_eq_some_iff.mp hn
      intro p hp
      by_cases hq : p = q
      · subst hq
        simpa using (hc p hp).trans (wire_mono (WriteQueue.written_next ht))
      · simpa [hq] using hc p hp
    | recv a =>
      obtain ⟨recv, -, hn⟩ := Option.bind_eq_some_iff.mp hn
      split at hn
      · rename_i hcarried
        cases hn
        exact hcarried
      · cases hn

theorem delivered_isPrefix
    (h : (system l options cfg highWaterMark order capacity).Reachable st) (p : PeerIdentity) :
    st.recv.core.delivered p <+: wire (cfg p) (st.peers p).sink.written := by
  by_cases hp : p ∈ st.recv.core.connected
  · exact carried h p hp
  · have hk := (Recv.link_ok (recv_reachable h) p).idle hp
    have hd : st.recv.core.delivered p = [] := congrArg Recv.Link.delivered hk
    rw [hd]
    exact List.nil_prefix

section Stream

variable {max : Nat}

theorem encode_of_sendable {m : Message} (h : Sendable max (order m, m)) :
    encode (order m) m = .ok (WriteQueue.bytes order m) := by
  cases m with
  | greeting g => exact h.elim
  | command c => rfl
  | message m =>
    apply WriteQueue.encode_of_nonEmpty
    simpa [WriteQueue.NonEmpty, ZmqMessage.len] using h.1

theorem encodeAll_eq {ms : List Message} (hs : ∀ m ∈ ms, Sendable max (order m, m)) :
    encodeAll (ms.map fun m => (order m, m)) = .ok (ms.flatMap (WriteQueue.bytes order)) := by
  induction ms with
  | nil => rfl
  | cons m ms ih =>
    have hm := encode_of_sendable (hs m (by simp))
    have hms := ih fun m hm => hs m (by simp [hm])
    rw [List.map_cons, encodeAll, hm, hms]
    rfl

theorem decodeAll_wire (c : Config) {ms : List Message}
    (hs : ∀ m ∈ ms, Sendable options.readBufferMaxSize (order m, m)) :
    (withOptions options).decodeAll (wire c (ms.flatMap (WriteQueue.bytes order))) =
      ⟨.greeting .default :: .command c.command :: ms, none, idle options.readBufferMaxSize,
        []⟩ := by
  obtain ⟨bytes, hb, hd⟩ := @decodeAll_encodeAll _ options.readBufferMaxSize
    (ms.map fun m => (order m, m)) (by simpa using hs)
  have hb' := encodeAll_eq hs
  rw [hb] at hb'
  obtain rfl := Except.ok.inj hb'
  rw [wire, decodeAll_item (c.decode_greeting options _), decodeAll_item (c.decode_ready options _),
    hd]
  simp [Lib.Incremental.Drained.prepend, Function.comp_def]

theorem decodeCalls_wire (c : Config) {ms : List Message}
    (hs : ∀ m ∈ ms, Sendable options.readBufferMaxSize (order m, m)) (n : Nat) :
    (withOptions options).decodeCalls n (wire c (ms.flatMap (WriteQueue.bytes order))) =
      ((.greeting .default :: .command c.command :: ms).take n).map .ok := by
  have hall := decodeAll_wire c hs
  have hcalls := machine.calls_of_drain n
    (congrArg Lib.Incremental.Drained.error hall : (machine.drain _ _).error = none)
  change _ = (((withOptions options).decodeAll _).items.take n).map Except.ok at hcalls
  rw [hall] at hcalls
  exact hcalls

end Stream

theorem decoded_eq (h : (system l options cfg highWaterMark order capacity).Reachable st)
    {p : PeerIdentity}
    (hs : ∀ m ∈ (st.peers p).sent, Sendable options.readBufferMaxSize (order m, m)) :
    st.recv.core.decoded p =
      ((.greeting .default :: .command (cfg p).command :: (st.peers p).sent).take
        (st.recv.core.decoded p).length).map .ok := by
  have hinv := WriteQueue.reachable_inv (peer_reachable h p)
  have hstream : st.recv.core.delivered p <+:
      wire (cfg p) ((st.peers p).sent.flatMap (WriteQueue.bytes order)) :=
    (delivered_isPrefix h p).trans (wire_mono hinv.written_isPrefix)
  obtain ⟨more, hmore⟩ := hstream
  obtain ⟨r, ht, -⟩ := (Recv.link_ok (recv_reachable h) p).traces
  have hcalls := ht.calls 0 more
  change (withOptions options).decodeCalls (st.recv.core.decoded p).length
    (st.recv.core.delivered p ++ more) = st.recv.core.decoded p ++ [] at hcalls
  rw [hmore, List.append_nil, decodeCalls_wire (cfg p) hs] at hcalls
  exact hcalls.symm

theorem returned_isPrefix (kind : Recv.Receiver)
    (h : (system kind.recv options cfg highWaterMark order capacity).Reachable st)
    {p : PeerIdentity}
    (hs : ∀ m ∈ (st.peers p).sent, Sendable options.readBufferMaxSize (order m, m)) :
    messagesFrom p st.recv.core.returned <+: (messages ((st.peers p).sent.map .ok)).map
      (fun m => if kind = .router then m.pushFront p.bytes else m) := by
  have hk := Recv.link_ok (recv_reachable h) p
  rw [← kind.recv_deliver p]
  refine hk.returned_prefix.trans (List.IsPrefix.map _ ?_)
  change messages (st.recv.core.decoded p) <+: _
  rw [decoded_eq h hs]
  have ht := List.take_prefix (st.recv.core.decoded p).length
    (.greeting .default :: .command (cfg p).command :: (st.peers p).sent)
  exact (ht.map (Except.ok : Message → Recv.Item)).filterMap _

/-- All has arrived: the writer waits at an empty queue, its bytes have arrived and the reader of
the peer waits for more. -/
structure Settled (cfg : PeerIdentity → Config) (st : State W) (p : PeerIdentity) : Prop where
  waiting : ∃ held, st.recv.core.queue.inner.streams.lookup p = some held ∧
    held.pendingWaker ≠ none
  parked : st.recv.core.pc = .parked
  idle : (st.peers p).writer = .next ∧ (st.peers p).chan.queue = []
  arrived : st.recv.core.delivered p = wire (cfg p) (st.peers p).sink.flushed

theorem settled_iff {p : PeerIdentity} : Settled cfg st p ↔
    (st.recv.core.queue.inner.streams.lookup p).any (fun held => held.pendingWaker.isSome) ∧
      st.recv.core.pc = .parked ∧ ((st.peers p).writer = .next ∧ (st.peers p).chan.queue = []) ∧
      st.recv.core.delivered p = wire (cfg p) (st.peers p).sink.flushed := by
  have hwaiting : (st.recv.core.queue.inner.streams.lookup p).any
      (fun held => held.pendingWaker.isSome) = true ↔
      ∃ held, st.recv.core.queue.inner.streams.lookup p = some held ∧ held.pendingWaker ≠ none := by
    simp [Option.any_eq_true, Option.isSome_iff_ne_none]
  rw [hwaiting]
  exact ⟨fun h => ⟨h.waiting, h.parked, h.idle, h.arrived⟩,
    fun ⟨hw, hp, hi, ha⟩ => ⟨hw, hp, hi, ha⟩⟩

instance [DecidableEq W] (p : PeerIdentity) : Decidable (Settled cfg st p) :=
  decidable_of_iff _ settled_iff.symm

theorem returned_of_settled (kind : Recv.Receiver)
    (h : (system kind.recv options cfg highWaterMark order capacity).Reachable st)
    {p : PeerIdentity}
    (hs : ∀ m ∈ (st.peers p).sent, Sendable options.readBufferMaxSize (order m, m))
    (hsettled : Settled cfg st p) :
    messagesFrom p st.recv.core.returned = (messages ((st.peers p).sent.map .ok)).map
      (fun m => if kind = .router then m.pushFront p.bytes else m) := by
  obtain ⟨⟨held, hl, hw⟩, hpc, ⟨hnext, hq⟩, hall⟩ := hsettled
  have hk := Recv.link_ok (recv_reachable h) p
  have hinv := WriteQueue.reachable_inv (peer_reachable h p)
  rw [hinv.written_of_idle hnext hq] at hall
  have hret := hk.returned_all hl hw (by simp [Recv.Core.link, hpc, Recv.unhandledOf])
    ((st.peers p).sent.length + 2)
  change (messages ((withOptions options).decodeCalls _ (st.recv.core.delivered p))).map _ =
    messagesFrom p st.recv.core.returned at hret
  rw [hall, decodeCalls_wire (cfg p) hs, List.take_of_length_le (by simp)] at hret
  rw [← kind.recv_deliver p]
  exact hret.symm

/-- Every message is received once and in the order of the sends, however the writer batches
them, the transport cuts the bytes, the peers take turns and futures of `recv` are dropped; no
decoding fails; and all of the messages are received once all has arrived. -/
theorem received_in_order (kind : Recv.Receiver)
    (h : (system kind.recv options cfg highWaterMark order capacity).Reachable st)
    (p : PeerIdentity)
    (hs : ∀ m ∈ (st.peers p).sent, Sendable options.readBufferMaxSize (order m, m)) :
    (∀ e, .error e ∉ st.recv.core.decoded p) ∧
      messagesFrom p st.recv.core.returned <+: (messages ((st.peers p).sent.map .ok)).map
        (fun m => if kind = .router then m.pushFront p.bytes else m) ∧
      (Settled cfg st p →
        messagesFrom p st.recv.core.returned = (messages ((st.peers p).sent.map .ok)).map
          (fun m => if kind = .router then m.pushFront p.bytes else m)) := by
  refine ⟨?_, returned_isPrefix kind h hs, returned_of_settled kind h hs⟩
  intro e he
  rw [decoded_eq h hs, List.mem_map] at he
  obtain ⟨m, -, hm⟩ := he
  cases hm

def twoPieces (c : Config) (p : PeerIdentity) : List (Action Nat) :=
  [.peer p (.trySend 0 (.message ⟨[[97], []]⟩)), .peer p .next, .peer p .startSend,
    .peer p .tryRecv, .peer p (.write 2),
    .recv (.core (.connect p 2 [Recv.ready (wire c [1, 1])])),
    .recv .recv, .recv (.core (.poll 0)), .recv (.core (.queue (.pop ⟨0, p⟩))),
    .recv (.core (.queue (.polled []))), .recv (.core (.queue .exit)),
    .recv (.core (.queue .finish)), .recv (.core .handle), .recv .drop,
    .peer p (.write 3), .peer p .flushed, .recv (.core (.queue (.wake 0))),
    .recv .recv, .recv (.core (.poll 1)), .recv (.core (.queue (.pop ⟨1, p⟩))),
    .recv (.core (.queue (.polled [Recv.ready [97, 0, 0]]))), .recv (.core .handle),
    .recv (.core .return),
    .recv .recv, .recv (.core (.poll 2)), .recv (.core (.queue (.pop ⟨2, p⟩))),
    .recv (.core (.queue (.polled []))), .recv (.core (.queue .exit)),
    .recv (.core (.queue .finish)), .recv (.core .handle)]

omit [Target] in
theorem received_in_order_router :
    letI := Target.x64
    let push : Config := ⟨.push, .default, .ofByte 7, [("Socket-Type", SocketType.push.asBytes)],
      rfl, rfl⟩
    let p : PeerIdentity := .ofByte 9
    let sys := system Recv.RouterSocket.recv .default (fun _ => push) 8 (fun _ => []) 1
    ∃ st, sys.run sys.init (twoPieces push p) = some st ∧
      (st.peers p).sent = [.message ⟨[[97], []]⟩] ∧ Settled (fun _ => push) st p ∧
      messagesFrom p st.recv.core.returned =
        (messages ((st.peers p).sent.map .ok)).map (·.pushFront [9]) := by
  let _ := Target.x64
  intro push p sys
  have hrun : (sys.run sys.init (twoPieces push p)).any fun st =>
      (st.peers p).sent = [.message ⟨[[97], []]⟩] ∧ Settled (fun _ => push) st p := by
    decide +kernel
  obtain ⟨st, hst, hall⟩ := (Option.any_eq_true _ _).mp hrun
  obtain ⟨hsent, hsettled⟩ := of_decide_eq_true hall
  have hs : ∀ m ∈ (st.peers p).sent,
      Sendable SocketOptions.default.readBufferMaxSize ((fun _ => []) m, m) := by
    intro m hm
    rw [hsent] at hm
    obtain rfl := List.mem_singleton.mp hm
    exact ⟨by decide, by decide⟩
  have hret := (received_in_order .router ⟨twoPieces push p, hst⟩ p hs).2.2 hsettled
  exact ⟨st, hst, hsent, hsettled, hret⟩

end ZmqRs.Transfer
