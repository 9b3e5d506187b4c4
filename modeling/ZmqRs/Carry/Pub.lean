import ZmqRs.Carry
import ZmqRs.PubBackend.Pipeline

/-! From `send` on a PUB socket to `recv` on its subscribers. -/

namespace ZmqRs.PubSub

open Codec (Message)
open Carry (Receiver)
open PubPipeline (Wanted copies)
open Recv (messages messagesFrom)

variable [Target] {W : Type}

omit [Target] in
def feeder (visits capacity : Nat) : Lib.Feeder PubPipeline.State PubPipeline.Action Message where
  toSystem := PubPipeline.system visits capacity
  lane st q := PubPipeline.lane st.fanout q
  entered st q := st.entered q
  lane_init _ := ⟨rfl, rfl⟩
  lane_next _ hn q := by
    obtain ⟨put, took, hstep, he, -⟩ := PubPipeline.lane_step hn q
    exact ⟨put, took, hstep, he⟩

variable {visits capacity : Nat} {receivers : Nat → Receiver}
  {st : Carry.State PubPipeline.State W}

omit [Target] in
theorem messages_map_ok (ms : List ZmqMessage) :
    messages ((ms.map Message.message).map .ok) = ms := by
  induction ms with
  | nil => rfl
  | cons m ms ih => exact congrArg (m :: ·) ih

omit [Target] in
theorem messages_sublist {items items' : List Recv.Item} (h : items.Sublist items') :
    (messages items).Sublist (messages items') :=
  h.filterMap _

omit [Target] in
theorem copies_eq (ms : List ZmqMessage) :
    copies visits ms = (ms.flatMap (List.replicate visits)).map .message := by
  simp [copies, List.map_flatMap]

theorem made_of_ne_router {r : Receiver} (hk : r.kind ≠ .router) (p : PeerIdentity)
    (ms : List Message) : r.made p ms = messages (ms.map .ok) := by
  simp [Receiver.made, hk]

omit [Target] in
theorem mem_messages_map_ok {ms : List Message} {m : ZmqMessage} (h : m ∈ messages (ms.map .ok)) :
    .message m ∈ ms := by
  obtain ⟨item, hi, hm⟩ := List.mem_filterMap.mp h
  obtain ⟨m', hm', rfl⟩ := List.mem_map.mp hi
  cases m' with
  | message m'' =>
    obtain rfl := Option.some.inj hm
    exact hm'
  | greeting g => cases hm
  | command c => cases hm

/-- What `recv` returns on a subscriber from the connection to a publisher is a selection of what
was published, in the order of the publishing and nothing more often than the iterator may come to
the entry, and it is for a subscription that was pushed to the entry of this connection; and it is
all that the publisher put into the channel once all has arrived. -/
theorem subscribed_in_order (h : (Carry.system (feeder visits capacity) receivers).Reachable st)
    {c r : Nat} {p : PeerIdentity} (hc : st.conns[c]? = some (r, p))
    (hk : (receivers r).kind ≠ .router)
    (hs : ∀ m ∈ st.sender.entered c, Codec.ZmqCodec.Sendable
      (receivers r).options.readBufferMaxSize ((receivers r).order m, m)) :
    (messagesFrom p (st.receivers r).recv.core.returned).Sublist
        (st.sender.queue.pushed.flatMap (List.replicate visits)) ∧
      (∀ m ∈ messagesFrom p (st.receivers r).recv.core.returned,
        Wanted (st.sender.asked c) (.message m)) ∧
      (Transfer.Settled (receivers r).cfg (st.receivers r) p →
        (messagesFrom p (st.receivers r).recv.core.returned).map .message =
          st.sender.entered c) := by
  have hi : PubPipeline.Inv visits capacity st.sender :=
    PubPipeline.Reachable.inv (Carry.Reachable.inv h).sender
  obtain ⟨hpre, hall⟩ := Carry.carried h hc hs
  rw [made_of_ne_router hk] at hpre hall
  obtain ⟨horder, hwanted⟩ := hi.selected c
  have hentered : (messages ((st.sender.entered c).map .ok)).map Message.message =
      st.sender.entered c := by
    obtain ⟨ms, -, hms⟩ := List.sublist_map_iff.mp (copies_eq st.sender.queue.handed ▸ horder)
    rw [hms, messages_map_ok]
  refine ⟨?_, fun m hm => ?_, fun hsettled => ?_⟩
  · refine hpre.sublist.trans ?_
    have hsub := messages_sublist (horder.map .ok)
    rw [copies_eq, messages_map_ok] at hsub
    refine hsub.trans ?_
    rw [hi.queue.fifo, List.flatMap_append]
    exact List.sublist_append_left _ _
  · exact hwanted _ (mem_messages_map_ok (hpre.subset hm))
  · exact (congrArg _ (hall hsettled)).trans hentered

def filtered (c : Handshake.Agreement.Config) (p : PeerIdentity) :
    List (Carry.Action PubPipeline.Action Nat) :=
  let q : PeerIdentity := .ofByte 3
  [.connect (.fanout (.peerConnected q)) 0 p] ++
  [.fanout (.messageReceived q (.message ⟨[[1, 97]]⟩)), .send 1 ⟨[[98]]⟩, .send 1 ⟨[[97], []]⟩,
    .queue (.call 0), .queue (.call 1), .queue (.call 0), .queue (.call 0), .queue (.call 0),
    .queue .work, .queue .work, .fanout (.visit 0 q), .fanout (.finish 0), .queue .work,
    .queue .work, .fanout (.visit 0 q)].map .sender ++
  [.both (.fanout (.trySend 0)) 0 p (.trySend 0 (.message ⟨[[97], []]⟩)),
    .both (.fanout (.drain 0)) 0 p .next] ++
  ((Transfer.twoPieces c p).drop 2).map (.receiver 0)

omit [Target] in
theorem subscribed_in_order_filtered :
    letI := Target.x64
    let pub : Handshake.Agreement.Config :=
      ⟨.pub, .default, .ofByte 7, [("Socket-Type", SocketType.pub.asBytes)], rfl, rfl⟩
    let p : PeerIdentity := .ofByte 9
    let sub : Receiver := ⟨.sub, .default, fun _ => pub, 8, fun _ => [], 1⟩
    let sys := Carry.system (feeder 1 4) fun _ => sub
    ∃ st : Carry.State PubPipeline.State Nat,
      sys.run sys.init (filtered pub p) = some st ∧
      st.sender.queue.pushed = [⟨[[98]]⟩, ⟨[[97], []]⟩] ∧
      Transfer.Settled sub.cfg (st.receivers 0) p ∧
      messagesFrom p (st.receivers 0).recv.core.returned = [⟨[[97], []]⟩] ∧
      (∀ m ∈ messagesFrom p (st.receivers 0).recv.core.returned,
        Wanted (st.sender.asked 0) (.message m)) ∧
      (messagesFrom p (st.receivers 0).recv.core.returned).map .message = st.sender.entered 0 := by
  let _ := Target.x64
  intro pub p sub sys
  have hrun : (sys.run sys.init (filtered pub p)).any fun (st : Carry.State _ Nat) =>
      st.sender.queue.pushed = [⟨[[98]]⟩, ⟨[[97], []]⟩] ∧ st.conns = [(0, p)] ∧
        st.sender.entered 0 = [.message ⟨[[97], []]⟩] ∧
        Transfer.Settled sub.cfg (st.receivers 0) p ∧
        messagesFrom p (st.receivers 0).recv.core.returned = [⟨[[97], []]⟩] := by
    decide +kernel
  obtain ⟨st, hst, hall⟩ := (Option.any_eq_true _ _).mp hrun
  obtain ⟨hpushed, hconns, hentered, hsettled, hret⟩ := of_decide_eq_true hall
  have hs : ∀ m ∈ st.sender.entered 0,
      Codec.ZmqCodec.Sendable sub.options.readBufferMaxSize (sub.order m, m) := by
    intro m hm
    rw [hentered] at hm
    obtain rfl := List.mem_singleton.mp hm
    exact ⟨by decide, by decide⟩
  have hc : st.conns[0]? = some (0, p) := by rw [hconns]; rfl
  have hsub := subscribed_in_order ⟨filtered pub p, hst⟩ hc (by decide) hs
  exact ⟨st, hst, hpushed, hsettled, hret, hsub.2.1, hsub.2.2 hsettled⟩

end ZmqRs.PubSub
