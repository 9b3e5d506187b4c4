import ZmqRs.Backend.Accounts
import ZmqRs.Carry

/-! From `send` on a PUSH or DEALER socket to `recv` on the sockets that it is connected to. -/

namespace ZmqRs.PushPull

open Codec (Message)
open Carry (Receiver)
open Recv (messagesFrom)

variable [Target] {S W W' : Type}

def feeder (fairQueueInner : Option (QueueInner S PeerIdentity W)) :
    Lib.Feeder (Accounts.State S W) (Rotation.Action S) Message where
  toSystem := Accounts.system fairQueueInner
  lane st c := Accounts.lane st.rotation.backend.channels c
  entered st c := st.entered c
  lane_init _ := ⟨rfl, rfl⟩
  lane_next h hn c := by
    obtain ⟨put, took, hstep, he, -⟩ := Accounts.lane_next (Accounts.Reachable.inv h) hn c
    exact ⟨put, took, hstep, he⟩

variable {fairQueueInner : Option (QueueInner S PeerIdentity W)} {receivers : Nat → Receiver}
  {st : Carry.State (Accounts.State S W) W'}

/-- The message of a call that returned `Ok` went to one connection, that of a call that failed to
none, and none went twice.  On every connection `recv` returns the first of the messages that went
to it, in their order, and all of them once all has arrived. -/
theorem delivered_once (h : (Carry.system (feeder fairQueueInner) receivers).Reachable st) :
    (st.sender.puts.map Prod.fst).Nodup ∧
    (∀ (k : Nat) (call : Accounts.Call), st.sender.calls[k]? = some call →
      (call.outcome = .returned (.ok ()) → ∃ c, (k, c) ∈ st.sender.puts) ∧
      ∀ e, call.outcome = .returned (.error e) → ∀ c, (k, c) ∉ st.sender.puts) ∧
    ∀ (c r : Nat) (p : PeerIdentity), st.conns[c]? = some (r, p) →
      (∀ m ∈ st.sender.entered c, Codec.ZmqCodec.Sendable (receivers r).options.readBufferMaxSize
        ((receivers r).order m, m)) →
      messagesFrom p (st.receivers r).recv.core.returned <+:
          (receivers r).made p (st.sender.entered c) ∧
        (Transfer.Settled (receivers r).cfg (st.receivers r) p →
          messagesFrom p (st.receivers r).recv.core.returned =
            (receivers r).made p (st.sender.entered c)) := by
  have hi : Accounts.Inv st.sender := Accounts.Reachable.inv (Carry.Reachable.inv h).sender
  refine ⟨hi.nodup_puts, fun k call hcall => ⟨?_, fun e ho c => ?_⟩, fun c r p hc hs => ?_⟩
  · exact hi.mem_puts_of_ok hcall
  · exact hi.not_mem_puts_of_error hcall ho c
  · exact Carry.carried h hc hs

def once (c : Handshake.Agreement.Config) (p : PeerIdentity) :
    List (Carry.Action (Rotation.Action Unit) Nat) :=
  [.connect (.peerConnected (.ofByte 3) ()) 0 p,
    .both (.sendRoundRobin false (.message ⟨[[97], []]⟩)) 0 p (.trySend 0 (.message ⟨[[97], []]⟩)),
    .both (.channel (.received 0)) 0 p .next] ++
  ((Transfer.twoPieces c p).drop 2).map (.receiver 0)

omit [Target] in
theorem delivered_once_pull :
    letI := Target.x64
    let push : Handshake.Agreement.Config :=
      ⟨.push, .default, .ofByte 7, [("Socket-Type", SocketType.push.asBytes)], rfl, rfl⟩
    let p : PeerIdentity := .ofByte 9
    let pull : Receiver := ⟨.pull, .default, fun _ => push, 8, fun _ => [], 1⟩
    let sys := Carry.system (feeder (S := Unit) (W := Unit) none) fun _ => pull
    ∃ st : Carry.State (Accounts.State Unit Unit) Nat,
      sys.run sys.init (once push p) = some st ∧ st.sender.puts = [(0, 0)] ∧
      Transfer.Settled pull.cfg (st.receivers 0) p ∧
      messagesFrom p (st.receivers 0).recv.core.returned = [⟨[[97], []]⟩] ∧
      messagesFrom p (st.receivers 0).recv.core.returned = pull.made p (st.sender.entered 0) := by
  let _ := Target.x64
  intro push p pull sys
  have hrun : (sys.run sys.init (once push p)).any fun (st : Carry.State _ Nat) =>
      st.sender.puts = [(0, 0)] ∧ st.conns = [(0, p)] ∧
        st.sender.entered 0 = [.message ⟨[[97], []]⟩] ∧
        Transfer.Settled pull.cfg (st.receivers 0) p ∧
        messagesFrom p (st.receivers 0).recv.core.returned = [⟨[[97], []]⟩] := by
    decide +kernel
  obtain ⟨st, hst, hall⟩ := (Option.any_eq_true _ _).mp hrun
  obtain ⟨hputs, hconns, hentered, hsettled, hret⟩ := of_decide_eq_true hall
  have hs : ∀ m ∈ st.sender.entered 0,
      Codec.ZmqCodec.Sendable pull.options.readBufferMaxSize (pull.order m, m) := by
    intro m hm
    rw [hentered] at hm
    obtain rfl := List.mem_singleton.mp hm
    exact ⟨by decide, by decide⟩
  have hconn : st.conns[0]? = some (0, p) := by rw [hconns]; rfl
  have hmade := ((delivered_once ⟨once push p, hst⟩).2.2 0 0 p hconn hs).2 hsettled
  exact ⟨st, hst, hputs, hsettled, hret, hmade⟩

end ZmqRs.PushPull
