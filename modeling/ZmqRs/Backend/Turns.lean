import ZmqRs.Lib.Transition
import ZmqRs.Backend.Ring

/-! Whose turn it is.  A peer that is in the rotation once is picked once in as many sends as
there are peers; `peer_connected` pushes an id without asking whether it is there already. -/

namespace ZmqRs

open Codec (Message)

namespace GenericSocketBackend

variable {S W : Type} {used : List PeerIdentity} {b b' : GenericSocketBackend S W}
  {r : RingBackend}

def nextPeer (b : GenericSocketBackend S W) : Option PeerIdentity :=
  match if b.peerCount = 1 then b.singlePeer else none with
  | some singlePeer => some singlePeer.peerId
  | none => b.roundRobin.find? (· ∈ b.peers)

def turns (b : GenericSocketBackend S W) :
    List (List ChannelEvent × Room × ZmqMessage) → Option (List PeerIdentity)
  | [] => some []
  | (events, room, m) :: sends => do
    let b := { b with channels := events.foldl Channels.apply b.channels }
    let p ← b.nextPeer
    match b.sendRoundRobin room (.message m) with
    | (.ok (), b) => return p :: (← b.turns sends)
    | (.error _, _) => none

theorem Refines.nextPeer (hr : Refines used b r) : b.nextPeer = r.ring.head?.map Prod.fst := by
  cases ho : onlyPeer b.peers with
  | some single =>
    obtain ⟨p, c⟩ := single
    obtain ⟨hring, hn, hs⟩ := hr.ring_of_onlyPeer ho
    rw [GenericSocketBackend.nextPeer, if_pos hn, hs, hring]
    rfl
  | none =>
    have hs : (if b.peerCount = 1 then b.singlePeer else none) = none := by
      rw [hr.single, ho, ite_self]
    rw [GenericSocketBackend.nextPeer, hs, ← List.head?_map, ← hr.ring, List.head?_filter]

/-- The channels after a successful send to `c`.  With one peer it goes through the cache, and
then the message comes before what the send waits for. -/
def sentTo (b : GenericSocketBackend S W) (room : Room) (c : Sender) (m : Message) : Channels :=
  if b.peerCount = 1 then room.events.foldl Channels.apply (b.channels.push c m)
  else (RingBackend.settle b.channels c room).push c m

theorem Refines.put_ok (hr : Refines used b r) {room : Room} {c : Sender} {m : Message}
    {channels : Channels} (h : r.put c room m = (.ok (), channels)) :
    channels = b.sentTo room c m := by
  have hn : b.peerCount = r.ring.length := by
    rw [hr.count, hr.length_ring, AList.keys, List.keys, List.length_map]
  rw [RingBackend.put] at h
  rw [sentTo, hn]
  split at h
  · rename_i hlen
    rw [if_pos hlen, hr.channels]
    rw [sendToCached_eq] at h
    split at h
    · cases h
    · exact (Prod.mk.inj h).2.symm
  · rename_i hlen
    rw [if_neg hlen, hr.channels]
    rw [sendToPeerQueue_eq] at h
    split at h
    · cases h
    · exact (Prod.mk.inj h).2.symm

theorem Refines.sendRoundRobin_ok (hr : Refines used b r) {room : Room} {m : ZmqMessage}
    (h : b.sendRoundRobin room (.message m) = (.ok (), b')) :
    ∃ p c rest, r.ring = (p, c) :: rest ∧ b'.channels = b.sentTo room c (.message m) ∧
      ∃ r', Refines used b' r' ∧ r'.ring = rest ++ [(p, c)] := by
  obtain ⟨hres, hr'⟩ := hr.putRoundRobin room m
  rw [h] at hres hr'
  rw [RingBackend.putRoundRobin] at hres hr'
  cases hring : r.ring with
  | nil =>
    rw [hring] at hres
    cases hres
  | cons head rest =>
    obtain ⟨p, c⟩ := head
    rw [hring] at hres hr'
    dsimp only at hres hr'
    rcases hput : r.put c room (.message m) with ⟨result, channels⟩
    rw [hput] at hres hr'
    cases result with
    | error e => cases hres
    | ok u =>
      refine ⟨p, c, rest, rfl, ?_, _, hr', rfl⟩
      rw [← hr.put_ok hput]
      exact hr'.channels

theorem turns_cons {events : List ChannelEvent} {room : Room} {m : ZmqMessage}
    {sends : List (List ChannelEvent × Room × ZmqMessage)} {ps : List PeerIdentity}
    (h : b.turns ((events, room, m) :: sends) = some ps) :
    ∃ p ps' b', ps = p :: ps' ∧ b.nextPeer = some p ∧
      ({ b with channels := events.foldl Channels.apply b.channels } :
        GenericSocketBackend S W).sendRoundRobin room (.message m) = (.ok (), b') ∧
      b'.turns sends = some ps' := by
  simp only [turns, bind, Option.bind_eq_some_iff] at h
  obtain ⟨p, hp, h⟩ := h
  split at h
  · rename_i b' hs
    obtain ⟨ps', hps, h⟩ := Option.bind_eq_some_iff.mp h
    cases h
    exact ⟨p, ps', b', rfl, hp, hs, hps⟩
  · cases h

theorem Refines.turns {sends : List (List ChannelEvent × Room × ZmqMessage)}
    {ps : List PeerIdentity} (hr : Refines used b r) (h : b.turns sends = some ps)
    (hl : sends.length ≤ r.ring.length) :
    ps.length = sends.length ∧ ps <+: r.ring.map Prod.fst := by
  induction sends generalizing b r ps with
  | nil =>
    cases h
    exact ⟨rfl, List.nil_prefix⟩
  | cons send sends ih =>
    obtain ⟨events, room, m⟩ := send
    obtain ⟨p, ps', b', rfl, hp, hs, hps⟩ := turns_cons h
    obtain ⟨q, c, rest, hring, -, r', hr', hring'⟩ := (hr.setChannels _).sendRoundRobin_ok hs
    change r.ring = _ at hring
    rw [hr.nextPeer, hring] at hp
    cases hp
    rw [hring] at hl ⊢
    have hlen : sends.length ≤ rest.length := by simpa using hl
    obtain ⟨hlen', hps'⟩ := ih hr' hps (by rw [hring', List.length_append]; omega)
    rw [hring', List.map_append] at hps'
    -- the peer that was just picked stands behind all the others
    have hrest : ps' <+: rest.map Prod.fst := by
      apply List.prefix_of_prefix_length_le hps' (List.prefix_append _ _)
      rw [List.length_map]
      omega
    exact ⟨congrArg Nat.succ hlen', List.cons_prefix_cons.mpr ⟨rfl, hrest⟩⟩

theorem Refines.used_roundRobin (hr : Refines used b r) : Refines b.roundRobin b r where
  channels := hr.channels
  ring := hr.ring
  lookup := hr.lookup
  nodup := hr.nodup
  used := by
    intro p hp
    cases hp with
    | inl hp => exact hp
    | inr hp =>
      have hmem := hr.perm_keys.mem_iff.mpr hp
      rw [← hr.ring] at hmem
      exact List.mem_of_mem_filter hmem
  count := hr.count
  single := hr.single

variable [Target]

def callSystem (fairQueueInner : Option (QueueInner S PeerIdentity W)) :
    Lib.System (GenericSocketBackend S W) (Call S) where
  init := withOptions fairQueueInner
  next b c := some (b.call c).2

def entersOnce (b : GenericSocketBackend S W) (c : Call S) : Bool :=
  c.connects.all fun p => decide (p ∉ b.roundRobin)

theorem refines_call {c : Call S} (hc : entersOnce b c = true)
    (h : ∃ r, Refines b.roundRobin b r) :
    ∃ r, Refines (b.call c).2.roundRobin (b.call c).2 r := by
  obtain ⟨r, hr⟩ := h
  have hfresh : ∀ p ∈ c.connects, p ∉ b.roundRobin := by
    intro p hp
    rw [entersOnce, Option.mem_def.mp hp] at hc
    exact of_decide_eq_true hc
  obtain ⟨r', hr'⟩ := hr.step hfresh
  exact ⟨r', hr'.used_roundRobin⟩

/-- As long as no id connects that is in the rotation queue, no peer is in it twice: a send
that succeeds goes to the queue of the peer whose turn it is, and as many of them in a row as
there are peers go to different ones. -/
theorem one_turn_per_peer {fairQueueInner : Option (QueueInner S PeerIdentity W)}
    (h : ((callSystem fairQueueInner).guarded fun b c => entersOnce b c = true).Reachable b) :
    (∀ p ∈ b.peers, b.roundRobin.count p ≤ 1) ∧
      (∀ room m b', b.sendRoundRobin room (.message m) = (.ok (), b') →
        ∃ p c, b.nextPeer = some p ∧ b.peers.lookup p = some c ∧
          b'.channels = b.sentTo room c (.message m)) ∧
      ∀ sends ps, sends.length = b.peers.keys.length → b.turns sends = some ps →
        ps.length = sends.length ∧ ps.Nodup := by
  have hinv : ∃ r, Refines b.roundRobin b r := by
    apply Lib.System.Reachable.invariant_guarded
      (P := fun b => ∃ r, Refines b.roundRobin b r) _ _ h
    · exact ⟨_, (refines_withOptions fairQueueInner).used_roundRobin⟩
    · intro b c b' hc hr hn
      cases hn
      exact refines_call hc hr
  obtain ⟨r, hr⟩ := hinv
  refine ⟨?_, ?_, ?_⟩
  · intro p _
    exact List.nodup_iff_count_le_one.mp hr.nodup p
  · intro room m b' hs
    obtain ⟨p, c, rest, hring, hch, -⟩ := hr.sendRoundRobin_ok hs
    refine ⟨p, c, ?_, ?_, hch⟩
    · rw [hr.nextPeer, hring]
      rfl
    · apply (hr.lookup p c).mpr
      rw [hring]
      exact List.mem_cons_self
  · intro sends ps hl hps
    obtain ⟨hlen, hp⟩ := hr.turns hps (by rw [hl, hr.length_ring])
    exact ⟨hlen, (hr.perm_keys.nodup_iff.mpr b.peers.keys_nodup).sublist hp.sublist⟩

section Runs

omit [Target]

theorem one_turn_per_peer_rejoined :
    letI := Target.x64
    let p : PeerIdentity := .ofByte 1
    let q : PeerIdentity := .ofByte 2
    let o : PeerIdentity := .ofByte 3
    ∃ b, ((callSystem none).guarded fun b c => entersOnce b c = true).run (withOptions none)
        [.peerConnected p (), .peerConnected q (), .peerConnected o (), .peerDisconnected p,
          .sendRoundRobin .free ⟨[[0]]⟩, .peerDisconnected o, .peerConnected p ()] =
        some (b : GenericSocketBackend Unit Unit) ∧
      b.turns [([], .free, ⟨[[1]]⟩), ([.received 1], .free, ⟨[[2]]⟩)] = some [q, p] ∧
      [q, p].Nodup ∧ ∀ p ∈ b.peers, b.roundRobin.count p ≤ 1 := by
  let _ := Target.x64
  intro p q o
  have hrun : (((callSystem none).guarded fun b c => entersOnce b c = true).run (withOptions none)
      [.peerConnected p (), .peerConnected q (), .peerConnected o (), .peerDisconnected p,
        .sendRoundRobin .free ⟨[[0]]⟩, .peerDisconnected o, .peerConnected p ()]).map
      (fun b : GenericSocketBackend Unit Unit => (b.peers.keys.length,
        b.turns [([], .free, ⟨[[1]]⟩), ([.received 1], .free, ⟨[[2]]⟩)])) =
      some (2, some [q, p]) := by
    decide +kernel
  obtain ⟨b, hrun, hb⟩ := Option.map_eq_some_iff.mp hrun
  obtain ⟨hlen, hps⟩ := Prod.mk.inj hb
  obtain ⟨hcount, -, hnodup⟩ := one_turn_per_peer ⟨_, hrun⟩
  have hps' := (hnodup [([], .free, ⟨[[1]]⟩), ([.received 1], .free, ⟨[[2]]⟩)] [q, p] hlen.symm
    hps).2
  exact ⟨b, hrun, hps, hps', hcount⟩

/-- A peer that connects again, while it is connected or while its old id is still in the
rotation queue, is in it twice; of two peers it is then picked twice in a row. -/
theorem two_turns_of_peer :
    letI := Target.x64
    let p : PeerIdentity := .ofByte 1
    let q : PeerIdentity := .ofByte 2
    ((callSystem none).run (withOptions none) [.peerConnected p (), .peerConnected p ()]).map
        (fun b : GenericSocketBackend Unit Unit => (b.peers.keys, b.roundRobin)) =
      some ([p], [p, p]) ∧
    ((callSystem none).run (withOptions none)
        [.peerConnected p (), .peerConnected q (), .peerDisconnected p, .peerConnected p (),
          .sendRoundRobin .free ⟨[[0]]⟩, .sendRoundRobin .free ⟨[[1]]⟩]).map
        (fun b : GenericSocketBackend Unit Unit => (b.peers.keys, b.roundRobin,
          b.turns [([], .free, ⟨[[2]]⟩), ([], .free, ⟨[[3]]⟩)])) =
      some ([p, q], [p, p, q], some [p, p]) := by
  let _ := Target.x64
  intro p q
  constructor
  · decide +kernel
  · decide +kernel

end Runs

end GenericSocketBackend

end ZmqRs
