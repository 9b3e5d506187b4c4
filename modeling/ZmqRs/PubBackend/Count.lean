import ZmqRs.Lib.Transition
import ZmqRs.PubBackend
import Mathlib.Data.Int.ModEq

/-! `subscriber_count`.  The table and the counter are changed one after the other,
by as many calls of `peer_connected` and `peer_disconnected` as there are at a time;
every operation on either is a step. -/

namespace ZmqRs.SubscriberCount

open Codec (Message)

/-- A call, by what it does next.  `add` and `sub` are the operations on the counter. -/
inductive Call
  | upsert (peerId : PeerIdentity)
  | add
  | remove (peerId : PeerIdentity)
  | sub
  | done
  deriving DecidableEq

def Call.isAdd : Call → Bool
  | .add => true
  | _ => false

def Call.isSub : Call → Bool
  | .sub => true
  | _ => false

structure State where
  backend : PubSocketBackend
  calls : List Call

inductive Action
  | peerConnected (peerId : PeerIdentity)
  | peerDisconnected (peerId : PeerIdentity)
  | messageReceived (peerId : PeerIdentity) (message : Message)
  | call (i : Nat)

def State.init (monitor : Option (List PeerIdentity)) : State := ⟨⟨∅, 0, monitor, []⟩, []⟩

def size (subscribers : Subscribers) : Nat := subscribers.keys.length

variable [Target]

def callNext (st : State) (i : Nat) : Call → Option State
  | .upsert p =>
    let backend := { st.backend with
      channels := st.backend.channels ++ [⟨[], false⟩]
      subscribers := st.backend.subscribers.insert p ⟨[], st.backend.channels.length⟩ }
    -- An entry takes memory, so a table has fewer entries than there are addresses.
    if size backend.subscribers < 2 ^ Target.usizeBits then
      let stage := if (st.backend.subscribers.lookup p).isNone then .add else .done
      some ⟨backend, st.calls.set i stage⟩
    else none
  | .add =>
    some ⟨{ st.backend with
      subscriberCount := (st.backend.subscriberCount + 1) % 2 ^ Target.usizeBits },
      st.calls.set i .done⟩
  | .remove p =>
    let stage := if (st.backend.subscribers.lookup p).isSome then .sub else .done
    some ⟨{ st.backend with subscribers := st.backend.subscribers.erase p }, st.calls.set i stage⟩
  | .sub =>
    some ⟨{ st.backend with
      subscriberCount :=
        (st.backend.subscriberCount + 2 ^ Target.usizeBits - 1) % 2 ^ Target.usizeBits },
      st.calls.set i .done⟩
  | .done => none

def next (st : State) : Action → Option State
  -- `peer_disconnected` reports to the monitor first.
  | .peerConnected p => some { st with calls := st.calls ++ [.upsert p] }
  | .peerDisconnected p =>
    some ⟨{ st.backend with monitor := st.backend.monitor.map (· ++ [p]) },
      st.calls ++ [.remove p]⟩
  | .messageReceived p m => some { st with backend := st.backend.messageReceived p m }
  | .call i => st.calls[i]?.bind (callNext st i)

def system (monitor : Option (List PeerIdentity)) : Lib.System State Action where
  init := .init monitor
  next := next

def send (b : PubSocketBackend) (message : ZmqMessage) : Option ZmqMessage :=
  if (message.get 0).isNone then none
  else if b.subscriberCount = 0 then none
  else some message

section Size

omit [Target]

variable (subscribers : Subscribers) (p : PeerIdentity)

theorem size_insert_of_none (entry : Subscriber) (h : subscribers.lookup p = none) :
    size (subscribers.insert p entry) = size subscribers + 1 := by
  have hm : p ∉ subscribers.keys := AList.lookup_eq_none.mp h
  rw [size, AList.keys_insert, List.length_cons, List.erase_of_not_mem hm, size]

theorem size_erase_of_some {entry : Subscriber} (h : subscribers.lookup p = some entry) :
    size (subscribers.erase p) + 1 = size subscribers := by
  have hm : p ∈ subscribers.keys := AList.lookup_isSome.mp (by rw [h]; rfl)
  have hpos : 0 < subscribers.keys.length := List.length_pos_of_mem hm
  rw [size, AList.keys_erase, List.length_erase_of_mem hm, size]
  omega

theorem size_insert_of_some {old : Subscriber} (entry : Subscriber)
    (h : subscribers.lookup p = some old) :
    size (subscribers.insert p entry) = size subscribers := by
  rw [← size_erase_of_some subscribers p h, size, AList.keys_insert, List.length_cons, size,
    AList.keys_erase]

theorem size_erase_of_none (h : subscribers.lookup p = none) :
    size (subscribers.erase p) = size subscribers := by
  have hm : p ∉ subscribers.keys := AList.lookup_eq_none.mp h
  rw [size, AList.keys_erase, List.erase_of_not_mem hm, size]

theorem size_modify (f : List Bytes → List Bytes) :
    size (subscribers.modify p f) = size subscribers := by
  rw [Subscribers.modify]
  split
  · rfl
  · rename_i h
    exact size_insert_of_some subscribers p _ h

theorem size_messageReceived (m : Message) :
    size (subscribers.messageReceived p m) = size subscribers := by
  cases m with
  | greeting | command => rfl
  | message m =>
    rw [Subscribers.messageReceived]
    split
    · rfl
    · split
      · rfl
      · exact size_modify subscribers p _
      · exact size_modify subscribers p _
      · rfl

end Size

theorem run_peerConnected (monitor : Option (List PeerIdentity)) (st : State) (p : PeerIdentity)
    (hsize : size st.backend.subscribers + 1 < 2 ^ Target.usizeBits) :
    ∃ as, (system monitor).run st (.peerConnected p :: as) =
      some ⟨st.backend.peerConnected p, st.calls ++ [.done]⟩ := by
  cases hl : st.backend.subscribers.lookup p with
  | none =>
    have hs := size_insert_of_none _ p ⟨[], st.backend.channels.length⟩ hl
    refine ⟨[.call st.calls.length, .call st.calls.length], ?_⟩
    simp [Lib.System.run, system, next, callNext, hs, hsize, hl, PubSocketBackend.peerConnected]
  | some old =>
    have hs := size_insert_of_some _ p ⟨[], st.backend.channels.length⟩ hl
    refine ⟨[.call st.calls.length], ?_⟩
    simp [Lib.System.run, system, next, callNext, hs, hl, PubSocketBackend.peerConnected]
    omega

structure Inv (st : State) : Prop where
  count : (st.backend.subscriberCount : ℤ) ≡
    size st.backend.subscribers + st.calls.countP Call.isSub - st.calls.countP Call.isAdd
      [ZMOD 2 ^ Target.usizeBits]
  count_lt : st.backend.subscriberCount < 2 ^ Target.usizeBits
  size_lt : size st.backend.subscribers < 2 ^ Target.usizeBits

theorem inv_init (monitor : Option (List PeerIdentity)) : Inv (State.init monitor) :=
  ⟨rfl, Nat.two_pow_pos _, Nat.two_pow_pos _⟩

variable {st st' : State} {i : Nat}

omit [Target] in
theorem countP_set {x y : Call} (hi : st.calls[i]? = some x) (f : Call → Bool) :
    ((st.calls.set i y).countP f : ℤ) = st.calls.countP f + (f y).toNat - (f x).toNat := by
  have h := Lib.countP_set_of_getElem? f y hi
  omega

theorem Inv.move (h : Inv st) {x y : Call} (hi : st.calls[i]? = some x) {b : PubSocketBackend}
    (hlt : b.subscriberCount < 2 ^ Target.usizeBits)
    (hsize : size b.subscribers < 2 ^ Target.usizeBits)
    (hd : (2 ^ Target.usizeBits : ℤ) ∣
      size b.subscribers - size st.backend.subscribers + (y.isSub.toNat - x.isSub.toNat) -
        (y.isAdd.toNat - x.isAdd.toNat) - (b.subscriberCount - st.backend.subscriberCount)) :
    Inv ⟨b, st.calls.set i y⟩ := by
  refine ⟨?_, hlt, hsize⟩
  have hc := Int.modEq_iff_dvd.mp h.count
  apply Int.modEq_iff_dvd.mpr
  rw [countP_set hi, countP_set hi]
  have hsum := Int.dvd_add hc hd
  convert hsum using 1
  dsimp only
  omega

omit [Target] in
theorem dvd_sub_mod (w a : ℕ) : (2 ^ w : ℤ) ∣ a - (a % 2 ^ w : ℕ) := by
  refine ⟨(a / 2 ^ w : ℕ), ?_⟩
  have h := congrArg (Nat.cast : ℕ → ℤ) (Nat.div_add_mod a (2 ^ w))
  push_cast at h ⊢
  omega

theorem Inv.callNext (h : Inv st) {x : Call} (hi : st.calls[i]? = some x)
    (hn : callNext st i x = some st') : Inv st' := by
  have hpos := Nat.two_pow_pos Target.usizeBits
  cases x with
  | upsert p =>
    simp only [SubscriberCount.callNext] at hn
    split at hn
    · rename_i hsize
      cases hn
      refine h.move hi h.count_lt hsize ?_
      cases hl : st.backend.subscribers.lookup p with
      | none =>
        rw [size_insert_of_none _ _ _ hl]
        simp [Call.isAdd, Call.isSub]
      | some old =>
        rw [size_insert_of_some _ _ _ hl]
        simp [Call.isAdd, Call.isSub]
    · cases hn
  | add =>
    cases hn
    refine h.move hi (Nat.mod_lt _ hpos) h.size_lt ?_
    have hd := dvd_sub_mod Target.usizeBits (st.backend.subscriberCount + 1)
    convert hd using 1
    simp only [Call.isAdd, Call.isSub, Bool.toNat_true, Bool.toNat_false]
    omega
  | remove p =>
    cases hn
    cases hl : st.backend.subscribers.lookup p with
    | none =>
      have hsize := size_erase_of_none _ _ hl
      refine h.move hi h.count_lt (by rw [hsize]; exact h.size_lt) ?_
      rw [hsize]
      simp [Call.isAdd, Call.isSub]
    | some entry =>
      have hsize := size_erase_of_some _ _ hl
      have hlt := h.size_lt
      refine h.move hi h.count_lt (by dsimp only; omega) ?_
      rw [← hsize]
      simp [Call.isAdd, Call.isSub]
  | sub =>
    cases hn
    refine h.move hi (Nat.mod_lt _ hpos) h.size_lt ?_
    have hd := dvd_sub_mod Target.usizeBits
      (st.backend.subscriberCount + 2 ^ Target.usizeBits - 1)
    -- what `fetch_sub` adds is one full turn less one
    have hturn := Int.dvd_sub hd (Int.dvd_refl (2 ^ Target.usizeBits))
    convert hturn using 1
    have hcast : ((2 ^ Target.usizeBits : ℕ) : ℤ) = 2 ^ Target.usizeBits := by push_cast; rfl
    simp only [Call.isAdd, Call.isSub, Bool.toNat_true, Bool.toNat_false]
    omega
  | done => cases hn

theorem inv_next {a : Action} (h : Inv st) (hn : next st a = some st') : Inv st' := by
  cases a with
  | peerConnected p =>
    cases hn
    exact ⟨by simpa [Call.isAdd, Call.isSub] using h.count, h.count_lt, h.size_lt⟩
  | peerDisconnected p =>
    cases hn
    exact ⟨by simpa [Call.isAdd, Call.isSub] using h.count, h.count_lt, h.size_lt⟩
  | messageReceived p m =>
    cases hn
    have hsize := size_messageReceived st.backend.subscribers p m
    refine ⟨?_, h.count_lt, ?_⟩
    · change (st.backend.subscriberCount : ℤ) ≡ size (st.backend.subscribers.messageReceived p m) +
        st.calls.countP Call.isSub - st.calls.countP Call.isAdd [ZMOD 2 ^ Target.usizeBits]
      rw [hsize]
      exact h.count
    · exact lt_of_eq_of_lt hsize h.size_lt
  | call i =>
    obtain ⟨x, hi, hn⟩ := Option.bind_eq_some_iff.mp hn
    exact h.callNext hi hn

/-- Whatever calls are in progress, the counter is the number of subscribers, plus the removals
not yet subtracted, minus the insertions not yet added, modulo the width of the counter.  When
none is, it is that number, and `send` passes a message on just when there are subscribers. -/
theorem count_tracks_table {monitor : Option (List PeerIdentity)}
    (h : (system monitor).Reachable st) :
    (st.backend.subscriberCount : ℤ) ≡
        size st.backend.subscribers + st.calls.countP Call.isSub - st.calls.countP Call.isAdd
          [ZMOD 2 ^ Target.usizeBits] ∧
      ((∀ c ∈ st.calls, c = .done) →
        st.backend.subscriberCount = size st.backend.subscribers ∧
        ∀ message : ZmqMessage, (message.get 0).isSome →
          (send st.backend message = none ↔ st.backend.subscribers.keys = [])) := by
  have hinv : Inv st :=
    h.invariant (P := Inv) (inv_init monitor) fun _ _ _ hi hn => inv_next hi hn
  refine ⟨hinv.count, ?_⟩
  intro hdone
  have hadd : st.calls.countP Call.isAdd = 0 := by
    rw [List.countP_eq_zero]
    intro c hc
    rw [hdone c hc]
    decide
  have hsub : st.calls.countP Call.isSub = 0 := by
    rw [List.countP_eq_zero]
    intro c hc
    rw [hdone c hc]
    decide
  have hcount : st.backend.subscriberCount = size st.backend.subscribers := by
    have hc := hinv.count
    have hmod : st.backend.subscriberCount ≡ size st.backend.subscribers
        [MOD 2 ^ Target.usizeBits] := by
      apply Int.natCast_modEq_iff.mp
      simpa [hadd, hsub] using hc
    exact hmod.eq_of_lt_of_lt hinv.count_lt hinv.size_lt
  refine ⟨hcount, ?_⟩
  intro message hm
  have hget : ¬ (message.get 0).isNone := by
    rw [Option.isSome_iff_exists] at hm
    obtain ⟨frame, hframe⟩ := hm
    simp [hframe]
  rw [send, hcount, if_neg hget, size]
  constructor
  · intro h
    split at h
    · rename_i hlen
      exact List.eq_nil_of_length_eq_zero hlen
    · cases h
  · intro h
    rw [h, List.length_nil, if_pos rfl]

def crossing : List Action :=
  [.peerConnected (.ofByte 1), .call 0, .peerDisconnected (.ofByte 1), .call 1, .call 1]

omit [Target] in
theorem count_tracks_table_crossing :
    letI := Target.x64
    ∃ st st', (system none).run (.init none) crossing = some st ∧
      st.backend.subscriberCount = 2 ^ 64 - 1 ∧
      (system none).run st [.call 0] = some st' ∧
      st'.backend.subscriberCount = 0 ∧ send st'.backend ⟨[[7]]⟩ = none := by
  let _ := Target.x64
  have hrun : ∃ st st', (system none).run (.init none) crossing = some st ∧
      (system none).run st [.call 0] = some st' ∧
      (system none).run (.init none) (crossing ++ [.call 0]) = some st' :=
    ⟨_, _, rfl, rfl, rfl⟩
  obtain ⟨st, st', h₁, h₂, hrun⟩ := hrun
  have hwrap : ((system none).run (.init none) crossing).map (·.backend.subscriberCount) =
      some (2 ^ 64 - 1) := by
    decide +kernel
  have hend : ((system none).run (.init none) (crossing ++ [.call 0])).map
      (fun st => (st.calls, st.backend.subscribers.keys)) = some ([.done, .done], []) := by
    decide +kernel
  rw [h₁, Option.map_some, Option.some_inj] at hwrap
  rw [hrun, Option.map_some, Option.some_inj, Prod.mk_inj] at hend
  obtain ⟨hcalls, hkeys⟩ := hend
  obtain ⟨hcount, hsend⟩ := (count_tracks_table ⟨_, hrun⟩).2 (by rw [hcalls]; decide)
  refine ⟨st, st', h₁, hwrap, h₂, ?_, (hsend ⟨[[7]]⟩ rfl).mpr hkeys⟩
  rw [hcount, size, hkeys, List.length_nil]

end ZmqRs.SubscriberCount
