import ZmqRs.Lib.Tally
import ZmqRs.PubBackend
import ZmqRs.SubBackend

/-! What a publisher holds after the messages of a subscriber. -/

namespace ZmqRs

open Codec (Message)
open Lib (tally tally_concat)

def applyToList (subscriptions : List Bytes) : Bytes × Bool → List Bytes
  | (t, true) => subscriptions ++ [t]
  | (t, false) => subscriptions.erase t

theorem count_foldl_applyToList (t : Bytes) (changes : List (Bytes × Bool)) :
    (changes.foldl applyToList []).count t = tally (changesOf t changes) := by
  induction changes using List.reverseRecOn with
  | nil => rfl
  | append_singleton changes change ih =>
    obtain ⟨t', up⟩ := change
    rw [List.foldl_append, changesOf_concat]
    by_cases h : t' = t
    · subst h
      cases up <;> simp [applyToList, ih]
    · cases up <;> simp [applyToList, ih, h, List.count_erase_of_ne (Ne.symm h)]

theorem removeFirst_eq_erase (t : Bytes) (subscriptions : List Bytes) :
    Subscribers.removeFirst t subscriptions = subscriptions.erase t := by
  rw [Subscribers.removeFirst]
  induction subscriptions with
  | nil => rfl
  | cons s l ih =>
    by_cases h : s = t
    · simp [h, List.findIdx?_cons]
    · rw [List.findIdx?_cons, List.erase_cons_tail (by simpa using h), ← ih]
      simp only [h, decide_false]
      cases List.findIdx? (fun x => decide (x = t)) l <;> simp

theorem Subscribers.messageReceived_eq (subscribers : Subscribers) (p : PeerIdentity)
    (m : Message) :
    subscribers.messageReceived p m =
      match subscriptionChange m with
      | some change => subscribers.modify p (applyToList · change)
      | none => subscribers := by
  fun_cases subscriptionChange m with
  | case1 => rfl
  | case2 =>
    change subscribers.modify p (removeFirst _) = _
    congr 1
    funext l
    exact removeFirst_eq_erase _ l
  | case3 _ h₁ h₂ =>
    cases m with
    | message m =>
      obtain ⟨frames⟩ := m
      rw [messageReceived]
      split
      · rfl
      · rename_i hlen
        obtain ⟨frame, rfl⟩ := List.length_eq_one_iff.mp (not_not.mp hlen)
        simp only [List.getLast?_singleton, Option.getD_some]
        split
        · rfl
        · exact (h₁ _ rfl).elim
        · exact (h₂ _ rfl).elim
        · rfl
    | _ => rfl

theorem Subscribers.lookup_modify (subscribers : Subscribers) (p : PeerIdentity)
    (f : List Bytes → List Bytes) :
    ((subscribers.modify p f).lookup p).map Subscriber.subscriptions =
      ((subscribers.lookup p).map Subscriber.subscriptions).map f := by
  rw [modify]
  cases h : subscribers.lookup p with
  | none => simp [h]
  | some entry => simp

theorem subscriptionMatches_eq_any (subscriptions : List Bytes) (firstFrame : Bytes) :
    PubSocketBackend.subscriptionMatches subscriptions firstFrame =
      subscriptions.any (PubSocketBackend.filterMatches firstFrame) := by
  rw [PubSocketBackend.subscriptionMatches]
  split
  · rfl
  · change subscriptions.any _ = subscriptions.any _
    congr 1
    funext subFilter
    cases subFilter with
    | nil => rfl
    | cons b rest =>
      cases firstFrame with
      | nil => simp [PubSocketBackend.filterMatches]
      | cons b' rest' => by_cases h : b = b' <;> simp [PubSocketBackend.filterMatches, h]

theorem any_filterMatches (subscriptions : List Bytes) (firstFrame : Bytes) :
    subscriptions.any (PubSocketBackend.filterMatches firstFrame) = true ↔
      ∃ t ∈ subscriptions, t <+: firstFrame := by
  rw [List.any_eq_true]
  apply exists_congr
  intro t
  apply and_congr_right
  intro _
  rw [List.prefix_iff_eq_take, PubSocketBackend.filterMatches, Bool.and_eq_true, beq_iff_eq,
    decide_eq_true_iff, and_iff_right_iff_imp]
  -- A topic that is as long as what was taken of the frame is no longer than the frame.
  intro h
  rw [h]
  exact List.length_take_le' _ _

def countChange (t : Bytes) (n : Nat) : Message → Nat
  | .message ⟨[1 :: subscription]⟩ => if subscription = t then n + 1 else n
  | .message ⟨[0 :: subscription]⟩ => if subscription = t then n - 1 else n
  | _ => n

theorem countChange_eq (t : Bytes) (l : List Bytes) (m : Message) :
    countChange t (l.count t) m =
      match subscriptionChange m with
      | some change => (applyToList l change).count t
      | none => l.count t := by
  fun_cases subscriptionChange m with
  | case1 sub =>
    by_cases h : sub = t <;> simp [countChange, applyToList, h]
  | case2 sub =>
    by_cases h : sub = t
    · simp [countChange, applyToList, h]
    · simp [countChange, applyToList, h, List.count_erase_of_ne (Ne.symm h)]
  | case3 => simp [countChange]

theorem count_foldl_countChange (t : Bytes) (messages : List Message) (l : List Bytes) :
    ((messages.filterMap subscriptionChange).foldl applyToList l).count t =
      messages.foldl (countChange t) (l.count t) := by
  induction messages generalizing l with
  | nil => rfl
  | cons m messages ih =>
    rw [List.foldl_cons, countChange_eq]
    cases h : subscriptionChange m with
    | none => rw [List.filterMap_cons_none h, ih]
    | some change => rw [List.filterMap_cons_some h, List.foldl_cons, ih]

variable {S W : Type}

theorem Publisher.subscribers_messageReceived (b : Publisher S W) (p : PeerIdentity)
    (m : Message) : (b.messageReceived p m).subscribers = b.subscribers.messageReceived p m := by
  cases b <;> rfl

namespace Publisher

def hears (b : Publisher S W) (p : PeerIdentity) (messages : List Message) : Publisher S W :=
  messages.foldl (fun b m => b.messageReceived p m) b

theorem lookup_hears (b : Publisher S W) (p : PeerIdentity) (messages : List Message) :
    ((b.hears p messages).subscribers.lookup p).map Subscriber.subscriptions =
      ((b.subscribers.lookup p).map Subscriber.subscriptions).map
        fun l => (messages.filterMap subscriptionChange).foldl applyToList l := by
  induction messages generalizing b with
  | nil => exact Option.map_id'.symm
  | cons m messages ih =>
    change (((b.messageReceived p m).hears p messages).subscribers.lookup p).map _ = _
    rw [ih, subscribers_messageReceived, Subscribers.messageReceived_eq]
    cases h : subscriptionChange m with
    | none => rw [List.filterMap_cons_none h]
    | some change =>
      rw [List.filterMap_cons_some h, Subscribers.lookup_modify, Option.map_map]
      rfl

theorem accepts_eq_any (b : Publisher S W) (p : PeerIdentity) (firstFrame : Bytes) :
    b.accepts p firstFrame =
      (b.subscriptions p).any (PubSocketBackend.filterMatches firstFrame) := by
  cases b with
  | pub b =>
    change (b.subscribers.lookup p).any _ = (((b.subscribers.lookup p).map _).getD []).any _
    cases b.subscribers.lookup p with
    | none => rfl
    | some s => exact subscriptionMatches_eq_any s.subscriptions firstFrame
  | xpub b =>
    change (b.subscribers.lookup p).any _ = (((b.subscribers.lookup p).map _).getD []).any _
    cases b.subscribers.lookup p <;> rfl

variable [Target]

theorem lookup_hears_peerConnected (b : Publisher S W) (p : PeerIdentity) (recvQueue : S)
    (sendQueue : Wire) (messages : List Message) :
    (((b.peerConnected p recvQueue sendQueue).hears p messages).subscribers.lookup p).map
        Subscriber.subscriptions =
      some ((messages.filterMap subscriptionChange).foldl applyToList []) := by
  have h : ((b.peerConnected p recvQueue sendQueue).subscribers.lookup p).map
      Subscriber.subscriptions = some [] := by
    cases b <;> simp [peerConnected, subscribers, PubSocketBackend.peerConnected,
      XPubSocketBackend.peerConnected]
  rw [lookup_hears, h]
  rfl

theorem subscriptions_hears (b : Publisher S W) (p : PeerIdentity) (recvQueue : S)
    (sendQueue : Wire) (messages : List Message) :
    ((b.peerConnected p recvQueue sendQueue).hears p messages).subscriptions p =
      (messages.filterMap subscriptionChange).foldl applyToList [] := by
  rw [subscriptions, lookup_hears_peerConnected]
  rfl

/-- PUB and XPUB hold the same list for a subscriber, in which a topic occurs as often as it was
subscribed to; and both filter by prefix, over any list. -/
theorem pub_xpub_filter_alike (b : PubSocketBackend) (x : XPubSocketBackend S W)
    (p : PeerIdentity) (recvQueue : S) (sendQueue : Wire) (messages : List Message) :
    (∃ subscriptions : List Bytes,
      (((peerConnected (.pub b : Publisher S W) p recvQueue sendQueue).hears p
          messages).subscribers.lookup p).map Subscriber.subscriptions = some subscriptions ∧
      (((peerConnected (.xpub x : Publisher S W) p recvQueue sendQueue).hears p
          messages).subscribers.lookup p).map Subscriber.subscriptions = some subscriptions ∧
      ∀ t, subscriptions.count t = messages.foldl (countChange t) 0) ∧
    ∀ (subscriptions : List Bytes) (firstFrame : Bytes),
      (PubSocketBackend.subscriptionMatches subscriptions firstFrame = true ↔
        ∃ t ∈ subscriptions, t <+: firstFrame) ∧
      (XPubSocketBackend.selects subscriptions firstFrame = true ↔
        ∃ t ∈ subscriptions, t <+: firstFrame) := by
  constructor
  · refine ⟨_, lookup_hears_peerConnected (.pub b) p recvQueue sendQueue messages,
      lookup_hears_peerConnected (.xpub x) p recvQueue sendQueue messages, ?_⟩
    intro t
    exact count_foldl_countChange t messages []
  · intro subscriptions firstFrame
    constructor
    · rw [subscriptionMatches_eq_any]
      exact any_filterMatches subscriptions firstFrame
    · exact any_filterMatches subscriptions firstFrame

end Publisher

end ZmqRs
