import ZmqRs.SubBackend.Agreement

/-! A relay: an XPUB for subscribers and an XSUB for publishers, with a `proxy` in between.  What
a publisher behind the relay holds is compared with what all subscribers of the relay hold. -/

namespace ZmqRs

open Codec (Message)
open Lib (tally tally_concat)

namespace XPubSocketBackend

variable {S W : Type}

def peerDisconnected (b : XPubSocketBackend S W) (peerId : PeerIdentity) :
    XPubSocketBackend S W :=
  { b with
    subscribers := b.subscribers.erase peerId
    fairQueueInner := b.fairQueueInner.remove peerId }

end XPubSocketBackend

/-- `order` are the entries of `subscribers`, in the order of the iteration.  The loop over the
targets is that of `fanout_message`. -/
def XPubSocket.send {S W : Type} (b : XPubSocketBackend S W)
    (order : List (Sigma fun _ : PeerIdentity => Subscriber)) (message : ZmqMessage) :
    Except ZmqError Unit × XPubSocketBackend S W :=
  match message.get 0 with
  | none => (.ok (), b)
  | some firstFrame =>
    let targets : List PeerEntry :=
      (order.filter fun entry =>
        XPubSocketBackend.selects entry.2.subscriptions firstFrame).map
        fun entry => ⟨entry.1, entry.2.sendQueue⟩
    match SubSocketBackend.fanoutLoop message targets b.wires [] with
    | (wires, .ok deadPeers) =>
      (.ok (), deadPeers.foldl XPubSocketBackend.peerDisconnected { b with wires := wires })
    | (wires, .error e) => (.error (.codec e), { b with wires := wires })

namespace Relay

open SubCalls (Call LastConnect told)

/-- `hand` is a message that `recv` of the XPUB has returned and that the XSUB has still to
send. -/
structure State (S W N : Type) where
  xpub : XPubSocketBackend S W
  xsub : SubSocketBackend S W N
  hand : Option ZmqMessage

inductive Action (S : Type)
  | downConnect (p : PeerIdentity) (recvQueue : S)
  | downDisconnect (p : PeerIdentity)
  | recv (p : PeerIdentity) (m : ZmqMessage)
  | forward (targets : List PeerEntry) (m : ZmqMessage)
  | upConnect (order : List Bytes) (q : PeerIdentity) (recvQueue : S)

variable {S W N : Type}

def Action.call? : Action S → Option (Call S)
  | .forward targets m => some (.send targets m)
  | .upConnect order q recvQueue => some (.connect order q recvQueue)
  | _ => none

section Defs

variable [Target]

def next (st : State S W N) : Action S → Option (State S W N)
  -- no connection fails, and no publisher leaves
  | .downConnect p recvQueue =>
    some { st with xpub := st.xpub.peerConnected p recvQueue ⟨[], none⟩ }
  | .downDisconnect p => some { st with xpub := st.xpub.peerDisconnected p }
  | .recv p m =>
    if st.hand = none then
      some { st with xpub := st.xpub.messageReceived p (.message m), hand := some m }
    else none
  | .forward targets m =>
    if st.hand = some m then
      (SubCalls.next .xsub st.xsub (.send targets m)).map fun xsub =>
        { st with xsub := xsub, hand := none }
    else none
  | .upConnect order q recvQueue =>
    (SubCalls.next .xsub st.xsub (.connect order q recvQueue)).map fun xsub =>
      { st with xsub := xsub }

def system : Lib.System (State S W N) (Action S) where
  init := ⟨⟨∅, .new, []⟩, .withOptions (some .new), none⟩
  next := next

end Defs

def subscriptions (subscribers : Subscribers) (p : PeerIdentity) : List Bytes :=
  ((subscribers.lookup p).map Subscriber.subscriptions).getD []

/-- A subscriber unsubscribes from a topic that it holds, and a publisher is connected before
there are subscriptions. -/
def orderly (st : State S W N) : Action S → Bool
  | .recv p m =>
    (subscriptionChange (.message m)).all fun change =>
      change.2 || (subscriptions st.xpub.subscribers p).contains change.1
  | .upConnect _ _ _ => st.xpub.subscribers.entries.all fun entry => entry.2.subscriptions.isEmpty
  | _ => true

def held (t : Bytes) (subscribers : Subscribers) : Nat :=
  (subscribers.entries.map fun entry => entry.2.subscriptions.count t).sum

section Held

variable {subscribers : Subscribers} {p : PeerIdentity}

theorem held_insert (t : Bytes) (subscribers : Subscribers) (p : PeerIdentity) (s : Subscriber) :
    held t (subscribers.insert p s) = s.subscriptions.count t + held t (subscribers.erase p) := by
  have hentries : (subscribers.insert p s).entries = ⟨p, s⟩ :: (subscribers.erase p).entries := rfl
  rw [held, hentries, List.map_cons, List.sum_cons]
  rfl

theorem held_of_lookup (t : Bytes) {s : Subscriber} (h : subscribers.lookup p = some s) :
    held t subscribers = s.subscriptions.count t + held t (subscribers.erase p) := by
  obtain ⟨s', l₁, l₂, -, hl, he⟩ :=
    List.exists_of_kerase (AList.mem_keys.mp (AList.lookup_isSome.mp (Option.isSome_of_eq_some h)))
  have hs : (⟨p, s'⟩ : Sigma fun _ : PeerIdentity => Subscriber) ∈ subscribers.entries := by
    rw [hl]
    exact List.mem_append_right _ List.mem_cons_self
  obtain rfl : s = s' := Option.some.inj (h.symm.trans (AList.mem_lookup_iff.mpr hs))
  have herase : held t (subscribers.erase p) =
      ((l₁ ++ l₂).map fun entry => entry.2.subscriptions.count t).sum := by
    rw [← he]
    rfl
  rw [herase, held, hl]
  simp only [List.map_append, List.map_cons, List.sum_append, List.sum_cons]
  omega

theorem held_erase_le (t : Bytes) (subscribers : Subscribers) (p : PeerIdentity) :
    held t (subscribers.erase p) ≤ held t subscribers := by
  cases h : subscribers.lookup p with
  | none =>
    have hp : p ∉ subscribers.keys := AList.lookup_eq_none.mp h
    have hentries : (subscribers.erase p).entries = subscribers.entries :=
      List.kerase_of_notMem_keys hp
    rw [held, held, hentries]
  | some s =>
    rw [held_of_lookup t h]
    exact Nat.le_add_left _ _

theorem lookup_of_erase {q : PeerIdentity} {s : Subscriber}
    (h : (subscribers.erase p).lookup q = some s) : subscribers.lookup q = some s := by
  by_cases hq : q = p
  · subst hq
    rw [AList.lookup_erase] at h
    cases h
  · rwa [AList.lookup_erase_ne hq] at h

theorem held_messageReceived (t : Bytes) {m : ZmqMessage}
    (h : ∀ t', subscriptionChange (.message m) = some (t', false) →
      t' ∈ subscriptions subscribers p) {changes : List Bool}
    (hle : held t subscribers ≤ tally changes) :
    held t (subscribers.messageReceived p (.message m)) ≤
      tally (changes ++ changesOf t (subscriptionChange (.message m)).toList) := by
  rw [Subscribers.messageReceived_eq]
  cases hc : subscriptionChange (.message m) with
  | none => simpa using hle
  | some change =>
    obtain ⟨t', up⟩ := change
    have hchange : changesOf t [(t', up)] = if t' = t then [up] else [] :=
      (changesOf_concat t [] t' up).trans (List.nil_append _)
    rw [Option.toList_some, hchange]
    dsimp only
    rw [Subscribers.modify]
    cases hl : subscribers.lookup p with
    | none =>
      cases up with
      | false =>
        have hmem := h t' hc
        rw [subscriptions, hl] at hmem
        cases hmem
      | true =>
        dsimp only
        split
        · rw [tally_concat, if_pos rfl]
          omega
        · rwa [List.append_nil]
    | some s =>
      dsimp only
      rw [held_of_lookup t hl] at hle
      rw [held_insert]
      by_cases ht : t' = t
      · subst ht
        rw [if_pos rfl, tally_concat]
        cases up with
        | true =>
          simp only [applyToList, List.count_append, List.count_singleton_self, if_true]
          omega
        | false =>
          have hmem := h t' hc
          rw [subscriptions, hl] at hmem
          have hpos : 0 < s.subscriptions.count t' := List.count_pos_iff.mpr hmem
          simp only [applyToList, List.count_erase_self, Bool.false_eq_true, if_false]
          omega
      · rw [if_neg ht, List.append_nil]
        have hcount : (applyToList s.subscriptions (t', up)).count t = s.subscriptions.count t := by
          cases up with
          | true => simp [applyToList, ht]
          | false => simp [applyToList, List.count_erase_of_ne (Ne.symm ht)]
        dsimp only
        rw [hcount]
        exact hle

end Held

section Invariant

variable [Target]

def handChange (st : State S W N) : List (Bytes × Bool) :=
  (st.hand.bind fun m => subscriptionChange (.message m)).toList

structure Wired (b : XPubSocketBackend S W) : Prop where
  isOpen : SubCalls.Open b.wires
  bound : ∀ p s, b.subscribers.lookup p = some s → s.sendQueue < b.wires.length
  owner : ∀ p p' s s', b.subscribers.lookup p = some s → b.subscribers.lookup p' = some s' →
    s.sendQueue = s'.sendQueue → p = p'

structure Inv (calls : List (Call S)) (st : State S W N) : Prop where
  sub : SubCalls.Inv calls st.xsub
  wired : Wired st.xpub
  covered : ∀ before order q after, LastConnect calls before order q after → ∀ t,
    held t st.xpub.subscribers ≤ tally (changesOf t (told order after ++ handChange st))

namespace Wired

variable {b : XPubSocketBackend S W}

omit [Target] in
theorem lookup_messageReceived {subscribers : Subscribers} {p q : PeerIdentity} {m : Message}
    {s : Subscriber} (h : (subscribers.messageReceived p m).lookup q = some s) :
    ∃ s', subscribers.lookup q = some s' ∧ s'.sendQueue = s.sendQueue := by
  rw [Subscribers.messageReceived_eq] at h
  split at h
  · rw [Subscribers.modify] at h
    split at h
    · exact ⟨s, h, rfl⟩
    · rename_i entry hl
      by_cases hq : q = p
      · subst hq
        rw [AList.lookup_insert] at h
        cases h
        exact ⟨entry, hl, rfl⟩
      · rw [AList.lookup_insert_ne hq] at h
        exact ⟨s, h, rfl⟩
  · exact ⟨s, h, rfl⟩

omit [Target] in
theorem messageReceived (h : Wired b) (p : PeerIdentity) (m : Message) :
    Wired (b.messageReceived p m) where
  isOpen := h.isOpen
  bound := by
    intro q s hq
    obtain ⟨s', hq', hs⟩ := lookup_messageReceived hq
    exact hs ▸ h.bound q s' hq'
  owner := by
    intro q q' s s' hq hq' hs
    obtain ⟨s₁, hq₁, hs₁⟩ := lookup_messageReceived hq
    obtain ⟨s₂, hq₂, hs₂⟩ := lookup_messageReceived hq'
    exact h.owner q q' s₁ s₂ hq₁ hq₂ (hs₁.trans (hs.trans hs₂.symm))

theorem peerConnected (h : Wired b) (p : PeerIdentity) (recvQueue : S) :
    Wired (b.peerConnected p recvQueue ⟨[], none⟩) where
  isOpen := by
    intro wire hw
    rcases List.mem_append.mp hw with hw | hw
    · exact h.isOpen wire hw
    · rw [List.mem_singleton.mp hw]
  bound := by
    intro q s hq
    change (b.subscribers.insert p ⟨[], b.wires.length⟩).lookup q = some s at hq
    change s.sendQueue < (b.wires ++ [_]).length
    rw [List.length_append, List.length_singleton]
    by_cases hp : q = p
    · subst hp
      rw [AList.lookup_insert] at hq
      cases hq
      exact Nat.lt_succ_self _
    · rw [AList.lookup_insert_ne hp] at hq
      exact Nat.lt_succ_of_lt (h.bound q s hq)
  owner := by
    intro q q' s s' hq hq' hs
    change (b.subscribers.insert p ⟨[], b.wires.length⟩).lookup q = some s at hq
    change (b.subscribers.insert p ⟨[], b.wires.length⟩).lookup q' = some s' at hq'
    by_cases hp : q = p
    · by_cases hp' : q' = p
      · rw [hp, hp']
      · subst hp
        rw [AList.lookup_insert] at hq
        rw [AList.lookup_insert_ne hp'] at hq'
        cases hq
        exact absurd hs (Nat.ne_of_gt (h.bound q' s' hq'))
    · rw [AList.lookup_insert_ne hp] at hq
      by_cases hp' : q' = p
      · subst hp'
        rw [AList.lookup_insert] at hq'
        cases hq'
        exact absurd hs (Nat.ne_of_lt (h.bound q s hq))
      · rw [AList.lookup_insert_ne hp'] at hq'
        exact h.owner q q' s s' hq hq' hs

omit [Target] in
theorem peerDisconnected (h : Wired b) (p : PeerIdentity) : Wired (b.peerDisconnected p) where
  isOpen := h.isOpen
  bound := by
    intro q s hq
    change (b.subscribers.erase p).lookup q = some s at hq
    exact h.bound q s (lookup_of_erase hq)
  owner := by
    intro q q' s s' hq hq' hs
    exact h.owner q q' s s' (lookup_of_erase hq) (lookup_of_erase hq') hs

end Wired

variable {calls : List (Call S)} {st st' : State S W N}

theorem sub_next {b b' : SubSocketBackend S W N} {call : Call S} (h : SubCalls.Inv calls b)
    (hn : SubCalls.next .xsub b call = some b') : SubCalls.Inv (calls ++ [call]) b' := by
  rcases SubCalls.next_cases h.isOpen hn with ⟨order, p, recvQueue, rfl, ho, rfl⟩ | hs
  · exact h.connect ho p recvQueue
  · exact h.sends hs

omit [Target] in
theorem held_eq_zero {subscribers : Subscribers}
    (h : (subscribers.entries.all fun entry => entry.2.subscriptions.isEmpty) = true) (t : Bytes) :
    held t subscribers = 0 := by
  rw [held, List.sum_eq_zero]
  intro n hn
  obtain ⟨entry, he, rfl⟩ := List.mem_map.mp hn
  have hnil := List.isEmpty_iff.mp (List.all_eq_true.mp h entry he)
  rw [hnil]
  rfl

theorem inv_next (h : Inv calls st) {a : Action S} (ha : orderly st a = true)
    (hn : next st a = some st') : Inv (calls ++ a.call?.toList) st' := by
  cases a with
  | downConnect p recvQueue =>
    cases hn
    change Inv (calls ++ []) _
    rw [List.append_nil]
    refine ⟨h.sub, h.wired.peerConnected p recvQueue, ?_⟩
    intro before order q after hl t
    refine Nat.le_trans ?_ (h.covered before order q after hl t)
    exact (held_insert t _ p ⟨[], _⟩).le.trans ((Nat.zero_add _).le.trans (held_erase_le t _ p))
  | downDisconnect p =>
    cases hn
    change Inv (calls ++ []) _
    rw [List.append_nil]
    refine ⟨h.sub, h.wired.peerDisconnected p, ?_⟩
    intro before order q after hl t
    exact (held_erase_le t _ p).trans (h.covered before order q after hl t)
  | recv p m =>
    simp only [next] at hn
    split at hn
    · rename_i hhand
      cases hn
      change Inv (calls ++ []) _
      rw [List.append_nil]
      refine ⟨h.sub, h.wired.messageReceived p _, ?_⟩
      intro before order q after hl t
      have hcovered := h.covered before order q after hl t
      rw [handChange, hhand, Option.bind_none, Option.toList_none, List.append_nil] at hcovered
      rw [changesOf_append]
      refine held_messageReceived t ?_ hcovered
      intro t' ht'
      rw [orderly, ht'] at ha
      exact List.contains_iff_mem.mp ha
    · cases hn
  | forward targets m =>
    simp only [next] at hn
    split at hn
    · rename_i hhand
      obtain ⟨xsub, hs, rfl⟩ := Option.map_eq_some_iff.mp hn
      refine ⟨sub_next h.sub hs, h.wired, ?_⟩
      intro before order q after hl t
      -- what was in hand is the last that the publishers were told
      rcases SubCalls.Inv.lastConnect_concat hl with ⟨recvQueue, hc, -, -⟩ | ⟨-, after', rfl, hl'⟩
      · cases hc
      · have hcovered := h.covered before order q after' hl' t
        rw [handChange, hhand] at hcovered
        rw [SubCalls.told_concat, handChange, Option.bind_none, Option.toList_none, List.append_nil]
        exact hcovered
    · cases hn
  | upConnect order q recvQueue =>
    obtain ⟨xsub, hs, rfl⟩ := Option.map_eq_some_iff.mp hn
    refine ⟨sub_next h.sub hs, h.wired, ?_⟩
    intro before order' q' after hl t
    rcases SubCalls.Inv.lastConnect_concat hl with ⟨recvQueue', hc, -, rfl⟩ | ⟨-, after', rfl, hl'⟩
    · rw [held_eq_zero ha t]
      exact Nat.zero_le _
    · have hcovered := h.covered before order' q' after' hl' t
      rw [SubCalls.told_concat, Call.change, Option.toList_none, List.append_nil]
      exact hcovered

theorem inv_of_run {as : List (Action S)}
    (h : (system.guarded fun st a => orderly st a = true).run system.init as = some st) :
    Inv (as.filterMap Action.call?) st := by
  refine Lib.System.run_history (P := fun as st => Inv (as.filterMap Action.call?) st)
    (system.guarded fun st a => orderly st a = true) ?_ ?_ h
  · refine ⟨@SubCalls.inv_of_run _ _ _ _ .xsub [] _ rfl, ?_, ?_⟩
    · refine ⟨fun wire hw => absurd hw List.not_mem_nil, ?_, ?_⟩
      · intro p s hs
        cases hs
      · intro p p' s s' hs
        cases hs
    · intro before order q after hl t
      exact Nat.zero_le _
  · intro as st a st' hi hn
    obtain ⟨ha, hn⟩ := Lib.System.next_of_guarded hn
    rw [Lib.filterMap_append_singleton]
    exact inv_next hi ha hn

end Invariant

theorem Wired.send {b : XPubSocketBackend S W} (h : Wired b)
    {order : List (Sigma fun _ : PeerIdentity => Subscriber)}
    (ho : order.Perm b.subscribers.entries) {m : ZmqMessage} {firstFrame : Bytes}
    (hm : m.get 0 = some firstFrame) {p : PeerIdentity} {s : Subscriber} {out : Wire}
    (hp : b.subscribers.lookup p = some s) (hout : b.wires[s.sendQueue]? = some out) :
    (XPubSocket.send b order m).2.wires[s.sendQueue]? =
      some (if ∃ t ∈ s.subscriptions, t <+: firstFrame then out.push (.message m) else out) := by
  have hselects : ∀ s : Subscriber, XPubSocketBackend.selects s.subscriptions firstFrame = true ↔
      ∃ t ∈ s.subscriptions, t <+: firstFrame := fun s => any_filterMatches _ _
  have hqueues : ∀ entry ∈ order, b.subscribers.lookup entry.1 = some entry.2 := by
    intro entry he
    exact AList.mem_lookup_iff.mpr (ho.mem_iff.mp he)
  simp only [XPubSocket.send, hm]
  rw [SubCalls.fanoutLoop_open h.isOpen]
  simp only [List.foldl_nil, List.map_map]
  have hnodup : ((order.filter fun entry =>
      XPubSocketBackend.selects entry.2.subscriptions firstFrame).map
        fun entry => entry.2.sendQueue).Nodup := by
    refine List.Nodup.map_on ?_ ?_
    · intro entry he entry' he' hs
      have hl := hqueues entry (List.mem_filter.mp he).1
      have hl' := hqueues entry' (List.mem_filter.mp he').1
      have hkey := h.owner _ _ _ _ hl hl' hs
      rw [hkey] at hl
      exact Sigma.ext hkey (heq_of_eq (Option.some.inj (hl.symm.trans hl')))
    · exact ((ho.nodup_iff).mpr b.subscribers.nodupKeys.nodup).filter _
  split
  · rename_i hwants
    rw [Function.comp_def, SubCalls.getElem?_pushAll_of_mem _ hnodup, hout]
    · rfl
    · refine List.mem_map.mpr ⟨⟨p, s⟩, List.mem_filter.mpr ⟨?_, (hselects s).mpr hwants⟩, rfl⟩
      exact ho.mem_iff.mpr (AList.mem_lookup_iff.mp hp)
  · rename_i hwants
    rw [Function.comp_def, SubCalls.getElem?_pushAll_of_notMem, hout]
    intro hmem
    obtain ⟨entry, he, hs⟩ := List.mem_map.mp hmem
    obtain ⟨he, hsel⟩ := List.mem_filter.mp he
    have hl := hqueues entry he
    have hkey := h.owner _ _ _ _ hl hp hs
    rw [hkey] at hl
    rw [Option.some.inj (hl.symm.trans hp)] at hsel
    exact hwants ((hselects s).mp hsel)

/-- Behind a relay whose connections work and whose publishers stay, the subscribers get what they
would get from the publisher itself.  Between two messages of the relay, in every run in which
subscribers unsubscribe from what they hold and publishers are connected first: a publisher holds
each topic at least as often as all the subscribers do, so it passes on every message that one of
them wants, and the relay then sends it to those that hold a prefix of its first frame. -/
theorem relayed_as_direct [Target] {st : State S W N}
    (h : (system.guarded fun st a => orderly st a = true).Reachable st) (hhand : st.hand = none)
    {q : PeerIdentity} {c : Nat} {wire : Wire} (hq : st.xsub.peers.lookup q = some c)
    (hw : st.xsub.wires[c]? = some wire) (pub : Publisher Unit Unit) (me : PeerIdentity)
    (w : Wire) {m : ZmqMessage} {firstFrame : Bytes} (hm : m.get 0 = some firstFrame)
    {order : List (Sigma fun _ : PeerIdentity => Subscriber)}
    (ho : order.Perm st.xpub.subscribers.entries) :
    let publisher := (pub.peerConnected me () w).hears me wire.sent
    let relayed := if publisher.accepts me firstFrame then (XPubSocket.send st.xpub order m).2
      else st.xpub
    (∀ t, held t st.xpub.subscribers ≤ (publisher.subscriptions me).count t) ∧
      ∀ p s out, st.xpub.subscribers.lookup p = some s → st.xpub.wires[s.sendQueue]? = some out →
        relayed.wires[s.sendQueue]? =
          some (if ∃ t ∈ s.subscriptions, t <+: firstFrame then out.push (.message m)
            else out) := by
  intro publisher relayed
  obtain ⟨as, h⟩ := h
  have hi := inv_of_run h
  have hheld : ∀ t, held t st.xpub.subscribers ≤ (publisher.subscriptions me).count t := by
    intro t
    obtain ⟨before, order, after, hl⟩ := hi.sub.known q c hq
    obtain ⟨c', wire', hc', hw', hs, -⟩ := hi.sub.entry before order q after hl
    obtain rfl : c = c' := Option.some.inj (hq.symm.trans hc')
    obtain rfl : wire = wire' := Option.some.inj (hw.symm.trans hw')
    have hcovered := hi.covered before order q after hl t
    rw [handChange, hhand, Option.bind_none, Option.toList_none, List.append_nil, ← hs] at hcovered
    rwa [Publisher.subscriptions_hears, count_foldl_applyToList]
  refine ⟨hheld, ?_⟩
  intro p s out hp hout
  by_cases hpasses : publisher.accepts me firstFrame = true
  · simp only [relayed, if_pos hpasses]
    exact hi.wired.send ho hm hp hout
  · simp only [relayed, if_neg hpasses]
    rw [if_neg, hout]
    rintro ⟨t, ht, hpre⟩
    apply hpasses
    rw [Publisher.accepts_eq_any, any_filterMatches]
    refine ⟨t, ?_, hpre⟩
    rw [← List.count_pos_iff]
    refine Nat.lt_of_lt_of_le ?_ (hheld t)
    rw [held_of_lookup t hp]
    exact Nat.lt_of_lt_of_le (List.count_pos_iff.mpr ht) (Nat.le_add_right _ _)

deriving instance DecidableEq for Wire, Subscriber

def sharedTopic (p r q : PeerIdentity) : List (Action Unit) :=
  [.upConnect [] q (), .downConnect p (), .downConnect r (), .recv p ⟨[[1, 97]]⟩,
    .forward [⟨q, 0⟩] ⟨[[1, 97]]⟩, .recv r ⟨[[1, 97]]⟩, .forward [⟨q, 0⟩] ⟨[[1, 97]]⟩,
    .recv r ⟨[[0, 97]]⟩, .forward [⟨q, 0⟩] ⟨[[0, 97]]⟩]

theorem relayed_as_direct_sharedTopic :
    letI := Target.x64
    let p : PeerIdentity := .ofByte 1
    let r : PeerIdentity := .ofByte 2
    let q : PeerIdentity := .ofByte 3
    let pub : Publisher Unit Unit := .pub ⟨∅, 0, none, []⟩
    let m : ZmqMessage := ⟨[[97, 98]]⟩
    ∃ (st : State Unit Unit Unit) (wire : Wire) (order : List (Sigma fun _ => Subscriber)),
      (system.guarded fun st a => orderly st a = true).run system.init (sharedTopic p r q) =
        some st ∧
      order.Perm st.xpub.subscribers.entries ∧
      st.xpub.subscribers.lookup p = some ⟨[[97]], 0⟩ ∧ st.xpub.wires[0]? = some ⟨[], none⟩ ∧
      ((pub.peerConnected q () wire).hears q wire.sent).accepts q [97, 98] = true ∧
      (if ((pub.peerConnected q () wire).hears q wire.sent).accepts q [97, 98] = true then
        (XPubSocket.send st.xpub order m).2 else st.xpub).wires[0]? =
          some ⟨[.message m], none⟩ := by
  let _ := Target.x64
  intro p r q pub m
  have hrun : ((system.guarded fun st a => orderly st a = true).run
      (system.init : State Unit Unit Unit) (sharedTopic p r q)).any fun st =>
      st.hand = none ∧ st.xsub.peers.lookup q = some 0 ∧
        st.xpub.subscribers.lookup p = some ⟨[[97]], 0⟩ ∧ st.xpub.wires[0]? = some ⟨[], none⟩ ∧
        st.xsub.wires[0]?.any (fun wire =>
          ((pub.peerConnected q () wire).hears q wire.sent).accepts q [97, 98] = true) := by
    decide +kernel
  obtain ⟨st, hst, h⟩ := (Option.any_eq_true _ _).mp hrun
  obtain ⟨hhand, hq, hp, hout, hw⟩ := of_decide_eq_true h
  obtain ⟨wire, hw, haccepts⟩ := (Option.any_eq_true _ _).mp hw
  refine ⟨st, wire, st.xpub.subscribers.entries, hst, .refl _, hp, hout,
    of_decide_eq_true haccepts, ?_⟩
  have hrelayed := (relayed_as_direct ⟨_, hst⟩ hhand hq hw pub q wire (m := m) rfl (.refl _)).2 p _ _
    hp hout
  have hwanted : ∃ t ∈ [[97]], t <+: ([97, 98] : Bytes) := by decide
  exact hrelayed.trans (congrArg some (if_pos hwanted))

end Relay

end ZmqRs
