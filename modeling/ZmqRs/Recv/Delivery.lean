import ZmqRs.Recv

/-! What `recv` returns from one peer.  A peer is followed through the system by
its `Link`; `Link.Step` is all that a step can do to it, and the receive contract
is an invariant of those steps. -/

namespace ZmqRs.Recv

open Codec

variable [Target] {W : Type}

def messages (items : List Item) : List ZmqMessage :=
  items.filterMap fun
    | .ok (.message m) => some m
    | _ => none

omit [Target] in
@[simp] theorem messages_append (is js : List Item) :
    messages (is ++ js) = messages is ++ messages js :=
  List.filterMap_append

omit [Target] in
theorem decodeItem_ready (item : Item) :
    ZmqFramedRead.decodeItem (.ready (some item)) = none ∨
      ZmqFramedRead.decodeItem (.ready (some item)) = some item := by
  rcases item with (e | _) | m
  · cases e <;> simp [ZmqFramedRead.decodeItem]
  · exact .inr rfl
  · exact .inr rfl

omit [Target] in
theorem messages_decodeItem (item : Item) :
    messages (ZmqFramedRead.decodeItem (.ready (some item))).toList = messages [item] := by
  rcases item with (e | _) | m
  · cases e <;> rfl
  · rfl
  · rfl

/-- The reader stands where a fresh decoder stands that was called on the
delivered bytes and returned `decoded`, whatever bytes follow. -/
structure Traces (options : SocketOptions) (delivered : Bytes) (decoded : List Item)
    (r : ZmqFramedRead) : Prop where
  valid : r.codec.Valid
  calls : ∀ n more,
    (ZmqCodec.withOptions options).decodeCalls (decoded.length + n) (delivered ++ more) =
      decoded ++ r.codec.decodeCalls n (r.buffer ++ more)

section Traces

variable {options : SocketOptions} {delivered : Bytes} {decoded : List Item} {r : ZmqFramedRead}

theorem Traces.new (options : SocketOptions) : Traces options [] [] (.new options) where
  valid := ZmqCodec.valid_withOptions options
  calls n more := by
    rw [List.length_nil, Nat.zero_add]
    rfl

theorem Traces.pollNext (ht : Traces options delivered decoded r) (reads : List PollRead) :
    Traces options (delivered ++ (r.pollNext reads).taken)
      (decoded ++ (ZmqFramedRead.decodeItem (r.pollNext reads).result).toList)
      (r.pollNext reads).reader := by
  have hp := ZmqFramedRead.pollNext_decodesTo ht.valid reads
  generalize r.pollNext reads = p at hp ⊢
  refine ⟨ZmqCodec.valid_decode ht.valid hp, fun n more => ?_⟩
  rw [ZmqFramedRead.DecodesTo, ZmqFramedRead.replyOf] at hp
  rw [List.append_assoc]
  rcases hi : ZmqFramedRead.decodeItem p.result with _ | e | m <;> rw [hi] at hp
  · have hc := ZmqCodec.decode_append_none more ht.valid hp
    rw [Option.toList_none, List.append_nil, ht.calls n, ← List.append_assoc]
    congr 1
    exact ZmqCodec.machine.calls_congr_next n hc
  · have hc := ZmqCodec.decode_append more ht.valid hp (by simp)
    have h := ht.calls (n + 1) (p.taken ++ more)
    rw [Option.toList_some, List.length_append, List.length_singleton, Nat.add_assoc,
      Nat.add_comm 1, h, ← List.append_assoc, List.append_assoc decoded]
    congr 1
    exact ZmqCodec.machine.calls_error n hc
  · have hc := ZmqCodec.decode_append more ht.valid hp (by simp)
    have h := ht.calls (n + 1) (p.taken ++ more)
    rw [Option.toList_some, List.length_append, List.length_singleton, Nat.add_assoc,
      Nat.add_comm 1, h, ← List.append_assoc, List.append_assoc decoded]
    congr 1
    exact ZmqCodec.machine.calls_item n hc

theorem Traces.pollMany (ht : Traces options delivered decoded r) (n : Nat)
    (reads : List PollRead) :
    Traces options (delivered ++ (ZmqFramedRead.pollMany n r reads).taken)
      (decoded ++ ZmqFramedRead.items (ZmqFramedRead.pollMany n r reads))
      (ZmqFramedRead.pollMany n r reads).reader := by
  induction n generalizing delivered decoded r reads with
  | zero => simpa [ZmqFramedRead.pollMany, ZmqFramedRead.items] using ht
  | succ n ih =>
    have h := ih (ht.pollNext reads) (r.pollNext reads).reads
    rw [ZmqFramedRead.pollMany]
    rw [ZmqFramedRead.items] at h ⊢
    rw [List.append_assoc, List.append_assoc] at h
    cases hi : ZmqFramedRead.decodeItem (r.pollNext reads).result with
    | none => simpa [hi, List.filterMap_cons, ZmqFramedRead.items] using h
    | some i => simpa [hi, List.filterMap_cons, ZmqFramedRead.items] using h

theorem waits_of_pending (hv : r.codec.Valid) {reads : List PollRead}
    (h : (r.pollNext reads).result = .pending) :
    (r.pollNext reads).reader.codec.turn (r.pollNext reads).reader.buffer = .wait := by
  have hp := ZmqFramedRead.pollNext_decodesTo hv reads
  rw [ZmqFramedRead.DecodesTo, h] at hp
  exact ZmqCodec.turn_of_decode_none hp

theorem Traces.messages_prefix (ht : Traces options delivered decoded r) {stream : Bytes}
    (hs : delivered <+: stream) :
    messages decoded <+:
      messages ((ZmqCodec.withOptions options).decodeCalls decoded.length stream) := by
  obtain ⟨more, rfl⟩ := hs
  have h := ht.calls 0 more
  rw [Nat.add_zero] at h
  rw [h, messages_append]
  exact List.prefix_append _ _

end Traces

/-- A peer as the system sees it: its stream in the queue's map or taken out for
polling, what it sent, what was returned from it, and a result that `recv` has
not looked at yet. -/
structure Link where
  connected : Prop
  stored : Option (FairQueue.Held ZmqFramedRead)
  hand : Option ZmqFramedRead
  delivered : Bytes
  decoded : List Item
  returned : List ZmqMessage
  unhandled : Option Item

def handOf (p : PeerIdentity) :
    FairQueue.Consumer ZmqFramedRead PeerIdentity W Item → Option ZmqFramedRead
  | .polling _ _ k held _ => if k = p then some held.stream else none
  | _ => none

def unhandledOf (p : PeerIdentity) :
    Pc W → FairQueue.Consumer ZmqFramedRead PeerIdentity W Item → Option Item
  | .polling _, .idle (some (_, .ready (some (k, i)))) => if k = p then some i else none
  | _, _ => none

theorem unhandledOf_inside {p : PeerIdentity} (pc : Pc W)
    {consumer : FairQueue.Consumer ZmqFramedRead PeerIdentity W Item}
    (h : ∀ last, consumer ≠ .idle last) : unhandledOf p pc consumer = none := by
  cases consumer with
  | idle last => exact absurd rfl (h last)
  | _ => cases pc <;> rfl

@[simp] theorem unhandledOf_done {p : PeerIdentity}
    (consumer : FairQueue.Consumer ZmqFramedRead PeerIdentity W Item) :
    unhandledOf p .done consumer = none := rfl

@[simp] theorem unhandledOf_again {p : PeerIdentity} (task : W)
    (consumer : FairQueue.Consumer ZmqFramedRead PeerIdentity W Item) :
    unhandledOf p (.again task) consumer = none := rfl

theorem unhandledOf_pending {p : PeerIdentity} (pc : Pc W) (task : W) :
    unhandledOf p pc (.idle (some (task, .pending))) = none := by
  cases pc <;> rfl

def messagesFrom (p : PeerIdentity)
    (returned : List (Option PeerIdentity × Res ZmqError ZmqMessage)) : List ZmqMessage :=
  returned.filterMap fun
    | (some q, .ok m) => if q = p then some m else none
    | _ => none

def Core.link (c : Core W) (p : PeerIdentity) : Link where
  connected := p ∈ c.connected
  stored := c.queue.inner.streams.lookup p
  hand := handOf p c.queue.consumer
  delivered := c.delivered p
  decoded := c.decoded p
  returned := messagesFrom p c.returned
  unhandled := unhandledOf p c.pc c.queue.consumer

namespace Link

def record (k : Link) (polled : ZmqFramedRead.Polled) : Link :=
  { k with
    hand := none
    delivered := k.delivered ++ polled.taken
    decoded := k.decoded ++ (ZmqFramedRead.decodeItem polled.result).toList }

def handle (l : Loop) (p : PeerIdentity) (k : Link) (item : Item) : Link :=
  { k with
    unhandled := none
    returned := k.returned ++ (messages [item]).map (l.deliver p)
    stored := match item with
      | .error _ => if l.disconnects then none else k.stored
      | .ok _ => k.stored }

inductive Step (l : Loop) (options : SocketOptions) (p : PeerIdentity) : Link → Link → Prop
  | same (k : Link) : Step l options p k k
  | lost (k : Link) : Step l options p k { k with stored := none }
  | connect (k : Link) (n : Nat) (reads : List PollRead) (hc : ¬ k.connected)
      (hh : handshaken (ZmqFramedRead.pollMany n (.new options) reads)) :
      Step l options p k
        { k with
          connected := True
          stored := some ⟨(ZmqFramedRead.pollMany n (.new options) reads).reader, none⟩
          delivered := (ZmqFramedRead.pollMany n (.new options) reads).taken
          decoded := ZmqFramedRead.items (ZmqFramedRead.pollMany n (.new options) reads) }
  | take (k : Link) (held : FairQueue.Held ZmqFramedRead) (hs : k.stored = some held)
      (hu : k.unhandled = none) :
      Step l options p k { k with stored := none, hand := some held.stream }
  | yield (k : Link) (r : ZmqFramedRead) (reads : List PollRead) (item : Item)
      (hr : k.hand = some r) (hp : (r.pollNext reads).result = .ready (some item)) :
      Step l options p k
        { k.record (r.pollNext reads) with
          stored := some ⟨(r.pollNext reads).reader, none⟩, unhandled := some item }
  | ended (k : Link) (r : ZmqFramedRead) (reads : List PollRead) (hr : k.hand = some r)
      (hp : (r.pollNext reads).result = .ready none) :
      Step l options p k (k.record (r.pollNext reads))
  | pending (k : Link) (r : ZmqFramedRead) (reads : List PollRead) (w : Nat)
      (hr : k.hand = some r) (hp : (r.pollNext reads).result = .pending) :
      Step l options p k
        { k.record (r.pollNext reads) with stored := some ⟨(r.pollNext reads).reader, some w⟩ }
  | handle (k : Link) (item : Item) (hu : k.unhandled = some item) :
      Step l options p k (k.handle l p item)

def fresh : Link := ⟨False, none, none, [], [], [], none⟩

structure Ok (l : Loop) (options : SocketOptions) (p : PeerIdentity) (k : Link) : Prop where
  idle : ¬ k.connected → k = fresh
  apart : k.hand ≠ none → k.stored = none ∧ k.unhandled = none
  traces : ∃ r, Traces options k.delivered k.decoded r ∧
    (∀ held, k.stored = some held →
      held.stream = r ∧ (held.pendingWaker ≠ none → r.codec.turn r.buffer = .wait)) ∧
    (∀ r', k.hand = some r' → r' = r)
  returned : (messages k.decoded).map (l.deliver p) =
    k.returned ++ (messages k.unhandled.toList).map (l.deliver p)
  broken : l.disconnects = true →
    (∃ is : List Message, k.decoded = is.map .ok) ∨
    (∃ (is : List Message) (e : Fault CodecError), k.decoded = is.map .ok ++ [.error e]) ∧ k.hand = none ∧
      (k.stored = none ∨ ∃ e, k.unhandled = some (.error e))

variable {l : Loop} {options : SocketOptions} {p : PeerIdentity} {k k' : Link}

theorem ok_fresh : fresh.Ok l options p where
  idle _ := rfl
  apart h := absurd rfl h
  traces := ⟨_, .new options, by simp [fresh], by simp [fresh]⟩
  returned := by simp [fresh, messages]
  broken _ := .inl ⟨[], rfl⟩

theorem Ok.lost (hk : k.Ok l options p) : Ok l options p { k with stored := none } where
  idle h := by
    have := hk.idle h
    subst this
    rfl
  apart h := ⟨rfl, (hk.apart h).2⟩
  traces := by
    obtain ⟨r, ht, -, hh⟩ := hk.traces
    exact ⟨r, ht, by simp, hh⟩
  returned := hk.returned
  broken h := by
    rcases hk.broken h with h | ⟨h₁, h₂, -⟩
    · exact .inl h
    · exact .inr ⟨h₁, h₂, .inl rfl⟩

theorem items_of_handshaken {run : ZmqFramedRead.Run} (h : handshaken run = true) :
    ∃ g c, ZmqFramedRead.items run = [.ok (.greeting g), .ok (.command c)] := by
  have hf : ZmqFramedRead.items run =
      (run.results.filterMap Poll.toOption).filterMap fun i => ZmqFramedRead.decodeItem (.ready i) := by
    rw [List.filterMap_filterMap, ZmqFramedRead.items]
    congr 1
    funext p
    cases p <;> rfl
  rw [handshaken] at h
  split at h
  · rename_i g c hr
    exact ⟨g, c, by rw [hf, hr]; rfl⟩
  · cases h

theorem Ok.connect (hk : k.Ok l options p) (n : Nat) (reads : List PollRead)
    (hc : ¬ k.connected)
    (hh : handshaken (ZmqFramedRead.pollMany n (.new options) reads)) :
    Ok l options p
      { k with
        connected := True
        stored := some ⟨(ZmqFramedRead.pollMany n (.new options) reads).reader, none⟩
        delivered := (ZmqFramedRead.pollMany n (.new options) reads).taken
        decoded := ZmqFramedRead.items (ZmqFramedRead.pollMany n (.new options) reads) } := by
  obtain rfl := hk.idle hc
  obtain ⟨g, c, hi⟩ := items_of_handshaken hh
  refine ⟨by simp, by simp [fresh], ?_, ?_, fun _ => .inl ⟨[.greeting g, .command c], hi⟩⟩
  · have ht := (Traces.new options).pollMany n reads
    rw [List.nil_append, List.nil_append] at ht
    refine ⟨_, ht, ?_, by simp [fresh]⟩
    rintro held ⟨⟩
    simp
  · dsimp only
    rw [hi]
    simp [messages, fresh]

theorem Ok.take (hk : k.Ok l options p) (held : FairQueue.Held ZmqFramedRead)
    (hs : k.stored = some held) (hu : k.unhandled = none) :
    Ok l options p { k with stored := none, hand := some held.stream } := by
  obtain ⟨r, ht, hst, -⟩ := hk.traces
  refine ⟨?_, fun _ => ⟨rfl, hu⟩, ⟨r, ht, by simp, ?_⟩, hk.returned, ?_⟩
  · intro h
    have := hk.idle h
    subst this
    simp [fresh] at hs
  · rintro r' ⟨⟩
    exact (hst held hs).1
  · intro h
    rcases hk.broken h with h | ⟨-, -, h | ⟨e, h⟩⟩
    · exact .inl h
    · simp [hs] at h
    · simp [hu] at h

theorem Ok.record (hk : k.Ok l options p) {r : ZmqFramedRead} (hr : k.hand = some r)
    (reads : List PollRead) :
    Traces options (k.record (r.pollNext reads)).delivered (k.record (r.pollNext reads)).decoded
        (r.pollNext reads).reader ∧
      k.connected ∧ k.stored = none ∧ k.unhandled = none ∧
      (l.disconnects = true → ∃ is : List Message, k.decoded = is.map .ok) := by
  obtain ⟨r', ht, -, hh⟩ := hk.traces
  obtain rfl := hh r hr
  obtain ⟨hs, hu⟩ := hk.apart (by simp [hr])
  refine ⟨ht.pollNext reads, ?_, hs, hu, ?_⟩
  · by_contra hc
    have := hk.idle hc
    subst this
    simp [fresh] at hr
  · intro h
    rcases hk.broken h with h | ⟨-, h, -⟩
    · exact h
    · simp [hr] at h

theorem Ok.yield (hk : k.Ok l options p) {r : ZmqFramedRead} (reads : List PollRead) {item : Item}
    (hr : k.hand = some r) (hp : (r.pollNext reads).result = .ready (some item)) :
    Ok l options p
      { k.record (r.pollNext reads) with
        stored := some ⟨(r.pollNext reads).reader, none⟩, unhandled := some item } := by
  obtain ⟨ht, hc, hs, hu, hb⟩ := hk.record hr reads
  refine ⟨by simp [Link.record, hc], by simp [Link.record], ⟨_, ht, ?_, by simp [Link.record]⟩, ?_, ?_⟩
  · rintro held ⟨⟩
    simp
  · have h := hk.returned
    rw [hu, Option.toList_none, show messages [] = [] from rfl, List.map_nil, List.append_nil] at h
    dsimp only [Link.record]
    rw [hp, messages_append, messages_decodeItem, List.map_append, h]
    rfl
  · intro h
    obtain ⟨is, hd⟩ := hb h
    dsimp only [Link.record]
    rw [hp, hd]
    rcases decodeItem_ready item with hn | hn <;> rw [hn]
    · exact .inl ⟨is, by simp⟩
    · cases item with
      | ok m => exact .inl ⟨is ++ [m], by simp⟩
      | error e => exact .inr ⟨⟨is, e, rfl⟩, rfl, .inr ⟨e, rfl⟩⟩

theorem Ok.ended (hk : k.Ok l options p) {r : ZmqFramedRead} (reads : List PollRead)
    (hr : k.hand = some r) (hp : (r.pollNext reads).result = .ready none) :
    Ok l options p (k.record (r.pollNext reads)) := by
  obtain ⟨ht, hc, hs, hu, hb⟩ := hk.record hr reads
  refine ⟨by simp [Link.record, hc], by simp [Link.record],
    ⟨_, ht, by simp [Link.record, hs], by simp [Link.record]⟩, ?_, ?_⟩
  · simpa [Link.record, hp, ZmqFramedRead.decodeItem] using hk.returned
  · intro h
    obtain ⟨is, hd⟩ := hb h
    exact .inl ⟨is, by simpa [Link.record, hp, ZmqFramedRead.decodeItem] using hd⟩

theorem Ok.pending (hk : k.Ok l options p) {r : ZmqFramedRead} (reads : List PollRead) (w : Nat)
    (hr : k.hand = some r) (hp : (r.pollNext reads).result = .pending) :
    Ok l options p
      { k.record (r.pollNext reads) with stored := some ⟨(r.pollNext reads).reader, some w⟩ } := by
  obtain ⟨ht, hc, hs, hu, hb⟩ := hk.record hr reads
  refine ⟨by simp [Link.record, hc], by simp [Link.record],
    ⟨_, ht, ?_, by simp [Link.record]⟩, ?_, ?_⟩
  · rintro held ⟨⟩
    obtain ⟨r', ht', -, hh⟩ := hk.traces
    obtain rfl := hh r hr
    exact ⟨rfl, fun _ => waits_of_pending ht'.valid hp⟩
  · simpa [Link.record, hp, ZmqFramedRead.decodeItem] using hk.returned
  · intro h
    obtain ⟨is, hd⟩ := hb h
    exact .inl ⟨is, by simpa [Link.record, hp, ZmqFramedRead.decodeItem] using hd⟩

theorem Ok.handle (hk : k.Ok l options p) {item : Item} (hu : k.unhandled = some item) :
    Ok l options p (k.handle l p item) := by
  have hh : k.hand = none := by
    by_contra h
    simp [(hk.apart h).2] at hu
  refine ⟨?_, by simp [Link.handle, hh], ?_, ?_, ?_⟩
  · intro h
    have := hk.idle h
    subst this
    simp [fresh] at hu
  · obtain ⟨r, ht, hst, -⟩ := hk.traces
    refine ⟨r, ht, ?_, by simp [Link.handle, hh]⟩
    intro held hs
    apply hst
    simp only [Link.handle] at hs
    split at hs
    · split at hs
      · cases hs
      · exact hs
    · exact hs
  · have h := hk.returned
    rw [hu] at h
    simpa [Link.handle, messages] using h
  · intro h
    rcases hk.broken h with h' | ⟨h₁, -, h₂⟩
    · exact .inl h'
    · refine .inr ⟨h₁, hh, .inl ?_⟩
      simp only [Link.handle]
      rcases h₂ with h₂ | ⟨e, h₂⟩
      · split
        · rw [if_pos h]
        · exact h₂
      · obtain rfl : item = .error e := by simpa [hu] using h₂
        exact if_pos h

theorem Step.ok (hs : Step l options p k k') (hk : k.Ok l options p) : k'.Ok l options p := by
  cases hs with
  | same => exact hk
  | lost => exact hk.lost
  | connect n reads hc hh => exact hk.connect n reads hc hh
  | take held hs hu => exact hk.take held hs hu
  | yield r reads item hr hp => exact hk.yield reads hr hp
  | ended r reads hr hp => exact hk.ended reads hr hp
  | pending r reads w hr hp => exact hk.pending reads w hr hp
  | handle item hu => exact hk.handle hu

end Link

namespace Core

variable {l : Loop} {options : SocketOptions} {c c' : Core W}

structure Coordinated (c : Core W) : Prop where
  inside : (∃ last, c.queue.consumer = .idle last) ∨ ∃ task, c.pc = .polling task
  blocks : ∀ task sw r, c.queue.consumer = .returning task sw r → r = .pending

theorem Coordinated.polling (hco : c.Coordinated) (h : ∀ last, c.queue.consumer ≠ .idle last) :
    ∃ task, c.pc = .polling task :=
  hco.inside.resolve_left fun ⟨last, hl⟩ => h last hl

omit [Target] in
theorem noItem_block (q : QueueInner S K W) :
    (FairQueue.noItem true q : Poll (Option (K × T))) = .pending := by
  simp [FairQueue.noItem]

theorem link_setQueue (c : Core W) (q : FairQueue.State ZmqFramedRead PeerIdentity W Item)
    (p : PeerIdentity) :
    link { c with queue := q } p =
      { c.link p with
        stored := q.inner.streams.lookup p
        hand := handOf p q.consumer
        unhandled := unhandledOf p c.pc q.consumer } := rfl

theorem step_same {k : Link} {p : PeerIdentity} (ha : a = k.stored) (hb : b = k.hand)
    (hu : u = k.unhandled) :
    Link.Step l options p k { k with stored := a, hand := b, unhandled := u } := by
  subst ha hb hu
  exact .same k

theorem step_lost {k : Link} {p : PeerIdentity} (ha : a = none) (hb : b = k.hand)
    (hu : u = k.unhandled) :
    Link.Step l options p k { k with stored := a, hand := b, unhandled := u } := by
  subst ha hb hu
  exact .lost k

theorem step_take {k : Link} {p : PeerIdentity} {held : FairQueue.Held ZmqFramedRead}
    (hs : k.stored = some held) (hn : k.unhandled = none) (ha : a = none)
    (hb : b = some held.stream) (hu : u = none) :
    Link.Step l options p k { k with stored := a, hand := b, unhandled := u } := by
  subst ha hb hu
  have h : Link.Step l options p k _ := .take k held hs hn
  rwa [hn] at h

theorem link_skip (hco : c.Coordinated) {e : ReadyEvent PeerIdentity} {task : W} {n : Nat}
    (p : PeerIdentity) (hc : c.queue.consumer = .looping task (n + 1))
    (hl : c.queue.inner.streams.lookup e.key = none) :
    let q := { c.queue with
      inner := { (c.queue.inner.take e).2 with waker := some task }
      consumer := .looping task n }
    Link.Step l options p (c.link p) (link { c with queue := q } p) ∧
      Coordinated { c with queue := q } := by
  have hh : (c.link p).hand = none := by simp [link, handOf, hc]
  have hu : (c.link p).unhandled = none := unhandledOf_inside _ (by simp [hc])
  refine ⟨?_, .inr (hco.polling (by simp [hc])), by simp⟩
  rw [link_setQueue c]
  refine step_same ?_ hh.symm ((unhandledOf_inside _ (by simp)).trans hu.symm)
  by_cases hk : p = e.key
  · subst hk
    exact (AList.lookup_erase _ _).trans hl.symm
  · exact AList.lookup_erase_ne hk

theorem link_take (hco : c.Coordinated) {e : ReadyEvent PeerIdentity} {task : W} {n w : Nat}
    {held : FairQueue.Held ZmqFramedRead} {wakers : List PeerIdentity} (p : PeerIdentity)
    (hc : c.queue.consumer = .looping task (n + 1))
    (hl : c.queue.inner.streams.lookup e.key = some held) :
    let q := { c.queue with
      inner := { (c.queue.inner.take e).2 with waker := some task }
      consumer := .polling task n e.key held w
      wakers := wakers }
    Link.Step l options p (c.link p) (link { c with queue := q } p) ∧
      Coordinated { c with queue := q } := by
  have hh : (c.link p).hand = none := by simp [link, handOf, hc]
  have hu : (c.link p).unhandled = none := unhandledOf_inside _ (by simp [hc])
  refine ⟨?_, .inr (hco.polling (by simp [hc])), by simp⟩
  rw [link_setQueue c]
  by_cases hk : p = e.key
  · subst hk
    exact step_take hl hu (AList.lookup_erase _ _) (by simp [handOf])
      (unhandledOf_inside _ (by simp))
  · exact step_same (AList.lookup_erase_ne hk) ((if_neg (Ne.symm hk)).trans hh.symm)
      ((unhandledOf_inside _ (by simp)).trans hu.symm)

theorem link_record_ne {p k : PeerIdentity} (hk : p ≠ k) (polled : ZmqFramedRead.Polled) :
    (c.record k polled).link p = c.link p := by
  simp only [link, record, Function.update_of_ne hk]

theorem link_record_self (c : Core W) (p : PeerIdentity) (polled : ZmqFramedRead.Polled)
    (q : FairQueue.State ZmqFramedRead PeerIdentity W Item) :
    link { c.record p polled with queue := q } p =
      { (c.link p).record polled with
        stored := q.inner.streams.lookup p
        hand := handOf p q.consumer
        unhandled := unhandledOf p c.pc q.consumer } := by
  simp only [link, record, Function.update_self]
  rfl

theorem link_polled (hco : c.Coordinated) {reads : List PollRead} (p : PeerIdentity)
    (h : c.next l options (.queue (.polled reads)) = some c') :
    Link.Step l options p (c.link p) (c'.link p) ∧ c'.Coordinated := by
  simp only [next] at h
  split at h
  · rename_i task n k held w hc
    obtain ⟨q, hq, rfl⟩ := Option.map_eq_some_iff.mp h
    obtain ⟨t, ht⟩ := hco.polling (by simp [hc])
    have hu : (c.link p).unhandled = none := unhandledOf_inside _ (by simp [hc])
    simp only [FairQueue.next, record, hc, poll] at hq
    by_cases hk : p = k
    · subst hk
      have hr : (c.link p).hand = some held.stream := by simp [link, handOf, hc]
      rw [link_record_self c]
      split at hq <;> cases hq
      · rename_i item s hs
        obtain ⟨hp, rfl⟩ := Prod.mk.inj hs
        refine ⟨?_, .inl ⟨_, rfl⟩, by simp⟩
        have : Link.Step l options p _ _ := .yield _ _ reads item hr hp
        simpa [handOf, unhandledOf, ht, QueueInner.putBack, Link.record] using this
      · rename_i s hs
        obtain ⟨hp, rfl⟩ := Prod.mk.inj hs
        refine ⟨?_, .inr ⟨t, ht⟩, by simp⟩
        have : Link.Step l options p _ _ := .ended _ _ reads hr hp
        have hin : unhandledOf p c.pc (.ended task n p) = none := unhandledOf_inside c.pc (by simp)
        rwa [Link.record, hu, ← hin] at this
      · rename_i s hs
        obtain ⟨hp, rfl⟩ := Prod.mk.inj hs
        refine ⟨?_, .inr ⟨t, ht⟩, by simp⟩
        have : Link.Step l options p _ _ := .pending _ _ reads w hr hp
        simpa [handOf, unhandledOf, ht, QueueInner.putBack, Link.record, hu] using this
    · have hh : (c.link p).hand = none := by simp [link, handOf, hc, Ne.symm hk]
      have hs : ∀ held, (c.queue.inner.putBack k held).streams.lookup p = (c.link p).stored :=
        fun held => AList.lookup_insert_ne hk
      rw [link_setQueue (c.record k _), link_record_ne hk]
      split at hq <;> cases hq
      · refine ⟨step_same ?_ hh.symm ?_, .inl ⟨_, rfl⟩, by simp⟩
        · simpa using hs _
        · rw [hu, record, ht]
          exact if_neg (Ne.symm hk)
      · exact ⟨step_same rfl hh.symm ((unhandledOf_inside _ (by simp)).trans hu.symm),
          .inr ⟨t, ht⟩, by simp⟩
      · exact ⟨step_same (hs _) hh.symm ((unhandledOf_inside _ (by simp)).trans hu.symm),
          .inr ⟨t, ht⟩, by simp⟩
  · cases h

theorem link_queueNext (hco : c.Coordinated)
    {a : FairQueue.Action ZmqFramedRead PeerIdentity W (List PollRead)} (p : PeerIdentity)
    (hins : ∀ k s, a ≠ .insert k s) (hnext : ∀ task, a ≠ .pollNext task)
    (hpoll : ∀ reads, a ≠ .polled reads) (h : c.queueNext a = some c') :
    Link.Step l options p (c.link p) (c'.link p) ∧ c'.Coordinated := by
  obtain ⟨q, hq, rfl⟩ := Option.map_eq_some_iff.mp h
  cases FairQueue.stepped hq with
  | insert k s => exact absurd rfl (hins k s)
  | pollNext task hc => exact absurd rfl (hnext task)
  | item hc hp => exact absurd rfl (hpoll _)
  | ended hc hp => exact absurd rfl (hpoll _)
  | pending hc hp => exact absurd rfl (hpoll _)
  | remove k =>
    rw [link_setQueue c]
    refine ⟨?_, hco.inside, hco.blocks⟩
    by_cases hk : p = k
    · subst hk
      exact step_lost (AList.lookup_erase _ _) rfl rfl
    · exact step_same (AList.lookup_erase_ne hk) rfl rfl
  | clear hc =>
    rw [link_setQueue c]
    exact ⟨step_lost rfl rfl rfl, hco.inside, hco.blocks⟩
  | wake hw =>
    rw [link_setQueue c]
    exact ⟨step_same (by simp [QueueInner.wake]) rfl rfl, hco.inside, hco.blocks⟩
  | skip hc hg hl => exact link_skip hco p hc hl
  | take hc hg hl => exact link_take hco p hc hl
  | popNone hc he =>
    have hu : (c.link p).unhandled = none := unhandledOf_inside _ (by simp [hc])
    rw [link_setQueue c, noItem_block]
    exact ⟨step_same rfl (by simp [handOf, hc]) ((unhandledOf_pending _ _).trans hu.symm),
      .inl ⟨_, rfl⟩, by simp⟩
  | resume hc =>
    have hu : (c.link p).unhandled = none := unhandledOf_inside _ (by simp [hc])
    rw [link_setQueue c]
    exact ⟨step_same rfl (by simp [handOf, hc])
      ((unhandledOf_inside _ (by simp)).trans hu.symm), .inr (hco.polling (by simp [hc])), by simp⟩
  | exit hc =>
    have hu : (c.link p).unhandled = none := unhandledOf_inside _ (by simp [hc])
    rw [link_setQueue c]
    refine ⟨step_same rfl (by simp [handOf, hc])
      ((unhandledOf_inside _ (by simp)).trans hu.symm), .inr (hco.polling (by simp [hc])), ?_⟩
    intro task sw r hr
    obtain ⟨-, -, rfl⟩ := FairQueue.Consumer.returning.inj hr
    exact noItem_block _
  | finish hc =>
    have hu : (c.link p).unhandled = none := unhandledOf_inside _ (by simp [hc])
    obtain rfl := hco.blocks _ _ _ hc
    rw [link_setQueue c]
    exact ⟨step_same rfl (by simp [handOf, hc]) ((unhandledOf_pending _ _).trans hu.symm),
      .inl ⟨_, rfl⟩, by simp⟩

theorem link_queue (hco : c.Coordinated)
    {a : FairQueue.Action ZmqFramedRead PeerIdentity W (List PollRead)} (p : PeerIdentity)
    (h : c.next l options (.queue a) = some c') :
    Link.Step l options p (c.link p) (c'.link p) ∧ c'.Coordinated := by
  cases a with
  | insert | pollNext => cases h
  | polled reads => exact link_polled hco p h
  | remove | clear | wake | pop | popNone | resume | exit | finish =>
    exact link_queueNext hco p (by simp) (by simp) (by simp) h

theorem link_connect (hco : c.Coordinated) {q : PeerIdentity} {n : Nat} {reads : List PollRead}
    (p : PeerIdentity) (h : c.next l options (.connect q n reads) = some c') :
    Link.Step l options p (c.link p) (c'.link p) ∧ c'.Coordinated := by
  simp only [next] at h
  split at h
  · rename_i hn
    cases h
    refine ⟨?_, hco.inside, hco.blocks⟩
    by_cases hk : p = q
    · subst hk
      have hs := Link.Step.connect (l := l) (p := p) (c.link p) n reads
        (by simpa [link] using hn.1) hn.2
      simpa [link, QueueInner.insert] using hs
    · have hs : Link.Step l options p _ _ := .same (c.link p)
      simpa [link, QueueInner.insert, hk, AList.lookup_insert_ne hk] using hs
  · cases h

theorem link_pollNext {task : W} (p : PeerIdentity) (hu : (c.link p).unhandled = none)
    (h : { c with pc := .polling task }.queueNext (.pollNext task) = some c') :
    Link.Step l options p (c.link p) (c'.link p) ∧ c'.Coordinated := by
  obtain ⟨q, hq, rfl⟩ := Option.map_eq_some_iff.mp h
  cases FairQueue.stepped hq with
  | pollNext _ hc =>
    have hh : (c.link p).hand = none := by simp [link, handOf, show c.queue.consumer = _ from hc]
    exact ⟨step_same rfl hh.symm ((unhandledOf_inside _ (by simp)).trans hu.symm),
      .inr ⟨task, rfl⟩, by simp⟩

theorem onReady_consumer (task : W) (r : Option (PeerIdentity × Item)) :
    (c.onReady l task r).queue.consumer = c.queue.consumer := by
  simp only [onReady]
  split <;> split <;> rfl

theorem link_onReady (p : PeerIdentity) {task task' : W} {r : Option (PeerIdentity × Item)}
    (hpc : c.pc = .polling task) (hc : c.queue.consumer = .idle (some (task', .ready r))) :
    Link.Step l options p (c.link p) ((c.onReady l task r).link p) := by
  rcases r with _ | ⟨k, item⟩
  · have hu : unhandledOf p c.pc c.queue.consumer = none := by simp [hpc, hc, unhandledOf]
    suffices h : (c.onReady l task none).link p = c.link p by
      rw [h]
      exact .same _
    simp [onReady, Loop.arm, link, hu, messagesFrom]
  · by_cases hk : p = k
    · subst hk
      have hu : (c.link p).unhandled = some item := by simp [link, hpc, hc, unhandledOf]
      suffices h : (c.onReady l task (some (p, item))).link p = (c.link p).handle l p item by
        rw [h]
        exact .handle _ item hu
      rcases item with e | (g | command | m)
      · cases hd : l.disconnects <;> cases hr : l.reports <;>
          simp [onReady, Loop.arm, hd, hr, link, Link.handle, messages, messagesFrom,
            QueueInner.remove]
      · simp [onReady, Loop.arm, link, Link.handle, messages]
      · simp [onReady, Loop.arm, link, Link.handle, messages]
      · simp [onReady, Loop.arm, link, Link.handle, messages, messagesFrom]
    · have hu : unhandledOf p c.pc c.queue.consumer = none := by
        simp [hpc, hc, unhandledOf, Ne.symm hk]
      suffices h : (c.onReady l task (some (k, item))).link p = c.link p by
        rw [h]
        exact .same _
      rcases item with e | (g | command | m)
      · cases hd : l.disconnects <;> cases hr : l.reports <;>
          simp [onReady, Loop.arm, hd, hr, link, messagesFrom, hu, QueueInner.remove,
            AList.lookup_erase_ne hk]
      · simp [onReady, Loop.arm, link, hu]
      · simp [onReady, Loop.arm, link, hu]
      · simp [onReady, Loop.arm, link, messagesFrom, hu, Ne.symm hk]

theorem link_handle (hco : c.Coordinated) (p : PeerIdentity)
    (h : c.next l options .handle = some c') :
    Link.Step l options p (c.link p) (c'.link p) ∧ c'.Coordinated := by
  simp only [next] at h
  split at h
  · rename_i hpc hc
    cases h
    refine ⟨step_same (k := c.link p) rfl rfl ?_, .inl ⟨_, hc⟩, hco.blocks⟩
    simp [link, hc, unhandledOf_pending]
  · rename_i task _ r hpc hc
    cases h
    exact ⟨link_onReady p hpc hc, .inl ⟨_, (onReady_consumer task r).trans hc⟩,
      by simp [onReady_consumer, hc]⟩
  · cases h

theorem link_next (hco : c.Coordinated) {a : CoreAction W} (p : PeerIdentity)
    (h : c.next l options a = some c') :
    Link.Step l options p (c.link p) (c'.link p) ∧ c'.Coordinated := by
  cases a with
  | connect q n reads => exact link_connect hco p h
  | queue a => exact link_queue hco p h
  | poll task =>
    simp only [next] at h
    split at h
    · rename_i hpc
      exact link_pollNext p (by simp [link, hpc, unhandledOf]) h
    · cases h
  | handle => exact link_handle hco p h
  | loop =>
    simp only [next] at h
    split at h
    · rename_i hpc
      exact link_pollNext p (by simp [link, hpc, unhandledOf]) h
    · cases h
  | «return» =>
    simp only [next] at h
    split at h
    · rename_i hpc
      cases h
      refine ⟨step_same (k := c.link p) rfl rfl ?_, ?_, hco.blocks⟩
      · simp [link, hpc, unhandledOf]
      · exact .inl (hco.inside.resolve_right (by simp [hpc]))
    · cases h

end Core

variable {l : Loop} {options : SocketOptions}

theorem next_core {st st' : State W} {a : Action W} {b : CoreAction W} (hb : a.core? = some b)
    (h : next l options st a = some st') : st.core.next l options b = some st'.core := by
  cases a with
  | core a =>
    cases hb
    cases b with
    | poll task =>
      simp only [next] at h
      split at h
      · obtain ⟨c, hc, rfl⟩ := Option.map_eq_some_iff.mp h
        exact hc
      · cases h
    | _ =>
      obtain ⟨c, hc, rfl⟩ := Option.map_eq_some_iff.mp h
      exact hc
  | _ => cases hb

theorem next_future {st st' : State W} {a : Action W} (hb : a.core? = none)
    (h : next l options st a = some st') : st'.core = st.core := by
  cases a with
  | core a => cases hb
  | recv =>
    simp only [next] at h
    split at h
    · cases h
    · cases h
      rfl
  | drop =>
    simp only [next] at h
    split at h
    · cases h
      rfl
    · cases h

theorem run_core {st st' : State W} {as : List (Action W)}
    (h : (system l options).run st as = some st') :
    (coreSystem l options).run st.core (as.filterMap Action.core?) = some st'.core :=
  Lib.System.run_project (system l options) (coreSystem l options) State.core Action.core?
    (fun _ _ _ _ hb hn => next_core hb hn) (fun _ _ _ hb hn => next_future hb hn) h

theorem link_ok {st : State W} (h : (system l options).Reachable st) (p : PeerIdentity) :
    (st.core.link p).Ok l options p := by
  obtain ⟨as, h⟩ := h
  have hr := run_core h
  suffices hi : st.core.Coordinated ∧ (st.core.link p).Ok l options p from hi.2
  refine (coreSystem l options).invariant_run
    (P := fun c => c.Coordinated ∧ (c.link p).Ok l options p) ?_ ?_ hr
  · rintro c a c' ⟨hco, hk⟩ hn
    obtain ⟨hs, hco'⟩ := Core.link_next hco p hn
    exact ⟨hco', hs.ok hk⟩
  · refine ⟨⟨.inl ⟨_, rfl⟩, by simp [system, Core.init, FairQueue.State.init]⟩, ?_⟩
    have : Link.fresh.Ok l options p := Link.ok_fresh
    simpa [system, Core.init, Core.link, Link.fresh, FairQueue.State.init, QueueInner.new, handOf,
      unhandledOf, messagesFrom] using this

theorem Link.Ok.returned_prefix {k : Link} {p : PeerIdentity} (hk : k.Ok l options p) :
    k.returned <+: (messages k.decoded).map (l.deliver p) :=
  ⟨_, hk.returned.symm⟩

theorem Link.Ok.returned_decodeAll {k : Link} {p : PeerIdentity} (hk : k.Ok l options p)
    (hd : l.disconnects = true) {stream : Bytes} (hs : k.delivered <+: stream) :
    k.returned <+:
      (messages (((ZmqCodec.withOptions options).decodeAll stream).items.map .ok)).map
        (l.deliver p) := by
  refine hk.returned_prefix.trans ?_
  apply List.IsPrefix.map
  obtain ⟨r, ht, -⟩ := hk.traces
  obtain ⟨more, rfl⟩ := hs
  have hc := ht.calls 0 more
  rcases hk.broken hd with ⟨is, hi⟩ | ⟨⟨is, e, hi⟩, -⟩
  · rw [hi] at hc ⊢
    exact ((ZmqCodec.machine.items_of_calls hc).map _).filterMap _
  · rw [hi, List.append_assoc] at hc
    rw [hi, messages_append, show messages [.error e] = [] from rfl, List.append_nil]
    exact ((ZmqCodec.machine.items_of_calls hc).map _).filterMap _

theorem Link.Ok.returned_all {k : Link} {p : PeerIdentity} (hk : k.Ok l options p)
    {held : FairQueue.Held ZmqFramedRead} (hs : k.stored = some held)
    (hw : held.pendingWaker ≠ none) (hu : k.unhandled = none) (n : Nat) :
    (messages ((ZmqCodec.withOptions options).decodeCalls (k.decoded.length + n)
      k.delivered)).map (l.deliver p) = k.returned := by
  obtain ⟨r, ht, hst, -⟩ := hk.traces
  have hc := ht.calls n []
  rw [List.append_nil, List.append_nil] at hc
  have hwait : r.codec.decodeCalls n r.buffer = [] :=
    ZmqCodec.machine.calls_wait n ((hst held hs).2 hw)
  have hr := hk.returned
  rw [hu] at hr
  rw [hc, hwait, List.append_nil]
  simpa [messages] using hr

omit [Target] in
theorem Receiver.recv_deliver (kind : Receiver) (p : PeerIdentity) :
    kind.recv.deliver p = fun m => if kind = .router then m.pushFront p.bytes else m := by
  cases kind <;> rfl

omit [Target] in
theorem Receiver.recv_disconnects {kind : Receiver} (h : kind ≠ .dealer) :
    kind.recv.disconnects = true := by
  cases kind <;> first | rfl | exact absurd rfl h

/-- The receive contract.  What `recv` has returned from `p` is a prefix of the
messages that a decoder makes of `p`'s byte stream, however that stream goes on
after the bytes delivered so far, and all of them where the reader is waiting
for more.  The futures that were dropped on the way change nothing. -/
theorem recv_contract (kind : Receiver) (options : SocketOptions) {st : State W}
    (h : (system kind.recv options).Reachable st) (p : PeerIdentity) :
    (∀ stream, st.core.delivered p <+: stream →
      (∃ n, messagesFrom p st.core.returned <+:
        (messages ((ZmqCodec.withOptions options).decodeCalls n stream)).map
          fun m => if kind = .router then m.pushFront p.bytes else m) ∧
      (kind ≠ .dealer → messagesFrom p st.core.returned <+:
        (messages (((ZmqCodec.withOptions options).decodeAll stream).items.map .ok)).map
          fun m => if kind = .router then m.pushFront p.bytes else m)) ∧
    (∀ held, st.core.queue.inner.streams.lookup p = some held → held.pendingWaker ≠ none →
      st.core.pc = .parked →
      ∃ n, ∀ n', n ≤ n' → messagesFrom p st.core.returned =
        (messages ((ZmqCodec.withOptions options).decodeCalls n' (st.core.delivered p))).map
          fun m => if kind = .router then m.pushFront p.bytes else m) ∧
    (∀ (as bs : List (Action W)) (st₁ st₂ : State W),
      (system kind.recv options).run (system kind.recv options).init as = some st₁ →
      (system kind.recv options).run (system kind.recv options).init bs = some st₂ →
      as.filterMap Action.core? = bs.filterMap Action.core? → st₁.core = st₂.core) := by
  have hk := link_ok h p
  rw [← kind.recv_deliver p]
  refine ⟨fun stream hs => ⟨⟨(st.core.decoded p).length, ?_⟩, fun hd => ?_⟩, ?_, ?_⟩
  · obtain ⟨r, ht, -⟩ := hk.traces
    exact hk.returned_prefix.trans ((ht.messages_prefix hs).map _)
  · exact hk.returned_decodeAll (Receiver.recv_disconnects hd) hs
  · intro held hl hw hpc
    refine ⟨(st.core.decoded p).length, fun n' hn => ?_⟩
    obtain ⟨n, rfl⟩ := Nat.exists_eq_add_of_le hn
    exact (hk.returned_all hl hw (by simp [Core.link, hpc, unhandledOf]) n).symm
  · intro as bs st₁ st₂ ha hb hab
    have h₁ := run_core ha
    rw [hab, run_core hb] at h₁
    exact (Option.some.inj h₁).symm

def givenTo (options : SocketOptions) (p : PeerIdentity) : Core W × CoreAction W → Bytes
  | (_, .connect q n reads) =>
    if q = p then (ZmqFramedRead.manyOffered n (.new options) reads).flatMap ZmqFramedRead.given
    else []
  | (c, .queue (.polled reads)) =>
    match c.queue.consumer with
    | .polling _ _ q held _ =>
      if q = p then (held.stream.pollOffered reads).flatMap ZmqFramedRead.given else []
    | _ => []
  | _ => []

theorem next_delivered {c c' : Core W} {a : CoreAction W} {p : PeerIdentity}
    (hp : p ∉ c.connected → c.delivered p = []) (h : c.next l options a = some c') :
    c'.delivered p = c.delivered p ++ givenTo options p (c, a) := by
  cases a with
  | connect q n reads =>
    simp only [Core.next] at h
    split at h
    · rename_i hn
      cases h
      by_cases hq : q = p
      · subst hq
        simp [givenTo, hp hn.1, (ZmqFramedRead.pollMany_taken n (.new options) reads).2]
      · simp [givenTo, hq, Ne.symm hq]
    · cases h
  | queue a =>
    have hqueue : ∀ {c : Core W} {a}, c.queueNext a = some c' → c'.delivered = c.delivered := by
      intro c a h
      obtain ⟨q, -, rfl⟩ := Option.map_eq_some_iff.mp h
      rfl
    cases a with
    | insert | pollNext => cases h
    | polled reads =>
      simp only [Core.next] at h
      split at h
      · rename_i q held sw hc
        rw [hqueue h]
        by_cases hq : q = p
        · subst hq
          simp [givenTo, hc, Core.record, (held.stream.pollNext_taken reads).2]
        · simp [givenTo, hc, Core.record, hq, Ne.symm hq]
      · cases h
    | remove | clear | wake | pop | popNone | resume | exit | finish =>
      rw [hqueue h]
      simp [givenTo]
  | poll task | loop =>
    simp only [Core.next] at h
    split at h
    · obtain ⟨q, -, rfl⟩ := Option.map_eq_some_iff.mp h
      simp [givenTo]
    · cases h
  | handle =>
    simp only [Core.next] at h
    split at h
    · cases h
      simp [givenTo]
    · cases h
      simp only [Core.onReady]
      split <;> simp [givenTo]
    · cases h
  | «return» =>
    simp only [Core.next] at h
    split at h
    · cases h
      simp [givenTo]
    · cases h

/-- The bytes delivered from `p` are those that the reads of its connection gave. -/
theorem delivered_eq {st : State W} {as : List (Action W)} (p : PeerIdentity)
    (h : (system l options).run (system l options).init as = some st) :
    st.core.delivered p =
      ((coreSystem l options).steps .init (as.filterMap Action.core?)).flatMap
        (givenTo options p) := by
  have hinit : Core.Coordinated (Core.init : Core W) :=
    ⟨.inl ⟨_, rfl⟩, by simp [Core.init, FairQueue.State.init]⟩
  have hfresh : (Core.init : Core W).link p |>.Ok l options p := by
    have hk : Link.fresh.Ok l options p := Link.ok_fresh
    simpa [Core.init, Core.link, Link.fresh, FairQueue.State.init, QueueInner.new, handOf,
      unhandledOf, messagesFrom] using hk
  have hrun := (coreSystem l options).run_steps (P := fun steps c =>
      c.Coordinated ∧ (c.link p).Ok l options p ∧
        c.delivered p = steps.flatMap (givenTo options p))
    ?_ (l := []) ⟨hinit, hfresh, rfl⟩ (run_core h)
  · exact hrun.2.2
  · rintro steps c a c' ⟨hco, hk, hd⟩ hn
    obtain ⟨hs, hco'⟩ := Core.link_next hco p hn
    refine ⟨hco', hs.ok hk, ?_⟩
    have hidle : p ∉ c.connected → c.delivered p = [] :=
      fun hc => congrArg Link.delivered (hk.idle hc)
    rw [next_delivered hidle hn, hd, List.flatMap_append, List.flatMap_singleton]

def droppedRun (p : PeerIdentity) : List (Action Nat) :=
  [.core (.connect p 2
      [ready (ZmqGreeting.default.encode ++ ZmqCommand.encode .ready [] ++ [1, 1])]),
    .recv, .core (.poll 0), .core (.queue (.pop ⟨0, p⟩)), .core (.queue (.polled [])),
    .core (.queue .exit), .core (.queue .finish), .core .handle, .drop, .core (.queue (.wake 0)),
    .recv, .core (.poll 1), .core (.queue (.pop ⟨1, p⟩)),
    .core (.queue (.polled [ready [7, 0, 0]])), .core .handle, .core .return]

omit [Target] in
theorem recv_contract_router :
    letI := Target.x64
    let p : PeerIdentity := .ofByte 9
    ∃ st, (system RouterSocket.recv .default).run (system RouterSocket.recv .default).init
        (droppedRun p) = some st ∧
      messagesFrom p st.core.returned = [⟨[[9], [7], []]⟩] ∧
      ∃ n, messagesFrom p st.core.returned <+:
        (messages ((ZmqCodec.withOptions .default).decodeCalls n (st.core.delivered p))).map
          (·.pushFront [9]) := by
  let _ := Target.x64
  intro p
  have h : ((system RouterSocket.recv .default).run (system RouterSocket.recv .default).init
      (droppedRun p)).map (fun st => messagesFrom p st.core.returned) =
      some [⟨[[9], [7], []]⟩] := by decide +kernel
  obtain ⟨st, hst, hm⟩ := Option.map_eq_some_iff.mp h
  refine ⟨st, hst, hm, ?_⟩
  exact ((recv_contract .router .default ⟨droppedRun p, hst⟩ p).1 _ (List.prefix_refl _)).1

end ZmqRs.Recv
