import ZmqRs.Lib.Places
import ZmqRs.ReqRep.Chain
import ZmqRs.Recv.Delivery

/-! Any number of REQ clients and REP workers around one broker, which is a `proxy` between a
ROUTER and a DEALER.  The connections are first-in first-out, and may lose what they hold; the
DEALER may send to any worker. -/

namespace ZmqRs

open Codec (Message)

theorem PeerIdentity.eq_of_bytes {p q : PeerIdentity} (h : p.bytes = q.bytes) : p = q := by
  cases p
  cases q
  cases h
  rfl

def RouterSocket.target (fresh : PeerIdentity) (message : ZmqMessage) :
    Res ZmqError (PeerIdentity × ZmqMessage) :=
  if message.len ≤ 1 then
    .error (.error (.socket "ROUTER send requires at least 2 frames: identity frame + message"))
  else
    match message.popFront with
    | (none, _) => .error .panic
    | (some frame, message) =>
      match PeerIdentity.tryFrom fresh frame with
      | .error e => .error (.error e)
      | .ok peerId => .ok (peerId, message)

theorem RouterSocket.send_eq_target [Target] {S W : Type} (fresh : PeerIdentity)
    (b : GenericSocketBackend S W) (room : Room) (message : ZmqMessage) :
    RouterSocket.send fresh b room message = match RouterSocket.target fresh message with
      | .error e => (.error e, b)
      | .ok (peerId, m) => (b.sendToPeer room peerId (.message m)).map (·.mapError .error) id := by
  rw [RouterSocket.send, RouterSocket.target]
  by_cases hl : message.len ≤ 1
  · simp only [if_pos hl]
  · simp only [if_neg hl]
    rcases message.popFront with ⟨_ | frame, rest⟩
    · rfl
    · dsimp only
      cases PeerIdentity.tryFrom fresh frame <;> rfl

theorem RouterSocket.target_pushFront (fresh p : PeerIdentity) {m : ZmqMessage}
    (hm : m.frames ≠ []) : RouterSocket.target fresh (m.pushFront p.bytes) = .ok (p, m) := by
  have hlen := List.length_pos_iff.mpr hm
  have hl : ¬ (m.pushFront p.bytes).len ≤ 1 := by
    simp only [ZmqMessage.len, ZmqMessage.pushFront, List.length_cons]
    omega
  rw [RouterSocket.target, if_neg hl]
  simp [ZmqMessage.popFront, ZmqMessage.pushFront]

namespace Service

structure Tag where
  client : PeerIdentity
  number : Nat
  deriving DecidableEq

inductive Place
  | toRouter (c : PeerIdentity)
  | fromRouter
  | toWorker (w : PeerIdentity)
  | working (w : PeerIdentity)
  | toDealer (w : PeerIdentity)
  | fromDealer
  | toClient (c : PeerIdentity)
  | lost
  deriving DecidableEq

/-- The tag is noted for the statements; nothing that is sent depends on it. -/
structure Parcel where
  message : ZmqMessage
  tag : Tag
  deriving DecidableEq

/-- `answers` are the replies that workers sent, with the requests as they got them, and `replies`
what `recv` of the clients returned. -/
structure State where
  clients : PeerIdentity → ReqSocket
  workers : PeerIdentity → RepSocket
  items : List (Place × Parcel)
  requests : List (Tag × ZmqMessage)
  answers : List (Tag × ZmqMessage × ZmqMessage)
  replies : List (Tag × ZmqMessage)

inductive Action
  | request (c : PeerIdentity) (m : ZmqMessage)
  | routerRecv (c : PeerIdentity)
  | dealerSend (w : PeerIdentity)
  | workerRecv (w : PeerIdentity)
  | workerSend (w : PeerIdentity) (r : ZmqMessage)
  | dealerRecv (w : PeerIdentity)
  | routerSend
  | clientRecv (c : PeerIdentity)
  | lose (p : Place)

def tagsOf (c : PeerIdentity) (tags : List Tag) : List Tag := tags.filter (·.client = c)

def Place.isConnection : Place → Bool
  | .toRouter _ | .toWorker _ | .toDealer _ | .toClient _ => true
  | _ => false

namespace State

def asked (st : State) (c : PeerIdentity) : Nat := (tagsOf c (st.requests.map Prod.fst)).length

def put (st : State) (p : Place) (x : Parcel) (items : List (Place × Parcel)) : State :=
  { st with items := items ++ [(p, x)] }

def proxyIdle (st : State) : Bool :=
  st.items.all fun x => x.1 ≠ .fromRouter ∧ x.1 ≠ .fromDealer

def setClient (st : State) (c : PeerIdentity) (s : ReqSocket) : State :=
  { st with clients := Function.update st.clients c s }

def setWorker (st : State) (w : PeerIdentity) (s : RepSocket) : State :=
  { st with workers := Function.update st.workers w s }

end State

section Defs

variable (broker fresh : PeerIdentity)

def lastSent (peers : AList fun _ : PeerIdentity => Wire) : Option ZmqMessage :=
  (peers.lookup broker).bind Wire.lastSent

open Lib.Places (take moveAll)

/-- Messages of the application have a frame. -/
def next (st : State) : Action → Option State
  | .request c m =>
    if m.frames = [] then none
    else
      match (st.clients c).send m with
      | (.error _, s) => some (st.setClient c s)
      | (.ok (), s) =>
        (lastSent broker s.peers).map fun message =>
          let tag : Tag := ⟨c, st.asked c⟩
          { st.setClient c s with requests := st.requests ++ [(tag, m)] }.put
            (.toRouter c) ⟨message, tag⟩ st.items
  | .routerRecv c =>
    if st.proxyIdle then
      (take (.toRouter c) st.items).map fun (x, items) =>
        st.put .fromRouter ⟨Recv.RouterSocket.recv.deliver c x.message, x.tag⟩ items
    else none
  | .dealerSend w =>
    (take .fromRouter st.items).map fun (x, items) => st.put (.toWorker w) x items
  | .workerRecv w =>
    (take (.toWorker w) st.items).map fun (x, items) =>
      -- a request that was not answered is given up
      match (st.workers w).onNext (some (broker, .ok (.message x.message))) with
      | (some (.ok data), s) =>
        (st.setWorker w s).put (.working w) ⟨data, x.tag⟩ (moveAll (.working w) .lost items)
      | (_, s) => (st.setWorker w s).put .lost x items
  | .workerSend w r =>
    if r.frames = [] then none
    else
      match (st.workers w).send r with
      | (.error _, s) => some (st.setWorker w s)
      | (.ok (), s) => do
        let message ← lastSent broker s.peers
        let (x, items) ← take (.working w) st.items
        some ({ st.setWorker w s with answers := st.answers ++ [(x.tag, x.message, r)] }.put
          (.toDealer w) ⟨message, x.tag⟩ items)
  | .dealerRecv w =>
    if st.proxyIdle then
      (take (.toDealer w) st.items).map fun (x, items) =>
        st.put .fromDealer ⟨Recv.DealerSocket.recv.deliver w x.message, x.tag⟩ items
    else none
  | .routerSend =>
    (take .fromDealer st.items).map fun (x, items) =>
      match RouterSocket.target fresh x.message with
      | .ok (c, message) => st.put (.toClient c) ⟨message, x.tag⟩ items
      | .error _ => st.put .lost x items
  | .clientRecv c =>
    match (st.clients c).currentRequest with
    | none => some st
    | some _ =>
      (take (.toClient c) st.items).map fun (x, items) =>
        match (st.clients c).recv fun _ => some (.ok (.message x.message)) with
        | (.ok r, s) =>
          { st.setClient c s with
            items := items, replies := st.replies ++ [(⟨c, st.asked c - 1⟩, r)] }
        | (.error _, s) => (st.setClient c s).put .lost x items
  | .lose p =>
    if p.isConnection then (take p st.items).map fun (x, items) => st.put .lost x items else none

def openWire : Wire := ⟨[], none⟩

def system : Lib.System State Action where
  init :=
    { clients := fun _ => ⟨(∅ : AList _).insert broker openWire, [broker], none⟩
      workers := fun _ => ⟨(∅ : AList _).insert broker openWire, none, none⟩
      items := []
      requests := []
      answers := []
      replies := [] }
  next := next broker fresh

end Defs

section Sockets

variable {broker : PeerIdentity}

structure ReqReady (broker : PeerIdentity) (s : ReqSocket) : Prop where
  wire : ∃ wire, s.peers.lookup broker = some wire ∧ wire.failure = none
  roundRobin : s.roundRobin = [broker]
  current : s.currentRequest = none ∨ s.currentRequest = some broker

structure RepReady (broker : PeerIdentity) (s : RepSocket) : Prop where
  wire : ∃ wire, s.peers.lookup broker = some wire ∧ wire.failure = none
  current : s.currentRequest = none ∨ s.currentRequest = some broker

theorem lastSent_insert (peers : AList fun _ : PeerIdentity => Wire) (wire : Wire)
    (m : ZmqMessage) :
    lastSent broker (peers.insert broker (wire.push (.message m))) = some m := by
  simp [lastSent, Wire.lastSent, Wire.push]

theorem ReqReady.send {s : ReqSocket} (hs : ReqReady broker s) (m : ZmqMessage) :
    (s.currentRequest.isSome ∧ ∃ e, s.send m = (.error e, s)) ∨
      s.currentRequest = none ∧ ∃ s', s.send m = (.ok (), s') ∧ ReqReady broker s' ∧
        s'.currentRequest = some broker ∧ lastSent broker s'.peers = some (m.pushFront []) := by
  obtain ⟨wire, hl, hf⟩ := hs.wire
  rcases hs.current with hc | hc
  · let sent := wire.push (.message (m.pushFront []))
    refine .inr ⟨hc, ⟨s.peers.insert broker sent, [broker], some broker⟩, ?_,
      ⟨⟨sent, AList.lookup_insert _, hf⟩, rfl, .inr rfl⟩, rfl, lastSent_insert _ wire _⟩
    rw [ReqSocket.send, hc, Option.isSome_none, if_neg Bool.false_ne_true, hs.roundRobin,
      ReqSocket.sendLoop, hl]
    dsimp only
    rw [Wire.send_open hf]
    rfl
  · refine .inl ⟨by rw [hc]; rfl,
      .returnToSender "Unable to send message. Request already in progress" m, ?_⟩
    rw [ReqSocket.send, hc, Option.isSome_some, if_pos rfl]

theorem RepReady.onNext {s : RepSocket} (hs : RepReady broker s) (c : PeerIdentity)
    {m : ZmqMessage} (hm : m.frames ≠ []) :
    ∃ s', s.onNext (some (broker, .ok (.message ((m.pushFront []).pushFront c.bytes)))) =
        (some (.ok m), s') ∧ RepReady broker s' ∧ s'.currentRequest = some broker ∧
      s'.envelope = some ⟨[c.bytes, []]⟩ := by
  have hlen := List.length_pos_iff.mpr hm
  have hl : ¬ ((m.pushFront []).pushFront c.bytes).len < 2 := by
    simp only [ZmqMessage.len, ZmqMessage.pushFront, List.length_cons]
    omega
  have hsplit : RepSocket.splitIndex ((m.pushFront []).pushFront c.bytes).frames = 2 := by
    have hc : c.bytes.isEmpty = false := by simpa using c.nonempty
    simp [RepSocket.splitIndex, ZmqMessage.pushFront, List.findIdx?_cons, hc]
  have hoff : ZmqMessage.splitOff ((m.pushFront []).pushFront c.bytes) 2 =
      some (⟨[c.bytes, []]⟩, m) := by
    rw [ZmqMessage.splitOff, if_neg hl]
    rfl
  refine ⟨⟨s.peers, some ⟨[c.bytes, []]⟩, some broker⟩, ?_, ⟨hs.wire, .inr rfl⟩, rfl, rfl⟩
  simp only [RepSocket.onNext, if_neg hl, hsplit, hoff]

theorem RepReady.send {s : RepSocket} (hs : RepReady broker s) (r : ZmqMessage) :
    (s.currentRequest = none ∧ ∃ e, s.send r = (.error e, s)) ∨
      s.currentRequest = some broker ∧ ∃ s', s.send r = (.ok (), s') ∧ RepReady broker s' ∧
        s'.currentRequest = none ∧ ∀ envelope, s.envelope = some envelope →
          lastSent broker s'.peers = some (r.prepend envelope) := by
  obtain ⟨wire, hl, hf⟩ := hs.wire
  rcases hs.current with hc | hc
  · refine .inl ⟨hc, .returnToSender "Unable to send reply. No request in progress" r, ?_⟩
    rw [RepSocket.send, hc]
  · refine .inr ⟨hc, ?_⟩
    have hsend : ∀ message : ZmqMessage,
        RepReady broker ⟨s.peers.insert broker (wire.push (.message message)), none, none⟩ :=
      fun message => ⟨⟨_, AList.lookup_insert _, hf⟩, .inl rfl⟩
    cases he : s.envelope with
    | none =>
      refine ⟨_, ?_, hsend r, rfl, ?_⟩
      · rw [RepSocket.send, hc]
        simp only [hl, he, Wire.send_open hf]
      · rintro _ ⟨⟩
    | some envelope =>
      refine ⟨_, ?_, hsend (r.prepend envelope), rfl, ?_⟩
      · rw [RepSocket.send, hc]
        simp only [hl, he, Wire.send_open hf]
      · rintro _ ⟨⟩
        exact lastSent_insert _ wire _

end Sockets

section Setters

variable {st : State}

@[simp] theorem setClient_self (c : PeerIdentity) (s : ReqSocket) :
    (st.setClient c s).clients c = s :=
  Function.update_self ..

theorem setClient_of_ne {c d : PeerIdentity} (h : d ≠ c) (s : ReqSocket) :
    (st.setClient c s).clients d = st.clients d :=
  Function.update_of_ne h ..

@[simp] theorem setWorker_self (w : PeerIdentity) (s : RepSocket) :
    (st.setWorker w s).workers w = s :=
  Function.update_self ..

theorem setWorker_of_ne {w v : PeerIdentity} (h : v ≠ w) (s : RepSocket) :
    (st.setWorker w s).workers v = st.workers v :=
  Function.update_of_ne h ..

theorem setClient_eq_self (c : PeerIdentity) : st.setClient c (st.clients c) = st :=
  congrArg (fun clients => { st with clients := clients }) (Function.update_eq_self c st.clients)

theorem setWorker_eq_self (w : PeerIdentity) : st.setWorker w (st.workers w) = st :=
  congrArg (fun workers => { st with workers := workers }) (Function.update_eq_self w st.workers)

end Setters

section Tags

def itemTags (items : List (Place × Parcel)) : List Tag := items.map fun x => x.2.tag

theorem tagsOf_append (c : PeerIdentity) (tags tags' : List Tag) :
    tagsOf c (tags ++ tags') = tagsOf c tags ++ tagsOf c tags' :=
  List.filter_append ..

theorem tagsOf_self (c : PeerIdentity) (n : Nat) : tagsOf c [⟨c, n⟩] = [⟨c, n⟩] := by
  simp [tagsOf]

theorem tagsOf_of_ne {c : PeerIdentity} {t : Tag} (h : t.client ≠ c) : tagsOf c [t] = [] := by
  simp [tagsOf, h]

theorem mem_tagsOf {t : Tag} {tags : List Tag} : t ∈ tagsOf t.client tags ↔ t ∈ tags := by
  simp [tagsOf]

theorem itemTags_append (items items' : List (Place × Parcel)) :
    itemTags (items ++ items') = itemTags items ++ itemTags items' :=
  List.map_append

theorem eq_of_perm_of_short {l l' : List Tag} (h : l.Perm l') (hl : l'.length ≤ 1) : l = l' := by
  match l', hl with
  | [], _ => exact List.perm_nil.mp h
  | [t], _ => exact List.perm_singleton.mp h

theorem itemTags_put {p q : Place} {items rest : List (Place × Parcel)} {x y : Parcel}
    (ht : Lib.Places.take p items = some (x, rest)) (hy : y.tag = x.tag) :
    (itemTags (rest ++ [(q, y)])).Perm (itemTags items) := by
  have hperm := (Lib.Places.perm_of_take ht).map fun x => x.2.tag
  rw [itemTags_append]
  refine List.perm_append_comm.trans (.trans ?_ hperm.symm)
  exact .of_eq (by simp [itemTags, hy])

end Tags

section Invariant

variable (broker : PeerIdentity)

def Requested (st : State) (t : Tag) (m : ZmqMessage) : Prop :=
  m.frames ≠ [] ∧ (t, m) ∈ st.requests ∧ t ∉ st.answers.map Prod.fst

def Answered (st : State) (t : Tag) (r : ZmqMessage) : Prop :=
  r.frames ≠ [] ∧ ∃ m, (t, m) ∈ st.requests ∧ (t, m, r) ∈ st.answers

def ItemOk (st : State) : Place → Parcel → Prop
  | .toRouter c, x => x.tag.client = c ∧ ∃ m, Requested st x.tag m ∧ x.message = m.pushFront []
  | .fromRouter, x | .toWorker _, x =>
    ∃ m, Requested st x.tag m ∧ x.message = (m.pushFront []).pushFront x.tag.client.bytes
  | .working w, x =>
    Requested st x.tag x.message ∧ (st.workers w).envelope = some ⟨[x.tag.client.bytes, []]⟩
  | .toDealer _, x | .fromDealer, x =>
    ∃ r, Answered st x.tag r ∧ x.message = (r.pushFront []).pushFront x.tag.client.bytes
  | .toClient c, x => x.tag.client = c ∧ ∃ r, Answered st x.tag r ∧ x.message = r.pushFront []
  | .lost, _ => True

structure Inv (st : State) : Prop where
  clients : ∀ c, ReqReady broker (st.clients c)
  workers : ∀ w, RepReady broker (st.workers w)
  items : ∀ x ∈ st.items, ItemOk st x.1 x.2
  outstanding : ∀ c, (tagsOf c (itemTags st.items)).length =
    if (st.clients c).currentRequest.isSome then 1 else 0
  conserved : ∀ c, tagsOf c (st.requests.map Prod.fst) =
    tagsOf c (st.replies.map Prod.fst) ++ tagsOf c (itemTags st.items)
  numbered : ∀ c, tagsOf c (st.requests.map Prod.fst) = (List.range (st.asked c)).map (Tag.mk c)
  answers : (st.answers.map Prod.fst).Nodup
  asked : ∀ t ∈ st.answers.map Prod.fst, t ∈ st.requests.map Prod.fst
  replies : ∀ x ∈ st.replies, Answered st x.1 x.2

variable {broker} {fresh : PeerIdentity} {st st' : State}

theorem Inv.short (h : Inv broker st) (c : PeerIdentity) :
    (tagsOf c (itemTags st.items)).length ≤ 1 := by
  rw [h.outstanding c]
  split <;> omega

theorem Inv.rearrange (h : Inv broker st) {workers : PeerIdentity → RepSocket}
    {items : List (Place × Parcel)} (hw : ∀ w, RepReady broker (workers w))
    (hperm : (itemTags items).Perm (itemTags st.items))
    (hok : ∀ x ∈ items, ItemOk { st with workers := workers } x.1 x.2) :
    Inv broker { st with workers := workers, items := items } := by
  have htags : ∀ c, tagsOf c (itemTags items) = tagsOf c (itemTags st.items) :=
    fun c => eq_of_perm_of_short (hperm.filter _) (h.short c)
  refine ⟨h.clients, hw, hok, ?_, ?_, h.numbered, h.answers, h.asked, h.replies⟩
  · intro c
    rw [htags c]
    exact h.outstanding c
  · intro c
    rw [htags c]
    exact h.conserved c

theorem Inv.tagsOf_put (h : Inv broker st) {p q : Place} {x y : Parcel}
    {rest : List (Place × Parcel)} (ht : Lib.Places.take p st.items = some (x, rest))
    (hy : y.tag = x.tag) (c : PeerIdentity) :
    tagsOf c (itemTags (rest ++ [(q, y)])) = tagsOf c (itemTags st.items) :=
  eq_of_perm_of_short ((itemTags_put ht hy).filter _) (h.short c)

theorem mem_of_take {p : Place} {items rest : List (Place × Parcel)} {x : Parcel}
    (ht : Lib.Places.take p items = some (x, rest)) :
    (p, x) ∈ items ∧ ∀ y ∈ rest, y ∈ items := by
  have hperm := Lib.Places.perm_of_take ht
  refine ⟨hperm.mem_iff.mpr List.mem_cons_self, fun y hy => ?_⟩
  exact hperm.mem_iff.mpr (List.mem_cons_of_mem _ hy)

theorem Inv.move (h : Inv broker st) {p q : Place} {x y : Parcel} {rest : List (Place × Parcel)}
    (ht : Lib.Places.take p st.items = some (x, rest)) (hy : y.tag = x.tag)
    (hok : ItemOk st p x → ItemOk st q y) : Inv broker (st.put q y rest) := by
  obtain ⟨hx, hrest⟩ := mem_of_take ht
  refine h.rearrange h.workers (itemTags_put ht hy) ?_
  intro z hz
  rcases List.mem_append.mp hz with hz | hz
  · exact h.items z (hrest z hz)
  · obtain rfl := List.mem_singleton.mp hz
    exact hok (h.items _ hx)

theorem Inv.setWorker (h : Inv broker st) {s : RepSocket} (hs : RepReady broker s)
    (w v : PeerIdentity) : RepReady broker ((st.setWorker w s).workers v) := by
  by_cases hv : v = w
  · subst hv
    rwa [setWorker_self]
  · rw [setWorker_of_ne hv]
    exact h.workers v

theorem Inv.client_ne (h : Inv broker st) {p : Place} {x : Parcel} {rest : List (Place × Parcel)}
    (ht : Lib.Places.take p st.items = some (x, rest)) :
    tagsOf x.tag.client (itemTags rest) = [] ∧ ∀ y ∈ rest, y.2.tag.client ≠ x.tag.client := by
  have hperm := (Lib.Places.perm_of_take ht).map fun x => x.2.tag
  have hlength := (hperm.filter (·.client = x.tag.client)).length_eq
  have hrest : tagsOf x.tag.client (itemTags rest) = [] := by
    rw [← List.length_eq_zero_iff]
    have hshort := h.short x.tag.client
    simp only [tagsOf, itemTags, List.map_cons, decide_true, List.filter_cons_of_pos,
      List.length_cons] at hlength hshort ⊢
    omega
  refine ⟨hrest, fun y hy hc => ?_⟩
  have hmem : y.2.tag ∈ tagsOf x.tag.client (itemTags rest) := by
    rw [← hc, mem_tagsOf]
    exact List.mem_map_of_mem hy
  rw [hrest] at hmem
  cases hmem

theorem Inv.workerRecv (h : Inv broker st) {w : PeerIdentity} {x : Parcel}
    {rest : List (Place × Parcel)} (ht : Lib.Places.take (.toWorker w) st.items = some (x, rest)) :
    ∃ m s, (st.workers w).onNext (some (broker, .ok (.message x.message))) = (some (.ok m), s) ∧
      Inv broker ((st.setWorker w s).put (.working w) ⟨m, x.tag⟩
        (Lib.Places.moveAll (.working w) .lost rest)) := by
  obtain ⟨hx, hrest⟩ := mem_of_take ht
  obtain ⟨m, hm, hmessage⟩ := h.items _ hx
  obtain ⟨s, hs, hready, hcurrent, henvelope⟩ := (h.workers w).onNext x.tag.client hm.1
  rw [← hmessage] at hs
  refine ⟨m, s, hs, h.rearrange (h.setWorker hready w) ?_ ?_⟩
  · have hmoved : itemTags (Lib.Places.moveAll (.working w) .lost rest) = itemTags rest :=
      Lib.Places.map_snd_moveAll _ _ Parcel.tag rest
    rw [itemTags_append, hmoved, ← itemTags_append]
    exact itemTags_put ht rfl
  · intro y hy
    rcases List.mem_append.mp hy with hy | hy
    · rcases Lib.Places.mem_moveAll hy with ⟨hy, hw⟩ | ⟨hlost, -⟩
      · have hok := h.items y (hrest y hy)
        rcases y with ⟨q, y⟩
        cases q with
        | working v =>
          have hv : v ≠ w := fun hv => hw (congrArg Place.working hv)
          exact ⟨hok.1, (congrArg _ (setWorker_of_ne hv s)).trans hok.2⟩
        | _ => exact hok
      · rw [hlost]
        trivial
    · obtain rfl := List.mem_singleton.mp hy
      exact ⟨hm, (congrArg _ (setWorker_self w s)).trans henvelope⟩

theorem ItemOk.mono {p : Place} {y : Parcel} (hy : ItemOk st p y)
    (hrequested : ∀ m, Requested st y.tag m → Requested st' y.tag m)
    (hanswered : ∀ r, Answered st y.tag r → Answered st' y.tag r)
    (hworker : ∀ w, p = .working w → st'.workers w = st.workers w) : ItemOk st' p y := by
  cases p with
  | toRouter c =>
    obtain ⟨hc, m, hm, hmessage⟩ := hy
    exact ⟨hc, m, hrequested m hm, hmessage⟩
  | fromRouter =>
    obtain ⟨m, hm, hmessage⟩ := hy
    exact ⟨m, hrequested m hm, hmessage⟩
  | toWorker v =>
    obtain ⟨m, hm, hmessage⟩ := hy
    exact ⟨m, hrequested m hm, hmessage⟩
  | working v => exact ⟨hrequested _ hy.1, (congrArg _ (hworker v rfl)).trans hy.2⟩
  | toDealer v =>
    obtain ⟨r, hr, hmessage⟩ := hy
    exact ⟨r, hanswered r hr, hmessage⟩
  | fromDealer =>
    obtain ⟨r, hr, hmessage⟩ := hy
    exact ⟨r, hanswered r hr, hmessage⟩
  | toClient c =>
    obtain ⟨hc, r, hr, hmessage⟩ := hy
    exact ⟨hc, r, hanswered r hr, hmessage⟩
  | lost => trivial

theorem Inv.workerSend (h : Inv broker st) {w : PeerIdentity} {r : ZmqMessage} (hr : r.frames ≠ [])
    {s : RepSocket} (hs : (st.workers w).send r = (.ok (), s)) {message : ZmqMessage}
    (hlast : lastSent broker s.peers = some message) {x : Parcel} {rest : List (Place × Parcel)}
    (ht : Lib.Places.take (.working w) st.items = some (x, rest)) :
    Inv broker ({ st.setWorker w s with answers := st.answers ++ [(x.tag, x.message, r)] }.put
      (.toDealer w) ⟨message, x.tag⟩ rest) := by
  obtain ⟨hx, hrest⟩ := mem_of_take ht
  obtain ⟨⟨hm, hrequest, hanswers⟩, henvelope⟩ := h.items _ hx
  have hclient := (h.client_ne ht).2
  -- the socket has put the reply behind the envelope of this request
  obtain ⟨hready, hmessage⟩ : RepReady broker s ∧
      message = (r.pushFront []).pushFront x.tag.client.bytes := by
    rcases (h.workers w).send r with ⟨-, e, he⟩ | ⟨-, s', hs', hready, -, hsent⟩
    · rw [he] at hs
      cases hs
    · rw [hs'] at hs
      cases hs
      have hsent := hsent _ henvelope
      rw [hlast] at hsent
      exact ⟨hready, Option.some.inj hsent⟩
  have htags := fun c => h.tagsOf_put (q := .toDealer w) (y := ⟨message, x.tag⟩) ht rfl c
  refine ⟨h.clients, h.setWorker hready w, ?_, ?_, ?_, h.numbered, ?_, ?_, ?_⟩
  · intro y hy
    rcases List.mem_append.mp hy with hyrest | hy
    · have hok := h.items y (hrest y hyrest)
      refine hok.mono ?_ ?_ ?_
      · rintro m ⟨hm, hr, ha⟩
        refine ⟨hm, hr, ?_⟩
        have hne : y.2.tag ≠ x.tag := fun htag => hclient y hyrest (congrArg Tag.client htag)
        change y.2.tag ∉ (st.answers ++ [_]).map Prod.fst
        simpa [hne] using ha
      · rintro r ⟨hr, m, hm, ha⟩
        exact ⟨hr, m, hm, List.mem_append_left _ ha⟩
      · intro v hv
        by_cases hvw : v = w
        · -- the envelope names one client, and that has one request
          subst hvw
          rw [hv] at hok
          have hframes := hok.2.symm.trans henvelope
          exact absurd (PeerIdentity.eq_of_bytes (by simpa using hframes)) (hclient y hyrest)
        · exact setWorker_of_ne hvw s
    · obtain rfl := List.mem_singleton.mp hy
      exact ⟨r, ⟨hr, x.message, hrequest, List.mem_append_right _ List.mem_cons_self⟩, hmessage⟩
  · intro c
    exact (congrArg List.length (htags c)).trans (h.outstanding c)
  · intro c
    exact (h.conserved c).trans (congrArg _ (htags c).symm)
  · change ((st.answers ++ [_]).map Prod.fst).Nodup
    rw [List.map_append, List.nodup_append]
    refine ⟨h.answers, List.nodup_singleton _, ?_⟩
    rintro t ht' _ hx rfl
    obtain rfl := List.mem_singleton.mp hx
    exact hanswers ht'
  · intro t ht'
    change t ∈ (st.answers ++ [_]).map Prod.fst at ht'
    rw [List.map_append, List.mem_append] at ht'
    rcases ht' with ht' | ht'
    · exact h.asked t ht'
    · obtain rfl := List.mem_singleton.mp ht'
      exact List.mem_map_of_mem hrequest
  · intro y hy
    obtain ⟨hr', m, hm', ha⟩ := h.replies y hy
    exact ⟨hr', m, hm', List.mem_append_left _ ha⟩

theorem asked_append (c d : PeerIdentity) (n : Nat) (m : ZmqMessage) :
    State.asked { st with requests := st.requests ++ [(⟨c, n⟩, m)] } d =
      st.asked d + if c = d then 1 else 0 := by
  rw [State.asked, List.map_append, tagsOf_append, List.length_append]
  by_cases h : c = d
  · subst h
    simp [State.asked, tagsOf_self]
  · simp [State.asked, tagsOf_of_ne (t := ⟨c, n⟩) h, h]

theorem Inv.request (h : Inv broker st) {c : PeerIdentity} {m : ZmqMessage} (hm : m.frames ≠ [])
    {s : ReqSocket} (hs : (st.clients c).send m = (.ok (), s)) {message : ZmqMessage}
    (hlast : lastSent broker s.peers = some message) :
    Inv broker ({ st.setClient c s with
      requests := st.requests ++ [((⟨c, st.asked c⟩ : Tag), m)] }.put
        (.toRouter c) ⟨message, ⟨c, st.asked c⟩⟩ st.items) := by
  obtain ⟨hidle, hready, hcurrent, hmessage⟩ : (st.clients c).currentRequest = none ∧
      ReqReady broker s ∧ s.currentRequest = some broker ∧ message = m.pushFront [] := by
    rcases (h.clients c).send m with ⟨-, e, he⟩ | ⟨hidle, s', hs', hready, hcurrent, hsent⟩
    · rw [he] at hs
      cases hs
    · rw [hs'] at hs
      cases hs
      rw [hlast] at hsent
      exact ⟨hidle, hready, hcurrent, Option.some.inj hsent⟩
  have hnone : tagsOf c (itemTags st.items) = [] := by
    rw [← List.length_eq_zero_iff, h.outstanding c, hidle]
    rfl
  have hnew : (⟨c, st.asked c⟩ : Tag) ∉ st.requests.map Prod.fst := by
    rw [← mem_tagsOf, h.numbered c]
    simp
  have hnew' : (⟨c, st.asked c⟩ : Tag) ∉ st.answers.map Prod.fst := fun ha => hnew (h.asked _ ha)
  have hcount := @asked_append (st.setClient c s) c
  refine ⟨?_, h.workers, ?_, ?_, ?_, ?_, h.answers, ?_, ?_⟩
  · intro d
    by_cases hd : d = c
    · subst hd
      exact (setClient_self d s).symm ▸ hready
    · exact (setClient_of_ne hd s).symm ▸ h.clients d
  · intro y hy
    rcases List.mem_append.mp hy with hy | hy
    · refine (h.items y hy).mono ?_ ?_ fun _ _ => rfl
      · rintro m ⟨hm, hr, ha⟩
        exact ⟨hm, List.mem_append_left _ hr, ha⟩
      · rintro r ⟨hr, m, hm, ha⟩
        exact ⟨hr, m, List.mem_append_left _ hm, ha⟩
    · obtain rfl := List.mem_singleton.mp hy
      exact ⟨rfl, m, ⟨hm, List.mem_append_right _ List.mem_cons_self, hnew'⟩, hmessage⟩
  · intro d
    change (tagsOf d (itemTags (st.items ++ [_]))).length =
      if ((st.setClient c s).clients d).currentRequest.isSome then 1 else 0
    rw [itemTags_append, tagsOf_append]
    by_cases hd : d = c
    · subst hd
      rw [hnone, setClient_self, hcurrent]
      simp [itemTags, tagsOf_self]
    · rw [setClient_of_ne hd, ← h.outstanding d]
      simp [itemTags, tagsOf_of_ne (t := ⟨c, st.asked c⟩) (Ne.symm hd)]
  · intro d
    change tagsOf d ((st.requests ++ [_]).map Prod.fst) =
      tagsOf d (st.replies.map Prod.fst) ++ tagsOf d (itemTags (st.items ++ [_]))
    rw [List.map_append, tagsOf_append, itemTags_append, tagsOf_append, h.conserved d,
      List.append_assoc]
    rfl
  · intro d
    change tagsOf d ((st.requests ++ [_]).map Prod.fst) =
      (List.range (State.asked { st with requests := st.requests ++ [_] } d)).map (Tag.mk d)
    rw [asked_append, List.map_append, tagsOf_append, h.numbered d]
    by_cases hd : c = d
    · subst hd
      rw [if_pos rfl, List.range_succ, List.map_append]
      exact congrArg _ (tagsOf_self _ _)
    · rw [if_neg hd]
      exact (congrArg _ (tagsOf_of_ne (t := ⟨c, st.asked c⟩) hd)).trans (List.append_nil _)
  · intro t ht
    have hmem := h.asked t ht
    change t ∈ (st.requests ++ [_]).map Prod.fst
    rw [List.map_append]
    exact List.mem_append_left _ hmem
  · intro y hy
    obtain ⟨hr, m, hm, ha⟩ := h.replies y hy
    exact ⟨hr, m, List.mem_append_left _ hm, ha⟩

theorem Inv.clientRecv (h : Inv broker st) {c : PeerIdentity}
    (hc : (st.clients c).currentRequest = some broker) {x : Parcel} {rest : List (Place × Parcel)}
    (ht : Lib.Places.take (.toClient c) st.items = some (x, rest)) :
    ∃ r s, ((st.clients c).recv fun _ => some (.ok (.message x.message))) = (.ok r, s) ∧
      Inv broker { st.setClient c s with
        items := rest, replies := st.replies ++ [(⟨c, st.asked c - 1⟩, r)] } := by
  obtain ⟨hx, hrest⟩ := mem_of_take ht
  obtain ⟨hclient, r, hr, hmessage⟩ := h.items _ hx
  change x.tag.client = c at hclient
  change x.message = r.pushFront [] at hmessage
  subst hclient
  obtain ⟨wire, hl, hf⟩ := (h.clients x.tag.client).wire
  have hrecv := @ReqSocket.recv_delimited _ _ (fun _ => some (.ok (.message x.message))) r hc
    (Option.isSome_iff_exists.mpr ⟨wire, hl⟩) (by rw [hmessage]) hr.1
  refine ⟨r, _, hrecv, ?_⟩
  obtain ⟨hnone, hne⟩ := h.client_ne ht
  have hperm := (Lib.Places.perm_of_take ht).map fun x => x.2.tag
  have htags : ∀ d, tagsOf d (itemTags st.items) =
      tagsOf d [x.tag] ++ tagsOf d (itemTags rest) := by
    intro d
    have hd := (hperm.filter (·.client = d)).symm
    rw [← tagsOf_append]
    exact (eq_of_perm_of_short hd (h.short d)).symm
  have hself : tagsOf x.tag.client [x.tag] = [x.tag] := tagsOf_self _ _
  -- the request under way is the last one
  have htag : x.tag = ⟨x.tag.client, st.asked x.tag.client - 1⟩ := by
    have hlast := (h.numbered x.tag.client).symm.trans (h.conserved x.tag.client)
    rw [htags, hnone, hself, List.append_nil] at hlast
    have hlast := congrArg List.getLast? hlast
    cases hn : st.asked x.tag.client with
    | zero => simp [hn] at hlast
    | succ n =>
      rw [hn, List.range_succ, List.map_append, List.getLast?_append] at hlast
      simpa using hlast.symm
  rw [← htag]
  refine ⟨?_, h.workers, ?_, ?_, ?_, h.numbered, h.answers, h.asked, ?_⟩
  · intro d
    by_cases hd : d = x.tag.client
    · subst hd
      have hready := h.clients x.tag.client
      exact (setClient_self _ _).symm ▸ ⟨hready.wire, hready.roundRobin, .inl rfl⟩
    · exact (setClient_of_ne hd _).symm ▸ h.clients d
  · exact fun y hy => h.items y (hrest y hy)
  · intro d
    change (tagsOf d (itemTags rest)).length =
      if ((st.setClient _ _).clients d).currentRequest.isSome then 1 else 0
    by_cases hd : d = x.tag.client
    · subst hd
      rw [hnone, setClient_self]
      rfl
    · rw [setClient_of_ne hd, ← h.outstanding d, htags d, tagsOf_of_ne (Ne.symm hd)]
      rfl
  · intro d
    change tagsOf d (st.requests.map Prod.fst) =
      tagsOf d ((st.replies ++ [_]).map Prod.fst) ++ tagsOf d (itemTags rest)
    rw [h.conserved d, htags d, List.map_append, tagsOf_append, List.append_assoc]
    rfl
  · intro y hy
    rcases List.mem_append.mp hy with hy | hy
    · exact h.replies y hy
    · obtain rfl := List.mem_singleton.mp hy
      exact hr

theorem inv_next (h : Inv broker st) {a : Action} (hn : next broker fresh st a = some st') :
    Inv broker st' := by
  cases a with
  | request c m =>
    simp only [next] at hn
    split at hn
    · cases hn
    · rename_i hm
      split at hn
      · rename_i e s hs
        cases hn
        rcases (h.clients c).send m with ⟨-, e', hs'⟩ | ⟨-, s', hs', -⟩
        · cases hs.symm.trans hs'
          rwa [setClient_eq_self]
        · cases hs.symm.trans hs'
      · rename_i s hs
        obtain ⟨message, hlast, rfl⟩ := Option.map_eq_some_iff.mp hn
        exact h.request hm hs hlast
  | routerRecv c =>
    simp only [next] at hn
    split at hn
    · obtain ⟨⟨x, rest⟩, ht, rfl⟩ := Option.map_eq_some_iff.mp hn
      refine h.move ht rfl ?_
      rintro ⟨rfl, m, hm, hmessage⟩
      exact ⟨m, hm, congrArg (ZmqMessage.pushFront · _) hmessage⟩
    · cases hn
  | dealerSend w =>
    obtain ⟨⟨x, rest⟩, ht, rfl⟩ := Option.map_eq_some_iff.mp hn
    exact h.move ht rfl id
  | workerRecv w =>
    obtain ⟨⟨x, rest⟩, ht, rfl⟩ := Option.map_eq_some_iff.mp hn
    obtain ⟨m, s, hs, hinv⟩ := h.workerRecv ht
    simpa only [hs] using hinv
  | workerSend w r =>
    simp only [next] at hn
    split at hn
    · cases hn
    · rename_i hr
      split at hn
      · rename_i e s hs
        cases hn
        rcases (h.workers w).send r with ⟨-, e', hs'⟩ | ⟨-, s', hs', -⟩
        · cases hs.symm.trans hs'
          rwa [setWorker_eq_self]
        · cases hs.symm.trans hs'
      · rename_i s hs
        obtain ⟨message, hlast, hn⟩ := Option.bind_eq_some_iff.mp hn
        obtain ⟨⟨x, rest⟩, ht, hn⟩ := Option.bind_eq_some_iff.mp hn
        cases hn
        exact h.workerSend hr hs hlast ht
  | dealerRecv w =>
    simp only [next] at hn
    split at hn
    · obtain ⟨⟨x, rest⟩, ht, rfl⟩ := Option.map_eq_some_iff.mp hn
      exact h.move ht rfl id
    · cases hn
  | routerSend =>
    obtain ⟨⟨x, rest⟩, ht, rfl⟩ := Option.map_eq_some_iff.mp hn
    obtain ⟨r, hr, hmessage⟩ := h.items _ (mem_of_take ht).1
    change x.message = _ at hmessage
    have htarget := RouterSocket.target_pushFront fresh x.tag.client (m := r.pushFront [])
      (by simp [ZmqMessage.pushFront])
    rw [← hmessage] at htarget
    simp only [htarget]
    exact h.move ht rfl fun _ => ⟨rfl, r, hr, rfl⟩
  | clientRecv c =>
    simp only [next] at hn
    split at hn
    · cases hn
      exact h
    · rename_i p hp
      have hc : (st.clients c).currentRequest = some broker :=
        (h.clients c).current.resolve_left (by simp [hp])
      obtain ⟨⟨x, rest⟩, ht, rfl⟩ := Option.map_eq_some_iff.mp hn
      obtain ⟨r, s, hs, hinv⟩ := h.clientRecv hc ht
      simpa only [hs] using hinv
  | lose p =>
    simp only [next] at hn
    split at hn
    · obtain ⟨⟨x, rest⟩, ht, rfl⟩ := Option.map_eq_some_iff.mp hn
      exact h.move ht rfl fun _ => trivial
    · cases hn

theorem inv_init : Inv broker (system broker fresh).init where
  clients _ := ⟨⟨openWire, AList.lookup_insert _, rfl⟩, rfl, .inl rfl⟩
  workers _ := ⟨⟨openWire, AList.lookup_insert _, rfl⟩, .inl rfl⟩
  items _ hx := absurd hx List.not_mem_nil
  outstanding _ := rfl
  conserved _ := rfl
  numbered _ := rfl
  answers := .nil
  asked _ ht := absurd ht List.not_mem_nil
  replies _ hx := absurd hx List.not_mem_nil

theorem inv (h : (system broker fresh).Reachable st) : Inv broker st :=
  h.invariant inv_init fun _ _ _ h hn => inv_next h hn

theorem Inv.requests_nodup (h : Inv broker st) : (st.requests.map Prod.fst).Nodup := by
  rw [List.nodup_iff_count_le_one]
  intro t
  have hnodup : (tagsOf t.client (st.requests.map Prod.fst)).Nodup := by
    rw [h.numbered t.client]
    refine List.nodup_range.map fun m n hmn => ?_
    exact congrArg Tag.number hmn
  have hcount := List.nodup_iff_count_le_one.mp hnodup t
  rwa [tagsOf, List.count_filter (by simp)] at hcount

end Invariant

/-- The replies that a client gets are the replies to its requests, in their order and none of
them twice, whatever the order in which the workers get and answer the requests of all clients:
each is what a worker sent for the request that the client sent, and no request is answered
twice.  The request that a client waits for is in one place: on a connection, with the proxy, with
a worker, or lost. -/
theorem replies_answer_requests (broker fresh : PeerIdentity) {st : State}
    (h : (system broker fresh).Reachable st) :
    (∀ t r, (t, r) ∈ st.replies → ∃ m, (t, m) ∈ st.requests ∧ (t, m, r) ∈ st.answers) ∧
      (st.requests.map Prod.fst).Nodup ∧ (st.answers.map Prod.fst).Nodup ∧
      ∀ c, tagsOf c (st.requests.map Prod.fst) = (List.range (st.asked c)).map (Tag.mk c) ∧
        tagsOf c (st.requests.map Prod.fst) =
          tagsOf c (st.replies.map Prod.fst) ++ tagsOf c (itemTags st.items) ∧
        (tagsOf c (itemTags st.items)).length =
          if (st.clients c).currentRequest.isSome then 1 else 0 := by
  have hi := inv h
  refine ⟨?_, hi.requests_nodup, hi.answers, ?_⟩
  · intro t r hr
    exact (hi.replies _ hr).2
  · exact fun c => ⟨hi.numbered c, hi.conserved c, hi.outstanding c⟩

def twoClients (c d v w : PeerIdentity) : List Action :=
  [.request c ⟨[[10]]⟩, .request d ⟨[[20]]⟩, .routerRecv d, .dealerSend v, .routerRecv c,
    .dealerSend w, .workerRecv v, .workerRecv w, .workerSend w ⟨[[11]]⟩, .workerSend v ⟨[[21]]⟩,
    .dealerRecv w, .routerSend, .dealerRecv v, .routerSend, .clientRecv d, .clientRecv c]

theorem replies_answer_requests_twoClients :
    let c : PeerIdentity := .ofByte 1
    let d : PeerIdentity := .ofByte 2
    let sys := system (.ofByte 9) (.ofByte 8)
    ∃ st, sys.run sys.init (twoClients c d (.ofByte 3) (.ofByte 4)) = some st ∧
      st.replies = [(⟨d, 0⟩, ⟨[[21]]⟩), (⟨c, 0⟩, ⟨[[11]]⟩)] ∧
      ∀ t r, (t, r) ∈ st.replies → ∃ m, (t, m) ∈ st.requests ∧ (t, m, r) ∈ st.answers := by
  intro c d sys
  have hrun : (sys.run sys.init (twoClients c d (.ofByte 3) (.ofByte 4))).any fun st =>
      st.replies = [(⟨d, 0⟩, ⟨[[21]]⟩), (⟨c, 0⟩, ⟨[[11]]⟩)] := by
    decide +kernel
  obtain ⟨st, hst, hreplies⟩ := (Option.any_eq_true _ _).mp hrun
  exact ⟨st, hst, of_decide_eq_true hreplies,
    (replies_answer_requests (.ofByte 9) (.ofByte 8) ⟨_, hst⟩).1⟩

end Service

end ZmqRs
