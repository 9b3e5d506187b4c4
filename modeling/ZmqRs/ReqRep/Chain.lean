import ZmqRs.ReqRep
import ZmqRs.Backend.Ring

/-! A request through any number of brokers to a REP socket, and its reply back
along the same hops. -/

namespace ZmqRs

open Codec (Message)

variable [Target] {S W : Type}

namespace GenericSocketBackend

def lastSent (b : GenericSocketBackend S W) (p : PeerIdentity) : Option ZmqMessage :=
  (b.peers.lookup p).bind fun c => b.channels[c]?.bind fun channel =>
    match channel.queue.getLast? with
    | some (.message m) => some m
    | _ => none

def Reached (b : GenericSocketBackend S W) : Prop :=
  ∃ fairQueueInner cs, (cs.filterMap Call.connects).Nodup ∧
    b = ((withOptions fairQueueInner).calls cs).2

structure Open (b : GenericSocketBackend S W) (room : Room) (p : PeerIdentity) (c : Sender) :
    Prop where
  lookup : b.peers.lookup p = some c
  opened : (RingBackend.settle b.channels c room).isClosed c = false
  fits : room.Fits b.channels c

variable {b : GenericSocketBackend S W} {room : Room} {p : PeerIdentity} {c : Sender}

theorem Reached.refines (h : b.Reached) : ∃ used r, Refines used b r := by
  obtain ⟨fq, cs, hn, rfl⟩ := h
  exact (refines_withOptions fq).steps hn (by simp)

structure SentTo (b : GenericSocketBackend S W) (room : Room) (c : Sender) (p : PeerIdentity)
    (m : ZmqMessage) (b' : GenericSocketBackend S W) : Prop where
  channels : b'.channels = (RingBackend.settle b.channels c room).push c (.message m)
  lookup : b'.peers.lookup p = some c

omit [Target] in
theorem SentTo.lastSent {b' : GenericSocketBackend S W} {m : ZmqMessage} (ho : b.Open room p c)
    (h : SentTo b room c p m b') : b'.lastSent p = some m := by
  have ho := ho.opened
  rw [Channels.isClosed] at ho
  split at ho
  · rename_i channel hc
    rw [GenericSocketBackend.lastSent, h.lookup, h.channels, Channels.push]
    simp [hc]
  · cases ho

omit [Target] in
theorem Open.put {used : List PeerIdentity} {r : RingBackend} (ho : b.Open room p c)
    (hr : Refines used b r) (m : Message) :
    r.put c room m = (.ok (), (RingBackend.settle b.channels c room).push c m) := by
  have hstays : b.channels.isClosed c = false → .closed c ∉ room.events := by
    intro hc hmem
    cases room with
    | free => cases hmem
    | full events =>
      have hopened := ho.opened
      have hmem : .closed c ∈ events := hmem
      rw [RingBackend.settle, hc, if_neg Bool.false_ne_true,
        Channels.isClosed_foldl_of_mem hmem] at hopened
      cases hopened
  rw [hr.put_eq ((hr.lookup p c).mp ho.lookup) (fun _ hc => ⟨hstays hc, ho.fits⟩),
    sendToPeerQueue_eq, ← hr.channels, ho.opened]
  rfl

theorem Reached.sendToPeer (h : b.Reached) (ho : b.Open room p c) (m : ZmqMessage) :
    (b.sendToPeer room p (.message m)).1 = .ok () ∧
      SentTo b room c p m (b.sendToPeer room p (.message m)).2 := by
  obtain ⟨used, r, hr⟩ := h.refines
  obtain ⟨h₁, h₂⟩ := hr.putToPeer room p m
  rw [RingBackend.putToPeer, hr.find?_ring, ho.lookup] at h₁ h₂
  simp only [Option.map_some, ho.put hr] at h₁ h₂
  exact ⟨h₁, h₂.channels, (h₂.lookup p c).mpr ((hr.lookup p c).mp ho.lookup)⟩

def Next (b : GenericSocketBackend S W) (p : PeerIdentity) : Prop :=
  (b.roundRobin.filter (· ∈ b.peers)).head? = some p

theorem Reached.sendRoundRobin (h : b.Reached) (hn : b.Next p) (ho : b.Open room p c)
    (m : ZmqMessage) :
    (b.sendRoundRobin room (.message m)).1 = .ok () ∧
      SentTo b room c p m (b.sendRoundRobin room (.message m)).2 := by
  obtain ⟨used, r, hr⟩ := h.refines
  obtain ⟨rest, hring⟩ : ∃ rest, r.ring = (p, c) :: rest := by
    rw [Next, hr.ring] at hn
    rcases hrr : r.ring with _ | ⟨⟨q, d⟩, rest⟩ <;> rw [hrr] at hn
    · cases hn
    · obtain rfl : q = p := by simpa using hn
      have hd := (hr.lookup q d).mpr (by simp [hrr])
      obtain rfl : c = d := by simpa [ho.lookup] using hd
      exact ⟨rest, rfl⟩
  obtain ⟨h₁, h₂⟩ := hr.putRoundRobin room m
  simp only [RingBackend.putRoundRobin, hring, ho.put hr] at h₁ h₂
  refine ⟨h₁, h₂.channels, (h₂.lookup p c).mpr ?_⟩
  exact List.mem_append_right rest (List.mem_singleton_self (p, c))

end GenericSocketBackend

/-- A broker: a ROUTER that knows the hop before it as `upstream`, and a DEALER
that knows the hop behind it as `downstream`. -/
structure Broker (S W : Type) where
  router : GenericSocketBackend S W
  upstream : PeerIdentity
  up : Room
  dealer : GenericSocketBackend S W
  downstream : PeerIdentity
  down : Room

namespace Broker

def forward (k : Broker S W) (m : ZmqMessage) : Option (Broker S W × ZmqMessage) :=
  match (Recv.RouterSocket.recv.arm (some (k.upstream, .ok (.message m)))).result with
  | some (.ok m) =>
    match DealerSocket.send k.dealer k.down m with
    | (.ok (), dealer) =>
      (dealer.lastSent k.downstream).map fun m => ({ k with dealer := dealer }, m)
    | (.error _, _) => none
  | _ => none

def back (fresh : PeerIdentity) (k : Broker S W) (m : ZmqMessage) :
    Option (Broker S W × ZmqMessage) :=
  match (Recv.DealerSocket.recv.arm (some (k.downstream, .ok (.message m)))).result with
  | some (.ok m) =>
    match RouterSocket.send fresh k.router k.up m with
    | (.ok (), router) =>
      (router.lastSent k.upstream).map fun m => ({ k with router := router }, m)
    | (.error _, _) => none
  | _ => none

def forwardAll : List (Broker S W) → ZmqMessage → Option (List (Broker S W) × ZmqMessage)
  | [], m => some ([], m)
  | k :: ks, m =>
    (k.forward m).bind fun (k, m) => (forwardAll ks m).map fun (ks, m) => (k :: ks, m)

def backAll (fresh : PeerIdentity) :
    List (Broker S W) → ZmqMessage → Option (List (Broker S W) × ZmqMessage)
  | [], m => some ([], m)
  | k :: ks, m =>
    (backAll fresh ks m).bind fun (ks, m) => (k.back fresh m).map fun (k, m) => (k :: ks, m)

structure Wired (k : Broker S W) : Prop where
  router : k.router.Reached
  upstream : ∃ c, k.router.Open k.up k.upstream c
  dealer : k.dealer.Reached
  next : k.dealer.Next k.downstream
  downstream : ∃ c, k.dealer.Open k.down k.downstream c

theorem Wired.forward {k : Broker S W} (hk : k.Wired) (m : ZmqMessage) :
    ∃ dealer, k.forward m = some ({ k with dealer := dealer }, m.pushFront k.upstream.bytes) := by
  obtain ⟨c, ho⟩ := hk.downstream
  obtain ⟨h₁, h₂⟩ := hk.dealer.sendRoundRobin hk.next ho (m.pushFront k.upstream.bytes)
  have hl := h₂.lastSent ho
  rcases hs : k.dealer.sendRoundRobin k.down (.message (m.pushFront k.upstream.bytes)) with ⟨r, d⟩
  rw [hs] at h₁ hl
  obtain rfl : r = .ok () := h₁
  refine ⟨d, ?_⟩
  rw [Broker.forward]
  dsimp only [Recv.Loop.arm, Recv.RouterSocket.recv, DealerSocket.send]
  simp only [hs, hl]
  rfl

def Routed (k k' : Broker S W) : Prop :=
  ∃ c m, k.router.Open k.up k.upstream c ∧
    k'.router.channels =
      (RingBackend.settle k.router.channels c k.up).push c (.message m)

theorem back_of_router {k : Broker S W} (fresh : PeerIdentity) (hr : k.router.Reached)
    (hu : ∃ c, k.router.Open k.up k.upstream c) {m : ZmqMessage} (hm : m.frames ≠ []) :
    ∃ router, k.back fresh (m.pushFront k.upstream.bytes) = some ({ k with router := router }, m) ∧
      Routed k { k with router := router } := by
  obtain ⟨c, ho⟩ := hu
  obtain ⟨h₁, h₂⟩ := hr.sendToPeer ho m
  have hl := h₂.lastSent ho
  rcases hs : k.router.sendToPeer k.up k.upstream (.message m) with ⟨r, d⟩
  rw [hs] at h₁ h₂ hl
  obtain rfl : r = .ok () := h₁
  refine ⟨d, ?_, c, m, ho, h₂.channels⟩
  have hlen : ¬ (m.pushFront k.upstream.bytes).len ≤ 1 := by
    have := List.length_pos_iff.mpr hm
    simp only [ZmqMessage.len, ZmqMessage.pushFront, List.length_cons]
    omega
  rw [Broker.back]
  dsimp only [Recv.Loop.arm, Recv.DealerSocket.recv]
  rw [RouterSocket.send, if_neg hlen]
  dsimp only [ZmqMessage.popFront, ZmqMessage.pushFront]
  rw [PeerIdentity.tryFrom_bytes]
  dsimp only
  simp only [hs, Prod.map, Except.mapError, id, hl]
  rfl

def route (ks : List (Broker S W)) : List Bytes := (ks.map (·.upstream.bytes)).reverse

omit [Target] in
theorem route_cons (k : Broker S W) (ks : List (Broker S W)) (m : ZmqMessage) :
    route (k :: ks) ++ m.frames = route ks ++ (m.pushFront k.upstream.bytes).frames := by
  simp [route, ZmqMessage.pushFront]

def SameRouter (k k' : Broker S W) : Prop :=
  k'.router = k.router ∧ k'.upstream = k.upstream ∧ k'.up = k.up

theorem forwardAll_wired {ks : List (Broker S W)} (hk : ∀ k ∈ ks, k.Wired) (m : ZmqMessage) :
    ∃ ks', forwardAll ks m = some (ks', ⟨route ks ++ m.frames⟩) ∧ List.Forall₂ SameRouter ks ks' := by
  induction ks generalizing m with
  | nil => exact ⟨[], rfl, .nil⟩
  | cons k ks ih =>
    obtain ⟨dealer, hf⟩ := (hk k List.mem_cons_self).forward m
    obtain ⟨ks', hs, hr⟩ := ih (fun k' h => hk k' (List.mem_cons_of_mem k h))
      (m.pushFront k.upstream.bytes)
    refine ⟨{ k with dealer := dealer } :: ks', ?_, .cons ⟨rfl, rfl, rfl⟩ hr⟩
    rw [route_cons, forwardAll, hf]
    simp [hs]

theorem backAll_routed (fresh : PeerIdentity) {ks : List (Broker S W)}
    (hk : ∀ k ∈ ks, k.router.Reached ∧ ∃ c, k.router.Open k.up k.upstream c) {m : ZmqMessage}
    (hm : m.frames ≠ []) :
    ∃ ks', backAll fresh ks ⟨route ks ++ m.frames⟩ = some (ks', m) ∧
      List.Forall₂ Routed ks ks' := by
  induction ks generalizing m with
  | nil => exact ⟨[], rfl, .nil⟩
  | cons k ks ih =>
    obtain ⟨hr, hu⟩ := hk k List.mem_cons_self
    obtain ⟨router, hb, hro⟩ := back_of_router fresh hr hu hm
    obtain ⟨ks', hs, hros⟩ := ih (m := m.pushFront k.upstream.bytes)
      (fun k' h => hk k' (List.mem_cons_of_mem k h)) (by simp [ZmqMessage.pushFront])
    refine ⟨{ k with router := router } :: ks', ?_, .cons hro hros⟩
    rw [route_cons, backAll, hs]
    simp [hb]

end Broker

omit [Target] in
theorem RepSocket.splitIndex_route (ks : List (Broker S W)) (frames : List Bytes) :
    RepSocket.splitIndex (Broker.route ks ++ [] :: frames) = (Broker.route ks).length + 1 := by
  have hn : (Broker.route ks).findIdx? List.isEmpty = none := by
    rw [List.findIdx?_eq_none_iff]
    intro f hf
    obtain ⟨k, -, rfl⟩ := List.mem_map.mp (List.mem_reverse.mp hf)
    simpa using k.upstream.nonempty
  simp [RepSocket.splitIndex, List.findIdx?_append, hn, List.findIdx?_cons]

/-- REQ, the brokers in the order a request meets them, and REP.  `server` and
`client` are how REQ and REP know the hop next to them. -/
structure Chain (S W : Type) where
  req : ReqSocket
  server : PeerIdentity
  brokers : List (Broker S W)
  rep : RepSocket
  client : PeerIdentity

namespace Chain

def request (n : Chain S W) (m : ZmqMessage) :
    Option (Chain S W × Option (Res ZmqError ZmqMessage)) :=
  match n.req.send m with
  | (.error _, _) => none
  | (.ok (), req) =>
    ((req.peers.lookup n.server).bind Wire.lastSent).bind fun m =>
      (Broker.forwardAll n.brokers m).map fun (brokers, m) =>
        let (result, rep) := n.rep.onNext (some (n.client, .ok (.message m)))
        ({ n with req := req, brokers := brokers, rep := rep }, result)

def reply (fresh : PeerIdentity) (n : Chain S W) (r : ZmqMessage) :
    Option (Chain S W × Res ZmqError ZmqMessage) :=
  match n.rep.send r with
  | (.error _, _) => none
  | (.ok (), rep) =>
    ((rep.peers.lookup n.client).bind Wire.lastSent).bind fun m =>
      (Broker.backAll fresh n.brokers m).map fun (brokers, m) =>
        let (result, req) := n.req.recv fun p =>
          if p = n.server then some (.ok (.message m)) else none
        ({ n with req := req, brokers := brokers, rep := rep }, result)

structure Wired (n : Chain S W) : Prop where
  ready : n.req.currentRequest = none
  next : (n.req.roundRobin.filter (· ∈ n.req.peers)).head? = some n.server
  server : ∃ w, n.req.peers.lookup n.server = some w ∧ w.failure = none
  brokers : ∀ k ∈ n.brokers, k.Wired
  client : ∃ w, n.rep.peers.lookup n.client = some w ∧ w.failure = none

end Chain

omit [Target] in
theorem Wire.lastSent_send {w : Wire} (h : w.failure = none) (m : ZmqMessage) :
    ∃ w', w.send (.message m) = .ok w' ∧ w'.lastSent = some m :=
  ⟨_, Wire.send_open h _, by simp [Wire.lastSent, Wire.push]⟩

omit [Target] in
theorem ReqSocket.sendLoop_ok {s : ReqSocket} {queue : List PeerIdentity} {p : PeerIdentity}
    {w : Wire} (hn : (queue.filter (· ∈ s.peers)).head? = some p) (hl : s.peers.lookup p = some w)
    (hf : w.failure = none) (m : ZmqMessage) :
    ∃ s', s.sendLoop m queue = (.ok (), s') ∧ s'.currentRequest = some p ∧
      (s'.peers.lookup p).bind Wire.lastSent = some (m.pushFront []) := by
  induction queue with
  | nil => cases hn
  | cons q queue ih =>
    cases hq : s.peers.lookup q with
    | none =>
      have hm : q ∉ s.peers := AList.lookup_eq_none.mp hq
      rw [List.filter_cons_of_neg (by simpa using hm)] at hn
      rw [sendLoop, hq]
      exact ih hn
    | some w' =>
      have hm : q ∈ s.peers := AList.lookup_isSome.mp (by simp [hq])
      rw [List.filter_cons_of_pos (by simpa using hm)] at hn
      obtain rfl : q = p := by simpa using hn
      obtain rfl : w' = w := by simpa [hq] using hl
      obtain ⟨w'', hs, hls⟩ := Wire.lastSent_send hf (m.pushFront [])
      refine ⟨_, by rw [sendLoop, hq]; dsimp only; rw [hs], rfl, ?_⟩
      simpa using hls

omit [Target] in
theorem ReqSocket.recv_delimited {s : ReqSocket} {p : PeerIdentity}
    {next : PeerIdentity → Option Recv.Item} {r : ZmqMessage} (hc : s.currentRequest = some p)
    (hp : (s.peers.lookup p).isSome) (hn : next p = some (.ok (.message (r.pushFront []))))
    (hr : r.frames ≠ []) : s.recv next = (.ok r, { s with currentRequest := none }) := by
  obtain ⟨w, hw⟩ := Option.isSome_iff_exists.mp hp
  have hlen := List.length_pos_iff.mpr hr
  have hl : ¬ (r.pushFront []).len < 2 := by
    simp only [ZmqMessage.len, ZmqMessage.pushFront, List.length_cons]
    omega
  rw [ReqSocket.recv, hc]
  dsimp only
  rw [hw, hn]
  simp only [ReqSocket.onNext, if_neg hl]
  rfl

omit [Target] in
theorem RepSocket.onNext_route (s : RepSocket) (p : PeerIdentity) (ks : List (Broker S W))
    {m : ZmqMessage} (hm : m.frames ≠ []) :
    s.onNext (some (p, .ok (.message ⟨Broker.route ks ++ [] :: m.frames⟩))) =
      (some (.ok m),
        { s with envelope := some ⟨Broker.route ks ++ [[]]⟩, currentRequest := some p }) := by
  have hlen := List.length_pos_iff.mpr hm
  have hl : ¬ (Broker.route ks ++ [] :: m.frames).length < 2 := by
    simp only [List.length_append, List.length_cons]
    omega
  have hs : ZmqMessage.splitOff ⟨Broker.route ks ++ [] :: m.frames⟩ ((Broker.route ks).length + 1) =
      some (⟨Broker.route ks ++ [[]]⟩, m) := by
    rw [ZmqMessage.splitOff, if_neg (by simp [ZmqMessage.len])]
    have hd : (Broker.route ks).drop ((Broker.route ks).length + 1) = [] :=
      List.drop_eq_nil_of_le (Nat.le_succ _)
    simp [List.take_append, List.drop_append, hd]
  simp only [RepSocket.onNext, ZmqMessage.len, if_neg hl, RepSocket.splitIndex_route, hs]

namespace Chain

theorem Wired.request {n : Chain S W} (hw : n.Wired) {m : ZmqMessage} (hm : m.frames ≠ []) :
    ∃ req brokers, n.request m = some
        (⟨req, n.server, brokers,
          { n.rep with
            envelope := some ⟨Broker.route n.brokers ++ [[]]⟩, currentRequest := some n.client },
          n.client⟩, some (.ok m)) ∧
      List.Forall₂ Broker.SameRouter n.brokers brokers ∧
      req.currentRequest = some n.server ∧ (req.peers.lookup n.server).isSome := by
  obtain ⟨w, hl, hf⟩ := hw.server
  obtain ⟨req, hs, hc, hlast⟩ := ReqSocket.sendLoop_ok hw.next hl hf m
  obtain ⟨brokers, hb, hsame⟩ := Broker.forwardAll_wired hw.brokers (m.pushFront [])
  refine ⟨req, brokers, ?_, hsame, hc, ?_⟩
  · have hsend : n.req.send m = (.ok (), req) := by
      rw [ReqSocket.send, hw.ready]
      exact hs
    rw [Chain.request, hsend]
    dsimp only
    rw [hlast, Option.bind_some, hb, Option.map_some]
    dsimp only [ZmqMessage.pushFront]
    rw [RepSocket.onNext_route n.rep n.client n.brokers hm]
  · cases h : req.peers.lookup n.server with
    | none => simp [h] at hlast
    | some w => rfl

omit [Target] in
theorem route_of_sameRouter {ks ks' : List (Broker S W)} (h : List.Forall₂ Broker.SameRouter ks ks') :
    Broker.route ks' = Broker.route ks := by
  have hm : ks'.map (·.upstream.bytes) = ks.map (·.upstream.bytes) := by
    induction h with
    | nil => rfl
    | cons hk _ ih => rw [List.map_cons, List.map_cons, ih, hk.2.1]
  rw [Broker.route, Broker.route, hm]

theorem router_of_sameRouter {ks ks' : List (Broker S W)}
    (h : List.Forall₂ Broker.SameRouter ks ks') (hk : ∀ k ∈ ks, k.Wired) :
    ∀ k ∈ ks', k.router.Reached ∧ ∃ c, k.router.Open k.up k.upstream c := by
  induction h with
  | nil => simp
  | @cons k k' ks ks' hs _ ih =>
    intro j hj
    rcases List.mem_cons.mp hj with rfl | hj
    · obtain ⟨h₁, h₂, h₃⟩ := hs
      have hw := hk k List.mem_cons_self
      rw [h₁, h₂, h₃]
      exact ⟨hw.router, hw.upstream⟩
    · exact ih (fun k hk' => hk k (List.mem_cons_of_mem _ hk')) j hj

/-- A request reaches REP as it was sent, and the reply comes back to REQ as it
was sent, through the hops of the request: every ROUTER puts it into the queue
of the hop that the request came through and into no other. -/
theorem request_reply {n : Chain S W} (hw : n.Wired) (fresh : PeerIdentity) {m r : ZmqMessage}
    (hm : m.frames ≠ []) (hr : r.frames ≠ []) :
    ∃ n₁ n₂, n.request m = some (n₁, some (.ok m)) ∧ n₁.reply fresh r = some (n₂, .ok r) ∧
      List.Forall₂ Broker.SameRouter n.brokers n₁.brokers ∧
      List.Forall₂ Broker.Routed n₁.brokers n₂.brokers := by
  obtain ⟨req, brokers, hreq, hsame, hc, hp⟩ := hw.request hm
  obtain ⟨w, hl, hf⟩ := hw.client
  obtain ⟨brokers', hb, hrouted⟩ := Broker.backAll_routed fresh
    (router_of_sameRouter hsame hw.brokers) (m := r.pushFront []) (by simp [ZmqMessage.pushFront])
  rw [route_of_sameRouter hsame] at hb
  obtain ⟨w', hs, hlast⟩ := Wire.lastSent_send hf (r.prepend ⟨Broker.route n.brokers ++ [[]]⟩)
  have hpre : r.prepend ⟨Broker.route n.brokers ++ [[]]⟩ =
      ⟨Broker.route n.brokers ++ (r.pushFront []).frames⟩ := by
    refine (congrArg ZmqMessage.mk (r.frames_prepend _)).trans ?_
    simp [ZmqMessage.pushFront]
  refine ⟨_, ⟨{ req with currentRequest := none }, n.server, brokers',
    ⟨n.rep.peers.insert n.client w', none, none⟩, n.client⟩, hreq, ?_, hsame, hrouted⟩
  rw [Chain.reply, RepSocket.send]
  dsimp only
  rw [hl]
  dsimp only
  rw [hs]
  dsimp only
  rw [AList.lookup_insert, Option.bind_some, hlast, Option.bind_some, hpre, hb,
    Option.map_some]
  dsimp only
  rw [ReqSocket.recv_delimited hc hp (if_pos rfl) hr]

def brokerBehind (i : UInt8) : Broker Unit Unit where
  router := ((GenericSocketBackend.withOptions none).calls
    [.peerConnected (.ofByte i) (), .peerConnected (.ofByte 0) (),
      .sendToPeer .free (.ofByte i) ⟨[[4]]⟩]).2
  upstream := .ofByte i
  up := .full [.received 0]
  dealer := ((GenericSocketBackend.withOptions none).calls [.peerConnected (.ofByte 7) ()]).2
  downstream := .ofByte 7
  down := .free

def twoBrokers : Chain Unit Unit where
  req := ⟨(∅ : AList _).insert (.ofByte 8) ⟨[], none⟩, [.ofByte 8], none⟩
  server := .ofByte 8
  brokers := [brokerBehind 1, brokerBehind 2]
  rep := ⟨(∅ : AList _).insert (.ofByte 9) ⟨[], none⟩, none, none⟩
  client := .ofByte 9

omit [Target] in
theorem request_reply_twoBrokers :
    letI := Target.x64
    ∃ n₁ n₂, twoBrokers.request ⟨[[], [5]]⟩ = some (n₁, some (.ok ⟨[[], [5]]⟩)) ∧
      n₁.reply (.ofByte 6) ⟨[[]]⟩ = some (n₂, .ok ⟨[[]]⟩) ∧
      List.Forall₂ Broker.SameRouter twoBrokers.brokers n₁.brokers ∧
      List.Forall₂ Broker.Routed n₁.brokers n₂.brokers := by
  let _ := Target.x64
  have h₁ : (brokerBehind 1).Wired :=
    ⟨⟨_, _, by decide, rfl⟩, ⟨0, by rfl, by rfl, by decide⟩, ⟨_, _, by decide, rfl⟩, by rfl,
      ⟨0, by rfl, by rfl, by decide⟩⟩
  have h₂ : (brokerBehind 2).Wired :=
    ⟨⟨_, _, by decide, rfl⟩, ⟨0, by rfl, by rfl, by decide⟩, ⟨_, _, by decide, rfl⟩, by rfl,
      ⟨0, by rfl, by rfl, by decide⟩⟩
  refine request_reply (n := twoBrokers) ⟨rfl, by rfl, ⟨_, by rfl, rfl⟩, ?_, ⟨_, by rfl, rfl⟩⟩
    (.ofByte 6) (by simp) (by simp)
  intro k hk
  rcases List.mem_cons.mp hk with rfl | hk
  · exact h₁
  · obtain rfl := List.mem_singleton.mp hk
    exact h₂

end Chain

end ZmqRs
