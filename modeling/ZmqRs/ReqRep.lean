import ZmqRs.Recv
import ZmqRs.Backend

/-! The request-reply sockets.  REQ and REP write straight to their connections;
ROUTER and DEALER send through `GenericSocketBackend`. -/

namespace ZmqRs

open Codec (Message)
open Recv (Item)

structure ReqSocket where
  peers : AList fun _ : PeerIdentity => Wire
  roundRobin : List PeerIdentity
  currentRequest : Option PeerIdentity

namespace ReqSocket

def peerConnected (s : ReqSocket) (peerId : PeerIdentity) (wire : Wire) : ReqSocket :=
  { s with peers := s.peers.insert peerId wire, roundRobin := s.roundRobin ++ [peerId] }

def sendLoop (s : ReqSocket) (message : ZmqMessage) :
    List PeerIdentity → Except ZmqError Unit × ReqSocket
  | [] =>
    (.error (.returnToSender "Not connected to peers. Unable to send messages" message),
      { s with roundRobin := [] })
  | nextPeerId :: queue =>
    match s.peers.lookup nextPeerId with
    | none => sendLoop s message queue
    | some wire =>
      let s := { s with roundRobin := queue ++ [nextPeerId] }
      match wire.send (.message (message.pushFront [])) with
      | .error e => (.error (.codec e), s)
      | .ok wire =>
        (.ok (),
          { s with peers := s.peers.insert nextPeerId wire, currentRequest := some nextPeerId })

def send (s : ReqSocket) (message : ZmqMessage) : Except ZmqError Unit × ReqSocket :=
  if s.currentRequest.isSome then
    (.error (.returnToSender "Unable to send message. Request already in progress" message), s)
  else s.sendLoop message s.roundRobin

theorem send_cases (s : ReqSocket) (message : ZmqMessage) {s' : ReqSocket}
    {result : Except ZmqError Unit} (h : s.send message = (result, s')) :
    (∃ e, result = .error e ∧ s'.peers = s.peers ∧ s'.currentRequest = s.currentRequest ∧
      ∀ reason m, e = .returnToSender reason m → m = message) ∨
    result = .ok () ∧ s.currentRequest = none ∧ ∃ p wire wire', s.peers.lookup p = some wire ∧
      s'.peers = s.peers.insert p wire' ∧ s'.currentRequest = some p := by
  have hloop : ∀ queue s' result, s.sendLoop message queue = (result, s') →
      (∃ e, result = .error e ∧ s'.peers = s.peers ∧ s'.currentRequest = s.currentRequest ∧
        ∀ reason m, e = .returnToSender reason m → m = message) ∨
      result = .ok () ∧ ∃ p wire wire', s.peers.lookup p = some wire ∧
        s'.peers = s.peers.insert p wire' ∧ s'.currentRequest = some p := by
    intro queue
    induction queue with
    | nil =>
      intro s' result h
      cases h
      refine .inl ⟨_, rfl, rfl, rfl, ?_⟩
      rintro reason m ⟨⟩
      rfl
    | cons p queue ih =>
      intro s' result h
      rw [sendLoop] at h
      split at h
      · exact ih s' result h
      · rename_i wire hp
        dsimp only at h
        split at h
        · cases h
          exact .inl ⟨_, rfl, rfl, rfl, nofun⟩
        · rename_i wire' _
          cases h
          exact .inr ⟨rfl, p, wire, wire', hp, rfl, rfl⟩
  rw [send] at h
  split at h
  · cases h
    refine .inl ⟨_, rfl, rfl, rfl, ?_⟩
    rintro reason m ⟨⟩
    rfl
  · rename_i hc
    rcases hloop _ _ _ h with herr | ⟨hok, hrest⟩
    · exact .inl herr
    · exact .inr ⟨hok, by simpa using hc, hrest⟩

theorem send_refused (s : ReqSocket) (message : ZmqMessage)
    (h : s.currentRequest.isSome ∨ ∀ p, s.peers.lookup p = none) :
    ∃ reason s', s.send message = (.error (.returnToSender reason message), s') := by
  have hloop : ∀ queue, (∀ p, s.peers.lookup p = none) → ∃ reason s',
      s.sendLoop message queue = (.error (.returnToSender reason message), s') := by
    intro queue hp
    induction queue with
    | nil => exact ⟨_, _, rfl⟩
    | cons p queue ih =>
      rw [sendLoop, hp p]
      exact ih
  rw [send]
  split
  · exact ⟨_, _, rfl⟩
  · rename_i hc
    exact hloop _ (h.resolve_left hc)

def onNext : Option Item → Res ZmqError ZmqMessage
  | some (.ok (.message m)) =>
    if m.len < 2 then .error (.error (.other "Invalid message format: too few frames"))
    else
      match m.popFront with
      | (none, _) => .error .panic
      | (some frame, m) =>
        if !frame.isEmpty then .error (.error (.other "Invalid message format: missing delimiter"))
        else .ok m
  | some (.ok _) => .error (.error (.other "Received non-message frame"))
  | some (.error e) => .error (e.map .codec)
  | none => .error (.error .noMessage)

/-- `next p` is what `recv_queue.next()` of the peer `p` gives. -/
def recv (s : ReqSocket) (next : PeerIdentity → Option Item) : Res ZmqError ZmqMessage × ReqSocket :=
  match s.currentRequest with
  | none => (.error (.error (.other "Unable to recv. No request in progress")), s)
  | some peerId =>
    match s.peers.lookup peerId with
    | none => (.error (.error (.other "Server disconnected")), { s with currentRequest := none })
    | some _ => (onNext (next peerId), { s with currentRequest := none })

end ReqSocket

structure RepSocket where
  peers : AList fun _ : PeerIdentity => Wire
  envelope : Option ZmqMessage
  currentRequest : Option PeerIdentity

namespace RepSocket

def splitIndex (frames : List Bytes) : Nat :=
  match frames.findIdx? List.isEmpty with
  | some index => index + 1
  | none => 1

def onNext (s : RepSocket) : Option (PeerIdentity × Item) →
    Option (Res ZmqError ZmqMessage) × RepSocket
  | some (peerId, .ok (.message m)) =>
    if m.len < 2 then (some (.error (.error (.other "Invalid message format"))), s)
    else
      match m.splitOff (splitIndex m.frames) with
      | none => (some (.error .panic), s)
      | some (envelope, data) =>
        (some (.ok data), { s with envelope := some envelope, currentRequest := some peerId })
  | some (_, .ok _) => (none, s)
  | some (peerId, .error e) =>
    (some (.error (e.map .codec)), { s with peers := s.peers.erase peerId })
  | none => (some (.error (.error .noMessage)), s)

def send (s : RepSocket) (message : ZmqMessage) : Except ZmqError Unit × RepSocket :=
  match s.currentRequest with
  | none =>
    (.error (.returnToSender "Unable to send reply. No request in progress" message), s)
  | some peerId =>
    let s := { s with currentRequest := none }
    match s.peers.lookup peerId with
    | none => (.error (.returnToSender "Client disconnected" message), s)
    | some wire =>
      let message := match s.envelope with
        | some envelope => message.prepend envelope
        | none => message
      let s := { s with envelope := none }
      match wire.send (.message message) with
      | .error e => (.error (.codec e), s)
      | .ok wire => (.ok (), { s with peers := s.peers.insert peerId wire })

end RepSocket

variable [Target] {S W : Type}

/-- `fresh` is the identity an empty frame is replaced by. -/
def RouterSocket.send (fresh : PeerIdentity) (b : GenericSocketBackend S W) (room : Room)
    (message : ZmqMessage) : Res ZmqError Unit × GenericSocketBackend S W :=
  if message.len ≤ 1 then
    (.error (.error (.socket "ROUTER send requires at least 2 frames: identity frame + message")), b)
  else
    match message.popFront with
    | (none, _) => (.error .panic, b)
    | (some frame, message) =>
      match PeerIdentity.tryFrom fresh frame with
      | .error e => (.error (.error e), b)
      | .ok peerId => (b.sendToPeer room peerId (.message message)).map (·.mapError .error) id

def DealerSocket.send (b : GenericSocketBackend S W) (room : Room) (message : ZmqMessage) :
    Except ZmqError Unit × GenericSocketBackend S W :=
  b.sendRoundRobin room (.message message)

end ZmqRs
