import ZmqRs.Recv.Broken

/-! The messages that a program can come to hold: those it builds, those it takes apart, and
those it receives. -/

namespace ZmqRs

open Codec

inductive ZmqEmptyMessageError
  | mk
  deriving DecidableEq

def ZmqMessage.tryFrom (v : List Bytes) : Except ZmqEmptyMessageError ZmqMessage :=
  if v.isEmpty then .error .mk else .ok ⟨v⟩

namespace Messages

inductive Reader
  | queue (socket : Broken.Socket)
  | req
  deriving DecidableEq

def Reader.received (p : PeerIdentity) (m : ZmqMessage) :
    Reader → Option (Res ZmqError ZmqMessage)
  | .queue socket => (socket.arm (some (p, .ok (.message m)))).result
  | .req => some (ReqSocket.onNext (some (.ok (.message m))))

/-- The numbers are those of messages in the program's hands.  `recv` is given the message
`m` that is among the results of `calls` calls of `decode` on a peer's bytes. -/
inductive Action [Target]
  | ofBytes (b : Bytes)
  | ofString (s : String)
  | tryFrom (v : List Bytes)
  | clone (i : Nat)
  | pushBack (i : Nat) (frame : Bytes)
  | pushFront (i : Nat) (frame : Bytes)
  | prepend (i message : Nat)
  | splitOff (i at' : Nat)
  | recv (reader : Reader) (p : PeerIdentity) (options : SocketOptions) (wire : Bytes)
    (calls : Nat) (m : ZmqMessage)

variable [Target]

def next (pool : List ZmqMessage) : Action → Option (List ZmqMessage)
  | .ofBytes b => some (pool ++ [.ofBytes b])
  | .ofString s => some (pool ++ [.ofBytes (utf8 s)])
  | .tryFrom v => some (pool ++ (ZmqMessage.tryFrom v).toOption.toList)
  | .clone i => pool[i]?.map fun m => pool ++ [m]
  | .pushBack i frame => pool[i]?.map fun m => pool.set i (m.pushBack frame)
  | .pushFront i frame => pool[i]?.map fun m => pool.set i (m.pushFront frame)
  | .prepend i j => pool[i]?.bind fun m => pool[j]?.map fun message => pool.set i (m.prepend message)
  | .splitOff i at' =>
    pool[i]?.bind fun m => (m.splitOff at').map fun (kept, data) => pool.set i kept ++ [data]
  | .recv reader p options wire calls m =>
    if .ok (.message m) ∈ (ZmqCodec.withOptions options).decodeCalls calls wire then
      match reader.received p m with
      | some (.ok data) => some (pool ++ [data])
      | _ => some pool
    else none

def system : Lib.System (List ZmqMessage) Action where
  init := []
  next := next

/-- A split leaves a frame on both sides; and what REP receives has a frame behind the first
empty one, or is too short for REP. -/
def leavesFrames (pool : List ZmqMessage) : Action → Bool
  | .splitOff i at' => (pool[i]?).all fun m => decide (0 < at' ∧ at' ≠ m.len)
  | .recv (.queue .rep) _ _ _ _ m =>
    decide (m.len < 2 ∨ RepSocket.splitIndex m.frames < m.len)
  | _ => true

/-- What the sockets give to the codec for a message that is passed to `send`: REQ puts an
empty frame before it and REP the envelope, ROUTER takes the identity off. -/
inductive Sent (m : ZmqMessage) : ZmqMessage → Prop
  | plain : Sent m m
  | req : Sent m (m.pushFront [])
  | rep (envelope : ZmqMessage) : Sent m (m.prepend envelope)
  | router : ¬ m.len ≤ 1 → Sent m m.popFront.2

inductive Writes (peers : AList fun _ : PeerIdentity => Wire) (m : ZmqMessage) :
    Except ZmqError Unit → (AList fun _ : PeerIdentity => Wire) → Prop
  | returned (reason : String) : Writes peers m (.error (.returnToSender reason m)) peers
  | failed {p : PeerIdentity} {wire : Wire} {m' : ZmqMessage} {e : CodecError} :
    peers.lookup p = some wire → Sent m m' → wire.send (.message m') = .error e →
    Writes peers m (.error (.codec e)) peers
  | wrote {p : PeerIdentity} {wire wire' : Wire} {m' : ZmqMessage} :
    peers.lookup p = some wire → Sent m m' → wire.send (.message m') = .ok wire' →
    Writes peers m (.ok ()) (peers.insert p wire')

omit [Target] in
theorem req_writes (s : ReqSocket) (m : ZmqMessage) :
    Writes s.peers m (s.send m).1 (s.send m).2.peers := by
  have hloop : ∀ queue, Writes s.peers m (s.sendLoop m queue).1 (s.sendLoop m queue).2.peers := by
    intro queue
    induction queue with
    | nil => exact .returned _
    | cons p queue ih =>
      rw [ReqSocket.sendLoop]
      cases hp : s.peers.lookup p with
      | none => exact ih
      | some wire =>
        dsimp only
        cases hw : wire.send (.message (m.pushFront [])) with
        | error e => exact .failed hp .req hw
        | ok wire' => exact .wrote hp .req hw
  rw [ReqSocket.send]
  split
  · exact .returned _
  · exact hloop _

omit [Target] in
theorem rep_writes (s : RepSocket) (m : ZmqMessage) :
    Writes s.peers m (s.send m).1 (s.send m).2.peers := by
  rw [RepSocket.send]
  cases s.currentRequest with
  | none => exact .returned _
  | some p =>
    dsimp only
    cases hp : s.peers.lookup p with
    | none => exact .returned _
    | some wire =>
      -- The envelope decides what is written, the wire whether it is.
      cases s.envelope with
      | none =>
        dsimp only
        cases hw : wire.send (.message m) with
        | error e => exact .failed hp .plain hw
        | ok wire' => exact .wrote hp .plain hw
      | some envelope =>
        dsimp only
        cases hw : wire.send (.message (m.prepend envelope)) with
        | error e => exact .failed hp (.rep envelope) hw
        | ok wire' => exact .wrote hp (.rep envelope) hw

omit [Target] in
theorem router_sends {S W : Type} (fresh : PeerIdentity) (b : GenericSocketBackend S W)
    (room : Room) (m : ZmqMessage) :
    (∃ e, RouterSocket.send fresh b room m = (.error (.error e), b)) ∨
      ∃ p m', Sent m m' ∧ RouterSocket.send fresh b room m =
        (b.sendToPeer room p (.message m')).map (·.mapError .error) id := by
  rw [RouterSocket.send]
  split
  · exact .inl ⟨_, rfl⟩
  · rename_i hlen
    rcases m with ⟨_ | ⟨frame, frames⟩⟩
    · exact absurd (Nat.zero_le 1) hlen
    · simp only [ZmqMessage.popFront]
      cases PeerIdentity.tryFrom fresh frame with
      | error e => exact .inl ⟨e, rfl⟩
      | ok p => exact .inr ⟨p, ⟨frames⟩, .router hlen, rfl⟩

omit [Target] in
theorem bufferFrame_ne_nil (c : ZmqCodec) (data : Bytes) : (c.bufferFrame data).frames ≠ [] := by
  rw [ZmqCodec.bufferFrame]
  cases c.bufferedMessage with
  | none => simp [ZmqMessage.ofBytes]
  | some m => simp [ZmqMessage.pushBack]

theorem frames_ne_nil_of_turn {c c' : ZmqCodec} {src rest : Bytes} {m : ZmqMessage}
    (h : c.turn src = .emit (.message m) c' rest) : m.frames ≠ [] := by
  rcases c with ⟨state, n, buffered, max⟩
  cases state <;> simp only [ZmqCodec.turn] at h
  case greeting => cases src <;> grind [ZmqCodec.onGreeting]
  case frameHeader => grind [ZmqCodec.onFrameHeader]
  case frameLen frame => grind [ZmqCodec.onFrameLen]
  case frame frame => grind [ZmqCodec.onFrame, bufferFrame_ne_nil]

theorem frames_ne_nil_of_decodeCalls {c : ZmqCodec} {src : Bytes} {n : Nat} {m : ZmqMessage}
    (h : .ok (.message m) ∈ c.decodeCalls n src) : m.frames ≠ [] := by
  obtain ⟨c₀, src₀, c', rest, ht⟩ := ZmqCodec.machine.step_of_mem_calls h
  exact frames_ne_nil_of_turn ht

section Received

variable {p : PeerIdentity} {m data : ZmqMessage}

omit [Target] in
theorem req_received (h : ReqSocket.onNext (some (.ok (.message m))) = .ok data) :
    data.frames ≠ [] := by
  rw [ReqSocket.onNext] at h
  split at h
  · cases h
  · rename_i hlen
    rcases m with ⟨_ | ⟨f, _ | ⟨g, frames⟩⟩⟩
    · simp [ZmqMessage.len] at hlen
    · simp [ZmqMessage.len] at hlen
    · simp only [ZmqMessage.popFront] at h
      split at h
      · cases h
      · cases h
        simp

omit [Target] in
theorem rep_received (hm : m.len < 2 ∨ RepSocket.splitIndex m.frames < m.len)
    (h : (RepSocket.arm (some (p, .ok (.message m)))).result = some (.ok data)) :
    data.frames ≠ [] := by
  rw [RepSocket.arm] at h
  split at h
  · cases h
  · rename_i hlen
    have hlt := hm.resolve_left hlen
    rw [ZmqMessage.splitOff, if_neg (by omega)] at h
    cases h
    intro hnil
    rw [List.drop_eq_nil_iff] at hnil
    exact absurd hlt (Nat.not_lt.mpr hnil)

omit [Target] in
theorem queue_received {l : Recv.Loop} (hl : ∀ m : ZmqMessage, m.frames ≠ [] →
    (l.deliver p m).frames ≠ []) (hm : m.frames ≠ [])
    (h : (l.arm (some (p, .ok (.message m)))).result = some (.ok data)) : data.frames ≠ [] := by
  cases h
  exact hl m hm

end Received

theorem received_ne_nil {pool : List ZmqMessage} {reader : Reader} {p : PeerIdentity}
    {options : SocketOptions} {wire : Bytes} {calls : Nat} {m data : ZmqMessage}
    (hok : leavesFrames pool (.recv reader p options wire calls m) = true) (hm : m.frames ≠ [])
    (h : reader.received p m = some (.ok data)) : data.frames ≠ [] := by
  have hid : ∀ m : ZmqMessage, m.frames ≠ [] → m.frames ≠ [] := fun _ h => h
  have hfront : ∀ m : ZmqMessage, m.frames ≠ [] → (m.pushFront p.bytes).frames ≠ [] := by
    intro m _
    simp [ZmqMessage.pushFront]
  cases reader with
  | req => exact req_received (Option.some.inj h)
  | queue socket =>
    cases socket with
    | rep => exact rep_received (p := p) (of_decide_eq_true hok) h
    | pull => exact queue_received hid hm h
    | sub => exact queue_received hid hm h
    | xsub => exact queue_received hid hm h
    | xpub => exact queue_received hid hm h
    | dealer => exact queue_received hid hm h
    | dealerRecvHalf => exact queue_received hid hm h
    | router => exact queue_received hfront hm h
    | routerRecvHalf => exact queue_received hfront hm h

def HaveFrames (pool : List ZmqMessage) : Prop := ∀ m ∈ pool, m.frames ≠ []

section Pool

variable {pool : List ZmqMessage} {m : ZmqMessage}

omit [Target] in
theorem HaveFrames.append (h : HaveFrames pool) (hm : m.frames ≠ []) : HaveFrames (pool ++ [m]) := by
  intro m' hm'
  cases List.mem_append.mp hm' with
  | inl hm' => exact h m' hm'
  | inr hm' =>
    rw [List.mem_singleton.mp hm']
    exact hm

omit [Target] in
theorem HaveFrames.set (h : HaveFrames pool) (i : Nat) (hm : m.frames ≠ []) :
    HaveFrames (pool.set i m) := by
  intro m' hm'
  cases List.mem_or_eq_of_mem_set hm' with
  | inl hm' => exact h m' hm'
  | inr hm' =>
    rw [hm']
    exact hm

omit [Target] in
theorem HaveFrames.of_getElem? (h : HaveFrames pool) {i : Nat} (hi : pool[i]? = some m) :
    m.frames ≠ [] :=
  h m (List.mem_of_getElem? hi)

end Pool

theorem haveFrames_next {pool pool' : List ZmqMessage} {a : Action}
    (hok : leavesFrames pool a = true) (h : HaveFrames pool) (hn : next pool a = some pool') :
    HaveFrames pool' := by
  cases a with
  | ofBytes b =>
    cases hn
    exact h.append (by simp [ZmqMessage.ofBytes])
  | ofString s =>
    cases hn
    exact h.append (by simp [ZmqMessage.ofBytes])
  | tryFrom v =>
    cases hn
    rw [ZmqMessage.tryFrom]
    split
    · simpa [Except.toOption] using h
    · rename_i hv
      exact h.append (by simpa using hv)
  | clone i =>
    obtain ⟨m, hi, rfl⟩ := Option.map_eq_some_iff.mp hn
    exact h.append (h.of_getElem? hi)
  | pushBack i frame =>
    obtain ⟨m, hi, rfl⟩ := Option.map_eq_some_iff.mp hn
    exact h.set i (by simp [ZmqMessage.pushBack])
  | pushFront i frame =>
    obtain ⟨m, hi, rfl⟩ := Option.map_eq_some_iff.mp hn
    exact h.set i (by simp [ZmqMessage.pushFront])
  | prepend i j =>
    obtain ⟨m, hi, hn⟩ := Option.bind_eq_some_iff.mp hn
    obtain ⟨message, hj, rfl⟩ := Option.map_eq_some_iff.mp hn
    exact h.set i (by simp [h.of_getElem? hi])
  | splitOff i at' =>
    obtain ⟨m, hi, hn⟩ := Option.bind_eq_some_iff.mp hn
    obtain ⟨⟨kept, data⟩, hs, rfl⟩ := Option.map_eq_some_iff.mp hn
    have hm := h.of_getElem? hi
    have hat : 0 < at' ∧ at' ≠ m.len := by simpa [leavesFrames, hi] using hok
    rw [ZmqMessage.splitOff] at hs
    split at hs
    · cases hs
    · rename_i hle
      cases hs
      have hpos : 0 < m.frames.length := List.length_pos_iff.mpr hm
      rw [ZmqMessage.len] at hat hle
      refine (h.set i ?_).append ?_
      · simp [List.take_eq_nil_iff, hm]
        omega
      · simp [List.drop_eq_nil_iff]
        omega
  | recv reader p options wire calls m =>
    rw [next] at hn
    split at hn
    · rename_i hmem
      have hm := frames_ne_nil_of_decodeCalls hmem
      split at hn
      · rename_i data hr
        cases hn
        exact h.append (received_ne_nil hok hm hr)
      · cases hn
        exact h
    · cases hn

omit [Target] in
theorem Sent.frames_ne_nil {m m' : ZmqMessage} (h : Sent m m') (hm : m.frames ≠ []) :
    m'.frames ≠ [] := by
  cases h with
  | plain => exact hm
  | req => simp [ZmqMessage.pushFront]
  | rep envelope => simp [hm]
  | router hlen =>
    rcases m with ⟨_ | ⟨f, _ | ⟨g, frames⟩⟩⟩
    · exact absurd rfl hm
    · simp [ZmqMessage.len] at hlen
    · simp [ZmqMessage.popFront]

omit [Target] in
theorem encode_of_ne_nil {m : ZmqMessage} (hm : m.frames ≠ []) (order : List (String × Bytes)) :
    ∃ b, ZmqCodec.encode order (.message m) = .ok b := by
  have hlen : m.len ≠ 0 := by simpa [ZmqMessage.len] using hm
  simp only [ZmqCodec.encode, if_neg hlen]
  exact ⟨_, rfl⟩

/-- As long as no split leaves a side empty, every message in the program's hands has a frame,
and whatever a socket makes of it for its connection can be encoded. -/
theorem messages_have_frames {pool : List ZmqMessage}
    (h : (system.guarded fun pool a => leavesFrames pool a = true).Reachable pool) :
    ∀ m ∈ pool, m.frames ≠ [] ∧ ∀ m', Sent m m' →
      ∀ order, ∃ b, ZmqCodec.encode order (.message m') = .ok b := by
  have hinit : HaveFrames (system : Lib.System _ Action).init := by
    intro m hm
    cases hm
  have hp : HaveFrames pool :=
    Lib.System.Reachable.invariant_guarded hinit (fun _ _ _ hok h hn => haveFrames_next hok h hn) h
  intro m hm
  refine ⟨hp m hm, ?_⟩
  intro m' hs
  exact encode_of_ne_nil (hs.frames_ne_nil (hp m hm))

section Programs

omit [Target]

theorem messages_have_frames_rejoined :
    letI := Target.x64
    let wire := ZmqGreeting.encode .default ++ [1, 1, 0x78, 1, 0, 0, 1, 0x64]
    ∃ pool, (system.guarded fun pool a => leavesFrames pool a = true).run []
        [.tryFrom [[0x61], [0x62]], .splitOff 0 1, .ofBytes [0x63], .prepend 0 1,
          .recv (.queue .rep) (.ofByte 9) .default wire 2 ⟨[[0x78], [], [0x64]]⟩] =
        some pool ∧ ⟨[[0x64]]⟩ ∈ pool ∧
      ∀ m ∈ pool, m.frames ≠ [] := by
  let _ := Target.x64
  intro wire
  have hrun : (system.guarded fun pool a => leavesFrames pool a = true).run []
      [.tryFrom [[0x61], [0x62]], .splitOff 0 1, .ofBytes [0x63], .prepend 0 1,
        .recv (.queue .rep) (.ofByte 9) .default wire 2 ⟨[[0x78], [], [0x64]]⟩] =
      some [⟨[[0x62], [0x61]]⟩, ⟨[[0x62]]⟩, ⟨[[0x63]]⟩, ⟨[[0x64]]⟩] := by
    decide +kernel
  refine ⟨_, hrun, by simp, ?_⟩
  intro m hm
  exact (messages_have_frames ⟨_, hrun⟩ m hm).1

/-- A split at the start, a split at the end, and a request to REP whose delimiter is its last
frame.  Each gives a message without frames, and the encoder fails on it. -/
theorem split_leaves_nothing :
    letI := Target.x64
    let wire := ZmqGreeting.encode .default ++ [1, 1, 0x78, 0, 0]
    (∀ actions ∈ ([[.ofBytes [0x61], .splitOff 0 0], [.ofBytes [0x61], .splitOff 0 1],
        [.recv (.queue .rep) (.ofByte 9) .default wire 2 ⟨[[0x78], []]⟩]] : List (List Action)),
      ∃ pool, system.run [] actions = some pool ∧ ⟨[]⟩ ∈ pool) ∧
    Sent ⟨[]⟩ ⟨[]⟩ ∧ ZmqCodec.encode [] (.message ⟨[]⟩) = .error .panic := by
  let _ := Target.x64
  intro wire
  refine ⟨?_, .plain, rfl⟩
  intro actions hmem
  simp only [List.mem_cons, List.not_mem_nil, or_false] at hmem
  rcases hmem with rfl | rfl | rfl
  · exact ⟨[⟨[]⟩, ⟨[[0x61]]⟩], by decide +kernel, by decide⟩
  · exact ⟨[⟨[[0x61]]⟩, ⟨[]⟩], by decide +kernel, by decide⟩
  · exact ⟨[⟨[]⟩], by decide +kernel, by decide⟩

end Programs

end Messages

end ZmqRs
