import ZmqRs.ReqRep
import ZmqRs.Codec.Frames
import ZmqRs.Codec.Await

/-! REQ and the peers that serve it.  Each peer answers every request once, in the order it
got them, and may send commands between its messages; the bytes reach the socket in any
pieces.  Requests are numbered in the order of the successful sends. -/

namespace ZmqRs.Matching

open Codec Codec.ZmqCodec Codec.ZmqFramedRead

variable [Target]

structure Reply (max : Nat) where
  delimiter : UInt8
  more : List (UInt8 × Bytes)
  last : UInt8 × Bytes
  isMore : ∀ f ∈ (delimiter, []) :: more, IsMore max f
  isLast : (Frame.ofFlags last.1).command = false ∧ (Frame.ofFlags last.1).more = false ∧
    FrameFits max last.1 last.2

structure Command (max : Nat) where
  flags : UInt8
  body : Bytes
  isCommand : (Frame.ofFlags flags).command = true
  fits : FrameFits max flags body

inductive Piece (max : Nat)
  | command (c : Command max)
  | reply (request : Nat) (r : Reply max)

namespace Reply

variable {max : Nat}

def message (r : Reply max) : ZmqMessage := ⟨r.more.map Prod.snd ++ [r.last.2]⟩

def bytes (r : Reply max) : Bytes :=
  framesBytes ((r.delimiter, []) :: r.more) ++ frameBytes r.last.1 r.last.2

end Reply

namespace Piece

variable {max : Nat}

def bytes : Piece max → Bytes
  | .command c => frameBytes c.flags c.body
  | .reply _ r => r.bytes

def isCommand : Piece max → Bool
  | .command _ => true
  | .reply _ _ => false

def request? : Piece max → Option Nat
  | .command _ => none
  | .reply n _ => some n

def bytesOf (pieces : List (Piece max)) : Bytes := pieces.flatMap bytes

end Piece

/-- A connection: its reader, the bytes on their way to it, what the peer wrote and the
reader has not returned, and the requests the peer has not answered. -/
structure Conn (max : Nat) where
  reader : ZmqFramedRead
  inflight : Bytes
  unread : List (Piece max)
  asked : List Nat

/-- `received` are the messages `recv` has returned, each with the number of the most recent
successful send at that time; `answers` are the replies the peers have given. -/
structure State (max : Nat) where
  socket : ReqSocket
  future : Bool
  conn : PeerIdentity → Option (Conn max)
  sends : List ZmqMessage
  answers : List (Nat × ZmqMessage)
  received : List (Nat × ZmqMessage)

/-- `connect p n reads commands` is `n` polls of a new reader by the handshake followed by
`peer_connected`; the peer may have sent `commands` right behind its own. -/
inductive Action (max : Nat)
  | connect (p : PeerIdentity) (n : Nat) (reads : List PollRead) (commands : List (Command max))
  | send (message : ZmqMessage)
  | answer (p : PeerIdentity) (r : Reply max)
  | command (p : PeerIdentity) (c : Command max)
  | recv
  | drop
  | poll (reads : List PollRead)

namespace Conn

variable {max : Nat}

def write (c : Conn max) (piece : Piece max) : Conn max :=
  { c with inflight := c.inflight ++ piece.bytes, unread := c.unread ++ [piece] }

def polled (c : Conn max) (p : Polled) : Conn max :=
  { c with
    reader := p.reader
    inflight := c.inflight.drop p.taken.length
    unread := match p.result with
      | .pending => c.unread
      | .ready _ => c.unread.tail }

end Conn

namespace State

variable {max : Nat}

def setConn (st : State max) (p : PeerIdentity) (c : Conn max) : State max :=
  { st with conn := Function.update st.conn p (some c) }

def current (st : State max) : Option (PeerIdentity × Conn max) :=
  st.socket.currentRequest.bind fun p => (st.conn p).map fun c => (p, c)

def finish (st : State max) (item : Option Item) : State max :=
  let (result, socket) := st.socket.recv fun _ => item
  { st with
    socket := socket
    future := false
    received := match result with
      | .ok m => st.received ++ [(st.sends.length - 1, m)]
      | .error _ => st.received }

end State

variable (options : SocketOptions)

abbrev Limit : Nat := options.readBufferMaxSize

/-- A future of `recv` holds the socket, so nothing is sent while there is one.  Bytes reach
the reader in order, and the connections neither end nor fail. -/
def next (st : State (Limit options)) : Action (Limit options) → Option (State (Limit options))
  | .connect p n reads commands =>
    let run := pollMany n (.new options) reads
    let pieces := commands.map Piece.command
    if Recv.handshaken run ∧ run.reader.codec = idle (Limit options) ∧
        run.reader.buffer <+: Piece.bytesOf pieces then
      some ({ st with socket := st.socket.peerConnected p ⟨[], none⟩ }.setConn p
        ⟨run.reader, (Piece.bytesOf pieces).drop run.reader.buffer.length, pieces, []⟩)
    else none
  | .send message =>
    if st.future then none
    else
      match st.socket.send message with
      | (.error _, socket) => some { st with socket := socket }
      | (.ok (), socket) =>
        match { st with socket := socket }.current with
        | none => none
        | some (p, c) =>
          some ({ st with socket := socket, sends := st.sends ++ [message] }.setConn p
            { c with asked := c.asked ++ [st.sends.length] })
  | .answer p r =>
    match st.conn p with
    | none => none
    | some c =>
      match c.asked with
      | [] => none
      | n :: asked =>
        some ({ st with answers := st.answers ++ [(n, r.message)] }.setConn p
          ({ c with asked := asked }.write (.reply n r)))
  | .command p command => (st.conn p).map fun c => st.setConn p (c.write (.command command))
  | .recv => if st.future then none else some { st with future := true }
  | .drop => if st.future then some { st with future := false } else none
  | .poll reads =>
    if st.future then
      match st.current with
      | none => some (st.finish none)
      | some (p, c) =>
        let polled := c.reader.pollNext reads
        if polled.taken <+: c.inflight ∧ endOfStream polled.result = false then
          let st := st.setConn p (c.polled polled)
          match polled.result with
          | .pending => some st
          | .ready item => some (st.finish item)
        else none
    else none

def system : Lib.System (State (Limit options)) (Action (Limit options)) where
  init := ⟨⟨∅, [], none⟩, false, fun _ => none, [], [], []⟩
  next := next options

def meetsNoCommand {max : Nat} (st : State max) : Action max → Bool
  | .poll _ =>
    match st.current with
    | some (_, c) => !(c.unread.head?.any Piece.isCommand)
    | none => true
  | _ => true

section Pieces

variable {max : Nat}

theorem Piece.bytesOf_append (pieces : List (Piece max)) (piece : Piece max) :
    bytesOf (pieces ++ [piece]) = bytesOf pieces ++ piece.bytes := by
  simp [bytesOf]

theorem decode_reply (r : Reply max) (rest : Bytes) :
    (idle max).decode (r.bytes ++ rest) =
      (.item (.message (r.message.pushFront [])), idle max, rest) := by
  obtain ⟨hc, hm, hf⟩ := r.isLast
  rw [Reply.bytes, List.append_assoc, decode_moreFrames r.isMore, decode_lastFrame _ hf hc hm,
    heldFrames_holding]
  rfl

omit [Target] in
theorem onNext_message {m : ZmqMessage} (hm : m.frames ≠ []) :
    ReqSocket.onNext (some (.ok (.message (m.pushFront [])))) = .ok m := by
  have hlen : ¬ (m.pushFront []).len < 2 := by
    have := List.length_pos_iff.mpr hm
    simp [ZmqMessage.len, ZmqMessage.pushFront]
    omega
  rw [ReqSocket.onNext, if_neg hlen]
  rfl

end Pieces

structure ConnOk {max : Nat} (answers : List (Nat × ZmqMessage)) (c : Conn max) : Prop where
  valid : c.reader.codec.Valid
  tracks : ∃ t, t ++ c.inflight = Piece.bytesOf c.unread ∧ Tracks (idle max) t c.reader
  answered : ∀ n r, .reply n r ∈ c.unread → (n, r.message) ∈ answers

def Conn.requests {max : Nat} (c : Conn max) : List Nat :=
  c.unread.filterMap Piece.request? ++ c.asked

section Conn

variable {max : Nat} {answers : List (Nat × ZmqMessage)} {c : Conn max}

theorem ConnOk.write (hc : ConnOk answers c) {piece : Piece max}
    {answers' : List (Nat × ZmqMessage)} (hsub : ∀ x ∈ answers, x ∈ answers')
    (hp : ∀ n r, piece = .reply n r → (n, r.message) ∈ answers') :
    ConnOk answers' (c.write piece) := by
  obtain ⟨t, ht, htr⟩ := hc.tracks
  refine ⟨hc.valid, ⟨t, ?_, htr⟩, ?_⟩
  · rw [Conn.write, Piece.bytesOf_append, ← ht, List.append_assoc]
  · intro n r hmem
    rcases List.mem_append.mp hmem with h | h
    · exact hsub _ (hc.answered n r h)
    · exact hp n r (List.mem_singleton.mp h).symm

theorem tracks_idle {r : ZmqFramedRead} (hc : r.codec = idle max) :
    Tracks (idle max) r.buffer r := by
  intro more
  rw [hc]

theorem ConnOk.poll (hc : ConnOk answers c) (hcmd : c.unread.head?.any Piece.isCommand = false)
    {reads : List PollRead} {p : Polled} (hp : c.reader.pollNext reads = p)
    (ht : p.taken <+: c.inflight) (he : endOfStream p.result = false) :
    ConnOk answers (c.polled p) ∧
      (p.result = .pending ∧ (c.polled p).requests = c.requests ∨
        ∃ n r, p.result = .ready (some (.ok (.message (r.message.pushFront [])))) ∧
          (n, Reply.message r) ∈ answers ∧ c.requests = n :: (c.polled p).requests ∧
          ∃ rest : List (Piece max), c.unread = .reply n r :: rest) := by
  obtain ⟨t, hbytes, htr⟩ := hc.tracks
  obtain ⟨v, hv⟩ := ht
  have hvalid : p.reader.codec.Valid := by
    rw [← hp]
    exact valid_decode hc.valid (pollNext_decodesTo hc.valid reads)
  rw [← hv, ← List.append_assoc] at hbytes
  have hdrop : c.inflight.drop p.taken.length = v := by
    rw [← hv, List.drop_left]
  have hpending : p.result = .pending →
      ConnOk answers (c.polled p) ∧ (c.polled p).requests = c.requests := by
    intro hres
    have hun : (c.polled p).unread = c.unread := by rw [Conn.polled, hres]
    refine ⟨⟨hvalid, ⟨t ++ p.taken, ?_, ?_⟩, ?_⟩, ?_⟩
    · rw [hun]
      exact (congrArg (t ++ p.taken ++ ·) hdrop).trans hbytes
    · subst hp
      exact htr.pending hc.valid hres
    · rw [hun]
      exact hc.answered
    · rw [Conn.requests, hun]
      rfl
  cases hu : c.unread with
  | nil =>
    -- nothing was written, so nothing was taken
    rw [hu] at hbytes
    obtain ⟨rfl, htaken⟩ : t = [] ∧ p.taken = [] := by
      simpa [Piece.bytesOf, and_assoc] using (List.append_eq_nil_iff.mp hbytes).1
    have hd := pollNext_decodesTo hc.valid reads
    rw [hp, DecodesTo, htaken, ← htr [], decode_wait rfl] at hd
    have hres : p.result = .pending := by
      cases hres : p.result with
      | pending => rfl
      | ready item =>
        rw [hres] at hd he
        rw [endOfStream_ready.mpr (Prod.mk.inj hd).1.symm] at he
        cases he
    exact ⟨(hpending hres).1, .inl ⟨hres, (hpending hres).2⟩⟩
  | cons piece rest =>
    cases piece with
    | command command =>
      rw [hu] at hcmd
      cases hcmd
    | reply n r =>
      have hans := hc.answered n r (by simp [hu])
      have hd := decode_reply r (Piece.bytesOf rest)
      rw [hu] at hbytes
      change _ = r.bytes ++ Piece.bytesOf rest at hbytes
      rw [← hbytes, ← hp] at hd
      rcases htr.poll hc.valid reads hd with hres | ⟨item, hres, he'⟩ | ⟨hres, hcodec, hbuf⟩ <;>
        rw [hp] at hres
      · exact ⟨(hpending hres).1, .inl ⟨hres, (hpending hres).2⟩⟩
      · rw [hres, he'] at he
        cases he
      · rw [hp] at hcodec hbuf
        have hun : (c.polled p).unread = rest := by rw [Conn.polled, hres, hu, List.tail_cons]
        refine ⟨⟨hvalid, ⟨p.reader.buffer, ?_, tracks_idle hcodec⟩, ?_⟩,
          .inr ⟨n, r, hres, hans, ?_, rest, rfl⟩⟩
        · rw [hun]
          exact (congrArg (p.reader.buffer ++ ·) hdrop).trans hbuf
        · rw [hun]
          intro n' r' hmem
          exact hc.answered n' r' (by simp [hu, hmem])
        · rw [Conn.requests, Conn.requests, hun, hu]
          rfl

end Conn

structure Inv {max : Nat} (st : State max) : Prop where
  conns : ∀ p c, st.conn p = some c → ConnOk st.answers c
  /-- Only the request in progress can have a reply that was not returned. -/
  requests : ∀ p c, st.conn p = some c → c.requests = [] ∨
    st.socket.currentRequest = some p ∧ c.requests = [st.sends.length - 1]
  connected : ∀ p, (st.socket.peers.lookup p).isSome → (st.conn p).isSome
  serving : ∀ p, st.socket.currentRequest = some p → (st.socket.peers.lookup p).isSome
  count : st.sends.length = st.received.length +
    if st.socket.currentRequest.isSome then 1 else 0
  received : ∀ x ∈ st.received, x ∈ st.answers
  once : (st.answers.map Prod.fst).Nodup
  unanswered : ∀ p c, st.conn p = some c → ∀ n ∈ c.asked, n ∉ st.answers.map Prod.fst
  numbered : ∀ n ∈ st.answers.map Prod.fst, n < st.sends.length

section Steps

variable {max : Nat} {st st' : State max} {p : PeerIdentity} {c : Conn max}

theorem conn_setConn {q : PeerIdentity} {d : Conn max} (h : (st.setConn p c).conn q = some d) :
    q = p ∧ d = c ∨ q ≠ p ∧ st.conn q = some d := by
  by_cases hq : q = p
  · subst hq
    simp only [State.setConn, Function.update_self, Option.some.injEq] at h
    exact .inl ⟨rfl, h.symm⟩
  · simp only [State.setConn, Function.update_of_ne hq] at h
    exact .inr ⟨hq, h⟩

theorem isSome_conn_setConn {q : PeerIdentity} (h : (st.conn q).isSome ∨ q = p) :
    ((st.setConn p c).conn q).isSome := by
  by_cases hq : q = p
  · subst hq
    simp [State.setConn]
  · simpa [State.setConn, hq] using h

theorem Inv.setConn (h : Inv st) (hc : ConnOk st.answers c)
    (hr : c.requests = [] ∨
      st.socket.currentRequest = some p ∧ c.requests = [st.sends.length - 1])
    (ha : ∀ n ∈ c.asked, n ∉ st.answers.map Prod.fst) :
    Inv (st.setConn p c) where
  conns q d hd := by
    rcases conn_setConn hd with ⟨-, rfl⟩ | ⟨-, hd⟩
    · exact hc
    · exact h.conns q d hd
  requests q d hd := by
    rcases conn_setConn hd with ⟨rfl, rfl⟩ | ⟨-, hd⟩
    · exact hr
    · exact h.requests q d hd
  connected q hq := isSome_conn_setConn (.inl (h.connected q hq))
  serving := h.serving
  count := h.count
  received := h.received
  once := h.once
  unanswered q d hd := by
    rcases conn_setConn hd with ⟨-, rfl⟩ | ⟨-, hd⟩
    · exact ha
    · exact h.unanswered q d hd
  numbered := h.numbered

theorem current_eq_some (h : st.current = some (p, c)) :
    st.socket.currentRequest = some p ∧ st.conn p = some c := by
  simp only [State.current, Option.bind_eq_some_iff, Option.map_eq_some_iff] at h
  obtain ⟨q, hq, d, hd, he⟩ := h
  cases he
  exact ⟨hq, hd⟩

theorem Inv.current_isSome (h : Inv st) (hp : st.socket.currentRequest = some p) :
    ∃ c, st.current = some (p, c) := by
  obtain ⟨c, hc⟩ := Option.isSome_iff_exists.mp (h.connected p (h.serving p hp))
  exact ⟨c, by simp [State.current, hp, hc]⟩

theorem Inv.finish_none (h : Inv st) (hc : st.current = none) : Inv (st.finish none) := by
  have hcur : st.socket.currentRequest = none := by
    cases hp : st.socket.currentRequest with
    | none => rfl
    | some p =>
      obtain ⟨c, hc'⟩ := h.current_isSome hp
      cases hc.symm.trans hc'
  have hf : st.finish none = { st with future := false } := by
    simp [State.finish, ReqSocket.recv, hcur]
  rw [hf]
  exact ⟨h.conns, h.requests, h.connected, h.serving, h.count, h.received, h.once, h.unanswered,
    h.numbered⟩

theorem Inv.finish_reply (h : Inv st) (hp : st.socket.currentRequest = some p) {m : ZmqMessage}
    (hm : m.frames ≠ []) (hans : (st.sends.length - 1, m) ∈ st.answers)
    (hreq : ∀ q c, st.conn q = some c → c.requests = []) :
    Inv (st.finish (some (.ok (.message (m.pushFront []))))) := by
  obtain ⟨wire, hw⟩ := Option.isSome_iff_exists.mp (h.serving p hp)
  have hf : st.finish (some (.ok (.message (m.pushFront [])))) =
      { st with
        socket := { st.socket with currentRequest := none }
        future := false
        received := st.received ++ [(st.sends.length - 1, m)] } := by
    simp [State.finish, ReqSocket.recv, hp, hw, onNext_message hm]
  have hcount := h.count
  rw [hf]
  refine ⟨h.conns, fun q c hc => .inl (hreq q c hc), h.connected, nofun, ?_, ?_, h.once,
    h.unanswered, h.numbered⟩
  · simpa [hp] using hcount
  · intro x hx
    rcases List.mem_append.mp hx with hx | hx
    · exact h.received x hx
    · cases List.mem_singleton.mp hx
      exact hans

omit [Target] in
theorem isSome_lookup_insert {peers : AList fun _ : PeerIdentity => Wire} {wire : Wire}
    {q : PeerIdentity} :
    ((peers.insert p wire).lookup q).isSome ↔ q = p ∨ (peers.lookup q).isSome := by
  by_cases hq : q = p
  · subst hq
    simp
  · simp [hq]

theorem requests_eq_nil (h : c.requests = []) : c.asked = [] :=
  (List.append_eq_nil_iff.mp h).2

theorem Inv.connect (h : Inv st) (hc : ConnOk st.answers c) (hr : c.requests = []) (wire : Wire) :
    Inv ({ st with socket := st.socket.peerConnected p wire }.setConn p c) where
  conns q d hd := by
    rcases conn_setConn hd with ⟨-, rfl⟩ | ⟨-, hd⟩
    · exact hc
    · exact h.conns q d hd
  requests q d hd := by
    rcases conn_setConn hd with ⟨-, rfl⟩ | ⟨-, hd⟩
    · exact .inl hr
    · exact h.requests q d hd
  connected q hq := by
    rcases isSome_lookup_insert.mp hq with rfl | hq
    · exact isSome_conn_setConn (.inr rfl)
    · exact isSome_conn_setConn (.inl (h.connected q hq))
  serving q hq := isSome_lookup_insert.mpr (.inr (h.serving q hq))
  count := h.count
  received := h.received
  once := h.once
  unanswered q d hd := by
    rcases conn_setConn hd with ⟨-, rfl⟩ | ⟨-, hd⟩
    · rw [requests_eq_nil hr]
      nofun
    · exact h.unanswered q d hd
  numbered := h.numbered

theorem connOk_commands {options : SocketOptions} {answers : List (Nat × ZmqMessage)}
    {r : ZmqFramedRead} {commands : List (Command (Limit options))}
    (hc : r.codec = idle (Limit options))
    (hb : r.buffer <+: Piece.bytesOf (commands.map Piece.command)) :
    ConnOk answers ⟨r, (Piece.bytesOf (commands.map Piece.command)).drop r.buffer.length,
      commands.map Piece.command, []⟩ := by
  refine ⟨?_, ⟨r.buffer, ?_, tracks_idle hc⟩, ?_⟩
  · rw [hc]
    exact valid_frameHeader (valid_withOptions options) none
  · obtain ⟨rest, hrest⟩ := hb
    rw [← hrest, List.drop_left]
  · intro n r hm
    obtain ⟨command, -, hcmd⟩ := List.mem_map.mp hm
    cases hcmd

theorem Inv.refused (h : Inv st) {socket : ReqSocket} (hp : socket.peers = st.socket.peers)
    (hc : socket.currentRequest = st.socket.currentRequest) : Inv { st with socket := socket } where
  conns := h.conns
  requests q d hd := by
    rw [hc]
    exact h.requests q d hd
  connected q hq := h.connected q (hp ▸ hq)
  serving q hq := by
    rw [hp]
    exact h.serving q (hc ▸ hq)
  count := by
    rw [hc]
    exact h.count
  received := h.received
  once := h.once
  unanswered := h.unanswered
  numbered := h.numbered

theorem Inv.send (h : Inv st) (hidle : st.socket.currentRequest = none) {socket : ReqSocket}
    {wire' : Wire} (hp : socket.peers = st.socket.peers.insert p wire')
    (hcur : socket.currentRequest = some p) (hc : st.conn p = some c) (message : ZmqMessage) :
    Inv ({ st with socket := socket, sends := st.sends ++ [message] }.setConn p
      { c with asked := c.asked ++ [st.sends.length] }) := by
  have hreq : ∀ q d, st.conn q = some d → d.requests = [] := by
    intro q d hd
    rcases h.requests q d hd with h | ⟨h, -⟩
    · exact h
    · rw [hidle] at h
      cases h
  refine ⟨?_, ?_, ?_, ?_, ?_, h.received, h.once, ?_, ?_⟩
  · intro q d hd
    rcases conn_setConn hd with ⟨-, rfl⟩ | ⟨-, hd⟩
    · have hok := h.conns p c hc
      exact ⟨hok.valid, hok.tracks, hok.answered⟩
    · exact h.conns q d hd
  · intro q d hd
    rcases conn_setConn hd with ⟨rfl, rfl⟩ | ⟨-, hd⟩
    · refine .inr ⟨hcur, ?_⟩
      have := hreq q c hc
      rw [Conn.requests] at this ⊢
      rw [← List.append_assoc, this]
      simp [State.setConn]
    · exact .inl (hreq q d hd)
  · intro q hq
    have hq' : ((st.socket.peers.insert p wire').lookup q).isSome := hp ▸ hq
    rcases isSome_lookup_insert.mp hq' with rfl | hq'
    · exact isSome_conn_setConn (.inr rfl)
    · exact isSome_conn_setConn (.inl (h.connected q hq'))
  · intro q hq
    obtain rfl : q = p := Option.some.inj (hq.symm.trans hcur)
    change (socket.peers.lookup q).isSome
    rw [hp]
    exact isSome_lookup_insert.mpr (.inl rfl)
  · have := h.count
    simp [State.setConn, hcur]
    simpa [hidle] using this
  · intro q d hd n hn
    rcases conn_setConn hd with ⟨-, rfl⟩ | ⟨-, hd⟩
    · rcases List.mem_append.mp hn with hn | hn
      · exact h.unanswered p c hc n hn
      · obtain rfl := List.mem_singleton.mp hn
        exact fun hmem => Nat.lt_irrefl _ (h.numbered _ hmem)
    · exact h.unanswered q d hd n hn
  · intro n hn
    have := h.numbered n hn
    simp [State.setConn]
    omega

theorem Inv.future (h : Inv st) (future : Bool) : Inv { st with future := future } :=
  ⟨h.conns, h.requests, h.connected, h.serving, h.count, h.received, h.once, h.unanswered,
    h.numbered⟩

theorem Inv.answer (h : Inv st) (hc : st.conn p = some c) {n : Nat} {asked : List Nat}
    (ha : c.asked = n :: asked) (r : Reply max) :
    Inv ({ st with answers := st.answers ++ [(n, r.message)] }.setConn p
      ({ c with asked := asked }.write (.reply n r))) := by
  have hok := h.conns p c hc
  have hpopped : ConnOk st.answers { c with asked := asked } :=
    ⟨hok.valid, hok.tracks, hok.answered⟩
  have hreq : ({ c with asked := asked }.write (.reply n r)).requests = c.requests := by
    simp [Conn.requests, Conn.write, ha, Piece.request?]
  have hsub : ∀ x ∈ st.answers, x ∈ st.answers ++ [(n, r.message)] :=
    fun x hx => List.mem_append_left _ hx
  -- it is the request in progress that is answered
  obtain ⟨hcur, hone⟩ : st.socket.currentRequest = some p ∧ c.requests = [st.sends.length - 1] := by
    rcases h.requests p c hc with hnil | hone
    · rw [requests_eq_nil hnil] at ha
      cases ha
    · exact hone
  obtain ⟨rfl, rfl⟩ : n = st.sends.length - 1 ∧ asked = [] := by
    rw [Conn.requests, ha] at hone
    cases hu : c.unread.filterMap Piece.request? with
    | nil => simpa [hu] using hone
    | cons k ks => simp [hu] at hone
  have hpos : 0 < st.sends.length := by
    have := h.count
    simp only [hcur, Option.isSome_some, if_true] at this
    omega
  refine ⟨?_, ?_, ?_, h.serving, h.count, fun x hx => hsub x (h.received x hx), ?_, ?_, ?_⟩
  · intro q d hd
    rcases conn_setConn hd with ⟨-, rfl⟩ | ⟨-, hd⟩
    · refine hpopped.write hsub ?_
      rintro n' r' ⟨⟩
      simp [State.setConn]
    · have hd' := h.conns q d hd
      exact ⟨hd'.valid, hd'.tracks, fun k r' hm => hsub _ (hd'.answered k r' hm)⟩
  · intro q d hd
    rcases conn_setConn hd with ⟨rfl, rfl⟩ | ⟨-, hd⟩
    · rw [hreq]
      exact h.requests q c hc
    · exact h.requests q d hd
  · intro q hq
    exact isSome_conn_setConn (.inl (h.connected q hq))
  · have hnew := h.unanswered p c hc (st.sends.length - 1) (by simp [ha])
    change ((st.answers ++ [_]).map Prod.fst).Nodup
    rw [List.map_append, List.nodup_append]
    refine ⟨h.once, by simp, ?_⟩
    rintro k hk _ hk' rfl
    obtain rfl : k = st.sends.length - 1 := by simpa using hk'
    exact hnew hk
  · intro q d hd k hk
    rcases conn_setConn hd with ⟨-, rfl⟩ | ⟨hq, hd⟩
    · cases hk
    · rcases h.requests q d hd with hnil | ⟨hq', -⟩
      · rw [requests_eq_nil hnil] at hk
        cases hk
      · exact absurd (Option.some.inj (hq'.symm.trans hcur)) hq
  · intro k hk
    change k ∈ (st.answers ++ [_]).map Prod.fst at hk
    rw [List.map_append, List.mem_append] at hk
    rcases hk with hk | hk
    · exact h.numbered k hk
    · obtain rfl : k = st.sends.length - 1 := by simpa using hk
      change _ < st.sends.length
      omega

theorem Inv.command (h : Inv st) (hc : st.conn p = some c) (command : Command max) :
    Inv (st.setConn p (c.write (.command command))) := by
  have hreq : (c.write (.command command)).requests = c.requests := by
    simp [Conn.requests, Conn.write, Piece.request?]
  refine h.setConn ((h.conns p c hc).write (fun x hx => hx) nofun) ?_ (h.unanswered p c hc)
  rw [hreq]
  exact h.requests p c hc

theorem Inv.poll (h : Inv st) (hcur : st.current = some (p, c))
    (hcmd : c.unread.head?.any Piece.isCommand = false) {reads : List PollRead} {polled : Polled}
    (hp : c.reader.pollNext reads = polled) (ht : polled.taken <+: c.inflight)
    (he : endOfStream polled.result = false) :
    match polled.result with
    | .pending => Inv (st.setConn p (c.polled polled))
    | .ready item => Inv ((st.setConn p (c.polled polled)).finish item) := by
  obtain ⟨hreq, hconn⟩ := current_eq_some hcur
  obtain ⟨hok, hpoll⟩ := (h.conns p c hconn).poll hcmd hp ht he
  rcases hpoll with ⟨hres, hsame⟩ | ⟨n, r, hres, hans, hnext, -⟩
  · rw [hres]
    refine h.setConn hok ?_ (h.unanswered p c hconn)
    rw [hsame]
    exact h.requests p c hconn
  · rw [hres]
    -- the reply is to the request in progress, and there is no other
    obtain ⟨-, hone⟩ : st.socket.currentRequest = some p ∧ c.requests = [st.sends.length - 1] := by
      rcases h.requests p c hconn with hnil | hone
      · rw [hnext] at hnil
        cases hnil
      · exact hone
    rw [hnext] at hone
    obtain ⟨rfl, hnil⟩ := List.cons.inj hone
    refine (h.setConn hok (.inl hnil) (h.unanswered p c hconn)).finish_reply hreq ?_ hans ?_
    · simp [Reply.message]
    · intro q d hd
      rcases conn_setConn hd with ⟨-, rfl⟩ | ⟨hq, hd⟩
      · exact hnil
      · rcases h.requests q d hd with hd | ⟨hd, -⟩
        · exact hd
        · exact absurd (Option.some.inj (hd.symm.trans hreq)) hq

end Steps

theorem inv_next {options : SocketOptions} {st st' : State (Limit options)}
    {a : Action (Limit options)} (hok : meetsNoCommand st a = true) (h : Inv st)
    (hn : next options st a = some st') : Inv st' := by
  cases a with
  | connect p n reads commands =>
    simp only [next] at hn
    split at hn
    · rename_i hg
      cases hn
      refine h.connect (connOk_commands hg.2.1 hg.2.2) ?_ _
      simp [Conn.requests, List.filterMap_map, Piece.request?]
    · cases hn
  | send message =>
    simp only [next] at hn
    split at hn
    · cases hn
    · split at hn
      · rename_i e socket hs
        cases hn
        rcases st.socket.send_cases message hs with ⟨-, -, hp, hc, -⟩ | ⟨hres, -⟩
        · exact h.refused hp hc
        · cases hres
      · rename_i socket hs
        split at hn
        · cases hn
        · rename_i p c hcur
          cases hn
          obtain ⟨hp, hconn⟩ := current_eq_some hcur
          rcases st.socket.send_cases message hs with ⟨e, hres, -⟩ | ⟨-, hidle, q, -, wire', -, hpeers, hq⟩
          · cases hres
          · obtain rfl : q = p := Option.some.inj (hq.symm.trans hp)
            exact h.send hidle hpeers hp hconn message
  | answer p r =>
    simp only [next] at hn
    split at hn
    · cases hn
    · rename_i c hc
      split at hn
      · cases hn
      · rename_i n asked ha
        cases hn
        exact h.answer hc ha r
  | command p command =>
    simp only [next, Option.map_eq_some_iff] at hn
    obtain ⟨c, hc, rfl⟩ := hn
    exact h.command hc command
  | recv =>
    simp only [next] at hn
    split at hn
    · cases hn
    · cases hn
      exact h.future true
  | drop =>
    simp only [next] at hn
    split at hn
    · cases hn
      exact h.future false
    · cases hn
  | poll reads =>
    simp only [next] at hn
    split at hn
    · split at hn
      · rename_i hcur
        cases hn
        exact h.finish_none hcur
      · rename_i p c hcur
        split at hn
        · rename_i hg
          have hcmd : c.unread.head?.any Piece.isCommand = false := by
            simpa [meetsNoCommand, hcur] using hok
          have hpoll := h.poll hcur hcmd rfl hg.1 hg.2
          split at hn
          · rename_i hres
            cases hn
            rw [hres] at hpoll
            exact hpoll
          · rename_i item hres
            cases hn
            rw [hres] at hpoll
            exact hpoll
        · cases hn
    · cases hn

theorem inv_init (options : SocketOptions) : Inv (system options).init :=
  ⟨nofun, nofun, by simp [system], nofun, rfl, nofun, List.nodup_nil, nofun, nofun⟩

/-- As long as no `recv` meets a command, every message it has returned is the reply to the
request that was the most recent at that time, there is never more than one request without
its reply, and a refused send hands its message back. -/
theorem replies_match {options : SocketOptions} {st : State (Limit options)}
    (h : ((system options).guarded fun st a => meetsNoCommand st a = true).Reachable st) :
    (∀ x ∈ st.received, x ∈ st.answers) ∧ (st.answers.map Prod.fst).Nodup ∧
      st.sends.length ≤ st.received.length + 1 ∧
      ∀ message, (st.socket.currentRequest.isSome ∨ (∀ p, st.conn p = none) →
          ∃ reason socket,
            st.socket.send message = (.error (.returnToSender reason message), socket)) ∧
        ∀ reason m socket, st.socket.send message = (.error (.returnToSender reason m), socket) →
          m = message := by
  have hi : Inv st := h.invariant_guarded (inv_init options) fun _ _ _ hok hi hn => inv_next hok hi hn
  refine ⟨hi.received, hi.once, ?_, ?_⟩
  · have := hi.count
    split at this <;> omega
  · intro message
    constructor
    · intro hr
      refine st.socket.send_refused message (hr.imp_right fun hn p => ?_)
      cases hp : st.socket.peers.lookup p with
      | none => rfl
      | some wire =>
        have := hi.connected p (by simp [hp])
        simp [hn p] at this
    · intro reason m socket hs
      rcases st.socket.send_cases message hs with ⟨e, he, -, -, hback⟩ | ⟨hok, -⟩
      · cases he
        exact hback reason m rfl
      · cases hok

section Runs

def server : PeerIdentity := .ofByte 1

def connect (options : SocketOptions) : Action (Limit options) :=
  .connect server 2 [Recv.ready (ZmqGreeting.default.encode ++ ZmqCommand.encode .ready [])] []

def ready {max : Nat} : Command max :=
  ⟨4, ZmqCommand.encodeBody .ready [], by decide, frameFits_of_short (by decide) (by decide)⟩

def reply {max : Nat} (b : UInt8) : Reply max where
  delimiter := 1
  more := []
  last := (0, [b])
  isMore := by
    intro f hf
    obtain rfl := List.mem_singleton.mp hf
    exact ⟨by decide, by decide, frameFits_of_short (by decide) (by decide)⟩
  isLast := by
    have h : Frame.ofFlags 0 = ⟨false, false, false⟩ := by decide
    exact ⟨by rw [h], by rw [h], frameFits_of_short (by rw [h]) (by simp)⟩

end Runs

omit [Target] in
theorem replies_match_one :
    letI := Target.x64
    ∃ st, ((system .default).guarded fun st a => meetsNoCommand st a = true).Reachable st ∧
      st.received = [(0, ⟨[[10]]⟩)] ∧ (0, ⟨[[10]]⟩) ∈ st.answers := by
  let _ := Target.x64
  let answer : Reply (Limit SocketOptions.default) := reply 10
  let acts : List (Action (Limit SocketOptions.default)) :=
    [connect .default, .send ⟨[[1]]⟩, .recv, .poll [], .drop, .answer server answer, .recv,
      .poll [Recv.ready (answer.bytes.take 3)], .poll [Recv.ready (answer.bytes.drop 3)]]
  have hrun : (((system .default).guarded fun st a => meetsNoCommand st a = true).run
      (system .default).init acts).any fun st => st.received = [(0, ⟨[[10]]⟩)] := by
    decide +kernel
  obtain ⟨st, hst, hr⟩ := (Option.any_eq_true _ _).mp hrun
  have hreach : ((system .default).guarded fun st a => meetsNoCommand st a = true).Reachable st :=
    ⟨acts, hst⟩
  have hrec := of_decide_eq_true hr
  exact ⟨st, hreach, hrec, (replies_match hreach).1 _ (by rw [hrec]; simp)⟩

omit [Target] in
/-- A command before the reply ends the call of `recv` and the request with it: the next
request goes out, and it is given the reply to the one before. -/
theorem command_shifts_replies :
    letI := Target.x64
    ∃ st, (system .default).Reachable st ∧ st.sends.length = 2 ∧
      (1, ⟨[[10]]⟩) ∈ st.received ∧ st.answers = [(0, ⟨[[10]]⟩), (1, ⟨[[20]]⟩)] := by
  let _ := Target.x64
  let early : Command (Limit SocketOptions.default) := ready
  let first : Reply (Limit SocketOptions.default) := reply 10
  let acts : List (Action (Limit SocketOptions.default)) :=
    [connect .default, .send ⟨[[1]]⟩, .command server early, .recv,
      .poll [Recv.ready (frameBytes early.flags early.body)], .send ⟨[[2]]⟩,
      .answer server first, .answer server (reply 20), .recv, .poll [Recv.ready first.bytes]]
  have hrun : ((system .default).run (system .default).init acts).any fun st =>
      st.sends.length = 2 ∧ (1, ⟨[[10]]⟩) ∈ st.received ∧
        st.answers = [(0, ⟨[[10]]⟩), (1, ⟨[[20]]⟩)] := by
    decide +kernel
  obtain ⟨st, hst, hr⟩ := (Option.any_eq_true _ _).mp hrun
  exact ⟨st, ⟨acts, hst⟩, of_decide_eq_true hr⟩

end ZmqRs.Matching
