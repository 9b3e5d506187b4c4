import ZmqRs.Handshake
import ZmqRs.Codec.Capacity

/-! The handshake with the growth of the reader's buffer: it panics where the buffer cannot hold
what the two exchanges ask for, and is the plain handshake where it can. -/

namespace ZmqRs

open Codec

variable [Target]

namespace Codec.ZmqFramedRead

def checkedAwaitLoop (b : BytesMut) : (n received : Nat) → ZmqFramedRead → List PollRead → Polled
  | 0, received, r, reads => r.checkedPollNext b received reads
  | n + 1, received, r, reads =>
    let p := r.checkedPollNext b received reads
    match p.result with
    | .ready _ => p
    | .pending =>
      let rest := checkedAwaitLoop b n (received + p.taken.length) p.reader p.reads
      { rest with taken := p.taken ++ rest.taken }

def checkedAwaitNext (b : BytesMut) (received : Nat) (r : ZmqFramedRead) (reads : List PollRead) :
    Polled :=
  checkedAwaitLoop b reads.length received r reads

def awaitLoopAsks : (n received : Nat) → ZmqFramedRead → List PollRead → List (Nat × Nat)
  | 0, received, r, reads => r.pollAsks received reads
  | n + 1, received, r, reads =>
    let p := r.pollNext reads
    r.pollAsks received reads ++
      match p.result with
      | .ready _ => []
      | .pending => awaitLoopAsks n (received + p.taken.length) p.reader p.reads

def awaitAsks (received : Nat) (r : ZmqFramedRead) (reads : List PollRead) : List (Nat × Nat) :=
  awaitLoopAsks reads.length received r reads

section Await

variable {options : SocketOptions} {b : BytesMut} {received : Nat} {r : ZmqFramedRead}
  {reads : List PollRead}

theorem Reaches.awaitLoop (h : Reaches options received r) (n : Nat) (reads : List PollRead) :
    Reaches options (received + (awaitLoop n r reads).taken.length)
      (awaitLoop n r reads).reader := by
  induction n generalizing received r reads with
  | zero => exact h.pollNext reads
  | succ n ih =>
    have hpoll := h.pollNext reads
    rw [ZmqFramedRead.awaitLoop]
    dsimp only
    split
    · exact hpoll
    · have hrest := ih hpoll (r.pollNext reads).reads
      dsimp only
      rwa [List.length_append, ← Nat.add_assoc]

theorem Reaches.awaitNext (h : Reaches options received r) (reads : List PollRead) :
    Reaches options (received + (r.awaitNext reads).taken.length) (r.awaitNext reads).reader :=
  h.awaitLoop reads.length reads

theorem checkedAwaitLoop_granted (h : Reaches options received r) {n : Nat}
    (hg : b.Granted (awaitLoopAsks n received r reads)) :
    checkedAwaitLoop b n received r reads = awaitLoop n r reads := by
  induction n generalizing received r reads with
  | zero => exact checkedPollNext_granted h.sound hg
  | succ n ih =>
    rw [awaitLoopAsks] at hg
    obtain ⟨hpoll, hrest⟩ := granted_append.mp hg
    rw [checkedAwaitLoop, awaitLoop, checkedPollNext_granted h.sound hpoll]
    dsimp only
    cases hp : (r.pollNext reads).result with
    | ready item => rfl
    | pending =>
      rw [hp] at hrest
      rw [ih (h.pollNext reads) hrest]

theorem checkedAwaitLoop_refused (h : Reaches options received r) {n : Nat}
    (hg : ¬ b.Granted (awaitLoopAsks n received r reads)) :
    (checkedAwaitLoop b n received r reads).result = .ready (some (.error .panic)) := by
  induction n generalizing received r reads with
  | zero => exact checkedPollNext_refused h.sound hg
  | succ n ih =>
    rw [awaitLoopAsks, granted_append] at hg
    rw [checkedAwaitLoop]
    dsimp only
    by_cases hpoll : b.Granted (r.pollAsks received reads)
    · have hrest := fun hrest => hg ⟨hpoll, hrest⟩
      rw [checkedPollNext_granted h.sound hpoll]
      cases hp : (r.pollNext reads).result with
      | ready item => exact absurd (by simp [hp, BytesMut.Granted]) hrest
      | pending =>
        rw [hp] at hrest
        exact ih (h.pollNext reads) hrest
    · have hp := checkedPollNext_refused h.sound hpoll
      rw [hp]
      exact hp

end Await

end Codec.ZmqFramedRead

namespace Handshake

open ZmqFramedRead

def checkedExchange (b : BytesMut) (received : Nat) (handle : Option Item → Res ZmqError α)
    (sent : Except CodecError Unit) (r : ZmqFramedRead) (reads : List PollRead) : Exchange α :=
  match sent with
  | .error e => ⟨.ready (.error (.error (.codec e))), r, reads, []⟩
  | .ok () =>
    let p := r.checkedAwaitNext b received reads
    match p.result with
    | .pending => ⟨.pending, p.reader, p.reads, p.taken⟩
    | .ready item => ⟨.ready (handle item), p.reader, p.reads, p.taken⟩

def checkedHandshake (b : BytesMut) (socketType : SocketType) (fresh : PeerIdentity)
    (greeting ready : Except CodecError Unit) (options : SocketOptions) (reads : List PollRead) :
    Exchange PeerIdentity :=
  let g := checkedExchange b 0 onGreeting greeting (.new options) reads
  match g.result with
  | .pending => ⟨.pending, g.reader, g.reads, g.taken⟩
  | .ready (.error e) => ⟨.ready (.error e), g.reader, g.reads, g.taken⟩
  | .ready (.ok _) =>
    let h := checkedExchange b g.taken.length (onReady socketType fresh) ready g.reader g.reads
    { h with taken := g.taken ++ h.taken }

def exchangeAsks (received : Nat) (sent : Except CodecError Unit) (r : ZmqFramedRead)
    (reads : List PollRead) : List (Nat × Nat) :=
  match sent with
  | .error _ => []
  | .ok () => r.awaitAsks received reads

/-- What the bytes that these reads give make the handshake ask of the buffer. -/
def handshakeAsks (greeting ready : Except CodecError Unit) (options : SocketOptions)
    (reads : List PollRead) : List (Nat × Nat) :=
  let g := greetExchange greeting (.new options) reads
  exchangeAsks 0 greeting (.new options) reads ++
    match g.result with
    | .ready (.ok _) => exchangeAsks g.taken.length ready g.reader g.reads
    | _ => []

section Exchange

variable {options : SocketOptions} {b : BytesMut} {received : Nat} {r : ZmqFramedRead}
  (handle : Option Item → Res ZmqError α) {sent : Except CodecError Unit} {reads : List PollRead}

theorem reaches_exchange (sent : Except CodecError Unit) (reads : List PollRead)
    (h : ZmqFramedRead.Reaches options received r) :
    ZmqFramedRead.Reaches options (received + (exchange handle sent r reads).taken.length)
      (exchange handle sent r reads).reader := by
  cases sent with
  | error e => exact h
  | ok sent =>
    have hnext := h.awaitNext reads
    simp only [exchange]
    split
    · exact hnext
    · exact hnext

theorem checkedExchange_granted (h : ZmqFramedRead.Reaches options received r)
    (hg : b.Granted (exchangeAsks received sent r reads)) :
    checkedExchange b received handle sent r reads = exchange handle sent r reads := by
  cases sent with
  | error e => rfl
  | ok sent =>
    rw [checkedExchange, checkedAwaitNext, checkedAwaitLoop_granted h hg]
    rfl

theorem checkedExchange_refused (h : ZmqFramedRead.Reaches options received r)
    (hpanic : handle (some (.error .panic)) = .error .panic)
    (hg : ¬ b.Granted (exchangeAsks received sent r reads)) :
    (checkedExchange b received handle sent r reads).result = .ready (.error .panic) := by
  cases sent with
  | error e => exact absurd (by simp [exchangeAsks, BytesMut.Granted]) hg
  | ok sent =>
    have hp := checkedAwaitLoop_refused h hg
    rw [checkedExchange, checkedAwaitNext]
    simp only [hp, hpanic]

end Exchange

section Results

variable {socketType : SocketType} {fresh : PeerIdentity} {greeting ready : Except CodecError Unit}
  {options : SocketOptions} {b : BytesMut} {reads : List PollRead}

/-- Where the buffer holds all that is asked for, its growth is not seen. -/
theorem checkedHandshake_granted (hg : b.Granted (handshakeAsks greeting ready options reads)) :
    checkedHandshake b socketType fresh greeting ready options reads =
      peerHandshake socketType fresh greeting ready (.new options) reads := by
  have hnew : ZmqFramedRead.Reaches options 0 (.new options) := .new
  obtain ⟨hgreet, hready⟩ := granted_append.mp hg
  have hg₁ := reaches_exchange onGreeting greeting reads hnew
  have heq := checkedExchange_granted onGreeting hnew hgreet
  rw [Nat.zero_add] at hg₁
  rw [greetExchange] at hready
  rw [checkedHandshake, heq, peerHandshake, greetExchange]
  generalize exchange onGreeting greeting (.new options) reads = g at hready hg₁
  cases hres : g.result with
  | pending => rfl
  | ready version =>
    cases version with
    | error e => rfl
    | ok version =>
      rw [hres] at hready
      dsimp only
      rw [checkedExchange_granted _ hg₁ hready]
      rfl

theorem checkedHandshake_refused (socketType : SocketType) (fresh : PeerIdentity)
    (hg : ¬ b.Granted (handshakeAsks greeting ready options reads)) :
    (checkedHandshake b socketType fresh greeting ready options reads).result =
      .ready (.error .panic) := by
  have hnew : ZmqFramedRead.Reaches options 0 (.new options) := .new
  rw [handshakeAsks, granted_append] at hg
  rw [checkedHandshake]
  by_cases hgreet : b.Granted (exchangeAsks 0 greeting (.new options) reads)
  · have hready := fun hready => hg ⟨hgreet, hready⟩
    have hg₁ := reaches_exchange onGreeting greeting reads hnew
    rw [Nat.zero_add] at hg₁
    rw [checkedExchange_granted onGreeting hnew hgreet]
    rw [greetExchange] at hready
    generalize exchange onGreeting greeting (.new options) reads = g at hready hg₁
    cases hres : g.result with
    | pending => exact absurd (by simp [hres, BytesMut.Granted]) hready
    | ready version =>
      cases version with
      | error e => exact absurd (by simp [hres, BytesMut.Granted]) hready
      | ok version =>
        rw [hres] at hready
        exact checkedExchange_refused _ hg₁ rfl hready
  · have hp := checkedExchange_refused onGreeting hnew rfl hgreet
    simp only [hp]

end Results

end Handshake

end ZmqRs
