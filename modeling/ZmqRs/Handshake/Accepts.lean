import ZmqRs.Handshake.Checked

/-! Which byte streams the handshake accepts, which it refuses, and which crash it.  Over
every way of cutting a stream, the outcome is what the decoder makes of the whole of it. -/

namespace ZmqRs.Handshake

open Codec Codec.ZmqCodec Codec.ZmqFramedRead

def IsGreeting (b : Bytes) : Prop :=
  b.length = 64 ∧ b.getD 0 0 = 0xff ∧ b.getD 9 0 = 0x7f ∧
    (∃ mechanism, ZmqMechanism.tryFrom ((b.drop 12).take 20) = .ok mechanism) ∧
    VersionLe (3, 0) (b.getD 10 0, b.getD 11 0)

def Identifies (fresh : PeerIdentity) (properties : Properties) (id : PeerIdentity) : Prop :=
  match properties.lookup "Identity" with
  | none => id = fresh
  | some x => x.length ≤ 255 ∧ id.bytes = if x = [] then fresh.bytes else x

def Admits (socketType : SocketType) (fresh : PeerIdentity) (properties : Properties)
    (id : PeerIdentity) : Prop :=
  ∃ other : SocketType, properties.lookup "Socket-Type" = some other.asBytes ∧
    socketType.compatible other = .ok true ∧ Identifies fresh properties id

section Handlers

theorem onGreeting_eq_ok {m : Message} {v : UInt8 × UInt8} (h : onGreeting (some (.ok m)) = .ok v) :
    ∃ g, m = .greeting g ∧ VersionLe (3, 0) g.version := by
  cases m with
  | greeting g =>
    simp only [onGreeting, negotiateVersion] at h
    split at h
    · rename_i hv
      exact ⟨g, rfl, hv⟩
    · cases h
  | command c => cases h
  | message m => cases h

theorem onGreeting_error {m : Message} {e : Fault ZmqError}
    (h : onGreeting (some (.ok m)) = .error e) : ∃ e', e = .error e' := by
  cases m with
  | greeting g =>
    simp only [onGreeting, negotiateVersion] at h
    split at h
    · cases h
    · cases h
      exact ⟨_, rfl⟩
  | command c =>
    cases h
    exact ⟨_, rfl⟩
  | message m =>
    cases h
    exact ⟨_, rfl⟩

variable {socketType other : SocketType} {fresh id : PeerIdentity} {properties : Properties}

theorem onReady_ok (socketType : SocketType) (fresh : PeerIdentity) (m : Message) :
    (∃ e, onReady socketType fresh (some (.ok m)) = .error (.error e)) ∨
      ∃ command : ZmqCommand, m = .command command ∧
        onReady socketType fresh (some (.ok m)) =
          onProperties socketType fresh command.properties := by
  cases m with
  | greeting g => exact .inl ⟨_, rfl⟩
  | command command => exact .inr ⟨command, rfl, rfl⟩
  | message m => exact .inl ⟨_, rfl⟩

theorem peerId_eq_ok : peerId fresh properties = .ok id ↔ Identifies fresh properties id := by
  rw [Identifies, peerId]
  cases properties.lookup "Identity" with
  | none => simp [eq_comm]
  | some x =>
    dsimp only
    rw [← PeerIdentity.tryFrom_eq_ok]
    cases PeerIdentity.tryFrom fresh x <;> simp [Except.mapError]

theorem otherSockType_eq_ok : otherSockType properties = .ok other ↔
    properties.lookup "Socket-Type" = some other.asBytes := by
  rw [otherSockType]
  cases properties.lookup "Socket-Type" with
  | none => simp
  | some s =>
    dsimp only
    rw [Option.some.injEq, ← SocketType.tryFrom_eq_ok]
    cases SocketType.tryFrom s <;> simp [Except.mapError]

theorem onProperties_announced (hs : properties.lookup "Socket-Type" = some other.asBytes)
    (hi : Identifies fresh properties id) :
    onProperties socketType fresh properties =
      match socketType.compatible other with
      | .error e => .error e
      | .ok true => .ok id
      | .ok false =>
        .error (.error (.other "Provided sockets combination is not compatible")) := by
  simp only [onProperties, otherSockType_eq_ok.mpr hs, peerId_eq_ok.mpr hi, bind, Except.bind]
  cases socketType.compatible other with
  | error e => rfl
  | ok b => cases b <;> rfl

theorem onProperties_cases (socketType : SocketType) (fresh : PeerIdentity)
    (properties : Properties) :
    (∃ e, onProperties socketType fresh properties = .error (.error e)) ∨
      ∃ other id, properties.lookup "Socket-Type" = some (SocketType.asBytes other) ∧
        Identifies fresh properties id := by
  have hother : ∀ e, otherSockType properties = .error e → ∃ e', e = .error e' := by
    intro e h
    rw [otherSockType] at h
    split at h
    · rename_i s _
      cases ht : SocketType.tryFrom s <;> simp [ht, Except.mapError] at h
      exact ⟨_, h.symm⟩
    · cases h
      exact ⟨_, rfl⟩
  have hid : ∀ e, peerId fresh properties = .error e → ∃ e', e = .error e' := by
    intro e h
    rw [peerId] at h
    split at h
    · rename_i x _
      cases ht : PeerIdentity.tryFrom fresh x <;> simp [ht, Except.mapError] at h
      exact ⟨_, h.symm⟩
    · cases h
  cases hs : otherSockType properties with
  | error e =>
    obtain ⟨e, rfl⟩ := hother e hs
    exact .inl ⟨e, by simp [onProperties, hs, bind, Except.bind]⟩
  | ok other =>
    cases hi : peerId fresh properties with
    | error e =>
      obtain ⟨e, rfl⟩ := hid e hi
      exact .inl ⟨e, by simp [onProperties, hs, hi, bind, Except.bind]⟩
    | ok id => exact .inr ⟨other, id, otherSockType_eq_ok.mp hs, peerId_eq_ok.mp hi⟩

theorem onProperties_eq_ok :
    onProperties socketType fresh properties = .ok id ↔ Admits socketType fresh properties id := by
  constructor
  · intro h
    rcases onProperties_cases socketType fresh properties with ⟨e, he⟩ | ⟨other, id', hs, hi⟩
    · rw [he] at h
      cases h
    · rw [onProperties_announced hs hi] at h
      split at h
      · cases h
      · rename_i hc
        cases h
        exact ⟨other, hs, hc, hi⟩
      · cases h
  · rintro ⟨other, hs, hc, hi⟩
    rw [onProperties_announced hs hi, hc]

def AnnouncesStream (properties : Properties) : Prop :=
  properties.lookup "Socket-Type" = some SocketType.stream.asBytes ∧
    ∀ x, properties.lookup "Identity" = some x → x.length ≤ 255

theorem AnnouncesStream.identifies (h : AnnouncesStream properties) (fresh : PeerIdentity) :
    ∃ id, Identifies fresh properties id := by
  cases hi : properties.lookup "Identity" with
  | none => exact ⟨fresh, by rw [Identifies, hi]⟩
  | some x =>
    by_cases hx : x = []
    · exact ⟨fresh, by simp [Identifies, hi, hx]⟩
    · exact ⟨⟨x, hx, h.2 x hi⟩, by simp [Identifies, hi, hx, h.2 x hi]⟩

theorem Identifies.short (h : Identifies fresh properties id) :
    ∀ x, properties.lookup "Identity" = some x → x.length ≤ 255 := by
  intro x hx
  rw [Identifies, hx] at h
  exact h.1

theorem onProperties_eq_panic (ht : socketType.implemented = true) :
    onProperties socketType fresh properties = .error .panic ↔
      socketType = .xsub ∧ AnnouncesStream properties := by
  constructor
  · intro h
    rcases onProperties_cases socketType fresh properties with ⟨e, he⟩ | ⟨other, id, hs, hi⟩
    · rw [he] at h
      cases h
    · rw [onProperties_announced hs hi] at h
      split at h
      · rename_i e hc
        cases h
        obtain ⟨rfl, rfl⟩ := (SocketType.compatible_eq_panic ht).mp hc
        exact ⟨rfl, hs, hi.short⟩
      · cases h
      · cases h
  · rintro ⟨rfl, ha⟩
    obtain ⟨id, hi⟩ := ha.identifies fresh
    rw [onProperties_announced ha.1 hi]
    rfl

end Handlers

def ofEntries (entries : List (String × Bytes)) : Properties :=
  entries.foldl (fun m p => m.insert p.1 p.2) ∅

theorem isGreeting_iff {b : Bytes} :
    IsGreeting b ↔ ∃ g, ZmqGreeting.tryFrom b = .ok g ∧ VersionLe (3, 0) g.version := by
  constructor
  · rintro ⟨hl, h0, h9, ⟨m, hm⟩, hv⟩
    exact ⟨⟨_, m, _⟩, ZmqGreeting.tryFrom_eq_ok.mpr ⟨hl, h0, h9, hm, rfl, rfl⟩, hv⟩
  · rintro ⟨g, hg, hv⟩
    obtain ⟨hl, h0, h9, hm, hver, -⟩ := ZmqGreeting.tryFrom_eq_ok.mp hg
    rw [hver] at hv
    exact ⟨hl, h0, h9, ⟨_, hm⟩, hv⟩

section Streams

variable [Target] {options : SocketOptions} {S rest : Bytes} {command : ZmqCommand} {c : ZmqCodec}

def Opens (max : Nat) (frames : List (UInt8 × Bytes)) (entries : List (String × Bytes))
    (rest S : Bytes) : Prop :=
  ∃ greeting flags, IsGreeting greeting ∧ (∀ f ∈ frames, IsMore max f) ∧
    (∀ p ∈ entries, ZmqCommand.Fits p) ∧ (Frame.ofFlags flags).command = true ∧
    FrameFits max flags (ZmqCommand.encodeBody .ready entries) ∧
    S = greeting ++ (framesBytes frames ++
      (frameBytes flags (ZmqCommand.encodeBody .ready entries) ++ rest))

def Reaches (options : SocketOptions) (S : Bytes) (command : ZmqCommand) (c : ZmqCodec)
    (rest : Bytes) : Prop :=
  ∃ g S₁, (withOptions options).decode S =
      (.item (.greeting g), idle options.readBufferMaxSize, S₁) ∧
    VersionLe (3, 0) g.version ∧
    (idle options.readBufferMaxSize).decode S₁ = (.item (.command command), c, rest)

theorem reaches_iff : Reaches options S command c rest ↔
    ∃ frames entries, Opens options.readBufferMaxSize frames entries rest S ∧
      command = ⟨.ready, ofEntries entries⟩ ∧
      c = between (holding none (frames.map Prod.snd)) options.readBufferMaxSize := by
  constructor
  · rintro ⟨g, S₁, hd, hv, hc⟩
    obtain ⟨b, g', rfl, hg, hm, -⟩ := decode_eq_greeting.mp hd
    cases hm
    obtain ⟨frames, flags, body, hf, hfit, hflag, ht, rfl, rfl⟩ := decode_eq_command hc
    obtain ⟨entries, he, rfl, rfl⟩ := ZmqCommand.tryFrom_eq_ok.mp ht
    exact ⟨frames, entries, ⟨b, flags, isGreeting_iff.mpr ⟨g, hg, hv⟩, hf, he, hflag, hfit, rfl⟩,
      rfl, rfl⟩
  · rintro ⟨frames, entries, ⟨b, flags, hb, hf, he, hflag, hfit, rfl⟩, rfl, rfl⟩
    obtain ⟨g, hg, hv⟩ := isGreeting_iff.mp hb
    refine ⟨g, _, decode_eq_greeting.mpr ⟨b, g, rfl, hg, rfl, rfl⟩, hv, ?_⟩
    rw [decode_moreFrames hf, decode_commandFrame _ hfit hflag]
    rw [ZmqCommand.tryFrom_encodeBody_ready he]
    rfl

theorem Reaches.append (h : Reaches options S command c rest) (more : Bytes) :
    Reaches options (S ++ more) command c (rest ++ more) := by
  obtain ⟨g, S₁, hd, hv, hc⟩ := h
  have hvalid := valid_withOptions options
  exact ⟨g, S₁ ++ more, decode_append more hvalid hd (by simp), hv,
    decode_append more (valid_decode hvalid hd) hc (by simp)⟩

end Streams

section Exchanges

variable [Target]

structure Refuses (handle : Option Item → Res ZmqError α) : Prop where
  ended : ∃ e, handle none = .error (.error e)
  failed : ∀ e, ∃ e', handle (some (.error (.error e))) = .error (.error e')

omit [Target] in
theorem refuses_onGreeting : Refuses onGreeting := ⟨⟨_, rfl⟩, fun _ => ⟨_, rfl⟩⟩

omit [Target] in
theorem refuses_onReady (socketType : SocketType) (fresh : PeerIdentity) :
    Refuses (onReady socketType fresh) := ⟨⟨_, rfl⟩, fun _ => ⟨_, rfl⟩⟩

variable {handle : Option Item → Res ZmqError α} {sent : Except CodecError Unit}
  {r : ZmqFramedRead} {reads : List PollRead}

theorem exchange_ready (hh : Refuses handle) (hv : r.codec.Valid) {x : Exchange α}
    (hx : exchange handle sent r reads = x) {res : Res ZmqError α} (h : x.result = .ready res) :
    (∃ e, res = .error (.error e)) ∨ sent = .ok () ∧ ∃ m, handle (some (.ok m)) = res ∧
      r.codec.decode (r.buffer ++ x.taken) = (.item m, x.reader.codec, x.reader.buffer) := by
  subst hx
  cases sent with
  | error e =>
    cases h
    exact .inl ⟨_, rfl⟩
  | ok =>
    have hd := awaitNext_decodesTo hv reads
    rw [DecodesTo] at hd
    simp only [exchange] at h ⊢
    split at h
    · cases h
    · rename_i item hp
      cases h
      simp only [hp] at hd ⊢
      rcases item with _ | (e | _) | m
      · exact .inl hh.ended
      · exact .inl (hh.failed e)
      · exact (decode_error hv hd).elim
      · exact .inr ⟨trivial, m, rfl, hd⟩

theorem exchange_pending (hv : r.codec.Valid) {x : Exchange α}
    (hx : exchange handle sent r reads = x) (h : x.result = .pending) :
    ∃ c b, r.codec.decode (r.buffer ++ x.taken) = (.none, c, b) := by
  subst hx
  cases sent with
  | error e => cases h
  | ok =>
    have hd := awaitNext_decodesTo hv reads
    rw [DecodesTo] at hd
    simp only [exchange] at h ⊢
    split at h
    · rename_i hp
      simp only [hp] at hd ⊢
      exact ⟨_, _, hd⟩
    · cases h

theorem exchange_item (hh : Refuses handle) (hv : r.codec.Valid)
    (hr : ∀ read ∈ reads, read.Healthy) {k : Nat} {x : Exchange α}
    (hx : exchange handle (.ok ()) r (reads ++ List.replicate (k + 1) .eof) = x)
    {t rest : Bytes} {m : Message} {c : ZmqCodec}
    (hd : r.codec.decode (r.buffer ++ t) = (.item m, c, rest)) (ht : x.taken <+: t)
    (hend : (∃ e, x.result = .ready (.error (.error e))) → x.reads.length < k + 1 → x.taken = t) :
    x.result = .ready (handle (some (.ok m))) ∧ x.reader.codec = c ∧
      x.reader.buffer ++ t.drop x.taken.length = rest ∧
      ∃ used left, reads = used ++ left ∧ x.reads = left ++ List.replicate (k + 1) .eof := by
  have hdec := awaitNext_decodesTo hv (reads ++ List.replicate (k + 1) .eof)
  simp only [exchange] at hx
  generalize hp : r.awaitNext (reads ++ List.replicate (k + 1) .eof) = p at hdec hx
  have hends := awaitNext_ends hv hp
  rw [DecodesTo] at hdec
  rcases hends with ⟨used, left, hl, hreads, hres | ⟨-, read, hmem, hread⟩⟩ | ⟨hreads, heos⟩
  · have htaken : x.taken = p.taken := by
      rw [← hx]
      split <;> rfl
    obtain ⟨t', rfl⟩ := ht
    rw [← List.append_assoc, htaken, decode_append t' hv hdec hres] at hd
    obtain ⟨hreply, hc, hb⟩ : replyOf p.result = .item m ∧ p.reader.codec = c ∧
        p.reader.buffer ++ t' = rest := by simpa using hd
    rw [eq_of_replyOf_item hreply] at hx
    rw [← hx]
    exact ⟨rfl, hc, by simpa using hb, used, left, hl, hreads⟩
  · exact absurd (hr read hmem) hread
  · cases hi : p.result with
    | pending =>
      rw [hi] at heos
      cases heos
    | ready item =>
      rw [hi] at hx hdec heos
      have herr : ∃ e, x.result = .ready (.error (.error e)) := by
        rw [← hx]
        rcases item with _ | (e | _) | m
        · obtain ⟨e, he⟩ := hh.ended
          exact ⟨e, congrArg Poll.ready he⟩
        · obtain ⟨e', he⟩ := hh.failed e
          exact ⟨e', congrArg Poll.ready he⟩
        · cases heos
        · cases heos
      have htaken := hend herr (by rw [← hx]; simp [hreads])
      rw [← htaken, ← hx] at hd
      cases (congrArg Prod.fst (hdec.symm.trans hd)).symm.trans (endOfStream_ready.mp heos)

theorem exchange_ends (hv : r.codec.Valid) {k : Nat} {x : Exchange α}
    (hx : exchange handle sent r (reads ++ List.replicate (k + 1) .eof) = x) :
    (∃ res, x.result = .ready res) ∧ ∃ left, x.reads = left ++ List.replicate k .eof := by
  subst hx
  cases sent with
  | error e =>
    exact ⟨⟨_, rfl⟩, reads ++ [.eof], by simp [exchange, List.replicate_succ]⟩
  | ok =>
    simp only [exchange]
    generalize hp : r.awaitNext (reads ++ List.replicate (k + 1) .eof) = p
    have hends := awaitNext_ends hv hp
    have hready : ∃ item, p.result = .ready item := by
      cases hi : p.result with
      | pending =>
        rw [hi] at hends
        rcases hends with ⟨used, left, -, -, hres | ⟨heos, -⟩⟩ | ⟨-, heos⟩
        · exact absurd rfl hres
        · cases heos
        · cases heos
      | ready item => exact ⟨item, rfl⟩
    obtain ⟨item, hi⟩ := hready
    simp only [hi]
    refine ⟨⟨_, rfl⟩, ?_⟩
    rcases hends with ⟨used, left, -, hreads, -⟩ | ⟨hreads, -⟩
    · exact ⟨left ++ [.eof], by simp [hreads, List.replicate_succ]⟩
    · exact ⟨[], by simp [hreads]⟩

end Exchanges

section Results

variable [Target] {socketType : SocketType} {fresh : PeerIdentity}
  {greeting ready : Except CodecError Unit} {options : SocketOptions} {reads : List PollRead}

theorem peerHandshake_ready {h : Exchange PeerIdentity}
    (hh : peerHandshake socketType fresh greeting ready (.new options) reads = h)
    {res : Res ZmqError PeerIdentity} (hr : h.result = .ready res) :
    (∃ e, res = .error (.error e)) ∨ greeting = .ok () ∧ ready = .ok () ∧ ∃ command,
      Reaches options h.taken command h.reader.codec h.reader.buffer ∧
      onProperties socketType fresh command.properties = res := by
  have hv : (new options).codec.Valid := valid_withOptions options
  rw [peerHandshake] at hh
  generalize hg : greetExchange greeting (.new options) reads = g at hh
  dsimp only at hh
  split at hh
  · subst hh
    cases hr
  · rename_i e hres
    subst hh
    cases hr
    rcases exchange_ready refuses_onGreeting hv hg hres with ⟨e', he⟩ | ⟨-, m, hm, -⟩
    · cases he
      exact .inl ⟨e', rfl⟩
    · obtain ⟨e', rfl⟩ := onGreeting_error hm
      exact .inl ⟨e', rfl⟩
  · rename_i version hres
    generalize hx : readyExchange socketType fresh ready g.reader g.reads = x at hh
    subst hh
    rcases exchange_ready refuses_onGreeting hv hg hres with ⟨e, he⟩ | ⟨hsent, m, hm, hd⟩
    · cases he
    obtain ⟨greeting, rfl, hver⟩ := onGreeting_eq_ok hm
    obtain ⟨-, -, -, -, -, hidle⟩ := decode_eq_greeting.mp hd
    have hv₁ := valid_decode hv hd
    rcases exchange_ready (refuses_onReady socketType fresh) hv₁ hx hr with he | ⟨hsent', m', hm', hd'⟩
    · exact .inl he
    rcases onReady_ok socketType fresh m' with ⟨e, he⟩ | ⟨command, rfl, hc⟩
    · exact .inl ⟨e, hm'.symm.trans he⟩
    · refine .inr ⟨hsent, hsent', command, ?_, hc.symm.trans hm'⟩
      have happ := decode_append x.taken hv hd (by simp)
      rw [hidle] at happ hd'
      exact ⟨greeting, _, happ, hver, hd'⟩

/-- The bytes settle the handshake: a greeting that is refused, or one that is accepted and
a whole item behind it. -/
def Enough (options : SocketOptions) (b : Bytes) : Prop :=
  match (withOptions options).decode b with
  | (.none, _, _) => False
  | (.error _, _, _) => True
  | (.item m, c, rest) =>
    match onGreeting (some (.ok m)) with
    | .error _ => True
    | .ok _ => (c.decode rest).1 ≠ .none

theorem peerHandshake_pending {h : Exchange PeerIdentity}
    (hh : peerHandshake socketType fresh greeting ready (.new options) reads = h)
    (hp : h.result = .pending) : ¬ Enough options h.taken := by
  have hv : (new options).codec.Valid := valid_withOptions options
  rw [peerHandshake] at hh
  generalize hg : greetExchange greeting (.new options) reads = g at hh
  dsimp only at hh
  split at hh
  · rename_i hres
    subst hh
    obtain ⟨c, b, hd⟩ := exchange_pending hv hg hres
    have hd' : (withOptions options).decode g.taken = (.none, c, b) := hd
    simp [Enough, hd']
  · subst hh
    cases hp
  · rename_i version hres
    generalize hx : readyExchange socketType fresh ready g.reader g.reads = x at hh
    subst hh
    rcases exchange_ready refuses_onGreeting hv hg hres with ⟨e, he⟩ | ⟨-, m, hm, hd⟩
    · cases he
    obtain ⟨c, b, hd'⟩ := exchange_pending (valid_decode hv hd) hx hp
    have happ : (withOptions options).decode (g.taken ++ x.taken) =
        (.item m, g.reader.codec, g.reader.buffer ++ x.taken) :=
      decode_append x.taken hv hd (by simp)
    simp [Enough, happ, hm, hd']

theorem peerHandshake_ends (socketType : SocketType) (fresh : PeerIdentity)
    (greeting ready : Except CodecError Unit) (options : SocketOptions) (reads : List PollRead)
    (k : Nat) :
    ∃ res, (peerHandshake socketType fresh greeting ready (.new options)
      (reads ++ List.replicate (k + 2) .eof)).result = .ready res := by
  have hv : (new options).codec.Valid := valid_withOptions options
  rw [peerHandshake]
  generalize hg : greetExchange greeting (.new options) (reads ++ List.replicate (k + 2) .eof) = g
  obtain ⟨⟨version, hres⟩, left, hleft⟩ := exchange_ends hv hg
  cases version with
  | error e =>
    simp only [hres]
    exact ⟨_, rfl⟩
  | ok version =>
    simp only [hres]
    rcases exchange_ready refuses_onGreeting hv hg hres with ⟨e, he⟩ | ⟨-, m, -, hd⟩
    · cases he
    rw [hleft]
    exact (exchange_ends (valid_decode hv hd) rfl).1

/-- The transport carried the stream `S`: its reads gave the bytes of `S` in order, in any
pieces, and `k` more reads report the end, which is reached behind the last byte only.
Each of the two exchanges may ask at the end. -/
structure Carries (S : Bytes) (reads : List PollRead) (k : Nat) (h : Exchange PeerIdentity) :
    Prop where
  healthy : ∀ read ∈ reads, read.Healthy
  two_le : 2 ≤ k
  sent : h.taken <+: S
  ended : h.reads.length < k → h.taken = S

theorem peerHandshake_carried {k : Nat} {h : Exchange PeerIdentity} {S rest : Bytes}
    {command : ZmqCommand} {c : ZmqCodec}
    (hh : peerHandshake socketType fresh (.ok ()) (.ok ()) (.new options)
      (reads ++ List.replicate k .eof) = h)
    (hc : Carries S reads k h) (hr : Reaches options S command c rest) :
    h.result = .ready (onProperties socketType fresh command.properties) ∧ h.reader.codec = c ∧
      h.reader.buffer ++ S.drop h.taken.length = rest := by
  have hv : (new options).codec.Valid := valid_withOptions options
  obtain ⟨greeting, S₁, hd, hver, hd'⟩ := hr
  obtain ⟨k, rfl⟩ : ∃ n, k = n + 1 := ⟨k - 1, by have := hc.two_le; omega⟩
  rw [peerHandshake] at hh
  generalize hg : greetExchange (.ok ()) (.new options) (reads ++ List.replicate (k + 1) .eof) = g
    at hh
  have hver' : onGreeting (some (.ok (.greeting greeting))) = .ok (3, 0) := if_pos hver
  -- the greeting exchange takes a part of the stream, all of it if it is at the end
  have hpre : g.taken <+: S := by
    refine List.IsPrefix.trans ?_ hc.sent
    rw [← hh]
    dsimp only
    split
    · exact List.prefix_rfl
    · exact List.prefix_rfl
    · exact List.prefix_append _ _
  have hend : (∃ e, g.result = .ready (.error (.error e))) → g.reads.length < k + 1 →
      g.taken = S := by
    rintro ⟨e, he⟩ hlt
    simp only [he] at hh
    subst hh
    exact hc.ended hlt
  obtain ⟨hres, hidle, hb, used, left, hl, hleft⟩ :=
    exchange_item refuses_onGreeting hv hc.healthy hg hd hpre hend
  rw [hver'] at hres
  simp only [hres] at hh
  generalize hx : readyExchange socketType fresh (.ok ()) g.reader g.reads = x at hh
  obtain ⟨t, rfl⟩ := hpre
  rw [List.drop_left] at hb
  subst hh hb
  rw [hleft] at hx
  rw [← hidle] at hd'
  have hhealthy : ∀ read ∈ left, read.Healthy := fun read hm => hc.healthy read (by simp [hl, hm])
  have hv₁ : g.reader.codec.Valid := by
    rw [hidle]
    exact valid_decode hv hd
  obtain ⟨hres', hc', hb', -⟩ := exchange_item (refuses_onReady socketType fresh) hv₁ hhealthy hx
    hd' ((List.prefix_append_right_inj _).mp hc.sent)
      (fun _ hlt => List.append_cancel_left (hc.ended hlt))
  refine ⟨hres', hc', ?_⟩
  rw [List.length_append, ← List.drop_drop, List.drop_left]
  exact hb'

def Crashes (max : Nat) (S : Bytes) : Prop :=
  ∃ frames entries rest, Opens max frames entries rest S ∧ AnnouncesStream (ofEntries entries)

theorem opens_of_ready {h : Exchange PeerIdentity}
    (hh : peerHandshake socketType fresh greeting ready (.new options) reads = h) {S : Bytes}
    (hS : h.taken <+: S) {res : Res ZmqError PeerIdentity} (hr : h.result = .ready res) :
    (∃ e, res = .error (.error e)) ∨ greeting = .ok () ∧ ready = .ok () ∧ ∃ frames entries rest,
      Opens options.readBufferMaxSize frames entries rest S ∧
      onProperties socketType fresh (ofEntries entries) = res := by
  rcases peerHandshake_ready hh hr with herr | ⟨hg, hr, command, hreach, hprop⟩
  · exact .inl herr
  obtain ⟨t, rfl⟩ := hS
  obtain ⟨frames, entries, hopens, rfl, -⟩ := reaches_iff.mp (hreach.append t)
  exact .inr ⟨hg, hr, frames, entries, _, hopens, hprop⟩

theorem result_of_opens {k : Nat} {h : Exchange PeerIdentity} {S rest : Bytes}
    {frames : List (UInt8 × Bytes)} {entries : List (String × Bytes)}
    (hh : peerHandshake socketType fresh (.ok ()) (.ok ()) (.new options)
      (reads ++ List.replicate k .eof) = h)
    (hc : Carries S reads k h) (ho : Opens options.readBufferMaxSize frames entries rest S) :
    h.result = .ready (onProperties socketType fresh (ofEntries entries)) ∧
      h.reader.codec = between (holding none (frames.map Prod.snd)) options.readBufferMaxSize ∧
      h.reader.buffer ++ S.drop h.taken.length = rest := by
  have hreach := reaches_iff.mpr ⟨frames, entries, ho, rfl, rfl⟩
  exact peerHandshake_carried hh hc hreach

theorem crashes_of_panic (hT : socketType.implemented = true) {h : Exchange PeerIdentity}
    (hh : peerHandshake socketType fresh greeting ready (.new options) reads = h) {S : Bytes}
    (hS : h.taken <+: S) (hp : h.result = .ready (.error .panic)) :
    socketType = .xsub ∧ greeting = .ok () ∧ ready = .ok () ∧
      Crashes options.readBufferMaxSize S := by
  rcases opens_of_ready hh hS hp with ⟨e, he⟩ | ⟨hg, hr, frames, entries, rest, hopens, hprop⟩
  · cases he
  obtain ⟨rfl, ha⟩ := (onProperties_eq_panic hT).mp hprop
  exact ⟨rfl, hg, hr, frames, entries, rest, hopens, ha⟩

theorem withstands_of_carries (hT : socketType.implemented = true) {k : Nat}
    {h : Exchange PeerIdentity} {S : Bytes}
    (hh : peerHandshake socketType fresh greeting ready (.new options)
      (reads ++ List.replicate k .eof) = h)
    (hc : Carries S reads k h) :
    (∃ res, h.result = .ready res ∧ res ≠ .error .panic) ↔
      ¬ (socketType = .xsub ∧ greeting = .ok () ∧ ready = .ok () ∧
        Crashes options.readBufferMaxSize S) := by
  constructor
  · rintro ⟨res, hres, hne⟩ ⟨rfl, rfl, rfl, frames, entries, rest, hopens, ha⟩
    obtain ⟨hres', -⟩ := result_of_opens hh hc hopens
    have hp : onProperties .xsub fresh (ofEntries entries) = .error .panic :=
      (onProperties_eq_panic hT).mpr ⟨rfl, ha⟩
    rw [hp, hres] at hres'
    cases hres'
    exact hne rfl
  · intro hncrash
    obtain ⟨n, rfl⟩ : ∃ n, k = n + 2 := ⟨k - 2, by have := hc.two_le; omega⟩
    obtain ⟨res, hres⟩ := peerHandshake_ends socketType fresh greeting ready options reads n
    refine ⟨res, (congrArg Exchange.result hh).symm.trans hres, ?_⟩
    rintro rfl
    exact hncrash (crashes_of_panic hT hh hc.sent ((congrArg Exchange.result hh).symm.trans hres))

/-- A stream crashes the handshake in two ways only.  A peer that calls itself STREAM crashes an
XSUB socket, and a frame that is announced too long makes the reader's buffer overflow, which is
what `Granted` rules out.  In any case the handshake never waits for more than it needs, nor for
ever on a stream that has ended. -/
theorem withstands_iff {socketType : SocketType} (hT : socketType.implemented = true)
    (b : BytesMut) (options : SocketOptions) (fresh : PeerIdentity)
    (greeting ready : Except CodecError Unit) (S : Bytes) :
    let h := checkedHandshake b socketType fresh greeting ready options
    let asks := handshakeAsks greeting ready options
    let crashed := socketType = .xsub ∧ greeting = .ok () ∧ ready = .ok () ∧
      Crashes options.readBufferMaxSize S
    (∀ reads k, Carries S reads k (h (reads ++ List.replicate k .eof)) →
      ((∃ res, (h (reads ++ List.replicate k .eof)).result = .ready res ∧ res ≠ .error .panic) ↔
        ¬ crashed ∧ b.Granted (asks (reads ++ List.replicate k .eof)))) ∧
    (∀ reads, (h reads).taken <+: S →
      ((h reads).result = .ready (.error .panic) → crashed ∨ ¬ b.Granted (asks reads)) ∧
      (¬ b.Granted (asks reads) → (h reads).result = .ready (.error .panic)) ∧
      (Enough options (h reads).taken → (h reads).result ≠ .pending)) ∧
    ∀ reads, (h (reads ++ [.eof, .eof])).result ≠ .pending := by
  intro h asks crashed
  have hgranted : ∀ {reads}, b.Granted (asks reads) →
      h reads = peerHandshake socketType fresh greeting ready (.new options) reads :=
    fun hg => checkedHandshake_granted hg
  have hrefused : ∀ {reads}, ¬ b.Granted (asks reads) →
      (h reads).result = .ready (.error .panic) :=
    fun hg => checkedHandshake_refused socketType fresh hg
  refine ⟨?_, ?_, ?_⟩
  · intro reads k hc
    by_cases hg : b.Granted (asks (reads ++ List.replicate k .eof))
    · rw [hgranted hg] at hc ⊢
      rw [withstands_of_carries hT rfl hc, and_iff_left hg]
    · rw [hrefused hg]
      refine iff_of_false ?_ (fun hw => hg hw.2)
      rintro ⟨res, hres, hne⟩
      cases hres
      exact hne rfl
  · intro reads hS
    by_cases hg : b.Granted (asks reads)
    · rw [hgranted hg] at hS ⊢
      exact ⟨fun hp => .inl (crashes_of_panic hT rfl hS hp), fun hn => absurd hg hn,
        fun he hp => peerHandshake_pending rfl hp he⟩
    · have hp := hrefused hg
      exact ⟨fun _ => .inr hg, fun _ => hp, fun _ hw => by cases hp.symm.trans hw⟩
  · intro reads hw
    by_cases hg : b.Granted (asks (reads ++ [.eof, .eof]))
    · rw [hgranted hg] at hw
      obtain ⟨res, hres⟩ := peerHandshake_ends socketType fresh greeting ready options reads 0
      cases hw.symm.trans hres
    · cases hw.symm.trans (hrefused hg)

end Results

def streamPeer : Bytes :=
  ZmqGreeting.default.encode ++
    ZmqCommand.encode .ready [("Socket-Type", SocketType.stream.asBytes)]

theorem healthy_ready {b : Bytes} (hb : b ≠ []) : PollRead.Healthy (Recv.ready b) := by
  intro len hlen
  have := List.length_pos_iff.mpr hb
  simp only [Recv.ready]
  omega

theorem carries_of_taken [Target] {S : Bytes} {h : Exchange PeerIdentity} (hS : S ≠ [])
    (ht : h.taken = S) : Carries S [Recv.ready S] 2 h where
  healthy := by
    intro read hr
    obtain rfl := List.mem_singleton.mp hr
    exact healthy_ready hS
  two_le := Nat.le_refl 2
  sent := by rw [ht]
  ended := fun _ => ht

theorem withstands_iff_pull :
    letI := Target.x64
    let h := checkedHandshake .kept .pull (.ofByte 7) (.ok ()) (.ok ()) .default
      ([Recv.ready streamPeer] ++ List.replicate 2 .eof)
    ∃ res, h.result = .ready res ∧ res ≠ .error .panic := by
  let _ := Target.x64
  intro h
  have ht : h.taken = streamPeer := by decide +kernel
  have hg : BytesMut.kept.Granted (handshakeAsks (.ok ()) (.ok ()) .default
      ([Recv.ready streamPeer] ++ List.replicate 2 .eof)) := by decide +kernel
  have hT : SocketType.pull.implemented = true := rfl
  have hw := withstands_iff hT .kept .default (.ofByte 7) (.ok ()) (.ok ()) streamPeer
  exact (hw.1 [Recv.ready streamPeer] 2 (carries_of_taken (by decide) ht)).mpr ⟨by simp, hg⟩

/-- A peer that calls itself STREAM crashes an XSUB socket; and one that announces a frame of a
chunk short of `isize::MAX` crashes any, here a PULL socket. -/
theorem xsub_crashes :
    letI := Target.x64
    let handshake := fun socketType S =>
      checkedHandshake .kept socketType (.ofByte 7) (.ok ()) (.ok ()) .default
        ([Recv.ready S] ++ List.replicate 2 .eof)
    let huge := ZmqFramedRead.announcing [0x7f, 0xff, 0xff, 0xff, 0xff, 0xfe, 0xff, 0xff]
    (Carries streamPeer [Recv.ready streamPeer] 2 (handshake .xsub streamPeer) ∧
      (handshake .xsub streamPeer).result = .ready (.error .panic)) ∧
    Carries huge [Recv.ready huge] 2 (handshake .pull huge) ∧
      (handshake .pull huge).result = .ready (.error .panic) := by
  let _ := Target.x64
  intro handshake huge
  have hstream : (handshake .xsub streamPeer).taken = streamPeer := by decide +kernel
  have hhuge : (handshake .pull huge).taken = huge := by decide +kernel
  exact ⟨⟨carries_of_taken (by decide) hstream, by decide +kernel⟩,
    carries_of_taken (by decide) hhuge, by decide +kernel⟩

section Protocol

variable [Target] {socketType : SocketType} {fresh id : PeerIdentity} {flags : UInt8}
  {entries : List (String × Bytes)} {rest S : Bytes} {options : SocketOptions}

/-- What the protocol allows: an accepted greeting and, directly behind it, a frame with the
command flag that holds a well-formed `READY`, whose properties let the peer in. -/
structure Accepts (socketType : SocketType) (fresh : PeerIdentity) (flags : UInt8)
    (entries : List (String × Bytes)) (id : PeerIdentity) (rest S : Bytes) : Prop where
  command : (Frame.ofFlags flags).command = true
  fits : ∀ p ∈ entries, ZmqCommand.Fits p
  length : (ZmqCommand.encodeBody .ready entries).length <
    if (Frame.ofFlags flags).long then 2 ^ 64 else 2 ^ 8
  admits : Admits socketType fresh (ofEntries entries) id
  stream : ∃ greeting, IsGreeting greeting ∧
    S = greeting ++ (frameBytes flags (ZmqCommand.encodeBody .ready entries) ++ rest)

def Premature (max : Nat) (socketType : SocketType) (fresh : PeerIdentity) (S : Bytes) : Prop :=
  ∃ frames entries rest id, frames ≠ [] ∧ Opens max frames entries rest S ∧
    Admits socketType fresh (ofEntries entries) id

def Oversized (max : Nat) (socketType : SocketType) (fresh : PeerIdentity) (S : Bytes) : Prop :=
  ∃ flags entries id rest, Accepts socketType fresh flags entries id rest S ∧
    ¬ FrameFits max flags (ZmqCommand.encodeBody .ready entries)

def CallsItselfStream (max : Nat) (S : Bytes) : Prop :=
  ∃ frames entries rest, Opens max frames entries rest S ∧
    (ofEntries entries).lookup "Socket-Type" = some SocketType.stream.asBytes

theorem Accepts.opens {max : Nat} (h : Accepts socketType fresh flags entries id rest S)
    (hf : FrameFits max flags (ZmqCommand.encodeBody .ready entries)) :
    Opens max [] entries rest S := by
  obtain ⟨greeting, hg, hS⟩ := h.stream
  exact ⟨greeting, flags, hg, by simp, h.fits, h.command, hf, hS⟩

theorem Opens.accepts {max : Nat} (h : Opens max [] entries rest S)
    (ha : Admits socketType fresh (ofEntries entries) id) :
    ∃ flags, Accepts socketType fresh flags entries id rest S := by
  obtain ⟨greeting, flags, hg, -, he, hc, hfit, hS⟩ := h
  refine ⟨flags, hc, he, ?_, ha, greeting, hg, hS⟩
  rw [FrameFits] at hfit
  split at hfit
  · rename_i hl
    rw [if_pos hl]
    rcases isizeMax_cases with h | h <;> omega
  · rename_i hl
    rw [if_neg hl]
    omega

theorem Opens.not_accepts {max : Nat} {frames : List (UInt8 × Bytes)}
    {entries' : List (String × Bytes)} {rest' : Bytes} (h : Opens max frames entries' rest' S)
    (hf : frames ≠ []) : ¬ Accepts socketType fresh flags entries id rest S := by
  intro ha
  obtain ⟨greeting, flags', hg, hmore, -, -, -, rfl⟩ := h
  obtain ⟨greeting', hg', hS⟩ := ha.stream
  have heq := (List.append_inj hS (hg.1.trans hg'.1.symm)).2
  cases frames with
  | nil => exact hf rfl
  | cons f frames =>
    have hflags : f.1 = flags := by
      simp only [framesBytes, List.flatMap_cons, frameBytes, List.cons_append] at heq
      exact (List.cons.inj heq).1
    have hcommand := (hmore f (by simp)).1
    rw [hflags, ha.command] at hcommand
    cases hcommand

theorem Accepts.frameFits {max : Nat} {entries' : List (String × Bytes)} {rest' : Bytes}
    (ha : Accepts socketType fresh flags entries id rest S)
    (h : Opens max [] entries' rest' S) :
    FrameFits max flags (ZmqCommand.encodeBody .ready entries) := by
  obtain ⟨greeting, flags', hg, -, -, -, hfit, rfl⟩ := h
  obtain ⟨greeting', hg', hS⟩ := ha.stream
  have heq := (List.append_inj hS (hg.1.trans hg'.1.symm)).2
  have hlen := ha.length
  simp only [framesBytes, List.flatMap_nil, List.nil_append, frameBytes, List.cons_append,
    List.append_assoc] at heq
  obtain ⟨rfl, heq⟩ := List.cons.inj heq
  rw [FrameFits] at hfit ⊢
  split at hfit
  · rename_i hl
    rw [if_pos hl]
    simp only [if_pos hl] at heq hlen
    have h64 : (ZmqCommand.encodeBody .ready entries').length < 256 ^ 8 := by
      rcases isizeMax_cases with h | h <;> omega
    have henc := (List.append_inj heq (by simp)).1
    have hdec := congrArg Lib.BigEndian.decode henc
    rw [Lib.BigEndian.decode_encode 8 h64, Lib.BigEndian.decode_encode 8 hlen] at hdec
    omega
  · rename_i hl
    rw [if_neg hl]
    rw [if_neg hl] at hlen
    omega

/-- What is asked of the handshake of a stream: it lets a peer in exactly on the streams the
protocol allows, refuses the others with an error, and leaves to the socket what stands behind the
`READY` frame. -/
def Decides (socketType : SocketType) (fresh : PeerIdentity) (options : SocketOptions) (S : Bytes)
    (h : Exchange PeerIdentity) : Prop :=
  (∀ id, h.result = .ready (.ok id) ↔
    ∃ flags entries rest, Accepts socketType fresh flags entries id rest S) ∧
  ((∀ id, h.result ≠ .ready (.ok id)) → ∃ e, h.result = .ready (.error (.error e))) ∧
  ∀ flags entries id rest, Accepts socketType fresh flags entries id rest S →
    h.reader.codec = idle options.readBufferMaxSize ∧
      h.reader.buffer ++ S.drop h.taken.length = rest

theorem decides_of_carries (hT : socketType.implemented = true)
    {reads : List PollRead} {k : Nat} {h : Exchange PeerIdentity}
    (hh : peerHandshake socketType fresh (.ok ()) (.ok ()) (.new options)
      (reads ++ List.replicate k .eof) = h)
    (hc : Carries S reads k h) (hs : ¬ CallsItselfStream options.readBufferMaxSize S) :
    Decides socketType fresh options S h ↔
      ¬ Premature options.readBufferMaxSize socketType fresh S ∧
        ¬ Oversized options.readBufferMaxSize socketType fresh S := by
  have hopens : ∀ {id}, h.result = .ready (.ok id) → ∃ frames entries rest,
      Opens options.readBufferMaxSize frames entries rest S ∧
        Admits socketType fresh (ofEntries entries) id := by
    intro id hr
    rcases opens_of_ready hh hc.sent hr with ⟨e, he⟩ | ⟨-, -, frames, entries, rest, ho, hprop⟩
    · cases he
    · exact ⟨frames, entries, rest, ho, onProperties_eq_ok.mp hprop⟩
  have hadmitted : ∀ {frames entries rest id},
      Opens options.readBufferMaxSize frames entries rest S →
      Admits socketType fresh (ofEntries entries) id → h.result = .ready (.ok id) := by
    intro frames entries rest id ho ha
    rw [(result_of_opens hh hc ho).1, onProperties_eq_ok.mpr ha]
  constructor
  · rintro ⟨hiff, -, -⟩
    constructor
    · rintro ⟨frames, entries, rest, id, hne, ho, ha⟩
      obtain ⟨flags, entries', rest', hacc⟩ := (hiff id).mp (hadmitted ho ha)
      exact ho.not_accepts hne hacc
    · rintro ⟨flags, entries, id, rest, hacc, hfit⟩
      obtain ⟨frames, entries', rest', ho, -⟩ := hopens ((hiff id).mpr ⟨flags, entries, rest, hacc⟩)
      cases frames with
      | nil => exact hfit (hacc.frameFits ho)
      | cons f frames => exact ho.not_accepts (by simp) hacc
  · rintro ⟨hpre, hover⟩
    have hacc : ∀ {flags entries id rest}, Accepts socketType fresh flags entries id rest S →
        h.result = .ready (.ok id) ∧ h.reader.codec = idle options.readBufferMaxSize ∧
          h.reader.buffer ++ S.drop h.taken.length = rest := by
      intro flags entries id rest ha
      by_cases hfit : FrameFits options.readBufferMaxSize flags
        (ZmqCommand.encodeBody .ready entries)
      · have ho := ha.opens hfit
        exact ⟨hadmitted ho ha.admits, (result_of_opens hh hc ho).2⟩
      · exact absurd ⟨flags, entries, id, rest, ha, hfit⟩ hover
    refine ⟨?_, ?_, fun _ _ _ _ ha => (hacc ha).2⟩
    · intro id
      constructor
      · intro hr
        obtain ⟨frames, entries, rest, ho, ha⟩ := hopens hr
        cases frames with
        | nil =>
          obtain ⟨flags, hf⟩ := ho.accepts ha
          exact ⟨flags, entries, rest, hf⟩
        | cons f frames => exact absurd ⟨_, _, _, id, by simp, ho, ha⟩ hpre
      · rintro ⟨flags, entries, rest, ha⟩
        exact (hacc ha).1
    · intro hno
      obtain ⟨n, rfl⟩ : ∃ n, k = n + 2 := ⟨k - 2, by have := hc.two_le; omega⟩
      obtain ⟨res, hres⟩ := peerHandshake_ends socketType fresh (.ok ()) (.ok ()) options reads n
      rw [hh] at hres
      rcases res with (e | _) | id
      · exact ⟨e, hres⟩
      · obtain ⟨-, -, -, frames, entries, rest, ho, ha⟩ := crashes_of_panic hT hh hc.sent hres
        exact absurd ⟨frames, entries, rest, ho, ha.1⟩ hs
      · exact absurd hres (hno id)

/-- In any pieces, the handshake decides as the protocol asks as long as the `READY` frame comes
first and is not too long to be represented, and no frame is announced that makes the reader's
buffer overflow. -/
theorem accepts_iff {socketType : SocketType} (hT : socketType.implemented = true) (b : BytesMut)
    (options : SocketOptions) (fresh : PeerIdentity) {S : Bytes} {reads : List PollRead} {k : Nat}
    {h : Exchange PeerIdentity}
    (hh : checkedHandshake b socketType fresh (.ok ()) (.ok ()) options
      (reads ++ List.replicate k .eof) = h)
    (hc : Carries S reads k h) (hs : ¬ CallsItselfStream options.readBufferMaxSize S) :
    Decides socketType fresh options S h ↔
      ¬ Premature options.readBufferMaxSize socketType fresh S ∧
        ¬ Oversized options.readBufferMaxSize socketType fresh S ∧
        b.Granted (handshakeAsks (.ok ()) (.ok ()) options (reads ++ List.replicate k .eof)) := by
  by_cases hg : b.Granted
      (handshakeAsks (.ok ()) (.ok ()) options (reads ++ List.replicate k .eof))
  · rw [checkedHandshake_granted hg] at hh
    rw [decides_of_carries hT hh hc hs, and_iff_left hg]
  · have hp := checkedHandshake_refused socketType fresh hg
    rw [hh] at hp
    refine iff_of_false ?_ (fun hw => hg hw.2.2)
    rintro ⟨-, herr, -⟩
    obtain ⟨e, he⟩ := herr (fun id hid => by cases hp.symm.trans hid)
    cases hp.symm.trans he

theorem Reaches.command_eq {command command' : ZmqCommand} {c c' : ZmqCodec} {rest' : Bytes}
    (h : Reaches options S command c rest) (h' : Reaches options S command' c' rest') :
    command = command' := by
  obtain ⟨g, S₁, hd, -, hc⟩ := h
  obtain ⟨g', S₁', hd', -, hc'⟩ := h'
  cases hd.symm.trans hd'
  cases hc.symm.trans hc'
  rfl

end Protocol

def pushPeer (frames : List (UInt8 × Bytes)) : Bytes :=
  ZmqGreeting.default.encode ++ (framesBytes frames ++ (frameBytes 4 (ZmqCommand.encodeBody .ready
    [("Socket-Type", SocketType.push.asBytes), ("Identity", [9])]) ++ []))

section PushPeer

variable [Target] {max : Nat} {frames : List (UInt8 × Bytes)}

theorem opens_pushPeer (hf : ∀ f ∈ frames, IsMore max f) :
    Opens max frames [("Socket-Type", SocketType.push.asBytes), ("Identity", [9])] []
      (pushPeer frames) := by
  refine ⟨ZmqGreeting.default.encode, 4, ⟨rfl, rfl, rfl, ⟨.null, rfl⟩, .inr ⟨rfl, by decide⟩⟩, hf,
    ?_, by decide, frameFits_of_short (by decide) (by decide), rfl⟩
  simp only [ZmqCommand.Fits]
  decide

theorem not_callsItselfStream_pushPeer {options : SocketOptions}
    (hf : ∀ f ∈ frames, IsMore options.readBufferMaxSize f) :
    ¬ CallsItselfStream options.readBufferMaxSize (pushPeer frames) := by
  rintro ⟨frames', entries, rest, ho, hs⟩
  have h := reaches_iff.mpr ⟨_, _, opens_pushPeer hf, rfl, rfl⟩
  have h' := reaches_iff.mpr ⟨_, _, ho, rfl, rfl⟩
  obtain ⟨-, heq⟩ := ZmqCommand.mk.inj (h'.command_eq h)
  rw [heq] at hs
  revert hs
  decide

end PushPeer

theorem accepts_iff_pull :
    letI := Target.x64
    let h := checkedHandshake .kept .pull (.ofByte 7) (.ok ()) (.ok ()) .default
      ([Recv.ready (pushPeer [])] ++ List.replicate 2 .eof)
    h.result = .ready (.ok (.ofByte 9)) := by
  let _ := Target.x64
  intro h
  have ho : Opens SocketOptions.default.readBufferMaxSize [] _ _ (pushPeer []) :=
    opens_pushPeer (by simp)
  have hadmits : Admits .pull (.ofByte 7)
      (ofEntries [("Socket-Type", SocketType.push.asBytes), ("Identity", [9])]) (.ofByte 9) :=
    onProperties_eq_ok.mp (by decide +kernel)
  obtain ⟨flags, ha⟩ := ho.accepts hadmits
  have ht : h.taken = pushPeer [] := by decide +kernel
  have hpull := accepts_iff rfl .kept .default (.ofByte 7) rfl (carries_of_taken (by decide) ht)
    (not_callsItselfStream_pushPeer (by simp))
  refine ((hpull.mpr ⟨?_, ?_, by decide +kernel⟩).1 _).mpr ⟨_, _, _, ha⟩
  · rintro ⟨frames, entries, rest, id, hne, ho', -⟩
    exact ho'.not_accepts hne ha
  · rintro ⟨flags', entries, id, rest, ha', hfit⟩
    exact hfit (ha'.frameFits ho)

/-- A message frame before the command: the peer is let in, and its frame waits to become the
first part of the next message. -/
theorem premature_accepted :
    letI := Target.x64
    let S := pushPeer [(1, [0xaa])]
    let h := checkedHandshake .kept .pull (.ofByte 7) (.ok ()) (.ok ()) .default
      ([Recv.ready S] ++ List.replicate 2 .eof)
    Carries S [Recv.ready S] 2 h ∧
      ¬ CallsItselfStream SocketOptions.default.readBufferMaxSize S ∧
      h.result = .ready (.ok (.ofByte 9)) ∧
      h.reader.codec.bufferedMessage = some ⟨[[0xaa]]⟩ ∧
      ¬ ∃ flags entries rest, Accepts .pull (.ofByte 7) flags entries (.ofByte 9) rest S := by
  let _ := Target.x64
  intro S h
  have hf : ∀ f ∈ [((1 : UInt8), ([0xaa] : Bytes))],
      IsMore SocketOptions.default.readBufferMaxSize f := by
    intro f hf
    obtain rfl := List.mem_singleton.mp hf
    exact ⟨by decide, by decide, frameFits_of_short (by decide) (by decide)⟩
  have ht : h.taken = S := by decide +kernel
  refine ⟨carries_of_taken (by decide) ht, not_callsItselfStream_pushPeer hf, by decide +kernel,
    by decide +kernel, ?_⟩
  rintro ⟨flags, entries, rest, ha⟩
  exact (opens_pushPeer hf).not_accepts (by simp) ha

end ZmqRs.Handshake
