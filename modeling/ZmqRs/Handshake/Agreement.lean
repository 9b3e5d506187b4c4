import ZmqRs.Handshake.Accepts
import ZmqRs.Codec.RoundTrip
import ZmqRs.Lib.Transition

/-! Two sockets of the crate that run the handshake against each other over a reliable
channel.  Each side writes its greeting and its `READY` command in any pieces and polls for
those of the other. -/

namespace ZmqRs.Handshake.Agreement

open Codec Codec.ZmqCodec Codec.ZmqFramedRead

variable [Target]

/-- What one side brings: its type, its options with the configured identity, the identity
`PeerIdentity::new` would make for its peer, and an order in which it iterates the properties
of its command. -/
structure Config where
  socketType : SocketType
  options : SocketOptions
  fresh : PeerIdentity
  order : List (String × Bytes)
  implemented : socketType.implemented = true
  iterates : ZmqCommand.Iterates (readyProperties socketType options.peerId) order

inductive Stage
  | greeting
  | ready
  deriving DecidableEq

/-- Where a side is in `peer_handshake`: in one of the two sends, with the bytes still to be
written, waiting for the answer to it, or at the end. -/
inductive Phase
  | sending (stage : Stage) (unsent : Bytes)
  | awaiting (stage : Stage)
  | done (result : Res ZmqError PeerIdentity)
  deriving DecidableEq

structure Party where
  phase : Phase
  reader : ZmqFramedRead
  written : Bytes
  taken : Bytes

/-- `wire i` are the bytes in flight to the side `i`; its peer is `!i`. -/
structure State where
  party : Bool → Party
  wire : Bool → Bytes

inductive Action
  | write (i : Bool) (n : Nat)
  | fail (i : Bool) (e : CodecError)
  | poll (i : Bool) (reads : List PollRead)

namespace Config

def bytes (c : Config) : Stage → Bytes
  | .greeting => ZmqGreeting.default.encode
  | .ready => ZmqCommand.encode .ready c.order

def init (c : Config) : Party := ⟨.sending .greeting (c.bytes .greeting), .new c.options, [], []⟩

def onItem (c : Config) (item : Option Item) : Stage → Phase
  | .greeting =>
    match onGreeting item with
    | .error e => .done (.error e)
    | .ok _ => .sending .ready (c.bytes .ready)
  | .ready => .done (onReady c.socketType c.fresh item)

end Config

def Party.closed (p : Party) : Bool :=
  match p.phase with
  | .done (.error _) => true
  | _ => false

variable (cfg : Bool → Config)

/-- Bytes arrive in order, and writes and reads fail only when the other side has dropped
its connection. -/
def next (st : State) : Action → Option State
  | .write i n =>
    match (st.party i).phase with
    | .sending stage unsent =>
      if 0 < n ∧ n ≤ unsent.length then
        some {
          party := Function.update st.party i { st.party i with
            phase := if unsent.drop n = [] then .awaiting stage else .sending stage (unsent.drop n)
            written := (st.party i).written ++ unsent.take n }
          wire := Function.update st.wire (!i) (st.wire (!i) ++ unsent.take n) }
      else none
    | _ => none
  | .fail i e =>
    match (st.party i).phase with
    | .sending _ _ =>
      if (st.party (!i)).closed then
        some { st with party := Function.update st.party i { st.party i with
          phase := .done (.error (.error (.codec e))) } }
      else none
    | _ => none
  | .poll i reads =>
    match (st.party i).phase with
    | .awaiting stage =>
      let p := (st.party i).reader.pollNext reads
      if p.taken <+: st.wire i ∧ (endOfStream p.result → (st.party (!i)).closed) then
        some {
          party := Function.update st.party i { st.party i with
            phase := match p.result with
              | .pending => .awaiting stage
              | .ready item => (cfg i).onItem item stage
            reader := p.reader
            taken := (st.party i).taken ++ p.taken }
          wire := Function.update st.wire i ((st.wire i).drop p.taken.length) }
      else none
    | _ => none

def system : Lib.System State Action where
  init := ⟨fun i => (cfg i).init, fun _ => []⟩
  next := next cfg

section Refinement

variable {cfg} {α : Type}

def after (e : Exchange α) (taken : Bytes) : Exchange α := { e with taken := taken ++ e.taken }

@[simp] theorem after_nil (e : Exchange α) : after e [] = e := rfl

@[simp] theorem after_after (e : Exchange α) (taken taken' : Bytes) :
    after (after e taken') taken = after e (taken ++ taken') := by
  simp [after]

theorem exchange_pending (handle : Option Item → Res ZmqError α) {r : ZmqFramedRead}
    {reads : List PollRead} (h : (r.pollNext reads).result = .pending) :
    ∃ used, ∀ more, exchange handle (.ok ()) r (used ++ more) =
      after (exchange handle (.ok ()) (r.pollNext reads).reader more) (r.pollNext reads).taken := by
  obtain ⟨used, hu⟩ := r.pollNext_exact reads
  refine ⟨used, fun more => ?_⟩
  have hres : (r.pollNext (used ++ more)).result = .pending := by rw [hu, h]
  rw [exchange, awaitNext_of_pending hres, hu]
  dsimp only [exchange]
  generalize (r.pollNext reads).reader.awaitNext more = p
  rcases p with ⟨_ | item, reader, left, taken⟩ <;> rfl

theorem exchange_ready (handle : Option Item → Res ZmqError α) {r : ZmqFramedRead}
    {reads : List PollRead} {item : Option Item} (h : (r.pollNext reads).result = .ready item) :
    ∃ used, ∀ more, exchange handle (.ok ()) r (used ++ more) =
      ⟨.ready (handle item), (r.pollNext reads).reader, more, (r.pollNext reads).taken⟩ := by
  obtain ⟨used, hu⟩ := r.pollNext_exact reads
  refine ⟨used, fun more => ?_⟩
  have hres : (r.pollNext (used ++ more)).result = .ready item := by rw [hu, h]
  simp only [exchange, awaitNext_of_ready hres, hu, h]

theorem peerHandshake_pending (socketType : SocketType) (fresh : PeerIdentity) {r : ZmqFramedRead}
    {reads : List PollRead} (h : (r.pollNext reads).result = .pending) :
    ∃ used, ∀ ready more, peerHandshake socketType fresh (.ok ()) ready r (used ++ more) =
      after (peerHandshake socketType fresh (.ok ()) ready (r.pollNext reads).reader more)
        (r.pollNext reads).taken := by
  obtain ⟨used, hu⟩ := exchange_pending onGreeting h
  refine ⟨used, fun ready more => ?_⟩
  simp only [peerHandshake, greetExchange, hu]
  generalize exchange onGreeting (.ok ()) (r.pollNext reads).reader more = g
  rcases g with ⟨_ | (e | v), reader, left, taken⟩
  · rfl
  · rfl
  · simp [after]

theorem peerHandshake_ready (socketType : SocketType) (fresh : PeerIdentity) {r : ZmqFramedRead}
    {reads : List PollRead} {item : Option Item} (h : (r.pollNext reads).result = .ready item) :
    ∃ used, ∀ ready more, peerHandshake socketType fresh (.ok ()) ready r (used ++ more) =
      match onGreeting item with
      | .error e => ⟨.ready (.error e), (r.pollNext reads).reader, more, (r.pollNext reads).taken⟩
      | .ok _ => after (readyExchange socketType fresh ready (r.pollNext reads).reader more)
        (r.pollNext reads).taken := by
  obtain ⟨used, hu⟩ := exchange_ready onGreeting h
  refine ⟨used, fun ready more => ?_⟩
  simp only [peerHandshake, greetExchange, hu]
  cases onGreeting item with
  | error e => rfl
  | ok v => rfl

def Config.Ran (c : Config) (p : Party) : Prop :=
  match p.phase with
  | .sending .greeting _ => p.reader = .new c.options ∧ p.taken = []
  | .awaiting .greeting => ∃ used, ∀ ready more,
    peerHandshake c.socketType c.fresh (.ok ()) ready (.new c.options) (used ++ more) =
      after (peerHandshake c.socketType c.fresh (.ok ()) ready p.reader more) p.taken
  | .sending .ready _ => ∃ used, ∀ ready more,
    peerHandshake c.socketType c.fresh (.ok ()) ready (.new c.options) (used ++ more) =
      after (readyExchange c.socketType c.fresh ready p.reader more) p.taken
  | .awaiting .ready => ∃ used, ∀ more,
    peerHandshake c.socketType c.fresh (.ok ()) (.ok ()) (.new c.options) (used ++ more) =
      after (readyExchange c.socketType c.fresh (.ok ()) p.reader more) p.taken
  | .done res => ∃ greeting ready reads,
    (peerHandshake c.socketType c.fresh greeting ready (.new c.options) reads).result =
      .ready res

variable {c : Config} {q : Party}

theorem Config.Ran.write (hq : c.Ran q) {stage : Stage} {unsent : Bytes}
    (hp : q.phase = .sending stage unsent) (n : Nat) (written : Bytes) :
    c.Ran { q with
      phase := if unsent.drop n = [] then .awaiting stage else .sending stage (unsent.drop n)
      written := written } := by
  rw [Ran, hp] at hq
  split
  · cases stage with
    | greeting =>
      obtain ⟨hr, ht⟩ := hq
      exact ⟨[], fun ready more => by simp [hr, ht]⟩
    | ready =>
      obtain ⟨used, hu⟩ := hq
      exact ⟨used, hu (.ok ())⟩
  · cases stage with
    | greeting => exact hq
    | ready => exact hq

theorem Config.Ran.fail (hq : c.Ran q) {stage : Stage} {unsent : Bytes}
    (hp : q.phase = .sending stage unsent) (e : CodecError) :
    c.Ran { q with phase := .done (.error (.error (.codec e))) } := by
  rw [Ran, hp] at hq
  cases stage with
  | greeting => exact ⟨.error e, .ok (), [], rfl⟩
  | ready =>
    obtain ⟨used, hu⟩ := hq
    exact ⟨.ok (), .error e, used ++ [], by rw [hu]; rfl⟩

theorem Config.Ran.pollGreeting (hq : c.Ran q) (hp : q.phase = .awaiting .greeting)
    (reads : List PollRead) :
    c.Ran { q with
      phase := match (q.reader.pollNext reads).result with
        | .pending => .awaiting .greeting
        | .ready item => c.onItem item .greeting
      reader := (q.reader.pollNext reads).reader
      taken := q.taken ++ (q.reader.pollNext reads).taken } := by
  rw [Ran, hp] at hq
  obtain ⟨used, hu⟩ := hq
  cases hr : (q.reader.pollNext reads).result with
  | pending =>
    obtain ⟨used', hu'⟩ := peerHandshake_pending c.socketType c.fresh hr
    refine ⟨used ++ used', fun ready more => ?_⟩
    rw [List.append_assoc, hu, hu', after_after]
  | ready item =>
    obtain ⟨used', hu'⟩ := peerHandshake_ready c.socketType c.fresh hr
    cases hi : onGreeting item with
    | error e =>
      simp only [hi] at hu'
      simp only [onItem, hi]
      refine ⟨.ok (), .ok (), used ++ (used' ++ []), ?_⟩
      rw [hu, hu']
      rfl
    | ok v =>
      simp only [hi] at hu'
      simp only [onItem, hi]
      refine ⟨used ++ used', fun ready more => ?_⟩
      rw [List.append_assoc, hu, hu', after_after]

theorem Config.Ran.pollReady (hq : c.Ran q) (hp : q.phase = .awaiting .ready)
    (reads : List PollRead) :
    c.Ran { q with
      phase := match (q.reader.pollNext reads).result with
        | .pending => .awaiting .ready
        | .ready item => c.onItem item .ready
      reader := (q.reader.pollNext reads).reader
      taken := q.taken ++ (q.reader.pollNext reads).taken } := by
  rw [Ran, hp] at hq
  obtain ⟨used, hu⟩ := hq
  cases hr : (q.reader.pollNext reads).result with
  | pending =>
    obtain ⟨used', hu'⟩ := exchange_pending (onReady c.socketType c.fresh) hr
    refine ⟨used ++ used', fun more => ?_⟩
    rw [List.append_assoc, hu, readyExchange, hu', after_after]
  | ready item =>
    obtain ⟨used', hu'⟩ := exchange_ready (onReady c.socketType c.fresh) hr
    refine ⟨.ok (), .ok (), used ++ (used' ++ []), ?_⟩
    rw [hu, readyExchange, hu']
    rfl

variable {st st' : State}

theorem ran_init (i : Bool) : (cfg i).Ran ((system cfg).init.party i) := ⟨rfl, rfl⟩

theorem ran_update (h : ∀ i, (cfg i).Ran (st.party i)) {i : Bool} (hq : (cfg i).Ran q) (k : Bool) :
    (cfg k).Ran (Function.update st.party i q k) := by
  by_cases hk : k = i
  · subst hk
    rwa [Function.update_self]
  · rw [Function.update_of_ne hk]
    exact h k

theorem ran_next {a : Action} (h : ∀ i, (cfg i).Ran (st.party i))
    (hn : next cfg st a = some st') : ∀ i, (cfg i).Ran (st'.party i) := by
  cases a with
  | write i n =>
    simp only [next] at hn
    split at hn
    · rename_i hp
      split at hn
      · cases hn
        exact ran_update h ((h i).write hp n _)
      · cases hn
    · cases hn
  | fail i e =>
    simp only [next] at hn
    split at hn
    · rename_i hp
      split at hn
      · cases hn
        exact ran_update h ((h i).fail hp e)
      · cases hn
    · cases hn
  | poll i reads =>
    simp only [next] at hn
    split at hn
    · rename_i stage hp
      split at hn
      · cases hn
        cases stage with
        | greeting => exact ran_update h ((h i).pollGreeting hp reads)
        | ready => exact ran_update h ((h i).pollReady hp reads)
      · cases hn
    · cases hn

theorem exists_peerHandshake (h : (system cfg).Reachable st) {i : Bool}
    {res : Res ZmqError PeerIdentity} (hd : (st.party i).phase = .done res) :
    ∃ greeting ready reads, (peerHandshake (cfg i).socketType (cfg i).fresh greeting ready
      (.new (cfg i).options) reads).result = .ready res := by
  have hi := h.invariant (P := fun st : State => ∀ i, (cfg i).Ran (st.party i)) ran_init
    (fun _ _ _ hi hn => ran_next hi hn) i
  rwa [Config.Ran, hd] at hi

end Refinement

section Command

omit [Target]

variable (t : SocketType) (peerId : Option PeerIdentity)

theorem lookup_socketType :
    (readyProperties t peerId).lookup "Socket-Type" = some t.asBytes := by
  cases peerId with
  | none => simp [readyProperties]
  | some id =>
    rw [readyProperties, Finmap.lookup_insert_of_ne _ (by decide)]
    simp

theorem lookup_identity :
    (readyProperties t peerId).lookup "Identity" = peerId.map PeerIdentity.bytes := by
  cases peerId with
  | none => simp [readyProperties, Finmap.lookup_eq_none]
  | some id => simp [readyProperties]

theorem length_asBytes_le (t : SocketType) : t.asBytes.length ≤ 6 := by
  cases t <;> decide

abbrev Entry := Sigma fun _ : String => Bytes

def readyEntries : List Entry :=
  (peerId.toList.map fun id => ⟨"Identity", id.bytes⟩) ++ [⟨"Socket-Type", t.asBytes⟩]

theorem entries_readyProperties :
    (readyProperties t peerId).entries = (readyEntries t peerId : Multiset Entry) := by
  cases peerId with
  | none => simp [readyProperties, readyEntries, Finmap.singleton]
  | some id =>
    rw [readyProperties, Finmap.entries_insert_of_notMem (by simp)]
    rfl

def propertyLen (p : Entry) : Nat :=
  (utf8 p.1).length + 1 + (p.2.length + 4)

theorem sum_propertyLen_le : ((readyProperties t peerId).entries.map propertyLen).sum ≤ 290 := by
  have ht := length_asBytes_le t
  have hst : (utf8 "Socket-Type").length = 11 := rfl
  have hid : (utf8 "Identity").length = 8 := rfl
  rw [entries_readyProperties]
  cases peerId with
  | none =>
    simp [readyEntries, propertyLen]
    omega
  | some id =>
    have hid' := id.short
    simp [readyEntries, propertyLen]
    omega

end Command

namespace Config

variable (c : Config)

theorem messageLen_le : ZmqCommand.messageLen .ready c.order ≤ 300 := by
  have hsum := sum_propertyLen_le c.socketType c.options.peerId
  rw [c.iterates, Multiset.map_coe, Multiset.sum_coe, List.map_map] at hsum
  have hlen : ZmqCommand.messageLen .ready c.order =
      6 + (c.order.map (propertyLen ∘ fun p => ⟨p.1, p.2⟩)).sum := rfl
  omega

theorem fits_order : ∀ p ∈ c.order, ZmqCommand.Fits p := by
  rintro ⟨name, value⟩ hp
  have hmem : (⟨name, value⟩ : Entry) ∈ (readyProperties c.socketType c.options.peerId).entries := by
    rw [c.iterates]
    simpa using hp
  have ht := length_asBytes_le c.socketType
  rw [entries_readyProperties, readyEntries, Multiset.mem_coe, List.mem_append] at hmem
  rcases hmem with hmem | hmem
  · obtain ⟨id, -, he⟩ := List.mem_map.mp hmem
    have hid := id.short
    cases he
    exact ⟨show (utf8 "Identity").length ≤ 255 by decide, by simp only; omega⟩
  · cases List.mem_singleton.mp hmem
    exact ⟨show (utf8 "Socket-Type").length ≤ 255 by decide, by simp only; omega⟩

def command : ZmqCommand := ⟨.ready, readyProperties c.socketType c.options.peerId⟩

theorem bytes_ready_eq : ∃ flags, c.bytes .ready =
      frameBytes flags (ZmqCommand.encodeBody .ready c.order) ∧
    (Frame.ofFlags flags).command = true ∧
    ∀ options : SocketOptions, FrameFits options.readBufferMaxSize flags
      (ZmqCommand.encodeBody .ready c.order) := by
  have hlen := c.messageLen_le
  rw [← ZmqCommand.length_encodeBody] at hlen
  obtain ⟨flags, he, hf⟩ := encodeCommand_eq .ready c.order
  have hl : (Frame.ofFlags flags).long =
      decide (255 < (ZmqCommand.encodeBody .ready c.order).length) := by rw [hf]
  refine ⟨flags, he.trans (cons_lenBytes hl), by rw [hf], ?_⟩
  intro options
  have hmax := options.max_le
  apply frameFits_of_le hl
  rcases isizeMax_cases with h | h <;> omega

theorem decode_greeting (options : SocketOptions) (rest : Bytes) :
    (withOptions options).decode (c.bytes .greeting ++ rest) =
      (.item (.greeting .default), idle options.readBufferMaxSize, rest) :=
  decode_eq_greeting.mpr ⟨_, .default, rfl, ZmqGreeting.tryFrom_encode _, rfl, rfl⟩

theorem decode_ready (options : SocketOptions) (rest : Bytes) :
    (idle options.readBufferMaxSize).decode (c.bytes .ready ++ rest) =
      (.item (.command c.command), idle options.readBufferMaxSize, rest) := by
  obtain ⟨flags, he, hc, hf⟩ := c.bytes_ready_eq
  have hparse : ZmqCommand.tryFrom (ZmqCommand.encodeBody .ready c.order) = .ok c.command :=
    ZmqCommand.tryFrom_encodeBody (c := c.command) c.iterates (fun p hp => (c.fits_order p hp).1)
      (fun p hp => (c.fits_order p hp).2)
  rw [he, decode_commandFrame none (hf options) hc, hparse]

end Config

def learned (i : Bool) : PeerIdentity := ((cfg (!i)).options.peerId).getD (cfg i).fresh

def Compatible : Prop := (cfg false).socketType.compatible (cfg true).socketType = .ok true

variable {cfg}

theorem compatible_iff (i : Bool) :
    (cfg i).socketType.compatible (cfg (!i)).socketType = .ok true ↔ Compatible cfg := by
  cases i with
  | false => rfl
  | true =>
    rw [SocketType.compatible_comm (cfg true).implemented (cfg (!true)).implemented]
    rfl

def Verdict (cfg : Bool → Config) (i : Bool) (res : Res ZmqError PeerIdentity) : Prop :=
  (Compatible cfg ∧ res = .ok (learned cfg i)) ∨ (¬ Compatible cfg ∧ ∃ e, res = .error (.error e))

theorem onReady_verdict (i : Bool) :
    Verdict cfg i (onReady (cfg i).socketType (cfg i).fresh
      (some (.ok (.command (cfg (!i)).command)))) := by
  have hs : (cfg (!i)).command.properties.lookup "Socket-Type" =
      some (cfg (!i)).socketType.asBytes := lookup_socketType _ _
  have hi : Identifies (cfg i).fresh (cfg (!i)).command.properties (learned cfg i) := by
    rw [Identifies, Config.command, lookup_identity, learned]
    cases (cfg (!i)).options.peerId with
    | none => rfl
    | some id => simp [id.short, id.nonempty]
  have hne : (cfg (!i)).socketType ≠ .stream := by
    intro h
    have := (cfg (!i)).implemented
    rw [h] at this
    cases this
  change Verdict cfg i (onProperties _ _ _)
  rw [onProperties_announced hs hi, Verdict, ← compatible_iff i]
  cases hc : (cfg i).socketType.compatible (cfg (!i)).socketType with
  | error e =>
    obtain rfl := SocketType.compatible_error hc
    exact absurd ((SocketType.compatible_eq_panic (cfg i).implemented).mp hc).2 hne
  | ok b => cases b <;> simp

namespace Config

variable (c : Config)

def total (c : Config) : Stage → Bytes
  | .greeting => c.bytes .greeting
  | .ready => c.bytes .greeting ++ c.bytes .ready

def Written (c : Config) : Phase → Bytes → Prop
  | .sending stage unsent, w => w ++ unsent = c.total stage
  | .awaiting stage, w => w = c.total stage
  | .done _, w => w <+: c.total .ready

def Reads (c : Config) : Stage → Bytes → ZmqFramedRead → Prop
  | .greeting, taken, r => Tracks (withOptions c.options) taken r
  | .ready, taken, r => ∃ t, taken = ZmqGreeting.default.encode ++ t ∧
      Tracks (idle c.options.readBufferMaxSize) t r

def Decoded (c : Config) : Phase → Bytes → ZmqFramedRead → Prop
  | .sending stage _, taken, r => c.Reads stage taken r
  | .awaiting stage, taken, r => c.Reads stage taken r
  | .done _, _, _ => True

theorem isPrefix_total (stage : Stage) : c.total stage <+: c.total .ready := by
  cases stage with
  | greeting => exact List.prefix_append _ _
  | ready => exact List.prefix_rfl

theorem Written.isPrefix {c : Config} {phase : Phase} {w : Bytes} (h : c.Written phase w) :
    w <+: c.total .ready := by
  cases phase with
  | sending stage unsent => exact (List.prefix_append w unsent).trans (h ▸ c.isPrefix_total stage)
  | awaiting stage => exact h ▸ c.isPrefix_total stage
  | done res => exact h

end Config

structure Side (cfg : Bool → Config) (i : Bool) (p : Party) : Prop where
  valid : p.reader.codec.Valid
  written : (cfg i).Written p.phase p.written
  decoded : (cfg i).Decoded p.phase p.taken p.reader
  verdict : ∀ res, p.phase = .done res → Verdict cfg i res

structure Inv (cfg : Bool → Config) (st : State) : Prop where
  sides : ∀ i, Side cfg i (st.party i)
  wires : ∀ i, (st.party (!i)).written = (st.party i).taken ++ st.wire i

theorem inv_init : Inv cfg (system cfg).init where
  sides _ := ⟨valid_withOptions _, rfl, fun _ => rfl, nofun⟩
  wires _ := rfl

section Steps

variable {i : Bool} {q : Party}

theorem Side.write {stage : Stage} {unsent : Bytes} (hq : Side cfg i q)
    (hp : q.phase = .sending stage unsent) (n : Nat) :
    Side cfg i { q with
      phase := if unsent.drop n = [] then .awaiting stage else .sending stage (unsent.drop n)
      written := q.written ++ unsent.take n } := by
  have hw := hq.written
  have hd := hq.decoded
  rw [hp] at hw hd
  have happ : q.written ++ unsent.take n ++ unsent.drop n = (cfg i).total stage := by
    rw [List.append_assoc, List.take_append_drop]
    exact hw
  refine ⟨hq.valid, ?_, ?_, ?_⟩
  · dsimp only
    split
    · rename_i hnil
      rw [hnil, List.append_nil] at happ
      exact happ
    · exact happ
  · dsimp only
    split
    · exact hd
    · exact hd
  · dsimp only
    split
    · nofun
    · nofun

theorem Side.done (hq : Side cfg i q) {r : ZmqFramedRead} {taken : Bytes}
    {res : Res ZmqError PeerIdentity} (hv : r.codec.Valid) (hres : Verdict cfg i res) :
    Side cfg i { q with phase := .done res, reader := r, taken := taken } := by
  refine ⟨hv, hq.written.isPrefix, trivial, ?_⟩
  rintro res' ⟨⟩
  exact hres

theorem onItem_endOfStream {c : Config} {item : Option Item}
    (h : endOfStream (.ready item) = true) (stage : Stage) :
    ∃ e, c.onItem item stage = .done (.error (.error e)) := by
  rcases item with _ | (e | _) | m
  · cases stage <;> exact ⟨_, rfl⟩
  · cases stage <;> exact ⟨_, rfl⟩
  · cases h
  · cases h

theorem Side.pollGreeting (hq : Side cfg i q) (hp : q.phase = .awaiting .greeting)
    (reads : List PollRead)
    (ht : q.taken ++ (q.reader.pollNext reads).taken <+: (cfg (!i)).total .ready)
    (hend : endOfStream (q.reader.pollNext reads).result = true → ¬ Compatible cfg) :
    Side cfg i { q with
      phase := match (q.reader.pollNext reads).result with
        | .pending => .awaiting .greeting
        | .ready item => (cfg i).onItem item .greeting
      reader := (q.reader.pollNext reads).reader
      taken := q.taken ++ (q.reader.pollNext reads).taken } := by
  have hw := hq.written
  have hd := hq.decoded
  rw [hp] at hw hd
  have hv := valid_decode hq.valid (pollNext_decodesTo hq.valid reads)
  obtain ⟨v, hv'⟩ := ht
  have hdec := (cfg (!i)).decode_greeting (cfg i).options ((cfg (!i)).bytes .ready)
  change (withOptions (cfg i).options).decode ((cfg (!i)).total .ready) = _ at hdec
  rw [← hv'] at hdec
  rcases Tracks.poll hd hq.valid reads hdec with hres | ⟨item, hres, he⟩ | ⟨hres, hc, hb⟩
  · have htr := Tracks.pending hd hq.valid hres
    rw [hres]
    exact ⟨hv, hw, htr, nofun⟩
  · obtain ⟨e, hitem⟩ := onItem_endOfStream he .greeting
    rw [hres]
    dsimp only
    rw [hitem]
    exact hq.done hv (.inr ⟨hend (hres ▸ he), e, rfl⟩)
  · rw [hres]
    refine ⟨hv, ?_, ⟨(q.reader.pollNext reads).reader.buffer, ?_, ?_⟩, nofun⟩
    · change q.written ++ _ = _
      rw [show q.written = (cfg i).bytes .greeting from hw]
      rfl
    · -- what stands behind the greeting is in the buffer
      have hall : q.taken ++ (q.reader.pollNext reads).taken ++ v =
          ZmqGreeting.default.encode ++ (q.reader.pollNext reads).reader.buffer ++ v := by
        rw [hv', List.append_assoc, hb]
        rfl
      exact List.append_cancel_right hall
    · intro more
      rw [hc]

theorem Side.pollReady (hq : Side cfg i q) (hp : q.phase = .awaiting .ready)
    (reads : List PollRead)
    (ht : q.taken ++ (q.reader.pollNext reads).taken <+: (cfg (!i)).total .ready)
    (hend : endOfStream (q.reader.pollNext reads).result = true → ¬ Compatible cfg) :
    Side cfg i { q with
      phase := match (q.reader.pollNext reads).result with
        | .pending => .awaiting .ready
        | .ready item => (cfg i).onItem item .ready
      reader := (q.reader.pollNext reads).reader
      taken := q.taken ++ (q.reader.pollNext reads).taken } := by
  have hw := hq.written
  have hd := hq.decoded
  rw [hp] at hw hd
  have hv := valid_decode hq.valid (pollNext_decodesTo hq.valid reads)
  obtain ⟨t, htaken, htr⟩ := hd
  obtain ⟨v, hv'⟩ := ht
  have hready : t ++ (q.reader.pollNext reads).taken ++ v = (cfg (!i)).bytes .ready := by
    rw [htaken, List.append_assoc, List.append_assoc] at hv'
    rw [List.append_assoc]
    exact List.append_cancel_left hv'
  have hdec := (cfg (!i)).decode_ready (cfg i).options []
  rw [List.append_nil, ← hready] at hdec
  rcases htr.poll hq.valid reads hdec with hres | ⟨item, hres, he⟩ | ⟨hres, -, -⟩
  · have htr' := htr.pending hq.valid hres
    rw [hres]
    refine ⟨hv, hw, ⟨t ++ (q.reader.pollNext reads).taken, ?_, htr'⟩, nofun⟩
    rw [htaken, List.append_assoc]
  · obtain ⟨e, hitem⟩ := onItem_endOfStream he .ready
    rw [hres]
    dsimp only
    rw [hitem]
    exact hq.done hv (.inr ⟨hend (hres ▸ he), e, rfl⟩)
  · rw [hres]
    exact hq.done hv (onReady_verdict i)

variable {st st' : State}

theorem Inv.update (h : Inv cfg st) {wire : Bool → Bytes} (hq : Side cfg i q)
    (hw : q.written = (st.party (!i)).taken ++ wire (!i))
    (ht : (st.party (!i)).written = q.taken ++ wire i) :
    Inv cfg ⟨Function.update st.party i q, wire⟩ := by
  constructor
  · intro k
    by_cases hk : k = i
    · subst hk
      simpa using hq
    · simpa [hk] using h.sides k
  · intro k
    by_cases hk : k = i
    · subst hk
      simpa using ht
    · obtain rfl : k = !i := by
        cases k <;> cases i <;> simp_all
      simpa using hw

theorem not_compatible_of_closed (h : Inv cfg st) (hc : (st.party i).closed = true) :
    ¬ Compatible cfg := by
  rw [Party.closed] at hc
  split at hc
  · rename_i e hp
    rcases (h.sides i).verdict _ hp with ⟨-, hres⟩ | ⟨hn, -⟩
    · cases hres
    · exact hn
  · cases hc

theorem inv_next {a : Action} (h : Inv cfg st) (hn : next cfg st a = some st') : Inv cfg st' := by
  cases a with
  | write i n =>
    simp only [next] at hn
    split at hn
    · rename_i stage unsent hp
      split at hn
      · cases hn
        refine h.update ((h.sides i).write hp n) ?_ ?_
        · have := h.wires (!i)
          simp only [Bool.not_not] at this
          simp [this]
        · simpa using h.wires i
      · cases hn
    · cases hn
  | fail i e =>
    simp only [next] at hn
    split at hn
    · split at hn
      · rename_i hc
        cases hn
        refine h.update ((h.sides i).done (h.sides i).valid
          (.inr ⟨not_compatible_of_closed h hc, _, rfl⟩)) ?_ (h.wires i)
        simpa using h.wires (!i)
      · cases hn
    · cases hn
  | poll i reads =>
    simp only [next] at hn
    split at hn
    · rename_i stage hp
      split at hn
      · rename_i hg
        cases hn
        obtain ⟨⟨w, hw⟩, hend⟩ := hg
        have hwires := h.wires i
        have hpre : (st.party i).taken ++ ((st.party i).reader.pollNext reads).taken <+:
            (cfg (!i)).total .ready := by
          refine List.IsPrefix.trans ?_ (h.sides (!i)).written.isPrefix
          rw [hwires, ← hw, ← List.append_assoc]
          exact List.prefix_append _ _
        have hend' := fun he => not_compatible_of_closed h (hend he)
        refine h.update ?_ ?_ ?_
        · cases stage with
          | greeting => exact (h.sides i).pollGreeting hp reads hpre hend'
          | ready => exact (h.sides i).pollReady hp reads hpre hend'
        · simpa using h.wires (!i)
        · simp [hwires, ← hw]
      · cases hn
    · cases hn

end Steps

theorem reachable_inv {st : State} (h : (system cfg).Reachable st) : Inv cfg st :=
  h.invariant inv_init fun _ _ _ hi hn => inv_next hi hn

/-- Two sockets that have run the handshake to the end agree: both let the other in, each
under the identity the other has configured or a fresh one, if their types go together, and
otherwise both have an error. -/
theorem handshake_agreement {st : State} (h : (system cfg).Reachable st)
    {res : Bool → Res ZmqError PeerIdentity} (hd : ∀ i, (st.party i).phase = .done (res i)) :
    ((∀ i, ∃ id, res i = .ok id) ∨ ∀ i, ∃ e, res i = .error (.error e)) ∧
      ((∀ i, ∃ id, res i = .ok id) ↔
        (cfg false).socketType.compatible (cfg true).socketType = .ok true) ∧
      ∀ i id, res i = .ok id → match (cfg (!i)).options.peerId with
        | some identity => id = identity
        | none => id = (cfg i).fresh ∧ id.bytes ≠ [] := by
  have hv : ∀ i, Verdict cfg i (res i) := fun i => ((reachable_inv h).sides i).verdict _ (hd i)
  by_cases hc : Compatible cfg
  · have hok : ∀ i, res i = .ok (learned cfg i) := by
      intro i
      rcases hv i with ⟨-, hres⟩ | ⟨hn, -⟩
      · exact hres
      · exact absurd hc hn
    refine ⟨.inl fun i => ⟨_, hok i⟩, iff_of_true (fun i => ⟨_, hok i⟩) hc, ?_⟩
    intro i id hres
    cases (hok i).symm.trans hres
    rw [learned]
    cases (cfg (!i)).options.peerId with
    | none => exact ⟨rfl, (cfg i).fresh.nonempty⟩
    | some identity => rfl
  · have herr : ∀ i, ∃ e, res i = .error (.error e) := by
      intro i
      rcases hv i with ⟨hc', -⟩ | ⟨-, herr⟩
      · exact absurd hc' hc
      · exact herr
    have hno : ∀ i id, res i ≠ .ok id := by
      intro i id hres
      obtain ⟨e, he⟩ := herr i
      cases hres.symm.trans he
    refine ⟨.inr herr, iff_of_false ?_ hc, fun i id hres => absurd hres (hno i id)⟩
    intro hall
    obtain ⟨id, hid⟩ := hall false
    exact hno false id hid

omit [Target] in
theorem handshake_agreement_push_pull :
    letI := Target.x64
    let push : Config := ⟨.push, .default, .ofByte 7, [("Socket-Type", SocketType.push.asBytes)],
      rfl, rfl⟩
    let pull : Config := ⟨.pull, { SocketOptions.default with peerId := some (.ofByte 9) },
      .ofByte 8, [("Identity", [9]), ("Socket-Type", SocketType.pull.asBytes)], rfl,
      entries_readyProperties _ _⟩
    let cfg : Bool → Config := fun i => if i then pull else push
    ∃ st, (system cfg).Reachable st ∧
      (∀ i, (st.party i).phase = .done (.ok (if i then .ofByte 8 else .ofByte 9))) ∧
      (cfg false).socketType.compatible (cfg true).socketType = .ok true := by
  let _ := Target.x64
  intro push pull cfg
  let greeting := ZmqGreeting.default.encode
  let acts : List Action := [.write false 10, .write true 64,
    .poll true [Recv.ready (greeting.take 10)], .write false 54, .poll false [Recv.ready greeting],
    .write false 28, .poll true [Recv.ready (greeting.drop 10 ++ push.bytes .ready)],
    .write true 42, .poll true [], .poll false [Recv.ready (pull.bytes .ready)]]
  have hrun : ((system cfg).run (system cfg).init acts).any fun st =>
      (st.party false).phase = .done (.ok (.ofByte 9)) ∧
      (st.party true).phase = .done (.ok (.ofByte 8)) := by
    decide +kernel
  obtain ⟨st, hst, hphase⟩ := (Option.any_eq_true _ _).mp hrun
  have hreach : (system cfg).Reachable st := ⟨acts, hst⟩
  have hd : ∀ i, (st.party i).phase = .done (.ok (if i then .ofByte 8 else .ofByte 9)) := by
    obtain ⟨hf, ht⟩ := of_decide_eq_true hphase
    intro i
    cases i with
    | false => exact hf
    | true => exact ht
  exact ⟨st, hreach, hd, (handshake_agreement hreach hd).2.1.mp fun i => ⟨_, rfl⟩⟩

end ZmqRs.Handshake.Agreement
