import ZmqRs.SubBackend.Relay

/-! Connections that fail.  `fanout_message` and `broadcast_control_message` go over their peers
in one loop and take out those whose connection is broken.  For each peer this comes to the same
as a send on its own connection. -/

namespace ZmqRs

open Codec (Message)

def Wire.attempt (w : Wire) (m : Message) : Wire :=
  match w.failure with
  | some _ => w
  | none => w.push m

def Wire.served (w : Wire) (m : Message) : Option Wire :=
  if w.failure.any CodecError.isBrokenPipe then none else some (w.attempt m)

def Wire.fail (w : Wire) (e : IoError) : Wire := { w with failure := w.failure.or (some (.io e)) }

namespace Failing

@[simp] theorem failure_attempt (w : Wire) (m : Message) : (w.attempt m).failure = w.failure := by
  rw [Wire.attempt]
  split
  · rfl
  · rfl

theorem failure_fail {w : Wire} {e : IoError} {e' : CodecError}
    (h : (w.fail e).failure = some e') : w.failure = some e' ∨ ∃ error, e' = .io error := by
  rw [Wire.fail] at h
  cases hf : w.failure with
  | some e'' => exact .inl (by simpa [hf] using h)
  | none => exact .inr ⟨e, by simpa [hf, eq_comm] using h⟩

section Loops

open SubSocketBackend

def failureOf (wires : List Wire) (c : Nat) : Option CodecError := wires[c]?.bind Wire.failure

def deadOf (wires : List Wire) (targets : List PeerEntry) : List PeerIdentity :=
  (targets.filter fun target =>
    (failureOf wires target.2).any CodecError.isBrokenPipe).map Sigma.fst

def attemptAll (m : Message) (cs : List Nat) (wires : List Wire) : List Wire :=
  cs.foldl (fun wires c => wires.modify c (·.attempt m)) wires

theorem failureOf_modify (wires : List Wire) (c : Nat) (m : Message) :
    failureOf (wires.modify c (·.attempt m)) = failureOf wires := by
  funext c'
  rw [failureOf, failureOf, List.getElem?_modify]
  split
  · cases wires[c']? with
    | none => rfl
    | some w => exact failure_attempt w m
  · cases wires[c']? <;> rfl

theorem sendOnWire_eq (wires : List Wire) (c : Nat) (m : Message) :
    sendOnWire wires c m =
      match failureOf wires c with
      | none => .ok (wires.modify c (·.attempt m))
      | some e => .error e := by
  rw [sendOnWire, failureOf]
  cases hc : wires[c]? with
  | none =>
    rw [List.modify_eq_self (List.getElem?_eq_none_iff.mp hc)]
    rfl
  | some w =>
    cases hf : w.failure with
    | none =>
      obtain ⟨hl, rfl⟩ := List.getElem?_eq_some_iff.mp hc
      rw [List.modify_eq_set_get _ hl]
      simp [Wire.attempt, Wire.send, hf, Except.map]
    | some e => simp [Wire.send, hf, Except.map]

theorem modify_attempt_of_failure {wires : List Wire} {c : Nat} {e : CodecError}
    (h : failureOf wires c = some e) (m : Message) : wires.modify c (·.attempt m) = wires := by
  obtain ⟨w, hc, hf⟩ := Option.bind_eq_some_iff.mp h
  refine List.ext_getElem? fun i => ?_
  rw [List.getElem?_modify]
  split
  · rename_i hi
    rw [← hi, hc]
    simp [Wire.attempt, hf]
  · cases wires[i]? <;> rfl

theorem broadcastLoop_eq (m : ZmqMessage) (targets : List PeerEntry) (wires : List Wire)
    (deadPeers : List PeerIdentity) (firstError : Option CodecError) :
    broadcastLoop m targets wires deadPeers firstError =
      (attemptAll (.message m) (targets.map Sigma.snd) wires, deadPeers ++ deadOf wires targets,
        firstError.or (targets.findSome? fun target => failureOf wires target.2)) := by
  induction targets generalizing wires deadPeers firstError with
  | nil => simp [broadcastLoop, attemptAll, deadOf]
  | cons target targets ih =>
    have hdead : deadOf wires targets =
        deadOf (wires.modify target.2 (·.attempt (.message m))) targets := by
      simp only [deadOf, failureOf_modify]
    rw [broadcastLoop, sendOnWire_eq, List.map_cons, attemptAll, List.foldl_cons, ← attemptAll,
      List.findSome?_cons]
    cases hf : failureOf wires target.2 with
    | none =>
      simp only []
      rw [ih, ← hdead, failureOf_modify]
      simp [deadOf, hf]
    | some e =>
      simp only []
      rw [ih, modify_attempt_of_failure hf]
      cases he : e.isBrokenPipe <;> simp [deadOf, hf, he]

theorem fanoutLoop_eq (m : ZmqMessage) (targets : List PeerEntry) {wires : List Wire}
    (h : ∀ c e, failureOf wires c = some e → ∃ error, e = .io error)
    (deadPeers : List PeerIdentity) :
    fanoutLoop m targets wires deadPeers =
      (attemptAll (.message m) (targets.map Sigma.snd) wires,
        .ok (deadPeers ++ deadOf wires targets)) := by
  induction targets generalizing wires deadPeers with
  | nil => simp [fanoutLoop, attemptAll, deadOf]
  | cons target targets ih =>
    have hdead : deadOf wires targets =
        deadOf (wires.modify target.2 (·.attempt (.message m))) targets := by
      simp only [deadOf, failureOf_modify]
    rw [fanoutLoop, sendOnWire_eq, List.map_cons, attemptAll, List.foldl_cons, ← attemptAll]
    cases hf : failureOf wires target.2 with
    | none =>
      simp only []
      rw [ih (by rwa [failureOf_modify]), ← hdead]
      simp [deadOf, hf]
    | some e =>
      obtain ⟨error, rfl⟩ := h _ _ hf
      simp only []
      rw [ih h, modify_attempt_of_failure hf]
      by_cases he : error.kind = .brokenPipe <;>
        simp [deadOf, hf, he, CodecError.isBrokenPipe]

theorem getElem?_attemptAll (m : Message) {cs : List Nat} (hn : cs.Nodup) (wires : List Wire)
    (c : Nat) :
    (attemptAll m cs wires)[c]? =
      if c ∈ cs then wires[c]?.map (·.attempt m) else wires[c]? := by
  induction cs generalizing wires with
  | nil => rfl
  | cons c' cs ih =>
    rw [List.nodup_cons] at hn
    rw [attemptAll, List.foldl_cons, ← attemptAll, ih hn.2, List.getElem?_modify]
    by_cases hc : c' = c
    · subst hc
      simp [hn.1]
    · have hc' : c ≠ c' := Ne.symm hc
      simp [hc, hc']

end Loops

section Owned

structure Owned (conn : PeerIdentity → Option Nat) (wires : List Wire) : Prop where
  bound : ∀ p c, conn p = some c → c < wires.length
  owner : ∀ p p' c, conn p = some c → conn p' = some c → p = p'
  io : ∀ c e, failureOf wires c = some e → ∃ error, e = .io error

def wireOf (conn : PeerIdentity → Option Nat) (wires : List Wire) (p : PeerIdentity) :
    Option Wire :=
  (conn p).bind (wires[·]?)

namespace Owned

variable {conn : PeerIdentity → Option Nat} {wires : List Wire}

theorem empty : Owned (fun _ => none) [] where
  bound _ _ h := by cases h
  owner _ _ _ h := by cases h
  io _ _ h := by cases h

theorem connect (h : Owned conn wires) (p : PeerIdentity) {w : Wire} (hw : w.failure = none) :
    Owned (Function.update conn p (some wires.length)) (wires ++ [w]) where
  bound := by
    intro q c hc
    rw [List.length_append, List.length_singleton]
    rw [Function.update_apply] at hc
    split at hc
    · cases hc
      exact Nat.lt_succ_self _
    · exact Nat.lt_succ_of_lt (h.bound q c hc)
  owner := by
    intro q q' c hq hq'
    rw [Function.update_apply] at hq hq'
    split at hq
    · split at hq'
      · rename_i hp hp'
        rw [hp, hp']
      · cases hq
        exact absurd (h.bound _ _ hq') (Nat.lt_irrefl _)
    · split at hq'
      · cases hq'
        exact absurd (h.bound _ _ hq) (Nat.lt_irrefl _)
      · exact h.owner q q' c hq hq'
  io := by
    intro c e he
    rw [failureOf, List.getElem?_append] at he
    split at he
    · exact h.io c e he
    · obtain ⟨w', hw', hf⟩ := Option.bind_eq_some_iff.mp he
      obtain rfl := List.mem_singleton.mp (List.mem_of_getElem? hw')
      rw [hw] at hf
      cases hf

theorem wireOf_connect (h : Owned conn wires) (p : PeerIdentity) (w : Wire) (q : PeerIdentity) :
    wireOf (Function.update conn p (some wires.length)) (wires ++ [w]) q =
      if q = p then some w else wireOf conn wires q := by
  rw [wireOf, Function.update_apply]
  split
  · simp
  · rw [wireOf]
    cases hc : conn q with
    | none => rfl
    | some c => exact List.getElem?_append_left (h.bound q c hc)

theorem narrow (h : Owned conn wires) {conn' : PeerIdentity → Option Nat}
    (hc : ∀ p c, conn' p = some c → conn p = some c) : Owned conn' wires where
  bound p c hp := h.bound p c (hc p c hp)
  owner p p' c hp hp' := h.owner p p' c (hc p c hp) (hc p' c hp')
  io := h.io

theorem modify (h : Owned conn wires) (c : Nat) {f : Wire → Wire}
    (hf : ∀ w e, (f w).failure = some e → w.failure = some e ∨ ∃ error, e = .io error) :
    Owned conn (wires.modify c f) where
  bound p c' hp := (h.bound p c' hp).trans_eq (List.length_modify ..).symm
  owner := h.owner
  io := by
    intro c' e he
    rw [failureOf, List.getElem?_modify] at he
    split at he
    · cases hw : wires[c']? with
      | none => simp [hw] at he
      | some w =>
        rcases hf w e (by simpa [hw] using he) with he | he
        · exact h.io c' e (by rw [failureOf, hw]; exact he)
        · exact he
    · exact h.io c' e (by simpa [failureOf] using he)

theorem attemptAll (h : Owned conn wires) (m : Message) (cs : List Nat) :
    Owned conn (attemptAll m cs wires) := by
  induction cs generalizing wires with
  | nil => exact h
  | cons c cs ih => exact ih (h.modify c fun w e he => .inl (failure_attempt w m ▸ he))

theorem wireOf_modify (h : Owned conn wires) {p : PeerIdentity} {c : Nat} (hc : conn p = some c)
    (f : Wire → Wire) (q : PeerIdentity) :
    wireOf conn (wires.modify c f) q =
      if q = p then (wireOf conn wires q).map f else wireOf conn wires q := by
  rw [wireOf, wireOf]
  split
  · rename_i hq
    rw [hq, hc, Option.bind_some, Option.bind_some, List.getElem?_modify_eq]
    rfl
  · rename_i hq
    cases hq' : conn q with
    | none => rfl
    | some c' =>
      have hne : c ≠ c' := by
        rintro rfl
        exact hq (h.owner q p c hq' hc)
      rw [Option.bind_some, Option.bind_some, List.getElem?_modify_ne _ _ hne]

theorem wireOf_served (h : Owned conn wires) {targets : List PeerEntry} (hn : targets.Nodup)
    (ht : ∀ target ∈ targets, conn target.1 = some target.2) (m : Message) (p : PeerIdentity)
    {conn' : PeerIdentity → Option Nat}
    (hconn : conn' p = if p ∈ deadOf wires targets then none else conn p) :
    wireOf conn' (Failing.attemptAll m (targets.map Sigma.snd) wires) p =
      if p ∈ targets.map Sigma.fst then (wireOf conn wires p).bind (·.served m)
      else wireOf conn wires p := by
  have hdead : p ∈ deadOf wires targets ↔ p ∈ targets.map Sigma.fst ∧
      ∃ c, conn p = some c ∧ (failureOf wires c).any CodecError.isBrokenPipe = true := by
    rw [deadOf, List.mem_map, List.mem_map]
    constructor
    · rintro ⟨target, hm, rfl⟩
      obtain ⟨hm, hf⟩ := List.mem_filter.mp hm
      exact ⟨⟨target, hm, rfl⟩, target.2, ht target hm, hf⟩
    · rintro ⟨⟨target, hm, rfl⟩, c, hc, hf⟩
      obtain rfl : target.2 = c := Option.some.inj ((ht target hm).symm.trans hc)
      exact ⟨target, List.mem_filter.mpr ⟨hm, hf⟩, rfl⟩
  have hcs : (targets.map Sigma.snd).Nodup := by
    refine List.Nodup.map_on ?_ hn
    intro target hm target' hm' hs
    have hkey := h.owner _ _ _ (ht target hm) (hs ▸ ht target' hm')
    exact Sigma.ext hkey (heq_of_eq hs)
  rw [wireOf, hconn, wireOf]
  cases hc : conn p with
  | none => simp
  | some c =>
    have hmem : c ∈ targets.map Sigma.snd ↔ p ∈ targets.map Sigma.fst := by
      rw [List.mem_map, List.mem_map]
      constructor
      · rintro ⟨target, hm, rfl⟩
        exact ⟨target, hm, h.owner _ _ _ (ht target hm) hc⟩
      · rintro ⟨target, hm, rfl⟩
        exact ⟨target, hm, Option.some.inj ((ht target hm).symm.trans hc)⟩
    simp only [hc, Option.some.injEq, exists_eq_left'] at hdead
    rw [Option.bind_some]
    by_cases hp : p ∈ targets.map Sigma.fst
    · obtain ⟨w, hw⟩ : ∃ w, wires[c]? = some w :=
        ⟨_, List.getElem?_eq_getElem (h.bound p c hc)⟩
      rw [if_pos hp, hw, Option.bind_some, Wire.served]
      rw [failureOf, hw, Option.bind_some] at hdead
      by_cases hf : w.failure.any CodecError.isBrokenPipe = true
      · rw [if_pos hf, if_pos (hdead.mpr ⟨hp, hf⟩), Option.bind_none]
      · rw [if_neg hf, if_neg fun hd => hf (hdead.mp hd).2, Option.bind_some,
          getElem?_attemptAll m hcs, if_pos (hmem.mpr hp), hw]
        rfl
    · rw [if_neg hp, if_neg fun hd => hp (hdead.mp hd).1, Option.bind_some,
        getElem?_attemptAll m hcs, if_neg fun hm => hp (hmem.mp hm)]

end Owned

end Owned

end Failing

end ZmqRs
