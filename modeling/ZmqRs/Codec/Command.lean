import ZmqRs.Basic
import Mathlib.Data.Finmap

namespace ZmqRs.Codec

inductive ZmqCommandName
  | ready
  deriving DecidableEq

def ZmqCommandName.asBytes : ZmqCommandName → Bytes
  | .ready => [0x52, 0x45, 0x41, 0x44, 0x59]

abbrev Properties := Finmap (fun _ : String => Bytes)

structure ZmqCommand where
  name : ZmqCommandName
  properties : Properties
  deriving DecidableEq

def utf8 (s : String) : Bytes := s.toByteArray.data.toList

def fromUtf8 (b : Bytes) : Option String := String.fromUTF8? ⟨b.toArray⟩

@[simp] theorem fromUtf8_utf8 (s : String) : fromUtf8 (utf8 s) = some s := by
  change String.fromUTF8? s.toByteArray = some s
  rw [String.fromUTF8?, dif_pos s.isValidUTF8]
  rfl

theorem utf8_of_fromUtf8 {b : Bytes} {s : String} (h : fromUtf8 b = some s) : utf8 s = b := by
  rw [fromUtf8, String.fromUTF8?] at h
  split at h
  · cases h
    rfl
  · cases h

namespace ZmqCommand

def readProperty (buf : Bytes) : Res CodecError ((String × Bytes) × Bytes) := do
  let (propLen, buf) ← Buf.getU8 buf
  if buf.length < propLen.toNat then
    throw (.error (.decode "Property name exceeds frame length"))
  let (name, buf) ← Buf.splitTo propLen.toNat buf
  match fromUtf8 name with
  | none => throw (.error (.decode "Invalid property identifier"))
  | some property =>
    if buf.length < 4 then
      throw (.error (.decode "Missing property value length"))
    let (propValLen, buf) ← Buf.getUint 4 buf
    if buf.length < propValLen then
      throw (.error (.decode "Property value exceeds frame length"))
    let (propValue, buf) ← Buf.splitTo propValLen buf
    return ((property, propValue), buf)

theorem readProperty_error {buf : Bytes} {e : Fault CodecError} (hne : buf ≠ [])
    (h : readProperty buf = .error e) : e.Reported := by
  cases buf with
  | nil => exact absurd rfl hne
  | cons n buf =>
    simp only [readProperty, Buf.getU8, Buf.splitTo, Buf.getUint, bind, Except.bind, pure,
      Except.pure, throw, throwThe, MonadExceptOf.throw] at h
    grind [Fault.Reported]

theorem readProperty_length {buf rest : Bytes} {p : String × Bytes}
    (h : readProperty buf = .ok (p, rest)) : rest.length < buf.length := by
  cases buf with
  | nil => simp [readProperty, Buf.getU8, bind, Except.bind] at h
  | cons n buf =>
    simp only [readProperty, Buf.getU8, Buf.splitTo, Buf.getUint, bind, Except.bind, pure,
      Except.pure, throw, throwThe, MonadExceptOf.throw] at h
    grind

def readProperties (buf : Bytes) (properties : Properties) : Res CodecError Properties :=
  if buf = [] then .ok properties
  else
    match _h : readProperty buf with
    | .error e => .error e
    | .ok (p, rest) => readProperties rest (properties.insert p.1 p.2)
termination_by buf.length
decreasing_by exact readProperty_length _h

theorem readProperties_error {buf : Bytes} {m : Properties} {e : Fault CodecError}
    (h : readProperties buf m = .error e) : e.Reported := by
  fun_induction readProperties buf m with
  | case1 => simp at h
  | case2 buf m hne e' he =>
    obtain rfl : e' = e := by simpa using h
    exact readProperty_error hne he
  | case3 buf m hne p rest hp ih => exact ih h

def tryFrom (buf : Bytes) : Res CodecError ZmqCommand := do
  if buf = [] then
    throw (.error (.decode "Missing command length"))
  let (commandLen, buf) ← Buf.getU8 buf
  if buf.length < commandLen.toNat then
    throw (.error (.decode "Command name exceeds frame length"))
  let (command, buf) ← Buf.splitTo commandLen.toNat buf
  if command = ZmqCommandName.asBytes .ready then
    return ⟨.ready, ← readProperties buf ∅⟩
  else
    throw (.error (.command "Unknown command received"))

theorem tryFrom_error {buf : Bytes} {e : Fault CodecError} (h : tryFrom buf = .error e) :
    e.Reported := by
  have hr : ∀ buf e, readProperties buf ∅ = .error e → e.Reported := fun _ _ => readProperties_error
  cases buf with
  | nil =>
    simp only [tryFrom, bind, Except.bind, throw, throwThe, MonadExceptOf.throw] at h
    grind [Fault.Reported]
  | cons n buf =>
    simp only [tryFrom, Buf.getU8, Buf.splitTo, bind, Except.bind, pure, Except.pure, throw,
      throwThe, MonadExceptOf.throw] at h
    grind [Fault.Reported]

-- `as u8` and `as u32` keep the low bytes, as `UInt8.ofNat` and `BigEndian.encode` do.
def encodeProperty (p : String × Bytes) : Bytes :=
  UInt8.ofNat (utf8 p.1).length :: utf8 p.1 ++ Lib.BigEndian.encode 4 p.2.length ++ p.2

def messageLen (name : ZmqCommandName) (entries : List (String × Bytes)) : Nat :=
  name.asBytes.length + 1 +
    (entries.map fun p => (utf8 p.1).length + 1 + (p.2.length + 4)).sum

def encodeBody (name : ZmqCommandName) (entries : List (String × Bytes)) : Bytes :=
  UInt8.ofNat name.asBytes.length :: name.asBytes ++ entries.flatMap encodeProperty

/-- `From<ZmqCommand> for BytesMut`; `entries` is what `properties.iter()` yields. -/
def encode (name : ZmqCommandName) (entries : List (String × Bytes)) : Bytes :=
  (if 255 < messageLen name entries then
      0x06 :: Lib.BigEndian.encode 8 (messageLen name entries)
    else [0x04, UInt8.ofNat (messageLen name entries)]) ++
    encodeBody name entries

/-- A hash map is iterated in no particular order, each entry once. -/
def Iterates (m : Properties) (entries : List (String × Bytes)) : Prop :=
  m.entries = (entries.map fun p => (⟨p.1, p.2⟩ : Sigma fun _ : String => Bytes) : Multiset _)

theorem length_encodeBody (name : ZmqCommandName) (entries : List (String × Bytes)) :
    (encodeBody name entries).length = messageLen name entries := by
  have h : (entries.flatMap encodeProperty).length =
      (entries.map fun p => (utf8 p.1).length + 1 + (p.2.length + 4)).sum := by
    rw [List.length_flatMap]
    congr 1
    apply List.map_congr_left
    intro p _
    simp [encodeProperty]
    omega
  simp [encodeBody, messageLen, h]
  omega

theorem readProperty_encode {p : String × Bytes} (hn : (utf8 p.1).length ≤ 255)
    (hv : p.2.length < 2 ^ 32) (rest : Bytes) :
    readProperty (encodeProperty p ++ rest) = .ok (p, rest) := by
  have hlen : (UInt8.ofNat (utf8 p.1).length).toNat = (utf8 p.1).length := by
    rw [UInt8.toNat_ofNat']
    omega
  have hu := Buf.getUint_encode (ε := CodecError) 4 (v := p.2.length) (by simpa using hv)
    (p.2 ++ rest)
  simp [readProperty, encodeProperty, hlen, List.append_assoc, bind, Except.bind, hu, pure,
    Except.pure]

theorem readProperties_encode {entries : List (String × Bytes)}
    (hn : ∀ p ∈ entries, (utf8 p.1).length ≤ 255) (hv : ∀ p ∈ entries, p.2.length < 2 ^ 32)
    (m : Properties) :
    readProperties (entries.flatMap encodeProperty) m =
      .ok (entries.foldl (fun m p => m.insert p.1 p.2) m) := by
  induction entries generalizing m with
  | nil => rw [readProperties]; simp
  | cons p entries ih =>
    have hp := readProperty_encode (hn p (by simp)) (hv p (by simp))
      (entries.flatMap encodeProperty)
    have hne : encodeProperty p ++ entries.flatMap encodeProperty ≠ [] := by
      simp [encodeProperty]
    rw [List.flatMap_cons, readProperties, if_neg hne]
    split
    · simp_all
    · rename_i q rest hq
      obtain ⟨rfl, rfl⟩ : p = q ∧ entries.flatMap encodeProperty = rest := by
        simpa [hp] using hq
      exact ih (fun q h => hn q (by simp [h])) (fun q h => hv q (by simp [h])) _

theorem entries_foldl_insert (entries : List (String × Bytes)) (m : Properties)
    (hd : (entries.map Prod.fst).Nodup) (hm : ∀ p ∈ entries, p.1 ∉ m) :
    (entries.foldl (fun m p => m.insert p.1 p.2) m).entries =
      m.entries + (entries.map fun p => (⟨p.1, p.2⟩ : Sigma fun _ : String => Bytes)) := by
  induction entries generalizing m with
  | nil => simp
  | cons p entries ih =>
    obtain ⟨hp, hd⟩ := List.nodup_cons.mp hd
    rw [List.foldl_cons, ih _ hd, Finmap.entries_insert_of_notMem (hm p (by simp))]
    · simp [← Multiset.cons_coe, Multiset.cons_add]
    · intro q hq hmem
      cases Finmap.mem_insert.mp hmem with
      | inl h =>
        exact hp (by rw [← h]; exact List.mem_map_of_mem hq)
      | inr h =>
        exact hm q (by simp [hq]) h

theorem Iterates.foldl_insert {m : Properties} {entries : List (String × Bytes)}
    (h : Iterates m entries) :
    entries.foldl (fun m p => m.insert p.1 p.2) ∅ = m := by
  have hd : (entries.map Prod.fst).Nodup := by
    have := m.nodupKeys
    rw [h, Multiset.coe_nodupKeys, List.NodupKeys, List.keys, List.map_map] at this
    exact this
  apply Finmap.ext
  rw [entries_foldl_insert entries ∅ hd (fun p _ => Finmap.notMem_empty), h]
  exact Multiset.zero_add _

def Fits (p : String × Bytes) : Prop := (utf8 p.1).length ≤ 255 ∧ p.2.length < 2 ^ 32

theorem tryFrom_encodeBody_ready {entries : List (String × Bytes)} (hf : ∀ p ∈ entries, Fits p) :
    tryFrom (encodeBody .ready entries) =
      .ok ⟨.ready, entries.foldl (fun m p => m.insert p.1 p.2) ∅⟩ := by
  have hs : (Buf.splitTo 5 (ZmqCommandName.asBytes .ready ++ entries.flatMap encodeProperty) :
      Res CodecError _) = .ok (ZmqCommandName.asBytes .ready, entries.flatMap encodeProperty) :=
    Buf.splitTo_append _ _
  have hlen : (UInt8.ofNat (ZmqCommandName.asBytes .ready).length).toNat = 5 := rfl
  have hl : ¬ (ZmqCommandName.asBytes .ready ++ entries.flatMap encodeProperty).length < 5 := by
    simp [ZmqCommandName.asBytes]
  have hr := readProperties_encode (fun p hp => (hf p hp).1) (fun p hp => (hf p hp).2) ∅
  simp only [encodeBody, tryFrom, List.cons_append, Buf.getU8_cons, hlen, hs, hl, bind,
    Except.bind, pure, Except.pure, hr]
  rfl

theorem tryFrom_encodeBody {c : ZmqCommand} {entries : List (String × Bytes)}
    (hi : Iterates c.properties entries)
    (hn : ∀ p ∈ entries, (utf8 p.1).length ≤ 255) (hv : ∀ p ∈ entries, p.2.length < 2 ^ 32) :
    tryFrom (encodeBody c.name entries) = .ok c := by
  rcases c with ⟨name, m⟩
  cases name
  rw [tryFrom_encodeBody_ready fun p hp => ⟨hn p hp, hv p hp⟩, hi.foldl_insert]

theorem readProperty_ok {buf rest : Bytes} {p : String × Bytes}
    (h : readProperty buf = .ok (p, rest)) : Fits p ∧ buf = encodeProperty p ++ rest := by
  cases buf with
  | nil => simp [readProperty, Buf.getU8, bind, Except.bind] at h
  | cons n buf =>
    simp only [readProperty, Buf.getU8, Buf.splitTo, Buf.getUint, bind, Except.bind, pure,
      Except.pure, throw, throwThe, MonadExceptOf.throw] at h
    split at h
    · cases h
    rename_i hn
    simp only at h
    split at h
    · cases h
    rename_i name hname
    split at h
    · cases h
    rename_i h4
    simp only at h
    split at h
    · cases h
    rename_i hv
    simp only at h
    cases h
    have hlt : n.toNat < 256 := n.toNat_lt
    have hname' := utf8_of_fromUtf8 hname
    have hlen : (utf8 name).length = n.toNat := by
      rw [hname', List.length_take]
      omega
    have hvlt := Lib.BigEndian.decode_lt ((buf.drop n.toNat).take 4)
    have h4' : ((buf.drop n.toNat).take 4).length = 4 := by
      rw [List.length_take]
      omega
    have hval := Lib.BigEndian.encode_decode ((buf.drop n.toNat).take 4)
    rw [h4'] at hvlt hval
    refine ⟨⟨?_, ?_⟩, ?_⟩
    · change (utf8 name).length ≤ 255
      omega
    · rw [List.length_take]
      exact Nat.lt_of_le_of_lt (Nat.min_le_left _ _) hvlt
    · have hvlen : (((buf.drop n.toNat).drop 4).take
          (Lib.BigEndian.decode ((buf.drop n.toNat).take 4))).length =
          Lib.BigEndian.decode ((buf.drop n.toNat).take 4) := by
        rw [List.length_take]
        omega
      rw [encodeProperty, hlen, hvlen, hval, hname', UInt8.ofNat_toNat]
      simp only [List.cons_append, List.append_assoc, List.take_append_drop]

theorem readProperties_ok {buf : Bytes} {m m' : Properties} (h : readProperties buf m = .ok m') :
    ∃ entries : List (String × Bytes), (∀ p ∈ entries, Fits p) ∧
      buf = entries.flatMap encodeProperty ∧
      m' = entries.foldl (fun m p => m.insert p.1 p.2) m := by
  fun_induction readProperties buf m with
  | case1 =>
    cases h
    exact ⟨[], by simp, rfl, rfl⟩
  | case2 => cases h
  | case3 buf m hne p rest hp ih =>
    obtain ⟨entries, hf, rfl, rfl⟩ := ih h
    obtain ⟨hpf, hbuf⟩ := readProperty_ok hp
    refine ⟨p :: entries, ?_, by simpa using hbuf, rfl⟩
    intro q hq
    rcases List.mem_cons.mp hq with rfl | hq
    · exact hpf
    · exact hf q hq

theorem tryFrom_eq_ok {buf : Bytes} {c : ZmqCommand} :
    tryFrom buf = .ok c ↔ ∃ entries : List (String × Bytes), (∀ p ∈ entries, Fits p) ∧
      buf = encodeBody .ready entries ∧
      c = ⟨.ready, entries.foldl (fun m p => m.insert p.1 p.2) ∅⟩ := by
  constructor
  · intro h
    cases buf with
    | nil => simp [tryFrom, bind, Except.bind, throw, throwThe, MonadExceptOf.throw] at h
    | cons n buf =>
      simp only [tryFrom, Buf.getU8, Buf.splitTo, bind, Except.bind, pure, Except.pure, throw,
        throwThe, MonadExceptOf.throw, reduceCtorEq, if_false] at h
      split at h
      · cases h
      rename_i hn
      simp only at h
      split at h
      · rename_i hname
        split at h
        · cases h
        · rename_i m hm
          cases h
          obtain ⟨entries, hf, hbuf, rfl⟩ := readProperties_ok hm
          refine ⟨entries, hf, ?_, rfl⟩
          have hlen : n.toNat = (ZmqCommandName.asBytes .ready).length := by
            rw [← hname, List.length_take]
            omega
          rw [encodeBody, ← hbuf, ← hlen, ← hname, UInt8.ofNat_toNat, List.cons_append,
            List.take_append_drop]
      · cases h
  · rintro ⟨entries, hf, rfl, rfl⟩
    exact tryFrom_encodeBody_ready hf

inductive PropertyBytes : String × Bytes → Bytes → Prop
  | mk {name : String} {n : UInt8} {nameBytes lenBytes value : Bytes} :
    nameBytes.length = n.toNat → fromUtf8 nameBytes = some name →
    lenBytes.length = 4 → value.length = Lib.BigEndian.decode lenBytes →
    PropertyBytes (name, value) (n :: (nameBytes ++ lenBytes ++ value))

inductive PropertiesBytes : List (String × Bytes) → Bytes → Prop
  | nil : PropertiesBytes [] []
  | cons {p : String × Bytes} {ps : List (String × Bytes)} {b rest : Bytes} :
    PropertyBytes p b → PropertiesBytes ps rest → PropertiesBytes (p :: ps) (b ++ rest)

def CommandBytes (ps : List (String × Bytes)) (b : Bytes) : Prop :=
  ∃ body, b = 5 :: (utf8 "READY" ++ body) ∧ PropertiesBytes ps body

def lastValue (name : String) (ps : List (String × Bytes)) : Option Bytes :=
  (ps.reverse.find? fun p => p.1 = name).map Prod.snd

theorem propertyBytes_iff {p : String × Bytes} {b : Bytes} :
    PropertyBytes p b ↔ Fits p ∧ b = encodeProperty p := by
  constructor
  · intro h
    cases h with
    | @mk name n nameBytes lenBytes value hn hname hl hv =>
      have hname' := utf8_of_fromUtf8 hname
      have hlt := n.toNat_lt
      have hvlt := Lib.BigEndian.decode_lt lenBytes
      have hval := Lib.BigEndian.encode_decode lenBytes
      rw [hl] at hvlt hval
      refine ⟨⟨?_, ?_⟩, ?_⟩
      · rw [hname']
        omega
      · rw [hv]
        exact hvlt
      · rw [encodeProperty, hname', hn, hv, hval, UInt8.ofNat_toNat]
        simp
  · rintro ⟨⟨hn, hv⟩, rfl⟩
    have hlen : (utf8 p.1).length = (UInt8.ofNat (utf8 p.1).length).toNat := by
      rw [UInt8.toNat_ofNat']
      omega
    exact .mk hlen (fromUtf8_utf8 p.1) (Lib.BigEndian.length_encode 4 _)
      (Lib.BigEndian.decode_encode 4 hv).symm

theorem propertiesBytes_iff {ps : List (String × Bytes)} {b : Bytes} :
    PropertiesBytes ps b ↔ (∀ p ∈ ps, Fits p) ∧ b = ps.flatMap encodeProperty := by
  constructor
  · intro h
    induction h with
    | nil => simp
    | cons hp _ ih =>
      obtain ⟨hf, rfl⟩ := propertyBytes_iff.mp hp
      obtain ⟨hfs, rfl⟩ := ih
      refine ⟨?_, rfl⟩
      intro q hq
      rcases List.mem_cons.mp hq with rfl | hq
      · exact hf
      · exact hfs q hq
  · rintro ⟨hf, rfl⟩
    induction ps with
    | nil => exact .nil
    | cons p ps ih =>
      have hp : PropertyBytes p (encodeProperty p) := propertyBytes_iff.mpr ⟨hf p (by simp), rfl⟩
      exact .cons hp (ih fun q hq => hf q (by simp [hq]))

theorem commandBytes_iff {ps : List (String × Bytes)} {b : Bytes} :
    CommandBytes ps b ↔ (∀ p ∈ ps, Fits p) ∧ b = encodeBody .ready ps := by
  constructor
  · rintro ⟨body, rfl, hps⟩
    obtain ⟨hf, rfl⟩ := propertiesBytes_iff.mp hps
    exact ⟨hf, rfl⟩
  · rintro ⟨hf, rfl⟩
    exact ⟨_, rfl, propertiesBytes_iff.mpr ⟨hf, rfl⟩⟩

theorem lookup_foldl_insert (name : String) (ps : List (String × Bytes)) (m : Properties) :
    (ps.foldl (fun m p => m.insert p.1 p.2) m).lookup name =
      (lastValue name ps).or (m.lookup name) := by
  induction ps generalizing m with
  | nil => rfl
  | cons p ps ih =>
    rw [List.foldl_cons, ih, lastValue, lastValue, List.reverse_cons, List.find?_append]
    by_cases hp : p.1 = name
    · subst hp
      cases h : ps.reverse.find? (fun q => q.1 = p.1) <;> simp
    · have hne : name ≠ p.1 := fun h => hp h.symm
      cases h : ps.reverse.find? (fun q => q.1 = name) <;>
        simp [hp, Finmap.lookup_insert_of_ne _ hne]

/-- The parser accepts the grammar and nothing else.  On every other string it returns an
error, so no read of it can leave the buffer. -/
theorem tryFrom_accepts_grammar (b : Bytes) :
    ((∃ c, tryFrom b = .ok c) ↔ ∃ ps, CommandBytes ps b) ∧
      (∀ ps, CommandBytes ps b → ∃ c, tryFrom b = .ok c ∧ c.name = .ready ∧
        ∀ name, c.properties.lookup name = lastValue name ps) ∧
      ((¬ ∃ ps, CommandBytes ps b) → ∃ e, tryFrom b = .error (.error e)) := by
  have hbind : ∀ ps, CommandBytes ps b → ∃ c, tryFrom b = .ok c ∧ c.name = .ready ∧
      ∀ name, c.properties.lookup name = lastValue name ps := by
    intro ps h
    obtain ⟨hf, hb⟩ := commandBytes_iff.mp h
    refine ⟨_, tryFrom_eq_ok.mpr ⟨ps, hf, hb, rfl⟩, rfl, ?_⟩
    intro name
    simpa using lookup_foldl_insert name ps ∅
  have hiff : (∃ c, tryFrom b = .ok c) ↔ ∃ ps, CommandBytes ps b := by
    constructor
    · rintro ⟨c, hc⟩
      obtain ⟨ps, hf, hb, -⟩ := tryFrom_eq_ok.mp hc
      exact ⟨ps, commandBytes_iff.mpr ⟨hf, hb⟩⟩
    · rintro ⟨ps, h⟩
      obtain ⟨c, hc, -⟩ := hbind ps h
      exact ⟨c, hc⟩
  refine ⟨hiff, hbind, ?_⟩
  intro hno
  cases h : tryFrom b with
  | ok c => exact absurd (hiff.mp ⟨c, h⟩) hno
  | error e =>
    have hrep := tryFrom_error h
    cases e with
    | error e => exact ⟨e, rfl⟩
    | panic => exact hrep.elim

end ZmqCommand

end ZmqRs.Codec
