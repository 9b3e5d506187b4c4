import ZmqRs.Basic

namespace ZmqRs.Codec

inductive ZmqMechanism
  | null
  | plain
  | curve
  deriving DecidableEq

namespace ZmqMechanism

def asBytes : ZmqMechanism → Bytes
  | .null => [0x4e, 0x55, 0x4c, 0x4c]
  | .plain => [0x50, 0x4c, 0x41, 0x49, 0x4e]
  | .curve => [0x43, 0x55, 0x52, 0x56, 0x45]

def tryFrom (value : Bytes) : Except CodecError ZmqMechanism :=
  let mech := value.takeWhile (· ≠ 0)
  if mech = asBytes .null then .ok .null
  else if mech = asBytes .plain then .ok .plain
  else if mech = asBytes .curve then .ok .curve
  else .error (.mechanism "Failed to parse ZmqMechanism")

end ZmqMechanism

structure ZmqGreeting where
  version : UInt8 × UInt8
  mechanism : ZmqMechanism
  asServer : Bool
  deriving DecidableEq

namespace ZmqGreeting

def default : ZmqGreeting := ⟨(3, 0), .null, false⟩

def tryFrom (value : Bytes) : Except CodecError ZmqGreeting :=
  -- The length test comes first, so every index below is in range.
  if value.length ≠ 64 ∨ ¬ (value.getD 0 0 = 0xff ∧ value.getD 9 0 = 0x7f) then
    .error (.greeting "Failed to parse greeting")
  else
    match ZmqMechanism.tryFrom ((value.drop 12).take 20) with
    | .error e => .error e
    | .ok mechanism =>
      .ok ⟨(value.getD 10 0, value.getD 11 0), mechanism, value.getD 32 0 = 0x01⟩

theorem tryFrom_error {value : Bytes} {e : CodecError} (h : tryFrom value = .error e) :
    (Fault.error e).Reported := by
  simp only [tryFrom, ZmqMechanism.tryFrom] at h
  grind [Fault.Reported]

def encode (greet : ZmqGreeting) : Bytes :=
  let mech := greet.mechanism.asBytes
  [0xff] ++ List.replicate 8 0 ++ [0x7f, greet.version.1, greet.version.2] ++
    mech ++ List.replicate (20 - mech.length) 0 ++
    [if greet.asServer then 1 else 0] ++ List.replicate 31 0

@[simp] theorem length_encode (g : ZmqGreeting) : g.encode.length = 64 := by
  rcases g with ⟨v, m, s⟩
  cases m <;> rfl

theorem tryFrom_eq_ok {value : Bytes} {g : ZmqGreeting} :
    tryFrom value = .ok g ↔ value.length = 64 ∧ value.getD 0 0 = 0xff ∧ value.getD 9 0 = 0x7f ∧
      ZmqMechanism.tryFrom ((value.drop 12).take 20) = .ok g.mechanism ∧
      g.version = (value.getD 10 0, value.getD 11 0) ∧
      g.asServer = decide (value.getD 32 0 = 0x01) := by
  rcases g with ⟨version, mechanism, asServer⟩
  simp only [tryFrom]
  split
  · rename_i h
    simp only [reduceCtorEq, false_iff]
    rintro ⟨hl, h0, h9, -⟩
    rcases h with h | h
    · exact h hl
    · exact h ⟨h0, h9⟩
  · rename_i h
    rw [not_or, not_not, not_not] at h
    obtain ⟨hl, h0, h9⟩ := h
    cases hm : ZmqMechanism.tryFrom ((value.drop 12).take 20) with
    | error e => simp
    | ok m =>
      simp only [Except.ok.injEq, mk.injEq, hl, h0, h9, true_and]
      constructor
      · rintro ⟨rfl, rfl, rfl⟩
        exact ⟨rfl, rfl, rfl⟩
      · rintro ⟨rfl, rfl, rfl⟩
        exact ⟨rfl, rfl, rfl⟩

@[simp] theorem tryFrom_encode (g : ZmqGreeting) : tryFrom g.encode = .ok g := by
  rcases g with ⟨⟨a, b⟩, m, s⟩
  cases m <;> cases s <;> rfl

end ZmqGreeting

end ZmqRs.Codec
