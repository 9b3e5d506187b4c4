import Mathlib.Tactic.Ring
import Mathlib.Data.List.Induction

/-! Natural numbers as big-endian byte strings of a fixed width. -/

namespace ZmqRs.Lib.BigEndian

def encode : Nat → Nat → List UInt8
  | 0, _ => []
  | n + 1, v => encode n (v / 256) ++ [UInt8.ofNat v]

def decode (b : List UInt8) : Nat := b.foldl (fun v d => v * 256 + d.toNat) 0

@[simp] theorem length_encode (n v : Nat) : (encode n v).length = n := by
  induction n generalizing v with
  | zero => rfl
  | succ n ih => simp [encode, ih]

@[simp] theorem decode_nil : decode [] = 0 := rfl

theorem decode_concat (b : List UInt8) (d : UInt8) :
    decode (b ++ [d]) = decode b * 256 + d.toNat := by
  simp [decode]

theorem decode_encode (n : Nat) {v : Nat} (h : v < 256 ^ n) : decode (encode n v) = v := by
  induction n generalizing v with
  | zero => simp only [Nat.pow_zero] at h; simp [encode]; omega
  | succ n ih =>
    have hv : v / 256 < 256 ^ n := by
      rw [Nat.div_lt_iff_lt_mul (by decide)]
      rwa [Nat.pow_succ] at h
    rw [encode, decode_concat, ih hv, UInt8.toNat_ofNat']
    omega

theorem decode_lt (b : List UInt8) : decode b < 256 ^ b.length := by
  induction b using List.reverseRecOn with
  | nil => simp
  | append_singleton b d ih =>
    rw [decode_concat, List.length_append, List.length_singleton, Nat.pow_succ]
    have hd := d.toNat_lt
    omega

theorem encode_decode (b : List UInt8) : encode b.length (decode b) = b := by
  induction b using List.reverseRecOn with
  | nil => rfl
  | append_singleton b d ih =>
    have hd := d.toNat_lt
    have hdiv : (decode b * 256 + d.toNat) / 256 = decode b := by omega
    have hmod : UInt8.ofNat (decode b * 256 + d.toNat) = d := by
      apply UInt8.toNat_inj.mp
      rw [UInt8.toNat_ofNat']
      omega
    rw [decode_concat, List.length_append, List.length_singleton, encode, hdiv, hmod, ih]

end ZmqRs.Lib.BigEndian
