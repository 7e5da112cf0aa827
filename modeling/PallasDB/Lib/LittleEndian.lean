import Mathlib.Data.Nat.Basic
import Mathlib.Tactic.Ring

/-! # Little-endian byte fields

Fixed-width fields of a binary record. Decoding inverts encoding for values that fit the width, and every
field of that width encodes the value it decodes to.
-/

namespace LittleEndian

/-- The low `width` bytes of a number, least significant first. -/
def encode : ℕ → ℕ → List UInt8
  | 0, _ => []
  | width + 1, value => UInt8.ofNat value :: encode width (value / 256)

def decode : List UInt8 → ℕ
  | [] => 0
  | byte :: rest => byte.toNat + 256 * decode rest

@[simp] theorem length_encode (width value : ℕ) : (encode width value).length = width := by
  induction width generalizing value with
  | zero => rfl
  | succ width ih => simp [encode, ih]

theorem decode_encode {width value : ℕ} (fits : value < 256 ^ width) : decode (encode width value) = value := by
  induction width generalizing value with
  | zero =>
    simp only [encode, decode]
    omega
  | succ width ih =>
    have high : value / 256 < 256 ^ width := by
      rw [Nat.div_lt_iff_lt_mul (by omega), ← Nat.pow_succ]
      exact fits
    rw [encode, decode, ih high, UInt8.toNat_ofNat']
    omega

theorem encode_decode (field : List UInt8) : encode field.length (decode field) = field := by
  induction field with
  | nil => rfl
  | cons byte rest ih =>
    have bound := byte.toNat_lt
    have low : UInt8.ofNat (decode (byte :: rest)) = byte := by
      apply UInt8.toNat.inj
      rw [decode, UInt8.toNat_ofNat']
      omega
    have high : decode (byte :: rest) / 256 = decode rest := by
      rw [decode]
      omega
    rw [List.length_cons, encode, low, high, ih]

theorem decode_lt (field : List UInt8) : decode field < 256 ^ field.length := by
  induction field with
  | nil => exact Nat.one_pos
  | cons byte rest ih =>
    have bound := byte.toNat_lt
    rw [decode, List.length_cons, Nat.pow_succ]
    omega

end LittleEndian
