import Mathlib.Data.Nat.Basic
import Mathlib.Tactic.Ring

/-! # Unsigned varints

Numbers of at most 64 bits, seven bits to a byte, least significant first; every byte but the last has its
high bit set. Reading inverts writing whatever bytes follow. A number may be read from more bytes than it is
written to, but never from more than ten.
-/

namespace Uvarint

/-- The bytes of a number, with room for the given number of further bytes. -/
def encodeWithin : ℕ → ℕ → List UInt8
  | 0, value => [UInt8.ofNat value]
  | room + 1, value =>
      if value < 128 then [UInt8.ofNat value] else UInt8.ofNat (value % 128 + 128) :: encodeWithin room (value / 128)

def encode (value : ℕ) : List UInt8 := encodeWithin 9 value

/-- Read a number from at most the given number of bytes. The last byte holds a single bit. -/
def decodeWithin : ℕ → List UInt8 → Option (ℕ × List UInt8)
  | 0, _ => none
  | _ + 1, [] => none
  | room + 1, byte :: rest =>
      if byte.toNat < 128 then
        if room = 0 ∧ 1 < byte.toNat then none else some (byte.toNat, rest)
      else (decodeWithin room rest).map fun (high, left) => (byte.toNat - 128 + 128 * high, left)

/-- The number at the front of the input and what follows it; nothing if the input ends inside the number or
the number has more than 64 bits. -/
def decode (input : List UInt8) : Option (ℕ × List UInt8) := decodeWithin 10 input

private theorem toNat_ofNat {value : ℕ} (small : value < 256) : (UInt8.ofNat value).toNat = value :=
  UInt8.toNat_ofNat_of_lt' small

theorem decodeWithin_encodeWithin {room value : ℕ} (fits : value < 2 * 128 ^ room) (rest : List UInt8) :
    decodeWithin (room + 1) (encodeWithin room value ++ rest) = some (value, rest) := by
  induction room generalizing value with
  | zero =>
    rw [Nat.pow_zero] at fits
    have byte : (UInt8.ofNat value).toNat = value := toNat_ofNat (by omega)
    rw [encodeWithin, List.singleton_append, decodeWithin, byte, if_pos (by omega), if_neg (by omega)]
  | succ room ih =>
    rw [encodeWithin]
    split
    · next short =>
      have byte : (UInt8.ofNat value).toNat = value := toNat_ofNat (by omega)
      rw [List.singleton_append, decodeWithin, byte, if_pos short, if_neg (by omega)]
    · next long =>
      have high : value / 128 < 2 * 128 ^ room := by
        rw [Nat.div_lt_iff_lt_mul (by omega), Nat.mul_assoc, ← Nat.pow_succ]
        exact fits
      have byte : (UInt8.ofNat (value % 128 + 128)).toNat = value % 128 + 128 :=
        toNat_ofNat (by omega)
      have whole : value % 128 + 128 - 128 + 128 * (value / 128) = value := by omega
      rw [List.cons_append, decodeWithin, byte, if_neg (by omega), ih high, Option.map_some]
      exact congrArg (fun number => some (number, rest)) whole

theorem decode_encode {value : ℕ} (fits : value < 2 ^ 64) (rest : List UInt8) :
    decode (encode value ++ rest) = some (value, rest) :=
  decodeWithin_encodeWithin (by omega) rest

example : encode 300 = [172, 2] ∧ decode [172, 2, 7] = some (300, [7]) := by decide

/-- A number written in more bytes than it needs is read all the same. -/
example : decode [128, 128, 0] = some (0, []) := by decide

end Uvarint
