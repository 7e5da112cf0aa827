import Mathlib.Data.List.Lex
import Mathlib.Data.Nat.Basic
import Mathlib.Order.Lattice
import Mathlib.Tactic.Ring

/-! # Codes that keep an order

A code of values by strings keeps an order if a smaller value leads to a smaller string whatever follows the two
codes. Such codes can be put one after the other: the strings of two sequences compare as the sequences do at the
first place where they differ. Big-endian numbers of a fixed width are a code of this kind.
-/

namespace OrderCode

variable {α β : Type*} {less : α → α → Prop} {below : β → β → Prop}

/-- Smaller values have smaller codes, whatever follows. -/
def Keeps (less : α → α → Prop) (below : β → β → Prop) (code : α → List β) : Prop :=
  ∀ a b, less a b → ∀ first second, List.Lex below (code a ++ first) (code b ++ second)

theorem lex_append_left (common : List β) {first second : List β} (lex : List.Lex below first second) :
    List.Lex below (common ++ first) (common ++ second) := by
  induction common with
  | nil => exact lex
  | cons head rest ih => exact .cons ih

/-- Two sequences of codes compare at the first difference. -/
theorem Keeps.flatMap {code : α → List β} (keeps : Keeps less below code) (common : List α) {a b : α}
    (smaller : less a b) (as bs : List α) (first second : List β) :
    List.Lex below ((common ++ a :: as).flatMap code ++ first) ((common ++ b :: bs).flatMap code ++ second) := by
  simp only [List.flatMap_append, List.flatMap_cons, List.append_assoc]
  exact lex_append_left _ (keeps a b smaller _ _)

/-- What lies between two strings with a common head has that head. -/
theorem isPrefix_of_between [LinearOrder β] {head low high key : List β} (lower : ¬ List.Lex (· < ·) key (head ++ low))
    (upper : ¬ List.Lex (· < ·) (head ++ high) key) : head <+: key := by
  induction head generalizing key with
  | nil => exact List.nil_prefix
  | cons first head ih =>
    cases key with
    | nil => exact absurd .nil lower
    | cons own key =>
      have same : own = first :=
        le_antisymm (not_lt.mp fun more => upper (.rel more)) (not_lt.mp fun less => lower (.rel less))
      subst same
      exact List.prefix_cons_inj own |>.mpr (ih (fun less => lower (.cons less)) fun more => upper (.cons more))

/-! ## Big-endian numbers -/

/-- The low `width` bytes of a number, most significant first. -/
def bigEndian : ℕ → ℕ → List UInt8
  | 0, _ => []
  | width + 1, value => UInt8.ofNat (value / 256 ^ width) :: bigEndian width value

def ofBigEndian : List UInt8 → ℕ
  | [] => 0
  | byte :: rest => byte.toNat * 256 ^ rest.length + ofBigEndian rest

@[simp] theorem length_bigEndian (width value : ℕ) : (bigEndian width value).length = width := by
  induction width with
  | zero => rfl
  | succ width ih => simp [bigEndian, ih]

private theorem mod_succ (width value : ℕ) :
    value % 256 ^ (width + 1) = value / 256 ^ width % 256 * 256 ^ width + value % 256 ^ width := by
  rw [Nat.pow_succ, Nat.mod_mul, Nat.mul_comm]
  ring

theorem ofBigEndian_bigEndian_mod (width value : ℕ) : ofBigEndian (bigEndian width value) = value % 256 ^ width := by
  induction width with
  | zero => rw [Nat.pow_zero, Nat.mod_one]; rfl
  | succ width ih => rw [bigEndian, ofBigEndian, ih, length_bigEndian, UInt8.toNat_ofNat', mod_succ]

theorem ofBigEndian_bigEndian {width value : ℕ} (fits : value < 256 ^ width) :
    ofBigEndian (bigEndian width value) = value := by
  rw [ofBigEndian_bigEndian_mod, Nat.mod_eq_of_lt fits]

theorem ofBigEndian_lt (bytes : List UInt8) : ofBigEndian bytes < 256 ^ bytes.length := by
  induction bytes with
  | nil => simp [ofBigEndian]
  | cons byte rest ih =>
    have digit : byte.toNat * 256 ^ rest.length ≤ 255 * 256 ^ rest.length :=
      Nat.mul_le_mul_right _ (Nat.le_of_lt_succ byte.toNat_lt)
    rw [ofBigEndian, List.length_cons, Nat.pow_succ]
    omega

private theorem bigEndian_add {width : ℕ} (digit low : ℕ) (small : low < 256 ^ width) :
    bigEndian width (digit * 256 ^ width + low) = bigEndian width low := by
  induction width generalizing digit low with
  | zero => rfl
  | succ width ih =>
    have positive : 0 < 256 ^ width := Nat.pow_pos (by omega)
    have split : low = low / 256 ^ width * 256 ^ width + low % 256 ^ width := (Nat.div_add_mod' ..).symm
    have lowMod := Nat.mod_lt low positive
    have whole : digit * 256 ^ (width + 1) + low =
        (digit * 256 + low / 256 ^ width) * 256 ^ width + low % 256 ^ width := by
      conv => lhs; rw [split]
      ring
    have head : UInt8.ofNat ((digit * 256 ^ (width + 1) + low) / 256 ^ width) = UInt8.ofNat (low / 256 ^ width) := by
      apply UInt8.toNat.inj
      rw [UInt8.toNat_ofNat', UInt8.toNat_ofNat', whole, Nat.mul_comm, Nat.mul_add_div positive,
        Nat.div_eq_of_lt lowMod]
      omega
    have rest : bigEndian width low = bigEndian width (low % 256 ^ width) := by
      conv => lhs; rw [split]
      exact ih _ _ lowMod
    rw [bigEndian, bigEndian, head, rest, whole, ih _ _ lowMod]

theorem bigEndian_ofBigEndian (bytes : List UInt8) : bigEndian bytes.length (ofBigEndian bytes) = bytes := by
  induction bytes with
  | nil => rfl
  | cons byte rest ih =>
    have small := ofBigEndian_lt rest
    have head : (byte.toNat * 256 ^ rest.length + ofBigEndian rest) / 256 ^ rest.length = byte.toNat := by
      rw [Nat.mul_comm, Nat.mul_add_div (Nat.pow_pos (by omega)), Nat.div_eq_of_lt small, Nat.add_zero]
    rw [ofBigEndian, List.length_cons, bigEndian, head, UInt8.ofNat_toNat, bigEndian_add _ _ small, ih]

/-- Numbers compare as their bytes do. -/
theorem lex_bigEndian {width a b : ℕ} (smaller : a % 256 ^ width < b % 256 ^ width) (first second : List UInt8) :
    List.Lex (· < ·) (bigEndian width a ++ first) (bigEndian width b ++ second) := by
  induction width with
  | zero =>
    omega
  | succ width ih =>
    rw [mod_succ, mod_succ] at smaller
    rcases Nat.lt_trichotomy (a / 256 ^ width % 256) (b / 256 ^ width % 256) with less | same | more
    · refine .rel ?_
      exact less
    · have digit : UInt8.ofNat (a / 256 ^ width) = UInt8.ofNat (b / 256 ^ width) := by
        apply UInt8.toNat.inj
        exact same
      rw [bigEndian, bigEndian, digit]
      refine .cons (ih ?_)
      rw [same] at smaller
      omega
    · have step := Nat.mul_le_mul_right (256 ^ width) (show b / 256 ^ width % 256 + 1 ≤ a / 256 ^ width % 256 from more)
      rw [Nat.add_mul] at step
      omega

end OrderCode
