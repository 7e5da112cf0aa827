import Mathlib.Data.List.Lex
import Mathlib.Order.Lattice

/-! # Byte strings

Keys and values are byte strings. `bytes.Compare` is the lexicographic order of lists of bytes, which
Mathlib provides once single bytes are linearly ordered.
-/

namespace PallasDB

instance instLinearOrderUInt8 : LinearOrder UInt8 where
  le_refl := UInt8.le_refl
  le_trans _ _ _ := UInt8.le_trans
  lt_iff_le_not_ge a b := by
    simp only [UInt8.lt_iff_toNat_lt, UInt8.le_iff_toNat_le]
    omega
  le_antisymm _ _ := UInt8.le_antisymm
  le_total := UInt8.le_total
  toDecidableLE := inferInstance
  toDecidableEq := inferInstance
  toDecidableLT := inferInstance

abbrev Bytes := List UInt8

/-- What a store shows: the value of each key that it holds. -/
abbrev KVMap := Bytes → Option Bytes

/-- A text of the source, one byte for each of its characters. -/
def ascii (text : String) : Bytes := text.toList.map fun char => UInt8.ofNat char.toNat

namespace Bytes

instance instLawfulBEq : LawfulBEq Bytes := inferInstance

private theorem not_lt_iff (a b : List UInt8) :
    ¬ @LT.lt (List UInt8) List.instLT a b ↔ @LE.le (List UInt8) List.LE' b a :=
  @not_lt (List UInt8) List.instLinearOrder a b

instance : LT Bytes := List.instLT

instance : LE Bytes := List.instLE

-- Every component is the one of core lists, so that both spellings of a comparison agree.
instance : LinearOrder Bytes where
  le_refl a := (not_lt_iff a a).mpr (@le_refl (List UInt8) _ a)
  le_trans a b c first second :=
    (not_lt_iff c a).mpr (@le_trans (List UInt8) _ a b c ((not_lt_iff b a).mp first) ((not_lt_iff c b).mp second))
  lt_iff_le_not_ge a b := by
    refine ⟨fun less => ⟨?_, fun above => above less⟩, fun both => not_not.mp both.2⟩
    exact (not_lt_iff b a).mpr (@le_of_lt (List UInt8) _ a b less)
  le_antisymm a b first second :=
    @le_antisymm (List UInt8) _ a b ((not_lt_iff b a).mp first) ((not_lt_iff a b).mp second)
  le_total a b :=
    (@le_total (List UInt8) _ a b).imp (not_lt_iff b a).mpr (not_lt_iff a b).mpr
  toDecidableLE := fun a b => List.decidableLE a b
  toDecidableEq := inferInstance
  toDecidableLT := fun a b => List.decidableLT a b
  toOrd := ⟨fun a b => compareOfLessAndEq a b⟩
  toMin := ⟨fun a b => if a ≤ b then a else b⟩
  toMax := ⟨fun a b => if a ≤ b then b else a⟩

end Bytes

example : ([0, 255] : Bytes) < [1] ∧ ([1] : Bytes) < [1, 0] := by decide

end PallasDB
