import PallasDB.Db.Bytes
import PallasDB.Lib.LittleEndian
import PallasDB.Lib.OrderCode
import Mathlib.Order.Compare

/-! # Cells

A cell is a 64 bit integer or a byte string. It has two encodings: one for values, which is compact, and one for
keys, which keeps the order of cells whatever follows the encoded cell. Strings in keys end with a zero byte; the
bytes zero and one are escaped.
-/

namespace PallasDB

open OrderCode

inductive CellType where
  | i64
  | str
deriving DecidableEq, Repr

def CellType.code : CellType → UInt8
  | i64 => 1
  | str => 2

inductive Cell where
  | i64 (val : Int64)
  | str (val : Bytes)
deriving DecidableEq

inductive CellError where
  | expectMoreData
  | badEscape
  | notEnded
deriving DecidableEq, Repr

namespace Cell

def type : Cell → CellType
  | i64 _ => .i64
  | str _ => .str

/-! ## Values -/

def encodeVal : Cell → Bytes
  | i64 val => LittleEndian.encode 8 val.toUInt64.toNat
  | str val => LittleEndian.encode 4 val.length ++ val

def decodeVal (type : CellType) (data : Bytes) : Except CellError (Cell × Bytes) :=
  match type with
  | .i64 =>
      if data.length < 8 then .error .expectMoreData
      else .ok (.i64 (UInt64.ofNat (LittleEndian.decode (data.take 8))).toInt64, data.drop 8)
  | .str =>
      if data.length < 4 then .error .expectMoreData
      else
        let size := LittleEndian.decode (data.take 4)
        if data.length < 4 + size then .error .expectMoreData
        else .ok (.str ((data.drop 4).take size), data.drop (4 + size))

/-- A string has a length of 32 bits. -/
def Sized : Cell → Prop
  | i64 _ => True
  | str val => val.length < 2 ^ 32

instance : DecidablePred Sized
  | i64 _ => .isTrue trivial
  | str val => inferInstanceAs (Decidable (val.length < 2 ^ 32))

theorem decodeVal_encodeVal {cell : Cell} (sized : cell.Sized) (rest : Bytes) :
    decodeVal cell.type (cell.encodeVal ++ rest) = .ok (cell, rest) := by
  cases cell with
  | i64 val =>
    have size : (LittleEndian.encode 8 val.toUInt64.toNat).length = 8 := LittleEndian.length_encode ..
    have back : LittleEndian.decode (LittleEndian.encode 8 val.toUInt64.toNat) = val.toUInt64.toNat :=
      LittleEndian.decode_encode (UInt64.toNat_lt _)
    simp only [decodeVal, encodeVal, type, List.length_append, size, List.take_left' size, List.drop_left' size, back,
      UInt64.ofNat_toNat, Int64.toInt64_toUInt64]
    rw [if_neg (by omega)]
  | str val =>
    have size : (LittleEndian.encode 4 val.length).length = 4 := LittleEndian.length_encode ..
    have back : LittleEndian.decode (LittleEndian.encode 4 val.length) = val.length :=
      LittleEndian.decode_encode sized
    have whole : (LittleEndian.encode 4 val.length ++ val ++ rest).length = 4 + val.length + rest.length := by
      rw [List.length_append, List.length_append, size]
    have front : (LittleEndian.encode 4 val.length ++ val).length = 4 + val.length := by
      rw [List.length_append, size]
    have field : (LittleEndian.encode 4 val.length ++ val ++ rest).take 4 = LittleEndian.encode 4 val.length := by
      rw [List.append_assoc, List.take_left' size]
    have body : (LittleEndian.encode 4 val.length ++ val ++ rest).drop 4 = val ++ rest := by
      rw [List.append_assoc, List.drop_left' size]
    simp only [decodeVal, encodeVal, type, whole, field, back, body]
    rw [if_neg (by omega), if_neg (by omega), List.take_left' rfl, List.drop_left' front]

/-! ## Keys -/

def encodeStrKey : Bytes → Bytes
  | [] => [0x00]
  | ch :: rest =>
      if ch = 0x00 ∨ ch = 0x01 then 0x01 :: (ch + 1) :: encodeStrKey rest else ch :: encodeStrKey rest

/-- The string at the front of the data and what follows it; the flag is set after an escape byte. -/
def decodeStrKey : Bool → Bytes → Except CellError (Bytes × Bytes)
  | _, [] => .error .notEnded
  | true, ch :: rest =>
      if ch ≠ 0x01 ∧ ch ≠ 0x02 then .error .badEscape
      else (decodeStrKey false rest).map fun (out, left) => ((ch - 1) :: out, left)
  | false, ch :: rest =>
      if ch = 0x00 then .ok ([], rest)
      else if ch = 0x01 then decodeStrKey true rest
      else (decodeStrKey false rest).map fun (out, left) => (ch :: out, left)

def encodeKey : Cell → Bytes
  | i64 val => bigEndian 8 (val.toUInt64 ^^^ 0x8000000000000000).toNat
  | str val => encodeStrKey val

def decodeKey (type : CellType) (data : Bytes) : Except CellError (Cell × Bytes) :=
  match type with
  | .i64 =>
      if data.length < 8 then .error .expectMoreData
      else .ok (.i64 (UInt64.ofNat (ofBigEndian (data.take 8)) ^^^ 0x8000000000000000).toInt64, data.drop 8)
  | .str => (decodeStrKey false data).map fun (out, rest) => (.str out, rest)

theorem decodeStrKey_encodeStrKey (input rest : Bytes) :
    decodeStrKey false (encodeStrKey input ++ rest) = .ok (input, rest) := by
  induction input with
  | nil => rfl
  | cons ch input ih =>
    rw [encodeStrKey]
    split
    · next escaped =>
      rcases escaped with rfl | rfl <;> simp [decodeStrKey, ih, Except.map]
    · next plain =>
      rw [not_or] at plain
      simp [decodeStrKey, plain, ih, Except.map]

theorem decodeKey_encodeKey (cell : Cell) (rest : Bytes) :
    decodeKey cell.type (cell.encodeKey ++ rest) = .ok (cell, rest) := by
  cases cell with
  | i64 val =>
    have size : (bigEndian 8 (val.toUInt64 ^^^ 0x8000000000000000).toNat).length = 8 := length_bigEndian ..
    have back : ofBigEndian (bigEndian 8 (val.toUInt64 ^^^ 0x8000000000000000).toNat) =
        (val.toUInt64 ^^^ 0x8000000000000000).toNat := ofBigEndian_bigEndian (UInt64.toNat_lt _)
    simp only [decodeKey, encodeKey, type, List.length_append, size, List.take_left' size, List.drop_left' size, back,
      UInt64.ofNat_toNat]
    rw [if_neg (by omega), UInt64.xor_assoc, UInt64.xor_self, UInt64.xor_zero, Int64.toInt64_toUInt64]
  | str val => simp [decodeKey, encodeKey, type, decodeStrKey_encodeStrKey, Except.map]

/-! ## Order -/

/-- `cmp.Compare` and `bytes.Compare`, for cells of one type. -/
def compare? : Cell → Cell → Option Ordering
  | i64 left, i64 right => some (cmp left.toInt right.toInt)
  | str left, str right => some (cmp left right)
  | _, _ => none

theorem compare?_isSome {left right : Cell} : (compare? left right).isSome = true ↔ left.type = right.type := by
  cases left <;> cases right
  · exact iff_of_true rfl rfl
  · simp [compare?, type]
  · simp [compare?, type]
  · exact iff_of_true rfl rfl

theorem compare?_eq {left right : Cell} : compare? left right = some .eq ↔ left = right := by
  cases left <;> cases right
  · rw [compare?, Option.some_inj, cmp_eq_eq_iff, Int64.toInt_inj, i64.injEq]
  · simp [compare?]
  · simp [compare?]
  · rw [compare?, Option.some_inj, cmp_eq_eq_iff, str.injEq]

theorem compare?_swap (left right : Cell) : compare? right left = (compare? left right).map Ordering.swap := by
  cases left <;> cases right
  · rw [compare?, compare?, Option.map_some, cmp_swap]
  · rfl
  · rfl
  · rw [compare?, compare?, Option.map_some, cmp_swap]

/-- A cell in a key follows its type. -/
def keyCode (cell : Cell) : Bytes := cell.type.code :: cell.encodeKey

private theorem flip_toNat (val : UInt64) : (val ^^^ 0x8000000000000000).toNat = (val.toNat + 2 ^ 63) % 2 ^ 64 := by
  have low : (val.toNat ^^^ 2 ^ 63) % 2 ^ 63 = val.toNat % 2 ^ 63 := by
    rw [Nat.xor_mod_two_pow, Nat.mod_self, Nat.xor_zero]
  have high : (val.toNat ^^^ 2 ^ 63) / 2 ^ 63 = val.toNat / 2 ^ 63 ^^^ 1 := by
    rw [Nat.xor_div_two_pow, Nat.div_self (by omega)]
  have bound := val.toNat_lt
  rw [UInt64.toNat_xor, show UInt64.toNat 0x8000000000000000 = 2 ^ 63 from rfl]
  obtain front | back : val.toNat / 2 ^ 63 = 0 ∨ val.toNat / 2 ^ 63 = 1 := by omega
  · rw [front, Nat.zero_xor] at high
    omega
  · rw [back, Nat.xor_self] at high
    omega

theorem flip_lt {left right : Int64} (less : left.toInt < right.toInt) :
    (left.toUInt64 ^^^ 0x8000000000000000).toNat < (right.toUInt64 ^^^ 0x8000000000000000).toNat := by
  have signed (val : Int64) : val.toInt =
      if 2 * val.toUInt64.toNat < 2 ^ 64 then (val.toUInt64.toNat : ℤ) else val.toUInt64.toNat - 2 ^ 64 :=
    BitVec.toInt_eq_toNat_cond _
  rw [signed, signed] at less
  have boundRight := right.toUInt64.toNat_lt
  rw [flip_toNat, flip_toNat]
  split at less <;> split at less <;> omega

theorem lex_encodeStrKey {left right : Bytes} (less : left < right) (first second : Bytes) :
    List.Lex (· < ·) (encodeStrKey left ++ first) (encodeStrKey right ++ second) := by
  have lex : List.Lex (· < ·) left right := less
  induction lex with
  | nil =>
    simp only [encodeStrKey]
    split
    · exact .rel (by decide)
    · next plain =>
      refine .rel (UInt8.lt_iff_toNat_lt.mpr (Nat.pos_of_ne_zero fun zero => plain (.inl ?_)))
      exact UInt8.toNat.inj zero
  | @rel x xs y ys smaller =>
    have order := UInt8.lt_iff_toNat_lt.mp smaller
    simp only [encodeStrKey]
    split
    · next escaped =>
      split
      · next other =>
        rcases escaped with rfl | rfl <;> rcases other with rfl | rfl
        · exact absurd smaller (by decide)
        · exact .cons (.rel (by decide))
        · exact absurd smaller (by decide)
        · exact absurd smaller (by decide)
      · next plain =>
        refine .rel (UInt8.lt_iff_toNat_lt.mpr ?_)
        have notOne : y.toNat ≠ 1 := fun one => plain (.inr (UInt8.toNat.inj one))
        change 1 < y.toNat
        omega
    · next plain =>
      have notZero : x.toNat ≠ 0 := fun zero => plain (.inl (UInt8.toNat.inj zero))
      rw [if_neg]
      · exact .rel smaller
      · rintro (rfl | rfl)
        · exact absurd order (Nat.not_lt_zero _)
        · exact notZero (Nat.lt_one_iff.mp order)
  | cons lex ih =>
    simp only [encodeStrKey]
    split
    · exact .cons (.cons (ih lex))
    · exact .cons (ih lex)

theorem keyCode_keeps : Keeps (fun left right => compare? left right = some .lt) (· < ·) keyCode := by
  intro left right less first second
  cases left <;> cases right
  · rw [compare?, Option.some_inj, cmp_eq_lt_iff] at less
    refine .cons (lex_bigEndian ?_ first second)
    rw [show 256 ^ 8 = 2 ^ 64 from rfl, Nat.mod_eq_of_lt (UInt64.toNat_lt _), Nat.mod_eq_of_lt (UInt64.toNat_lt _)]
    exact flip_lt less
  · simp [compare?] at less
  · simp [compare?] at less
  · rw [compare?, Option.some_inj, cmp_eq_lt_iff] at less
    exact .cons (lex_encodeStrKey less first second)

end Cell

end PallasDB
