import PallasDB.Db.Row

/-! # The codec of rows

Decoding a key or a value gives back the encoded cells, and what a decoder accepts is the encoding of what it
returns. The index number is one byte of a key but is compared in UTF-8, so the keys of the indices from 128 on are
refused; the length of a string in a value has 32 bits. Keys compare as the cells of their index do.
-/

namespace PallasDB

open OrderCode

namespace Cell

/-! ## What the decoders of cells accept -/

private theorem decodeStrKey_sound (escape : Bool) (data : Bytes) (out rest : Bytes)
    (accepted : decodeStrKey escape data = .ok (out, rest)) :
    (if escape then 0x01 :: data else data) = encodeStrKey out ++ rest := by
  induction data generalizing escape out with
  | nil => cases escape <;> contradiction
  | cons ch data ih =>
    cases escape with
    | true =>
      rw [decodeStrKey] at accepted
      split at accepted
      · contradiction
      · next escaped =>
        cases tail : decodeStrKey false data with
        | error err => rw [tail] at accepted; contradiction
        | ok decoded =>
          rw [tail] at accepted
          cases accepted
          have body : data = _ := ih false decoded.1 tail
          rw [if_pos rfl, encodeStrKey, body]
          rw [not_and_or, not_not, not_not] at escaped
          rcases escaped with rfl | rfl <;> rfl
    | false =>
      rw [decodeStrKey] at accepted
      rw [if_neg (by decide)]
      split at accepted
      · next ended =>
        cases accepted
        rw [ended]
        rfl
      · next more =>
        split at accepted
        · next escape =>
          subst escape
          exact ih true out accepted
        · next plain =>
          cases tail : decodeStrKey false data with
          | error err => rw [tail] at accepted; contradiction
          | ok decoded =>
            rw [tail] at accepted
            cases accepted
            have body : data = _ := ih false decoded.1 tail
            rw [encodeStrKey, if_neg (not_or.mpr ⟨more, plain⟩), List.cons_append, ← body]

theorem decodeKey_sound {type : CellType} {data rest : Bytes} {cell : Cell}
    (accepted : decodeKey type data = .ok (cell, rest)) : cell.type = type ∧ data = cell.encodeKey ++ rest := by
  cases type with
  | i64 =>
    rw [decodeKey] at accepted
    split at accepted
    · contradiction
    · next enough =>
      cases accepted
      have size : (data.take 8).length = 8 := by
        rw [List.length_take]
        omega
      have bound : ofBigEndian (data.take 8) < 2 ^ 64 := by
        have small := ofBigEndian_lt (data.take 8)
        rw [size] at small
        exact small
      have back : bigEndian 8 (ofBigEndian (data.take 8)) = data.take 8 := by
        have whole := bigEndian_ofBigEndian (data.take 8)
        rwa [size] at whole
      refine ⟨rfl, ?_⟩
      rw [encodeKey, UInt64.toUInt64_toInt64, UInt64.xor_assoc, UInt64.xor_self, UInt64.xor_zero, UInt64.toNat_ofNat',
        Nat.mod_eq_of_lt bound, back, List.take_append_drop]
  | str =>
    rw [decodeKey] at accepted
    cases decoded : decodeStrKey false data with
    | error err => rw [decoded] at accepted; contradiction
    | ok result =>
      rw [decoded] at accepted
      cases accepted
      exact ⟨rfl, decodeStrKey_sound false data result.1 result.2 decoded⟩

theorem decodeVal_sound {type : CellType} {data rest : Bytes} {cell : Cell}
    (accepted : decodeVal type data = .ok (cell, rest)) :
    cell.type = type ∧ data = cell.encodeVal ++ rest ∧ cell.Sized := by
  have field (width : ℕ) (enough : width ≤ data.length) :
      LittleEndian.encode width (LittleEndian.decode (data.take width)) = data.take width ∧
        LittleEndian.decode (data.take width) < 256 ^ width := by
    have size : (data.take width).length = width := by
      rw [List.length_take]
      omega
    have whole := LittleEndian.encode_decode (data.take width)
    have small := LittleEndian.decode_lt (data.take width)
    rw [size] at whole small
    exact ⟨whole, small⟩
  cases type with
  | i64 =>
    rw [decodeVal] at accepted
    split at accepted
    · contradiction
    · next enough =>
      cases accepted
      obtain ⟨whole, small⟩ := field 8 (by omega)
      have bound : LittleEndian.decode (data.take 8) < 2 ^ 64 := small
      refine ⟨rfl, ?_, trivial⟩
      rw [encodeVal, UInt64.toUInt64_toInt64, UInt64.toNat_ofNat', Nat.mod_eq_of_lt bound, whole,
        List.take_append_drop]
  | str =>
    rw [decodeVal] at accepted
    split at accepted
    · contradiction
    · next enough =>
      dsimp only at accepted
      split at accepted
      · contradiction
      · next filled =>
        cases accepted
        obtain ⟨whole, small⟩ := field 4 (by omega)
        have size : ((data.drop 4).take (LittleEndian.decode (data.take 4))).length =
            LittleEndian.decode (data.take 4) := by
          rw [List.length_take, List.length_drop]
          omega
        refine ⟨rfl, ?_, size.trans_lt small⟩
        rw [encodeVal, size, whole, ← List.drop_drop, List.append_assoc, List.take_append_drop,
          List.take_append_drop]

end Cell

/-! ## What the decoders of rows accept -/

variable {row : Row} {indexNo : ℕ}

namespace Schema

variable {schema : Schema}

/-- A sequence of decoded cells is the code of the cells it sets, if no column is set twice. -/
theorem decodeCells_sound {code : Cell → Bytes} {decode : CellType → Bytes → Except DBError (Cell × Bytes)}
    {good : Cell → Prop}
    (sound : ∀ type data cell rest, decode type data = .ok (cell, rest) →
      cell.type = type ∧ data = code cell ++ rest ∧ good cell) {index : List ℕ} (distinct : index.Nodup) {into : Row}
    {data rest : Bytes} (size : into.length = schema.cols.length)
    (accepted : schema.decodeCells decode index data into = .ok (row, rest)) :
    row.length = schema.cols.length ∧ (∀ k, k ∉ index → row[k]? = into[k]?) ∧
      data = (row.pick index).flatMap code ++ rest ∧ schema.checkedCells row index = .ok (row.pick index) ∧
      ∀ cell ∈ row.pick index, good cell := by
  induction index generalizing into data with
  | nil =>
    cases accepted
    exact ⟨size, fun _ _ => rfl, rfl, rfl, by simp [Row.pick]⟩
  | cons idx index ih =>
    rw [Schema.decodeCells] at accepted
    split at accepted
    · contradiction
    · next col found =>
      split at accepted
      · contradiction
      · next cell left decoded =>
        obtain ⟨type, split, kept⟩ := sound _ _ _ _ decoded
        obtain ⟨fresh, others⟩ := List.nodup_cons.mp distinct
        obtain ⟨length, frame, tail, checked, rest⟩ := ih others (by rw [List.length_set, size]) accepted
        have inside : idx < into.length := by
          rw [size]
          exact (List.getElem?_eq_some_iff.mp found).1
        have own : row[idx]? = some cell := by
          rw [frame idx fresh, List.getElem?_set_self inside]
        have front : row.pick (idx :: index) = cell :: row.pick index := by
          simp [Row.pick, List.getD_eq_getElem?_getD, own]
        have cellChecked : schema.checkedCell row idx = .ok cell := by
          rw [checkedCell, own, found]
          exact if_pos type
        refine ⟨length, fun k outside => ?_, ?_, ?_, ?_⟩
        · have other : idx ≠ k := fun same => outside (same ▸ List.mem_cons_self)
          rw [frame k fun member => outside (List.mem_cons_of_mem _ member), List.getElem?_set_ne other]
        · rw [front, List.flatMap_cons, List.append_assoc, ← tail]
          exact split
        · rw [Schema.checkedCells, cellChecked, checked, front]
          rfl
        · rw [front]
          exact List.forall_mem_cons.mpr ⟨kept, rest⟩

theorem decodeKeyCell_sound (type : CellType) (data : Bytes) (cell : Cell) (rest : Bytes)
    (accepted : decodeKeyCell type data = .ok (cell, rest)) :
    cell.type = type ∧ data = cell.keyCode ++ rest ∧ True := by
  cases data with
  | nil => contradiction
  | cons tag data =>
    rw [decodeKeyCell] at accepted
    split at accepted
    · contradiction
    · next tagged =>
      split at accepted
      · contradiction
      · next decoded found =>
        cases accepted
        obtain ⟨rfl, split⟩ := Cell.decodeKey_sound found
        rw [not_not] at tagged
        exact ⟨rfl, by rw [Cell.keyCode, tagged, split, List.cons_append], trivial⟩

theorem decodeValCell_sound (type : CellType) (data : Bytes) (cell : Cell) (rest : Bytes)
    (accepted : decodeValCell type data = .ok (cell, rest)) :
    cell.type = type ∧ data = cell.encodeVal ++ rest ∧ cell.Sized := by
  rw [decodeValCell] at accepted
  split at accepted
  · contradiction
  · next decoded found =>
    cases accepted
    exact Cell.decodeVal_sound found

/-- The head a decoder compares with is that of the index, up to 128 indices; beyond it is one byte longer. -/
theorem length_stringOfByte (large : 128 ≤ indexNo) (byte : indexNo < 256) :
    (stringOfByte (UInt8.ofNat indexNo)).length = 2 := by
  have above : ¬ UInt8.ofNat indexNo < 0x80 := by
    rw [UInt8.lt_iff_toNat_lt, UInt8.toNat_ofNat', Nat.mod_eq_of_lt byte]
    exact not_lt.mpr large
  rw [stringOfByte, if_neg above]
  rfl

/-- The keys of the far indices are refused. -/
theorem decodeKey_far (large : 128 ≤ indexNo) (byte : indexNo < 256) (into : Row) (key : Bytes) (row : Row) :
    into.decodeKey schema indexNo key ≠ .ok row := by
  intro accepted
  rw [Row.decodeKey] at accepted
  split at accepted
  · contradiction
  · split at accepted
    · contradiction
    · next enough =>
      split at accepted
      · contradiction
      · next same =>
        have lengths := congrArg List.length (not_not.mp same)
        rw [List.length_take, List.length_append, List.length_cons, length_stringOfByte large byte] at lengths
        omega

/-- A key that is accepted is the key of the row it gives. -/
theorem encodeKey_of_decodeKey (valid : schema.Valid) {into : Row} {key : Bytes}
    (known : indexNo < schema.indices.length) (distinct : (schema.indices.getD indexNo []).Nodup)
    (accepted : into.decodeKey schema indexNo key = .ok row) : row.encodeKey schema indexNo = .ok key := by
  have small : indexNo < 128 := by
    by_contra large
    exact decodeKey_far (not_lt.mp large) (known.trans_le valid.countable) into key row accepted
  have index : schema.indices[indexNo]? = some (schema.indices.getD indexNo []) := by
    rw [List.getD_eq_getElem?_getD, List.getElem?_eq_getElem known, Option.getD_some]
  rw [Row.decodeKey, index] at accepted
  split at accepted
  · contradiction
  · next size =>
    split at accepted
    · contradiction
    · next enough =>
      split at accepted
      · contradiction
      · next same =>
        dsimp only at accepted
        split at accepted
        · contradiction
        · next decoded rest found =>
          split at accepted
          · next ended =>
            cases accepted
            obtain ⟨length, _, cells, checked, _⟩ :=
              decodeCells_sound decodeKeyCell_sound distinct (not_not.mp size) found
            rw [Row.encodeKey, if_neg (not_not_intro length), index]
            simp only [checked, Except.map, Except.ok.injEq]
            rw [List.append_assoc, ← ended, ← cells, keyHead_eq small, ← not_not.mp same, List.take_append_drop]
          · contradiction

/-- A value that is accepted is the value of the row it gives. -/
theorem encodeVal_of_decodeVal {into : Row} {val : Bytes} (accepted : into.decodeVal schema val = .ok row) :
    row.encodeVal schema = .ok val ∧ ∀ cell ∈ row.pick schema.valueCols, cell.Sized := by
  rw [Row.decodeVal] at accepted
  split at accepted
  · contradiction
  · next ready =>
    rw [not_or, not_not] at ready
    split at accepted
    · contradiction
    · next decoded rest found =>
      split at accepted
      · next ended =>
        cases accepted
        have distinct : schema.valueCols.Nodup := List.nodup_range.filter _
        obtain ⟨length, _, cells, checked, sized⟩ := decodeCells_sound decodeValCell_sound distinct ready.1 found
        refine ⟨?_, sized⟩
        rw [Row.encodeVal, if_neg (not_or.mpr ⟨not_not_intro length, ready.2⟩), checked, cells, ended, List.append_nil]
        rfl
      · contradiction

/-! ## Round trips -/

/-- `DecodeKey` of the key of a row sets the cells of the index to those of the row. -/
def KeyRoundTrip (schema : Schema) (indexNo : ℕ) (row : Row) : Prop :=
  ∃ key, row.encodeKey schema indexNo = .ok key ∧ ∀ into : Row, into.length = schema.cols.length →
    ∃ decoded, into.decodeKey schema indexNo key = .ok decoded ∧
      ∀ k, decoded[k]? = if k ∈ schema.indices.getD indexNo [] then row[k]? else into[k]?

/-- `DecodeVal` of the value of a row sets the cells outside the primary key to those of the row. -/
def ValRoundTrip (schema : Schema) (row : Row) : Prop :=
  ∃ val, row.encodeVal schema = .ok val ∧ ∀ into : Row, into.length = schema.cols.length →
    ∃ decoded, into.decodeVal schema val = .ok decoded ∧
      ∀ k, decoded[k]? = if k ∈ schema.valueCols then row[k]? else into[k]?

theorem Typed.keyRoundTrip_iff (typed : schema.Typed row) (valid : schema.Valid)
    (known : indexNo < schema.indices.length) : schema.KeyRoundTrip indexNo row ↔ indexNo < 128 := by
  constructor
  · rintro ⟨key, _, back⟩
    by_contra large
    obtain ⟨decoded, accepted, _⟩ := back row typed.length_eq
    exact decodeKey_far (not_lt.mp large) (known.trans_le valid.countable) row key decoded accepted
  · intro small
    refine ⟨_, typed.encodeKey valid known, fun into size => ⟨_, typed.decodeKey valid known small size, ?_⟩⟩
    exact into.getElem?_fill row _ (size.trans typed.length_eq.symm)

theorem Typed.valRoundTrip_iff (typed : schema.Typed row) (valid : schema.Valid) :
    schema.ValRoundTrip row ↔ ∀ cell ∈ row.pick schema.valueCols, cell.Sized := by
  constructor
  · rintro ⟨val, _, back⟩
    obtain ⟨decoded, accepted, same⟩ := back row typed.length_eq
    have sized := (encodeVal_of_decodeVal accepted).2
    have cells : decoded.pick schema.valueCols = row.pick schema.valueCols := by
      refine List.map_congr_left fun k member => ?_
      rw [List.getD_eq_getElem?_getD, same k, if_pos member, ← List.getD_eq_getElem?_getD]
    rwa [cells] at sized
  · intro sized
    refine ⟨_, typed.encodeVal valid, fun into size => ⟨_, typed.decodeVal valid sized size, ?_⟩⟩
    exact into.getElem?_fill row _ (size.trans typed.length_eq.symm)

/-- Rows come back from their keys in the first 128 indices and from values with strings of 32 bit lengths, and
only there; what is accepted encodes to itself. -/
theorem row_codec_iff {row : Row} {indexNo : ℕ} (valid : schema.validate = .ok ()) (typed : schema.Typed row)
    (known : indexNo < schema.indices.length) :
    (schema.KeyRoundTrip indexNo row ∧ schema.ValRoundTrip row ↔
        indexNo < 128 ∧ ∀ cell ∈ row.pick schema.valueCols, cell.Sized) ∧
      (∀ (into decoded : Row) (key : Bytes), (schema.indices.getD indexNo []).Nodup →
        into.decodeKey schema indexNo key = .ok decoded → decoded.encodeKey schema indexNo = .ok key) ∧
      ∀ (into decoded : Row) (val : Bytes), into.decodeVal schema val = .ok decoded →
        decoded.encodeVal schema = .ok val := by
  have usable := valid_of_validate valid
  refine ⟨?_, fun into decoded key distinct accepted => encodeKey_of_decodeKey usable known distinct accepted,
    fun into decoded val accepted => (encodeVal_of_decodeVal accepted).1⟩
  rw [typed.keyRoundTrip_iff usable known, typed.valRoundTrip_iff usable]

/-- A table of two strings; the first one is its key. -/
def stringSchema : Schema := ⟨1, [0x74], [⟨[0x61], .str⟩, ⟨[0x62], .str⟩], [[0]]⟩

/-- The first string holds both bytes that keys escape. -/
def escapedRow : Row := [.str [0x61, 0x00, 0x01, 0x62], .str [0x00, 0x63]]

theorem row_codec_iff_escapedRow : stringSchema.KeyRoundTrip 0 escapedRow ∧ stringSchema.ValRoundTrip escapedRow :=
  (@row_codec_iff stringSchema escapedRow 0 (by decide +kernel) (by decide) (by decide +kernel)).1.mpr
    ⟨by decide, by decide +kernel⟩

/-- A table of one integer with 129 indices on it. -/
def wideSchema : Schema := ⟨1, [0x74], [⟨[0x61], .i64⟩], List.replicate 129 [0]⟩

/-- A row of an accepted schema whose key in the last index is refused. -/
theorem lastIndex_refused : wideSchema.validate = .ok () ∧
    (∀ index ∈ wideSchema.indices, ∀ idx ∈ wideSchema.pkey, idx ∈ index) ∧ wideSchema.Typed [.i64 7] ∧
    128 < wideSchema.indices.length ∧ ∃ key, Row.encodeKey [.i64 7] wideSchema 128 = .ok key ∧
      wideSchema.newRow.decodeKey wideSchema 128 key = .error .outOfRange := by
  refine ⟨by decide +kernel, by decide +kernel, by decide, by decide +kernel, wideSchema.rowKey 128 [.i64 7], ?_, ?_⟩
  · decide +kernel
  · decide +kernel

/-! ## Order -/

theorem checkedCells_types {index : List ℕ} {cells : List Cell} (checked : schema.checkedCells row index = .ok cells) :
    cells = row.pick index ∧
      cells.map Cell.type = index.map fun idx => (schema.cols.getD idx ⟨[], .i64⟩).type := by
  induction index generalizing cells with
  | nil => cases checked; exact ⟨rfl, rfl⟩
  | cons idx index ih =>
    rw [Schema.checkedCells] at checked
    split at checked
    · contradiction
    · next cell found =>
      cases rest : schema.checkedCells row index with
      | error err => rw [rest] at checked; contradiction
      | ok others =>
        rw [rest] at checked
        cases checked
        obtain ⟨picked, types⟩ := ih rest
        rw [checkedCell] at found
        split at found
        · next own col atRow atCol =>
          split at found
          · next type =>
            cases found
            constructor
            · simp [Row.pick, List.getD_eq_getElem?_getD, atRow, picked]
            · simp [types, List.getD_eq_getElem?_getD, atCol, type]
          · contradiction
        · contradiction

theorem keyHead_isPrefix (schema : Schema) (indexNo : ℕ) (row : Row) :
    schema.keyHead indexNo <+: schema.rowKey indexNo row :=
  ⟨_, (List.append_assoc ..).symm⟩

/-- A row that can be encoded has cells of the right types in the index. -/
theorem checkedCells_of_encodeKey {i : ℕ} {key : Bytes} (encoded : row.encodeKey schema i = .ok key) :
    ∃ index, schema.indices[i]? = some index ∧ schema.checkedCells row index = .ok (row.pick index) ∧
      key = schema.rowKey i row := by
  rw [Row.encodeKey] at encoded
  split at encoded
  · contradiction
  · split at encoded
    · contradiction
    · next index found =>
      cases checked : schema.checkedCells row index with
      | error err => rw [checked] at encoded; contradiction
      | ok cells =>
        rw [checked] at encoded
        cases encoded
        obtain ⟨rfl, _⟩ := checkedCells_types checked
        refine ⟨index, found, checked, ?_⟩
        rw [rowKey, List.getD_eq_getElem?_getD, found, Option.getD_some]

theorem encodeKey_eq_ok {i : ℕ} {key : Bytes} (encoded : row.encodeKey schema i = .ok key) :
    key = schema.rowKey i row := by
  obtain ⟨_, _, _, same⟩ := checkedCells_of_encodeKey encoded
  exact same

/-- Two keys of an index compare as the cells of the index, and are equal only if those are. -/
theorem encodeKey_order {indexNo : ℕ} {index : List ℕ} {first second : Row} {firstKey secondKey : Bytes}
    (found : schema.indices[indexNo]? = some index) (encodedFirst : first.encodeKey schema indexNo = .ok firstKey)
    (encodedSecond : second.encodeKey schema indexNo = .ok secondKey) :
    compareCells (first.pick index) (second.pick index) = some (cmp firstKey secondKey) ∧
      (firstKey = secondKey ↔ first.pick index = second.pick index) := by
  have inversion {row : Row} {key : Bytes} (encoded : row.encodeKey schema indexNo = .ok key) :
      schema.checkedCells row index = .ok (row.pick index) ∧
        key = schema.keyHead indexNo ++ (row.pick index).flatMap Cell.keyCode ++ [0x00] := by
    obtain ⟨_, known, checked, same⟩ := checkedCells_of_encodeKey encoded
    cases found.symm.trans known
    rw [rowKey, List.getD_eq_getElem?_getD, found, Option.getD_some] at same
    exact ⟨checked, same⟩
  obtain ⟨checkedFirst, rfl⟩ := inversion encodedFirst
  obtain ⟨checkedSecond, rfl⟩ := inversion encodedSecond
  have types := (checkedCells_types checkedFirst).2.trans (checkedCells_types checkedSecond).2.symm
  obtain ⟨order, compared⟩ := compareCells_total types
  have meaning := compareCells_order compared
  rw [compared]
  cases order with
  | lt =>
    have less := CellsLess.lt meaning (schema.keyHead indexNo) [0x00] [0x00]
    refine ⟨by rw [(cmp_eq_lt_iff _ _).mpr less], fun same => absurd same less.ne, fun same => ?_⟩
    rw [same, compareCells_self] at compared
    contradiction
  | eq =>
    rw [show first.pick index = second.pick index from meaning]
    exact ⟨by rw [cmp_self_eq_eq], iff_of_true rfl rfl⟩
  | gt =>
    have more := CellsLess.lt meaning (schema.keyHead indexNo) [0x00] [0x00]
    refine ⟨by rw [(cmp_eq_gt_iff _ _).mpr more], fun same => absurd same more.ne', fun same => ?_⟩
    rw [same, compareCells_self] at compared
    contradiction

/-- A table of a string and an integer, both in the key. -/
def mixedSchema : Schema := ⟨1, [0x74], [⟨[0x61], .str⟩, ⟨[0x62], .i64⟩], [[0, 1]]⟩

/-- A string that ends before a zero byte comes first, whatever the next cell. -/
theorem encodeKey_order_zeroByte : compareCells [.str [0x61], .i64 5] [.str [0x61, 0x00], .i64 (-5)] =
        some (cmp (mixedSchema.rowKey 0 [.str [0x61], .i64 5]) (mixedSchema.rowKey 0 [.str [0x61, 0x00], .i64 (-5)])) ∧
      compareCells [.str [0x61], .i64 5] [.str [0x61, 0x00], .i64 (-5)] = some .lt :=
  ⟨(@encodeKey_order mixedSchema 0 [0, 1] [.str [0x61], .i64 5] [.str [0x61, 0x00], .i64 (-5)] _ _ rfl
    (by decide) (by decide)).1, by decide⟩

end Schema

end PallasDB
