import PallasDB.Db.Cell
import PallasDB.Db.KV

/-! # Schemas and rows

A table stores each row once under every index: the key has the table name, the index number, the cells of the index
columns and a zero byte, and the entry of the primary key has the remaining cells as its value. An encoded part of
an index key bounds the keys as the cells bound the row, so ranges of keys stand for comparisons of tuples.
-/

namespace PallasDB

open OrderCode

structure Column where
  name : Bytes
  type : CellType
deriving DecidableEq

structure Schema where
  version : ℤ
  table : Bytes
  cols : List Column
  /-- Column positions; the first index is the primary key. -/
  indices : List (List ℕ)
deriving DecidableEq

abbrev Row := List Cell

/-- The errors of the table layer. A failed `check` and an index out of range are `panic`. -/
inductive DBError where
  | panic
  | cell (err : CellError)
  | unsupportedVersion
  | corruptedSchema
  | unknownIndex
  | longKeyBound
  | keyBoundMismatch
  | outOfRange
  | badKey
  | trailingGarbage
  | duplicateTable
  | noColumn
  | noKeyColumn
  | columnNotFound
  | tooDeep
  | unknownColumn
  | badUnaryOp
  | tupleWithScalar
  | typeMismatch
  | stringTooLarge
  | divisionByZero
  | badBinaryOp
  | tupleNotValue
  | unsupportedExpr
  | arityMismatch
  | notBoolean
  | invalidRange
  | inconsistentIndex
  | tx (err : TXError)
deriving DecidableEq, Repr

/-! ## Schemas -/

def schemaVersion : ℤ := 1

namespace Schema

def validate (schema : Schema) : Except DBError Unit :=
  if schema.version ≠ schemaVersion then .error .unsupportedVersion
  else if schema.table = [] ∨ schema.cols = [] then .error .corruptedSchema
  else if schema.cols.any fun col => decide (col.name = []) then .error .corruptedSchema
  else if schema.indices = [] ∨ 256 < schema.indices.length then .error .corruptedSchema
  else if schema.indices.any fun index =>
      index.isEmpty || index.any fun idx => decide (schema.cols.length ≤ idx) then .error .corruptedSchema
  else .ok ()

def pkey (schema : Schema) : List ℕ := schema.indices.headD []

end Schema

structure StmtCreateTable where
  table : Bytes
  cols : List Column
  pkey : List Bytes
  indices : List (List Bytes)
deriving DecidableEq

/-- The first column of a name. -/
def columnNamed (cols : List Column) (name : Bytes) : Option ℕ := cols.findIdx? fun col => decide (col.name = name)

variable {cols : List Column}

theorem name_of_columnNamed {name : Bytes} {idx : ℕ} {col : Column} (named : columnNamed cols name = some idx)
    (found : cols[idx]? = some col) : col.name = name := by
  obtain ⟨inside, own, _⟩ := List.findIdx?_eq_some_iff_getElem.mp named
  rw [List.getElem?_eq_getElem inside, Option.some.injEq] at found
  subst found
  simpa using own

def lookupColumns (cols : List Column) : List Bytes → Except DBError (List ℕ)
  | [] => .ok []
  | name :: names =>
      match columnNamed cols name with
      | none => .error .columnNotFound
      | some idx => (lookupColumns cols names).map (idx :: ·)

def addPKeyToIndex (index pkey : List ℕ) : List ℕ :=
  pkey.foldl (fun index idx => if idx ∈ index then index else index ++ [idx]) index

/-- The loop of `execCreateTable` over the key and the indices. -/
def addIndices (cols : List Column) : List (List ℕ) → List (List Bytes) → Except DBError (List (List ℕ))
  | indices, [] => .ok indices
  | indices, names :: rest =>
      match lookupColumns cols names with
      | .error err => .error err
      | .ok index =>
          if index = [] then .error .noKeyColumn
          else
            let index := match indices with
              | [] => index
              | pkey :: _ => addPKeyToIndex index pkey
            addIndices cols (indices ++ [index]) rest

/-- The schema `execCreateTable` stores. -/
def StmtCreateTable.schema (stmt : StmtCreateTable) : Except DBError Schema :=
  if stmt.cols = [] then .error .noColumn
  else
    match addIndices stmt.cols [] (stmt.pkey :: stmt.indices) with
    | .error err => .error err
    | .ok indices =>
        let schema : Schema := ⟨schemaVersion, stmt.table, stmt.cols, indices⟩
        match schema.validate with
        | .error err => .error err
        | .ok () => .ok schema

/-- What `Validate` ensures for the encoders. -/
structure Schema.Valid (schema : Schema) : Prop where
  keyed : schema.indices ≠ []
  countable : schema.indices.length ≤ 256
  inRange : ∀ index ∈ schema.indices, ∀ idx ∈ index, idx < schema.cols.length

theorem Schema.valid_of_validate {schema : Schema} (valid : schema.validate = .ok ()) : schema.Valid := by
  simp only [Schema.validate] at valid
  repeat' (split at valid; · contradiction)
  next counted filled =>
  simp only [List.any_eq_true, Bool.or_eq_true, decide_eq_true_eq, not_exists, not_and, not_or, not_le] at filled
  exact ⟨(not_or.mp counted).1, not_lt.mp (not_or.mp counted).2,
    fun index member idx inside => (filled index member).2 idx inside⟩

/-- What holds of a schema made by `CREATE TABLE`. -/
structure Schema.Created (schema : Schema) : Prop extends schema.Valid where
  first : ∀ index ∈ schema.indices, ∀ idx ∈ index, ∀ col, schema.cols[idx]? = some col →
    columnNamed schema.cols col.name = some idx
  covers : ∀ index ∈ schema.indices, ∀ idx ∈ schema.pkey, idx ∈ index

theorem Schema.Created.positive {schema : Schema} (created : schema.Created) : 0 < schema.indices.length :=
  List.length_pos_iff.mpr created.keyed

variable {index : List ℕ}

private theorem lookupColumns_first {names : List Bytes} (found : lookupColumns cols names = .ok index) :
    ∀ idx ∈ index, ∃ name, columnNamed cols name = some idx := by
  induction names generalizing index with
  | nil => cases found; simp
  | cons name names ih =>
    rw [lookupColumns] at found
    split at found
    · contradiction
    · next idx named =>
      cases rest : lookupColumns cols names with
      | error err => simp [rest, Except.map] at found
      | ok others =>
        simp only [rest, Except.map, Except.ok.injEq] at found
        subst found
        intro other member
        rcases List.mem_cons.mp member with rfl | member
        · exact ⟨name, named⟩
        · exact ih rest other member

theorem mem_addPKeyToIndex {pkey : List ℕ} {idx : ℕ} : idx ∈ addPKeyToIndex index pkey ↔ idx ∈ index ∨ idx ∈ pkey := by
  induction pkey generalizing index with
  | nil => simp [addPKeyToIndex]
  | cons head rest ih =>
    rw [addPKeyToIndex, List.foldl_cons, ← addPKeyToIndex, ih]
    split
    · next present => grind
    · grind

/-- Indices found by name, each with the primary key in it. -/
private def Found (cols : List Column) (indices : List (List ℕ)) : Prop :=
  ∀ index ∈ indices, (∀ idx ∈ index, ∃ name, columnNamed cols name = some idx) ∧
    ∀ idx ∈ indices.headD [], idx ∈ index

private theorem addIndices_found {indices result : List (List ℕ)} {names : List (List Bytes)}
    (built : addIndices cols indices names = .ok result) (found : Found cols indices) : Found cols result := by
  induction names generalizing indices with
  | nil => cases built; exact found
  | cons columns rest ih =>
    rw [addIndices] at built
    split at built
    · contradiction
    · next index looked =>
      have named := lookupColumns_first looked
      split at built
      · contradiction
      · refine ih built ?_
        cases indices with
        | nil => simpa [Found] using named
        | cons pkey others =>
          intro other member
          rcases List.mem_append.mp member with old | new
          · exact found other old
          · obtain rfl := List.mem_singleton.mp new
            refine ⟨fun idx inside => ?_, fun idx inside => mem_addPKeyToIndex.mpr (.inr inside)⟩
            rcases mem_addPKeyToIndex.mp inside with own | key
            · exact named idx own
            · exact (found pkey List.mem_cons_self).1 idx key

variable {stmt : StmtCreateTable}

/-- What `execCreateTable` has checked before it stores a schema. -/
theorem StmtCreateTable.schema_eq_ok {schema : Schema} (made : stmt.schema = .ok schema) :
    stmt.cols ≠ [] ∧ schema.validate = .ok () ∧ ∃ indices,
      addIndices stmt.cols [] (stmt.pkey :: stmt.indices) = .ok indices ∧
        schema = ⟨schemaVersion, stmt.table, stmt.cols, indices⟩ := by
  rw [StmtCreateTable.schema] at made
  split at made
  · contradiction
  · next nonempty =>
    split at made
    · contradiction
    · next indices built =>
      dsimp only at made
      split at made
      · contradiction
      · next valid =>
        cases made
        exact ⟨nonempty, valid, indices, built, rfl⟩

theorem StmtCreateTable.schema_created {schema : Schema} (made : stmt.schema = .ok schema) : schema.Created := by
  obtain ⟨_, valid, indices, built, rfl⟩ := schema_eq_ok made
  have found := addIndices_found built (by simp [Found])
  refine ⟨Schema.valid_of_validate valid, ?_, fun index member => (found index member).2⟩
  intro index member idx inside col listed
  obtain ⟨name, named⟩ := (found index member).1 idx inside
  rw [name_of_columnNamed named listed, named]

theorem StmtCreateTable.schema_table {schema : Schema} (made : stmt.schema = .ok schema) :
    schema.table = stmt.table := by
  obtain ⟨_, _, _, _, rfl⟩ := schema_eq_ok made
  rfl

/-! ## Encoding -/

/-- A cell of the right type for its column. -/
def Schema.checkedCell (schema : Schema) (row : Row) (idx : ℕ) : Except DBError Cell :=
  match row[idx]?, schema.cols[idx]? with
  | some cell, some col => if cell.type = col.type then .ok cell else .error .panic
  | _, _ => .error .panic

def Schema.checkedCells (schema : Schema) (row : Row) : List ℕ → Except DBError (List Cell)
  | [] => .ok []
  | idx :: rest =>
      match schema.checkedCell row idx with
      | .error err => .error err
      | .ok cell => (schema.checkedCells row rest).map (cell :: ·)

/-- What the keys of an index begin with. -/
def Schema.keyHead (schema : Schema) (indexNo : ℕ) : Bytes := schema.table ++ [0x00, UInt8.ofNat indexNo]

def Row.encodeKey (row : Row) (schema : Schema) (indexNo : ℕ) : Except DBError Bytes :=
  if row.length ≠ schema.cols.length then .error .panic
  else
    match schema.indices[indexNo]? with
    | none => .error .panic
    | some index => (schema.checkedCells row index).map fun cells =>
        schema.keyHead indexNo ++ cells.flatMap Cell.keyCode ++ [0x00]

def Schema.checkBound (schema : Schema) : List Cell → List ℕ → Except DBError Unit
  | cell :: cells, idx :: index =>
      match schema.cols[idx]? with
      | none => .error .panic
      | some col => if cell.type ≠ col.type then .error .keyBoundMismatch else schema.checkBound cells index
  | _, _ => .ok ()

/-- The leading part of an index key, or what follows every key with that part. -/
def Schema.encodeKeyPrefix (schema : Schema) (indexNo : ℕ) (cells : List Cell) (positive : Bool) :
    Except DBError Bytes :=
  match schema.indices[indexNo]? with
  | none => .error .unknownIndex
  | some index =>
      if index.length < cells.length then .error .longKeyBound
      else (schema.checkBound cells index).map fun () =>
        schema.keyHead indexNo ++ cells.flatMap Cell.keyCode ++ if positive then [0xff] else []

/-- The columns that are not in the primary key. -/
def Schema.valueCols (schema : Schema) : List ℕ :=
  (List.range schema.cols.length).filter fun idx => decide (idx ∉ schema.pkey)

def Row.encodeVal (row : Row) (schema : Schema) : Except DBError Bytes :=
  if row.length ≠ schema.cols.length ∨ schema.indices = [] then .error .panic
  else (schema.checkedCells row schema.valueCols).map fun cells => cells.flatMap Cell.encodeVal

/-! ## Decoding -/

/-- Decode one cell after the other into the columns of a row. -/
def Schema.decodeCells (schema : Schema) (decode : CellType → Bytes → Except DBError (Cell × Bytes)) :
    List ℕ → Bytes → Row → Except DBError (Row × Bytes)
  | [], data, row => .ok (row, data)
  | idx :: rest, data, row =>
      match schema.cols[idx]? with
      | none => .error .panic
      | some col =>
          match decode col.type data with
          | .error err => .error err
          | .ok (cell, left) => schema.decodeCells decode rest left (row.set idx cell)

def decodeKeyCell (type : CellType) : Bytes → Except DBError (Cell × Bytes)
  | [] => .error .badKey
  | tag :: data =>
      if tag ≠ type.code then .error .badKey
      else
        match Cell.decodeKey type data with
        | .error err => .error (.cell err)
        | .ok decoded => .ok decoded

def decodeValCell (type : CellType) (data : Bytes) : Except DBError (Cell × Bytes) :=
  match Cell.decodeVal type data with
  | .error err => .error (.cell err)
  | .ok decoded => .ok decoded

/-- The conversion `string(byte(code))`, which is in UTF-8. -/
def stringOfByte (code : UInt8) : Bytes :=
  if code < 0x80 then [code] else [(0xc0 : UInt8) ||| (code >>> 6), (0x80 : UInt8) ||| (code &&& 0x3f)]

def Row.decodeKey (row : Row) (schema : Schema) (indexNo : ℕ) (key : Bytes) : Except DBError Row :=
  if row.length ≠ schema.cols.length then .error .panic
  else if key.length < schema.table.length + 2 then .error .outOfRange
  else if key.take (schema.table.length + 2) ≠ schema.table ++ 0x00 :: stringOfByte (UInt8.ofNat indexNo) then
    .error .outOfRange
  else
    match schema.indices[indexNo]? with
    | none => .error .panic
    | some index =>
        match schema.decodeCells decodeKeyCell index (key.drop (schema.table.length + 2)) row with
        | .error err => .error err
        | .ok (row, rest) => if rest = [0x00] then .ok row else .error .badKey

def Row.decodeVal (row : Row) (schema : Schema) (val : Bytes) : Except DBError Row :=
  if row.length ≠ schema.cols.length ∨ schema.indices = [] then .error .panic
  else
    match schema.decodeCells decodeValCell schema.valueCols val row with
    | .error err => .error err
    | .ok (row, rest) => if rest = [] then .ok row else .error .trailingGarbage

/-- A row to decode into. Every cell is set before it is read. -/
def Schema.newRow (schema : Schema) : Row := List.replicate schema.cols.length (.i64 0)

/-! ## Typed rows -/

/-- The cells of a row at some columns. -/
def Row.pick (row : Row) (index : List ℕ) : List Cell := index.map fun idx => row.getD idx (.i64 0)

/-- Copy the cells at some columns from another row. -/
def Row.fill (row source : Row) (index : List ℕ) : Row :=
  index.foldl (fun row idx => row.set idx (source.getD idx (.i64 0))) row

@[simp] theorem Row.length_fill (row source : Row) (index : List ℕ) : (row.fill source index).length = row.length := by
  induction index generalizing row with
  | nil => rfl
  | cons idx rest ih => rw [fill, List.foldl_cons, ← fill, ih, List.length_set]

theorem Row.getElem?_fill (row source : Row) (index : List ℕ) (same : row.length = source.length) (k : ℕ) :
    (row.fill source index)[k]? = if k ∈ index then source[k]? else row[k]? := by
  induction index generalizing row with
  | nil => rfl
  | cons idx rest ih =>
    rw [fill, List.foldl_cons, ← fill, ih _ (by rw [List.length_set, same])]
    grind

theorem Row.fill_fill (row source : Row) (first second : List ℕ) :
    (row.fill source first).fill source second = row.fill source (first ++ second) := by
  simp [fill]

/-- A row is copied once every column is. -/
theorem Row.fill_eq_self {row source : Row} (same : row.length = source.length) (all : ∀ k < source.length, k ∈ index) :
    row.fill source index = source := by
  refine List.ext_getElem? fun k => ?_
  rw [getElem?_fill _ _ _ same]
  split
  · rfl
  · next missing =>
    have outside : source.length ≤ k := not_lt.mp fun inside => missing (all k inside)
    rw [List.getElem?_eq_none (by omega), List.getElem?_eq_none outside]

namespace Schema

/-- A row with one cell of the right type for each column. -/
def Typed (schema : Schema) (row : Row) : Prop := row.map Cell.type = schema.cols.map Column.type

instance (schema : Schema) (row : Row) : Decidable (schema.Typed row) :=
  inferInstanceAs (Decidable (_ = _))

variable {schema : Schema} {row : Row}

theorem Typed.length_eq (typed : schema.Typed row) : row.length = schema.cols.length := by
  simpa using congrArg List.length typed

theorem Typed.cell {idx : ℕ} {col : Column} (typed : schema.Typed row) (found : schema.cols[idx]? = some col) :
    ∃ cell, row[idx]? = some cell ∧ cell.type = col.type := by
  have types : (row.map Cell.type)[idx]? = (schema.cols.map Column.type)[idx]? := by rw [typed]
  rw [List.getElem?_map, List.getElem?_map, found] at types
  exact Option.map_eq_some_iff.mp types

theorem Typed.checkedCells (typed : schema.Typed row) (inRange : ∀ idx ∈ index, idx < schema.cols.length) :
    schema.checkedCells row index = .ok (row.pick index) := by
  induction index with
  | nil => rfl
  | cons idx rest ih =>
    have found := List.getElem?_eq_getElem (inRange idx List.mem_cons_self)
    obtain ⟨cell, own, type⟩ := typed.cell found
    have checked : schema.checkedCell row idx = .ok cell := by
      rw [checkedCell, own, found]
      exact if_pos type
    rw [Schema.checkedCells, checked, ih fun other member => inRange other (List.mem_cons_of_mem _ member)]
    simp [Row.pick, Except.map, List.getD_eq_getElem?_getD, own]

/-- The key of a row in an index. -/
def rowKey (schema : Schema) (indexNo : ℕ) (row : Row) : Bytes :=
  schema.keyHead indexNo ++ (row.pick (schema.indices.getD indexNo [])).flatMap Cell.keyCode ++ [0x00]

/-- The value of a row in the primary index. -/
def rowVal (schema : Schema) (row : Row) : Bytes := (row.pick schema.valueCols).flatMap Cell.encodeVal

theorem inRange_valueCols : ∀ idx ∈ schema.valueCols, idx < schema.cols.length := by
  intro idx member
  exact List.mem_range.mp (List.mem_filter.mp member).1

theorem Valid.index_inRange (valid : schema.Valid) (indexNo : ℕ) :
    ∀ idx ∈ schema.indices.getD indexNo [], idx < schema.cols.length := by
  intro idx member
  rw [List.getD_eq_getElem?_getD] at member
  cases found : schema.indices[indexNo]? with
  | none => simp [found] at member
  | some index =>
    rw [found] at member
    exact valid.inRange index (List.mem_of_getElem? found) idx member

theorem Typed.encodeKey (typed : schema.Typed row) (valid : schema.Valid) {indexNo : ℕ}
    (known : indexNo < schema.indices.length) : row.encodeKey schema indexNo = .ok (schema.rowKey indexNo row) := by
  have found := List.getElem?_eq_getElem known
  have inRange := valid.index_inRange indexNo
  rw [Row.encodeKey, if_neg (not_not_intro typed.length_eq), found]
  rw [List.getD_eq_getElem?_getD, found, Option.getD_some] at inRange
  simp only [rowKey, List.getD_eq_getElem?_getD, found, Option.getD_some]
  rw [typed.checkedCells inRange]
  rfl

theorem Typed.encodeVal (typed : schema.Typed row) (valid : schema.Valid) :
    row.encodeVal schema = .ok (schema.rowVal row) := by
  rw [Row.encodeVal, if_neg (not_or.mpr ⟨not_not_intro typed.length_eq, valid.keyed⟩),
    typed.checkedCells inRange_valueCols]
  rfl

/-- Decoding undoes a code of single cells. -/
theorem Typed.decodeCells (typed : schema.Typed row) (code : Cell → Bytes)
    (decode : CellType → Bytes → Except DBError (Cell × Bytes)) (inRange : ∀ idx ∈ index, idx < schema.cols.length)
    (undone : ∀ cell ∈ row.pick index, ∀ rest, decode cell.type (code cell ++ rest) = .ok (cell, rest)) (into : Row)
    (rest : Bytes) :
    schema.decodeCells decode index ((row.pick index).flatMap code ++ rest) into = .ok (into.fill row index, rest) := by
  induction index generalizing into with
  | nil => rfl
  | cons idx others ih =>
    have found := List.getElem?_eq_getElem (inRange idx List.mem_cons_self)
    obtain ⟨cell, own, type⟩ := typed.cell found
    have front : row.pick (idx :: others) = cell :: row.pick others := by
      simp [Row.pick, List.getD_eq_getElem?_getD, own]
    have set : into.fill row (idx :: others) = Row.fill (into.set idx cell) row others := by
      simp [Row.fill, List.getD_eq_getElem?_getD, own]
    rw [front] at undone
    simp only [Schema.decodeCells, found, front, List.flatMap_cons, List.append_assoc, ← type,
      undone cell List.mem_cons_self]
    rw [set]
    exact ih (fun other member => inRange other (List.mem_cons_of_mem _ member))
      (fun other member => undone other (List.mem_cons_of_mem _ member)) _

theorem length_keyHead (schema : Schema) (indexNo : ℕ) : (schema.keyHead indexNo).length = schema.table.length + 2 := by
  simp [keyHead]

theorem keyHead_eq {indexNo : ℕ} (small : indexNo < 128) :
    schema.keyHead indexNo = schema.table ++ 0x00 :: stringOfByte (UInt8.ofNat indexNo) := by
  have below : UInt8.ofNat indexNo < 0x80 := by
    rw [UInt8.lt_iff_toNat_lt, UInt8.toNat_ofNat', Nat.mod_eq_of_lt (by omega)]
    exact small
  rw [keyHead, stringOfByte, if_pos below]

/-- The key of a row gives back the cells of the index. -/
theorem Typed.decodeKey (typed : schema.Typed row) (valid : schema.Valid) {indexNo : ℕ}
    (known : indexNo < schema.indices.length) (small : indexNo < 128) {into : Row}
    (size : into.length = schema.cols.length) :
    into.decodeKey schema indexNo (schema.rowKey indexNo row) =
      .ok (into.fill row (schema.indices.getD indexNo [])) := by
  have split : schema.rowKey indexNo row = schema.keyHead indexNo ++
      ((row.pick (schema.indices.getD indexNo [])).flatMap Cell.keyCode ++ [0x00]) := List.append_assoc ..
  have head := length_keyHead schema indexNo
  have index : schema.indices[indexNo]? = some (schema.indices.getD indexNo []) := by
    rw [List.getD_eq_getElem?_getD, List.getElem?_eq_getElem known, Option.getD_some]
  have decoded := typed.decodeCells Cell.keyCode decodeKeyCell (valid.index_inRange indexNo)
    (fun cell _ rest => by simp [decodeKeyCell, Cell.keyCode, Cell.decodeKey_encodeKey]) into [0x00]
  rw [Row.decodeKey, if_neg (not_not_intro size), split, if_neg (by rw [List.length_append]; omega),
    List.take_left' head, List.drop_left' head, if_neg (not_not_intro (keyHead_eq small)), index]
  simp only [decoded, if_pos]

/-- A row whose primary entry fits in a log record. -/
structure Storable (schema : Schema) (row : Row) : Prop where
  typed : schema.Typed row
  fits : (schema.rowKey 0 row).length + (schema.rowVal row).length ≤ maxEntrySize

theorem Storable.sized (storable : schema.Storable row) : ∀ cell ∈ row.pick schema.valueCols, cell.Sized := by
  intro cell member
  have fits := storable.fits
  have part : cell.encodeVal.length ≤ (schema.rowVal row).length := by
    obtain ⟨before, after, split⟩ := List.append_of_mem member
    simp only [rowVal, split, List.flatMap_append, List.flatMap_cons, List.length_append]
    omega
  cases cell with
  | i64 val => trivial
  | str val =>
    rw [Cell.encodeVal, List.length_append] at part
    simp only [Cell.Sized, maxEntrySize] at fits ⊢
    omega

/-- The value of a row gives back the other cells. -/
theorem Typed.decodeVal (typed : schema.Typed row) (valid : schema.Valid)
    (sized : ∀ cell ∈ row.pick schema.valueCols, cell.Sized) {into : Row} (size : into.length = schema.cols.length) :
    into.decodeVal schema (schema.rowVal row) = .ok (into.fill row schema.valueCols) := by
  have decoded := typed.decodeCells Cell.encodeVal decodeValCell inRange_valueCols
    (fun cell member rest => by simp [decodeValCell, Cell.decodeVal_encodeVal (sized cell member)]) into []
  rw [List.append_nil] at decoded
  rw [Row.decodeVal, if_neg (not_or.mpr ⟨not_not_intro size, valid.keyed⟩), rowVal]
  simp only [decoded, if_pos]

/-! ## Bounds -/

end Schema

/-- Compare two lists of cells at the first difference. -/
def compareCells : List Cell → List Cell → Option Ordering
  | [], [] => some .eq
  | left :: lefts, right :: rights =>
      match left.compare? right with
      | some .eq => compareCells lefts rights
      | other => other
  | _, _ => none

/-- Two lists of cells whose first difference is in favour of the second. -/
def CellsLess (left right : List Cell) : Prop :=
  ∃ common a b lefts rights, left = common ++ a :: lefts ∧ right = common ++ b :: rights ∧ a.compare? b = some .lt

/-- The meaning of a comparison. -/
def CellsOrder (left right : List Cell) : Ordering → Prop
  | .lt => CellsLess left right
  | .eq => left = right
  | .gt => CellsLess right left

private theorem CellsLess.cons {left right : List Cell} (less : CellsLess left right) (cell : Cell) :
    CellsLess (cell :: left) (cell :: right) := by
  obtain ⟨common, a, b, lefts, rights, rfl, rfl, below⟩ := less
  exact ⟨cell :: common, a, b, lefts, rights, rfl, rfl, below⟩

theorem compareCells_order {left right : List Cell} {order : Ordering}
    (compared : compareCells left right = some order) : CellsOrder left right order := by
  induction left generalizing right with
  | nil =>
    cases right with
    | nil => cases compared; exact Eq.refl []
    | cons => contradiction
  | cons a lefts ih =>
    cases right with
    | nil => contradiction
    | cons b rights =>
      rw [compareCells] at compared
      split at compared
      · next same =>
        obtain rfl := Cell.compare?_eq.mp same
        have rest := ih compared
        cases order with
        | lt => exact CellsLess.cons rest a
        | eq => exact congrArg (a :: ·) rest
        | gt => exact CellsLess.cons rest a
      · next different =>
        cases order with
        | lt => exact ⟨[], a, b, lefts, rights, rfl, rfl, compared⟩
        | eq => exact absurd compared different
        | gt => exact ⟨[], b, a, rights, lefts, rfl, rfl, by rw [Cell.compare?_swap a b, compared]; rfl⟩

theorem compareCells_self (cells : List Cell) : compareCells cells cells = some .eq := by
  induction cells with
  | nil => rfl
  | cons cell cells ih => rw [compareCells, Cell.compare?_eq.mpr rfl]; exact ih

/-- Lists of the same types compare. -/
theorem compareCells_total {left right : List Cell} (types : left.map Cell.type = right.map Cell.type) :
    ∃ order, compareCells left right = some order := by
  induction left generalizing right with
  | nil =>
    cases right with
    | nil => exact ⟨_, rfl⟩
    | cons => contradiction
  | cons a lefts ih =>
    cases right with
    | nil => contradiction
    | cons b rights =>
      simp only [List.map_cons, List.cons.injEq] at types
      obtain ⟨order, compared⟩ := Option.isSome_iff_exists.mp (Cell.compare?_isSome.mpr types.1)
      rw [compareCells, compared]
      cases order with
      | eq => exact ih types.2
      | lt => exact ⟨_, rfl⟩
      | gt => exact ⟨_, rfl⟩

theorem CellsLess.lt {left right : List Cell} (less : CellsLess left right) (head first second : Bytes) :
    head ++ left.flatMap Cell.keyCode ++ first < head ++ right.flatMap Cell.keyCode ++ second := by
  obtain ⟨common, a, b, lefts, rights, rfl, rfl, below⟩ := less
  rw [List.append_assoc, List.append_assoc]
  exact lex_append_left _ (Cell.keyCode_keeps.flatMap common below lefts rights first second)

/-- More cells never reach the byte that ends a bound. -/
theorem lex_rest_ff (cells : List Cell) : List.Lex (· < ·) (cells.flatMap Cell.keyCode ++ [0x00]) ([0xff] : Bytes) := by
  cases cells with
  | nil => exact .rel (by decide)
  | cons cell rest => cases cell <;> exact .rel (by simp [Cell.type, CellType.code])

/-- A key lies before a bound if its leading cells do, or if they are the cells of a bound that follows its keys. -/
theorem key_lt_bound_iff {own cells : List Cell} {order : Ordering} (head : Bytes)
    (compared : compareCells (own.take cells.length) cells = some order) (positive : Bool) :
    let key := head ++ own.flatMap Cell.keyCode ++ [0x00]
    let bound := head ++ cells.flatMap Cell.keyCode ++ if positive then [0xff] else []
    (key < bound ↔ order = .lt ∨ order = .eq ∧ positive = true) ∧ key ≠ bound := by
  intro key bound
  have split : key = head ++ (own.take cells.length).flatMap Cell.keyCode ++
      ((own.drop cells.length).flatMap Cell.keyCode ++ [0x00]) := by
    simp only [key]
    conv => lhs; rw [← List.take_append_drop cells.length own, List.flatMap_append]
    simp only [List.append_assoc]
  have meaning := compareCells_order compared
  cases order with
  | lt =>
    have less : key < bound := split ▸ CellsLess.lt meaning head _ _
    exact ⟨by simp [less], less.ne⟩
  | gt =>
    have more : bound < key := split ▸ CellsLess.lt meaning head _ _
    exact ⟨by simp [more.le], more.ne'⟩
  | eq =>
    rw [show own.take cells.length = cells from meaning] at split
    cases positive with
    | true =>
      have less : key < bound := split ▸ lex_append_left _ (lex_rest_ff _)
      exact ⟨by simp [less], less.ne⟩
    | false =>
      have more : bound < key := by
        rw [split]
        refine lex_append_left _ ?_
        cases (own.drop cells.length) <;> exact .nil
      exact ⟨by simp [more.le], more.ne'⟩

end PallasDB
