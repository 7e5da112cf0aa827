import PallasDB.Db.RowCodec
import PallasDB.Db.Scan

/-! # Stores with several tables

Table names are identifiers, so they hold no zero byte and the keys of two tables, or of two indices of one table,
never begin alike; the records of the engine begin with a zero byte. In a store of tables each table is therefore
alone in its part of the keyspace, and a range of one of its indices yields its own rows only.
-/

namespace PallasDB

/-! ## Names -/

def isAlpha (ch : UInt8) : Bool := decide (0x61 ≤ ch ||| 0x20 ∧ ch ||| 0x20 ≤ 0x7a)

def isDigit (ch : UInt8) : Bool := decide (0x30 ≤ ch ∧ ch ≤ 0x39)

def isNameStart (ch : UInt8) : Bool := isAlpha ch || ch == 0x5f

def isNameContinue (ch : UInt8) : Bool := isAlpha ch || isDigit ch || ch == 0x5f

/-- What the parser takes as a name. -/
def isName : Bytes → Bool
  | [] => false
  | ch :: rest => isNameStart ch && rest.all isNameContinue

/-- `ReservedKeyPrefix`: the bytes of `"\x00pallasdb\x00"`. -/
def reservedKeyHead : Bytes := [0x00, 0x70, 0x61, 0x6c, 0x6c, 0x61, 0x73, 0x64, 0x62, 0x00]

def isReservedKey (key : Bytes) : Bool := reservedKeyHead.isPrefixOf key

/-- The key of a schema record: the reserved head, `"schema\x00"` and the table name. -/
def schemaKey (table : Bytes) : Bytes := reservedKeyHead ++ [0x73, 0x63, 0x68, 0x65, 0x6d, 0x61, 0x00] ++ table

theorem isNameStart_continue {ch : UInt8} (start : isNameStart ch = true) : isNameContinue ch = true := by
  simp only [isNameStart, isNameContinue, Bool.or_eq_true] at start ⊢
  tauto

theorem zero_not_mem_name {name : Bytes} (named : isName name = true) : (0x00 : UInt8) ∉ name := by
  cases name with
  | nil => simp
  | cons ch rest =>
    rw [isName, Bool.and_eq_true] at named
    intro member
    rcases List.mem_cons.mp member with rfl | member
    · exact absurd (isNameStart_continue named.1) (by decide)
    · exact absurd (List.all_eq_true.mp named.2 _ member) (by decide)

/-- Strings up to a zero byte are told apart by what follows them. -/
theorem eq_of_isPrefix_zero {first second : Bytes} {i : UInt8} {rest : Bytes} (firstFree : (0x00 : UInt8) ∉ first)
    (secondFree : (0x00 : UInt8) ∉ second) (head : first ++ [0x00, i] <+: second ++ 0x00 :: rest) :
    first = second ∧ [i] <+: rest := by
  induction first generalizing second with
  | nil =>
    cases second with
    | nil => exact ⟨rfl, (List.prefix_cons_inj _).mp head⟩
    | cons ch second =>
      obtain ⟨_, same⟩ := head
      exact absurd List.mem_cons_self ((List.cons.inj same).1 ▸ secondFree)
  | cons own first ih =>
    cases second with
    | nil =>
      obtain ⟨_, same⟩ := head
      exact absurd List.mem_cons_self ((List.cons.inj same).1 ▸ firstFree)
    | cons ch second =>
      obtain ⟨tail, whole⟩ := head
      obtain ⟨rfl, same⟩ := List.cons.inj whole
      obtain ⟨rfl, last⟩ := ih (fun member => firstFree (List.mem_cons_of_mem _ member))
        (fun member => secondFree (List.mem_cons_of_mem _ member)) ⟨tail, same⟩
      exact ⟨rfl, last⟩

variable {schema : Schema} {indexNo : ℕ}

/-- The keys of a table are not those of the engine. -/
theorem Schema.reserved_head (named : isName schema.table = true) {key : Bytes}
    (head : schema.keyHead indexNo <+: key) : isReservedKey key = false := by
  have free := zero_not_mem_name named
  obtain ⟨rest, rfl⟩ := head
  cases name : schema.table with
  | nil => rw [name] at named; contradiction
  | cons ch others =>
    rw [name] at free
    have first : ch ≠ 0x00 := fun zero => free (zero ▸ List.mem_cons_self)
    have differs : ((0x00 : UInt8) == ch) = false := beq_eq_false_iff_ne.mpr (Ne.symm first)
    simp only [isReservedKey, reservedKeyHead, Schema.keyHead, name, List.cons_append, List.isPrefixOf, differs,
      Bool.false_and]

theorem isReservedKey_schemaKey (table : Bytes) : isReservedKey (schemaKey table) = true := by
  rw [isReservedKey, schemaKey, List.append_assoc, List.isPrefixOf_iff_prefix]
  exact List.prefix_append ..

/-! ## Tables -/

structure Table where
  schema : Schema
  rows : Set Row

/-- A store whose keys are the entries of these tables, the records of the engine, and keys of no table. -/
structure HoldsTables (tables : Set Table) (view : KVMap) : Prop where
  created : ∀ table ∈ tables, ∃ stmt : StmtCreateTable, isName stmt.table = true ∧ stmt.schema = .ok table.schema
  distinct : ∀ table ∈ tables, ∀ other ∈ tables, table.schema.table = other.schema.table → table = other
  storable : ∀ table ∈ tables, ∀ row ∈ table.rows, table.schema.Storable row
  primary : ∀ table ∈ tables, ∀ row ∈ table.rows, ∀ key val, row.encodeKey table.schema 0 = .ok key →
    row.encodeVal table.schema = .ok val → view key = some val
  secondary : ∀ table ∈ tables, ∀ row ∈ table.rows, ∀ indexNo, 0 < indexNo → ∀ key,
    row.encodeKey table.schema indexNo = .ok key → (view key).isSome = true
  only : ∀ key, (view key).isSome = true → isReservedKey key = true ∨
    (∃ table ∈ tables, ∃ row ∈ table.rows, ∃ indexNo, row.encodeKey table.schema indexNo = .ok key) ∨
    ∀ table ∈ tables, ∀ indexNo, ¬ table.schema.keyHead indexNo <+: key

variable {table : Table}

section Store

variable {tables : Set Table} {view : KVMap} (store : HoldsTables tables view)

include store

section

variable (member : table ∈ tables)

include member

theorem HoldsTables.schema_created : table.schema.Created := by
  obtain ⟨stmt, _, made⟩ := store.created table member
  exact StmtCreateTable.schema_created made

theorem HoldsTables.zero_not_mem : (0x00 : UInt8) ∉ table.schema.table := by
  obtain ⟨stmt, named, made⟩ := store.created table member
  rw [StmtCreateTable.schema_table made]
  exact zero_not_mem_name named

theorem HoldsTables.reserved_head {key : Bytes} (head : table.schema.keyHead indexNo <+: key) :
    isReservedKey key = false := by
  obtain ⟨stmt, named, made⟩ := store.created table member
  rw [← StmtCreateTable.schema_table made] at named
  exact Schema.reserved_head named head

/-- An entry in the keyspace of an index is an entry of that index. -/
theorem HoldsTables.entry_of_head (known : indexNo < table.schema.indices.length)
    {key : Bytes} (head : table.schema.keyHead indexNo <+: key) (present : (view key).isSome = true) :
    ∃ row ∈ table.rows, row.encodeKey table.schema indexNo = .ok key := by
  rcases store.only key present with reserved | ⟨other, otherMember, row, stored, otherNo, encoded⟩ | foreign
  · rw [store.reserved_head member head] at reserved
    contradiction
  · have otherKnown : otherNo < other.schema.indices.length := by
      rw [Row.encodeKey] at encoded
      split at encoded
      · contradiction
      · split at encoded
        · contradiction
        · next found => exact (List.getElem?_eq_some_iff.mp found).1
    have created := store.schema_created member
    have otherCreated := store.schema_created otherMember
    rw [(store.storable other otherMember row stored).typed.encodeKey otherCreated.toValid otherKnown] at encoded
    cases encoded
    rw [Schema.keyHead, Schema.rowKey, Schema.keyHead, List.append_assoc, List.append_assoc] at head
    obtain ⟨same, last⟩ := eq_of_isPrefix_zero (store.zero_not_mem member) (store.zero_not_mem otherMember) head
    obtain rfl := store.distinct table member other otherMember same
    obtain ⟨_, first⟩ := last
    have bytes := congrArg UInt8.toNat (List.cons.inj first).1
    rw [UInt8.toNat_ofNat', UInt8.toNat_ofNat', Nat.mod_eq_of_lt (known.trans_le created.countable),
      Nat.mod_eq_of_lt (otherKnown.trans_le created.countable)] at bytes
    subst bytes
    exact ⟨row, stored, (store.storable table member row stored).typed.encodeKey created.toValid known⟩
  · exact absurd head (foreign table member indexNo)

/-- Each table is alone in its part of the keyspace. -/
theorem HoldsTables.holds : table.schema.Holds view table.rows := by
  have created := store.schema_created member
  refine ⟨store.storable table member, fun key val head => ?_, fun indexNo positive inside key head => ?_⟩
  · constructor
    · intro shown
      obtain ⟨row, stored, encoded⟩ := store.entry_of_head member created.positive head (by rw [shown]; rfl)
      have valued := (store.storable table member row stored).typed.encodeVal created.toValid
      have own := store.primary table member row stored key _ encoded valued
      rw [shown, Option.some.injEq] at own
      subst own
      exact ⟨row, stored, encoded, valued⟩
    · rintro ⟨row, stored, encoded, valued⟩
      exact store.primary table member row stored key val encoded valued
  · constructor
    · exact store.entry_of_head member inside head
    · rintro ⟨row, stored, encoded⟩
      exact store.secondary table member row stored indexNo positive key encoded

end

end Store

/-! ## Ranges -/

/-- Cells of the types of the leading columns of an index. -/
def Schema.Fitting (schema : Schema) (indexNo : ℕ) (cells : List Cell) : Prop :=
  cells.map (fun cell => some cell.type) =
    ((schema.indices.getD indexNo []).take cells.length).map fun idx => (schema.cols[idx]?).map Column.type

instance (schema : Schema) (indexNo : ℕ) (cells : List Cell) : Decidable (schema.Fitting indexNo cells) :=
  inferInstanceAs (Decidable (_ = _))

private theorem checkBound_fitting {cells : List Cell} {index : List ℕ}
    (fitting : cells.map (fun cell => some cell.type) =
      (index.take cells.length).map fun idx => (schema.cols[idx]?).map Column.type) :
    cells.length ≤ index.length ∧ schema.checkBound cells index = .ok () := by
  induction cells generalizing index with
  | nil => exact ⟨Nat.zero_le _, by cases index <;> rfl⟩
  | cons cell cells ih =>
    cases index with
    | nil => contradiction
    | cons idx index =>
      simp only [List.map_cons, List.length_cons, List.take_succ_cons, List.cons.injEq] at fitting
      obtain ⟨type, rest⟩ := fitting
      obtain ⟨fewer, checked⟩ := ih rest
      obtain ⟨col, found, same⟩ := Option.map_eq_some_iff.mp type.symm
      refine ⟨Nat.succ_le_succ fewer, ?_⟩
      rw [Schema.checkBound, found]
      simp only [same, ne_eq, not_true_eq_false, if_false, checked]

theorem Schema.Fitting.encodeKeyPrefix {cells : List Cell} (fitting : schema.Fitting indexNo cells)
    (known : indexNo < schema.indices.length) (positive : Bool) :
    ∃ bound, schema.encodeKeyPrefix indexNo cells positive = .ok bound := by
  have index : schema.indices[indexNo]? = some (schema.indices.getD indexNo []) := by
    rw [List.getD_eq_getElem?_getD, List.getElem?_eq_getElem known, Option.getD_some]
  obtain ⟨fewer, checked⟩ := checkBound_fitting fitting
  refine ⟨schema.keyHead indexNo ++ cells.flatMap Cell.keyCode ++ if positive then [0xff] else [], ?_⟩
  rw [Schema.encodeKeyPrefix, index]
  simp only [if_neg (not_lt.mpr fewer), checked, Except.map]

theorem keepRows_none (schema : Schema) (found : List Row) : keepRows schema none found = .ok found := by
  induction found with
  | nil => rfl
  | cons row found ih =>
    rw [keepRows, matchRow, ih]
    rfl

/-- The order of two rows in an index. -/
def indexOrder (schema : Schema) (indexNo : ℕ) (first second : Row) : Option Ordering :=
  compareCells (indexCells schema indexNo first) (indexCells schema indexNo second)

/-- A range yields the rows of its table between its bounds, each once and in order. -/
theorem range_exact {tables : Set Table} {view : KVMap} {kv : KV} {tx : KVTX} {table : Table}
    (store : HoldsTables tables view) (member : table ∈ tables) (few : table.schema.indices.length ≤ 128)
    (reads : kv.Reads tx view) {req : RangeReq} (known : req.indexNo < table.schema.indices.length)
    (bounds : (suffixPositive req.startCmp).isSome = true ∧ (suffixPositive req.stopCmp).isSome = true)
    (opposed : isDescending req.startCmp ≠ isDescending req.stopCmp)
    (startFits : table.schema.Fitting req.indexNo req.start) (stopFits : table.schema.Fitting req.indexNo req.stop) :
    ∃ found : List Row,
      (∀ rounds, found.length ≤ rounds → scan kv tx table.schema req none rounds = some (.ok found)) ∧ found.Nodup ∧
      (∀ row, row ∈ found ↔ row ∈ table.rows ∧ req.Contains table.schema row) ∧
      found.Pairwise fun first second => indexOrder table.schema req.indexNo first second =
        some (if isDescending req.startCmp then .gt else .lt) := by
  have created := store.schema_created member
  obtain ⟨startPos, startSuffix⟩ := Option.isSome_iff_exists.mp bounds.1
  obtain ⟨stopPos, stopSuffix⟩ := Option.isSome_iff_exists.mp bounds.2
  obtain ⟨start, startEncoded⟩ := startFits.encodeKeyPrefix known startPos
  obtain ⟨stop, stopEncoded⟩ := stopFits.encodeKeyPrefix known stopPos
  obtain ⟨found, order, mem_iff, result, ends⟩ := scan_range created few reads (store.holds member)
    ⟨⟨_, startSuffix, startEncoded⟩, ⟨_, stopSuffix, stopEncoded⟩, opposed⟩ none
  refine ⟨found, fun rounds enough => ?_, order.nodup, mem_iff, ?_⟩
  · obtain ⟨rows, scanned⟩ := Option.isSome_iff_exists.mp (ends rounds enough)
    rw [scanned, result rounds rows scanned, keepRows_none]
  · have index : table.schema.indices[req.indexNo]? = some (table.schema.indices.getD req.indexNo []) := by
      rw [List.getD_eq_getElem?_getD, List.getElem?_eq_getElem known, Option.getD_some]
    have key (row : Row) (inside : row ∈ found) :
        row.encodeKey table.schema req.indexNo = .ok (table.schema.rowKey req.indexNo row) :=
      (store.storable table member row ((mem_iff row).mp inside).1).typed.encodeKey created.toValid known
    refine List.Pairwise.imp_of_mem (fun firstIn secondIn less => ?_) order
    have compared := (Schema.encodeKey_order index (key _ firstIn) (key _ secondIn)).1
    rw [indexOrder, indexCells, indexCells, compared]
    split at less
    · next desc => rw [if_pos desc, (cmp_eq_gt_iff _ _).mpr less]
    · next asc => rw [if_neg asc, (cmp_eq_lt_iff _ _).mpr less]

def filledPairs : Table := ⟨pairSchema, {row | row ∈ pairRows}⟩

private theorem filledPairs_store : HoldsTables {filledPairs} (visible [pairEntries]) := by
  have sorted : SortedRun.Increasing pairEntries := by decide +kernel
  have holds := pairRows_hold sorted (fun _ member => member) fun _ member _ _ _ => member
  have keyed : ∀ row ∈ pairRows, ∀ i < 2, row.encodeKey pairSchema i = .ok (pairSchema.rowKey i row) ∧
      pairSchema.keyHead i <+: pairSchema.rowKey i row := by decide +kernel
  have entries : ∀ slot ∈ pairEntries, ∃ row ∈ pairRows, ∃ i < 2, row.encodeKey pairSchema i = .ok slot.key := by
    decide +kernel
  refine ⟨?_, ?_, ?_, ?_, ?_, ?_⟩
  · rintro table rfl
    exact ⟨pairTable, by decide, by decide⟩
  · rintro table rfl other rfl _
    rfl
  · rintro table rfl row member
    exact holds.storable row member
  · rintro table rfl row member key val encoded valued
    obtain ⟨key0, head⟩ := keyed row member 0 (by decide)
    cases key0.symm.trans encoded
    exact (holds.primary _ val head).mpr ⟨row, member, encoded, valued⟩
  · rintro table rfl row member indexNo positive key encoded
    by_cases known : indexNo < 2
    · obtain ⟨key1, head⟩ := keyed row member indexNo known
      cases key1.symm.trans encoded
      exact (holds.secondary indexNo positive known _ head).mpr ⟨row, member, encoded⟩
    · have beyond : pairSchema.indices[indexNo]? = none := List.getElem?_eq_none (Nat.not_lt.mp known)
      simp [Row.encodeKey, filledPairs, beyond] at encoded
  · intro key present
    obtain ⟨val, shown⟩ := Option.isSome_iff_exists.mp present
    obtain ⟨row, member, i, _, encoded⟩ := entries _ ((visible_eq_some_iff sorted).mp shown)
    exact .inr (.inl ⟨filledPairs, rfl, row, member, i, encoded⟩)

/-- The rows up to a bound of the second index, from the last one down. -/
def upToTwo : RangeReq := ⟨.le, .ge, [.i64 2], [], 1⟩

/-- Three of the rows are inside the bounds. -/
theorem range_exact_upToTwo : ∃ found : List Row,
    scan KV.empty pairTX pairSchema upToTwo none found.length = some (.ok found) ∧ found.Nodup ∧
    ∀ row, row ∈ found ↔ row ∈ pairRows ∧ row ≠ [.i64 4, .i64 5] := by
  have reads : KV.empty.Reads pairTX (visible [pairEntries]) := KV.reads_of_visible rfl (by decide +kernel) rfl
  obtain ⟨found, scanned, nodup, mem_iff, _⟩ := @range_exact {filledPairs} _ KV.empty pairTX filledPairs
    filledPairs_store rfl (by decide) reads upToTwo (by decide) (by decide) (by decide) (by decide) (by decide)
  have inside : ∀ row ∈ pairRows, (row ≠ [.i64 4, .i64 5] ↔ upToTwo.Contains pairSchema row) := by
    simp only [RangeReq.Contains, Bounded, ← Option.any_eq_true]
    decide +kernel
  exact ⟨found, scanned _ le_rfl, nodup, fun row =>
    (mem_iff row).trans (and_congr_right fun member => (inside row member).symm)⟩

end PallasDB
