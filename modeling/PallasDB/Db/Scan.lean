import PallasDB.Db.PlanTruth
import PallasDB.Db.KVReads

/-! # Table scans

A scan walks the keys of one index between two bounds, decodes each key into a row, reads the rest of the row from
the primary index and keeps the rows that match a condition. On a table whose index entries match its rows, a scan
visits each row of its range once, and so the plan chosen for a condition does not change the rows it finds.
-/

namespace PallasDB

open SortedRun OrderCode

/-! ## Reading rows -/

/-- `DBTX.Select`: read the row with the primary key of a row. -/
def select (kv : KV) (tx : KVTX) (schema : Schema) (row : Row) : Except DBError (Option Row) :=
  match row.encodeKey schema 0 with
  | .error err => .error err
  | .ok key =>
      match kv.get tx key with
      | .error err => .error (.tx err)
      | .ok none => .ok none
      | .ok (some val) => (row.decodeVal schema val).map some

structure RowIterator where
  schema : Schema
  indexNo : ℕ
  iter : KV.RangedKVIter
  valid : Bool
  row : Row

/-- The row of a slot, decoded into a row that is used again. -/
def decodeSlot (kv : KV) (tx : KVTX) (schema : Schema) (indexNo : ℕ) (into : Row) (slot : KVSlot) :
    Except DBError Row :=
  match into.decodeKey schema indexNo slot.key with
  | .error err => .error err
  | .ok row =>
      if 0 < indexNo then
        match select kv tx schema row with
        | .error err => .error err
        | .ok none => .error .inconsistentIndex
        | .ok (some row) => .ok row
      else row.decodeVal schema (slot.val.getD [])

namespace RowIterator

def decodeKVIter (kv : KV) (tx : KVTX) (iter : RowIterator) : Except DBError RowIterator :=
  match iter.iter.slot? with
  | none => .ok { iter with valid := false }
  | some slot =>
      match decodeSlot kv tx iter.schema iter.indexNo iter.row slot with
      | .error err => .error err
      | .ok row => .ok { iter with valid := true, row := row }

def next (kv : KV) (tx : KVTX) (iter : RowIterator) : Except DBError RowIterator :=
  decodeKVIter kv tx { iter with iter := iter.iter.next }

end RowIterator

/-- `DBTX.Range`. -/
def range (kv : KV) (tx : KVTX) (schema : Schema) (req : RangeReq) : Except DBError RowIterator :=
  match suffixPositive req.startCmp, suffixPositive req.stopCmp with
  | some startPos, some stopPos =>
      if isDescending req.startCmp = isDescending req.stopCmp then .error .invalidRange
      else
        match schema.encodeKeyPrefix req.indexNo req.start startPos with
        | .error err => .error err
        | .ok start =>
            match schema.encodeKeyPrefix req.indexNo req.stop stopPos with
            | .error err => .error err
            | .ok stop =>
                match kv.range tx start stop (isDescending req.startCmp) with
                | .error err => .error (.tx err)
                | .ok ranged => RowIterator.decodeKVIter kv tx ⟨schema, req.indexNo, ranged, false, schema.newRow⟩
  | _, _ => .error .invalidRange

/-- The matching rows of a loop `for iter.Valid() { ... iter.Next() }`, or `none` if the given rounds are too few. -/
def scanLoop (kv : KV) (tx : KVTX) (residual : Option Expr) : ℕ → RowIterator → Option (Except DBError (List Row))
  | 0, iter => if iter.valid then none else some (.ok [])
  | rounds + 1, iter =>
      if !iter.valid then some (.ok [])
      else
        match matchRow iter.schema iter.row residual with
        | .error err => some (.error err)
        | .ok keep =>
            match iter.next kv tx with
            | .error err => some (.error err)
            | .ok following => (scanLoop kv tx residual rounds following).map
                (Except.map fun rest => if keep then iter.row :: rest else rest)

/-- The rows of a range that match a condition. -/
def scan (kv : KV) (tx : KVTX) (schema : Schema) (req : RangeReq) (residual : Option Expr) (rounds : ℕ) :
    Option (Except DBError (List Row)) :=
  match range kv tx schema req with
  | .error err => some (.error err)
  | .ok iter => scanLoop kv tx residual rounds iter

/-! ## Contents -/

/-- The keys of a table hold these rows: each row once under every index, and nothing else. -/
structure Schema.Holds (schema : Schema) (view : KVMap) (rows : Set Row) : Prop where
  storable : ∀ row ∈ rows, schema.Storable row
  primary : ∀ key val, schema.keyHead 0 <+: key →
    (view key = some val ↔ ∃ row ∈ rows, row.encodeKey schema 0 = .ok key ∧ row.encodeVal schema = .ok val)
  secondary : ∀ indexNo, 0 < indexNo → indexNo < schema.indices.length → ∀ key, schema.keyHead indexNo <+: key →
    ((view key).isSome = true ↔ ∃ row ∈ rows, row.encodeKey schema indexNo = .ok key)

/-- The same for rows of any size. -/
structure Schema.Entries (schema : Schema) (view : KVMap) (rows : Set Row) : Prop where
  typed : ∀ row ∈ rows, schema.Typed row
  primary : ∀ key val, schema.keyHead 0 <+: key →
    (view key = some val ↔ ∃ row ∈ rows, row.encodeKey schema 0 = .ok key ∧ row.encodeVal schema = .ok val)
  secondary : ∀ indexNo, 0 < indexNo → indexNo < schema.indices.length → ∀ key, schema.keyHead indexNo <+: key →
    ((view key).isSome = true ↔ ∃ row ∈ rows, row.encodeKey schema indexNo = .ok key)

section Contents

variable {schema : Schema} {view : KVMap} {rows : Set Row}

theorem Schema.Holds.entries (holds : schema.Holds view rows) : schema.Entries view rows :=
  ⟨fun row member => (holds.storable row member).typed, holds.primary, holds.secondary⟩

variable (created : schema.Created) (entries : schema.Entries view rows)

include created entries

theorem Schema.Entries.mem_view {row : Row} (member : row ∈ rows) :
    view (schema.rowKey 0 row) = some (schema.rowVal row) := by
  have typed := entries.typed row member
  refine (entries.primary _ _ ?_).mpr ⟨row, member, typed.encodeKey created.toValid created.positive,
    typed.encodeVal created.toValid⟩
  exact ⟨_, (List.append_assoc ..).symm⟩

/-- The entries of an index are the keys of the rows. -/
theorem Schema.Entries.entry_iff {indexNo : ℕ} (known : indexNo < schema.indices.length) {key : Bytes}
    (head : schema.keyHead indexNo <+: key) :
    (view key).isSome = true ↔ ∃ row ∈ rows, key = schema.rowKey indexNo row := by
  have encoded (row : Row) (member : row ∈ rows) :
      row.encodeKey schema indexNo = .ok key ↔ key = schema.rowKey indexNo row := by
    rw [(entries.typed row member).encodeKey created.toValid known, Except.ok.injEq, eq_comm]
  rcases Nat.eq_zero_or_pos indexNo with rfl | secondary
  · rw [Option.isSome_iff_exists]
    constructor
    · rintro ⟨val, shown⟩
      obtain ⟨row, member, own, _⟩ := (entries.primary key val head).mp shown
      exact ⟨row, member, (encoded row member).mp own⟩
    · rintro ⟨row, member, rfl⟩
      exact ⟨_, entries.mem_view created member⟩
  · rw [entries.secondary indexNo secondary known key head]
    exact exists_congr fun row => and_congr_right fun member => encoded row member

end Contents

/-- Only the columns of an index matter for its cells. -/
theorem Schema.checkedCells_congr {schema : Schema} {row other : Row} {index : List ℕ}
    (same : ∀ idx ∈ index, row[idx]? = other[idx]?) :
    schema.checkedCells row index = schema.checkedCells other index := by
  induction index with
  | nil => rfl
  | cons idx index ih =>
    rw [checkedCells, checkedCells, ih fun other member => same other (List.mem_cons_of_mem _ member), checkedCell,
      checkedCell, same idx List.mem_cons_self]

theorem Schema.Created.index_mem {schema : Schema} {indexNo : ℕ} (known : indexNo < schema.indices.length) :
    schema.indices.getD indexNo [] ∈ schema.indices := by
  rw [List.getD_eq_getElem?_getD, List.getElem?_eq_getElem known]
  exact List.getElem_mem known

section Decode

variable {schema : Schema} {row : Row} (created : schema.Created) (storable : schema.Storable row)

include created storable

/-- A row is complete once the columns of any index and those of the value are copied. -/
theorem Schema.Storable.fill_index {indexNo : ℕ} (known : indexNo < schema.indices.length) {into : Row}
    (size : into.length = schema.cols.length) :
    Row.fill (into.fill row (schema.indices.getD indexNo [])) row schema.valueCols = row := by
  rw [Row.fill_fill]
  refine Row.fill_eq_self (size.trans storable.typed.length_eq.symm) fun k inside => ?_
  rw [List.mem_append]
  by_cases key : k ∈ schema.pkey
  · exact .inl (created.covers _ (Schema.Created.index_mem known) k key)
  · refine .inr (List.mem_filter.mpr ⟨List.mem_range.mpr ?_, by simpa using key⟩)
    rwa [← storable.typed.length_eq]

/-- The entry of a row gives back the row. -/
theorem Schema.Storable.decodeSlot {kv : KV} {tx : KVTX} {view : KVMap} (reads : kv.Reads tx view)
    (stored : view (schema.rowKey 0 row) = some (schema.rowVal row)) {indexNo : ℕ}
    (known : indexNo < schema.indices.length) (small : indexNo < 128) {into : Row}
    (size : into.length = schema.cols.length) {val : Bytes} (shown : view (schema.rowKey indexNo row) = some val) :
    PallasDB.decodeSlot kv tx schema indexNo into ⟨schema.rowKey indexNo row, some val⟩ = .ok row := by
  have typed := storable.typed
  have filled : (into.fill row (schema.indices.getD indexNo [])).length = schema.cols.length := by
    rw [Row.length_fill, size]
  have whole : (into.fill row (schema.indices.getD indexNo [])).decodeVal schema (schema.rowVal row) = .ok row := by
    rw [typed.decodeVal created.toValid storable.sized filled, storable.fill_index created known size]
  rw [PallasDB.decodeSlot, typed.decodeKey created.toValid known small size]
  simp only
  split
  · have key : (into.fill row (schema.indices.getD indexNo [])).encodeKey schema 0 = .ok (schema.rowKey 0 row) := by
      have positive : 0 < schema.indices.length := by omega
      rw [← typed.encodeKey created.toValid positive, Row.encodeKey, Row.encodeKey, filled, typed.length_eq,
        List.getElem?_eq_getElem positive]
      simp only
      rw [Schema.checkedCells_congr fun idx member => ?_]
      rw [Row.getElem?_fill _ _ _ (size.trans typed.length_eq.symm), if_pos]
      refine created.covers _ (Schema.Created.index_mem known) idx ?_
      rw [Schema.pkey]
      cases listed : schema.indices with
      | nil => exact absurd listed created.keyed
      | cons first rest => simpa [listed] using member
    rw [select, key]
    simp only [reads.get, stored, whole, Except.map]
  · next primary =>
    obtain rfl : indexNo = 0 := by omega
    cases shown.symm.trans stored
    exact whole

end Decode

/-! ## Walking the range -/

/-- The slots an iterator still visits. -/
inductive Visits : KV.RangedKVIter → List KVSlot → Prop
  | done {ranged : KV.RangedKVIter} (off : ranged.slot? = none) : Visits ranged []
  | slot {ranged : KV.RangedKVIter} {slot : KVSlot} {slots : List KVSlot}
      (on : ranged.slot? = some slot) (rest : Visits ranged.next slots) : Visits ranged (slot :: slots)

variable {slots : List KVSlot}

theorem visits_of_collect {ranged : KV.RangedKVIter} {enough : ℕ}
    (collected : ∀ fuel, enough ≤ fuel → ranged.collect fuel = slots) : Visits ranged slots := by
  induction slots generalizing ranged with
  | nil =>
    have none := collected (enough + 1) (Nat.le_succ _)
    rw [KV.RangedKVIter.collect] at none
    split at none
    · contradiction
    · next off => exact .done off
  | cons slot slots ih =>
    have step (fuel : ℕ) (more : enough ≤ fuel) : ranged.slot? = some slot ∧ ranged.next.collect fuel = slots := by
      have some := collected (fuel + 1) (by omega)
      rw [KV.RangedKVIter.collect] at some
      split at some
      · next found on =>
        cases some
        exact ⟨on, rfl⟩
      · contradiction
    exact .slot (step enough le_rfl).1 (ih fun fuel more => (step fuel more).2)

/-- The rows of a list that match a condition. -/
def keepRows (schema : Schema) (residual : Option Expr) : List Row → Except DBError (List Row)
  | [] => .ok []
  | row :: rows =>
      match matchRow schema row residual with
      | .error err => .error err
      | .ok keep => (keepRows schema residual rows).map fun rest => if keep then row :: rest else rest

variable {found : List Row}

theorem keepRows_ok {schema : Schema} {residual : Option Expr} {kept : List Row}
    (result : keepRows schema residual found = .ok kept) :
    kept.Sublist found ∧ (∀ row ∈ found, ∃ truth, matchRow schema row residual = .ok truth) ∧
      ∀ row, row ∈ kept ↔ row ∈ found ∧ matchRow schema row residual = .ok true := by
  induction found generalizing kept with
  | nil => cases result; simp
  | cons row found ih =>
    rw [keepRows] at result
    split at result
    · contradiction
    · next keep matched =>
      cases rest : keepRows schema residual found with
      | error err => rw [rest] at result; contradiction
      | ok others =>
        rw [rest] at result
        cases result
        obtain ⟨sublist, defined, mem_iff⟩ := ih rest
        cases keep with
        | true =>
          grind
        | false =>
          grind

variable {iter : RowIterator}

section Walk

variable {kv : KV} {tx : KVTX} {schema : Schema} {indexNo : ℕ}

/-- A slot decodes to a row, whatever row it is decoded into. -/
def Decodes (kv : KV) (tx : KVTX) (schema : Schema) (indexNo : ℕ) (slot : KVSlot) (row : Row) : Prop :=
  row.length = schema.cols.length ∧
    ∀ into : Row, into.length = schema.cols.length → decodeSlot kv tx schema indexNo into slot = .ok row

/-- An iterator at the front of its slots. -/
private theorem decodeKVIter_visits {ranged : KV.RangedKVIter} (visits : Visits ranged slots)
    (decodes : List.Forall₂ (Decodes kv tx schema indexNo) slots found) (valid : Bool) (into : Row)
    (size : into.length = schema.cols.length) :
    ∃ row, RowIterator.decodeKVIter kv tx ⟨schema, indexNo, ranged, valid, into⟩ =
        .ok ⟨schema, indexNo, ranged, !found.isEmpty, row⟩ ∧ row.length = schema.cols.length ∧
      ∀ first rest, found = first :: rest → row = first := by
  cases visits with
  | done off =>
    cases decodes
    exact ⟨into, by simp [RowIterator.decodeKVIter, off], size, by simp⟩
  | slot on rest =>
    cases decodes with
    | cons own others =>
      refine ⟨_, ?_, own.1, fun first rest same => (List.cons.inj same).1⟩
      simp only [RowIterator.decodeKVIter, on, own.2 into size]
      rfl

/-- An iterator that will visit these rows. -/
structure Yields (kv : KV) (tx : KVTX) (iter : RowIterator) (found : List Row) : Prop where
  visits : ∃ slots, Visits iter.iter slots ∧ List.Forall₂ (Decodes kv tx iter.schema iter.indexNo) slots found
  valid : iter.valid = !found.isEmpty
  size : iter.row.length = iter.schema.cols.length
  front : ∀ first rest, found = first :: rest → iter.row = first

theorem Yields.next {first : Row} {rest : List Row} (yields : Yields kv tx iter (first :: rest)) :
    ∃ following, iter.next kv tx = .ok following ∧ following.schema = iter.schema ∧ Yields kv tx following rest := by
  obtain ⟨slots, visits, decodes⟩ := yields.visits
  cases decodes with
  | cons own others =>
    cases visits with
    | slot on later =>
      obtain ⟨row, step, size, front⟩ := decodeKVIter_visits later others iter.valid iter.row yields.size
      exact ⟨_, step, rfl, ⟨_, later, others⟩, rfl, size, front⟩

/-- A scan keeps the matching rows of its iterator. -/
private theorem scanLoop_yields (residual : Option Expr) (yields : Yields kv tx iter found) (rounds : ℕ) :
    (∀ result, scanLoop kv tx residual rounds iter = some result → result = keepRows iter.schema residual found) ∧
      (found.length ≤ rounds → (scanLoop kv tx residual rounds iter).isSome = true) := by
  induction found generalizing iter rounds with
  | nil =>
    have off : iter.valid = false := yields.valid
    cases rounds <;> simp [scanLoop, keepRows, off, eq_comm]
  | cons first rest ih =>
    have on : iter.valid = true := yields.valid
    have row := yields.front first rest rfl
    cases rounds with
    | zero => simp [scanLoop, on]
    | succ rounds =>
      obtain ⟨following, step, same, tail⟩ := yields.next
      obtain ⟨result, ends⟩ := ih tail rounds
      rw [same] at result
      simp only [scanLoop, on, row, Bool.not_true, Bool.false_eq_true, if_false, step, keepRows, List.length_cons,
        Nat.add_le_add_iff_right]
      cases matchRow iter.schema first residual with
      | error err => simp [eq_comm]
      | ok keep =>
        simp only [Option.map_eq_some_iff, Option.isSome_map]
        refine ⟨?_, ends⟩
        rintro _ ⟨kept, looped, rfl⟩
        rw [result kept looped]

end Walk

/-! ## Bounds of a request -/

variable {cells : List Cell}

private theorem checkBound_types {schema : Schema} {row : Row} (typed : schema.Typed row) {index : List ℕ}
    (fewer : cells.length ≤ index.length) (checked : schema.checkBound cells index = .ok ()) :
    ((row.pick index).take cells.length).map Cell.type = cells.map Cell.type := by
  induction cells generalizing index with
  | nil => rfl
  | cons cell cells ih =>
    cases index with
    | nil => simp at fewer
    | cons idx index =>
      rw [Schema.checkBound] at checked
      split at checked
      · contradiction
      · next col found =>
        split at checked
        · contradiction
        · next same =>
          obtain ⟨own, present, type⟩ := typed.cell found
          have rest := ih (by simpa using fewer) checked
          simp only [Row.pick, List.map_cons, List.length_cons, List.take_succ_cons, List.cons.injEq] at rest ⊢
          refine ⟨?_, rest⟩
          rw [List.getD_eq_getElem?_getD, present, Option.getD_some, type, not_not.mp same]

variable {indexNo : ℕ}

/-- An encoded bound cuts the keys where its operator cuts the rows. -/
theorem Schema.Typed.bound_iff {schema : Schema} {row : Row} (typed : schema.Typed row) {op : ExprOp} {positive : Bool}
    {bound : Bytes} (suffix : suffixPositive op = some positive)
    (encoded : schema.encodeKeyPrefix indexNo cells positive = .ok bound) :
    (if isDescending op then schema.rowKey indexNo row ≤ bound else bound ≤ schema.rowKey indexNo row) ↔
      Bounded op (indexCells schema indexNo row) cells := by
  rw [Schema.encodeKeyPrefix] at encoded
  split at encoded
  · contradiction
  · next index found =>
    have cols : schema.indices.getD indexNo [] = index := by
      rw [List.getD_eq_getElem?_getD, found, Option.getD_some]
    split at encoded
    · contradiction
    · next fewer =>
      cases checked : schema.checkBound cells index with
      | error err => rw [checked] at encoded; contradiction
      | ok =>
        rw [checked] at encoded
        cases encoded
        obtain ⟨order, compared⟩ := compareCells_total (checkBound_types typed (not_lt.mp fewer) checked)
        obtain ⟨less, different⟩ := key_lt_bound_iff (schema.keyHead indexNo) compared positive
        rw [Schema.rowKey, Bounded, indexCells, cols, compared, different.le_iff_lt, ← not_lt, less]
        cases op <;> cases suffix <;> cases order <;> simp [isDescending, cmpResult]

theorem Schema.encodeKeyPrefix_head {schema : Schema} {positive : Bool} {bound : Bytes}
    (encoded : schema.encodeKeyPrefix indexNo cells positive = .ok bound) :
    indexNo < schema.indices.length ∧ ∃ rest, bound = schema.keyHead indexNo ++ rest := by
  rw [Schema.encodeKeyPrefix] at encoded
  split at encoded
  · contradiction
  · next index found =>
    refine ⟨(List.getElem?_eq_some_iff.mp found).1, ?_⟩
    split at encoded
    · contradiction
    · cases checked : schema.checkBound cells index with
      | error err => rw [checked] at encoded; contradiction
      | ok =>
        rw [checked] at encoded
        cases encoded
        exact ⟨_, List.append_assoc ..⟩

variable {req : RangeReq}

/-- The keys between which a request walks: its bounds can be encoded, and they face each other. -/
structure RangeReq.Spans (req : RangeReq) (schema : Schema) (start stop : Bytes) : Prop where
  start : ∃ positive, suffixPositive req.startCmp = some positive ∧
    schema.encodeKeyPrefix req.indexNo req.start positive = .ok start
  stop : ∃ positive, suffixPositive req.stopCmp = some positive ∧
    schema.encodeKeyPrefix req.indexNo req.stop positive = .ok stop
  opposed : isDescending req.startCmp ≠ isDescending req.stopCmp

/-- `Range` opens only such requests. -/
theorem range_ok {kv : KV} {tx : KVTX} {schema : Schema} (opened : range kv tx schema req = .ok iter) :
    ∃ start stop, req.Spans schema start stop := by
  rw [range] at opened
  split at opened
  · next startSuffix stopSuffix =>
    split at opened
    · contradiction
    · next opposed =>
      split at opened
      · contradiction
      · next start startEncoded =>
        split at opened
        · contradiction
        · next stop stopEncoded =>
          exact ⟨start, stop, ⟨_, startSuffix, startEncoded⟩, ⟨_, stopSuffix, stopEncoded⟩, opposed⟩
  · contradiction

theorem RangeReq.Spans.heads {schema : Schema} {start stop : Bytes} (spans : req.Spans schema start stop) :
    req.indexNo < schema.indices.length ∧ (∃ rest, start = schema.keyHead req.indexNo ++ rest) ∧
      ∃ rest, stop = schema.keyHead req.indexNo ++ rest := by
  obtain ⟨⟨_, _, startEncoded⟩, ⟨_, _, stopEncoded⟩, _⟩ := spans
  obtain ⟨known, head⟩ := Schema.encodeKeyPrefix_head startEncoded
  exact ⟨known, head, (Schema.encodeKeyPrefix_head stopEncoded).2⟩

/-- The slots a range visits, in its order. -/
def rangeSlots (pairs : KVRun) (start stop : Bytes) (desc : Bool) : List KVSlot :=
  if desc then (pairs.filter fun slot => decide (stop ≤ slot.key ∧ slot.key ≤ start)).reverse
  else pairs.filter fun slot => decide (start ≤ slot.key ∧ slot.key ≤ stop)

theorem mem_rangeSlots {pairs : KVRun} {start stop : Bytes} {desc : Bool} {slot : KVSlot} :
    slot ∈ rangeSlots pairs start stop desc ↔
      slot ∈ pairs ∧ (if desc then stop else start) ≤ slot.key ∧ slot.key ≤ if desc then start else stop := by
  cases desc <;> simp [rangeSlots]

theorem rangeSlots_ordered {pairs : KVRun} (increasing : Increasing pairs) (start stop : Bytes) (desc : Bool) :
    ((rangeSlots pairs start stop desc).map Slot.key).Pairwise fun a b => if desc then b < a else a < b := by
  rw [List.pairwise_map]
  cases desc with
  | false => simpa [rangeSlots, Increasing] using increasing.filter _
  | true => simpa [rangeSlots, Increasing, List.pairwise_reverse] using increasing.filter _

section Scan

variable {schema : Schema} {kv : KV} {tx : KVTX} {view : KVMap} {rows : Set Row}

theorem range_visits (reads : kv.Reads tx view) {pairs : KVRun} (lists : Lists pairs view) {start stop : Bytes}
    (spans : req.Spans schema start stop) :
    ∃ ranged, Visits ranged (rangeSlots pairs start stop (isDescending req.startCmp)) ∧
      range kv tx schema req = RowIterator.decodeKVIter kv tx ⟨schema, req.indexNo, ranged, false, schema.newRow⟩ := by
  obtain ⟨⟨_, startSuffix, startEncoded⟩, ⟨_, stopSuffix, stopEncoded⟩, opposed⟩ := spans
  obtain ⟨ranged, opened, collected⟩ := reads.range pairs lists start stop (isDescending req.startCmp)
  refine ⟨ranged, visits_of_collect collected, ?_⟩
  simp only [range, startSuffix, stopSuffix, if_neg opposed, startEncoded, stopEncoded, opened]

/-- A slot of an index holds a row of the table. -/
private theorem slot_row (created : schema.Created) (reads : kv.Reads tx view) (entries : schema.Entries view rows)
    (known : indexNo < schema.indices.length) (small : indexNo < 128) {row : Row} (member : row ∈ rows)
    (storable : schema.Storable row) {val : Bytes} (shown : view (schema.rowKey indexNo row) = some val) :
    Decodes kv tx schema indexNo ⟨schema.rowKey indexNo row, some val⟩ row :=
  ⟨storable.typed.length_eq, fun _ size =>
    storable.decodeSlot created reads (entries.mem_view created member) known small size shown⟩

/-- The rows of the slots between two bounds. -/
private theorem range_rows (created : schema.Created) (reads : kv.Reads tx view) (entries : schema.Entries view rows)
    (known : indexNo < schema.indices.length) (small : indexNo < 128) {pairs : KVRun}
    (lists : Lists pairs view) {low high : Bytes} (lowHead : ∃ rest, low = schema.keyHead indexNo ++ rest)
    (highHead : ∃ rest, high = schema.keyHead indexNo ++ rest)
    (storable : ∀ row ∈ rows, low ≤ schema.rowKey indexNo row → schema.rowKey indexNo row ≤ high → schema.Storable row)
    (slots : List KVSlot) (inside : ∀ slot, slot ∈ slots ↔ slot ∈ pairs ∧ low ≤ slot.key ∧ slot.key ≤ high) :
    ∃ found : List Row, List.Forall₂ (Decodes kv tx schema indexNo) slots found ∧
      found.map (schema.rowKey indexNo) = slots.map Slot.key ∧
      ∀ row, row ∈ found ↔ row ∈ rows ∧ low ≤ schema.rowKey indexNo row ∧ schema.rowKey indexNo row ≤ high := by
  have entry (slot : KVSlot) (member : slot ∈ slots) :
      ∃ row ∈ rows, slot.key = schema.rowKey indexNo row ∧ Decodes kv tx schema indexNo slot row := by
    obtain ⟨listed, lower, upper⟩ := (inside slot).mp member
    obtain ⟨key, val⟩ := slot
    cases val with
    | none => exact absurd (lists.live _ listed) (by simp [Slot.live])
    | some val =>
      have shown := (lists.mem_iff key val).mp listed
      obtain ⟨⟨_, low⟩, ⟨_, high⟩⟩ := And.intro lowHead highHead
      have head : schema.keyHead indexNo <+: key := isPrefix_of_between (low ▸ lower) (high ▸ upper)
      obtain ⟨row, stored, rfl⟩ := (entries.entry_iff created known head).mp (by rw [shown]; rfl)
      exact ⟨row, stored, rfl, slot_row created reads entries known small stored
        (storable row stored lower upper) shown⟩
  choose! rowOf stored key decodes using entry
  refine ⟨slots.map rowOf, ?_, ?_, fun row => ?_⟩
  · rw [List.forall₂_map_right_iff, List.forall₂_same]
    exact decodes
  · rw [List.map_map]
    exact (List.map_congr_left key).symm
  · rw [List.mem_map]
    constructor
    · rintro ⟨slot, member, rfl⟩
      rw [← key slot member]
      exact ⟨stored slot member, ((inside slot).mp member).2⟩
    · rintro ⟨member, lower, upper⟩
      obtain ⟨val, shown⟩ := Option.isSome_iff_exists.mp
        ((entries.entry_iff created known ⟨_, (List.append_assoc ..).symm⟩).mpr ⟨row, member, rfl⟩)
      have present := (inside ⟨_, some val⟩).mpr ⟨(lists.mem_iff _ val).mpr shown, lower, upper⟩
      have size : schema.newRow.length = schema.cols.length := List.length_replicate ..
      have own := (slot_row created reads entries known small member (storable row member lower upper) shown).2
        schema.newRow size
      have other := (decodes _ present).2 schema.newRow size
      exact ⟨_, present, Except.ok.inj (other.symm.trans own)⟩

/-- The order in which a request visits the rows of its index. -/
def RangeReq.InOrder (req : RangeReq) (schema : Schema) (found : List Row) : Prop :=
  found.Pairwise fun a b =>
    if isDescending req.startCmp then schema.rowKey req.indexNo b < schema.rowKey req.indexNo a
    else schema.rowKey req.indexNo a < schema.rowKey req.indexNo b

theorem RangeReq.InOrder.nodup (order : req.InOrder schema found) : found.Nodup := by
  refine order.imp fun less same => ?_
  subst same
  split at less <;> exact lt_irrefl _ less

/-- `Range` with encodable bounds visits the rows of its range in order. -/
theorem range_yields (created : schema.Created) (few : schema.indices.length ≤ 128) (reads : kv.Reads tx view)
    (entries : schema.Entries view rows) {start stop : Bytes} (spans : req.Spans schema start stop)
    (storable : ∀ row ∈ rows, req.Contains schema row → schema.Storable row) :
    ∃ iter found, range kv tx schema req = .ok iter ∧ iter.schema = schema ∧ Yields kv tx iter found ∧
      req.InOrder schema found ∧ ∀ row, row ∈ found ↔ row ∈ rows ∧ req.Contains schema row := by
  obtain ⟨pairs, lists⟩ := reads.listed
  obtain ⟨ranged, visits, opened⟩ := range_visits reads lists spans
  obtain ⟨known, startHead, stopHead⟩ := spans.heads
  -- Both directions visit the keys between the lower and the upper bound.
  have contained (row : Row) (member : row ∈ rows) : req.Contains schema row ↔
      (if isDescending req.startCmp then stop else start) ≤ schema.rowKey req.indexNo row ∧
        schema.rowKey req.indexNo row ≤ if isDescending req.startCmp then start else stop := by
    obtain ⟨⟨_, startSuffix, startEncoded⟩, ⟨_, stopSuffix, stopEncoded⟩, opposed⟩ := spans
    rw [RangeReq.Contains, ← (entries.typed row member).bound_iff startSuffix startEncoded,
      ← (entries.typed row member).bound_iff stopSuffix stopEncoded, Bool.eq_not.mpr opposed.symm]
    cases isDescending req.startCmp <;> simp [and_comm]
  obtain ⟨found, decodes, keys, mem_iff⟩ := range_rows created reads entries known (known.trans_le few) lists
    (by split; exacts [stopHead, startHead]) (by split; exacts [startHead, stopHead])
    (fun row member lower upper => storable row member ((contained row member).mpr ⟨lower, upper⟩)) _
    fun _ => mem_rangeSlots
  have ordered := rangeSlots_ordered lists.increasing start stop (isDescending req.startCmp)
  rw [← keys, List.pairwise_map] at ordered
  obtain ⟨row, opening, size, front⟩ :=
    decodeKVIter_visits visits decodes false schema.newRow (List.length_replicate ..)
  refine ⟨_, found, opened.trans opening, rfl, ⟨⟨_, visits, decodes⟩, rfl, size, front⟩, ordered, fun row => ?_⟩
  exact (mem_iff row).trans (and_congr_right fun member => (contained row member).symm)

/-- A scan with encodable bounds visits the rows of its range in order and keeps those that match. -/
theorem scan_range (created : schema.Created) (few : schema.indices.length ≤ 128) (reads : kv.Reads tx view)
    (holds : schema.Holds view rows) {start stop : Bytes} (spans : req.Spans schema start stop)
    (residual : Option Expr) :
    ∃ found : List Row, req.InOrder schema found ∧ (∀ row, row ∈ found ↔ row ∈ rows ∧ req.Contains schema row) ∧
      (∀ rounds result, scan kv tx schema req residual rounds = some result → result = keepRows schema residual found) ∧
      ∀ rounds, found.length ≤ rounds → (scan kv tx schema req residual rounds).isSome = true := by
  obtain ⟨iter, found, opened, same, yields, order, mem_iff⟩ := range_yields created few reads holds.entries spans
    fun row member _ => holds.storable row member
  have loop := scanLoop_yields residual yields
  rw [same] at loop
  refine ⟨found, order, mem_iff, fun rounds => ?_, fun rounds => ?_⟩
  · rw [scan, opened]
    exact (loop rounds).1
  · rw [scan, opened]
    exact (loop rounds).2

/-- A scan fails at once, or it visits the rows of its range in order and keeps those that match. -/
theorem scan_rows (created : schema.Created) (few : schema.indices.length ≤ 128) (reads : kv.Reads tx view)
    (holds : schema.Holds view rows) (req : RangeReq) (residual : Option Expr) :
    (∃ err, ∀ rounds, scan kv tx schema req residual rounds = some (.error err)) ∨
      ∃ found : List Row, req.InOrder schema found ∧ (∀ row, row ∈ found ↔ row ∈ rows ∧ req.Contains schema row) ∧
        (∀ rounds result, scan kv tx schema req residual rounds = some result →
          result = keepRows schema residual found) ∧
        ∀ rounds, found.length ≤ rounds → (scan kv tx schema req residual rounds).isSome = true := by
  cases opened : range kv tx schema req with
  | error err => exact .inl ⟨err, fun _ => by rw [scan, opened]⟩
  | ok iter =>
    obtain ⟨_, _, spans⟩ := range_ok opened
    exact .inr (scan_range created few reads holds spans residual)

/-- The rows a plan finds are those of a full scan. -/
theorem plan_independent {stmt : StmtCreateTable} (accepted : stmt.schema = .ok schema)
    (few : schema.indices.length ≤ 128) (reads : kv.Reads tx view) (holds : schema.Holds view rows)
    (cond : Option Expr) :
    (∀ rounds others planned full,
        scan kv tx schema (planScan schema cond).req (planScan schema cond).residual rounds = some (.ok planned) →
        scan kv tx schema fullScanReq cond others = some (.ok full) →
        planned.Nodup ∧ full.Nodup ∧ ∀ row, row ∈ planned ↔ row ∈ full) ∧
      ∃ enough, ∀ rounds, enough ≤ rounds →
        (scan kv tx schema (planScan schema cond).req (planScan schema cond).residual rounds).isSome = true ∧
          (scan kv tx schema fullScanReq cond rounds).isSome = true := by
  have created := StmtCreateTable.schema_created accepted
  have plannedScan :=
    scan_rows created few reads holds (planScan schema cond).req (planScan schema cond).residual
  have fullScan := scan_rows created few reads holds fullScanReq cond
  constructor
  · intro rounds others planned full plannedOk fullOk
    rcases plannedScan with ⟨err, failed⟩ | ⟨visited, order, mem_iff, result, _⟩
    · exact nomatch (failed rounds).symm.trans plannedOk
    rcases fullScan with ⟨err, failed⟩ | ⟨every, everyOrder, every_iff, everyResult, _⟩
    · exact nomatch (failed others).symm.trans fullOk
    obtain ⟨sublist, defined, kept_iff⟩ := keepRows_ok (result rounds _ plannedOk).symm
    obtain ⟨everySublist, everyDefined, everyKept_iff⟩ := keepRows_ok (everyResult others _ fullOk).symm
    refine ⟨sublist.nodup order.nodup, everySublist.nodup everyOrder.nodup, fun row => ?_⟩
    have all : row ∈ every ↔ row ∈ rows := by rw [every_iff, and_iff_left contains_fullScanReq]
    rw [kept_iff, everyKept_iff, mem_iff, all]
    constructor
    · rintro ⟨⟨member, inside⟩, kept⟩
      obtain ⟨truth, whole⟩ := everyDefined row (all.mpr member)
      have same := (planScan_sound created (holds.storable row member).typed whole).2 inside true kept
      exact ⟨member, same ▸ whole⟩
    · rintro ⟨member, whole⟩
      obtain ⟨contained, decided⟩ := planScan_sound created (holds.storable row member).typed whole
      have inside := contained rfl
      obtain ⟨truth, kept⟩ := defined row ((mem_iff row).mpr ⟨member, inside⟩)
      exact ⟨⟨member, inside⟩, decided inside truth kept ▸ kept⟩
  · have finishes (req : RangeReq) (residual : Option Expr) : ∃ enough, ∀ rounds, enough ≤ rounds →
        (scan kv tx schema req residual rounds).isSome = true := by
      rcases scan_rows created few reads holds req residual with ⟨err, failed⟩ | ⟨visited, _, _, _, ends⟩
      · exact ⟨0, fun rounds _ => by rw [failed]; rfl⟩
      · exact ⟨visited.length, ends⟩
    obtain ⟨first, plannedEnds⟩ := finishes (planScan schema cond).req (planScan schema cond).residual
    obtain ⟨second, fullEnds⟩ := finishes fullScanReq cond
    exact ⟨max first second, fun rounds enough => ⟨plannedEnds rounds (le_of_max_le_left enough),
      fullEnds rounds (le_of_max_le_right enough)⟩⟩

end Scan

/-- A table of two integers with a second index on the second one. -/
def pairTable : StmtCreateTable := ⟨[0x74], [⟨[0x61], .i64⟩, ⟨[0x62], .i64⟩], [[0x61]], [[[0x62]]]⟩

def pairSchema : Schema := ⟨1, [0x74], [⟨[0x61], .i64⟩, ⟨[0x62], .i64⟩], [[0], [1, 0]]⟩

/-- Four rows; the second index has them in another order, and two share its first value. -/
def pairRows : List Row := [[.i64 1, .i64 2], [.i64 2, .i64 0], [.i64 3, .i64 2], [.i64 4, .i64 5]]

/-- The rows with their index entries. -/
def pairEntries : SortedArray :=
  pairRows.map (fun row => ⟨pairSchema.rowKey 0 row, some (pairSchema.rowVal row)⟩) ++
    [[.i64 2, .i64 0], [.i64 1, .i64 2], [.i64 3, .i64 2], [.i64 4, .i64 5]].map fun row =>
      ⟨pairSchema.rowKey 1 row, some []⟩

def pairTX : KVTX := ⟨0, none, [], [.source (.array pairEntries)], none⟩

def secondIsTwo : Expr := .binOp .eq (.name [0x62]) (.cell (.i64 2))

theorem visible_eq_some_iff {run : SortedArray} (sorted : Increasing run) {key val : Bytes} :
    visible [run] key = some val ↔ (⟨key, some val⟩ : KVSlot) ∈ run := by
  rw [visible, lookupLevels_cons, lookupLevels_nil, Option.or_none, Option.join_eq_some_iff, sorted.lookup_eq_some_iff]

/-- A run with the entries of these rows and no other entry of the table. -/
theorem pairRows_hold {run : SortedArray} (sorted : Increasing run) (stored : ∀ slot ∈ pairEntries, slot ∈ run)
    (only : ∀ slot ∈ run, ∀ i < 2, pairSchema.keyHead i <+: slot.key → slot ∈ pairEntries) :
    pairSchema.Holds (visible [run]) {row | row ∈ pairRows} where
  storable row member := by
    have typed : ∀ row ∈ pairRows, pairSchema.Typed row := by decide
    have fits : ∀ row ∈ pairRows,
        (pairSchema.rowKey 0 row).length + (pairSchema.rowVal row).length ≤ maxEntrySize := by decide
    exact ⟨typed row member, fits row member⟩
  primary key val head := by
    have entries : ∀ slot ∈ pairEntries, pairSchema.keyHead 0 <+: slot.key → ∃ row ∈ pairRows,
        row.encodeKey pairSchema 0 = .ok slot.key ∧ (row.encodeVal pairSchema).map some = .ok slot.val := by
      decide +kernel
    have rows : ∀ row ∈ pairRows, row.encodeKey pairSchema 0 = .ok (pairSchema.rowKey 0 row) ∧
        row.encodeVal pairSchema = .ok (pairSchema.rowVal row) ∧
        ⟨pairSchema.rowKey 0 row, some (pairSchema.rowVal row)⟩ ∈ pairEntries := by decide +kernel
    rw [visible_eq_some_iff sorted]
    constructor
    · intro member
      obtain ⟨row, among, keyed, valued⟩ := entries _ (only _ member 0 (by decide) head) head
      refine ⟨row, among, keyed, ?_⟩
      cases encoded : row.encodeVal pairSchema <;> simp_all [Except.map]
    · rintro ⟨row, among, keyed, valued⟩
      obtain ⟨key0, val0, member⟩ := rows row among
      cases key0.symm.trans keyed
      cases val0.symm.trans valued
      exact stored _ member
  secondary indexNo positive known key head := by
    obtain rfl : indexNo = 1 := by
      have two : pairSchema.indices.length = 2 := rfl
      omega
    have entries : ∀ slot ∈ pairEntries, pairSchema.keyHead 1 <+: slot.key → ∃ row ∈ pairRows,
        row.encodeKey pairSchema 1 = .ok slot.key := by decide +kernel
    have rows : ∀ row ∈ pairRows, row.encodeKey pairSchema 1 = .ok (pairSchema.rowKey 1 row) ∧
        ⟨pairSchema.rowKey 1 row, some []⟩ ∈ pairEntries := by decide +kernel
    rw [Option.isSome_iff_exists]
    constructor
    · rintro ⟨val, shown⟩
      have member := (visible_eq_some_iff sorted).mp shown
      exact entries _ (only _ member 1 (by decide) head) head
    · rintro ⟨row, among, keyed⟩
      obtain ⟨key1, member⟩ := rows row among
      cases key1.symm.trans keyed
      exact ⟨[], (visible_eq_some_iff sorted).mpr (stored _ member)⟩

/-- The plan on the second index finds the rows a full scan finds, in the order of that index. -/
theorem plan_independent_pairRows : ∃ planned full, (planScan pairSchema (some secondIsTwo)).req.indexNo = 1 ∧
    scan KV.empty pairTX pairSchema (planScan pairSchema (some secondIsTwo)).req
      (planScan pairSchema (some secondIsTwo)).residual 5 = some (.ok planned) ∧
    scan KV.empty pairTX pairSchema fullScanReq (some secondIsTwo) 5 = some (.ok full) ∧
    planned = [[.i64 1, .i64 2], [.i64 3, .i64 2]] ∧ planned.Nodup ∧ full.Nodup ∧
    ∀ row, row ∈ planned ↔ row ∈ full := by
  have planned : scan KV.empty pairTX pairSchema (planScan pairSchema (some secondIsTwo)).req
      (planScan pairSchema (some secondIsTwo)).residual 5 = some (.ok [[.i64 1, .i64 2], [.i64 3, .i64 2]]) := by
    decide +kernel
  have full : scan KV.empty pairTX pairSchema fullScanReq (some secondIsTwo) 5 =
      some (.ok [[.i64 1, .i64 2], [.i64 3, .i64 2]]) := by decide +kernel
  have accepted : pairTable.schema = .ok pairSchema := by decide
  have reads : KV.empty.Reads pairTX (visible [pairEntries]) := KV.reads_of_visible rfl (by decide +kernel) rfl
  have holds := pairRows_hold (by decide +kernel) (fun _ member => member) fun _ member _ _ _ => member
  have same := (plan_independent accepted (by decide) reads holds (some secondIsTwo)).1 5 5 _ _ planned full
  exact ⟨_, _, by decide, planned, full, rfl, same⟩

end PallasDB
