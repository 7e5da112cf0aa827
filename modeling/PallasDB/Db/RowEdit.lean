import PallasDB.Db.OpenTx

/-! # Rows by their primary keys

The entries of a table are those of a map from primary keys to rows. Every entry of a row holds its primary key, so the
entries of two rows are apart. Removing the entries of a row, or placing those of a row with a new primary key, changes
the map at that key.
-/

namespace PallasDB

open SortedRun

variable {row : Row}

namespace Schema

variable {schema : Schema}

/-! ## Keys -/

theorem keyHead_inj {i j : ℕ} {key : Bytes} (left : i < 256) (right : j < 256) (first : schema.keyHead i <+: key)
    (second : schema.keyHead j <+: key) : i = j := by
  have same : schema.keyHead i = schema.keyHead j :=
    List.prefix_of_prefix_length_le first second (by rw [length_keyHead, length_keyHead]) |>.eq_of_length
      (by rw [length_keyHead, length_keyHead])
  have bytes := (List.append_inj_right same rfl : [0x00, UInt8.ofNat i] = [0x00, UInt8.ofNat j])
  have numbers := congrArg UInt8.toNat (List.cons.inj (List.cons.inj bytes).2).1
  rwa [UInt8.toNat_ofNat', UInt8.toNat_ofNat', Nat.mod_eq_of_lt left, Nat.mod_eq_of_lt right] at numbers

/-- The keys of different indices are apart. -/
theorem rowKey_ne {i j : ℕ} {key : Bytes} (left : i < 256) (right : j < 256) (other : i ≠ j)
    (head : schema.keyHead i <+: key) (row : Row) : key ≠ schema.rowKey j row := by
  rintro rfl
  exact other (keyHead_inj left right head (keyHead_isPrefix schema j row))

theorem Created.primary_eq (created : schema.Created) : schema.indices[0]? = some schema.pkey := by
  cases listed : schema.indices with
  | nil => exact absurd listed created.keyed
  | cons first rest => simp [pkey, listed]

/-- A row whose keys can be encoded. -/
def Keyed (schema : Schema) (row : Row) : Prop :=
  ∀ i < schema.indices.length, row.encodeKey schema i = .ok (schema.rowKey i row)

theorem Typed.keyed (typed : schema.Typed row) (valid : schema.Valid) : schema.Keyed row :=
  fun _ known => typed.encodeKey valid known

/-- Every key of a row holds its primary key. -/
theorem Keyed.primary_eq {first second : Row} (left : schema.Keyed first) (right : schema.Keyed second)
    (created : schema.Created) {i : ℕ} (known : i < schema.indices.length)
    (same : schema.rowKey i first = schema.rowKey i second) : schema.rowKey 0 first = schema.rowKey 0 second := by
  have positive : 0 < schema.indices.length := by omega
  have cells := (encodeKey_order (List.getElem?_eq_getElem known) (left i known) (right i known)).2.mp same
  refine (encodeKey_order created.primary_eq (left 0 positive) (right 0 positive)).2.mpr ?_
  refine List.map_congr_left fun idx member => ?_
  exact List.map_inj_left.mp cells idx (created.covers _ (List.getElem_mem known) idx member)

/-! ## Edits of entries -/

/-- Writes to the keys of a row in some indices. -/
structure Touches (schema : Schema) (row : Row) (val : ℕ → Option Bytes) (indices : List ℕ) (edit : KVRun) :
    Prop where
  keys : ∀ i ∈ indices, lookup edit (schema.rowKey i row) = some (val i)
  rest : ∀ key, (∀ i ∈ indices, key ≠ schema.rowKey i row) → lookup edit key = none

theorem touches_nil (schema : Schema) (row : Row) (val : ℕ → Option Bytes) : schema.Touches row val [] [] :=
  ⟨by simp, fun _ _ => rfl⟩

/-- One more write before the others. -/
theorem Touches.cons {row : Row} {val : ℕ → Option Bytes} {indices : List ℕ} {edit : KVRun}
    (touches : schema.Touches row val indices edit) {i : ℕ}
    (fresh : ∀ j ∈ indices, schema.rowKey i row ≠ schema.rowKey j row) :
    schema.Touches row val (i :: indices) (edit ++ [⟨schema.rowKey i row, val i⟩]) := by
  constructor
  · intro j member
    rw [lookup_append, lookup_cons, lookup_nil]
    rcases List.mem_cons.mp member with rfl | later
    · rw [touches.rest _ fresh, if_pos rfl]
      rfl
    · rw [touches.keys j later]
      rfl
  · intro key apart
    rw [lookup_append, touches.rest key fun j later => apart j (List.mem_cons_of_mem _ later), lookup_cons, lookup_nil,
      if_neg (apart i List.mem_cons_self).symm]
    rfl

/-- The value of an entry: only the primary key has one. -/
def entryVal (schema : Schema) (row : Row) (i : ℕ) : Option Bytes := some (if i = 0 then schema.rowVal row else [])

/-- The entries of a row are removed. -/
def Removes (schema : Schema) (row : Row) (edit : KVRun) : Prop :=
  schema.Touches row (fun _ => none) (List.range schema.indices.length) edit

/-- The entries of a row are written. -/
def Places (schema : Schema) (row : Row) (edit : KVRun) : Prop :=
  schema.Touches row (schema.entryVal row) (List.range schema.indices.length) edit

/-! ## Tables as maps -/

/-- The entries of a table are those of the rows of a map from primary keys. -/
structure Shows (schema : Schema) (view : KVMap) (rows : Bytes → Option Row) : Prop where
  own : ∀ key row, rows key = some row → schema.Typed row ∧ schema.rowKey 0 row = key
  primary : ∀ key, schema.keyHead 0 <+: key → view key = (rows key).map schema.rowVal
  secondary : ∀ i, 0 < i → i < schema.indices.length → ∀ key, schema.keyHead i <+: key →
    ((view key).isSome = true ↔ ∃ pkey row, rows pkey = some row ∧ key = schema.rowKey i row)

section Shows

variable {view : KVMap} {rows : Bytes → Option Row}

variable (created : schema.Created)

include created

/-- A live entry with the keys of a row is the entry of the stored row with its primary key. -/
theorem Shows.stored (shows : schema.Shows view rows) (keyed : schema.Keyed row)
    (present : (view (schema.rowKey 0 row)).isSome = true) : ∃ old, rows (schema.rowKey 0 row) = some old ∧
      ∀ i < schema.indices.length, (view (schema.rowKey i row)).isSome = true →
      schema.rowKey i row = schema.rowKey i old := by
  rw [shows.primary _ (keyHead_isPrefix schema 0 row), Option.isSome_map] at present
  obtain ⟨old, stored⟩ := Option.isSome_iff_exists.mp present
  have primary := (shows.own _ _ stored).2
  refine ⟨old, stored, fun i known live => ?_⟩
  rcases Nat.eq_zero_or_pos i with rfl | positive
  · exact primary.symm
  · obtain ⟨pkey, found, there, same⟩ := (shows.secondary i positive known _ (keyHead_isPrefix schema i row)).mp live
    obtain ⟨typed, own⟩ := shows.own pkey found there
    have alike := keyed.primary_eq (typed.keyed created.toValid) created known same
    rw [← own, ← alike, stored] at there
    cases there
    exact same

/-- Writes to all keys of a row change the row of its primary key. -/
private theorem Shows.touch (shows : schema.Shows view rows) (typed : schema.Typed row)
    (alone : ∀ other, rows (schema.rowKey 0 row) = some other → other = row) {new : Option Row}
    (own : ∀ other, new = some other → other = row) {val : ℕ → Option Bytes} {edit : KVRun}
    (touches : schema.Touches row val (List.range schema.indices.length) edit) (primary : val 0 = new.map schema.rowVal)
    (live : ∀ i, 0 < i → ((val i).isSome = true ↔ new.isSome = true)) :
    schema.Shows (overlay view edit) (Function.update rows (schema.rowKey 0 row) new) := by
  have written (i : ℕ) (known : i < schema.indices.length) : overlay view edit (schema.rowKey i row) = val i := by
    rw [overlay, touches.keys i (List.mem_range.mpr known), Option.getD_some]
  have kept (i : ℕ) (known : i < schema.indices.length) (key : Bytes) (head : schema.keyHead i <+: key)
      (apart : key ≠ schema.rowKey i row) : overlay view edit key = view key := by
    rw [overlay, touches.rest key, Option.getD_none]
    intro j member
    have inside := List.mem_range.mp member
    by_cases index : i = j
    · exact index ▸ apart
    · exact rowKey_ne (known.trans_le created.countable) (inside.trans_le created.countable) index head row
  refine ⟨fun key other read => ?_, fun key head => ?_, fun i secondary known key head => ?_⟩
  · rw [Function.update_apply] at read
    split at read
    · next hit =>
      rw [own other read, hit]
      exact ⟨typed, rfl⟩
    · exact shows.own key other read
  · rw [Function.update_apply]
    split
    · next hit => rw [hit, written 0 created.positive, primary]
    · next apart => rw [kept 0 created.positive key head apart, shows.primary key head]
  · by_cases hit : key = schema.rowKey i row
    · rw [hit, written i known, live i secondary]
      constructor
      · intro present
        obtain ⟨other, rfl⟩ := Option.isSome_iff_exists.mp present
        exact ⟨_, other, Function.update_self .., by rw [own other rfl]⟩
      · rintro ⟨pkey, other, read, alike⟩
        rw [Function.update_apply] at read
        split at read
        · rw [read, Option.isSome_some]
        · next apart =>
          obtain ⟨otherTyped, rfl⟩ := shows.own pkey other read
          have same := (typed.keyed created.toValid).primary_eq (otherTyped.keyed created.toValid) created known alike
          exact absurd same.symm apart
    · rw [kept i known key head hit, shows.secondary i secondary known key head]
      refine exists_congr fun pkey => exists_congr fun other => and_congr_left fun alike => ?_
      -- the row in question is another one
      rw [Function.update_apply]
      split
      · next here =>
        refine iff_of_false (fun read => hit ?_) fun read => hit ?_
        · rw [alike, alone other (here ▸ read)]
        · rw [alike, own other read]
      · exact Iff.rfl

/-- Taking the entries of a row away. -/
theorem Shows.remove (shows : schema.Shows view rows) {pkey : Bytes} {old : Row} (stored : rows pkey = some old)
    (same : ∀ i < schema.indices.length, schema.rowKey i row = schema.rowKey i old) {edit : KVRun}
    (removes : schema.Removes row edit) : schema.Shows (overlay view edit) (Function.update rows pkey none) := by
  obtain ⟨typed, rfl⟩ := shows.own pkey old stored
  have alike {i : ℕ} (member : i ∈ List.range schema.indices.length) := same i (List.mem_range.mp member)
  have own : schema.Removes old edit :=
    ⟨fun i member => alike member ▸ removes.keys i member,
      fun key apart => removes.rest key fun i member => alike member ▸ apart i member⟩
  exact shows.touch created typed (fun other read => Option.some.inj (read.symm.trans stored)) (by simp) own rfl
    (by simp)

/-- Placing the entries of a row whose primary key is free. -/
theorem Shows.place (shows : schema.Shows view rows) (typed : schema.Typed row)
    (free : rows (schema.rowKey 0 row) = none) {edit : KVRun} (places : schema.Places row edit) :
    schema.Shows (overlay view edit) (Function.update rows (schema.rowKey 0 row) (some row)) :=
  shows.touch created typed (by simp [free]) (fun _ same => (Option.some.inj same).symm) places rfl
    fun _ _ => by simp [entryVal]

end Shows

/-! ## Rows that fit in a log record -/

/-- A row that fits is told from every other row by its primary entry. -/
theorem Storable.ext {other : Row} (storable : schema.Storable row) (typed : schema.Typed other)
    (created : schema.Created) (key : schema.rowKey 0 row = schema.rowKey 0 other)
    (val : schema.rowVal row = schema.rowVal other) : row = other := by
  have fits : schema.Storable other := ⟨typed, by rw [← key, ← val]; exact storable.fits⟩
  have same := typed.length_eq.trans storable.typed.length_eq.symm
  have cells := (encodeKey_order created.primary_eq (storable.typed.keyed created.toValid 0 created.positive)
    (typed.keyed created.toValid 0 created.positive)).2.mp key
  have first := storable.typed.decodeVal created.toValid storable.sized typed.length_eq
  have second := typed.decodeVal created.toValid fits.sized typed.length_eq
  rw [val, second, Except.ok.injEq] at first
  refine List.ext_getElem? fun k => ?_
  have column := congrArg (fun filled : Row => filled[k]?) first
  rw [Row.getElem?_fill _ _ _ rfl, Row.getElem?_fill _ _ _ same] at column
  by_cases value : k ∈ schema.valueCols
  · rw [if_pos value, if_pos value] at column
    exact column.symm
  · rcases Nat.lt_or_ge k schema.cols.length with inside | outside
    · have member : k ∈ schema.pkey := by
        by_contra apart
        exact value (List.mem_filter.mpr ⟨List.mem_range.mpr inside, by simpa using apart⟩)
      have cell := List.map_inj_left.mp cells k member
      rw [List.getD_eq_getElem?_getD, List.getD_eq_getElem?_getD] at cell
      have left := List.getElem?_eq_getElem (show k < row.length by rw [storable.typed.length_eq]; exact inside)
      have right := List.getElem?_eq_getElem (show k < other.length by rw [typed.length_eq]; exact inside)
      rw [left, right, Option.getD_some, Option.getD_some] at cell
      rw [left, right, cell]
    · rw [List.getElem?_eq_none (by rw [storable.typed.length_eq]; exact outside),
        List.getElem?_eq_none (by rw [typed.length_eq]; exact outside)]

/-- The rows of a map. -/
def rowsOf (rows : Bytes → Option Row) : Set Row := { row | ∃ pkey, rows pkey = some row }

theorem Shows.entries {view : KVMap} {rows : Bytes → Option Row} (created : schema.Created)
    (shows : schema.Shows view rows) : schema.Entries view (rowsOf rows) := by
  have typed {row : Row} (member : row ∈ rowsOf rows) : schema.Typed row ∧ rows (schema.rowKey 0 row) = some row := by
    obtain ⟨pkey, stored⟩ := member
    obtain ⟨typed, rfl⟩ := shows.own pkey row stored
    exact ⟨typed, stored⟩
  refine ⟨fun row member => (typed member).1, fun key val head => ?_, fun i secondary known key head => ?_⟩
  · rw [shows.primary key head, Option.map_eq_some_iff]
    constructor
    · rintro ⟨row, stored, rfl⟩
      obtain ⟨own, rfl⟩ := shows.own key row stored
      exact ⟨row, ⟨_, stored⟩, own.encodeKey created.toValid created.positive, own.encodeVal created.toValid⟩
    · rintro ⟨row, member, encoded, valued⟩
      obtain ⟨own, stored⟩ := typed member
      rw [own.encodeKey created.toValid created.positive] at encoded
      rw [own.encodeVal created.toValid] at valued
      cases encoded
      cases valued
      exact ⟨row, stored, rfl⟩
  · rw [shows.secondary i secondary known key head]
    constructor
    · rintro ⟨pkey, row, stored, rfl⟩
      have member : row ∈ rowsOf rows := ⟨pkey, stored⟩
      exact ⟨row, member, (typed member).1.encodeKey created.toValid known⟩
    · rintro ⟨row, member, encoded⟩
      obtain ⟨own, stored⟩ := typed member
      rw [own.encodeKey created.toValid known] at encoded
      cases encoded
      exact ⟨_, row, stored, rfl⟩

open Classical in
/-- The row of a set with a given primary key. -/
private noncomputable def rowAt (schema : Schema) (rows : Set Row) (key : Bytes) : Option Row :=
  if found : ∃ row ∈ rows, schema.rowKey 0 row = key then some found.choose else none

/-- A table that holds a set of rows holds them by their primary keys. -/
theorem Holds.shows {view : KVMap} {rows : Set Row} (created : schema.Created)
    (holds : schema.Holds view rows) : ∃ byKey, schema.Shows view byKey ∧ rowsOf byKey = rows := by
  have entries := holds.entries
  have unique {row other : Row} (member : row ∈ rows) (second : other ∈ rows)
      (same : schema.rowKey 0 row = schema.rowKey 0 other) : row = other := by
    refine (holds.storable row member).ext (entries.typed other second) created same ?_
    have left := entries.mem_view created member
    rw [same, entries.mem_view created second] at left
    exact (Option.some.inj left).symm
  have some_iff (key : Bytes) (row : Row) :
      schema.rowAt rows key = some row ↔ row ∈ rows ∧ schema.rowKey 0 row = key := by
    rw [rowAt]
    constructor
    · intro read
      split at read
      · next found =>
        cases read
        exact found.choose_spec
      · contradiction
    · rintro ⟨member, rfl⟩
      have found : ∃ other ∈ rows, schema.rowKey 0 other = schema.rowKey 0 row := ⟨row, member, rfl⟩
      rw [dif_pos found, unique found.choose_spec.1 member found.choose_spec.2]
  refine ⟨schema.rowAt rows, ⟨fun key row read => ?_, fun key head => ?_, fun i secondary known key head => ?_⟩, ?_⟩
  · obtain ⟨member, own⟩ := (some_iff key row).mp read
    exact ⟨entries.typed row member, own⟩
  · refine Option.ext fun val => ?_
    rw [entries.primary key val head, Option.map_eq_some_iff]
    refine exists_congr fun row => ?_
    rw [some_iff, and_assoc]
    refine and_congr_right fun member => ?_
    rw [(entries.typed row member).encodeKey created.toValid created.positive,
      (entries.typed row member).encodeVal created.toValid, Except.ok.injEq, Except.ok.injEq]
  · rw [entries.entry_iff created known head]
    constructor
    · rintro ⟨row, member, rfl⟩
      exact ⟨_, row, (some_iff _ row).mpr ⟨member, rfl⟩, rfl⟩
    · rintro ⟨pkey, row, read, rfl⟩
      exact ⟨row, ((some_iff pkey row).mp read).1, rfl⟩
  · refine Set.ext fun row => ?_
    constructor
    · rintro ⟨pkey, read⟩
      exact ((some_iff pkey row).mp read).1
    · exact fun member => ⟨_, (some_iff _ row).mpr ⟨member, rfl⟩⟩

end Schema

end PallasDB
