import PallasDB.Db.TableRead
import PallasDB.Db.KVStep
import PallasDB.Lib.Transition

/-! # Reopening the tables that compactions write

`Open` refuses a table with more than 2^26 keys, and no writer looks at that number. So every table of a store
opens again as long as no flush and no merge writes more keys than that, and a store that has grown past it
does not open.
-/

namespace PallasDB

open SortedRun Transition TableHandle TableEntry

namespace SortedFile

variable {φ : Type}

/-- `Open` accepts the bytes of the table, whatever its size was estimated to be. -/
def Opens (codec : BloomCodec φ) (file : SortedFile) : Prop :=
  ∀ estimated written, file.slots.length ≤ estimated →
    writeSortedFile codec estimated (file.slots.map ofSlot) = .ok written →
      ∃ opened, openExisting codec written.content = .ok opened

variable {codec : BloomCodec φ} {file : SortedFile}

theorem opens_of_few (few : file.slots.length ≤ maxNKeys) : file.Opens codec := by
  intro estimated written room wrote
  rw [← List.length_map ofSlot] at room few
  obtain ⟨-, -, -, layout⟩ := writeSortedFile_ok room wrote
  obtain ⟨opened, ran, -⟩ := layout.opens few
  exact ⟨opened, ran⟩

theorem refused_of_many (many : maxNKeys < file.slots.length) {estimated : ℕ} {written : TableHandle φ}
    (room : file.slots.length ≤ estimated)
    (wrote : writeSortedFile codec estimated (file.slots.map ofSlot) = .ok written) :
    openExisting codec written.content = .error .nkeysOutOfRange := by
  rw [← List.length_map ofSlot] at room many
  obtain ⟨-, -, -, layout⟩ := writeSortedFile_ok room wrote
  exact layout.refused many

end SortedFile

variable {updates : SortedArray}

namespace KV

variable {options : KVOptions} {kv target : KV} {event : KVEvent}

/-- The table that a step names in the metadata. -/
def adds (options : KVOptions) (kv : KV) : KVEvent → Option SortedFile
  | .publish =>
      match kv.compaction with
      | .flushing version frozen dropTombstones => some (Tables.flushed options.library version frozen dropTombstones)
      | _ => none
  | .installMerge =>
      match kv.compaction with
      | .merging version _ old1 old2 dropTombstones =>
          some (Tables.mergedTable options.library version old1 old2 dropTombstones)
      | _ => none
  | _ => none

/-- A flush or a merge writes no more keys than `Open` accepts. -/
def addsFew (options : KVOptions) (kv : KV) (event : KVEvent) : Bool :=
  (kv.adds options event).all fun file => decide (file.slots.length ≤ maxNKeys)

theorem sstables_untrack (kv : KV) (id : ℕ) (tx : KVTX) : (kv.untrack id tx).sstables = kv.sstables := by
  unfold untrack
  split <;> rfl

/-- The metadata name the tables they named before and the one that a step adds. -/
theorem sstables_step (taken : kv.step options event = some target) :
    ∀ file ∈ target.sstables, file ∈ kv.sstables ∨ kv.adds options event = some file := by
  have same (unchanged : target.sstables = kv.sstables) :
      ∀ file ∈ target.sstables, file ∈ kv.sstables ∨ kv.adds options event = some file := by
    rw [unchanged]
    exact fun file member => .inl member
  by_cases client : event.client = true
  · obtain ⟨txs, ongoing, history, rfl, -⟩ := client_cases client taken
    exact same rfl
  cases step_cases taken with
  | newTX | newInnerTX | setEx | del | abort | abortInner | commitInner => simp [KVEvent.client] at client
  | endCommit id tx result current => exact same (sstables_untrack kv id tx)
  | publish version frozen dropTombstones flushing =>
    intro file member
    rcases List.mem_cons.mp member with rfl | old
    · exact .inr (by simp [adds, flushing])
    · exact .inl old
  | installMerge version level old1 old2 dropTombstones merging =>
    intro file member
    rcases List.mem_append.mp member with front | back
    · exact .inl (List.mem_of_mem_take front)
    · rcases List.mem_cons.mp back with rfl | old
      · exact .inr (by simp [adds, merging])
      · exact .inl (List.mem_of_mem_drop old)
  | _ => exact same rfl

/-- While compactions write no more keys than `Open` accepts, every table the metadata name opens again. -/
theorem tables_open {φ : Type} (codec : BloomCodec φ) {events : List KVEvent}
    (ran : run? (step options) empty events = some kv)
    (meets : Meets (step options) (fun kv event => kv.addsFew options event = true) empty events) :
    ∀ file ∈ kv.sstables, file.Opens codec := by
  have few : ∀ file ∈ kv.sstables, file.slots.length ≤ maxNKeys := by
    refine run?_invariant_of_meets (fun kv => ∀ file ∈ kv.sstables, file.slots.length ≤ maxNKeys) ?_ (by simp [empty])
      meets ran
    intro source event target before adds taken file member
    rcases sstables_step taken file member with old | new
    · exact before file old
    · simpa [addsFew, new] using adds
  exact fun file member => SortedFile.opens_of_few (few file member)

/-- Two flushes and a merge of their tables. -/
def twoFlushes : List KVEvent :=
  [.newTX, .setEx 0 [1] [7] .upsert, .beginCommit 0, .checkCommit, .writeLog none, .applyCommit, .endCommit,
    .startCompact, .flush, .publish, .install, .rewriteLog none, .pickMerge,
    .newTX, .setEx 1 [2] [8] .upsert, .beginCommit 1, .checkCommit, .writeLog none, .applyCommit, .endCommit,
    .startCompact, .flush, .publish, .install, .rewriteLog none, .pickMerge, .installMerge]

theorem tables_open_twoFlushes : ((run? (step .eager) empty twoFlushes).any fun kv =>
      decide (kv.sstables.map (fun file => file.slots.length) = [2])) ∧
    ∀ kv, run? (step .eager) empty twoFlushes = some kv → ∀ file ∈ kv.sstables, file.Opens fingerprints :=
  ⟨by decide +kernel, fun _ ran => tables_open fingerprints ran (by decide +kernel)⟩

/-! ### A table that does not open -/

/-- The store while its first transaction stages its writes. -/
private def drafting (updates : SortedArray) : KV :=
  { empty with txs := [⟨0, none, updates, [.updates 0, .source (.array [])], none⟩], ongoing := [0] }

private theorem step_drafting (increasing : Increasing updates) {key : Bytes} (absent : lookup updates key = none)
    (val : Bytes) :
    step .eager (drafting updates) (.setEx 0 key val .upsert) =
      some (drafting (SortedArray.set updates key val).2) := by
  have read : (drafting updates).get ⟨0, none, updates, [.updates 0, .source (.array [])], none⟩ key = .ok none := by
    have searched : MergedSortedKV.getExact [.array updates, .array []] key = none := by
      rw [MergedSortedKV.getExact, List.findSome?_cons]
      have first : SortedKV.getExact (.array updates) key = none :=
        (SortedArray.getExact_eq increasing key).trans absent
      rw [first]
      rfl
    exact congrArg (fun found : Option (Option Bytes) => Except.ok found.join) searched
  have found : (drafting updates).idleTx 0 = some ⟨0, none, updates, [.updates 0, .source (.array [])], none⟩ := rfl
  rw [step, found, Option.map_some, setEx, read]
  rfl

/-- The writes of distinct keys, staged. -/
private structure Counted (count : ℕ) (updates : SortedArray) : Prop where
  increasing : Increasing updates
  length : updates.length = count
  slots : ∀ slot ∈ updates, ∃ i < count, slot = ⟨LittleEndian.encode 8 i, some []⟩

private theorem Counted.set {count : ℕ} (drafted : Counted count updates) (bound : count < 2 ^ 64) :
    lookup updates (LittleEndian.encode 8 count) = none ∧
      Counted (count + 1) (SortedArray.set updates (LittleEndian.encode 8 count) []).2 := by
  have absent : lookup updates (LittleEndian.encode 8 count) = none := by
    rw [lookup_eq_none]
    intro slot member same
    obtain ⟨i, below, rfl⟩ := drafted.slots slot member
    have value := congrArg LittleEndian.decode same
    rw [LittleEndian.decode_encode (by omega), LittleEndian.decode_encode (by omega)] at value
    omega
  have inserted : (SortedArray.set updates (LittleEndian.encode 8 count) []).2 =
      SortedArray.insertAt updates (SortedArray.search updates (LittleEndian.encode 8 count)).1
        ⟨LittleEndian.encode 8 count, some []⟩ := by
    obtain ⟨-, searched⟩ | ⟨val, idx, present, -⟩ :=
      SortedArray.search_cases drafted.increasing (LittleEndian.encode 8 count)
    · rw [SortedArray.set, searched]
      rfl
    · rw [absent] at present
      contradiction
  refine ⟨absent, SortedArray.set_increasing drafted.increasing _ _, ?_, ?_⟩
  · have length := drafted.length
    rw [inserted, SortedArray.insertAt, List.length_append, List.length_cons, List.length_take, List.length_drop]
    omega
  · rw [inserted, SortedArray.insertAt]
    intro slot member
    rcases List.mem_append.mp member with front | back
    · obtain ⟨i, below, same⟩ := drafted.slots slot (List.mem_of_mem_take front)
      exact ⟨i, Nat.lt_succ_of_lt below, same⟩
    · rcases List.mem_cons.mp back with rfl | old
      · exact ⟨count, Nat.lt_succ_self count, rfl⟩
      · obtain ⟨i, below, same⟩ := drafted.slots slot (List.mem_of_mem_drop old)
        exact ⟨i, Nat.lt_succ_of_lt below, same⟩

/-- A transaction puts as many keys as it likes. -/
def putKeys (count : ℕ) : List KVEvent :=
  (List.range count).map fun i => .setEx 0 (LittleEndian.encode 8 i) [] .upsert

private theorem run_putKeys {count : ℕ} (bound : count ≤ 2 ^ 64) :
    ∃ updates, run? (step .eager) (drafting []) (putKeys count) = some (drafting updates) ∧ Counted count updates := by
  induction count with
  | zero => exact ⟨[], rfl, increasing_nil, rfl, by simp⟩
  | succ count ih =>
    obtain ⟨updates, ran, drafted⟩ := ih (by omega)
    obtain ⟨absent, next⟩ := drafted.set (by omega)
    refine ⟨_, ?_, next⟩
    rw [putKeys, List.range_succ, List.map_append]
    exact run?_concat.mpr ⟨_, ran, step_drafting drafted.increasing absent []⟩

/-- The transaction commits and its writes are flushed. -/
def commitAndFlush : List KVEvent :=
  [.beginCommit 0, .checkCommit, .writeLog none, .applyCommit, .endCommit, .startCompact, .flush, .publish]

private theorem run_commitAndFlush (inhabited : updates ≠ [])
    (fits : (updates.any fun slot => decide (maxEntrySize < slotSize slot)) = false) :
    ∃ kv, run? (step .eager) (drafting updates) commitAndFlush = some kv ∧
      kv.sstables = [Tables.flushed .exact 1 updates true] := by
  have length : ¬updates.length = 0 := by simpa using inhabited
  have grown : updateMem [] updates = updates := by
    cases updates with
    | nil => contradiction
    | cons first rest => rfl
  let tx : KVTX := ⟨0, none, updates, [.updates 0, .source (.array [])], none⟩
  let logged : KV := { drafting updates with log := updates, commit := some ⟨0, .logged⟩ }
  let committed : KV := { (logged.applyCommit 0 tx).untrack 0 tx with commit := none }
  have checked : step .eager ((drafting updates).setPhase 0 .locked) .checkCommit =
      some ((drafting updates).setPhase 0 .checked) := by
    have free : ((drafting updates).setPhase 0 .locked).checkTXConflict tx = false := by
      simp [checkTXConflict, drafting, setPhase, empty]
    exact congrArg some ((if_neg length).trans (if_neg (Bool.eq_false_iff.mp free)))
  have written : step .eager ((drafting updates).setPhase 0 .checked) (.writeLog none) = some logged :=
    congrArg some (if_neg (by simp [fits]))
  have mem : committed.tables.mem = updates := grown
  have flushes : step .eager { committed with compaction := .started committed.tables.mem.length } .flush =
      some { committed with
        version := 1
        tables := committed.tables.freeze
        compaction := .flushing 1 committed.tables.mem true } := by
    have kept : ¬committed.tables.mem.length = 0 := by rwa [mem]
    exact congrArg some (if_neg kept)
  refine ⟨_, run?_cons_eq_some.mpr ⟨_, rfl, run?_cons_eq_some.mpr ⟨_, checked, run?_cons_eq_some.mpr ⟨_, written,
    run?_cons_eq_some.mpr ⟨logged.applyCommit 0 tx, rfl,
      run?_cons_eq_some.mpr ⟨committed, rfl, run?_cons_eq_some.mpr ⟨_, rfl,
      run?_cons_eq_some.mpr ⟨_, flushes, rfl⟩⟩⟩⟩⟩⟩⟩, ?_⟩
  rw [← mem]
  rfl

private theorem dataSize_le {entries : List TableEntry} {bound : ℕ} (sized : ∀ entry ∈ entries, entry.size ≤ bound) :
    dataSize entries ≤ entries.length * (9 + bound) := by
  induction entries with
  | nil => simp [dataSize]
  | cons entry rest ih =>
    obtain ⟨here, later⟩ := List.forall_mem_cons.mp sized
    have split : dataSize (entry :: rest) = 9 + entry.size + dataSize rest := by simp [dataSize]
    have tail := ih later
    rw [split, List.length_cons, Nat.add_mul]
    omega

private theorem length_filterOf (estimated : ℕ) (entries : List TableEntry) :
    (filterOf fingerprints estimated entries).length = entries.length := by
  have added (keys : List Bytes) (filter : Bytes) :
    (keys.foldl fingerprints.add filter).length = keys.length + filter.length := by
    induction keys generalizing filter with
    | nil => simp
    | cons key rest ih =>
      rw [List.foldl_cons, ih]
      simp only [fingerprints, List.length_cons]
      omega
  have none : (fingerprints.new (max 1 estimated)).length = 0 := rfl
  rw [filterOf, added, none, List.length_map, Nat.add_zero]

/-- The bytes of a table of many small slots exist, and `Open` refuses them. -/
private theorem refused_drafted {count : ℕ} (drafted : Counted count updates) (many : maxNKeys < count)
    (bound : count < 2 ^ 40) {file : SortedFile} (slots : file.slots = updates) :
    ∃ written, writeSortedFile fingerprints count (file.slots.map ofSlot) = .ok written ∧
      openExisting fingerprints written.content = .error .nkeysOutOfRange := by
  have length : (file.slots.map ofSlot).length = count := by rw [List.length_map, slots, drafted.length]
  have sized : ∀ entry ∈ file.slots.map ofSlot, entry.size ≤ 8 := by
    intro entry member
    obtain ⟨slot, inside, rfl⟩ := List.mem_map.mp member
    obtain ⟨i, -, rfl⟩ := drafted.slots slot (slots ▸ inside)
    simp [ofSlot, TableEntry.size]
  have data := dataSize_le sized
  have filter : (fingerprints.marshal (filterOf fingerprints count (file.slots.map ofSlot))).length = 1 + count := by
    have bytes := length_filterOf count (file.slots.map ofSlot)
    simp only [fingerprints, List.length_cons] at bytes ⊢
    omega
  have small : 8 + 8 * count + dataSize (file.slots.map ofSlot) +
      (fingerprints.marshal (filterOf fingerprints count (file.slots.map ofSlot))).length + bloomFooterSize <
        2 ^ 63 := by
    rw [filter, bloomFooterSize]
    omega
  obtain ⟨written, wrote⟩ := writeSortedFile_returns (Nat.le_of_eq length) small
  rw [List.length_map] at length
  exact ⟨written, wrote, SortedFile.refused_of_many (by omega) (Nat.le_of_eq length) wrote⟩

/-- A store in which one transaction has put more keys than `Open` accepts. -/
theorem largeTable_refused : ∃ kv, run? (step .eager) empty (.newTX :: putKeys (maxNKeys + 1) ++ commitAndFlush) =
    some kv ∧ ∃ file ∈ kv.sstables, ∃ written,
      writeSortedFile fingerprints (maxNKeys + 1) (file.slots.map ofSlot) = .ok written ∧
      openExisting fingerprints written.content = .error .nkeysOutOfRange := by
  obtain ⟨updates, ran, drafted⟩ := @run_putKeys (maxNKeys + 1) (by decide)
  have inhabited : updates ≠ [] := by
    have length := drafted.length
    rintro rfl
    simp at length
  have fits : (updates.any fun slot => decide (maxEntrySize < slotSize slot)) = false := by
    rw [List.any_eq_false]
    intro slot member
    obtain ⟨i, -, rfl⟩ := drafted.slots slot member
    simp [slotSize, maxEntrySize]
  obtain ⟨kv, flushed, tables⟩ := run_commitAndFlush inhabited fits
  have live : (Tables.flushed BloomLibrary.exact 1 updates true).slots = updates := by
    have all : ∀ slot ∈ updates, Slot.live slot = true := by
      intro slot member
      obtain ⟨i, -, rfl⟩ := drafted.slots slot member
      rfl
    rw [Tables.flushed_slots, if_pos rfl, (noDeletedSlots_eq_filter_iff updates).mpr ?_, List.filter_eq_self.mpr all]
    cases updates with
    | nil => rfl
    | cons first rest => exact all first (List.mem_cons_self ..)
  obtain ⟨written, wrote, refused⟩ := refused_drafted drafted (Nat.lt_succ_self _) (by decide) live
  refine ⟨kv, ?_, _, by rw [tables]; exact List.mem_cons_self .., written, wrote, refused⟩
  rw [List.cons_append]
  refine run?_cons_eq_some.mpr ⟨drafting [], rfl, ?_⟩
  rw [run?_append, ran]
  exact flushed

end KV

end PallasDB
