import PallasDB.Db.SortedKV

/-! # Memtables and tables of an open store

The live memtable, the memtable frozen by a flush and the stack of SSTables are read as one map. Folding
a commit into the memtable overlays that map, and the rearrangements made by a compaction leave it alone:
freezing, rolling a failed flush back, installing the flushed table, and replacing two adjacent tables by
their merge. Tombstones are dropped only at the bottom of the stack, where they hide nothing.
-/

namespace PallasDB

open SortedRun

/-- The value a stack of runs shows for a key. -/
def visible (runs : List KVRun) (key : Bytes) : Option Bytes := (lookupLevels runs key).join

/-- A map with the writes of a run laid over it. -/
def overlay (base : KVMap) (updates : KVRun) (key : Bytes) : Option Bytes :=
  (lookup updates key).getD (base key)

theorem visible_cons (run : KVRun) (runs : List KVRun) : visible (run :: runs) = overlay (visible runs) run := by
  funext key
  simp only [visible, lookupLevels_cons, overlay]
  cases lookup run key <;> rfl

theorem visible_append_congr (front : List KVRun) {first second : List KVRun}
    (same : visible first = visible second) : visible (front ++ first) = visible (front ++ second) := by
  induction front with
  | nil => exact same
  | cons run rest ih => rw [List.cons_append, List.cons_append, visible_cons, visible_cons, ih]

/-- Replacing a stack by a run with the same lookups changes nothing, also in front of other runs. -/
theorem visible_merge {runs : List KVRun} {merged : KVRun}
    (merge : IsMerge runs merged) (back : List KVRun) :
    visible (merged :: back) = visible (runs ++ back) := by
  funext key
  rw [visible, visible, lookupLevels_cons, lookupLevels_append, merge.lookup_eq]

/-- At the bottom of the stack a run may be replaced by one that shows the same values. -/
theorem visible_bottom {first second : KVRun}
    (same : ∀ key, (lookup first key).join = (lookup second key).join) :
    visible [first] = visible [second] := by
  funext key
  simpa [visible] using same key

/-- Append when the new keys all come after the old ones. -/
def appendSortedArray (dst src : SortedArray) : Option SortedArray :=
  match src with
  | [] => some dst
  | first :: _ =>
      if dst.getLast?.any fun last => decide (first.key ≤ last.key) then none else some (dst ++ src)

/-- Fold a transaction's writes into the live memtable. -/
def updateMem (mem updates : SortedArray) : SortedArray :=
  (appendSortedArray mem updates).getD (MergedSortedKV.collect [.array updates, .array mem])

private theorem appendSortedArray_isMerge {dst src grown : SortedArray} (left : Increasing dst)
    (right : Increasing src) (appended : appendSortedArray dst src = some grown) :
    IsMerge [src, dst] grown := by
  have both : ∀ run ∈ [src, dst], Increasing run := by simp [left, right]
  cases src with
  | nil =>
    cases appended
    exact ⟨both, left, fun key => by simp⟩
  | cons first rest =>
    simp only [appendSortedArray] at appended
    split at appended
    · contradiction
    · next ends =>
      cases appended
      have apart : ∀ a ∈ dst, ∀ b ∈ first :: rest, a.key < b.key := by
        intro a inDst b inSrc
        have aLast : ∃ last, dst.getLast? = some last ∧ a.key ≤ last.key := by
          have nonempty := List.ne_nil_of_mem inDst
          refine ⟨dst.getLast nonempty, List.getLast?_eq_some_getLast nonempty, ?_⟩
          have whole := List.dropLast_append_getLast nonempty
          rw [← whole, List.mem_append] at inDst
          rw [← whole] at left
          rcases inDst with before | final
          · exact ((increasing_append.mp left).2.2 a before _ (by simp)).le
          · rw [List.mem_singleton.mp final]
        obtain ⟨last, isLast, below⟩ := aLast
        have gap : last.key < first.key := by simpa [isLast] using ends
        refine lt_of_le_of_lt below (lt_of_lt_of_le gap ?_)
        rcases List.mem_cons.mp inSrc with rfl | later
        · exact le_rfl
        · exact ((increasing_cons.mp right).1 b later).le
      refine ⟨both, increasing_append.mpr ⟨left, right, apart⟩, fun key => ?_⟩
      rw [lookup_append, lookupLevels_cons, lookupLevels_cons, lookupLevels_nil, Option.or_none]
      -- no key is in both runs, so the order of the two lookups does not matter
      cases inDst : lookup dst key with
      | none => simp
      | some old =>
        have absent : lookup (first :: rest) key = none := by
          rw [lookup_eq_none]
          intro slot member same
          exact absurd (apart _ (mem_of_lookup inDst) slot member) (by simp [same])
        simp [absent]

variable {updates : SortedArray}

theorem updateMem_isMerge {mem : SortedArray} (left : Increasing mem) (right : Increasing updates) :
    IsMerge [updates, mem] (updateMem mem updates) := by
  rw [updateMem]
  cases appended : appendSortedArray mem updates with
  | none => exact MergedSortedKV.collect_arrays right left
  | some grown => exact appendSortedArray_isMerge left right appended

/-- The sorted runs of an open store, newest first. -/
structure Tables where
  mem : SortedArray
  imm : Option SortedArray
  main : List SortedFile

variable {frozen : SortedArray} {old1 old2 : SortedFile} {dropTombstones : Bool}

namespace Tables

def empty : Tables := ⟨[], none, []⟩

/-- What a transaction started now reads through, without its own updates. -/
def levels (tables : Tables) : MergedSortedKV :=
  .array tables.mem :: (tables.imm.toList.map .array ++ tables.main.map .file)

def runs (tables : Tables) : List KVRun := MergedSortedKV.runs tables.levels

/-- Every run holds its keys in strictly increasing order. -/
def Sorted (tables : Tables) : Prop := ∀ run ∈ tables.runs, Increasing run

def contents (tables : Tables) : KVMap := visible tables.runs

/-- Everything the tables hold, shadowed or not. -/
def slots (tables : Tables) : KVRun := tables.runs.flatten

def apply (tables : Tables) (updates : SortedArray) : Tables :=
  { tables with mem := updateMem tables.mem updates }

def freeze (tables : Tables) : Tables := { tables with mem := [], imm := some tables.mem }

/-- Merge the frozen memtable back under the live one. -/
def unfreeze (tables : Tables) : Tables :=
  match tables.imm with
  | none => tables
  | some frozen =>
      { tables with mem := MergedSortedKV.collect [.array tables.mem, .array frozen], imm := none }

def install (tables : Tables) (file : SortedFile) : Tables :=
  { tables with imm := none, main := file :: tables.main }

/-- Replace the tables `level` and `level + 1` by one. -/
def replacePair (tables : Tables) (level : ℕ) (file : SortedFile) : Tables :=
  { tables with main := tables.main.take level ++ file :: tables.main.drop (level + 2) }

theorem runs_eq (tables : Tables) :
    tables.runs = tables.mem :: (tables.imm.toList ++ tables.main.map SortedFile.slots) := by
  simp [runs, levels, MergedSortedKV.runs, SortedKV.slots, Function.comp_def]

theorem sorted_iff (tables : Tables) : tables.Sorted ↔
    Increasing tables.mem ∧ (∀ frozen ∈ tables.imm, Increasing frozen) ∧
      ∀ file ∈ tables.main, Increasing file.slots := by
  simp [Sorted, runs_eq, or_imp, forall_and]

theorem sorted_empty : empty.Sorted := by simp [sorted_iff, empty, increasing_nil]

variable {tables : Tables}

theorem mem_slots {slot : KVSlot} : slot ∈ tables.slots ↔
    slot ∈ tables.mem ∨ (∃ frozen, tables.imm = some frozen ∧ slot ∈ frozen) ∨
      ∃ file ∈ tables.main, slot ∈ file.slots := by
  simp [slots, runs_eq]

theorem Sorted.apply (sorted : tables.Sorted) (increasing : Increasing updates) : (tables.apply updates).Sorted := by
  rw [sorted_iff] at sorted ⊢
  exact ⟨(updateMem_isMerge sorted.1 increasing).increasing, sorted.2⟩

/-- A commit overlays the contents. -/
theorem contents_apply (sorted : tables.Sorted) (increasing : Increasing updates) :
    (tables.apply updates).contents = overlay tables.contents updates := by
  have merge := updateMem_isMerge (sorted_iff tables |>.mp sorted).1 increasing
  rw [contents, contents, runs_eq, runs_eq, ← visible_cons]
  exact visible_merge merge _

theorem Sorted.freeze (sorted : tables.Sorted) : tables.freeze.Sorted := by
  rw [sorted_iff] at sorted ⊢
  exact ⟨increasing_nil, by simpa [Tables.freeze] using sorted.1, sorted.2.2⟩

theorem contents_freeze (idle : tables.imm = none) : tables.freeze.contents = tables.contents := by
  rw [contents, contents, runs_eq, runs_eq, idle]
  funext key
  simp [visible, Tables.freeze]

private theorem unfreeze_isMerge (sorted : tables.Sorted) (held : tables.imm = some frozen) :
    IsMerge [tables.mem, frozen] (MergedSortedKV.collect [.array tables.mem, .array frozen]) := by
  obtain ⟨mem, imm, -⟩ := (sorted_iff tables).mp sorted
  exact MergedSortedKV.collect_arrays mem (imm frozen held)

theorem Sorted.unfreeze (sorted : tables.Sorted) : tables.unfreeze.Sorted := by
  cases held : tables.imm with
  | none => simpa [Tables.unfreeze, held] using sorted
  | some frozen =>
    have merge := unfreeze_isMerge sorted held
    rw [sorted_iff] at sorted ⊢
    simp only [Tables.unfreeze, held]
    exact ⟨merge.increasing, by simp, sorted.2.2⟩

theorem mem_unfreeze (sorted : tables.Sorted) {slot : KVSlot} (member : slot ∈ tables.unfreeze.mem) :
    slot ∈ tables.mem ++ tables.imm.getD [] := by
  cases held : tables.imm with
  | none => simpa [Tables.unfreeze, held] using member
  | some frozen =>
    simp only [Tables.unfreeze, held] at member
    obtain ⟨run, among, inside⟩ := (unfreeze_isMerge sorted held).mem_levels member
    rcases List.mem_cons.mp among with rfl | last
    · exact List.mem_append_left _ inside
    · exact List.mem_append_right _ (List.mem_singleton.mp last ▸ inside)

/-- Rolling a failed flush back is invisible. -/
theorem contents_unfreeze (sorted : tables.Sorted) : tables.unfreeze.contents = tables.contents := by
  cases held : tables.imm with
  | none => simp [Tables.unfreeze, held]
  | some frozen =>
    rw [contents, contents, runs_eq, runs_eq]
    simp only [Tables.unfreeze, held]
    exact visible_merge (unfreeze_isMerge sorted held) _

/-- The table a flush of the frozen memtable writes. -/
def flushed (library : BloomLibrary) (version : ℕ) (frozen : SortedArray) (dropTombstones : Bool) : SortedFile :=
  if dropTombstones then
    SortedFile.createFromSorted library version frozen.length (⟨SortedArray.iter frozen⟩ : LiveIter _)
  else SortedFile.createFromSorted library version frozen.length (SortedArray.iter frozen)

/-- The table a merge of two adjacent tables writes. -/
def mergedTable (library : BloomLibrary) (version : ℕ) (old1 old2 : SortedFile) (dropTombstones : Bool) :
    SortedFile :=
  let source : MergedSortedKV := [.file old1, .file old2]
  if dropTombstones then
    SortedFile.createFromSorted library version source.estimatedSize (⟨MergedSortedKV.iter source⟩ : LiveIter _)
  else SortedFile.createFromSorted library version source.estimatedSize (MergedSortedKV.iter source)

variable (library : BloomLibrary) (version : ℕ)

theorem flushed_version (frozen : SortedArray) (dropTombstones : Bool) :
    (flushed library version frozen dropTombstones).version = version := by
  rw [flushed]
  split <;> rfl

theorem mergedTable_version (old1 old2 : SortedFile) (dropTombstones : Bool) :
    (mergedTable library version old1 old2 dropTombstones).version = version := by
  simp only [mergedTable]
  split <;> rfl

theorem flushed_slots (frozen : SortedArray) (dropTombstones : Bool) :
    (flushed library version frozen dropTombstones).slots =
      if dropTombstones then noDeletedSlots frozen else frozen := by
  cases dropTombstones
  · exact SortedFile.createFromSorted_array library version _ frozen
  · exact SortedFile.createFromSorted_array_noDeleted library version _ frozen

theorem mergedTable_slots (first : Increasing old1.slots) (second : Increasing old2.slots) (dropTombstones : Bool) :
    ∃ merged, IsMerge [old1.slots, old2.slots] merged ∧
      (mergedTable library version old1 old2 dropTombstones).slots =
        if dropTombstones then noDeletedSlots merged else merged := by
  have both : ∀ run ∈ MergedSortedKV.runs [.file old1, .file old2], Increasing run := by
    simp [MergedSortedKV.runs, SortedKV.slots, first, second]
  refine ⟨_, MergedSortedKV.collect_isMerge both, ?_⟩
  cases dropTombstones
  · rfl
  · exact SortedFile.createFromSorted_merged_noDeleted library version _ both

theorem flushed_subset (frozen : SortedArray) (dropTombstones : Bool) :
    (flushed library version frozen dropTombstones).slots ⊆ frozen := by
  rw [flushed_slots]
  cases dropTombstones
  · exact List.Subset.refl frozen
  · exact noDeletedSlots_subset frozen

theorem mem_of_mem_mergedTable (first : Increasing old1.slots) (second : Increasing old2.slots) {dropTombstones : Bool}
    {slot : KVSlot} (member : slot ∈ (mergedTable library version old1 old2 dropTombstones).slots) :
    slot ∈ old1.slots ∨ slot ∈ old2.slots := by
  obtain ⟨merged, merge, slots⟩ := mergedTable_slots library version first second dropTombstones
  have inside : slot ∈ merged := by
    rw [slots] at member
    split at member
    · exact noDeletedSlots_subset merged member
    · exact member
  obtain ⟨run, among, there⟩ := merge.mem_levels inside
  rcases List.mem_cons.mp among with rfl | last
  · exact .inl there
  · exact .inr (List.mem_singleton.mp last ▸ there)

private theorem drop_increasing {run : KVRun} (increasing : Increasing run) (dropTombstones : Bool) :
    Increasing (if dropTombstones then noDeletedSlots run else run) := by
  cases dropTombstones
  · exact increasing
  · exact noDeletedSlots_increasing increasing

/-- Dropping tombstones is allowed where nothing lies below. -/
private theorem visible_drop {run : KVRun} (increasing : Increasing run) {back : List KVRun}
    (bottom : dropTombstones = true → back = []) :
    visible ((if dropTombstones then noDeletedSlots run else run) :: back) = visible (run :: back) := by
  cases dropTombstones
  · rfl
  · rw [bottom rfl]
    exact visible_bottom (lookup_noDeletedSlots increasing)

theorem Sorted.install (sorted : tables.Sorted) (held : tables.imm = some frozen) (dropTombstones : Bool) :
    (tables.install (flushed library version frozen dropTombstones)).Sorted := by
  rw [sorted_iff] at sorted ⊢
  obtain ⟨mem, imm, main⟩ := sorted
  refine ⟨mem, by simp [Tables.install], fun file member => ?_⟩
  rcases List.mem_cons.mp member with rfl | old
  · rw [flushed_slots]
    exact drop_increasing (imm frozen held) _
  · exact main file old

/-- Installing the flushed table is invisible. -/
theorem contents_install (sorted : tables.Sorted) (held : tables.imm = some frozen)
    (bottom : dropTombstones = true → tables.main = []) :
    (tables.install (flushed library version frozen dropTombstones)).contents = tables.contents := by
  have increasing := (sorted_iff tables |>.mp sorted).2.1 frozen held
  rw [contents, contents, runs_eq, runs_eq]
  simp only [Tables.install, held, Option.toList_none, Option.toList_some, List.nil_append, List.map_cons,
    flushed_slots, List.singleton_append]
  refine visible_append_congr [tables.mem] (visible_drop increasing fun drop => ?_)
  rw [bottom drop, List.map_nil]

theorem split_pair {α : Type*} {list : List α} {level : ℕ} {first second : α}
    (atLevel : list[level]? = some first) (above : list[level + 1]? = some second) :
    list = list.take level ++ first :: second :: list.drop (level + 2) := by
  obtain ⟨bound, rfl⟩ := List.getElem?_eq_some_iff.mp atLevel
  obtain ⟨next, rfl⟩ := List.getElem?_eq_some_iff.mp above
  rw [← List.drop_eq_getElem_cons next, ← List.drop_eq_getElem_cons bound, List.take_append_drop]

theorem Sorted.replacePair (sorted : tables.Sorted) {level : ℕ} (first : tables.main[level]? = some old1)
    (second : tables.main[level + 1]? = some old2) (dropTombstones : Bool) :
    (tables.replacePair level (mergedTable library version old1 old2 dropTombstones)).Sorted := by
  rw [sorted_iff] at sorted ⊢
  obtain ⟨mem, imm, main⟩ := sorted
  obtain ⟨merged, merge, slots⟩ := mergedTable_slots library version
    (main _ (List.mem_of_getElem? first)) (main _ (List.mem_of_getElem? second)) dropTombstones
  refine ⟨mem, imm, fun file member => ?_⟩
  simp only [Tables.replacePair, List.mem_append, List.mem_cons] at member
  rcases member with front | rfl | back
  · exact main file (List.mem_of_mem_take front)
  · rw [slots]
    exact drop_increasing merge.increasing _
  · exact main file (List.mem_of_mem_drop back)

/-- Merging two adjacent tables is invisible. -/
theorem contents_replacePair (sorted : tables.Sorted) {level : ℕ} (first : tables.main[level]? = some old1)
    (second : tables.main[level + 1]? = some old2) (bottom : dropTombstones = true → tables.main.length = level + 2) :
    (tables.replacePair level (mergedTable library version old1 old2 dropTombstones)).contents =
      tables.contents := by
  have main := (sorted_iff tables |>.mp sorted).2.2
  obtain ⟨merged, merge, slots⟩ := mergedTable_slots library version
    (main _ (List.mem_of_getElem? first)) (main _ (List.mem_of_getElem? second)) dropTombstones
  have below : dropTombstones = true → (tables.main.drop (level + 2)).map SortedFile.slots = [] := by
    intro drop
    rw [List.drop_eq_nil_of_le (by rw [bottom drop]), List.map_nil]
  rw [contents, contents, runs_eq, runs_eq]
  conv_rhs => rw [split_pair first second]
  simp only [Tables.replacePair, List.map_append, List.map_cons, slots]
  refine visible_append_congr (tables.mem :: _) (visible_append_congr _ ?_)
  rw [visible_drop merge.increasing below, visible_merge merge]
  rfl

end Tables

end PallasDB
