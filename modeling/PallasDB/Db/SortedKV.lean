import PallasDB.Db.SortedArray
import PallasDB.Lib.MergeCursor

/-! # Sorted tables and their merge

An SSTable is an immutable sorted run together with a bloom filter that knows all of its keys. Lookups
consult the filter and then the binary search of `findPosExact`; a stack of arrays and files is read
level by level or through the merging iterator, and a new file is written by draining an iterator.
-/

namespace PallasDB

open SortedRun BinarySearch

/-- The bloom filter library: a filter built for an expected number of keys from the added keys. -/
structure BloomLibrary where
  test : ℕ → List Bytes → Bytes → Bool
  noFalseNegatives : ∀ expected keys key, key ∈ keys → test expected keys key = true

/-- The filter that answers exactly. -/
def BloomLibrary.exact : BloomLibrary where
  test _ keys key := decide (key ∈ keys)
  noFalseNegatives _ _ _ member := decide_eq_true member

/-- An SSTable, named by the version it was created under. The filter is absent in files without one. -/
structure SortedFile where
  version : ℕ
  slots : KVRun
  bloom : Option (Bytes → Bool)
  mayContain : ∀ filter ∈ bloom, ∀ slot ∈ slots, filter slot.key = true

inductive TableError where
  | eof
  | nkeysOutOfRange
  | bloomOutOfRange
  | badBloom
  | entryTooLarge
  | corrupted
  | fileTooLarge
  | checkFailed
deriving DecidableEq, Repr

def maxNKeys : ℕ := 2 ^ 26

namespace SortedFile

def mayContainKey (file : SortedFile) (key : Bytes) : Bool := file.bloom.all fun filter => filter key

/-- The loop shared by `findPos` and `findPosExact`. -/
def findPosExact (file : SortedFile) (target : Bytes) : ℕ × Bool :=
  findIndex (slotOrder file.slots target) file.slots.length 0 file.slots.length

def findPos (file : SortedFile) (target : Bytes) : ℕ := (file.findPosExact target).1

def getExact (file : SortedFile) (key : Bytes) : Option (Option Bytes) :=
  if file.mayContainKey key then
    let (pos, found) := file.findPosExact key
    if found then (file.slots[pos]?).map Slot.val else none
  else none

def iter (file : SortedFile) : Cursor Bytes Bytes := ⟨file.slots, 0⟩

def seek (file : SortedFile) (key : Bytes) : Cursor Bytes Bytes := ⟨file.slots, file.findPos key⟩

def seekToLast (file : SortedFile) : Cursor Bytes Bytes := ⟨file.slots, file.slots.length - 1⟩

/-- `CreateFromSorted`: write out every slot the source iterator yields. -/
def createFromSorted {ι : Type*} [SlotIter ι Bytes Bytes] (library : BloomLibrary) (version expected : ℕ)
    (source : ι) : SortedFile :=
  let slots := drain SlotIter.next (fun _ => true) (SlotIter.size source) source
  ⟨version, slots, some (library.test expected (slots.map Slot.key)), by
    rintro _ ⟨⟩ slot member
    exact library.noFalseNegatives _ _ _ (List.mem_map_of_mem member)⟩

theorem getExact_eq (file : SortedFile) (increasing : Increasing file.slots) (key : Bytes) :
    file.getExact key = lookup file.slots key := by
  rw [getExact]
  cases found : lookup file.slots key with
  | none =>
    split
    · rw [findPosExact, findIndex_rank increasing, found]
      rfl
    · rfl
  | some val =>
    have member := mem_of_lookup found
    have passes : file.mayContainKey key = true := by
      rw [mayContainKey, Option.all_eq_true]
      exact fun filter installed => file.mayContain filter installed _ member
    obtain ⟨pos, bound, here⟩ := List.mem_iff_getElem.mp member
    have read : file.slots[pos]? = some ⟨key, val⟩ := List.getElem?_eq_some_iff.mpr ⟨bound, here⟩
    rw [if_pos passes, findPosExact, findIndex_rank increasing, found, increasing.rank_lt read]
    simp [read]

end SortedFile

/-- The sorted sources a merge reads from. -/
inductive SortedKV where
  | array (arr : SortedArray)
  | file (table : SortedFile)

namespace SortedKV

def slots : SortedKV → KVRun
  | .array arr => arr
  | .file table => table.slots

def estimatedSize (kv : SortedKV) : ℕ := kv.slots.length

def getExact : SortedKV → Bytes → Option (Option Bytes)
  | .array arr => SortedArray.getExact arr
  | .file table => table.getExact

def iter : SortedKV → Cursor Bytes Bytes
  | .array arr => SortedArray.iter arr
  | .file table => table.iter

def seek : SortedKV → Bytes → Cursor Bytes Bytes
  | .array arr => SortedArray.seek arr
  | .file table => table.seek

def seekToLast : SortedKV → Cursor Bytes Bytes
  | .array arr => SortedArray.seekToLast arr
  | .file table => table.seekToLast

theorem getExact_eq (kv : SortedKV) (increasing : Increasing kv.slots) (key : Bytes) :
    kv.getExact key = lookup kv.slots key := by
  cases kv with
  | array arr => exact SortedArray.getExact_eq (show Increasing arr from increasing) key
  | file table => exact table.getExact_eq increasing key

theorem iter_eq (kv : SortedKV) : kv.iter = ⟨kv.slots, rank kv.slots fun _ => false⟩ := by
  cases kv <;> simp [iter, SortedArray.iter, SortedFile.iter, slots, rank]

theorem seek_eq (kv : SortedKV) (increasing : Increasing kv.slots) (key : Bytes) :
    kv.seek key = ⟨kv.slots, rank kv.slots fun other => decide (other < key)⟩ := by
  cases kv with
  | array arr =>
    rw [seek, SortedArray.seek, SortedArray.search_fst (show Increasing arr from increasing).ordered]
    rfl
  | file table =>
    rw [seek, SortedFile.seek, SortedFile.findPos, SortedFile.findPosExact,
      findIndex_rank (show Increasing table.slots from increasing)]
    rfl

theorem seekToLast_eq (kv : SortedKV) : kv.seekToLast = ⟨kv.slots, (rank kv.slots fun _ => true) - 1⟩ := by
  cases kv <;> simp [seekToLast, SortedArray.seekToLast, SortedFile.seekToLast, slots, rank]

end SortedKV

abbrev MergedSortedKV := List SortedKV

namespace MergedSortedKV

def runs (levels : MergedSortedKV) : List KVRun := levels.map SortedKV.slots

def estimatedSize (levels : MergedSortedKV) : ℕ := (levels.map SortedKV.estimatedSize).sum

/-- The first level that holds the key answers. -/
def getExact (levels : MergedSortedKV) (key : Bytes) : Option (Option Bytes) :=
  levels.findSome? fun sub => sub.getExact key

def iter (levels : MergedSortedKV) : Merged Bytes Bytes :=
  let cursors := levels.map SortedKV.iter
  ⟨cursors, levelsLowest cursors⟩

def seek (levels : MergedSortedKV) (key : Bytes) : Merged Bytes Bytes :=
  let cursors := levels.map fun sub => sub.seek key
  ⟨cursors, levelsLowest cursors⟩

def seekToLast (levels : MergedSortedKV) : Merged Bytes Bytes :=
  let cursors := levels.map SortedKV.seekToLast
  ⟨cursors, levelsHighest cursors⟩

/-- Push every slot of the merging iterator onto a fresh array. -/
def collect (levels : MergedSortedKV) : SortedArray :=
  drain SlotIter.next (fun _ => true) (SlotIter.size (iter levels)) (iter levels)

variable {levels : MergedSortedKV}

theorem getExact_eq (increasing : ∀ run ∈ runs levels, Increasing run) (key : Bytes) :
    getExact levels key = lookupLevels (runs levels) key := by
  induction levels with
  | nil => rfl
  | cons sub rest ih =>
    have head := sub.getExact_eq (increasing _ (List.mem_cons_self ..)) key
    have tail := ih fun run member => increasing run (List.mem_cons_of_mem _ member)
    rw [getExact, List.findSome?_cons, head, runs, List.map_cons, lookupLevels_cons]
    cases lookup sub.slots key with
    | none => exact tail
    | some val => rfl

theorem iter_eq : iter levels = Merged.ahead (runs levels) fun _ => false := by
  have cursors : levels.map SortedKV.iter = (runs levels).map fun run => ⟨run, rank run fun _ => false⟩ := by
    rw [runs, List.map_map]
    exact List.map_congr_left fun sub _ => sub.iter_eq
  simp only [iter, Merged.ahead, cursors]

theorem seek_eq (increasing : ∀ run ∈ runs levels, Increasing run) (key : Bytes) :
    seek levels key = Merged.ahead (runs levels) fun other => decide (other < key) := by
  have cursors : (levels.map fun sub => sub.seek key) =
      (runs levels).map fun run => ⟨run, rank run fun other => decide (other < key)⟩ := by
    rw [runs, List.map_map]
    exact List.map_congr_left fun sub member => sub.seek_eq (increasing _ (List.mem_map_of_mem member)) key
  simp only [seek, Merged.ahead, cursors]

theorem seekToLast_eq : seekToLast levels = Merged.behind (runs levels) fun _ => true := by
  have cursors : levels.map SortedKV.seekToLast =
      (runs levels).map fun run => ⟨run, (rank run fun _ => true) - 1⟩ := by
    rw [runs, List.map_map]
    exact List.map_congr_left fun sub _ => sub.seekToLast_eq
  simp only [seekToLast, Merged.behind, cursors]

/-- The ways to open an iterator. -/
inductive Start where
  | iter
  | seek (key : Bytes)
  | seekToLast
deriving DecidableEq, Repr

def start (levels : MergedSortedKV) : Start → Merged Bytes Bytes
  | .iter => iter levels
  | .seek key => seek levels key
  | .seekToLast => seekToLast levels

/-- Where a cursor over one run starts: on the first slot, on the first one not below the key, or on the last one. -/
def Start.cursor (run : KVRun) : Start → Cursor Bytes Bytes
  | .iter => ⟨run, 0⟩
  | .seek key => ⟨run, rank run fun other => decide (other < key)⟩
  | .seekToLast => ⟨run, run.length - 1⟩

theorem start_tracks (increasing : ∀ run ∈ runs levels, Increasing run) (merged : KVRun) (opened : Start) :
    Merged.Tracks (runs levels) merged (start levels opened) (opened.cursor merged) := by
  cases opened with
  | iter =>
    rw [start, iter_eq]
    simpa [Start.cursor, rank] using Merged.Tracks.forward (isCut_const false)
  | seek key =>
    rw [start, seek_eq increasing]
    exact .forward (isCut_lt key)
  | seekToLast =>
    rw [start, seekToLast_eq]
    simpa [Start.cursor, rank] using Merged.Tracks.backward (isCut_const true)

/-- Wherever it is opened and however it is moved, the merging iterator is where a cursor over the merged run is. -/
theorem merging_iterator (increasing : ∀ run ∈ runs levels, Increasing run) :
    ∃ merged, IsMerge (runs levels) merged ∧ ∀ (opened : Start) (moves : List Move),
      (walk (start levels opened) moves).valid = (walk (opened.cursor merged) moves).slot?.isSome ∧
        (walk (start levels opened) moves).slot? = (walk (opened.cursor merged) moves).slot? := by
  obtain ⟨merged, merge⟩ := exists_isMerge increasing
  refine ⟨merged, merge, fun opened moves => ?_⟩
  have tracked := (Merged.simulates merge).walk (start_tracks increasing merged opened) moves
  have same := tracked.slot merge
  exact ⟨tracked.valid.trans (congrArg Option.isSome same), same⟩

/-- A key in both levels, a tombstone over a value and keys of one level only. -/
def overlapping : MergedSortedKV :=
  [.array [⟨[1], some [10]⟩, ⟨[3], none⟩], .array [⟨[1], some [20]⟩, ⟨[2], some [30]⟩, ⟨[3], some [40]⟩]]

theorem merging_iterator_overlapping : (∀ run ∈ runs overlapping, Increasing run) ∧
    (walk (start overlapping (.seek [2])) [.next, .next, .prev, .prev, .prev]).slot? = some ⟨[1], some [10]⟩ ∧
    ∃ merged, IsMerge (runs overlapping) merged ∧ ∀ (opened : Start) (moves : List Move),
      (walk (start overlapping opened) moves).valid = (walk (opened.cursor merged) moves).slot?.isSome ∧
        (walk (start overlapping opened) moves).slot? = (walk (opened.cursor merged) moves).slot? :=
  ⟨by decide, by decide, merging_iterator (by decide)⟩

theorem iter_size : SlotIter.size (iter levels) = ((runs levels).map List.length).sum := by
  rw [iter_eq]
  simp [SlotIter.size, Merged.ahead, Function.comp_def]

/-- Collecting the merging iterator yields the merged run. -/
theorem collect_isMerge (increasing : ∀ run ∈ runs levels, Increasing run) :
    IsMerge (runs levels) (collect levels) := by
  obtain ⟨merged, merge⟩ := exists_isMerge increasing
  have drained : collect levels = merged := by
    rw [collect, iter_size, iter_eq]
    exact Merged.drain_ahead merge le_rfl
  rwa [drained]

/-- One memtable merged over another. -/
theorem collect_arrays {newer older : SortedArray} (left : Increasing newer) (right : Increasing older) :
    IsMerge [newer, older] (collect [.array newer, .array older]) := by
  have both : ∀ run ∈ runs [.array newer, .array older], Increasing run := by
    simp [runs, SortedKV.slots, left, right]
  exact collect_isMerge both

end MergedSortedKV

/-- What a file written through `NoDeletedSortedKV` holds: the iterator it starts from is not moved off
a leading tombstone, so that one stays. -/
def noDeletedSlots : KVRun → KVRun
  | [] => []
  | slot :: rest => slot :: rest.filter Slot.live

theorem noDeletedSlots_subset (run : KVRun) : noDeletedSlots run ⊆ run := by
  cases run with
  | nil => exact List.Subset.refl _
  | cons slot rest => exact List.cons_subset_cons _ List.filter_sublist.subset

variable {run : KVRun}

theorem noDeletedSlots_increasing (increasing : Increasing run) : Increasing (noDeletedSlots run) := by
  cases run with
  | nil => exact increasing
  | cons slot rest =>
    obtain ⟨smaller, tail⟩ := increasing_cons.mp increasing
    exact increasing_cons.mpr ⟨fun other member => smaller other (List.mem_of_mem_filter member),
      tail.filter _⟩

/-- Dropping tombstones changes no visible value. -/
theorem lookup_noDeletedSlots (increasing : Increasing run) (key : Bytes) :
    (lookup (noDeletedSlots run) key).join = (lookup run key).join := by
  have live : ∀ {run : KVRun}, Increasing run →
      (lookup (run.filter Slot.live) key).join = (lookup run key).join := by
    intro run increasing
    refine Option.ext fun val => ?_
    simp only [Option.join_eq_some_iff, (increasing.filter _).lookup_eq_some_iff,
      increasing.lookup_eq_some_iff, List.mem_filter, Slot.live, Option.isSome_some, and_true]
  cases run with
  | nil => rfl
  | cons slot rest =>
    rw [noDeletedSlots, lookup_cons, lookup_cons]
    split
    · rfl
    · exact live (increasing_cons.mp increasing).2

/-- A leading tombstone is the only one that stays. -/
theorem noDeletedSlots_eq_filter_iff (run : KVRun) :
    noDeletedSlots run = run.filter Slot.live ↔ run.head?.all Slot.live = true := by
  cases run with
  | nil => simp [noDeletedSlots]
  | cons slot rest =>
    rw [noDeletedSlots, List.head?_cons, Option.all_some]
    cases live : slot.live with
    | true => simp [live]
    | false =>
      rw [List.filter_cons_of_neg (by simp [live])]
      refine iff_of_false (fun same => ?_) (by simp)
      have longer := congrArg List.length same
      simp at longer

namespace SortedFile

variable (library : BloomLibrary) (version expected : ℕ)

private theorem noDeleted_drain {ι : Type*} [SlotIter ι Bytes Bytes] {tracks : ι → Cursor Bytes Bytes → Prop}
    (simulation : Simulates tracks) {source : ι} (related : tracks source ⟨run, (0 : ℕ)⟩) :
    drain SlotIter.next (fun _ => true) (SlotIter.size source) (⟨source⟩ : LiveIter ι) = noDeletedSlots run := by
  have enough := simulation.size related
  cases run with
  | nil =>
    have off : SlotIter.slot? (⟨source⟩ : LiveIter ι) = none := simulation.slot related
    cases SlotIter.size source with
    | zero => rfl
    | succ fuel => rw [drain, off]; rfl
  | cons slot rest => exact simulation.drain_live_start related enough

/-- A flushed memtable. -/
theorem createFromSorted_array (arr : SortedArray) :
    (createFromSorted library version expected (SortedArray.iter arr)).slots = arr := by
  change drain Cursor.next _ _ (⟨arr, (0 : ℕ)⟩ : Cursor Bytes Bytes) = arr
  rw [drain_cursor_next _ _ (by simp [SlotIter.size, SortedArray.iter])]
  simp

theorem createFromSorted_array_noDeleted (arr : SortedArray) :
    (createFromSorted library version expected (⟨SortedArray.iter arr⟩ : LiveIter _)).slots =
      noDeletedSlots arr :=
  noDeleted_drain Cursor.simulates_self (show SortedArray.iter arr = ⟨arr, (0 : ℕ)⟩ from rfl)

variable {levels : MergedSortedKV}

theorem createFromSorted_merged_noDeleted (increasing : ∀ run ∈ MergedSortedKV.runs levels, Increasing run) :
    (createFromSorted library version expected (⟨MergedSortedKV.iter levels⟩ : LiveIter _)).slots =
      noDeletedSlots (MergedSortedKV.collect levels) := by
  have merge := MergedSortedKV.collect_isMerge increasing
  exact noDeleted_drain (Merged.simulates merge) (MergedSortedKV.start_tracks increasing _ .iter)

end SortedFile

end PallasDB
