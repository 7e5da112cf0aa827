import PallasDB.Db.TableFormat

/-! # Reading an SSTable

Records are found through the offset index, kept in memory or read from the file, and by two binary searches
that compare one key at a time. On a file with the layout of `writeSortedFile` every lookup, every seek and
every walk returns what a search of the source sequence returns.
-/

namespace PallasDB

open SortedRun WriteBack BinarySearch TableEntry

namespace TableHandle

variable {φ : Type} (codec : BloomCodec φ) (handle : TableHandle φ)

/-! ## Records -/

/-- An offset is an `int64`, so that one of 2^63 and more is negative. -/
def checkOffset (offset : ℕ) : Except TableError ℕ :=
  if 2 ^ 63 ≤ offset ∨ offset < 8 + 8 * handle.nkeys then .error .corrupted else .ok offset

def entryOffset (pos : ℕ) : Except TableError ℕ :=
  if handle.nkeys ≤ pos then .error .checkFailed
  else if 8 * (pos + 1) ≤ handle.offsetIndex.length then
    handle.checkOffset (LittleEndian.decode (Entry.slice handle.offsetIndex (8 * pos) (8 * (pos + 1))))
  else do
    let buf ← readFileAt handle.content (8 + 8 * pos) 8
    handle.checkOffset (LittleEndian.decode buf)

/-- The lengths and the flag of the record at an offset, which start all three readers. -/
def readHeader (offset : ℕ) : Except TableError (ℕ × ℕ × Bool) := do
  let header ← readFileAt handle.content offset 9
  let klen := LittleEndian.decode (header.take 4)
  let vlen := LittleEndian.decode (Entry.slice header 4 8)
  if maxEntrySize < klen + vlen then throw .entryTooLarge
  return (klen, vlen, decide (header.getD 8 0 ≠ 0))

/-- `index`: a whole record. -/
def entryAt (pos : ℕ) : Except TableError TableEntry := do
  let offset ← handle.entryOffset pos
  let (klen, vlen, deleted) ← handle.readHeader offset
  let data ← readFileAt handle.content (offset + 9) (klen + vlen)
  return ⟨data.take klen, data.drop klen, deleted⟩

def valueAt (pos : ℕ) : Except TableError (Bytes × Bool) := do
  let offset ← handle.entryOffset pos
  let (klen, vlen, deleted) ← handle.readHeader offset
  let val ← if vlen ≠ 0 then readFileAt handle.content (offset + 9 + klen) vlen else .ok []
  return (val, deleted)

/-- `bytes.Compare`. -/
def compareBytes (left right : Bytes) : Ordering := LinearOrder.toOrd.compare left right

def compareKeyAt (pos : ℕ) (target : Bytes) : Except TableError Ordering := do
  let offset ← handle.entryOffset pos
  let (klen, _, _) ← handle.readHeader offset
  let key ← readFileAt handle.content (offset + 9) klen
  return compareBytes target key

/-! ## Searches -/

/-- The loop of `findPos` and `findPosExact`. -/
def searchKey (target : Bytes) : ℕ → ℕ → ℕ → Except TableError (ℕ × Bool)
  | 0, low, _ => .ok (low, false)
  | fuel + 1, low, high =>
      if low < high then do
        match ← handle.compareKeyAt (low + (high - low) / 2) target with
        | .gt => searchKey target fuel (low + (high - low) / 2 + 1) high
        | .lt => searchKey target fuel low (low + (high - low) / 2)
        | .eq => return (low + (high - low) / 2, true)
      else .ok (low, false)

def findPosExact (target : Bytes) : Except TableError (ℕ × Bool) := handle.searchKey target handle.nkeys 0 handle.nkeys

def findPos (target : Bytes) : Except TableError ℕ := (handle.findPosExact target).map Prod.fst

def mayContainKey (key : Bytes) : Bool := handle.bloom.all fun filter => codec.test filter key

def getExact (key : Bytes) : Except TableError (Option (Bytes × Bool)) :=
  if handle.mayContainKey codec key then do
    let (pos, found) ← handle.findPosExact key
    if found then (handle.valueAt pos).map some else return none
  else .ok none

/-! ## Iterators -/

/-- `SortedFileIter`: what was loaded last stays when the iterator leaves the table. -/
structure Iter where
  pos : ℤ
  loaded : TableEntry

namespace Iter

variable (iter : Iter)

def valid : Bool := decide (0 ≤ iter.pos ∧ iter.pos < handle.nkeys)

def loadCurrent : Except TableError Iter :=
  if iter.valid handle then (handle.entryAt iter.pos.toNat).map fun entry => { iter with loaded := entry }
  else .ok iter

def next : Except TableError Iter :=
  loadCurrent handle (if iter.pos < handle.nkeys then { iter with pos := iter.pos + 1 } else iter)

def prev : Except TableError Iter :=
  loadCurrent handle (if 0 ≤ iter.pos then { iter with pos := iter.pos - 1 } else iter)

def move : Move → Except TableError Iter
  | .next => iter.next handle
  | .prev => iter.prev handle

/-- What `Key`, `Val` and `Deleted` return while the iterator is valid. -/
def entry? : Option TableEntry := if iter.valid handle then some iter.loaded else none

end Iter

/-- A new iterator at a position. -/
def iterAt (pos : ℤ) : Except TableError Iter := Iter.loadCurrent handle ⟨pos, ⟨[], [], false⟩⟩

def iter : Except TableError Iter := handle.iterAt 0

def seek (key : Bytes) : Except TableError Iter := do
  let pos ← handle.findPos key
  handle.iterAt pos

def seekToLast : Except TableError Iter := handle.iterAt (handle.nkeys - 1)

/-- Move a new iterator about and look at what it is on. -/
def walk (start : Except TableError Iter) (moves : List Move) : Except TableError (Option TableEntry) := do
  let iter ← moves.foldlM (fun iter step => iter.move handle step) (← start)
  return iter.entry? handle

end TableHandle

/-! ## Searching the source -/

namespace TableEntry

variable (entries : List TableEntry)

/-- The value and the flag of a key in the source. -/
def find (key : Bytes) : Option (Bytes × Bool) :=
  (entries.find? fun entry => decide (entry.key = key)).map fun entry => (entry.val, entry.deleted)

/-- The position of the first key of the source that is not below the given one. -/
def lowerBound (key : Bytes) : ℕ := entries.countP fun entry => decide (entry.key < key)

/-- A position of the source moves one place past either end and no further. -/
def movePos (pos : ℤ) : Move → ℤ
  | .next => if pos < entries.length then pos + 1 else pos
  | .prev => if 0 ≤ pos then pos - 1 else pos

/-- What is at a position of the source. -/
def atPos (pos : ℤ) : Option TableEntry := if 0 ≤ pos then entries[pos.toNat]? else none

/-- What is where the moves lead from a position of the source. -/
def walkFrom (pos : ℤ) (moves : List Move) : Option TableEntry := atPos entries (moves.foldl (movePos entries) pos)

/-- The keys of the source, with all the rest as values. -/
def run : Run Bytes (Bytes × Bool) := entries.map fun entry => ⟨entry.key, some (entry.val, entry.deleted)⟩

end TableEntry

namespace TableHandle

variable {φ : Type}

/-- The readers of a table return what a search of the source returns. -/
structure Reads (codec : BloomCodec φ) (entries : List TableEntry) (handle : TableHandle φ) : Prop where
  getExact (key : Bytes) : handle.getExact codec key = .ok (find entries key)
  iter (moves : List Move) : handle.walk handle.iter moves = .ok (walkFrom entries 0 moves)
  seek (key : Bytes) (moves : List Move) :
    handle.walk (handle.seek key) moves = .ok (walkFrom entries (lowerBound entries key) moves)
  seekToLast (moves : List Move) : handle.walk handle.seekToLast moves =
    .ok (walkFrom entries (entries.length - 1) moves)

/-- An open table over a file that holds the entries, with or without the offset index in memory. -/
structure Backed (codec : BloomCodec φ) (place : ℕ) (entries : List TableEntry) (handle : TableHandle φ) : Prop where
  nkeys : handle.nkeys = entries.length
  room : 8 + 8 * entries.length ≤ place
  bound : place + dataSize entries < 2 ^ 63
  index : Holds handle.content 8 (indexBytes place entries)
  data : Holds handle.content place (dataBytes entries)
  cached : handle.offsetIndex = [] ∨ handle.offsetIndex = indexBytes place entries
  bloom : ∀ filter ∈ handle.bloom, ∀ entry ∈ entries, codec.test filter entry.key = true
  small : ∀ entry ∈ entries, entry.size ≤ maxEntrySize

variable {codec : BloomCodec φ} {place : ℕ} {entries : List TableEntry} {handle : TableHandle φ} {entry : TableEntry}
    {pos : ℕ}

private theorem split_at (read : entries[pos]? = some entry) :
    entries = entries.take pos ++ ([entry] ++ entries.drop (pos + 1)) ∧ (entries.take pos).length = pos := by
  obtain ⟨inside, here⟩ := List.getElem?_eq_some_iff.mp read
  refine ⟨?_, List.length_take_of_le (Nat.le_of_lt inside)⟩
  rw [List.singleton_append, ← here, ← List.drop_eq_getElem_cons inside, List.take_append_drop]

/-- The record at a position. -/
theorem Backed.record (backed : Backed codec place entries handle) (read : entries[pos]? = some entry) :
    Holds handle.content (place + dataSize (entries.take pos)) entry.record := by
  have data := backed.data
  rw [(split_at read).1, dataBytes_append, dataBytes_append, dataBytes_singleton] at data
  rw [← length_dataBytes]
  exact data.middle

theorem Backed.entryOffset (backed : Backed codec place entries handle) (read : entries[pos]? = some entry) :
    handle.entryOffset pos = .ok (place + dataSize (entries.take pos)) := by
  obtain ⟨split, front⟩ := split_at read
  obtain ⟨inside, -⟩ := List.getElem?_eq_some_iff.mp read
  have room := backed.room
  have bound := backed.bound
  have count := backed.nkeys
  have sizes : dataSize entries = dataSize (entries.take pos) + dataSize ([entry] ++ entries.drop (pos + 1)) := by
    rw [← dataSize_append, ← split]
  have field : (LittleEndian.encode 8 (place + dataSize (entries.take pos))).length = 8 := LittleEndian.length_encode ..
  have value : LittleEndian.decode (LittleEndian.encode 8 (place + dataSize (entries.take pos))) =
      place + dataSize (entries.take pos) := LittleEndian.decode_encode (by omega)
  have checked : handle.checkOffset (place + dataSize (entries.take pos)) = .ok (place + dataSize (entries.take pos)) :=
    if_neg (by omega)
  have whole : indexBytes place entries = indexBytes place (entries.take pos) ++
      (LittleEndian.encode 8 (place + dataSize (entries.take pos)) ++
        indexBytes (place + dataSize (entries.take pos) + (9 + entry.size)) (entries.drop (pos + 1))) := by
    conv_lhs => rw [split, indexBytes_append]
    rfl
  have before : (indexBytes place (entries.take pos)).length = 8 * pos := by rw [length_indexBytes, front]
  rw [TableHandle.entryOffset, if_neg (by omega)]
  split
  · next kept =>
    rcases backed.cached with none | full
    · rw [none, List.length_nil] at kept
      omega
    · rw [full, Entry.slice_append _ _ _ whole before.symm (by omega), value, checked]
  · have index := backed.index
    rw [whole] at index
    have held := index.middle
    rw [before] at held
    rw [readFileAt_holds held field.symm]
    simp only [bind, Except.bind, value, checked]

theorem readHeader_holds {offset : ℕ} (holds : Holds handle.content offset entry.record)
    (small : entry.size ≤ maxEntrySize) :
    handle.readHeader offset = .ok (entry.key.length, entry.val.length, entry.deleted) := by
  have cap : maxEntrySize < 256 ^ 4 := by decide
  have sizes : entry.key.length + entry.val.length ≤ maxEntrySize := small
  have keyField : (LittleEndian.encode 4 entry.key.length).length = 4 := LittleEndian.length_encode ..
  have valField : (LittleEndian.encode 4 entry.val.length).length = 4 := LittleEndian.length_encode ..
  have key : entry.header.take 4 = LittleEndian.encode 4 entry.key.length := by
    exact List.take_left' keyField
  have val : Entry.slice entry.header 4 8 = LittleEndian.encode 4 entry.val.length :=
    Entry.slice_append (LittleEndian.encode 4 entry.key.length) _ [if entry.deleted then 1 else 0]
      (by rw [header, List.append_assoc]) keyField.symm (by omega)
  have flag : entry.header.getD 8 0 = if entry.deleted then 1 else 0 := by
    rw [header, List.getD_eq_getElem?_getD, List.getElem?_append_right (by simp)]
    simp
  rw [readHeader, readFileAt_holds holds.left entry.length_header.symm]
  simp only [bind, Except.bind, key, val, flag]
  rw [LittleEndian.decode_encode (by omega), LittleEndian.decode_encode (by omega), if_neg (by omega)]
  cases entry.deleted <;> rfl

/-- The three readers of a record. -/
theorem Backed.readers (backed : Backed codec place entries handle) (read : entries[pos]? = some entry) :
    handle.entryAt pos = .ok entry ∧ handle.valueAt pos = .ok (entry.val, entry.deleted) ∧
      ∀ target, handle.compareKeyAt pos target = .ok (compareBytes target entry.key) := by
  have offset := backed.entryOffset read
  have holds := backed.record read
  have header := readHeader_holds holds (backed.small entry (List.mem_of_getElem? read))
  have body : Holds handle.content (place + dataSize (entries.take pos) + 9) (entry.key ++ entry.val) := by
    have right := holds.right
    rwa [entry.length_header] at right
  refine ⟨?_, ?_, fun target => ?_⟩
  · have data := readFileAt_holds body (List.length_append ..).symm
    simp only [entryAt, offset, header, data, bind, Except.bind, pure, Except.pure, List.take_left, List.drop_left]
  · simp only [valueAt, offset, header, bind, Except.bind, pure, Except.pure]
    split
    · rw [readFileAt_holds body.right rfl]
    · next empty =>
      have none : entry.val = [] := List.length_eq_zero_iff.mp (not_not.mp empty)
      rw [none]
  · simp only [compareKeyAt, offset, header, readFileAt_holds body.left rfl, bind, Except.bind, pure, Except.pure]

/-! ## Searches and walks -/

private theorem order_at (read : entries[pos]? = some entry) (target : Bytes) :
    compareBytes target entry.key = (slotOrder (run entries) target pos).swap := by
  have swap : compareBytes target entry.key = (compareBytes entry.key target).swap := by
    unfold compareBytes
    exact Std.OrientedCmp.eq_swap
  rw [swap, slotOrder, run, List.getElem?_map, read]
  rfl

theorem Backed.searchKey (backed : Backed codec place entries handle) (target : Bytes) {fuel low high : ℕ}
    (inside : high ≤ entries.length) :
    handle.searchKey target fuel low high = .ok (findIndex (slotOrder (run entries) target) fuel low high) := by
  induction fuel generalizing low high with
  | zero => rfl
  | succ fuel ih =>
    rw [TableHandle.searchKey, findIndex]
    split
    · next active =>
      have middle : low + (high - low) / 2 < entries.length := by omega
      have read : entries[low + (high - low) / 2]? = some entries[low + (high - low) / 2] :=
        List.getElem?_eq_getElem middle
      rw [(backed.readers read).2.2 target, order_at read]
      cases slotOrder (run entries) target (low + (high - low) / 2) with
      | lt => exact ih inside
      | eq => rfl
      | gt => exact ih (by omega)
    · rfl

section Increasing

variable (increasing : entries.Pairwise fun a b => a.key < b.key)

include increasing

theorem run_increasing : Increasing (run entries) := by
  rw [Increasing, run, List.pairwise_map]
  exact increasing

/-- The position both searches end at, and whether the key is there. -/
theorem Backed.findPosExact (backed : Backed codec place entries handle) (target : Bytes) :
    handle.findPosExact target = .ok (lowerBound entries target, (lookup (run entries) target).isSome) := by
  have length : (run entries).length = entries.length := List.length_map ..
  have position : rank (run entries) (fun key => decide (key < target)) = lowerBound entries target :=
    List.countP_map ..
  rw [TableHandle.findPosExact, backed.nkeys, backed.searchKey target (Nat.le_refl _), ← length,
    findIndex_rank (run_increasing increasing), position]

omit increasing in
theorem lookup_run (entries : List TableEntry) (key : Bytes) :
    lookup (run entries) key = (find entries key).map some := by
  induction entries with
  | nil => rfl
  | cons entry rest ih =>
    have split : run (entry :: rest) = ⟨entry.key, some (entry.val, entry.deleted)⟩ :: run rest := rfl
    rw [split, lookup_cons, ih]
    by_cases same : entry.key = key
    · simp [same, find]
    · simp [same, find]

theorem Backed.getExact (backed : Backed codec place entries handle) (key : Bytes) :
    handle.getExact codec key = .ok (find entries key) := by
  have search := backed.findPosExact increasing key
  rw [lookup_run, Option.isSome_map] at search
  rw [TableHandle.getExact]
  cases found : find entries key with
  | none =>
    rw [found] at search
    split
    · rw [search]
      rfl
    · rfl
  | some pair =>
    obtain ⟨entry, first, rfl⟩ := Option.map_eq_some_iff.mp found
    have same : entry.key = key := by simpa using List.find?_some first
    subst same
    have member := List.mem_of_find?_eq_some first
    have passes : handle.mayContainKey codec entry.key = true := by
      rw [mayContainKey, Option.all_eq_true]
      exact fun filter installed => backed.bloom filter installed entry member
    obtain ⟨pos, inside, here⟩ := List.mem_iff_getElem.mp member
    have read : entries[pos]? = some entry := List.getElem?_eq_some_iff.mpr ⟨inside, here⟩
    have position : lowerBound entries entry.key = pos := by
      have slot : (run entries)[pos]? = some ⟨entry.key, some (entry.val, entry.deleted)⟩ := by
        rw [run, List.getElem?_map, read]
        rfl
      have rank := (run_increasing increasing).rank_lt slot
      rwa [SortedRun.rank, run, List.countP_map] at rank
    rw [found, position] at search
    rw [if_pos passes, search]
    simp only [bind, Except.bind, Option.isSome_some, if_true, (backed.readers read).2.1]
    rfl

end Increasing

/-- What an iterator shows at a position of the source. -/
structure Iter.Shows (handle : TableHandle φ) (entries : List TableEntry) (pos : ℤ) (iter : Iter) : Prop where
  at_pos : iter.pos = pos
  entry : iter.entry? handle = atPos entries pos

section

variable (backed : Backed codec place entries handle)

include backed

theorem Backed.loadCurrent (iter : Iter) :
    ∃ next, iter.loadCurrent handle = .ok next ∧ next.Shows handle entries iter.pos := by
  have count := backed.nkeys
  rw [Iter.loadCurrent]
  by_cases inside : 0 ≤ iter.pos ∧ iter.pos < handle.nkeys
  · have valid : iter.valid handle = true := decide_eq_true inside
    have bound : iter.pos.toNat < entries.length := by omega
    have read : entries[iter.pos.toNat]? = some entries[iter.pos.toNat] := List.getElem?_eq_getElem bound
    rw [if_pos valid, (backed.readers read).1]
    refine ⟨_, rfl, rfl, ?_⟩
    rw [atPos, if_pos inside.1, read]
    exact if_pos valid
  · have invalid : iter.valid handle = false := decide_eq_false inside
    rw [if_neg (by simp [invalid])]
    refine ⟨iter, rfl, rfl, ?_⟩
    rw [Iter.entry?, if_neg (by simp [invalid]), atPos]
    split
    · exact (List.getElem?_eq_none_iff.mpr (by omega)).symm
    · rfl

theorem Backed.move {iter : Iter} {pos : ℤ} (shows : iter.Shows handle entries pos)
    (step : Move) : ∃ next, iter.move handle step = .ok next ∧
    next.Shows handle entries (movePos entries pos step) := by
  have count := backed.nkeys
  have here := shows.at_pos
  cases step with
  | next =>
    obtain ⟨next, loaded, shown⟩ :=
      backed.loadCurrent (if iter.pos < handle.nkeys then { iter with pos := iter.pos + 1 } else iter)
    refine ⟨next, loaded, ?_⟩
    rw [movePos, ← here, ← count]
    split at shown
    · next before => rwa [if_pos before]
    · next past => rwa [if_neg past]
  | prev =>
    obtain ⟨next, loaded, shown⟩ :=
      backed.loadCurrent (if 0 ≤ iter.pos then { iter with pos := iter.pos - 1 } else iter)
    refine ⟨next, loaded, ?_⟩
    rw [movePos, ← here]
    split at shown
    · next inside => rwa [if_pos inside]
    · next before => rwa [if_neg before]

/-- A walk from a new iterator. -/
theorem Backed.walk (pos : ℤ) (moves : List Move) :
    handle.walk (handle.iterAt pos) moves = .ok (walkFrom entries pos moves) := by
  obtain ⟨start, loaded, shown⟩ := backed.loadCurrent ⟨pos, ⟨[], [], false⟩⟩
  have ran : ∀ (moves : List Move) {iter : Iter} {pos : ℤ}, iter.Shows handle entries pos →
      ∃ final, moves.foldlM (fun iter step => Iter.move handle iter step) iter = .ok final ∧
        final.Shows handle entries (moves.foldl (movePos entries) pos) := by
    intro moves
    induction moves with
    | nil => exact fun shows => ⟨_, rfl, shows⟩
    | cons step rest ih =>
      intro iter pos shows
      obtain ⟨next, moved, shown⟩ := backed.move shows step
      obtain ⟨final, ran, ends⟩ := ih shown
      refine ⟨final, ?_, ends⟩
      rw [List.foldlM_cons, moved]
      exact ran
  obtain ⟨final, moved, ends⟩ := ran moves shown
  rw [TableHandle.walk, iterAt, loaded]
  simp only [bind, Except.bind, moved, ends.entry]
  rfl

theorem Backed.reads (increasing : entries.Pairwise fun a b => a.key < b.key) : handle.Reads codec entries where
  getExact := backed.getExact increasing
  iter := backed.walk 0
  seek key moves := by
    rw [TableHandle.seek, findPos, backed.findPosExact increasing key]
    exact backed.walk _ moves
  seekToLast moves := by
    rw [TableHandle.seekToLast, backed.nkeys]
    exact backed.walk _ moves

end

/-- What was written is backed, with the offset index in memory or without. -/
theorem Written.backed {filter : φ} {estimated : ℕ} (written : Written codec estimated entries filter handle.content)
    (nkeys : handle.nkeys = entries.length) (bloom : handle.bloom = some filter)
    (cached : handle.offsetIndex = [] ∨ handle.offsetIndex = indexBytes (8 + 8 * estimated) entries)
    (contains : ∀ entry ∈ entries, codec.test filter entry.key = true)
    (small : ∀ entry ∈ entries, entry.size ≤ maxEntrySize) : Backed codec (8 + 8 * estimated) entries handle where
  nkeys := nkeys
  room := by
    have room := written.room
    omega
  bound := by
    have size := written.size
    have bound := written.bound
    omega
  index := written.index
  data := written.data
  cached := cached
  bloom := by
    rw [bloom]
    rintro _ ⟨⟩
    exact contains
  small := small

theorem filterOf_contains (codec : BloomCodec φ) (estimated : ℕ) (entries : List TableEntry) :
    ∀ entry ∈ entries, codec.test (filterOf codec estimated entries) entry.key = true := fun _ member =>
  codec.noFalseNegatives _ _ _ (List.mem_map_of_mem member)

/-- A table reads as its source when it has been created and when it has been opened again, with the offset
index in memory or without. -/
theorem round_trip (codec : BloomCodec φ) (estimated : ℕ) (entries : List TableEntry)
    (increasing : entries.Pairwise fun a b => a.key < b.key) (few : entries.length ≤ maxNKeys)
    (small : ∀ entry ∈ entries, entry.size ≤ maxEntrySize) (room : entries.length ≤ estimated) :
    (8 + 8 * estimated + dataSize entries + (codec.marshal (filterOf codec estimated entries)).length +
      bloomFooterSize < 2 ^ 63 → ∃ handle, writeSortedFile codec estimated entries = .ok handle) ∧
    ∀ created, writeSortedFile codec estimated entries = .ok created →
      created.Reads codec entries ∧ { created with offsetIndex := [] }.Reads codec entries ∧
      ∃ opened, openExisting codec created.content = .ok opened ∧
        opened.Reads codec entries ∧ { opened with offsetIndex := [] }.Reads codec entries := by
  refine ⟨writeSortedFile_returns room, fun created wrote => ?_⟩
  obtain ⟨nkeys, bloom, cached, written⟩ := writeSortedFile_ok room wrote
  obtain ⟨opened, ran, same, count, filter, kept⟩ := written.opens few
  have contains := filterOf_contains codec estimated entries
  have reads (handle : TableHandle φ) (file : handle.content = created.content) (count : handle.nkeys = entries.length)
      (filter : handle.bloom = some (filterOf codec estimated entries))
      (kept : handle.offsetIndex = [] ∨ handle.offsetIndex = indexBytes (8 + 8 * estimated) entries) :
      handle.Reads codec entries :=
    (Written.backed (file ▸ written) count filter kept contains small).reads increasing
  exact ⟨reads created rfl nkeys bloom cached, reads { created with offsetIndex := [] } rfl nkeys bloom (.inl rfl),
    opened, ran, reads opened same count filter kept,
    reads { opened with offsetIndex := [] } same count filter (.inl rfl)⟩

end TableHandle

/-! ### A small filter -/

/-- Fingerprints of one byte. -/
def fingerprints : BloomCodec Bytes where
  new _ := []
  add filter key := (crc32 key).toUInt8 :: filter
  test filter key := filter.contains (crc32 key).toUInt8
  marshal filter := 1 :: filter
  unmarshal
    | [] => none
    | _ :: filter => some filter
  noFalseNegatives _ keys key member := by
    have kept (keys : List Bytes) (filter : Bytes) (print : UInt8) (old : print ∈ filter) :
        print ∈ keys.foldl (fun filter key => (crc32 key).toUInt8 :: filter) filter := by
      induction keys generalizing filter with
      | nil => exact old
      | cons first rest ih => exact ih _ (List.mem_cons_of_mem _ old)
    have added (filter : Bytes) : (crc32 key).toUInt8 ∈ keys.foldl (fun filter key =>
      (crc32 key).toUInt8 :: filter) filter := by
      induction keys generalizing filter with
      | nil => contradiction
      | cons first rest ih =>
        rcases List.mem_cons.mp member with rfl | later
        · exact kept rest _ _ (List.mem_cons_self ..)
        · exact ih later _
    exact List.contains_iff_mem.mpr (added [])
  unmarshal_marshal _ := rfl
  marshal_ne_nil _ := by simp

namespace TableHandle

/-- Two records with a tombstone between them, in a table with room for five. -/
def threeEntries : List TableEntry := [⟨[120], [49], false⟩, ⟨[120, 50], [], true⟩, ⟨[121], [50, 51, 52], false⟩]

theorem round_trip_threeEntries : (∃ handle, writeSortedFile fingerprints 5 threeEntries = .ok handle) ∧
    ∀ created, writeSortedFile fingerprints 5 threeEntries = .ok created →
      created.Reads fingerprints threeEntries ∧ { created with offsetIndex := [] }.Reads fingerprints threeEntries ∧
      ∃ opened, openExisting fingerprints created.content = .ok opened ∧
        opened.Reads fingerprints threeEntries ∧ { opened with offsetIndex := [] }.Reads fingerprints threeEntries :=
  have held := round_trip fingerprints 5 threeEntries (by decide +kernel) (by decide) (by decide) (by decide)
  ⟨held.1 (by decide +kernel), held.2⟩

end TableHandle

/-! ## The tables of the store -/

/-- A slot as it is written: a tombstone has no value. -/
def TableEntry.ofSlot (slot : KVSlot) : TableEntry := ⟨slot.key, slot.val.getD [], slot.val.isNone⟩

namespace TableHandle

variable {φ : Type} {codec : BloomCodec φ} {handle : TableHandle φ} {file : SortedFile}

private theorem find_ofSlot (slots : KVRun) (key : Bytes) :
    find (slots.map ofSlot) key = (lookup slots key).map fun val => (val.getD [], val.isNone) := by
  induction slots with
  | nil => rfl
  | cons slot rest ih =>
    rw [lookup_cons]
    by_cases same : slot.key = key
    · simp [find, ofSlot, same]
    · rw [if_neg same, ← ih]
      simp [find, ofSlot, same]

private theorem walkFrom_ofSlot (slots : KVRun) (pos : ℤ) (moves : List Move) :
    walkFrom (slots.map ofSlot) pos moves =
      (SlotIter.slot? (SortedRun.walk (⟨slots, pos⟩ : Cursor Bytes Bytes) moves)).map ofSlot := by
  induction moves generalizing pos with
  | nil =>
    have here : SlotIter.slot? (SortedRun.walk (⟨slots, pos⟩ : Cursor Bytes Bytes) []) =
        if 0 ≤ pos then slots[pos.toNat]? else none := rfl
    rw [here, walkFrom, List.foldl_nil, atPos]
    by_cases inside : 0 ≤ pos
    · rw [if_pos inside, if_pos inside, List.getElem?_map]
    · rw [if_neg inside, if_neg inside]
      rfl
  | cons step rest ih =>
    have moved : SortedRun.move (⟨slots, pos⟩ : Cursor Bytes Bytes) step =
      ⟨slots, movePos (slots.map ofSlot) pos step⟩ := by
      cases step with
      | next =>
        simp only [SortedRun.move, SlotIter.next, Cursor.next, movePos, List.length_map]
        split <;> rfl
      | prev =>
        simp only [SortedRun.move, SlotIter.prev, Cursor.prev, movePos]
        split <;> rfl
    have walked : SortedRun.walk (⟨slots, pos⟩ : Cursor Bytes Bytes) (step :: rest) =
        SortedRun.walk ⟨slots, movePos (slots.map ofSlot) pos step⟩ rest := by
      rw [← moved]
      rfl
    rw [walked, ← ih]
    rfl

/-- The bytes of a table answer as the table does. -/
theorem Reads.sortedFile (reads : handle.Reads codec (file.slots.map ofSlot)) (increasing : Increasing file.slots) :
    (∀ key, handle.getExact codec key = .ok ((file.getExact key).map fun val => (val.getD [], val.isNone))) ∧
    (∀ moves, handle.walk handle.iter moves = .ok ((SlotIter.slot? (SortedRun.walk file.iter moves)).map ofSlot)) ∧
    (∀ key moves, handle.walk (handle.seek key) moves =
      .ok ((SlotIter.slot? (SortedRun.walk (file.seek key) moves)).map ofSlot)) ∧
    ∀ moves, handle.walk handle.seekToLast moves =
      .ok ((SlotIter.slot? (SortedRun.walk file.seekToLast moves)).map ofSlot) := by
  refine ⟨fun key => ?_, fun moves => ?_, fun key moves => ?_, fun moves => ?_⟩
  · rw [reads.getExact, find_ofSlot, file.getExact_eq increasing]
  · rw [reads.iter, walkFrom_ofSlot]
    rfl
  · have position : (file.findPos key : ℤ) = lowerBound (file.slots.map ofSlot) key := by
      rw [SortedFile.findPos, SortedFile.findPosExact, findIndex_rank increasing, lowerBound, List.countP_map]
      rfl
    rw [reads.seek, walkFrom_ofSlot, ← position]
    rfl
  · rw [reads.seekToLast, walkFrom_ofSlot, List.length_map]
    rfl

end TableHandle

end PallasDB
