import PallasDB.Db.SortedKV
import PallasDB.Db.Entry
import PallasDB.Lib.FileRegion
import PallasDB.Lib.Program

/-! # The bytes of an SSTable

`writeSortedFile` reserves an offset index for the estimated number of keys, writes the records behind it, each
with its lengths and its tombstone flag, and ends with the bloom filter and a footer. `Open` reads the number
of keys, the offset index if it is small enough to keep, and the filter. Whatever the estimate was, the file
holds the index at its start and the records in one piece behind the reserved space.
-/

namespace PallasDB

open SortedRun WriteBack Program

/-- What a source iterator yields. -/
structure TableEntry where
  key : Bytes
  val : Bytes
  deleted : Bool
deriving DecidableEq, Repr

/-- The bloom filter library with its serialization. -/
structure BloomCodec (φ : Type) where
  new : ℕ → φ
  add : φ → Bytes → φ
  test : φ → Bytes → Bool
  marshal : φ → Bytes
  unmarshal : Bytes → Option φ
  noFalseNegatives : ∀ (expected : ℕ) (keys : List Bytes) (key : Bytes), key ∈ keys →
    test (keys.foldl add (new expected)) key = true
  unmarshal_marshal : ∀ filter, unmarshal (marshal filter) = some filter
  marshal_ne_nil : ∀ filter, marshal filter ≠ []

/-- The open file with what is kept of it in memory; no offset index is an empty one. -/
structure TableHandle (φ : Type) where
  content : Bytes
  nkeys : ℕ
  offsetIndex : Bytes
  bloom : Option φ

def bloomFooterSize : ℕ := 16

def maxOffsetIndexBytes : ℕ := 64 * 2 ^ 20

/-- `PDBBLM1` and a line feed. -/
def bloomMagic : Bytes := [0x50, 0x44, 0x42, 0x42, 0x4C, 0x4D, 0x31, 0x0A]

/-- `ReadAt` of a whole buffer. -/
def readFileAt (content : Bytes) (offset size : ℕ) : Except TableError Bytes :=
  match readAt content offset size with
  | some data => .ok data
  | none => .error .eof

/-- `WriteAt`; a file ends before the offsets that `int64` can hold do. -/
def writeFileAt (content : Bytes) (offset : ℕ) (data : Bytes) : Except TableError Bytes :=
  if 2 ^ 63 ≤ offset + data.length then .error .fileTooLarge else .ok ((Op.write offset data).apply content)

namespace TableEntry

/-- The lengths and the flag in front of a record. -/
def header (entry : TableEntry) : Bytes :=
  LittleEndian.encode 4 entry.key.length ++ LittleEndian.encode 4 entry.val.length ++ [if entry.deleted then 1 else 0]

def record (entry : TableEntry) : Bytes := entry.header ++ (entry.key ++ entry.val)

def size (entry : TableEntry) : ℕ := entry.key.length + entry.val.length

theorem length_header (entry : TableEntry) : entry.header.length = 9 := by simp [header]

theorem length_record (entry : TableEntry) : entry.record.length = 9 + entry.size := by
  rw [record, List.length_append, length_header, List.length_append, size]

end TableEntry

namespace TableHandle

variable {φ : Type} (codec : BloomCodec φ)

/-! ## Writing -/

/-- `writeSortedFile` in the middle of its loop. -/
structure Writer (φ : Type) where
  content : Bytes
  offset : ℕ
  nkeys : ℕ
  index : Bytes
  filter : φ

/-- The offset index in memory with the place of the next record, if there is room for it. -/
def Writer.cacheOffset (writer : Writer φ) : Bytes :=
  if 8 * (writer.nkeys + 1) ≤ writer.index.length then
    (Op.write (8 * writer.nkeys) (LittleEndian.encode 8 writer.offset)).apply writer.index
  else writer.index

/-- One round of the loop. -/
def Writer.writeEntry (writer : Writer φ) (entry : TableEntry) : Except TableError (Writer φ) := do
  let place := LittleEndian.encode 8 writer.offset
  let indexed ← writeFileAt writer.content (8 + 8 * writer.nkeys) place
  let headed ← writeFileAt indexed writer.offset entry.header
  let keyed ← writeFileAt headed (writer.offset + 9) entry.key
  let content ← writeFileAt keyed (writer.offset + 9 + entry.key.length) entry.val
  return ⟨content, writer.offset + 9 + entry.key.length + entry.val.length, writer.nkeys + 1,
    writer.cacheOffset, codec.add writer.filter entry.key⟩

def Writer.writeEntries : Writer φ → List TableEntry → Except TableError (Writer φ)
  | writer, [] => .ok writer
  | writer, entry :: rest => do
      let next ← writer.writeEntry codec entry
      next.writeEntries rest

/-- The writer at the start; an offset index that would be too large is not kept. -/
def Writer.begin (estimated : ℕ) : Writer φ :=
  ⟨[], 8 + 8 * estimated, 0, if 8 * estimated ≤ maxOffsetIndexBytes then List.replicate (8 * estimated) 0 else [],
    codec.new (max 1 estimated)⟩

def footer (size : ℕ) : Bytes := LittleEndian.encode 8 size ++ bloomMagic

/-- What `writeSortedFile` does after the loop. -/
def Writer.finish (writer : Writer φ) (estimated : ℕ) : Except TableError (TableHandle φ) := do
  if estimated < writer.nkeys then throw .checkFailed
  let offsetIndex := if 8 * writer.nkeys ≤ writer.index.length then writer.index.take (8 * writer.nkeys) else []
  let counted ← writeFileAt writer.content 0 (LittleEndian.encode 8 writer.nkeys)
  let bloom := codec.marshal writer.filter
  let filtered ← writeFileAt counted writer.offset bloom
  let content ← writeFileAt filtered (writer.offset + bloom.length) (footer bloom.length)
  return ⟨content, writer.nkeys, offsetIndex, some writer.filter⟩

/-- `CreateFromSorted` from a source with the given estimated size. -/
def writeSortedFile (estimated : ℕ) (entries : List TableEntry) : Except TableError (TableHandle φ) := do
  let writer ← (Writer.begin codec estimated).writeEntries codec entries
  writer.finish codec estimated

/-! ## Opening -/

def loadOffsetIndex (content : Bytes) (nkeys : ℕ) : Except TableError Bytes :=
  if 8 * nkeys = 0 then .ok []
  else if maxOffsetIndexBytes < 8 * nkeys then .ok []
  else readFileAt content 8 (8 * nkeys)

def loadBloomFilter (content : Bytes) : Except TableError (Option φ) :=
  if content.length < bloomFooterSize then .ok none
  else do
    let foot ← readFileAt content (content.length - bloomFooterSize) bloomFooterSize
    if foot.drop 8 ≠ bloomMagic then return none
    let bloomLen := LittleEndian.decode (foot.take 8)
    if bloomLen = 0 ∨ content.length - bloomFooterSize < bloomLen then throw .bloomOutOfRange
    let data ← readFileAt content (content.length - bloomFooterSize - bloomLen) bloomLen
    match codec.unmarshal data with
    | none => throw .badBloom
    | some filter => return some filter

/-- `Open` of an existing file. -/
def openExisting (content : Bytes) : Except TableError (TableHandle φ) := do
  let nkeys := LittleEndian.decode (← readFileAt content 0 8)
  if maxNKeys < nkeys then throw .nkeysOutOfRange
  let offsetIndex ← loadOffsetIndex content nkeys
  let bloom ← loadBloomFilter codec content
  return ⟨content, nkeys, offsetIndex, bloom⟩

end TableHandle

/-! ## The layout -/

namespace TableEntry

/-- The records one after the other. -/
def dataBytes (entries : List TableEntry) : Bytes := entries.flatMap record

def dataSize (entries : List TableEntry) : ℕ := (entries.map fun entry => 9 + entry.size).sum

/-- The offsets of the records when the first one is at the given place. -/
def indexBytes : ℕ → List TableEntry → Bytes
  | _, [] => []
  | place, entry :: rest => LittleEndian.encode 8 place ++ indexBytes (place + (9 + entry.size)) rest

variable {entries front back : List TableEntry} {entry : TableEntry}

theorem dataBytes_append : dataBytes (front ++ back) = dataBytes front ++ dataBytes back := List.flatMap_append

theorem dataBytes_singleton : dataBytes [entry] = entry.record := by simp [dataBytes]

theorem dataSize_append : dataSize (front ++ back) = dataSize front + dataSize back := by simp [dataSize]

theorem dataSize_singleton : dataSize [entry] = 9 + entry.size := by simp [dataSize]

theorem length_dataBytes (entries : List TableEntry) : (dataBytes entries).length = dataSize entries := by
  induction entries with
  | nil => rfl
  | cons entry rest ih =>
    have split : entry :: rest = [entry] ++ rest := rfl
    rw [split, dataBytes_append, List.length_append, ih, dataBytes_singleton, length_record, dataSize_append,
      dataSize_singleton]

theorem length_indexBytes (place : ℕ) (entries : List TableEntry) :
    (indexBytes place entries).length = 8 * entries.length := by
  induction entries generalizing place with
  | nil => rfl
  | cons entry rest ih =>
    rw [indexBytes, List.length_append, ih, LittleEndian.length_encode, List.length_cons]
    omega

theorem indexBytes_append (place : ℕ) (front back : List TableEntry) :
    indexBytes place (front ++ back) = indexBytes place front ++ indexBytes (place + dataSize front) back := by
  induction front generalizing place with
  | nil => rfl
  | cons entry rest ih =>
    have size : dataSize (entry :: rest) = 9 + entry.size + dataSize rest := by simp [dataSize]
    rw [List.cons_append, indexBytes, ih, indexBytes, List.append_assoc, size, Nat.add_assoc]

end TableEntry

open TableEntry

variable {offset : ℕ}

theorem readFileAt_holds {content data : Bytes} {size : ℕ} (holds : Holds content offset data)
    (whole : size = data.length) : readFileAt content offset size = .ok data := by
  rw [readFileAt, holds.readAt whole]

theorem writeFileAt_ok {content next data : Bytes} (wrote : writeFileAt content offset data = .ok next) :
    offset + data.length < 2 ^ 63 ∧ next = (Op.write offset data).apply content := by
  unfold writeFileAt at wrote
  split at wrote
  · cases wrote
  · next room => exact ⟨Nat.not_le.mp room, (Except.ok.inj wrote).symm⟩

theorem writeFileAt_eq {content data : Bytes} (room : offset + data.length < 2 ^ 63) :
    writeFileAt content offset data = .ok ((Op.write offset data).apply content) := if_neg (Nat.not_le.mpr room)

/-- The three writes of a record. -/
def writeRecord (content : Bytes) (offset : ℕ) (entry : TableEntry) : Bytes :=
  (Op.write (offset + 9 + entry.key.length) entry.val).apply
    ((Op.write (offset + 9) entry.key).apply ((Op.write offset entry.header).apply content))

theorem holds_writeRecord (content : Bytes) (offset : ℕ) (entry : TableEntry) :
    Holds (writeRecord content offset entry) offset entry.record := by
  have header := entry.length_header
  rw [record, Holds.append, Holds.append, header]
  refine ⟨?_, ?_, holds_write _ _ _⟩
  · exact ((holds_write _ _ _).write_behind (by omega) _).write_behind (by omega) _
  · exact (holds_write _ _ _).write_behind (Nat.le_refl _) _

theorem holds_writeRecord_of_le {content region : Bytes} {place : ℕ} {entry : TableEntry}
    (holds : Holds content place region) (behind : place + region.length ≤ offset) :
    Holds (writeRecord content offset entry) place region :=
  ((holds.write_behind behind _).write_behind (by omega) _).write_behind (by omega) _

theorem length_writeRecord (content : Bytes) (offset : ℕ) (entry : TableEntry) :
    (writeRecord content offset entry).length = max content.length (offset + 9 + entry.size) := by
  rw [writeRecord, length_write, length_write, length_write, length_header, size]
  omega

namespace TableHandle

variable {φ : Type} {codec : BloomCodec φ} {estimated : ℕ} {entries done : List TableEntry} {entry : TableEntry}
  {handle : TableHandle φ}

/-- What the file holds after some rounds of the loop. -/
structure Writer.Inv (codec : BloomCodec φ) (estimated : ℕ) (done : List TableEntry) (writer : Writer φ) : Prop where
  nkeys : writer.nkeys = done.length
  offset : writer.offset = 8 + 8 * estimated + dataSize done
  index : Holds writer.content 8 (indexBytes (8 + 8 * estimated) done)
  data : Holds writer.content (8 + 8 * estimated) (dataBytes done)
  size : writer.content.length ≤ writer.offset
  cached : writer.index = [] ∨
    writer.index.length = 8 * estimated ∧ Holds writer.index 0 (indexBytes (8 + 8 * estimated) done)
  filter : writer.filter = (done.map TableEntry.key).foldl codec.add (codec.new (max 1 estimated))

namespace Writer

variable {writer next : Writer φ}

theorem inv_begin (codec : BloomCodec φ) (estimated : ℕ) : (begin codec estimated).Inv codec estimated [] where
  nkeys := rfl
  offset := rfl
  index := Holds.nil _ _
  data := Holds.nil _ _
  size := Nat.zero_le _
  cached := by
    rw [begin]
    split
    · exact .inr ⟨List.length_replicate, Holds.nil _ _⟩
    · exact .inl rfl
  filter := rfl

/-- What a round of the loop that succeeds writes. -/
theorem writeEntry_ok (wrote : writer.writeEntry codec entry = .ok next) :
    next = ⟨writeRecord ((Op.write (8 + 8 * writer.nkeys) (LittleEndian.encode 8 writer.offset)).apply writer.content)
        writer.offset entry, writer.offset + 9 + entry.key.length + entry.val.length, writer.nkeys + 1,
      writer.cacheOffset, codec.add writer.filter entry.key⟩ := by
  obtain ⟨indexed, atIndex, wrote⟩ := bind_eq_ok.mp wrote
  obtain ⟨headed, atHeader, wrote⟩ := bind_eq_ok.mp wrote
  obtain ⟨keyed, atKey, wrote⟩ := bind_eq_ok.mp wrote
  obtain ⟨content, atVal, wrote⟩ := bind_eq_ok.mp wrote
  rw [(writeFileAt_ok atVal).2, (writeFileAt_ok atKey).2, (writeFileAt_ok atHeader).2, (writeFileAt_ok atIndex).2]
    at wrote
  exact (Except.ok.inj wrote).symm

/-- The offset index in memory gets the place of the record. -/
theorem Inv.cacheOffset (inv : writer.Inv codec estimated done) (room : done.length < estimated) :
    writer.cacheOffset = [] ∨ writer.cacheOffset.length = 8 * estimated ∧
      Holds writer.cacheOffset 0 (indexBytes (8 + 8 * estimated) done ++ LittleEndian.encode 8 writer.offset) := by
  unfold Writer.cacheOffset
  have places := length_indexBytes (8 + 8 * estimated) done
  have field : (LittleEndian.encode 8 writer.offset).length = 8 := LittleEndian.length_encode ..
  rcases inv.cached with none | ⟨length, holds⟩
  · left
    rw [none]
    exact if_neg (by simp)
  · right
    have count := inv.nkeys
    rw [if_pos (by omega)]
    refine ⟨by rw [length_write_of_le (by omega), length], Holds.append.mpr ⟨holds.write_behind (by omega) _, ?_⟩⟩
    rw [places, Nat.zero_add, ← count]
    exact holds_write _ _ _

/-- Nothing that is written for a record touches what is there already. -/
theorem Inv.writeEntry (inv : writer.Inv codec estimated done) (room : done.length < estimated)
    (wrote : writer.writeEntry codec entry = .ok next) : next.Inv codec estimated (done ++ [entry]) := by
  have offset := inv.offset
  have count := inv.nkeys
  have places := length_indexBytes (8 + 8 * estimated) done
  have records := length_dataBytes done
  have field : (LittleEndian.encode 8 writer.offset).length = 8 := LittleEndian.length_encode ..
  have lastPlace : indexBytes (8 + 8 * estimated) (done ++ [entry]) =
      indexBytes (8 + 8 * estimated) done ++ LittleEndian.encode 8 writer.offset := by
    rw [indexBytes_append, ← offset]
    simp [indexBytes]
  obtain rfl := writeEntry_ok wrote
  refine ⟨by simp [count], ?_, ?_, ?_, ?_, ?_, by simp [inv.filter]⟩
  · rw [dataSize_append, dataSize_singleton, TableEntry.size]
    dsimp only
    omega
  · rw [lastPlace, Holds.append, places]
    refine ⟨holds_writeRecord_of_le (inv.index.write_behind (by omega) _) (by omega), ?_⟩
    rw [← count]
    exact holds_writeRecord_of_le (holds_write _ _ _) (by omega)
  · rw [dataBytes_append, dataBytes_singleton, Holds.append, records, ← offset]
    exact ⟨holds_writeRecord_of_le (inv.data.write_before (by omega)) (by omega), holds_writeRecord _ _ _⟩
  · have size := inv.size
    dsimp only
    rw [length_writeRecord, length_write, TableEntry.size]
    omega
  · rw [lastPlace]
    exact inv.cacheOffset room

theorem Inv.writeEntries (inv : writer.Inv codec estimated done) (room : done.length + entries.length ≤ estimated)
    (wrote : writer.writeEntries codec entries = .ok next) : next.Inv codec estimated (done ++ entries) := by
  induction entries generalizing writer done with
  | nil =>
    cases wrote
    rwa [List.append_nil]
  | cons entry rest ih =>
    obtain ⟨middle, first, wrote⟩ := bind_eq_ok.mp wrote
    rw [List.length_cons] at room
    have step := ih (inv.writeEntry (by omega) first) (by rw [List.length_append, List.length_singleton]; omega) wrote
    rwa [List.append_assoc] at step

end Writer

/-- A file as `writeSortedFile` leaves it. -/
structure Written (codec : BloomCodec φ) (estimated : ℕ) (entries : List TableEntry) (filter : φ) (content : Bytes) :
    Prop where
  count : Holds content 0 (LittleEndian.encode 8 entries.length)
  index : Holds content 8 (indexBytes (8 + 8 * estimated) entries)
  data : Holds content (8 + 8 * estimated) (dataBytes entries)
  bloom : Holds content (8 + 8 * estimated + dataSize entries) (codec.marshal filter)
  footer : Holds content (8 + 8 * estimated + dataSize entries + (codec.marshal filter).length)
    (footer (codec.marshal filter).length)
  size : content.length = 8 + 8 * estimated + dataSize entries + (codec.marshal filter).length + bloomFooterSize
  bound : content.length < 2 ^ 63
  room : entries.length ≤ estimated

/-- The filter that is built for the entries. -/
def filterOf (codec : BloomCodec φ) (estimated : ℕ) (entries : List TableEntry) : φ :=
  (entries.map TableEntry.key).foldl codec.add (codec.new (max 1 estimated))

theorem length_footer (size : ℕ) : (footer size).length = bloomFooterSize := by
    simp [footer, bloomMagic, bloomFooterSize]

theorem Writer.Inv.finish {writer : Writer φ} (inv : writer.Inv codec estimated entries)
    (room : entries.length ≤ estimated) (finished : writer.finish codec estimated = .ok handle) :
    handle.nkeys = entries.length ∧ handle.bloom = some (filterOf codec estimated entries) ∧
      (handle.offsetIndex = [] ∨ handle.offsetIndex = indexBytes (8 + 8 * estimated) entries) ∧
      Written codec estimated entries (filterOf codec estimated entries) handle.content := by
  have count := inv.nkeys
  have offset := inv.offset
  have same : writer.filter = filterOf codec estimated entries := inv.filter
  have places := length_indexBytes (8 + 8 * estimated) entries
  have records := length_dataBytes entries
  have field : (LittleEndian.encode 8 entries.length).length = 8 := LittleEndian.length_encode ..
  rw [Writer.finish, if_neg (by omega)] at finished
  obtain ⟨counted, atCount, finished⟩ := bind_eq_ok.mp finished
  obtain ⟨filtered, atFilter, finished⟩ := bind_eq_ok.mp finished
  obtain ⟨content, atFooter, finished⟩ := bind_eq_ok.mp finished
  obtain ⟨-, rfl⟩ := writeFileAt_ok atCount
  obtain ⟨-, rfl⟩ := writeFileAt_ok atFilter
  obtain ⟨bound, rfl⟩ := writeFileAt_ok atFooter
  rw [same, count, offset] at finished
  rw [same, offset, length_footer] at bound
  obtain rfl := Except.ok.inj finished
  refine ⟨rfl, rfl, ?_, ?_⟩
  · rcases inv.cached with none | ⟨length, holds⟩
    · left
      rw [none]
      exact ite_eq_right_iff.mpr fun _ => List.take_nil
    · right
      have cut := List.prefix_iff_eq_take.mp holds
      rw [List.drop_zero, places] at cut
      rw [if_pos (by omega), ← cut]
  · have size := inv.size
    have footerSize := length_footer (codec.marshal (filterOf codec estimated entries)).length
    refine ⟨?_, ?_, ?_, ?_, holds_write _ _ _, ?_, ?_, room⟩
    · exact ((holds_write _ _ _).write_behind (by omega) _).write_behind (by omega) _
    · exact ((inv.index.write_before (by omega)).write_behind (by omega) _).write_behind (by omega) _
    · exact ((inv.data.write_before (by omega)).write_behind (by omega) _).write_behind (by omega) _
    · exact (holds_write _ _ _).write_behind (Nat.le_refl _) _
    · rw [length_write, length_write, length_write]
      omega
    · rw [length_write, length_write, length_write]
      omega

/-- `CreateFromSorted` leaves the layout behind it. -/
theorem writeSortedFile_ok (room : entries.length ≤ estimated)
    (wrote : writeSortedFile codec estimated entries = .ok handle) :
    handle.nkeys = entries.length ∧ handle.bloom = some (filterOf codec estimated entries) ∧
      (handle.offsetIndex = [] ∨ handle.offsetIndex = indexBytes (8 + 8 * estimated) entries) ∧
      Written codec estimated entries (filterOf codec estimated entries) handle.content := by
  obtain ⟨writer, ran, wrote⟩ := bind_eq_ok.mp wrote
  have inv := (Writer.inv_begin codec estimated).writeEntries (by rwa [List.length_nil, Nat.zero_add]) ran
  exact inv.finish room wrote

/-! ## Writing succeeds -/

theorem Writer.writeEntry_returns {writer : Writer φ} (place : 8 + 8 * writer.nkeys + 8 < 2 ^ 63)
    (bound : writer.offset + (9 + entry.size) < 2 ^ 63) : ∃ next, writer.writeEntry codec entry = .ok next := by
  have header := entry.length_header
  have field : (LittleEndian.encode 8 writer.offset).length = 8 := LittleEndian.length_encode ..
  rw [TableEntry.size] at bound
  simp only [Writer.writeEntry, bind, Except.bind]
  rw [writeFileAt_eq (by omega)]
  dsimp only
  rw [writeFileAt_eq (by omega)]
  dsimp only
  rw [writeFileAt_eq (by omega)]
  dsimp only
  rw [writeFileAt_eq (by omega)]
  exact ⟨_, rfl⟩

theorem Writer.Inv.writeEntries_returns {writer : Writer φ} (inv : writer.Inv codec estimated done)
    (room : done.length + entries.length ≤ estimated) (bound : writer.offset + dataSize entries < 2 ^ 63) :
    ∃ next, writer.writeEntries codec entries = .ok next := by
  induction entries generalizing writer done with
  | nil => exact ⟨writer, rfl⟩
  | cons entry rest ih =>
    have size : dataSize (entry :: rest) = 9 + entry.size + dataSize rest := by simp [dataSize]
    have count := inv.nkeys
    have offset := inv.offset
    rw [List.length_cons] at room
    obtain ⟨next, wrote⟩ := @Writer.writeEntry_returns φ codec entry writer (by omega) (by omega)
    have after := inv.writeEntry (by omega) wrote
    have moved := after.offset
    rw [dataSize_append, dataSize_singleton] at moved
    obtain ⟨final, ran⟩ := ih after (by rw [List.length_append, List.length_singleton]; omega) (by omega)
    refine ⟨final, ?_⟩
    rw [Writer.writeEntries, wrote]
    exact ran

/-- A file that is smaller than the offsets allow is written. -/
theorem writeSortedFile_returns (room : entries.length ≤ estimated) (bound : 8 + 8 * estimated + dataSize entries +
      (codec.marshal (filterOf codec estimated entries)).length + bloomFooterSize < 2 ^ 63) :
    ∃ handle, writeSortedFile codec estimated entries = .ok handle := by
  have start := Writer.inv_begin codec estimated
  have small : 8 + 8 * estimated + dataSize entries < 2 ^ 63 := by omega
  obtain ⟨writer, ran⟩ := start.writeEntries_returns (by rwa [List.length_nil, Nat.zero_add]) small
  have inv := start.writeEntries (by rwa [List.length_nil, Nat.zero_add]) ran
  rw [List.nil_append] at inv
  have offset := inv.offset
  have count := inv.nkeys
  have same : writer.filter = filterOf codec estimated entries := inv.filter
  have field : (LittleEndian.encode 8 writer.nkeys).length = 8 := LittleEndian.length_encode ..
  have footerSize := length_footer (codec.marshal writer.filter).length
  rw [← same] at bound
  simp only [writeSortedFile, ran, bind, Except.bind, Writer.finish]
  rw [if_neg (by omega)]
  rw [writeFileAt_eq (by omega)]
  dsimp only
  rw [writeFileAt_eq (by omega)]
  dsimp only
  rw [writeFileAt_eq (by omega)]
  exact ⟨_, rfl⟩

/-! ## Opening what was written -/

section Open

variable {filter : φ} {content : Bytes}

section

variable (written : Written codec estimated entries filter content)

include written

theorem Written.loadBloomFilter : loadBloomFilter codec content = .ok (some filter) := by
  have size := written.size
  have bound := written.bound
  have bloom := List.length_pos_iff.mpr (codec.marshal_ne_nil filter)
  have footerSize := length_footer (codec.marshal filter).length
  have field : (LittleEndian.encode 8 (codec.marshal filter).length).length = 8 := LittleEndian.length_encode ..
  have place : content.length - bloomFooterSize =
      8 + 8 * estimated + dataSize entries + (codec.marshal filter).length := by omega
  have start : content.length - bloomFooterSize - (codec.marshal filter).length =
    8 + 8 * estimated + dataSize entries := by
    omega
  have value : LittleEndian.decode (LittleEndian.encode 8 (codec.marshal filter).length) =
    (codec.marshal filter).length :=
    LittleEndian.decode_encode (by omega)
  have foot := readFileAt_holds written.footer footerSize.symm
  have magic : (TableHandle.footer (codec.marshal filter).length).drop 8 = bloomMagic := List.drop_left' field
  have length : (TableHandle.footer (codec.marshal filter).length).take 8 =
    LittleEndian.encode 8 (codec.marshal filter).length :=
    List.take_left' field
  rw [TableHandle.loadBloomFilter, if_neg (by omega), place, foot]
  simp only [bind, Except.bind, pure, Except.pure, magic, ne_eq, not_true_eq_false, if_false, length, value]
  rw [if_neg (by omega)]
  rw [place] at start
  rw [start, readFileAt_holds written.bloom rfl]
  simp only [codec.unmarshal_marshal]

theorem Written.loadOffsetIndex : loadOffsetIndex content entries.length = .ok [] ∨
      loadOffsetIndex content entries.length = .ok (indexBytes (8 + 8 * estimated) entries) := by
  rw [TableHandle.loadOffsetIndex]
  split
  · exact .inl rfl
  split
  · exact .inl rfl
  · exact .inr (readFileAt_holds written.index (length_indexBytes _ _).symm)

theorem Written.count_lt : entries.length < 2 ^ 63 := by
  have size := written.size
  have bound := written.bound
  have room := written.room
  omega

/-- A file with few enough keys opens. -/
theorem Written.opens
    (few : entries.length ≤ maxNKeys) : ∃ handle, openExisting codec content = .ok handle ∧ handle.content = content ∧
      handle.nkeys = entries.length ∧ handle.bloom = some filter ∧
      (handle.offsetIndex = [] ∨ handle.offsetIndex = indexBytes (8 + 8 * estimated) entries) := by
  have count : LittleEndian.decode (LittleEndian.encode 8 entries.length) = entries.length :=
    LittleEndian.decode_encode (Nat.lt_trans written.count_lt (by decide))
  have read := readFileAt_holds written.count (LittleEndian.length_encode ..).symm
  simp only [TableHandle.openExisting, read, bind, Except.bind, count]
  rw [if_neg (Nat.not_lt.mpr few)]
  rcases written.loadOffsetIndex with index | index
  · rw [index, written.loadBloomFilter]
    exact ⟨_, rfl, rfl, rfl, rfl, .inl rfl⟩
  · rw [index, written.loadBloomFilter]
    exact ⟨_, rfl, rfl, rfl, rfl, .inr rfl⟩

/-- A file with too many keys is refused. -/
theorem Written.refused (many : maxNKeys < entries.length) : openExisting codec content = .error .nkeysOutOfRange := by
  have count : LittleEndian.decode (LittleEndian.encode 8 entries.length) = entries.length :=
    LittleEndian.decode_encode (Nat.lt_trans written.count_lt (by decide))
  have read := readFileAt_holds written.count (LittleEndian.length_encode ..).symm
  simp only [TableHandle.openExisting, read, bind, Except.bind, count]
  rw [if_pos many]
  rfl

end

end Open

end TableHandle

end PallasDB
