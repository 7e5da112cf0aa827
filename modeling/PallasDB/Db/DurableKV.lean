import PallasDB.Db.KVRecover
import PallasDB.Db.LogRewrite

/-! # The store and its files

The store together with the files it keeps: the log, the two metadata slots and the SSTables. Commits and
compactions move as in the model of the store; the calls that write files are cut into single operations,
and a crash can fall between any two of them. What a crash leaves is opened again by `openAll`.

A table file counts as incomplete until it is flushed. No call to the disk fails here.
-/

namespace PallasDB

open SortedRun WriteBack Log

/-! ## Metadata -/

/-- The version and the names of the tables, newest first; a table is named by its version. -/
structure KVMetaData where
  version : ℕ
  sstables : List ℕ
deriving DecidableEq, Repr

/-- A metadata slot: what is on the disk, and a write that is not flushed yet. -/
structure MetaSlot where
  durable : Option KVMetaData
  pending : Option KVMetaData

namespace MetaSlot

/-- An absent slot counts as version zero without tables. -/
def data (slot : MetaSlot) : KVMetaData := slot.durable.getD ⟨0, []⟩

def write (slot : MetaSlot) (data : KVMetaData) : MetaSlot := { slot with pending := some data }

def sync (slot : MetaSlot) : MetaSlot := ⟨slot.pending.or slot.durable, none⟩

def crash (slot : MetaSlot) (keep : Bool) : Option KVMetaData :=
  if keep then slot.pending.or slot.durable else slot.durable

end MetaSlot

structure KVMetaStore where
  slot0 : MetaSlot
  slot1 : MetaSlot

namespace KVMetaStore

/-- `KVMetaStore.current`: whether slot zero is the current one. -/
def current (metas : KVMetaStore) : Bool := decide (metas.slot1.data.version < metas.slot0.data.version)

def get (metas : KVMetaStore) : KVMetaData := if metas.current then metas.slot0.data else metas.slot1.data

/-- The first half of `KVMetaStore.Set`, which writes the slot that is not current. -/
def write (metas : KVMetaStore) (data : KVMetaData) : KVMetaStore :=
  if metas.current then { metas with slot1 := metas.slot1.write data }
  else { metas with slot0 := metas.slot0.write data }

/-- The second half of `KVMetaStore.Set`. -/
def sync (metas : KVMetaStore) : KVMetaStore :=
  if metas.current then { metas with slot1 := metas.slot1.sync } else { metas with slot0 := metas.slot0.sync }

end KVMetaStore

/-! ## Tables -/

/-- An SSTable file; it has no content yet while it is being written. -/
structure TableFile where
  version : ℕ
  content : Option SortedFile

inductive OpenError where
  | metaUnreadable
  | logHeader (err : LogError)
  | missingTable (version : ℕ)
  | table (err : TableError)
deriving DecidableEq, Repr

def findTable (files : List TableFile) (version : ℕ) : Except OpenError SortedFile :=
  match (files.find? fun file => decide (file.version = version)).bind TableFile.content with
  | some file => .ok file
  | none => .error (.missingTable version)

/-- `SortedFile.Open`, which refuses a file with too many keys. -/
def openTable (files : List TableFile) (version : ℕ) : Except OpenError SortedFile := do
  let file ← findTable files version
  if maxNKeys < file.slots.length then throw (.table .nkeysOutOfRange)
  return file

/-- How far the flush or merge under way has come with its files. -/
inductive Publishing where
  | idle
  | created
  | synced
  | written
  | named
deriving DecidableEq, Repr

/-- The table a compaction is writing and the tables its metadata will name. -/
def KV.publishes (options : KVOptions) (kv : KV) : Option (SortedFile × List SortedFile) :=
  match kv.compaction with
  | .flushing version frozen dropTombstones =>
      let file := Tables.flushed options.library version frozen dropTombstones
      some (file, file :: kv.sstables)
  | .merging version level old1 old2 dropTombstones =>
      let file := Tables.mergedTable options.library version old1 old2 dropTombstones
      some (file, KV.replaceTables kv.sstables level file)
  | _ => none

/-- The metadata a compaction makes of the current ones. -/
def KV.nextMeta (kv : KV) (data : KVMetaData) : Option KVMetaData :=
  match kv.compaction with
  | .flushing version _ _ => some ⟨version, version :: data.sstables⟩
  | .merging version level _ _ _ =>
      some ⟨version, data.sstables.take level ++ version :: data.sstables.drop (level + 2)⟩
  | _ => none

/-! ## The store -/

structure DurableKV where
  kv : KV
  wal : Wal
  metas : KVMetaStore
  files : List TableFile
  publishing : Publishing
  /-- Merged tables whose files go once nothing reads them. -/
  retired : List ℕ

inductive DurableEvent where
  | kv (event : KVEvent)
  | startLog
  | log
  | createTable
  | syncTable
  | writeMeta
  | syncMeta
  | unlink (version : ℕ)

namespace DurableKV

/-- The call that writes the log: `updateLog` inside a commit, `rewriteLog` at the end of a flush. -/
def startLog (store : DurableKV) : Option Wal :=
  match store.wal.call with
  | .idle =>
      match store.kv.committing with
      | some (_, tx, .checked) => store.wal.start tx.updates (updateLog tx.updates)
      | _ =>
          match store.kv.compaction with
          | .installed => store.wal.start store.kv.tables.mem (rewriteLog store.kv.tables.mem)
          | _ => none
  | _ => none

/-- The tables a merge retires when it is installed. -/
def retires (kv : KV) : List ℕ :=
  match kv.compaction with
  | .merging _ _ old1 old2 _ => [old1.version, old2.version]
  | _ => []

/-- A step of the store proper. Those that stand for calls to the disk wait until the calls have returned. -/
def stepKV (options : KVOptions) (store : DurableKV) (event : KVEvent) : Option DurableKV :=
  match event with
  | .writeLog none | .rewriteLog none =>
      match store.wal.call with
      | .returned _ =>
          (store.kv.step options event).map fun kv =>
            { store with kv := kv, wal := { store.wal with call := .idle } }
      | _ => none
  | .publish | .installMerge =>
      if store.publishing = .named then
        (store.kv.step options event).map fun kv =>
          { store with kv := kv, publishing := .idle, retired := retires store.kv ++ store.retired }
      else none
  | event =>
      if event.steady then (store.kv.step options event).map fun kv => { store with kv := kv } else none

def step (options : KVOptions) (store : DurableKV) : DurableEvent → Option DurableKV
  | .kv event => store.stepKV options event
  | .startLog => store.startLog.map fun wal => { store with wal := wal }
  | .log => store.wal.next.map fun wal => { store with wal := wal }
  | .createTable =>
      if store.publishing = .idle then
        (store.kv.publishes options).map fun (file, _) =>
          { store with files := ⟨file.version, none⟩ :: store.files, publishing := .created }
      else none
  | .syncTable =>
      if store.publishing = .created then
        (store.kv.publishes options).map fun (file, _) =>
          { store with
            files := ⟨file.version, some file⟩ :: store.files.filter fun other => decide (other.version ≠ file.version)
            publishing := .synced }
      else none
  | .writeMeta =>
      if store.publishing = .synced then
        (store.kv.nextMeta store.metas.get).map fun data =>
          { store with metas := store.metas.write data, publishing := .written }
      else none
  | .syncMeta =>
      if store.publishing = .written then some { store with metas := store.metas.sync, publishing := .named }
      else none
  | .unlink version =>
      if version ∈ store.retired then
        some { store with
          files := store.files.filter fun file => decide (file.version ≠ version)
          retired := store.retired.erase version }
      else none

def observe (store : DurableKV) : DurableEvent → KVJournal
  | .kv event => store.kv.observe event
  | _ => []

end DurableKV

/-! ## Crash and recovery -/

structure Disk where
  log : Bytes
  slot0 : Option KVMetaData
  slot1 : Option KVMetaData
  files : List TableFile

/-- Which of the operations not flushed yet survive a crash. -/
structure Crash where
  log : List Bool
  slot0 : Bool
  slot1 : Bool

def DurableKV.crash (store : DurableKV) (crash : Crash) : Disk :=
  ⟨store.wal.log.file.crash crash.log, store.metas.slot0.crash crash.slot0, store.metas.slot1.crash crash.slot1,
    store.files⟩

def Disk.metas (disk : Disk) : KVMetaStore := ⟨⟨disk.slot0, none⟩, ⟨disk.slot1, none⟩⟩

/-- `openMeta`, `openLog` and `openSSTable`, which removes every table file the metadata does not name. -/
def Disk.openAll (disk : Disk) : Except OpenError DurableKV := do
  if disk.slot0.isNone && disk.slot1.isNone && !disk.files.isEmpty then throw .metaUnreadable
  let wal ← (Wal.openLog disk.log).mapError .logHeader
  let main ← disk.metas.get.sstables.mapM (openTable disk.files)
  return {
    kv := .opened (slotsOf wal.ledger.held) disk.metas.get.version main
    wal := wal
    metas := disk.metas
    files := disk.files.filter fun file => decide (file.version ∈ disk.metas.get.sstables)
    publishing := .idle
    retired := [] }

end PallasDB
