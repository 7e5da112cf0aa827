import PallasDB.Db.Tables
import PallasDB.Db.Entry
import PallasDB.Db.Replay
import PallasDB.Lib.Transition

/-! # The key-value store as a transition system

Transactions, commits and compactions of one store, cut at the points where the code takes or releases
`kv.mu`, `kv.commit` and `kv.compact`. A commit holds the commit mutex from `beginCommit` to `endCommit`;
a flush takes it to install its table and rewrite the log. A transaction is used by one goroutine at a
time, so nothing else happens to it while its own `Commit` is running. Failures of the disk are choices
made by the events.

Transactions are numbered in the order of their creation. The log is the list of records its commits
cover, and `sstables` is the table list of the metadata; both are read again by `Open`.
-/

namespace PallasDB

open SortedRun

inductive UpdateMode where
  | upsert
  | insert
  | update
  | other (code : ℤ)
deriving DecidableEq, Repr

inductive TXError where
  | kvClosed
  | txDone
deriving DecidableEq, Repr

/-- A level a transaction reads: the staged updates of a transaction, which still change, or a sorted
run captured when the transaction began. -/
inductive Level where
  | updates (tx : ℕ)
  | source (kv : SortedKV)

structure KVTX where
  snapshot : ℕ
  /-- The enclosing transaction, or the store itself. -/
  target : Option ℕ
  updates : SortedArray
  levels : List Level
  err : Option TXError

structure UpdatedKey where
  snapshot : ℕ
  key : Bytes
deriving DecidableEq, Repr

inductive CommitError where
  | tx (err : TXError)
  | conflict
  | entryTooLarge
  | io
deriving DecidableEq, Repr

/-- How far `applyTXSync` has come. -/
inductive CommitPhase where
  | locked
  | checked
  | logged
  | returning (result : Except CommitError Unit)

structure Committing where
  tx : ℕ
  phase : CommitPhase

/-- How far `compactOnce` has come. -/
inductive Compaction where
  | idle
  | started (memSize : ℕ)
  | flushing (version : ℕ) (frozen : SortedArray) (dropTombstones : Bool)
  | published (version : ℕ) (frozen : SortedArray) (dropTombstones : Bool)
  | installed
  | choosing
  | merging (version level : ℕ) (old1 old2 : SortedFile) (dropTombstones : Bool)

structure KVOptions where
  library : BloomLibrary
  logThreshold : ℕ
  /-- The `float32` comparison of two table sizes with the growth factor. -/
  outgrown : ℕ → ℕ → Bool

/-- A store that flushes and merges whenever it can. -/
def KVOptions.eager : KVOptions := ⟨.exact, 0, fun _ _ => true⟩

structure KV where
  tables : Tables
  version : ℕ
  snapshot : ℕ
  history : List UpdatedKey
  ongoing : List ℕ
  closed : Bool
  closing : Bool
  txs : List KVTX
  commit : Option Committing
  compaction : Compaction
  log : List KVSlot
  metaVersion : ℕ
  sstables : List SortedFile

namespace KV

/-- A store opened in an empty directory. -/
def empty : KV :=
  ⟨.empty, 0, 0, [], [], false, false, [], none, .idle, [], 0, []⟩

/-! ## Reading -/

def resolve (kv : KV) : Level → SortedKV
  | .updates tx => .array ((kv.txs[tx]?.map KVTX.updates).getD [])
  | .source sorted => sorted

def readLevels (kv : KV) (tx : KVTX) : MergedSortedKV := tx.levels.map kv.resolve

/-- `KVTX.Get`. -/
def get (kv : KV) (tx : KVTX) (key : Bytes) : Except TXError (Option Bytes) :=
  match tx.err with
  | some err => .error err
  | none => .ok (MergedSortedKV.getExact (kv.readLevels tx) key).join

/-- Skip to the first live slot, as `filterDeleted` does. -/
def filterDeleted (iter : Merged Bytes Bytes) : LiveIter (Merged Bytes Bytes) :=
  ⟨skipDeleted SlotIter.next (SlotIter.size iter) iter⟩

/-- `KVTX.Seek`. -/
def seek (kv : KV) (tx : KVTX) (key : Bytes) : Except TXError (LiveIter (Merged Bytes Bytes)) :=
  match tx.err with
  | some err => .error err
  | none => .ok (filterDeleted (MergedSortedKV.seek (kv.readLevels tx) key))

/-- Skip back to the last live slot, as `filterDeletedBackward` does. -/
def filterDeletedBackward (iter : Merged Bytes Bytes) : LiveIter (Merged Bytes Bytes) :=
  ⟨skipDeleted SlotIter.prev (SlotIter.size iter) iter⟩

/-- `KVTX.SeekToLast`. -/
def seekToLast (kv : KV) (tx : KVTX) : Except TXError (LiveIter (Merged Bytes Bytes)) :=
  match tx.err with
  | some err => .error err
  | none => .ok (filterDeletedBackward (MergedSortedKV.seekToLast (kv.readLevels tx)))

/-- `RangedKVIter`. -/
structure RangedKVIter where
  iter : LiveIter (Merged Bytes Bytes)
  stop : Bytes
  desc : Bool

namespace RangedKVIter

/-- The current slot while the iterator is valid. -/
def slot? (ranged : RangedKVIter) : Option KVSlot :=
  (SlotIter.slot? ranged.iter).filter fun slot =>
    if ranged.desc then decide (ranged.stop ≤ slot.key) else decide (slot.key ≤ ranged.stop)

def next (ranged : RangedKVIter) : RangedKVIter :=
  if ranged.slot?.isSome then
    { ranged with iter := if ranged.desc then SlotIter.prev ranged.iter else SlotIter.next ranged.iter }
  else ranged

/-- The slots a loop `for ; iter.Valid(); iter.Next()` visits in at most `fuel` rounds. -/
def collect : ℕ → RangedKVIter → KVRun
  | 0, _ => []
  | fuel + 1, ranged =>
      match ranged.slot? with
      | some slot => slot :: collect fuel ranged.next
      | none => []

end RangedKVIter

/-- `KVTX.Range`. -/
def range (kv : KV) (tx : KVTX) (start stop : Bytes) (desc : Bool) : Except TXError RangedKVIter :=
  (kv.seek tx start).map fun iter =>
    let iter := if desc && (SlotIter.slot? iter).all (fun slot => decide (start < slot.key))
      then SlotIter.prev iter else iter
    ⟨iter, stop, desc⟩

/-! ## Transactions -/

def setTx (kv : KV) (id : ℕ) (tx : KVTX) : KV := { kv with txs := kv.txs.set id tx }

/-- `KV.NewTX`. -/
def newTX (kv : KV) : KV :=
  if kv.closed then { kv with txs := kv.txs ++ [⟨0, none, [], [], some .kvClosed⟩] }
  else
    let id := kv.txs.length
    { kv with
      txs := kv.txs ++ [⟨kv.snapshot, none, [], .updates id :: kv.tables.levels.map .source, none⟩]
      ongoing := kv.ongoing ++ [id] }

/-- `KVTX.NewTX`. -/
def newInnerTX (kv : KV) (parent : ℕ) (tx : KVTX) : KV :=
  let id := kv.txs.length
  { kv with txs := kv.txs ++ [⟨0, some parent, [], .updates id :: tx.levels, tx.err⟩] }

/-- Whether `SetEx` writes, given the value it read; `none` for an invalid mode. -/
def setExUpdates (old : Option Bytes) (val : Bytes) : UpdateMode → Option Bool
  | .upsert => some (decide (old ≠ some val))
  | .insert => some old.isNone
  | .update => some (old.isSome && decide (old ≠ some val))
  | .other _ => none

/-- `KVTX.SetEx`. -/
def setEx (kv : KV) (id : ℕ) (tx : KVTX) (key val : Bytes) (mode : UpdateMode) : KV :=
  match kv.get tx key with
  | .error _ => kv
  | .ok old =>
      if setExUpdates old val mode = some true then
        kv.setTx id { tx with updates := (SortedArray.set tx.updates key val).2 }
      else kv

/-- `KVTX.Del`. -/
def del (kv : KV) (id : ℕ) (tx : KVTX) (key : Bytes) : KV :=
  match kv.get tx key with
  | .ok (some _) => kv.setTx id { tx with updates := (SortedArray.del tx.updates key).2 }
  | _ => kv

/-- One round of `KVTX.applyTX`. -/
def applySlot (updates : SortedArray) (slot : KVSlot) : SortedArray :=
  match slot.val with
  | none => (SortedArray.del updates slot.key).2
  | some val => (SortedArray.set updates slot.key val).2

/-- `KVTX.applyTX`: an inner commit replays its updates on those of the enclosing transaction. -/
def applyInner (kv : KV) (inner : KVTX) (parent : ℕ) (outer : KVTX) : KV :=
  match inner.err with
  | some _ => kv
  | none => kv.setTx parent { outer with updates := inner.updates.foldl applySlot outer.updates }

/-- Forget history older than every remaining transaction. -/
def pruneHistory (kv : KV) (ongoing : List ℕ) : List UpdatedKey :=
  match ongoing with
  | [] => []
  | oldest :: _ =>
      kv.history.filter fun updated =>
        decide (((kv.txs[oldest]?.map KVTX.snapshot).getD 0) ≤ updated.snapshot)

/-- `KV.untrackTXSync`. -/
def untrack (kv : KV) (id : ℕ) (tx : KVTX) : KV :=
  if id ∈ kv.ongoing then
    let ongoing := kv.ongoing.erase id
    { kv with
      ongoing := ongoing
      history := kv.pruneHistory ongoing
      txs := kv.txs.set id { tx with levels := [], err := some .txDone } }
  else kv

/-! ## Commit -/

/-- The transaction whose `Commit` is running. -/
def busy (kv : KV) (id : ℕ) : Bool := kv.commit.any fun committing => committing.tx == id

/-- The commit mutex is held by a commit or by the end of a flush. -/
def commitLocked (kv : KV) : Bool :=
  kv.commit.isSome || (match kv.compaction with | .installed => true | _ => false)

def checkTXConflict (kv : KV) (tx : KVTX) : Bool :=
  tx.updates.any fun slot =>
    kv.history.any fun other => decide (tx.snapshot < other.snapshot) && decide (other.key = slot.key)

def setPhase (kv : KV) (id : ℕ) (phase : CommitPhase) : KV := { kv with commit := some ⟨id, phase⟩ }

/-- From taking the commit mutex to the conflict check. -/
def checkCommit (kv : KV) (id : ℕ) (tx : KVTX) : KV :=
  if tx.updates.length = 0 then kv.setPhase id (.returning (.ok ()))
  else if kv.checkTXConflict tx then kv.setPhase id (.returning (.error .conflict))
  else kv.setPhase id .checked

/-- `updateLog`. A disk error leaves some records behind, which a later replay may find. -/
def writeLog (kv : KV) (id : ℕ) (tx : KVTX) : Option (List KVSlot) → KV
  | some left => { kv with log := left, commit := some ⟨id, .returning (.error .io)⟩ }
  | none =>
      if tx.updates.any fun slot => decide (maxEntrySize < slotSize slot) then
        kv.setPhase id (.returning (.error .entryTooLarge))
      else { kv with log := kv.log ++ tx.updates, commit := some ⟨id, .logged⟩ }

/-- `updateMem` and `updateHistory`, in one critical section. -/
def applyCommit (kv : KV) (id : ℕ) (tx : KVTX) : KV :=
  { kv with
    tables := kv.tables.apply tx.updates
    snapshot := kv.snapshot + 1
    history := if 1 < kv.ongoing.length
      then kv.history ++ tx.updates.map fun slot => ⟨kv.snapshot + 1, slot.key⟩ else kv.history
    commit := some ⟨id, .returning (.ok ())⟩ }

/-! ## Compaction -/

/-- The head of `compactLog`. -/
def freeze (kv : KV) : KV :=
  if kv.tables.mem.length = 0 then { kv with compaction := .choosing }
  else
    { kv with
      version := kv.version + 1
      tables := kv.tables.freeze
      compaction := .flushing (kv.version + 1) kv.tables.mem kv.tables.main.isEmpty }

/-- The first level that has outgrown the next one. -/
def mergeLevel (options : KVOptions) (main : List SortedFile) : Option ℕ :=
  (List.range (main.length - 1)).find? fun level =>
    match main[level]?, main[level + 1]? with
    | some cur, some next => options.outgrown cur.slots.length next.slots.length
    | _, _ => false

/-- Pick a pair of tables to merge, if any; the head of `compactSSTable`. -/
def pickMerge (options : KVOptions) (kv : KV) : KV :=
  match mergeLevel options kv.tables.main with
  | none => { kv with compaction := .idle }
  | some level =>
      match kv.tables.main[level]?, kv.tables.main[level + 1]? with
      | some old1, some old2 =>
          { kv with
            version := kv.version + 1
            compaction := .merging (kv.version + 1) level old1 old2
              (decide (kv.tables.main.length = level + 2)) }
      | _, _ => { kv with compaction := .idle }

/-- The table list with a pair replaced, as `slices.Replace` does. -/
def replaceTables (sstables : List SortedFile) (level : ℕ) (file : SortedFile) : List SortedFile :=
  sstables.take level ++ file :: sstables.drop (level + 2)

/-! ## Close and open -/

def openAll (kv : KV) : KV :=
  { kv with closed := false, tables := ⟨replayMem kv.log, none, kv.sstables⟩, version := kv.metaVersion }

end KV

/-! ## Steps -/

inductive KVEvent where
  | newTX
  | newInnerTX (parent : ℕ)
  | setEx (tx : ℕ) (key val : Bytes) (mode : UpdateMode)
  | del (tx : ℕ) (key : Bytes)
  | abort (tx : ℕ)
  | commitInner (tx : ℕ)
  | beginCommit (tx : ℕ)
  | checkCommit
  | writeLog (ioError : Option (List KVSlot))
  | applyCommit
  | endCommit
  | startCompact
  | flush
  | flushFailed
  | publish
  | install
  | rewriteLog (ioError : Option (List KVSlot))
  | pickMerge
  | mergeFailed
  | installMerge
  | beginClose
  | endClose
  | openStore

namespace KV

/-- The transaction in the commit critical section, with its phase. -/
def committing (kv : KV) : Option (ℕ × KVTX × CommitPhase) := do
  let current ← kv.commit
  let tx ← kv.txs[current.tx]?
  return (current.tx, tx, current.phase)

/-- A transaction that is not inside its own `Commit`. -/
def idleTx (kv : KV) (id : ℕ) : Option KVTX := if kv.busy id then none else kv.txs[id]?

def step (options : KVOptions) (kv : KV) : KVEvent → Option KV
  | .newTX => some kv.newTX
  | .newInnerTX parent => (kv.idleTx parent).map fun tx => kv.newInnerTX parent tx
  | .setEx id key val mode => (kv.idleTx id).map fun tx => kv.setEx id tx key val mode
  | .del id key => (kv.idleTx id).map fun tx => kv.del id tx key
  | .abort id => (kv.idleTx id).map fun tx => if tx.target.isNone then kv.untrack id tx else kv
  | .commitInner id => do
      let inner ← kv.idleTx id
      let parent ← inner.target
      let outer ← kv.idleTx parent
      return kv.applyInner inner parent outer
  | .beginCommit id => do
      let tx ← kv.idleTx id
      if tx.target.isSome then none
      else if tx.err.isSome then some kv
      else if kv.commitLocked then none
      else some (kv.setPhase id .locked)
  | .checkCommit =>
      match kv.committing with
      | some (id, tx, .locked) => some (kv.checkCommit id tx)
      | _ => none
  | .writeLog ioError =>
      match kv.committing with
      | some (id, tx, .checked) => some (kv.writeLog id tx ioError)
      | _ => none
  | .applyCommit =>
      match kv.committing with
      | some (id, tx, .logged) => some (kv.applyCommit id tx)
      | _ => none
  | .endCommit =>
      match kv.committing with
      | some (id, tx, .returning _) => some { kv.untrack id tx with commit := none }
      | _ => none
  | .startCompact =>
      match kv.compaction with
      | .idle => if kv.closed then some kv else some { kv with compaction := .started kv.tables.mem.length }
      | _ => none
  | .flush =>
      match kv.compaction with
      | .started memSize =>
          if options.logThreshold ≤ memSize then some kv.freeze else some { kv with compaction := .choosing }
      | _ => none
  | .flushFailed =>
      match kv.compaction with
      | .flushing _ _ _ => some { kv with tables := kv.tables.unfreeze, compaction := .idle }
      | _ => none
  | .publish =>
      match kv.compaction with
      | .flushing version frozen dropTombstones =>
          some { kv with
            metaVersion := version
            sstables := Tables.flushed options.library version frozen dropTombstones :: kv.sstables
            compaction := .published version frozen dropTombstones }
      | _ => none
  | .install =>
      match kv.compaction with
      | .published version frozen dropTombstones =>
          if kv.commit.isSome then none
          else some { kv with
            tables := kv.tables.install (Tables.flushed options.library version frozen dropTombstones)
            compaction := .installed }
      | _ => none
  | .rewriteLog ioError =>
      match kv.compaction with
      | .installed =>
          match ioError with
          | some left => some { kv with log := left, compaction := .idle }
          | none => some { kv with log := kv.tables.mem, compaction := .choosing }
      | _ => none
  | .pickMerge =>
      match kv.compaction with
      | .choosing => some (kv.pickMerge options)
      | _ => none
  | .mergeFailed =>
      match kv.compaction with
      | .merging _ _ _ _ _ => some { kv with compaction := .idle }
      | _ => none
  | .installMerge =>
      match kv.compaction with
      | .merging version level old1 old2 dropTombstones =>
          let file := Tables.mergedTable options.library version old1 old2 dropTombstones
          some { kv with
            metaVersion := version
            sstables := replaceTables kv.sstables level file
            tables := kv.tables.replacePair level file
            compaction := .idle }
      | _ => none
  | .beginClose => if kv.closed then some kv else some { kv with closed := true, closing := true }
  | .endClose =>
      match kv.compaction with
      | .idle =>
          if kv.closing && kv.ongoing.isEmpty then
            some { kv with closing := false, tables := { kv.tables with imm := none, main := [] } }
          else none
      | _ => none
  | .openStore =>
      match kv.compaction with
      | .idle => if kv.closing || kv.commit.isSome then none else some kv.openAll
      | _ => none

end KV

end PallasDB
