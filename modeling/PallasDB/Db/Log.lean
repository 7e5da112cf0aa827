import PallasDB.Db.Entry
import PallasDB.Db.Replay
import PallasDB.Lib.WriteBack

/-! # The write-ahead log

The log is one file that is reset in place. Its header carries a floor on sequence numbers; `Open` replays
the records whose numbers keep rising from there and drops everything past the last commit record. The
calls of the store, `updateLog` and `rewriteLog`, are lists of atomic actions on the file, so that a crash
can fall between any two of them.

Sequence numbers are natural numbers here, and a call makes no progress once the 64 bit counter has run
out.
-/

namespace PallasDB

open SortedRun WriteBack

def logHeaderSize : ℕ := 8 + 8 + 4

def logMagic : Bytes := [0x50, 0x44, 0x42, 0x57, 0x41, 0x4C, 0x31, 0x0A]

/-- The two ways in which `ErrLogHeaderCorrupt` arises. -/
inductive LogError where
  | badMagic
  | checksumMismatch
deriving DecidableEq, Repr

/-- The slot a record stands for; a commit record stands for none. -/
def Entry.slot? (ent : Entry) : Option KVSlot :=
  match ent.op with
  | .add => some ⟨ent.key, some ent.val⟩
  | .del => some ⟨ent.key, none⟩
  | .commit => none

structure Log where
  file : File UInt8
  epoch : ℕ
  seq : ℕ
  offset : ℕ
  committed : ℕ

namespace Log

/-! ## Opening -/

def header (epoch : ℕ) : Bytes :=
  let floor := logMagic ++ LittleEndian.encode 8 epoch
  floor ++ LittleEndian.encode 4 (crc32 floor).toNat

/-- `Log.openHeader`: the floor, and the file with a header in front. -/
def openHeader (image : Bytes) : Except LogError (ℕ × Bytes) :=
  if image.length < logHeaderSize then .ok (0, (Op.write 0 (header 0)).apply image)
  else if image.take 8 ≠ logMagic then .error .badMagic
  else if LittleEndian.decode (Entry.slice image 16 20) ≠ (crc32 (image.take 16)).toNat then
    .error .checksumMismatch
  else .ok (LittleEndian.decode (Entry.slice image 8 16), image)

/-- The records `Log.Read` accepts before it reports the end of the log. Every record takes some bytes, so
the number of bytes bounds the number of rounds. -/
def readAll : ℕ → ℕ → Bytes → List Entry
  | 0, _, _ => []
  | rounds + 1, seq, input =>
      match Entry.decode input with
      | .error _ => []
      | .ok (ent, rest) => if ent.seq ≤ seq then [] else ent :: readAll rounds ent.seq rest

/-- The last sequence number seen. -/
def lastSeq : ℕ → List Entry → ℕ
  | seq, [] => seq
  | _, ent :: rest => lastSeq ent.seq rest

/-- The records up to the last commit record. -/
def throughCommit : List Entry → List Entry
  | [] => []
  | ent :: rest =>
      if ent.op = .commit ∨ throughCommit rest ≠ [] then ent :: throughCommit rest else []

def bytesOf (entries : List Entry) : Bytes := entries.flatMap Entry.bytes

def slotsOf (entries : List Entry) : List KVSlot := entries.filterMap Entry.slot?

/-- The records `Log.Read` accepts from a file. -/
def readRecords (epoch : ℕ) (file : Bytes) : List Entry := readAll file.length epoch (file.drop logHeaderSize)

/-- The log as `Log.endReplay` leaves it, with the file cut after the last commit. -/
def endReplay (epoch : ℕ) (file : Bytes) : Log :=
  let read := readRecords epoch file
  let committed := logHeaderSize + (bytesOf (throughCommit read)).length
  ⟨⟨file.take committed, []⟩, epoch, lastSeq epoch read, committed, committed⟩

/-- `Log.Open` and `KV.openLog`: the log and the memtable. -/
def openLog (image : Bytes) : Except LogError (Log × SortedArray) :=
  (openHeader image).map fun (epoch, file) =>
    (endReplay epoch file, replayMem (slotsOf (throughCommit (readRecords epoch file))))

/-! ## Writing -/

/-- The record `updateLog` and `rewriteLog` make of a slot; `Log.Write` numbers it. -/
def entry (log : Log) (slot : KVSlot) : Entry :=
  ⟨slot.key, slot.val.getD [], log.seq + 1, if slot.val.isSome then .add else .del⟩

def commitEntry (log : Log) : Entry := ⟨[], [], log.seq + 1, .commit⟩

/-- `Log.Write` of a numbered record. -/
def write (log : Log) (ent : Entry) : Except EntryError Log := do
  let data ← ent.encode
  return { log with
    file := log.file.issue (.write log.offset data)
    offset := log.offset + data.length
    seq := ent.seq }

def resetTX (log : Log) : Log := { log with offset := log.committed }

end Log

/-- The atomic actions of the calls that write the log. -/
inductive LogAction where
  | write (slot : KVSlot)
  | writeCommit
  /-- The flush of `Log.Commit`, after which the transaction is committed. -/
  | sync
  | writeFloor
  /-- The flush of `Log.writeHeader`, after which `Log.Truncate` resets the cursors. -/
  | syncFloor
  | shrink
  | syncShrink
deriving DecidableEq, Repr

namespace Log

def act (log : Log) : LogAction → Except EntryError Log
  | .write slot => log.write (log.entry slot)
  | .writeCommit => log.write log.commitEntry
  | .sync => .ok { log with file := log.file.sync, committed := log.offset }
  | .writeFloor => .ok { log with file := log.file.issue (.write 0 (header log.seq)) }
  | .syncFloor => .ok
      { log with file := log.file.sync, epoch := log.seq, offset := logHeaderSize, committed := logHeaderSize }
  | .shrink => .ok { log with file := log.file.issue (.resize logHeaderSize) }
  | .syncShrink => .ok { log with file := log.file.sync }

end Log

/-- `KV.updateLog`. -/
def updateLog (updates : SortedArray) : List LogAction := updates.map .write ++ [.writeCommit, .sync]

/-- `KV.rewriteLog`, with `Log.Truncate` in front. -/
def rewriteLog (live : SortedArray) : List LogAction :=
  [.writeFloor, .syncFloor, .shrink, .syncShrink] ++ if live = [] then [] else updateLog live

/-- How far a call that writes the log has come. -/
inductive LogCall where
  | idle
  | running (rest : List LogAction)
  | returned (result : Except EntryError Unit)

/-- A record at the offset where `Log.Write` put it. -/
structure Put where
  offset : ℕ
  ent : Entry
deriving DecidableEq, Repr

/-- What the log is made of: the records up to the last successful commit, those of transactions rewound
since, those of the running call, every record put so far, and the slots the running call is to write. -/
structure Ledger where
  held : List Entry
  abandoned : List Put
  written : List Put
  puts : List Put
  current : SortedArray

namespace Ledger

def put (ledger : Ledger) (record : Put) : Ledger :=
  { ledger with written := ledger.written ++ [record], puts := ledger.puts ++ [record] }

def note (ledger : Ledger) (log : Log) : LogAction → Ledger
  | .write slot => ledger.put ⟨log.offset, log.entry slot⟩
  | .writeCommit => ledger.put ⟨log.offset, log.commitEntry⟩
  | .sync => { ledger with held := ledger.held ++ ledger.written.map Put.ent, abandoned := [], written := [] }
  | .syncFloor => { ledger with held := [], abandoned := [], written := [] }
  | .writeFloor | .shrink | .syncShrink => ledger

def abandon (ledger : Ledger) : Ledger :=
  { ledger with abandoned := ledger.abandoned ++ ledger.written, written := [] }

end Ledger

/-- The log with the call in progress. -/
structure Wal where
  log : Log
  call : LogCall
  ledger : Ledger

namespace Wal

/-- Start a call, unless one is running. -/
def start (wal : Wal) (slots : SortedArray) (actions : List LogAction) : Option Wal :=
  match wal.call with
  | .running _ => none
  | _ => some { wal with call := .running actions, ledger := { wal.ledger with current := slots } }

/-- Take the next action of the running call; a record that does not fit ends the call. -/
def next (wal : Wal) : Option Wal :=
  match wal.call with
  | .running (action :: rest) =>
      if wal.log.seq + 1 < 2 ^ 64 then
        match wal.log.act action with
        | .ok log =>
            some ⟨log, if rest = [] then .returned (.ok ()) else .running rest, wal.ledger.note wal.log action⟩
        | .error err => some ⟨wal.log.resetTX, .returned (.error err), wal.ledger.abandon⟩
      else none
  | _ => none

end Wal

end PallasDB
