import PallasDB.Db.KVStep
import PallasDB.Lib.RefCount

/-! # The files behind the tables

The store once more, with the handles and files of its tables. A transaction takes a reference to every table when it
begins. It gives them back one by one after it has left the list of ongoing transactions, without any lock. A merge and
`Close` do the same with the references of `kv.main`. The compaction mutex is held until a merge is through with that,
and `Close` waits for every transaction before it begins.
-/

namespace PallasDB

open RefCount

/-- No call to the disk fails. -/
def KVEvent.faultless : KVEvent → Bool
  | .flushFailed | .mergeFailed | .writeLog (some _) | .rewriteLog (some _) => false
  | _ => true

def SortedFile.names (files : List SortedFile) : List ℕ := files.map SortedFile.version

/-- The table a level reads, if it is one. -/
def Level.table? : Level → Option ℕ
  | .source (.file file) => some file.version
  | _ => none

/-- The tables a transaction reads. -/
def KVTX.tables (tx : KVTX) : List ℕ := tx.levels.filterMap Level.table?

/-- The tables that a transaction holds references to. -/
def KV.mainSnap (kv : KV) (id : ℕ) : List ℕ := (kv.txs[id]?.map KVTX.tables).getD []

structure TableKV where
  kv : KV
  pool : Pool ℕ
  /-- What each transaction that has left `kv.ongoing` has still to release. -/
  releasing : List (List ℕ)
  /-- References of `kv.main` that a merge or `Close` has still to release. -/
  dropping : List ℕ

namespace TableKV

/-- A store opened in an empty directory. -/
def empty : TableKV := ⟨.empty, .empty, [], []⟩

inductive Event where
  | kv (event : KVEvent)
  /-- The next release of a transaction that has finished, or the end of its `untrackTXSync`. -/
  | release (finishing : ℕ)
  /-- The next release of a merge or of `Close`. -/
  | drop

/-- The step has to wait for the compaction mutex or for `kv.threads`. -/
def waits (state : TableKV) : KVEvent → Bool
  | .startCompact | .openStore => !state.dropping.isEmpty
  | .endClose => !state.dropping.isEmpty || !state.releasing.isEmpty
  | _ => false

/-- A store is opened again only after it was closed. -/
def refused (state : TableKV) : KVEvent → Bool
  | .openStore => !state.kv.closed
  | _ => false

/-- What a transaction that finishes has to release. -/
def untracked (kv : KV) (id : ℕ) : List (List ℕ) := if id ∈ kv.ongoing then [kv.mainSnap id] else []

/-- The handles and references after a step of the store that leads to the given one. -/
def track (state : TableKV) (next : KV) : KVEvent → TableKV
  | .newTX =>
      if state.kv.closed then { state with kv := next }
      else { state with kv := next, pool := state.pool.acquireAll (SortedFile.names state.kv.tables.main) }
  | .abort id => { state with kv := next, releasing := state.releasing ++ untracked state.kv id }
  | .endCommit =>
      { state with kv := next, releasing := state.releasing ++
          (state.kv.commit.map fun current => untracked state.kv current.tx).getD [] }
  | .publish =>
      match state.kv.compaction with
      | .flushing version _ _ => { state with kv := next, pool := state.pool.create version }
      | _ => { state with kv := next }
  | .install =>
      match state.kv.compaction with
      | .published version _ _ => { state with kv := next, pool := state.pool.acquire version }
      | _ => { state with kv := next }
  | .installMerge =>
      match state.kv.compaction with
      | .merging version _ old1 old2 _ =>
          { state with
            kv := next
            pool := (((state.pool.create version).acquire version).retire old1.version).retire old2.version
            dropping := [old1.version, old2.version] }
      | _ => { state with kv := next }
  | .endClose => { state with kv := next, dropping := SortedFile.names state.kv.tables.main }
  | .openStore =>
      let kept := SortedFile.names state.kv.sstables
      { state with kv := next, pool :=
          { state.pool.reopenAll kept with files := state.pool.files.filter fun name => name ∈ kept } }
  | _ => { state with kv := next }

def step (options : KVOptions) (state : TableKV) : Event → Option TableKV
  | .kv event =>
      if !event.faultless || state.waits event || state.refused event then none
      else (state.kv.step options event).map fun next => state.track next event
  | .release finishing =>
      match state.releasing[finishing]? with
      | none => none
      | some [] => some { state with releasing := state.releasing.eraseIdx finishing }
      | some (name :: rest) =>
          some { state with pool := state.pool.release name, releasing := state.releasing.set finishing rest }
  | .drop =>
      match state.dropping with
      | [] => none
      | name :: rest => some { state with pool := state.pool.release name, dropping := rest }

end TableKV

end PallasDB
