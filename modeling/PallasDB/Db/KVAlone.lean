import PallasDB.Db.KVRecover

/-! # Transactions that run alone

`KV.SetEx`, `KV.Del` and the batches of the cluster each run one transaction from `NewTX` to the end of
`Commit` while nothing else commits. Such a transaction never meets a conflict. It stages its writes over
the contents of the store and applies all of them, unless one of them is too large for a log record.
-/

namespace PallasDB

open SortedRun VersionedMap

/-! ## Staging -/

/-- `SetEx` refuses any other mode. -/
def TxWrite.valid : TxWrite → Bool
  | .set _ _ (.other _) => false
  | _ => true

/-- The updates a list of writes stages, and whether any of them changes something. -/
def TxWrite.stageAll (base : KVMap) : SortedArray → List TxWrite → SortedArray × Bool
  | updates, [] => (updates, false)
  | updates, write :: rest =>
      let (staged, updated) := write.stage base updates
      let (final, later) := stageAll base staged rest
      (final, updated || later)

/-- A staged slot has no room in a log record. -/
def oversize (updates : SortedArray) : Bool := updates.any fun slot => decide (maxEntrySize < slotSize slot)

namespace TxWrite

variable {base other : KVMap} {updates staged : SortedArray}

theorem stageAll_increasing (increasing : Increasing updates) (changes : List TxWrite) :
    Increasing (stageAll base updates changes).1 := by
  induction changes generalizing updates with
  | nil => exact increasing
  | cons write rest ih => exact ih (stage_increasing increasing write)

/-- Staged writes show as if they had been made one after the other. -/
theorem overlay_stageAll (increasing : Increasing updates) (changes : List TxWrite) :
    overlay base (stageAll base updates changes).1 = changes.foldl apply (overlay base updates) := by
  induction changes generalizing updates with
  | nil => rfl
  | cons write rest ih =>
    rw [List.foldl_cons, ← overlay_stage increasing write]
    exact ih (stage_increasing increasing write)

/-- What is staged for a key depends on that key only. -/
theorem lookup_stage_congr (left : Increasing updates) (right : Increasing staged) {key : Bytes}
    (same : base key = other key) (alike : lookup updates key = lookup staged key) (write : TxWrite) :
    lookup (write.stage base updates).1 key = lookup (write.stage other staged).1 key := by
  have shown : overlay base updates key = overlay other staged key := by simp [overlay, same, alike]
  rw [lookup_stage left, lookup_stage right, writes_eq, writes_eq, alike]
  by_cases hit : key = write.key
  · subst hit
    rw [shown]
  · split <;> split <;> simp [lookup_cons, Ne.symm hit]

theorem lookup_stageAll_congr (left : Increasing updates) (right : Increasing staged) {key : Bytes}
    (same : base key = other key) (alike : lookup updates key = lookup staged key) (changes : List TxWrite) :
    lookup (stageAll base updates changes).1 key = lookup (stageAll other staged changes).1 key := by
  induction changes generalizing updates staged with
  | nil => exact alike
  | cons write rest ih =>
    exact ih (stage_increasing left write) (stage_increasing right write)
      (lookup_stage_congr left right same alike write)

end TxWrite

theorem oversize_iff {updates : SortedArray} (increasing : Increasing updates) :
    oversize updates = true ↔ ∃ key val, lookup updates key = some val ∧ maxEntrySize < slotSize ⟨key, val⟩ := by
  rw [oversize, List.any_eq_true]
  constructor
  · rintro ⟨⟨key, val⟩, member, large⟩
    exact ⟨key, val, increasing.lookup_of_mem member, by simpa using large⟩
  · rintro ⟨key, val, found, large⟩
    exact ⟨⟨key, val⟩, mem_of_lookup found, by simpa using large⟩

variable {base : KVMap}

namespace TxWrite

/-- What a write takes in a log record. -/
def size : TxWrite → ℕ
  | .set key val _ => key.length + val.length
  | .del key => key.length

/-- No write that takes effect, when the writes are made one after the other, is too large for a log record. -/
def allFit (view : KVMap) : List TxWrite → Bool
  | [] => true
  | write :: rest =>
      (!write.changes (view write.key) || decide (write.size ≤ maxEntrySize)) && allFit (write.apply view) rest

variable {updates : SortedArray}

theorem size_of_stage (increasing : Increasing updates) (write : TxWrite) {key : Bytes} {val : Option Bytes}
    (staged : lookup (write.stage base updates).1 key = some val) :
    lookup updates key = some val ∨ key = write.key ∧ slotSize ⟨key, val⟩ = write.size ∧
      write.changes (overlay base updates write.key) = true := by
  rw [lookup_stage increasing, writes_eq] at staged
  split at staged
  · next changes =>
    rw [lookup_cons, lookup_nil] at staged
    split at staged
    · next same =>
      cases staged
      subst same
      exact .inr ⟨rfl, by cases write <;> simp [slotSize, size, TxWrite.key, new], changes⟩
    · exact .inl staged
  · exact .inl staged

/-- Staging a write that has room, or no effect, leaves room for everything staged. -/
theorem oversize_stage (increasing : Increasing updates) (room : oversize updates = false) {write : TxWrite}
    (fits : write.changes (overlay base updates write.key) = true → write.size ≤ maxEntrySize) :
    oversize (write.stage base updates).1 = false := by
  rw [Bool.eq_false_iff, Ne, oversize_iff (stage_increasing increasing write)]
  rintro ⟨key, val, staged, large⟩
  rcases size_of_stage increasing write staged with before | ⟨-, same, changes⟩
  · have refused := (oversize_iff increasing).mpr ⟨key, val, before, large⟩
    rw [room] at refused
    contradiction
  · have small := fits changes
    omega

theorem oversize_of_changes {view : KVMap} {write : TxWrite}
    (changes : write.changes (view write.key) = true) (large : maxEntrySize < write.size) :
    oversize (write.stage view []).1 = true := by
  refine (oversize_iff (stage_increasing increasing_nil write)).mpr ⟨write.key, write.new, ?_, ?_⟩
  · rw [lookup_stage increasing_nil, writes_eq, overlay_nil, if_pos changes, lookup_cons, if_pos rfl]
    rfl
  · cases write <;> simpa [slotSize, size, TxWrite.key, new] using large

theorem oversize_stageAll (increasing : Increasing updates) (room : oversize updates = false) {changes : List TxWrite}
    (fits : allFit (overlay base updates) changes = true) : oversize (stageAll base updates changes).1 = false := by
  induction changes generalizing updates with
  | nil => exact room
  | cons write rest ih =>
    simp only [allFit, Bool.and_eq_true, Bool.or_eq_true, Bool.not_eq_true', decide_eq_true_iff] at fits
    rw [← overlay_stage increasing] at fits
    refine ih (stage_increasing increasing write) (oversize_stage increasing room fun changes => ?_) fits.2
    exact fits.1.resolve_left (by simp [changes])

end TxWrite

inductive WriteError where
  | tx (err : TXError)
  | invalidMode (mode : UpdateMode)
deriving DecidableEq, Repr

variable {event : KVEvent}

namespace KV

/-! ## Running a transaction -/

/-- A transaction by its number; one that was never begun is done. -/
def handle (kv : KV) (id : ℕ) : KVTX := kv.txs[id]?.getD ⟨0, none, [], [], some .txDone⟩

/-- `KVTX.SetEx` and `KVTX.Del`, with the flag they return. -/
def writeTX (kv : KV) (id : ℕ) : TxWrite → Except WriteError (KV × Bool)
  | .set key val mode =>
      match kv.get (kv.handle id) key with
      | .error err => .error (.tx err)
      | .ok old =>
          match setExUpdates old val mode with
          | none => .error (.invalidMode mode)
          | some updated => .ok (kv.setEx id (kv.handle id) key val mode, updated)
  | .del key =>
      match kv.get (kv.handle id) key with
      | .error err => .error (.tx err)
      | .ok old => .ok (kv.del id (kv.handle id) key, old.isSome)

/-- The end of `applyTX`: the transaction is untracked and the commit mutex released. -/
def finishTX (kv : KV) (id : ℕ) (tx : KVTX) : KV := { kv.untrack id tx with commit := none }

/-- `KVTX.Commit` of a top-level transaction while the commit mutex is free. -/
def commitTX (kv : KV) (id : ℕ) : KV × Except CommitError Unit :=
  let tx := kv.handle id
  match tx.err with
  | some err => (kv, .error (.tx err))
  | none =>
      let checked := (kv.setPhase id .locked).checkCommit id tx
      match checked.commit with
      | some ⟨_, .returning result⟩ => (checked.finishTX id tx, result)
      | _ =>
          let logged := checked.writeLog id tx none
          match logged.commit with
          | some ⟨_, .returning result⟩ => (logged.finishTX id tx, result)
          | _ => ((logged.applyCommit id tx).finishTX id tx, .ok ())

/-- `KVTX.Abort` of a top-level transaction. -/
def abortTX (kv : KV) (id : ℕ) : KV := kv.untrack id (kv.handle id)

inductive OneShotError where
  | write (err : WriteError)
  | commit (err : CommitError)
deriving DecidableEq, Repr

/-- `KV.SetEx` and `KV.Del`: one write in a transaction of its own, finished by `abortOrCommit`. -/
def oneShot (kv : KV) (write : TxWrite) : KV × Except OneShotError Bool :=
  let id := kv.txs.length
  let begun := kv.newTX
  match begun.writeTX id write with
  | .error err => (begun.abortTX id, .error (.write err))
  | .ok (written, updated) =>
      let (done, result) := written.commitTX id
      (done, (result.mapError .commit).map fun _ => updated)

/-! ## A store at rest -/

/-- A store after some steps during which no call to the disk failed. -/
structure Sound (options : KVOptions) (initial : KVMap) (kv : KV) (journal : KVJournal) : Prop where
  snapshots : SnapshotInv initial kv journal
  conflicts : ConflictInv kv journal
  recover : RecoverInv options kv

/-- An open store whose commit mutex is free. -/
structure Ready (options : KVOptions) (initial : KVMap) (kv : KV) (journal : KVJournal) : Prop
    extends Sound options initial kv journal where
  free : kv.commit = none
  unlocked : kv.compaction ≠ .installed

/-- A live transaction that began with the present contents of the store. -/
structure Writing (options : KVOptions) (initial : KVMap) (kv : KV) (journal : KVJournal) (id : ℕ)
    (updates : SortedArray) : Prop extends Ready options initial kv journal where
  tx : ∃ tx captured, kv.txs[id]? = some tx ∧ tx.err = none ∧ tx.updates = updates ∧ tx.snapshot = kv.snapshot ∧
    tx.levels = .updates id :: captured.map .source ∧ visible (MergedSortedKV.runs captured) = kv.tables.contents

/-- The same while a flush may hold the commit mutex. -/
structure Drafting (options : KVOptions) (initial : KVMap) (kv : KV) (journal : KVJournal) (id : ℕ)
    (updates : SortedArray) : Prop extends Sound options initial kv journal where
  free : kv.commit = none
  tx : ∃ tx captured, kv.txs[id]? = some tx ∧ tx.err = none ∧ tx.updates = updates ∧ tx.snapshot = kv.snapshot ∧
    tx.levels = .updates id :: captured.map .source ∧ visible (MergedSortedKV.runs captured) = kv.tables.contents

section Alone

variable {options : KVOptions} {initial : KVMap} {kv target : KV} {journal : KVJournal} {id : ℕ}
  {updates : SortedArray}

theorem Sound.step (sound : Sound options initial kv journal) (steady : event.steady = true)
    (taken : kv.step options event = some target) : Sound options initial target (journal ++ kv.observe event) :=
  have online := KVEvent.online_of_steady steady
  ⟨sound.snapshots.step online taken, sound.conflicts.step sound.snapshots online taken,
    sound.recover.step sound.snapshots.sorted sound.conflicts steady taken⟩

theorem handle_eq {tx : KVTX} (found : kv.txs[id]? = some tx) : kv.handle id = tx := by
  rw [handle, found]
  rfl

theorem idleTx_of_free (free : kv.commit = none) {tx : KVTX} (found : kv.txs[id]? = some tx) : kv.idleTx id = some tx :=
  idleTx_eq_some.mpr ⟨by simp [busy, free], found⟩

theorem Ready.commitLocked (ready : Ready options initial kv journal) : kv.commitLocked = false := by
  rw [KV.commitLocked, ready.free]
  have := ready.unlocked
  cases reached : kv.compaction <;> simp_all

/-- `NewTX` captures the present contents. -/
theorem Ready.newTX (ready : Ready options initial kv journal) :
    ∃ later, Writing options initial kv.newTX later kv.txs.length [] ∧
      kv.newTX.tables.contents = kv.tables.contents := by
  have begun : kv.newTX = { kv with
      txs := kv.txs ++ [⟨kv.snapshot, none, [], .updates kv.txs.length :: kv.tables.levels.map .source, none⟩]
      ongoing := kv.ongoing ++ [kv.txs.length] } := by
    rw [KV.newTX, if_neg (by simp [ready.snapshots.opened])]
  have after : Ready options initial kv.newTX (journal ++ kv.observe .newTX) := by
    refine ⟨ready.toSound.step (show KVEvent.steady .newTX = true from rfl) rfl, ?_, ?_⟩ <;> rw [begun]
    · exact ready.free
    · exact ready.unlocked
  refine ⟨_, ⟨after, ?_⟩, by rw [begun]⟩
  rw [begun]
  exact ⟨_, kv.tables.levels, List.getElem?_concat_length, rfl, rfl, rfl, rfl, rfl⟩

/-- A transaction that runs alone reads its updates over the contents of the store. -/
theorem Drafting.reads (drafting : Drafting options initial kv journal id updates) :
    kv.Reads (kv.handle id) (overlay kv.tables.contents updates) := by
  obtain ⟨tx, captured, found, live, rfl, -, levels, shows⟩ := drafting.tx
  obtain ⟨others, reads⟩ := drafting.snapshots.reads id tx found live
  have same : others = captured := by
    have equal := reads.levels.symm.trans levels
    exact List.map_injective_iff.mpr (fun _ _ => Level.source.inj) (List.cons.inj equal).2
  rw [handle_eq found, ← shows, ← same, reads.shows]
  exact drafting.snapshots.txReads found live

/-- A write in a mode that is known returns whether it changes anything. -/
theorem writeTX_eq {view : KVMap} (reads : kv.Reads (kv.handle id) view) {write : TxWrite}
    (valid : write.valid = true) :
    kv.writeTX id write = .ok (kv.call id (kv.handle id) write, write.changes (view write.key)) := by
  cases write with
  | set key val mode =>
    cases mode with
    | other code => simp [TxWrite.valid] at valid
    | upsert | insert | update =>
      simp only [writeTX, reads.get, TxWrite.key, call]
      cases view key <;> simp [setExUpdates, TxWrite.changes]
  | del key =>
    simp only [writeTX, reads.get]
    rfl

/-- Replacing the staged updates of the running transaction. -/
private theorem Drafting.restage (drafting : Drafting options initial kv journal id updates) {staged : SortedArray}
    (steady : event.steady = true)
    (taken : kv.step options event = some (kv.setTx id { kv.handle id with updates := staged })) :
    Drafting options initial (kv.setTx id { kv.handle id with updates := staged }) (journal ++ kv.observe event) id
      staged := by
  refine ⟨drafting.toSound.step steady taken, drafting.free, ?_⟩
  obtain ⟨tx, captured, found, live, -, snapshot, levels, shows⟩ := drafting.tx
  rw [handle_eq found]
  have inside := (List.getElem?_eq_some_iff.mp found).1
  exact ⟨{ tx with updates := staged }, captured, List.getElem?_set_self inside, live, rfl, snapshot, levels, shows⟩

/-- A write of the running transaction stages what it changes. -/
theorem Drafting.write (drafting : Drafting options initial kv journal id updates) {write : TxWrite}
    (valid : write.valid = true) :
    ∃ target later, kv.writeTX id write = .ok (target, (write.stage kv.tables.contents updates).2) ∧
      (target.tables = kv.tables ∧ target.compaction = kv.compaction) ∧
      Drafting options initial target later id (write.stage kv.tables.contents updates).1 := by
  have reads := drafting.reads
  obtain ⟨tx, _, found, _, rfl, _⟩ := drafting.tx
  have taken := step_call options (idleTx_of_free drafting.free found) write
  rw [writeTX_eq reads valid, ← TxWrite.stage_snd (drafting.snapshots.sorted.txs id tx found).updates]
  rw [handle_eq found] at reads ⊢
  rw [call_eq found reads, ← handle_eq found] at taken ⊢
  exact ⟨_, _, rfl, ⟨rfl, rfl⟩, drafting.restage (by cases write <;> rfl) taken⟩

theorem Writing.toDrafting (writing : Writing options initial kv journal id updates) :
    Drafting options initial kv journal id updates :=
  ⟨writing.toSound, writing.free, writing.tx⟩

theorem Drafting.toWriting (drafting : Drafting options initial kv journal id updates)
    (unlocked : kv.compaction ≠ .installed) : Writing options initial kv journal id updates :=
  ⟨⟨drafting.toSound, drafting.free, unlocked⟩, drafting.tx⟩

theorem Writing.write (writing : Writing options initial kv journal id updates) {write : TxWrite}
    (valid : write.valid = true) :
    ∃ target later, kv.writeTX id write = .ok (target, (write.stage kv.tables.contents updates).2) ∧
      target.tables.contents = kv.tables.contents ∧
      Writing options initial target later id (write.stage kv.tables.contents updates).1 := by
  obtain ⟨target, later, wrote, ⟨tables, compaction⟩, drafting⟩ := writing.toDrafting.write valid
  exact ⟨target, later, wrote, congrArg Tables.contents tables, drafting.toWriting (compaction ▸ writing.unlocked)⟩

/-- Compaction goes on under an open transaction. -/
theorem Drafting.compacts (drafting : Drafting options initial kv journal id updates) (compacts : event.compacts = true)
    (steady : event.steady = true) (taken : kv.step options event = some target) :
    ∃ later, Drafting options initial target later id updates ∧ target.tables.contents = kv.tables.contents := by
  obtain ⟨txs, -, -, snapshot, commit⟩ := compact_sameTracking compacts taken
  obtain ⟨-, -, same⟩ := drafting.snapshots.sorted.compact_frame compacts taken
  refine ⟨_, ⟨drafting.toSound.step steady taken, commit.trans drafting.free, ?_⟩, same⟩
  rw [txs, snapshot, same]
  exact drafting.tx

/-- Nothing has committed since the transaction began, so nothing conflicts with it. -/
theorem Writing.no_conflict (writing : Writing options initial kv journal id updates) :
    kv.checkTXConflict (kv.handle id) = false := by
  obtain ⟨tx, -, found, -, -, snapshot, -⟩ := writing.tx
  rw [handle_eq found, checkTXConflict, Bool.eq_false_iff, Ne, List.any_eq_true]
  rintro ⟨slot, -, conflicts⟩
  obtain ⟨other, recorded, clash⟩ := List.any_eq_true.mp conflicts
  obtain ⟨index, committed, read, number, -⟩ := writing.conflicts.sound other recorded
  have bound := (List.getElem?_eq_some_iff.mp read).1
  have later : tx.snapshot < other.snapshot := by simpa using (Bool.and_eq_true_iff.mp clash).1
  rw [snapshot, writing.conflicts.snapshot] at later
  omega

/-- The end of a `Commit` that has its result. -/
theorem Sound.finishTX (sound : Sound options initial kv journal) {tx : KVTX} {result : Except CommitError Unit}
    (current : kv.committing = some (id, tx, .returning result)) (unlocked : kv.compaction ≠ .installed) :
    (∃ later, Ready options initial (kv.finishTX id tx) later) ∧
      (kv.finishTX id tx).tables.contents = kv.tables.contents := by
  have taken : kv.step options .endCommit = some (kv.finishTX id tx) := by
    rw [KV.step, current]
    rfl
  refine ⟨⟨_, sound.step (show KVEvent.steady .endCommit = true from rfl) taken, rfl, ?_⟩, ?_⟩
  · rw [KV.finishTX, untrack]
    split <;> exact unlocked
  · exact congrArg Tables.contents (untrack_tables id tx)

section

variable (writing : Writing options initial kv journal id updates)

include writing

theorem Writing.checkCommit :
    ∃ later, Sound options initial
      (kv.setPhase id (if updates = [] then .returning (.ok ()) else .checked)) later ∧
      (kv.setPhase id .locked).checkCommit id (kv.handle id) =
        kv.setPhase id (if updates = [] then .returning (.ok ()) else .checked) := by
  obtain ⟨tx, captured, found, live, rfl, -⟩ := writing.tx
  have clear := writing.no_conflict
  rw [handle_eq found] at clear ⊢
  have begins : kv.step options (.beginCommit id) = some (kv.setPhase id .locked) := by
    have top := writing.snapshots.top id tx found
    simp [KV.step, idleTx_of_free writing.free found, top, live, writing.toReady.commitLocked]
  have checks : (kv.setPhase id .locked).checkCommit id tx =
      kv.setPhase id (if tx.updates = [] then .returning (.ok ()) else .checked) := by
    have quiet : (kv.setPhase id .locked).checkTXConflict tx = false := clear
    by_cases empty : tx.updates = []
    · simp [KV.checkCommit, empty, setPhase]
    · simp only [KV.checkCommit, List.length_eq_zero_iff, empty, quiet, Bool.false_eq_true, if_false]
      rfl
  have taken : (kv.setPhase id .locked).step options .checkCommit =
      some ((kv.setPhase id .locked).checkCommit id tx) := by
    have current : (kv.setPhase id .locked).committing = some (id, tx, .locked) := committing_eq_some.mpr ⟨rfl, found⟩
    rw [KV.step, current]
  have locked := writing.toSound.step (show KVEvent.steady (.beginCommit id) = true from rfl) begins
  have checked := locked.step (show KVEvent.steady .checkCommit = true from rfl) taken
  rw [checks] at checked
  exact ⟨_, checked, checks⟩

/-- `Commit` applies everything that is staged, or refuses all of it if a slot is too large. -/
theorem Writing.commit :
    ∃ target later, kv.commitTX id =
        (target, if oversize updates then .error .entryTooLarge else .ok ()) ∧
      target.tables.contents =
        (if oversize updates then kv.tables.contents else overlay kv.tables.contents updates) ∧
      Ready options initial target later := by
  obtain ⟨later, checked, checks⟩ := writing.checkCommit
  obtain ⟨tx, captured, found, live, rfl, -⟩ := writing.tx
  have handle := handle_eq found
  rw [handle] at checks
  by_cases empty : tx.updates = []
  · -- nothing to write
    rw [if_pos empty] at checked checks
    obtain ⟨⟨final, ready⟩, same⟩ := checked.finishTX (committing_eq_some.mpr ⟨rfl, found⟩) writing.unlocked
    refine ⟨_, final, ?_, ?_, ready⟩
    · simp only [commitTX, handle, live, checks]
      rw [empty]
      rfl
    · rw [same, empty]
      rfl
  · rw [if_neg empty] at checked checks
    have current : (kv.setPhase id .checked).committing = some (id, tx, .checked) := committing_eq_some.mpr ⟨rfl, found⟩
    have wrote := checked.step (show KVEvent.steady (.writeLog none) = true from rfl)
      (show (kv.setPhase id .checked).step options (.writeLog none) = some _ by rw [KV.step, current])
    by_cases large : oversize tx.updates = true
    · have refused : (kv.setPhase id .checked).writeLog id tx none =
          kv.setPhase id (.returning (.error .entryTooLarge)) := by
        rw [KV.writeLog, ← oversize, if_pos large]
        rfl
      rw [refused] at wrote
      obtain ⟨⟨final, ready⟩, same⟩ := wrote.finishTX (committing_eq_some.mpr ⟨rfl, found⟩) writing.unlocked
      refine ⟨_, final, ?_, ?_, ready⟩
      · simp only [commitTX, handle, live, checks, refused]
        rw [if_pos large]
        rfl
      · rw [same, if_pos large]
        rfl
    · have logged : (kv.setPhase id .checked).writeLog id tx none =
          { kv with log := kv.log ++ tx.updates, commit := some ⟨id, .logged⟩ } := by
        rw [KV.writeLog, ← oversize, if_neg large]
        rfl
      rw [logged] at wrote
      have found' : ({ kv with log := kv.log ++ tx.updates, commit := some ⟨id, .logged⟩ } : KV).committing =
          some (id, tx, .logged) := committing_eq_some.mpr ⟨rfl, found⟩
      have applied := wrote.step (show KVEvent.steady .applyCommit = true from rfl)
        (show KV.step options _ .applyCommit = some _ by rw [KV.step, found'])
      obtain ⟨⟨final, ready⟩, same⟩ := applied.finishTX (committing_eq_some.mpr ⟨rfl, found⟩) writing.unlocked
      refine ⟨_, final, ?_, ?_, ready⟩
      · simp only [commitTX, handle, live, checks, logged]
        rw [if_neg large]
        rfl
      · rw [same, if_neg large]
        exact Tables.contents_apply writing.snapshots.sorted.tables
          (writing.snapshots.sorted.txs id tx found).updates

/-- `Abort` drops everything that is staged. -/
theorem Writing.abort : (∃ later, Ready options initial (kv.abortTX id) later) ∧
      (kv.abortTX id).tables.contents = kv.tables.contents := by
  obtain ⟨tx, -, found, -⟩ := writing.tx
  have taken : kv.step options (.abort id) = some (kv.abortTX id) := by
    simp [step, idleTx_of_free writing.free found, writing.snapshots.top id tx found, abortTX, handle_eq found]
  refine ⟨⟨_, writing.toSound.step (show KVEvent.steady (.abort id) = true from rfl) taken, ?_, ?_⟩, ?_⟩
  · rw [abortTX, untrack]
    split <;> exact writing.free
  · rw [abortTX, untrack]
    split <;> exact writing.unlocked
  · exact congrArg Tables.contents (untrack_tables ..)

end

/-- One write in a transaction of its own. -/
theorem Ready.oneShot (ready : Ready options initial kv journal) {write : TxWrite} (valid : write.valid = true) :
    ∃ target later, kv.oneShot write = (target,
        if oversize (write.stage kv.tables.contents []).1 then .error (.commit .entryTooLarge)
        else .ok (write.stage kv.tables.contents []).2) ∧
      target.tables.contents = (if oversize (write.stage kv.tables.contents []).1 then kv.tables.contents
        else overlay kv.tables.contents (write.stage kv.tables.contents []).1) ∧
      Ready options initial target later := by
  obtain ⟨_, begun, same⟩ := ready.newTX
  obtain ⟨written, _, wrote, kept, writing⟩ := begun.write valid
  obtain ⟨target, later, committed, contents, done⟩ := writing.commit
  rw [same] at wrote kept committed contents
  refine ⟨target, later, ?_, by rw [contents, kept], done⟩
  simp only [KV.oneShot, wrote, committed]
  split <;> rfl

/-- A commit leaves the tables or applies the updates of the transaction. -/
theorem commitTX_tables (kv : KV) (id : ℕ) :
    (kv.commitTX id).1.tables = kv.tables ∨ (kv.commitTX id).1.tables = kv.tables.apply (kv.handle id).updates := by
  have checked : ((kv.setPhase id .locked).checkCommit id (kv.handle id)).tables = kv.tables := by
    obtain ⟨phase, -, same⟩ := checkCommit_cases (kv.setPhase id .locked) id (kv.handle id)
    rw [same]
    rfl
  rw [commitTX]
  dsimp only
  generalize (kv.setPhase id .locked).checkCommit id (kv.handle id) = state at checked
  obtain ⟨log, phase, wrote, -⟩ := writeLog_cases state id (kv.handle id) none
  split
  · exact .inl rfl
  · split
    · exact .inl ((untrack_tables ..).trans checked)
    · rw [wrote]
      split
      · exact .inl ((untrack_tables ..).trans checked)
      · exact .inr ((untrack_tables ..).trans (congrArg (·.apply (kv.handle id).updates) checked))

theorem Writing.commit_slots (writing : Writing options initial kv journal id updates) {slot : KVSlot}
    (member : slot ∈ (kv.commitTX id).1.tables.slots) : slot ∈ kv.tables.slots ∨ slot ∈ updates := by
  obtain ⟨tx, _, found, _, rfl, _⟩ := writing.tx
  rcases commitTX_tables kv id with unchanged | applied
  · exact .inl (unchanged ▸ member)
  · have sorted := (Tables.sorted_iff _).mp writing.snapshots.sorted.tables
    rw [applied, handle_eq found, Tables.mem_slots] at member
    rw [Tables.mem_slots]
    rcases member with inMem | others
    · rcases mem_of_mem_updateMem sorted.1 (writing.snapshots.sorted.txs id tx found).updates inMem with old | new
      · exact .inl (.inl old)
      · exact .inr new
    · exact .inl (.inr others)

/-- One write brings in the slots it stages and no others. -/
theorem Ready.oneShot_slots (ready : Ready options initial kv journal) {write : TxWrite} (valid : write.valid = true)
    {slot : KVSlot} (member : slot ∈ (kv.oneShot write).1.tables.slots) :
    slot ∈ kv.tables.slots ∨ slot ∈ (write.stage kv.tables.contents []).1 := by
  obtain ⟨_, begun, -⟩ := ready.newTX
  obtain ⟨written, _, wrote, ⟨kept, still⟩, drafting⟩ := begun.toDrafting.write valid
  have tables : kv.newTX.tables = kv.tables := by rw [KV.newTX, if_neg (by simp [ready.snapshots.opened])]
  simp only [KV.oneShot, wrote] at member
  have brought := (drafting.toWriting (still ▸ begun.unlocked)).commit_slots member
  rwa [kept, tables] at brought

end Alone

end KV

end PallasDB
