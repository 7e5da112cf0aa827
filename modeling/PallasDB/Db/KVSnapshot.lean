import PallasDB.Db.KVSorted
import PallasDB.Lib.VersionedMap

/-! # The store refines a versioned map with snapshots

The journal of a run records when transactions begin, write, take effect and return. A live transaction
reads the versioned map of the journal: the contents committed before it began, with its own writes over
them. Compactions write nothing to the journal, so nobody can tell them apart from doing nothing.
-/

namespace PallasDB

open SortedRun Transition VersionedMap

/-- A write issued by a transaction. -/
inductive TxWrite where
  | set (key val : Bytes) (mode : UpdateMode)
  | del (key : Bytes)
deriving DecidableEq, Repr

/-- What a write does to the map a transaction sees. -/
def TxWrite.apply (view : KVMap) : TxWrite → KVMap
  | .set key val mode =>
      if KV.setExUpdates (view key) val mode = some true then Function.update view key (some val) else view
  | .del key => Function.update view key none

/-- What `SetEx` and `Del` add to the staged updates, and whether they change anything. -/
def TxWrite.stage (base : KVMap) (updates : SortedArray) : TxWrite → SortedArray × Bool
  | .set key val mode =>
      if KV.setExUpdates (overlay base updates key) val mode = some true then
        ((SortedArray.set updates key val).2, true)
      else (updates, false)
  | .del key =>
      if (overlay base updates key).isSome then ((SortedArray.del updates key).2, true) else (updates, false)

/-- The writes a call makes, given what its transaction sees. -/
def TxWrite.writes (view : KVMap) : TxWrite → KVRun
  | .set key val mode => if KV.setExUpdates (view key) val mode = some true then [⟨key, some val⟩] else []
  | .del key => if (view key).isSome then [⟨key, none⟩] else []

/-- The key a write is about. -/
def TxWrite.key : TxWrite → Bytes
  | .set key _ _ => key
  | .del key => key

/-- What a write leaves under its key. -/
def TxWrite.new : TxWrite → Option Bytes
  | .set _ val _ => some val
  | .del _ => none

/-- Whether a write changes what was there. -/
def TxWrite.changes (old : Option Bytes) : TxWrite → Bool
  | .set _ val mode => (KV.setExUpdates old val mode).getD false
  | .del _ => old.isSome

def TxWrite.event (id : ℕ) : TxWrite → KVEvent
  | .set key val mode => .setEx id key val mode
  | .del key => .del id key

namespace TxWrite

variable {base : KVMap} {updates : SortedArray} {write : TxWrite}

theorem changes_set {old : Option Bytes} {key val : Bytes} {mode : UpdateMode} :
    (TxWrite.set key val mode).changes old = true ↔ KV.setExUpdates old val mode = some true := by
  simp [changes, Option.getD_eq_iff]

theorem writes_eq (view : KVMap) (write : TxWrite) :
    write.writes view = if write.changes (view write.key) then [⟨write.key, write.new⟩] else [] := by
  cases write with
  | set key val mode => simp [writes, changes_set, TxWrite.key, new]
  | del key => rfl

theorem apply_eq (view : KVMap) (write : TxWrite) :
    write.apply view = if write.changes (view write.key) then Function.update view write.key write.new else view := by
  cases write with
  | set key val mode => simp [apply, changes_set, TxWrite.key, new]
  | del key =>
    cases shown : view key with
    | none =>
      exact (congrArg _ shown.symm).trans
        ((Function.update_eq_self key view).trans (by simp [changes, TxWrite.key, shown]))
    | some old => simp [apply, changes, TxWrite.key, new, shown]

theorem stage_keeps (keeps : write.changes (overlay base updates write.key) = false) :
    write.stage base updates = (updates, false) := by
  cases write with
  | set key val mode => exact if_neg (mt changes_set.mpr (Bool.eq_false_iff.mp keeps))
  | del key => exact if_neg (Bool.eq_false_iff.mp keeps)

section

variable (increasing : Increasing updates)

include increasing

theorem stage_changes (changes : write.changes (overlay base updates write.key) = true) :
    (write.stage base updates).2 = true ∧ Increasing (write.stage base updates).1 ∧
      ∀ key, lookup (write.stage base updates).1 key = if key = write.key then some write.new
        else lookup updates key := by
  cases write with
  | set key val mode =>
    have updated : KV.setExUpdates (overlay base updates key) val mode = some true := changes_set.mp changes
    rw [stage, if_pos updated]
    exact ⟨rfl, SortedArray.set_increasing increasing key val, SortedArray.lookup_set increasing key val⟩
  | del key =>
    rw [stage, if_pos (show (overlay base updates key).isSome = true from changes)]
    refine ⟨rfl, (SortedArray.del_increasing_iff increasing key).mpr fun tombstone => ?_,
      SortedArray.lookup_del increasing key⟩
    simp [TxWrite.changes, TxWrite.key, overlay, tombstone] at changes

theorem stage_increasing (write : TxWrite) : Increasing (write.stage base updates).1 := by
  cases changes : write.changes (overlay base updates write.key) with
  | false => rwa [stage_keeps changes]
  | true => exact (stage_changes increasing changes).2.1

theorem stage_snd (write : TxWrite) :
    (write.stage base updates).2 = write.changes (overlay base updates write.key) := by
  cases changes : write.changes (overlay base updates write.key) with
  | false => rw [stage_keeps changes]
  | true => exact (stage_changes increasing changes).1

theorem lookup_stage (write : TxWrite) (key : Bytes) : lookup (write.stage base updates).1 key =
      (lookup (write.writes (overlay base updates)) key).or (lookup updates key) := by
  rw [writes_eq]
  cases changes : write.changes (overlay base updates write.key) with
  | false =>
    rw [stage_keeps changes]
    rfl
  | true =>
    rw [(stage_changes increasing changes).2.2, if_pos rfl, lookup_cons, lookup_nil]
    by_cases same : key = write.key
    · simp [same]
    · simp [same, Ne.symm same]

theorem overlay_stage (write : TxWrite) :
    overlay base (write.stage base updates).1 = write.apply (overlay base updates) := by
  rw [apply_eq]
  cases changes : write.changes (overlay base updates write.key) with
  | false =>
    rw [stage_keeps changes]
    rfl
  | true =>
    funext key
    rw [overlay, (stage_changes increasing changes).2.2, if_pos rfl, Function.update_apply]
    split <;> rfl

end

end TxWrite

abbrev KVJournal := Journal ℕ SortedArray TxWrite (Except CommitError Unit)

/-- Events of top-level transactions and compactions on an open store. -/
def KVEvent.online : KVEvent → Bool
  | .newInnerTX _ | .beginClose | .endClose | .openStore => false
  | _ => true

/-- The steps of a compaction. -/
def KVEvent.compacts : KVEvent → Bool
  | .startCompact | .flush | .flushFailed | .publish | .install | .rewriteLog _ | .pickMerge | .mergeFailed
  | .installMerge => true
  | _ => false

variable {id : ℕ} {tx : KVTX} {updates : SortedArray} {options : KVOptions} {event : KVEvent}
  {log : List KVSlot} {sstables : List SortedFile} {captured : List SortedKV}

namespace KV

/-- What a step lets an observer see. -/
def observe (kv : KV) : KVEvent → KVJournal
  | .newTX => if kv.closed then [] else [.began kv.txs.length]
  | .setEx id key val mode =>
      if (kv.idleTx id).any fun tx => tx.err.isNone then [.wrote id (.set key val mode)] else []
  | .del id key => if (kv.idleTx id).any fun tx => tx.err.isNone then [.wrote id (.del key)] else []
  | .beginCommit id =>
      match (kv.idleTx id).bind KVTX.err with
      | some err => [.finished id (.error (.tx err))]
      | none => []
  | .applyCommit =>
      match kv.committing with
      | some (id, tx, _) => [.committed id tx.updates]
      | none => []
  | .endCommit =>
      match kv.committing with
      | some (id, _, .returning result) => [.finished id result]
      | _ => []
  | _ => []

/-- A store just opened on the records of a log and the tables its metadata names. -/
def opened (log : List KVSlot) (version : ℕ) (sstables : List SortedFile) : KV :=
  openAll { empty with log := log, metaVersion := version, sstables := sstables }

/-- The map a transaction should read. -/
def txView (initial : KVMap) (journal : KVJournal) (id : ℕ) : KVMap :=
  view overlay TxWrite.apply initial journal id

/-- The captured levels of a live transaction show its snapshot, its updates the writes made since. -/
structure TxReads (initial : KVMap) (journal : KVJournal) (id : ℕ) (tx : KVTX)
    (captured : List SortedKV) : Prop where
  levels : tx.levels = .updates id :: captured.map .source
  shows : overlay (visible (MergedSortedKV.runs captured)) tx.updates = txView initial journal id

structure SnapshotInv (initial : KVMap) (kv : KV) (journal : KVJournal) : Prop where
  sorted : SortedInv kv
  opened : kv.closed = false
  top : ∀ (id : ℕ) (tx : KVTX), kv.txs[id]? = some tx → tx.target = none
  contents : kv.tables.contents = contents overlay initial journal
  began : ∀ id, .began id ∈ journal ↔ id < kv.txs.length
  wrote : ∀ id, kv.txs.length ≤ id → writes journal id = []
  reads : ∀ (id : ℕ) (tx : KVTX), kv.txs[id]? = some tx → tx.err = none →
    ∃ captured, TxReads initial journal id tx captured

section Invariant

variable {initial : KVMap} {kv target : KV} {journal : KVJournal}

theorem TxReads.append (reads : TxReads initial journal id tx captured) (present : .began id ∈ journal)
    {rest : KVJournal} (others : writes rest id = []) : TxReads initial (journal ++ rest) id tx captured :=
  ⟨reads.levels, reads.shows.trans (view_append_of_writes present others).symm⟩

/-- The tables a live transaction captured do not change under it. -/
theorem TxReads.visible_eq (reads : TxReads initial journal id tx captured) (found : kv.txs[id]? = some tx) :
    visible (MergedSortedKV.runs (kv.readLevels tx)) = txView initial journal id := by
  have head : kv.resolve (.updates id) = .array tx.updates := by simp [resolve, found]
  have tail : (captured.map Level.source).map kv.resolve = captured := by
    rw [List.map_map]
    exact List.map_id captured
  rw [← reads.shows, readLevels, reads.levels, List.map_cons, head, tail, MergedSortedKV.runs, List.map_cons,
    visible_cons]
  rfl

section

variable (inv : SnapshotInv initial kv journal)

include inv

/-- A live transaction reads its view of the versioned map. -/
theorem SnapshotInv.txReads (found : kv.txs[id]? = some tx)
    (live : tx.err = none) : kv.Reads tx (txView initial journal id) := by
  obtain ⟨captured, reads⟩ := inv.reads id tx found live
  exact reads_of_visible live (inv.sorted.levels_increasing found) (reads.visible_eq found)

/-- Top-level transactions never run an inner commit. -/
theorem SnapshotInv.keepsRuns (event : KVEvent) : kv.keepsRuns event = true := by
  cases event with
  | commitInner id =>
    rw [KV.keepsRuns]
    split
    · next inner found =>
      rw [inv.top id inner (idleTx_eq_some.mp found).2]
      rfl
    · rfl
  | _ => rfl

/-- Steps that at most finish transactions and add commits and results to the journal. -/
theorem SnapshotInv.frame (sorted : SortedInv target)
    (size : target.txs.length = kv.txs.length) (closed : target.closed = kv.closed)
    (kept : ∀ (id : ℕ) (tx : KVTX), target.txs[id]? = some tx →
      kv.txs[id]? = some tx ∨ tx.target = none ∧ tx.err.isSome) {rest : KVJournal}
    (quiet : ∀ id, .began id ∉ rest ∧ writes rest id = [])
    (contents : target.tables.contents = VersionedMap.contents overlay initial (journal ++ rest)) :
    SnapshotInv initial target (journal ++ rest) where
  sorted := sorted
  opened := closed ▸ inv.opened
  top id tx found := by
    rcases kept id tx found with same | done
    · exact inv.top id tx same
    · exact done.1
  contents := contents
  began id := by
    rw [size, ← inv.began, List.mem_append]
    exact ⟨fun either => either.resolve_right (quiet id).1, .inl⟩
  wrote id beyond := by
    rw [size] at beyond
    have none := inv.wrote id beyond
    simp only [writes, List.filterMap_append] at none ⊢
    rw [none]
    exact (quiet id).2
  reads id tx found live := by
    rcases kept id tx found with same | done
    · obtain ⟨captured, reads⟩ := inv.reads id tx same live
      have present := (inv.began id).mpr (List.getElem?_eq_some_iff.mp same).1
      exact ⟨captured, reads.append present (quiet id).2⟩
    · simp [live] at done

/-- Steps that touch neither the transactions nor the journal nor the contents. -/
theorem SnapshotInv.quiet (sorted : SortedInv target) (txs : target.txs = kv.txs) (closed : target.closed = kv.closed)
    (contents : target.tables.contents = kv.tables.contents) : SnapshotInv initial target (journal ++ []) := by
  refine inv.frame sorted (by rw [txs]) closed (fun id tx found => .inl (txs ▸ found))
    (fun id => ⟨by simp, rfl⟩) ?_
  rw [List.append_nil, contents, inv.contents]

end

theorem untrack_kept (top : tx.target = none) :
    ∀ (other : ℕ) (current : KVTX), (kv.untrack id tx).txs[other]? = some current →
      kv.txs[other]? = some current ∨ current.target = none ∧ current.err.isSome := by
  intro other current found
  rw [untrack] at found
  split at found
  · rw [List.getElem?_set] at found
    split at found
    · split at found
      · cases found
        exact .inr ⟨top, rfl⟩
      · contradiction
    · exact .inl found
  · exact .inl found

theorem untrack_length (id : ℕ) (tx : KVTX) : (kv.untrack id tx).txs.length = kv.txs.length := by
  rw [untrack]
  split <;> simp

theorem untrack_tables (id : ℕ) (tx : KVTX) : (kv.untrack id tx).tables = kv.tables := by
  rw [untrack]
  split <;> rfl

theorem untrack_commit (id : ℕ) (tx : KVTX) : (kv.untrack id tx).commit = kv.commit := by
  rw [untrack]
  split <;> rfl

theorem untrack_closed (id : ℕ) (tx : KVTX) : (kv.untrack id tx).closed = kv.closed := by
  rw [untrack]
  split <;> rfl

/-- A new transaction captures the current contents. -/
theorem SnapshotInv.newTX (inv : SnapshotInv initial kv journal) (sorted : SortedInv kv.newTX) :
    SnapshotInv initial kv.newTX (journal ++ [.began kv.txs.length]) := by
  have shape : kv.newTX = { kv with
      txs := kv.txs ++ [⟨kv.snapshot, none, [], .updates kv.txs.length :: kv.tables.levels.map .source, none⟩]
      ongoing := kv.ongoing ++ [kv.txs.length] } := by
    rw [KV.newTX, inv.opened]
    rfl
  rw [shape] at sorted ⊢
  have fresh : .began kv.txs.length ∉ journal := fun member => Nat.lt_irrefl _ ((inv.began _).mp member)
  refine ⟨sorted, inv.opened, fun id tx found => ?_, ?_, fun id => ?_, fun id beyond => ?_, fun id tx found live => ?_⟩
  · rcases List.mem_append.mp (List.mem_of_getElem? found) with old | new
    · obtain ⟨index, read⟩ := List.mem_iff_getElem?.mp old
      exact inv.top index tx read
    · rw [List.mem_singleton.mp new]
  · rw [inv.contents]
    simp [VersionedMap.contents, commits]
  · simp only [List.mem_append, inv.began, List.mem_singleton, Observation.began.injEq, List.length_append,
      List.length_singleton]
    omega
  · have silent := inv.wrote id (by simp at beyond; omega)
    simpa [writes] using silent
  · rcases Nat.lt_or_ge id kv.txs.length with inside | beyond
    · rw [List.getElem?_append_left inside] at found
      obtain ⟨captured, reads⟩ := inv.reads id tx found live
      exact ⟨captured, reads.append ((inv.began id).mpr inside) rfl⟩
    · obtain rfl : id = kv.txs.length := by
        have bound := (List.getElem?_eq_some_iff.mp found).1
        simp at bound
        omega
      rw [List.getElem?_append_right (Nat.le_refl _), Nat.sub_self] at found
      cases found
      refine ⟨kv.tables.levels, rfl, ?_⟩
      rw [txView, view_began fresh (inv.wrote _ (Nat.le_refl _)), ← inv.contents]
      rfl

/-- A write of a live transaction shows in its own view only. -/
theorem SnapshotInv.write (inv : SnapshotInv initial kv journal)
    (sorted : SortedInv (kv.setTx id { tx with updates := updates })) (found : kv.txs[id]? = some tx)
    (reads : TxReads initial journal id tx captured) {change : TxWrite}
    (staged : overlay (visible (MergedSortedKV.runs captured)) updates = change.apply (txView initial journal id)) :
    SnapshotInv initial (kv.setTx id { tx with updates := updates }) (journal ++ [.wrote id change]) := by
  have size : (kv.txs.set id { tx with updates := updates }).length = kv.txs.length := List.length_set
  have inside := (List.getElem?_eq_some_iff.mp found).1
  refine ⟨sorted, inv.opened, fun other current read => ?_, ?_, fun other => ?_, fun other beyond => ?_,
    fun other current read alive => ?_⟩
  · rcases (getElem?_changed inside).mp read with ⟨rfl, rfl⟩ | ⟨-, old⟩
    · exact inv.top other tx found
    · exact inv.top other current old
  · rw [setTx, inv.contents]
    simp [VersionedMap.contents, commits]
  · simp [setTx, size, inv.began]
  · have silent := inv.wrote other (size ▸ beyond)
    have apart : id ≠ other := by
      rw [setTx, size] at beyond
      omega
    simpa [writes, apart] using silent
  · rcases (getElem?_changed inside).mp read with ⟨rfl, rfl⟩ | ⟨apart, old⟩
    · refine ⟨captured, reads.levels, ?_⟩
      rw [txView, view_wrote ((inv.began other).mpr inside)]
      exact staged
    · obtain ⟨captured, reads⟩ := inv.reads other current old alive
      refine ⟨captured, reads.append ((inv.began other).mpr (List.getElem?_eq_some_iff.mp old).1) ?_⟩
      simp [writes, Ne.symm apart]

theorem setTx_self (found : kv.txs[id]? = some tx) : kv.setTx id tx = kv := by
  obtain ⟨bound, rfl⟩ := List.getElem?_eq_some_iff.mp found
  rw [setTx, List.set_getElem_self bound]

/-- `KVTX.SetEx` and `KVTX.Del`. -/
def call (kv : KV) (id : ℕ) (tx : KVTX) : TxWrite → KV
  | .set key val mode => kv.setEx id tx key val mode
  | .del key => kv.del id tx key

theorem step_call (options : KVOptions) (found : kv.idleTx id = some tx) (write : TxWrite) :
    kv.step options (write.event id) = some (kv.call id tx write) := by
  cases write <;> simp [step, TxWrite.event, call, found]

theorem call_finished {err : TXError} (ended : tx.err = some err) (write : TxWrite) : kv.call id tx write = kv := by
  cases write <;> simp [call, KV.setEx, KV.del, get, ended]

/-- A call on a live transaction stages its write. -/
theorem call_eq (found : kv.txs[id]? = some tx) {base : KVMap}
    (reads : kv.Reads tx (overlay base tx.updates)) (write : TxWrite) :
    kv.call id tx write = kv.setTx id { tx with updates := (write.stage base tx.updates).1 } := by
  cases write with
  | set key val mode =>
    simp only [call, KV.setEx, reads.get, TxWrite.stage]
    split
    · rfl
    · exact (setTx_self found).symm
  | del key =>
    simp only [call, KV.del, reads.get, TxWrite.stage]
    cases overlay base tx.updates key with
    | some old => rfl
    | none => exact (setTx_self found).symm

theorem SnapshotInv.call (inv : SnapshotInv initial kv journal) (found : kv.idleTx id = some tx) (write : TxWrite)
    (sorted : SortedInv (kv.call id tx write)) :
    SnapshotInv initial (kv.call id tx write) (journal ++ kv.observe (write.event id)) := by
  have there := (idleTx_eq_some.mp found).2
  cases live : tx.err with
  | some err =>
    have silent : kv.observe (write.event id) = [] := by cases write <;> simp [TxWrite.event, observe, found, live]
    rw [call_finished live, silent]
    exact inv.quiet inv.sorted rfl rfl rfl
  | none =>
    have noted : kv.observe (write.event id) = [.wrote id write] := by
      cases write <;> simp [TxWrite.event, observe, found, live]
    obtain ⟨captured, reads⟩ := inv.reads id tx there live
    have shown := inv.txReads there live
    rw [← reads.shows] at shown
    rw [noted]
    rw [call_eq there shown] at sorted ⊢
    refine inv.write sorted there reads ?_
    rw [TxWrite.overlay_stage (inv.sorted.txs id tx there).updates, reads.shows]

/-- A commit overlays the contents and leaves every open transaction where it is. -/
theorem SnapshotInv.applyCommit (inv : SnapshotInv initial kv journal) (there : kv.txs[id]? = some tx)
    (sorted : SortedInv (kv.applyCommit id tx)) :
    SnapshotInv initial (kv.applyCommit id tx) (journal ++ [.committed id tx.updates]) := by
  refine inv.frame sorted rfl rfl (fun other current found => .inl found) (fun other => ⟨by simp, rfl⟩) ?_
  rw [contents_committed, ← inv.contents]
  exact Tables.contents_apply inv.sorted.tables (inv.sorted.txs id tx there).updates

/-- Compaction steps keep the transactions and the contents. -/
theorem SortedInv.compact_frame_of_step (inv : SortedInv kv) (compacts : event.compacts = true)
    (taken : Step options kv event target) :
    target.txs = kv.txs ∧ target.closed = kv.closed ∧ target.tables.contents = kv.tables.contents := by
  cases taken with
  | newTX | newInnerTX | setEx | del | abort | abortInner | commitInner | commitFinished | beginCommit
  | checkCommit | writeLog | applyCommit | endCommit | closeAgain | beginClose | endClose | openStore =>
    simp [KVEvent.compacts] at compacts
  | compactClosed | startCompact | skipFlush | publish | rewriteFailed | rewriteLog | skipMerge | pickMerge
  | mergeFailed => exact ⟨rfl, rfl, rfl⟩
  | flush memSize started =>
    have idle : kv.tables.imm = none := by simpa [PhaseOk, started] using inv.phase
    exact ⟨rfl, rfl, Tables.contents_freeze idle⟩
  | flushFailed version frozen dropTombstones flushing => exact ⟨rfl, rfl, Tables.contents_unfreeze inv.tables⟩
  | install version frozen dropTombstones published free =>
    obtain ⟨held, bottom⟩ := inv.phase.frozen_iff (.inr published)
    exact ⟨rfl, rfl, Tables.contents_install options.library version inv.tables held bottom⟩
  | installMerge version level old1 old2 dropTombstones merging =>
    obtain ⟨-, first, second, bottom⟩ := inv.phase.merging merging
    exact ⟨rfl, rfl, Tables.contents_replacePair options.library version inv.tables first second bottom⟩

theorem SortedInv.compact_frame (inv : SortedInv kv) (compacts : event.compacts = true)
    (taken : kv.step options event = some target) :
    target.txs = kv.txs ∧ target.closed = kv.closed ∧ target.tables.contents = kv.tables.contents :=
  inv.compact_frame_of_step compacts (step_cases taken)

/-- Compaction steps move slots and make none. -/
theorem SortedInv.compact_slots (inv : SortedInv kv) (compacts : event.compacts = true)
    (taken : kv.step options event = some target) : target.tables.slots ⊆ kv.tables.slots := by
  cases step_cases taken with
  | newTX | newInnerTX | setEx | del | abort | abortInner | commitInner | commitFinished | beginCommit
  | checkCommit | writeLog | applyCommit | endCommit | closeAgain | beginClose | endClose | openStore =>
    simp [KVEvent.compacts] at compacts
  | compactClosed | startCompact | skipFlush | publish | rewriteFailed | rewriteLog | skipMerge | pickMerge
  | mergeFailed => exact List.Subset.refl _
  | flush =>
    intro slot member
    simp only [Tables.mem_slots, Tables.freeze, List.not_mem_nil, Option.some.injEq, exists_eq_left', false_or]
      at member ⊢
    exact member.imp_right .inr
  | flushFailed version frozen dropTombstones flushing =>
    intro slot member
    obtain ⟨held, -⟩ := inv.phase.frozen_iff (.inl flushing)
    have returned := @Tables.mem_unfreeze _ inv.tables slot
    simp only [held, Option.getD_some, List.mem_append] at returned
    rw [Tables.mem_slots] at member ⊢
    rcases member with inMem | ⟨other, frozenAgain, -⟩ | inMain
    · exact (returned inMem).imp_right fun inside => .inl ⟨frozen, held, inside⟩
    · simp [Tables.unfreeze, held] at frozenAgain
    · exact .inr (.inr (by simpa [Tables.unfreeze, held] using inMain))
  | install version frozen dropTombstones published free =>
    obtain ⟨held, -⟩ := inv.phase.frozen_iff (.inr published)
    intro slot member
    rw [Tables.mem_slots] at member ⊢
    simp only [Tables.install, reduceCtorEq, false_and, exists_false, false_or, List.mem_cons, exists_eq_or_imp]
      at member
    refine member.imp_right (·.imp (fun inside => ⟨frozen, held, ?_⟩) id)
    exact Tables.flushed_subset options.library version frozen dropTombstones inside
  | installMerge version level old1 old2 dropTombstones merging =>
    obtain ⟨-, first, second, -⟩ := inv.phase.merging merging
    have one := List.mem_of_getElem? first
    have two := List.mem_of_getElem? second
    have increasing := ((Tables.sorted_iff _).mp inv.tables).2.2
    intro slot member
    rw [Tables.mem_slots] at member ⊢
    refine member.imp_right (·.imp_right ?_)
    rintro ⟨file, among, inside⟩
    simp only [Tables.replacePair, List.mem_append, List.mem_cons] at among
    rcases among with front | rfl | back
    · exact ⟨file, List.mem_of_mem_take front, inside⟩
    · rcases Tables.mem_of_mem_mergedTable options.library version (increasing _ one)
        (increasing _ two) inside with old | old
      · exact ⟨old1, one, old⟩
      · exact ⟨old2, two, old⟩
    · exact ⟨file, List.mem_of_mem_drop back, inside⟩

theorem observe_compacts {event : KVEvent} (compacts : event.compacts = true) : kv.observe event = [] := by
  cases event <;> first | rfl | simp [KVEvent.compacts] at compacts

theorem SnapshotInv.step (inv : SnapshotInv initial kv journal) (online : event.online = true)
    (taken : kv.step options event = some target) : SnapshotInv initial target (journal ++ kv.observe event) := by
  have sorted := inv.sorted.step (inv.keepsRuns event) taken
  by_cases compacts : event.compacts = true
  · obtain ⟨txs, closed, contents⟩ := inv.sorted.compact_frame compacts taken
    rw [observe_compacts compacts]
    exact inv.quiet sorted txs closed contents
  cases step_cases taken with
  | newTX =>
    have noted : kv.observe .newTX = [.began kv.txs.length] := by simp [observe, inv.opened]
    rw [noted]
    exact inv.newTX sorted
  | setEx id tx key val mode found => exact inv.call found (.set key val mode) sorted
  | del id tx key found => exact inv.call found (.del key) sorted
  | abort id tx found top =>
    refine inv.frame sorted (untrack_length id tx) (untrack_closed id tx) (untrack_kept top)
      (fun other => ⟨by simp [observe], rfl⟩) ?_
    rw [untrack_tables, inv.contents]
    simp [observe]
  | abortInner id tx found => exact inv.quiet inv.sorted rfl rfl rfl
  | commitInner id parent inner outer found nested =>
    rw [inv.top id inner (idleTx_eq_some.mp found).2] at nested
    contradiction
  | commitFinished id tx found top unusable =>
    obtain ⟨err, unusable⟩ := Option.isSome_iff_exists.mp unusable
    have noted : kv.observe (.beginCommit id) = [.finished id (.error (.tx err))] := by
      simp [observe, found, unusable]
    rw [noted]
    refine inv.frame sorted rfl rfl (fun _ _ same => .inl same) (fun other => ⟨by simp, rfl⟩) ?_
    rw [inv.contents]
    simp [VersionedMap.contents, commits]
  | beginCommit id tx found top live =>
    have silent : kv.observe (.beginCommit id) = [] := by simp [observe, found, live]
    rw [silent]
    exact inv.quiet sorted rfl rfl rfl
  | checkCommit | writeLog => exact inv.quiet sorted rfl rfl rfl
  | applyCommit id tx current =>
    have noted : kv.observe .applyCommit = [.committed id tx.updates] := by simp [observe, current]
    rw [noted]
    exact inv.applyCommit (committing_eq_some.mp current).2 sorted
  | endCommit id tx result current =>
    have noted : kv.observe .endCommit = [.finished id result] := by simp [observe, current]
    have top := inv.top id tx (committing_eq_some.mp current).2
    rw [noted]
    refine inv.frame sorted (untrack_length id tx) (untrack_closed id tx) (untrack_kept top)
      (fun other => ⟨by simp, rfl⟩) ?_
    rw [untrack_tables, inv.contents]
    simp [VersionedMap.contents, commits]
  | newInnerTX | closeAgain | beginClose | endClose | openStore => simp [KVEvent.online] at online
  | _ => simp [KVEvent.compacts] at compacts

end Invariant

theorem sorted_opened {version : ℕ} (increasing : ∀ file ∈ sstables, Increasing file.slots) :
    (opened log version sstables).tables.Sorted :=
  (Tables.sorted_iff _).mpr ⟨replayMem_increasing log, by simp [opened, openAll], increasing⟩

theorem snapshotInv_opened {version : ℕ} (increasing : ∀ file ∈ sstables, Increasing file.slots) :
    SnapshotInv (opened log version sstables).tables.contents (opened log version sstables) [] where
  sorted := ⟨sorted_opened increasing, increasing, by simp [opened, openAll, empty], rfl⟩
  opened := rfl
  top := by simp [opened, openAll, empty]
  contents := rfl
  began := by simp [opened, openAll, empty]
  wrote := fun _ _ => rfl
  reads := by simp [opened, openAll, empty]

/-- What a transaction reads is one map. -/
theorem Reads.unique {kv : KV} {first second : KVMap} (left : kv.Reads tx first)
    (right : kv.Reads tx second) : first = second := by
  funext key
  have both := (left.get key).symm.trans (right.get key)
  simpa using both

/-- Steps and journal of a run of top-level transactions and compactions. -/
theorem snapshotInv_run {version : ℕ} (increasing : ∀ file ∈ sstables, Increasing file.slots) {events : List KVEvent}
    (online : ∀ event ∈ events, event.online = true) {state : KV × KVJournal}
    (run : run? (journaled (step options) observe) (opened log version sstables, []) events = some state) :
    SnapshotInv (opened log version sstables).tables.contents state.1 state.2 := by
  refine run?_invariant_of_meets
    (fun state => SnapshotInv (opened log version sstables).tables.contents state.1 state.2)
    (fun {source event target} inv online taken => ?_) (snapshotInv_opened increasing)
    (meets_of_forall online _) run
  obtain ⟨moved, noted⟩ := journaled_eq_some.mp taken
  rw [noted]
  exact inv.step online moved

/-- Every live transaction of every run reads the contents committed before it began, with its own writes
over them; a compaction step changes neither that nor what the next transaction reads. -/
theorem refines_versioned_map (options : KVOptions) (log : List KVSlot) (version : ℕ)
    (sstables : List SortedFile) (increasing : ∀ file ∈ sstables, Increasing file.slots)
    (events : List KVEvent) (online : ∀ event ∈ events, event.online = true) (kv : KV) (journal : KVJournal)
    (run : run? (journaled (step options) observe) (opened log version sstables, []) events = some (kv, journal)) :
    (∀ (id : ℕ) (tx : KVTX), kv.txs[id]? = some tx → tx.err = none →
        kv.Reads tx (txView (opened log version sstables).tables.contents journal id)) ∧
      ∀ event target, event.compacts = true → kv.step options event = some target →
        (∀ (id : ℕ) (tx : KVTX) (view : KVMap), kv.txs[id]? = some tx → tx.err = none →
          kv.Reads tx view →
          target.txs[id]? = some tx ∧ target.Reads tx view) ∧
        ∃ before after, kv.newTX.txs[kv.txs.length]? = some before ∧
          target.newTX.txs[kv.txs.length]? = some after ∧
          ∀ view, kv.newTX.Reads before view ↔ target.newTX.Reads after view := by
  let initial := (opened log version sstables).tables.contents
  have inv : SnapshotInv initial kv journal := snapshotInv_run increasing online run
  refine ⟨fun id tx found live => inv.txReads found live, fun event target compacts taken => ?_⟩
  have moved : SnapshotInv initial target journal := by
    have online : event.online = true := by cases event <;> first | rfl | simp [KVEvent.compacts] at compacts
    have after := inv.step online taken
    rwa [observe_compacts compacts, List.append_nil] at after
  have txs := (inv.sorted.compact_frame compacts taken).1
  refine ⟨fun id tx view found live reads => ?_, ?_⟩
  · have same : target.txs[id]? = some tx := txs ▸ found
    refine ⟨same, ?_⟩
    rw [reads.unique (inv.txReads found live)]
    exact moved.txReads same live
  · have fresh {state : KV} (current : SnapshotInv initial state journal) :
        ∃ tx, state.newTX.txs[state.txs.length]? = some tx ∧
          state.newTX.Reads tx (txView initial (journal ++ [.began state.txs.length]) state.txs.length) := by
      have begun : state.step options .newTX = some state.newTX := rfl
      have next := current.newTX (current.sorted.step rfl begun)
      have added : state.newTX.txs[state.txs.length]? = some
          ⟨state.snapshot, none, [], .updates state.txs.length :: state.tables.levels.map .source, none⟩ := by
        simp [KV.newTX, current.opened]
      exact ⟨_, added, next.txReads added rfl⟩
    obtain ⟨before, isBefore, readsBefore⟩ := fresh inv
    obtain ⟨after, isAfter, readsAfter⟩ := fresh moved
    rw [txs] at isAfter readsAfter
    refine ⟨before, after, isBefore, isAfter, fun view => ⟨fun reads => ?_, fun reads => ?_⟩⟩
    · rwa [reads.unique readsBefore]
    · rwa [reads.unique readsAfter]

/-- Two commits with a flush between them and a merge after, while a transaction stays open. -/
def openAcrossCompaction : List KVEvent :=
  [.newTX, .setEx 0 [1] [7] .upsert, .beginCommit 0, .checkCommit, .writeLog none, .applyCommit, .endCommit,
    .newTX, .del 1 [1], .startCompact, .flush, .publish, .install, .rewriteLog none, .pickMerge,
    .newTX, .setEx 2 [1] [8] .update, .beginCommit 2, .checkCommit, .writeLog none, .applyCommit, .endCommit,
    .startCompact, .flush, .publish, .install, .rewriteLog none, .pickMerge, .installMerge]

theorem refines_versioned_map_openAcrossCompaction :
    (run? (journaled (step .eager) observe) (opened [] 0 [], []) openAcrossCompaction).isSome ∧
      ∀ kv journal, run? (journaled (step .eager) observe) (opened [] 0 [], []) openAcrossCompaction =
        some (kv, journal) → ∀ (id : ℕ) (tx : KVTX), kv.txs[id]? = some tx → tx.err = none →
          kv.Reads tx (txView (opened [] 0 []).tables.contents journal id) :=
  ⟨by decide +kernel, fun kv journal run => (refines_versioned_map .eager [] 0 [] (by simp)
    openAcrossCompaction (by decide) kv journal run).1⟩

end KV

end PallasDB
