import PallasDB.Db.KVConflict

/-! # The log and the tables on disk

At any point of a run without disk errors, opening the store from its log and the tables its metadata names
shows what the running store shows, with the updates of a transaction that is logged but not applied yet
laid over it. The log covers every key that is not in a table, so a table that is published before the log
is rewritten stays hidden behind the log.
-/

namespace PallasDB

open SortedRun Transition VersionedMap

/-- Events of top-level transactions and compactions during which no call to the disk fails. -/
def KVEvent.steady : KVEvent → Bool
  | .newInnerTX _ | .commitInner _ | .beginClose | .endClose | .openStore | .flushFailed | .mergeFailed
  | .writeLog (some _) | .rewriteLog (some _) => false
  | _ => true

theorem KVEvent.online_of_steady {event : KVEvent} (steady : event.steady = true) : event.online = true := by
  cases event <;> first | rfl | simp [KVEvent.steady] at steady

/-! ## Runs laid over each other -/

/-- A run whose keys all occur above it is never read. -/
theorem visible_shadowed {top run : KVRun} (hidden : ∀ slot ∈ run, lookup top slot.key ≠ none)
    (back : List KVRun) : visible (top :: run :: back) = visible (top :: back) := by
  rw [visible_cons, visible_cons, visible_cons]
  funext key
  cases found : lookup top key with
  | some val => simp [overlay, found]
  | none =>
    have absent : lookup run key = none := lookup_eq_none.mpr fun slot member same =>
      hidden slot member (same ▸ found)
    simp [overlay, found, absent]

theorem overlay_nil (base : KVMap) : overlay base [] = base := rfl

/-- Appending the updates of a transaction to the log overlays what recovery shows. -/
theorem visible_replayMem_append (log : List KVSlot) {updates : SortedArray}
    (increasing : Increasing updates) (back : List KVRun) :
    visible (replayMem (log ++ updates) :: back) = overlay (visible (replayMem log :: back)) updates := by
  rw [visible_cons, visible_cons]
  funext key
  simp only [overlay, lookup_replayMem, List.reverse_append, lookup_append, increasing.lookup_reverse]
  cases lookup updates key <;> rfl

theorem replayMem_of_increasing {mem : SortedArray} (increasing : Increasing mem) : replayMem mem = mem :=
  (replayMem_increasing mem).ext increasing fun key => by rw [lookup_replayMem, increasing.lookup_reverse]

theorem mem_of_mem_updateMem {mem updates : SortedArray} (left : Increasing mem) (right : Increasing updates)
    {slot : KVSlot} (member : slot ∈ updateMem mem updates) : slot ∈ mem ∨ slot ∈ updates := by
  obtain ⟨run, among, inside⟩ := (updateMem_isMerge left right).mem_levels member
  rcases List.mem_cons.mp among with rfl | last
  · exact .inr inside
  · exact .inl (List.mem_singleton.mp last ▸ inside)

variable {id version : ℕ} {tx : KVTX} {frozen : SortedArray} {dropTombstones : Bool}

namespace KV

/-- Updates that are in the log and not in the memtable yet. -/
def staged (kv : KV) : SortedArray :=
  match kv.committing with
  | some (_, tx, .logged) => tx.updates
  | _ => []

/-- Everything that only the log keeps. -/
def unflushed (kv : KV) : List KVSlot := kv.tables.mem ++ kv.tables.imm.getD [] ++ kv.staged

/-- The tables the metadata names: those of the store, with a published table in front. -/
def listed (options : KVOptions) (kv : KV) : List SortedFile :=
  match kv.compaction with
  | .published version frozen dropTombstones =>
      Tables.flushed options.library version frozen dropTombstones :: kv.tables.main
  | _ => kv.tables.main

structure RecoverInv (options : KVOptions) (kv : KV) : Prop where
  listed : kv.sstables = kv.listed options
  locked : kv.compaction = .installed → kv.commit = none
  contents : kv.openAll.tables.contents = overlay kv.tables.contents kv.staged
  known : ∀ slot ∈ kv.unflushed, slotSize slot ≤ maxEntrySize ∧ ∃ record ∈ kv.log, record.key = slot.key
  sized : ∀ slot ∈ kv.log, slotSize slot ≤ maxEntrySize

theorem contents_openAll (kv : KV) :
    kv.openAll.tables.contents = visible (replayMem kv.log :: kv.sstables.map SortedFile.slots) := by
  rw [Tables.contents, Tables.runs_eq]
  rfl

theorem staged_of_not_logged {kv : KV} (other : ∀ id, kv.commit ≠ some ⟨id, .logged⟩) : kv.staged = [] := by
  rw [staged]
  split
  · next id tx current => exact absurd (committing_eq_some.mp current).1 (other id)
  · rfl

theorem staged_of_logged {kv : KV} (current : kv.committing = some (id, tx, .logged)) : kv.staged = tx.updates := by
  rw [staged, current]

section Invariant

variable {options : KVOptions} {kv target : KV} {journal : KVJournal}

/-- Only the transaction inside the commit critical section matters. -/
theorem staged_congr (inv : ConflictInv kv journal) (commit : target.commit = kv.commit)
    (kept : ∀ (id : ℕ) (tx : KVTX), kv.busy id = true → kv.txs[id]? = some tx → target.txs[id]? = some tx) :
    target.staged = kv.staged := by
  cases held : kv.commit with
  | none => rw [staged_of_not_logged (by simp [commit, held]), staged_of_not_logged (by simp [held])]
  | some current =>
    obtain ⟨id, phase⟩ := current
    obtain ⟨tx, found, -⟩ := inv.committing id phase held
    have there := kept id tx (by simp [busy, held]) found
    have first : kv.committing = some (id, tx, phase) := committing_eq_some.mpr ⟨held, found⟩
    have second : target.committing = some (id, tx, phase) := committing_eq_some.mpr ⟨commit.trans held, there⟩
    rw [staged, staged, first, second]

/-- A step that changes neither tables nor log nor metadata. -/
theorem RecoverInv.frame (inv : RecoverInv options kv) (tables : target.tables = kv.tables)
    (log : target.log = kv.log) (sstables : target.sstables = kv.sstables)
    (listed : target.listed options = kv.listed options)
    (locked : target.compaction = .installed → target.commit = none) (staged : target.staged = kv.staged) :
    RecoverInv options target := by
  have reopened : target.openAll.tables = kv.openAll.tables := by simp [openAll, log, sstables]
  have unflushed : target.unflushed = kv.unflushed := by rw [KV.unflushed, KV.unflushed, tables, staged]
  constructor
  · rw [sstables, listed, inv.listed]
  · exact locked
  · rw [reopened, tables, staged, inv.contents]
  · rw [unflushed, log]
    exact inv.known
  · rw [log]
    exact inv.sized

/-- A step that moves neither the commit nor the compaction and leaves the committing transaction alone. -/
theorem RecoverInv.idle (inv : RecoverInv options kv) (conflicts : ConflictInv kv journal)
    (tables : target.tables = kv.tables) (log : target.log = kv.log) (sstables : target.sstables = kv.sstables)
    (compaction : target.compaction = kv.compaction) (commit : target.commit = kv.commit)
    (kept : ∀ (id : ℕ) (tx : KVTX), kv.busy id = true → kv.txs[id]? = some tx → target.txs[id]? = some tx) :
    RecoverInv options target := by
  refine inv.frame tables log sstables ?_ ?_ (staged_congr conflicts commit kept)
  · rw [KV.listed, KV.listed, compaction, tables]
  · rw [compaction, commit]
    exact inv.locked

/-- A step of the commit that is neither logged before nor after it. -/
theorem RecoverInv.rephase (inv : RecoverInv options kv) {phase : CommitPhase} (free : kv.compaction ≠ .installed)
    (before : ∀ other, kv.commit ≠ some ⟨other, .logged⟩) (after : phase ≠ .logged) :
    RecoverInv options (kv.setPhase id phase) := by
  have unstaged : ∀ other, (kv.setPhase id phase).commit ≠ some ⟨other, .logged⟩ := by
    simp [setPhase, after]
  refine inv.frame rfl rfl rfl rfl (fun installed => absurd installed free) ?_
  rw [staged_of_not_logged unstaged, staged_of_not_logged before]

section

variable (inv : RecoverInv options kv)

include inv

theorem RecoverInv.free {current : Committing} (held : kv.commit = some current) : kv.compaction ≠ .installed := by
  intro installed
  rw [inv.locked installed] at held
  contradiction

theorem RecoverInv.writeLog (sorted : SortedInv kv)
    (current : kv.committing = some (id, tx, .checked)) : RecoverInv options (kv.writeLog id tx none) := by
  obtain ⟨held, found⟩ := committing_eq_some.mp current
  have free := inv.free held
  have unstaged : kv.staged = [] := staged_of_not_logged (by simp [held])
  rw [KV.writeLog]
  split
  · exact inv.rephase free (by simp [held]) (by simp)
  · next fits =>
    have small : ∀ slot ∈ tx.updates, slotSize slot ≤ maxEntrySize := by simpa using fits
    have logged : ({ kv with log := kv.log ++ tx.updates, commit := some ⟨id, .logged⟩ } : KV).staged = tx.updates :=
      staged_of_logged (committing_eq_some.mpr ⟨rfl, found⟩)
    constructor
    · exact inv.listed
    · exact fun installed => absurd installed free
    · have before := inv.contents
      rw [unstaged, overlay_nil, contents_openAll] at before
      rw [contents_openAll, logged]
      exact (visible_replayMem_append kv.log (sorted.txs id tx found).updates _).trans (by rw [before])
    · intro slot member
      rw [KV.unflushed, logged] at member
      rcases List.mem_append.mp member with old | new
      · obtain ⟨fitting, record, inLog, same⟩ := inv.known slot (List.mem_append_left _ old)
        exact ⟨fitting, record, List.mem_append_left _ inLog, same⟩
      · exact ⟨small slot new, slot, List.mem_append_right _ new, rfl⟩
    · exact fun slot member => (List.mem_append.mp member).elim (inv.sized slot) (small slot)

theorem RecoverInv.applyCommit (sorted : SortedInv kv)
    (current : kv.committing = some (id, tx, .logged)) : RecoverInv options (kv.applyCommit id tx) := by
  obtain ⟨held, found⟩ := committing_eq_some.mp current
  have increasing := (sorted.txs id tx found).updates
  have logged : kv.staged = tx.updates := staged_of_logged current
  have unstaged : (kv.applyCommit id tx).staged = [] := staged_of_not_logged (by simp [KV.applyCommit])
  constructor
  · exact inv.listed
  · exact fun installed => absurd installed (inv.free held)
  · rw [unstaged, overlay_nil]
    refine inv.contents.trans ?_
    rw [logged]
    exact (Tables.contents_apply sorted.tables increasing).symm
  · intro slot member
    rw [KV.unflushed, unstaged, List.append_nil] at member
    refine inv.known slot ?_
    rw [KV.unflushed, logged]
    rcases List.mem_append.mp member with inMem | inImm
    · have left := ((Tables.sorted_iff kv.tables).mp sorted.tables).1
      rcases mem_of_mem_updateMem left increasing inMem with old | new
      · exact List.mem_append_left _ (List.mem_append_left _ old)
      · exact List.mem_append_right _ new
    · exact List.mem_append_left _ (List.mem_append_right _ inImm)
  · exact inv.sized

/-- The log holds every key of a table until the table is installed. -/
theorem RecoverInv.flushed_logged (held : kv.tables.imm = some frozen) {records : List KVSlot}
    (covers : kv.log ⊆ records) {slot : KVSlot}
    (member : slot ∈ (Tables.flushed options.library version frozen dropTombstones).slots) :
    lookup (replayMem records) slot.key ≠ none := by
  have inFrozen := Tables.flushed_subset options.library version frozen dropTombstones member
  obtain ⟨-, record, inLog, same⟩ := inv.known slot (by simp [KV.unflushed, held, inFrozen])
  rw [lookup_replayMem, ← same]
  exact fun absent => lookup_eq_none.mp absent record (List.mem_reverse.mpr (covers inLog)) rfl

/-- Publishing the flushed table: the log still holds every key of it. -/
theorem RecoverInv.publish (sorted : SortedInv kv)
    (flushing : kv.compaction = .flushing version frozen dropTombstones) :
    RecoverInv options { kv with
      metaVersion := version
      sstables := Tables.flushed options.library version frozen dropTombstones :: kv.sstables
      compaction := .published version frozen dropTombstones } := by
  have held : kv.tables.imm = some frozen := (sorted.phase.frozen_iff (.inl flushing)).1
  constructor
  · have before := inv.listed
    rw [KV.listed, flushing] at before
    exact congrArg _ before
  · simp
  · refine Eq.trans ?_ inv.contents
    rw [contents_openAll, contents_openAll]
    exact visible_shadowed (fun slot => inv.flushed_logged held (List.Subset.refl _)) _
  · exact inv.known
  · exact inv.sized

theorem RecoverInv.freeze (sorted : SortedInv kv) {memSize : ℕ}
    (started : kv.compaction = .started memSize) :
    RecoverInv options { kv with
      version := kv.version + 1
      tables := kv.tables.freeze
      compaction := .flushing (kv.version + 1) kv.tables.mem kv.tables.main.isEmpty } := by
  have idle : kv.tables.imm = none := by simpa [PhaseOk, started] using sorted.phase
  have listed : kv.sstables = kv.tables.main := by
    rw [inv.listed, KV.listed, started]
  constructor
  · exact listed
  · simp
  · exact inv.contents.trans (congrArg (overlay · _) (Tables.contents_freeze idle).symm)
  · intro slot member
    refine inv.known slot ?_
    rw [KV.unflushed, idle]
    exact (List.append_nil kv.tables.mem).symm ▸ member
  · exact inv.sized

/-- Rolling a failed flush back returns the frozen memtable to the live one. -/
theorem RecoverInv.flushFailed (sorted : SortedInv kv)
    (flushing : kv.compaction = .flushing version frozen dropTombstones) :
    RecoverInv options { kv with tables := kv.tables.unfreeze, compaction := .idle } := by
  have held : kv.tables.imm = some frozen := (sorted.phase.frozen_iff (.inl flushing)).1
  constructor
  · have before := inv.listed
    rw [KV.listed, flushing] at before
    simpa [KV.listed, Tables.unfreeze, held] using before
  · simp
  · exact inv.contents.trans (congrArg (overlay · _) (Tables.contents_unfreeze sorted.tables).symm)
  · intro slot member
    refine inv.known slot ?_
    rw [KV.unflushed, List.mem_append, List.mem_append] at member
    rcases member with (inMem | inImm) | staged
    · exact List.mem_append_left _ (Tables.mem_unfreeze sorted.tables inMem)
    · simp [Tables.unfreeze, held] at inImm
    · exact List.mem_append_right _ staged
  · exact inv.sized

theorem RecoverInv.install (sorted : SortedInv kv)
    (published : kv.compaction = .published version frozen dropTombstones) (free : kv.commit = none) :
    RecoverInv options { kv with
      tables := kv.tables.install (Tables.flushed options.library version frozen dropTombstones)
      compaction := .installed } := by
  obtain ⟨held, bottom⟩ := sorted.phase.frozen_iff (.inr published)
  constructor
  · have before := inv.listed
    rwa [KV.listed, published] at before
  · exact fun _ => free
  · refine inv.contents.trans (congrArg (overlay · _) ?_)
    exact (Tables.contents_install options.library version sorted.tables held bottom).symm
  · intro slot member
    refine inv.known slot ?_
    simp only [KV.unflushed, List.mem_append] at member ⊢
    exact member.imp_left (·.imp_right fun none => by simp [Tables.install] at none)
  · exact inv.sized

theorem RecoverInv.rewriteLog (sorted : SortedInv kv) (installed : kv.compaction = .installed) :
    RecoverInv options { kv with log := kv.tables.mem, compaction := .choosing } := by
  have idle : kv.tables.imm = none := by simpa [PhaseOk, installed] using sorted.phase
  have unstaged : ({ kv with log := kv.tables.mem, compaction := .choosing } : KV).staged = [] :=
    staged_of_not_logged (by simp [inv.locked installed])
  have listed : kv.sstables = kv.tables.main := by rw [inv.listed, KV.listed, installed]
  have increasing := ((Tables.sorted_iff kv.tables).mp sorted.tables).1
  constructor
  · exact listed
  · simp
  · rw [unstaged, overlay_nil, contents_openAll, Tables.contents, Tables.runs_eq]
    simp only [replayMem_of_increasing increasing, listed, idle, Option.toList_none, List.nil_append]
  · intro slot member
    rw [KV.unflushed, unstaged, List.append_nil] at member
    have inMem : slot ∈ kv.tables.mem := by simpa [idle] using member
    exact ⟨(inv.known slot (by simp [KV.unflushed, inMem])).1, slot, inMem, rfl⟩
  · exact fun slot inMem => (inv.known slot (by simp [KV.unflushed, inMem])).1

theorem RecoverInv.installMerge (sorted : SortedInv kv) {level : ℕ}
    {old1 old2 : SortedFile} (merging : kv.compaction = .merging version level old1 old2 dropTombstones) :
    RecoverInv options { kv with
      metaVersion := version
      sstables := replaceTables kv.sstables level
        (Tables.mergedTable options.library version old1 old2 dropTombstones)
      tables := kv.tables.replacePair level
        (Tables.mergedTable options.library version old1 old2 dropTombstones)
      compaction := .idle } := by
  obtain ⟨-, first, second, bottom⟩ := sorted.phase.merging merging
  have listed : kv.sstables = kv.tables.main := by rw [inv.listed, KV.listed, merging]
  have reopened : kv.openAll.tables.Sorted :=
    (Tables.sorted_iff _).mpr ⟨replayMem_increasing kv.log, by simp [openAll], sorted.sstables⟩
  constructor
  · exact congrArg (replaceTables · level _) listed
  · simp
  · refine Eq.trans ?_ (inv.contents.trans (congrArg (overlay · _) ?_))
    · rw [← listed] at first second bottom
      exact Tables.contents_replacePair options.library version reopened first second bottom
    · exact (Tables.contents_replacePair options.library version sorted.tables first second bottom).symm
  · exact inv.known
  · exact inv.sized

/-- Every step without disk errors keeps the store recoverable. -/
theorem RecoverInv.step (sorted : SortedInv kv) (conflicts : ConflictInv kv journal)
    {event : KVEvent} (steady : event.steady = true) (taken : kv.step options event = some target) :
    RecoverInv options target := by
  by_cases client : event.client = true
  · obtain ⟨txs, ongoing, history, rfl, kept⟩ := client_cases client taken
    exact inv.idle conflicts rfl rfl rfl rfl rfl kept
  cases step_cases taken with
  | newTX | newInnerTX | setEx | del | abort | abortInner | commitInner => simp [KVEvent.client] at client
  | commitFinished | compactClosed => exact inv
  | beginCommit id tx found top live free noInstall => exact inv.rephase noInstall (by simp [free]) (by simp)
  | checkCommit id tx phase current verdict =>
    have held := (committing_eq_some.mp current).1
    exact inv.rephase (inv.free held) (by simp [held]) (by cases verdict <;> simp)
  | writeLog id tx ioError log phase current wrote =>
    cases ioError with
    | none => exact wrote ▸ inv.writeLog sorted current
    | some left => simp [KVEvent.steady] at steady
  | applyCommit id tx current => exact inv.applyCommit sorted current
  | endCommit id tx result current =>
    have held := (committing_eq_some.mp current).1
    refine inv.frame (untrack_tables id tx) ?_ ?_ ?_ (fun _ => rfl) ?_
    · rw [untrack]; split <;> rfl
    · rw [untrack]; split <;> rfl
    · rw [untrack]; split <;> rfl
    · rw [staged_of_not_logged (by simp), staged_of_not_logged (by simp [held])]
  | startCompact before | skipFlush _ before | skipMerge before | pickMerge _ _ _ before =>
    exact inv.frame rfl rfl rfl (by simp [KV.listed, before]) (by simp) rfl
  | flush memSize started => exact inv.freeze sorted started
  | publish version frozen dropTombstones flushing => exact inv.publish sorted flushing
  | install version frozen dropTombstones published free => exact inv.install sorted published free
  | rewriteLog installed => exact inv.rewriteLog sorted installed
  | installMerge version level old1 old2 dropTombstones merging => exact inv.installMerge sorted merging
  | flushFailed | rewriteFailed | mergeFailed | closeAgain | beginClose | endClose | openStore =>
    simp [KVEvent.steady] at steady

end

theorem recoverInv_opened {log : List KVSlot} (fits : ∀ slot ∈ log, slotSize slot ≤ maxEntrySize)
    (version : ℕ) (sstables : List SortedFile) : RecoverInv options (opened log version sstables) := by
  constructor
  · rfl
  · simp [opened, openAll, empty]
  · rfl
  · intro slot member
    have whole : (opened log version sstables).unflushed = replayMem log :=
      (List.append_nil _).trans (List.append_nil _)
    have inMem : slot ∈ replayMem log := whole ▸ member
    have found := (replayMem_increasing log).lookup_of_mem inMem
    rw [lookup_replayMem] at found
    have inLog := List.mem_reverse.mp (mem_of_lookup found)
    exact ⟨fits slot inLog, slot, inLog, rfl⟩
  · exact fits

/-- Reopening the store at rest shows the same contents. -/
theorem RecoverInv.contents_opened (inv : RecoverInv options kv) (free : kv.commit = none) :
    (opened kv.log kv.metaVersion kv.sstables).tables.contents = kv.tables.contents := by
  have shown := inv.contents
  rw [staged_of_not_logged (by simp [free]), overlay_nil] at shown
  exact shown

end Invariant

end KV

end PallasDB
