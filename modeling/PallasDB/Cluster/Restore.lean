import PallasDB.Cluster.Snapshot

/-! # Installing a snapshot

`FSM.Restore` streams a snapshot into a store of its own, closes it, and then swaps directories: the live one
is moved aside, the restored one takes its place, and the store is opened again. Every call to the file system
may fail. The compaction thread of either store takes its steps in between; `Close` waits for the compaction
that is under way.
-/

namespace PallasDB

open SortedRun VersionedMap

/-! ## Closing and opening -/

/-- What the compaction that is under way does next. -/
def Compaction.next : Compaction → Option KVEvent
  | .idle => none
  | .started _ => some .flush
  | .flushing _ _ _ => some .publish
  | .published _ _ _ => some .install
  | .installed => some (.rewriteLog none)
  | .choosing => some .pickMerge
  | .merging _ _ _ _ _ => some .installMerge

/-- The files of a data directory. -/
structure StoreFiles where
  log : List KVSlot
  metaVersion : ℕ
  sstables : List SortedFile

/-- The store on these files. -/
def StoreFiles.store (files : StoreFiles) : KV := .opened files.log files.metaVersion files.sstables

/-- `NewKV`; a directory that is missing is created. `openSSTable` refuses a table with too many keys. -/
def newKV : Option StoreFiles → Except TableError KV
  | none => .ok (.opened [] 0 [])
  | some files =>
      if files.sstables.any (maxNKeys < ·.slots.length) then .error .nkeysOutOfRange else .ok files.store

theorem newKV_eq_ok {files : StoreFiles} {kv : KV} : newKV (some files) = .ok kv ↔
    files.store = kv ∧ ∀ file ∈ files.sstables, file.slots.length ≤ maxNKeys := by
  by_cases few : ∀ file ∈ files.sstables, file.slots.length ≤ maxNKeys
  · have refused : ¬files.sstables.any (maxNKeys < ·.slots.length) = true := by simpa using few
    simp only [newKV, if_neg refused, Except.ok.injEq, and_iff_left few]
  · have many : files.sstables.any (maxNKeys < ·.slots.length) = true := by simpa using few
    simp only [newKV, if_pos many, reduceCtorEq, few, and_false]

@[simp] theorem newKV_none : newKV none = .ok FSM.fresh.store := rfl

namespace KV

def files (kv : KV) : StoreFiles := ⟨kv.log, kv.metaVersion, kv.sstables⟩

variable (options : KVOptions)

/-- A step of the compaction thread, if it has come to it. -/
def compactStep (kv : KV) (event : KVEvent) : KV :=
  if event.compacts && event.steady then (kv.step options event).getD kv else kv

def background (kv : KV) (events : List KVEvent) : KV := events.foldl (compactStep options) kv

def finishCompact : ℕ → KV → KV
  | 0, kv => kv
  | rounds + 1, kv =>
      match kv.compaction.next with
      | none => kv
      | some event => finishCompact rounds (kv.compactStep options event)

/-- A commit waits for the end of a flush, which holds the commit mutex. -/
def awaitCommit (kv : KV) : KV := if kv.commitLocked then kv.finishCompact options 1 else kv

/-- `KV.Close`, without the errors it may report. A compaction has six steps at most. -/
def close (kv : KV) : KV :=
  if kv.closed then kv
  else
    let rested := kv.finishCompact options 6
    { rested with closed := true, tables := { rested.tables with imm := none, main := [] } }

end KV

/-! ## Restore -/

/-- The calls of `Restore` that can fail. -/
inductive RestoreCall where
  | clearRestore
  | clearBackup
  | openFresh
  | setEx (record : ℕ)
  | closeFresh
  | closeLive
  | stat
  | stash
  | install
  | rollback
  | reopen
  | syncParent
  | removeBackup
deriving DecidableEq, Repr

/-- What happens around a call of `Restore`. -/
structure RestoreEnv where
  fails : RestoreCall → Bool
  /-- A reader kept the lock until the budget of `lockForSwap` was used up. -/
  busy : Bool
  /-- What the compaction thread of the fresh store does before each record, and before `Close`. -/
  background : List (List KVEvent)

/-- Nothing fails, nobody reads, nothing is compacted. -/
def RestoreEnv.quiet : RestoreEnv := ⟨fun _ => false, false, []⟩

inductive StageError where
  | io
  | write (err : KV.OneShotError)
deriving DecidableEq, Repr

inductive RestoreError where
  | clearRestore
  | clearBackup
  | openFresh
  | readSnapshot (err : SnapshotReadError StageError)
  | closeFresh
  | busy
  | closed
  | closeLive
  | stat
  | stash
  | install
  | syncParent
  | removeBackup
deriving DecidableEq, Repr

/-- What the process aborts with during `Restore`. -/
inductive RestoreFatal where
  | rollback
  | reopenRestored
  | reopenOld (cause : RestoreError)
deriving DecidableEq, Repr

/-- The data directory and its two siblings. -/
structure DataDirs where
  live : Option StoreFiles
  restore : Option StoreFiles
  old : Option StoreFiles

section Restore

variable (options : KVOptions) (env : RestoreEnv)

/-- `SetEx` of one record on the fresh store. -/
def stageRecord (state : ℕ × KV) (key val : Bytes) : Except StageError (ℕ × KV) :=
  let (record, fresh) := state
  if env.fails (.setEx record) then .error .io
  else
    let settled := (fresh.background options (env.background.getD record [])).awaitCommit options
    match settled.oneShot (.set key val .upsert) with
    | (_, .error err) => .error (.write err)
    | (next, .ok _) => .ok (record + 1, next)

/-- The first half of `Restore`, up to `fresh.Close`. -/
def stage (stream : Bytes) : Except RestoreError StoreFiles :=
  if env.fails .clearRestore then .error .clearRestore
  else if env.fails .clearBackup then .error .clearBackup
  else if env.fails .openFresh then .error .openFresh
  else
    match newKV none with
    | .error _ => .error .openFresh
    | .ok empty =>
        match readSnapshot (stageRecord options env) (0, empty) stream with
        | .error err => .error (.readSnapshot err)
        | .ok (count, fresh) =>
            if env.fails .closeFresh then .error .closeFresh
            else .ok ((fresh.background options (env.background.getD count [])).close options).files

/-- `stashDir`, which also tells whether there was a directory to move. -/
def stashDir (dirs : DataDirs) : Except RestoreError (DataDirs × Bool) :=
  if env.fails .stat then .error .stat
  else
    match dirs.live with
    | none => .ok (dirs, false)
    | some files =>
        if env.fails .stash then .error .stash
        else .ok ({ dirs with live := none, old := some files }, true)

/-- `NewKV` on the data directory after the swap. -/
def RestoreEnv.reopen (live : Option StoreFiles) : Option KV :=
  if env.fails .reopen then none else (newKV live).toOption

namespace FSM

/-- `recover`. -/
def recover (fsm : FSM) (dirs : DataDirs) (cause : RestoreError) :
    Except RestoreFatal (FSM × Except RestoreError Unit) :=
  match env.reopen dirs.live with
  | none => .error (.reopenOld cause)
  | some store => .ok ({ fsm with store := store }, .error cause)

/-- `swapIn`. -/
def swapIn (fsm : FSM) (restored : StoreFiles) : Except RestoreFatal (FSM × Except RestoreError Unit) :=
  let store := fsm.store.close options
  let dirs : DataDirs := ⟨some store.files, some restored, none⟩
  if fsm.closed then .ok (fsm, .error .closed)
  -- closing a store again does nothing and reports nothing
  else if !fsm.store.closed && env.fails .closeLive then .ok ({ fsm with store := store }, .error .closeLive)
  else
    match stashDir env dirs with
    | .error cause => fsm.recover env dirs cause
    | .ok (dirs, stashed) =>
        if env.fails .install then
          if !stashed then fsm.recover env dirs .install
          else if env.fails .rollback then .error .rollback
          else fsm.recover env { dirs with live := dirs.old, old := none } .install
        else
          let dirs := { dirs with live := dirs.restore, restore := none }
          match env.reopen dirs.live with
          | none => .error .reopenRestored
          | some store =>
              let next := { fsm with store := store }
              if env.fails .syncParent then .ok (next, .error .syncParent)
              else if stashed && env.fails .removeBackup then .ok (next, .error .removeBackup)
              else .ok (next, .ok ())

/-- `FSM.Restore`. -/
def restore (fsm : FSM) (stream : Bytes) : Except RestoreFatal (FSM × Except RestoreError Unit) :=
  match stage options env stream with
  | .error err => .ok (fsm, .error err)
  | .ok restored => if env.busy then .ok (fsm, .error .busy) else fsm.swapIn options env restored

end FSM

variable {env} in
theorem RestoreEnv.reopen_eq_some {files : StoreFiles} {kv : KV} : env.reopen (some files) = some kv ↔
    env.fails .reopen = false ∧ files.store = kv ∧ ∀ file ∈ files.sstables, file.slots.length ≤ maxNKeys := by
  rw [← newKV_eq_ok, RestoreEnv.reopen]
  cases env.fails .reopen <;> cases newKV (some files) <;> simp [Except.toOption]

end Restore

/-! ## A store that serves its contents -/

/-- A store without a commit under way that shows the given contents and keeps them when it is opened again. -/
structure KV.Holds (options : KVOptions) (kv : KV) (contents : KVMap) : Prop where
  sound : ∃ initial journal, KV.Sound options initial kv journal
  free : kv.commit = none
  shows : kv.tables.contents = contents

namespace KV

section Compact

variable {options : KVOptions} {kv target : KV} {contents : KVMap}

/-- The rest of a compaction is some steps of its thread. -/
theorem finishCompact_eq (options : KVOptions) (rounds : ℕ) (kv : KV) :
    ∃ events, kv.finishCompact options rounds = kv.background options events := by
  induction rounds generalizing kv with
  | zero => exact ⟨[], rfl⟩
  | succ rounds ih =>
    rw [KV.finishCompact]
    split
    · exact ⟨[], rfl⟩
    · next event _ =>
      obtain ⟨events, same⟩ := ih (kv.compactStep options event)
      exact ⟨event :: events, same⟩

section

variable (holds : kv.Holds options contents)

include holds

theorem Holds.step_compacts {event : KVEvent} (compacts : event.compacts = true)
    (steady : event.steady = true) (taken : kv.step options event = some target) : target.Holds options contents := by
  obtain ⟨initial, journal, sound⟩ := holds.sound
  obtain ⟨-, -, same⟩ := sound.snapshots.sorted.compact_frame compacts taken
  exact ⟨⟨initial, _, sound.step steady taken⟩, (compact_sameTracking compacts taken).commit.trans holds.free,
    same.trans holds.shows⟩

theorem Holds.compactStep (event : KVEvent) : (kv.compactStep options event).Holds options contents := by
  rw [KV.compactStep]
  split
  · next both =>
    obtain ⟨compacts, steady⟩ := Bool.and_eq_true_iff.mp both
    cases taken : kv.step options event with
    | none => exact holds
    | some target => exact holds.step_compacts compacts steady taken
  · exact holds

theorem Holds.background (events : List KVEvent) : (kv.background options events).Holds options contents := by
  induction events generalizing kv with
  | nil => exact holds
  | cons event rest ih => exact ih (holds.compactStep event)

theorem Holds.slots_background (events : List KVEvent) :
    (kv.background options events).tables.slots ⊆ kv.tables.slots := by
  induction events generalizing kv with
  | nil => exact List.Subset.refl _
  | cons event rest ih =>
    refine List.Subset.trans (ih (holds.compactStep event)) ?_
    obtain ⟨_, _, sound⟩ := holds.sound
    rw [KV.compactStep]
    split
    · next both =>
      cases taken : kv.step options event with
      | none => exact List.Subset.refl _
      | some target => exact sound.snapshots.sorted.compact_slots (Bool.and_eq_true_iff.mp both).1 taken
    · exact List.Subset.refl _

theorem Holds.finishCompact (rounds : ℕ) : (kv.finishCompact options rounds).Holds options contents := by
  obtain ⟨events, same⟩ := finishCompact_eq options rounds kv
  rw [same]
  exact holds.background events

/-- The tables on disk hold nothing that the store does not hold. -/
theorem Holds.sstables_slots {file : SortedFile} (member : file ∈ kv.sstables) : file.slots ⊆ kv.tables.slots := by
  obtain ⟨_, _, sound⟩ := holds.sound
  have main {file : SortedFile} (inMain : file ∈ kv.tables.main) : file.slots ⊆ kv.tables.slots :=
    fun slot inside => Tables.mem_slots.mpr (.inr (.inr ⟨file, inMain, inside⟩))
  rw [sound.recover.listed, KV.listed] at member
  split at member
  · next version frozen dropTombstones published =>
    obtain ⟨held, -⟩ := sound.snapshots.sorted.phase.frozen_iff (.inr published)
    rcases List.mem_cons.mp member with rfl | inMain
    · intro slot inside
      have inFrozen := Tables.flushed_subset options.library version frozen dropTombstones inside
      exact Tables.mem_slots.mpr (.inr (.inl ⟨frozen, held, inFrozen⟩))
    · exact main inMain
  · exact main member

theorem Holds.slots_awaitCommit : (kv.awaitCommit options).tables.slots ⊆ kv.tables.slots := by
  obtain ⟨events, same⟩ := finishCompact_eq options 1 kv
  rw [KV.awaitCommit]
  split
  · rw [same]
    exact holds.slots_background events
  · exact List.Subset.refl _

/-- Once the flush has released the commit mutex, a commit can begin. -/
theorem Holds.awaitCommit : (kv.awaitCommit options).tables.contents = contents ∧
      ∃ initial journal, Ready options initial (kv.awaitCommit options) journal := by
  rw [KV.awaitCommit]
  by_cases locked : kv.commitLocked = true
  · rw [if_pos locked]
    have installed : kv.compaction = .installed := by
      rw [commitLocked, holds.free] at locked
      cases reached : kv.compaction <;> simp_all
    have after := holds.finishCompact 1
    have rewritten : kv.finishCompact options 1 = { kv with log := kv.tables.mem, compaction := .choosing } := by
      simp [KV.finishCompact, installed, Compaction.next, KV.compactStep, KVEvent.compacts, KVEvent.steady, KV.step]
    obtain ⟨initial, journal, sound⟩ := after.sound
    exact ⟨after.shows, initial, journal, sound, after.free, by rw [rewritten]; simp⟩
  · rw [if_neg locked]
    obtain ⟨initial, journal, sound⟩ := holds.sound
    refine ⟨holds.shows, initial, journal, sound, holds.free, fun installed => locked ?_⟩
    simp [commitLocked, installed]

/-- A store can be opened again on its files. -/
theorem Holds.files_store : kv.files.store.Holds options contents := by
  obtain ⟨initial, journal, sound⟩ := holds.sound
  have ready : Ready options _ kv.files.store [] :=
    ready_opened sound.recover.sized kv.metaVersion sound.snapshots.sorted.sstables
  exact ⟨⟨_, _, ready.toSound⟩, ready.free, (sound.recover.contents_opened holds.free).trans holds.shows⟩

end

theorem holds_fresh : FSM.fresh.store.Holds options fun _ => none := by
  have ready := FSM.ready_fresh options
  exact ⟨⟨_, _, ready.toSound⟩, ready.free, FSM.contents_fresh⟩

theorem Holds.read (holds : kv.Holds options contents) (key : Bytes) : (kv.read key).2 = .ok (contents key) := by
  obtain ⟨initial, journal, sound⟩ := holds.sound
  rw [sound.snapshots.read, holds.shows]

theorem Holds.opened (holds : kv.Holds options contents) : kv.closed = false := by
  obtain ⟨initial, journal, sound⟩ := holds.sound
  exact sound.snapshots.opened

theorem Holds.files_close (holds : kv.Holds options contents) :
    (kv.close options).files.store.Holds options contents := by
  rw [KV.close, if_neg (by simp [holds.opened])]
  exact (holds.finishCompact 6).files_store

/-- A table that is left on disk holds slots of the store. -/
theorem Holds.sstables_close (holds : kv.Holds options contents) {file : SortedFile}
    (member : file ∈ (kv.close options).files.sstables) : Increasing file.slots ∧ file.slots ⊆ kv.tables.slots := by
  obtain ⟨events, same⟩ := finishCompact_eq options 6 kv
  have rested := holds.background events
  have there : file ∈ (kv.background options events).sstables := by
    rwa [KV.close, if_neg (by simp [holds.opened]), same] at member
  obtain ⟨_, _, sound⟩ := rested.sound
  exact ⟨sound.snapshots.sorted.sstables file there,
    List.Subset.trans (rested.sstables_slots there) (holds.slots_background events)⟩

end Compact

section Draft

variable {options : KVOptions} {initial : KVMap} {kv : KV} {journal : KVJournal} {id : ℕ}
  {updates : SortedArray}

section

variable (drafting : Drafting options initial kv journal id updates)

include drafting

theorem Drafting.holds : kv.Holds options kv.tables.contents := ⟨⟨_, _, drafting.toSound⟩, drafting.free, rfl⟩

theorem Drafting.compactStep (event : KVEvent) :
    ∃ later, Drafting options initial (kv.compactStep options event) later id updates ∧
      (kv.compactStep options event).tables.contents = kv.tables.contents := by
  rw [KV.compactStep]
  split
  · next both =>
    obtain ⟨compacts, steady⟩ := Bool.and_eq_true_iff.mp both
    cases taken : kv.step options event with
    | none => exact ⟨journal, drafting, rfl⟩
    | some target => exact drafting.compacts compacts steady taken
  · exact ⟨journal, drafting, rfl⟩

theorem Drafting.background (events : List KVEvent) :
    ∃ later, Drafting options initial (kv.background options events) later id updates ∧
      (kv.background options events).tables.contents = kv.tables.contents := by
  induction events generalizing kv journal with
  | nil => exact ⟨journal, drafting, rfl⟩
  | cons event rest ih =>
    obtain ⟨_, stepped, same⟩ := drafting.compactStep event
    obtain ⟨later, done, kept⟩ := ih stepped
    exact ⟨later, done, kept.trans same⟩

/-- Once the flush has released the commit mutex, the transaction can commit. -/
theorem Drafting.awaitCommit :
    ∃ later, Writing options initial (kv.awaitCommit options) later id updates ∧
      (kv.awaitCommit options).tables.contents = kv.tables.contents := by
  obtain ⟨same, _, _, ready⟩ := drafting.holds.awaitCommit
  have waited : ∃ later, Drafting options initial (kv.awaitCommit options) later id updates := by
    rw [KV.awaitCommit]
    split
    · rw [KV.finishCompact]
      split
      · exact ⟨journal, drafting⟩
      · obtain ⟨later, stepped, -⟩ := drafting.compactStep _
        exact ⟨later, stepped⟩
    · exact ⟨journal, drafting⟩
  obtain ⟨later, drafting⟩ := waited
  exact ⟨later, drafting.toWriting ready.unlocked, same⟩

end

end Draft

end KV

/-! ## Staging -/

variable {slots : KVRun}

section Stage

variable {options : KVOptions} {env : RestoreEnv} {contents : KVMap}

theorem TxWrite.apply_upsert (view : KVMap) (key val : Bytes) :
    (TxWrite.set key val .upsert).apply view = Function.update view key (some val) := by
  funext other
  by_cases same : key = other
  · subst same
    rw [Function.update_self]
    exact TxWrite.apply_set_self ..
  · rw [Function.update_of_ne (Ne.symm same)]
    exact TxWrite.apply_set_other _ same val .upsert

/-- What an upsert leaves. -/
theorem overlay_upsert (contents : KVMap) (key val : Bytes) :
    overlay contents ((TxWrite.set key val .upsert).stage contents []).1 = Function.update contents key (some val) := by
  rw [TxWrite.overlay_stage increasing_nil]
  exact TxWrite.apply_upsert contents key val

theorem stage_upsert (contents : KVMap) (key val : Bytes) :
    ((TxWrite.set key val .upsert).stage contents []).1 = if contents key = some val then []
      else [⟨key, some val⟩] := by
  by_cases same : contents key = some val
  · simp [TxWrite.stage, KV.setExUpdates, overlay_nil, same]
  · simp only [TxWrite.stage, KV.setExUpdates, overlay_nil, Ne, same, not_false_eq_true, decide_true, if_true]
    rfl

/-- An upsert is refused only if it changes something and has no room in a log record. -/
theorem oversize_upsert (contents : KVMap) (key val : Bytes) :
    oversize ((TxWrite.set key val .upsert).stage contents []).1 = true ↔
      contents key ≠ some val ∧ maxEntrySize < key.length + val.length := by
  rw [stage_upsert]
  by_cases same : contents key = some val
  · simp [same, oversize]
  · rw [if_neg same, oversize, List.any_cons, List.any_nil, Bool.or_false, decide_eq_true_iff]
    exact (and_iff_right same).symm

theorem Fits.update (fits : Fits contents) {key val : Bytes} (room : key.length + val.length ≤ maxEntrySize) :
    Fits (Function.update contents key (some val)) := by
  intro other found shown
  by_cases same : other = key
  · subst same
    rw [Function.update_self, Option.some.injEq] at shown
    rwa [← shown]
  · rw [Function.update_of_ne same] at shown
    exact fits other found shown

/-- What staging one record comes to. -/
theorem stageRecord_spec (env : RestoreEnv) {fresh : KV} (holds : fresh.Holds options contents) (fits : Fits contents)
    (record : ℕ) (key val : Bytes) :
    if env.fails (.setEx record) then stageRecord options env (record, fresh) key val = .error .io
    else if maxEntrySize < key.length + val.length then
      stageRecord options env (record, fresh) key val = .error (.write (.commit .entryTooLarge))
    else ∃ next, stageRecord options env (record, fresh) key val = .ok (record + 1, next) ∧
      next.Holds options (Function.update contents key (some val)) ∧
      ∀ slot ∈ next.tables.slots, slot ∈ fresh.tables.slots ∨ slot.key = key := by
  by_cases failed : env.fails (.setEx record) = true
  · simp [stageRecord, failed]
  have running := holds.background (env.background.getD record [])
  obtain ⟨same, initial, journal, ready⟩ := running.awaitCommit
  have moved := List.Subset.trans running.slots_awaitCommit (holds.slots_background _)
  have valid : (TxWrite.set key val .upsert).valid = true := rfl
  obtain ⟨next, later, ran, after, done⟩ := ready.oneShot valid
  have brings (slot : KVSlot) := @KV.Ready.oneShot_slots _ _ _ _ ready _ valid slot
  rw [ran, same, stage_upsert] at brings
  rw [same] at ran after
  by_cases large : maxEntrySize < key.length + val.length
  · -- a pair of that size is not in the store yet
    have changes : contents key ≠ some val := fun there => absurd (fits key val there) (Nat.not_le.mpr large)
    have refused := (oversize_upsert contents key val).mpr ⟨changes, large⟩
    rw [if_pos refused] at ran
    rw [if_neg failed, if_pos large]
    simp only [stageRecord, failed, ran, Bool.false_eq_true, if_false]
  · have accepted : ¬oversize ((TxWrite.set key val .upsert).stage contents []).1 = true :=
      fun refused => large ((oversize_upsert contents key val).mp refused).2
    rw [if_neg accepted] at ran after
    rw [overlay_upsert] at after
    rw [if_neg failed, if_neg large]
    refine ⟨next, ?_, ⟨⟨_, _, done.toSound⟩, done.free, after⟩, fun slot member => ?_⟩
    · simp only [stageRecord, failed, ran, Bool.false_eq_true, if_false]
    · refine (brings _ member).imp (fun old => moved old) fun new => ?_
      split at new
      · contradiction
      · rw [List.mem_singleton.mp new]

/-- A store under construction. -/
def Staging (options : KVOptions) (state : ℕ × KV) : Prop :=
  ∃ contents, state.2.Holds options contents ∧ Fits contents

theorem Staging.stageRecord {state next : ℕ × KV} (staging : Staging options state) {key val : Bytes}
    (staged : stageRecord options env state key val = .ok next) : Staging options next := by
  obtain ⟨record, fresh⟩ := state
  obtain ⟨contents, holds, fits⟩ := staging
  have outcome := stageRecord_spec env holds fits record key val
  rw [staged] at outcome
  split at outcome
  · contradiction
  split at outcome
  · contradiction
  next large =>
    obtain ⟨_, same, after, -⟩ := outcome
    cases same
    exact ⟨_, after, fits.update (Nat.not_lt.mp large)⟩

/-- Whatever the stream holds, the files that are staged make a store. -/
theorem stage_holds {stream : Bytes} {files : StoreFiles} (staged : stage options env stream = .ok files) :
    ∃ contents, files.store.Holds options contents ∧ Fits contents := by
  simp only [stage, newKV_none] at staged
  repeat' (split at staged; · contradiction)
  next count fresh read _ =>
    cases staged
    have start : Staging options (0, FSM.fresh.store) := ⟨_, KV.holds_fresh, by simp [Fits]⟩
    obtain ⟨contents, holds, fits⟩ := readSnapshot_invariant _ (fun held staged => held.stageRecord staged) start read
    exact ⟨contents, (holds.background _).files_close, fits⟩

/-- The pairs of some slots put one after the other. -/
def putAll (contents : KVMap) (slots : KVRun) : KVMap :=
  slots.foldl (fun view slot => Function.update view slot.key (some (slot.val.getD []))) contents

theorem visitAll_stageRecord (quiet : ∀ call, env.fails call = false)
    (room : ∀ slot ∈ slots, slotSize slot ≤ maxEntrySize) {fresh : KV} (holds : fresh.Holds options contents)
    (fits : Fits contents) (record : ℕ) :
    ∃ final, visitAll (stageRecord options env) (record, fresh) slots = .ok (record + slots.length, final) ∧
      final.Holds options (putAll contents slots) ∧
      ∀ slot ∈ final.tables.slots, slot ∈ fresh.tables.slots ∨ slot.key ∈ slots.map Slot.key := by
  induction slots generalizing contents fresh record with
  | nil => exact ⟨fresh, rfl, holds, fun slot old => .inl old⟩
  | cons slot others ih =>
    simp only [List.forall_mem_cons] at room
    have small : slot.key.length + (slot.val.getD []).length ≤ maxEntrySize := room.1
    have outcome := stageRecord_spec env holds fits record slot.key (slot.val.getD [])
    rw [quiet, if_neg (by simp), if_neg (Nat.not_lt.mpr small)] at outcome
    obtain ⟨next, staged, after, first⟩ := outcome
    obtain ⟨final, visited, done, later⟩ := ih room.2 after (fits.update small) (record + 1)
    refine ⟨final, ?_, done, fun other member => ?_⟩
    · rw [visitAll, List.foldlM_cons, staged]
      exact visited.trans (by rw [List.length_cons, Nat.add_assoc, Nat.add_comm 1])
    · rw [List.map_cons, List.mem_cons]
      rcases later other member with old | new
      · exact (first other old).imp_right .inl
      · exact .inr (.inr new)

/-- The pairs of a map put into an empty store make the map again. -/
theorem putAll_lists {view : KVMap} (lists : Lists slots view) : putAll (fun _ => none) slots = view := by
  have found (run : KVRun) (increasing : Increasing run) (base : KVMap) (key : Bytes) :
      putAll base run key = match lookup run key with
        | some val => some (val.getD [])
        | none => base key := by
    induction run generalizing base with
    | nil => rfl
    | cons slot others ih =>
      obtain ⟨above, rest⟩ := increasing_cons.mp increasing
      rw [putAll, List.foldl_cons, ← putAll, ih rest, lookup_cons]
      by_cases same : slot.key = key
      · subst same
        have absent : lookup others slot.key = none := lookup_eq_none.mpr fun other member => (above other member).ne'
        simp [absent]
      · rw [if_neg same, Function.update_of_ne (Ne.symm same)]
  funext key
  rw [found slots lists.increasing, lists.lookup_eq]
  cases view key <;> rfl

/-- Staging the snapshot of some contents makes a store with these contents. -/
theorem stage_records (quiet : ∀ call, env.fails call = false) (lists : Lists slots contents) (fits : Fits contents)
    (writable : ∀ slot ∈ slots, Writable slot) (named : ∀ slot ∈ slots, slot.key ≠ []) :
    ∃ files, stage options env (snapshotStream (snapshotRecords slots)) = .ok files ∧
      files.store.Holds options contents ∧ ∀ file ∈ files.sstables, file.slots.length ≤ slots.length := by
  have room : ∀ slot ∈ slots, slotSize slot ≤ maxEntrySize := by
    rintro ⟨key, _ | val⟩ member
    · exact absurd (lists.live _ member) (by simp [Slot.live])
    · exact fits key val ((lists.mem_iff key val).mp member)
  obtain ⟨final, visited, holds, within⟩ := visitAll_stageRecord quiet room KV.holds_fresh (by simp [Fits]) 0
  rw [putAll_lists lists] at holds
  have read := readSnapshot_records (stageRecord options env) (0, FSM.fresh.store) writable named
  rw [visited] at read
  have running := holds.background (env.background.getD (0 + slots.length) [])
  refine ⟨_, ?_, running.files_close, fun file member => ?_⟩
  · simp [stage, quiet, read, Except.mapError]
  · obtain ⟨increasing, inside⟩ := running.sstables_close member
    rw [← slots.length_map Slot.key]
    refine increasing.length_le fun slot there => ?_
    rcases within slot (holds.slots_background _ (inside there)) with old | new
    · simp [Tables.mem_slots, FSM.fresh, KV.opened, KV.openAll] at old
    · exact new

end Stage

/-! ## What a restore comes to -/

/-- The swap is undone before the restored directory is in place. -/
def RestoreEnv.undone (env : RestoreEnv) : Bool := env.fails .stat || env.fails .stash || env.fails .install

/-- The ways in which `Restore` returns. -/
inductive Restored (options : KVOptions) (env : RestoreEnv) (fsm : FSM) (stream : Bytes) :
    FSM → Except RestoreError Unit → Prop where
  | unstaged (err : RestoreError) (failed : stage options env stream = .error err) :
      Restored options env fsm stream fsm (.error err)
  | busy (files : StoreFiles) (staged : stage options env stream = .ok files) (locked : env.busy = true) :
      Restored options env fsm stream fsm (.error .busy)
  | closed (files : StoreFiles) (staged : stage options env stream = .ok files) (free : env.busy = false)
      (done : fsm.closed = true) : Restored options env fsm stream fsm (.error .closed)
  | unclosed (files : StoreFiles) (staged : stage options env stream = .ok files) (free : env.busy = false)
      (opened : fsm.closed = false) (live : fsm.store.closed = false) (failed : env.fails .closeLive = true) :
      Restored options env fsm stream { fsm with store := fsm.store.close options } (.error .closeLive)
  | recovered (files : StoreFiles) (cause : RestoreError) (staged : stage options env stream = .ok files)
      (free : env.busy = false) (opened : fsm.closed = false)
      (closes : fsm.store.closed = true ∨ env.fails .closeLive = false) (undone : env.undone = true) :
      Restored options env fsm stream
        { fsm with store := (fsm.store.close options).files.store } (.error cause)
  | installed (files : StoreFiles) (staged : stage options env stream = .ok files) (free : env.busy = false)
      (opened : fsm.closed = false) (closes : fsm.store.closed = true ∨ env.fails .closeLive = false)
      (done : env.undone = false) :
      Restored options env fsm stream { fsm with store := files.store }
        (if env.fails .syncParent then .error .syncParent
          else if env.fails .removeBackup then .error .removeBackup else .ok ())

section Cases

variable {options : KVOptions} {env : RestoreEnv} {fsm next : FSM} {stream : Bytes} {files : StoreFiles}
  {result : Except RestoreError Unit}

/-- A swap that got past closing the live store. -/
private theorem restored_of_renames (staged : stage options env stream = .ok files) (free : env.busy = false)
    (opened : fsm.closed = false) (closes : fsm.store.closed = true ∨ env.fails .closeLive = false)
    (passed : ¬(!fsm.store.closed && env.fails .closeLive) = true)
    (returned : fsm.swapIn options env files = .ok (next, result)) : Restored options env fsm stream next result := by
  rw [FSM.swapIn] at returned
  rw [if_neg (by simp [opened]), if_neg passed] at returned
  have recovered {cause : RestoreError} {dirs : DataDirs} (undone : env.undone = true)
      (live : dirs.live = some (fsm.store.close options).files)
      (back : fsm.recover env dirs cause = .ok (next, result)) : Restored options env fsm stream next result := by
    rw [FSM.recover, live] at back
    split at back
    · contradiction
    · next reopened =>
      cases back
      rw [← (RestoreEnv.reopen_eq_some.mp reopened).2.1]
      exact .recovered files cause staged free opened closes undone
  cases stat : env.fails .stat with
  | true =>
    simp only [stashDir, stat, if_true] at returned
    exact recovered (by simp [RestoreEnv.undone, stat]) rfl returned
  | false =>
  cases stash : env.fails .stash with
  | true =>
    simp only [stashDir, stat, stash, Bool.false_eq_true, if_true, if_false] at returned
    exact recovered (by simp [RestoreEnv.undone, stash]) rfl returned
  | false =>
  simp only [stashDir, stat, stash, Bool.false_eq_true, if_false, Bool.not_true, Bool.true_and] at returned
  cases install : env.fails .install with
  | true =>
    simp only [install, if_true] at returned
    split at returned
    · contradiction
    · exact recovered (by simp [RestoreEnv.undone, install]) rfl returned
  | false =>
    simp only [install, Bool.false_eq_true, if_false] at returned
    have done : env.undone = false := by simp [RestoreEnv.undone, stat, stash, install]
    have whole := Restored.installed files staged free opened closes done
    split at returned
    · contradiction
    next reopened =>
    rw [← (RestoreEnv.reopen_eq_some.mp reopened).2.1] at returned
    split at returned
    · next sync =>
      cases returned
      rwa [if_pos sync] at whole
    · next sync =>
      rw [if_neg sync] at whole
      split at returned
      · next backup =>
        cases returned
        rwa [if_pos backup] at whole
      · next backup =>
        cases returned
        rwa [if_neg backup] at whole

theorem FSM.restore_cases (returned : fsm.restore options env stream = .ok (next, result)) :
    Restored options env fsm stream next result := by
  rw [restore] at returned
  cases staged : stage options env stream with
  | error err =>
    rw [staged] at returned
    cases returned
    exact .unstaged err staged
  | ok files =>
    simp only [staged] at returned
    cases busy : env.busy with
    | true =>
      rw [if_pos busy] at returned
      cases returned
      exact .busy files staged busy
    | false =>
      rw [if_neg (by simp [busy])] at returned
      cases closed : fsm.closed with
      | true =>
        rw [swapIn] at returned
        rw [if_pos closed] at returned
        cases returned
        exact .closed files staged busy closed
      | false =>
        by_cases unclosed : (!fsm.store.closed && env.fails .closeLive) = true
        · rw [swapIn] at returned
          rw [if_neg (by simp [closed]), if_pos unclosed] at returned
          cases returned
          simp only [Bool.and_eq_true, Bool.not_eq_true'] at unclosed
          exact .unclosed files staged busy closed unclosed.1 unclosed.2
        · refine restored_of_renames staged busy closed ?_ unclosed returned
          cases live : fsm.store.closed with
          | true => exact .inl rfl
          | false => exact .inr (by simpa [live] using unclosed)

/-- Without failures a snapshot that can be staged is installed. -/
theorem FSM.restore_quiet (quiet : ∀ call, env.fails call = false) (free : env.busy = false)
    (opened : fsm.closed = false) (staged : stage options env stream = .ok files)
    (few : ∀ file ∈ files.sstables, file.slots.length ≤ maxNKeys) :
    fsm.restore options env stream = .ok ({ fsm with store := files.store }, .ok ()) := by
  have reopened := RestoreEnv.reopen_eq_some.mpr ⟨quiet .reopen, rfl, few⟩
  simp [restore, staged, free, swapIn, opened, quiet, stashDir, reopened]

end Cases

/-! ## Reading through the state machine -/

inductive FSMReadError where
  | closed
  | tx (err : TXError)
deriving DecidableEq, Repr

/-- `FSM.Get`. -/
def FSM.get (fsm : FSM) (key : Bytes) : FSM × Except FSMReadError (Option Bytes) :=
  if fsm.closed then (fsm, .error .closed)
  else
    let (store, result) := fsm.store.read key
    ({ fsm with store := store }, result.mapError .tx)

/-- The store can be opened again from its files, and shows the same contents as long as it is open. -/
structure FSM.Live (options : KVOptions) (fsm : FSM) (contents : KVMap) : Prop where
  files : fsm.store.files.store.Holds options contents
  fits : Fits contents
  serves : fsm.store.closed = false → fsm.store.Holds options contents

namespace KV

/-- A store that is closed refuses every transaction. -/
theorem handle_newTX_closed {kv : KV} (closed : kv.closed = true) :
    (kv.newTX.handle kv.txs.length).err = some .kvClosed := by
  have begins : kv.newTX = { kv with txs := kv.txs ++ [⟨0, none, [], [], some .kvClosed⟩] } := by
    rw [KV.newTX, if_pos closed]
  have found : kv.newTX.txs[kv.txs.length]? = some ⟨0, none, [], [], some .kvClosed⟩ := by
    rw [begins]
    exact List.getElem?_concat_length
  rw [handle_eq found]

theorem read_closed {kv : KV} (closed : kv.closed = true) (key : Bytes) : (kv.read key).2 = .error .kvClosed := by
  rw [read, get, handle_newTX_closed closed]

theorem close_closed (options : KVOptions) (kv : KV) : (kv.close options).closed = true := by
  rw [close]
  split
  · assumption
  · rfl

end KV

namespace FSM

variable {options : KVOptions} {env : RestoreEnv} {fsm next : FSM} {stream : Bytes} {contents : KVMap}
  {result : Except RestoreError Unit}

theorem get_open (fsm : FSM) (opened : fsm.closed = false) {store : KV} (holds : store.Holds options contents)
    (key : Bytes) : (FSM.get { fsm with store := store } key).2 = .ok (contents key) := by
  rw [get, if_neg (by simp [opened])]
  change (store.read key).2.mapError _ = _
  rw [holds.read]
  rfl

theorem get_unserved (fsm : FSM) (opened : fsm.closed = false) {store : KV} (closed : store.closed = true)
    (key : Bytes) : (FSM.get { fsm with store := store } key).2 = .error (.tx .kvClosed) := by
  rw [get, if_neg (by simp [opened])]
  change (store.read key).2.mapError _ = _
  rw [KV.read_closed closed]
  rfl

theorem Live.ofFiles {files : StoreFiles} (holds : files.store.Holds options contents) (fits : Fits contents) :
    Live options { fsm with store := files.store } contents :=
  ⟨holds.files_store, fits, fun _ => holds⟩

theorem Live.files_close (live : Live options fsm contents) :
    (fsm.store.close options).files.store.Holds options contents := by
  cases closed : fsm.store.closed with
  | true =>
    rw [KV.close, if_pos closed]
    exact live.files
  | false => exact (live.serves closed).files_close

/-- After a restore the store is live again, with the old contents or with those of the snapshot. -/
theorem Live.restore (live : Live options fsm contents)
    (returned : fsm.restore options env stream = .ok (next, result)) : ∃ contents, Live options next contents := by
  cases restore_cases returned with
  | unstaged | busy | closed => exact ⟨contents, live⟩
  | unclosed files staged free opened served failed =>
    exact ⟨contents, live.files_close, live.fits, fun served => by simp [KV.close_closed] at served⟩
  | recovered files cause staged free opened closes undone =>
    exact ⟨contents, .ofFiles live.files_close live.fits⟩
  | installed files staged free opened closes done =>
    obtain ⟨restored, holds, fits⟩ := stage_holds staged
    exact ⟨restored, .ofFiles holds fits⟩

/-- A restore that reports an error and yet leaves what readers see. It stops before the live store is closed; or
that store is open, closing it reports no error, and the swap is undone or brings nothing new. -/
def Spares (options : KVOptions) (env : RestoreEnv) (fsm : FSM) (stream : Bytes) : Prop :=
  match stage options env stream with
  | .error _ => True
  | .ok restored => env.busy = true ∨ fsm.closed = true ∨
      fsm.store.closed = false ∧ env.fails .closeLive = false ∧
        (env.undone = true ∨ restored.store.tables.contents = fsm.contents)

/-- Reading a map through the state machine while it is not closed. -/
theorem Live.reads_iff (live : Live options fsm contents) (opened : fsm.closed = false) (view : KVMap) :
    (∀ key, .ok (view key) = (fsm.get key).2) ↔ fsm.store.closed = false ∧ view = contents := by
  cases served : fsm.store.closed with
  | true =>
    have unread (key : Bytes) : (fsm.get key).2 = .error (.tx .kvClosed) := get_unserved fsm opened served key
    simp [unread]
  | false =>
    have read (key : Bytes) : (fsm.get key).2 = .ok (contents key) := get_open fsm opened (live.serves served) key
    simp [read, funext_iff]

/-- What readers see after a failed restore. -/
theorem Live.failed_restore_iff (live : Live options fsm contents) {err : RestoreError}
    (returned : fsm.restore options env stream = .ok (next, .error err)) :
    (∀ key, (next.get key).2 = (fsm.get key).2) ↔ fsm.Spares options env stream := by
  rw [Spares]
  generalize Except.error err = outcome at returned
  cases restore_cases returned with
  | unstaged other failed => simp [failed]
  | busy files staged locked => simp [staged, locked]
  | closed files staged free done => simp [staged, done]
  | unclosed files staged free opened served failed =>
    have after (key : Bytes) : (FSM.get { fsm with store := fsm.store.close options } key).2 = .error (.tx .kvClosed) :=
      get_unserved fsm opened (KV.close_closed options fsm.store) key
    have before (key : Bytes) : (fsm.get key).2 = .ok (contents key) := get_open fsm opened (live.serves served) key
    simp only [after, before]
    simp [staged, free, opened, failed]
  | recovered files cause staged free opened closes undone =>
    have after (key : Bytes) : (FSM.get { fsm with store := (fsm.store.close options).files.store } key).2 =
        .ok (contents key) := get_open fsm opened live.files_close key
    simp only [after, live.reads_iff opened]
    simp only [staged, free, opened, undone]
    cases served : fsm.store.closed with
    | true => simp
    | false => simpa [served] using closes
  | installed files staged free opened closes done =>
    obtain ⟨restored, holds, -⟩ := stage_holds staged
    have after (key : Bytes) : (FSM.get { fsm with store := files.store } key).2 = .ok (restored key) :=
      get_open fsm opened holds key
    simp only [after, live.reads_iff opened]
    simp only [staged, free, opened, done, holds.shows]
    cases served : fsm.store.closed with
    | true => simp
    | false =>
      have kept : env.fails .closeLive = false := by simpa [served] using closes
      simp [kept, FSM.contents, (live.serves served).shows]

end FSM

end PallasDB
