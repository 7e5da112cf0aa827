import PallasDB.Db.Openable

/-! # Compactions that fail

Any call to a table, to a metadata slot or to the log may report an error in the middle of `Compact`, with or
without having taken effect. A flush that fails is rolled back and its table removed. That loses nothing as
long as the metadata on the disk do not name the table; metadata that reached their slot in a call that failed
do, and the store cannot be opened again. An error in `rewriteLog` comes after the table is named, and the log
shows then either the records that are in the table too or none.
-/

namespace PallasDB

open SortedRun WriteBack Transition VersionedMap Log

/-! ## Faults -/

/-- The call that reports an error: one of `CreateFromSorted`, whose file is removed whatever reached it; one of
`KVMetaStore.Set`, with its bytes in the slot or not; one of `rewriteLog`, with the operations on the log not
flushed before that took effect. -/
inductive CompactFault where
  | table
  | metadata (reached : Bool)
  | log (keep : List Bool)
deriving DecidableEq, Repr

namespace LogAction

def flushes : LogAction → Bool
  | .sync | .syncFloor | .syncShrink => true
  | _ => false

/-- The actions of `Log.writeHeader`. -/
def raises : LogAction → Bool
  | .writeFloor | .syncFloor => true
  | _ => false

/-- The actions of `Log.Truncate`. -/
def truncates : LogAction → Bool
  | .writeFloor | .syncFloor | .shrink | .syncShrink => true
  | _ => false

end LogAction

/-- The log after a call to its file has failed. Past `Truncate`, `rewriteLog` rewinds it. -/
def Log.fail (log next : Log) (action : LogAction) (keep : List Bool) : Log :=
  let file := if action.flushes then log.file else next.file
  let failed := { log with file := ⟨file.crash keep, []⟩ }
  if action.truncates then failed else failed.resetTX

/-- The slots without what was written to them and not flushed. -/
def KVMetaStore.revert (metas : KVMetaStore) : KVMetaStore :=
  ⟨{ metas.slot0 with pending := none }, { metas.slot1 with pending := none }⟩

namespace DurableKV

def removeTable (store : DurableKV) (kv : KV) (metas : KVMetaStore) (version : ℕ) : DurableKV :=
  { store with
    kv := kv
    metas := metas
    files := store.files.filter fun file => decide (file.version ≠ version)
    publishing := .idle }

/-- The cleanup after an error before the table is named: `unfreeze` after a flush, and the removal of the file. -/
def abandonTable (options : KVOptions) (store : DurableKV) (metas : KVMetaStore) : Option DurableKV := do
  let version ← store.kv.compaction.building
  let kv ← (store.kv.step options .flushFailed).or (store.kv.step options .mergeFailed)
  return store.removeTable kv metas version

/-- The return of `rewriteLog` with an error. -/
def abandonLog (store : DurableKV) (log : Log) : DurableKV :=
  { store with
    kv := { store.kv with log := slotsOf store.wal.ledger.held, compaction := .idle }
    wal := ⟨log, .idle, store.wal.ledger.abandon⟩ }

/-- The rest of `Compact` once a call has failed. -/
def fail (options : KVOptions) (store : DurableKV) : CompactFault → Option DurableKV
  | .table =>
      if store.publishing = .idle ∨ store.publishing = .created then store.abandonTable options store.metas else none
  | .metadata reached =>
      match store.publishing with
      | .synced =>
          (store.kv.nextMeta store.metas.get).bind fun data =>
            store.abandonTable options (if reached then store.metas.write data else store.metas)
      | .written => store.abandonTable options (if reached then store.metas else store.metas.revert)
      | _ => none
  | .log keep =>
      match store.kv.compaction, store.wal.call with
      | .installed, .running (action :: _) =>
          if store.wal.log.seq + 1 < 2 ^ 64 then
            match store.wal.log.act action with
            | .ok next => some (store.abandonLog (store.wal.log.fail next action keep))
            | .error _ => none
          else none
      | _, _ => none

/-- The disk after `Close`. -/
def close (store : DurableKV) : Disk :=
  ⟨store.wal.log.file.content, store.metas.slot0.crash true, store.metas.slot1.crash true, store.files⟩

/-- `Close` loses nothing of what was written. -/
def keepAll (store : DurableKV) : Crash := ⟨List.replicate store.wal.log.file.pending.length true, true, true⟩

theorem close_eq_crash (store : DurableKV) : store.close = store.crash store.keepAll := by
  rw [close, DurableKV.crash, keepAll, File.crash_replicate]

end DurableKV

/-- The steps that roll a flush or a merge back. -/
def KVEvent.undoes : KVEvent → Bool
  | .flushFailed | .mergeFailed => true
  | _ => false

/-- A compaction rolled back before its table is named. -/
inductive DurableKV.Undone (options : KVOptions) (store : DurableKV) (metas : KVMetaStore) : DurableKV → Prop where
  | mk (version : ℕ) (event : KVEvent) (kv : KV) (building : store.kv.compaction.building = some version)
      (undoes : event.undoes = true) (taken : store.kv.step options event = some kv) :
      Undone options store metas (store.removeTable kv metas version)

variable {metas : KVMetaStore}

theorem DurableKV.abandonTable_cases {options : KVOptions} {store target : DurableKV}
    (failed : store.abandonTable options metas = some target) : store.Undone options metas target := by
  simp only [abandonTable, Option.bind_eq_bind, Option.pure_def, Option.bind_eq_some_iff, Option.some.injEq] at failed
  obtain ⟨version, building, kv, undone, rfl⟩ := failed
  rcases Option.or_eq_some_iff.mp undone with taken | ⟨-, taken⟩
  · exact .mk version .flushFailed kv building rfl taken
  · exact .mk version .mergeFailed kv building rfl taken

inductive DurableKV.Fail (options : KVOptions) (store : DurableKV) : CompactFault → DurableKV → Prop where
  | table (target : DurableKV) (early : store.publishing = .idle ∨ store.publishing = .created)
      (undone : store.Undone options store.metas target) : Fail options store .table target
  | writeMeta (reached : Bool) (target : DurableKV) (data : KVMetaData) (synced : store.publishing = .synced)
      (next : store.kv.nextMeta store.metas.get = some data)
      (undone : store.Undone options (if reached then store.metas.write data else store.metas) target) :
      Fail options store (.metadata reached) target
  | syncMeta (reached : Bool) (target : DurableKV) (written : store.publishing = .written)
      (undone : store.Undone options (if reached then store.metas else store.metas.revert) target) :
      Fail options store (.metadata reached) target
  | log (keep : List Bool) (action : LogAction) (rest : List LogAction) (next : Log)
      (installed : store.kv.compaction = .installed) (running : store.wal.call = .running (action :: rest))
      (counted : store.wal.log.seq + 1 < 2 ^ 64) (acted : store.wal.log.act action = .ok next) :
      Fail options store (.log keep) (store.abandonLog (store.wal.log.fail next action keep))

variable {fault : CompactFault}

theorem DurableKV.fail_cases {options : KVOptions} {store target : DurableKV}
    (failed : store.fail options fault = some target) : store.Fail options fault target := by
  cases fault with
  | table =>
    rw [fail] at failed
    split at failed
    · next early => exact .table target early (abandonTable_cases failed)
    · contradiction
  | metadata reached =>
    rw [fail] at failed
    split at failed
    · next synced =>
      obtain ⟨data, next, undone⟩ := Option.bind_eq_some_iff.mp failed
      exact .writeMeta reached target data synced next (abandonTable_cases undone)
    · next written => exact .syncMeta reached target written (abandonTable_cases failed)
    · contradiction
  | log keep =>
    rw [fail] at failed
    split at failed
    · next action rest installed running =>
      split at failed
      · next counted =>
        split at failed
        · next next acted =>
          cases failed
          exact .log keep action rest next installed running counted acted
        · contradiction
      · contradiction
    · contradiction

/-! ## Rolling back -/

namespace KV

variable {options : KVOptions} {kv target : KV} {event : KVEvent}

/-- What rolling a compaction back leaves of the store proper. -/
theorem undo (sorted : SortedInv kv) (recover : RecoverInv options kv) (versions : VersionInv kv)
    (undoes : event.undoes = true) (taken : kv.step options event = some target) :
    RecoverInv options target ∧ VersionInv target ∧ Undisturbed { kv with compaction := target.compaction } target ∧
      target.compaction = .idle := by
  cases step_cases taken with
  | flushFailed version frozen dropTombstones flushing =>
    refine ⟨recover.flushFailed sorted flushing, versions.frame rfl rfl rfl (.inl rfl), ?_, rfl⟩
    exact undisturbed_compact rfl rfl rfl rfl rfl (by simp) rfl
  | mergeFailed version level old1 old2 dropTombstones merging =>
    have listed : ({ kv with compaction := .idle } : KV).listed options = kv.listed options := by
      simp [KV.listed, merging]
    refine ⟨recover.frame rfl rfl rfl listed (by simp) rfl, versions.frame rfl rfl rfl (.inl rfl), ?_, rfl⟩
    exact undisturbed_compact rfl rfl rfl rfl rfl (by simp) rfl
  | _ => simp [KVEvent.undoes] at undoes

theorem online_of_undoes (undoes : event.undoes = true) : event.online = true ∧ event.compacts = true := by
  cases event <;> first | exact ⟨rfl, rfl⟩ | simp [KVEvent.undoes] at undoes

end KV

theorem KVMetaStore.revert_write (settled : metas.Settled) (data : KVMetaData) : (metas.write data).revert = metas := by
  obtain ⟨⟨durable0, pending0⟩, ⟨durable1, pending1⟩⟩ := metas
  obtain ⟨rfl, rfl⟩ : pending0 = none ∧ pending1 = none := settled
  rw [write]
  split <;> rfl

namespace DurableInv

variable {options : KVOptions} {initial : KVMap} {store target : DurableKV} {journal : KVJournal}

theorem undone (inv : DurableInv options initial store journal) (settled : metas.Settled)
    (current : metas.get = store.kv.described) (undone : store.Undone options metas target) :
    DurableInv options initial target journal := by
  obtain ⟨version, event, kv, building, undoes, taken⟩ := undone
  obtain ⟨online, compacts⟩ := KV.online_of_undoes undoes
  obtain ⟨recover, versions, ⟨logging, publishing⟩, idle⟩ :=
    KV.undo inv.snapshots.sorted inv.recover inv.versions undoes taken
  have silent := @KV.observe_compacts store.kv event compacts
  have snapshots := inv.snapshots.step online taken
  have conflicts := inv.conflicts.step inv.snapshots online taken
  rw [silent, List.append_nil] at snapshots conflicts
  have described : kv.described = store.kv.described := by
    rw [KV.described, KV.described, publishing.metaVersion, publishing.sstables]
  obtain ⟨file, next, publishes⟩ := KV.publishes_of_building options building
  obtain rfl : version = file.version := Option.some.inj (building.symm.trans (KV.building_publishes publishes))
  obtain ⟨apart, -⟩ := inv.building_ne publishes
  have elsewhere : store.kv.compaction ≠ .installed := by
    intro installed
    rw [installed] at building
    contradiction
  rw [DurableKV.removeTable]
  refine ⟨snapshots, conflicts, recover, versions, ?_, .before _ (by simp) settled (current.trans described.symm), ?_⟩
  · exact inv.log.frame ⟨logging.log, logging.committing, fun installed => absurd installed elsewhere⟩
  · refine ⟨fun other member => ?_, fun busy => absurd rfl busy, fun _ _ _ busy => absurd rfl busy, ?_⟩
    · rw [publishing.sstables] at member
      rw [findTable_filter (fun version => decide (version ≠ file.version)) (by simpa using (apart other member).symm)]
      exact inv.files.named other member
    · rw [publishing.metaVersion, publishing.sstables]
      exact inv.files.retired

end DurableInv

/-! ## Errors of the log -/

variable {ledger : Ledger}

/-- An error while nothing is being written leaves one of the images a crash could leave. -/
theorem LogInv.settle {log : Log} (inv : LogInv log ledger) (quiet : ledger.written = []) {image : Bytes}
    (left : log.file.Leaves image) : LogInv { log with file := ⟨image, []⟩ } ledger := by
  have none : ledger.writtenEntries = [] := by rw [Ledger.writtenEntries, quiet]; rfl
  have same : log.offset = log.committed := by
    rw [inv.offset, none]
    rfl
  have front : image.take log.committed = header log.epoch ++ bytesOf ledger.held := by
    rw [left.take_eq inv.pending inv.reaches, inv.durable]
  refine { inv with durable := front, content := ?_, pending := by simp }
  rw [same, none, List.append_nil]
  exact front

/-- A header that is already there changes nothing. -/
theorem Log.write_header {image : Bytes} {epoch : ℕ} (there : image.take logHeaderSize = header epoch) :
    (Op.write 0 (header epoch)).apply image = image := by
  have whole : (Op.write 0 (header epoch)).apply image = header epoch ++ image.drop logHeaderSize := by
    simp [Op.apply, length_header]
  rw [whole, ← there, List.take_append_drop]

/-- The operations of a failed `Log.writeHeader` are lost, unless the file carries the new floor. -/
theorem LogInv.unraised {log : Log} (inv : LogInv log ledger) {image : Bytes}
    (left : (log.file.issue (.write 0 (header log.seq))).Leaves image)
    (kept : image.take logHeaderSize = header log.epoch) : log.file.Leaves image := by
  rcases File.leaves_issue left with lost | ⟨rest, before, rfl⟩
  · exact lost
  · have there : rest.take logHeaderSize = header log.epoch := by
      rw [inv.image_eq before]
      exact List.take_left' (length_header log.epoch)
    have new : (Op.write 0 (header log.seq)).apply rest = header log.seq ++ rest.drop logHeaderSize := by
      simp [Op.apply, length_header]
    rw [new, List.take_left' (length_header log.seq)] at kept
    rw [kept, write_header there]
    exact before

theorem Ledger.abandon_quiet (quiet : ledger.written = []) : ledger.abandon = ledger := by
  rw [Ledger.abandon, quiet, List.append_nil, ← quiet]

/-- An error after which the store is in order. What the metadata name must not have been removed, and the log
must neither carry a floor its cursor knows nothing of nor have lost live records. -/
def DurableKV.harmless (store : DurableKV) : CompactFault → Bool
  | .table => true
  | .metadata reached => !reached
  | .log keep =>
      match store.wal.call with
      | .running (action :: _) =>
          match store.wal.log.act action with
          | .ok next =>
              action.truncates && (action.raises || decide (store.kv.tables.mem = [])) &&
                decide ((store.wal.log.fail next action keep).file.durable.take logHeaderSize =
                  header store.wal.log.epoch)
          | .error _ => false
      | _ => false

variable {keep : List Bool}

section FailLog

variable {base : List KVSlot} {wal : Wal} {action : LogAction} {rest : List LogAction} {next : Log}

theorem Wal.Updating.not_truncates (updating : wal.Updating base) (running : wal.call = .running (action :: rest)) :
    action.truncates = false := by
  cases updating with
  | writing slots call =>
    rw [call] at running
    cases slots <;> cases running <;> rfl
  | committing call =>
    rw [call] at running
    cases running
    rfl
  | committed call => simp [call] at running
  | refused err call => simp [call] at running

/-- A call of `Truncate` is under way. -/
theorem Wal.Rewriting.truncates (rewriting : wal.Rewriting base) (running : wal.call = .running (action :: rest))
    (truncates : action.truncates = true) : wal.ledger.written = [] := by
  cases rewriting with
  | before _ _ quiet | raising _ _ _ _ quiet | raised _ _ quiet | shrunk _ _ quiet => exact quiet
  | copying updating => simp [updating.not_truncates running] at truncates

/-- What an error in `Truncate` leaves of the log: the records it held, or none once the floor is raised. -/
theorem Wal.Rewriting.fail (rewriting : wal.Rewriting base) (running : wal.call = .running (action :: rest))
    (acted : wal.log.act action = .ok next) (truncates : action.truncates = true)
    (floor : (wal.log.fail next action keep).file.durable.take logHeaderSize = header wal.log.epoch) :
    LogInv (wal.log.fail next action keep) wal.ledger ∧
      slotsOf wal.ledger.held = if action.raises then base else [] := by
  cases rewriting with
  | before call inv quiet held =>
    obtain ⟨rfl, -⟩ : action = .writeFloor ∧ rest = _ := by simpa [call, rewriteLog, eq_comm] using running
    obtain rfl := Except.ok.inj acted
    exact ⟨inv.settle quiet (inv.unraised (File.leaves_crash _ keep) floor), held⟩
  | raising call source inv raised quiet held =>
    obtain ⟨rfl, -⟩ : action = .syncFloor ∧ rest = _ := by simpa [call, rewriteLog, eq_comm] using running
    obtain ⟨log, state, ledger⟩ := wal
    obtain rfl := Except.ok.inj raised
    exact ⟨inv.settle quiet (inv.unraised (File.leaves_crash _ keep) floor), held⟩
  | raised call inv quiet empty =>
    obtain ⟨rfl, -⟩ : action = .shrink ∧ rest = _ := by simpa [call, rewriteLog, eq_comm] using running
    have shrunk := inv.shrink empty quiet acted
    obtain rfl := Except.ok.inj acted
    exact ⟨shrunk.settle quiet (File.leaves_crash _ keep), by rw [empty]; rfl⟩
  | shrunk call inv quiet empty =>
    obtain ⟨rfl, -⟩ : action = .syncShrink ∧ rest = _ := by simpa [call, rewriteLog, eq_comm] using running
    exact ⟨inv.settle quiet (File.leaves_crash _ keep), by rw [empty]; rfl⟩
  | copying updating => simp [updating.not_truncates running] at truncates

end FailLog

variable {rest : List LogAction}

namespace DurableInv

variable {options : KVOptions} {initial : KVMap} {store target : DurableKV} {journal : KVJournal}

/-- While the log is rewritten no transaction is committing and no table is written. -/
theorem rewriting (inv : DurableInv options initial store journal) (installed : store.kv.compaction = .installed)
    (running : store.wal.call = .running rest) :
    store.wal.Rewriting store.kv.log ∧ store.wal.ledger.current = store.kv.tables.mem ∧ store.publishing = .idle := by
  have idle : store.publishing = .idle := by
    by_contra busy
    have building := inv.files.building busy
    rw [installed] at building
    contradiction
  cases inv.log with
  | idle call => simp [call] at running
  | updating id tx current => exact absurd current (KV.committing_ne_some (inv.recover.locked installed))
  | rewriting installed stage slots => exact ⟨stage, slots, idle⟩

theorem failLog (inv : DurableInv options initial store journal) {action : LogAction} {next : Log}
    (installed : store.kv.compaction = .installed) (running : store.wal.call = .running (action :: rest))
    (acted : store.wal.log.act action = .ok next) (truncates : action.truncates = true)
    (live : action.raises = true ∨ store.kv.tables.mem = [])
    (floor : (store.wal.log.fail next action keep).file.durable.take logHeaderSize = header store.wal.log.epoch) :
    DurableInv options initial (store.abandonLog (store.wal.log.fail next action keep)) journal := by
  obtain ⟨stage, slots, idle⟩ := inv.rewriting installed running
  have quiet := stage.truncates running truncates
  obtain ⟨log, held⟩ := stage.fail running acted truncates floor
  have taken : store.kv.step options (.rewriteLog (some (slotsOf store.wal.ledger.held))) =
      some { store.kv with log := slotsOf store.wal.ledger.held, compaction := .idle } := by
    rw [KV.step, installed]
  have snapshots := inv.snapshots.step rfl taken
  have conflicts := inv.conflicts.step inv.snapshots rfl taken
  rw [KV.observe_compacts rfl, List.append_nil] at snapshots conflicts
  have same : KV.SamePublishing store.kv { store.kv with log := slotsOf store.wal.ledger.held, compaction := .idle } :=
    ⟨rfl, rfl, fun building => by rw [installed] at building; contradiction⟩
  have listed : ({ store.kv with compaction := .idle } : KV).listed options = store.kv.listed options := by
    rw [KV.listed, KV.listed, installed]
  rw [DurableKV.abandonLog]
  refine ⟨snapshots, conflicts, ?_, inv.versions.frame rfl rfl rfl (.inl rfl), ?_, inv.metas.frame same, ?_⟩
  · by_cases raises : action.raises = true
    · rw [held, if_pos raises]
      exact inv.recover.frame rfl rfl rfl listed (by simp) rfl
    · have rewritten := inv.recover.rewriteLog inv.snapshots.sorted installed
      rw [held, if_neg raises, ← live.resolve_left raises]
      exact rewritten.frame rfl rfl rfl rfl (by simp) rfl
  · rw [Ledger.abandon_quiet quiet]
    exact .idle rfl log quiet rfl
  · exact ⟨inv.files.named, fun busy => absurd idle busy, fun _ _ _ busy => absurd idle busy, inv.files.retired⟩

/-- A harmless error leaves the store as it would be had the compaction not begun, or had it ended. -/
theorem fail (inv : DurableInv options initial store journal) (harmless : store.harmless fault = true)
    (failed : store.fail options fault = some target) : DurableInv options initial target journal := by
  cases DurableKV.fail_cases failed with
  | table target before undone =>
    obtain ⟨settled, current⟩ := inv.metas.unwritten (by rcases before with same | same <;> simp [same])
    exact inv.undone settled current undone
  | writeMeta reached target data synced next undone =>
    obtain rfl : reached = false := by simpa [DurableKV.harmless] using harmless
    obtain ⟨settled, current⟩ := inv.metas.unwritten (by simp [synced])
    exact inv.undone settled current undone
  | syncMeta reached target written undone =>
    obtain rfl : reached = false := by simpa [DurableKV.harmless] using harmless
    obtain ⟨base, data, settled, current, -, wrote⟩ := inv.metas.unflushed written
    have reverted : store.metas.revert = base := by rw [wrote, KVMetaStore.revert_write settled]
    rw [reverted] at undone
    exact inv.undone settled current undone
  | log keep action rest next installed running counted acted =>
    simp only [DurableKV.harmless, running, acted, Bool.and_eq_true, Bool.or_eq_true, decide_eq_true_eq] at harmless
    obtain ⟨⟨truncates, live⟩, floor⟩ := harmless
    exact inv.failLog installed running acted truncates live floor

end DurableInv

variable {target : DurableKV}

/-- Until the first metadata are flushed, a compaction that is rolled back leaves no table file. -/
theorem DurableKV.unnamed_fail {options : KVOptions} {store : DurableKV}
    (known : store.metas.unnamed = true → store.Unnamed) (failed : store.fail options fault = some target)
    (unnamed : target.metas.unnamed = true) : target.Unnamed := by
  have rolledBack {metas : KVMetaStore} (same : metas.unnamed = store.metas.unnamed)
      (undone : store.Undone options metas target) : target.Unnamed := by
    obtain ⟨version, event, kv, building, undoes, taken⟩ := undone
    have before := known (same ▸ unnamed)
    have none : (store.files.filter fun file => decide (file.version ≠ version)) = [] := by
      refine List.filter_eq_nil_iff.mpr fun file member => ?_
      have same := Option.some.inj ((before.building file member).symm.trans building)
      simp [same]
    rw [removeTable]
    exact ⟨by simp, before.retired, ⟨fun _ => rfl, fun _ => none⟩,
      fun file member => absurd (none ▸ member) List.not_mem_nil⟩
  cases DurableKV.fail_cases failed with
  | table target early undone => exact rolledBack rfl undone
  | writeMeta reached target data synced next undone =>
    refine rolledBack ?_ undone
    cases reached
    · rfl
    · exact store.metas.unnamed_write data
  | syncMeta reached target written undone => exact rolledBack (by cases reached <;> rfl) undone
  | log keep action rest next installed running counted acted =>
    have before := known unnamed
    refine { before with building := fun file member => ?_ }
    have building := before.building file member
    rw [installed] at building
    contradiction

theorem DurableKV.Intact.fail {options : KVOptions} {initial : KVMap} {store : DurableKV}
    (intact : store.Intact options initial) (harmless : store.harmless fault = true)
    (failed : store.fail options fault = some target) : target.Intact options initial := by
  obtain ⟨⟨journal, inv⟩, known⟩ := intact
  exact ⟨⟨_, inv.fail harmless failed⟩, unnamed_fail known failed⟩

/-! ## Compacting alone -/

/-- The memtable has been frozen and not been replaced in the log yet. -/
def Compaction.flushes : Compaction → Bool
  | .flushing _ _ _ | .published _ _ _ | .installed => true
  | _ => false

def KVEvent.begins : KVEvent → Bool
  | .beginCommit _ => true
  | _ => false

def DurableEvent.begins : DurableEvent → Bool
  | .kv event => event.begins
  | _ => false

/-- No transaction is committing, so nothing has reached the live memtable since the flush began. -/
structure KV.Alone (shown : KVMap) (kv : KV) : Prop where
  free : kv.commit = none
  contents : kv.tables.contents = shown
  frozen : kv.compaction.flushes = true → kv.tables.mem = []

section Alone

variable {options : KVOptions} {initial shown : KVMap} {journal : KVJournal} {store : DurableKV}

theorem KV.Alone.frame {kv target : KV} (alone : kv.Alone shown) (commit : target.commit = kv.commit)
    (contents : target.tables.contents = kv.tables.contents)
    (frozen : target.compaction.flushes = true → target.tables.mem = []) : target.Alone shown :=
  ⟨commit.trans alone.free, contents.trans alone.contents, frozen⟩

theorem KV.Alone.step {kv target : KV} {event : KVEvent} (alone : kv.Alone shown) (sorted : SortedInv kv)
    (quiet : event.begins = false) (steady : event.steady = true) (taken : kv.step options event = some target) :
    target.Alone shown := by
  have shows (compacts : event.compacts = true) := (sorted.compact_frame compacts taken).2.2
  by_cases client : event.client = true
  · obtain ⟨txs, ongoing, history, rfl, -⟩ := client_cases client taken
    exact alone.frame rfl rfl alone.frozen
  cases step_cases taken with
  | newTX | newInnerTX | setEx | del | abort | abortInner | commitInner => simp [KVEvent.client] at client
  | compactClosed => exact alone
  | commitFinished | beginCommit => simp [KVEvent.begins] at quiet
  | checkCommit _ _ _ current | writeLog _ _ _ _ _ current | applyCommit _ _ current | endCommit _ _ _ current =>
    exact absurd current (committing_ne_some alone.free)
  | startCompact | skipFlush | rewriteLog | skipMerge | pickMerge =>
    exact alone.frame rfl rfl (by simp [Compaction.flushes])
  | flush => exact alone.frame rfl (shows rfl) fun _ => rfl
  | publish version frozen dropTombstones flushing =>
    exact alone.frame rfl rfl fun _ => alone.frozen (by rw [flushing]; rfl)
  | install version frozen dropTombstones published =>
    exact alone.frame rfl (shows rfl) fun _ => alone.frozen (by rw [published]; rfl)
  | installMerge => exact alone.frame rfl (shows rfl) (by simp [Compaction.flushes])
  | flushFailed | rewriteFailed | mergeFailed | closeAgain | beginClose | endClose | openStore =>
    simp [KVEvent.steady] at steady

/-- A store that compacts alone writes nothing to the log but truncates it. -/
structure DurableKV.Alone (shown : KVMap) (store : DurableKV) : Prop where
  kv : store.kv.Alone shown
  calls : ∀ rest, store.wal.call = .running rest → ∀ action ∈ rest, action.truncates = true

theorem DurableKV.Alone.step {event : DurableEvent} (alone : store.Alone shown) (sorted : KV.SortedInv store.kv)
    (quiet : event.begins = false) (taken : store.step options event = some target) : target.Alone shown := by
  cases event with
  | kv event =>
    cases DurableKV.stepKV_cases taken with
    | inMemory kv memory moved =>
      have steady : event.steady = true := by
        cases event <;> first | rfl | exact memory | simp [KV.inMemory] at memory
      exact ⟨alone.kv.step sorted quiet steady moved, alone.calls⟩
    | logged kv result writes returned moved =>
      have steady : event.steady = true := by rcases writes with rfl | rfl <;> rfl
      exact ⟨alone.kv.step sorted quiet steady moved, by simp⟩
    | published kv publishes named moved =>
      have steady : event.steady = true := by rcases publishes with rfl | rfl <;> rfl
      exact ⟨alone.kv.step sorted quiet steady moved, alone.calls⟩
  | startLog =>
    obtain ⟨wal, started, rfl⟩ := Option.map_eq_some_iff.mp taken
    refine ⟨alone.kv, ?_⟩
    rw [startLog] at started
    split at started
    · split at started
      · next id tx current => exact absurd current (KV.committing_ne_some alone.kv.free)
      · split at started
        · next installed =>
          rw [alone.kv.frozen (by rw [installed]; rfl), Wal.start] at started
          split at started
          · contradiction
          · cases started
            simp [rewriteLog, LogAction.truncates]
        · contradiction
    · contradiction
  | log =>
    obtain ⟨wal, moved, rfl⟩ := Option.map_eq_some_iff.mp taken
    refine ⟨alone.kv, fun rest call action member => ?_⟩
    obtain ⟨first, after, running, counted, ⟨log, acted, rfl⟩ | ⟨err, failed, rfl⟩⟩ := Wal.next_cases moved
    · split at call
      · contradiction
      · cases call
        exact alone.calls _ running action (List.mem_cons_of_mem _ member)
    · contradiction
  | createTable | syncTable | writeMeta =>
    rw [DurableKV.step] at taken
    split at taken
    · obtain ⟨_, -, rfl⟩ := Option.map_eq_some_iff.mp taken
      exact ⟨alone.kv, alone.calls⟩
    · contradiction
  | syncMeta | unlink =>
    rw [DurableKV.step] at taken
    split at taken
    · cases taken
      exact ⟨alone.kv, alone.calls⟩
    · contradiction

theorem DurableInv.quiet (inv : DurableInv options initial store journal) (idle : store.kv.compaction = .idle)
    (free : store.kv.commit = none) : store.wal.call = .idle ∧ store.wal.ledger.written = [] := by
  cases inv.log with
  | idle call inv quiet => exact ⟨call, quiet⟩
  | updating id tx current => exact absurd current (KV.committing_ne_some free)
  | rewriting installed => simp [idle] at installed

theorem DurableInv.alone (inv : DurableInv options initial store journal) (idle : store.kv.compaction = .idle)
    (free : store.kv.commit = none) : store.Alone store.kv.tables.contents := by
  refine ⟨⟨free, rfl, by simp [idle, Compaction.flushes]⟩, fun rest running => ?_⟩
  rw [(inv.quiet idle free).1] at running
  contradiction

/-- Rolling back shows what was shown before. -/
theorem DurableKV.Alone.undone (alone : store.Alone shown) (sorted : KV.SortedInv store.kv)
    (undone : store.Undone options metas target) :
    target.kv.Alone shown ∧ target.kv.compaction = .idle ∧ target.publishing = .idle ∧ target.wal = store.wal := by
  obtain ⟨version, event, kv, building, undoes, taken⟩ := undone
  have shows := (sorted.compact_frame (KV.online_of_undoes undoes).2 taken).2.2
  rw [removeTable]
  cases KV.step_cases taken with
  | flushFailed | mergeFailed => exact ⟨alone.kv.frame rfl shows (by simp [Compaction.flushes]), rfl, rfl, rfl⟩
  | _ => simp [KVEvent.undoes] at undoes

end Alone

/-! ## Closing and opening -/

section Reopen

variable {options : KVOptions} {initial shown : KVMap} {store : DurableKV} {journal : KVJournal}

/-- Without a transaction under way, a store that could be opened after a crash shows what it showed before. -/
theorem DurableKV.Intact.reopens (intact : store.Intact options initial) (alone : store.kv.Alone shown)
    (settled : store.publishing = .idle) (quiet : store.wal.ledger.written = []) {crash : Crash}
    (holds : Replays store.wal.ledger.puts (store.crash crash).log)
    (few : ∀ file ∈ (store.crash crash).named, file.slots.length ≤ maxNKeys) :
    ∃ reopened, (store.crash crash).openAll = .ok reopened ∧ reopened.kv.tables.contents = shown := by
  have later : store.firstFlush = false := by simp [DurableKV.firstFlush, settled]
  have sheltered : store.exposed = false := by
    rw [DurableKV.exposed]
    split
    · next installed running => simp [alone.frozen (by rw [installed]; rfl)]
    · rfl
  have apart : store.wal.apart = true := by simp [Wal.apart, Ledger.apart, quiet]
  obtain ⟨reopened, opens⟩ := (intact.opens_iff crash).mpr ⟨fun first => absurd first (by simp [later]), few⟩
  obtain ⟨journal, inv⟩ := intact.described
  refine ⟨reopened, opens, ?_⟩
  rcases inv.recovers sheltered apart holds opens with same | ⟨id, updates, ⟨tx, phase, current, -⟩, -⟩
  · rw [same, ← inv.snapshots.contents, alone.contents]
  · exact absurd current (KV.committing_ne_some alone.free)

/-- An error in `Truncate` leaves what a crash could leave there. -/
theorem DurableKV.Intact.reopens_log (intact : store.Intact options initial) (alone : store.Alone shown)
    {action : LogAction} {next : Log} (installed : store.kv.compaction = .installed)
    (running : store.wal.call = .running (action :: rest))
    (counted : store.wal.log.seq + 1 < 2 ^ 64) (acted : store.wal.log.act action = .ok next) {final : DurableKV}
    (wal : final.wal.log = store.wal.log.fail next action keep) (metas : final.metas = store.metas)
    (files : final.files = store.files) (holds : Replays store.wal.ledger.puts final.close.log)
    (few : ∀ file ∈ final.close.named, file.slots.length ≤ maxNKeys) :
    ∃ reopened, final.close.openAll = .ok reopened ∧ reopened.kv.tables.contents = shown := by
  have truncates := alone.calls _ running action (List.mem_cons_self ..)
  obtain ⟨journal, inv⟩ := intact.described
  obtain ⟨stage, -, settled⟩ := inv.rewriting installed running
  have quiet := stage.truncates running truncates
  by_cases flushes : action.flushes = true
  · have left : final.close = store.crash ⟨keep, true, true⟩ := by
      rw [DurableKV.close, DurableKV.crash, wal, metas, files, Log.fail, if_pos truncates, if_pos flushes]
      rfl
    rw [left] at holds few ⊢
    exact intact.reopens alone.kv settled quiet holds few
  · let moved : Wal := ⟨next, if rest = [] then .returned (.ok ()) else .running rest,
      store.wal.ledger.note store.wal.log action⟩
    have moves : store.wal.next = some moved := by
      rw [Wal.next, running]
      simp only [if_pos counted, acted, moved]
    have taken : store.step options .log = some { store with wal := moved } := by
      rw [DurableKV.step, moves]
      rfl
    have same : store.wal.ledger.note store.wal.log action = store.wal.ledger := by
      cases action <;> first | rfl | simp [LogAction.truncates, LogAction.flushes] at truncates flushes
    have left : final.close = DurableKV.crash { store with wal := moved } ⟨keep, true, true⟩ := by
      rw [DurableKV.close, DurableKV.crash, wal, metas, files, Log.fail, if_pos truncates, if_neg flushes]
      rfl
    rw [left] at holds few ⊢
    refine (intact.step taken).reopens alone.kv settled ?_ ?_ few
    · exact (congrArg Ledger.written same).trans quiet
    · show Replays (store.wal.ledger.note store.wal.log action).puts _
      rw [same]
      exact holds

theorem findTable_removed (files : List TableFile) (version : ℕ) :
    findTable (files.filter fun file => decide (file.version ≠ version)) version = .error (.missingTable version) := by
  have none : (files.filter fun file => decide (file.version ≠ version)).find?
      (fun file => decide (file.version = version)) = none := by
    simp [List.find?_eq_none]
  rw [findTable, none]
  rfl

theorem findTable_of_mapM {files : List TableFile} {versions : List ℕ} {main : List SortedFile}
    (found : versions.mapM (findTable files) = .ok main) {version : ℕ} (member : version ∈ versions) :
    ∃ file, findTable files version = .ok file := by
  have pairs := mapM_findTable found
  clear found
  induction pairs with
  | nil => contradiction
  | cons first _ ih =>
    rcases List.mem_cons.mp member with rfl | later
    · exact ⟨_, first⟩
    · exact ih later

theorem KV.mem_nextMeta {kv : KV} {data next : KVMetaData} (found : kv.nextMeta data = some next) :
    next.version ∈ next.sstables := by
  unfold KV.nextMeta at found
  split at found
  · cases found
    exact List.mem_cons_self ..
  · cases found
    simp
  · contradiction

/-- Metadata that reached their slot in a call that failed name a table that was removed. -/
theorem DurableInv.unopenable (inv : DurableInv options initial store journal) {final : DurableKV}
    (failed : store.fail options (.metadata true) = some final) (reopened : DurableKV) :
    final.close.openAll ≠ .ok reopened := by
  have missing {base : KVMetaStore} {data : KVMetaData} (settled : base.Settled)
    (current : base.get = store.kv.described)
      (next : store.kv.nextMeta base.get = some data) (undone : store.Undone options (base.write data) final) :
      final.close.openAll ≠ .ok reopened := by
    intro opens
    obtain ⟨version, event, kv, building, undoes, taken⟩ := undone
    have named := KV.nextMeta_building next
    obtain rfl : version = data.version := Option.some.inj (building.symm.trans named)
    have newer : base.get.version < data.version := by
      rw [current]
      exact (inv.versions.building _ building).2
    obtain ⟨wal, main, -, tables, -, -⟩ := Disk.openAll_ok opens
    have written : (store.removeTable kv (base.write data) data.version).close.metas.get = data :=
      (KVMetaStore.crash_write settled newer ⟨[], true, true⟩).trans (by rw [ite_self]; rfl)
    rw [written] at tables
    obtain ⟨file, found⟩ := findTable_of_mapM tables (KV.mem_nextMeta next)
    rw [DurableKV.close, DurableKV.removeTable, findTable_removed] at found
    contradiction
  cases DurableKV.fail_cases failed with
  | writeMeta reached target data synced next undone =>
    obtain ⟨settled, current⟩ := inv.metas.unwritten (by simp [synced])
    exact missing settled current next undone
  | syncMeta reached target written undone =>
    obtain ⟨base, data, settled, current, next, wrote⟩ := inv.metas.unflushed written
    rw [if_pos rfl, wrote] at undone
    exact missing settled current next undone

end Reopen

/-! ## Failed compactions -/

/-- Neither a compaction nor a commit is under way. -/
def KV.atRest (kv : KV) : Bool :=
  match kv.compaction, kv.commit with
  | .idle, none => true
  | _, _ => false

theorem KV.atRest_iff {kv : KV} : kv.atRest = true ↔ kv.compaction = .idle ∧ kv.commit = none := by
  rw [atRest]
  split <;> simp_all

inductive FaultyEvent where
  | disk (event : DurableEvent)
  | fail (fault : CompactFault)

namespace DurableKV

/-- A step of the store, or an error in a compaction. -/
def stepFaulty (options : KVOptions) (store : DurableKV) : FaultyEvent → Option DurableKV
  | .disk event => store.step options event
  | .fail fault => store.fail options fault

/-- No error so far has damaged the files. -/
def inOrder (store : DurableKV) : FaultyEvent → Bool
  | .disk _ => true
  | .fail fault => store.harmless fault

/-- A failed `Compact` on a store in order, with no transaction committing meanwhile, shows what it showed before
and does so again after `Close` and `Open`, unless metadata reached their slot in the call that failed or a table has
more keys than `Open` accepts. -/
theorem failed_compact_iff (options : KVOptions) (disk : Disk) (sound : disk.Sound) (start : DurableKV)
    (opened : disk.openAll = .ok start) (history : List FaultyEvent) (store : DurableKV)
    (reached : run? (stepFaulty options) start history = some store)
    (earlier : Meets (stepFaulty options) (fun store event => store.inOrder event = true) start history)
    (idle : store.kv.compaction = .idle) (free : store.kv.commit = none) (events : List DurableEvent)
    (quiet : ∀ event ∈ events, event.begins = false) (middle : DurableKV)
    (run : run? (step options) store events = some middle) (fault : CompactFault) (final : DurableKV)
    (failed : middle.fail options fault = some final) (genuine : Replays middle.wal.ledger.puts final.close.log) :
    (final.kv.tables.contents = store.kv.tables.contents ∧
      ∃ reopened, final.close.openAll = .ok reopened ∧ reopened.kv.tables.contents = store.kv.tables.contents) ↔
      fault ≠ .metadata true ∧ ∀ file ∈ final.close.named, file.slots.length ≤ maxNKeys := by
  have intact : store.Intact options start.kv.tables.contents := run?_invariant_of_meets _
    (fun {source event target} intact harmless taken => by
      cases event with
      | disk event => exact intact.step taken
      | fail fault => exact intact.fail harmless taken)
    (intact_openAll options sound opened) earlier reached
  obtain ⟨before, began⟩ := intact.described
  obtain ⟨intact, alone⟩ := run?_invariant_of_meets
    (fun middle => middle.Intact options start.kv.tables.contents ∧ middle.Alone store.kv.tables.contents)
    (fun {source event target} both quiet taken => by
      obtain ⟨intact, alone⟩ := both
      obtain ⟨journal, inv⟩ := intact.described
      exact ⟨intact.step taken, alone.step inv.snapshots.sorted quiet taken⟩)
    ⟨intact, began.alone idle free⟩ (meets_of_forall quiet store) run
  obtain ⟨journal, inv⟩ := intact.described
  have rolledBack {metas : KVMetaStore} (harmless : middle.harmless fault = true)
      (undone : middle.Undone options metas final) (few : ∀ file ∈ final.close.named, file.slots.length ≤ maxNKeys) :
      final.kv.tables.contents = store.kv.tables.contents ∧
        ∃ reopened, final.close.openAll = .ok reopened ∧ reopened.kv.tables.contents = store.kv.tables.contents := by
    obtain ⟨still, ended, settled, wal⟩ := alone.undone inv.snapshots.sorted undone
    have after := intact.fail harmless failed
    obtain ⟨_, described⟩ := after.described
    rw [close_eq_crash, ← wal] at genuine
    rw [close_eq_crash] at few ⊢
    exact ⟨still.contents, after.reopens still settled (described.quiet ended still.free).2 genuine few⟩
  constructor
  · rintro ⟨-, reopened, opens, -⟩
    refine ⟨?_, (final.close.openAll_iff.mp ⟨reopened, opens⟩).2.2.2⟩
    rintro rfl
    exact inv.unopenable failed reopened opens
  · rintro ⟨unreached, few⟩
    cases fail_cases failed with
    | table target early undone => exact rolledBack rfl undone few
    | writeMeta reached target data synced next undone =>
      exact rolledBack (by simpa [harmless] using unreached) undone few
    | syncMeta reached target written undone => exact rolledBack (by simpa [harmless] using unreached) undone few
    | log keep action rest next installed running counted acted =>
      exact ⟨alone.kv.contents, intact.reopens_log alone installed running counted acted rfl rfl rfl genuine few⟩

/-- One transaction has committed. -/
def putThenCompact : List FaultyEvent := (putOne 0 [1] [7]).map .disk

/-- The flush of the metadata in the slot is what comes next. -/
def flushToMeta : List DurableEvent := [.kv .startCompact, .kv .flush, .createTable, .syncTable, .writeMeta]

/-- The flush of the raised floor in the log is what comes next. -/
def flushToFloor : List DurableEvent := flushToMeta ++ [.syncMeta, .kv .publish, .kv .install, .startLog, .log]

theorem failed_compact_flushToFloor : ∃ store middle final,
    run? (stepFaulty .eager) fresh putThenCompact = some store ∧ run? (step .eager) store flushToFloor = some middle ∧
      middle.fail .eager (.log [true]) = some final ∧ final.kv.tables.contents = store.kv.tables.contents ∧
      ∃ reopened, final.close.openAll = .ok reopened ∧
        reopened.kv.tables.contents = store.kv.tables.contents := by
  have checked : ((run? (stepFaulty .eager) fresh putThenCompact).any fun store =>
      store.kv.atRest &&
        (run? (step .eager) store flushToFloor).any fun middle =>
          (middle.fail .eager (.log [true])).any fun final => genuine middle.wal.ledger.puts final.close.log &&
            decide (∀ file ∈ final.close.named, file.slots.length ≤ maxNKeys)) = true := by
    decide +kernel
  obtain ⟨store, reached, facts⟩ := (Option.any_eq_true _ _).mp checked
  rw [Bool.and_eq_true, KV.atRest_iff] at facts
  obtain ⟨⟨idle, free⟩, facts⟩ := facts
  obtain ⟨middle, run, facts⟩ := (Option.any_eq_true _ _).mp facts
  obtain ⟨final, failed, facts⟩ := (Option.any_eq_true _ _).mp facts
  rw [Bool.and_eq_true, decide_eq_true_eq] at facts
  have kept := (failed_compact_iff .eager emptyDisk sound_emptyDisk fresh openAll_emptyDisk putThenCompact store reached
    (by decide +kernel) idle free flushToFloor (by decide) middle run (.log [true]) final failed
    (genuine_iff.mp facts.1).replays).mpr ⟨by simp, facts.2⟩
  exact ⟨store, middle, final, reached, run, failed, kept⟩

/-- The flush of the metadata reports an error although they are in the slot: the table they name is removed, and
the store cannot be opened any more. -/
theorem flushToMeta_unopenable : ∃ store middle final,
    run? (stepFaulty .eager) fresh putThenCompact = some store ∧ store.kv.compaction = .idle ∧ store.kv.commit = none ∧
      run? (step .eager) store flushToMeta = some middle ∧ middle.fail .eager (.metadata true) = some final ∧
      final.close.openAll = .error (.missingTable 1) := by
  have checked : ((run? (stepFaulty .eager) fresh putThenCompact).any fun store =>
      store.kv.atRest &&
        (run? (step .eager) store flushToMeta).any fun middle =>
          (middle.fail .eager (.metadata true)).any fun final =>
            decide (openError? final.close.openAll = some (.missingTable 1))) = true := by
    decide +kernel
  obtain ⟨store, reached, facts⟩ := (Option.any_eq_true _ _).mp checked
  rw [Bool.and_eq_true, KV.atRest_iff] at facts
  obtain ⟨⟨idle, free⟩, facts⟩ := facts
  obtain ⟨middle, run, facts⟩ := (Option.any_eq_true _ _).mp facts
  obtain ⟨final, failed, fails⟩ := (Option.any_eq_true _ _).mp facts
  exact ⟨store, middle, final, reached, idle, free, run, failed, openError?_eq_some.mp (of_decide_eq_true fails)⟩

end DurableKV

end PallasDB
