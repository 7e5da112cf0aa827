import PallasDB.Db.DurableKV

/-! # Acknowledged writes survive a crash

The log of the store, the metadata and the table files always hold enough to rebuild what was acknowledged,
with at most the transaction in flight on top, as long as the crash does not fall into the window in which
a flush rewrites the log around a live memtable that is not empty.
-/

namespace PallasDB

open SortedRun WriteBack Transition VersionedMap Log

/-! ## Table files -/

section Files

variable {files : List TableFile} {version other : ℕ}

theorem findTable_cons_self (file : SortedFile) : findTable (⟨version, some file⟩ :: files) version = .ok file := by
  simp [findTable]

theorem findTable_cons_ne (content : Option SortedFile) (distinct : version ≠ other) :
    findTable (⟨version, content⟩ :: files) other = findTable files other := by
  simp [findTable, distinct]

theorem findTable_filter (keep : ℕ → Bool) (kept : keep version = true) :
    findTable (files.filter fun file => keep file.version) version = findTable files version := by
  have same : (files.filter fun file => keep file.version).find? (fun file => decide (file.version = version)) =
      files.find? fun file => decide (file.version = version) := by
    rw [List.find?_filter]
    congr 1
    funext file
    by_cases named : file.version = version <;> simp [named, kept]
  rw [findTable, findTable, same]

end Files

/-- The version of the table a flush or a merge is writing. -/
def Compaction.building : Compaction → Option ℕ
  | .flushing version _ _ => some version
  | .merging version _ _ _ _ => some version
  | _ => none

variable {file : SortedFile}

namespace KV

section Steps

variable {options : KVOptions} {kv target : KV} {event : KVEvent}

theorem building_publishes {next : List SortedFile} (publishes : kv.publishes options = some (file, next)) :
    kv.compaction.building = some file.version := by
  unfold KV.publishes at publishes
  split at publishes
  · next version frozen dropTombstones flushing =>
    cases publishes
    rw [flushing]
    cases dropTombstones <;> rfl
  · next version level old1 old2 dropTombstones merging =>
    cases publishes
    rw [merging]
    cases dropTombstones <;> rfl
  · contradiction

/-- Names of tables are handed out in increasing order. -/
structure VersionInv (kv : KV) : Prop where
  tables : ∀ file ∈ kv.sstables, file.version ≤ kv.metaVersion
  distinct : (kv.sstables.map SortedFile.version).Nodup
  latest : kv.metaVersion ≤ kv.version
  building : ∀ version, kv.compaction.building = some version → version = kv.version ∧ kv.metaVersion < version

theorem VersionInv.frame (inv : VersionInv kv) (sstables : target.sstables = kv.sstables)
    (metaVersion : target.metaVersion = kv.metaVersion) (version : target.version = kv.version)
    (building : target.compaction.building = none ∨ target.compaction = kv.compaction) : VersionInv target := by
  constructor
  · rw [sstables, metaVersion]
    exact inv.tables
  · rw [sstables]
    exact inv.distinct
  · rw [metaVersion, version]
    exact inv.latest
  · rw [metaVersion, version]
    rcases building with none | same
    · simp [none]
    · rw [same]
      exact inv.building

/-- A new table gets the latest version, which no other table has. -/
theorem VersionInv.publish (inv : VersionInv kv) {version : ℕ} (building : kv.compaction.building = some version)
    (front : List SortedFile) {back : List SortedFile} (named : file.version = version)
    (older : (front ++ back).Sublist kv.sstables) (sstables : target.sstables = front ++ file :: back)
    (metaVersion : target.metaVersion = version) (same : target.version = kv.version)
    (settled : target.compaction.building = none) : VersionInv target := by
  obtain ⟨latest, above⟩ := inv.building version building
  have small : ∀ other ∈ front ++ back, other.version < version := fun other member =>
    Nat.lt_of_le_of_lt (inv.tables other (older.subset member)) above
  constructor
  · rw [sstables, metaVersion]
    intro other member
    rcases List.mem_cons.mp (List.perm_middle.mem_iff.mp member) with rfl | old
    · exact Nat.le_of_eq named
    · exact Nat.le_of_lt (small other old)
  · rw [sstables, (List.perm_middle.map SortedFile.version).nodup_iff, List.map_cons, List.nodup_cons]
    refine ⟨fun member => ?_, inv.distinct.sublist (older.map SortedFile.version)⟩
    obtain ⟨other, old, equal⟩ := List.mem_map.mp member
    exact absurd (small other old) (by rw [equal, named]; exact Nat.lt_irrefl _)
  · rw [metaVersion, same, latest]
  · simp [settled]

theorem VersionInv.step (inv : VersionInv kv) (steady : event.steady = true)
    (taken : kv.step options event = some target) : VersionInv target := by
  by_cases client : event.client = true
  · obtain ⟨txs, ongoing, history, rfl, -⟩ := client_cases client taken
    exact inv.frame rfl rfl rfl (.inr rfl)
  cases step_cases taken with
  | newTX | newInnerTX | setEx | del | abort | abortInner | commitInner => simp [KVEvent.client] at client
  | commitFinished | compactClosed => exact inv
  | beginCommit | checkCommit | writeLog | applyCommit => exact inv.frame rfl rfl rfl (.inr rfl)
  | endCommit id tx result current =>
    rw [untrack]
    split <;> exact inv.frame rfl rfl rfl (.inr rfl)
  | startCompact | skipFlush | install | rewriteLog | skipMerge => exact inv.frame rfl rfl rfl (.inl rfl)
  | flush | pickMerge =>
    refine ⟨inv.tables, inv.distinct, Nat.le_succ_of_le inv.latest, fun version building => ?_⟩
    cases building
    exact ⟨rfl, Nat.lt_succ_of_le inv.latest⟩
  | publish version frozen dropTombstones flushing =>
    refine inv.publish (by rw [flushing]; rfl) [] ?_ (List.Sublist.refl _) rfl rfl rfl rfl
    cases dropTombstones <;> rfl
  | installMerge version level old1 old2 dropTombstones merging =>
    refine inv.publish (by rw [merging]; rfl) _ ?_ ?_ rfl rfl rfl rfl
    · cases dropTombstones <;> rfl
    · exact (List.drop_sublist_drop_left kv.sstables (Nat.le_add_right level 2)).append_left _ |>.trans
        (by rw [List.take_append_drop])
  | flushFailed | rewriteFailed | mergeFailed | closeAgain | beginClose | endClose | openStore =>
    simp [KVEvent.steady] at steady

/-- Steps of the store proper that stand for no call to the disk. -/
def inMemory : KVEvent → Bool
  | .writeLog _ | .rewriteLog _ | .publish | .installMerge => false
  | event => event.steady

/-- A step leaves alone what a call that writes the log works on. -/
structure SameLogging (kv target : KV) : Prop where
  log : target.log = kv.log
  committing : ∀ id tx, kv.committing = some (id, tx, .checked) → target.committing = some (id, tx, .checked)
  installed : kv.compaction = .installed → target.compaction = .installed ∧ target.tables.mem = kv.tables.mem

/-- A step leaves alone what a flush or merge publishes. -/
structure SamePublishing (kv target : KV) : Prop where
  metaVersion : target.metaVersion = kv.metaVersion
  sstables : target.sstables = kv.sstables
  building : kv.compaction.building.isSome → target.compaction = kv.compaction

def Undisturbed (kv target : KV) : Prop := SameLogging kv target ∧ SamePublishing kv target

theorem Undisturbed.refl (kv : KV) : Undisturbed kv kv :=
  ⟨⟨rfl, fun _ _ same => same, fun same => ⟨same, rfl⟩⟩, ⟨rfl, rfl, fun _ => rfl⟩⟩

/-- A step that touches transactions other than the committing one. -/
theorem undisturbed_txs (log : target.log = kv.log) (metaVersion : target.metaVersion = kv.metaVersion)
    (sstables : target.sstables = kv.sstables) (tables : target.tables = kv.tables)
    (compaction : target.compaction = kv.compaction) (commit : target.commit = kv.commit)
    (kept : ∀ (id : ℕ) (tx : KVTX), kv.busy id = true → kv.txs[id]? = some tx → target.txs[id]? = some tx) :
    Undisturbed kv target := by
  refine ⟨⟨log, fun id tx current => ?_, fun installed => ?_⟩, ⟨metaVersion, sstables, fun _ => compaction⟩⟩
  · obtain ⟨held, found⟩ := committing_eq_some.mp current
    exact committing_eq_some.mpr ⟨commit.trans held, kept id tx (by simp [busy, held]) found⟩
  · exact ⟨compaction.trans installed, by rw [tables]⟩

/-- A step of the commit outside the phase in which the log is written. -/
theorem undisturbed_commit (inv : RecoverInv options kv) (log : target.log = kv.log)
    (metaVersion : target.metaVersion = kv.metaVersion) (sstables : target.sstables = kv.sstables)
    (compaction : target.compaction = kv.compaction) {current : Committing} (held : kv.commit = some current)
    (other : current.phase ≠ .checked) : Undisturbed kv target := by
  refine ⟨⟨log, fun id tx checked => ?_, fun installed => absurd installed (inv.free held)⟩,
    ⟨metaVersion, sstables, fun _ => compaction⟩⟩
  have same := (committing_eq_some.mp checked).1
  rw [held] at same
  cases same
  exact absurd rfl other

/-- A step of a compaction that neither rewrites the log nor builds a table. -/
theorem undisturbed_compact (log : target.log = kv.log) (metaVersion : target.metaVersion = kv.metaVersion)
    (sstables : target.sstables = kv.sstables) (commit : target.commit = kv.commit) (txs : target.txs = kv.txs)
    (elsewhere : kv.compaction ≠ .installed) (nothing : kv.compaction.building = none) : Undisturbed kv target := by
  refine ⟨⟨log, fun id tx current => ?_, fun installed => absurd installed elsewhere⟩, ⟨metaVersion, sstables, ?_⟩⟩
  · rw [committing_eq_some, commit, txs, ← committing_eq_some]
    exact current
  · simp [nothing]

theorem undisturbed_step (inv : RecoverInv options kv) (memory : inMemory event = true)
    (taken : kv.step options event = some target) : Undisturbed kv target := by
  by_cases client : event.client = true
  · obtain ⟨txs, ongoing, history, rfl, kept⟩ := client_cases client taken
    exact undisturbed_txs rfl rfl rfl rfl rfl rfl kept
  cases step_cases taken with
  | newTX | newInnerTX | setEx | del | abort | abortInner | commitInner => simp [KVEvent.client] at client
  | commitFinished | compactClosed => exact .refl kv
  | beginCommit id tx found top live free noInstall =>
    refine ⟨⟨rfl, fun id tx checked => ?_, fun installed => absurd installed noInstall⟩, ⟨rfl, rfl, fun _ => rfl⟩⟩
    simp [committing_eq_some, free] at checked
  | checkCommit _ _ _ current | applyCommit _ _ current =>
    exact undisturbed_commit inv rfl rfl rfl rfl (committing_eq_some.mp current).1 (by simp)
  | endCommit id tx result current =>
    rw [untrack]
    split <;> exact undisturbed_commit inv rfl rfl rfl rfl (committing_eq_some.mp current).1 (by simp)
  | startCompact before | skipFlush _ before | flush _ before | install _ _ _ before | skipMerge before
  | pickMerge _ _ _ before =>
    exact undisturbed_compact rfl rfl rfl rfl rfl (by simp [before]) (by rw [before]; rfl)
  | _ => simp [inMemory, KVEvent.steady] at memory

end Steps

end KV

/-! ## The calls under way -/

/-- The log holds what the store takes it to hold, and the call under way is the one the store is waiting for. -/
inductive LogStage (kv : KV) (wal : Wal) : Prop where
  | idle (call : wal.call = .idle) (inv : LogInv wal.log wal.ledger) (quiet : wal.ledger.written = [])
      (held : slotsOf wal.ledger.held = kv.log)
  | updating (id : ℕ) (tx : KVTX) (current : kv.committing = some (id, tx, .checked))
      (stage : wal.Updating kv.log) (slots : wal.ledger.current = tx.updates)
  | rewriting (installed : kv.compaction = .installed) (stage : wal.Rewriting kv.log)
      (slots : wal.ledger.current = kv.tables.mem)

/-- The metadata that name the tables of the store. -/
def KV.described (kv : KV) : KVMetaData := ⟨kv.metaVersion, kv.sstables.map SortedFile.version⟩

def KVMetaStore.Settled (metas : KVMetaStore) : Prop := metas.slot0.pending = none ∧ metas.slot1.pending = none

/-- How far the metadata of the flush or merge under way have come. -/
inductive MetaStage (kv : KV) (metas : KVMetaStore) : Publishing → Prop where
  | before (publishing : Publishing) (early : publishing ≠ .written ∧ publishing ≠ .named) (settled : metas.Settled)
      (current : metas.get = kv.described) : MetaStage kv metas publishing
  | written (base : KVMetaStore) (settled : base.Settled) (current : base.get = kv.described) (data : KVMetaData)
      (next : kv.nextMeta base.get = some data) (wrote : metas = base.write data) : MetaStage kv metas .written
  | named (settled : metas.Settled) (next : kv.nextMeta kv.described = some metas.get) : MetaStage kv metas .named

/-- The files of all tables that are named, or are about to be, are complete. -/
structure FileStage (options : KVOptions) (store : DurableKV) : Prop where
  named : ∀ file ∈ store.kv.sstables, findTable store.files file.version = .ok file
  building : store.publishing ≠ .idle → store.kv.compaction.building.isSome
  complete : ∀ file next, store.kv.publishes options = some (file, next) → store.publishing ≠ .idle →
    store.publishing ≠ .created → findTable store.files file.version = .ok file
  retired : ∀ version ∈ store.retired, version ≤ store.kv.metaVersion ∧
    ∀ file ∈ store.kv.sstables, file.version ≠ version

structure DurableInv (options : KVOptions) (initial : KVMap) (store : DurableKV)
    (journal : KVJournal) : Prop where
  snapshots : KV.SnapshotInv initial store.kv journal
  conflicts : KV.ConflictInv store.kv journal
  recover : KV.RecoverInv options store.kv
  versions : KV.VersionInv store.kv
  log : LogStage store.kv store.wal
  metas : MetaStage store.kv store.metas store.publishing
  files : FileStage options store

section Metadata

variable {metas : KVMetaStore} {data : KVMetaData}

theorem KVMetaStore.current_write (metas : KVMetaStore) (data : KVMetaData) :
    (metas.write data).current = metas.current := by
  unfold write
  split <;> rfl

/-- The metadata found after a crash. -/
def KVMetaStore.crash (metas : KVMetaStore) (crash : Crash) : KVMetaStore :=
  ⟨⟨metas.slot0.crash crash.slot0, none⟩, ⟨metas.slot1.crash crash.slot1, none⟩⟩

theorem MetaSlot.crash_settled {slot : MetaSlot} (settled : slot.pending = none) (keep : Bool) :
    slot.crash keep = slot.durable := by
  cases keep <;> simp [crash, settled]

theorem KVMetaStore.crash_settled (settled : metas.Settled) (crash : Crash) : (metas.crash crash).get = metas.get := by
  have same : (metas.crash crash).slot0.data = metas.slot0.data ∧
    (metas.crash crash).slot1.data = metas.slot1.data := by
    simp [KVMetaStore.crash, MetaSlot.data, MetaSlot.crash_settled settled.1, MetaSlot.crash_settled settled.2]
  rw [get, get, current, current, same.1, same.2]

/-- A crash while metadata are written leaves the new ones if they have reached their slot, and the old ones if not. -/
theorem KVMetaStore.crash_write (settled : metas.Settled) (newer : metas.get.version < data.version) (crash : Crash) :
    ((metas.write data).crash crash).get =
      if (if metas.current then crash.slot1 else crash.slot0) then data else metas.get := by
  obtain ⟨⟨durable0, pending0⟩, ⟨durable1, pending1⟩⟩ := metas
  obtain ⟨rfl, rfl⟩ : pending0 = none ∧ pending1 = none := settled
  by_cases first : (durable1.getD ⟨0, []⟩).version < (durable0.getD ⟨0, []⟩).version
  · simp only [get, current, MetaSlot.data, first, decide_true, if_true] at newer
    cases kept : crash.slot1 <;>
      simp [write, current, get, KVMetaStore.crash, MetaSlot.crash, MetaSlot.write, MetaSlot.data, first, kept,
        newer.le]
  · simp only [get, current, MetaSlot.data, first, decide_false, Bool.false_eq_true, if_false] at newer
    cases kept : crash.slot0 <;>
      simp [write, current, get, KVMetaStore.crash, MetaSlot.crash, MetaSlot.write, MetaSlot.data, first, kept, newer]

theorem KVMetaStore.sync_write (settled : metas.Settled) (newer : metas.get.version < data.version) :
    (metas.write data).sync.Settled ∧ (metas.write data).sync.get = data := by
  have same : (metas.write data).sync = (metas.write data).crash ⟨[], true, true⟩ := by
    rw [sync, current_write, KVMetaStore.crash, write]
    obtain ⟨⟨durable0, pending0⟩, ⟨durable1, pending1⟩⟩ := metas
    obtain ⟨rfl, rfl⟩ : pending0 = none ∧ pending1 = none := settled
    cases current _ <;> rfl
  rw [same, crash_write settled newer, ite_self]
  exact ⟨⟨rfl, rfl⟩, rfl⟩

end Metadata

/-! ## Steps -/

variable {result : Except EntryError Unit}

section Stages

variable {options : KVOptions} {kv target : KV} {wal : Wal} {metas : KVMetaStore} {publishing : Publishing}
  {store : DurableKV}

theorem LogStage.frame (stage : LogStage kv wal) (same : KV.SameLogging kv target) : LogStage target wal := by
  cases stage with
  | idle call inv quiet held => exact .idle call inv quiet (held.trans same.log.symm)
  | updating id tx current stage slots => exact .updating id tx (same.committing id tx current) (same.log ▸ stage) slots
  | rewriting installed stage slots =>
    obtain ⟨still, mem⟩ := same.installed installed
    exact .rewriting still (same.log ▸ stage) (slots.trans mem.symm)

theorem KV.nextMeta_building {data next : KVMetaData} (found : kv.nextMeta data = some next) :
    kv.compaction.building = some next.version := by
  unfold KV.nextMeta at found
  split at found
  · next flushing => cases found; rw [flushing]; rfl
  · next merging => cases found; rw [merging]; rfl
  · contradiction

theorem MetaStage.unwritten (stage : MetaStage kv metas publishing)
    (early : publishing ≠ .written ∧ publishing ≠ .named) : metas.Settled ∧ metas.get = kv.described := by
  cases stage with
  | before _ _ settled current => exact ⟨settled, current⟩
  | written => exact absurd rfl early.1
  | named => exact absurd rfl early.2

theorem MetaStage.unflushed (stage : MetaStage kv metas publishing) (written : publishing = .written) :
    ∃ (base : KVMetaStore) (data : KVMetaData), base.Settled ∧ base.get = kv.described ∧
      kv.nextMeta base.get = some data ∧ metas = base.write data := by
  cases stage with
  | before _ early => exact absurd written early.1
  | written base settled current data next wrote => exact ⟨base, data, settled, current, next, wrote⟩
  | named => contradiction

theorem MetaStage.frame (stage : MetaStage kv metas publishing) (same : KV.SamePublishing kv target) :
    MetaStage target metas publishing := by
  have described : target.described = kv.described := by
    rw [KV.described, KV.described, same.metaVersion, same.sstables]
  have nextMeta {data next : KVMetaData} (found : kv.nextMeta data = some next) : target.nextMeta data = some next := by
    rw [KV.nextMeta, same.building (by rw [KV.nextMeta_building found]; rfl)]
    exact found
  cases stage with
  | before publishing early settled current => exact .before _ early settled (current.trans described.symm)
  | written base settled current data next wrote =>
    exact .written base settled (current.trans described.symm) data (nextMeta next) wrote
  | named settled next => exact .named settled (described ▸ nextMeta next)

theorem FileStage.frame (stage : FileStage options store) (same : KV.SamePublishing store.kv target) (wal : Wal) :
    FileStage options { store with kv := target, wal := wal } := by
  constructor
  · intro file member
    exact stage.named file (same.sstables ▸ member)
  · intro busy
    have building := stage.building busy
    rw [same.building building]
    exact building
  · intro file next found busy later
    have building := stage.building busy
    refine stage.complete file next ?_ busy later
    rw [KV.publishes, same.building building, same.sstables] at found
    exact found
  · intro version member
    obtain ⟨old, apart⟩ := stage.retired version member
    refine ⟨same.metaVersion ▸ old, fun file named => apart file (same.sstables ▸ named)⟩

/-- The new metadata describe the tables after the step. -/
theorem KV.nextMeta_described {next : List SortedFile} (found : kv.publishes options = some (file, next)) :
    kv.nextMeta kv.described = some ⟨file.version, next.map SortedFile.version⟩ := by
  have building := KV.building_publishes found
  unfold KV.publishes at found
  split at found
  · next version frozen dropTombstones flushing =>
    cases found
    rw [flushing] at building
    simp only [KV.nextMeta, flushing, KV.described, List.map_cons, ← Option.some.inj building]
  · next version level old1 old2 dropTombstones merging =>
    cases found
    rw [merging] at building
    simp only [KV.nextMeta, merging, KV.described, KV.replaceTables, List.map_append, List.map_cons, List.map_take,
      List.map_drop, ← Option.some.inj building]
  · contradiction

/-- The tables named next are the new one and old ones, without those a merge retires. -/
theorem KV.publishes_next (sorted : KV.SortedInv kv) (recover : KV.RecoverInv options kv) (versions : KV.VersionInv kv)
    {next : List SortedFile} (found : kv.publishes options = some (file, next)) :
    (∀ other ∈ next, other = file ∨ other ∈ kv.sstables ∧ other.version ∉ DurableKV.retires kv) ∧
      ∀ version ∈ DurableKV.retires kv, version ≤ kv.metaVersion := by
  unfold KV.publishes at found
  split at found
  · next version frozen dropTombstones flushing =>
    cases found
    have none : DurableKV.retires kv = [] := by rw [DurableKV.retires, flushing]
    rw [none]
    exact ⟨fun other member => (List.mem_cons.mp member).imp_right fun old => ⟨old, by simp⟩, by simp⟩
  · next version level old1 old2 dropTombstones merging =>
    cases found
    obtain ⟨-, first, second, -⟩ := sorted.phase.merging merging
    have listed : kv.sstables = kv.tables.main := by rw [recover.listed, KV.listed, merging]
    have split := Tables.split_pair (listed ▸ first) (listed ▸ second)
    have both : DurableKV.retires kv = [old1.version, old2.version] := by rw [DurableKV.retires, merging]
    have order : kv.sstables.Perm (old1 :: old2 :: (kv.sstables.take level ++ kv.sstables.drop (level + 2))) := by
      conv_lhs => rw [split]
      exact List.perm_middle.trans (List.perm_middle.cons _)
    have distinct := ((order.map SortedFile.version).nodup_iff).mp versions.distinct
    simp only [List.map_cons, List.nodup_cons, List.mem_cons, List.mem_map, not_or, not_exists, not_and] at distinct
    rw [both]
    refine ⟨fun other member => ?_, ?_⟩
    · rcases List.mem_cons.mp (List.perm_middle.mem_iff.mp member) with new | old
      · exact .inl new
      · refine .inr ⟨order.mem_iff.mpr (by simp [old]), ?_⟩
        simp only [List.mem_cons, List.not_mem_nil, or_false, not_or]
        exact ⟨distinct.1.2 other old, distinct.2.1 other old⟩
    · simp only [List.mem_cons, List.not_mem_nil, or_false, forall_eq_or_imp, forall_eq]
      exact ⟨versions.tables old1 (order.mem_iff.mpr (by simp)), versions.tables old2 (order.mem_iff.mpr (by simp))⟩
  · contradiction

/-- Publishing a complete table, by a flush or by a merge. -/
theorem FileStage.publish (stage : FileStage options store) (sorted : KV.SortedInv store.kv)
    (recover : KV.RecoverInv options store.kv) (versions : KV.VersionInv store.kv) (named : store.publishing = .named)
    {next : List SortedFile} (found : store.kv.publishes options = some (file, next))
    (sstables : target.sstables = next) (metaVersion : target.metaVersion = file.version) :
    FileStage options { store with
      kv := target, publishing := .idle, retired := DurableKV.retires store.kv ++ store.retired } := by
  obtain ⟨members, retires⟩ := KV.publishes_next sorted recover versions found
  have newer := (versions.building _ (KV.building_publishes found)).2
  constructor
  · intro other member
    rcases members other (sstables ▸ member) with rfl | ⟨old, -⟩
    · exact stage.complete other next found (by simp [named]) (by simp [named])
    · exact stage.named other old
  · simp
  · simp
  · intro version member
    have bound : version ≤ store.kv.metaVersion := by
      rcases List.mem_append.mp member with new | old
      · exact retires version new
      · exact (stage.retired version old).1
    refine ⟨?_, fun other inNext => ?_⟩
    · rw [metaVersion]
      exact Nat.le_of_lt (Nat.lt_of_le_of_lt bound newer)
    · rcases members other (sstables ▸ inNext) with rfl | ⟨old, kept⟩
      · exact (Nat.lt_of_le_of_lt bound newer).ne'
      · rcases List.mem_append.mp member with new | before
        · exact fun same => kept (same ▸ new)
        · exact (stage.retired version before).2 other old

/-- A call that writes the log is started for the transaction or the memtable the store holds. -/
theorem LogStage.start (stage : LogStage store.kv store.wal) (taken : store.startLog = some wal) :
    LogStage store.kv wal := by
  unfold DurableKV.startLog at taken
  split at taken
  · next idle =>
    cases stage with
    | updating id tx current stage slots => cases stage <;> simp_all
    | rewriting installed stage slots =>
      cases stage with
      | copying updating => cases updating <;> simp_all
      | _ => simp_all
    | idle call inv quiet held =>
      split at taken
      · next id tx current =>
        simp only [Wal.start, idle, Option.some.injEq] at taken
        subst taken
        have same : LogInv store.wal.log { store.wal.ledger with current := tx.updates } := { inv with }
        refine .updating id tx current (.writing tx.updates rfl same held ?_ ?_) rfl
        · simp [quiet]
        · simp [Ledger.writtenEntries, quiet, slotsOf]
      · split at taken
        · next installed =>
          simp only [Wal.start, idle, Option.some.injEq] at taken
          subst taken
          exact .rewriting installed (.before rfl { inv with } quiet held) rfl
        · contradiction
  · contradiction

theorem LogStage.next (recover : KV.RecoverInv options kv) (stage : LogStage kv wal) {moved : Wal}
    (taken : wal.next = some moved) : LogStage kv moved := by
  cases stage with
  | idle call =>
    obtain ⟨action, rest, running, -⟩ := Wal.next_cases taken
    rw [call] at running
    contradiction
  | updating id tx current stage slots =>
    obtain ⟨after, same⟩ := stage.next taken
    exact .updating id tx current after (same.trans slots)
  | rewriting installed stage slots =>
    have fits : ∀ slot ∈ wal.ledger.current, slotSize slot ≤ maxEntrySize := fun slot member =>
      (recover.known slot (List.mem_append_left _ (List.mem_append_left _ (slots ▸ member)))).1
    obtain ⟨after, same⟩ := stage.next fits taken
    exact .rewriting installed after (same.trans slots)

/-- When `updateLog` has returned, the log holds what the store makes of its result. -/
theorem LogStage.writeLog (recover : KV.RecoverInv options kv) (stage : LogStage kv wal) {id : ℕ} {tx : KVTX}
    (current : kv.committing = some (id, tx, .checked)) (returned : wal.call = .returned result) :
    LogStage (kv.writeLog id tx none) { wal with call := .idle } := by
  cases stage with
  | idle call => simp [call] at returned
  | rewriting installed => exact absurd current (KV.committing_ne_some (recover.locked installed))
  | updating other same checked stage slots =>
    obtain ⟨rfl, rfl⟩ : id = other ∧ tx = same := by simpa [current] using checked
    cases stage with
    | writing rest call => simp [call] at returned
    | committing call => simp [call] at returned
    | committed call inv quiet held fits =>
      have small : (tx.updates.any fun slot => decide (maxEntrySize < slotSize slot)) = false := by
        simpa [← slots] using fits
      simp only [KV.writeLog, small, Bool.false_eq_true, if_false]
      exact .idle rfl inv quiet (held.trans (by rw [slots]))
    | refused err call inv quiet held large =>
      have tooLarge : (tx.updates.any fun slot => decide (maxEntrySize < slotSize slot)) = true := by
        simpa [← slots] using large
      simp only [KV.writeLog, tooLarge, if_true]
      exact .idle rfl inv quiet held

/-- When `rewriteLog` has returned, the log holds the live memtable. -/
theorem LogStage.rewriteLog (recover : KV.RecoverInv options kv) (stage : LogStage kv wal)
    (installed : kv.compaction = .installed) (returned : wal.call = .returned result) :
    LogStage { kv with log := kv.tables.mem, compaction := .choosing } { wal with call := .idle } := by
  cases stage with
  | idle call => simp [call] at returned
  | updating id tx current => exact absurd current (KV.committing_ne_some (recover.locked installed))
  | rewriting _ stage slots =>
    cases stage with
    | before call | raising call | raised call | shrunk call => simp [call] at returned
    | copying updating accepted =>
      cases updating with
      | writing rest call => simp [call] at returned
      | committing call => simp [call] at returned
      | committed call inv quiet held => exact .idle rfl inv quiet (held.trans slots)
      | refused err call => exact absurd call (accepted err)

end Stages

/-- The three kinds of steps of the store proper. -/
inductive DurableKV.StepKV (options : KVOptions) (store : DurableKV) : KVEvent → DurableKV → Prop where
  | inMemory (event : KVEvent) (kv : KV) (memory : KV.inMemory event = true)
      (taken : store.kv.step options event = some kv) : StepKV options store event { store with kv := kv }
  | logged (event : KVEvent) (kv : KV) (result : Except EntryError Unit)
      (writes : event = .writeLog none ∨ event = .rewriteLog none) (returned : store.wal.call = .returned result)
      (taken : store.kv.step options event = some kv) :
      StepKV options store event { store with kv := kv, wal := { store.wal with call := .idle } }
  | published (event : KVEvent) (kv : KV) (publishes : event = .publish ∨ event = .installMerge)
      (named : store.publishing = .named) (taken : store.kv.step options event = some kv) :
      StepKV options store event
        { store with kv := kv, publishing := .idle, retired := retires store.kv ++ store.retired }

variable {event : KVEvent}

theorem DurableKV.stepKV_cases {options : KVOptions} {store target : DurableKV}
    (taken : store.stepKV options event = some target) : StepKV options store event target := by
  unfold stepKV at taken
  split at taken
  · split at taken
    · next result returned =>
      obtain ⟨kv, moved, rfl⟩ := Option.map_eq_some_iff.mp taken
      exact .logged _ kv result (.inl rfl) returned moved
    · contradiction
  · split at taken
    · next result returned =>
      obtain ⟨kv, moved, rfl⟩ := Option.map_eq_some_iff.mp taken
      exact .logged _ kv result (.inr rfl) returned moved
    · contradiction
  · split at taken
    · next named =>
      obtain ⟨kv, moved, rfl⟩ := Option.map_eq_some_iff.mp taken
      exact .published _ kv (.inl rfl) named moved
    · contradiction
  · split at taken
    · next named =>
      obtain ⟨kv, moved, rfl⟩ := Option.map_eq_some_iff.mp taken
      exact .published _ kv (.inr rfl) named moved
    · contradiction
  · next noWrite noRewrite noPublish noMerge =>
    split at taken
    · next steady =>
      obtain ⟨kv, moved, rfl⟩ := Option.map_eq_some_iff.mp taken
      refine .inMemory event kv ?_ moved
      cases event with
      | writeLog failed =>
        cases failed with
        | none => exact absurd rfl noWrite
        | some left => simp [KVEvent.steady] at steady
      | rewriteLog failed =>
        cases failed with
        | none => exact absurd rfl noRewrite
        | some left => simp [KVEvent.steady] at steady
      | publish => exact absurd rfl noPublish
      | installMerge => exact absurd rfl noMerge
      | _ => exact steady
    · contradiction

namespace DurableInv

variable {options : KVOptions} {initial : KVMap} {store target : DurableKV} {journal : KVJournal}

section

variable (inv : DurableInv options initial store journal)

include inv

/-- The part of the invariant that speaks of the store proper moves with its steps. -/
theorem moved (steady : event.steady = true) {kv : KV}
    (taken : store.kv.step options event = some kv) {wal : Wal} {publishing : Publishing} {retired : List ℕ}
    (log : LogStage kv wal) (metas : MetaStage kv store.metas publishing)
    (files : FileStage options { store with kv := kv, wal := wal, publishing := publishing, retired := retired }) :
    DurableInv options initial { store with kv := kv, wal := wal, publishing := publishing, retired := retired }
      (journal ++ store.kv.observe event) :=
  have online := KVEvent.online_of_steady steady
  { snapshots := inv.snapshots.step online taken
    conflicts := inv.conflicts.step inv.snapshots online taken
    recover := inv.recover.step inv.snapshots.sorted inv.conflicts steady taken
    versions := inv.versions.step steady taken
    log := log
    metas := metas
    files := files }

theorem stepKV (taken : store.stepKV options event = some target) :
    DurableInv options initial target (journal ++ store.kv.observe event) := by
  cases DurableKV.stepKV_cases taken with
  | inMemory kv memory moves =>
    obtain ⟨logging, publishing⟩ := KV.undisturbed_step inv.recover memory moves
    have steady : event.steady = true := by
      cases event <;> first | exact memory | simp [KV.inMemory] at memory
    exact inv.moved steady moves (inv.log.frame logging) (inv.metas.frame publishing)
      (inv.files.frame publishing store.wal)
  | logged kv result writes returned moves =>
    rcases writes with rfl | rfl
    · cases KV.step_cases moves with
      | writeLog id tx _ log phase current wrote =>
        have publishing : KV.SamePublishing store.kv { store.kv with log := log, commit := some ⟨id, phase⟩ } :=
          ⟨rfl, rfl, fun _ => rfl⟩
        exact inv.moved rfl moves (wrote ▸ inv.log.writeLog inv.recover current returned) (inv.metas.frame publishing)
          (inv.files.frame publishing _)
    · cases KV.step_cases moves with
      | rewriteLog installed =>
        have publishing : KV.SamePublishing store.kv
            { store.kv with log := store.kv.tables.mem, compaction := .choosing } :=
          ⟨rfl, rfl, by simp [installed, Compaction.building]⟩
        exact inv.moved rfl moves (inv.log.rewriteLog inv.recover installed returned) (inv.metas.frame publishing)
          (inv.files.frame publishing _)
  | published kv publishes named moves =>
    have steady : event.steady = true := by rcases publishes with rfl | rfl <;> rfl
    obtain ⟨file, next, found, sstables, metaVersion, logging⟩ :
        ∃ file next, store.kv.publishes options = some (file, next) ∧ kv.sstables = next ∧
          kv.metaVersion = file.version ∧ KV.SameLogging store.kv kv := by
      rcases publishes with rfl | rfl
      · cases KV.step_cases moves with
        | publish version frozen dropTombstones flushing =>
          refine ⟨_, _, by rw [KV.publishes, flushing], rfl, ?_, rfl, fun _ _ same => same, by simp [flushing]⟩
          cases dropTombstones <;> rfl
      · cases KV.step_cases moves with
        | installMerge version level old1 old2 dropTombstones merging =>
          refine ⟨_, _, by rw [KV.publishes, merging], rfl, ?_, rfl, fun _ _ same => same, by simp [merging]⟩
          cases dropTombstones <;> rfl
    have metas : MetaStage kv store.metas .idle := by
      have stage := inv.metas
      rw [named] at stage
      cases stage with
      | before _ early => exact absurd rfl early.2
      | named settled described =>
        refine .before _ (by simp) settled ?_
        rw [KV.nextMeta_described found] at described
        rw [KV.described, sstables, metaVersion]
        exact (Option.some.inj described).symm
    exact inv.moved steady moves (inv.log.frame logging) metas
      (inv.files.publish inv.snapshots.sorted inv.recover inv.versions named found sstables metaVersion)

/-- A step of a call to the disk leaves the store proper alone. -/
theorem onDisk {wal : Wal} {metas : KVMetaStore}
    {files : List TableFile} {publishing : Publishing} {retired : List ℕ} (log : LogStage store.kv wal)
    (metaStage : MetaStage store.kv metas publishing)
    (fileStage : FileStage options ⟨store.kv, wal, metas, files, publishing, retired⟩) :
    DurableInv options initial ⟨store.kv, wal, metas, files, publishing, retired⟩ (journal ++ []) := by
  rw [List.append_nil]
  exact ⟨inv.snapshots, inv.conflicts, inv.recover, inv.versions, log, metaStage, fileStage⟩

/-- No named table has the version of the table under way. -/
theorem building_ne {next : List SortedFile} (found : store.kv.publishes options = some (file, next)) :
    (∀ other ∈ store.kv.sstables, file.version ≠ other.version) ∧
    ∀ version ∈ store.retired, file.version ≠ version := by
  have newer := (inv.versions.building _ (KV.building_publishes found)).2
  refine ⟨fun other member same => ?_, fun version member same => ?_⟩
  · have old := inv.versions.tables other member
    omega
  · have old := (inv.files.retired version member).1
    omega

theorem createTable (idle : store.publishing = .idle)
    {next : List SortedFile} (found : store.kv.publishes options = some (file, next)) :
    DurableInv options initial
      { store with files := ⟨file.version, none⟩ :: store.files, publishing := .created } (journal ++ []) := by
  obtain ⟨apart, -⟩ := inv.building_ne found
  obtain ⟨settled, current⟩ := inv.metas.unwritten (by simp [idle])
  refine inv.onDisk inv.log (.before _ (by simp) settled current) ⟨fun other member => ?_, fun _ => ?_,
    fun _ _ _ _ late => absurd rfl late, inv.files.retired⟩
  · rw [findTable_cons_ne _ (apart other member)]
    exact inv.files.named other member
  · rw [KV.building_publishes found]
    rfl

theorem syncTable (created : store.publishing = .created)
    {next : List SortedFile} (found : store.kv.publishes options = some (file, next)) :
    DurableInv options initial { store with
      files := ⟨file.version, some file⟩ :: store.files.filter fun other => decide (other.version ≠ file.version)
      publishing := .synced } (journal ++ []) := by
  obtain ⟨apart, -⟩ := inv.building_ne found
  obtain ⟨settled, current⟩ := inv.metas.unwritten (by simp [created])
  refine inv.onDisk inv.log (.before _ (by simp) settled current) ⟨fun other member => ?_, fun _ => ?_,
    fun _ _ same _ _ => ?_, inv.files.retired⟩
  · rw [findTable_cons_ne _ (apart other member),
      findTable_filter (fun version => decide (version ≠ file.version)) (by simpa using (apart other member).symm)]
    exact inv.files.named other member
  · rw [KV.building_publishes found]
    rfl
  · rw [found] at same
    cases same
    exact findTable_cons_self file

theorem writeMeta (synced : store.publishing = .synced)
    {data : KVMetaData} (next : store.kv.nextMeta store.metas.get = some data) :
    DurableInv options initial { store with metas := store.metas.write data, publishing := .written }
    (journal ++ []) := by
  obtain ⟨settled, current⟩ := inv.metas.unwritten (by simp [synced])
  refine inv.onDisk inv.log (.written store.metas settled current data next rfl) ⟨inv.files.named, fun _ => ?_,
    fun file next found _ _ => ?_, inv.files.retired⟩
  · rw [KV.nextMeta_building next]
    rfl
  · exact inv.files.complete file next found (by simp [synced]) (by simp [synced])

theorem syncMeta (written : store.publishing = .written) :
    DurableInv options initial { store with metas := store.metas.sync, publishing := .named } (journal ++ []) := by
  obtain ⟨base, data, settled, current, next, wrote⟩ := inv.metas.unflushed written
  refine inv.onDisk inv.log ?_ ⟨inv.files.named, fun _ => ?_, fun file next found _ _ => ?_, inv.files.retired⟩
  · have newer := (inv.versions.building _ (KV.nextMeta_building next)).2
    have described : base.get.version = store.kv.metaVersion := by rw [current]; rfl
    obtain ⟨flushed, shows⟩ := KVMetaStore.sync_write settled (described ▸ newer)
    rw [wrote]
    exact .named flushed (by rw [shows, ← current, next])
  · exact inv.files.building (by simp [written])
  · exact inv.files.complete file next found (by simp [written]) (by simp [written])

theorem unlink {version : ℕ} (member : version ∈ store.retired) : DurableInv options initial { store with
      files := store.files.filter fun file => decide (file.version ≠ version)
      retired := store.retired.erase version } (journal ++ []) := by
  have kept {other : ℕ} (distinct : other ≠ version) :
      findTable (store.files.filter fun file => decide (file.version ≠ version)) other = findTable store.files other :=
    findTable_filter (fun name => decide (name ≠ version)) (by simpa using distinct)
  refine inv.onDisk inv.log inv.metas ⟨fun file inside => ?_, inv.files.building, fun file next found busy late => ?_,
    fun other inside => inv.files.retired other (List.mem_of_mem_erase inside)⟩
  · rw [kept ((inv.files.retired version member).2 file inside)]
    exact inv.files.named file inside
  · rw [kept ((inv.building_ne found).2 version member)]
    exact inv.files.complete file next found busy late

/-- Every step of the store and of its calls to the disk keeps the invariant. -/
theorem step {event : DurableEvent} (taken : store.step options event = some target) :
    DurableInv options initial target (journal ++ store.observe event) := by
  cases event with
  | kv event => exact inv.stepKV taken
  | startLog =>
    obtain ⟨wal, started, rfl⟩ := Option.map_eq_some_iff.mp taken
    exact inv.onDisk (inv.log.start started) inv.metas { inv.files with }
  | log =>
    obtain ⟨wal, moved, rfl⟩ := Option.map_eq_some_iff.mp taken
    exact inv.onDisk (inv.log.next inv.recover moved) inv.metas { inv.files with }
  | createTable =>
    rw [DurableKV.step] at taken
    split at taken
    · next idle =>
      obtain ⟨⟨file, next⟩, found, rfl⟩ := Option.map_eq_some_iff.mp taken
      exact inv.createTable idle found
    · contradiction
  | syncTable =>
    rw [DurableKV.step] at taken
    split at taken
    · next created =>
      obtain ⟨⟨file, next⟩, found, rfl⟩ := Option.map_eq_some_iff.mp taken
      exact inv.syncTable created found
    · contradiction
  | writeMeta =>
    rw [DurableKV.step] at taken
    split at taken
    · next synced =>
      obtain ⟨data, next, rfl⟩ := Option.map_eq_some_iff.mp taken
      exact inv.writeMeta synced next
    · contradiction
  | syncMeta =>
    rw [DurableKV.step] at taken
    split at taken
    · next written =>
      cases taken
      exact inv.syncMeta written
    · contradiction
  | unlink version =>
    rw [DurableKV.step] at taken
    split at taken
    · next member =>
      cases taken
      exact inv.unlink member
    · contradiction

end

end DurableInv

end PallasDB
