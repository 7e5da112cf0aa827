import PallasDB.Db.Durability

/-! # Opening what a crash leaves

A crash leaves a whole log header, and the current metadata name tables that are complete. So the only check
of `Open` that a crash can fail is `checkNotEmpty`: no slot holds metadata, yet there is a table file. That is
the disk the very first flush leaves between the creation of its table and the flush of its metadata. With or
without a crash, `Open` refuses a table that was written with too many keys.
-/

namespace PallasDB

open SortedRun WriteBack Transition VersionedMap Log

/-! ## The log -/

variable {base : List KVSlot}

section Log

variable {image : Bytes}

theorem LogInv.opens {log : Log} {ledger : Ledger} (inv : LogInv log ledger) (left : log.file.Leaves image) :
    (openHeader image).isOk = true := by
  rw [inv.image_eq left, openHeader_header inv.epoch_lt]
  rfl

theorem Wal.Updating.opens {wal : Wal} (updating : wal.Updating base) (left : wal.log.file.Leaves image) :
    (openHeader image).isOk = true := by
  cases updating with
  | writing rest call inv => exact inv.opens left
  | committing call inv => exact inv.opens left
  | committed call inv => exact inv.opens left
  | refused err call inv => exact inv.opens left

/-- While the floor is raised, the header is the old or the new one. -/
theorem Wal.Rewriting.opens {wal : Wal} (rewriting : wal.Rewriting base) (left : wal.log.file.Leaves image) :
    (openHeader image).isOk = true := by
  cases rewriting with
  | before call inv => exact inv.opens left
  | raising call source inv raised =>
    have issued : wal.log.file = source.file.issue (.write 0 (header source.seq)) := by
      rw [← Except.ok.inj raised]
    rcases File.leaves_issue (issued ▸ left) with lost | ⟨rest, -, rfl⟩
    · exact inv.opens lost
    · have whole : (Op.write 0 (header source.seq)).apply rest = header source.seq ++ rest.drop logHeaderSize := by
        simp [Op.apply, length_header]
      rw [whole, openHeader_header inv.counted]
      rfl
  | raised call inv => exact inv.opens left
  | shrunk call inv => exact inv.opens left
  | copying updating => exact updating.opens left

/-- The log opens after a crash at any point of the calls that write it. -/
theorem LogStage.opens {kv : KV} {wal : Wal} (stage : LogStage kv wal) (left : wal.log.file.Leaves image) :
    ∃ reopened, Wal.openLog image = .ok reopened := by
  have header : (openHeader image).isOk = true := by
    cases stage with
    | idle call inv => exact inv.opens left
    | updating id tx current stage => exact stage.opens left
    | rewriting installed stage => exact stage.opens left
  cases read : openHeader image with
  | error err => simp [read, Except.isOk, Except.toBool] at header
  | ok pair => exact ⟨_, by rw [Wal.openLog, read]; rfl⟩

end Log

/-! ## The tables -/

namespace DurableInv

variable {options : KVOptions} {initial : KVMap} {store target : DurableKV} {journal : KVJournal}

/-- Every table the metadata name after a crash is there. -/
theorem finds_tables (inv : DurableInv options initial store journal) (crash : Crash) :
    ∃ main, (store.crash crash).metas.get.sstables.mapM (findTable store.files) = .ok main := by
  rcases inv.crash_metas crash with old | ⟨file, next, publishes, complete, new⟩
  · rw [old]
    exact ⟨_, mapM_findTable_map inv.files.named⟩
  · rw [new]
    exact ⟨_, mapM_findTable_map (inv.finds_next publishes complete)⟩

end DurableInv

/-! ## The guard against lost metadata -/

/-- No metadata have been flushed yet. -/
def KVMetaStore.unnamed (metas : KVMetaStore) : Bool := metas.slot0.durable.isNone && metas.slot1.durable.isNone

/-- The very first flush has created its table and its metadata are not flushed yet. -/
def DurableKV.firstFlush (store : DurableKV) : Bool := store.metas.unnamed && decide (store.publishing ≠ .idle)

/-- Until the first metadata are flushed, the only table file is that of the flush under way. -/
structure DurableKV.Unnamed (store : DurableKV) : Prop where
  pending : store.publishing ≠ .named
  retired : store.retired = []
  files : store.files = [] ↔ store.publishing = .idle
  building : ∀ file ∈ store.files, store.kv.compaction.building = some file.version

theorem KVMetaStore.unnamed_write (metas : KVMetaStore) (data : KVMetaData) :
    (metas.write data).unnamed = metas.unnamed := by
  unfold KVMetaStore.write
  split <;> rfl

theorem KVMetaStore.unnamed_sync_write (metas : KVMetaStore) (data : KVMetaData) :
    (metas.write data).sync.unnamed = false := by
  rw [KVMetaStore.sync, KVMetaStore.current_write, KVMetaStore.write]
  cases metas.current <;> simp [KVMetaStore.unnamed, MetaSlot.sync, MetaSlot.write]

namespace DurableInv

variable {options : KVOptions} {initial : KVMap} {store target : DurableKV} {journal : KVJournal}

theorem unnamed_kv (inv : DurableInv options initial store journal) {event : KVEvent}
    (unnamed : store.Unnamed) (taken : store.stepKV options event = some target) : target.Unnamed := by
  cases DurableKV.stepKV_cases taken with
  | inMemory kv memory moved =>
    have same := (KV.undisturbed_step inv.recover memory moved).2.building
    refine { unnamed with building := fun file member => ?_ }
    have built := unnamed.building file member
    rw [same (by rw [built]; rfl)]
    exact built
  | logged kv result writes returned moved =>
    refine { unnamed with building := fun file member => ?_ }
    have built := unnamed.building file member
    rcases writes with rfl | rfl
    · cases KV.step_cases moved with
      | writeLog => exact built
    · cases KV.step_cases moved with
      | rewriteLog installed =>
        rw [installed] at built
        contradiction
  | published kv publishes named moved => exact absurd named unnamed.pending

theorem unnamed_step (inv : DurableInv options initial store journal) {event : DurableEvent}
    (known : store.metas.unnamed = true → store.Unnamed) (taken : store.step options event = some target)
    (unnamed : target.metas.unnamed = true) : target.Unnamed := by
  cases event with
  | kv event =>
    have metas : target.metas = store.metas := by cases DurableKV.stepKV_cases taken <;> rfl
    exact inv.unnamed_kv (known (metas ▸ unnamed)) taken
  | startLog =>
    obtain ⟨wal, started, rfl⟩ := Option.map_eq_some_iff.mp taken
    exact { known unnamed with }
  | log =>
    obtain ⟨wal, moved, rfl⟩ := Option.map_eq_some_iff.mp taken
    exact { known unnamed with }
  | createTable =>
    rw [DurableKV.step] at taken
    split at taken
    · next idle =>
      obtain ⟨⟨file, next⟩, found, rfl⟩ := Option.map_eq_some_iff.mp taken
      have none : store.files = [] := (known unnamed).files.mpr idle
      refine ⟨by simp, (known unnamed).retired, by simp, fun other member => ?_⟩
      rw [none] at member
      rw [List.mem_singleton.mp member]
      exact KV.building_publishes found
    · contradiction
  | syncTable =>
    rw [DurableKV.step] at taken
    split at taken
    · obtain ⟨⟨file, next⟩, found, rfl⟩ := Option.map_eq_some_iff.mp taken
      refine ⟨by simp, (known unnamed).retired, by simp, fun other member => ?_⟩
      rcases List.mem_cons.mp member with rfl | old
      · exact KV.building_publishes found
      · exact (known unnamed).building other (List.mem_of_mem_filter old)
    · contradiction
  | writeMeta =>
    rw [DurableKV.step] at taken
    split at taken
    · next synced =>
      obtain ⟨data, next, rfl⟩ := Option.map_eq_some_iff.mp taken
      have before := known ((store.metas.unnamed_write data).symm.trans unnamed)
      have created : store.files ≠ [] := before.files.not.mpr (by simp [synced])
      exact ⟨by simp, before.retired, by simpa using created, before.building⟩
    · contradiction
  | syncMeta =>
    rw [DurableKV.step] at taken
    split at taken
    · next written =>
      cases taken
      obtain ⟨base, data, -, -, -, wrote⟩ := inv.metas.unflushed written
      have named := base.unnamed_sync_write data
      rw [← wrote] at named
      exact absurd unnamed (by simp [named])
    · contradiction
  | unlink version =>
    rw [DurableKV.step] at taken
    split at taken
    · next member =>
      cases taken
      simp [(known unnamed).retired] at member
    · contradiction

end DurableInv

theorem MetaSlot.durable_of_crash {slot : MetaSlot} {keep : Bool} (lost : slot.crash keep = none) :
    slot.durable = none := by
  unfold MetaSlot.crash at lost
  split at lost
  · exact (Option.or_eq_none_iff.mp lost).2
  · exact lost

/-- The tables that the current metadata name. -/
def Disk.named (disk : Disk) : List SortedFile :=
  disk.metas.get.sstables.filterMap fun version => (findTable disk.files version).toOption

theorem Disk.named_eq {disk : Disk} {main : List SortedFile}
    (found : disk.metas.get.sstables.mapM (findTable disk.files) = .ok main) : disk.named = main := by
  have pairs := mapM_findTable found
  rw [Disk.named]
  generalize disk.metas.get.sstables = versions at pairs
  clear found
  induction pairs with
  | nil => rfl
  | cons first _ ih => rw [List.filterMap_cons, first, ← ih]; rfl

/-- What `Open` asks of the disk. -/
theorem Disk.openAll_iff (disk : Disk) : (∃ start, disk.openAll = .ok start) ↔
    (disk.files = [] ∨ disk.slot0.isSome ∨ disk.slot1.isSome) ∧ (∃ wal, Wal.openLog disk.log = .ok wal) ∧
      (∃ main, disk.metas.get.sstables.mapM (findTable disk.files) = .ok main) ∧
        ∀ file ∈ disk.named, file.slots.length ≤ maxNKeys := by
  have guard : (disk.slot0.isNone && disk.slot1.isNone && !disk.files.isEmpty) = false ↔
      disk.files = [] ∨ disk.slot0.isSome ∨ disk.slot1.isSome := by
    cases disk.slot0 <;> cases disk.slot1 <;> simp
  constructor
  · rintro ⟨start, opened⟩
    obtain ⟨wal, main, log, tables, few, -⟩ := Disk.openAll_ok opened
    refine ⟨guard.mp (Bool.eq_false_iff.mpr fun lost => ?_), ⟨wal, log⟩, ⟨main, tables⟩, by rwa [Disk.named_eq tables]⟩
    rw [Disk.openAll, if_pos lost] at opened
    contradiction
  · rintro ⟨present, ⟨wal, log⟩, ⟨main, tables⟩, few⟩
    rw [Disk.named_eq tables] at few
    rw [Disk.openAll, if_neg (Bool.eq_false_iff.mp (guard.mpr present)), log, mapM_openTable.mpr ⟨tables, few⟩]
    exact ⟨_, rfl⟩

theorem DurableKV.unnamed_openAll {disk : Disk} {start : DurableKV} (opened : disk.openAll = .ok start)
    (unnamed : start.metas.unnamed = true) : start.Unnamed := by
  obtain ⟨guard, -⟩ := disk.openAll_iff.mp ⟨start, opened⟩
  obtain ⟨wal, main, -, -, -, rfl⟩ := Disk.openAll_ok opened
  have lost : disk.slot0 = none ∧ disk.slot1 = none := by
    simpa [KVMetaStore.unnamed, Disk.metas] using unnamed
  have empty : disk.files = [] := by simpa [lost] using guard
  exact ⟨by simp, rfl, by simp [empty], by simp [empty]⟩

/-- What every run keeps: the files describe the store, and until the first metadata are flushed they hold one table at
most. -/
structure DurableKV.Intact (options : KVOptions) (initial : KVMap) (store : DurableKV) : Prop where
  described : ∃ journal, DurableInv options initial store journal
  known : store.metas.unnamed = true → store.Unnamed

theorem DurableKV.intact_openAll (options : KVOptions) {disk : Disk} (sound : disk.Sound) {start : DurableKV}
    (opened : disk.openAll = .ok start) : start.Intact options start.kv.tables.contents :=
  ⟨⟨[], durableInv_openAll options sound opened⟩, unnamed_openAll opened⟩

namespace DurableKV.Intact

variable {options : KVOptions} {initial : KVMap} {store target : DurableKV} (intact : store.Intact options initial)

include intact

theorem step {event : DurableEvent} (taken : store.step options event = some target) :
    target.Intact options initial := by
  obtain ⟨⟨journal, inv⟩, known⟩ := intact
  exact ⟨⟨_, inv.step taken⟩, inv.unnamed_step known taken⟩

theorem opens_iff (crash : Crash) :
    (∃ reopened, (store.crash crash).openAll = .ok reopened) ↔
      (store.firstFlush = true → (store.crash crash).slot0.isSome ∨ (store.crash crash).slot1.isSome) ∧
        ∀ file ∈ (store.crash crash).named, file.slots.length ≤ maxNKeys := by
  obtain ⟨⟨journal, inv⟩, known⟩ := intact
  rw [Disk.openAll_iff]
  constructor
  · rintro ⟨guard, -, -, few⟩
    refine ⟨fun first => ?_, few⟩
    obtain ⟨unnamed, busy⟩ : store.metas.unnamed = true ∧ store.publishing ≠ .idle := by
      simpa [DurableKV.firstFlush] using first
    exact guard.resolve_left ((known unnamed).files.not.mpr busy)
  · rintro ⟨survives, few⟩
    refine ⟨?_, inv.log.opens (File.leaves_crash ..), inv.finds_tables crash, few⟩
    by_cases lost : (store.crash crash).slot0 = none ∧ (store.crash crash).slot1 = none
    · left
      have unnamed : store.metas.unnamed = true := by
        simp [KVMetaStore.unnamed, MetaSlot.durable_of_crash lost.1, MetaSlot.durable_of_crash lost.2]
      refine (known unnamed).files.mpr (by_contra fun busy => ?_)
      simpa [lost] using survives (by simp [DurableKV.firstFlush, unnamed, busy])
    · right
      rwa [not_and_or, ← ne_eq, ← ne_eq, Option.ne_none_iff_isSome, Option.ne_none_iff_isSome] at lost

end DurableKV.Intact

/-- A store that crashes can be opened again, except where the very first flush has created its table and no
metadata survive, or where a table has more keys than `Open` accepts. -/
theorem DurableKV.opens_after_crash_iff (options : KVOptions) (disk : Disk) (sound : disk.Sound) (start : DurableKV)
    (opened : disk.openAll = .ok start) (events : List DurableEvent) (store : DurableKV)
    (run : run? (DurableKV.step options) start events = some store) (crash : Crash) :
    (∃ reopened, (store.crash crash).openAll = .ok reopened) ↔
      (store.firstFlush = true → (store.crash crash).slot0.isSome ∨ (store.crash crash).slot1.isSome) ∧
        ∀ file ∈ (store.crash crash).named, file.slots.length ≤ maxNKeys := by
  have intact : store.Intact options start.kv.tables.contents :=
    run?_invariant _ (fun intact taken => intact.step taken) (intact_openAll options sound opened) run
  exact intact.opens_iff crash

namespace DurableKV

/-- The first flush, up to the flush of its table. -/
def firstTable : List DurableEvent :=
  putOne 0 [1] [7] ++ [.kv .startCompact, .kv .flush, .createTable, .syncTable]

/-- Had the crash come one flush later, after the metadata, the store would open. -/
theorem opens_after_crash_firstMeta : (run? (step .eager) fresh (firstTable ++ [.writeMeta, .syncMeta])).isSome ∧
    ∀ store, run? (step .eager) fresh (firstTable ++ [.writeMeta, .syncMeta]) = some store →
      ∃ reopened, (store.crash loseAll).openAll = .ok reopened := by
  refine ⟨by decide +kernel, fun store run => ?_⟩
  have checked : ((run? (step .eager) fresh (firstTable ++ [.writeMeta, .syncMeta])).all fun store =>
    !store.firstFlush && decide (∀ file ∈ (store.crash loseAll).named, file.slots.length ≤ maxNKeys)) = true := by
    decide +kernel
  rw [run, Option.all_some, Bool.and_eq_true, Bool.not_eq_true', decide_eq_true_eq] at checked
  exact (opens_after_crash_iff .eager emptyDisk sound_emptyDisk fresh openAll_emptyDisk _ store run loseAll).mpr
    ⟨fun first => absurd first (by simp [checked.1]), checked.2⟩

/-- The error of a failed open. -/
def openError? : Except OpenError DurableKV → Option OpenError
  | .ok _ => none
  | .error err => some err

theorem openError?_eq_some {outcome : Except OpenError DurableKV} {err : OpenError} :
    openError? outcome = some err ↔ outcome = .error err := by
  cases outcome <;> simp [openError?]

/-- A crash in the first flush, between its table and its metadata, leaves a store that cannot be opened. -/
theorem firstTable_unopenable : ∃ store, run? (step .eager) fresh firstTable = some store ∧
    (store.crash loseAll).openAll = .error .metaUnreadable := by
  have checked : ((run? (step .eager) fresh firstTable).any fun store =>
      decide (openError? (store.crash loseAll).openAll = some .metaUnreadable)) = true := by
    decide +kernel
  obtain ⟨store, run, fails⟩ := (Option.any_eq_true _ _).mp checked
  exact ⟨store, run, openError?_eq_some.mp (of_decide_eq_true fails)⟩

end DurableKV

end PallasDB
