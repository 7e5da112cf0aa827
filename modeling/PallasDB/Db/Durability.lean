import PallasDB.Db.DurableInv
import PallasDB.Lib.Program

/-! # Acknowledged writes survive a crash

Whatever a crash leaves of the operations that were not flushed, a store that opens again shows every
transaction that took effect, with at most the transaction in flight on top. The exception is a crash while
`rewriteLog` has raised the floor of the log and not yet flushed the copy of a live memtable that is not
empty: the transactions committed since the memtable was frozen are in no file then.
-/

namespace PallasDB

open SortedRun WriteBack Transition VersionedMap Log Program

/-! ## Opening -/

/-- The current metadata name tables by distinct versions they have handed out, and their files are in order. -/
structure Disk.Sound (disk : Disk) : Prop where
  named : ∀ version ∈ disk.metas.get.sstables, version ≤ disk.metas.get.version
  distinct : disk.metas.get.sstables.Nodup
  tables : ∀ version ∈ disk.metas.get.sstables, ∀ file, findTable disk.files version = .ok file →
    file.version = version ∧ Increasing file.slots

section Open

variable {disk : Disk} {start : DurableKV}

theorem openTable_eq_ok {files : List TableFile} {version : ℕ} {file : SortedFile} :
    openTable files version = .ok file ↔ findTable files version = .ok file ∧ file.slots.length ≤ maxNKeys := by
  rw [openTable, bind_eq_ok]
  constructor
  · rintro ⟨found, there, taken⟩
    split at taken
    · contradiction
    · cases taken
      exact ⟨there, by omega⟩
  · rintro ⟨there, few⟩
    exact ⟨file, there, if_neg (by omega)⟩

/-- A file that is found is taken unless it has too many keys. -/
theorem mapM_openTable {files : List TableFile} {versions : List ℕ} {main : List SortedFile} :
    versions.mapM (openTable files) = .ok main ↔
      versions.mapM (findTable files) = .ok main ∧ ∀ file ∈ main, file.slots.length ≤ maxNKeys := by
  induction versions generalizing main with
  | nil => cases main <;> simp [pure, Except.pure]
  | cons version rest ih =>
    simp only [List.mapM_cons, bind_eq_ok, openTable_eq_ok, ih, pure, Except.pure, Except.ok.injEq]
    constructor
    · rintro ⟨file, ⟨found, few⟩, others, ⟨later, fewer⟩, rfl⟩
      exact ⟨⟨file, found, others, later, rfl⟩, List.forall_mem_cons.mpr ⟨few, fewer⟩⟩
    · rintro ⟨⟨file, found, others, later, rfl⟩, all⟩
      obtain ⟨few, fewer⟩ := List.forall_mem_cons.mp all
      exact ⟨file, ⟨found, few⟩, others, ⟨later, fewer⟩, rfl⟩

theorem Disk.openAll_ok (opened : disk.openAll = .ok start) :
    ∃ wal main, Wal.openLog disk.log = .ok wal ∧ disk.metas.get.sstables.mapM (findTable disk.files) = .ok main ∧
      (∀ file ∈ main, file.slots.length ≤ maxNKeys) ∧ start =
        ⟨.opened (slotsOf wal.ledger.held) disk.metas.get.version main, wal, disk.metas,
        disk.files.filter fun file => decide (file.version ∈ disk.metas.get.sstables), .idle, []⟩ := by
  rw [Disk.openAll] at opened
  split at opened
  · contradiction
  obtain ⟨wal, log, opened⟩ := bind_eq_ok.mp opened
  obtain ⟨main, tables, opened⟩ := bind_eq_ok.mp opened
  obtain ⟨found, few⟩ := mapM_openTable.mp tables
  cases read : Wal.openLog disk.log <;> simp_all [Except.mapError]

theorem mapM_findTable {files : List TableFile} {versions : List ℕ} {main : List SortedFile}
    (found : versions.mapM (findTable files) = .ok main) :
    List.Forall₂ (fun version file => findTable files version = .ok file) versions main := by
  induction versions generalizing main with
  | nil =>
    cases found
    exact .nil
  | cons version rest ih =>
    rw [List.mapM_cons] at found
    obtain ⟨file, first, found⟩ := bind_eq_ok.mp found
    obtain ⟨others, later, found⟩ := bind_eq_ok.mp found
    cases found
    exact .cons first (ih later)

theorem mapM_findTable_map {files : List TableFile} {tables : List SortedFile}
    (found : ∀ file ∈ tables, findTable files file.version = .ok file) :
    (tables.map SortedFile.version).mapM (findTable files) = .ok tables := by
  induction tables with
  | nil => rfl
  | cons file rest ih =>
    have later := ih fun other member => found other (List.mem_cons_of_mem _ member)
    rw [List.map_cons, List.mapM_cons, found file (List.mem_cons_self ..), later]
    rfl

/-- The tables of a sound disk are named by their versions. -/
theorem Disk.Sound.main (sound : disk.Sound) {main : List SortedFile}
    (found : disk.metas.get.sstables.mapM (findTable disk.files) = .ok main) :
    disk.metas.get.sstables = main.map SortedFile.version ∧
      ∀ file ∈ main, findTable disk.files file.version = .ok file ∧ Increasing file.slots := by
  have pairs := mapM_findTable found
  have tables := sound.tables
  generalize disk.metas.get.sstables = versions at pairs tables
  clear found
  induction pairs with
  | nil => exact ⟨rfl, by simp⟩
  | @cons version file versions main first _ ih =>
    obtain ⟨same, increasing⟩ := tables version (List.mem_cons_self ..) file first
    obtain ⟨names, found⟩ := ih fun other member => tables other (List.mem_cons_of_mem _ member)
    refine ⟨by rw [List.map_cons, same, names], fun other member => ?_⟩
    rcases List.mem_cons.mp member with rfl | later
    · exact ⟨same ▸ first, increasing⟩
    · exact found other later

/-- A store opened from a sound disk satisfies the invariant. -/
theorem durableInv_openAll (options : KVOptions) (sound : disk.Sound) (opened : disk.openAll = .ok start) :
    DurableInv options start.kv.tables.contents start [] := by
  obtain ⟨wal, main, log, tables, -, rfl⟩ := Disk.openAll_ok opened
  obtain ⟨inv, idle, quiet⟩ := Wal.logInv_openLog log
  obtain ⟨names, found⟩ := sound.main tables
  have fits : ∀ slot ∈ slotsOf wal.ledger.held, slotSize slot ≤ maxEntrySize :=
    Wal.slotSize_le fun ent member => inv.sized ent (List.mem_append_left _ member)
  have member {file : SortedFile} (inMain : file ∈ main) : file.version ∈ disk.metas.get.sstables := by
    rw [names]
    exact List.mem_map_of_mem inMain
  have described : disk.metas.get = (KV.opened (slotsOf wal.ledger.held) disk.metas.get.version main).described := by
    show disk.metas.get = ⟨disk.metas.get.version, main.map SortedFile.version⟩
    rw [← names]
  exact
    { snapshots := KV.snapshotInv_opened fun file inMain => (found file inMain).2
      conflicts := KV.conflictInv_opened ..
      recover := KV.recoverInv_opened fits ..
      versions :=
        { tables := fun file inMain => sound.named _ (member inMain)
          distinct := names ▸ sound.distinct
          latest := Nat.le_refl _
          building := fun version building => by cases building }
      log := .idle idle inv quiet rfl
      metas := .before _ (by simp) ⟨rfl, rfl⟩ described
      files :=
        { named := fun file inMain => by
            rw [findTable_filter (fun version => decide (version ∈ disk.metas.get.sstables))
              (decide_eq_true (member inMain))]
            exact (found file inMain).1
          building := fun busy => absurd rfl busy
          complete := fun file next publishes => by cases publishes
          retired := by simp } }

end Open

/-! ## What a crash leaves -/

/-- `rewriteLog` is past the write of the new floor, and the live memtable it has to copy is not empty. -/
def DurableKV.exposed (store : DurableKV) : Bool :=
  match store.kv.compaction, store.wal.call with
  | .installed, .running rest => decide (store.kv.tables.mem ≠ []) && decide (.writeFloor ∉ rest)
  | _, _ => false

variable {file : SortedFile} {next : List SortedFile} {records : List KVSlot}

namespace KV

variable {options : KVOptions} {kv : KV}

/-- The records recovery may find in the log. -/
inductive Found (kv : KV) : List KVSlot → Prop where
  | logged : Found kv kv.log
  | inFlight (id : ℕ) (tx : KVTX) (current : kv.committing = some (id, tx, .checked)) : Found kv (kv.log ++ tx.updates)
  | live (installed : kv.compaction = .installed) : Found kv kv.tables.mem

/-- The transaction whose records may be in the log although it has not taken effect. -/
def InFlight (kv : KV) (id : ℕ) (updates : SortedArray) : Prop :=
  ∃ tx phase, kv.committing = some (id, tx, phase) ∧ (phase = .checked ∨ phase = .logged) ∧ tx.updates = updates

/-- A table that is named before the log is rewritten shows nothing the log and the old tables do not show. -/
theorem visible_publishes (sorted : SortedInv kv) (recover : RecoverInv options kv)
    (found : kv.publishes options = some (file, next)) (covers : ∀ record ∈ kv.log, record ∈ records) :
    visible (replayMem records :: next.map SortedFile.slots) =
      visible (replayMem records :: kv.sstables.map SortedFile.slots) := by
  unfold KV.publishes at found
  split at found
  · next version frozen dropTombstones flushing =>
    cases found
    have held : kv.tables.imm = some frozen := (sorted.phase.frozen_iff (.inl flushing)).1
    exact visible_shadowed (fun slot => recover.flushed_logged held covers) _
  · next version level old1 old2 dropTombstones merging =>
    cases found
    obtain ⟨-, first, second, bottom⟩ := sorted.phase.merging merging
    have listed : kv.sstables = kv.tables.main := by rw [recover.listed, KV.listed, merging]
    rw [← listed] at first second bottom
    have reopened : Tables.Sorted ⟨replayMem records, none, kv.sstables⟩ :=
      (Tables.sorted_iff _).mpr ⟨replayMem_increasing records, by simp, sorted.sstables⟩
    have same := Tables.contents_replacePair options.library version reopened first second bottom
    rw [Tables.contents, Tables.contents, Tables.runs_eq, Tables.runs_eq] at same
    exact same
  · contradiction

/-- Whatever recovery finds in the log shows the committed contents, with the transaction in flight or without it. -/
theorem Found.visible (found : Found kv records) (sorted : SortedInv kv) (recover : RecoverInv options kv) :
    visible (replayMem records :: kv.sstables.map SortedFile.slots) = kv.tables.contents ∨
      ∃ id updates, kv.InFlight id updates ∧
        visible (replayMem records :: kv.sstables.map SortedFile.slots) = overlay kv.tables.contents updates := by
  have contents := recover.contents
  rw [contents_openAll] at contents
  cases found with
  | logged =>
    rw [contents, staged]
    split
    · next id tx current => exact .inr ⟨id, tx.updates, ⟨tx, .logged, current, .inr rfl, rfl⟩, rfl⟩
    · exact .inl rfl
  | inFlight id tx current =>
    obtain ⟨held, inside⟩ := committing_eq_some.mp current
    rw [staged_of_not_logged (by simp [held]), overlay_nil] at contents
    refine .inr ⟨id, tx.updates, ⟨tx, .checked, current, .inl rfl, rfl⟩, ?_⟩
    rw [visible_replayMem_append _ (sorted.txs id tx inside).updates, contents]
  | live installed =>
    have idle : kv.tables.imm = none := by simpa [PhaseOk, installed] using sorted.phase
    have listed : kv.sstables = kv.tables.main := by rw [recover.listed, KV.listed, installed]
    have increasing := ((Tables.sorted_iff kv.tables).mp sorted.tables).1
    left
    rw [Tables.contents, Tables.runs_eq]
    simp only [replayMem_of_increasing increasing, listed, idle, Option.toList_none, List.nil_append]

end KV

theorem KV.publishes_of_building {kv : KV} (options : KVOptions) {version : ℕ}
    (building : kv.compaction.building = some version) : ∃ file next, kv.publishes options = some (file, next) := by
  unfold KV.publishes
  cases compaction : kv.compaction with
  | flushing | merging => exact ⟨_, _, rfl⟩
  | _ => simp [compaction, Compaction.building] at building

namespace DurableInv

variable {options : KVOptions} {initial : KVMap} {store : DurableKV} {journal : KVJournal}

section

variable (inv : DurableInv options initial store journal)

include inv

/-- The metadata found after a crash name the tables of the store or those of the compaction under way. -/
theorem crash_metas (crash : Crash) : (store.crash crash).metas.get = store.kv.described ∨
      ∃ file next, store.kv.publishes options = some (file, next) ∧
        findTable store.files file.version = .ok file ∧
        (store.crash crash).metas.get = ⟨file.version, next.map SortedFile.version⟩ := by
  have same : (store.crash crash).metas = store.metas.crash crash := rfl
  rw [same]
  have renamed {data : KVMetaData} (late : store.publishing ≠ .idle ∧ store.publishing ≠ .created)
      (next : store.kv.nextMeta store.kv.described = some data) :
      ∃ file next, store.kv.publishes options = some (file, next) ∧ findTable store.files file.version = .ok file ∧
        data = ⟨file.version, next.map SortedFile.version⟩ := by
    obtain ⟨file, tables, found⟩ := KV.publishes_of_building options (KV.nextMeta_building next)
    rw [KV.nextMeta_described found] at next
    exact ⟨file, tables, found, inv.files.complete file tables found late.1 late.2, (Option.some.inj next).symm⟩
  have stage := inv.metas
  generalize reached : store.publishing = publishing at stage
  cases stage with
  | before _ early settled current => exact .inl ((KVMetaStore.crash_settled settled crash).trans current)
  | written base settled current data next wrote =>
    have newer := (inv.versions.building _ (KV.nextMeta_building next)).2
    have described : base.get.version = store.kv.metaVersion := by rw [current]; rfl
    rw [wrote, KVMetaStore.crash_write settled (described ▸ newer)]
    cases (if base.current then crash.slot1 else crash.slot0) with
    | true => exact .inr (renamed (by simp [reached]) (current ▸ next))
    | false => exact .inl current
  | named settled next =>
    rw [KVMetaStore.crash_settled settled]
    exact .inr (renamed (by simp [reached]) next)

/-- The tables a compaction is about to name are there once its own is. -/
theorem finds_next (publishes : store.kv.publishes options = some (file, next))
    (complete : findTable store.files file.version = .ok file) :
    ∀ other ∈ next, findTable store.files other.version = .ok other := by
  obtain ⟨members, -⟩ := KV.publishes_next inv.snapshots.sorted inv.recover inv.versions publishes
  intro other member
  rcases members other member with rfl | ⟨old, -⟩
  · exact complete
  · exact inv.files.named other old

/-- The tables a store is opened with after a crash. -/
theorem crash_tables (crash : Crash) {main : List SortedFile}
    (found : (store.crash crash).metas.get.sstables.mapM (findTable store.files) = .ok main) :
    main = store.kv.sstables ∨ ∃ file, store.kv.publishes options = some (file, main) := by
  rcases inv.crash_metas crash with old | ⟨file, next, publishes, complete, new⟩
  · left
    rw [old, KV.described, mapM_findTable_map inv.files.named] at found
    exact (Except.ok.inj found).symm
  · right
    rw [new, mapM_findTable_map (inv.finds_next publishes complete)] at found
    exact ⟨file, Except.ok.inj found ▸ publishes⟩

/-- Outside the window, recovery finds every record that is needed. -/
theorem crash_log (sheltered : store.exposed = false)
    (apart : store.wal.apart = true) {image : Bytes} (left : store.wal.log.file.Leaves image)
    (holds : Replays store.wal.ledger.puts image) :
    ∃ log records, Log.openLog image = .ok (log, replayMem records) ∧ store.kv.Found records := by
  cases inv.log with
  | idle call inv quiet held =>
    obtain ⟨log, opens⟩ := inv.recover_uncommitted (by simp [quiet]) left holds
    exact ⟨log, _, opens, held ▸ .logged⟩
  | updating id tx current stage slots =>
    obtain ⟨log, records, opens, outcome⟩ := stage.recover apart left holds
    refine ⟨log, records, opens, ?_⟩
    rw [slots] at outcome
    split at outcome
    · exact outcome ▸ .inFlight id tx current
    · rcases outcome with rfl | rfl
      · exact .logged
      · exact .inFlight id tx current
    · exact outcome ▸ .logged
  | rewriting installed stage slots =>
    have outside : store.wal.ledger.current = [] ∨ ∀ rest, store.wal.call = .running rest → .writeFloor ∈ rest := by
      rw [slots]
      refine or_iff_not_imp_left.mpr fun nonempty rest call => ?_
      simpa [DurableKV.exposed, installed, call, nonempty] using sheltered
    obtain ⟨log, records, opens, rfl | rfl⟩ := stage.recover outside apart left holds
    · exact ⟨log, _, opens, .logged⟩
    · exact ⟨log, _, opens, slots ▸ .live installed⟩

/-- What a store that opens after a crash shows. -/
theorem recovers (sheltered : store.exposed = false)
    (apart : store.wal.apart = true) {crash : Crash} (holds : Replays store.wal.ledger.puts (store.crash crash).log)
    {reopened : DurableKV} (opens : (store.crash crash).openAll = .ok reopened) :
    reopened.kv.tables.contents = contents overlay initial journal ∨
      ∃ id updates, store.kv.InFlight id updates ∧
        reopened.kv.tables.contents = overlay (contents overlay initial journal) updates := by
  obtain ⟨wal, main, read, tables, -, rfl⟩ := Disk.openAll_ok opens
  obtain ⟨log, records, replayed, found⟩ := inv.crash_log sheltered apart (File.leaves_crash ..) holds
  have same : wal.mem = replayMem records := by
    have both := Wal.openLog_eq (store.crash crash).log
    rw [read] at both
    exact (congrArg Prod.snd (Except.ok.inj (replayed.symm.trans both))).symm
  have shows : (KV.opened (slotsOf wal.ledger.held) (store.crash crash).metas.get.version main).tables.contents =
      visible (replayMem records :: main.map SortedFile.slots) := by
    rw [← same]
    exact KV.contents_openAll ..
  have covered : visible (replayMem records :: main.map SortedFile.slots) =
      visible (replayMem records :: store.kv.sstables.map SortedFile.slots) := by
    rcases inv.crash_tables crash tables with rfl | ⟨file, publishes⟩
    · rfl
    · refine KV.visible_publishes inv.snapshots.sorted inv.recover publishes ?_
      cases found with
      | logged => exact fun _ member => member
      | inFlight => exact fun _ member => List.mem_append_left _ member
      | live installed => simp [KV.publishes, installed] at publishes
  rw [shows, covered, ← inv.snapshots.contents]
  exact found.visible inv.snapshots.sorted inv.recover

end

end DurableInv

/-- Whatever a crash leaves, a store that opens again shows every transaction that took effect, among them all
whose `Commit` returned nil, with the transaction in flight on top or without it. -/
theorem DurableKV.acknowledged_survive (options : KVOptions) (disk : Disk) (sound : disk.Sound) (start : DurableKV)
    (opened : disk.openAll = .ok start) (events : List DurableEvent) (store : DurableKV) (journal : KVJournal)
    (run : run? (journaled (DurableKV.step options) DurableKV.observe) (start, []) events = some (store, journal))
    (crash : Crash) (sheltered : store.exposed = false) (apart : store.wal.apart = true)
    (holds : Replays store.wal.ledger.puts (store.crash crash).log) (reopened : DurableKV)
    (opens : (store.crash crash).openAll = .ok reopened) :
    (∀ id, .finished id (.ok ()) ∈ journal → ∃ tx : KVTX, store.kv.txs[id]? = some tx ∧
      (tx.updates = [] ∨ .committed id tx.updates ∈ journal)) ∧
    (reopened.kv.tables.contents = contents overlay start.kv.tables.contents journal ∨
      ∃ id updates, store.kv.InFlight id updates ∧
        reopened.kv.tables.contents = overlay (contents overlay start.kv.tables.contents journal) updates) := by
  have inv : DurableInv options start.kv.tables.contents store journal :=
    run?_invariant (fun state => DurableInv options start.kv.tables.contents state.1 state.2)
      (fun inv taken => by
        obtain ⟨target, moved, rfl⟩ := Option.map_eq_some_iff.mp taken
        exact inv.step moved)
      (durableInv_openAll options sound opened) run
  refine ⟨fun id finished => ?_, inv.recovers sheltered apart holds opens⟩
  obtain ⟨place, read⟩ := List.mem_iff_getElem?.mp finished
  obtain ⟨tx, found, -, result⟩ := inv.conflicts.results place id (.ok ()) read
  exact ⟨tx, found, result.imp_right List.mem_of_mem_take⟩

namespace DurableKV

/-- The disk of an empty directory. -/
def emptyDisk : Disk := ⟨[], none, none, []⟩

/-- The store opened in an empty directory. -/
def fresh : DurableKV := ⟨.opened [] 0 [], .fresh, emptyDisk.metas, [], .idle, []⟩

theorem sound_emptyDisk : emptyDisk.Sound := by
  have nothing : emptyDisk.metas.get = ⟨0, []⟩ := rfl
  constructor <;> simp [nothing]

theorem openAll_emptyDisk : emptyDisk.openAll = .ok fresh := by
  have read : Wal.openLog emptyDisk.log = .ok .fresh := Wal.openLog_nil
  rfl

/-- `SetEx` and `Commit` of one key, up to the return of `Commit`. -/
def putOne (id : ℕ) (key val : Bytes) : List DurableEvent :=
  [.kv .newTX, .kv (.setEx id key val .upsert), .kv (.beginCommit id), .kv .checkCommit, .startLog, .log, .log, .log,
    .kv (.writeLog none), .kv .applyCommit, .kv .endCommit]

/-- A transaction commits while the memtable with another one is flushed; `rewriteLog` gets as far as the flush
of the header. -/
def commitDuringFlush : List DurableEvent :=
  putOne 0 [1] [7] ++ [.kv .startCompact, .kv .flush] ++ putOne 1 [2] [8] ++
    [.createTable, .syncTable, .writeMeta, .syncMeta, .kv .publish, .kv .install, .startLog, .log, .log]

/-- The crash keeps nothing that was not flushed. -/
def loseAll : Crash := ⟨[], false, false⟩

/-- The run that ends before `rewriteLog` writes the header. -/
def beforeRewrite : List DurableEvent := commitDuringFlush.dropLast.dropLast

theorem acknowledged_survive_beforeRewrite : (run? (journaled (step .eager) observe) (fresh, []) beforeRewrite).isSome ∧
      ∀ store journal, run? (journaled (step .eager) observe) (fresh, []) beforeRewrite = some (store, journal) →
        ∃ reopened, (store.crash loseAll).openAll = .ok reopened ∧
          ((∀ id, .finished id (.ok ()) ∈ journal → ∃ tx : KVTX, store.kv.txs[id]? = some tx ∧
            (tx.updates = [] ∨ .committed id tx.updates ∈ journal)) ∧
          (reopened.kv.tables.contents = contents overlay fresh.kv.tables.contents journal ∨
            ∃ id updates, store.kv.InFlight id updates ∧
              reopened.kv.tables.contents = overlay (contents overlay fresh.kv.tables.contents journal) updates)) := by
  have checked : ((run? (journaled (step .eager) observe) (fresh, []) beforeRewrite).all fun state =>
      !state.1.exposed && state.1.wal.apart && genuine state.1.wal.ledger.puts (state.1.crash loseAll).log &&
        (state.1.crash loseAll).openAll.toBool) = true := by
    decide +kernel
  refine ⟨by decide +kernel, fun store journal run => ?_⟩
  rw [run, Option.all_some, Bool.and_eq_true, Bool.and_eq_true, Bool.and_eq_true, Bool.not_eq_true'] at checked
  obtain ⟨⟨⟨sheltered, apart⟩, holds⟩, opens⟩ := checked
  cases reopened : (store.crash loseAll).openAll with
  | error err => simp [reopened, Except.toBool] at opens
  | ok final =>
    exact ⟨final, rfl, acknowledged_survive .eager emptyDisk sound_emptyDisk fresh openAll_emptyDisk beforeRewrite store
      journal run loseAll sheltered apart (genuine_iff.mp holds).replays final reopened⟩

/-- A crash after the header is flushed loses a transaction whose `Commit` returned nil, and nothing is in flight. -/
theorem commitDuringFlush_lost : ∃ store journal reopened,
    run? (journaled (step .eager) observe) (fresh, []) commitDuringFlush = some (store, journal) ∧
      Genuine store.wal.ledger.puts (store.crash loseAll).log ∧ (store.crash loseAll).openAll = .ok reopened ∧
      .committed 1 [⟨[2], some [8]⟩] ∈ journal ∧ .finished 1 (.ok ()) ∈ journal ∧
      reopened.kv.tables.contents [2] = none ∧
      ¬ (reopened.kv.tables.contents = contents overlay fresh.kv.tables.contents journal ∨
        ∃ id updates, store.kv.InFlight id updates ∧
          reopened.kv.tables.contents = overlay (contents overlay fresh.kv.tables.contents journal) updates) := by
  have checked : ((run? (journaled (step .eager) observe) (fresh, []) commitDuringFlush).all fun state =>
      genuine state.1.wal.ledger.puts (state.1.crash loseAll).log &&
        decide (.committed 1 [⟨[2], some [8]⟩] ∈ state.2) && decide (.finished 1 (.ok ()) ∈ state.2) &&
        decide (contents overlay fresh.kv.tables.contents state.2 [2] = some [8]) && state.1.kv.commit.isNone &&
        decide ((state.1.crash loseAll).openAll.toOption.map (·.kv.tables.contents [2]) = some none)) = true := by
    decide +kernel
  have some : (run? (journaled (step .eager) observe) (fresh, []) commitDuringFlush).isSome := by decide +kernel
  obtain ⟨⟨store, journal⟩, run⟩ := Option.isSome_iff_exists.mp some
  simp only [run, Option.all_some, Bool.and_eq_true, decide_eq_true_eq, Option.isNone_iff_eq_none] at checked
  obtain ⟨⟨⟨⟨⟨holds, committed⟩, finished⟩, expected⟩, quiet⟩, opens⟩ := checked
  cases reopened : (store.crash loseAll).openAll with
  | error err => simp [reopened, Except.toOption] at opens
  | ok final =>
    have lost : final.kv.tables.contents [2] = none := by simpa [reopened, Except.toOption] using opens
    refine ⟨store, journal, final, run, genuine_iff.mp holds, reopened, committed, finished, lost, ?_⟩
    rintro (same | ⟨id, updates, ⟨tx, phase, current, -⟩, -⟩)
    · rw [same, expected] at lost
      contradiction
    · rw [KV.committing_eq_some, quiet] at current
      exact absurd current.1 (by simp)

end DurableKV

end PallasDB
