import PallasDB.Db.KVReads
import PallasDB.Db.KVStep

/-! # No sorted run holds a key twice

Staged updates, memtables and tables stay strictly increasing under every step except one: an inner commit
replays its tombstones with `SortedArray.Del`, which inserts a second tombstone when the enclosing
transaction already holds one for the key. Runs whose inner commits avoid that keep the invariant.
-/

namespace PallasDB

open SortedRun Transition

variable {id version : ℕ} {tx : KVTX} {dropTombstones : Bool} {old1 old2 : SortedFile}

namespace KV

/-- The frozen memtable and the tables a compaction works on are where it left them. -/
def PhaseOk (kv : KV) : Prop :=
  match kv.compaction with
  | .flushing _ frozen dropTombstones | .published _ frozen dropTombstones =>
      kv.tables.imm = some frozen ∧ (dropTombstones = true → kv.tables.main = [])
  | .merging _ level old1 old2 dropTombstones =>
      kv.tables.imm = none ∧ kv.tables.main[level]? = some old1 ∧ kv.tables.main[level + 1]? = some old2 ∧
        (dropTombstones = true → kv.tables.main.length = level + 2)
  | .idle | .started _ | .installed | .choosing => kv.tables.imm = none

/-- A transaction stages an increasing run, reads increasing runs and reads its own updates first. -/
structure TxOk (id : ℕ) (tx : KVTX) : Prop where
  updates : Increasing tx.updates
  sources : ∀ sorted, .source sorted ∈ tx.levels → Increasing sorted.slots
  own : tx.err = none → ∃ rest, tx.levels = .updates id :: rest

structure SortedInv (kv : KV) : Prop where
  tables : kv.tables.Sorted
  sstables : ∀ file ∈ kv.sstables, Increasing file.slots
  txs : ∀ id tx, kv.txs[id]? = some tx → TxOk id tx
  phase : kv.PhaseOk

/-- Every run of the store holds its keys in strictly increasing order. -/
structure RunsIncreasing (kv : KV) : Prop where
  updates : ∀ tx ∈ kv.txs, Increasing tx.updates
  mem : Increasing kv.tables.mem
  imm : ∀ frozen ∈ kv.tables.imm, Increasing frozen
  main : ∀ file ∈ kv.tables.main, Increasing file.slots
  sstables : ∀ file ∈ kv.sstables, Increasing file.slots

theorem SortedInv.runsIncreasing {kv : KV} (inv : SortedInv kv) : kv.RunsIncreasing := by
  obtain ⟨mem, imm, main⟩ := (Tables.sorted_iff kv.tables).mp inv.tables
  refine ⟨fun tx member => ?_, mem, imm, main, inv.sstables⟩
  obtain ⟨id, found⟩ := List.mem_iff_getElem?.mp member
  exact (inv.txs id tx found).updates

theorem sortedInv_empty : SortedInv empty :=
  ⟨Tables.sorted_empty, by simp [empty], by simp [empty], rfl⟩

section Reads

variable {kv : KV}

theorem SortedInv.levels_increasing (inv : SortedInv kv) (found : kv.txs[id]? = some tx) :
    ∀ run ∈ MergedSortedKV.runs (kv.readLevels tx), Increasing run := by
  intro run member
  simp only [MergedSortedKV.runs, KV.readLevels, List.map_map, List.mem_map, Function.comp_apply] at member
  obtain ⟨level, inLevels, rfl⟩ := member
  cases level with
  | updates other =>
    simp only [resolve, SortedKV.slots]
    cases there : kv.txs[other]? with
    | none => exact increasing_nil
    | some owner => exact (inv.txs other owner there).updates
  | source sorted => exact (inv.txs id tx found).sources sorted inLevels

theorem SortedInv.get_eq (inv : SortedInv kv) (found : kv.txs[id]? = some tx) (live : tx.err = none) (key : Bytes) :
    kv.get tx key = .ok (visible (MergedSortedKV.runs (kv.readLevels tx)) key) := by
  rw [get, live, MergedSortedKV.getExact_eq (inv.levels_increasing found)]
  rfl

/-- What a live transaction sees is its own updates laid over the rest of its levels. -/
theorem SortedInv.visible_own (inv : SortedInv kv) (found : kv.txs[id]? = some tx) (live : tx.err = none) :
    ∃ rest, tx.levels = .updates id :: rest ∧
      visible (MergedSortedKV.runs (kv.readLevels tx)) =
        overlay (visible (MergedSortedKV.runs (rest.map kv.resolve))) tx.updates := by
  obtain ⟨rest, own⟩ := (inv.txs id tx found).own live
  refine ⟨rest, own, ?_⟩
  have head : kv.resolve (.updates id) = .array tx.updates := by simp [resolve, found]
  rw [readLevels, own, List.map_cons, head, MergedSortedKV.runs, List.map_cons, visible_cons]
  rfl

/-- A key that `Get` finds is not staged as deleted. -/
theorem SortedInv.not_deleted (inv : SortedInv kv) (found : kv.txs[id]? = some tx) {key val : Bytes}
    (read : kv.get tx key = .ok (some val)) : lookup tx.updates key ≠ some none := by
  cases live : tx.err with
  | some err => simp [get, live] at read
  | none =>
    rw [inv.get_eq found live, Except.ok.injEq] at read
    obtain ⟨rest, -, shows⟩ := inv.visible_own found live
    rw [shows] at read
    intro deleted
    simp [overlay, deleted] at read

end Reads

/-! ## Edits of the transaction table -/

section Edits

variable {txs : List KVTX}

theorem getElem?_added {new : KVTX} :
    (txs ++ [new])[id]? = some tx ↔ txs[id]? = some tx ∨ id = txs.length ∧ tx = new := by
  rcases Nat.lt_trichotomy id txs.length with inside | rfl | outside
  · rw [List.getElem?_append_left inside]
    exact ⟨.inl, fun either => either.resolve_right fun added => by omega⟩
  · simp [eq_comm]
  · rw [List.getElem?_eq_none (by simp; omega), List.getElem?_eq_none (by omega)]
    simp
    omega

theorem getElem?_changed {new : KVTX} {other : ℕ} (inside : id < txs.length) :
    (txs.set id new)[other]? = some tx ↔ other = id ∧ tx = new ∨ other ≠ id ∧ txs[other]? = some tx := by
  by_cases same : id = other
  · subst same
    simp [inside, eq_comm]
  · simp [same, Ne.symm same]

theorem txOk_set (every : ∀ id tx, txs[id]? = some tx → TxOk id tx) (new : TxOk id tx) :
    ∀ other current, (txs.set id tx)[other]? = some current → TxOk other current := by
  intro other current read
  rw [List.getElem?_set] at read
  split at read
  · next same =>
    subst same
    split at read
    · cases read; exact new
    · contradiction
  · exact every other current read

theorem txOk_append (every : ∀ id tx, txs[id]? = some tx → TxOk id tx) (new : TxOk txs.length tx) :
    ∀ other current, (txs ++ [tx])[other]? = some current → TxOk other current := by
  intro other current read
  rcases getElem?_added.mp read with old | ⟨rfl, rfl⟩
  · exact every other current old
  · exact new

theorem TxOk.withUpdates (ok : TxOk id tx) {updates : SortedArray} (increasing : Increasing updates) :
    TxOk id { tx with updates := updates } :=
  ⟨increasing, ok.sources, ok.own⟩

theorem TxOk.finished (ok : TxOk id tx) : TxOk id { tx with levels := [], err := some .txDone } :=
  ⟨ok.updates, by simp, by simp⟩

end Edits

/-! ## Inner commits -/

/-- No key staged as deleted by the inner transaction is already staged as deleted outside. -/
def tombstonesApart (inner outer : SortedArray) : Bool :=
  inner.all fun slot => slot.val.isSome || decide (lookup outer slot.key ≠ some none)

/-- Replaying one update. -/
private theorem applySlot_spec {outer : SortedArray} (increasing : Increasing outer) {slot : KVSlot}
    (fresh : (slot.val.isSome || decide (lookup outer slot.key ≠ some none)) = true) :
    Increasing (applySlot outer slot) ∧
      ∀ key, lookup (applySlot outer slot) key = if key = slot.key then some slot.val else lookup outer key := by
  cases staged : slot.val with
  | none =>
    have absent : lookup outer slot.key ≠ some none := by simpa [staged] using fresh
    simp only [applySlot, staged]
    exact ⟨(SortedArray.del_increasing_iff increasing slot.key).mpr absent, SortedArray.lookup_del increasing slot.key⟩
  | some val =>
    simp only [applySlot, staged]
    exact ⟨SortedArray.set_increasing increasing slot.key val, SortedArray.lookup_set increasing slot.key val⟩

/-- Replaying an increasing run of updates on an increasing one. -/
theorem foldl_applySlot {inner outer : SortedArray} (left : Increasing inner) (right : Increasing outer)
    (apart : tombstonesApart inner outer = true) : Increasing (inner.foldl applySlot outer) ∧
      ∀ key, lookup (inner.foldl applySlot outer) key = (lookup inner key).or (lookup outer key) := by
  induction inner generalizing outer with
  | nil => exact ⟨right, fun key => by simp⟩
  | cons slot rest ih =>
    obtain ⟨smaller, tail⟩ := increasing_cons.mp left
    simp only [tombstonesApart, List.all_cons, Bool.and_eq_true] at apart
    obtain ⟨here, later⟩ := apart
    obtain ⟨increasing, edit⟩ := applySlot_spec right here
    have fresh : tombstonesApart rest (applySlot outer slot) = true := by
      -- the keys still to come differ from the one just written
      rw [tombstonesApart, List.all_eq_true] at *
      intro other member
      rw [edit, if_neg (smaller other member).ne']
      exact later other member
    obtain ⟨sorted, reads⟩ := ih tail increasing fresh
    refine ⟨sorted, fun key => ?_⟩
    rw [List.foldl_cons, reads, edit, lookup_cons]
    by_cases same : key = slot.key
    · subst same
      have gone : lookup rest slot.key = none :=
        lookup_eq_none.mpr fun other member => (smaller other member).ne'
      rw [gone, if_pos rfl, if_pos rfl]
      rfl
    · rw [if_neg same, if_neg (Ne.symm same)]

/-- The condition a step has to meet: an inner commit keeps tombstones apart. -/
def keepsRuns (kv : KV) : KVEvent → Bool
  | .commitInner id =>
      match kv.idleTx id with
      | some inner =>
          match inner.target.bind kv.idleTx with
          | some outer => inner.err.isSome || tombstonesApart inner.updates outer.updates
          | none => true
      | none => true
  | _ => true

section Steps

variable {options : KVOptions} {kv target : KV}

section

variable (inv : SortedInv kv)

include inv

/-- A step that leaves the transactions alone keeps the invariant if it keeps the tables in order. -/
private theorem SortedInv.retable (same : target.txs = kv.txs)
    (tables : target.tables.Sorted) (sstables : ∀ file ∈ target.sstables, Increasing file.slots)
    (phase : target.PhaseOk) : SortedInv target :=
  ⟨tables, sstables, by rw [same]; exact inv.txs, phase⟩

/-- A step that leaves tables and compaction alone keeps the invariant if it keeps the transactions. -/
private theorem SortedInv.retx (tables : target.tables = kv.tables)
    (sstables : target.sstables = kv.sstables) (compaction : target.compaction = kv.compaction)
    (txs : ∀ id tx, target.txs[id]? = some tx → TxOk id tx) : SortedInv target :=
  ⟨tables ▸ inv.tables, sstables ▸ inv.sstables, txs, by rw [PhaseOk, tables, compaction]; exact inv.phase⟩

private theorem SortedInv.untrack (found : kv.txs[id]? = some tx) : SortedInv (kv.untrack id tx) := by
  rw [KV.untrack]
  split
  · exact inv.retx rfl rfl rfl (txOk_set inv.txs (inv.txs id tx found).finished)
  · exact inv

private theorem SortedInv.newTX : SortedInv kv.newTX := by
  rw [KV.newTX]
  split
  · exact inv.retx rfl rfl rfl (txOk_append inv.txs ⟨increasing_nil, by simp, by simp⟩)
  · refine inv.retx rfl rfl rfl (txOk_append inv.txs ⟨increasing_nil, fun sorted member => ?_, fun _ => ⟨_, rfl⟩⟩)
    simp only [List.mem_cons, reduceCtorEq, List.mem_map, Level.source.injEq, exists_eq_right, false_or] at member
    exact inv.tables _ (List.mem_map_of_mem member)

private theorem SortedInv.newInnerTX {parent : ℕ} (found : kv.txs[parent]? = some tx) :
    SortedInv (kv.newInnerTX parent tx) := by
  refine inv.retx rfl rfl rfl (txOk_append inv.txs ⟨increasing_nil, fun sorted member => ?_, fun _ => ⟨_, rfl⟩⟩)
  exact (inv.txs parent tx found).sources sorted (by simpa using member)

private theorem SortedInv.setEx (found : kv.txs[id]? = some tx) (key val : Bytes)
    (mode : UpdateMode) : SortedInv (kv.setEx id tx key val mode) := by
  have ok := inv.txs id tx found
  rw [KV.setEx]
  split
  · exact inv
  · split
    · exact inv.retx rfl rfl rfl (txOk_set inv.txs (ok.withUpdates (SortedArray.set_increasing ok.updates key val)))
    · exact inv

private theorem SortedInv.del (found : kv.txs[id]? = some tx) (key : Bytes) : SortedInv (kv.del id tx key) := by
  have ok := inv.txs id tx found
  rw [KV.del]
  split
  · next val read =>
    have fresh := inv.not_deleted found read
    exact inv.retx rfl rfl rfl
      (txOk_set inv.txs (ok.withUpdates ((SortedArray.del_increasing_iff ok.updates key).mpr fresh)))
  · exact inv

private theorem SortedInv.applyInner {parent : ℕ} {inner outer : KVTX}
    (found : kv.txs[id]? = some inner) (enclosing : kv.txs[parent]? = some outer)
    (apart : inner.err = none → tombstonesApart inner.updates outer.updates = true) :
    SortedInv (kv.applyInner inner parent outer) := by
  rw [KV.applyInner]
  split
  · exact inv
  · next live =>
    have ok := inv.txs parent outer enclosing
    exact inv.retx rfl rfl rfl (txOk_set inv.txs
      (ok.withUpdates (foldl_applySlot (inv.txs id inner found).updates ok.updates (apart live)).1))

private theorem SortedInv.setPhase (id : ℕ) (phase : CommitPhase) :
    SortedInv (kv.setPhase id phase) := inv.retx rfl rfl rfl inv.txs

end

theorem PhaseOk.apply (ok : kv.PhaseOk) (updates : SortedArray) (same : target.compaction = kv.compaction)
    (applied : target.tables = kv.tables.apply updates) : target.PhaseOk := by
  rw [PhaseOk, same, applied]
  exact ok

/-- The compaction phases in which no memtable is frozen. -/
theorem PhaseOk.frozen_iff (ok : kv.PhaseOk) {frozen : SortedArray}
    (flushing : kv.compaction = .flushing version frozen dropTombstones ∨
      kv.compaction = .published version frozen dropTombstones) :
    kv.tables.imm = some frozen ∧ (dropTombstones = true → kv.tables.main = []) := by
  rcases flushing with phase | phase <;> simpa [PhaseOk, phase] using ok

theorem PhaseOk.merging (ok : kv.PhaseOk) {level : ℕ}
    (merging : kv.compaction = .merging version level old1 old2 dropTombstones) :
    kv.tables.imm = none ∧ kv.tables.main[level]? = some old1 ∧ kv.tables.main[level + 1]? = some old2 ∧
      (dropTombstones = true → kv.tables.main.length = level + 2) := by
  simpa [PhaseOk, merging] using ok

private theorem replaceTables_increasing {sstables : List SortedFile}
    (sorted : ∀ file ∈ sstables, Increasing file.slots) (level : ℕ) {file : SortedFile}
    (new : Increasing file.slots) : ∀ other ∈ replaceTables sstables level file, Increasing other.slots := by
  intro other member
  rw [replaceTables, List.mem_append, List.mem_cons] at member
  rcases member with front | rfl | back
  · exact sorted other (List.mem_of_mem_take front)
  · exact new
  · exact sorted other (List.mem_of_mem_drop back)

private theorem SortedInv.installMerge (inv : SortedInv kv) {level : ℕ}
    (merging : kv.compaction = .merging version level old1 old2 dropTombstones) :
    SortedInv { kv with
      metaVersion := version
      sstables := replaceTables kv.sstables level
        (Tables.mergedTable options.library version old1 old2 dropTombstones)
      tables := kv.tables.replacePair level
        (Tables.mergedTable options.library version old1 old2 dropTombstones)
      compaction := .idle } := by
  obtain ⟨idle, first, second, -⟩ := inv.phase.merging merging
  have tables := inv.tables.replacePair options.library version first second dropTombstones
  have merged : Increasing (Tables.mergedTable options.library version old1 old2 dropTombstones).slots := by
    refine ((Tables.sorted_iff _).mp tables).2.2 _ ?_
    simp [Tables.replacePair]
  exact inv.retable rfl tables (replaceTables_increasing inv.sstables level merged) idle

theorem SortedInv.of_step (inv : SortedInv kv) {event : KVEvent} (keeps : kv.keepsRuns event = true)
    (taken : Step options kv event target) : SortedInv target := by
  cases taken with
  | newTX => exact inv.newTX
  | newInnerTX parent tx found => exact inv.newInnerTX (idleTx_eq_some.mp found).2
  | setEx id tx key val mode found => exact inv.setEx (idleTx_eq_some.mp found).2 key val mode
  | del id tx key found => exact inv.del (idleTx_eq_some.mp found).2 key
  | abort id tx found top => exact inv.untrack (idleTx_eq_some.mp found).2
  | abortInner | commitFinished | compactClosed | closeAgain => exact inv
  | commitInner id parent inner outer found nested enclosing =>
    refine inv.applyInner (idleTx_eq_some.mp found).2 (idleTx_eq_some.mp enclosing).2 fun live => ?_
    simpa [keepsRuns, found, nested, enclosing, live] using keeps
  | beginCommit id | checkCommit id => exact inv.setPhase id _
  | writeLog => exact inv.retx rfl rfl rfl inv.txs
  | applyCommit id tx current =>
    have increasing := (inv.txs id tx (committing_eq_some.mp current).2).updates
    exact inv.retable rfl (inv.tables.apply increasing) inv.sstables (inv.phase.apply tx.updates rfl rfl)
  | endCommit id tx result current =>
    have untracked := inv.untrack (committing_eq_some.mp current).2
    exact untracked.retx rfl rfl rfl untracked.txs
  | startCompact idle | skipFlush _ idle | skipMerge idle | mergeFailed _ _ _ _ _ idle =>
    have quiet : kv.tables.imm = none := by
      have phase := inv.phase
      rw [PhaseOk, idle] at phase
      first | exact phase | exact phase.1
    exact inv.retable rfl inv.tables inv.sstables quiet
  | flush => exact inv.retable rfl inv.tables.freeze inv.sstables (by simp [PhaseOk, Tables.freeze])
  | flushFailed version frozen dropTombstones flushing =>
    obtain ⟨held, -⟩ := inv.phase.frozen_iff (.inl flushing)
    exact inv.retable rfl inv.tables.unfreeze inv.sstables (by simp [PhaseOk, Tables.unfreeze, held])
  | publish version frozen dropTombstones flushing =>
    obtain ⟨held, bottom⟩ := inv.phase.frozen_iff (.inl flushing)
    have installed := inv.tables.install options.library version held dropTombstones
    refine inv.retable rfl inv.tables (fun file member => ?_) ⟨held, bottom⟩
    rcases List.mem_cons.mp member with rfl | old
    · exact ((Tables.sorted_iff _).mp installed).2.2 _ (by simp [Tables.install])
    · exact inv.sstables file old
  | install version frozen dropTombstones published free =>
    obtain ⟨held, -⟩ := inv.phase.frozen_iff (.inr published)
    exact inv.retable rfl (inv.tables.install options.library version held dropTombstones) inv.sstables rfl
  | rewriteFailed left installed | rewriteLog installed =>
    exact inv.retable rfl inv.tables inv.sstables (by simpa [PhaseOk, installed] using inv.phase)
  | pickMerge level old1 old2 choosing first second =>
    have idle : kv.tables.imm = none := by simpa [PhaseOk, choosing] using inv.phase
    exact inv.retable rfl inv.tables inv.sstables ⟨idle, first, second, by simp⟩
  | installMerge version level old1 old2 dropTombstones merging => exact inv.installMerge merging
  | beginClose => exact inv.retx rfl rfl rfl inv.txs
  | endClose idle closing drained =>
    refine inv.retable rfl ?_ inv.sstables (by simp [PhaseOk, idle])
    have sorted := inv.tables
    rw [Tables.sorted_iff] at sorted ⊢
    exact ⟨sorted.1, by simp, by simp⟩
  | openStore idle settled free =>
    refine inv.retable rfl ?_ inv.sstables (by simp [PhaseOk, openAll, idle])
    rw [Tables.sorted_iff]
    exact ⟨replayMem_increasing _, by simp [openAll], inv.sstables⟩

/-- Every step that meets the condition keeps all runs in order. -/
theorem SortedInv.step (inv : SortedInv kv) {event : KVEvent} (keeps : kv.keepsRuns event = true)
    (taken : kv.step options event = some target) : SortedInv target :=
  inv.of_step keeps (step_cases taken)

end Steps

/-- In every run of the public operations whose inner commits keep tombstones apart, no sorted run ever
holds a key twice. -/
theorem runs_increasing (options : KVOptions) (events : List KVEvent) (kv : KV)
    (meets : Meets (step options) (fun state event => state.keepsRuns event = true) empty events)
    (run : run? (step options) empty events = some kv) : kv.RunsIncreasing :=
  (run?_invariant_of_meets SortedInv (fun inv keeps taken => SortedInv.step inv keeps taken)
    sortedInv_empty meets run).runsIncreasing

/-- An inner transaction that deletes a key its enclosing transaction holds, in a run that also flushes. -/
def innerDelete : List KVEvent :=
  [.newTX, .setEx 0 [1] [7] .upsert, .newInnerTX 0, .del 1 [1], .commitInner 1, .beginCommit 0, .checkCommit,
    .writeLog none, .applyCommit, .endCommit, .startCompact, .flush]

theorem runs_increasing_innerDelete : (run? (step .eager) empty innerDelete).isSome ∧
      ∀ kv, run? (step .eager) empty innerDelete = some kv → kv.RunsIncreasing :=
  ⟨by decide, fun kv run => runs_increasing .eager innerDelete kv (by decide) run⟩

/-- An inner transaction that writes and deletes a key its enclosing transaction has already deleted. -/
def innerDeleteTwice : List KVEvent :=
  [.newTX, .setEx 0 [1] [7] .upsert, .del 0 [1], .newInnerTX 0, .setEx 1 [1] [8] .upsert, .del 1 [1],
    .commitInner 1, .beginCommit 0, .checkCommit, .writeLog none, .applyCommit]

/-- The memtable ends up with the same tombstone twice. -/
theorem innerDeleteTwice_duplicates : ∃ kv, run? (step .eager) empty innerDeleteTwice = some kv ∧
    kv.tables.mem = [⟨[1], none⟩, ⟨[1], none⟩] ∧ ¬ kv.RunsIncreasing := by
  refine ⟨_, rfl, by decide, fun ordered => ?_⟩
  exact absurd ordered.mem (by decide)

/-! ## Dropped tombstones -/

/-- A compaction that drops tombstones, with the run it reads and the table it writes: a flush while there is no
table, or a merge of the two last ones. -/
inductive Drops (options : KVOptions) (kv : KV) : KVRun → SortedFile → Prop
  | flush {next : KV} {version : ℕ} {frozen : SortedArray} {dropTombstones : Bool} (none : kv.tables.main = [])
      (taken : kv.step options .flush = some next)
        (flushing : next.compaction = .flushing version frozen dropTombstones) :
      Drops options kv kv.tables.mem (Tables.flushed options.library version frozen dropTombstones)
  | merge {next : KV} {version level : ℕ} {old1 old2 : SortedFile} {dropTombstones : Bool} {source : KVRun}
      (taken : kv.step options .pickMerge = some next)
      (merging : next.compaction = .merging version level old1 old2 dropTombstones)
      (last : kv.tables.main.length = level + 2) (merge : IsMerge [old1.slots, old2.slots] source) :
      Drops options kv source (Tables.mergedTable options.library version old1 old2 dropTombstones)

/-- The table holds exactly the live slots of the run, unless the run starts with a tombstone. -/
theorem dropped_tombstones_iff (options : KVOptions) (kv : KV) (source : KVRun) (file : SortedFile)
    (drops : Drops options kv source file) :
    file.slots = source.filter Slot.live ↔ source.head?.all Slot.live = true := by
  cases drops with
  | flush none taken flushing =>
    cases step_cases taken with
    | skipFlush => contradiction
    | flush =>
      cases flushing
      rw [Tables.flushed_slots, none, List.isEmpty_nil, if_pos rfl]
      exact noDeletedSlots_eq_filter_iff _
  | merge taken merging last merge =>
    cases step_cases taken with
    | skipMerge => contradiction
    | pickMerge =>
      cases merging
      obtain ⟨merged, isMerge, written⟩ := Tables.mergedTable_slots options.library (kv.version + 1)
        (merge.runs_increasing _ (List.mem_cons_self ..))
        (merge.runs_increasing _ (List.mem_cons_of_mem _ (List.mem_singleton_self _))) true
      rw [decide_eq_true last, written, if_pos rfl, isMerge.unique merge]
      exact noDeletedSlots_eq_filter_iff _

/-- A transaction writes two keys, another one deletes one of them. -/
def deleteOne (key : Bytes) : List KVEvent :=
  [.newTX, .setEx 0 [1] [7] .upsert, .setEx 0 [2] [8] .upsert, .beginCommit 0, .checkCommit, .writeLog none,
    .applyCommit, .endCommit, .newTX, .del 1 key, .beginCommit 1, .checkCommit, .writeLog none, .applyCommit,
    .endCommit, .startCompact]

theorem dropped_tombstones_deleteLast : ∃ kv file, run? (step .eager) empty (deleteOne [2]) = some kv ∧
    Drops .eager kv kv.tables.mem file ∧ file.slots = kv.tables.mem.filter Slot.live := by
  refine ⟨_, _, rfl, .flush (by decide) rfl rfl, ?_⟩
  exact (dropped_tombstones_iff .eager _ _ _ (.flush (by decide) rfl rfl)).mpr (by decide)

/-- The first key is the deleted one, and its tombstone is in the table. -/
theorem deleteFirst_keeps_tombstone : ∃ kv file, run? (step .eager) empty (deleteOne [1]) = some kv ∧
    Drops .eager kv kv.tables.mem file ∧ kv.tables.mem = [⟨[1], none⟩, ⟨[2], some [8]⟩] ∧
    file.slots = [⟨[1], none⟩, ⟨[2], some [8]⟩] := by
  refine ⟨_, _, rfl, .flush (by decide) rfl rfl, ?_, ?_⟩ <;> decide

end KV

end PallasDB
