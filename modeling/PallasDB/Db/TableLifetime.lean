import PallasDB.Db.TableRefs

/-! # Tables live as long as they are read

The counters are the numbers of references in every state of every run, so the tables a transaction reads are open and
on disk until its top-level transaction has finished, and nothing else stays behind.
-/

namespace PallasDB

open RefCount Transition

namespace TableKV

/-- The transactions that hold a reference to a table: the unfinished ones that captured it, and the finished ones that
have not released it yet. -/
def readers (state : TableKV) (name : ℕ) : ℕ :=
  state.kv.ongoing.countP (fun id => name ∈ state.kv.mainSnap id) + state.releasing.countP fun names => name ∈ names

/-- The reference of `kv.main`, which a merge or a `Close` that took the table out of `kv.main` has until it releases
it. -/
def owners (state : TableKV) (name : ℕ) : ℕ :=
  (if name ∈ SortedFile.names state.kv.tables.main then 1 else 0) + if name ∈ state.dropping then 1 else 0

/-- A table lives as long as somebody can read it, and no longer. -/
structure Accounted (state : TableKV) : Prop where
  counts : ∀ name, (state.pool.handle name).refs = (state.readers name + state.owners name : ℕ)
  nonneg : ∀ name, 0 ≤ (state.pool.handle name).refs
  opened : ∀ name, 0 < (state.pool.handle name).refs →
    (state.pool.handle name).isOpen = true ∧ name ∈ state.pool.files
  /-- Also a nested transaction reads open files only, until the transaction it lies in has finished. -/
  readable : ∀ root ∈ state.kv.ongoing, ∀ id, state.kv.Under root id → ∀ name ∈ state.kv.mainSnap id,
    (state.pool.handle name).isOpen = true ∧ name ∈ state.pool.files
  /-- While the store is open and no compaction runs. -/
  files : (state.kv.closed = true → state.kv.closing = true) → state.kv.compaction = .idle → state.dropping = [] →
    SortedFile.names state.kv.tables.main = SortedFile.names state.kv.sstables ∧
      ∀ name, name ∈ state.pool.files ↔ name ∈ SortedFile.names state.kv.tables.main ∨
        (state.pool.handle name).retired = true ∧ 0 < state.readers name
  /-- After `Close`. -/
  shut : state.kv.closed = true → state.kv.closing = false → state.dropping = [] →
    (∀ name, (state.pool.handle name).refs = 0) ∧
      ∀ name, name ∈ state.pool.files ↔ name ∈ SortedFile.names state.kv.sstables

section Accounted

variable {options : KVOptions} {state : TableKV}

private theorem count_flatten {lists : List (List ℕ)} (distinct : ∀ list ∈ lists, list.Nodup) (name : ℕ) :
    lists.flatten.count name = lists.countP fun list => name ∈ list := by
  induction lists with
  | nil => rfl
  | cons list lists ih =>
    rw [List.forall_mem_cons] at distinct
    rw [List.flatten_cons, List.count_append, distinct.1.count, ih distinct.2, List.countP_cons, Nat.add_comm]
    simp

theorem TableInv.count_held (inv : TableInv state) (name : ℕ) :
    state.held.count name = state.readers name + state.owners name := by
  have captured : (state.kv.ongoing.flatMap state.kv.mainSnap).count name =
      state.kv.ongoing.countP fun id => name ∈ state.kv.mainSnap id := by
    rw [List.flatMap, count_flatten (by simpa using inv.distinct.captured), List.countP_map]
    rfl
  simp only [held, Multiset.count_add, Multiset.coe_count, captured, count_flatten inv.distinct.releasing,
    inv.names.main_nodup.count, inv.distinct.dropping.count, readers, owners, Nat.add_assoc]

theorem TableInv.accounted (inv : TableInv state) : Accounted state where
  counts := fun name => by rw [(inv.pool name).counts, inv.count_held]
  nonneg := fun name => by
    rw [(inv.pool name).counts]
    exact Int.natCast_nonneg _
  opened := fun name positive => by
    rw [(inv.pool name).counts, Int.natCast_pos] at positive
    exact inv.pool.usable (Multiset.count_pos.mp positive)
  readable := fun root member id under name there => by
    rw [inv.tree.shared root member id under] at there
    refine inv.pool.usable ?_
    simp only [held, Multiset.mem_add, Multiset.mem_coe]
    exact .inl (.inl (.inl (List.mem_flatMap.mpr ⟨root, member, there⟩)))
  files := fun up idle free => by
    have listed := inv.names.listed up
    simp only [KV.named, idle] at listed
    refine ⟨listed.symm, fun name => ?_⟩
    rw [(inv.pool name).present_iff, kept, List.mem_toFinset, listed, inv.count_held]
    by_cases inside : name ∈ SortedFile.names state.kv.tables.main
    · simp [inside]
    · simp [inside, owners, free]
  shut := fun shut settled free => by
    obtain ⟨none, files⟩ := inv.closed shut settled free
    refine ⟨fun name => ?_, fun name => ?_⟩
    · rw [(inv.pool name).counts, none]
      rfl
    · rw [files, kept, List.mem_toFinset]

end Accounted

/-- In every state of every run without failures of the disk. -/
theorem tables_accounted (options : KVOptions) (events : List Event) (state : TableKV)
    (run : run? (step options) empty events = some state) : Accounted state :=
  (tableInv_run run).accounted

/-- A commit of one key and a compaction that flushes it. -/
def commitAndFlush (id : ℕ) : List Event :=
  [.kv .newTX, .kv (.setEx id [1] [1, UInt8.ofNat id] .upsert), .kv (.beginCommit id), .kv .checkCommit,
    .kv (.writeLog none), .kv .applyCommit, .kv .endCommit, .release 0, .kv .startCompact, .kv .flush, .kv .publish,
    .kv .install, .kv (.rewriteLog none), .kv .pickMerge]

/-- A merge replaces a table that an open transaction reads. -/
def mergeUnderReader : List Event :=
  commitAndFlush 0 ++ [.kv .newTX] ++ commitAndFlush 2 ++ [.kv .installMerge, .drop, .drop]

theorem tables_accounted_mergeUnderReader : (run? (step .eager) empty mergeUnderReader).isSome ∧
    ∀ state, run? (step .eager) empty mergeUnderReader = some state → Accounted state :=
  ⟨by decide +kernel, fun state run => tables_accounted .eager mergeUnderReader state run⟩

example : (run? (step .eager) empty mergeUnderReader).map (fun state =>
    (SortedFile.names state.kv.tables.main, state.readers 1, state.readers 2)) = some ([3], 1, 0) := by decide +kernel

/-- A commit, a flush and `Close`, through to its last release. -/
def flushThenClose : List Event := commitAndFlush 0 ++ [.kv .beginClose, .kv .endClose, .drop]

private def noCompaction : Compaction → Bool
  | .idle => true
  | _ => false

private theorem eq_idle_of_noCompaction {phase : Compaction} (none : noCompaction phase = true) : phase = .idle := by
  cases phase with
  | idle => rfl
  | _ => contradiction

/-- `Close` takes every table out of `kv.main`, but their files stay and the metadata names them. -/
theorem close_keeps_files : ∃ state, run? (step .eager) empty flushThenClose = some state ∧
    state.kv.compaction = .idle ∧ state.dropping = [] ∧ state.kv.tables.main = [] ∧
      SortedFile.names state.kv.sstables = [1] ∧ 1 ∈ state.pool.files ∧ (state.pool.handle 1).retired = false := by
  have ran : (run? (step .eager) empty flushThenClose).any (fun state =>
      noCompaction state.kv.compaction && state.dropping.isEmpty &&
        state.kv.tables.main.isEmpty && decide (SortedFile.names state.kv.sstables = [1]) &&
          decide (1 ∈ state.pool.files) && !(state.pool.handle 1).retired) = true := by
    decide +kernel
  obtain ⟨state, run, checked⟩ := (Option.any_eq_true _ _).mp ran
  simp only [Bool.and_eq_true, List.isEmpty_iff, decide_eq_true_eq, Bool.not_eq_true'] at checked
  obtain ⟨⟨⟨⟨⟨idle, released⟩, main⟩, listed⟩, present⟩, current⟩ := checked
  exact ⟨state, run, eq_idle_of_noCompaction idle, released, main, listed, present, current⟩

end TableKV

end PallasDB
