import PallasDB.Db.TableTree
import Mathlib.Tactic.Abel

/-! # References to tables

Every reference to a table belongs to a transaction or to `kv.main`, or is about to be released by one of them. Every
step of the store and every release keeps the counters equal to the numbers of these references.
-/

namespace PallasDB

open RefCount Transition SortedRun

namespace KV

/-! ## Metadata and `kv.main` -/

/-- The tables the metadata should name. -/
def named (kv : KV) : List ℕ :=
  match kv.compaction with
  | .published version _ _ => version :: SortedFile.names kv.tables.main
  | _ => SortedFile.names kv.tables.main

/-- What a compaction is about to write has a new name, and what it merges is still there. -/
def PhaseNamed (kv : KV) : Prop :=
  match kv.compaction with
  | .flushing version _ _ => kv.metaVersion < version ∧ version ≤ kv.version
  | .merging version level old1 old2 _ => (kv.metaVersion < version ∧ version ≤ kv.version) ∧
      kv.tables.main[level]? = some old1 ∧ kv.tables.main[level + 1]? = some old2
  | _ => True

structure NamesInv (kv : KV) : Prop where
  closing : kv.closing = true → kv.closed = true
  /-- `Close` is through with `kv.main`. -/
  shut : kv.closed = true → kv.closing = false → kv.compaction = .idle ∧ kv.ongoing = [] ∧ kv.tables.main = []
  listed : (kv.closed = true → kv.closing = true) → SortedFile.names kv.sstables = kv.named
  distinct : (SortedFile.names kv.sstables).Nodup
  bounded : ∀ name ∈ SortedFile.names kv.sstables, name ≤ kv.metaVersion
  numbered : kv.metaVersion ≤ kv.version
  phase : kv.PhaseNamed

/-- Everything the names depend on. -/
structure SameNames (kv next : KV) : Prop where
  main : next.tables.main = kv.tables.main
  sstables : next.sstables = kv.sstables
  metaVersion : next.metaVersion = kv.metaVersion
  version : next.version = kv.version
  compaction : next.compaction = kv.compaction
  closed : next.closed = kv.closed
  closing : next.closing = kv.closing

section Names

variable {kv next : KV}

theorem NamesInv.frame (inv : NamesInv kv) (same : SameNames kv next) (ongoing : kv.ongoing = [] → kv.closed = true →
    next.ongoing = []) : NamesInv next := by
  obtain ⟨main, sstables, metaVersion, version, compaction, closed, closing⟩ := same
  constructor
  · rw [closing, closed]
    exact inv.closing
  · rw [closing, closed, compaction, main]
    intro shut settled
    obtain ⟨idle, none, empty⟩ := inv.shut shut settled
    exact ⟨idle, ongoing none shut, empty⟩
  · rw [closing, closed, sstables, named, compaction, main]
    exact inv.listed
  · rw [sstables]
    exact inv.distinct
  · rw [sstables, metaVersion]
    exact inv.bounded
  · rw [metaVersion, version]
    exact inv.numbered
  · rw [PhaseNamed, compaction, metaVersion, version, main]
    exact inv.phase

/-- No table is in `kv.main` twice. -/
theorem NamesInv.main_nodup (inv : NamesInv kv) : (SortedFile.names kv.tables.main).Nodup := by
  by_cases up : kv.closed = true → kv.closing = true
  · have distinct := inv.distinct
    rw [inv.listed up, named] at distinct
    split at distinct
    · exact (List.nodup_cons.mp distinct).2
    · exact distinct
  · rw [Classical.not_imp, Bool.not_eq_true] at up
    rw [(inv.shut up.1 up.2).2.2]
    exact List.nodup_nil

end Names

end KV

variable {tx : KVTX} {version : ℕ} {after : TableKV}

namespace TableKV

/-! ## References -/

/-- All references to tables: of ongoing transactions, of those that are about to let go of them, of `kv.main`, and of
a merge or a `Close` that is about to. -/
def held (state : TableKV) : Multiset ℕ :=
  ↑(state.kv.ongoing.flatMap state.kv.mainSnap) + ↑state.releasing.flatten +
    ↑(SortedFile.names state.kv.tables.main) + ↑state.dropping

/-- The tables the metadata names. -/
def kept (state : TableKV) : Finset ℕ := (SortedFile.names state.kv.sstables).toFinset

/-- Nobody holds two references to one table. -/
structure Distinct (state : TableKV) : Prop where
  captured : ∀ id ∈ state.kv.ongoing, (state.kv.mainSnap id).Nodup
  releasing : ∀ names ∈ state.releasing, names.Nodup
  dropping : state.dropping.Nodup

structure TableInv (state : TableKV) : Prop where
  tree : state.kv.TreeInv
  names : state.kv.NamesInv
  pool : state.pool.Ok state.held state.kept
  retired : ∀ name, (state.pool.handle name).retired = true → name ≤ state.kv.metaVersion
  /-- The table of a flush is open before `kv.main` holds it. -/
  published : ∀ version frozen drop, state.kv.compaction = .published version frozen drop →
    (state.pool.handle version).isOpen = true ∧ version ∉ state.held
  settled : state.kv.closed = true → state.kv.closing = false → state.releasing = []
  /-- The compaction mutex is held until a merge has released what it replaced. -/
  mutex : state.kv.compaction ≠ .idle → state.dropping = []
  distinct : state.Distinct

section Invariant

variable {options : KVOptions} {state : TableKV} {next : KV}

theorem tableInv_empty : TableInv empty where
  tree := ⟨by simp [empty, KV.empty, KV.frame], by simp [empty, KV.empty], by simp [empty, KV.empty],
    by simp [empty, KV.empty]⟩
  names := ⟨by simp [empty, KV.empty], by simp [empty, KV.empty], fun _ => rfl, List.nodup_nil,
    by simp [empty, KV.empty, SortedFile.names], le_rfl, trivial⟩
  pool := Pool.ok_empty
  retired := by simp [empty, Pool.empty]
  published := by simp [empty, KV.empty]
  settled := by simp [empty, KV.empty]
  mutex := fun _ => rfl
  distinct := ⟨by simp [empty, KV.empty], by simp [empty], List.nodup_nil⟩

/-- A held table has a name that the metadata has used. -/
theorem TableInv.le_metaVersion (inv : TableInv state) {name : ℕ} (member : name ∈ state.held) :
    name ≤ state.kv.metaVersion := by
  rcases (inv.pool name).known (Multiset.count_pos.mpr member) with keeps | gone
  · exact inv.names.bounded name (List.mem_toFinset.mp keeps)
  · exact inv.retired name gone

theorem held_congr (ongoing : next.ongoing = state.kv.ongoing)
    (snaps : ∀ id ∈ state.kv.ongoing, next.mainSnap id = state.kv.mainSnap id)
    (main : next.tables.main = state.kv.tables.main) : ({ state with kv := next } : TableKV).held = state.held := by
  rw [held, held, ongoing, main, List.flatMap_congr snaps]

/-- A step of the store that leaves the references alone. -/
theorem TableInv.withKV (inv : TableInv state) (tree : next.TreeInv) (names : next.NamesInv)
    (ongoing : next.ongoing = state.kv.ongoing)
    (snaps : ∀ id ∈ state.kv.ongoing, next.mainSnap id = state.kv.mainSnap id)
    (main : next.tables.main = state.kv.tables.main) (sstables : next.sstables = state.kv.sstables)
    (metaVersion : next.metaVersion = state.kv.metaVersion)
    (published : ∀ version frozen drop, next.compaction = .published version frozen drop →
      state.kv.compaction = .published version frozen drop)
    (settled : next.closed = true → next.closing = false → state.releasing = [])
    (mutex : next.compaction ≠ .idle → state.dropping = []) : TableInv { state with kv := next } where
  tree := tree
  names := names
  pool := by
    rw [held_congr ongoing snaps main, kept, sstables]
    exact inv.pool
  retired := by
    rw [metaVersion]
    exact inv.retired
  published := by
    rw [held_congr ongoing snaps main]
    exact fun version frozen drop reached => inv.published version frozen drop (published version frozen drop reached)
  settled := settled
  mutex := mutex
  distinct := by
    refine ⟨fun id member => ?_, inv.distinct.releasing, inv.distinct.dropping⟩
    rw [ongoing] at member
    exact snaps id member ▸ inv.distinct.captured id member

/-- A step that changes no name, no frame and no list of transactions. -/
theorem TableInv.quiet (inv : TableInv state) (same : state.kv.SameNames next)
    (frames : ∀ id, next.frame id = state.kv.frame id) (ongoing : next.ongoing = state.kv.ongoing) :
    TableInv { state with kv := next } := by
  refine inv.withKV (inv.tree.frame frames ongoing) (inv.names.frame same fun none _ => ongoing.trans none)
    ongoing (fun id _ => KV.mainSnap_congr (frames id)) same.main same.sstables same.metaVersion ?_ ?_ ?_
  · intro version frozen drop reached
    rwa [← same.compaction]
  · rw [same.closed, same.closing]
    exact inv.settled
  · rw [same.compaction]
    exact inv.mutex

/-- Staging updates changes no frame. -/
theorem TableInv.setTx (inv : TableInv state) {id : ℕ} (found : state.kv.txs[id]? = some tx) (updates : SortedArray) :
    TableInv { state with kv := state.kv.setTx id { tx with updates := updates } } := by
  refine inv.quiet ⟨rfl, rfl, rfl, rfl, rfl, rfl, rfl⟩ (fun other => ?_) rfl
  rw [KV.frame_set found]
  split
  · next same =>
    rw [same, KV.frame, found]
    rfl
  · rfl

theorem tables_levels (id : ℕ) (tables : Tables) :
    (Level.updates id :: tables.levels.map .source).filterMap Level.table? = SortedFile.names tables.main := by
  rw [Tables.levels, List.map_cons, List.filterMap_cons_none rfl, List.filterMap_cons_none rfl, List.map_append,
    List.filterMap_append]
  cases tables.imm <;> simp [Level.table?, SortedFile.names, Function.comp_def, List.filterMap_map]

/-- The tables of `kv.main` are held. -/
theorem mem_held_main {name : ℕ} (member : name ∈ SortedFile.names state.kv.tables.main) : name ∈ state.held := by
  simp only [held, Multiset.mem_add, Multiset.mem_coe]
  exact .inl (.inr member)

section

variable (inv : TableInv state)

include inv

theorem TableInv.newTX : TableInv (state.track state.kv.newTX .newTX) := by
  rw [track]
  cases closed : state.kv.closed with
  | true =>
    rw [if_pos rfl, KV.newTX, if_pos closed]
    have frames (id : ℕ) (member : id ∈ state.kv.ongoing) := (KV.frame_append state.kv ⟨0, none, [], [], some .kvClosed⟩
      state.kv.ongoing id).trans (if_neg (Nat.ne_of_lt (inv.tree.lt_length member)))
    exact inv.withKV (inv.tree.append rfl (.inl rfl))
      (inv.names.frame ⟨rfl, rfl, rfl, rfl, rfl, rfl, rfl⟩ fun none _ => none)
      rfl (fun id member => KV.mainSnap_congr (frames id member)) rfl rfl rfl (fun _ _ _ same => same)
      inv.settled inv.mutex
  | false =>
    rw [if_neg (by simp), KV.newTX, if_neg (by simp [closed])]
    set new : KVTX := ⟨state.kv.snapshot, none, [],
      .updates state.kv.txs.length :: state.kv.tables.levels.map .source, none⟩ with made
    have frames := KV.frame_append state.kv new (state.kv.ongoing ++ [state.kv.txs.length])
    have old : ∀ id ∈ state.kv.ongoing, _ := fun id member => KV.mainSnap_congr
      ((frames id).trans (if_neg (Nat.ne_of_lt (inv.tree.lt_length member))))
    have own : KV.mainSnap { state.kv with
        txs := state.kv.txs ++ [new], ongoing := state.kv.ongoing ++ [state.kv.txs.length] } state.kv.txs.length =
          SortedFile.names state.kv.tables.main := by
      rw [KV.mainSnap_eq_frame, frames, if_pos rfl]
      exact tables_levels state.kv.txs.length state.kv.tables
    have held : TableKV.held { state with
        kv := { state.kv with txs := state.kv.txs ++ [new], ongoing := state.kv.ongoing ++ [state.kv.txs.length] }
        pool := state.pool.acquireAll (SortedFile.names state.kv.tables.main) } =
          ↑(SortedFile.names state.kv.tables.main) + state.held := by
      simp only [TableKV.held, List.flatMap_append, List.flatMap_singleton, List.flatMap_congr old, own,
        ← Multiset.coe_add]
      abel
    constructor
    · exact inv.tree.append rfl (.inr rfl)
    · exact inv.names.frame ⟨rfl, rfl, rfl, rfl, rfl, rfl, rfl⟩ fun _ shut => by simp [closed] at shut
    · rw [held]
      exact inv.pool.acquireAll fun name member => mem_held_main member
    · intro name gone
      rw [Pool.acquireAll_retired] at gone
      exact inv.retired name gone
    · intro version frozen drop reached
      obtain ⟨opened, free⟩ := inv.published version frozen drop reached
      rw [Pool.acquireAll_isOpen, held, Multiset.mem_add, not_or]
      refine ⟨opened, fun member => free (mem_held_main member), free⟩
    · exact fun shut => by simp [closed] at shut
    · exact inv.mutex
    · refine ⟨fun id member => ?_, inv.distinct.releasing, inv.distinct.dropping⟩
      rcases List.mem_append.mp member with before | last
      · exact old id before ▸ inv.distinct.captured id before
      · rw [List.mem_singleton.mp last, own]
        exact inv.names.main_nodup

theorem TableInv.newInnerTX {parent : ℕ} (found : state.kv.txs[parent]? = some tx) :
    TableInv { state with kv := state.kv.newInnerTX parent tx } := by
  have frames (id : ℕ) (member : id ∈ state.kv.ongoing) := (KV.frame_append state.kv
    ⟨0, some parent, [], .updates state.kv.txs.length :: tx.levels, tx.err⟩ state.kv.ongoing id).trans
      (if_neg (Nat.ne_of_lt (inv.tree.lt_length member)))
  exact inv.withKV (inv.tree.appendInner found rfl rfl)
    (inv.names.frame ⟨rfl, rfl, rfl, rfl, rfl, rfl, rfl⟩ fun none _ => none)
    rfl (fun id member => KV.mainSnap_congr (frames id member)) rfl rfl rfl (fun _ _ _ same => same)
    inv.settled inv.mutex

/-- A transaction that finishes hands its references over to be released. -/
private theorem TableInv.finish {id : ℕ} (member : id ∈ state.kv.ongoing) (tree : next.TreeInv)
    (same : state.kv.SameNames next) (ongoing : next.ongoing = state.kv.ongoing.erase id)
    (snaps : ∀ other ∈ state.kv.ongoing.erase id, next.mainSnap other = state.kv.mainSnap other) :
    TableInv { state with kv := next, releasing := state.releasing ++ [state.kv.mainSnap id] } := by
  have held : TableKV.held { state with kv := next, releasing := state.releasing ++ [state.kv.mainSnap id] } =
      state.held := by
    have moved : (↑(state.kv.ongoing.flatMap state.kv.mainSnap) : Multiset ℕ) =
        ↑(state.kv.mainSnap id) + ↑((state.kv.ongoing.erase id).flatMap state.kv.mainSnap) :=
      Multiset.coe_eq_coe.mpr ((List.perm_cons_erase member).flatMap_right _)
    simp only [TableKV.held, ongoing, List.flatMap_congr snaps, same.main, moved, List.flatten_append,
      List.flatten_singleton, ← Multiset.coe_add]
    abel
  refine ⟨tree, inv.names.frame same fun none _ => ?_, ?_, ?_, ?_, ?_, ?_, ?_, ?_, inv.distinct.dropping⟩
  · rw [none] at member
    contradiction
  · rw [held, kept, same.sstables]
    exact inv.pool
  · rw [same.metaVersion]
    exact inv.retired
  · rw [same.compaction, held]
    exact inv.published
  · rw [same.closed, same.closing]
    intro shut settled
    rw [(inv.names.shut shut settled).2.1] at member
    contradiction
  · rw [same.compaction]
    exact inv.mutex
  · intro other there
    rw [ongoing] at there
    exact snaps other there ▸ inv.distinct.captured other (List.mem_of_mem_erase there)
  · intro names there
    rcases List.mem_append.mp there with before | last
    · exact inv.distinct.releasing names before
    · exact List.mem_singleton.mp last ▸ inv.distinct.captured id member

theorem TableInv.untrack {id : ℕ} (found : state.kv.txs[id]? = some tx)
    (commit : Option Committing) : TableInv { state with
      kv := { state.kv.untrack id tx with commit := commit }
      releasing := state.releasing ++ untracked state.kv id } := by
  by_cases member : id ∈ state.kv.ongoing
  · rw [untracked, if_pos member]
    refine inv.finish member ((inv.tree.untrack found).frame (fun _ => rfl) rfl) ?_ ?_ fun other there => ?_
    · rw [KV.untrack, if_pos member]
      exact ⟨rfl, rfl, rfl, rfl, rfl, rfl, rfl⟩
    · rw [KV.untrack, if_pos member]
    · exact KV.mainSnap_congr ((KV.frame_untrack found member other).trans
        (if_neg (inv.tree.distinct.mem_erase_iff.mp there).1))
  · rw [untracked, if_neg member, KV.untrack, if_neg member, List.append_nil]
    exact inv.quiet ⟨rfl, rfl, rfl, rfl, rfl, rfl, rfl⟩ (fun _ => rfl) rfl

/-! ## Compaction -/

/-- A compaction keeps `Close` from going through. -/
theorem TableInv.up (busy : state.kv.compaction ≠ .idle) (shut : state.kv.closed = true) : state.kv.closing = true := by
  by_contra settled
  exact busy (inv.names.shut shut (Bool.eq_false_iff.mpr settled)).1

/-- The compaction goes on without touching a table. -/
private theorem TableInv.rephase {log : List KVSlot} {tables : Tables}
    {phase : Compaction} (up : state.kv.closed = true → state.kv.closing = true) (free : state.dropping = [])
    (main : tables.main = state.kv.tables.main) (newer : state.kv.version ≤ version)
    (named : state.kv.named = SortedFile.names state.kv.tables.main)
    (unpublished : ∀ version frozen drop, phase ≠ .published version frozen drop) :
    let next := { state.kv with log := log, tables := tables, version := version, compaction := phase }
    next.PhaseNamed → TableInv { state with kv := next } := by
  intro next reached
  have notShut (shut : state.kv.closed = true) (settled : state.kv.closing = false) : False := by
    rw [up shut] at settled
    contradiction
  refine inv.withKV (inv.tree.frame (fun _ => rfl) rfl) ?_ rfl (fun _ _ => rfl) main rfl rfl
    (fun version frozen drop reached => absurd reached (unpublished version frozen drop))
    (fun shut settled => (notShut shut settled).elim) fun _ => free
  refine ⟨inv.names.closing, fun shut settled => (notShut shut settled).elim, fun _ => ?_, inv.names.distinct,
    inv.names.bounded, inv.names.numbered.trans newer, reached⟩
  rw [inv.names.listed up, named, KV.named]
  split
  · next published => exact absurd published (unpublished _ _ _)
  · rw [main]

theorem TableInv.startCompact (idle : state.kv.compaction = .idle)
    (opened : state.kv.closed = false) (free : state.dropping = []) (memSize : ℕ) :
    TableInv { state with kv := { state.kv with compaction := .started memSize } } := by
  refine inv.rephase (by simp [opened]) free rfl le_rfl ?_ (by simp) trivial
  simp only [KV.named, idle]

/-- The compaction is through with the log. -/
theorem TableInv.choose (busy : state.kv.compaction ≠ .idle)
    (unpublished : ∀ version frozen drop, state.kv.compaction ≠ .published version frozen drop)
    (log : List KVSlot) :
    TableInv { state with kv := { state.kv with log := log, compaction := .choosing } } := by
  refine inv.rephase (inv.up busy) (inv.mutex busy) rfl le_rfl ?_ (by simp) trivial
  rw [KV.named]
  split
  · next published => exact absurd published (unpublished _ _ _)
  · rfl

/-- A name no metadata has used is free. -/
theorem TableInv.free (fresh : state.kv.metaVersion < version) : version ∉ state.held :=
  fun member => (Nat.lt_of_lt_of_le fresh (inv.le_metaVersion member)).false

theorem TableInv.publish {frozen : SortedArray} {drop : Bool}
    (flushing : state.kv.compaction = .flushing version frozen drop) : TableInv { state with
      kv := { state.kv with
        metaVersion := version
        sstables := Tables.flushed options.library version frozen drop :: state.kv.sstables
        compaction := .published version frozen drop }
      pool := state.pool.create version } := by
  have busy : state.kv.compaction ≠ .idle := by simp [flushing]
  obtain ⟨fresh, numbered⟩ : state.kv.metaVersion < version ∧ version ≤ state.kv.version := by
    simpa only [KV.PhaseNamed, flushing] using inv.names.phase
  have listed : SortedFile.names (Tables.flushed options.library version frozen drop :: state.kv.sstables) =
      version :: SortedFile.names state.kv.sstables := by
    simp only [SortedFile.names, List.map_cons, Tables.flushed_version]
  constructor
  · exact inv.tree.frame (fun _ => rfl) rfl
  · refine ⟨inv.names.closing, fun shut settled => ?_, fun up => ?_, ?_, ?_, numbered, trivial⟩
    · exact absurd (inv.names.shut shut settled).1 busy
    · rw [listed, inv.names.listed up]
      simp only [KV.named, flushing]
    · rw [listed, List.nodup_cons]
      exact ⟨fun member => (Nat.lt_of_lt_of_le fresh (inv.names.bounded version member)).false, inv.names.distinct⟩
    · rw [listed, List.forall_mem_cons]
      exact ⟨le_rfl, fun name member => (inv.names.bounded name member).trans fresh.le⟩
  · have made := inv.pool.create (inv.free fresh)
    rwa [kept, listed, List.toFinset_cons]
  · exact fun name gone => (inv.retired name (Pool.create_retired gone)).trans fresh.le
  · rintro _ _ _ ⟨⟩
    exact ⟨state.pool.create_isOpen version, inv.free fresh⟩
  · exact inv.settled
  · exact fun _ => inv.mutex busy
  · exact { inv.distinct with }

theorem TableInv.install {frozen : SortedArray} {drop : Bool}
    (published : state.kv.compaction = .published version frozen drop) : TableInv { state with
      kv := { state.kv with
        tables := state.kv.tables.install (Tables.flushed options.library version frozen drop)
        compaction := .installed }
      pool := state.pool.acquire version } := by
  have busy : state.kv.compaction ≠ .idle := by simp [published]
  obtain ⟨opened, -⟩ := inv.published version frozen drop published
  have listed : SortedFile.names (state.kv.tables.install (Tables.flushed options.library version frozen drop)).main =
      version :: SortedFile.names state.kv.tables.main := by
    simp only [SortedFile.names, Tables.install, List.map_cons, Tables.flushed_version]
  have names : SortedFile.names state.kv.sstables = version :: SortedFile.names state.kv.tables.main := by
    have before := inv.names.listed (inv.up busy)
    simpa only [KV.named, published] using before
  have present : version ∈ state.pool.files := by
    refine (inv.pool version).present_iff.mpr (.inl ?_)
    rw [kept, names]
    simp
  constructor
  · exact inv.tree.frame (fun _ => rfl) rfl
  · refine ⟨inv.names.closing, fun shut settled => ?_, fun up => ?_, inv.names.distinct, inv.names.bounded,
      inv.names.numbered, trivial⟩
    · exact absurd (inv.names.shut shut settled).1 busy
    · exact names.trans listed.symm
  · have more := inv.pool.acquire opened present
    have held : version ::ₘ state.held = ↑(state.kv.ongoing.flatMap state.kv.mainSnap) + ↑state.releasing.flatten +
        ↑(version :: SortedFile.names state.kv.tables.main) + ↑state.dropping := by
      rw [TableKV.held, ← Multiset.cons_coe, Multiset.add_cons, Multiset.cons_add]
    rw [TableKV.held, listed]
    exact held ▸ more
  · intro name gone
    rw [Pool.acquire_retired] at gone
    exact inv.retired name gone
  · exact fun _ _ _ reached => by contradiction
  · exact inv.settled
  · exact fun _ => inv.mutex busy
  · exact { inv.distinct with }

end

private theorem names_replace (tables : List SortedFile) (level : ℕ) (file : SortedFile) :
    SortedFile.names (tables.take level ++ file :: tables.drop (level + 2)) =
      (SortedFile.names tables).take level ++ file.version :: (SortedFile.names tables).drop (level + 2) := by
  simp only [SortedFile.names, List.map_append, List.map_cons, List.map_take, List.map_drop]

private theorem replaced_coe (front back : List ℕ) (new old1 old2 : ℕ) :
    (↑(front ++ new :: back) + ↑[old1, old2] : Multiset ℕ) = new ::ₘ ↑(front ++ old1 :: old2 :: back) := by
  simp only [← Multiset.coe_add, ← Multiset.cons_coe, ← Multiset.singleton_add, Multiset.coe_nil]
  abel

private theorem replaced_toFinset {front back : List ℕ} {new old1 old2 : ℕ}
    (distinct : (front ++ old1 :: old2 :: back).Nodup) (fresh : new ∉ front ++ old1 :: old2 :: back) :
    ((insert new (front ++ old1 :: old2 :: back).toFinset).erase old1).erase old2 =
      (front ++ new :: back).toFinset := by
  ext name
  simp only [Finset.mem_erase, Finset.mem_insert, List.mem_toFinset, List.mem_append, List.mem_cons]
  grind

section

variable (inv : TableInv state)

include inv

/-- A merge takes two tables out of `kv.main` that it has still to release. -/
theorem TableInv.installMerge {level : ℕ} {old1 old2 : SortedFile} {drop : Bool}
    (merging : state.kv.compaction = .merging version level old1 old2 drop) : TableInv {
      kv := { state.kv with
        metaVersion := version
        sstables := KV.replaceTables state.kv.sstables level
          (Tables.mergedTable options.library version old1 old2 drop)
        tables := state.kv.tables.replacePair level (Tables.mergedTable options.library version old1 old2 drop)
        compaction := .idle }
      pool := (((state.pool.create version).acquire version).retire old1.version).retire old2.version
      releasing := state.releasing
      dropping := [old1.version, old2.version] } := by
  have busy : state.kv.compaction ≠ .idle := by simp [merging]
  obtain ⟨⟨fresh, numbered⟩, first, second⟩ : (state.kv.metaVersion < version ∧ version ≤ state.kv.version) ∧
      state.kv.tables.main[level]? = some old1 ∧ state.kv.tables.main[level + 1]? = some old2 := by
    simpa only [KV.PhaseNamed, merging] using inv.names.phase
  set front := (SortedFile.names state.kv.tables.main).take level with hfront
  set back := (SortedFile.names state.kv.tables.main).drop (level + 2) with hback
  have names : SortedFile.names state.kv.sstables = SortedFile.names state.kv.tables.main := by
    simpa only [KV.named, merging] using inv.names.listed (inv.up busy)
  have pair : SortedFile.names state.kv.tables.main = front ++ old1.version :: old2.version :: back := by
    refine Tables.split_pair ?_ ?_ <;> simp [SortedFile.names, first, second]
  have main : SortedFile.names (state.kv.tables.replacePair level
      (Tables.mergedTable options.library version old1 old2 drop)).main = front ++ version :: back := by
    rw [Tables.replacePair, names_replace, Tables.mergedTable_version]
  have listed : SortedFile.names (KV.replaceTables state.kv.sstables level
      (Tables.mergedTable options.library version old1 old2 drop)) = front ++ version :: back := by
    rw [KV.replaceTables, names_replace, Tables.mergedTable_version, names]
  have bounded (name : ℕ) (member : name ∈ front ++ old1.version :: old2.version :: back) :
    name ≤ state.kv.metaVersion :=
    inv.names.bounded name (by rwa [names, pair])
  have distinct : (front ++ old1.version :: old2.version :: back).Nodup := by
    rw [← pair, ← names]
    exact inv.names.distinct
  constructor
  · exact inv.tree.frame (fun _ => rfl) rfl
  · refine ⟨inv.names.closing, fun shut settled => ?_, fun _ => listed.trans main.symm, ?_, ?_, numbered, trivial⟩
    · exact absurd (inv.names.shut shut settled).1 busy
    · rw [listed, List.nodup_middle, List.nodup_cons]
      refine ⟨fun member => ?_, distinct.sublist ?_⟩
      · have old := bounded version (by simp only [List.mem_append, List.mem_cons] at member ⊢; tauto)
        exact (Nat.lt_of_lt_of_le fresh old).false
      · exact ((List.sublist_cons_self _ _).trans (List.sublist_cons_self _ _)).append_left front
    · intro name member
      rw [listed, List.mem_append, List.mem_cons] at member
      rcases member with before | rfl | after
      · exact (bounded name (List.mem_append_left _ before)).trans fresh.le
      · exact le_rfl
      · exact (bounded name (by simp [after])).trans fresh.le
  · have held : version ::ₘ state.held = ↑(state.kv.ongoing.flatMap state.kv.mainSnap) + ↑state.releasing.flatten +
        ↑(front ++ version :: back) + ↑[old1.version, old2.version] := by
      rw [TableKV.held, pair, inv.mutex busy, Multiset.coe_nil, Multiset.add_zero, ← Multiset.add_cons, ← replaced_coe]
      exact (Multiset.add_assoc _ _ _).symm
    rw [TableKV.held, kept, listed, main]
    refine held ▸ replaced_toFinset distinct (fun old => ?_) ▸ ?_
    · exact (Nat.lt_of_lt_of_le fresh (bounded version old)).false
    · have swapped := inv.pool.replacePair (inv.free fresh) (mem_held_main (pair ▸ by simp : old1.version ∈ _))
        (mem_held_main (pair ▸ by simp : old2.version ∈ _))
      rwa [kept, names, pair] at swapped
  · intro name gone
    rcases Pool.retire_retired gone with rfl | gone
    · exact (bounded _ (by simp)).trans fresh.le
    · rcases Pool.retire_retired gone with rfl | gone
      · exact (bounded _ (by simp)).trans fresh.le
      · rw [Pool.acquire_retired] at gone
        exact (inv.retired name (Pool.create_retired gone)).trans fresh.le
  · exact fun _ _ _ reached => by contradiction
  · exact inv.settled
  · exact fun busy => absurd rfl busy
  · refine ⟨inv.distinct.captured, inv.distinct.releasing, distinct.sublist ?_⟩
    exact ((List.Sublist.refl [_, _]).append (List.nil_sublist back)).trans (List.sublist_append_right front _)

/-! ## Close and open -/

theorem TableInv.beginClose (opened : state.kv.closed = false) :
    TableInv { state with kv := { state.kv with closed := true, closing := true } } := by
  refine inv.withKV (inv.tree.frame (fun _ => rfl) rfl) ?_ rfl (fun _ _ => rfl) rfl rfl rfl
    (fun _ _ _ same => same) (fun _ settled => nomatch settled) inv.mutex
  exact ⟨fun _ => rfl, (fun _ settled => nomatch settled), fun _ => inv.names.listed (by simp [opened]),
    inv.names.distinct, inv.names.bounded, inv.names.numbered, inv.names.phase⟩

/-- `Close` takes every table out of `kv.main` and has still to release them. -/
theorem TableInv.endClose (idle : state.kv.compaction = .idle) (closing : state.kv.closing = true)
    (drained : state.kv.ongoing = []) (released : state.releasing = []) (free : state.dropping = []) :
    TableInv { state with
      kv := { state.kv with closing := false, tables := { state.kv.tables with imm := none, main := [] } }
      dropping := SortedFile.names state.kv.tables.main } := by
  have held : TableKV.held { state with
      kv := { state.kv with closing := false, tables := { state.kv.tables with imm := none, main := [] } }
      dropping := SortedFile.names state.kv.tables.main } = state.held := by
    simp only [TableKV.held, free, SortedFile.names, List.map_nil, Multiset.coe_nil, Multiset.add_zero]
    rfl
  constructor
  · exact inv.tree.frame (fun _ => rfl) rfl
  · refine ⟨(fun settled => nomatch settled), fun _ _ => ⟨idle, drained, rfl⟩, fun up => ?_, inv.names.distinct,
      inv.names.bounded, inv.names.numbered, ?_⟩
    · exact nomatch up (inv.names.closing closing)
    · simp only [KV.PhaseNamed, idle]
  · rw [held]
    exact inv.pool
  · exact inv.retired
  · rw [held]
    exact inv.published
  · exact fun _ _ => released
  · exact fun busy => absurd idle busy
  · exact ⟨inv.distinct.captured, inv.distinct.releasing, inv.names.main_nodup⟩

/-- After `Close` the files are those the metadata names, and nobody holds them. -/
theorem TableInv.closed (shut : state.kv.closed = true) (settled : state.kv.closing = false)
    (free : state.dropping = []) : state.held = 0 ∧ state.pool.files = state.kept := by
  obtain ⟨idle, drained, main⟩ := inv.names.shut shut settled
  have none : state.held = 0 := by
    simp only [held, drained, main, free, inv.settled shut settled]
    rfl
  refine ⟨none, Finset.ext fun name => ?_⟩
  rw [(inv.pool name).present_iff, none]
  simp

theorem TableInv.openStore (shut : state.kv.closed = true) (settled : state.kv.closing = false)
    (free : state.dropping = []) : TableInv { state with
      kv := state.kv.openAll
      pool := { state.pool.reopenAll (SortedFile.names state.kv.sstables) with
        files := state.pool.files.filter fun name => name ∈ SortedFile.names state.kv.sstables } } := by
  obtain ⟨idle, drained, main⟩ := inv.names.shut shut settled
  obtain ⟨unheld, files⟩ := inv.closed shut settled free
  have opened := inv.pool.reopenAll inv.names.distinct (fun name member => List.mem_toFinset.mpr member)
    (by simp [unheld])
  have same : state.pool.files.filter (fun name => name ∈ SortedFile.names state.kv.sstables) =
      (state.pool.reopenAll (SortedFile.names state.kv.sstables)).files := by
    rw [Pool.reopenAll_files, Finset.filter_eq_self]
    intro name member
    rw [files] at member
    exact List.mem_toFinset.mp member
  have held : TableKV.held { state with kv := state.kv.openAll } =
      ↑(SortedFile.names state.kv.sstables) + state.held := by
    simp only [TableKV.held, KV.openAll, drained, main, free, inv.settled shut settled]
    simp [SortedFile.names]
  rw [same]
  constructor
  · exact inv.tree.frame (fun _ => rfl) rfl
  · refine ⟨fun closing => ?_, (fun opened => nomatch opened), fun _ => ?_, inv.names.distinct, inv.names.bounded,
      le_rfl, ?_⟩
    · exact absurd (settled.symm.trans closing) (by simp)
    · simp only [KV.named, KV.openAll, idle]
    · simp only [KV.PhaseNamed, KV.openAll, idle]
  · exact held ▸ opened
  · exact fun name gone => inv.retired name (Pool.reopenAll_retired gone)
  · exact fun version frozen drop reached => nomatch idle.symm.trans reached
  · exact fun opened => nomatch opened
  · exact fun busy => absurd idle busy
  · exact { inv.distinct with }

/-! ## Releases -/

/-- One reference is given back. -/
private theorem TableInv.letGo {name : ℕ} {releasing : List (List ℕ)} {dropping : List ℕ}
    (held : state.held = name ::ₘ TableKV.held ⟨state.kv, state.pool.release name, releasing, dropping⟩)
    (settled : state.releasing = [] → releasing = []) (mutex : state.dropping = [] → dropping = [])
    (lists : ∀ names ∈ releasing, names.Nodup) (list : dropping.Nodup) :
    TableInv ⟨state.kv, state.pool.release name, releasing, dropping⟩ where
  tree := inv.tree
  names := inv.names
  pool := by
    have less := inv.pool.release (held ▸ Multiset.mem_cons_self name _)
    rwa [held, Multiset.erase_cons_head] at less
  retired := fun other gone => inv.retired other (by rwa [Pool.release_retired] at gone)
  published := by
    intro version frozen drop reached
    obtain ⟨opened, free⟩ := inv.published version frozen drop reached
    rw [held, Multiset.mem_cons, not_or] at free
    exact ⟨by rwa [Pool.release_of_ne _ free.1], free.2⟩
  settled := fun shut closing => settled (inv.settled shut closing)
  mutex := fun busy => mutex (inv.mutex busy)
  distinct := ⟨inv.distinct.captured, lists, list⟩

end

private theorem flatten_set {lists : List (List ℕ)} {index name : ℕ} {rest : List ℕ}
    (found : lists[index]? = some (name :: rest)) : lists.flatten.Perm (name :: (lists.set index rest).flatten) := by
  induction lists generalizing index with
  | nil => simp at found
  | cons list lists ih =>
    cases index with
    | zero =>
      obtain rfl : list = name :: rest := by simpa using found
      exact .refl _
    | succ index =>
      have later := (ih (by simpa using found)).append_left list
      exact later.trans List.perm_middle

private theorem flatten_eraseIdx {lists : List (List ℕ)} {index : ℕ} (found : lists[index]? = some []) :
    (lists.eraseIdx index).flatten = lists.flatten := by
  induction lists generalizing index with
  | nil => rfl
  | cons list lists ih =>
    cases index with
    | zero =>
      obtain rfl : list = [] := by simpa using found
      rfl
    | succ index => simp [ih (by simpa using found)]

theorem TableInv.release (inv : TableInv state) {finishing : ℕ}
    (taken : state.step options (.release finishing) = some after) : TableInv after := by
  rw [step] at taken
  split at taken
  · contradiction
  · next done =>
    cases taken
    have held : TableKV.held { state with releasing := state.releasing.eraseIdx finishing } = state.held := by
      simp only [TableKV.held, flatten_eraseIdx done]
    refine ⟨inv.tree, inv.names, held.symm ▸ inv.pool, inv.retired, ?_, fun shut settled => ?_, inv.mutex, ?_⟩
    · rw [held]
      exact inv.published
    · simp only [inv.settled shut settled, List.eraseIdx_nil]
    · exact ⟨inv.distinct.captured, fun names member => inv.distinct.releasing names (List.mem_of_mem_eraseIdx member),
        inv.distinct.dropping⟩
  · next name rest found =>
    cases taken
    refine inv.letGo ?_ (fun none => by simp only [none, List.set_nil]) id (fun names member =>
      ?_) inv.distinct.dropping
    · have moved : (↑state.releasing.flatten : Multiset ℕ) = name ::ₘ ↑(state.releasing.set finishing rest).flatten :=
        Multiset.coe_eq_coe.mpr (flatten_set found)
      simp only [TableKV.held, moved, Multiset.add_cons, Multiset.cons_add]
    · rcases List.mem_or_eq_of_mem_set member with before | rfl
      · exact inv.distinct.releasing names before
      · exact (List.nodup_cons.mp (inv.distinct.releasing _ (List.mem_of_getElem? found))).2

theorem TableInv.drop (inv : TableInv state) (taken : state.step options .drop = some after) : TableInv after := by
  rw [step] at taken
  split at taken
  · contradiction
  · next name rest found =>
    cases taken
    have distinct := inv.distinct.dropping
    rw [found, List.nodup_cons] at distinct
    refine inv.letGo ?_ id (fun none => nomatch none.symm.trans found) inv.distinct.releasing distinct.2
    simp only [TableKV.held, found, ← Multiset.cons_coe, Multiset.add_cons]

/-! ## Runs -/

private theorem untrack_commit (kv : KV) (id : ℕ) (tx : KVTX) :
    { kv.untrack id tx with commit := kv.commit } = kv.untrack id tx := by
  rw [KV.untrack]
  split <;> rfl

/-- A nested transaction holds no references of its own. -/
theorem TableInv.untracked_inner (inv : TableInv state) {id : ℕ} (found : state.kv.txs[id]? = some tx)
    (inner : tx.target.isSome) : untracked state.kv id = [] := by
  refine if_neg fun member => ?_
  obtain ⟨names, top⟩ := inv.tree.top id member
  rw [KV.frame, found] at top
  rw [(Prod.mk.inj (Option.some.inj top)).1] at inner
  contradiction

theorem TableInv.kvStep (inv : TableInv state) {event : KVEvent} (faultless : event.faultless = true)
    (unblocked : state.waits event = false) (accepted : state.refused event = false)
    (taken : state.kv.step options event = some next) : TableInv (state.track next event) := by
  cases KV.step_cases taken with
  | newTX => exact inv.newTX
  | newInnerTX parent tx found => exact inv.newInnerTX (KV.idleTx_eq_some.mp found).2
  | setEx id tx key val mode found =>
    rcases KV.setEx_stages id tx key val mode with same | ⟨-, updates, same⟩
    · exact same ▸ inv
    · exact same ▸ inv.setTx (KV.idleTx_eq_some.mp found).2 updates
  | del id tx key found =>
    rcases KV.del_stages id tx key with same | ⟨-, updates, same⟩
    · exact same ▸ inv
    · exact same ▸ inv.setTx (KV.idleTx_eq_some.mp found).2 updates
  | abort id tx found top =>
    have done := inv.untrack (KV.idleTx_eq_some.mp found).2 state.kv.commit
    rwa [untrack_commit] at done
  | abortInner id tx found inner =>
    rw [track, inv.untracked_inner (KV.idleTx_eq_some.mp found).2 inner, List.append_nil]
    exact inv
  | commitInner id parent inner outer found nested enclosing =>
    rw [KV.applyInner]
    split
    · exact inv
    · exact inv.setTx (KV.idleTx_eq_some.mp enclosing).2 _
  | commitFinished id tx found top unusable => exact inv
  | beginCommit | checkCommit | writeLog | applyCommit =>
    exact inv.quiet ⟨rfl, rfl, rfl, rfl, rfl, rfl, rfl⟩ (fun _ => rfl) rfl
  | endCommit id tx result current =>
    obtain ⟨holds, found⟩ := KV.committing_eq_some.mp current
    rw [track, holds]
    exact inv.untrack found none
  | compactClosed idle closed => exact inv
  | startCompact idle =>
    have opened : state.kv.closed = false := by
      by_contra closed
      rw [Bool.not_eq_false] at closed
      simp only [KV.step, idle, closed, if_true, Option.some.injEq] at taken
      have changed := idle.symm.trans (congrArg KV.compaction taken)
      contradiction
    exact inv.startCompact idle opened (by simpa [waits] using unblocked) _
  | flush memSize started =>
    have busy : state.kv.compaction ≠ .idle := by simp [started]
    exact inv.rephase (inv.up busy) (inv.mutex busy) rfl (Nat.le_succ _) (by simp only [KV.named, started]) (by simp)
      ⟨Nat.lt_succ_of_le inv.names.numbered, le_rfl⟩
  | skipFlush memSize started => exact inv.choose (by simp [started]) (by simp [started]) state.kv.log
  | flushFailed => contradiction
  | publish version frozen drop flushing =>
    rw [track, flushing]
    exact inv.publish flushing
  | install version frozen drop published free =>
    rw [track, published]
    exact inv.install published
  | rewriteFailed => contradiction
  | rewriteLog installed => exact inv.choose (by simp [installed]) (by simp [installed]) _
  | skipMerge choosing =>
    have busy : state.kv.compaction ≠ .idle := by simp [choosing]
    exact inv.rephase (inv.up busy) (inv.mutex busy) rfl le_rfl (by simp only [KV.named, choosing]) (by simp) trivial
  | pickMerge level old1 old2 choosing first second =>
    have busy : state.kv.compaction ≠ .idle := by simp [choosing]
    exact inv.rephase (inv.up busy) (inv.mutex busy) rfl (Nat.le_succ _) (by simp only [KV.named, choosing]) (by simp)
      ⟨⟨Nat.lt_succ_of_le inv.names.numbered, le_rfl⟩, first, second⟩
  | mergeFailed => contradiction
  | installMerge version level old1 old2 drop merging =>
    rw [track, merging]
    exact inv.installMerge merging
  | closeAgain closed => exact inv
  | beginClose =>
    cases closed : state.kv.closed with
    | false => exact inv.beginClose closed
    | true =>
      simp only [KV.step, closed, if_true, Option.some.injEq] at taken
      exact taken ▸ inv
  | endClose idle closing drained =>
    have waited : state.dropping = [] ∧ state.releasing = [] := by simpa [waits] using unblocked
    exact inv.endClose idle closing drained waited.2 waited.1
  | openStore idle settled free =>
    exact inv.openStore (by simpa [refused] using accepted) settled (by simpa [waits] using unblocked)

theorem TableInv.step (inv : TableInv state) {event : Event} (taken : state.step options event = some after) :
    TableInv after := by
  cases event with
  | kv event =>
    rw [TableKV.step] at taken
    split at taken
    · contradiction
    · next allowed =>
      simp only [Bool.or_eq_true, Bool.not_eq_true', not_or, Bool.not_eq_true, Bool.not_eq_false] at allowed
      obtain ⟨next, moved, rfl⟩ := Option.map_eq_some_iff.mp taken
      exact inv.kvStep allowed.1.1 allowed.1.2 allowed.2 moved
  | release finishing => exact inv.release taken
  | drop => exact inv.drop taken

theorem tableInv_run {events : List Event} (run : run? (step options) empty events = some state) : TableInv state :=
  run?_invariant TableInv (fun inv taken => inv.step taken) tableInv_empty run

end Invariant

end TableKV

end PallasDB
