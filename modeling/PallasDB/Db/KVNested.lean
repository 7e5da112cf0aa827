import PallasDB.Db.KVConflict
import PallasDB.Db.TableTree
import PallasDB.Lib.NestedTx

/-! # Nested transactions of the store

The store next to the forest of transactions it stands for. A transaction reads what the forest shows it, through any
number of enclosing transactions, as long as inner commits keep tombstones apart. An inner commit into an unfinished
transaction does what the same writes would have done there, and everything that transaction commits contains them.
-/

namespace PallasDB

open SortedRun Transition NestedTx

theorem TxWrite.issue_writes (view : KVMap) (call : TxWrite) : issue view (call.writes view) = call.apply view := by
  rw [writes_eq, apply_eq]
  split <;> rfl

/-- The call that makes a write. -/
def directCall (write : KVSlot) : TxWrite :=
  match write.val with
  | some val => .set write.key val .upsert
  | none => .del write.key

theorem directCall_apply (view : KVMap) (write : KVSlot) :
    (directCall write).apply view = Function.update view write.key write.val := by
  obtain ⟨key, val⟩ := write
  cases val with
  | none => rfl
  | some val =>
    rw [directCall, TxWrite.apply]
    split
    · rfl
    · next same =>
      have shown : view key = some val := by simpa [KV.setExUpdates] using same
      rw [← shown, Function.update_eq_self]

abbrev TxForest := Forest Bytes Bytes

namespace KV

/-- The enclosing transaction an inner commit writes to; none if it returns an error. -/
def appliesTo (kv : KV) (id : ℕ) : Option ℕ := do
  let inner ← kv.idleTx id
  if inner.err.isSome then none else inner.target

/-- What a step of the store means for the forest. -/
def trackTree (kv : KV) (forest : TxForest) : KVEvent → TxForest
  | .newTX => forest.begin kv.closed
  | .newInnerTX parent => forest.nest parent
  | .setEx id key val mode =>
      if (kv.idleTx id).any fun tx => tx.err.isNone then
        forest.write id ((TxWrite.set key val mode).writes (forest.view id))
      else forest
  | .del id key =>
      if (kv.idleTx id).any fun tx => tx.err.isNone then
        forest.write id ((TxWrite.del key).writes (forest.view id))
      else forest
  | .abort id | .beginCommit id => forest.finish id
  | .commitInner id =>
      match kv.appliesTo id with
      | some parent => forest.merge id parent
      | none => forest
  | .applyCommit =>
      match kv.committing with
      | some (id, _, _) => forest.commit id
      | none => forest
  | _ => forest

def treeStep (options : KVOptions) (state : KV × TxForest) (event : KVEvent) : Option (KV × TxForest) :=
  (state.1.step options event).map fun next => (next, state.1.trackTree state.2 event)

/-- No transaction has begun. -/
def emptyForest (contents : KVMap) : TxForest := ⟨contents, [], [], []⟩

/-- An inner commit finds the enclosing transaction unfinished. -/
def intoUnfinished (kv : KV) (forest : TxForest) : KVEvent → Bool
  | .commitInner id =>
      match kv.appliesTo id with
      | some parent => !forest.finished parent
      | none => true
  | _ => true

/-- The calls that issue writes directly on a transaction. -/
def directly (id : ℕ) (writes : KVRun) : List KVEvent := writes.map fun write => (directCall write).event id

end KV

/-- The store is not shut. -/
def KVEvent.running : KVEvent → Bool
  | .endClose | .openStore => false
  | _ => true

namespace KV

/-! ## The relation between store and forest -/

/-- A transaction of the store and its node. -/
structure NodeOk (id : ℕ) (tx : KVTX) (node : Node Bytes Bytes) : Prop where
  target : tx.target = node.ancestors.head?
  older : ∀ other ∈ node.ancestors, other < id
  staged : ∀ key, lookup tx.updates key = lookup node.issued.reverse key
  levels : tx.err = none → ∃ captured, tx.levels = (id :: node.ancestors).map .updates ++ captured.map .source ∧
    visible (MergedSortedKV.runs captured) = node.base

structure NestedInv (kv : KV) (forest : TxForest) : Prop where
  sorted : SortedInv kv
  contents : kv.tables.contents = forest.contents
  size : forest.nodes.length = kv.txs.length
  nodes : ∀ id tx node, kv.txs[id]? = some tx → forest.nodes[id]? = some node → NodeOk id tx node
  committing : ∀ id phase, kv.commit = some ⟨id, phase⟩ → forest.finished id = true
  /-- An unfinished transaction that encloses a usable one is usable. -/
  alive : ∀ (id : ℕ) (tx : KVTX) (parent : ℕ), kv.txs[id]? = some tx → tx.err = none → tx.target = some parent →
    forest.finished parent = false → ∃ outer, kv.txs[parent]? = some outer ∧ outer.err = none

section Invariant

variable {options : KVOptions} {kv target : KV} {forest : TxForest}

section

variable (inv : NestedInv kv forest)

include inv

theorem NestedInv.node {id : ℕ} {tx : KVTX} (found : kv.txs[id]? = some tx) :
    ∃ node, forest.nodes[id]? = some node ∧ NodeOk id tx node := by
  have inside : id < forest.nodes.length := inv.size ▸ (List.getElem?_eq_some_iff.mp found).1
  exact ⟨_, List.getElem?_eq_getElem inside, inv.nodes id tx _ found (List.getElem?_eq_getElem inside)⟩

/-- The staged updates of every transaction are the writes issued on it. -/
theorem NestedInv.lookup_eq (id : ℕ) (key : Bytes) :
    lookup ((kv.txs[id]?.map KVTX.updates).getD []) key = lookup (forest.issued id).reverse key := by
  cases found : kv.txs[id]? with
  | none =>
    have outside : forest.nodes[id]? = none := by
      rw [List.getElem?_eq_none_iff, inv.size]
      exact List.getElem?_eq_none_iff.mp found
    rw [Forest.issued, outside]
    rfl
  | some tx =>
    obtain ⟨node, there, ok⟩ := inv.node found
    rw [Forest.issued, there]
    exact ok.staged key

theorem NestedInv.overlay_eq (id : ℕ) (base : KVMap) :
    overlay base ((kv.txs[id]?.map KVTX.updates).getD []) = issue base (forest.issued id) := by
  funext key
  rw [overlay, inv.lookup_eq, issue_apply]

/-- What a live transaction finds in its levels is its view. -/
theorem NestedInv.visible_eq {id : ℕ} {tx : KVTX} (found : kv.txs[id]? = some tx)
    (live : tx.err = none) : visible (MergedSortedKV.runs (kv.readLevels tx)) = forest.view id := by
  obtain ⟨node, there, ok⟩ := inv.node found
  obtain ⟨captured, levels, shows⟩ := ok.levels live
  have tail : (captured.map Level.source).map kv.resolve = captured := by
    rw [List.map_map]
    exact List.map_id captured
  have path (ids : List ℕ) : visible (MergedSortedKV.runs ((ids.map Level.updates).map kv.resolve ++ captured)) =
      ids.foldr (fun id map => issue map (forest.issued id)) node.base := by
    induction ids with
    | nil => exact shows
    | cons first rest ih =>
      rw [List.foldr_cons, ← ih, ← inv.overlay_eq first]
      exact visible_cons _ _
  rw [readLevels, levels, List.map_append, tail, path, Forest.view, there]

theorem NestedInv.reads {id : ℕ} {tx : KVTX} (found : kv.txs[id]? = some tx)
    (live : tx.err = none) : kv.Reads tx (forest.view id) :=
  reads_of_visible live (inv.sorted.levels_increasing found) (inv.visible_eq found live)

/-! ## Steps -/

/-- A step that changes no transaction, and of the forest at most which transactions are finished. -/
theorem NestedInv.frame (sorted : SortedInv target) {next : TxForest}
    (txs : target.txs = kv.txs) (contents : target.tables.contents = next.contents)
    (size : next.nodes.length = forest.nodes.length)
    (nodes : ∀ (id : ℕ) (node : Node Bytes Bytes), next.nodes[id]? = some node →
      ∃ finished, forest.nodes[id]? = some { node with finished := finished })
    (finished : ∀ id, forest.finished id = true → next.finished id = true)
    (committing : ∀ id phase, target.commit = some ⟨id, phase⟩ → next.finished id = true) : NestedInv target next where
  sorted := sorted
  contents := contents
  size := by rw [size, txs, inv.size]
  nodes id tx node found there := by
    obtain ⟨finished, before⟩ := nodes id node there
    have ok := inv.nodes id tx _ (txs ▸ found) before
    exact ⟨ok.target, ok.older, ok.staged, ok.levels⟩
  committing := committing
  alive id tx parent found live nested unfinished := by
    rw [txs] at found ⊢
    refine inv.alive id tx parent found live nested (Bool.eq_false_iff.mpr fun ended => ?_)
    rw [finished parent ended] at unfinished
    contradiction

end

theorem finish_nodes {id other : ℕ} {node : Node Bytes Bytes} (there : (forest.finish id).nodes[other]? = some node) :
    ∃ finished, forest.nodes[other]? = some { node with finished := finished } := by
  rw [Forest.finish, Forest.modify_nodes] at there
  split at there
  · obtain ⟨before, found, rfl⟩ := Option.map_eq_some_iff.mp there
    exact ⟨before.finished, found⟩
  · exact ⟨node.finished, there⟩

theorem finish_length (id : ℕ) : (forest.finish id).nodes.length = forest.nodes.length := by
  simp [Forest.finish, Forest.modify]

theorem finished_mono {id other : ℕ} (ended : forest.finished other = true) :
    (forest.finish id).finished other = true := by
  rw [Forest.finished_finish, ended]
  rfl

section

variable (inv : NestedInv kv forest)

include inv

/-- Only the store moves. -/
theorem NestedInv.quiet (sorted : SortedInv target) (txs : target.txs = kv.txs)
    (contents : target.tables.contents = kv.tables.contents)
    (committing : ∀ id phase, target.commit = some ⟨id, phase⟩ → forest.finished id = true) : NestedInv target forest :=
  inv.frame sorted txs (contents.trans inv.contents) rfl (fun _ node there => ⟨node.finished, there⟩)
    (fun _ ended => ended)
    committing

/-- `Commit` or `Abort` was called. -/
theorem NestedInv.finish (id : ℕ) : NestedInv kv (forest.finish id) :=
  inv.frame inv.sorted rfl inv.contents (finish_length id) (fun _ _ => finish_nodes) (fun _ => finished_mono)
    fun other phase holds => finished_mono (inv.committing other phase holds)

/-- A transaction leaves the list of ongoing ones. -/
theorem NestedInv.untrack {id : ℕ} {tx : KVTX} (found : kv.txs[id]? = some tx)
    (ended : forest.finished id = true) (sorted : SortedInv target) (txs : target.txs = (kv.untrack id tx).txs)
    (tables : target.tables = kv.tables)
    (committing : ∀ other phase, target.commit = some ⟨other, phase⟩ → forest.finished other = true) :
    NestedInv target forest := by
  by_cases tracked : id ∈ kv.ongoing
  · have inside := (List.getElem?_eq_some_iff.mp found).1
    rw [KV.untrack, if_pos tracked] at txs
    refine ⟨sorted, tables ▸ inv.contents, by rw [txs, List.length_set, inv.size],
      fun other current node read there => ?_, committing, fun other current parent read live nested unfinished => ?_⟩
    · rw [txs] at read
      rcases (getElem?_changed inside).mp read with ⟨rfl, rfl⟩ | ⟨-, old⟩
      · have ok := inv.nodes other tx node found there
        exact ⟨ok.target, ok.older, ok.staged, by simp⟩
      · exact inv.nodes other current node old there
    · rw [txs] at read ⊢
      rcases (getElem?_changed inside).mp read with ⟨rfl, rfl⟩ | ⟨-, old⟩
      · contradiction
      · obtain ⟨outer, there, usable⟩ := inv.alive other current parent old live nested unfinished
        have apart : parent ≠ id := by
          rintro rfl
          rw [ended] at unfinished
          contradiction
        exact ⟨outer, (getElem?_changed inside).mpr (.inr ⟨apart, there⟩), usable⟩
  · rw [KV.untrack, if_neg tracked] at txs
    exact inv.quiet sorted txs (by rw [tables]) committing

/-- A transaction stages writes. -/
theorem NestedInv.stage {id : ℕ} {tx : KVTX} (found : kv.txs[id]? = some tx)
    {updates : SortedArray} (sorted : SortedInv (kv.setTx id { tx with updates := updates })) {writes : KVRun}
    (staged : ∀ key, lookup updates key = (lookup writes.reverse key).or (lookup tx.updates key)) :
    NestedInv (kv.setTx id { tx with updates := updates }) (forest.write id writes) := by
  have inside := (List.getElem?_eq_some_iff.mp found).1
  refine ⟨sorted, inv.contents, by simpa [setTx, Forest.write, Forest.modify] using inv.size,
    fun other current node read there => ?_, fun other phase holds => ?_,
    fun other current parent read live nested unfinished => ?_⟩
  · rw [Forest.write, Forest.modify_nodes] at there
    rcases (getElem?_changed inside).mp read with ⟨rfl, rfl⟩ | ⟨apart, old⟩
    · rw [if_pos rfl] at there
      obtain ⟨before, known, rfl⟩ := Option.map_eq_some_iff.mp there
      have ok := inv.nodes other tx before found known
      refine ⟨ok.target, ok.older, fun key => ?_, ok.levels⟩
      rw [List.reverse_append, lookup_append, ← ok.staged]
      exact staged key
    · rw [if_neg (Ne.symm apart)] at there
      exact inv.nodes other current node old there
  · rw [Forest.finished_write]
    exact inv.committing other phase holds
  · rw [Forest.finished_write] at unfinished
    obtain ⟨old, before, same, same'⟩ : ∃ old : KVTX, kv.txs[other]? = some old ∧ old.err = current.err ∧
        old.target = current.target := by
      rcases (getElem?_changed inside).mp read with ⟨rfl, rfl⟩ | ⟨-, old⟩
      · exact ⟨tx, found, rfl, rfl⟩
      · exact ⟨current, old, rfl, rfl⟩
    obtain ⟨outer, there, usable⟩ := inv.alive other old parent before (same.trans live) (same'.trans nested) unfinished
    by_cases own : parent = id
    · subst own
      rw [found] at there
      cases there
      exact ⟨_, (getElem?_changed inside).mpr (.inl ⟨rfl, rfl⟩), usable⟩
    · exact ⟨outer, (getElem?_changed inside).mpr (.inr ⟨own, there⟩), usable⟩

/-- A new transaction. -/
theorem NestedInv.append {tx : KVTX} {node : Node Bytes Bytes} {ongoing : List ℕ}
    (sorted : SortedInv { kv with txs := kv.txs ++ [tx], ongoing := ongoing }) (empty : node.issued = [])
    (ok : NodeOk kv.txs.length tx node)
    (alive : ∀ parent, tx.err = none → tx.target = some parent → ∃ outer, kv.txs[parent]? = some outer ∧
      outer.err = none) :
    NestedInv { kv with txs := kv.txs ++ [tx], ongoing := ongoing } (forest.add node) := by
  have grows := Forest.grows_add forest empty
  refine ⟨sorted, inv.contents, by simp [Forest.add, inv.size], fun other current known read there => ?_,
    fun other phase holds => grows.finished other (inv.committing other phase holds),
    fun other current parent read live nested unfinished => ?_⟩
  · rw [Forest.add_nodes, inv.size] at there
    rcases getElem?_added.mp read with old | ⟨rfl, rfl⟩
    · rw [if_neg (Nat.ne_of_lt (List.getElem?_eq_some_iff.mp old).1)] at there
      exact inv.nodes other current known old there
    · rw [if_pos rfl] at there
      cases there
      exact ok
  · obtain ⟨outer, there, usable⟩ : ∃ outer, kv.txs[parent]? = some outer ∧ outer.err = none := by
      rcases getElem?_added.mp read with old | ⟨rfl, rfl⟩
      · refine inv.alive other current parent old live nested (Bool.eq_false_iff.mpr fun ended => ?_)
        rw [grows.finished parent ended] at unfinished
        contradiction
      · exact alive parent live nested
    exact ⟨outer, getElem?_added.mpr (.inl there), usable⟩

theorem NestedInv.newTX (sorted : SortedInv kv.newTX) : NestedInv kv.newTX (forest.begin kv.closed) := by
  rw [KV.newTX] at sorted ⊢
  split at sorted
  · next closed =>
    rw [if_pos closed]
    exact inv.append sorted rfl ⟨rfl, by simp, fun _ => rfl, by simp⟩ (by simp)
  · next opened =>
    rw [if_neg opened]
    refine inv.append sorted rfl ⟨rfl, by simp, fun _ => rfl, fun _ => ⟨kv.tables.levels, rfl, ?_⟩⟩ (by simp)
    exact inv.contents

theorem NestedInv.newInnerTX {parent : ℕ} {tx : KVTX} (found : kv.txs[parent]? = some tx)
    (sorted : SortedInv (kv.newInnerTX parent tx)) : NestedInv (kv.newInnerTX parent tx) (forest.nest parent) := by
  obtain ⟨node, there, ok⟩ := inv.node found
  have inside := (List.getElem?_eq_some_iff.mp found).1
  rw [Forest.nest, there]
  refine inv.append sorted rfl ⟨rfl, fun other member => ?_, fun _ => rfl, fun live => ?_⟩ fun other live same => ?_
  · rcases List.mem_cons.mp member with rfl | above
    · exact inside
    · exact (ok.older other above).trans inside
  · obtain ⟨captured, levels, shows⟩ := ok.levels live
    exact ⟨captured, by simp [levels], shows⟩
  · cases same
    exact ⟨tx, found, live⟩

end

theorem trackTree_call {id : ℕ} {tx : KVTX} (found : kv.idleTx id = some tx) (write : TxWrite) :
    kv.trackTree forest (write.event id) =
      if tx.err.isNone then forest.write id (write.writes (forest.view id)) else forest := by
  cases write <;> simp [TxWrite.event, trackTree, found]

theorem NestedInv.called (inv : NestedInv kv forest) {id : ℕ} {tx : KVTX} (found : kv.idleTx id = some tx)
    (write : TxWrite) (sorted : SortedInv (kv.call id tx write)) :
    NestedInv (kv.call id tx write) (kv.trackTree forest (write.event id)) := by
  have there := (idleTx_eq_some.mp found).2
  rw [trackTree_call found]
  cases live : tx.err with
  | some err =>
    rw [call_finished live]
    exact inv
  | none =>
    obtain ⟨rest, -, shows⟩ := inv.sorted.visible_own there live
    have reads := inv.reads there live
    rw [← inv.visible_eq there live, shows] at reads ⊢
    rw [call_eq there reads] at sorted ⊢
    refine inv.stage there sorted fun key => ?_
    rw [TxWrite.lookup_stage (inv.sorted.txs id tx there).updates, TxWrite.writes_eq]
    split <;> rfl

theorem appliesTo_eq_some {id parent : ℕ} : kv.appliesTo id = some parent ↔
    ∃ inner, kv.idleTx id = some inner ∧ inner.err = none ∧ inner.target = some parent := by
  simp only [appliesTo, Option.bind_eq_bind, Option.bind_eq_some_iff]
  constructor
  · rintro ⟨inner, found, applies⟩
    split at applies
    · contradiction
    · next usable => exact ⟨inner, found, by simpa using usable, applies⟩
  · rintro ⟨inner, found, live, nested⟩
    exact ⟨inner, found, by rw [live]; exact nested⟩

theorem NestedInv.applyInner (inv : NestedInv kv forest) {id parent : ℕ} {inner outer : KVTX}
    (found : kv.idleTx id = some inner) (nested : inner.target = some parent)
    (enclosing : kv.idleTx parent = some outer)
    (keeps : kv.keepsRuns (.commitInner id) = true) (sorted : SortedInv (kv.applyInner inner parent outer)) :
    NestedInv (kv.applyInner inner parent outer) (kv.trackTree forest (.commitInner id)) := by
  have there := (idleTx_eq_some.mp found).2
  have above := (idleTx_eq_some.mp enclosing).2
  cases live : inner.err with
  | some err =>
    have silent : kv.appliesTo id = none := by simp [appliesTo, found, live]
    simp only [KV.applyInner, live, trackTree, silent]
    exact inv
  | none =>
    have applies := appliesTo_eq_some.mpr ⟨inner, found, live, nested⟩
    have apart : tombstonesApart inner.updates outer.updates = true := by
      simpa [keepsRuns, found, nested, enclosing, live] using keeps
    obtain ⟨-, replayed⟩ := foldl_applySlot (inv.sorted.txs id inner there).updates
      (inv.sorted.txs parent outer above).updates apart
    simp only [KV.applyInner, live, trackTree, applies] at sorted ⊢
    have staged : NestedInv (kv.setTx parent _) (forest.write parent (forest.issued id)) :=
      inv.stage above sorted fun key => by
        rw [replayed, ← inv.lookup_eq id key, there]
        rfl
    have finished := staged.finish id
    exact ⟨sorted, finished.contents, finished.size, finished.nodes, finished.committing, finished.alive⟩

theorem NestedInv.applyCommit (inv : NestedInv kv forest) {id : ℕ} {tx : KVTX}
    (current : kv.committing = some (id, tx, .logged)) (sorted : SortedInv (kv.applyCommit id tx)) :
    NestedInv (kv.applyCommit id tx) (kv.trackTree forest .applyCommit) := by
  obtain ⟨held, found⟩ := committing_eq_some.mp current
  simp only [trackTree, current]
  refine ⟨sorted, ?_, inv.size, inv.nodes, fun other phase holds => ?_, inv.alive⟩
  · change (kv.tables.apply tx.updates).contents = issue forest.contents (forest.issued id)
    rw [Tables.contents_apply inv.sorted.tables (inv.sorted.txs id tx found).updates, inv.contents, ← inv.overlay_eq,
      found]
    rfl
  · obtain ⟨rfl, -⟩ : id = other ∧ _ := by simpa [KV.applyCommit] using holds
    exact inv.committing id .logged held

/-- Every step of a store that is not shut keeps it in line with its forest. -/
theorem NestedInv.step (inv : NestedInv kv forest) {event : KVEvent} (running : event.running = true)
    (keeps : kv.keepsRuns event = true) (taken : kv.step options event = some target) :
    NestedInv target (kv.trackTree forest event) := by
  have sorted := inv.sorted.step keeps taken
  by_cases compacts : event.compacts = true
  · obtain ⟨txs, closed, contents⟩ := inv.sorted.compact_frame compacts taken
    have same : kv.trackTree forest event = forest := by
      cases event <;> first | rfl | simp [KVEvent.compacts] at compacts
    rw [same]
    refine inv.quiet sorted txs contents ?_
    rw [(compact_sameTracking compacts taken).commit]
    exact inv.committing
  cases step_cases taken with
  | newTX => exact inv.newTX sorted
  | newInnerTX parent tx found => exact inv.newInnerTX (idleTx_eq_some.mp found).2 sorted
  | setEx id tx key val mode found => exact inv.called found (.set key val mode) sorted
  | del id tx key found => exact inv.called found (.del key) sorted
  | abort id tx found top =>
    have there := (idleTx_eq_some.mp found).2
    refine (inv.finish id).untrack there ?_ sorted rfl (untrack_tables id tx) ?_
    · simp [Forest.finished_finish, inv.size, (List.getElem?_eq_some_iff.mp there).1]
    · rw [untrack_commit]
      exact (inv.finish id).committing
  | abortInner id tx found inner => exact inv.finish id
  | commitInner id parent inner outer found nested enclosing => exact inv.applyInner found nested enclosing keeps sorted
  | commitFinished id tx found top unusable => exact inv.finish id
  | beginCommit id tx found top live free noInstall =>
    have there := (idleTx_eq_some.mp found).2
    refine (inv.finish id).quiet sorted rfl rfl fun other phase holds => ?_
    obtain ⟨rfl, -⟩ : id = other ∧ _ := by simpa [setPhase] using holds
    simp [Forest.finished_finish, inv.size, (List.getElem?_eq_some_iff.mp there).1]
  | checkCommit id tx phase current | writeLog id tx ioError log phase current =>
    refine inv.quiet sorted rfl rfl fun other _ holds => ?_
    obtain ⟨rfl, -⟩ : id = other ∧ _ := by simpa [setPhase] using holds
    exact inv.committing id _ (committing_eq_some.mp current).1
  | applyCommit id tx current => exact inv.applyCommit current sorted
  | endCommit id tx result current =>
    obtain ⟨held, found⟩ := committing_eq_some.mp current
    exact inv.untrack found (inv.committing id _ held) sorted rfl (untrack_tables id tx) (by simp)
  | closeAgain closed => exact inv
  | beginClose => exact inv.quiet sorted rfl rfl inv.committing
  | endClose | openStore => simp [KVEvent.running] at running
  | _ => simp [KVEvent.compacts] at compacts

/-! ## Nothing is lost -/

/-- Inner commits into unfinished transactions carry their writes along. -/
theorem NestedInv.carried (inv : NestedInv kv forest) (carried : forest.Carried) {event : KVEvent}
    (into : kv.intoUnfinished forest event = true) (taken : kv.step options event = some target) :
    (kv.trackTree forest event).Carried := by
  have inside {id : ℕ} {tx : KVTX} (found : kv.idleTx id = some tx) : id < forest.nodes.length :=
    inv.size ▸ (List.getElem?_eq_some_iff.mp (idleTx_eq_some.mp found).2).1
  cases step_cases taken with
  | newTX => exact carried.grow (forest.grows_add rfl) rfl rfl
  | newInnerTX parent tx found =>
    obtain ⟨node, there, -⟩ := inv.node (idleTx_eq_some.mp found).2
    simp only [trackTree, Forest.nest, there]
    exact carried.grow (forest.grows_add rfl) rfl rfl
  | setEx id tx _ _ _ found | del id tx _ found =>
    rw [trackTree]
    split
    · exact carried.grow (forest.grows_write (inside found) _) rfl rfl
    · exact carried
  | abort id | abortInner id | commitFinished id | beginCommit id =>
    exact carried.grow (forest.grows_finish id) rfl rfl
  | commitInner id parent inner outer found nested enclosing =>
    rw [trackTree]
    split
    · next other applies =>
      obtain ⟨same, read, -, target⟩ := appliesTo_eq_some.mp applies
      obtain rfl : inner = same := Option.some.inj (found.symm.trans read)
      obtain rfl : parent = other := Option.some.inj (nested.symm.trans target)
      rw [intoUnfinished, applies] at into
      exact carried.merge (inside found) (inside enclosing) (by simpa using into)
    · exact carried
  | applyCommit id tx current =>
    simp only [trackTree, current]
    exact carried.commit (inv.committing id .logged (committing_eq_some.mp current).1)
  | _ => exact carried

/-- The contents are the committed writes, in order. -/
def Persisted (initial : KVMap) (forest : TxForest) : Prop :=
  forest.contents = forest.commits.foldl (fun map commit => issue map commit.writes) initial

theorem Persisted.track {initial : KVMap} (persisted : Persisted initial forest) (kv : KV)
    (event : KVEvent) : Persisted initial (kv.trackTree forest event) := by
  cases event with
  | newInnerTX parent =>
    rw [trackTree, Forest.nest]
    split <;> exact persisted
  | setEx | del | commitInner =>
    rw [trackTree]
    split <;> exact persisted
  | applyCommit =>
    rw [trackTree]
    split
    · rw [Persisted, Forest.commit, List.foldl_append, ← persisted]
      rfl
    · exact persisted
  | _ => exact persisted

/-! ## Writing to the enclosing transaction instead -/

theorem idleTx_setTx {id : ℕ} {tx : KVTX} (found : kv.idleTx id = some tx) (new : KVTX) :
    (kv.setTx id new).idleTx id = some new := by
  obtain ⟨idle, there⟩ := idleTx_eq_some.mp found
  refine idleTx_eq_some.mpr ⟨idle, ?_⟩
  simp [setTx, (List.getElem?_eq_some_iff.mp there).1]

/-- A call on a usable transaction. -/
theorem NestedInv.call (options : KVOptions) (inv : NestedInv kv forest) {id : ℕ} {tx : KVTX}
    (found : kv.idleTx id = some tx)
    (live : tx.err = none) (call : TxWrite) : ∃ next current, kv.step options (call.event id) = some next ∧
      NestedInv next (forest.write id (call.writes (forest.view id))) ∧ next.idleTx id = some current ∧
        current.err = none := by
  have there := (idleTx_eq_some.mp found).2
  have taken := step_call options found call
  have after := inv.called found call (inv.sorted.step (by cases call <;> rfl) taken)
  obtain ⟨rest, -, shows⟩ := inv.sorted.visible_own there live
  have reads := reads_of_visible live (inv.sorted.levels_increasing there) shows
  rw [trackTree_call found, live, Option.isNone_none, if_pos rfl] at after
  rw [call_eq there reads] at taken after
  exact ⟨_, _, taken, after, idleTx_setTx found _, live⟩

/-- Issuing writes directly on a usable transaction. -/
theorem NestedInv.directly (options : KVOptions) (inv : NestedInv kv forest) {id : ℕ} {tx : KVTX}
    (found : kv.idleTx id = some tx) (live : tx.err = none) (writes : KVRun) : ∃ next current,
      run? (KV.step options) kv (KV.directly id writes) = some next ∧ next.txs[id]? = some current ∧
        next.Reads current (issue (forest.view id) writes) := by
  induction writes generalizing kv forest tx with
  | nil =>
    have there := (idleTx_eq_some.mp found).2
    exact ⟨kv, tx, rfl, there, inv.reads there live⟩
  | cons write rest ih =>
    obtain ⟨next, current, taken, after, idle, usable⟩ := inv.call options found live (directCall write)
    obtain ⟨node, there, ok⟩ := inv.node (idleTx_eq_some.mp found).2
    have view := Forest.view_write there (fun member => Nat.lt_irrefl _ (ok.older id member))
      ((directCall write).writes (forest.view id))
    rw [TxWrite.issue_writes, directCall_apply] at view
    obtain ⟨last, final, run, reached, reads⟩ := ih after idle usable
    rw [view] at reads
    exact ⟨last, final, run?_cons_eq_some.mpr ⟨next, taken, run⟩, reached, reads⟩

end Invariant

/-- What nested transactions do in a state of the store. -/
structure NestedOk (options : KVOptions) (initial : KVMap) (kv : KV) (forest : TxForest) : Prop where
  /-- Under an unfinished top-level transaction. -/
  reads : ∀ root ∈ kv.ongoing, ∀ (id : ℕ) (tx : KVTX), kv.Under root id → kv.txs[id]? = some tx → tx.err = none →
    kv.Reads tx (forest.view id)
  aborts : ∀ (id : ℕ) (inner : KVTX) (next : KV), kv.idleTx id = some inner → inner.target.isSome →
    kv.step options (.abort id) = some next → next = kv
  /-- An inner commit that returns no error leaves the enclosing transaction reading what it would read if the same
  writes had been made there. -/
  commits : ∀ (id parent : ℕ) (next : KV), kv.appliesTo id = some parent → forest.finished parent = false →
    kv.keepsRuns (.commitInner id) = true → kv.step options (.commitInner id) = some next →
    ∃ outer direct other, next.txs[parent]? = some outer ∧
      next.Reads outer (issue (forest.view parent) (forest.issued id)) ∧
      run? (step options) kv (directly parent (forest.issued id)) = some direct ∧ direct.txs[parent]? = some other ∧
      direct.Reads other (issue (forest.view parent) (forest.issued id))
  persisted : kv.tables.contents = forest.commits.foldl (fun map commit => issue map commit.writes) initial
  /-- What a transaction commits contains what was committed into it. -/
  carried : forest.Carried

/-- An inner commit into an unfinished transaction. -/
theorem NestedInv.commitInner {options : KVOptions} {kv next : KV} {forest : TxForest} (inv : NestedInv kv forest)
    {id parent : ℕ} (applies : kv.appliesTo id = some parent) (unfinished : forest.finished parent = false)
    (keeps : kv.keepsRuns (.commitInner id) = true) (taken : kv.step options (.commitInner id) = some next) :
    ∃ outer after, kv.idleTx parent = some outer ∧ outer.err = none ∧ next.txs[parent]? = some after ∧
      next.Reads after (issue (forest.view parent) (forest.issued id)) := by
  have related := inv.step rfl keeps taken
  obtain ⟨inner, found, live, nested⟩ := appliesTo_eq_some.mp applies
  obtain ⟨outer, there, usable⟩ := inv.alive id inner parent (idleTx_eq_some.mp found).2 live nested unfinished
  obtain ⟨node, known, ok⟩ := inv.node there
  have view := Forest.view_merge known (fun member => Nat.lt_irrefl _ (ok.older parent member)) id
  simp only [trackTree, applies] at related
  rw [← view]
  cases step_cases taken with
  | commitInner _ _ same current read target enclosing =>
    obtain rfl : inner = same := Option.some.inj (found.symm.trans read)
    obtain rfl := Option.some.inj (nested.symm.trans target)
    obtain rfl : outer = current := Option.some.inj (there.symm.trans (idleTx_eq_some.mp enclosing).2)
    rw [KV.applyInner, live] at related ⊢
    have written := (idleTx_eq_some.mp (idleTx_setTx enclosing
      { outer with updates := inner.updates.foldl applySlot outer.updates })).2
    exact ⟨outer, _, enclosing, usable, written, related.reads written usable⟩

section Runs

variable (options : KVOptions) (log : List KVSlot) (version : ℕ) (sstables : List SortedFile)

/-- A store just opened, in which no transaction has begun. -/
def openedTree : KV × TxForest := (opened log version sstables,
    emptyForest (opened log version sstables).tables.contents)

/-- In every run whose inner commits find the enclosing transaction unfinished and keep tombstones apart. -/
theorem nested_transactions (increasing : ∀ file ∈ sstables, Increasing file.slots) (events : List KVEvent)
    (running : ∀ event ∈ events, event.running = true)
    (meets : Meets (treeStep options) (fun state event => state.1.keepsRuns event = true ∧
      state.1.intoUnfinished state.2 event = true) (openedTree log version sstables) events)
    (kv : KV) (forest : TxForest) (run : run? (treeStep options)
      (openedTree log version sstables) events = some (kv, forest)) :
    NestedOk options (opened log version sstables).tables.contents kv forest := by
  let initial := (opened log version sstables).tables.contents
  have fresh : NestedInv (opened log version sstables) (emptyForest initial) :=
    ⟨(snapshotInv_opened increasing).sorted, rfl, rfl, by simp [opened, openAll, empty],
      by simp [opened, openAll, empty], by simp [opened, openAll, empty]⟩
  have nothing : (emptyForest initial).Carried := by constructor <;> simp [emptyForest]
  have initially : NestedInv (openedTree log version sstables).1 (openedTree log version sstables).2 ∧
      (openedTree log version sstables).2.Carried ∧ Persisted initial (openedTree log version sstables).2 :=
    ⟨fresh, nothing, rfl⟩
  obtain ⟨inv, carried, persisted⟩ := run?_invariant_of_meets
    (fun state : KV × TxForest => NestedInv state.1 state.2 ∧ state.2.Carried ∧ Persisted initial state.2)
    (fun {source event target} before allowed taken => by
      obtain ⟨inv, carried, persisted⟩ := before
      obtain ⟨running, keeps, into⟩ := allowed
      obtain ⟨next, moved, rfl⟩ := Option.map_eq_some_iff.mp taken
      exact ⟨inv.step running keeps moved, inv.carried carried into moved, persisted.track source.1 event⟩)
    initially ((meets_of_forall running _).and meets) run
  constructor
  · exact fun root member id tx under found live => inv.reads found live
  · intro id inner next found nested taken
    rw [KV.step, found, Option.map_some, if_neg (by simpa [Option.isSome_iff_ne_none] using nested)] at taken
    exact (Option.some.inj taken).symm
  · intro id parent next applies unfinished keeps taken
    obtain ⟨outer, after, enclosing, usable, written, reads⟩ := inv.commitInner applies unfinished keeps taken
    obtain ⟨direct, other, ran, there, same⟩ := inv.directly options enclosing usable (forest.issued id)
    exact ⟨after, direct, other, written, reads, ran, there, same⟩
  · exact inv.contents.trans persisted
  · exact carried

end Runs

/-- Two levels of nesting, committed from the inside out. -/
def insideOut : List KVEvent :=
  [.newTX, .setEx 0 [1] [7] .upsert, .newInnerTX 0, .del 1 [1], .newInnerTX 1, .setEx 2 [2] [8] .insert, .commitInner 2,
    .abort 2, .commitInner 1, .beginCommit 0, .checkCommit, .writeLog none, .applyCommit, .endCommit]

theorem nested_transactions_insideOut : (run? (treeStep .eager) (openedTree [] 0 []) insideOut).isSome ∧
    ∀ kv forest, run? (treeStep .eager) (openedTree [] 0 []) insideOut = some (kv, forest) →
      NestedOk .eager (opened [] 0 []).tables.contents kv forest :=
  ⟨by decide +kernel, fun kv forest run =>
    nested_transactions .eager [] 0 [] (by simp) insideOut (by decide) (by decide +kernel) kv forest run⟩

/-- A transaction writes inside another one, which then commits. -/
def parentFirst : List KVEvent :=
  [.newTX, .setEx 0 [1] [7] .upsert, .newInnerTX 0, .setEx 1 [2] [8] .upsert, .beginCommit 0, .checkCommit,
    .writeLog none, .applyCommit, .endCommit]

/-- The inner commit returns no error, and its write is nowhere. -/
theorem parentFirst_loses : ∃ kv next outer, run? (step .eager) empty parentFirst = some kv ∧ kv.appliesTo 1 = some 0 ∧
    kv.step .eager (.commitInner 1) = some next ∧ next.txs[0]? = some outer ∧ next.get outer [2] = .error .txDone ∧
    next.tables.contents [1] = some [7] ∧ next.tables.contents [2] = none := by
  refine ⟨_, _, _, rfl, rfl, rfl, rfl, rfl, ?_, ?_⟩ <;> decide +kernel

-- A key deleted twice on the way up and then written again is deleted by the last inner commit.
example : (run? (step .eager) empty [.newTX, .setEx 0 [1] [7] .upsert, .newInnerTX 0, .del 1 [1], .newInnerTX 1,
    .setEx 2 [1] [8] .upsert, .del 2 [1], .commitInner 2, .setEx 1 [1] [9] .upsert, .commitInner 1]).map
      (fun kv => kv.txs.map KVTX.updates) =
    some [[⟨[1], none⟩], [⟨[1], some [9]⟩, ⟨[1], none⟩], [⟨[1], none⟩]] := by decide +kernel

end KV

end PallasDB
