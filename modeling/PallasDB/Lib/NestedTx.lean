import PallasDB.Lib.SortedRun
import Mathlib.Data.List.Infix

/-! # Nested transactions

The purpose of nested transactions, told by the writes they issue. A transaction sees the writes issued on it over what
the enclosing one sees, and a top-level one sees its own over the contents of the moment it began. An inner commit
issues the writes of the inner transaction on the enclosing one, a top-level commit issues them on the contents.

Nothing is lost if every inner commit finds the enclosing transaction unfinished: whatever that one commits later
contains the writes of the inner one.
-/

namespace NestedTx

open SortedRun

variable {K V : Type*} [LinearOrder K]

/-- A map after some writes. -/
def issue (map : K → Option V) (writes : Run K V) : K → Option V :=
  writes.foldl (fun map write => Function.update map write.key write.val) map

theorem issue_append (map : K → Option V) (first second : Run K V) :
    issue map (first ++ second) = issue (issue map first) second := List.foldl_append

/-- The last write of a key decides. -/
theorem issue_apply (map : K → Option V) (writes : Run K V) (key : K) :
    issue map writes key = (lookup writes.reverse key).getD (map key) := by
  induction writes using List.reverseRecOn with
  | nil => rfl
  | append_singleton writes write ih =>
    rw [issue_append, List.reverse_append, List.reverse_singleton, List.singleton_append, lookup_cons]
    change Function.update (issue map writes) write.key write.val key = _
    rw [Function.update_apply, ih]
    by_cases same : key = write.key
    · simp [same]
    · simp [same, Ne.symm same]

structure Node (K V : Type*) where
  /-- The enclosing transactions, innermost first. -/
  ancestors : List ℕ
  /-- The contents when its top-level transaction began. -/
  base : K → Option V
  /-- How many commits had taken effect by then. -/
  start : ℕ
  /-- The writes issued on it, those of inner commits included. -/
  issued : Run K V
  /-- Its `Commit` or `Abort` was called. -/
  finished : Bool

/-- An inner commit. -/
structure Merge (K V : Type*) where
  child : ℕ
  parent : ℕ
  writes : Run K V

/-- A commit of a top-level transaction. -/
structure Commit (K V : Type*) where
  tx : ℕ
  writes : Run K V

structure Forest (K V : Type*) where
  contents : K → Option V
  nodes : List (Node K V)
  merges : List (Merge K V)
  commits : List (Commit K V)

variable {node : Node K V}

namespace Forest

def issued (forest : Forest K V) (id : ℕ) : Run K V := (forest.nodes[id]?.map Node.issued).getD []

def finished (forest : Forest K V) (id : ℕ) : Bool := (forest.nodes[id]?.map Node.finished).getD false

/-- What a transaction sees. -/
def view (forest : Forest K V) (id : ℕ) : K → Option V :=
  match forest.nodes[id]? with
  | none => fun _ => none
  | some node => (id :: node.ancestors).foldr (fun id map => issue map (forest.issued id)) node.base

def add (forest : Forest K V) (node : Node K V) : Forest K V := { forest with nodes := forest.nodes ++ [node] }

def modify (forest : Forest K V) (id : ℕ) (edit : Node K V → Node K V) : Forest K V :=
  { forest with nodes := forest.nodes.modify id edit }

/-- A top-level transaction begins, or is refused. -/
def begin (forest : Forest K V) (refused : Bool) : Forest K V :=
  forest.add ⟨[], forest.contents, forest.commits.length, [], refused⟩

/-- A transaction begins inside another one. -/
def nest (forest : Forest K V) (parent : ℕ) : Forest K V :=
  match forest.nodes[parent]? with
  | none => forest
  | some node => forest.add ⟨parent :: node.ancestors, node.base, node.start, [], false⟩

def write (forest : Forest K V) (id : ℕ) (writes : Run K V) : Forest K V :=
  forest.modify id fun node => { node with issued := node.issued ++ writes }

def finish (forest : Forest K V) (id : ℕ) : Forest K V :=
  forest.modify id fun node => { node with finished := true }

/-- An inner commit issues the writes on the enclosing transaction. -/
def merge (forest : Forest K V) (child parent : ℕ) : Forest K V :=
  { (forest.write parent (forest.issued child)).finish child with
    merges := forest.merges ++ [⟨child, parent, forest.issued child⟩] }

/-- A top-level commit issues the writes on the contents. -/
def commit (forest : Forest K V) (id : ℕ) : Forest K V :=
  { forest with
    contents := issue forest.contents (forest.issued id)
    commits := forest.commits ++ [⟨id, forest.issued id⟩] }

section Edits

variable {forest : Forest K V}

omit [LinearOrder K]

theorem modify_nodes (forest : Forest K V) (id : ℕ) (edit : Node K V → Node K V) (other : ℕ) :
    (forest.modify id edit).nodes[other]? =
      if id = other then forest.nodes[other]?.map edit else forest.nodes[other]? := by
  rw [modify, List.getElem?_modify]
  split
  · rfl
  · exact Option.map_id'

theorem add_nodes (forest : Forest K V) (node : Node K V) (id : ℕ) :
    (forest.add node).nodes[id]? = if id = forest.nodes.length then some node else forest.nodes[id]? := by
  rw [add]
  split
  · next last =>
    subst last
    simp
  · next other =>
    rcases Nat.lt_or_ge id forest.nodes.length with inside | outside
    · rw [List.getElem?_append_left inside]
    · rw [List.getElem?_eq_none (by simp; omega), List.getElem?_eq_none outside]

theorem issued_add (forest : Forest K V) (none : node.issued = []) (id : ℕ) :
    (forest.add node).issued id = forest.issued id := by
  rw [issued, issued, add_nodes]
  split
  · next last =>
    rw [List.getElem?_eq_none (Nat.le_of_eq last.symm)]
    simp [none]
  · rfl

theorem issued_write (forest : Forest K V) (id : ℕ) (writes : Run K V) (other : ℕ) (inside : id < forest.nodes.length) :
    (forest.write id writes).issued other =
      if id = other then forest.issued id ++ writes else forest.issued other := by
  rw [issued, write, modify_nodes]
  split
  · next same =>
    subst same
    rw [issued, List.getElem?_eq_getElem inside]
    rfl
  · rfl

theorem finished_write (forest : Forest K V) (id : ℕ) (writes : Run K V) (other : ℕ) :
    (forest.write id writes).finished other = forest.finished other := by
  rw [finished, finished, write, modify_nodes]
  split
  · rw [Option.map_map]
    rfl
  · rfl

theorem issued_finish (forest : Forest K V) (id other : ℕ) : (forest.finish id).issued other = forest.issued other := by
  rw [issued, issued, finish, modify_nodes]
  split
  · rw [Option.map_map]
    rfl
  · rfl

theorem finished_finish (forest : Forest K V) (id other : ℕ) : (forest.finish id).finished other =
    (forest.finished other || (decide (id = other) && decide (id < forest.nodes.length))) := by
  rw [finished, finished, finish, modify_nodes]
  by_cases same : id = other
  · subst same
    rcases Nat.lt_or_ge id forest.nodes.length with inside | outside
    · simp [inside]
    · simp [outside]
  · simp [same]

end Edits

theorem view_eq {forest : Forest K V} {id : ℕ} (found : forest.nodes[id]? = some node) :
    forest.view id = (id :: node.ancestors).foldr (fun id map => issue map (forest.issued id)) node.base := by
  rw [view, found]

/-- What a transaction sees after more writes were issued on it. -/
theorem view_write {forest : Forest K V} {id : ℕ} (found : forest.nodes[id]? = some node) (apart : id ∉ node.ancestors)
    (writes : Run K V) : (forest.write id writes).view id = issue (forest.view id) writes := by
  have inside := (List.getElem?_eq_some_iff.mp found).1
  have edited : (forest.write id writes).nodes[id]? = some { node with issued := node.issued ++ writes } := by
    rw [write, modify_nodes, if_pos rfl, found]
    rfl
  rw [view_eq edited, view_eq found, List.foldr_cons, List.foldr_cons, issued_write forest id writes id inside,
    if_pos rfl, issue_append]
  congr 2
  refine List.foldr_ext _ _ _ fun other member map => ?_
  rw [issued_write forest id writes other inside, if_neg]
  rintro rfl
  exact apart member

theorem view_finish (forest : Forest K V) (id other : ℕ) : (forest.finish id).view other = forest.view other := by
  have same : (forest.finish id).issued = forest.issued := funext fun other => issued_finish forest id other
  cases found : forest.nodes[other]? with
  | none =>
    have absent : (forest.finish id).nodes[other]? = none := by
      rw [finish, modify_nodes, found]
      split <;> rfl
    rw [view, view, found, absent]
  | some node =>
    obtain ⟨finished, edited⟩ : ∃ finished, (forest.finish id).nodes[other]? =
      some { node with finished := finished } := by
      rw [finish, modify_nodes, found]
      split
      · exact ⟨true, rfl⟩
      · exact ⟨node.finished, rfl⟩
    rw [view_eq edited, view_eq found, same]

/-- What the enclosing transaction sees after an inner commit. -/
theorem view_merge {forest : Forest K V} {parent : ℕ} (found : forest.nodes[parent]? = some node)
    (apart : parent ∉ node.ancestors) (child : ℕ) :
    (forest.merge child parent).view parent = issue (forest.view parent) (forest.issued child) := by
  change ((forest.write parent (forest.issued child)).finish child).view parent = _
  rw [view_finish, view_write found apart]

/-! ## Nothing is lost -/

/-- Whatever a transaction commits contains what was committed into it. -/
structure Carried (forest : Forest K V) : Prop where
  kept : ∀ merge ∈ forest.merges, merge.writes <:+: forest.issued merge.parent
  inner : ∀ merge ∈ forest.merges, forest.finished merge.child = true
  top : ∀ commit ∈ forest.commits, forest.finished commit.tx = true
  merged : ∀ merge ∈ forest.merges, ∀ later ∈ forest.merges, later.child = merge.parent →
    merge.writes <:+: later.writes
  committed : ∀ merge ∈ forest.merges, ∀ commit ∈ forest.commits, commit.tx = merge.parent →
    merge.writes <:+: commit.writes

section Carried

variable {forest next : Forest K V}

omit [LinearOrder K]

/-- Writes are only ever added, and a finished transaction stays finished. -/
structure Grows (forest next : Forest K V) : Prop where
  issued : ∀ id, forest.issued id <:+: next.issued id
  finished : ∀ id, forest.finished id = true → next.finished id = true

theorem Carried.grow (carried : Carried forest) (grows : Grows forest next) (merges : next.merges = forest.merges)
    (commits : next.commits = forest.commits) : Carried next := by
  constructor
  · intro merge member
    exact (carried.kept merge (merges ▸ member)).trans (grows.issued merge.parent)
  · intro merge member
    exact grows.finished _ (carried.inner merge (merges ▸ member))
  · intro commit member
    exact grows.finished _ (carried.top commit (commits ▸ member))
  · rw [merges]
    exact carried.merged
  · rw [merges, commits]
    exact carried.committed

theorem grows_add (forest : Forest K V) (none : node.issued = []) : Grows forest (forest.add node) := by
  refine ⟨fun id => ?_, fun id done => ?_⟩
  · rw [issued_add forest none]
  · rw [finished, add_nodes]
    split
    · next last =>
      rw [finished, List.getElem?_eq_none (Nat.le_of_eq last.symm)] at done
      contradiction
    · exact done

theorem grows_write (forest : Forest K V) {id : ℕ} (inside : id < forest.nodes.length) (writes : Run K V) :
    Grows forest (forest.write id writes) := by
  refine ⟨fun other => ?_, fun other done => ?_⟩
  · rw [issued_write forest id writes other inside]
    split
    · next same =>
      subst same
      exact (List.prefix_append _ _).isInfix
    · exact List.infix_rfl
  · rwa [finished_write]

theorem grows_finish (forest : Forest K V) (id : ℕ) : Grows forest (forest.finish id) := by
  refine ⟨fun other => ?_, fun other done => ?_⟩
  · rw [issued_finish]
  · rw [finished_finish, done]
    rfl

theorem Grows.trans {middle : Forest K V} (first : Grows forest middle) (second : Grows middle next) :
    Grows forest next :=
  ⟨fun id => (first.issued id).trans (second.issued id), fun id done => second.finished id (first.finished id done)⟩

/-- An inner commit into an unfinished transaction. -/
theorem Carried.merge (carried : Carried forest) {child parent : ℕ} (inside : child < forest.nodes.length)
    (enclosing : parent < forest.nodes.length) (unfinished : forest.finished parent = false) :
    Carried (forest.merge child parent) := by
  have size : child < (forest.write parent (forest.issued child)).nodes.length := by
    simpa [write, modify] using inside
  have both := (grows_write forest enclosing (forest.issued child)).trans (grows_finish _ child)
  have grows : Grows forest (forest.merge child parent) := ⟨both.issued, both.finished⟩
  have own : forest.issued child <:+: (forest.merge child parent).issued parent := by
    change _ <:+: ((forest.write parent (forest.issued child)).finish child).issued parent
    rw [issued_finish, issued_write forest parent _ parent enclosing, if_pos rfl]
    exact (List.suffix_append _ _).isInfix
  have done : (forest.merge child parent).finished child = true := by
    change ((forest.write parent (forest.issued child)).finish child).finished child = true
    rw [finished_finish]
    simp [size]
  -- nothing was committed out of the enclosing transaction yet
  have fresh {id : ℕ} (ended : forest.finished id = true) (same : id = parent) : False := by
    rw [same, unfinished] at ended
    contradiction
  constructor
  · intro merge member
    rcases List.mem_append.mp member with old | new
    · exact (carried.kept merge old).trans (grows.issued _)
    · rw [List.mem_singleton.mp new]
      exact own
  · intro merge member
    rcases List.mem_append.mp member with old | new
    · exact grows.finished _ (carried.inner merge old)
    · rw [List.mem_singleton.mp new]
      exact done
  · intro commit member
    exact grows.finished _ (carried.top commit member)
  · intro merge member later after same
    rcases List.mem_append.mp member with old | new <;> rcases List.mem_append.mp after with before | last
    · exact carried.merged merge old later before same
    · rw [List.mem_singleton.mp last] at same ⊢
      dsimp only at same
      exact same ▸ carried.kept merge old
    · rw [List.mem_singleton.mp new] at same
      exact (fresh (carried.inner later before) same).elim
    · rw [List.mem_singleton.mp new, List.mem_singleton.mp last]
  · intro merge member commit there same
    rcases List.mem_append.mp member with old | new
    · exact carried.committed merge old commit there same
    · rw [List.mem_singleton.mp new] at same
      exact (fresh (carried.top commit there) same).elim

end Carried

theorem Carried.commit {forest : Forest K V} (carried : Carried forest) {id : ℕ} (ended : forest.finished id = true) :
    Carried (forest.commit id) := by
  refine ⟨carried.kept, carried.inner, fun commit member => ?_, carried.merged,
    fun merge member commit there same => ?_⟩
  · rcases List.mem_append.mp member with old | new
    · exact carried.top commit old
    · rw [List.mem_singleton.mp new]
      exact ended
  · rcases List.mem_append.mp there with old | new
    · exact carried.committed merge member commit old same
    · rw [List.mem_singleton.mp new] at same ⊢
      dsimp only at same
      exact same ▸ carried.kept merge member

end Forest

end NestedTx
