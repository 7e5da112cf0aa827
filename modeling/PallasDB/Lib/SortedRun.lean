import Mathlib.Data.List.Basic
import Mathlib.Data.List.Perm.Basic
import Mathlib.Data.List.Nodup
import Mathlib.Order.Lattice

/-! # Sorted runs of keys with tombstones

A run is a list of slots; a slot carries a value or, as a tombstone, none. Lookup returns the first
slot of a key, so it distinguishes an absent key from a deleted one, and a stack of runs is read
front to back. An increasing run is determined by its lookups, which is how results of different
merging and rebuilding algorithms are compared.

`rank run p` counts the slots before a cut of the key order. In an ordered run the slots before the
cut are exactly the first `rank run p` ones, so binary searches and cursors are described by cuts
rather than by positions.
-/

namespace SortedRun

/-- A key with a value, or a tombstone when the value is absent. -/
structure Slot (K V : Type*) where
  key : K
  val : Option V
deriving DecidableEq, Repr

abbrev Run (K V : Type*) := List (Slot K V)

variable {K V : Type*} {cut : K → Bool}

/-- Slots before a cut of the key order. -/
def rank (run : Run K V) (cut : K → Bool) : ℕ := run.countP fun slot => cut slot.key

theorem rank_le_length (run : Run K V) (cut : K → Bool) : rank run cut ≤ run.length :=
  List.countP_le_length

theorem rank_congr {run : Run K V} {first second : K → Bool}
    (same : ∀ slot ∈ run, first slot.key = second slot.key) : rank run first = rank run second :=
  List.countP_congr fun slot member => by rw [same slot member]

theorem rank_eq_length_iff {run : Run K V} :
    rank run cut = run.length ↔ ∀ slot ∈ run, cut slot.key = true := List.countP_eq_length

theorem rank_eq_zero_iff {run : Run K V} : rank run cut = 0 ↔ ∀ slot ∈ run, cut slot.key = false := by
  simp only [rank, List.countP_eq_zero, Bool.not_eq_true]

variable [LinearOrder K] {slot : Slot K V} {val : Option V} {index : ℕ}

/-- Keys never decrease; equal keys may be adjacent. -/
def Ordered (run : Run K V) : Prop := run.Pairwise fun a b => a.key ≤ b.key

/-- Keys strictly increase, so no key occurs twice. -/
def Increasing (run : Run K V) : Prop := run.Pairwise fun a b => a.key < b.key

instance (run : Run K V) : Decidable (Increasing run) :=
  inferInstanceAs (Decidable (run.Pairwise fun a b => a.key < b.key))

/-- The first slot of a key: absent, deleted, or live. -/
def lookup (run : Run K V) (key : K) : Option (Option V) :=
  (run.find? fun slot => slot.key == key).map Slot.val

/-- The first run that knows the key decides. -/
def lookupLevels (runs : List (Run K V)) (key : K) : Option (Option V) :=
  runs.findSome? fun run => lookup run key

theorem Increasing.ordered {run : Run K V} (increasing : Increasing run) : Ordered run :=
  increasing.imp le_of_lt

theorem increasing_nil : Increasing ([] : Run K V) := .nil

theorem increasing_append {first second : Run K V} :
    Increasing (first ++ second) ↔ Increasing first ∧ Increasing second ∧
      ∀ a ∈ first, ∀ b ∈ second, a.key < b.key := List.pairwise_append

theorem increasing_cons {run : Run K V} :
    Increasing (slot :: run) ↔ (∀ other ∈ run, slot.key < other.key) ∧ Increasing run :=
  List.pairwise_cons

theorem Increasing.filter {run : Run K V} (increasing : Increasing run) (keep : Slot K V → Bool) :
    Increasing (run.filter keep) := List.Pairwise.filter keep increasing

/-! ## Lookup -/

@[simp] theorem lookup_nil (key : K) : lookup ([] : Run K V) key = none := rfl

theorem lookup_cons (slot : Slot K V) (run : Run K V) (key : K) :
    lookup (slot :: run) key = if slot.key = key then some slot.val else lookup run key := by
  by_cases same : slot.key = key <;> simp [lookup, same]

theorem lookup_append (first second : Run K V) (key : K) :
    lookup (first ++ second) key = (lookup first key).or (lookup second key) := by
  simp only [lookup, List.find?_append, Option.map_or]

theorem lookup_eq_none {run : Run K V} {key : K} : lookup run key = none ↔ ∀ slot ∈ run, slot.key ≠ key := by
  simp [lookup]

theorem mem_of_lookup {run : Run K V} {key : K} (found : lookup run key = some val) :
    (⟨key, val⟩ : Slot K V) ∈ run := by
  obtain ⟨slot, first, rfl⟩ := Option.map_eq_some_iff.mp found
  have same : slot.key = key := by simpa using List.find?_some first
  subst same
  exact List.mem_of_find?_eq_some first

theorem lookup_isSome_iff {run : Run K V} {key : K} : (lookup run key).isSome ↔ ∃ slot ∈ run, slot.key = key := by
  simp [lookup]

/-- Looking from the back finds the last slot of a key. -/
theorem lookup_reverse (run : Run K V) (key : K) :
    lookup run.reverse key = ((run.filter fun slot => decide (slot.key = key)).getLast?).map Slot.val := by
  rw [lookup, ← List.head?_filter, List.filter_reverse, List.head?_reverse]
  rfl

theorem Increasing.lookup_of_mem {run : Run K V} (increasing : Increasing run) (member : slot ∈ run) :
    lookup run slot.key = some slot.val := by
  induction run with
  | nil => contradiction
  | cons head rest ih =>
    obtain ⟨smaller, tail⟩ := increasing_cons.mp increasing
    rw [lookup_cons]
    rcases List.mem_cons.mp member with rfl | later
    · exact if_pos rfl
    · rw [if_neg (smaller slot later).ne]
      exact ih tail later

theorem Increasing.lookup_eq_some_iff {run : Run K V} (increasing : Increasing run) {key : K} :
    lookup run key = some val ↔ (⟨key, val⟩ : Slot K V) ∈ run :=
  ⟨mem_of_lookup, increasing.lookup_of_mem⟩

/-- No key occurs twice, so the direction of the search does not matter. -/
theorem Increasing.lookup_reverse {run : Run K V} (increasing : Increasing run) (key : K) :
    lookup run.reverse key = lookup run key := by
  cases found : lookup run.reverse key with
  | none =>
    rw [lookup_eq_none] at found
    exact (lookup_eq_none.mpr fun slot member => found slot (List.mem_reverse.mpr member)).symm
  | some val => exact (increasing.lookup_of_mem (List.mem_reverse.mp (mem_of_lookup found))).symm

/-- An increasing run has no more slots than there are keys for them. -/
theorem Increasing.length_le {run : Run K V} (increasing : Increasing run) {keys : List K}
    (within : ∀ slot ∈ run, slot.key ∈ keys) : run.length ≤ keys.length := by
  have distinct : (run.map Slot.key).Nodup := List.pairwise_map.mpr (increasing.imp fun smaller => smaller.ne)
  have covered : run.map Slot.key ⊆ keys := by
    simpa [List.subset_def] using within
  simpa using (List.subperm_of_subset distinct covered).length_le

/-- An increasing run is determined by its lookups. -/
theorem Increasing.ext {first second : Run K V} (left : Increasing first) (right : Increasing second)
    (same : ∀ key, lookup first key = lookup second key) : first = second := by
  have nodup {run : Run K V} (increasing : Increasing run) : run.Nodup :=
    increasing.imp fun smaller equal => smaller.ne (congrArg Slot.key equal)
  have members : first.Perm second := by
    rw [List.perm_ext_iff_of_nodup (nodup left) (nodup right)]
    rintro ⟨key, val⟩
    rw [← left.lookup_eq_some_iff, ← right.lookup_eq_some_iff, same]
  exact members.eq_of_pairwise (fun a b _ _ below above => absurd above below.asymm) left right

@[simp] theorem lookupLevels_nil (key : K) : lookupLevels ([] : List (Run K V)) key = none := rfl

@[simp] theorem lookupLevels_cons (run : Run K V) (runs : List (Run K V)) (key : K) :
    lookupLevels (run :: runs) key = (lookup run key).or (lookupLevels runs key) := by
  cases found : lookup run key <;> simp [lookupLevels, found]

theorem lookupLevels_append (first second : List (Run K V)) (key : K) :
    lookupLevels (first ++ second) key = (lookupLevels first key).or (lookupLevels second key) := by
  induction first with
  | nil => simp
  | cons run runs ih => simp [ih, Option.or_assoc]

theorem mem_of_lookupLevels {runs : List (Run K V)} {key : K} (found : lookupLevels runs key = some val) :
    ∃ run ∈ runs, (⟨key, val⟩ : Slot K V) ∈ run := by
  induction runs with
  | nil => contradiction
  | cons run rest ih =>
    rw [lookupLevels_cons] at found
    rcases Option.or_eq_some_iff.mp found with here | ⟨-, later⟩
    · exact ⟨run, List.mem_cons_self .., mem_of_lookup here⟩
    · obtain ⟨other, member, inside⟩ := ih later
      exact ⟨other, List.mem_cons_of_mem _ member, inside⟩

theorem lookupLevels_isSome_iff {runs : List (Run K V)} {key : K} :
    (lookupLevels runs key).isSome ↔ ∃ run ∈ runs, ∃ slot ∈ run, slot.key = key := by
  induction runs with
  | nil => simp
  | cons run runs ih => simp [lookup_isSome_iff, ih]

/-! ## Cuts -/

/-- A cut holds of a key whenever it holds of a greater one. -/
def IsCut (cut : K → Bool) : Prop := ∀ {a b : K}, a ≤ b → cut b = true → cut a = true

theorem isCut_lt (bound : K) : IsCut fun key => decide (key < bound) := by
  intro a b below holds
  simp only [decide_eq_true_eq] at holds ⊢
  exact lt_of_le_of_lt below holds

theorem isCut_le (bound : K) : IsCut fun key => decide (key ≤ bound) := by
  intro a b below holds
  simp only [decide_eq_true_eq] at holds ⊢
  exact below.trans holds

theorem isCut_const (value : Bool) : IsCut fun _ : K => value := fun _ holds => holds

private theorem rank_cons_of_not {run : Run K V} (ordered : Ordered (slot :: run)) (isCut : IsCut cut)
    (after : cut slot.key = false) : rank (slot :: run) cut = 0 := by
  apply List.countP_eq_zero.mpr
  intro other member
  have above : slot.key ≤ other.key := by
    rcases List.mem_cons.mp member with rfl | later
    · exact le_rfl
    · exact (List.pairwise_cons.mp ordered).1 other later
  exact fun holds => absurd (isCut above holds) (by simp [after])

/-- In an ordered run the slots before a cut are the first `rank` ones. -/
theorem Ordered.lt_rank_iff {run : Run K V} (ordered : Ordered run) (isCut : IsCut cut)
    (read : run[index]? = some slot) : index < rank run cut ↔ cut slot.key = true := by
  induction run generalizing index with
  | nil => simp at read
  | cons head rest ih =>
    cases before : cut head.key with
    | false =>
      rw [rank_cons_of_not ordered isCut before]
      have member : slot ∈ head :: rest := List.mem_of_getElem? read
      have above : head.key ≤ slot.key := by
        rcases List.mem_cons.mp member with rfl | later
        · exact le_rfl
        · exact (List.pairwise_cons.mp ordered).1 slot later
      refine iff_of_false (by omega) fun holds => ?_
      rw [isCut above holds] at before
      contradiction
    | true =>
      have count : rank (head :: rest) cut = rank rest cut + 1 := by simp [rank, before]
      cases index with
      | zero =>
        obtain rfl : head = slot := by simpa using read
        simp [count, before]
      | succ index =>
        rw [count, Nat.add_lt_add_iff_right]
        exact ih (List.pairwise_cons.mp ordered).2 (by simpa using read)

theorem Increasing.key_lt_iff {run : Run K V} (increasing : Increasing run) {i j : ℕ} {a b : Slot K V}
    (first : run[i]? = some a) (second : run[j]? = some b) : a.key < b.key ↔ i < j := by
  obtain ⟨iBound, rfl⟩ := List.getElem?_eq_some_iff.mp first
  obtain ⟨jBound, rfl⟩ := List.getElem?_eq_some_iff.mp second
  have ordered := List.pairwise_iff_getElem.mp increasing
  constructor
  · intro less
    by_contra reverse
    rcases Nat.lt_or_eq_of_le (Nat.le_of_not_lt reverse) with greater | rfl
    · exact less.asymm (ordered j i jBound iBound greater)
    · exact less.ne rfl
  · exact ordered i j iBound jBound

private theorem rank_eq_of_split {run : Run K V} (ordered : Ordered run) (isCut : IsCut cut) {boundary : ℕ}
    (inside : boundary ≤ run.length)
    (split : ∀ index slot, run[index]? = some slot → (cut slot.key = true ↔ index < boundary)) :
    rank run cut = boundary := by
  have bound := rank_le_length run cut
  rcases Nat.lt_trichotomy (rank run cut) boundary with less | same | greater
  · have read : run[rank run cut]? = some run[rank run cut] := List.getElem?_eq_getElem (by omega)
    have before := (ordered.lt_rank_iff isCut read).mpr ((split _ _ read).mpr less)
    omega
  · exact same
  · have read : run[boundary]? = some run[boundary] := List.getElem?_eq_getElem (by omega)
    have before := (split _ _ read).mp ((ordered.lt_rank_iff isCut read).mp greater)
    omega

/-- The cut below a key of the run ends at the position of that key. -/
theorem Increasing.rank_lt {run : Run K V} (increasing : Increasing run) (read : run[index]? = some slot) :
    (rank run fun key => decide (key < slot.key)) = index := by
  refine rank_eq_of_split increasing.ordered (isCut_lt _)
    (Nat.le_of_lt (List.getElem?_eq_some_iff.mp read).1) fun other current atOther => ?_
  rw [decide_eq_true_eq, increasing.key_lt_iff atOther read]

/-- The cut up to a key of the run ends right after the position of that key. -/
theorem Increasing.rank_le {run : Run K V} (increasing : Increasing run) (read : run[index]? = some slot) :
    (rank run fun key => decide (key ≤ slot.key)) = index + 1 := by
  refine rank_eq_of_split increasing.ordered (isCut_le _)
    (List.getElem?_eq_some_iff.mp read).1 fun other current atOther => ?_
  rw [decide_eq_true_eq, ← not_lt, increasing.key_lt_iff read atOther]
  omega

/-- The cuts below a key and up to it agree, or the slot of that key stands between them. -/
theorem Increasing.rank_cases {run : Run K V} (increasing : Increasing run) (key : K) :
    (∀ slot, run[rank run fun other => decide (other < key)]? = some slot → key < slot.key) ∧
        (rank run fun other => decide (other ≤ key)) = (rank run fun other => decide (other < key)) ∨
      ∃ slot, run[rank run fun other => decide (other < key)]? = some slot ∧ slot.key = key ∧
        (rank run fun other => decide (other ≤ key)) = (rank run fun other => decide (other < key)) + 1 := by
  by_cases present : ∃ slot ∈ run, slot.key = key
  · obtain ⟨slot, member, rfl⟩ := present
    obtain ⟨index, read⟩ := List.getElem?_of_mem member
    rw [increasing.rank_lt read, increasing.rank_le read]
    exact .inr ⟨slot, read, rfl, rfl⟩
  · have absent : ∀ slot ∈ run, slot.key ≠ key := fun slot member same => present ⟨slot, member, same⟩
    refine .inl ⟨fun slot read => ?_, rank_congr fun slot member => by simp [le_iff_lt_or_eq, absent slot member]⟩
    have outside := mt (increasing.ordered.lt_rank_iff (isCut_lt key) read).mpr (Nat.lt_irrefl _)
    exact lt_of_le_of_ne (by simpa using outside) (absent slot (List.mem_of_getElem? read)).symm

/-- A cut that ends before a slot contains exactly the smaller keys. -/
theorem Increasing.cut_eq_lt {run : Run K V} (increasing : Increasing run) (isCut : IsCut cut)
    (read : run[rank run cut]? = some slot) : ∀ other ∈ run, cut other.key = decide (other.key < slot.key) := by
  intro other member
  obtain ⟨index, bound, rfl⟩ := List.mem_iff_getElem.mp member
  have atOther : run[index]? = some run[index] := List.getElem?_eq_getElem bound
  rw [Bool.eq_iff_iff, decide_eq_true_eq, increasing.key_lt_iff atOther read,
    increasing.ordered.lt_rank_iff isCut atOther]

/-- A cut that ends after a slot contains exactly the keys up to it. -/
theorem Increasing.cut_eq_le {run : Run K V} (increasing : Increasing run) (isCut : IsCut cut)
    (size : rank run cut = index + 1) (read : run[index]? = some slot) :
    ∀ other ∈ run, cut other.key = decide (other.key ≤ slot.key) := by
  intro other member
  obtain ⟨position, bound, rfl⟩ := List.mem_iff_getElem.mp member
  have atOther : run[position]? = some run[position] := List.getElem?_eq_getElem bound
  rw [Bool.eq_iff_iff, decide_eq_true_eq, ← not_lt, increasing.key_lt_iff read atOther,
    ← increasing.ordered.lt_rank_iff isCut atOther]
  omega

/-- A lookup reads the one place where a slot with the key can stand. -/
theorem filter_getElem?_eq_lookup {run : Run K V} (key : K)
    (only : ∀ position val, run[position]? = some ⟨key, val⟩ → position = index) :
    (run[index]?).filter (fun slot => slot.key == key) = (lookup run key).map (Slot.mk key) := by
  cases found : lookup run key with
  | none =>
    rw [Option.map_none, Option.filter_eq_none_iff]
    intro slot read same
    exact absurd (by simpa using same) (lookup_eq_none.mp found slot (List.mem_of_getElem? read))
  | some val =>
    obtain ⟨position, read⟩ := List.getElem?_of_mem (mem_of_lookup found)
    obtain rfl := only position val read
    rw [read]
    simp

/-- The slot of a key, if any, stands at the cut below that key. -/
theorem Increasing.getElem?_rank {run : Run K V} (increasing : Increasing run) (key : K) :
    (run[rank run fun other => decide (other < key)]?).filter (fun slot => slot.key == key) =
      (lookup run key).map (Slot.mk key) :=
  filter_getElem?_eq_lookup key fun _ _ read => (increasing.rank_lt read).symm

/-- The slot of a key, if any, stands right before the cut up to that key. -/
theorem Increasing.getElem?_rank_pred {run : Run K V} (increasing : Increasing run) (key : K)
    (size : (rank run fun other => decide (other ≤ key)) = index + 1) :
    (run[index]?).filter (fun slot => slot.key == key) = (lookup run key).map (Slot.mk key) :=
  filter_getElem?_eq_lookup key fun _ _ read => Nat.succ.inj ((increasing.rank_le read).symm.trans size)

/-- Nothing up to a key of an empty cut. -/
theorem lookup_of_rank_le_eq_zero {run : Run K V} {key : K}
    (empty : (rank run fun other => decide (other ≤ key)) = 0) : lookup run key = none := by
  rw [lookup_eq_none]
  rintro slot member rfl
  simpa using rank_eq_zero_iff.mp empty slot member

/-! ## Editing at the position of a key -/

section Edit

variable {run : Run K V} {key : K}

section

variable (ordered : Ordered run)

include ordered

theorem Ordered.take_rank (isCut : IsCut cut) : ∀ slot ∈ run.take (rank run cut), cut slot.key = true := by
  intro slot member
  obtain ⟨index, bound, rfl⟩ := List.mem_iff_getElem.mp member
  rw [List.length_take] at bound
  rw [List.getElem_take]
  exact (ordered.lt_rank_iff isCut (List.getElem?_eq_getElem (by omega))).mp (by omega)

theorem Ordered.drop_rank (isCut : IsCut cut) : ∀ slot ∈ run.drop (rank run cut), cut slot.key = false := by
  intro slot member
  obtain ⟨index, bound, rfl⟩ := List.mem_iff_getElem.mp member
  rw [List.length_drop] at bound
  rw [List.getElem_drop, ← Bool.not_eq_true]
  intro before
  have := (ordered.lt_rank_iff isCut (List.getElem?_eq_getElem (by omega))).mpr before
  omega

theorem Ordered.take_rank_eq_filter (isCut : IsCut cut) :
    run.take (rank run cut) = run.filter fun slot => cut slot.key := by
  conv_rhs => rw [← List.take_append_drop (rank run cut) run]
  rw [List.filter_append, List.filter_eq_self.mpr (ordered.take_rank isCut),
    List.filter_eq_nil_iff.mpr (by simpa using ordered.drop_rank isCut), List.append_nil]

theorem Ordered.drop_rank_eq_filter (isCut : IsCut cut) :
    run.drop (rank run cut) = run.filter fun slot => !cut slot.key := by
  conv_rhs => rw [← List.take_append_drop (rank run cut) run]
  rw [List.filter_append, List.filter_eq_nil_iff.mpr (by simpa using ordered.take_rank isCut),
    List.filter_eq_self.mpr (by simpa using ordered.drop_rank isCut), List.nil_append]

/-- The leading slots before a cut are all the slots before it. -/
theorem Ordered.takeWhile_cut (isCut : IsCut cut) :
    run.takeWhile (fun slot => cut slot.key) = run.filter fun slot => cut slot.key := by
  induction run with
  | nil => rfl
  | cons slot rest ih =>
    obtain ⟨below, tail⟩ := List.pairwise_cons.mp ordered
    rw [List.takeWhile_cons, List.filter_cons, ih tail]
    split
    · rfl
    · next outside =>
      refine (List.filter_eq_nil_iff.mpr fun other member holds => ?_).symm
      exact outside (isCut (below other member) holds)

/-- The trailing slots past a cut are all the slots past it. -/
theorem Ordered.takeWhile_reverse (isCut : IsCut cut) :
    run.reverse.takeWhile (fun slot => !cut slot.key) = (run.filter fun slot => !cut slot.key).reverse := by
  have split := List.take_append_drop (rank run cut) run
  have back : ∀ slot ∈ (run.drop (rank run cut)).reverse, (!cut slot.key) = true := by
    simpa using ordered.drop_rank isCut
  conv_lhs => rw [← split]
  rw [List.reverse_append, List.takeWhile_append_of_pos back, ← ordered.drop_rank_eq_filter isCut]
  suffices stops : (run.take (rank run cut)).reverse.takeWhile (fun slot => !cut slot.key) = [] by
    rw [stops, List.append_nil]
  cases front : (run.take (rank run cut)).reverse with
  | nil => rfl
  | cons slot rest =>
    have member : slot ∈ run.take (rank run cut) := by
      rw [← List.mem_reverse, front]
      exact List.mem_cons_self ..
    simp [ordered.take_rank isCut slot member]

/-- Put a slot in front of the first key that is not smaller. -/
def insertBelow (run : Run K V) (key : K) (val : Option V) : Run K V :=
  run.take (rank run fun other => decide (other < key)) ++
    ⟨key, val⟩ :: run.drop (rank run fun other => decide (other < key))

/-- The new slot hides every other slot of its key. -/
theorem Ordered.lookup_insertBelow (key : K) (val : Option V) (other : K) :
    lookup (insertBelow run key val) other = if other = key then some val else lookup run other := by
  have front : lookup (run.take (rank run fun other => decide (other < key))) key = none := by
    rw [lookup_eq_none]
    rintro slot member rfl
    simpa using ordered.take_rank (isCut_lt slot.key) slot member
  rw [insertBelow, lookup_append, lookup_cons]
  by_cases same : other = key
  · subst same
    simp [front]
  · rw [if_neg (Ne.symm same), if_neg same, ← lookup_append, List.take_append_drop]

end

theorem Increasing.insertBelow (increasing : Increasing run) (absent : lookup run key = none)
    (val : Option V) : Increasing (insertBelow run key val) := by
  have below := increasing.ordered.take_rank (isCut_lt key)
  have above := increasing.ordered.drop_rank (isCut_lt key)
  simp only [decide_eq_true_eq, decide_eq_false_iff_not, not_lt] at below above
  have past : ∀ slot ∈ run.drop (rank run fun other => decide (other < key)), key < slot.key :=
    fun slot member => lt_of_le_of_ne (above slot member)
      (Ne.symm (lookup_eq_none.mp absent slot (List.mem_of_mem_drop member)))
  refine increasing_append.mpr ⟨increasing.take, increasing_cons.mpr ⟨past, increasing.drop⟩, ?_⟩
  intro first inFront second inBack
  rcases List.mem_cons.mp inBack with rfl | later
  · exact below first inFront
  · exact (below first inFront).trans (past second later)

/-- Overwriting the slot of a key keeps the order and changes that lookup only. -/
theorem Increasing.lookup_set (increasing : Increasing run) {old : Option V} (read : run[index]? = some ⟨key, old⟩)
    (val : Option V) (other : K) :
    lookup (run.set index ⟨key, val⟩) other = if other = key then some val else lookup run other := by
  obtain ⟨bound, here⟩ := List.getElem?_eq_some_iff.mp read
  have split : run = run.take index ++ ⟨key, old⟩ :: run.drop (index + 1) := by
    rw [← here, ← List.drop_eq_getElem_cons bound, List.take_append_drop]
  have front : lookup (run.take index) key = none := by
    rw [lookup_eq_none]
    intro slot member same
    obtain ⟨position, inside, rfl⟩ := List.mem_iff_getElem.mp member
    rw [List.length_take] at inside
    rw [List.getElem_take] at same
    have less := (increasing.key_lt_iff (List.getElem?_eq_getElem (by omega)) read).mpr
      (show position < index by omega)
    exact less.ne same
  rw [List.set_eq_take_append_cons_drop, if_pos bound, lookup_append, lookup_cons]
  by_cases same : other = key
  · subst same
    simp [front]
  · conv_rhs => rw [split]
    rw [if_neg (Ne.symm same), if_neg same, lookup_append, lookup_cons, if_neg (Ne.symm same)]

theorem Increasing.set (increasing : Increasing run) {old : Option V} (read : run[index]? = some ⟨key, old⟩)
    (val : Option V) : Increasing (run.set index ⟨key, val⟩) := by
  have keys : (run.set index ⟨key, val⟩).map Slot.key = run.map Slot.key := by
    rw [List.map_set]
    refine List.ext_getElem? fun position => ?_
    rw [List.getElem?_set]
    split
    · next same =>
      subst same
      obtain ⟨bound, here⟩ := List.getElem?_eq_some_iff.mp read
      simp [bound, here]
    · rfl
  have sorted : (run.map Slot.key).Pairwise (· < ·) := List.pairwise_map.mpr increasing
  rw [← keys] at sorted
  exact List.pairwise_map.mp sorted

end Edit

end SortedRun
