import PallasDB.Lib.Cursor
import Mathlib.Algebra.GroupWithZero.Nat
import Mathlib.Data.List.Perm.Subperm
import Mathlib.Data.Finset.Sort

/-! # Merging sorted runs with a bidirectional iterator

Merging keeps one cursor per run and yields the least or greatest of their slots, depending on the
direction of the last move. The merged iterator is shown to track the plain cursor over the merged
run, for every mixture of forward and backward moves.

The proof describes a state of the merged iterator by a cut of the key order: after a forward move
every cursor stands on its first slot past the cut, after a backward move on its last slot before it.
-/

namespace SortedRun

variable {K V : Type*}

/-- Keep the held slot unless the new one beats it. -/
def improve (better : K → K → Bool) (win : Option (Slot K V)) (slot : Slot K V) : Option (Slot K V) :=
  match win with
  | none => some slot
  | some best => if better slot.key best.key then some slot else some best

/-- The first slot that no other slot beats. -/
def firstBest (better : K → K → Bool) (slots : Run K V) : Option (Slot K V) :=
  slots.foldl (improve better) none

/-- One round of the scan for the best cursor, which holds an index and a key. -/
def improveAt (better : K → K → Bool) (index : ℕ) (win : Option (ℕ × K)) :
    Option (Slot K V) → Option (ℕ × K)
  | none => win
  | some slot =>
      match win with
      | none => some (index, slot.key)
      | some (old, key) => if better slot.key key then some (index, slot.key) else some (old, key)

def levelsBestFrom (better : K → K → Bool) :
    List (Cursor K V) → ℕ → Option (ℕ × K) → Option (ℕ × K)
  | [], _, win => win
  | level :: rest, index, win =>
      levelsBestFrom better rest (index + 1) (improveAt better index win level.slot?)

/-- The index of the cursor holding the first unbeaten slot. -/
def levelsBest (better : K → K → Bool) (levels : List (Cursor K V)) : Option ℕ :=
  (levelsBestFrom better levels 0 none).map Prod.fst

/-- Cursors over the merged runs and the one whose slot is current. -/
structure Merged (K V : Type*) where
  levels : List (Cursor K V)
  which : Option ℕ
deriving DecidableEq, Repr

variable [LinearOrder K]
  {read : Run K V → Option (Slot K V)} {cut : K → Bool} {cursor : Cursor K V} {iter : Merged K V}

/-- The cursor with the least current key, the front one on ties. -/
def levelsLowest (levels : List (Cursor K V)) : Option ℕ :=
  levelsBest (fun new old => decide (new < old)) levels

/-- The cursor with the greatest current key, the front one on ties. -/
def levelsHighest (levels : List (Cursor K V)) : Option ℕ :=
  levelsBest (fun new old => decide (old < new)) levels

namespace Merged

omit [LinearOrder K] in
def slot? (iter : Merged K V) : Option (Slot K V) :=
  iter.which.bind fun index => iter.levels[index]?.bind Cursor.slot?

omit [LinearOrder K] in
def valid (iter : Merged K V) : Bool := iter.which.isSome

variable [Inhabited K]

omit [LinearOrder K] in
/-- The key the moves compare with; an exhausted iterator uses the default key. -/
def current (iter : Merged K V) : K := (iter.slot?.map Slot.key).getD default

/-- Advance every exhausted cursor and every cursor that is not past the current key. -/
def next (iter : Merged K V) : Merged K V :=
  let levels := iter.levels.map fun level =>
    if level.slot?.all fun slot => decide (slot.key ≤ iter.current) then level.next else level
  ⟨levels, levelsLowest levels⟩

/-- Retreat every exhausted cursor and every cursor that is not before the current key. -/
def prev (iter : Merged K V) : Merged K V :=
  let levels := iter.levels.map fun level =>
    if level.slot?.all fun slot => decide (iter.current ≤ slot.key) then level.prev else level
  ⟨levels, levelsHighest levels⟩

/-- One cursor per run on its first slot past the cut. -/
def ahead (runs : List (Run K V)) (cut : K → Bool) : Merged K V :=
  let levels := runs.map fun run => ⟨run, rank run cut⟩
  ⟨levels, levelsLowest levels⟩

/-- One cursor per run on its last slot before the cut. -/
def behind (runs : List (Run K V)) (cut : K → Bool) : Merged K V :=
  let levels := runs.map fun run => ⟨run, rank run cut - 1⟩
  ⟨levels, levelsHighest levels⟩

instance : SlotIter (Merged K V) K V where
  slot? := Merged.slot?
  next := Merged.next
  prev := Merged.prev
  size iter := (iter.levels.map fun level => level.run.length).sum

end Merged

omit [LinearOrder K] in
private theorem levelsBestFrom_slot (better : K → K → Bool) (levels front : List (Cursor K V))
    (win : Option (ℕ × K)) (best : Option (Slot K V)) (keys : win.map Prod.snd = best.map Slot.key)
    (held : (win.bind fun entry => (front ++ levels)[entry.1]?.bind Cursor.slot?) = best) :
    ((levelsBestFrom better levels front.length win).bind fun entry =>
      (front ++ levels)[entry.1]?.bind Cursor.slot?) =
      (levels.filterMap Cursor.slot?).foldl (improve better) best := by
  induction levels generalizing front win best with
  | nil => simpa [levelsBestFrom] using held
  | cons level rest ih =>
    have whole : front ++ level :: rest = (front ++ [level]) ++ rest := by simp
    have here : ((front ++ [level]) ++ rest)[front.length]? = some level := by simp
    have size : front.length + 1 = (front ++ [level]).length := by simp
    rw [levelsBestFrom, whole, size]
    rw [whole] at held
    cases slot : level.slot? with
    | none =>
      rw [List.filterMap_cons_none slot]
      exact ih (front ++ [level]) win best keys held
    | some current =>
      rw [List.filterMap_cons_some slot, List.foldl_cons]
      have fresh : (some (front.length, current.key)).bind (fun entry : ℕ × K =>
          ((front ++ [level]) ++ rest)[entry.1]?.bind Cursor.slot?) = some current := by
        rw [Option.bind_some, here, Option.bind_some, slot]
      rcases win with _ | ⟨index, key⟩
      · obtain rfl : best = none := by simpa using keys.symm
        exact ih (front ++ [level]) _ _ rfl fresh
      · obtain ⟨old, rfl, rfl⟩ : ∃ old, best = some old ∧ old.key = key := by
          cases best with
          | none => simp at keys
          | some old => exact ⟨old, rfl, by simpa using keys.symm⟩
        simp only [improveAt, improve]
        split
        · exact ih (front ++ [level]) _ _ rfl fresh
        · exact ih (front ++ [level]) _ _ keys held

omit [LinearOrder K] in
/-- The picked cursor holds the first unbeaten slot. -/
theorem levelsBest_slot (better : K → K → Bool) (levels : List (Cursor K V)) :
    ((levelsBest better levels).bind fun index => levels[index]?.bind Cursor.slot?) =
      firstBest better (levels.filterMap Cursor.slot?) := by
  have whole := levelsBestFrom_slot better levels [] none none rfl rfl
  simpa [levelsBest, Option.bind_map, Function.comp_def, firstBest] using whole

omit [LinearOrder K] in
private theorem levelsBestFrom_isSome (better : K → K → Bool) (levels : List (Cursor K V)) (index : ℕ)
    (win : Option (ℕ × K)) : (levelsBestFrom better levels index win).isSome =
      (win.isSome || levels.any fun level => level.slot?.isSome) := by
  induction levels generalizing index win with
  | nil => simp [levelsBestFrom]
  | cons level rest ih =>
    rw [levelsBestFrom, ih, List.any_cons, ← Bool.or_assoc]
    cases level.slot? with
    | none => simp [improveAt]
    | some slot =>
      rcases win with _ | ⟨old, key⟩
      · rfl
      · simp only [improveAt]
        split <;> rfl

omit [LinearOrder K] in
private theorem foldl_improve_isSome (better : K → K → Bool) (slots : Run K V) (best : Option (Slot K V)) :
    (slots.foldl (improve better) best).isSome = (best.isSome || !slots.isEmpty) := by
  induction slots generalizing best with
  | nil => simp
  | cons slot rest ih =>
    rw [List.foldl_cons, ih]
    cases best with
    | none => simp [improve]
    | some old =>
      simp only [improve]
      split <;> simp

omit [LinearOrder K] in
/-- A cursor is picked exactly when one of them is on a slot. -/
theorem levelsBest_isSome (better : K → K → Bool) (levels : List (Cursor K V)) : (levelsBest better levels).isSome =
      ((levelsBest better levels).bind fun index => levels[index]?.bind Cursor.slot?).isSome := by
  rw [levelsBest_slot, firstBest, foldl_improve_isSome, levelsBest, Option.isSome_map, levelsBestFrom_isSome,
    Option.isSome_none, Option.isSome_none, Bool.false_or, Bool.false_or, Bool.eq_iff_iff]
  simp [List.filterMap_eq_nil_iff, Option.ne_none_iff_isSome]

omit [LinearOrder K] in
private theorem foldl_improve_of_unbeaten (better : K → K → Bool) (slots : Run K V) (best : Slot K V)
    (unbeaten : ∀ slot ∈ slots, better slot.key best.key = false) :
    slots.foldl (improve better) (some best) = some best := by
  induction slots with
  | nil => rfl
  | cons slot rest ih =>
    rw [List.foldl_cons]
    simp only [improve, unbeaten slot (List.mem_cons_self ..), Bool.false_eq_true, ↓reduceIte]
    exact ih fun other member => unbeaten other (List.mem_cons_of_mem _ member)

/-- When one key beats every other key present, its first slot is the best one. -/
theorem firstBest_eq_find? {better : K → K → Bool} {slots : Run K V} (key : K)
    (best : ∀ slot ∈ slots, slot.key = key ∨ better key slot.key = true)
    (asymm : ∀ slot ∈ slots, better slot.key key = false) {found : Slot K V}
    (first : slots.find? (fun slot => slot.key == key) = some found) :
    firstBest better slots = some found := by
  suffices scan : ∀ win : Option (Slot K V), (∀ old ∈ win, better key old.key = true) →
      slots.foldl (improve better) win = some found from scan none (by simp)
  intro win beaten
  induction slots generalizing win with
  | nil => simp at first
  | cons slot rest ih =>
    have restBest := fun other member => best other (List.mem_cons_of_mem slot member)
    have restAsymm := fun other member => asymm other (List.mem_cons_of_mem slot member)
    rw [List.foldl_cons]
    by_cases same : slot.key = key
    · obtain rfl : slot = found := by simpa [same] using first
      have chosen : improve better win slot = some slot := by
        cases win with
        | none => rfl
        | some old => simp [improve, same, beaten old rfl]
      rw [chosen]
      exact foldl_improve_of_unbeaten better rest slot (by rw [same]; exact restAsymm)
    · refine ih restBest restAsymm (by simpa [same] using first) _ ?_
      have slotBeaten := (best slot (List.mem_cons_self ..)).resolve_left same
      intro old chosen
      cases win with
      | none => cases chosen; exact slotBeaten
      | some previous =>
        simp only [improve, Option.mem_def] at chosen
        split at chosen
        · cases chosen; exact slotBeaten
        · exact beaten old chosen

/-- The merged run of a stack of increasing runs: every key once, from the first run that has it. -/
structure IsMerge (runs : List (Run K V)) (merged : Run K V) : Prop where
  runs_increasing : ∀ run ∈ runs, Increasing run
  increasing : Increasing merged
  lookup_eq : ∀ key, lookup merged key = lookupLevels runs key

namespace IsMerge

variable {runs : List (Run K V)} {merged : Run K V}

section

variable (merge : IsMerge runs merged)

include merge

theorem mem_key {run : Run K V} (member : run ∈ runs) {slot : Slot K V}
    (present : slot ∈ run) : ∃ other ∈ merged, other.key = slot.key := by
  rw [← lookup_isSome_iff, merge.lookup_eq, lookupLevels_isSome_iff]
  exact ⟨run, member, slot, present, rfl⟩

theorem mem_levels {slot : Slot K V} (member : slot ∈ merged) :
    ∃ run ∈ runs, slot ∈ run :=
  mem_of_lookupLevels (merge.lookup_eq slot.key ▸ merge.increasing.lookup_of_mem member)

/-- A property of the keys of the merged run is a property of the keys of every level. -/
theorem forall_levels (property : K → Prop)
    (holds : ∀ slot ∈ merged, property slot.key) : ∀ run ∈ runs, ∀ slot ∈ run, property slot.key := by
  intro run member slot present
  obtain ⟨other, inMerged, same⟩ := merge.mem_key member present
  exact same ▸ holds other inMerged

theorem unique {other : Run K V} (second : IsMerge runs other) : merged = other :=
  merge.increasing.ext second.increasing fun key => by rw [merge.lookup_eq, second.lookup_eq]

theorem size_le : merged.length ≤ (runs.map List.length).sum := by
  have nodup : (merged.map Slot.key).Nodup :=
    List.pairwise_map.mpr (merge.increasing.imp fun smaller => smaller.ne)
  have included : merged.map Slot.key ⊆ runs.flatMap fun run => run.map Slot.key := by
    intro key member
    obtain ⟨slot, present, rfl⟩ := List.mem_map.mp member
    have found := lookup_isSome_iff.mpr ⟨slot, present, rfl⟩
    rw [merge.lookup_eq, lookupLevels_isSome_iff] at found
    obtain ⟨run, inRuns, other, inRun, same⟩ := found
    exact List.mem_flatMap.mpr ⟨run, inRuns, List.mem_map.mpr ⟨other, inRun, same⟩⟩
  have count := (List.subperm_of_subset nodup included).length_le
  simpa [List.length_flatMap] using count

end

end IsMerge

/-- Every stack of increasing runs has a merged run. -/
theorem exists_isMerge {runs : List (Run K V)} (increasing : ∀ run ∈ runs, Increasing run) :
    ∃ merged, IsMerge runs merged := by
  let keys := (runs.flatMap fun run => run.map Slot.key).toFinset.sort (· ≤ ·)
  let slotOf : K → Option (Slot K V) := fun key => (lookupLevels runs key).map (⟨key, ·⟩)
  have keyed : ∀ key slot, slotOf key = some slot → slot.key = key := by
    intro key slot made
    obtain ⟨val, -, rfl⟩ := Option.map_eq_some_iff.mp made
    rfl
  have sorted : keys.Pairwise (· < ·) := Finset.sortedLT_sort _ |>.pairwise
  have ordered : Increasing (keys.filterMap slotOf) := by
    refine List.pairwise_filterMap.mpr (sorted.imp ?_)
    intro first second less left madeLeft right madeRight
    rw [keyed _ _ madeLeft, keyed _ _ madeRight]
    exact less
  refine ⟨keys.filterMap slotOf, increasing, ordered, fun key => ?_⟩
  refine Option.ext fun val => ?_
  rw [ordered.lookup_eq_some_iff, List.mem_filterMap]
  constructor
  · rintro ⟨other, -, made⟩
    obtain rfl : key = other := keyed _ _ made
    simpa [slotOf] using made
  · intro found
    refine ⟨key, ?_, by simp [slotOf, found]⟩
    obtain ⟨run, member, slot, present, rfl⟩ := lookupLevels_isSome_iff.mp (Option.isSome_of_eq_some found)
    rw [Finset.mem_sort, List.mem_toFinset]
    exact List.mem_flatMap.mpr ⟨run, member, List.mem_map_of_mem present⟩

namespace Merged

variable {runs : List (Run K V)} {merged : Run K V}

theorem ahead_congr {first second : K → Bool} (same : ∀ run ∈ runs, ∀ slot ∈ run, first slot.key = second slot.key) :
    ahead runs first = ahead runs second := by
  have levels : (runs.map fun run => (⟨run, rank run first⟩ : Cursor K V)) =
      runs.map fun run => ⟨run, rank run second⟩ :=
    List.map_congr_left fun run member => by rw [rank_congr (same run member)]
  simp only [ahead, levels]

theorem behind_congr {first second : K → Bool} (same : ∀ run ∈ runs, ∀ slot ∈ run, first slot.key = second slot.key) :
    behind runs first = behind runs second := by
  have levels : (runs.map fun run => (⟨run, rank run first - 1⟩ : Cursor K V)) =
      runs.map fun run => ⟨run, rank run second - 1⟩ :=
    List.map_congr_left fun run member => by rw [rank_congr (same run member)]
  simp only [behind, levels]

private theorem find?_levels {key : K} (runs : List (Run K V))
    (reads : ∀ run ∈ runs, (read run).filter (fun slot => slot.key == key) = (lookup run key).map (Slot.mk key)) :
    (runs.filterMap read).find? (fun slot => slot.key == key) =
      (lookupLevels runs key).map (Slot.mk key) := by
  induction runs with
  | nil => rfl
  | cons run rest ih =>
    have tail := ih fun other member => reads other (List.mem_cons_of_mem _ member)
    have head := reads run (List.mem_cons_self ..)
    rw [lookupLevels_cons, Option.map_or, ← tail, ← head]
    cases here : read run with
    | none => rw [List.filterMap_cons_none here]; rfl
    | some slot =>
      rw [List.filterMap_cons_some here]
      by_cases same : slot.key = key <;> simp [same, Option.filter]

/-- A slot of the merged run is the best of the slots read off the levels if each level reads it off where it has it. -/
private theorem firstBest_levels (merge : IsMerge runs merged) {better : K → K → Bool} {slot : Slot K V}
    (member : slot ∈ merged)
    (best : ∀ run ∈ runs, ∀ other, read run = some other →
      (other.key = slot.key ∨ better slot.key other.key = true) ∧ better other.key slot.key = false)
    (reads : ∀ run ∈ runs, (read run).filter (fun other => other.key == slot.key) =
      (lookup run slot.key).map (Slot.mk slot.key)) : firstBest better (runs.filterMap read) = some slot := by
  have every : ∀ other ∈ runs.filterMap read,
      (other.key = slot.key ∨ better slot.key other.key = true) ∧ better other.key slot.key = false := by
    intro other among
    obtain ⟨run, inRuns, here⟩ := List.mem_filterMap.mp among
    exact best run inRuns other here
  refine firstBest_eq_find? slot.key (fun other among => (every other among).1)
    (fun other among => (every other among).2) ?_
  rw [find?_levels runs reads, ← merge.lookup_eq, merge.increasing.lookup_of_mem member]
  rfl

/-- Ahead of a cut the merged iterator is on the first merged slot past it. -/
theorem slot?_ahead (merge : IsMerge runs merged) (isCut : IsCut cut) :
    (ahead runs cut).slot? = merged[rank merged cut]? := by
  have slots : (ahead runs cut).slot? =
      firstBest (fun new old => decide (new < old)) (runs.filterMap fun run => run[rank run cut]?) := by
    rw [slot?, ahead, levelsLowest]
    rw [levelsBest_slot]
    simp only [List.filterMap_map, Function.comp_def, Cursor.slot?_at]
  rw [slots]
  cases read : merged[rank merged cut]? with
  | none =>
    have full : rank merged cut = merged.length :=
      Nat.le_antisymm (rank_le_length _ _) (List.getElem?_eq_none_iff.mp read)
    have every := merge.forall_levels (cut · = true) (rank_eq_length_iff.mp full)
    rw [List.filterMap_eq_nil_iff.mpr fun run member => ?_]
    · rfl
    · rw [List.getElem?_eq_none_iff, rank_eq_length_iff.mpr (every run member)]
  | some slot =>
    have agree := merge.forall_levels (fun key => cut key = decide (key < slot.key))
      (merge.increasing.cut_eq_lt isCut read)
    refine firstBest_levels merge (List.mem_of_getElem? read) (fun run inRuns other atRank => ?_) fun run member => ?_
    · have outside := mt ((merge.runs_increasing run inRuns).ordered.lt_rank_iff isCut atRank).mpr (lt_irrefl _)
      rw [agree run inRuns other (List.mem_of_getElem? atRank), decide_eq_true_eq] at outside
      have past := not_lt.mp outside
      exact ⟨past.eq_or_lt.imp Eq.symm decide_eq_true, decide_eq_false (not_lt.mpr past)⟩
    · have same : rank run cut = rank run fun key => decide (key < slot.key) := rank_congr (agree run member)
      rw [same]
      exact (merge.runs_increasing run member).getElem?_rank slot.key

/-- Behind a cut the merged iterator is on the last merged slot before it. -/
theorem slot?_behind (merge : IsMerge runs merged) (isCut : IsCut cut) :
    (behind runs cut).slot? = if rank merged cut = 0 then none else merged[rank merged cut - 1]? := by
  have slots : (behind runs cut).slot? = firstBest (fun new old => decide (old < new))
      (runs.filterMap fun run => if rank run cut = 0 then none else run[rank run cut - 1]?) := by
    rw [slot?, behind, levelsHighest]
    rw [levelsBest_slot]
    simp only [List.filterMap_map, Function.comp_def, Cursor.slot?_before]
  rw [slots]
  cases size : rank merged cut with
  | zero =>
    have every := merge.forall_levels (cut · = false) (rank_eq_zero_iff.mp size)
    rw [List.filterMap_eq_nil_iff.mpr fun run member => if_pos (rank_eq_zero_iff.mpr (every run member))]
    rfl
  | succ index =>
    have bound : index < merged.length := by have := rank_le_length merged cut; omega
    have read : merged[index]? = some merged[index] := List.getElem?_eq_getElem bound
    rw [if_neg (Nat.succ_ne_zero index), Nat.succ_sub_one, read]
    generalize merged[index] = slot at read
    have agree := merge.forall_levels (fun key => cut key = decide (key ≤ slot.key))
      (merge.increasing.cut_eq_le isCut size read)
    refine firstBest_levels merge (List.mem_of_getElem? read) (fun run inRuns other atRank => ?_) fun run member => ?_
    · split_ifs at atRank with empty
      have inside := ((merge.runs_increasing run inRuns).ordered.lt_rank_iff isCut atRank).mp (by omega)
      rw [agree run inRuns other (List.mem_of_getElem? atRank), decide_eq_true_eq] at inside
      exact ⟨inside.eq_or_lt.imp_right decide_eq_true, decide_eq_false (not_lt.mpr inside)⟩
    · have same : rank run cut = rank run fun key => decide (key ≤ slot.key) := rank_congr (agree run member)
      rw [same]
      cases count : rank run fun key => decide (key ≤ slot.key) with
      | zero => rw [if_pos rfl, lookup_of_rank_le_eq_zero count]; rfl
      | succ before =>
        exact (merge.runs_increasing run member).getElem?_rank_pred slot.key count

section Levels

variable {run : Run K V} (increasing : Increasing run) (key : K)
  (on : cursor = ⟨run, rank run fun other => decide (other < key)⟩ ∨
    cursor = ⟨run, (rank run fun other => decide (other ≤ key)) - 1⟩)

include increasing on

private theorem levels_next :
    (if cursor.slot?.all fun slot => decide (slot.key ≤ key) then cursor.next else cursor) =
      ⟨run, rank run fun other => decide (other ≤ key)⟩ := by
  have fits := rank_le_length run fun other => decide (other ≤ key)
  obtain ⟨above, same⟩ | ⟨slot, read, rfl, more⟩ := increasing.rank_cases key
  · rcases on with rfl | rfl
    · rw [Cursor.slot?_at]
      cases read : run[rank run fun other => decide (other < key)]? with
      | none =>
        have full := Nat.le_antisymm (rank_le_length _ _) (List.getElem?_eq_none_iff.mp read)
        simp [Cursor.next, full, same]
      | some slot => simp [not_le.mpr (above slot read), same]
    · rw [Cursor.slot?_before]
      cases size : rank run fun other => decide (other ≤ key) with
      | zero => exact Cursor.next_start run
      | succ index =>
        have read : run[index]? = some run[index] := List.getElem?_eq_getElem (by omega)
        have inside := (increasing.ordered.lt_rank_iff (isCut_le key) read).mp (by omega)
        simp [read, of_decide_eq_true inside, Cursor.next_at (by omega : index < run.length)]
  · obtain rfl : cursor = ⟨run, rank run fun other => decide (other < slot.key)⟩ := by simpa [more] using on
    simp [Cursor.slot?_at, read, Cursor.next_at (List.getElem?_eq_some_iff.mp read).1, more]

private theorem levels_prev :
    (if cursor.slot?.all fun slot => decide (key ≤ slot.key) then cursor.prev else cursor) =
      ⟨run, (rank run fun other => decide (other < key)) - 1⟩ := by
  obtain ⟨above, same⟩ | ⟨slot, read, rfl, more⟩ := increasing.rank_cases key
  · rcases on with rfl | rfl
    · have retreat : (run[rank run fun other => decide (other < key)]?).all
          (fun slot => decide (key ≤ slot.key)) = true := by
        cases read : run[rank run fun other => decide (other < key)]? with
        | none => rfl
        | some slot => exact decide_eq_true (above slot read).le
      rw [Cursor.slot?_at, retreat, if_pos rfl, Cursor.prev_at]
    · rw [Cursor.slot?_before, same]
      cases size : rank run fun other => decide (other < key) with
      | zero => rfl
      | succ index =>
        have bound := rank_le_length run fun other => decide (other < key)
        have read : run[index]? = some run[index] := List.getElem?_eq_getElem (by omega)
        have inside := (increasing.ordered.lt_rank_iff (isCut_lt key) read).mp (by omega)
        simp [read, not_le.mpr (of_decide_eq_true inside)]
  · obtain rfl : cursor = ⟨run, rank run fun other => decide (other < slot.key)⟩ := by simpa [more] using on
    simp [Cursor.slot?_at, read, Cursor.prev_at]

end Levels

/-- The merged iterator stands at the same place as a cursor over the merged run. -/
inductive Tracks (runs : List (Run K V)) (merged : Run K V) : Merged K V → Cursor K V → Prop
  | forward {cut : K → Bool} (isCut : IsCut cut) : Tracks runs merged (ahead runs cut) ⟨merged, rank merged cut⟩
  | backward {cut : K → Bool} (isCut : IsCut cut) : Tracks runs merged (behind runs cut) ⟨merged, rank merged cut - 1⟩

theorem Tracks.slot (merge : IsMerge runs merged) {iter : Merged K V} {cursor : Cursor K V}
    (related : Tracks runs merged iter cursor) : iter.slot? = cursor.slot? := by
  cases related with
  | forward isCut => rw [slot?_ahead merge isCut, Cursor.slot?_at]
  | backward isCut => rw [slot?_behind merge isCut, Cursor.slot?_before]

/-- The merged iterator is valid while it is on a slot. -/
theorem Tracks.valid (related : Tracks runs merged iter cursor) : iter.valid = iter.slot?.isSome := by
  cases related with
  | forward | backward => exact levelsBest_isSome _ _

/-- On a slot, the cut may be taken to end exactly at its key. -/
private theorem Tracks.on_slot (merge : IsMerge runs merged) (related : Tracks runs merged iter cursor)
    {slot : Slot K V} (on : cursor.slot? = some slot) :
    ∃ index : ℕ, merged[index]? = some slot ∧ cursor = ⟨merged, index⟩ ∧
      (iter = ahead runs (fun key => decide (key < slot.key)) ∨
        iter = behind runs fun key => decide (key ≤ slot.key)) := by
  cases related with
  | @forward cut isCut =>
    refine ⟨_, on, rfl, .inl (ahead_congr ?_)⟩
    exact merge.forall_levels (fun key => cut key = decide (key < slot.key))
      (merge.increasing.cut_eq_lt isCut on)
  | @backward cut isCut =>
    rw [Cursor.slot?_before] at on
    split_ifs at on with empty
    refine ⟨_, on, by congr 1; omega, .inr (behind_congr ?_)⟩
    exact merge.forall_levels (fun key => cut key = decide (key ≤ slot.key))
      (merge.increasing.cut_eq_le isCut (by omega) on)

/-- Past either end the cut has all keys on one side. -/
private theorem Tracks.off_slot (merge : IsMerge runs merged) (related : Tracks runs merged iter cursor)
    (off : cursor.slot? = none) :
    ∃ cut, IsCut cut ∧
      (iter = ahead runs cut ∧ cursor = ⟨merged, merged.length⟩ ∧ (∀ run ∈ runs, rank run cut = run.length) ∧
          rank merged cut = merged.length ∨
        iter = behind runs cut ∧ cursor = ⟨merged, -1⟩ ∧ (∀ run ∈ runs, rank run cut = 0) ∧ rank merged cut = 0) := by
  cases related with
  | @forward cut isCut =>
    have full := Nat.le_antisymm (rank_le_length merged cut) (List.getElem?_eq_none_iff.mp off)
    have every := merge.forall_levels (cut · = true) (rank_eq_length_iff.mp full)
    exact ⟨cut, isCut, .inl ⟨rfl, by rw [full], fun run member => rank_eq_length_iff.mpr (every run member), full⟩⟩
  | @backward cut isCut =>
    rw [Cursor.slot?_before] at off
    have empty : rank merged cut = 0 := by
      by_contra nonempty
      rw [if_neg nonempty, List.getElem?_eq_none_iff] at off
      have := rank_le_length merged cut
      omega
    have every := merge.forall_levels (cut · = false) (rank_eq_zero_iff.mp empty)
    exact ⟨cut, isCut, .inr ⟨rfl, by rw [empty]; rfl, fun run member => rank_eq_zero_iff.mpr (every run member), empty⟩⟩

variable [Inhabited K]

omit [LinearOrder K] in
private theorem current_of_slot {slot : Slot K V} (on : iter.slot? = some slot) :
    iter.current = slot.key := by simp [current, on]

/-- A move forward that brings every level past a cut. -/
private theorem next_eq_ahead {place : Run K V → Cursor K V} (levels : iter.levels = runs.map place)
    (each : ∀ run ∈ runs, (if (place run).slot?.all fun other => decide (other.key ≤ iter.current) then (place run).next
      else place run) = ⟨run, rank run cut⟩) : iter.next = ahead runs cut := by
  simp only [Merged.next, ahead, levels, List.map_map, Function.comp_def]
  rw [List.map_congr_left each]

private theorem prev_eq_behind {place : Run K V → Cursor K V} (levels : iter.levels = runs.map place)
    (each : ∀ run ∈ runs, (if (place run).slot?.all fun other => decide (iter.current ≤ other.key) then (place run).prev
      else place run) = ⟨run, rank run cut - 1⟩) : iter.prev = behind runs cut := by
  simp only [Merged.prev, behind, levels, List.map_map, Function.comp_def]
  rw [List.map_congr_left each]

theorem Tracks.next (merge : IsMerge runs merged) (related : Tracks runs merged iter cursor) :
    Tracks runs merged iter.next cursor.next := by
  cases on : cursor.slot? with
  | some slot =>
    have current := current_of_slot ((related.slot merge).trans on)
    obtain ⟨index, read, rfl, state⟩ := related.on_slot merge on
    have target : iter.next = ahead runs fun key => decide (key ≤ slot.key) := by
      rcases state with rfl | rfl <;> refine next_eq_ahead rfl fun run member => ?_ <;> rw [current]
      · exact levels_next (merge.runs_increasing run member) slot.key (.inl rfl)
      · exact levels_next (merge.runs_increasing run member) slot.key (.inr rfl)
    rw [target, Cursor.next_at (List.getElem?_eq_some_iff.mp read).1, ← merge.increasing.rank_le read]
    exact .forward (isCut_le _)
  | none =>
    obtain ⟨cut, isCut, ⟨rfl, rfl, every, full⟩ | ⟨rfl, rfl, every, empty⟩⟩ := related.off_slot merge on
    · rw [next_eq_ahead rfl fun run member => ?_, Cursor.next_end, ← full]
      · exact .forward isCut
      · simp [Cursor.slot?_at, every run member, Cursor.next_end]
    · rw [next_eq_ahead rfl fun run member => ?_, Cursor.next_start, ← empty]
      · exact .forward isCut
      · simp [Cursor.slot?, every run member, Cursor.next_start]

theorem Tracks.prev (merge : IsMerge runs merged) (related : Tracks runs merged iter cursor) :
    Tracks runs merged iter.prev cursor.prev := by
  cases on : cursor.slot? with
  | some slot =>
    have current := current_of_slot ((related.slot merge).trans on)
    obtain ⟨index, read, rfl, state⟩ := related.on_slot merge on
    have target : iter.prev = behind runs fun key => decide (key < slot.key) := by
      rcases state with rfl | rfl <;> refine prev_eq_behind rfl fun run member => ?_ <;> rw [current]
      · exact levels_prev (merge.runs_increasing run member) slot.key (.inl rfl)
      · exact levels_prev (merge.runs_increasing run member) slot.key (.inr rfl)
    rw [target, Cursor.prev_at, ← merge.increasing.rank_lt read]
    exact .backward (isCut_lt _)
  | none =>
    obtain ⟨cut, isCut, ⟨rfl, rfl, every, full⟩ | ⟨rfl, rfl, every, empty⟩⟩ := related.off_slot merge on
    · rw [prev_eq_behind rfl fun run member => ?_, Cursor.prev_at, ← full]
      · exact .backward isCut
      · simp [Cursor.slot?_at, every run member, Cursor.prev_at]
    · have tracked : Tracks runs merged _ _ := .backward isCut
      rw [empty] at tracked
      rw [prev_eq_behind rfl fun run member => ?_]
      · exact tracked
      · simp [Cursor.slot?, every run member, Cursor.prev]

/-- The merged iterator behaves as a cursor over the merged run, for every sequence of moves. -/
theorem simulates (merge : IsMerge runs merged) : Simulates (Tracks runs merged) where
  slot := Tracks.slot merge
  next := Tracks.next merge
  prev := Tracks.prev merge
  size {iter cursor} related := by
    cases related with
    | forward => simpa [SlotIter.size, ahead, Function.comp_def] using merge.size_le
    | backward => simpa [SlotIter.size, behind, Function.comp_def] using merge.size_le

/-- Draining the merged iterator from the front yields the merged run. -/
theorem drain_ahead (merge : IsMerge runs merged) {fuel : ℕ} (enough : (runs.map List.length).sum ≤ fuel) :
    drain SlotIter.next (fun _ => true) fuel (ahead runs fun _ => false) = merged := by
  have start : Tracks runs merged (ahead runs fun _ => false) ⟨merged, (0 : ℕ)⟩ := by
    simpa [rank] using Tracks.forward (isCut_const false)
  have room := merge.size_le
  rw [(simulates merge).drain (simulates merge).next _ _ start, drain_cursor_next _ _ (by omega)]
  simp

end Merged

end SortedRun
