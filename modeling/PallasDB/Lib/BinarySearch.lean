import PallasDB.Lib.SortedRun

/-! # Binary search over a half-open index range

Two loops are in common use. The two-way loop never stops early and ends on the first index that is
not below the target; the three-way loop returns as soon as it hits an equal element. Both take fuel
at least as large as the range, which the callers supply as its length. On an increasing run both
find the rank of the target, and whether the target occurs.
-/

namespace BinarySearch

open SortedRun

/-- The two-way loop: the first index whose element is not below the target. -/
def lowerIndex (below : ℕ → Bool) : ℕ → ℕ → ℕ → ℕ
  | 0, low, _ => low
  | fuel + 1, low, high =>
      if low < high then
        if below ((low + high) / 2) then lowerIndex below fuel ((low + high) / 2 + 1) high
        else lowerIndex below fuel low ((low + high) / 2)
      else low

/-- The three-way loop: an index and whether its element equals the target. `order` compares the
element at an index with the target. -/
def findIndex (order : ℕ → Ordering) : ℕ → ℕ → ℕ → ℕ × Bool
  | 0, low, _ => (low, false)
  | fuel + 1, low, high =>
      if low < high then
        match order (low + (high - low) / 2) with
        | .lt => findIndex order fuel (low + (high - low) / 2 + 1) high
        | .gt => findIndex order fuel low (low + (high - low) / 2)
        | .eq => (low + (high - low) / 2, true)
      else (low, false)

theorem lowerIndex_eq {below : ℕ → Bool} {fuel low high boundary : ℕ} (enough : high - low ≤ fuel)
    (lower : low ≤ boundary) (upper : boundary ≤ high)
    (split : ∀ index, low ≤ index → index < high → (below index = true ↔ index < boundary)) :
    lowerIndex below fuel low high = boundary := by
  induction fuel generalizing low high with
  | zero => simp only [lowerIndex]; omega
  | succ fuel ih =>
    unfold lowerIndex
    by_cases active : low < high
    · rw [if_pos active]
      have middle := split ((low + high) / 2) (by omega) (by omega)
      by_cases holds : below ((low + high) / 2) = true
      · rw [if_pos holds]
        have before := middle.mp holds
        exact ih (by omega) (by omega) upper fun index first last => split index (by omega) last
      · rw [if_neg holds]
        have after := mt middle.mpr holds
        exact ih (by omega) lower (by omega) fun index first last => split index first (by omega)
    · rw [if_neg active]
      omega

theorem findIndex_eq {order : ℕ → Ordering} {fuel low high boundary : ℕ} (enough : high - low ≤ fuel)
    (lower : low ≤ boundary) (upper : boundary ≤ high)
    (split : ∀ index, low ≤ index → index < high → (order index = .lt ↔ index < boundary))
    (unique : ∀ index, low ≤ index → index < high → order index = .eq → index = boundary) :
    findIndex order fuel low high = (boundary, decide (boundary < high ∧ order boundary = .eq)) := by
  induction fuel generalizing low high with
  | zero =>
    have same : low = boundary := by omega
    have stop : ¬ (boundary < high) := by omega
    simp [findIndex, same, stop]
  | succ fuel ih =>
    unfold findIndex
    by_cases active : low < high
    · rw [if_pos active]
      have above : low ≤ low + (high - low) / 2 := by omega
      have inside : low + (high - low) / 2 < high := by omega
      have middle := split (low + (high - low) / 2) (by omega) inside
      have equal := unique (low + (high - low) / 2) (by omega) inside
      generalize low + (high - low) / 2 = index at *
      cases holds : order index with
      | lt =>
        have before := middle.mp holds
        exact ih (by omega) (by omega) upper (fun other first last => split other (by omega) last)
          (fun other first last => unique other (by omega) last)
      | eq =>
        obtain rfl := equal holds
        simp [inside, holds]
      | gt =>
        have after : ¬ index < boundary := by rw [← middle, holds]; simp
        rw [ih (by omega) lower (by omega) (fun other first last => split other first (by omega))
          (fun other first last => unique other first (by omega))]
        -- an equal element past the middle is excluded, because it would sit at the boundary
        have same : (boundary < index ∧ order boundary = .eq) ↔ (boundary < high ∧ order boundary = .eq) := by
          refine and_congr_left fun atBoundary => ⟨fun _ => by omega, fun _ => ?_⟩
          rcases Nat.lt_or_eq_of_le (Nat.le_of_not_lt after) with less | rfl
          · exact less
          · rw [atBoundary] at holds; contradiction
        simp only [same]
    · have same : low = boundary := by omega
      have stop : ¬ (boundary < high) := by omega
      simp [same, stop]

variable {K V : Type*} [LinearOrder K]

/-- The element at an index, when there is one, compares below the target. -/
def slotBelow (run : Run K V) (target : K) (index : ℕ) : Bool :=
  (run[index]?).any fun slot => decide (slot.key < target)

/-- Three-way comparison of the element at an index with the target. -/
def slotOrder (run : Run K V) (target : K) (index : ℕ) : Ordering :=
  ((run[index]?).map fun slot => compare slot.key target).getD .gt

theorem lowerIndex_rank {run : Run K V} (ordered : Ordered run) (target : K) :
    lowerIndex (slotBelow run target) run.length 0 run.length =
      rank run fun key => decide (key < target) := by
  apply lowerIndex_eq (by omega) (Nat.zero_le _) (rank_le_length run _)
  intro index _ bound
  have read : run[index]? = some run[index] := List.getElem?_eq_getElem bound
  rw [ordered.lt_rank_iff (isCut_lt target) read]
  simp [slotBelow, read]

theorem findIndex_rank {run : Run K V} (increasing : Increasing run) (target : K) :
    findIndex (slotOrder run target) run.length 0 run.length =
      (rank run fun key => decide (key < target), (lookup run target).isSome) := by
  have split (index : ℕ) (_ : 0 ≤ index) (bound : index < run.length) :
      slotOrder run target index = .lt ↔ index < rank run fun key => decide (key < target) := by
    have read : run[index]? = some run[index] := List.getElem?_eq_getElem bound
    rw [increasing.ordered.lt_rank_iff (isCut_lt target) read]
    simp [slotOrder, read, compare_lt_iff_lt]
  have hit {index : ℕ} (equal : slotOrder run target index = .eq) :
      ∃ slot, run[index]? = some slot ∧ slot.key = target := by
    cases read : run[index]? with
    | none => simp [slotOrder, read] at equal
    | some slot => exact ⟨slot, rfl, by simpa [slotOrder, read, compare_eq_iff_eq] using equal⟩
  have position := increasing.getElem?_rank target
  have unique (index : ℕ) (_ : 0 ≤ index) (_ : index < run.length)
      (equal : slotOrder run target index = .eq) : index = rank run fun key => decide (key < target) := by
    obtain ⟨slot, read, same⟩ := hit equal
    obtain ⟨other, atRank, _⟩ : ∃ other, run[rank run fun key => decide (key < target)]? = some other ∧
        other.key = target := by
      rw [← same, increasing.lookup_of_mem (List.mem_of_getElem? read), Option.map_some] at position
      have kept := (Option.filter_eq_some_iff.mp position)
      exact ⟨_, by rw [← same]; exact kept.1, same⟩
    have nodup : run.Pairwise fun a b => a.key ≠ b.key := increasing.imp fun smaller => smaller.ne
    by_contra different
    obtain ⟨first, firstRead⟩ := List.getElem?_eq_some_iff.mp read
    obtain ⟨second, secondRead⟩ := List.getElem?_eq_some_iff.mp atRank
    rcases Nat.lt_or_gt_of_ne different with less | greater
    · exact List.pairwise_iff_getElem.mp nodup _ _ first second less (by simp_all)
    · exact List.pairwise_iff_getElem.mp nodup _ _ second first greater (by simp_all)
  rw [findIndex_eq (by omega) (Nat.zero_le _) (rank_le_length run _) split unique]
  congr 1
  rw [Bool.eq_iff_iff, decide_eq_true_eq]
  constructor
  · rintro ⟨_, equal⟩
    obtain ⟨slot, read, same⟩ := hit equal
    exact lookup_isSome_iff.mpr ⟨slot, List.mem_of_getElem? read, same⟩
  · intro found
    obtain ⟨val, found⟩ := Option.isSome_iff_exists.mp found
    rw [found, Option.map_some] at position
    obtain ⟨read, _⟩ := Option.filter_eq_some_iff.mp position
    exact ⟨(List.getElem?_eq_some_iff.mp read).1, by simp [slotOrder, read]⟩

end BinarySearch
