import PallasDB.Db.Bytes
import PallasDB.Lib.BinarySearch
import PallasDB.Lib.Cursor

/-! # In-memory sorted arrays

The three parallel slices of `SortedArray` are one list of slots; the `deleted` flag and the `nil` value
it comes with are the missing value of a tombstone. Edits go through a binary search. On a strictly
increasing array `Set` overwrites or inserts, and so does `Del` unless the key already is a tombstone:
then it inserts a second tombstone of the same key.
-/

namespace PallasDB

open SortedRun BinarySearch

abbrev KVSlot := Slot Bytes Bytes

abbrev KVRun := Run Bytes Bytes

abbrev SortedArray := KVRun

namespace SortedArray

/-- `slices.BinarySearchFunc` over the keys: the insertion point and whether the key is there. -/
def search (arr : SortedArray) (key : Bytes) : ℕ × Bool :=
  let idx := lowerIndex (slotBelow arr key) arr.length 0 arr.length
  (idx, (arr[idx]?).any fun slot => decide (slot.key = key))

/-- `slices.Insert` of one slot. -/
def insertAt (arr : SortedArray) (idx : ℕ) (slot : KVSlot) : SortedArray :=
  arr.take idx ++ slot :: arr.drop idx

/-- The slot found under a key, as `getExact` returns it: `none` when the key is absent, `some none`
for a tombstone. -/
def getExact (arr : SortedArray) (key : Bytes) : Option (Option Bytes) :=
  let (idx, ok) := search arr key
  if ok then (arr[idx]?).map Slot.val else none

def set (arr : SortedArray) (key val : Bytes) : Bool × SortedArray :=
  let (idx, ok) := search arr key
  let updated := !ok || (arr[idx]?).any fun slot => decide (slot.val ≠ some val)
  if updated then
    if ok then (true, List.set arr idx ⟨key, some val⟩) else (true, insertAt arr idx ⟨key, some val⟩)
  else (false, arr)

def del (arr : SortedArray) (key : Bytes) : Bool × SortedArray :=
  let (idx, ok) := search arr key
  let exist := ok && (arr[idx]?).any Slot.live
  if exist then (true, List.set arr idx ⟨key, none⟩) else (false, insertAt arr idx ⟨key, none⟩)

def iter (arr : SortedArray) : Cursor Bytes Bytes := ⟨arr, 0⟩

def seek (arr : SortedArray) (key : Bytes) : Cursor Bytes Bytes := ⟨arr, (search arr key).1⟩

def seekToLast (arr : SortedArray) : Cursor Bytes Bytes := ⟨arr, arr.length - 1⟩

variable {arr : SortedArray}

theorem search_fst (ordered : Ordered arr) (key : Bytes) :
    (search arr key).1 = rank arr fun other => decide (other < key) :=
  lowerIndex_rank ordered key

/-- On a strictly increasing array the search finds a key exactly when it is there, at its place. -/
theorem search_cases (increasing : Increasing arr) (key : Bytes) :
    (lookup arr key = none ∧ search arr key = (rank arr fun other => decide (other < key), false)) ∨
      ∃ val idx, lookup arr key = some val ∧ arr[idx]? = some ⟨key, val⟩ ∧ search arr key = (idx, true) := by
  have place := search_fst increasing.ordered key
  have flag : (search arr key).2 = (arr[(search arr key).1]?).any fun slot => decide (slot.key = key) := rfl
  cases found : lookup arr key with
  | none =>
    refine .inl ⟨rfl, Prod.ext place ?_⟩
    rw [flag, Option.any_eq_false]
    intro slot read
    simpa using lookup_eq_none.mp found slot (List.mem_of_getElem? read)
  | some val =>
    obtain ⟨idx, bound, here⟩ := List.mem_iff_getElem.mp (mem_of_lookup found)
    have read : arr[idx]? = some ⟨key, val⟩ := List.getElem?_eq_some_iff.mpr ⟨bound, here⟩
    have position : (search arr key).1 = idx := place.trans (increasing.rank_lt read)
    refine .inr ⟨val, idx, rfl, read, Prod.ext position ?_⟩
    rw [flag, position, read]
    simp

theorem getExact_eq (increasing : Increasing arr) (key : Bytes) : getExact arr key = lookup arr key := by
  obtain ⟨absent, searched⟩ | ⟨val, idx, present, read, searched⟩ := search_cases increasing key
  · rw [getExact, searched, absent]
    rfl
  · rw [getExact, searched, present]
    simp [read]

theorem insertAt_search (ordered : Ordered arr) (key : Bytes) (val : Option Bytes) :
    insertAt arr (search arr key).1 ⟨key, val⟩ = insertBelow arr key val := by
  rw [insertAt, search_fst ordered, insertBelow]

section

variable (increasing : Increasing arr)

include increasing

theorem lookup_set (key val other : Bytes) :
    lookup (set arr key val).2 other = if other = key then some (some val) else lookup arr other := by
  obtain ⟨absent, searched⟩ | ⟨old, idx, present, read, searched⟩ := search_cases increasing key
  · have inserted : (set arr key val).2 = insertBelow arr key (some val) := by
      rw [← insertAt_search increasing.ordered, set, searched]
      rfl
    rw [inserted, increasing.ordered.lookup_insertBelow]
  · by_cases same : old = some val
    · have kept : (set arr key val).2 = arr := by simp [set, searched, read, same]
      rw [kept]
      split
      · next equal => rw [equal, present, same]
      · rfl
    · have written : (set arr key val).2 = List.set arr idx ⟨key, some val⟩ := by
        simp [set, searched, read, same]
      rw [written, increasing.lookup_set read]

theorem set_increasing (key val : Bytes) : Increasing (set arr key val).2 := by
  obtain ⟨absent, searched⟩ | ⟨old, idx, present, read, searched⟩ := search_cases increasing key
  · have inserted : (set arr key val).2 = insertBelow arr key (some val) := by
      rw [← insertAt_search increasing.ordered, set, searched]
      rfl
    rw [inserted]
    exact increasing.insertBelow absent _
  · by_cases same : old = some val
    · have kept : (set arr key val).2 = arr := by simp [set, searched, read, same]
      rwa [kept]
    · have written : (set arr key val).2 = List.set arr idx ⟨key, some val⟩ := by
        simp [set, searched, read, same]
      rw [written]
      exact increasing.set read _

private theorem del_cases (key : Bytes) :
    (lookup arr key ∈ [none, some none] ∧ (del arr key).2 = insertBelow arr key none) ∨
      ∃ val idx, lookup arr key = some (some val) ∧ arr[idx]? = some ⟨key, some val⟩ ∧
        (del arr key).2 = List.set arr idx ⟨key, none⟩ := by
  obtain ⟨absent, searched⟩ | ⟨old, idx, present, read, searched⟩ := search_cases increasing key
  · refine .inl ⟨by simp [absent], ?_⟩
    rw [← insertAt_search increasing.ordered, del, searched]
    rfl
  · cases old with
    | none =>
      refine .inl ⟨by simp [present], ?_⟩
      rw [← insertAt_search increasing.ordered, del, searched]
      simp [read, Slot.live]
    | some val => exact .inr ⟨val, idx, present, read, by simp [del, searched, read, Slot.live]⟩

theorem lookup_del (key other : Bytes) :
    lookup (del arr key).2 other = if other = key then some none else lookup arr other := by
  obtain ⟨-, inserted⟩ | ⟨val, idx, -, read, written⟩ := del_cases increasing key
  · rw [inserted, increasing.ordered.lookup_insertBelow]
  · rw [written, increasing.lookup_set read]

/-- `Del` keeps the array strictly increasing exactly when the key is not a tombstone already. -/
theorem del_increasing_iff (key : Bytes) : Increasing (del arr key).2 ↔ lookup arr key ≠ some none := by
  obtain ⟨missing, inserted⟩ | ⟨val, idx, present, read, written⟩ := del_cases increasing key
  · rw [inserted]
    constructor
    · intro sorted tombstone
      -- the old tombstone stands behind the new one
      have old : (⟨key, none⟩ : KVSlot) ∈
          arr.drop (rank arr fun other => decide (other < key)) := by
        have member := mem_of_lookup tombstone
        rw [← List.take_append_drop (rank arr fun other => decide (other < key)) arr,
          List.mem_append] at member
        refine member.resolve_left fun front => ?_
        simpa using increasing.ordered.take_rank (isCut_lt key) _ front
      have behind := (increasing_append.mp sorted).2.1
      exact absurd ((increasing_cons.mp behind).1 _ old) (lt_irrefl key)
    · intro different
      have absent : lookup arr key = none := by simpa [different] using missing
      exact increasing.insertBelow absent _
  · rw [written, present]
    exact iff_of_true (increasing.set read _) (by simp)

end

example : (del (del [⟨[1], some []⟩] [1]).2 [1]).2 = [⟨[1], none⟩, ⟨[1], none⟩] := by decide

end SortedArray

end PallasDB
