import PallasDB.Db.SortedArray
import Mathlib.Data.List.Sort

/-! # Rebuilding the memtable from log records

`openLog` sorts the records of the log by key, keeping the order of equal keys, and keeps the last record
of each key. The result is strictly increasing whatever the log holds, and shows the last record written
for a key.
-/

namespace PallasDB

open SortedRun

/-- The size of the record of a slot. -/
def slotSize (slot : KVSlot) : ℕ := slot.key.length + (slot.val.getD []).length

/-- Push a record, replacing the last one if it has the same key. -/
def pushReplacing (mem : SortedArray) (slot : KVSlot) : SortedArray :=
  if mem.getLast?.any fun last => decide (last.key = slot.key) then mem.dropLast ++ [slot] else mem ++ [slot]

/-- The memtable `openLog` builds from the records of the log. -/
def replayMem (records : List KVSlot) : SortedArray :=
  (records.mergeSort fun a b => decide (a.key ≤ b.key)).foldl pushReplacing []

@[simp] theorem replayMem_nil : replayMem [] = [] := by simp [replayMem]

private theorem pushReplacing_spec {mem : SortedArray} (increasing : Increasing mem)
    {slot : KVSlot} (above : ∀ other ∈ mem, other.key ≤ slot.key) :
    Increasing (pushReplacing mem slot) ∧ (∀ other ∈ pushReplacing mem slot, other.key ≤ slot.key) ∧
      ∀ key, lookup (pushReplacing mem slot) key = if key = slot.key then some slot.val else lookup mem key := by
  rcases List.eq_nil_or_concat mem with rfl | ⟨front, last, rfl⟩
  · refine ⟨by simp [pushReplacing, Increasing], by simp [pushReplacing], fun key => ?_⟩
    simp [pushReplacing, lookup_cons, eq_comm]
  · rw [List.concat_eq_append] at increasing above ⊢
    obtain ⟨frontSorted, -, below⟩ := increasing_append.mp increasing
    by_cases same : last.key = slot.key
    · have replaced : pushReplacing (front ++ [last]) slot = front ++ [slot] := by simp [pushReplacing, same]
      rw [replaced]
      refine ⟨increasing_append.mpr ⟨frontSorted, by simp [Increasing], fun a inFront b inLast => ?_⟩, ?_, ?_⟩
      · rw [List.mem_singleton.mp inLast, ← same]
        exact below a inFront last (by simp)
      · intro other member
        rcases List.mem_append.mp member with inFront | inLast
        · exact above other (by simp [inFront])
        · rw [List.mem_singleton.mp inLast]
      · intro key
        have absent : lookup front slot.key = none := by
          rw [lookup_eq_none]
          intro other member equal
          exact absurd (below other member last (by simp)) (by simp [equal, same])
        rw [lookup_append, lookup_append, lookup_cons, lookup_cons, same]
        by_cases equal : key = slot.key
        · subst equal
          simp [absent]
        · simp [equal, Ne.symm equal]
    · have pushed : pushReplacing (front ++ [last]) slot = front ++ [last] ++ [slot] := by
        simp [pushReplacing, same]
      have strictly : ∀ other ∈ front ++ [last], other.key < slot.key := by
        intro other member
        rcases List.mem_append.mp member with inFront | inLast
        · exact (below other inFront last (by simp)).trans_le (above last (by simp))
        · rw [List.mem_singleton.mp inLast]
          exact lt_of_le_of_ne (above last (by simp)) same
      rw [pushed]
      refine ⟨increasing_append.mpr ⟨increasing, by simp [Increasing], fun a inMem b inLast => ?_⟩, ?_, ?_⟩
      · rw [List.mem_singleton.mp inLast]
        exact strictly a inMem
      · intro other member
        rcases List.mem_append.mp member with inMem | inLast
        · exact above other inMem
        · rw [List.mem_singleton.mp inLast]
      · intro key
        rw [lookup_append, lookup_cons]
        by_cases equal : key = slot.key
        · subst equal
          have absent : lookup (front ++ [last]) slot.key = none := by
            rw [lookup_eq_none]
            exact fun other member => (strictly other member).ne
          simp [absent]
        · simp [equal, Ne.symm equal]

private theorem foldl_pushReplacing {records : List KVSlot} (ordered : Ordered records)
    {mem : SortedArray} (increasing : Increasing mem)
    (above : ∀ old ∈ mem, ∀ new ∈ records, old.key ≤ new.key) :
    Increasing (records.foldl pushReplacing mem) ∧
      ∀ key, lookup (records.foldl pushReplacing mem) key = (lookup records.reverse key).or (lookup mem key) := by
  induction records generalizing mem with
  | nil => exact ⟨increasing, fun key => by simp⟩
  | cons slot rest ih =>
    obtain ⟨below, tail⟩ := List.pairwise_cons.mp ordered
    obtain ⟨pushed, bounded, found⟩ :=
      pushReplacing_spec increasing fun old member => above old member slot (List.mem_cons_self ..)
    obtain ⟨sorted, lookups⟩ := ih tail pushed fun old member new later =>
      (bounded old member).trans (below new later)
    refine ⟨sorted, fun key => ?_⟩
    rw [List.foldl_cons, lookups key, found key, List.reverse_cons, lookup_append, Option.or_assoc]
    by_cases same : key = slot.key
    · simp [same, lookup_cons]
    · simp [same, Ne.symm same, lookup_cons]

private theorem key_le_trans (a b c : KVSlot) (first : decide (a.key ≤ b.key) = true)
    (second : decide (b.key ≤ c.key) = true) : decide (a.key ≤ c.key) = true := by
  simp only [decide_eq_true_eq] at first second ⊢
  exact first.trans second

private theorem key_le_total (a b : KVSlot) : (decide (a.key ≤ b.key) || decide (b.key ≤ a.key)) = true := by
  simpa using le_total a.key b.key

/-- Stable sorting keeps the records of one key in order. -/
private theorem filter_mergeSort (records : List KVSlot) (key : Bytes) :
    (records.mergeSort fun a b => decide (a.key ≤ b.key)).filter (fun slot => decide (slot.key = key)) =
      records.filter fun slot => decide (slot.key = key) := by
  have keyed : (records.filter fun slot => decide (slot.key = key)).Pairwise
      fun a b => decide (a.key ≤ b.key) = true := by
    refine List.pairwise_of_forall_mem_list fun a inA b inB => ?_
    have first : a.key = key := by simpa using (List.mem_filter.mp inA).2
    have second : b.key = key := by simpa using (List.mem_filter.mp inB).2
    simp [first, second]
  have kept := (List.sublist_mergeSort key_le_trans key_le_total keyed List.filter_sublist).filter
    fun slot => decide (slot.key = key)
  rw [List.filter_filter] at kept
  simp only [Bool.and_self] at kept
  have size : ((records.mergeSort fun a b => decide (a.key ≤ b.key)).filter fun slot =>
    decide (slot.key = key)).length =
      (records.filter fun slot => decide (slot.key = key)).length :=
    ((List.mergeSort_perm records _).filter _).length_eq
  exact (kept.eq_of_length size.symm).symm

private theorem ordered_mergeSort (records : List KVSlot) :
    Ordered (records.mergeSort fun a b => decide (a.key ≤ b.key)) :=
  (List.pairwise_mergeSort key_le_trans key_le_total records).imp fun holds => by simpa using holds

/-- Replay never builds a run that holds a key twice. -/
theorem replayMem_increasing (records : List KVSlot) : Increasing (replayMem records) :=
  (foldl_pushReplacing (ordered_mergeSort records) increasing_nil (by simp)).1

/-- The rebuilt memtable shows the last record of every key. -/
theorem lookup_replayMem (records : List KVSlot) (key : Bytes) :
    lookup (replayMem records) key = lookup records.reverse key := by
  rw [replayMem, (foldl_pushReplacing (ordered_mergeSort records) increasing_nil (by simp)).2, lookup_reverse,
    filter_mergeSort, ← lookup_reverse]
  simp

/-- Replaying in two goes is replaying at once. -/
theorem replayMem_append (first second : List KVSlot) :
    replayMem (replayMem first ++ second) = replayMem (first ++ second) := by
  refine (replayMem_increasing _).ext (replayMem_increasing _) fun key => ?_
  rw [lookup_replayMem, lookup_replayMem, List.reverse_append, List.reverse_append, lookup_append, lookup_append,
    (replayMem_increasing first).lookup_reverse, lookup_replayMem]

end PallasDB
