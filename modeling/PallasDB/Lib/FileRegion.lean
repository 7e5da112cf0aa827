import PallasDB.Lib.WriteBack

/-! # Regions of a file

What a file holds at an offset, how reads at an offset return it, and which writes leave it alone. A layout is
described by the regions it is made of; a region splits into the regions of its parts.
-/

namespace WriteBack

variable {α : Type*}

/-- Read so many elements from an offset on; a file that ends before is an error. -/
def readAt (file : List α) (offset size : ℕ) : Option (List α) :=
  let data := (file.drop offset).take size
  if data.length = size then some data else none

/-- The file holds the data from the offset on. -/
def Holds (file : List α) (offset : ℕ) (data : List α) : Prop := data <+: file.drop offset

namespace Holds

variable {file data first second : List α} {offset : ℕ}

theorem nil (file : List α) (offset : ℕ) : Holds file offset [] := List.nil_prefix

theorem readAt (holds : Holds file offset data) {size : ℕ} (whole : size = data.length) :
    readAt file offset size = some data := by
  subst whole
  have taken : (file.drop offset).take data.length = data := (List.prefix_iff_eq_take.mp holds).symm
  rw [WriteBack.readAt, taken]
  exact if_pos rfl

/-- A region that is not empty lies inside the file. -/
theorem le_length (holds : Holds file offset data) (inhabited : data ≠ []) : offset + data.length ≤ file.length := by
  have fits := List.IsPrefix.length_le holds
  have positive := List.length_pos_iff.mpr inhabited
  rw [List.length_drop] at fits
  omega

/-- Two regions next to each other are one. -/
theorem append : Holds file offset (first ++ second) ↔
    Holds file offset first ∧ Holds file (offset + first.length) second := by
  constructor
  · rintro ⟨rest, split⟩
    rw [List.append_assoc] at split
    refine ⟨⟨second ++ rest, split⟩, ⟨rest, ?_⟩⟩
    rw [← List.drop_drop, ← split, List.drop_left]
  · rintro ⟨⟨rest, split⟩, holds⟩
    rw [Holds, ← List.drop_drop, ← split, List.drop_left] at holds
    rw [Holds, ← split]
    exact (List.prefix_append_right_inj first).mpr holds

theorem left (holds : Holds file offset (first ++ second)) : Holds file offset first := (append.mp holds).1

theorem right (holds : Holds file offset (first ++ second)) : Holds file (offset + first.length) second :=
  (append.mp holds).2

/-- A region inside a region. -/
theorem middle {before after : List α} (holds : Holds file offset (before ++ (data ++ after))) :
    Holds file (offset + before.length) data := holds.right.left

end Holds

variable [Inhabited α] {file data : List α} {offset place : ℕ}

theorem length_write (file : List α) (offset : ℕ) (data : List α) :
    ((Op.write offset data).apply file).length = max file.length (offset + data.length) := by
  have inside := size_le_pad offset file
  simp only [Op.apply, List.length_append, List.length_take, List.length_drop, Nat.min_eq_left inside]
  omega

theorem length_write_of_le (inside : offset + data.length ≤ file.length) :
    ((Op.write offset data).apply file).length = file.length := by
  rw [length_write, Nat.max_eq_left inside]

/-- A write is held where it was made. -/
theorem holds_write (file : List α) (offset : ℕ) (data : List α) :
    Holds ((Op.write offset data).apply file) offset data := by
  have front : ((pad offset file).take offset).length = offset := by
    rw [List.length_take, Nat.min_eq_left (size_le_pad offset file)]
  refine ⟨file.drop (offset + data.length), ?_⟩
  rw [Op.apply, List.append_assoc, List.drop_left' front]

/-- A write behind a region leaves it alone. -/
theorem Holds.write_behind {region : List α} (holds : Holds file place region) (behind : place + region.length ≤ offset)
    (data : List α) : Holds ((Op.write offset data).apply file) place region := by
  by_cases empty : region = []
  · subst empty
    exact Holds.nil _ _
  have inside := holds.le_length empty
  have kept : ((Op.write offset data).apply file).take (place + region.length) = file.take (place + region.length) :=
    Op.take_apply behind inside
  have cut (whole : List α) : (whole.drop place).take region.length =
    (whole.take (place + region.length)).drop place := by
    rw [List.drop_take, Nat.add_sub_cancel_left]
  rw [Holds, List.prefix_iff_eq_take, cut, kept, ← cut]
  exact List.prefix_iff_eq_take.mp holds

/-- A write before a region leaves it alone. -/
theorem Holds.write_before {region : List α} (holds : Holds file place region) (before : offset + data.length ≤ place) :
    Holds ((Op.write offset data).apply file) place region := by
  have front : ((pad offset file).take offset ++ data).length = offset + data.length := by
    rw [List.length_append, List.length_take, Nat.min_eq_left (size_le_pad offset file)]
  have same : ((Op.write offset data).apply file).drop place = file.drop place := by
    rw [Op.apply, ← Nat.add_sub_cancel' before, ← List.drop_drop, List.drop_left' front, List.drop_drop]
  rwa [Holds, same]

end WriteBack
