import Mathlib.Data.List.Basic

/-! # Files behind a write-back cache

A file is what has reached the disk together with the operations issued since the last flush. A crash
keeps any of those operations and loses the others; the ones it keeps take effect in the order in which
they were issued. Operations that act from some offset on leave everything before it alone, whichever of
them survive.
-/

namespace WriteBack

variable {α : Type*} [Inhabited α]

inductive Op (α : Type*) where
  | write (offset : ℕ) (data : List α)
  | resize (size : ℕ)

/-- Fill up with blanks to the given size. -/
def pad (size : ℕ) (file : List α) : List α := file ++ List.replicate (size - file.length) default

namespace Op

def apply (file : List α) : Op α → List α
  | write offset data => (pad offset file).take offset ++ data ++ file.drop (offset + data.length)
  | resize size => (pad size file).take size

/-- Where an operation starts to act. -/
def start : Op α → ℕ
  | write offset _ => offset
  | resize size => size

end Op

structure File (α : Type*) where
  durable : List α
  pending : List (Op α)

namespace File

/-- What a reader of the running system sees. -/
def content (file : File α) : List α := file.pending.foldl Op.apply file.durable

def issue (file : File α) (op : Op α) : File α := { file with pending := file.pending ++ [op] }

def sync (file : File α) : File α := ⟨file.content, []⟩

/-- The pending operations a crash keeps. -/
def survivors (file : File α) (keep : List Bool) : List (Op α) :=
  ((file.pending.zip keep).filter Prod.snd).map Prod.fst

/-- What a crash that keeps the given operations leaves on the disk. -/
def crash (file : File α) (keep : List Bool) : List α := (file.survivors keep).foldl Op.apply file.durable

/-- The images that some crash leaves. -/
def Leaves (file : File α) (image : List α) : Prop :=
  ∃ kept : List (Op α), kept.Sublist file.pending ∧ image = kept.foldl Op.apply file.durable

end File

omit [Inhabited α] in
private theorem take_cut {bound : ℕ} {front back : List α} (inside : bound ≤ front.length) :
    (front ++ back).take bound = front.take bound := List.take_append_of_le_length inside

theorem size_le_pad (size : ℕ) (file : List α) : size ≤ (pad size file).length := by
  simp only [pad, List.length_append, List.length_replicate]
  omega

namespace Op

variable {file : List α} {op : Op α} {bound : ℕ}

/-- An operation leaves what comes before it alone. -/
theorem take_apply (later : bound ≤ op.start) (inside : bound ≤ file.length) :
    (op.apply file).take bound = file.take bound := by
  have padded (size : ℕ) (low : bound ≤ size) : ((pad size file).take size).take bound = file.take bound := by
    rw [List.take_take, Nat.min_eq_left low]
    exact take_cut inside
  cases op with
  | write offset data =>
    have room : bound ≤ ((pad offset file).take offset).length := by
      rw [List.length_take, Nat.min_eq_left (size_le_pad offset file)]
      exact later
    rw [apply, List.append_assoc, take_cut room, padded offset later]
  | resize size => exact padded size later

theorem le_length_apply (file : List α) (later : bound ≤ op.start) : bound ≤ (op.apply file).length := by
  apply Nat.le_trans later
  cases op with
  | write offset data =>
    have room := size_le_pad offset file
    simp only [start, apply, List.length_append, List.length_take]
    omega
  | resize size => exact Nat.le_of_eq (by simp [start, apply, size_le_pad])

theorem take_foldl {ops : List (Op α)} (later : ∀ op ∈ ops, bound ≤ op.start) (inside : bound ≤ file.length) :
    (ops.foldl apply file).take bound = file.take bound ∧ bound ≤ (ops.foldl apply file).length := by
  induction ops generalizing file with
  | nil => exact ⟨rfl, inside⟩
  | cons op rest ih =>
    have here := later op (List.mem_cons_self ..)
    obtain ⟨same, reaches⟩ := ih (fun other member => later other (List.mem_cons_of_mem _ member))
      (le_length_apply file here)
    refine ⟨?_, reaches⟩
    rw [List.foldl_cons, same, take_apply here inside]

/-- Writing at the end of what is known extends it by the data. -/
theorem take_write {front : List α} (data : List α) (known : file.take front.length = front) :
    ((write front.length data).apply file).take (front ++ data).length = front ++ data := by
  have inside : front.length ≤ file.length := by
    have sizes := congrArg List.length known
    rw [List.length_take] at sizes
    omega
  have kept : (pad front.length file).take front.length = front := by
    rw [pad, take_cut inside, known]
  rw [apply, kept]
  exact List.take_left' rfl

end Op

namespace File

variable {file : File α} {bound : ℕ}

omit [Inhabited α] in
private theorem kept_sublist (ops : List (Op α)) (keep : List Bool) :
    (((ops.zip keep).filter Prod.snd).map Prod.fst).Sublist ops := by
  induction ops generalizing keep with
  | nil => exact List.Sublist.refl _
  | cons op rest ih =>
    cases keep with
    | nil => exact List.nil_sublist _
    | cons kept keep =>
      cases kept
      · exact (ih keep).cons op
      · exact (ih keep).cons_cons op

omit [Inhabited α] in
theorem survivors_sublist (keep : List Bool) : (file.survivors keep).Sublist file.pending :=
  kept_sublist file.pending keep

theorem leaves_crash (file : File α) (keep : List Bool) : file.Leaves (file.crash keep) :=
  ⟨file.survivors keep, survivors_sublist keep, rfl⟩

/-- When every operation survives, the file is as its readers saw it. -/
theorem crash_replicate (file : File α) : file.crash (List.replicate file.pending.length true) = file.content := by
  have all (ops : List (Op α)) : ((ops.zip (List.replicate ops.length true)).filter Prod.snd).map Prod.fst = ops := by
    induction ops with
    | nil => rfl
    | cons op rest ih => simp [List.replicate_succ, ih]
  rw [crash, survivors, all]
  rfl

/-- Nothing before the pending operations is at risk. -/
theorem Leaves.take_eq {image : List α} (left : file.Leaves image)
    (later : ∀ op ∈ file.pending, bound ≤ op.start) (inside : bound ≤ file.durable.length) :
    image.take bound = file.durable.take bound := by
  obtain ⟨kept, sublist, rfl⟩ := left
  exact (Op.take_foldl (fun op member => later op (sublist.subset member)) inside).1

/-- A crash loses the last operation or keeps it on top of what it leaves of the others. -/
theorem leaves_issue {op : Op α} {image : List α} (left : (file.issue op).Leaves image) :
    file.Leaves image ∨ ∃ rest, file.Leaves rest ∧ image = op.apply rest := by
  obtain ⟨kept, sublist, rfl⟩ := left
  obtain ⟨front, back, rfl, inFront, inBack⟩ := List.sublist_append_iff.mp sublist
  rcases List.sublist_singleton.mp inBack with rfl | rfl
  · exact .inl ⟨front, inFront, by simp [issue]⟩
  · exact .inr ⟨_, ⟨front, inFront, rfl⟩, by simp [issue]⟩

theorem content_issue (op : Op α) : (file.issue op).content = op.apply file.content := by
  simp [content, issue]

end File

end WriteBack
