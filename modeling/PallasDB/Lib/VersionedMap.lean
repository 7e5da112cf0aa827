import Mathlib.Data.List.Basic

/-! # Versioned maps with snapshots

The purpose of a snapshot store, told by the journal of what its transactions did. The contents at any
moment are the updates committed so far, folded over the initial contents in commit order. A transaction
sees the contents of the moment it began with its own writes folded over them, whatever commits later.
-/

namespace VersionedMap

/-- What happened, in order: transactions begin, write, take effect and return. -/
inductive Observation (T U W R : Type*) where
  | began (tx : T)
  | wrote (tx : T) (write : W)
  | committed (tx : T) (updates : U)
  | finished (tx : T) (result : R)
deriving DecidableEq, Repr

variable {T U W R M : Type*}

abbrev Journal (T U W R : Type*) := List (Observation T U W R)

/-- The updates that took effect, in order. -/
def commits (journal : Journal T U W R) : List U :=
  journal.filterMap fun
    | .committed _ updates => some updates
    | _ => none

/-- The committed contents. -/
def contents (apply : M → U → M) (initial : M) (journal : Journal T U W R) : M :=
  (commits journal).foldl apply initial

variable [DecidableEq T] {rest : Journal T U W R} {updates : U}

def isBegin (tx : T) : Observation T U W R → Bool
  | .began other => decide (other = tx)
  | _ => false

/-- The part of the journal before a transaction began. -/
def before (journal : Journal T U W R) (tx : T) : Journal T U W R :=
  journal.takeWhile fun observation => !isBegin tx observation

/-- The writes a transaction issued, in order. -/
def writes (journal : Journal T U W R) (tx : T) : List W :=
  journal.filterMap fun
    | .wrote other write => if other = tx then some write else none
    | _ => none

/-- The snapshot of a transaction with its own writes folded over it. -/
def view (apply : M → U → M) (write : M → W → M) (initial : M) (journal : Journal T U W R) (tx : T) : M :=
  (writes journal tx).foldl write (contents apply initial (before journal tx))

section Lemmas

variable {apply : M → U → M} {write : M → W → M} {initial : M} {journal : Journal T U W R} {tx : T}

omit [DecidableEq T] in
theorem contents_committed (tx : T) (updates : U) : contents apply initial (journal ++ [.committed tx updates]) =
      apply (contents apply initial journal) updates := by
  simp [contents, commits]

omit [DecidableEq T] in
/-- Only a commit changes the contents. -/
theorem contents_append (quiet : commits rest = []) :
    contents apply initial (journal ++ rest) = contents apply initial journal := by
  rw [contents, contents, commits, List.filterMap_append, ← commits, ← commits, quiet, List.append_nil]

/-- Later observations do not reach back before the beginning. -/
theorem before_append (present : .began tx ∈ journal) (rest : Journal T U W R) :
    before (journal ++ rest) tx = before journal tx := by
  induction journal with
  | nil => contradiction
  | cons first others ih =>
    simp only [before, List.cons_append, List.takeWhile_cons]
    by_cases here : isBegin tx first = true
    · simp [here]
    · have later : .began tx ∈ others := by
        rcases List.mem_cons.mp present with rfl | later
        · simp [isBegin] at here
        · exact later
      have tail := ih later
      simp only [before] at tail
      simp [here, tail]

theorem before_fresh (fresh : .began tx ∉ journal) (rest : Journal T U W R) :
    before (journal ++ .began tx :: rest) tx = journal := by
  have none : ∀ observation ∈ journal, (!isBegin tx observation) = true := by
    intro observation member
    cases observation with
    | began other =>
      have other_ne : other ≠ tx := by
        rintro rfl
        exact fresh member
      simp [isBegin, other_ne]
    | _ => rfl
  rw [before, List.takeWhile_append_of_pos none]
  simp [isBegin]

/-- A transaction starts out seeing the committed contents. -/
theorem view_began (fresh : .began tx ∉ journal) (silent : writes journal tx = []) :
    view apply write initial (journal ++ [.began tx]) tx = contents apply initial journal := by
  have quiet : writes (journal ++ [.began tx]) tx = [] := by
    simp only [writes, List.filterMap_append] at silent ⊢
    rw [silent]
    rfl
  rw [view, before_fresh fresh, quiet]
  rfl

theorem view_wrote (present : .began tx ∈ journal) (change : W) :
    view apply write initial (journal ++ [.wrote tx change]) tx =
      write (view apply write initial journal tx) change := by
  rw [view, before_append present]
  simp [view, writes]

/-- Nothing but its own writes changes what a transaction sees. -/
theorem view_append_of_writes (present : .began tx ∈ journal) (others : writes rest tx = []) :
    view apply write initial (journal ++ rest) tx = view apply write initial journal tx := by
  have quiet : writes (journal ++ rest) tx = writes journal tx := by
    simp only [writes, List.filterMap_append] at others ⊢
    rw [others, List.append_nil]
  rw [view, before_append present, quiet, view]

/-! ### Commits since a transaction began -/

omit [DecidableEq T] in
/-- Some transaction took effect after another one began. -/
def CommittedSince (journal : Journal T U W R) (tx : T) (updates : U) : Prop :=
  ∃ front back other, journal = front ++ .began tx :: back ∧ .committed other updates ∈ back

omit [DecidableEq T] in
theorem committedSince_iff_getElem? :
    CommittedSince journal tx updates ↔ ∃ (start place : ℕ) (other : T), start < place ∧
      journal[start]? = some (.began tx) ∧ journal[place]? = some (.committed other updates) := by
  constructor
  · rintro ⟨front, back, other, rfl, member⟩
    obtain ⟨offset, read⟩ := List.mem_iff_getElem?.mp member
    refine ⟨front.length, front.length + (offset + 1), other, by omega, by simp, ?_⟩
    rwa [List.getElem?_append_right (Nat.le_add_right ..), Nat.add_sub_cancel_left, List.getElem?_cons_succ]
  · rintro ⟨start, place, other, later, begins, read⟩
    obtain ⟨inside, begins⟩ := List.getElem?_eq_some_iff.mp begins
    refine ⟨journal.take start, journal.drop (start + 1), other, ?_, ?_⟩
    · rw [← begins, ← List.drop_eq_getElem_cons inside, List.take_append_drop]
    · refine List.mem_iff_getElem?.mpr ⟨place - (start + 1), ?_⟩
      rwa [List.getElem?_drop, Nat.add_sub_cancel' (Nat.succ_le_of_lt later)]

omit [DecidableEq T] in
theorem commits_append (first second : Journal T U W R) :
    commits (first ++ second) = commits first ++ commits second := List.filterMap_append

omit [DecidableEq T] in
theorem mem_commits : updates ∈ commits journal ↔ ∃ other, .committed other updates ∈ journal := by
  simp only [commits, List.mem_filterMap]
  constructor
  · rintro ⟨observation, member, found⟩
    cases observation with
    | committed other current => cases found; exact ⟨other, member⟩
    | _ => contradiction
  · rintro ⟨other, member⟩
    exact ⟨_, member, rfl⟩

theorem before_split (present : .began tx ∈ journal) : ∃ back, journal = before journal tx ++ .began tx :: back := by
  induction journal with
  | nil => contradiction
  | cons first rest ih =>
    by_cases here : isBegin tx first = true
    · cases first with
      | began other =>
        obtain rfl : other = tx := by simpa [isBegin] using here
        exact ⟨rest, by simp [before, isBegin]⟩
      | _ => simp [isBegin] at here
    · have later : .began tx ∈ rest := by
        rcases List.mem_cons.mp present with rfl | later
        · simp [isBegin] at here
        · exact later
      obtain ⟨back, split⟩ := ih later
      refine ⟨back, ?_⟩
      conv_lhs => rw [split]
      simp [before, here]

/-- The commits since a transaction began are those numbered from its snapshot on. -/
theorem committedSince_iff (present : .began tx ∈ journal) : CommittedSince journal tx updates ↔
      ∃ index, (commits (before journal tx)).length ≤ index ∧ (commits journal)[index]? = some updates := by
  constructor
  · rintro ⟨front, back, other, rfl, member⟩
    obtain ⟨offset, read⟩ := List.mem_iff_getElem?.mp (mem_commits.mpr ⟨other, member⟩)
    -- the first beginning may come even earlier than the given one
    have short : (commits (before (front ++ .began tx :: back) tx)).length ≤ (commits front).length := by
      by_cases early : .began tx ∈ front
      · rw [before_append early]
        exact ((List.takeWhile_sublist _).filterMap _).length_le
      · exact Nat.le_of_eq (congrArg (fun journal => (commits journal).length) (before_fresh early back))
    refine ⟨(commits front).length + offset, by omega, ?_⟩
    rw [commits_append, List.getElem?_append_right (by omega), Nat.add_sub_cancel_left]
    exact read
  · rintro ⟨index, since, read⟩
    obtain ⟨back, split⟩ := before_split present
    rw [split, commits_append, List.getElem?_append_right since] at read
    obtain ⟨other, member⟩ := mem_commits.mp (List.mem_of_getElem? read)
    refine ⟨_, back, other, split, ?_⟩
    simpa using member

omit [DecidableEq T] in
theorem CommittedSince.append (since : CommittedSince journal tx updates) (rest : Journal T U W R) :
    CommittedSince (journal ++ rest) tx updates := by
  obtain ⟨front, back, other, rfl, member⟩ := since
  exact ⟨front, back ++ rest, other, by simp, List.mem_append_left _ member⟩

/-- An observation that is no commit adds nothing to the commits since. -/
theorem committedSince_append_iff (present : .began tx ∈ journal) (none : commits rest = []) :
    CommittedSince (journal ++ rest) tx updates ↔ CommittedSince journal tx updates := by
  rw [committedSince_iff (List.mem_append_left _ present), committedSince_iff present,
    before_append present, commits_append, none, List.append_nil]

end Lemmas

end VersionedMap
