import PallasDB.Lib.SortedRun
import Mathlib.Data.Int.Basic
import Mathlib.Data.List.TakeWhile

/-! # Bidirectional cursors over sorted runs

A cursor sits on a slot of a run, one place before the first or one place after the last. Other
iterators are specified by the cursor they simulate: they agree with it on the current slot now and
after every mixture of forward and backward moves. Skipping tombstones in either direction simulates
the cursor over the live slots, and draining an iterator reads off the slots of its cursor.
-/

namespace SortedRun

variable {K V : Type*} {index : ℕ} {count : ℕ}

/-- The observations and moves of an iterator, with a bound on the slots it can visit. -/
class SlotIter (ι : Type*) (K V : outParam Type*) where
  slot? : ι → Option (Slot K V)
  next : ι → ι
  prev : ι → ι
  size : ι → ℕ

open SlotIter (slot? next prev size)

/-- A position in a run, from `-1` to its length. -/
structure Cursor (K V : Type*) where
  run : Run K V
  pos : ℤ
deriving DecidableEq, Repr

namespace Cursor

def slot? (cursor : Cursor K V) : Option (Slot K V) :=
  if 0 ≤ cursor.pos then cursor.run[cursor.pos.toNat]? else none

def next (cursor : Cursor K V) : Cursor K V :=
  if cursor.pos < cursor.run.length then { cursor with pos := cursor.pos + 1 } else cursor

def prev (cursor : Cursor K V) : Cursor K V :=
  if 0 ≤ cursor.pos then { cursor with pos := cursor.pos - 1 } else cursor

theorem slot?_at (run : Run K V) (index : ℕ) : slot? (⟨run, index⟩ : Cursor K V) = run[index]? := by simp [slot?]

theorem slot?_before (run : Run K V) (count : ℕ) :
    slot? (⟨run, count - 1⟩ : Cursor K V) = if count = 0 then none else run[count - 1]? := by
  cases count with
  | zero => rfl
  | succ count => simp [slot?]

theorem next_at {run : Run K V} (inside : index < run.length) :
    next (⟨run, index⟩ : Cursor K V) = ⟨run, (index + 1 : ℕ)⟩ := by simp [next, inside]

theorem next_start (run : Run K V) : next (⟨run, -1⟩ : Cursor K V) = ⟨run, (0 : ℕ)⟩ := by
  rfl

theorem next_end (run : Run K V) : next (⟨run, run.length⟩ : Cursor K V) = ⟨run, run.length⟩ := by simp [next]

theorem prev_at (run : Run K V) (index : ℕ) : prev (⟨run, index⟩ : Cursor K V) = ⟨run, index - 1⟩ := by simp [prev]

end Cursor

instance : SlotIter (Cursor K V) K V where
  slot? := Cursor.slot?
  next := Cursor.next
  prev := Cursor.prev
  size cursor := cursor.run.length

/-- An iterator and a cursor that agree on the current slot now and after every move. -/
structure Simulates {ι : Type*} [SlotIter ι K V] (tracks : ι → Cursor K V → Prop) : Prop where
  slot {iter : ι} {cursor : Cursor K V} (related : tracks iter cursor) : slot? iter = cursor.slot?
  next {iter : ι} {cursor : Cursor K V} (related : tracks iter cursor) : tracks (next iter) cursor.next
  prev {iter : ι} {cursor : Cursor K V} (related : tracks iter cursor) : tracks (prev iter) cursor.prev
  size {iter : ι} {cursor : Cursor K V} (related : tracks iter cursor) : cursor.run.length ≤ size iter

theorem Cursor.simulates_self : Simulates (fun cursor target : Cursor K V => cursor = target) where
  slot := by rintro _ _ rfl; rfl
  next := by rintro _ _ rfl; rfl
  prev := by rintro _ _ rfl; rfl
  size := by rintro _ _ rfl; exact Nat.le_refl _

/-! ## Walks -/

inductive Move where
  | next
  | prev
deriving DecidableEq, Repr

section Walk

variable {ι : Type*} [SlotIter ι K V]

def move (iter : ι) : Move → ι
  | .next => next iter
  | .prev => prev iter

def walk (iter : ι) (moves : List Move) : ι := moves.foldl move iter

variable {tracks : ι → Cursor K V → Prop} (simulation : Simulates tracks) {iter : ι} {cursor : Cursor K V}
  (related : tracks iter cursor) (moves : List Move)

include simulation related

/-- A simulation carries over to every walk. -/
theorem Simulates.walk : tracks (SortedRun.walk iter moves) (SortedRun.walk cursor moves) := by
  induction moves generalizing iter cursor with
  | nil => exact related
  | cons first rest ih =>
    cases first with
    | next => exact ih (simulation.next related)
    | prev => exact ih (simulation.prev related)

theorem Simulates.slot_walk :
    SlotIter.slot? (SortedRun.walk iter moves) = SlotIter.slot? (SortedRun.walk cursor moves) :=
  simulation.slot (simulation.walk related moves)

end Walk

/-! ## Draining -/

variable {follow : Cursor K V → Cursor K V} {cursor : Cursor K V}

section Drain

variable {ι : Type*} [SlotIter ι K V]

/-- The slots met while moving, up to the first one that is not kept. -/
def drain (move : ι → ι) (keep : Slot K V → Bool) : ℕ → ι → Run K V
  | 0, _ => []
  | fuel + 1, iter =>
      match slot? iter with
      | some slot => if keep slot then slot :: drain move keep fuel (move iter) else []
      | none => []

theorem Simulates.drain {tracks : ι → Cursor K V → Prop} (simulation : Simulates tracks) {step : ι → ι}
    (follows : ∀ {iter cursor}, tracks iter cursor → tracks (step iter) (follow cursor)) (keep : Slot K V → Bool)
    (fuel : ℕ) {iter : ι} (related : tracks iter cursor) :
    SortedRun.drain step keep fuel iter = SortedRun.drain follow keep fuel cursor := by
  induction fuel generalizing iter cursor with
  | zero => rfl
  | succ fuel ih =>
    rw [SortedRun.drain, SortedRun.drain, simulation.slot related, ih (follows related)]
    rfl

end Drain

theorem drain_cursor_next (run : Run K V) (keep : Slot K V → Bool) {fuel : ℕ} (enough : run.length - index ≤ fuel) :
    drain Cursor.next keep fuel ⟨run, index⟩ = (run.drop index).takeWhile keep := by
  induction fuel generalizing index with
  | zero => rw [List.drop_eq_nil_of_le (by omega)]; rfl
  | succ fuel ih =>
    rw [drain, show slot? _ = run[index]? from Cursor.slot?_at ..]
    cases read : run[index]? with
    | none => rw [List.drop_eq_nil_of_le (List.getElem?_eq_none_iff.mp read)]; rfl
    | some slot =>
      obtain ⟨bound, here⟩ := List.getElem?_eq_some_iff.mp read
      rw [List.drop_eq_getElem_cons bound, here, List.takeWhile_cons, Cursor.next_at bound, ih (by omega)]

theorem drain_cursor_prev (run : Run K V) (keep : Slot K V → Bool) {fuel : ℕ} (inside : count ≤ run.length)
    (enough : count ≤ fuel) :
    drain Cursor.prev keep fuel ⟨run, count - 1⟩ = (run.take count).reverse.takeWhile keep := by
  induction fuel generalizing count with
  | zero =>
    obtain rfl : count = 0 := by omega
    rfl
  | succ fuel ih =>
    cases count with
    | zero => rfl
    | succ count =>
      have read : run[count]? = some run[count] := List.getElem?_eq_getElem (by omega)
      rw [Int.natCast_succ, Int.add_sub_cancel, drain, show slot? _ = run[count]? from Cursor.slot?_at .., read,
        Cursor.prev_at, ih (by omega) (by omega), List.take_succ_eq_append_getElem (by omega),
        List.reverse_append, List.reverse_singleton, List.singleton_append, List.takeWhile_cons]

/-! ## Skipping tombstones -/

def Slot.live (slot : Slot K V) : Bool := slot.val.isSome

section Skip

variable {ι : Type*} [SlotIter ι K V]

/-- Move on while the current slot is a tombstone. -/
def skipDeleted (move : ι → ι) : ℕ → ι → ι
  | 0, iter => iter
  | fuel + 1, iter => if (slot? iter).any fun slot => !slot.live then skipDeleted move fuel (move iter) else iter

/-- An iterator whose moves skip tombstones. -/
structure LiveIter (ι : Type*) where
  inner : ι

instance : SlotIter (LiveIter ι) K V where
  slot? iter := slot? iter.inner
  next iter := ⟨skipDeleted next (size iter.inner) (next iter.inner)⟩
  prev iter := ⟨skipDeleted prev (size iter.inner) (prev iter.inner)⟩
  size iter := size iter.inner

theorem Simulates.skip {tracks : ι → Cursor K V → Prop} (simulation : Simulates tracks) {step : ι → ι}
    (follows : ∀ {iter cursor}, tracks iter cursor → tracks (step iter) (follow cursor)) (fuel : ℕ) {iter : ι}
    (related : tracks iter cursor) : tracks (skipDeleted step fuel iter) (skipDeleted follow fuel cursor) := by
  induction fuel generalizing iter cursor with
  | zero => exact related
  | succ fuel ih =>
    rw [skipDeleted, skipDeleted, simulation.slot related, show slot? cursor = cursor.slot? from rfl]
    split
    · exact ih (follows related)
    · exact related

end Skip

/-- Live slots before a position. -/
def liveBefore (run : Run K V) (index : ℕ) : ℕ := (run.take index).countP Slot.live

theorem liveBefore_succ {run : Run K V} {slot : Slot K V} (read : run[index]? = some slot) :
    liveBefore run (index + 1) = liveBefore run index + if slot.live then 1 else 0 := by
  obtain ⟨bound, here⟩ := List.getElem?_eq_some_iff.mp read
  rw [liveBefore, List.take_succ_eq_append_getElem bound, List.countP_append, here,
    List.countP_singleton, liveBefore]

theorem liveBefore_length {run : Run K V} (past : run.length ≤ index) :
    liveBefore run index = (run.filter Slot.live).length := by
  rw [liveBefore, List.take_of_length_le past, List.countP_eq_length_filter]

theorem filter_live_getElem? {run : Run K V} {slot : Slot K V} (read : run[index]? = some slot)
    (live : slot.live = true) : (run.filter Slot.live)[liveBefore run index]? = some slot := by
  obtain ⟨bound, here⟩ := List.getElem?_eq_some_iff.mp read
  have split : run = run.take index ++ slot :: run.drop (index + 1) := by
    rw [← here, ← List.drop_eq_getElem_cons bound, List.take_append_drop]
  have count : liveBefore run index = ((run.take index).filter Slot.live).length :=
    List.countP_eq_length_filter
  have filtered : run.filter Slot.live =
      (run.take index).filter Slot.live ++ slot :: (run.drop (index + 1)).filter Slot.live := by
    conv_lhs => rw [split]
    rw [List.filter_append, List.filter_cons_of_pos live]
  rw [count, filtered, List.getElem?_append_right le_rfl, Nat.sub_self]
  rfl

/-- The live slots in front of a cut, counted among the live slots. -/
theorem Ordered.liveBefore_rank [LinearOrder K] {run : Run K V} (ordered : Ordered run) {cut : K → Bool}
    (isCut : IsCut cut) : liveBefore run (rank run cut) = rank (run.filter Slot.live) cut := by
  rw [liveBefore, ordered.take_rank_eq_filter isCut, rank, List.countP_filter, List.countP_filter]
  simp [Bool.and_comm]

private theorem skip_cursor_next (run : Run K V) {fuel : ℕ} (enough : run.length - index ≤ fuel)
    (inside : index ≤ run.length) :
    ∃ target ≤ run.length, skipDeleted Cursor.next fuel ⟨run, index⟩ = ⟨run, (target : ℤ)⟩ ∧
      liveBefore run target = liveBefore run index ∧
      ∀ slot, run[target]? = some slot → slot.live = true := by
  induction fuel generalizing index with
  | zero =>
    refine ⟨index, inside, rfl, rfl, fun slot read => ?_⟩
    have bound := (List.getElem?_eq_some_iff.mp read).1
    omega
  | succ fuel ih =>
    rw [skipDeleted, show slot? _ = run[index]? from Cursor.slot?_at ..]
    split
    · next deleted =>
      obtain ⟨slot, read, dead⟩ := (Option.any_eq_true _ _).mp deleted
      have bound := (List.getElem?_eq_some_iff.mp read).1
      obtain ⟨target, within, reached, count, live⟩ := @ih (index + 1) (by omega) (by omega)
      refine ⟨target, within, by rw [Cursor.next_at bound, reached], ?_, live⟩
      rw [count, liveBefore_succ read]
      simp only [Bool.not_eq_true'] at dead
      simp [dead]
    · next kept =>
      refine ⟨index, inside, rfl, rfl, fun slot read => ?_⟩
      simpa [read] using kept

private theorem skip_cursor_prev (run : Run K V) {fuel : ℕ} (enough : count ≤ fuel) (inside : count ≤ run.length) :
    ∃ target ≤ count, skipDeleted Cursor.prev fuel ⟨run, count - 1⟩ = ⟨run, (target : ℤ) - 1⟩ ∧
      liveBefore run target = liveBefore run count ∧
      ∀ index slot, target = index + 1 → run[index]? = some slot → slot.live = true := by
  induction fuel generalizing count with
  | zero => exact ⟨count, le_rfl, rfl, rfl, fun index slot _ _ => by omega⟩
  | succ fuel ih =>
    cases count with
    | zero => exact ⟨0, le_rfl, rfl, rfl, fun index slot _ _ => by omega⟩
    | succ count =>
      have read : run[count]? = some run[count] := List.getElem?_eq_getElem (by omega)
      rw [Int.natCast_succ, Int.add_sub_cancel, skipDeleted, show slot? _ = run[count]? from Cursor.slot?_at .., read]
      split
      · next deleted =>
        obtain ⟨target, within, reached, same, live⟩ := @ih count (by omega) (by omega)
        refine ⟨target, by omega, by rw [Cursor.prev_at, reached], ?_, live⟩
        rw [same, liveBefore_succ read]
        simp only [Option.any_some, Bool.not_eq_true'] at deleted
        simp [deleted]
      · next kept =>
        refine ⟨count + 1, le_rfl, by rw [Int.natCast_succ, Int.add_sub_cancel], rfl, fun index slot same here => ?_⟩
        obtain rfl : count = index := by omega
        rw [read] at here
        cases here
        simpa using kept

/-- A cursor over a run that stands on a live slot or outside, and the cursor over the live slots. -/
def LiveAligned (cursor target : Cursor K V) : Prop :=
  target.run = cursor.run.filter Slot.live ∧
    ((cursor.pos = -1 ∧ target.pos = -1) ∨
      ∃ index : ℕ, index ≤ cursor.run.length ∧ cursor.pos = index ∧
        target.pos = liveBefore cursor.run index ∧
        ∀ slot, cursor.run[index]? = some slot → slot.live = true)

theorem LiveAligned.slot {cursor target : Cursor K V} (aligned : LiveAligned cursor target) :
    cursor.slot? = target.slot? := by
  obtain ⟨run, pos⟩ := cursor
  obtain ⟨_, place⟩ := target
  obtain ⟨rfl, ⟨rfl, rfl⟩ | ⟨index, inside, rfl, rfl, live⟩⟩ := aligned
  · rfl
  · simp only [Cursor.slot?, Int.natCast_nonneg, ↓reduceIte, Int.toNat_natCast]
    cases read : run[index]? with
    | none =>
      rw [liveBefore_length (List.getElem?_eq_none_iff.mp read), List.getElem?_eq_none le_rfl]
    | some slot => exact (filter_live_getElem? read (live slot read)).symm

private theorem liveAligned_skip_next (run : Run K V) {fuel : ℕ} (enough : run.length - index ≤ fuel)
    (inside : index ≤ run.length) :
    LiveAligned (skipDeleted Cursor.next fuel ⟨run, index⟩) ⟨run.filter Slot.live, liveBefore run index⟩ := by
  obtain ⟨target, within, reached, count, live⟩ := skip_cursor_next run enough inside
  rw [reached]
  exact ⟨rfl, .inr ⟨target, within, rfl, by rw [← count], live⟩⟩

private theorem liveAligned_skip_prev (run : Run K V) {fuel : ℕ} (enough : count ≤ fuel) (inside : count ≤ run.length) :
    LiveAligned (skipDeleted Cursor.prev fuel ⟨run, count - 1⟩)
      ⟨run.filter Slot.live, liveBefore run count - 1⟩ := by
  obtain ⟨target, within, reached, same, live⟩ := skip_cursor_prev run enough inside
  rw [reached, ← same]
  cases target with
  | zero => exact ⟨rfl, .inl ⟨rfl, rfl⟩⟩
  | succ index =>
    have read : run[index]? = some run[index] := List.getElem?_eq_getElem (by omega)
    refine ⟨rfl, .inr ⟨index, by dsimp only; omega, by push_cast; omega, ?_, fun slot => live index slot rfl⟩⟩
    rw [liveBefore_succ read, live index _ rfl read]
    simp

theorem LiveAligned.next {target : Cursor K V} (aligned : LiveAligned cursor target) {fuel : ℕ}
    (enough : cursor.run.length ≤ fuel) : LiveAligned (skipDeleted Cursor.next fuel cursor.next) target.next := by
  obtain ⟨run, pos⟩ := cursor
  obtain ⟨_, place⟩ := target
  obtain ⟨rfl, ⟨rfl, rfl⟩ | ⟨index, inside, rfl, rfl, live⟩⟩ := aligned
  · exact liveAligned_skip_next run (by dsimp only at enough; omega) (Nat.zero_le _)
  · dsimp only at inside live enough
    cases read : run[index]? with
    | none =>
      have past := List.getElem?_eq_none_iff.mp read
      obtain rfl : index = run.length := by omega
      rw [Cursor.next_end, liveBefore_length le_rfl, Cursor.next_end, ← liveBefore_length (le_refl run.length)]
      exact liveAligned_skip_next run (by omega) le_rfl
    | some slot =>
      have bound := (List.getElem?_eq_some_iff.mp read).1
      have room := (List.getElem?_eq_some_iff.mp (filter_live_getElem? read (live slot read))).1
      have counted : liveBefore run index + 1 = liveBefore run (index + 1) := by
        rw [liveBefore_succ read, live slot read, if_pos rfl]
      rw [Cursor.next_at bound, Cursor.next_at room, counted]
      exact liveAligned_skip_next run (by omega) bound

theorem LiveAligned.prev {target : Cursor K V} (aligned : LiveAligned cursor target) {fuel : ℕ}
    (enough : cursor.run.length ≤ fuel) : LiveAligned (skipDeleted Cursor.prev fuel cursor.prev) target.prev := by
  obtain ⟨run, pos⟩ := cursor
  obtain ⟨_, place⟩ := target
  obtain ⟨rfl, ⟨rfl, rfl⟩ | ⟨index, inside, rfl, rfl, live⟩⟩ := aligned
  · exact liveAligned_skip_prev run (Nat.zero_le _) (Nat.zero_le _)
  · exact liveAligned_skip_prev run (by omega) inside

section Live

variable {ι : Type*} [SlotIter ι K V] {tracks : ι → Cursor K V → Prop} {iter : ι} {run : Run K V} {fuel : ℕ}

/-- The live iterator stands where the cursor over the live slots stands. -/
def LiveTracks (tracks : ι → Cursor K V → Prop) (iter : LiveIter ι) (target : Cursor K V) : Prop :=
  ∃ cursor, tracks iter.inner cursor ∧ LiveAligned cursor target

/-- Skipping tombstones simulates the cursor over the live slots. -/
theorem Simulates.live (simulation : Simulates tracks) : Simulates (LiveTracks tracks) where
  slot := by
    rintro iter target ⟨cursor, related, aligned⟩
    exact (simulation.slot related).trans aligned.slot
  next := by
    rintro iter target ⟨cursor, related, aligned⟩
    exact ⟨_, simulation.skip simulation.next _ (simulation.next related), aligned.next (simulation.size related)⟩
  prev := by
    rintro iter target ⟨cursor, related, aligned⟩
    exact ⟨_, simulation.skip simulation.prev _ (simulation.prev related), aligned.prev (simulation.size related)⟩
  size := by
    rintro iter target ⟨cursor, related, aligned⟩
    rw [aligned.1]
    exact (List.length_filter_le ..).trans (simulation.size related)

/-- Skipping forward from any place lands on the matching place among the live slots. -/
theorem Simulates.liveTracks_skip_next (simulation : Simulates tracks) (related : tracks iter ⟨run, index⟩)
    (inside : index ≤ run.length) (enough : run.length ≤ fuel) :
    LiveTracks tracks ⟨skipDeleted SlotIter.next fuel iter⟩ ⟨run.filter Slot.live, liveBefore run index⟩ :=
  ⟨_, simulation.skip simulation.next _ related, liveAligned_skip_next run (by omega) inside⟩

/-- Skipping backward from any place lands on the matching place among the live slots. -/
theorem Simulates.liveTracks_skip_prev (simulation : Simulates tracks) (related : tracks iter ⟨run, count - 1⟩)
    (inside : count ≤ run.length) (enough : run.length ≤ fuel) :
    LiveTracks tracks ⟨skipDeleted SlotIter.prev fuel iter⟩ ⟨run.filter Slot.live, liveBefore run count - 1⟩ :=
  ⟨_, simulation.skip simulation.prev _ related, liveAligned_skip_prev run (by omega) inside⟩

/-- A live iterator whose start was not skipped yields the first slot as it is, then the live ones. -/
theorem Simulates.drain_live_start (simulation : Simulates tracks) {slot : Slot K V} {rest : Run K V}
    (related : tracks iter ⟨slot :: rest, (0 : ℕ)⟩) (enough : rest.length + 1 ≤ fuel) :
    SortedRun.drain SlotIter.next (fun _ => true) fuel (⟨iter⟩ : LiveIter ι) = slot :: rest.filter Slot.live := by
  obtain ⟨fuel, rfl⟩ : ∃ less, fuel = less + 1 := ⟨fuel - 1, by omega⟩
  have on : SlotIter.slot? (⟨iter⟩ : LiveIter ι) = some slot := simulation.slot related
  have after : tracks (SlotIter.next iter) ⟨slot :: rest, (1 : ℕ)⟩ := by
    simpa [Cursor.next] using simulation.next related
  have moved := simulation.liveTracks_skip_next after (by simp) (simulation.size related)
  have tail : ((slot :: rest).filter Slot.live).drop (liveBefore (slot :: rest) 1) = rest.filter Slot.live := by
    simp only [liveBefore, List.take_succ_cons, List.take_zero, List.countP_singleton, List.filter_cons]
    split <;> rfl
  have short := congrArg List.length tail
  rw [List.length_drop] at short
  have few := List.length_filter_le Slot.live rest
  rw [SortedRun.drain, on]
  refine congrArg (slot :: ·) ?_
  rw [show SlotIter.next (⟨iter⟩ : LiveIter ι) = ⟨skipDeleted SlotIter.next (SlotIter.size iter)
    (SlotIter.next iter)⟩ from rfl, simulation.live.drain simulation.live.next _ _ moved,
      drain_cursor_next _ _ (by omega), tail]
  exact List.takeWhile_eq_self_iff.mpr fun _ _ => rfl

end Live

end SortedRun
