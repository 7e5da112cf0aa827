import Mathlib.Order.Lattice
import PallasDB.Lib.Transition

/-! # Waiting for the applied index

`advanceApplied` raises the index with a compare-and-swap, then replaces the wakeup channel and closes the old one.
`WaitForAppliedIndex` takes the channel, then loads the index, then blocks on the channel it took. Any number of calls
of both run at the same time; each step below is one atomic operation, or one critical section of `idxMu`.

A channel is named by the number of channels made before it, so the current one is also the number of replacements.
-/

namespace PallasDB

open Transition

/-- How far a call of `advanceApplied` has come. -/
inductive AdvanceAt where
  /-- Before `f.applied.Load()`. -/
  | loading (idx : ℕ)
  /-- Before the compare-and-swap. -/
  | swapping (idx cur : ℕ)
  /-- Before the channel is replaced. -/
  | replacing
  /-- Before `close(ch)`. -/
  | closing (ch : ℕ)
  | returned
deriving DecidableEq, Repr

/-- How far a call of `WaitForAppliedIndex` has come. -/
inductive WaitAt where
  | taking
  | loading (ch : ℕ)
  | blocked (ch : ℕ)
  /-- Returned nil. -/
  | reached
  /-- Returned the error of its context. -/
  | cancelled
deriving DecidableEq, Repr

structure Waiter where
  target : ℕ
  place : WaitAt
deriving DecidableEq, Repr

structure AppliedWait where
  applied : ℕ
  idxCh : ℕ
  closed : List ℕ
  advances : List AdvanceAt
  waiters : List Waiter
deriving DecidableEq, Repr

inductive AppliedEvent where
  /-- A call from `Apply`, `StoreConfiguration` or `ObserveAppliedIndex`. -/
  | advanceApplied (idx : ℕ)
  | waitForAppliedIndex (target : ℕ)
  /-- The next step of a call of `advanceApplied`. -/
  | advance (call : ℕ)
  /-- The next step of a call of `WaitForAppliedIndex`. -/
  | wait (call : ℕ)
  /-- The context of a blocked call is done. -/
  | cancel (call : ℕ)
deriving DecidableEq, Repr

variable {state next : AppliedWait} {event : AppliedEvent}

namespace AppliedWait

/-- A new FSM. -/
def fresh : AppliedWait := ⟨0, 0, [], [], []⟩

def setAdvance (state : AppliedWait) (call : ℕ) (place : AdvanceAt) : AppliedWait :=
  { state with advances := state.advances.set call place }

def setWaiter (state : AppliedWait) (call : ℕ) (waiter : Waiter) (place : WaitAt) : AppliedWait :=
  { state with waiters := state.waiters.set call { waiter with place := place } }

def stepAdvance (state : AppliedWait) (call : ℕ) : AdvanceAt → Option AppliedWait
  | .loading idx =>
      if idx ≤ state.applied then some (state.setAdvance call .returned)
      else some (state.setAdvance call (.swapping idx state.applied))
  | .swapping idx cur =>
      if state.applied = cur then some { state.setAdvance call .replacing with applied := idx }
      else some (state.setAdvance call (.loading idx))
  | .replacing => some { state.setAdvance call (.closing state.idxCh) with idxCh := state.idxCh + 1 }
  | .closing ch => some { state.setAdvance call .returned with closed := ch :: state.closed }
  | .returned => none

def stepWait (state : AppliedWait) (call : ℕ) (waiter : Waiter) : Option AppliedWait :=
  match waiter.place with
  | .taking => some (state.setWaiter call waiter (.loading state.idxCh))
  | .loading ch =>
      if waiter.target ≤ state.applied then some (state.setWaiter call waiter .reached)
      else some (state.setWaiter call waiter (.blocked ch))
  | .blocked ch => if ch ∈ state.closed then some (state.setWaiter call waiter .taking) else none
  | .reached | .cancelled => none

def step (state : AppliedWait) : AppliedEvent → Option AppliedWait
  | .advanceApplied idx => some { state with advances := state.advances ++ [.loading idx] }
  | .waitForAppliedIndex target => some { state with waiters := state.waiters ++ [⟨target, .taking⟩] }
  | .advance call => state.advances[call]?.bind (state.stepAdvance call)
  | .wait call => state.waiters[call]?.bind (state.stepWait call)
  | .cancel call => state.waiters[call]?.bind fun waiter =>
      match waiter.place with
      | .blocked _ => some (state.setWaiter call waiter .cancelled)
      | _ => none

/-! ## What a step can do -/

/-- A call of `advanceApplied` moves from one place to another. -/
inductive AdvanceStep (state : AppliedWait) (call : ℕ) : AdvanceAt → AdvanceAt → AppliedWait → Prop
  | late {idx : ℕ} (low : idx ≤ state.applied) : AdvanceStep state call (.loading idx) .returned state
  | load {idx : ℕ} (high : state.applied < idx) : AdvanceStep state call (.loading idx)
    (.swapping idx state.applied) state
  | retry {idx cur : ℕ} (moved : state.applied ≠ cur) : AdvanceStep state call (.swapping idx cur) (.loading idx) state
  | swap {idx cur : ℕ} (same : state.applied = cur) :
      AdvanceStep state call (.swapping idx cur) .replacing { state with applied := idx }
  | replace : AdvanceStep state call .replacing (.closing state.idxCh) { state with idxCh := state.idxCh + 1 }
  | close {ch : ℕ} : AdvanceStep state call (.closing ch) .returned { state with closed := ch :: state.closed }

/-- A call of `WaitForAppliedIndex` moves from one place to another. -/
inductive WaitStep (state : AppliedWait) (target : ℕ) : WaitAt → WaitAt → Prop
  | take : WaitStep state target .taking (.loading state.idxCh)
  | reach {ch : ℕ} (reached : target ≤ state.applied) : WaitStep state target (.loading ch) .reached
  | block {ch : ℕ} (low : state.applied < target) : WaitStep state target (.loading ch) (.blocked ch)
  | wake {ch : ℕ} (closed : ch ∈ state.closed) : WaitStep state target (.blocked ch) .taking
  | cancel {ch : ℕ} : WaitStep state target (.blocked ch) .cancelled

inductive Step (state : AppliedWait) : AppliedWait → Prop
  | advanceApplied (idx : ℕ) : Step state { state with advances := state.advances ++ [.loading idx] }
  | waitForAppliedIndex (target : ℕ) : Step state { state with waiters := state.waiters ++ [⟨target, .taking⟩] }
  | advance (call : ℕ) {old new : AdvanceAt} {next : AppliedWait} (found : state.advances[call]? = some old)
      (moves : AdvanceStep state call old new next) : Step state (next.setAdvance call new)
  | wait (call : ℕ) {waiter : Waiter} {new : WaitAt} (found : state.waiters[call]? = some waiter)
      (moves : WaitStep state waiter.target waiter.place new) : Step state (state.setWaiter call waiter new)

theorem step_cases (taken : state.step event = some next) : Step state next := by
  cases event with
  | advanceApplied idx =>
    cases taken
    exact .advanceApplied idx
  | waitForAppliedIndex target =>
    cases taken
    exact .waitForAppliedIndex target
  | advance call =>
    obtain ⟨old, found, moved⟩ := Option.bind_eq_some_iff.mp taken
    cases old with
    | loading idx =>
      simp only [stepAdvance] at moved
      split at moved
      · next low =>
        cases moved
        exact .advance call found (.late low)
      · next high =>
        cases moved
        exact .advance call found (.load (Nat.lt_of_not_le high))
    | swapping idx cur =>
      simp only [stepAdvance] at moved
      split at moved
      · next same =>
        cases moved
        exact .advance call found (.swap same)
      · next moves =>
        cases moved
        exact .advance call found (.retry moves)
    | replacing =>
      cases moved
      exact .advance call found .replace
    | closing ch =>
      cases moved
      exact .advance call found .close
    | returned => contradiction
  | wait call =>
    obtain ⟨⟨target, place⟩, found, moved⟩ := Option.bind_eq_some_iff.mp taken
    cases place with
    | taking =>
      cases moved
      exact .wait call found .take
    | loading ch =>
      simp only [stepWait] at moved
      split at moved
      · next reached =>
        cases moved
        exact .wait call found (.reach reached)
      · next low =>
        cases moved
        exact .wait call found (.block (Nat.lt_of_not_le low))
    | blocked ch =>
      simp only [stepWait] at moved
      split at moved
      · next closed =>
        cases moved
        exact .wait call found (.wake closed)
      · contradiction
    | reached => contradiction
    | cancelled => contradiction
  | cancel call =>
    obtain ⟨⟨target, place⟩, found, moved⟩ := Option.bind_eq_some_iff.mp taken
    cases place with
    | blocked ch =>
      cases moved
      exact .wait call found .cancel
    | taking => contradiction
    | loading => contradiction
    | reached => contradiction
    | cancelled => contradiction

/-! ## What holds in every state -/

/-- An advance in progress is going to close the channel. -/
def Due (state : AppliedWait) (ch : ℕ) : Prop :=
  .closing ch ∈ state.advances ∨ ch = state.idxCh ∧ .replacing ∈ state.advances

structure Inv (state : AppliedWait) : Prop where
  raises : ∀ idx cur, .swapping idx cur ∈ state.advances → cur < idx
  /-- A replaced channel is closed, or the call that replaced it is about to close it. -/
  replaced : ∀ ch < state.idxCh, ch ∈ state.closed ∨ .closing ch ∈ state.advances
  loads : ∀ target ch, ⟨target, .loading ch⟩ ∈ state.waiters → ch ≤ state.idxCh
  /-- A target reached after the waiter's load was reached by a call that has yet to replace the channel, or the channel
  is replaced. -/
  blocks : ∀ target ch, ⟨target, .blocked ch⟩ ∈ state.waiters →
    ch < state.idxCh ∨ ch = state.idxCh ∧ (target ≤ state.applied → .replacing ∈ state.advances)
  reaches : ∀ target, ⟨target, .reached⟩ ∈ state.waiters → target ≤ state.applied

section Lists

variable {α : Type} {items : List α} {index : ℕ} {old new item : α}

private theorem mem_set_of_ne (found : items[index]? = some old) (member : item ∈ items) (other : item ≠ old) :
    item ∈ items.set index new := by
  obtain ⟨place, same⟩ := List.mem_iff_getElem?.mp member
  refine List.mem_iff_getElem?.mpr ⟨place, ?_⟩
  have apart : index ≠ place := by
    rintro rfl
    exact other (Option.some.inj (same.symm.trans found))
  rw [List.getElem?_set_ne apart, same]

private theorem mem_set_self (found : items[index]? = some old) : new ∈ items.set index new :=
  List.mem_set (List.getElem?_eq_some_iff.mp found).1 new

end Lists

/-- The index after a step of `advanceApplied`. -/
private theorem applied_le_advance {call : ℕ} {old new : AdvanceAt} (inv : Inv state)
    (found : state.advances[call]? = some old) (moves : AdvanceStep state call old new next) :
    state.applied ≤ next.applied := by
  cases moves with
  | swap same =>
    have raised := inv.raises _ _ (List.mem_of_getElem? found)
    exact same ▸ raised.le
  | late | load | retry | replace | close => exact le_rfl

private theorem waiters_advance {call : ℕ} {old new : AdvanceAt} (moves : AdvanceStep state call old new next) :
    next.waiters = state.waiters := by
  cases moves <;> rfl

theorem Inv.advance {state next : AppliedWait} {call : ℕ} {old new : AdvanceAt} (inv : Inv state)
    (found : state.advances[call]? = some old) (moves : AdvanceStep state call old new next) :
    Inv (next.setAdvance call new) := by
  have stays {place : AdvanceAt} (here : place ∈ state.advances) (other : place ≠ old) :
      place ∈ state.advances.set call new := mem_set_of_ne found here other
  have placed : new ∈ state.advances.set call new := mem_set_self found
  have higher : state.applied ≤ next.applied := applied_le_advance inv found moves
  have same : next.waiters = state.waiters := waiters_advance moves
  have list : (next.setAdvance call new).advances = state.advances.set call new := by cases moves <;> rfl
  refine ⟨?raises, ?replaced, ?loads, ?blocks, ?reaches⟩
  case raises =>
    intro idx cur here
    rw [list] at here
    rcases List.mem_or_eq_of_mem_set here with before | rfl
    · exact inv.raises idx cur before
    · cases moves with
      | load high => exact high
  case replaced =>
    intro ch earlier
    cases moves with
    | replace =>
      rcases Nat.lt_succ_iff_lt_or_eq.mp earlier with before | rfl
      · exact (inv.replaced ch before).imp_right fun here => stays here (by simp)
      · exact .inr placed
    | @close this =>
      rcases inv.replaced ch earlier with closed | here
      · exact .inl (List.mem_cons_of_mem _ closed)
      · rcases eq_or_ne ch this with rfl | other
        · exact .inl (List.mem_cons_self ..)
        · exact .inr (stays here (by simpa using other))
    | late | load | retry | swap => exact (inv.replaced ch earlier).imp_right fun here => stays here (by simp)
  case loads =>
    intro target ch here
    have bound := inv.loads target ch (same ▸ here)
    cases moves with
    | replace => exact Nat.le_succ_of_le bound
    | late | load | retry | swap | close => exact bound
  case blocks =>
    intro target ch here
    have before := inv.blocks target ch (same ▸ here)
    cases moves with
    | swap => exact before.imp_right fun current => ⟨current.1, fun _ => placed⟩
    | replace =>
      refine .inl (Nat.lt_succ_of_le ?_)
      exact before.elim Nat.le_of_lt fun current => current.1.le
    | late | load | retry | close =>
      exact before.imp_right fun current => ⟨current.1, fun reached => stays (current.2 reached) (by simp)⟩
  case reaches =>
    intro target here
    exact (inv.reaches target (same ▸ here)).trans higher

theorem Inv.wait {call : ℕ} {waiter : Waiter} {new : WaitAt} (inv : Inv state)
    (found : state.waiters[call]? = some waiter) (moves : WaitStep state waiter.target waiter.place new) :
    Inv (state.setWaiter call waiter new) := by
  have comes {target : ℕ} {place : WaitAt} (here : ⟨target, place⟩ ∈ (state.setWaiter call waiter new).waiters) :
      ⟨target, place⟩ ∈ state.waiters ∨ target = waiter.target ∧ place = new :=
    (List.mem_or_eq_of_mem_set here).imp_right fun same => by simpa using same
  obtain ⟨goal, spot⟩ := waiter
  have member : ⟨goal, spot⟩ ∈ state.waiters := List.mem_of_getElem? found
  refine ⟨inv.raises, inv.replaced, ?loads, ?blocks, ?reaches⟩
  case loads =>
    intro target ch here
    rcases comes here with before | ⟨rfl, rfl⟩
    · exact inv.loads target ch before
    · cases moves with
      | take => exact le_rfl
  case blocks =>
    intro target ch here
    rcases comes here with before | ⟨rfl, rfl⟩
    · exact inv.blocks target ch before
    · cases moves with
      | block low =>
        -- the channel was taken before the load, so it is the current one or replaced already
        rcases (inv.loads target ch member).lt_or_eq with replaced | current
        · exact .inl replaced
        · exact .inr ⟨current, fun reached => absurd low (Nat.not_lt.mpr reached)⟩
  case reaches =>
    intro target here
    rcases comes here with before | ⟨rfl, rfl⟩
    · exact inv.reaches target before
    · cases moves with
      | reach reached => exact reached

theorem Inv.step (inv : Inv state) (taken : state.step event = some next) : Inv next := by
  cases step_cases taken with
  | advanceApplied idx =>
    have kept {place : AdvanceAt} (here : place ∈ state.advances) : place ∈ state.advances ++ [.loading idx] :=
      List.mem_append_left _ here
    refine ⟨fun goal cur here => ?_, fun ch earlier => (inv.replaced ch earlier).imp_right kept, inv.loads,
      fun target ch here => (inv.blocks target ch here).imp_right fun current => ⟨current.1, kept ∘ current.2⟩,
        inv.reaches⟩
    exact inv.raises goal cur (by simpa using here)
  | waitForAppliedIndex goal =>
    refine ⟨inv.raises, inv.replaced, fun target ch here => ?_, fun target ch here => ?_, fun target here => ?_⟩
    · exact inv.loads target ch (by simpa using here)
    · exact inv.blocks target ch (by simpa using here)
    · exact inv.reaches target (by simpa using here)
  | advance call found moves => exact inv.advance found moves
  | wait call found moves => exact inv.wait found moves

theorem inv_fresh : Inv fresh := by
  constructor <;> simp [fresh]

/-! ## What holds across a run -/

theorem applied_le_step (inv : Inv state) (taken : state.step event = some next) : state.applied ≤ next.applied := by
  cases step_cases taken with
  | @advance call old new after found moves =>
    have higher : state.applied ≤ after.applied := applied_le_advance inv found moves
    exact higher
  | advanceApplied | waitForAppliedIndex | wait => exact le_rfl

/-- A channel an advance is going to close is closed in the end, whichever of the overlapping advances does it. -/
theorem due_step {ch : ℕ} (taken : state.step event = some next) (due : ch ∈ state.closed ∨ state.Due ch) :
    ch ∈ next.closed ∨ next.Due ch := by
  cases step_cases taken with
  | advanceApplied idx =>
    exact due.imp_right (Or.imp (List.mem_append_left _) (And.imp_right (List.mem_append_left _)))
  | waitForAppliedIndex target => exact due
  | wait call found moves => exact due
  | @advance call old new after found moves =>
    have stays {place : AdvanceAt} (here : place ∈ state.advances) (other : place ≠ old) :
        place ∈ state.advances.set call new := mem_set_of_ne found here other
    have placed : new ∈ state.advances.set call new := mem_set_self found
    rcases due with closed | closing | ⟨rfl, replacing⟩
    · left
      cases moves with
      | close => exact List.mem_cons_of_mem _ closed
      | late | load | retry | swap | replace => exact closed
    · cases moves with
      | @close this =>
        rcases eq_or_ne ch this with rfl | other
        · exact .inl (List.mem_cons_self ..)
        · exact .inr (.inl (stays closing (by simpa using other)))
      | late | load | retry | swap | replace => exact .inr (.inl (stays closing (by simp)))
    · cases moves with
      | replace => exact .inr (.inl placed)
      | late | load | retry | swap | close => exact .inr (.inr ⟨rfl, stays replacing (by simp)⟩)

theorem inv_run {events : List AppliedEvent} (ran : run? step fresh events = some state) : Inv state :=
  run?_invariant Inv (fun inv taken => inv.step taken) inv_fresh ran

/-- In every state reached, a waiter blocked below the applied index holds a channel that is closed or that an advance
in progress is going to close; and such an advance does close it: whatever happens next, the channel is closed as soon
as every advance has returned. -/
theorem waiting_loses_nothing {first second : List AppliedEvent} {state later : AppliedWait}
    (ran : run? step fresh first = some state) (goes : run? step state second = some later) :
    state.applied ≤ later.applied ∧
      (∀ waiter ∈ state.waiters, waiter.place = .reached → waiter.target ≤ state.applied) ∧
      (∀ waiter ∈ state.waiters, ∀ ch, waiter.place = .blocked ch → waiter.target ≤ state.applied →
        ch ∈ state.closed ∨ state.Due ch) ∧
      ∀ ch, state.Due ch → ch ∈ later.closed ∨ later.Due ch ∧ ∃ place ∈ later.advances, place ≠ .returned := by
  have inv := inv_run ran
  refine ⟨?_, ?_, ?_, ?_⟩
  · refine (run?_invariant (fun other => Inv other ∧ state.applied ≤ other.applied) ?_ ⟨inv, le_rfl⟩ goes).2
    rintro source event target ⟨holds, above⟩ taken
    exact ⟨holds.step taken, above.trans (applied_le_step holds taken)⟩
  · rintro ⟨target, _⟩ member rfl
    exact inv.reaches target member
  · rintro ⟨target, _⟩ member ch rfl reached
    rcases inv.blocks target ch member with replaced | ⟨current, pending⟩
    · exact (inv.replaced ch replaced).imp_right .inl
    · exact .inr (.inr ⟨current, pending reached⟩)
  · intro ch due
    have kept : ch ∈ later.closed ∨ later.Due ch :=
      run?_invariant (fun other => ch ∈ other.closed ∨ other.Due ch) (fun holds taken => due_step taken holds)
        (.inr due) goes
    refine kept.imp_right fun due => ⟨due, ?_⟩
    rcases due with closing | ⟨_, replacing⟩
    · exact ⟨_, closing, by simp⟩
    · exact ⟨_, replacing, by simp⟩

/-- Two advances overlap: the second raises the index and replaces the channel while the first one has yet to close the
channel on which the waiter blocks. -/
def overlapped : List AppliedEvent :=
  [.waitForAppliedIndex 2, .wait 0, .wait 0, .advanceApplied 1, .advance 0, .advance 0, .advance 0,
    .advanceApplied 2, .advance 1, .advance 1]

theorem waiting_loses_nothing_overlapped : ((run? step fresh overlapped).any fun state =>
      state.applied = 2 ∧ state.waiters = [⟨2, .blocked 0⟩] ∧ state.advances = [.closing 0, .replacing]) ∧
    ∀ state, run? step fresh overlapped = some state →
      ∀ waiter ∈ state.waiters, ∀ ch, waiter.place = .blocked ch → waiter.target ≤ state.applied →
        ch ∈ state.closed ∨ state.Due ch :=
  ⟨by decide +kernel, fun _ ran => (waiting_loses_nothing ran (run?_nil _)).2.2.1⟩

end AppliedWait

end PallasDB
