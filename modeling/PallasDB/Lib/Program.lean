import Mathlib.Data.Option.Basic

/-! # Programs that keep their state when they fail

A program acts on a state and returns a value or an error; an error leaves the state as it was when the error occurred,
so whoever catches it sees what was already done. A loop is given a number of rounds, and a program with a loop that
needs more has no outcome. Conditions on the outcomes of a program follow from conditions on its parts.
-/

namespace Program

variable {σ ε α β : Type}

abbrev Prog (σ ε : Type) := ExceptT ε (StateT σ Option)

def exec (prog : Prog σ ε α) (start : σ) : Option (Except ε α × σ) := prog.run.run start

/-- One step on the state. -/
def act (step : σ → Except ε α × σ) : Prog σ ε α := ExceptT.mk fun state => some (step state)

/-- A loop that has used up its rounds. -/
def unfinished : Prog σ ε α := ExceptT.mk fun _ => none

/-- The value or the error of a program as a value. -/
def attempt (prog : Prog σ ε α) : Prog σ ε (Except ε α) := ExceptT.mk fun state =>
  (exec prog state).map fun (result, final) => (.ok result, final)

/-- A result that does not depend on the state. -/
def lift (result : Except ε α) : Prog σ ε α := act fun state => (result, state)

@[simp] theorem exec_pure (a : α) (state : σ) : exec (pure a : Prog σ ε α) state = some (.ok a, state) := rfl

@[simp] theorem exec_throw (err : ε) (state : σ) : exec (throw err : Prog σ ε α) state = some (.error err, state) := rfl

@[simp] theorem exec_act (step : σ → Except ε α × σ) (state : σ) : exec (act step) state = some (step state) := rfl

@[simp] theorem exec_lift (result : Except ε α) (state : σ) :
    exec (lift result : Prog σ ε α) state = some (result, state) := rfl

@[simp] theorem exec_attempt (prog : Prog σ ε α) (state : σ) :
    exec (attempt prog) state = (exec prog state).map fun (result, final) => (.ok result, final) := rfl

/-- A result that depends on another is a value only if that is one. -/
theorem bind_eq_ok {first : Except ε α} {rest : α → Except ε β} {b : β} :
    first >>= rest = .ok b ↔ ∃ a, first = .ok a ∧ rest a = .ok b := by
  cases first <;> simp [bind, Except.bind]

/-- What follows the first part of a program. -/
def follow (rest : α → Prog σ ε β) : Except ε α × σ → Option (Except ε β × σ)
  | (.ok a, state) => exec (rest a) state
  | (.error err, state) => some (.error err, state)

theorem exec_bind (first : Prog σ ε α) (rest : α → Prog σ ε β) (state : σ) :
    exec (first >>= rest) state = (exec first state).bind (follow rest) := by
  change (exec first state).bind _ = _
  congr 1
  funext outcome
  obtain ⟨result, final⟩ := outcome
  cases result <;> rfl

/-- A program fails with its first part or goes on where that returned a value. -/
theorem exec_bind_eq_some {first : Prog σ ε α} {rest : α → Prog σ ε β} {state final : σ} {result : Except ε β} :
    exec (first >>= rest) state = some (result, final) ↔
      (∃ a middle, exec first state = some (.ok a, middle) ∧ exec (rest a) middle = some (result, final)) ∨
        ∃ err, result = .error err ∧ exec first state = some (.error err, final) := by
  rw [exec_bind, Option.bind_eq_some_iff]
  constructor
  · rintro ⟨⟨outcome, middle⟩, began, ended⟩
    cases outcome with
    | ok a => exact .inl ⟨a, middle, began, ended⟩
    | error err =>
      cases ended
      exact .inr ⟨err, rfl, began⟩
  · rintro (⟨a, middle, began, ended⟩ | ⟨err, rfl, failed⟩)
    · exact ⟨(.ok a, middle), began, ended⟩
    · exact ⟨(.error err, final), failed, rfl⟩

/-- Every outcome of a program meets a condition. -/
def Ensures (prog : Prog σ ε α) (start : σ) (post : Except ε α → σ → Prop) : Prop :=
  ∀ result final, exec prog start = some (result, final) → post result final

section Rules

variable {prog first : Prog σ ε α} {rest : α → Prog σ ε β} {start : σ} {post middle : Except ε α → σ → Prop}
  {last : Except ε β → σ → Prop}

theorem Ensures.mono (ensures : Ensures prog start middle)
    (weaker : ∀ result final, middle result final → post result final) : Ensures prog start post :=
  fun result final ran => weaker result final (ensures result final ran)

theorem Ensures.of_exec {result : Except ε α} {final : σ} (ran : exec prog start = some (result, final))
    (holds : post result final) : Ensures prog start post := by
  intro other state same
  cases ran.symm.trans same
  exact holds

theorem Ensures.pure {a : α} (holds : post (.ok a) start) : Ensures (Pure.pure a) start post := .of_exec rfl holds

theorem Ensures.throw {err : ε} (holds : post (.error err) start) : Ensures (throw err) start post := .of_exec rfl holds

theorem Ensures.lift {result : Except ε α} (holds : post result start) : Ensures (Program.lift result) start post :=
  .of_exec rfl holds

/-- The rest of a program starts where the first part returned a value. -/
theorem Ensures.bind (head : Ensures first start middle)
    (next : ∀ a state, middle (.ok a) state → Ensures (rest a) state last)
    (fails : ∀ err state, middle (.error err) state → last (.error err) state) :
    Ensures (first >>= rest) start last := by
  intro result final ran
  rcases exec_bind_eq_some.mp ran with ⟨a, state, began, ended⟩ | ⟨err, rfl, failed⟩
  · exact next a state (head _ _ began) result final ended
  · exact fails err final (head _ _ failed)

theorem Ensures.attempt {post : Except ε (Except ε α) → σ → Prop}
    (ensures : Ensures prog start fun result final => post (.ok result) final) :
    Ensures (Program.attempt prog) start post := by
  intro result final ran
  obtain ⟨⟨outcome, state⟩, began, same⟩ := Option.map_eq_some_iff.mp ran
  cases same
  exact ensures outcome final began

end Rules

/-- Whatever a program returns meets a condition; errors are free. -/
def Returns (prog : Prog σ ε α) (start : σ) (post : α → σ → Prop) : Prop :=
  ∀ a final, exec prog start = some (.ok a, final) → post a final

section Returns

variable {prog first : Prog σ ε α} {rest : α → Prog σ ε β} {start : σ} {post middle : α → σ → Prop}
    {last : β → σ → Prop}

theorem Returns.mono (returns : Returns prog start middle) (weaker : ∀ a final, middle a final → post a final) :
    Returns prog start post :=
  fun a final ran => weaker a final (returns a final ran)

theorem Returns.of_exec {a : α} {final : σ} (ran : exec prog start = some (.ok a, final)) (holds : post a final) :
    Returns prog start post := by
  intro other state same
  cases ran.symm.trans same
  exact holds

theorem Returns.pure {a : α} (holds : post a start) : Returns (Pure.pure a : Prog σ ε α) start post :=
  .of_exec rfl holds

theorem Returns.throw {err : ε} : Returns (throw err : Prog σ ε α) start post := by
  intro a final ran
  simp at ran

theorem Returns.lift {result : Except ε α} (holds : ∀ a, result = .ok a → post a start) :
    Returns (Program.lift result) start post := by
  intro a final ran
  cases ran
  exact holds a rfl

theorem Returns.unfinished : Returns (Program.unfinished : Prog σ ε α) start post := by
  intro a final ran
  contradiction

theorem Returns.bind (head : Returns first start middle)
    (next : ∀ a state, middle a state → Returns (rest a) state last) : Returns (first >>= rest) start last := by
  intro b final ran
  rcases exec_bind_eq_some.mp ran with ⟨a, state, began, ended⟩ | ⟨err, failed, _⟩
  · exact next a state (head a state began) b final ended
  · contradiction

/-- The rest of a program after a first part whose outcome is known. -/
theorem Returns.after {a : α} {state : σ} (began : exec first start = some (.ok a, state))
    (next : Returns (rest a) state last) : Returns (first >>= rest) start last :=
  Returns.bind (Returns.of_exec began ⟨rfl, rfl⟩ : Returns first start fun b final => b = a ∧ final = state)
    fun _ _ ⟨same, kept⟩ => by rw [same, kept]; exact next

theorem Returns.attempt (returns : Returns prog start post) :
    Returns (Program.attempt prog) start fun result final => ∀ a, result = .ok a → post a final := by
  rintro result final ran a rfl
  obtain ⟨⟨outcome, state⟩, began, same⟩ := Option.map_eq_some_iff.mp ran
  cases same
  exact returns a final began

theorem Returns.map {f : α → β} (returns : Returns prog start fun a final => last (f a) final) :
    Returns (f <$> prog) start last :=
  Returns.bind returns fun _ _ holds => Returns.pure holds

end Returns

/-- A program that leaves the state alone. -/
def Quiet (prog : Prog σ ε α) : Prop := ∀ start result final, exec prog start = some (result, final) → final = start

section Quiet

theorem Quiet.act (read : σ → Except ε α) : Quiet (Program.act fun state => (read state, state)) := by
  intro start result final ran
  cases ran
  rfl

theorem Quiet.pure (a : α) : Quiet (Pure.pure a : Prog σ ε α) := Quiet.act fun _ => .ok a

theorem Quiet.unfinished : Quiet (Program.unfinished : Prog σ ε α) := by
  intro start result final ran
  contradiction

end Quiet

/-- A property of programs that holds of those that leave the state alone and that passes from the parts of a program to
the whole. -/
structure Compositional (good : ∀ {α : Type}, Prog σ ε α → Prop) : Prop where
  quiet : ∀ {α : Type} {prog : Prog σ ε α}, Quiet prog → good prog
  bind : ∀ {α β : Type} {first : Prog σ ε α} {rest : α → Prog σ ε β}, good first → (∀ a, good (rest a)) →
    good (first >>= rest)

/-- A program that keeps a condition on the state whenever it returns. -/
def Keeps (inv : σ → Prop) (prog : Prog σ ε α) : Prop :=
  ∀ start, inv start → Returns prog start fun _ final => inv final

theorem keeps_compositional (inv : σ → Prop) : Compositional fun {α} (prog : Prog σ ε α) => Keeps inv prog where
  quiet still start holds _ final ran := by
    rw [still start _ final ran]
    exact holds
  bind head next start holds := (head start holds).bind fun a state kept => next a state kept

end Program
