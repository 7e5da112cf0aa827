import PallasDB.Db.KVAlone

/-! # The replicated state machine

`FSM.Apply` runs every committed command in one transaction of the store. A command with an invalid update
mode is rejected the same way on every replica; anything else that cannot be applied aborts the process.
What a command does to the contents of the store, and what it returns, depends on nothing but the contents.
-/

namespace PallasDB

open SortedRun VersionedMap

/-! ## Commands -/

inductive Command.Op where
  | put
  | del
  | batch
  | unknown (name : Bytes)
deriving DecidableEq, Repr

/-- A mutation; the mode matters for puts only. -/
structure Mutation where
  op : Command.Op
  key : Bytes
  val : Bytes
  mode : Int
deriving DecidableEq, Repr

structure Command where
  op : Command.Op
  key : Bytes
  val : Bytes
  mode : Int
  batch : List Mutation
deriving DecidableEq, Repr

/-! ## Applying -/

inductive FSMError where
  | invalidMode (mode : Int)
  | batchMutation (index : ℕ) (err : FSMError)
deriving DecidableEq, Repr

structure FSMResult where
  updated : Bool
  err : Option FSMError
deriving DecidableEq, Repr

/-- What the process aborts with. -/
inductive Fatal where
  | closed (index : ℕ)
  | put (index : ℕ) (err : KV.OneShotError)
  | delete (index : ℕ) (err : KV.OneShotError)
  | unknownOp (index : ℕ) (op : Command.Op)
  | batchWrite (index mutation : ℕ) (err : WriteError)
  | batchOp (index mutation : ℕ) (op : Command.Op)
  | commitBatch (index count : ℕ) (err : CommitError)
deriving DecidableEq, Repr

/-- A wire update mode is valid from one to three. -/
def updateMode (mode : Int) : Except FSMError UpdateMode :=
  if mode = 1 then .ok .upsert
  else if mode = 2 then .ok .insert
  else if mode = 3 then .ok .update
  else .error (.invalidMode mode)

structure FSM where
  store : KV
  closed : Bool
  applied : ℕ

namespace FSM

/-- The loop of `applyBatch` over the mutations from the given one on. -/
def applyMutations (index id : ℕ) : KV → ℕ → Bool → List Mutation → Except Fatal (KV × Except FSMError Bool)
  | kv, _, updated, [] => .ok (kv, .ok updated)
  | kv, i, updated, mutation :: rest =>
      let write (change : TxWrite) :=
        match kv.writeTX id change with
        | .error err => .error (.batchWrite index i err)
        | .ok (written, changed) => applyMutations index id written (i + 1) (updated || changed) rest
      match mutation.op with
      | .put =>
          match updateMode mutation.mode with
          | .error err => .ok (kv.abortTX id, .error (.batchMutation i err))
          | .ok mode => write (.set mutation.key mutation.val mode)
      | .del => write (.del mutation.key)
      | op => .error (.batchOp index i op)

def applyBatch (kv : KV) (index : ℕ) (batch : List Mutation) : Except Fatal (KV × FSMResult) := do
  let id := kv.txs.length
  match ← applyMutations index id kv.newTX 0 false batch with
  | (rejected, .error err) => return (rejected, ⟨false, some err⟩)
  | (written, .ok updated) =>
      match written.commitTX id with
      | (_, .error err) => throw (.commitBatch index batch.length err)
      | (done, .ok ()) => return (done, ⟨updated, none⟩)

def applyCommand (fsm : FSM) (index : ℕ) (cmd : Command) : Except Fatal (KV × FSMResult) :=
  if fsm.closed then .error (.closed index)
  else
    match cmd.op with
    | .put =>
        match updateMode cmd.mode with
        | .error err => .ok (fsm.store, ⟨false, some err⟩)
        | .ok mode =>
            match fsm.store.oneShot (.set cmd.key cmd.val mode) with
            | (_, .error err) => .error (.put index err)
            | (store, .ok updated) => .ok (store, ⟨updated, none⟩)
    | .del =>
        match fsm.store.oneShot (.del cmd.key) with
        | (_, .error err) => .error (.delete index err)
        | (store, .ok deleted) => .ok (store, ⟨deleted, none⟩)
    | .batch => applyBatch fsm.store index cmd.batch
    | op => .error (.unknownOp index op)

def advanceApplied (fsm : FSM) (index : ℕ) : FSM := { fsm with applied := max fsm.applied index }

/-- `FSM.Apply` of a decoded command. -/
def apply (fsm : FSM) (index : ℕ) (cmd : Command) : Except Fatal (FSM × FSMResult) :=
  (fsm.applyCommand index cmd).map fun (store, result) => ({ fsm with store := store }.advanceApplied index, result)

/-- A committed log applied from the given index on. -/
def applyLog (fsm : FSM) : ℕ → List Command → Except Fatal FSM
  | _, [] => .ok fsm
  | index, cmd :: rest => do
      let (next, _) ← fsm.apply index cmd
      next.applyLog (index + 1) rest

/-- The contents readers see. -/
def contents (fsm : FSM) : KVMap := fsm.store.tables.contents

end FSM

/-! ## What a command does to the contents -/

/-- An operation this binary has no case for. -/
inductive UnknownOp where
  | command (op : Command.Op)
  | mutation (mutation : ℕ) (op : Command.Op)

def UnknownOp.fatal (index : ℕ) : UnknownOp → Fatal
  | .command op => .unknownOp index op
  | .mutation i op => .batchOp index i op

/-- The writes of a batch, unless a mutation is rejected or unknown. -/
def Mutation.writes : ℕ → List Mutation → Except UnknownOp (Except FSMError (List TxWrite))
  | _, [] => .ok (.ok [])
  | i, mutation :: rest =>
      match mutation.op with
      | .put =>
          match updateMode mutation.mode with
          | .error err => .ok (.error (.batchMutation i err))
          | .ok mode => (writes (i + 1) rest).map fun later => later.map (.set mutation.key mutation.val mode :: ·)
      | .del => (writes (i + 1) rest).map fun later => later.map (.del mutation.key :: ·)
      | op => .error (.mutation i op)

namespace Command

/-- The writes a command stands for. -/
def writes (cmd : Command) : Except UnknownOp (Except FSMError (List TxWrite)) :=
  match cmd.op with
  | .put => .ok ((updateMode cmd.mode).map fun mode => [.set cmd.key cmd.val mode])
  | .del => .ok (.ok [.del cmd.key])
  | .batch => Mutation.writes 0 cmd.batch
  | op => .error (.command op)

/-- The writes of a command that is neither rejected nor unknown. -/
def changes (cmd : Command) : List TxWrite :=
  match cmd.writes with
  | .ok (.ok changes) => changes
  | _ => []

/-- What the process aborts with when a staged slot is too large for a log record. -/
def tooLarge (index : ℕ) (cmd : Command) : Fatal :=
  match cmd.op with
  | .put => .put index (.commit .entryTooLarge)
  | .del => .delete index (.commit .entryTooLarge)
  | _ => .commitBatch index cmd.batch.length .entryTooLarge

/-- The contents and the result a command leads to. -/
def effect (contents : KVMap) (index : ℕ) (cmd : Command) :
    Except Fatal (KVMap × FSMResult) :=
  match cmd.writes with
  | .error unknown => .error (unknown.fatal index)
  | .ok (.error err) => .ok (contents, ⟨false, some err⟩)
  | .ok (.ok changes) =>
      let (staged, updated) := TxWrite.stageAll contents [] changes
      if oversize staged then .error (cmd.tooLarge index) else .ok (overlay contents staged, ⟨updated, none⟩)

end Command

/-- The contents a committed log leads to. -/
def effects (contents : KVMap) : ℕ → List Command → Except Fatal KVMap
  | _, [] => .ok contents
  | index, cmd :: rest => do
      let (next, _) ← cmd.effect contents index
      effects next (index + 1) rest

/-! ## The store refines its contents -/

theorem updateMode_valid {mode : Int} {valid : UpdateMode} (known : updateMode mode = .ok valid) (key val : Bytes) :
    (TxWrite.set key val valid).valid = true := by
  unfold updateMode at known
  split at known
  · cases known; rfl
  split at known
  · cases known; rfl
  split at known
  · cases known; rfl
  · contradiction

section Refinement

variable {options : KVOptions} {initial : KVMap} {kv : KV} {journal : KVJournal}

/-- What the loop of `applyBatch` comes to, given the writes the batch stands for. -/
inductive BatchOutcome (options : KVOptions) (initial contents : KVMap) (index id : ℕ)
    (updates : SortedArray) (updated : Bool) :
    Except UnknownOp (Except FSMError (List TxWrite)) → Except Fatal (KV × Except FSMError Bool) → Prop where
  | fatal (unknown : UnknownOp) :
      BatchOutcome options initial contents index id updates updated (.error unknown) (.error (unknown.fatal index))
  | rejected (err : FSMError) (target : KV) (later : KVJournal) (same : target.tables.contents = contents)
      (ready : KV.Ready options initial target later) :
      BatchOutcome options initial contents index id updates updated (.ok (.error err)) (.ok (target, .error err))
  | staged (changes : List TxWrite) (target : KV) (later : KVJournal) (same : target.tables.contents = contents)
      (writing : KV.Writing options initial target later id (TxWrite.stageAll contents updates changes).1) :
      BatchOutcome options initial contents index id updates updated (.ok (.ok changes))
        (.ok (target, .ok (updated || (TxWrite.stageAll contents updates changes).2)))

/-- One more write in front. -/
theorem BatchOutcome.cons {contents : KVMap} {index id : ℕ} {updates : SortedArray} {updated : Bool}
    {change : TxWrite} {plan : Except UnknownOp (Except FSMError (List TxWrite))}
    {result : Except Fatal (KV × Except FSMError Bool)}
    (outcome : BatchOutcome options initial contents index id (change.stage contents updates).1
      (updated || (change.stage contents updates).2) plan result) :
    BatchOutcome options initial contents index id updates updated
      (plan.map fun later => later.map (change :: ·)) result := by
  cases outcome with
  | fatal unknown => exact .fatal unknown
  | rejected err target later same ready => exact .rejected err target later same ready
  | staged changes target later same writing =>
    rw [Bool.or_assoc]
    exact .staged (change :: changes) target later same writing

theorem FSM.applyMutations_outcome (index : ℕ) {id : ℕ} {updates : SortedArray} (mutations : List Mutation)
    (writing : KV.Writing options initial kv journal id updates) (i : ℕ) (updated : Bool) :
    BatchOutcome options initial kv.tables.contents index id updates updated (Mutation.writes i mutations)
      (applyMutations index id kv i updated mutations) := by
  induction mutations generalizing kv journal updates i updated with
  | nil =>
    have none : BatchOutcome options initial kv.tables.contents index id updates updated (.ok (.ok []))
        (.ok (kv, .ok (updated || (TxWrite.stageAll kv.tables.contents updates []).2))) :=
      .staged [] kv journal rfl writing
    rwa [TxWrite.stageAll, Bool.or_false] at none
  | cons mutation rest ih =>
    -- a valid write succeeds and hands over to the rest of the loop
    have advance (change : TxWrite) (valid : change.valid = true) :
        BatchOutcome options initial kv.tables.contents index id updates updated
          ((Mutation.writes (i + 1) rest).map fun later => later.map (change :: ·))
          (match kv.writeTX id change with
            | .error err => .error (.batchWrite index i err)
            | .ok (written, changed) => applyMutations index id written (i + 1) (updated || changed) rest) := by
      obtain ⟨target, later, wrote, same, next⟩ := writing.write valid
      rw [wrote]
      have tail := ih next (i + 1) (updated || (change.stage kv.tables.contents updates).2)
      rw [same] at tail
      exact tail.cons
    rw [applyMutations, Mutation.writes]
    cases mutation.op with
    | put =>
      dsimp only
      split
      · next err invalid =>
        obtain ⟨⟨later, ready⟩, same⟩ := writing.abort
        exact .rejected _ _ later same ready
      · next mode known =>
        exact advance _ (updateMode_valid known ..)
    | del => exact advance (.del mutation.key) rfl
    | batch => exact .fatal (.mutation i .batch)
    | unknown name => exact .fatal (.mutation i (.unknown name))

/-- The outcome at the store has the given contents and leaves the store at rest. -/
inductive Realizes (options : KVOptions) (initial : KVMap) {α : Type} :
    Except Fatal (KVMap × α) → Except Fatal (KV × α) → Prop where
  | fatal (fatal : Fatal) : Realizes options initial (.error fatal) (.error fatal)
  | done (store : KV) (result : α) (journal : KVJournal) (ready : KV.Ready options initial store journal) :
      Realizes options initial (.ok (store.tables.contents, result)) (.ok (store, result))

theorem Realizes.of_contents {α : Type} {contents : KVMap} {store : KV} {result : α}
    (ready : KV.Ready options initial store journal) (same : store.tables.contents = contents) :
    Realizes options initial (.ok (contents, result)) (.ok (store, result)) :=
  same ▸ .done store result journal ready

theorem FSM.applyBatch_effect (ready : KV.Ready options initial kv journal) (index : ℕ) {cmd : Command}
    (isBatch : cmd.op = .batch) :
    Realizes options initial (cmd.effect kv.tables.contents index) (applyBatch kv index cmd.batch) := by
  obtain ⟨later, begun, same⟩ := ready.newTX
  have outcome := applyMutations_outcome index cmd.batch begun 0 false
  rw [same] at outcome
  have plan : cmd.writes = Mutation.writes 0 cmd.batch := by rw [Command.writes, isBatch]
  have fatal : cmd.tooLarge index = .commitBatch index cmd.batch.length .entryTooLarge := by
    rw [Command.tooLarge, isBatch]
  rw [applyBatch, Command.effect, plan, fatal]
  generalize Mutation.writes 0 cmd.batch = writes at outcome
  generalize applyMutations index kv.txs.length kv.newTX 0 false cmd.batch = result at outcome
  cases outcome with
  | fatal unknown => exact .fatal (unknown.fatal index)
  | rejected err target later kept ready => exact .of_contents ready kept
  | staged changes target later kept writing =>
    obtain ⟨done, _, committed, contents, rested⟩ := writing.commit
    simp only [bind, Except.bind, committed, Bool.false_or]
    rw [kept] at contents
    split at contents
    · next large =>
      simp only [large, if_true]
      exact .fatal _
    · next fits =>
      simp only [fits]
      exact .of_contents rested contents

/-- A command of one write. -/
theorem FSM.oneShot_effect (ready : KV.Ready options initial kv journal) {write : TxWrite} (valid : write.valid = true)
    (fatal : KV.OneShotError → Fatal) :
    Realizes options initial
      (if oversize (write.stage kv.tables.contents []).1 then .error (fatal (.commit .entryTooLarge))
        else .ok (overlay kv.tables.contents (write.stage kv.tables.contents []).1,
          (⟨(write.stage kv.tables.contents []).2, none⟩ : FSMResult)))
      (match kv.oneShot write with
        | (_, .error err) => .error (fatal err)
        | (store, .ok updated) => .ok (store, ⟨updated, none⟩)) := by
  obtain ⟨target, later, ran, contents, rested⟩ := ready.oneShot valid
  rw [ran]
  split at contents
  · next large =>
    simp only [large, if_true]
    exact .fatal _
  · next fits =>
    simp only [fits]
    exact .of_contents rested contents

/-- A store at rest shows the contents and returns the result that a command leads to. -/
theorem FSM.applyCommand_effect {fsm : FSM} (opened : fsm.closed = false)
    (ready : KV.Ready options initial fsm.store journal) (index : ℕ) (cmd : Command) :
    Realizes options initial (cmd.effect fsm.contents index) (fsm.applyCommand index cmd) := by
  rw [applyCommand, opened, if_neg (by simp)]
  cases kind : cmd.op with
  | put =>
    rw [Command.effect, Command.writes, Command.tooLarge, kind]
    cases known : updateMode cmd.mode with
    | error err => exact .of_contents ready rfl
    | ok mode =>
      have single := oneShot_effect ready (updateMode_valid known cmd.key cmd.val) (.put index)
      simp only [Except.map, TxWrite.stageAll, Bool.or_false]
      exact single
  | del =>
    rw [Command.effect, Command.writes, Command.tooLarge, kind]
    have valid : (TxWrite.del cmd.key).valid = true := rfl
    have single := oneShot_effect ready valid (.delete index)
    simp only [TxWrite.stageAll, Bool.or_false]
    exact single
  | batch => exact applyBatch_effect ready index kind
  | unknown name =>
    rw [Command.effect, Command.writes, kind]
    exact .fatal _

/-- The log of committed commands leads the store to the contents it leads to. -/
theorem FSM.applyLog_effects {fsm : FSM} (opened : fsm.closed = false)
    (ready : KV.Ready options initial fsm.store journal) (index : ℕ) (log : List Command) :
    match fsm.applyLog index log with
    | .error fatal => effects fsm.contents index log = .error fatal
    | .ok final => effects fsm.contents index log = .ok final.contents ∧ final.closed = false ∧
        ∃ later, KV.Ready options initial final.store later := by
  induction log generalizing fsm index journal with
  | nil => exact ⟨rfl, opened, journal, ready⟩
  | cons cmd rest ih =>
    have step := applyCommand_effect opened ready index cmd
    rw [applyLog, effects, apply]
    generalize cmd.effect fsm.contents index = effect at step
    generalize fsm.applyCommand index cmd = outcome at step
    cases step with
    | fatal fatal => rfl
    | done store result later rested =>
      have next : (FSM.advanceApplied { fsm with store := store } index).closed = false := opened
      exact ih next rested (index + 1)

end Refinement

end PallasDB
