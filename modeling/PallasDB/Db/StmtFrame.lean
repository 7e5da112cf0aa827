import PallasDB.Db.Statement

/-! # What a statement can touch

A statement stages entries in its own transaction and in inner transactions that it begins itself, and in no other. So
a statement that fails before its commit leaves the enclosing transaction as it was, and one whose commit fails leaves
the tables as they were.
-/

namespace PallasDB

open Program SortedRun Transition

/-- From one store to the next only these transactions stage something, and others may begin. -/
structure Confined (who : Set ℕ) (kv next : KV) : Prop where
  rest : next = { kv with txs := next.txs }
  size : kv.txs.length ≤ next.txs.length
  others : ∀ id < kv.txs.length, id ∉ who → next.txs[id]? = kv.txs[id]?
  staged : ∀ (id : ℕ) (tx : KVTX), kv.txs[id]? = some tx →
    ∃ updates, next.txs[id]? = some { tx with updates := updates }

section Confined

variable {who wider : Set ℕ} {kv middle next : KV}

theorem Confined.refl (who : Set ℕ) (kv : KV) : Confined who kv kv :=
  ⟨rfl, le_rfl, fun _ _ _ => rfl, fun _ tx found => ⟨tx.updates, found⟩⟩

/-- Transactions that have begun meanwhile do not count. -/
theorem Confined.trans (first : Confined who kv middle) (second : Confined wider middle next)
    (inside : ∀ id ∈ wider, id ∈ who ∨ kv.txs.length ≤ id) : Confined who kv next := by
  refine ⟨?_, first.size.trans second.size, fun id known apart => ?_, fun id tx found => ?_⟩
  · rw [second.rest, first.rest]
  · have outside : id ∉ wider := fun member => (inside id member).elim apart (not_le.mpr known)
    rw [second.others id (known.trans_le first.size) outside, first.others id known apart]
  · obtain ⟨_, between⟩ := first.staged id tx found
    obtain ⟨updates, after⟩ := second.staged id _ between
    exact ⟨updates, after⟩

theorem Confined.mono (confined : Confined who kv next) (inside : who ⊆ wider) : Confined wider kv next :=
  ⟨confined.rest, confined.size, fun id known apart => confined.others id known fun member => apart (inside member),
    confined.staged⟩

theorem Confined.tables (confined : Confined who kv next) : next.tables = kv.tables := by
  rw [confined.rest]

theorem confined_setTx (kv : KV) (id : ℕ) {tx : KVTX} (found : kv.txs[id]? = some tx) (updates : SortedArray) :
    Confined {id} kv (kv.setTx id { tx with updates := updates }) := by
  have inside := (List.getElem?_eq_some_iff.mp found).1
  refine ⟨rfl, by simp [KV.setTx], fun other _ apart => ?_, fun other current read => ?_⟩
  · rw [KV.setTx, List.getElem?_set_ne fun same => apart same.symm]
  · by_cases same : id = other
    · subst same
      cases found.symm.trans read
      exact ⟨updates, by simp [KV.setTx, inside]⟩
    · exact ⟨current.updates, by rw [KV.setTx, List.getElem?_set_ne same, read]⟩

theorem confined_append (kv : KV) (tx : KVTX) : Confined ∅ kv { kv with txs := kv.txs ++ [tx] } :=
  ⟨rfl, by simp, fun _ known _ => List.getElem?_append_left known,
    fun _ current found => ⟨current.updates, KV.getElem?_added.mpr (.inl found)⟩⟩

/-- Levels that name transactions of the store. -/
def KV.LevelsKnown (kv : KV) (tx : KVTX) : Prop := ∀ other, .updates other ∈ tx.levels → other < kv.txs.length

/-- Who stages nothing reads what it read before, unless something is staged below it. -/
theorem Confined.readLevels (confined : Confined who kv next) {tx : KVTX} (known : kv.LevelsKnown tx)
    (apart : ∀ other, .updates other ∈ tx.levels → other ∉ who) : next.readLevels tx = kv.readLevels tx := by
  refine List.map_congr_left fun level member => ?_
  cases level with
  | updates other => rw [KV.resolve, KV.resolve, confined.others other (known other member) (apart other member)]
  | source sorted => rfl

end Confined

/-! ## Programs -/

/-- Whatever a program returns, only these transactions have staged something. -/
def Stays {α : Type} (who : Set ℕ) (prog : DBM α) : Prop := ∀ kv, Ensures prog kv fun _ next => Confined who kv next

section Stays

variable {α β : Type} {who : Set ℕ}

theorem Stays.pure (a : α) : Stays who (Pure.pure a) := fun kv => .pure (.refl who kv)

theorem Stays.throw (err : StmtError) : Stays who (MonadExcept.throw err : DBM α) := fun kv => .throw (.refl who kv)

theorem Stays.lift (result : Except StmtError α) : Stays who (Program.lift result) := fun kv => .lift (.refl who kv)

theorem Stays.bind {first : DBM α} {rest : α → DBM β} (head : Stays who first) (next : ∀ a, Stays who (rest a)) :
    Stays who (first >>= rest) := fun kv =>
  (head kv).bind (fun a middle began => (next a middle).mono fun _ _ ended => began.trans ended fun _ member =>
    .inl member)
    fun _ _ failed => failed

theorem Stays.map {prog : DBM α} (stays : Stays who prog) (f : α → β) : Stays who (f <$> prog) :=
  stays.bind fun a => .pure (f a)

theorem Stays.attempt {prog : DBM α} (stays : Stays who prog) : Stays who (Program.attempt prog) :=
  fun kv => .attempt (stays kv)

theorem Stays.quiet {prog : DBM α} (quiet : Quiet prog) : Stays who prog := by
  intro kv result next ran
  rw [quiet kv result next ran]
  exact .refl who kv

theorem stays_compositional (who : Set ℕ) : Compositional fun {α} (prog : DBM α) => Stays who prog :=
  ⟨Stays.quiet, Stays.bind⟩

end Stays

theorem KV.handle_of_get {kv : KV} {id : ℕ} {key : Bytes} {val : Option Bytes}
    (read : kv.get (kv.handle id) key = .ok val) : kv.txs[id]? = some (kv.handle id) := by
  rw [KV.handle] at read ⊢
  cases found : kv.txs[id]? with
  | some tx => rfl
  | none => simp [found, KV.get] at read

theorem writeKey_stays (id : ℕ) (change : TxWrite) : Stays {id} (writeKey id change) := by
  intro kv
  refine .of_exec rfl ?_
  have staged {key : Bytes} {old : Option Bytes} (read : kv.get (kv.handle id) key = .ok old) {next : KV}
      (stages : kv.Stages id (kv.handle id) next) : Confined {id} kv next := by
    rcases stages with rfl | ⟨-, updates, rfl⟩
    · exact .refl _ _
    · exact confined_setTx kv id (KV.handle_of_get read) updates
  cases change with
  | set key val mode =>
    simp only [KV.writeTX]
    cases read : kv.get (kv.handle id) key with
    | error err => exact .refl _ kv
    | ok old =>
      simp only
      cases KV.setExUpdates old val mode with
      | none => exact .refl _ kv
      | some updated => exact staged read (kv.setEx_stages ..)
  | del key =>
    simp only [KV.writeTX]
    cases read : kv.get (kv.handle id) key with
    | error err => exact .refl _ kv
    | ok old => exact staged read (kv.del_stages ..)

theorem getKey_stays (who : Set ℕ) (id : ℕ) (key : Bytes) : Stays who (getKey id key) := .quiet (.act _)

theorem commitInner_stays (id parent : ℕ) : Stays {parent} (commitInner id parent) := by
  intro kv
  refine .of_exec rfl ?_
  cases live : (kv.handle id).err with
  | some err => exact .refl _ kv
  | none =>
    simp only [KV.applyInner, live]
    cases found : kv.txs[parent]? with
    | some outer =>
      rw [KV.handle_eq found]
      exact confined_setTx kv parent found _
    | none =>
      rw [KV.setTx, List.set_eq_of_length_le (List.getElem?_eq_none_iff.mp found)]
      exact .refl _ kv

/-! ## Rows -/

section Rows

variable (id : ℕ) (schema : Schema)

theorem deleteLoop_stays (row : Row) (indices : List ℕ) (deleted : Bool) :
    Stays {id} (deleteLoop id schema row indices deleted) := by
  induction indices generalizing deleted with
  | nil => exact .pure deleted
  | cons i rest ih =>
    refine (Stays.lift _).bind fun key => (writeKey_stays id _).bind fun deleted => ?_
    split
    · exact ih deleted
    · split
      · exact .throw _
      · exact .pure false

theorem setLoop_stays (row : Row) (val : Bytes) (indices : List ℕ) (updated : Bool) :
    Stays {id} (setLoop id schema row val indices updated) := by
  induction indices generalizing updated with
  | nil => exact .pure updated
  | cons i rest ih =>
    refine (Stays.lift _).bind fun key => (writeKey_stays id _).bind fun updated => ?_
    split
    · exact ih updated
    · exact .throw _

theorem rowUpdate_stays (row : Row) (mode : UpdateMode) : Stays {id} (rowUpdate id schema row mode) := by
  refine (Stays.lift _).bind fun key => (Stays.lift _).bind fun val => (getKey_stays _ id key).bind fun old => ?_
  split
  · exact .throw _
  · exact .pure false
  · split
    · exact setLoop_stays id schema row val _ true
    · exact (Stays.lift _).bind fun oldRow => (deleteLoop_stays id schema oldRow _ false).bind fun _ =>
        setLoop_stays id schema row val _ true

theorem RowCall.body_stays (call : RowCall) (row : Row) : Stays {id} (call.body id schema row) := by
  cases call with
  | insert => exact rowUpdate_stays id schema row .insert
  | upsert => exact rowUpdate_stays id schema row .upsert
  | update => exact rowUpdate_stays id schema row .update
  | delete => exact deleteLoop_stays id schema row _ false

end Rows

/-- An inner transaction that only stages in itself: nothing has happened to the others when its body is done. -/
theorem inner_bind {α β : Type} (parent : ℕ) {body : ℕ → DBM α} (stays : ∀ id, Stays {id} (body id)) {kv : KV}
    {rest : ℕ → α → DBM β} {last : Except StmtError β → KV → Prop}
    (next : ∀ a state, Confined ∅ kv state → Ensures (rest kv.txs.length a) state last)
    (fails : ∀ err state, Confined ∅ kv state → last (.error err) state) :
    Ensures (do
      let id ← beginInner parent
      let result ← body id
      rest id result) kv last := by
  refine (Ensures.of_exec rfl ⟨rfl, confined_append kv _⟩ : Ensures (beginInner parent) kv fun result next =>
    result = .ok kv.txs.length ∧ Confined ∅ kv next).bind ?_ ?_
  · rintro _ middle ⟨same, first⟩
    cases same
    have whole : Ensures (body kv.txs.length) middle fun _ next => Confined ∅ kv next :=
      (stays _ middle).mono fun _ _ second => first.trans second fun other member => .inr (Eq.ge member)
    exact whole.bind next fails
  · rintro _ _ ⟨same, _⟩
    cases same

theorem inner_stays {α : Type} (parent : ℕ) {body : ℕ → DBM α} (stays : ∀ id, Stays {id} (body id)) : Stays {parent} (do
      let id ← beginInner parent
      let result ← body id
      commitInner id parent
      pure result) := by
  intro kv
  refine inner_bind parent stays (fun result last confined => ?_) fun _ _ confined => confined.mono (Set.empty_subset _)
  exact (((commitInner_stays _ parent).bind fun _ => .pure result) last).mono fun _ _ committed =>
    (confined.mono (Set.empty_subset _)).trans committed fun _ member => .inl member

/-- An inner commit that returns an error does nothing. -/
theorem commitInner_error {α : Type} (id parent : ℕ) (result : α) {kv last : KV} (confined : Confined ∅ kv last) :
    Ensures (do
      commitInner id parent
      pure result) last fun out next => (∃ err, out = .error err) → Confined ∅ kv next := by
  refine (Ensures.of_exec rfl ?_ : Ensures (commitInner id parent) last fun out next =>
    (∃ err, out = .error err) → next = last).bind (fun _ _ _ => .pure (by simp)) fun err _ kept _ => ?_
  · cases (last.handle id).err <;> simp
  · rw [kept ⟨err, rfl⟩]
    exact confined

/-- A call that fails in an inner transaction stages nothing outside of it. -/
theorem RowCall.nested_error_confined (call : RowCall) (parent : ℕ) (schema : Schema) (row : Row) {kv next : KV}
    {err : StmtError} (failed : exec (call.nested parent schema row) kv = some (.error err, next)) :
    Confined ∅ kv next := by
  have whole : Ensures (call.nested parent schema row) kv fun out next =>
    (∃ err, out = .error err) → Confined ∅ kv next :=
    inner_bind parent (fun id => call.body_stays id schema row)
      (fun result last confined => commitInner_error kv.txs.length parent result confined)
      fun _ _ confined _ => confined
  exact whole _ _ failed ⟨err, rfl⟩

def onePair : Row := [.i64 1, .i64 2]

/-- A store with the index entry of a row that it does not hold, and a transaction. -/
def staleIndex : KV := (KV.opened [⟨pairSchema.rowKey 1 onePair, some []⟩] 0 []).newTX

/-- An insert stages the primary entry and fails at the index. -/
theorem RowCall.nested_error_confined_staleIndex : ∃ next,
    exec (insert.nested 0 pairSchema onePair) staleIndex = some (.error (.db .inconsistentIndex), next) ∧
      (next.handle 1).updates.map Slot.key = [pairSchema.rowKey 0 onePair] ∧ Confined ∅ staleIndex next := by
  have ran : (exec (insert.nested 0 pairSchema onePair) staleIndex).any (fun out =>
      decide (out.1 = .error (.db .inconsistentIndex)) &&
        decide ((out.2.handle 1).updates.map Slot.key = [pairSchema.rowKey 0 onePair])) = true := by decide +kernel
  obtain ⟨⟨result, next⟩, failed, check⟩ := (Option.any_eq_true _ _).mp ran
  simp only [Bool.and_eq_true, decide_eq_true_iff] at check
  obtain ⟨rfl, staged⟩ := check
  exact ⟨next, failed, staged, nested_error_confined .insert 0 pairSchema onePair failed⟩

theorem RowCall.nested_stays (call : RowCall) (parent : ℕ) (schema : Schema) (row : Row) :
    Stays {parent} (call.nested parent schema row) :=
  inner_stays parent fun id => call.body_stays id schema row

/-! ## Statements -/

section Statements

variable (codec : SchemaCodec) (rounds id : ℕ)

theorem collectBatch_quiet (schema : Schema) (plan : ScanPlan) (resume : Option (List Cell)) :
    Quiet (collectBatch id schema plan resume rounds) := by
  intro kv result next ran
  simp only [exec, collectBatch, ExceptT.run_mk, StateT.run] at ran
  split at ran
  · cases ran
    rfl
  · obtain ⟨_, _, same⟩ := Option.map_eq_some_iff.mp ran
    exact (Prod.mk.inj same).2.symm

section Batches

variable {good : ∀ {α : Type}, DBM α → Prop} (compositional : Compositional good) {fn : Row → DBM Bool}
  (each : ∀ row, good (fn row))

include compositional each

theorem runBatch_compositional (batch : List Row) : good (runBatch fn batch) := by
  induction batch with
  | nil => exact compositional.quiet (.pure 0)
  | cons row rest ih =>
    exact compositional.bind (each row) fun _ => compositional.bind ih fun _ => compositional.quiet (.pure _)

theorem batchLoop_compositional (schema : Schema) (cond : Option Expr) (more : ℕ) (resume : Option (List Cell)) :
    good (batchLoop id schema cond fn rounds more resume) := by
  induction more generalizing resume with
  | zero => exact compositional.quiet .unfinished
  | succ more ih =>
    refine compositional.bind (compositional.quiet (collectBatch_quiet rounds id schema _ resume)) fun found => ?_
    obtain ⟨batch, done⟩ := found
    dsimp only
    split
    · exact compositional.quiet (.pure 0)
    · refine compositional.bind (runBatch_compositional compositional each batch) fun count => ?_
      split
      · exact compositional.quiet (.pure count)
      · exact compositional.bind (ih _) fun _ => compositional.quiet (.pure _)

theorem forEachMatch_compositional (schema : Schema) (cond : Option Expr) :
    good (forEachMatch id schema cond fn rounds) := by
  refine compositional.bind (compositional.quiet (collectBatch_quiet rounds id schema _ none)) fun found => ?_
  obtain ⟨batch, done⟩ := found
  dsimp only
  split
  · exact runBatch_compositional compositional each batch
  · exact batchLoop_compositional rounds id compositional each schema cond rounds none

end Batches

theorem getSchema_stays (who : Set ℕ) (table : Bytes) : Stays who (getSchema codec id table) := by
  refine (getKey_stays who id _).bind fun val => ?_
  split
  · exact .throw _
  · split
    · exact .throw _
    · exact (Stays.lift _).bind fun _ => .pure _

theorem execStmt_stays (stmt : Stmt) : Stays {id} (execStmt codec rounds id stmt) := by
  cases stmt with
  | createTable stmt =>
    refine Stays.bind ?_ fun _ => .pure _
    refine (getSchema_stays codec id _ _).attempt.bind fun known => ?_
    split
    · exact .throw _
    · exact (Stays.lift _).bind fun schema => (writeKey_stays id _).bind fun _ => .pure _
  | dropTable table =>
    refine Stays.bind ?_ fun _ => .pure _
    refine (getSchema_stays codec id _ table).bind fun schema => ?_
    refine (forEachMatch_compositional rounds id (stays_compositional {id})
      (RowCall.delete.nested_stays id schema) schema none).bind fun _ => ?_
    exact (writeKey_stays id _).bind fun _ => .pure _
  | select table cols cond limit offset =>
    refine Stays.map ?_ _
    exact (getSchema_stays codec id _ table).bind fun schema => (Stays.lift _).bind fun proj =>
      (Stays.quiet (.act _)).bind fun iter => .pure _
  | insert table value =>
    refine Stays.map ?_ _
    refine (getSchema_stays codec id _ table).bind fun schema => ?_
    split
    · exact .throw _
    · exact (RowCall.insert.nested_stays id schema value).bind fun _ => .pure _
  | update table cond value =>
    refine Stays.map ?_ _
    refine (getSchema_stays codec id _ table).bind fun schema =>
      forEachMatch_compositional rounds id (stays_compositional {id}) (fun row => ?_) schema cond
    exact (Stays.lift _).bind fun updated => RowCall.update.nested_stays id schema updated
  | delete table cond =>
    refine Stays.map ?_ _
    exact (getSchema_stays codec id _ table).bind fun schema =>
      forEachMatch_compositional rounds id (stays_compositional {id})
        (RowCall.delete.nested_stays id schema) schema cond

end Statements

/-! ## Failed statements -/

/-- A statement that fails in an inner transaction stages nothing outside of it. -/
theorem execStmt_error_confined (codec : SchemaCodec) (rounds parent : ℕ) (stmt : Stmt) {kv next : KV} {err : StmtError}
    (failed : exec (DBTX.execStmt codec rounds parent stmt) kv = some (.error err, next)) : Confined ∅ kv next := by
  have whole : Ensures (DBTX.execStmt codec rounds parent stmt) kv fun result next =>
      (∃ err, result = .error err) → Confined ∅ kv next := by
    refine inner_bind parent (fun id => execStmt_stays codec rounds id stmt) (fun result last confined => ?_)
      fun _ _ confined _ => confined
    cases result with
    | cursor cursor => exact .pure fun _ => confined
    | affected count => exact commitInner_error kv.txs.length parent (SQLResult.affected count) confined
  exact whole _ _ failed ⟨err, rfl⟩

/-- The head of a statement changes no table. -/
theorem beginStmt_tables (codec : SchemaCodec) (rounds : ℕ) (stmt : Stmt) (kv : KV) :
    Ensures (DB.beginStmt codec rounds stmt) kv fun _ next => next.tables = kv.tables := by
  have begun : kv.newTX.tables = kv.tables := by
    rw [KV.newTX]
    split <;> rfl
  refine (Ensures.of_exec rfl begun : Ensures beginTop kv fun _ next => next.tables = kv.tables).bind
    (fun id middle same => ?_) fun _ _ failed => failed
  refine ((execStmt_stays codec rounds id stmt).attempt middle).bind (fun result last confined => ?_)
    fun _ _ confined => confined.tables.trans same
  have kept := confined.tables.trans same
  cases result with
  | ok result => exact .pure kept
  | error err =>
    have aborted : Ensures (abortTop id) last fun _ next => next.tables = kv.tables :=
      .of_exec rfl ((KV.untrack_tables ..).trans kept)
    exact aborted.bind (fun _ _ same => .throw same) fun _ _ same => same

/-- A `Commit` that returns an error changes no table. -/
theorem KV.commitTX_error (kv : KV) (id : ℕ) {err : CommitError} (failed : (kv.commitTX id).2 = .error err) :
    (kv.commitTX id).1.tables = kv.tables := by
  have finished (state : KV) (tx : KVTX) (same : state.tables = kv.tables) :
    (state.finishTX id tx).tables = kv.tables :=
    (KV.untrack_tables id tx).trans same
  cases live : (kv.handle id).err with
  | some err => simp only [KV.commitTX, live]
  | none =>
    have held (state : KV) (phase : CommitPhase) : (state.setPhase id phase).commit = some ⟨id, phase⟩ := rfl
    obtain ⟨_, verdict, same⟩ := (kv.setPhase id .locked).checkCommit_cases id (kv.handle id)
    cases verdict
    · simp only [KV.commitTX, live, same, held] at failed
      contradiction
    · simp only [KV.commitTX, live, same, held]
      exact finished _ _ rfl
    · obtain ⟨log, phase, wrote, logged | ⟨other, refused, _⟩⟩ :=
        ((kv.setPhase id .locked).setPhase id .checked).writeLog_cases id (kv.handle id) none
      · subst logged
        simp only [KV.commitTX, live, same, held, wrote] at failed
        contradiction
      · subst refused
        simp only [KV.commitTX, live, same, held, wrote]
        exact finished _ _ rfl

theorem commitTop_error (id : ℕ) {kv next : KV} {err : StmtError}
    (failed : exec (commitTop id) kv = some (.error err, next)) : next.tables = kv.tables := by
  simp only [exec, commitTop, ExceptT.run_mk, StateT.run] at failed
  split at failed
  · contradiction
  · obtain ⟨result, rfl⟩ := Prod.mk.inj (Option.some.inj failed)
    cases outcome : (kv.commitTX id).2 with
    | ok => rw [outcome] at result; contradiction
    | error => exact kv.commitTX_error id outcome

/-- Every read of a transaction returns what it returned before. -/
def KV.SameReads (kv next : KV) (tx : KVTX) : Prop :=
  (∀ key, next.get tx key = kv.get tx key) ∧ (∀ key, next.seek tx key = kv.seek tx key) ∧
    next.seekToLast tx = kv.seekToLast tx ∧ ∀ start stop desc, next.range tx start stop desc =
      kv.range tx start stop desc

theorem KV.sameReads_of_readLevels {kv next : KV} {tx : KVTX} (same : next.readLevels tx = kv.readLevels tx) :
    kv.SameReads next tx := by
  have seeks (key : Bytes) : next.seek tx key = kv.seek tx key := by rw [KV.seek, KV.seek, same]
  refine ⟨fun key => by rw [KV.get, KV.get, same], seeks, by rw [KV.seekToLast, KV.seekToLast, same],
    fun start stop desc => by rw [KV.range, KV.range, seeks]⟩

/-! ## Reachable stores -/

namespace KV

/-- Every transaction reads levels of transactions that exist. -/
def Known (kv : KV) : Prop := ∀ (id : ℕ) (tx : KVTX), kv.txs[id]? = some tx → kv.LevelsKnown tx

section Known

variable {options : KVOptions} {kv next : KV} (known : kv.Known)

include known

theorem Known.append (new : KVTX) (levels : ∀ other, .updates other ∈ new.levels → other ≤ kv.txs.length)
    (txs : next.txs = kv.txs ++ [new]) : next.Known := by
  intro id tx found other member
  rw [txs] at found ⊢
  rw [List.length_append, List.length_singleton, Nat.lt_succ_iff]
  rcases getElem?_added.mp found with old | ⟨_, rfl⟩
  · exact (known id tx old other member).le
  · exact levels other member

theorem Known.set (id : ℕ) (new : KVTX) (levels : kv.LevelsKnown new) (txs : next.txs = kv.txs.set id new) :
    next.Known := by
  intro other tx found level member
  rw [txs, List.getElem?_set] at found
  rw [txs, List.length_set]
  split at found
  · split at found
    · cases found
      exact levels level member
    · contradiction
  · exact known other tx found level member

theorem Known.same (txs : next.txs = kv.txs) : next.Known := by
  intro id tx found
  rw [LevelsKnown, txs]
  exact known id tx (txs ▸ found)

theorem Known.untrack (id : ℕ) (tx : KVTX) (txs : next.txs = (kv.untrack id tx).txs) : next.Known := by
  rw [KV.untrack] at txs
  split at txs
  · exact known.set id { tx with levels := [], err := some .txDone } (by simp [LevelsKnown]) txs
  · exact known.same txs

theorem Known.step {event : KVEvent} (taken : kv.step options event = some next) : next.Known := by
  by_cases compacts : event.compacts = true
  · exact known.same (compact_sameTracking compacts taken).txs
  cases step_cases taken with
  | newTX =>
    rw [KV.newTX]
    split
    · exact known.append _ (by simp) rfl
    · exact known.append _ (by simp) rfl
  | newInnerTX parent tx found =>
    refine known.append _ (fun other member => ?_) rfl
    rcases List.mem_cons.mp member with own | above
    · cases own
      exact le_rfl
    · exact (known parent tx (idleTx_eq_some.mp found).2 other above).le
  | setEx id tx key val mode found =>
    rcases kv.setEx_stages id tx key val mode with same | ⟨_, updates, same⟩ <;> rw [same]
    · exact known
    · exact known.set id { tx with updates := updates } (known id tx (idleTx_eq_some.mp found).2) rfl
  | del id tx key found =>
    rcases kv.del_stages id tx key with same | ⟨_, updates, same⟩ <;> rw [same]
    · exact known
    · exact known.set id { tx with updates := updates } (known id tx (idleTx_eq_some.mp found).2) rfl
  | abort id tx found => exact known.untrack id tx rfl
  | abortInner => exact known
  | commitInner id parent inner outer found nested enclosing =>
    rw [applyInner]
    split
    · exact known
    · exact known.set parent { outer with updates := inner.updates.foldl applySlot outer.updates }
        (known parent outer (idleTx_eq_some.mp enclosing).2) rfl
  | commitFinished => exact known
  | beginCommit | checkCommit | writeLog | applyCommit => exact known.same rfl
  | endCommit id tx result current => exact known.untrack id tx rfl
  | closeAgain => exact known
  | beginClose | endClose | openStore => exact known.same rfl
  | _ => simp [KVEvent.compacts] at compacts

end Known

end KV

/-- A statement that returns an error leaves what it ran in as it was: inside a transaction every read returns what it
returned before, and a statement of its own leaves the tables as others left them before its `Commit`. -/
theorem failed_statement {options : KVOptions} {log : List KVSlot} {version : ℕ}
    {sstables : List SortedFile}
    {events : List KVEvent} {kv : KV} (reached : run? (KV.step options)
      (KV.opened log version sstables) events = some kv) (codec : SchemaCodec) (rounds : ℕ) (stmt : Stmt) :
    (∀ parent err next, exec (DBTX.execStmt codec rounds parent stmt) kv = some (.error err, next) →
      next.tables = kv.tables ∧ ∀ (id : ℕ) (tx : KVTX), kv.txs[id]? = some tx →
        next.txs[id]? = some tx ∧ kv.SameReads next tx) ∧
    ∀ others err next, exec (DB.execStmt codec rounds options others stmt) kv = some (.error err, next) →
      next.tables = kv.tables ∨ ∃ begun left, begun.tables = kv.tables ∧
        run? (KV.step options) begun others = some left ∧ next.tables = left.tables := by
  constructor
  · intro parent err next failed
    have confined := execStmt_error_confined codec rounds parent stmt failed
    have known : kv.Known := run?_invariant KV.Known (fun before taken => before.step taken)
      (by intro id tx found; simp [KV.opened, KV.openAll, KV.empty] at found) reached
    refine ⟨confined.tables, fun id tx found => ?_⟩
    have inside := (List.getElem?_eq_some_iff.mp found).1
    refine ⟨by rw [confined.others id inside (Set.notMem_empty id), found], ?_⟩
    exact KV.sameReads_of_readLevels (confined.readLevels (known id tx found) fun other _ => Set.notMem_empty other)
  · intro others err next failed
    rcases exec_bind_eq_some.mp failed with ⟨⟨id, result⟩, begun, ran, ended⟩ | ⟨_, _, ran⟩
    · have same := beginStmt_tables codec rounds stmt kv _ _ ran
      cases result with
      | cursor cursor => simp at ended
      | affected count =>
        rcases exec_bind_eq_some.mp ended with ⟨_, left, moved, ended⟩ | ⟨_, _, moved⟩
        · obtain ⟨_, went, outcome⟩ := Option.map_eq_some_iff.mp moved
          cases outcome
          rcases exec_bind_eq_some.mp ended with ⟨_, _, _, ended⟩ | ⟨_, _, committed⟩
          · simp at ended
          · exact .inr ⟨begun, left, same, went, commitTop_error id committed⟩
        · obtain ⟨_, _, outcome⟩ := Option.map_eq_some_iff.mp moved
          simp at outcome
    · exact .inl (beginStmt_tables codec rounds stmt kv _ _ ran)

/-- A row whose second column is zero. -/
def zeroPair : Row := [.i64 2, .i64 0]

/-- Store a row with its index entry. -/
def storeRow (id : ℕ) (schema : Schema) (row : Row) : List KVEvent :=
  [.setEx id (schema.rowKey 0 row) (schema.rowVal row) .upsert, .setEx id (schema.rowKey 1 row) [] .upsert]

def twoPairs : List KVEvent :=
  [.newTX, .setEx 0 (schemaKey pairSchema.table) pairSchema.text .upsert] ++ storeRow 0 pairSchema onePair ++
    storeRow 0 pairSchema zeroPair

/-- `UPDATE ... SET b = 10 / b`, which fails on the second of the two rows. -/
def divideAll : Stmt := .update pairSchema.table none [⟨[0x62], .binOp .div (.cell (.i64 10)) (.name [0x62])⟩]

theorem failed_statement_divideAll : ((run? (KV.step .eager) (KV.opened [] 0 []) twoPairs).bind
      (exec (DBTX.execStmt pairCodec 4 0 divideAll))).any (fun outcome => outcome.1.toOption.isNone) = true ∧
    ∀ kv err next, run? (KV.step .eager) (KV.opened [] 0 []) twoPairs = some kv →
      exec (DBTX.execStmt pairCodec 4 0 divideAll) kv = some (.error err, next) →
        next.tables = kv.tables ∧ ∀ (id : ℕ) (tx : KVTX), kv.txs[id]? = some tx →
          next.txs[id]? = some tx ∧ kv.SameReads next tx := by
  refine ⟨by decide +kernel, ?_⟩
  intro kv err next ran failed
  exact (failed_statement ran pairCodec 4 divideAll).1 0 err next failed

end PallasDB
