import PallasDB.Lib.Program
import PallasDB.Db.TableStore
import PallasDB.Db.KVAlone

/-! # Row calls and statements

The calls that change rows, and the statements made of them. Each call is a program on the store: it reads and stages
entries of one transaction, and it keeps what it has staged when it fails. `DBTX` calls and `DBTX.ExecStmt` run in an
inner transaction and commit it into the enclosing one, `DB` calls and `DB.ExecStmt` run in a top-level transaction of
their own. `Abort` of an inner transaction does nothing, so a failed call simply leaves its inner transaction behind.

The transaction of a statement is new, so the map of schemas in its `DBTX` is empty when the statement looks up its
table, and it looks it up once.
-/

namespace PallasDB

open Program

/-- The errors of calls and statements. -/
inductive StmtError where
  | db (err : DBError)
  | write (err : WriteError)
  | invalidMode
  | tableNotFound
  | badSchemaRecord
  | schemaMismatch
  | unknownColumn
  | columnTypeMismatch
  | primaryKeyColumn
  | noColumnList
  | commit (err : CommitError)
deriving DecidableEq

/-- The JSON text of a schema. -/
structure SchemaCodec where
  marshal : Schema → Bytes
  unmarshal : Bytes → Option Schema

abbrev DBM := Prog KV StmtError

/-! ## Transactions -/

/-- `KVTX.Get`. -/
def getKey (id : ℕ) (key : Bytes) : DBM (Option Bytes) := act fun kv =>
  ((kv.get (kv.handle id) key).mapError fun err => .db (.tx err), kv)

/-- `KVTX.SetEx` and `KVTX.Del`. -/
def writeKey (id : ℕ) (change : TxWrite) : DBM Bool := act fun kv =>
  match kv.writeTX id change with
  | .error err => (.error (.write err), kv)
  | .ok (next, updated) => (.ok updated, next)

/-- `KVTX.NewTX`. -/
def beginInner (parent : ℕ) : DBM ℕ := act fun kv => (.ok kv.txs.length, kv.newInnerTX parent (kv.handle parent))

/-- `KVTX.Commit` of an inner transaction. -/
def commitInner (id parent : ℕ) : DBM Unit := act fun kv =>
  match (kv.handle id).err with
  | some err => (.error (.db (.tx err)), kv)
  | none => (.ok (), kv.applyInner (kv.handle id) parent (kv.handle parent))

/-- `KV.NewTX`. -/
def beginTop : DBM ℕ := act fun kv => (.ok kv.txs.length, kv.newTX)

/-- `KVTX.Commit` of a top-level transaction, which waits for the commit mutex. -/
def commitTop (id : ℕ) : DBM Unit := ExceptT.mk fun kv =>
  if kv.commitLocked then none
  else some ((kv.commitTX id).2.mapError .commit, (kv.commitTX id).1)

/-- `KVTX.Abort` of a top-level transaction. -/
def abortTop (id : ℕ) : DBM Unit := act fun kv => (.ok (), kv.abortTX id)

/-! ## Rows -/

def encoded {α : Type} (result : Except DBError α) : DBM α := lift (result.mapError .db)

/-- The loop of `DBTX.delete` over the indices. -/
def deleteLoop (id : ℕ) (schema : Schema) (row : Row) : List ℕ → Bool → DBM Bool
  | [], deleted => pure deleted
  | i :: rest, _ => do
      let key ← encoded (row.encodeKey schema i)
      let deleted ← writeKey id (.del key)
      if deleted then deleteLoop id schema row rest deleted
      else if i ≠ 0 then throw (.db .inconsistentIndex)
      else pure false

/-- `DBTX.delete`. -/
def rowDelete (id : ℕ) (schema : Schema) (row : Row) : DBM Bool :=
  deleteLoop id schema row (List.range schema.indices.length) false

/-- The loop of `DBTX.update` over the indices. Only the primary key has a value. -/
def setLoop (id : ℕ) (schema : Schema) (row : Row) (val : Bytes) : List ℕ → Bool → DBM Bool
  | [], updated => pure updated
  | i :: rest, _ => do
      let key ← encoded (row.encodeKey schema i)
      let updated ← writeKey id (.set key (if i = 0 then val else []) .insert)
      if updated then setLoop id schema row val rest updated else throw (.db .inconsistentIndex)

/-- `DBTX.update`. -/
def rowUpdate (id : ℕ) (schema : Schema) (row : Row) (mode : UpdateMode) : DBM Bool := do
  let key ← encoded (row.encodeKey schema 0)
  let val ← encoded (row.encodeVal schema)
  let old ← getKey id key
  match KV.setExUpdates old val mode with
  | none => throw .invalidMode
  | some false => pure false
  | some true =>
      match old with
      | none => setLoop id schema row val (List.range schema.indices.length) true
      | some oldVal => do
          let oldRow ← encoded (row.decodeVal schema oldVal)
          let _ ← rowDelete id schema oldRow
          setLoop id schema row val (List.range schema.indices.length) true

/-- A call that changes one row. -/
inductive RowCall where
  | insert
  | upsert
  | update
  | delete
deriving DecidableEq, Repr

/-- What a call does inside its transaction. -/
def RowCall.body (call : RowCall) (id : ℕ) (schema : Schema) (row : Row) : DBM Bool :=
  match call with
  | insert => rowUpdate id schema row .insert
  | upsert => rowUpdate id schema row .upsert
  | update => rowUpdate id schema row .update
  | delete => rowDelete id schema row

/-- A call inside a transaction. -/
def RowCall.nested (call : RowCall) (parent : ℕ) (schema : Schema) (row : Row) : DBM Bool := do
  let id ← beginInner parent
  let updated ← call.body id schema row
  commitInner id parent
  pure updated

namespace DBTX

def insert (id : ℕ) (schema : Schema) (row : Row) : DBM Bool := RowCall.insert.nested id schema row

def upsert (id : ℕ) (schema : Schema) (row : Row) : DBM Bool := RowCall.upsert.nested id schema row

def update (id : ℕ) (schema : Schema) (row : Row) : DBM Bool := RowCall.update.nested id schema row

def delete (id : ℕ) (schema : Schema) (row : Row) : DBM Bool := RowCall.delete.nested id schema row

end DBTX

/-- The head of a call in a top-level transaction of its own: a failed call aborts, the others go on to `Commit`. -/
def RowCall.topLevel (call : RowCall) (schema : Schema) (row : Row) : DBM (ℕ × Bool) := do
  let id ← beginTop
  let result ← attempt (call.body id schema row)
  match result with
  | .error err => do
      abortTop id
      throw err
  | .ok updated => pure (id, updated)

/-! ## Statements -/

structure ExprAssign where
  column : Bytes
  expr : Expr

inductive Stmt where
  | createTable (stmt : StmtCreateTable)
  | dropTable (table : Bytes)
  | select (table : Bytes) (cols : List Expr) (cond : Option Expr) (limit offset : ℤ)
  | insert (table : Bytes) (value : Row)
  | update (table : Bytes) (cond : Option Expr) (value : List ExprAssign)
  | delete (table : Bytes) (cond : Option Expr)

/-- `selectCursor`, as `execSelect` opens it. -/
structure SelectCursor where
  schema : Schema
  plan : ScanPlan
  proj : List Expr
  iter : RowIterator
  remaining : ℤ
  skip : ℤ

inductive SQLResult where
  | affected (count : ℕ)
  | cursor (cursor : SelectCursor)

def mutateBatchSize : ℕ := 512

/-- The loop of `collectBatch`. -/
def collectLoop (kv : KV) (tx : KVTX) (residual : Option Expr) :
    ℕ → RowIterator → List Row → Option (Except DBError (List Row × Bool))
  | 0, iter, batch => if iter.valid then none else some (.ok (batch, true))
  | rounds + 1, iter, batch =>
      if !iter.valid then some (.ok (batch, true))
      else
        match matchRow iter.schema iter.row residual with
        | .error err => some (.error err)
        | .ok keep =>
            let batch := if keep then batch ++ [iter.row] else batch
            if keep && decide (mutateBatchSize ≤ batch.length) then some (.ok (batch, false))
            else
              match iter.next kv tx with
              | .error err => some (.error err)
              | .ok following => collectLoop kv tx residual rounds following batch

/-- Start after the cells of a primary key. -/
def RangeReq.resume (req : RangeReq) : Option (List Cell) → RangeReq
  | none => req
  | some cells => { req with startCmp := .gt, start := cells }

def collectBatch (id : ℕ) (schema : Schema) (plan : ScanPlan) (resume : Option (List Cell)) (rounds : ℕ) :
    DBM (List Row × Bool) := ExceptT.mk fun kv =>
  match range kv (kv.handle id) schema (plan.req.resume resume) with
  | .error err => some (.error (.db err), kv)
  | .ok iter => (collectLoop kv (kv.handle id) plan.residual rounds iter []).map fun result => (result.mapError .db, kv)

/-- Call a function on the rows of a batch and count the calls that return true. -/
def runBatch (fn : Row → DBM Bool) : List Row → DBM ℕ
  | [] => pure 0
  | row :: rest => do
      let changed ← fn row
      let count ← runBatch fn rest
      pure ((if changed then 1 else 0) + count)

/-- The loop of `forEachMatch` over the primary key. -/
def batchLoop (id : ℕ) (schema : Schema) (cond : Option Expr) (fn : Row → DBM Bool) (rounds : ℕ) :
    ℕ → Option (List Cell) → DBM ℕ
  | 0, _ => unfinished
  | more + 1, resume => do
      let (batch, done) ← collectBatch id schema ⟨fullScanReq, cond, false⟩ resume rounds
      match batch.getLast? with
      | none => pure 0
      | some last => do
          let count ← runBatch fn batch
          if done then pure count
          else do
            let others ← batchLoop id schema cond fn rounds more (some (last.pick schema.pkey))
            pure (count + others)

/-- `forEachMatch`, with the number of calls that return true. -/
def forEachMatch (id : ℕ) (schema : Schema) (cond : Option Expr) (fn : Row → DBM Bool) (rounds : ℕ) : DBM ℕ := do
  let (batch, done) ← collectBatch id schema (planScan schema cond) none rounds
  if done then runBatch fn batch else batchLoop id schema cond fn rounds rounds none

section Statements

variable (codec : SchemaCodec) (rounds id : ℕ)

def getSchema (table : Bytes) : DBM Schema := do
  let val ← getKey id (schemaKey table)
  match val with
  | none => throw .tableNotFound
  | some val =>
      match codec.unmarshal val with
      | none => throw .badSchemaRecord
      | some schema => do
          encoded schema.validate
          pure schema

/-- Any failure of `GetSchema` counts as a name that is free. -/
def execCreateTable (stmt : StmtCreateTable) : DBM Unit := do
  let known ← attempt (getSchema codec id stmt.table)
  match known with
  | .ok _ => throw (.db .duplicateTable)
  | .error _ => do
      let schema ← encoded stmt.schema
      let _ ← writeKey id (.set (schemaKey stmt.table) (codec.marshal schema) .upsert)
      pure ()

def execDropTable (table : Bytes) : DBM Unit := do
  let schema ← getSchema codec id table
  let _ ← forEachMatch id schema none (DBTX.delete id schema) rounds
  let _ ← writeKey id (.del (schemaKey table))
  pure ()

/-- The expressions of a select list, without the names and types shown to the client. -/
def expandProjection (schema : Schema) (cols : List Expr) : Except StmtError (List Expr) :=
  let proj := cols.flatMap fun expr =>
    match expr with
    | .star => schema.cols.map fun col => .name col.name
    | _ => [expr]
  if proj = [] then .error .noColumnList else .ok proj

def execSelect (table : Bytes) (cols : List Expr) (cond : Option Expr) (limit offset : ℤ) : DBM SelectCursor := do
  let schema ← getSchema codec id table
  let proj ← lift (expandProjection schema cols)
  let iter ← act fun kv => ((range kv (kv.handle id) schema (planScan schema cond).req).mapError .db, kv)
  pure ⟨schema, planScan schema cond, proj, iter, if limit < 0 then -1 else limit, offset⟩

def execInsert (table : Bytes) (value : Row) : DBM ℕ := do
  let schema ← getSchema codec id table
  if value.map Cell.type ≠ schema.cols.map Column.type then throw .schemaMismatch
  else do
    let updated ← DBTX.insert id schema value
    pure (if updated then 1 else 0)

/-- The values of a `SET` list on a row. -/
def evalAssigns (schema : Schema) (row : Row) : List ExprAssign → Except DBError (List NamedCell)
  | [] => .ok []
  | assign :: rest =>
      match evalExpr schema row assign.expr with
      | .error err => .error err
      | .ok cell => (evalAssigns schema row rest).map (⟨assign.column, cell⟩ :: ·)

def fillNonPKey (schema : Schema) : List NamedCell → Row → Except StmtError Row
  | [], out => .ok out
  | update :: rest, out =>
      match columnNamed schema.cols update.column with
      | none => .error .unknownColumn
      | some idx =>
          if (schema.cols[idx]?).map Column.type ≠ some update.value.type then .error .columnTypeMismatch
          else if idx ∈ schema.pkey then .error .primaryKeyColumn
          else fillNonPKey schema rest (out.set idx update.value)

/-- The row an `UPDATE` makes of a row. -/
def assignRow (schema : Schema) (assigns : List ExprAssign) (row : Row) : Except StmtError Row :=
  match evalAssigns schema row assigns with
  | .error err => .error (.db err)
  | .ok updates => fillNonPKey schema updates row

def execUpdate (table : Bytes) (cond : Option Expr) (value : List ExprAssign) : DBM ℕ := do
  let schema ← getSchema codec id table
  forEachMatch id schema cond (fun row => do
    let updated ← lift (assignRow schema value row)
    DBTX.update id schema updated) rounds

def execDelete (table : Bytes) (cond : Option Expr) : DBM ℕ := do
  let schema ← getSchema codec id table
  forEachMatch id schema cond (DBTX.delete id schema) rounds

def execStmt : Stmt → DBM SQLResult
  | .createTable stmt => do
      execCreateTable codec id stmt
      pure (.affected 0)
  | .dropTable table => do
      execDropTable codec rounds id table
      pure (.affected 0)
  | .select table cols cond limit offset => .cursor <$> execSelect codec id table cols cond limit offset
  | .insert table value => .affected <$> execInsert codec id table value
  | .update table cond value => .affected <$> execUpdate codec rounds id table cond value
  | .delete table cond => .affected <$> execDelete codec rounds id table cond

end Statements

/-- `DBTX.ExecStmt`. A cursor keeps its transaction, everything else is committed at once. -/
def DBTX.execStmt (codec : SchemaCodec) (rounds parent : ℕ) (stmt : Stmt) : DBM SQLResult := do
  let id ← beginInner parent
  let result ← PallasDB.execStmt codec rounds id stmt
  match result with
  | .cursor _ => pure result
  | .affected _ => do
      commitInner id parent
      pure result

/-- The head of `DB.ExecStmt`: a failed statement aborts, the others go on to `Commit` or to their cursor. -/
def DB.beginStmt (codec : SchemaCodec) (rounds : ℕ) (stmt : Stmt) : DBM (ℕ × SQLResult) := do
  let id ← beginTop
  let result ← attempt (PallasDB.execStmt codec rounds id stmt)
  match result with
  | .error err => do
      abortTop id
      throw err
  | .ok result => pure (id, result)

/-- What other goroutines do to the store. -/
def meanwhile (options : KVOptions) (events : List KVEvent) : DBM Unit := ExceptT.mk fun kv =>
  (Transition.run? (KV.step options) kv events).map fun next => (.ok (), next)

/-- `DB.ExecStmt`, with what others do before its `Commit` gets the mutex. -/
def DB.execStmt (codec : SchemaCodec) (rounds : ℕ) (options : KVOptions) (others : List KVEvent) (stmt : Stmt) :
    DBM SQLResult := do
  let (id, result) ← DB.beginStmt codec rounds stmt
  match result with
  | .cursor _ => pure result
  | .affected _ => do
      meanwhile options others
      commitTop id
      pure result

/-! ## Schema records -/

/-- What `GetSchema` makes of the record of a table. -/
def loadSchema (codec : SchemaCodec) : Option Bytes → Except StmtError Schema
  | none => .error .tableNotFound
  | some val =>
      match codec.unmarshal val with
      | none => .error .badSchemaRecord
      | some schema => (schema.validate.mapError .db).map fun _ => schema

theorem exec_getSchema {kv : KV} {id : ℕ} {view : KVMap} (reads : kv.Reads (kv.handle id) view)
    (codec : SchemaCodec) (table : Bytes) :
    exec (getSchema codec id table) kv = some (loadSchema codec (view (schemaKey table)), kv) := by
  have get : exec (getKey id (schemaKey table)) kv = some (.ok (view (schemaKey table)), kv) := by
    rw [getKey, exec_act, reads.get]
    rfl
  rw [getSchema, exec_bind, get, Option.bind_some, follow]
  cases view (schemaKey table) with
  | none => rfl
  | some val =>
    rw [loadSchema]
    dsimp only
    cases codec.unmarshal val with
    | none => rfl
    | some schema =>
      dsimp only
      cases schema.validate <;> rfl

/-! ## Schema records -/

/-- What `encoding/json` writes for a schema whose names are identifiers, in which nothing is escaped. -/
def Schema.text (schema : Schema) : Bytes :=
  let cols := schema.cols.map fun col =>
    ascii "\x7b\"Name\":\"" ++ col.name ++ ascii "\",\"Type\":" ++ ascii (toString col.type.code) ++ ascii "\x7d"
  let indices := schema.indices.map fun index =>
    ascii "[" ++ (ascii ",").intercalate (index.map fun col => ascii (toString col)) ++ ascii "]"
  ascii "\x7b\"Version\":" ++ ascii (toString schema.version) ++ ascii ",\"Table\":\"" ++ schema.table ++
    ascii "\",\"Cols\":[" ++ (ascii ",").intercalate cols ++ ascii "],\"Indices\":[" ++
    (ascii ",").intercalate indices ++ ascii "]\x7d"

example : pairSchema.text = ascii ("\x7b\"Version\":1,\"Table\":\"t\",\"Cols\":[\x7b\"Name\":\"a\",\"Type\":1\x7d," ++
    "\x7b\"Name\":\"b\",\"Type\":1\x7d],\"Indices\":[[0],[1,0]]\x7d") := by decide +kernel

/-- The codec that reads the texts of these schemas. -/
def textCodec (schemas : List Schema) : SchemaCodec :=
  ⟨Schema.text, fun bytes => schemas.find? fun schema => decide (schema.text = bytes)⟩

def pairCodec : SchemaCodec := textCodec [pairSchema]

/-- The record of a table, its rows and their index entries. -/
def pairRun : SortedArray := ⟨schemaKey pairSchema.table, some pairSchema.text⟩ :: pairEntries

def pairStore : KV := { KV.empty with
  closed := false
  tables := { Tables.empty with mem := pairRun } }

end PallasDB
