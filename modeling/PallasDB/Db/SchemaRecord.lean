import PallasDB.Db.RowCalls

/-! # Schema records

`CREATE TABLE` writes the record of a table and `DROP TABLE` removes the rows and the record. Whether a name is taken is
decided by the success of `GetSchema`, which also fails on a record that is there and cannot be loaded. A `DBTX` keeps
the schemas it has looked up; the statements of the transaction run in inner transactions, each with a map of its own.

Nothing is assumed about the entries of the tables here: what is stored need not be what the row calls would store.
-/

namespace PallasDB

open Program SortedRun Transition

/-! ## Deletions -/

/-- Updates that do nothing but delete keys that were there. -/
def Trimmed (keys : Set Bytes) (base : KVMap) (updates : KVRun) : Prop :=
  ∀ key, lookup updates key ≠ none → key ∈ keys ∧ lookup updates key = some none ∧ (base key).isSome = true

def KV.Trims (keys : Set Bytes) (base : KVMap) (id : ℕ) (kv : KV) : Prop :=
  ∃ updates, kv.Usable id base updates ∧ Trimmed keys base updates

/-- The keys of a table, whatever its indices. -/
def Schema.keys (schema : Schema) : Set Bytes := { key | ∃ i, schema.keyHead i <+: key }

variable {edit : KVRun}

section Trimmed

variable {keys : Set Bytes} {base : KVMap} {updates : SortedArray}

theorem trimmed_nil (keys : Set Bytes) (base : KVMap) : Trimmed keys base [] := by
  intro key written
  simp at written

theorem Trimmed.erases (trimmed : Trimmed keys base edit) : Erases base edit := by
  intro key deleted
  exact (trimmed key (by simp [deleted])).2.2

theorem Trimmed.outside (trimmed : Trimmed keys base edit) {key : Bytes} (apart : key ∉ keys) :
    overlay base edit key = base key := by
  rw [overlay]
  by_cases written : lookup edit key = none
  · rw [written, Option.getD_none]
  · exact absurd (trimmed key written).1 apart

theorem Trimmed.trans {staged : SortedArray} (first : Trimmed keys base updates)
    (second : Trimmed keys (overlay base updates) edit) (edited : Edited updates edit staged) :
    Trimmed keys base staged := by
  intro key written
  rw [edited] at written ⊢
  by_cases later : lookup edit key = none
  · rw [later, Option.none_or] at written ⊢
    exact first key written
  · obtain ⟨member, deleted, present⟩ := second key later
    refine ⟨member, by rw [deleted]; rfl, ?_⟩
    by_cases earlier : lookup updates key = none
    · rwa [overlay, earlier, Option.getD_none] at present
    · rw [overlay, (first key earlier).2.1] at present
      contradiction

private theorem trimmed_single {key : Bytes} (member : key ∈ keys) :
    Trimmed keys base (if (base key).isSome then [⟨key, none⟩] else []) := by
  intro other written
  split at written
  · next present =>
    rw [if_pos present, lookup_cons] at *
    split at written
    · next same =>
      cases same
      exact ⟨member, by simp, present⟩
    · simp at written
  · simp at written

end Trimmed

section Trims

variable {keys : Set Bytes} {base : KVMap} {id : ℕ} {schema : Schema}

theorem writeKey_trims {key : Bytes} (member : key ∈ keys) : Keeps (KV.Trims keys base id)
    (writeKey id (.del key)) := by
  rintro kv ⟨updates, usable, trimmed⟩
  obtain ⟨next, staged, ran, after, edited⟩ := usable.deleteKey key
  exact Returns.of_exec ran ⟨staged, after, trimmed.trans (trimmed_single member) edited⟩

theorem deleteLoop_trims (inside : schema.keys ⊆ keys) (row : Row) (indices : List ℕ) (deleted : Bool) :
    Keeps (KV.Trims keys base id) (deleteLoop id schema row indices deleted) := by
  induction indices generalizing deleted with
  | nil => exact fun kv trims => Returns.pure trims
  | cons i indices ih =>
    intro kv trims
    refine (returns_encoded (row.encodeKey schema i) kv).bind ?_
    rintro key _ ⟨rfl, encoded⟩
    have member : key ∈ keys := inside ⟨i, Schema.encodeKey_eq_ok encoded ▸ schema.keyHead_isPrefix i row⟩
    refine (writeKey_trims member _ trims).bind fun found next kept => ?_
    split
    · exact ih found next kept
    · split
      · exact Returns.throw
      · exact Returns.pure kept

theorem delete_trims (inside : schema.keys ⊆ keys) (row : Row) :
    Keeps (KV.Trims keys base id) (DBTX.delete id schema row) := by
  rintro kv ⟨updates, usable, trimmed⟩
  have nested : Returns (DBTX.delete id schema row) kv fun _ next => ∃ edit staged, next.Usable id base staged ∧
      Edited updates edit staged ∧ Erases (overlay base updates) edit ∧ Trimmed keys (overlay base updates) edit := by
    refine usable.inner (fun inner => RowCall.body_stays inner schema .delete row) fun state inner within => ?_
    refine (deleteLoop_trims inside row _ false state ⟨[], within, trimmed_nil _ _⟩).mono ?_
    rintro _ next ⟨staged, after, drafted⟩
    exact ⟨staged, staged, after, fun key => by simp, drafted.erases, drafted⟩
  refine nested.mono ?_
  rintro _ next ⟨edit, staged, after, edited, _, drafted⟩
  exact ⟨staged, after, trimmed.trans drafted edited⟩

end Trims

/-! ## Statements in their transaction -/

variable {err : StmtError} {rounds : ℕ}

section Body

variable {codec : SchemaCodec} {kv : KV} {id : ℕ} {base view : KVMap} {updates : SortedArray}
  {stmt : StmtCreateTable}

/-- `DROP TABLE` deletes keys of the table it finds, and the record. -/
theorem execDropTable_trims (usable : kv.Usable id view []) (rounds : ℕ) (table : Bytes) :
    Returns (execDropTable codec rounds id table) kv fun _ next => ∃ schema staged,
      loadSchema codec (view (schemaKey table)) = .ok schema ∧ next.Usable id view staged ∧
        Trimmed (schema.keys ∪ {schemaKey table}) view staged ∧ overlay view staged (schemaKey table) = none := by
  have found : Returns (getSchema codec id table) kv fun schema next =>
      next = kv ∧ loadSchema codec (view (schemaKey table)) = .ok schema := by
    intro schema next ran
    obtain ⟨loaded, same⟩ := Prod.mk.inj (Option.some.inj ((exec_getSchema usable.reads codec table).symm.trans ran))
    exact ⟨same.symm, loaded⟩
  refine found.bind ?_
  rintro schema _ ⟨rfl, loaded⟩
  have swept : Keeps (KV.Trims (schema.keys ∪ {schemaKey table}) view id)
      (forEachMatch id schema none (DBTX.delete id schema) rounds) :=
    forEachMatch_compositional rounds id (keeps_compositional _)
      (fun row => delete_trims Set.subset_union_left row) schema none
  refine (swept _ ⟨[], usable, trimmed_nil _ _⟩).bind ?_
  rintro _ next ⟨staged, after, trimmed⟩
  obtain ⟨last, removed, ran, ended, edited⟩ := after.deleteKey (schemaKey table)
  refine Returns.after ran (Returns.pure ⟨schema, removed, loaded, ended, ?_, ?_⟩)
  · exact trimmed.trans (trimmed_single (.inr rfl)) edited
  · rw [edited.overlay]
    cases present : overlay view staged (schemaKey table) with
    | none => simpa [overlay] using present
    | some val => simp [overlay, lookup_cons]

/-- A name is taken if the record can be loaded. -/
theorem execCreateTable_taken (usable : kv.Usable id base updates) {schema : Schema}
    (loaded : loadSchema codec (overlay base updates (schemaKey stmt.table)) = .ok schema) :
    exec (execCreateTable codec id stmt) kv = some (.error (.db .duplicateTable), kv) := by
  rw [execCreateTable, exec_bind, exec_attempt, exec_getSchema usable.reads, loaded]
  rfl

theorem execCreateTable_rejected (usable : kv.Usable id base updates)
    (missing : loadSchema codec (overlay base updates (schemaKey stmt.table)) = .error err) {reason : DBError}
    (rejected : stmt.schema = .error reason) :
    exec (execCreateTable codec id stmt) kv = some (.error (.db reason), kv) := by
  rw [execCreateTable, exec_bind, exec_attempt, exec_getSchema usable.reads, missing, rejected]
  rfl

theorem execCreateTable_writes (usable : kv.Usable id base updates)
    (missing : loadSchema codec (overlay base updates (schemaKey stmt.table)) = .error err) {schema : Schema}
    (accepted : stmt.schema = .ok schema) :
    ∃ next staged, exec (execCreateTable codec id stmt) kv = some (.ok (), next) ∧ next.Usable id base staged ∧
      ∃ edit, Edited updates edit staged ∧ Erases (overlay base updates) edit ∧
        overlay (overlay base updates) edit =
          Function.update (overlay base updates) (schemaKey stmt.table) (some (codec.marshal schema)) := by
  obtain ⟨next, staged, ran, after, edited⟩ := usable.upsertKey (schemaKey stmt.table) (codec.marshal schema)
  refine ⟨next, staged, ?_, after, _, edited, ?_, ?_⟩
  · rw [execCreateTable, exec_bind, exec_attempt, exec_getSchema usable.reads, missing, accepted]
    change exec (writeKey id _ >>= _) kv = _
    rw [exec_bind, ran]
    rfl
  · intro key deleted
    split at deleted
    · simp at deleted
    · rw [lookup_cons] at deleted
      split at deleted <;> simp at deleted
  · funext key
    split
    · next same =>
      rcases eq_or_ne key (schemaKey stmt.table) with rfl | other
      · simp [overlay, ← same]
      · simp [overlay, other]
    · rcases eq_or_ne key (schemaKey stmt.table) with rfl | other
      · simp [overlay, lookup_cons]
      · simp [overlay, lookup_cons, other, other.symm]

theorem exec_createTable {result : Except StmtError Unit} {next : KV}
    (ran : exec (execCreateTable codec id stmt) kv = some (result, next)) :
    exec (execStmt codec rounds id (.createTable stmt)) kv = some (result.map fun _ => .affected 0, next) := by
  rw [execStmt, exec_bind, ran]
  cases result <;> rfl

end Body

/-! ## Statements inside a transaction -/

section Nested

variable {codec : SchemaCodec} {kv : KV} {parent : ℕ} {base : KVMap} {updates : SortedArray}

private theorem newInnerTX_usable (usable : kv.Usable parent base updates) :
    (kv.newInnerTX parent (kv.handle parent)).Usable parent base updates :=
  usable.frame (confined_append kv _) fun other _ => Set.notMem_empty other

private theorem exec_nested_error {stmt : Stmt} {next : KV}
    (failed : exec (execStmt codec rounds kv.txs.length stmt) (kv.newInnerTX parent (kv.handle parent)) =
      some (.error err, next)) : exec (DBTX.execStmt codec rounds parent stmt) kv = some (.error err, next) := by
  rw [DBTX.execStmt, exec_bind, beginInner, exec_act, Option.bind_some, follow, exec_bind, failed]
  rfl

private theorem exec_nested_affected {count : ℕ} {stmt : Stmt} {state next : KV}
    (ran : exec (execStmt codec rounds kv.txs.length stmt) (kv.newInnerTX parent (kv.handle parent)) =
      some (.ok (.affected count), state))
    (committed : exec (commitInner kv.txs.length parent) state = some (.ok (), next)) :
    exec (DBTX.execStmt codec rounds parent stmt) kv = some (.ok (.affected count), next) := by
  rw [DBTX.execStmt, exec_bind, beginInner, exec_act, Option.bind_some, follow, exec_bind, ran,
    Option.bind_some, follow]
  rw [exec_bind, committed]
  rfl

/-- A `CREATE TABLE` is refused, or the name had no record that could be loaded and it gets a new one. -/
theorem nested_create_cases (usable : kv.Usable parent base updates) (rounds : ℕ) (stmt : StmtCreateTable) :
    (∃ err, exec (DBTX.execStmt codec rounds parent (.createTable stmt)) kv =
        some (.error err, kv.newInnerTX parent (kv.handle parent)) ∧
      ((∃ schema, loadSchema codec (overlay base updates (schemaKey stmt.table)) = .ok schema) ∨
        ∃ reason, stmt.schema = .error reason)) ∨
      ∃ err schema next staged, loadSchema codec (overlay base updates (schemaKey stmt.table)) = .error err ∧
        stmt.schema = .ok schema ∧
        exec (DBTX.execStmt codec rounds parent (.createTable stmt)) kv = some (.ok (.affected 0), next) ∧
        next.Usable parent base staged ∧ overlay base staged =
          Function.update (overlay base updates) (schemaKey stmt.table) (some (codec.marshal schema)) := by
  have within := usable.beginInner
  cases loaded : loadSchema codec (overlay base updates (schemaKey stmt.table)) with
  | ok schema =>
    exact .inl ⟨_, exec_nested_error (exec_createTable (execCreateTable_taken within loaded)), .inl ⟨schema, rfl⟩⟩
  | error err =>
    cases accepted : stmt.schema with
    | error reason =>
      exact .inl ⟨_, exec_nested_error (exec_createTable (execCreateTable_rejected within loaded accepted)),
        .inr ⟨reason, rfl⟩⟩
    | ok schema =>
      obtain ⟨state, staged, ran, after, edit, edited, erases, shown⟩ := execCreateTable_writes within loaded accepted
      have outer : state.Usable parent base updates := by
        refine (newInnerTX_usable usable).frame (execStmt_stays codec rounds _ _ _ _ _ (exec_createTable ran))
          fun other small member => ?_
        cases member
        exact absurd usable.known (not_lt.mpr small)
      have same (key : Bytes) : lookup staged key = lookup edit key := by rw [edited, lookup_nil, Option.or_none]
      obtain ⟨next, merged, committed, ended, replayed⟩ :=
        outer.commitInner after fun key deleted => erases key ((same key).symm.trans deleted)
      refine .inr ⟨err, schema, next, merged, rfl, rfl, exec_nested_affected (exec_createTable ran) committed,
        ended, ?_⟩
      rw [replayed.overlay, edited.overlay, shown, overlay_nil]

/-- A `DROP TABLE` that succeeds removes the record and nothing but keys of the table it finds. -/
theorem nested_drop (usable : kv.Usable parent base updates) (rounds : ℕ) (table : Bytes) :
    Returns (DBTX.execStmt codec rounds parent (.dropTable table)) kv fun _ next => ∃ schema staged,
      loadSchema codec (overlay base updates (schemaKey table)) = .ok schema ∧ next.Usable parent base staged ∧
        (∀ key, key ∉ schema.keys → key ≠ schemaKey table → overlay base staged key = overlay base updates key) ∧
        overlay base staged (schemaKey table) = none := by
  have body (state : KV) (id : ℕ) (within : state.Usable id (overlay base updates) []) :
      Returns (execStmt codec rounds id (.dropTable table)) state fun out next => out = .affected 0 ∧
        KV.Drafted id (overlay base updates) (fun edit => ∃ schema,
          loadSchema codec (overlay base updates (schemaKey table)) = .ok schema ∧
            Trimmed (schema.keys ∪ {schemaKey table}) (overlay base updates) edit ∧
            overlay (overlay base updates) edit (schemaKey table) = none) next := by
    refine (execDropTable_trims within rounds table).bind ?_
    rintro _ next ⟨schema, staged, loaded, after, trimmed, gone⟩
    exact Returns.pure ⟨rfl, staged, staged, after, fun key => by simp, trimmed.erases, schema, loaded, trimmed, gone⟩
  refine usable.within (fun inner => execStmt_stays codec rounds inner _) body ?_
  rintro state inner _ outer ⟨rfl, drafted⟩
  refine (outer.commitDraft drafted).bind ?_
  rintro _ next ⟨edit, staged, after, edited, _, schema, loaded, trimmed, gone⟩
  refine Returns.pure ⟨schema, staged, loaded, after, fun key apart other => ?_, ?_⟩
  · rw [edited.overlay]
    exact trimmed.outside (not_or.mpr ⟨apart, other⟩)
  · rwa [edited.overlay]

end Nested

/-! ## `CREATE TABLE` where a record is present -/

section Create

variable {codec : SchemaCodec} {kv : KV} {stmt : StmtCreateTable} {val : Bytes}

/-- The record can be loaded, or the statement defines no table. -/
def Refusable (codec : SchemaCodec) (stmt : StmtCreateTable) (val : Bytes) : Prop :=
  (∃ schema, loadSchema codec (some val) = .ok schema) ∨ ∃ reason, stmt.schema = .error reason

theorem not_refusable (hard : ¬ Refusable codec stmt val) :
    ∃ err schema, loadSchema codec (some val) = .error err ∧ stmt.schema = .ok schema := by
  obtain ⟨unloadable, accepted⟩ := not_or.mp hard
  cases loaded : loadSchema codec (some val) with
  | ok schema => exact absurd ⟨schema, loaded⟩ unloadable
  | error err =>
    cases defined : stmt.schema with
    | error reason => exact absurd ⟨reason, defined⟩ accepted
    | ok schema => exact ⟨err, schema, rfl, rfl⟩

/-- In a transaction of its own a statement that fails in its body is aborted. -/
private theorem exec_alone_error {options : KVOptions} {others : List KVEvent} {stmt : Stmt}
    (failed : exec (execStmt codec rounds kv.txs.length stmt) kv.newTX = some (.error err, kv.newTX)) :
    ∃ next, exec (DB.execStmt codec rounds options others stmt) kv = some (.error err, next) ∧
    next.tables = kv.tables := by
  refine ⟨kv.newTX.abortTX kv.txs.length, ?_, ?_⟩
  · rw [DB.execStmt, DB.beginStmt, exec_bind, exec_bind, beginTop, exec_act, Option.bind_some, follow, exec_bind,
      exec_attempt, failed]
    rfl
  · exact (KV.untrack_tables ..).trans (by rw [KV.newTX]; split <;> rfl)

/-- Where the record of a table is present, `CREATE TABLE` is refused and changes nothing exactly if the record can be
loaded or the statement defines no table. Any other record is overwritten. -/
theorem create_refused_iff (codec : SchemaCodec) (stmt : StmtCreateTable) (val : Bytes) (rounds : ℕ) :
    (∀ kv parent base updates, KV.Usable kv parent base updates →
      overlay base updates (schemaKey stmt.table) = some val →
      ((∃ err next, exec (DBTX.execStmt codec rounds parent (.createTable stmt)) kv = some (.error err, next) ∧
          next.Reads (next.handle parent) (overlay base updates)) ↔ Refusable codec stmt val)) ∧
    ∀ (kv : KV) (options : KVOptions), kv.tables.Sorted → kv.closed = false →
      kv.tables.contents (schemaKey stmt.table) = some val →
      (Refusable codec stmt val → ∀ others, ∃ err next,
        exec (DB.execStmt codec rounds options others (.createTable stmt)) kv = some (.error err, next) ∧
          next.tables = kv.tables) ∧
      (¬ Refusable codec stmt val → ∀ out next,
        exec (DB.execStmt codec rounds options [] (.createTable stmt)) kv = some (.ok out, next) →
          ∃ schema, stmt.schema = .ok schema ∧
            next.tables.contents (schemaKey stmt.table) = some (codec.marshal schema)) := by
  constructor
  · intro kv parent base updates usable present
    rcases nested_create_cases usable rounds stmt with ⟨err, ran, refused⟩ |
      ⟨err, schema, next, staged, missing, accepted, ran, _⟩
    · rw [present] at refused
      exact iff_of_true ⟨err, _, ran, (newInnerTX_usable usable).reads⟩ refused
    · refine iff_of_false ?_ ?_
      · rintro ⟨_, _, failed, _⟩
        cases ran.symm.trans failed
      · rw [present] at missing
        rintro (⟨_, loaded⟩ | ⟨_, rejected⟩)
        · cases missing.symm.trans loaded
        · cases accepted.symm.trans rejected
  · intro kv options sorted running present
    constructor
    · intro refusable others
      have usable := KV.usable_newTX sorted running
      obtain ⟨err, failed⟩ : ∃ err, exec (execCreateTable codec kv.txs.length stmt) kv.newTX =
        some (.error err, kv.newTX) := by
        cases loaded : loadSchema codec (some val) with
        | ok schema => exact ⟨_, execCreateTable_taken usable (by rw [overlay_nil, present, loaded])⟩
        | error err =>
          obtain ⟨reason, rejected⟩ := refusable.resolve_left (by simp [loaded])
          exact ⟨_, execCreateTable_rejected usable (by rw [overlay_nil, present, loaded]) rejected⟩
      exact ⟨err, exec_alone_error (exec_createTable failed)⟩
    · intro hard out next ran
      obtain ⟨err, schema, missing, accepted⟩ := not_refusable hard
      have overwrites := @alone_returns codec kv rounds sorted (.createTable stmt)
        (fun _ staged => overlay kv.tables.contents staged (schemaKey stmt.table) = some (codec.marshal schema))
        (fun state id usable => by
          obtain ⟨last, staged, wrote, after, edit, edited, _, shown⟩ :=
            execCreateTable_writes usable (by rw [overlay_nil, present, missing]) accepted
          refine Returns.of_exec (exec_createTable wrote) ⟨0, staged, rfl, after, ?_⟩
          rw [edited.overlay, shown, Function.update_self]) options
      obtain ⟨_, _, _, _, committed, overwritten⟩ := overwrites out next ran
      exact ⟨schema, accepted, by rw [committed.contents, overwritten]⟩

end Create

theorem create_refused_iff_pair : pairStore.closed = false ∧
    pairStore.tables.contents (schemaKey pairTable.table) = some pairSchema.text ∧
    ∃ err next, exec (DB.execStmt pairCodec 0 .eager [] (.createTable pairTable)) pairStore = some (.error err, next) ∧
      next.tables = pairStore.tables := by
  have present : pairStore.tables.contents (schemaKey pairTable.table) = some pairSchema.text := by decide +kernel
  have sorted : ∀ run ∈ pairStore.tables.runs, Increasing run := by decide +kernel
  exact ⟨rfl, present, ((create_refused_iff pairCodec pairTable _ 0).2 pairStore .eager sorted rfl present).1
    (.inl ⟨pairSchema, by decide +kernel⟩) []⟩

def laterSchema : Schema := { pairSchema with version := 2 }

/-- A store with the record of a later format over the rows of the table. -/
def laterStore : KV := { pairStore with
  tables := { Tables.empty with mem := ⟨schemaKey laterSchema.table, some laterSchema.text⟩ :: pairEntries } }

/-- The record of another version counts as a free name: the table is created anew over its rows. -/
theorem laterVersion_overwritten :
    loadSchema (textCodec [pairSchema, laterSchema]) (laterStore.tables.contents (schemaKey pairTable.table)) =
      .error (.db .unsupportedVersion) ∧
    (exec (DB.execStmt (textCodec [pairSchema, laterSchema]) 0 .eager [] (.createTable pairTable)) laterStore).map
      (fun outcome => (outcome.1.toOption.isSome, outcome.2.tables.contents (schemaKey pairTable.table))) =
        some (true, some pairSchema.text) := by
  decide +kernel

/-! ## Lookups that are kept -/

/-- A `DBTX` and the store it works in. -/
structure SchemaTX where
  kv : KV
  tables : List (Bytes × Schema)

inductive SchemaCall where
  | getSchema (table : Bytes)
  | createTable (stmt : StmtCreateTable)
  | dropTable (rounds : ℕ) (table : Bytes)

namespace SchemaTX

variable (codec : SchemaCodec) (id : ℕ)

/-- `DBTX.GetSchema`. -/
def getSchema (state : SchemaTX) (table : Bytes) : Option (Except StmtError Schema × SchemaTX) :=
  match state.tables.lookup table with
  | some schema => some (.ok schema, state)
  | none => (exec (PallasDB.getSchema codec id table) state.kv).map fun (result, kv) =>
      match result with
      | .ok schema => (.ok schema, ⟨kv, (table, schema) :: state.tables⟩)
      | .error err => (.error err, ⟨kv, state.tables⟩)

/-- `DBTX.ExecStmt`; the inner transaction of the statement has a map of its own. -/
def execStmt (rounds : ℕ) (state : SchemaTX) (stmt : Stmt) : Option SchemaTX :=
  (exec (DBTX.execStmt codec rounds id stmt) state.kv).map fun (_, kv) => ⟨kv, state.tables⟩

def step (state : SchemaTX) : SchemaCall → Option SchemaTX
  | .getSchema table => (state.getSchema codec id table).map Prod.snd
  | .createTable stmt => state.execStmt codec id 0 (.createTable stmt)
  | .dropTable rounds table => state.execStmt codec id rounds (.dropTable table)

/-- A `DROP TABLE` that finds its table removes no record of a table that has been looked up. -/
def dropsUnseen (state : SchemaTX) : SchemaCall → Bool
  | .dropTable _ table =>
      match exec (PallasDB.getSchema codec id table) state.kv with
      | some (.ok schema, _) => state.tables.all fun (seen, _) =>
          seen ≠ table && !(schema.table ++ [0x00]).isPrefixOf (schemaKey seen)
      | _ => true
  | _ => true

variable {codec id} {base : KVMap} {state next : SchemaTX}

/-- Every schema that is kept is the one in the record. -/
structure Coherent (codec : SchemaCodec) (id : ℕ) (base : KVMap) (updates : SortedArray)
    (state : SchemaTX) : Prop where
  usable : state.kv.Usable id base updates
  kept : ∀ table schema, (table, schema) ∈ state.tables →
    loadSchema codec (overlay base updates (schemaKey table)) = .ok schema

section Coherent

variable {updates : SortedArray} (coherent : Coherent codec id base updates state)

include coherent

/-- A lookup returns what the record says, and what it keeps is that. -/
theorem Coherent.getSchema (table : Bytes) :
    ∃ next, state.getSchema codec id table = some (loadSchema codec (overlay base updates (schemaKey table)), next) ∧
      Coherent codec id base updates next := by
  rw [SchemaTX.getSchema]
  cases seen : state.tables.lookup table with
  | some schema =>
    have member : (table, schema) ∈ state.tables := by
      obtain ⟨before, after, same, _⟩ := List.lookup_eq_some_iff.mp seen
      rw [same]
      exact List.mem_append_right _ (List.mem_cons_self ..)
    exact ⟨state, by simp [coherent.kept table schema member], coherent⟩
  | none =>
    simp only [exec_getSchema coherent.usable.reads, Option.map_some]
    cases loaded : loadSchema codec (overlay base updates (schemaKey table)) with
    | error err => exact ⟨_, rfl, coherent.usable, coherent.kept⟩
    | ok schema =>
      refine ⟨_, rfl, coherent.usable, fun other found member => ?_⟩
      rcases List.mem_cons.mp member with same | before
      · cases same
        exact loaded
      · exact coherent.kept other found before

theorem Coherent.createTable (stmt : StmtCreateTable)
    (taken : state.execStmt codec id 0 (.createTable stmt) = some next) :
    ∃ staged, Coherent codec id base staged next := by
  obtain ⟨⟨result, kv⟩, ran, rfl⟩ := Option.map_eq_some_iff.mp taken
  rcases nested_create_cases coherent.usable 0 stmt with
    ⟨err, refused, _⟩ | ⟨err, schema, _, staged, missing, _, wrote, after, shown⟩
  · cases refused.symm.trans ran
    exact ⟨updates, newInnerTX_usable coherent.usable, coherent.kept⟩
  · cases wrote.symm.trans ran
    refine ⟨staged, after, fun table found member => ?_⟩
    have loaded := coherent.kept table found member
    have other : schemaKey table ≠ schemaKey stmt.table := by
      intro same
      rw [same, missing] at loaded
      contradiction
    rwa [shown, Function.update_of_ne other]

theorem Coherent.dropTable {table : Bytes} (unseen : state.dropsUnseen codec id (.dropTable rounds table) = true)
    (taken : state.execStmt codec id rounds (.dropTable table) = some next) :
    ∃ staged, Coherent codec id base staged next := by
  obtain ⟨⟨result, kv⟩, ran, rfl⟩ := Option.map_eq_some_iff.mp taken
  cases result with
  | error err =>
    have confined := execStmt_error_confined codec rounds id _ ran
    exact ⟨updates, coherent.usable.frame confined fun other _ => Set.notMem_empty other, coherent.kept⟩
  | ok out =>
    obtain ⟨schema, staged, loaded, after, outside, _⟩ := nested_drop coherent.usable rounds table out kv ran
    rw [dropsUnseen, exec_getSchema coherent.usable.reads, loaded] at unseen
    refine ⟨staged, after, fun seen found member => ?_⟩
    have apart := List.all_eq_true.mp unseen _ member
    simp only [ne_eq, decide_not, Bool.and_eq_true, Bool.not_eq_eq_eq_not, Bool.not_true, decide_eq_false_iff_not]
      at apart
    rw [outside (schemaKey seen) ?_ ?_]
    · exact coherent.kept seen found member
    · rintro ⟨i, rest, same⟩
      have head : schema.table ++ [0x00] <+: schemaKey seen := by
        refine ⟨UInt8.ofNat i :: rest, ?_⟩
        rw [← same, Schema.keyHead, List.append_assoc, List.append_assoc]
        rfl
      rw [List.isPrefixOf_iff_prefix.mpr head] at apart
      exact absurd apart.2 (by simp)
    · intro same
      exact apart.1 (List.append_cancel_left same)

theorem Coherent.step {call : SchemaCall} (unseen : state.dropsUnseen codec id call = true)
    (taken : state.step codec id call = some next) : ∃ staged, Coherent codec id base staged next := by
  cases call with
  | getSchema table =>
    obtain ⟨after, found, kept⟩ := coherent.getSchema table
    rw [SchemaTX.step, found] at taken
    cases taken
    exact ⟨updates, kept⟩
  | createTable stmt => exact coherent.createTable stmt taken
  | dropTable rounds table => exact coherent.dropTable unseen taken

end Coherent

/-- As long as no table is dropped that has been looked up, every lookup returns the schema in the record, and an error
if there is none. -/
theorem getSchema_current {kv : KV} {updates : SortedArray} (usable : kv.Usable id base updates)
    {calls : List SchemaCall} (ran : run? (step codec id) ⟨kv, []⟩ calls = some state)
    (meets : Meets (step codec id) (fun state call => state.dropsUnseen codec id call = true) ⟨kv, []⟩ calls) :
    ∃ view, state.kv.Reads (state.kv.handle id) view ∧
      ∀ table, (state.getSchema codec id table).map Prod.fst = some (loadSchema codec (view (schemaKey table))) := by
  have fresh : ∃ updates, Coherent codec id base updates ⟨kv, []⟩ := ⟨updates, usable, by simp⟩
  obtain ⟨staged, coherent⟩ := run?_invariant_of_meets (fun state => ∃ updates, Coherent codec id base updates state)
    (fun before unseen taken => by
      obtain ⟨updates, coherent⟩ := before
      exact coherent.step unseen taken) fresh meets ran
  refine ⟨overlay base staged, coherent.usable.reads, fun table => ?_⟩
  obtain ⟨next, found, _⟩ := coherent.getSchema table
  rw [found]
  rfl

/-- A lookup, the creation of a table that is found afterwards, and the removal of one that has not been looked up. -/
def unseenCalls : List SchemaCall :=
  [.getSchema [0x75], .dropTable 10 pairSchema.table, .createTable pairTable, .getSchema pairSchema.table]

theorem getSchema_current_unseen : (run? (step pairCodec 0) ⟨pairStore.newTX, []⟩ unseenCalls).isSome = true ∧
    ∀ state, run? (step pairCodec 0) ⟨pairStore.newTX, []⟩ unseenCalls = some state →
      ∃ view, state.kv.Reads (state.kv.handle 0) view ∧
        ∀ table, (state.getSchema pairCodec 0 table).map Prod.fst =
          some (loadSchema pairCodec (view (schemaKey table))) := by
  have sorted : ∀ run ∈ pairStore.tables.runs, Increasing run := by decide +kernel
  exact ⟨by decide +kernel, fun state ran => getSchema_current (KV.usable_newTX sorted rfl) ran (by decide +kernel)⟩

/-- A table is looked up, dropped and looked up again: the record is gone, the schema is still found. -/
theorem droppedTable_found :
    (run? (step pairCodec 0) ⟨pairStore.newTX, []⟩ [.getSchema pairSchema.table, .dropTable 10 pairSchema.table]).map
      (fun state => ((state.kv.get (state.kv.handle 0) (schemaKey pairSchema.table)).toOption,
        (state.getSchema pairCodec 0 pairSchema.table).map fun (result, _) => result.toOption)) =
      some (some none, some (some pairSchema)) := by
  decide +kernel

end SchemaTX

end PallasDB
