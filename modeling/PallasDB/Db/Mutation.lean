import Mathlib.Data.Set.Card
import PallasDB.Db.Mutate

/-! # `UPDATE` and `DELETE`

Both statements replace each row that meets the condition by its result on the row as it was, and count the rows whose
result is another row. This is so inside a transaction, where the result is what the transaction reads afterwards, and
for a statement on its own, where it is what its `Commit` leaves in the store.
-/

namespace PallasDB

open Program SortedRun

/-- A statement that changes the rows that meet a condition. -/
inductive RowMutation where
  | update (value : List ExprAssign)
  | delete

namespace RowMutation

def stmt (change : RowMutation) (table : Bytes) (cond : Option Expr) : Stmt :=
  match change with
  | update value => .update table cond value
  | delete => .delete table cond

/-- What becomes of a row. -/
def result (change : RowMutation) (schema : Schema) (row : Row) : Except StmtError (Option Row) :=
  match change with
  | update value => (assignRow schema value row).map some
  | delete => .ok none

/-- The function the statement calls on each row. -/
def call (change : RowMutation) (id : ℕ) (schema : Schema) (row : Row) : DBM Bool :=
  match change with
  | update value => do
      let updated ← lift (assignRow schema value row)
      DBTX.update id schema updated
  | delete => DBTX.delete id schema row

end RowMutation

/-! ## One row -/

variable {row : Row}

section Row

variable {schema : Schema}

private theorem typed_set (typed : schema.Typed row) {idx : ℕ} {cell : Cell}
    (same : (schema.cols[idx]?).map Column.type = some cell.type) : schema.Typed (row.set idx cell) := by
  refine List.ext_getElem? fun k => ?_
  have own : (row.map Cell.type)[k]? = (schema.cols.map Column.type)[k]? := by rw [typed]
  rw [List.getElem?_map, List.getElem?_map] at own
  rw [List.getElem?_map, List.getElem?_set, List.getElem?_map]
  split
  · next hit =>
    subst hit
    split
    · exact same.symm
    · next outside => rwa [List.getElem?_eq_none (not_lt.mp outside)] at own
  · exact own

/-- Assignments keep the types and the primary key. -/
theorem fillNonPKey_keeps {updates : List NamedCell} {new : Row} (filled : fillNonPKey schema updates row = .ok new)
    (typed : schema.Typed row) : schema.Typed new ∧ ∀ idx ∈ schema.pkey, new[idx]? = row[idx]? := by
  induction updates generalizing row with
  | nil =>
    cases filled
    exact ⟨typed, fun _ _ => rfl⟩
  | cons update rest ih =>
    rw [fillNonPKey] at filled
    split at filled
    · contradiction
    · next idx found =>
      split at filled
      · contradiction
      · next types =>
        split at filled
        · contradiction
        · next value =>
          obtain ⟨typed', kept⟩ := ih filled (typed_set typed (not_not.mp types))
          refine ⟨typed', fun k member => ?_⟩
          rw [kept k member, List.getElem?_set_ne]
          rintro rfl
          exact value member

theorem assignRow_keeps {assigns : List ExprAssign} {new : Row} (assigned : assignRow schema assigns row = .ok new)
    (typed : schema.Typed row) : schema.Typed new ∧ schema.rowKey 0 new = schema.rowKey 0 row := by
  rw [assignRow] at assigned
  split at assigned
  · contradiction
  · obtain ⟨typed', kept⟩ := fillNonPKey_keeps assigned typed
    exact ⟨typed', Schema.rowKey_congr kept⟩

theorem RowMutation.performs (change : RowMutation) (created : schema.Created) (id : ℕ) (base : KVMap) :
    Performs schema id base (change.result schema) (change.call id schema) := by
  intro kv updates rows row usable shows stored storable
  cases change with
  | delete =>
    refine (RowCall.nested_changes created shows usable .delete row).mono ?_
    rintro deleted next ⟨rfl, changed⟩
    refine ⟨none, rfl, ?_, changed⟩
    rw [stored]
    rfl
  | update value =>
    refine (Returns.lift (fun new assigned => ⟨rfl, assigned⟩) :
      Returns (lift (assignRow schema value row)) kv fun new next =>
      next = kv ∧ assignRow schema value row = .ok new).bind ?_
    rintro new _ ⟨rfl, assigned⟩
    obtain ⟨typed, same⟩ := assignRow_keeps assigned storable.typed
    refine (RowCall.nested_changes created shows usable .update new).mono ?_
    rintro updated next ⟨rfl, changed⟩
    rw [same, stored] at changed ⊢
    have outcome : RowCall.update.outcome schema new (some row) = (some new, decide (some new ≠ some row)) := by
      by_cases equal : schema.rowVal row = schema.rowVal new
      · -- a row that fits is told by its primary entry, so nothing is lost when the values agree
        cases storable.ext typed created same.symm equal
        simp [RowCall.outcome, UpdateMode.outcome, KV.setExUpdates]
      · have other : new ≠ row := by
          rintro rfl
          exact equal rfl
        simp [RowCall.outcome, UpdateMode.outcome, KV.setExUpdates, equal, other]
    rw [outcome] at changed ⊢
    exact ⟨some new, by rw [RowMutation.result, assigned]; rfl, rfl, changed⟩

end Row

/-! ## The statement -/

section Statement

/-- A view with the table after the statement, given the one before. -/
structure Mutated (schema : Schema) (result : Row → Except StmtError (Option Row)) (cond : Option Expr) (rows : Set Row)
    (view after : KVMap) (count : ℕ) : Prop where
  defined : ∀ row ∈ rows, Satisfies schema row cond → ∃ new, result row = .ok new
  table : schema.Entries after { new | ∃ row ∈ rows, (Satisfies schema row cond ∧ result row = .ok (some new)) ∨
    (¬ Satisfies schema row cond ∧ new = row) }
  elsewhere : ∀ key, (∀ i < schema.indices.length, ¬ schema.keyHead i <+: key) → after key = view key
  finite : { row ∈ rows | Satisfies schema row cond }.Finite
  counted : count = { row ∈ rows | Satisfies schema row cond ∧ result row ≠ .ok (some row) }.ncard

variable {schema : Schema} {result : Row → Except StmtError (Option Row)} {cond : Option Expr}

private theorem changes_iff {new : Option Row} (done : result row = .ok new) :
    changes result row = true ↔ result row ≠ .ok (some row) := by
  rw [changes, done]
  simp

theorem AppliedTo.mutated (created : schema.Created) {id : ℕ} {base : KVMap} {updates : SortedArray}
    {rows : Bytes → Option Row} {count : ℕ} {next : KV} (shows : schema.Shows (overlay base updates) rows)
    (applied : AppliedTo schema id base updates rows result (fun row => Satisfies schema row cond) count next) :
    ∃ edit staged, next.Usable id base staged ∧ Edited updates edit staged ∧ Erases (overlay base updates) edit ∧
      Mutated schema result cond (Schema.rowsOf rows) (overlay base updates)
      (overlay (overlay base updates) edit) count := by
  obtain ⟨matched, mem_iff, distinct, edit, staged, after, usable, edited, mutates, results, counted⟩ := applied
  refine ⟨edit, staged, usable, edited, mutates.erases, ?_, ?_, ?_, ?_, ?_⟩
  · exact fun row member holds => ⟨_, results row ((mem_iff row).mpr ⟨member, holds⟩)⟩
  · have same : Schema.rowsOf after = { new | ∃ row ∈ Schema.rowsOf rows,
        (Satisfies schema row cond ∧ result row = .ok (some new)) ∨ (¬ Satisfies schema row cond ∧ new = row) } := by
      ext new
      constructor
      · intro member
        have stored := mutates.shows.mem_rowsOf.mp member
        by_cases touched : ∃ row ∈ matched, schema.rowKey 0 row = schema.rowKey 0 new
        · obtain ⟨row, hit, primary⟩ := touched
          obtain ⟨known, holds⟩ := (mem_iff row).mp hit
          exact ⟨row, known, .inl ⟨holds, by rw [results row hit, primary, stored]⟩⟩
        · rw [mutates.others _ touched] at stored
          have known := shows.mem_rowsOf.mpr stored
          exact ⟨new, known, .inr ⟨fun holds => touched ⟨new, (mem_iff new).mpr ⟨known, holds⟩, rfl⟩, rfl⟩⟩
      · rintro ⟨row, known, ⟨holds, done⟩ | ⟨fails, rfl⟩⟩
        · rw [results row ((mem_iff row).mpr ⟨known, holds⟩), Except.ok.injEq] at done
          exact ⟨_, done⟩
        · have stored := shows.mem_rowsOf.mp known
          refine mutates.shows.mem_rowsOf.mpr ?_
          rw [mutates.others _, stored]
          rintro ⟨row, hit, primary⟩
          obtain ⟨other, holds⟩ := (mem_iff row).mp hit
          have again := shows.mem_rowsOf.mp other
          rw [primary, stored] at again
          cases again
          exact fails holds
    rw [← same]
    exact mutates.shows.entries created
  · intro key outside
    have untouched : lookup edit key = none := by
      by_contra written
      obtain ⟨pkey, _, ⟨i, known, row, _, _, rfl⟩, _⟩ := mutates.within key written
      exact outside i known (schema.keyHead_isPrefix i row)
    rw [overlay, untouched, Option.getD_none]
  · exact (List.finite_toSet matched).subset fun row member => (mem_iff row).mpr member
  · have same : { row ∈ Schema.rowsOf rows | Satisfies schema row cond ∧ result row ≠ .ok (some row) } =
        ((matched.filter (changes result)).toFinset : Set Row) := by
      ext row
      rw [List.coe_toFinset, Set.mem_ofPred_eq, Set.mem_ofPred_eq, List.mem_filter, mem_iff, ← and_assoc]
      refine and_congr_right fun member => ?_
      exact (changes_iff (results row ((mem_iff row).mpr member))).symm
    rw [same, Set.ncard_coe_finset, List.toFinset_card_of_nodup (distinct.filter _), counted,
      List.countP_eq_length_filter]

variable {codec : SchemaCodec} {kv : KV} {id : ℕ} {base : KVMap} {updates : SortedArray}

/-- The record of a table can be read. -/
def Recorded (codec : SchemaCodec) (schema : Schema) (view : KVMap) : Prop :=
  (view (schemaKey schema.table)).bind codec.unmarshal = some schema

theorem getSchema_recorded (usable : kv.Usable id base updates)
    (recorded : Recorded codec schema (overlay base updates)) :
    Returns (getSchema codec id schema.table) kv fun found next => next = kv ∧ found = schema := by
  obtain ⟨val, stored, decoded⟩ := Option.bind_eq_some_iff.mp recorded
  refine Returns.after (usable.getKey (schemaKey schema.table)) ?_
  rw [stored]
  dsimp only
  rw [decoded]
  refine (returns_encoded schema.validate kv).bind ?_
  rintro _ _ ⟨rfl, _⟩
  exact Returns.pure ⟨rfl, rfl⟩

variable {rows : Set Row} (created : schema.Created) (few : schema.indices.length ≤ 128) (change : RowMutation)
  (written : ∀ expr, cond = some expr → expr.written = true) (rounds : ℕ)

include created few written

/-- The statement in its transaction. -/
theorem RowMutation.body_mutates (usable : kv.Usable id base updates)
    (recorded : Recorded codec schema (overlay base updates)) (holds : schema.Holds (overlay base updates) rows) :
    Returns (execStmt codec rounds id (change.stmt schema.table cond)) kv fun out next =>
      ∃ count, out = .affected count ∧
      ∃ edit staged, next.Usable id base staged ∧ Edited updates edit staged ∧ Erases (overlay base updates) edit ∧
        Mutated schema (change.result schema) cond rows (overlay base updates)
        (overlay (overlay base updates) edit) count := by
  obtain ⟨byKey, shows, same⟩ := holds.shows created
  have storable : ∀ row ∈ Schema.rowsOf byKey, schema.Storable row := by
    rw [same]
    exact holds.storable
  have loop : Returns (do
      let found ← getSchema codec id schema.table
      forEachMatch id found cond (change.call id found) rounds) kv
      (AppliedTo schema id base updates byKey (change.result schema) fun row => Satisfies schema row cond) := by
    refine (getSchema_recorded usable recorded).bind ?_
    rintro _ _ ⟨rfl, rfl⟩
    exact forEachMatch_applied created few (change.performs created id base) written rounds usable shows storable
  have both : Returns (SQLResult.affected <$> do
      let found ← getSchema codec id schema.table
      forEachMatch id found cond (change.call id found) rounds) kv fun out next => ∃ count, out = .affected count ∧
      ∃ edit staged, next.Usable id base staged ∧ Edited updates edit staged ∧ Erases (overlay base updates) edit ∧
        Mutated schema (change.result schema) cond rows (overlay base updates)
          (overlay (overlay base updates) edit) count := by
    refine Returns.map (loop.mono fun count next applied => ⟨count, rfl, ?_⟩)
    rw [← same]
    exact applied.mutated created shows
  cases change with
  | update value => exact both
  | delete => exact both

/-- The statement inside a transaction. -/
theorem RowMutation.nested_mutates {parent : ℕ} (usable : kv.Usable parent base updates)
    (recorded : Recorded codec schema (overlay base updates)) (holds : schema.Holds (overlay base updates) rows) :
    Returns (DBTX.execStmt codec rounds parent (change.stmt schema.table cond)) kv fun out next =>
      ∃ count, out = .affected count ∧ ∃ view, next.Reads (next.handle parent) view ∧
        Mutated schema (change.result schema) cond rows (overlay base updates) view count := by
  refine usable.within (fun inner => execStmt_stays codec rounds inner _) (fun state inner within =>
    RowMutation.body_mutates created few change written rounds within recorded holds) ?_
  rintro state inner _ enclosing ⟨count, rfl, edit, staged, within, edited, erases, mutated⟩
  have drafted : KV.Drafted inner (overlay base updates) (fun edit => Mutated schema (change.result schema) cond rows
      (overlay base updates) (overlay (overlay base updates) edit) count) state :=
    ⟨edit, staged, within, edited, erases, mutated⟩
  refine (enclosing.commitDraft drafted).bind ?_
  rintro _ next ⟨edit, staged, after, edited, _, mutated⟩
  refine Returns.pure ⟨count, rfl, _, after.reads, ?_⟩
  rw [edited.overlay]
  exact mutated

/-- The statement in a transaction of its own. -/
theorem RowMutation.alone_mutates (sorted : kv.tables.Sorted) (recorded : Recorded codec schema kv.tables.contents)
    (holds : schema.Holds kv.tables.contents rows) (options : KVOptions) :
    Returns (DB.execStmt codec rounds options [] (change.stmt schema.table cond)) kv fun out next =>
      ∃ count, out = .affected count ∧
        Mutated schema (change.result schema) cond rows kv.tables.contents next.tables.contents count := by
  have whole := @alone_returns codec kv rounds sorted (change.stmt schema.table cond) (fun count staged =>
    Mutated schema (change.result schema) cond rows kv.tables.contents (overlay kv.tables.contents staged) count)
    (fun state id usable => (RowMutation.body_mutates created few change written rounds usable recorded holds).mono ?_)
      options
  · refine whole.mono ?_
    rintro out next ⟨_, count, staged, same, committed, mutated⟩
    exact ⟨count, same, committed.contents ▸ mutated⟩
  · rintro _ next ⟨count, rfl, edit, staged, after, edited, _, mutated⟩
    refine ⟨count, staged, rfl, after, ?_⟩
    rw [edited.overlay]
    exact mutated

end Statement

/-- An `UPDATE` or `DELETE` that succeeds replaces each row that meets the condition by its result on the row as it was,
and leaves every other row; the count is the number of rows whose result is another row. Inside a transaction this shows
in what the transaction reads, on its own in the store. -/
theorem mutation_exact {create : StmtCreateTable} {schema : Schema} (accepted : create.schema = .ok schema)
    (few : schema.indices.length ≤ 128) (codec : SchemaCodec) (change : RowMutation) {cond : Option Expr}
    (written : ∀ expr, cond = some expr → expr.written = true) (rounds : ℕ) (rows : Set Row) :
    (∀ kv parent base updates count next, KV.Usable kv parent base updates →
      Recorded codec schema (overlay base updates) → schema.Holds (overlay base updates) rows →
      exec (DBTX.execStmt codec rounds parent (change.stmt schema.table cond)) kv = some (.ok (.affected count), next) →
      ∃ view, next.Reads (next.handle parent) view ∧
        Mutated schema (change.result schema) cond rows (overlay base updates) view count) ∧
    ∀ (kv : KV) options count next, kv.tables.Sorted → Recorded codec schema kv.tables.contents →
      schema.Holds kv.tables.contents rows →
      exec (DB.execStmt codec rounds options [] (change.stmt schema.table cond)) kv =
        some (.ok (.affected count), next) →
      Mutated schema (change.result schema) cond rows kv.tables.contents next.tables.contents count := by
  have created := StmtCreateTable.schema_created accepted
  constructor
  · intro kv parent base updates count next usable recorded holds ran
    obtain ⟨_, same, shown⟩ := change.nested_mutates created few written rounds usable recorded holds _ next ran
    cases same
    exact shown
  · intro kv options count next sorted recorded holds ran
    obtain ⟨_, same, mutated⟩ := change.alone_mutates created few written rounds sorted recorded holds options
      _ next ran
    cases same
    exact mutated

/-- `SET b = b + 1`. -/
def incrementSecond : RowMutation := .update [⟨[0x62], .binOp .add (.name [0x62]) (.cell (.i64 1))⟩]

def SQLResult.count : SQLResult → Option ℕ
  | .affected count => some count
  | .cursor _ => none

/-- Two of the four rows meet the condition. -/
theorem mutation_exact_incrementSecond :
    (exec (DB.execStmt pairCodec 5 .eager [] (incrementSecond.stmt pairSchema.table (some secondIsTwo))) pairStore).map
      (fun outcome => outcome.1.toOption.bind SQLResult.count) = some (some 2) ∧
    ∀ count next, exec (DB.execStmt pairCodec 5 .eager []
        (incrementSecond.stmt pairSchema.table (some secondIsTwo))) pairStore = some (.ok (.affected count), next) →
      Mutated pairSchema (incrementSecond.result pairSchema) (some secondIsTwo) {row | row ∈ pairRows}
        pairStore.tables.contents next.tables.contents count := by
  have accepted : pairTable.schema = .ok pairSchema := by decide
  refine ⟨by decide +kernel, fun count next ran => ?_⟩
  have recorded : Recorded pairCodec pairSchema pairStore.tables.contents := by
    unfold Recorded
    decide +kernel
  have sorted : ∀ run ∈ pairStore.tables.runs, Increasing run := by decide +kernel
  have holds : pairSchema.Holds pairStore.tables.contents {row | row ∈ pairRows} :=
    pairRows_hold (by decide +kernel) (fun _ member => List.mem_cons_of_mem _ member) (by decide +kernel)
  exact (mutation_exact accepted (by decide) pairCodec incrementSecond (by rintro _ ⟨⟩; decide) 5 _).2 pairStore _
    count next sorted recorded holds ran

end PallasDB
