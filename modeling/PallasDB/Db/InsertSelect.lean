import PallasDB.Db.Select
import PallasDB.Db.SchemaRecord

/-! # `INSERT`, then `SELECT *`

A new table holds, after any number of `INSERT` statements, the first row inserted for each primary key. `SELECT *`
scans the primary key and projects the columns by their names; a name stands for the first column that has it. `CREATE
TABLE` does not ask for different names, so a column may be hidden behind another one.
-/

namespace PallasDB

open Program SortedRun Paging

/-- The first row of each primary key. -/
def firstRows (schema : Schema) : List Row → List Row
  | [] => []
  | row :: rest => row :: (firstRows schema rest).filter fun other => other.pick schema.pkey ≠ row.pick schema.pkey

/-- The cells of a row by the names of the columns. -/
def starRow (schema : Schema) (row : Row) : Row :=
  schema.cols.map fun col => row.getD (schema.cols.findIdx fun other => decide (other.name = col.name)) (.i64 0)

/-- Columns with the same name have the same value. -/
def Schema.SameNamed (schema : Schema) (row : Row) : Prop :=
  ∀ (i j : ℕ) (first second : Column), schema.cols[i]? = some first → schema.cols[j]? = some second →
    first.name = second.name → row[i]? = row[j]?

/-! ## Projection -/

variable {create : StmtCreateTable}

section Star

variable {schema : Schema} {row : Row}

/-- A column finds the first one with its name. -/
private theorem findIdx_name {col : Column} (member : col ∈ schema.cols) :
    ∃ first, schema.cols[schema.cols.findIdx fun other => decide (other.name = col.name)]? = some first ∧
      first.name = col.name ∧
      columnNamed schema.cols col.name = some (schema.cols.findIdx fun other => decide (other.name = col.name)) := by
  have inside : (schema.cols.findIdx fun other => decide (other.name = col.name)) < schema.cols.length :=
    List.findIdx_lt_length_of_exists ⟨col, member, by simp⟩
  refine ⟨_, List.getElem?_eq_getElem inside, ?_, ?_⟩
  · simpa using List.findIdx_getElem (w := inside)
  · rw [columnNamed, List.findIdx?_eq_some_iff_findIdx_eq]
    exact ⟨inside, rfl⟩

theorem getElem?_starRow {i : ℕ} {col : Column} (typed : schema.Typed row) (found : schema.cols[i]? = some col) :
    (starRow schema row)[i]? = row[schema.cols.findIdx fun other => decide (other.name = col.name)]? := by
  obtain ⟨first, there, _⟩ := findIdx_name (List.mem_of_getElem? found)
  obtain ⟨cell, present, _⟩ := typed.cell there
  rw [starRow, List.getElem?_map, found, Option.map_some, List.getD_eq_getElem?_getD, present, Option.getD_some]

/-- A row comes back whole if the columns that share a name have the same value. -/
theorem starRow_eq_iff (typed : schema.Typed row) : starRow schema row = row ↔ schema.SameNamed row := by
  constructor
  · intro same i j first second left right named
    rw [← same, getElem?_starRow typed left, getElem?_starRow typed right, named]
  · intro alike
    refine List.ext_getElem? fun i => ?_
    cases found : schema.cols[i]? with
    | none =>
      have short := List.getElem?_eq_none_iff.mp found
      rw [List.getElem?_eq_none (by simpa [starRow] using short),
        List.getElem?_eq_none (by rw [typed.length_eq]; exact short)]
    | some col =>
      obtain ⟨first, there, named, _⟩ := findIdx_name (List.mem_of_getElem? found)
      rw [getElem?_starRow typed found]
      exact alike _ i first col there found named

/-- Whatever the row, what comes back has the same value in columns that share a name. -/
theorem sameNamed_starRow (typed : schema.Typed row) : schema.SameNamed (starRow schema row) := by
  intro i j first second left right named
  rw [getElem?_starRow typed left, getElem?_starRow typed right, named]

theorem expand_star (accepted : create.schema = .ok schema) :
    expandProjection schema [.star] = .ok (schema.cols.map fun col => .name col.name) := by
  obtain ⟨nonempty, _, _, _, rfl⟩ := StmtCreateTable.schema_eq_ok accepted
  simpa [expandProjection] using nonempty

theorem project_star (typed : schema.Typed row) :
    schema.project (schema.cols.map fun col => .name col.name) row = .ok (starRow schema row) := by
  suffices all : ∀ cols ⊆ schema.cols, schema.project (cols.map fun col => .name col.name) row =
      .ok (cols.map fun col => row.getD (schema.cols.findIdx fun other => decide (other.name = col.name)) (.i64 0)) from
    all _ (List.Subset.refl _)
  intro cols inside
  induction cols with
  | nil => rfl
  | cons col cols ih =>
    obtain ⟨first, there, _, named⟩ := findIdx_name (inside (List.mem_cons_self ..))
    obtain ⟨cell, present, _⟩ := typed.cell there
    have own : evalExpr schema row (.name col.name) =
        .ok (row.getD (schema.cols.findIdx fun other => decide (other.name = col.name)) (.i64 0)) := by
      rw [evalExpr, evalExprAt, capped, lookupCell, named]
      simp [present, List.getD_eq_getElem?_getD]
    rw [List.map_cons, Schema.project, own]
    simp only [ih fun other member => inside (List.mem_cons_of_mem _ member), Except.map, List.map_cons]

end Star

/-! ## The rows of a table -/

/-- The rows of a table after `INSERT`s, by primary keys. -/
def insertedRows (schema : Schema) : (Bytes → Option Row) → List Row → Bytes → Option Row
  | rows, [] => rows
  | rows, row :: rest =>
      insertedRows schema (Function.update rows (schema.rowKey 0 row) ((rows (schema.rowKey 0 row)).or (some row))) rest

section Inserted

variable {schema : Schema}

private theorem rowKey_of_pick (created : schema.Created) {row other : Row}
    (same : other.pick schema.pkey = row.pick schema.pkey) : schema.rowKey 0 other = schema.rowKey 0 row := by
  have first : schema.indices.getD 0 [] = schema.pkey := by
    rw [List.getD_eq_getElem?_getD, created.primary_eq, Option.getD_some]
  rw [Schema.rowKey, Schema.rowKey, first, same]

private theorem pick_of_rowKey (created : schema.Created) {row other : Row} (typed : schema.Typed row)
    (second : schema.Typed other) (same : schema.rowKey 0 other = schema.rowKey 0 row) :
    other.pick schema.pkey = row.pick schema.pkey := by
  exact (Schema.encodeKey_order created.primary_eq (second.keyed created.toValid 0 created.positive)
    (typed.keyed created.toValid 0 created.positive)).2.mp same

theorem insertedRows_eq (created : schema.Created) (rows : Bytes → Option Row) (inserted : List Row) (pkey : Bytes) :
    insertedRows schema rows inserted pkey =
      (rows pkey).or ((firstRows schema inserted).find? fun row => decide (schema.rowKey 0 row = pkey)) := by
  induction inserted generalizing rows with
  | nil => simp [insertedRows, firstRows]
  | cons row rest ih =>
    rw [insertedRows, ih, firstRows, List.find?_cons]
    by_cases own : schema.rowKey 0 row = pkey
    · subst own
      simp [Function.update_self]
    · -- a row with another primary key is not taken out by this one
      have kept : ((firstRows schema rest).filter fun other => other.pick schema.pkey ≠ row.pick schema.pkey).find?
          (fun other => decide (schema.rowKey 0 other = pkey)) =
            (firstRows schema rest).find? fun other => decide (schema.rowKey 0 other = pkey) := by
        rw [List.find?_filter]
        refine congrArg (fun test => List.find? test (firstRows schema rest)) (funext fun other => ?_)
        by_cases hit : schema.rowKey 0 other = pkey
        · have apart : other.pick schema.pkey ≠ row.pick schema.pkey :=
            fun same => own ((rowKey_of_pick created same).symm.trans hit)
          simp [hit, apart]
        · simp [hit]
      rw [Function.update_of_ne (Ne.symm own), kept]
      simp [own]

theorem firstRows_sublist (inserted : List Row) : (firstRows schema inserted).Sublist inserted := by
  induction inserted with
  | nil => exact .slnil
  | cons row rest ih => exact (List.filter_sublist.trans ih).cons_cons row

theorem firstRows_pairwise (inserted : List Row) :
    (firstRows schema inserted).Pairwise fun row other => row.pick schema.pkey ≠ other.pick schema.pkey := by
  induction inserted with
  | nil => exact .nil
  | cons row rest ih =>
    refine List.pairwise_cons.mpr ⟨fun other member => ?_, ih.filter _⟩
    exact Ne.symm (by simpa using (List.mem_filter.mp member).2)

theorem firstRows_nodup (inserted : List Row) : (firstRows schema inserted).Nodup :=
  (firstRows_pairwise inserted).imp fun {row other} apart (same : row = other) => apart (by rw [same])

/-- A table holds the first row inserted for each primary key. -/
theorem mem_rowsOf_inserted (created : schema.Created) {inserted : List Row}
    (typed : ∀ row ∈ inserted, schema.Typed row)
    (row : Row) : row ∈ Schema.rowsOf (insertedRows schema (fun _ => none) inserted) ↔
    row ∈ firstRows schema inserted := by
  have own {other : Row} (member : other ∈ firstRows schema inserted) : schema.Typed other :=
    typed other ((firstRows_sublist inserted).subset member)
  constructor
  · rintro ⟨pkey, stored⟩
    rw [insertedRows_eq created, Option.none_or] at stored
    exact List.mem_of_find?_eq_some stored
  · intro member
    refine ⟨schema.rowKey 0 row, ?_⟩
    rw [insertedRows_eq created, Option.none_or]
    cases found : (firstRows schema inserted).find? fun other =>
      decide (schema.rowKey 0 other = schema.rowKey 0 row) with
    | none => exact absurd (List.find?_eq_none.mp found row member) (by simp)
    | some other =>
      have there := List.mem_of_find?_eq_some found
      have same := pick_of_rowKey created (own member) (own there) (by simpa using List.find?_some found)
      have symmetric : Std.Symm fun row other : Row => row.pick schema.pkey ≠ other.pick schema.pkey :=
        ⟨fun _ _ => Ne.symm⟩
      by_contra apart
      exact (firstRows_pairwise inserted).forall there member (fun equal => apart (congrArg some equal)) same

end Inserted

/-! ## Statements -/

/-- A store with a table of these rows, all of which fit in a log record. -/
structure Filled (codec : SchemaCodec) (schema : Schema) (rows : Bytes → Option Row) (kv : KV) : Prop where
  sorted : kv.tables.Sorted
  running : kv.closed = false
  record : loadSchema codec (kv.tables.contents (schemaKey schema.table)) = .ok schema
  shows : schema.Shows kv.tables.contents rows
  storable : ∀ row ∈ Schema.rowsOf rows, schema.Storable row

/-- `INSERT` statements, each in a transaction of its own. -/
def insertAll (codec : SchemaCodec) (rounds : ℕ) (options : KVOptions) (table : Bytes) : List Row → DBM Unit
  | [] => pure ()
  | row :: rest => do
      let _ ← DB.execStmt codec rounds options [] (.insert table row)
      insertAll codec rounds options table rest

/-- `CREATE TABLE` and then `INSERT` statements. -/
def fillTable (codec : SchemaCodec) (rounds : ℕ) (options : KVOptions) (create : StmtCreateTable)
    (inserted : List Row) : DBM Unit := do
  let _ ← DB.execStmt codec rounds options [] (.createTable create)
  insertAll codec rounds options create.table inserted

section Fill

variable {codec : SchemaCodec} {rounds : ℕ} {options : KVOptions} {schema : Schema} {rows : Bytes → Option Row}
  {kv : KV}

private theorem schemaKey_apart (named : isName schema.table = true) (table : Bytes) :
    schemaKey table ∉ schema.keys := by
  rintro ⟨i, head⟩
  have reserved := isReservedKey_schemaKey table
  rw [Schema.reserved_head named head] at reserved
  contradiction

private theorem load_created (accepted : create.schema = .ok schema)
    (lawful : codec.unmarshal (codec.marshal schema) = some schema) :
    loadSchema codec (some (codec.marshal schema)) = .ok schema := by
  have valid := (StmtCreateTable.schema_eq_ok accepted).2.1
  rw [loadSchema, lawful]
  simp only [valid, Except.mapError, Except.map]

/-- `CREATE TABLE` on a name without entries. -/
theorem create_filled (accepted : create.schema = .ok schema)
    (lawful : codec.unmarshal (codec.marshal schema) = some schema) (named : isName schema.table = true)
    (sorted : kv.tables.Sorted) (empty : ∀ key ∈ schema.keys, kv.tables.contents key = none) :
    Returns (DB.execStmt codec rounds options [] (.createTable create)) kv fun _ next =>
      Filled codec schema (fun _ => none) next := by
  have body (state : KV) (id : ℕ) (usable : state.Usable id kv.tables.contents []) :
      Returns (execStmt codec rounds id (.createTable create)) state fun out next =>
        ∃ count staged, out = .affected count ∧
        next.Usable id kv.tables.contents staged ∧ overlay kv.tables.contents staged =
          Function.update kv.tables.contents (schemaKey create.table) (some (codec.marshal schema)) := by
    cases loaded : loadSchema codec (overlay kv.tables.contents [] (schemaKey create.table)) with
    | ok other =>
      intro out next ran
      cases (exec_createTable (execCreateTable_taken usable loaded)).symm.trans ran
    | error err =>
      obtain ⟨next, staged, wrote, after, edit, edited, _, shown⟩ := execCreateTable_writes usable loaded accepted
      exact Returns.of_exec (exec_createTable wrote) ⟨0, staged, rfl, after, by rw [edited.overlay, shown, overlay_nil]⟩
  refine (alone_returns sorted body options).mono ?_
  rintro _ next ⟨running, _, staged, _, committed, shown⟩
  have contents := committed.contents.trans shown
  have table := StmtCreateTable.schema_table accepted
  have kept {i : ℕ} {key : Bytes} (head : schema.keyHead i <+: key) : next.tables.contents key = none := by
    have member : key ∈ schema.keys := ⟨i, head⟩
    rw [contents, Function.update_of_ne, empty key member]
    rintro rfl
    exact schemaKey_apart named create.table member
  refine ⟨committed.sorted, committed.closed.trans running, ?_, ⟨by simp, ?_, ?_⟩, by simp [Schema.rowsOf]⟩
  · rw [contents, table, Function.update_self]
    exact load_created accepted lawful
  · intro key head
    rw [kept head]
    rfl
  · intro i _ _ key head
    simp [kept head]

/-- What has been committed fits in log records. -/
private theorem fits_of_staged {staged : SortedArray} (increasing : Increasing staged) (small : oversize staged = false)
    {key val : Bytes} (written : lookup staged key = some (some val)) : key.length + val.length ≤ maxEntrySize := by
  by_contra large
  have found := (oversize_iff increasing).mpr ⟨key, some val, written, not_le.mp large⟩
  rw [small] at found
  contradiction

/-- An `INSERT` in its transaction. -/
private theorem insert_body (created : schema.Created) (filled : Filled codec schema rows kv) (row : Row)
    (state : KV) (id : ℕ) (usable : state.Usable id kv.tables.contents []) :
    Returns (execStmt codec rounds id (.insert schema.table row)) state fun out next => ∃ count staged,
      out = .affected count ∧ next.Usable id kv.tables.contents staged ∧ schema.Typed row ∧ Increasing staged ∧
        ∃ edit, Edited [] edit staged ∧ schema.Rewrites kv.tables.contents rows (schema.rowKey 0 row)
          ((rows (schema.rowKey 0 row)).or (some row)) edit := by
  have outcome : (RowCall.insert.outcome schema row (rows (schema.rowKey 0 row))).1 =
      (rows (schema.rowKey 0 row)).or (some row) := by
    cases rows (schema.rowKey 0 row) <;> simp [RowCall.outcome, UpdateMode.outcome, KV.setExUpdates]
  have shows : schema.Shows (overlay kv.tables.contents []) rows := filled.shows
  have found : exec (getSchema codec id schema.table) state = some (.ok schema, state) := by
    rw [exec_getSchema usable.reads, overlay_nil, filled.record]
  refine Returns.map (Returns.after found ?_)
  split
  · exact Returns.throw
  · next typed =>
    refine (RowCall.nested_changes created shows usable .insert row).bind ?_
    rintro updated next ⟨_, edit, staged, after, edited, rewrites⟩
    rw [outcome, overlay_nil] at rewrites
    exact Returns.pure ⟨_, staged, rfl, after, not_not.mp typed, after.increasing, edit, edited, rewrites⟩

/-- An `INSERT` keeps the row that is there. -/
theorem insert_filled (created : schema.Created) (named : isName schema.table = true)
    (filled : Filled codec schema rows kv) (row : Row) :
    Returns (DB.execStmt codec rounds options [] (.insert schema.table row)) kv fun _ next => schema.Typed row ∧
      Filled codec schema (Function.update rows (schema.rowKey 0 row)
        ((rows (schema.rowKey 0 row)).or (some row))) next := by
  refine (alone_returns filled.sorted (insert_body created filled row) options).mono ?_
  rintro _ next ⟨_, _, staged, _, committed, typed, increasing, edit, edited, rewrites⟩
  have contents : next.tables.contents = overlay kv.tables.contents edit := by
    rw [committed.contents, edited.overlay, overlay_nil]
  have primary := rewrites.shows.primary _ (schema.keyHead_isPrefix 0 row)
  refine ⟨typed, committed.sorted, committed.closed.trans filled.running, ?_, contents ▸ rewrites.shows, ?_⟩
  · have untouched : lookup edit (schemaKey schema.table) = none := by
      by_contra written
      obtain ⟨⟨i, _, other, _, _, same⟩, _⟩ := rewrites.within _ written
      exact schemaKey_apart named schema.table ⟨i, same ▸ schema.keyHead_isPrefix i other⟩
    rw [contents, overlay, untouched, Option.getD_none, filled.record]
  · rintro other ⟨pkey, stored⟩
    by_cases own : pkey = schema.rowKey 0 row
    · subst own
      rw [Function.update_self] at stored
      cases before : rows (schema.rowKey 0 row) with
      | some old =>
        rw [before] at stored
        cases stored
        exact filled.storable _ ⟨_, before⟩
      | none =>
        rw [before] at stored primary
        cases stored
        -- the entry is new, so it was staged, and what was staged fits
        have absent := filled.shows.primary _ (schema.keyHead_isPrefix 0 row)
        rw [before] at absent
        refine ⟨typed, fits_of_staged increasing committed.fits ?_⟩
        rw [edited, lookup_nil, Option.or_none]
        rw [overlay, absent] at primary
        cases written : lookup edit (schema.rowKey 0 row) with
        | none => simp [written] at primary
        | some val => simpa [written] using primary
    · rw [Function.update_of_ne own] at stored
      exact filled.storable other ⟨pkey, stored⟩

theorem insertAll_filled (created : schema.Created) (named : isName schema.table = true)
    (filled : Filled codec schema rows kv) (inserted : List Row) :
    Returns (insertAll codec rounds options schema.table inserted) kv fun _ next =>
      (∀ row ∈ inserted, schema.Typed row) ∧ Filled codec schema (insertedRows schema rows inserted) next := by
  induction inserted generalizing kv rows with
  | nil => exact Returns.pure ⟨by simp, filled⟩
  | cons row rest ih =>
    refine (insert_filled created named filled row).bind ?_
    rintro _ next ⟨typed, after⟩
    refine (ih after).mono ?_
    rintro _ final ⟨all, ended⟩
    exact ⟨List.forall_mem_cons.mpr ⟨typed, all⟩, ended⟩

end Fill

/-- After `CREATE TABLE` and any `INSERT`s that succeed, `SELECT *` returns exactly the first row inserted for each
primary key if and only if in each of them the columns that share a name have the same value. -/
theorem select_inserted_iff {create : StmtCreateTable} {schema : Schema} (accepted : create.schema = .ok schema)
    (few : schema.indices.length ≤ 128) (named : isName create.table = true) {codec : SchemaCodec}
    (lawful : codec.unmarshal (codec.marshal schema) = some schema) {kv final : KV} (sorted : kv.tables.Sorted)
    (empty : ∀ key ∈ schema.keys, kv.tables.contents key = none) {rounds : ℕ} {options : KVOptions}
    {inserted : List Row} (ran : exec (fillTable codec rounds options create inserted) kv = some (.ok (), final)) :
    ∃ rows, Answers codec final.newTX final.txs.length create.table [.star] none (-1) 0 ⟨rows, none, rows.length⟩ ∧
      (rows.Perm (firstRows schema inserted) ↔ ∀ row ∈ firstRows schema inserted, schema.SameNamed row) := by
  have created := StmtCreateTable.schema_created accepted
  have table := StmtCreateTable.schema_table accepted
  rw [← table] at named
  have whole : Returns (fillTable codec rounds options create inserted) kv fun _ next =>
      (∀ row ∈ inserted, schema.Typed row) ∧ Filled codec schema (insertedRows schema (fun _ => none) inserted)
        next := by
    refine (create_filled accepted lawful named sorted empty).bind fun _ next filled => ?_
    rw [← table]
    exact insertAll_filled created named filled inserted
  obtain ⟨typed, filled⟩ := whole () final ran
  have reads : final.newTX.Reads (final.newTX.handle final.txs.length) final.tables.contents := by
    have usable := (KV.usable_newTX filled.sorted filled.running).reads
    rwa [overlay_nil] at usable
  have bound (positive : Bool) :
      ∃ code, schema.encodeKeyPrefix fullScanReq.indexNo fullScanReq.start positive = .ok code :=
    Schema.Fitting.encodeKeyPrefix (by rfl) created.positive positive
  obtain ⟨start, startEncoded⟩ := bound false
  obtain ⟨stop, stopEncoded⟩ := bound true
  obtain ⟨iter, found, opened, _, yields, order, mem_iff⟩ :=
    range_yields created few reads (filled.shows.entries created)
      ⟨⟨_, rfl, startEncoded⟩, ⟨_, rfl, stopEncoded⟩, by decide⟩ fun row member _ => filled.storable row member
  have same : found.Perm (firstRows schema inserted) :=
    (List.perm_ext_iff_of_nodup order.nodup (firstRows_nodup inserted)).mpr fun row =>
      ((mem_iff row).trans (and_iff_left contains_fullScanReq)).trans (mem_rowsOf_inserted created typed row)
  have own (row : Row) (member : row ∈ firstRows schema inserted) : schema.Typed row :=
    typed row ((firstRows_sublist inserted).subset member)
  refine ⟨found.map (starRow schema), ?_, ?_, ?_⟩
  · have planned : range final.newTX (final.newTX.handle final.txs.length) schema (planScan schema none).req =
      .ok iter := opened
    have answer := answers_of_streams reads (table ▸ filled.record) (expand_star accepted) planned yields.streams (-1) 0
    have taken (row : Row) (member : row ∈ found) : (planScan schema none).keep schema row = .ok true ∧
        schema.project (schema.cols.map fun col => .name col.name) row = .ok (starRow schema row) :=
      ⟨rfl, project_star (own row (same.mem_iff.mp member))⟩
    rw [if_pos (by decide), serve_all taken] at answer
    rwa [List.length_map]
  · intro returned row member
    obtain ⟨other, there, rfl⟩ := List.mem_map.mp (returned.mem_iff.mpr member)
    exact sameNamed_starRow (own other (same.mem_iff.mp there))
  · intro alike
    have whole : found.map (starRow schema) = found := by
      refine (List.map_congr_left fun row member => ?_).trans (List.map_id found)
      have first := same.mem_iff.mp member
      exact (starRow_eq_iff (own row first)).mpr (alike row first)
    rw [whole]
    exact same

/-- A store that has been opened and holds nothing. -/
def newStore : KV := { KV.empty with closed := false }

/-- Of two rows with one primary key the first one stays. -/
theorem select_inserted_iff_pair :
    (exec (fillTable pairCodec 0 .eager pairTable [[.i64 1, .i64 2], [.i64 1, .i64 3]]) newStore).map Prod.fst =
      some (.ok ()) ∧
    ∀ final, exec (fillTable pairCodec 0 .eager pairTable [[.i64 1, .i64 2], [.i64 1, .i64 3]]) newStore =
      some (.ok (), final) →
        ∃ rows, Answers pairCodec final.newTX final.txs.length pairTable.table [.star] none (-1) 0
          ⟨rows, none, rows.length⟩ ∧
          (rows.Perm [[.i64 1, .i64 2]] ↔ ∀ row ∈ [[.i64 1, .i64 2]], pairSchema.SameNamed row) := by
  refine ⟨by decide +kernel, fun final ran => ?_⟩
  have sorted : ∀ run ∈ newStore.tables.runs, Increasing run := by decide
  exact @select_inserted_iff pairTable pairSchema (by decide) (by decide)
    (by decide) pairCodec (by decide +kernel) _ final sorted
    (fun _ _ => rfl) 0 .eager _ ran

/-- Two columns of one name. -/
def twinTable : StmtCreateTable := ⟨[0x74], [⟨[0x61], .i64⟩, ⟨[0x61], .i64⟩], [[0x61]], []⟩

def twinSchema : Schema := ⟨1, [0x74], [⟨[0x61], .i64⟩, ⟨[0x61], .i64⟩], [[0]]⟩

/-- The second of two columns with one name comes back with the value of the first. -/
theorem twinColumn_hidden : twinTable.schema = .ok twinSchema ∧
    ((exec (fillTable (textCodec [twinSchema]) 0 .eager twinTable [[.i64 1, .i64 2]]) newStore).bind fun filled =>
      (exec (selectRows (textCodec [twinSchema]) 3 filled.2.txs.length twinTable.table [.star] none (-1) 0)
        filled.2.newTX).map Prod.fst) = some (.ok ⟨[[.i64 1, .i64 1]], none, 1⟩) := by
  decide +kernel

end PallasDB
