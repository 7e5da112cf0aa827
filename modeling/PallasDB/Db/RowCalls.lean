import PallasDB.Db.RowEdit

/-! # What the row calls do

A row call reads and writes the entries of one primary key. On a table whose entries are those of a map it changes the
map at that key, and returns whether it did.
-/

namespace PallasDB

open Program SortedRun

theorem returns_encoded {α : Type} (result : Except DBError α) (kv : KV) :
    Returns (encoded result) kv fun a next => next = kv ∧ result = .ok a := by
  refine Returns.lift fun a mapped => ⟨rfl, ?_⟩
  cases result with
  | error err => contradiction
  | ok b =>
    cases mapped
    rfl

/-! ## Loops over the indices -/

section Loops

variable {schema : Schema} {kv : KV} {id : ℕ} {base : KVMap} {updates : SortedArray}

/-- Writes to the keys of a row in some indices have been staged. -/
def Staged (schema : Schema) (row : Row) (val : ℕ → Option Bytes) (indices : List ℕ) (id : ℕ)
    (base : KVMap) (updates : SortedArray) (next : KV) : Prop :=
  ∃ edit staged, next.Usable id base staged ∧ Edited updates edit staged ∧ schema.Touches row val indices edit

private theorem staged_nil (usable : kv.Usable id base updates) (row : Row) (val : ℕ → Option Bytes) :
    Staged schema row val [] id base updates kv :=
  ⟨[], updates, usable, .refl updates, schema.touches_nil row val⟩

private theorem Staged.cons {row : Row} {val : ℕ → Option Bytes} {indices : List ℕ} {i : ℕ} {staged : SortedArray}
    {next : KV}
    (rest : Staged schema row val indices id base staged next)
    (edited : Edited updates [⟨schema.rowKey i row, val i⟩] staged)
    (fresh : ∀ j ∈ indices, schema.rowKey i row ≠ schema.rowKey j row) :
    Staged schema row val (i :: indices) id base updates next := by
  obtain ⟨edit, final, usable, later, touches⟩ := rest
  exact ⟨_, final, usable, edited.trans later, touches.cons fresh⟩

/-- A write of one key leaves the other keys. -/
private theorem overlay_edited {staged : SortedArray} {key other : Bytes} {val : Option Bytes}
    (edited : Edited updates [⟨key, val⟩] staged) (apart : key ≠ other) :
    overlay base staged other = overlay base updates other := by
  rw [edited.overlay, overlay, lookup_cons, if_neg apart, lookup_nil, Option.getD_none]

private theorem keys_apart (created : schema.Created) {i : ℕ} {indices : List ℕ}
    (known : ∀ j ∈ i :: indices, j < schema.indices.length)
    (fresh : i ∉ indices) (row : Row) : ∀ j ∈ indices, schema.rowKey i row ≠ schema.rowKey j row := by
  obtain ⟨own, later⟩ := List.forall_mem_cons.mp known
  intro j member
  refine Schema.rowKey_ne (own.trans_le created.countable) ((later j member).trans_le created.countable) ?_
    (schema.keyHead_isPrefix i row) row
  rintro rfl
  exact fresh member

/-- Deleting the entries of a row, of which only the primary one may be missing. -/
private theorem deleteLoop_removes (created : schema.Created) (usable : kv.Usable id base updates) (row : Row)
    (indices : List ℕ) (secondary : ∀ i ∈ indices.tail, 0 < i) (known : ∀ i ∈ indices, i < schema.indices.length)
    (distinct : indices.Nodup) (flag : Bool) (started : indices = [] → flag = true) :
    Returns (deleteLoop id schema row indices flag) kv fun deleted next =>
      (deleted = true ∧
        (∀ i ∈ indices, row.encodeKey schema i = .ok (schema.rowKey i row) ∧
          (overlay base updates (schema.rowKey i row)).isSome = true) ∧
        Staged schema row (fun _ => none) indices id base updates next) ∨
      (deleted = false ∧ 0 ∈ indices ∧ (overlay base updates (schema.rowKey 0 row)).isSome = false ∧
        ∃ staged, next.Usable id base staged ∧ Edited updates [] staged) := by
  induction indices generalizing kv updates flag with
  | nil => exact Returns.pure (.inl ⟨started rfl, by simp, staged_nil usable row _⟩)
  | cons i rest ih =>
    obtain ⟨fresh, others⟩ := List.nodup_cons.mp distinct
    have apart := keys_apart created known fresh row
    refine (returns_encoded _ kv).bind ?_
    rintro key _ ⟨rfl, encoded⟩
    cases Schema.encodeKey_eq_ok encoded
    obtain ⟨next, staged, wrote, after, edited⟩ := usable.deleteKey (schema.rowKey i row)
    refine Returns.after wrote ?_
    cases live : (overlay base updates (schema.rowKey i row)).isSome with
    | false =>
      rw [live, if_neg (by simp)] at edited
      by_cases primary : i = 0
      · subst primary
        exact Returns.pure (.inr ⟨rfl, List.mem_cons_self, live, staged, after, edited⟩)
      · rw [if_neg (by simp), if_pos primary]
        exact Returns.throw
    | true =>
      rw [live, if_pos rfl] at edited
      refine (ih after (fun j member => secondary j (List.mem_of_mem_tail member))
        (fun j member => known j (List.mem_cons_of_mem _ member)) others true fun _ => rfl).mono ?_
      rintro _ final (⟨rfl, deleted, rest⟩ | ⟨-, primary, -⟩)
      · refine .inl ⟨rfl, List.forall_mem_cons.mpr ⟨⟨encoded, live⟩, fun j member => ?_⟩, rest.cons edited apart⟩
        rw [← overlay_edited edited (apart j member)]
        exact deleted j member
      · exact absurd (secondary 0 primary) (lt_irrefl 0)

/-- Writing the entries of a row. -/
private theorem setLoop_places (created : schema.Created) (usable : kv.Usable id base updates) (row : Row) (val : Bytes)
    (indices : List ℕ) (known : ∀ i ∈ indices, i < schema.indices.length) (distinct : indices.Nodup) :
    Returns (setLoop id schema row val indices true) kv fun updated next => updated = true ∧
      (∀ i ∈ indices, row.encodeKey schema i = .ok (schema.rowKey i row)) ∧
      Staged schema row (fun i => some (if i = 0 then val else [])) indices id base updates next := by
  induction indices generalizing kv updates with
  | nil => exact Returns.pure ⟨rfl, by simp, staged_nil usable row _⟩
  | cons i rest ih =>
    obtain ⟨fresh, others⟩ := List.nodup_cons.mp distinct
    have apart := keys_apart created known fresh row
    refine (returns_encoded _ kv).bind ?_
    rintro key _ ⟨rfl, encoded⟩
    cases Schema.encodeKey_eq_ok encoded
    obtain ⟨next, staged, wrote, after, edited⟩ := usable.insertKey (schema.rowKey i row) (if i = 0 then val else [])
    refine Returns.after wrote ?_
    cases free : (overlay base updates (schema.rowKey i row)).isNone with
    | false =>
      exact Returns.throw
    | true =>
      rw [free, if_pos rfl] at edited
      refine (ih after (fun j member => known j (List.mem_cons_of_mem _ member)) others).mono ?_
      rintro _ final ⟨rfl, keys, rest⟩
      exact ⟨rfl, List.forall_mem_cons.mpr ⟨encoded, keys⟩, rest.cons edited apart⟩

end Loops

/-! ## Changes of one row -/

variable {row : Row}

namespace Schema

variable {schema : Schema}

/-- The keys of the rows with a given primary key. -/
def KeyOf (schema : Schema) (pkey key : Bytes) : Prop :=
  ∃ i < schema.indices.length, ∃ row, schema.Keyed row ∧ schema.rowKey 0 row = pkey ∧ key = schema.rowKey i row

/-- An edit changes the row of one primary key. It writes that key if it writes anything, and deletes only what is
there. -/
structure Rewrites (schema : Schema) (view : KVMap) (rows : Bytes → Option Row) (pkey : Bytes)
    (new : Option Row) (edit : KVRun) : Prop where
  shows : schema.Shows (overlay view edit) (Function.update rows pkey new)
  erases : Erases view edit
  within : ∀ key, lookup edit key ≠ none → schema.KeyOf pkey key ∧ lookup edit pkey ≠ none

variable {view : KVMap} {rows : Bytes → Option Row}

theorem Shows.unchanged (shows : schema.Shows view rows) (pkey : Bytes) :
    schema.Rewrites view rows pkey (rows pkey) [] := by
  refine ⟨?_, ?_, ?_⟩
  · rw [Function.update_eq_self]
    exact shows
  · intro key deleted
    contradiction
  · intro key written
    exact absurd rfl written

private theorem Touches.within {val : ℕ → Option Bytes} {edit : KVRun} (created : schema.Created)
    (touches : schema.Touches row val (List.range schema.indices.length) edit) (keyed : schema.Keyed row) (key : Bytes)
    (written : lookup edit key ≠ none) :
    schema.KeyOf (schema.rowKey 0 row) key ∧ lookup edit (schema.rowKey 0 row) ≠ none := by
  refine ⟨?_, by rw [touches.keys 0 (List.mem_range.mpr created.positive)]; exact Option.some_ne_none _⟩
  by_contra apart
  refine written (touches.rest key fun i member same => apart ?_)
  exact ⟨i, List.mem_range.mp member, row, keyed, rfl, same⟩

theorem Shows.removes (shows : schema.Shows view rows) (created : schema.Created) (keyed : schema.Keyed row)
    (live : ∀ i < schema.indices.length, (view (schema.rowKey i row)).isSome = true) {edit : KVRun}
    (removes : schema.Removes row edit) :
    (rows (schema.rowKey 0 row)).isSome = true ∧ schema.Rewrites view rows (schema.rowKey 0 row) none edit := by
  obtain ⟨old, stored, same⟩ := shows.stored created keyed (live 0 created.positive)
  refine ⟨by rw [stored]; rfl, shows.remove created stored (fun i known => same i known (live i known)) removes, ?_,
    removes.within created keyed⟩
  intro key deleted
  by_contra gone
  rw [removes.rest key fun i member hit => gone (hit ▸ live i (List.mem_range.mp member))] at deleted
  contradiction

/-- A row replaced by one with the same primary key. -/
theorem Rewrites.place {first second : KVRun} (created : schema.Created)
    (cleared : schema.Rewrites view rows (schema.rowKey 0 row) none first) (typed : schema.Typed row)
    (places : schema.Places row second) :
    schema.Rewrites view rows (schema.rowKey 0 row) (some row) (second ++ first) := by
  have keyed := typed.keyed created.toValid
  have primary : lookup (second ++ first) (schema.rowKey 0 row) ≠ none := by
    rw [lookup_append, places.keys 0 (List.mem_range.mpr created.positive)]
    exact Option.some_ne_none _
  refine ⟨?_, ?_, ?_⟩
  · have placed := cleared.shows.place created typed (Function.update_self ..) places
    rwa [Function.update_idem, ← overlay_append] at placed
  · intro key deleted
    have alive : lookup second key ≠ some none := by
      intro tombstone
      obtain ⟨i, member, rfl⟩ : ∃ i ∈ List.range schema.indices.length, key = schema.rowKey i row := by
        by_contra apart
        rw [places.rest key fun i member same => apart ⟨i, member, same⟩] at tombstone
        contradiction
      rw [places.keys i member, entryVal] at tombstone
      simp at tombstone
    rw [lookup_append, Option.or_eq_some_iff] at deleted
    rcases deleted with tombstone | ⟨_, before⟩
    · contradiction
    · exact cleared.erases key before
  · intro key written
    refine ⟨?_, primary⟩
    rw [lookup_append] at written
    cases later : lookup second key with
    | none => exact (cleared.within key (by rwa [later, Option.none_or] at written)).1
    | some val => exact (places.within created keyed key (by rw [later]; exact Option.some_ne_none _)).1

private theorem type_of_checkedCells {index : List ℕ} {cells : List Cell}
    (checked : schema.checkedCells row index = .ok cells) {idx : ℕ} (member : idx ∈ index) :
    (row.getD idx (.i64 0)).type = (schema.cols.getD idx ⟨[], .i64⟩).type := by
  obtain ⟨rfl, types⟩ := checkedCells_types checked
  rw [Row.pick, List.map_map] at types
  exact List.map_inj_left.mp types idx member

private theorem mem_pkey_or_valueCols {idx : ℕ} (known : idx < schema.cols.length) :
    idx ∈ schema.pkey ∨ idx ∈ schema.valueCols := by
  by_cases member : idx ∈ schema.pkey
  · exact .inl member
  · exact .inr (List.mem_filter.mpr ⟨List.mem_range.mpr known, by simpa using member⟩)

/-- A row whose primary key and value can be encoded has the types of the table. -/
theorem typed_of_encode (created : schema.Created) {key val : Bytes} (keyed : row.encodeKey schema 0 = .ok key)
    (valued : row.encodeVal schema = .ok val) : schema.Typed row := by
  have size : row.length = schema.cols.length := by
    by_contra other
    rw [Row.encodeKey, if_pos other] at keyed
    contradiction
  have primary {idx : ℕ} (member : idx ∈ schema.pkey) :
      (row.getD idx (.i64 0)).type = (schema.cols.getD idx ⟨[], .i64⟩).type := by
    cases checked : schema.checkedCells row schema.pkey with
    | ok cells => exact type_of_checkedCells checked member
    | error err =>
      simp only [Row.encodeKey, size, ne_eq, not_true_eq_false, if_false, created.primary_eq, checked] at keyed
      contradiction
  have value {idx : ℕ} (member : idx ∈ schema.valueCols) :
      (row.getD idx (.i64 0)).type = (schema.cols.getD idx ⟨[], .i64⟩).type := by
    cases checked : schema.checkedCells row schema.valueCols with
    | ok cells => exact type_of_checkedCells checked member
    | error err =>
      simp only [Row.encodeVal, size, ne_eq, not_true_eq_false, created.keyed, or_self, if_false, checked] at valued
      contradiction
  refine List.ext_getElem (by rw [List.length_map, List.length_map, size]) fun idx left right => ?_
  rw [List.length_map] at left right
  have types := (mem_pkey_or_valueCols right).elim primary value
  rw [List.getD_eq_getElem?_getD, List.getD_eq_getElem?_getD, List.getElem?_eq_getElem left,
    List.getElem?_eq_getElem right] at types
  rw [List.getElem_map, List.getElem_map]
  exact types

/-- The primary key comes from the cells of its columns. -/
theorem rowKey_congr {other : Row} (same : ∀ idx ∈ schema.pkey, row[idx]? = other[idx]?) :
    schema.rowKey 0 row = schema.rowKey 0 other := by
  have cells : row.pick schema.pkey = other.pick schema.pkey := by
    refine List.map_congr_left fun idx member => ?_
    rw [List.getD_eq_getElem?_getD, List.getD_eq_getElem?_getD, same idx member]
  have first : schema.indices.getD 0 [] = schema.pkey := by
    cases listed : schema.indices <;> simp [pkey, listed]
  rw [rowKey, rowKey, first, cells]

/-- A decoded value gives a row with the primary key it was decoded for. -/
theorem rowKey_of_decodeVal {into : Row} {val : Bytes} (accepted : into.decodeVal schema val = .ok row) :
    schema.rowKey 0 row = schema.rowKey 0 into := by
  rw [Row.decodeVal] at accepted
  split at accepted
  · contradiction
  · next ready =>
    rw [not_or, not_not] at ready
    split at accepted
    · contradiction
    · next decoded rest found =>
      split at accepted
      · cases accepted
        have distinct : schema.valueCols.Nodup := List.nodup_range.filter _
        obtain ⟨_, kept, _⟩ := decodeCells_sound decodeValCell_sound distinct ready.1 found
        refine rowKey_congr fun idx member => kept idx fun value => ?_
        simp [valueCols, member] at value
      · contradiction

end Schema

/-! ## Row calls -/

/-- What writing a row makes of the row with its primary key, and whether it does. -/
def UpdateMode.outcome (mode : UpdateMode) (schema : Schema) (row : Row) (old : Option Row) : Option Row × Bool :=
  if KV.setExUpdates (old.map schema.rowVal) (schema.rowVal row) mode = some true then (some row, true)
    else (old, false)

/-- What a call makes of the row with its primary key, and what it returns. -/
def RowCall.outcome (call : RowCall) (schema : Schema) (row : Row) (old : Option Row) : Option Row × Bool :=
  match call with
  | insert => UpdateMode.insert.outcome schema row old
  | upsert => UpdateMode.upsert.outcome schema row old
  | update => UpdateMode.update.outcome schema row old
  | delete => (none, old.isSome)

/-- A program in a transaction has changed the row of one primary key. -/
def Changed (schema : Schema) (id : ℕ) (base : KVMap) (updates : SortedArray) (rows : Bytes → Option Row)
    (pkey : Bytes) (new : Option Row) (next : KV) : Prop :=
  ∃ edit staged, next.Usable id base staged ∧ Edited updates edit staged ∧
    schema.Rewrites (overlay base updates) rows pkey new edit

section Calls

variable {schema : Schema} {kv : KV} {id : ℕ} {base : KVMap} {updates : SortedArray}
  {rows : Bytes → Option Row}

variable (created : schema.Created) (shows : schema.Shows (overlay base updates) rows)

include created shows

theorem rowDelete_changes (usable : kv.Usable id base updates) (row : Row) :
    Returns (rowDelete id schema row) kv fun deleted next => deleted = (rows (schema.rowKey 0 row)).isSome ∧
      Changed schema id base updates rows (schema.rowKey 0 row) none next := by
  have secondary : ∀ i ∈ (List.range schema.indices.length).tail, 0 < i := by
    intro i member
    rw [List.range_eq_range', List.tail_range'] at member
    exact (List.mem_range'_1.mp member).1
  refine (deleteLoop_removes created usable row _ secondary (fun i => List.mem_range.mp) List.nodup_range false
    fun none => absurd (List.range_eq_nil.mp none) created.positive.ne').mono ?_
  rintro _ final (⟨rfl, each, edit, staged, after, edited, removes⟩ | ⟨rfl, -, live, staged, after, edited⟩)
  · obtain ⟨stored, rewrites⟩ := shows.removes created (fun i inside => (each i (List.mem_range.mpr inside)).1)
      (fun i inside => (each i (List.mem_range.mpr inside)).2) removes
    exact ⟨stored.symm, edit, staged, after, edited, rewrites⟩
  · rw [shows.primary _ (schema.keyHead_isPrefix 0 row), Option.isSome_map] at live
    have free : rows (schema.rowKey 0 row) = none := by simpa using live
    have same := shows.unchanged (schema.rowKey 0 row)
    rw [free] at same
    exact ⟨live.symm, [], staged, after, edited, same⟩

theorem rowUpdate_changes (usable : kv.Usable id base updates) (row : Row) (mode : UpdateMode) :
    Returns (rowUpdate id schema row mode) kv fun updated next =>
      updated = (mode.outcome schema row (rows (schema.rowKey 0 row))).2 ∧
      Changed schema id base updates rows (schema.rowKey 0 row)
        (mode.outcome schema row (rows (schema.rowKey 0 row))).1 next := by
  refine (returns_encoded _ kv).bind ?_
  rintro key _ ⟨rfl, encoded⟩
  cases Schema.encodeKey_eq_ok encoded
  refine (returns_encoded _ _).bind ?_
  rintro val _ ⟨rfl, valued⟩
  have typed := Schema.typed_of_encode created encoded valued
  cases (typed.encodeVal created.toValid).symm.trans valued
  -- both ways to the loop that writes the entries clear the primary key first
  have placed {state : KV} {first : KVRun} {middle : SortedArray} (within : state.Usable id base middle)
      (edited : Edited updates first middle)
      (cleared : schema.Rewrites (overlay base updates) rows (schema.rowKey 0 row) none first) :
      Returns (setLoop id schema row (schema.rowVal row)
        (List.range schema.indices.length) true) state fun updated next =>
        updated = true ∧ Changed schema id base updates rows (schema.rowKey 0 row) (some row) next := by
    refine (setLoop_places created within row _ _ (fun i => List.mem_range.mp) List.nodup_range).mono ?_
    rintro _ final ⟨rfl, _, edit, staged, after, later, places⟩
    exact ⟨rfl, edit ++ first, staged, after, edited.trans later, cleared.place created typed places⟩
  refine Returns.after (usable.getKey (schema.rowKey 0 row)) ?_
  rw [shows.primary _ (schema.keyHead_isPrefix 0 row)]
  have same := shows.unchanged (schema.rowKey 0 row)
  cases decision : KV.setExUpdates ((rows (schema.rowKey 0 row)).map schema.rowVal) (schema.rowVal row) mode with
  | none => exact Returns.throw
  | some changes =>
    cases changes with
    | false =>
      rw [UpdateMode.outcome, decision, if_neg (by simp)]
      exact Returns.pure ⟨rfl, [], updates, usable, .refl updates, same⟩
    | true =>
      rw [UpdateMode.outcome, decision, if_pos rfl]
      cases stored : rows (schema.rowKey 0 row) with
      | none =>
        rw [stored] at same
        exact placed usable (.refl updates) same
      | some old =>
        refine (returns_encoded _ _).bind ?_
        rintro oldRow _ ⟨rfl, decoded⟩
        refine (rowDelete_changes created shows usable oldRow).bind ?_
        rintro deleted state ⟨_, edit, middle, within, edited, rewrites⟩
        rw [Schema.rowKey_of_decodeVal decoded] at rewrites
        exact placed within edited rewrites

theorem RowCall.body_changes (usable : kv.Usable id base updates) (call : RowCall) (row : Row) :
    Returns (call.body id schema row) kv fun updated next =>
      updated = (call.outcome schema row (rows (schema.rowKey 0 row))).2 ∧
      Changed schema id base updates rows (schema.rowKey 0 row)
        (call.outcome schema row (rows (schema.rowKey 0 row))).1 next := by
  cases call with
  | insert => exact rowUpdate_changes created shows usable row .insert
  | upsert => exact rowUpdate_changes created shows usable row .upsert
  | update => exact rowUpdate_changes created shows usable row .update
  | delete => exact rowDelete_changes created shows usable row

/-- A call inside a transaction changes one row, as far as its inner transaction is committed. -/
theorem RowCall.nested_changes (usable : kv.Usable id base updates) (call : RowCall) (row : Row) :
    Returns (call.nested id schema row) kv fun updated next =>
      updated = (call.outcome schema row (rows (schema.rowKey 0 row))).2 ∧
      Changed schema id base updates rows (schema.rowKey 0 row)
        (call.outcome schema row (rows (schema.rowKey 0 row))).1 next := by
  have start : schema.Shows (overlay (overlay base updates) []) rows := shows
  let post (updated : Bool) (edit : KVRun) : Prop :=
    updated = (call.outcome schema row (rows (schema.rowKey 0 row))).2 ∧
      schema.Rewrites (overlay base updates) rows (schema.rowKey 0 row)
        (call.outcome schema row (rows (schema.rowKey 0 row))).1 edit
  refine (@KV.Usable.inner _ _ _ _ _ usable _ (fun inner =>
    call.body_stays inner schema row) post fun state inner within =>
    (RowCall.body_changes created start within call row).mono ?_).mono ?_
  · rintro updated next ⟨same, edit, staged, after, edited, rewrites⟩
    exact ⟨edit, staged, after, edited, rewrites.erases, same, rewrites⟩
  · rintro updated next ⟨edit, staged, after, edited, _, same, rewrites⟩
    exact ⟨same, edit, staged, after, edited, rewrites⟩

end Calls

end PallasDB
