import PallasDB.Db.RowCalls

/-! # Statements that change rows in batches

`forEachMatch` collects the matching rows of the planned range and calls a function on each. When they fill a batch it
starts again and walks the primary key, one batch after the other, and resumes behind the last row of each. The function
never changes a primary key, so the rows behind the last one are still those of the table before the statement.
-/

namespace PallasDB

open Program SortedRun

/-! ## Changes of several rows -/

namespace Schema

variable {schema : Schema} {view : KVMap} {rows : Bytes → Option Row}

/-- An edit changes the rows of some primary keys, as `Rewrites` does for one. -/
structure Mutates (schema : Schema) (view : KVMap) (rows : Bytes → Option Row) (touched : Set Bytes)
    (after : Bytes → Option Row) (edit : KVRun) : Prop where
  shows : schema.Shows (overlay view edit) after
  others : ∀ pkey, pkey ∉ touched → after pkey = rows pkey
  erases : Erases view edit
  within : ∀ key, lookup edit key ≠ none → ∃ pkey ∈ touched, schema.KeyOf pkey key ∧ lookup edit pkey ≠ none

theorem KeyOf.unique (created : schema.Created) {first second key : Bytes} (left : schema.KeyOf first key)
    (right : schema.KeyOf second key) : first = second := by
  obtain ⟨i, known, row, keyed, rfl, rfl⟩ := left
  obtain ⟨j, inside, other, otherKeyed, rfl, same⟩ := right
  have head : schema.keyHead j <+: schema.rowKey i row := same ▸ schema.keyHead_isPrefix j other
  obtain rfl := keyHead_inj (known.trans_le created.countable) (inside.trans_le created.countable)
    (schema.keyHead_isPrefix i row) head
  exact keyed.primary_eq otherKeyed created known same

theorem Shows.mutates (shows : schema.Shows view rows) : schema.Mutates view rows ∅ rows [] := by
  refine ⟨shows, fun _ _ => rfl, fun key deleted => ?_, fun key written => absurd rfl written⟩
  contradiction

theorem Rewrites.mutates {pkey : Bytes} {new : Option Row} {edit : KVRun}
    (rewrites : schema.Rewrites view rows pkey new edit) :
    schema.Mutates view rows {pkey} (Function.update rows pkey new) edit := by
  refine ⟨rewrites.shows, fun other apart => Function.update_of_ne apart .., rewrites.erases, fun key written => ?_⟩
  exact ⟨pkey, rfl, rewrites.within key written⟩

/-- Changes of different rows one after the other. -/
theorem Mutates.trans (created : schema.Created) {touched later : Set Bytes} {middle after : Bytes → Option Row}
    {first second : KVRun} (before : schema.Mutates view rows touched middle first)
    (next : schema.Mutates (overlay view first) middle later after second) (apart : ∀ pkey ∈ touched, pkey ∉ later) :
    schema.Mutates view rows (touched ∪ later) after (second ++ first) := by
  refine ⟨?_, fun pkey outside => ?_, fun key deleted => ?_, fun key written => ?_⟩
  · rw [overlay_append]
    exact next.shows
  · rw [Set.mem_union, not_or] at outside
    rw [next.others pkey outside.2, before.others pkey outside.1]
  · rw [lookup_append, Option.or_eq_some_iff] at deleted
    rcases deleted with tombstone | ⟨_, earlier⟩
    · -- a key of a row of the second change is not one of the first
      have untouched : lookup first key = none := by
        by_contra written
        obtain ⟨p, inFirst, own, _⟩ := before.within key written
        obtain ⟨q, inSecond, other, _⟩ := next.within key (by rw [tombstone]; exact Option.some_ne_none _)
        cases own.unique created other
        exact apart _ inFirst inSecond
      have present := next.erases key tombstone
      rwa [overlay, untouched, Option.getD_none] at present
    · exact before.erases key earlier
  · rw [lookup_append] at written
    cases own : lookup second key with
    | some val =>
      obtain ⟨pkey, member, keyOf, primary⟩ := next.within key (by rw [own]; exact Option.some_ne_none _)
      refine ⟨pkey, .inr member, keyOf, ?_⟩
      rw [lookup_append]
      exact fun gone => primary (Option.or_eq_none_iff.mp gone).1
    | none =>
      obtain ⟨pkey, member, keyOf, primary⟩ := before.within key (by rwa [own, Option.none_or] at written)
      refine ⟨pkey, .inl member, keyOf, ?_⟩
      rw [lookup_append]
      exact fun gone => primary (Option.or_eq_none_iff.mp gone).2

end Schema

/-! ## Batches -/

section Batches

/-- A function changes each stored row to its result and returns whether that is another row. -/
def Performs (schema : Schema) (id : ℕ) (base : KVMap) (result : Row → Except StmtError (Option Row))
    (fn : Row → DBM Bool) : Prop :=
  ∀ kv updates rows row, kv.Usable id base updates → schema.Shows (overlay base updates) rows →
    rows (schema.rowKey 0 row) = some row → schema.Storable row →
    Returns (fn row) kv fun changed next => ∃ new, result row = .ok new ∧ changed = decide (new ≠ some row) ∧
      Changed schema id base updates rows (schema.rowKey 0 row) new next

/-- A result that differs from the row. -/
def changes (result : Row → Except StmtError (Option Row)) (row : Row) : Bool :=
  match result row with
  | .ok new => decide (new ≠ some row)
  | .error _ => false

/-- A program in a transaction has replaced some rows by their results. -/
def Applied (schema : Schema) (id : ℕ) (base : KVMap) (updates : SortedArray) (rows : Bytes → Option Row)
    (result : Row → Except StmtError (Option Row)) (matched : List Row) (count : ℕ) (next : KV) : Prop :=
  ∃ edit staged after, next.Usable id base staged ∧ Edited updates edit staged ∧
    schema.Mutates (overlay base updates) rows { pkey | ∃ row ∈ matched, schema.rowKey 0 row = pkey } after edit ∧
    (∀ row ∈ matched, result row = .ok (after (schema.rowKey 0 row))) ∧ count = matched.countP (changes result)

variable {schema : Schema} {kv : KV} {id : ℕ} {base : KVMap} {updates : SortedArray}
  {rows : Bytes → Option Row} {result : Row → Except StmtError (Option Row)} {fn : Row → DBM Bool}

theorem KV.Usable.applied_nil (usable : kv.Usable id base updates) (shows : schema.Shows (overlay base updates) rows) :
    Applied schema id base updates rows result [] 0 kv := by
  refine ⟨[], updates, rows, usable, .refl updates, ?_, by simp, rfl⟩
  simpa using shows.mutates

/-- Rows replaced in two turns. -/
theorem Applied.append (created : schema.Created) {matched later : List Row} {count more : ℕ} {next : KV}
    {edit : KVRun} {staged : SortedArray} {after : Bytes → Option Row} (edited : Edited updates edit staged)
    (mutates : schema.Mutates (overlay base updates) rows
      { pkey | ∃ row ∈ matched, schema.rowKey 0 row = pkey } after edit)
    (results : ∀ row ∈ matched, result row = .ok (after (schema.rowKey 0 row)))
    (counted : count = matched.countP (changes result))
    (rest : Applied schema id base staged after result later more next)
    (apart : ∀ row ∈ matched, ∀ other ∈ later, schema.rowKey 0 row ≠ schema.rowKey 0 other) :
    Applied schema id base updates rows result (matched ++ later) (count + more) next := by
  obtain ⟨second, final, last, usable, edited', mutates', results', counted'⟩ := rest
  rw [edited.overlay] at mutates'
  have separate (row : Row) (member : row ∈ matched) :
      schema.rowKey 0 row ∉ { pkey | ∃ other ∈ later, schema.rowKey 0 other = pkey } := by
    rintro ⟨other, inLater, same⟩
    exact apart row member other inLater same.symm
  refine ⟨second ++ edit, final, last, usable, edited.trans edited', ?_, ?_, ?_⟩
  · have union : { pkey | ∃ row ∈ matched ++ later, schema.rowKey 0 row = pkey } =
        { pkey | ∃ row ∈ matched, schema.rowKey 0 row = pkey } ∪
          { pkey | ∃ row ∈ later, schema.rowKey 0 row = pkey } := by
      ext pkey
      simp [or_and_right, exists_or]
    rw [union]
    refine mutates.trans created mutates' ?_
    rintro _ ⟨row, member, rfl⟩
    exact separate row member
  · intro row member
    rcases List.mem_append.mp member with first | second
    · rw [results row first, mutates'.others _ (separate row first)]
    · exact results' row second
  · rw [List.countP_append, counted, counted']

/-- The rows of a batch are stored and differ. -/
structure Batch (schema : Schema) (rows : Bytes → Option Row) (batch : List Row) : Prop where
  distinct : batch.Nodup
  stored : ∀ row ∈ batch, rows (schema.rowKey 0 row) = some row
  storable : ∀ row ∈ batch, schema.Storable row

theorem Batch.apart {batch : List Row} {row : Row} (whole : Batch schema rows (row :: batch)) :
    ∀ other ∈ batch, schema.rowKey 0 row ≠ schema.rowKey 0 other := by
  intro other member same
  have own := whole.stored row List.mem_cons_self
  rw [same, whole.stored other (List.mem_cons_of_mem _ member)] at own
  cases own
  exact (List.nodup_cons.mp whole.distinct).1 member

theorem runBatch_applied (created : schema.Created) (performs : Performs schema id base result fn)
    (usable : kv.Usable id base updates) (shows : schema.Shows (overlay base updates) rows) {batch : List Row}
    (whole : Batch schema rows batch) :
    Returns (runBatch fn batch) kv fun count next => Applied schema id base updates rows result batch count next := by
  induction batch generalizing kv updates rows with
  | nil => exact Returns.pure (usable.applied_nil shows)
  | cons row rest ih =>
    have apart := whole.apart
    refine (performs kv updates rows row usable shows (whole.stored row List.mem_cons_self)
      (whole.storable row List.mem_cons_self)).bind ?_
    rintro changed state ⟨new, done, rfl, edit, staged, after, edited, rewrites⟩
    have remaining : Batch schema (Function.update rows (schema.rowKey 0 row) new) rest := by
      refine ⟨(List.nodup_cons.mp whole.distinct).2, fun other member => ?_,
        fun other member => whole.storable other (List.mem_cons_of_mem _ member)⟩
      rw [Function.update_of_ne (apart other member).symm]
      exact whole.stored other (List.mem_cons_of_mem _ member)
    refine (ih after (by rw [edited.overlay]; exact rewrites.shows) remaining).bind ?_
    intro count next applied
    refine Returns.pure ?_
    have one : { pkey | ∃ other ∈ [row], schema.rowKey 0 other = pkey } = {schema.rowKey 0 row} := by
      simp [eq_comm]
    refine Applied.append created edited (one ▸ rewrites.mutates) ?_ ?_ applied ?_
    · intro other member
      rw [List.mem_singleton.mp member, done, Function.update_self]
    · rw [List.countP_singleton, changes, done]
    · intro other member
      rw [List.mem_singleton.mp member]
      exact apart

end Batches

/-! ## Collecting a batch -/

section Collect

variable {kv : KV} {tx : KVTX}

/-- The loop takes rows from the front of what its iterator yields, all of them or up to the last row of a full batch.
-/
private theorem collectLoop_yields (residual : Option Expr) {found : List Row} {iter : RowIterator}
    (yields : Yields kv tx iter found) (rounds : ℕ) (batch : List Row) {out : List Row} {done : Bool}
    (ran : collectLoop kv tx residual rounds iter batch = some (.ok (out, done))) :
    ∃ front back kept, found = front ++ back ∧ out = batch ++ kept ∧ keepRows iter.schema residual front = .ok kept ∧
      (done = true → back = []) ∧
      (done = false → ∃ last, out.getLast? = some last ∧ front.getLast? = some last) := by
  induction found generalizing iter rounds batch with
  | nil =>
    have off : iter.valid = false := yields.valid
    have ended : collectLoop kv tx residual rounds iter batch = some (.ok (batch, true)) := by
      cases rounds <;> simp [collectLoop, off]
    cases ended.symm.trans ran
    exact ⟨[], [], [], rfl, (List.append_nil _).symm, rfl, fun _ => rfl, by simp⟩
  | cons first rest ih =>
    have on : iter.valid = true := yields.valid
    have row := yields.front first rest rfl
    cases rounds with
    | zero =>
      rw [collectLoop, if_pos on] at ran
      contradiction
    | succ rounds =>
      obtain ⟨following, step, same, tail⟩ := yields.next
      rw [collectLoop, if_neg (by simp [on]), row] at ran
      split at ran
      · simp at ran
      · next keep matched =>
        have onward {grown : List Row} (grows : grown = batch ++ if keep then [first] else [])
            (goes : collectLoop kv tx residual rounds following grown = some (.ok (out, done))) :
            ∃ front back kept, first :: rest = front ++ back ∧ out = batch ++ kept ∧
              keepRows iter.schema residual front = .ok kept ∧ (done = true → back = []) ∧
              (done = false → ∃ last, out.getLast? = some last ∧ front.getLast? = some last) := by
          obtain ⟨front, back, kept, rfl, rfl, result, ended, cut⟩ := ih tail rounds grown goes
          rw [same] at result
          refine ⟨first :: front, back, if keep then first :: kept else kept, rfl, ?_, ?_, ended, fun stopped => ?_⟩
          · rw [grows]
            cases keep <;> simp
          · rw [keepRows, matched]
            simp only [result, Except.map]
          · obtain ⟨last, own, found⟩ := cut stopped
            exact ⟨last, own, by rw [List.getLast?_cons, found, Option.getD_some]⟩
        cases keep with
        | false =>
          simp only [Bool.false_and, Bool.false_eq_true, if_false, step] at ran
          exact onward (List.append_nil batch).symm ran
        | true =>
          simp only [Bool.true_and, if_true, step] at ran
          split at ran
          · cases ran
            refine ⟨[first], rest, [first], rfl, rfl, ?_, by simp, fun _ => ⟨first, by simp, rfl⟩⟩
            rw [keepRows, matched]
            rfl
          · exact onward rfl ran

end Collect

variable {front back : List Row}

section Mutations

variable {schema : Schema} {kv : KV} {id : ℕ} {base : KVMap} {updates : SortedArray}
  {rows : Bytes → Option Row} {result : Row → Except StmtError (Option Row)} {fn : Row → DBM Bool}

theorem Schema.Shows.mem_rowsOf {view : KVMap} (shows : schema.Shows view rows) {row : Row} :
    row ∈ Schema.rowsOf rows ↔ rows (schema.rowKey 0 row) = some row := by
  constructor
  · rintro ⟨pkey, stored⟩
    obtain ⟨_, rfl⟩ := shows.own pkey row stored
    exact stored
  · exact fun stored => ⟨_, stored⟩

/-- A batch holds the matching rows at the front of a range. -/
structure Collected (schema : Schema) (rows : Set Row) (req : RangeReq) (residual : Option Expr)
    (front back batch : List Row) (done : Bool) : Prop where
  ordered : req.InOrder schema (front ++ back)
  found : ∀ row, row ∈ front ++ back ↔ row ∈ rows ∧ req.Contains schema row
  kept : batch.Sublist front
  satisfied : ∀ row ∈ front, row ∈ batch ↔ Satisfies schema row residual
  whole : done = true → back = []
  cut : done = false → ∃ last, batch.getLast? = some last ∧ front.getLast? = some last

theorem collectBatch_collects (created : schema.Created) (few : schema.indices.length ≤ 128)
    (usable : kv.Usable id base updates) (shows : schema.Shows (overlay base updates) rows) (plan : ScanPlan)
    (resume : Option (List Cell))
    (storable : ∀ row ∈ Schema.rowsOf rows, (plan.req.resume resume).Contains schema row → schema.Storable row)
    (rounds : ℕ) : Returns (collectBatch id schema plan resume rounds) kv fun out next => next = kv ∧
      ∃ front back, Collected schema (Schema.rowsOf rows)
      (plan.req.resume resume) plan.residual front back out.1 out.2 := by
  rintro ⟨batch, done⟩ next ran
  change (collectBatch id schema plan resume rounds).run kv = _ at ran
  rw [collectBatch, ExceptT.run_mk] at ran
  split at ran
  · simp at ran
  · next iter opened =>
    obtain ⟨looped, collected, same⟩ := Option.map_eq_some_iff.mp ran
    obtain ⟨outcome, rfl⟩ := Prod.mk.inj same
    refine ⟨rfl, ?_⟩
    obtain ⟨_, _, spans⟩ := range_ok opened
    obtain ⟨iter', found, opened', schema', yields, order, mem_iff⟩ := range_yields created few usable.reads
      (shows.entries created) spans storable
    cases opened.symm.trans opened'
    cases looped with
    | error err => contradiction
    | ok out =>
      cases outcome
      obtain ⟨front, back, kept, rfl, rfl, result, ended, cut⟩ :=
        collectLoop_yields plan.residual yields rounds [] collected
      rw [schema'] at result
      obtain ⟨sublist, defined, kept_iff⟩ := keepRows_ok result
      refine ⟨front, back, order, mem_iff, sublist, fun row member => ?_, ended, cut⟩
      obtain ⟨truth, matched⟩ := defined row member
      rw [kept_iff, matchRow_satisfies matched, matched, Except.ok.injEq]
      exact and_iff_right member

/-- The rows behind a row in the order of the primary key. -/
def Later (schema : Schema) (last : Option Row) (row : Row) : Prop :=
  ∀ other, last = some other → schema.rowKey 0 other < schema.rowKey 0 row

theorem contains_resume (created : schema.Created) {last : Option Row}
    (lastTyped : ∀ other, last = some other → schema.Typed other) {row : Row} (typed : schema.Typed row) :
    (fullScanReq.resume (last.map (·.pick schema.pkey))).Contains schema row ↔ Later schema last row := by
  cases last with
  | none => exact iff_of_true contains_fullScanReq (by simp [Later])
  | some other =>
    have own : indexCells schema 0 row = row.pick schema.pkey := by
      rw [indexCells, List.getD_eq_getElem?_getD, created.primary_eq, Option.getD_some]
    have compared := (Schema.encodeKey_order created.primary_eq (typed.keyed created.toValid 0 created.positive)
      ((lastTyped other rfl).keyed created.toValid 0 created.positive)).1
    have whole : (row.pick schema.pkey).take (other.pick schema.pkey).length = row.pick schema.pkey := by
      simp [Row.pick]
    have stop : Bounded .le (indexCells schema 0 row) [] := (@contains_fullScanReq schema row).2
    refine (and_iff_left stop).trans ?_
    change Bounded .gt (indexCells schema 0 row) (other.pick schema.pkey) ↔ _
    rw [own, Bounded, whole, compared]
    constructor
    · rintro ⟨order, same, above⟩ behind hit
      cases same
      cases hit
      exact (cmp_eq_gt_iff _ _).mp (Ordering.isGT_iff_eq_gt.mp above)
    · intro later
      exact ⟨_, rfl, Ordering.isGT_iff_eq_gt.mpr ((cmp_eq_gt_iff _ _).mpr (later other rfl))⟩

/-- The last row of the front parts the rows of an ordered list. -/
private theorem cut_ordered {tail : Row}
    (ordered : (front ++ back).Pairwise fun a b => schema.rowKey 0 a < schema.rowKey 0 b)
    (last : front.getLast? = some tail) :
    (∀ row ∈ front, schema.rowKey 0 row ≤ schema.rowKey 0 tail) ∧
    ∀ row ∈ back, schema.rowKey 0 tail < schema.rowKey 0 row := by
  obtain ⟨init, rfl⟩ := List.getLast?_eq_some_iff.mp last
  obtain ⟨inFront, _, across⟩ := List.pairwise_append.mp ordered
  refine ⟨fun row member => ?_, fun row => across tail (by simp) row⟩
  rcases List.mem_append.mp member with before | own
  · exact ((List.pairwise_append.mp inFront).2.2 row before tail (by simp)).le
  · rw [List.mem_singleton.mp own]

theorem Collected.mem_whole {rows : Set Row} {req : RangeReq} {residual : Option Expr} {batch : List Row}
    (collected : Collected schema rows req residual front back batch true) (row : Row) :
    row ∈ batch ↔ row ∈ rows ∧ req.Contains schema row ∧ Satisfies schema row residual := by
  have found := collected.found row
  rw [collected.whole rfl, List.append_nil] at found
  rw [← and_assoc, ← found]
  constructor
  · intro member
    have inFront := collected.kept.subset member
    exact ⟨inFront, (collected.satisfied row inFront).mp member⟩
  · rintro ⟨inFront, holds⟩
    exact (collected.satisfied row inFront).mpr holds

theorem Collected.batch {view : KVMap} (shows : schema.Shows view rows) {req : RangeReq}
    {residual : Option Expr} {batch : List Row} {done : Bool}
    (collected : Collected schema (Schema.rowsOf rows) req residual front back batch done)
    (storable : ∀ row ∈ Schema.rowsOf rows, req.Contains schema row → schema.Storable row) :
    Batch schema rows batch := by
  have found {row : Row} (member : row ∈ batch) :=
    (collected.found row).mp (List.mem_append_left back (collected.kept.subset member))
  refine ⟨?_, fun row member => shows.mem_rowsOf.mp (found member).1, fun row member => ?_⟩
  · exact (collected.ordered.nodup.sublist (List.sublist_append_left front back)).sublist collected.kept
  · exact storable row (found member).1 (found member).2

/-- A program in a transaction has replaced the rows of the table that meet a condition by their results. -/
def AppliedTo (schema : Schema) (id : ℕ) (base : KVMap) (updates : SortedArray)
    (rows : Bytes → Option Row)
    (result : Row → Except StmtError (Option Row)) (picked : Row → Prop) (count : ℕ) (next : KV) : Prop :=
  ∃ matched : List Row, (∀ row, row ∈ matched ↔ row ∈ Schema.rowsOf rows ∧ picked row) ∧ matched.Nodup ∧
    Applied schema id base updates rows result matched count next

/-- The loop over the primary key changes the matching rows behind the last row of the batch before. -/
private theorem batchLoop_applied (created : schema.Created) (few : schema.indices.length ≤ 128)
    (performs : Performs schema id base result fn) (cond : Option Expr) (rounds more : ℕ) (last : Option Row)
    (lastTyped : ∀ other, last = some other → schema.Typed other) (usable : kv.Usable id base updates)
    (shows : schema.Shows (overlay base updates) rows)
    (storable : ∀ row ∈ Schema.rowsOf rows, Later schema last row → schema.Storable row) :
    Returns (batchLoop id schema cond fn rounds more (last.map (·.pick schema.pkey))) kv
      (AppliedTo schema id base updates rows result fun row => Later schema last row ∧ Satisfies schema row cond) := by
  induction more generalizing kv updates rows last with
  | zero => exact Returns.unfinished
  | succ more ih =>
    have typed {row : Row} (member : row ∈ Schema.rowsOf rows) : schema.Typed row := by
      obtain ⟨pkey, stored⟩ := member
      exact (shows.own pkey row stored).1
    have fits : ∀ row ∈ Schema.rowsOf rows,
        (fullScanReq.resume (last.map (·.pick schema.pkey))).Contains schema row → schema.Storable row :=
      fun row member inside => storable row member ((contains_resume created lastTyped (typed member)).mp inside)
    refine (collectBatch_collects created few usable shows ⟨fullScanReq, cond, false⟩ _ fits rounds).bind ?_
    rintro ⟨batch, done⟩ _ ⟨rfl, front, back, collected⟩
    have batched := collected.batch shows fits
    have found (row : Row) : row ∈ front ++ back ↔ row ∈ Schema.rowsOf rows ∧ Later schema last row := by
      refine (collected.found row).trans (and_congr_right fun member => ?_)
      exact contains_resume created lastTyped (typed member)
    have run := runBatch_applied created performs usable shows batched
    cases done with
    | true =>
      have mem_iff (row : Row) :
          row ∈ batch ↔ row ∈ Schema.rowsOf rows ∧ Later schema last row ∧ Satisfies schema row cond := by
        refine (collected.mem_whole row).trans (and_congr_right fun member => ?_)
        rw [contains_resume created lastTyped (typed member)]
      have whole : Returns (runBatch fn batch) _ (AppliedTo schema id base updates rows result fun row =>
          Later schema last row ∧ Satisfies schema row cond) :=
        run.mono fun count next applied => ⟨batch, mem_iff, batched.distinct, applied⟩
      dsimp only
      cases ends : batch.getLast? with
      | none =>
        rw [List.getLast?_eq_none_iff.mp ends] at whole
        exact whole
      | some tail => exact whole.bind fun count next applied => Returns.pure applied
    | false =>
      obtain ⟨tail, batchEnds, frontEnds⟩ := collected.cut rfl
      obtain ⟨tailStored, tailLater⟩ := (found tail).mp (List.mem_append_left back (List.mem_of_getLast? frontEnds))
      have ordered : (front ++ back).Pairwise fun a b => schema.rowKey 0 a < schema.rowKey 0 b := by
        have order := collected.ordered
        cases last <;> exact order
      obtain ⟨upTo, behind⟩ := cut_ordered ordered frontEnds
      dsimp only
      rw [batchEnds]
      refine run.bind ?_
      rintro count state ⟨edit, staged, after, within, edited, mutates, results, counted⟩
      have shows' : schema.Shows (overlay base staged) after := by
        rw [edited.overlay]
        exact mutates.shows
      -- the batch reaches no row behind its last one
      have kept {row : Row} (later : Later schema (some tail) row) :
        row ∈ Schema.rowsOf after ↔ row ∈ Schema.rowsOf rows := by
        rw [shows'.mem_rowsOf, shows.mem_rowsOf, mutates.others]
        rintro ⟨other, member, same⟩
        exact absurd (later tail rfl) (not_lt.mpr (same ▸ upTo other (collected.kept.subset member)))
      have onward {row : Row} (later : Later schema (some tail) row) : Later schema last row :=
        fun other hit => (tailLater other hit).trans (later tail rfl)
      refine (ih (some tail) (fun other hit => Option.some.inj hit ▸ typed tailStored) within shows'
        fun row member later =>
        storable row ((kept later).mp member) (onward later)).bind ?_
      rintro others next ⟨matched, mem_iff, distinct, applied⟩
      have apart : ∀ row ∈ batch, ∀ other ∈ matched, schema.rowKey 0 row ≠ schema.rowKey 0 other := by
        intro row member other inMatched
        exact ((upTo row (collected.kept.subset member)).trans_lt (((mem_iff other).mp inMatched).2.1 tail rfl)).ne
      refine Returns.pure ⟨batch ++ matched, fun row => ?_, ?_,
        Applied.append created edited mutates results counted applied apart⟩
      · rw [List.mem_append, mem_iff]
        constructor
        · rintro (member | ⟨stored, later, holds⟩)
          · have inFront := collected.kept.subset member
            obtain ⟨stored, later⟩ := (found row).mp (List.mem_append_left back inFront)
            exact ⟨stored, later, (collected.satisfied row inFront).mp member⟩
          · exact ⟨(kept later).mp stored, onward later, holds⟩
        · rintro ⟨stored, later, holds⟩
          rcases List.mem_append.mp ((found row).mpr ⟨stored, later⟩) with inFront | inBack
          · exact .inl ((collected.satisfied row inFront).mpr holds)
          · have after : Later schema (some tail) row := fun other hit => Option.some.inj hit ▸ behind row inBack
            exact .inr ⟨(kept after).mpr stored, after, holds⟩
      · refine List.nodup_append.mpr ⟨batched.distinct, distinct, fun row member other inMatched same => ?_⟩
        exact apart row member other inMatched (congrArg (schema.rowKey 0) same)

/-- `forEachMatch` changes the matching rows of the table, each once. -/
theorem forEachMatch_applied (created : schema.Created) (few : schema.indices.length ≤ 128)
    (performs : Performs schema id base result fn) {cond : Option Expr}
    (written : ∀ expr, cond = some expr → expr.written = true) (rounds : ℕ) (usable : kv.Usable id base updates)
    (shows : schema.Shows (overlay base updates) rows) (storable : ∀ row ∈ Schema.rowsOf rows, schema.Storable row) :
    Returns (forEachMatch id schema cond fn rounds) kv
      (AppliedTo schema id base updates rows result fun row => Satisfies schema row cond) := by
  refine (collectBatch_collects created few usable shows (planScan schema cond) none
    (fun row member _ => storable row member) rounds).bind ?_
  rintro ⟨batch, done⟩ _ ⟨rfl, front, back, collected⟩
  cases done with
  | true =>
    have batched := collected.batch shows fun row member _ => storable row member
    refine (runBatch_applied created performs usable shows batched).mono fun count next applied => ?_
    refine ⟨batch, fun row => ?_, batched.distinct, applied⟩
    refine (collected.mem_whole row).trans (and_congr_right fun stored => ?_)
    exact (planScan_exact created (storable row stored).typed written).symm
  | false =>
    refine (batchLoop_applied created few performs cond rounds rounds none (by simp) usable shows
      (fun row member _ => storable row member)).mono ?_
    rintro count next ⟨matched, mem_iff, distinct, applied⟩
    refine ⟨matched, fun row => (mem_iff row).trans ?_, distinct, applied⟩
    simp [Later]

end Mutations

end PallasDB
