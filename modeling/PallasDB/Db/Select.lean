import PallasDB.Lib.Paging
import PallasDB.Db.Statement

/-! # Streaming the rows of a `SELECT`

The cursor of a `SELECT` pulls a row from its scan, filters it, skips it while the `OFFSET` is not used up, and projects
it; it stops without another read once the `LIMIT` is reached. What it returns depends only on the rows the scan of its
plan visits, and these depend only on the entries of the table. So the pages of a statement on an unchanged table are
slices of one answer.
-/

namespace PallasDB

open Program SortedRun Paging

/-- Whether a row that the scan of a plan visits matches. -/
def ScanPlan.keep (plan : ScanPlan) (schema : Schema) (row : Row) : Except DBError Bool :=
  matchRow schema row plan.residual

/-- The values of a projection on a row. -/
def Schema.project (schema : Schema) (proj : List Expr) (row : Row) : Except DBError Row :=
  match proj with
  | [] => .ok []
  | expr :: rest =>
      match evalExpr schema row expr with
      | .error err => .error err
      | .ok cell => (schema.project rest row).map (cell :: ·)

/-- A cursor that has been asked for rows. -/
structure RunningCursor extends SelectCursor where
  started : Bool
  scanned : ℕ

def SelectCursor.start (cursor : SelectCursor) : RunningCursor := { cursor with started := false, scanned := 0 }

namespace RunningCursor

/-- The first row is read when the scan is opened, the others when they are asked for. -/
def pull (kv : KV) (tx : KVTX) (cursor : RunningCursor) : Except DBError RunningCursor :=
  if cursor.started then (cursor.iter.next kv tx).map fun iter => { cursor with iter := iter }
  else .ok { cursor with started := true }

/-- The loop of `selectCursor.next`. -/
def nextLoop (kv : KV) (tx : KVTX) : ℕ → RunningCursor → Option (Except DBError (Option Row) × RunningCursor)
  | 0, _ => none
  | rounds + 1, cursor =>
      match cursor.pull kv tx with
      | .error err => some (.error err, cursor)
      | .ok cursor =>
          if !cursor.iter.valid then some (.ok none, cursor)
          else
            let cursor := { cursor with scanned := cursor.scanned + 1 }
            match cursor.plan.keep cursor.schema cursor.iter.row with
            | .error err => some (.error err, cursor)
            | .ok false => nextLoop kv tx rounds cursor
            | .ok true =>
                if 0 < cursor.skip then nextLoop kv tx rounds { cursor with skip := cursor.skip - 1 }
                else
                  match cursor.schema.project cursor.proj cursor.iter.row with
                  | .error err => some (.error err, cursor)
                  | .ok out =>
                      let left := if 0 < cursor.remaining then cursor.remaining - 1 else cursor.remaining
                      some (.ok (some out), { cursor with remaining := left })

/-- `selectCursor.next`. -/
def next (kv : KV) (tx : KVTX) (rounds : ℕ) (cursor : RunningCursor) :
    Option (Except DBError (Option Row) × RunningCursor) :=
  if cursor.remaining = 0 then some (.ok none, cursor) else nextLoop kv tx rounds cursor

/-- `SQLResult.Rows`, with the number of rows pulled from storage. -/
def rows (kv : KV) (tx : KVTX) (rounds : ℕ) : ℕ → RunningCursor → Option (Served Row DBError)
  | 0, _ => none
  | more + 1, cursor =>
      match cursor.next kv tx rounds with
      | none => none
      | some (.error err, cursor) => some ⟨[], some err, cursor.scanned⟩
      | some (.ok none, cursor) => some ⟨[], none, cursor.scanned⟩
      | some (.ok (some row), cursor) => (rows kv tx rounds more cursor).map (Served.cons row)

end RunningCursor

/-- Drain a cursor in its transaction. -/
def SelectCursor.drain (cursor : SelectCursor) (rounds id : ℕ) : DBM (Served Row DBError) := ExceptT.mk fun kv =>
  (cursor.start.rows kv (kv.handle id) rounds rounds).map fun answer => (.ok answer, kv)

@[simp] theorem exec_drain (cursor : SelectCursor) (rounds id : ℕ) (kv : KV) :
    exec (cursor.drain rounds id) kv =
      (cursor.start.rows kv (kv.handle id) rounds rounds).map fun answer => (.ok answer, kv) := rfl

/-- A `SELECT` in a transaction, with all its rows. -/
def selectRows (codec : SchemaCodec) (rounds id : ℕ) (table : Bytes) (cols : List Expr) (cond : Option Expr)
    (limit offset : ℤ) : DBM (Served Row DBError) := do
  let cursor ← execSelect codec id table cols cond limit offset
  cursor.drain rounds id

/-! ## The rows of an iterator -/

/-- The rows an iterator still gives, and the error that ends them. -/
inductive Streams (kv : KV) (tx : KVTX) : RowIterator → List Row → Option DBError → Prop
  | done {iter : RowIterator} (off : iter.valid = false) : Streams kv tx iter [] none
  | fails {iter : RowIterator} {err : DBError} (on : iter.valid = true) (failed : iter.next kv tx = .error err) :
      Streams kv tx iter [iter.row] (some err)
  | row {iter following : RowIterator} {found : List Row} {fails : Option DBError} (on : iter.valid = true)
      (step : iter.next kv tx = .ok following) (rest : Streams kv tx following found fails) :
      Streams kv tx iter (iter.row :: found) fails

/-- Decode slots one after the other into the same row. -/
def decodeSlots (kv : KV) (tx : KVTX) (schema : Schema) (indexNo : ℕ) :
    Row → List KVSlot → List Row × Option DBError
  | _, [] => ([], none)
  | into, slot :: slots =>
      match decodeSlot kv tx schema indexNo into slot with
      | .error err => ([], some err)
      | .ok row => ((row :: (decodeSlots kv tx schema indexNo row slots).1),
        (decodeSlots kv tx schema indexNo row slots).2)

variable {iter : RowIterator}

section Streams

variable {kv : KV} {tx : KVTX} {schema : Schema} {indexNo : ℕ}

theorem decodeKVIter_streams {ranged : KV.RangedKVIter} {slots : List KVSlot} (visits : Visits ranged slots)
    (valid : Bool) (into : Row) :
    (∀ err, RowIterator.decodeKVIter kv tx ⟨schema, indexNo, ranged, valid, into⟩ = .error err →
        decodeSlots kv tx schema indexNo into slots = ([], some err)) ∧
      ∀ iter, RowIterator.decodeKVIter kv tx ⟨schema, indexNo, ranged, valid, into⟩ = .ok iter →
        Streams kv tx iter (decodeSlots kv tx schema indexNo into slots).1
          (decodeSlots kv tx schema indexNo into slots).2 := by
  induction visits generalizing valid into with
  | done off =>
    simp only [RowIterator.decodeKVIter, off]
    refine ⟨by simp, fun iter opened => ?_⟩
    cases opened
    exact .done rfl
  | @slot ranged slot slots on rest ih =>
    simp only [RowIterator.decodeKVIter, on, decodeSlots]
    cases decodeSlot kv tx schema indexNo into slot with
    | error err => simp
    | ok row =>
      refine ⟨by simp, fun iter opened => ?_⟩
      cases opened
      obtain ⟨failed, opened⟩ := ih true row
      cases step : RowIterator.decodeKVIter kv tx ⟨schema, indexNo, ranged.next, true, row⟩ with
      | error err =>
        simp only [failed err step]
        exact .fails rfl step
      | ok following => exact .row rfl step (opened following step)

theorem Yields.streams {found : List Row} (yields : Yields kv tx iter found) : Streams kv tx iter found none := by
  induction found generalizing iter with
  | nil => exact .done yields.valid
  | cons first rest ih =>
    obtain ⟨following, step, _, later⟩ := yields.next
    rw [← yields.front first rest rfl]
    exact .row yields.valid step (ih later)

end Streams

namespace RunningCursor

variable {kv : KV} {tx : KVTX} {found : List Row} {fails : Option DBError} {cursor : RunningCursor}

/-- The rows a cursor has yet to look at. -/
def Pending (kv : KV) (tx : KVTX) (cursor : RunningCursor) (found : List Row) (fails : Option DBError) : Prop :=
  if cursor.started then cursor.iter.valid = true ∧ Streams kv tx cursor.iter (cursor.iter.row :: found) fails
  else Streams kv tx cursor.iter found fails

/-- What a cursor makes of the rows it has yet to look at. -/
def served (cursor : RunningCursor) (found : List Row) (fails : Option DBError) : Served Row DBError :=
  let rest := serve (cursor.plan.keep cursor.schema) (cursor.schema.project cursor.proj) fails found cursor.skip
    cursor.remaining
  { rest with scanned := cursor.scanned + rest.scanned }

theorem served_start (cursor : SelectCursor) (found : List Row) (fails : Option DBError) :
    cursor.start.served found fails = serve (cursor.plan.keep cursor.schema) (cursor.schema.project cursor.proj) fails
      found cursor.skip cursor.remaining := by
  simp only [served, SelectCursor.start, Nat.zero_add]

/-- Another row has been pulled. -/
theorem served_read {rest : Served Row DBError} {count : ℕ} :
    ({ rest.read with scanned := count + rest.read.scanned } : Served Row DBError) =
      { rest with scanned := count + 1 + rest.scanned } := by
  simp only [Served.read, Nat.add_assoc, Nat.add_comm 1]

private theorem streams_front (streams : Streams kv tx iter found fails) :
    found = [] ∧ fails = none ∧ iter.valid = false ∨
      ∃ rest, found = iter.row :: rest ∧ iter.valid = true ∧ Streams kv tx iter (iter.row :: rest) fails := by
  cases streams with
  | done off => exact .inl ⟨rfl, rfl, off⟩
  | fails on failed => exact .inr ⟨_, rfl, on, .fails on failed⟩
  | row on step rest => exact .inr ⟨_, rfl, on, .row on step rest⟩

/-- A cursor fails, comes to the end or stands on the next row. -/
theorem Pending.pull (pending : cursor.Pending kv tx found fails) :
    (∃ err, found = [] ∧ fails = some err ∧ cursor.pull kv tx = .error err) ∨
      ∃ iter, cursor.pull kv tx = .ok { cursor with started := true, iter := iter } ∧
        (found = [] ∧ fails = none ∧ iter.valid = false ∨
          ∃ rest, found = iter.row :: rest ∧ iter.valid = true ∧ Streams kv tx iter (iter.row :: rest) fails) := by
  unfold Pending at pending
  unfold RunningCursor.pull
  split at pending
  · next started =>
    obtain ⟨on, streams⟩ := pending
    rw [if_pos started]
    cases streams with
    | fails _ failed => exact .inl ⟨_, rfl, rfl, by rw [failed]; rfl⟩
    | @row _ following _ _ _ step rest =>
      refine .inr ⟨following, ?_, streams_front rest⟩
      rw [step, ← started]
      rfl
  · next fresh =>
    rw [if_neg fresh]
    exact .inr ⟨cursor.iter, rfl, streams_front pending⟩

/-- A reply of a cursor is the next part of its answer. -/
inductive Accounts (kv : KV) (tx : KVTX) (fails : Option DBError) (answer : Served Row DBError) (size : ℕ) :
    Except DBError (Option Row) → RunningCursor → Prop
  | failed {err : DBError} {after : RunningCursor} (whole : answer = ⟨[], some err, after.scanned⟩) :
      Accounts kv tx fails answer size (.error err) after
  | ended {after : RunningCursor} (whole : answer = ⟨[], none, after.scanned⟩) :
      Accounts kv tx fails answer size (.ok none) after
  | row {row : Row} {after : RunningCursor} {rest : List Row} (less : rest.length < size)
      (pending : after.Pending kv tx rest fails) (whole : answer = (after.served rest fails).cons row) :
      Accounts kv tx fails answer size (.ok (some row)) after

theorem Accounts.succ {answer : Served Row DBError} {size : ℕ} {result : Except DBError (Option Row)}
    {after : RunningCursor} (accounts : Accounts kv tx fails answer size result after) :
    Accounts kv tx fails answer (size + 1) result after := by
  cases accounts with
  | failed whole => exact .failed whole
  | ended whole => exact .ended whole
  | row less pending whole => exact .row (Nat.lt_succ_of_lt less) pending whole

/-- A call runs out of rounds, or its reply is the next part of the answer. -/
theorem nextLoop_accounts (pending : cursor.Pending kv tx found fails) (more : cursor.remaining ≠ 0) (rounds : ℕ) :
    cursor.nextLoop kv tx rounds = none ∧ rounds ≤ found.length ∨
      ∃ result after, cursor.nextLoop kv tx rounds = some (result, after) ∧
        Accounts kv tx fails (cursor.served found fails) found.length result after := by
  induction found generalizing cursor rounds with
  | nil =>
    rcases rounds with _ | rounds
    · exact .inl ⟨rfl, Nat.zero_le _⟩
    right
    rcases pending.pull with ⟨err, _, rfl, failed⟩ | ⟨iter, pulled, ⟨_, rfl, off⟩ | ⟨rest, absurd, _⟩⟩
    · exact ⟨_, _, by rw [nextLoop, failed], .failed (by simp [served, serve, more])⟩
    · refine ⟨.ok none, { cursor with started := true, iter := iter }, ?_, .ended (by simp [served, serve])⟩
      rw [nextLoop, pulled]
      simp [off]
    · contradiction
  | cons row found ih =>
    rcases rounds with _ | rounds
    · exact .inl ⟨rfl, Nat.zero_le _⟩
    rcases pending.pull with ⟨err, absurd, _⟩ | ⟨iter, pulled, ⟨absurd, _⟩ | ⟨rest, same, on, streams⟩⟩
    · contradiction
    · contradiction
    obtain ⟨rfl, rfl⟩ := List.cons.inj same
    -- the cursor on the row it has just pulled, whatever it goes on to skip or to return
    have onto (skip remaining : ℤ) : Pending kv tx
        { cursor with
          started := true, iter := iter, scanned := cursor.scanned + 1, skip := skip, remaining := remaining }
        found fails := ⟨on, streams⟩
    rw [nextLoop, pulled]
    simp only [on, Bool.not_true, Bool.false_eq_true, if_false]
    cases matched : cursor.plan.keep cursor.schema iter.row with
    | error err => exact .inr ⟨_, _, rfl, .failed (by simp [served, serve, more, matched])⟩
    | ok keep =>
      cases keep with
      | false =>
        refine (ih (onto cursor.skip cursor.remaining) more rounds).imp (And.imp_right Nat.succ_le_succ) ?_
        rintro ⟨result, after, ran, accounts⟩
        refine ⟨result, after, ran, ?_⟩
        rw [served, serve_drops more matched, served_read]
        exact accounts.succ
      | true =>
        by_cases skips : 0 < cursor.skip
        · simp only [if_pos skips]
          refine (ih (onto (cursor.skip - 1) cursor.remaining) more rounds).imp (And.imp_right Nat.succ_le_succ) ?_
          rintro ⟨result, after, ran, accounts⟩
          refine ⟨result, after, ran, ?_⟩
          rw [served, serve_skips more matched skips, served_read]
          exact accounts.succ
        · simp only [if_neg skips]
          right
          cases projected : cursor.schema.project cursor.proj iter.row with
          | error err => exact ⟨_, _, rfl, .failed (by simp [served, serve, more, matched, skips, projected])⟩
          | ok out =>
            refine ⟨_, _, rfl, .row (Nat.lt_succ_self _) (onto _ _) ?_⟩
            rw [served, serve_takes more matched skips projected]
            exact congrArg (Served.cons out) served_read

/-- The rows of a cursor, if they are drained to the end. -/
theorem rows_served (pending : cursor.Pending kv tx found fails) (rounds more : ℕ) :
    cursor.rows kv tx rounds more = none ∧ (rounds ≤ found.length ∨ more ≤ found.length) ∨
      cursor.rows kv tx rounds more = some (cursor.served found fails) := by
  induction more generalizing cursor found with
  | zero => exact .inl ⟨rfl, .inr (Nat.zero_le _)⟩
  | succ more ih =>
    rw [rows, next]
    split_ifs with full
    · exact .inr (by simp [served, full])
    rcases nextLoop_accounts pending full rounds with ⟨stuck, few⟩ | ⟨result, after, ran, accounts⟩
    · exact .inl ⟨by rw [stuck], .inl few⟩
    rw [ran]
    cases accounts with
    | failed whole => exact .inr (by rw [whole])
    | ended whole => exact .inr (by rw [whole])
    | row less pending whole =>
      rw [whole]
      rcases ih pending with ⟨stuck, few⟩ | drained
      · refine .inl ⟨by simp only [stuck, Option.map_none], ?_⟩
        exact few.imp less.le.trans' fun calls => Nat.succ_le_of_lt (calls.trans_lt less)
      · exact .inr (by simp only [drained, Option.map_some])

end RunningCursor

/-! ## Unchanged tables -/

/-- Two maps have the same entries of a table. -/
def Schema.SameEntries (schema : Schema) (view other : KVMap) : Prop :=
  ∀ indexNo key, schema.keyHead indexNo <+: key → other key = view key

section Unchanged

variable {kv store : KV} {tx reader : KVTX} {view other : KVMap} {schema : Schema}

/-- The entries of an index between two bounds. -/
theorem Schema.SameEntries.between (same : schema.SameEntries view other) {pairs elsewhere : KVRun}
    (lists : Lists pairs view) (listed : Lists elsewhere other) {indexNo : ℕ} {low high : Bytes}
    (lowHead : ∃ rest, low = schema.keyHead indexNo ++ rest)
    (highHead : ∃ rest, high = schema.keyHead indexNo ++ rest) :
    (elsewhere.filter fun slot => decide (low ≤ slot.key ∧ slot.key ≤ high)) =
      pairs.filter fun slot => decide (low ≤ slot.key ∧ slot.key ≤ high) := by
  have views : (fun key => if decide (low ≤ key ∧ key ≤ high) then other key else none) =
      fun key => if decide (low ≤ key ∧ key ≤ high) then view key else none := by
    funext key
    by_cases inside : low ≤ key ∧ key ≤ high
    · simp only [inside, and_self, decide_true, if_true]
      obtain ⟨⟨_, low⟩, ⟨_, high⟩⟩ := And.intro lowHead highHead
      exact same indexNo key (OrderCode.isPrefix_of_between (low ▸ inside.1) (high ▸ inside.2))
    · simp only [inside, decide_false, Bool.false_eq_true, if_false]
  have left := listed.filter fun key => decide (low ≤ key ∧ key ≤ high)
  rw [views] at left
  exact left.unique (lists.filter fun key => decide (low ≤ key ∧ key ≤ high))

variable (reads : kv.Reads tx view) (others : store.Reads reader other) (same : schema.SameEntries view other)

include reads others same

theorem decodeSlot_same (indexNo : ℕ) (into : Row) (slot : KVSlot) :
    decodeSlot store reader schema indexNo into slot = decodeSlot kv tx schema indexNo into slot := by
  have selects (row : Row) : select store reader schema row = select kv tx schema row := by
    rw [select, select]
    cases encoded : row.encodeKey schema 0 with
    | error err => rfl
    | ok key =>
      have head : schema.keyHead 0 <+: key := Schema.encodeKey_eq_ok encoded ▸ schema.keyHead_isPrefix 0 row
      simp only [reads.get, others.get, same 0 key head]
  simp only [decodeSlot, selects]

theorem decodeSlots_same (indexNo : ℕ) (into : Row) (slots : List KVSlot) :
    decodeSlots store reader schema indexNo into slots = decodeSlots kv tx schema indexNo into slots := by
  induction slots generalizing into with
  | nil => rfl
  | cons slot slots ih => simp only [decodeSlots, decodeSlot_same reads others same, ih]

omit others same in
/-- A range that can be opened gives the same rows wherever the table is the same. -/
theorem range_unchanged {req : RangeReq} (opened : range kv tx schema req = .ok iter) :
    ∃ found fails, Streams kv tx iter found fails ∧
      ∀ (store : KV) (reader : KVTX) (other : KVMap), store.Reads reader other →
        schema.SameEntries view other →
          ∃ again, range store reader schema req = .ok again ∧ Streams store reader again found fails := by
  obtain ⟨start, stop, spans⟩ := range_ok opened
  obtain ⟨_, startHead, stopHead⟩ := spans.heads
  obtain ⟨pairs, lists⟩ := reads.listed
  obtain ⟨ranged, visits, walk⟩ := range_visits reads lists spans
  have streams := (decodeKVIter_streams visits false schema.newRow).2 iter (walk ▸ opened)
  refine ⟨_, _, streams, fun store reader other others same => ?_⟩
  obtain ⟨elsewhere, listed⟩ := others.listed
  obtain ⟨again, visited, walked⟩ := range_visits others listed spans
  have slots : rangeSlots elsewhere start stop (isDescending req.startCmp) =
      rangeSlots pairs start stop (isDescending req.startCmp) := by
    rw [rangeSlots, rangeSlots, same.between lists listed startHead stopHead,
      same.between lists listed stopHead startHead]
  rw [slots] at visited
  obtain ⟨failed, done⟩ := @decodeKVIter_streams store reader schema req.indexNo _ _ visited false schema.newRow
  rw [decodeSlots_same reads others same] at failed done
  cases result : RowIterator.decodeKVIter store reader ⟨schema, req.indexNo, again, false, schema.newRow⟩ with
  | error err =>
    -- a stream that fails has given a row
    rw [failed err result] at streams
    cases streams
  | ok iter => exact ⟨iter, walked.trans result, done iter result⟩

end Unchanged

/-! ## Statements -/

section Statements

variable {codec : SchemaCodec} {kv final : KV} {id rounds : ℕ} {view : KVMap} {table : Bytes}
  {cols : List Expr} {cond : Option Expr} {limit offset : ℤ} {answer : Served Row DBError}

theorem exec_selectRows_ok (reads : kv.Reads (kv.handle id) view) :
    exec (selectRows codec rounds id table cols cond limit offset) kv = some (.ok answer, final) ↔
      final = kv ∧ ∃ schema proj iter, loadSchema codec (view (schemaKey table)) = .ok schema ∧
        expandProjection schema cols = .ok proj ∧
        range kv (kv.handle id) schema (planScan schema cond).req = .ok iter ∧
        (SelectCursor.start ⟨schema, planScan schema cond, proj, iter, if limit < 0 then -1 else limit, offset⟩).rows
          kv (kv.handle id) rounds rounds = some answer := by
  rw [selectRows, execSelect, exec_bind, exec_bind, exec_getSchema reads, Option.bind_some]
  cases loadSchema codec (view (schemaKey table)) with
  | error err => simp [follow]
  | ok schema =>
    rw [follow, exec_bind, exec_lift, Option.bind_some]
    cases expanded : expandProjection schema cols with
    | error err => simp [follow, expanded]
    | ok proj =>
      rw [follow, exec_bind, exec_act, Option.bind_some]
      cases opened : range kv (kv.handle id) schema (planScan schema cond).req with
      | error err => simp [follow, expanded, opened, Except.mapError]
      | ok iter =>
        simp [follow, expanded, opened, Except.mapError, and_comm, eq_comm]

/-- A `SELECT` in a transaction gives an answer. -/
def Answers (codec : SchemaCodec) (kv : KV) (id : ℕ) (table : Bytes) (cols : List Expr) (cond : Option Expr)
    (limit offset : ℤ) (answer : Served Row DBError) : Prop :=
  ∃ enough, ∀ rounds, enough ≤ rounds →
    exec (selectRows codec rounds id table cols cond limit offset) kv = some (.ok answer, kv)

/-- A table is the same in two maps. -/
structure SameTable (schema : Schema) (table : Bytes) (view other : KVMap) : Prop where
  record : other (schemaKey table) = view (schemaKey table)
  entries : schema.SameEntries view other

private theorem scanLoop_streams {tx : KVTX} {found : List Row} (streams : Streams kv tx iter found none) (rounds : ℕ)
    (enough : found.length ≤ rounds) : scanLoop kv tx none rounds iter = some (.ok found) := by
  generalize ends : (none : Option DBError) = fails at streams
  induction streams generalizing rounds with
  | done off => cases rounds <;> simp [scanLoop, off]
  | fails on failed => contradiction
  | row on step rest ih =>
    obtain ⟨rounds, rfl⟩ := Nat.exists_eq_add_of_le' enough
    rw [List.length_cons, ← Nat.add_assoc, scanLoop]
    simp only [on, Bool.not_true, Bool.false_eq_true, if_false, matchRow, step, ih _ (Nat.le_add_left ..) ends,
      Option.map_some, Except.map, if_true]

/-- The answer of a `SELECT` from the rows its scan gives. -/
theorem answers_of_streams {schema : Schema} {proj : List Expr} {found : List Row} {fails : Option DBError}
    (reads : kv.Reads (kv.handle id) view) (loaded : loadSchema codec (view (schemaKey table)) = .ok schema)
    (expanded : expandProjection schema cols = .ok proj)
    (opened : range kv (kv.handle id) schema (planScan schema cond).req = .ok iter)
    (streams : Streams kv (kv.handle id) iter found fails) (limit offset : ℤ) :
    Answers codec kv id table cols cond limit offset
      (serve ((planScan schema cond).keep schema) (schema.project proj) fails found offset
        (if limit < 0 then -1 else limit)) := by
  refine ⟨found.length + 1, fun rounds enough => ?_⟩
  refine (exec_selectRows_ok reads).mpr ⟨rfl, schema, proj, iter, loaded, expanded, opened, ?_⟩
  have pending : RunningCursor.Pending kv (kv.handle id) (SelectCursor.start
      ⟨schema, planScan schema cond, proj, iter, if limit < 0 then -1 else limit, offset⟩) found fails := streams
  rcases RunningCursor.rows_served pending rounds rounds with ⟨_, few⟩ | answer
  · omega
  · rwa [RunningCursor.served_start] at answer

/-- A `SELECT` that succeeds without a limit reads the scan of its plan to the end, and with a limit it serves the same
rows wherever the table is the same. -/
private theorem select_serves {rows : List Row} {total : ℕ} (reads : kv.Reads (kv.handle id) view)
    (whole : exec (selectRows codec rounds id table cols cond (-1) 0) kv = some (.ok ⟨rows, none, total⟩, final)) :
    ∃ schema found, loadSchema codec (view (schemaKey table)) = .ok schema ∧
      (∃ enough, scan kv (kv.handle id) schema (planScan schema cond).req none enough = some (.ok found)) ∧
      ∀ (store : KV) (reader : ℕ) (other : KVMap) (limit offset : ℕ),
        store.Reads (store.handle reader) other → SameTable schema table view other →
          ∃ scanned ≤ found.length,
            Answers codec store reader table cols cond limit offset ⟨(rows.drop offset).take limit, none, scanned⟩ ∧
            ∀ shorter < scanned,
              (found.take shorter).countP (kept ((planScan schema cond).keep schema)) < offset + limit := by
  obtain ⟨rfl, schema, proj, iter, loaded, expanded, opened, drained⟩ := (exec_selectRows_ok reads).mp whole
  obtain ⟨found, fails, streams, elsewhere⟩ := range_unchanged reads opened
  have served : serve ((planScan schema cond).keep schema) (schema.project proj) fails found 0 (-1) =
      ⟨rows, none, total⟩ := by
    have pending : RunningCursor.Pending final (final.handle id)
        (SelectCursor.start ⟨schema, planScan schema cond, proj, iter, -1, 0⟩) found fails := streams
    rcases RunningCursor.rows_served pending rounds rounds with ⟨stuck, _⟩ | answer
    · exact absurd (stuck.symm.trans drained) (by simp)
    · rw [RunningCursor.served_start] at answer
      exact Option.some.inj (answer.symm.trans drained)
  obtain ⟨rfl, size⟩ := serve_whole_length served
  refine ⟨schema, found, loaded, ⟨found.length, ?_⟩, fun store reader other limit offset others same => ?_⟩
  · rw [scan, opened]
    exact scanLoop_streams streams _ le_rfl
  · obtain ⟨again, reopened, streamed⟩ := elsewhere store (store.handle reader) other others same.entries
    have limited : (if (limit : ℤ) < 0 then -1 else (limit : ℤ)) = limit := if_neg (by omega)
    have answer := answers_of_streams others (by rw [same.record, loaded]) expanded reopened streamed limit offset
    obtain ⟨scanned, fewer, page, needed⟩ := serve_page served offset limit
    rw [limited, page] at answer
    exact ⟨scanned, size ▸ fewer, answer, needed⟩

/-- Paging through a `SELECT` with `LIMIT` and `OFFSET` on an unchanged table. `found` are the rows the scan of the plan
visits: a page reads them only up to the last row it returns. -/
theorem select_pages {rows : List Row} {total : ℕ} (reads : kv.Reads (kv.handle id) view)
    (whole : exec (selectRows codec rounds id table cols cond (-1) 0) kv = some (.ok ⟨rows, none, total⟩, final)) :
    ∃ schema found, loadSchema codec (view (schemaKey table)) = .ok schema ∧
      (∃ enough, scan kv (kv.handle id) schema (planScan schema cond).req none enough = some (.ok found)) ∧
      (∀ (store : KV) (reader : ℕ) (other : KVMap) (limit offset : ℕ),
        store.Reads (store.handle reader) other → SameTable schema table view other →
          ∃ scanned ≤ found.length,
            Answers codec store reader table cols cond limit offset ⟨(rows.drop offset).take limit, none, scanned⟩ ∧
            ∀ shorter < scanned,
              (found.take shorter).countP (kept ((planScan schema cond).keep schema)) < offset + limit) ∧
      ∀ (stores : ℕ → KV) (readers : ℕ → ℕ) (others : ℕ → KVMap) (size : ℕ), 1 ≤ size →
        (∀ page, (stores page).Reads ((stores page).handle (readers page)) (others page)) →
        (∀ page, SameTable schema table view (others page)) →
          ∃ (pages : ℕ → List Row) (count : ℕ),
            (∀ page, ∃ scanned, Answers codec (stores page) (readers page) table cols cond size ((page * size : ℕ) : ℤ)
              ⟨pages page, none, scanned⟩) ∧
            pages count = [] ∧ (∀ page < count, pages page ≠ []) ∧ (List.range count).flatMap pages = rows := by
  obtain ⟨schema, found, loaded, scanned, single⟩ := select_serves reads whole
  refine ⟨schema, found, loaded, scanned, single, fun stores readers others size positive reading same => ?_⟩
  obtain ⟨count, empty, full, flat⟩ := pages_flatten rows positive
  refine ⟨fun page => (rows.drop (page * size)).take size, count, fun page => ?_, empty, full, flat⟩
  obtain ⟨scanned, _, answer, _⟩ := single (stores page) (readers page) (others page) size (page * size) (reading page)
    (same page)
  exact ⟨scanned, answer⟩

end Statements

/-- A transaction on the table of pairs. -/
def pairReader : KV := { KV.empty with txs := [⟨0, none, [], [.source (.array pairRun)], none⟩] }

theorem select_pages_pairRows :
    (exec (selectRows pairCodec 5 0 pairSchema.table [.star] none (-1) 0) pairReader).map Prod.fst =
      some (.ok ⟨pairRows, none, 4⟩) ∧
    ∃ scanned, Answers pairCodec pairReader 0 pairSchema.table [.star] none 2 1
      ⟨[[.i64 2, .i64 0], [.i64 3, .i64 2]], none, scanned⟩ := by
  have whole : (exec (selectRows pairCodec 5 0 pairSchema.table [.star] none (-1) 0) pairReader).map Prod.fst =
      some (.ok ⟨pairRows, none, 4⟩) := by decide +kernel
  refine ⟨whole, ?_⟩
  obtain ⟨⟨result, final⟩, ran, rfl⟩ := Option.map_eq_some_iff.mp whole
  have reads : pairReader.Reads (pairReader.handle 0)
      (visible (MergedSortedKV.runs (pairReader.readLevels (pairReader.handle 0)))) :=
    KV.reads_of_visible rfl (by decide +kernel) rfl
  obtain ⟨schema, found, _, _, single, _⟩ := select_pages reads ran
  obtain ⟨scanned, _, answer, _⟩ := single pairReader 0 _ 2 1 reads ⟨rfl, fun _ _ _ => rfl⟩
  exact ⟨scanned, answer⟩

end PallasDB
