import PallasDB.Db.StmtFrame

/-! # Transactions in use

What a program can know of the transaction it works in: what it would read without its own updates, and the updates.
A write stages one more entry. An inner transaction begins with what the enclosing one reads and no updates; when it
commits, its updates are laid over those of the enclosing one, provided it deletes only what the enclosing one reads.
-/

namespace PallasDB

open Program SortedRun

/-! ## Edits -/

/-- Staged updates after more writes; the first write of a key in the list counts. -/
def Edited (updates : SortedArray) (edit : KVRun) (staged : SortedArray) : Prop :=
  ∀ key, lookup staged key = (lookup edit key).or (lookup updates key)

theorem Edited.refl (updates : SortedArray) : Edited updates [] updates := fun _ => rfl

variable {staged : SortedArray}

theorem Edited.trans {updates middle : SortedArray} {first second : KVRun}
    (before : Edited updates first middle) (after : Edited middle second staged) :
    Edited updates (second ++ first) staged := by
  intro key
  rw [after, before, lookup_append, Option.or_assoc]

theorem Edited.overlay {updates : SortedArray} {edit : KVRun} (edited : Edited updates edit staged)
    (base : KVMap) : overlay base staged = overlay (overlay base updates) edit := by
  funext key
  rw [PallasDB.overlay, edited, PallasDB.overlay, PallasDB.overlay]
  cases lookup edit key <;> rfl

theorem overlay_append (base : KVMap) (first second : KVRun) :
    overlay base (first ++ second) = overlay (overlay base second) first := by
  funext key
  rw [overlay, lookup_append, overlay, overlay]
  cases lookup first key <;> rfl

/-- Updates that delete only what is there. -/
def Erases (view : KVMap) (updates : KVRun) : Prop :=
  ∀ key, lookup updates key = some none → (view key).isSome = true

/-- Updates that delete only what the enclosing transaction reads keep its tombstones apart. -/
theorem Erases.tombstonesApart {base : KVMap} {inner outer : SortedArray}
    (erases : Erases (overlay base outer) inner) (increasing : Increasing inner) :
    KV.tombstonesApart inner outer = true := by
  rw [KV.tombstonesApart, List.all_eq_true]
  rintro ⟨key, val⟩ member
  cases val with
  | some val => rfl
  | none =>
    have shown := erases key (increasing.lookup_of_mem member)
    simp only [Option.isSome_none, Bool.false_or, decide_eq_true_eq]
    intro deleted
    simp [overlay, deleted] at shown

/-! ## Usable transactions -/

namespace KV

/-- A transaction in use: `base` is what it would read without its own updates. -/
structure Usable (kv : KV) (id : ℕ) (base : KVMap) (updates : SortedArray) : Prop where
  increasing : Increasing updates
  record : ∃ tx below, kv.txs[id]? = some tx ∧ tx.err = none ∧ tx.updates = updates ∧ tx.levels = .updates id :: below ∧
    (∀ other, .updates other ∈ below → other < id) ∧
    (∀ run ∈ MergedSortedKV.runs (below.map kv.resolve), Increasing run) ∧
    visible (MergedSortedKV.runs (below.map kv.resolve)) = base

/-- A transaction reads the updates of another, or its own. -/
def Reaches (kv : KV) (id other : ℕ) : Prop := ∃ tx, kv.txs[id]? = some tx ∧ .updates other ∈ tx.levels

section Usable

variable {kv next : KV} {id : ℕ} {base : KVMap} {updates : SortedArray}

section

variable (usable : kv.Usable id base updates)

include usable

theorem Usable.known : id < kv.txs.length := by
  obtain ⟨tx, _, found, _⟩ := usable.record
  exact (List.getElem?_eq_some_iff.mp found).1

theorem Usable.live : (kv.handle id).err = none := by
  obtain ⟨tx, _, found, live, _⟩ := usable.record
  rw [handle_eq found, live]

theorem Usable.reads : kv.Reads (kv.handle id) (overlay base updates) := by
  obtain ⟨tx, below, found, live, rfl, levels, _, sorted, shows⟩ := usable.record
  have own : kv.resolve (.updates id) = .array tx.updates := by simp [resolve, found]
  have runs : MergedSortedKV.runs (kv.readLevels tx) = tx.updates :: MergedSortedKV.runs (below.map kv.resolve) := by
    rw [readLevels, levels, List.map_cons, own]
    rfl
  rw [handle_eq found]
  refine reads_of_visible live ?_ (by rw [runs, visible_cons, shows])
  rw [runs]
  exact List.forall_mem_cons.mpr ⟨usable.increasing, sorted⟩

/-- What a transaction reads depends on the transactions it reaches. -/
theorem Usable.congr
    (same : ∀ other, kv.Reaches id other → next.txs[other]? = kv.txs[other]?) : next.Usable id base updates := by
  obtain ⟨tx, below, found, live, updates, levels, older, sorted, shows⟩ := usable.record
  have reaches (other : ℕ) (member : .updates other ∈ below) : kv.Reaches id other :=
    ⟨tx, found, by rw [levels]; exact List.mem_cons_of_mem _ member⟩
  have resolved : below.map next.resolve = below.map kv.resolve := by
    refine List.map_congr_left fun level member => ?_
    cases level with
    | updates other => rw [resolve, resolve, same other (reaches other member)]
    | source sorted => rfl
  refine ⟨usable.increasing, tx, below, ?_, live, updates, levels, older, ?_, ?_⟩
  · rw [same id ⟨tx, found, by rw [levels]; exact List.mem_cons_self⟩, found]
  · rwa [resolved]
  · rwa [resolved]

theorem Usable.reaches_le {other : ℕ} (reaches : kv.Reaches id other) : other ≤ id := by
  obtain ⟨tx, below, found, _, _, levels, older, _⟩ := usable.record
  obtain ⟨_, same, member⟩ := reaches
  cases found.symm.trans same
  rw [levels] at member
  rcases List.mem_cons.mp member with own | above
  · cases own
    exact le_rfl
  · exact (older other above).le

/-- What happens elsewhere does not matter. -/
theorem Usable.frame {who : Set ℕ} (confined : Confined who kv next)
    (apart : ∀ other ≤ id, other ∉ who) : next.Usable id base updates := by
  refine usable.congr fun other reaches => ?_
  have before := usable.reaches_le reaches
  exact confined.others other (before.trans_lt usable.known) (apart other before)

/-- Staging something else. -/
theorem Usable.restage (increasing : Increasing staged) :
    (kv.setTx id { kv.handle id with updates := staged }).Usable id base staged := by
  obtain ⟨tx, below, found, live, same, levels, older, sorted, shows⟩ := usable.record
  rw [handle_eq found]
  have resolved : below.map (kv.setTx id { tx with updates := staged }).resolve = below.map kv.resolve := by
    refine List.map_congr_left fun level member => ?_
    cases level with
    | updates other => rw [resolve, resolve, setTx, List.getElem?_set_ne (older other member).ne']
    | source sorted => rfl
  refine ⟨increasing, { tx with updates := staged }, below, ?_, live, rfl, levels, older, ?_, ?_⟩
  · simp [setTx, usable.known]
  · rwa [resolved]
  · rwa [resolved]

theorem Usable.handle_updates : (kv.handle id).updates = updates := by
  obtain ⟨tx, _, found, _, same, _⟩ := usable.record
  rw [handle_eq found, same]

/-! ## Steps -/

theorem Usable.getKey (key : Bytes) : exec (PallasDB.getKey id key) kv = some (.ok (overlay base updates key), kv) := by
  rw [PallasDB.getKey, exec_act, usable.reads.get]
  rfl

/-- A write stages what it changes. -/
theorem Usable.writeKey {write : TxWrite} (valid : write.valid = true) :
    ∃ next staged, exec (PallasDB.writeKey id write) kv =
        some (.ok (write.changes (overlay base updates write.key)), next) ∧
      next.Usable id base staged ∧ Edited updates (write.writes (overlay base updates)) staged := by
  have reads := usable.reads
  obtain ⟨tx, _, found, _, rfl, _⟩ := usable.record
  refine ⟨_, _, ?_, usable.restage (TxWrite.stage_increasing usable.increasing write),
    TxWrite.lookup_stage usable.increasing write⟩
  rw [PallasDB.writeKey, exec_act, writeTX_eq reads valid]
  rw [handle_eq found] at reads ⊢
  rw [call_eq found reads]

theorem Usable.insertKey (key val : Bytes) :
    ∃ next staged, exec (PallasDB.writeKey id (.set key val .insert)) kv =
        some (.ok (overlay base updates key).isNone, next) ∧ next.Usable id base staged ∧
      Edited updates (if (overlay base updates key).isNone then [⟨key, some val⟩] else []) staged := by
  simpa [TxWrite.changes, TxWrite.writes, TxWrite.key, setExUpdates] using
    usable.writeKey (show (TxWrite.set key val .insert).valid = true from rfl)

theorem Usable.upsertKey (key val : Bytes) :
    ∃ next staged, exec (PallasDB.writeKey id (.set key val .upsert)) kv =
        some (.ok (decide (overlay base updates key ≠ some val)), next) ∧ next.Usable id base staged ∧
      Edited updates (if overlay base updates key = some val then [] else [⟨key, some val⟩]) staged := by
  obtain ⟨next, staged, ran, rest, edited⟩ := usable.writeKey (show (TxWrite.set key val .upsert).valid = true from rfl)
  exact ⟨next, staged, ran, rest, by simpa [TxWrite.writes, setExUpdates] using edited⟩

theorem Usable.deleteKey (key : Bytes) :
    ∃ next staged, exec (PallasDB.writeKey id (.del key)) kv = some (.ok (overlay base updates key).isSome, next) ∧
      next.Usable id base staged ∧
      Edited updates (if (overlay base updates key).isSome then [⟨key, none⟩] else []) staged :=
  usable.writeKey (show (TxWrite.del key).valid = true from rfl)

/-- An inner transaction begins with what the enclosing one reads. -/
theorem Usable.beginInner : (kv.newInnerTX id (kv.handle id)).Usable kv.txs.length (overlay base updates) [] := by
  obtain ⟨tx, below, found, live, same, levels, older, sorted, shows⟩ := usable.record
  have confined : Confined ∅ kv (kv.newInnerTX id (kv.handle id)) := confined_append kv _
  have whole := usable.frame confined fun other _ => Set.notMem_empty other
  obtain ⟨outer, under, there, _, kept, levels', _, sorted', shows'⟩ := whole.record
  obtain rfl : tx = outer := by
    have unchanged := confined.others id usable.known (Set.notMem_empty id)
    rw [found, there] at unchanged
    exact (Option.some.inj unchanged).symm
  obtain rfl : below = under := (List.cons.inj (levels.symm.trans levels')).2
  have own : (kv.newInnerTX id (kv.handle id)).resolve (.updates id) = .array updates := by
    simp [resolve, there, same]
  have runs : MergedSortedKV.runs (tx.levels.map (kv.newInnerTX id (kv.handle id)).resolve) =
      updates :: MergedSortedKV.runs (below.map (kv.newInnerTX id (kv.handle id)).resolve) := by
    rw [levels, List.map_cons, own]
    rfl
  refine ⟨increasing_nil, ⟨0, some id, [], .updates kv.txs.length :: tx.levels, tx.err⟩, tx.levels, ?_, live, rfl, rfl,
    fun other member => ?_, ?_, ?_⟩
  · rw [newInnerTX, handle_eq found]
    exact List.getElem?_concat_length
  · rw [levels] at member
    rcases List.mem_cons.mp member with own | above
    · cases own
      exact usable.known
    · exact (older other above).trans usable.known
  · rw [runs]
    exact List.forall_mem_cons.mpr ⟨usable.increasing, sorted'⟩
  · rw [runs, visible_cons, shows']

/-- An inner commit lays the inner updates over those of the enclosing transaction. -/
theorem Usable.applyInner {inner : ℕ} {view : KVMap} (within : kv.Usable inner view staged)
    (apart : tombstonesApart staged updates = true) :
    ∃ merged, (kv.applyInner (kv.handle inner) id (kv.handle id)).Usable id base merged ∧
    Edited updates staged merged := by
  obtain ⟨sorted, replayed⟩ := foldl_applySlot within.increasing usable.increasing apart
  simp only [KV.applyInner, within.live, usable.handle_updates, within.handle_updates]
  exact ⟨_, usable.restage sorted, replayed⟩

theorem Usable.commitInner {inner : ℕ} {view : KVMap} (within : kv.Usable inner view staged)
    (erases : Erases (overlay base updates) staged) :
    ∃ next merged, exec (PallasDB.commitInner inner id) kv = some (.ok (), next) ∧ next.Usable id base merged ∧
      Edited updates staged merged := by
  obtain ⟨merged, after, edited⟩ := usable.applyInner within (erases.tombstonesApart within.increasing)
  rw [PallasDB.commitInner, exec_act]
  simp only [within.live]
  exact ⟨_, merged, rfl, after, edited⟩

end

end Usable

end KV

/-! ## Top-level transactions -/

/-- A new transaction reads the tables. -/
theorem KV.usable_newTX {kv : KV} (sorted : kv.tables.Sorted) (running : kv.closed = false) :
    kv.newTX.Usable kv.txs.length kv.tables.contents [] := by
  have resolved : (kv.tables.levels.map Level.source).map kv.newTX.resolve = kv.tables.levels := by
    rw [List.map_map]
    exact List.map_id _
  refine ⟨increasing_nil, ⟨kv.snapshot, none, [], .updates kv.txs.length :: kv.tables.levels.map .source, none⟩,
    kv.tables.levels.map .source, ?_, rfl, rfl, rfl, by simp, ?_, ?_⟩
  · rw [newTX, running]
    exact List.getElem?_concat_length
  · rw [resolved]
    exact sorted
  · rw [resolved]
    rfl

/-- A store after the commit of staged updates. -/
structure KV.Committed (kv : KV) (updates : SortedArray) (next : KV) : Prop where
  contents : next.tables.contents = overlay kv.tables.contents updates
  sorted : next.tables.Sorted
  closed : next.closed = kv.closed
  fits : oversize updates = false

/-- A `Commit` that returns no error lays the staged updates over the tables. -/
theorem KV.commitTX_ok {kv : KV} {id : ℕ} (sorted : kv.tables.Sorted) (live : (kv.handle id).err = none)
    (increasing : Increasing (kv.handle id).updates) (committed : (kv.commitTX id).2 = .ok ()) :
    kv.Committed (kv.handle id).updates (kv.commitTX id).1 := by
  have finished (state : KV) : (state.finishTX id (kv.handle id)).tables = state.tables := untrack_tables ..
  have running (state : KV) : (state.finishTX id (kv.handle id)).closed = state.closed := by
    rw [finishTX, untrack]
    split <;> rfl
  have held (state : KV) (phase : CommitPhase) : (state.setPhase id phase).commit = some ⟨id, phase⟩ := rfl
  obtain ⟨_, verdict, same⟩ := (kv.setPhase id .locked).checkCommit_cases id (kv.handle id)
  cases verdict with
  | nothing empty =>
    simp only [commitTX, live, same, held]
    rw [empty]
    exact ⟨by rw [finished]; rfl, by rw [finished]; exact sorted, by rw [running]; rfl, rfl⟩
  | conflict =>
    simp only [commitTX, live, same, held] at committed
    contradiction
  | clear =>
    cases large : oversize (kv.handle id).updates with
    | true =>
      have wrote : ((kv.setPhase id .locked).setPhase id .checked).writeLog id (kv.handle id) none =
          ((kv.setPhase id .locked).setPhase id .checked).setPhase id (.returning (.error .entryTooLarge)) :=
            if_pos large
      simp only [commitTX, live, same, held, wrote] at committed
      contradiction
    | false =>
      have wrote : ((kv.setPhase id .locked).setPhase id .checked).writeLog id (kv.handle id) none =
          { kv with log := kv.log ++ (kv.handle id).updates, commit := some ⟨id, .logged⟩ } :=
        if_neg (Bool.eq_false_iff.mp large)
      simp only [commitTX, live, same, held, wrote]
      exact ⟨by rw [finished]; exact Tables.contents_apply sorted increasing,
        by rw [finished]; exact sorted.apply increasing, by rw [running]; rfl, large⟩

theorem commitTop_committed {kv : KV} {id : ℕ} {base : KVMap} {updates : SortedArray}
    (sorted : kv.tables.Sorted) (usable : kv.Usable id base updates) :
    Returns (commitTop id) kv fun _ next => kv.Committed updates next := by
  rintro ⟨⟩ next ran
  simp only [exec, commitTop, ExceptT.run_mk, StateT.run] at ran
  split at ran
  · contradiction
  · obtain ⟨result, rfl⟩ := Prod.mk.inj (Option.some.inj ran)
    cases outcome : (kv.commitTX id).2 with
    | error => rw [outcome] at result; contradiction
    | ok =>
      rw [← usable.handle_updates]
      exact KV.commitTX_ok sorted usable.live (usable.handle_updates ▸ usable.increasing) outcome

/-! ## Inner transactions -/

section Inner

variable {α β : Type} {kv : KV} {parent : ℕ} {base : KVMap} {updates : SortedArray}

/-- A program in an inner transaction leaves the enclosing one to what follows. -/
theorem KV.Usable.within (usable : kv.Usable parent base updates) {body : ℕ → DBM α}
    (stays : ∀ id, Stays {id} (body id)) {rest : ℕ → α → DBM β} {post : ℕ → α → KV → Prop} {last : β → KV → Prop}
    (runs : ∀ state id, state.Usable id (overlay base updates) [] → Returns (body id) state (post id))
    (ends : ∀ state id a, state.Usable parent base updates → post id a state → Returns (rest id a) state last) :
    Returns (do
      let id ← PallasDB.beginInner parent
      let result ← body id
      rest id result) kv last := by
  have appended : Confined ∅ kv (kv.newInnerTX parent (kv.handle parent)) := confined_append kv _
  have outer := usable.frame appended fun other _ => Set.notMem_empty other
  have both : Returns (body kv.txs.length) (kv.newInnerTX parent (kv.handle parent)) fun a next =>
      next.Usable parent base updates ∧ post kv.txs.length a next := by
    intro a next ran
    refine ⟨outer.frame (stays _ _ _ next ran) fun other small member => ?_, runs _ _ usable.beginInner a next ran⟩
    cases member
    exact absurd usable.known (not_lt.mpr small)
  exact both.bind fun a state ended => ends state _ a ended.1 ended.2

/-- What an inner transaction has staged, and what is known of it. -/
def KV.Drafted (id : ℕ) (view : KVMap) (post : KVRun → Prop) (next : KV) : Prop :=
  ∃ edit staged, next.Usable id view staged ∧ Edited [] edit staged ∧ Erases view edit ∧ post edit

/-- Committing an inner transaction. -/
theorem KV.Usable.commitDraft (usable : kv.Usable parent base updates) {id : ℕ} {post : KVRun → Prop}
    (drafted : KV.Drafted id (overlay base updates) post kv) : Returns (PallasDB.commitInner id parent) kv fun _ next =>
      ∃ edit staged, next.Usable parent base staged ∧ Edited updates edit staged ∧ Erases (overlay base updates) edit ∧
        post edit := by
  obtain ⟨edit, staged, within, edited, erases, holds⟩ := drafted
  have same (key : Bytes) : lookup staged key = lookup edit key := by rw [edited, lookup_nil, Option.or_none]
  obtain ⟨next, merged, committed, after, replayed⟩ :=
    usable.commitInner within fun key deleted => erases key ((same key).symm.trans deleted)
  exact Returns.of_exec committed ⟨edit, merged, after, fun key => by rw [replayed, same], erases, holds⟩

/-- A program in an inner transaction that is committed into the enclosing one. -/
theorem KV.Usable.inner (usable : kv.Usable parent base updates) {body : ℕ → DBM α} (stays : ∀ id, Stays {id} (body id))
    {post : α → KVRun → Prop}
    (runs : ∀ state id, state.Usable id (overlay base updates) [] → Returns (body id) state fun a next =>
      KV.Drafted id (overlay base updates) (post a) next) :
    Returns (do
      let id ← PallasDB.beginInner parent
      let result ← body id
      PallasDB.commitInner id parent
      pure result) kv fun a next => ∃ edit staged, next.Usable parent base staged ∧ Edited updates edit staged ∧
        Erases (overlay base updates) edit ∧ post a edit :=
  usable.within stays runs fun _ _ _ enclosing drafted =>
    (enclosing.commitDraft drafted).bind fun _ _ committed => Returns.pure committed

end Inner

/-! ## Statements in a transaction of their own -/

section Alone

variable {codec : SchemaCodec} {kv : KV} {id rounds : ℕ}

/-- A transaction that cannot be used runs no statement. -/
theorem execStmt_dead {err : TXError} (dead : (kv.handle id).err = some err) (stmt : Stmt) :
    Returns (execStmt codec rounds id stmt) kv fun _ _ => False := by
  have unread (key : Bytes) : kv.get (kv.handle id) key = .error err := by rw [KV.get, dead]
  have refused (table : Bytes) : exec (getSchema codec id table) kv = some (.error (.db (.tx err)), kv) := by
    rw [getSchema, exec_bind, getKey, exec_act, unread]
    rfl
  have unknown (table : Bytes) : Returns (getSchema codec id table) kv fun _ _ => False := by
    intro schema next ran
    cases (refused table).symm.trans ran
  cases stmt with
  | createTable stmt =>
    have known : exec (attempt (getSchema codec id stmt.table)) kv = some (.ok (.error (.db (.tx err))), kv) := by
      rw [exec_attempt, refused]
      rfl
    have body : Returns (execCreateTable codec id stmt) kv fun _ _ => False := by
      refine Returns.after known ?_
      refine (Returns.lift fun _ _ => rfl : Returns (encoded stmt.schema) kv fun _ next => next = kv).bind ?_
      rintro schema _ rfl
      refine (?_ : Returns (writeKey id _) _ fun _ _ => False).bind fun _ _ none => none.elim
      intro updated next ran
      rw [writeKey, exec_act] at ran
      simp [KV.writeTX, unread] at ran
    exact body.bind fun _ _ none => none.elim
  | dropTable table =>
    have body : Returns (execDropTable codec rounds id table) kv fun _ _ => False :=
      (unknown table).bind fun _ _ none => none.elim
    exact body.bind fun _ _ none => none.elim
  | select table => exact Returns.map ((unknown table).bind fun _ _ none => none.elim)
  | insert table => exact Returns.map ((unknown table).bind fun _ _ none => none.elim)
  | update table => exact Returns.map ((unknown table).bind fun _ _ none => none.elim)
  | delete table => exact Returns.map ((unknown table).bind fun _ _ none => none.elim)

/-- A statement that nobody interrupts leaves in the tables what its transaction has staged. -/
theorem alone_returns (sorted : kv.tables.Sorted) {stmt : Stmt} {post : ℕ → SortedArray → Prop}
    (runs : ∀ state id, state.Usable id kv.tables.contents [] →
      Returns (execStmt codec rounds id stmt) state fun out next =>
      ∃ count staged, out = .affected count ∧ next.Usable id kv.tables.contents staged ∧ post count staged)
    (options : KVOptions) :
    Returns (DB.execStmt codec rounds options [] stmt) kv fun out next => kv.closed = false ∧
      ∃ count staged, out = .affected count ∧ kv.Committed staged next ∧ post count staged := by
  have body : Returns (execStmt codec rounds kv.txs.length stmt) kv.newTX fun out next => kv.closed = false ∧
      next.closed = false ∧ next.tables = kv.tables ∧
      ∃ count staged, out = .affected count ∧ next.Usable kv.txs.length kv.tables.contents staged ∧
        post count staged := by
    cases running : kv.closed with
    | true =>
      have dead : (kv.newTX.handle kv.txs.length).err = some .kvClosed := by simp [KV.newTX, running, KV.handle]
      exact (execStmt_dead dead stmt).mono fun _ _ none => none.elim
    | false =>
      intro out next ran
      have confined := execStmt_stays codec rounds _ _ _ _ _ ran
      have begun : kv.newTX.closed = false ∧ kv.newTX.tables = kv.tables := by
        rw [KV.newTX, running]
        exact ⟨rfl, rfl⟩
      refine ⟨rfl, by rw [confined.rest]; exact begun.1, confined.tables.trans begun.2, ?_⟩
      exact runs _ _ (KV.usable_newTX sorted running) out next ran
  have begun : Returns (DB.beginStmt codec rounds stmt) kv fun out next => kv.closed = false ∧
      next.closed = false ∧ next.tables = kv.tables ∧
      ∃ count staged, out.2 = .affected count ∧ next.Usable out.1 kv.tables.contents staged ∧ post count staged := by
    refine body.attempt.bind fun result state known => ?_
    cases result with
    | error err =>
      exact (Returns.of_exec rfl trivial : Returns (abortTop _) state fun _ _ => True).bind fun _ _ _ => Returns.throw
    | ok out => exact Returns.pure (known out rfl)
  refine begun.bind ?_
  rintro ⟨id, _⟩ state ⟨running, closed, tables, count, staged, rfl, usable, holds⟩
  refine (commitTop_committed (tables ▸ sorted) usable).bind fun _ next committed =>
    Returns.pure ⟨running, count, staged, rfl, ?_, holds⟩
  exact ⟨by rw [committed.contents, tables], committed.sorted, by rw [committed.closed, closed, running],
    committed.fits⟩

end Alone

end PallasDB
