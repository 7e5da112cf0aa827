import PallasDB.Db.KV

/-! # What a step of the store can do

One constructor for every way an event can be taken. Invariants are proved by cases on this relation and
never by unfolding the step function.
-/

namespace PallasDB

open SortedRun

variable {kv : KV}

namespace KV

/-- What the conflict check of `Commit` decides. -/
inductive Verdict (kv : KV) (tx : KVTX) : CommitPhase → Prop
  | nothing (empty : tx.updates = []) : Verdict kv tx (.returning (.ok ()))
  | conflict (conflict : kv.checkTXConflict tx = true) : Verdict kv tx (.returning (.error .conflict))
  | clear (some : tx.updates ≠ []) (clear : kv.checkTXConflict tx = false) : Verdict kv tx .checked

inductive Step (options : KVOptions) (kv : KV) : KVEvent → KV → Prop
  | newTX : Step options kv .newTX kv.newTX
  | newInnerTX (parent : ℕ) (tx : KVTX) (found : kv.idleTx parent = some tx) :
      Step options kv (.newInnerTX parent) (kv.newInnerTX parent tx)
  | setEx (id : ℕ) (tx : KVTX) (key val : Bytes) (mode : UpdateMode) (found : kv.idleTx id = some tx) :
      Step options kv (.setEx id key val mode) (kv.setEx id tx key val mode)
  | del (id : ℕ) (tx : KVTX) (key : Bytes) (found : kv.idleTx id = some tx) :
      Step options kv (.del id key) (kv.del id tx key)
  | abort (id : ℕ) (tx : KVTX) (found : kv.idleTx id = some tx) (top : tx.target = none) :
      Step options kv (.abort id) (kv.untrack id tx)
  | abortInner (id : ℕ) (tx : KVTX) (found : kv.idleTx id = some tx) (inner : tx.target.isSome) :
      Step options kv (.abort id) kv
  | commitInner (id parent : ℕ) (inner outer : KVTX) (found : kv.idleTx id = some inner)
      (nested : inner.target = some parent) (enclosing : kv.idleTx parent = some outer) :
      Step options kv (.commitInner id) (kv.applyInner inner parent outer)
  | commitFinished (id : ℕ) (tx : KVTX) (found : kv.idleTx id = some tx) (top : tx.target = none)
      (unusable : tx.err.isSome) : Step options kv (.beginCommit id) kv
  | beginCommit (id : ℕ) (tx : KVTX) (found : kv.idleTx id = some tx) (top : tx.target = none)
      (live : tx.err = none) (free : kv.commit = none) (noInstall : kv.compaction ≠ .installed) :
      Step options kv (.beginCommit id) (kv.setPhase id .locked)
  | checkCommit (id : ℕ) (tx : KVTX) (phase : CommitPhase) (current : kv.committing = some (id, tx, .locked))
      (verdict : kv.Verdict tx phase) : Step options kv .checkCommit (kv.setPhase id phase)
  | writeLog (id : ℕ) (tx : KVTX) (ioError : Option (List KVSlot)) (log : List KVSlot) (phase : CommitPhase)
      (current : kv.committing = some (id, tx, .checked))
      (wrote : kv.writeLog id tx ioError = { kv with log := log, commit := some ⟨id, phase⟩ })
      (outcome : phase = .logged ∨ ∃ err, phase = .returning (.error err) ∧ err ≠ .conflict) :
      Step options kv (.writeLog ioError) { kv with log := log, commit := some ⟨id, phase⟩ }
  | applyCommit (id : ℕ) (tx : KVTX) (current : kv.committing = some (id, tx, .logged)) :
      Step options kv .applyCommit (kv.applyCommit id tx)
  | endCommit (id : ℕ) (tx : KVTX) (result : Except CommitError Unit)
      (current : kv.committing = some (id, tx, .returning result)) :
      Step options kv .endCommit { kv.untrack id tx with commit := none }
  | compactClosed (idle : kv.compaction = .idle) (closed : kv.closed = true) :
      Step options kv .startCompact kv
  | startCompact (idle : kv.compaction = .idle) :
      Step options kv .startCompact { kv with compaction := .started kv.tables.mem.length }
  | flush (memSize : ℕ) (started : kv.compaction = .started memSize) :
      Step options kv .flush { kv with
        version := kv.version + 1
        tables := kv.tables.freeze
        compaction := .flushing (kv.version + 1) kv.tables.mem kv.tables.main.isEmpty }
  | skipFlush (memSize : ℕ) (started : kv.compaction = .started memSize) :
      Step options kv .flush { kv with compaction := .choosing }
  | flushFailed (version : ℕ) (frozen : SortedArray) (dropTombstones : Bool)
      (flushing : kv.compaction = .flushing version frozen dropTombstones) :
      Step options kv .flushFailed { kv with tables := kv.tables.unfreeze, compaction := .idle }
  | publish (version : ℕ) (frozen : SortedArray) (dropTombstones : Bool)
      (flushing : kv.compaction = .flushing version frozen dropTombstones) :
      Step options kv .publish { kv with
        metaVersion := version
        sstables := Tables.flushed options.library version frozen dropTombstones :: kv.sstables
        compaction := .published version frozen dropTombstones }
  | install (version : ℕ) (frozen : SortedArray) (dropTombstones : Bool)
      (published : kv.compaction = .published version frozen dropTombstones) (free : kv.commit = none) :
      Step options kv .install { kv with
        tables := kv.tables.install (Tables.flushed options.library version frozen dropTombstones)
        compaction := .installed }
  | rewriteFailed (left : List KVSlot) (installed : kv.compaction = .installed) :
      Step options kv (.rewriteLog (some left)) { kv with log := left, compaction := .idle }
  | rewriteLog (installed : kv.compaction = .installed) :
      Step options kv (.rewriteLog none) { kv with log := kv.tables.mem, compaction := .choosing }
  | skipMerge (choosing : kv.compaction = .choosing) : Step options kv .pickMerge { kv with compaction := .idle }
  | pickMerge (level : ℕ) (old1 old2 : SortedFile) (choosing : kv.compaction = .choosing)
      (first : kv.tables.main[level]? = some old1) (second : kv.tables.main[level + 1]? = some old2) :
      Step options kv .pickMerge { kv with
        version := kv.version + 1
        compaction := .merging (kv.version + 1) level old1 old2 (decide (kv.tables.main.length = level + 2)) }
  | mergeFailed (version level : ℕ) (old1 old2 : SortedFile) (dropTombstones : Bool)
      (merging : kv.compaction = .merging version level old1 old2 dropTombstones) :
      Step options kv .mergeFailed { kv with compaction := .idle }
  | installMerge (version level : ℕ) (old1 old2 : SortedFile) (dropTombstones : Bool)
      (merging : kv.compaction = .merging version level old1 old2 dropTombstones) :
      Step options kv .installMerge { kv with
        metaVersion := version
        sstables := replaceTables kv.sstables level
          (Tables.mergedTable options.library version old1 old2 dropTombstones)
        tables := kv.tables.replacePair level
          (Tables.mergedTable options.library version old1 old2 dropTombstones)
        compaction := .idle }
  | closeAgain (closed : kv.closed = true) : Step options kv .beginClose kv
  | beginClose : Step options kv .beginClose { kv with closed := true, closing := true }
  | endClose (idle : kv.compaction = .idle) (closing : kv.closing = true) (drained : kv.ongoing = []) :
      Step options kv .endClose
        { kv with closing := false, tables := { kv.tables with imm := none, main := [] } }
  | openStore (idle : kv.compaction = .idle) (settled : kv.closing = false) (free : kv.commit = none) :
      Step options kv .openStore kv.openAll

theorem committing_eq_some {id : ℕ} {tx : KVTX} {phase : CommitPhase} :
    kv.committing = some (id, tx, phase) ↔ kv.commit = some ⟨id, phase⟩ ∧ kv.txs[id]? = some tx := by
  simp only [committing, Option.bind_eq_bind, Option.pure_def, Option.bind_eq_some_iff, Option.some.injEq,
    Prod.mk.injEq]
  constructor
  · rintro ⟨⟨_, _⟩, held, other, found, rfl, rfl, rfl⟩
    exact ⟨held, found⟩
  · rintro ⟨held, found⟩
    exact ⟨_, held, tx, found, rfl, rfl, rfl⟩

theorem committing_ne_some (free : kv.commit = none) {current : ℕ × KVTX × CommitPhase} :
    kv.committing ≠ some current := by
  simp [committing, free]

theorem idleTx_eq_some {id : ℕ} {tx : KVTX} : kv.idleTx id = some tx ↔ kv.busy id = false ∧ kv.txs[id]? = some tx := by
  rw [idleTx]
  split <;> simp_all

/-- A write either stages something in its transaction or does nothing. -/
def Stages (kv : KV) (id : ℕ) (tx : KVTX) (next : KV) : Prop :=
  next = kv ∨ tx.err = none ∧ ∃ updates, next = kv.setTx id { tx with updates := updates }

theorem setEx_stages (id : ℕ) (tx : KVTX) (key val : Bytes) (mode : UpdateMode) :
    kv.Stages id tx (kv.setEx id tx key val mode) := by
  rw [Stages, setEx, get]
  cases tx.err with
  | some err => exact .inl rfl
  | none =>
    dsimp only
    split
    · exact .inr ⟨rfl, _, rfl⟩
    · exact .inl rfl

theorem del_stages (id : ℕ) (tx : KVTX) (key : Bytes) : kv.Stages id tx (kv.del id tx key) := by
  rw [Stages, del, get]
  cases tx.err with
  | some err => exact .inl rfl
  | none =>
    split
    · exact .inr ⟨rfl, _, rfl⟩
    · exact .inl rfl

theorem checkCommit_cases (kv : KV) (id : ℕ) (tx : KVTX) :
    ∃ phase, kv.Verdict tx phase ∧ kv.checkCommit id tx = kv.setPhase id phase := by
  rw [checkCommit]
  split
  · next empty => exact ⟨_, .nothing (List.length_eq_zero_iff.mp empty), rfl⟩
  · next some =>
    split
    · next conflict => exact ⟨_, .conflict conflict, rfl⟩
    · next clear => exact ⟨_, .clear (fun none => some (by rw [none]; rfl)) (by simpa using clear), rfl⟩

/-- Writing the log changes the log and the phase only. -/
theorem writeLog_cases (kv : KV) (id : ℕ) (tx : KVTX) (ioError : Option (List KVSlot)) :
    ∃ log phase, kv.writeLog id tx ioError = { kv with log := log, commit := some ⟨id, phase⟩ } ∧
      (phase = .logged ∨ ∃ err, phase = .returning (.error err) ∧ err ≠ .conflict) := by
  cases ioError with
  | some left => exact ⟨_, _, rfl, .inr ⟨_, rfl, by simp⟩⟩
  | none =>
    rw [writeLog]
    split
    · exact ⟨_, _, rfl, .inr ⟨_, rfl, by simp⟩⟩
    · exact ⟨_, _, rfl, .inl rfl⟩

theorem step_cases {options : KVOptions} {target : KV} {event : KVEvent} (taken : step options kv event = some target) :
    Step options kv event target := by
  cases event with
  | newTX => cases taken; exact .newTX
  | newInnerTX parent =>
    obtain ⟨tx, found, rfl⟩ := Option.map_eq_some_iff.mp taken
    exact .newInnerTX parent tx found
  | setEx id key val mode =>
    obtain ⟨tx, found, rfl⟩ := Option.map_eq_some_iff.mp taken
    exact .setEx id tx key val mode found
  | del id key =>
    obtain ⟨tx, found, rfl⟩ := Option.map_eq_some_iff.mp taken
    exact .del id tx key found
  | abort id =>
    obtain ⟨tx, found, rfl⟩ := Option.map_eq_some_iff.mp taken
    split
    · next top => exact .abort id tx found (Option.isNone_iff_eq_none.mp top)
    · next inner => exact .abortInner id tx found (by simpa [Option.isSome_iff_ne_none] using inner)
  | commitInner id =>
    simp only [step, Option.bind_eq_bind, Option.bind_eq_some_iff, Option.pure_def, Option.some.injEq] at taken
    obtain ⟨inner, found, parent, nested, outer, enclosing, rfl⟩ := taken
    exact .commitInner id parent inner outer found nested enclosing
  | beginCommit id =>
    simp only [step, Option.bind_eq_bind, Option.bind_eq_some_iff] at taken
    obtain ⟨tx, found, taken⟩ := taken
    split at taken
    · contradiction
    · next top =>
      have root : tx.target = none := by simpa using top
      split at taken
      · next unusable => cases taken; exact .commitFinished id tx found root unusable
      · next live =>
        split at taken
        · contradiction
        · next unlocked =>
          cases taken
          simp only [commitLocked, Bool.or_eq_true, not_or, Bool.not_eq_true, Option.isSome_eq_false_iff,
            Option.isNone_iff_eq_none] at unlocked
          refine .beginCommit id tx found root (by simpa using live) unlocked.1 fun installed => ?_
          rw [installed] at unlocked
          simp at unlocked
  | checkCommit =>
    simp only [step] at taken
    split at taken
    · next id tx current =>
      obtain ⟨phase, verdict, same⟩ := kv.checkCommit_cases id tx
      cases taken
      exact same ▸ .checkCommit id tx phase current verdict
    · contradiction
  | writeLog ioError =>
    simp only [step] at taken
    split at taken
    · next id tx current =>
      obtain ⟨log, phase, wrote, outcome⟩ := kv.writeLog_cases id tx ioError
      cases taken
      exact wrote ▸ .writeLog id tx ioError log phase current wrote outcome
    · contradiction
  | applyCommit | endCommit | flushFailed | publish | mergeFailed | installMerge =>
    -- the one branch that is not refused
    simp only [step] at taken
    split at taken
    · cases taken
      constructor
      assumption
    · contradiction
  | startCompact =>
    simp only [step] at taken
    split at taken
    · next idle =>
      split at taken
      · next closed => cases taken; exact .compactClosed idle closed
      · cases taken; exact .startCompact idle
    · contradiction
  | flush =>
    simp only [step] at taken
    split at taken
    · next memSize started =>
      split at taken
      · cases taken
        rw [freeze]
        split
        · exact .skipFlush memSize started
        · exact .flush memSize started
      · cases taken; exact .skipFlush memSize started
    · contradiction
  | pickMerge =>
    simp only [step] at taken
    split at taken
    · next choosing =>
      cases taken
      rw [pickMerge]
      split
      · exact .skipMerge choosing
      · split
        · next old1 old2 first second => exact .pickMerge _ old1 old2 choosing first second
        · exact .skipMerge choosing
    · contradiction
  | install =>
    simp only [step] at taken
    split at taken
    · next version frozen drop published =>
      split at taken
      · contradiction
      · next free => cases taken; exact .install version frozen drop published (by simpa using free)
    · contradiction
  | rewriteLog ioError =>
    simp only [step] at taken
    split at taken
    · next installed =>
      cases ioError with
      | some left => cases taken; exact .rewriteFailed left installed
      | none => cases taken; exact .rewriteLog installed
    · contradiction
  | beginClose =>
    simp only [step] at taken
    split at taken
    · next closed => cases taken; exact .closeAgain closed
    · cases taken; exact .beginClose
  | endClose =>
    simp only [step] at taken
    split at taken
    · next idle =>
      split at taken
      · next both =>
        cases taken
        rw [Bool.and_eq_true, List.isEmpty_iff] at both
        exact .endClose idle both.1 both.2
      · contradiction
    · contradiction
  | openStore =>
    simp only [step] at taken
    split at taken
    · next idle =>
      split at taken
      · contradiction
      · next settled =>
        cases taken
        simp only [Bool.or_eq_true, not_or, Bool.not_eq_true, Option.isSome_eq_false_iff,
          Option.isNone_iff_eq_none] at settled
        exact .openStore idle settled.1 settled.2
    · contradiction

theorem idle_ne {id other : ℕ} {tx : KVTX} (found : kv.idleTx id = some tx) (busy : kv.busy other = true) :
    id ≠ other := by
  rintro rfl
  rw [(idleTx_eq_some.mp found).1] at busy
  contradiction

end KV

/-- Calls on transactions that do not reach the critical section of `Commit`. -/
def KVEvent.client : KVEvent → Bool
  | .newTX | .newInnerTX _ | .setEx .. | .del .. | .abort _ | .commitInner _ => true
  | _ => false

/-- Such a call changes transactions only, and none that is committing. -/
theorem KV.client_cases {options : KVOptions} {target : KV} {event : KVEvent} (client : event.client = true)
    (taken : kv.step options event = some target) :
    ∃ txs ongoing history, target = { kv with txs := txs, ongoing := ongoing, history := history } ∧
      ∀ (id : ℕ) (tx : KVTX), kv.busy id = true → kv.txs[id]? = some tx → txs[id]? = some tx := by
  have appended (new : KVTX) (id : ℕ) (tx : KVTX) (_ : kv.busy id = true) (there : kv.txs[id]? = some tx) :
      (kv.txs ++ [new])[id]? = some tx := by
    rw [List.getElem?_append_left (List.getElem?_eq_some_iff.mp there).1, there]
  have changed {own : ℕ} {old : KVTX} (found : kv.idleTx own = some old) (new : KVTX) (id : ℕ) (tx : KVTX)
      (busy : kv.busy id = true) (there : kv.txs[id]? = some tx) : (kv.txs.set own new)[id]? = some tx := by
    rw [List.getElem?_set_ne (idle_ne found busy), there]
  cases step_cases taken with
  | newTX =>
    rw [newTX]
    split <;> exact ⟨_, _, _, rfl, appended _⟩
  | newInnerTX parent tx found => exact ⟨_, _, _, rfl, appended _⟩
  | setEx id tx key val mode found =>
    rcases kv.setEx_stages id tx key val mode with same | ⟨-, updates, same⟩ <;> rw [same]
    · exact ⟨_, _, _, rfl, fun _ _ _ there => there⟩
    · exact ⟨_, _, _, rfl, changed found _⟩
  | del id tx key found =>
    rcases kv.del_stages id tx key with same | ⟨-, updates, same⟩ <;> rw [same]
    · exact ⟨_, _, _, rfl, fun _ _ _ there => there⟩
    · exact ⟨_, _, _, rfl, changed found _⟩
  | abort id tx found =>
    rw [untrack]
    split
    · exact ⟨_, _, _, rfl, changed found _⟩
    · exact ⟨_, _, _, rfl, fun _ _ _ there => there⟩
  | abortInner => exact ⟨_, _, _, rfl, fun _ _ _ there => there⟩
  | commitInner id parent inner outer found nested enclosing =>
    rw [applyInner]
    split
    · exact ⟨_, _, _, rfl, fun _ _ _ there => there⟩
    · exact ⟨_, _, _, rfl, changed enclosing _⟩
  | _ => simp [KVEvent.client] at client

end PallasDB
