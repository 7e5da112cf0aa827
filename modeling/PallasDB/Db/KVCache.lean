import PallasDB.Db.KVConflict

/-! # The read cache

`KV.Get` looks a key up in the cache, reads it in a transaction of its own when it is not there, and puts the
value it read into the cache. A commit removes every key it touched after it has updated the memtable. Cached
values stay current as long as no reader fills in a value that has been replaced since it was read; nothing in
the code prevents that.
-/

namespace PallasDB

open SortedRun Transition VersionedMap

/-! ## Machine -/

/-- How far a call of `KV.Get` has come. The transaction it reads in is aborted when it returns. -/
inductive GetPhase where
  | started
  | missed
  | read (tx : ℕ) (result : Except TXError (Option Bytes))
  | filled (tx : ℕ) (result : Except TXError (Option Bytes))
  | done (result : Except TXError (Option Bytes))

/-- A call of `KV.Get`, with the journal of the moment it started. -/
structure GetCall where
  key : Bytes
  since : KVJournal
  phase : GetPhase

/-- The cache is a map that may lose entries at any time. The keys to be removed are those of the commit that has
just updated the memtable. The journal is kept for the specification only. -/
structure CachedKV where
  kv : KV
  cache : KVMap
  stale : List Bytes
  calls : List GetCall
  journal : KVJournal

inductive CacheEvent where
  | kv (event : KVEvent)
  | invalidate
  | evict (key : Bytes)
  | start (key : Bytes)
  | lookup (call : ℕ)
  | snapshot (call : ℕ)
  | fill (call : ℕ)
  | finish (call : ℕ)

/-- Events of top-level transactions, compactions and calls of `KV.Get`. -/
def CacheEvent.online : CacheEvent → Bool
  | .kv event => event.online
  | _ => true

variable {target : CachedKV} {event : KVEvent} {since : KVJournal} {key : Bytes} {call : GetCall}

namespace CachedKV

def setPhase (state : CachedKV) (index : ℕ) (call : GetCall) (phase : GetPhase) : CachedKV :=
  { state with calls := state.calls.set index { call with phase := phase } }

/-- A step of the store itself. `Commit` returns when every key it touched has been removed. -/
def stepKV (options : KVOptions) (state : CachedKV) (event : KVEvent) : Option CachedKV := do
  let next ← state.kv.step options event
  let journal := state.journal ++ state.kv.observe event
  match event with
  | .applyCommit =>
      let (_, tx, _) ← state.kv.committing
      return { state with kv := next, journal := journal, stale := tx.updates.map Slot.key }
  | .endCommit => if state.stale.isEmpty then return { state with kv := next, journal := journal } else none
  | _ => return { state with kv := next, journal := journal }

/-- The snapshot read of `KV.Get`: `NewTX` and `KVTX.Get`. -/
def readSnapshot (state : CachedKV) (index : ℕ) (call : GetCall) : CachedKV :=
  let id := state.kv.txs.length
  let kv := state.kv.newTX
  let result := match kv.txs[id]? with
    | some tx => kv.get tx call.key
    | none => .error .kvClosed
  { state with kv := kv, journal := state.journal ++ state.kv.observe .newTX }.setPhase index call (.read id result)

/-- `tx.Abort` and return. -/
def endGet (options : KVOptions) (state : CachedKV) (index : ℕ) (call : GetCall) (tx : ℕ)
    (result : Except TXError (Option Bytes)) : Option CachedKV :=
  (state.stepKV options (.abort tx)).map fun next => next.setPhase index call (.done result)

def step (options : KVOptions) (state : CachedKV) : CacheEvent → Option CachedKV
  | .kv event => state.stepKV options event
  | .invalidate =>
      match state.stale with
      | [] => none
      | key :: rest => some { state with cache := Function.update state.cache key none, stale := rest }
  | .evict key => some { state with cache := Function.update state.cache key none }
  | .start key => some { state with calls := state.calls ++ [⟨key, state.journal, .started⟩] }
  | .lookup index =>
      match state.calls[index]? with
      | some ⟨key, since, .started⟩ =>
          some (state.setPhase index ⟨key, since, .started⟩
            (match state.cache key with
              | some val => .done (.ok (some val))
              | none => .missed))
      | _ => none
  | .snapshot index =>
      match state.calls[index]? with
      | some ⟨key, since, .missed⟩ => some (state.readSnapshot index ⟨key, since, .missed⟩)
      | _ => none
  | .fill index =>
      match state.calls[index]? with
      | some ⟨key, since, .read tx (.ok (some val))⟩ =>
          some ({ state with cache := Function.update state.cache key (some val) }.setPhase index
            ⟨key, since, .read tx (.ok (some val))⟩ (.filled tx (.ok (some val))))
      | _ => none
  | .finish index =>
      match state.calls[index]? with
      | some ⟨_, _, .read _ (.ok (some _))⟩ => none
      | some ⟨key, since, .read tx result⟩ => state.endGet options index ⟨key, since, .read tx result⟩ tx result
      | some ⟨key, since, .filled tx result⟩ => state.endGet options index ⟨key, since, .filled tx result⟩ tx result
      | _ => none

/-- A reader fills in only what is still the value of the key. -/
def current (state : CachedKV) : CacheEvent → Bool
  | .fill index =>
      match state.calls[index]? with
      | some ⟨key, _, .read _ (.ok (some val))⟩ => decide (state.kv.tables.contents key = some val)
      | _ => true
  | _ => true

def opened (log : List KVSlot) (version : ℕ) (sstables : List SortedFile) : CachedKV :=
  ⟨.opened log version sstables, fun _ => none, [], [], []⟩

/-- What a step of the store does to the cached store. -/
inductive StepKV (options : KVOptions) (state : CachedKV) : KVEvent → CachedKV → Prop
  | applyCommit (next : KV) (id : ℕ) (tx : KVTX) (taken : state.kv.step options .applyCommit = some next)
      (current : state.kv.committing = some (id, tx, .logged)) :
      StepKV options state .applyCommit { state with
        kv := next
        journal := state.journal ++ state.kv.observe .applyCommit
        stale := tx.updates.map Slot.key }
  | other (event : KVEvent) (next : KV) (taken : state.kv.step options event = some next)
      (noCommit : event ≠ .applyCommit) (removed : event = .endCommit → state.stale = []) :
      StepKV options state event { state with kv := next, journal := state.journal ++ state.kv.observe event }

theorem stepKV_cases {options : KVOptions} {state : CachedKV} (moved : state.stepKV options event = some target) :
    StepKV options state event target := by
  obtain ⟨next, taken, rest⟩ := Option.bind_eq_some_iff.mp moved
  cases event with
  | applyCommit =>
    obtain ⟨⟨id, tx, phase⟩, current, same⟩ := Option.bind_eq_some_iff.mp rest
    cases same
    cases KV.step_cases taken with
    | applyCommit other otherTx logged =>
      rw [current] at logged
      cases logged
      exact .applyCommit _ id tx taken current
  | endCommit =>
    dsimp only at rest
    split at rest
    · next removed =>
      cases rest
      exact .other _ next taken nofun fun _ => List.isEmpty_iff.mp removed
    · contradiction
  | _ =>
    cases rest
    exact .other _ next taken nofun nofun

/-! ## Invariant -/

/-- The value of a key at some moment after the commits that had returned by the first of two journals. -/
def Shows (initial : KVMap) (since journal : KVJournal) (key : Bytes) (value : Option Bytes) : Prop :=
  ∃ front, front <+: journal ∧
    (∀ id updates, .committed id updates ∈ since → .finished id (.ok ()) ∈ since → .committed id updates ∈ front) ∧
    contents overlay initial front key = value

/-- What is known of a call. -/
def CallOk (initial : KVMap) (journal : KVJournal) (call : GetCall) : Prop :=
  call.since <+: journal ∧
    match call.phase with
    | .started | .missed => True
    | .read _ result | .filled _ result | .done result =>
        ∃ value, result = .ok value ∧ Shows initial call.since journal call.key value

/-- A value from just before the commit that is removing keys. -/
def Behind (initial : KVMap) (state : CachedKV) (key val : Bytes) : Prop :=
  ∃ id front updates back, state.kv.commit = some ⟨id, .returning (.ok ())⟩ ∧
    state.journal = front ++ .committed id updates :: back ∧ commits back = [] ∧
    contents overlay initial front key = some val

structure CacheInv (initial : KVMap) (state : CachedKV) : Prop where
  snapshots : KV.SnapshotInv initial state.kv state.journal
  conflicts : KV.ConflictInv state.kv state.journal
  cached : ∀ key val, state.cache key = some val →
    state.kv.tables.contents key = some val ∨ key ∈ state.stale ∧ state.Behind initial key val
  locked : state.stale ≠ [] → ∃ id, state.kv.commit = some ⟨id, .returning (.ok ())⟩
  calls : ∀ call ∈ state.calls, CallOk initial state.journal call

section Invariant

variable {initial : KVMap} {options : KVOptions} {state : CachedKV}

theorem Shows.append {journal : KVJournal} {value : Option Bytes} (shows : Shows initial since journal key value)
    (rest : KVJournal) : Shows initial since (journal ++ rest) key value := by
  obtain ⟨front, before, returned, value⟩ := shows
  exact ⟨front, before.trans (List.prefix_append ..), returned, value⟩

theorem CallOk.append {journal : KVJournal} (ok : CallOk initial journal call) (rest : KVJournal) :
    CallOk initial (journal ++ rest) call := by
  obtain ⟨before, result⟩ := ok
  refine ⟨before.trans (List.prefix_append ..), ?_⟩
  cases phase : call.phase with
  | started | missed => trivial
  | read tx result' | filled tx result' | done result' =>
    rw [phase] at result
    obtain ⟨value, same, shows⟩ := result
    exact ⟨value, same, shows.append rest⟩

/-- The contents of now come after everything that has returned. -/
theorem CacheInv.shows_now (inv : CacheInv initial state) (before : since <+: state.journal) (key : Bytes) :
    Shows initial since state.journal key (state.kv.tables.contents key) :=
  ⟨state.journal, List.prefix_rfl, fun _ _ committed _ => before.subset committed, by rw [inv.snapshots.contents]⟩

/-- The commit that is removing keys has not returned. -/
theorem CacheInv.shows_behind (inv : CacheInv initial state) (before : since <+: state.journal) {val : Bytes}
    (behind : state.Behind initial key val) : Shows initial since state.journal key (some val) := by
  obtain ⟨id, front, updates, back, running, split, quiet, value⟩ := behind
  refine ⟨front, split ▸ List.prefix_append .., fun other others committed returned => ?_, value⟩
  have inside := before.subset committed
  rw [split, List.mem_append, List.mem_cons] at inside
  rcases inside with early | last | late
  · exact early
  · cases last
    obtain ⟨tx, found, live, -⟩ := inv.conflicts.committing id _ running
    obtain ⟨place, read⟩ := List.mem_iff_getElem?.mp (before.subset returned)
    obtain ⟨same, isSame, ended, -⟩ := inv.conflicts.results place id _ read
    obtain rfl : same = tx := Option.some.inj (isSame.symm.trans found)
    rw [live] at ended
    contradiction
  · have listed := mem_commits.mpr ⟨other, late⟩
    rw [quiet] at listed
    contradiction

theorem commits_observe (kv : KV) (noCommit : event ≠ .applyCommit) : commits (kv.observe event) = [] := by
  cases event with
  | applyCommit => exact absurd rfl noCommit
  | newTX | setEx | del =>
    rw [KV.observe]
    split <;> rfl
  | beginCommit =>
    rw [KV.observe]
    split <;> rfl
  | endCommit =>
    rw [KV.observe]
    split <;> rfl
  | _ => rfl

/-- A commit that is returning keeps the mutex until it has returned. -/
theorem commit_returning {kv target : KV} (taken : kv.step options event = some target) {id : ℕ}
    {result : Except CommitError Unit} (running : kv.commit = some ⟨id, .returning result⟩)
    (stays : event ≠ .endCommit) : target.commit = some ⟨id, .returning result⟩ := by
  have phase {other : ℕ} {tx : KVTX} {phase : CommitPhase} (current : kv.committing = some (other, tx, phase)) :
      phase = .returning result := by
    have same := (KV.committing_eq_some.mp current).1
    rw [running] at same
    cases same
    rfl
  by_cases client : event.client = true
  · obtain ⟨txs, ongoing, history, rfl, -⟩ := KV.client_cases client taken
    exact running
  cases KV.step_cases taken with
  | newTX | newInnerTX | setEx | del | abort | abortInner | commitInner => simp [KVEvent.client] at client
  | beginCommit _ _ _ _ _ free => simp [free] at running
  | checkCommit _ _ _ current | writeLog _ _ _ _ _ current | applyCommit _ _ current =>
    exact absurd (phase current) (by simp)
  | endCommit => exact absurd rfl stays
  | _ => exact running

section

variable (inv : CacheInv initial state)

include inv

/-- A step of the store keeps the cache coherent. -/
theorem CacheInv.stepKV (online : event.online = true)
    (moved : state.stepKV options event = some target) : CacheInv initial target := by
  cases stepKV_cases moved with
  | applyCommit next id tx taken current =>
    have snapshots := inv.snapshots.step online taken
    have conflicts := inv.conflicts.step inv.snapshots online taken
    have noted : state.kv.observe .applyCommit = [.committed id tx.updates] := by simp [KV.observe, current]
    have shape : next = state.kv.applyCommit id tx := by
      cases KV.step_cases taken with
      | applyCommit other otherTx logged =>
        rw [current] at logged
        cases logged
        rfl
    have idle : state.stale = [] := by
      by_contra busy
      obtain ⟨other, running⟩ := inv.locked busy
      rw [(KV.committing_eq_some.mp current).1] at running
      cases running
    refine ⟨snapshots, conflicts, fun key val hit => ?_, fun _ => ⟨id, by rw [shape]; rfl⟩, fun call member =>
      (inv.calls call member).append _⟩
    have old : state.kv.tables.contents key = some val := by
      rcases inv.cached key val hit with now | ⟨pending, -⟩
      · exact now
      · rw [idle] at pending
        contradiction
    by_cases touched : key ∈ tx.updates.map Slot.key
    · refine .inr ⟨touched, id, state.journal, tx.updates, [], by rw [shape]; rfl, by rw [noted], rfl, ?_⟩
      rw [← inv.snapshots.contents]
      exact old
    · refine .inl ?_
      have untouched : lookup tx.updates key = none := lookup_eq_none.mpr fun slot member same =>
        touched (List.mem_map.mpr ⟨slot, member, same⟩)
      rw [snapshots.contents, noted, contents_committed, ← inv.snapshots.contents, overlay, untouched]
      exact old
  | other event next taken noCommit removed =>
    have snapshots := inv.snapshots.step online taken
    have conflicts := inv.conflicts.step inv.snapshots online taken
    have quiet := commits_observe state.kv noCommit
    have same : next.tables.contents = state.kv.tables.contents := by
      rw [snapshots.contents, inv.snapshots.contents, contents, contents, commits_append, quiet, List.append_nil]
    have stays (busy : state.stale ≠ []) : event ≠ .endCommit := fun ended => busy (removed ended)
    refine ⟨snapshots, conflicts, fun key val hit => ?_, fun busy => ?_, fun call member =>
      (inv.calls call member).append _⟩
    · rcases inv.cached key val hit with now | ⟨pending, id, front, updates, back, running, split, none, value⟩
      · exact .inl (same ▸ now)
      · refine .inr ⟨pending, id, front, updates, back ++ state.kv.observe event,
          commit_returning taken running (stays (List.ne_nil_of_mem pending)), ?_, ?_, value⟩
        · simp [split]
        · rw [commits_append, none, quiet, List.append_nil]
    · obtain ⟨id, running⟩ := inv.locked busy
      exact ⟨id, commit_returning taken running (stays busy)⟩

theorem CacheInv.setPhase (index : ℕ) {phase : GetPhase}
    (ok : CallOk initial state.journal { call with phase := phase }) :
    CacheInv initial (state.setPhase index call phase) where
  snapshots := inv.snapshots
  conflicts := inv.conflicts
  cached := inv.cached
  locked := inv.locked
  calls := fun other member => by
    rcases List.mem_or_eq_of_mem_set member with old | new
    · exact inv.calls other old
    · exact new ▸ ok

/-- Entries may be dropped at any time. -/
theorem CacheInv.drop (key : Bytes) :
    CacheInv initial { state with cache := Function.update state.cache key none } where
  snapshots := inv.snapshots
  conflicts := inv.conflicts
  locked := inv.locked
  calls := inv.calls
  cached := fun other val hit => by
    by_cases same : other = key
    · subst same
      simp at hit
    · dsimp only at hit
      rw [Function.update_of_ne same] at hit
      exact inv.cached other val hit

theorem CacheInv.invalidate {rest : List Bytes} (pending : state.stale = key :: rest) :
    CacheInv initial { state with cache := Function.update state.cache key none, stale := rest } where
  snapshots := inv.snapshots
  conflicts := inv.conflicts
  locked := fun _ => inv.locked (by simp [pending])
  calls := inv.calls
  cached := fun other val hit => by
    by_cases same : other = key
    · subst same
      simp at hit
    · dsimp only at hit
      rw [Function.update_of_ne same] at hit
      rcases inv.cached other val hit with now | ⟨left, behind⟩
      · exact .inl now
      · rw [pending] at left
        exact .inr ⟨(List.mem_cons.mp left).resolve_left same, behind⟩

theorem CacheInv.fill {val : Bytes} (current : state.kv.tables.contents key = some val) :
    CacheInv initial { state with cache := Function.update state.cache key (some val) } where
  snapshots := inv.snapshots
  conflicts := inv.conflicts
  locked := inv.locked
  calls := inv.calls
  cached := fun other found hit => by
    by_cases same : other = key
    · subst same
      dsimp only at hit
      rw [Function.update_self] at hit
      exact .inl (current.trans hit)
    · dsimp only at hit
      rw [Function.update_of_ne same] at hit
      exact inv.cached other found hit

/-- A snapshot read returns the contents of the moment. -/
theorem CacheInv.readSnapshot (index : ℕ) (before : call.since <+: state.journal) :
    CacheInv initial (state.readSnapshot index call) := by
  have moved : state.stepKV .eager .newTX =
      some { state with kv := state.kv.newTX, journal := state.journal ++ state.kv.observe .newTX } := rfl
  have next := inv.stepKV rfl moved
  have noted : state.kv.observe .newTX = [.began state.kv.txs.length] := by simp [KV.observe, inv.snapshots.opened]
  have added : state.kv.newTX.txs[state.kv.txs.length]? = some ⟨state.kv.snapshot, none, [],
      .updates state.kv.txs.length :: state.kv.tables.levels.map .source, none⟩ := by
    simp [KV.newTX, inv.snapshots.opened]
  have fresh : .began state.kv.txs.length ∉ state.journal := fun member =>
    Nat.lt_irrefl _ ((inv.snapshots.began _).mp member)
  have value := (next.snapshots.txReads added rfl).get call.key
  have view : KV.txView initial (state.journal ++ state.kv.observe .newTX) state.kv.txs.length =
      contents overlay initial state.journal := by
    rw [noted]
    exact view_began fresh (inv.snapshots.wrote _ (Nat.le_refl _))
  rw [CachedKV.readSnapshot]
  simp only [added]
  refine next.setPhase index ⟨before.trans (List.prefix_append ..), _, value, ?_⟩
  rw [view, ← inv.snapshots.contents]
  exact (inv.shows_now before call.key).append _

theorem CacheInv.endGet {index : ℕ} {tx : ℕ} {result : Except TXError (Option Bytes)}
    (ok : CallOk initial state.journal { call with phase := .done result })
    (ended : state.endGet options index call tx result = some target) : CacheInv initial target := by
  obtain ⟨next, moved, rfl⟩ := Option.map_eq_some_iff.mp ended
  have after := inv.stepKV (show (KVEvent.abort tx).online = true from rfl) moved
  refine after.setPhase index ?_
  cases stepKV_cases moved with
  | other event kv taken noCommit removed => exact ok.append _

theorem CacheInv.step {event : CacheEvent} (online : event.online = true)
    (current : state.current event = true) (taken : state.step options event = some target) :
    CacheInv initial target := by
  have known {index : ℕ} {call : GetCall} (found : state.calls[index]? = some call) :
      CallOk initial state.journal call := inv.calls call (List.mem_of_getElem? found)
  cases event with
  | kv event => exact inv.stepKV online taken
  | invalidate =>
    simp only [CachedKV.step] at taken
    split at taken
    · contradiction
    · next pending =>
      cases taken
      exact inv.invalidate pending
  | evict key =>
    cases taken
    exact inv.drop key
  | start key =>
    cases taken
    refine ⟨inv.snapshots, inv.conflicts, inv.cached, inv.locked, fun call member => ?_⟩
    rcases List.mem_append.mp member with old | new
    · exact inv.calls call old
    · rw [List.mem_singleton.mp new]
      exact ⟨List.prefix_rfl, trivial⟩
  | lookup index =>
    simp only [CachedKV.step] at taken
    split at taken
    · next key since found =>
      cases taken
      have before := (known found).1
      refine inv.setPhase index ⟨before, ?_⟩
      cases hit : state.cache key with
      | none => trivial
      | some val =>
        refine ⟨some val, rfl, ?_⟩
        rcases inv.cached key val hit with now | ⟨-, behind⟩
        · exact now ▸ inv.shows_now before key
        · exact inv.shows_behind before behind
    · contradiction
  | snapshot index =>
    simp only [CachedKV.step] at taken
    split at taken
    · next key since found =>
      cases taken
      exact inv.readSnapshot index (known found).1
    · contradiction
  | fill index =>
    simp only [CachedKV.step] at taken
    split at taken
    · next key since tx val found =>
      cases taken
      simp only [CachedKV.current, found, decide_eq_true_eq] at current
      have ok := known found
      exact (inv.fill current).setPhase index ok
    · contradiction
  | finish index =>
    simp only [CachedKV.step] at taken
    split at taken
    · contradiction
    · next key since tx result _ found =>
      have ok := known found
      exact inv.endGet ok taken
    · next key since tx result found =>
      have ok := known found
      exact inv.endGet ok taken
    · contradiction

end

end Invariant

theorem cacheInv_opened {log : List KVSlot} {version : ℕ} {sstables : List SortedFile}
    (increasing : ∀ file ∈ sstables, Increasing file.slots) :
    CacheInv (KV.opened log version sstables).tables.contents (opened log version sstables) where
  snapshots := KV.snapshotInv_opened increasing
  conflicts := KV.conflictInv_opened log version sstables
  cached := nofun
  locked := fun busy => absurd rfl busy
  calls := nofun

/-- In every run in which readers fill in only values that are still current, a call of `KV.Get` returns the
value its key had at some moment after every commit that had returned when the call started. -/
theorem get_after_returned (options : KVOptions) (log : List KVSlot) (version : ℕ)
    (sstables : List SortedFile) (increasing : ∀ file ∈ sstables, Increasing file.slots) (events : List CacheEvent)
    (online : ∀ event ∈ events, event.online = true)
    (current : Meets (step options) (fun state event => state.current event = true)
      (opened log version sstables) events)
    (state : CachedKV) (run : run? (step options) (opened log version sstables) events = some state)
    (call : GetCall) (member : call ∈ state.calls) (result : Except TXError (Option Bytes))
    (returned : call.phase = .done result) :
    ∃ value, result = .ok value ∧
      Shows (KV.opened log version sstables).tables.contents call.since state.journal call.key value := by
  have inv := run?_invariant_of_meets (CacheInv (KV.opened log version sstables).tables.contents)
    (fun inv both taken => inv.step both.1 both.2 taken) (cacheInv_opened increasing)
    ((meets_of_forall online _).and current) run
  have ok := (inv.calls call member).2
  rwa [returned] at ok

/-- A transaction that sets a key and commits. -/
def commitSet (id : ℕ) (key val : Bytes) : List CacheEvent :=
  [.kv .newTX, .kv (.setEx id key val .upsert), .kv (.beginCommit id), .kv .checkCommit, .kv (.writeLog none),
    .kv .applyCommit, .invalidate, .kv .endCommit]

/-- A reader fills the cache, a commit removes the entry, and another call reads the new value. -/
def warmThenWrite : List CacheEvent :=
  commitSet 0 [1] [7] ++ [.start [1], .lookup 0, .snapshot 0, .fill 0, .finish 0] ++ commitSet 2 [1] [8] ++
    [.start [1], .lookup 1, .snapshot 1, .fill 1, .finish 1]

theorem get_after_returned_warmThenWrite : (run? (step .eager) (opened [] 0 []) warmThenWrite).isSome ∧
      ∀ state, run? (step .eager) (opened [] 0 []) warmThenWrite = some state →
        ∀ call ∈ state.calls, ∀ result, call.phase = .done result → ∃ value, result = .ok value ∧
          Shows (KV.opened [] 0 []).tables.contents call.since state.journal call.key value :=
  ⟨by decide +kernel, fun state run => get_after_returned .eager [] 0 [] (by simp) warmThenWrite
    (by decide) (by decide +kernel) state run⟩

/-- A slow reader reads before a commit and fills the cache after it has returned. -/
def slowFill : List CacheEvent :=
  commitSet 0 [1] [7] ++ [.start [1], .lookup 0, .snapshot 0] ++ commitSet 2 [1] [8] ++
    [.fill 0, .finish 0, .start [1], .lookup 1]

/-- The commit of the slow run that replaces the value. -/
def replacement : Observation ℕ SortedArray TxWrite (Except CommitError Unit) := .committed 2 [⟨[1], some [8]⟩]

/-- A call that started after the replacement had returned and got the replaced value. -/
def servesOld (state : CachedKV) (call : GetCall) : Bool :=
  decide (call.key = [1]) && decide (replacement ∈ call.since) && decide (.finished 2 (.ok ()) ∈ call.since) &&
    (List.range (state.journal.length + 1)).all fun length =>
      decide (replacement ∈ state.journal.take length →
        contents overlay (KV.opened [] 0 []).tables.contents (state.journal.take length) [1] ≠ some [7])

/-- The value a call has returned. -/
def returnedValue : GetPhase → Option Bytes
  | .done (.ok value) => value
  | _ => none

private theorem done_of_returnedValue {phase : GetPhase} {val : Bytes} (returned : returnedValue phase = some val) :
    phase = .done (.ok (some val)) := by
  rw [returnedValue.eq_def] at returned
  split at returned
  · rw [returned]
  · contradiction

theorem slowFill_servesOld : ∃ state call, run? (step .eager) (opened [] 0 []) slowFill = some state ∧
    state.calls[1]? = some call ∧ call.phase = .done (.ok (some [7])) ∧
    ¬ Shows (KV.opened [] 0 []).tables.contents call.since state.journal call.key (some [7]) := by
  have ran : (run? (step .eager) (opened [] 0 []) slowFill).any (fun state => state.calls[1]?.any fun call =>
      decide (returnedValue call.phase = some [7]) && state.servesOld call) = true := by
    decide +kernel
  obtain ⟨state, run, checked⟩ := (Option.any_eq_true _ _).mp ran
  obtain ⟨call, found, checked⟩ := (Option.any_eq_true _ _).mp checked
  obtain ⟨phase, old⟩ := Bool.and_eq_true_iff.mp checked
  refine ⟨state, call, run, found, done_of_returnedValue (of_decide_eq_true phase), ?_⟩
  · simp only [servesOld, Bool.and_eq_true, decide_eq_true_eq, List.all_eq_true, List.mem_range] at old
    obtain ⟨⟨⟨key, committed⟩, finished⟩, fronts⟩ := old
    rintro ⟨front, before, returned, value⟩
    have short : front.length < state.journal.length + 1 := Nat.lt_succ_of_le before.length_le
    have inside := returned 2 _ committed finished
    rw [List.prefix_iff_eq_take.mp before] at inside value
    rw [key] at value
    exact fronts front.length short inside value

end CachedKV

end PallasDB
