import PallasDB.Cluster.Restore
import PallasDB.Lib.Transition

/-! # The state machine of a node over its lifetime

Raft applies entries, takes snapshots and installs them; readers hold the lock of the state machine while they
have a transaction open. `Restore` swaps the store when nobody holds the lock, and waits for the snapshots that
have not been released, as does `Close`. A step after which the process is gone has no successor.
-/

namespace PallasDB

open SortedRun Transition VersionedMap

/-- The state machine with the transactions handed out by `NewTX`, which keep the read lock, and those of
snapshots. -/
structure FSMNode where
  fsm : FSM
  readers : List ℕ
  snapshots : List ℕ

inductive FSMEvent where
  | apply (index : ℕ) (data : Bytes)
  | get (key : Bytes)
  | newTX
  | release (tx : ℕ)
  | snapshot
  | releaseSnapshot (tx : ℕ)
  | compact (event : KVEvent)
  | restore (stream : Bytes) (env : RestoreEnv)
  | close

namespace FSMNode

/-- A node with an empty data directory. -/
def fresh : FSMNode := ⟨.fresh, [], []⟩

def setStore (node : FSMNode) (store : KV) : FSMNode := { node with fsm := { node.fsm with store := store } }

/-- Whether `Restore` waits for a lock or for open transactions. -/
def restoreWaits (options : KVOptions) (node : FSMNode) (stream : Bytes) (env : RestoreEnv) : Bool :=
  match stage options env stream with
  | .error _ => false
  | .ok _ => !env.busy &&
      (!node.readers.isEmpty || !node.fsm.closed && !node.fsm.store.ongoing.isEmpty)

def step (options : KVOptions) (unmarshal : Bytes → Option Command) (node : FSMNode) : FSMEvent → Option FSMNode
  | .apply index data =>
      if node.fsm.store.commitLocked then none
      else
        match node.fsm.applyEntry unmarshal index data with
        | .error _ => none
        | .ok (next, _) => some { node with fsm := next }
  | .get key => some { node with fsm := (node.fsm.get key).1 }
  | .newTX => some { node.setStore node.fsm.store.newTX with readers := node.readers ++ [node.fsm.store.txs.length] }
  | .release tx =>
      if tx ∈ node.readers then
        some { node.setStore (node.fsm.store.abortTX tx) with readers := node.readers.erase tx }
      else none
  | .snapshot =>
      let (next, result) := node.fsm.snapshot
      match result with
      | .error _ => some { node with fsm := next }
      | .ok _ => some { node with fsm := next, snapshots := node.snapshots ++ [node.fsm.store.txs.length] }
  | .releaseSnapshot tx =>
      if tx ∈ node.snapshots then
        some { node.setStore (node.fsm.store.abortTX tx) with snapshots := node.snapshots.erase tx }
      else none
  | .compact event =>
      if event.compacts && event.steady && !node.fsm.store.closed then
        (node.fsm.store.step options event).map node.setStore
      else none
  | .restore stream env =>
      if node.restoreWaits options stream env then none
      else
        match node.fsm.restore options env stream with
        | .error _ => none
        | .ok (next, _) => some { node with fsm := next }
  | .close =>
      if !node.readers.isEmpty then none
      else if node.fsm.closed then some node
      else if !node.fsm.store.ongoing.isEmpty then none
      else some { node with fsm := { node.fsm with closed := true, store := node.fsm.store.close options } }

end FSMNode

/-! ## Steps -/

/-- What a step does to the state machine. -/
inductive FSMStep (options : KVOptions) (unmarshal : Bytes → Option Command) (fsm : FSM) : FSMEvent → FSM → Prop where
  | applied (index : ℕ) (data : Bytes) (next : FSM) (result : FSMResult) (unlocked : fsm.store.commitLocked = false)
      (ran : fsm.applyEntry unmarshal index data = .ok (next, result)) :
        FSMStep options unmarshal fsm (.apply index data) next
  | begun (event : FSMEvent) : FSMStep options unmarshal fsm event { fsm with store := fsm.store.newTX }
  | aborted (event : FSMEvent) (tx : ℕ) : FSMStep options unmarshal fsm event { fsm with store := fsm.store.abortTX tx }
  | read (event : FSMEvent) :
      FSMStep options unmarshal fsm event { fsm with store := fsm.store.newTX.abortTX fsm.store.txs.length }
  | compacted (event : KVEvent) (store : KV) (compacts : event.compacts = true) (steady : event.steady = true)
      (live : fsm.store.closed = false) (taken : fsm.store.step options event = some store) :
      FSMStep options unmarshal fsm (.compact event) { fsm with store := store }
  | restored (stream : Bytes) (env : RestoreEnv) (next : FSM) (result : Except RestoreError Unit)
      (returned : fsm.restore options env stream = .ok (next, result)) :
        FSMStep options unmarshal fsm (.restore stream env) next
  | closed : FSMStep options unmarshal fsm .close { fsm with closed := true, store := fsm.store.close options }
  | same (event : FSMEvent) : FSMStep options unmarshal fsm event fsm

section Steps

variable {options : KVOptions} {unmarshal : Bytes → Option Command} {node target : FSMNode} {event : FSMEvent}

theorem FSMNode.step_cases (taken : node.step options unmarshal event = some target) :
    FSMStep options unmarshal node.fsm event target.fsm := by
  cases event with
  | apply index data =>
    rw [step] at taken
    split at taken
    · contradiction
    next unlocked =>
      split at taken
      · contradiction
      next next result ran =>
        cases taken
        exact .applied index data next result (by simpa using unlocked) ran
  | get key =>
    cases taken
    rw [FSM.get]
    split
    · exact .same _
    · exact .read _
  | newTX =>
    cases taken
    exact .begun _
  | release tx | releaseSnapshot tx =>
    rw [step] at taken
    split at taken
    · cases taken
      exact .aborted _ tx
    · contradiction
  | snapshot =>
    have next : FSMStep options unmarshal node.fsm .snapshot node.fsm.snapshot.1 := by
      rw [FSM.snapshot]
      split
      · exact .same _
      · exact .begun _
    simp only [step] at taken
    split at taken <;> cases taken <;> exact next
  | compact event =>
    rw [step] at taken
    split at taken
    · next enabled =>
      simp only [Bool.and_eq_true, Bool.not_eq_true'] at enabled
      obtain ⟨store, moved, rfl⟩ := Option.map_eq_some_iff.mp taken
      exact .compacted event store enabled.1.1 enabled.1.2 enabled.2 moved
    · contradiction
  | restore stream env =>
    rw [step] at taken
    split at taken
    · contradiction
    split at taken
    · contradiction
    next next result returned =>
      cases taken
      exact .restored stream env next result returned
  | close =>
    rw [step] at taken
    split at taken
    · contradiction
    split at taken
    · cases taken
      exact .same _
    split at taken
    · contradiction
    · cases taken
      exact .closed

end Steps

/-! ## Transactions that only read -/

namespace KV

variable {options : KVOptions} {kv : KV} {contents : KVMap}

theorem newTX_files (kv : KV) : kv.newTX.files = kv.files ∧ kv.newTX.closed = kv.closed := by
  rw [newTX]
  split <;> exact ⟨rfl, rfl⟩

theorem abortTX_files (kv : KV) (id : ℕ) : (kv.abortTX id).files = kv.files ∧ (kv.abortTX id).closed = kv.closed := by
  rw [abortTX, untrack]
  split <;> exact ⟨rfl, rfl⟩

theorem Holds.newTX (holds : kv.Holds options contents) : kv.newTX.Holds options contents := by
  obtain ⟨initial, journal, sound⟩ := holds.sound
  have same : kv.newTX.commit = kv.commit ∧ kv.newTX.tables = kv.tables := by
    rw [KV.newTX]
    split <;> exact ⟨rfl, rfl⟩
  refine ⟨⟨initial, _, sound.step (show KVEvent.steady .newTX = true from rfl) rfl⟩, same.1.trans holds.free, ?_⟩
  rw [same.2]
  exact holds.shows

theorem Holds.abortTX (holds : kv.Holds options contents) (id : ℕ) : (kv.abortTX id).Holds options contents := by
  obtain ⟨initial, journal, sound⟩ := holds.sound
  cases found : kv.txs[id]? with
  | none =>
    have outside : id ∉ kv.ongoing := by simp [sound.conflicts.ongoing, found]
    rw [KV.abortTX, untrack, if_neg outside]
    exact holds
  | some tx =>
    have idle : kv.idleTx id = some tx := idleTx_eq_some.mpr ⟨by simp [busy, holds.free], found⟩
    have taken : kv.step options (.abort id) = some (kv.abortTX id) := by
      simp [step, idle, sound.snapshots.top id tx found, KV.abortTX, handle_eq found]
    refine ⟨⟨initial, _, sound.step (show KVEvent.steady (.abort id) = true from rfl) taken⟩, ?_, ?_⟩
    · rw [KV.abortTX, untrack]
      split <;> exact holds.free
    · rw [KV.abortTX, untrack_tables]
      exact holds.shows

end KV

/-! ## Applying entries -/

namespace FSM

variable {options : KVOptions} {unmarshal : Bytes → Option Command} {fsm next : FSM} {contents : KVMap}

theorem writeTX_dead {kv : KV} {id : ℕ} {err : TXError} (dead : (kv.handle id).err = some err) (write : TxWrite) :
    kv.writeTX id write = .error (.tx err) := by
  have refused (key : Bytes) : kv.get (kv.handle id) key = .error err := by rw [KV.get, dead]
  cases write <;> simp [KV.writeTX, refused]

/-- A command that a closed store survives was rejected before it touched the store. -/
theorem applyCommand_unserved (closed : fsm.store.closed = true) {index : ℕ} {cmd : Command} {store : KV}
    {result : FSMResult} (ran : fsm.applyCommand index cmd = .ok (store, result)) :
    store.files = fsm.store.files ∧ store.closed = fsm.store.closed := by
  have dead := KV.handle_newTX_closed closed
  have refused (write : TxWrite) : (fsm.store.oneShot write).2 = .error (.write (.tx .kvClosed)) := by
    rw [KV.oneShot, writeTX_dead dead]
  rw [applyCommand] at ran
  split at ran
  · contradiction
  cases kind : cmd.op with
  | put =>
    simp only [kind] at ran
    split at ran
    · cases ran
      exact ⟨rfl, rfl⟩
    · split at ran
      · contradiction
      · next accepted =>
        have outcome := congrArg Prod.snd accepted
        rw [refused] at outcome
        contradiction
  | del =>
    simp only [kind] at ran
    split at ran
    · contradiction
    · next accepted =>
      have outcome := congrArg Prod.snd accepted
      rw [refused] at outcome
      contradiction
  | batch =>
    simp only [kind, applyBatch] at ran
    cases mutations : cmd.batch with
    | nil => simp [mutations, applyMutations, KV.commitTX, dead, bind, Except.bind, throw, throwThe,
      MonadExceptOf.throw] at ran
    | cons mutation rest =>
      simp only [mutations, applyMutations, writeTX_dead dead] at ran
      split at ran
      · split at ran
        · cases ran
          obtain ⟨newFiles, newClosed⟩ := fsm.store.newTX_files
          obtain ⟨files, closed⟩ := fsm.store.newTX.abortTX_files fsm.store.txs.length
          exact ⟨files.trans newFiles, closed.trans newClosed⟩
        · contradiction
      · contradiction
      · contradiction
  | unknown name =>
    simp only [kind] at ran
    contradiction

/-- An entry that is applied leaves the store as open or as closed as it was. -/
theorem Live.applyEntry (live : Live options fsm contents) (unlocked : fsm.store.commitLocked = false) {index : ℕ}
    {data : Bytes} {result : FSMResult} (ran : fsm.applyEntry unmarshal index data = .ok (next, result)) :
    (∃ contents, Live options next contents) ∧ next.closed = fsm.closed ∧ next.store.closed = fsm.store.closed := by
  rw [FSM.applyEntry] at ran
  split at ran
  · contradiction
  next cmd decoded =>
    cases applied : fsm.applyCommand index cmd with
    | error fatal => simp [apply, applied, Except.map, Except.mapError] at ran
    | ok pair =>
      obtain ⟨store, done⟩ := pair
      simp only [apply, applied, Except.map, Except.mapError, Except.ok.injEq, Prod.mk.injEq] at ran
      obtain ⟨rfl, rfl⟩ := ran
      cases closed : fsm.store.closed with
      | true =>
        obtain ⟨files, still⟩ := applyCommand_unserved closed applied
        rw [closed] at still
        refine ⟨⟨contents, ?_, live.fits, fun served => ?_⟩, rfl, still⟩
        · change store.files.store.Holds options contents
          rw [files]
          exact live.files
        · have served : store.closed = false := served
          rw [still] at served
          contradiction
      | false =>
        have opened : fsm.closed = false := by
          rw [applyCommand] at applied
          split at applied
          · contradiction
          · simpa using ‹¬fsm.closed = true›
        have holds := live.serves closed
        obtain ⟨initial, journal, sound⟩ := holds.sound
        have ready : KV.Ready options initial fsm.store journal := by
          refine ⟨sound, holds.free, fun installed => ?_⟩
          simp [KV.commitLocked, installed] at unlocked
        have realizes := applyCommand_effect opened ready index cmd
        rw [applied] at realizes
        generalize effect : cmd.effect fsm.contents index = outcome at realizes
        cases realizes with
        | done _ _ later rested =>
          obtain ⟨after, room, -⟩ := Command.effect_ok effect
          have shown : fsm.contents = contents := holds.shows
          have after : store.Holds options (cmd.changes.foldl TxWrite.apply fsm.contents) :=
            ⟨⟨_, _, rested.toSound⟩, rested.free, after⟩
          rw [shown] at after room
          exact ⟨⟨_, after.files_store, Command.effect_fits live.fits room, fun _ => after⟩, rfl, after.opened⟩

theorem Live.setStore (live : Live options fsm contents) {store : KV} (files : store.files = fsm.store.files)
    (closed : store.closed = fsm.store.closed)
    (serves : fsm.store.Holds options contents → store.Holds options contents) :
    Live options { fsm with store := store } contents :=
  ⟨by rw [files]; exact live.files, live.fits, fun served => serves (live.serves (closed.symm.trans served))⟩

theorem live_fresh : Live options FSM.fresh fun _ => none :=
  have holds : FSM.fresh.store.Holds options fun _ => none := KV.holds_fresh
  ⟨holds.files_store, by simp [Fits], fun _ => holds⟩

end FSM

section Invariant

variable {options : KVOptions} {unmarshal : Bytes → Option Command} {fsm next : FSM} {contents : KVMap}
  {event : FSMEvent}

/-- Whatever happens, the files of the store make a store with the same contents. -/
theorem FSM.Live.step (live : Live options fsm contents) (taken : FSMStep options unmarshal fsm event next) :
    ∃ contents, Live options next contents := by
  cases taken with
  | applied index data next result unlocked ran => exact (live.applyEntry unlocked ran).1
  | begun =>
    obtain ⟨files, closed⟩ := fsm.store.newTX_files
    exact ⟨contents, live.setStore files closed KV.Holds.newTX⟩
  | aborted _ tx =>
    obtain ⟨files, closed⟩ := fsm.store.abortTX_files tx
    exact ⟨contents, live.setStore files closed fun holds => holds.abortTX tx⟩
  | read =>
    obtain ⟨newFiles, newClosed⟩ := fsm.store.newTX_files
    obtain ⟨files, closed⟩ := fsm.store.newTX.abortTX_files fsm.store.txs.length
    exact ⟨contents, live.setStore (files.trans newFiles) (closed.trans newClosed) fun holds => holds.newTX.abortTX _⟩
  | compacted event store compacts steady served taken =>
    have after := (live.serves served).step_compacts compacts steady taken
    exact ⟨contents, after.files_store, live.fits, fun _ => after⟩
  | restored stream env next result returned => exact live.restore returned
  | closed =>
    exact ⟨contents, live.files_close, live.fits, fun served => by simp [KV.close_closed] at served⟩
  | same => exact ⟨contents, live⟩

/-- A restore in which closing the live store reports an error. -/
def FSM.losesStore (options : KVOptions) (fsm : FSM) : FSMEvent → Bool
  | .restore stream env =>
      (stage options env stream).isOk && !env.busy && !fsm.closed && !fsm.store.closed && env.fails .closeLive
  | _ => false

/-- The store is open as long as the state machine is. -/
theorem FSM.Live.step_open (live : Live options fsm contents) (opened : fsm.closed = false → fsm.store.closed = false)
    (spared : fsm.losesStore options event = false) (taken : FSMStep options unmarshal fsm event next) :
    next.closed = false → next.store.closed = false := by
  cases taken with
  | applied index data next result unlocked ran =>
    obtain ⟨-, closed, served⟩ := live.applyEntry unlocked ran
    rwa [closed, served]
  | begun => rwa [fsm.store.newTX_files.2]
  | aborted _ tx => rwa [(fsm.store.abortTX_files tx).2]
  | read => rwa [(fsm.store.newTX.abortTX_files _).2, fsm.store.newTX_files.2]
  | compacted event store compacts steady served taken =>
    exact fun _ => ((live.serves served).step_compacts compacts steady taken).opened
  | restored stream env next result returned =>
    cases restore_cases returned with
    | unstaged | busy | closed => exact opened
    | unclosed files staged free open_ served failed =>
      simp [losesStore, staged, Except.isOk, Except.toBool, free, open_, served, failed] at spared
    | recovered => exact fun _ => live.files_close.opened
    | installed files staged =>
      obtain ⟨restored, holds, -⟩ := stage_holds staged
      exact fun _ => holds.opened
  | closed => exact fun still => by simp at still
  | same => exact opened

end Invariant

namespace FSMNode

variable {options : KVOptions} {unmarshal : Bytes → Option Command} {node : FSMNode} {events : List FSMEvent}

theorem live_run (run : run? (step options unmarshal) fresh events = some node) :
    ∃ contents, FSM.Live options node.fsm contents :=
  run?_invariant (fun node => ∃ contents, FSM.Live options node.fsm contents)
    (fun ⟨_, live⟩ taken => live.step (step_cases taken)) ⟨_, FSM.live_fresh⟩ run

/-- A store that is closed, wherever its compaction stands, opens again and shows what the node held exactly if no
table that it leaves has too many keys. -/
theorem close_reopens (run : run? (step options unmarshal) fresh events = some node)
    (opened : node.fsm.store.closed = false) :
    (∃ kv, newKV (some (node.fsm.store.close options).files) = .ok kv ∧ kv.Holds options node.fsm.contents) ↔
      ∀ file ∈ (node.fsm.store.close options).sstables, file.slots.length ≤ maxNKeys := by
  obtain ⟨contents, live⟩ := live_run run
  rw [FSM.contents, (live.serves opened).shows]
  constructor
  · rintro ⟨kv, reopened, -⟩
    exact (newKV_eq_ok.mp reopened).2
  · intro few
    exact ⟨_, newKV_eq_ok.mpr ⟨rfl, few⟩, live.files_close⟩

/-- In every run in which no restore fails to close the live store, the state machine holds an open store until
it is closed. -/
theorem store_open (run : run? (step options unmarshal) fresh events = some node)
    (spared : Meets (step options unmarshal) (fun node event => node.fsm.losesStore options event = false) fresh events)
    (opened : node.fsm.closed = false) : node.fsm.store.closed = false := by
  have invariant := run?_invariant_of_meets
    (fun node => (∃ contents, FSM.Live options node.fsm contents) ∧
      (node.fsm.closed = false → node.fsm.store.closed = false))
    (fun ⟨⟨_, live⟩, opened⟩ spared taken =>
      ⟨live.step (step_cases taken), live.step_open opened spared (step_cases taken)⟩)
    ⟨⟨_, FSM.live_fresh⟩, fun _ => rfl⟩ spared run
  exact invariant.2 opened

/-- A snapshot that is released, and a restore that cannot move the data directory aside. -/
def keptStore : List FSMEvent :=
  [.apply 1 (FSM.upsert [2]).bytes, .snapshot, .releaseSnapshot 1,
    .restore (snapshotStream []) { RestoreEnv.quiet with fails := (· = .stash) }, .get [1]]

theorem store_open_keptStore : ∃ node, run? (step .eager fun _ => none) fresh keptStore = some node ∧
    node.fsm.closed = false ∧ node.fsm.store.closed = false := by
  have reached : (run? (step .eager fun _ => none) fresh keptStore).any (fun node => !node.fsm.closed) = true := by
    decide +kernel
  obtain ⟨node, run, check⟩ := (Option.any_eq_true _ _).mp reached
  have opened : node.fsm.closed = false := by simpa using check
  exact ⟨node, run, opened, store_open run (by decide +kernel) opened⟩

theorem close_reopens_keptStore : ∃ node, run? (step .eager fun _ => none) fresh keptStore = some node ∧
    ∃ kv, newKV (some (node.fsm.store.close .eager).files) = .ok kv ∧ kv.Holds .eager node.fsm.contents := by
  have reached : (run? (step .eager fun _ => none) fresh keptStore).any (fun node => !node.fsm.store.closed &&
      (node.fsm.store.close .eager).sstables.all fun file => decide (file.slots.length ≤ maxNKeys)) = true := by
    decide +kernel
  obtain ⟨node, run, check⟩ := (Option.any_eq_true _ _).mp reached
  simp only [Bool.and_eq_true, Bool.not_eq_true', List.all_eq_true, decide_eq_true_iff] at check
  exact ⟨node, run, (close_reopens run check.1).mpr check.2⟩

/-- A restore on a node with one key, in which closing the live store reports an error. -/
def lostStore : List FSMEvent :=
  [.apply 1 (FSM.upsert [2]).bytes, .restore (snapshotStream []) { RestoreEnv.quiet with fails := (· = .closeLive) }]

theorem lostStore_closed : ∃ node, run? (step .eager fun _ => none) fresh lostStore = some node ∧
    node.fsm.closed = false ∧ node.fsm.store.closed = true := by
  have reached : (run? (step .eager fun _ => none) fresh lostStore).any
      (fun node => !node.fsm.closed && node.fsm.store.closed) = true := by decide +kernel
  obtain ⟨node, run, check⟩ := (Option.any_eq_true _ _).mp reached
  exact ⟨node, run, by simpa using check⟩

/-! ## Failed restores -/

/-- A restore that returns an error leaves what readers see exactly if it stops before the live store is closed,
or if closing that store reports no error and the swap is undone or brings nothing new. -/
theorem failed_restore_unchanged_iff (run : run? (step options unmarshal) fresh events = some node) {env : RestoreEnv}
    {stream : Bytes} {next : FSM} {err : RestoreError}
    (returned : node.fsm.restore options env stream = .ok (next, .error err)) :
    (∀ key, (next.get key).2 = (node.fsm.get key).2) ↔ node.fsm.Spares options env stream := by
  obtain ⟨contents, live⟩ := live_run run
  exact live.failed_restore_iff returned

/-- A node with one key. -/
def oneKey : List FSMEvent := [.apply 1 (FSM.upsert [2]).bytes]

/-- The snapshot of another key. -/
def otherKey : Bytes := snapshotStream (snapshotRecord [3] [4])

/-- The node and the error of a restore that returns one. -/
def reported : Except RestoreFatal (FSM × Except RestoreError Unit) → Option (FSM × RestoreError)
  | .ok (next, .error err) => some (next, err)
  | _ => none

private theorem reported_eq_some {outcome : Except RestoreFatal (FSM × Except RestoreError Unit)} {next : FSM}
    {err : RestoreError} (returned : reported outcome = some (next, err)) : outcome = .ok (next, .error err) := by
  rw [reported.eq_def] at returned
  split at returned
  · cases returned
    rfl
  · contradiction

theorem failed_restore_unchanged_stash : ∃ node next err, run? (step .eager fun _ => none) fresh oneKey = some node ∧
    node.fsm.restore .eager { RestoreEnv.quiet with fails := (· = .stash) } otherKey = .ok (next, .error err) ∧
    ∀ key, (next.get key).2 = (node.fsm.get key).2 := by
  have reached : (run? (step .eager fun _ => none) fresh oneKey).any (fun node => !node.fsm.store.closed &&
      (reported (node.fsm.restore .eager { RestoreEnv.quiet with fails := (· = .stash) } otherKey)).isSome) = true := by
    decide +kernel
  obtain ⟨node, run, check⟩ := (Option.any_eq_true _ _).mp reached
  obtain ⟨served, outcome⟩ := Bool.and_eq_true_iff.mp check
  obtain ⟨⟨next, err⟩, failed⟩ := Option.isSome_iff_exists.mp outcome
  have returned := reported_eq_some failed
  refine ⟨node, next, err, run, returned, (failed_restore_unchanged_iff run returned).mpr ?_⟩
  rw [FSM.Spares]
  split
  · trivial
  · exact .inr (.inr ⟨by simpa using served, by decide, .inl (by decide)⟩)

/-- The parent directory cannot be synced after the restored directory has taken its place. -/
theorem failed_restore_syncParent : ∃ node next, run? (step .eager fun _ => none) fresh oneKey = some node ∧
    node.fsm.restore .eager { RestoreEnv.quiet with fails := (· = .syncParent) } otherKey =
      .ok (next, .error .syncParent) ∧
    (node.fsm.get [1]).2 = .ok (some [2]) ∧ (next.get [1]).2 = .ok none ∧ (next.get [3]).2 = .ok (some [4]) := by
  have reached : (run? (step .eager fun _ => none) fresh oneKey).any (fun node =>
      decide ((node.fsm.get [1]).2 = .ok (some [2])) &&
      (reported (node.fsm.restore .eager { RestoreEnv.quiet with fails := (· = .syncParent) } otherKey)).any
        fun failed => decide (failed.2 = .syncParent) && decide ((failed.1.get [1]).2 = .ok none) &&
          decide ((failed.1.get [3]).2 = .ok (some [4]))) = true := by decide +kernel
  obtain ⟨node, run, check⟩ := (Option.any_eq_true _ _).mp reached
  obtain ⟨before, outcome⟩ := Bool.and_eq_true_iff.mp check
  obtain ⟨⟨next, err⟩, failed, after⟩ := (Option.any_eq_true _ _).mp outcome
  simp only [Bool.and_eq_true, decide_eq_true_eq] at after before
  obtain ⟨⟨rfl, gone⟩, new⟩ := after
  exact ⟨node, next, run, reported_eq_some failed, before, gone, new⟩

/-! ## Snapshot and restore -/

/-- Anything but `Restore` and `Close`. -/
def serving : FSMEvent → Bool
  | .restore _ _ | .close => false
  | _ => true

/-- A node that only serves stays open. -/
theorem serving_step {target : FSMNode} {event : FSMEvent}
    (open_ : (∃ contents, FSM.Live options node.fsm contents) ∧ node.fsm.closed = false ∧ node.fsm.store.closed = false)
    (serves : serving event = true) (taken : node.step options unmarshal event = some target) :
    (∃ contents, FSM.Live options target.fsm contents) ∧ target.fsm.closed = false ∧
    target.fsm.store.closed = false := by
  obtain ⟨⟨contents, live⟩, opened, served⟩ := open_
  have cases := step_cases taken
  have spared : node.fsm.losesStore options event = false := by
    cases event with
    | restore => simp [serving] at serves
    | _ => rfl
  have still : target.fsm.closed = false := by
    generalize target.fsm = next at cases
    cases cases with
    | applied index data next result unlocked ran => rw [(live.applyEntry unlocked ran).2.1, opened]
    | restored | closed => simp [serving] at serves
    | begun | aborted | read | compacted | same => exact opened
  exact ⟨live.step cases, still, live.step_open (fun _ => served) spared cases still⟩

theorem serving_run (run : run? (step options unmarshal) fresh events = some node)
    (serves : ∀ event ∈ events, serving event = true) :
    node.fsm.closed = false ∧ ∃ contents, Fits contents ∧ node.fsm.store.Holds options contents := by
  have start : (∃ contents, FSM.Live options fresh.fsm contents) ∧ fresh.fsm.closed = false ∧
      fresh.fsm.store.closed = false := ⟨⟨_, FSM.live_fresh⟩, rfl, rfl⟩
  obtain ⟨⟨contents, live⟩, opened, served⟩ :=
    run?_invariant_of_meets _ (fun open_ serves taken => serving_step open_ serves taken) start
      (meets_of_forall serves fresh) run
  exact ⟨opened, contents, live.fits, live.serves served⟩

/-- The empty key comes first. -/
theorem lists_nil {slots : KVRun} {view : KVMap} (lists : Lists slots view) {val : Bytes}
    (here : view [] = some val) : ∃ rest, slots = ⟨[], some val⟩ :: rest := by
  have member := (lists.mem_iff [] val).mpr here
  cases slots with
  | nil => exact absurd member List.not_mem_nil
  | cons slot rest =>
    rcases List.mem_cons.mp member with rfl | later
    · exact ⟨rest, rfl⟩
    · exact absurd ((increasing_cons.mp lists.increasing).1 _ later) (List.not_lt_nil _)

/-- Keep what is visited. -/
def visitSlot (visited : KVRun) (key val : Bytes) : Except Empty KVRun :=
  .ok (visited ++ [⟨key, some val⟩])

theorem visitAll_visitSlot {slots : KVRun} (live : ∀ slot ∈ slots, slot.live = true)
    (visited : KVRun) : visitAll visitSlot visited slots = .ok (visited ++ slots) := by
  induction slots generalizing visited with
  | nil => rw [List.append_nil]; rfl
  | cons slot others ih =>
    simp only [List.forall_mem_cons] at live
    obtain ⟨key, val⟩ := slot
    cases val with
    | none => simp [Slot.live] at live
    | some val =>
      have rest := ih live.2 (visited ++ [⟨key, some val⟩])
      rw [List.append_assoc, List.singleton_append] at rest
      exact rest

/-- A snapshot can be taken, written and read back, where it shows the pairs of the store in order, and restoring it
on any state machine leads to the same contents. -/
def Reproduces (fsm : FSM) : Prop :=
  ∃ iter stream pairs, fsm.snapshot.2 = .ok iter ∧ writeSnapshot iter = .ok stream ∧
    readSnapshot visitSlot [] stream = .ok pairs ∧ Lists pairs fsm.contents ∧
    ∀ (options : KVOptions) (other : FSM) (env : RestoreEnv), other.closed = false →
      (∀ call, env.fails call = false) → env.busy = false →
      ∃ next, other.restore options env stream = .ok (next, .ok ()) ∧ next.contents = fsm.contents

/-- A node that has applied commands, and whose pairs fit in one table, can be reproduced exactly if the length of
every key is one that both sides of the snapshot format admit. -/
theorem snapshot_restores_iff (run : run? (step options unmarshal) fresh events = some node)
    (serves : ∀ event ∈ events, serving event = true)
    (few : (livePairs node.fsm.store.tables.levels).length ≤ maxNKeys) :
    Reproduces node.fsm ↔ ∀ key val, node.fsm.contents key = some val → key ≠ [] ∧ key.length ≤ maxKeyLen := by
  obtain ⟨opened, contents, fits, holds⟩ := serving_run run serves
  have shown : node.fsm.contents = contents := holds.shows
  obtain ⟨initial, journal, sound⟩ := holds.sound
  obtain ⟨iter, iterates, lists⟩ := sound.snapshots.iterAll
  rw [holds.shows] at lists
  have taken : node.fsm.snapshot.2 = .ok iter := by
    rw [FSM.snapshot, if_neg (by simp [opened])]
    change node.fsm.store.iterAll.2.mapError _ = _
    rw [iterates]
    rfl
  generalize drained : drain SlotIter.next (fun _ => true) (SlotIter.size iter) iter = slots at lists
  rw [(livePairs_lists sound.snapshots.sorted.tables).unique (holds.shows ▸ lists)] at few
  rw [Reproduces, shown]
  constructor
  · rintro ⟨same, stream, pairs, taken', wrote, read, -, -⟩ key val here
    obtain rfl : iter = same := by simpa [taken] using taken'
    rw [writeSnapshot] at wrote
    cases records : writeSnapshotRecords (SlotIter.size iter) iter with
    | error err => simp [records, Except.map] at wrote
    | ok written =>
      obtain ⟨writable, rfl⟩ := (writeSnapshotRecords_iff _ iter written).mp records
      rw [drained] at writable
      simp only [records, drained, Except.map, Except.ok.injEq] at wrote
      subst wrote
      have member := (lists.mem_iff key val).mpr here
      refine ⟨fun unnamed => ?_, (writable _ member).1⟩
      subst unnamed
      obtain ⟨rest, rfl⟩ := lists_nil lists here
      rw [readSnapshot_zeroKey visitSlot [] rfl (writable _ member)] at read
      cases read
  · intro bounds
    have bounded : ∀ slot ∈ slots, Writable slot ∧ slot.key ≠ [] := by
      rintro ⟨key, _ | val⟩ member
      · exact absurd (lists.live _ member) (by simp [Slot.live])
      · have here := (lists.mem_iff key val).mp member
        have room := fits key val here
        obtain ⟨named, short⟩ := bounds key val here
        have same : maxEntrySize = maxValueLen := rfl
        exact ⟨⟨short, by rw [← same, Option.getD_some]; omega⟩, named⟩
    have writable : ∀ slot ∈ slots, Writable slot := fun slot member => (bounded slot member).left
    have named : ∀ slot ∈ slots, slot.key ≠ [] := fun slot member => (bounded slot member).2
    have records : writeSnapshotRecords (SlotIter.size iter) iter = .ok (snapshotRecords slots) :=
      (writeSnapshotRecords_iff _ iter _).mpr (by rw [drained]; exact ⟨writable, rfl⟩)
    refine ⟨iter, snapshotStream (snapshotRecords slots), slots, taken, by rw [writeSnapshot, records]; rfl, ?_,
      lists, ?_⟩
    · rw [readSnapshot_records visitSlot [] writable named, visitAll_visitSlot lists.live]
      rfl
    · intro others other env still quiet free
      obtain ⟨files, staged, restored, within⟩ := stage_records quiet lists fits writable named
      exact ⟨_, FSM.restore_quiet quiet free still staged fun file member => (within file member).trans few,
        restored.shows⟩

/-- Three keys, of which one is written again and one is deleted. -/
def threeKeys : List FSMEvent :=
  [.apply 1 (FSM.upsert [2]).bytes, .apply 2 (Command.bytes ⟨.put, [2], [5], 1, []⟩),
    .apply 3 (Command.bytes ⟨.put, [3], [6], 1, []⟩), .apply 4 (FSM.upsert [7]).bytes,
    .apply 5 (Command.bytes ⟨.del, [2], [], 0, []⟩)]

theorem snapshot_restores_threeKeys : ∃ node, run? (step .eager fun _ => none) fresh threeKeys = some node ∧
    livePairs node.fsm.store.tables.levels = [⟨[1], some [7]⟩, ⟨[3], some [6]⟩] ∧ Reproduces node.fsm := by
  have reached : (run? (step .eager fun _ => none) fresh threeKeys).map
      (fun node => livePairs node.fsm.store.tables.levels) = some [⟨[1], some [7]⟩, ⟨[3], some [6]⟩] := by
    decide +kernel
  obtain ⟨node, run, pairs⟩ := Option.map_eq_some_iff.mp reached
  have serves : ∀ event ∈ threeKeys, serving event = true := by decide
  obtain ⟨_, _, _, holds⟩ := serving_run run serves
  obtain ⟨_, _, sound⟩ := holds.sound
  have lists : Lists _ node.fsm.contents := livePairs_lists sound.snapshots.sorted.tables
  refine ⟨node, run, pairs, (snapshot_restores_iff run serves (by rw [pairs]; decide)).mpr fun key val here => ?_⟩
  have member := (lists.mem_iff key val).mpr here
  rw [pairs] at member
  have short : ∀ slot ∈ ([⟨[1], some [7]⟩, ⟨[3], some [6]⟩] : KVRun),
      slot.key ≠ [] ∧ slot.key.length ≤ maxKeyLen := by decide
  exact short _ member

/-- A put of the empty key. -/
def emptyKey : List FSMEvent := [.apply 1 (Command.bytes ⟨.put, [], [2], 1, []⟩)]

theorem emptyKey_refused : ∃ node iter stream, run? (step .eager fun _ => none) fresh emptyKey = some node ∧
    (node.fsm.get []).2 = .ok (some [2]) ∧ node.fsm.snapshot.2 = .ok iter ∧ writeSnapshot iter = .ok stream ∧
    readSnapshot visitSlot [] stream = .error (.zeroKey 0) := by
  have reached : (run? (step .eager fun _ => none) fresh emptyKey).any (fun node =>
      decide ((node.fsm.get []).2 = .ok (some [2])) &&
      match node.fsm.snapshot.2 with
      | .error _ => false
      | .ok iter =>
          match writeSnapshot iter with
          | .error _ => false
          | .ok stream => decide (readSnapshot visitSlot [] stream = .error (.zeroKey 0))) = true := by decide +kernel
  obtain ⟨node, run, check⟩ := (Option.any_eq_true _ _).mp reached
  obtain ⟨there, outcome⟩ := Bool.and_eq_true_iff.mp check
  split at outcome
  · contradiction
  next iter taken =>
    split at outcome
    · contradiction
    next stream wrote =>
      exact ⟨node, iter, stream, run, of_decide_eq_true there, taken, wrote, of_decide_eq_true outcome⟩

end FSMNode

end PallasDB
