import PallasDB.Cluster.FSMRun

/-! # Replicas of one log

Two nodes apply the same committed entries. Each flushes and merges on its own schedule, and has its own readers and
snapshots. What an entry returns and leaves behind is a function of the contents alone, so every entry returns the
same on both nodes, and they hold the same contents after it.
-/

namespace PallasDB

open Transition

/-- The contents and the result that an entry leads to. -/
def entryEffect (unmarshal : Bytes → Option Command) (contents : KVMap) (index : ℕ) (data : Bytes) :
    Except EntryAbort (KVMap × FSMResult) :=
  match decodeCommand unmarshal data with
  | .error err => .error (.undecodable index err)
  | .ok cmd => (cmd.effect contents index).mapError .fatal

/-- The results of a log and the contents after each of its entries. -/
def replayEntries (unmarshal : Bytes → Option Command) : KVMap → List (ℕ × Bytes) →
    Except EntryAbort (KVMap × List (FSMResult × KVMap))
  | contents, [] => .ok (contents, [])
  | contents, (index, data) :: rest => do
      let (next, result) ← entryEffect unmarshal contents index data
      let (final, later) ← replayEntries unmarshal next rest
      return (final, (result, next) :: later)

def FSMEvent.entry? : FSMEvent → Option (ℕ × Bytes)
  | .apply index data => some (index, data)
  | _ => none

namespace FSMNode

/-- What an entry returns, and the contents after it. -/
def outcome (unmarshal : Bytes → Option Command) (node : FSMNode) (index : ℕ) (data : Bytes) :
    Except EntryAbort (KVMap × FSMResult) :=
  (node.fsm.applyEntry unmarshal index data).map fun (next, result) => (next.contents, result)

/-- The result of an entry that is applied, with the contents after it. -/
def applied (unmarshal : Bytes → Option Command) (node : FSMNode) :
    FSMEvent → List (FSMResult × KVMap)
  | .apply index data =>
      match node.outcome unmarshal index data with
      | .ok (contents, result) => [(result, contents)]
      | .error _ => []
  | _ => []

section

variable {options : KVOptions} {unmarshal : Bytes → Option Command} {node target : FSMNode}
  {contents : KVMap} {event : FSMEvent} {events : List FSMEvent}

/-- A state machine that serves. -/
structure Serves (options : KVOptions) (node : FSMNode) (contents : KVMap) : Prop where
  opened : node.fsm.closed = false
  holds : node.fsm.store.Holds options contents

section

variable (serves : node.Serves options contents)

include serves

theorem Serves.shows : node.fsm.contents = contents := serves.holds.shows

/-- An entry has the effect that the contents determine. -/
theorem Serves.outcome (unlocked : node.fsm.store.commitLocked = false)
    (unmarshal : Bytes → Option Command) (index : ℕ) (data : Bytes) :
    node.outcome unmarshal index data = entryEffect unmarshal contents index data ∧
      ∀ next result, node.fsm.applyEntry unmarshal index data = .ok (next, result) →
        next.closed = false ∧ next.store.Holds options next.contents := by
  obtain ⟨initial, journal, sound⟩ := serves.holds.sound
  have ready : KV.Ready options initial node.fsm.store journal := by
    refine ⟨sound, serves.holds.free, fun installed => ?_⟩
    simp [KV.commitLocked, installed] at unlocked
  rw [FSMNode.outcome, FSM.applyEntry, entryEffect]
  cases decodeCommand unmarshal data with
  | error err => simp [Except.map]
  | ok cmd =>
    have realizes := FSM.applyCommand_effect serves.opened ready index cmd
    rw [serves.shows] at realizes
    simp only [FSM.apply]
    generalize cmd.effect contents index = effect at realizes
    generalize node.fsm.applyCommand index cmd = ran at realizes
    cases realizes with
    | fatal fatal => simp [Except.map, Except.mapError]
    | done store result later rested =>
      refine ⟨rfl, fun next result returned => ?_⟩
      simp only [Except.map, Except.mapError, Except.ok.injEq, Prod.mk.injEq] at returned
      obtain ⟨rfl, rfl⟩ := returned
      exact ⟨serves.opened, ⟨_, _, rested.toSound⟩, rested.free, rfl⟩

/-- Housekeeping leaves the contents alone. -/
theorem Serves.housekeeping (keeps : serving event = true)
    (idle : event.entry? = none) (taken : node.step options unmarshal event = some target) :
    target.Serves options contents := by
  have cases := step_cases taken
  obtain ⟨opened, holds⟩ := serves
  suffices target.fsm.closed = false ∧ target.fsm.store.Holds options contents from ⟨this.1, this.2⟩
  generalize target.fsm = next at cases
  cases cases with
  | applied => simp [FSMEvent.entry?] at idle
  | begun => exact ⟨opened, holds.newTX⟩
  | aborted _ tx => exact ⟨opened, holds.abortTX tx⟩
  | read => exact ⟨opened, holds.newTX.abortTX _⟩
  | compacted event store compacts steady served moved => exact ⟨opened, holds.step_compacts compacts steady moved⟩
  | restored | closed => simp [serving] at keeps
  | same => exact ⟨opened, holds⟩

theorem Serves.apply {index : ℕ} {data : Bytes}
    (taken : node.step options unmarshal (.apply index data) = some target) :
    target.Serves options target.fsm.contents ∧ ∃ result,
      entryEffect unmarshal contents index data = .ok (target.fsm.contents, result) ∧
      node.applied unmarshal (.apply index data) = [(result, target.fsm.contents)] := by
  rw [step] at taken
  split at taken
  · contradiction
  · next unlocked =>
    obtain ⟨effect, after⟩ := serves.outcome (by simpa using unlocked) unmarshal index data
    split at taken
    · contradiction
    · next fsm result ran =>
      cases taken
      obtain ⟨opened, holds⟩ := after fsm result ran
      have outcome : node.outcome unmarshal index data = .ok (fsm.contents, result) := by
        rw [FSMNode.outcome, ran]
        rfl
      exact ⟨⟨opened, holds⟩, result, effect.symm.trans outcome, by rw [applied, outcome]⟩

/-- A run replays the entries on the contents, whatever else happens on the node. -/
theorem Serves.run (keeps : ∀ event ∈ events, serving event = true)
    {journal : List (FSMResult × KVMap)} {final : FSMNode × List (FSMResult × KVMap)}
    (run : run? (journaled (step options unmarshal) (applied unmarshal)) (node, journal) events = some final) :
    final.1.Serves options final.1.fsm.contents ∧ ∃ later, final.2 = journal ++ later ∧
      replayEntries unmarshal contents (events.filterMap FSMEvent.entry?) = .ok (final.1.fsm.contents, later) := by
  induction events generalizing node contents journal with
  | nil =>
    cases run
    rw [serves.shows]
    exact ⟨serves, [], (List.append_nil _).symm, rfl⟩
  | cons event rest ih =>
    rw [List.forall_mem_cons] at keeps
    obtain ⟨⟨next, noted⟩, taken, run⟩ := run?_cons_eq_some.mp run
    obtain ⟨taken, rfl⟩ := journaled_eq_some.mp taken
    cases entry : event.entry? with
    | none =>
      obtain ⟨served, later, journal, replays⟩ := ih (serves.housekeeping keeps.1 entry taken) keeps.2 run
      have nothing : node.applied unmarshal event = [] := by
        cases event with
        | apply => simp [FSMEvent.entry?] at entry
        | _ => rfl
      rw [List.filterMap_cons_none entry]
      exact ⟨served, later, by simpa [nothing] using journal, replays⟩
    | some pair =>
      cases event with
      | apply index data =>
        obtain ⟨served, result, effect, noted⟩ := serves.apply taken
        obtain ⟨served, later, journal, replays⟩ := ih served keeps.2 run
        refine ⟨served, (result, next.fsm.contents) :: later, by simpa [noted] using journal, ?_⟩
        change replayEntries unmarshal contents ((index, data) :: rest.filterMap FSMEvent.entry?) = _
        rw [replayEntries, effect]
        simp only [bind, Except.bind, replays]
        rfl
      | _ => simp [FSMEvent.entry?] at entry

end

/-- However an open node was reached, its entries alone determine what it holds and returns from then on. -/
theorem run_replays {past : List FSMEvent} {final : FSMNode × List (FSMResult × KVMap)}
    (reached : run? (step options unmarshal) fresh past = some node)
    (opened : node.fsm.closed = false ∧ node.fsm.store.closed = false) (keeps : ∀ event ∈ events, serving event = true)
    (run : run? (journaled (step options unmarshal) (applied unmarshal)) (node, []) events = some final) :
    replayEntries unmarshal node.fsm.contents (events.filterMap FSMEvent.entry?) =
      .ok (final.1.fsm.contents, final.2) := by
  obtain ⟨_, live⟩ := live_run reached
  have holds := live.serves opened.2
  obtain ⟨-, later, journal, replays⟩ := Serves.run ⟨opened.1, holds.sound, holds.free, rfl⟩ keeps run
  rw [journal]
  exact replays

end

/-- Two nodes that hold the same contents and apply the same entries, each with its own flushes, merges, readers and
snapshots in between, get the same results and the same contents after every entry; and every further entry has the
same outcome on both. -/
theorem replicas_agree {options others : KVOptions} {unmarshal : Bytes → Option Command}
    {past otherPast events otherEvents : List FSMEvent} {node other : FSMNode}
    {final otherFinal : FSMNode × List (FSMResult × KVMap)}
    (reached : run? (step options unmarshal) fresh past = some node)
    (otherReached : run? (step others unmarshal) fresh otherPast = some other)
    (opened : node.fsm.closed = false ∧ node.fsm.store.closed = false)
    (otherOpened : other.fsm.closed = false ∧ other.fsm.store.closed = false)
    (same : node.fsm.contents = other.fsm.contents)
    (keeps : ∀ event ∈ events, serving event = true) (otherKeeps : ∀ event ∈ otherEvents, serving event = true)
    (log : events.filterMap FSMEvent.entry? = otherEvents.filterMap FSMEvent.entry?)
    (run : run? (journaled (step options unmarshal) (applied unmarshal)) (node, []) events = some final)
    (otherRun : run? (journaled (step others unmarshal) (applied unmarshal))
      (other, []) otherEvents = some otherFinal) :
    final.2 = otherFinal.2 ∧ final.1.fsm.contents = otherFinal.1.fsm.contents ∧
      ∀ index data, final.1.fsm.store.commitLocked = false → otherFinal.1.fsm.store.commitLocked = false →
        final.1.outcome unmarshal index data = otherFinal.1.outcome unmarshal index data := by
  obtain ⟨_, live⟩ := live_run reached
  obtain ⟨_, otherLive⟩ := live_run otherReached
  have serves : node.Serves options node.fsm.contents := by
    have holds := live.serves opened.2
    exact ⟨opened.1, holds.sound, holds.free, rfl⟩
  have otherServes : other.Serves others node.fsm.contents := by
    have holds := otherLive.serves otherOpened.2
    exact ⟨otherOpened.1, holds.sound, holds.free, same.symm⟩
  obtain ⟨served, later, journal, replays⟩ := serves.run keeps run
  obtain ⟨otherServed, otherLater, otherJournal, otherReplays⟩ := otherServes.run otherKeeps otherRun
  rw [log, otherReplays] at replays
  simp only [Except.ok.injEq, Prod.mk.injEq] at replays
  obtain ⟨contents, rfl⟩ := replays
  refine ⟨by rw [journal, otherJournal], contents.symm, fun index data free otherFree => ?_⟩
  rw [(served.outcome free unmarshal index data).1, (otherServed.outcome otherFree unmarshal index data).1, contents]

/-- Two puts of one key with a flush and a snapshot in between. -/
def flushedReplica : List FSMEvent :=
  [.apply 1 (FSM.upsert [2]).bytes, .compact .startCompact, .compact .flush, .compact .publish, .compact .install,
    .compact (.rewriteLog none), .snapshot, .apply 2 (FSM.upsert [3]).bytes]

theorem run_replays_flushed : ∃ final,
    run? (journaled (step .eager fun _ => none) (applied fun _ => none)) (fresh, []) flushedReplica = some final ∧
    replayEntries (fun _ => none) fresh.fsm.contents (flushedReplica.filterMap FSMEvent.entry?) =
      .ok (final.1.fsm.contents, final.2) :=
  (Option.isSome_iff_exists.mp (by decide +kernel)).imp fun _ run =>
    ⟨run, run_replays (run?_nil fresh) ⟨rfl, rfl⟩ (by decide) run⟩

/-- The same two puts under an open reader. -/
def readReplica : List FSMEvent := [.newTX, .apply 1 (FSM.upsert [2]).bytes, .apply 2 (FSM.upsert [3]).bytes]

theorem replicas_agree_flushed : ∃ final otherFinal,
    run? (journaled (step .eager fun _ => none) (applied fun _ => none)) (fresh, []) flushedReplica = some final ∧
    run? (journaled (step .eager fun _ => none) (applied fun _ => none)) (fresh, []) readReplica = some otherFinal ∧
    final.1.fsm.store.tables.main.length = 1 ∧ otherFinal.1.fsm.store.tables.main.length = 0 ∧
    final.2 = otherFinal.2 := by
  have reached : (run? (journaled (step .eager fun _ => none) (applied fun _ => none)) (fresh, []) flushedReplica).any
      (fun final => decide (final.1.fsm.store.tables.main.length = 1)) = true := by decide +kernel
  have otherReached : (run? (journaled (step .eager fun _ => none) (applied fun _ => none)) (fresh, []) readReplica).any
      (fun final => decide (final.1.fsm.store.tables.main.length = 0)) = true := by decide +kernel
  obtain ⟨final, run, flushed⟩ := (Option.any_eq_true _ _).mp reached
  obtain ⟨otherFinal, otherRun, unflushed⟩ := (Option.any_eq_true _ _).mp otherReached
  exact ⟨final, otherFinal, run, otherRun, of_decide_eq_true flushed, of_decide_eq_true unflushed,
    (replicas_agree (run?_nil fresh) (run?_nil fresh) ⟨rfl, rfl⟩ ⟨rfl, rfl⟩ rfl (by decide) (by decide) (by decide)
      run otherRun).1⟩

end FSMNode

end PallasDB
