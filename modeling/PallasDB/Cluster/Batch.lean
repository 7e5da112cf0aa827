import PallasDB.Cluster.CommandCodec
import PallasDB.Cluster.Restart

/-! # A batch and its mutations one by one

`FSM.applyBatch` stages the mutations of a batch in one transaction, where every conditional mode reads what
the mutations before it staged. Single commands commit each mutation before the next one is looked at. Both
ways lead to the same contents as long as every mutation that takes effect has room in a log record: a single
command commits a value that a batch may overwrite before it is committed.
-/

namespace PallasDB

open SortedRun VersionedMap

variable {batch : List Mutation} {changes : List TxWrite}

namespace Mutation

/-- The command that consists of the mutation alone. -/
def single (mutation : Mutation) : Command := ⟨mutation.op, mutation.key, mutation.val, mutation.mode, []⟩

/-- A put or a delete. -/
def known (mutation : Mutation) : Bool := mutation.op = .put || mutation.op = .del

/-- Only puts have a mode. -/
def validMode (mutation : Mutation) : Bool :=
  match mutation.op with
  | .put => (updateMode mutation.mode).isOk
  | _ => true

/-- The write that the mutation alone stands for. -/
def Plans (mutation : Mutation) (write : TxWrite) : Prop := mutation.single.writes = .ok (.ok [write])

/-- A batch of valid mutations stands for their writes. -/
theorem writes_valid (known : ∀ mutation ∈ batch, mutation.known = true)
    (valid : ∀ mutation ∈ batch, mutation.validMode = true) (i : ℕ) :
    ∃ changes, writes i batch = .ok (.ok changes) ∧ List.Forall₂ Plans batch changes := by
  induction batch generalizing i with
  | nil => exact ⟨[], rfl, .nil⟩
  | cons mutation rest ih =>
    obtain ⟨kind, knownRest⟩ := List.forall_mem_cons.mp known
    obtain ⟨here, validRest⟩ := List.forall_mem_cons.mp valid
    obtain ⟨later, planned, plans⟩ := ih knownRest validRest (i + 1)
    rw [writes, planned]
    cases op : mutation.op with
    | put =>
      cases mode : updateMode mutation.mode with
      | error err => simp [validMode, op, mode, Except.isOk, Except.toBool] at here
      | ok mode' =>
        exact ⟨_, rfl, .cons (by simp [Plans, Command.writes, single, op, mode, Except.map]) plans⟩
    | del =>
      exact ⟨_, rfl, .cons (by simp [Plans, Command.writes, single, op]) plans⟩
    | batch => simp [Mutation.known, op] at kind
    | unknown name => simp [Mutation.known, op] at kind

/-- A batch is rejected for its first put with an invalid mode. -/
theorem writes_invalid (known : ∀ mutation ∈ batch, mutation.known = true)
    (invalid : ¬∀ mutation ∈ batch, mutation.validMode = true) (i : ℕ) :
    ∃ before mutation rest err, batch = before ++ mutation :: rest ∧
      (∀ other ∈ before, other.validMode = true) ∧ mutation.op = .put ∧ updateMode mutation.mode = .error err ∧
      writes i batch = .ok (.error (.batchMutation (i + before.length) err)) := by
  induction batch generalizing i with
  | nil => exact absurd (by simp) invalid
  | cons mutation rest ih =>
    obtain ⟨kind, knownRest⟩ := List.forall_mem_cons.mp known
    -- a valid mutation in front hands over to the rest
    have later (valid : mutation.validMode = true) (write : TxWrite)
        (planned : writes i (mutation :: rest) = (writes (i + 1) rest).map fun later => later.map (write :: ·)) :
        ∃ before mutation' rest' err, mutation :: rest = before ++ mutation' :: rest' ∧
          (∀ other ∈ before, other.validMode = true) ∧ mutation'.op = .put ∧
          updateMode mutation'.mode = .error err ∧
          writes i (mutation :: rest) = .ok (.error (.batchMutation (i + before.length) err)) := by
      have remains : ¬∀ other ∈ rest, other.validMode = true :=
        fun all => invalid (List.forall_mem_cons.mpr ⟨valid, all⟩)
      obtain ⟨before, first, after, err, rfl, front, op, mode, rejected⟩ :=
        ih knownRest remains (i + 1)
      refine ⟨mutation :: before, first, after, err, rfl, List.forall_mem_cons.mpr ⟨valid, front⟩, op, mode, ?_⟩
      rw [planned, rejected, List.length_cons, Nat.add_right_comm, Nat.add_assoc]
      rfl
    cases op : mutation.op with
    | put =>
      cases mode : updateMode mutation.mode with
      | error err =>
        simp [writes, op, mode]
      | ok mode' =>
        refine later ?_ (.set mutation.key mutation.val mode') ?_
        · simp [validMode, op, mode, Except.isOk, Except.toBool]
        · simp [writes, op, mode]
    | del =>
      refine later ?_ (.del mutation.key) ?_
      · simp [validMode, op]
      · simp [writes, op]
    | batch => simp [Mutation.known, op] at kind
    | unknown name => simp [Mutation.known, op] at kind

end Mutation

namespace FSM

/-- The mutations applied as single commands, one log entry each. -/
def applySingles (fsm : FSM) : ℕ → List Mutation → Except Fatal (FSM × List FSMResult)
  | _, [] => .ok (fsm, [])
  | index, mutation :: rest => do
      let (next, result) ← fsm.apply index mutation.single
      let (final, results) ← next.applySingles (index + 1) rest
      return (final, result :: results)

variable {options : KVOptions} {initial : KVMap} {fsm : FSM} {journal : KVJournal}

/-- A command whose writes have room. -/
theorem apply_changes (opened : fsm.closed = false) (ready : KV.Ready options initial fsm.store journal) (index : ℕ)
    {cmd : Command} (planned : cmd.writes = .ok (.ok changes))
    (room : oversize (TxWrite.stageAll fsm.contents [] changes).1 = false) :
    ∃ after later, fsm.apply index cmd = .ok (after, ⟨(TxWrite.stageAll fsm.contents [] changes).2, none⟩) ∧
      after.contents = overlay fsm.contents (TxWrite.stageAll fsm.contents [] changes).1 ∧
      after.closed = false ∧ KV.Ready options initial after.store later := by
  have outcome := applyCommand_effect opened ready index cmd
  have effect : cmd.effect fsm.contents index =
      .ok (overlay fsm.contents (TxWrite.stageAll fsm.contents [] changes).1,
        ⟨(TxWrite.stageAll fsm.contents [] changes).2, none⟩) := by
    simp only [Command.effect, planned, room, Bool.false_eq_true, if_false]
  rw [effect] at outcome
  rw [apply]
  generalize fsm.applyCommand index cmd = applied at outcome
  generalize target : overlay fsm.contents (TxWrite.stageAll fsm.contents [] changes).1 = contents at outcome
  cases outcome with
  | done store result later rested => exact ⟨_, later, rfl, rfl, opened, rested⟩

/-- A command whose writes have no room aborts the process. -/
theorem apply_refused (opened : fsm.closed = false) (ready : KV.Ready options initial fsm.store journal) (index : ℕ)
    {cmd : Command} (planned : cmd.writes = .ok (.ok changes))
    (large : oversize (TxWrite.stageAll fsm.contents [] changes).1 = true) :
    ∃ fatal, fsm.apply index cmd = .error fatal := by
  have outcome := applyCommand_effect opened ready index cmd
  obtain ⟨fatal, effect⟩ : ∃ fatal, cmd.effect fsm.contents index = .error fatal := by
    simp only [Command.effect, planned, large, if_true]
    exact ⟨_, rfl⟩
  rw [effect] at outcome
  rw [apply]
  generalize fsm.applyCommand index cmd = applied at outcome
  cases outcome with
  | fatal => exact ⟨_, rfl⟩

/-- Single commands see the contents that the same mutations staged in a transaction show, until one that takes effect
has no room. -/
theorem applySingles_staged {base : KVMap} {updates : SortedArray}
    (plans : List.Forall₂ Mutation.Plans batch changes) (opened : fsm.closed = false)
    (ready : KV.Ready options initial fsm.store journal) (increasing : Increasing updates)
    (shown : fsm.contents = overlay base updates) (index : ℕ) :
    if TxWrite.allFit fsm.contents changes then
      ∃ final results, fsm.applySingles index batch = .ok (final, results) ∧
        final.contents = overlay base (TxWrite.stageAll base updates changes).1 ∧
        ((TxWrite.stageAll base updates changes).2 = true ↔ ∃ result ∈ results, result.updated = true) ∧
        ∀ result ∈ results, result.err = none
    else ∃ fatal, fsm.applySingles index batch = .error fatal := by
  induction plans generalizing fsm journal updates index with
  | nil => exact ⟨fsm, [], rfl, shown, by simp [TxWrite.stageAll], by simp⟩
  | @cons mutation write batch changes plan plans ih =>
    by_cases fits : write.changes (fsm.contents write.key) = true → write.size ≤ maxEntrySize
    · have small : oversize (TxWrite.stageAll fsm.contents [] [write]).1 = false :=
        TxWrite.oversize_stage increasing_nil rfl fits
      obtain ⟨next, later, applied, contents, stays, rested⟩ := apply_changes opened ready index plan small
      rw [TxWrite.overlay_stageAll increasing_nil, overlay_nil] at contents
      have further : next.contents = write.apply fsm.contents := contents
      -- the command looks at its key in the contents, the mutation in the overlay
      have same : (write.stage fsm.contents []).2 = (write.stage base updates).2 := by
        rw [TxWrite.stage_snd increasing, TxWrite.stage_snd increasing_nil, overlay_nil, shown]
      have reached : next.contents = overlay base (write.stage base updates).1 := by
        rw [further, TxWrite.overlay_stage increasing, shown]
      have rest : TxWrite.allFit fsm.contents (write :: changes) = TxWrite.allFit next.contents changes := by
        rw [TxWrite.allFit, ← further]
        cases effective : write.changes (fsm.contents write.key) with
        | false => rfl
        | true => simp [fits effective]
      have after := ih stays rested (TxWrite.stage_increasing increasing write) reached (index + 1)
      rw [rest]
      split
      · next fitting =>
        rw [if_pos fitting] at after
        obtain ⟨final, results, ran, ends, updated, accepted⟩ := after
        refine ⟨final, ⟨(TxWrite.stageAll fsm.contents [] [write]).2, none⟩ :: results, ?_, ends, ?_, ?_⟩
        · rw [applySingles, applied]
          simp only [bind, Except.bind, ran]
          rfl
        · simp only [TxWrite.stageAll, Bool.or_false, List.exists_mem_cons_iff, same, Bool.or_eq_true, updated]
        · exact List.forall_mem_cons.mpr ⟨rfl, accepted⟩
      · next unfitting =>
        rw [if_neg unfitting] at after
        obtain ⟨fatal, aborted⟩ := after
        refine ⟨fatal, ?_⟩
        rw [applySingles, applied]
        simp only [bind, Except.bind, aborted]
    · obtain ⟨effective, large⟩ := Classical.not_imp.mp fits
      obtain ⟨fatal, aborted⟩ := apply_refused opened ready index plan
        (TxWrite.oversize_of_changes effective (Nat.not_le.mp large))
      rw [if_neg (by simp [TxWrite.allFit, effective, large])]
      exact ⟨fatal, by rw [applySingles, aborted]; rfl⟩

/-- A batch leads to the contents that its mutations lead to one by one exactly if none of these that takes effect is
too large for a log record; a batch with an invalid mode changes nothing and reports the first one. -/
theorem batch_eq_singles (opened : fsm.closed = false) (ready : KV.Ready options initial fsm.store journal) (index : ℕ)
    {cmd : Command} (isBatch : cmd.op = .batch) (known : ∀ mutation ∈ cmd.batch, mutation.known = true) :
    ((∀ mutation ∈ cmd.batch, mutation.validMode = true) →
      ((∃ after updated final results, fsm.apply index cmd = .ok (after, ⟨updated, none⟩) ∧
        fsm.applySingles index cmd.batch = .ok (final, results) ∧ after.contents = final.contents ∧
        (updated = true ↔ ∃ result ∈ results, result.updated = true) ∧ ∀ result ∈ results, result.err = none) ↔
      TxWrite.allFit fsm.contents cmd.changes = true)) ∧
    ((¬∀ mutation ∈ cmd.batch, mutation.validMode = true) →
      ∃ before mutation rest err after, cmd.batch = before ++ mutation :: rest ∧
        (∀ other ∈ before, other.validMode = true) ∧ mutation.op = .put ∧ updateMode mutation.mode = .error err ∧
        fsm.apply index cmd = .ok (after, ⟨false, some (.batchMutation before.length err)⟩) ∧
        after.contents = fsm.contents) := by
  have plan : cmd.writes = Mutation.writes 0 cmd.batch := by rw [Command.writes, isBatch]
  constructor
  · intro valid
    obtain ⟨changes, planned, plans⟩ := Mutation.writes_valid known valid 0
    have same : cmd.changes = changes := by rw [Command.changes, plan, planned]
    have staged := applySingles_staged plans opened ready increasing_nil (overlay_nil fsm.contents).symm index
    rw [same]
    constructor
    · rintro ⟨after, updated, final, results, -, ran, -⟩
      by_contra unfitting
      rw [if_neg unfitting] at staged
      obtain ⟨fatal, aborted⟩ := staged
      rw [ran] at aborted
      contradiction
    · intro fits
      rw [if_pos fits] at staged
      obtain ⟨final, results, ran, ends, updated, accepted⟩ := staged
      obtain ⟨after, _, applied, contents, -⟩ := apply_changes opened ready index (plan.trans planned)
        (TxWrite.oversize_stageAll increasing_nil rfl fits)
      exact ⟨after, _, final, results, applied, ran, contents.trans ends.symm, updated, accepted⟩
  · intro invalid
    obtain ⟨before, mutation, rest, err, split, front, put, mode, rejected⟩ := Mutation.writes_invalid known invalid 0
    rw [Nat.zero_add] at rejected
    have outcome := applyCommand_effect opened ready index cmd
    rw [Command.effect, plan, rejected] at outcome
    generalize applied : fsm.applyCommand index cmd = result at outcome
    generalize same : fsm.contents = contents at outcome
    cases outcome with
    | done store result later rested =>
      refine ⟨before, mutation, rest, err, FSM.advanceApplied { fsm with store := store } index, split, front,
        put, mode, ?_, rfl⟩
      rw [apply, applied]
      rfl

/-- A key is put, put again as an insert, deleted and put as an update. -/
def mixed : Command :=
  ⟨.batch, [], [], 0, [⟨.put, [1], [7], 1⟩, ⟨.put, [1], [8], 2⟩, ⟨.del, [1], [], 9⟩, ⟨.put, [1], [9], 3⟩]⟩

/-- A batch whose second mutation has no valid mode. -/
def badMode : Command := ⟨.batch, [], [], 0, [⟨.put, [1], [7], 1⟩, ⟨.put, [2], [8], 4⟩]⟩

theorem batch_eq_singles_mixed : (∃ after updated final results, fresh.apply 5 mixed = .ok (after, ⟨updated, none⟩) ∧
      fresh.applySingles 5 mixed.batch = .ok (final, results) ∧ after.contents = final.contents ∧
      (updated = true ↔ ∃ result ∈ results, result.updated = true) ∧ ∀ result ∈ results, result.err = none) ∧
    ∃ before mutation rest err after, badMode.batch = before ++ mutation :: rest ∧
      (∀ other ∈ before, other.validMode = true) ∧ mutation.op = .put ∧ updateMode mutation.mode = .error err ∧
      fresh.apply 5 badMode = .ok (after, ⟨false, some (.batchMutation before.length err)⟩) ∧
      after.contents = fresh.contents :=
  ⟨((batch_eq_singles rfl (ready_fresh .eager) 5 rfl (by decide)).1 (by decide)).mpr (by decide +kernel),
    (batch_eq_singles rfl (ready_fresh .eager) 5 rfl (by decide)).2 (by decide)⟩

/-- A value that may have no room in a log record is put and deleted again in the same batch. -/
def putDeleted (val : Bytes) : Command := ⟨.batch, [], [], 0, [⟨.put, [1], val, 1⟩, ⟨.del, [1], [], 0⟩]⟩

private theorem putDeleted_fits (val : Bytes) : oversize (SortedArray.del [⟨[1], some val⟩] [1]).2 = false := by
  have staged : Increasing [(⟨[1], some val⟩ : KVSlot)] := List.pairwise_singleton _ _
  have live : lookup [(⟨[1], some val⟩ : KVSlot)] [1] ≠ some none := by simp [lookup]
  rw [Bool.eq_false_iff, Ne, oversize_iff ((SortedArray.del_increasing_iff staged [1]).mpr live)]
  rintro ⟨key, slot, found, large⟩
  rw [SortedArray.lookup_del staged] at found
  split at found
  · next same =>
    cases found
    subst same
    exact absurd large (by decide)
  · next other =>
    simp [lookup, Ne.symm other] at found

private theorem putDeleted_applies (val : Bytes) :
    ∃ after, fresh.apply 5 (putDeleted val) = .ok (after, ⟨true, none⟩) := by
  have outcome := applyCommand_effect rfl (ready_fresh .eager) 5 (putDeleted val)
  have planned : (putDeleted val).writes = .ok (.ok [.set [1] val .upsert, .del [1]]) := rfl
  have staged : TxWrite.stageAll (fun _ => none) [] [.set [1] val .upsert, .del [1]] =
      ((SortedArray.del [⟨[1], some val⟩] [1]).2, true) := rfl
  rw [contents_fresh, Command.effect, planned] at outcome
  simp only [staged, putDeleted_fits, Bool.false_eq_true, if_false] at outcome
  rw [apply]
  generalize fresh.applyCommand 5 (putDeleted val) = applied at outcome
  generalize overlay (fun _ => none) (SortedArray.del [⟨[1], some val⟩] [1]).2 = contents at outcome
  cases outcome with
  | done store result later rested => exact ⟨_, rfl⟩

private theorem put_aborts {val : Bytes} (large : maxEntrySize ≤ val.length) (rest : List Mutation) :
    fresh.applySingles 5 (⟨.put, [1], val, 1⟩ :: rest) = .error (.put 5 (.commit .entryTooLarge)) := by
  have outcome := applyCommand_effect rfl (ready_fresh .eager) 5 (Mutation.single ⟨.put, [1], val, 1⟩)
  have refused : oversize [⟨[1], some val⟩] = true := by
    have sized : maxEntrySize < slotSize ⟨[1], some val⟩ := Nat.lt_one_add_iff.mpr large
    rw [oversize, List.any_cons, decide_eq_true sized, Bool.true_or]
  have effect : (Mutation.single ⟨.put, [1], val, 1⟩).effect fresh.contents 5 =
    .error (.put 5 (.commit .entryTooLarge)) := by
    rw [contents_fresh]
    exact if_pos refused
  rw [effect] at outcome
  rw [applySingles, apply]
  generalize fresh.applyCommand 5 (Mutation.single ⟨.put, [1], val, 1⟩) = applied at outcome
  cases outcome with
  | fatal => rfl

/-- A batch with a value of the largest size that a command may carry succeeds, while the first of its mutations as a
command of its own aborts the process. -/
theorem putDeleted_succeeds : (∀ mutation ∈ (putDeleted (List.replicate maxValueLen 0)).batch,
      mutation.known = true ∧ mutation.validMode = true) ∧
    (∃ data, encodeCommand (putDeleted (List.replicate maxValueLen 0)) = .ok data) ∧
    (∃ after, fresh.apply 5 (putDeleted (List.replicate maxValueLen 0)) = .ok (after, ⟨true, none⟩)) ∧
    fresh.applySingles 5 (putDeleted (List.replicate maxValueLen 0)).batch =
      .error (.put 5 (.commit .entryTooLarge)) := by
  generalize sized : List.replicate maxValueLen (0 : UInt8) = val
  have full : val.length = maxValueLen := by rw [← sized, List.length_replicate]
  have encodable : (putDeleted val).Encodable := by
    refine ⟨rfl, fun _ => ⟨by simp [putDeleted], by simp [putDeleted, maxBatchMutations]⟩, ?_⟩
    simp only [Command.mutations, putDeleted, List.forall_mem_cons]
    exact ⟨⟨.inl rfl, by simp [maxKeyLen], full.le, by simp, by simp⟩,
      ⟨.inr rfl, by decide, by decide, fun _ => rfl, by decide⟩, by simp⟩
  refine ⟨?_, ⟨_, (encodeCommand_iff _ _).mpr ⟨encodable, rfl⟩⟩, putDeleted_applies val, put_aborts full.ge _⟩
  simp [putDeleted, Mutation.known, Mutation.validMode, updateMode, Except.isOk, Except.toBool]

end FSM

end PallasDB
