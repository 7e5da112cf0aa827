import PallasDB.Cluster.CommandCodec
import PallasDB.Cluster.Restart

/-! # Applying raft entries

`FSM.Apply` gets the bytes of a command. The limits under which a command enters the log are those of
`EncodeCommand`. They are checked again by the decoder and, on the staged slots, by the storage engine, and
neither of these checks follows from the first one: a put may have a mode that no replica decodes, or a key and
a value that fit one by one but not in one log record. Either aborts every replica.
-/

namespace PallasDB

open SortedRun VersionedMap

/-- What the process aborts with at a raft entry. -/
inductive EntryAbort where
  | undecodable (index : ℕ) (err : DecodeError)
  | fatal (fatal : Fatal)
deriving DecidableEq, Repr

/-- `FSM.Apply`. -/
def FSM.applyEntry (unmarshal : Bytes → Option Command) (fsm : FSM) (index : ℕ) (data : Bytes) :
    Except EntryAbort (FSM × FSMResult) :=
  match decodeCommand unmarshal data with
  | .error err => .error (.undecodable index err)
  | .ok cmd => (fsm.apply index cmd).mapError .fatal

/-! ## The writes of an encoded command -/

theorem Mutation.writes_meaning (i : ℕ) (batch : List Mutation) :
    Mutation.writes i (batch.map meaning) = Mutation.writes i batch := by
  induction batch generalizing i with
  | nil => rfl
  | cons mutation rest ih =>
    rw [List.map_cons, Mutation.writes, Mutation.writes, op_meaning, ih]
    cases kind : mutation.op with
    | put => rw [meaning_put kind]
    | del => simp [meaning, kind]
    | batch | unknown name => rfl

namespace Command

/-- Encoding and decoding do not change what a command stands for. -/
theorem writes_canonical (cmd : Command) : cmd.canonical.writes = cmd.writes := by
  unfold canonical
  cases kind : cmd.op with
  | batch => simp [writes, kind, Mutation.writes_meaning]
  | put | del | unknown name => simp [writes, kind, Mutation.meaning]

theorem changes_canonical (cmd : Command) : cmd.canonical.changes = cmd.changes := by
  rw [changes, writes_canonical, changes]

theorem Encodable.writes_known {cmd : Command} (encodable : cmd.Encodable) : ∃ plan, cmd.writes = .ok plan := by
  have batchKnown (i : ℕ) (batch : List Mutation) (valid : ∀ mutation ∈ batch, mutation.Valid) :
      ∃ plan, Mutation.writes i batch = .ok plan := by
    induction batch generalizing i with
    | nil => exact ⟨_, rfl⟩
    | cons mutation rest ih =>
      simp only [List.forall_mem_cons] at valid
      obtain ⟨plan, later⟩ := ih (i + 1) valid.2
      rw [Mutation.writes, later]
      rcases valid.1.op with put | del
      · rw [put]
        dsimp only
        split <;> exact ⟨_, rfl⟩
      · rw [del]
        exact ⟨_, rfl⟩
  have valid := encodable.valid
  rw [writes]
  cases kind : cmd.op with
  | put | del => exact ⟨_, rfl⟩
  | batch =>
    rw [mutations, kind] at valid
    exact batchKnown 0 cmd.batch valid
  | unknown name =>
    have coded := encodable.op
    rw [kind] at coded
    contradiction

/-- A command this binary knows is applied unless it stages a slot that is too large. -/
theorem effect_known {cmd : Command} {plan : Except FSMError (List TxWrite)} (known : cmd.writes = .ok plan)
    (contents : KVMap) (index : ℕ) :
    if oversize (TxWrite.stageAll contents [] cmd.changes).1
    then cmd.effect contents index = .error (cmd.tooLarge index)
    else ∃ next, cmd.effect contents index = .ok next := by
  rw [effect, changes, known]
  cases plan with
  | error err => exact ⟨_, rfl⟩
  | ok planned =>
    dsimp only
    split
    · rfl
    · exact ⟨_, rfl⟩

end Command

namespace FSM

variable {options : KVOptions} {initial : KVMap} {journal : KVJournal} {fsm : FSM} {cmd : Command}

/-- What becomes of an entry that decodes. -/
theorem applyEntry_narrow (unmarshal : Bytes → Option Command) (opened : fsm.closed = false)
    (ready : KV.Ready options initial fsm.store journal) (encodable : cmd.Encodable)
    (ranged : ∀ mutation ∈ cmd.mutations, mutation.mode < 2 ^ 63)
    (narrow : ∀ mutation ∈ cmd.mutations, mutation.Narrow) (index : ℕ) :
    if oversize (TxWrite.stageAll fsm.contents [] cmd.changes).1 then
      fsm.applyEntry unmarshal index cmd.bytes = .error (.fatal (cmd.canonical.tooLarge index))
    else ∃ next result, fsm.applyEntry unmarshal index cmd.bytes = .ok (next, result) := by
  have decoded := decodeCommand_bytes unmarshal encodable ranged
  rw [if_pos narrow] at decoded
  obtain ⟨plan, known⟩ := encodable.writes_known
  have effect := Command.effect_known (cmd.writes_canonical.trans known) fsm.contents index
  have realizes := applyCommand_effect opened ready index cmd.canonical
  rw [Command.changes_canonical] at effect
  rw [applyEntry, decoded]
  dsimp only
  rw [apply]
  split at effect
  · next large =>
    rw [if_pos large]
    rw [effect] at realizes
    generalize fsm.applyCommand index cmd.canonical = outcome at realizes
    cases realizes
    rfl
  · next fits =>
    rw [if_neg fits]
    obtain ⟨next, applied⟩ := effect
    rw [applied] at realizes
    generalize fsm.applyCommand index cmd.canonical = outcome at realizes
    cases realizes
    exact ⟨_, _, rfl⟩

/-- An encoded command is applied and returns a result exactly when the modes of its puts have at most 32 bits
and no slot that it stages over the contents of the store is too large for a log record. -/
theorem applyEntry_returns_iff (unmarshal : Bytes → Option Command) (opened : fsm.closed = false)
    (ready : KV.Ready options initial fsm.store journal) {data : Bytes} (encoded : encodeCommand cmd = .ok data)
    (ranged : ∀ mutation ∈ cmd.mutations, mutation.mode < 2 ^ 63) (index : ℕ) :
    (∃ next result, fsm.applyEntry unmarshal index data = .ok (next, result)) ↔
      (∀ mutation ∈ cmd.mutations, mutation.Narrow) ∧
        oversize (TxWrite.stageAll fsm.contents [] cmd.changes).1 = false := by
  obtain ⟨encodable, rfl⟩ := (encodeCommand_iff cmd data).mp encoded
  by_cases narrow : ∀ mutation ∈ cmd.mutations, mutation.Narrow
  · have outcome := applyEntry_narrow unmarshal opened ready encodable ranged narrow index
    split at outcome
    · next large => simp [outcome, large]
    · next fits => exact iff_of_true outcome ⟨narrow, by simpa using fits⟩
  · have decoded := decodeCommand_bytes unmarshal encodable ranged
    rw [if_neg narrow] at decoded
    obtain ⟨err, failed⟩ := decoded
    simp [applyEntry, failed, narrow]

theorem applyEntry_returns_mixedBatch : ∃ data, encodeCommand mixedBatch = .ok data ∧
    ∃ next result, fresh.applyEntry (fun _ => none) 1 data = .ok (next, result) := by
  refine ⟨mixedBatch.bytes, by decide, ?_⟩
  exact (applyEntry_returns_iff (fun _ => none) rfl (ready_fresh .eager) (show encodeCommand mixedBatch = _ by decide)
    (by decide) 1).mpr ⟨by decide, by decide⟩

/-- A put of the key that is the byte one. -/
def upsert (val : Bytes) : Command := ⟨.put, [1], val, 1, []⟩

theorem upsert_encodable {val : Bytes} (small : val.length ≤ maxValueLen) : (upsert val).Encodable where
  op := rfl
  counted := nofun
  valid := by
    intro mutation member
    rw [List.mem_singleton.mp member]
    exact ⟨.inl rfl, by simp [upsert, maxKeyLen], small, nofun, by simp [upsert]⟩

/-- A value of the largest size that a command may carry is encoded, and every replica aborts on it. -/
theorem upsert_aborts (unmarshal : Bytes → Option Command) {val : Bytes} (full : val.length = maxValueLen) :
    ∃ data, encodeCommand (upsert val) = .ok data ∧ ∀ index, fresh.applyEntry unmarshal index data =
      .error (.fatal (.put index (.commit .entryTooLarge))) := by
  have encodable := upsert_encodable full.le
  refine ⟨(upsert val).bytes, (encodeCommand_iff _ _).mpr ⟨encodable, rfl⟩, fun index => ?_⟩
  have mode : ∀ mutation ∈ (upsert val).mutations, mutation.mode = 1 := by
    intro mutation member
    rw [List.mem_singleton.mp member]
    rfl
  have outcome := applyEntry_narrow unmarshal rfl (ready_fresh .eager) encodable
    (fun mutation member => by rw [mode mutation member]; decide)
    (fun mutation member _ => by rw [mode mutation member]; decide) index
  have staged : (TxWrite.stageAll fresh.contents [] (upsert val).changes).1 = [⟨[1], some val⟩] := by
    rw [contents_fresh]
    rfl
  have large : oversize [⟨[1], some val⟩] = true := by
    simp [oversize, slotSize, full, maxEntrySize, maxValueLen]
  rw [staged, if_pos large] at outcome
  exact outcome

theorem fullValue_aborts : ∃ data, encodeCommand (upsert (List.replicate maxValueLen 0)) = .ok data ∧
    ∀ index, fresh.applyEntry (fun _ => none) index data = .error (.fatal (.put index (.commit .entryTooLarge))) :=
  upsert_aborts (fun _ => none) List.length_replicate

end FSM

end PallasDB
