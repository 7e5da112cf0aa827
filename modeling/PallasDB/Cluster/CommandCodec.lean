import PallasDB.Cluster.FSM
import PallasDB.Lib.Uvarint
import PallasDB.Lib.Program

/-! # Wire format of replicated commands

A command is a magic byte, a version, an opcode and a payload of length-prefixed byte strings. The encoder and
the decoder check lengths, counts and modes separately. They agree on everything but the update mode: the
encoder takes every non-negative mode, the decoder none above 32 bits.
-/

namespace PallasDB

open SortedRun VersionedMap Program

/-! ## Format -/

def commandMagic : UInt8 := 0xC1

def commandVersion : UInt8 := 1

/-- An opening brace. -/
def legacyJSONPrefix : UInt8 := 0x7B

def maxKeyLen : ℕ := 2 ^ 20

def maxValueLen : ℕ := 64 * 2 ^ 20

def maxBatchMutations : ℕ := 2 ^ 20

def Command.Op.code : Command.Op → Option UInt8
  | put => some 1
  | del => some 2
  | batch => some 3
  | unknown _ => none

def Command.Op.ofCode (code : UInt8) : Option Command.Op :=
  if code = 1 then some put else if code = 2 then some del else if code = 3 then some batch else none

/-- The mutations a command applies. -/
def Command.mutations (cmd : Command) : List Mutation :=
  match cmd.op with
  | .batch => cmd.batch
  | op => [⟨op, cmd.key, cmd.val, cmd.mode⟩]

/-! ## Encoding -/

inductive EncodeError where
  | unsupportedOp (op : Command.Op)
  | unsupportedMutationOp (op : Command.Op)
  | keyLimit (length : ℕ)
  | valueLimit (length : ℕ)
  | deleteValue
  | negativeMode (mode : Int)
  | emptyBatch
  | batchLimit (count : ℕ)
deriving DecidableEq, Repr

namespace Mutation

/-- What `appendMutation` writes after the opcode. -/
def body (mutation : Mutation) : Bytes :=
  Uvarint.encode mutation.key.length ++ mutation.key ++
    match mutation.op with
    | .put => Uvarint.encode mutation.val.length ++ mutation.val ++ Uvarint.encode mutation.mode.toNat
    | _ => []

/-- What `appendMutation` writes; an operation without a code gets a zero byte. -/
def bytes (mutation : Mutation) : Bytes := mutation.op.code.getD 0 :: mutation.body

/-- `validateMutation`. -/
def validate (mutation : Mutation) : Except EncodeError Unit :=
  match mutation.op with
  | .put | .del =>
      if maxKeyLen < mutation.key.length then .error (.keyLimit mutation.key.length)
      else if maxValueLen < mutation.val.length then .error (.valueLimit mutation.val.length)
      else if mutation.op = .del ∧ 0 < mutation.val.length then .error .deleteValue
      else if mutation.mode < 0 then .error (.negativeMode mutation.mode)
      else .ok ()
  | op => .error (.unsupportedMutationOp op)

end Mutation

def encodeCommand (cmd : Command) : Except EncodeError Bytes :=
  match cmd.op with
  | .unknown name => .error (.unsupportedOp (.unknown name))
  | .batch =>
      if cmd.batch.length = 0 then .error .emptyBatch
      else if maxBatchMutations < cmd.batch.length then .error (.batchLimit cmd.batch.length)
      else do
        cmd.batch.forM Mutation.validate
        return commandMagic :: commandVersion :: 3 ::
          (Uvarint.encode cmd.batch.length ++ cmd.batch.flatMap Mutation.bytes)
  | op => do
      let mutation : Mutation := ⟨op, cmd.key, cmd.val, cmd.mode⟩
      mutation.validate
      return commandMagic :: commandVersion :: mutation.bytes

/-! ## Decoding -/

/-- What a length is of. -/
inductive WireField where
  | key
  | value
deriving DecidableEq, Repr

inductive DecodeError where
  | emptyCommand
  | unknownFormat (leading : UInt8)
  | legacy (text : Bytes)
  | legacyOp (op : Command.Op)
  | truncatedHeader
  | unsupportedVersion (version : UInt8)
  | unknownOp (code : UInt8)
  | trailingBytes
  | badBatchCount
  | batchLimit (count : ℕ)
  | truncatedBatch (index : ℕ)
  | badMutationOp (code : UInt8) (index : ℕ)
  | batchMutation (index : ℕ) (err : DecodeError)
  | badLength (what : WireField)
  | lengthLimit (what : WireField) (length : ℕ)
  | truncated (what : WireField) (want available : ℕ)
  | badMode
  | absurdMode (mode : ℕ)
deriving DecidableEq, Repr

def decodeBytes (input : Bytes) (limit : ℕ) (what : WireField) : Except DecodeError (Bytes × Bytes) :=
  match Uvarint.decode input with
  | none => .error (.badLength what)
  | some (length, rest) =>
      if limit < length then .error (.lengthLimit what length)
      else if rest.length < length then .error (.truncated what length rest.length)
      else .ok (rest.take length, rest.drop length)

def decodeMutationBody (op : Command.Op) (input : Bytes) : Except DecodeError (Mutation × Bytes) := do
  let (key, rest) ← decodeBytes input maxKeyLen .key
  if op ≠ .put then return (⟨op, key, [], 0⟩, rest)
  let (val, rest) ← decodeBytes rest maxValueLen .value
  match Uvarint.decode rest with
  | none => throw .badMode
  | some (mode, rest) =>
      if 2 ^ 32 ≤ mode then throw (.absurdMode mode) else return (⟨op, key, val, mode⟩, rest)

/-- The loop of `decodeBinary` over the mutations of a batch, from the given one on. -/
def decodeMutations : ℕ → ℕ → Bytes → Except DecodeError (List Mutation × Bytes)
  | 0, _, rest => .ok ([], rest)
  | _ + 1, i, [] => .error (.truncatedBatch i)
  | count + 1, i, code :: body =>
      match Command.Op.ofCode code with
      | none | some .batch => .error (.badMutationOp code i)
      | some op =>
          match decodeMutationBody op body with
          | .error err => .error (.batchMutation i err)
          | .ok (mutation, rest) => do
              let (later, rest) ← decodeMutations count (i + 1) rest
              return (mutation :: later, rest)

/-- `decodeBinary` of what follows the magic byte. -/
def decodeBinary : Bytes → Except DecodeError Command
  | version :: code :: rest =>
      if version ≠ commandVersion then .error (.unsupportedVersion version)
      else
        match Command.Op.ofCode code with
        | none => .error (.unknownOp code)
        | some .batch =>
            match Uvarint.decode rest with
            | none => .error .badBatchCount
            | some (count, rest) =>
                if maxBatchMutations < count then .error (.batchLimit count)
                else do
                  let (batch, rest) ← decodeMutations count 0 rest
                  if rest.length ≠ 0 then throw .trailingBytes
                  return ⟨.batch, [], [], 0, batch⟩
        | some op => do
            let (mutation, rest) ← decodeMutationBody op rest
            if rest.length ≠ 0 then throw .trailingBytes
            return ⟨mutation.op, mutation.key, mutation.val, mutation.mode, []⟩
  | _ => .error .truncatedHeader

/-- `decodeLegacyJSON`, over what `json.Unmarshal` makes of the text. -/
def decodeLegacyJSON (unmarshal : Bytes → Option Command) (data : Bytes) : Except DecodeError Command :=
  match unmarshal data with
  | none => .error (.legacy data)
  | some cmd => if cmd.op.code.isNone then .error (.legacyOp cmd.op) else .ok cmd

def decodeCommand (unmarshal : Bytes → Option Command) : Bytes → Except DecodeError Command
  | [] => .error .emptyCommand
  | leading :: rest =>
      if leading = legacyJSONPrefix then decodeLegacyJSON unmarshal (leading :: rest)
      else if leading = commandMagic then decodeBinary rest
      else .error (.unknownFormat leading)

/-! ## Round trip -/

namespace Mutation

/-- What a mutation means: the mode matters for puts only. -/
def meaning (mutation : Mutation) : Mutation :=
  if mutation.op = .put then mutation else { mutation with mode := 0 }

/-- The update mode of a put has at most 32 bits. -/
def Narrow (mutation : Mutation) : Prop := mutation.op = .put → mutation.mode < 2 ^ 32

instance (mutation : Mutation) : Decidable mutation.Narrow := inferInstanceAs (Decidable (_ → _))

/-- What `validateMutation` accepts. -/
structure Valid (mutation : Mutation) : Prop where
  op : mutation.op = .put ∨ mutation.op = .del
  key : mutation.key.length ≤ maxKeyLen
  val : mutation.val.length ≤ maxValueLen
  delete : mutation.op = .del → mutation.val = []
  mode : 0 ≤ mutation.mode

theorem validate_iff (mutation : Mutation) : mutation.validate = .ok () ↔ mutation.Valid := by
  obtain ⟨op, key, val, mode⟩ := mutation
  constructor
  · intro accepted
    unfold validate at accepted
    cases op with
    | put | del =>
      dsimp only at accepted
      split at accepted
      · contradiction
      split at accepted
      · contradiction
      split at accepted
      · contradiction
      split at accepted
      · contradiction
      next short small bare nonneg =>
        refine ⟨by simp, Nat.not_lt.mp short, Nat.not_lt.mp small, fun delete => ?_, Int.not_lt.mp nonneg⟩
        grind
    | batch | unknown name => contradiction
  · rintro ⟨kind, short, small, bare, nonneg⟩
    dsimp only at *
    unfold validate
    rcases kind with rfl | rfl
    · simp [Nat.not_lt.mpr short, Nat.not_lt.mpr small, Int.not_lt.mpr nonneg]
    · simp [Nat.not_lt.mpr short, bare rfl, Int.not_lt.mpr nonneg]

@[simp] theorem op_meaning (mutation : Mutation) : mutation.meaning.op = mutation.op := by
  unfold meaning
  split <;> rfl

theorem meaning_put {mutation : Mutation} (put : mutation.op = .put) : mutation.meaning = mutation := if_pos put

@[simp] theorem meaning_meaning (mutation : Mutation) : mutation.meaning.meaning = mutation.meaning := by
  by_cases put : mutation.op = .put
  · rw [meaning_put put, meaning_put put]
  · simp [meaning, put]

end Mutation

theorem decodeBytes_encode {field : Bytes} {limit : ℕ} (short : field.length ≤ limit) (bounded : limit < 2 ^ 64)
    (what : WireField) (rest : Bytes) :
    decodeBytes (Uvarint.encode field.length ++ field ++ rest) limit what = .ok (field, rest) := by
  rw [decodeBytes, List.append_assoc, Uvarint.decode_encode (by omega)]
  simp [Nat.not_lt.mpr short]

section RoundTrip

variable {mutation : Mutation}

/-- The decoder reads back what was written, or refuses the mode. -/
theorem decodeMutationBody_body (valid : mutation.Valid) (ranged : mutation.mode < 2 ^ 63) (rest : Bytes) :
    decodeMutationBody mutation.op (mutation.body ++ rest) =
      if mutation.Narrow then .ok (mutation.meaning, rest) else .error (.absurdMode mutation.mode.toNat) := by
  obtain ⟨op, key, val, mode⟩ := mutation
  obtain ⟨kind, short, small, bare, nonneg⟩ := valid
  dsimp only at *
  rcases kind with rfl | rfl
  · have shape : (Mutation.body ⟨.put, key, val, mode⟩) ++ rest =
        Uvarint.encode key.length ++ key ++ (Uvarint.encode val.length ++ val ++
          (Uvarint.encode mode.toNat ++ rest)) := by
      simp [Mutation.body]
    have number : (mode.toNat : Int) = mode := Int.toNat_of_nonneg nonneg
    rw [shape, decodeMutationBody, decodeBytes_encode short (by decide)]
    simp only [bind, Except.bind, ne_eq, not_true_eq_false, if_false]
    rw [decodeBytes_encode small (by decide)]
    dsimp only
    rw [Uvarint.decode_encode (by omega)]
    by_cases narrow : mode < 2 ^ 32
    · have low : ¬ 2 ^ 32 ≤ mode.toNat := by omega
      simp only [low, Mutation.Narrow, narrow, implies_true, if_true, if_false, pure, Except.pure, number]
      rw [Mutation.meaning_put rfl]
    · have high : 2 ^ 32 ≤ mode.toNat := by omega
      simp only [high, Mutation.Narrow, narrow, if_true, forall_const, if_false]
      rfl
  · have shape : (Mutation.body ⟨.del, key, val, mode⟩) ++ rest = Uvarint.encode key.length ++ key ++ rest := by
      simp [Mutation.body]
    rw [shape, decodeMutationBody, decodeBytes_encode short (by decide)]
    simp [Mutation.Narrow, Mutation.meaning, bare rfl, bind, Except.bind, pure, Except.pure]

theorem Mutation.Valid.code (valid : mutation.Valid) : ∃ code, mutation.op.code = some code ∧
    Command.Op.ofCode code = some mutation.op ∧ mutation.op ≠ .batch := by
  rcases valid.op with put | del
  · exact ⟨1, by rw [put]; rfl, by rw [put]; rfl, by simp [put]⟩
  · exact ⟨2, by rw [del]; rfl, by rw [del]; rfl, by simp [del]⟩

/-- One turn of the loop of `decodeBinary`. -/
theorem decodeMutations_bytes (valid : mutation.Valid) (ranged : mutation.mode < 2 ^ 63) (count i : ℕ) (rest : Bytes) :
    decodeMutations (count + 1) i (mutation.bytes ++ rest) =
      if mutation.Narrow then do
        let (later, rest) ← decodeMutations count (i + 1) rest
        return (mutation.meaning :: later, rest)
      else .error (.batchMutation i (.absurdMode mutation.mode.toNat)) := by
  obtain ⟨code, coded, known, single⟩ := valid.code
  rw [Mutation.bytes, coded, Option.getD_some, List.cons_append, decodeMutations, known]
  have body := decodeMutationBody_body valid ranged rest
  cases kind : mutation.op with
  | batch => exact absurd kind single
  | put | del | unknown name =>
    dsimp only
    rw [← kind, body]
    by_cases narrow : mutation.Narrow
    · rw [if_pos narrow, if_pos narrow]
    · rw [if_neg narrow, if_neg narrow]

theorem decodeMutations_flatMap {batch : List Mutation} (valid : ∀ mutation ∈ batch, mutation.Valid)
    (ranged : ∀ mutation ∈ batch, mutation.mode < 2 ^ 63) (i : ℕ) (rest : Bytes) :
    if ∀ mutation ∈ batch, mutation.Narrow then
      decodeMutations batch.length i (batch.flatMap Mutation.bytes ++ rest) = .ok (batch.map Mutation.meaning, rest)
    else ∃ err, decodeMutations batch.length i (batch.flatMap Mutation.bytes ++ rest) = .error err := by
  induction batch generalizing i with
  | nil => simp [decodeMutations]
  | cons mutation later ih =>
    simp only [List.forall_mem_cons] at valid ranged ⊢
    have tail := ih valid.2 ranged.2 (i + 1)
    rw [List.length_cons, List.flatMap_cons, List.append_assoc, decodeMutations_bytes valid.1 ranged.1]
    by_cases narrow : mutation.Narrow
    · simp only [narrow, true_and, if_true]
      split at tail
      · next all =>
        rw [if_pos all, tail]
        rfl
      · next some =>
        obtain ⟨err, failed⟩ := tail
        rw [if_neg some, failed]
        exact ⟨err, rfl⟩
    · simp [narrow]

end RoundTrip

variable {cmd : Command}

namespace Command

/-- What the decoder makes of an encoded command. -/
def canonical (cmd : Command) : Command :=
  match cmd.op with
  | .batch => ⟨.batch, [], [], 0, cmd.batch.map Mutation.meaning⟩
  | op =>
      let mutation := Mutation.meaning ⟨op, cmd.key, cmd.val, cmd.mode⟩
      ⟨mutation.op, mutation.key, mutation.val, mutation.mode, []⟩

theorem mutations_single (single : cmd.op ≠ .batch) : cmd.mutations = [⟨cmd.op, cmd.key, cmd.val, cmd.mode⟩] := by
  unfold mutations
  split
  · next batch => exact absurd batch single
  · rfl

theorem mutations_canonical (cmd : Command) : cmd.canonical.mutations = cmd.mutations.map Mutation.meaning := by
  by_cases batch : cmd.op = .batch
  · simp [canonical, mutations, batch]
  · rw [mutations_single batch]
    have same : cmd.canonical.op = cmd.op := by
      unfold canonical
      split
      · next batched => exact absurd batched batch
      · simp
    rw [mutations_single (by rw [same]; exact batch)]
    unfold canonical
    split
    · next batched => exact absurd batched batch
    · rfl

/-- What `EncodeCommand` accepts. -/
structure Encodable (cmd : Command) : Prop where
  op : cmd.op.code.isSome = true
  counted : cmd.op = .batch → cmd.batch ≠ [] ∧ cmd.batch.length ≤ maxBatchMutations
  valid : ∀ mutation ∈ cmd.mutations, mutation.Valid

/-- The bytes of a command that is accepted. -/
def bytes (cmd : Command) : Bytes :=
  match cmd.op with
  | .batch => commandMagic :: commandVersion :: 3 ::
      (Uvarint.encode cmd.batch.length ++ cmd.batch.flatMap Mutation.bytes)
  | op => commandMagic :: commandVersion :: Mutation.bytes ⟨op, cmd.key, cmd.val, cmd.mode⟩

end Command

private theorem bind_ok_iff {check : Except EncodeError Unit} {data other : Bytes} :
    (check >>= fun _ => (.ok data : Except EncodeError Bytes)) = .ok other ↔ check = .ok () ∧ other = data := by
  cases check <;> simp [bind, Except.bind, eq_comm]

private theorem forM_validate_iff (batch : List Mutation) :
    batch.forM Mutation.validate = .ok () ↔ ∀ mutation ∈ batch, mutation.Valid := by
  induction batch with
  | nil => simp [pure, Except.pure]
  | cons mutation later ih =>
    rw [List.forall_mem_cons, ← ih, ← mutation.validate_iff]
    change (mutation.validate >>= fun _ => later.forM Mutation.validate) = .ok () ↔ _
    cases mutation.validate <;> simp [bind, Except.bind]

theorem encodeCommand_iff (cmd : Command) (data : Bytes) :
    encodeCommand cmd = .ok data ↔ cmd.Encodable ∧ data = cmd.bytes := by
  cases kind : cmd.op with
  | unknown name =>
    have refused : ¬ cmd.Encodable := fun encodable => by
      have coded := encodable.op
      rw [kind] at coded
      contradiction
    simp [encodeCommand, kind, refused]
  | batch =>
    have same : cmd.mutations = cmd.batch := by rw [Command.mutations, kind]
    have encodable : cmd.Encodable ↔
        cmd.batch ≠ [] ∧ cmd.batch.length ≤ maxBatchMutations ∧ ∀ mutation ∈ cmd.batch, mutation.Valid :=
      ⟨fun ⟨_, counted, valid⟩ => ⟨(counted kind).1, (counted kind).2, same ▸ valid⟩,
        fun ⟨filled, short, valid⟩ => ⟨by rw [kind]; rfl, fun _ => ⟨filled, short⟩, same ▸ valid⟩⟩
    rw [encodable, ← forM_validate_iff, encodeCommand, Command.bytes, kind]
    dsimp only
    split
    · next empty => simp [List.length_eq_zero_iff.mp empty]
    · next filled =>
      have nonempty : cmd.batch ≠ [] := fun empty => filled (by simp [empty])
      split
      · next long => simp [Nat.not_le.mpr long]
      · next short =>
        simp only [ne_eq, nonempty, not_false_eq_true, true_and, Nat.not_lt.mp short, pure, Except.pure, bind_ok_iff]
  | put | del =>
    have single : cmd.mutations = [⟨cmd.op, cmd.key, cmd.val, cmd.mode⟩] :=
      Command.mutations_single (by simp [kind])
    have encodable : cmd.Encodable ↔ Mutation.Valid ⟨cmd.op, cmd.key, cmd.val, cmd.mode⟩ :=
      ⟨fun ⟨_, _, valid⟩ => valid _ (by simp [single]),
        fun valid => ⟨by rw [kind]; rfl, by simp [kind], by simpa [single] using valid⟩⟩
    rw [encodable, ← Mutation.validate_iff, encodeCommand, Command.bytes, kind]
    simp only [pure, Except.pure, bind_ok_iff]

theorem decodeBinary_batch {count : ℕ} (short : count ≤ maxBatchMutations) (rest : Bytes) :
    decodeBinary (commandVersion :: 3 :: (Uvarint.encode count ++ rest)) = do
      let (batch, rest) ← decodeMutations count 0 rest
      if rest.length ≠ 0 then throw .trailingBytes
      return ⟨.batch, [], [], 0, batch⟩ := by
  have bounded : count < 2 ^ 64 := Nat.lt_of_le_of_lt short (by decide)
  have code : Command.Op.ofCode 3 = some .batch := rfl
  simp only [decodeBinary, ne_eq, not_true_eq_false, if_false, code, Uvarint.decode_encode bounded,
    Nat.not_lt.mpr short]

variable {op : Command.Op}

theorem decodeBinary_single {code : UInt8} (known : Command.Op.ofCode code = some op) (single : op ≠ .batch)
    (rest : Bytes) :
    decodeBinary (commandVersion :: code :: rest) = do
      let (mutation, rest) ← decodeMutationBody op rest
      if rest.length ≠ 0 then throw .trailingBytes
      return ⟨mutation.op, mutation.key, mutation.val, mutation.mode, []⟩ := by
  simp only [decodeBinary, ne_eq, not_true_eq_false, if_false, known]

/-! ## What the decoder accepts -/

variable {rest : Bytes}

theorem decodeBytes_sound {input field : Bytes} {limit : ℕ} {what : WireField}
    (read : decodeBytes input limit what = .ok (field, rest)) : field.length ≤ limit := by
  unfold decodeBytes at read
  split at read
  · contradiction
  split at read
  · contradiction
  split at read
  · contradiction
  · cases read
    rw [List.length_take]
    omega

/-- A mutation as the decoder returns it. -/
structure Mutation.Decoded (mutation : Mutation) : Prop where
  valid : mutation.Valid
  narrow : mutation.Narrow
  same : mutation.meaning = mutation
  ranged : mutation.mode < 2 ^ 63

theorem decodeMutationBody_sound (kind : op = .put ∨ op = .del) {input : Bytes} {mutation : Mutation}
    (read : decodeMutationBody op input = .ok (mutation, rest)) : mutation.op = op ∧ mutation.Decoded := by
  obtain ⟨⟨key, afterKey⟩, keyRead, read⟩ := bind_eq_ok.mp read
  have short := decodeBytes_sound keyRead
  rcases kind with rfl | rfl
  · obtain ⟨⟨val, afterVal⟩, valRead, read⟩ := bind_eq_ok.mp read
    have small := decodeBytes_sound valRead
    dsimp only at read
    split at read
    · contradiction
    split at read
    · contradiction
    next mode _ _ low =>
      cases read
      have bound : (mode : Int) < 2 ^ 32 := by omega
      refine ⟨rfl, ⟨.inl rfl, short, small, by simp, by simp⟩, fun _ => bound, if_pos rfl, ?_⟩
      dsimp only
      omega
  · cases read
    exact ⟨rfl, ⟨.inr rfl, short, by simp, by simp, by simp⟩, by simp [Mutation.Narrow], rfl, by simp⟩

theorem Command.Op.ofCode_cases {code : UInt8} (known : ofCode code = some op) :
    op = .put ∨ op = .del ∨ op = .batch := by
  unfold ofCode at known
  split at known
  · exact .inl (Option.some.inj known).symm
  split at known
  · exact .inr (.inl (Option.some.inj known).symm)
  split at known
  · exact .inr (.inr (Option.some.inj known).symm)
  · contradiction

theorem decodeMutations_sound {count i : ℕ} {input : Bytes} {batch : List Mutation}
    (read : decodeMutations count i input = .ok (batch, rest)) :
    batch.length = count ∧ ∀ mutation ∈ batch, mutation.Decoded := by
  induction count generalizing i input batch rest with
  | zero =>
    cases read
    simp
  | succ count ih =>
    cases input with
    | nil => contradiction
    | cons code body =>
      rw [decodeMutations] at read
      split at read
      · contradiction
      · contradiction
      next op single known =>
        have kind : op = .put ∨ op = .del := by
          rcases Command.Op.ofCode_cases known with put | del | batch
          · exact .inl put
          · exact .inr del
          · exact absurd batch (by simpa using single)
        split at read
        · contradiction
        next mutation afterFirst first =>
          obtain ⟨_, tail, read⟩ := bind_eq_ok.mp read
          cases read
          obtain ⟨length, sound⟩ := ih tail
          exact ⟨by simp [length], List.forall_mem_cons.mpr ⟨(decodeMutationBody_sound kind first).2, sound⟩⟩

section Decode

variable (unmarshal : Bytes → Option Command)

theorem decodeCommand_magic (rest : Bytes) : decodeCommand unmarshal (commandMagic :: rest) = decodeBinary rest := by
  rw [decodeCommand, if_neg (by decide), if_pos rfl]

/-- The decoder reads an encoded command back, or refuses one of its modes. -/
theorem decodeCommand_bytes (encodable : cmd.Encodable) (ranged : ∀ mutation ∈ cmd.mutations, mutation.mode < 2 ^ 63) :
    if ∀ mutation ∈ cmd.mutations, mutation.Narrow then decodeCommand unmarshal cmd.bytes = .ok cmd.canonical
    else ∃ err, decodeCommand unmarshal cmd.bytes = .error err := by
  have valid := encodable.valid
  by_cases batch : cmd.op = .batch
  · have same : cmd.mutations = cmd.batch := by rw [Command.mutations, batch]
    obtain ⟨-, short⟩ := encodable.counted batch
    have loop := decodeMutations_flatMap (same ▸ valid) (same ▸ ranged) 0 []
    have shape : cmd.bytes = commandMagic :: commandVersion :: 3 ::
        (Uvarint.encode cmd.batch.length ++ cmd.batch.flatMap Mutation.bytes) := by rw [Command.bytes, batch]
    have target : cmd.canonical = ⟨.batch, [], [], 0, cmd.batch.map Mutation.meaning⟩ := by
      rw [Command.canonical, batch]
    rw [same, shape, target, decodeCommand_magic, decodeBinary_batch short]
    rw [List.append_nil] at loop
    split at loop
    · next narrow =>
      rw [loop, if_pos narrow]
      rfl
    · next wide =>
      obtain ⟨err, failed⟩ := loop
      rw [failed, if_neg wide]
      exact ⟨err, rfl⟩
  · have same := Command.mutations_single batch
    let mutation : Mutation := ⟨cmd.op, cmd.key, cmd.val, cmd.mode⟩
    have sound : mutation.Valid := valid mutation (by rw [same]; exact List.mem_singleton_self _)
    obtain ⟨code, coded, known, -⟩ := sound.code
    have read := decodeMutationBody_body sound (ranged mutation (by rw [same]; exact List.mem_singleton_self _)) []
    have shape : cmd.bytes = commandMagic :: commandVersion :: code :: mutation.body := by
      unfold Command.bytes
      split
      · next batched => exact absurd batched batch
      · rw [Mutation.bytes, coded]
        rfl
    have target : cmd.canonical = ⟨mutation.meaning.op, mutation.meaning.key, mutation.meaning.val,
        mutation.meaning.mode, []⟩ := by
      unfold Command.canonical
      split
      · next batched => exact absurd batched batch
      · rfl
    have alone : (∀ other ∈ cmd.mutations, other.Narrow) ↔ mutation.Narrow := by rw [same]; simp [mutation]
    rw [List.append_nil] at read
    rw [shape, target, decodeCommand_magic, decodeBinary_single known batch, read]
    by_cases narrow : mutation.Narrow
    · rw [if_pos (alone.mpr narrow), if_pos narrow]
      rfl
    · rw [if_neg (mt alone.mp narrow), if_neg narrow]
      exact ⟨_, rfl⟩

/-- The batch branch of `decodeBinary`. -/
theorem decodeBinary_batch_sound {code : UInt8} (known : Command.Op.ofCode code = some .batch)
    (read : decodeBinary (commandVersion :: code :: rest) = .ok cmd) :
    cmd = ⟨.batch, [], [], 0, cmd.batch⟩ ∧ cmd.batch.length ≤ maxBatchMutations ∧
      ∀ mutation ∈ cmd.batch, mutation.Decoded := by
  simp only [decodeBinary, ne_eq, not_true_eq_false, if_false, known] at read
  split at read
  · contradiction
  next count afterCount _ =>
    split at read
    · contradiction
    next short =>
      obtain ⟨_, loop, read⟩ := bind_eq_ok.mp read
      obtain ⟨length, sound⟩ := decodeMutations_sound loop
      split at read
      · contradiction
      · cases read
        exact ⟨rfl, length ▸ Nat.not_lt.mp short, sound⟩

/-- The branch of `decodeBinary` for a single mutation. -/
theorem decodeBinary_single_sound {code : UInt8} (known : Command.Op.ofCode code = some op) (single : op ≠ .batch)
    (read : decodeBinary (commandVersion :: code :: rest) = .ok cmd) :
    cmd.op = op ∧ cmd.batch = [] ∧ Mutation.Decoded ⟨cmd.op, cmd.key, cmd.val, cmd.mode⟩ := by
  have kind : op = .put ∨ op = .del := by
    rcases Command.Op.ofCode_cases known with put | del | batch
    · exact .inl put
    · exact .inr del
    · exact absurd batch single
  rw [decodeBinary_single known single] at read
  obtain ⟨_, body, read⟩ := bind_eq_ok.mp read
  obtain ⟨same, sound⟩ := decodeMutationBody_sound kind body
  dsimp only at read
  split at read
  · contradiction
  · cases read
    exact ⟨same, rfl, sound⟩

/-- What the binary decoder accepts is encodable and canonical, an empty batch apart. -/
theorem decodeCommand_sound (read : decodeCommand unmarshal (commandMagic :: rest) = .ok cmd)
    (filled : cmd.mutations ≠ []) :
    cmd.Encodable ∧ cmd.canonical = cmd ∧ ∀ mutation ∈ cmd.mutations, mutation.Decoded := by
  rw [decodeCommand_magic] at read
  match rest with
  | [] | [_] => contradiction
  | version :: code :: rest =>
    by_cases current : version = commandVersion
    · subst current
      cases known : Command.Op.ofCode code with
      | none => simp [decodeBinary, known] at read
      | some op =>
        by_cases batch : op = .batch
        · subst batch
          obtain ⟨shape, short, sound⟩ := decodeBinary_batch_sound known read
          rw [shape] at filled ⊢
          refine ⟨⟨rfl, fun _ => ⟨filled, short⟩, fun mutation member => (sound mutation member).valid⟩, ?_, sound⟩
          have fixed : cmd.batch.map Mutation.meaning = cmd.batch :=
            (List.map_congr_left fun mutation member => (sound mutation member).same).trans (List.map_id _)
          simp [Command.canonical, fixed]
        · obtain ⟨same, bare, sound⟩ := decodeBinary_single_sound known batch read
          rw [← same] at batch
          have alone := Command.mutations_single batch
          have each : ∀ mutation ∈ cmd.mutations, mutation.Decoded := by simpa [alone] using sound
          refine ⟨⟨?_, fun batched => absurd batched batch, fun mutation member => (each mutation member).valid⟩,
            ?_, each⟩
          · obtain ⟨code, coded, -⟩ := sound.valid.code
            exact Option.isSome_iff_exists.mpr ⟨code, coded⟩
          · unfold Command.canonical
            split
            · next batched => exact absurd batched batch
            · rw [sound.same, ← bare]
    · simp [decodeBinary, current] at read

/-- An encoded command is read back with the same mutations exactly when the modes of its puts have at most 32
bits; a command read from the binary format, an empty batch apart, can be encoded and read again. -/
theorem decodeCommand_encodeCommand_iff :
    (∀ cmd data, encodeCommand cmd = .ok data → (∀ mutation ∈ cmd.mutations, mutation.mode < 2 ^ 63) →
      ((∃ decoded, decodeCommand unmarshal data = .ok decoded ∧
          decoded.mutations.map Mutation.meaning = cmd.mutations.map Mutation.meaning) ↔
        ∀ mutation ∈ cmd.mutations, mutation.Narrow)) ∧
    (∀ rest decoded, decodeCommand unmarshal (commandMagic :: rest) = .ok decoded → decoded.mutations ≠ [] →
      ∃ data, encodeCommand decoded = .ok data ∧ decodeCommand unmarshal data = .ok decoded) := by
  constructor
  · intro cmd data encoded ranged
    obtain ⟨encodable, rfl⟩ := (encodeCommand_iff cmd data).mp encoded
    have read := decodeCommand_bytes unmarshal encodable ranged
    split at read
    · next narrow =>
      refine iff_of_true ⟨cmd.canonical, read, ?_⟩ narrow
      rw [Command.mutations_canonical, List.map_map]
      exact List.map_congr_left fun mutation _ => mutation.meaning_meaning
    · next wide =>
      obtain ⟨err, failed⟩ := read
      refine iff_of_false ?_ wide
      rintro ⟨decoded, succeeded, -⟩
      rw [failed] at succeeded
      contradiction
  · intro rest decoded read filled
    obtain ⟨encodable, canonical, sound⟩ := decodeCommand_sound unmarshal read filled
    have again := decodeCommand_bytes unmarshal encodable fun mutation member => (sound mutation member).ranged
    rw [if_pos fun mutation member => (sound mutation member).narrow, canonical] at again
    exact ⟨decoded.bytes, (encodeCommand_iff _ _).mpr ⟨encodable, rfl⟩, again⟩

end Decode

/-- A put, a delete that carries a mode, and a put with a mode that is out of range but can be decoded. -/
def mixedBatch : Command :=
  ⟨.batch, [], [], 0, [⟨.put, [1], [2, 3], 1⟩, ⟨.del, [4], [], 7⟩, ⟨.put, [], [], 2 ^ 32 - 1⟩]⟩

theorem decodeCommand_mixedBatch : ∃ data, encodeCommand mixedBatch = .ok data ∧
    ∃ decoded, decodeCommand (fun _ => none) data = .ok decoded ∧
      decoded.mutations.map Mutation.meaning = mixedBatch.mutations.map Mutation.meaning := by
  refine ⟨mixedBatch.bytes, by decide, ?_⟩
  exact ((decodeCommand_encodeCommand_iff fun _ => none).1 mixedBatch _ (by decide) (by decide)).mpr (by decide)

/-- A put with an update mode of 33 bits. -/
def wideMode : Command := ⟨.put, [1], [2], 2 ^ 32, []⟩

/-- The encoder accepts a mode that no replica can decode. -/
theorem wideMode_undecodable : ∃ data, encodeCommand wideMode = .ok data ∧
    ∀ unmarshal, decodeCommand unmarshal data = .error (.absurdMode (2 ^ 32)) :=
  ⟨[0xC1, 1, 1, 1, 1, 1, 2, 0x80, 0x80, 0x80, 0x80, 0x10], by decide, fun unmarshal =>
    (decodeCommand_magic unmarshal _).trans (by decide)⟩

end PallasDB
