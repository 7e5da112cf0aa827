import PallasDB.Cluster.ApplyEntry

/-! # The snapshot stream

A snapshot is a header, one record for every live pair of the store, an end tag and a checksum. The writer
refuses keys and values beyond the limits of a command. The reader refuses them too, and it also refuses the
empty key, which the writer does not.
-/

namespace PallasDB

open SortedRun

/-! ## Checksum -/

/-- Eight rounds of the reflected Castagnoli polynomial. -/
def crc32cByte : ℕ → UInt32 → UInt32
  | 0, crc => crc
  | rounds + 1, crc => crc32cByte rounds (if crc &&& 1 = 1 then (crc >>> 1) ^^^ 0x82F63B78 else crc >>> 1)

/-- `crc32.Checksum` with the Castagnoli table. -/
def crc32c (data : Bytes) : UInt32 :=
  (data.foldl (fun crc byte => crc32cByte 8 (crc ^^^ byte.toUInt32)) 0xFFFFFFFF) ^^^ 0xFFFFFFFF

example : crc32c [0x31, 0x32, 0x33, 0x34, 0x35, 0x36, 0x37, 0x38, 0x39] = 0xE3069283 := by decide +kernel

/-! ## Format -/

def snapshotVersion : ℕ := 1

def snapshotRecordTag : UInt8 := 1

def snapshotEndTag : UInt8 := 0

def snapshotHeaderLen : ℕ := 8

def snapshotTrailerLen : ℕ := 4

/-- The bytes `PDBS`. -/
def snapshotMagic : Bytes := [0x50, 0x44, 0x42, 0x53]

def snapshotHeader : Bytes := snapshotMagic ++ LittleEndian.encode 2 snapshotVersion ++ [0, 0]

def snapshotRecord (key val : Bytes) : Bytes :=
  snapshotRecordTag :: (LittleEndian.encode 4 key.length ++ LittleEndian.encode 4 val.length ++ key ++ val)

inductive SnapshotWriteError where
  | keyLength (size : ℕ)
  | valueLength (size : ℕ)
deriving DecidableEq, Repr

/-- The loop of `writeSnapshot`. -/
def writeSnapshotRecords {ι : Type} [SlotIter ι Bytes Bytes] : ℕ → ι → Except SnapshotWriteError Bytes
  | 0, _ => .ok []
  | fuel + 1, iter =>
      match SlotIter.slot? iter with
      | none => .ok []
      | some slot =>
          let val := slot.val.getD []
          if maxKeyLen < slot.key.length then .error (.keyLength slot.key.length)
          else if maxValueLen < val.length then .error (.valueLength val.length)
          else (writeSnapshotRecords fuel (SlotIter.next iter)).map (snapshotRecord slot.key val ++ ·)

def snapshotStream (records : Bytes) : Bytes :=
  let hashed := snapshotHeader ++ records ++ [snapshotEndTag]
  hashed ++ LittleEndian.encode snapshotTrailerLen (crc32c hashed).toNat

def writeSnapshot {ι : Type} [SlotIter ι Bytes Bytes] (iter : ι) : Except SnapshotWriteError Bytes :=
  (writeSnapshotRecords (SlotIter.size iter) iter).map snapshotStream

/-- What `readSnapshot` returns; records are counted from zero. -/
inductive SnapshotReadError (ε : Type) where
  | header
  | magic (found : Bytes)
  | version (found : ℕ)
  | tag (record : ℕ)
  | badTag (tag : UInt8) (record : ℕ)
  | recordHeader (record : ℕ)
  | keyLength (size record : ℕ)
  | valueLength (size record : ℕ)
  | zeroKey (record : ℕ)
  | record (record : ℕ)
  | visit (err : ε)
  | trailer
  | checksum (got want : ℕ)
deriving DecidableEq, Repr

section Reader

variable {σ ε : Type} (visit : σ → Bytes → Bytes → Except ε σ)

/-- The loop of `readSnapshot` over the input after the header. Every round takes at least the tag. -/
def readSnapshotRecords : ℕ → ℕ → σ → Bytes → Except (SnapshotReadError ε) (σ × Bytes)
  | 0, i, _, _ => .error (.tag i)
  | _ + 1, i, _, [] => .error (.tag i)
  | fuel + 1, i, state, tag :: rest =>
      if tag = snapshotEndTag then .ok (state, rest)
      else if tag ≠ snapshotRecordTag then .error (.badTag tag i)
      else if rest.length < 8 then .error (.recordHeader i)
      else
        let klen := LittleEndian.decode (rest.take 4)
        let vlen := LittleEndian.decode ((rest.drop 4).take 4)
        let body := rest.drop 8
        if maxKeyLen < klen then .error (.keyLength klen i)
        else if maxValueLen < vlen then .error (.valueLength vlen i)
        else if klen = 0 then .error (.zeroKey i)
        else if body.length < klen + vlen then .error (.record i)
        else
          match visit state (body.take klen) ((body.drop klen).take vlen) with
          | .error err => .error (.visit err)
          | .ok next => readSnapshotRecords fuel (i + 1) next (body.drop (klen + vlen))

/-- `readSnapshot`, which hands every record to `visit` before the checksum has been seen. -/
def readSnapshot (start : σ) (stream : Bytes) : Except (SnapshotReadError ε) σ :=
  if stream.length < snapshotHeaderLen then .error .header
  else if stream.take 4 ≠ snapshotMagic then .error (.magic (stream.take 4))
  else
    let version := LittleEndian.decode ((stream.drop 4).take 2)
    if version ≠ snapshotVersion then .error (.version version)
    else
      let body := stream.drop snapshotHeaderLen
      match readSnapshotRecords visit body.length 0 start body with
      | .error err => .error err
      | .ok (state, rest) =>
          let want := (crc32c (stream.take (stream.length - rest.length))).toNat
          let got := LittleEndian.decode (rest.take snapshotTrailerLen)
          if rest.length < snapshotTrailerLen then .error .trailer
          else if got ≠ want then .error (.checksum got want)
          else .ok state

end Reader

/-! ## Writing -/

/-- The bytes of the records of some slots. -/
def snapshotRecords (slots : KVRun) : Bytes :=
  slots.flatMap fun slot => snapshotRecord slot.key (slot.val.getD [])

/-- A slot within the limits of a command. -/
def Writable (slot : KVSlot) : Prop :=
  slot.key.length ≤ maxKeyLen ∧ (slot.val.getD []).length ≤ maxValueLen

/-- What is written depends on the slots the iterator visits only, and all of them have to be in bounds. -/
theorem writeSnapshotRecords_iff {ι : Type} [SlotIter ι Bytes Bytes] (fuel : ℕ) (iter : ι) (records : Bytes) :
    writeSnapshotRecords fuel iter = .ok records ↔
      (∀ slot ∈ drain SlotIter.next (fun _ => true) fuel iter, Writable slot) ∧
        records = snapshotRecords (drain SlotIter.next (fun _ => true) fuel iter) := by
  induction fuel generalizing iter records with
  | zero => simp [writeSnapshotRecords, drain, snapshotRecords, eq_comm]
  | succ fuel ih =>
    rw [writeSnapshotRecords, drain]
    cases on : SlotIter.slot? iter with
    | none => simp [snapshotRecords, eq_comm]
    | some slot =>
      by_cases long : maxKeyLen < slot.key.length
      · simp only [if_pos long, reduceCtorEq, if_true, List.forall_mem_cons, Writable, false_iff]
        omega
      by_cases large : maxValueLen < (slot.val.getD []).length
      · simp only [if_neg long, if_pos large, reduceCtorEq, if_true, List.forall_mem_cons, Writable, false_iff]
        omega
      have fits : Writable slot := ⟨Nat.not_lt.mp long, Nat.not_lt.mp large⟩
      simp only [if_neg long, if_neg large, if_true, List.forall_mem_cons, fits, true_and]
      cases wrote : writeSnapshotRecords fuel (SlotIter.next iter) with
      | error err =>
        have refused : ¬∀ other ∈ drain SlotIter.next (fun _ => true) fuel (SlotIter.next iter), Writable other := by
          intro writable
          have done := (ih (SlotIter.next iter) _).mpr ⟨writable, rfl⟩
          rw [wrote] at done
          contradiction
        simp [Except.map, refused]
      | ok later =>
        obtain ⟨writable, rfl⟩ := (ih (SlotIter.next iter) later).mp wrote
        simp only [Except.map, Except.ok.injEq, snapshotRecords, List.flatMap_cons]
        exact ⟨fun same => ⟨writable, same.symm⟩, fun both => both.2.symm⟩

/-! ## Reading back -/

section RoundTrip

variable {σ ε : Type} (visit : σ → Bytes → Bytes → Except ε σ)

/-- `visit` called on some slots in order. -/
def visitAll (start : σ) (slots : KVRun) : Except ε σ :=
  slots.foldlM (fun state slot => visit state slot.key (slot.val.getD [])) start

/-- The fields of a record at the front of the input. -/
private theorem record_fields (key val rest : Bytes) (short : key.length ≤ maxKeyLen)
    (small : val.length ≤ maxValueLen) :
    let input := LittleEndian.encode 4 key.length ++ LittleEndian.encode 4 val.length ++ key ++ val ++ rest
    ¬input.length < 8 ∧ LittleEndian.decode (input.take 4) = key.length ∧
      LittleEndian.decode ((input.drop 4).take 4) = val.length ∧ input.drop 8 = key ++ (val ++ rest) := by
  have keySize : (LittleEndian.encode 4 key.length).length = 4 := LittleEndian.length_encode ..
  have valSize : (LittleEndian.encode 4 val.length).length = 4 := LittleEndian.length_encode ..
  have keyBack : LittleEndian.decode (LittleEndian.encode 4 key.length) = key.length :=
    LittleEndian.decode_encode (by unfold maxKeyLen at short; omega)
  have valBack : LittleEndian.decode (LittleEndian.encode 4 val.length) = val.length :=
    LittleEndian.decode_encode (by unfold maxValueLen at small; omega)
  generalize LittleEndian.encode 4 key.length = keyField at *
  generalize LittleEndian.encode 4 val.length = valField at *
  have split : keyField ++ valField ++ key ++ val ++ rest = keyField ++ (valField ++ (key ++ (val ++ rest))) := by
    simp only [List.append_assoc]
  rw [split]
  refine ⟨?_, ?_, ?_, ?_⟩
  · simp only [List.length_append]
    omega
  · rw [List.take_left' keySize, keyBack]
  · rw [List.drop_left' keySize, List.take_left' valSize, valBack]
  · rw [← List.append_assoc, List.drop_left' (by rw [List.length_append, keySize, valSize])]

/-- One record is visited, unless its key is empty. -/
theorem readSnapshotRecords_record (fuel i : ℕ) (state : σ) {key val : Bytes} (rest : Bytes)
    (short : key.length ≤ maxKeyLen) (small : val.length ≤ maxValueLen) :
    readSnapshotRecords visit (fuel + 1) i state (snapshotRecord key val ++ rest) =
      if key = [] then .error (.zeroKey i)
      else match visit state key val with
        | .error err => .error (.visit err)
        | .ok next => readSnapshotRecords visit fuel (i + 1) next rest := by
  obtain ⟨long, keyLength, valLength, body⟩ := record_fields key val rest short small
  have ended : ¬snapshotRecordTag = snapshotEndTag := by decide
  rw [snapshotRecord, List.cons_append, readSnapshotRecords, if_neg ended, if_neg (not_not.mpr rfl), if_neg long]
  simp only [keyLength, valLength, body, Nat.not_lt.mpr short, Nat.not_lt.mpr small, if_false,
    List.length_eq_zero_iff]
  by_cases empty : key = []
  · rw [if_pos empty, if_pos empty]
  · have inside : ¬(key ++ (val ++ rest)).length < key.length + val.length := by
      simp only [List.length_append]
      omega
    have tail : (key ++ (val ++ rest)).drop (key.length + val.length) = rest := by
      rw [← List.append_assoc, List.drop_left' (List.length_append ..)]
    rw [if_neg empty, if_neg empty, if_neg inside, tail]
    simp only [List.take_left', List.drop_left']

/-- What every call of `visit` preserves holds of the result. -/
theorem readSnapshotRecords_invariant {holds : σ → Prop}
    (preserved : ∀ {state key val next}, holds state → visit state key val = .ok next → holds next) {fuel i : ℕ}
    {state final : σ} {input rest : Bytes} (initial : holds state)
    (read : readSnapshotRecords visit fuel i state input = .ok (final, rest)) : holds final := by
  induction fuel generalizing i state input with
  | zero => simp [readSnapshotRecords] at read
  | succ fuel ih =>
    cases input with
    | nil => simp [readSnapshotRecords] at read
    | cons tag tail =>
      rw [readSnapshotRecords] at read
      by_cases ended : tag = snapshotEndTag
      · rw [if_pos ended] at read
        cases read
        exact initial
      -- every check that fails ends the loop with an error
      dsimp only at read
      repeat' (split at read; · contradiction)
      next visited => exact ih (preserved initial visited) read

theorem readSnapshot_invariant {holds : σ → Prop}
    (preserved : ∀ {state key val next}, holds state → visit state key val = .ok next → holds next) {start final : σ}
    {stream : Bytes} (initial : holds start) (read : readSnapshot visit start stream = .ok final) : holds final := by
  rw [readSnapshot] at read
  dsimp only at read
  repeat' (split at read; · contradiction)
  next accepted _ _ =>
    cases read
    exact readSnapshotRecords_invariant visit preserved initial accepted

/-- The records of slots within bounds are visited in order. -/
theorem readSnapshotRecords_records (slots : KVRun) (rest : Bytes) {fuel : ℕ}
    (enough : slots.length < fuel) (i : ℕ)
    (state : σ) (writable : ∀ slot ∈ slots, Writable slot) (named : ∀ slot ∈ slots, slot.key ≠ []) :
    readSnapshotRecords visit fuel i state (snapshotRecords slots ++ snapshotEndTag :: rest) =
      match visitAll visit state slots with
      | .error err => .error (.visit err)
      | .ok final => .ok (final, rest) := by
  induction slots generalizing fuel i state with
  | nil =>
    cases fuel with
    | zero => contradiction
    | succ fuel => rfl
  | cons slot others ih =>
    cases fuel with
    | zero => contradiction
    | succ fuel =>
      simp only [List.forall_mem_cons] at writable named
      obtain ⟨short, small⟩ := writable.1
      rw [snapshotRecords, List.flatMap_cons, List.append_assoc,
        readSnapshotRecords_record visit fuel i state _ short small, if_neg named.1, visitAll, List.foldlM_cons]
      cases visited : visit state slot.key (slot.val.getD []) with
      | error err => rfl
      | ok next => exact ih (Nat.lt_of_succ_lt_succ enough) (i + 1) next writable.2 named.2

theorem length_snapshotRecords (slots : KVRun) : slots.length ≤ (snapshotRecords slots).length := by
  induction slots with
  | nil => exact le_rfl
  | cons slot others ih =>
    have bytes : 1 ≤ (snapshotRecord slot.key (slot.val.getD [])).length := by simp [snapshotRecord]
    rw [snapshotRecords, List.flatMap_cons, List.length_append, List.length_cons]
    rw [snapshotRecords] at ih
    omega

/-- A stream is accepted exactly if its records are: the writer ends it with the checksum of what was read. -/
theorem readSnapshot_stream (start : σ) (records : Bytes) {outcome : Except (SnapshotReadError ε) σ}
    (read : ∀ trailer : Bytes, trailer.length = snapshotTrailerLen →
      readSnapshotRecords visit (records.length + 5) 0 start (records ++ snapshotEndTag :: trailer) =
        outcome.map (·, trailer)) :
    readSnapshot visit start (snapshotStream records) = outcome := by
  let hashed := snapshotHeader ++ records ++ [snapshotEndTag]
  let trailer := LittleEndian.encode snapshotTrailerLen (crc32c hashed).toNat
  have size : trailer.length = snapshotTrailerLen := LittleEndian.length_encode ..
  have back : LittleEndian.decode trailer = (crc32c hashed).toNat := LittleEndian.decode_encode (UInt32.toNat_lt _)
  have whole : snapshotStream records = snapshotHeader ++ (records ++ snapshotEndTag :: trailer) := by
    change hashed ++ trailer = _
    simp only [hashed, List.append_assoc, List.singleton_append]
  have long : ¬(snapshotStream records).length < snapshotHeaderLen := by
    rw [whole, List.length_append]
    simp [snapshotHeader, snapshotMagic, snapshotHeaderLen]
  have magic : (snapshotStream records).take 4 = snapshotMagic := by
    rfl
  have version : LittleEndian.decode (((snapshotStream records).drop 4).take 2) = snapshotVersion := by
    rfl
  have body : (snapshotStream records).drop snapshotHeaderLen = records ++ snapshotEndTag :: trailer := by
    rw [whole]
    exact List.drop_left' rfl
  have rounds : (records ++ snapshotEndTag :: trailer).length = records.length + 5 := by
    rw [List.length_append, List.length_cons, size]
    rfl
  have front : (snapshotStream records).take ((snapshotStream records).length - trailer.length) = hashed := by
    change (hashed ++ trailer).take ((hashed ++ trailer).length - trailer.length) = hashed
    rw [List.length_append, Nat.add_sub_cancel, List.take_left' rfl]
  rw [readSnapshot, if_neg long, if_neg (not_not.mpr magic)]
  dsimp only
  rw [if_neg (not_not.mpr version), body, rounds, read trailer size]
  cases outcome with
  | error err => rfl
  | ok final =>
    dsimp only [Except.map]
    rw [front, if_neg (by omega), List.take_of_length_le size.le, if_neg (not_not.mpr back)]

/-- A snapshot of slots within bounds is read back slot by slot. -/
theorem readSnapshot_records (start : σ) {slots : KVRun} (writable : ∀ slot ∈ slots, Writable slot)
    (named : ∀ slot ∈ slots, slot.key ≠ []) :
    readSnapshot visit start (snapshotStream (snapshotRecords slots)) =
      (visitAll visit start slots).mapError .visit := by
  have count := length_snapshotRecords slots
  refine readSnapshot_stream visit start _ fun trailer _ => ?_
  rw [readSnapshotRecords_records visit slots trailer (by omega) 0 start writable named]
  cases visitAll visit start slots <;> rfl

/-- A snapshot that begins with the empty key is refused. -/
theorem readSnapshot_zeroKey (start : σ) {slot : KVSlot} {others : KVRun} (unnamed : slot.key = [])
    (writable : Writable slot) :
    readSnapshot visit start (snapshotStream (snapshotRecords (slot :: others))) = .error (.zeroKey 0) := by
  refine readSnapshot_stream visit start _ fun trailer _ => ?_
  rw [snapshotRecords, List.flatMap_cons, List.append_assoc,
    readSnapshotRecords_record visit _ 0 start _ writable.1 writable.2, if_pos unnamed]
  rfl

end RoundTrip

/-! ## Taking a snapshot -/

namespace KV

/-- `KV.IterAll`. The transaction stays open until the cleanup function is called. -/
def iterAll (kv : KV) : KV × Except TXError (LiveIter (Merged Bytes Bytes)) :=
  let begun := kv.newTX
  let tx := begun.handle kv.txs.length
  (begun, match tx.err with
    | some err => .error err
    | none => .ok (filterDeleted (MergedSortedKV.iter (begun.readLevels tx))))

/-- `KV.Get`. -/
def read (kv : KV) (key : Bytes) : KV × Except TXError (Option Bytes) :=
  let begun := kv.newTX
  (begun.abortTX kv.txs.length, begun.get (begun.handle kv.txs.length) key)

section Contents

variable {initial : KVMap} {kv : KV} {journal : KVJournal}

/-- A transaction that has just begun is live and reads the contents of the store. -/
theorem SnapshotInv.begun (inv : SnapshotInv initial kv journal) : (kv.newTX.handle kv.txs.length).err = none ∧
      (∀ run ∈ MergedSortedKV.runs (kv.newTX.readLevels (kv.newTX.handle kv.txs.length)), Increasing run) ∧
      visible (MergedSortedKV.runs (kv.newTX.readLevels (kv.newTX.handle kv.txs.length))) = kv.tables.contents := by
  have begins : kv.newTX = { kv with
      txs := kv.txs ++ [⟨kv.snapshot, none, [], .updates kv.txs.length :: kv.tables.levels.map .source, none⟩]
      ongoing := kv.ongoing ++ [kv.txs.length] } := by
    rw [KV.newTX, if_neg (by simp [inv.opened])]
  have found : kv.newTX.txs[kv.txs.length]? =
      some ⟨kv.snapshot, none, [], .updates kv.txs.length :: kv.tables.levels.map .source, none⟩ := by
    rw [begins]
    exact List.getElem?_concat_length
  have levels : kv.newTX.readLevels (kv.newTX.handle kv.txs.length) = .array [] :: kv.tables.levels := by
    rw [handle_eq found, readLevels, List.map_cons, resolve, found, List.map_map]
    exact congrArg (SortedKV.array [] :: ·) (List.map_id kv.tables.levels)
  refine ⟨by rw [handle_eq found], ?_, ?_⟩
  · rw [levels, MergedSortedKV.runs, List.map_cons, List.forall_mem_cons]
    exact ⟨increasing_nil, inv.sorted.tables⟩
  · rw [levels, MergedSortedKV.runs, List.map_cons, visible_cons]
    rfl

/-- The iterator of a snapshot visits the live pairs of the store in order. -/
theorem SnapshotInv.iterAll (inv : SnapshotInv initial kv journal) :
    ∃ iter, kv.iterAll.2 = .ok iter ∧
      Lists (drain SlotIter.next (fun _ => true) (SlotIter.size iter) iter) kv.tables.contents := by
  obtain ⟨live, increasing, shows⟩ := inv.begun
  refine ⟨_, by rw [KV.iterAll, live], ?_⟩
  rw [drain_filterDeleted_iter increasing, ← shows]
  exact livePairs_lists increasing

theorem SnapshotInv.read (inv : SnapshotInv initial kv journal) (key : Bytes) :
    (kv.read key).2 = .ok (kv.tables.contents key) := by
  obtain ⟨live, increasing, shows⟩ := inv.begun
  exact (reads_of_visible live increasing shows).get key

end Contents

end KV

inductive SnapshotError where
  | closed
  | iterAll (err : TXError)
deriving DecidableEq, Repr

/-- `FSM.Snapshot`. -/
def FSM.snapshot (fsm : FSM) : FSM × Except SnapshotError (LiveIter (Merged Bytes Bytes)) :=
  if fsm.closed then (fsm, .error .closed)
  else
    let (store, result) := fsm.store.iterAll
    ({ fsm with store := store }, result.mapError .iterAll)

end PallasDB
