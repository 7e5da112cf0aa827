import PallasDB.Db.Entry
import PallasDB.Lib.ChunkReader

/-! # Reading records

`Entry.Decode` reads a record from an `io.Reader`, which may return fewer bytes than it is asked for.
Whatever the pieces are, it finds the record at the front of the input and leaves the reader behind it;
it refuses every cut record, and accepts nothing but the bytes of a record.
-/

namespace PallasDB

open ChunkReader

/-- The errors of `Entry.Decode`. -/
inductive EntryReadError where
  | eof
  | unexpectedEOF
  | tooLarge
  | badSum
  | badEntryOp
  /-- Any other error of the reader. -/
  | io
deriving DecidableEq, Repr

def EntryReadError.ofRead : ReadError → EntryReadError
  | .eof => .eof
  | .unexpectedEOF => .unexpectedEOF

namespace Entry

/-- `Entry.Decode`. -/
def decodeFrom (reader : Reader UInt8) : Except EntryReadError (Entry × Reader UInt8) :=
  match readFull entryHeaderSize reader with
  | .error err => .error (.ofRead err)
  | .ok (header, reader) =>
      let seq := LittleEndian.decode (slice header 4 12)
      let klen := LittleEndian.decode (slice header 12 16)
      let vlen := LittleEndian.decode (slice header 16 20)
      if maxEntrySize < klen + vlen then .error .tooLarge
      else
        match readFull (klen + vlen) reader with
        | .error err => .error (.ofRead err)
        | .ok (data, reader) =>
            if (crc32 (header.drop 4 ++ data)).toNat ≠ LittleEndian.decode (slice header 0 4) then .error .badSum
            else
              match EntryOp.ofCode (header.getD 20 0) with
              | none => .error .badEntryOp
              | some op => .ok (⟨data.take klen, data.drop klen, seq, op⟩, reader)

private theorem slice_take (data : Bytes) (start : ℕ) {stop size : ℕ} (inside : stop ≤ size) :
    slice (data.take size) start stop = slice data start stop := by
  rw [slice, slice, List.take_take, Nat.min_eq_left inside]

/-- The pieces in which the input arrives do not matter. -/
theorem decodeFrom_cases (reader : Reader UInt8) :
    (∃ ent after, decodeFrom reader = .ok (ent, after) ∧ decode reader.flatten = .ok (ent, after.flatten)) ∨
      ∃ err cause, decodeFrom reader = .error err ∧ err ≠ .io ∧ decode reader.flatten = .error cause := by
  have ofRead_ne (err : ReadError) : EntryReadError.ofRead err ≠ .io := by cases err <;> simp [EntryReadError.ofRead]
  by_cases header : reader.flatten.length < entryHeaderSize
  · obtain ⟨err, failed⟩ := readFull_short header
    simp only [decode, header, if_true, decodeFrom, failed]
    exact .inr ⟨_, _, rfl, ofRead_ne err, rfl⟩
  obtain ⟨body, read, left⟩ := readFull_ok (Nat.le_of_not_lt header)
  have field (start : ℕ) {stop : ℕ} (inside : stop ≤ entryHeaderSize) :
      slice (reader.flatten.take entryHeaderSize) start stop = slice reader.flatten start stop :=
    slice_take _ start inside
  have checked : (reader.flatten.take entryHeaderSize).drop 4 = slice reader.flatten 4 entryHeaderSize := rfl
  have opByte : (reader.flatten.take entryHeaderSize).getD 20 0 = reader.flatten.getD 20 0 := by
    rw [List.getD_eq_getElem?_getD, List.getD_eq_getElem?_getD, List.getElem?_take_of_lt (by decide)]
  simp only [decode, header, if_false, decodeFrom, read, checked, opByte, field 4 (show 12 ≤ entryHeaderSize by decide),
    field 12 (show 16 ≤ entryHeaderSize by decide), field 16 (show 20 ≤ entryHeaderSize by decide),
    field 0 (show 4 ≤ entryHeaderSize by decide)]
  generalize LittleEndian.decode (slice reader.flatten 12 16) = klen
  generalize LittleEndian.decode (slice reader.flatten 16 20) = vlen
  by_cases large : maxEntrySize < klen + vlen
  · simp only [large, if_true]
    exact .inr ⟨_, _, rfl, by decide, rfl⟩
  simp only [large, if_false]
  by_cases short : reader.flatten.length < entryHeaderSize + (klen + vlen)
  · obtain ⟨err, failed⟩ : ∃ err, readFull (klen + vlen) body = .error err :=
      readFull_short (by rw [left, List.length_drop]; omega)
    simp only [short, if_true, failed]
    exact .inr ⟨_, _, rfl, ofRead_ne err, rfl⟩
  obtain ⟨after, readData, leftData⟩ : ∃ after, readFull (klen + vlen) body =
    .ok (body.flatten.take (klen + vlen), after) ∧
      after.flatten = body.flatten.drop (klen + vlen) :=
    readFull_ok (by rw [left, List.length_drop]; omega)
  have data : body.flatten.take (klen + vlen) =
      slice reader.flatten entryHeaderSize (entryHeaderSize + (klen + vlen)) := by
    rw [left, slice, List.drop_take, Nat.add_sub_cancel_left]
  rw [left, List.drop_drop] at leftData
  simp only [short, if_false, readData, data]
  by_cases sum : (crc32 (slice reader.flatten 4 entryHeaderSize ++ slice reader.flatten entryHeaderSize
      (entryHeaderSize + (klen + vlen)))).toNat ≠ LittleEndian.decode (slice reader.flatten 0 4)
  · rw [if_pos sum, if_pos sum]
    exact .inr ⟨_, _, rfl, by decide, rfl⟩
  rw [if_neg sum, if_neg sum]
  cases EntryOp.ofCode (reader.flatten.getD 20 0) with
  | none => exact .inr ⟨_, _, rfl, by decide, rfl⟩
  | some op => exact .inl ⟨_, after, rfl, by rw [leftData]⟩

/-- Decoding inverts encoding whatever follows the record and however it arrives, and ends behind the record. -/
theorem decodeFrom_bytes {ent : Entry} (fits : ent.size ≤ maxEntrySize) (counted : ent.seq < 2 ^ 64) {rest : Bytes}
    {reader : Reader UInt8} (input : reader.flatten = ent.bytes ++ rest) :
    ∃ after, decodeFrom reader = .ok (ent, after) ∧ after.flatten = rest := by
  have decoded := decode_bytes fits counted rest
  rw [← input] at decoded
  rcases decodeFrom_cases reader with ⟨other, after, read, found⟩ | ⟨err, cause, failed, -, other⟩
  · obtain ⟨rfl, left⟩ := Prod.mk.inj (Except.ok.inj (found.symm.trans decoded))
    exact ⟨after, read, left⟩
  · rw [other] at decoded
    contradiction

/-- What is accepted is a record, byte for byte. -/
theorem decodeFrom_sound {reader after : Reader UInt8} {ent : Entry} (read : decodeFrom reader = .ok (ent, after)) :
    reader.flatten = ent.bytes ++ after.flatten ∧ ent.size ≤ maxEntrySize ∧ ent.seq < 2 ^ 64 := by
  rcases decodeFrom_cases reader with ⟨other, rest, also, found⟩ | ⟨err, cause, failed, -, -⟩
  · obtain ⟨rfl, rfl⟩ := Prod.mk.inj (Except.ok.inj (also.symm.trans read))
    exact decode_sound found
  · rw [read] at failed
    contradiction

/-- A record is determined by any bytes it is in front of. -/
theorem bytes_inj_of_append {ent other : Entry} (fits : ent.size ≤ maxEntrySize) (counted : ent.seq < 2 ^ 64)
    (otherFits : other.size ≤ maxEntrySize) (otherCounted : other.seq < 2 ^ 64) {rest otherRest : Bytes}
    (same : ent.bytes ++ rest = other.bytes ++ otherRest) : ent = other ∧ rest = otherRest := by
  have decoded := decode_bytes fits counted rest
  rw [same, decode_bytes otherFits otherCounted otherRest] at decoded
  obtain ⟨entries, rests⟩ := Prod.mk.inj (Except.ok.inj decoded)
  exact ⟨entries.symm, rests.symm⟩

/-- `Encode` and `Decode` agree on every record of at most `MaxEntrySize` bytes, for every reader. -/
theorem wal_record_codec : (∀ ent : Entry, ent.size ≤ maxEntrySize → ent.seq < 2 ^ 64 → ∃ data, ent.encode = .ok data ∧
      (∀ (rest : Bytes) (reader : Reader UInt8), reader.flatten = data ++ rest →
        ∃ after, decodeFrom reader = .ok (ent, after) ∧ after.flatten = rest) ∧
      ∀ (cut : Bytes) (reader : Reader UInt8), cut <+: data → cut ≠ data → reader.flatten = cut →
        ∃ err, decodeFrom reader = .error err) ∧
    ∀ (reader after : Reader UInt8) (ent : Entry), decodeFrom reader = .ok (ent, after) →
      ∃ data, ent.encode = .ok data ∧ reader.flatten = data ++ after.flatten := by
  have encodes {ent : Entry} (fits : ent.size ≤ maxEntrySize) : ent.encode = .ok ent.bytes := by
    rw [encode, if_neg (Nat.not_lt.mpr fits)]
  constructor
  · intro ent fits counted
    refine ⟨ent.bytes, encodes fits, fun rest reader input => decodeFrom_bytes fits counted input,
      fun cut reader front proper input => ?_⟩
    rcases read : decodeFrom reader with err | ⟨other, after⟩
    · exact ⟨err, rfl⟩
    · -- an accepted cut would be another record in front of the same bytes
      obtain ⟨split, otherFits, otherCounted⟩ := decodeFrom_sound read
      obtain ⟨lost, whole⟩ := front
      rw [← whole, ← input, split, List.append_assoc] at proper
      have same : ent.bytes ++ [] = other.bytes ++ (after.flatten ++ lost) := by
        rw [List.append_nil, ← List.append_assoc, ← split, input, whole]
      obtain ⟨-, empty⟩ := bytes_inj_of_append fits counted otherFits otherCounted same
      obtain ⟨noRest, nothing⟩ := List.append_eq_nil_iff.mp empty.symm
      rw [noRest, nothing] at proper
      exact absurd rfl proper
  · intro reader after ent read
    obtain ⟨split, fits, -⟩ := decodeFrom_sound read
    exact ⟨ent.bytes, encodes fits, split⟩

-- The record arrives in three pieces, one of them empty, with a byte of the next record in the last.
example : let data := bytes ⟨[1], [2], 7, .add⟩
    decodeFrom [data.take 5, [], data.drop 5 ++ [9]] = .ok (⟨[1], [2], 7, .add⟩, [[9]]) := by decide +kernel

end Entry

end PallasDB
