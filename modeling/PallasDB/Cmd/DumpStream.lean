import PallasDB.Cluster.Snapshot
import PallasDB.Lib.OrderCode
import PallasDB.Lib.Uvarint

/-! # The dump stream

A backup is a header, one record for every pair, and a trailer with the number of records and a checksum. The reader
hands every record on as it comes and looks at the trailer last, so a stream that turns out to be corrupt has been
applied in part. It reads back what the writer wrote as long as no key or value is longer than the reader believes.
-/

namespace PallasDB

open OrderCode

/-- The bytes `PALLASDUMP` and the version. -/
def dumpMagic : Bytes := [0x50, 0x41, 0x4c, 0x4c, 0x41, 0x53, 0x44, 0x55, 0x4d, 0x50, 0x01]

def dumpTagRecord : UInt8 := 0x01

def dumpTagEnd : UInt8 := 0x00

def maxDumpEntryBytes : ℕ := 2 ^ 30

/-- `writeEntry`. -/
def dumpRecord (record : Bytes × Bytes) : Bytes :=
  dumpTagRecord :: (Uvarint.encode record.1.length ++ record.1 ++ (Uvarint.encode record.2.length ++ record.2))

/-- Everything after the header, as `finish` leaves it. The count has 64 bits. -/
def dumpBody (records : List (Bytes × Bytes)) : Bytes :=
  let body := records.flatMap dumpRecord
  body ++ dumpTagEnd :: (Uvarint.encode (records.length % 2 ^ 64) ++ bigEndian 4 (crc32c body).toNat)

/-- The stream of some records. -/
def dumpStream (records : List (Bytes × Bytes)) : Bytes := dumpMagic ++ dumpBody records

inductive DumpReadError (ε : Type) where
  | missingHeader
  | notDump
  | noTrailer
  | unknownTag (tag : UInt8)
  | truncatedKeyLength
  | truncatedValueLength
  | oversized (length : ℕ)
  | truncatedEntry
  | truncatedTrailer
  | truncatedChecksum
  | count (claimed read : ℕ)
  | checksum
  | visit (err : ε)
deriving DecidableEq, Repr

section Reader

variable {σ ε : Type} (visit : σ → Bytes × Bytes → σ × Except ε Unit)

/-- `readN`. -/
def readDumpBytes (length : ℕ) (input : Bytes) : Except (DumpReadError ε) (Bytes × Bytes) :=
  if maxDumpEntryBytes < length then .error (.oversized length)
  else if input.length < length then .error .truncatedEntry
  else .ok (input.take length, input.drop length)

/-- What `next` reads after the tag of a record. -/
def readDumpRecord (input : Bytes) : Except (DumpReadError ε) ((Bytes × Bytes) × Bytes) :=
  match Uvarint.decode input with
  | none => .error .truncatedKeyLength
  | some (keyLen, rest) =>
    match readDumpBytes keyLen rest with
    | .error err => .error err
    | .ok (key, rest) =>
      match Uvarint.decode rest with
      | none => .error .truncatedValueLength
      | some (valueLen, rest) =>
        match readDumpBytes valueLen rest with
        | .error err => .error err
        | .ok (value, rest) => .ok ((key, value), rest)

/-- `next` until the end tag, with the number of records and the input after the tag. -/
def readDumpRecords : ℕ → ℕ → σ → Bytes → σ × Except (DumpReadError ε) (ℕ × Bytes)
  | 0, _, state, _ => (state, .error .noTrailer)
  | _ + 1, _, state, [] => (state, .error .noTrailer)
  | fuel + 1, count, state, tag :: input =>
    if tag = dumpTagEnd then (state, .ok (count, input))
    else if tag ≠ dumpTagRecord then (state, .error (.unknownTag tag))
    else
      match readDumpRecord input with
      | .error err => (state, .error err)
      | .ok (record, rest) =>
        match visit state record with
        | (next, .error err) => (next, .error (.visit err))
        | (next, .ok ()) => readDumpRecords fuel (count + 1) next rest

/-- `verifyTrailer`, on the bytes after the end tag. -/
def verifyTrailer (body : Bytes) (count : ℕ) (rest : Bytes) : Except (DumpReadError ε) Unit :=
  match Uvarint.decode rest with
  | none => .error .truncatedTrailer
  | some (want, trailer) =>
    if trailer.length < 4 then .error .truncatedChecksum
    else if want ≠ count % 2 ^ 64 then .error (.count want count)
    -- the checksum stops before the end tag
    else if ofBigEndian (trailer.take 4) ≠ (crc32c (body.take (body.length - (rest.length + 1)))).toNat then
      .error .checksum
    else .ok ()

/-- `newDumpReader`, with what is left to read. -/
def newDumpReader (stream : Bytes) : Except (DumpReadError ε) Bytes :=
  if stream.length < dumpMagic.length then .error .missingHeader
  else if stream.take dumpMagic.length ≠ dumpMagic then .error .notDump
  else .ok (stream.drop dumpMagic.length)

/-- `next` until it returns `io.EOF`. -/
def readDump (start : σ) (body : Bytes) : σ × Except (DumpReadError ε) Unit :=
  match readDumpRecords visit body.length 0 start body with
  | (state, .error err) => (state, .error err)
  | (state, .ok (count, rest)) => (state, verifyTrailer body count rest)

/-- Visit some records until one fails. -/
def visitRecords (state : σ) : List (Bytes × Bytes) → σ × Except ε Unit
  | [] => (state, .ok ())
  | record :: rest =>
    match visit state record with
    | (next, .error err) => (next, .error err)
    | (next, .ok ()) => visitRecords next rest

end Reader

/-! ## Round trip -/

section RoundTrip

variable {σ ε : Type} (visit : σ → Bytes × Bytes → σ × Except ε Unit)

/-- A record that the reader believes. -/
def DumpBounded (record : Bytes × Bytes) : Prop :=
  record.1.length ≤ maxDumpEntryBytes ∧ record.2.length ≤ maxDumpEntryBytes

private theorem readDumpBytes_append {field : Bytes} (short : field.length ≤ maxDumpEntryBytes) (rest : Bytes) :
    (readDumpBytes field.length (field ++ rest) : Except (DumpReadError ε) _) = .ok (field, rest) := by
  have inside : ¬ (field ++ rest).length < field.length := by simp
  rw [readDumpBytes, if_neg (Nat.not_lt.mpr short), if_neg inside, List.take_left, List.drop_left]

private theorem decode_length {field : Bytes} (short : field.length ≤ maxDumpEntryBytes) (rest : Bytes) :
    Uvarint.decode (Uvarint.encode field.length ++ rest) = some (field.length, rest) :=
  Uvarint.decode_encode (short.trans_lt (by decide)) rest

theorem dumpRecord_eq (record : Bytes × Bytes) (rest : Bytes) :
    ∃ input, dumpRecord record ++ rest = dumpTagRecord :: input ∧
    (DumpBounded record → (readDumpRecord input : Except (DumpReadError ε) _) = .ok (record, rest)) := by
  refine ⟨_, by rw [dumpRecord, List.cons_append], fun ⟨shortKey, shortValue⟩ => ?_⟩
  simp only [List.append_assoc, readDumpRecord, decode_length shortKey, readDumpBytes_append shortKey,
    decode_length shortValue, readDumpBytes_append shortValue]

theorem readDumpRecords_records {records : List (Bytes × Bytes)} (bounded : ∀ record ∈ records, DumpBounded record)
    (rest : Bytes) {fuel : ℕ} (enough : records.length < fuel) (count : ℕ) (state : σ) :
    readDumpRecords visit fuel count state (records.flatMap dumpRecord ++ dumpTagEnd :: rest) =
      (visitRecords visit state records).map id fun result =>
        (result.mapError .visit).map fun _ => (count + records.length, rest) := by
  obtain ⟨fuel, rfl⟩ := Nat.exists_eq_add_of_lt (Nat.zero_lt_of_lt enough)
  rw [Nat.zero_add] at enough ⊢
  induction records generalizing fuel count state with
  | nil => rfl
  | cons record records ih =>
    rw [List.forall_mem_cons] at bounded
    obtain ⟨input, begins, reads⟩ := @dumpRecord_eq ε record (records.flatMap dumpRecord ++ dumpTagEnd :: rest)
    rw [List.flatMap_cons, List.append_assoc, begins, readDumpRecords, if_neg (by decide), if_neg (by decide),
      reads bounded.1, visitRecords]
    dsimp only
    obtain ⟨next, _ | ⟨⟨⟩⟩⟩ := visit state record
    · rfl
    · obtain ⟨fuel, rfl⟩ : ∃ less, fuel = less + 1 := ⟨fuel - 1, by simp at enough; omega⟩
      dsimp only
      rw [ih bounded.2 (count + 1) next fuel (by simpa using enough), List.length_cons, Nat.add_right_comm,
        Nat.add_assoc]

private theorem length_records (records : List (Bytes × Bytes)) :
    records.length ≤ (records.flatMap dumpRecord).length := by
  induction records with
  | nil => exact le_rfl
  | cons record records ih =>
    simp only [List.flatMap_cons, List.length_append, List.length_cons, dumpRecord]
    omega

private theorem verifyTrailer_written (body : Bytes) (count : ℕ) :
    let trailer := Uvarint.encode (count % 2 ^ 64) ++ bigEndian 4 (crc32c body).toNat
    (verifyTrailer (body ++ dumpTagEnd :: trailer) count trailer : Except (DumpReadError ε) Unit) = .ok () := by
  intro trailer
  have sum : (crc32c body).toNat < 256 ^ 4 := UInt32.toNat_lt _
  have hashed : (body ++ dumpTagEnd :: trailer).take
      ((body ++ dumpTagEnd :: trailer).length - (trailer.length + 1)) = body := by
    rw [List.length_append, List.length_cons, Nat.add_sub_cancel, List.take_left]
  have counted : Uvarint.decode trailer = some (count % 2 ^ 64, bigEndian 4 (crc32c body).toNat) :=
    Uvarint.decode_encode (Nat.mod_lt _ (by decide)) _
  have whole : (bigEndian 4 (crc32c body).toNat).take 4 = bigEndian 4 (crc32c body).toNat :=
    List.take_of_length_le (length_bigEndian _ _).le
  rw [verifyTrailer, hashed, counted]
  simp only [length_bigEndian, lt_irrefl, if_false, ne_eq, not_true_eq_false, whole, ofBigEndian_bigEndian sum]

theorem newDumpReader_dumpStream (records : List (Bytes × Bytes)) :
    (newDumpReader (dumpStream records) : Except (DumpReadError ε) Bytes) = .ok (dumpBody records) := by
  have long : ¬ (dumpStream records).length < dumpMagic.length := by simp [dumpStream]
  rw [newDumpReader, if_neg long, dumpStream, List.take_left, if_neg (not_not_intro rfl), List.drop_left]

/-- The reader visits the records that were written, in order. -/
theorem readDump_dumpBody {records : List (Bytes × Bytes)} (bounded : ∀ record ∈ records, DumpBounded record)
    (start : σ) : readDump visit start (dumpBody records) =
      (visitRecords visit start records).map id fun result => result.mapError .visit := by
  have accepted := @verifyTrailer_written ε (records.flatMap dumpRecord) records.length
  rw [dumpBody]
  generalize Uvarint.encode (records.length % 2 ^ 64) ++ bigEndian 4 (crc32c (records.flatMap dumpRecord)).toNat =
    trailer at accepted ⊢
  have enough : records.length < (records.flatMap dumpRecord ++ dumpTagEnd :: trailer).length := by
    have := length_records records
    simp only [List.length_append, List.length_cons]
    omega
  rw [readDump, readDumpRecords_records visit bounded trailer enough]
  obtain ⟨final, _ | ⟨⟨⟩⟩⟩ := visitRecords visit start records
  · rfl
  · simp only [Prod.map, Except.mapError, Except.map, Nat.zero_add]
    rw [accepted]

end RoundTrip

end PallasDB
