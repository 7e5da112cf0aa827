import PallasDB.Db.Bytes
import PallasDB.Lib.LittleEndian

/-! # Write-ahead log records

A record is a 21 byte header (checksum, sequence number, key and value length, operation) followed by the
key and the value. The same size cap is enforced by `Encode` and `Decode`. Decoding inverts encoding
whatever bytes follow, and accepts nothing but the bytes of a record.
-/

namespace PallasDB

/-! ## Checksum -/

/-- Eight rounds of the reflected IEEE polynomial. -/
def crc32Byte : ℕ → UInt32 → UInt32
  | 0, crc => crc
  | rounds + 1, crc => crc32Byte rounds (if crc &&& 1 = 1 then (crc >>> 1) ^^^ 0xEDB88320 else crc >>> 1)

/-- `crc32.ChecksumIEEE`. -/
def crc32 (data : Bytes) : UInt32 :=
  (data.foldl (fun crc byte => crc32Byte 8 (crc ^^^ byte.toUInt32)) 0xFFFFFFFF) ^^^ 0xFFFFFFFF

example : crc32 [0x31, 0x32, 0x33, 0x34, 0x35, 0x36, 0x37, 0x38, 0x39] = 0xCBF43926 := by decide +kernel

/-! ## Records -/

inductive EntryOp where
  | add
  | del
  | commit
deriving DecidableEq, Repr

def EntryOp.code : EntryOp → UInt8
  | add => 0
  | del => 1
  | commit => 2

def EntryOp.ofCode (code : UInt8) : Option EntryOp :=
  if code = 0 then some add else if code = 1 then some del else if code = 2 then some commit else none

/-- Sequence numbers are 64 bit; the model covers logs of fewer than `2 ^ 64` records. -/
structure Entry where
  key : Bytes
  val : Bytes
  seq : ℕ
  op : EntryOp
deriving DecidableEq, Repr

def maxEntrySize : ℕ := 64 * 2 ^ 20

def entryHeaderSize : ℕ := 4 + 8 + 4 + 4 + 1

inductive EntryError where
  | eof
  | tooLarge
  | badSum
  | badEntryOp
deriving DecidableEq, Repr

namespace Entry

def size (ent : Entry) : ℕ := ent.key.length + ent.val.length

/-- The checksummed part of a record. -/
def body (ent : Entry) : Bytes :=
  LittleEndian.encode 8 ent.seq ++ LittleEndian.encode 4 ent.key.length ++
    LittleEndian.encode 4 ent.val.length ++ [ent.op.code] ++ ent.key ++ ent.val

/-- The bytes of a record that fits. -/
def bytes (ent : Entry) : Bytes := LittleEndian.encode 4 (crc32 ent.body).toNat ++ ent.body

def encode (ent : Entry) : Except EntryError Bytes :=
  if maxEntrySize < ent.size then .error .tooLarge else .ok ent.bytes

/-- A slice of a byte string. -/
def slice (data : Bytes) (start stop : ℕ) : Bytes := (data.take stop).drop start

/-- Decode one record from the front of the input and return what follows it. -/
def decode (input : Bytes) : Except EntryError (Entry × Bytes) :=
  if input.length < entryHeaderSize then .error .eof
  else
    let seq := LittleEndian.decode (slice input 4 12)
    let klen := LittleEndian.decode (slice input 12 16)
    let vlen := LittleEndian.decode (slice input 16 20)
    if maxEntrySize < klen + vlen then .error .tooLarge
    else if input.length < entryHeaderSize + (klen + vlen) then .error .eof
    else
      let data := slice input entryHeaderSize (entryHeaderSize + (klen + vlen))
      if (crc32 (slice input 4 entryHeaderSize ++ data)).toNat ≠ LittleEndian.decode (slice input 0 4) then
        .error .badSum
      else
        match EntryOp.ofCode (input.getD 20 0) with
        | none => .error .badEntryOp
        | some op => .ok (⟨data.take klen, data.drop klen, seq, op⟩, input.drop (entryHeaderSize + (klen + vlen)))

theorem ofCode_code (op : EntryOp) : EntryOp.ofCode op.code = some op := by
  cases op <;> rfl

theorem length_body (ent : Entry) : ent.body.length = 17 + ent.size := by
  simp only [body, List.length_append, LittleEndian.length_encode, List.length_singleton, size]
  omega

theorem length_bytes (ent : Entry) : ent.bytes.length = entryHeaderSize + ent.size := by
  simp only [bytes, List.length_append, LittleEndian.length_encode, length_body, entryHeaderSize]
  omega

theorem slice_append {whole : Bytes} (front middle back : Bytes) {start stop : ℕ}
    (split : whole = front ++ (middle ++ back)) (low : start = front.length)
    (high : stop = front.length + middle.length) : slice whole start stop = middle := by
  subst split low high
  rw [slice, List.take_length_add_append, List.drop_left', List.take_left']
  all_goals simp

/-- Decoding inverts encoding, whatever follows the record. -/
theorem decode_bytes {ent : Entry} (fits : ent.size ≤ maxEntrySize) (counted : ent.seq < 2 ^ 64)
    (rest : Bytes) : decode (ent.bytes ++ rest) = .ok (ent, rest) := by
  obtain ⟨key, val, seq, op⟩ := ent
  have small : key.length + val.length ≤ maxEntrySize := fits
  have cap : maxEntrySize < 256 ^ 4 := by decide
  let sum := LittleEndian.encode 4 (crc32 (body ⟨key, val, seq, op⟩)).toNat
  let seqField := LittleEndian.encode 8 seq
  let keyField := LittleEndian.encode 4 key.length
  let valField := LittleEndian.encode 4 val.length
  have sumLength : sum.length = 4 := LittleEndian.length_encode ..
  have seqLength : seqField.length = 8 := LittleEndian.length_encode ..
  have keyLength : keyField.length = 4 := LittleEndian.length_encode ..
  have valLength : valField.length = 4 := LittleEndian.length_encode ..
  have whole : bytes ⟨key, val, seq, op⟩ ++ rest =
      sum ++ (seqField ++ (keyField ++ (valField ++ (op.code :: (key ++ (val ++ rest)))))) := by
    simp [bytes, body, sum, seqField, keyField, valField]
  have length : (bytes ⟨key, val, seq, op⟩ ++ rest).length =
      entryHeaderSize + (key.length + val.length) + rest.length := by
    rw [List.length_append, length_bytes]
    rfl
  have seqSlice : slice (bytes ⟨key, val, seq, op⟩ ++ rest) 4 12 = seqField :=
    slice_append sum seqField _ whole (by omega) (by omega)
  have keySlice : slice (bytes ⟨key, val, seq, op⟩ ++ rest) 12 16 = keyField :=
    slice_append (sum ++ seqField) keyField (valField ++ (op.code :: (key ++ (val ++ rest))))
      (by rw [whole]; simp) (by simp; omega) (by simp; omega)
  have valSlice : slice (bytes ⟨key, val, seq, op⟩ ++ rest) 16 20 = valField :=
    slice_append (sum ++ seqField ++ keyField) valField (op.code :: (key ++ (val ++ rest)))
      (by rw [whole]; simp) (by simp; omega) (by simp; omega)
  have sumSlice : slice (bytes ⟨key, val, seq, op⟩ ++ rest) 0 4 = sum :=
    slice_append [] sum _ whole rfl (by simp; omega)
  have headSlice : slice (bytes ⟨key, val, seq, op⟩ ++ rest) 4 entryHeaderSize =
      seqField ++ keyField ++ valField ++ [op.code] :=
    slice_append sum _ (key ++ (val ++ rest)) (by rw [whole]; simp) (by omega)
      (by simp [entryHeaderSize]; omega)
  have dataSlice : slice (bytes ⟨key, val, seq, op⟩ ++ rest) entryHeaderSize
      (entryHeaderSize + (key.length + val.length)) = key ++ val :=
    slice_append (sum ++ seqField ++ keyField ++ valField ++ [op.code]) (key ++ val) rest
      (by rw [whole]; simp) (by simp [entryHeaderSize]; omega) (by simp [entryHeaderSize]; omega)
  have opByte : (bytes ⟨key, val, seq, op⟩ ++ rest).getD 20 0 = op.code := by
    have front : sum ++ (seqField ++ (keyField ++ (valField ++ (op.code :: (key ++ (val ++ rest)))))) =
        (sum ++ seqField ++ keyField ++ valField) ++ (op.code :: (key ++ (val ++ rest))) := by simp
    rw [whole, front, List.getD_eq_getElem?_getD, List.getElem?_append_right (by simp; omega)]
    have at0 : 20 - (sum ++ seqField ++ keyField ++ valField).length = 0 := by simp; omega
    rfl
  have tail : (bytes ⟨key, val, seq, op⟩ ++ rest).drop (entryHeaderSize + (key.length + val.length)) = rest := by
    rw [List.drop_left' (by rw [length_bytes]; rfl)]
  have keyValue : LittleEndian.decode keyField = key.length := LittleEndian.decode_encode (by omega)
  have valValue : LittleEndian.decode valField = val.length := LittleEndian.decode_encode (by omega)
  have seqValue : LittleEndian.decode seqField = seq := LittleEndian.decode_encode (by simpa using counted)
  have sumValue : LittleEndian.decode sum = (crc32 (body ⟨key, val, seq, op⟩)).toNat :=
    LittleEndian.decode_encode (by simpa using (crc32 (body ⟨key, val, seq, op⟩)).toNat_lt)
  have covered : seqField ++ keyField ++ valField ++ [op.code] ++ (key ++ val) = body ⟨key, val, seq, op⟩ := by
    simp [body, seqField, keyField, valField]
  simp only [decode, seqSlice, keySlice, valSlice, sumSlice, headSlice, keyValue, valValue, seqValue,
    dataSlice, sumValue, covered, opByte, ofCode_code, tail]
  rw [if_neg (by omega), if_neg (by omega), if_neg (by omega), if_neg (by simp)]
  simp

private theorem slice_slice (data : Bytes) {start middle stop : ℕ} (low : start ≤ middle) (high : middle ≤ stop) :
    slice data start middle ++ slice data middle stop = slice data start stop := by
  have inner : data.take middle = (data.take stop).take middle := by rw [List.take_take, Nat.min_eq_left high]
  rw [slice, slice, slice, inner, List.drop_take, ← Nat.sub_add_cancel low, Nat.add_sub_cancel, Nat.add_comm,
    ← List.drop_drop, List.take_append_drop]

theorem length_slice (data : Bytes) (start : ℕ) {stop : ℕ} (inside : stop ≤ data.length) :
    (slice data start stop).length = stop - start := by
  rw [slice, List.length_drop, List.length_take, Nat.min_eq_left inside]

/-- A slice is the field that encodes its value. -/
theorem encode_slice (data : Bytes) (start : ℕ) {stop : ℕ} (inside : stop ≤ data.length) :
    LittleEndian.encode (stop - start) (LittleEndian.decode (slice data start stop)) = slice data start stop := by
  rw [← length_slice data start inside, LittleEndian.encode_decode]

private theorem code_ofCode {code : UInt8} {op : EntryOp} (known : EntryOp.ofCode code = some op) : op.code = code := by
  unfold EntryOp.ofCode at known
  split at known
  · next same => cases known; exact same.symm
  · split at known
    · next same => cases known; exact same.symm
    · split at known
      · next same => cases known; exact same.symm
      · contradiction

/-- What decodes is a record, byte for byte, that `Encode` writes. -/
theorem decode_sound {input rest : Bytes} {ent : Entry} (decoded : decode input = .ok (ent, rest)) :
    input = ent.bytes ++ rest ∧ ent.size ≤ maxEntrySize ∧ ent.seq < 2 ^ 64 := by
  simp only [decode] at decoded
  split at decoded
  · contradiction
  next header =>
  split at decoded
  · contradiction
  next small =>
  split at decoded
  · contradiction
  next whole =>
  split at decoded
  · contradiction
  next sum =>
  split at decoded
  · contradiction
  next op known =>
  obtain ⟨rfl, rfl⟩ := decoded
  generalize klenEq : LittleEndian.decode (slice input 12 16) = klen at *
  generalize vlenEq : LittleEndian.decode (slice input 16 20) = vlen at *
  have twentyOne : entryHeaderSize = 21 := rfl
  generalize stopEq : entryHeaderSize + (klen + vlen) = stop at *
  have inside : stop ≤ input.length := by omega
  have dataLength : (slice input entryHeaderSize stop).length = klen + vlen := by
    rw [length_slice input _ inside]
    omega
  have field (start stop : ℕ) (fits : stop ≤ 21) :
      LittleEndian.encode (stop - start) (LittleEndian.decode (slice input start stop)) = slice input start stop :=
    encode_slice input start (by omega)
  have keyLength : ((slice input entryHeaderSize stop).take klen).length = klen := by
    rw [List.length_take, dataLength]
    omega
  have valLength : ((slice input entryHeaderSize stop).drop klen).length = vlen := by
    rw [List.length_drop, dataLength]
    omega
  have opByte : [op.code] = slice input 20 21 := by
    have inRange : 20 < input.length := by omega
    rw [code_ofCode known, slice, List.drop_take, List.drop_eq_getElem_cons inRange,
      List.getD_eq_getElem?_getD, List.getElem?_eq_getElem inRange]
    rfl
  have body : body ⟨(slice input entryHeaderSize stop).take klen, (slice input entryHeaderSize stop).drop klen,
      LittleEndian.decode (slice input 4 12), op⟩ = slice input 4 21 ++ slice input entryHeaderSize stop := by
    rw [body, keyLength, valLength, ← klenEq, ← vlenEq, field 4 12 (by omega),
      field 12 16 (by omega), field 16 20 (by omega), opByte,
      slice_slice input (by omega) (by omega), slice_slice input (by omega) (by omega),
      slice_slice input (by omega) (by omega), List.append_assoc, List.take_append_drop]
  refine ⟨?_, ?_, ?_⟩
  · rw [bytes, body, ← twentyOne, not_not.mp sum, field 0 4 (by omega), ← List.append_assoc,
      slice_slice input (by omega) (by omega), slice_slice input (by omega) (by omega), slice, List.drop_zero,
      List.take_append_drop]
  · rw [size, keyLength, valLength]
    omega
  · have bound := LittleEndian.decode_lt (slice input 4 12)
    rw [length_slice input _ (by omega)] at bound
    simpa using bound

end Entry

end PallasDB
