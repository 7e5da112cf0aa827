import PallasDB.Db.EntryRead
import PallasDB.Db.LogUpdate

/-! # Replay, call by call

`openLog` calls `Log.Read` until it reports the end of the log, remembers how many records stood in front of
the last commit record, and builds the memtable of those. Every malformed input is the end of the log and
none is an error, so replay of any file with a valid header returns; what it leaves of the file is what
another replay accepts.
-/

namespace PallasDB

open ChunkReader SortedRun WriteBack Log

/-- `OffsetReader`, on a file whose reads succeed. -/
structure OffsetReader where
  file : Bytes
  offset : ℕ

namespace OffsetReader

/-- `OffsetReader.Read`, which returns a short count at the end of the file and then nothing. -/
def read (size : ℕ) (reader : OffsetReader) : Option Bytes × OffsetReader :=
  let data := Entry.slice reader.file reader.offset (reader.offset + size)
  (if data = [] then none else some data, ⟨reader.file, reader.offset + data.length⟩)

/-- What the reader delivers, as one piece. -/
def input (reader : OffsetReader) : Reader UInt8 :=
  if reader.file.drop reader.offset = [] then [] else [reader.file.drop reader.offset]

theorem flatten_input (reader : OffsetReader) : reader.input.flatten = reader.file.drop reader.offset := by
  rw [input]
  split
  · next empty => rw [empty]; rfl
  · simp

/-- The calls of the reader are those of the piece. -/
theorem read_input {size : ℕ} (wanted : 0 < size) (reader : OffsetReader) :
    ChunkReader.read size reader.input = ((reader.read size).1, (reader.read size).2.input) := by
  have data : Entry.slice reader.file reader.offset (reader.offset + size) =
      (reader.file.drop reader.offset).take size := by
    rw [Entry.slice, List.drop_take, Nat.add_sub_cancel_left]
  have moved : reader.file.drop (reader.offset + ((reader.file.drop reader.offset).take size).length) =
      (reader.file.drop reader.offset).drop size := by
    rw [List.length_take, ← List.drop_drop, ← List.drop_eq_drop_min]
  simp only [read, data, input, moved]
  by_cases empty : reader.file.drop reader.offset = []
  · simp [empty, ChunkReader.read]
  · have some : (reader.file.drop reader.offset).take size ≠ [] := by
      simp only [ne_eq, List.take_eq_nil_iff, not_or]
      exact ⟨Nat.ne_of_gt wanted, empty⟩
    rw [if_neg empty, if_neg some, ChunkReader.read]
    simp only [List.drop_eq_nil_iff, ← Nat.not_lt, ite_not]

end OffsetReader

/-- `Entry.Decode` from the reader of the log. -/
def Entry.decodeAt (reader : OffsetReader) : Except EntryReadError (Entry × OffsetReader) :=
  (decodeFrom reader.input).map fun (ent, after) => (ent, ⟨reader.file, reader.file.length - after.flatten.length⟩)

/-- The errors that `Log.Read` takes for the end of the log. -/
def EntryReadError.endsLog : EntryReadError → Bool
  | .eof | .unexpectedEOF | .badSum | .tooLarge | .badEntryOp => true
  | .io => false

/-- The log during replay; both cursors of the writer stand behind the last commit record. -/
structure Replaying where
  reader : OffsetReader
  seq : ℕ
  committed : ℕ

namespace Replaying

/-- `Log.Read`, up to the call of `endReplay` when there is no record. -/
def read (replay : Replaying) : Except EntryReadError (Option Entry × Replaying) :=
  match Entry.decodeAt replay.reader with
  | .error err => if err.endsLog then .ok (none, replay) else .error err
  | .ok (ent, reader) =>
      if ent.seq ≤ replay.seq then .ok (none, { replay with reader := reader })
      else
        .ok (some ent, ⟨reader, ent.seq, if ent.op = .commit then reader.offset else replay.committed⟩)

/-- The loop of `KV.openLog`, with the records read so far and the number of them before the last commit. -/
def drain : ℕ → Replaying → List Entry → ℕ → Option (Except EntryReadError (Replaying × List Entry))
  | 0, _, _, _ => none
  | rounds + 1, replay, entries, committed =>
      match replay.read with
      | .error err => some (.error err)
      | .ok (none, replay) => some (.ok (replay, entries.take committed))
      | .ok (some ent, replay) =>
          if ent.op = .commit then drain rounds replay entries entries.length
          else drain rounds replay (entries ++ [ent]) committed

/-- `Log.endReplay`. -/
def endReplay (replay : Replaying) (epoch : ℕ) : Log :=
  let file := replay.reader.file
  ⟨⟨if file.length = replay.committed then file else (Op.resize replay.committed).apply file, []⟩, epoch, replay.seq,
    replay.committed, replay.committed⟩

end Replaying

inductive ReplayError where
  | header (err : LogError)
  | decode (err : EntryReadError)
deriving DecidableEq, Repr

/-- `Log.Open` and the loop of `KV.openLog`, unless the rounds run out: the floor, the log and the entries kept. -/
def drainLog (rounds : ℕ) (image : Bytes) : Option (Except ReplayError (ℕ × Replaying × List Entry)) :=
  match openHeader image with
  | .error err => some (.error (.header err))
  | .ok (epoch, file) =>
      (Replaying.drain rounds ⟨⟨file, logHeaderSize⟩, epoch, logHeaderSize⟩ [] 0).map fun result =>
        (result.mapError .decode).map fun (replay, entries) => (epoch, replay, entries)

/-- `Log.Open` and `KV.openLog`. -/
def replayLog (rounds : ℕ) (image : Bytes) : Option (Except ReplayError (Log × SortedArray)) :=
  (drainLog rounds image).map fun result =>
    result.map fun (epoch, replay, entries) => (replay.endReplay epoch, replayMem (slotsOf entries))

/-! ## The loop reads the records of the file -/

theorem throughCommit_cons_commit {ent : Entry} (commits : ent.op = .commit) (rest : List Entry) :
    throughCommit (ent :: rest) = ent :: throughCommit rest := by
  rw [throughCommit, if_pos (.inl commits)]

theorem throughCommit_cons_of_ne {ent : Entry} (stays : ent.op ≠ .commit) (rest : List Entry) :
    throughCommit (ent :: rest) = if throughCommit rest = [] then [] else ent :: throughCommit rest := by
  by_cases last : throughCommit rest = [] <;> simp [throughCommit, stays, last]

namespace Replaying

variable {file rest : Bytes} {offset seq committed : ℕ} {ent : Entry}

theorem read_record (decoded : Entry.decode (file.drop offset) = .ok (ent, rest)) (rises : seq < ent.seq) :
    read ⟨⟨file, offset⟩, seq, committed⟩ = .ok (some ent, ⟨⟨file, offset + ent.bytes.length⟩, ent.seq,
      if ent.op = .commit then offset + ent.bytes.length else committed⟩) := by
  obtain ⟨split, fits, counted⟩ := Entry.decode_sound decoded
  obtain ⟨after, found, left⟩ := Entry.decodeFrom_bytes fits counted
    ((OffsetReader.flatten_input ⟨file, offset⟩).trans split)
  have moved : file.length - after.flatten.length = offset + ent.bytes.length := by
    have sizes := congrArg List.length split
    have positive := bytes_pos ent
    rw [List.length_drop, List.length_append] at sizes
    rw [left]
    omega
  simp only [read, Entry.decodeAt, found, Except.map, moved, Nat.not_le.mpr rises, if_false]

theorem read_stale (decoded : Entry.decode (file.drop offset) = .ok (ent, rest)) (stale : ent.seq ≤ seq) :
    ∃ after, read ⟨⟨file, offset⟩, seq, committed⟩ = .ok (none, ⟨⟨file, after⟩, seq, committed⟩) := by
  obtain ⟨split, fits, counted⟩ := Entry.decode_sound decoded
  obtain ⟨after, found, -⟩ := Entry.decodeFrom_bytes fits counted
    ((OffsetReader.flatten_input ⟨file, offset⟩).trans split)
  refine ⟨file.length - after.flatten.length, ?_⟩
  simp only [read, Entry.decodeAt, found, Except.map, stale, if_true]

theorem read_malformed {err : EntryError} (refused : Entry.decode (file.drop offset) = .error err) :
    read ⟨⟨file, offset⟩, seq, committed⟩ = .ok (none, ⟨⟨file, offset⟩, seq, committed⟩) := by
  rw [← OffsetReader.flatten_input ⟨file, offset⟩] at refused
  rcases Entry.decodeFrom_cases (OffsetReader.input ⟨file, offset⟩) with ⟨ent, after, -, found⟩ |
    ⟨cause, -, failed, known, -⟩
  · rw [refused] at found
    contradiction
  · have ends : cause.endsLog = true := by
      cases cause with
      | io => exact absurd rfl known
      | _ => rfl
    simp only [read, Entry.decodeAt, failed, Except.map, ends, if_true]

/-- What the loop makes of the records it reads from an offset on: the log it ends with and the entries it keeps. -/
def Drained (file : Bytes) (offset seq committed : ℕ) (entries : List Entry) (kept : ℕ) (read : List Entry)
    (result : Replaying × List Entry) : Prop :=
  result.1.reader.file = file ∧ result.1.seq = lastSeq seq read ∧
    if throughCommit read = [] then result.1.committed = committed ∧ result.2 = entries.take kept
    else result.1.committed = offset + (bytesOf (throughCommit read)).length ∧
      result.2 = entries ++ (throughCommit read).filter fun ent => ent.op ≠ .commit

theorem Drained.commit {entries read : List Entry} {kept : ℕ} {result : Replaying × List Entry}
    (commits : ent.op = .commit)
    (later : Drained file (offset + ent.bytes.length) ent.seq (offset + ent.bytes.length) entries entries.length read
      result) : Drained file offset seq committed entries kept (ent :: read) result := by
  obtain ⟨same, last, kept⟩ := later
  refine ⟨same, last, ?_⟩
  rw [throughCommit_cons_commit commits, if_neg (List.cons_ne_nil _ _)]
  split at kept
  · next none =>
    rw [none, kept.1, kept.2]
    simp [bytesOf, commits]
  · rw [kept.1, kept.2]
    simp [bytesOf, commits, Nat.add_assoc]

theorem Drained.entry {entries read : List Entry} {kept : ℕ} {result : Replaying × List Entry}
    (stays : ent.op ≠ .commit) (inside : kept ≤ entries.length)
    (later : Drained file (offset + ent.bytes.length) ent.seq committed (entries ++ [ent]) kept read result) :
    Drained file offset seq committed entries kept (ent :: read) result := by
  obtain ⟨same, last, kept⟩ := later
  refine ⟨same, last, ?_⟩
  rw [throughCommit_cons_of_ne stays]
  split at kept
  · next none =>
    rw [if_pos none, if_pos rfl, kept.1, kept.2, List.take_append_of_le_length inside]
    exact ⟨rfl, rfl⟩
  · next some =>
    rw [if_neg some, if_neg (List.cons_ne_nil _ _), kept.1, kept.2]
    simp [bytesOf, stays, Nat.add_assoc]

/-- The loop returns after a round for each record and one for the end. -/
theorem drain_returns {rounds : ℕ} (enough : file.length - offset < rounds) {entries : List Entry} {kept : ℕ}
    (inside : kept ≤ entries.length) :
    ∃ result, drain rounds ⟨⟨file, offset⟩, seq, committed⟩ entries kept = some (.ok result) ∧
      Drained file offset seq committed entries kept (readAll rounds seq (file.drop offset)) result := by
  induction rounds generalizing offset seq committed entries kept with
  | zero => omega
  | succ rounds ih =>
    rw [drain, readAll]
    cases decoded : Entry.decode (file.drop offset) with
    | error err =>
      rw [read_malformed decoded]
      exact ⟨_, rfl, rfl, rfl, rfl, rfl⟩
    | ok pair =>
      obtain ⟨ent, rest⟩ := pair
      by_cases stale : ent.seq ≤ seq
      · obtain ⟨after, stops⟩ := @read_stale file rest offset seq committed ent decoded stale
        simp only [stops, stale, if_true]
        exact ⟨_, rfl, rfl, rfl, rfl, rfl⟩
      have split := (Entry.decode_sound decoded).1
      have next : file.drop (offset + ent.bytes.length) = rest := by
        rw [← List.drop_drop, split]
        exact List.drop_left
      have shorter : file.length - (offset + ent.bytes.length) < rounds := by
        have positive := bytes_pos ent
        have sizes := congrArg List.length split
        rw [List.length_drop, List.length_append] at sizes
        omega
      simp only [read_record decoded (Nat.lt_of_not_le stale), stale, if_false]
      by_cases commits : ent.op = .commit
      · rw [if_pos commits, if_pos commits]
        obtain ⟨result, drained, found⟩ := @ih _ ent.seq (offset + ent.bytes.length) shorter entries _ (Nat.le_refl _)
        rw [next] at found
        exact ⟨result, drained, found.commit commits⟩
      · rw [if_neg commits, if_neg commits]
        have room : kept ≤ (entries ++ [ent]).length := by
          rw [List.length_append]
          omega
        obtain ⟨result, drained, found⟩ := @ih _ ent.seq committed shorter (entries ++ [ent]) kept room
        rw [next] at found
        exact ⟨result, drained, found.entry commits inside⟩

end Replaying

/-- More rounds than bytes change nothing. -/
theorem readAll_enough {first second seq : ℕ} {input : Bytes} (enough : input.length ≤ first)
    (also : input.length ≤ second) : readAll first seq input = readAll second seq input := by
  induction first generalizing second seq input with
  | zero =>
    rw [List.length_eq_zero_iff.mp (Nat.le_zero.mp enough), readAll_nil, readAll_nil]
  | succ first ih =>
    cases second with
    | zero => rw [List.length_eq_zero_iff.mp (Nat.le_zero.mp also), readAll_nil, readAll_nil]
    | succ second =>
      rw [readAll, readAll]
      cases decoded : Entry.decode input with
      | error err => rfl
      | ok pair =>
        obtain ⟨ent, rest⟩ := pair
        have positive := bytes_pos ent
        have sizes := congrArg List.length (Entry.decode_sound decoded).1
        rw [List.length_append] at sizes
        simp only [@ih second ent.seq rest (by omega) (by omega)]

/-- The kept records end with a commit record, and none of those dropped is one. -/
theorem throughCommit_spec (entries : List Entry) :
    ∃ dropped, entries = throughCommit entries ++ dropped ∧ (∀ ent ∈ dropped, ent.op ≠ .commit) ∧
      (throughCommit entries = [] ∨ ∃ front last, throughCommit entries = front ++ [last] ∧ last.op = .commit) := by
  induction entries with
  | nil => exact ⟨[], rfl, by simp, .inl rfl⟩
  | cons ent rest ih =>
    obtain ⟨dropped, split, plain, ends⟩ := ih
    by_cases commits : ent.op = .commit
    · rw [throughCommit_cons_commit commits]
      refine ⟨dropped, congrArg (ent :: ·) split, plain, .inr ?_⟩
      rcases ends with none | ⟨front, last, kept, closes⟩
      · exact ⟨[], ent, by rw [none]; rfl, commits⟩
      · exact ⟨ent :: front, last, by rw [kept]; rfl, closes⟩
    · rw [throughCommit_cons_of_ne commits]
      rcases ends with none | ⟨front, last, kept, closes⟩
      · rw [if_pos none]
        rw [none, List.nil_append] at split
        refine ⟨ent :: rest, rfl, fun other member => ?_, .inl rfl⟩
        rcases List.mem_cons.mp member with rfl | later
        · exact commits
        · exact plain other (split ▸ later)
      · rw [if_neg (by simp [kept])]
        exact ⟨dropped, congrArg (ent :: ·) split, plain, .inr ⟨ent :: front, last, by rw [kept]; rfl, closes⟩⟩

private theorem slotsOf_filter (entries : List Entry) :
    slotsOf (entries.filter fun ent => ent.op ≠ .commit) = slotsOf entries := by
  rw [slotsOf, slotsOf, List.filterMap_filter]
  congr 1
  funext ent
  by_cases commits : ent.op = .commit <;> simp [commits, Entry.slot?]

/-- The file in which replay finds the given records. -/
theorem committed_le {epoch : ℕ} {file : Bytes} (front : file.take logHeaderSize = header epoch) :
    logHeaderSize + (bytesOf (throughCommit (readRecords epoch file))).length ≤ file.length ∧
      file.take (logHeaderSize + (bytesOf (throughCommit (readRecords epoch file))).length) =
        header epoch ++ bytesOf (throughCommit (readRecords epoch file)) := by
  obtain ⟨rest, body⟩ := (readAll_sound file.length epoch (file.drop logHeaderSize)).1
  obtain ⟨dropped, split, -⟩ := throughCommit_spec (readRecords epoch file)
  have whole : file = header epoch ++ (bytesOf (throughCommit (readRecords epoch file)) ++
    (bytesOf dropped ++ rest)) := by
    conv_lhs => rw [← List.take_append_drop logHeaderSize file, front, body]
    rw [← List.append_assoc (bytesOf _), ← bytesOf_append, ← split]
    rfl
  have sizes := congrArg List.length whole
  simp only [List.length_append, length_header] at sizes
  refine ⟨by omega, ?_⟩
  have taken := congrArg (List.take (logHeaderSize + (bytesOf (throughCommit (readRecords epoch file))).length)) whole
  rw [← List.append_assoc] at taken
  exact taken.trans (List.take_left' (by rw [List.length_append, length_header]))

/-- The loop keeps the entries of the records through the last commit record. -/
theorem drainLog_eq {rounds epoch : ℕ} {image file : Bytes} (opened : openHeader image = .ok (epoch, file))
    (enough : image.length < rounds) :
    ∃ replay, drainLog rounds image = some (.ok (epoch, replay,
        (throughCommit (readRecords epoch file)).filter fun ent => ent.op ≠ .commit)) ∧
      replay.endReplay epoch = Log.endReplay epoch file := by
  have front := (openHeader_sound opened).2
  have short : file.length - logHeaderSize ≤ image.length := by
    rw [openHeader] at opened
    split at opened
    · obtain ⟨rfl, rfl⟩ := Prod.mk.inj (Except.ok.inj opened)
      simp only [Op.apply, pad, List.length_append, List.length_take, List.length_drop, length_header]
      omega
    · split at opened
      · contradiction
      · split at opened
        · contradiction
        · obtain ⟨rfl, rfl⟩ := Prod.mk.inj (Except.ok.inj opened)
          omega
  obtain ⟨⟨replay, entries⟩, drained, same, last, kept⟩ :=
    @Replaying.drain_returns file logHeaderSize epoch logHeaderSize rounds (by omega) [] 0 (Nat.zero_le _)
  have records : readAll rounds epoch (file.drop logHeaderSize) = readRecords epoch file :=
    readAll_enough (by rw [List.length_drop]; omega) (by rw [List.length_drop]; omega)
  rw [records] at last kept
  dsimp only at same last kept
  have cut : replay.committed = logHeaderSize + (bytesOf (throughCommit (readRecords epoch file))).length ∧
      entries = (throughCommit (readRecords epoch file)).filter fun ent => ent.op ≠ .commit := by
    split at kept
    · next none =>
      rw [none]
      exact kept
    · exact kept
  refine ⟨replay, ?_, ?_⟩
  · rw [drainLog, opened]
    simp only [drained, Option.map_some, Except.mapError, Except.map, cut.2]
  · have shortened : (if file.length = replay.committed then file else (Op.resize replay.committed).apply file) =
        file.take replay.committed := by
      split
      · next full => rw [← full, List.take_length]
      · rw [Op.apply, pad, Nat.sub_eq_zero_of_le (cut.1 ▸ (committed_le front).1), List.replicate_zero, List.append_nil]
    rw [cut.1] at shortened
    simp only [Replaying.endReplay, same, cut.1, shortened, last, Log.endReplay]

/-- Replay call by call finds what the records of the file say. -/
theorem replayLog_eq {rounds : ℕ} {image : Bytes} (enough : image.length < rounds) :
    replayLog rounds image = some ((openLog image).mapError .header) := by
  rw [replayLog, openLog]
  cases opened : openHeader image with
  | error err => rw [drainLog, opened]; rfl
  | ok pair =>
    obtain ⟨replay, drained, ended⟩ := drainLog_eq opened enough
    rw [drained]
    simp only [Option.map_some, Except.map, Except.mapError, ended, slotsOf_filter]

private theorem endReplay_committed (epoch : ℕ) (file : Bytes) : (Log.endReplay epoch file).committed =
    logHeaderSize + (bytesOf (throughCommit (readRecords epoch file))).length := rfl

private theorem endReplay_content (epoch : ℕ) (file : Bytes) : (Log.endReplay epoch file).file.content =
    file.take (logHeaderSize + (bytesOf (throughCommit (readRecords epoch file))).length) := rfl

/-- Replay of any bytes behind a valid header returns, cuts the file behind the last commit record it accepts, and
finds the same again in what it leaves. -/
theorem recovery_total (epoch : ℕ) (counted : epoch < 2 ^ 64) (body : Bytes) :
    ∃ log mem, (∀ rounds, (header epoch ++ body).length < rounds →
        replayLog rounds (header epoch ++ body) = some (.ok (log, mem))) ∧ log.epoch = epoch ∧
      (∃ kept dropped, readRecords epoch (header epoch ++ body) = kept ++ dropped ∧
        (kept = [] ∨ ∃ front last, kept = front ++ [last] ∧ last.op = .commit) ∧ (∀ ent ∈ dropped, ent.op ≠ .commit) ∧
        log.file.content = header epoch ++ bytesOf kept ∧ log.committed = (header epoch ++ bytesOf kept).length ∧
        log.file.content <+: header epoch ++ body) ∧
      ∃ again, (∀ rounds, log.file.content.length < rounds →
          replayLog rounds log.file.content = some (.ok (again, mem))) ∧
        again.committed = log.committed ∧ again.epoch = log.epoch ∧ again.file.content = log.file.content := by
  have opens := openHeader_header counted body
  obtain ⟨-, cut⟩ := committed_le (openHeader_sound opens).2
  obtain ⟨dropped, split, plain, ends⟩ := throughCommit_spec (readRecords epoch (header epoch ++ body))
  obtain ⟨ascends, sized⟩ : Ascends epoch (readRecords epoch (header epoch ++ body)) ∧
      ∀ ent ∈ readRecords epoch (header epoch ++ body), ent.size ≤ maxEntrySize ∧ ent.seq < 2 ^ 64 :=
    (readAll_sound _ epoch _).2
  have ok : openLog (header epoch ++ body) = .ok (Log.endReplay epoch (header epoch ++ body),
      replayMem (slotsOf (throughCommit (readRecords epoch (header epoch ++ body))))) := by
    rw [openLog, opens]
    rfl
  have content := (endReplay_content epoch (header epoch ++ body)).trans cut
  have committed := endReplay_committed epoch (header epoch ++ body)
  have closed := (throughCommit_closed (readRecords epoch (header epoch ++ body))).1
  generalize throughCommit (readRecords epoch (header epoch ++ body)) = kept at *
  have length : (header epoch ++ bytesOf kept).length = logHeaderSize + (bytesOf kept).length := by
    rw [List.length_append, length_header]
  -- what is left reads back as the kept records
  have records : readRecords epoch (header epoch ++ bytesOf kept) = kept := by
    have sub : ∀ ent ∈ kept, ent ∈ readRecords epoch (header epoch ++ body) := fun ent member =>
      split ▸ List.mem_append_left _ member
    have rest : (header epoch ++ bytesOf kept).drop logHeaderSize = bytesOf kept ++ [] := by
      rw [List.append_nil]
      exact List.drop_left' (length_header epoch)
    have few := length_le_bytesOf kept
    rw [split] at ascends
    rw [readRecords, rest, readAll_bytesOf (fun ent member => (sized ent (sub ent member)).1)
      (fun ent member => (sized ent (sub ent member)).2) (ascends_append.mp ascends).1 (by omega), readAll_nil,
      List.append_nil]
  have again : openLog (header epoch ++ bytesOf kept) =
      .ok (Log.endReplay epoch (header epoch ++ bytesOf kept), replayMem (slotsOf kept)) := by
    rw [openLog, openHeader_header counted]
    simp only [Except.map, records, closed]
  refine ⟨Log.endReplay epoch (header epoch ++ body), replayMem (slotsOf kept), fun rounds enough => ?_, rfl, ?_, ?_⟩
  · rw [replayLog_eq enough, ok]
    rfl
  · refine ⟨kept, dropped, split, ends, plain, content, committed.trans length.symm, ?_⟩
    rw [content, ← cut]
    exact List.take_prefix ..
  · refine ⟨Log.endReplay epoch (header epoch ++ bytesOf kept), fun rounds enough => ?_, ?_, rfl, ?_⟩
    · rw [content] at enough ⊢
      rw [replayLog_eq enough, again]
      rfl
    · rw [endReplay_committed, records, closed, committed]
    · rw [content, endReplay_content, records, closed]
      exact List.take_of_length_le (Nat.le_of_eq length)

/-- A committed entry, an entry without a commit record, and a record whose length field is garbage. -/
def tornTail : Bytes :=
  bytesOf [⟨[1], [7], 6, .add⟩, ⟨[], [], 7, .commit⟩, ⟨[2], [8], 8, .add⟩] ++ List.replicate 40 255

theorem recovery_total_tornTail : ∃ log mem again, replayLog 200 (header 5 ++ tornTail) = some (.ok (log, mem)) ∧
    replayLog 200 log.file.content = some (.ok (again, mem)) ∧ again.committed = log.committed ∧ again.epoch = 5 := by
  have short : (header 5 ++ tornTail).length < 200 := by decide +kernel
  obtain ⟨log, mem, opened, floor, ⟨_, _, -, -, -, -, -, cut⟩, again, reopened, committed, epoch, -⟩ :=
    recovery_total 5 (by decide) tornTail
  exact ⟨log, mem, again, opened 200 short, reopened 200 (Nat.lt_of_le_of_lt cut.length_le short), committed,
    epoch.trans floor⟩

end PallasDB
