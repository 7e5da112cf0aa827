import PallasDB.Db.LogCrash

/-! # The calls that write the log

An `updateLog` call appends the records of a transaction and commits them, or is refused by a record that
does not fit and rewinds. A `rewriteLog` call empties the log and then appends the live memtable in the
same way. At every stage of a call it is known which records a crash can leave.
-/

namespace PallasDB

open SortedRun WriteBack Transition Log

theorem Log.slot?_entry (log : Log) (slot : KVSlot) : (log.entry slot).slot? = some slot := by
  obtain ⟨key, val⟩ := slot
  cases val <;> rfl

theorem Log.entry_op (log : Log) (slot : KVSlot) : (log.entry slot).op ≠ .commit := by
  obtain ⟨key, val⟩ := slot
  cases val <;> simp [entry]

variable {wal : Wal} {base : List KVSlot}

namespace Wal

/-- One action was taken, or the next record did not fit. -/
theorem next_cases {target : Wal} (taken : wal.next = some target) :
    ∃ action rest, wal.call = .running (action :: rest) ∧ wal.log.seq + 1 < 2 ^ 64 ∧
      ((∃ log, wal.log.act action = .ok log ∧
          target = ⟨log, if rest = [] then .returned (.ok ()) else .running rest, wal.ledger.note wal.log action⟩) ∨
        ∃ err, wal.log.act action = .error err ∧
          target = ⟨wal.log.resetTX, .returned (.error err), wal.ledger.abandon⟩) := by
  unfold next at taken
  split at taken
  · next action rest running =>
    split at taken
    · next counted =>
      refine ⟨action, rest, running, counted, ?_⟩
      split at taken
      · next log acted => exact .inl ⟨log, acted, (Option.some.inj taken).symm⟩
      · next err refused => exact .inr ⟨err, refused, (Option.some.inj taken).symm⟩
    · contradiction
  · contradiction

/-- How far an `updateLog` call over some committed slots has come. -/
inductive Updating (base : List KVSlot) (wal : Wal) : Prop where
  | writing (rest : SortedArray) (call : wal.call = .running (updateLog rest))
      (inv : LogInv wal.log wal.ledger) (held : slotsOf wal.ledger.held = base)
      (uncommitted : ∀ put ∈ wal.ledger.written, put.ent.op ≠ .commit)
      (progress : slotsOf wal.ledger.writtenEntries ++ rest = wal.ledger.current)
  | committing (call : wal.call = .running [.sync]) (inv : LogInv wal.log wal.ledger)
      (held : slotsOf wal.ledger.held = base) (front : List Put) (last : Put)
      (ends : wal.ledger.written = front ++ [last]) (commits : last.ent.op = .commit)
      (uncommitted : ∀ put ∈ front, put.ent.op ≠ .commit)
      (progress : slotsOf wal.ledger.writtenEntries = wal.ledger.current)
  | committed (call : wal.call = .returned (.ok ())) (inv : LogInv wal.log wal.ledger)
      (quiet : wal.ledger.written = []) (held : slotsOf wal.ledger.held = base ++ wal.ledger.current)
      (fits : ∀ slot ∈ wal.ledger.current, slotSize slot ≤ maxEntrySize)
  | refused (err : EntryError) (call : wal.call = .returned (.error err)) (inv : LogInv wal.log wal.ledger)
      (quiet : wal.ledger.written = []) (held : slotsOf wal.ledger.held = base)
      (large : ∃ slot ∈ wal.ledger.current, maxEntrySize < slotSize slot)

/-- A slot read back from the log is no larger than its record. -/
theorem slotSize_le {entries : List Entry} {bound : ℕ} (sized : ∀ ent ∈ entries, ent.size ≤ bound) :
    ∀ slot ∈ slotsOf entries, slotSize slot ≤ bound := by
  intro slot member
  obtain ⟨ent, inside, stands⟩ := List.mem_filterMap.mp member
  refine Nat.le_trans ?_ (sized ent inside)
  obtain ⟨key, val, seq, op⟩ := ent
  cases op <;> simp [Entry.slot?] at stands <;> simp [← stands, slotSize, Entry.size]

theorem Updating.next {target : Wal} (updating : Updating base wal) (taken : wal.next = some target) :
    Updating base target ∧ target.ledger.current = wal.ledger.current := by
  obtain ⟨action, after, running, counted, outcome⟩ := next_cases taken
  cases updating with
  | writing rest call inv held uncommitted progress =>
    rw [call] at running
    cases rest with
    | nil =>
      obtain ⟨rfl, rfl⟩ : action = .writeCommit ∧ after = [.sync] := by
        simpa [updateLog, eq_comm] using running
      obtain ⟨log, acted, rfl⟩ | ⟨err, failed, -⟩ := outcome
      · have written : (wal.ledger.note wal.log .writeCommit).writtenEntries =
            wal.ledger.writtenEntries ++ [wal.log.commitEntry] := by
          simp [Ledger.writtenEntries, Ledger.note, Ledger.put]
        refine ⟨.committing rfl (inv.write rfl counted acted) held wal.ledger.written
          ⟨wal.log.offset, wal.log.commitEntry⟩ rfl rfl uncommitted ?_, rfl⟩
        rw [List.append_nil] at progress
        rw [written, slotsOf_append, progress]
        exact List.append_nil _
      · simp [act, Log.write, Entry.encode, commitEntry, Entry.size, maxEntrySize] at failed
    | cons slot rest =>
      obtain ⟨rfl, rfl⟩ : action = .write slot ∧ after = updateLog rest := by
        simpa [updateLog, eq_comm] using running
      obtain ⟨log, acted, rfl⟩ | ⟨err, failed, rfl⟩ := outcome
      · have more : updateLog rest ≠ [] := by simp [updateLog]
        have written : (wal.ledger.note wal.log (.write slot)).writtenEntries =
            wal.ledger.writtenEntries ++ [wal.log.entry slot] := by
          simp [Ledger.writtenEntries, Ledger.note, Ledger.put]
        refine ⟨.writing rest (by rw [if_neg more]) (inv.write rfl counted acted) held ?_ ?_, rfl⟩
        · intro put member
          rcases List.mem_append.mp member with old | new
          · exact uncommitted put old
          · rw [List.mem_singleton.mp new]
            exact entry_op wal.log slot
        · have single : slotsOf [wal.log.entry slot] = [slot] := by simp [slotsOf, slot?_entry]
          rw [written, slotsOf_append, single, List.append_assoc]
          exact progress
      · refine ⟨.refused err rfl (inv.abandon uncommitted) rfl held ⟨slot, ?_, ?_⟩, rfl⟩
        · exact progress ▸ List.mem_append_right _ (List.mem_cons_self ..)
        · by_contra small
          have fits : ¬ maxEntrySize < (wal.log.entry slot).size := small
          simp [act, Log.write, Entry.encode, fits] at failed
  | committing call inv held front last ends commits uncommitted progress =>
    obtain ⟨rfl, rfl⟩ : action = .sync ∧ after = [] := by simpa [call, eq_comm] using running
    obtain ⟨log, acted, rfl⟩ | ⟨err, failed, -⟩ := outcome
    · refine ⟨.committed rfl (inv.sync ends commits acted) rfl ?_ ?_, rfl⟩
      · rw [← held, Ledger.note, slotsOf_append]
        exact congrArg _ progress
      · have sized := slotSize_le fun ent member => inv.sized ent (List.mem_append_right _ member)
        rwa [progress] at sized
    · simp [act] at failed
  | committed call => simp [call] at running
  | refused err call => simp [call] at running

/-- What recovery can find at every stage of an `updateLog` call. -/
theorem Updating.recover (updating : Updating base wal) (apart : wal.apart = true) {image : Bytes}
    (left : wal.log.file.Leaves image) (holds : Replays wal.ledger.puts image) :
    ∃ log records, openLog image = .ok (log, replayMem records) ∧
      match wal.call with
      | .returned (.ok ()) => records = base ++ wal.ledger.current
      | .running _ => records = base ∨ records = base ++ wal.ledger.current
      | _ => records = base := by
  cases updating with
  | writing rest call inv held uncommitted progress =>
    obtain ⟨log, opens⟩ := inv.recover_uncommitted uncommitted left holds
    rw [call]
    exact ⟨log, _, opens, .inl held⟩
  | committing call inv held front last ends commits uncommitted progress =>
    rw [call]
    have open_ : ∀ put ∈ wal.ledger.written.dropLast, put.ent.op ≠ .commit := by
      rwa [ends, List.dropLast_concat]
    obtain ⟨log, records, opens, rfl | ⟨-, rfl⟩⟩ := inv.recover open_ apart left holds
    · exact ⟨log, _, opens, .inl held⟩
    · exact ⟨log, _, opens, .inr (by rw [slotsOf_append, held, progress])⟩
  | committed call inv quiet held =>
    obtain ⟨log, opens⟩ := inv.recover_uncommitted (by simp [quiet]) left holds
    rw [call]
    exact ⟨log, _, opens, held⟩
  | refused err call inv quiet held =>
    obtain ⟨log, opens⟩ := inv.recover_uncommitted (by simp [quiet]) left holds
    rw [call]
    exact ⟨log, _, opens, held⟩

end Wal

/-! ## After opening -/

namespace Log

theorem readAll_sound (rounds seq : ℕ) (input : Bytes) :
    (∃ rest, input = bytesOf (readAll rounds seq input) ++ rest) ∧ Ascends seq (readAll rounds seq input) ∧
      ∀ ent ∈ readAll rounds seq input, ent.size ≤ maxEntrySize ∧ ent.seq < 2 ^ 64 := by
  induction rounds generalizing seq input with
  | zero => exact ⟨⟨input, rfl⟩, trivial, by simp [readAll]⟩
  | succ rounds ih =>
    rw [readAll]
    split
    · exact ⟨⟨input, rfl⟩, trivial, by simp⟩
    · next ent rest decoded =>
      split
      · exact ⟨⟨input, rfl⟩, trivial, by simp⟩
      · next rises =>
        obtain ⟨front, sized, counted⟩ := Entry.decode_sound decoded
        obtain ⟨⟨tail, split⟩, ascends, fits⟩ := ih ent.seq rest
        refine ⟨⟨tail, ?_⟩, ⟨Nat.not_le.mp rises, ascends⟩, ?_⟩
        · have cons : bytesOf (ent :: readAll rounds ent.seq rest) =
              ent.bytes ++ bytesOf (readAll rounds ent.seq rest) := rfl
          rw [cons, List.append_assoc, ← split, front]
        · intro other member
          rcases List.mem_cons.mp member with rfl | later
          · exact ⟨sized, counted⟩
          · exact fits other later

theorem lastSeq_lt {bound seq : ℕ} {entries : List Entry} (below : seq < bound)
    (every : ∀ ent ∈ entries, ent.seq < bound) : lastSeq seq entries < bound := by
  induction entries generalizing seq with
  | nil => exact below
  | cons ent rest ih =>
    exact ih (every ent (List.mem_cons_self ..)) fun other member => every other (List.mem_cons_of_mem _ member)

/-- The ledger of a log that was just opened. -/
def opening (held : List Entry) : Ledger := ⟨held, [], [], place logHeaderSize held, []⟩

theorem opening_recent (held : List Entry) :
    (opening held).held ++ (opening held).recent.map Put.ent = held := List.append_nil held

theorem opening_written (held : List Entry) : (opening held).held ++ (opening held).writtenEntries = held :=
  List.append_nil held

theorem logInv_endReplay {epoch : ℕ} {file : Bytes} (floor : epoch < 2 ^ 64)
    (front : file.take logHeaderSize = header epoch) :
    LogInv (endReplay epoch file) (opening (throughCommit (readRecords epoch file))) := by
  obtain ⟨⟨beyond, body⟩, ascends, fits⟩ := readAll_sound file.length epoch (file.drop logHeaderSize)
  rw [← readRecords] at body ascends fits
  obtain ⟨closed, dropped, split⟩ := throughCommit_closed (readRecords epoch file)
  have records := ascends_append.mp (split ▸ ascends)
  have last : lastSeq epoch (throughCommit (readRecords epoch file)) ≤ (endReplay epoch file).seq := by
    have grows := records.2.le_lastSeq
    rwa [← lastSeq_append, ← split] at grows
  have whole : file = header epoch ++ bytesOf (throughCommit (readRecords epoch file)) ++
    (bytesOf dropped ++ beyond) := by
    conv_lhs => rw [← List.take_append_drop logHeaderSize file, front, body, split]
    rw [bytesOf_append]
    simp only [List.append_assoc]
  have committed : (header epoch ++ bytesOf (throughCommit (readRecords epoch file))).length =
      (endReplay epoch file).committed := by
    rw [List.length_append, length_header]
    rfl
  have shown : file.take (endReplay epoch file).committed =
      header epoch ++ bytesOf (throughCommit (readRecords epoch file)) :=
    (congrArg (List.take _) whole).trans (List.take_left' committed)
  have cut : (file.take (endReplay epoch file).committed).take (endReplay epoch file).committed =
      header epoch ++ bytesOf (throughCommit (readRecords epoch file)) := by
    rw [List.take_take, Nat.min_self, shown]
  constructor
  · exact lastSeq_lt floor fun ent member => (fits ent member).2
  · intro ent member
    refine (fits ent ?_).1
    rw [split]
    exact List.mem_append_left _ ((List.mem_append.mp member).resolve_right List.not_mem_nil)
  · rw [opening_recent]
    exact records.1
  · rw [opening_recent]
    exact last
  · exact closed
  · rfl
  · exact cut
  · rfl
  · rw [opening_written]
    exact cut
  · rfl
  · simp [endReplay]
  · intro put member
    have inside : put.ent ∈ throughCommit (readRecords epoch file) := by
      rw [← map_ent_place logHeaderSize (throughCommit (readRecords epoch file))]
      exact List.mem_map_of_mem member
    exact Nat.le_trans (records.1.le_last_of_mem inside) last
  · intro put member later
    have inside : put.ent ∈ throughCommit (readRecords epoch file) := by
      rw [← map_ent_place logHeaderSize (throughCommit (readRecords epoch file))]
      exact List.mem_map_of_mem member
    exact absurd (records.1.le_last_of_mem inside) (Nat.not_le.mpr later)
  · simp [opening]

end Log

namespace Wal

/-- `openLog`, with the ledger of what it found. -/
def openLog (image : Bytes) : Except LogError Wal :=
  (openHeader image).map fun (epoch, file) =>
    ⟨endReplay epoch file, .idle, opening (throughCommit (readRecords epoch file))⟩

/-- The memtable the committed records make. -/
def mem (wal : Wal) : SortedArray := replayMem (slotsOf wal.ledger.held)

theorem openLog_eq (image : Bytes) : Log.openLog image = (openLog image).map fun wal => (wal.log, wal.mem) := by
  rw [Log.openLog, openLog]
  cases openHeader image <;> rfl

/-- A log that opens holds the records its memtable is built from, and nothing else. -/
theorem logInv_openLog {image : Bytes} (opened : openLog image = .ok wal) :
    LogInv wal.log wal.ledger ∧ wal.call = .idle ∧ wal.ledger.written = [] := by
  rw [openLog] at opened
  cases read : openHeader image with
  | error err => simp [read, Except.map] at opened
  | ok pair =>
    obtain ⟨floor, front⟩ := openHeader_sound read
    rw [read] at opened
    cases opened
    exact ⟨logInv_endReplay floor front, rfl, rfl⟩

/-- The log of an empty directory. -/
def fresh : Wal := ⟨⟨⟨header 0, []⟩, 0, 0, logHeaderSize, logHeaderSize⟩, .idle, opening []⟩

theorem openLog_nil : openLog [] = .ok fresh := by
  have file : openHeader [] = .ok (0, header 0) := rfl
  have none : readRecords 0 (header 0) = [] := by decide +kernel
  have whole : (header 0).take logHeaderSize = header 0 := List.take_of_length_le (Nat.le_of_eq (length_header 0))
  rw [openLog, file]
  simp [Except.map, endReplay, none, throughCommit, lastSeq, whole, fresh, opening]

end Wal

/-! ## Histories of transactions -/

/-- A log with the transactions whose `Commit` returned nil since it was opened and the one in flight. -/
structure LogHistory where
  wal : Wal
  acked : List SortedArray
  inFlight : Option SortedArray

inductive LogEvent where
  | begin (updates : SortedArray)
  | next

namespace LogHistory

def step (history : LogHistory) : LogEvent → Option LogHistory
  | .begin updates =>
      if updates = [] then none
      else (history.wal.start updates (updateLog updates)).map fun wal =>
        { history with wal := wal, inFlight := some updates }
  | .next =>
      history.wal.next.map fun wal =>
        match wal.call with
        | .returned (.ok ()) => ⟨wal, history.acked ++ history.inFlight.toList, none⟩
        | .returned (.error _) => ⟨wal, history.acked, none⟩
        | _ => { history with wal := wal }

/-- `openLog`, with an empty history. -/
def openLog (image : Bytes) : Except LogError (LogHistory × SortedArray) :=
  (Wal.openLog image).map fun wal => (⟨wal, [], none⟩, wal.mem)

/-- The memtable after one more transaction: its records replace those of the same keys. -/
def applyUpdates (mem updates : SortedArray) : SortedArray := replayMem (mem ++ updates)

theorem foldl_applyUpdates (base : List KVSlot) (txs : List SortedArray) :
    txs.foldl applyUpdates (replayMem base) = replayMem (base ++ txs.flatten) := by
  induction txs generalizing base with
  | nil => simp
  | cons updates rest ih =>
    rw [List.foldl_cons, applyUpdates, replayMem_append, ih, List.append_assoc, List.flatten_cons]

/-- The committed records are those found at the opening and those of the transactions since. -/
inductive Inv (base : List KVSlot) (history : LogHistory) : Prop where
  | running (rest : List LogAction) (call : history.wal.call = .running rest)
      (updating : history.wal.Updating (base ++ history.acked.flatten))
      (inFlight : history.inFlight = some history.wal.ledger.current)
  | resting (call : ∀ rest, history.wal.call ≠ .running rest) (inv : LogInv history.wal.log history.wal.ledger)
      (quiet : history.wal.ledger.written = [])
      (held : slotsOf history.wal.ledger.held = base ++ history.acked.flatten)
      (inFlight : history.inFlight = none)

theorem Inv.begin {history : LogHistory} (inv : Inv base history) {updates : SortedArray}
    (taken : history.wal.start updates (updateLog updates) = some wal) :
    Inv base { history with wal := wal, inFlight := some updates } := by
  unfold Wal.start at taken
  split at taken
  · contradiction
  next idle =>
  obtain rfl := Option.some.inj taken
  cases inv with
  | running rest call => exact absurd call (idle rest)
  | resting call inv quiet held =>
    have same : LogInv history.wal.log { history.wal.ledger with current := updates } := { inv with }
    refine .running _ rfl (.writing updates rfl same held ?_ ?_) rfl
    · simp [quiet]
    · simp [Ledger.writtenEntries, quiet, slotsOf]

theorem Inv.step {history target : LogHistory} (inv : Inv base history) {event : LogEvent}
    (taken : history.step event = some target) : Inv base target := by
  cases event with
  | begin updates =>
    rw [LogHistory.step] at taken
    split at taken
    · contradiction
    · obtain ⟨wal, started, rfl⟩ := Option.map_eq_some_iff.mp taken
      exact inv.begin started
  | next =>
    obtain ⟨wal, moved, rfl⟩ := Option.map_eq_some_iff.mp taken
    cases inv with
    | resting call =>
      obtain ⟨action, rest, running, -⟩ := Wal.next_cases moved
      exact absurd running (call _)
    | running rest call updating inFlight =>
      obtain ⟨after, current⟩ := updating.next moved
      rw [← current] at inFlight
      -- the stage reached decides whether the transaction is acknowledged
      cases after with
      | writing rest next inv held uncommitted progress =>
        simp only [next]
        exact .running _ next (.writing rest next inv held uncommitted progress) inFlight
      | committing next inv held front last ends commits uncommitted progress =>
        simp only [next]
        exact .running _ next (.committing next inv held front last ends commits uncommitted progress) inFlight
      | committed next inv quiet held =>
        simp only [next]
        refine .resting (by simp [next]) inv quiet ?_ rfl
        simpa [inFlight, List.append_assoc] using held
      | refused err next inv quiet held =>
        simp only [next]
        exact .resting (by simp [next]) inv quiet held rfl

theorem inv_openLog {image : Bytes} {start : LogHistory} {mem : SortedArray}
    (opened : LogHistory.openLog image = .ok (start, mem)) :
    ∃ base, Inv base start ∧ mem = replayMem base := by
  rw [LogHistory.openLog] at opened
  cases read : Wal.openLog image with
  | error err => simp [read, Except.map] at opened
  | ok wal =>
    obtain ⟨inv, idle, quiet⟩ := Wal.logInv_openLog read
    rw [read] at opened
    cases opened
    exact ⟨slotsOf wal.ledger.held, .resting (by simp [idle]) inv quiet (List.append_nil _).symm rfl, rfl⟩

/-- Whatever survives a crash, `Open` rebuilds the memtable from the transactions whose `Commit` returned nil,
with all of the transaction in flight or none of it, unless rewound records lead up to one of its records. -/
theorem replay_atomic (image : Bytes) (start : LogHistory) (mem : SortedArray)
    (opened : LogHistory.openLog image = .ok (start, mem)) (events : List LogEvent) (history : LogHistory)
    (run : run? LogHistory.step start events = some history) (keep : List Bool)
    (holds : Genuine history.wal.ledger.puts (history.wal.log.file.crash keep))
    (apart : history.wal.apart = true) :
    ∃ log rebuilt, Log.openLog (history.wal.log.file.crash keep) = .ok (log, rebuilt) ∧
      (rebuilt = history.acked.foldl applyUpdates mem ∨
        ∃ updates ∈ history.inFlight, rebuilt = (history.acked ++ [updates]).foldl applyUpdates mem) := by
  obtain ⟨base, initial, rfl⟩ := inv_openLog opened
  have inv : Inv base history := run?_invariant (Inv base) (fun inv taken => inv.step taken) initial run
  cases inv with
  | running rest call updating inFlight =>
    obtain ⟨log, records, opens, outcome⟩ := updating.recover apart (File.leaves_crash ..) holds.replays
    rw [call] at outcome
    refine ⟨log, _, opens, outcome.imp (fun same => ?_) fun same => ⟨_, inFlight, ?_⟩⟩
    · rw [same, foldl_applyUpdates]
    · rw [same, foldl_applyUpdates, List.flatten_append, ← List.append_assoc]
      simp
  | resting call inv quiet held =>
    obtain ⟨log, opens⟩ := inv.recover_uncommitted (by simp [quiet]) (File.leaves_crash ..) holds.replays
    refine ⟨log, _, opens, .inl ?_⟩
    rw [held, foldl_applyUpdates]

/-- The history of a log in an empty directory. -/
def fresh : LogHistory := ⟨Wal.fresh, [], none⟩

theorem openLog_nil : LogHistory.openLog [] = .ok (fresh, []) := by
  exact congrArg (fun mem => Except.ok (fresh, mem)) replayMem_nil

/-- One transaction is acknowledged, and a second one has written its commit record. -/
def secondInFlight : List LogEvent :=
  [.begin [⟨[1], some [7]⟩], .next, .next, .next, .begin [⟨[1], none⟩, ⟨[2], some [8]⟩], .next, .next, .next]

theorem replay_atomic_secondInFlight : (run? LogHistory.step fresh secondInFlight).isSome ∧
      ∀ history, run? LogHistory.step fresh secondInFlight = some history →
        ∃ log rebuilt, Log.openLog (history.wal.log.file.crash [true, false, true]) = .ok (log, rebuilt) ∧
          (rebuilt = history.acked.foldl applyUpdates [] ∨
            ∃ updates ∈ history.inFlight, rebuilt = (history.acked ++ [updates]).foldl applyUpdates []) := by
  have checked : ((run? LogHistory.step fresh secondInFlight).all fun history =>
      history.wal.apart &&
        genuine history.wal.ledger.puts (history.wal.log.file.crash [true, false, true])) = true := by
    decide +kernel
  refine ⟨by decide +kernel, fun history run => ?_⟩
  rw [run, Option.all_some, Bool.and_eq_true] at checked
  exact replay_atomic [] fresh [] openLog_nil secondInFlight history run [true, false, true]
    (genuine_iff.mp checked.2) checked.1

/-- A value no record has room for. -/
def oversize : Bytes := List.replicate (maxEntrySize + 1) 0

theorem write_oversize (log : Log) (key : Bytes) : log.act (.write ⟨key, some oversize⟩) = .error .tooLarge := by
  have large : maxEntrySize < (log.entry ⟨key, some oversize⟩).size := by
    rw [Entry.size, entry, Option.getD_some, oversize, List.length_replicate]
    exact Nat.lt_of_lt_of_le (Nat.lt_succ_self _) (Nat.le_add_left ..)
  rw [act, Log.write, Entry.encode, if_pos large]
  rfl

/-- A transaction is refused at its second record; the next one puts a record of the same length over the one
left behind and writes its commit record. -/
def overwriteRefused : List LogEvent :=
  [.begin [⟨[1], some [7]⟩, ⟨[2], some oversize⟩], .next, .next, .begin [⟨[3], some [8]⟩], .next, .next]

private def refusedUpdates : SortedArray := [⟨[1], some [7]⟩, ⟨[2], some oversize⟩]

/-- The history when the first transaction begins, before its second record and after the refusal. -/
private def begun : LogHistory :=
  ⟨⟨fresh.wal.log, .running (updateLog refusedUpdates), { opening [] with current := refusedUpdates }⟩, [],
    some refusedUpdates⟩

private def beforeRefusal : LogHistory :=
  let left : Put := ⟨logHeaderSize, ⟨[1], [7], 1, .add⟩⟩
  ⟨⟨⟨⟨header 0, [.write left.offset left.ent.bytes]⟩, 0, 1, logHeaderSize + left.ent.bytes.length, logHeaderSize⟩,
    .running (updateLog [⟨[2], some oversize⟩]), ⟨[], [], [left], [left], refusedUpdates⟩⟩, [], some refusedUpdates⟩

private def afterRefusal : LogHistory :=
  ⟨⟨beforeRefusal.wal.log.resetTX, .returned (.error .tooLarge), beforeRefusal.wal.ledger.abandon⟩, [], none⟩

private theorem run_overwriteRefused : run? LogHistory.step fresh overwriteRefused =
    run? LogHistory.step afterRefusal [.begin [⟨[3], some [8]⟩], .next, .next] := by
  have began : fresh.step (.begin refusedUpdates) = some begun := rfl
  have wrote : begun.step .next = some beforeRefusal := by
    have call : begun.wal.call = .running (.write ⟨[1], some [7]⟩ :: updateLog [⟨[2], some oversize⟩]) := rfl
    have acted : begun.wal.log.act (.write ⟨[1], some [7]⟩) = .ok beforeRefusal.wal.log := rfl
    have moved : begun.wal.next = some beforeRefusal.wal := by
      rfl
    rfl
  have refused : beforeRefusal.step .next = some afterRefusal := by
    have call : beforeRefusal.wal.call = .running (.write ⟨[2], some oversize⟩ :: updateLog []) := rfl
    have moved : beforeRefusal.wal.next = some afterRefusal.wal := by
      simp only [Wal.next, call, write_oversize]
      rfl
    rw [LogHistory.step, moved]
    rfl
  rw [overwriteRefused, run?, ← refusedUpdates, began, Option.bind_some, run?, wrote, Option.bind_some, run?, refused,
    Option.bind_some]

private theorem toOption_eq_some {ε α : Type*} {result : Except ε α} {value : α}
    (found : result.toOption = some value) : result = .ok value := by
  cases result with
  | error err => contradiction
  | ok other => exact congrArg _ (Option.some.inj found)

/-- A crash can keep the record of the refused transaction and the commit record of the next one. -/
theorem overwriteRefused_mixes : ∃ history log, run? LogHistory.step fresh overwriteRefused = some history ∧
    Genuine history.wal.ledger.puts (history.wal.log.file.crash [true, false, true]) ∧
    Log.openLog (history.wal.log.file.crash [true, false, true]) = .ok (log, [⟨[1], some [7]⟩]) ∧
    ¬ ([⟨[1], some [7]⟩] = history.acked.foldl applyUpdates [] ∨
      ∃ updates ∈ history.inFlight, [⟨[1], some [7]⟩] = (history.acked ++ [updates]).foldl applyUpdates []) := by
  rw [run_overwriteRefused]
  have checked : ((run? LogHistory.step afterRefusal [.begin [⟨[3], some [8]⟩], .next, .next]).all fun history =>
      genuine history.wal.ledger.puts (history.wal.log.file.crash [true, false, true]) &&
        decide (((Log.openLog (history.wal.log.file.crash [true, false, true])).toOption.map Prod.snd) =
          some [⟨[1], some [7]⟩]) &&
        decide (history.acked = [] ∧ history.inFlight = some [⟨[3], some [8]⟩])) = true := by
    decide +kernel
  have some : (run? LogHistory.step afterRefusal [.begin [⟨[3], some [8]⟩], .next, .next]).isSome := by decide +kernel
  obtain ⟨history, run⟩ := Option.isSome_iff_exists.mp some
  rw [run, Option.all_some, Bool.and_eq_true, Bool.and_eq_true, decide_eq_true_eq, decide_eq_true_eq] at checked
  obtain ⟨⟨holds, opens⟩, acked, inFlight⟩ := checked
  obtain ⟨⟨log, rebuilt⟩, found, rfl⟩ := Option.map_eq_some_iff.mp opens
  refine ⟨history, log, run, genuine_iff.mp holds, toOption_eq_some found, ?_⟩
  rw [acked, inFlight]
  rintro (none | ⟨updates, same, all⟩)
  · exact absurd none (by decide)
  · cases same
    exact absurd all (by decide +kernel)

end LogHistory

end PallasDB
