import PallasDB.Db.LogUpdate

/-! # Failing calls inside `Log.Truncate`

`Log.Truncate` raises the floor in the header, resets the cursors and cuts the file. Any of its calls to the
file may report an error although it took effect. When the write or the flush of the header fails, the cursors
stay where they are while the floor may be raised, and the records behind which they stand are then at or below
it: replay stops at the first of them and finds nothing that is committed later.

Here the log is closed and opened again in order, so replay reads all that was written.
-/

namespace PallasDB

open SortedRun WriteBack Transition Log

/-- The calls to the file inside `Log.Truncate`. -/
inductive TruncateCall where
  | writeHeader
  | syncHeader
  | shrink
  | syncShrink
deriving DecidableEq, Repr

/-- The call that reports an error, and whether its effect reached the file. A flush that fails may have lost
what it was to flush. -/
structure TruncateFault where
  call : TruncateCall
  reached : Bool
deriving DecidableEq, Repr

namespace Log

/-- The write of the header in `Log.writeHeader`. -/
def raise (log : Log) : Log := { log with file := log.file.issue (.write 0 (header log.seq)) }

/-- The flush of the header, and the reset of the cursors after it. -/
def rewind (log : Log) : Log :=
  { log with file := log.file.sync, epoch := log.seq, offset := logHeaderSize, committed := logHeaderSize }

def shrink (log : Log) : Log := { log with file := log.file.issue (.resize logHeaderSize) }

/-- `Log.Truncate`, and whether it returns nil. -/
def truncate (log : Log) : Option TruncateFault → Log × Bool
  | some ⟨.writeHeader, reached⟩ | some ⟨.syncHeader, reached⟩ => (if reached then log.raise else log, false)
  | some ⟨.shrink, reached⟩ | some ⟨.syncShrink, reached⟩ =>
      (if reached then log.raise.rewind.shrink else log.raise.rewind, false)
  | none => ({ log.raise.rewind.shrink with file := log.raise.rewind.shrink.file.sync }, true)

end Log

inductive LogOp where
  | write (slot : KVSlot)
  | commit
  | resetTX
  | truncate (fault : Option TruncateFault)
deriving DecidableEq, Repr

/-- Anything but a `Truncate` that fails to write or flush the header. -/
def LogOp.keepsFloor : LogOp → Bool
  | .truncate (some ⟨.writeHeader, _⟩) | .truncate (some ⟨.syncHeader, _⟩) => false
  | _ => true

/-- The log with the records of the open transaction and the transactions whose `Commit` returned nil since the
most recent `Truncate`. -/
structure LogCalls where
  log : Log
  written : List Entry
  returned : List (List Entry)
  /-- A `Truncate` that failed has raised the floor above records that the cursor stands behind. -/
  stranded : Bool

namespace LogCalls

def truncate (calls : LogCalls) (fault : Option TruncateFault) : LogCalls :=
  let log := (calls.log.truncate fault).1
  match fault with
  | some ⟨.writeHeader, false⟩ | some ⟨.syncHeader, false⟩ => { calls with log := log, returned := [] }
  | some ⟨.writeHeader, true⟩ | some ⟨.syncHeader, true⟩ =>
      { calls with log := log, returned := [], stranded := decide (calls.log.offset ≠ logHeaderSize) }
  | _ => ⟨log, [], [], false⟩

/-- A call of the log. A record that is too large is refused. -/
def step (calls : LogCalls) : LogOp → Option LogCalls
  | .write slot =>
      if calls.log.seq + 1 < 2 ^ 64 then
        match calls.log.write (calls.log.entry slot) with
        | .ok log => some { calls with log := log, written := calls.written ++ [calls.log.entry slot] }
        | .error _ => some calls
      else none
  | .commit =>
      if calls.log.seq + 1 < 2 ^ 64 then
        match calls.log.write calls.log.commitEntry with
        | .ok log => some { calls with
            log := { log with file := log.file.sync, committed := log.offset }
            written := []
            returned := calls.returned ++ [calls.written ++ [calls.log.commitEntry]] }
        | .error _ => some calls
      else none
  | .resetTX => some { calls with
      log := calls.log.resetTX
      written := []
      stranded := calls.stranded && decide (calls.log.committed ≠ logHeaderSize) }
  | .truncate fault => some (calls.truncate fault)

/-- A log that was just opened. -/
def opened (wal : Wal) : LogCalls := ⟨wal.log, [], [], false⟩

/-- The file holds the records up to the cursor, under a floor that has not passed the first of them unless the
log is stranded. -/
structure Holds (calls : LogCalls) (floor : ℕ) (held : List Entry) : Prop where
  counted : calls.log.seq < 2 ^ 64
  below : floor ≤ calls.log.seq
  sized : ∀ ent ∈ held ++ calls.written, ent.size ≤ maxEntrySize ∧ ent.seq ≤ calls.log.seq
  ascends : calls.stranded = false → Ascends floor (held ++ calls.written)
  passed : calls.stranded = true → ∃ first rest, held ++ calls.written = first :: rest ∧ first.seq ≤ floor
  closed : throughCommit held = held
  returned : ∃ older, held = older ++ calls.returned.flatten
  nonempty : ∀ tx ∈ calls.returned, tx ≠ []
  committed : calls.log.committed = logHeaderSize + (bytesOf held).length
  offset : calls.log.offset = calls.log.committed + (bytesOf calls.written).length
  content : calls.log.file.content.take calls.log.offset = header floor ++ bytesOf (held ++ calls.written)

namespace Holds

variable {calls : LogCalls} {floor : ℕ} {held : List Entry}

section

variable (holds : Holds calls floor held)

include holds

theorem front_length : (header floor ++ bytesOf (held ++ calls.written)).length = calls.log.offset := by
  rw [List.length_append, length_header, bytesOf_append, List.length_append, holds.offset, holds.committed]
  omega

theorem offset_eq_header : calls.log.offset = logHeaderSize ↔ held ++ calls.written = [] := by
  rw [← holds.front_length, List.length_append, length_header]
  constructor
  · intro same
    exact bytesOf_length_eq_zero (by omega)
  · intro empty
    rw [empty]
    rfl

/-- What a record of the next number leaves, whether or not it is a commit record. -/
theorem write {ent : Entry} (number : ent.seq = calls.log.seq + 1)
    (counted : calls.log.seq + 1 < 2 ^ 64) {target : Log} (taken : calls.log.write ent = .ok target) :
    Holds { calls with log := target, written := calls.written ++ [ent] } floor held := by
  rw [Log.write, Entry.encode] at taken
  split at taken
  · contradiction
  next fits =>
  obtain rfl := Except.ok.inj taken
  have single : bytesOf [ent] = ent.bytes := by simp [bytesOf]
  have last : lastSeq floor (held ++ calls.written) < ent.seq :=
    number ▸ lastSeq_lt (Nat.lt_succ_of_le holds.below) fun other member =>
      Nat.lt_succ_of_le (holds.sized other member).2
  refine { holds with
    counted := ?_, below := ?_, sized := ?_, ascends := ?_, passed := ?_, offset := ?_, content := ?_ }
  · exact number ▸ counted
  · exact Nat.le_trans holds.below (number ▸ Nat.le_succ _)
  · intro other member
    rw [← List.append_assoc] at member
    rcases List.mem_append.mp member with old | new
    · exact (holds.sized other old).imp_right fun le => Nat.le_trans le (number ▸ Nat.le_succ _)
    · rw [List.mem_singleton.mp new]
      exact ⟨by omega, Nat.le_refl _⟩
  · intro free
    rw [← List.append_assoc]
    exact ascends_append.mpr ⟨holds.ascends free, last, trivial⟩
  · intro stranded
    obtain ⟨first, rest, front, old⟩ := holds.passed stranded
    exact ⟨first, rest ++ [ent], by rw [← List.append_assoc, front]; rfl, old⟩
  · rw [bytesOf_append, List.length_append, single, ← Nat.add_assoc]
    exact congrArg (· + ent.bytes.length) holds.offset
  · have known := holds.content
    rw [← holds.front_length] at known
    have extended := Op.take_write ent.bytes known
    rw [List.length_append, holds.front_length, List.append_assoc, ← single, ← bytesOf_append,
      List.append_assoc] at extended
    rw [File.content_issue, ← single]
    exact extended

/-- A flush that follows a commit record. -/
theorem commit {front : List Entry} {last : Entry}
    (ends : calls.written = front ++ [last]) (commits : last.op = .commit) :
    Holds { calls with
      log := { calls.log with file := calls.log.file.sync, committed := calls.log.offset }
      written := []
      returned := calls.returned ++ [calls.written] } floor (held ++ calls.written) := by
  obtain ⟨older, split⟩ := holds.returned
  exact
    { holds with
      sized := by simpa only [List.append_nil] using holds.sized
      ascends := by simpa only [List.append_nil] using holds.ascends
      passed := by simpa only [List.append_nil] using holds.passed
      closed := by rw [throughCommit_append holds.closed, ends, throughCommit_concat _ commits]
      returned := ⟨older, by rw [split]; simp⟩
      nonempty := by
        intro tx member
        rcases List.mem_append.mp member with old | new
        · exact holds.nonempty tx old
        · rw [List.mem_singleton.mp new, ends]
          simp
      committed := by
        rw [bytesOf_append, List.length_append, ← Nat.add_assoc, ← holds.committed]
        exact holds.offset
      offset := rfl
      content := by
        rw [List.append_nil]
        exact holds.content }

theorem resetTX : Holds { calls with
      log := calls.log.resetTX
      written := []
      stranded := calls.stranded && decide (calls.log.committed ≠ logHeaderSize) } floor held := by
  have shorter : calls.log.committed ≤ calls.log.offset := holds.offset ▸ Nat.le_add_right ..
  have empty : calls.log.committed = logHeaderSize → held = [] := by
    intro start
    have sizes := holds.committed
    exact bytesOf_length_eq_zero (by omega)
  refine { holds with sized := ?_, ascends := ?_, passed := ?_, offset := rfl, content := ?_ }
  · intro ent member
    rw [List.append_nil] at member
    exact holds.sized ent (List.mem_append_left _ member)
  · intro free
    rw [List.append_nil]
    rcases Bool.and_eq_false_iff.mp free with before | start
    · exact (ascends_append.mp (holds.ascends before)).1
    · rw [empty (by simpa using start)]
      trivial
  · intro stranded
    rw [Bool.and_eq_true, decide_eq_true_eq] at stranded
    obtain ⟨first, rest, front, old⟩ := holds.passed stranded.1
    cases held with
    | nil => exact absurd holds.committed stranded.2
    | cons ent others =>
      obtain ⟨rfl, -⟩ := List.cons.inj front
      exact ⟨ent, others, List.append_nil _, old⟩
  · have cut := congrArg (List.take calls.log.committed) holds.content
    rw [List.take_take, Nat.min_eq_left shorter, bytesOf_append, ← List.append_assoc] at cut
    rw [List.append_nil]
    refine cut.trans (List.take_left' ?_)
    rw [List.length_append, length_header, holds.committed]

end

theorem content_raise (log : Log) : log.raise.file.content = header log.seq ++ log.file.content.drop logHeaderSize := by
  rw [raise, File.content_issue]
  simp [Op.apply, length_header]

/-- A header that reaches the file in a call that fails. -/
theorem raise (holds : Holds calls floor held) : Holds { calls with
      log := calls.log.raise
      returned := []
      stranded := decide (calls.log.offset ≠ logHeaderSize) } calls.log.seq held := by
  refine { holds with
    below := Nat.le_refl _, ascends := ?_, passed := ?_, returned := ?_, nonempty := ?_, content := ?_ }
  · intro free
    have start : calls.log.offset = logHeaderSize := by simpa using free
    rw [holds.offset_eq_header.mp start]
    trivial
  · intro stranded
    have behind : held ++ calls.written ≠ [] := holds.offset_eq_header.not.mp (of_decide_eq_true stranded)
    obtain ⟨first, rest, front⟩ := List.exists_cons_of_ne_nil behind
    exact ⟨first, rest, front, (holds.sized first (front ▸ List.mem_cons_self ..)).2⟩
  · exact ⟨held, (List.append_nil _).symm⟩
  · simp
  · have long : logHeaderSize ≤ calls.log.offset := by
      have sizes := holds.front_length
      rw [List.length_append, length_header] at sizes
      omega
    have tail : (calls.log.file.content.drop logHeaderSize).take (calls.log.offset - logHeaderSize) =
        bytesOf (held ++ calls.written) := by
      rw [← List.drop_take, holds.content]
      exact List.drop_left' (length_header floor)
    show (calls.log.raise.file.content).take calls.log.offset = _
    rw [content_raise, List.take_append, List.take_of_length_le (by rw [length_header]; exact long),
      length_header, tail]

/-- Once the header is flushed the log is empty, whatever becomes of the rest of `Truncate`. -/
theorem rewind (holds : Holds calls floor held) {log : Log} (seq : log.seq = calls.log.seq)
    (cursor : log.offset = logHeaderSize ∧ log.committed = logHeaderSize)
    (content : log.file.content.take logHeaderSize = header calls.log.seq) :
    Holds ⟨log, [], [], false⟩ calls.log.seq [] where
  counted := seq ▸ holds.counted
  below := Nat.le_of_eq seq.symm
  sized := by simp
  ascends := fun _ => trivial
  passed := by simp
  closed := rfl
  returned := ⟨[], rfl⟩
  nonempty := by simp
  committed := cursor.2
  offset := by rw [cursor.1, cursor.2]; rfl
  content := by rw [cursor.1, content]; simp

theorem content_rewind (log : Log) : log.raise.rewind.file.content.take logHeaderSize = header log.seq := by
  show log.raise.file.content.take logHeaderSize = _
  rw [content_raise]
  exact List.take_left' (length_header log.seq)

theorem content_shrink (log : Log) : log.raise.rewind.shrink.file.content.take logHeaderSize = header log.seq := by
  have long : logHeaderSize ≤ log.raise.rewind.file.content.length := by
    have sizes := congrArg List.length (content_rewind log)
    rw [List.length_take, length_header] at sizes
    omega
  have start : logHeaderSize ≤ (Op.resize logHeaderSize : Op UInt8).start := Nat.le_refl _
  rw [shrink, File.content_issue, Op.take_apply start long, content_rewind]

section

variable (holds : Holds calls floor held)

include holds

/-- A `Truncate` that has flushed the header leaves an empty log. -/
theorem emptied {fault : Option TruncateFault} (keeps : (LogOp.truncate fault).keepsFloor = true) :
    ∃ log, calls.truncate fault = ⟨log, [], [], false⟩ ∧ log.seq = calls.log.seq ∧
      Holds ⟨log, [], [], false⟩ calls.log.seq [] := by
  rcases fault with - | ⟨call, reached⟩
  · exact ⟨_, rfl, rfl, holds.rewind rfl ⟨rfl, rfl⟩ (content_shrink calls.log)⟩
  · cases call <;> cases reached
    case writeHeader.false | writeHeader.true | syncHeader.false | syncHeader.true => simp [LogOp.keepsFloor] at keeps
    case shrink.false | syncShrink.false => exact ⟨_, rfl, rfl, holds.rewind rfl ⟨rfl, rfl⟩ (content_rewind calls.log)⟩
    case shrink.true | syncShrink.true => exact ⟨_, rfl, rfl, holds.rewind rfl ⟨rfl, rfl⟩ (content_shrink calls.log)⟩

theorem truncate (fault : Option TruncateFault) : ∃ floor held, Holds (calls.truncate fault) floor held := by
  by_cases keeps : (LogOp.truncate fault).keepsFloor = true
  · obtain ⟨log, same, -, emptied⟩ := holds.emptied keeps
    exact ⟨_, _, same ▸ emptied⟩
  · rcases fault with - | ⟨call, reached⟩
    · exact absurd rfl keeps
    · cases call <;> cases reached
      case writeHeader.false | syncHeader.false =>
        exact ⟨floor, held, { holds with
          returned := ⟨held, (List.append_nil _).symm⟩, nonempty := List.forall_mem_nil _ }⟩
      case writeHeader.true | syncHeader.true => exact ⟨_, _, holds.raise⟩
      all_goals exact absurd rfl keeps

theorem step {op : LogOp} {target : LogCalls} (taken : calls.step op = some target) :
    ∃ floor held, Holds target floor held := by
  cases op with
  | write slot =>
    rw [LogCalls.step] at taken
    split at taken
    next counted =>
      split at taken
      · next log wrote =>
        cases taken
        exact ⟨_, _, holds.write rfl counted wrote⟩
      · cases taken
        exact ⟨_, _, holds⟩
    · contradiction
  | commit =>
    rw [LogCalls.step] at taken
    split at taken
    next counted =>
      split at taken
      · next log wrote =>
        cases taken
        exact ⟨_, _, (holds.write rfl counted wrote).commit rfl rfl⟩
      · cases taken
        exact ⟨_, _, holds⟩
    · contradiction
  | resetTX =>
    cases taken
    exact ⟨_, _, holds.resetTX⟩
  | truncate fault =>
    cases taken
    exact holds.truncate fault

/-- The file up to the cursor, and what may lie behind it. -/
theorem content_eq : calls.log.file.content =
    header floor ++ (bytesOf (held ++ calls.written) ++ calls.log.file.content.drop calls.log.offset) := by
  rw [← List.append_assoc, ← holds.content, List.take_append_drop]

theorem opens : openHeader calls.log.file.content = .ok (floor, calls.log.file.content) := by
  have whole := holds.content_eq
  rw [whole]
  exact openHeader_header (Nat.lt_of_le_of_lt holds.below holds.counted) _

/-- The records that replay reads, and the bytes it reads on from. -/
theorem readRecords_eq : readRecords floor calls.log.file.content = readAll calls.log.file.content.length floor
      (bytesOf (held ++ calls.written) ++ calls.log.file.content.drop calls.log.offset) := by
  have whole := congrArg (List.drop logHeaderSize) holds.content_eq
  rw [readRecords, whole.trans (List.drop_left' (length_header floor))]

theorem seq_lt {ent : Entry} (member : ent ∈ held ++ calls.written) : ent.seq < 2 ^ 64 :=
  Nat.lt_of_le_of_lt (holds.sized ent member).2 holds.counted

/-- Replay reads everything that was committed. -/
theorem reads_held (free : calls.stranded = false) :
    ∃ rest, readRecords floor calls.log.file.content = held ++ rest := by
  have enough : (held ++ calls.written).length ≤ calls.log.file.content.length := by
    have few := length_le_bytesOf (held ++ calls.written)
    have sizes := congrArg List.length holds.content_eq
    simp only [List.length_append] at few sizes ⊢
    omega
  rw [holds.readRecords_eq, readAll_bytesOf (fun ent member => (holds.sized ent member).1)
    (fun ent member => holds.seq_lt member) (holds.ascends free) enough, List.append_assoc]
  exact ⟨_, rfl⟩

/-- Replay stops at the first record when that is at or below the floor. -/
theorem reads_nothing (stranded : calls.stranded = true) : readRecords floor calls.log.file.content = [] := by
  obtain ⟨first, rest, front, old⟩ := holds.passed stranded
  have member : first ∈ held ++ calls.written := front ▸ List.mem_cons_self ..
  have decoded := Entry.decode_bytes (holds.sized first member).1 (holds.seq_lt member)
    (bytesOf rest ++ calls.log.file.content.drop calls.log.offset)
  have bytes : bytesOf (first :: rest) ++ calls.log.file.content.drop calls.log.offset =
      first.bytes ++ (bytesOf rest ++ calls.log.file.content.drop calls.log.offset) := by
    simp [bytesOf]
  rw [holds.readRecords_eq, front, bytes]
  cases calls.log.file.content.length with
  | zero => rfl
  | succ rounds => simp only [readAll, decoded, if_pos old]

/-- What replay finds: everything that was committed, or nothing when the log is stranded. -/
theorem replay : ∃ wal, Wal.openLog calls.log.file.content = .ok wal ∧
    if calls.stranded then wal.ledger.held = [] else held <+: wal.ledger.held := by
  refine ⟨_, by rw [Wal.openLog, holds.opens]; rfl, ?_⟩
  show if calls.stranded then throughCommit (readRecords floor calls.log.file.content) = []
    else held <+: throughCommit (readRecords floor calls.log.file.content)
  split
  · next stranded =>
    rw [holds.reads_nothing stranded]
    rfl
  · next free =>
    obtain ⟨rest, read⟩ := holds.reads_held (Bool.eq_false_iff.mpr free)
    rw [read, throughCommit_append holds.closed]
    exact List.prefix_append ..

end

end Holds

theorem holds_opened {image : Bytes} {wal : Wal} (opens : Wal.openLog image = .ok wal) :
    Holds (opened wal) wal.log.epoch wal.ledger.held := by
  obtain ⟨inv, -, quiet⟩ := Wal.logInv_openLog opens
  have none : wal.ledger.writtenEntries = [] := by rw [Ledger.writtenEntries, quiet]; rfl
  have ascends := inv.ascends_held_written
  have offset := inv.offset
  rw [none] at offset
  rw [none, List.append_nil] at ascends
  have within : ∀ ent ∈ wal.ledger.held, ent.seq ≤ wal.log.seq := fun ent member =>
    Nat.le_trans (inv.ascends.le_last_of_mem (List.mem_append_left _ member)) inv.last
  exact
    { counted := inv.counted
      below := Nat.le_trans inv.ascends.le_lastSeq inv.last
      sized := fun ent member => by
        rw [opened, List.append_nil] at member
        exact ⟨inv.sized ent (List.mem_append_left _ member), within ent member⟩
      ascends := fun _ => (List.append_nil wal.ledger.held).symm ▸ ascends
      passed := by simp [opened]
      closed := inv.closed
      returned := ⟨wal.ledger.held, (List.append_nil _).symm⟩
      nonempty := by simp [opened]
      committed := inv.committed
      offset := offset
      content := by simpa [opened, none] using inv.content }

/-- Replay returns every transaction whose `Commit` returned nil since the most recent `Truncate`, exactly unless
a `Truncate` that failed has stranded them. -/
theorem replay_returned_iff (image : Bytes) (wal : Wal) (opens : Wal.openLog image = .ok wal) (ops : List LogOp)
    (calls : LogCalls) (run : run? step (opened wal) ops = some calls) :
    (∃ reopened, Wal.openLog calls.log.file.content = .ok reopened ∧
      calls.returned.flatten <:+: reopened.ledger.held) ↔ (calls.stranded = true → calls.returned = []) := by
  obtain ⟨floor, held, holds⟩ := run?_invariant (fun calls => ∃ floor held, Holds calls floor held)
    (fun ⟨_, _, holds⟩ taken => holds.step taken) ⟨_, _, holds_opened opens⟩ run
  obtain ⟨reopened, again, found⟩ := holds.replay
  constructor
  · rintro ⟨other, also, inside⟩ stranded
    obtain rfl := Except.ok.inj (again.symm.trans also)
    rw [if_pos stranded] at found
    rw [found, List.infix_nil, List.flatten_eq_nil_iff] at inside
    exact List.eq_nil_iff_forall_not_mem.mpr fun tx member => holds.nonempty tx member (inside tx member)
  · intro safe
    refine ⟨reopened, again, ?_⟩
    by_cases stranded : calls.stranded = true
    · rw [safe stranded]
      exact List.nil_infix
    · rw [if_neg stranded] at found
      obtain ⟨older, split⟩ := holds.returned
      exact (split ▸ List.suffix_append ..).isInfix.trans found.isInfix

/-- The first transaction is flushed to a table, but the flush of the header in `Truncate` fails; then another
transaction commits. -/
def commitAfterFailure : List LogOp :=
  [.write ⟨[1], some [7]⟩, .commit, .truncate (some ⟨.syncHeader, true⟩), .write ⟨[2], some [8]⟩, .commit]

/-- The same calls, but it is the call that cuts the file that fails. -/
def commitAfterShrink : List LogOp :=
  [.write ⟨[1], some [7]⟩, .commit, .truncate (some ⟨.shrink, false⟩), .write ⟨[2], some [8]⟩, .commit]

theorem replay_returned_commitAfterShrink : (run? step (opened .fresh) commitAfterShrink).isSome ∧
    ∀ calls, run? step (opened .fresh) commitAfterShrink = some calls →
      ∃ reopened, Wal.openLog calls.log.file.content = .ok reopened ∧
        calls.returned.flatten <:+: reopened.ledger.held := by
  refine ⟨by decide +kernel, fun calls run => ?_⟩
  have free : ((run? step (opened .fresh) commitAfterShrink).all fun calls => !calls.stranded) = true := by
    decide +kernel
  rw [run, Option.all_some, Bool.not_eq_true'] at free
  exact (replay_returned_iff [] .fresh Wal.openLog_nil commitAfterShrink calls run).mpr
    fun stranded => absurd stranded (by simp [free])

/-- Replay finds nothing although the second `Commit` returned nil after the `Truncate`. -/
theorem commitAfterFailure_stranded : ∃ calls reopened, run? step (opened .fresh) commitAfterFailure = some calls ∧
    calls.returned = [[⟨[2], [8], 3, .add⟩, ⟨[], [], 4, .commit⟩]] ∧
    Wal.openLog calls.log.file.content = .ok reopened ∧ reopened.ledger.held = [] := by
  have checked : ((run? step (opened .fresh) commitAfterFailure).any fun calls =>
      decide (calls.returned = [[⟨[2], [8], 3, .add⟩, ⟨[], [], 4, .commit⟩]]) &&
        decide ((Wal.openLog calls.log.file.content).toOption.map (·.ledger.held) = some [])) = true := by
    decide +kernel
  obtain ⟨calls, run, facts⟩ := (Option.any_eq_true _ _).mp checked
  rw [Bool.and_eq_true, decide_eq_true_eq, decide_eq_true_eq] at facts
  obtain ⟨reopened, opens, empty⟩ := Option.map_eq_some_iff.mp facts.2
  refine ⟨calls, reopened, run, facts.1, ?_, empty⟩
  cases read : Wal.openLog calls.log.file.content with
  | error err => simp [read, Except.toOption] at opens
  | ok wal =>
    rw [read] at opens
    exact congrArg Except.ok (Option.some.inj opens)

end LogCalls

end PallasDB
