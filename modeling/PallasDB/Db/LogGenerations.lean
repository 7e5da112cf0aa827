import PallasDB.Db.LogFaults
import PallasDB.Db.LogReplay

/-! # Replay after resets and rewinds

`Truncate` and `ResetTX` leave records in the file that are no longer part of the log, and later records may end
exactly where one of them starts. Replay still returns the transactions committed since the last `Truncate` and
nothing else: no commit record that was ever put has a number between the last committed one and those to come.

The cut of the file in `Truncate` may not happen. Whether the call reports that or not, the log is the same.
-/

namespace PallasDB

open SortedRun WriteBack Transition Log

def LogOp.truncates : LogOp → Bool
  | .truncate _ => true
  | _ => false

/-- A record that fits is written. -/
theorem Log.write_of_fits (log : Log) {ent : Entry} (fits : ¬ maxEntrySize < ent.size) :
    ∃ target, log.write ent = .ok target ∧ target.seq = ent.seq := by
  rw [Log.write, Entry.encode, if_neg fits]
  exact ⟨_, rfl, rfl⟩

namespace LogCalls

/-- The record a call puts into the file. -/
def putsOf (calls : LogCalls) : LogOp → List Put
  | .write slot =>
      if maxEntrySize < (calls.log.entry slot).size then [] else [⟨calls.log.offset, calls.log.entry slot⟩]
  | .commit => [⟨calls.log.offset, calls.log.commitEntry⟩]
  | .resetTX | .truncate _ => []

/-- The calls together with every record put so far. -/
def putStep : LogCalls × List Put → LogOp → Option (LogCalls × List Put) := journaled step putsOf

/-- A log that was just opened, with the records it holds. -/
def openedPuts (wal : Wal) : LogCalls × List Put := (opened wal, wal.ledger.puts)

/-- The log holds what was there before and the transactions committed since; every commit record that was put
has one of their numbers or a smaller one. -/
structure Current (calls : LogCalls) (puts : List Put) (floor : ℕ) (before : List Entry) : Prop where
  holds : Holds calls floor (before ++ calls.returned.flatten)
  free : calls.stranded = false
  counted : ∀ put ∈ puts, put.ent.seq ≤ calls.log.seq
  commits : ∀ put ∈ puts, put.ent.op = .commit → put.ent.seq ≤ lastSeq floor (before ++ calls.returned.flatten)

namespace Current

variable {calls target : LogCalls} {puts : List Put} {floor : ℕ} {before : List Entry}

section

variable (current : Current calls puts floor before)

include current

theorem write {slot : KVSlot} (taken : calls.step (.write slot) = some target) :
    Current target (puts ++ calls.putsOf (.write slot)) floor before := by
  rw [LogCalls.step] at taken
  split at taken
  next counted =>
    by_cases large : maxEntrySize < (calls.log.entry slot).size
    · rw [putsOf, if_pos large, List.append_nil]
      rw [Log.write, Entry.encode, if_pos large] at taken
      cases taken
      exact current
    · rw [putsOf, if_neg large]
      obtain ⟨log, wrote, number⟩ := calls.log.write_of_fits large
      rw [wrote] at taken
      cases taken
      refine ⟨current.holds.write rfl counted wrote, current.free, fun put member => ?_, fun put member closes => ?_⟩
      · rw [number]
        rcases List.mem_append.mp member with old | new
        · exact Nat.le_succ_of_le (current.counted put old)
        · rw [List.mem_singleton.mp new]
      · rcases List.mem_append.mp member with old | new
        · exact current.commits put old closes
        · rw [List.mem_singleton.mp new] at closes
          exact absurd closes (calls.log.entry_op slot)
  · contradiction

theorem commit (taken : calls.step .commit = some target) :
    Current target (puts ++ calls.putsOf .commit) floor before := by
  rw [LogCalls.step] at taken
  split at taken
  next counted =>
    have small : ¬ maxEntrySize < calls.log.commitEntry.size := by simp [commitEntry, Entry.size]
    obtain ⟨log, wrote, number⟩ := calls.log.write_of_fits small
    rw [wrote] at taken
    cases taken
    have next := (current.holds.write rfl counted wrote).commit rfl rfl
    have whole : before ++ (calls.returned ++ [calls.written ++ [calls.log.commitEntry]]).flatten =
        before ++ calls.returned.flatten ++ (calls.written ++ [calls.log.commitEntry]) := by simp
    have last : lastSeq floor (before ++ calls.returned.flatten ++ (calls.written ++ [calls.log.commitEntry])) =
        calls.log.seq + 1 := by
      rw [← List.append_assoc, lastSeq_append]
      rfl
    have bounded : ∀ put ∈ puts ++ calls.putsOf .commit, put.ent.seq ≤ calls.log.seq + 1 := by
      intro put member
      rcases List.mem_append.mp member with old | new
      · exact Nat.le_succ_of_le (current.counted put old)
      · rw [List.mem_singleton.mp new]
        exact Nat.le_refl _
    refine ⟨whole ▸ next, current.free, fun put member => ?_, fun put member _ => ?_⟩
    · rw [number]
      exact bounded put member
    · rw [whole, last]
      exact bounded put member
  · contradiction

theorem resetTX (taken : calls.step .resetTX = some target) : Current target puts floor before := by
  cases taken
  exact ⟨current.holds.resetTX, by simp [current.free], current.counted, current.commits⟩

/-- Once the header is flushed every record put so far is at or below the floor. -/
theorem truncate {fault : Option TruncateFault} (keeps : (LogOp.truncate fault).keepsFloor = true) :
    Current (calls.truncate fault) puts calls.log.seq [] := by
  obtain ⟨log, same, seq, emptied⟩ := current.holds.emptied keeps
  rw [same]
  exact ⟨emptied, rfl, fun put member => seq ▸ current.counted put member,
    fun put member _ => current.counted put member⟩

theorem step {op : LogOp} (keeps : op.keepsFloor = true) (taken : calls.step op = some target) :
    ∃ floor, Current target (puts ++ calls.putsOf op) floor (if op.truncates then [] else before) := by
  cases op with
  | write slot => exact ⟨floor, current.write taken⟩
  | commit => exact ⟨floor, current.commit taken⟩
  | resetTX => exact ⟨floor, by rw [putsOf, List.append_nil]; exact current.resetTX taken⟩
  | truncate fault =>
    cases taken
    exact ⟨_, by rw [putsOf, List.append_nil]; exact current.truncate keeps⟩

/-- Replay of the file finds the committed transactions and no other commit record. -/
theorem replays (genuine : Genuine puts calls.log.file.content) :
    throughCommit (readRecords floor calls.log.file.content) = before ++ calls.returned.flatten := by
  obtain ⟨rest, read⟩ := current.holds.reads_held current.free
  have rises : Ascends floor (readRecords floor calls.log.file.content) := readAll_ascends ..
  have laid : Laid puts logHeaderSize (readRecords floor calls.log.file.content) := readAll_laid genuine ..
  rw [read] at rises laid
  have known := @Laid.forall_mem puts _ _ laid
    (fun ent => ent.op = .commit → ent.seq ≤ lastSeq floor (before ++ calls.returned.flatten)) current.commits
  have plain : throughCommit rest = [] := throughCommit_eq_nil.mpr fun ent member closes =>
    Nat.not_le.mpr ((ascends_append.mp rises).2.lt_of_mem member) (known ent (List.mem_append_right _ member) closes)
  rw [read, throughCommit_append current.holds.closed, plain, List.append_nil]

theorem run {ops : List LogOp} (keeps : ∀ op ∈ ops, op.keepsFloor = true)
    {after : LogCalls × List Put} (ran : run? putStep (calls, puts) ops = some after) :
    ∃ floor, Current after.1 after.2 floor (if ops.any LogOp.truncates then [] else before) := by
  induction ops generalizing calls puts floor before with
  | nil =>
    cases ran
    exact ⟨floor, current⟩
  | cons op ops ih =>
    obtain ⟨⟨target, more⟩, taken, ran⟩ := run?_cons_eq_some.mp ran
    obtain ⟨moved, rfl⟩ := journaled_eq_some.mp taken
    obtain ⟨next, kept⟩ := current.step (keeps op (List.mem_cons_self ..)) moved
    obtain ⟨last, ends⟩ := ih kept (fun other member => keeps other (List.mem_cons_of_mem _ member)) ran
    refine ⟨last, ?_⟩
    cases truncates : op.truncates with
    | false => simpa [truncates] using ends
    | true => simpa [truncates] using ends

end

end Current

theorem current_opened {image : Bytes} {wal : Wal} (opens : Wal.openLog image = .ok wal) :
    Current (opened wal) wal.ledger.puts wal.log.epoch wal.ledger.held := by
  obtain ⟨inv, -, quiet⟩ := Wal.logInv_openLog opens
  have whole : wal.ledger.held ++ (opened wal).returned.flatten = wal.ledger.held := List.append_nil _
  refine ⟨whole.symm ▸ holds_opened opens, rfl, inv.bounded, fun put member closes => ?_⟩
  rw [whole]
  by_contra later
  have recent := inv.known put member (Nat.lt_of_not_le later)
  rw [Ledger.recent, quiet, List.append_nil] at recent
  exact inv.stale put recent closes

/-- The entries of the transactions committed since the last `Truncate`, after those the log was opened with if there
was none. -/
def committedEntries (wal : Wal) (ops : List LogOp) (calls : LogCalls) : List Entry :=
  ((if ops.any LogOp.truncates then [] else wal.ledger.held) ++ calls.returned.flatten).filter fun ent =>
    ent.op ≠ .commit

/-- Replay returns exactly the entries committed since the last `Truncate`, and the memtable shows the last of them
for every key. -/
theorem replay_exact (image : Bytes) (wal : Wal) (opens : Wal.openLog image = .ok wal) (ops : List LogOp)
    (keeps : ∀ op ∈ ops, op.keepsFloor = true) (calls : LogCalls) (puts : List Put)
    (ran : run? putStep (openedPuts wal) ops = some (calls, puts)) (genuine : Genuine puts calls.log.file.content)
    (rounds : ℕ) (enough : calls.log.file.content.length < rounds) :
    ∃ floor replay mem,
      drainLog rounds calls.log.file.content = some (.ok (floor, replay, committedEntries wal ops calls)) ∧
      replayLog rounds calls.log.file.content = some (.ok (replay.endReplay floor, mem)) ∧
      Increasing mem ∧ ∀ key, lookup mem key = lookup (slotsOf (committedEntries wal ops calls)).reverse key := by
  obtain ⟨floor, current⟩ := (current_opened opens).run keeps ran
  obtain ⟨replay, drained, -⟩ := drainLog_eq current.holds.opens enough
  rw [current.replays genuine] at drained
  refine ⟨floor, replay, replayMem (slotsOf (committedEntries wal ops calls)), drained, ?_,
    replayMem_increasing _, lookup_replayMem _⟩
  rw [replayLog, drained]
  rfl

/-- A transaction is rewound and a shorter one takes its place; then the log is reset but the file is not cut, and the
new generation ends inside the old one. -/
def staleTails : List LogOp :=
  [.write ⟨[1], some [7, 7, 7]⟩, .write ⟨[2], some [8]⟩, .resetTX, .write ⟨[3], some [9]⟩, .commit,
    .write ⟨[4], some [1]⟩,
    .commit, .truncate (some ⟨.shrink, false⟩), .write ⟨[5], some [2]⟩, .commit, .write ⟨[6], none⟩]

theorem replay_exact_staleTails : ∃ calls puts, run? putStep (openedPuts .fresh) staleTails = some (calls, puts) ∧
    ∃ floor replay mem, drainLog 1000 calls.log.file.content =
        some (.ok (floor, replay, committedEntries .fresh staleTails calls)) ∧
      replayLog 1000 calls.log.file.content = some (.ok (replay.endReplay floor, mem)) ∧
      Increasing mem ∧ ∀ key, lookup mem key = lookup (slotsOf (committedEntries .fresh staleTails calls)).reverse
        key := by
  have checked : ((run? putStep (openedPuts .fresh) staleTails).any fun state =>
      genuine state.2 state.1.log.file.content && decide (state.1.log.file.content.length < 1000)) = true := by
    decide +kernel
  obtain ⟨⟨calls, puts⟩, ran, facts⟩ := (Option.any_eq_true _ _).mp checked
  obtain ⟨holds, short⟩ := Bool.and_eq_true_iff.mp facts
  exact ⟨calls, puts, ran, replay_exact [] .fresh Wal.openLog_nil staleTails (by decide) calls puts ran
    (genuine_iff.mp holds) 1000 (of_decide_eq_true short)⟩

-- The old generation stays behind the new one, and only the new one is replayed.
example : (run? putStep (openedPuts .fresh) staleTails).map (fun state =>
    committedEntries .fresh staleTails state.1) = some [⟨[5], [2], 7, .add⟩] := by decide +kernel

end LogCalls

end PallasDB
