import PallasDB.Db.LogUpdate

/-! # Rewriting the log around the live memtable

`rewriteLog` raises the floor before it copies the live memtable, so from the write of the header until the
flush of the copy's commit record the old records may be unreachable while the new ones are not yet there.
Before and after that window, and throughout when there is nothing to copy, recovery finds the old records
or the live memtable.
-/

namespace PallasDB

open SortedRun WriteBack Log

namespace Wal

/-- How far a `rewriteLog` call over some committed slots has come. -/
inductive Rewriting (base : List KVSlot) (wal : Wal) : Prop where
  | before (call : wal.call = .running (rewriteLog wal.ledger.current)) (inv : LogInv wal.log wal.ledger)
      (quiet : wal.ledger.written = []) (held : slotsOf wal.ledger.held = base)
  | raising (call : wal.call = .running ((rewriteLog wal.ledger.current).drop 1)) (source : Log)
      (inv : LogInv source wal.ledger) (raised : source.act .writeFloor = .ok wal.log)
      (quiet : wal.ledger.written = []) (held : slotsOf wal.ledger.held = base)
  | raised (call : wal.call = .running ((rewriteLog wal.ledger.current).drop 2)) (inv : LogInv wal.log wal.ledger)
      (quiet : wal.ledger.written = []) (empty : wal.ledger.held = [])
  | shrunk (call : wal.call = .running ((rewriteLog wal.ledger.current).drop 3)) (inv : LogInv wal.log wal.ledger)
      (quiet : wal.ledger.written = []) (empty : wal.ledger.held = [])
  | copying (updating : wal.Updating []) (accepted : ∀ err, wal.call ≠ .returned (.error err))

section

variable {base : List KVSlot} {wal target : Wal}

theorem Rewriting.next (rewriting : Rewriting base wal)
    (fits : ∀ slot ∈ wal.ledger.current, slotSize slot ≤ maxEntrySize) (taken : wal.next = some target) :
    Rewriting base target ∧ target.ledger.current = wal.ledger.current := by
  obtain ⟨action, after, running, counted, outcome⟩ := next_cases taken
  cases rewriting with
  | before call inv quiet held =>
    obtain ⟨rfl, rfl⟩ : action = .writeFloor ∧ after = (rewriteLog wal.ledger.current).drop 1 := by
      simpa [call, rewriteLog, eq_comm] using running
    obtain ⟨log, acted, rfl⟩ | ⟨err, failed, -⟩ := outcome
    · exact ⟨.raising rfl wal.log inv acted quiet held, rfl⟩
    · simp [act] at failed
  | raising call source inv raised quiet held =>
    obtain ⟨rfl, rfl⟩ : action = .syncFloor ∧ after = (rewriteLog wal.ledger.current).drop 2 := by
      simpa [call, rewriteLog, eq_comm] using running
    obtain ⟨log, acted, rfl⟩ | ⟨err, failed, -⟩ := outcome
    · exact ⟨.raised rfl (inv.syncFloor raised acted) rfl rfl, rfl⟩
    · simp [act] at failed
  | raised call inv quiet empty =>
    obtain ⟨rfl, rfl⟩ : action = .shrink ∧ after = (rewriteLog wal.ledger.current).drop 3 := by
      simpa [call, rewriteLog, eq_comm] using running
    obtain ⟨log, acted, rfl⟩ | ⟨err, failed, -⟩ := outcome
    · exact ⟨.shrunk rfl (inv.shrink empty quiet acted) quiet empty, rfl⟩
    · simp [act] at failed
  | shrunk call inv quiet empty =>
    obtain ⟨rfl, rfl⟩ : action = .syncShrink ∧ after = (rewriteLog wal.ledger.current).drop 4 := by
      simpa [call, rewriteLog, eq_comm] using running
    obtain ⟨log, acted, rfl⟩ | ⟨err, failed, -⟩ := outcome
    · cases acted
      refine ⟨.copying ?_ fun err => by dsimp only; split <;> simp, rfl⟩
      by_cases nothing : wal.ledger.current = []
      · refine .committed (by simp [rewriteLog, nothing]) (inv.flush quiet) quiet ?_ fits
        simp [Ledger.note, empty, nothing, slotsOf]
      · have rest : (rewriteLog wal.ledger.current).drop 4 = updateLog wal.ledger.current := by
          simp [rewriteLog, nothing]
        have more : updateLog wal.ledger.current ≠ [] := by simp [updateLog]
        refine .writing wal.ledger.current (by rw [rest, if_neg more]) (inv.flush quiet) ?_ ?_ ?_
        · simp [Ledger.note, empty, slotsOf]
        · simp [Ledger.note, quiet]
        · simp [Ledger.note, Ledger.writtenEntries, quiet, slotsOf]
    · simp [act] at failed
  | copying updating accepted =>
    obtain ⟨moved, current⟩ := updating.next taken
    refine ⟨.copying moved fun err returned => ?_, current⟩
    cases moved with
    | writing rest call => simp [call] at returned
    | committing call | committed call => simp [call] at returned
    | refused err call inv quiet held large =>
      obtain ⟨slot, member, above⟩ := large
      exact absurd (fits slot (current ▸ member)) (Nat.not_le.mpr above)

/-- A floor that survives hides every record put so far. -/
theorem openLog_raised {log : Log} {ledger : Ledger} (inv : LogInv log ledger) {rest : Bytes}
    (holds : Replays ledger.puts ((Op.write 0 (header log.seq)).apply rest)) :
    ∃ reopened, Log.openLog ((Op.write 0 (header log.seq)).apply rest) = .ok (reopened, replayMem []) := by
  have whole : (Op.write 0 (header log.seq)).apply rest = header log.seq ++
    (bytesOf [] ++ rest.drop logHeaderSize) := by
    simp [Op.apply, length_header]
  obtain ⟨tail, opens, rises, laid⟩ := openLog_header [] inv.counted (by simp) trivial rfl whole holds
  have hidden : tail = [] := by
    cases tail with
    | nil => rfl
    | cons ent more => exact absurd rises.1 (Nat.not_lt.mpr (inv.bounded _ laid.1))
  rw [hidden] at opens
  exact ⟨_, opens⟩

/-- Outside the window, recovery finds the old records or the live memtable. -/
theorem Rewriting.recover (rewriting : Rewriting base wal)
    (outside : wal.ledger.current = [] ∨ ∀ rest, wal.call = .running rest → .writeFloor ∈ rest)
    (apart : wal.apart = true) {image : Bytes} (left : wal.log.file.Leaves image)
    (holds : Replays wal.ledger.puts image) :
    ∃ log records, Log.openLog image = .ok (log, replayMem records) ∧
    (records = base ∨ records = wal.ledger.current) := by
  have nothing {rest : List LogAction} (call : wal.call = .running rest) (past : .writeFloor ∉ rest) :
      wal.ledger.current = [] := outside.resolve_right fun floor => past (floor rest call)
  have tail (live : SortedArray) : .writeFloor ∉ (rewriteLog live).drop 1 := by
    by_cases empty : live = [] <;> simp [rewriteLog, updateLog, empty]
  cases rewriting with
  | before call inv quiet held =>
    obtain ⟨log, opens⟩ := inv.recover_uncommitted (by simp [quiet]) left holds
    exact ⟨log, _, opens, .inl held⟩
  | raising call source inv raised quiet held =>
    have issued : wal.log.file = source.file.issue (.write 0 (header source.seq)) := by
      rw [← Except.ok.inj raised]
    rcases File.leaves_issue (issued ▸ left) with lost | ⟨rest, -, rfl⟩
    · obtain ⟨log, opens⟩ := inv.recover_uncommitted (by simp [quiet]) lost holds
      exact ⟨log, _, opens, .inl held⟩
    · obtain ⟨log, opens⟩ := openLog_raised inv holds
      exact ⟨log, [], opens, .inr (nothing call (tail _)).symm⟩
  | raised call inv quiet empty =>
    obtain ⟨log, opens⟩ := inv.recover_uncommitted (by simp [quiet]) left holds
    refine ⟨log, _, opens, .inr ?_⟩
    rw [empty, nothing call fun member => tail _ (List.drop_subset 1 _ member)]
    rfl
  | shrunk call inv quiet empty =>
    obtain ⟨log, opens⟩ := inv.recover_uncommitted (by simp [quiet]) left holds
    refine ⟨log, _, opens, .inr ?_⟩
    rw [empty, nothing call fun member => tail _ (List.drop_subset 2 _ member)]
    rfl
  | copying updating accepted =>
    obtain ⟨log, records, opens, outcome⟩ := updating.recover apart left holds
    refine ⟨log, records, opens, .inr ?_⟩
    cases updating with
    | writing rest call =>
      have empty := nothing call (by simp [updateLog])
      rw [call, empty] at outcome
      rw [empty]
      exact outcome.elim id id
    | committing call =>
      have empty := nothing call (by simp)
      rw [call, empty] at outcome
      rw [empty]
      exact outcome.elim id id
    | committed call =>
      rw [call] at outcome
      exact outcome
    | refused err call => exact absurd call (accepted err)

end

end Wal

end PallasDB
