import PallasDB.Db.Log

/-! # What the log file holds

The ledger says what the log is made of; the invariant here says where it is. Everything up to the last
successful commit is on the disk and out of reach of pending writes, the records of the running call
follow it without a gap, and every record with a number past the last commit is one of a transaction that
was rewound since or of the running call. The invariant holds throughout every call, except between the
two halves of `writeHeader`.
-/

namespace PallasDB

open SortedRun WriteBack

namespace Log

/-! ## Sequences of records -/

/-- Sequence numbers rise from the given one on. -/
def Ascends : ℕ → List Entry → Prop
  | _, [] => True
  | seq, ent :: rest => seq < ent.seq ∧ Ascends ent.seq rest

/-- Records laid end to end. -/
def place : ℕ → List Entry → List Put
  | _, [] => []
  | offset, ent :: rest => ⟨offset, ent⟩ :: place (offset + ent.bytes.length) rest

section Sequences

variable {seq : ℕ} {first second : List Entry}

@[simp] theorem bytesOf_nil : bytesOf [] = [] := rfl

@[simp] theorem bytesOf_append (first second : List Entry) :
    bytesOf (first ++ second) = bytesOf first ++ bytesOf second :=
  List.flatMap_append

@[simp] theorem slotsOf_append (first second : List Entry) :
    slotsOf (first ++ second) = slotsOf first ++ slotsOf second :=
  List.filterMap_append

theorem lastSeq_append (seq : ℕ) (first second : List Entry) :
    lastSeq seq (first ++ second) = lastSeq (lastSeq seq first) second := by
  induction first generalizing seq with
  | nil => rfl
  | cons ent rest ih => exact ih ent.seq

theorem ascends_append : Ascends seq (first ++ second) ↔ Ascends seq first ∧ Ascends (lastSeq seq first) second := by
  induction first generalizing seq with
  | nil => simp [Ascends, lastSeq]
  | cons ent rest ih => simp only [List.cons_append, Ascends, lastSeq, ih, and_assoc]

theorem Ascends.mono {low : ℕ} (ascends : Ascends seq first) (below : low ≤ seq) : Ascends low first := by
  cases first with
  | nil => trivial
  | cons ent rest => exact ⟨Nat.lt_of_le_of_lt below ascends.1, ascends.2⟩

theorem Ascends.le_lastSeq (ascends : Ascends seq first) : seq ≤ lastSeq seq first := by
  induction first generalizing seq with
  | nil => exact Nat.le_refl seq
  | cons ent rest ih => exact Nat.le_trans (Nat.le_of_lt ascends.1) (ih ascends.2)

theorem Ascends.lt_of_mem (ascends : Ascends seq first) {ent : Entry} (member : ent ∈ first) : seq < ent.seq := by
  induction first generalizing seq with
  | nil => contradiction
  | cons head rest ih =>
    rcases List.mem_cons.mp member with rfl | later
    · exact ascends.1
    · exact Nat.lt_trans ascends.1 (ih ascends.2 later)

theorem Ascends.le_last_of_mem (ascends : Ascends seq first) {ent : Entry} (member : ent ∈ first) :
    ent.seq ≤ lastSeq seq first := by
  induction first generalizing seq with
  | nil => contradiction
  | cons head rest ih =>
    rcases List.mem_cons.mp member with rfl | later
    · exact ascends.2.le_lastSeq
    · exact ih ascends.2 later

theorem place_append (offset : ℕ) (first second : List Entry) :
    place offset (first ++ second) = place offset first ++ place (offset + (bytesOf first).length) second := by
  induction first generalizing offset with
  | nil => rfl
  | cons ent rest ih =>
    have sizes : (bytesOf (ent :: rest)).length = ent.bytes.length + (bytesOf rest).length := by simp [bytesOf]
    rw [List.cons_append, place, place, ih, List.cons_append, sizes, Nat.add_assoc]

theorem map_ent_place (offset : ℕ) (entries : List Entry) : (place offset entries).map Put.ent = entries := by
  induction entries generalizing offset with
  | nil => rfl
  | cons ent rest ih => rw [place, List.map_cons, ih]

theorem throughCommit_eq_nil : throughCommit first = [] ↔ ∀ ent ∈ first, ent.op ≠ .commit := by
  induction first with
  | nil => simp [throughCommit]
  | cons ent rest ih =>
    by_cases commits : ent.op = .commit
    · simp [throughCommit, commits]
    · by_cases none : throughCommit rest = []
      · simpa [throughCommit, commits, none] using ih.mp none
      · simpa [throughCommit, commits, none] using ih.not.mp none

/-- Records that end with a commit are kept whatever follows. -/
theorem throughCommit_append (closed : throughCommit first = first) (second : List Entry) :
    throughCommit (first ++ second) = first ++ throughCommit second := by
  induction first with
  | nil => rfl
  | cons ent rest ih =>
    rw [throughCommit] at closed
    split at closed
    · next ends =>
      have tail := (List.cons.inj closed).2
      rw [List.cons_append, throughCommit, ih tail, if_pos]
      · rfl
      · refine ends.imp_right fun some => ?_
        rw [tail] at some
        simp [some]
    · contradiction

theorem throughCommit_concat (front : List Entry) {last : Entry} (commits : last.op = .commit) :
    throughCommit (front ++ [last]) = front ++ [last] := by
  induction front with
  | nil => simp [throughCommit, commits]
  | cons ent rest ih => simp [throughCommit, ih]

/-- What is kept ends with a commit and starts what was read. -/
theorem throughCommit_closed (entries : List Entry) : throughCommit (throughCommit entries) = throughCommit entries ∧
      ∃ rest, entries = throughCommit entries ++ rest := by
  induction entries with
  | nil => exact ⟨rfl, [], rfl⟩
  | cons ent rest ih =>
    obtain ⟨again, dropped, split⟩ := ih
    by_cases ends : ent.op = .commit ∨ throughCommit rest ≠ []
    · have kept : throughCommit (ent :: rest) = ent :: throughCommit rest := by rw [throughCommit, if_pos ends]
      refine ⟨?_, dropped, by rw [kept, List.cons_append, ← split]⟩
      rw [kept, throughCommit, again, if_pos ends]
    · have kept : throughCommit (ent :: rest) = [] := by rw [throughCommit, if_neg ends]
      exact ⟨by rw [kept]; rfl, ent :: rest, by rw [kept]; rfl⟩

end Sequences

theorem length_header (epoch : ℕ) : (header epoch).length = logHeaderSize := by
  simp [header, logMagic, logHeaderSize]

end Log

open Log

namespace Ledger

/-- The records put since the last commit, as long as they are known. -/
def recent (ledger : Ledger) : List Put := ledger.abandoned ++ ledger.written

def writtenEntries (ledger : Ledger) : List Entry := ledger.written.map Put.ent

end Ledger

structure LogInv (log : Log) (ledger : Ledger) : Prop where
  counted : log.seq < 2 ^ 64
  sized : ∀ ent ∈ ledger.held ++ ledger.writtenEntries, ent.size ≤ maxEntrySize
  ascends : Ascends log.epoch (ledger.held ++ ledger.recent.map Put.ent)
  last : lastSeq log.epoch (ledger.held ++ ledger.recent.map Put.ent) ≤ log.seq
  closed : throughCommit ledger.held = ledger.held
  committed : log.committed = logHeaderSize + (bytesOf ledger.held).length
  durable : log.file.durable.take log.committed = header log.epoch ++ bytesOf ledger.held
  offset : log.offset = log.committed + (bytesOf ledger.writtenEntries).length
  content : log.file.content.take log.offset = header log.epoch ++ bytesOf (ledger.held ++ ledger.writtenEntries)
  placed : ledger.written = place log.committed ledger.writtenEntries
  pending : ∀ op ∈ log.file.pending, log.committed ≤ op.start
  bounded : ∀ put ∈ ledger.puts, put.ent.seq ≤ log.seq
  known : ∀ put ∈ ledger.puts, lastSeq log.epoch ledger.held < put.ent.seq → put ∈ ledger.recent
  stale : ∀ put ∈ ledger.abandoned, put.ent.op ≠ .commit

variable {target : Log}

namespace LogInv

variable {log : Log} {ledger : Ledger}

section

variable (inv : LogInv log ledger)

include inv

theorem front_length : (header log.epoch ++ bytesOf (ledger.held ++ ledger.writtenEntries)).length = log.offset := by
  rw [List.length_append, length_header, bytesOf_append, List.length_append, inv.offset, inv.committed]
  omega

theorem reaches : log.committed ≤ log.file.durable.length := by
  have sizes := congrArg List.length inv.durable
  rw [List.length_take, List.length_append, length_header, ← inv.committed] at sizes
  omega

/-- Records of rewound transactions have smaller numbers than those of the running call. -/
theorem ascends_held_written : Ascends log.epoch (ledger.held ++ ledger.writtenEntries) := by
  have whole := inv.ascends
  rw [Ledger.recent, List.map_append] at whole
  obtain ⟨held, tail⟩ := ascends_append.mp whole
  obtain ⟨abandoned, written⟩ := ascends_append.mp tail
  exact ascends_append.mpr ⟨held, written.mono abandoned.le_lastSeq⟩

/-- A record of the right number goes behind those of the running call. -/
theorem write {ent : Entry} (number : ent.seq = log.seq + 1) (counted : ent.seq < 2 ^ 64)
    (taken : log.write ent = .ok target) : LogInv target (ledger.put ⟨log.offset, ent⟩) := by
  rw [Log.write, Entry.encode] at taken
  split at taken
  · contradiction
  next fits =>
  obtain rfl := Except.ok.inj taken
  have grown : (ledger.put ⟨log.offset, ent⟩).writtenEntries = ledger.writtenEntries ++ [ent] := by
    simp [Ledger.writtenEntries, Ledger.put]
  have recent : (ledger.put ⟨log.offset, ent⟩).recent.map Put.ent = ledger.recent.map Put.ent ++ [ent] := by
    simp [Ledger.recent, Ledger.put]
  have single : bytesOf [ent] = ent.bytes := by simp [bytesOf]
  constructor
  · exact counted
  · intro other member
    rw [grown, ← List.append_assoc] at member
    rcases List.mem_append.mp member with old | new
    · exact inv.sized other old
    · rw [List.mem_singleton.mp new]
      omega
  · rw [recent, ← List.append_assoc]
    refine ascends_append.mpr ⟨inv.ascends, ?_, trivial⟩
    exact Nat.lt_of_le_of_lt inv.last (by omega)
  · rw [recent, ← List.append_assoc, lastSeq_append]
    exact Nat.le_refl _
  · exact inv.closed
  · exact inv.committed
  · exact inv.durable
  · rw [grown, bytesOf_append, List.length_append, single, ← Nat.add_assoc]
    exact congrArg (· + ent.bytes.length) inv.offset
  · have known := inv.content
    rw [← inv.front_length] at known
    have extended := Op.take_write ent.bytes known
    rw [List.length_append, inv.front_length, List.append_assoc, ← single, ← bytesOf_append, List.append_assoc]
      at extended
    rw [grown, File.content_issue, ← single]
    exact extended
  · rw [grown, place_append, ← inv.placed, ← inv.offset]
    rfl
  · intro op member
    rcases List.mem_append.mp member with old | new
    · exact inv.pending op old
    · rw [List.mem_singleton.mp new]
      exact inv.offset ▸ Nat.le_add_right ..
  · intro put member
    rcases List.mem_append.mp member with old | new
    · exact Nat.le_trans (inv.bounded put old) (number ▸ Nat.le_succ _)
    · rw [List.mem_singleton.mp new]
  · intro put member later
    rw [Ledger.recent, Ledger.put, ← List.append_assoc]
    refine List.mem_append.mpr ((List.mem_append.mp member).imp (fun old => ?_) id)
    exact inv.known put old later
  · exact inv.stale

/-- A rewind leaves the records of the running call behind as those of an abandoned transaction. -/
theorem abandon (uncommitted : ∀ put ∈ ledger.written, put.ent.op ≠ .commit) : LogInv log.resetTX ledger.abandon := by
  have recent : ledger.abandon.recent = ledger.recent := by simp [Ledger.recent, Ledger.abandon]
  have empty : ledger.abandon.writtenEntries = [] := rfl
  have shorter : log.committed ≤ log.offset := inv.offset ▸ Nat.le_add_right ..
  constructor
  · exact inv.counted
  · intro ent member
    rw [empty, List.append_nil] at member
    exact inv.sized ent (List.mem_append_left _ member)
  · exact recent ▸ inv.ascends
  · exact recent ▸ inv.last
  · exact inv.closed
  · exact inv.committed
  · exact inv.durable
  · rfl
  · have cut := congrArg (List.take log.committed) inv.content
    rw [List.take_take, Nat.min_eq_left shorter, bytesOf_append, ← List.append_assoc] at cut
    rw [empty, List.append_nil]
    refine cut.trans (List.take_left' ?_)
    rw [List.length_append, length_header, inv.committed]
  · rfl
  · exact inv.pending
  · exact inv.bounded
  · exact fun put member later => recent ▸ inv.known put member later
  · intro put member
    rcases List.mem_append.mp member with old | new
    · exact inv.stale put old
    · exact uncommitted put new

/-- A successful commit: everything written is held from now on. -/
theorem sync {front : List Put} {last : Put} (ends : ledger.written = front ++ [last]) (commits : last.ent.op = .commit)
    (taken : log.act .sync = .ok target) : LogInv target (ledger.note log .sync) := by
  obtain rfl := Except.ok.inj taken
  have held : (ledger.note log .sync).held = ledger.held ++ ledger.writtenEntries := rfl
  have empty : (ledger.note log .sync).writtenEntries = [] := rfl
  have none : (ledger.note log .sync).recent = [] := rfl
  have entries : ledger.writtenEntries = front.map Put.ent ++ [last.ent] := by
    simp [Ledger.writtenEntries, ends]
  have lastWritten (seq : ℕ) : lastSeq seq ledger.writtenEntries = last.ent.seq := by
    rw [entries, lastSeq_append]
    rfl
  have whole := inv.ascends
  constructor
  · exact inv.counted
  · rw [held, empty, List.append_nil]
    exact inv.sized
  · rw [held, none, List.map_nil, List.append_nil]
    exact inv.ascends_held_written
  · have bound := inv.last
    rw [Ledger.recent, List.map_append, ← List.append_assoc, lastSeq_append] at bound
    rw [held, none, List.map_nil, List.append_nil, lastSeq_append, lastWritten]
    exact (lastWritten _) ▸ bound
  · rw [held, entries, throughCommit_append inv.closed, throughCommit_concat _ commits]
  · rw [held, bytesOf_append, List.length_append, ← Nat.add_assoc, ← inv.committed]
    exact inv.offset
  · exact inv.content
  · rfl
  · rw [held, empty, List.append_nil]
    exact inv.content
  · rfl
  · simp [File.sync]
  · exact inv.bounded
  · intro put member later
    rw [held, lastSeq_append, lastWritten] at later
    -- nothing can be numbered beyond the commit record
    have old := inv.known put member (Nat.lt_of_le_of_lt ?_ later)
    · have inside : put.ent ∈ ledger.held ++ ledger.recent.map Put.ent :=
        List.mem_append_right _ (List.mem_map_of_mem old)
      have bound := inv.ascends.le_last_of_mem inside
      rw [Ledger.recent, List.map_append, ← List.append_assoc, lastSeq_append] at bound
      exact absurd (Nat.lt_of_lt_of_le later ((lastWritten _) ▸ bound)) (Nat.lt_irrefl _)
    · have step := inv.ascends_held_written
      have ordered := (ascends_append.mp step).2.le_lastSeq
      rwa [lastWritten] at ordered
  · simp [Ledger.note]

/-- A flush while no call has written anything. -/
theorem flush (quiet : ledger.written = []) : LogInv { log with file := log.file.sync } ledger := by
  have empty : ledger.writtenEntries = [] := by rw [Ledger.writtenEntries, quiet]; rfl
  have same : log.offset = log.committed := by
    rw [inv.offset, empty]
    rfl
  refine { inv with durable := ?_, content := inv.content, pending := by simp [File.sync] }
  have shown := inv.content
  rwa [empty, List.append_nil, same] at shown

/-- Cutting the file at the header of an empty log changes nothing. -/
theorem shrink (fresh : ledger.held = []) (quiet : ledger.written = []) (taken : log.act .shrink = .ok target) :
    LogInv target ledger := by
  obtain rfl := Except.ok.inj taken
  have start : log.committed = logHeaderSize := by rw [inv.committed, fresh]; rfl
  have same : log.offset = logHeaderSize := by
    rw [inv.offset, start, Ledger.writtenEntries, quiet]
    rfl
  refine { inv with content := ?_, pending := ?_ }
  · have shown := inv.content
    have room : log.offset ≤ log.file.content.length := by
      have sizes := congrArg List.length shown
      rw [inv.front_length, List.length_take] at sizes
      omega
    rw [← shown, File.content_issue]
    exact Op.take_apply (Nat.le_of_eq same) room
  · intro op member
    rcases List.mem_append.mp member with old | new
    · exact inv.pending op old
    · rw [List.mem_singleton.mp new]
      exact Nat.le_of_eq start

/-- Once the raised floor is flushed, the log is empty whatever the file still holds. -/
theorem syncFloor {middle : Log} (raised : log.act .writeFloor = .ok middle)
    (taken : middle.act .syncFloor = .ok target) : LogInv target (ledger.note middle .syncFloor) := by
  obtain rfl := Except.ok.inj raised
  obtain rfl := Except.ok.inj taken
  have front : (log.file.issue (.write 0 (header log.seq))).content.take logHeaderSize = header log.seq := by
    have empty : log.file.content.take ([] : Bytes).length = [] := rfl
    have written := Op.take_write (header log.seq) empty
    rw [File.content_issue]
    exact written
  constructor
  · exact inv.counted
  · simp [Ledger.note, Ledger.writtenEntries]
  · trivial
  · exact Nat.le_refl _
  · rfl
  · rfl
  · exact front
  · rfl
  · exact front.trans (List.append_nil _).symm
  · rfl
  · simp [File.sync]
  · exact inv.bounded
  · exact fun put member later => absurd (inv.bounded put member) (Nat.not_le.mpr later)
  · simp [Ledger.note]

end

end LogInv

end PallasDB
