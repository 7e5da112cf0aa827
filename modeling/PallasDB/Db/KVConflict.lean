import PallasDB.Db.KVSnapshot

/-! # First committer wins

The conflict log is written only while another transaction is open and is pruned whenever a transaction
finishes. It still holds, for every transaction that may yet commit, each key committed since that
transaction began: transactions are tracked in the order of their snapshots, so pruning by the first one
never drops an entry that matters to another.
-/

namespace PallasDB

open SortedRun Transition VersionedMap

variable {id : ℕ} {tx : KVTX} {options : KVOptions}

namespace KV

/-- Two sets of updates write a common key. -/
def Overlap (first second : SortedArray) : Prop := ∃ a ∈ first, ∃ b ∈ second, a.key = b.key

/-- What is known of the transaction inside the commit critical section. -/
def CommitOk (journal : KVJournal) (id : ℕ) (tx : KVTX) : CommitPhase → Prop
  | .checked | .logged => ∀ updates, CommittedSince journal id updates → ¬ Overlap updates tx.updates
  | .returning (.ok ()) => tx.updates = [] ∨ .committed id tx.updates ∈ journal
  | .returning (.error .conflict) => ∃ updates, CommittedSince journal id updates ∧ Overlap updates tx.updates
  | _ => True

/-- What is known of a transaction whose `Commit` has returned. -/
def ResultOk (journal : KVJournal) (id : ℕ) (tx : KVTX) : Except CommitError Unit → Prop
  | .ok () => tx.updates = [] ∨ .committed id tx.updates ∈ journal
  | .error .conflict => ∃ updates, CommittedSince journal id updates ∧ Overlap updates tx.updates
  | .error _ => True

/-- A transaction that has not passed its conflict check for good. -/
def MayCommit (kv : KV) (id : ℕ) : Prop := ∀ result, kv.commit ≠ some ⟨id, .returning result⟩

structure ConflictInv (kv : KV) (journal : KVJournal) : Prop where
  began : ∀ id, id < kv.txs.length → .began id ∈ journal
  snapshot : kv.snapshot = (commits journal).length
  snapshots : ∀ (id : ℕ) (tx : KVTX), kv.txs[id]? = some tx →
    tx.snapshot = (commits (before journal id)).length
  order : (kv.txs.map KVTX.snapshot).Pairwise (· ≤ ·)
  bounded : ∀ tx ∈ kv.txs, tx.snapshot ≤ kv.snapshot
  ongoing : ∀ id, id ∈ kv.ongoing ↔ ∃ tx, kv.txs[id]? = some tx ∧ tx.err = none
  ascending : kv.ongoing.Pairwise (· < ·)
  sound : ∀ updated ∈ kv.history, ∃ index updates, (commits journal)[index]? = some updates ∧
    updated.snapshot = index + 1 ∧ ∃ slot ∈ updates, slot.key = updated.key
  complete : ∀ (id : ℕ) (tx : KVTX), kv.txs[id]? = some tx → tx.err = none → kv.MayCommit id →
    ∀ index updates, tx.snapshot ≤ index → (commits journal)[index]? = some updates →
      ∀ slot ∈ updates, ⟨index + 1, slot.key⟩ ∈ kv.history
  committing : ∀ id phase, kv.commit = some ⟨id, phase⟩ →
    ∃ tx, kv.txs[id]? = some tx ∧ tx.err = none ∧ CommitOk journal id tx phase
  wins : ∀ (place id : ℕ) (updates : SortedArray), journal[place]? = some (.committed id updates) →
    ∀ earlier, CommittedSince (journal.take place) id earlier → ¬ Overlap earlier updates
  results : ∀ (place id : ℕ) (result : Except CommitError Unit),
    journal[place]? = some (.finished id result) →
      ∃ tx, kv.txs[id]? = some tx ∧ tx.err.isSome ∧ ResultOk (journal.take place) id tx result

section Invariant

variable {kv target : KV} {journal : KVJournal}

theorem ConflictInv.live_began (inv : ConflictInv kv journal) (found : kv.txs[id]? = some tx) : .began id ∈ journal :=
  inv.began id (List.getElem?_eq_some_iff.mp found).1

theorem CommitOk.append {phase : CommitPhase} (ok : CommitOk journal id tx phase) (present : .began id ∈ journal)
    {rest : KVJournal} (none : commits rest = []) : CommitOk (journal ++ rest) id tx phase := by
  match phase with
  | .locked => trivial
  | .checked | .logged => exact fun updates since => ok updates ((committedSince_append_iff present none).mp since)
  | .returning (.ok ()) => exact ok.imp_right (List.mem_append_left _)
  | .returning (.error .conflict) =>
    obtain ⟨updates, since, overlap⟩ := ok
    exact ⟨updates, since.append rest, overlap⟩
  | .returning (.error (.tx _)) | .returning (.error .entryTooLarge) | .returning (.error .io) => trivial

theorem CommitOk.resultOk {result : Except CommitError Unit} (ok : CommitOk journal id tx (.returning result)) :
    ResultOk journal id tx result := by
  match result with
  | .ok () => exact ok
  | .error .conflict => exact ok
  | .error (.tx _) | .error .entryTooLarge | .error .io => trivial

private theorem getElem?_concat {list : KVJournal}
    {last found : Observation ℕ SortedArray TxWrite (Except CommitError Unit)}
    {place : ℕ} (read : (list ++ [last])[place]? = some found) :
    (list[place]? = some found ∧ (list ++ [last]).take place = list.take place) ∨
      (found = last ∧ (list ++ [last]).take place = list) := by
  rcases Nat.lt_or_ge place list.length with inside | beyond
  · rw [List.getElem?_append_left inside] at read
    exact .inl ⟨read, List.take_append_of_le_length (Nat.le_of_lt inside)⟩
  · have bound := (List.getElem?_eq_some_iff.mp read).1
    obtain rfl : place = list.length := by simp at bound; omega
    exact .inr ⟨by simpa using read.symm, List.take_left' rfl⟩

section

variable (inv : ConflictInv kv journal)

include inv

/-- The journal may grow by anything but a commit; a result must be accounted for. -/
theorem ConflictInv.note {observation : Observation ℕ SortedArray TxWrite (Except CommitError Unit)}
    (noCommit : ∀ id updates, observation ≠ .committed id updates)
    (result : ∀ id result, observation = .finished id result →
      ∃ tx, kv.txs[id]? = some tx ∧ tx.err.isSome ∧ ResultOk journal id tx result) :
    ConflictInv kv (journal ++ [observation]) := by
  have none : commits [observation] = [] := by
    cases observation with
    | committed id updates => exact absurd rfl (noCommit id updates)
    | _ => rfl
  have same : commits (journal ++ [observation]) = commits journal := by
    rw [commits_append, none, List.append_nil]
  exact
    { began := fun id inside => List.mem_append_left _ (inv.began id inside)
      snapshot := by rw [same]; exact inv.snapshot
      snapshots := fun id tx found => by rw [before_append (inv.live_began found)]; exact inv.snapshots id tx found
      order := inv.order
      bounded := inv.bounded
      ongoing := inv.ongoing
      ascending := inv.ascending
      sound := by rw [same]; exact inv.sound
      complete := by rw [same]; exact inv.complete
      committing := fun id phase held => by
        obtain ⟨tx, found, live, ok⟩ := inv.committing id phase held
        exact ⟨tx, found, live, ok.append (inv.live_began found) none⟩
      wins := fun place id updates read => by
        obtain ⟨old, taken⟩ | ⟨new, -⟩ := getElem?_concat read
        · rw [taken]
          exact inv.wins place id updates old
        · exact absurd new.symm (noCommit id updates)
      results := fun place id outcome read => by
        obtain ⟨old, taken⟩ | ⟨new, taken⟩ := getElem?_concat read
        · rw [taken]
          exact inv.results place id outcome old
        · rw [taken]
          exact result id outcome new.symm }

/-- Everything the invariant talks about, apart from the journal. -/
structure SameTracking (kv target : KV) : Prop where
  txs : target.txs = kv.txs
  ongoing : target.ongoing = kv.ongoing
  history : target.history = kv.history
  snapshot : target.snapshot = kv.snapshot
  commit : target.commit = kv.commit

theorem ConflictInv.frame (same : SameTracking kv target) : ConflictInv target journal := by
  obtain ⟨txs, ongoing, history, snapshot, commit⟩ := same
  cases kv
  subst txs ongoing history snapshot commit
  exact ⟨inv.began, inv.snapshot, inv.snapshots, inv.order, inv.bounded, inv.ongoing, inv.ascending, inv.sound,
    inv.complete, inv.committing, inv.wins, inv.results⟩

/-- The head of the tracked transactions has the oldest snapshot. -/
theorem ConflictInv.oldest {first : ℕ} {head : KVTX} (found : kv.txs[first]? = some head)
    (other : kv.txs[id]? = some tx) (before : first ≤ id) : head.snapshot ≤ tx.snapshot := by
  rcases Nat.lt_or_eq_of_le before with less | rfl
  · obtain ⟨bound, rfl⟩ := List.getElem?_eq_some_iff.mp found
    obtain ⟨inside, rfl⟩ := List.getElem?_eq_some_iff.mp other
    have pairs := List.pairwise_iff_getElem.mp inv.order first id (by simpa using bound) (by simpa using inside) less
    simpa using pairs
  · rw [found] at other
    cases other
    exact Nat.le_refl _

/-- A new transaction starts at the current snapshot. -/
theorem ConflictInv.newTX (opened : kv.closed = false) (fresh : .began kv.txs.length ∉ journal) :
    ConflictInv kv.newTX (journal ++ [.began kv.txs.length]) := by
  have shape : kv.newTX = { kv with
      txs := kv.txs ++ [⟨kv.snapshot, none, [], .updates kv.txs.length :: kv.tables.levels.map .source, none⟩]
      ongoing := kv.ongoing ++ [kv.txs.length] } := by
    rw [KV.newTX, opened]
    rfl
  rw [shape]
  have noted : ConflictInv kv (journal ++ [.began kv.txs.length]) := inv.note (by simp) (by simp)
  constructor
  · intro id inside
    simp only [List.length_append, List.length_singleton] at inside
    rcases Nat.lt_or_ge id kv.txs.length with old | new
    · exact noted.began id old
    · obtain rfl : id = kv.txs.length := by omega
      simp
  · exact noted.snapshot
  · intro id tx found
    rcases getElem?_added.mp found with old | ⟨rfl, rfl⟩
    · exact noted.snapshots id tx old
    · rw [before_fresh fresh]
      exact inv.snapshot
  · rw [List.map_append, List.pairwise_append]
    refine ⟨inv.order, by simp, fun first inOld second isNew => ?_⟩
    obtain ⟨tx, member, rfl⟩ := List.mem_map.mp inOld
    obtain rfl : second = kv.snapshot := by simpa using isNew
    exact inv.bounded tx member
  · intro tx member
    rcases List.mem_append.mp member with old | new
    · exact inv.bounded tx old
    · obtain rfl := List.mem_singleton.mp new
      exact Nat.le_refl _
  · intro id
    simp only [List.mem_append, inv.ongoing, List.mem_singleton, getElem?_added]
    constructor
    · rintro (⟨tx, found, live⟩ | rfl)
      · exact ⟨tx, .inl found, live⟩
      · exact ⟨_, .inr ⟨rfl, rfl⟩, rfl⟩
    · rintro ⟨tx, found | ⟨rfl, -⟩, live⟩
      · exact .inl ⟨tx, found, live⟩
      · exact .inr rfl
  · refine List.pairwise_append.mpr ⟨inv.ascending, by simp, fun id tracked last isLast => ?_⟩
    obtain ⟨tx, found, -⟩ := (inv.ongoing id).mp tracked
    obtain rfl := List.mem_singleton.mp isLast
    exact (List.getElem?_eq_some_iff.mp found).1
  · exact noted.sound
  · intro id tx found live may index updates since read
    rcases getElem?_added.mp found with old | ⟨rfl, rfl⟩
    · exact noted.complete id tx old live may index updates since read
    · have bound := (List.getElem?_eq_some_iff.mp read).1
      have size : kv.snapshot = _ := noted.snapshot
      dsimp only at since
      omega
  · intro id phase held
    obtain ⟨tx, found, rest⟩ := noted.committing id phase held
    exact ⟨tx, getElem?_added.mpr (.inl found), rest⟩
  · exact noted.wins
  · intro place id result read
    obtain ⟨tx, found, rest⟩ := noted.results place id result read
    exact ⟨tx, getElem?_added.mpr (.inl found), rest⟩

/-- The record of a transaction that has not finished changes, but for its snapshot. -/
private theorem ConflictInv.changed (found : kv.txs[id]? = some tx) (live : tx.err = none)
    {new : KVTX} (same : new.snapshot = tx.snapshot) :
    (∀ (other : ℕ) (current : KVTX), (kv.txs.set id new)[other]? = some current →
      current.snapshot = (commits (before journal other)).length) ∧
    ((kv.txs.set id new).map KVTX.snapshot).Pairwise (· ≤ ·) ∧
    (∀ current ∈ kv.txs.set id new, current.snapshot ≤ kv.snapshot) ∧
    ∀ (place other : ℕ) (result : Except CommitError Unit), journal[place]? = some (.finished other result) →
      ∃ current, (kv.txs.set id new)[other]? = some current ∧ current.err.isSome ∧
        ResultOk (journal.take place) other current result := by
  obtain ⟨inside, here⟩ := List.getElem?_eq_some_iff.mp found
  have snapshots : (kv.txs.set id new).map KVTX.snapshot = kv.txs.map KVTX.snapshot := by
    refine List.ext_getElem (by simp) fun place _ _ => ?_
    rw [List.getElem_map, List.getElem_set]
    split <;> simp_all
  refine ⟨fun other current read => ?_, snapshots.symm ▸ inv.order, fun current member => ?_, ?_⟩
  · rcases (getElem?_changed inside).mp read with ⟨rfl, rfl⟩ | ⟨-, old⟩
    · exact same.trans (inv.snapshots other tx found)
    · exact inv.snapshots other current old
  · rcases List.mem_or_eq_of_mem_set member with old | rfl
    · exact inv.bounded current old
    · exact same.trans_le (inv.bounded tx (List.mem_of_getElem? found))
  · intro place other result read
    obtain ⟨current, old, done, ok⟩ := inv.results place other result read
    have apart : other ≠ id := by
      rintro rfl
      rw [found] at old
      cases old
      simp [live] at done
    exact ⟨current, (getElem?_changed inside).mpr (.inr ⟨apart, old⟩), done, ok⟩

/-- Staging a write in a transaction that is not inside its own commit. -/
theorem ConflictInv.stage (found : kv.idleTx id = some tx) (stages : kv.Stages id tx target) :
    ConflictInv target journal := by
  obtain ⟨idle, found⟩ := idleTx_eq_some.mp found
  rcases stages with rfl | ⟨live, updates, rfl⟩
  · exact inv
  have inside := (List.getElem?_eq_some_iff.mp found).1
  obtain ⟨snapshots, order, bounded, results⟩ :=
    inv.changed found live (show { tx with updates := updates }.snapshot = tx.snapshot from rfl)
  constructor
  · intro other bound
    exact inv.began other (by simpa [setTx] using bound)
  · exact inv.snapshot
  · exact snapshots
  · exact order
  · exact bounded
  · intro other
    rw [show (kv.setTx id { tx with updates := updates }).ongoing = kv.ongoing from rfl, inv.ongoing]
    constructor
    · rintro ⟨current, old, alive⟩
      by_cases same : other = id
      · exact ⟨_, (getElem?_changed inside).mpr (.inl ⟨same, rfl⟩), live⟩
      · exact ⟨current, (getElem?_changed inside).mpr (.inr ⟨same, old⟩), alive⟩
    · rintro ⟨current, read, alive⟩
      rcases (getElem?_changed inside).mp read with ⟨rfl, -⟩ | ⟨-, old⟩
      · exact ⟨tx, found, live⟩
      · exact ⟨current, old, alive⟩
  · exact inv.ascending
  · exact inv.sound
  · intro other current read alive may
    rcases (getElem?_changed inside).mp read with ⟨rfl, rfl⟩ | ⟨-, old⟩
    · exact inv.complete other tx found live may
    · exact inv.complete other current old alive may
  · intro other phase held
    obtain ⟨current, old, alive, ok⟩ := inv.committing other phase held
    have apart : other ≠ id := by
      rintro rfl
      have holder : kv.commit = some ⟨other, phase⟩ := held
      simp [busy, holder] at idle
    exact ⟨current, (getElem?_changed inside).mpr (.inr ⟨apart, old⟩), alive, ok⟩
  · exact inv.wins
  · exact results

/-- A transaction finishes; pruning drops only history no remaining transaction needs. -/
theorem ConflictInv.finish (found : kv.txs[id]? = some tx) (live : tx.err = none) (commit : Option Committing)
    (held : ∀ other phase, commit = some ⟨other, phase⟩ ↔ other ≠ id ∧ kv.commit = some ⟨other, phase⟩) :
    ConflictInv { kv.untrack id tx with commit := commit } journal := by
  have inside := (List.getElem?_eq_some_iff.mp found).1
  have tracked : id ∈ kv.ongoing := (inv.ongoing id).mpr ⟨tx, found, live⟩
  have distinct : kv.ongoing.Nodup := inv.ascending.imp fun less => Nat.ne_of_lt less
  have shape : kv.untrack id tx = { kv with
      ongoing := kv.ongoing.erase id
      history := kv.pruneHistory (kv.ongoing.erase id)
      txs := kv.txs.set id { tx with levels := [], err := some .txDone } } := by
    rw [untrack, if_pos tracked]
  rw [shape]
  have pruned : ∀ updated ∈ kv.pruneHistory (kv.ongoing.erase id), updated ∈ kv.history := by
    intro updated member
    unfold pruneHistory at member
    split at member
    · contradiction
    · exact List.mem_of_mem_filter member
  obtain ⟨snapshots, order, bounded, results⟩ :=
    inv.changed found live (show { tx with levels := [], err := some .txDone }.snapshot = tx.snapshot from rfl)
  constructor
  · intro other bound
    exact inv.began other (by simpa using bound)
  · exact inv.snapshot
  · exact snapshots
  · exact order
  · exact bounded
  · intro other
    rw [distinct.mem_erase_iff, inv.ongoing]
    constructor
    · rintro ⟨apart, current, old, alive⟩
      exact ⟨current, (getElem?_changed inside).mpr (.inr ⟨apart, old⟩), alive⟩
    · rintro ⟨current, read, alive⟩
      rcases (getElem?_changed inside).mp read with ⟨rfl, rfl⟩ | ⟨apart, old⟩
      · simp at alive
      · exact ⟨apart, current, old, alive⟩
  · exact inv.ascending.sublist List.erase_sublist
  · exact fun updated member => inv.sound updated (pruned updated member)
  · intro other current read alive may index updates since logged slot member
    rcases (getElem?_changed inside).mp read with ⟨rfl, rfl⟩ | ⟨apart, old⟩
    · simp at alive
    · have kept := inv.complete other current old alive
        (fun result holds => may result ((held _ _).mpr ⟨apart, holds⟩)) index updates since logged slot member
      have remains : other ∈ kv.ongoing.erase id :=
        distinct.mem_erase_iff.mpr ⟨apart, (inv.ongoing other).mpr ⟨current, old, alive⟩⟩
      unfold pruneHistory
      split
      · next empty =>
        rw [empty] at remains
        contradiction
      · next oldest rest first =>
        refine List.mem_filter.mpr ⟨kept, ?_⟩
        -- the head of the list is not younger than the transaction that still needs the entry
        have headTracked : oldest ∈ kv.ongoing := by
          have member : oldest ∈ kv.ongoing.erase id := first ▸ List.mem_cons_self ..
          exact List.mem_of_mem_erase member
        obtain ⟨head, headFound, -⟩ := (inv.ongoing oldest).mp headTracked
        have ascending : (oldest :: rest).Pairwise (· < ·) := first ▸ inv.ascending.sublist List.erase_sublist
        have headFirst : oldest ≤ other := by
          rw [first] at remains
          rcases List.mem_cons.mp remains with rfl | later
          · exact Nat.le_refl _
          · exact Nat.le_of_lt ((List.pairwise_cons.mp ascending).1 other later)
        have older := inv.oldest headFound old headFirst
        simp only [headFound, Option.map_some, Option.getD_some, decide_eq_true_eq]
        omega
  · intro other phase holds
    obtain ⟨apart, before⟩ := (held other phase).mp holds
    obtain ⟨current, old, alive, ok⟩ := inv.committing other phase before
    exact ⟨current, (getElem?_changed inside).mpr (.inr ⟨apart, old⟩), alive, ok⟩
  · exact inv.wins
  · exact results

/-- The transaction inside the commit critical section. -/
theorem ConflictInv.holder {phase : CommitPhase} (current : kv.committing = some (id, tx, phase)) :
    kv.commit = some ⟨id, phase⟩ ∧ kv.txs[id]? = some tx ∧ tx.err = none ∧ CommitOk journal id tx phase := by
  obtain ⟨held, found⟩ := committing_eq_some.mp current
  obtain ⟨same, read, live, ok⟩ := inv.committing id phase held
  obtain rfl : tx = same := by rw [found] at read; exact Option.some.inj read
  exact ⟨held, found, live, ok⟩

/-- A commit moves on to its next phase. -/
theorem ConflictInv.advance {id : ℕ} {tx : KVTX} (phase : CommitPhase)
    (found : kv.txs[id]? = some tx) (live : tx.err = none)
    (running : ∀ other result, kv.commit ≠ some ⟨other, .returning result⟩) (ok : CommitOk journal id tx phase)
    (same : SameTracking (kv.setPhase id phase) target) : ConflictInv target journal := by
  suffices advanced : ConflictInv (kv.setPhase id phase) journal from advanced.frame same
  refine ⟨inv.began, inv.snapshot, inv.snapshots, inv.order, inv.bounded, inv.ongoing, inv.ascending, inv.sound,
    fun other current read alive _ => inv.complete other current read alive (running other),
    fun other next held => ?_, inv.wins, inv.results⟩
  have equal : id = other ∧ phase = next := by simpa [setPhase] using held
  obtain ⟨rfl, rfl⟩ := equal
  exact ⟨tx, found, live, ok⟩

/-- The conflict check is exact: it finds a key committed since the transaction began, if there is one. -/
theorem ConflictInv.checkTXConflict_iff (found : kv.txs[id]? = some tx) (live : tx.err = none) (may : kv.MayCommit id) :
    kv.checkTXConflict tx = true ↔ ∃ updates, CommittedSince journal id updates ∧ Overlap updates tx.updates := by
  have snapshot := inv.snapshots id tx found
  simp only [checkTXConflict, List.any_eq_true, Bool.and_eq_true, decide_eq_true_eq]
  constructor
  · rintro ⟨own, staged, updated, logged, after, same⟩
    obtain ⟨index, updates, read, number, slot, member, key⟩ := inv.sound updated logged
    refine ⟨updates, (committedSince_iff (inv.live_began found)).mpr ⟨index, by omega, read⟩, slot, member, own,
      staged, ?_⟩
    rw [key, same]
  · rintro ⟨updates, since, slot, member, own, staged, same⟩
    obtain ⟨index, after, read⟩ := (committedSince_iff (inv.live_began found)).mp since
    have logged := inv.complete id tx found live may index updates (by omega) read slot member
    exact ⟨own, staged, _, logged, by dsimp only; omega, same⟩

/-- The updates take effect: the conflict log learns of them if any other transaction is open. -/
theorem ConflictInv.applyCommit (current : kv.committing = some (id, tx, .logged)) :
    ConflictInv (kv.applyCommit id tx) (journal ++ [.committed id tx.updates]) := by
  obtain ⟨held, found, live, apart⟩ := inv.holder current
  have grown : commits (journal ++ [.committed id tx.updates]) = commits journal ++ [tx.updates] := by
    rw [commits_append]
    rfl
  have size := inv.snapshot
  have kept : ∀ updated ∈ kv.history, updated ∈ (kv.applyCommit id tx).history := by
    intro updated member
    simp only [KV.applyCommit]
    split
    · exact List.mem_append_left _ member
    · exact member
  constructor
  · exact fun other inside => List.mem_append_left _ (inv.began other inside)
  · rw [grown, List.length_append, ← size]
    rfl
  · intro other current there
    rw [before_append (inv.live_began there)]
    exact inv.snapshots other current there
  · exact inv.order
  · exact fun other member => Nat.le_succ_of_le (inv.bounded other member)
  · exact inv.ongoing
  · exact inv.ascending
  · intro updated member
    rw [grown]
    have either : updated ∈ kv.history ∨ ∃ slot ∈ tx.updates, updated = ⟨kv.snapshot + 1, slot.key⟩ := by
      simp only [KV.applyCommit] at member
      split at member
      · rcases List.mem_append.mp member with old | new
        · exact .inl old
        · obtain ⟨slot, staged, rfl⟩ := List.mem_map.mp new
          exact .inr ⟨slot, staged, rfl⟩
      · exact .inl member
    rcases either with old | ⟨slot, staged, rfl⟩
    · obtain ⟨index, updates, logged, rest⟩ := inv.sound updated old
      exact ⟨index, updates, by
        rw [List.getElem?_append_left (List.getElem?_eq_some_iff.mp logged).1]; exact logged, rest⟩
    · exact ⟨(commits journal).length, tx.updates, by simp, by rw [size], slot, staged, rfl⟩
  · intro other current there alive may index updates since logged slot member
    have different : other ≠ id := by
      rintro rfl
      exact may _ rfl
    rw [grown] at logged
    rcases Nat.lt_or_ge index (commits journal).length with old | new
    · rw [List.getElem?_append_left old] at logged
      refine kept _ (inv.complete other current there alive (fun result holds => ?_) index updates since logged
        slot member)
      rw [held] at holds
      cases holds
    · have bound := (List.getElem?_eq_some_iff.mp logged).1
      obtain rfl : index = (commits journal).length := by simp at bound; omega
      obtain rfl : updates = tx.updates := by simpa using logged.symm
      -- the committing transaction and this one are both tracked, so the entry is recorded
      have both : 1 < kv.ongoing.length := by
        have first := (inv.ongoing id).mpr ⟨tx, found, live⟩
        have second := (inv.ongoing other).mpr ⟨current, there, alive⟩
        match size : kv.ongoing with
        | [] => simp [size] at first
        | [single] =>
          rw [size, List.mem_singleton] at first second
          exact absurd (second.trans first.symm) different
        | _ :: _ :: _ => simp
      simp only [KV.applyCommit, if_pos both]
      exact List.mem_append_right _ (List.mem_map.mpr ⟨slot, member, by rw [size]⟩)
  · intro other phase holds
    have equal : id = other ∧ CommitPhase.returning (.ok ()) = phase := by simpa [KV.applyCommit] using holds
    obtain ⟨rfl, rfl⟩ := equal
    exact ⟨tx, found, live, .inr (by simp)⟩
  · intro place other updates noted
    obtain ⟨old, taken⟩ | ⟨new, taken⟩ := getElem?_concat noted
    · rw [taken]
      exact inv.wins place other updates old
    · cases new
      rw [taken]
      exact apart
  · intro place other result noted
    obtain ⟨old, taken⟩ | ⟨new, -⟩ := getElem?_concat noted
    · rw [taken]
      exact inv.results place other result old
    · contradiction

end

/-- Compaction steps do not touch what the conflict check looks at. -/
theorem compact_sameTracking {event : KVEvent} (compacts : event.compacts = true)
    (taken : kv.step options event = some target) : SameTracking kv target := by
  cases step_cases taken with
  | newTX | newInnerTX | setEx | del | abort | abortInner | commitInner | commitFinished | beginCommit
  | checkCommit | writeLog | applyCommit | endCommit | closeAgain | beginClose | endClose | openStore =>
    simp [KVEvent.compacts] at compacts
  | _ => exact ⟨rfl, rfl, rfl, rfl, rfl⟩

theorem ConflictInv.quiet (inv : ConflictInv kv journal) : ConflictInv kv (journal ++ []) := by
  rwa [List.append_nil]

private theorem ConflictInv.noteWrite (inv : ConflictInv kv journal) (id : ℕ) (change : TxWrite) (live : Bool) :
    ConflictInv kv (journal ++ if live then [.wrote id change] else []) := by
  cases live
  · exact inv.quiet
  · exact inv.note (by simp) (by simp)

/-- Every step of top-level transactions and compactions keeps the account of conflicts. -/
theorem ConflictInv.step {initial : KVMap} (snapshots : SnapshotInv initial kv journal)
    (inv : ConflictInv kv journal) {event : KVEvent} (online : event.online = true)
    (taken : kv.step options event = some target) : ConflictInv target (journal ++ kv.observe event) := by
  by_cases compacts : event.compacts = true
  · rw [observe_compacts compacts]
    exact (inv.frame (compact_sameTracking compacts taken)).quiet
  cases step_cases taken with
  | newTX =>
    have noted : kv.observe .newTX = [.began kv.txs.length] := by simp [observe, snapshots.opened]
    rw [noted]
    exact inv.newTX snapshots.opened fun member => Nat.lt_irrefl _ ((snapshots.began _).mp member)
  | setEx id tx key val mode found => exact (inv.stage found (kv.setEx_stages ..)).noteWrite id _ _
  | del id tx key found => exact (inv.stage found (kv.del_stages ..)).noteWrite id _ _
  | abort id tx found top =>
    obtain ⟨idle, there⟩ := idleTx_eq_some.mp found
    refine ConflictInv.quiet ?_
    cases live : tx.err with
    | none =>
      refine (inv.finish there live kv.commit fun other phase => ⟨fun held => ⟨?_, held⟩, And.right⟩).frame
        ⟨rfl, rfl, rfl, rfl, ?_⟩
      · rintro rfl
        simp [busy, held] at idle
      · exact untrack_commit id tx
    | some err =>
      have untracked : id ∉ kv.ongoing := by
        rw [inv.ongoing]
        rintro ⟨other, read, alive⟩
        rw [there] at read
        cases read
        rw [live] at alive
        contradiction
      rwa [untrack, if_neg untracked]
  | abortInner => exact inv.quiet
  | commitInner id parent inner outer found nested =>
    rw [snapshots.top id inner (idleTx_eq_some.mp found).2] at nested
    contradiction
  | commitFinished id tx found top unusable =>
    have there := (idleTx_eq_some.mp found).2
    obtain ⟨err, unusable⟩ := Option.isSome_iff_exists.mp unusable
    have noted : kv.observe (.beginCommit id) = [.finished id (.error (.tx err))] := by
      simp [observe, found, unusable]
    rw [noted]
    refine inv.note (by simp) fun other result same => ?_
    cases same
    exact ⟨tx, there, by simp [unusable], trivial⟩
  | beginCommit id tx found top live free =>
    have silent : kv.observe (.beginCommit id) = [] := by simp [observe, found, live]
    rw [silent]
    have there := (idleTx_eq_some.mp found).2
    exact (inv.advance .locked there live (by simp [free]) trivial ⟨rfl, rfl, rfl, rfl, rfl⟩).quiet
  | checkCommit id tx phase current verdict =>
    obtain ⟨held, found, live, -⟩ := inv.holder current
    have running : ∀ other result, kv.commit ≠ some ⟨other, .returning result⟩ := by simp [held]
    have exact_ := inv.checkTXConflict_iff found live (running id)
    refine ConflictInv.quiet ?_
    refine inv.advance phase found live running ?_ ⟨rfl, rfl, rfl, rfl, rfl⟩
    cases verdict with
    | nothing empty => exact .inl empty
    | conflict conflict => exact exact_.mp conflict
    | clear some clear =>
      intro updates since overlap
      rw [exact_.mpr ⟨updates, since, overlap⟩] at clear
      contradiction
  | writeLog id tx ioError log phase current wrote outcome =>
    obtain ⟨held, found, live, apart⟩ := inv.holder current
    have running : ∀ other result, kv.commit ≠ some ⟨other, .returning result⟩ := by simp [held]
    refine ConflictInv.quiet ?_
    refine inv.advance phase found live running ?_ ⟨rfl, rfl, rfl, rfl, rfl⟩
    obtain rfl | ⟨err, rfl, other⟩ := outcome
    · exact apart
    · cases err <;> first | contradiction | trivial
  | applyCommit id tx current =>
    have noted : kv.observe .applyCommit = [.committed id tx.updates] := by simp [observe, current]
    rw [noted]
    exact inv.applyCommit current
  | endCommit id tx result current =>
    obtain ⟨held, found, live, ok⟩ := inv.holder current
    have noted : kv.observe .endCommit = [.finished id result] := by simp [observe, current]
    have done : ConflictInv { kv.untrack id tx with commit := none } journal :=
      inv.finish found live none fun other phase => by simp +contextual [held, eq_comm]
    rw [noted]
    refine done.note (by simp) fun other outcome same => ?_
    cases same
    have tracked : id ∈ kv.ongoing := (inv.ongoing id).mpr ⟨tx, found, live⟩
    have inside := (List.getElem?_eq_some_iff.mp found).1
    refine ⟨{ tx with levels := [], err := some .txDone }, ?_, rfl, ok.resultOk⟩
    simp [untrack, tracked, inside]
  | newInnerTX | closeAgain | beginClose | endClose | openStore => simp [KVEvent.online] at online
  | _ => simp [KVEvent.compacts] at compacts

end Invariant

theorem conflictInv_opened (log : List KVSlot) (version : ℕ) (sstables : List SortedFile) :
    ConflictInv (opened log version sstables) [] := by
  constructor <;> simp [opened, openAll, empty, commits]

theorem conflictInv_run {log : List KVSlot} {version : ℕ} {sstables : List SortedFile}
    (increasing : ∀ file ∈ sstables, Increasing file.slots) {events : List KVEvent}
    (online : ∀ event ∈ events, event.online = true) {state : KV × KVJournal}
    (run : run? (journaled (step options) observe) (opened log version sstables, []) events = some state) :
    ConflictInv state.1 state.2 := by
  let initial := (opened log version sstables).tables.contents
  suffices both : SnapshotInv initial state.1 state.2 ∧ ConflictInv state.1 state.2 from both.2
  refine run?_invariant_of_meets
    (fun state => SnapshotInv initial state.1 state.2 ∧ ConflictInv state.1 state.2)
    (fun {source event target} inv online taken => ?_)
    ⟨snapshotInv_opened increasing, conflictInv_opened log version sstables⟩ (meets_of_forall online _) run
  obtain ⟨moved, noted⟩ := journaled_eq_some.mp taken
  rw [noted]
  exact ⟨inv.1.step online moved, inv.2.step inv.1 online moved⟩

/-- Of two transactions that overlap in time and both take effect, the later one writes none of the keys of
the earlier one. `Commit` reports a conflict only when a transaction that took effect since the snapshot wrote
one of the keys, and it reports success only for an empty transaction or one that took effect. -/
theorem first_committer_wins (options : KVOptions) (log : List KVSlot) (version : ℕ)
    (sstables : List SortedFile) (increasing : ∀ file ∈ sstables, Increasing file.slots)
    (events : List KVEvent) (online : ∀ event ∈ events, event.online = true) (kv : KV) (journal : KVJournal)
    (run : run? (journaled (step options) observe) (opened log version sstables, []) events = some (kv, journal)) :
    (∀ (start early late first second : ℕ) (firstUpdates secondUpdates : SortedArray),
        journal[start]? = some (.began second) → journal[early]? = some (.committed first firstUpdates) →
        journal[late]? = some (.committed second secondUpdates) → start < early → early < late →
        ¬ Overlap firstUpdates secondUpdates) ∧
      (∀ place id : ℕ, journal[place]? = some (.finished id (.error .conflict)) →
        ∃ (tx : KVTX) (start early first : ℕ) (updates : SortedArray), kv.txs[id]? = some tx ∧
          journal[start]? = some (.began id) ∧ journal[early]? = some (.committed first updates) ∧
          start < early ∧ early < place ∧ Overlap updates tx.updates) ∧
      ∀ place id : ℕ, journal[place]? = some (.finished id (.ok ())) →
        ∃ tx, kv.txs[id]? = some tx ∧
          (tx.updates = [] ∨ ∃ early, early < place ∧ journal[early]? = some (.committed id tx.updates)) := by
  have inv := conflictInv_run increasing online run
  refine ⟨fun start early late first second firstUpdates secondUpdates begins commits later before between => ?_,
    fun place id read => ?_, fun place id read => ?_⟩
  · refine inv.wins late second secondUpdates later firstUpdates (committedSince_iff_getElem?.mpr ?_)
    exact ⟨start, early, first, before, by simp [begins, Nat.lt_trans before between], by simp [commits, between]⟩
  · obtain ⟨tx, found, -, updates, since, overlap⟩ := inv.results place id _ read
    obtain ⟨start, early, first, before, begins, commits⟩ := committedSince_iff_getElem?.mp since
    simp only [List.getElem?_take, Option.ite_none_right_eq_some] at begins commits
    exact ⟨tx, start, early, first, updates, found, begins.2, commits.2, before, commits.1, overlap⟩
  · obtain ⟨tx, found, -, applied⟩ := inv.results place id _ read
    refine ⟨tx, found, applied.imp_right fun member => ?_⟩
    obtain ⟨early, taken⟩ := List.mem_iff_getElem?.mp member
    simp only [List.getElem?_take, Option.ite_none_right_eq_some] at taken
    exact ⟨early, taken⟩

/-- Two transactions write one key; the second to commit is refused. A third one, open alone, records no
history and commits. -/
def secondCommitterLoses : List KVEvent :=
  [.newTX, .newTX, .setEx 0 [1] [7] .upsert, .setEx 1 [1] [8] .upsert,
    .beginCommit 0, .checkCommit, .writeLog none, .applyCommit, .endCommit,
    .beginCommit 1, .checkCommit, .endCommit,
    .newTX, .setEx 2 [1] [9] .update, .beginCommit 2, .checkCommit, .writeLog none, .applyCommit, .endCommit]

theorem first_committer_wins_secondCommitterLoses :
    (run? (journaled (step .eager) observe) (opened [] 0 [], []) secondCommitterLoses).isSome ∧
      ∀ kv journal, run? (journaled (step .eager) observe) (opened [] 0 [], []) secondCommitterLoses =
        some (kv, journal) → ∀ place id : ℕ, journal[place]? = some (.finished id (.error .conflict)) →
          ∃ (tx : KVTX) (start early first : ℕ) (updates : SortedArray), kv.txs[id]? = some tx ∧
            journal[start]? = some (.began id) ∧ journal[early]? = some (.committed first updates) ∧
            start < early ∧ early < place ∧ Overlap updates tx.updates :=
  ⟨by decide +kernel, fun kv journal run => (first_committer_wins .eager [] 0 [] (by simp)
    secondCommitterLoses (by decide) kv journal run).2.1⟩

end KV

end PallasDB
