import PallasDB.Db.LogInv
import PallasDB.Lib.Transition

/-! # Reading the log after a crash

A crash leaves some of the writes issued since the last flush. The records up to the last successful commit
are read back whatever survives. What follows them is a chain of records laid end to end with rising
numbers, taken from transactions rewound since and from the running call. Only a commit record completes
the chain, and only the running call writes one; so recovery sees all of its records or none, unless
records of rewound transactions lead up to the start of one of its later records.
-/

namespace PallasDB

open SortedRun WriteBack Transition

variable {entries : List Entry} {puts : List Put} {image : Bytes} {offset start : ℕ}

namespace Log

/-! ## Reading back -/

theorem readAll_bytesOf {seq : ℕ} (sized : ∀ ent ∈ entries, ent.size ≤ maxEntrySize)
    (counted : ∀ ent ∈ entries, ent.seq < 2 ^ 64) (ascends : Ascends seq entries) {rounds : ℕ}
    (enough : entries.length ≤ rounds) (rest : Bytes) :
    readAll rounds seq (bytesOf entries ++ rest) =
      entries ++ readAll (rounds - entries.length) (lastSeq seq entries) rest := by
  induction entries generalizing seq rounds with
  | nil => rfl
  | cons ent entries ih =>
    obtain ⟨rounds, rfl⟩ : ∃ fewer, rounds = fewer + 1 := ⟨rounds - 1, by simp at enough; omega⟩
    have front : bytesOf (ent :: entries) ++ rest = ent.bytes ++ (bytesOf entries ++ rest) := by simp [bytesOf]
    have decoded := Entry.decode_bytes (sized ent (List.mem_cons_self ..)) (counted ent (List.mem_cons_self ..))
      (bytesOf entries ++ rest)
    have fewer : entries.length ≤ rounds := by simpa using enough
    have tail := ih (fun other member => sized other (List.mem_cons_of_mem _ member))
      (fun other member => counted other (List.mem_cons_of_mem _ member)) ascends.2 fewer
    simp only [readAll, front, decoded, if_neg (Nat.not_le.mpr ascends.1), tail, List.cons_append, List.length_cons,
      Nat.add_sub_add_right, lastSeq]

/-- A record decodes only where `Log.Write` put it. -/
def Genuine (puts : List Put) (image : Bytes) : Prop :=
  ∀ offset ent rest, Entry.decode (image.drop offset) = .ok (ent, rest) → ⟨offset, ent⟩ ∈ puts

/-- A check of every offset at which a record could start. -/
def genuine (puts : List Put) (image : Bytes) : Bool :=
  (List.range image.length).all fun offset =>
    match Entry.decode (image.drop offset) with
    | .ok (ent, _) => decide (⟨offset, ent⟩ ∈ puts)
    | .error _ => true

theorem genuine_iff : genuine puts image = true ↔ Genuine puts image := by
  rw [genuine, List.all_eq_true]
  constructor
  · intro checked offset ent rest decoded
    have inside : offset < image.length := by
      have sound := (Entry.decode_sound decoded).1
      have sizes := congrArg List.length sound
      rw [List.length_drop, List.length_append, Entry.length_bytes] at sizes
      simp only [entryHeaderSize] at sizes
      omega
    have here := checked offset (List.mem_range.mpr inside)
    rw [decoded] at here
    simpa using here
  · intro holds offset _
    split
    · next ent rest decoded => simpa using holds offset ent rest decoded
    · rfl

/-- A chain of records laid end to end, each of them put there. -/
def Laid (puts : List Put) : ℕ → List Entry → Prop
  | _, [] => True
  | offset, ent :: rest => ⟨offset, ent⟩ ∈ puts ∧ Laid puts (offset + ent.bytes.length) rest

theorem readAll_ascends (rounds seq : ℕ) (input : Bytes) : Ascends seq (readAll rounds seq input) := by
  induction rounds generalizing seq input with
  | zero => trivial
  | succ rounds ih =>
    rw [readAll]
    split
    · trivial
    · next ent rest decoded =>
      split
      · trivial
      · next rises => exact ⟨Nat.not_le.mp rises, ih ent.seq rest⟩

theorem readAll_laid (holds : Genuine puts image) (rounds seq offset : ℕ) :
    Laid puts offset (readAll rounds seq (image.drop offset)) := by
  induction rounds generalizing seq offset with
  | zero => trivial
  | succ rounds ih =>
    rw [readAll]
    split
    · trivial
    · next ent rest decoded =>
      split
      · trivial
      · have next : rest = image.drop (offset + ent.bytes.length) := by
          rw [← List.drop_drop, (Entry.decode_sound decoded).1, List.drop_left]
        rw [next]
        exact ⟨holds offset ent rest decoded, ih ent.seq (offset + ent.bytes.length)⟩

theorem laid_append {first second : List Entry} : Laid puts offset (first ++ second) ↔
      Laid puts offset first ∧ Laid puts (offset + (bytesOf first).length) second := by
  induction first generalizing offset with
  | nil => simp [Laid]
  | cons ent rest ih => simp only [List.cons_append, Laid, ih, and_assoc, bytesOf, List.flatMap_cons,
      List.length_append, Nat.add_assoc]

/-- Replay accepts only records where `Log.Write` put them. -/
def Replays (puts : List Put) (image : Bytes) : Prop :=
  ∀ epoch file, openHeader image = .ok (epoch, file) → Laid puts logHeaderSize (readRecords epoch file)

theorem readAll_nil (rounds seq : ℕ) : readAll rounds seq [] = [] := by
  cases rounds <;> rfl

theorem Genuine.replays (holds : Genuine puts image) : Replays puts image := by
  intro epoch file opened
  unfold openHeader at opened
  split at opened
  · -- a file too short for a header is given one and holds no record
    next short =>
    cases opened
    have nothing : ((Op.write 0 (header 0)).apply image).drop logHeaderSize = [] := by
      simp [Op.apply, length_header]
      omega
    rw [readRecords, nothing, readAll_nil]
    trivial
  split at opened
  · contradiction
  split at opened
  · contradiction
  cases opened
  exact readAll_laid holds ..

/-! ## Chains through rewound records -/

/-- Where chains of rewound records can lead, when each one is taken in the order of its number. -/
def reach : List ℕ → List Put → List ℕ
  | ends, [] => ends
  | ends, put :: rest =>
      reach (if put.offset ∈ ends then (put.offset + put.ent.bytes.length) :: ends else ends) rest

theorem subset_reach (puts : List Put) {ends : List ℕ} (member : offset ∈ ends) : offset ∈ reach ends puts := by
  induction puts generalizing ends with
  | nil => exact member
  | cons put rest ih =>
    apply ih
    split
    · exact List.mem_cons_of_mem _ member
    · exact member

/-- Records whose numbers have passed play no part in the rest of a chain. -/
theorem Laid.of_rising {recent : List Put} {seq : ℕ} (laid : Laid puts offset entries) (ascends : Ascends seq entries)
    (known : ∀ put ∈ puts, seq < put.ent.seq → put ∈ recent) : Laid recent offset entries := by
  induction entries generalizing offset seq with
  | nil => trivial
  | cons ent rest ih =>
    refine ⟨known _ laid.1 ascends.1, ih laid.2 ascends.2 fun put member later => ?_⟩
    exact known put member (Nat.lt_trans ascends.1 later)

theorem Laid.mem_reach {floor : ℕ} (order : Ascends floor (puts.map Put.ent)) (laid : Laid puts offset entries)
    {seq : ℕ} (ascends : Ascends seq entries) {ends : List ℕ} (member : offset ∈ ends) :
    offset + (bytesOf entries).length ∈ reach ends puts := by
  induction puts generalizing floor offset entries seq ends with
  | nil =>
    cases entries with
    | nil => exact member
    | cons ent rest => exact absurd laid.1 (List.not_mem_nil)
  | cons put puts ih =>
    cases entries with
    | nil => exact subset_reach _ member
    | cons ent rest =>
      rw [reach]
      rcases List.mem_cons.mp laid.1 with rfl | later
      · -- the first rewound record is the first of the chain
        have sizes : offset + (bytesOf (ent :: rest)).length =
            offset + ent.bytes.length + (bytesOf rest).length := by simp [bytesOf, Nat.add_assoc]
        rw [sizes, if_pos member]
        have chain : Laid puts (offset + ent.bytes.length) rest :=
          laid.2.of_rising ascends.2 fun put member later => (List.mem_cons.mp member).resolve_left fun same =>
            absurd later (by rw [same]; exact Nat.lt_irrefl _)
        exact ih order.2 chain ascends.2 (List.mem_cons_self ..)
      · -- it comes before the whole chain
        have past : put.ent.seq < ent.seq := order.2.lt_of_mem (List.mem_map_of_mem later)
        have chain : Laid puts offset (ent :: rest) :=
          ⟨later, laid.2.of_rising ascends.2 fun other member rises =>
            (List.mem_cons.mp member).resolve_left fun same =>
            absurd rises (by rw [same]; exact Nat.not_lt.mpr (Nat.le_of_lt past))⟩
        refine ih order.2 chain ascends ?_
        split
        · exact List.mem_cons_of_mem _ member
        · exact member

/-- A chain takes rewound records first, since their numbers are smaller. -/
theorem Laid.split {abandoned written : List Put} {floor : ℕ}
    (order : Ascends floor ((abandoned ++ written).map Put.ent)) {seq : ℕ}
    (laid : Laid (abandoned ++ written) offset entries) (ascends : Ascends seq entries) :
    ∃ stale fresh, entries = stale ++ fresh ∧ Laid abandoned offset stale ∧
      Laid written (offset + (bytesOf stale).length) fresh := by
  induction entries generalizing offset seq with
  | nil => exact ⟨[], [], rfl, trivial, trivial⟩
  | cons ent rest ih =>
    rcases List.mem_append.mp laid.1 with old | new
    · obtain ⟨stale, fresh, rfl, staleLaid, freshLaid⟩ := ih laid.2 ascends.2
      refine ⟨ent :: stale, fresh, rfl, ⟨old, staleLaid⟩, ?_⟩
      have sizes : offset + (bytesOf (ent :: stale)).length =
          offset + ent.bytes.length + (bytesOf stale).length := by simp [bytesOf, Nat.add_assoc]
      rwa [sizes]
    · rw [List.map_append] at order
      obtain ⟨before, after⟩ := ascends_append.mp order
      have past : ∀ put ∈ abandoned, put.ent.seq < ent.seq := fun put member =>
        Nat.lt_of_le_of_lt (before.le_last_of_mem (List.mem_map_of_mem member))
          (after.lt_of_mem (List.mem_map_of_mem new))
      refine ⟨[], ent :: rest, rfl, trivial, new, laid.2.of_rising ascends.2 fun put member later => ?_⟩
      exact (List.mem_append.mp member).resolve_left fun old => Nat.lt_asymm later (past put old)

theorem bytes_pos (ent : Entry) : 0 < ent.bytes.length := by
  rw [Entry.length_bytes]
  exact Nat.lt_of_lt_of_le (by decide) (Nat.le_add_right ..)

theorem bytesOf_length_eq_zero (empty : (bytesOf entries).length = 0) : entries = [] := by
  cases entries with
  | nil => rfl
  | cons ent rest =>
    have positive := bytes_pos ent
    simp [bytesOf] at empty
    simp [empty.1] at positive

theorem place_bounds {put : Put} (member : put ∈ place start entries) :
    start ≤ put.offset ∧ put.offset < start + (bytesOf entries).length := by
  induction entries generalizing start with
  | nil => contradiction
  | cons ent rest ih =>
    have positive := bytes_pos ent
    have sizes : (bytesOf (ent :: rest)).length = ent.bytes.length + (bytesOf rest).length := by simp [bytesOf]
    rcases List.mem_cons.mp member with rfl | later
    · exact ⟨Nat.le_refl _, Nat.lt_add_of_pos_right (by omega)⟩
    · have bounds := ih later
      omega

/-- A chain that starts where one of the placed records starts runs along them. -/
theorem Laid.runs_along (front back : List Entry)
    (laid : Laid (place start (front ++ back)) (start + (bytesOf front).length) entries) : entries <+: back := by
  induction entries generalizing front back with
  | nil => exact List.nil_prefix
  | cons ent rest ih =>
    have here := laid.1
    rw [place_append] at here
    rcases List.mem_append.mp here with inFront | inBack
    · exact absurd (place_bounds inFront).2 (Nat.lt_irrefl _)
    · cases back with
      | nil => contradiction
      | cons other back =>
        rcases List.mem_cons.mp inBack with same | later
        · obtain rfl : ent = other := congrArg Put.ent same
          have onward : Laid (place start ((front ++ [ent]) ++ back))
            (start + (bytesOf (front ++ [ent])).length) rest := by
            have sizes : start + (bytesOf (front ++ [ent])).length =
              start + (bytesOf front).length + ent.bytes.length := by
              simp [bytesOf, Nat.add_assoc]
            rw [sizes, List.append_assoc]
            exact laid.2
          exact List.cons_prefix_cons.mpr ⟨rfl, ih _ _ onward⟩
        · have beyond := (place_bounds later).1
          have positive := bytes_pos other
          dsimp only at beyond
          omega

theorem mem_place {put : Put} (member : put ∈ place start entries) :
    ∃ front back, entries = front ++ put.ent :: back ∧ put.offset = start + (bytesOf front).length := by
  induction entries generalizing start with
  | nil => contradiction
  | cons ent rest ih =>
    rcases List.mem_cons.mp member with rfl | later
    · exact ⟨[], rest, rfl, rfl⟩
    · obtain ⟨front, back, rfl, offset⟩ := ih later
      refine ⟨ent :: front, back, rfl, ?_⟩
      rw [offset]
      simp [bytesOf, Nat.add_assoc]

theorem Laid.forall_mem {puts : List Put} {offset : ℕ} {entries : List Entry} (laid : Laid puts offset entries)
    {holds : Entry → Prop} (every : ∀ put ∈ puts, holds put.ent) : ∀ ent ∈ entries, holds ent := by
  induction entries generalizing offset with
  | nil => simp
  | cons ent rest ih =>
    intro other member
    rcases List.mem_cons.mp member with rfl | later
    · exact every _ laid.1
    · exact ih laid.2 other later

/-- Past the last commit, recovery reads every record of the running call or no commit at all. -/
theorem Laid.all_or_none {abandoned : List Put} {floor : ℕ}
    (order : Ascends floor ((abandoned ++ place start entries).map Put.ent))
    (stale : ∀ put ∈ abandoned, put.ent.op ≠ .commit) (open_ : ∀ ent ∈ entries.dropLast, ent.op ≠ .commit)
    (apart : ∀ put ∈ (place start entries).tail, put.offset ∉ reach [start] abandoned) {tail : List Entry}
    (laid : Laid (abandoned ++ place start entries) start tail) (ascends : Ascends floor tail) :
    throughCommit tail = [] ∨ tail = entries := by
  obtain ⟨rewound, fresh, rfl, rewoundLaid, freshLaid⟩ := laid.split order ascends
  have quiet : throughCommit rewound = [] := throughCommit_eq_nil.mpr (rewoundLaid.forall_mem stale)
  by_cases none : throughCommit fresh = []
  · left
    rw [throughCommit_eq_nil] at quiet none ⊢
    exact fun ent member => (List.mem_append.mp member).elim (quiet ent) (none ent)
  · right
    -- the chain runs into the records of the call, at the first of them or at a later one
    obtain ⟨ent, rest, rfl⟩ := List.exists_cons_of_ne_nil (fun empty => none (by rw [empty]; rfl) : fresh ≠ [])
    obtain ⟨front, back, split, meets⟩ := mem_place freshLaid.1
    have lengths : (bytesOf rewound).length = (bytesOf front).length := Nat.add_left_cancel meets
    have runs : ent :: rest <+: ent :: back := by
      apply Laid.runs_along front
      rw [← split, ← lengths]
      exact freshLaid
    cases front with
    | cons first front =>
      have reached := rewoundLaid.mem_reach (ascends_append.mp (List.map_append .. ▸ order)).1
        (ascends_append.mp ascends).1 (List.mem_singleton.mpr rfl)
      refine absurd reached (apart ⟨_, ent⟩ ?_)
      have place_ : start + (bytesOf rewound).length = start + first.bytes.length + (bytesOf front).length := by
        rw [lengths]
        simp [bytesOf, Nat.add_assoc]
      rw [split, List.cons_append, place, List.tail_cons, place_append, place_]
      exact List.mem_append_right _ (List.mem_cons_self ..)
    | nil =>
      obtain rfl := bytesOf_length_eq_zero lengths
      obtain ⟨dropped, whole⟩ := runs
      rw [List.nil_append] at split
      rw [List.nil_append, split, ← whole]
      by_cases short : dropped = []
      · rw [short, List.append_nil]
      · refine absurd (throughCommit_eq_nil.mpr fun other member => open_ other ?_) none
        rw [split, ← whole, List.dropLast_append_of_ne_nil short]
        exact List.mem_append_left _ member

/-! ## The header -/

theorem openHeader_header {epoch : ℕ} (counted : epoch < 2 ^ 64) (rest : Bytes) :
    openHeader (header epoch ++ rest) = .ok (epoch, header epoch ++ rest) := by
  let floor := logMagic ++ LittleEndian.encode 8 epoch
  let sum := LittleEndian.encode 4 (crc32 floor).toNat
  have whole : header epoch ++ rest = floor ++ (sum ++ rest) := List.append_assoc ..
  have floorLength : floor.length = 16 := by simp [floor, logMagic]
  have sumLength : sum.length = 4 := LittleEndian.length_encode ..
  have long : ¬ (header epoch ++ rest).length < logHeaderSize := by
    rw [List.length_append, length_header]
    omega
  have magic : (header epoch ++ rest).take 8 = logMagic := by
    rw [whole, List.append_assoc]
    exact List.take_left' rfl
  have floored : (header epoch ++ rest).take 16 = floor := by
    exact List.take_left' floorLength
  have sumField : Entry.slice (header epoch ++ rest) 16 20 = sum := by
    have cut : (floor ++ (sum ++ rest)).take 20 = floor ++ sum := by
      rw [← List.append_assoc]
      exact List.take_left' (by rw [List.length_append, floorLength, sumLength])
    exact List.drop_left' floorLength
  have epochField : Entry.slice (header epoch ++ rest) 8 16 = LittleEndian.encode 8 epoch := by
    rw [Entry.slice, floored]
    exact List.drop_left' rfl
  have sumValue : LittleEndian.decode sum = (crc32 floor).toNat :=
    LittleEndian.decode_encode (by simpa using (crc32 floor).toNat_lt)
  rw [openHeader, if_neg long, if_neg (not_not.mpr magic), sumField, floored, if_neg (not_not.mpr sumValue),
    epochField, LittleEndian.decode_encode (by simpa using counted)]

/-- Whatever `Open` accepts or writes starts with the header of its floor. -/
theorem openHeader_sound {file : Bytes} {epoch : ℕ} (opened : openHeader image = .ok (epoch, file)) :
    epoch < 2 ^ 64 ∧ file.take logHeaderSize = header epoch := by
  unfold openHeader at opened
  split at opened
  · cases opened
    refine ⟨by decide, ?_⟩
    have empty : image.take ([] : Bytes).length = [] := rfl
    have written := Op.take_write (header 0) empty
    rwa [List.nil_append, length_header] at written
  next long =>
  split at opened
  · contradiction
  next magic =>
  split at opened
  · contradiction
  next sum =>
  cases opened
  have sixteen : 16 ≤ image.length := by
    simp only [logHeaderSize] at long
    omega
  have shorter {low high : ℕ} (below : low ≤ high) : image.take low = (image.take high).take low := by
    rw [List.take_take, Nat.min_eq_left below]
  have floor : logMagic ++ LittleEndian.encode 8 (LittleEndian.decode (Entry.slice image 8 16)) = image.take 16 := by
    rw [← not_not.mp magic, Entry.encode_slice image 8 sixteen, Entry.slice, shorter (by decide : 8 ≤ 16),
      List.take_append_drop]
  refine ⟨?_, ?_⟩
  · have bound := LittleEndian.decode_lt (Entry.slice image 8 16)
    rw [Entry.length_slice image 8 sixteen] at bound
    simpa using bound
  · have twenty : 20 ≤ image.length := by
      simp only [logHeaderSize] at long
      omega
    rw [header, floor, ← not_not.mp sum, Entry.encode_slice image 16 twenty, Entry.slice,
      shorter (by decide : 16 ≤ 20), List.take_append_drop]
    rfl

theorem length_le_bytesOf (entries : List Entry) : entries.length ≤ (bytesOf entries).length := by
  induction entries with
  | nil => exact Nat.le_refl _
  | cons ent rest ih =>
    have positive := bytes_pos ent
    have sizes : (bytesOf (ent :: rest)).length = ent.bytes.length + (bytesOf rest).length := by simp [bytesOf]
    rw [List.length_cons]
    omega

/-- Opening a file that starts with a header and records that end with a commit. -/
theorem openLog_header (held : List Entry) {epoch : ℕ} (counted : epoch < 2 ^ 64)
    (sized : ∀ ent ∈ held, ent.size ≤ maxEntrySize ∧ ent.seq < 2 ^ 64) (ascends : Ascends epoch held)
    (closed : throughCommit held = held) {rest : Bytes} (whole : image = header epoch ++ (bytesOf held ++ rest))
    (holds : Replays puts image) :
    ∃ tail, openLog image = .ok (endReplay epoch image, replayMem (slotsOf (held ++ throughCommit tail))) ∧
      Ascends (lastSeq epoch held) tail ∧ Laid puts (logHeaderSize + (bytesOf held).length) tail := by
  have opens : openHeader image = .ok (epoch, image) := whole ▸ openHeader_header counted _
  have body : image.drop logHeaderSize = bytesOf held ++ rest := by
    rw [whole]
    exact List.drop_left' (length_header epoch)
  have enough : held.length ≤ image.length := by
    have few := length_le_bytesOf held
    rw [whole]
    simp only [List.length_append]
    omega
  have read : readRecords epoch image = held ++ readAll (image.length - held.length) (lastSeq epoch held) rest := by
    rw [readRecords, body]
    exact readAll_bytesOf (fun ent member => (sized ent member).1) (fun ent member => (sized ent member).2)
      ascends enough rest
  refine ⟨_, ?_, readAll_ascends .., (laid_append.mp (read ▸ holds epoch image opens)).2⟩
  rw [openLog, opens, ← throughCommit_append closed, ← read]
  rfl

end Log

open Log

/-- No chain of rewound records leads from the last commit to a later record of a call that has written its
commit record. -/
def Ledger.apart (ledger : Ledger) (committed : ℕ) : Bool :=
  ledger.written.getLast?.all (fun put => decide (put.ent.op ≠ .commit)) ||
    ledger.written.tail.all fun put => decide (put.offset ∉ reach [committed] ledger.abandoned)

def Wal.apart (wal : Wal) : Bool := wal.ledger.apart wal.log.committed

variable {ledger : Ledger}

theorem LogInv.epoch_lt {log : Log} (inv : LogInv log ledger) : log.epoch < 2 ^ 64 :=
  Nat.lt_of_le_of_lt (Nat.le_trans inv.ascends.le_lastSeq inv.last) inv.counted

/-- A crash leaves the header and the committed records in place. -/
theorem LogInv.image_eq {log : Log} (inv : LogInv log ledger) (left : log.file.Leaves image) :
    image = header log.epoch ++ (bytesOf ledger.held ++ image.drop log.committed) := by
  have front : image.take log.committed = header log.epoch ++ bytesOf ledger.held := by
    rw [left.take_eq inv.pending inv.reaches, inv.durable]
  rw [← List.append_assoc, ← front, List.take_append_drop]

/-- Recovery finds what was committed and, at most, the whole running call on top of it. -/
theorem LogInv.recover {log : Log} (inv : LogInv log ledger)
    (open_ : ∀ put ∈ ledger.written.dropLast, put.ent.op ≠ .commit) (apart : ledger.apart log.committed = true)
    (left : log.file.Leaves image) (holds : Replays ledger.puts image) :
    ∃ reopened records, openLog image = .ok (reopened, replayMem records) ∧
      (records = slotsOf ledger.held ∨ (∃ put ∈ ledger.written.getLast?, put.ent.op = .commit) ∧
        records = slotsOf (ledger.held ++ ledger.writtenEntries)) := by
  have heldAscends := (ascends_append.mp inv.ascends)
  have sized : ∀ ent ∈ ledger.held, ent.size ≤ maxEntrySize ∧ ent.seq < 2 ^ 64 := fun ent member =>
    ⟨inv.sized ent (List.mem_append_left _ member), Nat.lt_of_le_of_lt
      (Nat.le_trans (inv.ascends.le_last_of_mem (List.mem_append_left _ member)) inv.last) inv.counted⟩
  obtain ⟨tail, opens, rises, laid⟩ := openLog_header ledger.held inv.epoch_lt sized heldAscends.1 inv.closed
    (inv.image_eq left) holds
  rw [← inv.committed] at laid
  refine ⟨_, _, opens, ?_⟩
  -- only records put since the last commit have numbers past it
  have recent : Laid ledger.recent log.committed tail :=
    laid.of_rising rises fun put member later => inv.known put member later
  have entries : ledger.written = place log.committed ledger.writtenEntries := inv.placed
  cases ends : ledger.written.getLast? with
  | none =>
    left
    have empty : ledger.written = [] := List.getLast?_eq_none_iff.mp ends
    rw [Ledger.recent, empty, List.append_nil] at recent
    rw [throughCommit_eq_nil.mpr (recent.forall_mem inv.stale), List.append_nil]
  | some last =>
    obtain ⟨front, split⟩ := List.getLast?_eq_some_iff.mp ends
    rw [split, List.dropLast_concat] at open_
    by_cases commits : last.ent.op = .commit
    · have clear : ∀ put ∈ ledger.written.tail, put.offset ∉ reach [log.committed] ledger.abandoned := by
        simpa [Ledger.apart, ends, commits] using apart
      have uncommitted : ∀ ent ∈ ledger.writtenEntries.dropLast, ent.op ≠ .commit := by
        simpa [Ledger.writtenEntries, split] using open_
      rcases Laid.all_or_none (entries ▸ heldAscends.2) inv.stale uncommitted (entries ▸ clear) (entries ▸ recent)
        rises with none | all
      · left
        rw [none, List.append_nil]
      · right
        have closed : throughCommit ledger.writtenEntries = ledger.writtenEntries := by
          rw [Ledger.writtenEntries, split, List.map_append]
          exact throughCommit_concat _ commits
        rw [all, closed]
        exact ⟨⟨last, rfl, commits⟩, rfl⟩
    · left
      have none : ∀ put ∈ ledger.recent, put.ent.op ≠ .commit := by
        intro put member
        rw [Ledger.recent, split] at member
        rcases List.mem_append.mp member with old | new
        · exact inv.stale put old
        · rcases List.mem_append.mp new with earlier | final
          · exact open_ put earlier
          · exact List.mem_singleton.mp final ▸ commits
      rw [throughCommit_eq_nil.mpr (recent.forall_mem none), List.append_nil]

/-- Recovery finds just what was committed while no commit record has been put since. -/
theorem LogInv.recover_uncommitted {log : Log} (inv : LogInv log ledger)
    (none : ∀ put ∈ ledger.written, put.ent.op ≠ .commit) (left : log.file.Leaves image)
    (holds : Replays ledger.puts image) :
    ∃ reopened, openLog image = .ok (reopened, replayMem (slotsOf ledger.held)) := by
  have apart : ledger.apart log.committed = true := by
    rw [Ledger.apart, Bool.or_eq_true, Option.all_eq_true]
    exact .inl fun put isLast => decide_eq_true (none put (List.mem_of_getLast? isLast))
  obtain ⟨reopened, records, opens, rfl | ⟨⟨put, isLast, commits⟩, -⟩⟩ :=
    inv.recover (fun put member => none put (List.dropLast_subset _ member)) apart left holds
  · exact ⟨reopened, opens⟩
  · exact absurd commits (none put (List.mem_of_getLast? isLast))

end PallasDB
