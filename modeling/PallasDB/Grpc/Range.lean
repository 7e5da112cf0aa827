import PallasDB.Db.KVReads
import PallasDB.Db.TableStore
import PallasDB.Lib.Uvarint

/-! # Range requests

A server turns a request into a scan under its own row limit, opens an iterator in a transaction and sends what it
meets until the stop bound, the limit or an interruption, or until a row is larger than a message may be. Keys of the
engine are skipped on the way. The rows sent are determined by the pairs the transaction reads, and reserved keys among
them make no difference.
-/

namespace PallasDB

open SortedRun

inductive Code where
  | canceled
  | invalidArgument
  | deadlineExceeded
  | notFound
  | resourceExhausted
  | aborted
  | internal
  | unavailable
deriving DecidableEq, Repr

/-- What a call to Raft fails with. -/
inductive RaftError where
  | notLeader
  | leadershipLost
  | raftShutdown
  | leadershipTransferInProgress
  | cantBootstrap
  | enqueueTimeout
  | abortedByRestore
  | other
deriving DecidableEq, Repr

inductive ContextError where
  | canceled
  | deadlineExceeded
deriving DecidableEq, Repr

/-- `raftErrorCode`. -/
def RaftError.code : RaftError → Code
  | .notLeader | .leadershipLost | .raftShutdown | .leadershipTransferInProgress | .cantBootstrap => .unavailable
  | .enqueueTimeout => .deadlineExceeded
  | .abortedByRestore => .aborted
  | .other => .internal

/-- `status.FromContextError`. -/
def ContextError.code : ContextError → Code
  | .canceled => .canceled
  | .deadlineExceeded => .deadlineExceeded

structure RangeRequest where
  start : Bytes
  stop : Bytes
  descending : Bool
  keysOnly : Bool
  limit : ℕ
deriving DecidableEq, Repr

structure RangeResponse where
  key : Bytes
  value : Bytes
deriving DecidableEq, Repr

/-- The largest messages a server sends and receives. -/
def defaultMaxSendMsgSize : ℕ := 16 * 2 ^ 20

def defaultMaxRecvMsgSize : ℕ := 16 * 2 ^ 20

/-- What a field of bytes takes in a message: nothing if it is empty, else its tag, its length and the bytes. -/
def fieldSize (field : Bytes) : ℕ :=
  if field = [] then 0 else 1 + (Uvarint.encode field.length).length + field.length

theorem length_le_fieldSize (field : Bytes) : field.length ≤ fieldSize field := by
  rw [fieldSize]
  split
  · simp [*]
  · omega

def RangeResponse.size (row : RangeResponse) : ℕ := fieldSize row.key + fieldSize row.value

/-- A validated request bound to the row limit of the server. -/
structure RangeScan where
  start : Bytes
  stop : Bytes
  descending : Bool
  keysOnly : Bool
  limit : ℕ

def newRangeScan (req : RangeRequest) (cap : ℕ) : RangeScan where
  start := req.start
  stop := req.stop
  descending := req.descending
  keysOnly := req.keysOnly
  limit := if req.limit = 0 ∨ 0 < cap ∧ cap < req.limit then cap else req.limit

def rangeCheckInterval : ℕ := 128

/-- What ends a stream other than its own end. -/
inductive StreamError where
  /-- "range keys: %v" -/
  | rangeKeys (err : TXError)
  | context (err : ContextError)
  /-- "range exceeded the server scan deadline; resume from the last key received" -/
  | scanDeadline
  /-- "trying to send message larger than max (%d vs. %d)" and "received message larger than max (%d vs. %d)" -/
  | messageTooLarge
deriving DecidableEq, Repr

def StreamError.code : StreamError → Code
  | .rangeKeys _ => .internal
  | .context err => err.code
  | .scanDeadline => .deadlineExceeded
  | .messageTooLarge => .resourceExhausted

variable {view : KVMap} {pairs : KVRun}

namespace RangeScan

def inBounds (scan : RangeScan) (key : Bytes) : Bool :=
  if scan.stop.length = 0 then true
  else if scan.descending then decide (scan.stop ≤ key)
  else decide (key ≤ scan.stop)

/-- Position an iterator on the first key of the scan. -/
def openIter (scan : RangeScan) (kv : KV) (tx : KVTX) : Except StreamError (LiveIter (Merged Bytes Bytes)) :=
  if !scan.descending then (kv.seek tx scan.start).mapError .rangeKeys
  else if scan.start.length = 0 then (kv.seekToLast tx).mapError .rangeKeys
  else ((kv.seek tx scan.start).mapError .rangeKeys).map fun iter =>
    if (SlotIter.slot? iter).all fun slot => decide (scan.start < slot.key) then SlotIter.prev iter else iter

def advance {ι : Type} [SlotIter ι Bytes Bytes] (scan : RangeScan) (iter : ι) : ι :=
  if scan.descending then SlotIter.prev iter else SlotIter.next iter

def response (scan : RangeScan) (slot : KVSlot) : RangeResponse :=
  ⟨slot.key, if scan.keysOnly then [] else slot.val.getD []⟩

/-- The loop of `stream`. The interruption is what the context and the clock say after so many rows. -/
def send {ι : Type} [SlotIter ι Bytes Bytes] (scan : RangeScan) (interrupt : ℕ → Option StreamError) :
    ℕ → ℕ → ι → List RangeResponse × Except StreamError Unit
  | 0, _, _ => ([], .ok ())
  | rounds + 1, sent, iter =>
    match SlotIter.slot? iter with
    | none => ([], .ok ())
    | some slot =>
      if !scan.inBounds slot.key then ([], .ok ())
      else if isReservedKey slot.key then scan.send interrupt rounds sent (scan.advance iter)
      else if defaultMaxSendMsgSize < (scan.response slot).size then ([], .error .messageTooLarge)
      else if 0 < scan.limit ∧ scan.limit ≤ sent + 1 then ([scan.response slot], .ok ())
      else
        match (if (sent + 1) % rangeCheckInterval = 0 then interrupt (sent + 1) else none) with
        | some err => ([scan.response slot], .error err)
        | none =>
          let (rows, result) := scan.send interrupt rounds (sent + 1) (scan.advance iter)
          (scan.response slot :: rows, result)

/-- `stream`. -/
def stream (scan : RangeScan) (interrupt : ℕ → Option StreamError) (kv : KV) (tx : KVTX) :
    List RangeResponse × Except StreamError Unit :=
  match scan.openIter kv tx with
  | .error err => ([], .error err)
  | .ok iter => scan.send interrupt (SlotIter.size iter) 0 iter

/-! ## The rows of a scan -/

/-- The pairs from the start bound on, in the order of the scan. -/
def candidates (scan : RangeScan) (pairs : KVRun) : KVRun :=
  if scan.descending then
    (pairs.filter fun slot => decide (scan.start.length = 0 ∨ slot.key ≤ scan.start)).reverse
  else pairs.filter fun slot => decide (scan.start ≤ slot.key)

/-- What is sent of the pairs a scan meets. -/
def rows (scan : RangeScan) (interrupt : ℕ → Option StreamError) :
    ℕ → KVRun → List RangeResponse × Except StreamError Unit
  | _, [] => ([], .ok ())
  | sent, slot :: rest =>
    if !scan.inBounds slot.key then ([], .ok ())
    else if isReservedKey slot.key then scan.rows interrupt sent rest
    else if defaultMaxSendMsgSize < (scan.response slot).size then ([], .error .messageTooLarge)
    else if 0 < scan.limit ∧ scan.limit ≤ sent + 1 then ([scan.response slot], .ok ())
    else
      match (if (sent + 1) % rangeCheckInterval = 0 then interrupt (sent + 1) else none) with
      | some err => ([scan.response slot], .error err)
      | none =>
        let (rows, result) := scan.rows interrupt (sent + 1) rest
        (scan.response slot :: rows, result)

variable {scan : RangeScan} {interrupt : ℕ → Option StreamError}

theorem mem_of_mem_rows {sent : ℕ} {row : RangeResponse} (member : row ∈ (scan.rows interrupt sent pairs).1) :
    ∃ slot ∈ pairs, scan.response slot = row := by
  induction pairs generalizing sent with
  | nil => simp [rows] at member
  | cons slot rest ih =>
    have first (single : row ∈ [scan.response slot]) : ∃ other ∈ slot :: rest, scan.response other = row :=
      ⟨slot, List.mem_cons_self .., (List.mem_singleton.mp single).symm⟩
    have later {sent : ℕ} (member : row ∈ (scan.rows interrupt sent rest).1) :
        ∃ other ∈ slot :: rest, scan.response other = row := by
      obtain ⟨other, among, same⟩ := ih member
      exact ⟨other, List.mem_cons_of_mem _ among, same⟩
    rw [rows] at member
    split at member
    · contradiction
    split at member
    · exact later member
    split at member
    · contradiction
    split at member
    · exact first member
    split at member
    · exact first member
    · rcases List.mem_cons.mp member with here | there
      · exact first (List.mem_singleton.mpr here)
      · exact later there

/-- The loop sends what it meets. -/
theorem send_eq_rows {ι : Type} [SlotIter ι Bytes Bytes] (rounds sent : ℕ) (iter : ι) :
    scan.send interrupt rounds sent iter =
      scan.rows interrupt sent (drain scan.advance (fun _ => true) rounds iter) := by
  induction rounds generalizing sent iter with
  | zero => rfl
  | succ rounds ih =>
    rw [send, drain]
    cases SlotIter.slot? iter with
    | none => rfl
    | some slot => simp only [rows, ih, if_true]

section Levels

variable {levels : MergedSortedKV} (increasing : ∀ run ∈ MergedSortedKV.runs levels, Increasing run)

include increasing

private theorem drain_ascending (start : Bytes) :
    drain SlotIter.next (fun _ => true) (SlotIter.size (KV.filterDeleted (MergedSortedKV.seek levels start)))
        (KV.filterDeleted (MergedSortedKV.seek levels start)) =
      (livePairs levels).filter fun slot => decide (start ≤ slot.key) := by
  have simulation := (Merged.simulates (MergedSortedKV.collect_isMerge increasing)).live
  have tracked := seek_tracks increasing start
  have enough := simulation.size tracked
  have ordered := (livePairs_lists increasing).increasing.ordered
  rw [simulation.drain simulation.next _ _ tracked, drain_cursor_next _ _ ((Nat.sub_le _ _).trans enough),
    ordered.drop_rank_eq_filter (isCut_lt start), List.takeWhile_eq_self_iff.mpr fun _ _ => rfl]
  refine List.filter_congr fun slot _ => ?_
  rw [← decide_not, decide_eq_decide, not_lt]

private theorem drain_descending {iter : LiveIter (Merged Bytes Bytes)} {count : ℕ}
    (tracked : LiveTracks (Merged.Tracks (MergedSortedKV.runs levels) (MergedSortedKV.collect levels)) iter
      ⟨livePairs levels, count - 1⟩) (inside : count ≤ (livePairs levels).length) :
    drain SlotIter.prev (fun _ => true) (SlotIter.size iter) iter = ((livePairs levels).take count).reverse := by
  have simulation := (Merged.simulates (MergedSortedKV.collect_isMerge increasing)).live
  rw [simulation.drain simulation.prev _ _ tracked,
    drain_cursor_prev _ _ inside (inside.trans (simulation.size tracked)),
    List.takeWhile_eq_self_iff.mpr fun _ _ => rfl]

end Levels

/-- The iterator of a transaction meets the pairs the transaction reads. -/
theorem stream_eq_rows {kv : KV} {tx : KVTX} (live : tx.err = none)
    (increasing : ∀ run ∈ MergedSortedKV.runs (kv.readLevels tx), Increasing run)
    (shows : visible (MergedSortedKV.runs (kv.readLevels tx)) = view) (lists : Lists pairs view) :
    scan.stream interrupt kv tx = scan.rows interrupt 0 (scan.candidates pairs) := by
  subst shows
  have own := livePairs_lists increasing
  obtain rfl := lists.unique own
  suffices ∃ iter, scan.openIter kv tx = .ok iter ∧
      drain scan.advance (fun _ => true) (SlotIter.size iter) iter = scan.candidates (livePairs (kv.readLevels tx)) by
    obtain ⟨iter, opened, met⟩ := this
    rw [stream, opened]
    exact (send_eq_rows _ _ _).trans (by rw [met])
  have sought : kv.seek tx scan.start = .ok (KV.filterDeleted (MergedSortedKV.seek (kv.readLevels tx) scan.start)) := by
    rw [KV.seek, live]
  cases down : scan.descending with
  | false =>
    have moves : (scan.advance : LiveIter (Merged Bytes Bytes) → _) = SlotIter.next := by
      funext iter
      rw [advance, down]
      rfl
    refine ⟨_, by rw [openIter, down, sought]; rfl, ?_⟩
    rw [candidates, down, moves]
    exact drain_ascending increasing scan.start
  | true =>
    have moves : (scan.advance : LiveIter (Merged Bytes Bytes) → _) = SlotIter.prev := by
      funext iter
      rw [advance, down]
      rfl
    by_cases unbounded : scan.start.length = 0
    · refine ⟨_, by rw [openIter, down, if_neg (by simp), if_pos unbounded, KV.seekToLast, live]; rfl, ?_⟩
      rw [candidates, down, moves, drain_descending increasing (seekToLast_tracks increasing) le_rfl]
      simp [unbounded]
    · refine ⟨_, by rw [openIter, down, if_neg (by simp), if_neg unbounded, sought]; rfl, ?_⟩
      rw [candidates, down, moves]
      refine (drain_descending increasing (descending_start increasing scan.start) (rank_le_length _ _)).trans ?_
      rw [own.increasing.ordered.take_rank_eq_filter (isCut_le scan.start)]
      simp [unbounded]

/-! ## Reserved keys -/

/-- The pairs outside the reserved keyspace. -/
def unreserved (pairs : KVRun) : KVRun := pairs.filter fun slot => !isReservedKey slot.key

theorem plain_of_mem_unreserved {slot : KVSlot} (member : slot ∈ unreserved pairs) :
    isReservedKey slot.key = false := by
  simpa using (List.mem_filter.mp member).2

private theorem rows_unreserved
    (ends : pairs.Pairwise fun first second => scan.inBounds second.key = true → scan.inBounds first.key = true)
    (sent : ℕ) : scan.rows interrupt sent (unreserved pairs) = scan.rows interrupt sent pairs := by
  induction pairs generalizing sent with
  | nil => rfl
  | cons slot rest ih =>
    obtain ⟨before, ends⟩ := List.pairwise_cons.mp ends
    cases reserved : isReservedKey slot.key with
    | false =>
      have kept : unreserved (slot :: rest) = slot :: unreserved rest := by simp [unreserved, reserved]
      rw [kept, rows, rows]
      simp only [ih ends]
    | true =>
      have skipped : unreserved (slot :: rest) = unreserved rest := by simp [unreserved, reserved]
      rw [skipped]
      cases inside : scan.inBounds slot.key with
      | true => simp [rows, inside, reserved, ih ends]
      | false =>
        -- The scan has passed its bound: nothing behind it is in bounds either.
        have past : ∀ other ∈ unreserved rest, scan.inBounds other.key = false := by
          intro other member
          by_contra found
          have first := before other (List.mem_of_mem_filter member) (by simpa using found)
          simp [inside] at first
        rw [rows, inside]
        cases left : unreserved rest with
        | nil => rfl
        | cons other others => simp [rows, past other (by simp [left])]

private theorem candidates_ends {pairs : KVRun} (increasing : Increasing pairs) :
    (scan.candidates pairs).Pairwise
      fun first second => scan.inBounds second.key = true → scan.inBounds first.key = true := by
  have above {first second : KVSlot} (order : first.key < second.key) (down : scan.descending = true)
      (inside : scan.inBounds first.key = true) : scan.inBounds second.key = true := by
    rw [inBounds, down] at inside ⊢
    split at inside
    · rw [if_pos ‹_›]
    · rw [if_neg ‹_›]
      simp only [if_true, decide_eq_true_eq] at inside ⊢
      exact inside.trans order.le
  have below {first second : KVSlot} (order : first.key < second.key) (down : scan.descending = false)
      (inside : scan.inBounds second.key = true) : scan.inBounds first.key = true := by
    rw [inBounds, down] at inside ⊢
    split at inside
    · rw [if_pos ‹_›]
    · rw [if_neg ‹_›]
      simp only [Bool.false_eq_true, if_false, decide_eq_true_eq] at inside ⊢
      exact order.le.trans inside
  rw [candidates]
  cases down : scan.descending with
  | true =>
    rw [if_pos rfl, List.pairwise_reverse]
    exact (increasing.filter _).imp fun order => above order down
  | false =>
    exact (increasing.filter _).imp fun order => below order down

private theorem candidates_unreserved (pairs : KVRun) :
    scan.candidates (unreserved pairs) = unreserved (scan.candidates pairs) := by
  rw [candidates, candidates, unreserved, unreserved]
  cases scan.descending with
  | true => simp [List.filter_reverse, List.filter_filter, Bool.and_comm]
  | false => simp [List.filter_filter, Bool.and_comm]

theorem lists_unreserved (lists : Lists pairs view) :
    Lists (unreserved pairs) fun key => if isReservedKey key then none else view key := by
  have same : (fun key => if isReservedKey key then none else view key) =
      fun key => if !isReservedKey key then view key else none := by
    funext key
    cases isReservedKey key <;> rfl
  rw [same]
  exact lists.filter fun key => !isReservedKey key

/-- A scan does not see the reserved keys. -/
theorem rows_candidates_unreserved (increasing : Increasing pairs) :
    scan.rows interrupt 0 (scan.candidates (unreserved pairs)) = scan.rows interrupt 0 (scan.candidates pairs) := by
  rw [candidates_unreserved, rows_unreserved (candidates_ends increasing)]

/-- Two stores that agree outside the reserved keyspace stream the same rows. -/
theorem rows_eq_of_agree {other : KVMap}
    (agree : ∀ key, isReservedKey key = false → view key = other key) {otherPairs : KVRun}
    (lists : Lists pairs view) (otherLists : Lists otherPairs other) :
    scan.rows interrupt 0 (scan.candidates pairs) = scan.rows interrupt 0 (scan.candidates otherPairs) := by
  have same : unreserved pairs = unreserved otherPairs := by
    refine (lists_unreserved lists).unique ?_
    convert lists_unreserved otherLists using 2 with key
    cases reserved : isReservedKey key with
    | true => rfl
    | false => rw [agree key reserved]
  rw [← rows_candidates_unreserved lists.increasing, same, rows_candidates_unreserved otherLists.increasing]

/-- The rows left to send of a listing. -/
def remaining (scan : RangeScan) (sent : ℕ) (listed : KVRun) : KVRun :=
  if scan.limit = 0 then listed else listed.take (scan.limit - sent)

/-- A scan that is not interrupted sends the pairs within its bounds, up to its limit. -/
theorem rows_finished {pairs : KVRun}
    (ends : pairs.Pairwise fun first second => scan.inBounds second.key = true → scan.inBounds first.key = true)
    (plain : ∀ slot ∈ pairs, isReservedKey slot.key = false) {sent : ℕ} (room : scan.limit = 0 ∨ sent < scan.limit)
    (finished : (scan.rows interrupt sent pairs).2 = .ok ()) :
    (scan.rows interrupt sent pairs).1 =
      (scan.remaining sent (pairs.filter fun slot => scan.inBounds slot.key)).map scan.response := by
  induction pairs generalizing sent with
  | nil => simp [rows, remaining]
  | cons slot rest ih =>
    rw [List.forall_mem_cons] at plain
    obtain ⟨before, ends⟩ := List.pairwise_cons.mp ends
    cases inside : scan.inBounds slot.key with
    | false =>
      have none : (slot :: rest).filter (fun slot => scan.inBounds slot.key) = [] := by
        refine List.filter_eq_nil_iff.mpr fun other member => ?_
        rcases List.mem_cons.mp member with rfl | later
        · simp [inside]
        · exact fun found => by simpa [inside] using before other later found
      rw [none]
      simp [rows, inside, remaining]
    | true =>
      have kept : (slot :: rest).filter (fun slot => scan.inBounds slot.key) =
          slot :: rest.filter fun slot => scan.inBounds slot.key := by simp [inside]
      rw [kept]
      rw [rows, inside, plain.1] at finished ⊢
      simp only [Bool.not_true, Bool.false_eq_true, if_false] at finished ⊢
      split at finished
      · contradiction
      next sendable =>
      rw [if_neg sendable]
      split
      · next full =>
        have one : scan.limit - sent = 1 := by omega
        simp [remaining, full.1.ne', one]
      · next more =>
        rw [if_neg more] at finished
        split at finished
        · contradiction
        · next quiet =>
          have further : scan.limit = 0 ∨ sent + 1 < scan.limit := by omega
          rw [ih ends plain.2 further finished, remaining, remaining]
          split
          · rfl
          · next limited =>
            obtain ⟨less, count⟩ : ∃ less, scan.limit - sent = less + 1 := ⟨scan.limit - (sent + 1), by omega⟩
            have fewer : scan.limit - (sent + 1) = less := by omega
            rw [count, fewer, List.take_succ_cons, List.map_cons]

end RangeScan

/-! ## The answer to a request -/

namespace RangeRequest

/-- Between the bounds of a request. -/
def Within (req : RangeRequest) (key : Bytes) : Prop :=
  if req.descending then (req.stop = [] ∨ req.stop ≤ key) ∧ (req.start = [] ∨ key ≤ req.start)
  else (req.start = [] ∨ req.start ≤ key) ∧ (req.stop = [] ∨ key ≤ req.stop)

instance (req : RangeRequest) (key : Bytes) : Decidable (req.Within key) := by
  unfold Within
  infer_instance

/-- The number of rows a request may get; `none` without any limit. -/
def allowed (req : RangeRequest) (cap : ℕ) : Option ℕ :=
  if req.limit = 0 then (if cap = 0 then none else some cap)
  else if cap = 0 then some req.limit else some (min req.limit cap)

/-- The rows a request asks for, in the order of the scan. -/
def answer (req : RangeRequest) (cap : ℕ) (pairs : KVRun) : List RangeResponse :=
  let listed := pairs.filter fun slot => decide (req.Within slot.key) && !isReservedKey slot.key
  let ordered := if req.descending then listed.reverse else listed
  let taken := match req.allowed cap with
    | none => ordered
    | some count => ordered.take count
  taken.map fun slot => ⟨slot.key, if req.keysOnly then [] else slot.val.getD []⟩

private theorem remaining_eq (req : RangeRequest) (cap : ℕ) (listed : KVRun) :
    (newRangeScan req cap).remaining 0 listed = match req.allowed cap with
      | none => listed
      | some count => listed.take count := by
  have limit : (newRangeScan req cap).limit = (req.allowed cap).getD 0 ∧ req.allowed cap ≠ some 0 := by
    simp only [newRangeScan, allowed]
    grind
  rw [RangeScan.remaining, limit.1]
  cases bound : req.allowed cap with
  | none => rfl
  | some count =>
    have positive : count ≠ 0 := fun zero => limit.2 (by rw [bound, zero])
    simp [positive]

private theorem listed_eq (req : RangeRequest) (cap : ℕ) (pairs : KVRun) :
    (RangeScan.unreserved ((newRangeScan req cap).candidates pairs)).filter
        (fun slot => (newRangeScan req cap).inBounds slot.key) =
      let listed := pairs.filter fun slot => decide (req.Within slot.key) && !isReservedKey slot.key
      if req.descending then listed.reverse else listed := by
  have bounds : (newRangeScan req cap).start = req.start ∧ (newRangeScan req cap).stop = req.stop ∧
      (newRangeScan req cap).descending = req.descending := ⟨rfl, rfl, rfl⟩
  simp only [RangeScan.unreserved, RangeScan.candidates, RangeScan.inBounds, bounds, List.length_eq_zero_iff]
  cases down : req.descending with
  | true =>
    simp only [if_true, List.filter_reverse, List.filter_filter]
    refine congrArg List.reverse (List.filter_congr fun slot _ => ?_)
    simp only [Within, down, if_true]
    grind
  | false =>
    simp only [Bool.false_eq_true, if_false, List.filter_filter]
    refine List.filter_congr fun slot _ => ?_
    have least : req.start = [] → req.start ≤ slot.key := by
      intro empty
      rw [empty]
      exact List.nil_le _
    simp only [Within, down, Bool.false_eq_true, if_false]
    grind

/-- A stream that ends without an error has sent the rows its request asks for. -/
theorem stream_exact (req : RangeRequest) (cap : ℕ) {interrupt : ℕ → Option StreamError} {kv : KV} {tx : KVTX}
    (live : tx.err = none) (increasing : ∀ run ∈ MergedSortedKV.runs (kv.readLevels tx), Increasing run)
    {pairs : KVRun} (lists : Lists pairs (visible (MergedSortedKV.runs (kv.readLevels tx))))
    {rows : List RangeResponse} (finished : (newRangeScan req cap).stream interrupt kv tx = (rows, .ok ())) :
    rows = req.answer cap pairs := by
  set scan := newRangeScan req cap with scans
  have ends := @RangeScan.candidates_ends scan pairs lists.increasing
  have sent : scan.rows interrupt 0 (RangeScan.unreserved (scan.candidates pairs)) = (rows, .ok ()) := by
    rw [RangeScan.rows_unreserved ends, ← finished, RangeScan.stream_eq_rows live increasing rfl lists]
  have whole := @RangeScan.rows_finished scan interrupt (RangeScan.unreserved _) (ends.filter _)
    (fun _ member => RangeScan.plain_of_mem_unreserved member) 0 (Nat.eq_zero_or_pos scan.limit)
      (congrArg Prod.snd sent)
  rw [sent, scans, listed_eq, remaining_eq] at whole
  exact whole

/-- A descending request without an upper bound, on a server with a limit of one row. -/
theorem stream_exact_scanTX : ∃ pairs, Lists pairs (visible (MergedSortedKV.runs (KV.empty.readLevels scanTX))) ∧
    (newRangeScan ⟨[], [2], true, true, 0⟩ 1).stream (fun _ => none) KV.empty scanTX = ([⟨[4], []⟩], .ok ()) ∧
    [⟨[4], []⟩] = answer ⟨[], [2], true, true, 0⟩ 1 pairs := by
  have increasing : ∀ run ∈ MergedSortedKV.runs (KV.empty.readLevels scanTX), Increasing run := by decide
  have finished : (newRangeScan ⟨[], [2], true, true, 0⟩ 1).stream (fun _ => none) KV.empty scanTX =
      ([⟨[4], []⟩], .ok ()) := by decide +kernel
  exact ⟨_, livePairs_lists increasing, finished, stream_exact _ 1 rfl increasing (livePairs_lists increasing) finished⟩

end RangeRequest

end PallasDB
