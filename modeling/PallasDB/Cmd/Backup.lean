import PallasDB.Cmd.DumpStream
import PallasDB.Db.Statement
import PallasDB.Grpc.Server

/-! # Backups

`dump` and `restore` work on a data directory or through a server. The directory is read in one transaction. A server
is read page by page: it stops a scan at its row limit or its deadline without saying so, and the client goes on from
the last key it has received until a page brings nothing new. Through a server the keys of the engine are skipped on
the way out and refused on the way in, so the two routes agree for stores without such keys only.
-/

namespace PallasDB

open SortedRun Transition VersionedMap

/-! ## Taking a backup -/

/-- The records of some pairs. -/
def recordsOf (pairs : KVRun) : List (Bytes × Bytes) := pairs.map fun slot => (slot.key, slot.val.getD [])

inductive DumpLocalError where
  /-- "open database: %w" -/
  | openDatabase (err : TableError)
  /-- "scan database: %w" -/
  | scanDatabase (err : TXError)
deriving DecidableEq, Repr

/-- `dumpLocal`, after what the compaction thread of the opened store has done. -/
def dumpLocal (options : KVOptions) (background : List KVEvent) (files : Option StoreFiles) :
    Except DumpLocalError (List (Bytes × Bytes)) :=
  match newKV files with
  | .error err => .error (.openDatabase err)
  | .ok store =>
    match (store.background options background).iterAll.2 with
    | .error err => .error (.scanDatabase err)
    | .ok iter => .ok (recordsOf (drain SlotIter.next (fun _ => true) (SlotIter.size iter) iter))

inductive DumpError where
  | refused (err : StatusError)
  | stream (err : StreamError)
  | unavailable
deriving DecidableEq, Repr

/-- What happens around one `Client.Range`, and whether the caller has given up by its end. -/
structure DumpPage where
  env : ServeEnv
  gaveUp : Bool

/-- The largest message a client receives, as gRPC has it. -/
def clientMaxRecvMsgSize : ℕ := 4 * 2 ^ 20

/-- What a client receives of a stream. -/
def received (sent : List RangeResponse) (result : Except StreamError Unit) :
    List RangeResponse × Except StreamError Unit :=
  if sent.all (·.size ≤ clientMaxRecvMsgSize) then (sent, result)
  else (sent.takeWhile (·.size ≤ clientMaxRecvMsgSize), .error .messageTooLarge)

/-- `IsPartialScan`. -/
def isPartialScan (err : StreamError) : Bool := decide (err.code = .deadlineExceeded)

/-- How a page ends the loop of `dumpRemote`, if it does. -/
def pageEnd (gaveUp : Bool) (added : List RangeResponse) : Except StreamError Unit → Option (Except StreamError Unit)
  | .error err =>
    -- without progress the same error would come again
    if added = [] then some (.error err)
    else if gaveUp then some (.error err)
    else if !isPartialScan err then some (.error err)
    else none
  | .ok () => if added = [] then some (.ok ()) else none

section Commands

variable (options : KVOptions) (unmarshal : Bytes → Option Command) (cap : ℕ)

/-- The loop of `dumpRemote`, for so many pages; nothing comes back if it has not ended by then. -/
def dumpPages (consistency : Consistency) :
    List DumpPage → Option Bytes → KVService → Option (Except DumpError (List (Bytes × Bytes)))
  | [], _, _ => none
  | page :: pages, resumeFrom, server =>
    match server.step options unmarshal cap
        (page.env, .range ⟨resumeFrom.getD [], [], false, false, 0⟩ consistency) with
    | some (next, .range sent ended) =>
      let (rows, result) := received sent ended
      let added := rows.filter fun row => decide (some row.key ≠ resumeFrom)
      match pageEnd page.gaveUp added result with
      | some (.error err) => some (.error (.stream err))
      | some (.ok ()) => some (.ok [])
      | none =>
        -- an empty key arrives as no key at all
        let lastKey := (added.getLast?.map RangeResponse.key).filter fun key => decide (key ≠ [])
        (dumpPages consistency pages lastKey next).map fun later =>
          later.map fun records => added.map (fun row => (row.key, row.value)) ++ records
    | some (_, .refused err) => some (.error (.refused err))
    | _ => some (.error .unavailable)

/-- `dumpRemote`. -/
def dumpRemote (consistency : Consistency) (server : KVService) (pages : List DumpPage) :
    Option (Except DumpError (List (Bytes × Bytes))) := dumpPages options unmarshal cap consistency pages none server

/-! ## Restoring a backup -/

def restoreBatchSize : ℕ := 1000

inductive RestoreStepError where
  /-- "open database: %w" -/
  | openDatabase (err : TableError)
  /-- "restore key: %w" -/
  | restoreKey (err : WriteError)
  /-- "commit batch: %w" -/
  | commitBatch (err : CommitError)
  /-- "restore key: %w" -/
  | put (err : StatusError)
  | unavailable
deriving DecidableEq, Repr

/-- The store, the open transaction, the writes in it and the records so far. -/
structure LocalRestore where
  kv : KV
  tx : ℕ
  pending : ℕ
  count : ℕ

/-- One round of `restoreLocal`. The compaction thread is at work while the transaction is open. -/
def restoreRecord (background : ℕ → List KVEvent) (state : LocalRestore) (record : Bytes × Bytes) :
    LocalRestore × Except RestoreStepError Unit :=
  let kv := state.kv.background options (background state.count)
  match kv.writeTX state.tx (.set record.1 record.2 .upsert) with
  | .error err => ({ state with kv := kv }, .error (.restoreKey err))
  | .ok (kv, _) =>
    if state.pending + 1 < restoreBatchSize then (⟨kv, state.tx, state.pending + 1, state.count + 1⟩, .ok ())
    else
      match (kv.awaitCommit options).commitTX state.tx with
      | (kv, .error err) => ({ state with kv := kv }, .error (.commitBatch err))
      | (kv, .ok ()) => (⟨kv.newTX, kv.txs.length, 0, state.count + 1⟩, .ok ())

/-- `restoreLocal`. What was committed before a failure stays; `Abort` after a `Commit` does nothing. -/
def restoreLocal (background : ℕ → List KVEvent) (files : Option StoreFiles) (reader : Bytes) :
    Option StoreFiles × Except (DumpReadError RestoreStepError) ℕ :=
  match newKV files with
  | .error err => (files, .error (.visit (.openDatabase err)))
  | .ok store =>
    match readDump (restoreRecord options background) ⟨store.newTX, store.txs.length, 0, 0⟩ reader with
    | (state, .error err) => (some ((state.kv.abortTX state.tx).close options).files, .error err)
    | (state, .ok ()) =>
      match ((state.kv.background options (background state.count)).awaitCommit options).commitTX state.tx with
      | (kv, .error err) => (some (kv.close options).files, .error (.visit (.commitBatch err)))
      | (kv, .ok ()) => (some (kv.close options).files, .ok state.count)

/-- The server, unless its process has aborted, and the records so far. -/
structure RemoteRestore where
  server : Option KVService
  count : ℕ

/-- What a request to put a pair takes; its mode is a number of one byte. -/
def putRequestSize (key val : Bytes) : ℕ := fieldSize key + fieldSize val + 2

/-- One round of `restoreRemote`. -/
def putRecord (env : ℕ → ServeEnv) (state : RemoteRestore) (record : Bytes × Bytes) :
    RemoteRestore × Except RestoreStepError Unit :=
  match state.server with
  | none => (state, .error .unavailable)
  | some server =>
    if defaultMaxRecvMsgSize < putRequestSize record.1 record.2 then (state, .error (.put .messageTooLarge))
    else
      match server.step options unmarshal cap (env state.count, .put record.1 record.2 .upsert) with
      | some (next, .put (.ok _)) => (⟨some next, state.count + 1⟩, .ok ())
      | some (next, .put (.error err)) => (⟨some next, state.count⟩, .error (.put err))
      | some (next, _) => (⟨some next, state.count⟩, .error .unavailable)
      | none => (⟨none, state.count⟩, .error .unavailable)

/-- `restoreRemote`. -/
def restoreRemote (env : ℕ → ServeEnv) (server : Option KVService) (reader : Bytes) :
    Option KVService × Except (DumpReadError RestoreStepError) ℕ :=
  match readDump (putRecord options unmarshal cap env) ⟨server, 0⟩ reader with
  | (state, .error err) => (state.server, .error err)
  | (state, .ok ()) => (state.server, .ok state.count)

end Commands

/-- `restore`: the header of the stream is read before the destination is touched. -/
def restore {σ ε α : Type} (into : σ → Bytes → σ × Except (DumpReadError ε) α) (destination : σ) (stream : Bytes) :
    σ × Except (DumpReadError ε) α :=
  match newDumpReader stream with
  | .error err => (destination, .error err)
  | .ok reader => into destination reader

/-! ## The pages of a dump -/

theorem received_small {sent : List RangeResponse} (result : Except StreamError Unit)
    (small : ∀ row ∈ sent, row.size ≤ clientMaxRecvMsgSize) : received sent result = (sent, result) := by
  rw [received, if_pos (by simpa using small)]

theorem size_of_mem_received {sent : List RangeResponse} {result : Except StreamError Unit} {row : RangeResponse}
    (member : row ∈ (received sent result).1) : row.size ≤ clientMaxRecvMsgSize := by
  rw [received] at member
  split at member
  · next small => simpa using List.all_eq_true.mp small row member
  · simpa using List.mem_takeWhile_imp member

/-- A pair whose row a client receives. -/
def Deliverable (slot : KVSlot) : Prop :=
  (⟨slot.key, slot.val.getD []⟩ : RangeResponse).size ≤ clientMaxRecvMsgSize

/-- A page that is served. The server may stop the scan at its deadline. -/
structure DumpPage.Steady (page : DumpPage) : Prop where
  waits : page.gaveUp = false
  verifyLeader : page.env.raft.verifyLeader = none
  awaitApplied : page.env.raft.awaitApplied = none
  interrupt : ∀ sent err, page.env.interrupt sent = some err → isPartialScan err = true

/-- A scan without a stop bound sends every pair, or two at least if it may send two. -/
theorem RangeScan.rows_open {scan : RangeScan} (unbounded : scan.stop = []) {interrupt : ℕ → Option StreamError}
    {pairs : KVRun} (plain : ∀ slot ∈ pairs, isReservedKey slot.key = false)
    (sendable : ∀ slot ∈ pairs, (scan.response slot).size ≤ defaultMaxSendMsgSize) (sent : ℕ) :
    ∃ count ≤ pairs.length, (scan.rows interrupt sent pairs).1 = (pairs.take count).map scan.response ∧
      (count < pairs.length → 0 < count ∧ (scan.limit = 1 ∨ 2 ≤ sent + count)) ∧
      (scan.limit = 1 → sent = 0 → count ≤ 1) ∧
      ((scan.rows interrupt sent pairs).2 = .ok () ∨
        2 ≤ sent + count ∧ ∃ round err, interrupt round = some err ∧
        (scan.rows interrupt sent pairs).2 = .error err) := by
  induction pairs generalizing sent with
  | nil => exact ⟨0, le_rfl, rfl, by simp, by simp, .inl rfl⟩
  | cons slot rest ih =>
    rw [List.forall_mem_cons] at plain sendable
    have inside : scan.inBounds slot.key = true := by simp [RangeScan.inBounds, unbounded]
    rw [RangeScan.rows, inside, plain.1]
    simp only [Bool.not_true, Bool.false_eq_true, if_false, if_neg (Nat.not_lt.mpr sendable.1)]
    split
    · next full => exact ⟨1, by simp, by simp, fun _ => ⟨one_pos, by omega⟩, by simp, .inl rfl⟩
    · split
      · next err stopped =>
        -- the clock is looked at every 128 rows only
        split at stopped
        · next round =>
          have many : 2 ≤ sent + 1 := by
            rw [rangeCheckInterval] at round
            omega
          exact ⟨1, by simp, by simp, fun _ => ⟨one_pos, .inr many⟩, by simp, .inr ⟨many, _, err, stopped, rfl⟩⟩
        · contradiction
      · obtain ⟨count, bound, rows, short, -, result⟩ := ih plain.2 sendable.2 (sent + 1)
        refine ⟨count + 1, by simpa using bound, by simp [rows], fun fewer => ?_, by omega, ?_⟩
        · have := (short (by simpa using fewer)).2
          omega
        · exact result.imp_right fun failed => ⟨by omega, failed.2⟩

section Dump

variable {options : KVOptions} {unmarshal : Bytes → Option Command} {cap : ℕ} {consistency : Consistency}
  {server : KVService} {contents : KVMap} {pairs : KVRun}

/-- A range that is not refused streams the rows of the contents. -/
theorem KVService.step_range (serves : server.Serves options contents) {env : ServeEnv}
    (verifyLeader : env.raft.verifyLeader = none) (awaitApplied : env.raft.awaitApplied = none) (req : RangeRequest) :
    let rows := (newRangeScan req cap).rows env.interrupt 0 ((newRangeScan req cap).candidates (listing contents))
    ∃ next, server.step options unmarshal cap (env, .range req consistency) = some (next, .range rows.1 rows.2) ∧
      next.Serves options contents := by
  cases server with
  | single store =>
    have before : Store.Serves options { store with kv := store.kv.background options env.background } contents :=
      ⟨serves.holds.background _, serves.cached⟩
    obtain ⟨next, streamed, served⟩ := before.range env (newRangeScan req cap)
    refine ⟨.single next, ?_, served⟩
    simp only [KVService.step, KVServer.handle, streamed]
    rfl
  | cluster node =>
    have before : Store.Serves options (node.setStore
        { node.store with kv := node.fsm.store.background options env.background }).store contents :=
      ⟨serves.store.holds.background _, serves.store.cached⟩
    obtain ⟨next, streamed, served⟩ := before.range env (newRangeScan req cap)
    refine ⟨.cluster (node.setStore next), ?_, serves.opened, served⟩
    have ready : ClusterKVServer.readReady env consistency = none := by
      simp [ClusterKVServer.readReady, verifyLeader, awaitApplied]
    simp only [KVService.step, ClusterKVServer.handle, ClusterKVServer.range, ready, streamed]
    rfl

/-- What a page asks for: everything from the last key on. -/
private theorem candidates_resumed {scan : RangeScan} (ascending : scan.descending = false)
    {done rest : KVRun}
    (increasing : Increasing (done ++ rest)) (start : scan.start = (done.getLast?.map Slot.key).getD []) :
    scan.candidates (done ++ rest) = done.getLast?.toList ++ rest := by
  rw [RangeScan.candidates, ascending, if_neg (by simp), start]
  rcases done.eq_nil_or_concat with rfl | ⟨before, last, rfl⟩
  · simp
  · simp only [List.concat_eq_append, List.append_assoc, List.singleton_append] at increasing ⊢
    obtain ⟨-, above, below⟩ := List.pairwise_append.mp increasing
    have skipped : before.filter (fun slot => decide (last.key ≤ slot.key)) = [] := by
      refine List.filter_eq_nil_iff.mpr fun slot member => ?_
      simpa using below slot member last (by simp)
    have kept : rest.filter (fun slot => decide (last.key ≤ slot.key)) = rest := by
      refine List.filter_eq_self.mpr fun slot member => ?_
      simpa using ((List.pairwise_cons.mp above).1 slot member).le
    simp [skipped, kept]

/-- What a page adds. A page of one row has no room for a new key behind the one it resumes from. -/
private theorem page_adds {interrupt : ℕ → Option StreamError} {scan : RangeScan} (unbounded : scan.stop = [])
    (ascending : scan.descending = false) {done rest : KVRun} (increasing : Increasing (done ++ rest))
    (start : scan.start = (done.getLast?.map Slot.key).getD [])
    (plain : ∀ slot ∈ done ++ rest, isReservedKey slot.key = false)
    (sendable : ∀ slot ∈ done ++ rest, (scan.response slot).size ≤ defaultMaxSendMsgSize) :
    let rows := scan.rows interrupt 0 (scan.candidates (done ++ rest))
    ∃ count ≤ rest.length,
      rows.1.filter (fun row => decide (some row.key ≠ done.getLast?.map Slot.key)) =
        (rest.take count).map scan.response ∧
      (rest ≠ [] → done = [] ∨ scan.limit ≠ 1 → 0 < count) ∧
      (scan.limit = 1 → count ≤ 1 - done.length) ∧
      (rows.2 = .ok () ∨ 0 < count ∧ ∃ round err, interrupt round = some err ∧ rows.2 = .error err) := by
  have again : done.getLast?.toList ++ rest ⊆ done ++ rest := by
    intro slot member
    rcases List.mem_append.mp member with last | later
    · exact List.mem_append_left _ (List.mem_of_getLast? (by simpa using last))
    · exact List.mem_append_right _ later
  rw [candidates_resumed ascending increasing start]
  obtain ⟨count, bound, sent, short, single, result⟩ := @RangeScan.rows_open scan unbounded interrupt _
    (fun slot member => plain slot (again member)) (fun slot member => sendable slot (again member)) 0
  rw [Nat.zero_add] at short result
  dsimp only
  rw [sent]
  have left (some : rest ≠ []) := List.length_pos_iff.mpr some
  rcases done.eq_nil_or_concat with rfl | ⟨before, last, rfl⟩
  · simp only [List.getLast?_nil, Option.toList_none, List.nil_append] at bound short ⊢
    refine ⟨count, bound, by simp, fun some _ => ?_, fun one => single one rfl, ?_⟩
    · have := left some
      by_contra none
      have := (short (by omega)).1
      omega
    · exact result.imp_right fun failed => ⟨by omega, failed.2⟩
  · -- the last key comes again, and is skipped
    have newest : (before.concat last).getLast? = some last := by simp
    rw [newest] at bound short ⊢
    simp only [Option.toList_some, List.singleton_append, List.length_cons, List.length_concat] at bound short ⊢
    obtain ⟨less, rfl⟩ : ∃ less, count = less + 1 := by
      refine ⟨count - 1, ?_⟩
      by_contra none
      have := (short (by omega)).1
      omega
    have above : ∀ slot ∈ rest, last.key < slot.key := by
      rw [List.concat_eq_append, List.append_assoc, List.singleton_append] at increasing
      exact (List.pairwise_cons.mp (List.pairwise_append.mp increasing).2.1).1
    refine ⟨less, by omega, ?_, fun some first => ?_, fun one => ?_, ?_⟩
    · rw [List.take_succ_cons, List.map_cons, List.filter_cons_of_neg (by simp [RangeScan.response]),
        List.filter_eq_self]
      intro row member
      obtain ⟨slot, among, rfl⟩ := List.mem_map.mp member
      simpa [RangeScan.response] using (above slot (List.mem_of_mem_take among)).ne'
    · have wide : scan.limit ≠ 1 := first.resolve_left (by simp)
      have := left some
      by_contra none
      have := (short (by omega)).2.resolve_left wide
      omega
    · have := single one rfl
      omega
    · rw [newest] at result
      exact result.imp_right fun failed => ⟨by omega, failed.2⟩

/-- A page that adds something is followed by another one. -/
private theorem pageEnd_steady {added : List RangeResponse} {result : Except StreamError Unit}
    (served : result = .ok () ∨ added ≠ [] ∧ ∃ err, isPartialScan err = true ∧ result = .error err) :
    pageEnd false added result = if added = [] then some (.ok ()) else none := by
  rcases served with rfl | ⟨some, err, stopped, rfl⟩
  · rfl
  · simp [pageEnd, some, stopped]

section Pages

variable (lists : Lists pairs contents) (named : ∀ slot ∈ pairs, slot.key ≠ [])
  (small : ∀ slot ∈ RangeScan.unreserved pairs, Deliverable slot) {done rest : KVRun}

include lists named small

/-- One round of the loop: the dump ends, or goes on behind the pairs that the page has added. -/
private theorem dumpPages_page (split : RangeScan.unreserved pairs = done ++ rest)
    (serves : server.Serves options contents) {page : DumpPage} (steady : page.Steady) :
    ∃ count ≤ rest.length, (rest ≠ [] → done = [] ∨ cap ≠ 1 → 0 < count) ∧ (cap = 1 → count ≤ 1 - done.length) ∧
      ∃ next : KVService, next.Serves options contents ∧
        ∀ pages, dumpPages options unmarshal cap consistency (page :: pages) (done.getLast?.map Slot.key) server =
          if count = 0 then some (.ok [])
          else (dumpPages options unmarshal cap consistency pages ((done ++ rest.take count).getLast?.map Slot.key)
            next).map fun later => later.map (recordsOf (rest.take count) ++ ·) := by
  set req : RangeRequest := ⟨(done.getLast?.map Slot.key).getD [], [], false, false, 0⟩ with asks
  set scan := newRangeScan req cap with scans
  have fitting : ∀ slot ∈ done ++ rest, Deliverable slot := split ▸ small
  obtain ⟨next, taken, served⟩ := @KVService.step_range options unmarshal cap consistency server contents serves
    page.env steady.verifyLeader steady.awaitApplied req
  rw [listing_eq lists, ← RangeScan.rows_candidates_unreserved lists.increasing, split, ← scans] at taken
  obtain ⟨count, bound, adds, progress, single, result⟩ := @page_adds page.env.interrupt scan rfl rfl done rest
    (split ▸ lists.increasing.filter _) rfl
    (fun slot member => RangeScan.plain_of_mem_unreserved (split ▸ member))
    fun slot member => (fitting slot member).trans (by decide)
  have limit : scan.limit = cap := by simp [scans, asks, newRangeScan]
  rw [limit] at progress single
  refine ⟨count, bound, progress, single, next, served, fun pages => ?_⟩
  have received : ∀ row ∈ (scan.rows page.env.interrupt 0 (scan.candidates (done ++ rest))).1,
      row.size ≤ clientMaxRecvMsgSize := by
    intro row member
    obtain ⟨slot, among, rfl⟩ := RangeScan.mem_of_mem_rows member
    exact fitting slot (List.mem_of_mem_filter among)
  have empty : (rest.take count).map scan.response = [] ↔ count = 0 := by
    rw [List.map_eq_nil_iff, List.take_eq_nil_iff]
    refine or_iff_left_of_imp ?_
    rintro rfl
    exact Nat.le_zero.mp bound
  rw [dumpPages, taken]
  dsimp only
  rw [received_small _ received, adds, steady.waits, pageEnd_steady (result.imp_right fun failed => ?_)]
  rotate_left
  · obtain ⟨some, _, err, stopped, failed⟩ := failed
    exact ⟨fun none => some.ne' (empty.mp none), err, steady.interrupt _ _ stopped, failed⟩
  by_cases none : count = 0
  · rw [if_pos (empty.mpr none), if_pos none]
  · rw [if_neg (mt empty.mp none), if_neg none]
    obtain ⟨last, newest⟩ : ∃ last, (rest.take count).getLast? = some last :=
      ⟨_, List.getLast?_eq_some_getLast fun nil => none (empty.mp (by rw [nil]; rfl))⟩
    have member : last ∈ RangeScan.unreserved pairs :=
      split ▸ List.mem_append_right _ (List.mem_of_mem_take (List.mem_of_getLast? newest))
    have resumes : (some last.key).filter (fun key => decide (key ≠ [])) = some last.key := by
      simp [Option.filter, named last (List.mem_of_mem_filter member)]
    rw [List.getLast?_map, List.getLast?_append, newest, List.map_map]
    dsimp only [Option.map_some, Option.some_or, RangeScan.response]
    rw [resumes]
    rfl

/-- With one page more than there are pairs left, the dump ends and has all of them. -/
theorem dumpPages_rest (wide : cap ≠ 1) (split : RangeScan.unreserved pairs = done ++ rest)
    (serves : server.Serves options contents) {pages : List DumpPage} (steady : ∀ page ∈ pages, page.Steady)
    (enough : rest.length < pages.length) :
    dumpPages options unmarshal cap consistency pages (done.getLast?.map Slot.key) server =
      some (.ok (recordsOf rest)) := by
  induction pages generalizing done rest server with
  | nil => simp at enough
  | cons page pages ih =>
    rw [List.forall_mem_cons] at steady
    obtain ⟨count, bound, progress, -, next, served, goesOn⟩ := dumpPages_page lists named small split serves steady.1
    rw [goesOn]
    split
    · next none =>
      obtain rfl : rest = [] := by
        by_contra some
        exact (progress some (.inr wide)).ne' none
      rfl
    · have parts : done ++ rest.take count ++ rest.drop count = done ++ rest := by simp
      have fewer : (rest.drop count).length < pages.length := by
        rw [List.length_drop]
        simp only [List.length_cons] at enough
        omega
      rw [ih (split.trans parts.symm) served steady.2 fewer]
      simp [Except.map, recordsOf]

/-- With pages of one row the second page brings the first key again, and the dump ends there. -/
theorem dumpRemote_single (serves : server.Serves options contents) {pages : List DumpPage}
    (steady : ∀ page ∈ pages, page.Steady) (enough : (RangeScan.unreserved pairs).length < pages.length) :
    dumpRemote options unmarshal 1 consistency server pages =
      some (.ok (recordsOf ((RangeScan.unreserved pairs).take 1))) := by
  cases pages with
  | nil => simp at enough
  | cons page pages =>
    rw [List.forall_mem_cons] at steady
    have whole : RangeScan.unreserved pairs = [] ++ RangeScan.unreserved pairs := rfl
    obtain ⟨count, bound, progress, single, next, served, goesOn⟩ :=
      dumpPages_page lists named small whole serves steady.1
    refine (goesOn pages).trans ?_
    split
    · next none =>
      have empty : RangeScan.unreserved pairs = [] := by
        by_contra some
        exact (progress some (.inl rfl)).ne' none
      simp [empty, recordsOf]
    · obtain rfl : count = 1 := by
        have := single rfl
        simp only [List.length_nil] at this
        omega
      obtain ⟨again, later, rfl⟩ : ∃ again later, pages = again :: later :=
        List.exists_cons_of_length_pos (by simp only [List.length_cons] at enough; omega)
      obtain ⟨count, _, _, single, _, _, ends⟩ := dumpPages_page lists named small
        (List.take_append_drop 1 _).symm served (steady.2 again (by simp))
      have none : count = 0 := by
        have := single rfl
        rw [List.length_take_of_le bound] at this
        omega
      rw [List.nil_append, ends, if_pos none]
      simp [Except.map]

end Pages

/-- All pairs outside the reserved keyspace, once and in order. -/
structure CompleteDump (contents : KVMap) (records : List (Bytes × Bytes)) : Prop where
  ascending : records.Pairwise fun first second => first.1 < second.1
  mem_iff : ∀ key val, (key, val) ∈ records ↔ contents key = some val ∧ isReservedKey key = false

theorem completeDump_iff (lists : Lists pairs contents) (records : List (Bytes × Bytes)) :
    CompleteDump contents records ↔ records = recordsOf (RangeScan.unreserved pairs) := by
  have own := RangeScan.lists_unreserved lists
  constructor
  · intro complete
    have listed : Lists (records.map fun record => ⟨record.1, some record.2⟩)
        fun key => if isReservedKey key then none else contents key := by
      refine ⟨List.pairwise_map.mpr complete.ascending, ?_, fun key val => ?_⟩
      · intro slot member
        obtain ⟨record, _, rfl⟩ := List.mem_map.mp member
        rfl
      · have same : (⟨key, some val⟩ : KVSlot) ∈ records.map (fun record => ⟨record.1, some record.2⟩) ↔
            (key, val) ∈ records := by simp
        rw [same, complete.mem_iff]
        cases isReservedKey key <;> simp
    rw [← listed.unique own, recordsOf, List.map_map]
    simp [Function.comp_def]
  · rintro rfl
    refine ⟨List.pairwise_map.mpr own.increasing, fun key val => ?_⟩
    have shown : contents key = some val ∧ isReservedKey key = false ↔
        (⟨key, some val⟩ : KVSlot) ∈ RangeScan.unreserved pairs := by
      rw [own.mem_iff]
      cases isReservedKey key <;> simp
    rw [shown, recordsOf, List.mem_map]
    constructor
    · rintro ⟨⟨other, stored⟩, member, same⟩
      obtain ⟨found, rfl⟩ := Option.isSome_iff_exists.mp (own.live _ member)
      cases same
      exact member
    · exact fun member => ⟨_, member, rfl⟩

/-- Every record of a dump that succeeds has been received. -/
theorem dumpPages_deliverable {pages : List DumpPage} {resumeFrom : Option Bytes} {records : List (Bytes × Bytes)}
    (dumped : dumpPages options unmarshal cap consistency pages resumeFrom server = some (.ok records)) :
    ∀ record ∈ records, (⟨record.1, record.2⟩ : RangeResponse).size ≤ clientMaxRecvMsgSize := by
  induction pages generalizing resumeFrom server records with
  | nil => simp [dumpPages] at dumped
  | cons page pages ih =>
    rw [dumpPages] at dumped
    split at dumped
    · next next sent ended _ =>
      dsimp only at dumped
      split at dumped
      · simp at dumped
      · simp only [Option.some.injEq, Except.ok.injEq] at dumped
        simp [← dumped]
      · obtain ⟨later, rest, joined⟩ := Option.map_eq_some_iff.mp dumped
        cases later with
        | error err => simp [Except.map] at joined
        | ok later =>
          obtain rfl := Except.ok.inj joined
          intro record member
          rcases List.mem_append.mp member with here | there
          · obtain ⟨row, among, rfl⟩ := List.mem_map.mp here
            exact size_of_mem_received (List.mem_of_mem_filter among)
          · exact ih rest record there
    all_goals simp at dumped

private theorem dumpRemote_small (limited : 1 ≤ cap) (lists : Lists pairs contents)
    (named : ∀ slot ∈ pairs, slot.key ≠ []) (small : ∀ slot ∈ RangeScan.unreserved pairs, Deliverable slot)
    (serves : server.Serves options contents) {pages : List DumpPage} (steady : ∀ page ∈ pages, page.Steady)
    (enough : (RangeScan.unreserved pairs).length < pages.length) :
    dumpRemote options unmarshal cap consistency server pages =
        some (.ok (recordsOf (RangeScan.unreserved pairs))) ↔
      2 ≤ cap ∨ (RangeScan.unreserved pairs).length ≤ 1 := by
  rcases Nat.lt_or_ge 1 cap with wide | narrow
  · refine iff_of_true ?_ (.inl wide)
    have whole : RangeScan.unreserved pairs = [] ++ RangeScan.unreserved pairs := rfl
    exact dumpPages_rest lists named small wide.ne' whole serves steady enough
  · obtain rfl : cap = 1 := Nat.le_antisymm narrow limited
    rw [dumpRemote_single lists named small serves steady enough, Option.some.injEq, Except.ok.injEq]
    refine ⟨fun same => .inr ?_, fun few => ?_⟩
    · have lengths := congrArg List.length same
      simp only [recordsOf, List.length_map, List.length_take] at lengths
      omega
    · rw [List.take_of_length_le (few.resolve_left (by omega))]

/-- A remote dump from a server with a row limit ends and has everything if and only if every row can be received, and
the limit leaves room for a new key behind the one it resumes from, or there is no second key. -/
theorem dumpRemote_complete_iff (limited : 1 ≤ cap) (serves : server.Serves options contents)
    (named : ∀ key val, contents key = some val → key ≠ []) {pages : List DumpPage}
    (steady : ∀ page ∈ pages, page.Steady) (enough : (listing contents).length < pages.length) :
    (∃ records, dumpRemote options unmarshal cap consistency server pages = some (.ok records) ∧
        CompleteDump contents records) ↔
      (2 ≤ cap ∨ (RangeScan.unreserved (listing contents)).length ≤ 1) ∧
        ∀ slot ∈ RangeScan.unreserved (listing contents), Deliverable slot := by
  obtain ⟨pairs, lists⟩ := serves.listed
  rw [listing_eq lists] at enough ⊢
  have keys : ∀ slot ∈ pairs, slot.key ≠ [] := by
    rintro ⟨key, val⟩ member
    obtain ⟨val, rfl⟩ := Option.isSome_iff_exists.mp (lists.live _ member)
    exact named key val ((lists.mem_iff key val).mp member)
  have pagesLeft : (RangeScan.unreserved pairs).length < pages.length := (List.length_filter_le ..).trans_lt enough
  simp only [completeDump_iff lists, exists_eq_right]
  by_cases small : ∀ slot ∈ RangeScan.unreserved pairs, Deliverable slot
  · rw [and_iff_left small]
    exact dumpRemote_small limited lists keys small serves steady pagesLeft
  · refine iff_of_false (fun dumped => small fun slot member => ?_) fun both => small both.2
    exact dumpPages_deliverable dumped _ (List.mem_map_of_mem member)

end Dump

/-! ## Restoring into a directory -/

variable {state : LocalRestore} {records : List (Bytes × Bytes)}

section LocalRestore

variable {options : KVOptions} {view : KVMap}

/-- The open transaction shows the view and has room for all it has staged, and every key there is shows. -/
structure LocalRestore.Shows (options : KVOptions) (state : LocalRestore) (view : KVMap) : Prop where
  drafting : ∃ initial journal updates, KV.Drafting options initial state.kv journal state.tx updates ∧
    overlay state.kv.tables.contents updates = view ∧ oversize updates = false ∧
    ∀ slot, slot ∈ state.kv.tables.slots ∨ slot ∈ updates → (view slot.key).isSome = true

theorem LocalRestore.Shows.background (shows : state.Shows options view) (events : List KVEvent) :
    LocalRestore.Shows options { state with kv := state.kv.background options events } view := by
  obtain ⟨initial, journal, updates, drafting, shown, room, within⟩ := shows
  obtain ⟨later, after, same⟩ := drafting.background events
  refine ⟨initial, later, updates, after, by rw [same, shown], room, fun slot held => within slot ?_⟩
  exact held.imp_left fun inTables => drafting.holds.slots_background events inTables

/-- The end of a batch. -/
theorem LocalRestore.Shows.commit (shows : state.Shows options view) :
    ∃ kv, (state.kv.awaitCommit options).commitTX state.tx = (kv, .ok ()) ∧ kv.Holds options view ∧
      (∀ slot ∈ kv.tables.slots, (view slot.key).isSome = true) ∧
      ∀ pending count, LocalRestore.Shows options ⟨kv.newTX, kv.txs.length, pending, count⟩ view := by
  obtain ⟨initial, journal, updates, drafting, shown, room, within⟩ := shows
  obtain ⟨_, writing, same⟩ := drafting.awaitCommit
  obtain ⟨kv, later, committed, contents, ready⟩ := writing.commit
  have inside (slot : KVSlot) (member : slot ∈ kv.tables.slots) : (view slot.key).isSome = true := by
    refine within slot ((writing.commit_slots (by rwa [committed])).imp_left fun old => ?_)
    exact drafting.holds.slots_awaitCommit old
  rw [room, if_neg (by simp), same, shown] at contents
  rw [room] at committed
  refine ⟨kv, committed, ⟨⟨_, _, ready.toSound⟩, ready.free, contents⟩, inside, fun pending count => ?_⟩
  obtain ⟨_, begun, kept⟩ := ready.newTX
  have tables : kv.newTX.tables = kv.tables := by rw [KV.newTX, if_neg (by simp [ready.snapshots.opened])]
  refine ⟨initial, _, [], begun.toDrafting, by rw [kept, contents, overlay_nil], rfl, fun slot held => ?_⟩
  exact inside slot (by simpa [tables] using held)

/-- A pair that has room is staged. -/
theorem LocalRestore.Shows.write (shows : state.Shows options view) {record : Bytes × Bytes}
    (fits : record.1.length + record.2.length ≤ maxEntrySize) :
    ∃ kv updated, state.kv.writeTX state.tx (.set record.1 record.2 .upsert) = .ok (kv, updated) ∧
      ∀ pending count, LocalRestore.Shows options ⟨kv, state.tx, pending, count⟩
        (Function.update view record.1 (some record.2)) := by
  obtain ⟨initial, journal, updates, drafting, shown, room, within⟩ := shows
  have valid : (TxWrite.set record.1 record.2 .upsert).valid = true := rfl
  obtain ⟨kv, later, wrote, ⟨tables, -⟩, after⟩ := drafting.write valid
  obtain ⟨tx, -, found, -, same, -⟩ := drafting.tx
  have increasing : Increasing updates := same ▸ (drafting.snapshots.sorted.txs _ _ found).updates
  refine ⟨kv, _, wrote, fun pending count => ⟨initial, later, _, after, ?_,
    TxWrite.oversize_stage increasing room fun _ => fits, fun slot held => ?_⟩⟩
  · rw [tables, TxWrite.overlay_stage increasing, shown, TxWrite.apply_upsert]
  · by_cases same : slot.key = record.1
    · simp [same]
    · rw [Function.update_of_ne same]
      refine within slot (held.imp (fun old => tables ▸ old) fun staged => ?_)
      have found := (TxWrite.stage_increasing increasing _).lookup_of_mem staged
      exact mem_of_lookup ((TxWrite.size_of_stage increasing _ found).resolve_right fun new => same new.1)

theorem restoreRecord_shows (background : ℕ → List KVEvent) (shows : state.Shows options view) {record : Bytes × Bytes}
    (fits : record.1.length + record.2.length ≤ maxEntrySize) :
    ∃ next, restoreRecord options background state record = (next, .ok ()) ∧ next.count = state.count + 1 ∧
      next.Shows options (Function.update view record.1 (some record.2)) := by
  obtain ⟨kv, updated, wrote, shown⟩ := (shows.background (background state.count)).write fits
  simp only [restoreRecord, wrote]
  split
  · exact ⟨_, rfl, rfl, shown _ _⟩
  · obtain ⟨next, committed, -, -, begun⟩ := (shown 0 0).commit
    simp only [committed]
    exact ⟨_, rfl, rfl, begun _ _⟩

/-- Some records put one after the other. -/
def putRecords (view : KVMap) (records : List (Bytes × Bytes)) : KVMap :=
  records.foldl (fun view record => Function.update view record.1 (some record.2)) view

theorem putRecords_lists {pairs : KVRun} (lists : Lists pairs view) :
    putRecords (fun _ => none) (recordsOf pairs) = view := by
  rw [← putAll_lists lists, putRecords, recordsOf, List.foldl_map, putAll]

/-- Records that have room in a log record. -/
def RecordsFit (records : List (Bytes × Bytes)) : Prop :=
  ∀ record ∈ records, record.1.length + record.2.length ≤ maxEntrySize

theorem RecordsFit.bounded (fits : RecordsFit records) : ∀ record ∈ records, DumpBounded record := by
  intro record member
  have small := fits record member
  rw [maxEntrySize] at small
  constructor <;> rw [maxDumpEntryBytes] <;> omega

theorem recordsFit_of_lists {pairs : KVRun} (lists : Lists pairs view) (fits : Fits view) :
    RecordsFit (recordsOf pairs) := by
  intro record member
  obtain ⟨⟨key, val⟩, among, rfl⟩ := List.mem_map.mp member
  obtain ⟨val, rfl⟩ := Option.isSome_iff_exists.mp (lists.live _ among)
  exact fits key val ((lists.mem_iff key val).mp among)

theorem visitRecords_restoreRecord (background : ℕ → List KVEvent) (fits : RecordsFit records)
    (shows : state.Shows options view) :
    ∃ next, visitRecords (restoreRecord options background) state records = (next, .ok ()) ∧
      next.count = state.count + records.length ∧ next.Shows options (putRecords view records) := by
  induction records generalizing state view with
  | nil => exact ⟨state, rfl, rfl, shows⟩
  | cons record rest ih =>
    obtain ⟨small, fits⟩ := List.forall_mem_cons.mp fits
    obtain ⟨next, staged, counted, shown⟩ := restoreRecord_shows background shows small
    obtain ⟨final, visited, total, shown⟩ := ih fits shown
    refine ⟨final, ?_, ?_, shown⟩
    · rw [visitRecords, staged]
      exact visited
    · rw [total, counted, List.length_cons, Nat.add_right_comm, Nat.add_assoc]

/-- A directory that did not exist has the records of the stream after the restore. -/
theorem restoreLocal_records (background : ℕ → List KVEvent) {pairs : KVRun} (lists : Lists pairs view)
    (fits : RecordsFit (recordsOf pairs)) :
    ∃ files, restoreLocal options background none (dumpBody (recordsOf pairs)) =
        (some files, .ok (recordsOf pairs).length) ∧
      files.store.Holds options view ∧ ∀ file ∈ files.sstables, file.slots.length ≤ pairs.length := by
  have ready : KV.Ready options _ FSM.fresh.store [] := FSM.ready_fresh options
  obtain ⟨_, begun, same⟩ := ready.newTX
  have empty : FSM.fresh.store.newTX.tables.contents = fun _ => none := same.trans FSM.contents_fresh
  have tables : FSM.fresh.store.newTX.tables.slots = [] := by decide +kernel
  have start : LocalRestore.Shows options ⟨FSM.fresh.store.newTX, FSM.fresh.store.txs.length, 0, 0⟩ fun _ => none :=
    ⟨_, _, [], begun.toDrafting, empty, rfl, by simp [tables]⟩
  obtain ⟨final, visited, counted, shown⟩ := visitRecords_restoreRecord background fits start
  rw [putRecords_lists lists] at shown
  obtain ⟨kv, committed, holds, within, -⟩ := (shown.background (background final.count)).commit
  refine ⟨(kv.close options).files, ?_, holds.files_close, fun file member => ?_⟩
  · rw [Nat.zero_add] at counted
    rw [counted] at committed
    simp only [restoreLocal, newKV_none, readDump_dumpBody _ fits.bounded, visited, Prod.map, Except.mapError, id,
      committed, counted]
  · obtain ⟨increasing, inside⟩ := holds.sstables_close member
    rw [← pairs.length_map Slot.key]
    exact increasing.length_le fun slot there => lists.mem_keys (within slot (inside there))

end LocalRestore

/-! ## Restoring into a server -/

section RemoteRestore

variable {options : KVOptions} {unmarshal : Bytes → Option Command} {cap : ℕ} {contents : KVMap}

/-- A key that a server of the kind takes. -/
def Accepted (clustered : Bool) (key : Bytes) : Prop :=
  validateKey key = none ∧ (clustered = true → key.length ≤ maxKeyLen)

private theorem encodeCommand_put {key val : Bytes} (fits : key.length + val.length ≤ maxEntrySize) :
    (∃ data, encodeCommand ⟨.put, key, val, UpdateMode.upsert.wire, []⟩ = .ok data) ↔ key.length ≤ maxKeyLen := by
  simp only [encodeCommand_iff]
  constructor
  · rintro ⟨_, encodable, -⟩
    exact (encodable.valid ⟨.put, key, val, UpdateMode.upsert.wire⟩ (by simp [Command.mutations])).key
  · intro short
    have small : val.length ≤ maxValueLen := by
      rw [maxEntrySize] at fits
      rw [maxValueLen]
      omega
    refine ⟨_, ⟨rfl, by simp, ?_⟩, rfl⟩
    simp only [Command.mutations, List.mem_singleton, forall_eq]
    exact ⟨.inl rfl, short, small, by simp, (by decide : 0 ≤ UpdateMode.upsert.wire)⟩

/-- An upsert of a pair that has room is applied, or refused because a leader cannot encode its key. -/
private theorem changed_upsert (clustered : Bool) (contents : KVMap) {key val : Bytes}
    (fits : key.length + val.length ≤ maxEntrySize) :
    (∃ updated, changed clustered contents (.set key val .upsert) ⟨.put, key, val, UpdateMode.upsert.wire, []⟩ .putKey =
        some (Function.update contents key (some val), .ok updated)) ∧ (clustered = true → key.length ≤ maxKeyLen) ∨
      (∃ err, changed clustered contents (.set key val .upsert) ⟨.put, key, val, UpdateMode.upsert.wire, []⟩ .putKey =
        some (contents, .error err)) ∧ ¬ (clustered = true → key.length ≤ maxKeyLen) := by
  have room : oversize ((TxWrite.set key val .upsert).stage contents []).1 = false :=
    TxWrite.oversize_stage increasing_nil rfl fun _ => fits
  have encodes := encodeCommand_put fits
  simp only [changed, room, overlay_upsert contents key val]
  cases clustered with
  | false => exact .inl ⟨⟨_, rfl⟩, by simp⟩
  | true =>
    cases encoded : encodeCommand ⟨.put, key, val, UpdateMode.upsert.wire, []⟩ with
    | ok data => exact .inl ⟨⟨_, rfl⟩, fun _ => encodes.mp ⟨data, encoded⟩⟩
    | error err =>
      refine .inr ⟨⟨_, rfl⟩, fun short => ?_⟩
      obtain ⟨data, accepted⟩ := encodes.mpr (short rfl)
      rw [encoded] at accepted
      contradiction

/-- Records whose requests a server receives. -/
def Receivable (records : List (Bytes × Bytes)) : Prop :=
  ∀ record ∈ records, putRequestSize record.1 record.2 ≤ defaultMaxRecvMsgSize

private theorem fits_of_receivable {record : Bytes × Bytes}
    (small : putRequestSize record.1 record.2 ≤ defaultMaxRecvMsgSize) :
    record.1.length + record.2.length ≤ maxEntrySize := by
  have key := length_le_fieldSize record.1
  have val := length_le_fieldSize record.2
  rw [putRequestSize, defaultMaxRecvMsgSize] at small
  rw [maxEntrySize]
  omega

/-- One record through a server. -/
theorem putRecord_spec {env : ℕ → ServeEnv} {server : KVService} {count : ℕ} (quiet : (env count).Quiet)
    (serves : server.Serves options contents) {record : Bytes × Bytes}
    (small : putRequestSize record.1 record.2 ≤ defaultMaxRecvMsgSize) :
    (∃ next, putRecord options unmarshal cap env ⟨some server, count⟩ record = (⟨some next, count + 1⟩, .ok ()) ∧
        next.clustered = server.clustered ∧ next.Serves options (Function.update contents record.1 (some record.2))) ∧
        Accepted server.clustered record.1 ∨
      (∃ next err, putRecord options unmarshal cap env ⟨some server, count⟩ record = (next, .error err)) ∧
        ¬ Accepted server.clustered record.1 := by
  have answers := @KVService.step_answers options unmarshal cap contents server serves
    (env count, .put record.1 record.2 .upsert) quiet
  simp only [putRecord, if_neg (Nat.not_lt.mpr small)]
  generalize server.step options unmarshal cap (env count, .put record.1 record.2 .upsert) = outcome at answers
  simp only [Request.answer, PutMode.updateMode] at answers
  cases valid : validateKey record.1 with
  | some err =>
    rw [valid] at answers
    cases answers
    exact .inr ⟨⟨_, _, rfl⟩, fun accepted => by simp [accepted.1] at valid⟩
  | none =>
    rw [valid] at answers
    dsimp only at answers
    rcases changed_upsert server.clustered contents (fits_of_receivable small) with ⟨⟨updated, applied⟩, short⟩ |
      ⟨⟨err, refused⟩, long⟩
    · rw [applied] at answers
      cases answers with
      | answered next _ _ kind served => exact .inl ⟨⟨next, rfl, kind, served⟩, valid, short⟩
    · rw [refused] at answers
      cases answers
      exact .inr ⟨⟨_, _, rfl⟩, fun accepted => long accepted.2⟩

/-- A server takes all records, or stops at the first key it does not accept. -/
theorem visitRecords_putRecord {env : ℕ → ServeEnv} (quiet : ∀ count, (env count).Quiet) {server : KVService}
    (serves : server.Serves options contents) {records : List (Bytes × Bytes)} (small : Receivable records)
    (count : ℕ) : (∃ next, visitRecords (putRecord options unmarshal cap env) ⟨some server, count⟩ records =
          (⟨some next, count + records.length⟩, .ok ()) ∧ next.Serves options (putRecords contents records)) ∧
        (∀ record ∈ records, Accepted server.clustered record.1) ∨
      (∃ next err, visitRecords (putRecord options unmarshal cap env) ⟨some server, count⟩ records =
        (next, .error err)) ∧ ¬ ∀ record ∈ records, Accepted server.clustered record.1 := by
  induction records generalizing server contents count with
  | nil => exact .inl ⟨⟨server, rfl, serves⟩, by simp⟩
  | cons record rest ih =>
    obtain ⟨first, others⟩ := List.forall_mem_cons.mp small
    rw [visitRecords, List.forall_mem_cons]
    rcases @putRecord_spec options unmarshal cap contents env server count (quiet count) serves record first with
      ⟨⟨next, put, kind, served⟩, accepted⟩ | ⟨⟨next, err, put⟩, refused⟩
    · rw [put]
      rcases ih served others (count + 1) with ⟨⟨final, visited, last⟩, all⟩ | ⟨failed, some⟩
      · rw [kind] at all
        refine .inl ⟨⟨final, ?_, last⟩, accepted, all⟩
        dsimp only
        rw [visited, List.length_cons, Nat.add_right_comm, Nat.add_assoc]
      · rw [kind] at some
        exact .inr ⟨failed, fun both => some both.2⟩
    · rw [put]
      exact .inr ⟨⟨next, err, rfl⟩, fun both => refused both.1⟩

theorem restoreRemote_records {env : ℕ → ServeEnv} (quiet : ∀ count, (env count).Quiet) {server : KVService}
    (serves : server.Serves options fun _ => none) {records : List (Bytes × Bytes)} (small : Receivable records) :
    (∃ next, restoreRemote options unmarshal cap env (some server) (dumpBody records) =
          (some next, .ok records.length) ∧ next.Serves options (putRecords (fun _ => none) records)) ∧
        (∀ record ∈ records, Accepted server.clustered record.1) ∨
      (∃ next err, restoreRemote options unmarshal cap env (some server) (dumpBody records) = (next, .error err)) ∧
        ¬ ∀ record ∈ records, Accepted server.clustered record.1 := by
  have fits : RecordsFit records := fun record member => fits_of_receivable (small record member)
  simp only [restoreRemote, readDump_dumpBody _ fits.bounded]
  rcases @visitRecords_putRecord options unmarshal cap _ env quiet server serves records small 0 with
    ⟨⟨next, visited, served⟩, all⟩ | ⟨⟨next, err, visited⟩, some⟩
  · rw [visited, Nat.zero_add]
    exact .inl ⟨⟨next, rfl, served⟩, all⟩
  · rw [visited]
    exact .inr ⟨⟨_, _, rfl⟩, some⟩

end RemoteRestore

/-! ## What a store holds has room -/

namespace KV

variable {options : KVOptions} {initial : KVMap} {kv target : KV} {journal : KVJournal}

private theorem commits_observe {event : KVEvent} (other : event ≠ .applyCommit) : commits (kv.observe event) = [] := by
  cases event with
  | applyCommit => contradiction
  | newTX | setEx | del | beginCommit | endCommit =>
    rw [observe]
    split <;> rfl
  | _ => rfl

/-- `Commit` refuses what has no room in the log, so nothing without room ever gets into the tables. -/
theorem Sound.fits_step (sound : Sound options initial kv journal) (fits : Fits kv.tables.contents) {event : KVEvent}
    (steady : event.steady = true) (taken : kv.step options event = some target) : Fits target.tables.contents := by
  have after := (sound.step steady taken).snapshots.contents
  by_cases commit : event = .applyCommit
  · subst commit
    cases step_cases taken with
    | applyCommit id tx current =>
      have noted : kv.observe .applyCommit = [.committed id tx.updates] := by simp [observe, current]
      rw [noted, contents_committed, ← sound.snapshots.contents] at after
      rw [after]
      refine fits.overlay fun key val staged => (sound.recover.known ⟨key, some val⟩ ?_).1
      rw [unflushed, staged_of_logged current]
      exact List.mem_append_right _ (mem_of_lookup staged)
  · rw [after, contents_append (commits_observe commit), ← sound.snapshots.contents]
    exact fits

/-- The contents of every store that transactions have written since it was empty. -/
theorem fits_run {events : List KVEvent} (steady : ∀ event ∈ events, event.steady = true)
    (run : run? (step options) FSM.fresh.store events = some kv) : Fits kv.tables.contents := by
  refine (run?_invariant_of_meets
    (fun kv => (∃ initial journal, Sound options initial kv journal) ∧ Fits kv.tables.contents)
    (fun {source event target} inv steady taken => ?_) ⟨⟨_, _, (FSM.ready_fresh options).toSound⟩, ?_⟩
    (meets_of_forall steady _) run).2
  · obtain ⟨⟨initial, journal, sound⟩, fits⟩ := inv
    exact ⟨⟨initial, _, sound.step steady taken⟩, sound.fits_step fits steady taken⟩
  · have empty : FSM.fresh.store.tables.contents = fun _ => none := FSM.contents_fresh
    rw [empty]
    exact fun _ _ shown => by simp at shown

theorem fits_run_openAcrossCompaction : ∃ kv, run? (step .eager) FSM.fresh.store openAcrossCompaction = some kv ∧
    Fits kv.tables.contents :=
  (Option.isSome_iff_exists.mp (by decide +kernel)).imp fun _ run => ⟨run, fits_run (by decide) run⟩

end KV

/-! ## Both routes -/

/-- Every table of the original has its schema record and its keyspace. -/
def TablesKept (original restored : KVMap) : Prop :=
  ∀ table, (original (schemaKey table)).isSome = true → restored (schemaKey table) = original (schemaKey table) ∧
    ∀ key, table ++ [0x00] <+: key → restored key = original key

section Backup

variable (options : KVOptions) (unmarshal : Bytes → Option Command) (cap : ℕ) (consistency : Consistency)

/-- Both ways of taking a backup write the given records. -/
structure BackedUp (files : StoreFiles) (server : KVService) (records : List (Bytes × Bytes)) : Prop where
  fromDir : ∀ background, dumpLocal options background (some files) = .ok records
  fromServer : ∀ pages : List DumpPage, (∀ page ∈ pages, page.Steady) → records.length < pages.length →
    dumpRemote options unmarshal cap consistency server pages = some (.ok records)

/-- Both ways of restoring the given records into an empty store bring the tables back. -/
structure BroughtBack (clustered : Bool) (contents : KVMap) (records : List (Bytes × Bytes)) : Prop where
  intoDir : ∀ background, ∃ files restored,
    restore (restoreLocal options background) none (dumpStream records) = (some files, .ok records.length) ∧
      (∃ kv, newKV (some files) = .ok kv ∧ kv.Holds options restored) ∧ TablesKept contents restored
  intoServer : ∀ (fresh : KVService) (env : ℕ → ServeEnv), fresh.clustered = clustered →
    fresh.Serves options (fun _ => none) → (∀ count, (env count).Quiet) → ∃ server restored,
      restore (restoreRemote options unmarshal cap env) (some fresh) (dumpStream records) =
          (some server, .ok records.length) ∧
        server.Serves options restored ∧ TablesKept contents restored

end Backup

section Agreement

variable {options : KVOptions} {unmarshal : Bytes → Option Command} {cap : ℕ} {consistency : Consistency}
  {contents : KVMap} {pairs : KVRun}

theorem dumpLocal_eq {files : StoreFiles} {kv : KV} (opens : newKV (some files) = .ok kv)
    (holds : kv.Holds options contents) (lists : Lists pairs contents) (background : List KVEvent) :
    dumpLocal options background (some files) = .ok (recordsOf pairs) := by
  have after := holds.background background
  obtain ⟨initial, journal, sound⟩ := after.sound
  obtain ⟨iter, opened, drained⟩ := sound.snapshots.iterAll
  rw [after.shows] at drained
  simp only [dumpLocal, opens, opened, drained.unique lists]

/-- There is an empty server of either kind. -/
theorem KVService.exists_fresh (options : KVOptions) (clustered : Bool) :
    ∃ fresh : KVService, fresh.clustered = clustered ∧ fresh.Serves options fun _ => none := by
  have empty : Store.Serves options ⟨FSM.fresh.store, fun _ => none⟩ fun _ => none :=
    ⟨KV.holds_fresh, fun _ _ cached => by simp at cached⟩
  cases clustered with
  | false => exact ⟨.single ⟨FSM.fresh.store, fun _ => none⟩, rfl, empty⟩
  | true => exact ⟨.cluster ⟨⟨FSM.fresh.store, false, 0⟩, fun _ => none⟩, rfl, rfl, empty⟩

theorem quietEnv_quiet : KVService.quietEnv.Quiet := ⟨rfl, rfl, rfl, rfl, rfl, rfl, rfl⟩

theorem quietPages_steady (count : ℕ) :
    ∀ page ∈ List.replicate count (⟨KVService.quietEnv, false⟩ : DumpPage), page.Steady := by
  intro page member
  obtain rfl := List.eq_of_mem_replicate member
  exact ⟨rfl, rfl, rfl, by simp [KVService.quietEnv]⟩

/-- A record that a server takes and a client receives. -/
def Transferable (clustered : Bool) (record : Bytes × Bytes) : Prop :=
  Accepted clustered record.1 ∧ (⟨record.1, record.2⟩ : RangeResponse).size ≤ clientMaxRecvMsgSize

private theorem receivable_of_deliverable {records : List (Bytes × Bytes)}
    (small : ∀ record ∈ records, (⟨record.1, record.2⟩ : RangeResponse).size ≤ clientMaxRecvMsgSize) :
    Receivable records := by
  intro record member
  have fits := small record member
  simp only [RangeResponse.size, clientMaxRecvMsgSize] at fits
  rw [putRequestSize, defaultMaxRecvMsgSize]
  omega

/-- A store of a number of pairs that fits in one table, read from its directory and through a server, gives one
backup, which either route can restore with all tables, if and only if a server takes every key of the store and a
client receives every pair. -/
theorem backup_agrees_iff {files : StoreFiles} {kv : KV} {server : KVService} (opens : newKV (some files) = .ok kv)
    (holds : kv.Holds options contents) (serves : server.Serves options contents) (fits : Fits contents)
    (few : (listing contents).length ≤ maxNKeys) (wide : cap ≠ 1) :
    (∃ records, BackedUp options unmarshal cap consistency files server records ∧
        BroughtBack options unmarshal cap server.clustered contents records) ↔
      ∀ key val, contents key = some val → Transferable server.clustered (key, val) := by
  obtain ⟨pairs, lists⟩ := serves.listed
  rw [listing_eq lists] at few
  have room := recordsFit_of_lists lists fits
  have transferable : (∀ record ∈ recordsOf pairs, Transferable server.clustered record) ↔
      ∀ key val, contents key = some val → Transferable server.clustered (key, val) := by
    rw [recordsOf, List.forall_mem_map]
    constructor
    · exact fun all key val shown => all ⟨key, some val⟩ ((lists.mem_iff key val).mpr shown)
    · rintro all ⟨key, val⟩ member
      obtain ⟨val, rfl⟩ := Option.isSome_iff_exists.mp (lists.live _ member)
      exact all key val ((lists.mem_iff key val).mp member)
  rw [← transferable]
  constructor
  · rintro ⟨records, taken, back⟩
    obtain rfl : recordsOf pairs = records :=
      Except.ok.inj ((dumpLocal_eq opens holds lists []).symm.trans (taken.fromDir []))
    have small := dumpPages_deliverable (taken.fromServer (List.replicate ((recordsOf pairs).length + 1) _)
      (quietPages_steady _) (by simp))
    obtain ⟨fresh, kind, empty⟩ := KVService.exists_fresh options server.clustered
    obtain ⟨_, _, done, -⟩ := back.intoServer fresh (fun _ => KVService.quietEnv) kind empty fun _ => quietEnv_quiet
    rw [restore, newDumpReader_dumpStream] at done
    rcases @restoreRemote_records options unmarshal cap _ (fun _ => quietEnv_quiet) fresh empty _
      (receivable_of_deliverable small) with ⟨-, all⟩ | ⟨⟨_, _, failed⟩, -⟩
    · exact fun record member => ⟨kind ▸ all record member, small record member⟩
    · exact nomatch (Prod.mk.inj (failed.symm.trans done)).2
  · intro all
    have kept : TablesKept contents contents := fun _ _ => ⟨rfl, fun _ _ => rfl⟩
    have small := receivable_of_deliverable fun record member => (all record member).2
    refine ⟨recordsOf pairs, ⟨dumpLocal_eq opens holds lists, fun pages steady enough => ?_⟩, fun background => ?_,
      fun fresh env kind empty quiet => ?_⟩
    · have valid : ∀ slot ∈ pairs, validateKey slot.key = none := fun slot member =>
        (all _ (List.mem_map_of_mem member)).1.1
      have named : ∀ slot ∈ pairs, slot.key ≠ [] := fun slot member empty => by
        simpa [validateKey, empty] using valid slot member
      have plain : RangeScan.unreserved pairs = [] ++ pairs :=
        List.filter_eq_self.mpr fun slot member => by simp [validateKey_none (valid slot member)]
      have deliverable : ∀ slot ∈ RangeScan.unreserved pairs, Deliverable slot := fun slot member =>
        (all _ (List.mem_map_of_mem (List.mem_of_mem_filter member))).2
      exact dumpPages_rest lists named deliverable wide plain serves steady (by simpa [recordsOf] using enough)
    · obtain ⟨dir, done, after, within⟩ := restoreLocal_records background lists room
      have reopens := newKV_eq_ok.mpr ⟨rfl, fun file member => (within file member).trans few⟩
      exact ⟨dir, contents, by rw [restore, newDumpReader_dumpStream, ← done], ⟨_, reopens, after⟩, kept⟩
    · rcases @restoreRemote_records options unmarshal cap env quiet fresh empty _ small with
        ⟨⟨next, done, after⟩, -⟩ | ⟨-, some⟩
      · rw [putRecords_lists lists] at after
        exact ⟨next, contents, by rw [restore, newDumpReader_dumpStream, ← done], after, kept⟩
      · exact absurd (fun record member => kind ▸ (all record member).1) some

def storedPairs : KVRun := [⟨[1], some [2]⟩, ⟨[3], some [4]⟩, ⟨[5], some [6]⟩]

private theorem lists_storedPairs : Lists storedPairs (visible [storedPairs]) := by
  have increasing : Increasing storedPairs := by decide
  refine ⟨increasing, by decide, fun key val => ?_⟩
  rw [← increasing.lookup_eq_some_iff]
  simp [visible, Option.join_eq_some_iff]

/-- A directory and a server with three pairs. -/
private theorem exists_storedPairs : ∃ files : StoreFiles, newKV (some files) = .ok files.store ∧
    files.store.Holds .eager (visible [storedPairs]) ∧ Fits (visible [storedPairs]) ∧
    KVService.Serves .eager (visible [storedPairs]) (.single ⟨files.store, fun _ => none⟩) := by
  have small : ∀ slot ∈ storedPairs, slotSize slot ≤ maxEntrySize := by decide
  have writable : ∀ slot ∈ storedPairs, slot.key.length ≤ maxKeyLen ∧ (slot.val.getD []).length ≤ maxValueLen := by
    decide
  have fits : Fits (visible [storedPairs]) := fun key val shown =>
    small _ ((lists_storedPairs.mem_iff key val).mpr shown)
  have quiet : ∀ call, RestoreEnv.quiet.fails call = false := fun _ => rfl
  obtain ⟨files, -, holds, within⟩ := stage_records quiet lists_storedPairs fits writable (by decide)
  exact ⟨files, newKV_eq_ok.mpr ⟨rfl, fun file member => (within file member).trans (by decide)⟩, holds, fits, holds,
    fun _ _ cached => by simp at cached⟩

/-- Three pairs in a directory and on a server that sends two rows at a time. -/
theorem backup_agrees_iff_threePairs : ∃ (files : StoreFiles) (server : KVService),
    (files.store.read [5]).2 = .ok (some [6]) ∧
    ∃ records, BackedUp .eager (fun _ => none) 2 .unspecified files server records ∧
      BroughtBack .eager (fun _ => none) 2 server.clustered (visible [storedPairs]) records := by
  obtain ⟨files, opens, holds, fits, serves⟩ := exists_storedPairs
  refine ⟨files, .single ⟨files.store, fun _ => none⟩, by rw [holds.read]; decide, ?_⟩
  refine (backup_agrees_iff opens holds serves fits (by rw [listing_eq lists_storedPairs]; decide) (by decide)).mpr ?_
  intro key val shown
  have all : ∀ slot ∈ storedPairs, validateKey slot.key = none ∧ slot.key.length ≤ maxKeyLen ∧
      (⟨slot.key, slot.val.getD []⟩ : RangeResponse).size ≤ clientMaxRecvMsgSize := by decide
  obtain ⟨valid, short, small⟩ := all _ ((lists_storedPairs.mem_iff key val).mpr shown)
  exact ⟨⟨valid, fun _ => short⟩, small⟩

/-- The pairs come back from a server that sends two rows at a time. -/
theorem dumpRemote_complete_iff_threePairs : ∃ server : KVService, server.Serves .eager (visible [storedPairs]) ∧
    ∃ records, dumpRemote .eager (fun _ => none) 2 .unspecified server (List.replicate 4 ⟨KVService.quietEnv, false⟩) =
      some (.ok records) ∧ CompleteDump (visible [storedPairs]) records := by
  obtain ⟨files, _, holds, _, serves⟩ := exists_storedPairs
  have named : ∀ slot ∈ storedPairs, slot.key ≠ [] := by decide
  have small : ∀ slot ∈ storedPairs, (⟨slot.key, slot.val.getD []⟩ : RangeResponse).size ≤ clientMaxRecvMsgSize := by
    decide
  refine ⟨_, serves, (dumpRemote_complete_iff (by decide) serves (fun key val shown => ?_) (quietPages_steady 4) ?_).mpr
    ⟨.inl le_rfl, fun slot member => ?_⟩⟩
  · exact named _ ((lists_storedPairs.mem_iff key val).mpr shown)
  · rw [listing_eq lists_storedPairs]
    decide
  · rw [listing_eq lists_storedPairs] at member
    exact small slot (List.mem_of_mem_filter member)

/-- Two pairs, as a flush leaves them. -/
def twoPairFiles : StoreFiles := ⟨[], 1, [Tables.flushed .exact 1 [⟨[1], some [10]⟩, ⟨[2], some [20]⟩] true]⟩

/-- From a server that sends one row at a time only the first pair arrives, however many pages are asked for. -/
theorem secondPair_missing : (twoPairFiles.store.read [2]).2 = .ok (some [20]) ∧
    dumpRemote .eager (fun _ => none) 1 .unspecified (.single ⟨twoPairFiles.store, fun _ => none⟩)
      (List.replicate 8 ⟨KVService.quietEnv, false⟩) = some (.ok [([1], [10])]) := by
  refine ⟨by decide +kernel, by decide +kernel⟩

end Agreement

/-! ## A table that is lost -/

/-- `CREATE TABLE t (a int64, primary key (a))`. -/
def lostSchema : Schema := ⟨1, [0x74], [⟨[0x61], .i64⟩], [[0]]⟩

/-- The row that `INSERT INTO t VALUES (7)` leaves. -/
def lostRow : Bytes × Bytes := (lostSchema.rowKey 0 [.i64 7], lostSchema.rowVal [.i64 7])

/-- The directory of a store with that table, after a flush. -/
def lostFiles : StoreFiles :=
  ⟨[], 1, [Tables.flushed .exact 1 [⟨schemaKey [0x74], some lostSchema.text⟩, ⟨lostRow.1, some lostRow.2⟩] true]⟩

/-- Through a server the table comes back as a row without a schema. -/
theorem lostTable_has_no_schema :
    dumpLocal .eager [] (some lostFiles) = .ok [(schemaKey [0x74], lostSchema.text), lostRow] ∧
    dumpRemote .eager (fun _ => none) 2 .unspecified (.single ⟨lostFiles.store, fun _ => none⟩)
        (List.replicate 2 ⟨KVService.quietEnv, false⟩) = some (.ok [lostRow]) ∧
    ((restore (restoreRemote .eager (fun _ => none) 2 fun _ => KVService.quietEnv)
        (some (.single ⟨FSM.fresh.store, fun _ => none⟩)) (dumpStream [lostRow])).1.any fun
      | .single store => decide ((store.kv.read (schemaKey [0x74])).2 = .ok none ∧
          (store.kv.read lostRow.1).2 = .ok (some lostRow.2))
      | .cluster _ => false) = true := by
  refine ⟨by decide +kernel, by decide +kernel, by decide +kernel⟩

end PallasDB
