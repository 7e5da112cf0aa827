import PallasDB.Cluster.Replicas
import PallasDB.Grpc.Range

/-! # The key-value service

`KVServer` serves a store, `ClusterKVServer` the state machine of a Raft leader. Both validate keys before they touch
anything, and both stream ranges through the same scan. What a request answers and does is a function of the contents,
and of the part outside the reserved keyspace only.
-/

namespace PallasDB

open SortedRun Transition VersionedMap

/-! ## Requests -/

inductive PutMode where
  | unspecified
  | upsert
  | insert
  | update
  | other (code : Int)
deriving DecidableEq, Repr

inductive Consistency where
  | unspecified
  | linearizable
  | stale
deriving DecidableEq, Repr

inductive Request where
  | get (key : Bytes) (consistency : Consistency)
  | put (key value : Bytes) (mode : PutMode)
  | delete (key : Bytes)
  | range (req : RangeRequest) (consistency : Consistency)
deriving DecidableEq

/-- What a request is refused with. -/
inductive StatusError where
  /-- "key is required" -/
  | keyRequired
  /-- "key is reserved for engine metadata" -/
  | keyReserved
  /-- "invalid put mode" -/
  | invalidPutMode
  /-- "key not found" -/
  | keyNotFound
  /-- "received message larger than max (%d vs. %d)" -/
  | messageTooLarge
  | context (err : ContextError)
  /-- "get key: %v" -/
  | getKey (err : FSMReadError)
  /-- "put key: %v" -/
  | putKey (err : KV.OneShotError)
  /-- "delete key: %v" -/
  | deleteKey (err : KV.OneShotError)
  /-- "not leader; ..." -/
  | notLeader
  /-- "encode command: %v" -/
  | encodeCommand (err : EncodeError)
  /-- "raft apply: deadline already expired" -/
  | deadlineExpired
  /-- "raft apply: %v" -/
  | raftApply (err : RaftError)
  /-- "verify leader: %v" -/
  | verifyLeader (err : RaftError)
  /-- "await applied index: %v" -/
  | awaitApplied (err : RaftError)
  /-- "fsm apply: %v" -/
  | fsmApply (err : FSMError)
deriving DecidableEq, Repr

def StatusError.code : StatusError → Code
  | .keyRequired | .keyReserved | .invalidPutMode => .invalidArgument
  | .keyNotFound => .notFound
  | .messageTooLarge => .resourceExhausted
  | .context err => err.code
  | .getKey _ | .putKey _ | .deleteKey _ | .encodeCommand _ | .fsmApply _ => .internal
  | .notLeader => .unavailable
  | .deadlineExpired => .deadlineExceeded
  | .raftApply err | .verifyLeader err | .awaitApplied err => err.code

inductive Response where
  | get (result : Except StatusError Bytes)
  | put (result : Except StatusError Bool)
  | delete (result : Except StatusError Bool)
  /-- A stream may be refused before it starts. -/
  | refused (err : StatusError)
  | range (rows : List RangeResponse) (result : Except StreamError Unit)

def validateKey (key : Bytes) : Option StatusError :=
  if key.length = 0 then some .keyRequired
  else if isReservedKey key then some .keyReserved
  else none

/-- `updateMode` of the server. -/
def PutMode.updateMode : PutMode → Except StatusError UpdateMode
  | .upsert | .unspecified => .ok .upsert
  | .insert => .ok .insert
  | .update => .ok .update
  | .other _ => .error .invalidPutMode

/-- The number of an update mode. -/
def UpdateMode.wire : UpdateMode → Int
  | .upsert => 1
  | .insert => 2
  | .update => 3
  | .other code => code

/-- What Raft says while a request is served. An `Apply` that fails is not applied here; it may come as an entry of
its own later. -/
structure RaftEnv where
  leading : Bool
  index : ℕ
  expired : Bool
  apply : Option RaftError
  verifyLeader : Option RaftError
  awaitApplied : Option RaftError

/-- What happens around a request: steps of the compaction thread, entries that the cache drops, and what the context,
the clock and Raft say. -/
structure ServeEnv where
  background : List KVEvent
  evicts : Bytes → Bool
  admits : Bool
  context : Option ContextError
  interrupt : ℕ → Option StreamError
  raft : RaftEnv

/-- No error of the context, of the scan deadline or of Raft, and a leader that stays one. -/
structure ServeEnv.Quiet (env : ServeEnv) : Prop where
  context : env.context = none
  interrupt : env.interrupt = fun _ => none
  leading : env.raft.leading = true
  expired : env.raft.expired = false
  apply : env.raft.apply = none
  verifyLeader : env.raft.verifyLeader = none
  awaitApplied : env.raft.awaitApplied = none

/-! ## The store behind a server -/

/-- A store with its read cache. -/
structure Store where
  kv : KV
  cache : KVMap

namespace Store

/-- `KV.Get`. -/
def get (env : ServeEnv) (store : Store) (key : Bytes) : Store × Except TXError (Option Bytes) :=
  let cache := fun other => if env.evicts other then none else store.cache other
  match cache key with
  | some val => (⟨store.kv, cache⟩, .ok (some val))
  | none =>
    match store.kv.read key with
    | (kv, .ok (some val)) => (⟨kv, if env.admits then Function.update cache key (some val) else cache⟩, .ok (some val))
    | (kv, result) => (⟨kv, cache⟩, result)

/-- The commit of a change to a key removes it from the cache. -/
def invalidate (store : Store) (key : Bytes) (updated : Bool) : Store :=
  if updated then { store with cache := Function.update store.cache key none } else store

/-- The rows of a range in a transaction of its own. -/
def range (scan : RangeScan) (env : ServeEnv) (store : Store) :
    Store × List RangeResponse × Except StreamError Unit :=
  let begun := store.kv.newTX
  let id := store.kv.txs.length
  ({ store with kv := begun.abortTX id }, scan.stream env.interrupt begun (begun.handle id))

end Store

/-! ## The single-node server -/

namespace KVServer

variable (options : KVOptions) (cap : ℕ) (env : ServeEnv) (store : Store)

def get (key : Bytes) : Store × Except StatusError Bytes :=
  match validateKey key with
  | some err => (store, .error err)
  | none =>
    match env.context with
    | some err => (store, .error (.context err))
    | none =>
      match store.get env key with
      | (store, .error err) => (store, .error (.getKey (.tx err)))
      | (store, .ok none) => (store, .error .keyNotFound)
      | (store, .ok (some val)) => (store, .ok val)

/-- `KV.SetEx` and `KV.Del`, once the flush that may hold the commit mutex has let go of it. -/
def change (key : Bytes) (write : TxWrite) (failed : KV.OneShotError → StatusError) : Store × Except StatusError Bool :=
  match (store.kv.awaitCommit options).oneShot write with
  | (kv, .error err) => ({ store with kv := kv }, .error (failed err))
  | (kv, .ok updated) => ({ store with kv := kv }.invalidate key updated, .ok updated)

def put (key value : Bytes) (mode : PutMode) : Store × Except StatusError Bool :=
  match validateKey key with
  | some err => (store, .error err)
  | none =>
    match env.context with
    | some err => (store, .error (.context err))
    | none =>
      match mode.updateMode with
      | .error err => (store, .error err)
      | .ok mode => change options store key (.set key value mode) .putKey

def delete (key : Bytes) : Store × Except StatusError Bool :=
  match validateKey key with
  | some err => (store, .error err)
  | none =>
    match env.context with
    | some err => (store, .error (.context err))
    | none => change options store key (.del key) .deleteKey

def handle : Request → Store × Response
  | .get key _ => (get env store key).map id .get
  | .put key value mode => (put options env store key value mode).map id .put
  | .delete key => (delete options env store key).map id .delete
  | .range req _ => (store.range (newRangeScan req cap) env).map id fun (rows, result) => .range rows result

end KVServer

/-! ## The server of a Raft leader -/

/-- The state machine with the read cache of its store. -/
structure ClusterKVServer where
  fsm : FSM
  cache : KVMap

namespace ClusterKVServer

def store (server : ClusterKVServer) : Store := ⟨server.fsm.store, server.cache⟩

def setStore (server : ClusterKVServer) (store : Store) : ClusterKVServer :=
  ⟨{ server.fsm with store := store.kv }, store.cache⟩

variable (options : KVOptions) (unmarshal : Bytes → Option Command) (cap : ℕ) (env : ServeEnv)
  (server : ClusterKVServer)

/-- `applyCommand`; nothing comes back if the entry aborts the process. -/
def applyCommand (cmd : Command) : Option (ClusterKVServer × Except StatusError FSMResult) :=
  if !env.raft.leading then some (server, .error .notLeader)
  else
    match encodeCommand cmd with
    | .error err => some (server, .error (.encodeCommand err))
    | .ok data =>
      if env.raft.expired then some (server, .error .deadlineExpired)
      else
        match env.raft.apply with
        | some err => some (server, .error (.raftApply err))
        | none =>
          let ready := { server.fsm with store := server.fsm.store.awaitCommit options }
          match ready.applyEntry unmarshal env.raft.index data with
          | .error _ => none
          | .ok (fsm, result) =>
            let next := setStore ⟨fsm, server.cache⟩ (Store.invalidate ⟨fsm.store, server.cache⟩ cmd.key result.updated)
            match result.err with
            | some err => some (next, .error (.fsmApply err))
            | none => some (next, .ok result)

def readReady (consistency : Consistency) : Option StatusError :=
  if consistency = .stale then none
  else
    match env.raft.verifyLeader with
    | some err => some (.verifyLeader err)
    | none => env.raft.awaitApplied.map .awaitApplied

def get (key : Bytes) (consistency : Consistency) : ClusterKVServer × Except StatusError Bytes :=
  match validateKey key with
  | some err => (server, .error err)
  | none =>
    match env.context with
    | some err => (server, .error (.context err))
    | none =>
      match readReady env consistency with
      | some err => (server, .error err)
      | none =>
        if server.fsm.closed then (server, .error (.getKey .closed))
        else
          match server.store.get env key with
          | (store, .error err) => (server.setStore store, .error (.getKey (.tx err)))
          | (store, .ok none) => (server.setStore store, .error .keyNotFound)
          | (store, .ok (some val)) => (server.setStore store, .ok val)

def put (key value : Bytes) (mode : PutMode) : Option (ClusterKVServer × Except StatusError Bool) :=
  match validateKey key with
  | some err => some (server, .error err)
  | none =>
    match env.context with
    | some err => some (server, .error (.context err))
    | none =>
      match mode.updateMode with
      | .error err => some (server, .error err)
      | .ok mode =>
        (applyCommand options unmarshal env server ⟨.put, key, value, mode.wire, []⟩).map fun (server, result) =>
          (server, result.map FSMResult.updated)

def delete (key : Bytes) : Option (ClusterKVServer × Except StatusError Bool) :=
  match validateKey key with
  | some err => some (server, .error err)
  | none =>
    match env.context with
    | some err => some (server, .error (.context err))
    | none => (applyCommand options unmarshal env server ⟨.del, key, [], 0, []⟩).map fun (server, result) =>
        (server, result.map FSMResult.updated)

def range (req : RangeRequest) (consistency : Consistency) : ClusterKVServer × Response :=
  match readReady env consistency with
  | some err => (server, .refused err)
  | none =>
    let (store, rows, result) := server.store.range (newRangeScan req cap) env
    (server.setStore store, .range rows result)

def handle : Request → Option (ClusterKVServer × Response)
  | .get key consistency => some ((get env server key consistency).map id .get)
  | .put key value mode => (put options unmarshal env server key value mode).map (Prod.map id .put)
  | .delete key => (delete options unmarshal env server key).map (Prod.map id .delete)
  | .range req consistency => some (range cap env server req consistency)

end ClusterKVServer

/-- Either server. -/
inductive KVService where
  | single (store : Store)
  | cluster (server : ClusterKVServer)

namespace KVService

def clustered : KVService → Bool
  | .single _ => false
  | .cluster _ => true

/-- Serve one request, after what the compaction thread has done in the meantime. -/
def step (options : KVOptions) (unmarshal : Bytes → Option Command) (cap : ℕ) (server : KVService)
    (event : ServeEnv × Request) : Option (KVService × Response) :=
  match server with
  | .single store =>
    let store := { store with kv := store.kv.background options event.1.background }
    some ((KVServer.handle options cap event.1 store event.2).map .single id)
  | .cluster node =>
    let node := node.setStore { node.store with kv := node.fsm.store.background options event.1.background }
    (node.handle options unmarshal cap event.1 event.2).map (Prod.map .cluster id)

/-- Serve requests one after the other, with their responses. -/
def serve (options : KVOptions) (unmarshal : Bytes → Option Command) (cap : ℕ) (server : KVService) :
    List (ServeEnv × Request) → Option (KVService × List Response)
  | [] => some (server, [])
  | event :: rest => (server.step options unmarshal cap event).bind fun (next, response) =>
      (next.serve options unmarshal cap rest).map fun (final, later) => (final, response :: later)

end KVService

/-! ## Answers from the contents -/

/-- The pairs of the contents in order. -/
noncomputable def listing (contents : KVMap) : KVRun :=
  open Classical in if listed : ∃ pairs, Lists pairs contents then listed.choose else []

theorem listing_eq {pairs : KVRun} {contents : KVMap} (lists : Lists pairs contents) : listing contents = pairs := by
  have listed : ∃ pairs, Lists pairs contents := ⟨pairs, lists⟩
  rw [listing, dif_pos listed]
  exact listed.choose_spec.unique lists

/-- What a write of a client does to the contents and answers; nothing if it aborts the process of a leader. -/
def changed (clustered : Bool) (contents : KVMap) (write : TxWrite) (cmd : Command)
    (failed : KV.OneShotError → StatusError) : Option (KVMap × Except StatusError Bool) :=
  let (staged, updated) := write.stage contents []
  match clustered, encodeCommand cmd with
  | true, .error err => some (contents, .error (.encodeCommand err))
  | true, .ok _ => if oversize staged then none else some (overlay contents staged, .ok updated)
  | false, _ =>
    if oversize staged then some (contents, .error (failed (.commit .entryTooLarge)))
    else some (overlay contents staged, .ok updated)

/-- What a request does to the contents and answers. -/
noncomputable def Request.answer (clustered : Bool) (cap : ℕ) (contents : KVMap) :
    Request → Option (KVMap × Response)
  | .get key _ =>
    match validateKey key with
    | some err => some (contents, .get (.error err))
    | none => some (contents, .get ((contents key).elim (.error .keyNotFound) .ok))
  | .put key value mode =>
    match validateKey key, mode.updateMode with
    | some err, _ | none, .error err => some (contents, .put (.error err))
    | none, .ok mode => (changed clustered contents (.set key value mode) ⟨.put, key, value, mode.wire, []⟩ .putKey).map
        (Prod.map id .put)
  | .delete key =>
    match validateKey key with
    | some err => some (contents, .delete (.error err))
    | none => (changed clustered contents (.del key) ⟨.del, key, [], 0, []⟩ .deleteKey).map (Prod.map id .delete)
  | .range req _ =>
    let scan := newRangeScan req cap
    let (rows, result) := scan.rows (fun _ => none) 0 (scan.candidates (listing contents))
    some (contents, .range rows result)

/-! ## Servers answer from the contents -/

/-- The store shows the contents, and so does what is cached. -/
structure Store.Serves (options : KVOptions) (store : Store) (contents : KVMap) : Prop where
  holds : store.kv.Holds options contents
  cached : ∀ key val, store.cache key = some val → contents key = some val

/-- A write on its own stages nothing, or changes its key. -/
theorem TxWrite.stage_cases (write : TxWrite) (contents : KVMap) :
    write.stage contents [] = ([], false) ∨
      (write.stage contents []).2 = true ∧
        ∀ other, other ≠ write.key → overlay contents (write.stage contents []).1 other = contents other := by
  cases changes : write.changes (overlay contents [] write.key) with
  | false => exact .inl (stage_keeps changes)
  | true =>
    obtain ⟨updated, -, edit⟩ := stage_changes increasing_nil changes
    refine .inr ⟨updated, fun other differ => ?_⟩
    rw [overlay, edit, if_neg differ]
    rfl

/-- What a write on its own stages depends on its key only. -/
theorem TxWrite.stage_congr (write : TxWrite) {contents other : KVMap}
    (same : contents write.key = other write.key) : write.stage contents [] = write.stage other [] := by
  cases write with
  | set key | del key =>
    have same : contents key = other key := same
    rw [stage, stage, overlay_nil, overlay_nil, same]

variable {write : TxWrite}

namespace Store

variable {options : KVOptions} {env : ServeEnv} {store : Store} {contents : KVMap}

theorem Serves.get (serves : store.Serves options contents) (env : ServeEnv) (key : Bytes) :
    ∃ next, store.get env key = (next, .ok (contents key)) ∧ next.Serves options contents := by
  have kept : ∀ other val, (if env.evicts other then none else store.cache other) = some val →
      contents other = some val := by
    intro other val found
    split at found
    · contradiction
    · exact serves.cached other val found
  have read := serves.holds.read key
  have after : (store.kv.read key).1.Holds options contents := serves.holds.newTX.abortTX _
  simp only [Store.get]
  cases cached : (if env.evicts key then none else store.cache key) with
  | some val =>
    rw [kept key val cached]
    exact ⟨_, rfl, serves.holds, kept⟩
  | none =>
    generalize store.kv.read key = outcome at read after
    obtain ⟨kv, result⟩ := outcome
    cases read
    cases shown : contents key with
    | none => exact ⟨_, rfl, after, kept⟩
    | some val =>
      refine ⟨_, rfl, after, fun other found cached => ?_⟩
      dsimp only at cached
      split at cached
      · by_cases same : other = key
        · subst same
          rw [Function.update_self, Option.some.injEq] at cached
          rw [shown, cached]
        · rw [Function.update_of_ne same] at cached
          exact kept other found cached
      · exact kept other found cached

theorem Serves.range (serves : store.Serves options contents) (env : ServeEnv) (scan : RangeScan) :
    ∃ next, store.range scan env = (next, scan.rows env.interrupt 0 (scan.candidates (listing contents))) ∧
      next.Serves options contents := by
  obtain ⟨initial, journal, sound⟩ := serves.holds.sound
  obtain ⟨live, increasing, shows⟩ := sound.snapshots.begun
  rw [serves.holds.shows] at shows
  have lists := livePairs_lists increasing
  rw [shows] at lists
  refine ⟨⟨store.kv.newTX.abortTX store.kv.txs.length, store.cache⟩, ?_, serves.holds.newTX.abortTX _, serves.cached⟩
  rw [Store.range, RangeScan.stream_eq_rows live increasing shows lists, listing_eq lists]

/-- A change to a key keeps the cache true once the key is removed from it. -/
theorem Serves.invalidate (serves : store.Serves options contents) {kv : KV}
    (holds : kv.Holds options (overlay contents (write.stage contents []).1)) :
    (({ store with kv := kv } : Store).invalidate write.key (write.stage contents []).2).Serves options
      (overlay contents (write.stage contents []).1) := by
  rcases write.stage_cases contents with nothing | ⟨updated, others⟩
  · rw [nothing] at holds ⊢
    exact ⟨holds, serves.cached⟩
  · rw [updated, Store.invalidate, if_pos rfl]
    refine ⟨holds, fun other val cached => ?_⟩
    by_cases same : other = write.key
    · subst same
      simp at cached
    · simp only [Function.update_of_ne same] at cached
      rw [others other same]
      exact serves.cached other val cached

end Store

section Refinement

variable {options : KVOptions} {unmarshal : Bytes → Option Command} {cap : ℕ} {env : ServeEnv}
  {contents : KVMap}

/-- A state machine that is open, with a store that serves. -/
structure ClusterKVServer.Serves (options : KVOptions) (server : ClusterKVServer) (contents : KVMap) :
    Prop where
  opened : server.fsm.closed = false
  store : server.store.Serves options contents

/-- The server shows the contents. -/
def KVService.Serves (options : KVOptions) (contents : KVMap) : KVService → Prop
  | .single store => store.Serves options contents
  | .cluster server => server.Serves options contents

/-- A server that is asked answers what the contents say, and shows what the request has made of them. -/
inductive KVService.Answers (options : KVOptions) (clustered : Bool) :
    Option (KVMap × Response) → Option (KVService × Response) → Prop where
  | aborted : Answers options clustered none none
  | answered (next : KVService) (contents : KVMap) (response : Response)
      (kind : next.clustered = clustered) (serves : next.Serves options contents) :
      Answers options clustered (some (contents, response)) (some (next, response))

theorem KVServer.change_answers {store : Store} (serves : store.Serves options contents) (valid : write.valid = true)
    (cmd : Command) (failed : KV.OneShotError → StatusError) (wrap : Except StatusError Bool → Response) :
    KVService.Answers options false ((changed false contents write cmd failed).map (Prod.map id wrap))
      (some (((KVServer.change options store write.key write failed).map id wrap).map .single id)) := by
  obtain ⟨same, initial, journal, ready⟩ := serves.holds.awaitCommit
  obtain ⟨kv, later, ran, shows, rested⟩ := ready.oneShot valid
  rw [same] at ran shows
  rw [KVServer.change, ran, changed]
  split at shows
  · next large =>
    simp only [large, if_true]
    exact .answered _ _ _ rfl ⟨⟨⟨_, _, rested.toSound⟩, rested.free, shows⟩, serves.cached⟩
  · next fits =>
    simp only [fits]
    exact .answered _ _ _ rfl (serves.invalidate ⟨⟨_, _, rested.toSound⟩, rested.free, shows⟩)

/-- The effect of the entry of an encoded command of one write. -/
private theorem entryEffect_single {cmd : Command} (encodable : cmd.Encodable) (plan : cmd.writes = .ok (.ok [write]))
    (narrow : ∀ mutation ∈ cmd.mutations, mutation.mode < 2 ^ 63 ∧ mutation.Narrow) (index : ℕ) :
    entryEffect unmarshal contents index cmd.bytes =
      if oversize (write.stage contents []).1 then .error (.fatal (cmd.canonical.tooLarge index))
      else .ok (overlay contents (write.stage contents []).1, ⟨(write.stage contents []).2, none⟩) := by
  have decoded := decodeCommand_bytes unmarshal encodable fun mutation member => (narrow mutation member).1
  rw [if_pos fun mutation member => (narrow mutation member).2] at decoded
  rw [entryEffect, decoded]
  simp only [Command.effect, Command.writes_canonical, plan, TxWrite.stageAll, Bool.or_false]
  split <;> rfl

theorem ClusterKVServer.change_answers {server : ClusterKVServer} (quiet : env.Quiet)
    (serves : server.Serves options contents) {cmd : Command} (plan : cmd.writes = .ok (.ok [write]))
    (about : write.key = cmd.key) (narrow : ∀ mutation ∈ cmd.mutations, mutation.mode < 2 ^ 63 ∧ mutation.Narrow)
    (failed : KV.OneShotError → StatusError) (wrap : Except StatusError Bool → Response) :
    KVService.Answers options true ((changed true contents write cmd failed).map (Prod.map id wrap))
      ((((server.applyCommand options unmarshal env cmd).map fun (server, result) =>
        (server, result.map FSMResult.updated)).map (Prod.map id wrap)).map (Prod.map .cluster id)) := by
  rw [changed, applyCommand, quiet.leading, if_neg (by simp)]
  cases encoded : encodeCommand cmd with
  | error err => exact .answered _ _ _ rfl serves
  | ok data =>
    obtain ⟨encodable, rfl⟩ := (encodeCommand_iff cmd data).mp encoded
    simp only [quiet.expired, quiet.apply, Bool.false_eq_true, if_false]
    obtain ⟨same, initial, journal, ready⟩ := serves.store.holds.awaitCommit
    have awaiting : FSMNode.Serves options
        ⟨{ server.fsm with store := server.fsm.store.awaitCommit options }, [], []⟩ contents :=
      ⟨serves.opened, ⟨⟨initial, journal, ready.toSound⟩, ready.free, same⟩⟩
    obtain ⟨outcome, after⟩ := awaiting.outcome ready.commitLocked unmarshal env.raft.index cmd.bytes
    rw [entryEffect_single encodable plan narrow, FSMNode.outcome] at outcome
    cases ran : FSM.applyEntry unmarshal { server.fsm with store := server.fsm.store.awaitCommit options }
        env.raft.index cmd.bytes with
    | error abort =>
      split at outcome
      · next large =>
        simp only [large, if_true]
        exact .aborted
      · simp [ran, Except.map] at outcome
    | ok pair =>
      split at outcome
      · simp [ran, Except.map] at outcome
      · next fits =>
        obtain ⟨fsm, result⟩ := pair
        obtain ⟨opened, holds⟩ := after fsm result ran
        simp only [ran, Except.map, Except.ok.injEq, Prod.mk.injEq] at outcome
        obtain ⟨shown, rfl⟩ := outcome
        rw [shown] at holds
        simp only [fits]
        rw [← about]
        exact .answered _ _ _ rfl ⟨opened, serves.store.invalidate holds⟩

private theorem updateMode_valid_wire {mode : PutMode} {chosen : UpdateMode} (known : mode.updateMode = .ok chosen)
    (key value : Bytes) : (TxWrite.set key value chosen).valid = true ∧ updateMode chosen.wire = .ok chosen ∧
      chosen.wire < 2 ^ 32 := by
  cases mode <;> cases known <;> exact ⟨rfl, rfl, by decide⟩

theorem KVServer.handle_answers {store : Store} (quiet : env.Quiet) (serves : store.Serves options contents)
    (request : Request) : KVService.Answers options false (request.answer false cap contents)
      (some ((KVServer.handle options cap env store request).map .single id)) := by
  cases request with
  | get key consistency =>
    simp only [Request.answer, KVServer.handle, KVServer.get, quiet.context]
    cases validateKey key with
    | some err => exact .answered _ _ _ rfl serves
    | none =>
      obtain ⟨next, read, served⟩ := serves.get env key
      rw [read]
      cases contents key <;> exact .answered _ _ _ rfl served
  | put key value mode =>
    simp only [Request.answer, KVServer.handle, KVServer.put, quiet.context]
    cases validateKey key with
    | some err => exact .answered _ _ _ rfl serves
    | none =>
      cases known : mode.updateMode with
      | error err => exact .answered _ _ _ rfl serves
      | ok chosen =>
        exact KVServer.change_answers serves (updateMode_valid_wire known key value).1 _ .putKey .put
  | delete key =>
    simp only [Request.answer, KVServer.handle, KVServer.delete, quiet.context]
    cases validateKey key with
    | some err => exact .answered _ _ _ rfl serves
    | none =>
      have valid : (TxWrite.del key).valid = true := rfl
      exact KVServer.change_answers serves valid _ .deleteKey .delete
  | range req consistency =>
    obtain ⟨next, streamed, served⟩ := serves.range env (newRangeScan req cap)
    simp only [Request.answer, KVServer.handle, streamed, quiet.interrupt]
    exact .answered _ _ _ rfl served

theorem ClusterKVServer.readReady_quiet (quiet : env.Quiet) (consistency : Consistency) :
    readReady env consistency = none := by
  simp [readReady, quiet.verifyLeader, quiet.awaitApplied]

theorem ClusterKVServer.handle_answers {server : ClusterKVServer} (quiet : env.Quiet)
    (serves : server.Serves options contents) (request : Request) :
    KVService.Answers options true (request.answer true cap contents)
      ((server.handle options unmarshal cap env request).map (Prod.map .cluster id)) := by
  cases request with
  | get key consistency =>
    simp only [Request.answer, ClusterKVServer.handle, ClusterKVServer.get, quiet.context, readReady_quiet quiet,
      serves.opened, Bool.false_eq_true, if_false]
    cases validateKey key with
    | some err => exact .answered _ _ _ rfl serves
    | none =>
      obtain ⟨next, read, served⟩ := serves.store.get env key
      have served : (server.setStore next).Serves options contents := ⟨serves.opened, served⟩
      rw [read]
      cases contents key <;> exact .answered _ _ _ rfl served
  | put key value mode =>
    simp only [Request.answer, ClusterKVServer.handle, ClusterKVServer.put, quiet.context]
    cases validateKey key with
    | some err => exact .answered _ _ _ rfl serves
    | none =>
      cases known : mode.updateMode with
      | error err => exact .answered _ _ _ rfl serves
      | ok chosen =>
        obtain ⟨-, wired, small⟩ := updateMode_valid_wire known key value
        refine ClusterKVServer.change_answers quiet serves ?_ rfl ?_ .putKey .put
        · simp [Command.writes, wired, Except.map]
        · simp only [Command.mutations, List.mem_singleton, forall_eq, Mutation.Narrow]
          exact ⟨small.trans (by decide), fun _ => small⟩
  | delete key =>
    simp only [Request.answer, ClusterKVServer.handle, ClusterKVServer.delete, quiet.context]
    cases validateKey key with
    | some err => exact .answered _ _ _ rfl serves
    | none =>
      refine ClusterKVServer.change_answers quiet serves rfl rfl ?_ .deleteKey .delete
      simp [Command.mutations, Mutation.Narrow]
  | range req consistency =>
    obtain ⟨next, streamed, served⟩ := serves.store.range env (newRangeScan req cap)
    simp only [Request.answer, ClusterKVServer.handle, ClusterKVServer.range, readReady_quiet quiet, streamed,
      quiet.interrupt]
    exact .answered _ _ _ rfl ⟨serves.opened, served⟩

theorem KVService.step_answers {server : KVService} (serves : server.Serves options contents)
    {event : ServeEnv × Request} (quiet : event.1.Quiet) :
    KVService.Answers options server.clustered (event.2.answer server.clustered cap contents)
      (server.step options unmarshal cap event) := by
  cases server with
  | single store =>
    have before : Store.Serves options { store with kv := store.kv.background options event.1.background } contents :=
      ⟨serves.holds.background _, serves.cached⟩
    exact KVServer.handle_answers quiet before event.2
  | cluster node =>
    have before : ClusterKVServer.Serves options (node.setStore
        { node.store with kv := node.fsm.store.background options event.1.background }) contents :=
      ⟨serves.opened, serves.store.holds.background _, serves.store.cached⟩
    exact ClusterKVServer.handle_answers quiet before event.2

end Refinement

/-! ## Reserved keys -/

theorem validateKey_none {key : Bytes} (valid : validateKey key = none) : isReservedKey key = false := by
  rw [validateKey] at valid
  split at valid
  · contradiction
  · split at valid
    · contradiction
    · simpa using ‹¬isReservedKey key = true›

/-- Two stores that a client cannot tell apart. -/
def Alike (contents other : KVMap) : Prop := ∀ key, isReservedKey key = false → contents key = other key

/-- Two outcomes that a client cannot tell apart, of which the first keeps the reserved entries. -/
structure Indistinct {α : Type} (contents : KVMap) (first second : KVMap × α) : Prop where
  alike : Alike first.1 second.1
  same : first.2 = second.2
  kept : ∀ key, isReservedKey key = true → first.1 key = contents key

theorem Alike.indistinct {α : Type} {contents other : KVMap} (alike : Alike contents other) (answer : α) :
    Indistinct contents (contents, answer) (other, answer) :=
  ⟨alike, rfl, fun _ _ => rfl⟩

private theorem changed_alike {clustered : Bool} {contents other : KVMap} (alike : Alike contents other)
    {asked : Bytes} (about : write.key = asked) (valid : validateKey asked = none) (cmd : Command)
    (failed : KV.OneShotError → StatusError) :
    Option.Rel (Indistinct contents) (changed clustered contents write cmd failed)
      (changed clustered other write cmd failed) := by
  have free : isReservedKey write.key = false := about ▸ validateKey_none valid
  have same := write.stage_congr (alike write.key free)
  have applied (answer : Except StatusError Bool) : Indistinct contents
      (overlay contents (write.stage other []).1, answer) (overlay other (write.stage other []).1, answer) := by
    refine ⟨fun key unreserved => ?_, rfl, fun key reserved => ?_⟩
    · simp only [overlay, alike key unreserved]
    · rw [← same]
      rcases write.stage_cases contents with nothing | ⟨-, others⟩
      · rw [nothing]
        rfl
      · exact others key fun own => by simp [own, free] at reserved
  rw [changed, changed, same]
  dsimp only
  split
  · exact .some (alike.indistinct _)
  · split
    · exact .none
    · exact .some (applied _)
  · split
    · exact .some (alike.indistinct _)
    · exact .some (applied _)

/-- What a request answers, and what it does outside the reserved keyspace, does not depend on what is inside. -/
theorem Request.answer_alike {clustered : Bool} {cap : ℕ} {contents other : KVMap} (alike : Alike contents other)
    (listed : ∃ pairs, Lists pairs contents) (otherListed : ∃ pairs, Lists pairs other) (request : Request) :
    Option.Rel (Indistinct contents) (request.answer clustered cap contents) (request.answer clustered cap other) := by
  have wrapped (wrap : Except StatusError Bool → Response)
      {first second : Option (KVMap × Except StatusError Bool)}
      (related : Option.Rel (Indistinct contents) first second) :
      Option.Rel (Indistinct contents) (first.map (Prod.map id wrap)) (second.map (Prod.map id wrap)) := by
    cases related with
    | none => exact .none
    | some both => exact .some ⟨both.alike, congrArg wrap both.same, both.kept⟩
  cases request with
  | get key consistency =>
    simp only [answer]
    split
    · exact .some (alike.indistinct _)
    · next valid =>
      rw [alike key (validateKey_none valid)]
      exact .some (alike.indistinct _)
  | put key value mode =>
    simp only [answer]
    split
    · exact .some (alike.indistinct _)
    · exact .some (alike.indistinct _)
    · next valid _ =>
      refine wrapped .put (changed_alike alike ?_ valid _ _)
      rfl
  | delete key =>
    simp only [answer]
    split
    · exact .some (alike.indistinct _)
    · next valid =>
      refine wrapped .delete (changed_alike alike ?_ valid _ _)
      rfl
  | range req consistency =>
    obtain ⟨pairs, lists⟩ := listed
    obtain ⟨otherPairs, otherLists⟩ := otherListed
    simp only [answer, listing_eq lists, listing_eq otherLists, RangeScan.rows_eq_of_agree alike lists otherLists]
    exact .some (alike.indistinct _)

namespace KVService

variable {options others : KVOptions} {unmarshal : Bytes → Option Command} {cap : ℕ} {server other : KVService}
  {contents otherContents : KVMap}

theorem Serves.listed (serves : server.Serves options contents) : ∃ pairs, Lists pairs contents := by
  have holds : ∃ kv : KV, kv.Holds options contents := by
    cases server with
    | single store => exact ⟨_, Store.Serves.holds serves⟩
    | cluster node => exact ⟨_, (ClusterKVServer.Serves.store serves).holds⟩
  obtain ⟨kv, holds⟩ := holds
  obtain ⟨initial, journal, sound⟩ := holds.sound
  have lists : Lists (livePairs kv.tables.levels) kv.tables.contents := livePairs_lists sound.snapshots.sorted.tables
  exact ⟨_, holds.shows ▸ lists⟩

/-- No sequence of requests changes an entry in the reserved keyspace; and two servers of one kind whose contents agree
outside of it give the same responses, whatever their compaction threads and caches do. -/
theorem reserved_noninterference (serves : server.Serves options contents)
    (otherServes : other.Serves others otherContents) (kind : server.clustered = other.clustered)
    (alike : Alike contents otherContents) {events otherEvents : List (ServeEnv × Request)}
    (quiet : ∀ event ∈ events, event.1.Quiet) (otherQuiet : ∀ event ∈ otherEvents, event.1.Quiet)
    (same : events.map Prod.snd = otherEvents.map Prod.snd) :
    (server.serve options unmarshal cap events).map Prod.snd =
        (other.serve others unmarshal cap otherEvents).map Prod.snd ∧
      ∀ final responses, server.serve options unmarshal cap events = some (final, responses) →
        ∃ after, final.Serves options after ∧ ∀ key, isReservedKey key = true → after key = contents key := by
  induction events generalizing server other contents otherContents otherEvents with
  | nil =>
    obtain rfl : otherEvents = [] := by simpa using same.symm
    refine ⟨rfl, fun final responses done => ?_⟩
    cases done
    exact ⟨contents, serves, fun _ _ => rfl⟩
  | cons event rest ih =>
    cases otherEvents with
    | nil => simp at same
    | cons otherEvent otherRest =>
      obtain ⟨request, same⟩ := List.cons.inj same
      rw [List.forall_mem_cons] at quiet otherQuiet
      have answers := @step_answers options unmarshal cap contents server serves event quiet.1
      have otherAnswers := @step_answers others unmarshal cap otherContents other otherServes otherEvent otherQuiet.1
      have related := @Request.answer_alike server.clustered cap contents otherContents alike serves.listed
        otherServes.listed event.2
      rw [← kind, ← request] at otherAnswers
      rw [serve, serve]
      generalize event.2.answer server.clustered cap contents = answer at answers related
      generalize event.2.answer server.clustered cap otherContents = otherAnswer at otherAnswers related
      generalize server.step options unmarshal cap event = outcome at answers
      generalize other.step others unmarshal cap otherEvent = otherOutcome at otherAnswers
      cases answers with
      | aborted =>
        cases related
        cases otherAnswers
        simp only [Option.bind_none]
        exact ⟨trivial, fun _ _ done => nomatch done⟩
      | answered next after response nextKind served =>
        cases related with
        | some both =>
          cases otherAnswers with
          | answered otherNext otherAfter otherResponse otherKind otherServed =>
            obtain ⟨alikeAfter, rfl, kept⟩ := both
            obtain ⟨responses, unchanged⟩ := ih served otherServed (nextKind.trans otherKind.symm)
              alikeAfter quiet.2 otherQuiet.2 same
            constructor
            · have longer := congrArg (Option.map (response :: ·)) responses
              simpa only [Option.bind_some, Option.map_map, Function.comp_def] using longer
            · intro final later done
              obtain ⟨⟨_, rest⟩, reached, same⟩ := Option.map_eq_some_iff.mp done
              cases same
              obtain ⟨last, servedLast, reserved⟩ := unchanged final rest reached
              exact ⟨last, servedLast, fun key inside => (reserved key inside).trans (kept key inside)⟩

/-- A request that nothing disturbs. -/
def quietEnv : ServeEnv := ⟨[], fun _ => false, false, none, fun _ => none, ⟨true, 1, false, none, none, none⟩⟩

/-- A put, and a scan of everything. -/
def putAndScan : List (ServeEnv × Request) :=
  [(quietEnv, .put [1] [2] .upsert), (quietEnv, .range ⟨[], [], false, false, 0⟩ .unspecified)]

/-- A client cannot tell an empty store from one with the schema of a table. -/
theorem reserved_noninterference_schema : ∃ kv : KV, (kv.read (schemaKey [0x74])).2 = .ok (some [3]) ∧
    (serve .eager (fun _ => none) 0 (.single ⟨FSM.fresh.store, fun _ => none⟩) putAndScan).map Prod.snd =
      (serve .eager (fun _ => none) 0 (.single ⟨kv, fun _ => none⟩) putAndScan).map Prod.snd := by
  have ready : KV.Ready .eager FSM.fresh.contents FSM.fresh.store [] := FSM.ready_fresh .eager
  obtain ⟨kv, later, ran, shows, rested⟩ :=
    ready.oneShot (show (TxWrite.set (schemaKey [0x74]) [3] .upsert).valid = true from rfl)
  have empty : FSM.fresh.store.tables.contents = fun _ => none := FSM.contents_fresh
  have small : ¬ oversize ((TxWrite.set (schemaKey [0x74]) [3] .upsert).stage (fun _ => none) []).1 = true := by
    decide +kernel
  rw [empty, if_neg small, overlay_upsert] at shows
  have holds : kv.Holds .eager (Function.update (fun _ => none) (schemaKey [0x74]) (some [3])) :=
    ⟨⟨_, _, rested.toSound⟩, rested.free, shows⟩
  have quiet : ∀ event ∈ putAndScan, event.1.Quiet := by
    simp only [putAndScan, List.forall_mem_cons]
    exact ⟨⟨rfl, rfl, rfl, rfl, rfl, rfl, rfl⟩, ⟨rfl, rfl, rfl, rfl, rfl, rfl, rfl⟩, List.forall_mem_nil _⟩
  have alike : Alike (fun _ => none) (Function.update (fun _ => none) (schemaKey [0x74]) (some [3])) := by
    intro key free
    rw [Function.update_of_ne]
    rintro rfl
    exact absurd free (by decide)
  have serves : Serves .eager (fun _ => none) (.single ⟨FSM.fresh.store, fun _ => none⟩) :=
    ⟨KV.holds_fresh, fun _ _ cached => by simp at cached⟩
  have otherServes : Serves .eager _ (.single ⟨kv, fun _ => none⟩) := ⟨holds, fun _ _ cached => by simp at cached⟩
  refine ⟨kv, by rw [holds.read, Function.update_self], ?_⟩
  exact (reserved_noninterference serves otherServes rfl alike quiet quiet rfl).1

end KVService

end PallasDB
