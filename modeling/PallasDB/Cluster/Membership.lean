import PallasDB.Cluster.Bootstrap
import Mathlib.Data.List.Basic

/-! # Membership of the Raft configuration

Every operation on the leader's membership reads the configuration, decides on one change and asks Raft for it. Other
operations run between the read and the change. A change to an existing voter is decided from what was read, so a
removal that takes effect in between turns the addition of a known node into one of a node the configuration does not
have.
-/

namespace PallasDB

open Transition

def findServer (servers : List Server) (nodeID : Bytes) : Option Server :=
  servers.find? fun server => decide (server.id = nodeID)

def countVoters (servers : List Server) : ℕ :=
  servers.countP fun server => decide (server.suffrage = .voter)

/-- A change that Raft is asked for. -/
inductive Change where
  | addVoter (id address : Bytes)
  | addNonvoter (id address : Bytes)
  | removeServer (id : Bytes)
deriving DecidableEq

/-- Replace the server of an ID, or append it. -/
def upsertServer (servers : List Server) (id : Bytes) (replace : Server → Server) (fresh : Server) : List Server :=
  if (findServer servers id).isSome then servers.map fun server => if server.id = id then replace server else server
  else servers ++ [fresh]

/-- The next configuration. An existing voter that is added as a nonvoter only changes its address. -/
def Change.apply (servers : List Server) : Change → List Server
  | .addVoter id address => upsertServer servers id (fun _ => ⟨id, address, .voter⟩) ⟨id, address, .voter⟩
  | .addNonvoter id address =>
      upsertServer servers id (fun server => ⟨id, address, server.suffrage⟩) ⟨id, address, .nonvoter⟩
  | .removeServer id => servers.filter fun server => decide (server.id ≠ id)

inductive MembershipError where
  /-- "cluster: refusing to remove %s, it is the last voter" -/
  | lastVoter (nodeID : Bytes)
  /-- "cluster: refusing to remove %s, it is the last server" -/
  | lastServer (nodeID : Bytes)
deriving DecidableEq

/-- The switch of `Join`. -/
def joinChange (servers : List Server) (nodeID address : Bytes) (nonVoter : Bool) : Option Change :=
  let existing := findServer servers nodeID
  let unmoved := existing.any fun server => decide (server.address = address)
  let voting := existing.any fun server => decide (server.suffrage = .voter)
  if unmoved ∧ voting then none
  else if unmoved ∧ nonVoter then none
  else if unmoved ∨ voting then some (.addVoter nodeID address)
  else some (.addNonvoter nodeID address)

/-- What `addDiscoveredMember` asks for. -/
def discoveredChange (servers : List Server) (nodeID address : Bytes) : Option Change :=
  if (findServer servers nodeID).any fun server => decide (server.address = address) then none
  else some (.addNonvoter nodeID address)

/-- What `removeServer` asks for. -/
def removeChange (servers : List Server) (nodeID : Bytes) : Except MembershipError (Option Change) :=
  match findServer servers nodeID with
  | none => .ok none
  | some server =>
    if server.suffrage = .voter ∧ countVoters servers ≤ 1 then .error (.lastVoter nodeID)
    else if servers.length ≤ 1 then .error (.lastServer nodeID)
    else .ok (some (.removeServer nodeID))

/-- What started a thread. -/
inductive Origin where
  | join
  | leave
  | gossipJoin
  | gossipLeave
  | failure
  | reconcile
deriving DecidableEq, Repr

/-- Where a thread stands. -/
inductive Phase where
  /-- `Join` before it reads the configuration. -/
  | joining (nodeID address : Bytes) (nonVoter : Bool)
  /-- `addDiscoveredMember` before it reads the configuration. -/
  | discovered (nodeID address : Bytes)
  /-- `removeServer` before it reads the configuration. -/
  | removing (nodeID : Bytes)
  /-- `transferLeadership` before it reads the configuration. -/
  | transferring
  /-- `transferLeadership` waits for `LeadershipTransfer`. -/
  | handingOver
  /-- `LeaveSelf` after `transferLeadership`. -/
  | leavingSelf
  /-- `evictFailedMember`. -/
  | expired (nodeID : Bytes)
  /-- `reconcileDiscovered` before it reads the configuration. -/
  | discovering (members : List NodeInfo)
  /-- The loop of `reconcileDiscovered`. -/
  | reconciling (servers : List Server) (members : List NodeInfo)
  /-- Raft has been asked for a change; a loop goes on behind it. -/
  | changing (change : Change) (rest : Option (List Server × List NodeInfo))
deriving DecidableEq

structure Thread where
  origin : Origin
  phase : Phase
deriving DecidableEq

structure MembershipConfig where
  nodeID : Bytes
  failureGracePeriod : ℤ

structure Membership where
  servers : List Server
  leading : Bool
  closed : Bool
  evicted : List Bytes
  pendingRemoval : List Bytes
  /-- Timers that have not fired. -/
  timers : List Bytes
  threads : List Thread

/-- What a call to Raft comes back with. -/
inductive Outcome where
  | ok
  | failed
  /-- A transfer of leadership is under way already. -/
  | inProgress
deriving DecidableEq, Repr

inductive GossipKind where
  | join
  | update
  | leave
  | failed
deriving DecidableEq, Repr

inductive MembershipEvent where
  | join (nodeID address : Bytes) (nonVoter : Bool)
  | leave (nodeID : Bytes)
  | gossip (kind : GossipKind) (member : NodeInfo)
  /-- A grace period ends. -/
  | fire (nodeID : Bytes)
  | reconcile (members : List NodeInfo)
  /-- A thread goes on to its next configuration read or change; `members` is what gossip shows by then. -/
  | advance (thread : ℕ) (outcome : Outcome) (members : List NodeInfo)
  | stepDown
  | close

namespace Membership

def start (membership : Membership) (origin : Origin) (phase : Phase) : Membership :=
  { membership with threads := membership.threads ++ [⟨origin, phase⟩] }

def cancelPendingRemoval (membership : Membership) (nodeID : Bytes) : Membership :=
  { membership with
    pendingRemoval := membership.pendingRemoval.filter (· ≠ nodeID)
    timers := membership.timers.filter (· ≠ nodeID) }

def markEvicted (membership : Membership) (nodeID : Bytes) : Membership :=
  { membership with evicted := nodeID :: membership.evicted }

def clearEvicted (membership : Membership) (nodeID : Bytes) : Membership :=
  { membership with evicted := membership.evicted.filter (· ≠ nodeID) }

def scheduleFailedEviction (config : MembershipConfig) (membership : Membership) (nodeID : Bytes) : Membership :=
  if nodeID = config.nodeID ∨ config.failureGracePeriod < 0 then membership
  else if membership.closed then membership
  else if nodeID ∈ membership.pendingRemoval then membership
  else
    { membership with
      pendingRemoval := nodeID :: membership.pendingRemoval
      timers := nodeID :: membership.timers }

/-- `evictMember` up to its configuration read. -/
def evictMember (config : MembershipConfig) (membership : Membership) (nodeID : Bytes) : Membership × Option Phase :=
  if nodeID = config.nodeID ∨ ¬ membership.leading then (membership, none)
  else (membership.markEvicted nodeID, some (.removing nodeID))

/-- Raft takes a change on the leader if it leaves a voter. -/
def ask (membership : Membership) (change : Change) (outcome : Outcome) : Membership :=
  if outcome = .ok ∧ membership.leading ∧ 0 < countVoters (change.apply membership.servers) then
    { membership with servers := change.apply membership.servers }
  else membership

/-- One step of a thread: what becomes of the node, and where the thread goes on. -/
def resume (config : MembershipConfig) (membership : Membership) (outcome : Outcome) (members : List NodeInfo) :
    Phase → Membership × Option Phase
  | .joining nodeID address nonVoter =>
    if outcome ≠ .ok then (membership, none)
    else (membership, (joinChange membership.servers nodeID address nonVoter).map (.changing · none))
  | .discovered nodeID address =>
    if outcome ≠ .ok then (membership, none)
    else (membership, (discoveredChange membership.servers nodeID address).map (.changing · none))
  | .removing nodeID =>
    if outcome ≠ .ok then (membership, none)
    else
      match removeChange membership.servers nodeID with
      | .error _ => (membership, none)
      | .ok change => (membership, change.map (.changing · none))
  | .transferring =>
    if ¬ membership.leading then (membership, some .leavingSelf)
    else if outcome ≠ .ok then (membership, none)
    else if countVoters membership.servers < 2 then (membership, some .leavingSelf)
    else (membership, some .handingOver)
  | .handingOver =>
    match outcome with
    | .ok => ({ membership with leading := false }, some .leavingSelf)
    | .failed => (membership, none)
    | .inProgress => (membership, some .leavingSelf)
  | .leavingSelf =>
    -- A follower asks the leader to remove it, which is a `leave` event there.
    if ¬ membership.leading then (membership, none)
    else if outcome ≠ .ok then (membership, none)
    else if countVoters membership.servers ≤ 1 then (membership, none)
    else (membership, some (.removing config.nodeID))
  | .expired nodeID =>
    let membership := { membership with pendingRemoval := membership.pendingRemoval.filter (· ≠ nodeID) }
    if membership.closed then (membership, none)
    else if members.any fun member =>
        decide (member.nodeID = nodeID ∧ (member.status = .alive ∨ member.status = .leaving)) then
      (membership, none)
    else membership.evictMember config nodeID
  | .discovering seen =>
    if outcome ≠ .ok then (membership, none) else (membership, some (.reconciling membership.servers seen))
  | .reconciling _ [] => (membership, none)
  | .reconciling servers (member :: rest) =>
    if member.nodeID = config.nodeID ∨ member.raftAddr = [] then (membership, some (.reconciling servers rest))
    else if member.status ≠ .alive ∨ member.nodeID ∈ membership.evicted then
      (membership, some (.reconciling servers rest))
    else if (findServer servers member.nodeID).isSome then (membership, some (.reconciling servers rest))
    else (membership, some (.changing (.addNonvoter member.nodeID member.raftAddr) (some (servers, rest))))
  | .changing change rest =>
    (membership.ask change outcome, rest.map fun rest => .reconciling rest.1 rest.2)

/-- A thread that has no next phase has returned. -/
def settle (membership : Membership) (index : ℕ) (origin : Origin) : Option Phase → Membership
  | none => { membership with threads := membership.threads.eraseIdx index }
  | some phase => { membership with threads := membership.threads.set index ⟨origin, phase⟩ }

def handleMembershipEvent (config : MembershipConfig) (membership : Membership) (member : NodeInfo) :
    GossipKind → Membership
  | .join | .update =>
    let membership := (membership.cancelPendingRemoval member.nodeID).clearEvicted member.nodeID
    if member.nodeID = config.nodeID ∨ member.raftAddr = [] ∨ ¬ membership.leading then membership
    else membership.start .gossipJoin (.discovered member.nodeID member.raftAddr)
  | .leave =>
    match (membership.cancelPendingRemoval member.nodeID).evictMember config member.nodeID with
    | (membership, none) => membership
    | (membership, some phase) => membership.start .gossipLeave phase
  | .failed => membership.scheduleFailedEviction config member.nodeID

def step (config : MembershipConfig) (membership : Membership) : MembershipEvent → Option Membership
  | .join nodeID address nonVoter =>
    if nodeID = [] ∨ address = [] then some membership
    else if ¬ membership.leading then some membership
    else some ((membership.cancelPendingRemoval nodeID).start .join (.joining nodeID address nonVoter))
  | .leave nodeID =>
    if nodeID = [] then some membership
    else if nodeID = config.nodeID then some (membership.start .leave .transferring)
    else if ¬ membership.leading then some membership
    else some (((membership.cancelPendingRemoval nodeID).markEvicted nodeID).start .leave (.removing nodeID))
  | .gossip kind member =>
    if member.nodeID = [] then some membership else some (membership.handleMembershipEvent config member kind)
  | .fire nodeID =>
    if nodeID ∈ membership.timers then
      some ({ membership with timers := membership.timers.filter (· ≠ nodeID) }.start .failure (.expired nodeID))
    else none
  | .reconcile members =>
    if ¬ membership.leading ∨ members = [] then some membership
    else some (membership.start .reconcile (.discovering members))
  | .advance index outcome members =>
    (membership.threads[index]?).map fun thread =>
      let (next, phase) := membership.resume config outcome members thread.phase
      next.settle index thread.origin phase
  | .stepDown => some { membership with leading := false }
  | .close => some { membership with closed := true }

end Membership

/-! ## Changes of suffrage -/

def suffrageOf (servers : List Server) (nodeID : Bytes) : Option Suffrage :=
  (findServer servers nodeID).map Server.suffrage

private theorem findServer_append (servers : List Server) (fresh : Server) (id : Bytes) :
    findServer (servers ++ [fresh]) id =
      (findServer servers id).or (if fresh.id = id then some fresh else none) := by
  rw [findServer, findServer, List.find?_append]
  by_cases same : fresh.id = id <;> simp [same]

variable {servers : List Server}

private theorem findServer_map {id other : Bytes} {replace : Server → Server}
    (keeps : ∀ server, (replace server).id = id) :
    findServer (servers.map fun server => if server.id = id then replace server else server) other =
      if other = id then (findServer servers id).map replace else findServer servers other := by
  induction servers with
  | nil => simp [findServer]
  | cons server servers ih =>
    simp only [findServer, List.map_cons, List.find?_cons] at ih ⊢
    by_cases found : server.id = id
    · by_cases same : other = id
      · simp [found, same, keeps]
      · simpa [found, same, keeps, Ne.symm same] using ih
    · by_cases same : other = id
      · simpa [found, same] using ih
      · by_cases here : server.id = other
        · simp [same, here]
        · simpa [found, same, here] using ih

/-- The replaced or appended server is the one found; nobody else changes. -/
private theorem suffrageOf_upsertServer {id other : Bytes} {replace : Server → Server} {fresh : Server}
    (keeps : ∀ server, (replace server).id = id) (named : fresh.id = id) :
    suffrageOf (upsertServer servers id replace fresh) other =
      if other = id then some (((findServer servers id).map replace).getD fresh).suffrage
      else suffrageOf servers other := by
  rw [upsertServer, suffrageOf, suffrageOf]
  cases found : findServer servers id with
  | none =>
    rw [if_neg (by simp), findServer_append, named]
    by_cases same : other = id
    · simp [same, found]
    · simp [same, Ne.symm same]
  | some server =>
    rw [Option.isSome_some, if_pos rfl, findServer_map keeps, found]
    split <;> simp

@[simp] theorem suffrageOf_addVoter (servers : List Server) (id address other : Bytes) :
    suffrageOf ((Change.addVoter id address).apply servers) other =
      if other = id then some .voter else suffrageOf servers other := by
  rw [Change.apply, suffrageOf_upsertServer (by simp) (by simp)]
  cases findServer servers id <;> rfl

@[simp] theorem suffrageOf_addNonvoter (servers : List Server) (id address other : Bytes) :
    suffrageOf ((Change.addNonvoter id address).apply servers) other =
      if other = id then some ((suffrageOf servers id).getD .nonvoter) else suffrageOf servers other := by
  rw [Change.apply, suffrageOf_upsertServer (by simp) (by simp), suffrageOf, suffrageOf]
  cases findServer servers id <;> rfl

@[simp] theorem suffrageOf_removeServer (servers : List Server) (id other : Bytes) :
    suffrageOf ((Change.removeServer id).apply servers) other =
      if other = id then none else suffrageOf servers other := by
  rw [Change.apply, suffrageOf, suffrageOf, findServer, findServer, List.find?_filter]
  by_cases same : other = id
  · simp +contextual [same]
  · rw [if_neg same]
    congr 2
    funext server
    by_cases here : server.id = other
    · simp [here, same]
    · simp [here]

/-- A join asks for a voter only if it has found the node in the configuration. -/
theorem joinChange_cases {nodeID address : Bytes} {nonVoter : Bool} {change : Change}
    (decided : joinChange servers nodeID address nonVoter = some change) :
    change = .addNonvoter nodeID address ∨
      change = .addVoter nodeID address ∧ (suffrageOf servers nodeID).isSome = true := by
  rw [joinChange] at decided
  cases found : findServer servers nodeID with
  | none =>
    simp only [found, Option.any_none, Bool.false_eq_true, false_and, or_self, if_false, Option.some.injEq] at decided
    exact .inl decided.symm
  | some server =>
    split at decided
    · contradiction
    · split at decided
      · contradiction
      · split at decided
        · cases decided
          exact .inr ⟨rfl, by simp [suffrageOf, found]⟩
        · cases decided
          exact .inl rfl

/-! ## What a thread can do -/

/-- The phases of a thread that adds a node. -/
def Phase.Adds : Phase → Prop
  | .joining .. | .discovered .. | .changing (.addVoter ..) none | .changing (.addNonvoter ..) none => True
  | _ => False

/-- The thread waits for a node to be made a voter. -/
def Phase.promotes (nodeID : Bytes) : Phase → Bool
  | .changing (.addVoter id _) _ => decide (id = nodeID)
  | _ => false

/-- The node whose removal the thread waits for. -/
def Phase.removal? : Phase → Option Bytes
  | .changing (.removeServer id) _ => some id
  | _ => none

namespace Membership

theorem ask_cases (membership : Membership) (change : Change) (outcome : Outcome) :
    membership.ask change outcome = membership ∨
      outcome = .ok ∧ membership.ask change outcome =
        { membership with servers := change.apply membership.servers } := by
  rw [ask]
  split
  · next taken => exact .inr ⟨taken.1, rfl⟩
  · exact .inl rfl

/-- What a step of a thread in a phase may lead to: the configuration changes only by the change that the thread
waits for, a thread that adds a node goes on adding it, and one that comes to promote a node has just found it. -/
structure Resumes (membership : Membership) (outcome : Outcome) (phase : Phase)
    (result : Membership × Option Phase) : Prop where
  threads : result.1.threads = membership.threads
  servers : result.1.servers = membership.servers ∨ ∃ change rest, phase = .changing change rest ∧ outcome = .ok ∧
    result.1.servers = change.apply membership.servers
  adds : phase.Adds → ∀ later ∈ result.2, later.Adds
  promotes : ∀ later ∈ result.2, ∀ id, later.promotes id = true → (suffrageOf result.1.servers id).isSome = true

section

variable {config : MembershipConfig} {membership next : Membership} {outcome : Outcome} {members : List NodeInfo}
  {phase : Phase}

private theorem Resumes.stop (threads : next.threads = membership.threads)
    (servers : next.servers = membership.servers) : Resumes membership outcome phase (next, none) :=
  ⟨threads, .inl servers, fun _ _ later => (nomatch later), fun _ later => (nomatch later)⟩

/-- A thread that does not add a node reaches a phase that does not promote one. -/
private theorem Resumes.goOn {later : Phase} (threads : next.threads = membership.threads)
    (servers : next.servers = membership.servers) (other : ¬ phase.Adds) (idle : ∀ id, later.promotes id = false) :
    Resumes membership outcome phase (next, some later) := by
  refine ⟨threads, .inl servers, fun adds => absurd adds other, ?_⟩
  rintro _ ⟨⟩ id promoted
  rw [idle] at promoted
  contradiction

private theorem Resumes.change {later : Option Change} (found : ∀ change ∈ later,
      (phase.Adds → (Phase.changing change none).Adds) ∧
        ∀ id, (Phase.changing change none).promotes id = true → (suffrageOf membership.servers id).isSome = true) :
    Resumes membership outcome phase (membership, later.map (.changing · none)) := by
  refine ⟨rfl, .inl rfl, fun adds phase listed => ?_, fun phase listed => ?_⟩
  · obtain ⟨change, decided, rfl⟩ := Option.mem_map.mp listed
    exact (found change decided).1 adds
  · obtain ⟨change, decided, rfl⟩ := Option.mem_map.mp listed
    exact (found change decided).2

private theorem evictMember_resumes {nodeID : Bytes} (threads : next.threads = membership.threads)
    (servers : next.servers = membership.servers) (other : ¬ phase.Adds) :
    Resumes membership outcome phase (next.evictMember config nodeID) := by
  rw [evictMember]
  split
  · exact .stop threads servers
  · exact .goOn threads servers other fun _ => rfl

theorem resume_resumes (config : MembershipConfig) (membership : Membership) (outcome : Outcome)
    (members : List NodeInfo) (phase : Phase) :
    Resumes membership outcome phase (membership.resume config outcome members phase) := by
  cases phase with
  | joining nodeID address nonVoter =>
    simp only [resume]
    split
    · exact .stop rfl rfl
    · refine .change fun change decided => ?_
      rcases joinChange_cases decided with rfl | ⟨rfl, found⟩
      · exact ⟨fun _ => trivial, fun _ promoted => (nomatch promoted)⟩
      · refine ⟨fun _ => trivial, fun id promoted => ?_⟩
        cases of_decide_eq_true promoted
        exact found
  | discovered nodeID address =>
    simp only [resume]
    split
    · exact .stop rfl rfl
    · refine .change fun change decided => ?_
      rw [discoveredChange] at decided
      split at decided
      · cases decided
      · cases decided
        exact ⟨fun _ => trivial, fun _ promoted => (nomatch promoted)⟩
  | removing nodeID =>
    simp only [resume]
    split
    · exact .stop rfl rfl
    · split
      · exact .stop rfl rfl
      · next change decided =>
        refine .change fun change listed => ?_
        rw [removeChange] at decided
        split at decided
        · cases decided
          cases listed
        · split at decided
          · cases decided
          · split at decided
            · cases decided
            · cases decided
              cases listed
              exact ⟨id, fun _ promoted => (nomatch promoted)⟩
  | transferring =>
    simp only [resume]
    split
    · exact .goOn rfl rfl id fun _ => rfl
    · split
      · exact .stop rfl rfl
      · split <;> exact .goOn rfl rfl id fun _ => rfl
  | handingOver =>
    cases outcome with
    | ok => exact .goOn rfl rfl id fun _ => rfl
    | failed => exact .stop rfl rfl
    | inProgress => exact .goOn rfl rfl id fun _ => rfl
  | leavingSelf =>
    simp only [resume]
    split
    · exact .stop rfl rfl
    · split
      · exact .stop rfl rfl
      · split
        · exact .stop rfl rfl
        · exact .goOn rfl rfl id fun _ => rfl
  | expired nodeID =>
    simp only [resume]
    split
    · exact .stop rfl rfl
    · split
      · exact .stop rfl rfl
      · exact evictMember_resumes rfl rfl id
  | discovering seen =>
    simp only [resume]
    split
    · exact .stop rfl rfl
    · exact .goOn rfl rfl id fun _ => rfl
  | reconciling servers seen =>
    cases seen with
    | nil => exact .stop rfl rfl
    | cons member rest =>
      simp only [resume]
      split
      · exact .goOn rfl rfl id fun _ => rfl
      · split
        · exact .goOn rfl rfl id fun _ => rfl
        · split <;> exact .goOn rfl rfl id fun _ => rfl
  | changing change rest =>
    have idle : ∀ later ∈ rest.map fun rest => Phase.reconciling rest.1 rest.2, ∀ id, later.promotes id = false := by
      intro later listed id
      obtain ⟨_, _, rfl⟩ := Option.mem_map.mp listed
      rfl
    have last : (Phase.changing change rest).Adds → rest = none := by
      cases rest with
      | none => exact fun _ => rfl
      | some _ => cases change <;> exact False.elim
    refine ⟨?_, ?_, fun adds later listed => ?_, fun later listed id promoted => ?_⟩
    · rcases membership.ask_cases change outcome with kept | ⟨_, taken⟩
      · exact congrArg threads kept
      · exact (congrArg threads taken).trans rfl
    · rcases membership.ask_cases change outcome with kept | ⟨ok, taken⟩
      · exact .inl (congrArg servers kept)
      · exact .inr ⟨change, rest, rfl, ok, congrArg servers taken⟩
    · rw [last adds] at listed
      cases listed
    · rw [idle later listed] at promoted
      contradiction

end

/-! ## Every interleaving -/

/-- Threads that a join or a gossip event of a new or changed member has started add a node. -/
def Additive (membership : Membership) : Prop :=
  ∀ thread ∈ membership.threads, thread.origin = .join ∨ thread.origin = .gossipJoin → thread.phase.Adds

/-- A node that a thread waits to promote is in the configuration. -/
def Found (membership : Membership) : Prop :=
  ∀ thread ∈ membership.threads, ∀ id, thread.phase.promotes id = true →
    (suffrageOf membership.servers id).isSome = true

/-- No removal of a node takes effect while a join waits to promote it. -/
def keepsPromoted (membership : Membership) : MembershipEvent → Prop
  | .advance index .ok _ =>
      ∀ id ∈ (membership.threads[index]?).bind (Phase.removal? ·.phase),
        ∀ thread ∈ membership.threads, thread.phase.promotes id = false
  | _ => True

instance keepsPromoted.decidable (membership : Membership) : ∀ event, Decidable (membership.keepsPromoted event)
  | .advance index .ok _ => inferInstanceAs (Decidable (∀ id ∈ (membership.threads[index]?).bind
      (Phase.removal? ·.phase), ∀ thread ∈ membership.threads, thread.phase.promotes id = false))
  | .advance _ .failed _ | .advance _ .inProgress _ | .join .. | .leave .. | .gossip .. | .fire .. | .reconcile ..
  | .stepDown | .close => isTrue trivial

/-- The thread an event belongs to was started by a join, or by a gossip event of a new or changed member. -/
def joins (membership : Membership) : MembershipEvent → Prop
  | .join .. | .gossip .join _ | .gossip .update _ => True
  | .advance index _ _ => (membership.threads[index]?).any
      (fun thread => decide (thread.origin = .join ∨ thread.origin = .gossipJoin)) = true
  | _ => False

/-- What an event that starts an operation may do: the configuration stays, and the thread has not read it yet. -/
structure Starts (membership target : Membership) : Prop where
  servers : target.servers = membership.servers
  threads : ∀ thread ∈ target.threads, thread ∈ membership.threads ∨
    (thread.origin = .join ∨ thread.origin = .gossipJoin → thread.phase.Adds) ∧
      ∀ id, thread.phase.promotes id = false

section

variable {config : MembershipConfig} {membership target : Membership} {event : MembershipEvent}

private theorem Starts.none (servers : target.servers = membership.servers)
    (threads : target.threads = membership.threads) : Starts membership target :=
  ⟨servers, fun _ listed => .inl (threads ▸ listed)⟩

private theorem Starts.start {origin : Origin} {phase : Phase} (servers : target.servers = membership.servers)
    (threads : target.threads = membership.threads)
    (adds : origin = .join ∨ origin = .gossipJoin → phase.Adds) (idle : ∀ id, phase.promotes id = false) :
    Starts membership (target.start origin phase) := by
  refine ⟨servers, fun thread listed => ?_⟩
  rcases List.mem_append.mp listed with old | new
  · exact .inl (threads ▸ old)
  · cases List.mem_singleton.mp new
    exact .inr ⟨adds, idle⟩

private theorem scheduleFailedEviction_starts (nodeID : Bytes) :
    Starts membership (membership.scheduleFailedEviction config nodeID) := by
  rw [scheduleFailedEviction]
  split
  · exact .none rfl rfl
  · split
    · exact .none rfl rfl
    · split <;> exact .none rfl rfl

private theorem handleMembershipEvent_starts (member : NodeInfo) (kind : GossipKind) :
    Starts membership (membership.handleMembershipEvent config member kind) := by
  have added : Starts membership (membership.handleMembershipEvent config member .join) := by
    simp only [handleMembershipEvent]
    split
    · exact .none rfl rfl
    · exact .start rfl rfl (fun _ => trivial) fun _ => rfl
  cases kind with
  | join => exact added
  | update => exact added
  | leave =>
    simp only [handleMembershipEvent, evictMember]
    split
    · next stopped =>
      split at stopped
      · cases stopped
        exact .none rfl rfl
      · cases stopped
    · next evicts =>
      split at evicts
      · cases evicts
      · cases evicts
        exact .start rfl rfl (fun origin => by simp at origin) fun _ => rfl
  | failed => exact scheduleFailedEviction_starts member.nodeID

/-- An event starts an operation, or lets a thread go on. -/
theorem step_cases (taken : membership.step config event = some target) :
    Starts membership target ∨ ∃ index outcome members thread, event = .advance index outcome members ∧
      membership.threads[index]? = some thread ∧
      target = (membership.resume config outcome members thread.phase).1.settle index thread.origin
        (membership.resume config outcome members thread.phase).2 := by
  cases event with
  | join nodeID address nonVoter =>
    simp only [step] at taken
    split at taken
    · cases taken
      exact .inl (.none rfl rfl)
    · split at taken
      · cases taken
        exact .inl (.none rfl rfl)
      · cases taken
        exact .inl (.start rfl rfl (fun _ => trivial) fun _ => rfl)
  | leave nodeID =>
    simp only [step] at taken
    split at taken
    · cases taken
      exact .inl (.none rfl rfl)
    · split at taken
      · cases taken
        exact .inl (.start rfl rfl (fun origin => by simp at origin) fun _ => rfl)
      · split at taken
        · cases taken
          exact .inl (.none rfl rfl)
        · cases taken
          exact .inl (.start rfl rfl (fun origin => by simp at origin) fun _ => rfl)
  | gossip kind member =>
    simp only [step] at taken
    split at taken
    · cases taken
      exact .inl (.none rfl rfl)
    · cases taken
      exact .inl (handleMembershipEvent_starts member kind)
  | fire nodeID =>
    simp only [step] at taken
    split at taken
    · cases taken
      exact .inl (.start rfl rfl (fun origin => by simp at origin) fun _ => rfl)
    · contradiction
  | reconcile members =>
    simp only [step] at taken
    split at taken
    · cases taken
      exact .inl (.none rfl rfl)
    · cases taken
      exact .inl (.start rfl rfl (fun origin => by simp at origin) fun _ => rfl)
  | advance index outcome members =>
    simp only [step, Option.map_eq_some_iff] at taken
    obtain ⟨thread, waiting, rfl⟩ := taken
    exact .inr ⟨index, outcome, members, thread, rfl, waiting, rfl⟩
  | stepDown =>
    cases taken
    exact .inl (.none rfl rfl)
  | close =>
    cases taken
    exact .inl (.none rfl rfl)

private theorem servers_settle (index : ℕ) (origin : Origin) (phase : Option Phase) :
    (membership.settle index origin phase).servers = membership.servers := by
  cases phase <;> rfl

private theorem mem_threads_settle {index : ℕ} {origin : Origin} {phase : Option Phase} {thread : Thread}
    (listed : thread ∈ (membership.settle index origin phase).threads) :
    thread ∈ membership.threads ∨ ∃ later ∈ phase, thread = ⟨origin, later⟩ := by
  cases phase with
  | none => exact .inl (List.mem_of_mem_eraseIdx listed)
  | some later =>
    rcases List.mem_or_eq_of_mem_set listed with old | new
    · exact .inl old
    · exact .inr ⟨later, rfl, new⟩

/-- A step keeps a node in the configuration unless it takes the node's removal. -/
private theorem suffrageOf_apply {change : Change} {id : Bytes} (found : (suffrageOf servers id).isSome = true)
    (kept : change ≠ .removeServer id) : (suffrageOf (change.apply servers) id).isSome = true := by
  cases change with
  | addVoter other address =>
    rw [suffrageOf_addVoter]
    split
    · rfl
    · exact found
  | addNonvoter other address =>
    rw [suffrageOf_addNonvoter]
    split
    · rfl
    · exact found
  | removeServer other =>
    rw [suffrageOf_removeServer, if_neg (fun same => kept (congrArg Change.removeServer same.symm))]
    exact found

theorem Additive.step (additive : membership.Additive) (taken : membership.step config event = some target) :
    target.Additive := by
  rcases step_cases taken with starts | ⟨index, outcome, members, thread, rfl, waiting, rfl⟩
  · intro thread listed
    rcases starts.threads thread listed with old | ⟨adds, _⟩
    · exact additive thread old
    · exact adds
  · have resumes := resume_resumes config membership outcome members thread.phase
    intro other listed origin
    rcases mem_threads_settle listed with old | ⟨later, next, rfl⟩
    · exact additive other (resumes.threads ▸ old) origin
    · exact resumes.adds (additive thread (List.mem_of_getElem? waiting) origin) later next

theorem Found.step (found : membership.Found) (keeps : membership.keepsPromoted event)
    (taken : membership.step config event = some target) : target.Found := by
  rcases step_cases taken with starts | ⟨index, outcome, members, thread, rfl, waiting, rfl⟩
  · intro thread listed id promoted
    rcases starts.threads thread listed with old | ⟨_, idle⟩
    · rw [starts.servers]
      exact found thread old id promoted
    · rw [idle] at promoted
      contradiction
  · have resumes := resume_resumes config membership outcome members thread.phase
    intro other listed id promoted
    rw [servers_settle]
    rcases mem_threads_settle listed with old | ⟨later, next, rfl⟩
    · rw [resumes.threads] at old
      rcases resumes.servers with same | ⟨change, rest, phase, rfl, applied⟩
      · rw [same]
        exact found other old id promoted
      · rw [applied]
        refine suffrageOf_apply (found other old id promoted) ?_
        rintro rfl
        have idle := keeps id (by rw [waiting, Option.bind_some, phase]; rfl) other old
        rw [idle] at promoted
        contradiction
    · exact resumes.promotes later next id promoted

/-- A step leaves the configuration alone or takes the change that a thread waits for. -/
private theorem servers_step (taken : membership.step config event = some target) :
    target.servers = membership.servers ∨
      ∃ index outcome members thread change rest, event = .advance index outcome members ∧
        membership.threads[index]? = some thread ∧ thread.phase = .changing change rest ∧
        target.servers = change.apply membership.servers := by
  rcases step_cases taken with starts | ⟨index, outcome, members, thread, rfl, waiting, rfl⟩
  · exact .inl starts.servers
  · rw [servers_settle]
    rcases (resume_resumes config membership outcome members thread.phase).servers with
      same | ⟨change, rest, phase, -, applied⟩
    · exact .inl same
    · exact .inr ⟨index, outcome, members, thread, change, rest, rfl, waiting, phase, applied⟩

theorem Found.absent (found : membership.Found) (taken : membership.step config event = some target) (id : Bytes)
    (absent : suffrageOf membership.servers id = none) : suffrageOf target.servers id ≠ some .voter := by
  rcases servers_step taken with same | ⟨index, outcome, members, thread, change, rest, rfl, waiting, phase, applied⟩
  · rw [same, absent]
    exact nofun
  · rw [applied]
    cases change with
    | addVoter other address =>
      have present := found thread (List.mem_of_getElem? waiting) other (by rw [phase]; exact decide_eq_true rfl)
      rw [suffrageOf_addVoter, if_neg, absent]
      · exact nofun
      · rintro rfl
        simp [absent] at present
    | addNonvoter other address =>
      rw [suffrageOf_addNonvoter]
      split
      · next same => simp [← same, absent]
      · simp [absent]
    | removeServer other =>
      rw [suffrageOf_removeServer]
      split
      · exact nofun
      · simp [absent]

theorem Additive.voter (additive : membership.Additive) (taken : membership.step config event = some target)
    (joins : membership.joins event) (id : Bytes) (voting : suffrageOf membership.servers id = some .voter) :
    suffrageOf target.servers id = some .voter := by
  rcases servers_step taken with same | ⟨index, outcome, members, thread, change, rest, rfl, waiting, phase, applied⟩
  · rw [same, voting]
  · rw [applied]
    cases change with
    | addVoter other address =>
      rw [suffrageOf_addVoter]
      split
      · rfl
      · exact voting
    | addNonvoter other address =>
      rw [suffrageOf_addNonvoter]
      split
      · next same => simp [← same, voting]
      · exact voting
    | removeServer other =>
      simp only [Membership.joins, waiting, Option.any_some, decide_eq_true_eq] at joins
      have adds := additive thread (List.mem_of_getElem? waiting) joins
      rw [phase] at adds
      exact adds.elim

end

def initial (servers : List Server) : Membership := ⟨servers, true, false, [], [], [], []⟩

/-- In every run that lets no removal overtake a join's promotion of the same node, no step makes an absent node a
voter; and in every run no step of a join, or of a gossip event of a new or changed member, takes a voter's vote. -/
theorem enters_as_nonvoter (config : MembershipConfig) (servers : List Server) (events : List MembershipEvent)
    (state : Membership) (run : run? (step config) (initial servers) events = some state) (event : MembershipEvent)
    (target : Membership) (taken : state.step config event = some target) :
    (Meets (step config) keepsPromoted (initial servers) events →
        ∀ id, suffrageOf state.servers id = none → suffrageOf target.servers id ≠ some .voter) ∧
      (state.joins event → ∀ id, suffrageOf state.servers id = some .voter →
        suffrageOf target.servers id = some .voter) := by
  constructor
  · intro keeps
    have start : Found (initial servers) := List.forall_mem_nil _
    exact (run?_invariant_of_meets Found (fun found keeps taken => found.step keeps taken) start keeps run).absent taken
  · have start : Additive (initial servers) := List.forall_mem_nil _
    exact (run?_invariant Additive (fun additive taken => additive.step taken) start run).voter taken

/-- A voter that leads and a nonvoter. -/
def leaderAndReplica : List Server := [⟨[1], [10], .voter⟩, ⟨[2], [20], .nonvoter⟩]

/-- The replica asks for promotion. -/
def promotion : List MembershipEvent := [.join [2] [20] false, .advance 0 .ok []]

/-- The promotion of a replica adds no voter out of nothing. -/
theorem enters_as_nonvoter_promotion :
    ∃ state, run? (step ⟨[1], 0⟩) (initial leaderAndReplica) promotion = some state ∧
      ∃ target, state.step ⟨[1], 0⟩ (.advance 0 .ok []) = some target ∧
        suffrageOf target.servers [2] = some .voter ∧
        ∀ id, suffrageOf state.servers id = none → suffrageOf target.servers id ≠ some .voter := by
  have outcome : (run? (step ⟨[1], 0⟩) (initial leaderAndReplica) promotion).any (fun state =>
      (state.step ⟨[1], 0⟩ (.advance 0 .ok [])).any fun target =>
        decide (suffrageOf target.servers [2] = some .voter)) = true := by
    decide +kernel
  obtain ⟨state, run, outcome⟩ := (Option.any_eq_true _ _).mp outcome
  obtain ⟨target, taken, promoted⟩ := (Option.any_eq_true _ _).mp outcome
  have keeps : Meets (step ⟨[1], 0⟩) keepsPromoted (initial leaderAndReplica) promotion := by
    decide +kernel
  exact ⟨state, run, target, taken, of_decide_eq_true promoted,
    (enters_as_nonvoter ⟨[1], 0⟩ leaderAndReplica promotion state run _ target taken).1 keeps⟩

/-- The removal of the replica takes effect between the two halves of its promotion. -/
def removalInBetween : List MembershipEvent :=
  promotion ++ [.leave [2], .advance 1 .ok [], .advance 1 .ok []]

theorem removalInBetween_adds_voter :
    ∃ state, run? (step ⟨[1], 0⟩) (initial leaderAndReplica) removalInBetween = some state ∧
      ∃ target, state.step ⟨[1], 0⟩ (.advance 0 .ok []) = some target ∧
        suffrageOf state.servers [2] = none ∧ suffrageOf target.servers [2] = some .voter := by
  have outcome : (run? (step ⟨[1], 0⟩) (initial leaderAndReplica) removalInBetween).any (fun state =>
      (state.step ⟨[1], 0⟩ (.advance 0 .ok [])).any fun target =>
        decide (suffrageOf state.servers [2] = none ∧ suffrageOf target.servers [2] = some .voter)) = true := by
    decide +kernel
  obtain ⟨state, run, outcome⟩ := (Option.any_eq_true _ _).mp outcome
  obtain ⟨target, taken, added⟩ := (Option.any_eq_true _ _).mp outcome
  exact ⟨state, run, target, taken, of_decide_eq_true added⟩

end Membership

end PallasDB
