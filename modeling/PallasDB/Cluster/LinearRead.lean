import PallasDB.Cluster.FSM
import PallasDB.Lib.Transition

/-! # Linearizable reads

A node answers a linearizable `Get` without a log entry: `VerifyLeader` confirms that a quorum still follows it, then
the read waits until the FSM has caught up with the commit index of the node. Of Raft it is assumed that quorums meet,
that an elected node has every committed entry in its log, that a leader commits only up to an entry of its own term and
that commit indexes cover committed entries. A new leader may not know yet what its predecessors have committed. A node
that restarts without a snapshot goes through its log again over the store it has kept.
-/

namespace PallasDB

open Transition

inductive EntryKind where
  | command (cmd : Command)
  | noop
  | barrier
  | configuration
deriving DecidableEq

structure RaftEntry where
  term : ℕ
  kind : EntryKind
deriving DecidableEq

/-- What an entry does to the contents of the FSM; only commands are routed to it. -/
def RaftEntry.effect (view : KVMap) (index : ℕ) (entry : RaftEntry) :
    Except Fatal KVMap :=
  match entry.kind with
  | .command cmd => (cmd.effect view index).map Prod.fst
  | _ => .ok view

/-- The contents after a log, whose indexes start at 1; nothing once an entry has aborted the process. -/
def logView (log : List RaftEntry) : Option (KVMap) :=
  log.zipIdx.foldlM (fun view (entry, i) => (entry.effect view (i + 1)).toOption) fun _ => none

structure RaftNode where
  term : ℕ
  leading : Bool
  log : List RaftEntry
  commitIndex : ℕ
  /-- The entries the FSM goroutine has been through. -/
  processed : ℕ
  /-- `FSM.applied`. -/
  applied : ℕ
  store : KVMap

inductive NodeEvent where
  /-- A follower takes over the log of a leader. -/
  | follow (term : ℕ) (log : List RaftEntry)
  | append (kind : EntryKind)
  /-- A node hears of what is committed. -/
  | learn (index : ℕ)
  /-- The FSM goroutine takes the next entry. -/
  | process
  /-- `ObserveAppliedIndex`, once a barrier has come back. -/
  | observe (index : ℕ)
  /-- A snapshot from the leader that is ahead of the node. -/
  | install (index : ℕ)

namespace RaftNode

/-- A no-op and a barrier leave the applied index alone. -/
def process (node : RaftNode) (entry : RaftEntry) : Option RaftNode :=
  (entry.effect node.store (node.processed + 1)).toOption.map fun view => { node with
    store := view
    processed := node.processed + 1
    applied := match entry.kind with
      | .command _ | .configuration => max node.applied (node.processed + 1)
      | .noop | .barrier => node.applied }

/-- A node that goes on from a snapshot. -/
def resume (node : RaftNode) (committed : List RaftEntry) (index applied : ℕ) : Option RaftNode :=
  if index ≤ committed.length then
    (logView (committed.take index)).map fun view =>
      ⟨node.term, false, committed.take index, index, index, applied, view⟩
  else none

/-- A node that comes up without a snapshot: the store is durable, and the FSM begins with the first entry again. -/
def replay (node : RaftNode) : RaftNode :=
  { node with leading := false, commitIndex := 0, processed := 0, applied := 0 }

/-- What happens on one node. Raft ensures that committed entries are not overwritten and that a commit index covers
committed entries only. -/
def step (committed : List RaftEntry) (node : RaftNode) : NodeEvent → Option RaftNode
  | .follow term log =>
      if node.term ≤ term ∧ log.take node.commitIndex = node.log.take node.commitIndex then
        some { node with term := term, leading := false, log := log }
      else none
  | .append kind => if node.leading then some { node with log := node.log ++ [⟨node.term, kind⟩] } else none
  | .learn index =>
      if node.commitIndex ≤ index ∧ index ≤ committed.length ∧ node.log.take index = committed.take index then
        some { node with commitIndex := index }
      else none
  | .process => if node.processed < node.commitIndex then node.log[node.processed]?.bind node.process else none
  | .observe index => if index ≤ node.processed then some { node with applied := max node.applied index } else none
  | .install index => if node.commitIndex ≤ index then node.resume committed index node.applied else none

end RaftNode

/-- How far a `Get` has come. -/
inductive ReadPhase where
  | unsent
  | received
  | verified (term : ℕ)
  | waiting (index : ℕ)
  | ready
  | answered (value : Option Bytes)
  | dropped
deriving DecidableEq

/-- A request that a node is serving. -/
def ReadPhase.pending : ReadPhase → Bool
  | .received | .verified _ | .waiting _ | .ready => true
  | .unsent | .answered _ | .dropped => false

structure LinearRead where
  node : ℕ
  key : Bytes
  /-- The last index that had been acknowledged when the request was received. -/
  since : ℕ
  phase : ReadPhase

structure RaftCluster where
  committed : List RaftEntry
  /-- The terms that have had a leader, and which. -/
  elected : List (ℕ × ℕ)
  nodes : ℕ → RaftNode
  /-- The last index whose write has been acknowledged to a client. -/
  acked : ℕ
  reads : ℕ → LinearRead

/-- The quorums of a configuration. -/
structure Quorums where
  accepts : List ℕ → Bool
  meet : ∀ first second, accepts first = true → accepts second = true → ∃ voter ∈ first, voter ∈ second

inductive RaftEvent where
  | elect (id term : ℕ) (voters : List ℕ)
  | node (id : ℕ) (event : NodeEvent)
  | commit (id index : ℕ)
  /-- A node comes up, from a snapshot if it has one; the requests it was serving are gone. -/
  | restart (id : ℕ) (snapshot : Option ℕ)
  | acknowledge (id index : ℕ)
  | get (read id : ℕ) (key : Bytes)
  /-- The next move of a `Get`, with those who answer its heartbeat. -/
  | proceed (read : ℕ) (voters : List ℕ)

variable {id : ℕ} {node : RaftNode} {read : LinearRead} {voters : List ℕ}

namespace RaftCluster

def fresh : RaftCluster :=
  ⟨[], [], fun _ => ⟨0, false, [], 0, 0, 0, fun _ => none⟩, 0, fun _ => ⟨0, [], 0, .unsent⟩⟩

def setNode (state : RaftCluster) (id : ℕ) (node : RaftNode) : RaftCluster :=
  { state with nodes := Function.update state.nodes id node }

def setRead (state : RaftCluster) (id : ℕ) (read : LinearRead) : RaftCluster :=
  { state with reads := Function.update state.reads id read }

/-- A log as the leader of a term may have it. -/
def OrderedLog (term : ℕ) (log : List RaftEntry) : Prop :=
  log.Pairwise (fun first second => first.term ≤ second.term) ∧ ∀ entry ∈ log, entry.term ≤ term

instance decidableOrderedLog (term : ℕ) (log : List RaftEntry) : Decidable (OrderedLog term log) :=
  inferInstanceAs (Decidable (_ ∧ _))

/-- The winner adds a no-op of its term to its log, and the voters follow it. -/
def afterElection (state : RaftCluster) (id term : ℕ) (voters : List ℕ) (other : ℕ) : RaftNode :=
  if other = id then
    { state.nodes other with term := term, leading := true, log := (state.nodes other).log ++ [⟨term, .noop⟩] }
  else if other ∈ voters then { state.nodes other with term := term, leading := false }
  else state.nodes other

def drop (state : RaftCluster) (id : ℕ) : RaftCluster :=
  { state with reads := fun read =>
      if (state.reads read).node = id ∧ (state.reads read).phase.pending = true
      then { state.reads read with phase := .dropped } else state.reads read }

/-- `readReady` and `FSM.Get`. -/
def proceed (quorums : Quorums) (state : RaftCluster) (read : LinearRead) (voters : List ℕ) : Option ReadPhase :=
  match read.phase with
  | .received =>
      -- `VerifyLeader`
      if (state.nodes read.node).leading = true ∧ quorums.accepts voters = true ∧
        (∀ voter ∈ voters, (state.nodes voter).term = (state.nodes read.node).term)
      then some (.verified (state.nodes read.node).term) else none
  | .verified _ => some (.waiting (state.nodes read.node).commitIndex)
  | .waiting index => if index ≤ (state.nodes read.node).applied then some .ready else none
  | .ready => some (.answered ((state.nodes read.node).store read.key))
  | .unsent | .answered _ | .dropped => none

/-- Raft ensures that an elected node has every committed entry and that a leader commits only up to an entry of its
own term. A write is acknowledged by the leader that took it, once its FSM has applied it. -/
def step (quorums : Quorums) (state : RaftCluster) : RaftEvent → Option RaftCluster
  | .elect id term voters =>
      if quorums.accepts voters = true ∧ (∀ voter ∈ voters, (state.nodes voter).term < term) ∧ id ∈ voters ∧
        OrderedLog term (state.nodes id).log ∧ state.committed <+: (state.nodes id).log
      then some { state with elected := (term, id) :: state.elected, nodes := state.afterElection id term voters }
      else none
  | .node id event => ((state.nodes id).step state.committed event).map (state.setNode id)
  | .commit id index =>
      if (state.nodes id).leading = true ∧
        ((state.nodes id).log[index - 1]?).map RaftEntry.term = some (state.nodes id).term ∧
        state.committed <+: (state.nodes id).log.take index
      then some { state with committed := (state.nodes id).log.take index } else none
  | .restart id none => some ((state.drop id).setNode id (state.nodes id).replay)
  | .restart id (some index) => ((state.nodes id).resume state.committed index 0).map ((state.drop id).setNode id)
  | .acknowledge id index =>
      if index ≤ (state.nodes id).processed ∧
        (state.committed[index - 1]?).any (fun entry => decide ((entry.term, id) ∈ state.elected)) = true
      then some { state with acked := max state.acked index } else none
  | .get read id key =>
      if (state.reads read).phase = .unsent then some (state.setRead read ⟨id, key, state.acked, .received⟩) else none
  | .proceed read voters => (state.proceed quorums (state.reads read) voters).map fun phase =>
      state.setRead read { state.reads read with phase := phase }

/-- The commit index that a read is about to wait for covers an entry of the term in which its node was confirmed. -/
def covers (state : RaftCluster) (read : LinearRead) : Bool :=
  match read.phase with
  | .verified term => ((state.nodes read.node).log.take (state.nodes read.node).commitIndex).any fun entry =>
      decide (entry.term = term)
  | _ => true

/-- No node goes through its log again, and reads wait for an entry of the term they were confirmed in. -/
def confirmed (state : RaftCluster) : RaftEvent → Bool
  | .proceed read _ => state.covers (state.reads read)
  | .restart _ snapshot => snapshot.isSome
  | _ => true

/-! ## Invariants -/

/-- What a node knows is committed, and its FSM has gone through a part of it. -/
structure NodeOk (state : RaftCluster) (id : ℕ) (node : RaftNode) : Prop where
  leads : node.leading = true → (node.term, id) ∈ state.elected ∧ OrderedLog node.term node.log
  known : node.commitIndex ≤ state.committed.length
  agrees : node.log.take node.commitIndex = state.committed.take node.commitIndex
  processed : node.processed ≤ node.commitIndex
  applied : node.applied ≤ node.processed
  store : logView (state.committed.take node.processed) = some node.store

/-- A read will cover, or has covered, what was acknowledged before it was received. -/
def ReadOk (state : RaftCluster) (read : LinearRead) : Prop :=
  match read.phase with
  | .unsent | .dropped => True
  | .received => read.since ≤ state.acked
  | .verified term => read.since ≤ state.acked ∧ (read.since ≤ (state.nodes read.node).commitIndex ∨
      ∀ entry ∈ state.committed.take read.since, entry.term < term)
  | .waiting index => read.since ≤ index
  | .ready => read.since ≤ (state.nodes read.node).processed
  | .answered value => ∃ index view, read.since ≤ index ∧ index ≤ state.committed.length ∧
      logView (state.committed.take index) = some view ∧ value = view read.key

structure ReadInv (quorums : Quorums) (state : RaftCluster) : Prop where
  quorate : ∀ rule ∈ state.elected, ∃ voters, quorums.accepts voters = true ∧
    ∀ voter ∈ voters, rule.1 ≤ (state.nodes voter).term
  single : ∀ term one two, (term, one) ∈ state.elected → (term, two) ∈ state.elected → one = two
  ordered : state.committed.Pairwise fun first second => first.term ≤ second.term
  ruled : ∀ entry ∈ state.committed, ∃ rule ∈ state.elected, entry.term ≤ rule.1
  nodes : ∀ id, NodeOk state id (state.nodes id)
  acked : state.acked ≤ state.committed.length
  /-- The leader that has acknowledged an entry of its term knows that it is committed. -/
  latest : ∀ entry, state.committed[state.acked - 1]? = some entry → ∀ id, (state.nodes id).leading = true →
    (state.nodes id).term = entry.term → 0 < state.acked → state.acked ≤ (state.nodes id).commitIndex
  reads : ∀ read, ReadOk state (state.reads read)

variable {quorums : Quorums} {state target : RaftCluster}

theorem nodes_setNode (id : ℕ) (node : RaftNode) (other : ℕ) :
    (state.setNode id node).nodes other = if other = id then node else state.nodes other := Function.update_apply ..

theorem reads_setRead (id : ℕ) (read : LinearRead) (other : ℕ) :
    (state.setRead id read).reads other = if other = id then read else state.reads other := Function.update_apply ..

private theorem take_committed (grows : state.committed <+: target.committed) {index : ℕ}
    (inside : index ≤ state.committed.length) : target.committed.take index = state.committed.take index := by
  obtain ⟨rest, same⟩ := grows
  rw [← same, List.take_append_of_le_length inside]

theorem NodeOk.mono (ok : NodeOk state id node) (elected : state.elected ⊆ target.elected)
    (grows : state.committed <+: target.committed) : NodeOk target id node where
  leads leading := ⟨elected (ok.leads leading).1, (ok.leads leading).2⟩
  known := ok.known.trans grows.length_le
  agrees := ok.agrees.trans (take_committed grows ok.known).symm
  processed := ok.processed
  applied := ok.applied
  store := by
    rw [take_committed grows (ok.processed.trans ok.known)]
    exact ok.store

/-- A read stays in order as long as its node does not lose what it knows. -/
theorem ReadOk.mono (ok : ReadOk state read) (bounded : state.acked ≤ state.committed.length)
    (grows : state.committed <+: target.committed) (acked : state.acked ≤ target.acked)
    (kept : (state.nodes read.node).commitIndex ≤ (target.nodes read.node).commitIndex ∧
      (state.nodes read.node).processed ≤ (target.nodes read.node).processed) : ReadOk target read := by
  unfold ReadOk at ok ⊢
  split at ok
  · trivial
  · trivial
  · exact ok.trans acked
  · refine ⟨ok.1.trans acked, ok.2.imp (fun covered => covered.trans kept.1) fun older => ?_⟩
    rwa [take_committed grows (ok.1.trans bounded)]
  · exact ok
  · exact ok.trans kept.2
  · obtain ⟨index, view, since, inside, shows, same⟩ := ok
    exact ⟨index, view, since, inside.trans grows.length_le, by rw [take_committed grows inside, shows], same⟩

/-- A request that no node is serving does not depend on the nodes. -/
theorem ReadOk.setNode (ok : ReadOk state read) (idle : read.phase.pending = false) :
    ReadOk (state.setNode id node) read := by
  unfold ReadOk at ok ⊢
  cases reached : read.phase with
  | unsent | dropped => trivial
  | answered value =>
    rw [reached] at ok
    exact ok
  | received | verified | waiting | ready => simp [reached, ReadPhase.pending] at idle

/-- Two quorums meet, so a term of which a quorum has heard is no higher than one that a quorum is still in. -/
theorem ReadInv.elected_le (inv : ReadInv quorums state) (accepted : quorums.accepts voters = true) {term : ℕ}
    (within : ∀ voter ∈ voters, (state.nodes voter).term ≤ term) : ∀ rule ∈ state.elected, rule.1 ≤ term := by
  intro rule member
  obtain ⟨others, also, heard⟩ := inv.quorate rule member
  obtain ⟨voter, one, two⟩ := quorums.meet _ _ accepted also
  exact (heard voter two).trans (within voter one)

/-- A change of one node. -/
theorem ReadInv.setNode (inv : ReadInv quorums state) (ok : NodeOk state id node)
    (term : (state.nodes id).term ≤ node.term)
    (leading : node.leading = true → (state.nodes id).leading = true ∧ node.term = (state.nodes id).term)
    (kept : ((state.nodes id).commitIndex ≤ node.commitIndex ∧ (state.nodes id).processed ≤ node.processed) ∨
      node.leading = false ∧ ∀ read, (state.reads read).node = id → (state.reads read).phase.pending = false) :
    ReadInv quorums (state.setNode id node) := by
  have terms (other : ℕ) : (state.nodes other).term ≤ ((state.setNode id node).nodes other).term := by
    rw [nodes_setNode]
    split
    · next same => rwa [same]
    · exact le_rfl
  refine ⟨?_, inv.single, inv.ordered, inv.ruled, ?_, inv.acked, ?_, ?_⟩
  · intro rule member
    obtain ⟨voters, accepted, heard⟩ := inv.quorate rule member
    exact ⟨voters, accepted, fun voter among => (heard voter among).trans (terms voter)⟩
  · intro other
    rw [nodes_setNode]
    split
    · next same =>
      subst same
      exact ok.mono (List.Subset.refl _) (List.prefix_refl _)
    · exact (inv.nodes other).mono (List.Subset.refl _) (List.prefix_refl _)
  · intro entry found other
    rw [nodes_setNode]
    split
    · next same =>
      intro leads own some
      obtain ⟨before, termSame⟩ := leading leads
      rcases kept with ⟨more, _⟩ | ⟨stopped, _⟩
      · exact (inv.latest entry found id before (termSame ▸ own) some).trans more
      · rw [stopped] at leads
        contradiction
    · exact inv.latest entry found other
  · intro read
    by_cases own : (state.reads read).node = id
    · rcases kept with more | ⟨_, idle⟩
      · refine (inv.reads read).mono inv.acked (List.prefix_refl _) le_rfl ?_
        rw [own]
        simpa [RaftCluster.setNode] using more
      · exact (inv.reads read).setNode (idle read own)
    · refine (inv.reads read).mono inv.acked (List.prefix_refl _) le_rfl ?_
      simp [RaftCluster.setNode, own]

/-- A change of one read. -/
theorem ReadInv.setRead (inv : ReadInv quorums state) (ok : ReadOk state read) :
    ReadInv quorums (state.setRead id read) := by
  refine ⟨inv.quorate, inv.single, inv.ordered, inv.ruled, ?_, inv.acked, inv.latest, ?_⟩
  · exact fun other => (inv.nodes other).mono (List.Subset.refl _) (List.prefix_refl _)
  · intro other
    have kept {value : LinearRead} (fine : ReadOk state value) : ReadOk (state.setRead id read) value :=
      fine.mono inv.acked (List.prefix_refl _) le_rfl ⟨le_rfl, le_rfl⟩
    rw [reads_setRead]
    split
    · exact kept ok
    · exact kept (inv.reads other)

theorem OrderedLog.concat {term : ℕ} {log : List RaftEntry} (ordered : OrderedLog term log) (kind : EntryKind) :
    OrderedLog term (log ++ [⟨term, kind⟩]) := by
  refine ⟨List.pairwise_append.mpr ⟨ordered.1, List.pairwise_singleton .., ?_⟩, ?_⟩
  · intro entry member last same
    rw [List.mem_singleton.mp same]
    exact ordered.2 entry member
  · intro entry member
    rcases List.mem_append.mp member with old | last
    · exact ordered.2 entry old
    · rw [List.mem_singleton.mp last]

/-- A node has the entries that it knows to be committed. -/
theorem NodeOk.take_append (ok : NodeOk state id node) (more : List RaftEntry) :
    (node.log ++ more).take node.commitIndex = state.committed.take node.commitIndex := by
  have sizes := congrArg List.length ok.agrees
  rw [List.length_take, List.length_take, Nat.min_eq_left ok.known] at sizes
  rw [List.take_append_of_le_length (by omega), ok.agrees]

section

variable (inv : ReadInv quorums state)

include inv

theorem ReadInv.elect {term : ℕ} (accepted : quorums.accepts voters = true)
    (lower : ∀ voter ∈ voters, (state.nodes voter).term < term) (member : id ∈ voters)
    (ordered : OrderedLog term (state.nodes id).log) : ReadInv quorums
      { state with elected := (term, id) :: state.elected, nodes := state.afterElection id term voters } := by
  have below : ∀ rule ∈ state.elected, rule.1 < term := fun rule among => by
    have small := inv.elected_le accepted (fun voter voted => Nat.le_sub_one_of_lt (lower voter voted)) rule among
    have positive := lower id member
    omega
  have raised (other : ℕ) : (state.nodes other).term ≤ (state.afterElection id term voters other).term := by
    rw [afterElection]
    split
    · next same => exact same ▸ (lower id member).le
    · split
      · next voted => exact (lower other voted).le
      · exact le_rfl
  have kept (other : ℕ) : (state.nodes other).commitIndex ≤ (state.afterElection id term voters other).commitIndex ∧
      (state.nodes other).processed ≤ (state.afterElection id term voters other).processed := by
    rw [afterElection]
    split
    · exact ⟨le_rfl, le_rfl⟩
    · split <;> exact ⟨le_rfl, le_rfl⟩
  refine ⟨?_, ?_, inv.ordered, ?_, fun other => ?_, inv.acked, fun entry found other => ?_,
    fun read => (inv.reads read).mono inv.acked (List.prefix_refl _) le_rfl (kept _)⟩
  · intro rule among
    rcases List.mem_cons.mp among with rfl | old
    · refine ⟨voters, accepted, fun voter voted => ?_⟩
      simp only [afterElection, if_pos voted]
      split <;> exact le_rfl
    · obtain ⟨others, also, heard⟩ := inv.quorate rule old
      exact ⟨others, also, fun voter voted => (heard voter voted).trans (raised voter)⟩
  · intro ruled one two first second
    rcases List.mem_cons.mp first with same | old <;> rcases List.mem_cons.mp second with also | older
    · rw [(Prod.mk.inj same).2, (Prod.mk.inj also).2]
    · exact absurd (below _ older) (by rw [(Prod.mk.inj same).1]; exact lt_irrefl _)
    · exact absurd (below _ old) (by rw [(Prod.mk.inj also).1]; exact lt_irrefl _)
    · exact inv.single ruled one two old older
  · intro entry among
    obtain ⟨rule, old, small⟩ := inv.ruled entry among
    exact ⟨rule, List.mem_cons_of_mem _ old, small⟩
  · have ok := inv.nodes other
    dsimp only
    rw [afterElection]
    split
    · next same =>
      subst same
      exact ⟨fun _ => ⟨List.mem_cons_self .., ordered.concat .noop⟩, ok.known, ok.take_append _, ok.processed,
        ok.applied, ok.store⟩
    · split
      · exact ⟨by simp, ok.known, ok.agrees, ok.processed, ok.applied, ok.store⟩
      · exact ok.mono (List.subset_cons_self ..) (List.prefix_refl _)
  · dsimp only at found ⊢
    rw [afterElection]
    split
    · intro _ own
      obtain ⟨rule, old, small⟩ := inv.ruled entry (List.mem_of_getElem? found)
      exact absurd (small.trans_lt (below rule old)) (own ▸ lt_irrefl _)
    · split
      · simp
      · exact inv.latest entry found other

theorem ReadInv.commit {index : ℕ} (leading : (state.nodes id).leading = true)
    (grows : state.committed <+: (state.nodes id).log.take index) :
    ReadInv quorums { state with committed := (state.nodes id).log.take index } := by
  obtain ⟨rules, ordered⟩ := (inv.nodes id).leads leading
  refine ⟨inv.quorate, inv.single, ordered.1.sublist (List.take_sublist _ _),
    fun other among => ⟨_, rules, ordered.2 other (List.mem_of_mem_take among)⟩,
    fun other => (inv.nodes other).mono (List.Subset.refl _) grows, inv.acked.trans grows.length_le, ?_,
    fun read => (inv.reads read).mono inv.acked grows le_rfl ⟨le_rfl, le_rfl⟩⟩
  intro last there other leads same positive
  refine inv.latest last ?_ other leads same positive
  have acked := inv.acked
  dsimp only at there positive
  obtain ⟨rest, whole⟩ := grows
  rwa [← whole, List.getElem?_append_left (by omega)] at there

theorem ReadInv.acknowledge {index : ℕ} (through : index ≤ (state.nodes id).processed)
    {entry : RaftEntry} (found : state.committed[index - 1]? = some entry) (ruled : (entry.term, id) ∈ state.elected) :
    ReadInv quorums { state with acked := max state.acked index } := by
  have ok := inv.nodes id
  refine ⟨inv.quorate, inv.single, inv.ordered, inv.ruled,
    fun other => (inv.nodes other).mono (List.Subset.refl _) (List.prefix_refl _),
    max_le inv.acked (through.trans (ok.processed.trans ok.known)), ?_,
    fun read => (inv.reads read).mono inv.acked (List.prefix_refl _) (le_max_left ..) ⟨le_rfl, le_rfl⟩⟩
  rcases Nat.le_total index state.acked with old | new
  · rw [max_eq_left old]
    exact inv.latest
  · rw [max_eq_right new]
    intro last there other leads same _
    cases found.symm.trans there
    obtain rfl := inv.single _ _ _ ruled (same ▸ ((inv.nodes other).leads leads).1)
    exact through.trans ok.processed

/-- What `VerifyLeader` is good for: whatever was acknowledged before is known to the node or of an earlier term. -/
theorem ReadInv.verified (since : read.since ≤ state.acked)
    (leading : (state.nodes read.node).leading = true) (accepted : quorums.accepts voters = true)
    (within : ∀ voter ∈ voters, (state.nodes voter).term = (state.nodes read.node).term) :
    read.since ≤ (state.nodes read.node).commitIndex ∨
      ∀ entry ∈ state.committed.take read.since, entry.term < (state.nodes read.node).term := by
  have newest : ∀ entry ∈ state.committed, entry.term ≤ (state.nodes read.node).term := fun entry member => by
    obtain ⟨rule, ruled, small⟩ := inv.ruled entry member
    exact small.trans (inv.elected_le accepted (fun voter voted => (within voter voted).le) rule ruled)
  refine or_iff_not_imp_left.mpr fun behind entry member => ?_
  by_contra later
  obtain ⟨i, inside, rfl⟩ := List.getElem_of_mem member
  rw [List.length_take] at inside
  have acked := inv.acked
  -- the last acknowledged entry is of this term as well, so the node has acknowledged it itself
  have last : state.acked - 1 < state.committed.length := by omega
  have ordered : (state.committed.take read.since)[i].term ≤ state.committed[state.acked - 1].term := by
    rw [List.getElem_take]
    rcases Nat.lt_or_ge i (state.acked - 1) with less | same
    · exact List.pairwise_iff_getElem.mp inv.ordered i _ (by omega) last less
    · obtain rfl : i = state.acked - 1 := by omega
      exact le_rfl
  have own := Nat.le_antisymm ((not_lt.mp later).trans ordered) (newest _ (List.getElem_mem last))
  exact behind (since.trans (inv.latest _ (List.getElem?_eq_getElem last) _ leading own (by omega)))

/-- A read moves on. -/
theorem ReadInv.proceed (ok : ReadOk state read) (confirmed : state.covers read = true)
    {phase : ReadPhase} (moves : state.proceed quorums read voters = some phase) :
    ReadOk state { read with phase := phase } := by
  have node := inv.nodes read.node
  rw [RaftCluster.proceed] at moves
  rw [ReadOk] at ok
  cases reached : read.phase with
  | received =>
    simp only [reached] at moves ok
    split at moves
    · next held =>
      cases moves
      exact ⟨ok, inv.verified ok held.1 held.2.1 held.2.2⟩
    · contradiction
  | verified term =>
    simp only [reached] at moves ok
    cases moves
    simp only [covers, reached, List.any_eq_true, decide_eq_true_eq] at confirmed
    obtain ⟨entry, member, own⟩ := confirmed
    refine ok.2.elim id fun older => ?_
    rw [node.agrees] at member
    by_contra short
    exact (older entry (List.take_subset_take_left _ (not_le.mp short).le member)).ne own
  | waiting index =>
    simp only [reached] at moves ok
    split at moves
    · next enough =>
      cases moves
      exact ok.trans (enough.trans node.applied)
    · contradiction
  | ready =>
    simp only [reached] at moves ok
    cases moves
    exact ⟨_, _, ok, node.processed.trans node.known, node.store, rfl⟩
  | unsent | answered | dropped => simp [reached] at moves

end

theorem logView_concat (log : List RaftEntry) (entry : RaftEntry) : logView (log ++ [entry]) =
    (logView log).bind fun view => (entry.effect view (log.length + 1)).toOption := by
  simp only [logView, List.zipIdx_append, List.foldlM_append, List.zipIdx_singleton, List.foldlM_cons, List.foldlM_nil,
    Nat.zero_add, bind_pure]
  rfl

theorem nodeOk_resume {id index applied : ℕ} {node after : RaftNode} (behind : applied ≤ index)
    (resumed : node.resume state.committed index applied = some after) :
    NodeOk state id after ∧ after.term = node.term ∧ after.leading = false ∧ after.commitIndex = index ∧
      after.processed = index := by
  rw [RaftNode.resume] at resumed
  split at resumed
  · next inside =>
    obtain ⟨view, shows, rfl⟩ := Option.map_eq_some_iff.mp resumed
    exact ⟨⟨by simp, inside, by simp, le_rfl, behind, shows⟩, rfl, rfl, rfl, rfl⟩
  · contradiction

/-- What happens on a node keeps what it knows and takes no lead. -/
theorem NodeOk.step {after : RaftNode} {event : NodeEvent} (ok : NodeOk state id node)
    (taken : node.step state.committed event = some after) :
    NodeOk state id after ∧ node.term ≤ after.term ∧
      (after.leading = true → node.leading = true ∧ after.term = node.term) ∧
      node.commitIndex ≤ after.commitIndex ∧ node.processed ≤ after.processed := by
  have covered := ok.processed
  cases event with
  | follow term log =>
    obtain ⟨⟨raised, same⟩, rfl⟩ := of_guarded taken
    exact ⟨⟨by simp, ok.known, same.trans ok.agrees, covered, ok.applied, ok.store⟩, raised, by simp, le_rfl, le_rfl⟩
  | append kind =>
    obtain ⟨leading, rfl⟩ := of_guarded taken
    exact ⟨⟨fun leads => ⟨(ok.leads leads).1, (ok.leads leads).2.concat kind⟩, ok.known, ok.take_append _, covered,
      ok.applied, ok.store⟩, le_rfl, fun leads => ⟨leads, rfl⟩, le_rfl, le_rfl⟩
  | learn index =>
    obtain ⟨⟨more, known, same⟩, rfl⟩ := of_guarded taken
    exact ⟨⟨ok.leads, known, same, covered.trans more, ok.applied, ok.store⟩, le_rfl, fun leads => ⟨leads, rfl⟩,
      more, le_rfl⟩
  | observe index =>
    obtain ⟨through, rfl⟩ := of_guarded taken
    exact ⟨⟨ok.leads, ok.known, ok.agrees, covered, max_le ok.applied through, ok.store⟩, le_rfl,
      fun leads => ⟨leads, rfl⟩, le_rfl, le_rfl⟩
  | install index =>
    obtain ⟨more, resumed⟩ := Option.ite_none_right_eq_some.mp taken
    obtain ⟨after, term, stopped, commitIndex, processed⟩ :=
      @nodeOk_resume state id _ _ _ _ (ok.applied.trans (covered.trans more)) resumed
    exact ⟨after, term.ge, by simp [stopped], commitIndex ▸ more, processed ▸ covered.trans more⟩
  | process =>
    obtain ⟨more, found⟩ := Option.ite_none_right_eq_some.mp taken
    obtain ⟨entry, there, processed⟩ := Option.bind_eq_some_iff.mp found
    obtain ⟨view, applied, rfl⟩ := Option.map_eq_some_iff.mp processed
    have known := more.trans_le ok.known
    have own : state.committed[node.processed]? = some entry := by
      rw [← List.getElem?_take_of_lt more, ← ok.agrees, List.getElem?_take_of_lt more, there]
    refine ⟨⟨ok.leads, ok.known, ok.agrees, more, ?_, ?_⟩, le_rfl, fun leads => ⟨leads, rfl⟩, le_rfl, Nat.le_succ _⟩
    · have before := ok.applied
      dsimp only
      split <;> omega
    · rw [List.take_succ_eq_append_getElem known, (List.getElem?_eq_some_iff.mp own).2, logView_concat, ok.store,
        Option.bind_some, List.length_take, Nat.min_eq_left known.le, applied]

theorem ReadInv.drop (inv : ReadInv quorums state) (id : ℕ) : ReadInv quorums (state.drop id) := by
  refine ⟨inv.quorate, inv.single, inv.ordered, inv.ruled,
    fun other => (inv.nodes other).mono (List.Subset.refl _) (List.prefix_refl _), inv.acked, inv.latest,
      fun read => ?_⟩
  dsimp only [RaftCluster.drop]
  split
  · trivial
  · exact (inv.reads read).mono inv.acked (List.prefix_refl _) le_rfl ⟨le_rfl, le_rfl⟩

theorem ReadInv.step (inv : ReadInv quorums state) {event : RaftEvent} (confirmed : state.confirmed event = true)
    (taken : state.step quorums event = some target) : ReadInv quorums target := by
  cases event with
  | elect id term voters =>
    obtain ⟨⟨accepted, lower, member, ordered, _⟩, rfl⟩ := of_guarded taken
    exact inv.elect accepted lower member ordered
  | node id event =>
    obtain ⟨after, moved, rfl⟩ := Option.map_eq_some_iff.mp taken
    obtain ⟨ok, term, leading, kept⟩ := (inv.nodes id).step moved
    exact inv.setNode ok term leading (.inl kept)
  | commit id index =>
    obtain ⟨⟨leading, _, grows⟩, rfl⟩ := of_guarded taken
    exact inv.commit leading grows
  | restart id snapshot =>
    obtain ⟨index, rfl⟩ := Option.isSome_iff_exists.mp confirmed
    obtain ⟨after, resumed, rfl⟩ := Option.map_eq_some_iff.mp taken
    obtain ⟨ok, term, stopped, _⟩ := @nodeOk_resume (state.drop id) id _ _ _ _ (Nat.zero_le index) resumed
    refine (inv.drop id).setNode ok term.ge (by simp [stopped]) (.inr ⟨stopped, fun read own => ?_⟩)
    simp only [RaftCluster.drop] at own ⊢
    split at own
    · next both => rw [if_pos both]; rfl
    · next other => rw [if_neg other]; simpa [own] using other
  | acknowledge id index =>
    obtain ⟨⟨through, noted⟩, rfl⟩ := of_guarded taken
    obtain ⟨entry, found, ruled⟩ := (Option.any_eq_true _ _).mp noted
    exact inv.acknowledge through found (by simpa using ruled)
  | get read id key =>
    obtain ⟨_, rfl⟩ := of_guarded taken
    exact inv.setRead (le_refl state.acked)
  | proceed read voters =>
    obtain ⟨phase, moves, rfl⟩ := Option.map_eq_some_iff.mp taken
    exact inv.setRead (inv.proceed (inv.reads read) confirmed moves)

end RaftCluster

end PallasDB
