import PallasDB.Db.Bytes
import PallasDB.Lib.Transition
import Mathlib.Data.List.Sort
import Mathlib.Data.Finset.Card

/-! # Bootstrapping a cluster

A node that waits for `BootstrapExpect` members looks at the members gossip has shown it, takes the expected number
of lowest IDs and bootstraps if the first of them is its own. Views differ between nodes. If as many nodes are
started as are expected, a view that is large enough holds all of them and only the lowest one bootstraps. With one
node more, two views can miss each other's lowest node.
-/

namespace PallasDB

open Transition

inductive MemberStatus where
  | unknown
  | alive
  | leaving
  | left
  | failed
deriving DecidableEq, Repr

/-- A member learnt by gossip. -/
structure NodeInfo where
  nodeID : Bytes
  raftAddr : Bytes
  status : MemberStatus
deriving DecidableEq

inductive Suffrage where
  | voter
  | nonvoter
deriving DecidableEq, Repr

structure Server where
  id : Bytes
  address : Bytes
  suffrage : Suffrage
deriving DecidableEq

/-- One round of the loop of `bootstrapCandidates`. -/
def addCandidate (peers : List Server) (member : NodeInfo) : List Server :=
  if member.nodeID = [] ∨ member.raftAddr = [] then peers
  else if member.status ≠ .alive then peers
  else if member.nodeID ∈ peers.map Server.id then peers
  else peers ++ [⟨member.nodeID, member.raftAddr, .voter⟩]

def bootstrapCandidates (nodeID address : Bytes) (members : List NodeInfo) : List Server :=
  (members.foldl addCandidate [⟨nodeID, address, .voter⟩]).insertionSort fun a b => a.id ≤ b.id

/-- The servers `tryBootstrapExpect` calls `BootstrapCluster` with, if it does. -/
def bootstrapCall (expect : ℕ) (nodeID address : Bytes) (configuration : List Server) (members : List NodeInfo) :
    Option (List Server) :=
  if configuration ≠ [] then none
  else
    let peers := bootstrapCandidates nodeID address members
    if peers.length < expect then none
    else
      let peers := peers.take expect
      if (peers.head?.map Server.id) = some nodeID then some peers else none

/-- What `BootstrapCluster` returns. -/
inductive BootstrapResult where
  | ok
  | cantBootstrap
  | failed
deriving DecidableEq, Repr

structure BootstrapSetup where
  expect : ℕ
  nodes : List Bytes
  address : Bytes → Bytes

structure BootstrapState where
  configuration : Bytes → List Server
  /-- Nodes whose loop has returned. -/
  settled : List Bytes
  /-- Nodes that have called `BootstrapCluster`. -/
  calls : List Bytes

def BootstrapState.initial : BootstrapState := ⟨fun _ => [], [], []⟩

/-- A node evaluates `tryBootstrapExpect` on the members it sees. -/
structure BootstrapEvent where
  node : Bytes
  members : List NodeInfo
  result : BootstrapResult

/-- One evaluation. The members seen are started nodes; no configuration comes from elsewhere. -/
def BootstrapState.step (setup : BootstrapSetup) (state : BootstrapState) (event : BootstrapEvent) :
    Option BootstrapState :=
  if event.node ∉ setup.nodes ∨ event.node ∈ state.settled ∨
      ¬ (event.members.all fun member => decide (member.nodeID ∈ setup.nodes)) then none
  else
    match bootstrapCall setup.expect event.node (setup.address event.node) (state.configuration event.node)
        event.members with
    | none => some state
    | some peers => some
        { configuration := if event.result = .ok then Function.update state.configuration event.node peers
            else state.configuration
          settled := if event.result = .failed then state.settled else event.node :: state.settled
          calls := event.node :: state.calls }

/-! ## Candidates -/

private theorem mem_foldl_addCandidate {peers : List Server} {members : List NodeInfo} :
    (∀ server ∈ members.foldl addCandidate peers,
        server.id ∈ peers.map Server.id ∨ ∃ member ∈ members, member.nodeID = server.id) ∧
      ((peers.map Server.id).Nodup → ((members.foldl addCandidate peers).map Server.id).Nodup) := by
  induction members generalizing peers with
  | nil => exact ⟨fun server listed => .inl (List.mem_map_of_mem listed), id⟩
  | cons member members ih =>
    obtain ⟨known, distinct⟩ := @ih (addCandidate peers member)
    have added : ∀ id ∈ (addCandidate peers member).map Server.id, id ∈ peers.map Server.id ∨ member.nodeID = id := by
      intro id listed
      rw [addCandidate] at listed
      split at listed
      · exact .inl listed
      · split at listed
        · exact .inl listed
        · split at listed
          · exact .inl listed
          · simp only [List.map_append, List.map_cons, List.map_nil, List.mem_append, List.mem_singleton] at listed
            exact listed.imp_right Eq.symm
    constructor
    · intro server listed
      rcases known server listed with front | ⟨other, inside, same⟩
      · rcases added _ front with old | new
        · exact .inl old
        · exact .inr ⟨member, List.mem_cons_self, new⟩
      · exact .inr ⟨other, List.mem_cons_of_mem _ inside, same⟩
    · intro nodup
      refine distinct ?_
      rw [addCandidate]
      split
      · exact nodup
      · split
        · exact nodup
        · split
          · exact nodup
          · next fresh =>
            rw [List.map_append]
            exact List.nodup_append.mpr ⟨nodup, List.nodup_singleton _, by
              rintro id listed other single rfl
              simp only [List.map_cons, List.map_nil, List.mem_singleton] at single
              exact fresh (single ▸ listed)⟩

/-- Candidates are the node itself and members, each once, in the order of their IDs. -/
theorem bootstrapCandidates_spec (nodeID address : Bytes) (members : List NodeInfo) :
    (∀ server ∈ bootstrapCandidates nodeID address members,
        server.id = nodeID ∨ ∃ member ∈ members, member.nodeID = server.id) ∧
      ((bootstrapCandidates nodeID address members).map Server.id).Nodup ∧
      (bootstrapCandidates nodeID address members).Pairwise fun a b => a.id ≤ b.id := by
  have same := List.perm_insertionSort (fun a b : Server => a.id ≤ b.id)
    (members.foldl addCandidate [⟨nodeID, address, .voter⟩])
  obtain ⟨known, distinct⟩ := @mem_foldl_addCandidate [⟨nodeID, address, .voter⟩] members
  refine ⟨fun server listed => ?_, ?_, ?_⟩
  · simpa using known server (same.mem_iff.mp listed)
  · exact (same.map Server.id).nodup_iff.mpr (distinct (List.nodup_singleton _))
  · exact List.pairwise_insertionSort _ _

/-- The first of the candidates is the lowest. -/
theorem bootstrapCall_lowest {expect : ℕ} {nodeID address : Bytes} {configuration : List Server}
    {members : List NodeInfo} {peers : List Server} (positive : 0 < expect)
    (called : bootstrapCall expect nodeID address configuration members = some peers) :
    expect ≤ (bootstrapCandidates nodeID address members).length ∧
      ∀ server ∈ bootstrapCandidates nodeID address members, nodeID ≤ server.id := by
  rw [bootstrapCall] at called
  split at called
  · contradiction
  · dsimp only at called
    split at called
    · contradiction
    · next enough =>
      split at called
      · next first =>
        refine ⟨not_lt.mp enough, ?_⟩
        have sorted := (bootstrapCandidates_spec nodeID address members).2.2
        cases listed : bootstrapCandidates nodeID address members with
        | nil => simp
        | cons lowest others =>
          rw [listed] at first sorted
          obtain ⟨count, rfl⟩ := Nat.exists_eq_succ_of_ne_zero positive.ne'
          simp only [Nat.succ_eq_add_one, List.take_succ_cons, List.head?_cons, Option.map_some,
            Option.some.injEq] at first
          rw [← first]
          exact List.forall_mem_cons.mpr ⟨le_rfl, (List.pairwise_cons.mp sorted).1⟩
      · contradiction

/-! ## One cluster -/

/-- Every node that has bootstrapped is the lowest of all. -/
def LowestOnly (setup : BootstrapSetup) (state : BootstrapState) : Prop :=
  ∀ node ∈ state.calls, node ∈ setup.nodes ∧ ∀ other ∈ setup.nodes, node ≤ other

variable {setup : BootstrapSetup}

private theorem LowestOnly.step (positive : 0 < setup.expect) (all : setup.nodes.length ≤ setup.expect)
    {state target : BootstrapState} {event : BootstrapEvent} (lowest : LowestOnly setup state)
    (taken : state.step setup event = some target) : LowestOnly setup target := by
  rw [BootstrapState.step] at taken
  split at taken
  · contradiction
  · next enabled =>
    simp only [not_or, not_not, List.all_eq_true, decide_eq_true_eq] at enabled
    split at taken
    · cases taken
      exact lowest
    · next peers called =>
      cases taken
      obtain ⟨enough, first⟩ := bootstrapCall_lowest positive called
      obtain ⟨known, distinct, _⟩ :=
        bootstrapCandidates_spec event.node (setup.address event.node) event.members
      -- A large enough set of distinct started nodes holds all of them.
      have every : setup.nodes.toFinset ⊆
          ((bootstrapCandidates event.node (setup.address event.node) event.members).map Server.id).toFinset := by
        refine (Finset.eq_of_subset_of_card_le ?_ ?_).ge
        · intro id listed
          obtain ⟨server, member, rfl⟩ := List.mem_map.mp (List.mem_toFinset.mp listed)
          rw [List.mem_toFinset]
          rcases known server member with own | ⟨other, inside, same⟩
          · exact own ▸ enabled.1
          · exact same ▸ enabled.2.2 other inside
        · rw [List.toFinset_card_of_nodup distinct, List.length_map]
          exact (List.toFinset_card_le _).trans (all.trans enough)
      refine List.forall_mem_cons.mpr ⟨⟨enabled.1, fun other started => ?_⟩, lowest⟩
      obtain ⟨server, member, rfl⟩ := List.mem_map.mp (List.mem_toFinset.mp (every (List.mem_toFinset.mpr started)))
      exact first server member

/-- Members as they are when everybody in a list is alive. -/
def aliveMembers (setup : BootstrapSetup) (ids : List Bytes) : List NodeInfo :=
  ids.map fun id => ⟨id, setup.address id, .alive⟩

/-- A node that sees itself first among enough members bootstraps. -/
private theorem bootstrapCall_sorted (addressed : ∀ node ∈ setup.nodes, node ≠ [] ∧ setup.address node ≠ [])
    {first : Bytes} {others : List Bytes} (started : ∀ id ∈ first :: others, id ∈ setup.nodes)
    (sorted : (first :: others).Pairwise (· < ·)) (enough : setup.expect = (first :: others).length) :
    (bootstrapCall setup.expect first (setup.address first) []
      (aliveMembers setup (first :: others))).isSome = true := by
  have added (front : List Bytes) (rest : List Bytes) (nodup : (front ++ rest).Nodup)
      (inside : ∀ id ∈ rest, id ∈ setup.nodes) :
      (aliveMembers setup rest).foldl addCandidate (front.map fun id => ⟨id, setup.address id, .voter⟩) =
        (front ++ rest).map fun id => (⟨id, setup.address id, .voter⟩ : Server) := by
    induction rest generalizing front with
    | nil => simp [aliveMembers]
    | cons id rest ih =>
      obtain ⟨named, address⟩ := addressed id (inside id List.mem_cons_self)
      have fresh : id ∉ front := by
        intro listed
        exact (List.nodup_append.mp nodup).2.2 id listed id List.mem_cons_self rfl
      have next := ih (front ++ [id]) (by simpa using nodup) fun other member =>
        inside other (List.mem_cons_of_mem _ member)
      simp only [aliveMembers, List.map_cons, List.foldl_cons] at next ⊢
      rw [addCandidate, if_neg (not_or.mpr ⟨named, address⟩), if_neg (not_not_intro rfl), if_neg]
      · simpa using next
      · simpa using fresh
  have nodup : (first :: others).Nodup := sorted.imp ne_of_lt
  have all := added [first] others nodup fun id member => started id (List.mem_cons_of_mem _ member)
  have candidates : bootstrapCandidates first (setup.address first) (aliveMembers setup (first :: others)) =
      (first :: others).map fun id => ⟨id, setup.address id, .voter⟩ := by
    have skip : addCandidate [⟨first, setup.address first, .voter⟩] ⟨first, setup.address first, .alive⟩ =
        [⟨first, setup.address first, .voter⟩] := by
      simp [addCandidate]
    rw [bootstrapCandidates, aliveMembers, List.map_cons, List.foldl_cons, skip]
    simp only [aliveMembers, List.map_cons, List.map_nil, List.cons_append, List.nil_append] at all
    rw [all]
    refine List.Pairwise.insertionSort_eq ?_
    rw [← List.map_cons (f := fun id => (⟨id, setup.address id, .voter⟩ : Server)), List.pairwise_map]
    exact sorted.imp le_of_lt
  rw [bootstrapCall, if_neg (not_not_intro rfl)]
  simp [candidates, enough]

private theorem step_call {setup : BootstrapSetup} {state : BootstrapState} {node : Bytes} {ids : List Bytes}
    (started : node ∈ setup.nodes) (waiting : node ∉ state.settled) (seen : ∀ id ∈ ids, id ∈ setup.nodes)
    (called : (bootstrapCall setup.expect node (setup.address node) (state.configuration node)
      (aliveMembers setup ids)).isSome = true) :
    ∃ target, state.step setup ⟨node, aliveMembers setup ids, .ok⟩ = some target ∧
      target.calls = node :: state.calls ∧ target.settled = node :: state.settled ∧
      ∀ other, other ≠ node → target.configuration other = state.configuration other := by
  obtain ⟨peers, called⟩ := Option.isSome_iff_exists.mp called
  have enabled : ((aliveMembers setup ids).all fun member => decide (member.nodeID ∈ setup.nodes)) = true := by
    simpa [aliveMembers] using seen
  refine ⟨⟨Function.update state.configuration node peers, node :: state.settled, node :: state.calls⟩, ?_, rfl, rfl,
    fun other differ => Function.update_of_ne differ _ _⟩
  simp [BootstrapState.step, started, waiting, enabled, called]

/-- Two nodes bootstrap when the started nodes are more than the expected ones. -/
private theorem exists_two_calls (distinct : setup.nodes.Nodup)
    (addressed : ∀ node ∈ setup.nodes, node ≠ [] ∧ setup.address node ≠ []) (positive : 0 < setup.expect)
    (more : setup.expect < setup.nodes.length) :
    ∃ events state, run? (BootstrapState.step setup) .initial events = some state ∧
      ∃ a ∈ state.calls, ∃ b ∈ state.calls, a ≠ b := by
  have same := List.perm_insertionSort (· ≤ ·) setup.nodes
  have sorted : (setup.nodes.insertionSort (· ≤ ·)).Pairwise (· < ·) :=
    ((List.pairwise_insertionSort (· ≤ ·) setup.nodes).and (same.nodup_iff.mpr distinct)).imp
      fun both => lt_of_le_of_ne both.1 both.2
  have count := same.length_eq
  have started : ∀ id ∈ setup.nodes.insertionSort (· ≤ ·), id ∈ setup.nodes := fun id => same.mem_iff.mp
  obtain ⟨expect, size⟩ := Nat.exists_eq_succ_of_ne_zero positive.ne'
  match listed : setup.nodes.insertionSort (· ≤ ·) with
  | [] | [_] =>
    rw [listed] at count
    simp only [List.length_nil, List.length_singleton] at count
    omega
  | lowest :: second :: others =>
    rw [listed] at count sorted started
    simp only [List.length_cons] at count
    -- The lowest node sees itself and the next ones, the second everybody but the lowest.
    obtain ⟨above, sorted'⟩ := List.pairwise_cons.mp sorted
    have differ : lowest ≠ second := (above second List.mem_cons_self).ne
    have firstView : ∀ id ∈ lowest :: (second :: others).take expect, id ∈ setup.nodes := fun id member =>
      started id (List.cons_subset_cons _ (List.take_subset _ _) member)
    have secondView : ∀ id ∈ second :: others.take expect, id ∈ setup.nodes := fun id member =>
      started id (List.mem_cons_of_mem _ (List.cons_subset_cons _ (List.take_subset _ _) member))
    have first := bootstrapCall_sorted addressed firstView
      (sorted.sublist ((List.take_sublist _ _).cons_cons lowest))
      (by simp only [List.length_cons, List.length_take, size]; omega)
    have other := bootstrapCall_sorted addressed secondView
      (sorted'.sublist ((List.take_sublist _ _).cons_cons second))
      (by simp only [List.length_cons, List.length_take, size]; omega)
    obtain ⟨middle, firstTaken, firstCalls, firstSettled, firstKept⟩ :=
      @step_call setup .initial lowest _ (started _ List.mem_cons_self) (List.not_mem_nil) firstView first
    obtain ⟨last, secondTaken, secondCalls, -, -⟩ :=
      @step_call setup middle second _ (secondView _ List.mem_cons_self)
        (by simpa [firstSettled, BootstrapState.initial] using differ.symm) secondView
        (by rw [firstKept second differ.symm]; exact other)
    refine ⟨[_, _], last, run?_cons_eq_some.mpr ⟨middle, firstTaken, run?_cons_eq_some.mpr ⟨last, secondTaken, rfl⟩⟩,
      lowest, ?_, second, ?_, differ⟩
    · simp [secondCalls, firstCalls]
    · simp [secondCalls]

/-- With at least as many nodes as expected, at most one of them bootstraps in every run exactly if there is none in
excess. -/
theorem bootstrap_once_iff (setup : BootstrapSetup) (distinct : setup.nodes.Nodup)
    (addressed : ∀ node ∈ setup.nodes, node ≠ [] ∧ setup.address node ≠ []) (expected : 2 ≤ setup.expect)
    (enough : setup.expect ≤ setup.nodes.length) :
    (∀ events state, run? (BootstrapState.step setup) .initial events = some state →
        ∀ a ∈ state.calls, ∀ b ∈ state.calls, a = b) ↔
      setup.nodes.length = setup.expect := by
  have positive : 0 < setup.expect := by omega
  constructor
  · intro once
    by_contra excess
    obtain ⟨events, state, run, a, first, b, second, differ⟩ :=
      exists_two_calls distinct addressed positive (by omega)
    exact differ (once events state run a first b second)
  · intro count events state run a first b second
    have start : LowestOnly setup .initial := List.forall_mem_nil _
    have lowest : LowestOnly setup state :=
      run?_invariant (LowestOnly setup) (fun before taken => before.step positive count.le taken) start run
    exact le_antisymm ((lowest a first).2 b (lowest b second).1) ((lowest b second).2 a (lowest a first).1)

/-- Two nodes, both expected. -/
def twoNodes : BootstrapSetup := ⟨2, [[1], [2]], id⟩

theorem bootstrap_once_iff_twoNodes : twoNodes.expect ≤ twoNodes.nodes.length ∧
    ∀ events state, run? (BootstrapState.step twoNodes) .initial events = some state →
      ∀ a ∈ state.calls, ∀ b ∈ state.calls, a = b :=
  ⟨by decide, (bootstrap_once_iff twoNodes (by decide) (by decide) (by decide) (by decide)).mpr rfl⟩

/-- Three nodes of which two are expected. -/
def threeNodes : BootstrapSetup := ⟨2, [[1], [2], [3]], id⟩

/-- The first two nodes have met, and the last two. -/
def partitionedViews : List BootstrapEvent :=
  [⟨[1], aliveMembers threeNodes [[1], [2]], .ok⟩, ⟨[2], aliveMembers threeNodes [[2], [3]], .ok⟩]

/-- Both the first and the second of three nodes bootstrap. -/
theorem partitionedViews_bootstraps_twice :
    ∃ state, run? (BootstrapState.step threeNodes) .initial partitionedViews = some state ∧
      [1] ∈ state.calls ∧ [2] ∈ state.calls := by
  have outcome : (run? (BootstrapState.step threeNodes) .initial partitionedViews).any
      (fun state => decide (state.calls = [[2], [1]])) = true := by
    decide +kernel
  obtain ⟨state, run, calls⟩ := (Option.any_eq_true _ _).mp outcome
  rw [decide_eq_true_eq] at calls
  exact ⟨state, run, by simp [calls], by simp [calls]⟩

end PallasDB
