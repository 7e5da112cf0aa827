import PallasDB.Cluster.LinearRead
import PallasDB.Grpc.Server

/-! # Writes that are sent again

`Client.call` sends a request to another node whenever the answer is `Unavailable`. A server answers so before the
command has gone anywhere, but also when it loses its leadership while the command is in its log, and so does a broken
connection. Of Raft it is assumed that such a command may still be committed later, or may be lost.
-/

namespace PallasDB

open Transition

/-- What `Client.Put` and `Client.Delete` ask for. -/
inductive ClientWrite where
  | put (key value : Bytes) (mode : UpdateMode)
  | delete (key : Bytes)

/-- The command a leader makes of it. -/
def ClientWrite.command : ClientWrite → Command
  | .put key value mode => ⟨.put, key, value, mode.wire, []⟩
  | .delete key => ⟨.del, key, [], 0, []⟩

/-- Where `Client.call` is. A failed attempt may have got its command into the log of a leader. -/
inductive CallPhase where
  | unsent
  | sending
  | applying (ticket : ℕ)
  | failed (code : Code) (entered : Bool)
  | returned (result : Except Code Bool)

/-- A command may be in a log on behalf of the call. -/
def CallPhase.mayHaveEntered : CallPhase → Bool
  | .unsent | .sending | .failed _ false => false
  | .applying _ | .failed _ true | .returned _ => true

structure ClientCall where
  write : ClientWrite
  redirects : ℕ
  phase : CallPhase

/-- A command in a log, for the call that has sent it. -/
structure LogTicket where
  number : ℕ
  call : ℕ
  write : ClientWrite

structure RetryState where
  calls : ℕ → ClientCall
  tickets : ℕ
  /-- In the log of some leader and not committed. -/
  pending : List LogTicket
  committed : List LogTicket

/-- What happens to a call. -/
inductive CallEvent where
  | start (write : ClientWrite)
  /-- A server has not passed the command to Raft, or Raft has refused it. -/
  | refuse (code : Code)
  /-- `Apply` has returned the result of the FSM. -/
  | respond
  /-- `Apply` has failed, or the connection has. -/
  | fail (err : Option RaftError)
  | resend
  | giveUp

inductive RetryEvent where
  | call (id : ℕ) (event : CallEvent)
  /-- A leader puts the command of a call into its log. -/
  | append (id : ℕ)
  | commit (position : ℕ)
  | lose (position : ℕ)

namespace RetryState

def fresh : RetryState := ⟨fun _ => ⟨.delete [], 0, .unsent⟩, 0, [], []⟩

def setCall (state : RetryState) (call : ℕ) (value : ClientCall) : RetryState :=
  { state with calls := Function.update state.calls call value }

/-- The contents before a position of the committed log. -/
def viewAt (state : RetryState) (position : ℕ) : Option (KVMap) :=
  logView ((state.committed.take position).map fun ticket => ⟨0, .command ticket.write.command⟩)

/-- What the FSM answers for a committed entry. -/
def resultAt (state : RetryState) (position : ℕ) : Option FSMResult := do
  let ticket ← state.committed[position]?
  let view ← state.viewAt position
  ((ticket.write.command.effect view (position + 1)).map Prod.snd).toOption

/-- The number of times a command of a call is in a log. -/
def entries (state : RetryState) (call : ℕ) : ℕ :=
  (state.pending ++ state.committed).countP fun ticket => decide (ticket.call = call)

/-- `Client.call` and the answers it gets. -/
def advance (maxRedirects : ℕ) (state : RetryState) (call : ClientCall) : CallEvent → Option ClientCall :=
  fun event => match call.phase, event with
  | .unsent, .start write => some ⟨write, 0, .sending⟩
  | .sending, .refuse code => some { call with phase := .failed code false }
  | .applying ticket, .respond =>
      (state.resultAt (state.committed.findIdx fun other => decide (other.number = ticket))).map fun result =>
        { call with phase := if result.err.isSome then .failed .internal true else .returned (.ok result.updated) }
  | .applying _, .fail err => some { call with phase := .failed (err.elim .unavailable RaftError.code) true }
  | .failed code _, .resend =>
      if code = .unavailable ∧ call.redirects < maxRedirects then some ⟨call.write, call.redirects + 1, .sending⟩
      else none
  | .failed code _, .giveUp => some { call with phase := .returned (.error code) }
  | _, _ => none

def step (maxRedirects : ℕ) (state : RetryState) : RetryEvent → Option RetryState
  | .call id event => (state.advance maxRedirects (state.calls id) event).map (state.setCall id)
  | .append id =>
      match (state.calls id).phase with
      | .sending => some
          { calls := Function.update state.calls id { state.calls id with phase := .applying state.tickets }
            tickets := state.tickets + 1
            pending := state.pending ++ [⟨state.tickets, id, (state.calls id).write⟩]
            committed := state.committed }
      | _ => none
  | .commit position => (state.pending[position]?).map fun ticket =>
      { state with pending := state.pending.eraseIdx position, committed := state.committed ++ [ticket] }
  | .lose position => some { state with pending := state.pending.eraseIdx position }

/-- What is sent again has not entered a log before. -/
def unentered (state : RetryState) : RetryEvent → Bool
  | .call id .resend => !(state.calls id).phase.mayHaveEntered
  | _ => true

/-! ## At most one entry -/

/-- A call that has returned a result got it for an entry of its own. -/
def Answered (state : RetryState) (call : ℕ) (updated : Bool) : Prop :=
  ∃ position ticket, state.committed[position]? = some ticket ∧ ticket.call = call ∧
    state.resultAt position = some ⟨updated, none⟩

/-- The ticket that a call is waiting for is its own. -/
def Owns (state : RetryState) (call number : ℕ) : Prop :=
  number < state.tickets ∧ ∀ ticket ∈ state.pending ++ state.committed, ticket.number = number → ticket.call = call

structure RetryInv (state : RetryState) : Prop where
  entered : ∀ call, state.entries call ≤ if (state.calls call).phase.mayHaveEntered then 1 else 0
  numbered : ∀ ticket ∈ state.pending ++ state.committed, ticket.number < state.tickets
  owned : ∀ call number, (state.calls call).phase = .applying number → state.Owns call number
  answered : ∀ call updated, (state.calls call).phase = .returned (.ok updated) → state.Answered call updated

variable {state target : RetryState}

theorem RetryInv.setCall (inv : RetryInv state) {call : ℕ} {value : ClientCall}
    (entered : state.entries call ≤ if value.phase.mayHaveEntered then 1 else 0)
    (owned : ∀ number, value.phase = .applying number → state.Owns call number)
    (answered : ∀ updated, value.phase = .returned (.ok updated) → state.Answered call updated) :
    RetryInv (state.setCall call value) := by
  have calls (other : ℕ) : (state.setCall call value).calls other = if other = call then value else state.calls other :=
    Function.update_apply ..
  refine ⟨fun other => ?_, inv.numbered, fun other number => ?_, fun other updated => ?_⟩
  · rw [calls]
    split
    · next same => exact same ▸ entered
    · exact inv.entered other
  · rw [calls]
    split
    · next same => exact same ▸ owned number
    · exact inv.owned other number
  · rw [calls]
    split
    · next same => exact same ▸ answered updated
    · exact inv.answered other updated

theorem resultAt_append {position : ℕ} (inside : position < state.committed.length)
    (grows : state.committed <+: target.committed) : target.resultAt position = state.resultAt position := by
  obtain ⟨rest, same⟩ := grows
  rw [resultAt, resultAt, viewAt, viewAt, ← same, List.getElem?_append_left inside,
    List.take_append_of_le_length inside.le]

/-- Entries are committed or lost. -/
theorem RetryInv.moveLog (inv : RetryInv state) (calls : target.calls = state.calls)
    (tickets : target.tickets = state.tickets)
    (within : (target.pending ++ target.committed).Subperm (state.pending ++ state.committed))
    (grows : state.committed <+: target.committed) : RetryInv target := by
  refine ⟨fun call => ?_, fun ticket member => ?_, fun call number waits => ?_, fun call updated done => ?_⟩
  · rw [calls]
    exact (within.countP_le _).trans (inv.entered call)
  · rw [tickets]
    exact inv.numbered ticket (within.subset member)
  · rw [calls] at waits
    obtain ⟨small, own⟩ := inv.owned call number waits
    exact ⟨tickets ▸ small, fun ticket member => own ticket (within.subset member)⟩
  · rw [calls] at done
    obtain ⟨position, ticket, found, own, result⟩ := inv.answered call updated done
    have inside := (List.getElem?_eq_some_iff.mp found).1
    obtain ⟨rest, same⟩ := grows
    exact ⟨position, ticket, by rw [← same, List.getElem?_append_left inside, found], own,
      (resultAt_append inside ⟨rest, same⟩).trans result⟩

/-- A command enters the log of a leader. -/
theorem RetryInv.append (inv : RetryInv state) {id maxRedirects : ℕ}
    (taken : state.step maxRedirects (.append id) = some target) : RetryInv target := by
  simp only [RetryState.step] at taken
  split at taken
  · next sending =>
    cases taken
    have before := inv.entered id
    refine ⟨fun other => ?_, fun ticket member => ?_, fun other number waits => ?_, fun other updated done => ?_⟩
    · have others := inv.entered other
      simp only [entries, List.countP_append, List.countP_singleton, decide_eq_true_eq, Function.update_apply] at *
      split_ifs with same same <;> grind [CallPhase.mayHaveEntered]
    · have numbered := inv.numbered ticket
      grind
    · have numbered := inv.numbered
      have owned := inv.owned other number
      simp only [Owns, Function.update_apply] at *
      grind
    · simp only [Function.update_apply] at done
      split at done
      · contradiction
      · exact inv.answered other updated done
  · contradiction

/-- A call goes on. -/
theorem RetryInv.advance (inv : RetryInv state) {id maxRedirects : ℕ} {event : CallEvent} {value : ClientCall}
    (fresh : state.unentered (.call id event) = true)
    (moved : state.advance maxRedirects (state.calls id) event = some value) : RetryInv (state.setCall id value) := by
  have entered := inv.entered id
  simp only [RetryState.advance] at moved
  split at moved
  · next phase =>
    cases moved
    rw [phase] at entered
    exact inv.setCall entered (by simp) (by simp)
  · next phase =>
    cases moved
    rw [phase] at entered
    exact inv.setCall entered (by simp) (by simp)
  · next number phase =>
    obtain ⟨result, found, rfl⟩ := Option.map_eq_some_iff.mp moved
    rw [phase] at entered
    obtain ⟨ticket, placed, _⟩ := Option.bind_eq_some_iff.mp found
    obtain ⟨inside, rfl⟩ := List.getElem?_eq_some_iff.mp placed
    have own := (inv.owned id number phase).2 _ (List.mem_append_right _ (List.getElem_mem inside))
      (of_decide_eq_true (List.findIdx_getElem (w := inside)))
    split
    · exact inv.setCall entered (by simp) (by simp)
    · next clean =>
      refine inv.setCall entered (by simp) fun updated same => ⟨_, _, placed, own, ?_⟩
      have clear : result.err = none := by simpa using clean
      cases same
      rw [found, ← clear]
  · next phase =>
    cases moved
    rw [phase] at entered
    exact inv.setCall entered (by simp) (by simp)
  · next phase =>
    obtain ⟨_, rfl⟩ := of_guarded moved
    have never : (state.calls id).phase.mayHaveEntered = false := by simpa [unentered] using fresh
    rw [never] at entered
    exact inv.setCall entered (by simp) (by simp)
  · next phase =>
    cases moved
    refine inv.setCall (entered.trans ?_) (by simp) (by simp)
    split <;> simp [CallPhase.mayHaveEntered]
  · contradiction

theorem RetryInv.step (inv : RetryInv state) {maxRedirects : ℕ} {event : RetryEvent}
    (fresh : state.unentered event = true) (taken : state.step maxRedirects event = some target) : RetryInv target := by
  cases event with
  | call id event =>
    obtain ⟨value, moved, rfl⟩ := Option.map_eq_some_iff.mp taken
    exact inv.advance fresh moved
  | append id => exact inv.append taken
  | commit position =>
    obtain ⟨ticket, found, rfl⟩ := Option.map_eq_some_iff.mp taken
    obtain ⟨inside, rfl⟩ := List.getElem?_eq_some_iff.mp found
    refine inv.moveLog rfl rfl (List.Perm.subperm ?_) (List.prefix_append ..)
    rw [← List.append_assoc]
    exact (List.perm_append_singleton ..).trans ((List.getElem_cons_eraseIdx_perm inside).append_right _)
  | lose position =>
    cases taken
    exact inv.moveLog rfl rfl ((List.eraseIdx_sublist ..).append_right _).subperm (List.prefix_refl _)

theorem RetryInv.fresh : RetryInv fresh := by
  refine ⟨fun _ => Nat.zero_le _, ?_, ?_, ?_⟩ <;> simp [RetryState.fresh]

theorem RetryInv.nodup (inv : RetryInv state) : (state.committed.map LogTicket.call).Nodup := by
  refine List.nodup_iff_count_le_one.mpr fun call => ?_
  have once : state.entries call ≤ 1 := (inv.entered call).trans (by split <;> omega)
  rw [entries, List.countP_append] at once
  rw [List.count, List.countP_map]
  exact le_trans (Nat.le_add_left _ _) once

/-- An insertion that reports no update has found its key. -/
theorem insert_unchanged {view : KVMap} {index : ℕ} {key value : Bytes}
    (applied : (((ClientWrite.put key value .insert).command.effect view index).map Prod.snd).toOption =
      some ⟨false, none⟩) : (view key).isSome = true := by
  by_contra missing
  have absent : view key = none := by simpa using missing
  have staged : TxWrite.stageAll view [] [.set key value .insert] = ((SortedArray.set [] key value).2, true) := by
    simp [TxWrite.stageAll, TxWrite.stage, KV.setExUpdates, overlay, absent]
  have writes : (ClientWrite.put key value .insert).command.writes = .ok (.ok [.set key value .insert]) := rfl
  rw [Command.effect, writes] at applied
  dsimp only at applied
  rw [staged] at applied
  split at applied <;> simp [Except.map, Except.toOption] at applied

/-- While nothing is sent again that may have entered a log, every call has at most one committed command, and an
insertion that reports no update has found its key. -/
theorem writes_once (maxRedirects : ℕ) (events : List RetryEvent)
    (meets : Meets (step maxRedirects) (fun state event => state.unentered event = true) fresh events)
    (ran : run? (step maxRedirects) fresh events = some state) :
    (state.committed.map LogTicket.call).Nodup ∧
      ∀ position ticket key value, state.committed[position]? = some ticket → ticket.write = .put key value .insert →
        (state.calls ticket.call).phase = .returned (.ok false) →
          ∃ view, state.viewAt position = some view ∧ (view key).isSome = true := by
  have inv : RetryInv state := run?_invariant_of_meets RetryInv (fun inv => inv.step) RetryInv.fresh meets ran
  refine ⟨inv.nodup, fun position ticket key value found put done => ?_⟩
  obtain ⟨other, twin, placed, own, result⟩ := inv.answered ticket.call false done
  -- The entry the call was answered for is this one.
  have inside : position < (state.committed.map LogTicket.call).length := by
    simpa using (List.getElem?_eq_some_iff.mp found).1
  have same : position = other := (List.getElem?_inj inside inv.nodup).mp (by simp [found, placed, own])
  subst same
  obtain ⟨entry, held, result⟩ := Option.bind_eq_some_iff.mp result
  cases found.symm.trans held
  obtain ⟨view, seen, result⟩ := Option.bind_eq_some_iff.mp result
  exact ⟨view, seen, insert_unchanged (put ▸ result)⟩

/-- A put that a follower has refused is sent to the leader. -/
def redirected : List RetryEvent :=
  [.call 0 (.start (.put [1] [7] .insert)), .call 0 (.refuse .unavailable), .call 0 .resend, .append 0, .commit 0,
    .call 0 .respond]

theorem writes_once_redirected : (run? (step 3) fresh redirected).isSome = true ∧
    ∀ state, run? (step 3) fresh redirected = some state → (state.committed.map LogTicket.call).Nodup :=
  ⟨by decide +kernel, fun _ ran => (writes_once 3 _ (by decide +kernel) ran).1⟩

/-- The leader loses its leadership with a put in its log, and the client sends the put again. Both entries are
committed, the second one after another client has been told that its own put is done. -/
def leadershipLost : List RetryEvent :=
  [.call 0 (.start (.put [1] [7] .upsert)), .append 0, .call 0 (.fail (some .leadershipLost)),
    .call 1 (.start (.put [1] [8] .upsert)), .append 1, .commit 0, .commit 0, .call 1 .respond,
    .call 0 .resend, .append 0, .commit 0, .call 0 .respond]

/-- An insertion that has created its key is sent again and reports that it has not. -/
def insertedTwice : List RetryEvent :=
  [.call 0 (.start (.put [1] [7] .insert)), .append 0, .call 0 (.fail (some .leadershipLost)), .commit 0,
    .call 0 .resend, .append 0, .commit 0, .call 0 .respond]

theorem put_appliedTwice :
    (run? (step 3) fresh leadershipLost).any (fun state => decide (state.committed.map LogTicket.call = [0, 1, 0]) &&
      (match (state.calls 1).phase with | .returned (.ok true) => true | _ => false) &&
      decide ((state.viewAt 2).map (fun view => view [1]) = some (some [8])) &&
      decide ((state.viewAt 3).map (fun view => view [1]) = some (some [7]))) = true ∧
    (run? (step 3) fresh insertedTwice).any (fun state =>
      (match (state.calls 0).phase with | .returned (.ok false) => true | _ => false) &&
      decide ((state.viewAt 0).map (fun view => view [1]) = some none) &&
      decide ((state.viewAt 1).map (fun view => view [1]) = some (some [7]))) = true := by
  decide +kernel

end RetryState

end PallasDB
