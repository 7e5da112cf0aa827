import PallasDB.Cluster.FSM

/-! # Replaying the log over a durable store

A node that restarts reopens its store and applies every committed command again from the first one. An
insert or an update that finds the key in another state than the first time takes another branch. The only
updates that can do harm are those that come before the key exists: they did nothing the first time, and
they take effect on the store that was left behind.
-/

namespace PallasDB

open SortedRun VersionedMap

/-! ## Restart -/

/-- `KV.Open` on the directory of a store at rest. -/
def KV.reopen (kv : KV) : KV := .opened kv.log kv.metaVersion kv.sstables

namespace FSM

/-- A node with an empty data directory. -/
def fresh : FSM := ⟨.opened [] 0 [], false, 0⟩

/-- The node after a restart: the store is reopened, and nothing counts as applied. -/
def restart (fsm : FSM) : FSM := ⟨fsm.store.reopen, false, 0⟩

end FSM

variable {initial : KVMap}

section Ready

variable {options : KVOptions}

theorem KV.ready_opened {log : List KVSlot} (fits : ∀ slot ∈ log, slotSize slot ≤ maxEntrySize)
    (version : ℕ) {sstables : List SortedFile} (increasing : ∀ file ∈ sstables, Increasing file.slots) :
    Ready options (opened log version sstables).tables.contents (opened log version sstables) [] where
  snapshots := snapshotInv_opened increasing
  conflicts := conflictInv_opened log version sstables
  recover := recoverInv_opened fits version sstables
  free := rfl
  unlocked := by simp [opened, openAll, empty]

theorem KV.Ready.reopen {kv : KV} {journal : KVJournal} (ready : Ready options initial kv journal) :
    Ready options kv.reopen.tables.contents kv.reopen [] ∧ kv.reopen.tables.contents = kv.tables.contents :=
  ⟨ready_opened ready.recover.sized _ ready.snapshots.sorted.sstables, ready.recover.contents_opened ready.free⟩

end Ready

/-! ## Writes seen from one key -/

/-- What the writes of a log do to a key until it is certain that the state it started in does not matter. The
key does not exist and may have been updated in vain; or it was inserted; or its state is settled. -/
inductive Early where
  | leading (update : Option Bytes)
  | inserted (update : Option Bytes) (val : Bytes)
  | settled
deriving DecidableEq, Repr

namespace Early

def set (val : Bytes) : Early → UpdateMode → Early
  | fate, .other _ => fate
  | leading update, .insert => inserted update val
  | leading _, .update => leading (some val)
  | inserted update old, .insert => inserted update old
  | _, _ => settled

def next (key : Bytes) (fate : Early) : TxWrite → Early
  | .set changed val mode => if changed = key then fate.set val mode else fate
  | .del changed => if changed = key then settled else fate

/-- The last update from before the key existed, as long as nothing has covered it up. -/
def exposed : Early → Option Bytes
  | leading update => update
  | inserted update _ => update
  | settled => none

/-- The state of a key in the first run and in one that started with a value. -/
def Relates (start : Bytes) : Early → Option Bytes → Option Bytes → Prop
  | leading update, first, again => first = none ∧ again = some (update.getD start)
  | inserted update val, first, again => first = some val ∧ again = some (update.getD start)
  | settled, first, again => first = again

end Early

/-- The fate of a key through a log. -/
def early (key : Bytes) (log : List Command) : Early :=
  (log.flatMap Command.changes).foldl (Early.next key) (.leading none)

namespace TxWrite

/-- What `SetEx` leaves at its key. -/
def outcome (val : Bytes) (old : Option Bytes) : UpdateMode → Option Bytes
  | .upsert => some val
  | .insert => some (old.getD val)
  | .update => old.map fun _ => val
  | .other _ => old

theorem apply_set_self (view : KVMap) (key val : Bytes) (mode : UpdateMode) :
    (TxWrite.set key val mode).apply view key = outcome val (view key) mode := by
  rw [apply]
  cases mode with
  | upsert =>
    by_cases same : view key = some val <;> simp [KV.setExUpdates, outcome, same]
  | insert => cases old : view key <;> simp [KV.setExUpdates, outcome, old]
  | update =>
    cases old : view key with
    | none => simp [KV.setExUpdates, outcome, old]
    | some found => by_cases same : found = val <;> simp [KV.setExUpdates, outcome, old, same]
  | other code => simp [KV.setExUpdates, outcome]

theorem apply_set_other (view : KVMap) {key changed : Bytes} (apart : changed ≠ key) (val : Bytes)
    (mode : UpdateMode) : (TxWrite.set changed val mode).apply view key = view key := by
  rw [apply]
  split
  · exact Function.update_of_ne apart.symm _ _
  · rfl

end TxWrite

namespace Early

variable {start key : Bytes} {fate : Early}

/-- One write keeps the two runs related. -/
theorem Relates.next {first again : KVMap} (relates : fate.Relates start (first key) (again key))
    (write : TxWrite) : (fate.next key write).Relates start (write.apply first key) (write.apply again key) := by
  cases write with
  | set changed val mode =>
    by_cases hit : changed = key
    · subst hit
      rw [TxWrite.apply_set_self, TxWrite.apply_set_self]
      cases fate with
      | leading update =>
        obtain ⟨absent, present⟩ := relates
        cases mode <;> simp [Early.next, Early.set, Relates, TxWrite.outcome, absent, present]
      | inserted update old =>
        obtain ⟨here, present⟩ := relates
        cases mode <;> simp [Early.next, Early.set, Relates, TxWrite.outcome, here, present]
      | settled =>
        have same : first changed = again changed := relates
        cases mode <;> simp [Early.next, Early.set, Relates, TxWrite.outcome, same]
    · rw [TxWrite.apply_set_other _ hit, TxWrite.apply_set_other _ hit, Early.next, if_neg hit]
      exact relates
  | del changed =>
    by_cases hit : changed = key
    · simp [Early.next, Relates, TxWrite.apply, hit]
    · rw [Early.next, if_neg hit, TxWrite.apply, TxWrite.apply, Function.update_of_ne (Ne.symm hit),
        Function.update_of_ne (Ne.symm hit)]
      exact relates

theorem foldl_settled (changes : List TxWrite) : changes.foldl (Early.next key) .settled = .settled := by
  induction changes with
  | nil => rfl
  | cons write rest ih =>
    have kept : settled.next key write = settled := by
      cases write with
      | set changed val mode => cases mode <;> simp [Early.next, Early.set]
      | del changed => simp [Early.next]
    rw [List.foldl_cons, kept, ih]

theorem Relates.foldl {first again : KVMap} (relates : fate.Relates start (first key) (again key))
    (changes : List TxWrite) : (changes.foldl (Early.next key) fate).Relates start
      (changes.foldl TxWrite.apply first key) (changes.foldl TxWrite.apply again key) := by
  induction changes generalizing fate first again with
  | nil => exact relates
  | cons write rest ih => exact ih (relates.next write)

end Early

theorem Early.Relates.exposed {start : Bytes} {fate : Early} {first again : Option Bytes}
    (relates : fate.Relates start first again) {val : Bytes} (shown : fate.exposed = some val) : again = some val := by
  cases fate with
  | leading update | inserted update old =>
    have kept : update = some val := shown
    rw [relates.2, kept]
    rfl
  | settled => contradiction

/-! ## Two runs of one log -/

/-- Every pair of the contents has room in a log record. -/
def Fits (contents : KVMap) : Prop :=
  ∀ key val, contents key = some val → key.length + val.length ≤ maxEntrySize

theorem Fits.overlay {contents : KVMap} (fits : Fits contents) {updates : SortedArray}
    (room : ∀ key val, lookup updates key = some (some val) → key.length + val.length ≤ maxEntrySize) :
    Fits (overlay contents updates) := by
  intro key val shown
  cases staged : lookup updates key with
  | none => exact fits key val (by simpa [PallasDB.overlay, staged] using shown)
  | some slot =>
    obtain rfl : slot = some val := by simpa [PallasDB.overlay, staged] using shown
    exact room key val staged

namespace Command

variable {cmd : Command} {contents next : KVMap} {index : ℕ} {result : FSMResult}

/-- A command that is applied performs its writes, and would on any other contents where they have room. -/
theorem effect_ok (applied : cmd.effect contents index = .ok (next, result)) :
    next = cmd.changes.foldl TxWrite.apply contents ∧
      oversize (TxWrite.stageAll contents [] cmd.changes).1 = false ∧
      ∀ other, oversize (TxWrite.stageAll other [] cmd.changes).1 = false →
        ∃ result, cmd.effect other index = .ok (cmd.changes.foldl TxWrite.apply other, result) := by
  unfold effect at applied
  split at applied
  · contradiction
  · next err rejected =>
    have none : cmd.changes = [] := by rw [changes, rejected]
    cases applied
    rw [none]
    refine ⟨rfl, rfl, fun other _ => ⟨⟨false, some err⟩, ?_⟩⟩
    rw [effect, rejected]
    rfl
  · next writes planned =>
    have same : cmd.changes = writes := by rw [changes, planned]
    rw [same]
    dsimp only at applied
    split at applied
    · contradiction
    · next fits =>
      cases applied
      refine ⟨TxWrite.overlay_stageAll increasing_nil writes, by simpa using fits, fun other room =>
        ⟨⟨(TxWrite.stageAll other [] writes).2, none⟩, ?_⟩⟩
      simp only [effect, planned, room, Bool.false_eq_true, if_false]
      rw [TxWrite.overlay_stageAll increasing_nil writes]
      rfl

theorem effect_fits (room : Fits contents) (fits : oversize (TxWrite.stageAll contents [] cmd.changes).1 = false) :
    Fits (cmd.changes.foldl TxWrite.apply contents) := by
  have increasing : Increasing (TxWrite.stageAll contents [] cmd.changes).1 :=
    TxWrite.stageAll_increasing increasing_nil _
  rw [← overlay_nil contents, ← TxWrite.overlay_stageAll increasing_nil]
  refine room.overlay fun key val staged => ?_
  by_contra large
  have refused := (oversize_iff increasing).mpr ⟨key, some val, staged, Nat.not_le.mp large⟩
  rw [fits] at refused
  contradiction

end Command

variable {contents : KVMap} {index : ℕ}

theorem effects_cons {cmd : Command} {rest : List Command} {final : KVMap}
    (applied : effects contents index (cmd :: rest) = .ok final) :
    oversize (TxWrite.stageAll contents [] cmd.changes).1 = false ∧
      (∀ other, oversize (TxWrite.stageAll other [] cmd.changes).1 = false →
        ∃ result, cmd.effect other index = .ok (cmd.changes.foldl TxWrite.apply other, result)) ∧
      effects (cmd.changes.foldl TxWrite.apply contents) (index + 1) rest = .ok final := by
  rw [effects] at applied
  cases ran : cmd.effect contents index with
  | error fatal => simp [ran, bind, Except.bind] at applied
  | ok pair =>
    obtain ⟨next, result⟩ := pair
    obtain ⟨rfl, room, elsewhere⟩ := Command.effect_ok ran
    rw [ran] at applied
    exact ⟨room, elsewhere, applied⟩

/-- Two runs of the same commands, the second of them from the contents left by an earlier one. -/
def Lockstep (left first again : KVMap) (fate : Bytes → Early) : Prop :=
  ∀ key, match left key with
    | none => first key = again key
    | some start => (fate key).Relates start (first key) (again key)

namespace Lockstep

variable {left first again : KVMap} {fate : Bytes → Early}

section

variable (related : Lockstep left first again fate)

include related

theorem foldl (changes : List TxWrite) :
    Lockstep left (changes.foldl TxWrite.apply first) (changes.foldl TxWrite.apply again)
      (fun key => changes.foldl (Early.next key) (fate key)) := by
  intro key
  have here := related key
  cases held : left key with
  | none =>
    rw [held] at here
    -- what happens to a key depends on that key only
    have settled : Early.Relates [] .settled (first key) (again key) := here
    have after := settled.foldl changes
    rwa [Early.foldl_settled] at after
  | some start =>
    rw [held] at here
    exact here.foldl changes

/-- The second run refuses a command that the first one applied only because of an early update. -/
theorem room (leftFits : Fits left) (fits : Fits again)
    {changes : List TxWrite} (applied : oversize (TxWrite.stageAll first [] changes).1 = false)
    (after : Fits (changes.foldl TxWrite.apply first))
    (covered : ∀ key start, left key = some start →
      ∀ val ∈ (changes.foldl (Early.next key) (fate key)).exposed, key.length + val.length ≤ maxEntrySize) :
    oversize (TxWrite.stageAll again [] changes).1 = false := by
  rw [Bool.eq_false_iff, Ne, oversize_iff (TxWrite.stageAll_increasing increasing_nil _)]
  rintro ⟨key, slot, staged, large⟩
  by_cases same : first key = again key
  · -- the key is in the same state in both runs, and the first run would have refused too
    rw [← TxWrite.lookup_stageAll_congr increasing_nil increasing_nil same rfl] at staged
    have refused := (oversize_iff (TxWrite.stageAll_increasing increasing_nil _)).mpr ⟨key, slot, staged, large⟩
    rw [applied] at refused
    contradiction
  have here := related key
  have later := related.foldl changes key
  cases held : left key with
  | none =>
    rw [held] at here
    exact same here
  | some start =>
    rw [held] at here later
    dsimp only at here later
    obtain ⟨old, present⟩ : ∃ old, again key = some old := by
      cases reached : fate key with
      | leading update | inserted update val =>
        rw [reached] at here
        exact ⟨_, here.2⟩
      | settled =>
        rw [reached] at here
        exact absurd here same
    have short := fits key old present
    cases slot with
    | none =>
      have size : slotSize (⟨key, none⟩ : KVSlot) = key.length := rfl
      omega
    | some val =>
      have large : maxEntrySize < key.length + val.length := large
      have shown : changes.foldl TxWrite.apply again key = some val := by
        have view : overlay again (TxWrite.stageAll again [] changes).1 = changes.foldl TxWrite.apply again :=
          TxWrite.overlay_stageAll increasing_nil changes
        rw [← view, overlay, staged]
        rfl
      rw [shown] at later
      have exposed := covered key start held
      cases reached : changes.foldl (Early.next key) (fate key) with
      | leading update | inserted update inserted =>
        rw [reached] at later exposed
        cases update with
        | none =>
          have small := leftFits key start held
          have kept : val = start := Option.some.inj later.2
          rw [← kept] at small
          omega
        | some last =>
          have small := exposed last rfl
          have kept : val = last := Option.some.inj later.2
          rw [← kept] at small
          omega
      | settled =>
        rw [reached] at later
        have small := after key val later
        omega

theorem exposed_fits (fits : Fits again) {key start val : Bytes}
    (held : left key = some start) (shown : (fate key).exposed = some val) :
    key.length + val.length ≤ maxEntrySize := by
  have here := related key
  rw [held] at here
  exact fits key val (here.exposed shown)

/-- The second run goes through exactly when no early update that it brings back is too large. -/
theorem effects_iff (leftFits : Fits left) (firstFits : Fits first)
    (againFits : Fits again) {log : List Command} {final : KVMap}
    (applied : effects first index log = .ok final) :
    (∃ last, effects again index log = .ok last) ↔ ∀ part, part <+: log → ∀ key start, left key = some start →
      ∀ val ∈ ((part.flatMap Command.changes).foldl (Early.next key) (fate key)).exposed,
        key.length + val.length ≤ maxEntrySize := by
  induction log generalizing first again fate index with
  | nil =>
    refine iff_of_true ⟨again, rfl⟩ fun part before key start held val shown => ?_
    rw [List.prefix_nil.mp before] at shown
    exact related.exposed_fits againFits held shown
  | cons cmd rest ih =>
    obtain ⟨room, elsewhere, applied⟩ := effects_cons applied
    have firstNext := Command.effect_fits firstFits room
    have relatedNext := related.foldl cmd.changes
    constructor
    · rintro ⟨last, repeated⟩ part before
      obtain ⟨space, -, repeated⟩ := effects_cons repeated
      have tail := (ih relatedNext firstNext (Command.effect_fits againFits space) applied).mp ⟨last, repeated⟩
      cases part with
      | nil => exact fun key start held val shown => related.exposed_fits againFits held shown
      | cons head part =>
        obtain ⟨rfl, shorter⟩ := List.cons_prefix_cons.mp before
        simpa only [List.flatMap_cons, List.foldl_append] using tail part shorter
    · intro covered
      have behind (part : List Command) (before : part <+: rest) :=
        covered (cmd :: part) (List.cons_prefix_cons.mpr ⟨rfl, before⟩)
      simp only [List.flatMap_cons, List.foldl_append] at behind
      have space := related.room leftFits againFits room firstNext (behind [] List.nil_prefix)
      obtain ⟨last, repeated⟩ := (ih relatedNext firstNext (Command.effect_fits againFits space) applied).mpr behind
      obtain ⟨result, ran⟩ := elsewhere again space
      exact ⟨last, by rw [effects, ran]; exact repeated⟩

/-- Two runs that go through are still related. -/
theorem effects_related {log : List Command}
    {final last : KVMap} (applied : effects first index log = .ok final)
    (repeated : effects again index log = .ok last) :
    Lockstep left final last fun key => (log.flatMap Command.changes).foldl (Early.next key) (fate key) := by
  induction log generalizing first again fate index with
  | nil =>
    cases applied
    cases repeated
    exact related
  | cons cmd rest ih =>
    have after := ih (related.foldl cmd.changes) (effects_cons applied).2.2 (effects_cons repeated).2.2
    simpa only [List.flatMap_cons, List.foldl_append] using after

end

end Lockstep

theorem effects_fits {final : KVMap} (fits : Fits contents) {log : List Command}
    (applied : effects contents index log = .ok final) : Fits final := by
  induction log generalizing contents index with
  | nil =>
    cases applied
    exact fits
  | cons cmd rest ih =>
    obtain ⟨room, -, applied⟩ := effects_cons applied
    exact ih (Command.effect_fits fits room) applied

/-- Once a key is inserted, its fate is the insert until it is settled. -/
theorem Early.foldl_inserted {key : Bytes} {update : Option Bytes} {val : Bytes} (changes : List TxWrite) :
    changes.foldl (Early.next key) (.inserted update val) = .inserted update val ∨
      changes.foldl (Early.next key) (.inserted update val) = .settled := by
  induction changes with
  | nil => exact .inl rfl
  | cons write rest ih =>
    have step : (Early.inserted update val).next key write = .inserted update val ∨
        (Early.inserted update val).next key write = .settled := by
      cases write with
      | set changed new mode =>
        by_cases hit : changed = key
        · cases mode <;> simp [Early.next, Early.set, hit]
        · simp [Early.next, hit]
      | del changed => by_cases hit : changed = key <;> simp [Early.next, hit]
    rcases step with same | settled
    · rw [List.foldl_cons, same]
      exact ih
    · rw [List.foldl_cons, settled]
      exact .inr (Early.foldl_settled rest)

section Restart

variable {log front : List Command} {left final : KVMap}

theorem effects_eq (applied : effects contents index log = .ok final) :
    final = (log.flatMap Command.changes).foldl TxWrite.apply contents := by
  induction log generalizing contents index with
  | nil =>
    cases applied
    rfl
  | cons cmd rest ih =>
    rw [List.flatMap_cons, List.foldl_append]
    exact ih (effects_cons applied).2.2

/-- What the log that led to the contents says about the fate of a key. -/
theorem early_relates (applied : effects (fun _ => none) 1 log = .ok final) (key : Bytes) :
    ∃ again, (early key log).Relates [] (final key) again := by
  rw [effects_eq applied]
  -- any second run will do
  exact ⟨_, @Early.Relates.foldl [] key (.leading none) (fun _ => none) (fun _ => some []) ⟨rfl, rfl⟩ _⟩

/-- A key of the contents left behind that is not settled by the whole log still has the value it was inserted
with. -/
theorem early_inserted (before : front <+: log) (stopped : effects (fun _ => none) 1 front = .ok left)
    {key start : Bytes} (held : left key = some start) :
    (∃ update, early key log = .inserted update start) ∨ early key log = .settled := by
  obtain ⟨again, relates⟩ := early_relates stopped key
  obtain ⟨rest, rfl⟩ := before
  have whole : early key (front ++ rest) = (rest.flatMap Command.changes).foldl (Early.next key) (early key front) := by
    rw [early, List.flatMap_append, List.foldl_append, early]
  rw [whole]
  cases fate : early key front with
  | leading update =>
    rw [fate, held] at relates
    exact nomatch relates.1
  | inserted update val =>
    rw [fate, held] at relates
    obtain rfl : start = val := Option.some.inj relates.1
    rcases Early.foldl_inserted (rest.flatMap Command.changes) with same | settled
    · exact .inl ⟨update, same⟩
    · exact .inr settled
  | settled => exact .inr (Early.foldl_settled _)

theorem lockstep_restart (left : KVMap) : Lockstep left (fun _ => none) left fun _ => .leading none := by
  intro key
  cases held : left key with
  | none => rfl
  | some start => exact ⟨rfl, rfl⟩

/-- The second run ends in other contents only when it brings an early update back. -/
theorem effects_again_iff (before : front <+: log) (stopped : effects (fun _ => none) 1 front = .ok left)
    (applied : effects (fun _ => none) 1 log = .ok final) :
    effects left 1 log = .ok final ↔ ∀ key, left key ≠ none →
      (∀ part, part <+: log → ∀ val ∈ (early key part).exposed, key.length + val.length ≤ maxEntrySize) ∧
        ∀ val ∈ (early key log).exposed, left key = some val := by
  have related := lockstep_restart left
  have absent : Fits fun _ => none := fun _ _ present => nomatch present
  have leftFits := effects_fits absent stopped
  have through := related.effects_iff leftFits absent leftFits applied
  constructor
  · intro repeated key present
    obtain ⟨start, held⟩ := Option.ne_none_iff_exists'.mp present
    refine ⟨fun part shorter => through.mp ⟨final, repeated⟩ part shorter key start held, fun val shown => ?_⟩
    have last := related.effects_related applied repeated key
    rw [held] at last ⊢
    change (early key log).Relates start (final key) (final key) at last
    rcases early_inserted before stopped held with ⟨update, inserted⟩ | settled
    · have here := last.exposed shown
      rw [inserted] at last
      exact last.1.symm.trans here
    · simp [settled, Early.exposed] at shown
  · intro covered
    obtain ⟨last, repeated⟩ := through.mpr fun part shorter key start held =>
      (covered key (by simp [held])).1 part shorter
    rw [repeated]
    congr 1
    funext key
    have ended := related.effects_related applied repeated key
    cases held : left key with
    | none =>
      rw [held] at ended
      exact ended.symm
    | some start =>
      rw [held] at ended
      change (early key log).Relates start (final key) (last key) at ended
      have same := (covered key (by simp [held])).2
      rcases early_inserted before stopped held with ⟨update, inserted⟩ | settled
      · rw [inserted] at ended same
        cases update with
        | none => rw [ended.1, ended.2]; rfl
        | some val => rw [ended.1, ended.2, ← held, same val rfl]; rfl
      · rw [settled] at ended
        exact ended.symm

end Restart

namespace FSM

theorem contents_fresh : fresh.contents = fun _ => none := by
  have opened : fresh.contents = visible [replayMem []] := KV.contents_openAll _
  rw [opened, replayMem_of_increasing increasing_nil]
  rfl

theorem ready_fresh (options : KVOptions) : KV.Ready options fresh.contents fresh.store [] :=
  have none : ∀ slot ∈ ([] : List KVSlot), slotSize slot ≤ maxEntrySize := by simp
  KV.ready_opened none 0 (by simp)

/-- The log applied to a node that has just been started. -/
theorem applyLog_ok_iff {fsm : FSM} (opened : fsm.closed = false) (ready : KV.Ready .eager initial fsm.store [])
    {log : List Command} {target : KVMap} :
    (∃ final, fsm.applyLog index log = .ok final ∧ final.contents = target) ↔
      effects fsm.contents index log = .ok target := by
  have outcome := applyLog_effects opened ready index log
  cases ran : fsm.applyLog index log with
  | error fatal =>
    rw [ran] at outcome
    simp [show effects fsm.contents index log = .error fatal from outcome]
  | ok final =>
    rw [ran] at outcome
    simp [outcome.1]

/-- Applying the whole log once more to the store that its front left behind yields the contents of a single
run exactly when, for every key of that store, the updates from before the key existed have room in a log
record, and the last of them is the value the key has there, unless something has covered it up. -/
theorem restart_same_iff {log front : List Command} (before : front <+: log) {left final : FSM}
    (stopped : fresh.applyLog 1 front = .ok left) (applied : fresh.applyLog 1 log = .ok final) :
    (∃ again, left.restart.applyLog 1 log = .ok again ∧ again.contents = final.contents) ↔
      ∀ key, left.contents key ≠ none →
        (∀ part, part <+: log → ∀ val ∈ (early key part).exposed, key.length + val.length ≤ maxEntrySize) ∧
          ∀ val ∈ (early key log).exposed, left.contents key = some val := by
  have ready := ready_fresh .eager
  have first := applyLog_effects rfl ready 1 front
  rw [stopped] at first
  obtain ⟨stopped, -, later, rested⟩ := first
  obtain ⟨reopened, same⟩ := rested.reopen
  have restarted : left.restart.contents = left.contents := same
  have whole := (applyLog_ok_iff rfl ready).mp ⟨final, applied, rfl⟩
  rw [contents_fresh] at stopped whole
  rw [applyLog_ok_iff rfl reopened, restarted]
  exact effects_again_iff before stopped whole

/-- A key is updated in vain before it is inserted. -/
def staleUpdate : List Command :=
  [⟨.put, [1], [10], 3, []⟩, ⟨.put, [1], [11], 2, []⟩]

/-- Another write of the key follows. -/
def coveredUpdate : List Command :=
  staleUpdate ++ [⟨.batch, [], [], 0, [⟨.put, [1], [12], 1⟩, ⟨.del, [2], [], 0⟩]⟩]

private theorem ok_of_any {ε α : Type} {outcome : Except ε α} {check : α → Bool}
    (passed : outcome.toOption.any check = true) : ∃ value, outcome = .ok value ∧ check value = true := by
  cases outcome with
  | error err => contradiction
  | ok value => exact ⟨value, rfl, passed⟩

theorem restart_same_coveredUpdate : staleUpdate <+: coveredUpdate ∧
    ∃ left final, fresh.applyLog 1 staleUpdate = .ok left ∧ fresh.applyLog 1 coveredUpdate = .ok final ∧
      left.contents [1] = some [11] ∧ final.contents [1] = some [12] ∧
      ((∃ again, left.restart.applyLog 1 coveredUpdate = .ok again ∧ again.contents = final.contents) ↔
        ∀ key, left.contents key ≠ none →
          (∀ part, part <+: coveredUpdate →
            ∀ val ∈ (early key part).exposed, key.length + val.length ≤ maxEntrySize) ∧
            ∀ val ∈ (early key coveredUpdate).exposed, left.contents key = some val) := by
  have before : staleUpdate <+: coveredUpdate := List.prefix_append ..
  have first : (fresh.applyLog 1 staleUpdate).toOption.any
      (fun left => left.contents [1] = some [11]) = true := by decide +kernel
  have whole : (fresh.applyLog 1 coveredUpdate).toOption.any
      (fun final => final.contents [1] = some [12]) = true := by decide +kernel
  obtain ⟨left, stopped, held⟩ := ok_of_any first
  obtain ⟨final, applied, ended⟩ := ok_of_any whole
  exact ⟨before, left, final, stopped, applied, of_decide_eq_true held, of_decide_eq_true ended,
    restart_same_iff before stopped applied⟩

/-- The update that did nothing the first time replaces the inserted value after a restart. -/
theorem staleUpdate_reverts : ∃ left again, fresh.applyLog 1 staleUpdate = .ok left ∧
    left.restart.applyLog 1 staleUpdate = .ok again ∧
    left.contents [1] = some [11] ∧ again.contents [1] = some [10] := by
  have runs : (fresh.applyLog 1 staleUpdate).toOption.any (fun left =>
      decide (left.contents [1] = some [11]) && (left.restart.applyLog 1 staleUpdate).toOption.any
        fun again => again.contents [1] = some [10]) = true := by decide +kernel
  obtain ⟨left, applied, checked⟩ := ok_of_any runs
  obtain ⟨kept, repeats⟩ := Bool.and_eq_true_iff.mp checked
  obtain ⟨again, repeated, reverted⟩ := ok_of_any repeats
  exact ⟨left, again, applied, repeated, of_decide_eq_true kept, of_decide_eq_true reverted⟩

end FSM

end PallasDB
