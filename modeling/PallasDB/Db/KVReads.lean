import PallasDB.Db.KV

/-! # What a transaction reads

`Get`, `Seek` and `Range` over a stack of strictly increasing levels, compared with the map the stack
shows: point reads return its values, a `Seek` iterator walks like a cursor over its sorted pairs, and
`Range` visits exactly the pairs between the bounds.
-/

namespace PallasDB

open SortedRun

/-- The pairs of a map in key order. -/
structure Lists (pairs : KVRun) (view : KVMap) : Prop where
  increasing : Increasing pairs
  live : ∀ slot ∈ pairs, slot.live = true
  mem_iff : ∀ key val, (⟨key, some val⟩ : KVSlot) ∈ pairs ↔ view key = some val

namespace KV

/-- A transaction reads a map through `Get`, `Seek` and `Range`. -/
structure Reads (kv : KV) (tx : KVTX) (view : KVMap) : Prop where
  listed : ∃ pairs, Lists pairs view
  get (key : Bytes) : kv.get tx key = .ok (view key)
  seek (pairs : KVRun) (lists : Lists pairs view) (key : Bytes) : ∃ iter,
    kv.seek tx key = .ok iter ∧ ∀ moves, SlotIter.slot? (walk iter moves) =
      SlotIter.slot? (walk (⟨pairs, rank pairs fun other => decide (other < key)⟩ : Cursor Bytes Bytes) moves)
  range (pairs : KVRun) (lists : Lists pairs view) (start stop : Bytes) (desc : Bool) : ∃ ranged,
    kv.range tx start stop desc = .ok ranged ∧ ∀ fuel, pairs.length ≤ fuel → ranged.collect fuel =
      if desc then (pairs.filter fun slot => decide (stop ≤ slot.key ∧ slot.key ≤ start)).reverse
      else pairs.filter fun slot => decide (start ≤ slot.key ∧ slot.key ≤ stop)

end KV

variable {pairs : KVRun} {view : KVMap}

theorem Lists.lookup_eq (lists : Lists pairs view) (key : Bytes) : lookup pairs key = (view key).map some := by
  refine Option.ext fun val => ?_
  rw [lists.increasing.lookup_eq_some_iff, Option.map_eq_some_iff]
  constructor
  · intro member
    cases val with
    | none => exact absurd (lists.live _ member) (by simp [Slot.live])
    | some val => exact ⟨val, (lists.mem_iff key val).mp member, rfl⟩
  · rintro ⟨val, shown, rfl⟩
    exact (lists.mem_iff key val).mpr shown

theorem Lists.mem_keys (lists : Lists pairs view) {key : Bytes} (shown : (view key).isSome = true) :
    key ∈ pairs.map Slot.key := by
  obtain ⟨val, shown⟩ := Option.isSome_iff_exists.mp shown
  exact List.mem_map_of_mem ((lists.mem_iff key val).mpr shown)

/-- A part of the keys lists a part of the map. -/
theorem Lists.filter (lists : Lists pairs view) (keep : Bytes → Bool) :
    Lists (pairs.filter fun slot => keep slot.key) fun key => if keep key then view key else none := by
  refine ⟨lists.increasing.filter _, fun slot member => lists.live slot (List.mem_of_mem_filter member),
    fun key val => ?_⟩
  rw [List.mem_filter, lists.mem_iff]
  cases keep key <;> simp

theorem Lists.unique {first second : KVRun} (left : Lists first view) (right : Lists second view) :
    first = second :=
  left.increasing.ext right.increasing fun key => by rw [left.lookup_eq, right.lookup_eq]

section Levels

variable {levels : MergedSortedKV} (increasing : ∀ run ∈ MergedSortedKV.runs levels, Increasing run)

/-- The live pairs a stack of levels shows, in order. -/
def livePairs (levels : MergedSortedKV) : KVRun := (MergedSortedKV.collect levels).filter Slot.live

include increasing

theorem livePairs_lists : Lists (livePairs levels) (visible (MergedSortedKV.runs levels)) := by
  have merge := MergedSortedKV.collect_isMerge increasing
  refine ⟨merge.increasing.filter _, fun slot member => (List.mem_filter.mp member).2, fun key val => ?_⟩
  rw [livePairs, List.mem_filter, ← merge.increasing.lookup_eq_some_iff, merge.lookup_eq, visible,
    Option.join_eq_some_iff]
  simp [Slot.live]

/-- A `Seek` iterator stands where the cursor over the live pairs stands. -/
theorem seek_tracks (key : Bytes) :
    LiveTracks (Merged.Tracks (MergedSortedKV.runs levels) (MergedSortedKV.collect levels))
      (KV.filterDeleted (MergedSortedKV.seek levels key))
      ⟨livePairs levels, rank (livePairs levels) fun other => decide (other < key)⟩ := by
  have merge := MergedSortedKV.collect_isMerge increasing
  have start := MergedSortedKV.start_tracks increasing (MergedSortedKV.collect levels) (.seek key)
  have skipped := (Merged.simulates merge).liveTracks_skip_next start (rank_le_length _ _)
    ((Merged.simulates merge).size start)
  rwa [merge.increasing.ordered.liveBefore_rank (isCut_lt key)] at skipped

/-- An iterator over everything visits the live pairs. -/
theorem drain_filterDeleted_iter :
    drain SlotIter.next (fun _ => true) (SlotIter.size (KV.filterDeleted (MergedSortedKV.iter levels)))
      (KV.filterDeleted (MergedSortedKV.iter levels)) = livePairs levels := by
  have merge := MergedSortedKV.collect_isMerge increasing
  have simulation := Merged.simulates merge
  have start : Merged.Tracks _ _ (MergedSortedKV.iter levels) ⟨_, (0 : ℕ)⟩ :=
    MergedSortedKV.start_tracks increasing (MergedSortedKV.collect levels) .iter
  have skipped := simulation.liveTracks_skip_next start (Nat.zero_le _) (simulation.size start)
  rw [show liveBefore (MergedSortedKV.collect levels) 0 = 0 from rfl] at skipped
  have enough := simulation.live.size skipped
  rw [KV.filterDeleted, simulation.live.drain simulation.live.next _ _ skipped,
    drain_cursor_next _ _ (Nat.le_trans (Nat.sub_le ..) enough), List.drop_zero]
  exact List.takeWhile_eq_self_iff.mpr fun _ _ => rfl

omit increasing in
private theorem collect_eq_drain (iter : LiveIter (Merged Bytes Bytes)) (stop : Bytes) (desc : Bool) (fuel : ℕ) :
    KV.RangedKVIter.collect fuel ⟨iter, stop, desc⟩ = drain (if desc then SlotIter.prev else SlotIter.next)
      (fun slot => if desc then decide (stop ≤ slot.key) else decide (slot.key ≤ stop)) fuel iter := by
  induction fuel generalizing iter with
  | zero => rfl
  | succ fuel ih =>
    rw [KV.RangedKVIter.collect, drain]
    cases on : SlotIter.slot? iter with
    | none => simp [KV.RangedKVIter.slot?, on]
    | some slot =>
      cases inside : if desc then decide (stop ≤ slot.key) else decide (slot.key ≤ stop) with
      | false => simp [KV.RangedKVIter.slot?, on, Option.filter, inside]
      | true => cases desc <;> simp_all [KV.RangedKVIter.slot?, KV.RangedKVIter.next, Option.filter]

theorem range_ascending (start stop : Bytes) {fuel : ℕ} (enough : (livePairs levels).length ≤ fuel) :
    KV.RangedKVIter.collect fuel ⟨KV.filterDeleted (MergedSortedKV.seek levels start), stop, false⟩ =
      (livePairs levels).filter fun slot => decide (start ≤ slot.key ∧ slot.key ≤ stop) := by
  have merge := MergedSortedKV.collect_isMerge increasing
  have ordered := (livePairs_lists increasing).increasing.ordered
  have live := (Merged.simulates merge).live
  simp only [collect_eq_drain, Bool.false_eq_true, if_false]
  rw [live.drain live.next _ _ (seek_tracks increasing start), drain_cursor_next _ _ (by omega),
    ordered.drop_rank_eq_filter (isCut_lt start)]
  have tail : Ordered ((livePairs levels).filter fun slot => !decide (slot.key < start)) :=
    List.Pairwise.filter _ ordered
  rw [tail.takeWhile_cut (isCut_le stop), List.filter_filter]
  simp only [← decide_not, not_lt, Bool.decide_and, Bool.and_comm]

/-- A `SeekToLast` iterator stands on the last live pair. -/
theorem seekToLast_tracks : LiveTracks (Merged.Tracks (MergedSortedKV.runs levels) (MergedSortedKV.collect levels))
      (KV.filterDeletedBackward (MergedSortedKV.seekToLast levels))
      ⟨livePairs levels, (livePairs levels).length - 1⟩ := by
  have merge := MergedSortedKV.collect_isMerge increasing
  have simulation := Merged.simulates merge
  have start := MergedSortedKV.start_tracks increasing (MergedSortedKV.collect levels) .seekToLast
  have skipped := simulation.liveTracks_skip_prev start le_rfl (simulation.size start)
  rwa [liveBefore_length le_rfl] at skipped

/-- The place a descending scan starts from: on the last key that is not greater. -/
theorem descending_start (start : Bytes) : LiveTracks
    (Merged.Tracks (MergedSortedKV.runs levels) (MergedSortedKV.collect levels))
    (let iter := KV.filterDeleted (MergedSortedKV.seek levels start)
     if (SlotIter.slot? iter).all (fun slot => decide (start < slot.key)) then SlotIter.prev iter else iter)
    ⟨livePairs levels, (rank (livePairs levels) fun other => decide (other ≤ start)) - 1⟩ := by
  have merge := MergedSortedKV.collect_isMerge increasing
  have simulation := (Merged.simulates merge).live
  have pairs := (livePairs_lists increasing).increasing
  have tracked := seek_tracks increasing start
  have on := simulation.slot tracked
  rw [Cursor.slot?_at] at on
  dsimp only
  rw [on]
  obtain ⟨above, same⟩ | ⟨slot, read, rfl, more⟩ := pairs.rank_cases start
  · have back : ((livePairs levels)[rank (livePairs levels) fun other => decide (other < start)]?).all
        (fun slot => decide (start < slot.key)) = true := by
      rw [Option.all_eq_true]
      exact fun slot read => decide_eq_true (above slot read)
    rw [back, if_pos rfl, same]
    simpa [Cursor.prev_at] using simulation.prev tracked
  · simpa [read, more] using tracked

theorem range_descending (start stop : Bytes) {fuel : ℕ} (enough : (livePairs levels).length ≤ fuel) :
    KV.RangedKVIter.collect fuel
      ⟨let iter := KV.filterDeleted (MergedSortedKV.seek levels start)
       if (SlotIter.slot? iter).all (fun slot => decide (start < slot.key)) then SlotIter.prev iter else iter,
        stop, true⟩ =
      ((livePairs levels).filter fun slot => decide (stop ≤ slot.key ∧ slot.key ≤ start)).reverse := by
  have merge := MergedSortedKV.collect_isMerge increasing
  have ordered := (livePairs_lists increasing).increasing.ordered
  have inside := rank_le_length (livePairs levels) fun other => decide (other ≤ start)
  have live := (Merged.simulates merge).live
  simp only [collect_eq_drain, if_true]
  rw [live.drain live.prev _ _ (descending_start increasing start), drain_cursor_prev _ _ inside (by omega),
    ordered.take_rank_eq_filter (isCut_le start)]
  have front : Ordered ((livePairs levels).filter fun slot => decide (slot.key ≤ start)) :=
    List.Pairwise.filter _ ordered
  have back := front.takeWhile_reverse (isCut_lt stop)
  simp only [← decide_not, not_lt] at back
  rw [back, List.filter_filter]
  simp

end Levels

/-- A transaction over strictly increasing levels reads the map those levels show. -/
theorem KV.reads_of_visible {kv : KV} {tx : KVTX} (live : tx.err = none)
    (increasing : ∀ run ∈ MergedSortedKV.runs (kv.readLevels tx), Increasing run)
    (shows : visible (MergedSortedKV.runs (kv.readLevels tx)) = view) : kv.Reads tx view := by
  subst shows
  have merge := MergedSortedKV.collect_isMerge increasing
  have own := livePairs_lists increasing
  refine ⟨⟨_, own⟩, fun key => ?_, fun pairs lists key => ?_, fun pairs lists start stop desc => ?_⟩
  · rw [KV.get, live, MergedSortedKV.getExact_eq increasing]
    rfl
  · obtain rfl := lists.unique own
    refine ⟨_, by rw [KV.seek, live], fun moves => ?_⟩
    exact (Merged.simulates merge).live.slot_walk (seek_tracks increasing key) moves
  · obtain rfl := lists.unique own
    refine ⟨_, by rw [KV.range, KV.seek, live]; rfl, fun fuel enough => ?_⟩
    cases desc with
    | false => exact range_ascending increasing start stop enough
    | true => exact range_descending increasing start stop enough

/-- Walking back from the greatest key. -/
theorem KV.seekToLast_drains {kv : KV} {tx : KVTX} (live : tx.err = none)
    (increasing : ∀ run ∈ MergedSortedKV.runs (kv.readLevels tx), Increasing run)
    (lists : Lists pairs (visible (MergedSortedKV.runs (kv.readLevels tx)))) : ∃ iter, kv.seekToLast tx = .ok iter ∧
      ∀ fuel, pairs.length ≤ fuel → drain SlotIter.prev (fun _ => true) fuel iter = pairs.reverse := by
  obtain rfl := lists.unique (livePairs_lists increasing)
  refine ⟨_, by rw [KV.seekToLast, live], fun fuel enough => ?_⟩
  have simulation := (Merged.simulates (MergedSortedKV.collect_isMerge increasing)).live
  rw [simulation.drain simulation.prev _ _ (seekToLast_tracks increasing), drain_cursor_prev _ _ le_rfl enough,
    List.take_length]
  exact List.takeWhile_eq_self_iff.mpr fun _ _ => rfl

/-- A cursor put on the first key not below a key is on that key exactly when the key is there. -/
theorem Lists.slot?_rank (lists : Lists pairs view) (key val : Bytes) :
    Cursor.slot? (⟨pairs, rank pairs fun other => decide (other < key)⟩ : Cursor Bytes Bytes) = some ⟨key, some val⟩ ↔
      view key = some val := by
  rw [← lists.mem_iff, Cursor.slot?, if_pos (Int.natCast_nonneg _), Int.toNat_natCast]
  constructor
  · exact List.mem_of_getElem?
  · intro member
    obtain ⟨index, bound, here⟩ := List.mem_iff_getElem.mp member
    have read : pairs[index]? = some ⟨key, some val⟩ := List.getElem?_eq_some_iff.mpr ⟨bound, here⟩
    rw [lists.increasing.rank_lt read, read]

/-- The scans of a transaction visit the live keys between their bounds in order, and `Get` agrees with `Seek`. -/
theorem KV.scans_exact {kv : KV} {tx : KVTX} (live : tx.err = none)
    (increasing : ∀ run ∈ MergedSortedKV.runs (kv.readLevels tx), Increasing run) :
    ∃ pairs, Lists pairs (visible (MergedSortedKV.runs (kv.readLevels tx))) ∧
      (∀ start stop, ∃ ranged, kv.range tx start stop false = .ok ranged ∧ ∀ fuel, pairs.length ≤ fuel →
        ranged.collect fuel = pairs.filter fun slot => decide (start ≤ slot.key ∧ slot.key ≤ stop)) ∧
      (∀ start stop, ∃ ranged, kv.range tx start stop true = .ok ranged ∧ ∀ fuel, pairs.length ≤ fuel →
        ranged.collect fuel = (pairs.filter fun slot => decide (stop ≤ slot.key ∧ slot.key ≤ start)).reverse) ∧
      (∃ iter, kv.seekToLast tx = .ok iter ∧ ∀ fuel, pairs.length ≤ fuel →
        drain SlotIter.prev (fun _ => true) fuel iter = pairs.reverse) ∧
      ∀ key val, kv.get tx key = .ok (some val) ↔
        ∃ iter, kv.seek tx key = .ok iter ∧ SlotIter.slot? iter = some ⟨key, some val⟩ := by
  have reads : kv.Reads tx (visible (MergedSortedKV.runs (kv.readLevels tx))) := KV.reads_of_visible live increasing rfl
  obtain ⟨pairs, lists⟩ := reads.listed
  refine ⟨pairs, lists, fun start stop => reads.range pairs lists start stop false,
    fun start stop => reads.range pairs lists start stop true, KV.seekToLast_drains live increasing lists,
      fun key val => ?_⟩
  obtain ⟨iter, sought, follows⟩ := reads.seek pairs lists key
  have on : SlotIter.slot? iter = Cursor.slot? ⟨pairs, rank pairs fun other => decide (other < key)⟩ := follows []
  rw [reads.get, sought, Except.ok.injEq, ← lists.slot?_rank]
  simp [on]

/-- A transaction with a deletion and a new key over a table that holds three. -/
def scanTX : KVTX := ⟨0, none, [], [.source (.array [⟨[1], none⟩, ⟨[4], some [40]⟩]),
  .source (.file ⟨0, [⟨[1], some [10]⟩, ⟨[2], some [20]⟩, ⟨[3], some [30]⟩], none, by simp⟩)], none⟩

theorem KV.scans_exact_scanTX : scanTX.err = none ∧
    (∀ run ∈ MergedSortedKV.runs (KV.empty.readLevels scanTX), Increasing run) ∧
    ((KV.empty.range scanTX [3] [1] true).map fun ranged => ranged.collect 5) =
      .ok [⟨[3], some [30]⟩, ⟨[2], some [20]⟩] ∧
    ∃ pairs, Lists pairs (visible (MergedSortedKV.runs (KV.empty.readLevels scanTX))) ∧
      (∀ start stop, ∃ ranged, KV.empty.range scanTX start stop false = .ok ranged ∧ ∀ fuel, pairs.length ≤ fuel →
        ranged.collect fuel = pairs.filter fun slot => decide (start ≤ slot.key ∧ slot.key ≤ stop)) ∧
      (∀ start stop, ∃ ranged, KV.empty.range scanTX start stop true = .ok ranged ∧ ∀ fuel, pairs.length ≤ fuel →
        ranged.collect fuel = (pairs.filter fun slot => decide (stop ≤ slot.key ∧ slot.key ≤ start)).reverse) ∧
      (∃ iter, KV.empty.seekToLast scanTX = .ok iter ∧ ∀ fuel, pairs.length ≤ fuel →
        drain SlotIter.prev (fun _ => true) fuel iter = pairs.reverse) ∧
      ∀ key val, KV.empty.get scanTX key = .ok (some val) ↔
        ∃ iter, KV.empty.seek scanTX key = .ok iter ∧ SlotIter.slot? iter = some ⟨key, some val⟩ :=
  ⟨rfl, by decide, by decide +kernel, KV.scans_exact rfl (by decide)⟩

end PallasDB
