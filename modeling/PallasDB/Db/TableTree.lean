import PallasDB.Db.TableFiles

/-! # Nested transactions and their tables

A nested transaction reads the tables that its top-level transaction captured, as long as that one is unfinished.
-/

namespace PallasDB

variable {id : ℕ} {tx : KVTX}

namespace KV

/-- The parts of a transaction that only its end changes. -/
def frame (kv : KV) (id : ℕ) : Option (Option ℕ × List ℕ) := kv.txs[id]?.map fun tx => (tx.target, tx.tables)

/-- A transaction is, or is nested in, the given one. -/
inductive Under (kv : KV) (root : ℕ) : ℕ → Prop
  | self : Under kv root root
  | inner {id parent : ℕ} {names : List ℕ} (found : kv.frame id = some (some parent, names))
      (under : Under kv root parent) : Under kv root id

structure TreeInv (kv : KV) : Prop where
  older : ∀ id parent names, kv.frame id = some (some parent, names) → parent < id
  distinct : kv.ongoing.Nodup
  top : ∀ id ∈ kv.ongoing, ∃ names, kv.frame id = some (none, names)
  shared : ∀ root ∈ kv.ongoing, ∀ id, kv.Under root id → kv.mainSnap id = kv.mainSnap root

section Tree

variable {kv next : KV}

theorem mainSnap_eq_frame (kv : KV) (id : ℕ) : kv.mainSnap id = ((kv.frame id).map Prod.snd).getD [] := by
  rw [mainSnap, frame, Option.map_map]
  rfl

theorem mainSnap_congr {other : ℕ} (same : next.frame other = kv.frame id) : next.mainSnap other = kv.mainSnap id := by
  rw [mainSnap_eq_frame, mainSnap_eq_frame, same]

/-- Under the same frames the same transactions are nested. -/
theorem Under.congr {root : ℕ} (under : next.Under root id) (same : ∀ id, next.frame id = kv.frame id) :
    kv.Under root id := by
  induction under with
  | self => exact .self
  | inner found _ ih => exact .inner ((same _).symm.trans found) ih

theorem frame_append (kv : KV) (new : KVTX) (ongoing : List ℕ) (id : ℕ) :
    ({ kv with txs := kv.txs ++ [new], ongoing := ongoing } : KV).frame id =
      if id = kv.txs.length then some (new.target, new.tables) else kv.frame id := by
  rw [frame, frame]
  split
  · next last =>
    subst last
    simp
  · next other =>
    rcases Nat.lt_or_ge id kv.txs.length with inside | outside
    · rw [List.getElem?_append_left inside]
    · rw [List.getElem?_eq_none (by simp; omega), List.getElem?_eq_none outside]

theorem frame_eq_none (outside : kv.txs.length ≤ id) : kv.frame id = none := by
  rw [frame, List.getElem?_eq_none outside]
  rfl

theorem frame_set (found : kv.txs[id]? = some tx) (new : KVTX) (other : ℕ) :
    (kv.setTx id new).frame other = if other = id then some (new.target, new.tables) else kv.frame other := by
  have inside := (List.getElem?_eq_some_iff.mp found).1
  rw [frame, frame, setTx, List.getElem?_set]
  by_cases same : id = other
  · subst same
    simp [inside]
  · simp [same, Ne.symm same]

theorem TreeInv.frame (inv : TreeInv kv) (same : ∀ id, next.frame id = kv.frame id)
    (ongoing : next.ongoing = kv.ongoing) : TreeInv next := by
  constructor
  · intro id parent names found
    exact inv.older id parent names (same id ▸ found)
  · rw [ongoing]
    exact inv.distinct
  · intro id member
    rw [same]
    exact inv.top id (ongoing ▸ member)
  · intro root member id under
    rw [mainSnap_congr (same id), mainSnap_congr (same root)]
    exact inv.shared root (ongoing ▸ member) id (under.congr same)

theorem TreeInv.lt_length (inv : TreeInv kv) (member : id ∈ kv.ongoing) : id < kv.txs.length := by
  by_contra outside
  obtain ⟨names, found⟩ := inv.top id member
  rw [frame_eq_none (Nat.not_lt.mp outside)] at found
  contradiction

/-- A transaction nested in an ongoing one is not the new one. -/
private theorem Under.old {new : KVTX} {ongoing : List ℕ} (inv : TreeInv kv) {root : ℕ}
    (under : ({ kv with txs := kv.txs ++ [new], ongoing := ongoing } : KV).Under root id)
    (inside : id < kv.txs.length) : kv.Under root id := by
  induction under with
  | self => exact .self
  | inner found _ ih =>
    rw [frame_append, if_neg (Nat.ne_of_lt inside)] at found
    exact .inner found (ih ((inv.older _ _ _ found).trans inside))

private theorem Under.le (inv : TreeInv kv) {root id : ℕ} (under : kv.Under root id) : root ≤ id := by
  induction under with
  | self => exact le_rfl
  | inner found _ ih => exact ih.trans (inv.older _ _ _ found).le

/-- A new top-level transaction, which is tracked or not. -/
theorem TreeInv.append (inv : TreeInv kv) {new : KVTX} (top : new.target = none) {ongoing : List ℕ}
    (tracked : ongoing = kv.ongoing ∨ ongoing = kv.ongoing ++ [kv.txs.length]) :
    TreeInv { kv with txs := kv.txs ++ [new], ongoing := ongoing } := by
  have members {id : ℕ} (member : id ∈ ongoing) : id ∈ kv.ongoing ∨ id = kv.txs.length := by
    rcases tracked with rfl | rfl
    · exact .inl member
    · simpa using member
  have old {id : ℕ} (differ : id ≠ kv.txs.length) :
      ({ kv with txs := kv.txs ++ [new], ongoing := ongoing } : KV).mainSnap id = kv.mainSnap id :=
    mainSnap_congr ((frame_append kv new ongoing id).trans (if_neg differ))
  have nested {id parent : ℕ} {names : List ℕ}
      (found : ({ kv with txs := kv.txs ++ [new], ongoing := ongoing } : KV).frame id = some (some parent, names)) :
      id ≠ kv.txs.length ∧ kv.frame id = some (some parent, names) := by
    rw [frame_append] at found
    split at found
    · simp [top] at found
    · exact ⟨‹_›, found⟩
  constructor
  · exact fun id parent names found => inv.older id parent names (nested found).2
  · rcases tracked with rfl | rfl
    · exact inv.distinct
    · have fresh : kv.txs.length ∉ kv.ongoing := fun member => lt_irrefl _ (inv.lt_length member)
      simpa using inv.distinct.concat fresh
  · intro id member
    rw [frame_append]
    split
    · exact ⟨new.tables, by rw [top]⟩
    · exact inv.top id ((members member).resolve_right ‹_›)
  · intro root member id under
    cases under with
    | self => rfl
    | inner found above =>
      obtain ⟨other, before⟩ := nested found
      have inside : id < kv.txs.length := by
        by_contra outside
        rw [frame_eq_none (Nat.not_lt.mp outside)] at before
        contradiction
      have under := Under.old inv (.inner found above) inside
      have older := under.le inv
      rw [old other, old (by omega)]
      exact inv.shared root ((members member).resolve_right (by omega)) id under

/-- A new nested transaction reads the tables of the enclosing one. -/
theorem TreeInv.appendInner (inv : TreeInv kv) {new : KVTX} {parent : ℕ} (found : kv.txs[parent]? = some tx)
    (nested : new.target = some parent) (same : new.tables = tx.tables) :
    TreeInv { kv with txs := kv.txs ++ [new] } := by
  have inside := (List.getElem?_eq_some_iff.mp found).1
  have old {id : ℕ} (less : id < kv.txs.length) :
      ({ kv with txs := kv.txs ++ [new] } : KV).mainSnap id = kv.mainSnap id :=
    mainSnap_congr ((frame_append kv new kv.ongoing id).trans (if_neg (Nat.ne_of_lt less)))
  constructor
  · intro id outer names read
    rw [frame_append kv new kv.ongoing] at read
    split at read
    · next last =>
      simp only [nested, Option.some.injEq, Prod.mk.injEq] at read
      omega
    · exact inv.older id outer names read
  · exact inv.distinct
  · intro id member
    rw [frame_append kv new kv.ongoing, if_neg (Nat.ne_of_lt (inv.lt_length member))]
    exact inv.top id member
  · intro root member id under
    rw [old (inv.lt_length member)]
    rcases Nat.lt_or_ge id kv.txs.length with less | outside
    · rw [old less]
      exact inv.shared root member id (Under.old inv under less)
    · cases under with
      | self => exact absurd (inv.lt_length member) (Nat.not_lt.mpr outside)
      | inner read above =>
        rw [frame_append kv new kv.ongoing] at read
        split at read
        · next last =>
          subst last
          simp only [nested, Option.some.injEq, Prod.mk.injEq] at read
          obtain ⟨rfl, -⟩ := read
          have own : ({ kv with txs := kv.txs ++ [new] } : KV).mainSnap kv.txs.length = kv.mainSnap parent := by
            simp [mainSnap, found, same]
          rw [own]
          exact inv.shared root member parent (Under.old inv above inside)
        · rw [frame_eq_none outside] at read
          contradiction

theorem frame_untrack (found : kv.txs[id]? = some tx) (member : id ∈ kv.ongoing) (other : ℕ) :
    (kv.untrack id tx).frame other = if other = id then some (tx.target, []) else kv.frame other := by
  rw [untrack, if_pos member]
  exact frame_set found { tx with levels := [], err := some .txDone } other

theorem TreeInv.untrack (inv : TreeInv kv) (found : kv.txs[id]? = some tx) : TreeInv (kv.untrack id tx) := by
  by_cases member : id ∈ kv.ongoing
  · have top : tx.target = none := by
      obtain ⟨names, read⟩ := inv.top id member
      rw [KV.frame, found] at read
      exact (Prod.mk.inj (Option.some.inj read)).1
    have ongoing : (kv.untrack id tx).ongoing = kv.ongoing.erase id := by rw [KV.untrack, if_pos member]
    have left {other : ℕ} (there : other ∈ (kv.untrack id tx).ongoing) : other ≠ id ∧ other ∈ kv.ongoing := by
      rw [ongoing] at there
      exact (inv.distinct.mem_erase_iff).mp there
    have nested {other parent : ℕ} {names : List ℕ}
        (read : (kv.untrack id tx).frame other = some (some parent, names)) :
        other ≠ id ∧ kv.frame other = some (some parent, names) := by
      rw [frame_untrack found member] at read
      split at read
      · simp [top] at read
      · exact ⟨‹_›, read⟩
    have snap {other : ℕ} (differ : other ≠ id) : (kv.untrack id tx).mainSnap other = kv.mainSnap other :=
      mainSnap_congr ((frame_untrack found member other).trans (if_neg differ))
    constructor
    · exact fun other parent names read => inv.older other parent names (nested read).2
    · rw [ongoing]
      exact inv.distinct.erase id
    · intro other there
      obtain ⟨differ, before⟩ := left there
      rw [frame_untrack found member, if_neg differ]
      exact inv.top other before
    · intro root there other under
      obtain ⟨differ, before⟩ := left there
      have same : other ≠ id ∧ kv.Under root other := by
        induction under with
        | self => exact ⟨differ, .self⟩
        | inner read _ ih => exact ⟨(nested read).1, .inner (nested read).2 ih.2⟩
      rw [snap same.1, snap differ]
      exact inv.shared root before other same.2
  · rw [KV.untrack, if_neg member]
    exact inv

end Tree

end KV

end PallasDB
