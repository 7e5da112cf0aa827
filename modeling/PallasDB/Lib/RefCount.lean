import Mathlib.Data.Multiset.Count
import Mathlib.Data.Finset.Basic
import Mathlib.Data.Finset.Insert

/-! # Reference counted files

A pool keeps one handle for every file: a counter, whether the descriptor is open, and whether the file is to be
unlinked with the last reference. The files that should stay whatever happens to the counters are the kept ones. The
pool is consistent with the references that are held if every counter is their number; then a file that is held is open
and there, and a file is there exactly if it is kept, or retired and held.
-/

namespace RefCount

/-- The counter has no bound: it stands for one of a fixed width while fewer references are held than that counts. -/
structure Handle where
  refs : ℤ
  isOpen : Bool
  retired : Bool
deriving DecidableEq, Repr

structure Pool (ι : Type) where
  handle : ι → Handle
  files : Finset ι

namespace Pool

variable {ι : Type} [DecidableEq ι]

/-- No file was ever created. -/
def empty : Pool ι := ⟨fun _ => ⟨0, false, false⟩, ∅⟩

def setHandle (pool : Pool ι) (id : ι) (handle : Handle) : Pool ι :=
  { pool with handle := Function.update pool.handle id handle }

/-- A new file, with its descriptor open and no reference yet. -/
def create (pool : Pool ι) (id : ι) : Pool ι :=
  ⟨Function.update pool.handle id ⟨0, true, false⟩, insert id pool.files⟩

/-- A new handle of a file that is there. -/
def reopen (pool : Pool ι) (id : ι) : Pool ι := pool.setHandle id ⟨0, true, false⟩

def acquire (pool : Pool ι) (id : ι) : Pool ι :=
  pool.setHandle id { pool.handle id with refs := (pool.handle id).refs + 1 }

/-- The last release closes the descriptor, and unlinks the file if it is retired. -/
def release (pool : Pool ι) (id : ι) : Pool ι :=
  let refs := (pool.handle id).refs - 1
  if 0 < refs then pool.setHandle id { pool.handle id with refs := refs }
  else
    { pool.setHandle id { pool.handle id with refs := refs, isOpen := false } with
      files := if (pool.handle id).retired then pool.files.erase id else pool.files }

def retire (pool : Pool ι) (id : ι) : Pool ι := pool.setHandle id { pool.handle id with retired := true }

def acquireAll (pool : Pool ι) (ids : List ι) : Pool ι := ids.foldl acquire pool

/-- Open files that are there, each with one reference. -/
def reopenAll (pool : Pool ι) (ids : List ι) : Pool ι := ids.foldl (fun pool id => (pool.reopen id).acquire id) pool

/-- A handle with so many references, of a file that is kept and present or not. -/
structure HandleOk (handle : Handle) (held : ℕ) (kept present : Prop) : Prop where
  counts : handle.refs = held
  opened : 0 < held → handle.isOpen = true
  known : 0 < held → kept ∨ handle.retired = true
  current : kept → handle.retired = false
  present_iff : present ↔ kept ∨ handle.retired = true ∧ 0 < held

/-- The counters of the pool are the references held. -/
def Ok (pool : Pool ι) (held : Multiset ι) (kept : Finset ι) : Prop :=
  ∀ id, HandleOk (pool.handle id) (held.count id) (id ∈ kept) (id ∈ pool.files)

section Rules

variable {pool : Pool ι} {held : Multiset ι} {kept : Finset ι} {id : ι}

theorem ok_empty : (empty : Pool ι).Ok 0 ∅ := fun id => by constructor <;> simp [empty]

theorem setHandle_self (pool : Pool ι) (id : ι) (handle : Handle) : (pool.setHandle id handle).handle id = handle :=
  Function.update_self ..

theorem setHandle_of_ne (pool : Pool ι) {other : ι} (differ : other ≠ id) (handle : Handle) :
    (pool.setHandle id handle).handle other = pool.handle other :=
  Function.update_of_ne differ ..

/-- What is held is open and there. -/
theorem Ok.usable (ok : pool.Ok held kept) (member : id ∈ held) : (pool.handle id).isOpen = true ∧ id ∈ pool.files := by
  have positive := Multiset.count_pos.mpr member
  exact ⟨(ok id).opened positive, (ok id).present_iff.mpr (((ok id).known positive).imp_right fun gone =>
    ⟨gone, positive⟩)⟩

/-- A file that nobody holds can be created. -/
theorem Ok.create (ok : pool.Ok held kept) (free : id ∉ held) : (pool.create id).Ok held (insert id kept) := by
  intro other
  by_cases equal : other = id
  · subst equal
    have made : (pool.create other).handle other = ⟨0, true, false⟩ := Function.update_self ..
    rw [made, Multiset.count_eq_zero_of_notMem free]
    constructor <;> simp [Pool.create]
  · have same : (pool.create id).handle other = pool.handle other := Function.update_of_ne equal ..
    simpa [Pool.create, equal] using ok other

theorem Ok.acquire (ok : pool.Ok held kept) (opened : (pool.handle id).isOpen = true) (present : id ∈ pool.files) :
    (pool.acquire id).Ok (id ::ₘ held) kept := by
  intro other
  change HandleOk _ _ _ (other ∈ pool.files)
  by_cases equal : other = id
  · subst equal
    obtain ⟨counts, -, -, current, there⟩ := ok other
    have known := there.mp present
    rw [Pool.acquire, setHandle_self, Multiset.count_cons_self]
    refine ⟨by simp [counts], fun _ => opened, fun _ => known.imp_right And.left, current, ?_⟩
    simp only [present, true_iff]
    exact known.imp_right fun gone => ⟨gone.1, Nat.succ_pos _⟩
  · rw [Pool.acquire, setHandle_of_ne _ equal, Multiset.count_cons_of_ne equal]
    exact ok other

theorem Ok.retire (ok : pool.Ok held kept) (member : id ∈ held) : (pool.retire id).Ok held (kept.erase id) := by
  intro other
  change HandleOk _ _ _ (other ∈ pool.files)
  by_cases equal : other = id
  · subst equal
    have positive := Multiset.count_pos.mpr member
    obtain ⟨-, present⟩ := ok.usable member
    rw [Pool.retire, setHandle_self]
    exact ⟨(ok other).counts, (ok other).opened, fun _ => .inr rfl, fun keeps => by simp at keeps,
      by simp [present, positive]⟩
  · rw [Pool.retire, setHandle_of_ne _ equal]
    simpa [equal] using ok other

theorem Ok.release (ok : pool.Ok held kept) (member : id ∈ held) : (pool.release id).Ok (held.erase id) kept := by
  intro other
  by_cases equal : other = id
  · subst equal
    obtain ⟨counts, opened, known, current, there⟩ := ok other
    obtain ⟨rest, total⟩ := Nat.exists_eq_add_of_lt (Multiset.count_pos.mpr member)
    rw [Nat.zero_add] at total
    have left : (pool.handle other).refs - 1 = rest := by
      omega
    rw [total] at opened known there
    simp only [Pool.release, left, Multiset.count_erase_self, total, Nat.add_sub_cancel]
    split
    · next positive =>
      rw [setHandle_self]
      refine ⟨rfl, fun _ => opened (Nat.succ_pos _), fun _ => known (Nat.succ_pos _), current, there.trans ?_⟩
      have more : 0 < rest := by omega
      simp [more]
    · next last =>
      obtain rfl : rest = 0 := by omega
      simp only [setHandle_self]
      refine ⟨rfl, by simp, by simp, current, ?_⟩
      cases gone : (pool.handle other).retired with
      | true => simpa using fun keeps => by simp [current keeps] at gone
      | false => simpa [gone] using there
  · have count : (held.erase id).count other = held.count other := Multiset.count_erase_of_ne equal _
    rw [count, Pool.release]
    split
    · rw [setHandle_of_ne _ equal]
      exact ok other
    · rw [setHandle_of_ne _ equal]
      split
      · simpa [equal] using ok other
      · exact ok other

theorem create_isOpen (pool : Pool ι) (id : ι) : ((pool.create id).handle id).isOpen = true := by
  simp [Pool.create]

theorem create_retired {other : ι} (gone : ((pool.create id).handle other).retired = true) :
    (pool.handle other).retired = true := by
  by_cases equal : other = id
  · subst equal
    simp [Pool.create] at gone
  · simpa [Pool.create, Function.update_of_ne equal] using gone

theorem retire_retired {other : ι} (gone : ((pool.retire id).handle other).retired = true) :
    other = id ∨ (pool.handle other).retired = true := by
  by_cases equal : other = id
  · exact .inl equal
  · rw [Pool.retire, setHandle_of_ne _ equal] at gone
    exact .inr gone

theorem acquire_retired (pool : Pool ι) (id other : ι) :
    ((pool.acquire id).handle other).retired = (pool.handle other).retired := by
  by_cases equal : other = id
  · rw [equal, Pool.acquire, setHandle_self]
  · rw [Pool.acquire, setHandle_of_ne _ equal]

theorem acquire_isOpen (pool : Pool ι) (id other : ι) :
    ((pool.acquire id).handle other).isOpen = (pool.handle other).isOpen := by
  by_cases equal : other = id
  · rw [equal, Pool.acquire, setHandle_self]
  · rw [Pool.acquire, setHandle_of_ne _ equal]

theorem acquireAll_retired (pool : Pool ι) (ids : List ι) (other : ι) :
    ((pool.acquireAll ids).handle other).retired = (pool.handle other).retired := by
  induction ids generalizing pool with
  | nil => rfl
  | cons id ids ih => exact (ih (pool.acquire id)).trans (pool.acquire_retired id other)

theorem acquireAll_isOpen (pool : Pool ι) (ids : List ι) (other : ι) :
    ((pool.acquireAll ids).handle other).isOpen = (pool.handle other).isOpen := by
  induction ids generalizing pool with
  | nil => rfl
  | cons id ids ih => exact (ih (pool.acquire id)).trans (pool.acquire_isOpen id other)

theorem release_retired (pool : Pool ι) (id other : ι) :
    ((pool.release id).handle other).retired = (pool.handle other).retired := by
  rw [Pool.release]
  by_cases equal : other = id
  · subst equal
    split <;> simp only [setHandle_self]
  · split <;> simp only [setHandle_of_ne _ equal]

theorem release_of_ne (pool : Pool ι) {other : ι} (differ : other ≠ id) :
    (pool.release id).handle other = pool.handle other := by
  rw [Pool.release]
  split <;> simp only [setHandle_of_ne _ differ]

/-- A new file takes the place of two. -/
theorem Ok.replacePair (ok : pool.Ok held kept) {new old1 old2 : ι} (free : new ∉ held) (first : old1 ∈ held)
    (second : old2 ∈ held) : ((((pool.create new).acquire new).retire old1).retire old2).Ok (new ::ₘ held)
      (((insert new kept).erase old1).erase old2) := by
  have made := (ok.create free).acquire (pool.create_isOpen new) (Finset.mem_insert_self new pool.files)
  exact (made.retire (Multiset.mem_cons_of_mem first)).retire (Multiset.mem_cons_of_mem second)

theorem Ok.acquireAll (ok : pool.Ok held kept) {ids : List ι} (inside : ∀ id ∈ ids, id ∈ held) :
    (pool.acquireAll ids).Ok (ids + held) kept := by
  induction ids generalizing pool held with
  | nil => simpa [Pool.acquireAll] using ok
  | cons id ids ih =>
    rw [List.forall_mem_cons] at inside
    obtain ⟨opened, present⟩ := ok.usable inside.1
    have more := ih (ok.acquire opened present) fun other member => Multiset.mem_cons_of_mem (inside.2 other member)
    rw [← Multiset.cons_coe, Multiset.cons_add, ← Multiset.add_cons]
    exact more

theorem reopenAll_files (pool : Pool ι) (ids : List ι) : (pool.reopenAll ids).files = pool.files := by
  induction ids generalizing pool with
  | nil => rfl
  | cons id ids ih => exact ih _

theorem reopenAll_retired {ids : List ι} {other : ι} (gone : ((pool.reopenAll ids).handle other).retired = true) :
    (pool.handle other).retired = true := by
  induction ids generalizing pool with
  | nil => exact gone
  | cons id ids ih =>
    have before := ih gone
    rw [acquire_retired, Pool.reopen] at before
    by_cases equal : other = id
    · simp [equal, setHandle_self] at before
    · rwa [setHandle_of_ne _ equal] at before

/-- With no references left, the kept files can be opened again. -/
theorem Ok.reopenAll (ok : pool.Ok held kept) {ids : List ι} (distinct : ids.Nodup) (inside : ∀ id ∈ ids, id ∈ kept)
    (free : ∀ id ∈ ids, id ∉ held) : (pool.reopenAll ids).Ok (ids + held) kept := by
  induction ids generalizing pool held with
  | nil => simpa [Pool.reopenAll] using ok
  | cons id ids ih =>
    rw [List.forall_mem_cons] at inside free
    obtain ⟨fresh, distinct⟩ := List.nodup_cons.mp distinct
    have present := (ok id).present_iff.mpr (.inl inside.1)
    have again : (pool.reopen id).Ok held kept := by
      intro other
      by_cases equal : other = id
      · subst equal
        rw [Pool.reopen, setHandle_self, Multiset.count_eq_zero_of_notMem free.1]
        exact ⟨rfl, by simp, by simp, fun _ => rfl, by simp [Pool.setHandle, present, inside.1]⟩
      · rw [Pool.reopen, setHandle_of_ne _ equal]
        exact ok other
    have first := again.acquire (by rw [Pool.reopen, setHandle_self]) present
    have more := ih first distinct inside.2 fun other member => by
      rw [Multiset.mem_cons, not_or]
      exact ⟨fun equal => fresh (equal ▸ member), free.2 other member⟩
    rw [← Multiset.cons_coe, Multiset.cons_add, ← Multiset.add_cons]
    exact more

end Rules

end Pool

end RefCount
