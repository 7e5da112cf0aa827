import Mathlib.Data.List.Basic
import Mathlib.Data.Nat.Find
import Mathlib.Order.Lattice

/-! # Pages of a filtered stream

A stream is a finite list of items that may end with an error. It is served by reading one item after the other: an item
that is kept is skipped while there are items to skip and is projected into the answer otherwise, and nothing is read
once the limit is reached. The pages of a stream that can be served without a limit are the slices of that answer.
-/

namespace Paging

variable {α β ε : Type}

/-- The answer to a request: rows, then an error if one occurred, and the number of items that were read. -/
structure Served (β ε : Type) where
  rows : List β
  fails : Option ε
  scanned : ℕ
deriving DecidableEq

def Served.read (served : Served β ε) : Served β ε := { served with scanned := served.scanned + 1 }

def Served.cons (row : β) (served : Served β ε) : Served β ε := { served with rows := row :: served.rows }

section Serve

variable (keep : α → Except ε Bool) (project : α → Except ε β)

/-- Serve a stream; a negative limit is none. -/
def serve (fails : Option ε) : List α → ℤ → ℤ → Served β ε
  | [], _, limit => ⟨[], if limit = 0 then none else fails, 0⟩
  | item :: rest, skip, limit =>
      if limit = 0 then ⟨[], none, 0⟩
      else
        match keep item with
        | .error err => ⟨[], some err, 1⟩
        | .ok false => (serve fails rest skip limit).read
        | .ok true =>
            if 0 < skip then (serve fails rest (skip - 1) limit).read
            else
              match project item with
              | .error err => ⟨[], some err, 1⟩
              | .ok row => (serve fails rest skip (if 0 < limit then limit - 1 else limit)).read.cons row

def kept (item : α) : Bool :=
  match keep item with
  | .ok true => true
  | _ => false

end Serve

variable {keep : α → Except ε Bool} {project : α → Except ε β} {fails : Option ε} {item : α} {items rest : List α}
  {rows : List β} {total : ℕ}

@[simp] theorem serve_zero (skip : ℤ) : serve keep project fails items skip 0 = ⟨[], none, 0⟩ := by
  cases items <;> simp [serve]

section Step

variable {skip limit : ℤ} (more : limit ≠ 0)

include more

theorem serve_drops (dropped : keep item = .ok false) :
    serve keep project fails (item :: rest) skip limit = (serve keep project fails rest skip limit).read := by
  simp [serve, more, dropped]

theorem serve_skips (matched : keep item = .ok true) (positive : 0 < skip) :
    serve keep project fails (item :: rest) skip limit = (serve keep project fails rest (skip - 1) limit).read := by
  simp [serve, more, matched, positive]

theorem serve_takes (matched : keep item = .ok true) (none : ¬ 0 < skip) {row : β}
    (projected : project item = .ok row) : serve keep project fails (item :: rest) skip limit =
      (serve keep project fails rest skip (if 0 < limit then limit - 1 else limit)).read.cons row := by
  simp [serve, more, matched, none, projected]

end Step

/-- What an answer without a limit and without an error says about the first item. -/
theorem serve_whole_cons (whole : serve keep project fails (item :: rest) 0 (-1) = ⟨rows, none, total⟩) :
    ∃ others less, total = less + 1 ∧ serve keep project fails rest 0 (-1) = ⟨others, none, less⟩ ∧
      (keep item = .ok false ∧ rows = others ∨
        keep item = .ok true ∧ ∃ row, project item = .ok row ∧ rows = row :: others) := by
  rw [serve, if_neg (by decide)] at whole
  split at whole
  · simp at whole
  · next dropped =>
    obtain ⟨rfl, same, rfl⟩ := Served.mk.inj whole
    exact ⟨_, _, rfl, by rw [← same], .inl ⟨dropped, rfl⟩⟩
  · next matched =>
    rw [if_neg (by decide)] at whole
    split at whole
    · simp at whole
    · next row projected =>
      obtain ⟨rfl, same, rfl⟩ := Served.mk.inj whole
      exact ⟨_, _, rfl, by rw [← same]; rfl, .inr ⟨matched, row, projected, rfl⟩⟩

/-- Items that are all kept and all projected. -/
theorem serve_all {value : α → β} (all : ∀ item ∈ items, keep item = .ok true ∧ project item = .ok (value item)) :
    serve keep project fails items 0 (-1) = ⟨items.map value, fails, items.length⟩ := by
  induction items with
  | nil => rfl
  | cons item rest ih =>
    obtain ⟨matched, projected⟩ := all item (List.mem_cons_self ..)
    rw [serve_takes (by decide) matched (lt_irrefl _) projected, if_neg (by decide),
      ih fun other member => all other (List.mem_cons_of_mem _ member)]
    rfl

/-- Without a limit and an error every item is read. -/
theorem serve_whole_length (whole : serve keep project fails items 0 (-1) = ⟨rows, none, total⟩) :
    fails = none ∧ total = items.length := by
  induction items generalizing rows total with
  | nil =>
    obtain ⟨_, same, rfl⟩ := Served.mk.inj whole
    exact ⟨same, rfl⟩
  | cons item rest ih =>
    obtain ⟨others, less, rfl, tail, _⟩ := serve_whole_cons whole
    obtain ⟨same, rfl⟩ := ih tail
    exact ⟨same, rfl⟩

/-- A page of a stream that is served without a limit is a slice of that answer, and no proper part of what is read for
it would have been enough. -/
theorem serve_page (whole : serve keep project fails items 0 (-1) = ⟨rows, none, total⟩) (skip limit : ℕ) :
    ∃ scanned ≤ total, serve keep project fails items skip limit = ⟨(rows.drop skip).take limit, none, scanned⟩ ∧
      ∀ shorter < scanned, (items.take shorter).countP (kept keep) < skip + limit := by
  induction items generalizing rows total skip limit with
  | nil =>
    cases whole
    exact ⟨0, le_rfl, by simp [serve], by simp⟩
  | cons item rest ih =>
    rcases limit with _ | limit
    · exact ⟨0, Nat.zero_le _, by simp, by simp⟩
    have more : ((limit + 1 : ℕ) : ℤ) ≠ 0 := by omega
    -- the first item read is always needed
    have counted {scanned most : ℕ} (least : (if kept keep item then 1 else 0) + most = skip + (limit + 1))
        (needed : ∀ shorter < scanned, (rest.take shorter).countP (kept keep) < most) :
        ∀ shorter < scanned + 1, ((item :: rest).take shorter).countP (kept keep) < skip + (limit + 1) := by
      intro shorter less
      cases shorter with
      | zero =>
        change 0 < skip + (limit + 1)
        omega
      | succ shorter =>
        have before := needed shorter (Nat.lt_of_succ_lt_succ less)
        rw [List.take_succ_cons, List.countP_cons]
        omega
    obtain ⟨others, less, rfl, tail, ⟨dropped, rfl⟩ | ⟨matched, row, projected, rfl⟩⟩ := serve_whole_cons whole
    · obtain ⟨scanned, fewer, page, needed⟩ := ih tail skip (limit + 1)
      refine ⟨scanned + 1, Nat.succ_le_succ fewer, ?_, counted (by simp [kept, dropped]) needed⟩
      rw [serve_drops more dropped, page]
      rfl
    · cases skip with
      | succ skip =>
        obtain ⟨scanned, fewer, page, needed⟩ := ih tail skip (limit + 1)
        refine ⟨scanned + 1, Nat.succ_le_succ fewer, ?_, counted (by simp [kept, matched]; omega) needed⟩
        have lower : ((skip + 1 : ℕ) : ℤ) - 1 = skip := by omega
        rw [serve_skips more matched (by omega), lower, page]
        rfl
      | zero =>
        obtain ⟨scanned, fewer, page, needed⟩ := ih tail 0 limit
        refine ⟨scanned + 1, Nat.succ_le_succ fewer, ?_, counted (by simp [kept, matched]; omega) needed⟩
        have lower : (if 0 < ((limit + 1 : ℕ) : ℤ) then ((limit + 1 : ℕ) : ℤ) - 1 else (limit + 1 : ℕ)) =
          (limit : ℤ) := by
          omega
        rw [serve_takes more matched (by simp) projected, lower, page]
        rfl

/-- The pages up to the first empty one make up the whole list. -/
theorem pages_flatten (rows : List β) {size : ℕ} (positive : 1 ≤ size) :
    ∃ pages, (rows.drop (pages * size)).take size = [] ∧ (∀ page < pages, (rows.drop (page * size)).take size ≠ []) ∧
      (List.range pages).flatMap (fun page => (rows.drop (page * size)).take size) = rows := by
  have taken (pages : ℕ) :
      (List.range pages).flatMap (fun page => (rows.drop (page * size)).take size) = rows.take (pages * size) := by
    induction pages with
    | zero => simp
    | succ pages ih =>
      rw [List.range_succ, List.flatMap_append, ih, List.flatMap_singleton, Nat.succ_mul, List.take_add]
  have empty (page : ℕ) : (rows.drop (page * size)).take size = [] ↔ rows.length ≤ page * size := by
    rw [List.take_eq_nil_iff, List.drop_eq_nil_iff]
    exact ⟨fun either => either.resolve_left (by omega), .inr⟩
  have ends : ∃ pages, rows.length ≤ pages * size := ⟨rows.length, Nat.le_mul_of_pos_right _ positive⟩
  refine ⟨Nat.find ends, (empty _).mpr (Nat.find_spec ends), ?_, ?_⟩
  · intro page earlier none
    exact Nat.find_min ends earlier ((empty page).mp none)
  · rw [taken, List.take_of_length_le (Nat.find_spec ends)]

end Paging
