import PallasDB.Db.Plan

/-! # What a plan keeps of a condition

A conjunction means that its operands hold. That meaning does not depend on how deeply the conjunction is nested, while
the evaluator gives up at a fixed depth, and the planner may drop the operands that made a condition too deep. Where the
evaluator does give a condition a value, the value is its meaning.

The range and the residual of a plan hold on a row exactly if the condition means true there. The planner trusts the
shape of the comparisons it turns into bounds, so this is about conditions as they are written: a tuple has at least
two elements, because the parser takes a single one in parentheses for that element.
-/

namespace PallasDB

/-! ## Written conditions -/

mutual

/-- What the parser makes of an expression. -/
def Expr.written : Expr → Bool
  | .name _ | .cell _ | .star => true
  | .unOp _ kid => kid.written
  | .binOp _ left right => left.written && right.written
  | .tuple kids => decide (2 ≤ kids.length) && Expr.allWritten kids

def Expr.allWritten : List Expr → Bool
  | [] => true
  | kid :: kids => kid.written && Expr.allWritten kids

end

variable {expr : Expr} {cond : Option Expr} {depth : ℕ} {conj : List Expr}

section Truth

variable {schema : Schema} {row : Row}

/-! ## The meaning of a condition -/

/-- A conjunction holds if its operands do, anything else if it evaluates to true. -/
def Truth (schema : Schema) (row : Row) : Expr → Prop
  | .binOp op left right =>
      if op = .and then Truth schema row left ∧ Truth schema row right else Sat schema row (.binOp op left right)
  | expr => Sat schema row expr

/-- A missing condition holds. -/
def Satisfies (schema : Schema) (row : Row) (cond : Option Expr) : Prop :=
    ∀ expr, cond = some expr → Truth schema row expr

theorem truth_and (left right : Expr) :
    Truth schema row (.binOp .and left right) ↔ Truth schema row left ∧ Truth schema row right := by
  rw [Truth, if_pos rfl]

/-- The evaluator agrees with the meaning where it finds a value. -/
theorem Defined.truth_iff (defined : Defined schema row expr) : Truth schema row expr ↔ Sat schema row expr := by
  induction expr using Truth.induct with
  | case1 left right ihLeft ihRight =>
    obtain ⟨leftDefined, rightDefined, both⟩ := defined.and
    rw [truth_and, ihLeft leftDefined, ihRight rightDefined, both]
  | case2 op left right other => rw [Truth, if_neg other]
  | case3 expr other => rw [Truth]; exact other

theorem matchRow_satisfies {truth : Bool} (result : matchRow schema row cond = .ok truth) :
    Satisfies schema row cond ↔ truth = true := by
  cases cond with
  | none =>
    cases result
    simp [Satisfies]
  | some expr =>
    obtain ⟨defined, sat⟩ := matchRow_some result
    rw [← sat, ← defined.truth_iff]
    simp [Satisfies]

/-! ## Conjuncts -/

/-- What the loop still has to do. -/
private def flattenWork (stack out : List Expr) : ℕ :=
  2 * (maxPlanConjuncts - (out.length + stack.length)) + stack.length

/-- Splitting a conjunction and moving it to the result as it is lead to the same conditions. -/
private theorem flattenLoop_truth (rounds : ℕ) (stack out : List Expr) (enough : flattenWork stack out ≤ rounds)
    (few : out.length + stack.length ≤ maxPlanConjuncts) :
    (∀ node ∈ flattenLoop rounds stack out, Truth schema row node) ↔
      (∀ node ∈ out, Truth schema row node) ∧ ∀ node ∈ stack, Truth schema row node := by
  induction rounds generalizing stack out with
  | zero =>
    have empty : stack = [] := List.length_eq_zero_iff.mp (by simp only [flattenWork] at enough; omega)
    subst empty
    simp [flattenLoop]
  | succ rounds ih =>
    cases stack with
    | nil => simp [flattenLoop]
    | cons node stack =>
      simp only [flattenWork, List.length_cons] at enough few
      have moved : (∀ other ∈ flattenLoop rounds stack (out ++ [node]), Truth schema row other) ↔
          (∀ other ∈ out, Truth schema row other) ∧ ∀ other ∈ node :: stack, Truth schema row other := by
        rw [ih stack (out ++ [node]) (by simp [flattenWork]; omega) (by simp; omega)]
        simp only [List.mem_append, List.mem_cons, List.not_mem_nil, or_false, or_imp, forall_and, forall_eq]
        tauto
      rw [flattenLoop]
      split
      · next left right found =>
        obtain rfl := asAnd_eq_some.mp found
        split
        · rw [ih (left :: right :: stack) out (by simp [flattenWork]; omega) (by simp; omega)]
          simp only [List.mem_cons, or_imp, forall_and, forall_eq, truth_and, and_assoc]
        · exact moved
      · exact moved

theorem flattenAnd_truth (cond : Expr) :
    Truth schema row cond ↔ ∀ (i : ℕ) (node : Expr), (flattenAnd cond)[i]? = some node → Truth schema row node := by
  have loop := @flattenLoop_truth schema row (2 * maxPlanConjuncts) [cond] []
    (by simp [flattenWork, maxPlanConjuncts]) (by simp [maxPlanConjuncts])
  simp only [List.mem_singleton, forall_eq, List.not_mem_nil, false_imp_iff, implies_true, true_and] at loop
  rw [← loop]
  constructor
  · exact fun every i node found => every node (List.mem_of_getElem? found)
  · exact fun every node member => (List.getElem?_of_mem member).elim fun i found => every i node found

/-- The operands of a condition have what conjunctions pass on to their operands. -/
theorem flattenAnd_forall {holds : Expr → Prop}
    (splits : ∀ left right, holds (.binOp .and left right) → holds left ∧ holds right) {cond : Expr}
    (whole : holds cond) : ∀ node ∈ flattenAnd cond, holds node := by
  have loop (rounds : ℕ) (stack out : List Expr) (stacked : ∀ node ∈ stack, holds node)
    (done : ∀ node ∈ out, holds node) :
      ∀ node ∈ flattenLoop rounds stack out, holds node := by
    induction rounds generalizing stack out with
    | zero => exact done
    | succ rounds ih =>
      cases stack with
      | nil => exact done
      | cons node stack =>
        obtain ⟨own, others⟩ := List.forall_mem_cons.mp stacked
        have moved := ih stack (out ++ [node]) others (by simpa [or_imp, forall_and] using ⟨done, own⟩)
        rw [flattenLoop]
        split
        · next left right found =>
          obtain rfl := asAnd_eq_some.mp found
          split
          · obtain ⟨first, second⟩ := splits left right own
            exact ih (left :: right :: stack) out (by simpa [or_imp, forall_and] using ⟨first, second, others⟩) done
          · exact moved
        · exact moved
  exact loop _ [cond] [] (by simpa using whole) (by simp)

/-- The conjunction of some operands holds if the operands do. -/
private theorem foldl_and_truth {used : List ℕ} (entries : List (Expr × ℕ)) (out : Option Expr) : Satisfies schema row
        (entries.foldl (fun out entry => if entry.2 ∈ used then out else some (andNode out entry.1)) out) ↔
      Satisfies schema row out ∧ ∀ entry ∈ entries, entry.2 ∉ used → Truth schema row entry.1 := by
  induction entries generalizing out with
  | nil => simp
  | cons entry entries ih =>
    rw [List.foldl_cons, ih]
    by_cases dropped : entry.2 ∈ used
    · simp [dropped]
    · cases out with
      | none => simp [Satisfies, andNode, dropped]
      | some left => simp [Satisfies, andNode, dropped, truth_and, and_assoc]

theorem andExcept_truth (conj : List Expr) (used : List ℕ) : Satisfies schema row (andExcept conj used) ↔
      ∀ (i : ℕ) (node : Expr), conj[i]? = some node → i ∉ used → Truth schema row node := by
  rw [andExcept, foldl_and_truth]
  have empty : Satisfies schema row none := by simp [Satisfies]
  rw [and_iff_right empty]
  constructor
  · intro all i node found
    exact all (node, i) (List.mk_mem_zipIdx_iff_getElem?.mpr found)
  · intro all entry member
    exact all entry.2 entry.1 (List.mem_zipIdx_iff_getElem?.mp member)

/-! ## Operands a plan uses -/

/-- An operand that fixes a column of an index or bounds an index, or two that bound one. -/
inductive Matched (schema : Schema) : Expr → Prop
  | fixes {index : List ℕ} {idx : ℕ} {col : Column} {node : Expr} {val : Cell} (member : index ∈ schema.indices)
      (inside : idx ∈ index) (found : schema.cols[idx]? = some col) (matched : matchEq node = some ⟨col.name, val⟩)
      (type : val.type = col.type) : Matched schema node
  | bounds {indexNo : ℕ} {node : Expr} {bound : MatchedCmp} (matched : matchBound schema indexNo node = some bound) :
      Matched schema node
  | both {indexNo : ℕ} {left right : Expr} {first second : MatchedCmp}
      (matchedLeft : matchBound schema indexNo left = some first)
      (matchedRight : matchBound schema indexNo right = some second) : Matched schema (.binOp .and left right)

/-! ## Comparisons that have a value -/

/-- The values of leaves, as the evaluator of a tuple finds them. -/
private theorem evalAll_leaves {kids : List Expr} {vals : List Cell} (leaves : List.Forall₂ (Leaf schema row) kids vals)
    (shallow : depth ≤ maxExprDepth) : evalAll schema row kids depth = vals.map .ok := by
  induction leaves with
  | nil => rfl
  | cons leaf _ ih => rw [evalAll, leaf.value shallow, ih, List.map_cons]

private theorem compareValues_same {left right : List Cell} (types : left.map Cell.type = right.map Cell.type) :
    ∃ order, compareValues (left.map .ok) (right.map .ok) = .ok order := by
  induction left generalizing right with
  | nil => exact ⟨.eq, by cases right <;> rfl⟩
  | cons a left ih =>
    cases right with
    | nil => contradiction
    | cons b right =>
      obtain ⟨own, rest⟩ := List.cons.inj types
      obtain ⟨order, compared⟩ := Option.isSome_iff_exists.mp (Cell.compare?_isSome.mpr own)
      rw [List.map_cons, List.map_cons, compareValues, compared]
      cases order with
      | eq => exact ih rest
      | lt => exact ⟨_, rfl⟩
      | gt => exact ⟨_, rfl⟩

/-- A written operand is a tuple exactly if it has several cells. -/
private theorem Denotes.isTuple_iff {vals : List Cell} (denotes : Denotes schema row expr vals)
    (written : expr.written = true) : expr.isTuple = true ↔ 2 ≤ vals.length := by
  cases denotes with
  | scalar leaf => simp [leaf.plain]
  | tuple leaves =>
    rw [Expr.written, Bool.and_eq_true, decide_eq_true_eq] at written
    rw [← leaves.length_eq]
    exact iff_of_true rfl written.1

/-- A comparison of cells of the same types has a value. -/
private theorem evalExprAt_same {op : ExprOp} {left right : Expr} {xs ys : List Cell} (isCmp : isCmpOp op = true)
    (first : Denotes schema row left xs) (second : Denotes schema row right ys)
    (written : (Expr.binOp op left right).written = true) (types : xs.map Cell.type = ys.map Cell.type)
    (shallow : depth < maxExprDepth) : ∃ val, evalExprAt schema row (.binOp op left right) depth = .ok (.i64 val) := by
  have lengths : xs.length = ys.length := by simpa using congrArg List.length types
  rw [Expr.written, Bool.and_eq_true] at written
  have shape := (first.isTuple_iff written.1).trans (lengths ▸ (second.isTuple_iff written.2).symm)
  rw [evalExprAt, capped, if_neg (not_lt.mpr shallow.le)]
  cases first with
  | @scalar _ a leaf =>
    cases second with
    | tuple leaves => simp [leaf.plain] at shape
    | @scalar _ b leaf' =>
      obtain ⟨order, compared⟩ := Option.isSome_iff_exists.mp (Cell.compare?_isSome.mpr (List.cons.inj types).1)
      obtain ⟨number, shown, _⟩ := boolCell_true (cmpResult op order)
      refine ⟨number, ?_⟩
      rw [leaf.plain, leaf'.plain, leaf.value shallow, leaf'.value shallow]
      simp only [Bool.or_self, Bool.and_false, Bool.false_eq_true, if_false]
      unfold evalBinOp
      simp only [compared, isCmp, if_true, shown]
  | @tuple lefts _ leaves =>
    cases second with
    | scalar leaf' => simp [leaf'.plain] at shape
    | @tuple rights _ leaves' =>
      obtain ⟨order, compared⟩ := compareValues_same types
      obtain ⟨number, shown, _⟩ := boolCell_true (cmpResult op order)
      refine ⟨number, ?_⟩
      simp only [Expr.isTuple_tuple, isCmp, Bool.or_self, Bool.and_self, if_true, evalKids]
      rw [evalAll_leaves leaves shallow, evalAll_leaves leaves' shallow, evalTupleCmp, if_neg (by simpa using lengths),
        compared, ← shown]

theorem Compares.value {op : ExprOp} {own cells : List Cell} (compares : Compares schema row op own cells expr)
    (types : own.map Cell.type = cells.map Cell.type) (written : expr.written = true) (shallow : depth < maxExprDepth) :
    ∃ val, evalExprAt schema row expr depth = .ok (.i64 val) := by
  cases compares with
  | forth isCmp first second => exact evalExprAt_same isCmp first second written types shallow
  | back isCmp flip first second => exact evalExprAt_same isCmp first second written types.symm shallow

section

variable (created : schema.Created)

include created

theorem matchBound_value (typed : schema.Typed row) {indexNo : ℕ} {bound : MatchedCmp}
    (matched : matchBound schema indexNo expr = some bound) (written : expr.written = true)
    (shallow : depth < maxExprDepth) : ∃ val, evalExprAt schema row expr depth = .ok (.i64 val) := by
  obtain ⟨compares, types⟩ := matchBound_compares created typed matched
  exact compares.value types written shallow

/-- An operand that a plan can use has a value on every row. -/
theorem Matched.defined (typed : schema.Typed row) {node : Expr} (matched : Matched schema node)
    (written : node.written = true) : Defined schema row node := by
  have first : 0 < maxExprDepth := by decide
  cases matched with
  | fixes member inside found matched type =>
    obtain ⟨own, present, ownType⟩ := typed.cell found
    have looked := created.lookupCell typed member inside found
    rw [List.getD_eq_getElem?_getD, present, Option.getD_some] at looked
    obtain ⟨val, value⟩ := (matchEq_compares matched looked).value (by simp [ownType, type]) written first
    exact ⟨0, val, value⟩
  | bounds matched =>
    obtain ⟨val, value⟩ := matchBound_value created typed matched written first
    exact ⟨0, val, value⟩
  | both matchedLeft matchedRight =>
    have second : 1 < maxExprDepth := by decide
    rw [Expr.written, Bool.and_eq_true] at written
    obtain ⟨a, left⟩ := matchBound_value created typed matchedLeft written.1 second
    obtain ⟨b, right⟩ := matchBound_value created typed matchedRight written.2 second
    obtain ⟨val, shown, _⟩ := boolCell_true (decide (a ≠ 0 ∧ b ≠ 0))
    refine ⟨0, val, ?_⟩
    rw [evalExprAt, capped, if_neg (Nat.not_lt_zero _), if_neg (by simp [isCmpOp]), left, right, ← shown]
    obtain ⟨order, compared⟩ : ∃ order, (Cell.i64 a).compare? (.i64 b) = some order :=
      Option.isSome_iff_exists.mp (Cell.compare?_isSome.mpr rfl)
    simp only [evalBinOp, compared, isCmpOp, Bool.false_eq_true, if_false]

/-! ## Plans -/

/-- The operands at some positions are true exactly on the rows of a request. -/
def StandsFor (schema : Schema) (row : Row) (conj : List Expr) (used : List ℕ) (req : RangeReq) : Prop :=
  req.Contains schema row ↔ ∀ i ∈ used, ∀ node, conj[i]? = some node → Sat schema row node

/-- A request that uses some operands: a plan can use them, and the request stands for them where they have values. -/
structure Uses (schema : Schema) (conj : List Expr) (used : List ℕ) (req : RangeReq) : Prop where
  matched : ∀ i ∈ used, ∀ node, conj[i]? = some node → Matched schema node
  stands : ∀ row, schema.Typed row → (∀ i ∈ used, ∀ node, conj[i]? = some node → Defined schema row node) →
    StandsFor schema row conj used req

/-- The operands an equality match takes are true on the rows with its cells. -/
private theorem pickEqLoop_uses (conj : List Expr) {whole index : List ℕ}
    (member : whole ∈ schema.indices) (part : ∀ idx ∈ index, idx ∈ whole) (cells : List Cell) (used : List ℕ) :
    ∃ more taken, pickEqLoop schema conj index cells used = (cells ++ more, used ++ taken) ∧
      (∀ i ∈ taken, ∀ node, conj[i]? = some node → Matched schema node) ∧
      ∀ row, schema.Typed row → (∀ i ∈ taken, ∀ node, conj[i]? = some node → Defined schema row node) →
        ((row.pick index).take more.length = more ↔
          ∀ i ∈ taken, ∀ node, conj[i]? = some node → Sat schema row node) := by
  induction index generalizing cells used with
  | nil => exact ⟨[], [], by simp [pickEqLoop], by simp, by simp⟩
  | cons idx index ih =>
    rw [pickEqLoop]
    split
    · exact ⟨[], [], by simp, by simp, by simp⟩
    · next val i found =>
      obtain ⟨col, listed, found⟩ := Option.bind_eq_some_iff.mp found
      obtain ⟨node, operand, matched, type⟩ := findEq_some found
      obtain ⟨more, taken, loop, rest, stands⟩ :=
        ih (fun other inside => part other (List.mem_cons_of_mem _ inside)) (cells ++ [val]) (used ++ [i])
      have inside := part idx List.mem_cons_self
      refine ⟨val :: more, i :: taken, by rw [loop]; simp, ?_, fun row typed defined => ?_⟩
      · intro j among other read
        rcases List.mem_cons.mp among with rfl | later
        · cases operand.symm.trans read
          exact .fixes member inside listed matched type
        · exact rest j later other read
      · have looked := created.lookupCell typed member inside listed
        have own := matchEq_sat matched looked (defined i List.mem_cons_self node operand)
        have others := stands row typed fun j later => defined j (List.mem_cons_of_mem _ later)
        simp only [Row.pick, List.map_cons, List.length_cons, List.take_succ_cons, List.cons.injEq, List.mem_cons,
          forall_eq_or_imp, operand, Option.some.injEq, forall_eq'] at others ⊢
        rw [others, own]

theorem bestEq_uses {found : EqMatch} (best : bestEq schema conj = some found) :
    Uses schema conj found.used ⟨.ge, .le, found.cells, found.cells, found.indexNo⟩ := by
  -- Every candidate stands for the operands it uses, whichever is the longest.
  have all (numbers : List ℕ) (known : ∀ indexNo ∈ numbers, indexNo < schema.indices.length) (start : Option EqMatch)
      (sound : ∀ found, start = some found →
        Uses schema conj found.used ⟨.ge, .le, found.cells, found.cells, found.indexNo⟩) :
      ∀ found, numbers.foldl (fun best indexNo =>
          let picked := pickEqPrefix schema indexNo conj
          if ((best.map fun found => found.cells.length).getD 0) < picked.1.length then
            some ⟨indexNo, picked.1, picked.2⟩
          else best) start = some found →
        Uses schema conj found.used ⟨.ge, .le, found.cells, found.cells, found.indexNo⟩ := by
    induction numbers generalizing start with
    | nil => exact sound
    | cons indexNo numbers ih =>
      refine ih (fun other inside => known other (List.mem_cons_of_mem _ inside)) _ fun found chosen => ?_
      dsimp only at chosen
      split at chosen
      · cases chosen
        have inside := known indexNo List.mem_cons_self
        have index : schema.indices.getD indexNo [] ∈ schema.indices := by
          rw [List.getD_eq_getElem?_getD, List.getElem?_eq_getElem inside]
          exact List.getElem_mem inside
        obtain ⟨more, taken, loop, matched, stands⟩ := pickEqLoop_uses created conj index (fun _ => id) [] []
        have picked : pickEqPrefix schema indexNo conj = (more, taken) := loop
        rw [picked]
        refine ⟨matched, fun row typed defined => ?_⟩
        rw [StandsFor, RangeReq.Contains, bounded_eq_iff, indexCells]
        exact stands row typed defined
      · exact sound found chosen
  exact all _ (fun _ member => List.mem_range.mp member) none (by simp) found best

theorem pairPlan_uses {indexNo : ℕ} {plan : ScanPlan} (found : pairPlan schema indexNo conj = some plan) :
    ∃ used, plan.residual = andExcept conj used ∧ Uses schema conj used plan.req := by
  obtain ⟨⟨first, i⟩, memberFirst, pair⟩ := List.exists_of_findSome?_eq_some found
  obtain ⟨⟨second, j⟩, memberSecond, pair⟩ := List.exists_of_findSome?_eq_some pair
  have atFirst := List.mk_mem_zipIdx_iff_getElem?.mp memberFirst
  have atSecond := List.mk_mem_zipIdx_iff_getElem?.mp memberSecond
  split at pair
  · contradiction
  · obtain ⟨req, matched, rfl⟩ := Option.map_eq_some_iff.mp pair
    refine ⟨[i, j], rfl, ?_, fun row typed defined => ?_⟩
    · obtain ⟨_, _, matchedFirst, matchedSecond⟩ := matchRangeByIndex_bounds matched
      simp only [List.mem_cons, List.not_mem_nil, or_false, forall_eq_or_imp, forall_eq, atFirst, atSecond,
        Option.some.injEq, forall_eq']
      exact ⟨.bounds matchedFirst, .bounds matchedSecond⟩
    · have leftDefined := defined i (by simp) first atFirst
      have rightDefined := defined j (by simp) second atSecond
      rw [StandsFor, matchRangeByIndex_and created typed matched leftDefined rightDefined]
      simp [atFirst, atSecond]

theorem singlePlan_uses {indexNo : ℕ} {plan : ScanPlan} (found : singlePlan schema indexNo conj = some plan) :
    ∃ used, plan.residual = andExcept conj used ∧ Uses schema conj used plan.req := by
  obtain ⟨⟨node, i⟩, member, single⟩ := List.exists_of_findSome?_eq_some found
  have operand := List.mk_mem_zipIdx_iff_getElem?.mp member
  obtain ⟨req, matched, rfl⟩ := Option.map_eq_some_iff.mp single
  refine ⟨[i], rfl, ?_, fun row typed defined => ?_⟩
  · simp only [List.mem_singleton, forall_eq, operand, Option.some.injEq, forall_eq']
    cases split : asAnd node with
    | some both =>
      obtain rfl := asAnd_eq_some.mp split
      obtain ⟨_, _, matchedLeft, matchedRight⟩ := matchRangeByIndex_bounds matched
      exact .both matchedLeft matchedRight
    | none =>
      rw [matchRangeByIndex, split] at matched
      obtain ⟨bound, bounded, _⟩ := Option.map_eq_some_iff.mp matched
      exact .bounds bounded
  · rw [StandsFor, matchRangeByIndex_sat created typed matched (defined i (by simp) node operand)]
    simp [operand]

/-- A plan scans everything, or it uses some operands and leaves the others. -/
theorem planScan_cases (cond : Expr) : planScan schema (some cond) = ⟨fullScanReq, some cond, false⟩ ∨
      ∃ used, (planScan schema (some cond)).residual = andExcept (flattenAnd cond) used ∧
        Uses schema (flattenAnd cond) used (planScan schema (some cond)).req := by
  cases best : bestEq schema (flattenAnd cond) with
  | some found =>
    have plan : planScan schema (some cond) =
        ⟨⟨.ge, .le, found.cells, found.cells, found.indexNo⟩, andExcept (flattenAnd cond) found.used, true⟩ := by
      simp only [planScan, best]
    rw [plan]
    exact .inr ⟨found.used, rfl, bestEq_uses created best⟩
  | none =>
    cases bounded : (List.range schema.indices.length).findSome? fun indexNo =>
        (pairPlan schema indexNo (flattenAnd cond)).or (singlePlan schema indexNo (flattenAnd cond)) with
    | none => exact .inl (by simp only [planScan, best, bounded, Option.getD_none])
    | some plan =>
      have chosen : planScan schema (some cond) = plan := by
        simp only [planScan, best, bounded, Option.getD_some]
      rw [chosen]
      obtain ⟨indexNo, _, found⟩ := List.exists_of_findSome?_eq_some bounded
      rcases Option.or_eq_some_iff.mp found with pair | ⟨_, single⟩
      · exact .inr (pairPlan_uses created pair)
      · exact .inr (singlePlan_uses created single)

end

/-- The range stands for the operands it uses and the residual for the others. -/
private theorem Uses.exact {cond : Expr} {used : List ℕ} {req : RangeReq}
    (uses : Uses schema (flattenAnd cond) used req) (typed : schema.Typed row)
    (defined : ∀ i ∈ used, ∀ node, (flattenAnd cond)[i]? = some node → Defined schema row node) :
    Truth schema row cond ↔ req.Contains schema row ∧ Satisfies schema row (andExcept (flattenAnd cond) used) := by
  have taken : req.Contains schema row ↔
      ∀ i ∈ used, ∀ node, (flattenAnd cond)[i]? = some node → Truth schema row node := by
    refine (uses.stands row typed defined).trans ?_
    exact forall₄_congr fun i member node found => (defined i member node found).truth_iff.symm
  rw [taken, andExcept_truth, flattenAnd_truth]
  constructor
  · exact fun every => ⟨fun i _ => every i, fun i node found _ => every i node found⟩
  · rintro ⟨inside, others⟩ i node found
    by_cases member : i ∈ used
    · exact inside i member node found
    · exact others i node found member

theorem satisfies_some (expr : Expr) : Satisfies schema row (some expr) ↔ Truth schema row expr := by simp [Satisfies]

/-- The range and the residual of a plan hold on the rows where the condition does, if the operands in the range have
values there. -/
private theorem planScan_truth (created : schema.Created) (typed : schema.Typed row) {cond : Option Expr}
    (defined : ∀ expr, cond = some expr → ∀ node ∈ flattenAnd expr, Matched schema node → Defined schema row node) :
    Satisfies schema row cond ↔ (planScan schema cond).req.Contains schema row ∧
      Satisfies schema row (planScan schema cond).residual := by
  cases cond with
  | none => exact (and_iff_right contains_fullScanReq).symm
  | some cond =>
    rcases planScan_cases created cond with plan | ⟨used, residual, uses⟩
    · rw [plan]
      exact (and_iff_right contains_fullScanReq).symm
    · rw [residual, satisfies_some]
      exact uses.exact typed fun i member node found =>
        defined cond rfl node (List.mem_of_getElem? found) (uses.matched i member node found)

/-- The plan of a written condition keeps its meaning. -/
theorem planScan_exact (created : schema.Created) (typed : schema.Typed row)
    (written : ∀ expr, cond = some expr → expr.written = true) :
    Satisfies schema row cond ↔ (planScan schema cond).req.Contains schema row ∧
      Satisfies schema row (planScan schema cond).residual := by
  refine planScan_truth created typed fun expr given node member matched => matched.defined created typed ?_
  have splits (left right : Expr) (both : (Expr.binOp .and left right).written = true) :
      left.written = true ∧ right.written = true := by rwa [Expr.written, Bool.and_eq_true] at both
  exact @flattenAnd_forall (fun expr => expr.written = true) splits expr (written expr given) node member

/-- The plan keeps the truth value of a condition that has one. -/
theorem planScan_sound (created : schema.Created) (typed : schema.Typed row) {truth : Bool}
    (full : matchRow schema row cond = .ok truth) :
    (truth = true → (planScan schema cond).req.Contains schema row) ∧
      ((planScan schema cond).req.Contains schema row → ∀ kept,
        matchRow schema row (planScan schema cond).residual = .ok kept → kept = truth) := by
  have plan := @planScan_truth schema row created typed cond fun expr given node member _ => by
    subst given
    exact flattenAnd_forall (fun left right both => ⟨both.and.1, both.and.2.1⟩) (matchRow_some full).1 node member
  rw [matchRow_satisfies full] at plan
  refine ⟨fun holds => (plan.mp holds).1, fun inside kept result => ?_⟩
  rw [and_iff_right inside, matchRow_satisfies result] at plan
  exact Bool.eq_iff_iff.mpr plan.symm

end Truth

end PallasDB
