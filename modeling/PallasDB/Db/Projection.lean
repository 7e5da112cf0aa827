import PallasDB.Db.Expr

/-! # Types of projected expressions

The header of a result gives the type of each column before a row is read. `exprType` finds it by walking down the left
operands of arithmetic operators, the only ones that pass the type of an operand on. The walk has a limit of its own,
and that is one operator short of the depth the evaluator accepts.
-/

namespace PallasDB

def isArithOp : ExprOp → Bool
  | .add | .sub | .mul | .div => true
  | _ => false

/-- The type of a column; an unknown name counts as an integer. -/
def columnType (schema : Schema) (column : Bytes) : CellType :=
  match columnNamed schema.cols column with
  | none => .i64
  | some idx => ((schema.cols[idx]?).map Column.type).getD .i64

/-- The loop of `exprType`. -/
def exprTypeLoop (schema : Schema) : ℕ → Expr → CellType
  | 0, _ => .i64
  | rounds + 1, expr =>
      match expr with
      | .name column => columnType schema column
      | .cell val => val.type
      | .binOp op left _ => if isArithOp op then exprTypeLoop schema rounds left else .i64
      | _ => .i64

def exprType (schema : Schema) (expr : Expr) : CellType := exprTypeLoop schema maxExprDepth expr

/-! ## The left spine -/

namespace Expr

/-- The number of arithmetic operators above the leftmost operand. -/
def spine : Expr → ℕ
  | binOp op left _ => if isArithOp op then left.spine + 1 else 0
  | _ => 0

/-- The type of the leftmost operand. -/
def leftmostType (schema : Schema) : Expr → CellType
  | name column => columnType schema column
  | cell val => val.type
  | binOp op left _ => if isArithOp op then left.leftmostType schema else .i64
  | _ => .i64

end Expr

theorem exprTypeLoop_eq (schema : Schema) (rounds : ℕ) (expr : Expr) :
    exprTypeLoop schema rounds expr = if expr.spine < rounds then expr.leftmostType schema else .i64 := by
  induction rounds generalizing expr with
  | zero => rfl
  | succ rounds ih =>
    cases expr with
    | binOp op left right =>
      simp only [exprTypeLoop, Expr.spine, Expr.leftmostType]
      by_cases arith : isArithOp op = true
      · simp only [if_pos arith, ih, Nat.add_lt_add_iff_right]
      · simp only [if_neg arith, ite_self]
    | name | cell | unOp | tuple | star => simp [exprTypeLoop, Expr.spine, Expr.leftmostType]

/-! ## The type of a value -/

section Values

variable {schema : Schema} {row : Row} {val : Cell}

theorem type_of_evalUnOp {op : ExprOp} {kid : Cell} (value : evalUnOp op kid = .ok val) : val.type = .i64 := by
  unfold evalUnOp at value
  split at value
  · cases value
    rfl
  · cases value
    rfl
  · contradiction

theorem type_of_evalBinOp {op : ExprOp} {left right : Cell} (value : evalBinOp op left right = .ok val) :
    val.type = if isArithOp op then left.type else .i64 := by
  by_cases isCmp : isCmpOp op = true
  · obtain ⟨order, _, rfl⟩ := evalBinOp_cmp isCmp value
    cases op <;> first | rfl | contradiction
  · unfold evalBinOp at value
    split at value
    · contradiction
    · rw [if_neg isCmp] at value
      split at value
      · split at value
        · contradiction
        · cases value
          rfl
      · cases value
        rfl
      · cases value
        rfl
      · cases value
        rfl
      · split at value
        · contradiction
        · cases value
          rfl
      · cases value
        rfl
      · cases value
        rfl
      · contradiction

theorem type_of_evalTupleCmp {op : ExprOp} {left right : List (Except DBError Cell)}
    (value : evalTupleCmp op left right = .ok val) : val.type = .i64 := by
  unfold evalTupleCmp at value
  split at value
  · contradiction
  · split at value
    · contradiction
    · cases value
      rfl

theorem type_of_lookupCell (typed : schema.Typed row) {column : Bytes}
    (value : lookupCell schema row column = .ok val) : val.type = columnType schema column := by
  unfold lookupCell at value
  split at value
  · contradiction
  · next idx named =>
    split at value
    · contradiction
    · next cell found =>
      cases value
      obtain ⟨col, here⟩ : ∃ col, schema.cols[idx]? = some col := by
        have inside := (List.getElem?_eq_some_iff.mp found).1
        rw [typed.length_eq] at inside
        exact ⟨_, List.getElem?_eq_getElem inside⟩
      obtain ⟨own, stored, type⟩ := typed.cell here
      cases found.symm.trans stored
      simp only [columnType, named, here, Option.map_some, Option.getD_some, type]

/-- A value has the type of the leftmost operand, which is within the reach of the evaluator. -/
theorem evalExprAt_type (typed : schema.Typed row) {expr : Expr} {depth : ℕ}
    (value : evalExprAt schema row expr depth = .ok val) :
    val.type = expr.leftmostType schema ∧ expr.spine + depth ≤ maxExprDepth := by
  induction expr using Expr.spine.induct generalizing depth val with
  | case1 op left right arith ih =>
    obtain ⟨_, result⟩ := capped_ok value
    have scalar : isCmpOp op = false := by cases op <;> first | rfl | contradiction
    rw [scalar, Bool.false_and, if_neg (by simp)] at result
    split at result
    · contradiction
    · next first leftValue =>
      split at result
      · contradiction
      · next second _ =>
        obtain ⟨type, reach⟩ := ih leftValue
        rw [type_of_evalBinOp result, Expr.leftmostType, Expr.spine, if_pos arith, if_pos arith, if_pos arith, type]
        exact ⟨rfl, by omega⟩
  | case2 op left right other =>
    obtain ⟨within, result⟩ := capped_ok value
    rw [Expr.leftmostType, Expr.spine, if_neg other, if_neg other]
    refine ⟨?_, by omega⟩
    split at result
    · split at result
      · exact type_of_evalTupleCmp result
      · contradiction
    · split at result
      · contradiction
      · split at result
        · contradiction
        · rw [type_of_evalBinOp result, if_neg other]
  | case3 expr notBinary =>
    cases expr with
    | binOp op left right => exact absurd rfl (notBinary op left right)
    | name column =>
      obtain ⟨within, result⟩ := capped_ok value
      exact ⟨type_of_lookupCell typed result, by simpa [Expr.spine] using within⟩
    | cell own =>
      obtain ⟨within, result⟩ := capped_ok value
      cases result
      exact ⟨rfl, by simpa [Expr.spine] using within⟩
    | unOp op kid =>
      obtain ⟨within, result⟩ := capped_ok value
      split at result
      · contradiction
      · exact ⟨type_of_evalUnOp result, by simpa [Expr.spine] using within⟩
    | tuple kids =>
      obtain ⟨_, result⟩ := capped_ok value
      contradiction
    | star =>
      obtain ⟨_, result⟩ := capped_ok value
      contradiction

/-- The type in the header is that of the value unless the leftmost operand is a string as deep as a value can be. -/
theorem exprType_eq_iff (typed : schema.Typed row) {expr : Expr} (value : evalExpr schema row expr = .ok val) :
    exprType schema expr = val.type ↔ expr.spine < maxExprDepth ∨ expr.leftmostType schema = .i64 := by
  obtain ⟨type, _⟩ := evalExprAt_type typed value
  rw [exprType, exprTypeLoop_eq, type]
  split
  · next within => simp [within]
  · next deep => simp [deep, eq_comm]

end Values

def textSchema : Schema := ⟨1, [0x74], [⟨[0x61], .str⟩], [[0]]⟩

theorem exprType_eq_iff_concat : textSchema.Typed [.str [0x78]] ∧
    evalExpr textSchema [.str [0x78]] (.binOp .add (.name [0x61]) (.cell (.str [0x79]))) = .ok (.str [0x78, 0x79]) ∧
    (exprType textSchema (.binOp .add (.name [0x61]) (.cell (.str [0x79]))) = .str ↔
      (Expr.binOp .add (.name [0x61]) (.cell (.str [0x79]))).spine < maxExprDepth ∨
        (Expr.binOp .add (.name [0x61]) (.cell (.str [0x79]))).leftmostType textSchema = .i64) := by
  have value : evalExpr textSchema [.str [0x78]] (.binOp .add (.name [0x61]) (.cell (.str [0x79]))) =
      .ok (.str [0x78, 0x79]) := by decide +kernel
  exact ⟨by decide, value, exprType_eq_iff (by decide) value⟩

/-- A column followed by so many empty strings: `a + '' + ''` and so on. -/
def concatenation : ℕ → Expr
  | 0 => .name [0x61]
  | count + 1 => .binOp .add (concatenation count) (.cell (.str []))

theorem evalExprAt_concatenation {count depth : ℕ} (within : count + depth ≤ maxExprDepth) :
    evalExprAt textSchema [.str []] (concatenation count) depth = .ok (.str []) := by
  induction count generalizing depth with
  | zero => rw [concatenation, evalExprAt, capped, if_neg (by omega)]; rfl
  | succ count ih =>
    have left := ih (show count + (depth + 1) ≤ maxExprDepth by omega)
    have right : evalExprAt textSchema [.str []] (.cell (.str [])) (depth + 1) = .ok (.str []) := by
      rw [evalExprAt, capped, if_neg (by omega)]
    have scalar : isCmpOp .add = false := rfl
    rw [concatenation, evalExprAt, capped, if_neg (by omega), scalar, Bool.false_and, if_neg (by simp), left, right]
    rfl

theorem spine_concatenation (count : ℕ) : (concatenation count).spine = count := by
  induction count with
  | zero => rfl
  | succ count ih =>
    have arith : isArithOp .add = true := rfl
    rw [concatenation, Expr.spine, if_pos arith, ih]

/-- A thousand concatenations make a string in a column that the header says holds integers. -/
theorem longConcatenation_announced_integer : textSchema.Typed [.str []] ∧
    evalExpr textSchema [.str []] (concatenation maxExprDepth) = .ok (.str []) ∧
    exprType textSchema (concatenation maxExprDepth) = .i64 := by
  refine ⟨by decide, evalExprAt_concatenation (le_refl _), ?_⟩
  rw [exprType, exprTypeLoop_eq, spine_concatenation, if_neg (lt_irrefl _)]

end PallasDB
