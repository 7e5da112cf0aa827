import PallasDB.Db.Row

/-! # Expressions

The evaluator of `WHERE` conditions and assignments. Trees may be of any shape, so the recursion is cut at a fixed
depth. The depth decides whether a value is found but not which one: two evaluations of a tree that both succeed
agree.
-/

namespace PallasDB

inductive ExprOp where
  | add
  | sub
  | mul
  | div
  | eq
  | ne
  | le
  | ge
  | lt
  | gt
  | and
  | or
  | not
  | neg
deriving DecidableEq, Repr

inductive Expr where
  | name (column : Bytes)
  | cell (val : Cell)
  | unOp (op : ExprOp) (kid : Expr)
  | binOp (op : ExprOp) (left right : Expr)
  | tuple (kids : List Expr)
  | star

def maxExprDepth : ℕ := 1000

def isCmpOp : ExprOp → Bool
  | .eq | .ne | .le | .ge | .lt | .gt => true
  | _ => false

def cmpResult (op : ExprOp) (order : Ordering) : Bool :=
  match op with
  | .eq => order.isEq
  | .ne => order.isNe
  | .le => order.isLE
  | .ge => order.isGE
  | .lt => order.isLT
  | .gt => order.isGT
  | _ => false

def boolCell (val : Bool) : Cell := .i64 (if val then 1 else 0)

def evalUnOp (op : ExprOp) (kid : Cell) : Except DBError Cell :=
  match op, kid with
  | .neg, .i64 val => .ok (.i64 (-val))
  | .not, .i64 val => .ok (boolCell (decide (val = 0)))
  | _, _ => .error .badUnaryOp

/-- The value of an operator on two cells. -/
def evalBinOp (op : ExprOp) (left right : Cell) : Except DBError Cell :=
  match left.compare? right with
  | none => .error .typeMismatch
  | some order =>
      if isCmpOp op then .ok (boolCell (cmpResult op order))
      else
        match op, left, right with
        | .add, .str left, .str right =>
            if maxEntrySize < left.length + right.length then .error .stringTooLarge else .ok (.str (left ++ right))
        | .add, .i64 left, .i64 right => .ok (.i64 (left + right))
        | .sub, .i64 left, .i64 right => .ok (.i64 (left - right))
        | .mul, .i64 left, .i64 right => .ok (.i64 (left * right))
        | .div, .i64 left, .i64 right =>
            if right = 0 then .error .divisionByZero else .ok (.i64 (left / right))
        | .and, .i64 left, .i64 right => .ok (boolCell (decide (left ≠ 0 ∧ right ≠ 0)))
        | .or, .i64 left, .i64 right => .ok (boolCell (decide (left ≠ 0 ∨ right ≠ 0)))
        | _, _, _ => .error .badBinaryOp

theorem evalBinOp_cmp {op : ExprOp} {left right val : Cell} (isCmp : isCmpOp op = true)
    (value : evalBinOp op left right = .ok val) :
    ∃ order, left.compare? right = some order ∧ val = boolCell (cmpResult op order) := by
  unfold evalBinOp at value
  split at value
  · contradiction
  · next order compared =>
    rw [if_pos isCmp] at value
    exact ⟨order, compared, (Except.ok.inj value).symm⟩

/-- The loop of `evalTupleCmp` over the values of two tuples. -/
def compareValues : List (Except DBError Cell) → List (Except DBError Cell) → Except DBError Ordering
  | .error err :: _, _ :: _ => .error err
  | .ok _ :: _, .error err :: _ => .error err
  | .ok left :: lefts, .ok right :: rights =>
      match left.compare? right with
      | none => .error .typeMismatch
      | some .eq => compareValues lefts rights
      | some order => .ok order
  | _, _ => .ok .eq

def evalTupleCmp (op : ExprOp) (left right : List (Except DBError Cell)) : Except DBError Cell :=
  if left.length ≠ right.length then .error .arityMismatch
  else
    match compareValues left right with
    | .error err => .error err
    | .ok order => .ok (boolCell (cmpResult op order))

def Expr.isTuple : Expr → Bool
  | tuple _ => true
  | _ => false

@[simp] theorem Expr.isTuple_tuple (kids : List Expr) : (Expr.tuple kids).isTuple = true := rfl

def lookupCell (schema : Schema) (row : Row) (column : Bytes) : Except DBError Cell :=
  match columnNamed schema.cols column with
  | none => .error .unknownColumn
  | some idx =>
      match row[idx]? with
      | none => .error .panic
      | some cell => .ok cell

/-- The cut at `maxExprDepth`. -/
def capped (depth : ℕ) (result : Except DBError Cell) : Except DBError Cell :=
  if maxExprDepth < depth then .error .tooDeep else result

theorem capped_ok {depth : ℕ} {result : Except DBError Cell} {val : Cell} (value : capped depth result = .ok val) :
    depth ≤ maxExprDepth ∧ result = .ok val := by
  rw [capped] at value
  split at value
  · contradiction
  · next within => exact ⟨not_lt.mp within, value⟩

mutual

def evalExprAt (schema : Schema) (row : Row) : Expr → ℕ → Except DBError Cell
  | .name column, depth => capped depth (lookupCell schema row column)
  | .cell val, depth => capped depth (.ok val)
  | .unOp op kid, depth => capped depth (
      match evalExprAt schema row kid (depth + 1) with
      | .error err => .error err
      | .ok val => evalUnOp op val)
  | .binOp op left right, depth => capped depth (
      if isCmpOp op && (left.isTuple || right.isTuple) then
        if left.isTuple && right.isTuple then
          evalTupleCmp op (evalKids schema row left (depth + 1)) (evalKids schema row right (depth + 1))
        else .error .tupleWithScalar
      else
        match evalExprAt schema row left (depth + 1) with
        | .error err => .error err
        | .ok first =>
            match evalExprAt schema row right (depth + 1) with
            | .error err => .error err
            | .ok second => evalBinOp op first second)
  | .tuple _, depth => capped depth (.error .tupleNotValue)
  | .star, depth => capped depth (.error .unsupportedExpr)

/-- The values of the elements of a tuple. -/
def evalKids (schema : Schema) (row : Row) : Expr → ℕ → List (Except DBError Cell)
  | .tuple kids, depth => evalAll schema row kids depth
  | _, _ => []

def evalAll (schema : Schema) (row : Row) : List Expr → ℕ → List (Except DBError Cell)
  | [], _ => []
  | kid :: kids, depth => evalExprAt schema row kid depth :: evalAll schema row kids depth

end

def evalExpr (schema : Schema) (row : Row) (expr : Expr) : Except DBError Cell := evalExprAt schema row expr 0

/-- `matchRow`: a missing condition holds. -/
def matchRow (schema : Schema) (row : Row) (residual : Option Expr) : Except DBError Bool :=
  match residual with
  | none => .ok true
  | some expr =>
      match evalExpr schema row expr with
      | .error err => .error err
      | .ok (.str _) => .error .notBoolean
      | .ok (.i64 val) => .ok (decide (val ≠ 0))

/-! ## Depth -/

/-- Two results that are equal if both are values. -/
def Agree {α : Type} (first second : Except DBError α) : Prop :=
  ∀ a b, first = .ok a → second = .ok b → a = b

theorem Agree.refl {α : Type} (result : Except DBError α) : Agree result result := by
  intro a b left right
  rw [left] at right
  exact Except.ok.inj right

theorem Agree.capped {first second : Except DBError Cell} (agree : Agree first second) (depth other : ℕ) :
    Agree (capped depth first) (capped other second) := by
  intro a b left right
  simp only [PallasDB.capped] at left right
  split at left
  · contradiction
  · split at right
    · contradiction
    · exact agree a b left right

variable {first second left right : List (Except DBError Cell)}

theorem Agree.compareValues (lefts : List.Forall₂ Agree first left) (rights : List.Forall₂ Agree second right) :
    Agree (compareValues first second) (compareValues left right) := by
  induction lefts generalizing second right with
  | nil =>
    cases rights <;> exact Agree.refl _
  | @cons x x' xs xs' head tail ih =>
    cases rights with
    | nil => cases x <;> cases x' <;> exact Agree.refl _
    | @cons y y' ys ys' other rest =>
      intro a b one two
      cases x with
      | error => contradiction
      | ok x =>
        cases y with
        | error => contradiction
        | ok y =>
          cases x' with
          | error => contradiction
          | ok x' =>
            cases y' with
            | error => contradiction
            | ok y' =>
              obtain rfl := head x x' rfl rfl
              obtain rfl := other y y' rfl rfl
              rw [PallasDB.compareValues] at one two
              split at one
              · contradiction
              · next same =>
                rw [same] at two
                exact ih rest a b one two
              · next order different same =>
                cases order <;> simp_all

theorem Agree.evalTupleCmp (op : ExprOp) (lefts : List.Forall₂ Agree first left)
    (rights : List.Forall₂ Agree second right) : Agree (evalTupleCmp op first second) (evalTupleCmp op left right) := by
  intro a b one two
  simp only [PallasDB.evalTupleCmp] at one two
  split at one
  · contradiction
  · split at two
    · contradiction
    · split at one
      · contradiction
      · next order compared =>
        split at two
        · contradiction
        · next order' compared' =>
          obtain rfl := Agree.compareValues lefts rights _ _ compared compared'
          exact (Except.ok.inj one).symm.trans (Except.ok.inj two)

mutual

/-- The depth does not change a value. -/
theorem evalExprAt_agree (schema : Schema) (row : Row) (expr : Expr) (depth other : ℕ) :
    Agree (evalExprAt schema row expr depth) (evalExprAt schema row expr other) := by
  match expr with
  | .name column => exact (Agree.refl _).capped depth other
  | .cell val => exact (Agree.refl _).capped depth other
  | .unOp op kid =>
    rw [evalExprAt, evalExprAt]
    refine Agree.capped ?_ depth other
    intro a b left right
    split at left
    · contradiction
    · next first one =>
      split at right
      · contradiction
      · next second two =>
        obtain rfl := evalExprAt_agree schema row kid _ _ first second one two
        exact Agree.refl _ a b left right
  | .binOp op left right =>
    rw [evalExprAt, evalExprAt]
    refine Agree.capped ?_ depth other
    split
    · split
      · exact Agree.evalTupleCmp op (evalKids_agree schema row left _ _) (evalKids_agree schema row right _ _)
      · exact Agree.refl _
    · intro a b one two
      split at one
      · contradiction
      · next l leftVal =>
        split at one
        · contradiction
        · next r rightVal =>
          split at two
          · contradiction
          · next l' leftVal' =>
            split at two
            · contradiction
            · next r' rightVal' =>
              obtain rfl := evalExprAt_agree schema row left _ _ l l' leftVal leftVal'
              obtain rfl := evalExprAt_agree schema row right _ _ r r' rightVal rightVal'
              exact Agree.refl _ a b one two
  | .tuple _ => exact (Agree.refl _).capped depth other
  | .star => exact (Agree.refl _).capped depth other

theorem evalKids_agree (schema : Schema) (row : Row) (expr : Expr) (depth other : ℕ) :
    List.Forall₂ Agree (evalKids schema row expr depth) (evalKids schema row expr other) := by
  match expr with
  | .tuple kids => exact evalAll_agree schema row kids depth other
  | .name _ | .cell _ | .unOp _ _ | .binOp _ _ _ | .star => exact .nil

theorem evalAll_agree (schema : Schema) (row : Row) (kids : List Expr) (depth other : ℕ) :
    List.Forall₂ Agree (evalAll schema row kids depth) (evalAll schema row kids other) := by
  match kids with
  | [] => exact .nil
  | kid :: kids => exact .cons (evalExprAt_agree schema row kid depth other) (evalAll_agree schema row kids depth other)

end

end PallasDB
