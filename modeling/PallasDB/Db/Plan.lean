import PallasDB.Db.Expr

/-! # Query plans

`planScan` turns a condition into a range of one index and a residual condition. It splits the condition into
conjuncts, takes the longest equality match of an index, or else a pair of bounds or one bound, and keeps the
conjuncts the range does not stand for. A comparison that becomes a bound holds on the rows inside the bound.
-/

namespace PallasDB

structure RangeReq where
  startCmp : ExprOp
  stopCmp : ExprOp
  start : List Cell
  stop : List Cell
  indexNo : ℕ
deriving DecidableEq

/-- Whether an encoded bound follows every key that begins with it; `none` for an operator that is no bound. -/
def suffixPositive : ExprOp → Option Bool
  | .le | .gt => some true
  | .ge | .lt => some false
  | _ => none

def isDescending : ExprOp → Bool
  | .le | .lt => true
  | _ => false

/-! ## Conjuncts -/

def maxPlanConjuncts : ℕ := 32

def asAnd : Expr → Option (Expr × Expr)
  | .binOp .and left right => some (left, right)
  | _ => none

/-- The loop of `flattenAnd`; the top of the stack is its head. -/
def flattenLoop : ℕ → List Expr → List Expr → List Expr
  | 0, _, out => out
  | _ + 1, [], out => out
  | rounds + 1, node :: stack, out =>
      match asAnd node with
      | some (left, right) =>
          if out.length + stack.length + 2 ≤ maxPlanConjuncts then flattenLoop rounds (left :: right :: stack) out
          else flattenLoop rounds stack (out ++ [node])
      | none => flattenLoop rounds stack (out ++ [node])

variable {expr left right : Expr}

theorem asAnd_eq_some : asAnd expr = some (left, right) ↔ expr = .binOp .and left right := by
  constructor
  · intro split
    rw [asAnd.eq_def] at split
    split at split
    · cases split
      rfl
    · contradiction
  · rintro rfl
    rfl

/-- A round splits a node, at most `maxPlanConjuncts` times, or moves one to the result. -/
def flattenAnd (cond : Expr) : List Expr := flattenLoop (2 * maxPlanConjuncts) [cond] []

/-- The conjunction of what is there and one more operand. -/
def andNode : Option Expr → Expr → Expr
  | none, node => node
  | some out, node => .binOp .and out node

def andExcept (conj : List Expr) (used : List ℕ) : Option Expr :=
  conj.zipIdx.foldl (fun out entry => if entry.2 ∈ used then out else some (andNode out entry.1)) none

structure NamedCell where
  column : Bytes
  value : Cell
deriving DecidableEq

/-- A column and a value in either order. -/
def matchEq : Expr → Option NamedCell
  | .binOp .eq (.name column) (.cell value) => some ⟨column, value⟩
  | .binOp .eq (.cell value) (.name column) => some ⟨column, value⟩
  | _ => none

def kidNames : List Expr → Option (List Bytes)
  | [] => some []
  | .name column :: kids => (kidNames kids).map (column :: ·)
  | _ :: _ => none

def asNameList : Expr → Option (List Bytes)
  | .name column => some [column]
  | .tuple kids => kidNames kids
  | _ => none

def kidCells : List Expr → Option (List Cell)
  | [] => some []
  | .cell val :: kids => (kidCells kids).map (val :: ·)
  | _ :: _ => none

def asCellList : Expr → Option (List Cell)
  | .cell val => some [val]
  | .tuple kids => kidCells kids
  | _ => none

/-- The operator with its operands exchanged; `none` if it is no bound. -/
def flipOp : ExprOp → Option ExprOp
  | .le => some .ge
  | .ge => some .le
  | .lt => some .gt
  | .gt => some .lt
  | _ => none

structure MatchedCmp where
  op : ExprOp
  cols : List Bytes
  cells : List Cell
deriving DecidableEq

def matchCmp : Expr → Option MatchedCmp
  | .binOp op left right =>
      match flipOp op with
      | none => none
      | some flipped =>
          match asNameList left with
          | some names => (asCellList right).map fun cells => ⟨op, names, cells⟩
          | none =>
              match asNameList right with
              | some names => (asCellList left).map fun cells => ⟨flipped, names, cells⟩
              | none => none
  | _ => none

def isPKeyPrefix (schema : Schema) (indexNo : ℕ) (cols : List Bytes) (cells : List Cell) : Bool :=
  match schema.indices[indexNo]? with
  | none => false
  | some index =>
      if cols.length ≠ cells.length ∨ cols.length = 0 ∨ index.length < cols.length then false
      else (index.zip (cols.zip cells)).all fun entry =>
        match schema.cols[entry.1]? with
        | none => false
        | some col => decide (col.name = entry.2.1 ∧ col.type = entry.2.2.type)

/-- A comparison that bounds an index. -/
def matchBound (schema : Schema) (indexNo : ℕ) (cond : Expr) : Option MatchedCmp :=
  (matchCmp cond).filter fun bound => isPKeyPrefix schema indexNo bound.cols bound.cells

def matchRangeByIndex (schema : Schema) (indexNo : ℕ) (cond : Expr) : Option RangeReq :=
  match asAnd cond with
  | some (left, right) =>
      match matchBound schema indexNo left, matchBound schema indexNo right with
      | some first, some second =>
          if isDescending first.op = isDescending second.op then none
          else if isDescending first.op then some ⟨second.op, first.op, second.cells, first.cells, indexNo⟩
          else some ⟨first.op, second.op, first.cells, second.cells, indexNo⟩
      | _, _ => none
  | none =>
      (matchBound schema indexNo cond).map fun bound =>
        ⟨bound.op, if isDescending bound.op then .ge else .le, bound.cells, [], indexNo⟩

/-! ## Plans -/

structure ScanPlan where
  req : RangeReq
  residual : Option Expr
  indexed : Bool

def fullScanReq : RangeReq := ⟨.ge, .le, [], [], 0⟩

/-- An unused operand that fixes a column, with its position. -/
def findEq (col : Column) (conj : List Expr) (used : List ℕ) : Option (Cell × ℕ) :=
  conj.zipIdx.findSome? fun entry =>
    if entry.2 ∈ used then none
    else
      match matchEq entry.1 with
      | none => none
      | some named =>
          if named.column = col.name ∧ named.value.type = col.type then some (named.value, entry.2) else none

def pickEqLoop (schema : Schema) (conj : List Expr) : List ℕ → List Cell → List ℕ → List Cell × List ℕ
  | [], cells, used => (cells, used)
  | idx :: index, cells, used =>
      match (schema.cols[idx]?).bind fun col => findEq col conj used with
      | none => (cells, used)
      | some (val, i) => pickEqLoop schema conj index (cells ++ [val]) (used ++ [i])

def pickEqPrefix (schema : Schema) (indexNo : ℕ) (conj : List Expr) : List Cell × List ℕ :=
  pickEqLoop schema conj (schema.indices.getD indexNo []) [] []

structure EqMatch where
  indexNo : ℕ
  cells : List Cell
  used : List ℕ

/-- The longest equality match; of equal ones the first. -/
def bestEq (schema : Schema) (conj : List Expr) : Option EqMatch :=
  (List.range schema.indices.length).foldl (fun best indexNo =>
    let (cells, used) := pickEqPrefix schema indexNo conj
    if ((best.map fun found => found.cells.length).getD 0) < cells.length then some ⟨indexNo, cells, used⟩
      else best) none

/-- Two operands that bound an index. -/
def pairPlan (schema : Schema) (indexNo : ℕ) (conj : List Expr) : Option ScanPlan :=
  conj.zipIdx.findSome? fun first => conj.zipIdx.findSome? fun second =>
    if first.2 = second.2 then none
    else (matchRangeByIndex schema indexNo (.binOp .and first.1 second.1)).map fun req =>
      ⟨req, andExcept conj [first.2, second.2], true⟩

def singlePlan (schema : Schema) (indexNo : ℕ) (conj : List Expr) : Option ScanPlan :=
  conj.zipIdx.findSome? fun entry => (matchRangeByIndex schema indexNo entry.1).map fun req =>
    ⟨req, andExcept conj [entry.2], true⟩

def planScan (schema : Schema) (cond : Option Expr) : ScanPlan :=
  match cond with
  | none => ⟨fullScanReq, none, false⟩
  | some cond =>
      let conj := flattenAnd cond
      match bestEq schema conj with
      | some found => ⟨⟨.ge, .le, found.cells, found.cells, found.indexNo⟩, andExcept conj found.used, true⟩
      | none =>
          ((List.range schema.indices.length).findSome? fun indexNo =>
            (pairPlan schema indexNo conj).or (singlePlan schema indexNo conj)).getD ⟨fullScanReq, some cond, false⟩

/-! ## Truth -/

variable {depth indexNo : ℕ} {val : Cell} {cells : List Cell} {req : RangeReq}

section Truth

variable {schema : Schema} {row : Row}

/-- A condition that has a truth value at some depth. -/
def Defined (schema : Schema) (row : Row) (expr : Expr) : Prop :=
  ∃ depth val, evalExprAt schema row expr depth = .ok (.i64 val)

/-- A condition that is true at some depth, and so at every depth where it has a value. -/
def Sat (schema : Schema) (row : Row) (expr : Expr) : Prop :=
  ∃ depth val, evalExprAt schema row expr depth = .ok (.i64 val) ∧ val ≠ 0

theorem sat_iff {val : Int64} (value : evalExprAt schema row expr depth = .ok (.i64 val)) :
    Sat schema row expr ↔ val ≠ 0 := by
  constructor
  · rintro ⟨other, found, same, nonzero⟩
    cases evalExprAt_agree schema row expr other depth _ _ same value
    exact nonzero
  · exact fun nonzero => ⟨depth, val, value, nonzero⟩

theorem evalExprAt_and (value : evalExprAt schema row (.binOp .and left right) depth = .ok val) :
    ∃ a b, evalExprAt schema row left (depth + 1) = .ok (.i64 a) ∧
      evalExprAt schema row right (depth + 1) = .ok (.i64 b) ∧ val = boolCell (decide (a ≠ 0 ∧ b ≠ 0)) := by
  have result := (capped_ok value).2
  rw [if_neg (by simp [isCmpOp])] at result
  split at result
  · contradiction
  · next first leftValue =>
    split at result
    · contradiction
    · next second rightValue =>
      unfold evalBinOp at result
      split at result
      · contradiction
      · next order compared =>
        cases first <;> cases second <;>
          simp only [isCmpOp, Bool.false_eq_true, if_false, reduceCtorEq, Except.ok.injEq] at result
        exact ⟨_, _, leftValue, rightValue, result.symm⟩

theorem boolCell_true (val : Bool) : ∃ number, boolCell val = .i64 number ∧ (number ≠ 0 ↔ val = true) := by
  cases val
  · exact ⟨0, rfl, by decide⟩
  · exact ⟨1, rfl, by decide⟩

theorem Defined.and (defined : Defined schema row (.binOp .and left right)) :
    Defined schema row left ∧ Defined schema row right ∧
      (Sat schema row (.binOp .and left right) ↔ Sat schema row left ∧ Sat schema row right) := by
  obtain ⟨depth, val, value⟩ := defined
  obtain ⟨a, b, leftValue, rightValue, both⟩ := evalExprAt_and value
  refine ⟨⟨_, a, leftValue⟩, ⟨_, b, rightValue⟩, ?_⟩
  obtain ⟨number, shown, truth⟩ := boolCell_true (decide (a ≠ 0 ∧ b ≠ 0))
  rw [shown, Cell.i64.injEq] at both
  rw [sat_iff value, sat_iff leftValue, sat_iff rightValue, both, truth, decide_eq_true_eq]

/-! ## Comparisons -/

/-- A column or a value, and its cell. -/
inductive Leaf (schema : Schema) (row : Row) : Expr → Cell → Prop
  | name {column : Bytes} {val : Cell} (looked : lookupCell schema row column = .ok val) :
      Leaf schema row (.name column) val
  | cell (val : Cell) : Leaf schema row (.cell val) val

/-- An operand of a comparison and its cells. -/
inductive Denotes (schema : Schema) (row : Row) : Expr → List Cell → Prop
  | scalar {expr : Expr} {val : Cell} (leaf : Leaf schema row expr val) : Denotes schema row expr [val]
  | tuple {kids : List Expr} {vals : List Cell} (leaves : List.Forall₂ (Leaf schema row) kids vals) :
      Denotes schema row (.tuple kids) vals

theorem Leaf.plain (leaf : Leaf schema row expr val) : expr.isTuple = false := by cases leaf <;> rfl

theorem Leaf.value (leaf : Leaf schema row expr val) (shallow : depth ≤ maxExprDepth) :
    evalExprAt schema row expr depth = .ok val := by
  cases leaf with
  | name looked => rw [evalExprAt, capped, if_neg (not_lt.mpr shallow), looked]
  | cell => rw [evalExprAt, capped, if_neg (not_lt.mpr shallow)]

theorem Leaf.agree {other : Cell} (leaf : Leaf schema row expr val)
    (value : evalExprAt schema row expr depth = .ok other) : val = other :=
  evalExprAt_agree schema row expr 0 depth _ _ (leaf.value (Nat.zero_le _)) value

theorem compareCells_singleton (left right : Cell) : compareCells [left] [right] = left.compare? right := by
  rw [compareCells]
  split
  · next same => rw [same]; rfl
  · rfl

private theorem compareValues_cells {lefts rights : List Expr} {xs ys : List Cell} {order : Ordering}
    (left : List.Forall₂ (Leaf schema row) lefts xs) (right : List.Forall₂ (Leaf schema row) rights ys)
    (same : lefts.length = rights.length)
    (compared : compareValues (evalAll schema row lefts depth) (evalAll schema row rights depth) = .ok order) :
    compareCells xs ys = some order := by
  induction left generalizing rights ys with
  | nil =>
    cases right with
    | nil => cases compared; rfl
    | cons => contradiction
  | @cons kid x lefts xs leaf _ ih =>
    cases right with
    | nil => contradiction
    | @cons other y rights ys leaf' rest =>
      rw [evalAll, evalAll] at compared
      cases first : evalExprAt schema row kid depth with
      | error => rw [first] at compared; contradiction
      | ok x' =>
        cases second : evalExprAt schema row other depth with
        | error => rw [first, second] at compared; contradiction
        | ok y' =>
          obtain rfl := leaf.agree first
          obtain rfl := leaf'.agree second
          rw [first, second, compareValues] at compared
          rw [compareCells]
          split at compared
          · contradiction
          · next equal =>
            rw [equal]
            exact ih rest (by simpa using same) compared
          · next found different equal =>
            cases order <;> simp_all

private theorem length_evalAll (kids : List Expr) (depth : ℕ) :
    (evalAll schema row kids depth).length = kids.length := by
  induction kids with
  | nil => rfl
  | cons kid kids ih => rw [evalAll, List.length_cons, List.length_cons, ih]

/-- A comparison with a value compares the cells of its operands. -/
theorem evalExprAt_cmp {op : ExprOp} {xs ys : List Cell} (isCmp : isCmpOp op = true)
    (first : Denotes schema row left xs) (second : Denotes schema row right ys)
    (value : evalExprAt schema row (.binOp op left right) depth = .ok val) :
    ∃ order, compareCells xs ys = some order ∧ val = boolCell (cmpResult op order) := by
  have result := (capped_ok value).2
  cases first with
  | scalar leaf =>
    cases second with
    | scalar leaf' =>
      rw [leaf.plain, leaf'.plain, if_neg (by simp)] at result
      split at result
      · contradiction
      · next x found =>
        split at result
        · contradiction
        · next y found' =>
          obtain rfl := leaf.agree found
          obtain rfl := leaf'.agree found'
          obtain ⟨order, compared, shown⟩ := evalBinOp_cmp isCmp result
          exact ⟨order, by rw [compareCells_singleton, compared], shown⟩
    | tuple leaves => simp [leaf.plain, isCmp] at result
  | @tuple lefts _ leaves =>
    cases second with
    | scalar leaf' => simp [leaf'.plain, isCmp] at result
    | @tuple rights _ leaves' =>
      simp only [Expr.isTuple_tuple, isCmp, Bool.or_self, Bool.and_self, if_true, evalKids, evalTupleCmp,
        length_evalAll] at result
      split at result
      · contradiction
      · next same =>
        split at result
        · contradiction
        · next order compared =>
          exact ⟨order, compareValues_cells leaves leaves' (not_not.mp same) compared, (Except.ok.inj result).symm⟩

/-! ## Bounds -/

/-- The leading cells of a row compare with a bound as the operator asks. -/
def Bounded (op : ExprOp) (own cells : List Cell) : Prop :=
  ∃ order, compareCells (own.take cells.length) cells = some order ∧ cmpResult op order = true

/-- The cells of a row in an index. -/
def indexCells (schema : Schema) (indexNo : ℕ) (row : Row) : List Cell :=
  row.pick (schema.indices.getD indexNo [])

/-- The rows a request asks for. -/
def RangeReq.Contains (req : RangeReq) (schema : Schema) (row : Row) : Prop :=
  Bounded req.startCmp (indexCells schema req.indexNo row) req.start ∧
    Bounded req.stopCmp (indexCells schema req.indexNo row) req.stop

theorem compareCells_swap (left right : List Cell) :
    compareCells right left = (compareCells left right).map Ordering.swap := by
  induction left generalizing right with
  | nil => cases right <;> rfl
  | cons a lefts ih =>
    cases right with
    | nil => rfl
    | cons b rights =>
      rw [compareCells, compareCells, Cell.compare?_swap a b]
      cases Cell.compare? a b with
      | none => rfl
      | some order =>
        cases order with
        | eq => exact ih rights
        | lt => rfl
        | gt => rfl

theorem bounded_nil (op : ExprOp) (own : List Cell) : Bounded op own [] ↔ cmpResult op .eq = true := by
  simp [Bounded, compareCells]

theorem bounded_eq_iff (own cells : List Cell) :
    Bounded .ge own cells ∧ Bounded .le own cells ↔ own.take cells.length = cells := by
  constructor
  · rintro ⟨⟨order, compared, lower⟩, ⟨other, same, upper⟩⟩
    obtain rfl := Option.some.inj (compared.symm.trans same)
    cases order with
    | eq => exact compareCells_order compared
    | lt => contradiction
    | gt => contradiction
  · intro equal
    refine ⟨⟨.eq, ?_, rfl⟩, ⟨.eq, ?_, rfl⟩⟩ <;> rw [equal, compareCells_self]

theorem Schema.Created.lookupCell (created : schema.Created) (typed : schema.Typed row) {index : List ℕ} {idx : ℕ}
    {col : Column} (member : index ∈ schema.indices) (inside : idx ∈ index) (found : schema.cols[idx]? = some col) :
    PallasDB.lookupCell schema row col.name = .ok (row.getD idx (.i64 0)) := by
  obtain ⟨cell, own, _⟩ := typed.cell found
  simp only [PallasDB.lookupCell, created.first index member idx inside col found, own, List.getD_eq_getElem?_getD,
    Option.getD_some]

/-- Names that begin an index stand for the leading cells, of the types of the values they are compared with. -/
private theorem names_lookup (created : schema.Created) (typed : schema.Typed row) {whole index : List ℕ}
    (member : whole ∈ schema.indices) (part : ∀ idx ∈ index, idx ∈ whole) {cols : List Bytes}
    (same : cols.length = cells.length) (fewer : cols.length ≤ index.length)
    (named : ∀ entry ∈ index.zip (cols.zip cells), ∃ col, schema.cols[entry.1]? = some col ∧ col.name = entry.2.1 ∧
      col.type = entry.2.2.type) :
    List.Forall₂ (Leaf schema row) (cols.map .name) ((row.pick index).take cells.length) ∧
      ((row.pick index).take cells.length).map Cell.type = cells.map Cell.type := by
  induction cols generalizing index cells with
  | nil =>
    obtain rfl := List.length_eq_zero_iff.mp same.symm
    exact ⟨.nil, rfl⟩
  | cons name cols ih =>
    cases cells with
    | nil => contradiction
    | cons cell cells =>
      cases index with
      | nil => simp at fewer
      | cons idx index =>
        obtain ⟨col, found, rfl, type⟩ := named (idx, name, cell) List.mem_cons_self
        obtain ⟨own, present, ownType⟩ := typed.cell found
        obtain ⟨leaves, types⟩ := ih (fun other inside => part other (List.mem_cons_of_mem _ inside))
          (by simpa using same)
          (by simpa using fewer) fun entry inside => named entry (List.mem_cons_of_mem _ inside)
        refine ⟨.cons (.name (created.lookupCell typed member (part idx List.mem_cons_self) found)) leaves, ?_⟩
        simp only [Row.pick, List.map_cons, List.length_cons, List.take_succ_cons, List.cons.injEq] at types ⊢
        refine ⟨?_, types⟩
        rw [List.getD_eq_getElem?_getD, present, Option.getD_some, ownType, type]

theorem isPKeyPrefix_lookup (created : schema.Created) (typed : schema.Typed row) {cols : List Bytes}
    (bounds : isPKeyPrefix schema indexNo cols cells = true) :
    List.Forall₂ (Leaf schema row) (cols.map .name) ((indexCells schema indexNo row).take cells.length) ∧
      ((indexCells schema indexNo row).take cells.length).map Cell.type = cells.map Cell.type := by
  rw [isPKeyPrefix] at bounds
  split at bounds
  · contradiction
  · next index found =>
    split at bounds
    · contradiction
    · next sizes =>
      simp only [not_or, not_not, not_lt] at sizes
      rw [indexCells, List.getD_eq_getElem?_getD, found, Option.getD_some]
      refine names_lookup created typed (List.mem_of_getElem? found) (fun _ => id) sizes.1 sizes.2.2
        fun entry member => ?_
      have checked := List.all_eq_true.mp bounds entry member
      split at checked
      · contradiction
      · next col listed => exact ⟨col, listed, of_decide_eq_true checked⟩

private theorem kidNames_eq {kids : List Expr} {names : List Bytes} (listed : kidNames kids = some names) :
    kids = names.map .name := by
  induction kids generalizing names with
  | nil => cases listed; rfl
  | cons kid kids ih =>
    rw [kidNames.eq_def] at listed
    split at listed
    · contradiction
    · next column others shape =>
      cases shape
      obtain ⟨rest, found, rfl⟩ := Option.map_eq_some_iff.mp listed
      rw [ih found, List.map_cons]
    · contradiction

theorem asNameList_denotes {names : List Bytes} {vals : List Cell} (listed : asNameList expr = some names)
    (leaves : List.Forall₂ (Leaf schema row) (names.map .name) vals) : Denotes schema row expr vals := by
  rw [asNameList.eq_def] at listed
  split at listed
  · cases listed
    cases leaves with
    | cons leaf rest =>
      cases rest
      exact .scalar leaf
  · rw [kidNames_eq listed]
    exact .tuple leaves
  · contradiction

private theorem kidCells_leaves {kids : List Expr} (listed : kidCells kids = some cells) :
    List.Forall₂ (Leaf schema row) kids cells := by
  induction kids generalizing cells with
  | nil => cases listed; exact .nil
  | cons kid kids ih =>
    rw [kidCells.eq_def] at listed
    split at listed
    · contradiction
    · next val others shape =>
      cases shape
      obtain ⟨rest, found, rfl⟩ := Option.map_eq_some_iff.mp listed
      exact .cons (.cell val) (ih found)
    · contradiction

theorem asCellList_denotes {expr : Expr} {cells : List Cell} (listed : asCellList expr = some cells) :
    Denotes schema row expr cells := by
  rw [asCellList.eq_def] at listed
  split at listed
  · cases listed
    exact .scalar (.cell _)
  · exact .tuple (kidCells_leaves listed)
  · contradiction

/-! ## Comparisons with the cells of a row -/

/-- A comparison of a row's own cells with others, whichever stand on the left. -/
inductive Compares (schema : Schema) (row : Row) (op : ExprOp) (own cells : List Cell) : Expr → Prop
  | forth {left right : Expr} (isCmp : isCmpOp op = true) (first : Denotes schema row left own)
      (second : Denotes schema row right cells) : Compares schema row op own cells (.binOp op left right)
  | back {flipped : ExprOp} {left right : Expr} (isCmp : isCmpOp flipped = true)
      (flip : ∀ order, cmpResult op order.swap = cmpResult flipped order) (first : Denotes schema row left cells)
      (second : Denotes schema row right own) : Compares schema row op own cells (.binOp flipped left right)

/-- Where it has a value, the order of the cells decides it. -/
theorem Compares.sat {op : ExprOp} {own cells : List Cell} {cond : Expr}
    (compares : Compares schema row op own cells cond) (defined : Defined schema row cond) :
    Sat schema row cond ↔ ∃ order, compareCells own cells = some order ∧ cmpResult op order = true := by
  obtain ⟨depth, val, value⟩ := defined
  have decided (order : Ordering) (shown : Cell.i64 val = boolCell (cmpResult op order)) :
      val ≠ 0 ↔ cmpResult op order = true := by
    obtain ⟨number, same, truth⟩ := boolCell_true (cmpResult op order)
    rw [same, Cell.i64.injEq] at shown
    rw [shown, truth]
  rw [sat_iff value]
  cases compares with
  | forth isCmp first second =>
    obtain ⟨order, compared, shown⟩ := evalExprAt_cmp isCmp first second value
    simp [compared, decided order shown]
  | back isCmp flip first second =>
    obtain ⟨order, compared, shown⟩ := evalExprAt_cmp isCmp first second value
    rw [← flip] at shown
    simp [compareCells_swap cells own, compared, decided _ shown]

theorem flipOp_cmp {op flipped : ExprOp} (flip : flipOp op = some flipped) :
    isCmpOp op = true ∧ ∀ order, cmpResult flipped order.swap = cmpResult op order := by
  cases op <;> cases flip <;> exact ⟨rfl, by decide⟩

/-- A comparison that bounds an index is one with the leading cells of the row. -/
theorem matchBound_compares (created : schema.Created) (typed : schema.Typed row) {cond : Expr} {bound : MatchedCmp}
    (matched : matchBound schema indexNo cond = some bound) :
    let own := (indexCells schema indexNo row).take bound.cells.length
    Compares schema row bound.op own bound.cells cond ∧ own.map Cell.type = bound.cells.map Cell.type := by
  obtain ⟨found, bounds⟩ := Option.filter_eq_some_iff.mp matched
  obtain ⟨leaves, types⟩ := isPKeyPrefix_lookup created typed bounds
  refine ⟨?_, types⟩
  rw [matchCmp.eq_def] at found
  split at found
  · next op left right =>
    split at found
    · contradiction
    · next flipped flip =>
      obtain ⟨isCmp, flips⟩ := flipOp_cmp flip
      split at found
      · next names listed =>
        obtain ⟨cells, right, rfl⟩ := Option.map_eq_some_iff.mp found
        exact .forth isCmp (asNameList_denotes listed leaves) (asCellList_denotes right)
      · split at found
        · next names listed =>
          obtain ⟨cells, left, rfl⟩ := Option.map_eq_some_iff.mp found
          exact .back isCmp flips (asCellList_denotes left) (asNameList_denotes listed leaves)
        · contradiction
  · contradiction

theorem matchEq_compares {cond : Expr} {named : NamedCell} (matched : matchEq cond = some named)
    (looked : lookupCell schema row named.column = .ok val) :
    Compares schema row .eq [val] [named.value] cond := by
  rw [matchEq.eq_def] at matched
  split at matched
  · cases matched
    exact .forth rfl (.scalar (.name looked)) (.scalar (.cell _))
  · cases matched
    exact .back rfl (by decide) (.scalar (.cell _)) (.scalar (.name looked))
  · contradiction

/-! ## Plans -/

theorem matchRangeByIndex_bounds (matched : matchRangeByIndex schema indexNo (.binOp .and left right) = some req) :
    ∃ first second, matchBound schema indexNo left = some first ∧ matchBound schema indexNo right = some second := by
  simp only [matchRangeByIndex, asAnd] at matched
  split at matched
  · next first second matchedLeft matchedRight => exact ⟨first, second, matchedLeft, matchedRight⟩
  · contradiction

theorem matchRangeByIndex_and (created : schema.Created) (typed : schema.Typed row)
    (matched : matchRangeByIndex schema indexNo (.binOp .and left right) = some req)
    (leftDefined : Defined schema row left) (rightDefined : Defined schema row right) :
    req.Contains schema row ↔ Sat schema row left ∧ Sat schema row right := by
  simp only [matchRangeByIndex, asAnd] at matched
  split at matched
  · next first second matchedLeft matchedRight =>
    rw [(matchBound_compares created typed matchedLeft).1.sat leftDefined,
      (matchBound_compares created typed matchedRight).1.sat rightDefined]
    split at matched
    · contradiction
    · split at matched
      · cases matched
        exact and_comm
      · cases matched
        exact Iff.rfl
  · contradiction

theorem matchRangeByIndex_sat (created : schema.Created) (typed : schema.Typed row) {cond : Expr}
    (matched : matchRangeByIndex schema indexNo cond = some req) (defined : Defined schema row cond) :
    req.Contains schema row ↔ Sat schema row cond := by
  cases split : asAnd cond with
  | some both =>
    obtain rfl := asAnd_eq_some.mp split
    obtain ⟨leftDefined, rightDefined, both⟩ := defined.and
    rw [matchRangeByIndex_and created typed matched leftDefined rightDefined, both]
  | none =>
    rw [matchRangeByIndex, split] at matched
    obtain ⟨bound, found, rfl⟩ := Option.map_eq_some_iff.mp matched
    rw [(matchBound_compares created typed found).1.sat defined]
    -- The missing bound is no bound.
    have free : Bounded (if isDescending bound.op then .ge else .le) (indexCells schema indexNo row) [] := by
      rw [bounded_nil]
      split <;> rfl
    exact and_iff_left free

theorem matchEq_sat {cond : Expr} {named : NamedCell} (matched : matchEq cond = some named)
    (looked : lookupCell schema row named.column = .ok val) (defined : Defined schema row cond) :
    Sat schema row cond ↔ val = named.value := by
  rw [(matchEq_compares matched looked).sat defined, compareCells_singleton, ← Cell.compare?_eq]
  constructor
  · rintro ⟨order, compared, equal⟩
    cases order <;> first | exact compared | contradiction
  · exact fun same => ⟨_, same, rfl⟩

theorem findEq_some {col : Column} {conj : List Expr} {used : List ℕ} {i : ℕ}
    (found : findEq col conj used = some (val, i)) :
    ∃ node, conj[i]? = some node ∧ matchEq node = some ⟨col.name, val⟩ ∧ val.type = col.type := by
  obtain ⟨⟨node, j⟩, member, matched⟩ := List.exists_of_findSome?_eq_some found
  split at matched
  · contradiction
  · split at matched
    · contradiction
    · next named shape =>
      split at matched
      · next fits =>
        cases matched
        refine ⟨node, List.mk_mem_zipIdx_iff_getElem?.mp member, ?_, fits.2⟩
        rw [shape, ← fits.1]
      · contradiction

theorem matchRow_some {truth : Bool} (result : matchRow schema row (some expr) = .ok truth) :
    Defined schema row expr ∧ (Sat schema row expr ↔ truth = true) := by
  rw [matchRow] at result
  split at result
  · contradiction
  · contradiction
  · next val value =>
    cases result
    exact ⟨⟨0, val, value⟩, by rw [sat_iff value, decide_eq_true_eq]⟩

theorem contains_fullScanReq : fullScanReq.Contains schema row := by
  constructor <;> exact (bounded_nil _ _).mpr rfl

end Truth

end PallasDB
