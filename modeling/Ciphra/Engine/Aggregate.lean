import Ciphra.Engine.Codec
import Ciphra.Engine.Expr

/-!
# Aggregate queries

`aggregate` runs a query with `GROUP BY` or aggregate functions over the rows that passed its
filter. It resolves the projection and the `HAVING` predicate to plans, of which `HAVING` appends
those that are not selected, keeps one accumulator for each plan and group, finds a row's group by
the encoded bytes of its grouping values, and finally sorts the groups by these values. What the
result means is the subject of `Ciphra.Engine.Grouping`.

Floating-point addition and division, and the text of a value in an error message, are the standard
library's; they are parameters here (`Floats`).
-/

namespace Ciphra

/-- What the aggregates take from the standard library. -/
structure Floats where
  add : F64 → F64 → F64
  div : F64 → F64 → F64
  display : Value → String

/-- Floating-point operations for queries without any. -/
def noFloats : Floats := ⟨fun x _ => x, fun x _ => x, fun _ => ""⟩

/-- A resolved projection item of an aggregate query. -/
inductive AggPlan
  /-- A grouping column, by its position in the group key. -/
  | groupCol (pos : ℕ)
  /-- `COUNT(*)`, or the number of values of a column that are not `NULL`. -/
  | count (col : Option ℕ)
  | sumInt (col : ℕ)
  | sumReal (col : ℕ)
  | avg (col : ℕ)
  | min (col : ℕ)
  | max (col : ℕ)
  deriving DecidableEq, Repr

/-- A running accumulator, one for each plan. The total of a `SUM` over integers is a 128-bit
integer, which fewer than `2 ^ 63` summands of 64 bits cannot overflow. -/
inductive AggAcc
  | groupCol
  | count (c : Int64)
  | sumInt (total : ℤ) (any : Bool)
  | sumReal (total : F64) (any : Bool)
  | avg (total : F64) (count : Int64)
  | extreme (v : Option Value)
  deriving DecidableEq, Repr

/-- Position of a name within the `GROUP BY` columns. -/
def groupColPos (groupBy : List String) (name : String) : Except EngineError ℕ :=
  match groupBy.findIdx? fun g => g == name with
  | some i => .ok i
  | none => .error (.schema ("column " ++ quoted name ++
      " must appear in GROUP BY or inside an aggregate"))

/-- The output column name of an aggregate, as in `SUM(salary)`. -/
def aggregateName (func : AggFunc) (arg : AggArg) : String :=
  let argName := match arg with
    | .star => "*"
    | .column col => col
  func.name ++ "(" ++ argName ++ ")"

/-- Resolve one aggregate to a plan, checking the type of its column. -/
def resolveAggregate (schema : TableSchema) (table : String) (func : AggFunc) :
    AggArg → Except EngineError AggPlan
  | .star => .ok (.count none)
  | .column col => do
    let idx ← resolveColumn schema col table
    let ty := (schema.columns[idx]?.map ColumnDef.ty).getD .int
    match func, ty with
    | .count, _ => pure (.count (some idx))
    | .sum, .int => pure (.sumInt idx)
    | .sum, .real => pure (.sumReal idx)
    | .sum, _ => .error (.type ("SUM(" ++ col ++ ") requires an INT or REAL column"))
    | .avg, .int | .avg, .real => pure (.avg idx)
    | .avg, _ => .error (.type ("AVG(" ++ col ++ ") requires an INT or REAL column"))
    | .min, .vector _ | .max, .vector _ =>
      .error (.type (func.name ++ "(" ++ col ++ ") is not defined on a VECTOR column"))
    | .min, _ => pure (.min idx)
    | .max, _ => pure (.max idx)

/-- The position of a grouping column. -/
def resolveGroupColumn (schema : TableSchema) (table name : String) : Except EngineError ℕ :=
  match schema.columnIndex name with
  | some i => .ok i
  | none => .error (.schema ("unknown column " ++ quoted name ++ " in GROUP BY of table " ++
      quoted table))

/-- A projected item's plan and output column name. -/
def resolveItem (schema : TableSchema) (table : String) (groupBy : List String) :
    SelectItem → Except EngineError (AggPlan × String)
  | .column name => do
    let pos ← groupColPos groupBy name
    pure (.groupCol pos, name)
  | .aggregate func arg => do
    let plan ← resolveAggregate schema table func arg
    pure (plan, aggregateName func arg)

/-! ## `HAVING` -/

/-- A resolved operand: a group-key column or a computed plan. -/
inductive HavingRef
  | groupKey (pos : ℕ)
  | plan (idx : ℕ)
  deriving DecidableEq, Repr

inductive CompiledHaving
  | compare (left : HavingRef) (op : CmpOp) (value : Value)
  | not (inner : CompiledHaving)
  | and (a b : CompiledHaving)
  | or (a b : CompiledHaving)
  deriving DecidableEq, Repr

/-- Compile a `HAVING` predicate, appending the aggregates it needs to the plans. -/
def compileHaving (schema : TableSchema) (table : String) (groupBy : List String) :
    HavingExpr → List AggPlan → Except EngineError (CompiledHaving × List AggPlan)
  | .compare (.column name) op value, plans => do
    let pos ← groupColPos groupBy name
    pure (.compare (.groupKey pos) op (literalToValue value), plans)
  | .compare (.aggregate func arg) op value, plans => do
    let plan ← resolveAggregate schema table func arg
    pure (.compare (.plan plans.length) op (literalToValue value), plans ++ [plan])
  | .not inner, plans => do
    let (inner, plans) ← compileHaving schema table groupBy inner plans
    pure (.not inner, plans)
  | .and a b, plans => do
    let (a, plans) ← compileHaving schema table groupBy a plans
    let (b, plans) ← compileHaving schema table groupBy b plans
    pure (.and a b, plans)
  | .or a b, plans => do
    let (a, plans) ← compileHaving schema table groupBy a plans
    let (b, plans) ← compileHaving schema table groupBy b plans
    pure (.or a b, plans)

/-- Compile the predicate, if there is one. -/
def compileOptional (schema : TableSchema) (table : String) (groupBy : List String)
    (having : Option HavingExpr) (plans : List AggPlan) :
    Except EngineError (Option CompiledHaving × List AggPlan) :=
  match having with
  | some h => do
    let (h, plans) ← compileHaving schema table groupBy h plans
    pure (some h, plans)
  | none => .ok (none, plans)

/-- A comparison of an operand with a literal: *unknown* when one of them is `NULL`. -/
def compareHaving (op : CmpOp) (lhs value : Value) : Option Bool :=
  if lhs.isNull || value.isNull then none else some (op.holds (compareValues lhs value))

/-- Evaluate a compiled `HAVING` for one group, in three-valued logic. -/
def evalHaving (computed keyvals : Row) : CompiledHaving → Option Bool
  | .compare (.groupKey pos) op value => compareHaving op (keyvals.cell pos) value
  | .compare (.plan idx) op value => compareHaving op (computed.cell idx) value
  | .not inner => (evalHaving computed keyvals inner).map fun b => !b
  | .and a b => kleeneAnd (evalHaving computed keyvals a) (evalHaving computed keyvals b)
  | .or a b => kleeneOr (evalHaving computed keyvals a) (evalHaving computed keyvals b)

/-! ## Accumulating -/

def initAcc : AggPlan → AggAcc
  | .groupCol _ => .groupCol
  | .count _ => .count 0
  | .sumInt _ => .sumInt 0 false
  | .sumReal _ => .sumReal ⟨0⟩ false
  | .avg _ => .avg ⟨0⟩ 0
  | .min _ | .max _ => .extreme none

/-- Fold a value into a running minimum or maximum. `NULL`s are ignored. -/
def updateExtreme (current : Option Value) (value : Value) (wantMin : Bool) : Option Value :=
  if value.isNull then current
  else match current with
    | none => some value
    | some existing =>
      let ord := compareValues value existing
      let replace := if wantMin then ord == .lt else ord == .gt
      if replace then some value else some existing

/-- What one row adds to one accumulator. -/
def accumulate (F : Floats) (row : Row) (plan : AggPlan) (acc : AggAcc) :
    Except EngineError AggAcc :=
  match plan, acc with
  | .groupCol _, .groupCol => .ok .groupCol
  | .count none, .count c => .ok (.count (c + 1))
  | .count (some idx), .count c => .ok (.count (if (row.cell idx).isNull then c else c + 1))
  | .sumInt idx, .sumInt total any =>
    match row.cell idx with
    | .null => .ok (.sumInt total any)
    | .int n => .ok (.sumInt (total + n.toInt) true)
    | other => .error (.type ("SUM encountered a non-integer value: " ++ F.display other))
  | .sumReal idx, .sumReal total any =>
    match row.cell idx with
    | .null => .ok (.sumReal total any)
    | .real x => .ok (.sumReal (F.add total x) true)
    | .int n => .ok (.sumReal (F.add total (F64.ofInt n)) true)
    | other => .error (.type ("SUM encountered a non-numeric value: " ++ F.display other))
  | .avg idx, .avg total count =>
    match row.cell idx with
    | .null => .ok (.avg total count)
    | .real x => .ok (.avg (F.add total x) (count + 1))
    | .int n => .ok (.avg (F.add total (F64.ofInt n)) (count + 1))
    | other => .error (.type ("AVG encountered a non-numeric value: " ++ F.display other))
  | .min idx, .extreme cur => .ok (.extreme (updateExtreme cur (row.cell idx) true))
  | .max idx, .extreme cur => .ok (.extreme (updateExtreme cur (row.cell idx) false))
  -- plan and accumulator are built in lockstep
  | _, _ => .error .panicked

/-- The groups found so far, in the order of their first rows, and the position of each by the
encoded bytes of its key. -/
structure Groups where
  groups : List (Row × List AggAcc)
  index : List (Bytes × ℕ)
  deriving DecidableEq, Repr

namespace Groups

/-- Without `GROUP BY`, an aggregate over no rows still yields one row: its group is there from the
start, under the key every row has. -/
def start (plans : List AggPlan) (groupBy : List String) : Groups :=
  if groupBy.isEmpty then ⟨[([], plans.map initAcc)], [(encodeRow [], 0)]⟩ else ⟨[], []⟩

/-- The position of the group of a key, and the groups with that group in them. -/
def entry (plans : List AggPlan) (g : Groups) (keyvals : Row) : ℕ × Groups :=
  match g.index.lookup (encodeRow keyvals) with
  | some gi => (gi, g)
  | none =>
    (g.groups.length, ⟨g.groups ++ [(keyvals, plans.map initAcc)],
      g.index ++ [(encodeRow keyvals, g.groups.length)]⟩)

/-- One round of the loop over the rows. -/
def addRow (F : Floats) (plans : List AggPlan) (groupIdx : List ℕ) (g : Groups) (row : Row) :
    Except EngineError Groups :=
  let (gi, g) := g.entry plans (groupIdx.map row.cell)
  match g.groups[gi]? with
  | some (keyvals, accs) => do
    let accs ← (plans.zip accs).mapM fun p => accumulate F row p.1 p.2
    pure ⟨g.groups.set gi (keyvals, accs), g.index⟩
  | none => .error .panicked

end Groups

/-! ## Results -/

def sumOverflow : EngineError := .type "SUM overflowed a 64-bit integer"

/-- The output value of a plan for a group. -/
def finalizePlan (F : Floats) (plan : AggPlan) (acc : AggAcc) (keyvals : Row) :
    Except EngineError Value :=
  match plan, acc with
  | .groupCol pos, _ => .ok (keyvals.cell pos)
  | _, .count c => .ok (.int c)
  | _, .sumInt total any =>
    if any then
      if -2 ^ 63 ≤ total ∧ total < 2 ^ 63 then .ok (.int (Int64.ofInt total))
      else .error sumOverflow
    else .ok .null
  | _, .sumReal total any => .ok (if any then .real total else .null)
  | _, .avg total count =>
    .ok (if 0 < count then .real (F.div total (F64.ofInt count)) else .null)
  | _, .extreme v => .ok (v.getD .null)
  -- plan and accumulator are built in lockstep
  | _, .groupCol => .error .panicked

/-- The order of group keys: by the first values that differ. -/
def compareKeys : Row → Row → Ordering
  | x :: xs, y :: ys => (compareValues x y).then (compareKeys xs ys)
  | _, _ => .eq

/-- The output row of a group: every plan is finalized, then `HAVING` decides, then the projected
values are kept. -/
def outputRow (F : Floats) (plans : List AggPlan) (outputLen : ℕ) (having : Option CompiledHaving)
    (group : Row × List AggAcc) : Except EngineError (Option Row) := do
  let computed ← (plans.zip group.2).mapM fun p => finalizePlan F p.1 p.2 group.1
  match having with
  | some h =>
    if evalHaving computed group.1 h ≠ some true then pure none
    else pure (some (computed.take outputLen))
  | none => pure (some (computed.take outputLen))

/-- Execute an aggregate query over the rows that passed its filter: the output columns and rows. -/
def aggregate (F : Floats) (schema : TableSchema) (table : String) (items : List SelectItem)
    (groupBy : List String) (having : Option HavingExpr) (rows : List Row) (limit : Option Limit) :
    Except EngineError (List String × List Row) := do
  let groupIdx ← groupBy.mapM (resolveGroupColumn schema table)
  let resolved ← items.mapM (resolveItem schema table groupBy)
  let plans := resolved.map Prod.fst
  let names := resolved.map Prod.snd
  let outputLen := plans.length
  let (compiledHaving, plans) ← compileOptional schema table groupBy having plans
  let g ← rows.foldlM (Groups.addRow F plans groupIdx) (Groups.start plans groupBy)
  let groups := g.groups.mergeSort fun a b => (compareKeys a.1 b.1).isLE
  let out ← groups.mapM (outputRow F plans outputLen compiledHaving)
  let outRows := out.filterMap id
  let outRows := match limit with
    | some l => (outRows.drop l.offset.toNat).take l.count.toNat
    | none => outRows
  pure (names, outRows)

end Ciphra
