import Ciphra.Engine.Value

/-!
# Predicates

A `WHERE` expression is compiled against a schema (`compileExpr`) and evaluated on a row in
three-valued logic (`CompiledExpr.eval`). The engine looks for a conjunct that pins an indexed
column (`indexedEqValue`, `rangeIndexedPred`) to avoid a scan; `eqValueFor_of_eval` and
`rangePredValue_of_eval` say that a conjunct found holds in every matching row.
-/

namespace Ciphra

/-- A predicate resolved against a schema: column positions and values. -/
inductive CompiledExpr
  | compare (columnIndex : ℕ) (columnName : String) (op : CmpOp) (value : Value)
  | isNull (columnIndex : ℕ) (negated : Bool)
  | not (inner : CompiledExpr)
  | and (a b : CompiledExpr)
  | or (a b : CompiledExpr)
  deriving DecidableEq, Repr

def unknownColumn (column table : String) : EngineError :=
  .schema ("unknown column " ++ quoted column ++ " in table " ++ quoted table)

/-- The position of a column, or an error that names it. -/
def resolveColumn (schema : TableSchema) (column table : String) : Except EngineError ℕ :=
  match schema.columnIndex column with
  | some i => .ok i
  | none => .error (unknownColumn column table)

def compileExpr (schema : TableSchema) : Expr → Except EngineError CompiledExpr
  | .compare column op value => do
    let i ← resolveColumn schema column schema.name
    pure (.compare i column op (literalToValue value))
  | .isNull column negated => do
    let i ← resolveColumn schema column schema.name
    pure (.isNull i negated)
  | .not inner => do
    let inner ← compileExpr schema inner
    pure (.not inner)
  | .and a b => do
    let a ← compileExpr schema a
    let b ← compileExpr schema b
    pure (.and a b)
  | .or a b => do
    let a ← compileExpr schema a
    let b ← compileExpr schema b
    pure (.or a b)

/-- The outcome of a comparison, given the order of its sides. -/
def CmpOp.holds (op : CmpOp) (ordering : Ordering) : Bool :=
  match op with
  | .eq => ordering.isEq
  | .ne => ordering.isNe
  | .lt => ordering.isLT
  | .gt => ordering.isGT
  | .le => ordering.isLE
  | .ge => ordering.isGE

/-- The order of a cell and a literal: `none` when one of them is `NULL`. -/
def cellOrdering (columnName : String) : Value → Value → Except EngineError (Option Ordering)
  | .null, _ | _, .null => .ok none
  | .int a, .int b => .ok (some (Ord.compare a b))
  | .real a, .real b => .ok (some (a.totalCmp b))
  -- an INT column and a REAL literal, or vice versa
  | .int a, .real b => .ok (some ((F64.ofInt a).totalCmp b))
  | .real a, .int b => .ok (some (a.totalCmp (F64.ofInt b)))
  | .text a, .text b => .ok (some (Ord.compare a b))
  | .vector _, _ | _, .vector _ =>
    .error (.type ("vector column " ++ quoted columnName ++ " does not support comparisons; " ++
      "use ORDER BY " ++ columnName ++ " NEAREST TO [..]"))
  | _, _ =>
    .error (.type ("cannot compare column " ++ quoted columnName ++
      " with a value of a different type"))

/-- Kleene conjunction. -/
def kleeneAnd : Option Bool → Option Bool → Option Bool
  | some false, _ | _, some false => some false
  | some true, some true => some true
  | _, _ => none

/-- Kleene disjunction. -/
def kleeneOr : Option Bool → Option Bool → Option Bool
  | some true, _ | _, some true => some true
  | some false, some false => some false
  | _, _ => none

namespace CompiledExpr

/-- Three-valued logic: `none` is SQL's *unknown*. Both sides of a connective are evaluated. -/
def eval (row : Row) : CompiledExpr → Except EngineError (Option Bool)
  | .compare i name op value => do
    let ordering ← cellOrdering name (row.cell i) value
    pure (ordering.map op.holds)
  | .isNull i negated => pure (some ((row.cell i).isNull != negated))
  | .not inner => do
    let r ← inner.eval row
    pure (r.map fun b => !b)
  | .and a b => do
    let r ← a.eval row
    let s ← b.eval row
    pure (kleeneAnd r s)
  | .or a b => do
    let r ← a.eval row
    let s ← b.eval row
    pure (kleeneOr r s)

/-- A row matches only when the expression is definitely true. -/
def matchesRow (e : CompiledExpr) (row : Row) : Except EngineError Bool := do
  let r ← e.eval row
  pure (r == some true)

end CompiledExpr

/-- A row matches an optional filter. -/
def filterMatches (filter : Option CompiledExpr) (row : Row) : Except EngineError Bool :=
  match filter with
  | some f => f.matchesRow row
  | none => .ok true

/-! ## Access paths -/

/-- If the expression can only be true when column `col` equals one specific value, that value.
Only `col = literal` and conjunctions containing it qualify. -/
def eqValueFor (col : ℕ) : CompiledExpr → Option Value
  | .compare i _ .eq value => if i = col ∧ ¬ value.isNull then some value else none
  | .and a b => (eqValueFor col a).or (eqValueFor col b)
  | _ => none

/-- The first column of a list that yields an answer. -/
def firstColumn {α : Type} (f : ℕ → Option α) : List ℕ → Option (ℕ × α)
  | [] => none
  | col :: cols =>
    match f col with
    | some a => some (col, a)
    | none => firstColumn f cols

/-- Pick the index for a predicate: the primary key if it is pinned, otherwise the first pinned
`CREATE INDEX` column. -/
def indexedEqValue (expr : CompiledExpr) (schema : TableSchema) : Option (ℕ × Value) :=
  match schema.pkColumn.bind fun pk => (eqValueFor pk expr).map fun v => (pk, v) with
  | some r => some r
  | none => firstColumn (fun col => eqValueFor col expr) (schema.columnsWhere ColumnDef.indexed)

/-- If the expression can only be true where `col` satisfies one comparison, that comparison. -/
def rangePredValue (col : ℕ) : CompiledExpr → Option (CmpOp × Value)
  | .compare i _ op value =>
    if i = col ∧ ¬ value.isNull ∧ op ≠ .ne then some (op, value) else none
  | .and a b => (rangePredValue col a).or (rangePredValue col b)
  | _ => none

/-- Pick a range-index access path: the first range-indexed column that the predicate pins. -/
def rangeIndexedPred (expr : CompiledExpr) (schema : TableSchema) : Option (ℕ × CmpOp × Value) :=
  firstColumn (fun col => rangePredValue col expr) schema.rangeIndexedColumns

/-! ## What a pinned column says about matching rows -/

theorem firstColumn_eq_some {α : Type} {f : ℕ → Option α} {cols : List ℕ} {col : ℕ} {a : α}
    (h : firstColumn f cols = some (col, a)) : col ∈ cols ∧ f col = some a := by
  induction cols with
  | nil => cases h
  | cons c cols ih =>
    rw [firstColumn] at h
    split at h
    · rename_i b hb
      cases h
      exact ⟨List.mem_cons_self, hb⟩
    · obtain ⟨hmem, hf⟩ := ih h
      exact ⟨List.mem_cons_of_mem _ hmem, hf⟩

theorem kleeneAnd_eq_true {r s : Option Bool} (h : kleeneAnd r s = some true) :
    r = some true ∧ s = some true := by
  match r, s with
  | some true, some true => exact ⟨rfl, rfl⟩
  | some false, _ => cases h
  | some true, some false => cases h
  | some true, none => cases h
  | none, some false => cases h
  | none, some true => cases h
  | none, none => cases h

theorem eval_and_eq_true {row : Row} {a b : CompiledExpr}
    (h : (CompiledExpr.and a b).eval row = .ok (some true)) :
    a.eval row = .ok (some true) ∧ b.eval row = .ok (some true) := by
  rw [CompiledExpr.eval] at h
  cases ha : a.eval row with
  | error e =>
    rw [ha] at h
    cases h
  | ok r =>
    cases hb : b.eval row with
    | error e =>
      rw [ha, hb] at h
      cases h
    | ok s =>
      rw [ha, hb] at h
      obtain ⟨rfl, rfl⟩ := kleeneAnd_eq_true (Except.ok.inj h)
      exact ⟨rfl, rfl⟩

/-- The comparison of a range path holds in every row that satisfies the expression. -/
theorem rangePredValue_of_eval {row : Row} {col : ℕ} {e : CompiledExpr} {op : CmpOp} {v : Value}
    (hp : rangePredValue col e = some (op, v)) (h : e.eval row = .ok (some true)) :
    ∃ name ordering, cellOrdering name (row.cell col) v = .ok (some ordering) ∧
      op.holds ordering = true := by
  induction e with
  | compare i name op' value =>
    rw [rangePredValue] at hp
    split at hp
    · rename_i hc
      cases hp
      obtain ⟨rfl, -, -⟩ := hc
      rw [CompiledExpr.eval] at h
      cases ho : cellOrdering name (row.cell i) v with
      | error e =>
        rw [ho] at h
        cases h
      | ok o =>
        rw [ho] at h
        cases o with
        | none => cases Except.ok.inj h
        | some ordering => exact ⟨name, ordering, ho, Option.some.inj (Except.ok.inj h)⟩
    · cases hp
  | and a b iha ihb =>
    obtain ⟨ha, hb⟩ := eval_and_eq_true h
    rw [rangePredValue, Option.or_eq_some_iff] at hp
    rcases hp with hp | ⟨-, hp⟩
    · exact iha hp ha
    · exact ihb hp hb
  | isNull | not | or => cases hp

/-- The equality of an index path holds in every row that satisfies the expression. -/
theorem eqValueFor_of_eval {row : Row} {col : ℕ} {e : CompiledExpr} {v : Value}
    (hp : eqValueFor col e = some v) (h : e.eval row = .ok (some true)) :
    ∃ name, cellOrdering name (row.cell col) v = .ok (some .eq) := by
  induction e with
  | compare i name op value =>
    cases op with
    | eq =>
      rw [eqValueFor] at hp
      split at hp
      · rename_i hc
        cases hp
        obtain ⟨rfl, -⟩ := hc
        rw [CompiledExpr.eval] at h
        cases ho : cellOrdering name (row.cell i) v with
        | error e =>
          rw [ho] at h
          cases h
        | ok o =>
          rw [ho] at h
          cases o with
          | none => cases Except.ok.inj h
          | some ordering =>
            have hord : ordering.isEq = true := Option.some.inj (Except.ok.inj h)
            rw [Ordering.isEq_iff_eq_eq] at hord
            exact ⟨name, hord ▸ ho⟩
      · cases hp
    | ne | lt | gt | le | ge => cases hp
  | and a b iha ihb =>
    obtain ⟨ha, hb⟩ := eval_and_eq_true h
    rw [eqValueFor, Option.or_eq_some_iff] at hp
    rcases hp with hp | ⟨-, hp⟩
    · exact iha hp ha
    · exact ihb hp hb
  | isNull | not | or => cases hp

theorem eqValueFor_not_null {col : ℕ} {e : CompiledExpr} {v : Value}
    (h : eqValueFor col e = some v) : v ≠ .null := by
  induction e with
  | compare i name op value =>
    cases op with
    | eq =>
      rw [eqValueFor] at h
      split at h
      · rename_i hc
        cases h
        simpa using hc.2
      · cases h
    | ne | lt | gt | le | ge => cases h
  | and a b iha ihb =>
    rw [eqValueFor, Option.or_eq_some_iff] at h
    rcases h with h | ⟨-, h⟩
    · exact iha h
    · exact ihb h
  | isNull | not | or => cases h

theorem matchesRow_eq_true {e : CompiledExpr} {row : Row} :
    e.matchesRow row = .ok true ↔ e.eval row = .ok (some true) := by
  rw [CompiledExpr.matchesRow]
  cases he : e.eval row with
  | error err => simp [Bind.bind, Except.bind]
  | ok r => simp [Bind.bind, Except.bind, Pure.pure, Except.pure]

end Ciphra
