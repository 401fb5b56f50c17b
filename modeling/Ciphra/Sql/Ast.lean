import Ciphra.Foundations.Ieee

/-!
# The statements of the SQL dialect

The abstract syntax the parser produces. `Statement.Parsed` collects what the parser and the lexer
promise of it: names are identifiers, real literals are numbers, and the index flags of a column,
which the engine manages, are off in a `CREATE TABLE`.
-/

namespace Ciphra

inductive DataType
  | int
  | real
  | text
  /-- Fixed-dimension embedding. -/
  | vector (dim : UInt16)
  deriving DecidableEq, Repr

structure ColumnDef where
  name : String
  ty : DataType
  encrypted : Bool
  primaryKey : Bool
  /-- Has a secondary equality index. -/
  indexed : Bool
  /-- Has a sealed range index. -/
  rangeIndexed : Bool
  deriving DecidableEq, Repr

inductive Literal
  | null
  | int (n : Int64)
  | real (x : F64)
  | text (s : String)
  | vector (v : List F32)
  deriving DecidableEq, Repr

inductive CmpOp
  | eq
  | ne
  | lt
  | gt
  | le
  | ge
  deriving DecidableEq, Repr

/-- A `WHERE` expression. -/
inductive Expr
  | compare (column : String) (op : CmpOp) (value : Literal)
  | isNull (column : String) (negated : Bool)
  | not (inner : Expr)
  | and (a b : Expr)
  | or (a b : Expr)
  deriving DecidableEq, Repr

inductive AggFunc
  | count
  | sum
  | avg
  | min
  | max
  deriving DecidableEq, Repr

def AggFunc.name : AggFunc → String
  | .count => "COUNT"
  | .sum => "SUM"
  | .avg => "AVG"
  | .min => "MIN"
  | .max => "MAX"

inductive AggArg
  | star
  | column (name : String)
  deriving DecidableEq, Repr

/-- One item of an aggregate query's projection. -/
inductive SelectItem
  | column (name : String)
  | aggregate (func : AggFunc) (arg : AggArg)
  deriving DecidableEq, Repr

inductive Projection
  | all
  | columns (names : List String)
  | items (items : List SelectItem)
  deriving DecidableEq, Repr

inductive HavingTerm
  | column (name : String)
  | aggregate (func : AggFunc) (arg : AggArg)
  deriving DecidableEq, Repr

inductive HavingExpr
  | compare (term : HavingTerm) (op : CmpOp) (value : Literal)
  | not (inner : HavingExpr)
  | and (a b : HavingExpr)
  | or (a b : HavingExpr)
  deriving DecidableEq, Repr

structure OrderBy where
  column : String
  descending : Bool
  nearestTo : Option (List F32)
  deriving DecidableEq, Repr

structure Limit where
  count : UInt64
  offset : UInt64
  deriving DecidableEq, Repr

/-- One `column = literal` pair of an `UPDATE`. -/
structure Assignment where
  column : String
  value : Literal
  deriving DecidableEq, Repr

inductive Statement
  | createTable (name : String) (columns : List ColumnDef)
  | dropTable (name : String)
  | createIndex (table column : String) (range : Bool)
  | dropIndex (table column : String) (range : Bool)
  | insert (table : String) (columns : Option (List String)) (rows : List (List Literal))
  | select (columns : Projection) (table : String) (predicate : Option Expr)
      (groupBy : List String) (having : Option HavingExpr) (orderBy : Option OrderBy)
      (limit : Option Limit)
  | update (table : String) (assignments : List Assignment) (predicate : Option Expr)
  | delete (table : String) (predicate : Option Expr)
  | explain (inner : Statement)
  | begin
  | commit
  | rollback
  deriving DecidableEq, Repr

/-! ## What parsing promises -/

/-- A character of an identifier, after lowercasing. -/
def isIdentChar (c : Char) : Bool := c.isLower || c.isDigit || c == '_'

/-- A name as the lexer produces it. -/
def IsIdent (name : String) : Prop := ∀ c ∈ name.toList, isIdentChar c = true

instance (name : String) : Decidable (IsIdent name) := List.decidableBAll _ _

/-- A literal as the lexer produces it: the text of a real literal is digits, a dot and digits, so
it never reads as NaN. -/
def Literal.Lexed : Literal → Prop
  | .real x => x.isNaN = false
  | _ => True

instance : (l : Literal) → Decidable l.Lexed
  | .real _ => inferInstanceAs (Decidable (_ = _))
  | .null | .int _ | .text _ | .vector _ => isTrue trivial

/-- A column definition as the parser produces it. -/
structure ColumnDef.Parsed (c : ColumnDef) : Prop where
  name : IsIdent c.name
  indexed : c.indexed = false
  rangeIndexed : c.rangeIndexed = false

instance (c : ColumnDef) : Decidable c.Parsed :=
  decidable_of_iff (IsIdent c.name ∧ c.indexed = false ∧ c.rangeIndexed = false)
    ⟨fun h => ⟨h.1, h.2.1, h.2.2⟩, fun h => ⟨h.1, h.2, h.3⟩⟩

/-- The literals of an expression. -/
def Expr.literals : Expr → List Literal
  | .compare _ _ value => [value]
  | .isNull _ _ => []
  | .not inner => inner.literals
  | .and a b => a.literals ++ b.literals
  | .or a b => a.literals ++ b.literals

/-- The literals of a statement that reach the tables or an index lookup. -/
def Statement.literals : Statement → List Literal
  | .insert _ _ rows => rows.flatten
  | .select _ _ predicate _ _ _ _ => (predicate.map Expr.literals).getD []
  | .update _ assignments predicate =>
    assignments.map Assignment.value ++ (predicate.map Expr.literals).getD []
  | .delete _ predicate => (predicate.map Expr.literals).getD []
  | .explain inner => inner.literals
  | _ => []

/-- The table a statement names, if any. -/
def Statement.table : Statement → Option String
  | .createTable name _ => some name
  | .dropTable name => some name
  | .createIndex table _ _ => some table
  | .dropIndex table _ _ => some table
  | .insert table _ _ => some table
  | .select _ table _ _ _ _ _ => some table
  | .update table _ _ => some table
  | .delete table _ => some table
  | .explain inner => inner.table
  | .begin | .commit | .rollback => none

/-- The columns a statement declares. -/
def Statement.declared : Statement → List ColumnDef
  | .createTable _ columns => columns
  | _ => []

/-- What the parser promises of every statement it returns. -/
structure Statement.Parsed (s : Statement) : Prop where
  table : ∀ t ∈ s.table, IsIdent t
  declared : ∀ c ∈ s.declared, c.Parsed
  literals : ∀ l ∈ s.literals, l.Lexed

end Ciphra
