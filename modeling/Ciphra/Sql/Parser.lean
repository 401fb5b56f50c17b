import Ciphra.Foundations.Parsing
import Ciphra.Sql.Lexer

/-!
# The parser

Recursive descent over the tokens, one definition for each method of the source's `Parser` and with
its messages. The expression of a `WHERE` and the one of a `HAVING` have one grammar
(`OR < AND < NOT < primary`) and differ in what stands at a leaf, so the levels are stated once, over
a `Grammar`.

The loops and the recursion are bounded by the number of tokens that are left, which is enough
(`parseStatements_ne_depth`, in `Sql.Parsed`).
-/

namespace Ciphra.Sql

open Parsing

variable (F : Formats)

/-! ## Printing -/

def displayText (s : String) : String :=
  "'" ++ String.ofList (s.toList.flatMap fun c => if c = '\'' then ['\'', '\''] else [c]) ++ "'"

def displayLiteral : Literal → String
  | .null => "NULL"
  | .int n => toString n.toInt
  | .real x => F.displayF64 x
  | .text s => displayText s
  | .vector v => "[" ++ ", ".intercalate (v.map F.displayF32) ++ "]"

def displayOp : CmpOp → String
  | .eq => "="
  | .ne => "!="
  | .lt => "<"
  | .gt => ">"
  | .le => "<="
  | .ge => ">="

def displayExpr : Expr → String
  | .compare column op value => column ++ " " ++ displayOp op ++ " " ++ displayLiteral F value
  | .isNull column negated => column ++ " IS " ++ (if negated then "NOT " else "") ++ "NULL"
  | .not inner => "NOT (" ++ displayExpr inner ++ ")"
  | .and a b => "(" ++ displayExpr a ++ " AND " ++ displayExpr b ++ ")"
  | .or a b => "(" ++ displayExpr a ++ " OR " ++ displayExpr b ++ ")"

/-! ## Token helpers -/

/-- A parser over the tokens. -/
abbrev TokenParser (α : Type) := Parser Token ParseError α

variable {α : Type}

def fail (text : String) : TokenParser α := throw (.message text)

/-- The next token. -/
def next (expected : String) : TokenParser Token := do
  match ← get with
  | t :: rest =>
    set rest
    pure t
  | [] => fail ("expected " ++ expected ++ ", found end of input")

def unexpected (expected : String) : TokenParser α := do
  match ← get with
  | t :: _ => fail ("expected " ++ expected ++ ", found " ++ t.display F)
  | [] => fail ("expected " ++ expected ++ ", found end of input")

def expect (t : Token) : TokenParser Unit := do
  if ← eat t then pure () else unexpected F ("'" ++ t.display F ++ "'")

/-- Any identifier-shaped token. -/
def keyword (expected : String) : TokenParser String := do
  match ← next expected with
  | .ident s => pure s
  | other => fail ("expected " ++ expected ++ ", found " ++ other.display F)

def identifier (expected : String) : TokenParser String := keyword F expected

def expectKeyword (kw : String) : TokenParser Unit := do
  let found ← keyword F ("keyword " ++ kw.toUpper)
  if found = kw then pure ()
  else fail ("expected keyword " ++ kw.toUpper ++ ", found " ++ F.debugStr found)

def eatKeyword (kw : String) : TokenParser Bool := eat (.ident kw)

def commaSeparated (item : TokenParser α) : TokenParser (List α) := sepBy .depth (eat .comma) item

/-! ## Literals -/

/-- A non-negative integer. -/
def unsigned (expected : String) : TokenParser UInt64 := do
  match ← next expected with
  | .int n =>
    if 0 ≤ n.toInt then pure n.toUInt64
    else fail ("expected a non-negative integer (" ++ expected ++ "), found " ++
      (Token.int n).display F)
  | other =>
    fail ("expected a non-negative integer (" ++ expected ++ "), found " ++ other.display F)

/-- One number inside a vector literal. -/
def vectorComponent : TokenParser F32 := do
  let negative ← eat .minus
  match ← next "a number" with
  | .int n => pure (if negative then (F.f32OfInt n).neg else F.f32OfInt n)
  | .float x => pure (if negative then (F.f32OfF64 x).neg else F.f32OfF64 x)
  | other => fail ("expected a number in a vector literal, found " ++ other.display F)

def literal : TokenParser Literal := do
  match ← next "a literal" with
  | .int n => pure (.int n)
  | .str s => pure (.text s)
  | .lbracket =>
    let components ← commaSeparated (vectorComponent F)
    expect F .rbracket
    pure (.vector components)
  | .float x => pure (.real x)
  | .minus =>
    match ← next "a number" with
    | .int n => pure (.int (-n))
    | .float x => pure (.real x.neg)
    | other => fail ("expected a number after '-', found " ++ other.display F)
  | .ident kw =>
    if kw = "null" then pure .null else fail ("expected a literal, found " ++ kw)
  | other => fail ("expected a literal, found " ++ other.display F)

/-- A comparison operator. `place` ends the message. -/
def comparison (place : String) : TokenParser CmpOp := do
  match ← next "a comparison operator" with
  | .eq => pure .eq
  | .ne => pure .ne
  | .lt => pure .lt
  | .gt => pure .gt
  | .le => pure .le
  | .ge => pure .ge
  | other => fail ("expected a comparison operator" ++ place ++ ", found " ++ other.display F)

/-! ## Expressions -/

/-- What the two kinds of expressions differ in. -/
structure Grammar (α : Type) where
  or : α → α → α
  and : α → α → α
  not : α → α
  /-- An expression that starts with neither a parenthesis nor `NOT`. -/
  leaf : TokenParser α

variable (G : Grammar α)

def notExpr (primary : TokenParser α) : ℕ → TokenParser α
  | 0 => throw .depth
  | n + 1 => do
    if ← eatKeyword "not" then
      let inner ← notExpr primary n
      pure (G.not inner)
    else primary

/-- `operand (kw operand)*`, joined from the left. -/
def operators (kw : String) (join : α → α → α) (operand : TokenParser α) : TokenParser α := do
  let left ← operand
  loop .depth (eatKeyword kw) (fun left => do
    let right ← operand
    pure (join left right)) left

def andExpr (primary : TokenParser α) (n : ℕ) : TokenParser α :=
  operators "and" G.and (notExpr G primary n)

def orExpr (primary : TokenParser α) (n : ℕ) : TokenParser α :=
  operators "or" G.or (andExpr G primary n)

def primaryExpr : ℕ → TokenParser α
  | 0 => throw .depth
  | n + 1 => do
    if ← eat .lparen then
      let inner ← orExpr G (primaryExpr n) n
      expect F .rparen
      pure inner
    else G.leaf

def exprOf : TokenParser α := do
  let ts ← get
  orExpr G (primaryExpr F G (ts.length + 1)) (ts.length + 1)

/-- A comparison or a test for `NULL`. -/
def whereLeaf : TokenParser Expr := do
  let column ← identifier F "a column name"
  if ← eatKeyword "is" then
    let negated ← eatKeyword "not"
    expectKeyword F "null"
    pure (.isNull column negated)
  else
    let op ← comparison F ""
    let value ← literal F
    pure (.compare column op value)

def whereGrammar : Grammar Expr where
  or := .or
  and := .and
  not := .not
  leaf := whereLeaf F

def expr : TokenParser Expr := exprOf F (whereGrammar F)

def optionalWhere : TokenParser (Option Expr) := do
  if ← eatKeyword "where" then
    let e ← expr F
    pure (some e)
  else pure none

/-! ## Aggregates -/

/-- If the next tokens are `agg (`, the aggregate function. -/
def peekAggregate : List Token → Option AggFunc
  | .ident name :: .lparen :: _ =>
    if name = "count" then some .count
    else if name = "sum" then some .sum
    else if name = "avg" then some .avg
    else if name = "min" then some .min
    else if name = "max" then some .max
    else none
  | _ => none

/-- The argument of an aggregate, with its parentheses. -/
def aggregateArg (func : AggFunc) : TokenParser AggArg := do
  expect F .lparen
  let arg ← (do
    if ← eat .star then
      if func = .count then pure AggArg.star
      else fail (func.name ++ "(*) is not allowed; " ++ func.name ++
        " needs a column")
    else
      let column ← identifier F "a column inside the aggregate"
      pure (AggArg.column column))
  expect F .rparen
  pure arg

/-- An aggregate or a column. -/
def aggregateOr (mk : AggFunc → AggArg → α) (col : String → α) (expected : String) :
    TokenParser α := do
  let ts ← get
  match peekAggregate ts with
  | some func =>
    set ts.tail
    let arg ← aggregateArg F func
    pure (mk func arg)
  | none =>
    let column ← identifier F expected
    pure (col column)

def havingLeaf : TokenParser HavingExpr := do
  let term ← aggregateOr F .aggregate HavingTerm.column "a column or aggregate in HAVING"
  let op ← comparison F " in HAVING"
  let value ← literal F
  pure (.compare term op value)

def havingGrammar : Grammar HavingExpr where
  or := .or
  and := .and
  not := .not
  leaf := havingLeaf F

def havingExpr : TokenParser HavingExpr := exprOf F (havingGrammar F)

def selectItem : TokenParser SelectItem :=
  aggregateOr F .aggregate SelectItem.column "column name"

/-! ## Statements -/

/-- `… INDEX ON table (column)`. -/
def indexTarget (create range : Bool) : TokenParser Statement := do
  expectKeyword F "on"
  let table ← identifier F "table name"
  expect F .lparen
  let column ← identifier F "column name"
  expect F .rparen
  pure (if create then .createIndex table column range else .dropIndex table column range)

def columnType : TokenParser DataType := do
  let kw ← keyword F "a column type (INT, TEXT or VECTOR)"
  if kw = "int" ∨ kw = "integer" then pure .int
  else if kw = "real" ∨ kw = "float" ∨ kw = "double" then pure .real
  else if kw = "text" ∨ kw = "varchar" then pure .text
  else if kw = "vector" then
    expect F .lparen
    let dim ← unsigned F "a vector dimension"
    expect F .rparen
    if dim = 0 ∨ 4096 < dim then
      fail ("vector dimension must be 1..=4096, got " ++ toString dim.toNat)
    else pure (.vector dim.toUInt16)
  else fail ("unknown column type: " ++ F.debugStr kw)

/-- `ENCRYPTED` and `PRIMARY KEY`, in any order. -/
def columnMarkers : ℕ → Bool → Bool → TokenParser (Bool × Bool)
  | 0, _, _ => throw .depth
  | n + 1, encrypted, primaryKey => do
    if ← eatKeyword "encrypted" then columnMarkers n true primaryKey
    else if ← eatKeyword "primary" then
      expectKeyword F "key"
      columnMarkers n encrypted true
    else pure (encrypted, primaryKey)

def columnDef : TokenParser ColumnDef := do
  let name ← identifier F "column name"
  let ty ← columnType F
  let ts ← get
  let markers ← columnMarkers F (ts.length + 1) false false
  pure ⟨name, ty, markers.1, markers.2, false, false⟩

def createTable : TokenParser Statement := do
  expectKeyword F "table"
  let name ← identifier F "table name"
  expect F .lparen
  let columns ← commaSeparated (columnDef F)
  expect F .rparen
  pure (.createTable name columns)

def dropTable : TokenParser Statement := do
  expectKeyword F "table"
  let name ← identifier F "table name"
  pure (.dropTable name)

def valueTuple : TokenParser (List Literal) := do
  expect F .lparen
  let values ← commaSeparated (literal F)
  expect F .rparen
  pure values

/-- The column list of an `INSERT`, if there is one. -/
def insertColumns : TokenParser (Option (List String)) := do
  if ← eat .lparen then
    let columns ← commaSeparated (identifier F "column name")
    expect F .rparen
    pure (some columns)
  else pure none

def insert : TokenParser Statement := do
  expectKeyword F "into"
  let table ← identifier F "table name"
  let columns ← insertColumns F
  expectKeyword F "values"
  let rows ← commaSeparated (valueTuple F)
  pure (.insert table columns rows)

def SelectItem.isAggregate : SelectItem → Bool
  | .aggregate _ _ => true
  | .column _ => false

def SelectItem.name? : SelectItem → Option String
  | .column name => some name
  | .aggregate _ _ => none

/-- The projection as it is written: `*` or items. -/
def projection : TokenParser Projection := do
  if ← eat .star then pure .all
  else
    let items ← commaSeparated (selectItem F)
    pure (.items items)

def groupBy : TokenParser (List String) := do
  if ← eatKeyword "group" then
    expectKeyword F "by"
    commaSeparated (identifier F "column name")
  else pure []

def having : TokenParser (Option HavingExpr) := do
  if ← eatKeyword "having" then
    let h ← havingExpr F
    pure (some h)
  else pure none

/-- A plain list of columns without grouping goes back to the form the executor's plain path
expects. -/
def collapse (columns : Projection) (groupBy : List String) (having : Option HavingExpr) :
    Projection :=
  match columns with
  | .items items =>
    if !items.any SelectItem.isAggregate && groupBy.isEmpty && having.isNone then
      .columns (items.filterMap SelectItem.name?)
    else .items items
  | other => other

def orderBy : TokenParser (Option OrderBy) := do
  if ← eatKeyword "order" then
    expectKeyword F "by"
    let column ← identifier F "column name"
    if ← eatKeyword "nearest" then
      expectKeyword F "to"
      match ← literal F with
      | .vector v => pure (some ⟨column, false, some v⟩)
      | other => fail ("NEAREST TO takes a vector literal, found " ++ displayLiteral F other)
    else if ← eatKeyword "desc" then pure (some ⟨column, true, none⟩)
    else
      let _ ← eatKeyword "asc"
      pure (some ⟨column, false, none⟩)
  else pure none

def limit : TokenParser (Option Limit) := do
  if ← eatKeyword "limit" then
    let count ← unsigned F "a row count after LIMIT"
    if ← eatKeyword "offset" then
      let offset ← unsigned F "a row count after OFFSET"
      pure (some ⟨count, offset⟩)
    else pure (some ⟨count, 0⟩)
  else pure none

def select : TokenParser Statement := do
  let written ← projection F
  expectKeyword F "from"
  let table ← identifier F "table name"
  let predicate ← optionalWhere F
  let groupBy ← groupBy F
  let having ← having F
  let columns := collapse written groupBy having
  if columns = .all ∧ groupBy ≠ [] then
    fail "SELECT * cannot be combined with GROUP BY; list the grouping columns"
  else
    let orderBy ← orderBy F
    let limit ← limit F
    pure (.select columns table predicate groupBy having orderBy limit)

def assignment : TokenParser Assignment := do
  let column ← identifier F "column name"
  expect F .eq
  let value ← literal F
  pure ⟨column, value⟩

def update : TokenParser Statement := do
  let table ← identifier F "table name"
  expectKeyword F "set"
  let assignments ← commaSeparated (assignment F)
  let predicate ← optionalWhere F
  pure (.update table assignments predicate)

def delete : TokenParser Statement := do
  expectKeyword F "from"
  let table ← identifier F "table name"
  let predicate ← optionalWhere F
  pure (.delete table predicate)

/-- `EXPLAIN` takes a `SELECT`, an `UPDATE` or a `DELETE`. -/
def explainable : Statement → Bool
  | .select .. => true
  | .update .. => true
  | .delete .. => true
  | _ => false

/-- The optional noise word of `BEGIN`, `COMMIT` and `ROLLBACK`. -/
def noiseWord : TokenParser Unit := do
  if ← eatKeyword "transaction" then pure ()
  else
    let _ ← eatKeyword "work"
    pure ()

/-- `CREATE …` and `DROP …`. -/
def definition (create : Bool) (table : TokenParser Statement) : TokenParser Statement := do
  if ← eatKeyword "index" then indexTarget F create false
  else if ← eatKeyword "range" then
    expectKeyword F "index"
    indexTarget F create true
  else table

def statement : ℕ → TokenParser Statement
  | 0 => throw .depth
  | n + 1 => do
    let kw ← keyword F "a statement keyword"
    if kw = "create" then definition F true (createTable F)
    else if kw = "drop" then definition F false (dropTable F)
    else if kw = "insert" then insert F
    else if kw = "select" then select F
    else if kw = "update" then update F
    else if kw = "delete" then delete F
    else if kw = "explain" then
      let inner ← statement n
      if explainable inner then pure (.explain inner)
      else fail "EXPLAIN supports SELECT, UPDATE and DELETE"
    else if kw = "begin" then
      noiseWord
      pure .begin
    else if kw = "start" then
      expectKeyword F "transaction"
      pure .begin
    else if kw = "commit" then
      noiseWord
      pure .commit
    else if kw = "rollback" then
      noiseWord
      pure .rollback
    else fail ("unknown statement: " ++ F.debugStr kw)

/-- `while parser.eat(&Token::Semi) {}`. -/
def skipSemis : TokenParser Unit := loop .depth (eat .semi) (fun _ => pure ()) ()

/-- The loop of `parseStatements`. -/
def statementsLoop : ℕ → List Statement → TokenParser (List Statement)
  | 0, _ => throw .depth
  | n + 1, statements => do
    skipSemis
    let ts ← get
    if ts = [] then pure statements
    else
      let s ← statement F (ts.length + 1)
      let rest ← get
      if rest ≠ [] ∧ rest.head? ≠ some .semi then unexpected F "';' or end of input"
      else statementsLoop n (statements ++ [s])

/-- Zero or more `;`-separated statements. -/
def parseStatements (input : String) : Except ParseError (List Statement) := do
  let tokens ← tokenize F input.toList
  let r ← (statementsLoop F (tokens.length + 1) []).run tokens
  pure r.1

end Ciphra.Sql
