import Ciphra.Sql.CheckedLexer
import Ciphra.Sql.Parsed

/-!
# The parser with its panics

The parser can panic in two places: where it negates an integer literal, which overflows on the
smallest integer, and in the arm of the plain column list that an aggregate must not reach. Here are
the functions that reach these places, with the panics in them: a panic is the failure that stands
for the bound on the recursion, so that failure says that the program returns nothing. The tokens of
a text never lead there, and the parser returns what the parser without panics returns
(`Checked.never_panics`).
-/

namespace Ciphra.Sql

open Parsing

namespace Checked

variable (F : Formats) {α : Type}

/-- The program stops. -/
def stop : TokenParser α := throw .depth

/-- `-n`, which overflows on the smallest integer. -/
def negated (n : Int64) : TokenParser Int64 := if n.toInt = -2 ^ 63 then stop else pure (-n)

def literal : TokenParser Literal := do
  match ← next "a literal" with
  | .int n => pure (.int n)
  | .str s => pure (.text s)
  | .lbracket =>
    let components ← commaSeparated (vectorComponent F)
    expect F .rbracket
    pure (.vector components)
  | .float x => pure (.real x)
  | .minus =>
    match ← next "a number" with
    | .int n =>
      let m ← negated n
      pure (.int m)
    | .float x => pure (.real x.neg)
    | other => fail ("expected a number after '-', found " ++ other.display F)
  | .ident kw =>
    if kw = "null" then pure .null else fail ("expected a literal, found " ++ kw)
  | other => fail ("expected a literal, found " ++ other.display F)

def whereLeaf : TokenParser Expr := do
  let column ← identifier F "a column name"
  if ← eatKeyword "is" then
    let negated ← eatKeyword "not"
    expectKeyword F "null"
    pure (.isNull column negated)
  else
    let op ← comparison F ""
    let value ← literal F
    pure (.compare column op value)

def expr : TokenParser Expr := exprOf F { whereGrammar F with leaf := whereLeaf F }

def optionalWhere : TokenParser (Option Expr) := do
  if ← eatKeyword "where" then
    let e ← expr F
    pure (some e)
  else pure none

def havingLeaf : TokenParser HavingExpr := do
  let term ← aggregateOr F .aggregate HavingTerm.column "a column or aggregate in HAVING"
  let op ← comparison F " in HAVING"
  let value ← literal F
  pure (.compare term op value)

def having : TokenParser (Option HavingExpr) := do
  if ← eatKeyword "having" then
    let h ← exprOf F { havingGrammar F with leaf := havingLeaf F }
    pure (some h)
  else pure none

def valueTuple : TokenParser (List Literal) := do
  expect F .lparen
  let values ← commaSeparated (literal F)
  expect F .rparen
  pure values

def insert : TokenParser Statement := do
  expectKeyword F "into"
  let table ← identifier F "table name"
  let columns ← insertColumns F
  expectKeyword F "values"
  let rows ← commaSeparated (valueTuple F)
  pure (.insert table columns rows)

/-- The name of a plain column; `unreachable!()` on an aggregate. -/
def plainColumn : SelectItem → TokenParser String
  | .column name => pure name
  | .aggregate _ _ => stop

def collapse (columns : Projection) (groupBy : List String) (having : Option HavingExpr) :
    TokenParser Projection :=
  match columns with
  | .items items =>
    if !items.any SelectItem.isAggregate && groupBy.isEmpty && having.isNone then do
      let plain ← items.mapM plainColumn
      pure (.columns plain)
    else pure (.items items)
  | other => pure other

def orderBy : TokenParser (Option OrderBy) := do
  if ← eatKeyword "order" then
    expectKeyword F "by"
    let column ← identifier F "column name"
    if ← eatKeyword "nearest" then
      expectKeyword F "to"
      match ← literal F with
      | .vector v => pure (some ⟨column, false, some v⟩)
      | other => fail ("NEAREST TO takes a vector literal, found " ++ displayLiteral F other)
    else if ← eatKeyword "desc" then pure (some ⟨column, true, none⟩)
    else
      let _ ← eatKeyword "asc"
      pure (some ⟨column, false, none⟩)
  else pure none

def select : TokenParser Statement := do
  let written ← projection F
  expectKeyword F "from"
  let table ← identifier F "table name"
  let predicate ← optionalWhere F
  let groupBy ← groupBy F
  let having ← having F
  let columns ← collapse written groupBy having
  if columns = .all ∧ groupBy ≠ [] then
    fail "SELECT * cannot be combined with GROUP BY; list the grouping columns"
  else
    let orderBy ← orderBy F
    let limit ← limit F
    pure (.select columns table predicate groupBy having orderBy limit)

def assignment : TokenParser Assignment := do
  let column ← identifier F "column name"
  expect F .eq
  let value ← literal F
  pure ⟨column, value⟩

def update : TokenParser Statement := do
  let table ← identifier F "table name"
  expectKeyword F "set"
  let assignments ← commaSeparated (assignment F)
  let predicate ← optionalWhere F
  pure (.update table assignments predicate)

def delete : TokenParser Statement := do
  expectKeyword F "from"
  let table ← identifier F "table name"
  let predicate ← optionalWhere F
  pure (.delete table predicate)

def statement : ℕ → TokenParser Statement
  | 0 => throw .depth
  | n + 1 => do
    let kw ← keyword F "a statement keyword"
    if kw = "create" then definition F true (createTable F)
    else if kw = "drop" then definition F false (dropTable F)
    else if kw = "insert" then insert F
    else if kw = "select" then select F
    else if kw = "update" then update F
    else if kw = "delete" then delete F
    else if kw = "explain" then
      let inner ← statement n
      if explainable inner then pure (.explain inner)
      else fail "EXPLAIN supports SELECT, UPDATE and DELETE"
    else if kw = "begin" then
      noiseWord
      pure .begin
    else if kw = "start" then
      expectKeyword F "transaction"
      pure .begin
    else if kw = "commit" then
      noiseWord
      pure .commit
    else if kw = "rollback" then
      noiseWord
      pure .rollback
    else fail ("unknown statement: " ++ F.debugStr kw)

def statementsLoop : ℕ → List Statement → TokenParser (List Statement)
  | 0, _ => throw .depth
  | n + 1, statements => do
    skipSemis
    let ts ← get
    if ts = [] then pure statements
    else
      let s ← statement F (ts.length + 1)
      let rest ← get
      if rest ≠ [] ∧ rest.head? ≠ some .semi then unexpected F "';' or end of input"
      else statementsLoop n (statements ++ [s])

/-- `parse_statements`: nothing when the program panics or does not end. -/
def parseStatements (input : String) : Option (Except ParseError (List Statement)) := do
  match ← tokenize F input with
  | .error e => return .error e
  | .ok tokens =>
    match (statementsLoop F (tokens.length + 1) []).run tokens with
    | .error .depth => none
    | .error e => return .error e
    | .ok r => return .ok r.1

/-! ## No panic -/

section Same

variable {F}

/-- The same on lexed tokens. -/
abbrev Same (p p' : TokenParser α) : Prop := SameOn (Token.Lexed F) (fun _ => True) p p'

theorem same_of_yields {Q : α → Prop} {k : ℕ} {p : TokenParser α} (h : ∀ n, Yields F n k Q p) :
    Same (F := F) p p :=
  (Reads.sameOn h).mono fun _ _ => trivial

theorem same_eat (t : Token) : Same (F := F) (eat t) (eat t) := (guards_eat t).sameOn

theorem same_eatKeyword (kw : String) : Same (F := F) (eatKeyword kw) (eatKeyword kw) :=
  same_eat _

theorem same_next (expected : String) :
    SameOn (Token.Lexed F) (Token.Lexed F) (next expected) (next expected) :=
  Reads.sameOn fun _ => yields_next expected

theorem same_expect (t : Token) : Same (F := F) (expect F t) (expect F t) :=
  same_of_yields fun _ => yields_expect t

theorem same_expectKeyword (kw : String) : Same (F := F) (expectKeyword F kw) (expectKeyword F kw) :=
  same_of_yields fun _ => yields_expectKeyword kw

theorem same_identifier (expected : String) :
    Same (F := F) (identifier F expected) (identifier F expected) :=
  same_of_yields fun _ => yields_identifier expected

theorem same_commaSeparated {item item' : TokenParser α} (h : Same (F := F) item item') :
    Same (F := F) (commaSeparated item) (commaSeparated item') :=
  SameOn.sepBy (same_eat .comma) h

theorem same_fail (text : String) : Same (F := F) (fail text : TokenParser α) (fail text) :=
  sameOn_throw _

theorem same_pure (a : α) : Same (F := F) (pure a) (pure a) := sameOn_pure trivial

/-- The literals of the lexer are not negative, so negating one does not overflow. -/
theorem negated_of_lexed {n : Int64} (h : (Token.int n).Lexed F) : negated n = pure (-n) := by
  have hn : 0 ≤ n.toInt := h
  exact if_neg (by omega)

theorem same_literal : Same (F := F) (Sql.literal F) (literal F) := by
  refine (same_next _).bind fun t ht => ?_
  cases t with
  | int m => exact same_pure _
  | str s => exact same_pure _
  | lbracket =>
    refine (same_commaSeparated (same_of_yields fun _ => yields_vectorComponent)).bind fun v _ => ?_
    exact (same_expect _).bind fun _ _ => same_pure _
  | float x => exact same_pure _
  | minus =>
    refine (same_next _).bind fun u hu => ?_
    cases u with
    | int m =>
      simp only [negated_of_lexed hu, pure_bind]
      exact same_pure _
    | float x => exact same_pure _
    | _ => exact same_fail _
  | ident kw => exact SameOn.ite (fun _ => same_pure _) fun _ => same_fail _
  | _ => exact same_fail _

/-! ### Expressions -/

variable {G G' : Grammar α}

/-- Expressions are read alike when their leaves are. -/
theorem same_exprOf (hor : G'.or = G.or) (hand : G'.and = G.and) (hnot : G'.not = G.not)
    (hleaf : Same (F := F) G.leaf G'.leaf) : Same (F := F) (exprOf F G) (exprOf F G') := by
  have hnots : ∀ {p p' : TokenParser α}, Same (F := F) p p' → ∀ n,
      Same (F := F) (notExpr G p n) (notExpr G' p' n) := by
    intro p p' hp n
    induction n with
    | zero => exact sameOn_throw _
    | succ n ih =>
      refine (same_eatKeyword "not").bind fun b _ => SameOn.ite (fun _ => ?_) fun _ => hp
      rw [hnot]
      exact ih.bind fun _ _ => same_pure _
  have hops : ∀ {p p' : TokenParser α} (kw : String) (join : α → α → α), Same (F := F) p p' →
      Same (F := F) (operators kw join p) (operators kw join p') := by
    intro p p' kw join hp
    refine hp.bind fun left _ => SameOn.loop (same_eatKeyword kw) (fun a _ => ?_) trivial
    exact hp.bind fun _ _ => same_pure _
  have hexpr : ∀ {p p' : TokenParser α}, Same (F := F) p p' → ∀ n,
      Same (F := F) (orExpr G p n) (orExpr G' p' n) := by
    intro p p' hp n
    rw [orExpr, orExpr, andExpr, andExpr, hor, hand]
    exact hops _ _ (hops _ _ (hnots hp n))
  have hprimary : ∀ n, Same (F := F) (primaryExpr F G n) (primaryExpr F G' n) := by
    intro n
    induction n with
    | zero => exact sameOn_throw _
    | succ n ih =>
      refine (same_eat .lparen).bind fun b _ => SameOn.ite (fun _ => ?_) fun _ => hleaf
      exact (hexpr ih n).bind fun _ _ => (same_expect _).bind fun _ _ => same_pure _
  exact sameOn_get fun ts => hexpr (hprimary _) _

theorem same_comparison (place : String) :
    Same (F := F) (comparison F place) (comparison F place) :=
  same_of_yields fun _ => yields_comparison place

theorem same_expr : Same (F := F) (Sql.expr F) (expr F) := by
  refine same_exprOf rfl rfl rfl ((same_identifier _).bind fun column _ => ?_)
  refine (same_eatKeyword "is").bind fun b _ => SameOn.ite (fun _ => ?_) fun _ => ?_
  · refine (same_eatKeyword "not").bind fun negated _ => ?_
    exact (same_expectKeyword "null").bind fun _ _ => same_pure _
  · refine (same_comparison "").bind fun op _ => ?_
    exact same_literal.bind fun _ _ => same_pure _

theorem same_optionalWhere : Same (F := F) (Sql.optionalWhere F) (optionalWhere F) := by
  refine (same_eatKeyword "where").bind fun b _ => SameOn.ite (fun _ => ?_) fun _ => same_pure _
  exact same_expr.bind fun _ _ => same_pure _

theorem same_having : Same (F := F) (Sql.having F) (having F) := by
  refine (same_eatKeyword "having").bind fun b _ => SameOn.ite (fun _ => ?_) fun _ => same_pure _
  refine SameOn.bind (same_exprOf rfl rfl rfl ?_) fun _ _ => same_pure _
  refine SameOn.bind (same_of_yields fun _ => yields_aggregateOr _ _ _) fun term _ => ?_
  refine (same_comparison _).bind fun op _ => ?_
  exact same_literal.bind fun _ _ => same_pure _

/-! ### Statements -/

/-- No aggregate reaches the arm of the plain columns. -/
theorem collapse_eq (columns : Projection) (groupBy : List String) (having : Option HavingExpr) :
    collapse columns groupBy having = pure (Sql.collapse columns groupBy having) := by
  have hplain : ∀ items : List SelectItem, items.any SelectItem.isAggregate = false →
      items.mapM plainColumn = pure (items.filterMap SelectItem.name?) := by
    intro items
    induction items with
    | nil => exact fun _ => rfl
    | cons item items ih =>
      intro hany
      rw [List.any_cons, Bool.or_eq_false_iff] at hany
      cases item with
      | column name =>
        rw [List.mapM_cons, ih hany.2, plainColumn, pure_bind, pure_bind]
        rfl
      | aggregate func arg => cases hany.1
  cases columns with
  | items items =>
    rw [collapse, Sql.collapse]
    by_cases h : (!items.any SelectItem.isAggregate && groupBy.isEmpty && having.isNone) = true
    · have hany : items.any SelectItem.isAggregate = false := by
        simp only [Bool.and_eq_true, Bool.not_eq_true'] at h
        exact h.1.1
      rw [if_pos h, if_pos h, hplain items hany, pure_bind]
    · rw [if_neg h, if_neg h]
  | all => rfl
  | columns names => rfl

theorem same_orderBy : Same (F := F) (Sql.orderBy F) (orderBy F) := by
  refine (same_eatKeyword "order").bind fun b _ => SameOn.ite (fun _ => ?_) fun _ => same_pure _
  refine (same_expectKeyword _).bind fun _ _ => (same_identifier _).bind fun column _ => ?_
  refine (same_eatKeyword "nearest").bind fun b _ => SameOn.ite (fun _ => ?_) fun _ => ?_
  · refine (same_expectKeyword _).bind fun _ _ => same_literal.bind fun value _ => ?_
    cases value with
    | vector v => exact same_pure _
    | _ => exact same_fail _
  · refine (same_eatKeyword "desc").bind fun b _ => SameOn.ite (fun _ => same_pure _) fun _ => ?_
    exact (same_eatKeyword "asc").bind fun _ _ => same_pure _

theorem same_select : Same (F := F) (Sql.select F) (select F) := by
  refine SameOn.bind (same_of_yields fun _ => yields_projection) fun written _ => ?_
  refine (same_expectKeyword _).bind fun _ _ => (same_identifier _).bind fun table _ => ?_
  refine same_optionalWhere.bind fun predicate _ => ?_
  refine SameOn.bind (same_of_yields fun _ => yields_groupBy) fun groupBy _ => ?_
  refine same_having.bind fun having _ => ?_
  simp only [collapse_eq, pure_bind]
  refine SameOn.ite (fun _ => same_fail _) fun _ => ?_
  refine same_orderBy.bind fun orderBy _ => ?_
  exact SameOn.bind (same_of_yields fun _ => yields_limit) fun _ _ => same_pure _

theorem same_valueTuple : Same (F := F) (Sql.valueTuple F) (valueTuple F) := by
  refine (same_expect _).bind fun _ _ => (same_commaSeparated same_literal).bind fun values _ => ?_
  exact (same_expect _).bind fun _ _ => same_pure _

theorem same_insert : Same (F := F) (Sql.insert F) (insert F) := by
  refine (same_expectKeyword _).bind fun _ _ => (same_identifier _).bind fun table _ => ?_
  refine SameOn.bind (same_of_yields fun _ => yields_insertColumns) fun columns _ => ?_
  refine (same_expectKeyword _).bind fun _ _ => ?_
  exact (same_commaSeparated same_valueTuple).bind fun _ _ => same_pure _

theorem same_update : Same (F := F) (Sql.update F) (update F) := by
  have hassignment : Same (F := F) (Sql.assignment F) (assignment F) := by
    refine (same_identifier _).bind fun column _ => (same_expect _).bind fun _ _ => ?_
    exact same_literal.bind fun _ _ => same_pure _
  refine (same_identifier _).bind fun table _ => (same_expectKeyword _).bind fun _ _ => ?_
  refine (same_commaSeparated hassignment).bind fun assignments _ => ?_
  exact same_optionalWhere.bind fun _ _ => same_pure _

theorem same_delete : Same (F := F) (Sql.delete F) (delete F) := by
  refine (same_expectKeyword _).bind fun _ _ => (same_identifier _).bind fun table _ => ?_
  exact same_optionalWhere.bind fun _ _ => same_pure _

theorem same_statement (n : ℕ) : Same (F := F) (Sql.statement F n) (statement F n) := by
  induction n with
  | zero => exact sameOn_throw _
  | succ n ih =>
    have hnoise : ∀ s : Statement, Same (F := F) (do noiseWord; pure s) (do noiseWord; pure s) :=
      fun s => SameOn.bind (same_of_yields fun _ => yields_noiseWord) fun _ _ => same_pure _
    refine SameOn.bind (same_of_yields fun _ => yields_keyword _) fun kw _ => ?_
    refine SameOn.ite (fun _ => same_of_yields fun _ =>
      yields_definition true fun m => yields_createTable) fun _ => ?_
    refine SameOn.ite (fun _ => same_of_yields fun _ =>
      yields_definition false fun m => yields_dropTable) fun _ => ?_
    refine SameOn.ite (fun _ => same_insert) fun _ => ?_
    refine SameOn.ite (fun _ => same_select) fun _ => ?_
    refine SameOn.ite (fun _ => same_update) fun _ => ?_
    refine SameOn.ite (fun _ => same_delete) fun _ => ?_
    refine SameOn.ite (fun _ => ih.bind fun inner _ =>
      SameOn.ite (fun _ => same_pure _) fun _ => same_fail _) fun _ => ?_
    refine SameOn.ite (fun _ => hnoise _) fun _ => ?_
    refine SameOn.ite (fun _ => (same_expectKeyword _).bind fun _ _ => same_pure _) fun _ => ?_
    refine SameOn.ite (fun _ => hnoise _) fun _ => ?_
    exact SameOn.ite (fun _ => hnoise _) fun _ => same_fail _

theorem same_statementsLoop (n : ℕ) (statements : List Statement) :
    Same (F := F) (Sql.statementsLoop F n statements) (statementsLoop F n statements) := by
  induction n generalizing statements with
  | zero => exact sameOn_throw _
  | succ n ih =>
    refine SameOn.bind (same_of_yields fun _ => yields_skipSemis) fun _ _ => ?_
    refine sameOn_get fun ts => SameOn.ite (fun _ => same_pure _) fun _ => ?_
    refine (same_statement _).bind fun s _ => sameOn_get fun rest => ?_
    exact SameOn.ite (fun _ => same_of_yields (Q := fun _ => True) (k := 0) fun _ =>
      yields_unexpected _) fun _ => ih _

end Same

/-- Tokenizing and parsing return, without a panic, what the functions without panics return; the
bound on the recursion is never reached. -/
theorem never_panics (input : String) :
    (tokenize F input = some (Sql.tokenize F input.toList) ∧
        Sql.tokenize F input.toList ≠ .error .depth) ∧
      parseStatements F input = some (Sql.parseStatements F input) ∧
        Sql.parseStatements F input ≠ .error .depth := by
  obtain ⟨hne, hlexed⟩ := tokenize_spec F input.toList
  have hdepth := parseStatements_ne_depth F input
  refine ⟨⟨tokenize_eq F input, hne⟩, ?_, hdepth⟩
  rw [parseStatements, tokenize_eq]
  rw [Sql.parseStatements] at hdepth ⊢
  cases htokens : Sql.tokenize F input.toList with
  | error e => rfl
  | ok tokens =>
    rw [htokens] at hdepth
    obtain ⟨hrun, -⟩ := same_statementsLoop (F := F) (tokens.length + 1) [] tokens
      (hlexed tokens htokens)
    change ((Sql.statementsLoop F (tokens.length + 1) []).run tokens >>= fun r => pure r.1) ≠
      Except.error ParseError.depth at hdepth
    change _ = some ((Sql.statementsLoop F (tokens.length + 1) []).run tokens >>= fun r => pure r.1)
    simp only [Option.bind_eq_bind, Option.bind_some, hrun]
    cases hresult : (Sql.statementsLoop F (tokens.length + 1) []).run tokens with
    | error e =>
      cases e with
      | message text => rfl
      | depth =>
        rw [hresult] at hdepth
        exact absurd rfl hdepth
    | ok r => rfl

end Checked

end Ciphra.Sql
