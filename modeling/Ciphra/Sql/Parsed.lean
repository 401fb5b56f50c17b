import Ciphra.Sql.Parser

/-!
# What the parser returns

Each parsing function returns values built from lexed tokens (`Reads`). The results are that parsing
never runs into the bound on its recursion (`parseStatements_ne_depth`), and that every statement it
returns is as the engine expects and its predicate can be written down again
(`parseStatements_read`).
-/

namespace Ciphra.Sql

open Parsing

variable (F : Formats)

/-! ## The shape of the results -/

/-- A literal the parser returns. -/
def LiteralRead : Literal → Prop
  | .int n => -(2 ^ 63) < n.toInt
  | .real x => ∃ text, x = F.parseF64 text ∨ x = (F.parseF64 text).neg
  | _ => True

/-- A predicate the parser returns. `NOT` is an operator where an operand is expected, so it is never
the name of a column. -/
def ExprRead : Expr → Prop
  | .compare column _ value => (IsWord column ∧ column ≠ "not") ∧ LiteralRead F value
  | .isNull column _ => IsWord column ∧ column ≠ "not"
  | .not inner => ExprRead inner
  | .and a b => ExprRead a ∧ ExprRead b
  | .or a b => ExprRead a ∧ ExprRead b

/-- A statement the parser returns. -/
def StatementRead : Statement → Prop
  | .createTable name columns => IsWord name ∧ ∀ c ∈ columns, c.Parsed
  | .dropTable name => IsWord name
  | .createIndex table column _ => IsWord table ∧ IsWord column
  | .dropIndex table column _ => IsWord table ∧ IsWord column
  | .insert table _ rows => IsWord table ∧ ∀ row ∈ rows, ∀ l ∈ row, LiteralRead F l
  | .select columns table predicate groupBy having _ _ =>
    IsWord table ∧ (∀ e ∈ predicate, ExprRead F e) ∧ (columns = .all → groupBy = []) ∧
      (having.isSome → ∀ names, columns ≠ .columns names)
  | .update table assignments predicate =>
    IsWord table ∧ (∀ a ∈ assignments, LiteralRead F a.value) ∧ ∀ e ∈ predicate, ExprRead F e
  | .delete table predicate => IsWord table ∧ ∀ e ∈ predicate, ExprRead F e
  | .explain inner => StatementRead inner
  | .begin | .commit | .rollback => True

/-- What the parsing functions do with lexed tokens. -/
abbrev Yields {α : Type} (n k : ℕ) (Q : α → Prop) (p : TokenParser α) : Prop :=
  Reads (Token.Lexed F) ParseError.depth n k Q p

/-! ## Token helpers -/

section Helpers

variable {F} {α : Type} {n k : ℕ} {Q : α → Prop}

theorem yields_fail (text : String) : Yields F n k Q (fail text : TokenParser α) :=
  reads_throw fun h => by cases h

theorem yields_unexpected (expected : String) :
    Yields F n k Q (unexpected F expected : TokenParser α) := by
  intro ts _ _
  cases ts with
  | nil => exact readsAt_of_error rfl fun h => by cases h
  | cons t rest => exact readsAt_of_error rfl fun h => by cases h

theorem run_next_cons (expected : String) (t : Token) (ts : List Token) :
    (next expected).run (t :: ts) = .ok (t, ts) := rfl

theorem yields_next (expected : String) : Yields F n 1 (Token.Lexed F) (next expected) := by
  intro ts _ hT
  cases ts with
  | nil => exact readsAt_of_error rfl fun h => by cases h
  | cons t rest =>
    exact readsAt_of_ok (run_next_cons expected t rest) (hT t List.mem_cons_self) le_rfl
      fun u hu => hT u (List.mem_cons_of_mem _ hu)

theorem guards_eatKeyword (kw : String) : Guards (Token.Lexed F) (eatKeyword kw) := guards_eat _

theorem yields_expect (t : Token) : Yields F n 0 (fun _ => True) (expect F t) :=
  (guards_eat t).ite (fun _ _ => reads_pure trivial) (yields_unexpected _)

theorem yields_keyword (expected : String) : Yields F n 1 IsWord (keyword F expected) := by
  refine (yields_next expected).seq fun t ht => ?_
  cases t with
  | ident s => exact reads_pure ht
  | _ => exact yields_fail _

theorem yields_identifier (expected : String) : Yields F n 1 IsWord (identifier F expected) :=
  yields_keyword expected

theorem yields_expectKeyword (kw : String) : Yields F n 0 (fun _ => True) (expectKeyword F kw) := by
  refine ((yields_keyword _).mono le_rfl (Nat.zero_le 1) fun _ h => h).seq fun found _ => ?_
  exact Reads.ite (fun _ => reads_pure trivial) fun _ => yields_fail _

theorem yields_commaSeparated {item : TokenParser α} (h : Yields F n k Q item) :
    Yields F n k (fun items => ∀ a ∈ items, Q a) (commaSeparated item) :=
  (guards_eat Token.comma).sepBy h

/-! ## Literals -/

theorem yields_unsigned (expected : String) :
    Yields F n 0 (fun _ => True) (unsigned F expected) := by
  refine ((yields_next expected).mono le_rfl (Nat.zero_le 1) fun _ h => h).seq fun t _ => ?_
  cases t with
  | int m => exact Reads.ite (fun _ => reads_pure trivial) fun _ => yields_fail _
  | _ => exact yields_fail _

theorem yields_vectorComponent : Yields F n 0 (fun _ => True) (vectorComponent F) := by
  refine (guards_eat Token.minus).reads.seq fun negative _ => ?_
  refine ((yields_next _).mono le_rfl (Nat.zero_le 1) fun _ h => h).seq fun t _ => ?_
  cases t with
  | int m => exact reads_pure trivial
  | float x => exact reads_pure trivial
  | _ => exact yields_fail _

/-- The magnitude of a negative integer literal is a literal too, so the smallest integer is not
written. -/
theorem literalRead_neg {m : Int64} (h : 0 ≤ m.toInt) : LiteralRead F (.int (-m)) := by
  have hlt := m.toInt_lt
  have hneg : (-m).toInt = -m.toInt := by
    rw [Int64.toInt_neg]
    exact Int.bmod_eq_of_le (by omega) (by omega)
  change -(2 ^ 63) < (-m).toInt
  omega

theorem yields_literal : Yields F n 0 (LiteralRead F) (literal F) := by
  refine ((yields_next _).mono le_rfl (Nat.zero_le 1) fun _ h => h).seq fun t ht => ?_
  cases t with
  | int m =>
    refine reads_pure ?_
    change -(2 ^ 63) < m.toInt
    have : 0 ≤ m.toInt := ht
    omega
  | str s => exact reads_pure trivial
  | lbracket =>
    refine (yields_commaSeparated yields_vectorComponent).seq fun components _ => ?_
    exact (yields_expect _).seq fun _ _ => reads_pure trivial
  | float x =>
    obtain ⟨text, rfl⟩ := ht
    exact reads_pure ⟨text, Or.inl rfl⟩
  | minus =>
    refine ((yields_next _).mono le_rfl (Nat.zero_le 1) fun _ h => h).seq fun u hu => ?_
    cases u with
    | int m => exact reads_pure (literalRead_neg hu)
    | float x =>
      obtain ⟨text, rfl⟩ := hu
      exact reads_pure ⟨text, Or.inr rfl⟩
    | _ => exact yields_fail _
  | ident kw => exact Reads.ite (fun _ => reads_pure trivial) fun _ => yields_fail _
  | _ => exact yields_fail _

theorem yields_comparison (place : String) :
    Yields F n 0 (fun _ => True) (comparison F place) := by
  refine ((yields_next _).mono le_rfl (Nat.zero_le 1) fun _ h => h).seq fun t _ => ?_
  cases t with
  | eq | ne | lt | gt | le | ge => exact reads_pure trivial
  | _ => exact yields_fail _

/-! ## Expressions -/

/-- The expressions of a grammar satisfy `Q`. A leaf is read only where the next token is not
`NOT`. -/
structure Grammar.Closed (F : Formats) (G : Grammar α) (Q : α → Prop) : Prop where
  or : ∀ a b, Q a → Q b → Q (G.or a b)
  and : ∀ a b, Q a → Q b → Q (G.and a b)
  not : ∀ a, Q a → Q (G.not a)
  leaf : ∀ ts : List Token, (∀ t ∈ ts, t.Lexed F) → ts.head? ≠ some (.ident "not") →
    ReadsAt (Token.Lexed F) .depth 0 Q G.leaf ts

variable {G : Grammar α}

theorem yields_notExpr (hG : G.Closed F Q) {primary : TokenParser α} (fuel : ℕ) (hfuel : n < fuel)
    (hp : ∀ ts : List Token, ts.length ≤ n → (∀ t ∈ ts, t.Lexed F) →
      ts.head? ≠ some (.ident "not") → ReadsAt (Token.Lexed F) .depth 0 Q primary ts) :
    Yields F n 0 Q (notExpr G primary fuel) := by
  induction fuel generalizing n with
  | zero => omega
  | succ fuel ih =>
    intro ts hts hT
    rcases run_eat (ε := ParseError) (Token.ident "not") ts with ⟨rest, rfl, hrun⟩ | ⟨hhead, hrun⟩
    · have hrest : rest.length < n := by
        rw [List.length_cons] at hts
        omega
      rw [ReadsAt, notExpr, eatKeyword, run_bind_ok hrun]
      have hinner := (ih (n := rest.length) (by omega) fun us hus =>
        hp us (by omega)) rest le_rfl fun t ht => hT t (List.mem_cons_of_mem _ ht)
      have hnot : ReadsAt (Token.Lexed F) .depth 0 Q (notExpr G primary fuel >>= fun inner =>
          pure (G.not inner)) rest :=
        hinner.bind (l := 0) fun a r ha _ hr =>
          readsAt_of_ok (run_pure _ _) (hG.not a ha) le_rfl hr
      refine ⟨hnot.1, fun a r har => ?_⟩
      obtain ⟨hQ, hlen, hr⟩ := hnot.2 a r har
      exact ⟨hQ, by rw [List.length_cons]; omega, hr⟩
    · rw [ReadsAt, notExpr, eatKeyword, run_bind_ok hrun]
      exact hp ts hts hT hhead

theorem yields_operators {kw : String} {join : α → α → α} {operand : TokenParser α}
    (h : Yields F n 0 Q operand) (hjoin : ∀ a b, Q a → Q b → Q (join a b)) :
    Yields F n 0 Q (operators kw join operand) := by
  refine h.seq fun left hleft => ?_
  refine (guards_eatKeyword kw).loop (fun m hm a ha => ?_) left hleft
  exact (h.mono hm.le le_rfl fun _ hb => hb).seq fun right hright =>
    reads_pure (hjoin a right ha hright)

theorem yields_orExpr (hG : G.Closed F Q) {primary : TokenParser α} (fuel : ℕ) (hfuel : n < fuel)
    (hp : ∀ ts : List Token, ts.length ≤ n → (∀ t ∈ ts, t.Lexed F) →
      ts.head? ≠ some (.ident "not") → ReadsAt (Token.Lexed F) .depth 0 Q primary ts) :
    Yields F n 0 Q (orExpr G primary fuel) :=
  yields_operators (yields_operators (yields_notExpr hG fuel hfuel hp) hG.and) hG.or

theorem readsAt_primaryExpr (hG : G.Closed F Q) (fuel : ℕ) (ts : List Token)
    (hfuel : ts.length < fuel) (hT : ∀ t ∈ ts, t.Lexed F)
    (hhead : ts.head? ≠ some (.ident "not")) :
    ReadsAt (Token.Lexed F) .depth 0 Q (primaryExpr F G fuel) ts := by
  induction fuel generalizing ts with
  | zero => omega
  | succ fuel ih =>
    rcases run_eat (ε := ParseError) Token.lparen ts with ⟨rest, rfl, hrun⟩ | ⟨-, hrun⟩
    · rw [List.length_cons] at hfuel
      have hrest : ∀ t ∈ rest, t.Lexed F := fun t ht => hT t (List.mem_cons_of_mem _ ht)
      have hor : Yields F rest.length 0 Q (orExpr G (primaryExpr F G fuel) fuel) :=
        yields_orExpr hG fuel (by omega) fun us hus => ih us (by omega)
      have hinner : Yields F rest.length 0 Q (do
          let inner ← orExpr G (primaryExpr F G fuel) fuel
          expect F .rparen
          pure inner) :=
        hor.seq fun a ha => (yields_expect _).seq fun _ _ => reads_pure ha
      obtain ⟨hne, hok⟩ := hinner rest le_rfl hrest
      rw [ReadsAt, primaryExpr, run_bind_ok hrun]
      refine ⟨hne, fun a r har => ?_⟩
      obtain ⟨hQ, hlen, hr⟩ := hok a r har
      exact ⟨hQ, by rw [List.length_cons]; omega, hr⟩
    · rw [ReadsAt, primaryExpr, run_bind_ok hrun]
      exact hG.leaf ts hT hhead

theorem yields_exprOf (hG : G.Closed F Q) : Yields F n 0 Q (exprOf F G) := by
  intro ts _ hT
  have hrun : (exprOf F G).run ts =
      (orExpr G (primaryExpr F G (ts.length + 1)) (ts.length + 1)).run ts := by
    rw [exprOf, run_get_bind]
  rw [ReadsAt, hrun]
  exact yields_orExpr hG (ts.length + 1) (Nat.lt_succ_self _)
    (fun us hus => readsAt_primaryExpr hG _ us (by omega)) ts le_rfl hT

theorem yields_whereLeaf (column : String) (hcolumn : IsWord column ∧ column ≠ "not") :
    Yields F n 0 (ExprRead F) (do
      if ← eatKeyword "is" then
        let negated ← eatKeyword "not"
        expectKeyword F "null"
        pure (.isNull column negated)
      else
        let op ← comparison F ""
        let value ← literal F
        pure (.compare column op value)) := by
  refine (guards_eatKeyword "is").ite (fun m _ => ?_) ?_
  · refine (guards_eatKeyword "not").reads.seq fun negated _ => ?_
    exact (yields_expectKeyword "null").seq fun _ _ => reads_pure hcolumn
  · refine (yields_comparison "").seq fun op _ => ?_
    exact yields_literal.seq fun value hvalue => reads_pure ⟨hcolumn, hvalue⟩

theorem closed_whereGrammar : (whereGrammar F).Closed F (ExprRead F) where
  or _ _ ha hb := ⟨ha, hb⟩
  and _ _ ha hb := ⟨ha, hb⟩
  not _ ha := ha
  leaf ts hT hhead := by
    have hcolumn : ReadsAt (Token.Lexed F) .depth 0 (fun c => IsWord c ∧ c ≠ "not")
        (identifier F "a column name") ts := by
      cases ts with
      | nil => exact readsAt_of_error rfl fun h => by cases h
      | cons t rest =>
        have hrest : ∀ u ∈ rest, u.Lexed F := fun u hu => hT u (List.mem_cons_of_mem _ hu)
        cases t with
        | ident s =>
          have hrun : (identifier F "a column name").run (.ident s :: rest) = .ok (s, rest) := rfl
          refine readsAt_of_ok hrun ⟨hT _ List.mem_cons_self, ?_⟩ (Nat.le_succ _) hrest
          rintro rfl
          exact hhead rfl
        | _ => exact readsAt_of_error rfl fun h => by cases h
    exact hcolumn.bind (l := 0) fun column rest hc _ hrest =>
      yields_whereLeaf column hc rest le_rfl hrest

theorem yields_optionalWhere :
    Yields F n 0 (fun p => ∀ e ∈ p, ExprRead F e) (optionalWhere F) := by
  refine (guards_eatKeyword "where").ite (fun m _ => ?_) (reads_pure fun e he => by cases he)
  refine (yields_exprOf closed_whereGrammar).seq fun e he => reads_pure ?_
  intro e' he'
  obtain rfl := Option.some.inj he'
  exact he

/-! ## Aggregates -/

theorem yields_aggregateArg (func : AggFunc) :
    Yields F n 0 (fun _ => True) (aggregateArg F func) := by
  refine (yields_expect _).seq fun _ _ => ?_
  refine Reads.seq (Q := fun _ => True) ((guards_eat Token.star).ite (fun m _ => ?_) ?_)
    fun arg _ => (yields_expect _).seq fun _ _ => reads_pure trivial
  · exact Reads.ite (fun _ => reads_pure trivial) fun _ => yields_fail _
  · exact ((yields_identifier _).mono le_rfl (Nat.zero_le 1) fun _ h => h).seq fun _ _ =>
      reads_pure trivial

theorem yields_aggregateOr (mk : AggFunc → AggArg → α) (col : String → α) (expected : String) :
    Yields F n 0 (fun _ => True) (aggregateOr F mk col expected) := by
  intro ts hts hT
  rw [ReadsAt, aggregateOr, run_get_bind]
  cases hpeek : peekAggregate ts with
  | none =>
    exact ((yields_identifier expected).mono le_rfl (Nat.zero_le 1) fun _ h => h).seq
      (fun column _ => reads_pure trivial) ts hts hT
  | some func =>
    have harg : Yields F n 0 (fun _ => True) (aggregateArg F func >>= fun arg =>
        pure (mk func arg) : TokenParser α) :=
      (yields_aggregateArg func).seq fun _ _ => reads_pure trivial
    have htail : ts.tail.length ≤ ts.length := by
      rw [List.length_tail]
      exact Nat.sub_le _ _
    obtain ⟨hne, hok⟩ := harg ts.tail (htail.trans hts) fun t ht => hT t (List.mem_of_mem_tail ht)
    refine ⟨hne, fun a rest hrun => ?_⟩
    obtain ⟨hQ, hlen, hrest⟩ := hok a rest hrun
    exact ⟨hQ, hlen.trans htail, hrest⟩

theorem closed_havingGrammar : (havingGrammar F).Closed F (fun _ => True) where
  or _ _ _ _ := trivial
  and _ _ _ _ := trivial
  not _ _ := trivial
  leaf ts hT _ := by
    have hleaf : Yields F ts.length 0 (fun _ => True) (havingLeaf F) := by
      refine (yields_aggregateOr _ _ _).seq fun term _ => ?_
      refine (yields_comparison _).seq fun op _ => ?_
      exact yields_literal.seq fun value _ => reads_pure trivial
    exact hleaf ts le_rfl hT

/-! ## Statements -/

theorem yields_indexTarget (create range : Bool) :
    Yields F n 0 (StatementRead F) (indexTarget F create range) := by
  refine (yields_expectKeyword _).seq fun _ _ => ?_
  refine ((yields_identifier _).mono le_rfl (Nat.zero_le 1) fun _ h => h).seq fun table htable => ?_
  refine (yields_expect _).seq fun _ _ => ?_
  refine ((yields_identifier _).mono le_rfl (Nat.zero_le 1) fun _ h => h).seq fun column hcol => ?_
  refine (yields_expect _).seq fun _ _ => reads_pure ?_
  cases create
  · exact ⟨htable, hcol⟩
  · exact ⟨htable, hcol⟩

theorem yields_columnType : Yields F n 0 (fun _ => True) (columnType F) := by
  refine ((yields_keyword _).mono le_rfl (Nat.zero_le 1) fun _ h => h).seq fun kw _ => ?_
  refine Reads.ite (fun _ => reads_pure trivial) fun _ => ?_
  refine Reads.ite (fun _ => reads_pure trivial) fun _ => ?_
  refine Reads.ite (fun _ => reads_pure trivial) fun _ => ?_
  refine Reads.ite (fun _ => ?_) fun _ => yields_fail _
  refine (yields_expect _).seq fun _ _ => ?_
  refine (yields_unsigned _).seq fun dim _ => ?_
  refine (yields_expect _).seq fun _ _ => ?_
  exact Reads.ite (fun _ => yields_fail _) fun _ => reads_pure trivial

theorem yields_columnMarkers (fuel : ℕ) (hfuel : n < fuel) (encrypted primaryKey : Bool) :
    Yields F n 0 (fun _ => True) (columnMarkers F fuel encrypted primaryKey) := by
  induction fuel generalizing n encrypted primaryKey with
  | zero => omega
  | succ fuel ih =>
    refine (guards_eatKeyword "encrypted").ite (fun m hm => ih (by omega) _ _) ?_
    refine (guards_eatKeyword "primary").ite (fun m hm => ?_) (reads_pure trivial)
    exact (yields_expectKeyword _).seq fun _ _ => ih (by omega) _ _

theorem yields_columnDef : Yields F n 0 ColumnDef.Parsed (columnDef F) := by
  refine ((yields_identifier _).mono le_rfl (Nat.zero_le 1) fun _ h => h).seq fun name hname => ?_
  refine yields_columnType.seq fun ty _ => ?_
  intro ts _ hT
  rw [ReadsAt, run_get_bind]
  exact ((yields_columnMarkers (ts.length + 1) (Nat.lt_succ_self _) false false).seq
    fun markers _ => reads_pure ⟨hname.1, rfl, rfl⟩) ts le_rfl hT

theorem yields_createTable : Yields F n 0 (StatementRead F) (createTable F) := by
  refine (yields_expectKeyword _).seq fun _ _ => ?_
  refine ((yields_identifier _).mono le_rfl (Nat.zero_le 1) fun _ h => h).seq fun name hname => ?_
  refine (yields_expect _).seq fun _ _ => ?_
  refine (yields_commaSeparated yields_columnDef).seq fun columns hcolumns => ?_
  exact (yields_expect _).seq fun _ _ => reads_pure ⟨hname, hcolumns⟩

theorem yields_dropTable : Yields F n 0 (StatementRead F) (dropTable F) := by
  refine (yields_expectKeyword _).seq fun _ _ => ?_
  exact ((yields_identifier _).mono le_rfl (Nat.zero_le 1) fun _ h => h).seq fun name hname =>
    reads_pure hname

theorem yields_valueTuple :
    Yields F n 0 (fun values => ∀ l ∈ values, LiteralRead F l) (valueTuple F) := by
  refine (yields_expect _).seq fun _ _ => ?_
  refine (yields_commaSeparated yields_literal).seq fun values hvalues => ?_
  exact (yields_expect _).seq fun _ _ => reads_pure hvalues

theorem yields_insertColumns : Yields F n 0 (fun _ => True) (insertColumns F) := by
  refine (guards_eat Token.lparen).ite (fun m _ => ?_) (reads_pure trivial)
  refine ((yields_commaSeparated (yields_identifier _)).mono le_rfl (Nat.zero_le 1)
    fun _ h => h).seq fun columns _ => ?_
  exact (yields_expect _).seq fun _ _ => reads_pure trivial

theorem yields_insert : Yields F n 0 (StatementRead F) (insert F) := by
  refine (yields_expectKeyword _).seq fun _ _ => ?_
  refine ((yields_identifier _).mono le_rfl (Nat.zero_le 1) fun _ h => h).seq fun table htable => ?_
  refine yields_insertColumns.seq fun columns _ => ?_
  refine (yields_expectKeyword _).seq fun _ _ => ?_
  exact (yields_commaSeparated yields_valueTuple).seq fun rows hrows => reads_pure ⟨htable, hrows⟩

theorem yields_projection :
    Yields F n 0 (fun p => ∀ names, p ≠ .columns names) (projection F) := by
  refine (guards_eat Token.star).ite (fun m _ => reads_pure fun _ h => by cases h) ?_
  exact (yields_commaSeparated (yields_aggregateOr _ _ _)).seq fun items _ =>
    reads_pure fun _ h => by cases h

theorem yields_groupBy : Yields F n 0 (fun _ => True) (groupBy F) := by
  refine (guards_eatKeyword "group").ite (fun m _ => ?_) (reads_pure trivial)
  refine (yields_expectKeyword _).seq fun _ _ => ?_
  exact (yields_commaSeparated (yields_identifier _)).mono le_rfl (Nat.zero_le 1) fun _ _ => trivial

theorem yields_having : Yields F n 0 (fun _ => True) (having F) := by
  refine (guards_eatKeyword "having").ite (fun m _ => ?_) (reads_pure trivial)
  exact (yields_exprOf closed_havingGrammar).seq fun h _ => reads_pure trivial

theorem yields_orderBy : Yields F n 0 (fun _ => True) (orderBy F) := by
  refine (guards_eatKeyword "order").ite (fun m _ => ?_) (reads_pure trivial)
  refine (yields_expectKeyword _).seq fun _ _ => ?_
  refine ((yields_identifier _).mono le_rfl (Nat.zero_le 1) fun _ h => h).seq fun column _ => ?_
  refine (guards_eatKeyword "nearest").ite (fun m _ => ?_) ?_
  · refine (yields_expectKeyword _).seq fun _ _ => ?_
    refine yields_literal.seq fun value _ => ?_
    cases value with
    | vector v => exact reads_pure trivial
    | _ => exact yields_fail _
  · refine (guards_eatKeyword "desc").ite (fun m _ => reads_pure trivial) ?_
    exact (guards_eatKeyword "asc").reads.seq fun _ _ => reads_pure trivial

theorem yields_limit : Yields F n 0 (fun _ => True) (limit F) := by
  refine (guards_eatKeyword "limit").ite (fun m _ => ?_) (reads_pure trivial)
  refine (yields_unsigned _).seq fun count _ => ?_
  refine (guards_eatKeyword "offset").ite (fun m _ => ?_) (reads_pure trivial)
  exact (yields_unsigned _).seq fun offset _ => reads_pure trivial

/-- A plain column list stays one only when there is no `HAVING`. -/
theorem collapse_ne_columns {written : Projection} (hwritten : ∀ names, written ≠ .columns names)
    (groupBy : List String) {having : Option HavingExpr} (hhaving : having.isSome = true)
    (names : List String) : collapse written groupBy having ≠ .columns names := by
  cases written with
  | all => exact hwritten names
  | columns l => exact absurd rfl (hwritten l)
  | items items =>
    cases having with
    | none => cases hhaving
    | some h =>
      rw [collapse, if_neg (by simp)]
      exact hwritten names

theorem yields_select : Yields F n 0 (StatementRead F) (select F) := by
  refine yields_projection.seq fun written hwritten => ?_
  refine (yields_expectKeyword _).seq fun _ _ => ?_
  refine ((yields_identifier _).mono le_rfl (Nat.zero_le 1) fun _ h => h).seq fun table htable => ?_
  refine yields_optionalWhere.seq fun predicate hpredicate => ?_
  refine yields_groupBy.seq fun groupBy _ => ?_
  refine yields_having.seq fun having _ => ?_
  refine Reads.ite (fun _ => yields_fail _) fun hstar => ?_
  refine yields_orderBy.seq fun orderBy _ => ?_
  refine yields_limit.seq fun limit _ => reads_pure ?_
  refine ⟨htable, hpredicate, fun hall => ?_, collapse_ne_columns hwritten groupBy⟩
  by_contra hgroup
  exact hstar ⟨hall, hgroup⟩

theorem yields_assignment :
    Yields F n 0 (fun a => LiteralRead F a.value) (assignment F) := by
  refine ((yields_identifier _).mono le_rfl (Nat.zero_le 1) fun _ h => h).seq fun column _ => ?_
  refine (yields_expect _).seq fun _ _ => ?_
  exact yields_literal.seq fun value hvalue => reads_pure hvalue

theorem yields_update : Yields F n 0 (StatementRead F) (update F) := by
  refine ((yields_identifier _).mono le_rfl (Nat.zero_le 1) fun _ h => h).seq fun table htable => ?_
  refine (yields_expectKeyword _).seq fun _ _ => ?_
  refine (yields_commaSeparated yields_assignment).seq fun assignments hassignments => ?_
  exact yields_optionalWhere.seq fun predicate hpredicate =>
    reads_pure ⟨htable, hassignments, hpredicate⟩

theorem yields_delete : Yields F n 0 (StatementRead F) (delete F) := by
  refine (yields_expectKeyword _).seq fun _ _ => ?_
  refine ((yields_identifier _).mono le_rfl (Nat.zero_le 1) fun _ h => h).seq fun table htable => ?_
  exact yields_optionalWhere.seq fun predicate hpredicate => reads_pure ⟨htable, hpredicate⟩

theorem yields_noiseWord : Yields F n 0 (fun _ => True) noiseWord :=
  (guards_eatKeyword "transaction").ite (fun _ _ => reads_pure trivial)
    ((guards_eatKeyword "work").reads.seq fun _ _ => reads_pure trivial)

theorem yields_definition (create : Bool) {table : TokenParser Statement}
    (h : ∀ m, Yields F m 0 (StatementRead F) table) :
    Yields F n 0 (StatementRead F) (definition F create table) := by
  refine (guards_eatKeyword "index").ite (fun m _ => yields_indexTarget create false) ?_
  refine (guards_eatKeyword "range").ite (fun m _ => ?_) (h n)
  exact (yields_expectKeyword _).seq fun _ _ => yields_indexTarget create true

theorem yields_statement (fuel : ℕ) (hfuel : n < fuel) :
    Yields F n 1 (StatementRead F) (statement F fuel) := by
  induction fuel generalizing n with
  | zero => omega
  | succ fuel ih =>
    have hnoise : ∀ s : Statement, StatementRead F s →
        Yields F (n - 1) 0 (StatementRead F) (do noiseWord; pure s) :=
      fun s hs => yields_noiseWord.seq fun _ _ => reads_pure hs
    -- Without a token there is no keyword, and no call of `statement` inside `EXPLAIN`.
    rcases Nat.eq_zero_or_pos n with rfl | hpos
    · intro ts hts _
      obtain rfl := List.length_eq_zero_iff.mp (Nat.le_zero.mp hts)
      exact readsAt_of_error rfl fun h => by cases h
    refine (yields_keyword _).bind (l := 0) fun kw _ => ?_
    refine Reads.ite (fun _ => yields_definition true fun m => yields_createTable) fun _ => ?_
    refine Reads.ite (fun _ => yields_definition false fun m => yields_dropTable) fun _ => ?_
    refine Reads.ite (fun _ => yields_insert) fun _ => ?_
    refine Reads.ite (fun _ => yields_select) fun _ => ?_
    refine Reads.ite (fun _ => yields_update) fun _ => ?_
    refine Reads.ite (fun _ => yields_delete) fun _ => ?_
    refine Reads.ite (fun _ => ?_) fun _ => ?_
    · refine ((ih (by omega)).mono le_rfl (Nat.zero_le 1) fun _ h => h).seq fun inner hinner => ?_
      exact Reads.ite (fun _ => reads_pure hinner) fun _ => yields_fail _
    refine Reads.ite (fun _ => hnoise _ trivial) fun _ => ?_
    refine Reads.ite (fun _ => (yields_expectKeyword _).seq fun _ _ => reads_pure trivial) fun _ => ?_
    refine Reads.ite (fun _ => hnoise _ trivial) fun _ => ?_
    exact Reads.ite (fun _ => hnoise _ trivial) fun _ => yields_fail _

theorem yields_skipSemis : Yields F n 0 (fun _ => True) skipSemis :=
  (guards_eat Token.semi).loop (fun _ _ _ _ => reads_pure trivial) () trivial

theorem yields_statementsLoop (fuel : ℕ) (hfuel : n < fuel) (statements : List Statement)
    (h : ∀ s ∈ statements, StatementRead F s) :
    Yields F n 0 (fun l => ∀ s ∈ l, StatementRead F s) (statementsLoop F fuel statements) := by
  induction fuel generalizing n statements with
  | zero => omega
  | succ fuel ih =>
    refine yields_skipSemis.seq fun _ _ => ?_
    intro ts hts hT
    rw [ReadsAt, run_get_bind]
    by_cases hnil : ts = []
    · rw [if_pos hnil]
      exact reads_pure h ts hts hT
    rw [if_neg hnil]
    -- A statement takes at least its keyword, so what follows it is shorter.
    have hpos : 0 < ts.length := List.length_pos_of_ne_nil hnil
    refine (Reads.bind (k := 1) (l := 0) (yields_statement (ts.length + 1) (Nat.lt_succ_self _))
      fun s hs => ?_).mono le_rfl (Nat.zero_le 1) (fun _ h => h) ts le_rfl hT
    intro rest hrest hT'
    rw [ReadsAt, run_get_bind]
    refine Reads.ite (fun _ => yields_unexpected _) (fun _ => ?_) rest hrest hT'
    refine ih (by omega) _ fun s' hs' => ?_
    rcases List.mem_append.mp hs' with hs' | hs'
    · exact h s' hs'
    · rw [List.mem_singleton.mp hs']
      exact hs

end Helpers

/-! ## Texts -/

theorem parseStatements_spec (input : String) :
    parseStatements F input ≠ .error .depth ∧
      ∀ l, parseStatements F input = .ok l → ∀ s ∈ l, StatementRead F s := by
  obtain ⟨hne, hlexed⟩ := tokenize_spec F input.toList
  rw [parseStatements]
  cases htokens : tokenize F input.toList with
  | error e =>
    rw [htokens] at hne
    exact ⟨fun he => hne (congrArg _ (Except.error.inj he)), fun l hl => by cases hl⟩
  | ok tokens =>
    obtain ⟨hne, hok⟩ := yields_statementsLoop (F := F) (tokens.length + 1) (Nat.lt_succ_self _) []
      (fun s hs => absurd hs List.not_mem_nil) tokens le_rfl (hlexed tokens htokens)
    change ((statementsLoop F (tokens.length + 1) []).run tokens >>= fun r => pure r.1) ≠ _ ∧
      ∀ l, ((statementsLoop F (tokens.length + 1) []).run tokens >>= fun r => pure r.1) = .ok l → _
    cases hrun : (statementsLoop F (tokens.length + 1) []).run tokens with
    | error e =>
      rw [hrun] at hne
      exact ⟨fun he => hne (congrArg _ (Except.error.inj he)), fun l hl => by cases hl⟩
    | ok r =>
      refine ⟨ok_ne_error, fun l hl => ?_⟩
      obtain rfl := Except.ok.inj hl
      exact (hok r.1 r.2 hrun).1

/-- The bound on the recursion is never reached. -/
theorem parseStatements_ne_depth (input : String) : parseStatements F input ≠ .error .depth :=
  (parseStatements_spec F input).1

theorem parseStatements_read {input : String} {l : List Statement}
    (h : parseStatements F input = .ok l) {s : Statement} (hs : s ∈ l) : StatementRead F s :=
  (parseStatements_spec F input).2 l h s hs

/-! ## What the engine expects -/

variable {F}

theorem LiteralRead.lexed (hF : ∀ text, (F.parseF64 text).isNaN = false) {l : Literal}
    (h : LiteralRead F l) : l.Lexed := by
  cases l with
  | real x =>
    obtain ⟨text, rfl | rfl⟩ := h
    · exact hF text
    · exact (F64.isNaN_neg _).trans (hF text)
  | _ => trivial

theorem ExprRead.lexed (hF : ∀ text, (F.parseF64 text).isNaN = false) {e : Expr}
    (h : ExprRead F e) : ∀ l ∈ e.literals, l.Lexed := by
  induction e with
  | compare column op value =>
    intro l hl
    rw [List.mem_singleton.mp hl]
    exact h.2.lexed hF
  | isNull column negated => exact fun l hl => absurd hl List.not_mem_nil
  | not inner ih => exact ih h
  | and a b iha ihb =>
    intro l hl
    exact (List.mem_append.mp hl).elim (iha h.1 l) (ihb h.2 l)
  | or a b iha ihb =>
    intro l hl
    exact (List.mem_append.mp hl).elim (iha h.1 l) (ihb h.2 l)

theorem lexed_predicate (hF : ∀ text, (F.parseF64 text).isNaN = false) {p : Option Expr}
    (h : ∀ e ∈ p, ExprRead F e) : ∀ l ∈ (p.map Expr.literals).getD [], l.Lexed := by
  cases p with
  | none => exact fun l hl => absurd hl List.not_mem_nil
  | some e => exact (h e rfl).lexed hF

/-- Every statement the parser returns is as the engine expects it. Reading digits, a dot and digits
never gives a NaN. -/
theorem StatementRead.parsed (hF : ∀ text, (F.parseF64 text).isNaN = false) {s : Statement}
    (h : StatementRead F s) : s.Parsed := by
  have hnone : ∀ l ∈ ([] : List Literal), l.Lexed := fun l hl => absurd hl List.not_mem_nil
  have hcols : ∀ c ∈ ([] : List ColumnDef), c.Parsed := fun c hc => absurd hc List.not_mem_nil
  have htable : ∀ {t : String}, IsWord t → ∀ u ∈ some t, IsIdent u := by
    intro t ht u hu
    obtain rfl := Option.some.inj hu
    exact ht.1
  induction s with
  | createTable name columns => exact ⟨htable h.1, h.2, hnone⟩
  | dropTable name => exact ⟨htable h, hcols, hnone⟩
  | createIndex table column range => exact ⟨htable h.1, hcols, hnone⟩
  | dropIndex table column range => exact ⟨htable h.1, hcols, hnone⟩
  | insert table columns rows =>
    refine ⟨htable h.1, hcols, fun l hl => ?_⟩
    obtain ⟨row, hrow, hl⟩ := List.mem_flatten.mp hl
    exact (h.2 row hrow l hl).lexed hF
  | select columns table predicate groupBy having orderBy limit =>
    exact ⟨htable h.1, hcols, lexed_predicate hF h.2.1⟩
  | update table assignments predicate =>
    refine ⟨htable h.1, hcols, fun l hl => ?_⟩
    rcases List.mem_append.mp hl with hl | hl
    · obtain ⟨a, ha, rfl⟩ := List.mem_map.mp hl
      exact (h.2.1 a ha).lexed hF
    · exact lexed_predicate hF h.2.2 l hl
  | delete table predicate => exact ⟨htable h.1, hcols, lexed_predicate hF h.2⟩
  | explain inner ih => exact ⟨(ih h).table, hcols, (ih h).literals⟩
  | begin | commit | rollback => exact ⟨fun t ht => (by cases ht), hcols, hnone⟩

end Ciphra.Sql
