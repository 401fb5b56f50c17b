import Ciphra.Engine.Transparency

/-!
# The relational reading of a database

What the statements are for, without keys, seals, indexes or a log. A database has tables by name; a
table has a schema, rows under row ids, and the id that the next row gets. `Effect` says what each
statement that writes does to it. `State` adds transactions, as a second copy of the database that
the statements of an open transaction work on, and `Moves` says what may be observed.

One trace of the indexes remains. An equality path looks its literal up as it stands, so a filter
that compares an indexed column with a literal of another type selects nothing (`Selects`).
-/

namespace Ciphra

namespace Relational

/-! ## Tables -/

/-- A table, as its statements know it. -/
structure Relation where
  schema : TableSchema
  rows : UInt64 → Option Row
  next : UInt64

/-- The tables by name. -/
abbrev Database := String → Option Relation

/-- The rows that a filter selects. -/
def Selects (s : TableSchema) (filter : Option CompiledExpr) (row : Row) : Prop :=
  filterMatches filter row = .ok true ∧ ∀ f ∈ filter, PathTyped f s

namespace Relation

/-- A table without rows. -/
def new (schema : TableSchema) : Relation := ⟨schema, fun _ => none, 0⟩

/-- New rows get the next ids, in order. -/
def insert (R : Relation) (batch : List Row) : Relation where
  schema := R.schema
  rows id := if R.next ≤ id then batch[id.toNat - R.next.toNat]? else R.rows id
  next := R.next + UInt64.ofNat batch.length

open Classical in
/-- The selected rows are replaced. -/
noncomputable def update (R : Relation) (selects : Row → Prop) (f : Row → Row) : Relation where
  schema := R.schema
  rows id := (R.rows id).map fun row => if selects row then f row else row
  next := R.next

open Classical in
/-- The selected rows are gone. -/
noncomputable def delete (R : Relation) (selects : Row → Prop) : Relation where
  schema := R.schema
  rows id := (R.rows id).filter fun row => ¬ selects row
  next := R.next

/-- The number of selected rows. -/
noncomputable def count (R : Relation) (selects : Row → Prop) : ℕ :=
  Set.ncard {id | ∃ row, R.rows id = some row ∧ selects row}

/-- Primary keys are given and unique. -/
def Keyed (R : Relation) : Prop := ∀ col c, R.schema.columns[col]? = some c → c.primaryKey = true →
  (∀ id row, R.rows id = some row → row.cell col ≠ .null) ∧
  ∀ id id' row row', R.rows id = some row → R.rows id' = some row' →
    row.cell col = row'.cell col → id = id'

/-- Row ids are taken below the next one. -/
def Below (R : Relation) : Prop := ∀ id row, R.rows id = some row → id < R.next

end Relation

/-- A column with one of its index flags set. -/
def flag (range value : Bool) (c : ColumnDef) : ColumnDef :=
  if range then { c with rangeIndexed := value } else { c with indexed := value }

/-! ## Statements -/

/-- **What a statement that writes does**, and what it returns. -/
inductive Effect (db : Database) : Statement → QueryResult → Database → Prop
  | createTable (name : String) (columns : List ColumnDef) (hnew : db name = none) :
      Effect db (.createTable name columns) (.created name)
        (Function.update db name (some (.new ⟨name, columns⟩)))
  | dropTable (name : String) (R : Relation) (hR : db name = some R) :
      Effect db (.dropTable name) (.dropped name) (Function.update db name none)
  | createIndex (t column : String) (range : Bool) (R : Relation) (col : ℕ) (hR : db t = some R)
      (hcol : resolveColumn R.schema column t = .ok col) :
      Effect db (.createIndex t column range) (.indexCreated t column range)
        (Function.update db t (some { R with
          schema := R.schema.modifyColumn col (flag range true) }))
  | dropIndex (t column : String) (range : Bool) (R : Relation) (col : ℕ) (hR : db t = some R)
      (hcol : resolveColumn R.schema column t = .ok col) :
      Effect db (.dropIndex t column range) (.indexDropped t column range)
        (Function.update db t (some { R with
          schema := R.schema.modifyColumn col (flag range false) }))
  | insert (t : String) (columns : Option (List String)) (rows : List (List Literal)) (R : Relation)
      (positions : List ℕ) (batch : List Row) (hR : db t = some R)
      (hpos : insertPositions R.schema t columns = .ok positions)
      (hbatch : List.Forall₂ (fun literals row => literals.length = positions.length ∧
        fillRow R.schema positions literals = .ok row) rows batch)
      (hkeyed : (R.insert batch).Keyed) :
      Effect db (.insert t columns rows) (.inserted rows.length)
        (Function.update db t (some (R.insert batch)))
  | update (t : String) (targets : List Assignment) (predicate : Option Expr) (R : Relation)
      (filter : Option CompiledExpr) (resolved : List (ℕ × Value)) (hR : db t = some R)
      (hfilter : predicate.mapM (compileExpr R.schema) = .ok filter)
      (hresolved : resolveAssignments R.schema t targets [] = .ok resolved)
      (hkeyed : (R.update (Selects R.schema filter) (assignRow resolved)).Keyed) :
      Effect db (.update t targets predicate) (.updated (R.count (Selects R.schema filter)))
        (Function.update db t (some (R.update (Selects R.schema filter) (assignRow resolved))))
  | delete (t : String) (predicate : Option Expr) (R : Relation) (filter : Option CompiledExpr)
      (hR : db t = some R) (hfilter : predicate.mapM (compileExpr R.schema) = .ok filter) :
      Effect db (.delete t predicate) (.deleted (R.count (Selects R.schema filter)))
        (Function.update db t (some (R.delete (Selects R.schema filter))))

/-- What a `SELECT` makes of the rows it has selected: it groups them, or it sorts, cuts and projects
them. -/
def output (P : Platform) (s : TableSchema) (t : String) (projection : Projection)
    (groupBy : List String) (having : Option HavingExpr) (orderBy : Option OrderBy)
    (limit : Option Limit) (rows : List Row) : Except EngineError (List String × List Row) :=
  match projection with
  | .items items => aggregate P.floats s t items groupBy having rows limit
  | other => do
    let columns ← outputColumns s t other
    let order ← orderColumn s t orderBy
    let sorted ← orderRows P.cosine s order rows
    pure (columns.map fun i => (s.columns[i]?.map ColumnDef.name).getD "",
      (limitRows limit sorted).map fun row => columns.map row.cell)

/-- **What a query returns.** A `SELECT` selects every row of the table that its filter selects, once,
in an order that the access path decides. `EXPLAIN` describes the statement and does not run it. -/
inductive Answers (P : Platform) (db : Database) : Statement → QueryResult → Prop
  | select (projection : Projection) (t : String) (predicate : Option Expr) (groupBy : List String)
      (having : Option HavingExpr) (orderBy : Option OrderBy) (limit : Option Limit) (R : Relation)
      (filter : Option CompiledExpr) (es : List (UInt64 × Row)) (columns : List String)
      (rows : List Row) (hR : db t = some R)
      (hfilter : predicate.mapM (compileExpr R.schema) = .ok filter)
      (hnodup : (es.map Prod.fst).Nodup)
      (hes : ∀ id row, (id, row) ∈ es ↔ R.rows id = some row ∧ Selects R.schema filter row)
      (hrows : output P R.schema t projection groupBy having orderBy limit (es.map Prod.snd) =
        .ok (columns, rows)) :
      Answers P db (.select projection t predicate groupBy having orderBy limit) (.rows columns rows)
  | explain (st : Statement) (action t : String) (predicate : Option Expr)
      (orderBy : Option OrderBy) (limit : Option Limit) (R : Relation)
      (filter : Option CompiledExpr)
      (hst : st.explained = some (action, t, predicate, orderBy, limit)) (hR : db t = some R)
      (hfilter : predicate.mapM (compileExpr R.schema) = .ok filter) :
      Answers P db (.explain st) (.rows ["plan"]
        ((planSteps P.formats R.schema action filter predicate orderBy limit).map fun step =>
          [.text step]))

/-! ## Transactions -/

/-- The committed database, and the copy that an open transaction works on. -/
structure State where
  committed : Database
  working : Option Database

namespace State

/-- What the statements see. -/
def visible (a : State) : Database := a.working.getD a.committed

/-- The state after a statement has turned what it sees into `db`. -/
def write (a : State) (db : Database) : State :=
  match a.working with
  | none => ⟨db, none⟩
  | some _ => ⟨a.committed, some db⟩

/-- No tables, no transaction. -/
def empty : State := ⟨fun _ => none, none⟩

end State

/-- What is observed of a session. A statement comes with the platform its queries run on. -/
inductive Event
  | statement (P : Platform) (st : Statement) (r : Except EngineError QueryResult)
  | rotated
  | rotationFailed
  | reopened

/-- **The transitions.** A failed statement changes nothing, but a failed `COMMIT` ends the
transaction; which error a statement fails with, and when, is left open. A rotation keeps what the
statements see, and ends the transaction as well. -/
inductive Moves (a : State) : Event → State → Prop
  | query (P : Platform) (st : Statement) (r : QueryResult) (h : Answers P a.visible st r) :
      Moves a (.statement P st (.ok r)) a
  | failed (P : Platform) (st : Statement) (e : EngineError) (h : st ≠ .commit) :
      Moves a (.statement P st (.error e)) a
  | effect (P : Platform) (st : Statement) (r : QueryResult) (db : Database)
      (h : Effect a.visible st r db) : Moves a (.statement P st (.ok r)) (a.write db)
  | began (P : Platform) (h : a.working = none) :
      Moves a (.statement P .begin (.ok .begin)) ⟨a.committed, some a.committed⟩
  | committed (P : Platform) (db : Database) (h : a.working = some db) :
      Moves a (.statement P .commit (.ok .committed)) ⟨db, none⟩
  | commitFailed (P : Platform) (e : EngineError) :
      Moves a (.statement P .commit (.error e)) ⟨a.committed, none⟩
  | rolledBack (P : Platform) (db : Database) (h : a.working = some db) :
      Moves a (.statement P .rollback (.ok .rolledBack)) ⟨a.committed, none⟩
  | rotated : Moves a .rotated ⟨a.visible, none⟩
  | rotationFailed : Moves a .rotationFailed a
  | reopened : Moves a .reopened ⟨a.committed, none⟩

end Relational

end Ciphra
