import Ciphra.Engine.Aggregate
import Ciphra.Engine.Crypto
import Ciphra.Foundations.Query
import Ciphra.Sql.Parser

/-!
# What a statement reads and what it will write

Every statement first reads the store and only then writes, all its writes in one batch. Its
reading part is a `Query`, so it can be run at once or request by request; what it will write is a
`Plan`: the audit kind, the table, the result and the writes in order. A write is kept unsealed,
with its key and the key it is sealed under; sealing happens when the batch is committed, in the
same order. The associated data of every seal is the storage key itself.
-/

namespace Ciphra

open Query (fetch entries tell ofExcept fail)

/-- What a filtered statement tells the index advisor: its table, its filter, and how many rows a
full scan examined (none for an index path). -/
structure QueryNote where
  table : String
  filter : CompiledExpr
  scanned : ℕ

/-- A program of the engine that reads the store. -/
abbrev Read (α : Type) := Query Bytes Bytes EngineError QueryNote α

/-- A write of a statement, before sealing. -/
inductive Unsealed (C : Crypto)
  | put (key : Bytes) (cipher : C.CipherKey) (plain : Bytes)
  | delete (key : Bytes)

namespace AuditKind

def createTable : UInt8 := 1
def dropTable : UInt8 := 2
def createIndex : UInt8 := 3
def dropIndex : UInt8 := 4
def insert : UInt8 := 5
def update : UInt8 := 6
def delete : UInt8 := 7
def rotate : UInt8 := 8

end AuditKind

/-- A statement that is ready to be committed. -/
structure Plan (C : Crypto) where
  kind : UInt8
  table : String
  writes : List (Unsealed C)
  result : QueryResult

section

variable (C : Crypto) (mk : C.MasterKey)

/-! ## Reading -/

/-- Open a sealed value. -/
def openValue (k : C.CipherKey) (sealed aad : Bytes) : Except EngineError Bytes :=
  match C.openSealed k sealed aad with
  | some plain => .ok plain
  | none => .error .crypto

/-- The schema of `table`, if it exists. -/
def schema (table : String) : Read (Option TableSchema) := do
  let key := C.catalogKey mk table
  match ← fetch key with
  | none => pure none
  | some sealed =>
    let s ← ofExcept (openValue C (C.deriveKey mk "catalog") sealed key >>= decodeSchema)
    pure (some s)

def expectSchema (table : String) : Read TableSchema := do
  match ← schema C mk table with
  | some s => pure s
  | none => fail (.schema ("no such table: " ++ quoted table))

/-- A sealed row, opened and decoded. -/
def readRow (table : String) (key sealed : Bytes) : Except EngineError Row :=
  openValue C (C.tableKey mk table) sealed key >>= decodeRow

/-- All rows of a table with their keys, in key order. -/
def scanRows (table : String) : Read (List (Bytes × Row)) := do
  let pairs ← entries (C.rowPrefix mk table)
  pairs.mapM fun e => ofExcept (do
    let row ← readRow C mk table e.1 e.2
    pure (e.1, row))

/-- Row ids holding `value` in column `col`, via the equality index. Every entry's sealed marker is
verified. -/
def indexRowids (table : String) (col : ℕ) (value : Value) : Read (List UInt64) := do
  let pairs ← entries (C.indexValuePrefix mk table col value)
  pairs.mapM fun e => ofExcept (do
    let _ ← openValue C (C.tableKey mk table) e.2 e.1
    pure (rowidFromKey e.1))

/-- Decrypt and decode a column's range index (empty if absent). -/
def loadRangeIndex (table : String) (col : ℕ) : Read (List (Value × UInt64)) := do
  let key := C.rangeIndexKey mk table col
  match ← fetch key with
  | none => pure []
  | some sealed => ofExcept (openValue C (C.tableKey mk table) sealed key >>= decodeRangeBlob)

/-- The next row id of a table. -/
def loadSeq (table : String) : Read UInt64 := do
  let key := C.seqKey mk table
  match ← fetch key with
  | none => pure 0
  | some sealed =>
    let plain ← ofExcept (openValue C (C.tableKey mk table) sealed key)
    if plain.length = 8 then pure (UInt64.ofNat (leNat plain))
    else fail (.corrupt ("bad sequence for " ++ quoted table))

/-- The rows of the ids that exist, with their keys: a dangling index entry reads as absent. -/
def fetchRows (table : String) (ids : List UInt64) : Read (List (Bytes × Row)) := do
  let rows ← ids.mapM fun id => do
    let key := C.rowKey mk table id
    match ← fetch key with
    | none => pure none
    | some sealed =>
      let row ← ofExcept (readRow C mk table key sealed)
      pure (some (key, row))
  pure (rows.filterMap fun r => r)

/-- The rows a filtered operation must consider: an index lookup when the predicate pins an indexed
column, else all rows. Callers still apply the complete predicate to what is returned. -/
def candidateRows (table : String) (schema : TableSchema) (filter : Option CompiledExpr) :
    Read (List (Bytes × Row)) :=
  match filter with
  | none => scanRows C mk table
  | some f =>
    match indexedEqValue f schema with
    | some (col, value) => do
      let ids ← indexRowids C mk table col value
      let rows ← fetchRows C mk table ids
      tell ⟨table, f, 0⟩
      pure rows
    | none =>
      match rangeIndexedPred f schema with
      | some (col, op, value) => do
        let entries ← loadRangeIndex C mk table col
        let hits := entries.filter fun e => op.holds (compareValues e.1 value)
        let rows ← fetchRows C mk table (hits.map Prod.snd)
        tell ⟨table, f, 0⟩
        pure rows
      | none => do
        let rows ← scanRows C mk table
        tell ⟨table, f, rows.length⟩
        pure rows

/-- The candidate rows that satisfy the whole predicate. -/
def matchingRows (table : String) (schema : TableSchema) (filter : Option CompiledExpr) :
    Read (List (Bytes × Row)) := do
  let rows ← candidateRows C mk table schema filter
  let keep ← rows.mapM fun e => ofExcept (filterMatches filter e.2)
  pure (((rows.zip keep).filter Prod.snd).map Prod.fst)

/-! ## Writes -/

/-- Seal a schema into its catalog entry. -/
def addSchema (schema : TableSchema) : Unsealed C :=
  .put (C.catalogKey mk schema.name) (C.deriveKey mk "catalog") (encodeSchema schema)

def addSeq (table : String) (next : UInt64) : Unsealed C :=
  .put (C.seqKey mk table) (C.tableKey mk table) (leBytes 8 next.toNat)

def addRow (table : String) (key : Bytes) (row : Row) : Unsealed C :=
  .put key (C.tableKey mk table) (encodeRow row)

def addIndexEntry (table : String) (col : ℕ) (value : Value) (rowid : UInt64) : Unsealed C :=
  .put (C.indexKey mk table col value rowid) (C.tableKey mk table) []

def removeIndexEntry (table : String) (col : ℕ) (value : Value) (rowid : UInt64) : Unsealed C :=
  .delete (C.indexKey mk table col value rowid)

/-- Seal a sorted range index. -/
def addRangeBlob (table : String) (col : ℕ) (entries : List (Value × UInt64)) : Unsealed C :=
  .put (C.rangeIndexKey mk table col) (C.tableKey mk table) (encodeRangeBlob entries)

/-- The entries of a new row in the maintained columns that are not `NULL` in it. -/
def newEntries (table : String) (maintained : List ℕ) (row : Row) (rowid : UInt64) :
    List (Unsealed C) :=
  (maintained.filter fun col => !(row.cell col).isNull).map fun col =>
    addIndexEntry C mk table col (row.cell col) rowid

/-! ## Statements -/

/-- A statement that does not hold its precondition fails with the error. -/
def guardRead (condition : Prop) [Decidable condition] (e : EngineError) : Read Unit :=
  if condition then pure () else fail e

/-- Seal a range index that a statement has read or built. Its entries are held in a vector, which
panics when it would grow beyond `maxEntries`. -/
def sealRangeBlob (table : String) (col : ℕ) (entries : List (Value × UInt64)) :
    Read (Unsealed C) := do
  guardRead (entries.length ≤ maxEntries) .panicked
  pure (addRangeBlob C mk table col entries)

theorem run_sealRangeBlob {r : Reader Bytes Bytes} {table : String} {col : ℕ}
    {entries : List (Value × UInt64)} (h : entries.length ≤ maxEntries) :
    (sealRangeBlob C mk table col entries).run r = .ok (addRangeBlob C mk table col entries) := by
  simp [sealRangeBlob, guardRead, h]

def createTable (name : String) (columns : List ColumnDef) : Read (Plan C) := do
  let existing ← schema C mk name
  guardRead (existing = none) (.schema ("table " ++ quoted name ++ " already exists"))
  match columns.zipIdx.find? fun c => (columns.take c.2).any fun d => d.name == c.1.name with
  | some (col, _) =>
    fail (.schema ("duplicate column " ++ quoted col.name ++ " in table " ++ quoted name))
  | none =>
    guardRead ((columns.filter ColumnDef.primaryKey).length ≤ 1)
      (.schema ("table " ++ quoted name ++ " declares more than one PRIMARY KEY column"))
    match columns.find? fun c => c.primaryKey && c.ty matches .vector _ with
    | some col =>
      fail (.schema ("vector column " ++ quoted col.name ++ " cannot be a PRIMARY KEY"))
    | none =>
      pure {
        kind := AuditKind.createTable
        table := name
        writes := [addSchema C mk { name, columns }]
        result := .created name }

/-- A table that is new and well declared is created. -/
theorem run_createTable {r : Reader Bytes Bytes} {name : String} {columns : List ColumnDef}
    (hnew : r.get (C.catalogKey mk name) = none)
    (hdup : (columns.zipIdx.find? fun c => (columns.take c.2).any fun d => d.name == c.1.name) =
      none)
    (hpk : (columns.filter ColumnDef.primaryKey).length ≤ 1)
    (hvector : (columns.find? fun c => c.primaryKey && c.ty matches .vector _) = none) :
    (createTable C mk name columns).run r =
      .ok ⟨AuditKind.createTable, name, [addSchema C mk ⟨name, columns⟩], .created name⟩ := by
  simp [createTable, schema, hnew, guardRead, hdup, hpk, hvector]

/-- The schema with one column changed. -/
def TableSchema.modifyColumn (schema : TableSchema) (col : ℕ) (f : ColumnDef → ColumnDef) :
    TableSchema := { schema with columns := schema.columns.modify col f }

def createIndex (table column : String) : Read (Plan C) := do
  let schema ← expectSchema C mk table
  let col ← ofExcept (resolveColumn schema column table)
  match schema.columns[col]? with
  | none => fail .panicked
  | some c =>
    guardRead (c.primaryKey = false)
      (.schema ("column " ++ quoted column ++ " is already indexed by PRIMARY KEY"))
    guardRead (c.indexed = false)
      (.schema ("column " ++ quoted column ++ " of table " ++ quoted table ++ " is already indexed"))
    guardRead ((c.ty matches .vector _) = false)
      (.schema ("vector column " ++ quoted column ++ " cannot carry an equality index"))
    -- backfill entries for the existing rows, then flip the flag of the schema
    let rows ← scanRows C mk table
    pure {
      kind := AuditKind.createIndex
      table
      writes := rows.flatMap (fun e => newEntries C mk table [col] e.2 (rowidFromKey e.1)) ++
        [addSchema C mk (schema.modifyColumn col fun c => { c with indexed := true })]
      result := .indexCreated table column false }

def dropIndex (table column : String) : Read (Plan C) := do
  let schema ← expectSchema C mk table
  let col ← ofExcept (resolveColumn schema column table)
  match schema.columns[col]? with
  | none => fail .panicked
  | some c =>
    guardRead (c.indexed = true)
      (.schema ("column " ++ quoted column ++ " of table " ++ quoted table ++
        " is not indexed (a PRIMARY KEY index cannot be dropped)"))
    let pairs ← entries (C.indexColumnPrefix mk table col)
    pure {
      kind := AuditKind.dropIndex
      table
      writes := pairs.map (fun e => .delete e.1) ++
        [addSchema C mk (schema.modifyColumn col fun c => { c with indexed := false })]
      result := .indexDropped table column false }

/-- The entries of a range index over the given rows that are not `NULL` in the column. -/
def rangeEntriesOf (col : ℕ) (rows : List (UInt64 × Row)) : List (Value × UInt64) :=
  (rows.filter fun e => !(e.2.cell col).isNull).map fun e => (e.2.cell col, e.1)

def createRangeIndex (table column : String) : Read (Plan C) := do
  let schema ← expectSchema C mk table
  let col ← ofExcept (resolveColumn schema column table)
  match schema.columns[col]? with
  | none => fail .panicked
  | some c =>
    guardRead (c.rangeIndexed = false)
      (.schema ("column " ++ quoted column ++ " of table " ++ quoted table ++
        " already has a range index"))
    guardRead ((c.ty matches .vector _) = false)
      (.schema ("vector column " ++ quoted column ++
        " has no order; a range index cannot serve it"))
    let rows ← scanRows C mk table
    let entries := sortRangeEntries (rangeEntriesOf col (rows.map fun e => (rowidFromKey e.1, e.2)))
    let blob ← sealRangeBlob C mk table col entries
    pure {
      kind := AuditKind.createIndex
      table
      writes := [blob,
        addSchema C mk (schema.modifyColumn col fun c => { c with rangeIndexed := true })]
      result := .indexCreated table column true }

def dropRangeIndex (table column : String) : Read (Plan C) := do
  let schema ← expectSchema C mk table
  let col ← ofExcept (resolveColumn schema column table)
  match schema.columns[col]? with
  | none => fail .panicked
  | some c =>
    guardRead (c.rangeIndexed = true)
      (.schema ("column " ++ quoted column ++ " of table " ++ quoted table ++
        " has no range index"))
    pure {
      kind := AuditKind.dropIndex
      table
      writes := [.delete (C.rangeIndexKey mk table col),
        addSchema C mk (schema.modifyColumn col fun c => { c with rangeIndexed := false })]
      result := .indexDropped table column true }

def dropTable (name : String) : Read (Plan C) := do
  let _ ← expectSchema C mk name
  let rows ← entries (C.rowPrefix mk name)
  let indexes ← entries (C.indexPrefix mk name)
  let ranges ← entries (C.rangePrefix mk name)
  pure {
    kind := AuditKind.dropTable
    table := name
    writes := (rows ++ indexes ++ ranges).map (fun e => .delete e.1) ++
      [.delete (C.seqKey mk name), .delete (C.catalogKey mk name)]
    result := .dropped name }

/-- The provided column order mapped onto schema positions. -/
def insertPositions (schema : TableSchema) (table : String) (columns : Option (List String)) :
    Except EngineError (List ℕ) :=
  match columns with
  | none => .ok (List.range schema.columns.length)
  | some names => names.mapM fun n => resolveColumn schema n table

/-- One cell of a new row. -/
def setCell (schema : TableSchema) (row : Row) (e : ℕ × Literal) : Except EngineError Row :=
  match schema.columns[e.1]? with
  | none => .error .panicked
  | some c => do
    let v ← coerce e.2 c
    pure (row.set e.1 v)

/-- A new row, `NULL` where no literal is given. -/
def fillRow (schema : TableSchema) (positions : List ℕ) (literals : List Literal) :
    Except EngineError Row :=
  (positions.zip literals).foldlM (setCell schema) (List.replicate schema.columns.length .null)

def nullKey (schema : TableSchema) (pk : ℕ) : EngineError :=
  .constraint ("primary key " ++ quoted ((schema.columns[pk]?.map ColumnDef.name).getD "") ++
    " cannot be NULL")

def duplicateKey (schema : TableSchema) (pk : ℕ) : EngineError :=
  .constraint ("duplicate value for primary key " ++
    quoted ((schema.columns[pk]?.map ColumnDef.name).getD ""))

/-- The primary key of a new row must be given, new among the rows of the statement (`seen` holds
the index prefixes of the earlier ones) and new in the table. -/
def checkKey (table : String) (schema : TableSchema) (pk : ℕ) (value : Value) (seen : List Bytes) :
    Read (List Bytes) := do
  guardRead (value.isNull = false) (nullKey schema pk)
  let p := C.indexValuePrefix mk table pk value
  guardRead (p ∉ seen) (duplicateKey schema pk)
  let holders ← indexRowids C mk table pk value
  guardRead (holders = []) (duplicateKey schema pk)
  pure (p :: seen)

/-- Validate all rows of an `INSERT` before anything is written. -/
def validateRows (table : String) (schema : TableSchema) (positions : List ℕ) :
    List (List Literal) → List Bytes → Read (List Row)
  | [], _ => pure []
  | literals :: rest, seen => do
    guardRead (literals.length = positions.length)
      (.type ("expected " ++ toString positions.length ++ " values, got " ++
        toString literals.length))
    let row ← ofExcept (fillRow schema positions literals)
    let seen ← match schema.pkColumn with
      | some pk => checkKey C mk table schema pk (row.cell pk) seen
      | none => pure seen
    let rows ← validateRows table schema positions rest seen
    pure (row :: rows)

/-- Rows numbered from the next row id on. -/
def numberRows : List Row → UInt64 → List (UInt64 × Row)
  | [], _ => []
  | row :: rows, next => (next, row) :: numberRows rows (next + 1)

def insert (table : String) (columns : Option (List String)) (rows : List (List Literal)) :
    Read (Plan C) := do
  let schema ← expectSchema C mk table
  let positions ← ofExcept (insertPositions schema table columns)
  let batch ← validateRows C mk table schema positions rows []
  let first ← loadSeq C mk table
  let numbered := numberRows batch first
  let blobs ← schema.rangeIndexedColumns.mapM fun col => do
    let entries ← loadRangeIndex C mk table col
    sealRangeBlob C mk table col (sortRangeEntries (entries ++ rangeEntriesOf col numbered))
  pure {
    kind := AuditKind.insert
    table
    writes := numbered.flatMap (fun e => addRow C mk table (C.rowKey mk table e.1) e.2 ::
        newEntries C mk table schema.maintainedColumns e.2 e.1) ++
      addSeq C mk table (first + UInt64.ofNat batch.length) :: blobs
    result := .inserted batch.length }

/-- `SET` targets as positions and values of the columns' types. -/
def resolveAssignments (schema : TableSchema) (table : String) :
    List Assignment → List ℕ → Except EngineError (List (ℕ × Value))
  | [], _ => .ok []
  | a :: rest, seen => do
    let i ← resolveColumn schema a.column table
    if i ∈ seen then .error (.schema ("column " ++ quoted a.column ++ " assigned twice"))
    else
      match schema.columns[i]? with
      | none => .error .panicked
      | some c =>
        let v ← coerce a.value c
        let more ← resolveAssignments schema table rest (i :: seen)
        pure ((i, v) :: more)

/-- The row with the assigned columns replaced. -/
def assignRow (resolved : List (ℕ × Value)) (row : Row) : Row :=
  resolved.foldl (fun r e => r.set e.1 e.2) row

/-- A primary key may be assigned to at most one row, and only a value no other row holds. -/
def checkAssignedKey (table : String) (schema : TableSchema) (pk : ℕ) (value : Value)
    (changed : List (Bytes × Row)) : Read Unit := do
  guardRead (value.isNull = false) (nullKey schema pk)
  guardRead (changed.length ≤ 1)
    (.constraint ("UPDATE would assign the same primary key to " ++ toString changed.length ++
      " rows"))
  match changed with
  | [] => pure ()
  | (key, _) :: _ =>
    let holders ← indexRowids C mk table pk value
    guardRead (holders.all (· == rowidFromKey key)) (duplicateKey schema pk)

/-- The check of an assigned primary key, if one is assigned. -/
def checkAssignments (table : String) (schema : TableSchema) (resolved : List (ℕ × Value))
    (changed : List (Bytes × Row)) : Read Unit :=
  match schema.pkColumn.bind fun pk =>
      (resolved.find? fun e => e.1 == pk).map fun e => (pk, e.2) with
  | some (pk, value) => checkAssignedKey C mk table schema pk value changed
  | none => pure ()

/-- The index entries of a row whose column changes, by the derived equality. -/
def entryDiff (table : String) (col : ℕ) (old new : Value) (rowid : UInt64) : List (Unsealed C) :=
  if old.beq new then []
  else
    (if old.isNull then [] else [removeIndexEntry C mk table col old rowid]) ++
      (if new.isNull then [] else [addIndexEntry C mk table col new rowid])

/-- A range index after one row has changed from `old` to `new` in its column. -/
def moveEntry (rowid : UInt64) (old new : Value) (entries : List (Value × UInt64)) :
    List (Value × UInt64) :=
  if old.beq new then entries
  else
    entries.filter (fun e => !(e.2 == rowid && e.1.beq old)) ++
      (if new.isNull then [] else [(new, rowid)])

def update (table : String) (assignments : List Assignment) (predicate : Option Expr) :
    Read (Plan C) := do
  let schema ← expectSchema C mk table
  let filter ← ofExcept (predicate.mapM (compileExpr schema))
  let resolved ← ofExcept (resolveAssignments schema table assignments [])
  let rows ← matchingRows C mk table schema filter
  checkAssignments C mk table schema resolved rows
  let columns := schema.rangeIndexedColumns.filter fun col =>
    !rows.all fun e => (e.2.cell col).beq ((assignRow resolved e.2).cell col)
  let blobs ← columns.mapM fun col => do
    let entries ← loadRangeIndex C mk table col
    sealRangeBlob C mk table col (sortRangeEntries (rows.foldl (fun es e =>
      moveEntry (rowidFromKey e.1) (e.2.cell col) ((assignRow resolved e.2).cell col) es) entries))
  pure {
    kind := AuditKind.update
    table
    writes := rows.flatMap (fun e =>
        schema.maintainedColumns.flatMap (fun col => entryDiff C mk table col (e.2.cell col)
          ((assignRow resolved e.2).cell col) (rowidFromKey e.1)) ++
        [addRow C mk table e.1 (assignRow resolved e.2)]) ++ blobs
    result := .updated rows.length }

/-- A range index after one row with `value` in its column is gone. -/
def dropEntry (rowid : UInt64) (value : Value) (entries : List (Value × UInt64)) :
    List (Value × UInt64) := entries.filter fun e => !(e.2 == rowid && e.1.beq value)

def delete (table : String) (predicate : Option Expr) : Read (Plan C) := do
  let schema ← expectSchema C mk table
  let filter ← ofExcept (predicate.mapM (compileExpr schema))
  let doomed ← matchingRows C mk table schema filter
  let columns := schema.rangeIndexedColumns.filter fun col =>
    !doomed.all fun e => (e.2.cell col).isNull
  let blobs ← columns.mapM fun col => do
    let entries ← loadRangeIndex C mk table col
    sealRangeBlob C mk table col (doomed.foldl (fun es e =>
      dropEntry (rowidFromKey e.1) (e.2.cell col) es) entries)
  pure {
    kind := AuditKind.delete
    table
    writes := doomed.flatMap (fun e =>
        (schema.maintainedColumns.filter fun col => !(e.2.cell col).isNull).map (fun col =>
          removeIndexEntry C mk table col (e.2.cell col) (rowidFromKey e.1)) ++
        [.delete e.1]) ++ blobs
    result := .deleted doomed.length }

/-! ## Queries -/

/-- The engine's `cosine_distance`: floating-point arithmetic, which the order of rows depends on. -/
abbrev CosineDistance := List F32 → List F32 → F32

/-- `LIMIT` and `OFFSET`. -/
def limitRows {α : Type} (limit : Option Limit) (rows : List α) : List α :=
  match limit with
  | some l => (rows.drop l.offset.toNat).take l.count.toNat
  | none => rows

/-- The positions of the projected columns. -/
def outputColumns (schema : TableSchema) (table : String) :
    Projection → Except EngineError (List ℕ)
  | .all => .ok (List.range schema.columns.length)
  | .columns names => names.mapM fun n => resolveColumn schema n table
  | .items _ => .error .panicked

def TableSchema.isVector (schema : TableSchema) (col : ℕ) : Bool :=
  match schema.columns[col]?.map ColumnDef.ty with
  | some (.vector _) => true
  | _ => false

/-- The distance of a cell to a query vector; what is no vector sorts last. -/
def distanceTo (cosine : CosineDistance) (query : List F32) : Value → F32
  | .vector v => cosine v query
  | _ => F32.infinity

/-- Sort whole rows, so that `ORDER BY` works on columns that are not projected. -/
def sortRows (cosine : CosineDistance) (schema : TableSchema) (col : ℕ) (ob : OrderBy)
    (rows : List Row) : Except EngineError (List Row) :=
  match ob.nearestTo with
  | some query =>
    if schema.isVector col then
      .ok (rows.mergeSort fun a b =>
        ((distanceTo cosine query (a.cell col)).totalCmp
          (distanceTo cosine query (b.cell col))).isLE)
    else .error (.type ("NEAREST TO requires a VECTOR column; " ++ quoted ob.column ++
      " is not one"))
  | none =>
    if schema.isVector col then
      .error (.type ("vector column " ++ quoted ob.column ++ " has no order; use ORDER BY " ++
        ob.column ++ " NEAREST TO [..]"))
    else
      .ok (rows.mergeSort fun a b =>
        if ob.descending then (compareValues (a.cell col) (b.cell col)).swap.isLE
        else (compareValues (a.cell col) (b.cell col)).isLE)

/-- Sort the rows if the query says so. -/
def orderRows (cosine : CosineDistance) (schema : TableSchema) (order : Option (ℕ × OrderBy))
    (rows : List Row) : Except EngineError (List Row) :=
  match order with
  | some (col, ob) => sortRows cosine schema col ob rows
  | none => .ok rows

/-- The sort column of a query, with its position. -/
def orderColumn (schema : TableSchema) (table : String) (orderBy : Option OrderBy) :
    Except EngineError (Option (ℕ × OrderBy)) :=
  orderBy.mapM fun ob => do
    let col ← resolveColumn schema ob.column table
    pure (col, ob)

/-- `SELECT`: the names of the output columns, and the rows. -/
def selectQuery (F : Floats) (cosine : CosineDistance) (table : String) (projection : Projection)
    (predicate : Option Expr) (groupBy : List String) (having : Option HavingExpr)
    (orderBy : Option OrderBy) (limit : Option Limit) : Read (List String × List Row) := do
  let schema ← expectSchema C mk table
  let filter ← ofExcept (predicate.mapM (compileExpr schema))
  match projection with
  | .items items =>
    guardRead (orderBy = none)
      (.schema "ORDER BY is not yet supported with aggregates or GROUP BY")
    let rows ← matchingRows C mk table schema filter
    ofExcept (aggregate F schema table items groupBy having (rows.map Prod.snd) limit)
  | other =>
    let output ← ofExcept (outputColumns schema table other)
    let order ← ofExcept (orderColumn schema table orderBy)
    let rows ← matchingRows C mk table schema filter
    let rows ← ofExcept (orderRows cosine schema order (rows.map Prod.snd))
    pure (output.map fun i => (schema.columns[i]?.map ColumnDef.name).getD "",
      (limitRows limit rows).map fun row => output.map row.cell)

/-- The rows a `SELECT` starts from: those its `WHERE` selects. -/
def selectedRows (table : String) (predicate : Option Expr) : Read (List Row) := do
  let schema ← expectSchema C mk table
  let filter ← ofExcept (predicate.mapM (compileExpr schema))
  let rows ← matchingRows C mk table schema filter
  pure (rows.map Prod.snd)

/-- What queries take from floating-point arithmetic, and from the formatting of the standard
library. -/
structure Platform where
  floats : Floats
  cosine : CosineDistance
  formats : Sql.Formats

/-- The platform of queries in which no floating-point number occurs. -/
def Platform.integers : Platform := ⟨noFloats, fun _ _ => ⟨0⟩, Sql.integerFormats⟩

/-- What `EXPLAIN` describes: the name of the action, the table, the predicate, the order and the
limit. -/
def Statement.explained :
    Statement → Option (String × String × Option Expr × Option OrderBy × Option Limit)
  | .select _ table predicate _ _ orderBy limit =>
    some ("SELECT", table, predicate, orderBy, limit)
  | .update table _ predicate => some ("UPDATE", table, predicate, none, none)
  | .delete table predicate => some ("DELETE", table, predicate, none, none)
  | _ => none

/-- A column of a table, as `EXPLAIN` names it. -/
def TableSchema.columnPath (schema : TableSchema) (col : ℕ) : String :=
  schema.name ++ "." ++ (schema.columns[col]?.map ColumnDef.name).getD ""

/-- How the rows are found. -/
def accessStep (schema : TableSchema) (action : String) (filter : Option CompiledExpr) : String :=
  match filter.bind fun f => indexedEqValue f schema with
  | some (col, _) =>
    let kind := if (schema.columns[col]?.map ColumnDef.primaryKey).getD false then "primary key"
      else "secondary index"
    action ++ ": " ++ kind ++ " lookup on " ++ schema.columnPath col
  | none =>
    match filter.bind fun f => rangeIndexedPred f schema with
    | some (col, op, _) =>
      action ++ ": sealed range-index scan on " ++ schema.columnPath col ++ " (" ++
        Sql.displayOp op ++ ")"
    | none => action ++ ": full scan of " ++ schema.name

def orderStep (ob : OrderBy) : String :=
  match ob.nearestTo with
  | some _ => "brute-force cosine scan: nearest to query vector on " ++ ob.column
  | none => "sort by " ++ ob.column ++ (if ob.descending then " DESC" else "")

/-- The steps that `EXPLAIN` lists. -/
def planSteps (N : Sql.Formats) (schema : TableSchema) (action : String)
    (filter : Option CompiledExpr) (predicate : Option Expr) (orderBy : Option OrderBy)
    (limit : Option Limit) : List String :=
  accessStep schema action filter ::
    ((predicate.map fun p => "filter: " ++ Sql.displayExpr N p).toList ++
      (orderBy.map orderStep).toList ++
      (limit.map fun l => "limit " ++ toString l.count.toNat ++ " offset " ++
        toString l.offset.toNat).toList)

/-- Describe how a statement would be executed, without running it. -/
def explain (N : Sql.Formats) (inner : Statement) : Read QueryResult :=
  match inner.explained with
  | none => fail (.schema "EXPLAIN supports SELECT, UPDATE and DELETE")
  | some (action, table, predicate, orderBy, limit) => do
    let schema ← expectSchema C mk table
    let filter ← ofExcept (predicate.mapM (compileExpr schema))
    let steps := planSteps N schema action filter predicate orderBy limit
    pure (.rows ["plan"] (steps.map fun step => [.text step]))

/-- What executing a statement comes down to. -/
inductive Program
  /-- Read, then commit a plan. -/
  | mutate (q : Read (Plan C))
  | query (q : Platform → Read QueryResult)
  | begin
  | commit
  | rollback

def program : Statement → Program C
  | .createTable name columns => .mutate (createTable C mk name columns)
  | .dropTable name => .mutate (dropTable C mk name)
  | .createIndex table column false => .mutate (createIndex C mk table column)
  | .createIndex table column true => .mutate (createRangeIndex C mk table column)
  | .dropIndex table column false => .mutate (dropIndex C mk table column)
  | .dropIndex table column true => .mutate (dropRangeIndex C mk table column)
  | .insert table columns rows => .mutate (insert C mk table columns rows)
  | .select projection table predicate groupBy having orderBy limit => .query fun P => do
    let (columns, rows) ← selectQuery C mk P.floats P.cosine table projection predicate groupBy
      having orderBy limit
    pure (.rows columns rows)
  | .update table assignments predicate => .mutate (update C mk table assignments predicate)
  | .delete table predicate => .mutate (delete C mk table predicate)
  | .explain inner => .query fun P => explain C mk P.formats inner
  | .begin => .begin
  | .commit => .commit
  | .rollback => .rollback

/-- The names of all tables, alphabetically. -/
def tables : Read (List String) := do
  let pairs ← entries catalogPrefix
  let names ← pairs.mapM fun e => ofExcept (do
    let plain ← openValue C (C.deriveKey mk "catalog") e.2 e.1
    let s ← decodeSchema plain
    pure s.name)
  pure (names.mergeSort fun a b => (compare a b).isLE)

/-! ## Rotation -/

/-- The contents of a table, read through the current master key. -/
structure TableSnapshot where
  schema : TableSchema
  seq : UInt64
  rows : List (UInt64 × Row)

def snapshotTable (name : String) : Read TableSnapshot := do
  let schema ← expectSchema C mk name
  let seq ← loadSeq C mk name
  let rows ← scanRows C mk name
  pure { schema, seq, rows := rows.map fun e => (rowidFromKey e.1, e.2) }

/-- Everything a rotation copies, apart from the audit chain. -/
def snapshot : Read (List TableSnapshot) := do
  let names ← tables C mk
  names.mapM (snapshotTable C mk)

/-- The writes that rebuild a table under the master key `mk`. -/
def rebuildTable (t : TableSnapshot) : List (Unsealed C) :=
  addSchema C mk t.schema :: addSeq C mk t.schema.name t.seq ::
    (t.rows.flatMap (fun e =>
        addRow C mk t.schema.name (C.rowKey mk t.schema.name e.1) e.2 ::
          newEntries C mk t.schema.name t.schema.maintainedColumns e.2 e.1) ++
      t.schema.rangeIndexedColumns.map fun col =>
        addRangeBlob C mk t.schema.name col (sortRangeEntries (rangeEntriesOf col t.rows)))

/-- The audit chain re-sealed under the master key `new`. -/
def carryAudit (new : C.MasterKey) : Read (List (Unsealed C)) := do
  let pairs ← entries auditPrefix
  pairs.mapM fun e => ofExcept (do
    let plain ← openValue C (C.deriveKey mk "audit") e.2 e.1
    pure (.put e.1 (C.deriveKey new "audit") plain))

end

end Ciphra
