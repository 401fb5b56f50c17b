import Ciphra.Engine.Layout
import Ciphra.Foundations.Tracking

/-!
# Well-formed tables

What the slots of a table have to do with each other. `Table.live` is the partial function that a
column is: from row ids to the values that are not `NULL`. The entries of an equality index are its
graph, a range index is a sorted list that tracks it, a primary key is injective and total.

All this is exact where the derived equality on values is equality. It is not on the zeros of REAL,
so `Wf` takes the columns that are claimed to be exact as a parameter; on the other ones a range
index agrees with the rows up to the sign of zero, and nothing is said of equality entries.

The second half says what reading a store that represents well-formed tables returns.
-/

namespace Ciphra

open OrdMap

/-! ## Columns as partial functions -/

/-- The value, unless it is `NULL`. -/
def Value.present (v : Value) : Option Value := if v.isNull then none else some v

theorem Value.present_eq_some {v w : Value} : v.present = some w ↔ v = w ∧ w ≠ .null := by
  cases v <;> simp [Value.present, Value.isNull] <;> rintro rfl <;> simp

theorem Value.present_eq_none {v : Value} : v.present = none ↔ v = .null := by
  cases v <;> simp [Value.present, Value.isNull]

@[simp] theorem Value.present_null : Value.present .null = none := rfl

theorem Value.present_of_ne {v : Value} (h : v ≠ .null) : v.present = some v :=
  Value.present_eq_some.mpr ⟨rfl, h⟩

/-- The values of a column, by row id. -/
def Table.live (T : Table) (col : ℕ) (id : UInt64) : Option Value :=
  (T (.row id)).bind fun row => (row.cell col).present

theorem Table.live_of_row {T : Table} {id : UInt64} {row : Row} (h : T (.row id) = some row)
    (col : ℕ) : T.live col id = (row.cell col).present := by
  rw [Table.live, h, Option.bind_some]

theorem Table.live_of_none {T : Table} {id : UInt64} (h : T (.row id) = none) (col : ℕ) :
    T.live col id = none := by
  rw [Table.live, h, Option.bind_none]

theorem Table.live_eq_some {T : Table} {col : ℕ} {id : UInt64} {v : Value} :
    T.live col id = some v ↔ ∃ row, T (.row id) = some row ∧ row.cell col = v ∧ v ≠ .null := by
  simp only [Table.live, Option.bind_eq_some_iff, Value.present_eq_some]

/-- A value of an index stands for the value of the row. -/
def Agrees (exact : Prop) (b a : Value) : Prop := b.beq a = true ∧ (exact → b = a)

/-! ## The invariant -/

/-- The columns whose indexes are claimed to be exact, by type and primary key. -/
abbrev Exactness := DataType → Bool → Prop

/-- The column carries equality entries. -/
def ColumnDef.maintained (c : ColumnDef) : Bool := c.primaryKey || c.indexed

/-- The column carries some index. -/
def ColumnDef.covered (c : ColumnDef) : Bool := c.maintained || c.rangeIndexed

/-- What the statements promise of a stored schema. -/
structure SchemaOk (t : String) (schema : TableSchema) : Prop where
  name : schema.name = t
  nameBytes : NameBytes schema.name
  columnBytes : ∀ c ∈ schema.columns, NameBytes c.name
  single : ∀ (col : ℕ) (c : ColumnDef), schema.columns[col]? = some c → c.primaryKey = true → schema.pkColumn = some col
  vector : ∀ (col : ℕ) (c : ColumnDef) (d : UInt16), schema.columns[col]? = some c → c.ty = .vector d →
    c.maintained = false ∧ c.rangeIndexed = false
  indexed : ∀ (col : ℕ) (c : ColumnDef), schema.columns[col]? = some c → c.indexed = true → c.primaryKey = false

/-- The value may be stored: its tag is known and its encodings fit their fields. -/
def Storable (L : Lexicon) (v : Value) : Prop := v = .null ∨ v ∈ L.values ∧ v.BlobFits

theorem Storable.blobFits {L : Lexicon} {v : Value}
    (h : Storable L v) : v.BlobFits := by
  rcases h with rfl | ⟨-, h⟩
  · exact ⟨trivial, by simp [encodeRow, encodeValue]⟩
  · exact h

/-- A row of the schema's shape. -/
structure RowOk (L : Lexicon) (schema : TableSchema) (row : Row) : Prop where
  length : row.length = schema.columns.length
  short : row.length < 2 ^ 16
  typed : ∀ col c, schema.columns[col]? = some c → (row.cell col).HasType c.ty
  storable : ∀ v ∈ row, Storable L v

/-- The indexes of a column follow its values. -/
structure ColumnOk (X : Exactness) (c : ColumnDef) (col : ℕ) (T : Table) : Prop where
  entries : ∀ v id, T (.entry col v id) ≠ none → c.maintained = true
  exact : c.maintained = true → X c.ty c.primaryKey →
    ∀ v id, T (.entry col v id) ≠ none ↔ T.live col id = some v
  required : c.primaryKey = true → ∀ id, T (.row id) ≠ none → T.live col id ≠ none
  unique : c.primaryKey = true → X c.ty c.primaryKey →
    ∀ id id' v, T.live col id = some v → T.live col id' = some v → id = id'
  ranges : T (.range col) ≠ none ↔ c.rangeIndexed = true
  tracked : ∀ es, T (.range col) = some es →
    Tracks (Agrees (X c.ty c.primaryKey)) (T.live col) es ∧
      (es.Pairwise fun a b => entryLe a b = true) ∧ ∀ e ∈ es, e.1.HasType c.ty ∧ e.1.BlobFits
  room : ∀ es, T (.range col) = some es → es.length ≤ maxEntries

/-- The contents of a table follow its schema. -/
structure Content (L : Lexicon) (X : Exactness) (schema : TableSchema) (T : Table) :
    Prop where
  rows : ∀ id row, T (.row id) = some row → RowOk L schema row
  below : ∀ id row, T (.row id) = some row → id < (T .seq).getD 0
  columns : ∀ col c, schema.columns[col]? = some c → ColumnOk X c col T
  outside : ∀ col, schema.columns[col]? = none →
    (∀ v id, T (.entry col v id) = none) ∧ T (.range col) = none

/-- A table is empty or has a schema that its contents follow. -/
structure Wf (L : Lexicon) (X : Exactness) (t : String) (T : Table) : Prop where
  empty : T .catalog = none → ∀ s, T s = none
  schema : ∀ schema, T .catalog = some schema → SchemaOk t schema
  content : ∀ schema, T .catalog = some schema → Content L X schema T

theorem wf_empty (L : Lexicon) (X : Exactness) (t : String) :
    Wf L X t fun _ => none where
  empty _ _ := rfl
  schema s h := by cases h
  content s h := by cases h

variable {C : Crypto} {L : Lexicon} {X : Exactness} {mk : C.MasterKey} {m : ByteMap}
  {D : String → Table} {t : String} {T : Table} {s : TableSchema}

theorem TableSchema.mem_maintainedColumns {schema : TableSchema} {col : ℕ} :
    col ∈ schema.maintainedColumns ↔
      ∃ c, schema.columns[col]? = some c ∧ c.maintained = true := TableSchema.mem_columnsWhere

theorem TableSchema.mem_rangeIndexedColumns {schema : TableSchema} {col : ℕ} :
    col ∈ schema.rangeIndexedColumns ↔
      ∃ c, schema.columns[col]? = some c ∧ c.rangeIndexed = true := TableSchema.mem_columnsWhere

theorem lt_length_of_getElem? {α : Type} {l : List α} {i : ℕ} {a : α} (h : l[i]? = some a) :
    i < l.length := (List.getElem?_eq_some_iff.mp h).choose

/-- Positions of a schema that fits can stand in a key. -/
theorem SchemaFits.col_lt (h : SchemaFits s) {col : ℕ} {c : ColumnDef}
    (hc : s.columns[col]? = some c) : col < 2 ^ 16 := (lt_length_of_getElem? hc).trans h.ncols

theorem TableSchema.pkColumn_eq_some {schema : TableSchema} {pk : ℕ}
    (h : schema.pkColumn = some pk) : ∃ c, schema.columns[pk]? = some c ∧ c.primaryKey = true := by
  obtain ⟨hlt, hp, -⟩ := List.findIdx?_eq_some_iff_getElem.mp h
  exact ⟨_, List.getElem?_eq_getElem hlt, hp⟩

theorem Content.fits (h : Content L X s T) : RowsFit T := by
  intro id row hrow
  have hok := h.rows id row hrow
  refine ⟨hok.short, fun v hv => ?_⟩
  rcases hok.storable v hv with rfl | ⟨-, hfit⟩
  · trivial
  · exact hfit.1

theorem Row.cell_mem_or_null (row : Row) (col : ℕ) : row.cell col ∈ row ∨ row.cell col = .null := by
  rw [Row.cell, List.getD_eq_getElem?_getD]
  cases h : row[col]? with
  | none => exact Or.inr rfl
  | some v => exact Or.inl (List.mem_of_getElem? h)

theorem RowOk.storable_cell {row : Row} (h : RowOk L s row) (col : ℕ) :
    Storable L (row.cell col) := by
  rcases row.cell_mem_or_null col with hmem | hnull
  · exact h.storable _ hmem
  · exact Or.inl hnull

/-- Live values are typed and fit. -/
theorem Content.live (h : Content L X s T) {col : ℕ} {c : ColumnDef}
    (hc : s.columns[col]? = some c) {id : UInt64} {v : Value} (hv : T.live col id = some v) :
    v.HasType c.ty ∧ v ∈ L.values ∧ v.BlobFits := by
  obtain ⟨row, hrow, rfl, hne⟩ := Table.live_eq_some.mp hv
  have hok := h.rows id row hrow
  exact ⟨hok.typed col c hc, (hok.storable_cell col).resolve_left hne⟩

/-- Stored range indexes are read back. -/
theorem Content.decodeRangeBlob (h : Content L X s T) {col : ℕ} {es : List (Value × UInt64)}
    (he : T (.range col) = some es) :
    Ciphra.decodeRangeBlob (encodeRangeBlob es) = .ok es := by
  cases hc : s.columns[col]? with
  | none =>
    rw [(h.outside col hc).2] at he
    cases he
  | some c =>
    obtain ⟨-, -, hes⟩ := (h.columns col c hc).tracked es he
    exact decodeRangeBlob_encodeRangeBlob ((h.columns col c hc).room es he)
      fun e hmem => (hes e hmem).2

/-! ## Literals -/

/-- The values that a literal can stand for: `NULL` apart, an integer is also a real number. -/
def Literal.values : Literal → List Value
  | .null => []
  | .int n => [.int n, .real (F64.ofInt n)]
  | .real x => [.real x]
  | .text s => [.text s]
  | .vector v => [.vector v]

theorem literalToValue_mem (l : Literal) : literalToValue l = .null ∨ literalToValue l ∈ l.values := by
  cases l <;> simp [literalToValue, Literal.values]

theorem coerce_mem {l : Literal} {c : ColumnDef} {v : Value} (h : coerce l c = .ok v) :
    v = .null ∨ v ∈ l.values := by
  cases hty : c.ty <;> cases l <;> simp only [coerce, hty] at h <;> try cases h
  all_goals try simp [Literal.values]
  split at h <;> cases h
  exact Or.inr rfl

/-- The literals a statement stores. -/
def Statement.stored : Statement → List Literal
  | .insert _ _ rows => rows.flatten
  | .update _ assignments _ => assignments.map Assignment.value
  | _ => []

/-- The statement mentions only names and values of the lexicon. -/
structure Statement.Within (L : Lexicon) (st : Statement) : Prop where
  table : ∀ t ∈ st.table, t ∈ L.names
  literals : ∀ l ∈ st.literals, ∀ v ∈ l.values, v ∈ L.values

/-- The values the statement stores fit the length fields of rows and range indexes. -/
def Statement.Fits (st : Statement) : Prop := ∀ l ∈ st.stored, ∀ v ∈ l.values, v.BlobFits

/-! ## Reading -/

theorem rowidFromKey_rowKey (t : String) (id : UInt64) : rowidFromKey (C.rowKey mk t id) = id :=
  rowidFromKey_append _ id

/-- Rows with their storage keys. -/
def keyed (C : Crypto) (mk : C.MasterKey) (t : String) (es : List (UInt64 × Row)) :
    List (Bytes × Row) := es.map fun e => (C.rowKey mk t e.1, e.2)

/-- A key says which row it is the key of. -/
theorem map_rowid_keyed (t : String) (es : List (UInt64 × Row)) :
    (keyed C mk t es).map (fun e => (rowidFromKey e.1, e.2)) = es := by
  rw [keyed, List.map_map]
  refine (List.map_congr_left fun e _ => ?_).trans (List.map_id es)
  exact Prod.ext (rowidFromKey_rowKey t e.1) rfl

/-- Rows of the table, each once. -/
structure Picked (T : Table) (es : List (UInt64 × Row)) : Prop where
  nodup : (es.map Prod.fst).Nodup
  stored : ∀ e ∈ es, T (.row e.1) = some e.2

/-- A schema that is read is the stored one. -/
theorem Rep.schema_of_run (h : Rep L mk m D) (ht : t ∈ L.names) (hwf : Wf L X t (D t))
    (hrun : (schema C mk t).run m.reader = .ok (some s)) :
    D t .catalog = some s ∧ SchemaFits s := by
  cases hD : D t .catalog with
  | none =>
    rw [h.run_schema_none ht hD] at hrun
    cases hrun
  | some s' =>
    rw [h.run_schema_some ht hD] at hrun
    obtain ⟨out, hdecode, hout⟩ := bind_eq_ok.mp hrun
    cases hout
    have hok := hwf.schema s' hD
    obtain ⟨rfl, hfits⟩ := decodeSchema_eq_ok hok.nameBytes hok.columnBytes hdecode
    exact ⟨rfl, hfits⟩

theorem Rep.expectSchema_of_run (h : Rep L mk m D) (ht : t ∈ L.names) (hwf : Wf L X t (D t))
    (hrun : (expectSchema C mk t).run m.reader = .ok s) :
    D t .catalog = some s ∧ SchemaFits s := by
  rw [expectSchema, Query.run_bind_eq_ok] at hrun
  obtain ⟨found, hfound, hrun⟩ := hrun
  cases found with
  | none => cases hrun
  | some s' =>
    cases hrun
    exact h.schema_of_run ht hwf hfound

/-- A full scan returns every row once. -/
theorem Rep.run_scanRows (h : Rep L mk m D) (ht : t ∈ L.names) (hfit : RowsFit (D t)) :
    ∃ es, Picked (D t) es ∧ (∀ id row, D t (.row id) = some row → (id, row) ∈ es) ∧
      (scanRows C mk t).run m.reader = .ok (keyed C mk t es) := by
  obtain ⟨slots, hnodup, hslots, hscan⟩ := h.scan_rows ht
  have hex : ∀ slot ∈ slots, ∃ e : {e : UInt64 × Row // D t (.row e.1) = some e.2},
      Slot.row e.1.1 = slot := by
    intro slot hslot
    obtain ⟨⟨id, rfl⟩, hne⟩ := (hslots slot).mp hslot
    obtain ⟨row, hrow⟩ := Option.ne_none_iff_exists'.mp hne
    exact ⟨⟨(id, row), hrow⟩, rfl⟩
  obtain ⟨es, rfl⟩ := exists_map_eq hex
  refine ⟨es.map Subtype.val, ⟨?_, ?_⟩, ?_, ?_⟩
  · rw [List.map_map]
    refine List.Nodup.of_map Slot.row ?_
    rw [List.map_map]
    exact hnodup
  · intro e he
    obtain ⟨e', -, rfl⟩ := List.mem_map.mp he
    exact e'.2
  · intro id row hrow
    obtain ⟨e, he, hid⟩ := List.mem_map.mp ((hslots (.row id)).mpr ⟨⟨id, rfl⟩, by
      rw [hrow]; exact Option.some_ne_none row⟩)
    refine List.mem_map.mpr ⟨e, he, ?_⟩
    have hid : e.1.1 = id := Slot.row.inj hid
    have hrow' := e.2
    rw [hid, hrow] at hrow'
    exact Prod.ext hid (Option.some.inj hrow').symm
  · have hpairs : m.reader.scan (C.rowPrefix mk t) = es.map fun e =>
        (C.rowKey mk t e.1.1, (m[C.rowKey mk t e.1.1]?).getD []) := by
      change m.scanPrefix _ = _
      rw [hscan, List.map_map]
      rfl
    simp only [scanRows, Query.run_bind, Query.run_entries, ok_bind, Query.run_mapM,
      Query.run_ofExcept, hpairs, keyed, List.mapM_map, List.map_map]
    refine mapM_ok fun e _ => ?_
    obtain ⟨sealed, hget, hread⟩ := h.readRow ht hfit e.2
    simp only [hget, Option.getD_some, hread, ok_bind, Function.comp_apply]
    rfl

/-- The ids an equality index holds for a value. -/
theorem Rep.run_indexRowids (h : Rep L mk m D) (ht : t ∈ L.names) {col : ℕ} (hcol : col < 2 ^ 16)
    {v : Value} (hv : v ∈ L.values) :
    ∃ ids : List UInt64, ids.Nodup ∧ (∀ id, id ∈ ids ↔ D t (.entry col v id) ≠ none) ∧
      (indexRowids C mk t col v).run m.reader = .ok ids := by
  obtain ⟨slots, hnodup, hslots, hscan⟩ := h.scan_value ht hcol hv
  have hex : ∀ slot ∈ slots, ∃ id, Slot.entry col v id = slot := by
    intro slot hslot
    obtain ⟨⟨id, rfl⟩, -⟩ := (hslots slot).mp hslot
    exact ⟨id, rfl⟩
  obtain ⟨ids, rfl⟩ := exists_map_eq hex
  have hmem : ∀ id, id ∈ ids ↔ D t (.entry col v id) ≠ none := by
    intro id
    have := hslots (.entry col v id)
    rw [List.mem_map_of_injective fun a b hab => (Slot.entry.inj hab).2.2] at this
    exact this.trans ⟨fun hx => hx.2, fun hx => ⟨⟨id, rfl⟩, hx⟩⟩
  refine ⟨ids, List.Nodup.of_map _ hnodup, hmem, ?_⟩
  have hpairs : m.reader.scan (C.indexValuePrefix mk t col v) = ids.map fun id =>
      (C.indexKey mk t col v id, (m[C.indexKey mk t col v id]?).getD []) := by
    change m.scanPrefix _ = _
    rw [hscan, List.map_map]
    rfl
  simp only [indexRowids, Query.run_bind, Query.run_entries, ok_bind, Query.run_mapM,
    Query.run_ofExcept, hpairs, List.mapM_map]
  refine (mapM_ok (g := id) fun id hid => ?_).trans (by rw [List.map_id])
  obtain ⟨x, hx⟩ := Option.ne_none_iff_exists'.mp ((hmem id).mp hid)
  obtain ⟨sealed, hget, hopen⟩ := h.getElem?_some ht hx
  have hget : m[C.indexKey mk t col v id]? = some sealed := hget
  have hopen : openValue C (C.tableKey mk t) sealed (C.indexKey mk t col v id) = .ok [] := hopen
  simp only [Function.comp_apply, hget, Option.getD_some, hopen, ok_bind]
  exact congrArg Except.ok (rowidFromKey_append _ id)

/-- The rows with the given ids that exist. -/
def Table.rowsAt (T : Table) (ids : List UInt64) : List (UInt64 × Row) :=
  ids.filterMap fun id => (T (.row id)).map fun row => (id, row)

theorem Table.mem_rowsAt {T : Table} {ids : List UInt64} {e : UInt64 × Row} :
    e ∈ T.rowsAt ids ↔ e.1 ∈ ids ∧ T (.row e.1) = some e.2 := by
  obtain ⟨id, row⟩ := e
  simp only [Table.rowsAt, List.mem_filterMap, Option.map_eq_some_iff, Prod.mk.injEq]
  constructor
  · rintro ⟨id, hid, row, hrow, rfl, rfl⟩
    exact ⟨hid, hrow⟩
  · rintro ⟨hid, hrow⟩
    exact ⟨id, hid, row, hrow, rfl, rfl⟩

theorem Table.picked_rowsAt (T : Table) {ids : List UInt64} (h : ids.Nodup) :
    Picked T (T.rowsAt ids) where
  nodup := by
    have hmap : (T.rowsAt ids).map Prod.fst = ids.filter fun id => (T (.row id)).isSome := by
      rw [Table.rowsAt, List.map_filterMap, ← List.filterMap_eq_filter]
      refine List.filterMap_congr fun id _ => ?_
      cases hrow : T (.row id) <;> simp [Option.guard, hrow]
    rw [hmap]
    exact h.filter _
  stored e he := (Table.mem_rowsAt.mp he).2

theorem Rep.run_fetchRows_keyed (h : Rep L mk m D) (ht : t ∈ L.names) (hfit : RowsFit (D t))
    (ids : List UInt64) :
    (fetchRows C mk t ids).run m.reader = .ok (keyed C mk t ((D t).rowsAt ids)) := by
  rw [h.run_fetchRows ht hfit, keyed, Table.rowsAt, List.map_filterMap]
  refine congrArg Except.ok (List.filterMap_congr fun id _ => ?_)
  cases D t (.row id) <;> rfl

/-- The column an equality path uses carries entries. -/
theorem indexedEqValue_eq_some {f : CompiledExpr} {col : ℕ} {v : Value}
    (h : indexedEqValue f s = some (col, v)) :
    (∃ c, s.columns[col]? = some c ∧ c.maintained = true) ∧ eqValueFor col f = some v := by
  unfold indexedEqValue at h
  split at h
  · rename_i r hr
    cases h
    obtain ⟨pk, hpk, hv⟩ := Option.bind_eq_some_iff.mp hr
    obtain ⟨w, hw, he⟩ := Option.map_eq_some_iff.mp hv
    cases he
    obtain ⟨c, hc, hkey⟩ := TableSchema.pkColumn_eq_some hpk
    exact ⟨⟨c, hc, by rw [ColumnDef.maintained, hkey, Bool.true_or]⟩, hw⟩
  · obtain ⟨hmem, hv⟩ := firstColumn_eq_some h
    obtain ⟨c, hc, hi⟩ := TableSchema.mem_columnsWhere.mp hmem
    exact ⟨⟨c, hc, by rw [ColumnDef.maintained, hi, Bool.or_true]⟩, hv⟩

/-- The column a range path uses carries a range index. -/
theorem rangeIndexedPred_eq_some {f : CompiledExpr} {col : ℕ} {op : CmpOp} {v : Value}
    (h : rangeIndexedPred f s = some (col, op, v)) :
    (∃ c, s.columns[col]? = some c ∧ c.rangeIndexed = true) ∧
      rangePredValue col f = some (op, v) := by
  obtain ⟨hmem, hv⟩ := firstColumn_eq_some h
  exact ⟨TableSchema.mem_rangeIndexedColumns.mp hmem, hv⟩

/-- The access path of the filter leads to the row id. -/
def Candidate (T : Table) (schema : TableSchema) (filter : Option CompiledExpr) (id : UInt64) :
    Prop :=
  match filter with
  | none => True
  | some f =>
    match indexedEqValue f schema with
    | some (col, v) => T (.entry col v id) ≠ none
    | none =>
      match rangeIndexedPred f schema with
      | some (col, op, v) =>
        ∃ es w, T (.range col) = some es ∧ (w, id) ∈ es ∧ op.holds (compareValues w v) = true
      | none => True

/-- The values an equality path looks up are known. -/
def FilterKnown (L : Lexicon) (s : TableSchema) (filter : Option CompiledExpr) : Prop :=
  ∀ f ∈ filter, ∀ col v, indexedEqValue f s = some (col, v) → v ∈ L.values

theorem eqValueFor_literal {p : Expr} {f : CompiledExpr} (h : compileExpr s p = .ok f) {col : ℕ}
    {v : Value} (hv : eqValueFor col f = some v) : ∃ l ∈ p.literals, v = literalToValue l := by
  induction p generalizing f with
  | compare column op value =>
    obtain ⟨i, -, hf⟩ := bind_eq_ok.mp h
    cases hf
    cases op with
    | eq =>
      rw [eqValueFor] at hv
      split at hv
      · cases hv
        exact ⟨value, List.mem_singleton.mpr rfl, rfl⟩
      · cases hv
    | ne | lt | gt | le | ge => cases hv
  | isNull column negated =>
    obtain ⟨i, -, hf⟩ := bind_eq_ok.mp h
    cases hf
    cases hv
  | not inner ih =>
    obtain ⟨f', -, hf⟩ := bind_eq_ok.mp h
    cases hf
    cases hv
  | and a b iha ihb =>
    obtain ⟨fa, ha, h⟩ := bind_eq_ok.mp h
    obtain ⟨fb, hb, hf⟩ := bind_eq_ok.mp h
    cases hf
    rw [eqValueFor, Option.or_eq_some_iff] at hv
    rcases hv with hv | ⟨-, hv⟩
    · obtain ⟨l, hl, he⟩ := iha ha hv
      exact ⟨l, List.mem_append_left _ hl, he⟩
    · obtain ⟨l, hl, he⟩ := ihb hb hv
      exact ⟨l, List.mem_append_right _ hl, he⟩
  | or a b iha ihb =>
    obtain ⟨fa, -, h⟩ := bind_eq_ok.mp h
    obtain ⟨fb, -, hf⟩ := bind_eq_ok.mp h
    cases hf
    cases hv

/-- A compiled predicate looks up its literals only. -/
theorem filterKnown_compiled {predicate : Option Expr} {filter : Option CompiledExpr}
    (h : predicate.mapM (compileExpr s) = .ok filter)
    (hl : ∀ l ∈ (predicate.map Expr.literals).getD [], ∀ v ∈ l.values, v ∈ L.values) :
    FilterKnown L s filter := by
  intro f hf col v hpath
  cases predicate with
  | none =>
    cases h
    cases hf
  | some p =>
    obtain ⟨f', hc, he⟩ : ∃ f', compileExpr s p = .ok f' ∧ some f' = filter := by
      rw [Option.mapM_some] at h
      obtain ⟨f', hf', he⟩ := bind_eq_ok.mp h
      exact ⟨f', hf', Except.ok.inj he⟩
    subst he
    cases hf
    obtain ⟨-, hv⟩ := indexedEqValue_eq_some hpath
    obtain ⟨l, hmem, rfl⟩ := eqValueFor_literal hc hv
    exact hl l hmem _ ((literalToValue_mem l).resolve_left (eqValueFor_not_null hv))

/-- **The candidate rows are those the access path leads to, each once.** -/
theorem Rep.run_candidateRows (h : Rep L mk m D) (ht : t ∈ L.names) (hc : Content L X s (D t))
    (hs : SchemaFits s) {filter : Option CompiledExpr} (hf : FilterKnown L s filter) :
    ∃ es, Picked (D t) es ∧
      (∀ id row, (id, row) ∈ es ↔ D t (.row id) = some row ∧ Candidate (D t) s filter id) ∧
      (candidateRows C mk t s filter).run m.reader = .ok (keyed C mk t es) := by
  obtain ⟨all, hall, hevery, hscan⟩ := h.run_scanRows ht hc.fits
  have hfull : ∀ id row, (id, row) ∈ all ↔ D t (.row id) = some row ∧ True :=
    fun id row => ⟨fun he => ⟨hall.stored _ he, trivial⟩, fun he => hevery id row he.1⟩
  cases filter with
  | none => exact ⟨all, hall, hfull, hscan⟩
  | some f =>
    rcases hpath : indexedEqValue f s with _ | ⟨col, v⟩
    · rcases hrange : rangeIndexedPred f s with _ | ⟨col, op, v⟩
      · simp only [candidateRows, Candidate, hpath, hrange]
        refine ⟨all, hall, hfull, ?_⟩
        simp only [Query.run_bind, hscan, ok_bind, Query.run_tell, Query.run_pure]
      · obtain ⟨⟨c, hcol, hranged⟩, -⟩ := rangeIndexedPred_eq_some hrange
        have hok := hc.columns col c hcol
        obtain ⟨es, hes⟩ := Option.ne_none_iff_exists'.mp (hok.ranges.mpr hranged)
        obtain ⟨htracks, -, -⟩ := hok.tracked es hes
        have hrun := h.run_loadRangeIndex ht (hs.col_lt hcol) fun _ he => hc.decodeRangeBlob he
        rw [hes, Option.getD_some] at hrun
        have hnodup : ((es.filter fun e => op.holds (compareValues e.1 v)).map Prod.snd).Nodup :=
          htracks.nodup.sublist ((List.filter_sublist).map _)
        simp only [candidateRows, Candidate, hpath, hrange]
        refine ⟨(D t).rowsAt _, (D t).picked_rowsAt hnodup, fun id row => ?_, ?_⟩
        · rw [Table.mem_rowsAt, and_comm]
          refine and_congr_right fun _ => ?_
          simp only [List.mem_map, List.mem_filter, Prod.exists, exists_eq_right]
          constructor
          · rintro ⟨w, hmem, hop⟩
            exact ⟨es, w, hes, hmem, hop⟩
          · rintro ⟨es', w, hes', hmem, hop⟩
            rw [hes] at hes'
            cases hes'
            exact ⟨w, hmem, hop⟩
        · simp only [Query.run_bind, hrun, ok_bind, h.run_fetchRows_keyed ht hc.fits,
            Query.run_tell, Query.run_pure]
    · obtain ⟨⟨c, hcol, -⟩, -⟩ := indexedEqValue_eq_some hpath
      obtain ⟨ids, hnodup, hids, hrun⟩ :=
        h.run_indexRowids ht (hs.col_lt hcol) (hf f rfl col v hpath)
      simp only [candidateRows, Candidate, hpath]
      refine ⟨(D t).rowsAt ids, (D t).picked_rowsAt hnodup, fun id row => ?_, ?_⟩
      · rw [Table.mem_rowsAt, hids]
        exact and_comm
      · simp only [Query.run_bind, hrun, ok_bind, h.run_fetchRows_keyed ht hc.fits, Query.run_tell,
          Query.run_pure]

/-- The check succeeds with a positive answer. -/
def passes {ε : Type} : Except ε Bool → Bool
  | .ok b => b
  | .error _ => false

theorem passes_eq_true {ε : Type} {x : Except ε Bool} : passes x = true ↔ x = .ok true := by
  rcases x with e | ⟨_ | _⟩ <;> simp [passes]

/-- A loop of checks keeps the elements that pass. -/
theorem filter_zip_of_mapM {ε α : Type} {p : α → Except ε Bool} {l : List α} {keep : List Bool}
    (h : l.mapM p = .ok keep) :
    (∀ a ∈ l, ∃ b, p a = .ok b) ∧ ((l.zip keep).filter Prod.snd).map Prod.fst =
      l.filter fun a => passes (p a) := by
  induction l generalizing keep with
  | nil => exact ⟨by simp, by simp⟩
  | cons a l ih =>
    rw [List.mapM_cons] at h
    obtain ⟨b, hb, h⟩ := bind_eq_ok.mp h
    obtain ⟨rest, hrest, h⟩ := bind_eq_ok.mp h
    cases h
    obtain ⟨hall, heq⟩ := ih hrest
    refine ⟨List.forall_mem_cons.mpr ⟨⟨b, hb⟩, hall⟩, ?_⟩
    rw [List.zip_cons_cons, List.filter_cons, List.filter_cons, hb]
    cases b with
    | true => simp only [passes, if_true, List.map_cons, heq]
    | false => simp only [passes, Bool.false_eq_true, if_false, heq]

/-- **The rows a filtered statement works on**: the candidates that satisfy the whole filter. -/
theorem Rep.matchingRows_of_run (h : Rep L mk m D) (ht : t ∈ L.names) (hc : Content L X s (D t))
    (hs : SchemaFits s) {filter : Option CompiledExpr} (hf : FilterKnown L s filter)
    {rows : List (Bytes × Row)} (hrun : (matchingRows C mk t s filter).run m.reader = .ok rows) :
    ∃ es, Picked (D t) es ∧ (∀ id row, (id, row) ∈ es ↔
        D t (.row id) = some row ∧ Candidate (D t) s filter id ∧
          filterMatches filter row = .ok true) ∧
      rows = keyed C mk t es := by
  obtain ⟨es, hpicked, hmem, hcand⟩ := h.run_candidateRows ht hc hs hf
  simp only [matchingRows, Query.run_bind, hcand, ok_bind, Query.run_mapM, Query.run_ofExcept,
    bind_eq_ok, Query.run_pure] at hrun
  obtain ⟨keep, hkeep, hrows⟩ := hrun
  cases hrows
  obtain ⟨hall, heq⟩ := filter_zip_of_mapM hkeep
  refine ⟨es.filter fun e => passes (filterMatches filter e.2), ⟨?_, ?_⟩, fun id row => ?_, ?_⟩
  · exact hpicked.nodup.sublist ((List.filter_sublist).map _)
  · exact fun e he => hpicked.stored e (List.mem_filter.mp he).1
  · rw [List.mem_filter, hmem, and_assoc, passes_eq_true]
  · rw [heq, keyed, keyed, List.filter_map]
    rfl

end Ciphra
