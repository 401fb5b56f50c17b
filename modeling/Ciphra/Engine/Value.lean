import Ciphra.Sql.Ast
import Ciphra.Storage.Wal

/-!
# Values, schemas and errors of the engine

Two relations on values run through the engine and differ on floating-point zeros: the derived
equality `Value.beq`, which decides whether an `UPDATE` changes a column, and the order
`compareValues`, which sorts and compares. `Value.beq_iff_eq` says where the first one is equality,
`Value.compareValues_eq_keyCompare` that the second one is a total order within a column.
-/

namespace Ciphra

/-- A single value in a row. -/
inductive Value
  | null
  | int (n : Int64)
  | real (x : F64)
  | text (s : String)
  | vector (v : List F32)
  deriving DecidableEq, Repr

abbrev Row := List Value

/-- Table schema as stored in the catalog. -/
structure TableSchema where
  name : String
  columns : List ColumnDef
  deriving DecidableEq, Repr

/-- A name in an error message, in quotes. Names are identifiers, so nothing needs escaping. -/
def quoted (name : String) : String := "\"" ++ name ++ "\""

inductive EngineError
  | storage (e : StorageError)
  /-- Decryption failed: wrong key, tampered data, or mismatched associated data. -/
  | crypto
  /-- The passphrase does not match the one this database was created with. -/
  | badPassphrase
  /-- Schema-level problem: unknown table or column, duplicate table, etc. -/
  | schema (message : String)
  /-- Duplicate or NULL primary key. -/
  | constraint (message : String)
  /-- The audit chain failed verification. -/
  | audit (message : String)
  | type (message : String)
  /-- A literal that does not fit its column: "column .. is .., got ..". -/
  | coercion (column : String) (want : DataType) (got : Literal)
  | corrupt (message : String)
  | io
  /-- The call panics. -/
  | panicked
  deriving DecidableEq, Repr

/-- Result of executing one statement. -/
inductive QueryResult
  | created (name : String)
  | dropped (name : String)
  | indexCreated (table column : String) (range : Bool)
  | indexDropped (table column : String) (range : Bool)
  | inserted (count : ℕ)
  | updated (count : ℕ)
  | deleted (count : ℕ)
  | rows (columns : List String) (rows : List Row)
  | begin
  | committed
  | rolledBack
  deriving DecidableEq, Repr

namespace Value

/-- The value is `NULL`. -/
def isNull : Value → Bool
  | .null => true
  | _ => false

@[simp] theorem isNull_iff (v : Value) : v.isNull = true ↔ v = .null := by
  cases v <;> simp [isNull]

/-- The derived equality: floating-point numbers by value, so `0.0` and `-0.0` are equal. -/
def beq : Value → Value → Bool
  | .null, .null => true
  | .int a, .int b => a == b
  | .real x, .real y => x.ieeeEq y
  | .text s, .text t => s == t
  | .vector v, .vector w => v.length == w.length && (v.zip w).all fun e => e.1.ieeeEq e.2
  | _, _ => false

theorem beq_null_left (v : Value) : beq .null v = v.isNull := by cases v <;> rfl

theorem beq_null_right (v : Value) : beq v .null = v.isNull := by cases v <;> rfl

end Value

/-- A literal as a value, without regard to a column. -/
def literalToValue : Literal → Value
  | .null => .null
  | .int n => .int n
  | .real x => .real x
  | .text s => .text s
  | .vector v => .vector v

/-- Convert a literal to a value of the column's type, or fail with a type error. -/
def coerce (literal : Literal) (column : ColumnDef) : Except EngineError Value :=
  match literal, column.ty with
  | .null, _ => .ok .null
  | .int n, .int => .ok (.int n)
  | .real x, .real => .ok (.real x)
  -- an integer literal widens into a REAL column
  | .int n, .real => .ok (.real (F64.ofInt n))
  | .text s, .text => .ok (.text s)
  | .vector v, .vector dim =>
    if v.length ≠ dim.toNat then
      .error (.type ("column " ++ quoted column.name ++ " is VECTOR(" ++ toString dim.toNat ++
        "), got a " ++ toString v.length ++ "-dimensional vector"))
    else .ok (.vector v)
  | got, want => .error (.coercion column.name want got)

/-- Bytes of a vector, for its arbitrary but deterministic order. -/
def vectorBytes (v : List F32) : Bytes := v.flatMap fun x => leBytes 4 x.bits.toNat

/-- Total order for sorting within one (typed) column: NULLs sort first. -/
def compareValues : Value → Value → Ordering
  | .null, .null => .eq
  | .null, _ => .lt
  | _, .null => .gt
  | .int x, .int y => compare x y
  | .real x, .real y => x.totalCmp y
  -- an INT literal against a REAL column, or vice versa: compare as floating-point numbers
  | .int x, .real y => (F64.ofInt x).totalCmp y
  | .real x, .int y => x.totalCmp (F64.ofInt y)
  | .text x, .text y => compare x y
  | .vector x, .vector y => compare (vectorBytes x) (vectorBytes y)
  | .int _, _ | .real _, _ => .lt
  | _, .int _ | _, .real _ => .gt
  | .text _, _ => .lt
  | _, .text _ => .gt

/-- The value of a column in a row. Every stored row has a value for every column of its table. -/
def Row.cell (row : Row) (col : ℕ) : Value := row.getD col .null

namespace TableSchema

def columnIndex (schema : TableSchema) (name : String) : Option ℕ :=
  schema.columns.findIdx? fun c => c.name == name

/-- Index of the `PRIMARY KEY` column, if the table declares one. -/
def pkColumn (schema : TableSchema) : Option ℕ := schema.columns.findIdx? ColumnDef.primaryKey

/-- Positions of the columns with a property, in order. -/
def columnsWhere (schema : TableSchema) (p : ColumnDef → Bool) : List ℕ :=
  (List.range schema.columns.length).filter fun i => (schema.columns[i]?.map p).getD false

/-- Columns whose index entries must be maintained on every mutation. -/
def maintainedColumns (schema : TableSchema) : List ℕ :=
  schema.columnsWhere fun c => c.primaryKey || c.indexed

/-- Columns carrying a sealed range index. -/
def rangeIndexedColumns (schema : TableSchema) : List ℕ := schema.columnsWhere ColumnDef.rangeIndexed

theorem mem_columnsWhere {schema : TableSchema} {p : ColumnDef → Bool} {i : ℕ} :
    i ∈ schema.columnsWhere p ↔ ∃ c, schema.columns[i]? = some c ∧ p c = true := by
  simp only [columnsWhere, List.mem_filter, List.mem_range]
  constructor
  · rintro ⟨hlt, hp⟩
    rw [List.getElem?_eq_getElem hlt] at hp ⊢
    exact ⟨_, rfl, hp⟩
  · rintro ⟨c, hc, hp⟩
    obtain ⟨hlt, -⟩ := List.getElem?_eq_some_iff.mp hc
    exact ⟨hlt, by simp [hc, hp]⟩

end TableSchema

/-- Sort range-blob entries by value, then row id. -/
def sortRangeEntries (entries : List (Value × UInt64)) : List (Value × UInt64) :=
  entries.mergeSort fun a b => ((compareValues a.1 b.1).then (compare a.2 b.2)).isLE

/-! ## Typed values -/

namespace Value

/-- The value may stand in a column of the type: it is `NULL` or of the type, and no NaN. -/
def HasType : Value → DataType → Prop
  | .null, _ => True
  | .int _, .int => True
  | .real x, .real => x.isNaN = false
  | .text _, .text => True
  | .vector v, .vector dim => v.length = dim.toNat
  | _, _ => False

theorem hasType_null (ty : DataType) : HasType .null ty := trivial

/-- What a literal becomes in a column has the column's type. -/
theorem hasType_coerce {l : Literal} (hl : l.Lexed) {c : ColumnDef} {v : Value}
    (h : coerce l c = .ok v) : v.HasType c.ty := by
  cases hty : c.ty <;> cases l <;> simp only [coerce, hty] at h <;>
    first
    | cases h
    | skip
  all_goals try exact trivial
  · exact F64.isNaN_ofInt _
  · exact hl
  · split at h
    · cases h
    · rename_i hlen
      cases h
      exact not_not.mp hlen

/-- The values whose derived equality is equality: all but real numbers and vectors. -/
theorem beq_iff_eq {v w : Value} {ty : DataType} (hv : v.HasType ty) (hty : ty = .int ∨ ty = .text) :
    v.beq w = true ↔ v = w := by
  rcases hty with rfl | rfl <;> cases v <;> cases w <;> simp_all [beq, HasType]

theorem beq_self {v : Value} {ty : DataType} (hv : v.HasType ty) (hty : ∀ d, ty ≠ .vector d) :
    v.beq v = true := by
  cases v with
  | null => rfl
  | int n => simp [beq]
  | real x =>
    cases ty with
    | real => exact F64.ieeeEq_self hv
    | int | text | vector d => cases hv
  | text s => simp [beq]
  | vector v =>
    cases ty with
    | vector d => exact absurd rfl (hty d)
    | int | text | real => cases hv

theorem beq_trans {u v w : Value} (hu : ∀ x, u ≠ .vector x) (h : u.beq v = true)
    (h' : v.beq w = true) : u.beq w = true := by
  cases u <;> cases v <;> cases w <;> simp_all [beq]
  exact F64.ieeeEq_trans h h'

/-! ## The order within a column -/

/-- The type of a value, as a number. -/
def rank : Value → ℕ
  | .null => 0
  | .int _ => 1
  | .real _ => 2
  | .text _ => 3
  | .vector _ => 4

/-- The position of a number among the numbers of its type. -/
def position : Value → ℤ
  | .int n => n.toInt
  | .real x => x.totalKey
  | _ => 0

def chars : Value → String
  | .text s => s
  | _ => ""

def bytes : Value → Bytes
  | .vector v => vectorBytes v
  | _ => []

/-- A total order of all values that is `compareValues` within a column. -/
def keyCompare : Value → Value → Ordering :=
  compareLex (compareOn rank)
    (compareLex (compareOn position) (compareLex (compareOn chars) (compareOn bytes)))

instance : Std.TransCmp keyCompare := by
  unfold keyCompare
  infer_instance

theorem compare_int64 (a b : Int64) : compare a b = compare a.toInt b.toInt := by
  change compareOfLessAndEq a b = compareOfLessAndEq a.toInt b.toInt
  simp only [compareOfLessAndEq, Int64.lt_iff_toInt_lt, ← Int64.toInt_inj]

/-- The value may stand in a column of the type, any bit pattern being a real number. -/
def OfType : Value → DataType → Prop
  | .null, _ => True
  | .int _, .int => True
  | .real _, .real => True
  | .text _, .text => True
  | .vector v, .vector dim => v.length = dim.toNat
  | _, _ => False

theorem HasType.ofType {v : Value} {ty : DataType} (h : v.HasType ty) : v.OfType ty := by
  cases v <;> cases ty <;> first | exact trivial | exact h

/-- Within a column, the order of values is a total order. -/
theorem OfType.compareValues {v w : Value} {ty : DataType} (hv : v.OfType ty)
    (hw : w.OfType ty) : compareValues v w = keyCompare v w := by
  cases v <;> cases w <;> cases ty <;>
    first
    | exact hv.elim
    | exact hw.elim
    | simp [Ciphra.compareValues, keyCompare, compareLex, compareOn, rank, position, chars, bytes,
        F64.totalCmp, compare_int64]
  all_goals rfl

theorem compareValues_eq_keyCompare {v w : Value} {ty : DataType} (hv : v.HasType ty)
    (hw : w.HasType ty) : compareValues v w = keyCompare v w :=
  hv.ofType.compareValues hw.ofType

theorem vectorBytes_inj {v w : List F32} (hlen : v.length = w.length)
    (h : vectorBytes v = vectorBytes w) : v = w := by
  induction v generalizing w with
  | nil => exact (List.length_eq_zero_iff.mp hlen.symm).symm
  | cons x v ih =>
    obtain ⟨y, w, rfl⟩ := List.exists_cons_of_length_pos (l := w) (by simp at hlen; omega)
    simp only [vectorBytes, List.flatMap_cons] at h
    obtain ⟨hxy, hvw⟩ := List.append_inj h (by simp)
    have hbits : x.bits = y.bits :=
      UInt32.toNat_inj.mp ((leBytes_inj x.bits.toNat_lt y.bits.toNat_lt).mp hxy)
    rw [ih (by simpa using hlen) hvw, show x = y by cases x; cases y; simpa using hbits]

/-- Within a column, only equal values compare equal. -/
theorem OfType.compareValues_eq_iff {v w : Value} {ty : DataType} (hv : v.OfType ty)
    (hw : w.OfType ty) : Ciphra.compareValues v w = .eq ↔ v = w := by
  cases v <;> cases w <;> cases ty <;>
    first
    | exact hv.elim
    | exact hw.elim
    | simp [Ciphra.compareValues, F64.totalCmp_eq_iff]
  exact ⟨vectorBytes_inj (hv.trans hw.symm), fun h => h ▸ rfl⟩

end Value

/-- Range-blob entries in the order of their index: by value, then row id. -/
def entryLe (a b : Value × UInt64) : Bool :=
  ((compareValues a.1 b.1).then (compare a.2 b.2)).isLE

theorem perm_sortRangeEntries (l : List (Value × UInt64)) : (sortRangeEntries l).Perm l :=
  List.mergeSort_perm l _

/-- Entries of one column end up in order. -/
theorem pairwise_sortRangeEntries {l : List (Value × UInt64)} {ty : DataType}
    (h : ∀ e ∈ l, e.1.HasType ty) :
    (sortRangeEntries l).Pairwise fun a b => entryLe a b = true := by
  let cmp : Value × UInt64 → Value × UInt64 → Ordering :=
    compareLex (fun a b => Value.keyCompare a.1 b.1) fun a b => compare a.2 b.2
  have hcmp : Std.TransCmp cmp := by
    have : Std.TransCmp fun a b : Value × UInt64 => Value.keyCompare a.1 b.1 :=
      { eq_swap := Std.OrientedCmp.eq_swap, isLE_trans := Std.TransCmp.isLE_trans }
    have : Std.TransCmp fun a b : Value × UInt64 => compare a.2 b.2 :=
      { eq_swap := Std.OrientedCmp.eq_swap, isLE_trans := Std.TransCmp.isLE_trans }
    infer_instance
  have hagree : ∀ a ∈ l, ∀ b ∈ l, entryLe a b = (cmp a b).isLE := by
    intro a ha b hb
    simp only [entryLe, cmp, compareLex, Value.compareValues_eq_keyCompare (h a ha) (h b hb)]
  have hsort : sortRangeEntries l = l.mergeSort fun a b => (cmp a b).isLE := by
    have := List.map_mergeSort (f := id) (r := entryLe) (s := fun a b => (cmp a b).isLE) hagree
    rw [List.map_id, List.map_id] at this
    exact this
  have hpair : (sortRangeEntries l).Pairwise fun a b => (cmp a b).isLE = true := by
    rw [hsort]
    refine List.pairwise_mergeSort (fun a b c => ?_) (fun a b => ?_) l
    · exact Std.TransCmp.isLE_trans
    · have : cmp a b = (cmp b a).swap := Std.OrientedCmp.eq_swap
      cases hab : cmp a b <;> cases hba : cmp b a <;> simp_all
  refine hpair.imp_of_mem fun ha hb hab => ?_
  rw [hagree _ ((perm_sortRangeEntries l).mem_iff.mp ha) _ ((perm_sortRangeEntries l).mem_iff.mp hb)]
  exact hab

end Ciphra
