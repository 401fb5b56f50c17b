import Ciphra.Engine.Session
import Ciphra.Foundations.OrdMap

/-!
# The index advisor

Filtered statements note their table, their filter and what they scanned. The advisor counts, for
every column, the queries that compare it by equality and by range, and suggests the indexes that
are missing. `Engine.advise_exact`: it suggests an index exactly where one is missing and some noted
query would use it, once, with the counts of the notes, the costliest scans first. The notes of a
run are about its statements (`Session.telemetry_run`), and so is the advice
(`Session.advice_from_run`).

The counters are 64 bits wide. They wrap around here, as in a build that does not check overflow;
the advice is exact as long as the totals of the notes are below `2 ^ 64` (`CountersFit`), and then
no addition on the way overflows (`CountersFit.sublist`), so that a build that checks does the same.
-/

namespace Ciphra

/-! ## Telemetry -/

/-- How a column has been used in `WHERE`. -/
structure ColStat where
  /-- Equality predicates seen. -/
  eq : UInt64
  /-- Range predicates seen. -/
  range : UInt64
  /-- Rows examined by full scans of queries that filtered on this column. -/
  scanRows : UInt64
  deriving DecidableEq, Repr

namespace ColStat

def default : ColStat := ⟨0, 0, 0⟩

def addEq (scanned : UInt64) (s : ColStat) : ColStat :=
  { s with eq := s.eq + 1, scanRows := s.scanRows + scanned }

def addRange (scanned : UInt64) (s : ColStat) : ColStat :=
  { s with range := s.range + 1, scanRows := s.scanRows + scanned }

end ColStat

/-- A table and one of its columns. -/
abbrev StatKey := String × String

instance : Ord StatKey := lexOrd

/-- Accumulated query telemetry. -/
structure Advisor where
  queries : UInt64
  stats : OrdMap StatKey ColStat

/-- The columns a predicate compares by equality and by range, added to two sets. -/
def collectPredicates : CompiledExpr → List String × List String → List String × List String
  | .compare _ columnName op _, (eq, range) =>
    match op with
    | .eq => (eq.insert columnName, range)
    | .lt | .le | .gt | .ge => (eq, range.insert columnName)
    | .ne => (eq, range)
  | .isNull _ _, s => s
  | .not inner, s => collectPredicates inner s
  | .and a b, s => collectPredicates b (collectPredicates a s)
  | .or a b, s => collectPredicates b (collectPredicates a s)

/-- Change the statistics of some columns of a table. Every column has an entry of its own, so the
order in which a set is gone through does not matter. -/
def updateStats (f : ColStat → ColStat) (table : String) (stats : OrdMap StatKey ColStat)
    (cols : List String) : OrdMap StatKey ColStat :=
  cols.foldl (fun stats col =>
    stats.insert (table, col) (f (stats[(table, col)]?.getD ColStat.default))) stats

namespace Advisor

def empty : Advisor := ⟨0, ∅⟩

/-- Record one query's predicate usage. -/
def recordQuery (advisor : Advisor) (note : QueryNote) : Advisor :=
  let (eq, range) := collectPredicates note.filter ([], [])
  if eq = [] ∧ range = [] then advisor
  else
    let scanned := UInt64.ofNat note.scanned
    let stats := updateStats (ColStat.addEq scanned) note.table advisor.stats eq
    ⟨advisor.queries + 1, updateStats (ColStat.addRange scanned) note.table stats range⟩

/-- The telemetry after some notes. -/
def ofNotes (notes : List QueryNote) : Advisor := notes.foldl recordQuery empty

end Advisor

/-! ## Advice -/

/-- One index recommendation. -/
structure IndexAdvice where
  table : String
  column : String
  /-- A range index, else an equality index. -/
  range : Bool
  predicates : UInt64
  scanRows : UInt64
  /-- The statement that would create the suggested index. -/
  statement : String
  deriving DecidableEq, Repr

/-- The definition of a column that a schema has. -/
def TableSchema.columnNamed (schema : TableSchema) (column : String) : Option ColumnDef :=
  (schema.columnIndex column).bind fun ci => schema.columns[ci]?

/-- The advice for one column. -/
def adviceFor (key : StatKey) (stat : ColStat) (schema : Option TableSchema) : List IndexAdvice :=
  match schema.bind (·.columnNamed key.2) with
  | none => []
  | some col =>
    (if 0 < stat.eq ∧ col.indexed = false ∧ col.primaryKey = false then
      [⟨key.1, key.2, false, stat.eq, stat.scanRows,
        "CREATE INDEX ON " ++ key.1 ++ " (" ++ key.2 ++ ")"⟩] else []) ++
    (if 0 < stat.range ∧ col.rangeIndexed = false then
      [⟨key.1, key.2, true, stat.range, stat.scanRows,
        "CREATE RANGE INDEX ON " ++ key.1 ++ " (" ++ key.2 ++ ")"⟩] else [])

/-- The order of the advice: by scan cost, then by frequency, then by name. -/
def compareAdvice (a b : IndexAdvice) : Ordering :=
  (compare b.scanRows a.scanRows).then ((compare b.predicates a.predicates).then
    ((compare a.table b.table).then (compare a.column b.column)))

/-- Index recommendations from the telemetry. -/
def adviseFrom (C : Crypto) (mk : C.MasterKey) (advisor : Advisor) : Read (List IndexAdvice) := do
  let out ← advisor.stats.toList.mapM fun e => do
    let schema ← schema C mk e.1.1
    pure (adviceFor e.1 e.2 schema)
  pure (out.flatten.mergeSort fun a b => (compareAdvice a b).isLE)

namespace Engine

variable {C : Crypto}

def advise (e : Engine C) : Except EngineError (List IndexAdvice) :=
  (adviseFrom C e.master (Advisor.ofNotes e.telemetry)).run e.store.reader

def advisorQueryCount (e : Engine C) : UInt64 := (Advisor.ofNotes e.telemetry).queries

def advisorReset (e : Engine C) : Engine C := { e with telemetry := [] }

end Engine

/-! ## What the notes say -/

/-- The comparisons an equality index serves. -/
def CmpOp.isEq : CmpOp → Bool
  | .eq => true
  | _ => false

/-- The comparisons a range index is advised for. -/
def CmpOp.isRange : CmpOp → Bool
  | .lt | .le | .gt | .ge => true
  | _ => false

/-- The predicate compares the column in one of some ways. -/
def CompiledExpr.compares (kind : CmpOp → Bool) (column : String) : CompiledExpr → Bool
  | .compare _ columnName op _ => columnName == column && kind op
  | .isNull _ _ => false
  | .not inner => inner.compares kind column
  | .and a b | .or a b => a.compares kind column || b.compares kind column

/-- The query compares the column in one of some ways. -/
def QueryNote.uses (kind : CmpOp → Bool) (key : StatKey) (note : QueryNote) : Bool :=
  note.table == key.1 && note.filter.compares kind key.2

/-- The number of noted queries that compare the column in one of some ways. -/
def useCount (notes : List QueryNote) (kind : CmpOp → Bool) (key : StatKey) : ℕ :=
  notes.countP (QueryNote.uses kind key)

/-- The rows that these queries scanned. -/
def scanSum (notes : List QueryNote) (kind : CmpOp → Bool) (key : StatKey) : ℕ :=
  ((notes.filter (QueryNote.uses kind key)).map QueryNote.scanned).sum

/-- The rows scanned for a column. A query that compares the column in both ways counts its scan
twice. -/
def scanTotal (notes : List QueryNote) (key : StatKey) : ℕ :=
  scanSum notes CmpOp.isEq key + scanSum notes CmpOp.isRange key

/-- What the counters of a column hold. -/
def statOf (notes : List QueryNote) (key : StatKey) : ColStat where
  eq := UInt64.ofNat (useCount notes CmpOp.isEq key)
  range := UInt64.ofNat (useCount notes CmpOp.isRange key)
  scanRows := UInt64.ofNat (scanTotal notes key)

/-- The predicate has a comparison that an index could serve. -/
def CompiledExpr.indexable : CompiledExpr → Bool
  | .compare _ _ op _ => op.isEq || op.isRange
  | .isNull _ _ => false
  | .not inner => inner.indexable
  | .and a b | .or a b => a.indexable || b.indexable

/-- The totals of the notes fit the counters. -/
structure CountersFit (notes : List QueryNote) : Prop where
  queries : (notes.countP fun note => note.filter.indexable) < 2 ^ 64
  uses : ∀ kind key, useCount notes kind key < 2 ^ 64
  scans : ∀ key, scanTotal notes key < 2 ^ 64

theorem mem_collectPredicates (f : CompiledExpr) (s : List String × List String) (c : String) :
    (c ∈ (collectPredicates f s).1 ↔ c ∈ s.1 ∨ f.compares CmpOp.isEq c = true) ∧
      (c ∈ (collectPredicates f s).2 ↔ c ∈ s.2 ∨ f.compares CmpOp.isRange c = true) := by
  induction f generalizing s with
  | compare i columnName op value =>
    have hinsert : ∀ cols : List String, c ∈ cols.insert columnName ↔ c ∈ cols ∨ columnName = c := by
      intro cols
      rw [List.mem_insert_iff, or_comm, eq_comm]
    cases op <;>
      simp [collectPredicates, CompiledExpr.compares, CmpOp.isEq, CmpOp.isRange, hinsert]
  | isNull i negated => simp [collectPredicates, CompiledExpr.compares]
  | not inner ih => exact ih s
  | and a b iha ihb | or a b iha ihb =>
    obtain ⟨hb, hb'⟩ := ihb (collectPredicates a s)
    obtain ⟨ha, ha'⟩ := iha s
    simp only [collectPredicates, CompiledExpr.compares, Bool.or_eq_true]
    exact ⟨by rw [hb, ha, or_assoc], by rw [hb', ha', or_assoc]⟩

theorem nodup_collectPredicates (f : CompiledExpr) {s : List String × List String}
    (h : s.1.Nodup ∧ s.2.Nodup) :
    (collectPredicates f s).1.Nodup ∧ (collectPredicates f s).2.Nodup := by
  induction f generalizing s with
  | compare i columnName op value =>
    cases op
    case eq => exact ⟨h.1.insert, h.2⟩
    case ne => exact h
    all_goals exact ⟨h.1, h.2.insert⟩
  | isNull i negated => exact h
  | not inner ih => exact ih h
  | and a b iha ihb | or a b iha ihb => exact ihb (iha h)

/-- Every column of the list is changed once, and no other entry is. -/
theorem getElem?_updateStats (f : ColStat → ColStat) (table : String) {cols : List String}
    (hn : cols.Nodup) (stats : OrdMap StatKey ColStat) (key : StatKey) :
    (updateStats f table stats cols)[key]? =
      if key.1 = table ∧ key.2 ∈ cols then some (f (stats[key]?.getD ColStat.default))
      else stats[key]? := by
  induction cols generalizing stats with
  | nil => simp [updateStats]
  | cons c cols ih =>
    obtain ⟨hc, hn⟩ := List.nodup_cons.mp hn
    have htail := ih hn (stats.insert (table, c) (f (stats[(table, c)]?.getD ColStat.default)))
    rw [OrdMap.getElem?_insert_eq] at htail
    refine htail.trans ?_
    obtain ⟨t, c'⟩ := key
    by_cases ht : t = table
    · subst ht
      by_cases hcc : c' = c
      · subst hcc
        simp [hc]
      · simp [hcc, Ne.symm hcc]
    · simp [ht, Ne.symm ht]

theorem uses_iff {kind : CmpOp → Bool} {key : StatKey} {note : QueryNote} :
    note.uses kind key = true ↔
      key.1 = note.table ∧ note.filter.compares kind key.2 = true := by
  rw [QueryNote.uses, Bool.and_eq_true, beq_iff_eq, eq_comm]

/-- What a query adds to the statistics of a column that it compares in some way. -/
def ColStat.add (note : QueryNote) (key : StatKey) (s : ColStat) : ColStat where
  eq := s.eq + if note.uses CmpOp.isEq key then 1 else 0
  range := s.range + if note.uses CmpOp.isRange key then 1 else 0
  scanRows := s.scanRows + ((if note.uses CmpOp.isEq key then UInt64.ofNat note.scanned else 0) +
    if note.uses CmpOp.isRange key then UInt64.ofNat note.scanned else 0)

/-- **One query.** -/
theorem getElem?_recordQuery (advisor : Advisor) (note : QueryNote) (key : StatKey) :
    (advisor.recordQuery note).stats[key]? =
      if note.uses CmpOp.isEq key = true ∨ note.uses CmpOp.isRange key = true then
        some ((advisor.stats[key]?.getD ColStat.default).add note key)
      else advisor.stats[key]? := by
  obtain ⟨hE, hR⟩ := mem_collectPredicates note.filter ([], []) key.2
  obtain ⟨hnE, hnR⟩ := nodup_collectPredicates note.filter (s := ([], []))
    ⟨List.nodup_nil, List.nodup_nil⟩
  rw [Advisor.recordQuery]
  generalize collectPredicates note.filter ([], []) = cols at hE hR hnE hnR
  obtain ⟨eq, range⟩ := cols
  simp only [List.not_mem_nil, false_or] at hE hR hnE hnR
  have huE : note.uses CmpOp.isEq key = true ↔ key.1 = note.table ∧ key.2 ∈ eq := by
    rw [uses_iff, hE]
  have huR : note.uses CmpOp.isRange key = true ↔ key.1 = note.table ∧ key.2 ∈ range := by
    rw [uses_iff, hR]
  by_cases hnone : eq = [] ∧ range = []
  · obtain ⟨rfl, rfl⟩ := hnone
    simp [huE, huR]
  · simp only [hnone, if_false, getElem?_updateStats _ _ hnR, getElem?_updateStats _ _ hnE, ← huE,
      ← huR]
    by_cases hE' : note.uses CmpOp.isEq key = true <;>
      by_cases hR' : note.uses CmpOp.isRange key = true <;>
        simp [hE', hR', ColStat.add, ColStat.addEq, ColStat.addRange, UInt64.add_assoc]

theorem useCount_concat (notes : List QueryNote) (note : QueryNote) (kind : CmpOp → Bool)
    (key : StatKey) : useCount (notes ++ [note]) kind key =
      useCount notes kind key + if note.uses kind key then 1 else 0 := by
  rw [useCount, List.countP_append, List.countP_singleton, useCount]

theorem scanSum_concat (notes : List QueryNote) (note : QueryNote) (kind : CmpOp → Bool)
    (key : StatKey) : scanSum (notes ++ [note]) kind key =
      scanSum notes kind key + if note.uses kind key then note.scanned else 0 := by
  rw [scanSum, List.filter_append, List.map_append, List.sum_append, ← scanSum]
  by_cases h : note.uses kind key = true <;> simp [h]

theorem statOf_concat (notes : List QueryNote) (note : QueryNote) (key : StatKey) :
    statOf (notes ++ [note]) key = (statOf notes key).add note key := by
  by_cases hE : note.uses CmpOp.isEq key = true <;>
    by_cases hR : note.uses CmpOp.isRange key = true <;>
      simp [statOf, scanTotal, ColStat.add, useCount_concat, scanSum_concat, hE, hR,
        UInt64.ofNat_add] <;> ac_rfl

/-- The column occurs in the notes. -/
def Mentioned (notes : List QueryNote) (key : StatKey) : Prop :=
  ∃ note ∈ notes, note.uses CmpOp.isEq key = true ∨ note.uses CmpOp.isRange key = true

theorem mentioned_concat {notes : List QueryNote} {note : QueryNote} {key : StatKey} :
    Mentioned (notes ++ [note]) key ↔ Mentioned notes key ∨
      (note.uses CmpOp.isEq key = true ∨ note.uses CmpOp.isRange key = true) := by
  simp only [Mentioned, List.mem_append, List.mem_singleton, or_and_right, exists_or,
    exists_eq_left]

theorem statOf_of_not_mentioned {notes : List QueryNote} {key : StatKey}
    (h : ¬ Mentioned notes key) : statOf notes key = ColStat.default := by
  have hnone : ∀ kind, (∀ note ∈ notes, ¬ note.uses kind key = true) →
      useCount notes kind key = 0 ∧ scanSum notes kind key = 0 := by
    intro kind hkind
    rw [scanSum, List.filter_eq_nil_iff.mpr hkind]
    exact ⟨List.countP_eq_zero.mpr hkind, rfl⟩
  obtain ⟨hE, hE'⟩ := hnone CmpOp.isEq fun note hn hu => h ⟨note, hn, Or.inl hu⟩
  obtain ⟨hR, hR'⟩ := hnone CmpOp.isRange fun note hn hu => h ⟨note, hn, Or.inr hu⟩
  rw [statOf, scanTotal, hE, hE', hR, hR']
  rfl

/-- **The telemetry after any notes**: what the notes amount to, for the columns that occur. -/
theorem getElem?_ofNotes {notes : List QueryNote} {key : StatKey} {stat : ColStat} :
    (Advisor.ofNotes notes).stats[key]? = some stat ↔
      Mentioned notes key ∧ stat = statOf notes key := by
  induction notes using List.reverseRecOn generalizing stat with
  | nil =>
    constructor
    · intro h
      rw [Advisor.ofNotes, List.foldl_nil, Advisor.empty, Std.ExtTreeMap.getElem?_empty] at h
      cases h
    · rintro ⟨⟨_, h, _⟩, _⟩
      cases h
  | append_singleton notes note ih =>
    have hgetD : (Advisor.ofNotes notes).stats[key]?.getD ColStat.default = statOf notes key := by
      cases hget : (Advisor.ofNotes notes).stats[key]? with
      | some s => exact (ih.mp hget).2
      | none =>
        refine (statOf_of_not_mentioned fun hm => ?_).symm
        rw [ih.mpr ⟨hm, rfl⟩] at hget
        cases hget
    rw [Advisor.ofNotes, List.foldl_append, ← Advisor.ofNotes, List.foldl_cons, List.foldl_nil,
      getElem?_recordQuery, hgetD, statOf_concat, mentioned_concat]
    by_cases hnow : note.uses CmpOp.isEq key = true ∨ note.uses CmpOp.isRange key = true
    · rw [if_pos hnow, Option.some.injEq, and_iff_right (Or.inr hnow)]
      exact eq_comm
    · have hsame : (statOf notes key).add note key = statOf notes key := by
        obtain ⟨hE, hR⟩ := not_or.mp hnow
        simp [ColStat.add, hE, hR]
      rw [if_neg hnow, ih, hsame, or_iff_left hnow]

theorem indexable_iff (f : CompiledExpr) : f.indexable = true ↔
    ∃ c, f.compares CmpOp.isEq c = true ∨ f.compares CmpOp.isRange c = true := by
  induction f with
  | compare i columnName op value =>
    simp [CompiledExpr.indexable, CompiledExpr.compares, ← and_or_left]
  | isNull i negated => simp [CompiledExpr.indexable, CompiledExpr.compares]
  | not inner ih => exact ih
  | and a b iha ihb | or a b iha ihb =>
    simp only [CompiledExpr.indexable, CompiledExpr.compares, Bool.or_eq_true, iha, ihb,
      ← exists_or]
    exact exists_congr fun c => by tauto

theorem queries_ofNotes (notes : List QueryNote) : (Advisor.ofNotes notes).queries =
    UInt64.ofNat (notes.countP fun note => note.filter.indexable) := by
  induction notes using List.reverseRecOn with
  | nil => rfl
  | append_singleton notes note ih =>
    have hmem := fun c => mem_collectPredicates note.filter ([], []) c
    rw [Advisor.ofNotes, List.foldl_append, ← Advisor.ofNotes, List.foldl_cons, List.foldl_nil,
      List.countP_append, List.countP_singleton, UInt64.ofNat_add, ← ih, Advisor.recordQuery]
    generalize collectPredicates note.filter ([], []) = cols at hmem
    obtain ⟨eq, range⟩ := cols
    simp only [List.not_mem_nil, false_or] at hmem
    have hnone : (eq = [] ∧ range = []) ↔ ¬ note.filter.indexable = true := by
      rw [indexable_iff]
      simp only [← (hmem _).1, ← (hmem _).2, List.eq_nil_iff_forall_not_mem, not_exists, not_or,
        forall_and]
    simp only [hnone]
    by_cases h : note.filter.indexable = true
    · rw [if_neg (not_not_intro h), if_pos h]
      rfl
    · rw [if_pos h, if_neg h]
      exact (UInt64.add_zero _).symm

/-! ## Totals -/

/-- Where the totals of all notes fit, those of some of them do: on the way, no addition to a counter
overflows. -/
theorem CountersFit.sublist {some notes : List QueryNote} (h : CountersFit notes)
    (hsub : some.Sublist notes) : CountersFit some where
  queries := hsub.countP_le.trans_lt h.queries
  uses kind key := hsub.countP_le.trans_lt (h.uses kind key)
  scans key := by
    have hle : ∀ kind, scanSum some kind key ≤ scanSum notes kind key := fun kind =>
      ((hsub.filter _).map _).sum_le_sum fun _ _ => Nat.zero_le _
    exact (Nat.add_le_add (hle _) (hle _)).trans_lt (h.scans key)

/-- The totals of a column are at most those of all notes. -/
theorem countersFit_of_length {notes : List QueryNote} (hlen : notes.length < 2 ^ 64)
    (hscan : 2 * (notes.map QueryNote.scanned).sum < 2 ^ 64) : CountersFit notes where
  queries := List.countP_le_length.trans_lt hlen
  uses _ _ := List.countP_le_length.trans_lt hlen
  scans key := by
    have hle : ∀ kind, scanSum notes kind key ≤ (notes.map QueryNote.scanned).sum := fun kind =>
      (List.filter_sublist.map _).sum_le_sum fun _ _ => Nat.zero_le _
    have := hle CmpOp.isEq
    have := hle CmpOp.isRange
    rw [scanTotal]
    omega

theorem CountersFit.toNat_useCount {notes : List QueryNote} (h : CountersFit notes)
    (kind : CmpOp → Bool) (key : StatKey) :
    (UInt64.ofNat (useCount notes kind key)).toNat = useCount notes kind key :=
  UInt64.toNat_ofNat_of_lt' (h.uses kind key)

theorem CountersFit.toNat_scanTotal {notes : List QueryNote} (h : CountersFit notes)
    (key : StatKey) : (UInt64.ofNat (scanTotal notes key)).toNat = scanTotal notes key :=
  UInt64.toNat_ofNat_of_lt' (h.scans key)

/-! ## What the advice says -/

/-- An advice that the counters of a column give. -/
@[mk_iff]
structure IndexAdvice.Matches (stat : ColStat) (schema : TableSchema) (a : IndexAdvice) :
    Prop where
  missing : ∃ col, schema.columnNamed a.column = some col ∧
    if a.range then col.rangeIndexed = false else col.indexed = false ∧ col.primaryKey = false
  used : 0 < a.predicates
  predicates : a.predicates = if a.range then stat.range else stat.eq
  scanRows : a.scanRows = stat.scanRows
  statement : a.statement = (if a.range then "CREATE RANGE INDEX ON " else "CREATE INDEX ON ") ++
    a.table ++ " (" ++ a.column ++ ")"

/-- An advice that is due: the index is missing, some noted query would use it, and the advice gives
the counts of the notes. -/
structure IndexAdvice.Due (notes : List QueryNote) (schema : TableSchema) (a : IndexAdvice) :
    Prop where
  missing : ∃ col, schema.columnNamed a.column = some col ∧
    if a.range then col.rangeIndexed = false else col.indexed = false ∧ col.primaryKey = false
  used : 0 < a.predicates
  predicates : a.predicates.toNat =
    useCount notes (if a.range then CmpOp.isRange else CmpOp.isEq) (a.table, a.column)
  scanRows : a.scanRows.toNat = scanTotal notes (a.table, a.column)
  statement : a.statement = (if a.range then "CREATE RANGE INDEX ON " else "CREATE INDEX ON ") ++
    a.table ++ " (" ++ a.column ++ ")"

/-- The counter of the kind of an advice. -/
theorem statOf_kind (notes : List QueryNote) (key : StatKey) (range : Bool) :
    (if range then (statOf notes key).range else (statOf notes key).eq) =
      UInt64.ofNat (useCount notes (if range then CmpOp.isRange else CmpOp.isEq) key) := by
  cases range <;> rfl

/-- Where the totals fit, the counters give what is due. -/
theorem matches_statOf_iff {notes : List QueryNote} (h : CountersFit notes) {schema : TableSchema}
    {a : IndexAdvice} :
    a.Matches (statOf notes (a.table, a.column)) schema ↔ a.Due notes schema := by
  constructor
  · rintro ⟨hmissing, hused, hpredicates, hscan, hstatement⟩
    refine ⟨hmissing, hused, ?_, ?_, hstatement⟩
    · rw [hpredicates, statOf_kind, h.toNat_useCount]
    · rw [hscan, statOf, h.toNat_scanTotal]
  · rintro ⟨hmissing, hused, hpredicates, hscan, hstatement⟩
    refine ⟨hmissing, hused, ?_, ?_, hstatement⟩
    · rw [statOf_kind, ← hpredicates, UInt64.ofNat_toNat]
    · rw [statOf, ← hscan, UInt64.ofNat_toNat]

/-- What the counters give has been noted. -/
theorem useCount_pos_of_matches {notes : List QueryNote} {schema : TableSchema} {a : IndexAdvice}
    (h : a.Matches (statOf notes (a.table, a.column)) schema) :
    0 < useCount notes (if a.range then CmpOp.isRange else CmpOp.isEq) (a.table, a.column) := by
  have hused := h.used
  rw [h.predicates, statOf_kind] at hused
  rw [Nat.pos_iff_ne_zero]
  intro hzero
  rw [hzero] at hused
  exact absurd hused (by decide)

theorem mem_adviceFor {key : StatKey} {stat : ColStat} {schema : TableSchema} {a : IndexAdvice} :
    a ∈ adviceFor key stat (some schema) ↔ (a.table, a.column) = key ∧ a.Matches stat schema := by
  obtain ⟨t, c⟩ := key
  obtain ⟨t', c', range, predicates, scanRows, statement⟩ := a
  rw [IndexAdvice.matches_iff, adviceFor, Option.bind_some]
  constructor
  · intro h
    cases hcol : schema.columnNamed c with
    | none => simp [hcol] at h
    | some col =>
      simp only [hcol, List.mem_append] at h
      rcases h with h | h
      all_goals
        split at h
        · rename_i hcond
          obtain ⟨rfl, rfl, rfl, rfl, rfl, rfl⟩ := IndexAdvice.mk.inj (List.mem_singleton.mp h)
          exact ⟨rfl, ⟨col, hcol, hcond.2⟩, hcond.1, rfl, rfl, rfl⟩
        · cases h
  · rintro ⟨hkey, ⟨col, hcol, hmissing⟩, hused, hpredicates, hscan, hstatement⟩
    cases hkey
    dsimp only at hcol ⊢
    simp only [hcol, List.mem_append]
    cases range with
    | false =>
      refine Or.inl ?_
      rw [if_pos ⟨hused.trans_eq hpredicates, hmissing⟩, List.mem_singleton, IndexAdvice.mk.injEq]
      exact ⟨rfl, rfl, rfl, hpredicates, hscan, hstatement⟩
    | true =>
      refine Or.inr ?_
      rw [if_pos ⟨hused.trans_eq hpredicates, hmissing⟩, List.mem_singleton, IndexAdvice.mk.injEq]
      exact ⟨rfl, rfl, rfl, hpredicates, hscan, hstatement⟩

theorem nodup_adviceFor (key : StatKey) (stat : ColStat) (schema : Option TableSchema) :
    (adviceFor key stat schema).Nodup := by
  rw [adviceFor]
  split
  · exact List.nodup_nil
  · split <;> split <;> simp

theorem key_of_mem_adviceFor {key : StatKey} {stat : ColStat} {schema : Option TableSchema}
    {a : IndexAdvice} (h : a ∈ adviceFor key stat schema) : (a.table, a.column) = key := by
  rw [adviceFor] at h
  split at h
  · cases h
  · rcases List.mem_append.mp h with h | h <;> split at h <;> simp at h <;> subst h <;> rfl

instance : Std.TransCmp compareAdvice :=
  inferInstanceAs (Std.TransCmp (compareLex (fun a b => compareOn IndexAdvice.scanRows b a)
    (compareLex (fun a b => compareOn IndexAdvice.predicates b a)
      (compareLex (compareOn IndexAdvice.table) (compareOn IndexAdvice.column)))))

theorem compareAdvice_total (a b : IndexAdvice) :
    ((compareAdvice a b).isLE || (compareAdvice b a).isLE) = true := by
  have hswap : compareAdvice b a = (compareAdvice a b).swap := Std.OrientedCmp.eq_swap
  rw [hswap]
  cases compareAdvice a b <;> rfl

theorem mem_stats_ofNotes {notes : List QueryNote} {en : StatKey × ColStat} :
    en ∈ (Advisor.ofNotes notes).stats.toList ↔
      Mentioned notes en.1 ∧ en.2 = statOf notes en.1 :=
  (OrdMap.mem_toList_iff _ _ _).trans getElem?_ofNotes

theorem mentioned_of_matches {notes : List QueryNote} {schema : TableSchema} {a : IndexAdvice}
    (h : a.Matches (statOf notes (a.table, a.column)) schema) :
    Mentioned notes (a.table, a.column) := by
  obtain ⟨note, hn, hu⟩ := List.countP_pos_iff.mp (useCount_pos_of_matches h)
  refine ⟨note, hn, ?_⟩
  cases hr : a.range <;> simp only [hr] at hu
  · exact Or.inl hu
  · exact Or.inr hu

namespace Engine

variable {C : Crypto}

/-- The schema of a table, if it exists and can be read. -/
def readableSchema (e : Engine C) (table : String) : Option TableSchema :=
  ((schema C e.master table).run e.store.reader).toOption.join

/-- The advice for all columns that have been noted. -/
def allAdvice (e : Engine C) : List IndexAdvice :=
  ((Advisor.ofNotes e.telemetry).stats.toList.map fun en =>
    adviceFor en.1 en.2 (e.readableSchema en.1.1)).flatten

theorem readableSchema_eq_some {e : Engine C} {table : String} {s : TableSchema} :
    e.readableSchema table = some s ↔
      (schema C e.master table).run e.store.reader = .ok (some s) := by
  rw [readableSchema]
  cases (schema C e.master table).run e.store.reader with
  | error err => exact ⟨nofun, nofun⟩
  | ok found => exact ⟨congrArg Except.ok, Except.ok.inj⟩

theorem mem_allAdvice {e : Engine C} {a : IndexAdvice} :
    a ∈ e.allAdvice ↔ ∃ s, e.readableSchema a.table = some s ∧
      a.Matches (statOf e.telemetry (a.table, a.column)) s := by
  rw [allAdvice, List.mem_flatten]
  constructor
  · rintro ⟨l, hl, ha⟩
    obtain ⟨en, hen, rfl⟩ := List.mem_map.mp hl
    rw [(mem_stats_ofNotes.mp hen).2] at ha
    cases hs : e.readableSchema en.1.1 with
    | none =>
      rw [hs] at ha
      cases ha
    | some s =>
      rw [hs] at ha
      obtain ⟨hkey, hmatches⟩ := mem_adviceFor.mp ha
      rw [← hkey] at hs hmatches
      exact ⟨s, hs, hmatches⟩
  · rintro ⟨s, hs, hmatches⟩
    have hen : ((a.table, a.column), statOf e.telemetry (a.table, a.column)) ∈
        (Advisor.ofNotes e.telemetry).stats.toList :=
      mem_stats_ofNotes.mpr ⟨mentioned_of_matches hmatches, rfl⟩
    refine ⟨_, List.mem_map_of_mem hen, ?_⟩
    rw [hs]
    exact mem_adviceFor.mpr ⟨rfl, hmatches⟩

theorem nodup_allAdvice (e : Engine C) : e.allAdvice.Nodup := by
  refine List.nodup_flatten.mpr ⟨fun l hl => ?_, ?_⟩
  · obtain ⟨en, -, rfl⟩ := List.mem_map.mp hl
    exact nodup_adviceFor _ _ _
  · -- entries of different columns give different advice
    rw [List.pairwise_map]
    refine (OrdMap.sortedKeys_toList (Advisor.ofNotes e.telemetry).stats).imp ?_
    intro en en' hlt a ha ha'
    rw [← key_of_mem_adviceFor ha, ← key_of_mem_adviceFor ha', Std.ReflOrd.compare_self] at hlt
    cases hlt

/-- If the schemas of the noted tables can be read, the advisor answers. -/
theorem advise_eq (e : Engine C) (h : ∀ note ∈ e.telemetry, ∃ s,
    (schema C e.master note.table).run e.store.reader = .ok s) :
    e.advise = .ok (e.allAdvice.mergeSort fun a b => (compareAdvice a b).isLE) := by
  have hread : ∀ en ∈ (Advisor.ofNotes e.telemetry).stats.toList,
      (schema C e.master en.1.1).run e.store.reader = .ok (e.readableSchema en.1.1) := by
    intro en hen
    obtain ⟨⟨note, hn, hu⟩, -⟩ := mem_stats_ofNotes.mp hen
    have ht : en.1.1 = note.table := by rcases hu with hu | hu <;> exact (uses_iff.mp hu).1
    obtain ⟨s, hs⟩ := h note hn
    rw [readableSchema, ht, hs]
    rfl
  rw [advise, adviseFrom, Query.run_bind, Query.run_mapM, mapM_ok fun en hen => by
    rw [Query.run_bind, hread en hen]
    rfl]
  rfl

/-- **The advice is exact.** If the schemas of the noted tables can be read, the advisor answers. If
moreover the totals of the notes fit its counters, it gives every advice that is due, and no other,
once each and in order. -/
theorem advise_exact (e : Engine C) (hfit : CountersFit e.telemetry)
    (h : ∀ note ∈ e.telemetry, ∃ s,
      (schema C e.master note.table).run e.store.reader = .ok s) :
    ∃ out, e.advise = .ok out ∧ out.Nodup ∧
      out.Pairwise (fun a b => (compareAdvice a b).isLE = true) ∧
      ∀ a, a ∈ out ↔ ∃ s, (schema C e.master a.table).run e.store.reader = .ok (some s) ∧
        a.Due e.telemetry s := by
  refine ⟨_, e.advise_eq h, (List.mergeSort_perm _ _).nodup_iff.mpr e.nodup_allAdvice,
    List.pairwise_mergeSort (fun a b c => Std.TransCmp.isLE_trans) compareAdvice_total _,
    fun a => ?_⟩
  rw [List.mem_mergeSort, mem_allAdvice]
  simp only [readableSchema_eq_some, matches_statOf_iff hfit]

/-- The queries counted are those with a comparison that an index could serve. -/
theorem advisorQueryCount_exact (e : Engine C) (hfit : CountersFit e.telemetry) :
    e.advisorQueryCount.toNat = e.telemetry.countP fun note => note.filter.indexable := by
  rw [advisorQueryCount, queries_ofNotes]
  exact UInt64.toNat_ofNat_of_lt' hfit.queries

end Engine

namespace Session

/-- `CREATE TABLE t (price REAL); INSERT INTO t VALUES (2.0); SELECT * FROM t WHERE price = 2.0`. -/
def filteredSteps : List (Step Crypto.clear) :=
  [.statement clearEnv (.createTable "t" [⟨"price", .real, false, false, false, false⟩]),
    .statement clearEnv (.insert "t" none [[.real ⟨0x4000000000000000⟩]]),
    .statement clearEnv (.select .all "t"
      (some (.compare "price" .eq (.real ⟨0x4000000000000000⟩))) [] none none none)]

/-- After one full scan the index is advised. -/
theorem advise_exact_price : ∃ out, (filteredSteps.foldl step clearSession).engine.advise = .ok out ∧
    ⟨"t", "price", false, 1, 1, "CREATE INDEX ON t (price)"⟩ ∈ out := by
  have htables : (filteredSteps.foldl step clearSession).engine.telemetry.map QueryNote.table =
      ["t"] := by decide +kernel
  have htotals : useCount (filteredSteps.foldl step clearSession).engine.telemetry CmpOp.isEq
        ("t", "price") = 1 ∧
      scanTotal (filteredSteps.foldl step clearSession).engine.telemetry ("t", "price") = 1 := by
    decide +kernel
  have hfit : CountersFit (filteredSteps.foldl step clearSession).engine.telemetry :=
    countersFit_of_length (by decide +kernel) (by decide +kernel)
  have hschema : (schema Crypto.clear () "t").run
      (filteredSteps.foldl step clearSession).engine.store.reader =
        .ok (some ⟨"t", [⟨"price", .real, false, false, false, false⟩]⟩) := by decide +kernel
  obtain ⟨out, hout, -, -, hmem⟩ :=
    Engine.advise_exact (filteredSteps.foldl step clearSession).engine hfit fun note hn => by
      have ht : note.table ∈ ["t"] := htables ▸ List.mem_map_of_mem hn
      rw [List.mem_singleton.mp ht]
      exact ⟨_, hschema⟩
  refine ⟨out, hout, (hmem _).mpr ⟨_, hschema, ?_⟩⟩
  exact ⟨⟨_, rfl, rfl, rfl⟩, by decide, htotals.1.symm, htotals.2.symm, rfl⟩

end Session

/-! ## Where the notes come from -/

/-- The expression compares the column in one of some ways. -/
def Expr.compares (kind : CmpOp → Bool) (column : String) : Expr → Bool
  | .compare c op _ => c == column && kind op
  | .isNull _ _ => false
  | .not inner => inner.compares kind column
  | .and a b | .or a b => a.compares kind column || b.compares kind column

theorem compares_compileExpr {schema : TableSchema} {p : Expr} {f : CompiledExpr}
    (h : compileExpr schema p = .ok f) (kind : CmpOp → Bool) (column : String) :
    f.compares kind column = p.compares kind column := by
  induction p generalizing f with
  | compare c op value =>
    obtain ⟨i, -, h⟩ := bind_eq_ok.mp h
    cases h
    rfl
  | isNull c negated =>
    obtain ⟨i, -, h⟩ := bind_eq_ok.mp h
    cases h
    rfl
  | not inner ih =>
    obtain ⟨g, hg, h⟩ := bind_eq_ok.mp h
    cases h
    rw [CompiledExpr.compares, Expr.compares, ih hg]
  | and a b iha ihb | or a b iha ihb =>
    obtain ⟨f, hf, h⟩ := bind_eq_ok.mp h
    obtain ⟨g, hg, h⟩ := bind_eq_ok.mp h
    cases h
    rw [CompiledExpr.compares, Expr.compares, iha hf, ihb hg]

/-- The filter of a statement, if it has one. -/
def Statement.predicate : Statement → Option Expr
  | .select _ _ predicate _ _ _ _ => predicate
  | .update _ _ predicate => predicate
  | .delete _ predicate => predicate
  | _ => none

/-- The note is about the table and the filter of the statement. -/
def QueryNote.IsOf (table : String) (predicate : Option Expr) (note : QueryNote) : Prop :=
  note.table = table ∧ ∃ p s, predicate = some p ∧ compileExpr s p = .ok note.filter

section

open Query

variable {C : Crypto} {mk : C.MasterKey} {P : QueryNote → Prop} {table : String}
  {schema : TableSchema}

theorem tells_schema : Tells (Ciphra.schema C mk table) P := by
  refine (Tells.fetch _).seq fun sealed => ?_
  cases sealed with
  | none => exact Tells.pure _
  | some sealed => exact (Tells.ofExcept _).seq fun s => Tells.pure _

theorem tells_expectSchema : Tells (expectSchema C mk table) P := by
  refine tells_schema.seq fun s => ?_
  cases s with
  | none => exact Tells.fail _
  | some s => exact Tells.pure _

theorem tells_scanRows : Tells (scanRows C mk table) P :=
  (Tells.entries _).seq fun _ => Tells.mapM fun _ => Tells.ofExcept _

theorem tells_indexRowids {col : ℕ} {value : Value} : Tells (indexRowids C mk table col value) P :=
  (Tells.entries _).seq fun _ => Tells.mapM fun _ => Tells.ofExcept _

theorem tells_loadRangeIndex {col : ℕ} : Tells (loadRangeIndex C mk table col) P := by
  refine (Tells.fetch _).seq fun sealed => ?_
  cases sealed with
  | none => exact Tells.pure _
  | some sealed => exact Tells.ofExcept _

theorem tells_loadSeq : Tells (loadSeq C mk table) P := by
  refine (Tells.fetch _).seq fun sealed => ?_
  cases sealed with
  | none => exact Tells.pure _
  | some sealed =>
    refine (Tells.ofExcept _).seq fun plain => ?_
    split
    · exact Tells.pure _
    · exact Tells.fail _

theorem tells_fetchRows {ids : List UInt64} : Tells (fetchRows C mk table ids) P := by
  refine (Tells.mapM fun id => (Tells.fetch _).seq fun sealed => ?_).seq fun _ => Tells.pure _
  cases sealed with
  | none => exact Tells.pure _
  | some sealed => exact (Tells.ofExcept _).seq fun _ => Tells.pure _

theorem tells_guardRead {p : Prop} [Decidable p] {err : EngineError} :
    Tells (guardRead p err) P := by
  rw [guardRead]
  split
  · exact Tells.pure _
  · exact Tells.fail _

theorem tells_sealRangeBlob {col : ℕ} {es : List (Value × UInt64)} :
    Tells (sealRangeBlob C mk table col es) P := tells_guardRead.seq fun _ => Tells.pure _

/-- The rows of a filtered statement are read with one note, on its table and filter. -/
theorem tells_matchingRows {filter : Option CompiledExpr}
    (h : ∀ f, filter = some f → ∀ n, P ⟨table, f, n⟩) :
    Tells (matchingRows C mk table schema filter) P := by
  refine Tells.seq ?_ fun rows => (Tells.mapM fun _ => Tells.ofExcept _).seq fun _ => Tells.pure _
  cases filter with
  | none => exact tells_scanRows
  | some f =>
    rw [candidateRows]
    dsimp only
    split
    · exact tells_indexRowids.seq fun _ => tells_fetchRows.seq fun _ =>
        (Tells.tell (h f rfl 0)).seq fun _ => Tells.pure _
    · split
      · exact tells_loadRangeIndex.seq fun _ => tells_fetchRows.seq fun _ =>
          (Tells.tell (h f rfl 0)).seq fun _ => Tells.pure _
      · exact tells_scanRows.seq fun rows =>
          (Tells.tell (h f rfl rows.length)).seq fun _ => Tells.pure _

/-- A statement with a filter compiles it and reads the matching rows; what follows has no notes. -/
theorem tells_filtered {α : Type} {predicate : Option Expr}
    {next : TableSchema → Option CompiledExpr → Read α}
    (h : ∀ s filter, (∀ f, filter = some f → ∀ n, QueryNote.IsOf table predicate ⟨table, f, n⟩) →
      Tells (next s filter) (QueryNote.IsOf table predicate)) :
    Tells (do
      let s ← expectSchema C mk table
      let filter ← ofExcept (predicate.mapM (compileExpr s))
      next s filter) (QueryNote.IsOf table predicate) := by
  refine tells_expectSchema.seq fun s => (Tells.ofExcept _).bind fun r filter hfilter => ?_
  rw [run_ofExcept] at hfilter
  refine h s filter fun f hf n => ⟨rfl, ?_⟩
  subst hf
  cases predicate with
  | none => cases hfilter
  | some p =>
    obtain ⟨g, hg, hfilter⟩ := bind_eq_ok.mp hfilter
    cases hfilter
    exact ⟨p, s, rfl, hg⟩

theorem tells_createTable {columns : List ColumnDef} :
    Tells (createTable C mk table columns) P := by
  refine tells_schema.seq fun _ => tells_guardRead.seq fun _ => ?_
  split
  · exact Tells.fail _
  · refine tells_guardRead.seq fun _ => ?_
    split
    · exact Tells.fail _
    · exact Tells.pure _

theorem tells_createIndex {column : String} : Tells (createIndex C mk table column) P := by
  refine tells_expectSchema.seq fun _ => (Tells.ofExcept _).seq fun _ => ?_
  split
  · exact Tells.fail _
  · exact tells_guardRead.seq fun _ => tells_guardRead.seq fun _ => tells_guardRead.seq fun _ =>
      tells_scanRows.seq fun _ => Tells.pure _

theorem tells_dropIndex {column : String} : Tells (dropIndex C mk table column) P := by
  refine tells_expectSchema.seq fun _ => (Tells.ofExcept _).seq fun _ => ?_
  split
  · exact Tells.fail _
  · exact tells_guardRead.seq fun _ => (Tells.entries _).seq fun _ => Tells.pure _

theorem tells_createRangeIndex {column : String} :
    Tells (createRangeIndex C mk table column) P := by
  refine tells_expectSchema.seq fun _ => (Tells.ofExcept _).seq fun _ => ?_
  split
  · exact Tells.fail _
  · exact tells_guardRead.seq fun _ => tells_guardRead.seq fun _ =>
      tells_scanRows.seq fun _ => tells_sealRangeBlob.seq fun _ => Tells.pure _

theorem tells_dropRangeIndex {column : String} : Tells (dropRangeIndex C mk table column) P := by
  refine tells_expectSchema.seq fun _ => (Tells.ofExcept _).seq fun _ => ?_
  split
  · exact Tells.fail _
  · exact tells_guardRead.seq fun _ => Tells.pure _

theorem tells_dropTable : Tells (dropTable C mk table) P :=
  tells_expectSchema.seq fun _ => (Tells.entries _).seq fun _ => (Tells.entries _).seq fun _ =>
    (Tells.entries _).seq fun _ => Tells.pure _

theorem tells_checkKey {pk : ℕ} {value : Value} {seen : List Bytes} :
    Tells (checkKey C mk table schema pk value seen) P :=
  tells_guardRead.seq fun _ => tells_guardRead.seq fun _ => tells_indexRowids.seq fun _ =>
    tells_guardRead.seq fun _ => Tells.pure _

theorem tells_validateRows {positions : List ℕ} {rows : List (List Literal)} {seen : List Bytes} :
    Tells (validateRows C mk table schema positions rows seen) P := by
  induction rows generalizing seen with
  | nil => exact Tells.pure _
  | cons literals rest ih =>
    refine tells_guardRead.seq fun _ => (Tells.ofExcept _).seq fun _ => ?_
    dsimp only
    split
    · exact tells_checkKey.seq fun _ => ih.seq fun _ => Tells.pure _
    · exact (Tells.pure _).seq fun _ => ih.seq fun _ => Tells.pure _

theorem tells_insert {columns : Option (List String)} {rows : List (List Literal)} :
    Tells (insert C mk table columns rows) P :=
  tells_expectSchema.seq fun _ => (Tells.ofExcept _).seq fun _ => tells_validateRows.seq fun _ =>
    tells_loadSeq.seq fun _ => (Tells.mapM fun _ => tells_loadRangeIndex.seq fun _ =>
      tells_sealRangeBlob).seq fun _ => Tells.pure _

theorem tells_checkAssignments {resolved : List (ℕ × Value)} {changed : List (Bytes × Row)} :
    Tells (checkAssignments C mk table schema resolved changed) P := by
  rw [checkAssignments]
  split
  · refine tells_guardRead.seq fun _ => tells_guardRead.seq fun _ => ?_
    split
    · exact Tells.pure _
    · exact tells_indexRowids.seq fun _ => tells_guardRead
  · exact Tells.pure _

theorem tells_explain {N : Sql.Formats} {inner : Statement} : Tells (explain C mk N inner) P := by
  rw [explain]
  split
  · exact Tells.fail _
  · exact tells_expectSchema.seq fun _ => (Tells.ofExcept _).seq fun _ => Tells.pure _

theorem tells_update {assignments : List Assignment} {predicate : Option Expr} :
    Tells (update C mk table assignments predicate) (QueryNote.IsOf table predicate) :=
  tells_filtered fun _ _ h => (Tells.ofExcept _).seq fun _ => (tells_matchingRows h).seq fun _ =>
    tells_checkAssignments.seq fun _ => (Tells.mapM fun _ => tells_loadRangeIndex.seq fun _ =>
      tells_sealRangeBlob).seq fun _ => Tells.pure _

theorem tells_delete {predicate : Option Expr} :
    Tells (delete C mk table predicate) (QueryNote.IsOf table predicate) :=
  tells_filtered fun _ _ h => (tells_matchingRows h).seq fun _ =>
    (Tells.mapM fun _ => tells_loadRangeIndex.seq fun _ => tells_sealRangeBlob).seq fun _ =>
      Tells.pure _

theorem tells_selectQuery {F : Floats} {cosine : CosineDistance} {projection : Projection}
    {predicate : Option Expr} {groupBy : List String} {having : Option HavingExpr}
    {orderBy : Option OrderBy} {limit : Option Limit} :
    Tells (selectQuery C mk F cosine table projection predicate groupBy having orderBy limit)
      (QueryNote.IsOf table predicate) := by
  refine tells_filtered fun _ _ h => ?_
  split
  · exact tells_guardRead.seq fun _ => (tells_matchingRows h).seq fun _ => Tells.ofExcept _
  · exact (Tells.ofExcept _).seq fun _ => (Tells.ofExcept _).seq fun _ =>
      (tells_matchingRows h).seq fun _ => (Tells.ofExcept _).seq fun _ => Tells.pure _

end

/-- The note is about the table and the filter of the statement. -/
def Statement.Notes (st : Statement) (note : QueryNote) : Prop :=
  ∃ table, st.table = some table ∧ note.IsOf table st.predicate

/-- What a program reads leaves notes about its statement only. -/
def Program.Tells {C : Crypto} (P : QueryNote → Prop) : Program C → Prop
  | .mutate q => q.Tells P
  | .query q => ∀ platform, (q platform).Tells P
  | _ => True

theorem tells_program {C : Crypto} {mk : C.MasterKey} (st : Statement) :
    (program C mk st).Tells st.Notes := by
  have hmono : ∀ {α : Type} {q : Read α} {table : String}, st.table = some table →
      q.Tells (QueryNote.IsOf table st.predicate) → q.Tells st.Notes :=
    fun ht h r n hn => ⟨_, ht, h r n hn⟩
  cases st with
  | createTable name columns => exact tells_createTable
  | dropTable name => exact tells_dropTable
  | createIndex table column range =>
    cases range
    · exact tells_createIndex
    · exact tells_createRangeIndex
  | dropIndex table column range =>
    cases range
    · exact tells_dropIndex
    · exact tells_dropRangeIndex
  | insert table columns rows => exact tells_insert
  | select projection table predicate groupBy having orderBy limit =>
    exact fun _ => hmono rfl (tells_selectQuery.seq fun _ => Query.Tells.pure _)
  | update table assignments predicate => exact hmono rfl tells_update
  | delete table predicate => exact hmono rfl tells_delete
  | explain inner => exact fun _ => tells_explain
  | begin => trivial
  | commit => trivial
  | rollback => trivial

theorem exists_of_mem_forall₂ {α β : Type} {R : α → β → Prop} {l : List α} {out : List β}
    (h : List.Forall₂ R l out) {b : β} (hb : b ∈ out) : ∃ a ∈ l, R a b := by
  induction h with
  | nil => cases hb
  | @cons x y _ _ hxy _ ih =>
    rcases List.mem_cons.mp hb with rfl | hb
    · exact ⟨x, List.mem_cons_self, hxy⟩
    · obtain ⟨a, ha, hR⟩ := ih hb
      exact ⟨a, List.mem_cons_of_mem _ ha, hR⟩

namespace Engine

variable {C : Crypto}

theorem telemetry_commitAudited (e : Engine C) (env : Env C) (plan : Plan C) :
    (e.commitAudited env plan).2.telemetry = e.telemetry := by
  rw [commitAudited]
  split
  · rfl
  · rw [commitWithAudit]
    split <;> rfl

/-- **A statement notes nothing but its own filter.** -/
theorem telemetry_executeStatement (e : Engine C) (env : Env C) (st : Statement) :
    ∀ note ∈ (e.executeStatement env st).2.telemetry, note ∈ e.telemetry ∨ st.Notes note := by
  have htells : (program C e.master st).Tells st.Notes := tells_program st
  have hread : ∀ {α : Type} {q : Read α}, q.Tells st.Notes →
      ∀ note ∈ (e.read q).2.telemetry, note ∈ e.telemetry ∨ st.Notes note := by
    intro α q h note hn
    exact (List.mem_append.mp hn).imp_right (h _ note)
  rw [executeStatement]
  cases hp : program C e.master st with
  | begin =>
    dsimp only
    rw [beginTransaction]
    split <;> exact fun _ => Or.inl
  | commit =>
    dsimp only
    rw [commitTransaction]
    split
    · split <;> exact fun _ => Or.inl
    · exact fun _ => Or.inl
  | rollback =>
    dsimp only
    rw [rollbackTransaction]
    split
    · dsimp only
      split <;> exact fun _ => Or.inl
    · exact fun _ => Or.inl
  | query q =>
    rw [hp] at htells
    exact hread (htells env.platform)
  | mutate q =>
    rw [hp] at htells
    have hq := hread htells
    dsimp only
    split
    · rename_i err e' he
      rw [he] at hq
      exact hq
    · rename_i plan e' he
      rw [he] at hq
      have hcommit := telemetry_commitAudited e' env plan
      split
      · rename_i e'' he'
        rw [he'] at hcommit
        exact hcommit ▸ hq
      · rename_i err e'' he'
        rw [he'] at hcommit
        exact hcommit ▸ hq

/-- A database that has just been opened has no telemetry. -/
theorem telemetry_openLocal {file : Bytes} {passphrase : String} {kdf : KdfParams}
    {env : OpenEnv C} {e : Engine C} (h : (openLocal file passphrase kdf env).1 = .ok e) :
    e.telemetry = [] := by
  have hhead : ∀ {store : Store} {mk : C.MasterKey}, openHead store true mk = .ok e →
      e.telemetry = [] := by
    intro store mk h
    rw [openHead] at h
    dsimp only at h
    split at h
    · cases h
      rfl
    · obtain ⟨head, -, h⟩ := bind_eq_ok.mp h
      cases h
      rfl
  have hcanary : ∀ {store : Store} {mk : C.MasterKey},
      (openCanary store true mk env).1 = .ok e → e.telemetry = [] := by
    intro store mk h
    rw [openCanary] at h
    split at h
    · split at h
      · cases h
      · exact hhead h
    · split at h
      · cases h
      · exact hhead h
  rw [openLocal, openStore] at h
  split at h
  · split at h
    · cases h
    · exact hcanary h
  · split at h
    · cases h
    · split at h
      · exact hcanary h
      · cases h

theorem telemetry_rotateTo (e : Engine C) (env : RotateEnv C) (newPassphrase : String)
    (kdf : KdfParams) : (e.rotateTo env newPassphrase kdf).2.telemetry = e.telemetry ∨
      (e.rotateTo env newPassphrase kdf).2.telemetry = [] := by
  rw [rotateTo]
  split
  · split
    · exact Or.inl rfl
    · dsimp only
      split
      · exact Or.inl rfl
      · rename_i reopened he
        exact Or.inr (telemetry_openLocal he)
  · exact Or.inl rfl

/-- What is advised has been noted, whether the counters wrap around or not. -/
theorem useCount_pos_of_advise {e : Engine C} {out : List IndexAdvice} (h : e.advise = .ok out)
    {a : IndexAdvice} (ha : a ∈ out) : 0 < useCount e.telemetry
      (if a.range then CmpOp.isRange else CmpOp.isEq) (a.table, a.column) := by
  rw [advise, adviseFrom, Query.run_bind_eq_ok] at h
  obtain ⟨lists, hlists, h⟩ := h
  cases h
  rw [Query.run_mapM] at hlists
  rw [List.mem_mergeSort] at ha
  obtain ⟨l, hl, ha⟩ := List.mem_flatten.mp ha
  obtain ⟨en, hen, hfound⟩ := exists_of_mem_forall₂ (forall₂_of_mapM hlists) hl
  rw [Query.run_bind_eq_ok] at hfound
  obtain ⟨s, -, hfound⟩ := hfound
  cases hfound
  obtain ⟨-, hstat⟩ := getElem?_ofNotes.mp ((OrdMap.mem_toList_iff _ _ _).mp hen)
  rw [hstat] at ha
  cases s with
  | none => cases ha
  | some s =>
    obtain ⟨hkey, hmatches⟩ := mem_adviceFor.mp ha
    rw [← hkey] at hmatches
    exact useCount_pos_of_matches hmatches

end Engine

namespace Session

variable {C : Crypto}

/-- In every run, each note is about a statement of the run. -/
theorem telemetry_run {s : Session C} (hs : s.Fresh) (steps : List (Step C)) :
    ∀ note ∈ (steps.foldl step s).engine.telemetry,
      ∃ env st, .statement env st ∈ steps ∧ st.Notes note := by
  induction steps using List.reverseRecOn with
  | nil =>
    obtain ⟨kdf, env, hopen⟩ := hs
    intro note hn
    rw [List.foldl_nil, Engine.telemetry_openLocal hopen] at hn
    cases hn
  | append_singleton steps act ih =>
    have hold : ∀ note ∈ (steps.foldl step s).engine.telemetry,
        ∃ env st, .statement env st ∈ steps ++ [act] ∧ st.Notes note := by
      intro note hn
      obtain ⟨env, st, hmem, hnotes⟩ := ih note hn
      exact ⟨env, st, List.mem_append_left _ hmem, hnotes⟩
    rw [List.foldl_append, List.foldl_cons, List.foldl_nil]
    cases act with
    | statement env st =>
      intro note hn
      rcases Engine.telemetry_executeStatement _ env st note hn with h | h
      · exact hold note h
      · exact ⟨env, st, List.mem_append_right _ (List.mem_singleton_self _), h⟩
    | rotate env newPassphrase kdf =>
      rw [step]
      have hrotate := Engine.telemetry_rotateTo (steps.foldl step s).engine env newPassphrase kdf
      split <;> rename_i engine he <;> rw [he] at hrotate <;> intro note hn <;>
        rcases hrotate with h | h
      all_goals
        change note ∈ engine.telemetry at hn
        rw [h] at hn
      · exact hold note hn
      · cases hn
      · exact hold note hn
      · cases hn
    | reopen env kdf =>
      rw [step]
      split
      · rename_i engine he
        intro note hn
        change note ∈ engine.telemetry at hn
        rw [Engine.telemetry_openLocal he] at hn
        cases hn
      · exact hold

/-- **The advice is about the run.** In every run of a new database, whatever its statements are and
whichever of them fail, an index is advised only for a column that a statement of the run has
compared in its filter, in the way that the index serves. -/
theorem advice_from_run {s : Session C} (hs : s.Fresh) (steps : List (Step C)) :
    ∀ a ∈ (steps.foldl step s).engine.advise.toOption.getD [],
      ∃ env st p, .statement env st ∈ steps ∧ st.table = some a.table ∧ st.predicate = some p ∧
        p.compares (if a.range then CmpOp.isRange else CmpOp.isEq) a.column = true := by
  intro a ha
  cases hout : (steps.foldl step s).engine.advise with
  | error err =>
    rw [hout] at ha
    cases ha
  | ok out =>
    rw [hout] at ha
    obtain ⟨note, hn, huses⟩ := List.countP_pos_iff.mp (Engine.useCount_pos_of_advise hout ha)
    obtain ⟨ht, hcompares⟩ := uses_iff.mp huses
    obtain ⟨env, st, hmem, table, htable, hnote, p, sch, hp, hcompile⟩ :=
      telemetry_run hs steps note hn
    rw [compares_compileExpr hcompile] at hcompares
    exact ⟨env, st, p, hmem, by rw [htable, ← hnote, ← ht], hp, hcompares⟩

/-- The filter that the advice after `filteredSteps` is about. -/
theorem advice_from_run_price : ∃ env st p, .statement env st ∈ filteredSteps ∧
    st.table = some "t" ∧ st.predicate = some p ∧ p.compares CmpOp.isEq "price" = true := by
  have hadvise : (filteredSteps.foldl step clearSession).engine.advise =
      .ok [⟨"t", "price", false, 1, 1, "CREATE INDEX ON t (price)"⟩] := by decide +kernel
  have h := advice_from_run fresh_clearSession filteredSteps
  rw [hadvise] at h
  exact h _ (List.mem_singleton_self _)

end Session

end Ciphra
