import Ciphra.Engine.Aggregate
import Ciphra.Foundations.Ordering
import Ciphra.Foundations.Query

/-!
# What an aggregate query returns

The mathematics of an aggregate query is stated on the names of its columns and on the group of a
key as a list of rows (`SelectItem.value`): a count, an exact sum, a least or greatest value, each
ignoring `NULL`s. `aggregate_eq` computes the result of `aggregate` from it, whatever order the rows
come in. The computation tells groups apart by the encoded bytes of their keys, so it is right
exactly when these bytes tell the keys apart (`aggregate_correct_iff`); the encoding narrows the
length of a text to 32 bits, and two keys with a text of that length can have the same bytes. Rows
that were read from a store have no such texts.
-/

namespace Ciphra

/-! ## The order of values -/

theorem keyCompare_swap (v w : Value) : Value.keyCompare v w = (Value.keyCompare w v).swap :=
  Std.OrientedCmp.eq_swap

/-- The values of a column are totally ordered. -/
theorem orderOn_compareValues (ty : DataType) :
    OrderOn (fun v : Value => v.OfType ty) fun v w => (compareValues v w).isLE where
  total v w hv hw := by
    rw [hv.compareValues hw, hw.compareValues hv, keyCompare_swap v w]
    cases Value.keyCompare w v <;> simp
  trans u v w hu hv hw huv hvw := by
    rw [hu.compareValues hv] at huv
    rw [hv.compareValues hw] at hvw
    rw [hu.compareValues hw]
    exact Std.TransCmp.isLE_trans huv hvw
  antisymm v w hv hw hvw hwv := by
    rw [← hv.compareValues_eq_iff hw]
    rw [hv.compareValues hw] at hvw ⊢
    rw [hw.compareValues hv, keyCompare_swap] at hwv
    cases hvw' : Value.keyCompare v w <;> simp_all

/-! ## Aggregates of a group -/

/-- A row of the schema: a value of its type for each column. -/
def RowOf (schema : TableSchema) (row : Row) : Prop :=
  List.Forall₂ (fun (v : Value) (c : ColumnDef) => v.OfType c.ty) row schema.columns

theorem RowOf.cell {schema : TableSchema} {row : Row} (h : RowOf schema row) {i : ℕ}
    {c : ColumnDef} (hc : schema.columns[i]? = some c) : (row.cell i).OfType c.ty := by
  obtain ⟨hlen, hget⟩ := List.forall₂_iff_get.mp h
  obtain ⟨hi, rfl⟩ := List.getElem?_eq_some_iff.mp hc
  have hi' : i < row.length := hlen ▸ hi
  have := hget i hi' hi
  simpa [Row.cell, hi'] using this

/-- The values of a column that are not `NULL`. -/
def presentValues (col : ℕ) (rows : List Row) : List Value :=
  (rows.map fun r => r.cell col).filter fun v => !v.isNull

theorem presentValues_concat (col : ℕ) (rows : List Row) (row : Row) :
    presentValues col (rows ++ [row]) = presentValues col rows ++
      if (row.cell col).isNull then [] else [row.cell col] := by
  cases h : (row.cell col).isNull <;> simp [presentValues, h]

theorem ofType_presentValues {schema : TableSchema} {rows : List Row}
    (h : ∀ r ∈ rows, RowOf schema r) {i : ℕ} {c : ColumnDef} (hc : schema.columns[i]? = some c) :
    ∀ v ∈ presentValues i rows, v.OfType c.ty := by
  intro v hv
  obtain ⟨r, hr, rfl⟩ := List.mem_map.mp (List.mem_of_mem_filter hv)
  exact (h r hr).cell hc

/-- The exact sum of integers. -/
def exactSum (vs : List Value) : ℤ :=
  (vs.map fun v => match v with
    | .int n => n.toInt
    | _ => 0).sum

/-- The sum is no 64-bit integer. -/
def sumOverflows (vs : List Value) : Bool := !(-2 ^ 63 ≤ exactSum vs && exactSum vs < 2 ^ 63)

/-- The least value, `NULL` if there is none. -/
def minimum (vs : List Value) : Option Value := extremum (fun v w => (compareValues v w).isLE) vs

/-- The greatest value. -/
def maximum (vs : List Value) : Option Value := extremum (fun v w => (compareValues w v).isLE) vs

namespace AggPlan

/-- The accumulator of a plan after the rows of a group. -/
def acc (rows : List Row) : AggPlan → AggAcc
  | .groupCol _ => .groupCol
  | .count none => .count (Int64.ofNat rows.length)
  | .count (some col) => .count (Int64.ofNat (presentValues col rows).length)
  | .sumInt col => .sumInt (exactSum (presentValues col rows)) (!(presentValues col rows).isEmpty)
  | .min col => .extreme (minimum (presentValues col rows))
  | .max col => .extreme (maximum (presentValues col rows))
  -- floating-point totals depend on the order of the rows
  | .sumReal _ => .sumReal ⟨0⟩ false
  | .avg _ => .avg ⟨0⟩ 0

/-- A plan of integers and orders, on columns of the schema. -/
def Exact (schema : TableSchema) : AggPlan → Prop
  | .groupCol _ | .count _ => True
  | .sumInt col => ∃ c, schema.columns[col]? = some c ∧ c.ty = .int
  | .min col | .max col => ∃ c, schema.columns[col]? = some c
  | .sumReal _ | .avg _ => False

/-- The value of a plan for a group. -/
def value (key : Row) (rows : List Row) : AggPlan → Value
  | .groupCol pos => key.cell pos
  | .count none => .int (Int64.ofNat rows.length)
  | .count (some col) => .int (Int64.ofNat (presentValues col rows).length)
  | .sumInt col =>
    if (presentValues col rows).isEmpty then .null
    else .int (Int64.ofInt (exactSum (presentValues col rows)))
  | .min col => (minimum (presentValues col rows)).getD .null
  | .max col => (maximum (presentValues col rows)).getD .null
  | .sumReal _ | .avg _ => .null

/-- The plan is a sum that is no 64-bit integer. -/
def overflows (rows : List Row) : AggPlan → Bool
  | .sumInt col => sumOverflows (presentValues col rows)
  | _ => false

theorem acc_nil (plan : AggPlan) : plan.acc [] = initAcc plan := by
  cases plan with
  | count col => cases col <;> rfl
  | groupCol pos | sumInt col | sumReal col | avg col | min col | max col => rfl

end AggPlan

theorem compareValues_beq_lt {v w : Value} {ty : DataType} (hv : v.OfType ty) (hw : w.OfType ty) :
    (compareValues v w == .lt) = !(compareValues w v).isLE := by
  rw [hv.compareValues hw, hw.compareValues hv, keyCompare_swap]
  cases Value.keyCompare w v <;> rfl

theorem beq_gt (o : Ordering) : (o == .gt) = !o.isLE := by cases o <;> rfl

/-- Folding one more value into the least value. -/
theorem updateExtreme_minimum {vs : List Value} {v : Value} {ty : DataType}
    (hvs : ∀ w ∈ vs, w.OfType ty) (hv : v.OfType ty) :
    updateExtreme (minimum vs) v true = minimum (vs ++ if v.isNull then [] else [v]) := by
  cases hnull : v.isNull with
  | true => simp [updateExtreme, hnull]
  | false =>
    rw [minimum, minimum, if_neg (by simp), (orderOn_compareValues ty).extremum_concat hvs hv]
    cases hm : extremum (fun v w => (compareValues v w).isLE) vs with
    | none => simp [updateExtreme, hnull]
    | some m =>
      have hmt := hvs m (extremum_mem hm).1
      simp only [updateExtreme, hnull, compareValues_beq_lt hv hmt]
      cases (compareValues m v).isLE <;> rfl

theorem updateExtreme_maximum {vs : List Value} {v : Value} {ty : DataType}
    (hvs : ∀ w ∈ vs, w.OfType ty) (hv : v.OfType ty) :
    updateExtreme (maximum vs) v false = maximum (vs ++ if v.isNull then [] else [v]) := by
  cases hnull : v.isNull with
  | true => simp [updateExtreme, hnull]
  | false =>
    rw [maximum, maximum, if_neg (by simp), (orderOn_compareValues ty).swap.extremum_concat hvs hv]
    cases hm : extremum (fun v w => (compareValues w v).isLE) vs with
    | none => simp [updateExtreme, hnull]
    | some m =>
      simp only [updateExtreme, hnull, beq_gt]
      cases (compareValues v m).isLE <;> rfl

/-- **One row.** -/
theorem accumulate_acc (F : Floats) {schema : TableSchema} {plan : AggPlan}
    (hp : plan.Exact schema) {rows : List Row} {row : Row} (hrows : ∀ r ∈ rows, RowOf schema r)
    (hrow : RowOf schema row) :
    accumulate F row plan (plan.acc rows) = .ok (plan.acc (rows ++ [row])) := by
  cases plan with
  | groupCol pos => rfl
  | count col =>
    cases col with
    | none =>
      simp only [AggPlan.acc, accumulate, List.length_append, List.length_singleton]
      rw [Int64.ofNat_add]
      rfl
    | some col =>
      simp only [AggPlan.acc, accumulate, presentValues_concat]
      cases (row.cell col).isNull with
      | true => simp
      | false =>
        simp only [Bool.false_eq_true, if_false, List.length_append, List.length_singleton]
        rw [Int64.ofNat_add]
        rfl
  | sumInt col =>
    obtain ⟨c, hc, hty⟩ := hp
    have hcell := hrow.cell hc
    rw [hty] at hcell
    simp only [AggPlan.acc, accumulate, presentValues_concat]
    cases hv : row.cell col with
    | null => simp [Value.isNull]
    | int n => simp [Value.isNull, exactSum]
    | real x | text s | vector v => exact absurd (hv ▸ hcell) (by simp [Value.OfType])
  | sumReal col | avg col => exact hp.elim
  | min col =>
    obtain ⟨c, hc⟩ := hp
    simp only [AggPlan.acc, accumulate, presentValues_concat]
    rw [updateExtreme_minimum (ofType_presentValues hrows hc) (hrow.cell hc)]
  | max col =>
    obtain ⟨c, hc⟩ := hp
    simp only [AggPlan.acc, accumulate, presentValues_concat]
    rw [updateExtreme_maximum (ofType_presentValues hrows hc) (hrow.cell hc)]

theorem finalizePlan_sumInt (F : Floats) (col : ℕ) (key : Row) (vs : List Value) :
    finalizePlan F (.sumInt col) (.sumInt (exactSum vs) (!vs.isEmpty)) key =
      if sumOverflows vs then .error sumOverflow
      else .ok (if vs.isEmpty then .null else .int (Int64.ofInt (exactSum vs))) := by
  cases vs with
  | nil => rfl
  | cons v vs =>
    simp only [finalizePlan, sumOverflows, List.isEmpty_cons, Bool.not_false, if_true,
      Bool.false_eq_true, if_false]
    by_cases h : -2 ^ 63 ≤ exactSum (v :: vs) ∧ exactSum (v :: vs) < 2 ^ 63
    · rw [if_pos h, if_neg]
      simpa using h
    · rw [if_neg h, if_pos]
      simp only [Bool.not_eq_true', Bool.and_eq_false_iff, decide_eq_false_iff_not]
      exact not_and_or.mp h

/-- **The value of a group.** -/
theorem finalizePlan_acc (F : Floats) {schema : TableSchema} {plan : AggPlan}
    (hp : plan.Exact schema) (key : Row) (rows : List Row) :
    finalizePlan F plan (plan.acc rows) key =
      if plan.overflows rows then .error sumOverflow else .ok (plan.value key rows) := by
  cases plan with
  | groupCol pos => rfl
  | count col => cases col <;> rfl
  | sumInt col => exact finalizePlan_sumInt F col key (presentValues col rows)
  | sumReal col | avg col => exact hp.elim
  | min col => rfl
  | max col => rfl

/-! ## Groups -/

/-- The rows whose keys have the same bytes as the key. -/
def rowsAt (groupIdx : List ℕ) (key : Row) (rows : List Row) : List Row :=
  rows.filter fun r => encodeRow (groupIdx.map r.cell) == encodeRow key

/-- The groups of the rows, in the order of their keys. -/
def Groups.of (plans : List AggPlan) (groupIdx : List ℕ) (rows : List Row) (keys : List Row) :
    Groups where
  groups := keys.map fun k => (k, plans.map fun plan => plan.acc (rowsAt groupIdx k rows))
  index := keys.zipIdx.map fun p => (encodeRow p.1, p.2)

/-- The keys after one more row: a key whose bytes are new joins at the end. -/
def addKey (keys : List Row) (key : Row) : List Row :=
  if encodeRow key ∈ keys.map encodeRow then keys else keys ++ [key]

theorem rowsAt_concat (groupIdx : List ℕ) (key : Row) (rows : List Row) (row : Row) :
    rowsAt groupIdx key (rows ++ [row]) = rowsAt groupIdx key rows ++
      if encodeRow (groupIdx.map row.cell) = encodeRow key then [row] else [] := by
  by_cases h : encodeRow (groupIdx.map row.cell) = encodeRow key <;> simp [rowsAt, h]

theorem zip_map_self {α β : Type} (f : α → β) (l : List α) :
    l.zip (l.map f) = l.map fun a => (a, f a) := by
  induction l with
  | nil => rfl
  | cons a l ih => simp [ih]

/-- Looking a key up finds the position of the group with its bytes. -/
theorem lookup_zipIdx (keys : List Row) (b : Bytes) (n : ℕ) :
    ((keys.zipIdx n).map fun p => (encodeRow p.1, p.2)).lookup b =
      (keys.findIdx? fun k => encodeRow k == b).map (· + n) := by
  induction keys generalizing n with
  | nil => rfl
  | cons k keys ih =>
    rw [List.zipIdx_cons, List.map_cons, List.lookup_cons, List.findIdx?_cons]
    by_cases hk : encodeRow k = b
    · simp [hk]
    · have hk' : (b == encodeRow k) = false := by simpa using Ne.symm hk
      have hk'' : (encodeRow k == b) = false := by simpa using hk
      rw [hk', hk'', ih]
      simp only [Bool.false_eq_true, if_false, Option.map_map]
      congr 1
      funext i
      simp only [Function.comp_apply]
      omega

/-- What a row adds to the group at its position, and to that group alone. -/
theorem set_groups {plans : List AggPlan} {groupIdx : List ℕ} {rows keys : List Row} {row : Row}
    (hnodup : (keys.map encodeRow).Nodup) {i : ℕ} {k : Row} (hi : keys[i]? = some k)
    (hk : encodeRow k = encodeRow (groupIdx.map row.cell)) :
    (Groups.of plans groupIdx rows keys).groups.set i
        (k, plans.map fun plan => plan.acc (rowsAt groupIdx k rows ++ [row])) =
      (Groups.of plans groupIdx (rows ++ [row]) keys).groups := by
  apply List.ext_getElem?
  intro j
  simp only [Groups.of, List.getElem?_set, List.getElem?_map, List.length_map]
  by_cases hij : i = j
  · subst hij
    have hlt := (List.getElem?_eq_some_iff.mp hi).1
    rw [if_pos rfl, if_pos hlt, hi, Option.map_some, rowsAt_concat, if_pos hk.symm]
  · simp only [hij, if_false]
    cases hj : keys[j]? with
    | none => rfl
    | some k' =>
      have hne : encodeRow (groupIdx.map row.cell) ≠ encodeRow k' := by
        intro he
        apply hij
        have hlt : i < (keys.map encodeRow).length := by
          simpa using (List.getElem?_eq_some_iff.mp hi).1
        apply (List.getElem?_inj hlt hnodup).mp
        rw [List.getElem?_map, List.getElem?_map, hi, hj, Option.map_some, Option.map_some, hk, he]
      simp [rowsAt_concat, hne]

/-- A key that is not found is new, and no row has it. -/
theorem rowsAt_of_findIdx?_eq_none {groupIdx : List ℕ} {rows keys : List Row} {key : Row}
    (hcomplete : ∀ r ∈ rows, encodeRow (groupIdx.map r.cell) ∈ keys.map encodeRow)
    (hfind : (keys.findIdx? fun k => encodeRow k == encodeRow key) = none) :
    encodeRow key ∉ keys.map encodeRow ∧ rowsAt groupIdx key rows = [] := by
  have hmem : encodeRow key ∉ keys.map encodeRow := by
    intro hmem
    obtain ⟨k, hk, he⟩ := List.mem_map.mp hmem
    simpa [he] using List.findIdx?_eq_none_iff.mp hfind k hk
  refine ⟨hmem, ?_⟩
  rw [rowsAt, List.filter_eq_nil_iff]
  intro r hr he
  rw [beq_iff_eq] at he
  exact hmem (he ▸ hcomplete r hr)

/-- The group of a row, old or new. -/
theorem entry_of (plans : List AggPlan) {groupIdx : List ℕ} {rows keys : List Row} (key : Row)
    (hcomplete : ∀ r ∈ rows, encodeRow (groupIdx.map r.cell) ∈ keys.map encodeRow) :
    ∃ i k, (addKey keys key)[i]? = some k ∧ encodeRow k = encodeRow key ∧
      (Groups.of plans groupIdx rows keys).entry plans key =
        (i, Groups.of plans groupIdx rows (addKey keys key)) := by
  have hlookup := lookup_zipIdx keys (encodeRow key) 0
  change (Groups.of plans groupIdx rows keys).index.lookup (encodeRow key) = _ at hlookup
  rw [Groups.entry, hlookup]
  cases hfind : keys.findIdx? fun k => encodeRow k == encodeRow key with
  | some i =>
    obtain ⟨hlt, hi, -⟩ := List.findIdx?_eq_some_iff_getElem.mp hfind
    have hk : encodeRow keys[i] = encodeRow key := by simpa using hi
    have hmem : encodeRow key ∈ keys.map encodeRow :=
      List.mem_map.mpr ⟨keys[i], List.getElem_mem hlt, hk⟩
    rw [addKey, if_pos hmem]
    exact ⟨i, keys[i], List.getElem?_eq_getElem hlt, hk, rfl⟩
  | none =>
    obtain ⟨hmem, hfresh⟩ := rowsAt_of_findIdx?_eq_none hcomplete hfind
    have hacc : (plans.map fun plan => plan.acc (rowsAt groupIdx key rows)) = plans.map initAcc := by
      rw [hfresh]
      exact List.map_congr_left fun plan _ => plan.acc_nil
    rw [addKey, if_neg hmem]
    refine ⟨keys.length, key, by simp, rfl, ?_⟩
    simp [Groups.of, hacc, List.zipIdx_append]

theorem nodup_addKey {keys : List Row} (h : (keys.map encodeRow).Nodup) (key : Row) :
    ((addKey keys key).map encodeRow).Nodup := by
  rw [addKey]
  split
  · exact h
  · rename_i hnew
    rw [List.map_append, List.nodup_append]
    refine ⟨h, by simp, fun a ha b hb => ?_⟩
    rw [List.map_singleton, List.mem_singleton] at hb
    rw [hb]
    intro hab
    exact hnew (hab ▸ ha)

/-- **One round of the loop.** -/
theorem addRow_of (F : Floats) {schema : TableSchema} {plans : List AggPlan} {groupIdx : List ℕ}
    {rows keys : List Row} {row : Row} (hplans : ∀ plan ∈ plans, plan.Exact schema)
    (hrows : ∀ r ∈ rows, RowOf schema r) (hrow : RowOf schema row)
    (hnodup : (keys.map encodeRow).Nodup)
    (hcomplete : ∀ r ∈ rows, encodeRow (groupIdx.map r.cell) ∈ keys.map encodeRow) :
    (Groups.of plans groupIdx rows keys).addRow F plans groupIdx row =
      .ok (Groups.of plans groupIdx (rows ++ [row]) (addKey keys (groupIdx.map row.cell))) := by
  obtain ⟨i, k, hi, hk, hentry⟩ :=
    entry_of plans (groupIdx.map row.cell) hcomplete
  have hget : (Groups.of plans groupIdx rows (addKey keys (groupIdx.map row.cell))).groups[i]? =
      some (k, plans.map fun plan => plan.acc (rowsAt groupIdx k rows)) := by
    simp [Groups.of, hi]
  have haccs : (plans.zip (plans.map fun plan => plan.acc (rowsAt groupIdx k rows))).mapM
      (fun p => accumulate F row p.1 p.2) =
        .ok (plans.map fun plan => plan.acc (rowsAt groupIdx k rows ++ [row])) := by
    rw [zip_map_self, List.mapM_map]
    refine mapM_ok fun plan hplan => ?_
    exact accumulate_acc F (hplans plan hplan) (fun r hr => hrows r (List.mem_of_mem_filter hr)) hrow
  simp only [Groups.addRow, hentry, hget]
  rw [haccs, ok_bind, set_groups (nodup_addKey hnodup _) hi hk]
  rfl

/-- What the loop knows of the keys it found. -/
structure KeysOf (groupIdx : List ℕ) (rows keys : List Row) : Prop where
  nodup : (keys.map encodeRow).Nodup
  complete : ∀ r ∈ rows, encodeRow (groupIdx.map r.cell) ∈ keys.map encodeRow
  sound : ∀ k ∈ keys, (groupIdx = [] ∧ k = []) ∨ ∃ r ∈ rows, groupIdx.map r.cell = k
  seeded : groupIdx = [] → [] ∈ keys

theorem KeysOf.addRow {groupIdx : List ℕ} {rows keys : List Row} (h : KeysOf groupIdx rows keys)
    (row : Row) : KeysOf groupIdx (rows ++ [row]) (addKey keys (groupIdx.map row.cell)) where
  nodup := nodup_addKey h.nodup _
  complete := by
    intro r hr
    have hsub : ∀ b ∈ keys.map encodeRow,
        b ∈ (addKey keys (groupIdx.map row.cell)).map encodeRow := by
      intro b hb
      rw [addKey]
      split
      · exact hb
      · exact List.map_append ▸ List.mem_append_left _ hb
    rcases List.mem_append.mp hr with hr | hr
    · exact hsub _ (h.complete r hr)
    · rw [List.mem_singleton.mp hr, addKey]
      split
      · assumption
      · simp
  sound := by
    have hold : ∀ k ∈ keys, (groupIdx = [] ∧ k = []) ∨
        ∃ r ∈ rows ++ [row], groupIdx.map r.cell = k := by
      intro k hk
      rcases h.sound k hk with hk | ⟨r, hr, hk⟩
      · exact Or.inl hk
      · exact Or.inr ⟨r, List.mem_append_left _ hr, hk⟩
    intro k hk
    rw [addKey] at hk
    split at hk
    · exact hold k hk
    · rcases List.mem_append.mp hk with hk | hk
      · exact hold k hk
      · exact Or.inr ⟨row, by simp, (List.mem_singleton.mp hk).symm⟩
  seeded := by
    intro hempty
    rw [addKey]
    split
    · exact h.seeded hempty
    · exact List.mem_append_left _ (h.seeded hempty)

/-- **The loop over the rows.** -/
theorem foldlM_addRow (F : Floats) {schema : TableSchema} {plans : List AggPlan}
    {groupIdx : List ℕ} (hplans : ∀ plan ∈ plans, plan.Exact schema) (rest : List Row) :
    ∀ {rows keys : List Row}, (∀ r ∈ rows ++ rest, RowOf schema r) → KeysOf groupIdx rows keys →
      ∃ keys', KeysOf groupIdx (rows ++ rest) keys' ∧
        rest.foldlM (Groups.addRow F plans groupIdx) (Groups.of plans groupIdx rows keys) =
          .ok (Groups.of plans groupIdx (rows ++ rest) keys') := by
  induction rest with
  | nil =>
    intro rows keys hrows hkeys
    rw [List.append_nil]
    exact ⟨keys, hkeys, rfl⟩
  | cons row rest ih =>
    intro rows keys hrows hkeys
    have hstep := addRow_of F hplans (fun r hr => hrows r (List.mem_append_left _ hr))
      (hrows row (by simp)) hkeys.nodup hkeys.complete
    have hassoc : rows ++ row :: rest = (rows ++ [row]) ++ rest := by simp
    rw [hassoc] at hrows ⊢
    obtain ⟨keys', hkeys', hfold⟩ := ih hrows (hkeys.addRow row)
    refine ⟨keys', hkeys', ?_⟩
    rw [List.foldlM_cons, hstep]
    exact hfold

/-! ## Resolving -/

/-- The position of a column that is there. -/
def TableSchema.position (schema : TableSchema) (name : String) : ℕ :=
  (schema.columnIndex name).getD 0

/-- The values of a column of the rows, by its name. -/
def TableSchema.values (schema : TableSchema) (name : String) (rows : List Row) : List Value :=
  presentValues (schema.position name) rows

namespace SelectItem

/-- The output column of an item. -/
def name : SelectItem → String
  | .column name => name
  | .aggregate func arg => aggregateName func arg

/-- The item resolves, to a grouping column, a count, a sum of integers or an extreme value. -/
def Admissible (schema : TableSchema) (groupBy : List String) : SelectItem → Prop
  | .column name => name ∈ groupBy
  | .aggregate func .star => func = .count
  | .aggregate func (.column col) =>
    ∃ i c, schema.columnIndex col = some i ∧ schema.columns[i]? = some c ∧
      match func with
      | .count => True
      | .sum => c.ty = .int
      | .min | .max => ∀ dim, c.ty ≠ .vector dim
      | .avg => False

/-- The value of an item for a group, given as its key and its rows. -/
def value (schema : TableSchema) (groupBy : List String) (key : Row) (rows : List Row) :
    SelectItem → Value
  | .column name => key.cell (groupBy.idxOf name)
  | .aggregate .count .star => .int (Int64.ofNat rows.length)
  | .aggregate .count (.column col) => .int (Int64.ofNat (schema.values col rows).length)
  | .aggregate .sum (.column col) =>
    if (schema.values col rows).isEmpty then .null
    else .int (Int64.ofInt (exactSum (schema.values col rows)))
  | .aggregate .min (.column col) => (minimum (schema.values col rows)).getD .null
  | .aggregate .max (.column col) => (maximum (schema.values col rows)).getD .null
  -- not admissible
  | .aggregate _ _ => .null

/-- The plan an admissible item resolves to. -/
def plan (schema : TableSchema) (groupBy : List String) : SelectItem → AggPlan
  | .column name => .groupCol (groupBy.idxOf name)
  | .aggregate .count (.column col) => .count (some (schema.position col))
  | .aggregate .sum (.column col) => .sumInt (schema.position col)
  | .aggregate .min (.column col) => .min (schema.position col)
  | .aggregate .max (.column col) => .max (schema.position col)
  | .aggregate .avg (.column col) => .avg (schema.position col)
  | .aggregate _ .star => .count none

end SelectItem

theorem groupColPos_eq {groupBy : List String} {name : String} (h : name ∈ groupBy) :
    groupColPos groupBy name = .ok (groupBy.idxOf name) := by
  have hfind : groupBy.findIdx? (fun g => g == name) = some (groupBy.idxOf name) := by
    rw [List.findIdx?_eq_some_iff_getElem]
    have hlt : groupBy.idxOf name < groupBy.length := List.idxOf_lt_length_iff.mpr h
    refine ⟨hlt, by simp, fun j hj => ?_⟩
    simpa using List.not_of_lt_findIdx hj
  rw [groupColPos, hfind]

/-- An admissible item resolves, and its plan computes its value. -/
theorem resolveItem_eq {schema : TableSchema} {groupBy : List String} {item : SelectItem}
    (table : String) (h : item.Admissible schema groupBy) :
    resolveItem schema table groupBy item = .ok (item.plan schema groupBy, item.name) ∧
      (item.plan schema groupBy).Exact schema ∧
      ∀ key rows, (item.plan schema groupBy).value key rows =
        item.value schema groupBy key rows := by
  cases item with
  | column name =>
    refine ⟨?_, trivial, fun key rows => rfl⟩
    rw [resolveItem, groupColPos_eq h]
    rfl
  | aggregate func arg =>
    cases arg with
    | star =>
      cases h
      exact ⟨rfl, trivial, fun key rows => rfl⟩
    | column col =>
      obtain ⟨i, c, hi, hc, hfunc⟩ := h
      have hpos : schema.position col = i := by rw [TableSchema.position, hi, Option.getD_some]
      cases func with
      | count =>
        refine ⟨?_, trivial, fun key rows => rfl⟩
        simp [resolveItem, resolveAggregate, resolveColumn, hi, SelectItem.plan, hpos,
          SelectItem.name]
      | sum =>
        refine ⟨?_, ⟨c, hpos ▸ hc, hfunc⟩, fun key rows => rfl⟩
        have hty : c.ty = .int := hfunc
        simp only [resolveItem, resolveAggregate, resolveColumn, hi, hc, hty, SelectItem.plan, hpos,
          ok_bind, Option.map_some, Option.getD_some]
        rfl
      | avg => exact hfunc.elim
      | min =>
        refine ⟨?_, ⟨c, hpos ▸ hc⟩, fun key rows => rfl⟩
        simp only [resolveItem, resolveAggregate, resolveColumn, hi, hc, SelectItem.plan, hpos,
          ok_bind, Option.map_some, Option.getD_some]
        cases hty : c.ty with
        | vector dim => exact absurd hty (hfunc dim)
        | int | real | text => rfl
      | max =>
        refine ⟨?_, ⟨c, hpos ▸ hc⟩, fun key rows => rfl⟩
        simp only [resolveItem, resolveAggregate, resolveColumn, hi, hc, SelectItem.plan, hpos,
          ok_bind, Option.map_some, Option.getD_some]
        cases hty : c.ty with
        | vector dim => exact absurd hty (hfunc dim)
        | int | real | text => rfl

/-- The operand of a `HAVING` comparison, as a projected item. -/
def HavingTerm.item : HavingTerm → SelectItem
  | .column name => .column name
  | .aggregate func arg => .aggregate func arg

namespace HavingExpr

/-- Every operand resolves. -/
def Admissible (schema : TableSchema) (groupBy : List String) : HavingExpr → Prop
  | .compare term _ _ => term.item.Admissible schema groupBy
  | .not inner => inner.Admissible schema groupBy
  | .and a b | .or a b => a.Admissible schema groupBy ∧ b.Admissible schema groupBy

/-- The aggregates of the predicate, from left to right. -/
def aggregates : HavingExpr → List SelectItem
  | .compare (.column _) _ _ => []
  | .compare (.aggregate func arg) _ _ => [.aggregate func arg]
  | .not inner => inner.aggregates
  | .and a b | .or a b => a.aggregates ++ b.aggregates

/-- The truth of the predicate, given the values of its operands. -/
def truth (value : SelectItem → Value) : HavingExpr → Option Bool
  | .compare term op literal => compareHaving op (value term.item) (literalToValue literal)
  | .not inner => (inner.truth value).map fun b => !b
  | .and a b => kleeneAnd (a.truth value) (b.truth value)
  | .or a b => kleeneOr (a.truth value) (b.truth value)

end HavingExpr

/-- The computed values of a group hold, at the position of every plan, the plan's value. -/
def Computes (computed key : Row) (rows : List Row) (plans : List AggPlan) : Prop :=
  ∀ i plan, plans[i]? = some plan → computed.cell i = plan.value key rows

theorem Computes.left {computed key : Row} {rows : List Row} {plans more : List AggPlan}
    (h : Computes computed key rows (plans ++ more)) : Computes computed key rows plans := by
  intro i plan hi
  have hlt := (List.getElem?_eq_some_iff.mp hi).1
  exact h i plan (by rw [List.getElem?_append_left hlt, hi])

/-- The plans of the aggregates. -/
def HavingExpr.plans (schema : TableSchema) (groupBy : List String) (e : HavingExpr) :
    List AggPlan := e.aggregates.map fun item => item.plan schema groupBy

/-- The predicate compiles after some plans: its own plans follow them, and the compiled predicate
is true of the computed values when the predicate is true of the group. -/
structure CompilesTo (schema : TableSchema) (table : String) (groupBy : List String)
    (e : HavingExpr) (plans : List AggPlan) (c : CompiledHaving) : Prop where
  compiles : compileHaving schema table groupBy e plans = .ok (c, plans ++ e.plans schema groupBy)
  eval : ∀ computed key rows, Computes computed key rows (plans ++ e.plans schema groupBy) →
    evalHaving computed key c = e.truth fun item => item.value schema groupBy key rows

/-- Both sides of a connective: the plans of the second follow those of the first. -/
theorem CompilesTo.both {schema : TableSchema} {table : String} {groupBy : List String}
    {a b : HavingExpr} {plans : List AggPlan} {ca cb : CompiledHaving}
    (ha : CompilesTo schema table groupBy a plans ca)
    (hb : CompilesTo schema table groupBy b (plans ++ a.plans schema groupBy) cb)
    {computed key : Row} {rows : List Row} (hcomp : Computes computed key rows
      (plans ++ (a.plans schema groupBy ++ b.plans schema groupBy))) :
    evalHaving computed key ca = a.truth (fun item => item.value schema groupBy key rows) ∧
      evalHaving computed key cb = b.truth fun item => item.value schema groupBy key rows := by
  rw [← List.append_assoc] at hcomp
  exact ⟨ha.eval computed key rows hcomp.left, hb.eval computed key rows hcomp⟩

theorem exists_compilesTo {schema : TableSchema} {groupBy : List String} (table : String)
    {e : HavingExpr} (h : e.Admissible schema groupBy) (plans : List AggPlan) :
    ∃ c, CompilesTo schema table groupBy e plans c := by
  induction e generalizing plans with
  | compare term op literal =>
    cases term with
    | column name =>
      refine ⟨.compare (.groupKey (groupBy.idxOf name)) op (literalToValue literal), ?_, ?_⟩
      · rw [compileHaving, groupColPos_eq h, ok_bind, HavingExpr.plans, HavingExpr.aggregates,
          List.map_nil, List.append_nil]
        rfl
      · intro computed key rows _
        rfl
    | aggregate func arg =>
      obtain ⟨hres, -, hvalue⟩ := resolveItem_eq table h
      obtain ⟨plan, hplan, hpure⟩ := bind_eq_ok.mp hres
      cases hpure
      refine ⟨.compare (.plan plans.length) op (literalToValue literal), ?_, ?_⟩
      · rw [compileHaving, hplan]
        rfl
      · intro computed key rows hcomp
        have hcell := hcomp plans.length _
          (by rw [List.getElem?_append_right le_rfl, Nat.sub_self]; rfl)
        rw [evalHaving, hcell, HavingExpr.truth]
        exact congrArg (fun v => compareHaving op v (literalToValue literal)) (hvalue key rows)
  | not inner ih =>
    obtain ⟨c, hc⟩ := ih h plans
    refine ⟨.not c, by rw [compileHaving, hc.compiles]; rfl, fun computed key rows hcomp => ?_⟩
    rw [evalHaving, hc.eval computed key rows hcomp, HavingExpr.truth]
  | and a b iha ihb =>
    obtain ⟨ca, hca⟩ := iha h.1 plans
    obtain ⟨cb, hcb⟩ := ihb h.2 (plans ++ a.plans schema groupBy)
    refine ⟨.and ca cb, ?_, fun computed key rows hcomp => ?_⟩
    · simp only [compileHaving, hca.compiles, hcb.compiles, ok_bind]
      rw [List.append_assoc, HavingExpr.plans, HavingExpr.plans, HavingExpr.plans,
        HavingExpr.aggregates, List.map_append]
      rfl
    · rw [HavingExpr.plans, HavingExpr.aggregates, List.map_append] at hcomp
      obtain ⟨hevala, hevalb⟩ := hca.both hcb hcomp
      rw [evalHaving, hevala, hevalb, HavingExpr.truth]
  | or a b iha ihb =>
    obtain ⟨ca, hca⟩ := iha h.1 plans
    obtain ⟨cb, hcb⟩ := ihb h.2 (plans ++ a.plans schema groupBy)
    refine ⟨.or ca cb, ?_, fun computed key rows hcomp => ?_⟩
    · simp only [compileHaving, hca.compiles, hcb.compiles, ok_bind]
      rw [List.append_assoc, HavingExpr.plans, HavingExpr.plans, HavingExpr.plans,
        HavingExpr.aggregates, List.map_append]
      rfl
    · rw [HavingExpr.plans, HavingExpr.aggregates, List.map_append] at hcomp
      obtain ⟨hevala, hevalb⟩ := hca.both hcb hcomp
      rw [evalHaving, hevala, hevalb, HavingExpr.truth]

/-! ## The order of keys -/

theorem isLE_then (o o' : Ordering) : (o.then o').isLE = true ↔ o = .lt ∨ o = .eq ∧ o'.isLE = true := by
  cases o <;> simp

/-- Keys with values of given types. -/
def KeyTyped (tys : List DataType) (key : Row) : Prop := List.Forall₂ Value.OfType key tys

theorem compareKeys_eq_iff {tys : List DataType} {a b : Row} (ha : KeyTyped tys a)
    (hb : KeyTyped tys b) : compareKeys a b = .eq ↔ a = b := by
  induction ha generalizing b with
  | nil =>
    cases hb
    exact ⟨fun _ => rfl, fun _ => rfl⟩
  | cons hv _ ih =>
    cases hb with
    | cons hw hb => rw [compareKeys, Ordering.then_eq_eq, hv.compareValues_eq_iff hw, ih hb,
        List.cons.injEq]

theorem compareKeys_swap {tys : List DataType} {a b : Row} (ha : KeyTyped tys a)
    (hb : KeyTyped tys b) : compareKeys a b = (compareKeys b a).swap := by
  induction ha generalizing b with
  | nil =>
    cases hb
    rfl
  | cons hv _ ih =>
    cases hb with
    | cons hw hb => rw [compareKeys, compareKeys, Ordering.swap_then, ← ih hb, hv.compareValues hw,
        hw.compareValues hv, keyCompare_swap]

theorem compareKeys_trans {tys : List DataType} {a b c : Row} (ha : KeyTyped tys a)
    (hb : KeyTyped tys b) (hc : KeyTyped tys c) (hab : (compareKeys a b).isLE = true)
    (hbc : (compareKeys b c).isLE = true) : (compareKeys a c).isLE = true := by
  induction ha generalizing b c with
  | nil =>
    cases hc
    rfl
  | cons hu _ ih =>
    cases hb with
    | cons hv hb =>
    cases hc with
    | cons hw hc =>
      rw [compareKeys, isLE_then] at hab hbc ⊢
      rw [hu.compareValues hv] at hab
      rw [hv.compareValues hw] at hbc
      rw [hu.compareValues hw]
      rcases hab with hab | ⟨hab, hab'⟩
      · left
        rcases hbc with hbc | ⟨hbc, -⟩
        · exact Std.TransCmp.lt_trans hab hbc
        · exact Std.TransCmp.lt_of_lt_of_eq hab hbc
      · rcases hbc with hbc | ⟨hbc, hbc'⟩
        · exact Or.inl (Std.TransCmp.lt_of_eq_of_lt hab hbc)
        · exact Or.inr ⟨Std.TransCmp.eq_trans hab hbc, ih hb hc hab' hbc'⟩

/-- Keys are totally ordered. -/
theorem orderOn_compareKeys (tys : List DataType) :
    OrderOn (KeyTyped tys) fun a b => (compareKeys a b).isLE where
  total a b ha hb := by
    rw [compareKeys_swap ha hb]
    cases compareKeys b a <;> simp
  trans a b c ha hb hc hab hbc := compareKeys_trans ha hb hc hab hbc
  antisymm a b ha hb hab hba := by
    rw [← compareKeys_eq_iff ha hb]
    rw [compareKeys_swap hb ha] at hba
    cases h : compareKeys a b <;> simp_all

/-! ## The query -/

/-- The query is within the scope of the exact aggregates, and all its names resolve. -/
structure Admissible (schema : TableSchema) (items : List SelectItem) (groupBy : List String)
    (having : Option HavingExpr) : Prop where
  grouping : ∀ n ∈ groupBy, ∃ i c, schema.columnIndex n = some i ∧ schema.columns[i]? = some c
  projected : ∀ item ∈ items, item.Admissible schema groupBy
  condition : ∀ h ∈ having, h.Admissible schema groupBy

/-- All aggregates of a query, selected or not. -/
def queryItems (items : List SelectItem) (having : Option HavingExpr) : List SelectItem :=
  items ++ (having.map HavingExpr.aggregates).getD []

/-- The item is a sum that is no 64-bit integer. -/
def SelectItem.overflows (schema : TableSchema) (rows : List Row) : SelectItem → Bool
  | .aggregate .sum (.column col) => sumOverflows (schema.values col rows)
  | _ => false

theorem SelectItem.overflows_plan (schema : TableSchema) (groupBy : List String) (rows : List Row)
    (item : SelectItem) : (item.plan schema groupBy).overflows rows = item.overflows schema rows := by
  cases item with
  | column name => rfl
  | aggregate func arg => cases func <;> cases arg <;> rfl

/-- `HAVING` keeps the group. -/
def havingHolds (schema : TableSchema) (groupBy : List String) (having : Option HavingExpr)
    (key : Row) (rows : List Row) : Bool :=
  match having with
  | some h => h.truth (fun item => item.value schema groupBy key rows) == some true
  | none => true

/-- The output row of a group. -/
def outputOf (schema : TableSchema) (groupBy : List String) (items : List SelectItem) (key : Row)
    (rows : List Row) : Row := items.map fun item => item.value schema groupBy key rows

theorem KeysOf.perm {groupIdx : List ℕ} {rows keys keys' : List Row}
    (h : KeysOf groupIdx rows keys) (hp : keys'.Perm keys) : KeysOf groupIdx rows keys' where
  nodup := (hp.map encodeRow).nodup_iff.mpr h.nodup
  complete r hr := (hp.map encodeRow).mem_iff.mpr (h.complete r hr)
  sound k hk := h.sound k (hp.mem_iff.mp hk)
  seeded hempty := hp.mem_iff.mpr (h.seeded hempty)

/-- The compiled form of an optional predicate. -/
def HavingCompiled (schema : TableSchema) (table : String) (groupBy : List String)
    (items : List SelectItem) : Option HavingExpr → Option CompiledHaving → Prop
  | some e, some c => CompilesTo schema table groupBy e
      (items.map fun item => item.plan schema groupBy) c
  | none, none => True
  | _, _ => False

/-- The output row of one group, when the plans are those of the query. -/
theorem outputRow_eq (F : Floats) {schema : TableSchema} {table : String} {items : List SelectItem}
    {groupBy : List String} {having : Option HavingExpr} (h : Admissible schema items groupBy having)
    {plans : List AggPlan} {compiled : Option CompiledHaving}
    (hplans : plans = (queryItems items having).map fun item => item.plan schema groupBy)
    (hcompiled : HavingCompiled schema table groupBy items having compiled)
    (hexact : ∀ plan ∈ plans, plan.Exact schema) (key : Row) (rows : List Row) :
    outputRow F plans items.length compiled (key, plans.map fun plan => plan.acc rows) =
      if (queryItems items having).any fun item => item.overflows schema rows then
        .error sumOverflow
      else .ok (if havingHolds schema groupBy having key rows then
        some (outputOf schema groupBy items key rows) else none) := by
  have hcomputed : (plans.zip (plans.map fun plan => plan.acc rows)).mapM
      (fun p => finalizePlan F p.1 p.2 key) =
        if (queryItems items having).any fun item => item.overflows schema rows then
          .error sumOverflow
        else .ok (plans.map fun plan => plan.value key rows) := by
    rw [zip_map_self, List.mapM_map]
    refine (mapM_guard fun plan hplan => finalizePlan_acc F (hexact plan hplan) key rows).trans ?_
    simp only [hplans, List.any_map, Function.comp_def, SelectItem.overflows_plan]
  rw [outputRow, hcomputed]
  split
  · rfl
  · rw [ok_bind]
    have htake : (plans.map fun plan => plan.value key rows).take items.length =
        outputOf schema groupBy items key rows := by
      rw [hplans, queryItems, List.map_append, List.map_append, List.take_left' (by simp),
        outputOf, List.map_map]
      exact List.map_congr_left fun item hitem => (resolveItem_eq table (h.projected item hitem)).2.2 key rows
    cases having with
    | none =>
      cases compiled with
      | some c => exact hcompiled.elim
      | none =>
        simp only [htake, havingHolds, if_true]
        rfl
    | some e =>
      cases compiled with
      | none => exact hcompiled.elim
      | some c =>
        have hcomp : Computes (plans.map fun plan => plan.value key rows) key rows
            ((items.map fun item => item.plan schema groupBy) ++ e.plans schema groupBy) := by
          intro i plan hi
          have hi' : plans[i]? = some plan := by
            rw [hplans, queryItems, List.map_append]
            exact hi
          simp [Row.cell, hi']
        simp only [htake, hcompiled.eval _ key rows hcomp, havingHolds]
        by_cases htrue : e.truth (fun item => item.value schema groupBy key rows) = some true
        · simp [htrue]
          rfl
        · simp [htrue]
          rfl

/-- The types of the grouping columns. -/
def TableSchema.keyTypes (schema : TableSchema) (groupBy : List String) : List DataType :=
  groupBy.map fun n => (schema.columns[schema.position n]?.map ColumnDef.ty).getD .int

/-- The grouping values of a row. -/
def TableSchema.keyOf (schema : TableSchema) (groupBy : List String) (row : Row) : Row :=
  (groupBy.map schema.position).map row.cell

theorem keyTyped_keyOf {schema : TableSchema} {groupBy : List String}
    (h : ∀ n ∈ groupBy, ∃ i c, schema.columnIndex n = some i ∧ schema.columns[i]? = some c)
    {row : Row} (hrow : RowOf schema row) :
    KeyTyped (schema.keyTypes groupBy) (schema.keyOf groupBy row) := by
  rw [TableSchema.keyTypes, TableSchema.keyOf, List.map_map, KeyTyped, List.forall₂_map_left_iff,
    List.forall₂_map_right_iff, List.forall₂_same]
  intro n hn
  obtain ⟨i, c, hi, hc⟩ := h n hn
  have hpos : schema.position n = i := by rw [TableSchema.position, hi, Option.getD_some]
  rw [hpos, hc, Function.comp_apply, hpos]
  exact hrow.cell hc

theorem KeysOf.typed {schema : TableSchema} {groupBy : List String} {rows keys : List Row}
    (h : KeysOf (groupBy.map schema.position) rows keys)
    (hg : ∀ n ∈ groupBy, ∃ i c, schema.columnIndex n = some i ∧ schema.columns[i]? = some c)
    (hrows : ∀ r ∈ rows, RowOf schema r) : ∀ k ∈ keys, KeyTyped (schema.keyTypes groupBy) k := by
  intro k hk
  rcases h.sound k hk with ⟨hempty, rfl⟩ | ⟨r, hr, rfl⟩
  · rw [List.map_eq_nil_iff] at hempty
    rw [hempty]
    exact List.Forall₂.nil
  · exact keyTyped_keyOf hg (hrows r hr)

theorem filterMap_ite {α β : Type} (p : α → Bool) (f : α → β) (l : List α) :
    (l.map fun a => if p a then some (f a) else none).filterMap id = (l.filter p).map f := by
  rw [List.filterMap_map, Function.id_comp]
  induction l with
  | nil => rfl
  | cons a l ih => cases h : p a <;> simp [h, ih]

/-- The rest of the plans are those of the `HAVING` predicate. -/
theorem compileOption {schema : TableSchema} (table : String) {items : List SelectItem}
    {groupBy : List String} {having : Option HavingExpr}
    (h : Admissible schema items groupBy having) :
    ∃ compiled, HavingCompiled schema table groupBy items having compiled ∧
      compileOptional schema table groupBy having
        (items.map fun item => item.plan schema groupBy) =
        .ok (compiled, (queryItems items having).map fun item => item.plan schema groupBy) := by
  cases having with
  | none =>
    refine ⟨none, trivial, ?_⟩
    rw [queryItems, Option.map_none, Option.getD_none, List.append_nil]
    rfl
  | some e =>
    obtain ⟨c, hc⟩ := exists_compilesTo table (h.condition e rfl)
      (items.map fun item => item.plan schema groupBy)
    refine ⟨some c, hc, ?_⟩
    rw [compileOptional, hc.compiles, queryItems, Option.map_some, Option.getD_some,
      List.map_append]
    rfl

theorem exact_plans {schema : TableSchema} {items : List SelectItem} {groupBy : List String}
    {having : Option HavingExpr} (h : Admissible schema items groupBy having) :
    ∀ plan ∈ (queryItems items having).map fun item => item.plan schema groupBy,
      plan.Exact schema := by
  have hagg : ∀ e : HavingExpr, e.Admissible schema groupBy →
      ∀ item ∈ e.aggregates, item.Admissible schema groupBy := by
    intro e
    induction e with
    | compare term op literal =>
      intro he item hitem
      cases term with
      | column name => cases hitem
      | aggregate func arg =>
        rw [HavingExpr.aggregates, List.mem_singleton] at hitem
        exact hitem ▸ he
    | not inner ih => exact ih
    | and a b iha ihb | or a b iha ihb =>
      intro he item hitem
      rcases List.mem_append.mp hitem with hitem | hitem
      · exact iha he.1 item hitem
      · exact ihb he.2 item hitem
  intro plan hplan
  obtain ⟨item, hitem, rfl⟩ := List.mem_map.mp hplan
  refine (resolveItem_eq "" ?_).2.1
  rcases List.mem_append.mp hitem with hitem | hitem
  · exact h.projected item hitem
  · cases having with
    | none => cases hitem
    | some e => exact hagg e (h.condition e rfl) item hitem

/-- **The result of an aggregate query**, on the groups told apart by their bytes. -/
theorem aggregate_eq (F : Floats) {schema : TableSchema} (table : String) {items : List SelectItem}
    {groupBy : List String} {having : Option HavingExpr}
    (h : Admissible schema items groupBy having) {rows : List Row}
    (hrows : ∀ r ∈ rows, RowOf schema r) :
    ∃ keys, KeysOf (groupBy.map schema.position) rows keys ∧
      keys.Pairwise (fun a b => (compareKeys a b).isLE = true) ∧
      aggregate F schema table items groupBy having rows none =
        if keys.any fun k => (queryItems items having).any fun item =>
            item.overflows schema (rowsAt (groupBy.map schema.position) k rows) then
          .error sumOverflow
        else .ok (items.map SelectItem.name,
          (keys.filter fun k => havingHolds schema groupBy having k
            (rowsAt (groupBy.map schema.position) k rows)).map fun k =>
              outputOf schema groupBy items k (rowsAt (groupBy.map schema.position) k rows)) := by
  obtain ⟨compiled, hcompiled, hcompile⟩ := compileOption table h
  set plans := (queryItems items having).map fun item => item.plan schema groupBy with hplans
  have hexact : ∀ plan ∈ plans, plan.Exact schema := exact_plans h
  have hidx : groupBy.mapM (resolveGroupColumn schema table) =
      .ok (groupBy.map schema.position) := by
    refine mapM_ok fun n hn => ?_
    obtain ⟨i, c, hi, -⟩ := h.grouping n hn
    rw [resolveGroupColumn, TableSchema.position, hi]
    rfl
  have hitems : items.mapM (resolveItem schema table groupBy) =
      .ok (items.map fun item => (item.plan schema groupBy, item.name)) :=
    mapM_ok fun item hitem => (resolveItem_eq table (h.projected item hitem)).1
  have hstart : Groups.start plans groupBy =
      Groups.of plans (groupBy.map schema.position) [] (if groupBy.isEmpty then [[]] else []) := by
    rw [Groups.start]
    split
    · simp [Groups.of, rowsAt, AggPlan.acc_nil]
    · rfl
  have hkeys₀ : KeysOf (groupBy.map schema.position) [] (if groupBy.isEmpty then [[]] else []) := by
    cases groupBy with
    | nil => exact ⟨by simp, by simp, by simp, fun _ => by simp⟩
    | cons n groupBy => exact ⟨by simp, by simp, by simp, by simp⟩
  obtain ⟨keys, hkeys, hfold⟩ := foldlM_addRow F hexact rows (by simpa using hrows) hkeys₀
  rw [List.nil_append] at hkeys hfold
  have hperm := List.mergeSort_perm keys fun a b => (compareKeys a b).isLE
  refine ⟨keys.mergeSort fun a b => (compareKeys a b).isLE, hkeys.perm hperm,
    (orderOn_compareKeys (schema.keyTypes groupBy)).pairwise_mergeSort
      (hkeys.typed h.grouping hrows), ?_⟩
  have hsort : ((Groups.of plans (groupBy.map schema.position) rows keys).groups.mergeSort
      fun a b => (compareKeys a.1 b.1).isLE) =
      (Groups.of plans (groupBy.map schema.position) rows
        (keys.mergeSort fun a b => (compareKeys a b).isLE)).groups := by
    symm
    apply List.map_mergeSort
    intro a _ b _
    rfl
  have hout := mapM_guard fun k (_ : k ∈ keys.mergeSort fun a b => (compareKeys a b).isLE) =>
    outputRow_eq F h hplans hcompiled hexact k (rowsAt (groupBy.map schema.position) k rows)
  rw [aggregate, hidx, ok_bind, hitems, ok_bind]
  simp only [List.map_map, Function.comp_def, List.length_map]
  rw [hcompile, ok_bind]
  simp only [hstart, hfold, ok_bind, hsort]
  rw [Groups.of, List.mapM_map]
  simp only [Function.comp_def]
  rw [hout]
  split
  · rfl
  · rw [ok_bind]
    rw [filterMap_ite]
    rfl

/-! ## Correctness -/

/-- A key of the query: the grouping values of a row, or the empty key of the whole table. -/
def IsGroupKey (schema : TableSchema) (groupBy : List String) (rows : List Row) (key : Row) : Prop :=
  (groupBy = [] ∧ key = []) ∨ ∃ r ∈ rows, schema.keyOf groupBy r = key

/-- The rows of the group of a key. -/
def groupRows (schema : TableSchema) (groupBy : List String) (rows : List Row) (key : Row) :
    List Row := rows.filter fun r => schema.keyOf groupBy r == key

/-- Some sum of some group, selected or in the predicate, is no 64-bit integer. -/
def SumOverflows (schema : TableSchema) (items : List SelectItem) (groupBy : List String)
    (having : Option HavingExpr) (rows : List Row) : Prop :=
  ∃ key, IsGroupKey schema groupBy rows key ∧ ∃ item ∈ queryItems items having,
    item.overflows schema (groupRows schema groupBy rows key) = true

/-- **What an aggregate query should return**: it fails when a sum overflows and then only, and
otherwise returns one row for each key whose group `HAVING` keeps, in strictly increasing order of
the keys, with the values of the items for that group; and the order of the rows does not matter. -/
structure AggregateCorrect (F : Floats) (schema : TableSchema) (table : String)
    (items : List SelectItem) (groupBy : List String) (having : Option HavingExpr)
    (rows : List Row) : Prop where
  overflow : aggregate F schema table items groupBy having rows none = .error sumOverflow ↔
    SumOverflows schema items groupBy having rows
  result : ¬ SumOverflows schema items groupBy having rows → ∃ keys : List Row,
    keys.Pairwise (fun a b => compareKeys a b = .lt) ∧
    (∀ key, key ∈ keys ↔ IsGroupKey schema groupBy rows key ∧
      havingHolds schema groupBy having key (groupRows schema groupBy rows key) = true) ∧
    aggregate F schema table items groupBy having rows none =
      .ok (items.map SelectItem.name, keys.map fun key =>
        outputOf schema groupBy items key (groupRows schema groupBy rows key))
  perm : ∀ rows', rows.Perm rows' → aggregate F schema table items groupBy having rows' none =
    aggregate F schema table items groupBy having rows none

/-- Rows with different grouping values have different encoded keys. -/
def KeysApart (schema : TableSchema) (groupBy : List String) (rows : List Row) : Prop :=
  ∀ r ∈ rows, ∀ r' ∈ rows,
    encodeRow (schema.keyOf groupBy r) = encodeRow (schema.keyOf groupBy r') →
      schema.keyOf groupBy r = schema.keyOf groupBy r'

section Correctness

variable {F : Floats} {schema : TableSchema} {table : String} {items : List SelectItem}
  {groupBy : List String} {having : Option HavingExpr} {rows keys : List Row}

/-- The keys found are the keys of the query. -/
theorem KeysOf.mem_iff (h : KeysOf (groupBy.map schema.position) rows keys)
    (hapart : KeysApart schema groupBy rows) (key : Row) :
    key ∈ keys ↔ IsGroupKey schema groupBy rows key := by
  constructor
  · intro hk
    rcases h.sound key hk with ⟨hempty, rfl⟩ | hr
    · exact Or.inl ⟨List.map_eq_nil_iff.mp hempty, rfl⟩
    · exact Or.inr hr
  · rintro (⟨rfl, rfl⟩ | ⟨r, hr, rfl⟩)
    · exact h.seeded rfl
    · obtain ⟨k, hk, he⟩ := List.mem_map.mp (h.complete r hr)
      rcases h.sound k hk with ⟨hempty, rfl⟩ | ⟨r', hr', rfl⟩
      · rw [TableSchema.keyOf, hempty]
        exact hk
      · rw [hapart r hr r' hr' he.symm]
        exact hk

/-- The rows with the bytes of a key are its group. -/
theorem KeysOf.rowsAt_eq (h : KeysOf (groupBy.map schema.position) rows keys)
    (hapart : KeysApart schema groupBy rows) {key : Row} (hk : key ∈ keys) :
    rowsAt (groupBy.map schema.position) key rows = groupRows schema groupBy rows key := by
  refine List.filter_congr fun r hr => ?_
  rw [Bool.eq_iff_iff, beq_iff_eq, beq_iff_eq]
  refine ⟨fun he => ?_, fun he => congrArg encodeRow he⟩
  rcases h.sound key hk with ⟨hempty, rfl⟩ | ⟨r', hr', rfl⟩
  · rw [TableSchema.keyOf, hempty, List.map_nil]
  · exact hapart r hr r' hr' he

theorem nodup_of_keysOf (h : KeysOf (groupBy.map schema.position) rows keys) : keys.Nodup :=
  h.nodup.of_map

/-- The keys of a query are in strictly increasing order. -/
theorem KeysOf.pairwise_lt (h : KeysOf (groupBy.map schema.position) rows keys)
    (hadm : Admissible schema items groupBy having) (hrows : ∀ r ∈ rows, RowOf schema r)
    (hsort : keys.Pairwise fun a b => (compareKeys a b).isLE = true) :
    keys.Pairwise fun a b => compareKeys a b = .lt := by
  have htyped := h.typed hadm.grouping hrows
  refine (hsort.and (nodup_of_keysOf h)).imp_of_mem fun {a b} ha hb hab => ?_
  have hne : compareKeys a b ≠ .eq :=
    fun heq => hab.2 ((compareKeys_eq_iff (htyped a ha) (htyped b hb)).mp heq)
  cases hcmp : compareKeys a b <;> simp_all

variable (F table) in
/-- The result on the groups of the keys, when the bytes tell these apart. -/
theorem aggregate_of_apart (hadm : Admissible schema items groupBy having)
    (hrows : ∀ r ∈ rows, RowOf schema r) (hapart : KeysApart schema groupBy rows) :
    ∃ keys : List Row, keys.Pairwise (fun a b => compareKeys a b = .lt) ∧
      (∀ key, key ∈ keys ↔ IsGroupKey schema groupBy rows key) ∧
      aggregate F schema table items groupBy having rows none =
        if keys.any fun k => (queryItems items having).any fun item =>
            item.overflows schema (groupRows schema groupBy rows k) then .error sumOverflow
        else .ok (items.map SelectItem.name,
          (keys.filter fun k => havingHolds schema groupBy having k
            (groupRows schema groupBy rows k)).map fun k =>
              outputOf schema groupBy items k (groupRows schema groupBy rows k)) := by
  obtain ⟨keys, hkeys, hsort, heq⟩ := aggregate_eq F table hadm hrows
  refine ⟨keys, hkeys.pairwise_lt hadm hrows hsort, hkeys.mem_iff hapart, ?_⟩
  rw [heq]
  have hany : (keys.any fun k => (queryItems items having).any fun item =>
      item.overflows schema (rowsAt (groupBy.map schema.position) k rows)) =
      keys.any fun k => (queryItems items having).any fun item =>
        item.overflows schema (groupRows schema groupBy rows k) := by
    rw [Bool.eq_iff_iff, List.any_eq_true, List.any_eq_true]
    exact exists_congr fun k => and_congr_right fun hk => by rw [hkeys.rowsAt_eq hapart hk]
  have hfilter : (keys.filter fun k => havingHolds schema groupBy having k
      (rowsAt (groupBy.map schema.position) k rows)) =
      keys.filter fun k => havingHolds schema groupBy having k (groupRows schema groupBy rows k) :=
    List.filter_congr fun k hk => by rw [hkeys.rowsAt_eq hapart hk]
  have hmap : ∀ l : List Row, (∀ k ∈ l, k ∈ keys) → (l.map fun k => outputOf schema groupBy items k
      (rowsAt (groupBy.map schema.position) k rows)) =
      l.map fun k => outputOf schema groupBy items k (groupRows schema groupBy rows k) := by
    intro l hl
    exact List.map_congr_left fun k hk => by rw [hkeys.rowsAt_eq hapart (hl k hk)]
  rw [hany, hfilter, hmap _ fun k hk => List.mem_of_mem_filter hk]

/-! ### The order of the rows -/

theorem presentValues_perm {rows rows' : List Row} (h : rows.Perm rows') (col : ℕ) :
    (presentValues col rows).Perm (presentValues col rows') := (h.map _).filter _

theorem exactSum_perm {vs vs' : List Value} (h : vs.Perm vs') : exactSum vs = exactSum vs' :=
  (h.map _).sum_eq

theorem SelectItem.overflows_perm (schema : TableSchema) {rows rows' : List Row}
    (h : rows.Perm rows') (item : SelectItem) :
    item.overflows schema rows = item.overflows schema rows' := by
  have hsum : ∀ col, sumOverflows (schema.values col rows) = sumOverflows (schema.values col rows') :=
    fun col => by
      rw [sumOverflows, sumOverflows, TableSchema.values, TableSchema.values,
        exactSum_perm (presentValues_perm h _)]
  cases item with
  | column name => rfl
  | aggregate func arg =>
    cases func <;> cases arg <;> first | rfl | exact hsum _

/-- The value of an item does not depend on the order of the rows. -/
theorem SelectItem.value_perm {rows rows' : List Row} (h : rows.Perm rows')
    (hrows : ∀ r ∈ rows, RowOf schema r) {item : SelectItem}
    (hadm : item.Admissible schema groupBy) (key : Row) :
    item.value schema groupBy key rows = item.value schema groupBy key rows' := by
  cases item with
  | column name => rfl
  | aggregate func arg =>
    cases arg with
    | star =>
      cases hadm
      rw [SelectItem.value, SelectItem.value, h.length_eq]
    | column col =>
      have hvals : (schema.values col rows).Perm (schema.values col rows') := presentValues_perm h _
      obtain ⟨i, c, hi, hc, hfunc⟩ := hadm
      have htyped : ∀ v ∈ schema.values col rows, v.OfType c.ty := by
        rw [TableSchema.values, TableSchema.position, hi]
        exact ofType_presentValues hrows hc
      have hmem : ∀ v, v ∈ schema.values col rows ↔ v ∈ schema.values col rows' :=
        fun v => hvals.mem_iff
      cases func with
      | count => rw [SelectItem.value, SelectItem.value, hvals.length_eq]
      | sum =>
        have hempty : (schema.values col rows).isEmpty = (schema.values col rows').isEmpty := by
          rw [Bool.eq_iff_iff, List.isEmpty_iff_length_eq_zero, List.isEmpty_iff_length_eq_zero,
            hvals.length_eq]
        rw [SelectItem.value, SelectItem.value, exactSum_perm hvals, hempty]
      | avg => exact hfunc.elim
      | min =>
        rw [SelectItem.value, SelectItem.value, minimum, minimum,
          (orderOn_compareValues c.ty).extremum_congr htyped hmem]
      | max =>
        rw [SelectItem.value, SelectItem.value, maximum, maximum,
          (orderOn_compareValues c.ty).swap.extremum_congr htyped hmem]

theorem HavingExpr.truth_congr {value value' : SelectItem → Value} {e : HavingExpr}
    (hadm : e.Admissible schema groupBy)
    (h : ∀ item : SelectItem, item.Admissible schema groupBy → value item = value' item) :
    e.truth value = e.truth value' := by
  induction e with
  | compare term op literal => rw [truth, truth, h _ hadm]
  | not inner ih => rw [truth, truth, ih hadm]
  | and a b iha ihb => rw [truth, truth, iha hadm.1, ihb hadm.2]
  | or a b iha ihb => rw [truth, truth, iha hadm.1, ihb hadm.2]

theorem KeysApart.perm (h : KeysApart schema groupBy rows) {rows' : List Row}
    (hp : rows.Perm rows') : KeysApart schema groupBy rows' :=
  fun r hr r' hr' => h r (hp.mem_iff.mpr hr) r' (hp.mem_iff.mpr hr')

theorem isGroupKey_perm {rows' : List Row} (hp : rows.Perm rows') (key : Row) :
    IsGroupKey schema groupBy rows key ↔ IsGroupKey schema groupBy rows' key := by
  simp only [IsGroupKey, hp.mem_iff]

/-- A query has one list of keys in increasing order. -/
theorem keys_unique (hg : ∀ n ∈ groupBy, ∃ i c, schema.columnIndex n = some i ∧
      schema.columns[i]? = some c) (hrows : ∀ r ∈ rows, RowOf schema r) {keys keys' : List Row}
    (hsort : keys.Pairwise fun a b => compareKeys a b = .lt)
    (hsort' : keys'.Pairwise fun a b => compareKeys a b = .lt)
    (hmem : ∀ key, key ∈ keys ↔ key ∈ keys')
    (hkey : ∀ key ∈ keys, IsGroupKey schema groupBy rows key) : keys = keys' := by
  have htyped : ∀ key ∈ keys, KeyTyped (schema.keyTypes groupBy) key := by
    intro key hk
    rcases hkey key hk with ⟨rfl, rfl⟩ | ⟨r, hr, rfl⟩
    · exact List.Forall₂.nil
    · exact keyTyped_keyOf hg (hrows r hr)
  have hnodup : ∀ l : List Row, (∀ key ∈ l, key ∈ keys) →
      (l.Pairwise fun a b => compareKeys a b = .lt) → l.Nodup := by
    intro l hl hlt
    refine hlt.imp_of_mem fun {a b} ha hb hab heq => ?_
    rw [(compareKeys_eq_iff (htyped a (hl a ha)) (htyped b (hl b hb))).mpr heq] at hab
    cases hab
  refine (orderOn_compareKeys (schema.keyTypes groupBy)).eq_of_mem_iff htyped
    (hsort.imp fun h => by rw [h]; rfl) (hsort'.imp fun h => by rw [h]; rfl)
    (hnodup keys (fun _ h => h) hsort) (hnodup keys' (fun key h => (hmem key).mpr h) hsort') hmem

theorem aggregate_perm (hadm : Admissible schema items groupBy having)
    (hrows : ∀ r ∈ rows, RowOf schema r) (hapart : KeysApart schema groupBy rows) {rows' : List Row}
    (hp : rows.Perm rows') : aggregate F schema table items groupBy having rows' none =
      aggregate F schema table items groupBy having rows none := by
  have hrows' : ∀ r ∈ rows', RowOf schema r := fun r hr => hrows r (hp.mem_iff.mpr hr)
  obtain ⟨keys, hsort, hmem, heq⟩ := aggregate_of_apart F table hadm hrows hapart
  obtain ⟨keys', hsort', hmem', heq'⟩ :=
    aggregate_of_apart F table hadm hrows' (hapart.perm hp)
  have hgroup : ∀ key, (groupRows schema groupBy rows key).Perm
      (groupRows schema groupBy rows' key) := fun key => hp.filter _
  have hgroupRows : ∀ key, ∀ r ∈ groupRows schema groupBy rows key, RowOf schema r :=
    fun key r hr => hrows r (List.mem_of_mem_filter hr)
  have hkeys : keys' = keys := by
    refine keys_unique hadm.grouping hrows' hsort' hsort (fun key => ?_) fun key => (hmem' key).mp
    rw [hmem, hmem', isGroupKey_perm hp]
  have hover : ∀ key item, SelectItem.overflows schema (groupRows schema groupBy rows' key) item =
      SelectItem.overflows schema (groupRows schema groupBy rows key) item :=
    fun key item => (item.overflows_perm schema (hgroup key)).symm
  have hholds : ∀ key, havingHolds schema groupBy having key (groupRows schema groupBy rows' key) =
      havingHolds schema groupBy having key (groupRows schema groupBy rows key) := by
    intro key
    cases having with
    | none => rfl
    | some e =>
      rw [havingHolds, havingHolds, HavingExpr.truth_congr (hadm.condition e rfl)
        fun item hitem => (SelectItem.value_perm (hgroup key) (hgroupRows key) hitem key).symm]
  have hout : ∀ key, outputOf schema groupBy items key (groupRows schema groupBy rows' key) =
      outputOf schema groupBy items key (groupRows schema groupBy rows key) :=
    fun key => List.map_congr_left fun item hitem =>
      (SelectItem.value_perm (hgroup key) (hgroupRows key) (hadm.projected item hitem) key).symm
  rw [heq, heq', hkeys]
  simp only [hover, hholds, hout]

theorem aggregateCorrect_of_apart (hadm : Admissible schema items groupBy having)
    (hrows : ∀ r ∈ rows, RowOf schema r) (hapart : KeysApart schema groupBy rows) :
    AggregateCorrect F schema table items groupBy having rows := by
  obtain ⟨keys, hsort, hmem, heq⟩ := aggregate_of_apart F table hadm hrows hapart
  have hany : (keys.any fun k => (queryItems items having).any fun item =>
      item.overflows schema (groupRows schema groupBy rows k)) = true ↔
      SumOverflows schema items groupBy having rows := by
    simp only [List.any_eq_true, hmem, SumOverflows]
  refine ⟨?_, fun hover => ?_, fun rows' hp => aggregate_perm hadm hrows hapart hp⟩
  · rw [heq, ← hany]
    split
    · simp [*]
    · simp [*]
  · rw [← hany] at hover
    refine ⟨keys.filter fun k => havingHolds schema groupBy having k
      (groupRows schema groupBy rows k), hsort.filter _, fun key => ?_, ?_⟩
    · rw [List.mem_filter, hmem]
    · rw [heq, if_neg hover]

/-- `COUNT(*)`. -/
def countStar : SelectItem := .aggregate .count .star

/-- If `COUNT(*)` counts groups right, the encoded keys of the rows are apart: it yields one row for
each encoded key, and there are as many of these as keys. -/
theorem apart_of_countStar (hg : ∀ n ∈ groupBy, ∃ i c, schema.columnIndex n = some i ∧
      schema.columns[i]? = some c) (hrows : ∀ r ∈ rows, RowOf schema r)
    (h : AggregateCorrect F schema table [countStar] groupBy none rows) :
    KeysApart schema groupBy rows := by
  have hadm : Admissible schema [countStar] groupBy none := by
    refine ⟨hg, fun item hitem => ?_, fun e he => nomatch he⟩
    rw [List.mem_singleton.mp hitem]
    rfl
  have hover : ¬ SumOverflows schema [countStar] groupBy none rows := by
    rintro ⟨key, -, item, hitem, hitem'⟩
    rw [queryItems, Option.map_none, Option.getD_none, List.append_nil, List.mem_singleton] at hitem
    rw [hitem] at hitem'
    cases hitem'
  obtain ⟨keys, hsort, hmem, heq⟩ := h.result hover
  obtain ⟨found, hfound, -, heq'⟩ := aggregate_eq F table hadm hrows
  rw [if_neg (by simp [queryItems, countStar, SelectItem.overflows]), heq] at heq'
  have hlen : keys.length = found.length := by
    have hrowsEq := congrArg List.length (congrArg Prod.snd (Except.ok.inj heq'))
    simpa [havingHolds] using hrowsEq
  have hsub : found ⊆ keys := by
    intro k hk
    refine (hmem k).mpr ⟨?_, rfl⟩
    rcases hfound.sound k hk with ⟨hempty, rfl⟩ | hr
    · exact Or.inl ⟨List.map_eq_nil_iff.mp hempty, rfl⟩
    · exact Or.inr hr
  have hperm : found.Perm keys :=
    ((nodup_of_keysOf hfound).subperm hsub).perm_of_length_le hlen.le
  intro r hr r' hr' he
  have hin : ∀ r ∈ rows, schema.keyOf groupBy r ∈ found := fun r hr =>
    hperm.mem_iff.mpr ((hmem _).mpr ⟨Or.inr ⟨r, hr, rfl⟩, rfl⟩)
  exact List.inj_on_of_nodup_map hfound.nodup (hin r hr) (hin r' hr') he

end Correctness

/-- Keys whose texts are shorter than `2 ^ 32` bytes are apart. -/
theorem keysApart_of_fits {schema : TableSchema} {groupBy : List String} {rows : List Row}
    (h : ∀ r ∈ rows, ∀ v ∈ schema.keyOf groupBy r, v.Fits) : KeysApart schema groupBy rows := by
  intro r hr r' hr' he
  rw [encodeRow, encodeRow] at he
  have hlen : (schema.keyOf groupBy r).length = (schema.keyOf groupBy r').length := by
    simp [TableSchema.keyOf]
  have hvalues := List.append_cancel_left (hlen ▸ he)
  have hd := decodeValues_append (h r hr) []
  have hd' := decodeValues_append (h r' hr') []
  rw [hvalues, hlen, hd'] at hd
  exact (Prod.ext_iff.mp (Option.some.inj hd)).1.symm

/-- **Aggregates are correct exactly when the encoded keys tell the groups apart.** -/
theorem aggregate_correct_iff (F : Floats) (schema : TableSchema) (table : String)
    (groupBy : List String) (rows : List Row)
    (hg : ∀ n ∈ groupBy, ∃ i c, schema.columnIndex n = some i ∧ schema.columns[i]? = some c)
    (hrows : ∀ r ∈ rows, RowOf schema r) :
    (∀ items having, Admissible schema items groupBy having →
      AggregateCorrect F schema table items groupBy having rows) ↔
      KeysApart schema groupBy rows := by
  constructor
  · intro h
    refine apart_of_countStar hg hrows (h [countStar] none ⟨hg, fun item hitem => ?_, ?_⟩)
    · rw [List.mem_singleton.mp hitem]
      rfl
    · intro e he
      cases he
  · intro hapart items having hadm
    exact aggregateCorrect_of_apart hadm hrows hapart

/-- Two text columns. -/
def pairSchema : TableSchema :=
  ⟨"t", [⟨"a", .text, false, false, false, false⟩, ⟨"b", .text, false, false, false, false⟩]⟩

theorem admissible_pair : Admissible pairSchema [countStar] ["a", "b"] none := by
  refine ⟨fun n hn => ?_, fun item hitem => ?_, fun e he => nomatch he⟩
  · simp only [List.mem_cons, List.not_mem_nil, or_false] at hn
    rcases hn with rfl | rfl
    · exact ⟨0, _, rfl, rfl⟩
    · exact ⟨1, _, rfl, rfl⟩
  · rw [List.mem_singleton.mp hitem]
    rfl

/-- The encoding of an empty text, as a text. -/
def emptyMark : String := String.ofList (Char.ofNat 2 :: List.replicate 4 (Char.ofNat 0))

/-- A text of `n` bytes. -/
def longText (n : ℕ) : String := String.ofList (List.replicate n 'a')

/-- Rows of `pairSchema` whose encodings are the same bytes when the length of the texts reads as
zero. -/
def collidingRows (s : String) : List Row :=
  [[.text "", .text (s ++ emptyMark)], [.text (emptyMark ++ s), .text ""]]

theorem utf8_append (s t : String) : utf8 (s ++ t) = utf8 s ++ utf8 t := by
  rw [utf8_eq_flatMap, utf8_eq_flatMap, utf8_eq_flatMap, String.toList_append, List.flatMap_append]

theorem encodeRow_colliding {s : String} (h : (utf8 s).length = 2 ^ 32 - 5) :
    encodeRow [.text "", .text (s ++ emptyMark)] = encodeRow [.text (emptyMark ++ s), .text ""] := by
  have hmark : utf8 emptyMark = [2, 0, 0, 0, 0] := by
    rw [utf8_eq_flatMap]
    decide
  have hlen : leBytes 4 (2 ^ 32 - 5 + 5) = [0, 0, 0, 0] := by decide
  have hleft : encodeValue (.text (s ++ emptyMark)) = 2 :: ([0, 0, 0, 0] ++ (utf8 s ++ [2, 0, 0, 0, 0])) := by
    rw [encodeValue, utf8_append, List.length_append, h, hmark]
    exact congrArg (fun l => tagText :: (l ++ _)) hlen
  have hright : encodeValue (.text (emptyMark ++ s)) = 2 :: ([0, 0, 0, 0] ++ ([2, 0, 0, 0, 0] ++ utf8 s)) := by
    rw [encodeValue, utf8_append, List.length_append, h, hmark]
    exact congrArg (fun l => tagText :: (l ++ _)) hlen
  have hempty : encodeValue (.text "") = [2, 0, 0, 0, 0] := by decide
  simp only [encodeRow, List.flatMap_cons, List.flatMap_nil, hleft, hright, hempty]
  simp

theorem not_keysApart_colliding {s : String} (h : (utf8 s).length = 2 ^ 32 - 5) :
    ¬ KeysApart pairSchema ["a", "b"] (collidingRows s) := by
  intro hapart
  have hkey : ∀ u v, pairSchema.keyOf ["a", "b"] [u, v] = [u, v] := fun u v => rfl
  have heq := hapart [.text "", .text (s ++ emptyMark)] (by simp [collidingRows])
    [.text (emptyMark ++ s), .text ""] (by simp [collidingRows])
  rw [hkey, hkey] at heq
  have hne : Value.text "" = .text (emptyMark ++ s) := (List.cons.inj (heq (encodeRow_colliding h))).1
  have hlen := congrArg (fun s => (utf8 s).length) (Value.text.inj hne)
  simp only [utf8_append, List.length_append, h] at hlen
  have hempty : (utf8 "").length = 0 := rfl
  omega

theorem rowOf_collidingRows (s : String) : ∀ r ∈ collidingRows s, RowOf pairSchema r := by
  intro r hr
  simp only [collidingRows, List.mem_cons, List.not_mem_nil, or_false] at hr
  rcases hr with rfl | rfl
  · exact .cons trivial (.cons trivial .nil)
  · exact .cons trivial (.cons trivial .nil)

theorem length_longText (n : ℕ) : (utf8 (longText n)).length = n := by
  rw [longText, utf8_replicate, List.length_replicate]

/-- Two rows with different keys, counted as one group. -/
theorem aggregate_colliding :
    (∀ r ∈ collidingRows (longText (2 ^ 32 - 5)), RowOf pairSchema r) ∧
      Admissible pairSchema [countStar] ["a", "b"] none ∧
      ¬ AggregateCorrect noFloats pairSchema "t" [countStar] ["a", "b"] none
        (collidingRows (longText (2 ^ 32 - 5))) := by
  have hrows := rowOf_collidingRows (longText (2 ^ 32 - 5))
  refine ⟨hrows, admissible_pair, fun hcorrect => ?_⟩
  have hapart := apart_of_countStar admissible_pair.grouping hrows hcorrect
  exact not_keysApart_colliding (length_longText _) hapart

end Ciphra
