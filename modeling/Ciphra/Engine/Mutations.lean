import Ciphra.Engine.Tables

/-!
# Changing rows

`INSERT`, `UPDATE` and `DELETE` are one thing to the indexes: a list of rows, each with what it was
and what it becomes. `RowChanges` collects what such a statement leaves in the slots of the table,
and `Content.changed` shows once that the table is then well formed again. What is left for the
statements is that their batches are row changes: that the entries they write and delete, and the
way each of them brings the range indexes up to date, come out as `RowChanges` says.
-/

namespace Ciphra

open OrdMap

variable {C : Crypto} {L : Lexicon} {X : Exactness} {mk : C.MasterKey} {m : ByteMap}
  {D : String → Table} {t : String} {T T' : Table} {s : TableSchema}

/-! ## Row changes -/

/-- A row that changes: its id, the row before and the row after. -/
structure Change where
  id : UInt64
  old : Option Row
  new : Option Row

/-- The value in a column, `NULL` where there is no row. -/
def cellOf (row : Option Row) (col : ℕ) : Value := (row.map fun r => r.cell col).getD .null

theorem Table.live_eq (T : Table) (col : ℕ) (id : UInt64) :
    T.live col id = (cellOf (T (.row id)) col).present := by
  rw [Table.live, cellOf]
  cases T (.row id) <;> rfl

/-- The entry slot of value `v` after a row has changed from `old` to `new` in the column. -/
def movedEntry (old new v : Value) (before : Option Unit) : Option Unit :=
  if old.beq new then before
  else if new ≠ .null ∧ v = new then some ()
  else if old ≠ .null ∧ v = old then none
  else before

/-- What a statement that changes rows leaves in the table. -/
structure RowChanges (L : Lexicon) (X : Exactness) (s : TableSchema) (changes : List Change)
    (T T' : Table) : Prop where
  catalog : T' .catalog = T .catalog
  old : ∀ ch ∈ changes, T (.row ch.id) = ch.old
  new : ∀ ch ∈ changes, T' (.row ch.id) = ch.new
  otherRow : ∀ id, (∀ ch ∈ changes, ch.id ≠ id) → T' (.row id) = T (.row id)
  ok : ∀ ch ∈ changes, ∀ row, ch.new = some row → RowOk L s row ∧ ch.id < (T' .seq).getD 0
  seq : (T .seq).getD 0 ≤ (T' .seq).getD 0
  entry : ∀ ch ∈ changes, ∀ col ∈ s.maintainedColumns, ∀ v, T' (.entry col v ch.id) =
    movedEntry (cellOf ch.old col) (cellOf ch.new col) v (T (.entry col v ch.id))
  otherEntry : ∀ col v id, (∀ ch ∈ changes, ch.id ≠ id) ∨ col ∉ s.maintainedColumns →
    T' (.entry col v id) = T (.entry col v id)
  /-- Exact columns that are indexed do not change within the derived equality. -/
  exact : ∀ ch ∈ changes, ∀ col c, s.columns[col]? = some c → X c.ty c.primaryKey →
    c.covered = true → (cellOf ch.old col).beq (cellOf ch.new col) = true → cellOf ch.old col = cellOf ch.new col
  required : ∀ ch ∈ changes, ∀ row, ch.new = some row → ∀ col c, s.columns[col]? = some c →
    c.primaryKey = true → row.cell col ≠ .null
  unique : ∀ ch ∈ changes, ∀ col c, s.columns[col]? = some c → c.primaryKey = true →
    X c.ty c.primaryKey → ∀ v id, T'.live col ch.id = some v → T'.live col id = some v → id = ch.id
  range : ∀ col c, s.columns[col]? = some c → c.rangeIndexed = true →
    ∃ es, T' (.range col) = some es ∧ es.length ≤ maxEntries ∧
      Tracks (Agrees (X c.ty c.primaryKey)) (T'.live col) es ∧
      (es.Pairwise fun a b => entryLe a b = true) ∧ ∀ e ∈ es, e.1.HasType c.ty ∧ e.1.BlobFits
  otherRange : ∀ col, col ∉ s.rangeIndexedColumns → T' (.range col) = T (.range col)

namespace RowChanges

variable {changes : List Change}

theorem live_new (h : RowChanges L X s changes T T') {ch : Change} (hch : ch ∈ changes) (col : ℕ) :
    T'.live col ch.id = (cellOf ch.new col).present := by
  rw [Table.live_eq, h.new ch hch]

theorem live_old (h : RowChanges L X s changes T T') {ch : Change} (hch : ch ∈ changes) (col : ℕ) :
    T.live col ch.id = (cellOf ch.old col).present := by
  rw [Table.live_eq, h.old ch hch]

theorem live_other (h : RowChanges L X s changes T T') {id : UInt64}
    (hid : ∀ ch ∈ changes, ch.id ≠ id) (col : ℕ) : T'.live col id = T.live col id := by
  rw [Table.live_eq, h.otherRow id hid, ← Table.live_eq]

/-- An id is that of a change or of none. -/
theorem id_cases (changes : List Change) (id : UInt64) :
    (∃ ch ∈ changes, ch.id = id) ∨ ∀ ch ∈ changes, ch.id ≠ id := by
  by_cases h : ∃ ch ∈ changes, ch.id = id
  · exact Or.inl h
  · exact Or.inr fun ch hch he => h ⟨ch, hch, he⟩

/-- The entries of an exact column are the graph of its values again. -/
theorem entry_iff (h : RowChanges L X s changes T T') {col : ℕ} {c : ColumnDef}
    (hc : s.columns[col]? = some c) (hm : c.maintained = true) (hX : X c.ty c.primaryKey)
    (hT : ∀ v id, T (.entry col v id) ≠ none ↔ T.live col id = some v) (v : Value) (id : UInt64) :
    T' (.entry col v id) ≠ none ↔ T'.live col id = some v := by
  rcases id_cases changes id with ⟨ch, hch, rfl⟩ | hid
  · have hmem : col ∈ s.maintainedColumns := TableSchema.mem_maintainedColumns.mpr ⟨c, hc, hm⟩
    have hbefore := hT v ch.id
    rw [h.live_old hch, Value.present_eq_some] at hbefore
    rw [h.entry ch hch col hmem, h.live_new hch, Value.present_eq_some, movedEntry]
    by_cases hbeq : (cellOf ch.old col).beq (cellOf ch.new col) = true
    · rw [if_pos hbeq, hbefore, h.exact ch hch col c hc hX (by rw [ColumnDef.covered, hm, Bool.true_or]) hbeq]
    · rw [if_neg hbeq]
      split
      · rename_i hnew
        obtain ⟨hne, rfl⟩ := hnew
        simp [hne]
      · rename_i hnew
        have hfalse : ¬ (cellOf ch.new col = v ∧ v ≠ .null) := by
          rintro ⟨rfl, hne⟩
          exact hnew ⟨hne, rfl⟩
        split
        · simp [hfalse]
        · rename_i hold
          rw [hbefore]
          refine iff_of_false ?_ hfalse
          rintro ⟨rfl, hne⟩
          exact hold ⟨hne, rfl⟩
  · rw [h.otherEntry col v id (Or.inl hid), h.live_other hid]
    exact hT v id

/-- The range index of a column, where there is one. -/
theorem range_of_stored (h : RowChanges L X s changes T T') {col : ℕ} {c : ColumnDef}
    (hc : s.columns[col]? = some c) (hT : ColumnOk X c col T) {es : List (Value × UInt64)}
    (hes : T' (.range col) = some es) :
    es.length ≤ maxEntries ∧ Tracks (Agrees (X c.ty c.primaryKey)) (T'.live col) es ∧
      (es.Pairwise fun a b => entryLe a b = true) ∧ ∀ e ∈ es, e.1.HasType c.ty ∧ e.1.BlobFits := by
  have hr : c.rangeIndexed = true := by
    by_contra hr
    rw [h.otherRange col] at hes
    · exact hr (hT.ranges.mp (by rw [hes]; exact Option.some_ne_none es))
    · rw [TableSchema.mem_rangeIndexedColumns]
      rintro ⟨c', hc', hr'⟩
      rw [hc] at hc'
      cases hc'
      exact hr hr'
  obtain ⟨es', hes', hrest⟩ := h.range col c hc hr
  rw [hes] at hes'
  cases hes'
  exact hrest

theorem columnOk (h : RowChanges L X s changes T T') {col : ℕ} {c : ColumnDef}
    (hc : s.columns[col]? = some c) (hT : ColumnOk X c col T) : ColumnOk X c col T' where
  entries v id hne := by
    by_contra hm
    refine hm (hT.entries v id ?_)
    rwa [h.otherEntry col v id (Or.inr ?_)] at hne
    rw [TableSchema.mem_maintainedColumns]
    rintro ⟨c', hc', hm'⟩
    rw [hc] at hc'
    cases hc'
    exact hm hm'
  exact hm hX := h.entry_iff hc hm hX (hT.exact hm hX)
  required hkey id hne := by
    rcases id_cases changes id with ⟨ch, hch, rfl⟩ | hid
    · rw [h.new ch hch] at hne
      obtain ⟨row, hrow⟩ := Option.ne_none_iff_exists'.mp hne
      rw [h.live_new hch, hrow, cellOf, Option.map_some, Option.getD_some, Ne,
        Value.present_eq_none]
      exact h.required ch hch row hrow col c hc hkey
    · rw [h.otherRow id hid] at hne
      rw [h.live_other hid]
      exact hT.required hkey id hne
  unique hkey hX id id' v hv hv' := by
    rcases id_cases changes id with ⟨ch, hch, rfl⟩ | hid
    · exact (h.unique ch hch col c hc hkey hX v id' hv hv').symm
    · rcases id_cases changes id' with ⟨ch, hch, rfl⟩ | hid'
      · exact h.unique ch hch col c hc hkey hX v id hv' hv
      · rw [h.live_other hid] at hv
        rw [h.live_other hid'] at hv'
        exact hT.unique hkey hX id id' v hv hv'
  ranges := by
    by_cases hr : c.rangeIndexed = true
    · obtain ⟨es, hes, -⟩ := h.range col c hc hr
      simp [hes, hr]
    · rw [h.otherRange col, hT.ranges]
      rw [TableSchema.mem_rangeIndexedColumns]
      rintro ⟨c', hc', hr'⟩
      rw [hc] at hc'
      cases hc'
      exact hr hr'
  tracked es hes := (h.range_of_stored hc hT hes).2
  room es hes := (h.range_of_stored hc hT hes).1

/-- **Row changes keep the contents of a table in order.** -/
theorem content (h : RowChanges L X s changes T T') (hT : Content L X s T) : Content L X s T' where
  rows id row hrow := by
    rcases id_cases changes id with ⟨ch, hch, rfl⟩ | hid
    · rw [h.new ch hch] at hrow
      exact (h.ok ch hch row hrow).1
    · rw [h.otherRow id hid] at hrow
      exact hT.rows id row hrow
  below id row hrow := by
    rcases id_cases changes id with ⟨ch, hch, rfl⟩ | hid
    · rw [h.new ch hch] at hrow
      exact (h.ok ch hch row hrow).2
    · rw [h.otherRow id hid] at hrow
      exact UInt64.lt_of_lt_of_le (hT.below id row hrow) h.seq
  columns col c hc := h.columnOk hc (hT.columns col c hc)
  outside col hc := by
    have hm : ∀ p : ColumnDef → Bool, col ∉ s.columnsWhere p := by
      intro p hmem
      obtain ⟨c, hc', -⟩ := TableSchema.mem_columnsWhere.mp hmem
      rw [hc] at hc'
      cases hc'
    refine ⟨fun v id => ?_, ?_⟩
    · rw [h.otherEntry col v id (Or.inr (hm _)), (hT.outside col hc).1]
    · rw [h.otherRange col (hm _), (hT.outside col hc).2]

theorem wf (h : RowChanges L X s changes T T') (hT : Wf L X t T) (hs : T .catalog = some s) :
    Wf L X t T' where
  empty hnone := by
    rw [h.catalog, hs] at hnone
    cases hnone
  schema s' hs' := hT.schema s' (h.catalog ▸ hs')
  content s' hs' := by
    rw [h.catalog, hs] at hs'
    cases hs'
    exact h.content (hT.content s hs)

end RowChanges

/-! ## Batches that change rows -/

/-- The patches of the entries of a row that changes in a column. -/
def diffPatches (col : ℕ) (old new : Value) (id : UInt64) : List (Patch Slot.Payload) :=
  if old.beq new then []
  else
    (if old.isNull then [] else [⟨.entry col old id, none⟩]) ++
      (if new.isNull then [] else [⟨.entry col new id, some ()⟩])

/-- The patches of a row that changes. -/
def Change.patches (cols : List ℕ) (ch : Change) : List (Patch Slot.Payload) :=
  (cols.flatMap fun col => diffPatches col (cellOf ch.old col) (cellOf ch.new col) ch.id) ++
    [⟨.row ch.id, ch.new⟩]

theorem mem_diffPatches {col : ℕ} {old new : Value} {id : UInt64} {w : Patch Slot.Payload} :
    w ∈ diffPatches col old new id ↔ ¬ old.beq new = true ∧
      (old ≠ .null ∧ w = ⟨.entry col old id, none⟩ ∨
        new ≠ .null ∧ w = ⟨.entry col new id, some ()⟩) := by
  rw [diffPatches, Ne, Ne, ← Value.isNull_iff, ← Value.isNull_iff]
  cases old.beq new <;> cases old.isNull <;> cases new.isNull <;> simp

theorem map_unsealed_diffPatches (col : ℕ) (old new : Value) (id : UInt64) :
    (diffPatches col old new id).map (Patch.unsealed C mk t) = entryDiff C mk t col old new id := by
  unfold diffPatches entryDiff
  cases old.beq new <;> cases old.isNull <;> cases new.isNull <;> rfl

/-- The entries of a new row are those of a change from nothing. -/
theorem newEntries_eq (cols : List ℕ) (row : Row) (id : UInt64) :
    newEntries C mk t cols row id = (cols.flatMap fun col =>
      diffPatches col .null (row.cell col) id).map (Patch.unsealed C mk t) := by
  induction cols with
  | nil => rfl
  | cons col cols ih =>
    rw [List.flatMap_cons, List.map_append, ← ih, newEntries, newEntries, diffPatches,
      Value.beq_null_left, List.filter_cons]
    cases (row.cell col).isNull <;> rfl

/-- The entries of a row that goes are those of a change to nothing. -/
theorem removeEntries_eq (cols : List ℕ) (row : Row) (id : UInt64) :
    ((cols.filter fun col => !(row.cell col).isNull).map fun col =>
        removeIndexEntry C mk t col (row.cell col) id) = (cols.flatMap fun col =>
      diffPatches col (row.cell col) .null id).map (Patch.unsealed C mk t) := by
  induction cols with
  | nil => rfl
  | cons col cols ih =>
    rw [List.flatMap_cons, List.map_append, ← ih, diffPatches, Value.beq_null_right,
      List.filter_cons]
    cases (row.cell col).isNull <;> rfl

/-- The rows of the changes have the shape of the schema. -/
def RowsOk (L : Lexicon) (s : TableSchema) (changes : List Change) : Prop :=
  ∀ ch ∈ changes, ∀ row, ch.old = some row ∨ ch.new = some row → RowOk L s row

theorem storable_cellOf {row : Option Row} (h : ∀ r, row = some r → RowOk L s r) (col : ℕ) :
    Storable L (cellOf row col) := by
  cases row with
  | none => exact Or.inl rfl
  | some r => exact (h r rfl).storable_cell col

theorem hasType_cellOf {row : Option Row} (h : ∀ r, row = some r → RowOk L s r) {col : ℕ}
    {c : ColumnDef} (hc : s.columns[col]? = some c) : (cellOf row col).HasType c.ty := by
  cases row with
  | none => exact Value.hasType_null _
  | some r => exact (h r rfl).typed col c hc

/-- The batch of a statement that changes rows: each row with its entries, then the slots of the
sequence and of range indexes. -/
structure RowWrites (s : TableSchema) (changes : List Change) (f : Change → List (Patch Slot.Payload))
    (extra : List (Patch Slot.Payload)) : Prop where
  nodup : (changes.map Change.id).Nodup
  rows : ∀ ch ∈ changes, ∀ w, w ∈ f ch ↔ w ∈ ch.patches s.maintainedColumns
  extra : ∀ w ∈ extra, w.slot = .seq ∨ ∃ col ∈ s.rangeIndexedColumns, w.slot = .range col

namespace RowWrites

variable {changes : List Change} {f : Change → List (Patch Slot.Payload)}
  {extra : List (Patch Slot.Payload)}

theorem mem_iff (h : RowWrites s changes f extra) {w : Patch Slot.Payload} :
    w ∈ changes.flatMap f ++ extra ↔
      (∃ ch ∈ changes, w = ⟨.row ch.id, ch.new⟩) ∨
        (∃ ch ∈ changes, ∃ col ∈ s.maintainedColumns,
          w ∈ diffPatches col (cellOf ch.old col) (cellOf ch.new col) ch.id) ∨ w ∈ extra := by
  rw [List.mem_append, List.mem_flatMap]
  constructor
  · rintro (⟨ch, hch, hw⟩ | hw)
    · rw [h.rows ch hch, Change.patches, List.mem_append, List.mem_flatMap,
        List.mem_singleton] at hw
      rcases hw with ⟨col, hcol, hw⟩ | hw
      · exact Or.inr (Or.inl ⟨ch, hch, col, hcol, hw⟩)
      · exact Or.inl ⟨ch, hch, hw⟩
    · exact Or.inr (Or.inr hw)
  · rintro (⟨ch, hch, hw⟩ | ⟨ch, hch, col, hcol, hw⟩ | hw)
    · refine Or.inl ⟨ch, hch, (h.rows ch hch w).mpr ?_⟩
      exact List.mem_append_right _ (List.mem_singleton.mpr hw)
    · refine Or.inl ⟨ch, hch, (h.rows ch hch w).mpr ?_⟩
      exact List.mem_append_left _ (List.mem_flatMap.mpr ⟨col, hcol, hw⟩)
    · exact Or.inr hw

theorem eq_of_id (h : RowWrites s changes f extra) {ch ch' : Change} (hch : ch ∈ changes)
    (hch' : ch' ∈ changes) (hid : ch.id = ch'.id) : ch = ch' :=
  List.inj_on_of_nodup_map h.nodup hch hch' hid

theorem mem_row (h : RowWrites s changes f extra) {id : UInt64} {v : Option Row}
    (hw : (⟨.row id, v⟩ : Patch Slot.Payload) ∈ changes.flatMap f ++ extra) :
    ∃ ch ∈ changes, ch.id = id ∧ ch.new = v := by
  rcases h.mem_iff.mp hw with ⟨ch, hch, he⟩ | ⟨ch, hch, col, -, hw⟩ | hw
  · cases he
    exact ⟨ch, hch, rfl, rfl⟩
  · obtain ⟨-, ⟨-, he⟩ | ⟨-, he⟩⟩ := mem_diffPatches.mp hw <;> cases he
  · rcases h.extra _ hw with he | ⟨col, -, he⟩ <;> cases he

theorem mem_entry (h : RowWrites s changes f extra) {col : ℕ} {v : Value} {id : UInt64}
    {x : Option Unit}
    (hw : (⟨.entry col v id, x⟩ : Patch Slot.Payload) ∈ changes.flatMap f ++ extra) :
    ∃ ch ∈ changes, ch.id = id ∧ col ∈ s.maintainedColumns ∧
      ¬ (cellOf ch.old col).beq (cellOf ch.new col) = true ∧
      (cellOf ch.old col ≠ .null ∧ v = cellOf ch.old col ∧ x = none ∨
        cellOf ch.new col ≠ .null ∧ v = cellOf ch.new col ∧ x = some ()) := by
  rcases h.mem_iff.mp hw with ⟨ch, hch, he⟩ | ⟨ch, hch, col', hcol, hw⟩ | hw
  · cases he
  · obtain ⟨hbeq, ⟨hne, he⟩ | ⟨hne, he⟩⟩ := mem_diffPatches.mp hw
    · cases he
      exact ⟨ch, hch, rfl, hcol, hbeq, Or.inl ⟨hne, rfl, rfl⟩⟩
    · cases he
      exact ⟨ch, hch, rfl, hcol, hbeq, Or.inr ⟨hne, rfl, rfl⟩⟩
  · rcases h.extra _ hw with he | ⟨col, -, he⟩ <;> cases he

theorem patchAll_catalog (h : RowWrites s changes f extra) :
    patchAll T (changes.flatMap f ++ extra) .catalog = T .catalog := by
  refine patchAll_of_notMem fun w hw he => ?_
  rcases h.mem_iff.mp hw with ⟨ch, hch, rfl⟩ | ⟨ch, hch, col', hcol, hw⟩ | hw
  · cases he
  · obtain ⟨-, ⟨-, rfl⟩ | ⟨-, rfl⟩⟩ := mem_diffPatches.mp hw <;> cases he
  · rcases h.extra _ hw with he' | ⟨col, -, he'⟩ <;> rw [he'] at he <;> cases he

theorem patchAll_row (h : RowWrites s changes f extra) {ch : Change} (hch : ch ∈ changes) :
    patchAll T (changes.flatMap f ++ extra) (.row ch.id) = ch.new := by
  refine patchAll_of_mem (h.mem_iff.mpr (Or.inl ⟨ch, hch, rfl⟩)) fun v' hv' => ?_
  obtain ⟨ch', hch', hid, rfl⟩ := h.mem_row hv'
  rw [h.eq_of_id hch' hch hid]

theorem patchAll_otherRow (h : RowWrites s changes f extra) {id : UInt64}
    (hid : ∀ ch ∈ changes, ch.id ≠ id) :
    patchAll T (changes.flatMap f ++ extra) (.row id) = T (.row id) := by
  refine patchAll_of_notMem ?_
  rintro ⟨slot, v⟩ hw rfl
  obtain ⟨ch, hch, he, -⟩ := h.mem_row hw
  exact hid ch hch he

theorem patchAll_otherEntry (h : RowWrites s changes f extra) {col : ℕ} {v : Value} {id : UInt64}
    (hid : (∀ ch ∈ changes, ch.id ≠ id) ∨ col ∉ s.maintainedColumns) :
    patchAll T (changes.flatMap f ++ extra) (.entry col v id) = T (.entry col v id) := by
  refine patchAll_of_notMem ?_
  rintro ⟨slot, x⟩ hw rfl
  obtain ⟨ch, hch, he, hcol, -⟩ := h.mem_entry hw
  rcases hid with hid | hnot
  · exact hid ch hch he
  · exact hnot hcol

theorem patchAll_entry (h : RowWrites s changes f extra) {ch : Change} (hch : ch ∈ changes) {col : ℕ}
    (hcol : col ∈ s.maintainedColumns)
    (hself : (cellOf ch.new col).beq (cellOf ch.new col) = true) (v : Value) :
    patchAll T (changes.flatMap f ++ extra) (.entry col v ch.id) =
      movedEntry (cellOf ch.old col) (cellOf ch.new col) v (T (.entry col v ch.id)) := by
  have hwrite : ∀ w ∈ diffPatches col (cellOf ch.old col) (cellOf ch.new col) ch.id,
      w ∈ changes.flatMap f ++ extra :=
    fun w hw => h.mem_iff.mpr (Or.inr (Or.inl ⟨ch, hch, col, hcol, hw⟩))
  -- the patches of this slot, all of them from this change
  have hread : ∀ x : Option Unit,
      (⟨.entry col v ch.id, x⟩ : Patch Slot.Payload) ∈ changes.flatMap f ++ extra →
      ¬ (cellOf ch.old col).beq (cellOf ch.new col) = true ∧
      (cellOf ch.old col ≠ .null ∧ v = cellOf ch.old col ∧ x = none ∨
        cellOf ch.new col ≠ .null ∧ v = cellOf ch.new col ∧ x = some ()) := by
    intro x hx
    obtain ⟨ch', hch', hid, -, hrest⟩ := h.mem_entry hx
    rw [h.eq_of_id hch' hch hid] at hrest
    exact hrest
  have hne : ¬ (cellOf ch.old col).beq (cellOf ch.new col) = true →
      cellOf ch.old col ≠ cellOf ch.new col := by
    intro hb he
    rw [he] at hb
    exact hb hself
  rw [movedEntry]
  split
  · rename_i hbeq
    refine patchAll_of_notMem ?_
    rintro ⟨slot, x⟩ hw rfl
    exact (hread x hw).1 hbeq
  · rename_i hbeq
    split
    · rename_i hnew
      obtain ⟨hnull, rfl⟩ := hnew
      refine patchAll_of_mem (hwrite _ (mem_diffPatches.mpr ⟨hbeq, Or.inr ⟨hnull, rfl⟩⟩))
        fun x hx => ?_
      rcases (hread x hx).2 with ⟨-, he, -⟩ | ⟨-, -, rfl⟩
      · exact absurd he.symm (hne hbeq)
      · rfl
    · rename_i hnew
      split
      · rename_i hold
        obtain ⟨hnull, rfl⟩ := hold
        refine patchAll_of_mem (hwrite _ (mem_diffPatches.mpr ⟨hbeq, Or.inl ⟨hnull, rfl⟩⟩))
          fun x hx => ?_
        rcases (hread x hx).2 with ⟨-, -, rfl⟩ | ⟨-, he, -⟩
        · rfl
        · exact absurd he (hne hbeq)
      · rename_i hold
        refine patchAll_of_notMem ?_
        rintro ⟨slot, x⟩ hw rfl
        rcases (hread x hw).2 with ⟨hnull, he, -⟩ | ⟨hnull, he, -⟩
        · exact hold ⟨hnull, he⟩
        · exact hnew ⟨hnull, he⟩

/-- Sequence and range indexes are decided by the last part of the batch. -/
theorem patchAll_extra (h : RowWrites s changes f extra) {slot : Slot}
    (hslot : slot = .seq ∨ ∃ col, slot = .range col) :
    patchAll T (changes.flatMap f ++ extra) slot = patchAll T extra slot := by
  rw [patchAll_append]
  refine patchAll_congr (patchAll_of_notMem fun w hw he => ?_) extra
  obtain ⟨ch, hch, hw⟩ := List.mem_flatMap.mp hw
  rw [h.rows ch hch, Change.patches, List.mem_append, List.mem_flatMap, List.mem_singleton] at hw
  rcases hw with ⟨col, -, hw⟩ | rfl
  · obtain ⟨-, ⟨-, rfl⟩ | ⟨-, rfl⟩⟩ := mem_diffPatches.mp hw <;>
      rcases hslot with rfl | ⟨col', rfl⟩ <;> cases he
  · rcases hslot with rfl | ⟨col', rfl⟩ <;> cases he

theorem patchAll_otherRange (h : RowWrites s changes f extra) {col : ℕ}
    (hcol : col ∉ s.rangeIndexedColumns) :
    patchAll T (changes.flatMap f ++ extra) (.range col) = T (.range col) := by
  rw [h.patchAll_extra (Or.inr ⟨col, rfl⟩)]
  refine patchAll_of_notMem fun w hw he => ?_
  rcases h.extra w hw with hseq | ⟨col', hcol', hrange⟩
  · rw [hseq] at he
    cases he
  · rw [hrange] at he
    cases he
    exact hcol hcol'

/-- The values of a column after the batch. -/
theorem live_patchAll (h : RowWrites s changes f extra) (col : ℕ) :
    Table.live (patchAll T (changes.flatMap f ++ extra)) col = assignAll (T.live col)
      (changes.map fun ch => (ch.id, (cellOf ch.new col).present)) := by
  refine eq_assignAll ?_ (fun c hc => ?_) fun id hid => ?_
  · rw [List.map_map]
    exact h.nodup
  · obtain ⟨ch, hch, rfl⟩ := List.mem_map.mp hc
    rw [Table.live_eq, h.patchAll_row hch]
  · rw [Table.live_eq, h.patchAll_otherRow fun ch hch => hid _ (List.mem_map_of_mem hch),
      ← Table.live_eq]

/-- The batch writes to slots that can occur. -/
theorem valid (h : RowWrites s changes f extra) (hs : SchemaFits s) (hok : RowsOk L s changes) :
    ∀ w ∈ changes.flatMap f ++ extra, w.slot.Valid L := by
  have hlt : ∀ p col, col ∈ s.columnsWhere p → col < 2 ^ 16 := by
    intro p col hcol
    obtain ⟨c, hc, -⟩ := TableSchema.mem_columnsWhere.mp hcol
    exact hs.col_lt hc
  intro w hw
  rcases h.mem_iff.mp hw with ⟨ch, hch, rfl⟩ | ⟨ch, hch, col, hcol, hw⟩ | hw
  · trivial
  · obtain ⟨-, ⟨hne, rfl⟩ | ⟨hne, rfl⟩⟩ := mem_diffPatches.mp hw
    · have hst := storable_cellOf (fun r hr => hok ch hch r (Or.inl hr)) col
      exact ⟨hlt _ col hcol, (hst.resolve_left hne).1⟩
    · have hst := storable_cellOf (fun r hr => hok ch hch r (Or.inr hr)) col
      exact ⟨hlt _ col hcol, (hst.resolve_left hne).1⟩
  · rcases h.extra w hw with hseq | ⟨col, hcol, hrange⟩
    · rw [hseq]
      trivial
    · rw [hrange]
      exact hlt _ col hcol

/-- What the batch leaves in the entries of a row that changes. -/
theorem patchAll_entry_ok (h : RowWrites s changes f extra) (hok : RowsOk L s changes)
    (hsch : SchemaOk t s) : ∀ ch ∈ changes, ∀ col ∈ s.maintainedColumns, ∀ v,
      patchAll T (changes.flatMap f ++ extra) (.entry col v ch.id) =
        movedEntry (cellOf ch.old col) (cellOf ch.new col) v (T (.entry col v ch.id)) := by
  intro ch hch col hcol v
  obtain ⟨c, hc, hm⟩ := TableSchema.mem_maintainedColumns.mp hcol
  refine h.patchAll_entry hch hcol ?_ v
  refine Value.beq_self (hasType_cellOf (fun r hr => hok ch hch r (Or.inr hr)) hc) fun d hd => ?_
  rw [(hsch.vector col c d hc hd).1] at hm
  cases hm

end RowWrites

end Ciphra
