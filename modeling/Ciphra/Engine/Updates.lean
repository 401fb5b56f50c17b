import Ciphra.Engine.Rows

/-!
# `UPDATE` and `DELETE`

Both statements work on the rows that match a predicate and come out as row changes:
`update_changes` and `delete_changes`. An `UPDATE` decides by the derived equality on values whether
a column has changed, so an exact column has to be one in which no value is replaced by another one
that is equal to it (`KeepsExact`): on REAL, a zero by the other zero.
-/

namespace Ciphra

open OrdMap

variable {C : Crypto} {L : Lexicon} {X : Exactness} {mk : C.MasterKey} {m : ByteMap}
  {D : String → Table} {t : String} {T T' : Table} {s : TableSchema}

/-! ## `UPDATE` -/

/-- The assignments of an `UPDATE` are to different columns, with values of their types. -/
theorem resolveAssignments_eq_ok {assignments : List Assignment} {seen : List ℕ}
    {resolved : List (ℕ × Value)} (h : resolveAssignments s t assignments seen = .ok resolved) :
    (resolved.map Prod.fst).Nodup ∧ (∀ e ∈ resolved, e.1 ∉ seen) ∧
      ∀ e ∈ resolved, ∃ c, s.columns[e.1]? = some c ∧
        ∃ l ∈ assignments.map Assignment.value, coerce l c = .ok e.2 := by
  induction assignments generalizing seen resolved with
  | nil =>
    cases h
    exact ⟨List.nodup_nil, by simp, by simp⟩
  | cons a assignments ih =>
    rw [resolveAssignments] at h
    obtain ⟨i, -, h⟩ := bind_eq_ok.mp h
    split at h
    · cases h
    · rename_i hseen
      split at h
      · cases h
      · rename_i c hc
        obtain ⟨v, hv, h⟩ := bind_eq_ok.mp h
        obtain ⟨more, hmore, h⟩ := bind_eq_ok.mp h
        cases h
        obtain ⟨hnodup, hnot, hcoerce⟩ := ih hmore
        refine ⟨?_, List.forall_mem_cons.mpr ⟨hseen, fun e he hmem =>
          hnot e he (List.mem_cons_of_mem _ hmem)⟩, List.forall_mem_cons.mpr
          ⟨⟨c, hc, a.value, List.mem_cons_self, hv⟩, fun e he => ?_⟩⟩
        · rw [List.map_cons, List.nodup_cons]
          refine ⟨fun hmem => ?_, hnodup⟩
          obtain ⟨e, he, heq⟩ := List.mem_map.mp hmem
          exact hnot e he (heq ▸ List.mem_cons_self)
        · obtain ⟨c', hc', l, hl, hcoerce⟩ := hcoerce e he
          exact ⟨c', hc', l, List.mem_cons_of_mem _ hl, hcoerce⟩

/-- A column that is not assigned keeps its value. -/
theorem cell_assignRow_of_notMem {resolved : List (ℕ × Value)} {col : ℕ}
    (h : ∀ e ∈ resolved, e.1 ≠ col) (row : Row) :
    (assignRow resolved row).cell col = row.cell col := by
  induction resolved generalizing row with
  | nil => rfl
  | cons e resolved ih =>
    rw [assignRow, List.foldl_cons, ← assignRow, ih fun e' he' => h e' (List.mem_cons_of_mem _ he'),
      Row.cell_set, if_neg fun hc => h e List.mem_cons_self hc.1]

/-- An assigned column has its value. -/
theorem cell_assignRow_of_mem {resolved : List (ℕ × Value)} (hn : (resolved.map Prod.fst).Nodup)
    {e : ℕ × Value} (he : e ∈ resolved) {row : Row} (hlt : e.1 < row.length) :
    (assignRow resolved row).cell e.1 = e.2 := by
  induction resolved generalizing row with
  | nil => cases he
  | cons e' resolved ih =>
    rw [List.map_cons, List.nodup_cons] at hn
    rw [assignRow, List.foldl_cons, ← assignRow]
    rcases List.mem_cons.mp he with rfl | he
    · rw [cell_assignRow_of_notMem, Row.cell_set, if_pos ⟨rfl, hlt⟩]
      intro e' he' heq
      exact hn.1 (heq ▸ List.mem_map_of_mem he')
    · exact ih hn.2 he (by rwa [List.length_set])

theorem rowOk_assignRow {resolved : List (ℕ × Value)}
    (h : ∀ e ∈ resolved, ∃ c, s.columns[e.1]? = some c ∧ e.2.HasType c.ty ∧ Storable L e.2)
    {row : Row} (hrow : RowOk L s row) : RowOk L s (assignRow resolved row) := by
  induction resolved generalizing row with
  | nil => exact hrow
  | cons e resolved ih =>
    obtain ⟨c, hc, hty, hst⟩ := h e List.mem_cons_self
    rw [assignRow, List.foldl_cons, ← assignRow]
    exact ih (fun e' he' => h e' (List.mem_cons_of_mem _ he')) (hrow.set hc hty hst)

/-- The rows an `UPDATE` or a `DELETE` works on. -/
structure Targets (T : Table) (s : TableSchema) (predicate : Option Expr)
    (filter : Option CompiledExpr) (es : List (UInt64 × Row)) : Prop where
  compiled : predicate.mapM (compileExpr s) = .ok filter
  picked : Picked T es
  mem : ∀ id row, (id, row) ∈ es ↔ T (.row id) = some row ∧ Candidate T s filter id ∧
    filterMatches filter row = .ok true

/-- Assigned rows as changes. -/
def assignments (resolved : List (ℕ × Value)) (es : List (UInt64 × Row)) : List Change :=
  es.map fun e => ⟨e.1, some e.2, some (assignRow resolved e.2)⟩

/-- A range index after rows have been assigned to. -/
def movedEntries (resolved : List (ℕ × Value)) (es : List (UInt64 × Row)) (col : ℕ)
    (entries : List (Value × UInt64)) : List (Value × UInt64) :=
  (es.map fun e => (e.1, e.2.cell col, (assignRow resolved e.2).cell col)).foldl
    (fun entries mv => moveEntry mv.1 mv.2.1 mv.2.2 entries) entries

/-- The range indexes that an `UPDATE` rewrites. -/
def movedColumns (s : TableSchema) (resolved : List (ℕ × Value)) (es : List (UInt64 × Row)) :
    List ℕ :=
  s.rangeIndexedColumns.filter fun col =>
    !es.all fun e => (e.2.cell col).beq ((assignRow resolved e.2).cell col)

theorem movedColumns_subset {resolved : List (ℕ × Value)} {es : List (UInt64 × Row)} {col : ℕ}
    (h : col ∈ movedColumns s resolved es) : col ∈ s.rangeIndexedColumns := (List.mem_filter.mp h).1

/-- The patches of an `UPDATE`. -/
def updatePatches (s : TableSchema) (resolved : List (ℕ × Value)) (es : List (UInt64 × Row))
    (T : Table) : List (Patch Slot.Payload) :=
  ((assignments resolved es).flatMap (Change.patches s.maintainedColumns)) ++
    (movedColumns s resolved es).map fun col =>
      ⟨.range col, some (sortRangeEntries (movedEntries resolved es col ((T (.range col)).getD [])))⟩

theorem map_unsealed_assignments (s : TableSchema) (resolved : List (ℕ × Value))
    (es : List (UInt64 × Row)) :
    ((assignments resolved es).flatMap (Change.patches s.maintainedColumns)).map
        (Patch.unsealed C mk t) =
      (keyed C mk t es).flatMap fun e => (s.maintainedColumns.flatMap fun col =>
        entryDiff C mk t col (e.2.cell col) ((assignRow resolved e.2).cell col)
          (rowidFromKey e.1)) ++ [addRow C mk t e.1 (assignRow resolved e.2)] := by
  simp only [assignments, keyed, List.map_flatMap, List.flatMap_map, rowidFromKey_rowKey,
    Change.patches, List.map_append, ← map_unsealed_diffPatches]
  rfl

theorem foldl_moveEntry_keyed (resolved : List (ℕ × Value)) (es : List (UInt64 × Row)) (col : ℕ)
    (entries : List (Value × UInt64)) :
    (keyed C mk t es).foldl (fun entries e => moveEntry (rowidFromKey e.1) (e.2.cell col)
      ((assignRow resolved e.2).cell col) entries) entries = movedEntries resolved es col entries := by
  simp only [keyed, movedEntries, List.foldl_map, rowidFromKey_rowKey]

theorem filter_keyed_eq_movedColumns (s : TableSchema) (resolved : List (ℕ × Value))
    (es : List (UInt64 × Row)) :
    (s.rangeIndexedColumns.filter fun col => !(keyed C mk t es).all fun e =>
      (e.2.cell col).beq ((assignRow resolved e.2).cell col)) = movedColumns s resolved es := by
  simp only [movedColumns, keyed, List.all_map]
  rfl

/-- What running an `UPDATE` found and will write. -/
theorem update_of_run (h : Rep L mk m D) (ht : t ∈ L.names) (hwf : Wf L X t (D t))
    {targets : List Assignment} {predicate : Option Expr}
    (hl : ∀ l ∈ (predicate.map Expr.literals).getD [], ∀ v ∈ l.values, v ∈ L.values)
    {plan : Plan C} (hrun : (update C mk t targets predicate).run m.reader = .ok plan) :
    ∃ s filter resolved es, D t .catalog = some s ∧ SchemaFits s ∧
      Targets (D t) s predicate filter es ∧ resolveAssignments s t targets [] = .ok resolved ∧
      (checkAssignments C mk t s resolved (keyed C mk t es)).run m.reader = .ok () ∧
      plan.result = .updated es.length ∧
      (∀ col ∈ movedColumns s resolved es, (sortRangeEntries
        (movedEntries resolved es col ((D t (.range col)).getD []))).length ≤ maxEntries) ∧
      plan.writes = (updatePatches s resolved es (D t)).map (Patch.unsealed C mk t) := by
  simp only [update, Query.run_bind_eq_ok, Query.run_ofExcept, Query.run_pure] at hrun
  obtain ⟨s, hs, filter, hfilter, resolved, hresolved, rows, hrows, _, hcheck, blobs, hblobs, he⟩ :=
    hrun
  obtain ⟨hcatalog, hfits⟩ := h.expectSchema_of_run ht hwf hs
  have hT := hwf.content s hcatalog
  obtain ⟨es, hpicked, hes, rfl⟩ :=
    h.matchingRows_of_run ht hT hfits (filterKnown_compiled hfilter hl) hrows
  refine ⟨s, filter, resolved, es, hcatalog, hfits, ⟨hfilter, hpicked, hes⟩, hresolved, hcheck, ?_⟩
  simp only [foldl_moveEntry_keyed, filter_keyed_eq_movedColumns] at hblobs
  obtain ⟨rfl, hroom⟩ := h.blobs_of_run ht hT hfits (fun _ hcol => movedColumns_subset hcol)
    (fun col entries => sortRangeEntries (movedEntries resolved es col entries)) hblobs
  cases he
  rw [updatePatches, List.map_append, map_unsealed_assignments]
  exact ⟨by rw [keyed, List.length_map], hroom, rfl⟩

/-- The `UPDATE` replaces no value of an exact column by another one that is equal to it. -/
def KeepsExact (X : Exactness) (t : String) (T : Table) (targets : List Assignment)
    (predicate : Option Expr) : Prop :=
  ∀ s filter resolved, T .catalog = some s → predicate.mapM (compileExpr s) = .ok filter →
    resolveAssignments s t targets [] = .ok resolved →
    ∀ id row, T (.row id) = some row → filterMatches filter row = .ok true →
    ∀ e ∈ resolved, ∀ c, s.columns[e.1]? = some c → X c.ty c.primaryKey → c.covered = true →
      (row.cell e.1).beq e.2 = true → row.cell e.1 = e.2

/-- A column of an assigned row, before and after. -/
theorem cell_assignRow_cases {resolved : List (ℕ × Value)} (hn : (resolved.map Prod.fst).Nodup)
    {row : Row} (hlt : ∀ e ∈ resolved, e.1 < row.length) (col : ℕ) :
    (assignRow resolved row).cell col = row.cell col ∨
      ∃ e ∈ resolved, e.1 = col ∧ (assignRow resolved row).cell col = e.2 := by
  by_cases h : ∃ e ∈ resolved, e.1 = col
  · obtain ⟨e, he, rfl⟩ := h
    exact Or.inr ⟨e, he, rfl, cell_assignRow_of_mem hn he (hlt e he)⟩
  · exact Or.inl (cell_assignRow_of_notMem (fun e he heq => h ⟨e, he, heq⟩) row)

/-- What the check of assigned primary keys lets through. -/
theorem checkAssignments_eq_ok {r : Reader Bytes Bytes} {resolved : List (ℕ × Value)}
    {es : List (UInt64 × Row)} (hn : (resolved.map Prod.fst).Nodup) {pk : ℕ}
    (hpk : s.pkColumn = some pk) {e : ℕ × Value} (he : e ∈ resolved) (hcol : e.1 = pk)
    (h : (checkAssignments C mk t s resolved (keyed C mk t es)).run r = .ok ()) :
    e.2 ≠ .null ∧ es.length ≤ 1 ∧ ∀ x ∈ es, ∃ holders,
      (indexRowids C mk t pk e.2).run r = .ok holders ∧ ∀ id ∈ holders, id = x.1 := by
  have hfind : resolved.find? (fun e => e.1 == pk) = some e := by
    cases hf : resolved.find? (fun e => e.1 == pk) with
    | none => exact absurd hcol (by simpa using List.find?_eq_none.mp hf e he)
    | some e' =>
      have hcol' : e'.1 = pk := by simpa using List.find?_some hf
      rw [List.inj_on_of_nodup_map hn (List.mem_of_find?_eq_some hf) he (hcol'.trans hcol.symm)]
  simp only [checkAssignments, hpk, Option.bind_some, hfind, Option.map_some, checkAssignedKey,
    Query.run_bind_eq_ok] at h
  obtain ⟨_, hnull, _, hlen, h⟩ := h
  refine ⟨fun hv => ?_, ?_, fun x hx => ?_⟩
  · have hnull := guardRead_eq_ok hnull
    rw [hv] at hnull
    cases hnull
  · simpa [keyed] using guardRead_eq_ok hlen
  · have hlen : es.length ≤ 1 := by simpa [keyed] using guardRead_eq_ok hlen
    obtain rfl : es = [x] := by
      rcases es with _ | ⟨y, _ | ⟨_, _⟩⟩
      · cases hx
      · rw [List.mem_singleton.mp hx]
      · simp at hlen
    simp only [keyed, List.map_cons, Query.run_bind_eq_ok, rowidFromKey_rowKey] at h
    obtain ⟨holders, hrun, hall⟩ := h
    exact ⟨holders, hrun, by simpa using guardRead_eq_ok hall⟩

/-- When no value changes, neither does the range index. -/
theorem movedEntries_eq_self {resolved : List (ℕ × Value)} {es : List (UInt64 × Row)} {col : ℕ}
    (h : ∀ e ∈ es, (e.2.cell col).beq ((assignRow resolved e.2).cell col) = true)
    (entries : List (Value × UInt64)) : movedEntries resolved es col entries = entries := by
  induction es with
  | nil => rfl
  | cons e es ih =>
    rw [movedEntries, List.map_cons, List.foldl_cons, moveEntry, if_pos (h e List.mem_cons_self)]
    exact ih fun e' he' => h e' (List.mem_cons_of_mem _ he')

theorem rowWrites_update {es : List (UInt64 × Row)} (hn : (es.map Prod.fst).Nodup)
    (resolved : List (ℕ × Value)) (F : ℕ → List (Value × UInt64)) :
    RowWrites s (assignments resolved es) (Change.patches s.maintainedColumns)
      ((movedColumns s resolved es).map fun col => ⟨.range col, some (F col)⟩) where
  nodup := by
    rw [assignments, List.map_map]
    exact hn
  rows _ _ _ := Iff.rfl
  extra w hw := by
    obtain ⟨col, hcol, rfl⟩ := List.mem_map.mp hw
    exact Or.inr ⟨col, movedColumns_subset hcol, rfl⟩

theorem rowsOk_assignments {resolved : List (ℕ × Value)} {es : List (UInt64 × Row)}
    (hold : ∀ e ∈ es, RowOk L s e.2) (hnew : ∀ e ∈ es, RowOk L s (assignRow resolved e.2)) :
    RowsOk L s (assignments resolved es) := by
  rintro ch hch row (hrow | hrow)
  · obtain ⟨e, he, rfl⟩ := List.mem_map.mp hch
    cases hrow
    exact hold e he
  · obtain ⟨e, he, rfl⟩ := List.mem_map.mp hch
    cases hrow
    exact hnew e he

/-- A range index after an `UPDATE`. -/
theorem update_range (hsch : SchemaOk t s) (hT : Content L X s T) {resolved : List (ℕ × Value)}
    {es : List (UInt64 × Row)} (hp : Picked T es) (hok : ∀ e ∈ es, RowOk L s (assignRow resolved e.2))
    {col : ℕ} {c : ColumnDef} (hc : s.columns[col]? = some c) (hr : c.rangeIndexed = true)
    (hexact : X c.ty c.primaryKey → ∀ e ∈ es,
      (e.2.cell col).beq ((assignRow resolved e.2).cell col) = true →
      e.2.cell col = (assignRow resolved e.2).cell col)
    (hroom : ∀ col ∈ movedColumns s resolved es, (sortRangeEntries
      (movedEntries resolved es col ((T (.range col)).getD []))).length ≤ maxEntries) :
    ∃ entries, patchAll T ((movedColumns s resolved es).map fun col => (⟨.range col,
        some (sortRangeEntries (movedEntries resolved es col ((T (.range col)).getD [])))⟩ :
          Patch Slot.Payload)) (.range col) = some entries ∧ entries.length ≤ maxEntries ∧
      Tracks (Agrees (X c.ty c.primaryKey)) (assignAll (T.live col)
        (es.map fun e => (e.1, ((assignRow resolved e.2).cell col).present))) entries ∧
      (entries.Pairwise fun a b => entryLe a b = true) ∧
      ∀ e ∈ entries, e.1.HasType c.ty ∧ e.1.BlobFits := by
  have hcol := hT.columns col c hc
  obtain ⟨old, hold⟩ := Option.ne_none_iff_exists'.mp (hcol.ranges.mpr hr)
  obtain ⟨htracks, hsorted, htyped⟩ := hcol.tracked old hold
  obtain ⟨hmoves, hall⟩ := tracks_moves htracks
    (es.map fun e => (e.1, e.2.cell col, (assignRow resolved e.2).cell col))
    (by rw [List.map_map]; exact hp.nodup)
    (by
      intro mv hmv
      obtain ⟨e, he, rfl⟩ := List.mem_map.mp hmv
      exact Table.live_of_row (hp.stored e he) col)
    (hsch.notVector_range hc hr) (Q := fun v => v.HasType c.ty ∧ v.BlobFits) (fun v hv => hv.1)
    htyped
    (by
      intro mv hmv
      obtain ⟨e, he, rfl⟩ := List.mem_map.mp hmv
      exact ⟨(hok e he).typed col c hc, ((hok e he).storable_cell col).blobFits⟩)
    (by
      intro hX mv hmv
      obtain ⟨e, he, rfl⟩ := List.mem_map.mp hmv
      exact hexact hX e he)
  rw [List.map_map] at hmoves
  have hroom := hroom col
  rw [hold, Option.getD_some] at hroom
  rw [patchAll_blobs, hold, Option.getD_some]
  split
  · rename_i hin
    refine ⟨_, rfl, hroom hin, hmoves.perm (perm_sortRangeEntries _),
      pairwise_sortRangeEntries fun e he => (hall e he).1,
      fun e he => hall e ((perm_sortRangeEntries _).mem_iff.mp he)⟩
  · rename_i hnot
    have hsame : movedEntries resolved es col old = old := by
      refine movedEntries_eq_self (fun e he => ?_) old
      by_contra hbeq
      refine hnot (List.mem_filter.mpr ⟨TableSchema.mem_rangeIndexedColumns.mpr ⟨c, hc, hr⟩, ?_⟩)
      rw [Bool.not_eq_true', List.all_eq_false]
      exact ⟨e, he, hbeq⟩
    rw [movedEntries] at hsame
    rw [hsame] at hmoves
    exact ⟨old, rfl, hcol.room old hold, hmoves, hsorted, htyped⟩

/-- The batch of an `UPDATE`, once its assignments are resolved and checked. -/
theorem update_rowChanges (h : Rep L mk m D) (ht : t ∈ L.names) (hfits : SchemaFits s)
    (hsch : SchemaOk t s) (hT : Content L X s (D t)) {resolved : List (ℕ × Value)}
    {es : List (UInt64 × Row)} (hp : Picked (D t) es) (hn : (resolved.map Prod.fst).Nodup)
    (hresolved : ∀ e ∈ resolved, ∃ c, s.columns[e.1]? = some c ∧ e.2.HasType c.ty ∧ Storable L e.2)
    (hcheck : (checkAssignments C mk t s resolved (keyed C mk t es)).run m.reader = .ok ())
    (hexact : ∀ x ∈ es, ∀ e ∈ resolved, ∀ c, s.columns[e.1]? = some c → X c.ty c.primaryKey →
      c.covered = true → (x.2.cell e.1).beq e.2 = true → x.2.cell e.1 = e.2)
    (hroom : ∀ col ∈ movedColumns s resolved es, (sortRangeEntries
      (movedEntries resolved es col ((D t (.range col)).getD []))).length ≤ maxEntries) :
    RowChanges L X s (assignments resolved es) (D t)
      (patchAll (D t) (updatePatches s resolved es (D t))) := by
  have hw := rowWrites_update (s := s) hp.nodup resolved fun col =>
    sortRangeEntries (movedEntries resolved es col ((D t (.range col)).getD []))
  have hold : ∀ e ∈ es, RowOk L s e.2 := fun e he => hT.rows e.1 e.2 (hp.stored e he)
  have hok : ∀ e ∈ es, RowOk L s (assignRow resolved e.2) :=
    fun e he => rowOk_assignRow hresolved (hold e he)
  have hlt : ∀ x ∈ es, ∀ e ∈ resolved, e.1 < x.2.length := by
    intro x hx e he
    obtain ⟨c, hc, -⟩ := hresolved e he
    rw [(hold x hx).length]
    exact lt_length_of_getElem? hc
  have hsame : ∀ x ∈ es, ∀ col c, s.columns[col]? = some c → X c.ty c.primaryKey →
      c.covered = true → (x.2.cell col).beq ((assignRow resolved x.2).cell col) = true →
      x.2.cell col = (assignRow resolved x.2).cell col := by
    intro x hx col c hc hX hcov hbeq
    rcases cell_assignRow_cases hn (hlt x hx) col with heq | ⟨e, he, rfl, heq⟩
    · rw [heq]
    · rw [heq] at hbeq ⊢
      exact hexact x hx e he c hc hX hcov hbeq
  have hrequired : ∀ x ∈ es, ∀ col c, s.columns[col]? = some c → c.primaryKey = true →
      (assignRow resolved x.2).cell col ≠ .null := by
    intro x hx col c hc hkey
    rcases cell_assignRow_cases hn (hlt x hx) col with heq | ⟨e, he, rfl, heq⟩
    · have hlive := (hT.columns col c hc).required hkey x.1
        (by rw [hp.stored x hx]; exact Option.some_ne_none _)
      rw [Table.live_of_row (hp.stored x hx), Ne, Value.present_eq_none] at hlive
      rw [heq]
      exact hlive
    · rw [heq]
      exact (checkAssignments_eq_ok hn (hsch.single e.1 c hc hkey) he rfl hcheck).1
  refine
    { catalog := hw.patchAll_catalog
      old := ?_
      new := fun ch hch => hw.patchAll_row hch
      otherRow := fun id hid => hw.patchAll_otherRow hid
      ok := ?_
      seq := ?_
      entry := hw.patchAll_entry_ok (rowsOk_assignments hold hok) hsch
      otherEntry := fun col v id hid => hw.patchAll_otherEntry hid
      exact := ?_
      required := ?_
      unique := ?_
      range := ?_
      otherRange := fun col hcol => hw.patchAll_otherRange hcol }
  · intro ch hch
    obtain ⟨e, he, rfl⟩ := List.mem_map.mp hch
    exact hp.stored e he
  · intro ch hch row hrow
    obtain ⟨e, he, rfl⟩ := List.mem_map.mp hch
    cases hrow
    rw [updatePatches, hw.patchAll_extra (Or.inl rfl), patchAll_blobs_seq]
    exact ⟨hok e he, hT.below e.1 e.2 (hp.stored e he)⟩
  · rw [updatePatches, hw.patchAll_extra (Or.inl rfl), patchAll_blobs_seq]
    exact UInt64.le_refl _
  · intro ch hch col c hc hX hcov hbeq
    obtain ⟨e, he, rfl⟩ := List.mem_map.mp hch
    exact hsame e he col c hc hX hcov hbeq
  · intro ch hch row hrow col c hc hkey
    obtain ⟨e, he, rfl⟩ := List.mem_map.mp hch
    cases hrow
    exact hrequired e he col c hc hkey
  · intro ch hch col c hc hkey hX v id hv hv'
    obtain ⟨x, hx, rfl⟩ := List.mem_map.mp hch
    have hm : c.maintained = true := by rw [ColumnDef.maintained, hkey, Bool.true_or]
    by_cases hassigned : ∃ e ∈ resolved, e.1 = col
    · -- the key is assigned, so at most one row changes
      obtain ⟨e, he, rfl⟩ := hassigned
      obtain ⟨-, hone, hholders⟩ :=
        checkAssignments_eq_ok hn (hsch.single e.1 c hc hkey) he rfl hcheck
      rw [updatePatches, Table.live_eq, hw.patchAll_row hch] at hv
      obtain ⟨hv, hne⟩ := Value.present_eq_some.mp hv
      have hv : (assignRow resolved x.2).cell e.1 = v := hv
      rw [cell_assignRow_of_mem hn he (hlt x hx e he)] at hv
      subst hv
      rcases RowChanges.id_cases (assignments resolved es) id with ⟨ch', hch', rfl⟩ | hid
      · obtain ⟨x', hx', rfl⟩ := List.mem_map.mp hch'
        rcases es with _ | ⟨y, _ | ⟨_, _⟩⟩
        · cases hx
        · rw [List.mem_singleton.mp hx, List.mem_singleton.mp hx']
        · simp at hone
      · rw [updatePatches, Table.live_eq, hw.patchAll_otherRow hid, ← Table.live_eq] at hv'
        obtain ⟨holders, hrun, hall⟩ := hholders x hx
        obtain ⟨c', hc', -, hst⟩ := hresolved e he
        obtain ⟨ids, -, hids, hrun'⟩ :=
          h.run_indexRowids ht (hfits.col_lt hc) (hst.resolve_left hne).1
        rw [hrun] at hrun'
        cases hrun'
        exact hall id ((hids id).mpr (((hT.columns e.1 c hc).exact hm hX _ id).mpr hv'))
    · -- the key is not assigned, so no key changes
      have hkeep : ∀ y : Row, (assignRow resolved y).cell col = y.cell col :=
        cell_assignRow_of_notMem fun e he heq => hassigned ⟨e, he, heq⟩
      have hlive : Table.live (patchAll (D t) (updatePatches s resolved es (D t))) col =
          (D t).live col := by
        funext i
        rw [updatePatches, Table.live_eq, Table.live_eq]
        rcases RowChanges.id_cases (assignments resolved es) i with ⟨ch', hch', rfl⟩ | hid
        · rw [hw.patchAll_row hch']
          obtain ⟨x', hx', rfl⟩ := List.mem_map.mp hch'
          rw [hp.stored x' hx', cellOf, cellOf, Option.map_some, Option.map_some, hkeep]
        · rw [hw.patchAll_otherRow hid]
      rw [hlive] at hv hv'
      exact (hT.columns col c hc).unique hkey hX id x.1 v hv' hv
  · intro col c hc hr
    obtain ⟨entries, hentries, hlen, hrest⟩ := update_range hsch hT hp hok hc hr
      (fun hX e he => hsame e he col c hc hX (by rw [ColumnDef.covered, hr, Bool.or_true])) hroom
    refine ⟨entries, ?_, hlen, ?_⟩
    · rw [updatePatches, hw.patchAll_extra (Or.inr ⟨col, rfl⟩), hentries]
    · rw [updatePatches, hw.live_patchAll, assignments, List.map_map]
      exact hrest

/-- **An `UPDATE` changes rows**: it assigns to the rows that match. -/
theorem update_changes (h : Rep L mk m D) (ht : t ∈ L.names) (hwf : Wf L X t (D t))
    {targets : List Assignment} {predicate : Option Expr}
    (hl : ∀ l ∈ (predicate.map Expr.literals).getD [], ∀ v ∈ l.values, v ∈ L.values)
    (ha : LiteralsOk L (targets.map Assignment.value)) (hk : KeepsExact X t (D t) targets predicate)
    {plan : Plan C} (hrun : (update C mk t targets predicate).run m.reader = .ok plan) :
    ∃ s ws filter resolved es, D t .catalog = some s ∧
      plan.writes = ws.map (Patch.unsealed C mk t) ∧ (∀ w ∈ ws, w.slot.Valid L) ∧
      RowChanges L X s (assignments resolved es) (D t) (patchAll (D t) ws) ∧
      patchAll (D t) ws .seq = D t .seq ∧ Targets (D t) s predicate filter es ∧
      resolveAssignments s t targets [] = .ok resolved ∧ plan.result = .updated es.length := by
  obtain ⟨s, filter, resolved, es, hs, hfits, htargets, hresolve, hcheck, hresult, hroom,
    hwrites⟩ := update_of_run h ht hwf hl hrun
  have hp := htargets.picked
  have hmatch : ∀ e ∈ es, filterMatches filter e.2 = .ok true := fun e he =>
    ((htargets.mem e.1 e.2).mp he).2.2
  have hsch := hwf.schema s hs
  have hT := hwf.content s hs
  obtain ⟨hn, -, hcoerce⟩ := resolveAssignments_eq_ok hresolve
  have hresolved : ∀ e ∈ resolved, ∃ c, s.columns[e.1]? = some c ∧ e.2.HasType c.ty ∧
      Storable L e.2 := by
    intro e he
    obtain ⟨c, hc, l, hmem, hv⟩ := hcoerce e he
    exact ⟨c, hc, ha.storable hmem hv⟩
  have hold : ∀ e ∈ es, RowOk L s e.2 := fun e he => hT.rows e.1 e.2 (hp.stored e he)
  refine ⟨s, _, filter, resolved, es, hs, hwrites, ?_,
    update_rowChanges h ht hfits hsch hT hp hn hresolved hcheck
      (fun x hx =>
        hk s filter resolved hs htargets.compiled hresolve x.1 x.2 (hp.stored x hx) (hmatch x hx))
      hroom,
    ?_, htargets, hresolve, hresult⟩
  · exact (rowWrites_update hp.nodup resolved _).valid hfits
      (rowsOk_assignments hold fun e he => rowOk_assignRow hresolved (hold e he))
  · rw [updatePatches, (rowWrites_update hp.nodup resolved _).patchAll_extra (Or.inl rfl),
      patchAll_blobs_seq]

/-- Where the derived equality is equality, every `UPDATE` is exact. -/
theorem keepsExact_of_beq (hwf : Wf L X t T) (hX : ∀ ty pk, X ty pk → ty = .int ∨ ty = .text)
    (targets : List Assignment) (predicate : Option Expr) :
    KeepsExact X t T targets predicate := by
  intro s filter resolved hs _ _ id row hrow _ e _ c hc hx _ hbeq
  have htyped := ((hwf.content s hs).rows id row hrow).typed e.1 c hc
  exact (Value.beq_iff_eq htyped (hX _ _ hx)).mp hbeq

/-! ## `DELETE` -/

/-- Deleted rows as changes. -/
def deletions (es : List (UInt64 × Row)) : List Change := es.map fun e => ⟨e.1, some e.2, none⟩

/-- A range index after rows have been deleted. -/
def keptEntries (es : List (UInt64 × Row)) (col : ℕ) (entries : List (Value × UInt64)) :
    List (Value × UInt64) :=
  (es.map fun e => (e.1, e.2.cell col)).foldl (fun entries d => dropEntry d.1 d.2 entries) entries

/-- The range indexes that a `DELETE` rewrites. -/
def droppedColumns (s : TableSchema) (es : List (UInt64 × Row)) : List ℕ :=
  s.rangeIndexedColumns.filter fun col => !es.all fun e => (e.2.cell col).isNull

theorem droppedColumns_subset {es : List (UInt64 × Row)} {col : ℕ}
    (h : col ∈ droppedColumns s es) : col ∈ s.rangeIndexedColumns := (List.mem_filter.mp h).1

/-- The patches of a `DELETE`. -/
def deletePatches (s : TableSchema) (es : List (UInt64 × Row)) (T : Table) :
    List (Patch Slot.Payload) :=
  ((deletions es).flatMap (Change.patches s.maintainedColumns)) ++
    (droppedColumns s es).map fun col =>
      ⟨.range col, some (keptEntries es col ((T (.range col)).getD []))⟩

theorem map_unsealed_deletions (s : TableSchema) (es : List (UInt64 × Row)) :
    ((deletions es).flatMap (Change.patches s.maintainedColumns)).map (Patch.unsealed C mk t) =
      (keyed C mk t es).flatMap fun e =>
        ((s.maintainedColumns.filter fun col => !(e.2.cell col).isNull).map fun col =>
          removeIndexEntry C mk t col (e.2.cell col) (rowidFromKey e.1)) ++ [.delete e.1] := by
  simp only [deletions, keyed, List.map_flatMap, List.flatMap_map, rowidFromKey_rowKey,
    Change.patches, List.map_append, removeEntries_eq]
  rfl

theorem foldl_dropEntry_keyed (es : List (UInt64 × Row)) (col : ℕ)
    (entries : List (Value × UInt64)) :
    (keyed C mk t es).foldl (fun entries e => dropEntry (rowidFromKey e.1) (e.2.cell col) entries)
      entries = keptEntries es col entries := by
  simp only [keyed, keptEntries, List.foldl_map, rowidFromKey_rowKey]

theorem filter_keyed_eq_droppedColumns (s : TableSchema) (es : List (UInt64 × Row)) :
    (s.rangeIndexedColumns.filter fun col => !(keyed C mk t es).all fun e =>
      (e.2.cell col).isNull) = droppedColumns s es := by
  simp only [droppedColumns, keyed, List.all_map]
  rfl

/-- What running a `DELETE` found and will write. -/
theorem delete_of_run (h : Rep L mk m D) (ht : t ∈ L.names) (hwf : Wf L X t (D t))
    {predicate : Option Expr}
    (hl : ∀ l ∈ (predicate.map Expr.literals).getD [], ∀ v ∈ l.values, v ∈ L.values)
    {plan : Plan C} (hrun : (delete C mk t predicate).run m.reader = .ok plan) :
    ∃ s filter es, D t .catalog = some s ∧ SchemaFits s ∧ Targets (D t) s predicate filter es ∧
      plan.result = .deleted es.length ∧
      plan.writes = (deletePatches s es (D t)).map (Patch.unsealed C mk t) := by
  simp only [delete, Query.run_bind_eq_ok, Query.run_ofExcept, Query.run_pure] at hrun
  obtain ⟨s, hs, filter, hfilter, rows, hrows, blobs, hblobs, he⟩ := hrun
  obtain ⟨hcatalog, hfits⟩ := h.expectSchema_of_run ht hwf hs
  have hT := hwf.content s hcatalog
  obtain ⟨es, hpicked, hes, rfl⟩ :=
    h.matchingRows_of_run ht hT hfits (filterKnown_compiled hfilter hl) hrows
  refine ⟨s, filter, es, hcatalog, hfits, ⟨hfilter, hpicked, hes⟩, ?_⟩
  simp only [foldl_dropEntry_keyed, filter_keyed_eq_droppedColumns] at hblobs
  obtain ⟨rfl, -⟩ := h.blobs_of_run ht hT hfits (fun _ hcol => droppedColumns_subset hcol)
    (fun col entries => keptEntries es col entries) hblobs
  cases he
  rw [deletePatches, List.map_append, map_unsealed_deletions]
  exact ⟨by rw [keyed, List.length_map], rfl⟩

theorem rowWrites_delete {es : List (UInt64 × Row)} (hn : (es.map Prod.fst).Nodup)
    (F : ℕ → List (Value × UInt64)) :
    RowWrites s (deletions es) (Change.patches s.maintainedColumns)
      ((droppedColumns s es).map fun col => ⟨.range col, some (F col)⟩) where
  nodup := by
    rw [deletions, List.map_map]
    exact hn
  rows _ _ _ := Iff.rfl
  extra w hw := by
    obtain ⟨col, hcol, rfl⟩ := List.mem_map.mp hw
    exact Or.inr ⟨col, droppedColumns_subset hcol, rfl⟩

theorem rowsOk_deletions {es : List (UInt64 × Row)} (h : ∀ e ∈ es, RowOk L s e.2) :
    RowsOk L s (deletions es) := by
  rintro ch hch row (hrow | hrow)
  · obtain ⟨e, he, rfl⟩ := List.mem_map.mp hch
    cases hrow
    exact h e he
  · obtain ⟨e, -, rfl⟩ := List.mem_map.mp hch
    cases hrow

/-- A range index after a `DELETE`. -/
theorem delete_range (hT : Content L X s T) {es : List (UInt64 × Row)} (hp : Picked T es) {col : ℕ}
    {c : ColumnDef} (hc : s.columns[col]? = some c) (hr : c.rangeIndexed = true) :
    ∃ entries, patchAll T ((droppedColumns s es).map fun col => (⟨.range col,
        some (keptEntries es col ((T (.range col)).getD []))⟩ : Patch Slot.Payload)) (.range col) =
        some entries ∧ entries.length ≤ maxEntries ∧
      Tracks (Agrees (X c.ty c.primaryKey)) (assignAll (T.live col)
        (es.map fun e => (e.1, none))) entries ∧
      (entries.Pairwise fun a b => entryLe a b = true) ∧
      ∀ e ∈ entries, e.1.HasType c.ty ∧ e.1.BlobFits := by
  have hcol := hT.columns col c hc
  obtain ⟨old, hold⟩ := Option.ne_none_iff_exists'.mp (hcol.ranges.mpr hr)
  obtain ⟨htracks, hsorted, htyped⟩ := hcol.tracked old hold
  rw [patchAll_blobs, hold, Option.getD_some]
  split
  · obtain ⟨hdrops, hsub⟩ := tracks_drops htracks (es.map fun e => (e.1, e.2.cell col))
      (by rw [List.map_map]; exact hp.nodup)
      (by
        intro d hd
        obtain ⟨e, he, rfl⟩ := List.mem_map.mp hd
        exact Table.live_of_row (hp.stored e he) col)
    rw [List.map_map] at hdrops
    exact ⟨_, rfl, hsub.length_le.trans (hcol.room old hold), hdrops, hsorted.sublist hsub,
      fun e he => htyped e (hsub.subset he)⟩
  · -- no deleted row has a value in the column
    rename_i hnot
    have hsame : T.live col = assignAll (T.live col) (es.map fun e => (e.1, none)) := by
      refine eq_assignAll ?_ (fun d hd => ?_) fun _ _ => rfl
      · rw [List.map_map]
        exact hp.nodup
      · obtain ⟨e, he, rfl⟩ := List.mem_map.mp hd
        rw [Table.live_of_row (hp.stored e he), Value.present_eq_none]
        by_contra hne
        refine hnot (List.mem_filter.mpr
          ⟨TableSchema.mem_rangeIndexedColumns.mpr ⟨c, hc, hr⟩, ?_⟩)
        rw [Bool.not_eq_true', List.all_eq_false]
        exact ⟨e, he, by rwa [Value.isNull_iff]⟩
    rw [← hsame]
    exact ⟨old, rfl, hcol.room old hold, htracks, hsorted, htyped⟩

/-- **A `DELETE` changes rows**: it removes the rows that match. -/
theorem delete_changes (h : Rep L mk m D) (ht : t ∈ L.names) (hwf : Wf L X t (D t))
    {predicate : Option Expr}
    (hl : ∀ l ∈ (predicate.map Expr.literals).getD [], ∀ v ∈ l.values, v ∈ L.values)
    {plan : Plan C} (hrun : (delete C mk t predicate).run m.reader = .ok plan) :
    ∃ s ws filter es, D t .catalog = some s ∧ plan.writes = ws.map (Patch.unsealed C mk t) ∧
      (∀ w ∈ ws, w.slot.Valid L) ∧ RowChanges L X s (deletions es) (D t) (patchAll (D t) ws) ∧
      patchAll (D t) ws .seq = D t .seq ∧ Targets (D t) s predicate filter es ∧
      plan.result = .deleted es.length := by
  obtain ⟨s, filter, es, hs, hfits, htargets, hresult, hwrites⟩ := delete_of_run h ht hwf hl hrun
  have hp := htargets.picked
  have hsch := hwf.schema s hs
  have hT := hwf.content s hs
  have hw := rowWrites_delete (s := s) hp.nodup fun col =>
    keptEntries es col ((D t (.range col)).getD [])
  have hok := rowsOk_deletions fun e he => hT.rows e.1 e.2 (hp.stored e he)
  have hseq : patchAll (D t) (deletePatches s es (D t)) .seq = D t .seq := by
    rw [deletePatches, hw.patchAll_extra (Or.inl rfl), patchAll_blobs_seq]
  refine ⟨s, _, filter, es, hs, hwrites, hw.valid hfits hok,
    { catalog := hw.patchAll_catalog
      old := ?_
      new := fun ch hch => hw.patchAll_row hch
      otherRow := fun id hid => hw.patchAll_otherRow hid
      ok := ?_
      seq := ?_
      entry := hw.patchAll_entry_ok hok hsch
      otherEntry := fun col v id hid => hw.patchAll_otherEntry hid
      exact := ?_
      required := ?_
      unique := ?_
      range := ?_
      otherRange := fun col hcol => hw.patchAll_otherRange hcol }, hseq, htargets, hresult⟩
  · intro ch hch
    obtain ⟨e, he, rfl⟩ := List.mem_map.mp hch
    exact hp.stored e he
  · intro ch hch row hrow
    obtain ⟨e, -, rfl⟩ := List.mem_map.mp hch
    cases hrow
  · rw [hseq]
    exact UInt64.le_refl _
  · intro ch hch col c hc hX _ hbeq
    obtain ⟨e, -, rfl⟩ := List.mem_map.mp hch
    have hbeq : (cellOf (some e.2) col).beq .null = true := hbeq
    rw [Value.beq_null_right, Value.isNull_iff] at hbeq
    exact hbeq
  · intro ch hch row hrow
    obtain ⟨e, -, rfl⟩ := List.mem_map.mp hch
    cases hrow
  · intro ch hch col c hc hkey hX v id hv
    obtain ⟨e, -, rfl⟩ := List.mem_map.mp hch
    rw [deletePatches, Table.live_eq, hw.patchAll_row hch] at hv
    cases hv
  · intro col c hc hr
    obtain ⟨entries, hentries, hlen, hrest⟩ := delete_range hT hp hc hr
    refine ⟨entries, ?_, hlen, ?_⟩
    · rw [deletePatches, hw.patchAll_extra (Or.inr ⟨col, rfl⟩), hentries]
    · rw [deletePatches, hw.live_patchAll, deletions, List.map_map]
      exact hrest

end Ciphra
