import Ciphra.Engine.Updates

/-!
# Creating and dropping tables and indexes

The statements that change a schema. A table comes into being empty and goes with all its slots. An
index statement turns one flag of one column and leaves everything else alone; `Wf.modifyColumn`
says that this is all there is to check, so that each of the four statements is left with the
indexes of its own column.
-/

namespace Ciphra

open OrdMap

variable {C : Crypto} {L : Lexicon} {X : Exactness} {mk : C.MasterKey} {m : ByteMap}
  {D : String → Table} {t : String} {T T' : Table} {s : TableSchema}

/-! ## Tables -/

theorem Table.eq_none_of_catalog (h : Wf L X t T) (hc : T .catalog = none) : T = fun _ => none :=
  funext fun slot => h.empty hc slot

/-- A column of a new table. -/
theorem columnOk_of_empty {c : ColumnDef} (hr : c.rangeIndexed = false) {col : ℕ}
    (he : ∀ v id, T (.entry col v id) = none) (hrow : ∀ id, T (.row id) = none)
    (hrange : T (.range col) = none) : ColumnOk X c col T where
  entries v id hne := absurd (he v id) hne
  exact _ _ v id := by
    rw [he, Table.live_of_none (hrow id)]
    simp
  required _ id hne := absurd (hrow id) hne
  unique _ _ id id' v hv := by
    rw [Table.live_of_none (hrow id)] at hv
    cases hv
  ranges := by simp [hrange, hr]
  tracked es hes := by
    rw [hrange] at hes
    cases hes
  room es hes := by
    rw [hrange] at hes
    cases hes

/-- A declaration with at most one primary key. -/
theorem pkColumn_of_single {columns : List ColumnDef}
    (h : (columns.filter ColumnDef.primaryKey).length ≤ 1) {col : ℕ} {c : ColumnDef}
    (hc : columns[col]? = some c) (hkey : c.primaryKey = true) :
    columns.findIdx? ColumnDef.primaryKey = some col := by
  induction columns generalizing col with
  | nil => cases hc
  | cons d columns ih =>
    rw [List.filter_cons] at h
    cases hd : d.primaryKey with
    | true =>
      rw [hd, if_pos rfl, List.length_cons] at h
      have hnone : columns.filter ColumnDef.primaryKey = [] := List.eq_nil_of_length_eq_zero (by omega)
      cases col with
      | zero => rw [List.findIdx?_cons, hd, if_pos rfl]
      | succ col =>
        rw [List.getElem?_cons_succ] at hc
        have := List.filter_eq_nil_iff.mp hnone c (List.mem_of_getElem? hc)
        exact absurd hkey this
    | false =>
      rw [hd, if_neg (by decide)] at h
      cases col with
      | zero =>
        cases hc
        rw [hd] at hkey
        cases hkey
      | succ col =>
        rw [List.getElem?_cons_succ] at hc
        rw [List.findIdx?_cons, hd, if_neg (by decide), ih h hc]
        rfl

/-- **`CREATE TABLE`** leaves an empty table behind. -/
theorem createTable_wf (h : Rep L mk m D) (ht : t ∈ L.names) (hwf : Wf L X t (D t))
    {columns : List ColumnDef} (hname : IsIdent t) (hcols : ∀ c ∈ columns, c.Parsed) {plan : Plan C}
    (hrun : (createTable C mk t columns).run m.reader = .ok plan) :
    ∃ ws, plan.writes = ws.map (Patch.unsealed C mk t) ∧ (∀ w ∈ ws, w.slot.Valid L) ∧
      Wf L X t (patchAll (D t) ws) ∧ D t .catalog = none ∧
      patchAll (D t) ws .catalog = some ⟨t, columns⟩ ∧
      (∀ slot, slot ≠ .catalog → patchAll (D t) ws slot = none) ∧ plan.result = .created t := by
  rw [createTable, Query.run_bind_eq_ok] at hrun
  obtain ⟨existing, hexisting, hrun⟩ := hrun
  rw [Query.run_bind_eq_ok] at hrun
  obtain ⟨_, hguard, hrun⟩ := hrun
  obtain rfl := guardRead_eq_ok hguard
  have hnone : D t .catalog = none := by
    by_contra hne
    obtain ⟨s, hs⟩ := Option.ne_none_iff_exists'.mp hne
    rw [h.run_schema_some ht hs] at hexisting
    obtain ⟨out, -, hout⟩ := bind_eq_ok.mp hexisting
    cases hout
  have hempty := Table.eq_none_of_catalog hwf hnone
  split at hrun
  · cases hrun
  · rw [Query.run_bind_eq_ok] at hrun
    obtain ⟨_, hsingle, hrun⟩ := hrun
    have hsingle := guardRead_eq_ok hsingle
    split at hrun
    · cases hrun
    · rename_i hvector
      cases hrun
      have hcatalog : patchAll (D t) [⟨.catalog, some ⟨t, columns⟩⟩] .catalog =
          some ⟨t, columns⟩ := by
        rw [patchAll_cons, patchAll_nil, patch_self]
      have hother : ∀ slot, slot ≠ .catalog →
          patchAll (D t) [⟨.catalog, some ⟨t, columns⟩⟩] slot = none := by
        intro slot hne
        rw [patchAll_cons, patchAll_nil, patch_of_ne (Ne.symm hne), hempty]
      refine ⟨[⟨.catalog, some ⟨t, columns⟩⟩], rfl, by simp [Slot.Valid], ?_, hnone, hcatalog,
        hother, rfl⟩
      refine ⟨fun hn => ?_, fun s hs => ?_, fun s hs => ?_⟩
      · rw [hcatalog] at hn
        cases hn
      · rw [hcatalog] at hs
        cases hs
        refine ⟨rfl, nameBytes_of_isIdent hname, fun c hc => nameBytes_of_isIdent (hcols c hc).name,
          fun col c hc hkey => pkColumn_of_single hsingle hc hkey, fun col c d hc hd => ?_,
          fun col c hc hi => ?_⟩
        · have hmem := List.mem_of_getElem? hc
          have hp := List.find?_eq_none.mp hvector c hmem
          have hpk : c.primaryKey = false := by
            simpa [hd] using hp
          rw [ColumnDef.maintained, hpk, (hcols c hmem).indexed]
          exact ⟨rfl, (hcols c hmem).rangeIndexed⟩
        · rw [(hcols c (List.mem_of_getElem? hc)).indexed] at hi
          cases hi
      · rw [hcatalog] at hs
        cases hs
        refine ⟨fun id row hrow => ?_, fun id row hrow => ?_, fun col c hc => ?_, fun col _ => ?_⟩
        · rw [hother _ (by simp)] at hrow
          cases hrow
        · rw [hother _ (by simp)] at hrow
          cases hrow
        · exact columnOk_of_empty (hcols c (List.mem_of_getElem? hc)).rangeIndexed
            (fun v id => hother _ (by simp)) (fun id => hother _ (by simp)) (hother _ (by simp))
        · exact ⟨fun v id => hother _ (by simp), hother _ (by simp)⟩

/-- Deletes of scanned slots. -/
theorem map_delete_scanned (slots : List Slot) (f : Slot → Bytes) :
    ((slots.map fun slot => (slot.key C mk t, f slot)).map fun e => Unsealed.delete (C := C) e.1) =
      (slots.map fun slot => (⟨slot, none⟩ : Patch Slot.Payload)).map (Patch.unsealed C mk t) := by
  rw [List.map_map, List.map_map]
  rfl

/-- **`DROP TABLE`** leaves nothing of a table behind. -/
theorem dropTable_wf (h : Rep L mk m D) (ht : t ∈ L.names) (hwf : Wf L X t (D t)) {plan : Plan C}
    (hrun : (dropTable C mk t).run m.reader = .ok plan) :
    ∃ ws, plan.writes = ws.map (Patch.unsealed C mk t) ∧ (∀ w ∈ ws, w.slot.Valid L) ∧
      patchAll (D t) ws = (fun _ => none) ∧ D t .catalog ≠ none ∧ plan.result = .dropped t := by
  simp only [dropTable, Query.run_bind_eq_ok, Query.run_entries, Query.run_pure] at hrun
  obtain ⟨s, hs, _, ⟨⟩, _, ⟨⟩, _, ⟨⟩, ⟨⟩⟩ := hrun
  have hcatalog := (h.expectSchema_of_run ht hwf hs).1
  obtain ⟨rows, -, hrows, hscanRows⟩ := h.scan_rows ht
  obtain ⟨entries, -, hentries, hscanEntries⟩ := h.scan_entries ht
  obtain ⟨ranges, -, hranges, hscanRanges⟩ := h.scan_ranges ht
  have hreader : ∀ p, m.reader.scan p = m.scanPrefix p := fun _ => rfl
  refine ⟨(rows ++ entries ++ ranges ++ [Slot.seq, Slot.catalog]).map
    fun slot => ⟨slot, none⟩, ?_, ?_, ?_, by rw [hcatalog]; exact Option.some_ne_none s, rfl⟩
  · simp only [hreader, hscanRows, hscanEntries, hscanRanges, List.map_append, map_delete_scanned]
    rfl
  · intro w hw
    obtain ⟨slot, hslot, rfl⟩ := List.mem_map.mp hw
    simp only [List.mem_append, List.mem_cons, List.not_mem_nil, or_false] at hslot
    rcases hslot with ((hslot | hslot) | hslot) | rfl | rfl
    · exact h.valid t ht slot ((hrows slot).mp hslot).2
    · exact h.valid t ht slot ((hentries slot).mp hslot).2
    · exact h.valid t ht slot ((hranges slot).mp hslot).2
    · trivial
    · trivial
  · funext slot
    rw [patchAll_clear]
    split
    · rfl
    · rename_i hnot
      simp only [List.mem_append, List.mem_cons, List.not_mem_nil, or_false, not_or] at hnot
      obtain ⟨⟨⟨hr, he⟩, hz⟩, hseq, hcat⟩ := hnot
      by_contra hne
      cases slot with
      | catalog => exact hcat rfl
      | seq => exact hseq rfl
      | row id => exact hr ((hrows _).mpr ⟨⟨id, rfl⟩, hne⟩)
      | entry col v id => exact he ((hentries _).mpr ⟨⟨col, v, id, rfl⟩, hne⟩)
      | range col => exact hz ((hranges _).mpr ⟨⟨col, rfl⟩, hne⟩)

/-! ## Indexes -/

/-- A column whose slots are as they were. -/
theorem ColumnOk.congr {c : ColumnDef} {col : ℕ} (h : ColumnOk X c col T)
    (hrow : ∀ id, T' (.row id) = T (.row id))
    (hentry : ∀ v id, T' (.entry col v id) = T (.entry col v id))
    (hrange : T' (.range col) = T (.range col)) : ColumnOk X c col T' := by
  have hlive : T'.live col = T.live col := by
    funext id
    rw [Table.live, hrow, ← Table.live]
  refine ⟨fun v id hne => ?_, fun hm hX v id => ?_, fun hk id hne => ?_, fun hk hX => ?_, ?_, ?_,
    ?_⟩
  · rw [hentry] at hne
    exact h.entries v id hne
  · rw [hentry, hlive]
    exact h.exact hm hX v id
  · rw [hrow] at hne
    rw [hlive]
    exact h.required hk id hne
  · rw [hlive]
    exact h.unique hk hX
  · rw [hrange]
    exact h.ranges
  · rw [hrange, hlive]
    exact h.tracked
  · rw [hrange]
    exact h.room

/-- What a schema with a changed column has at a position. -/
theorem TableSchema.getElem?_modifyColumn {s : TableSchema} {col : ℕ} {c : ColumnDef}
    (hc : s.columns[col]? = some c) (g : ColumnDef → ColumnDef) (i : ℕ) :
    (s.modifyColumn col g).columns[i]? = if i = col then some (g c) else s.columns[i]? := by
  rw [TableSchema.modifyColumn, List.getElem?_modify]
  by_cases hi : i = col
  · subst hi
    simp [hc]
  · simp [hi, Ne.symm hi]

/-- A property of columns that the change respects. -/
theorem TableSchema.map_modifyColumn {α : Type} {s : TableSchema} {col : ℕ} {c : ColumnDef}
    (hc : s.columns[col]? = some c) {g : ColumnDef → ColumnDef} {f : ColumnDef → α}
    (hf : f (g c) = f c) : (s.modifyColumn col g).columns.map f = s.columns.map f := by
  refine List.ext_getElem? fun i => ?_
  rw [List.getElem?_map, List.getElem?_map, TableSchema.getElem?_modifyColumn hc]
  split
  · rename_i hi
    rw [hi, hc, Option.map_some, Option.map_some, hf]
  · rfl

theorem TableSchema.pkColumn_modifyColumn {s : TableSchema} {col : ℕ} {c : ColumnDef}
    (hc : s.columns[col]? = some c) {g : ColumnDef → ColumnDef}
    (hg : (g c).primaryKey = c.primaryKey) : (s.modifyColumn col g).pkColumn = s.pkColumn := by
  have hfind : ∀ columns : List ColumnDef, columns.findIdx? ColumnDef.primaryKey =
      (columns.map ColumnDef.primaryKey).findIdx? id := by
    intro columns
    rw [List.findIdx?_map]
    rfl
  rw [TableSchema.pkColumn, TableSchema.pkColumn, hfind, hfind, TableSchema.map_modifyColumn hc hg]

theorem SchemaOk.modifyColumn (h : SchemaOk t s) {col : ℕ} {c : ColumnDef}
    (hc : s.columns[col]? = some c) {g : ColumnDef → ColumnDef}
    (hg : (g c).name = c.name ∧ (g c).ty = c.ty ∧ (g c).primaryKey = c.primaryKey)
    (hvector : ∀ d, c.ty = .vector d → (g c).maintained = false ∧ (g c).rangeIndexed = false)
    (hindexed : (g c).indexed = true → c.primaryKey = false) :
    SchemaOk t (s.modifyColumn col g) := by
  have hget := TableSchema.getElem?_modifyColumn hc g
  refine ⟨h.name, h.nameBytes, fun c' hc' => ?_, fun i c' hc' hkey => ?_, fun i c' d hc' hd => ?_,
    fun i c' hc' hi => ?_⟩
  · have hmem : c'.name ∈ s.columns.map ColumnDef.name := by
      rw [← TableSchema.map_modifyColumn hc hg.1]
      exact List.mem_map_of_mem hc'
    obtain ⟨c'', hc'', heq⟩ := List.mem_map.mp hmem
    rw [← heq]
    exact h.columnBytes c'' hc''
  · rw [TableSchema.pkColumn_modifyColumn hc hg.2.2]
    rw [hget] at hc'
    split at hc'
    · rename_i hi
      cases hc'
      rw [hg.2.2] at hkey
      exact hi ▸ h.single col c hc hkey
    · exact h.single i c' hc' hkey
  · rw [hget] at hc'
    split at hc'
    · cases hc'
      rw [hg.2.1] at hd
      exact hvector d hd
    · exact h.vector i c' d hc' hd
  · rw [hget] at hc'
    split at hc'
    · cases hc'
      rw [hg.2.2]
      exact hindexed hi
    · exact h.indexed i c' hc' hi

theorem RowOk.modifyColumn {row : Row} (h : RowOk L s row) {col : ℕ} {c : ColumnDef}
    (hc : s.columns[col]? = some c) {g : ColumnDef → ColumnDef} (hg : (g c).ty = c.ty) :
    RowOk L (s.modifyColumn col g) row where
  length := by
    rw [h.length, TableSchema.modifyColumn, List.length_modify]
  short := h.short
  typed i c' hc' := by
    rw [TableSchema.getElem?_modifyColumn hc] at hc'
    split at hc'
    · rename_i hi
      cases hc'
      rw [hg, hi]
      exact h.typed col c hc
    · exact h.typed i c' hc'
  storable := h.storable

/-- **One column of a table gets new flags, and its indexes follow.** -/
theorem Wf.modifyColumn (h : Wf L X t T) (hs : T .catalog = some s) {col : ℕ} {c : ColumnDef}
    (hc : s.columns[col]? = some c) {g : ColumnDef → ColumnDef}
    (hg : (g c).name = c.name ∧ (g c).ty = c.ty ∧ (g c).primaryKey = c.primaryKey)
    (hvector : ∀ d, c.ty = .vector d → (g c).maintained = false ∧ (g c).rangeIndexed = false)
    (hindexed : (g c).indexed = true → c.primaryKey = false)
    (hcatalog : T' .catalog = some (s.modifyColumn col g)) (hseq : T' .seq = T .seq)
    (hrow : ∀ id, T' (.row id) = T (.row id))
    (hentry : ∀ i, i ≠ col → ∀ v id, T' (.entry i v id) = T (.entry i v id))
    (hrange : ∀ i, i ≠ col → T' (.range i) = T (.range i))
    (hcol : ColumnOk X (g c) col T') : Wf L X t T' := by
  have hT := h.content s hs
  have hget := TableSchema.getElem?_modifyColumn hc g
  refine ⟨fun hn => ?_, fun s' hs' => ?_, fun s' hs' => ?_⟩
  · rw [hcatalog] at hn
    cases hn
  · rw [hcatalog] at hs'
    cases hs'
    exact (h.schema s hs).modifyColumn hc hg hvector hindexed
  · rw [hcatalog] at hs'
    cases hs'
    refine ⟨fun id row hid => ?_, fun id row hid => ?_, fun i c' hc' => ?_, fun i hi => ?_⟩
    · rw [hrow] at hid
      exact (hT.rows id row hid).modifyColumn hc hg.2.1
    · rw [hrow] at hid
      rw [hseq]
      exact hT.below id row hid
    · rw [hget] at hc'
      split at hc'
      · rename_i hi
        cases hc'
        rw [hi]
        exact hcol
      · rename_i hi
        exact (hT.columns i c' hc').congr hrow (hentry i hi) (hrange i hi)
    · rw [hget] at hi
      split at hi
      · cases hi
      · rename_i hne
        obtain ⟨he, hr⟩ := hT.outside i hi
        refine ⟨fun v id => ?_, ?_⟩
        · rw [hentry i hne, he]
        · rw [hrange i hne, hr]

/-- The schema and the column an index statement is about. -/
theorem Rep.column_of_run (h : Rep L mk m D) (ht : t ∈ L.names) (hwf : Wf L X t (D t))
    {column : String} {α : Type} {f : TableSchema → ℕ → ColumnDef → Read α} {a : α}
    (hrun : (do
      let s ← expectSchema C mk t
      let col ← Query.ofExcept (resolveColumn s column t)
      match s.columns[col]? with
      | none => Query.fail .panicked
      | some c => f s col c : Read α).run m.reader = .ok a) :
    ∃ s col c, D t .catalog = some s ∧ SchemaFits s ∧ resolveColumn s column t = .ok col ∧
      s.columns[col]? = some c ∧ (f s col c).run m.reader = .ok a := by
  simp only [Query.run_bind_eq_ok, Query.run_ofExcept] at hrun
  obtain ⟨s, hs, col, hcol, hrun⟩ := hrun
  obtain ⟨hcatalog, hfits⟩ := h.expectSchema_of_run ht hwf hs
  cases hc : s.columns[col]? with
  | none =>
    rw [hc] at hrun
    cases hrun
  | some c =>
    rw [hc] at hrun
    exact ⟨s, col, c, hcatalog, hfits, hcol, hc, hrun⟩

/-- The entries of a column, backfilled for the given rows. -/
def backfill (col : ℕ) (es : List (UInt64 × Row)) : List (Patch Slot.Payload) :=
  es.flatMap fun e => diffPatches col .null (e.2.cell col) e.1

theorem mem_backfill {col : ℕ} {es : List (UInt64 × Row)} {w : Patch Slot.Payload} :
    w ∈ backfill col es ↔
      ∃ e ∈ es, e.2.cell col ≠ .null ∧ w = ⟨.entry col (e.2.cell col) e.1, some ()⟩ := by
  simp only [backfill, List.mem_flatMap, mem_diffPatches, Value.beq_null_left, Value.isNull_iff]
  constructor
  · rintro ⟨e, he, -, ⟨hne, -⟩ | ⟨hne, rfl⟩⟩
    · exact absurd rfl hne
    · exact ⟨e, he, hne, rfl⟩
  · rintro ⟨e, he, hne, rfl⟩
    exact ⟨e, he, hne, Or.inr ⟨hne, rfl⟩⟩

theorem map_unsealed_backfill (col : ℕ) (es : List (UInt64 × Row)) :
    (backfill col es).map (Patch.unsealed C mk t) = (keyed C mk t es).flatMap fun e =>
      newEntries C mk t [col] e.2 (rowidFromKey e.1) := by
  simp only [backfill, keyed, List.map_flatMap, List.flatMap_map, rowidFromKey_rowKey,
    newEntries_eq, List.flatMap_cons, List.flatMap_nil, List.append_nil]

/-- A schema as a patch of its own table. -/
theorem unsealed_schema (hsch : SchemaOk t s) (col : ℕ) (g : ColumnDef → ColumnDef) :
    Patch.unsealed C mk t ⟨.catalog, some (s.modifyColumn col g)⟩ =
      addSchema C mk (s.modifyColumn col g) := by
  have hname : (s.modifyColumn col g).name = t := hsch.name
  rw [addSchema, hname]
  rfl

/-- The patch is of an index of the column. -/
def OfColumn (col : ℕ) (w : Patch Slot.Payload) : Prop :=
  (∃ v id, w.slot = .entry col v id) ∨ w.slot = .range col

/-- A slot that belongs neither to the indexes of the column nor to the schema. -/
theorem patchAll_ofColumn {ws : List (Patch Slot.Payload)} {schema : TableSchema} {col : ℕ}
    (hw : ∀ w ∈ ws, OfColumn col w) {slot : Slot} (hentry : ∀ v id, slot ≠ .entry col v id)
    (hrange : slot ≠ .range col) (hcatalog : slot ≠ .catalog) :
    patchAll T (ws ++ [⟨.catalog, some schema⟩]) slot = T slot := by
  refine patchAll_of_notMem fun w hmem heq => ?_
  rcases List.mem_append.mp hmem with hmem | hmem
  · rcases hw w hmem with ⟨v, id, he⟩ | he
    · exact hentry v id (heq.symm.trans he)
    · exact hrange (heq.symm.trans he)
  · rw [List.mem_singleton.mp hmem] at heq
    exact hcatalog heq.symm

/-- The last patch does not touch the indexes of the column. -/
theorem patchAll_before_catalog {ws : List (Patch Slot.Payload)} {schema : TableSchema}
    {slot : Slot} (hslot : slot ≠ .catalog) :
    patchAll T (ws ++ [⟨.catalog, some schema⟩]) slot = patchAll T ws slot := by
  rw [patchAll_append, patchAll_cons, patchAll_nil, patch_of_ne (Ne.symm hslot)]

/-- What an index statement leaves: the flags of one column changed, and no row touched. -/
structure Reflagged (s : TableSchema) (col : ℕ) (g : ColumnDef → ColumnDef) (T T' : Table) :
    Prop where
  old : T .catalog = some s
  catalog : T' .catalog = some (s.modifyColumn col g)
  row : ∀ id, T' (.row id) = T (.row id)
  seq : T' .seq = T .seq

theorem reflagged_patchAll (hs : T .catalog = some s) {ws : List (Patch Slot.Payload)} {col : ℕ}
    (hws : ∀ w ∈ ws, OfColumn col w) (g : ColumnDef → ColumnDef) :
    Reflagged s col g T (patchAll T (ws ++ [⟨.catalog, some (s.modifyColumn col g)⟩])) where
  old := hs
  catalog := by rw [patchAll_append, patchAll_cons, patchAll_nil, patch_self]
  row id := patchAll_ofColumn hws (by simp) (by simp) (by simp)
  seq := patchAll_ofColumn hws (by simp) (by simp) (by simp)

/-- **A batch of an index statement**: indexes of one column, and its flags. -/
theorem Wf.patchColumn (h : Wf L X t T) (hs : T .catalog = some s) {col : ℕ} {c : ColumnDef}
    (hc : s.columns[col]? = some c) {g : ColumnDef → ColumnDef}
    (hg : (g c).name = c.name ∧ (g c).ty = c.ty ∧ (g c).primaryKey = c.primaryKey)
    (hvector : ∀ d, c.ty = .vector d → (g c).maintained = false ∧ (g c).rangeIndexed = false)
    (hindexed : (g c).indexed = true → c.primaryKey = false) {ws : List (Patch Slot.Payload)}
    (hws : ∀ w ∈ ws, OfColumn col w)
    (hcol : (∀ id, patchAll T (ws ++ [⟨.catalog, some (s.modifyColumn col g)⟩]) (.row id) =
      T (.row id)) → ColumnOk X (g c) col (patchAll T (ws ++ [⟨.catalog,
        some (s.modifyColumn col g)⟩]))) :
    Wf L X t (patchAll T (ws ++ [⟨.catalog, some (s.modifyColumn col g)⟩])) := by
  have hrow : ∀ id, patchAll T (ws ++ [⟨.catalog, some (s.modifyColumn col g)⟩]) (.row id) =
      T (.row id) := fun id => patchAll_ofColumn hws (by simp) (by simp) (by simp)
  refine h.modifyColumn hs hc hg hvector hindexed ?_ ?_ hrow (fun i hi v id => ?_)
    (fun i hi => ?_) (hcol hrow)
  · rw [patchAll_append, patchAll_cons, patchAll_nil, patch_self]
  · exact patchAll_ofColumn hws (by simp) (by simp) (by simp)
  · exact patchAll_ofColumn hws (by simp [hi]) (by simp) (by simp)
  · exact patchAll_ofColumn hws (by simp) (by simp [hi]) (by simp)

/-- A column whose equality entries are made anew or dropped. -/
theorem ColumnOk.reindex {c c' : ColumnDef} {col : ℕ} (h : ColumnOk X c col T)
    (hty : c'.ty = c.ty) (hkey : c'.primaryKey = c.primaryKey)
    (hr : c'.rangeIndexed = c.rangeIndexed) (hrow : ∀ id, T' (.row id) = T (.row id))
    (hrange : T' (.range col) = T (.range col))
    (hentry : ∀ v id, T' (.entry col v id) ≠ none ↔
      c'.maintained = true ∧ T.live col id = some v) : ColumnOk X c' col T' := by
  have hlive : T'.live col = T.live col := by
    funext id
    rw [Table.live, hrow, ← Table.live]
  refine ⟨fun v id hne => ((hentry v id).mp hne).1, fun hm _ v id => ?_, fun hk id hne => ?_,
    fun hk hX => ?_, ?_, ?_, ?_⟩
  · rw [hentry, hlive]
    exact ⟨fun hx => hx.2, fun hx => ⟨hm, hx⟩⟩
  · rw [hkey] at hk
    rw [hrow] at hne
    rw [hlive]
    exact h.required hk id hne
  · rw [hkey] at hk
    rw [hty, hkey] at hX
    rw [hlive]
    exact h.unique hk hX
  · rw [hrange, hr]
    exact h.ranges
  · rw [hrange, hlive, hty, hkey]
    exact h.tracked
  · rw [hrange]
    exact h.room

/-- A column whose range index is made anew or dropped. -/
theorem ColumnOk.rerange {c c' : ColumnDef} {col : ℕ} (h : ColumnOk X c col T)
    (hty : c'.ty = c.ty) (hkey : c'.primaryKey = c.primaryKey) (hi : c'.indexed = c.indexed)
    (hrow : ∀ id, T' (.row id) = T (.row id))
    (hentry : ∀ v id, T' (.entry col v id) = T (.entry col v id))
    (hranges : T' (.range col) ≠ none ↔ c'.rangeIndexed = true)
    (htracked : ∀ es, T' (.range col) = some es →
      es.length ≤ maxEntries ∧ Tracks (Agrees (X c.ty c.primaryKey)) (T.live col) es ∧
        (es.Pairwise fun a b => entryLe a b = true) ∧ ∀ e ∈ es, e.1.HasType c.ty ∧ e.1.BlobFits) :
    ColumnOk X c' col T' := by
  have hlive : T'.live col = T.live col := by
    funext id
    rw [Table.live, hrow, ← Table.live]
  have hm : c'.maintained = c.maintained := by
    rw [ColumnDef.maintained, ColumnDef.maintained, hkey, hi]
  refine ⟨fun v id hne => ?_, fun hm' hX v id => ?_, fun hk id hne => ?_, fun hk hX => ?_, hranges,
    ?_, fun es hes => (htracked es hes).1⟩
  · rw [hentry] at hne
    rw [hm]
    exact h.entries v id hne
  · rw [hm] at hm'
    rw [hty, hkey] at hX
    rw [hentry, hlive]
    exact h.exact hm' hX v id
  · rw [hkey] at hk
    rw [hrow] at hne
    rw [hlive]
    exact h.required hk id hne
  · rw [hkey] at hk
    rw [hty, hkey] at hX
    rw [hlive]
    exact h.unique hk hX
  · rw [hlive, hty, hkey]
    exact fun es hes => (htracked es hes).2

/-- What a backfill leaves in the entries of a column that had none. -/
theorem patchAll_backfill {col : ℕ} {es : List (UInt64 × Row)}
    (hstored : ∀ id row, T (.row id) = some row ↔ (id, row) ∈ es)
    (hnone : ∀ v id, T (.entry col v id) = none) (v : Value) (id : UInt64) :
    patchAll T (backfill col es) (.entry col v id) ≠ none ↔ T.live col id = some v := by
  by_cases hlive : T.live col id = some v
  · obtain ⟨row, hrow, rfl, hne⟩ := Table.live_eq_some.mp hlive
    have hmem : (⟨.entry col (row.cell col) id, some ()⟩ : Patch Slot.Payload) ∈ backfill col es :=
      mem_backfill.mpr ⟨(id, row), (hstored id row).mp hrow, hne, rfl⟩
    rw [patchAll_of_mem hmem]
    · simp [hlive]
    · rintro x hx
      obtain ⟨e, -, -, he⟩ := mem_backfill.mp hx
      exact eq_of_heq (Patch.mk.inj he).2
  · rw [patchAll_of_notMem, hnone]
    · simp [hlive]
    · rintro w hw heq
      obtain ⟨e, he, hne, rfl⟩ := mem_backfill.mp hw
      cases heq
      exact hlive (Table.live_eq_some.mpr ⟨e.2, (hstored e.1 e.2).mpr he, rfl, hne⟩)

/-- **`CREATE INDEX`** backfills the entries of its column. -/
theorem createIndex_wf (h : Rep L mk m D) (ht : t ∈ L.names) (hwf : Wf L X t (D t))
    {column : String} {plan : Plan C}
    (hrun : (createIndex C mk t column).run m.reader = .ok plan) :
    ∃ ws, plan.writes = ws.map (Patch.unsealed C mk t) ∧ (∀ w ∈ ws, w.slot.Valid L) ∧
      Wf L X t (patchAll (D t) ws) ∧ ∃ s col, resolveColumn s column t = .ok col ∧
        Reflagged s col (fun c => { c with indexed := true }) (D t) (patchAll (D t) ws) ∧
        plan.result = .indexCreated t column false := by
  obtain ⟨s, col, c, hs, hfits, hname, hc, hrun⟩ := h.column_of_run ht hwf hrun
  simp only [Query.run_bind_eq_ok, Query.run_pure] at hrun
  obtain ⟨_, hkey, _, hindexed, _, hvector, rows, hrows, he⟩ := hrun
  have hkey := guardRead_eq_ok hkey
  have hindexed := guardRead_eq_ok hindexed
  have hvector := guardRead_eq_ok hvector
  have hsch := hwf.schema s hs
  have hT := hwf.content s hs
  have hcol := hT.columns col c hc
  obtain ⟨es, hp, hall, hscan⟩ := h.run_scanRows ht hT.fits
  rw [hscan] at hrows
  cases hrows
  cases he
  have hnone : ∀ v id, D t (.entry col v id) = none := by
    intro v id
    by_contra hne
    have hm := hcol.entries v id hne
    rw [ColumnDef.maintained, hkey, hindexed] at hm
    cases hm
  have hws : ∀ w ∈ backfill col es, OfColumn col w := by
    intro w hw
    obtain ⟨e, -, -, rfl⟩ := mem_backfill.mp hw
    exact Or.inl ⟨_, _, rfl⟩
  refine ⟨backfill col es ++ [⟨.catalog, some (s.modifyColumn col
    fun c => { c with indexed := true })⟩], ?_, ?_, ?_,
    s, col, hname, reflagged_patchAll hs hws _, rfl⟩
  · rw [List.map_append, map_unsealed_backfill, List.map_singleton, unsealed_schema hsch]
  · intro w hw
    rcases List.mem_append.mp hw with hw | hw
    · obtain ⟨e, he, hne, rfl⟩ := mem_backfill.mp hw
      have hst := (hT.rows e.1 e.2 (hp.stored e he)).storable_cell col
      exact ⟨hfits.col_lt hc, (hst.resolve_left hne).1⟩
    · rw [List.mem_singleton.mp hw]
      trivial
  · refine hwf.patchColumn hs hc ⟨rfl, rfl, rfl⟩ (fun d hd => ?_) (fun _ => hkey) hws
      fun hrow => hcol.reindex rfl rfl rfl hrow ?_ fun v id => ?_
    · rw [hd] at hvector
      cases hvector
    · refine patchAll_of_notMem fun w hw heq => ?_
      rcases List.mem_append.mp hw with hw | hw
      · obtain ⟨e, -, -, rfl⟩ := mem_backfill.mp hw
        cases heq
      · rw [List.mem_singleton.mp hw] at heq
        cases heq
    · rw [patchAll_before_catalog (by simp), patchAll_backfill
        (fun id row => ⟨hall id row, fun hmem => hp.stored _ hmem⟩) hnone, ColumnDef.maintained,
        Bool.or_true]
      simp

/-- **`DROP INDEX`** deletes the entries of its column. -/
theorem dropIndex_wf (h : Rep L mk m D) (ht : t ∈ L.names) (hwf : Wf L X t (D t))
    {column : String} {plan : Plan C}
    (hrun : (dropIndex C mk t column).run m.reader = .ok plan) :
    ∃ ws, plan.writes = ws.map (Patch.unsealed C mk t) ∧ (∀ w ∈ ws, w.slot.Valid L) ∧
      Wf L X t (patchAll (D t) ws) ∧ ∃ s col, resolveColumn s column t = .ok col ∧
        Reflagged s col (fun c => { c with indexed := false }) (D t) (patchAll (D t) ws) ∧
        plan.result = .indexDropped t column false := by
  obtain ⟨s, col, c, hs, hfits, hname, hc, hrun⟩ := h.column_of_run ht hwf hrun
  simp only [Query.run_bind_eq_ok, Query.run_entries, Query.run_pure] at hrun
  obtain ⟨_, hindexed, _, ⟨⟩, ⟨⟩⟩ := hrun
  have hindexed := guardRead_eq_ok hindexed
  have hsch := hwf.schema s hs
  have hcol := (hwf.content s hs).columns col c hc
  have hkey := hsch.indexed col c hc hindexed
  obtain ⟨slots, -, hslots, hscan⟩ := h.scan_column ht (hfits.col_lt hc)
  have hreader : m.reader.scan (C.indexColumnPrefix mk t col) =
      m.scanPrefix (C.indexColumnPrefix mk t col) := rfl
  have hclear : ∀ w ∈ slots.map fun slot => (⟨slot, none⟩ : Patch Slot.Payload),
      ∃ v id, w.slot = .entry col v id := by
    intro w hw
    obtain ⟨slot, hslot, rfl⟩ := List.mem_map.mp hw
    obtain ⟨⟨v, id, rfl⟩, -⟩ := (hslots slot).mp hslot
    exact ⟨v, id, rfl⟩
  have hws : ∀ w ∈ slots.map fun slot => (⟨slot, none⟩ : Patch Slot.Payload), OfColumn col w :=
    fun w hw => Or.inl (hclear w hw)
  refine ⟨(slots.map fun slot => ⟨slot, none⟩) ++ [⟨.catalog, some (s.modifyColumn col
    fun c => { c with indexed := false })⟩], ?_, ?_, ?_,
    s, col, hname, reflagged_patchAll hs hws _, rfl⟩
  · rw [hreader, hscan, map_delete_scanned, List.map_append, List.map_singleton,
      unsealed_schema hsch]
  · intro w hw
    rcases List.mem_append.mp hw with hw | hw
    · obtain ⟨slot, hslot, rfl⟩ := List.mem_map.mp hw
      exact h.valid t ht slot ((hslots slot).mp hslot).2
    · rw [List.mem_singleton.mp hw]
      trivial
  · refine hwf.patchColumn hs hc ⟨rfl, rfl, rfl⟩ (fun d hd => ?_) (fun hi => by cases hi)
      hws fun hrow => hcol.reindex rfl rfl rfl hrow ?_ fun v id => ?_
    · refine ⟨?_, (hsch.vector col c d hc hd).2⟩
      rw [ColumnDef.maintained, hkey]
      rfl
    · rw [patchAll_before_catalog (by simp), patchAll_clear, if_neg]
      intro hmem
      obtain ⟨⟨v, id, he⟩, -⟩ := (hslots _).mp hmem
      cases he
    · have hgone : patchAll (D t) (slots.map fun slot => ⟨slot, none⟩) (.entry col v id) = none := by
        rw [patchAll_clear]
        split
        · rfl
        · rename_i hnot
          by_contra hne
          exact hnot ((hslots _).mpr ⟨⟨v, id, rfl⟩, hne⟩)
      rw [patchAll_before_catalog (by simp), hgone, ColumnDef.maintained, hkey]
      simp

/-- **`CREATE RANGE INDEX`** builds the range index of its column. -/
theorem createRangeIndex_wf (h : Rep L mk m D) (ht : t ∈ L.names) (hwf : Wf L X t (D t))
    {column : String} {plan : Plan C}
    (hrun : (createRangeIndex C mk t column).run m.reader = .ok plan) :
    ∃ ws, plan.writes = ws.map (Patch.unsealed C mk t) ∧ (∀ w ∈ ws, w.slot.Valid L) ∧
      Wf L X t (patchAll (D t) ws) ∧ ∃ s col, resolveColumn s column t = .ok col ∧
        Reflagged s col (fun c => { c with rangeIndexed := true }) (D t) (patchAll (D t) ws) ∧
        plan.result = .indexCreated t column true := by
  obtain ⟨s, col, c, hs, hfits, hname, hc, hrun⟩ := h.column_of_run ht hwf hrun
  simp only [Query.run_bind_eq_ok, Query.run_pure] at hrun
  obtain ⟨_, -, _, hvector, rows, hrows, blob, hblob, he⟩ := hrun
  have hvector : ∀ d, c.ty ≠ .vector d := by
    intro d hd
    have := guardRead_eq_ok hvector
    rw [hd] at this
    cases this
  have hsch := hwf.schema s hs
  have hT := hwf.content s hs
  have hcol := hT.columns col c hc
  obtain ⟨es, hp, hall, hscan⟩ := h.run_scanRows ht hT.fits
  rw [hscan] at hrows
  cases hrows
  rw [map_rowid_keyed] at hblob
  obtain ⟨rfl, hroom⟩ := sealRangeBlob_eq_ok hblob
  cases he
  have hws : ∀ w ∈ [(⟨.range col, some (sortRangeEntries (rangeEntriesOf col es))⟩ :
      Patch Slot.Payload)], OfColumn col w := by
    intro w hw
    rw [List.mem_singleton.mp hw]
    exact Or.inr rfl
  refine ⟨[⟨.range col, some (sortRangeEntries (rangeEntriesOf col es))⟩] ++
    [⟨.catalog, some (s.modifyColumn col fun c => { c with rangeIndexed := true })⟩], ?_, ?_, ?_,
    s, col, hname, reflagged_patchAll hs hws _, rfl⟩
  · rw [List.map_append, List.map_singleton, List.map_singleton, unsealed_schema hsch]
    rfl
  · intro w hw
    rcases List.mem_append.mp hw with hw | hw
    · rw [List.mem_singleton.mp hw]
      exact hfits.col_lt hc
    · rw [List.mem_singleton.mp hw]
      trivial
  · have hrange : patchAll (D t) ([⟨.range col, some (sortRangeEntries (rangeEntriesOf col es))⟩] ++
        [⟨.catalog, some (s.modifyColumn col fun c => { c with rangeIndexed := true })⟩])
        (.range col) = some (sortRangeEntries (rangeEntriesOf col es)) := by
      rw [patchAll_before_catalog (by simp), patchAll_cons, patchAll_nil, patch_self]
    refine hwf.patchColumn hs hc ⟨rfl, rfl, rfl⟩ (fun d hd => absurd hd (hvector d))
      (hsch.indexed col c hc) hws
      fun hrow => hcol.rerange rfl rfl rfl hrow (fun v id => ?_) ?_ fun es' hes' => ?_
    · rw [patchAll_before_catalog (by simp), patchAll_cons, patchAll_nil, patch_of_ne (by simp)]
    · rw [hrange]
      simp
    · rw [hrange] at hes'
      cases hes'
      exact ⟨hroom, tracks_rangeEntriesOf hT hp hall hc hvector⟩

/-- **`DROP RANGE INDEX`** deletes the range index of its column. -/
theorem dropRangeIndex_wf (h : Rep L mk m D) (ht : t ∈ L.names) (hwf : Wf L X t (D t))
    {column : String} {plan : Plan C}
    (hrun : (dropRangeIndex C mk t column).run m.reader = .ok plan) :
    ∃ ws, plan.writes = ws.map (Patch.unsealed C mk t) ∧ (∀ w ∈ ws, w.slot.Valid L) ∧
      Wf L X t (patchAll (D t) ws) ∧ ∃ s col, resolveColumn s column t = .ok col ∧
        Reflagged s col (fun c => { c with rangeIndexed := false }) (D t) (patchAll (D t) ws) ∧
        plan.result = .indexDropped t column true := by
  obtain ⟨s, col, c, hs, hfits, hname, hc, hrun⟩ := h.column_of_run ht hwf hrun
  simp only [Query.run_bind_eq_ok, Query.run_pure] at hrun
  obtain ⟨_, -, ⟨⟩⟩ := hrun
  have hsch := hwf.schema s hs
  have hcol := (hwf.content s hs).columns col c hc
  have hws : ∀ w ∈ [(⟨.range col, none⟩ : Patch Slot.Payload)], OfColumn col w := by
    intro w hw
    rw [List.mem_singleton.mp hw]
    exact Or.inr rfl
  refine ⟨[⟨.range col, none⟩] ++
    [⟨.catalog, some (s.modifyColumn col fun c => { c with rangeIndexed := false })⟩], ?_, ?_, ?_,
    s, col, hname, reflagged_patchAll hs hws _, rfl⟩
  · rw [List.map_append, List.map_singleton, List.map_singleton, unsealed_schema hsch]
    rfl
  · intro w hw
    rcases List.mem_append.mp hw with hw | hw
    · rw [List.mem_singleton.mp hw]
      exact hfits.col_lt hc
    · rw [List.mem_singleton.mp hw]
      trivial
  · have hrange : patchAll (D t) ([⟨.range col, none⟩] ++
        [⟨.catalog, some (s.modifyColumn col fun c => { c with rangeIndexed := false })⟩])
        (.range col) = none := by
      rw [patchAll_before_catalog (by simp), patchAll_cons, patchAll_nil, patch_self]
    refine hwf.patchColumn hs hc ⟨rfl, rfl, rfl⟩ (fun d hd => ⟨?_, rfl⟩)
      (hsch.indexed col c hc) hws
      fun hrow => hcol.rerange rfl rfl rfl hrow (fun v id => ?_) ?_ fun es' hes' => ?_
    · exact (hsch.vector col c d hc hd).1
    · rw [patchAll_before_catalog (by simp), patchAll_cons, patchAll_nil, patch_of_ne (by simp)]
    · rw [hrange]
      simp
    · rw [hrange] at hes'
      cases hes'

end Ciphra
