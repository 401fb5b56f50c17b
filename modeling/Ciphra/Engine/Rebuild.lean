import Ciphra.Engine.Definitions

/-!
# Rebuilding the tables

A rotation reads every table through the old master key and writes it again under the new one,
deriving the index entries and the range indexes from the rows. `rebuilt_wf` says that what it
writes is a well-formed table with the schema, the rows and the sequence of the old one, and
`Rep.rotation` that the scratch log then stores exactly these tables.
-/

namespace Ciphra

open OrdMap

variable {C : Crypto} {L : Lexicon} {X : Exactness} {mk : C.MasterKey} {m : ByteMap}
  {D : String → Table} {t : String} {T T' : Table} {s : TableSchema}

/-! ## What is read -/

theorem Slot.kind_catalog {slot : Slot} (h : catalogPrefix = slot.kind) : slot = .catalog := by
  cases slot <;>
    simp_all [Slot.kind, catalogPrefix, seqPrefix, rowsPrefix, indexesPrefix, rangesPrefix]

/-- A data key under the catalog prefix is the catalog key of a table. -/
theorem Slot.catalog_of_isPrefix {slot : Slot} (h : catalogPrefix <+: slot.key C mk t) :
    slot = .catalog := by
  refine Slot.kind_catalog (Slot.kind_eq_of_take (s := .catalog) ?_)
  obtain ⟨r, hr⟩ := h
  have htake := congrArg (List.take 2) hr
  rw [Slot.key_eq, List.take_append_of_le_length slot.two_le_length_kind] at htake
  exact htake

/-- The catalog lists the tables that exist, each once. -/
theorem Rep.scan_catalog (h : Rep L mk m D) :
    ∃ names : List String, names.Nodup ∧
      (∀ t, t ∈ names ↔ t ∈ L.names ∧ D t .catalog ≠ none) ∧
      m.scanPrefix catalogPrefix =
        names.map fun t => (C.catalogKey mk t, (m[C.catalogKey mk t]?).getD []) := by
  refine scanPrefix_eq_map m (f := C.catalogKey mk) (Q := fun t => t ∈ L.names ∧ D t .catalog ≠ none)
    (fun key hp hne => ?_) (fun t ht => ⟨List.prefix_append _ _, ?_⟩) fun t t' ht ht' heq => ?_
  · obtain ⟨t, ht, slot, hv, rfl⟩ := h.only key (Or.inl hp) hne
    obtain rfl := Slot.catalog_of_isPrefix hp
    exact ⟨t, rfl, ht, (h.ne_none_iff ht hv).mp hne⟩
  · exact (h.ne_none_iff (s := .catalog) ht.1 trivial).mpr ht.2
  · have hkey : Slot.catalog.key C mk t = Slot.catalog.key C mk t' := heq
    have hvalid : Slot.Valid L .catalog := trivial
    exact (Slot.key_injective h.distinct ht.1 ht'.1 hvalid hvalid hkey).1

/-- The snapshot holds a table. -/
structure SnapshotOf (t : String) (T : Table) (snap : TableSnapshot) : Prop where
  name : snap.schema.name = t
  schema : T .catalog = some snap.schema
  fits : SchemaFits snap.schema
  seq : snap.seq = (T .seq).getD 0
  picked : Picked T snap.rows
  all : ∀ id row, T (.row id) = some row → (id, row) ∈ snap.rows

theorem Rep.snapshotTable_of_run (h : Rep L mk m D) (ht : t ∈ L.names) (hwf : Wf L X t (D t))
    {snap : TableSnapshot} (hrun : (snapshotTable C mk t).run m.reader = .ok snap) :
    SnapshotOf t (D t) snap := by
  simp only [snapshotTable, Query.run_bind_eq_ok, Query.run_pure] at hrun
  obtain ⟨s, hs, seq, hseq, rows, hrows, he⟩ := hrun
  obtain ⟨hcatalog, hfits⟩ := h.expectSchema_of_run ht hwf hs
  obtain ⟨es, hp, hall, hscan⟩ := h.run_scanRows ht (hwf.content s hcatalog).fits
  rw [h.run_loadSeq ht] at hseq
  rw [hscan] at hrows
  cases hseq
  cases hrows
  cases he
  rw [map_rowid_keyed]
  exact ⟨(hwf.schema s hcatalog).name, hcatalog, hfits, rfl, hp, hall⟩

/-- A loop that computes what it is given returns the list. -/
theorem eq_of_mapM {ε α : Type} {f : α → Except ε α} {l out : List α} (h : l.mapM f = .ok out)
    (hf : ∀ a ∈ l, ∀ b, f a = .ok b → b = a) : out = l := by
  induction l generalizing out with
  | nil =>
    cases h
    rfl
  | cons a l ih =>
    rw [List.mapM_cons] at h
    obtain ⟨b, hb, h⟩ := bind_eq_ok.mp h
    obtain ⟨rest, hrest, h⟩ := bind_eq_ok.mp h
    cases h
    rw [hf a List.mem_cons_self b hb, ih hrest fun a' ha' => hf a' (List.mem_cons_of_mem _ ha')]

/-- The names a listing of the tables returns. -/
theorem Rep.tables_of_run (h : Rep L mk m D) (hwf : ∀ t ∈ L.names, Wf L X t (D t))
    {names : List String} (hrun : (tables C mk).run m.reader = .ok names) :
    names.Nodup ∧ ∀ t, t ∈ names ↔ t ∈ L.names ∧ D t .catalog ≠ none := by
  obtain ⟨list, hnodup, hmem, hscan⟩ := h.scan_catalog
  have hreader : m.reader.scan catalogPrefix = m.scanPrefix catalogPrefix := rfl
  simp only [tables, Query.run_bind_eq_ok, Query.run_entries, Query.run_mapM, Query.run_ofExcept,
    Query.run_pure, hreader, hscan] at hrun
  obtain ⟨_, ⟨⟩, found, hfound, he⟩ := hrun
  cases he
  rw [List.mapM_map] at hfound
  have hsame : found = list := by
    refine eq_of_mapM hfound fun t ht name hname => ?_
    obtain ⟨hL, hne⟩ := (hmem t).mp ht
    obtain ⟨s, hs⟩ := Option.ne_none_iff_exists'.mp hne
    obtain ⟨sealed, hget, hopen⟩ := h.getElem?_some hL hs
    have hget : m[C.catalogKey mk t]? = some sealed := hget
    have hopen : openValue C (C.deriveKey mk "catalog") sealed (C.catalogKey mk t) =
      .ok (encodeSchema s) := hopen
    simp only [Function.comp_apply, hget, Option.getD_some, hopen, ok_bind] at hname
    obtain ⟨out, hdecode, hout⟩ := bind_eq_ok.mp hname
    cases hout
    have hok := (hwf t hL).schema s hs
    obtain ⟨rfl, -⟩ := decodeSchema_eq_ok hok.nameBytes hok.columnBytes hdecode
    exact hok.name
  subst hsame
  have hperm := List.mergeSort_perm found fun a b => (compare a b).isLE
  exact ⟨hperm.nodup_iff.mpr hnodup, fun t => (hperm.mem_iff).trans (hmem t)⟩

/-- **What a snapshot holds**: every table that exists, once. -/
theorem Rep.snapshot_of_run (h : Rep L mk m D) (hwf : ∀ t ∈ L.names, Wf L X t (D t))
    {snaps : List TableSnapshot} (hrun : (snapshot C mk).run m.reader = .ok snaps) :
    (snaps.map fun snap => snap.schema.name).Nodup ∧
      (∀ snap ∈ snaps, snap.schema.name ∈ L.names ∧
        SnapshotOf snap.schema.name (D snap.schema.name) snap) ∧
      ∀ t ∈ L.names, D t .catalog ≠ none → ∃ snap ∈ snaps, snap.schema.name = t := by
  rw [snapshot, Query.run_bind_eq_ok] at hrun
  obtain ⟨names, hnames, hsnaps⟩ := hrun
  obtain ⟨hnodup, hmem⟩ := h.tables_of_run hwf hnames
  rw [Query.run_mapM] at hsnaps
  have hall : snaps.map (fun snap => snap.schema.name) = names ∧ ∀ snap ∈ snaps,
      snap.schema.name ∈ L.names ∧ SnapshotOf snap.schema.name (D snap.schema.name) snap := by
    have hin : ∀ t ∈ names, t ∈ L.names := fun t ht => ((hmem t).mp ht).1
    clear hnames hnodup hmem
    induction names generalizing snaps with
    | nil =>
      cases hsnaps
      exact ⟨rfl, by simp⟩
    | cons t names ih =>
      rw [List.mapM_cons] at hsnaps
      obtain ⟨snap, hsnap, hsnaps⟩ := bind_eq_ok.mp hsnaps
      obtain ⟨rest, hrest, hsnaps⟩ := bind_eq_ok.mp hsnaps
      cases hsnaps
      have ht : t ∈ L.names := hin t List.mem_cons_self
      obtain ⟨hmap, hok⟩ := ih hrest fun t' ht' => hin t' (List.mem_cons_of_mem _ ht')
      have hof := h.snapshotTable_of_run ht (hwf t ht) hsnap
      refine ⟨by rw [List.map_cons, hmap, hof.name], List.forall_mem_cons.mpr ⟨?_, hok⟩⟩
      rw [hof.name]
      exact ⟨ht, hof⟩
  refine ⟨hall.1 ▸ hnodup, hall.2, fun t ht hne => ?_⟩
  have hmem' : t ∈ snaps.map fun snap => snap.schema.name := hall.1 ▸ (hmem t).mpr ⟨ht, hne⟩
  obtain ⟨snap, hsnap, hname⟩ := List.mem_map.mp hmem'
  exact ⟨snap, hsnap, hname⟩

/-! ## What is written -/

/-- The patches that rebuild a table. -/
def rebuildPatches (snap : TableSnapshot) : List (Patch Slot.Payload) :=
  ⟨.catalog, some snap.schema⟩ :: ⟨.seq, some snap.seq⟩ ::
    (((insertions snap.rows).flatMap fun ch => ⟨.row ch.id, ch.new⟩ ::
      snap.schema.maintainedColumns.flatMap fun col =>
        diffPatches col (cellOf ch.old col) (cellOf ch.new col) ch.id) ++
      snap.schema.rangeIndexedColumns.map fun col =>
        ⟨.range col, some (sortRangeEntries (rangeEntriesOf col snap.rows))⟩)

theorem map_unsealed_rebuildPatches (snap : TableSnapshot) :
    (rebuildPatches snap).map (Patch.unsealed C mk snap.schema.name) = rebuildTable C mk snap := by
  simp only [rebuildPatches, rebuildTable, insertions, List.map_cons, List.map_append,
    List.map_flatMap, List.flatMap_map, newEntries_eq, List.map_map]
  rfl

/-- The rebuilt table. -/
def rebuilt (snap : TableSnapshot) : Table := patchAll (fun _ => none) (rebuildPatches snap)

theorem rowWrites_rebuild {snap : TableSnapshot} (h : SnapshotOf t T snap) :
    RowWrites snap.schema (insertions snap.rows) (fun ch => ⟨.row ch.id, ch.new⟩ ::
      snap.schema.maintainedColumns.flatMap fun col =>
        diffPatches col (cellOf ch.old col) (cellOf ch.new col) ch.id)
      (snap.schema.rangeIndexedColumns.map fun col =>
        ⟨.range col, some (sortRangeEntries (rangeEntriesOf col snap.rows))⟩) where
  nodup := by
    rw [insertions, List.map_map]
    exact h.picked.nodup
  rows ch _ w := by
    rw [Change.patches, List.mem_cons, List.mem_append, List.mem_singleton, or_comm]
  extra w hw := by
    obtain ⟨col, hcol, rfl⟩ := List.mem_map.mp hw
    exact Or.inr ⟨col, hcol, rfl⟩

/-- Schema, sequence and rows of a rebuilt table are those of the old one. -/
structure SameData (T T' : Table) : Prop where
  catalog : T' .catalog = T .catalog
  seq : (T' .seq).getD 0 = (T .seq).getD 0
  row : ∀ id, T' (.row id) = T (.row id)

theorem SameData.live (h : SameData T T') (col : ℕ) : T'.live col = T.live col := by
  funext id
  rw [Table.live, h.row, ← Table.live]

theorem rebuilt_sameData {snap : TableSnapshot} (h : SnapshotOf t T snap) :
    SameData T (rebuilt snap) := by
  have hw := rowWrites_rebuild h
  refine ⟨?_, ?_, fun id => ?_⟩
  · rw [rebuilt, rebuildPatches, patchAll_cons, patchAll_cons, hw.patchAll_catalog, h.schema,
      patch_of_ne (by simp), patch_self]
  · rw [rebuilt, rebuildPatches, patchAll_cons, patchAll_cons, hw.patchAll_extra (Or.inl rfl),
      patchAll_blobs_seq, patch_self, Option.getD_some, h.seq]
  · rw [rebuilt, rebuildPatches, patchAll_cons, patchAll_cons]
    cases hrow : T (.row id) with
    | none =>
      rw [hw.patchAll_otherRow, patch_of_ne (by simp), patch_of_ne (by simp)]
      intro ch hch heq
      obtain ⟨e, he, rfl⟩ := List.mem_map.mp hch
      have hst := h.picked.stored e he
      have heq : e.1 = id := heq
      rw [heq, hrow] at hst
      cases hst
    | some row =>
      have hch : (⟨id, none, some row⟩ : Change) ∈ insertions snap.rows :=
        List.mem_map.mpr ⟨(id, row), h.all id row hrow, rfl⟩
      exact hw.patchAll_row hch

/-- The entries of a rebuilt table are the graphs of its maintained columns. -/
theorem rebuilt_entry {snap : TableSnapshot} (h : SnapshotOf t T snap)
    (hok : ∀ e ∈ snap.rows, RowOk L snap.schema e.2) (hsch : SchemaOk t snap.schema) (col : ℕ)
    (v : Value) (id : UInt64) :
    rebuilt snap (.entry col v id) ≠ none ↔
      col ∈ snap.schema.maintainedColumns ∧ T.live col id = some v := by
  have hw := rowWrites_rebuild h
  rw [rebuilt, rebuildPatches, patchAll_cons, patchAll_cons]
  by_cases hcol : col ∈ snap.schema.maintainedColumns
  · rcases RowChanges.id_cases (insertions snap.rows) id with ⟨ch, hch, rfl⟩ | hid
    · rw [hw.patchAll_entry_ok (rowsOk_insertions hok) hsch ch hch col hcol v,
        patch_of_ne (by simp), patch_of_ne (by simp)]
      obtain ⟨e, he, rfl⟩ := List.mem_map.mp hch
      have hlive : T.live col e.1 = (e.2.cell col).present :=
        Table.live_of_row (h.picked.stored e he) col
      have hcell : cellOf (some e.2) col = e.2.cell col := rfl
      have hnull : cellOf none col = .null := rfl
      rw [hlive, Value.present_eq_some, movedEntry, hcell, hnull, Value.beq_null_left]
      cases hn : (e.2.cell col).isNull with
      | true =>
        rw [Value.isNull_iff] at hn
        have hv : ¬ (Value.null = v ∧ v ≠ .null) := fun hx => hx.2 hx.1.symm
        simpa [hn, hcol] using hv
      | false =>
        have hne : e.2.cell col ≠ .null := by
          rw [Ne, ← Value.isNull_iff, hn]
          exact Bool.false_ne_true
        by_cases hv : v = e.2.cell col
        · subst hv
          simp [hne, hcol]
        · simp [hv, Ne.symm hv]
    · rw [hw.patchAll_otherEntry (Or.inl hid), patch_of_ne (by simp), patch_of_ne (by simp)]
      have hrow : T (.row id) = none := by
        by_contra hne
        obtain ⟨row, hrow⟩ := Option.ne_none_iff_exists'.mp hne
        exact hid ⟨id, none, some row⟩ (List.mem_map.mpr ⟨(id, row), h.all id row hrow, rfl⟩) rfl
      rw [Table.live_of_none hrow]
      simp
  · rw [hw.patchAll_otherEntry (Or.inr hcol), patch_of_ne (by simp), patch_of_ne (by simp)]
    simp [hcol]

theorem rebuilt_range {snap : TableSnapshot} (h : SnapshotOf t T snap) (col : ℕ) :
    rebuilt snap (.range col) = if col ∈ snap.schema.rangeIndexedColumns then
      some (sortRangeEntries (rangeEntriesOf col snap.rows)) else none := by
  rw [rebuilt, rebuildPatches, patchAll_cons, patchAll_cons,
    (rowWrites_rebuild h).patchAll_extra (Or.inr ⟨col, rfl⟩), patchAll_blobs,
    patch_of_ne (by simp), patch_of_ne (by simp)]

/-- **A rebuilt table is well formed.** -/
theorem rebuilt_wf {snap : TableSnapshot} (h : SnapshotOf t T snap) (hwf : Wf L X t T) :
    Wf L X t (rebuilt snap) := by
  have hsch := hwf.schema _ h.schema
  have hT := hwf.content _ h.schema
  have hok : ∀ e ∈ snap.rows, RowOk L snap.schema e.2 :=
    fun e he => hT.rows e.1 e.2 (h.picked.stored e he)
  have hsame := rebuilt_sameData h
  have hentry := rebuilt_entry h hok hsch
  have hrange := rebuilt_range h
  have hcatalog : rebuilt snap .catalog = some snap.schema := hsame.catalog.trans h.schema
  refine ⟨fun hn => ?_, fun s hs => ?_, fun s hs => ?_⟩
  · rw [hcatalog] at hn
    cases hn
  · rw [hcatalog] at hs
    cases hs
    exact hsch
  · rw [hcatalog] at hs
    cases hs
    refine ⟨fun id row hrow => ?_, fun id row hrow => ?_, fun col c hc => ?_, fun col hc => ?_⟩
    · rw [hsame.row] at hrow
      exact hT.rows id row hrow
    · rw [hsame.row] at hrow
      rw [hsame.seq]
      exact hT.below id row hrow
    · have hcol := hT.columns col c hc
      have hmem : ∀ p, col ∈ snap.schema.columnsWhere p ↔ p c = true := by
        intro p
        rw [TableSchema.mem_columnsWhere, hc]
        simp
      have hbuilt : ∀ es, rebuilt snap (.range col) = some es → c.rangeIndexed = true ∧
          es = sortRangeEntries (rangeEntriesOf col snap.rows) := by
        intro es hes
        rw [hrange] at hes
        split at hes
        · rename_i hin
          cases hes
          exact ⟨(hmem _).mp hin, rfl⟩
        · cases hes
      have htracks : c.rangeIndexed = true → _ := fun hr =>
        tracks_rangeEntriesOf hT h.picked h.all hc (hsch.notVector_range hc hr)
      refine ⟨fun v id hne => ?_, fun hm hX v id => ?_, fun hk id hne => ?_, fun hk hX => ?_, ?_,
        fun es hes => ?_, fun es hes => ?_⟩
      · exact (hmem _).mp ((hentry col v id).mp hne).1
      · rw [hentry, hsame.live]
        exact ⟨fun hx => hx.2, fun hx => ⟨(hmem _).mpr hm, hx⟩⟩
      · rw [hsame.row] at hne
        rw [hsame.live]
        exact hcol.required hk id hne
      · rw [hsame.live]
        exact hcol.unique hk hX
      · have hmem : col ∈ snap.schema.rangeIndexedColumns ↔ c.rangeIndexed = true := hmem _
        rw [hrange, ← hmem]
        split <;> simp_all
      · obtain ⟨hr, rfl⟩ := hbuilt es hes
        rw [hsame.live]
        exact htracks hr
      · -- the rebuilt index has as many entries as the one it replaces
        obtain ⟨hr, rfl⟩ := hbuilt es hes
        obtain ⟨old, hold⟩ := Option.ne_none_iff_exists'.mp (hcol.ranges.mpr hr)
        rw [(htracks hr).1.length_eq (hcol.tracked old hold).1]
        exact hcol.room old hold
    · have hnot : ∀ p, col ∉ snap.schema.columnsWhere p := by
        intro p hin
        obtain ⟨c, hc', -⟩ := TableSchema.mem_columnsWhere.mp hin
        rw [hc] at hc'
        cases hc'
      refine ⟨fun v id => ?_, ?_⟩
      · by_contra hne
        exact hnot _ ((hentry col v id).mp hne).1
      · have hnot : col ∉ snap.schema.rangeIndexedColumns := hnot _
        rw [hrange, if_neg hnot]

theorem rebuildPatches_valid {snap : TableSnapshot} (h : SnapshotOf t T snap) (hwf : Wf L X t T) :
    ∀ w ∈ rebuildPatches snap, w.slot.Valid L := by
  intro w hw
  rcases List.mem_cons.mp hw with rfl | hw
  · trivial
  · rcases List.mem_cons.mp hw with rfl | hw
    · trivial
    · exact (rowWrites_rebuild h).valid h.fits (rowsOk_insertions fun e he =>
        (hwf.content _ h.schema).rows e.1 e.2 (h.picked.stored e he)) w hw

/-! ## The rebuilt database -/

/-- The tables of a snapshot. -/
def rebuiltTables (snaps : List TableSnapshot) (D : String → Table) : String → Table :=
  snaps.foldl (fun D snap => Function.update D snap.schema.name (rebuilt snap)) D

theorem rebuiltTables_of_notMem {snaps : List TableSnapshot}
    (h : ∀ snap ∈ snaps, snap.schema.name ≠ t) (D : String → Table) :
    rebuiltTables snaps D t = D t := by
  induction snaps generalizing D with
  | nil => rfl
  | cons snap snaps ih =>
    rw [rebuiltTables, List.foldl_cons, ← rebuiltTables,
      ih fun snap' hsnap' => h snap' (List.mem_cons_of_mem _ hsnap'),
      Function.update_of_ne (h snap List.mem_cons_self).symm]

theorem rebuiltTables_of_mem {snaps : List TableSnapshot}
    (hn : (snaps.map fun snap => snap.schema.name).Nodup) {snap : TableSnapshot}
    (hsnap : snap ∈ snaps) (D : String → Table) :
    rebuiltTables snaps D snap.schema.name = rebuilt snap := by
  induction snaps generalizing D with
  | nil => cases hsnap
  | cons snap' snaps ih =>
    rw [List.map_cons, List.nodup_cons] at hn
    rw [rebuiltTables, List.foldl_cons, ← rebuiltTables]
    rcases List.mem_cons.mp hsnap with rfl | hsnap
    · rw [rebuiltTables_of_notMem, Function.update_self]
      intro snap' hsnap' heq
      exact hn.1 (List.mem_map.mpr ⟨snap', hsnap', heq⟩)
    · exact ih hn.2 hsnap _

/-- Writing the rebuilt tables, one batch for each. -/
theorem Rep.rebuild (snaps : List (TableSnapshot × ℕ)) (nonces : ℕ → ℕ → C.Nonce)
    (hn : (snaps.map fun e => e.1.schema.name).Nodup)
    (hsnaps : ∀ e ∈ snaps, e.1.schema.name ∈ L.names ∧ ∀ w ∈ rebuildPatches e.1, w.slot.Valid L)
    (hempty : ∀ e ∈ snaps, D e.1.schema.name = fun _ => none) (h : Rep L mk m D) :
    Rep L mk (Storage.applyLog m (snaps.map fun e =>
      C.sealWrites (nonces e.2) (rebuildTable C mk e.1)))
      (rebuiltTables (snaps.map Prod.fst) D) := by
  induction snaps generalizing m D with
  | nil => exact h
  | cons e snaps ih =>
    rw [List.map_cons, List.nodup_cons] at hn
    obtain ⟨hname, hvalid⟩ := hsnaps e List.mem_cons_self
    have hstep := h.patchAll hname hvalid (nonces e.2)
    rw [map_unsealed_rebuildPatches, hempty e List.mem_cons_self] at hstep
    refine ih hn.2 (fun e' he' => hsnaps e' (List.mem_cons_of_mem _ he')) (fun e' he' => ?_) hstep
    change Function.update D e.1.schema.name (rebuilt e.1) e'.1.schema.name = _
    rw [Function.update_of_ne, hempty e' (List.mem_cons_of_mem _ he')]
    intro heq
    exact hn.1 (List.mem_map.mpr ⟨e', he', heq⟩)

/-- An empty database stores empty tables. -/
theorem rep_fresh (hL : L.Distinct mk) (passphrase : String) (kdf : KdfParams)
    (env : Engine.OpenEnv C) :
    Rep L mk (Storage.applyLog ∅ (Engine.freshBatches passphrase kdf env)) fun _ _ => none := by
  have hnone : ∀ key, DataKey key →
      (Storage.applyLog ∅ (Engine.freshBatches passphrase kdf env))[key]? = none := by
    intro key hk
    rw [getElem?_freshBatches, if_neg, if_neg]
    · rintro rfl
      exact not_dataKey_keyparamsKey hk
    · rintro rfl
      exact not_dataKey_canaryKey hk
  exact ⟨hL, fun t _ s _ => hnone _ (s.dataKey_key t), fun t _ s hne => absurd rfl hne,
    fun key hk hne => absurd (hnone key hk) hne⟩

/-- Writes under the keys of the audit chain do not touch the tables. -/
theorem Rep.audit (h : Rep L mk m D) {ws : List (Unsealed C)} (nonces : ℕ → C.Nonce)
    (hws : ∀ w ∈ ws, ¬ DataKey w.key) : Rep L mk (applyAll m (C.sealWrites nonces ws)) D := by
  refine h.congr fun key hk => getElem?_applyAll_of_notMem _ _ _ fun op hop heq => ?_
  obtain ⟨w, hw, hkey⟩ := mem_sealWrites hop
  exact hws w hw (hkey ▸ heq ▸ hk)

theorem not_dataKey_auditWrites (mk : C.MasterKey) (entry : AuditEntry) :
    ∀ w ∈ C.auditWrites mk entry, ¬ DataKey w.key := by
  intro w hw
  simp only [Crypto.auditWrites, List.mem_cons, List.not_mem_nil, or_false] at hw
  rcases hw with rfl | rfl
  · exact not_dataKey_of_auditPrefix (auditPrefix_auditKey _)
  · exact not_dataKey_auditHeadKey

/-- **What a rotation stores**: the rebuilt tables, under the new master key. -/
theorem Rep.rotation (h : Rep L mk m D) (hwf : ∀ t ∈ L.names, Wf L X t (D t)) {e : Engine C}
    {env : Engine.RotateEnv C} {passphrase : String} {kdf : KdfParams}
    (hL : L.Distinct (C.derive kdf passphrase env.openEnv.salt.1)) {snaps : List TableSnapshot}
    {audit : List (Unsealed C)} (hsnaps : (snapshot C mk).run m.reader = .ok snaps)
    (haudit : ∀ w ∈ audit, auditPrefix <+: w.key) :
    Rep L (C.derive kdf passphrase env.openEnv.salt.1)
      (Storage.applyLog ∅ (e.rotationBatches env passphrase kdf snaps audit))
      (rebuiltTables snaps fun _ _ => none) := by
  obtain ⟨hn, hof, -⟩ := h.snapshot_of_run hwf hsnaps
  have hfst : snaps.zipIdx.map Prod.fst = snaps := by simp
  have hmem : ∀ x ∈ snaps.zipIdx, x.1 ∈ snaps := by
    intro x hx
    rw [← hfst]
    exact List.mem_map_of_mem hx
  have htables := (rep_fresh hL passphrase kdf env.openEnv).rebuild snaps.zipIdx env.nonces (by
      have : snaps.zipIdx.map (fun x => x.1.schema.name) =
          (snaps.zipIdx.map Prod.fst).map fun snap => snap.schema.name := by
        rw [List.map_map]
        rfl
      rw [this, hfst]
      exact hn) (fun x hx => by
        obtain ⟨hname, hsnap⟩ := hof x.1 (hmem x hx)
        exact ⟨hname, rebuildPatches_valid hsnap (hwf _ hname)⟩) (fun _ _ => rfl)
  rw [hfst] at htables
  have h₁ := htables.audit (env.nonces snaps.length) fun w hw =>
    not_dataKey_of_auditPrefix (haudit w hw)
  have h₂ := h₁.audit (fun n => env.nonces (snaps.length + 1) (0 + n))
    (not_dataKey_auditWrites (C.derive kdf passphrase env.openEnv.salt.1) (e.rotateEntry env))
  rw [Engine.rotationBatches, Storage.applyLog_append, Storage.applyLog_append]
  exact h₂

/-- The tables after a rotation are well formed and hold the same data. -/
theorem Rep.rebuiltTables_wf (h : Rep L mk m D) (hwf : ∀ t ∈ L.names, Wf L X t (D t))
    {snaps : List TableSnapshot} (hsnaps : (snapshot C mk).run m.reader = .ok snaps) :
    ∀ t ∈ L.names, Wf L X t (rebuiltTables snaps (fun _ _ => none) t) ∧
      SameData (D t) (rebuiltTables snaps (fun _ _ => none) t) := by
  intro t ht
  obtain ⟨hn, hof, hall⟩ := h.snapshot_of_run hwf hsnaps
  by_cases hcatalog : D t .catalog = none
  · have hempty := Table.eq_none_of_catalog (hwf t ht) hcatalog
    rw [rebuiltTables_of_notMem, hempty]
    · exact ⟨wf_empty L X t, ⟨rfl, rfl, fun _ => rfl⟩⟩
    · rintro snap hsnap rfl
      rw [(hof snap hsnap).2.schema] at hcatalog
      cases hcatalog
  · obtain ⟨snap, hsnap, rfl⟩ := hall t ht hcatalog
    rw [rebuiltTables_of_mem hn hsnap]
    have hsnap := (hof snap hsnap).2
    exact ⟨rebuilt_wf hsnap (hwf _ ht), rebuilt_sameData hsnap⟩

end Ciphra
