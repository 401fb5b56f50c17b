import Ciphra.Engine.Relational

/-!
# The engine refines the relational reading

Every run of the engine, with its sealed slots, indexes, log and transactions, is a run of the
relational machine: what is observed of it are moves of that machine, the log holds the committed
database, and what the engine reads shows the visible one (`refines`). So an `INSERT` adds exactly
its rows under fresh ids, an `UPDATE` and a `DELETE` touch exactly the selected rows, no statement
touches another table, an open transaction leaves the committed database alone until it commits, and
rotations and reopens lose nothing that was committed.
-/

namespace Ciphra

open OrdMap

variable {C : Crypto} {L : Lexicon} {mk : C.MasterKey} {m : ByteMap} {D : String → Table}
  {t : String} {T T' : Table} {s : TableSchema}

/-! ## Tables as relations -/

/-- The rows of a table and its next id, under a schema. -/
def Table.under (T : Table) (s : TableSchema) : Relational.Relation :=
  ⟨s, fun id => T (.row id), (T .seq).getD 0⟩

/-- What the slots of a table say, without its indexes. -/
def Table.relation (T : Table) : Option Relational.Relation :=
  (T .catalog).map T.under

theorem Table.relation_of_catalog (h : T .catalog = some s) : T.relation = some (T.under s) := by
  rw [Table.relation, h, Option.map_some]

theorem SameData.relation (h : SameData T T') : T'.relation = T.relation := by
  have hunder : T'.under = T.under := by
    funext s
    simp only [Table.under, h.seq, h.row]
  rw [Table.relation, h.catalog, hunder, Table.relation]

/-- Every column is exact: the index entries are the graph of the column. -/
abbrev exactly : Exactness := fun _ _ => True

theorem Wf.keyed (h : Wf L exactly t T) {R : Relational.Relation} (hR : T.relation = some R) :
    R.Keyed := by
  obtain ⟨s, hs, rfl⟩ := Option.map_eq_some_iff.mp hR
  intro col c hc hkey
  have hcol := (h.content s hs).columns col c hc
  have hgiven : ∀ id row, T (.row id) = some row → row.cell col ≠ .null := by
    intro id row hrow hnull
    refine hcol.required hkey id (by rw [hrow]; exact Option.some_ne_none row) ?_
    rw [Table.live_of_row hrow, hnull]
    rfl
  refine ⟨hgiven, fun id id' row row' hrow hrow' heq => ?_⟩
  refine hcol.unique hkey trivial id id' (row.cell col) ?_ ?_
  · rw [Table.live_of_row hrow, Value.present_of_ne (hgiven id row hrow)]
  · rw [Table.live_of_row hrow', heq, Value.present_of_ne (hgiven id' row' hrow')]

theorem Wf.below (h : Wf L exactly t T) {R : Relational.Relation} (hR : T.relation = some R) :
    R.Below := by
  obtain ⟨s, hs, rfl⟩ := Option.map_eq_some_iff.mp hR
  exact (h.content s hs).below

/-! ## Statements -/

/-- Among the stored rows, those that an access path leads to and that match are those selected. -/
theorem selects_iff (hc : Content L exactly s T) {filter : Option CompiledExpr} {id : UInt64}
    {row : Row} (hrow : T (.row id) = some row) :
    (Candidate T s filter id ∧ filterMatches filter row = .ok true) ↔
      Relational.Selects s filter row := by
  cases filter with
  | none => exact ⟨fun h => ⟨h.2, nofun⟩, fun h => ⟨trivial, h.1⟩⟩
  | some f =>
    have hiff : (∀ f' ∈ some f, PathTyped f' s) ↔ PathTyped f s := by simp
    rw [Relational.Selects, hiff]
    constructor
    · rintro ⟨hcand, hmatch⟩
      refine ⟨hmatch, ?_⟩
      by_contra hmis
      exact not_candidate_of_mistyped hc hmis id hcand
    · rintro ⟨hmatch, htyped⟩
      exact ⟨candidate_of_matches hc htyped hrow hmatch, hmatch⟩

section Targets

variable {predicate : Option Expr} {filter : Option CompiledExpr} {es : List (UInt64 × Row)}

theorem Targets.mem_iff (h : Targets T s predicate filter es) (hc : Content L exactly s T)
    {id : UInt64} {row : Row} :
    (id, row) ∈ es ↔ T (.row id) = some row ∧ Relational.Selects s filter row := by
  rw [h.mem]
  exact and_congr_right fun hrow => selects_iff hc hrow

theorem Targets.length_eq (h : Targets T s predicate filter es) (hc : Content L exactly s T)
    {R : Relational.Relation} (hR : R.rows = fun id => T (.row id)) :
    es.length = R.count (Relational.Selects s filter) := by
  have hset : {id | ∃ row, R.rows id = some row ∧ Relational.Selects s filter row} =
      ((es.map Prod.fst).toFinset : Set UInt64) := by
    ext id
    simp only [Set.mem_ofPred_eq, hR, List.coe_toFinset, List.mem_map]
    constructor
    · rintro ⟨row, hrow⟩
      exact ⟨(id, row), (h.mem_iff hc).mpr hrow, rfl⟩
    · rintro ⟨⟨id', row⟩, hmem, rfl⟩
      exact ⟨row, (h.mem_iff hc).mp hmem⟩
  rw [Relational.Relation.count, hset, Set.ncard_coe_finset,
    List.toFinset_card_of_nodup h.picked.nodup, List.length_map]

end Targets

/-- Row changes, read off the rows. -/
theorem RowChanges.relation {X : Exactness} {changes : List Change}
    (h : RowChanges L X s changes T T') (hs : T .catalog = some s) {R : Relational.Relation}
    (hschema : R.schema = s) (hseq : (T' .seq).getD 0 = R.next)
    (hnew : ∀ ch ∈ changes, R.rows ch.id = ch.new)
    (hother : ∀ id, (∀ ch ∈ changes, ch.id ≠ id) → R.rows id = T (.row id)) :
    T'.relation = some R := by
  have hrows : (fun id => T' (.row id)) = R.rows := by
    funext id
    rcases RowChanges.id_cases changes id with ⟨ch, hch, rfl⟩ | hid
    · rw [h.new ch hch, hnew ch hch]
    · rw [h.otherRow id hid, hother id hid]
  rw [Table.relation_of_catalog (h.catalog.trans hs), Table.under, hrows, hseq, ← hschema]

theorem relation_insert {X : Exactness} {batch : List Row} (hc : Content L X s T)
    (hs : T .catalog = some s) (hlen : ((T .seq).getD 0).toNat + batch.length < 2 ^ 64)
    (h : RowChanges L X s (insertions (numberRows batch ((T .seq).getD 0))) T T')
    (hseq : T' .seq = some ((T .seq).getD 0 + UInt64.ofNat batch.length)) :
    T'.relation = some ((T.under s).insert batch) := by
  refine h.relation hs rfl (by rw [hseq]; rfl) (fun ch hch => ?_) fun id hid => ?_
  · obtain ⟨⟨id, row⟩, he, rfl⟩ := List.mem_map.mp hch
    obtain ⟨hle, hrow⟩ := (mem_numberRows batch hlen).mp he
    simp only [Relational.Relation.insert, Table.under, UInt64.le_iff_toNat_le, hle, if_true, hrow]
  · change (if (T.under s).next ≤ id then batch[id.toNat - (T.under s).next.toNat]?
      else T (.row id)) = T (.row id)
    split
    · rename_i hle
      cases hrow : batch[id.toNat - ((T .seq).getD 0).toNat]? with
      | some row =>
        have he := (mem_numberRows batch hlen).mpr ⟨UInt64.le_iff_toNat_le.mp hle, hrow⟩
        exact absurd rfl (hid _ (List.mem_map_of_mem he))
      | none =>
        cases hrow' : T (.row id) with
        | none => exact hrow
        | some row => exact absurd (hc.below id row hrow') (UInt64.not_lt.mpr hle)
    · rfl

section Targets

variable {predicate : Option Expr} {filter : Option CompiledExpr} {es : List (UInt64 × Row)}

theorem relation_update (hc : Content L exactly s T) (hs : T .catalog = some s)
    (ht : Targets T s predicate filter es) {resolved : List (ℕ × Value)}
    (h : RowChanges L exactly s (assignments resolved es) T T') (hseq : T' .seq = T .seq) :
    T'.relation =
      some ((T.under s).update (Relational.Selects s filter) (assignRow resolved)) := by
  refine h.relation hs rfl (by rw [hseq]; rfl) (fun ch hch => ?_) fun id hid => ?_
  · obtain ⟨⟨id, row⟩, he, rfl⟩ := List.mem_map.mp hch
    obtain ⟨hrow, hsel⟩ := (ht.mem_iff hc).mp he
    simp only [Relational.Relation.update, Table.under, hrow, Option.map_some, hsel, if_true]
  · simp only [Relational.Relation.update, Table.under]
    cases hrow : T (.row id) with
    | none => rfl
    | some row =>
      rw [Option.map_some, if_neg]
      intro hsel
      exact hid _ (List.mem_map_of_mem ((ht.mem_iff hc).mpr ⟨hrow, hsel⟩)) rfl

theorem relation_delete (hc : Content L exactly s T) (hs : T .catalog = some s)
    (ht : Targets T s predicate filter es) (h : RowChanges L exactly s (deletions es) T T')
    (hseq : T' .seq = T .seq) :
    T'.relation = some ((T.under s).delete (Relational.Selects s filter)) := by
  refine h.relation hs rfl (by rw [hseq]; rfl) (fun ch hch => ?_) fun id hid => ?_
  · obtain ⟨⟨id, row⟩, he, rfl⟩ := List.mem_map.mp hch
    obtain ⟨hrow, hsel⟩ := (ht.mem_iff hc).mp he
    simp [Relational.Relation.delete, Table.under, hrow, hsel]
  · simp only [Relational.Relation.delete, Table.under]
    cases hrow : T (.row id) with
    | none => rfl
    | some row =>
      have hnot : ¬ Relational.Selects s filter row := fun hsel =>
        hid _ (List.mem_map_of_mem ((ht.mem_iff hc).mpr ⟨hrow, hsel⟩)) rfl
      simp [hnot]

end Targets

theorem Reflagged.relation {col : ℕ} {g : ColumnDef → ColumnDef} (h : Reflagged s col g T T') :
    T'.relation = some (T.under (s.modifyColumn col g)) := by
  simp only [Table.relation_of_catalog h.catalog, Table.under, h.row, h.seq]

/-- **What a statement that writes does to the tables.** -/
theorem statement_effect (h : Rep L mk m D) (hwf : ∀ t ∈ L.names, Wf L exactly t (D t))
    {db : Relational.Database} (hdb : ∀ t ∈ L.names, db t = (D t).relation) {st : Statement}
    (hst : st.Regular L mk m.reader) (hk : KeepsZeros exactly mk m.reader st)
    {q : Read (Plan C)} (hp : program C mk st = .mutate q) {plan : Plan C}
    (hrun : q.run m.reader = .ok plan) :
    ∃ t ∈ L.names, ∃ ws, plan.writes = ws.map (Patch.unsealed C mk t) ∧
      (∀ w ∈ ws, w.slot.Valid L) ∧ Wf L exactly t (patchAll (D t) ws) ∧
      Relational.Effect db st plan.result
        (Function.update db t (Table.relation (patchAll (D t) ws))) := by
  cases st with
  | createTable name columns =>
    cases hp
    have ht := hst.within.table name rfl
    obtain ⟨ws, hwrites, hvalid, hwf', hnone, hcatalog, hother, hresult⟩ := createTable_wf h ht
      (hwf name ht) (hst.parsed.table name rfl) hst.parsed.declared hrun
    refine ⟨name, ht, ws, hwrites, hvalid, hwf', ?_⟩
    have hrel : Table.relation (patchAll (D name) ws) =
        some (Relational.Relation.new ⟨name, columns⟩) := by
      have hrows : (fun id => patchAll (D name) ws (.row id)) = fun _ => none := by
        funext id
        exact hother _ (by simp)
      rw [Table.relation_of_catalog hcatalog, Table.under, hrows, hother .seq (by simp)]
      rfl
    rw [hresult, hrel]
    exact .createTable name columns (by rw [hdb name ht, Table.relation, hnone, Option.map_none])
  | dropTable name =>
    cases hp
    have ht := hst.within.table name rfl
    obtain ⟨ws, hwrites, hvalid, hnone, hcatalog, hresult⟩ := dropTable_wf h ht (hwf name ht) hrun
    refine ⟨name, ht, ws, hwrites, hvalid, by rw [hnone]; exact wf_empty L exactly name, ?_⟩
    obtain ⟨s, hs⟩ := Option.ne_none_iff_exists'.mp hcatalog
    rw [hresult, hnone]
    exact .dropTable name _ (by rw [hdb name ht, Table.relation_of_catalog hs])
  | createIndex table column range =>
    have ht := hst.within.table table rfl
    cases range with
    | false =>
      cases hp
      obtain ⟨ws, hwrites, hvalid, hwf', s, col, hcol, hflags, hresult⟩ :=
        createIndex_wf h ht (hwf table ht) hrun
      refine ⟨table, ht, ws, hwrites, hvalid, hwf', ?_⟩
      rw [hresult, hflags.relation]
      exact .createIndex table column false ((D table).under s) col
        (by rw [hdb table ht, Table.relation_of_catalog hflags.old]) hcol
    | true =>
      cases hp
      obtain ⟨ws, hwrites, hvalid, hwf', s, col, hcol, hflags, hresult⟩ :=
        createRangeIndex_wf h ht (hwf table ht) hrun
      refine ⟨table, ht, ws, hwrites, hvalid, hwf', ?_⟩
      rw [hresult, hflags.relation]
      exact .createIndex table column true ((D table).under s) col
        (by rw [hdb table ht, Table.relation_of_catalog hflags.old]) hcol
  | dropIndex table column range =>
    have ht := hst.within.table table rfl
    cases range with
    | false =>
      cases hp
      obtain ⟨ws, hwrites, hvalid, hwf', s, col, hcol, hflags, hresult⟩ :=
        dropIndex_wf h ht (hwf table ht) hrun
      refine ⟨table, ht, ws, hwrites, hvalid, hwf', ?_⟩
      rw [hresult, hflags.relation]
      exact .dropIndex table column false ((D table).under s) col
        (by rw [hdb table ht, Table.relation_of_catalog hflags.old]) hcol
    | true =>
      cases hp
      obtain ⟨ws, hwrites, hvalid, hwf', s, col, hcol, hflags, hresult⟩ :=
        dropRangeIndex_wf h ht (hwf table ht) hrun
      refine ⟨table, ht, ws, hwrites, hvalid, hwf', ?_⟩
      rw [hresult, hflags.relation]
      exact .dropIndex table column true ((D table).under s) col
        (by rw [hdb table ht, Table.relation_of_catalog hflags.old]) hcol
  | insert table columns rows =>
    cases hp
    have ht := hst.within.table table rfl
    have hids := hst.ids _ (h.run_loadSeq ht)
    obtain ⟨s, ws, positions, batch, hs, hwrites, hvalid, hch, hseq, hpos, hfilled, hresult⟩ :=
      insert_changes h ht (hwf table ht) (hst.literalsOk fun l hl => hl) hids hrun
    have hwf' := hch.wf (hwf table ht) hs
    rw [hfilled.length_eq] at hids
    have hrel := relation_insert ((hwf table ht).content s hs) hs hids hch hseq
    refine ⟨table, ht, ws, hwrites, hvalid, hwf', ?_⟩
    rw [hresult, ← hfilled.length_eq, hrel]
    exact .insert table columns rows ((D table).under s) positions batch
      (by rw [hdb table ht, Table.relation_of_catalog hs]) hpos hfilled (hwf'.keyed hrel)
  | update table targets predicate =>
    cases hp
    have ht := hst.within.table table rfl
    obtain ⟨s', hs', -⟩ := Query.run_bind_eq_ok.mp hrun
    obtain ⟨s, ws, filter, resolved, es, hs, hwrites, hvalid, hch, hseq, htargets, hresolved,
        hresult⟩ := update_changes h ht (hwf table ht)
      (fun l hl => hst.within.literals l (List.mem_append_right _ hl))
      (hst.literalsOk fun l hl => List.mem_append_left _ hl) (hk.exact h ht (hwf table ht) hs') hrun
    have hT := (hwf table ht).content s hs
    have hwf' := hch.wf (hwf table ht) hs
    have hrel := relation_update hT hs htargets hch hseq
    refine ⟨table, ht, ws, hwrites, hvalid, hwf', ?_⟩
    rw [hresult, htargets.length_eq hT (R := (D table).under s) rfl, hrel]
    exact .update table targets predicate ((D table).under s) filter resolved
      (by rw [hdb table ht, Table.relation_of_catalog hs]) htargets.compiled hresolved
      (hwf'.keyed hrel)
  | delete table predicate =>
    cases hp
    have ht := hst.within.table table rfl
    obtain ⟨s, ws, filter, es, hs, hwrites, hvalid, hch, hseq, htargets, hresult⟩ :=
      delete_changes h ht (hwf table ht) hst.within.literals hrun
    have hT := (hwf table ht).content s hs
    have hrel := relation_delete hT hs htargets hch hseq
    refine ⟨table, ht, ws, hwrites, hvalid, hch.wf (hwf table ht) hs, ?_⟩
    rw [hresult, htargets.length_eq hT (R := (D table).under s) rfl, hrel]
    exact .delete table predicate ((D table).under s) filter
      (by rw [hdb table ht, Table.relation_of_catalog hs]) htargets.compiled
  | select | explain | begin | commit | rollback => cases hp

/-- A query, apart from the rows it selects, is a function of them. -/
theorem run_selectQuery_eq_ok {P : Platform} {projection : Projection} {predicate : Option Expr}
    {groupBy : List String} {having : Option HavingExpr} {orderBy : Option OrderBy}
    {limit : Option Limit} {r : Reader Bytes Bytes} {columns : List String} {out : List Row}
    (h : (selectQuery C mk P.floats P.cosine t projection predicate groupBy having orderBy
      limit).run r = .ok (columns, out)) :
    ∃ s filter rows, (expectSchema C mk t).run r = .ok s ∧
      predicate.mapM (compileExpr s) = .ok filter ∧
      (matchingRows C mk t s filter).run r = .ok rows ∧
      Relational.output P s t projection groupBy having orderBy limit (rows.map Prod.snd) =
        .ok (columns, out) := by
  rw [selectQuery] at h
  obtain ⟨s, hs, h⟩ := Query.run_bind_eq_ok.mp h
  obtain ⟨filter, hfilter, h⟩ := Query.run_bind_eq_ok.mp h
  rw [Query.run_ofExcept] at hfilter
  cases projection with
  | all | columns =>
    obtain ⟨output, houtput, h⟩ := Query.run_bind_eq_ok.mp h
    obtain ⟨order, horder, h⟩ := Query.run_bind_eq_ok.mp h
    obtain ⟨rows, hrows, h⟩ := Query.run_bind_eq_ok.mp h
    obtain ⟨sorted, hsorted, h⟩ := Query.run_bind_eq_ok.mp h
    rw [Query.run_ofExcept] at houtput horder hsorted
    refine ⟨s, filter, rows, hs, hfilter, hrows, ?_⟩
    simp only [Relational.output, houtput, horder, hsorted, ok_bind]
    exact h
  | items items =>
    obtain ⟨_, -, h⟩ := Query.run_bind_eq_ok.mp h
    obtain ⟨rows, hrows, h⟩ := Query.run_bind_eq_ok.mp h
    rw [Query.run_ofExcept] at h
    exact ⟨s, filter, rows, hs, hfilter, hrows, h⟩

theorem Statement.table_of_explained {st : Statement} {action : String} {predicate : Option Expr}
    {orderBy : Option OrderBy} {limit : Option Limit}
    (h : st.explained = some (action, t, predicate, orderBy, limit)) : st.table = some t := by
  cases st <;> cases h <;> rfl

/-- **What a query returns.** -/
theorem query_answers (h : Rep L mk m D) (hwf : ∀ t ∈ L.names, Wf L exactly t (D t))
    {db : Relational.Database} (hdb : ∀ t ∈ L.names, db t = (D t).relation) {st : Statement}
    (hst : st.Within L) {q : Platform → Read QueryResult} (hp : program C mk st = .query q)
    (P : Platform) {r : QueryResult} (hrun : (q P).run m.reader = .ok r) :
    Relational.Answers P db st r := by
  cases st with
  | select projection table predicate groupBy having orderBy limit =>
    cases hp
    have ht := hst.table table rfl
    obtain ⟨⟨columns, out⟩, hquery, hresult⟩ := Query.run_bind_eq_ok.mp hrun
    obtain rfl := Except.ok.inj hresult
    obtain ⟨s, filter, rows, hs, hfilter, hrows, hout⟩ := run_selectQuery_eq_ok hquery
    obtain ⟨hcatalog, hfits⟩ := h.expectSchema_of_run ht (hwf table ht) hs
    have hT := (hwf table ht).content s hcatalog
    obtain ⟨es, hpicked, hes, rfl⟩ :=
      h.matchingRows_of_run ht hT hfits (filterKnown_compiled hfilter hst.literals) hrows
    have hvalues : (keyed C mk table es).map Prod.snd = es.map Prod.snd := by
      rw [keyed, List.map_map]
      rfl
    rw [hvalues] at hout
    refine .select projection table predicate groupBy having orderBy limit ((D table).under s) filter
      es columns out (by rw [hdb table ht, Table.relation_of_catalog hcatalog]) hfilter
      hpicked.nodup (fun id row => ?_) hout
    rw [hes]
    exact and_congr_right fun hrow => selects_iff hT hrow
  | explain inner =>
    cases hp
    dsimp only at hrun
    rw [explain] at hrun
    split at hrun
    · cases hrun
    · rename_i action table predicate orderBy limit hinner
      have ht : table ∈ L.names := hst.table table (Statement.table_of_explained hinner :)
      obtain ⟨s, hs, hrun⟩ := Query.run_bind_eq_ok.mp hrun
      obtain ⟨filter, hfilter, hresult⟩ := Query.run_bind_eq_ok.mp hrun
      rw [Query.run_ofExcept] at hfilter
      obtain ⟨hcatalog, -⟩ := h.expectSchema_of_run ht (hwf table ht) hs
      obtain rfl := Except.ok.inj hresult
      exact .explain inner action table predicate orderBy limit ((D table).under s) filter hinner
        (by rw [hdb table ht, Table.relation_of_catalog hcatalog]) hfilter
  | createTable | dropTable | insert | update | delete | begin | commit | rollback => cases hp
  | createIndex table column range => cases range <;> cases hp
  | dropIndex table column range => cases range <;> cases hp

/-! ## Databases -/

/-- The map stores the tables of a database. -/
def Holds (L : Lexicon) (mk : C.MasterKey) (m : ByteMap) (db : Relational.Database) : Prop :=
  ∃ D, Rep L mk m D ∧ (∀ t ∈ L.names, Wf L exactly t (D t)) ∧
    ∀ t ∈ L.names, db t = (D t).relation

/-- What reading a table returns. -/
def Reads (C : Crypto) (mk : C.MasterKey) (r : Reader Bytes Bytes) (t : String) :
    Option Relational.Relation → Prop
  | none => (schema C mk t).run r = .ok none
  | some R => (SchemaFits R.schema → (schema C mk t).run r = .ok (some R.schema)) ∧
      (loadSeq C mk t).run r = .ok R.next ∧ R.Keyed ∧ R.Below ∧
      ∃ es : List (UInt64 × Row), (scanRows C mk t).run r = .ok (keyed C mk t es) ∧
        (es.map Prod.fst).Nodup ∧ ∀ id row, (id, row) ∈ es ↔ R.rows id = some row

theorem Holds.reads {db : Relational.Database} (h : Holds L mk m db) (ht : t ∈ L.names) :
    Reads C mk m.reader t (db t) := by
  obtain ⟨D, hrep, hwf, hdb⟩ := h
  rw [hdb t ht]
  cases hcatalog : D t .catalog with
  | none =>
    rw [Table.relation, hcatalog]
    exact hrep.run_schema_none ht hcatalog
  | some s =>
    have hrelation := Table.relation_of_catalog hcatalog
    obtain ⟨es, hpicked, hall, hscan⟩ :=
      hrep.run_scanRows ht ((hwf t ht).content s hcatalog).fits
    have hkeyed := (hwf t ht).keyed hrelation
    have hbelow := (hwf t ht).below hrelation
    rw [hrelation]
    refine ⟨fun hfits => ?_, hrep.run_loadSeq ht, hkeyed, hbelow, es, hscan, hpicked.nodup,
      fun id row => ⟨hpicked.stored (id, row), hall id row⟩⟩
    have hdecode : decodeSchema (encodeSchema s) = .ok s := decodeSchema_encodeSchema hfits
    rw [hrep.run_schema_some ht hcatalog, hdecode]
    rfl

theorem holds_empty (hL : L.Distinct mk) (passphrase : String) (kdf : KdfParams)
    (env : Engine.OpenEnv C) :
    Holds L mk (Storage.applyLog ∅ (Engine.freshBatches passphrase kdf env)) fun _ => none :=
  ⟨fun _ _ => none, rep_fresh hL passphrase kdf env, fun t _ => wf_empty L exactly t, fun _ _ => rfl⟩

/-- A statement that writes, on the stored map. -/
theorem Holds.effect {db : Relational.Database} (h : Holds L mk m db) {st : Statement}
    (hst : st.Regular L mk m.reader) (hk : KeepsZeros exactly mk m.reader st)
    {q : Read (Plan C)} (hp : program C mk st = .mutate q) {plan : Plan C}
    (hrun : q.run m.reader = .ok plan) :
    ∃ db', Relational.Effect db st plan.result db' ∧ (plan.writes = [] → db' = db) ∧
      ∀ (nonces nonces' : ℕ → C.Nonce) (entry : AuditEntry),
        Holds L mk (applyAll m (C.sealWrites nonces plan.writes ++
          C.sealWrites nonces' (C.auditWrites mk entry))) db' := by
  obtain ⟨D, hrep, hwf, hdb⟩ := h
  obtain ⟨t, ht, ws, hwrites, hvalid, hwf', heffect⟩ :=
    statement_effect hrep hwf hdb hst hk hp hrun
  refine ⟨_, heffect, fun hnil => ?_, fun nonces nonces' entry => ?_⟩
  · obtain rfl : ws = [] := List.map_eq_nil_iff.mp (hwrites.symm.trans hnil)
    rw [patchAll_nil, ← hdb t ht, Function.update_eq_self]
  · rw [hwrites]
    refine ⟨_, hrep.audited ht hvalid nonces nonces' entry, fun t' ht' => ?_, fun t' ht' => ?_⟩
    · by_cases heq : t' = t
      · subst heq
        rw [Function.update_self]
        exact hwf'
      · rw [Function.update_of_ne heq]
        exact hwf t' ht'
    · by_cases heq : t' = t
      · subst heq
        rw [Function.update_self, Function.update_self]
      · rw [Function.update_of_ne heq, Function.update_of_ne heq, hdb t' ht']

/-- A rotation stores what was visible. -/
theorem Holds.rotation {db : Relational.Database} (h : Holds L mk m db) {e : Engine C}
    {env : Engine.RotateEnv C} {passphrase : String} {kdf : KdfParams}
    (hL : L.Distinct (C.derive kdf passphrase env.openEnv.salt.1)) {snaps : List TableSnapshot}
    {audit : List (Unsealed C)} (hsnaps : (snapshot C mk).run m.reader = .ok snaps)
    (haudit : ∀ w ∈ audit, auditPrefix <+: w.key) :
    Holds L (C.derive kdf passphrase env.openEnv.salt.1)
      (Storage.applyLog ∅ (e.rotationBatches env passphrase kdf snaps audit)) db := by
  obtain ⟨D, hrep, hwf, hdb⟩ := h
  have hrebuilt := hrep.rebuiltTables_wf hwf hsnaps
  refine ⟨_, hrep.rotation hwf hL hsnaps haudit, fun t ht => (hrebuilt t ht).1, fun t ht => ?_⟩
  rw [(hrebuilt t ht).2.relation, hdb t ht]

namespace Session

/-! ## Simulation -/

/-- What is observed of a step. -/
def observe (s : Session C) : Step C → Relational.Event
  | .statement env st => .statement env.platform st (s.engine.executeStatement env st).1
  | .rotate env newPassphrase kdf =>
    match (s.engine.rotateTo env newPassphrase kdf).1 with
    | .ok () => .rotated
    | .error _ => .rotationFailed
  | .reopen _ _ => .reopened

/-- The session shows the state of a relational database. -/
structure Shows (L : Lexicon) (mode : Mode) (s : Session C) (a : Relational.State) : Prop where
  sound : Sound mode (fun _ _ (_ : Unit) => True) s ⟨(), ()⟩
  committed : Holds L s.engine.master s.engine.store.backend.map a.committed
  visible : Holds L s.engine.master s.engine.store.view a.visible
  working : a.working.isSome = s.engine.store.inTransaction

variable {mode : Mode} {s : Session C} {a : Relational.State}

/-- The invariant of the reserved records is kept, whatever the tables hold. -/
theorem keeps_reserved (mode : Mode) : Keeps mode (fun (_ : Session C) _ => True)
    (fun _ _ (_ : Unit) => True) (fun _ _ _ g => g) fun _ _ g => g where
  plan _ _ _ _ _ _ _ _ _ _ _ _ := trivial
  rotation _ _ _ _ _ _ _ _ _ _ _ _ _ := trivial

theorem Shows.sound_step (h : Shows L mode s a) {act : Step C} (hclean : Clean mode s act) :
    Sound mode (fun _ _ (_ : Unit) => True) (s.step act) ⟨(), ()⟩ :=
  h.sound.step (keeps_reserved mode) act ⟨trivial, hclean⟩

theorem Shows.working_eq_none (h : Shows L mode s a) (ho : s.engine.store.overlay = none) :
    a.working = none := by
  rw [← Option.isNone_iff_eq_none, ← Option.not_isSome, h.working, Store.inTransaction, ho]
  rfl

theorem Shows.working_eq_some (h : Shows L mode s a) {o : Overlay}
    (ho : s.engine.store.overlay = some o) : ∃ db, a.working = some db := by
  rw [← Option.isSome_iff_exists, h.working, Store.inTransaction, ho]
  rfl

/-- Steps that touch no more than the telemetry. -/
theorem Shows.of_eq {s' : Session C} (h : Shows L mode s a)
    (hsound : Sound mode (fun _ _ (_ : Unit) => True) s' ⟨(), ()⟩)
    (hmaster : s'.engine.master = s.engine.master) (hview : s'.engine.store.view = s.engine.store.view)
    (hmap : s'.engine.store.backend.map = s.engine.store.backend.map)
    (htxn : s'.engine.store.inTransaction = s.engine.store.inTransaction) : Shows L mode s' a where
  sound := hsound
  committed := by rw [hmaster, hmap]; exact h.committed
  visible := by rw [hmaster, hview]; exact h.visible
  working := by rw [htxn]; exact h.working

/-- A session without a transaction. -/
theorem shows_idle {s' : Session C} {db : Relational.Database}
    (hsound : Sound mode (fun _ _ (_ : Unit) => True) s' ⟨(), ()⟩)
    (ho : s'.engine.store.overlay = none)
    (hdb : Holds L s'.engine.master s'.engine.store.backend.map db) :
    Shows L mode s' ⟨db, none⟩ where
  sound := hsound
  committed := hdb
  visible := by rw [Store.view_of_none ho]; exact hdb
  working := by rw [Store.inTransaction, ho]; rfl

section Statements

variable {env : Env C} {st : Statement} {q : Read (Plan C)} {plan : Plan C}

theorem step_statement {r : Except EngineError QueryResult} {e' : Engine C}
    (h : s.engine.executeStatement env st = (r, e')) :
    s.step (.statement env st) = ⟨e', s.passphrase⟩ ∧
      s.observe (.statement env st) = .statement env.platform st r := by
  rw [step, observe, h]
  exact ⟨rfl, rfl⟩

/-- A statement that writes. -/
theorem Shows.applied (h : Shows L mode s a) (hreg : Regular L exactly s (.statement env st))
    (hclean : Clean mode s (.statement env st)) (hp : program C s.engine.master st = .mutate q)
    (hq : q.run s.engine.store.reader = .ok plan) (hw : plan.writes ≠ [])
    (hc : (s.engine.store.commit (s.engine.auditedBatch env plan) env.io).1 = .ok ()) :
    ∃ a', Relational.Moves a (s.observe (.statement env st)) a' ∧
      Shows L mode (s.step (.statement env st)) a' := by
  have hsound := h.sound_step hclean
  obtain ⟨hstep, hobserve⟩ := step_statement (s.engine.executeStatement_applied env hp hq hw hc)
  obtain ⟨hst, hk⟩ := hreg
  rw [Store.reader_eq] at hst hk hq
  obtain ⟨db', heffect, -, hholds⟩ := h.visible.effect hst hk hp hq
  have hvisible : Holds L s.engine.master
      (s.engine.store.commit (s.engine.auditedBatch env plan) env.io).2.view db' := by
    rw [Store.view_commit hc]
    exact hholds _ _ _
  rw [hstep] at hsound ⊢
  rw [hobserve]
  refine ⟨a.write db', .effect _ st _ db' heffect, ?_⟩
  rcases Option.eq_none_or_eq_some s.engine.store.overlay with ho | ⟨o, ho⟩
  · have ho' := (Store.commit_of_none ho (s.engine.auditedBatch env plan) env.io).1
    rw [Relational.State.write, h.working_eq_none ho]
    exact shows_idle hsound ho' (by rw [← Store.view_of_none ho']; exact hvisible)
  · obtain ⟨db, hdb⟩ := h.working_eq_some ho
    have hcommit := Store.commit_of_overlay ho (s.engine.auditedBatch env plan) env.io
    rw [Relational.State.write, hdb]
    refine ⟨hsound, ?_, hvisible, ?_⟩
    · rw [hcommit]
      exact h.committed
    · rw [hcommit]
      rfl

/-- A statement whose commit is rejected. -/
theorem Shows.refused (h : Shows L mode s a) (hclean : Clean mode s (.statement env st))
    (hp : program C s.engine.master st = .mutate q) (hq : q.run s.engine.store.reader = .ok plan)
    (hw : plan.writes ≠ []) {err : StorageError}
    (hc : (s.engine.store.commit (s.engine.auditedBatch env plan) env.io).1 = .error err) :
    ∃ a', Relational.Moves a (s.observe (.statement env st)) a' ∧
      Shows L mode (s.step (.statement env st)) a' := by
  have hsound := h.sound_step hclean
  obtain ⟨hstep, hobserve⟩ := step_statement (s.engine.executeStatement_refused env hp hq hw hc)
  obtain ⟨ho, ho', hmap⟩ := Store.commit_error hc
  rw [hstep] at hsound ⊢
  rw [hobserve]
  refine ⟨a, .failed _ st _ ?_, h.of_eq hsound rfl ?_ hmap ?_⟩
  · rintro rfl
    cases hp
  · exact (Store.view_of_none ho').trans (hmap.trans (Store.view_of_none ho).symm)
  · change (Store.overlay _).isSome = _
    rw [ho', Store.inTransaction, ho]

/-- Statements that read, then write. -/
theorem Shows.mutate (h : Shows L mode s a) (hreg : Regular L exactly s (.statement env st))
    (hclean : Clean mode s (.statement env st)) (hp : program C s.engine.master st = .mutate q) :
    ∃ a', Relational.Moves a (s.observe (.statement env st)) a' ∧
      Shows L mode (s.step (.statement env st)) a' := by
  have hsound := h.sound_step hclean
  cases hq : q.run s.engine.store.reader with
  | error err =>
    have hexec : s.engine.executeStatement env st = (.error err, { s.engine with
        telemetry := s.engine.telemetry ++ q.notes s.engine.store.reader }) := by
      simp only [Engine.executeStatement, hp, Engine.read, hq]
    obtain ⟨hstep, hobserve⟩ := step_statement hexec
    rw [hstep] at hsound ⊢
    rw [hobserve]
    refine ⟨a, .failed _ st err ?_, h.of_eq hsound rfl rfl rfl rfl⟩
    rintro rfl
    cases hp
  | ok plan =>
    by_cases hw : plan.writes = []
    · have hexec : s.engine.executeStatement env st = (.ok plan.result, { s.engine with
          telemetry := s.engine.telemetry ++ q.notes s.engine.store.reader }) := by
        simp only [Engine.executeStatement, hp, Engine.read, hq, Engine.commitAudited, hw,
          List.isEmpty_nil, if_true]
      obtain ⟨hstep, hobserve⟩ := step_statement hexec
      obtain ⟨hst, hk⟩ := hreg
      rw [Store.reader_eq] at hst hk hq
      obtain ⟨db', heffect, hsame, -⟩ := h.visible.effect hst hk hp hq
      obtain rfl := hsame hw
      rw [hstep] at hsound ⊢
      rw [hobserve]
      refine ⟨a.write a.visible, .effect _ st _ _ heffect, ?_⟩
      have hwrite : a.write a.visible = a := by
        obtain ⟨committed, working⟩ := a
        cases working <;> rfl
      rw [hwrite]
      exact h.of_eq hsound rfl rfl rfl rfl
    · cases hc : (s.engine.store.commit (s.engine.auditedBatch env plan) env.io).1 with
      | error err => exact h.refused hclean hp hq hw hc
      | ok => exact h.applied hreg hclean hp hq hw hc

/-- Queries. -/
theorem Shows.query (h : Shows L mode s a) (hst : st.Within L)
    (hclean : Clean mode s (.statement env st)) {q : Platform → Read QueryResult}
    (hp : program C s.engine.master st = .query q) :
    ∃ a', Relational.Moves a (s.observe (.statement env st)) a' ∧
      Shows L mode (s.step (.statement env st)) a' := by
  have hsound := h.sound_step hclean
  have hexec : s.engine.executeStatement env st = ((q env.platform).run s.engine.store.reader,
      { s.engine with
        telemetry := s.engine.telemetry ++ (q env.platform).notes s.engine.store.reader }) := by
    simp only [Engine.executeStatement, hp, Engine.read]
  obtain ⟨hstep, hobserve⟩ := step_statement hexec
  rw [hstep] at hsound ⊢
  rw [hobserve]
  refine ⟨a, ?_, h.of_eq hsound rfl rfl rfl rfl⟩
  cases hq : (q env.platform).run s.engine.store.reader with
  | error err =>
    refine .failed _ st err ?_
    rintro rfl
    cases hp
  | ok r =>
    rw [Store.reader_eq] at hq
    obtain ⟨D, hrep, hwf, hdb⟩ := h.visible
    exact .query _ st r (query_answers hrep hwf hdb hst hp env.platform hq)

/-- `BEGIN`, `COMMIT` and `ROLLBACK`. -/
theorem Shows.control (h : Shows L mode s a) (hst : st = .begin ∨ st = .commit ∨ st = .rollback)
    (hclean : Clean mode s (.statement env st)) :
    ∃ a', Relational.Moves a (s.observe (.statement env st)) a' ∧
      Shows L mode (s.step (.statement env st)) a' := by
  have hsound := h.sound_step hclean
  have hspec := s.engine.executeStatement_spec env st
  rcases hexec : s.engine.executeStatement env st with ⟨r, e'⟩
  obtain ⟨hstep, hobserve⟩ := step_statement hexec
  rw [hexec] at hspec
  rw [hstep] at hsound ⊢
  rw [hobserve]
  cases hspec with
  | quiet r t _ hr hn =>
    obtain ⟨err, rfl⟩ := hr hst
    have hsame := h.of_eq hsound rfl rfl rfl rfl
    by_cases hcommit : st = .commit
    · subst hcommit
      have hidle : a = ⟨a.committed, none⟩ := by
        obtain ⟨committed, working⟩ := a
        obtain rfl : working = none := h.working_eq_none (hn (Or.inl rfl))
        rfl
      exact ⟨⟨a.committed, none⟩, .commitFailed _ err, hidle ▸ hsame⟩
    · exact ⟨a, .failed _ st err hcommit, hsame⟩
  | applied _ _ _ hp => exact absurd hst (Engine.not_control_of_mutate hp)
  | refused _ _ _ _ hp => exact absurd hst (Engine.not_control_of_mutate hp)
  | began hst' ho =>
    subst hst'
    refine ⟨_, .began _ (h.working_eq_none ho), hsound, h.committed, ?_, rfl⟩
    change Holds L _ s.engine.store.begin.view a.committed
    rw [Store.view_begin]
    exact h.committed
  | committed o hst' ho hc =>
    subst hst'
    obtain ⟨db, hdb⟩ := h.working_eq_some ho
    obtain ⟨ho', hmap⟩ := Store.map_commitTransaction hc
    refine ⟨_, .committed _ db hdb, shows_idle hsound ho' ?_⟩
    have hvisible := h.visible
    rw [Relational.State.visible, hdb] at hvisible
    change Holds L _ (Storage.map _) db
    rw [hmap]
    exact hvisible
  | commitFailed o err hst' ho hc =>
    subst hst'
    obtain ⟨ho', hmap⟩ := Store.commitTransaction_error hc
    exact ⟨_, .commitFailed _ _, shows_idle hsound ho' (by rw [hmap]; exact h.committed)⟩
  | rolledBack o hst' ho =>
    subst hst'
    obtain ⟨db, hdb⟩ := h.working_eq_some ho
    exact ⟨_, .rolledBack _ db hdb, shows_idle hsound rfl h.committed⟩

end Statements

/-- Rotations. -/
theorem Shows.rotate (h : Shows L mode s a) {env : Engine.RotateEnv C} {newPassphrase : String}
    {kdf : KdfParams} (hL : L.Distinct (C.derive kdf newPassphrase env.openEnv.salt.1))
    (hclean : Clean mode s (.rotate env newPassphrase kdf)) :
    ∃ a', Relational.Moves a (s.observe (.rotate env newPassphrase kdf)) a' ∧
      Shows L mode (s.step (.rotate env newPassphrase kdf)) a' := by
  have hsound := h.sound_step hclean
  rcases h.sound.rotate_cases hclean with ⟨hstep, err, hres⟩ |
    ⟨tables, audit, htables, haudit, -, -, hres, hstep⟩
  · rw [hstep, observe, hres]
    exact ⟨a, .rotationFailed, h⟩
  · rw [hstep] at hsound
    rw [hstep, observe, hres]
    refine ⟨_, .rotated, shows_idle hsound rfl ?_⟩
    change Holds L _ (Engine.writeAll _ _).map _
    rw [Engine.map_writeAll]
    exact h.visible.rotation hL htables (carryAudit_keys haudit)

/-- Dropping the engine and opening the log again. -/
theorem Shows.reopen (h : Shows L mode s a) {env : Engine.OpenEnv C} {kdf : KdfParams}
    (hclean : Clean mode s (.reopen env kdf)) :
    ∃ a', Relational.Moves a (s.observe (.reopen env kdf)) a' ∧
      Shows L mode (s.step (.reopen env kdf)) a' := by
  have hsound := h.sound_step hclean
  obtain ⟨log, hlog⟩ := h.sound.intact hclean
  obtain ⟨head, hhead⟩ := h.sound.stored
  have hstep := step_reopen hlog.openLog_wal h.sound.opens hhead env kdf
  rw [hstep] at hsound ⊢
  exact ⟨_, .reopened, shows_idle hsound rfl h.committed⟩

/-- **Every step is a move.** -/
theorem Shows.step (h : Shows L mode s a) (act : Step C)
    (hact : Regular L exactly s act ∧ Clean mode s act) :
    ∃ a', Relational.Moves a (s.observe act) a' ∧ Shows L mode (s.step act) a' := by
  obtain ⟨hreg, hclean⟩ := hact
  cases act with
  | statement env st =>
    cases hp : program C s.engine.master st with
    | mutate q => exact h.mutate hreg hclean hp
    | query q => exact h.query hreg.1.within hclean hp
    | begin => exact h.control (Or.inl (Engine.eq_begin_of_program hp)) hclean
    | commit => exact h.control (Or.inr (Or.inl (Engine.eq_commit_of_program hp))) hclean
    | rollback => exact h.control (Or.inr (Or.inr (Engine.eq_rollback_of_program hp))) hclean
  | rotate env newPassphrase kdf => exact h.rotate hreg hclean
  | reopen env kdf => exact h.reopen hclean

theorem shows_fresh (hs : s.Fresh) (hL : L.Distinct s.engine.master) :
    Shows L mode s .empty := by
  obtain ⟨passphrase, kdf, env, -, rfl⟩ := hs.eq_create
  refine shows_idle (hs.sound fun _ _ _ => trivial) rfl ?_
  change Holds L _ (Engine.writeAll _ _).map _
  rw [Engine.map_writeAll]
  exact holds_empty hL passphrase kdf env

/-- What is observed of a run. -/
def events (s : Session C) (steps : List (Step C)) : List Relational.Event :=
  transcript Session.step observe s steps

end Session

end Ciphra
