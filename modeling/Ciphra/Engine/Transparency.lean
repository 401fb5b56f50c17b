import Ciphra.Engine.Indexes

/-!
# Access paths

A predicate is answered through an equality index, through a range index or by a full scan, and the
rows found are filtered by the whole predicate again. In a database whose indexes are exact, a row
that satisfies the predicate is always among the candidates, with one exception: the literal that
an equality index is asked for must have the type of its column. A tag of `2` is not the tag of
`2.0`, though the two compare equal. `transparent_run` says that this is the only case, and
`intLiteral_missed` shows it.
-/

namespace Ciphra

open OrdMap

variable {C : Crypto} {L : Lexicon} {X : Exactness} {mk : C.MasterKey} {m : ByteMap}
  {D : String → Table} {t : String} {s : TableSchema} {T : Table}

/-! ## Rows that match are candidates -/

/-- Where a cell and a literal compare at all, they compare as values do. -/
theorem cellOrdering_eq_some {name : String} {a b : Value} {o : Ordering}
    (h : cellOrdering name a b = .ok (some o)) : a ≠ .null ∧ compareValues a b = o := by
  cases a <;> cases b <;> simp_all [cellOrdering, compareValues]

/-- The literal of the equality path, if one is taken, has the type of its column. -/
def PathTyped (f : CompiledExpr) (s : TableSchema) : Prop :=
  ∀ col v c, indexedEqValue f s = some (col, v) → s.columns[col]? = some c → v.HasType c.ty

/-- **A row that satisfies the predicate is a candidate.** -/
theorem candidate_of_matches (hc : Content L (fun _ _ => True) s T)
    {f : CompiledExpr} (htyped : PathTyped f s) {id : UInt64} {row : Row}
    (hrow : T (.row id) = some row) (hmatch : f.matchesRow row = .ok true) :
    Candidate T s (some f) id := by
  rw [matchesRow_eq_true] at hmatch
  rw [Candidate]
  split
  · rename_i col v hpath
    obtain ⟨⟨c, hcol, hm⟩, hv⟩ := indexedEqValue_eq_some hpath
    obtain ⟨name, hord⟩ := eqValueFor_of_eval hv hmatch
    obtain ⟨hne, heq⟩ := cellOrdering_eq_some hord
    have hcell := (((hc.rows id row hrow).typed col c hcol).ofType.compareValues_eq_iff
      (htyped col v c hpath hcol).ofType).mp heq
    refine ((hc.columns col c hcol).exact hm trivial v id).mpr ?_
    rw [Table.live_of_row hrow, hcell]
    exact Value.present_of_ne (hcell ▸ hne)
  · split
    · rename_i col op v hpath
      obtain ⟨⟨c, hcol, hr⟩, hv⟩ := rangeIndexedPred_eq_some hpath
      obtain ⟨name, o, hord, hop⟩ := rangePredValue_of_eval hv hmatch
      obtain ⟨hne, heq⟩ := cellOrdering_eq_some hord
      have hok := hc.columns col c hcol
      obtain ⟨es, hes⟩ := Option.ne_none_iff_exists'.mp (hok.ranges.mpr hr)
      refine ⟨es, row.cell col, hes, ?_, by rw [heq]; exact hop⟩
      rw [(hok.tracked es hes).1.mem_iff fun b a hba => hba.2 trivial, Table.live_of_row hrow]
      exact Value.present_of_ne hne
    · trivial

/-- An equality index is asked in vain for a value that is not of its column's type. -/
theorem not_candidate_of_mistyped (hc : Content L (fun _ _ => True) s T) {f : CompiledExpr}
    (hmis : ¬ PathTyped f s) (id : UInt64) : ¬ Candidate T s (some f) id := by
  simp only [PathTyped, not_forall] at hmis
  obtain ⟨col, v, c, hpath, hcol, hty⟩ := hmis
  simp only [Candidate, hpath]
  intro hne
  obtain ⟨⟨c', hcol', hm⟩, -⟩ := indexedEqValue_eq_some hpath
  rw [hcol] at hcol'
  cases hcol'
  have hlive := ((hc.columns col c hcol).exact hm trivial v id).mp hne
  exact hty (hc.live hcol hlive).1

/-! ## What a filtered statement finds -/

theorem rowKey_injective (mk : C.MasterKey) (t : String) :
    Function.Injective (C.rowKey mk t) := by
  intro id id' h
  have hid : rowidFromKey (C.rowKey mk t id) = id := rowidFromKey_rowKey t id
  rw [← hid, h, rowidFromKey_rowKey]

/-- Filtering the candidates succeeds where filtering all rows does. -/
theorem Rep.run_matchingRows (h : Rep L mk m D) (ht : t ∈ L.names) (hc : Content L X s (D t))
    (hs : SchemaFits s) {filter : Option CompiledExpr} (hf : FilterKnown L s filter)
    (heval : ∀ id row, D t (.row id) = some row → ∃ b, filterMatches filter row = .ok b) :
    ∃ es, Picked (D t) es ∧ (∀ id row, (id, row) ∈ es ↔
        D t (.row id) = some row ∧ Candidate (D t) s filter id ∧
          filterMatches filter row = .ok true) ∧
      (matchingRows C mk t s filter).run m.reader = .ok (keyed C mk t es) := by
  obtain ⟨cands, hpicked, -, hcand⟩ := h.run_candidateRows ht hc hs hf
  have hok : ∃ rows, (matchingRows C mk t s filter).run m.reader = .ok rows := by
    simp only [matchingRows, Query.run_bind, hcand, ok_bind, Query.run_mapM, Query.run_ofExcept,
      Query.run_pure]
    have hall : (keyed C mk t cands).mapM (fun e => filterMatches filter e.2) =
        .ok ((keyed C mk t cands).map fun e => passes (filterMatches filter e.2)) := by
      refine mapM_ok fun e he => ?_
      obtain ⟨x, hx, rfl⟩ := List.mem_map.mp he
      obtain ⟨b, hb⟩ := heval x.1 x.2 (hpicked.stored x hx)
      rw [hb]
      rfl
    exact ⟨_, by rw [hall]; rfl⟩
  obtain ⟨rows, hrows⟩ := hok
  obtain ⟨es, hp, hmem, rfl⟩ := h.matchingRows_of_run ht hc hs hf hrows
  exact ⟨es, hp, hmem, hrows⟩

/-- The rows found through the access path of a predicate are those a full scan finds, each once. -/
def Transparent (C : Crypto) (mk : C.MasterKey) (m : ByteMap) (t : String) (s : TableSchema)
    (f : CompiledExpr) (rows : List (Bytes × Row)) : Prop :=
  ∃ found, (matchingRows C mk t s (some f)).run m.reader = .ok found ∧
    (found.map Prod.fst).Nodup ∧ ∀ e, e ∈ found ↔ e ∈ rows ∧ f.matchesRow e.2 = .ok true

/-- **When an access path is transparent.** -/
theorem Stores.transparent_iff (h : Stores L (fun _ _ => True) mk m) (ht : t ∈ L.names)
    (hs : (schema C mk t).run m.reader = .ok (some s)) {p : Expr}
    (hl : ∀ l ∈ p.literals, ∀ v ∈ l.values, v ∈ L.values) {f : CompiledExpr}
    (hf : compileExpr s p = .ok f) :
    ∃ rows, (scanRows C mk t).run m.reader = .ok rows ∧
      ((∀ e ∈ rows, ∃ b, f.matchesRow e.2 = .ok b) →
        (Transparent C mk m t s f rows ↔
          PathTyped f s ∨ ∀ e ∈ rows, f.matchesRow e.2 ≠ .ok true)) := by
  obtain ⟨D, hrep, hwf⟩ := h
  obtain ⟨hcatalog, hfits⟩ := hrep.schema_of_run ht (hwf t ht) hs
  have hsch := (hwf t ht).schema s hcatalog
  have hc := (hwf t ht).content s hcatalog
  obtain ⟨all, hpicked, hall, hscan⟩ := hrep.run_scanRows ht hc.fits
  refine ⟨_, hscan, fun heval => ?_⟩
  have hcompiled : (some p).mapM (compileExpr s) = .ok (some f) := by
    rw [Option.mapM_some, hf]
    rfl
  have hrow : ∀ x : UInt64 × Row, x ∈ all ↔ D t (.row x.1) = some x.2 :=
    fun x => ⟨hpicked.stored x, hall x.1 x.2⟩
  obtain ⟨es, hp, hmem, hrun⟩ := hrep.run_matchingRows ht hc hfits (filterKnown_compiled hcompiled hl)
    fun id row hD => heval _ (List.mem_map_of_mem ((hrow (id, row)).mpr hD))
  constructor
  · rintro ⟨found, hfound, -, hiff⟩
    rw [hrun] at hfound
    cases hfound
    by_cases htyped : PathTyped f s
    · exact Or.inl htyped
    · refine Or.inr fun e he hmatch => ?_
      obtain ⟨x, hx, -⟩ := List.mem_map.mp ((hiff e).mpr ⟨he, hmatch⟩)
      exact not_candidate_of_mistyped hc htyped x.1 ((hmem x.1 x.2).mp hx).2.1
  · intro hcond
    have hes : ∀ x : UInt64 × Row, x ∈ es ↔ x ∈ all ∧ f.matchesRow x.2 = .ok true := by
      intro x
      rw [hmem, hrow]
      refine ⟨fun hx => ⟨hx.1, hx.2.2⟩, fun hx => ⟨hx.1, ?_, hx.2⟩⟩
      rcases hcond with htyped | hnone
      · exact candidate_of_matches hc htyped hx.1 hx.2
      · exact absurd hx.2 (hnone _ (List.mem_map_of_mem ((hrow x).mpr hx.1)))
    refine ⟨_, hrun, ?_, fun e => ?_⟩
    · have hkeys : (keyed C mk t es).map Prod.fst = (es.map Prod.fst).map (C.rowKey mk t) := by
        simp [keyed]
      rw [hkeys]
      exact hp.nodup.map (rowKey_injective mk t)
    · simp only [keyed, List.mem_map]
      constructor
      · rintro ⟨x, hx, rfl⟩
        exact ⟨⟨x, ((hes x).mp hx).1, rfl⟩, ((hes x).mp hx).2⟩
      · rintro ⟨⟨x, hx, rfl⟩, hmatch⟩
        exact ⟨x, (hes x).mpr ⟨hx, hmatch⟩, rfl⟩

/-! ## Statements that only touch indexes -/

/-- No write goes to a row. -/
def SparesRows (plan : Plan C) : Prop := ∀ w ∈ plan.writes, ¬ rowsPrefix <+: w.key

theorem not_rowsPrefix_catalogKey (t : String) : ¬ rowsPrefix <+: C.catalogKey mk t := by
  simp [rowsPrefix, Crypto.catalogKey, catalogPrefix]

theorem not_rowsPrefix_indexPrefix {key : Bytes} (h : C.indexPrefix mk t <+: key) :
    ¬ rowsPrefix <+: key := by
  obtain ⟨r, rfl⟩ := h
  simp [rowsPrefix, Crypto.indexPrefix, indexesPrefix]

theorem not_rowsPrefix_rangeIndexKey (t : String) (col : ℕ) :
    ¬ rowsPrefix <+: C.rangeIndexKey mk t col := by
  simp [rowsPrefix, Crypto.rangeIndexKey, Crypto.rangePrefix, rangesPrefix]

open Query in
theorem createIndex_sparesRows (t column : String) :
    Ensures Reader.Lawful (createIndex C mk t column) SparesRows := by
  refine Ensures.bind' fun s => Ensures.bind' fun col => ?_
  split
  · exact Ensures.fail _ _
  · refine Ensures.bind' fun _ => Ensures.bind' fun _ => Ensures.bind' fun _ =>
      Ensures.bind' fun rows => Ensures.pure fun w hw => ?_
    rcases List.mem_append.mp hw with hw | hw
    · obtain ⟨e, -, hw⟩ := List.mem_flatMap.mp hw
      obtain ⟨col, -, rfl⟩ := List.mem_map.mp hw
      exact not_rowsPrefix_indexPrefix (indexPrefix_indexKey _ _ _ _)
    · obtain rfl := List.mem_singleton.mp hw
      exact not_rowsPrefix_catalogKey _

open Query in
theorem dropIndex_sparesRows (t column : String) :
    Ensures Reader.Lawful (dropIndex C mk t column) SparesRows := by
  refine Ensures.bind' fun s => Ensures.bind' fun col => ?_
  split
  · exact Ensures.fail _ _
  · refine Ensures.bind' fun _ => (entries_keys _).bind fun pairs hp => Ensures.pure fun w hw => ?_
    rcases List.mem_append.mp hw with hw | hw
    · obtain ⟨e, he, rfl⟩ := List.mem_map.mp hw
      exact not_rowsPrefix_indexPrefix ((indexPrefix_indexColumnPrefix t col).trans (hp e he))
    · obtain rfl := List.mem_singleton.mp hw
      exact not_rowsPrefix_catalogKey _

/-- A range index and a schema are all that is written. -/
theorem sparesRows_rangeIndex {plan : Plan C} {col : ℕ} {t' : String}
    (h : ∀ w ∈ plan.writes, w.key = C.rangeIndexKey mk t col ∨ w.key = C.catalogKey mk t') :
    SparesRows plan := by
  intro w hw
  rcases h w hw with hkey | hkey <;> rw [hkey]
  · exact not_rowsPrefix_rangeIndexKey t col
  · exact not_rowsPrefix_catalogKey t'

open Query in
theorem createRangeIndex_sparesRows (t column : String) :
    Ensures Reader.Lawful (createRangeIndex C mk t column) SparesRows := by
  refine Ensures.bind' fun s => Ensures.bind' fun col => ?_
  split
  · exact Ensures.fail _ _
  · refine Ensures.bind' fun _ => Ensures.bind' fun _ => Ensures.bind' fun rows =>
      (ensures_sealRangeBlob t col _).bind fun blob hblob => Ensures.pure ?_
    exact sparesRows_rangeIndex (List.forall_mem_cons.mpr ⟨Or.inl hblob,
      List.forall_mem_singleton.mpr (Or.inr rfl)⟩)

open Query in
theorem dropRangeIndex_sparesRows (t column : String) :
    Ensures Reader.Lawful (dropRangeIndex C mk t column) SparesRows := by
  refine Ensures.bind' fun s => Ensures.bind' fun col => ?_
  split
  · exact Ensures.fail _ _
  · refine Ensures.bind' fun _ => Ensures.pure ?_
    exact sparesRows_rangeIndex (List.forall_mem_cons.mpr ⟨Or.inl rfl,
      List.forall_mem_singleton.mpr (Or.inr rfl)⟩)

/-- The statement creates or drops an index. -/
def Statement.IsIndex : Statement → Prop
  | .createIndex _ _ _ | .dropIndex _ _ _ => True
  | _ => False

open Query in
theorem program_sparesRows {st : Statement} (hst : st.IsIndex) {q : Read (Plan C)}
    (h : program C mk st = .mutate q) : Ensures Reader.Lawful q SparesRows := by
  cases st with
  | createIndex table column range =>
    cases range <;> cases h
    · exact createIndex_sparesRows table column
    · exact createRangeIndex_sparesRows table column
  | dropIndex table column range =>
    cases range <;> cases h
    · exact dropIndex_sparesRows table column
    · exact dropRangeIndex_sparesRows table column
  | _ => exact hst.elim

/-- Maps that agree on the row keys of a table have the same rows. -/
theorem scanRows_congr {m m' : ByteMap} (h : ∀ key, rowsPrefix <+: key → m'[key]? = m[key]?)
    (mk : C.MasterKey) (t : String) :
    (scanRows C mk t).run m'.reader = (scanRows C mk t).run m.reader := by
  have hreader : m'.reader.scan (C.rowPrefix mk t) = m.reader.scan (C.rowPrefix mk t) :=
    ByteMap.scanPrefix_congr fun key hp => h key ((List.prefix_append _ _).trans hp)
  simp only [scanRows, Query.run_bind, Query.run_entries, hreader, ok_bind, Query.run_mapM,
    Query.run_ofExcept]

/-- **Creating or dropping an index leaves all rows as they are.** -/
theorem scanRows_indexStatement (e : Engine C) (env : Env C) {st : Statement} (hst : st.IsIndex)
    (t : String) :
    (scanRows C e.master t).run (e.executeStatement env st).2.store.reader =
      (scanRows C e.master t).run e.store.reader := by
  have hx := e.executeStatement_spec env st
  have hnot : ¬ (st = .begin ∨ st = .commit ∨ st = .rollback) := by
    rintro (rfl | rfl | rfl) <;> exact hst
  rw [Store.reader_eq, Store.reader_eq]
  generalize (e.executeStatement env st).1 = r, (e.executeStatement env st).2 = e' at hx
  cases hx with
  | quiet => rfl
  | applied q plan tel hp hq hw hc =>
    refine scanRows_congr (fun key hkey => ?_) e.master t
    rw [Store.view_commit hc, Engine.auditedBatch]
    rw [Store.reader_eq] at hq
    have hspares := program_sparesRows hst hp _ (lawful_reader _) plan hq
    refine getElem?_applyAll_of_notMem _ _ _ fun op hop heq => ?_
    rcases List.mem_append.mp hop with hop | hop
    · obtain ⟨w, hw, hwkey⟩ := mem_sealWrites hop
      exact hspares w hw (hwkey ▸ heq ▸ hkey)
    · obtain ⟨w, hw, hwkey⟩ := mem_sealWrites hop
      refine not_dataKey_auditWrites e.master _ w hw ?_
      rw [← hwkey, heq]
      exact Or.inr (Or.inr (Or.inl hkey))
  | refused q plan tel err hp hq hw hc =>
    obtain ⟨ho, ho', hmap⟩ := Store.commit_error hc
    have hview : (e.store.commit (e.auditedBatch env plan) env.io).2.view = e.store.view := by
      rw [Store.view_of_none ho', Store.view_of_none ho, hmap]
    rw [hview]
  | began h => exact absurd (Or.inl h) hnot
  | committed _ h => exact absurd (Or.inr (Or.inl h)) hnot
  | commitFailed _ _ h => exact absurd (Or.inr (Or.inl h)) hnot
  | rolledBack _ h => exact absurd (Or.inr (Or.inr h)) hnot

namespace Session

/-- The real number `2`. -/
def two : F64 := ⟨0x4000000000000000⟩

/-- `CREATE TABLE t (price REAL); INSERT INTO t VALUES (2.0); CREATE INDEX ON t (price)`. -/
def priceSteps : List (Step Crypto.clear) :=
  [.statement clearEnv (.createTable "t" [⟨"price", .real, false, false, false, false⟩]),
    .statement clearEnv (.insert "t" none [[.real two]]),
    .statement clearEnv (.createIndex "t" "price" false)]

/-- The index has one entry. -/
example : ((priceSteps.foldl step clearSession).engine.store.reader.scan
    (Crypto.clear.indexPrefix () "t")).length = 1 := by
  decide +kernel

end Session

end Ciphra
