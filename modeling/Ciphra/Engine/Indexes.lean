import Ciphra.Engine.Audit
import Ciphra.Engine.Cursor
import Ciphra.Engine.Runs

/-!
# Indexes and keys along a run

What well-formed tables mean for what is stored: the entries of an equality index are the tagged
values of the rows, a range index decodes to the values of the rows in order, and no two rows share
a primary key. `indexes_run` and `primaryKeys_run` state it of every state a session can reach.

Both can fail. A text whose encoding is longer than a range index can say breaks the index it is
stored in (`rangeIndex_truncated`). And since an `UPDATE` compares values with an equality that takes
the two zeros for one, while entries are tagged by their bytes, a REAL key can be moved away from
its entry, after which another row may take it (`primaryKey_zeros`).
-/

namespace Ciphra

open OrdMap

variable {C : Crypto} {L : Lexicon} {X : Exactness} {mk : C.MasterKey} {m : ByteMap}
  {D : String → Table} {t : String} {s : TableSchema}

/-! ## Indexes -/

/-- The indexes of a column hold what the rows say. -/
structure IndexesExact (C : Crypto) (mk : C.MasterKey) (m : ByteMap) (t : String)
    (rows : List (Bytes × Row)) (col : ℕ) (c : ColumnDef) : Prop where
  entries : c.maintained = true → ∀ key,
    (∃ x, (key, x) ∈ m.scanPrefix (C.indexColumnPrefix mk t col)) ↔
      ∃ e ∈ rows, e.2.cell col ≠ .null ∧
        key = C.indexKey mk t col (e.2.cell col) (rowidFromKey e.1)
  range : c.rangeIndexed = true → ∃ sealed es, m[C.rangeIndexKey mk t col]? = some sealed ∧
    (openValue C (C.tableKey mk t) sealed (C.rangeIndexKey mk t col) >>= decodeRangeBlob) = .ok es ∧
    (es.map Prod.snd).Nodup ∧ (es.Pairwise fun a b => entryLe a b = true) ∧
    ∀ v id, (v, id) ∈ es ↔ ∃ e ∈ rows, e.2.cell col ≠ .null ∧
      (e.2.cell col, rowidFromKey e.1) = (v, id)
  noEntries : c.maintained = false → m.scanPrefix (C.indexColumnPrefix mk t col) = []
  noRange : c.rangeIndexed = false → m[C.rangeIndexKey mk t col]? = none

/-- The live values of a column, as a full scan shows them. -/
theorem live_iff_scanned (mk : C.MasterKey) {es : List (UInt64 × Row)} (hp : Picked (D t) es)
    (hall : ∀ id row, D t (.row id) = some row → (id, row) ∈ es) {col : ℕ} {id : UInt64}
    {v : Value} : (D t).live col id = some v ↔ ∃ e ∈ keyed C mk t es, e.2.cell col ≠ .null ∧
      (e.2.cell col, rowidFromKey e.1) = (v, id) := by
  rw [Table.live_eq_some]
  constructor
  · rintro ⟨row, hrow, rfl, hne⟩
    exact ⟨_, List.mem_map.mpr ⟨(id, row), hall id row hrow, rfl⟩, hne, by
      rw [rowidFromKey_rowKey]⟩
  · rintro ⟨e, he, hne, heq⟩
    obtain ⟨x, hx, rfl⟩ := List.mem_map.mp he
    rw [rowidFromKey_rowKey, Prod.mk.injEq] at heq
    obtain ⟨rfl, rfl⟩ := heq
    exact ⟨x.2, hp.stored x hx, rfl, hne⟩

/-- Well-formed tables have exact indexes on exact columns. -/
theorem Rep.indexesExact (h : Rep L mk m D) (ht : t ∈ L.names) (hfits : SchemaFits s)
    (hc : Content L X s (D t)) {es : List (UInt64 × Row)} (hp : Picked (D t) es)
    (hall : ∀ id row, D t (.row id) = some row → (id, row) ∈ es) {col : ℕ} {c : ColumnDef}
    (hcol : s.columns[col]? = some c) (hX : X c.ty c.primaryKey) :
    IndexesExact C mk m t (keyed C mk t es) col c := by
  have hok := hc.columns col c hcol
  obtain ⟨slots, -, hslots, hscan⟩ := h.scan_column ht (hfits.col_lt hcol)
  have hkeys : ∀ key, (∃ x, (key, x) ∈ m.scanPrefix (C.indexColumnPrefix mk t col)) ↔
      ∃ v id, D t (.entry col v id) ≠ none ∧ key = C.indexKey mk t col v id := by
    intro key
    rw [hscan]
    constructor
    · rintro ⟨x, hx⟩
      obtain ⟨slot, hslot, heq⟩ := List.mem_map.mp hx
      obtain ⟨⟨v, id, rfl⟩, hne⟩ := (hslots slot).mp hslot
      exact ⟨v, id, hne, (congrArg Prod.fst heq).symm⟩
    · rintro ⟨v, id, hne, rfl⟩
      exact ⟨_, List.mem_map.mpr ⟨.entry col v id, (hslots _).mpr ⟨⟨v, id, rfl⟩, hne⟩, rfl⟩⟩
  refine ⟨fun hm key => ?_, fun hr => ?_, fun hm => ?_, fun hr => ?_⟩
  · rw [hkeys]
    simp only [hok.exact hm hX, live_iff_scanned mk hp hall, Prod.mk.injEq]
    constructor
    · rintro ⟨v, id, ⟨e, he, hne, rfl, rfl⟩, rfl⟩
      exact ⟨e, he, hne, rfl⟩
    · rintro ⟨e, he, hne, rfl⟩
      exact ⟨_, _, ⟨e, he, hne, rfl, rfl⟩, rfl⟩
  · obtain ⟨entries, hentries⟩ := Option.ne_none_iff_exists'.mp (hok.ranges.mpr hr)
    obtain ⟨htracks, hsorted, -⟩ := hok.tracked entries hentries
    obtain ⟨sealed, hget, hopen⟩ := h.getElem?_some ht hentries
    refine ⟨sealed, entries, hget, ?_, htracks.nodup, hsorted, fun v id => ?_⟩
    · have hopen : openValue C (C.tableKey mk t) sealed (C.rangeIndexKey mk t col) =
        .ok (encodeRangeBlob entries) := hopen
      rw [hopen, ok_bind, hc.decodeRangeBlob hentries]
    · rw [htracks.mem_iff fun b a hba => hba.2 hX]
      exact live_iff_scanned mk hp hall
  · refine List.eq_nil_iff_forall_not_mem.mpr fun e he => ?_
    obtain ⟨v, id, hne, -⟩ := (hkeys e.1).mp ⟨e.2, he⟩
    have := hok.entries v id hne
    rw [hm] at this
    cases this
  · refine h.getElem?_none ht (s := .range col) (hfits.col_lt hcol) ?_
    by_contra hne
    have := hok.ranges.mp hne
    rw [hr] at this
    cases this

/-- What a map that stores well-formed tables shows of the indexes. -/
theorem Stores.indexes (h : Stores L X mk m) (ht : t ∈ L.names)
    (hs : (schema C mk t).run m.reader = .ok (some s)) :
    ∃ rows, (scanRows C mk t).run m.reader = .ok rows ∧ ∀ col c, s.columns[col]? = some c →
      X c.ty c.primaryKey → IndexesExact C mk m t rows col c := by
  obtain ⟨D, hrep, hwf⟩ := h
  obtain ⟨hcatalog, hfits⟩ := hrep.schema_of_run ht (hwf t ht) hs
  have hc := (hwf t ht).content s hcatalog
  obtain ⟨es, hp, hall, hscan⟩ := hrep.run_scanRows ht hc.fits
  exact ⟨_, hscan, fun col c hcol hX => hrep.indexesExact ht hfits hc hp hall hcol hX⟩

namespace Session

/-- **Indexes follow the rows.** In every run whose statements stay within what the encodings can
carry, the indexes of INT and TEXT columns hold exactly what the rows say, in the backend and in the
view. -/
theorem indexes_run (L : Lexicon) (mode : Mode) {s : Session C} (hs : s.Fresh)
    (hL : L.Distinct s.engine.master) (steps : List (Step C))
    (hrun : Along step (fun s a => ((∀ env st, a = .statement env st →
        st.Regular L s.engine.master s.engine.store.reader) ∧
      ∀ env newPassphrase kdf, a = .rotate env newPassphrase kdf →
        L.Distinct (C.derive kdf newPassphrase env.openEnv.salt.1)) ∧ Clean mode s a) s steps) :
    let s' := steps.foldl step s
    ∀ m ∈ [s'.engine.store.backend.map, s'.engine.store.view], ∀ t ∈ L.names, ∀ sch,
      (schema C s'.engine.master t).run m.reader = .ok (some sch) →
      ∃ rows, (scanRows C s'.engine.master t).run m.reader = .ok rows ∧
        ∀ col c, sch.columns[col]? = some c → c.ty = .int ∨ c.ty = .text →
          IndexesExact C s'.engine.master m t rows col c := by
  intro s' m hm t ht sch hsch
  obtain ⟨hbase, hview⟩ := stores_run (L := L) (X := fun ty _ => ty = .int ∨ ty = .text)
    (fun s env st h => ⟨h.1 env st rfl, Or.inr fun _ _ hX => hX⟩)
    (fun s env newPassphrase kdf h => h.2 env newPassphrase kdf rfl) hs hL hrun
  simp only [List.mem_cons, List.not_mem_nil, or_false] at hm
  rcases hm with rfl | rfl
  · exact hbase.indexes ht hsch
  · exact hview.indexes ht hsch

/-! A table with one TEXT column that has a range index. -/

/-- `CREATE TABLE t (a TEXT)`. -/
def textTable : Statement := .createTable "t" [⟨"a", .text, false, false, false, false⟩]

/-- `CREATE RANGE INDEX ON t (a)`. -/
def textRange : Statement := .createIndex "t" "a" true

/-- `INSERT INTO t VALUES (x)`. -/
def insertText (x : String) : Statement := .insert "t" none [[.text x]]

def rangedEngine : Engine Crypto.clear :=
  ((clearSession.engine.executeStatement clearEnv textTable).2.executeStatement clearEnv textRange).2

def rangedSchema : TableSchema := ⟨"t", [⟨"a", .text, false, false, false, true⟩]⟩

theorem rangedEngine_reads :
    (expectSchema Crypto.clear () "t").run rangedEngine.store.reader = .ok rangedSchema ∧
      (loadSeq Crypto.clear () "t").run rangedEngine.store.reader = .ok 0 ∧
      (loadRangeIndex Crypto.clear () "t" 0).run rangedEngine.store.reader = .ok [] := by
  refine ⟨?_, ?_, ?_⟩ <;> decide +kernel

def textPlan (x : String) : Plan Crypto.clear :=
  ⟨AuditKind.insert, "t", [addRow Crypto.clear () "t" (Crypto.clear.rowKey () "t" 0) [.text x],
    addSeq Crypto.clear () "t" 1, addRangeBlob Crypto.clear () "t" 0 [(.text x, 0)]], .inserted 1⟩

theorem run_insertText (x : String) :
    (insert Crypto.clear () "t" none [[.text x]]).run rangedEngine.store.reader =
      .ok (textPlan x) := by
  obtain ⟨hschema, hseq, hrange⟩ := rangedEngine_reads
  have hsort : sortRangeEntries [(Value.text x, (0 : UInt64))] = [(.text x, 0)] := by
    simp [sortRangeEntries]
  have hpositions : insertPositions rangedSchema "t" none = .ok [0] := by decide
  have hvalid : (validateRows Crypto.clear () "t" rangedSchema [0] [[.text x]] []).run
      rangedEngine.store.reader = .ok [[.text x]] := rfl
  have hcols : rangedSchema.rangeIndexedColumns = [0] := by decide
  have hblobs : rangedSchema.rangeIndexedColumns.mapM (fun col =>
      (loadRangeIndex Crypto.clear () "t" col).run rangedEngine.store.reader >>= fun entries =>
        (sealRangeBlob Crypto.clear () "t" col
          (sortRangeEntries (entries ++ rangeEntriesOf col [(0, [Value.text x])]))).run
            rangedEngine.store.reader) =
      .ok [addRangeBlob Crypto.clear () "t" 0 [(.text x, 0)]] := by
    rw [hcols, List.mapM_cons, List.mapM_nil, hrange, ok_bind]
    have : rangeEntriesOf 0 [((0 : UInt64), [Value.text x])] = [(.text x, 0)] := rfl
    have hroom : [(Value.text x, (0 : UInt64))].length ≤ maxEntries := maxEntries_pos
    rw [this, List.nil_append, hsort, run_sealRangeBlob Crypto.clear () hroom]
    rfl
  simp only [insert, Query.run_bind, hschema, ok_bind, Query.run_ofExcept, hpositions, hvalid, hseq,
    Query.run_mapM, Query.run_pure]
  have hnum : numberRows [[Value.text x]] 0 = [(0, [.text x])] := rfl
  rw [hnum, hblobs]
  rfl

/-- The database with one text in it. -/
def givenEngine (x : String) : Engine Crypto.clear :=
  (rangedEngine.executeStatement clearEnv (insertText x)).2

theorem insertText_accepted (x : String) :
    (rangedEngine.executeStatement clearEnv (insertText x)).1 = .ok (.inserted 1) ∧
      (givenEngine x).store.view = applyAll rangedEngine.store.view
        (rangedEngine.auditedBatch clearEnv (textPlan x)) := by
  have hp : program Crypto.clear () (insertText x) =
    .mutate (insert Crypto.clear () "t" none [[.text x]]) := rfl
  have hio : clearEnv.io = .ok := rfl
  have ho : rangedEngine.store.overlay = none := by decide +kernel
  obtain ⟨hres, tel, he⟩ := executeStatement_idle hio ho hp (run_insertText x) (by simp [textPlan])
  refine ⟨hres, ?_⟩
  rw [givenEngine, he, Store.view_of_none ho]
  exact (Store.map_write_ok _ _).2

/-- The data keys after the `INSERT`. -/
theorem getElem?_givenEngine (x : String) {key : Bytes} (hk : DataKey key) :
    (givenEngine x).store.view[key]? =
      if Crypto.clear.rangeIndexKey () "t" 0 = key then
        some (clearEnvelope (encodeRangeBlob [(.text x, 0)]))
      else if Crypto.clear.seqKey () "t" = key then some (clearEnvelope (leBytes 8 1))
      else if Crypto.clear.rowKey () "t" 0 = key then some (clearEnvelope (encodeRow [.text x]))
      else rangedEngine.store.view[key]? := by
  rw [(insertText_accepted x).2, Engine.auditedBatch, applyAll_append,
    getElem?_applyAll_auditWrites_of_dataKey _ _ _ _ hk]
  simp only [textPlan, addRow, addSeq, addRangeBlob, Crypto.sealWrites, applyAll_cons,
    applyAll_nil, Mutation.apply, getElem?_insert_eq]
  rfl

/-- The schema is still readable. -/
theorem schema_givenEngine (x : String) :
    (schema Crypto.clear () "t").run (givenEngine x).store.view.reader = .ok (some rangedSchema) := by
  have hget : (givenEngine x).store.view[Crypto.clear.catalogKey () "t"]? =
      rangedEngine.store.view[Crypto.clear.catalogKey () "t"]? := by
    have hk : DataKey (Crypto.clear.catalogKey () "t") := dataKey_catalogKey "t"
    rw [getElem?_givenEngine x hk, if_neg (by decide), if_neg (by decide), if_neg (by decide)]
  have hbefore : (schema Crypto.clear () "t").run rangedEngine.store.view.reader =
      .ok (some rangedSchema) := by
    rw [← Store.reader_eq]
    decide +kernel
  rw [← hbefore]
  simp only [schema, Query.run_bind, run_reader_fetch, ok_bind, hget]
  cases rangedEngine.store.view[Crypto.clear.catalogKey () "t"]? with
  | none => rfl
  | some sealed => simp only [Query.run_bind, Query.run_ofExcept, Query.run_pure]

/-- A text of `2 ^ 32 - 7` bytes, which a row can hold, is too long for a range index: the `INSERT`
is accepted, and the index does not decode any more. -/
theorem rangeIndex_truncated :
    let x := longName (2 ^ 32 - 7)
    let steps : List (Step Crypto.clear) := [.statement clearEnv textTable,
      .statement clearEnv textRange, .statement clearEnv (insertText x)]
    let e := (steps.foldl step clearSession).engine
    clearSession.Fresh ∧
      (rangedEngine.executeStatement clearEnv (insertText x)).1 = .ok (.inserted 1) ∧
      (schema Crypto.clear () "t").run e.store.view.reader = .ok (some rangedSchema) ∧
      rangedSchema.columns[0]? = some ⟨"a", .text, false, false, false, true⟩ ∧
      ∀ rows, ¬ IndexesExact Crypto.clear () e.store.view "t" rows 0
        ⟨"a", .text, false, false, false, true⟩ := by
  intro x steps e
  refine ⟨fresh_clearSession, (insertText_accepted x).1, schema_givenEngine x, rfl,
    fun rows hrows => ?_⟩
  obtain ⟨sealed, es, hget, hdecode, -⟩ := hrows.range rfl
  have hview : e.store.view = (givenEngine x).store.view := rfl
  have hk : DataKey (Crypto.clear.rangeIndexKey () "t" 0) := dataKey_rangeIndexKey "t" 0
  rw [hview, getElem?_givenEngine x hk, if_pos rfl] at hget
  cases hget
  have hopen : openValue Crypto.clear (Crypto.clear.tableKey () "t")
      (clearEnvelope (encodeRangeBlob [(.text x, 0)])) (Crypto.clear.rangeIndexKey () "t" 0) =
      .ok (encodeRangeBlob [(.text x, 0)]) :=
    congrArg Except.ok (List.drop_left' List.length_replicate)
  rw [hopen, ok_bind] at hdecode
  have hlen : (utf8 x).length = 2 ^ 32 - 7 := length_utf8_longName _
  have hfits : (Value.text x).Fits := by
    rw [Value.Fits, hlen]
    omega
  have hroom : [(Value.text x, (0 : UInt64))].length ≤ maxEntries := maxEntries_pos
  have hblob := ((decodeRangeBlob_eq_ok hroom (by simpa using hfits) (by simp [Value.NoVector])
    hdecode).2 _ List.mem_cons_self).2
  rw [encodeRow_text] at hblob
  simp only [List.length_append, List.length_cons, List.length_nil, length_leBytes, hlen] at hblob
  omega

/-- A run with an equality index on an INT column and a range index on a TEXT column. -/
theorem indexes_run_shelf :
    let e := (shelfSteps.foldl step clearSession).engine
    IndexesExact Crypto.clear () e.store.view "t" shelfRows 1
        ⟨"n", .int, false, false, true, false⟩ ∧
      IndexesExact Crypto.clear () e.store.view "t" shelfRows 2
        ⟨"x", .text, false, false, false, true⟩ := by
  intro e
  obtain ⟨rows, hrows, hexact⟩ := indexes_run shelfLexicon .volatile fresh_clearSession
    distinct_shelf shelfSteps ((regular_shelf fun _ _ => True).mono fun s a h =>
      ⟨⟨by rintro env st rfl; exact h.1.1, by rintro env p kdf rfl; exact h.1⟩, h.2⟩)
    e.store.view (by simp [e]) "t" (List.mem_singleton_self _) shelfSchema schema_shelf
  obtain rfl := Except.ok.inj (scanRows_shelf.symm.trans hrows)
  exact ⟨hexact 1 _ rfl (Or.inl rfl), hexact 2 _ rfl (Or.inr rfl)⟩

end Session

/-! ## Primary keys -/

/-- What a map that stores well-formed tables shows of a primary key. -/
theorem Stores.primaryKey (h : Stores L X mk m) (ht : t ∈ L.names)
    (hs : (schema C mk t).run m.reader = .ok (some s)) {pk : ℕ} {c : ColumnDef}
    (hc : s.columns[pk]? = some c) (hkey : c.primaryKey = true) (hX : X c.ty c.primaryKey) :
    ∃ rows, (scanRows C mk t).run m.reader = .ok rows ∧ (∀ e ∈ rows, e.2.cell pk ≠ .null) ∧
      rows.Pairwise fun a b => compareValues (a.2.cell pk) (b.2.cell pk) ≠ .eq := by
  obtain ⟨D, hrep, hwf⟩ := h
  obtain ⟨hcatalog, -⟩ := hrep.schema_of_run ht (hwf t ht) hs
  have hcontent := (hwf t ht).content s hcatalog
  have hcol := hcontent.columns pk c hc
  obtain ⟨es, hp, -, hscan⟩ := hrep.run_scanRows ht hcontent.fits
  have hlive : ∀ e ∈ es, (D t).live pk e.1 = some (e.2.cell pk) ∧ e.2.cell pk ≠ .null := by
    intro e he
    have hne := hcol.required hkey e.1 (by rw [hp.stored e he]; exact Option.some_ne_none _)
    rw [Table.live_of_row (hp.stored e he), Ne, Value.present_eq_none] at hne
    rw [Table.live_of_row (hp.stored e he)]
    exact ⟨Value.present_of_ne hne, hne⟩
  refine ⟨_, hscan, fun e he => ?_, ?_⟩
  · obtain ⟨x, hx, rfl⟩ := List.mem_map.mp he
    exact (hlive x hx).2
  · rw [keyed, List.pairwise_map]
    have hnodup : es.Pairwise fun a b => a.1 ≠ b.1 := List.pairwise_map.mp hp.nodup
    refine List.Pairwise.imp_of_mem (fun {a b} ha hb hne heq => hne ?_) hnodup
    have hab := (((hcontent.rows a.1 a.2 (hp.stored a ha)).typed pk c hc).ofType.compareValues_eq_iff
      ((hcontent.rows b.1 b.2 (hp.stored b hb)).typed pk c hc).ofType).mp heq
    have hb' := (hlive b hb).1
    rw [← hab] at hb'
    exact hcol.unique hkey hX a.1 b.1 _ (hlive a ha).1 hb'

namespace Session

/-- **Primary keys stay unique.** In every run whose statements stay within what the encodings can
carry and replace no REAL key by the other zero, every row has a key and no two keys compare
equal. -/
theorem primaryKeys_run (L : Lexicon) (mode : Mode) {s : Session C} (hs : s.Fresh)
    (hL : L.Distinct s.engine.master) (steps : List (Step C))
    (hrun : Along step (fun s a => Regular L (fun _ pk => pk = true) s a ∧ Clean mode s a) s steps) :
    let s' := steps.foldl step s
    ∀ m ∈ [s'.engine.store.backend.map, s'.engine.store.view], ∀ t ∈ L.names, ∀ sch,
      (schema C s'.engine.master t).run m.reader = .ok (some sch) →
      ∀ pk c, sch.columns[pk]? = some c → c.primaryKey = true →
      ∃ rows, (scanRows C s'.engine.master t).run m.reader = .ok rows ∧
        (∀ e ∈ rows, e.2.cell pk ≠ .null) ∧
        rows.Pairwise fun a b => compareValues (a.2.cell pk) (b.2.cell pk) ≠ .eq := by
  intro s' m hm t ht sch hsch pk c hc hkey
  obtain ⟨hbase, hview⟩ := stores_run (L := L) (X := fun _ pk => pk = true)
    (fun s env st h => ⟨h.1, Or.inl h.2⟩) (fun _ _ _ _ h => h) hs hL hrun
  simp only [List.mem_cons, List.not_mem_nil, or_false] at hm
  rcases hm with rfl | rfl
  · exact hbase.primaryKey ht hsch hc hkey hkey
  · exact hview.primaryKey ht hsch hc hkey hkey

/-- The zeros of REAL. -/
def zero : F64 := ⟨0⟩

def negZero : F64 := ⟨0x8000000000000000⟩

/-- `CREATE TABLE t (k REAL PRIMARY KEY); INSERT INTO t VALUES (0.0); UPDATE t SET k = -0.0;
INSERT INTO t VALUES (-0.0)`. -/
def zeroSteps : List (Step Crypto.clear) :=
  [.statement clearEnv (.createTable "t" [⟨"k", .real, false, true, false, false⟩]),
    .statement clearEnv (.insert "t" none [[.real zero]]),
    .statement clearEnv (.update "t" [⟨"k", .real negZero⟩] none),
    .statement clearEnv (.insert "t" none [[.real negZero]])]

/-- All four statements take effect. -/
example : (loadSeq Crypto.clear () "t").run
    (zeroSteps.foldl step clearSession).engine.store.reader = .ok 2 := by
  decide +kernel

/-- Both rows hold the key `-0.0` after the run. -/
theorem primaryKey_zeros :
    let s' := zeroSteps.foldl step clearSession
    clearSession.Fresh ∧
      (schema Crypto.clear () "t").run s'.engine.store.reader =
        .ok (some ⟨"t", [⟨"k", .real, false, true, false, false⟩]⟩) ∧
      (scanRows Crypto.clear () "t").run s'.engine.store.reader =
        .ok [(Crypto.clear.rowKey () "t" 0, [.real negZero]),
          (Crypto.clear.rowKey () "t" 1, [.real negZero])] ∧
      compareValues (.real negZero) (.real negZero) = .eq := by
  refine ⟨fresh_clearSession, ?_, ?_, ?_⟩ <;> decide +kernel

/-- A run in which an `INSERT` is refused and an `UPDATE` changes a key. -/
theorem primaryKeys_run_shelf :
    let e := (shelfSteps.foldl step clearSession).engine
    (scanRows Crypto.clear () "t").run e.store.view.reader = .ok shelfRows ∧
      (∀ x ∈ shelfRows, x.2.cell 0 ≠ .null) ∧
      shelfRows.Pairwise fun a b => compareValues (a.2.cell 0) (b.2.cell 0) ≠ .eq := by
  intro e
  obtain ⟨rows, hrows, hkeys⟩ := primaryKeys_run shelfLexicon .volatile fresh_clearSession
    distinct_shelf shelfSteps (regular_shelf _) e.store.view (by simp [e]) "t"
    (List.mem_singleton_self _) shelfSchema schema_shelf 0 _ rfl rfl
  obtain rfl := Except.ok.inj (scanRows_shelf.symm.trans hrows)
  exact ⟨hrows, hkeys⟩

end Session

end Ciphra
