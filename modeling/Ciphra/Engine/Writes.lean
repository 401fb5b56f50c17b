import Ciphra.Engine.Engine

/-!
# The keys a statement writes

The reserved records of a database (key-derivation parameters, canary, audit head and audit
entries) and the records of its tables live under different key prefixes. A plan writes only to the
latter (`KeySpace.program`, at `DataKey`), so the audit chain and the parameters change only where the engine
itself changes them.
-/

namespace Ciphra

open Query (Ensures)

/-- A key of a table's schema, sequence, row, index entry or range index. -/
def DataKey (key : Bytes) : Prop :=
  catalogPrefix <+: key ∨ seqPrefix <+: key ∨ rowsPrefix <+: key ∨ indexesPrefix <+: key ∨
    rangesPrefix <+: key

instance (key : Bytes) : Decidable (DataKey key) := inferInstanceAs (Decidable (_ ∨ _))

/-- A data key starts with one of a few bytes that no reserved key starts with. -/
theorem DataKey.head {key : Bytes} (h : DataKey key) :
    (key.take 4 = [0, 99, 97, 116]) ∨ (key.take 2 = [0, 115]) ∨ key.take 1 = [114] ∨
      key.take 1 = [120] ∨ key.take 1 = [122] := by
  rcases h with ⟨t, rfl⟩ | ⟨t, rfl⟩ | ⟨t, rfl⟩ | ⟨t, rfl⟩ | ⟨t, rfl⟩
  · exact Or.inl rfl
  · exact Or.inr (Or.inl rfl)
  · exact Or.inr (Or.inr (Or.inl rfl))
  · exact Or.inr (Or.inr (Or.inr (Or.inl rfl)))
  · exact Or.inr (Or.inr (Or.inr (Or.inr rfl)))

theorem not_dataKey_keyparamsKey : ¬ DataKey keyparamsKey := fun h => by
  have := h.head
  revert this
  decide

theorem not_dataKey_canaryKey : ¬ DataKey canaryKey := fun h => by
  have := h.head
  revert this
  decide

theorem not_dataKey_auditHeadKey : ¬ DataKey auditHeadKey := fun h => by
  have := h.head
  revert this
  decide

/-- No key of the audit chain is a data key. -/
theorem not_dataKey_of_auditPrefix {key : Bytes} (hp : auditPrefix <+: key) : ¬ DataKey key := by
  obtain ⟨t, rfl⟩ := hp
  intro h
  simpa [auditPrefix] using h.head

/-- The key of a write. -/
def Unsealed.key {C : Crypto} : Unsealed C → Bytes
  | .put key _ _ => key
  | .delete key => key

/-- A scan returns keys with the prefix it was asked for. -/
def Reader.Lawful (r : Reader Bytes Bytes) : Prop := ∀ p e, e ∈ r.scan p → p <+: e.1

theorem lawful_reader (m : ByteMap) : m.reader.Lawful := by
  rintro p ⟨k, x⟩ h
  exact ((m.mem_scanPrefix p k x).mp h).2

section

variable {C : Crypto} {mk : C.MasterKey}

/-- All writes go to keys of `K`. -/
def KeysIn (K : Bytes → Prop) (writes : List (Unsealed C)) : Prop := ∀ w ∈ writes, K w.key

/-- All writes go to data keys. -/
def DataWrites (writes : List (Unsealed C)) : Prop := ∀ w ∈ writes, DataKey w.key

theorem DataWrites.nil : DataWrites ([] : List (Unsealed C)) := fun _ h => by cases h

namespace KeysIn

variable {K : Bytes → Prop}

theorem append {ws ws' : List (Unsealed C)} (h : KeysIn K ws) (h' : KeysIn K ws') :
    KeysIn K (ws ++ ws') := by
  intro w hw
  rcases List.mem_append.mp hw with hw | hw
  · exact h w hw
  · exact h' w hw

theorem cons {w : Unsealed C} {ws : List (Unsealed C)} (hw : K w.key) (h : KeysIn K ws) :
    KeysIn K (w :: ws) := List.forall_mem_cons.mpr ⟨hw, h⟩

theorem nil : KeysIn K ([] : List (Unsealed C)) := fun _ h => by cases h

theorem flatMap {α : Type} {l : List α} {f : α → List (Unsealed C)}
    (h : ∀ a ∈ l, KeysIn K (f a)) : KeysIn K (l.flatMap f) := by
  intro w hw
  obtain ⟨a, ha, hw⟩ := List.mem_flatMap.mp hw
  exact h a ha w hw

theorem map {α : Type} {l : List α} {f : α → Unsealed C} (h : ∀ a ∈ l, K (f a).key) :
    KeysIn K (l.map f) := by
  intro w hw
  obtain ⟨a, ha, rfl⟩ := List.mem_map.mp hw
  exact h a ha

end KeysIn

/-! Every key built by the engine is a data key. -/

theorem dataKey_catalogKey (t : String) : DataKey (C.catalogKey mk t) :=
  Or.inl (List.prefix_append _ _)

theorem dataKey_seqKey (t : String) : DataKey (C.seqKey mk t) :=
  Or.inr (Or.inl (List.prefix_append _ _))

theorem dataKey_of_rowPrefix {t : String} {key : Bytes} (h : C.rowPrefix mk t <+: key) :
    DataKey key :=
  Or.inr (Or.inr (Or.inl ((List.prefix_append _ _).trans h)))

theorem dataKey_of_indexPrefix {t : String} {key : Bytes} (h : C.indexPrefix mk t <+: key) :
    DataKey key :=
  Or.inr (Or.inr (Or.inr (Or.inl ((List.prefix_append _ _).trans h))))

theorem dataKey_of_rangePrefix {t : String} {key : Bytes} (h : C.rangePrefix mk t <+: key) :
    DataKey key :=
  Or.inr (Or.inr (Or.inr (Or.inr ((List.prefix_append _ _).trans h))))

theorem rowPrefix_rowKey (t : String) (id : UInt64) : C.rowPrefix mk t <+: C.rowKey mk t id :=
  List.prefix_append _ _

theorem indexPrefix_indexColumnPrefix (t : String) (col : ℕ) :
    C.indexPrefix mk t <+: C.indexColumnPrefix mk t col := List.prefix_append _ _

theorem indexPrefix_indexKey (t : String) (col : ℕ) (v : Value) (id : UInt64) :
    C.indexPrefix mk t <+: C.indexKey mk t col v id :=
  (indexPrefix_indexColumnPrefix t col).trans
    ((List.prefix_append _ _).trans (List.prefix_append _ _))

theorem dataKey_rowKey (t : String) (id : UInt64) : DataKey (C.rowKey mk t id) :=
  dataKey_of_rowPrefix (rowPrefix_rowKey t id)

theorem dataKey_indexKey (t : String) (col : ℕ) (v : Value) (id : UInt64) :
    DataKey (C.indexKey mk t col v id) :=
  dataKey_of_indexPrefix (indexPrefix_indexKey t col v id)

theorem dataKey_rangeIndexKey (t : String) (col : ℕ) : DataKey (C.rangeIndexKey mk t col) :=
  dataKey_of_rangePrefix (List.prefix_append _ _)

/-! ## Statements -/

theorem ensures_sealRangeBlob {ok : Reader Bytes Bytes → Prop} (t : String) (col : ℕ)
    (es : List (Value × UInt64)) :
    Ensures ok (sealRangeBlob C mk t col es) fun blob => blob.key = C.rangeIndexKey mk t col :=
  Ensures.bind' fun _ => Ensures.pure rfl

/-- A set of keys that a statement does not leave: it has the keys the engine builds, and what a
scan of a table's records returns. -/
structure KeySpace (C : Crypto) (mk : C.MasterKey) (ok : Reader Bytes Bytes → Prop)
    (K : Bytes → Prop) : Prop where
  catalog : ∀ t, K (C.catalogKey mk t)
  seq : ∀ t, K (C.seqKey mk t)
  row : ∀ t id, K (C.rowKey mk t id)
  index : ∀ t col v id, K (C.indexKey mk t col v id)
  range : ∀ t col, K (C.rangeIndexKey mk t col)
  scan : ∀ r, ok r → ∀ p, DataKey p → ∀ e ∈ r.scan p, K e.1

theorem keySpace_dataKey : KeySpace C mk Reader.Lawful DataKey where
  catalog := dataKey_catalogKey
  seq := dataKey_seqKey
  row := dataKey_rowKey
  index := dataKey_indexKey
  range := dataKey_rangeIndexKey
  scan r hr p hp e he := by
    have hpre := hr p e he
    rcases hp with hp | hp | hp | hp | hp
    · exact Or.inl (hp.trans hpre)
    · exact Or.inr (Or.inl (hp.trans hpre))
    · exact Or.inr (Or.inr (Or.inl (hp.trans hpre)))
    · exact Or.inr (Or.inr (Or.inr (Or.inl (hp.trans hpre))))
    · exact Or.inr (Or.inr (Or.inr (Or.inr (hp.trans hpre))))

section

variable {ok : Reader Bytes Bytes → Prop} {P : Bytes × Row → Prop} {t : String}

/-- What holds of scanned rows and of rows fetched by their ids holds of the candidates. -/
theorem ensures_candidateRows (hscan : Ensures ok (scanRows C mk t) fun rows => ∀ e ∈ rows, P e)
    (hfetch : ∀ ids, Ensures ok (fetchRows C mk t ids) fun rows => ∀ e ∈ rows, P e)
    (s : TableSchema) (filter : Option CompiledExpr) :
    Ensures ok (candidateRows C mk t s filter) fun rows => ∀ e ∈ rows, P e := by
  unfold candidateRows
  split
  · exact hscan
  · split
    · exact Ensures.bind' fun ids => (hfetch ids).bind fun rows hrows =>
        Ensures.bind' fun _ => Ensures.pure hrows
    · split
      · exact Ensures.bind' fun entries => (hfetch _).bind fun rows hrows =>
          Ensures.bind' fun _ => Ensures.pure hrows
      · exact hscan.bind fun rows hrows => Ensures.bind' fun _ => Ensures.pure hrows

theorem ensures_matchingRows (hscan : Ensures ok (scanRows C mk t) fun rows => ∀ e ∈ rows, P e)
    (hfetch : ∀ ids, Ensures ok (fetchRows C mk t ids) fun rows => ∀ e ∈ rows, P e)
    (s : TableSchema) (filter : Option CompiledExpr) :
    Ensures ok (matchingRows C mk t s filter) fun rows => ∀ e ∈ rows, P e := by
  refine (ensures_candidateRows hscan hfetch s filter).bind fun rows hrows =>
    Ensures.bind' fun keep => Ensures.pure fun e he => ?_
  obtain ⟨p, hp, rfl⟩ := List.mem_map.mp he
  exact hrows _ (List.of_mem_zip (List.mem_filter.mp hp).1).1

end

namespace KeySpace

variable {ok : Reader Bytes Bytes → Prop} {K : Bytes → Prop}

theorem newEntries (h : KeySpace C mk ok K) (t : String) (cols : List ℕ) (row : Row)
    (id : UInt64) : KeysIn K (newEntries C mk t cols row id) :=
  KeysIn.map fun _ _ => h.index _ _ _ _

theorem entryDiff (h : KeySpace C mk ok K) (t : String) (col : ℕ) (old new : Value)
    (id : UInt64) : KeysIn K (entryDiff C mk t col old new id) := by
  rw [Ciphra.entryDiff]
  split
  · exact KeysIn.nil
  · refine KeysIn.append ?_ ?_ <;> split
    · exact KeysIn.nil
    · exact KeysIn.cons (h.index _ _ _ _) KeysIn.nil
    · exact KeysIn.nil
    · exact KeysIn.cons (h.index _ _ _ _) KeysIn.nil

/-- The entries of a scan of a table's records. -/
theorem entries (h : KeySpace C mk ok K) {p : Bytes} (hp : DataKey p) :
    Ensures (ε := EngineError) (ν := QueryNote) ok (Query.entries p)
      fun pairs => ∀ e ∈ pairs, K e.1 := by
  rintro r hr pairs hpairs
  cases hpairs
  exact h.scan r hr p hp

/-- Rows read by a statement come with keys of the set. -/
theorem scanRows (h : KeySpace C mk ok K) (t : String) :
    Ensures ok (scanRows C mk t) fun rows => ∀ e ∈ rows, K e.1 := by
  refine (h.entries (dataKey_of_rowPrefix List.prefix_rfl)).bind fun pairs hp => ?_
  refine Ensures.mapM fun e he => ?_
  rintro r - out hout
  rw [Query.run_ofExcept] at hout
  cases hrow : readRow C mk t e.1 e.2 with
  | error err =>
    rw [hrow] at hout
    cases hout
  | ok row =>
    rw [hrow] at hout
    cases hout
    exact hp e he

theorem fetchRows (h : KeySpace C mk ok K) (t : String) (ids : List UInt64) :
    Ensures ok (fetchRows C mk t ids) fun rows => ∀ e ∈ rows, K e.1 := by
  refine Ensures.bind (P := fun rows => ∀ r ∈ rows, ∀ e ∈ r, K e.1) ?_ fun rows hrows => ?_
  · refine Ensures.mapM fun id _ => Ensures.bind' fun found => ?_
    cases found with
    | none => exact Ensures.pure (by simp)
    | some sealed =>
      refine Ensures.bind' fun row => Ensures.pure ?_
      rintro e ⟨⟩
      exact h.row t id
  · refine Ensures.pure fun e he => ?_
    obtain ⟨r, hr, he⟩ := List.mem_filterMap.mp he
    exact hrows r hr e he

theorem matchingRows (h : KeySpace C mk ok K) (t : String) (s : TableSchema)
    (filter : Option CompiledExpr) :
    Ensures ok (matchingRows C mk t s filter) fun rows => ∀ e ∈ rows, K e.1 :=
  ensures_matchingRows (h.scanRows t) (h.fetchRows t) s filter

theorem sealRangeBlob (h : KeySpace C mk ok K) (t : String) (col : ℕ)
    (es : List (Value × UInt64)) :
    Ensures ok (sealRangeBlob C mk t col es) fun blob => K blob.key :=
  (ensures_sealRangeBlob t col es).imp fun _ hkey => hkey ▸ h.range t col

/-- Range indexes rebuilt column by column. -/
theorem blobs (h : KeySpace C mk ok K) (t : String) (cols : List ℕ)
    (f : ℕ → List (Value × UInt64) → List (Value × UInt64)) :
    Ensures ok (cols.mapM fun col => do
      let entries ← loadRangeIndex C mk t col
      Ciphra.sealRangeBlob C mk t col (f col entries)) (KeysIn K) :=
  Ensures.mapM fun _ _ => Ensures.bind' fun _ => h.sealRangeBlob t _ _

theorem createTable (h : KeySpace C mk ok K) (name : String) (columns : List ColumnDef) :
    Ensures ok (createTable C mk name columns) fun plan => KeysIn K plan.writes := by
  refine Ensures.bind' fun _ => Ensures.bind' fun _ => ?_
  split
  · exact Ensures.fail _ _
  · refine Ensures.bind' fun _ => ?_
    split
    · exact Ensures.fail _ _
    · exact Ensures.pure (KeysIn.cons (h.catalog _) KeysIn.nil)

theorem createIndex (h : KeySpace C mk ok K) (t column : String) :
    Ensures ok (createIndex C mk t column) fun plan => KeysIn K plan.writes := by
  refine Ensures.bind' fun s => Ensures.bind' fun col => ?_
  split
  · exact Ensures.fail _ _
  · refine Ensures.bind' fun _ => Ensures.bind' fun _ => Ensures.bind' fun _ =>
      Ensures.bind' fun rows => Ensures.pure ?_
    exact (KeysIn.flatMap fun e _ => h.newEntries _ _ _ _).append
      (KeysIn.cons (h.catalog _) KeysIn.nil)

theorem dropIndex (h : KeySpace C mk ok K) (t column : String) :
    Ensures ok (dropIndex C mk t column) fun plan => KeysIn K plan.writes := by
  refine Ensures.bind' fun s => Ensures.bind' fun col => ?_
  split
  · exact Ensures.fail _ _
  · have hp : DataKey (C.indexColumnPrefix mk t col) :=
      dataKey_of_indexPrefix (indexPrefix_indexColumnPrefix t col)
    refine Ensures.bind' fun _ => (h.entries hp).bind fun pairs hpairs => Ensures.pure ?_
    exact (KeysIn.map hpairs).append (KeysIn.cons (h.catalog _) KeysIn.nil)

theorem createRangeIndex (h : KeySpace C mk ok K) (t column : String) :
    Ensures ok (createRangeIndex C mk t column) fun plan => KeysIn K plan.writes := by
  refine Ensures.bind' fun s => Ensures.bind' fun col => ?_
  split
  · exact Ensures.fail _ _
  · refine Ensures.bind' fun _ => Ensures.bind' fun _ => Ensures.bind' fun rows =>
      (h.sealRangeBlob t _ _).bind fun blob hblob => Ensures.pure ?_
    exact KeysIn.cons hblob (KeysIn.cons (h.catalog _) KeysIn.nil)

theorem dropRangeIndex (h : KeySpace C mk ok K) (t column : String) :
    Ensures ok (dropRangeIndex C mk t column) fun plan => KeysIn K plan.writes := by
  refine Ensures.bind' fun s => Ensures.bind' fun col => ?_
  split
  · exact Ensures.fail _ _
  · refine Ensures.bind' fun _ => Ensures.pure ?_
    exact KeysIn.cons (h.range _ _) (KeysIn.cons (h.catalog _) KeysIn.nil)

theorem dropTable (h : KeySpace C mk ok K) (name : String) :
    Ensures ok (dropTable C mk name) fun plan => KeysIn K plan.writes := by
  refine Ensures.bind' fun _ =>
    (h.entries (dataKey_of_rowPrefix List.prefix_rfl)).bind fun rows hrows =>
    (h.entries (dataKey_of_indexPrefix List.prefix_rfl)).bind fun indexes hindexes =>
    (h.entries (dataKey_of_rangePrefix List.prefix_rfl)).bind fun ranges hranges => Ensures.pure ?_
  refine (KeysIn.map fun e he => ?_).append
    (KeysIn.cons (h.seq _) (KeysIn.cons (h.catalog _) KeysIn.nil))
  rcases List.mem_append.mp he with he | he
  · exact (List.mem_append.mp he).elim (hrows e) (hindexes e)
  · exact hranges e he

theorem insert (h : KeySpace C mk ok K) (t : String) (columns : Option (List String))
    (rows : List (List Literal)) :
    Ensures ok (insert C mk t columns rows) fun plan => KeysIn K plan.writes := by
  refine Ensures.bind' fun s => Ensures.bind' fun positions => Ensures.bind' fun batch =>
    Ensures.bind' fun first => (h.blobs t _ _).bind fun blobs hblobs => Ensures.pure ?_
  refine (KeysIn.flatMap fun e _ => ?_).append (KeysIn.cons (h.seq _) hblobs)
  exact KeysIn.cons (h.row _ _) (h.newEntries _ _ _ _)

theorem update (h : KeySpace C mk ok K) (t : String) (assignments : List Assignment)
    (predicate : Option Expr) :
    Ensures ok (update C mk t assignments predicate) fun plan => KeysIn K plan.writes := by
  refine Ensures.bind' fun s => Ensures.bind' fun filter => Ensures.bind' fun resolved =>
    (h.matchingRows t s filter).bind fun rows hrows => ?_
  refine Ensures.bind' fun _ => (h.blobs t _ _).bind fun blobs hblobs => Ensures.pure ?_
  refine KeysIn.append (KeysIn.flatMap fun e he => ?_) hblobs
  refine KeysIn.append (KeysIn.flatMap fun col _ => h.entryDiff _ _ _ _ _) ?_
  exact KeysIn.cons (hrows e he) KeysIn.nil

theorem delete (h : KeySpace C mk ok K) (t : String) (predicate : Option Expr) :
    Ensures ok (delete C mk t predicate) fun plan => KeysIn K plan.writes := by
  refine Ensures.bind' fun s => Ensures.bind' fun filter =>
    (h.matchingRows t s filter).bind fun rows hrows =>
    (h.blobs t _ _).bind fun blobs hblobs => Ensures.pure ?_
  refine (KeysIn.flatMap fun e he => ?_).append hblobs
  refine KeysIn.append (KeysIn.map fun col _ => ?_) ?_
  · exact h.index _ _ _ _
  · exact KeysIn.cons (hrows e he) KeysIn.nil

/-- **A statement does not leave the set.** -/
theorem program (h : KeySpace C mk ok K) {statement : Statement} {q : Read (Plan C)}
    (hp : program C mk statement = .mutate q) : Ensures ok q fun plan => KeysIn K plan.writes := by
  unfold Ciphra.program at hp
  split at hp <;> cases hp
  · exact h.createTable _ _
  · exact h.dropTable _
  · exact h.createIndex _ _
  · exact h.createRangeIndex _ _
  · exact h.dropIndex _ _
  · exact h.dropRangeIndex _ _
  · exact h.insert _ _ _
  · exact h.update _ _ _
  · exact h.delete _ _

/-- Nor does the rebuilding of a table. -/
theorem rebuildTable (h : KeySpace C mk ok K) (t : TableSnapshot) :
    KeysIn K (rebuildTable C mk t) := by
  refine KeysIn.cons (h.catalog _) (KeysIn.cons (h.seq _) ?_)
  refine (KeysIn.flatMap fun e _ => ?_).append (KeysIn.map fun col _ => h.range _ _)
  exact KeysIn.cons (h.row _ _) (h.newEntries _ _ _ _)

end KeySpace

/-- The entries of a scan have the prefix asked for. -/
theorem entries_keys (p : Bytes) :
    Ensures (ε := EngineError) (ν := QueryNote) Reader.Lawful (Query.entries p)
      fun pairs => ∀ e ∈ pairs, p <+: e.1 := by
  rintro r hr pairs h
  cases h
  exact hr p

/-- The writes of the plan go to data keys. -/
def DataPlan (plan : Plan C) : Prop := DataWrites plan.writes

/-- A statement writes only to data keys. -/
theorem program_dataKeys {statement : Statement} {q : Read (Plan C)}
    (h : program C mk statement = .mutate q) : Ensures Reader.Lawful q DataPlan :=
  keySpace_dataKey.program h

/-- So does the rebuilding of a table. -/
theorem rebuildTable_dataKeys (t : TableSnapshot) : DataWrites (rebuildTable C mk t) :=
  keySpace_dataKey.rebuildTable t

end

end Ciphra
