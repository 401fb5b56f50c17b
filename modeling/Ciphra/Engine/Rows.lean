import Ciphra.Engine.Mutations

/-!
# Range indexes and `INSERT`

Range indexes are brought up to date row by row. `tracks_move` is the step of a row that changes,
and `tracks_moves`, `tracks_drops` and `tracks_adds` are its runs over the rows of an `UPDATE`, a
`DELETE` and an `INSERT`. With them an `INSERT` comes out as row changes: `insert_changes`.
-/

namespace Ciphra

open OrdMap

variable {C : Crypto} {L : Lexicon} {X : Exactness} {mk : C.MasterKey} {m : ByteMap}
  {D : String → Table} {t : String} {T T' : Table} {s : TableSchema}

/-! ## Range indexes, one row at a time -/

section

variable {exact : Prop} {f : UInt64 → Option Value} {es : List (Value × UInt64)} {ty : DataType}

theorem HasType.notVector {v : Value} (h : v.HasType ty) (hty : ∀ d, ty ≠ .vector d)
    (x : List F32) : v ≠ .vector x := by
  rintro rfl
  cases ty with
  | vector d => exact hty d rfl
  | int | real | text => exact h

theorem agrees_self {v : Value} (h : v.HasType ty) (hty : ∀ d, ty ≠ .vector d) :
    Agrees exact v v := ⟨Value.beq_self h hty, fun _ => rfl⟩

/-- A row without its old value. -/
theorem tracks_drop (h : Tracks (Agrees exact) f es) {id : UInt64} {old : Value}
    (hf : f id = old.present) :
    Tracks (Agrees exact) (Function.update f id none) (dropEntry id old es) := by
  rcases hold : old.present with _ | a
  · -- no entry has this id, so none is dropped
    rw [hold] at hf
    have hall : dropEntry id old es = es := by
      refine List.filter_eq_self.mpr ?_
      rintro ⟨b, i⟩ hb
      obtain ⟨a, ha, -⟩ := h.sound b i hb
      have hi : i ≠ id := by
        rintro rfl
        rw [hf] at ha
        cases ha
      simp [hi]
    rw [hall, ← hf, Function.update_eq_self]
    exact h
  · obtain ⟨rfl, -⟩ := Value.present_eq_some.mp hold
    rw [hold] at hf
    refine h.remove hf (fun b hb => ?_) fun b j hj => ?_
    · simp [hb.1]
    · simp [hj]

/-- **A row that changes from `old` to `new`.** -/
theorem tracks_move (h : Tracks (Agrees exact) f es) {id : UInt64} {old new : Value}
    (hf : f id = old.present) (hty : ∀ d, ty ≠ .vector d) (hes : ∀ e ∈ es, e.1.HasType ty)
    (hnew : new.HasType ty) (hexact : exact → old.beq new = true → old = new) :
    Tracks (Agrees exact) (Function.update f id new.present) (moveEntry id old new es) := by
  rw [moveEntry]
  split
  · rename_i hbeq
    refine h.congr fun i => ?_
    by_cases hi : i = id
    · subst hi
      rw [hf, Function.update_self]
      by_cases hold : old = .null
      · subst hold
        rw [Value.beq_null_left, Value.isNull_iff] at hbeq
        rw [hbeq]
        exact Or.inl ⟨rfl, rfl⟩
      · have hne : new ≠ .null := by
          rintro rfl
          rw [Value.beq_null_right, Value.isNull_iff] at hbeq
          exact hold hbeq
        refine Or.inr ⟨old, new, Value.present_of_ne hold, Value.present_of_ne hne,
          fun b hb hba => ⟨?_, fun hx => (hba.2 hx).trans (hexact hx hbeq)⟩⟩
        exact Value.beq_trans (HasType.notVector (hes _ hb) hty) hba.1 hbeq
    · rw [Function.update_of_ne hi]
      rcases hfi : f i with _ | a
      · exact Or.inl ⟨rfl, rfl⟩
      · exact Or.inr ⟨a, a, rfl, rfl, fun _ _ hb => hb⟩
  · have hdrop := tracks_drop h hf
    rcases hpresent : new.present with _ | a
    · rw [Value.present_eq_none] at hpresent
      subst hpresent
      rw [Value.isNull, if_pos rfl, List.append_nil]
      exact hdrop
    · obtain ⟨rfl, hne⟩ := Value.present_eq_some.mp hpresent
      rw [if_neg (by simpa using hne)]
      have hadd := hdrop.add (Function.update_self ..) (agrees_self hnew hty)
      rwa [Function.update_idem] at hadd

theorem forall_mem_moveEntry {Q : Value → Prop} {id : UInt64} {old new : Value}
    (hes : ∀ e ∈ es, Q e.1) (hnew : Q new) : ∀ e ∈ moveEntry id old new es, Q e.1 := by
  intro e he
  rw [moveEntry] at he
  split at he
  · exact hes e he
  · rcases List.mem_append.mp he with he | he
    · exact hes e (List.mem_filter.mp he).1
    · split at he
      · cases he
      · rw [List.mem_singleton.mp he]
        exact hnew

/-- Rows that change one after the other. -/
theorem tracks_moves (h : Tracks (Agrees exact) f es) (moves : List (UInt64 × Value × Value))
    (hn : (moves.map Prod.fst).Nodup) (hf : ∀ mv ∈ moves, f mv.1 = mv.2.1.present)
    (hty : ∀ d, ty ≠ .vector d) {Q : Value → Prop} (hQ : ∀ v, Q v → v.HasType ty)
    (hes : ∀ e ∈ es, Q e.1) (hnew : ∀ mv ∈ moves, Q mv.2.2)
    (hexact : exact → ∀ mv ∈ moves, mv.2.1.beq mv.2.2 = true → mv.2.1 = mv.2.2) :
    Tracks (Agrees exact) (assignAll f (moves.map fun mv => (mv.1, mv.2.2.present)))
        (moves.foldl (fun es mv => moveEntry mv.1 mv.2.1 mv.2.2 es) es) ∧
      ∀ e ∈ moves.foldl (fun es mv => moveEntry mv.1 mv.2.1 mv.2.2 es) es, Q e.1 := by
  induction moves generalizing f es with
  | nil => exact ⟨h, hes⟩
  | cons mv moves ih =>
    obtain ⟨id, old, new⟩ := mv
    rw [List.map_cons, List.nodup_cons] at hn
    have hnewv : Q new := hnew _ List.mem_cons_self
    rw [List.map_cons, assignAll_cons, List.foldl_cons]
    refine ih (tracks_move h (hf _ List.mem_cons_self) hty (fun e he => hQ _ (hes e he))
      (hQ _ hnewv) fun hx => hexact hx _ List.mem_cons_self) hn.2 ?_ ?_ ?_ ?_
    · intro mv hmv
      rw [Function.update_of_ne]
      · exact hf mv (List.mem_cons_of_mem _ hmv)
      · intro heq
        exact hn.1 (heq ▸ List.mem_map_of_mem hmv)
    · exact forall_mem_moveEntry hes hnewv
    · exact fun mv hmv => hnew mv (List.mem_cons_of_mem _ hmv)
    · exact fun hx mv hmv => hexact hx mv (List.mem_cons_of_mem _ hmv)

/-- Rows that go one after the other. -/
theorem tracks_drops (h : Tracks (Agrees exact) f es) (drops : List (UInt64 × Value))
    (hn : (drops.map Prod.fst).Nodup) (hf : ∀ d ∈ drops, f d.1 = d.2.present) :
    Tracks (Agrees exact) (assignAll f (drops.map fun d => (d.1, none)))
        (drops.foldl (fun es d => dropEntry d.1 d.2 es) es) ∧
      (drops.foldl (fun es d => dropEntry d.1 d.2 es) es).Sublist es := by
  induction drops generalizing f es with
  | nil => exact ⟨h, List.Sublist.refl es⟩
  | cons d drops ih =>
    rw [List.map_cons, List.nodup_cons] at hn
    rw [List.map_cons, assignAll_cons, List.foldl_cons]
    have hrest := ih (tracks_drop h (hf d List.mem_cons_self)) hn.2 fun d' hd' => by
      rw [Function.update_of_ne]
      · exact hf d' (List.mem_cons_of_mem _ hd')
      · intro heq
        exact hn.1 (heq ▸ List.mem_map_of_mem hd')
    exact ⟨hrest.1, hrest.2.trans List.filter_sublist⟩

/-- Rows that come one after the other. -/
theorem tracks_adds (h : Tracks (Agrees exact) f es) {col : ℕ} {rows : List (UInt64 × Row)}
    (hn : (rows.map Prod.fst).Nodup) (hf : ∀ e ∈ rows, f e.1 = none) (hty : ∀ d, ty ≠ .vector d)
    (hrows : ∀ e ∈ rows, (e.2.cell col).HasType ty) :
    Tracks (Agrees exact) (assignAll f (rows.map fun e => (e.1, (e.2.cell col).present)))
      (es ++ rangeEntriesOf col rows) := by
  induction rows generalizing f es with
  | nil =>
    rw [rangeEntriesOf, List.filter_nil, List.map_nil, List.map_nil, List.append_nil]
    exact h
  | cons e rows ih =>
    obtain ⟨id, row⟩ := e
    rw [List.map_cons, List.nodup_cons] at hn
    have hrest : ∀ e ∈ rows, ∀ x, Function.update f id x e.1 = none := by
      intro e he x
      rw [Function.update_of_ne]
      · exact hf e (List.mem_cons_of_mem _ he)
      · intro heq
        exact hn.1 (List.mem_map.mpr ⟨e, he, heq⟩)
    have hrows' := fun e he => hrows e (List.mem_cons_of_mem _ he)
    have hnone : f id = none := hf _ List.mem_cons_self
    rw [List.map_cons, assignAll_cons]
    rcases hpresent : (row.cell col).present with _ | v
    · have hnull := Value.present_eq_none.mp hpresent
      have hskip : rangeEntriesOf col ((id, row) :: rows) = rangeEntriesOf col rows := by
        simp [rangeEntriesOf, hnull, Value.isNull]
      rw [hskip, ← hnone, Function.update_eq_self]
      exact ih h hn.2 (fun e he => hf e (List.mem_cons_of_mem _ he)) hrows'
    · obtain ⟨hv, hne⟩ := Value.present_eq_some.mp hpresent
      have hcons : rangeEntriesOf col ((id, row) :: rows) = (v, id) :: rangeEntriesOf col rows := by
        have hnull : v.isNull = false := by rwa [← Bool.not_eq_true, Value.isNull_iff]
        simp [rangeEntriesOf, hv, hnull]
      have hself : Agrees exact v v := agrees_self (hv ▸ hrows _ List.mem_cons_self) hty
      rw [hcons, List.append_cons]
      exact ih (h.add hnone hself) hn.2 (fun e he => hrest e he _) hrows'

end

/-- A range index built from all rows. -/
theorem tracks_rangeEntriesOf (hT : Content L X s T)
    {es : List (UInt64 × Row)} (hp : Picked T es)
    (hall : ∀ id row, T (.row id) = some row → (id, row) ∈ es) {col : ℕ} {c : ColumnDef}
    (hc : s.columns[col]? = some c) (hty : ∀ d, c.ty ≠ .vector d) :
    Tracks (Agrees (X c.ty c.primaryKey)) (T.live col) (sortRangeEntries (rangeEntriesOf col es)) ∧
      ((sortRangeEntries (rangeEntriesOf col es)).Pairwise fun a b => entryLe a b = true) ∧
      ∀ e ∈ sortRangeEntries (rangeEntriesOf col es), e.1.HasType c.ty ∧ e.1.BlobFits := by
  have hok : ∀ e ∈ es, RowOk L s e.2 := fun e he => hT.rows e.1 e.2 (hp.stored e he)
  have hlive : T.live col =
      assignAll (fun _ => none) (es.map fun e => (e.1, (e.2.cell col).present)) := by
    refine eq_assignAll ?_ (fun e he => ?_) fun id hid => ?_
    · rw [List.map_map]
      exact hp.nodup
    · obtain ⟨e', he', rfl⟩ := List.mem_map.mp he
      exact Table.live_of_row (hp.stored e' he') col
    · cases hrow : T (.row id) with
      | none => exact Table.live_of_none hrow col
      | some row => exact absurd rfl (hid _ (List.mem_map_of_mem (hall id row hrow)))
  have htracks := tracks_adds (Tracks.nil (r := Agrees (X c.ty c.primaryKey))) hp.nodup
    (fun _ _ => rfl) hty fun e he => (hok e he).typed col c hc
  rw [← hlive, List.nil_append] at htracks
  have htyped : ∀ e ∈ rangeEntriesOf col es, e.1.HasType c.ty ∧ e.1.BlobFits := by
    intro e he
    obtain ⟨e', he', rfl⟩ := List.mem_map.mp he
    have hmem := (List.mem_filter.mp he').1
    exact ⟨(hok e' hmem).typed col c hc, ((hok e' hmem).storable_cell col).blobFits⟩
  exact ⟨htracks.perm (perm_sortRangeEntries _), pairwise_sortRangeEntries fun e he =>
    (htyped e he).1, fun e he => htyped e ((perm_sortRangeEntries _).mem_iff.mp he)⟩

theorem guardRead_eq_ok {r : Reader Bytes Bytes} {p : Prop} [Decidable p] {e : EngineError}
    {u : Unit} (h : (guardRead p e).run r = .ok u) : p := by
  unfold guardRead at h
  split at h
  · assumption
  · cases h

/-- What is sealed fits into a vector. -/
theorem sealRangeBlob_eq_ok {r : Reader Bytes Bytes} {col : ℕ} {es : List (Value × UInt64)}
    {blob : Unsealed C} (h : (sealRangeBlob C mk t col es).run r = .ok blob) :
    blob = addRangeBlob C mk t col es ∧ es.length ≤ maxEntries := by
  rw [sealRangeBlob, Query.run_bind_eq_ok] at h
  obtain ⟨_, hroom, h⟩ := h
  cases h
  exact ⟨rfl, guardRead_eq_ok hroom⟩

/-- Reading range indexes and writing them back changed. -/
theorem Rep.blobs_of_run (h : Rep L mk m D) (ht : t ∈ L.names) (hc : Content L X s (D t))
    (hs : SchemaFits s) {cols : List ℕ} (hcols : ∀ col ∈ cols, col ∈ s.rangeIndexedColumns)
    (F : ℕ → List (Value × UInt64) → List (Value × UInt64)) {blobs : List (Unsealed C)}
    (hrun : (cols.mapM fun col => do
      let entries ← loadRangeIndex C mk t col
      sealRangeBlob C mk t col (F col entries)).run m.reader = .ok blobs) :
    blobs = (cols.map fun col => (⟨.range col, some (F col ((D t (.range col)).getD []))⟩ :
        Patch Slot.Payload)).map (Patch.unsealed C mk t) ∧
      ∀ col ∈ cols, (F col ((D t (.range col)).getD [])).length ≤ maxEntries := by
  rw [Query.run_mapM] at hrun
  induction cols generalizing blobs with
  | nil =>
    cases hrun
    exact ⟨rfl, by simp⟩
  | cons col cols ih =>
    obtain ⟨c, hcol, -⟩ :=
      TableSchema.mem_rangeIndexedColumns.mp (hcols col List.mem_cons_self)
    have hload := h.run_loadRangeIndex ht (hs.col_lt hcol) fun _ he => hc.decodeRangeBlob he
    rw [List.mapM_cons, Query.run_bind, hload, ok_bind] at hrun
    obtain ⟨blob, hblob, hrun⟩ := bind_eq_ok.mp hrun
    obtain ⟨rest, hrest, hrun⟩ := bind_eq_ok.mp hrun
    cases hrun
    obtain ⟨rfl, hroom⟩ := sealRangeBlob_eq_ok hblob
    obtain ⟨rfl, hrooms⟩ := ih (fun col' hcol' => hcols col' (List.mem_cons_of_mem _ hcol')) hrest
    exact ⟨rfl, List.forall_mem_cons.mpr ⟨hroom, hrooms⟩⟩

/-- What a batch leaves in a range index. -/
theorem patchAll_blobs {cols : List ℕ} {F : ℕ → List (Value × UInt64)} {col : ℕ} :
    patchAll T (cols.map fun col => (⟨.range col, some (F col)⟩ : Patch Slot.Payload))
      (.range col) = if col ∈ cols then some (F col) else T (.range col) := by
  split
  · rename_i hcol
    refine patchAll_of_mem (List.mem_map.mpr ⟨col, hcol, rfl⟩) fun v hv => ?_
    obtain ⟨col', -, he⟩ := List.mem_map.mp hv
    cases he
    rfl
  · rename_i hcol
    refine patchAll_of_notMem fun w hw he => ?_
    obtain ⟨col', hcol', rfl⟩ := List.mem_map.mp hw
    cases he
    exact hcol hcol'

theorem patchAll_blobs_seq {cols : List ℕ} {F : ℕ → List (Value × UInt64)} :
    patchAll T (cols.map fun col => (⟨.range col, some (F col)⟩ : Patch Slot.Payload)) .seq =
      T .seq := by
  refine patchAll_of_notMem fun w hw he => ?_
  obtain ⟨col, -, rfl⟩ := List.mem_map.mp hw
  cases he

/-! ## `INSERT` -/

theorem Row.cell_set (row : Row) (i : ℕ) (v : Value) (col : ℕ) :
    Row.cell (row.set i v) col = if i = col ∧ col < row.length then v else row.cell col := by
  simp only [Row.cell, List.getD_eq_getElem?_getD, List.getElem?_set]
  by_cases hi : i = col
  · subst hi
    by_cases hlt : i < row.length
    · simp [hlt]
    · simp [hlt]
  · simp [hi]

theorem RowOk.set {row : Row} (h : RowOk L s row) {i : ℕ} {c : ColumnDef}
    (hc : s.columns[i]? = some c) {v : Value} (hty : v.HasType c.ty) (hv : Storable L v) :
    RowOk L s (row.set i v) where
  length := by rw [List.length_set, h.length]
  short := by rw [List.length_set]; exact h.short
  typed col c' hc' := by
    rw [Row.cell_set]
    split
    · rename_i hcol
      rw [hcol.1] at hc
      rw [hc] at hc'
      cases hc'
      exact hty
    · exact h.typed col c' hc'
  storable w hw := by
    rcases List.mem_or_eq_of_mem_set hw with hw | rfl
    · exact h.storable w hw
    · exact hv

/-- The literals may be stored. -/
def LiteralsOk (L : Lexicon) (ls : List Literal) : Prop :=
  ∀ l ∈ ls, l.Lexed ∧ ∀ v ∈ l.values, v ∈ L.values ∧ v.BlobFits

theorem LiteralsOk.storable {ls : List Literal} (h : LiteralsOk L ls) {l : Literal} (hl : l ∈ ls)
    {c : ColumnDef} {v : Value} (hv : coerce l c = .ok v) : v.HasType c.ty ∧ Storable L v :=
  ⟨Value.hasType_coerce (h l hl).1 hv, (coerce_mem hv).imp_right ((h l hl).2 v)⟩

/-- A new row has the shape of the schema. -/
theorem rowOk_fillRow (hs : SchemaFits s) {positions : List ℕ} {literals : List Literal}
    (hl : LiteralsOk L literals) {row : Row} (h : fillRow s positions literals = .ok row) :
    RowOk L s row := by
  have hstart : RowOk L s (List.replicate s.columns.length .null) := by
    have hcell : ∀ col, Row.cell (List.replicate s.columns.length .null) col = .null := by
      intro col
      rw [Row.cell, List.getD_eq_getElem?_getD, List.getElem?_replicate]
      split <;> rfl
    refine ⟨List.length_replicate, ?_, fun col c _ => ?_, fun v hv => ?_⟩
    · rw [List.length_replicate]
      exact hs.ncols
    · rw [hcell]
      exact Value.hasType_null _
    · exact Or.inl (List.eq_of_mem_replicate hv)
  have hpairs : ∀ e ∈ positions.zip literals, e.2 ∈ literals :=
    fun e he => (List.of_mem_zip he).2
  rw [fillRow] at h
  generalize List.replicate s.columns.length Value.null = start at h hstart
  generalize positions.zip literals = pairs at h hpairs
  induction pairs generalizing start with
  | nil =>
    cases h
    exact hstart
  | cons e pairs ih =>
    rw [List.foldlM_cons] at h
    obtain ⟨next, hnext, h⟩ := bind_eq_ok.mp h
    refine ih next ?_ h fun e' he' => hpairs e' (List.mem_cons_of_mem _ he')
    rw [setCell] at hnext
    split at hnext
    · cases hnext
    · rename_i c hc
      obtain ⟨v, hv, hset⟩ := bind_eq_ok.mp hnext
      cases hset
      obtain ⟨hty, hst⟩ := hl.storable (hpairs e List.mem_cons_self) hv
      exact hstart.set hc hty hst

/-- The primary keys of new rows: given, distinct and not in the table. -/
structure FreshKeys (C : Crypto) (mk : C.MasterKey) (t : String) (r : Reader Bytes Bytes) (pk : ℕ)
    (seen : List Bytes) (batch : List Row) : Prop where
  given : ∀ row ∈ batch, row.cell pk ≠ .null
  absent : ∀ row ∈ batch, (indexRowids C mk t pk (row.cell pk)).run r = .ok []
  unseen : ∀ row ∈ batch, C.indexValuePrefix mk t pk (row.cell pk) ∉ seen
  nodup : (batch.map fun row => C.indexValuePrefix mk t pk (row.cell pk)).Nodup

theorem checkKey_eq_ok {r : Reader Bytes Bytes} {pk : ℕ} {v : Value} {seen seen' : List Bytes}
    (h : (checkKey C mk t s pk v seen).run r = .ok seen') :
    v ≠ .null ∧ C.indexValuePrefix mk t pk v ∉ seen ∧ (indexRowids C mk t pk v).run r = .ok [] ∧
      seen' = C.indexValuePrefix mk t pk v :: seen := by
  simp only [checkKey, Query.run_bind_eq_ok, Query.run_pure] at h
  obtain ⟨_, hnull, _, hseen, holders, hrun, _, hnone, he⟩ := h
  have hnull := guardRead_eq_ok hnull
  obtain rfl := guardRead_eq_ok hnone
  refine ⟨?_, guardRead_eq_ok hseen, hrun, (Except.ok.inj he).symm⟩
  rintro rfl
  cases hnull

theorem exists_of_forall₂ {α β : Type} {R : α → β → Prop} {l : List α} {l' : List β}
    (h : List.Forall₂ R l l') {b : β} (hb : b ∈ l') : ∃ a ∈ l, R a b := by
  induction h with
  | nil => cases hb
  | cons hab _ ih =>
    rcases List.mem_cons.mp hb with rfl | hb
    · exact ⟨_, List.mem_cons_self, hab⟩
    · obtain ⟨a, ha, hR⟩ := ih hb
      exact ⟨a, List.mem_cons_of_mem _ ha, hR⟩

/-- **What validation lets through.** -/
theorem validateRows_eq_ok {r : Reader Bytes Bytes} {positions : List ℕ}
    {literals : List (List Literal)} {seen : List Bytes} {batch : List Row}
    (h : (validateRows C mk t s positions literals seen).run r = .ok batch) :
    List.Forall₂ (fun ls row => ls.length = positions.length ∧ fillRow s positions ls = .ok row)
        literals batch ∧
      ∀ pk, s.pkColumn = some pk → FreshKeys C mk t r pk seen batch := by
  induction literals generalizing seen batch with
  | nil =>
    cases h
    exact ⟨.nil, fun pk _ => ⟨by simp, by simp, by simp, by simp⟩⟩
  | cons ls literals ih =>
    simp only [validateRows, Query.run_bind_eq_ok, Query.run_ofExcept] at h
    obtain ⟨_, hlen, row, hrow, h⟩ := h
    obtain ⟨seen', rows, hseen, hrows, rfl⟩ : ∃ seen' rows,
        (∀ pk, s.pkColumn = some pk →
          (checkKey C mk t s pk (row.cell pk) seen).run r = .ok seen') ∧
        (validateRows C mk t s positions literals seen').run r = .ok rows ∧
        batch = row :: rows := by
      cases hpk : s.pkColumn with
      | none =>
        simp only [hpk, pure_bind, Query.run_bind_eq_ok, Query.run_pure] at h
        obtain ⟨rows, hrows, he⟩ := h
        exact ⟨seen, rows, nofun, hrows, (Except.ok.inj he).symm⟩
      | some pk =>
        simp only [hpk, Query.run_bind_eq_ok, Query.run_pure] at h
        obtain ⟨seen', hseen, rows, hrows, he⟩ := h
        refine ⟨seen', rows, ?_, hrows, (Except.ok.inj he).symm⟩
        rintro _ ⟨⟩
        exact hseen
    obtain ⟨hfill, hkeys⟩ := ih hrows
    refine ⟨.cons ⟨guardRead_eq_ok hlen, hrow⟩ hfill, fun pk hpk => ?_⟩
    · obtain ⟨hne, hnot, hnone, rfl⟩ := checkKey_eq_ok (hseen pk hpk)
      have hrest := hkeys pk hpk
      refine ⟨List.forall_mem_cons.mpr ⟨hne, hrest.given⟩,
        List.forall_mem_cons.mpr ⟨hnone, hrest.absent⟩,
        List.forall_mem_cons.mpr ⟨hnot, fun row' hrow' hmem =>
          hrest.unseen row' hrow' (List.mem_cons_of_mem _ hmem)⟩, ?_⟩
      rw [List.map_cons, List.nodup_cons]
      refine ⟨fun hmem => ?_, hrest.nodup⟩
      obtain ⟨row', hrow', he⟩ := List.mem_map.mp hmem
      exact hrest.unseen row' hrow' (he ▸ List.mem_cons_self)

/-- Rows are numbered without a gap. -/
theorem numberRows_spec (rows : List Row) {first : UInt64}
    (h : first.toNat + rows.length < 2 ^ 64) :
    (numberRows rows first).map Prod.snd = rows ∧
      ((numberRows rows first).map Prod.fst).Nodup ∧
      ∀ e ∈ numberRows rows first, first.toNat ≤ e.1.toNat ∧
        e.1.toNat < first.toNat + rows.length := by
  induction rows generalizing first with
  | nil => exact ⟨rfl, List.nodup_nil, by simp [numberRows]⟩
  | cons row rows ih =>
    rw [List.length_cons] at h
    have hnext : (first + 1).toNat = first.toNat + 1 := by
      rw [UInt64.toNat_add]
      exact Nat.mod_eq_of_lt (show first.toNat + 1 < 2 ^ 64 by omega)
    have hrest := ih (show (first + 1).toNat + rows.length < 2 ^ 64 by omega)
    obtain ⟨hsnd, hnodup, hbound⟩ := hrest
    refine ⟨by rw [numberRows, List.map_cons, hsnd], ?_, ?_⟩
    · rw [numberRows, List.map_cons, List.nodup_cons]
      refine ⟨fun hmem => ?_, hnodup⟩
      obtain ⟨e, he, heq⟩ := List.mem_map.mp hmem
      have hle := (hbound e he).1
      rw [heq, hnext] at hle
      exact Nat.not_succ_le_self _ hle
    · refine List.forall_mem_cons.mpr ⟨⟨le_refl _, ?_⟩, fun e he => ?_⟩
      · simp
      · have := hbound e he
        rw [List.length_cons]
        omega

/-- The row with a given number. -/
theorem mem_numberRows (rows : List Row) {first : UInt64} (h : first.toNat + rows.length < 2 ^ 64)
    {id : UInt64} {row : Row} : (id, row) ∈ numberRows rows first ↔
      first.toNat ≤ id.toNat ∧ rows[id.toNat - first.toNat]? = some row := by
  induction rows generalizing first with
  | nil => simp [numberRows]
  | cons row' rows ih =>
    rw [List.length_cons] at h
    have hnext : (first + 1).toNat = first.toNat + 1 := by
      rw [UInt64.toNat_add]
      exact Nat.mod_eq_of_lt (show first.toNat + 1 < 2 ^ 64 by omega)
    rw [numberRows, List.mem_cons, ih (show (first + 1).toNat + rows.length < 2 ^ 64 by omega),
      hnext, Prod.mk.injEq]
    constructor
    · rintro (⟨rfl, rfl⟩ | ⟨hle, hrow⟩)
      · exact ⟨le_rfl, by rw [Nat.sub_self]; rfl⟩
      · refine ⟨by omega, ?_⟩
        rw [show id.toNat - first.toNat = (id.toNat - (first.toNat + 1)) + 1 by omega]
        exact hrow
    · rintro ⟨hle, hrow⟩
      rcases Nat.eq_or_lt_of_le hle with heq | hlt
      · rw [← heq, Nat.sub_self] at hrow
        exact Or.inl ⟨(UInt64.toNat_inj.mp heq).symm, (Option.some.inj hrow).symm⟩
      · refine Or.inr ⟨hlt, ?_⟩
        rwa [show id.toNat - first.toNat = (id.toNat - (first.toNat + 1)) + 1 by omega] at hrow

/-- New rows as changes. -/
def insertions (rows : List (UInt64 × Row)) : List Change := rows.map fun e => ⟨e.1, none, some e.2⟩

theorem rowsOk_insertions {rows : List (UInt64 × Row)} (h : ∀ e ∈ rows, RowOk L s e.2) :
    RowsOk L s (insertions rows) := by
  rintro ch hch row (hold | hnew)
  · obtain ⟨e, -, rfl⟩ := List.mem_map.mp hch
    cases hold
  · obtain ⟨e, he, rfl⟩ := List.mem_map.mp hch
    cases hnew
    exact h e he

/-- The patches of an `INSERT`. -/
def insertPatches (s : TableSchema) (rows : List (UInt64 × Row)) (next : UInt64)
    (blobs : List (Patch Slot.Payload)) : List (Patch Slot.Payload) :=
  ((insertions rows).flatMap fun ch => ⟨.row ch.id, ch.new⟩ ::
    s.maintainedColumns.flatMap fun col =>
      diffPatches col (cellOf ch.old col) (cellOf ch.new col) ch.id) ++ ⟨.seq, some next⟩ :: blobs

theorem map_unsealed_insertPatches (s : TableSchema) (rows : List (UInt64 × Row)) (next : UInt64)
    (blobs : List (Patch Slot.Payload)) :
    (insertPatches s rows next blobs).map (Patch.unsealed C mk t) =
      rows.flatMap (fun e => addRow C mk t (C.rowKey mk t e.1) e.2 ::
        newEntries C mk t s.maintainedColumns e.2 e.1) ++
      addSeq C mk t next :: blobs.map (Patch.unsealed C mk t) := by
  simp only [insertPatches, insertions, List.map_append, List.map_flatMap, List.flatMap_map,
    List.map_cons, newEntries_eq]
  rfl

/-- What running an `INSERT` found and will write. -/
theorem insert_of_run (h : Rep L mk m D) (ht : t ∈ L.names) (hwf : Wf L X t (D t))
    {columns : Option (List String)} {rows : List (List Literal)} {plan : Plan C}
    (hrun : (insert C mk t columns rows).run m.reader = .ok plan) :
    ∃ s positions batch, D t .catalog = some s ∧ SchemaFits s ∧
      insertPositions s t columns = .ok positions ∧
      (validateRows C mk t s positions rows []).run m.reader = .ok batch ∧
      plan.result = .inserted batch.length ∧
      (∀ col ∈ s.rangeIndexedColumns, (sortRangeEntries ((D t (.range col)).getD [] ++
        rangeEntriesOf col (numberRows batch ((D t .seq).getD 0)))).length ≤ maxEntries) ∧
      plan.writes = (insertPatches s (numberRows batch ((D t .seq).getD 0))
        ((D t .seq).getD 0 + UInt64.ofNat batch.length)
        (s.rangeIndexedColumns.map fun col => ⟨.range col, some (sortRangeEntries
          ((D t (.range col)).getD [] ++
            rangeEntriesOf col (numberRows batch ((D t .seq).getD 0))))⟩)).map
        (Patch.unsealed C mk t) := by
  simp only [insert, Query.run_bind_eq_ok, Query.run_ofExcept, Query.run_pure] at hrun
  obtain ⟨s, hs, positions, hpos, batch, hbatch, first, hfirst, blobs, hblobs, he⟩ := hrun
  obtain ⟨hcatalog, hfits⟩ := h.expectSchema_of_run ht hwf hs
  rw [h.run_loadSeq ht] at hfirst
  cases hfirst
  obtain ⟨rfl, hroom⟩ := h.blobs_of_run ht (hwf.content s hcatalog) hfits (fun _ hcol => hcol)
    (fun col entries => sortRangeEntries
      (entries ++ rangeEntriesOf col (numberRows batch ((D t .seq).getD 0)))) hblobs
  cases he
  exact ⟨s, positions, batch, hcatalog, hfits, hpos, hbatch, rfl, hroom,
    (map_unsealed_insertPatches ..).symm⟩

theorem rowWrites_insert {numbered : List (UInt64 × Row)} (hn : (numbered.map Prod.fst).Nodup)
    (next : UInt64) (F : ℕ → List (Value × UInt64)) :
    RowWrites s (insertions numbered) (fun ch => ⟨.row ch.id, ch.new⟩ ::
      s.maintainedColumns.flatMap fun col =>
        diffPatches col (cellOf ch.old col) (cellOf ch.new col) ch.id)
      (⟨.seq, some next⟩ :: s.rangeIndexedColumns.map fun col => ⟨.range col, some (F col)⟩) where
  nodup := by
    rw [insertions, List.map_map]
    exact hn
  rows ch _ w := by
    rw [Change.patches, List.mem_cons, List.mem_append, List.mem_singleton, or_comm]
  extra w hw := by
    rcases List.mem_cons.mp hw with rfl | hw
    · exact Or.inl rfl
    · obtain ⟨col, hcol, rfl⟩ := List.mem_map.mp hw
      exact Or.inr ⟨col, hcol, rfl⟩

/-- What an `INSERT` leaves in a range index. -/
theorem patchAll_insert_range {numbered : List (UInt64 × Row)}
    (hn : (numbered.map Prod.fst).Nodup) {next : UInt64} {F : ℕ → List (Value × UInt64)} {col : ℕ}
    (hcol : col ∈ s.rangeIndexedColumns) :
    patchAll T (insertPatches s numbered next
      (s.rangeIndexedColumns.map fun col => ⟨.range col, some (F col)⟩)) (.range col) =
      some (F col) := by
  rw [insertPatches, (rowWrites_insert hn next F).patchAll_extra (Or.inr ⟨col, rfl⟩), patchAll_cons,
    patchAll_blobs, if_pos hcol]

theorem patchAll_insert_seq {numbered : List (UInt64 × Row)}
    (hn : (numbered.map Prod.fst).Nodup) {next : UInt64} {F : ℕ → List (Value × UInt64)} :
    patchAll T (insertPatches s numbered next
      (s.rangeIndexedColumns.map fun col => ⟨.range col, some (F col)⟩)) .seq = some next := by
  rw [insertPatches, (rowWrites_insert hn next F).patchAll_extra (Or.inl rfl), patchAll_cons,
    patchAll_blobs_seq, patch_self]

/-- Columns with an index are not vectors. -/
theorem SchemaOk.notVector_range (h : SchemaOk t s) {col : ℕ} {c : ColumnDef}
    (hc : s.columns[col]? = some c) (hr : c.rangeIndexed = true) : ∀ d, c.ty ≠ .vector d := by
  intro d hd
  rw [(h.vector col c d hc hd).2] at hr
  cases hr

/-- A range index after an `INSERT`. -/
theorem insert_range (hsch : SchemaOk t s) (hT : Content L X s T)
    {numbered : List (UInt64 × Row)} (hn : (numbered.map Prod.fst).Nodup)
    (hnew : ∀ e ∈ numbered, T (.row e.1) = none) (hok : ∀ e ∈ numbered, RowOk L s e.2)
    {col : ℕ} {c : ColumnDef} (hc : s.columns[col]? = some c) (hr : c.rangeIndexed = true)
    {es : List (Value × UInt64)} (hes : es = sortRangeEntries
      ((T (.range col)).getD [] ++ rangeEntriesOf col numbered)) :
    Tracks (Agrees (X c.ty c.primaryKey)) (assignAll (T.live col)
        (numbered.map fun e => (e.1, (e.2.cell col).present))) es ∧
      (es.Pairwise fun a b => entryLe a b = true) ∧ ∀ e ∈ es, e.1.HasType c.ty ∧ e.1.BlobFits := by
  subst hes
  have hcol := hT.columns col c hc
  obtain ⟨old, hold⟩ := Option.ne_none_iff_exists'.mp (hcol.ranges.mpr hr)
  obtain ⟨htracks, -, htyped⟩ := hcol.tracked old hold
  rw [hold, Option.getD_some]
  have hadds := tracks_adds htracks hn (fun e he => Table.live_of_none (hnew e he) col)
    (hsch.notVector_range hc hr) fun e he => (hok e he).typed col c hc
  have hall : ∀ e ∈ old ++ rangeEntriesOf col numbered, e.1.HasType c.ty ∧ e.1.BlobFits := by
    intro e he
    rcases List.mem_append.mp he with he | he
    · exact htyped e he
    · obtain ⟨e', he', rfl⟩ := List.mem_map.mp he
      have hmem := (List.mem_filter.mp he').1
      exact ⟨(hok e' hmem).typed col c hc, ((hok e' hmem).storable_cell col).blobFits⟩
  exact ⟨hadds.perm (perm_sortRangeEntries _), pairwise_sortRangeEntries fun e he => (hall e he).1,
    fun e he => hall e ((perm_sortRangeEntries _).mem_iff.mp he)⟩

/-- The keys of new rows stay unique in an exact column. -/
theorem insert_unique (h : Rep L mk m D) (ht : t ∈ L.names) (hfits : SchemaFits s)
    (hT : Content L X s (D t)) {pk : ℕ} {c : ColumnDef} (hc : s.columns[pk]? = some c)
    (hm : c.maintained = true) (hX : X c.ty c.primaryKey) {numbered : List (UInt64 × Row)}
    (hok : ∀ e ∈ numbered, RowOk L s e.2)
    (hfresh : FreshKeys C mk t m.reader pk [] (numbered.map Prod.snd)) {e : UInt64 × Row}
    (he : e ∈ numbered) {v : Value} (hv : e.2.cell pk = v) :
    (∀ e' ∈ numbered, e'.2.cell pk = v → e'.1 = e.1) ∧ ∀ id, (D t).live pk id ≠ some v := by
  subst hv
  have hmem : ∀ e' ∈ numbered, e'.2 ∈ numbered.map Prod.snd := fun e' he' => List.mem_map_of_mem he'
  have hne : e.2.cell pk ≠ .null := hfresh.given _ (hmem e he)
  refine ⟨fun e' he' heq => ?_, fun id hlive => ?_⟩
  · have hnodup := hfresh.nodup
    rw [List.map_map] at hnodup
    have := List.inj_on_of_nodup_map hnodup he' he (by simp [heq])
    rw [this]
  · have hknown := (((hok e he).storable_cell pk).resolve_left hne).1
    obtain ⟨ids, -, hids, hrun⟩ := h.run_indexRowids ht (hfits.col_lt hc) hknown
    rw [hfresh.absent _ (hmem e he)] at hrun
    cases hrun
    have := (hids id).mpr (((hT.columns pk c hc).exact hm hX _ id).mpr hlive)
    cases this

/-- The batch of an `INSERT`, once its rows are numbered and validated. -/
theorem insert_rowChanges (h : Rep L mk m D) (ht : t ∈ L.names) (hfits : SchemaFits s)
    (hsch : SchemaOk t s) (hT : Content L X s (D t)) {numbered : List (UInt64 × Row)}
    {next : UInt64} (hn : (numbered.map Prod.fst).Nodup)
    (hnew : ∀ e ∈ numbered, D t (.row e.1) = none) (hok : ∀ e ∈ numbered, RowOk L s e.2)
    (hbelow : ∀ e ∈ numbered, e.1 < next) (hnext : (D t .seq).getD 0 ≤ next)
    (hfresh : ∀ pk, s.pkColumn = some pk →
      FreshKeys C mk t m.reader pk [] (numbered.map Prod.snd))
    (hroom : ∀ col ∈ s.rangeIndexedColumns, (sortRangeEntries ((D t (.range col)).getD [] ++
      rangeEntriesOf col numbered)).length ≤ maxEntries) :
    RowChanges L X s (insertions numbered) (D t) (patchAll (D t) (insertPatches s numbered next
      (s.rangeIndexedColumns.map fun col => ⟨.range col, some (sortRangeEntries
        ((D t (.range col)).getD [] ++ rangeEntriesOf col numbered))⟩))) := by
  have hw := rowWrites_insert (s := s) hn next fun col => sortRangeEntries
    ((D t (.range col)).getD [] ++ rangeEntriesOf col numbered)
  have hlive := fun col => hw.live_patchAll (T := D t) col
  have hmaintained : ∀ c : ColumnDef, c.primaryKey = true → c.maintained = true := by
    intro c hkey
    rw [ColumnDef.maintained, hkey, Bool.true_or]
  have hseq : patchAll (D t) (insertPatches s numbered next (s.rangeIndexedColumns.map fun col =>
      ⟨.range col, some (sortRangeEntries
        ((D t (.range col)).getD [] ++ rangeEntriesOf col numbered))⟩)) .seq = some next :=
    patchAll_insert_seq hn
  refine
    { catalog := hw.patchAll_catalog
      old := ?_
      new := fun ch hch => hw.patchAll_row hch
      otherRow := fun id hid => hw.patchAll_otherRow hid
      ok := ?_
      seq := ?_
      entry := hw.patchAll_entry_ok (rowsOk_insertions hok) hsch
      otherEntry := fun col v id hid => hw.patchAll_otherEntry hid
      exact := ?_
      required := ?_
      unique := ?_
      range := ?_
      otherRange := fun col hcol => hw.patchAll_otherRange hcol }
  · intro ch hch
    obtain ⟨e, he, rfl⟩ := List.mem_map.mp hch
    exact hnew e he
  · intro ch hch row hrow
    obtain ⟨e, he, rfl⟩ := List.mem_map.mp hch
    cases hrow
    rw [hseq]
    exact ⟨hok e he, hbelow e he⟩
  · rw [hseq]
    exact hnext
  · -- a column that is `NULL` before and after
    intro ch hch col c hc hX _ hbeq
    obtain ⟨e, he, rfl⟩ := List.mem_map.mp hch
    rw [cellOf, Option.map_none, Option.getD_none, Value.beq_null_left, Value.isNull_iff] at hbeq
    rw [hbeq]
    rfl
  · intro ch hch row hrow col c hc hkey
    obtain ⟨e, he, rfl⟩ := List.mem_map.mp hch
    cases hrow
    exact (hfresh col (hsch.single col c hc hkey)).given _ (List.mem_map_of_mem he)
  · intro ch hch col c hc hkey hX v id hv hv'
    obtain ⟨e, he, rfl⟩ := List.mem_map.mp hch
    rw [insertPatches, Table.live_eq, hw.patchAll_row hch] at hv
    obtain ⟨hv, -⟩ := Value.present_eq_some.mp hv
    obtain ⟨hsame, hnone⟩ := insert_unique h ht hfits hT hc (hmaintained c hkey) hX hok
      (hfresh col (hsch.single col c hc hkey)) he hv
    rcases RowChanges.id_cases (insertions numbered) id with ⟨ch', hch', rfl⟩ | hid
    · obtain ⟨e', he', rfl⟩ := List.mem_map.mp hch'
      rw [insertPatches, Table.live_eq, hw.patchAll_row hch'] at hv'
      obtain ⟨hv', -⟩ := Value.present_eq_some.mp hv'
      exact hsame e' he' hv'
    · rw [insertPatches, Table.live_eq, hw.patchAll_otherRow hid, ← Table.live_eq] at hv'
      exact absurd hv' (hnone id)
  · intro col c hc hr
    have hmem : col ∈ s.rangeIndexedColumns := TableSchema.mem_rangeIndexedColumns.mpr ⟨c, hc, hr⟩
    refine ⟨_, patchAll_insert_range hn hmem, hroom col hmem, ?_⟩
    have hrange := insert_range hsch hT hn hnew hok hc hr rfl
    rw [insertPatches, hlive col, insertions, List.map_map]
    exact hrange

/-- **An `INSERT` changes rows**: it adds the rows it was given, numbered on from the sequence. -/
theorem insert_changes (h : Rep L mk m D) (ht : t ∈ L.names) (hwf : Wf L X t (D t))
    {columns : Option (List String)} {rows : List (List Literal)}
    (hl : LiteralsOk L rows.flatten)
    (hseq : ((D t .seq).getD 0).toNat + rows.length < 2 ^ 64) {plan : Plan C}
    (hrun : (insert C mk t columns rows).run m.reader = .ok plan) :
    ∃ s ws positions batch, D t .catalog = some s ∧ plan.writes = ws.map (Patch.unsealed C mk t) ∧
      (∀ w ∈ ws, w.slot.Valid L) ∧
      RowChanges L X s (insertions (numberRows batch ((D t .seq).getD 0))) (D t)
        (patchAll (D t) ws) ∧
      patchAll (D t) ws .seq = some ((D t .seq).getD 0 + UInt64.ofNat batch.length) ∧
      insertPositions s t columns = .ok positions ∧
      List.Forall₂ (fun ls row => ls.length = positions.length ∧ fillRow s positions ls = .ok row)
        rows batch ∧
      plan.result = .inserted batch.length := by
  obtain ⟨s, positions, batch, hs, hfits, hpos, hbatch, hresult, hroom, hwrites⟩ :=
    insert_of_run h ht hwf hrun
  obtain ⟨hfilled, hkeys⟩ := validateRows_eq_ok hbatch
  have hlen : batch.length = rows.length := hfilled.length_eq.symm
  have hsch := hwf.schema s hs
  have hT := hwf.content s hs
  rw [← hlen] at hseq
  obtain ⟨hsnd, hn, hbound⟩ := numberRows_spec batch hseq
  have hnext : ((D t .seq).getD 0 + UInt64.ofNat batch.length).toNat =
      ((D t .seq).getD 0).toNat + batch.length := by
    rw [UInt64.toNat_add, UInt64.toNat_ofNat', Nat.add_mod_mod]
    exact Nat.mod_eq_of_lt hseq
  have hok : ∀ e ∈ numberRows batch ((D t .seq).getD 0), RowOk L s e.2 := by
    intro e he
    have hmem : e.2 ∈ batch := hsnd ▸ List.mem_map_of_mem he
    obtain ⟨ls, hls, -, hfill⟩ := exists_of_forall₂ hfilled hmem
    exact rowOk_fillRow hfits (fun l hmem => hl l (List.mem_flatten.mpr ⟨ls, hls, hmem⟩)) hfill
  have hnew : ∀ e ∈ numberRows batch ((D t .seq).getD 0), D t (.row e.1) = none := by
    intro e he
    by_contra hne
    obtain ⟨row, hrow⟩ := Option.ne_none_iff_exists'.mp hne
    have hlt := UInt64.lt_iff_toNat_lt.mp (hT.below e.1 row hrow)
    have hle := (hbound e he).1
    omega
  have hbelow : ∀ e ∈ numberRows batch ((D t .seq).getD 0),
      e.1 < (D t .seq).getD 0 + UInt64.ofNat batch.length := by
    intro e he
    rw [UInt64.lt_iff_toNat_lt, hnext]
    exact (hbound e he).2
  have hle : (D t .seq).getD 0 ≤ (D t .seq).getD 0 + UInt64.ofNat batch.length := by
    rw [UInt64.le_iff_toNat_le, hnext]
    exact Nat.le_add_right _ _
  have hchanges := insert_rowChanges h ht hfits hsch hT hn hnew hok hbelow hle
    (fun pk hpk => hsnd.symm ▸ hkeys pk hpk) hroom
  exact ⟨s, _, positions, batch, hs, hwrites,
    (rowWrites_insert hn _ _).valid hfits (rowsOk_insertions hok), hchanges,
    patchAll_insert_seq hn, hpos, hfilled, hresult⟩

end Ciphra
