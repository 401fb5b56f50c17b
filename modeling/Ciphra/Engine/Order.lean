import Ciphra.Engine.Backup
import Ciphra.Engine.Select
import Ciphra.Engine.Transparency

/-!
# The order of rows

The key of a row ends with its id, big-endian, so the order of keys is the order of ids. A scan and
an equality index give rows in that order; a range index gives them in the order of its entries,
which are sorted by value. Without `ORDER BY` nothing sorts them afterwards, so `LIMIT` keeps the
first rows by id only where no range index is used (`insertion_order_run`).
-/

namespace Ciphra

open Storage OrdMap

variable {C : Crypto} {mk : C.MasterKey} {m : ByteMap} {t : String}

/-! ## Keys of one length -/

/-- The keys of rows, and those of index entries, have one length. -/
def Shaped (key : Bytes) : Prop :=
  (rowsPrefix <+: key → key.length = 26) ∧ (indexesPrefix <+: key → key.length = 44)

/-- The keys of the map do. -/
def ShapedMap (m : ByteMap) : Prop := ∀ key, m[key]? ≠ none → Shaped key

theorem shaped_of_head {key : Bytes} (hr : ¬ rowsPrefix <+: key) (hi : ¬ indexesPrefix <+: key) :
    Shaped key := ⟨fun h => absurd h hr, fun h => absurd h hi⟩

/-- What is shaped is not left by a statement. -/
theorem keySpace_shaped : KeySpace C mk (fun r => ∀ p, ∀ e ∈ r.scan p, Shaped e.1) Shaped where
  catalog t := shaped_of_head (by simp [rowsPrefix, Crypto.catalogKey, catalogPrefix])
    (by simp [indexesPrefix, Crypto.catalogKey, catalogPrefix])
  seq t := shaped_of_head (by simp [rowsPrefix, Crypto.seqKey, seqPrefix])
    (by simp [indexesPrefix, Crypto.seqKey, seqPrefix])
  row t id := by
    refine ⟨fun _ => by simp [Crypto.rowKey, Crypto.rowPrefix, rowsPrefix], fun h => absurd h ?_⟩
    simp [Crypto.rowKey, Crypto.rowPrefix, rowsPrefix, indexesPrefix]
  index t col v id := by
    refine ⟨fun h => absurd h ?_, fun _ => ?_⟩
    · simp [Crypto.indexKey, Crypto.indexValuePrefix, Crypto.indexColumnPrefix, Crypto.indexPrefix,
        rowsPrefix, indexesPrefix]
    · simp [Crypto.indexKey, Crypto.indexValuePrefix, Crypto.indexColumnPrefix, Crypto.indexPrefix,
        indexesPrefix]
  range t col := shaped_of_head
    (by simp [rowsPrefix, Crypto.rangeIndexKey, Crypto.rangePrefix, rangesPrefix])
    (by simp [indexesPrefix, Crypto.rangeIndexKey, Crypto.rangePrefix, rangesPrefix])
  scan r hr p _ e he := hr p e he

theorem ShapedMap.scan (h : ShapedMap m) : ∀ p, ∀ e ∈ m.reader.scan p, Shaped e.1 := by
  rintro p ⟨k, x⟩ he
  refine h k ?_
  rw [((m.mem_scanPrefix p k x).mp he).1]
  exact Option.some_ne_none _

theorem ShapedMap.applyAll (h : ShapedMap m) {ws : List (Unsealed C)} (hw : KeysIn Shaped ws)
    (nonces : ℕ → C.Nonce) : ShapedMap (applyAll m (C.sealWrites nonces ws)) := by
  intro key hkey
  by_cases hmem : ∃ op ∈ C.sealWrites nonces ws, op.key = key
  · obtain ⟨op, hop, rfl⟩ := hmem
    obtain ⟨w, hmem, hkey⟩ := mem_sealWrites hop
    rw [hkey]
    exact hw w hmem
  · rw [getElem?_applyAll_of_notMem _ _ _ fun op hop he => hmem ⟨op, hop, he⟩] at hkey
    exact h key hkey

theorem shaped_of_auditPrefix {key : Bytes} (h : auditPrefix <+: key) : Shaped key := by
  obtain ⟨r, rfl⟩ := h
  exact shaped_of_head (by simp [rowsPrefix, auditPrefix]) (by simp [indexesPrefix, auditPrefix])

theorem keysIn_auditWrites (mk : C.MasterKey) (entry : AuditEntry) :
    KeysIn Shaped (C.auditWrites mk entry) := by
  refine KeysIn.cons (shaped_of_auditPrefix (auditPrefix_auditKey _)) (KeysIn.cons ?_ KeysIn.nil)
  exact shaped_of_head (by decide : ¬ rowsPrefix <+: auditHeadKey)
    (by decide : ¬ indexesPrefix <+: auditHeadKey)

theorem shapedMap_fresh (passphrase : String) (kdf : KdfParams) (env : Engine.OpenEnv C) :
    ShapedMap (applyLog ∅ (Engine.freshBatches passphrase kdf env)) := by
  intro key hkey
  rw [getElem?_freshBatches] at hkey
  split at hkey
  · rename_i hc
    rw [hc]
    exact shaped_of_head (by decide) (by decide)
  · split at hkey
    · rename_i hk
      rw [hk]
      exact shaped_of_head (by decide) (by decide)
    · exact absurd rfl hkey

theorem shapedMap_rotated (e : Engine C) (env : Engine.RotateEnv C) (newPassphrase : String)
    (kdf : KdfParams) (tables : List TableSnapshot) {audit : List (Unsealed C)}
    (haudit : ∀ w ∈ audit, auditPrefix <+: w.key) :
    ShapedMap (applyLog ∅ (e.rotationBatches env newPassphrase kdf tables audit)) := by
  have htables : ∀ (ts : List (TableSnapshot × ℕ)) (m : ByteMap), ShapedMap m →
      ShapedMap (applyLog m (ts.map fun t => C.sealWrites (env.nonces t.2)
        (rebuildTable C (C.derive kdf newPassphrase env.openEnv.salt.1) t.1))) := by
    intro ts
    induction ts with
    | nil => exact fun m h => h
    | cons t ts ih => exact fun m h => ih _ (h.applyAll (keySpace_shaped.rebuildTable _) _)
  simp only [Engine.rotationBatches, Storage.applyLog_append]
  refine ShapedMap.applyAll (ShapedMap.applyAll (htables _ _ ?_) ?_ _) (keysIn_auditWrites _ _) _
  · exact shapedMap_fresh newPassphrase kdf env.openEnv
  · exact fun w hw => shaped_of_auditPrefix (haudit w hw)

namespace Session

theorem keeps_shaped {mode : Mode} {P : Session C → Step C → Prop} :
    Keeps mode P (fun _ m (_ : Unit) => ShapedMap m) (fun _ _ _ g => g) fun _ _ g => g where
  plan := by
    rintro s env st q plan g - hp hq - - h
    rw [Engine.auditedBatch, applyAll_append]
    exact (h.applyAll (keySpace_shaped.program hp _ h.scan _ hq) _).applyAll
      (keysIn_auditWrites _ _) _
  rotation := by
    rintro s env newPassphrase kdf tables audit g - - - haudit - -
    exact shapedMap_rotated s.engine env newPassphrase kdf tables (carryAudit_keys haudit)

/-- In every run, the keys of rows and of index entries have one length. -/
theorem shaped_run {mode : Mode} {s : Session C} (hs : s.Fresh) {steps : List (Step C)}
    (hrun : Along step (Clean mode) s steps) :
    ShapedMap (steps.foldl step s).engine.store.view :=
  (sound_run (P := fun _ _ => True) keeps_shaped (x := ())
    (fun kdf env _ => shapedMap_fresh _ kdf env)
    hs (hrun.mono fun _ _ h => ⟨trivial, h⟩)).view

end Session

/-! ## The order of ids -/

/-- Keys that differ in their last eight bytes are ordered as the numbers these bytes spell. -/
theorem rowidFromKey_lt {p k k' : Bytes} (hk : p <+: k) (hk' : p <+: k')
    (hlen : k.length = p.length + 8) (hlen' : k'.length = p.length + 8)
    (h : compare k k' = .lt) : rowidFromKey k < rowidFromKey k' := by
  obtain ⟨s, rfl⟩ := hk
  obtain ⟨s', rfl⟩ := hk'
  rw [List.length_append, Nat.add_left_cancel_iff] at hlen hlen'
  rw [compare_append_left] at h
  have hs := beNat_lt s
  have hs' := beNat_lt s'
  rw [hlen] at hs
  rw [hlen'] at hs'
  have hcompare := compare_beBytes (w := 8) hs hs'
  have hself : beBytes 8 (beNat s) = s := hlen ▸ beBytes_beNat s
  have hself' : beBytes 8 (beNat s') = s' := hlen' ▸ beBytes_beNat s'
  rw [hself, hself', h] at hcompare
  have hlt := compare_lt_iff_lt.mp hcompare.symm
  have hrow : ∀ q : Bytes, q.length = 8 → rowidFromKey (p ++ q) = UInt64.ofNat (beNat q) := by
    intro q hq
    rw [rowidFromKey, List.length_append, hq, Nat.add_sub_cancel, List.drop_left]
  rw [hrow s hlen, hrow s' hlen', UInt64.lt_iff_toNat_lt, UInt64.toNat_ofNat_of_lt' hs,
    UInt64.toNat_ofNat_of_lt' hs']
  exact hlt

/-- The ids of the entries of a scan. -/
theorem pairwise_rowids {p : Bytes} (hshaped : ∀ e ∈ m.scanPrefix p, e.1.length = p.length + 8) :
    ((m.scanPrefix p).map fun e => rowidFromKey e.1).Pairwise (· < ·) := by
  rw [List.pairwise_map]
  refine (ByteMap.sortedKeys_scanPrefix m p).imp_of_mem fun {a b} ha hb hlt => ?_
  exact rowidFromKey_lt ((m.mem_scanPrefix p a.1 a.2).mp ha).2 ((m.mem_scanPrefix p b.1 b.2).mp hb).2
    (hshaped a ha) (hshaped b hb) hlt

/-- The ids of rows. -/
def ids (rows : List (Bytes × Row)) : List UInt64 := rows.map fun e => rowidFromKey e.1

theorem run_scanRows_keys {rows : List (Bytes × Row)}
    (h : (scanRows C mk t).run m.reader = .ok rows) :
    rows.map Prod.fst = (m.scanPrefix (C.rowPrefix mk t)).map Prod.fst := by
  rw [scanRows, Query.run_bind, Query.run_entries, ok_bind, Query.run_mapM] at h
  refine map_eq_of_mapM h fun a b hb => ?_
  rw [Query.run_ofExcept] at hb
  obtain ⟨row, -, hpure⟩ := bind_eq_ok.mp hb
  obtain rfl := Except.ok.inj hpure
  rfl

theorem ShapedMap.pairwise_scanRows (h : ShapedMap m) {rows : List (Bytes × Row)}
    (hrun : (scanRows C mk t).run m.reader = .ok rows) : (ids rows).Pairwise (· < ·) := by
  have hids : ids rows = (m.scanPrefix (C.rowPrefix mk t)).map fun e => rowidFromKey e.1 := by
    have hkeys := congrArg (List.map rowidFromKey) (run_scanRows_keys hrun)
    rwa [List.map_map, List.map_map] at hkeys
  rw [hids]
  refine pairwise_rowids fun e he => ?_
  have hpre := ((m.mem_scanPrefix _ e.1 e.2).mp he).2
  rw [(h.scan _ e he).1 ((List.prefix_append _ _).trans hpre)]
  simp [Crypto.rowPrefix, rowsPrefix]

theorem ShapedMap.pairwise_indexRowids (h : ShapedMap m) {col : ℕ} {v : Value}
    {found : List UInt64} (hrun : (indexRowids C mk t col v).run m.reader = .ok found) :
    found.Pairwise (· < ·) := by
  have hfound : found = (m.scanPrefix (C.indexValuePrefix mk t col v)).map
      fun e => rowidFromKey e.1 := by
    rw [indexRowids, Query.run_bind, Query.run_entries, ok_bind, Query.run_mapM] at hrun
    refine (List.map_id found).symm.trans (map_eq_of_mapM hrun fun a b hb => ?_)
    rw [Query.run_ofExcept] at hb
    obtain ⟨_, -, hpure⟩ := bind_eq_ok.mp hb
    exact (Except.ok.inj hpure).symm
  rw [hfound]
  refine pairwise_rowids fun e he => ?_
  have hpre := ((m.mem_scanPrefix _ e.1 e.2).mp he).2
  have hindex : indexesPrefix <+: C.indexValuePrefix mk t col v := by
    simp [Crypto.indexValuePrefix, Crypto.indexColumnPrefix, Crypto.indexPrefix]
  rw [(h.scan _ e he).2 (hindex.trans hpre)]
  simp [Crypto.indexValuePrefix, Crypto.indexColumnPrefix, Crypto.indexPrefix, indexesPrefix]

/-- Rows are fetched in the order of their ids in the list. -/
theorem sublist_run_fetchRows {found : List UInt64} {rows : List (Bytes × Row)}
    (h : (fetchRows C mk t found).run m.reader = .ok rows) : (ids rows).Sublist found := by
  rw [fetchRows, Query.run_bind] at h
  obtain ⟨fetched, hfetched, hpure⟩ := bind_eq_ok.mp h
  obtain rfl := Except.ok.inj hpure
  rw [Query.run_mapM] at hfetched
  have hall := forall₂_of_mapM hfetched
  clear h hpure hfetched
  induction hall with
  | nil => exact .slnil
  | cons hrow _ ih =>
    rename_i id o _ _ _
    cases o with
    | none => exact .cons _ ih
    | some e =>
      have hkey : e.1 = C.rowKey mk t id := by
        rw [Query.run_bind, Query.run_fetch, ok_bind] at hrow
        cases hget : m.reader.get (C.rowKey mk t id) with
        | none =>
          rw [hget] at hrow
          cases hrow
        | some sealed =>
          rw [hget] at hrow
          obtain ⟨row, -, hpure⟩ := Query.run_bind_eq_ok.mp hrow
          obtain rfl := Option.some.inj (Except.ok.inj hpure)
          rfl
      have hid : rowidFromKey e.1 = id := by
        rw [hkey]
        exact rowidFromKey_rowKey t id
      change (rowidFromKey e.1 :: ids _).Sublist _
      rw [hid]
      exact .cons_cons id ih

/-- The access path of a predicate gives rows in the order of their ids: it is no range index, or
the entries it hits stand in that order. -/
def PathOrdered (C : Crypto) (mk : C.MasterKey) (r : Reader Bytes Bytes) (t : String)
    (s : TableSchema) (filter : Option CompiledExpr) : Prop :=
  ∀ f col op v entries, filter = some f → indexedEqValue f s = none →
    rangeIndexedPred f s = some (col, op, v) → (loadRangeIndex C mk t col).run r = .ok entries →
      ((entries.filter fun e => op.holds (compareValues e.1 v)).map Prod.snd).Pairwise (· < ·)

theorem ShapedMap.pairwise_candidateRows (h : ShapedMap m) {s : TableSchema}
    {filter : Option CompiledExpr} (hpath : PathOrdered C mk m.reader t s filter)
    {rows : List (Bytes × Row)} (hrun : (candidateRows C mk t s filter).run m.reader = .ok rows) :
    (ids rows).Pairwise (· < ·) := by
  cases filter with
  | none => exact h.pairwise_scanRows hrun
  | some f =>
    simp only [candidateRows] at hrun
    cases heq : indexedEqValue f s with
    | some cv =>
      rw [heq] at hrun
      obtain ⟨found, hfound, hrun⟩ := Query.run_bind_eq_ok.mp hrun
      obtain ⟨fetched, hfetched, hrun⟩ := Query.run_bind_eq_ok.mp hrun
      obtain ⟨_, -, hrun⟩ := Query.run_bind_eq_ok.mp hrun
      obtain rfl := Except.ok.inj hrun
      exact (h.pairwise_indexRowids hfound).sublist (sublist_run_fetchRows hfetched)
    | none =>
      rw [heq] at hrun
      cases hrange : rangeIndexedPred f s with
      | some cov =>
        rw [hrange] at hrun
        obtain ⟨entries, hentries, hrun⟩ := Query.run_bind_eq_ok.mp hrun
        obtain ⟨fetched, hfetched, hrun⟩ := Query.run_bind_eq_ok.mp hrun
        obtain ⟨_, -, hrun⟩ := Query.run_bind_eq_ok.mp hrun
        obtain rfl := Except.ok.inj hrun
        exact (hpath f cov.1 cov.2.1 cov.2.2 entries rfl heq hrange hentries).sublist
          (sublist_run_fetchRows hfetched)
      | none =>
        rw [hrange] at hrun
        obtain ⟨scanned, hscanned, hrun⟩ := Query.run_bind_eq_ok.mp hrun
        obtain ⟨_, -, hrun⟩ := Query.run_bind_eq_ok.mp hrun
        obtain rfl := Except.ok.inj hrun
        exact h.pairwise_scanRows hscanned

theorem ShapedMap.pairwise_matchingRows (h : ShapedMap m) {s : TableSchema}
    {filter : Option CompiledExpr} (hpath : PathOrdered C mk m.reader t s filter)
    {rows : List (Bytes × Row)} (hrun : (matchingRows C mk t s filter).run m.reader = .ok rows) :
    (ids rows).Pairwise (· < ·) := by
  rw [matchingRows] at hrun
  obtain ⟨candidates, hcandidates, hrun⟩ := Query.run_bind_eq_ok.mp hrun
  obtain ⟨keep, hkeep, hrun⟩ := Query.run_bind_eq_ok.mp hrun
  obtain rfl := Except.ok.inj hrun
  simp only [Query.run_mapM, Query.run_ofExcept] at hkeep
  rw [(filter_zip_of_mapM hkeep).2]
  exact (h.pairwise_candidateRows hpath hcandidates).sublist (List.filter_sublist.map _)

/-! ## A plain query without `ORDER BY` -/

/-- The matching rows come by increasing id, and the query returns the projection of those that
`LIMIT` and `OFFSET` keep. -/
def InsertionOrder (C : Crypto) (mk : C.MasterKey) (r : Reader Bytes Bytes) (t : String)
    (s : TableSchema) (filter : Option CompiledExpr) (projection : Projection)
    (limit : Option Limit) (found : List (Bytes × Row)) (out : List Row) : Prop :=
  (matchingRows C mk t s filter).run r = .ok found ∧ (ids found).Pairwise (· < ·) ∧
    ∃ output, outputColumns s t projection = .ok output ∧
      out = (limitRows limit found).map fun e => output.map e.2.cell

/-- Lists of rows by increasing id that have the same members are the same. -/
theorem eq_of_pairwise_ids {l l' : List (Bytes × Row)} (h : (ids l).Pairwise (· < ·))
    (h' : (ids l').Pairwise (· < ·)) (hmem : ∀ e, e ∈ l ↔ e ∈ l') : l = l' := by
  have hl := List.pairwise_map.mp h
  have hl' := List.pairwise_map.mp h'
  have hne : ∀ {a b : Bytes × Row}, rowidFromKey a.1 < rowidFromKey b.1 → a ≠ b := by
    rintro a _ hlt rfl
    exact UInt64.lt_irrefl _ hlt
  have hperm : l.Perm l' := (List.perm_ext_iff_of_nodup (hl.imp hne) (hl'.imp hne)).mpr hmem
  refine hperm.eq_of_pairwise (fun a b _ _ hab hba => ?_) hl hl'
  exact absurd (UInt64.lt_trans hab hba) (UInt64.lt_irrefl _)

/-- Where the rows a query finds come by increasing id, they are those of a full scan, in its
order. -/
theorem Stores.matchingRows_eq {L : Lexicon} (h : Stores L (fun _ _ => True) mk m)
    (hshaped : ShapedMap m) (ht : t ∈ L.names) {s : TableSchema}
    (hs : (expectSchema C mk t).run m.reader = .ok s) {predicate : Option Expr}
    (hl : ∀ l ∈ (predicate.map Expr.literals).getD [], ∀ v ∈ l.values, v ∈ L.values)
    {filter : Option CompiledExpr} (hf : predicate.mapM (compileExpr s) = .ok filter)
    (htyped : ∀ f, filter = some f → PathTyped f s) {found : List (Bytes × Row)}
    (hfound : (matchingRows C mk t s filter).run m.reader = .ok found)
    (hordered : (ids found).Pairwise (· < ·)) :
    ∃ rows, (scanRows C mk t).run m.reader = .ok rows ∧
      found = rows.filter fun e => passes (filterMatches filter e.2) := by
  obtain ⟨D, hrep, hwf⟩ := h
  obtain ⟨hcatalog, hfits⟩ := hrep.expectSchema_of_run ht (hwf t ht) hs
  have hc := (hwf t ht).content s hcatalog
  obtain ⟨all, hpicked, hall, hscan⟩ := hrep.run_scanRows ht hc.fits
  obtain ⟨es, -, hmem, rfl⟩ :=
    hrep.matchingRows_of_run ht hc hfits (filterKnown_compiled hf hl) hfound
  refine ⟨_, hscan, eq_of_pairwise_ids hordered ?_ fun e => ?_⟩
  · exact (hshaped.pairwise_scanRows hscan).sublist (List.filter_sublist.map _)
  · have hes : ∀ x : UInt64 × Row, x ∈ es ↔ x ∈ all ∧ filterMatches filter x.2 = .ok true := by
      intro x
      rw [hmem]
      refine ⟨fun hx => ⟨hall _ _ hx.1, hx.2.2⟩,
        fun hx => ⟨hpicked.stored x hx.1, ?_, hx.2⟩⟩
      cases filter with
      | none => trivial
      | some f => exact candidate_of_matches hc (htyped f rfl) (hpicked.stored x hx.1) hx.2
    rw [List.mem_filter, passes_eq_true]
    simp only [keyed, List.mem_map]
    constructor
    · rintro ⟨x, hx, rfl⟩
      exact ⟨⟨x, ((hes x).mp hx).1, rfl⟩, ((hes x).mp hx).2⟩
    · rintro ⟨⟨x, hx, rfl⟩, hmatch⟩
      exact ⟨x, (hes x).mpr ⟨hx, hmatch⟩, rfl⟩

theorem limitRows_map {α β : Type} (f : α → β) (limit : Option Limit) (l : List α) :
    limitRows limit (l.map f) = (limitRows limit l).map f := by
  cases limit with
  | none => rfl
  | some lim => rw [limitRows, limitRows, List.map_take, List.map_drop]

/-- What a plain query without `ORDER BY` returns. -/
theorem run_selectQuery_plain {F : Floats} {cosine : CosineDistance} {r : Reader Bytes Bytes}
    {projection : Projection} (hplain : ∀ items, projection ≠ .items items)
    {predicate : Option Expr} {groupBy : List String} {having : Option HavingExpr}
    {limit : Option Limit} {names : List String} {out : List Row}
    (h : (selectQuery C mk F cosine t projection predicate groupBy having none limit).run r =
      .ok (names, out)) :
    ∃ s filter found output, (expectSchema C mk t).run r = .ok s ∧
      predicate.mapM (compileExpr s) = .ok filter ∧
      (matchingRows C mk t s filter).run r = .ok found ∧
      outputColumns s t projection = .ok output ∧
      out = (limitRows limit found).map fun e => output.map e.2.cell := by
  rw [selectQuery] at h
  obtain ⟨s, hs, h⟩ := Query.run_bind_eq_ok.mp h
  obtain ⟨filter, hfilter, h⟩ := Query.run_bind_eq_ok.mp h
  rw [Query.run_ofExcept] at hfilter
  have hrest : ∀ other : Projection, ((do
      let output ← Query.ofExcept (outputColumns s t other)
      let order ← Query.ofExcept (orderColumn s t none)
      let rows ← matchingRows C mk t s filter
      let rows ← Query.ofExcept (orderRows cosine s order (rows.map Prod.snd))
      pure (output.map fun i => (s.columns[i]?.map ColumnDef.name).getD "",
        (limitRows limit rows).map fun row => output.map row.cell) :
          Read (List String × List Row)).run r = .ok (names, out)) →
      ∃ found output, (matchingRows C mk t s filter).run r = .ok found ∧
        outputColumns s t other = .ok output ∧
        out = (limitRows limit found).map fun e => output.map e.2.cell := by
    intro other hrun
    obtain ⟨output, houtput, hrun⟩ := Query.run_bind_eq_ok.mp hrun
    obtain ⟨order, horder, hrun⟩ := Query.run_bind_eq_ok.mp hrun
    obtain ⟨found, hfound, hrun⟩ := Query.run_bind_eq_ok.mp hrun
    obtain ⟨rows, hrows, hrun⟩ := Query.run_bind_eq_ok.mp hrun
    rw [Query.run_ofExcept] at houtput horder hrows
    obtain rfl := Except.ok.inj horder
    obtain rfl := Except.ok.inj hrows
    obtain ⟨-, rfl⟩ := Prod.mk.inj (Except.ok.inj hrun)
    refine ⟨found, output, hfound, houtput, ?_⟩
    rw [limitRows_map, List.map_map]
    rfl
  cases projection with
  | items items => exact absurd rfl (hplain items)
  | all =>
    obtain ⟨found, output, hfound, houtput, hout⟩ := hrest .all h
    exact ⟨s, filter, found, output, hs, hfilter, hfound, houtput, hout⟩
  | columns names =>
    obtain ⟨found, output, hfound, houtput, hout⟩ := hrest (.columns names) h
    exact ⟨s, filter, found, output, hs, hfilter, hfound, houtput, hout⟩

namespace Session

/-- **Insertion order.** In every run, a plain query without `ORDER BY` whose access path is ordered
takes the rows `LIMIT` and `OFFSET` keep from the matching rows by increasing id. Where the
statements of the run are regular and a literal that an equality index is asked for has the type of
its column, these are the rows a full scan finds, in the order in which it finds them. -/
theorem insertion_order_run (mode : Mode) {s : Session C} (hs : s.Fresh) (steps : List (Step C))
    (hrun : Along step (Clean mode) s steps) {F : Floats} {cosine : CosineDistance}
    {projection : Projection} (hplain : ∀ items, projection ≠ .items items)
    {predicate : Option Expr} {groupBy : List String} {having : Option HavingExpr}
    {limit : Option Limit} {names : List String} {out : List Row} :
    let e := (steps.foldl step s).engine
    (selectQuery C e.master F cosine t projection predicate groupBy having none limit).run
        e.store.reader = .ok (names, out) →
    ∃ sch filter, (expectSchema C e.master t).run e.store.reader = .ok sch ∧
      predicate.mapM (compileExpr sch) = .ok filter ∧
      (PathOrdered C e.master e.store.reader t sch filter →
        ∃ found, InsertionOrder C e.master e.store.reader t sch filter projection limit found out ∧
          ∀ L : Lexicon, L.Distinct s.engine.master →
            Along step (Regular L fun _ _ => True) s steps → t ∈ L.names →
            (∀ l ∈ (predicate.map Expr.literals).getD [], ∀ v ∈ l.values, v ∈ L.values) →
            (∀ f, filter = some f → PathTyped f sch) →
            ∃ rows, (scanRows C e.master t).run e.store.reader = .ok rows ∧
              found = rows.filter fun e => passes (filterMatches filter e.2)) := by
  intro e hquery
  have hshaped := shaped_run hs hrun
  rw [Store.reader_eq] at hquery ⊢
  obtain ⟨sch, filter, found, output, hsch, hfilter, hfound, houtput, hout⟩ :=
    run_selectQuery_plain hplain hquery
  refine ⟨sch, filter, hsch, hfilter, fun hpath => ?_⟩
  have hordered := hshaped.pairwise_matchingRows hpath hfound
  refine ⟨found, ⟨hfound, hordered, output, houtput, hout⟩, fun L hL hreg ht hl htyped => ?_⟩
  have hstores := (stores_run (L := L) (X := fun _ _ => True)
    (fun s env st h => ⟨h.1, Or.inl h.2⟩) (fun _ _ _ _ h => h) hs hL (hreg.and hrun)).2
  exact hstores.matchingRows_eq hshaped ht hsch hl hfilter htyped hfound hordered

/-- `CREATE TABLE t (a INT); INSERT INTO t VALUES (2); INSERT INTO t VALUES (1)`. -/
def descendingSteps : List (Step Crypto.clear) :=
  [.statement clearEnv (.createTable "t" [⟨"a", .int, false, false, false, false⟩]),
    .statement clearEnv (.insert "t" none [[.int 2]]),
    .statement clearEnv (.insert "t" none [[.int 1]])]

def descendingValues : List Value :=
  [.int 0, .real (F64.ofInt 0), .int 1, .real (F64.ofInt 1), .int 2, .real (F64.ofInt 2)]

/-- Without a condition the rows come as they were inserted. -/
example : (selectQuery Crypto.clear () noFloats (fun _ _ => ⟨0⟩) "t" .all none [] none none none).run
    (descendingSteps.foldl step clearSession).engine.store.reader =
      .ok (["a"], [[.int 2], [.int 1]]) := by
  decide +kernel

/-- `SELECT * FROM t WHERE a > 0 LIMIT 1`. -/
def firstPositive : Read (List String × List Row) :=
  selectQuery Crypto.clear () noFloats (fun _ _ => ⟨0⟩) "t" .all (some (.compare "a" .gt (.int 0))) []
    none none (some ⟨1, 0⟩)

theorem first_inserted :
    let r := (descendingSteps.foldl step clearSession).engine.store.reader
    firstPositive.run r = .ok (["a"], [[.int 2]]) ∧
      ∃ sch filter, (expectSchema Crypto.clear () "t").run r = .ok sch ∧
        (some (.compare "a" .gt (.int 0))).mapM (compileExpr sch) = .ok filter ∧
        ∃ found, InsertionOrder Crypto.clear () r "t" sch filter .all (some ⟨1, 0⟩) found
            [[.int 2]] ∧
          ∃ rows, (scanRows Crypto.clear () "t").run r = .ok rows ∧ rows.length = 2 ∧
            found = rows.filter fun e => passes (filterMatches filter e.2) := by
  intro r
  have hquery : firstPositive.run r = .ok (["a"], [[.int 2]]) := by decide +kernel
  have hschema : (expectSchema Crypto.clear () "t").run r =
      .ok ⟨"t", [⟨"a", .int, false, false, false, false⟩]⟩ := by decide +kernel
  have hrun : Along step (Clean .volatile) clearSession descendingSteps :=
    ⟨clean_volatile _ _ _, clean_volatile _ _ _, clean_volatile _ _ _, trivial⟩
  have hlisted : ∀ st ∈ [Statement.createTable "t" [⟨"a", .int, false, false, false, false⟩],
      .insert "t" none [[.int 2]], .insert "t" none [[.int 1]]],
      st.Listed ["t"] descendingValues := by decide +kernel
  have hseq : (loadSeq Crypto.clear () "t").run
      ((descendingSteps.take 1).foldl step clearSession).engine.store.reader = .ok 0 := by
    decide +kernel
  have hseq' : (loadSeq Crypto.clear () "t").run
      ((descendingSteps.take 2).foldl step clearSession).engine.store.reader = .ok 1 := by
    decide +kernel
  simp only [List.forall_mem_cons] at hlisted
  obtain ⟨h₁, h₂, h₃, -⟩ := hlisted
  have hregular : Along step (Regular (.ofLists ["t"] descendingValues) fun _ _ => True) clearSession
      descendingSteps :=
    ⟨⟨h₁.regular trivial, trivial⟩, ⟨h₂.regular (hasIds_insert hseq (by decide)), trivial⟩,
      ⟨h₃.regular (hasIds_insert hseq' (by decide)), trivial⟩, trivial⟩
  have hscan : (scanRows Crypto.clear () "t").run r =
      .ok [(Crypto.clear.rowKey () "t" 0, [.int 2]), (Crypto.clear.rowKey () "t" 1, [.int 1])] := by
    decide +kernel
  obtain ⟨sch, filter, hsch, hfilter, hout⟩ := insertion_order_run .volatile fresh_clearSession
    descendingSteps hrun (by simp) hquery
  obtain rfl := Except.ok.inj (hschema.symm.trans hsch)
  refine ⟨hquery, _, filter, hschema, hfilter, ?_⟩
  have hcompiled : (some (.compare "a" .gt (.int 0))).mapM
      (compileExpr ⟨"t", [⟨"a", .int, false, false, false, false⟩]⟩) =
        .ok (some (.compare 0 "a" .gt (.int 0))) := by decide
  obtain rfl := Except.ok.inj (hcompiled.symm.trans hfilter)
  have hpath : PathOrdered Crypto.clear () r "t" ⟨"t", [⟨"a", .int, false, false, false, false⟩]⟩
      (some (.compare 0 "a" .gt (.int 0))) := by
    intro f col op v entries hf _ hrange _
    obtain rfl := Option.some.inj hf
    have hnone : rangeIndexedPred (.compare 0 "a" .gt (.int 0))
        ⟨"t", [⟨"a", .int, false, false, false, false⟩]⟩ = none := by decide
    rw [hnone] at hrange
    cases hrange
  have hvalues : ∀ l ∈ [Literal.int 0], ∀ v ∈ l.values, v ∈ descendingValues := by decide +kernel
  have htyped : ∀ f, some (.compare 0 "a" .gt (.int 0)) = some f →
      PathTyped f ⟨"t", [⟨"a", .int, false, false, false, false⟩]⟩ := by
    rintro f ⟨⟩ col v c hindexed
    have hnone : indexedEqValue (.compare 0 "a" .gt (.int 0))
        ⟨"t", [⟨"a", .int, false, false, false, false⟩]⟩ = none := by decide
    cases hnone.symm.trans hindexed
  obtain ⟨found, hfound, hall⟩ := hout hpath
  obtain ⟨rows, hrows, heq⟩ := hall (.ofLists ["t"] descendingValues)
    (Lexicon.distinct_ofLists (by decide) (by decide +kernel)) hregular (List.mem_singleton_self _)
    hvalues htyped
  obtain rfl := Except.ok.inj (hscan.symm.trans hrows)
  exact ⟨found, hfound, _, hscan, rfl, heq⟩

def descendingEngine : Engine Crypto.clear := (descendingSteps.foldl step clearSession).engine

/-- What `CREATE RANGE INDEX ON t (a)` writes. -/
def descendingPlan : Plan Crypto.clear :=
  ⟨AuditKind.createIndex, "t", [addRangeBlob Crypto.clear () "t" 0 [(.int 1, 1), (.int 2, 0)],
    addSchema Crypto.clear () ⟨"t", [⟨"a", .int, false, false, false, true⟩]⟩],
    .indexCreated "t" "a" true⟩

/-- The map with the index. -/
def descendingMap : ByteMap :=
  applyAll descendingEngine.store.backend.map (descendingEngine.auditedBatch clearEnv descendingPlan)

theorem run_createRangeIndex_descending :
    (createRangeIndex Crypto.clear () "t" "a").run descendingEngine.store.reader =
      .ok descendingPlan := by
  have hschema : (expectSchema Crypto.clear () "t").run descendingEngine.store.reader =
      .ok ⟨"t", [⟨"a", .int, false, false, false, false⟩]⟩ := by decide
  have hscan : (scanRows Crypto.clear () "t").run descendingEngine.store.reader =
      .ok [(Crypto.clear.rowKey () "t" 0, [.int 2]), (Crypto.clear.rowKey () "t" 1, [.int 1])] := by
    decide
  have hentries : rangeEntriesOf 0 ([(Crypto.clear.rowKey () "t" 0, [Value.int 2]),
      (Crypto.clear.rowKey () "t" 1, [.int 1])].map fun e => (rowidFromKey e.1, e.2)) =
        [(.int 2, 0), (.int 1, 1)] := by decide
  -- The sort does not reduce, and two entries are swapped by hand.
  have hsort : sortRangeEntries [(.int 2, 0), (.int 1, 1)] = [(.int 1, 1), (.int 2, 0)] := by
    have hlt : compareValues (.int 2) (.int 1) = .gt := by decide
    simp [sortRangeEntries, List.mergeSort, List.MergeSort.Internal.splitInTwo, hlt]
  have hresolve : resolveColumn ⟨"t", [⟨"a", .int, false, false, false, false⟩]⟩ "a" "t" = .ok 0 := by
    decide
  simp only [createRangeIndex, Query.run_bind, hschema, ok_bind, Query.run_ofExcept, hresolve,
    List.getElem?_cons_zero, guardRead, if_true, Query.run_pure, hscan, hentries, hsort]
  rfl

/-- After `CREATE RANGE INDEX ON t (a)` the same query returns the row that was inserted last. -/
theorem last_inserted :
    let indexed := descendingSteps ++ [.statement clearEnv (.createIndex "t" "a" true)]
    let r := (indexed.foldl step clearSession).engine.store.reader
    clearSession.Fresh ∧ Along step (Clean .volatile) clearSession indexed ∧
      (scanRows Crypto.clear () "t").run r =
        .ok [(Crypto.clear.rowKey () "t" 0, [.int 2]), (Crypto.clear.rowKey () "t" 1, [.int 1])] ∧
      firstPositive.run r = .ok (["a"], [[.int 1]]) ∧
      ∀ sch filter found, (expectSchema Crypto.clear () "t").run r = .ok sch →
        (some (.compare "a" .gt (.int 0))).mapM (compileExpr sch) = .ok filter →
        ¬InsertionOrder Crypto.clear () r "t" sch filter .all (some ⟨1, 0⟩) found [[.int 1]] := by
  intro indexed r
  have hp : program Crypto.clear () (.createIndex "t" "a" true) =
    .mutate (createRangeIndex Crypto.clear () "t" "a") := rfl
  have ho : descendingEngine.store.overlay = none := rfl
  obtain ⟨-, tel, he⟩ := executeStatement_idle (show clearEnv.io = .ok from rfl) ho hp
    run_createRangeIndex_descending (by simp [descendingPlan])
  have hr : r = descendingMap.reader := by
    have hengine : (indexed.foldl step clearSession).engine =
      (descendingEngine.executeStatement clearEnv (.createIndex "t" "a" true)).2 := rfl
    change (indexed.foldl step clearSession).engine.store.reader = _
    rw [hengine, he, Store.reader_eq]
    exact congrArg ByteMap.reader (Store.map_write_ok _ _).2
  clear_value r
  subst hr
  refine ⟨fresh_clearSession, ⟨clean_volatile _ _ _, clean_volatile _ _ _, clean_volatile _ _ _,
    clean_volatile _ _ _, trivial⟩, by decide +kernel, by decide +kernel, ?_⟩
  rintro sch filter found hsch hfilter ⟨hfound, hordered, -⟩
  have hschema : (expectSchema Crypto.clear () "t").run descendingMap.reader =
      .ok ⟨"t", [⟨"a", .int, false, false, false, true⟩]⟩ := by decide +kernel
  obtain rfl := Except.ok.inj (hschema.symm.trans hsch)
  have hcompiled : (some (.compare "a" .gt (.int 0))).mapM
      (compileExpr ⟨"t", [⟨"a", .int, false, false, false, true⟩]⟩) =
        .ok (some (.compare 0 "a" .gt (.int 0))) := by decide
  obtain rfl := Except.ok.inj (hcompiled.symm.trans hfilter)
  have hrows : (matchingRows Crypto.clear () "t" ⟨"t", [⟨"a", .int, false, false, false, true⟩]⟩
      (some (.compare 0 "a" .gt (.int 0)))).run descendingMap.reader =
        .ok [(Crypto.clear.rowKey () "t" 1, [.int 1]), (Crypto.clear.rowKey () "t" 0, [.int 2])] := by
    decide +kernel
  obtain rfl := Except.ok.inj (hrows.symm.trans hfound)
  exact absurd hordered (by decide)

end Session

end Ciphra
