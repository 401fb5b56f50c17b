import Ciphra.Engine.Audit
import Ciphra.Engine.Definitions

/-!
# The catalog

A `CREATE TABLE` adds one record to the catalog. Whether the new table can be read back, and whether
the tables can still be listed, depends on the lengths of its names and on the number of its columns
alone: the schema codec narrows them to sixteen bits and nothing before it bounds them.
`createTable_readable_iff` says so for every state of the engine.
-/

namespace Ciphra

open OrdMap

variable {C : Crypto}

/-! ## Listing -/

/-- A scan after one entry has been added under its prefix. -/
theorem scanPrefix_perm {m m' : ByteMap} {p key x : Bytes} (hp : p <+: key)
    (hnew : m[key]? = none) (hkey : m'[key]? = some x)
    (hother : ∀ k, p <+: k → k ≠ key → m'[k]? = m[k]?) :
    (m'.scanPrefix p).Perm ((key, x) :: m.scanPrefix p) := by
  have hnodup : ∀ m : ByteMap, (m.scanPrefix p).Nodup := fun m => (m.sortedKeys_scanPrefix p).nodup
  refine (List.perm_ext_iff_of_nodup (hnodup m') (List.nodup_cons.mpr ⟨?_, hnodup m⟩)).mpr ?_
  · rw [ByteMap.mem_scanPrefix, hnew]
    rintro ⟨hx, -⟩
    cases hx
  · rintro ⟨k, y⟩
    rw [List.mem_cons, ByteMap.mem_scanPrefix, ByteMap.mem_scanPrefix, Prod.mk.injEq]
    by_cases hk : k = key
    · subst hk
      rw [hkey, hnew]
      constructor
      · rintro ⟨hy, -⟩
        exact Or.inl ⟨rfl, (Option.some.inj hy).symm⟩
      · rintro (⟨-, rfl⟩ | ⟨hy, -⟩)
        · exact ⟨rfl, hp⟩
        · cases hy
    · constructor
      · rintro ⟨hy, hpk⟩
        exact Or.inr ⟨(hother k hpk hk).symm.trans hy, hpk⟩
      · rintro (⟨rfl, -⟩ | ⟨hy, hpk⟩)
        · exact absurd rfl hk
        · exact ⟨(hother k hpk hk).trans hy, hpk⟩

/-- A loop over a permuted list. -/
theorem mapM_perm {ε α β : Type} {f : α → Except ε β} {l l' : List α} (h : l.Perm l') {out : List β}
    (hout : l.mapM f = .ok out) : ∃ out', l'.mapM f = .ok out' ∧ out.Perm out' := by
  induction h generalizing out with
  | nil => exact ⟨out, hout, .refl _⟩
  | cons a _ ih =>
    rw [List.mapM_cons] at hout
    obtain ⟨b, hb, hout⟩ := bind_eq_ok.mp hout
    obtain ⟨bs, hbs, hout⟩ := bind_eq_ok.mp hout
    cases hout
    obtain ⟨bs', hbs', hperm⟩ := ih hbs
    refine ⟨b :: bs', ?_, hperm.cons b⟩
    rw [List.mapM_cons, hb, ok_bind, hbs']
    rfl
  | swap a a' l =>
    rw [List.mapM_cons] at hout
    obtain ⟨b', hb', hout⟩ := bind_eq_ok.mp hout
    obtain ⟨bs, hbs, hout⟩ := bind_eq_ok.mp hout
    rw [List.mapM_cons] at hbs
    obtain ⟨b, hb, hbs⟩ := bind_eq_ok.mp hbs
    obtain ⟨cs, hcs, hbs⟩ := bind_eq_ok.mp hbs
    cases hbs
    cases hout
    refine ⟨b :: b' :: cs, ?_, .swap b b' cs⟩
    rw [List.mapM_cons, List.mapM_cons, hb, ok_bind, hb', ok_bind, hcs]
    rfl
  | trans _ _ ih ih' =>
    obtain ⟨out₁, hout₁, hperm₁⟩ := ih hout
    obtain ⟨out₂, hout₂, hperm₂⟩ := ih' hout₁
    exact ⟨out₂, hout₂, hperm₁.trans hperm₂⟩

/-- Sorted names do not depend on the order they come in. -/
theorem mergeSort_names {l l' : List String} (h : l.Perm l') :
    (l.mergeSort fun a b => (compare a b).isLE) = l'.mergeSort fun a b => (compare a b).isLE := by
  have hsorted : ∀ l : List String,
      (l.mergeSort fun a b => (compare a b).isLE).Pairwise fun a b => (compare a b).isLE = true := by
    intro l
    refine List.pairwise_mergeSort (fun a b c hab hbc => ?_) (fun a b => ?_) l
    · exact Std.TransCmp.isLE_trans hab hbc
    · have hswap : compare b a = (compare a b).swap := Std.OrientedOrd.eq_swap
      rw [hswap]
      cases compare a b <;> rfl
  refine List.Perm.eq_of_pairwise (fun a b _ _ hab hba => ?_) (hsorted l) (hsorted l') ?_
  · exact Std.LawfulEqCmp.eq_of_compare (Std.OrientedCmp.isLE_antisymm hab hba)
  · exact ((List.mergeSort_perm l _).trans h).trans (List.mergeSort_perm l' _).symm

/-- The name in a record of the catalog. -/
def recordedName (C : Crypto) (mk : C.MasterKey) (e : Bytes × Bytes) : Except EngineError String := do
  let plain ← openValue C (C.deriveKey mk "catalog") e.2 e.1
  let s ← decodeSchema plain
  pure s.name

theorem run_tables (mk : C.MasterKey) (m : ByteMap) :
    (tables C mk).run m.reader = ((m.scanPrefix catalogPrefix).mapM (recordedName C mk) >>= fun names =>
      pure (names.mergeSort fun a b => (compare a b).isLE)) := by
  simp only [tables, Query.run_bind, Query.run_entries, ok_bind, Query.run_mapM, Query.run_ofExcept,
    Query.run_pure]
  rfl

/-! ## Creating a table -/

/-- What an accepted `CREATE TABLE` has found and what it writes. -/
theorem createTable_eq_ok {mk : C.MasterKey} {r : Reader Bytes Bytes} {name : String}
    {columns : List ColumnDef} {plan : Plan C}
    (h : (createTable C mk name columns).run r = .ok plan) :
    r.get (C.catalogKey mk name) = none ∧
      plan = ⟨AuditKind.createTable, name, [addSchema C mk ⟨name, columns⟩], .created name⟩ := by
  rw [createTable, Query.run_bind_eq_ok] at h
  obtain ⟨existing, hexisting, h⟩ := h
  rw [Query.run_bind_eq_ok] at h
  obtain ⟨_, hguard, h⟩ := h
  obtain rfl := guardRead_eq_ok hguard
  refine ⟨?_, ?_⟩
  · rw [schema, Query.run_bind_eq_ok] at hexisting
    obtain ⟨found, hfound, hexisting⟩ := hexisting
    cases found with
    | none => exact Except.ok.inj hfound
    | some sealed =>
      rw [Query.run_bind_eq_ok] at hexisting
      obtain ⟨s, -, hs⟩ := hexisting
      cases hs
  · split at h
    · cases h
    · rw [Query.run_bind_eq_ok] at h
      obtain ⟨_, -, h⟩ := h
      split at h
      · cases h
      · cases h
        rfl

/-- The view after an accepted `CREATE TABLE`: one new record among those of the tables. -/
theorem view_createTable {e : Engine C} {env : Env C} {name : String} {columns : List ColumnDef}
    {r : QueryResult} (h : (e.executeStatement env (.createTable name columns)).1 = .ok r) :
    let m' := (e.executeStatement env (.createTable name columns)).2.store.view
    e.store.view[C.catalogKey e.master name]? = none ∧
      m'[C.catalogKey e.master name]? = some (C.sealWith (C.deriveKey e.master "catalog")
        (env.nonces 0) (encodeSchema ⟨name, columns⟩) (C.catalogKey e.master name)) ∧
      ∀ key, DataKey key → key ≠ C.catalogKey e.master name → m'[key]? = e.store.view[key]? := by
  intro m'
  have hp : program C e.master (.createTable name columns) =
    .mutate (createTable C e.master name columns) := rfl
  cases hq : (createTable C e.master name columns).run e.store.reader with
  | error err =>
    simp only [Engine.executeStatement, hp, Engine.read, hq] at h
    cases h
  | ok plan =>
    obtain ⟨hnew, rfl⟩ := createTable_eq_ok hq
    cases hc : (e.store.commit (e.auditedBatch env
        ⟨AuditKind.createTable, name, [addSchema C e.master ⟨name, columns⟩], .created name⟩)
        env.io).1 with
    | error err =>
      rw [e.executeStatement_refused env hp hq (by simp) hc] at h
      cases h
    | ok =>
      have hm' : m' = applyAll e.store.view (e.auditedBatch env
          ⟨AuditKind.createTable, name, [addSchema C e.master ⟨name, columns⟩], .created name⟩) := by
        simp only [m']
        rw [e.executeStatement_applied env hp hq (by simp) hc]
        exact Store.view_commit hc
      rw [Store.reader_eq] at hnew
      have hdata : ∀ key, DataKey key → m'[key]? = if C.catalogKey e.master name = key then
          some (C.sealWith (C.deriveKey e.master "catalog") (env.nonces 0)
            (encodeSchema ⟨name, columns⟩) (C.catalogKey e.master name))
          else e.store.view[key]? := by
        intro key hk
        rw [hm', Engine.auditedBatch, applyAll_append,
          getElem?_applyAll_auditWrites_of_dataKey _ _ _ _ hk]
        simp only [addSchema, Crypto.sealWrites, applyAll_cons, applyAll_nil, Mutation.apply,
          getElem?_insert_eq]
      refine ⟨hnew, ?_, fun key hk hne => ?_⟩
      · have hk : DataKey (C.catalogKey e.master name) := Or.inl (List.prefix_append _ _)
        rw [hdata _ hk, if_pos rfl]
      · rw [hdata key hk, if_neg (Ne.symm hne)]

/-- Reading the schema of a table that has just been created. -/
theorem schema_createTable {e : Engine C} {env : Env C} {name : String} {columns : List ColumnDef}
    {r : QueryResult} (h : (e.executeStatement env (.createTable name columns)).1 = .ok r) :
    (schema C e.master name).run
        (e.executeStatement env (.createTable name columns)).2.store.reader =
      decodeSchema (encodeSchema ⟨name, columns⟩) >>= fun s => pure (some s) := by
  obtain ⟨-, hkey, -⟩ := view_createTable h
  rw [Store.reader_eq]
  simp only [schema, Query.run_bind, run_reader_fetch, ok_bind, hkey, Query.run_ofExcept, openValue,
    C.openSealed_sealWith, Query.run_pure]
  rfl

/-- Listing the tables after one has been created. -/
theorem tables_createTable {e : Engine C} {env : Env C} {name : String} {columns : List ColumnDef}
    {r : QueryResult} (h : (e.executeStatement env (.createTable name columns)).1 = .ok r)
    (hdecode : decodeSchema (encodeSchema ⟨name, columns⟩) = .ok ⟨name, columns⟩)
    {others : List String} (hothers : (tables C e.master).run e.store.reader = .ok others) :
    (tables C e.master).run (e.executeStatement env (.createTable name columns)).2.store.reader =
      .ok ((name :: others).mergeSort fun a b => (compare a b).isLE) := by
  obtain ⟨hnew, hkey, hother⟩ := view_createTable h
  rw [Store.reader_eq, run_tables] at hothers ⊢
  obtain ⟨found, hfound, hothers⟩ := bind_eq_ok.mp hothers
  cases hothers
  have hunder : catalogPrefix <+: C.catalogKey e.master name := List.prefix_append _ _
  have hscan := scanPrefix_perm hunder hnew hkey fun key hp hne => hother key (Or.inl hp) hne
  have hname : recordedName C e.master (C.catalogKey e.master name,
      C.sealWith (C.deriveKey e.master "catalog") (env.nonces 0) (encodeSchema ⟨name, columns⟩)
        (C.catalogKey e.master name)) = .ok name := by
    simp only [recordedName, openValue, C.openSealed_sealWith, ok_bind, hdecode]
    rfl
  have hall : ((C.catalogKey e.master name, C.sealWith (C.deriveKey e.master "catalog")
      (env.nonces 0) (encodeSchema ⟨name, columns⟩) (C.catalogKey e.master name)) ::
        e.store.view.scanPrefix catalogPrefix).mapM (recordedName C e.master) =
      .ok (name :: found) := by
    rw [List.mapM_cons, hname, ok_bind, hfound]
    rfl
  obtain ⟨names, hnames, hperm⟩ := mapM_perm hscan.symm hall
  rw [hnames, ok_bind]
  refine congrArg Except.ok (mergeSort_names (hperm.symm.trans (List.Perm.cons name ?_)))
  exact (List.mergeSort_perm found _).symm

/-- **A new table is readable exactly if its lengths fit their fields.** After an accepted
`CREATE TABLE`, the schema is the declared one and the tables are listed with the new one among
them, exactly if the schema fits and they could be listed before. -/
theorem createTable_readable_iff (e : Engine C) (env : Env C) {name : String}
    {columns : List ColumnDef} (hparsed : (Statement.createTable name columns).Parsed)
    {r : QueryResult} (h : (e.executeStatement env (.createTable name columns)).1 = .ok r) :
    let e' := (e.executeStatement env (.createTable name columns)).2
    (decodeSchema (encodeSchema ⟨name, columns⟩) = .ok ⟨name, columns⟩ ∧
        (schema C e.master name).run e'.store.reader = .ok (some ⟨name, columns⟩) ∧
        ∃ others, (tables C e.master).run e.store.reader = .ok others ∧
          (tables C e.master).run e'.store.reader =
            .ok ((name :: others).mergeSort fun a b => (compare a b).isLE)) ↔
      SchemaFits ⟨name, columns⟩ ∧ ∃ others, (tables C e.master).run e.store.reader = .ok others := by
  intro e'
  constructor
  · rintro ⟨hdecode, -, others, hothers, -⟩
    have hname : NameBytes name := nameBytes_of_isIdent (hparsed.table name rfl)
    have hcols : ∀ c ∈ columns, NameBytes c.name :=
      fun c hc => nameBytes_of_isIdent (hparsed.declared c hc).name
    exact ⟨(decodeSchema_eq_ok hname hcols hdecode).2, others, hothers⟩
  · rintro ⟨hfits, others, hothers⟩
    have hdecode := decodeSchema_encodeSchema hfits
    refine ⟨hdecode, ?_, others, hothers, tables_createTable h hdecode hothers⟩
    rw [schema_createTable h, hdecode]
    rfl

open Session in
theorem parsed_tableStatement {name : String} (h : IsIdent name) : (tableStatement name).Parsed where
  table t ht := by
    cases ht
    exact h
  declared c hc := by
    obtain rfl := List.mem_singleton.mp hc
    exact ⟨by decide +kernel, rfl, rfl⟩
  literals l hl := by cases hl

open Session in
/-- A short name in a new database. -/
theorem createTable_readable_short :
    (schema Crypto.clear () "t").run
      (clearSession.engine.executeStatement clearEnv (tableStatement "t")).2.store.reader =
        .ok (some ⟨"t", [⟨"a", .int, false, false, false, false⟩]⟩) := by
  have h := (executeStatement_table clearEnv rfl rfl
    (getElem?_create_catalog "passphrase" .recommended clearOpenEnv "t")).1
  refine ((createTable_readable_iff clearSession.engine clearEnv
    (parsed_tableStatement (by decide +kernel)) h).mpr ⟨?_, [], ?_⟩).2.1
  · exact ⟨by decide +kernel, by decide, by decide +kernel⟩
  · decide +kernel

open Session in
/-- A name of `2 ^ 16` characters is accepted, and the table can never be read again. -/
theorem createTable_longName :
    let name := longName (2 ^ 16)
    let e' := (clearSession.engine.executeStatement clearEnv (tableStatement name)).2
    clearSession.Fresh ∧ (tableStatement name).Parsed ∧
      (clearSession.engine.executeStatement clearEnv (tableStatement name)).1 =
        .ok (.created name) ∧
      (∀ s, decodeSchema (encodeSchema ⟨name, [⟨"a", .int, false, false, false, false⟩]⟩) ≠ .ok s) ∧
      ∀ r, (schema Crypto.clear () name).run e'.store.reader ≠ .ok r := by
  intro name e'
  have h := (executeStatement_table clearEnv rfl rfl
    (getElem?_create_catalog "passphrase" .recommended clearOpenEnv name)).1
  have hdecode : ∀ s, decodeSchema (encodeSchema
      ⟨name, [⟨"a", .int, false, false, false, false⟩]⟩) ≠ .ok s := by
    intro s hs
    have hfits := (decodeSchema_eq_ok (nameBytes_of_isIdent (isIdent_longName _)) (fun c hc => by
      obtain rfl := List.mem_singleton.mp hc
      exact nameBytes_of_isIdent (by decide +kernel)) hs).2
    have hlen := hfits.name
    rw [length_utf8_longName] at hlen
    exact lt_irrefl _ hlen
  refine ⟨fresh_clearSession, parsed_tableStatement (isIdent_longName _), h, hdecode, fun r hr => ?_⟩
  have hschema : (schema Crypto.clear () name).run e'.store.reader = _ := schema_createTable h
  rw [hschema] at hr
  obtain ⟨s, hs, -⟩ := bind_eq_ok.mp hr
  exact hdecode s hs

end Ciphra
