import Ciphra.Engine.Cursor
import Ciphra.Engine.Rebuild
import Ciphra.Engine.Reach

/-!
# Tables along a run

Every statement that writes changes the slots of one table and keeps it well formed; a rotation
rebuilds all of them. So the maps of a session always store well-formed tables, for the backend as
for the view: `stores_run`. This holds as far as the statements stay within what the encodings can
carry, and that is what `Statement.Regular` collects: the values they store fit their fields, row
ids do not run out, and no `UPDATE` replaces a value of an exact column by one that is equal to it
but encoded differently.
-/

namespace Ciphra

open OrdMap

variable {C : Crypto} {L : Lexicon} {X : Exactness} {mk : C.MasterKey} {m : ByteMap}
  {D : String → Table} {t : String}

/-! ## What is asked of a statement -/

/-- An `INSERT` does not use up the row ids of its table. -/
def HasIds (mk : C.MasterKey) (r : Reader Bytes Bytes) : Statement → Prop
  | .insert table _ rows => ∀ next, (loadSeq C mk table).run r = .ok next →
      next.toNat + rows.length < 2 ^ 64
  | _ => True

/-- An `UPDATE` replaces no value of an exact column that is indexed by another one that is equal to
it: on REAL, one zero by the other. -/
def KeepsZeros (X : Exactness) (mk : C.MasterKey) (r : Reader Bytes Bytes) : Statement → Prop
  | .update table assignments predicate => ∀ s filter resolved rows,
      (expectSchema C mk table).run r = .ok s → predicate.mapM (compileExpr s) = .ok filter →
      resolveAssignments s table assignments [] = .ok resolved →
      (scanRows C mk table).run r = .ok rows →
      ∀ e ∈ rows, filterMatches filter e.2 = .ok true →
      ∀ a ∈ resolved, ∀ c, s.columns[a.1]? = some c → X c.ty c.primaryKey → c.covered = true →
        (e.2.cell a.1).beq a.2 = true → e.2.cell a.1 = a.2
  | _ => True

/-- The statement stays within what the encodings can carry. -/
structure Statement.Regular (L : Lexicon) (mk : C.MasterKey) (r : Reader Bytes Bytes)
    (st : Statement) : Prop where
  parsed : st.Parsed
  within : st.Within L
  fits : st.Fits
  ids : HasIds mk r st

theorem Statement.Regular.literalsOk {r : Reader Bytes Bytes} {st : Statement}
    (h : st.Regular L mk r) (hsub : ∀ l ∈ st.stored, l ∈ st.literals) :
    LiteralsOk L st.stored :=
  fun l hl => ⟨h.parsed.literals l (hsub l hl), fun v hv =>
    ⟨h.within.literals l (hsub l hl) v hv, h.fits l hl v hv⟩⟩

/-- An `UPDATE` that keeps the zeros keeps its table exact. -/
theorem KeepsZeros.exact (h : Rep L mk m D) (ht : t ∈ L.names) (hwf : Wf L X t (D t))
    {targets : List Assignment} {predicate : Option Expr}
    (hk : KeepsZeros X mk m.reader (.update t targets predicate)) {s : TableSchema}
    (hs : (expectSchema C mk t).run m.reader = .ok s) : KeepsExact X t (D t) targets predicate := by
  obtain ⟨hcatalog, -⟩ := h.expectSchema_of_run ht hwf hs
  obtain ⟨es, -, hall, hscan⟩ := h.run_scanRows ht (hwf.content s hcatalog).fits
  intro s' filter resolved hs' hfilter hresolved id row hrow hmatch e he c hc hX hcov hbeq
  rw [hcatalog] at hs'
  cases hs'
  exact hk s filter resolved _ hs hfilter hresolved hscan (C.rowKey mk t id, row)
    (List.mem_map.mpr ⟨(id, row), hall id row hrow, rfl⟩) hmatch e he c hc hX hcov hbeq

/-! ## Statements -/

/-- **Every statement that writes patches one table and keeps it well formed.** -/
theorem statement_wf (h : Rep L mk m D) (hwf : ∀ t ∈ L.names, Wf L X t (D t)) {st : Statement}
    (hst : st.Regular L mk m.reader)
    (hk : KeepsZeros X mk m.reader st ∨ ∀ ty pk, X ty pk → ty = .int ∨ ty = .text)
    {q : Read (Plan C)} (hp : program C mk st = .mutate q) {plan : Plan C}
    (hrun : q.run m.reader = .ok plan) :
    ∃ t ∈ L.names, ∃ ws, st.table = some t ∧ plan.writes = ws.map (Patch.unsealed C mk t) ∧
      (∀ w ∈ ws, w.slot.Valid L) ∧ Wf L X t (patchAll (D t) ws) := by
  cases st with
  | createTable name columns =>
    cases hp
    have ht := hst.within.table name rfl
    obtain ⟨ws, hwrites, hvalid, hwf', -⟩ := createTable_wf h ht (hwf name ht)
      (hst.parsed.table name rfl) hst.parsed.declared hrun
    exact ⟨name, ht, ws, rfl, hwrites, hvalid, hwf'⟩
  | dropTable name =>
    cases hp
    have ht := hst.within.table name rfl
    obtain ⟨ws, hwrites, hvalid, hnone, -⟩ := dropTable_wf h ht (hwf name ht) hrun
    exact ⟨name, ht, ws, rfl, hwrites, hvalid, by rw [hnone]; exact wf_empty L X name⟩
  | createIndex table column range =>
    have ht := hst.within.table table rfl
    cases range with
    | false =>
      cases hp
      obtain ⟨ws, hwrites, hvalid, hwf', -⟩ := createIndex_wf h ht (hwf table ht) hrun
      exact ⟨table, ht, ws, rfl, hwrites, hvalid, hwf'⟩
    | true =>
      cases hp
      obtain ⟨ws, hwrites, hvalid, hwf', -⟩ := createRangeIndex_wf h ht (hwf table ht) hrun
      exact ⟨table, ht, ws, rfl, hwrites, hvalid, hwf'⟩
  | dropIndex table column range =>
    have ht := hst.within.table table rfl
    cases range with
    | false =>
      cases hp
      obtain ⟨ws, hwrites, hvalid, hwf', -⟩ := dropIndex_wf h ht (hwf table ht) hrun
      exact ⟨table, ht, ws, rfl, hwrites, hvalid, hwf'⟩
    | true =>
      cases hp
      obtain ⟨ws, hwrites, hvalid, hwf', -⟩ := dropRangeIndex_wf h ht (hwf table ht) hrun
      exact ⟨table, ht, ws, rfl, hwrites, hvalid, hwf'⟩
  | insert table columns rows =>
    cases hp
    have ht := hst.within.table table rfl
    obtain ⟨s, ws, _, _, hs, hwrites, hvalid, hch, -⟩ := insert_changes h ht (hwf table ht)
      (hst.literalsOk fun l hl => hl) (hst.ids _ (h.run_loadSeq ht)) hrun
    exact ⟨table, ht, ws, rfl, hwrites, hvalid, hch.wf (hwf table ht) hs⟩
  | update table targets predicate =>
    cases hp
    have ht := hst.within.table table rfl
    have hexact : KeepsExact X table (D table) targets predicate := by
      rcases hk with hk | hX
      · obtain ⟨s, hs, -⟩ := Query.run_bind_eq_ok.mp hrun
        exact hk.exact h ht (hwf table ht) hs
      · exact keepsExact_of_beq (hwf table ht) hX targets predicate
    obtain ⟨s, ws, _, _, _, hs, hwrites, hvalid, hch, -⟩ := update_changes h ht (hwf table ht)
      (fun l hl => hst.within.literals l (List.mem_append_right _ hl))
      (hst.literalsOk fun l hl => List.mem_append_left _ hl) hexact hrun
    exact ⟨table, ht, ws, rfl, hwrites, hvalid, hch.wf (hwf table ht) hs⟩
  | delete table predicate =>
    cases hp
    have ht := hst.within.table table rfl
    obtain ⟨s, ws, _, _, hs, hwrites, hvalid, hch, -⟩ := delete_changes h ht (hwf table ht)
      hst.within.literals hrun
    exact ⟨table, ht, ws, rfl, hwrites, hvalid, hch.wf (hwf table ht) hs⟩
  | select | explain | begin | commit | rollback => cases hp

/-! ## Runs -/

/-- The map stores well-formed tables. -/
def Stores (L : Lexicon) (X : Exactness) (mk : C.MasterKey) (m : ByteMap) : Prop :=
  ∃ D, Rep L mk m D ∧ ∀ t ∈ L.names, Wf L X t (D t)

/-- A plan that patches a table, committed with its audit entry. -/
theorem Rep.audited (h : Rep L mk m D) (ht : t ∈ L.names) {ws : List (Patch Slot.Payload)}
    (hvalid : ∀ w ∈ ws, w.slot.Valid L) (nonces nonces' : ℕ → C.Nonce) (entry : AuditEntry) :
    Rep L mk (applyAll m (C.sealWrites nonces (ws.map (Patch.unsealed C mk t)) ++
        C.sealWrites nonces' (C.auditWrites mk entry)))
      (Function.update D t (Ciphra.patchAll (D t) ws)) := by
  rw [applyAll_append]
  exact (h.patchAll ht hvalid nonces).audit nonces' (not_dataKey_auditWrites mk entry)

namespace Session

/-- What is asked of the steps of a run. -/
def Regular (L : Lexicon) (X : Exactness) (s : Session C) : Step C → Prop
  | .statement _ st => st.Regular L s.engine.master s.engine.store.reader ∧
      KeepsZeros X s.engine.master s.engine.store.reader st
  | .rotate env newPassphrase kdf => L.Distinct (C.derive kdf newPassphrase env.openEnv.salt.1)
  | .reopen _ _ => True

/-- The statements and rotations of a run keep the tables well formed. -/
theorem keeps_stores (mode : Mode) {P : Session C → Step C → Prop}
    (hP : ∀ s env st, P s (.statement env st) →
      st.Regular L s.engine.master s.engine.store.reader ∧
        (KeepsZeros X s.engine.master s.engine.store.reader st ∨
          ∀ ty pk, X ty pk → ty = .int ∨ ty = .text))
    (hR : ∀ s env newPassphrase kdf, P s (.rotate env newPassphrase kdf) →
      L.Distinct (C.derive kdf newPassphrase env.openEnv.salt.1)) :
    Keeps mode P (fun mk m (_ : Unit) => Stores L X mk m) (fun _ _ _ g => g) fun _ _ g => g where
  plan s env st q plan g hst hp hrun _ _ := by
    rintro ⟨D, hrep, hwf⟩
    obtain ⟨hreg, hk⟩ := hP s env st hst
    rw [Store.reader_eq] at hreg hk
    obtain ⟨t, ht, ws, -, hwrites, hvalid, hwf'⟩ := statement_wf hrep hwf hreg hk hp hrun
    refine ⟨Function.update D t (patchAll (D t) ws), ?_, fun t' ht' => ?_⟩
    · rw [Engine.auditedBatch, hwrites]
      exact hrep.audited ht hvalid _ _ _
    · by_cases heq : t' = t
      · subst heq
        rw [Function.update_self]
        exact hwf'
      · rw [Function.update_of_ne heq]
        exact hwf t' ht'
  rotation s env newPassphrase kdf tables audit g hrotate _ htables haudit _ := by
    rintro ⟨D, hrep, hwf⟩
    exact ⟨_, hrep.rotation hwf (hR s env newPassphrase kdf hrotate) htables (carryAudit_keys haudit), fun t ht =>
      (hrep.rebuiltTables_wf hwf htables t ht).1⟩

theorem stores_fresh (hL : L.Distinct mk) (X : Exactness) (passphrase : String) (kdf : KdfParams)
    (env : Engine.OpenEnv C) :
    Stores L X mk (Storage.applyLog ∅ (Engine.freshBatches passphrase kdf env)) :=
  ⟨fun _ _ => none, rep_fresh hL passphrase kdf env, fun t _ => wf_empty L X t⟩

/-- **In every run, the backend and the view store well-formed tables.** -/
theorem stores_run {mode : Mode} {P : Session C → Step C → Prop}
    (hP : ∀ s env st, P s (.statement env st) →
      st.Regular L s.engine.master s.engine.store.reader ∧
        (KeepsZeros X s.engine.master s.engine.store.reader st ∨
          ∀ ty pk, X ty pk → ty = .int ∨ ty = .text))
    (hR : ∀ s env newPassphrase kdf, P s (.rotate env newPassphrase kdf) →
      L.Distinct (C.derive kdf newPassphrase env.openEnv.salt.1))
    {s : Session C} (hs : s.Fresh) (hL : L.Distinct s.engine.master) {steps : List (Step C)}
    (hrun : Along Session.step (fun s a => P s a ∧ Clean mode s a) s steps) :
    let s' := steps.foldl Session.step s
    Stores L X s'.engine.master s'.engine.store.backend.map ∧
      Stores L X s'.engine.master s'.engine.store.view := by
  have h := sound_run (keeps_stores mode hP hR) (x := ())
    (fun kdf env hmaster => stores_fresh (hmaster ▸ hL) X _ kdf env) hs hrun
  exact ⟨h.base, h.view⟩

/-- Where appends may fail in any way, nothing is asked of the records of statements. -/
theorem clean_volatile (s : Session C) (env : Env C) (st : Statement) :
    Clean .volatile s (.statement env st) := ⟨nofun, nofun⟩

end Session

/-! ## A run with several rows -/

/-- The lexicon of two lists. -/
def Lexicon.ofLists (names : List String) (values : List Value) : Lexicon :=
  ⟨{t | t ∈ names}, {v | v ∈ values}⟩

theorem Lexicon.distinct_ofLists {names : List String} {values : List Value}
    (hnames : (names.map (Crypto.clear.tableTag ())).Nodup)
    (hvalues : (values.map (Crypto.clear.valueTag () "" 0)).Nodup) :
    (Lexicon.ofLists names values).Distinct (C := Crypto.clear) () :=
  ⟨fun _ h _ h' => List.inj_on_of_nodup_map hnames h h',
    fun _ _ _ _ _ h _ h' => List.inj_on_of_nodup_map hvalues h h'⟩

/-- What can be told of regularity from the statement alone, against lists of names and values. -/
def Statement.Listed (names : List String) (values : List Value) (st : Statement) : Prop :=
  (∀ t ∈ st.table, IsIdent t ∧ t ∈ names) ∧ (∀ c ∈ st.declared, c.Parsed) ∧
    (∀ l ∈ st.literals, l.Lexed ∧ ∀ v ∈ l.values, v ∈ values) ∧
    ∀ l ∈ st.stored, ∀ v ∈ l.values, (encodeRow [v]).length < 2 ^ 32

instance (names : List String) (values : List Value) (st : Statement) :
    Decidable (st.Listed names values) :=
  inferInstanceAs (Decidable (_ ∧ _ ∧ _ ∧ _))

theorem Statement.Listed.regular {names : List String} {values : List Value} {st : Statement}
    (h : st.Listed names values) {r : Reader Bytes Bytes} (hids : HasIds mk r st) :
    st.Regular (Lexicon.ofLists names values) mk r := by
  obtain ⟨htable, hdeclared, hliterals, hstored⟩ := h
  exact ⟨⟨fun t ht => (htable t ht).1, hdeclared, fun l hl => (hliterals l hl).1⟩,
    ⟨fun t ht => (htable t ht).2, fun l hl => (hliterals l hl).2⟩,
    fun l hl v hv => (Value.blobFits_iff v).mpr (hstored l hl v hv), hids⟩

theorem hasIds_insert {r : Reader Bytes Bytes} {columns : Option (List String)}
    {rows : List (List Literal)} {next : UInt64} (hseq : (loadSeq C mk t).run r = .ok next)
    (hnext : next.toNat + rows.length < 2 ^ 64) : HasIds mk r (.insert t columns rows) := by
  intro n hn
  cases hseq.symm.trans hn
  exact hnext

/-- An `UPDATE` that assigns texts keeps the zeros. -/
theorem keepsZeros_texts {r : Reader Bytes Bytes} {targets : List Assignment}
    {predicate : Option Expr} (h : ∀ l ∈ targets.map Assignment.value, ∃ x, l = .text x) :
    KeepsZeros X mk r (.update t targets predicate) := by
  intro s filter resolved rows _ _ hresolved _ e _ _ a ha c hc _ _ hbeq
  obtain ⟨c', -, l, hl, hcoerce⟩ := (resolveAssignments_eq_ok hresolved).2.2 a ha
  obtain ⟨x, rfl⟩ := h l hl
  obtain hnull | hmem := coerce_mem hcoerce
  · rw [hnull, Value.beq_null_right] at hbeq
    rw [hnull, (Value.isNull_iff _).mp hbeq]
  · rw [List.mem_singleton.mp hmem] at hbeq ⊢
    cases hcell : e.2.cell a.1 with
    | text y =>
      rw [hcell] at hbeq
      rw [beq_iff_eq.mp hbeq]
    | _ =>
      rw [hcell] at hbeq
      cases hbeq

namespace Session

/-- The statements of a run on one table. The second `INSERT` repeats a key and is refused. -/
def shelfStatements : List Statement :=
  [.createTable "t" [⟨"k", .text, false, true, false, false⟩, ⟨"n", .int, false, false, false, false⟩,
      ⟨"x", .text, false, false, false, false⟩],
    .createIndex "t" "n" false, .createIndex "t" "x" true,
    .insert "t" none [[.text "a", .int 1, .null], [.text "b", .int 2, .text "p"],
      [.text "c", .int 2, .null]],
    .insert "t" none [[.text "d", .int 3, .null], [.text "b", .int 3, .null]],
    .update "t" [⟨"k", .text "d"⟩, ⟨"x", .text "q"⟩] (some (.compare "k" .eq (.text "b"))),
    .begin, .delete "t" (some (.compare "k" .eq (.text "c"))), .commit,
    .select (.columns ["n", "k"]) "t" (some (.compare "n" .gt (.int 0))) [] none none none]

def shelfSteps : List (Step Crypto.clear) := shelfStatements.map (.statement clearEnv)

/-- What a statement returns. -/
def answer (s : Session C) : Step C → Except EngineError QueryResult
  | .statement env st => (s.engine.executeStatement env st).1
  | _ => .error .panicked

example : transcript step answer clearSession shelfSteps =
    [.ok (.created "t"), .ok (.indexCreated "t" "n" false), .ok (.indexCreated "t" "x" true),
      .ok (.inserted 3), .error (.constraint "duplicate value for primary key \"k\""),
      .ok (.updated 1), .ok .begin, .ok (.deleted 1), .ok .committed,
      .ok (.rows ["n", "k"] [[.int 1, .text "a"], [.int 2, .text "d"]])] := by
  decide +kernel

/-- The table after the run. -/
def shelfSchema : TableSchema :=
  ⟨"t", [⟨"k", .text, false, true, false, false⟩, ⟨"n", .int, false, false, true, false⟩,
    ⟨"x", .text, false, false, false, true⟩]⟩

def shelfValues : List Value :=
  [.text "a", .text "b", .text "c", .text "d", .text "p", .text "q", .int 0, .real (F64.ofInt 0),
    .int 1, .real (F64.ofInt 1), .int 2, .real (F64.ofInt 2), .int 3, .real (F64.ofInt 3)]

def shelfLexicon : Lexicon := .ofLists ["t"] shelfValues

theorem distinct_shelf : shelfLexicon.Distinct (C := Crypto.clear) () :=
  Lexicon.distinct_ofLists (by decide) (by decide +kernel)

theorem regular_shelf (X : Exactness) :
    Along step (fun s a => Regular shelfLexicon X s a ∧ Clean .volatile s a) clearSession
      shelfSteps := by
  have hlisted : ∀ st ∈ shelfStatements, st.Listed ["t"] shelfValues := by decide +kernel
  have hseq : (loadSeq Crypto.clear () "t").run
      ((shelfSteps.take 3).foldl step clearSession).engine.store.reader = .ok 0 := by decide +kernel
  have hseq' : (loadSeq Crypto.clear () "t").run
      ((shelfSteps.take 4).foldl step clearSession).engine.store.reader = .ok 3 := by decide +kernel
  simp only [shelfStatements, List.forall_mem_cons] at hlisted
  obtain ⟨h₁, h₂, h₃, h₄, h₅, h₆, h₇, h₈, h₉, h₁₀, -⟩ := hlisted
  exact ⟨⟨⟨h₁.regular trivial, trivial⟩, clean_volatile _ _ _⟩,
    ⟨⟨h₂.regular trivial, trivial⟩, clean_volatile _ _ _⟩,
    ⟨⟨h₃.regular trivial, trivial⟩, clean_volatile _ _ _⟩,
    ⟨⟨h₄.regular (hasIds_insert hseq (by decide)), trivial⟩, clean_volatile _ _ _⟩,
    ⟨⟨h₅.regular (hasIds_insert hseq' (by decide)), trivial⟩, clean_volatile _ _ _⟩,
    ⟨⟨h₆.regular trivial, keepsZeros_texts (by simp)⟩, clean_volatile _ _ _⟩,
    ⟨⟨h₇.regular trivial, trivial⟩, clean_volatile _ _ _⟩,
    ⟨⟨h₈.regular trivial, trivial⟩, clean_volatile _ _ _⟩,
    ⟨⟨h₉.regular trivial, trivial⟩, clean_volatile _ _ _⟩,
    ⟨⟨h₁₀.regular trivial, trivial⟩, clean_volatile _ _ _⟩, trivial⟩

theorem schema_shelf : (schema Crypto.clear () "t").run
    (shelfSteps.foldl step clearSession).engine.store.view.reader = .ok (some shelfSchema) := by
  rw [← Store.reader_eq]
  decide +kernel

/-- The rows after the run, with their keys. -/
def shelfRows : List (Bytes × Row) :=
  [(Crypto.clear.rowKey () "t" 0, [.text "a", .int 1, .null]),
    (Crypto.clear.rowKey () "t" 1, [.text "d", .int 2, .text "q"])]

theorem scanRows_shelf : (scanRows Crypto.clear () "t").run
    (shelfSteps.foldl step clearSession).engine.store.view.reader = .ok shelfRows := by
  rw [← Store.reader_eq]
  decide +kernel

end Session

end Ciphra
