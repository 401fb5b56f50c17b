import Ciphra.Engine.Session

/-!
# Invariants of sessions

Every statement that writes, every rotation and every reopen treats the reserved records of a
database in the same way, whatever its tables hold. This module says so once. `Sound` is the
invariant of a session: its database can be opened again, the backend and the view both satisfy a
given property of stored maps, and the cached audit head is the stored one. `Sound.step` reduces
its preservation to what a batch of data writes and a rebuilt database do to that property.

The property may relate the map to a history. The history of a session is kept twice, for the
backend and for the view, which part at `BEGIN` and meet again at the end of a transaction.
-/

namespace Ciphra

open OrdMap
open Storage (Io Fits Intact)

variable {C : Crypto}

/-! ## Batches on a map -/

theorem auditPrefix_auditKey (seq : UInt64) : auditPrefix <+: auditKey seq := List.prefix_append _ _

theorem auditKey_ne_auditHeadKey (seq : UInt64) : auditKey seq ≠ auditHeadKey := by
  simp [auditKey, auditPrefix, auditHeadKey]

theorem map_key_sealWrites (nonces : ℕ → C.Nonce) (ws : List (Unsealed C)) :
    (C.sealWrites nonces ws).map Mutation.key = ws.map Unsealed.key := by
  induction ws generalizing nonces with
  | nil => rfl
  | cons w ws ih => cases w <;> simp [Crypto.sealWrites, Mutation.key, Unsealed.key, ih]

theorem mem_sealWrites_of_mem (nonces : ℕ → C.Nonce) {ws : List (Unsealed C)} {key plain : Bytes}
    {cipher : C.CipherKey} (h : .put key cipher plain ∈ ws) :
    ∃ nonce, .put key (C.sealWith cipher nonce plain key) ∈ C.sealWrites nonces ws := by
  induction ws generalizing nonces with
  | nil => cases h
  | cons w ws ih =>
    rcases List.mem_cons.mp h with rfl | hmem
    · exact ⟨nonces 0, List.mem_cons_self⟩
    · cases w with
      | put key' cipher' plain' =>
        obtain ⟨nonce, hn⟩ := ih (fun n => nonces (n + 1)) hmem
        exact ⟨nonce, List.mem_cons_of_mem _ hn⟩
      | delete key' =>
        obtain ⟨nonce, hn⟩ := ih nonces hmem
        exact ⟨nonce, List.mem_cons_of_mem _ hn⟩

/-- Data writes leave reserved keys alone. -/
theorem getElem?_applyAll_dataWrites (m : ByteMap) {ws : List (Unsealed C)} (h : DataWrites ws)
    (nonces : ℕ → C.Nonce) {key : Bytes} (hk : ¬ DataKey key) :
    (applyAll m (C.sealWrites nonces ws))[key]? = m[key]? := by
  refine getElem?_applyAll_of_notMem _ _ _ fun op hop he => ?_
  obtain ⟨w, hw, hkey⟩ := mem_sealWrites hop
  exact hk (he ▸ hkey ▸ h w hw)

/-- The two writes of an audit entry, looked up. -/
theorem getElem?_applyAll_auditWrites (m : ByteMap) (nonces : ℕ → C.Nonce) (mk : C.MasterKey)
    (entry : AuditEntry) (key : Bytes) :
    (applyAll m (C.sealWrites nonces (C.auditWrites mk entry)))[key]? =
      if key = auditHeadKey then
        some (C.sealWith (C.deriveKey mk "audit") (nonces 1)
          (Crypto.headBytes (entry.seq + 1, C.entryRoot entry)) auditHeadKey)
      else if key = auditKey entry.seq then
        some (C.sealWith (C.deriveKey mk "audit") (nonces 0) entry.encode (auditKey entry.seq))
      else m[key]? := by
  simp only [Crypto.auditWrites, Crypto.sealWrites, applyAll_cons, applyAll_nil, Mutation.apply,
    getElem?_insert_eq, eq_comm (a := key)]

/-- An audit entry leaves the data alone. -/
theorem getElem?_applyAll_auditWrites_of_dataKey (m : ByteMap) (nonces : ℕ → C.Nonce)
    (mk : C.MasterKey) (entry : AuditEntry) {key : Bytes} (hk : DataKey key) :
    (applyAll m (C.sealWrites nonces (C.auditWrites mk entry)))[key]? = m[key]? := by
  have hhead : key ≠ auditHeadKey := by
    rintro rfl
    exact not_dataKey_auditHeadKey hk
  have hentry : key ≠ auditKey entry.seq := by
    rintro rfl
    exact not_dataKey_of_auditPrefix (auditPrefix_auditKey _) hk
  rw [getElem?_applyAll_auditWrites, if_neg hhead, if_neg hentry]

/-- The batch of a statement: data writes, then its audit entry. -/
theorem getElem?_applyAll_audited (m : ByteMap) {ws : List (Unsealed C)} (h : DataWrites ws)
    (nonces nonces' : ℕ → C.Nonce) (mk : C.MasterKey) (entry : AuditEntry) (key : Bytes)
    (hk : ¬ DataKey key) (hhead : key ≠ auditHeadKey) (hentry : key ≠ auditKey entry.seq) :
    (applyAll m (C.sealWrites nonces ws ++ C.sealWrites nonces' (C.auditWrites mk entry)))[key]? =
      m[key]? := by
  rw [applyAll_append, getElem?_applyAll_auditWrites, if_neg hhead, if_neg hentry,
    getElem?_applyAll_dataWrites _ h _ hk]

/-- Reserved records other than the chain are not touched by a statement. -/
theorem opens_audited {m : ByteMap} {passphrase : String} {mk : C.MasterKey}
    (h : Engine.Opens m passphrase mk) {ws : List (Unsealed C)} (hw : DataWrites ws)
    (nonces nonces' : ℕ → C.Nonce) (entry : AuditEntry) :
    Engine.Opens (applyAll m (C.sealWrites nonces ws ++
      C.sealWrites nonces' (C.auditWrites mk entry))) passphrase mk := by
  obtain ⟨⟨kdf, salt, hparams, hrest⟩, ⟨sealed, plain, hcanary, hopen⟩⟩ := h
  have hk : keyparamsKey ≠ auditKey entry.seq := by simp [keyparamsKey, auditKey, auditPrefix]
  have hc : canaryKey ≠ auditKey entry.seq := by simp [canaryKey, auditKey, auditPrefix]
  refine ⟨⟨kdf, salt, ?_, hrest⟩, ⟨sealed, plain, ?_, hopen⟩⟩
  · rw [getElem?_applyAll_audited m hw _ _ _ _ _ not_dataKey_keyparamsKey (by decide) hk, hparams]
  · rw [getElem?_applyAll_audited m hw _ _ _ _ _ not_dataKey_canaryKey (by decide) hc, hcanary]

/-- The rebuilt tables do not touch reserved keys. -/
theorem getElem?_applyLog_tables {mk : C.MasterKey} {nonces : ℕ → ℕ → C.Nonce}
    (tables : List (TableSnapshot × ℕ)) (m : ByteMap) {key : Bytes} (hk : ¬ DataKey key) :
    (Storage.applyLog m (tables.map fun t =>
      C.sealWrites (nonces t.2) (rebuildTable C mk t.1)))[key]? = m[key]? := by
  induction tables generalizing m with
  | nil => rfl
  | cons t tables ih =>
    rw [List.map_cons, Storage.applyLog, List.foldl_cons, ← Storage.applyLog, ih,
      getElem?_applyAll_dataWrites _ (rebuildTable_dataKeys _) _ hk]

/-- A new database holds its parameters and its canary. -/
theorem getElem?_freshBatches (passphrase : String) (kdf : KdfParams) (env : Engine.OpenEnv C)
    (key : Bytes) :
    (Storage.applyLog ∅ (Engine.freshBatches passphrase kdf env))[key]? =
      if key = canaryKey then
        some (C.sealWith (C.deriveKey (C.derive kdf passphrase env.salt.1) "canary") env.nonce
          canaryPlaintext canaryKey)
      else if key = keyparamsKey then some (encodeKeyparams kdf env.salt.1)
      else none := by
  simp only [Engine.freshBatches, Storage.applyLog, List.foldl_cons, List.foldl_nil, applyAll_cons,
    applyAll_nil, Mutation.apply, getElem?_insert_eq, eq_comm (a := key),
    Std.ExtTreeMap.getElem?_empty]

/-- It holds no chain. -/
theorem freshBatches_audit (passphrase : String) (kdf : KdfParams) (env : Engine.OpenEnv C)
    {key : Bytes} (hp : auditPrefix <+: key ∨ key = auditHeadKey) :
    (Storage.applyLog ∅ (Engine.freshBatches passphrase kdf env))[key]? = none := by
  rw [getElem?_freshBatches, if_neg, if_neg]
  · rintro rfl
    revert hp
    decide
  · rintro rfl
    revert hp
    decide

/-- The stored head is determined by the map. -/
theorem Engine.HeadIs.unique {m : ByteMap} {mk : C.MasterKey} {head head' : AuditHead}
    (h : Engine.HeadIs C m mk head) (h' : Engine.HeadIs C m mk head') : head = head' := by
  rcases h with ⟨hn, rfl⟩ | ⟨nonce, hs⟩ <;> rcases h' with ⟨hn', rfl⟩ | ⟨nonce', hs'⟩
  · rfl
  · rw [hn] at hs'
    cases hs'
  · rw [hn'] at hs
    cases hs
  · have heq := Option.some.inj (hs.symm.trans hs')
    have hread := Engine.readHead_headBytes (C.deriveKey mk "audit") nonce head
    rw [heq, Engine.readHead_headBytes] at hread
    exact (Except.ok.inj hread).symm

/-- An audit entry stores the head that follows it. -/
theorem headIs_audited (m : ByteMap) (mk : C.MasterKey) (ws : List (Unsealed C))
    (nonces nonces' : ℕ → C.Nonce) (entry : AuditEntry) :
    Engine.HeadIs C (applyAll m (C.sealWrites nonces ws ++
      C.sealWrites nonces' (C.auditWrites mk entry))) mk (entry.seq + 1, C.entryRoot entry) := by
  refine Or.inr ⟨nonces' 1, ?_⟩
  rw [applyAll_append, getElem?_applyAll_auditWrites, if_pos rfl]

/-- Carrying the chain over writes to the keys it has found. -/
theorem carryAudit_scanned {r : Reader Bytes Bytes} {mk new : C.MasterKey}
    {audit : List (Unsealed C)} (h : (carryAudit C mk new).run r = .ok audit) :
    ∀ w ∈ audit, ∃ e ∈ r.scan auditPrefix, w.key = e.1 := by
  have hens : Query.Ensures (· = r) (carryAudit C mk new)
      fun ws => ∀ w ∈ ws, ∃ e ∈ r.scan auditPrefix, w.key = e.1 := by
    refine Query.Ensures.bind (P := fun pairs => pairs = r.scan auditPrefix) ?_
      fun pairs hp => Query.Ensures.mapM fun e he => ?_
    · rintro _ rfl pairs hpairs
      cases hpairs
      rfl
    · rintro r' - w hw
      rw [Query.run_ofExcept] at hw
      cases hopen : openValue C (C.deriveKey mk "audit") e.2 e.1 with
      | error err =>
        rw [hopen] at hw
        cases hw
      | ok plain =>
        rw [hopen] at hw
        cases hw
        exact ⟨e, hp ▸ he, rfl⟩
  exact hens r rfl audit h

theorem carryAudit_keys {m : ByteMap} {mk new : C.MasterKey} {audit : List (Unsealed C)}
    (h : (carryAudit C mk new).run m.reader = .ok audit) : ∀ w ∈ audit, auditPrefix <+: w.key := by
  intro w hw
  obtain ⟨e, he, hk⟩ := carryAudit_scanned h w hw
  rw [hk]
  exact lawful_reader m _ e he

/-- The reserved records of a rotated database. -/
theorem reserved_rotated (e : Engine C) (env : Engine.RotateEnv C) (newPassphrase : String)
    {kdf : KdfParams} (hkdf : kdf.Valid) (tables : List TableSnapshot) {audit : List (Unsealed C)}
    (haudit : ∀ w ∈ audit, auditPrefix <+: w.key) :
    let mk' := C.derive kdf newPassphrase env.openEnv.salt.1
    let m := Storage.applyLog ∅ (e.rotationBatches env newPassphrase kdf tables audit)
    Engine.Opens m newPassphrase mk' ∧
      Engine.HeadIs C m mk' ((e.rotateEntry env).seq + 1, C.entryRoot (e.rotateEntry env)) := by
  intro mk' m
  let m₁ := Storage.applyLog (Storage.applyLog ∅
    (Engine.freshBatches newPassphrase kdf env.openEnv))
    (tables.zipIdx.map fun t => C.sealWrites (env.nonces t.2) (rebuildTable C mk' t.1))
  let m₂ := applyAll m₁ (C.sealWrites (env.nonces tables.length) audit)
  have hm : m = applyAll m₂ (C.sealWrites (fun n => env.nonces (tables.length + 1) (0 + n)) [] ++
      C.sealWrites (fun n => env.nonces (tables.length + 1) (0 + n))
        (C.auditWrites mk' (e.rotateEntry env))) := by
    simp only [m, m₂, m₁, mk', Engine.rotationBatches, Storage.applyLog_append]
    rfl
  have hm₂ : ∀ key, ¬ DataKey key → ¬ auditPrefix <+: key → m₂[key]? = (Storage.applyLog ∅
      (Engine.freshBatches newPassphrase kdf env.openEnv))[key]? := by
    intro key hk hp
    refine Eq.trans (getElem?_applyAll_of_notMem _ _ _ fun op hop he => hp ?_)
      (getElem?_applyLog_tables _ _ hk)
    obtain ⟨w, hw, hkey⟩ := mem_sealWrites hop
    rw [← he, hkey]
    exact haudit w hw
  have hopens : Engine.Opens m₂ newPassphrase mk' := by
    refine Engine.opens_fresh hkdf env.openEnv ?_ ?_
    · rw [hm₂ _ not_dataKey_keyparamsKey (by decide), getElem?_freshBatches, if_neg (by decide),
        if_pos rfl]
    · rw [hm₂ _ not_dataKey_canaryKey (by decide), getElem?_freshBatches, if_pos rfl]
  rw [hm]
  exact ⟨opens_audited hopens DataWrites.nil _ _ _, headIs_audited _ _ _ _ _ _⟩

/-! ## Histories -/

/-- What is known of the backend and of the view. -/
structure History (γ : Type) where
  committed : γ
  visible : γ

namespace Session

variable {γ : Type}

/-- The history after a statement that ended as `r`, given what a batch adds to it. Inside a
transaction only the view moves on; a statement that fails adds nothing. -/
def recordStatement (onPlan : Engine C → Env C → Plan C → γ → γ) (e : Engine C) (env : Env C)
    (st : Statement) (r : Except EngineError QueryResult) (g : History γ) : History γ :=
  match program C e.master st, r with
  | .begin, _ => g
  | .query _, _ => g
  | .rollback, _ => ⟨g.committed, g.committed⟩
  | .commit, .ok _ => ⟨g.visible, g.visible⟩
  | .commit, .error _ => ⟨g.committed, g.committed⟩
  | .mutate _, .error _ => g
  | .mutate q, .ok _ =>
    match q.run e.store.reader with
    | .error _ => g
    | .ok plan =>
      if plan.writes.isEmpty then g
      else
        let visible := onPlan e env plan g.visible
        ⟨if e.store.inTransaction then g.committed else visible, visible⟩

/-- The history after a step, given what a batch and a rotation add to it. -/
def record (onPlan : Engine C → Env C → Plan C → γ → γ)
    (onRotate : Engine C → Engine.RotateEnv C → γ → γ) (s : Session C) (g : History γ) :
    Step C → History γ
  | .statement env st =>
    recordStatement onPlan s.engine env st (s.engine.executeStatement env st).1 g
  | .rotate env newPassphrase kdf =>
    match (s.engine.rotateTo env newPassphrase kdf).1 with
    | .ok () => ⟨onRotate s.engine env g.visible, onRotate s.engine env g.visible⟩
    | .error _ => g
  | .reopen _ _ => ⟨g.committed, g.committed⟩

/-- What a class of runs promises about the log. -/
structure Mode where
  /-- Every record fits, and is written whole or not at all, so the log can be opened again. -/
  durable : Prop
  /-- No append fails. -/
  steady : Prop

/-- Runs without failures. -/
def Mode.faultless : Mode := ⟨True, True⟩

/-- Runs in which the backend may reject a batch, writing nothing. -/
def Mode.atomic : Mode := ⟨True, False⟩

/-- Runs in which appends may fail in any way, and that are not reopened. -/
def Mode.volatile : Mode := ⟨False, False⟩

/-- What the mode promises about a step. A rotation opens the log it has written and needs its
records to fit in any case. -/
def Clean (mode : Mode) (s : Session C) : Step C → Prop
  | .statement env st =>
    (mode.durable → (env.io = .ok ∨ env.io = .writeFailed 0) ∧
      ∀ b ∈ s.records (.statement env st), Fits b) ∧ (mode.steady → env.io = .ok)
  | .rotate env newPassphrase kdf => ∀ b ∈ s.records (.rotate env newPassphrase kdf), Fits b
  | .reopen _ _ => mode.durable

/-- A statement whose append succeeds. -/
theorem clean_statement {mode : Mode} {s : Session C} {env : Env C} {st : Statement}
    (hio : env.io = .ok) (h : ∀ b ∈ s.records (.statement env st), Fits b) :
    Clean mode s (.statement env st) :=
  ⟨fun _ => ⟨.inl hio, h⟩, fun _ => hio⟩

/-- The database can be opened again, backend and view satisfy `I`, and, as long as no append
fails, the cached audit head is the stored one. -/
structure Sound (mode : Mode) (I : C.MasterKey → ByteMap → γ → Prop) (s : Session C)
    (g : History γ) : Prop where
  isLocal : s.engine.isLocal = true
  opens : Engine.Opens s.engine.store.backend.map s.passphrase s.engine.master
  opensView : Engine.Opens s.engine.store.view s.passphrase s.engine.master
  base : I s.engine.master s.engine.store.backend.map g.committed
  view : I s.engine.master s.engine.store.view g.visible
  idle : s.engine.store.overlay = none → g.committed = g.visible
  intact : mode.durable → ∃ log, Intact s.engine.store.backend log
  stored : ∃ head, Engine.HeadIs C s.engine.store.backend.map s.engine.master head
  storedView : ∃ head, Engine.HeadIs C s.engine.store.view s.engine.master head
  head : mode.steady → Engine.HeadIs C s.engine.store.view s.engine.master s.engine.auditHead
  txnHead : mode.steady → s.engine.store.overlay.isSome → ∃ head, s.engine.txnAuditHead = some head ∧
    Engine.HeadIs C s.engine.store.backend.map s.engine.master head

/-- What the batches of statements and rotations do to a property of stored maps. -/
structure Keeps (mode : Mode) (P : Session C → Step C → Prop)
    (I : C.MasterKey → ByteMap → γ → Prop) (onPlan : Engine C → Env C → Plan C → γ → γ)
    (onRotate : Engine C → Engine.RotateEnv C → γ → γ) : Prop where
  plan : ∀ (s : Session C) (env : Env C) (st : Statement) (q : Read (Plan C)) (plan : Plan C)
    (g : γ), P s (.statement env st) → program C s.engine.master st = .mutate q →
    q.run s.engine.store.view.reader = .ok plan → plan.writes ≠ [] →
    (mode.steady → Engine.HeadIs C s.engine.store.view s.engine.master s.engine.auditHead) →
    I s.engine.master s.engine.store.view g →
    I s.engine.master (applyAll s.engine.store.view (s.engine.auditedBatch env plan))
      (onPlan s.engine env plan g)
  rotation : ∀ (s : Session C) (env : Engine.RotateEnv C) (newPassphrase : String)
    (kdf : KdfParams) (tables : List TableSnapshot) (audit : List (Unsealed C)) (g : γ),
    P s (.rotate env newPassphrase kdf) → kdf.Valid →
    (snapshot C s.engine.master).run s.engine.store.view.reader = .ok tables →
    (carryAudit C s.engine.master (C.derive kdf newPassphrase env.openEnv.salt.1)).run
      s.engine.store.view.reader = .ok audit →
    (mode.steady → Engine.HeadIs C s.engine.store.view s.engine.master s.engine.auditHead) →
    I s.engine.master s.engine.store.view g →
    I (C.derive kdf newPassphrase env.openEnv.salt.1)
      (Storage.applyLog ∅ (s.engine.rotationBatches env newPassphrase kdf tables audit))
      (onRotate s.engine env g)

variable {mode : Mode} {P : Session C → Step C → Prop} {I : C.MasterKey → ByteMap → γ → Prop}
  {onPlan : Engine C → Env C → Plan C → γ → γ} {onRotate : Engine C → Engine.RotateEnv C → γ → γ}
  {s : Session C} {g : History γ}

/-- The history is one for both when there is no transaction. -/
theorem Sound.eq_of_idle (h : Sound mode I s g) (ho : s.engine.store.overlay = none) :
    g = ⟨g.committed, g.committed⟩ ∧ g = ⟨g.visible, g.visible⟩ := by
  obtain ⟨committed, visible⟩ := g
  obtain rfl : committed = visible := h.idle ho
  exact ⟨rfl, rfl⟩

theorem recordStatement_quiet (h : Sound mode I s g) {env : Env C} {st : Statement}
    {r : Except EngineError QueryResult}
    (hw : ∀ q plan, program C s.engine.master st = .mutate q →
      q.run s.engine.store.reader = .ok plan → plan.writes = [])
    (hr : st = .begin ∨ st = .commit ∨ st = .rollback → ∃ err, r = .error err)
    (hn : st = .commit ∨ st = .rollback → s.engine.store.overlay = none) :
    recordStatement onPlan s.engine env st r g = g := by
  unfold recordStatement
  split
  · rfl
  · rfl
  · rename_i hp
    exact (h.eq_of_idle (hn (Or.inr (Engine.eq_rollback_of_program hp)))).1.symm
  · rename_i hp
    obtain ⟨err, herr⟩ := hr (Or.inr (Or.inl (Engine.eq_commit_of_program hp)))
    cases herr
  · rename_i hp
    exact (h.eq_of_idle (hn (Or.inl (Engine.eq_commit_of_program hp)))).1.symm
  · rfl
  · rename_i q _ hp
    split
    · rfl
    · rename_i plan hq
      rw [hw q plan hp hq]
      rfl

theorem recordStatement_applied {env : Env C} {st : Statement} {q : Read (Plan C)} {plan : Plan C}
    (hp : program C s.engine.master st = .mutate q) (hq : q.run s.engine.store.reader = .ok plan)
    (hw : plan.writes ≠ []) (r : QueryResult) :
    recordStatement onPlan s.engine env st (.ok r) g =
      ⟨if s.engine.store.inTransaction then g.committed else onPlan s.engine env plan g.visible,
        onPlan s.engine env plan g.visible⟩ := by
  simp only [recordStatement, hp, hq, List.isEmpty_iff, hw, if_false]

theorem auditedBatch_ne_nil (e : Engine C) (env : Env C) (plan : Plan C) :
    e.auditedBatch env plan ≠ [] := by
  simp [Engine.auditedBatch, Crypto.auditWrites, Crypto.sealWrites]

/-- The records of a statement outside a transaction. -/
theorem records_applied {env : Env C} {st : Statement} {q : Read (Plan C)} {plan : Plan C}
    (hp : program C s.engine.master st = .mutate q) (hq : q.run s.engine.store.reader = .ok plan)
    (hw : plan.writes ≠ []) (ho : s.engine.store.overlay = none) :
    s.records (.statement env st) = [s.engine.auditedBatch env plan] := by
  simp only [records, hp, ho, hq, List.isEmpty_iff, hw, if_false]

theorem Sound.applied (h : Sound mode I s g) (hk : Keeps mode P I onPlan onRotate)
    {env : Env C} {st : Statement} (hP : P s (.statement env st))
    (hclean : Clean mode s (.statement env st)) {q : Read (Plan C)} {plan : Plan C}
    (hp : program C s.engine.master st = .mutate q) (hq : q.run s.engine.store.reader = .ok plan)
    (hw : plan.writes ≠ [])
    (hc : (s.engine.store.commit (s.engine.auditedBatch env plan) env.io).1 = .ok ())
    (t : List QueryNote) (r : QueryResult) :
    Sound mode I
      ⟨{ s.engine with
          store := (s.engine.store.commit (s.engine.auditedBatch env plan) env.io).2
          auditHead := ((s.engine.planEntry env plan).seq + 1,
            C.entryRoot (s.engine.planEntry env plan))
          telemetry := t }, s.passphrase⟩
      (recordStatement onPlan s.engine env st (.ok r) g) := by
  have hview := Store.view_commit hc
  have hq' : q.run s.engine.store.view.reader = .ok plan := by rw [← Store.reader_eq, hq]
  have hdata : DataWrites plan.writes := program_dataKeys hp _ (lawful_reader _) _ hq'
  have hI := hk.plan s env st q plan g.visible hP hp hq' hw h.head h.view
  have hopens := opens_audited h.opensView hdata env.nonces
    (fun n => env.nonces (plan.writes.length + n)) (s.engine.planEntry env plan)
  have hhead := headIs_audited s.engine.store.view s.engine.master plan.writes env.nonces
    (fun n => env.nonces (plan.writes.length + n)) (s.engine.planEntry env plan)
  rw [recordStatement_applied hp hq hw]
  rcases Option.eq_none_or_eq_some s.engine.store.overlay with ho | ⟨o, ho⟩
  · obtain ⟨hst, hbackend⟩ := Store.commit_of_none ho (s.engine.auditedBatch env plan) env.io
    have hmap := (Store.view_of_none hst).symm.trans hview
    rw [Store.inTransaction, ho]
    refine ⟨h.isLocal, hmap.symm ▸ hopens, hview.symm ▸ hopens, hmap.symm ▸ hI, hview.symm ▸ hI,
      fun _ => rfl, fun hd => ?_, ⟨_, hmap.symm ▸ hhead⟩, ⟨_, hview.symm ▸ hhead⟩,
      fun _ => hview.symm ▸ hhead, fun _ hs => ?_⟩
    · obtain ⟨log, hlog⟩ := h.intact hd
      obtain ⟨hio, hfits⟩ := hclean.1 hd
      rw [records_applied hp hq hw ho, List.forall_mem_singleton] at hfits
      rw [hbackend]
      exact hlog.write_atomic (w := .commit _) hfits hio
    · rw [hst] at hs
      cases hs
  · have hstore := Store.commit_of_overlay ho (s.engine.auditedBatch env plan) env.io
    have hbackend : (s.engine.store.commit (s.engine.auditedBatch env plan) env.io).2.backend =
        s.engine.store.backend := by rw [hstore]
    rw [Store.inTransaction, ho]
    refine ⟨h.isLocal, hbackend.symm ▸ h.opens, hview.symm ▸ hopens, hbackend.symm ▸ h.base,
      hview.symm ▸ hI, fun hs => ?_, fun hd => hbackend.symm ▸ h.intact hd,
      hbackend.symm ▸ h.stored, ⟨_, hview.symm ▸ hhead⟩, fun _ => hview.symm ▸ hhead, fun hd _ => hbackend.symm ▸ h.txnHead hd (by rw [ho]; rfl)⟩
    rw [hstore] at hs
    cases hs

theorem Sound.refused (h : Sound mode I s g) {env : Env C} {st : Statement}
    (hclean : Clean mode s (.statement env st)) {q : Read (Plan C)} {plan : Plan C}
    (hp : program C s.engine.master st = .mutate q) (hq : q.run s.engine.store.reader = .ok plan)
    (hw : plan.writes ≠ []) {err : StorageError}
    (hc : (s.engine.store.commit (s.engine.auditedBatch env plan) env.io).1 = .error err)
    (t : List QueryNote) (e : EngineError) :
    Sound mode I
      ⟨{ s.engine with
          store := (s.engine.store.commit (s.engine.auditedBatch env plan) env.io).2
          telemetry := t }, s.passphrase⟩
      (recordStatement onPlan s.engine env st (.error e) g) := by
  obtain ⟨ho, hst, hmap⟩ := Store.commit_error hc
  have hview := (Store.view_of_none hst).trans (hmap.trans (Store.view_of_none ho).symm)
  have hbackend := (Store.commit_of_none ho (s.engine.auditedBatch env plan) env.io).2
  have hnot : ¬ mode.steady := by
    intro hd
    rw [hclean.2 hd, Store.commit, ho] at hc
    simp only [Store.backendCommit_eq, (Store.map_write_ok _ _).1] at hc
    cases hc
  have hg : recordStatement onPlan s.engine env st (.error e) g = g := by
    simp only [recordStatement, hp]
  rw [hg]
  refine ⟨h.isLocal, hmap.symm ▸ h.opens, hview.symm ▸ h.opensView, hmap.symm ▸ h.base,
    hview.symm ▸ h.view, fun _ => h.idle ho, fun hd => ?_, hmap.symm ▸ h.stored,
    hview.symm ▸ h.storedView, fun hd => absurd hd hnot, fun hd => absurd hd hnot⟩
  obtain ⟨log, hlog⟩ := h.intact hd
  obtain ⟨hio, hfits⟩ := hclean.1 hd
  rw [records_applied hp hq hw ho, List.forall_mem_singleton] at hfits
  rw [hbackend]
  exact hlog.write_atomic (w := .commit _) hfits hio

theorem Sound.began (h : Sound mode I s g) (ho : s.engine.store.overlay = none) :
    Sound mode I
      ⟨{ s.engine with txnAuditHead := some s.engine.auditHead, store := s.engine.store.begin },
        s.passphrase⟩ g := by
  have hview : s.engine.store.begin.view = s.engine.store.view := by
    rw [Store.view_begin, Store.view_of_none ho]
  have hmap := (Store.view_of_none ho).symm
  exact ⟨h.isLocal, h.opens, hview.symm ▸ h.opensView, h.base, hview.symm ▸ h.view,
    fun _ => h.idle ho, h.intact, h.stored, hview.symm ▸ h.storedView,
    fun hd => hview.symm ▸ h.head hd, fun hd _ => ⟨_, rfl, hmap ▸ h.head hd⟩⟩

theorem Sound.intact_commitTransaction (h : Sound mode I s g) {env : Env C}
    (hclean : Clean mode s (.statement env .commit)) {o : Overlay}
    (ho : s.engine.store.overlay = some o) (hd : mode.durable) :
    ∃ log, Intact (s.engine.store.commitTransaction env.io).2.backend log := by
  obtain ⟨log, hlog⟩ := h.intact hd
  obtain ⟨hio, hfits⟩ := hclean.1 hd
  have hfits : Fits (o.toList.map pending) := hfits _ (by simp [records, program, ho])
  rw [Store.commitTransaction_backend ho]
  exact hlog.write_atomic (w := .commit _) hfits hio

theorem Sound.committed (h : Sound mode I s g) {env : Env C}
    (hclean : Clean mode s (.statement env .commit)) {o : Overlay}
    (ho : s.engine.store.overlay = some o)
    (hc : (s.engine.store.commitTransaction env.io).1 = .ok ()) :
    Sound mode I
      ⟨{ s.engine with
          store := (s.engine.store.commitTransaction env.io).2
          txnAuditHead := none }, s.passphrase⟩ ⟨g.visible, g.visible⟩ := by
  obtain ⟨hst, hmap⟩ := Store.map_commitTransaction hc
  have hview := (Store.view_of_none hst).trans hmap
  refine ⟨h.isLocal, hmap.symm ▸ h.opensView, hview.symm ▸ h.opensView, hmap.symm ▸ h.view,
    hview.symm ▸ h.view, fun _ => rfl, h.intact_commitTransaction hclean ho,
    hmap.symm ▸ h.storedView, hview.symm ▸ h.storedView, fun hd => hview.symm ▸ h.head hd,
    fun _ hs => ?_⟩
  rw [hst] at hs
  cases hs

theorem Sound.commitFailed (h : Sound mode I s g) {env : Env C}
    (hclean : Clean mode s (.statement env .commit)) {o : Overlay}
    (ho : s.engine.store.overlay = some o) {err : StorageError}
    (hc : (s.engine.store.commitTransaction env.io).1 = .error err) :
    Sound mode I ⟨{ s.engine with store := (s.engine.store.commitTransaction env.io).2 },
      s.passphrase⟩ ⟨g.committed, g.committed⟩ := by
  obtain ⟨hst, hmap⟩ := Store.commitTransaction_error hc
  have hview := (Store.view_of_none hst).trans hmap
  have hnot : ¬ mode.steady := by
    intro hd
    rw [hclean.2 hd, Store.commitTransaction_ok] at hc
    cases hc
  exact ⟨h.isLocal, hmap.symm ▸ h.opens, hview.symm ▸ h.opens, hmap.symm ▸ h.base,
    hview.symm ▸ h.base, fun _ => rfl, h.intact_commitTransaction hclean ho, hmap.symm ▸ h.stored,
    hview.symm ▸ h.stored, fun hd => absurd hd hnot, fun hd => absurd hd hnot⟩

theorem Sound.rolledBack (h : Sound mode I s g) {o : Overlay}
    (ho : s.engine.store.overlay = some o) :
    Sound mode I
      ⟨{ s.engine with
          store := s.engine.store.rollbackTransaction
          txnAuditHead := none
          auditHead := s.engine.txnAuditHead.getD s.engine.auditHead }, s.passphrase⟩
      ⟨g.committed, g.committed⟩ := by
  refine ⟨h.isLocal, h.opens, h.opens, h.base, h.base, fun _ => rfl, h.intact, h.stored, h.stored,
    fun hd => ?_, fun _ hs => by cases hs⟩
  obtain ⟨head, ht, hhead⟩ := h.txnHead hd (by rw [ho]; rfl)
  simp only [ht, Option.getD_some]
  exact hhead

/-- A statement keeps a session sound. -/
theorem Sound.statement (h : Sound mode I s g) (hk : Keeps mode P I onPlan onRotate)
    {env : Env C} {st : Statement} (hP : P s (.statement env st))
    (hclean : Clean mode s (.statement env st)) {r : Except EngineError QueryResult}
    {e : Engine C} (hx : Engine.Executes s.engine env st r e) :
    Sound mode I ⟨e, s.passphrase⟩ (recordStatement onPlan s.engine env st r g) := by
  cases hx with
  | quiet _ t hw hr hn =>
    rw [recordStatement_quiet h hw hr hn]
    exact ⟨h.isLocal, h.opens, h.opensView, h.base, h.view, h.idle, h.intact, h.stored,
      h.storedView, h.head, h.txnHead⟩
  | applied q plan t hp hq hw hc => exact h.applied hk hP hclean hp hq hw hc t _
  | refused q plan t err hp hq hw hc => exact h.refused hclean hp hq hw hc t _
  | began hst ho =>
    subst hst
    exact h.began ho
  | committed o hst ho hc =>
    subst hst
    exact h.committed hclean ho hc
  | commitFailed o err hst ho hc =>
    subst hst
    exact h.commitFailed hclean ho hc
  | rolledBack o hst ho =>
    subst hst
    exact h.rolledBack ho

/-- A database that has just been opened from its log is sound. -/
theorem sound_opened {st : Storage} {passphrase : String} {mk : C.MasterKey} {head : AuditHead}
    {x : γ} (hopens : Engine.Opens st.map passphrase mk) (hI : I mk st.map x)
    (hintact : mode.durable → ∃ log, Intact st log) (hhead : Engine.HeadIs C st.map mk head) :
    Sound mode I ⟨Engine.opened ⟨st, none⟩ mk head, passphrase⟩ ⟨x, x⟩ :=
  ⟨rfl, hopens, hopens, hI, hI, fun _ => rfl, hintact, ⟨_, hhead⟩, ⟨_, hhead⟩, fun _ => hhead,
    fun _ hs => by cases hs⟩

/-- **What a rotation does to a session**: nothing, or it continues on the database it has built. -/
theorem Sound.rotate_cases (h : Sound mode I s g) {env : Engine.RotateEnv C}
    {newPassphrase : String} {kdf : KdfParams}
    (hclean : Clean mode s (.rotate env newPassphrase kdf)) :
    (s.step (.rotate env newPassphrase kdf) = s ∧
        ∃ err, (s.engine.rotateTo env newPassphrase kdf).1 = .error err) ∨
      ∃ tables audit, (snapshot C s.engine.master).run s.engine.store.view.reader = .ok tables ∧
        (carryAudit C s.engine.master (C.derive kdf newPassphrase env.openEnv.salt.1)).run
          s.engine.store.view.reader = .ok audit ∧ kdf.Valid ∧
        (∃ log, Intact (Engine.writeAll ⟨∅, []⟩
          (s.engine.rotationBatches env newPassphrase kdf tables audit)) log) ∧
        (s.engine.rotateTo env newPassphrase kdf).1 = .ok () ∧
        s.step (.rotate env newPassphrase kdf) =
          ⟨Engine.opened ⟨Engine.writeAll ⟨∅, []⟩
            (s.engine.rotationBatches env newPassphrase kdf tables audit), none⟩
            (C.derive kdf newPassphrase env.openEnv.salt.1)
            ((s.engine.rotateEntry env).seq + 1, C.entryRoot (s.engine.rotateEntry env)),
            newPassphrase⟩ := by
  simp only [step, Engine.rotateTo, h.isLocal, if_true]
  cases hb : s.engine.buildRotated env newPassphrase kdf with
  | error err => exact Or.inl ⟨rfl, err, rfl⟩
  | ok fresh =>
    obtain ⟨tables, audit, htables, haudit, hvalid, rfl⟩ := Engine.buildRotated_spec hb
    rw [Store.reader_eq] at htables haudit
    obtain ⟨hopens, hhead⟩ := reserved_rotated s.engine env newPassphrase hvalid tables
      (carryAudit_keys haudit)
    have hrecords : s.records (.rotate env newPassphrase kdf) =
        s.engine.rotationBatches env newPassphrase kdf tables audit := by
      simp only [records, Store.reader_eq, htables, haudit]
    have hfits : ∀ b ∈ s.records (.rotate env newPassphrase kdf), Fits b := hclean
    rw [hrecords] at hfits
    obtain ⟨log, hlog⟩ := Engine.openLog_writeAll hfits
    rw [← Engine.map_writeAll ⟨∅, []⟩] at hopens hhead
    refine Or.inr ⟨tables, audit, htables, haudit, hvalid, ⟨log, hlog⟩, ?_⟩
    simp only [Engine.opened, Engine.openLocal, hlog.openLog_wal,
      Engine.openStore_eq hopens hhead, and_self]

theorem Sound.rotate (h : Sound mode I s g) (hk : Keeps mode P I onPlan onRotate)
    {env : Engine.RotateEnv C} {newPassphrase : String} {kdf : KdfParams}
    (hP : P s (.rotate env newPassphrase kdf))
    (hclean : Clean mode s (.rotate env newPassphrase kdf)) :
    Sound mode I (s.step (.rotate env newPassphrase kdf))
      (record onPlan onRotate s g (.rotate env newPassphrase kdf)) := by
  rcases h.rotate_cases hclean with ⟨hstep, err, hres⟩ |
    ⟨tables, audit, htables, haudit, hvalid, ⟨log, hlog⟩, hres, hstep⟩
  · rw [hstep, record, hres]
    exact h
  · obtain ⟨hopens, hhead⟩ := reserved_rotated s.engine env newPassphrase hvalid tables
      (carryAudit_keys haudit)
    have hI := hk.rotation s env newPassphrase kdf tables audit g.visible hP hvalid htables haudit
      h.head h.view
    rw [← Engine.map_writeAll ⟨∅, []⟩] at hI hopens hhead
    rw [hstep, record, hres]
    exact sound_opened hopens hI (fun _ => ⟨log, hlog⟩) hhead

/-- Reopening a log that holds an openable database. -/
theorem step_reopen {st : Storage} {mk : C.MasterKey} {head : AuditHead}
    (hw : Storage.openLog s.engine.store.backend.wal = st)
    (hopens : Engine.Opens st.map s.passphrase mk) (hhead : Engine.HeadIs C st.map mk head)
    (env : Engine.OpenEnv C) (kdf : KdfParams) :
    s.step (.reopen env kdf) = ⟨Engine.opened ⟨st, none⟩ mk head, s.passphrase⟩ := by
  simp only [Session.step, Engine.openLocal, hw, Engine.openStore_eq hopens hhead]

theorem Sound.reopen (h : Sound mode I s g) (hd : mode.durable) (env : Engine.OpenEnv C)
    (kdf : KdfParams) :
    Sound mode I (s.step (.reopen env kdf)) ⟨g.committed, g.committed⟩ := by
  obtain ⟨log, hlog⟩ := h.intact hd
  obtain ⟨head, hhead⟩ := h.stored
  rw [step_reopen hlog.openLog_wal h.opens hhead]
  exact sound_opened h.opens h.base (fun _ => ⟨log, hlog⟩) hhead

/-- **Every step keeps a session sound.** -/
theorem Sound.step (hk : Keeps mode P I onPlan onRotate) (h : Sound mode I s g) (a : Step C)
    (ha : P s a ∧ Clean mode s a) :
    Sound mode I (s.step a) (record onPlan onRotate s g a) := by
  cases a with
  | statement env st => exact h.statement hk ha.1 ha.2 (s.engine.executeStatement_spec env st)
  | rotate env newPassphrase kdf => exact h.rotate hk ha.1 ha.2
  | reopen env kdf => exact h.reopen ha.2 env kdf

theorem fits_freshBatches (passphrase : String) (kdf : KdfParams) (env : Engine.OpenEnv C) :
    ∀ b ∈ Engine.freshBatches passphrase kdf env, Fits b := by
  have hparams : (encodeKeyparams kdf env.salt.1).length < 100 := by
    cases kdf <;> simp [encodeKeyparams, keyparamsMagicV2, env.salt.2]
  intro b hb
  simp only [Engine.freshBatches, List.mem_cons, List.not_mem_nil, or_false] at hb
  rcases hb with rfl | rfl
  · simp [Fits, Storage.payloadOf, Storage.entryOf, Storage.encodeEntry, keyparamsKey]
    omega
  · simp [Fits, Storage.payloadOf, Storage.entryOf, Storage.encodeEntry, canaryKey,
      C.length_sealWith, canaryPlaintext]

/-- A new database is sound. -/
theorem Fresh.sound {x : γ} (hI : ∀ kdf (env : Engine.OpenEnv C),
      s.engine.master = C.derive kdf s.passphrase env.salt.1 →
      I (C.derive kdf s.passphrase env.salt.1)
        (Storage.applyLog ∅ (Engine.freshBatches s.passphrase kdf env)) x) (h : s.Fresh) :
    Sound mode I s ⟨x, x⟩ := by
  obtain ⟨passphrase, kdf, env, hvalid, rfl⟩ := h.eq_create
  have hget := getElem?_freshBatches passphrase kdf env
  rw [← Engine.map_writeAll ⟨∅, []⟩] at hget
  refine sound_opened ?_ ?_ (fun _ => Engine.openLog_writeAll (fits_freshBatches _ _ _)) ?_
  · refine Engine.opens_fresh hvalid env ?_ ?_
    · rw [hget, if_neg (by decide), if_pos rfl]
    · rw [hget, if_pos rfl]
  · rw [Engine.map_writeAll]
    exact hI kdf env rfl
  · exact Or.inl ⟨by rw [hget, if_neg (by decide), if_neg (by decide)], rfl⟩

/-- **Every run of a new database is sound.** -/
theorem sound_run (hk : Keeps mode P I onPlan onRotate) {x : γ}
    (hI : ∀ kdf (env : Engine.OpenEnv C), s.engine.master = C.derive kdf s.passphrase env.salt.1 →
      I (C.derive kdf s.passphrase env.salt.1) (Storage.applyLog ∅ (Engine.freshBatches s.passphrase kdf env)) x)
    (hs : s.Fresh) {steps : List (Step C)}
    (hrun : Along Session.step (fun s a => P s a ∧ Clean mode s a) s steps) :
    Sound mode I (steps.foldl Session.step s)
      (ghostRun Session.step (record onPlan onRotate) s ⟨x, x⟩ steps) :=
  hrun.invariant_ghost (fun _ _ a h ha => h.step hk a ha) (hs.sound hI)

end Session

end Ciphra
