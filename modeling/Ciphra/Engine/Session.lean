import Ciphra.Engine.Writes
import Ciphra.Foundations.Run

/-!
# Sessions

A session is an engine on a local data directory together with its passphrase. Its steps are the
statements, a rotation, and dropping the engine and opening the directory again.

What a statement can do to the engine is said once, in `Executes`; `executeStatement_spec` is the
inversion that the invariants are proved from. `buildRotated_spec` does the same for a rotation:
the new database is a fresh log of the batches `rotationBatches`.
-/

namespace Ciphra

open OrdMap
open Storage (Io Fits Intact)

variable {C : Crypto}

/-- The writes of a batch, sealed. -/
theorem mem_sealWrites {nonces : ℕ → C.Nonce} {ws : List (Unsealed C)} {op : Op}
    (h : op ∈ C.sealWrites nonces ws) : ∃ w ∈ ws, op.key = w.key := by
  induction ws generalizing nonces with
  | nil => cases h
  | cons w ws ih =>
    cases w with
    | put key cipher plain =>
      rcases List.mem_cons.mp h with rfl | h
      · exact ⟨_, List.mem_cons_self, rfl⟩
      · obtain ⟨w, hw, hk⟩ := ih h
        exact ⟨w, List.mem_cons_of_mem _ hw, hk⟩
    | delete key =>
      rcases List.mem_cons.mp h with rfl | h
      · exact ⟨_, List.mem_cons_self, rfl⟩
      · obtain ⟨w, hw, hk⟩ := ih h
        exact ⟨w, List.mem_cons_of_mem _ hw, hk⟩

namespace Engine

/-! ## Statements -/

/-- The audit entry of a plan. -/
def planEntry (e : Engine C) (env : Env C) (plan : Plan C) : AuditEntry :=
  e.nextEntry env.time plan.kind (C.auditTag e.master plan.table)
    (C.digestBatch (C.sealWrites env.nonces plan.writes))

/-- The batch a plan is committed as: its writes and its audit entry. -/
def auditedBatch (e : Engine C) (env : Env C) (plan : Plan C) : Batch :=
  C.sealWrites env.nonces plan.writes ++
    C.sealWrites (fun n => env.nonces (plan.writes.length + n))
      (C.auditWrites e.master (e.planEntry env plan))

/-- What executing a statement can do. -/
inductive Executes (e : Engine C) (env : Env C) (st : Statement) :
    Except EngineError QueryResult → Engine C → Prop
  /-- Nothing: a query, a statement that fails before it writes, one that has nothing to write. -/
  | quiet (r : Except EngineError QueryResult) (t : List QueryNote)
      (h : ∀ q plan, program C e.master st = .mutate q → q.run e.store.reader = .ok plan →
        plan.writes = [])
      (hr : st = .begin ∨ st = .commit ∨ st = .rollback → ∃ err, r = .error err)
      (hn : st = .commit ∨ st = .rollback → e.store.overlay = none) :
      Executes e env st r { e with telemetry := t }
  | applied (q : Read (Plan C)) (plan : Plan C) (t : List QueryNote)
      (hp : program C e.master st = .mutate q) (hq : q.run e.store.reader = .ok plan)
      (hw : plan.writes ≠ []) (hc : (e.store.commit (e.auditedBatch env plan) env.io).1 = .ok ()) :
      Executes e env st (.ok plan.result)
        { e with
          store := (e.store.commit (e.auditedBatch env plan) env.io).2
          auditHead := ((e.planEntry env plan).seq + 1, C.entryRoot (e.planEntry env plan))
          telemetry := t }
  | refused (q : Read (Plan C)) (plan : Plan C) (t : List QueryNote) (err : StorageError)
      (hp : program C e.master st = .mutate q) (hq : q.run e.store.reader = .ok plan)
      (hw : plan.writes ≠ [])
      (hc : (e.store.commit (e.auditedBatch env plan) env.io).1 = .error err) :
      Executes e env st (.error (.storage err))
        { e with store := (e.store.commit (e.auditedBatch env plan) env.io).2, telemetry := t }
  | began (hst : st = .begin) (ho : e.store.overlay = none) :
      Executes e env st (.ok .begin)
        { e with txnAuditHead := some e.auditHead, store := e.store.begin }
  | committed (o : Overlay) (hst : st = .commit) (ho : e.store.overlay = some o)
      (hc : (e.store.commitTransaction env.io).1 = .ok ()) :
      Executes e env st (.ok .committed)
        { e with store := (e.store.commitTransaction env.io).2, txnAuditHead := none }
  | commitFailed (o : Overlay) (err : StorageError) (hst : st = .commit)
      (ho : e.store.overlay = some o) (hc : (e.store.commitTransaction env.io).1 = .error err) :
      Executes e env st (.error (.storage err))
        { e with store := (e.store.commitTransaction env.io).2 }
  | rolledBack (o : Overlay) (hst : st = .rollback) (ho : e.store.overlay = some o) :
      Executes e env st (.ok .rolledBack)
        { e with
          store := e.store.rollbackTransaction
          txnAuditHead := none
          auditHead := e.txnAuditHead.getD e.auditHead }

/-- Statements that write are not those that control transactions. -/
theorem not_control_of_mutate {mk : C.MasterKey} {st : Statement} {q : Read (Plan C)}
    (hp : program C mk st = .mutate q) : ¬ (st = .begin ∨ st = .commit ∨ st = .rollback) := by
  rintro (rfl | rfl | rfl) <;> cases hp

theorem eq_begin_of_program {mk : C.MasterKey} {st : Statement}
    (hp : program C mk st = .begin) : st = .begin := by
  unfold program at hp
  split at hp <;> cases hp
  rfl

theorem eq_commit_of_program {mk : C.MasterKey} {st : Statement}
    (hp : program C mk st = .commit) : st = .commit := by
  unfold program at hp
  split at hp <;> cases hp
  rfl

theorem eq_rollback_of_program {mk : C.MasterKey} {st : Statement}
    (hp : program C mk st = .rollback) : st = .rollback := by
  unfold program at hp
  split at hp <;> cases hp
  rfl

theorem executeStatement_applied (e : Engine C) (env : Env C) {st : Statement}
    {q : Read (Plan C)} {plan : Plan C} (hp : program C e.master st = .mutate q)
    (hq : q.run e.store.reader = .ok plan) (hw : plan.writes ≠ [])
    (hc : (e.store.commit (e.auditedBatch env plan) env.io).1 = .ok ()) :
    e.executeStatement env st = (.ok plan.result,
      { e with
        store := (e.store.commit (e.auditedBatch env plan) env.io).2
        auditHead := ((e.planEntry env plan).seq + 1, C.entryRoot (e.planEntry env plan))
        telemetry := e.telemetry ++ q.notes e.store.reader }) := by
  rcases hcommit : e.store.commit (e.auditedBatch env plan) env.io with ⟨r, store⟩
  rw [hcommit] at hc
  obtain rfl : r = .ok () := hc
  simp only [auditedBatch, planEntry, nextEntry] at hcommit
  simp only [executeStatement, hp, read, hq, commitAudited, List.isEmpty_iff, hw, if_false,
    commitWithAudit, nextEntry, hcommit]
  rfl

theorem executeStatement_refused (e : Engine C) (env : Env C) {st : Statement}
    {q : Read (Plan C)} {plan : Plan C} (hp : program C e.master st = .mutate q)
    (hq : q.run e.store.reader = .ok plan) (hw : plan.writes ≠ []) {err : StorageError}
    (hc : (e.store.commit (e.auditedBatch env plan) env.io).1 = .error err) :
    e.executeStatement env st = (.error (.storage err),
      { e with
        store := (e.store.commit (e.auditedBatch env plan) env.io).2
        telemetry := e.telemetry ++ q.notes e.store.reader }) := by
  rcases hcommit : e.store.commit (e.auditedBatch env plan) env.io with ⟨r, store⟩
  rw [hcommit] at hc
  obtain rfl : r = .error err := hc
  simp only [auditedBatch, planEntry, nextEntry] at hcommit
  simp only [executeStatement, hp, read, hq, commitAudited, List.isEmpty_iff, hw, if_false,
    commitWithAudit, nextEntry, hcommit]

theorem executes_mutate (e : Engine C) (env : Env C) {st : Statement} {q : Read (Plan C)}
    (hp : program C e.master st = .mutate q) :
    Executes e env st (e.executeStatement env st).1 (e.executeStatement env st).2 := by
  have hnot := not_control_of_mutate hp
  cases hq : q.run e.store.reader with
  | error err =>
    simp only [executeStatement, hp, read, hq]
    refine .quiet _ _ (fun q' plan hp' hq' => ?_) (fun h => absurd h hnot)
      fun h => absurd (Or.inr h) hnot
    obtain rfl : q = q' := by simpa [hp] using hp'
    rw [hq] at hq'
    cases hq'
  | ok plan =>
    by_cases hw : plan.writes = []
    · simp only [executeStatement, hp, read, hq, commitAudited, hw, List.isEmpty_nil, if_true]
      refine .quiet _ _ (fun q' plan' hp' hq' => ?_) (fun h => absurd h hnot)
        fun h => absurd (Or.inr h) hnot
      obtain rfl : q = q' := by simpa [hp] using hp'
      rw [hq] at hq'
      cases hq'
      exact hw
    · cases hc : (e.store.commit (e.auditedBatch env plan) env.io).1 with
      | error err =>
        rw [e.executeStatement_refused env hp hq hw hc]
        exact .refused q plan _ err hp hq hw hc
      | ok =>
        rw [e.executeStatement_applied env hp hq hw hc]
        exact .applied q plan _ hp hq hw hc

/-- **What a statement does.** -/
theorem executeStatement_spec (e : Engine C) (env : Env C) (st : Statement) :
    Executes e env st (e.executeStatement env st).1 (e.executeStatement env st).2 := by
  cases hp : program C e.master st with
  | mutate q => exact e.executes_mutate env hp
  | query q =>
    have hst : ¬ (st = .begin ∨ st = .commit ∨ st = .rollback) := by
      rintro (rfl | rfl | rfl) <;> cases hp
    simp only [executeStatement, hp, read]
    exact .quiet _ _ (fun q' plan hp' _ => by rw [hp] at hp'; cases hp') (fun h => absurd h hst)
      fun h => absurd (Or.inr h) hst
  | begin =>
    have hst := eq_begin_of_program hp
    simp only [executeStatement, hp, beginTransaction, Store.inTransaction]
    rcases Option.eq_none_or_eq_some e.store.overlay with ho | ⟨o, ho⟩
    · simp only [ho, Option.isSome_none, Bool.false_eq_true, if_false]
      exact .began hst ho
    · simp only [ho, Option.isSome_some, if_true]
      exact .quiet _ e.telemetry (fun q' plan hp' _ => by rw [hp] at hp'; cases hp')
        (fun _ => ⟨_, rfl⟩) fun h => by rcases h with rfl | rfl <;> cases hst
  | commit =>
    have hst := eq_commit_of_program hp
    simp only [executeStatement, hp, commitTransaction, Store.inTransaction]
    rcases Option.eq_none_or_eq_some e.store.overlay with ho | ⟨o, ho⟩
    · simp only [ho, Option.isSome_none, Bool.false_eq_true, if_false]
      exact .quiet _ e.telemetry (fun q' plan hp' _ => by rw [hp] at hp'; cases hp')
        (fun _ => ⟨_, rfl⟩) fun _ => ho
    · simp only [ho, Option.isSome_some, if_true]
      rcases hc : e.store.commitTransaction env.io with ⟨⟨err⟩ | ⟨⟩, store⟩
      · have this : Executes e env st _ _ := .commitFailed o err hst ho (by rw [hc])
        simpa only [hc] using this
      · have this : Executes e env st _ _ := .committed o hst ho (by rw [hc])
        simpa only [hc] using this
  | rollback =>
    have hst := eq_rollback_of_program hp
    simp only [executeStatement, hp, rollbackTransaction, Store.inTransaction]
    rcases Option.eq_none_or_eq_some e.store.overlay with ho | ⟨o, ho⟩
    · simp only [ho, Option.isSome_none, Bool.false_eq_true, if_false]
      exact .quiet _ e.telemetry (fun q' plan hp' _ => by rw [hp] at hp'; cases hp')
        (fun _ => ⟨_, rfl⟩) fun _ => ho
    · simp only [ho, Option.isSome_some, if_true]
      have this : Executes e env st _ _ := .rolledBack o hst ho
      rcases Option.eq_none_or_eq_some e.txnAuditHead with ht | ⟨head, ht⟩
      · simpa only [ht, Option.getD_none] using this
      · simpa only [ht, Option.getD_some] using this

/-- **A statement that fails changes nothing**: not the store as it is read, nor the map of the
backend, nor the audit head, nor whether a transaction is open. A failed `COMMIT` is another
matter, since it drops the transaction. -/
theorem executeStatement_atomic (e : Engine C) (env : Env C) {st : Statement}
    (hst : st ≠ .commit) {err : EngineError} (h : (e.executeStatement env st).1 = .error err) :
    let e' := (e.executeStatement env st).2
    (∀ key, e'.store.get key = e.store.get key) ∧
      (∀ p, e'.store.scanPrefix p = e.store.scanPrefix p) ∧
      e'.store.backend.map = e.store.backend.map ∧ e'.auditHead = e.auditHead ∧
      e'.store.inTransaction = e.store.inTransaction := by
  intro e'
  have hx := e.executeStatement_spec env st
  rw [h] at hx
  generalize he' : (e.executeStatement env st).2 = out at hx
  have he' : e' = out := he'
  rw [he']
  cases hx with
  | quiet _ t _ _ _ => exact ⟨fun _ => rfl, fun _ => rfl, rfl, rfl, rfl⟩
  | refused q plan t err hp hq hw hc =>
    -- the append is tried only outside a transaction, and the map follows the log
    obtain ⟨ho, ho', hmap⟩ := Store.commit_error hc
    have hview : (e.store.commit (e.auditedBatch env plan) env.io).2.view = e.store.view := by
      rw [Store.view_of_none ho', Store.view_of_none ho, hmap]
    refine ⟨fun key => ?_, fun p => ?_, hmap, rfl, ?_⟩
    · rw [Store.get_eq, Store.get_eq, hview]
    · rw [Store.scanPrefix_eq, Store.scanPrefix_eq, hview]
    · rw [Store.inTransaction, Store.inTransaction, ho, ho']
  | commitFailed o err hst' _ _ => exact absurd hst' hst

/-! ## Opening -/

/-- The reserved records of an existing database: its parameters give the master key, and the
canary opens under it. -/
structure Opens (m : ByteMap) (passphrase : String) (mk : C.MasterKey) : Prop where
  params : ∃ kdf salt, m[keyparamsKey]? = some (encodeKeyparams kdf salt) ∧ kdf.Valid ∧
    saltLen ≤ salt.length ∧ mk = C.derive kdf passphrase salt
  canary : ∃ sealed plain, m[canaryKey]? = some sealed ∧
    C.openSealed (C.deriveKey mk "canary") sealed canaryKey = some plain

/-- The stored audit head. -/
def HeadIs (C : Crypto) (m : ByteMap) (mk : C.MasterKey) (head : AuditHead) : Prop :=
  (m[auditHeadKey]? = none ∧ head = genesis) ∨
    ∃ nonce, m[auditHeadKey]? =
      some (C.sealWith (C.deriveKey mk "audit") nonce (Crypto.headBytes head) auditHeadKey)

theorem readHead_headBytes (k : C.CipherKey) (nonce : C.Nonce) (head : AuditHead) :
    readHead k (C.sealWith k nonce (Crypto.headBytes head) auditHeadKey) = .ok head := by
  have hseq : leNat (leBytes 8 head.1.toNat) = head.1.toNat := leNat_leBytes_of_lt head.1.toNat_lt
  simp only [readHead, C.openSealed_sealWith, Crypto.length_headBytes, dite_true, Except.ok.injEq]
  refine Prod.ext ?_ (Subtype.ext ?_)
  · simp only [Crypto.headBytes]
    rw [List.take_left' (length_leBytes _ _), hseq, UInt64.ofNat_toNat]
  · simp only [Crypto.headBytes]
    rw [List.drop_left' (length_leBytes _ _)]

/-- The engine on a store as it is right after opening. -/
def opened (store : Store) (mk : C.MasterKey) (head : AuditHead) : Engine C :=
  { store, master := mk, isLocal := true, auditHead := head, txnAuditHead := none, telemetry := [] }

theorem openHead_eq {store : Store} {mk : C.MasterKey} {head : AuditHead}
    (h : HeadIs C store.view mk head) : openHead store true mk = .ok (opened store mk head) := by
  rcases h with ⟨hnone, rfl⟩ | ⟨nonce, hsome⟩
  · rw [openHead, Store.get_eq, hnone]
    rfl
  · rw [openHead, Store.get_eq, hsome]
    simp only [readHead_headBytes]
    rfl

/-- Opening an existing database with its passphrase. -/
theorem openStore_eq {st : Storage} {passphrase : String} {mk : C.MasterKey} {head : AuditHead}
    (h : Opens st.map passphrase mk) (hh : HeadIs C st.map mk head) (kdf : KdfParams)
    (env : OpenEnv C) :
    (openStore ⟨st, none⟩ true passphrase kdf env).1 = .ok (opened ⟨st, none⟩ mk head) := by
  obtain ⟨kdf', salt, hparams, hvalid, hsalt, rfl⟩ := h.params
  obtain ⟨sealed, plain, hcanary, hopen⟩ := h.canary
  have hview : (Store.mk st none).view = st.map := rfl
  rw [openStore, Store.get_eq, hview, hparams]
  simp only [readKeyparams_encodeKeyparams hvalid hsalt, openCanary]
  rw [Store.get_eq, hview, hcanary]
  simp only [hopen]
  exact openHead_eq hh

/-- The records a new database starts with. -/
def freshBatches (passphrase : String) (kdf : KdfParams) (env : OpenEnv C) : List Batch :=
  [[.put keyparamsKey (encodeKeyparams kdf env.salt.1)],
    [.put canaryKey (C.sealWith (C.deriveKey (C.derive kdf passphrase env.salt.1) "canary")
      env.nonce canaryPlaintext canaryKey)]]

/-- Write batches one after the other, every append succeeding. -/
def writeAll (st : Storage) (batches : List Batch) : Storage :=
  batches.foldl (fun st b => (st.write (.commit b) .ok).2) st

theorem writeAll_append (st : Storage) (bs bs' : List Batch) :
    writeAll st (bs ++ bs') = writeAll (writeAll st bs) bs' := List.foldl_append

theorem map_writeAll (st : Storage) (batches : List Batch) :
    (writeAll st batches).map = Storage.applyLog st.map batches := by
  induction batches generalizing st with
  | nil => rfl
  | cons b batches ih =>
    rw [writeAll, List.foldl_cons, ← writeAll, ih, (Store.map_write_ok _ _).2]
    rfl

theorem openLog_nil : Storage.openLog [] = ⟨∅, []⟩ := by
  simp [Storage.openLog, Storage.replay]

/-- Batches that fit leave a log that replays. -/
theorem openLog_writeAll {batches : List Batch} (h : ∀ b ∈ batches, Fits b) :
    ∃ log, Intact (writeAll ⟨∅, []⟩ batches) log := by
  have hcalls : ∀ c ∈ batches.map (fun b => Storage.Call.write (.commit b)), c.Fits := by
    intro c hc
    obtain ⟨b, hb, rfl⟩ := List.mem_map.mp hc
    exact h b hb
  have := Storage.run_calls _ hcalls Storage.intact_empty
  rw [List.foldl_map] at this
  exact ⟨_, this⟩

/-- Batches that are not empty are the records of the log. -/
theorem intact_writeAll {st : Storage} {log batches : List Batch} (h : Intact st log)
    (hb : Storage.Writable batches) : Intact (writeAll st batches) (log ++ batches) := by
  induction batches generalizing st log with
  | nil => rwa [List.append_nil]
  | cons b batches ih =>
    obtain ⟨hne, hfit⟩ := hb b List.mem_cons_self
    have hnext := ih (h.write_ok (w := .commit b) hne hfit)
      fun c hc => hb c (List.mem_cons_of_mem _ hc)
    rwa [List.append_assoc] at hnext

theorem put_ok {store : Store} {key value : Bytes} {io : Io} {store' : Store}
    (ho : store.overlay = none) (h : store.put key value io = (.ok (), store')) :
    store' = ⟨writeAll store.backend [[.put key value]], none⟩ := by
  rw [Store.put_eq_commit, Store.commit, ho] at h
  simp only [Store.backendCommit_eq, Prod.mk.injEq] at h
  rw [← h.2, Store.write_eq_of_ok h.1, ho]
  rfl

theorem commit_none {st : Storage} (batch : Batch) :
    (Store.mk st none).commit batch .ok = (.ok (), ⟨writeAll st [batch], none⟩) := by
  rw [Store.commit]
  simp only [Store.backendCommit_eq, (Store.map_write_ok _ _).1]
  rfl

/-- The engine on a new database. -/
def create (passphrase : String) (kdf : KdfParams) (env : OpenEnv C) : Engine C :=
  opened ⟨writeAll ⟨∅, []⟩ (freshBatches passphrase kdf env), none⟩
    (C.derive kdf passphrase env.salt.1) genesis

/-- Reading a reserved key after the parameters have been written. -/
theorem getElem?_params (kdf : KdfParams) (salt : Bytes) {key : Bytes} (h : keyparamsKey ≠ key) :
    (Store.mk (writeAll ⟨∅, []⟩ [[.put keyparamsKey (encodeKeyparams kdf salt)]]) none).get key =
      none := by
  rw [Store.get_eq, Store.view_of_none rfl, map_writeAll]
  simp only [Storage.applyLog, List.foldl_cons, List.foldl_nil, applyAll_cons, applyAll_nil,
    Mutation.apply]
  rw [getElem?_insert_eq, if_neg h, Std.ExtTreeMap.getElem?_empty]

theorem openHead_create (passphrase : String) (kdf : KdfParams) (env : OpenEnv C) :
    openHead ⟨writeAll ⟨∅, []⟩ (freshBatches passphrase kdf env), none⟩ true
      (C.derive kdf passphrase env.salt.1) = .ok (create passphrase kdf env) := by
  refine openHead_eq (Or.inl ⟨?_, rfl⟩)
  rw [Store.view_of_none rfl, map_writeAll]
  simp only [freshBatches, Storage.applyLog, List.foldl_cons, List.foldl_nil, applyAll_cons,
    applyAll_nil, Mutation.apply]
  rw [getElem?_insert_eq, if_neg (by decide), getElem?_insert_eq, if_neg (by decide),
    Std.ExtTreeMap.getElem?_empty]

/-- What a new database is. -/
theorem openLocal_nil {passphrase : String} {kdf : KdfParams} {env : OpenEnv C} {e : Engine C}
    (h : (openLocal [] passphrase kdf env).1 = .ok e) :
    kdf.Valid ∧ e = create passphrase kdf env := by
  rw [openLocal, openLog_nil, openStore, Store.get_eq, Store.view_of_none rfl,
    Std.ExtTreeMap.getElem?_empty] at h
  rcases hput : (Store.mk ⟨∅, []⟩ none).put keyparamsKey (encodeKeyparams kdf env.salt.1)
    env.paramsIo with ⟨⟨err⟩ | ⟨⟩, store⟩
  · rw [hput] at h
    cases h
  · rw [hput] at h
    obtain rfl := put_ok rfl hput
    simp only at h
    split at h
    · rename_i hvalid
      refine ⟨hvalid, ?_⟩
      rw [openCanary, getElem?_params _ _ (by decide)] at h
      simp only at h
      split at h
      · cases h
      · rename_i store' hput'
        obtain rfl := put_ok rfl hput'
        rw [← writeAll_append] at h
        exact (Except.ok.inj ((openHead_create passphrase kdf env).symm.trans h)).symm
    · cases h

/-- Valid parameters and appends that succeed give a new database. -/
theorem openLocal_create (passphrase : String) {kdf : KdfParams} (hvalid : kdf.Valid)
    {env : OpenEnv C} (hparams : env.paramsIo = .ok) (hcanary : env.canaryIo = .ok) :
    (openLocal [] passphrase kdf env).1 = .ok (create passphrase kdf env) := by
  rw [openLocal, openLog_nil, openStore, Store.get_eq, Store.view_of_none rfl,
    Std.ExtTreeMap.getElem?_empty, hparams, Store.put_eq_commit, commit_none]
  simp only [hvalid, if_true]
  rw [openCanary, getElem?_params _ _ (by decide), hcanary]
  simp only [Store.put_eq_commit, commit_none]
  rw [← writeAll_append]
  exact openHead_create passphrase kdf env

theorem opens_fresh {passphrase : String} {kdf : KdfParams} (hvalid : kdf.Valid)
    (env : OpenEnv C) {m : ByteMap}
    (hparams : m[keyparamsKey]? = some (encodeKeyparams kdf env.salt.1))
    (hcanary : m[canaryKey]? =
      some (C.sealWith (C.deriveKey (C.derive kdf passphrase env.salt.1) "canary") env.nonce
        canaryPlaintext canaryKey)) :
    Opens m passphrase (C.derive kdf passphrase env.salt.1) :=
  ⟨⟨kdf, env.salt.1, hparams, hvalid, by rw [env.salt.2, saltLen], rfl⟩,
    ⟨_, _, hcanary, C.openSealed_sealWith _ _ _ _⟩⟩

/-! ## Rotation -/

/-- The audit entry of a rotation. -/
def rotateEntry (e : Engine C) (env : RotateEnv C) : AuditEntry :=
  e.nextEntry env.time AuditKind.rotate (ByteArr.zeros 16) (ByteArr.zeros 32)

/-- The batches a rotation writes into the scratch log, given what it read. -/
def rotationBatches (e : Engine C) (env : RotateEnv C) (newPassphrase : String) (kdf : KdfParams)
    (tables : List TableSnapshot) (audit : List (Unsealed C)) : List Batch :=
  let master := C.derive kdf newPassphrase env.openEnv.salt.1
  freshBatches newPassphrase kdf env.openEnv ++
    (tables.zipIdx.map fun t => C.sealWrites (env.nonces t.2) (rebuildTable C master t.1)) ++
    [C.sealWrites (env.nonces tables.length) audit,
      C.sealWrites (fun n => env.nonces (tables.length + 1) (0 + n))
        (C.auditWrites master (e.rotateEntry env))]

theorem commitTables_eq (master : C.MasterKey) (nonces : ℕ → ℕ → C.Nonce)
    (tables : List TableSnapshot) (n : ℕ) (st : Storage) :
    commitTables master nonces tables n ⟨st, none⟩ =
      .ok ⟨writeAll st ((tables.zipIdx n).map fun t =>
        C.sealWrites (nonces t.2) (rebuildTable C master t.1)), none⟩ := by
  induction tables generalizing n st with
  | nil => rfl
  | cons t tables ih =>
    rw [commitTables, commit_none]
    simp only [ih, List.zipIdx_cons, List.map_cons]
    rfl

/-- **What a rotation builds.** -/
theorem buildRotated_spec {e : Engine C} {env : RotateEnv C} {newPassphrase : String}
    {kdf : KdfParams} {fresh : Engine C}
    (h : e.buildRotated env newPassphrase kdf = .ok fresh) :
    ∃ tables audit, (snapshot C e.master).run e.store.reader = .ok tables ∧
      (carryAudit C e.master (C.derive kdf newPassphrase env.openEnv.salt.1)).run e.store.reader =
        .ok audit ∧ kdf.Valid ∧
      fresh = opened
        ⟨writeAll ⟨∅, []⟩ (e.rotationBatches env newPassphrase kdf tables audit), none⟩
        (C.derive kdf newPassphrase env.openEnv.salt.1)
        ((e.rotateEntry env).seq + 1, C.entryRoot (e.rotateEntry env)) := by
  rw [buildRotated] at h
  cases htables : (snapshot C e.master).run e.store.reader with
  | error err =>
    rw [htables] at h
    cases h
  | ok tables =>
    rw [htables] at h
    simp only [Bind.bind, Except.bind] at h
    split at h
    · cases h
    · cases hopen : (openLocal [] newPassphrase kdf env.openEnv).1 with
      | error err =>
        rw [hopen] at h
        cases h
      | ok f =>
        obtain ⟨hvalid, rfl⟩ := openLocal_nil hopen
        rw [hopen] at h
        simp only [create, opened, commitTables_eq] at h
        cases haudit : (carryAudit C e.master
            (C.derive kdf newPassphrase env.openEnv.salt.1)).run e.store.reader with
        | error err =>
          rw [haudit] at h
          cases h
        | ok audit =>
          rw [haudit] at h
          simp only [commit_none, commitWithAudit, List.nil_append, Except.map,
            Except.ok.injEq] at h
          refine ⟨tables, audit, rfl, rfl, hvalid, ?_⟩
          rw [← h, opened, rotationBatches, writeAll_append, writeAll_append]
          rfl

end Engine

/-! ## Steps -/

/-- An open database and the passphrase it is opened with. -/
structure Session (C : Crypto) where
  engine : Engine C
  passphrase : String

/-- What happens in a session. -/
inductive Step (C : Crypto)
  | statement (env : Env C) (st : Statement)
  | rotate (env : Engine.RotateEnv C) (newPassphrase : String) (kdf : KdfParams)
  /-- Drop the engine and open the data directory again. -/
  | reopen (env : Engine.OpenEnv C) (kdf : KdfParams)

/-- The surroundings do not fail the step. -/
def Step.Succeeds : Step C → Prop
  | .statement env _ => env.io = .ok
  | .rotate env _ _ => env.fails = false ∧ env.openEnv.paramsIo = .ok ∧ env.openEnv.canaryIo = .ok
  | .reopen _ _ => True

namespace Session

/-- The session after a step. -/
def step (s : Session C) : Step C → Session C
  | .statement env st => { s with engine := (s.engine.executeStatement env st).2 }
  | .rotate env newPassphrase kdf =>
    match s.engine.rotateTo env newPassphrase kdf with
    | (.ok (), engine) => ⟨engine, newPassphrase⟩
    | (.error _, engine) => { s with engine }
  | .reopen env kdf =>
    match (Engine.openLocal s.engine.store.backend.wal s.passphrase kdf env).1 with
    | .ok engine => { s with engine }
    | .error _ => s

/-- A new session. -/
def create (passphrase : String) (kdf : KdfParams) (env : Engine.OpenEnv C) : Session C :=
  ⟨Engine.create passphrase kdf env, passphrase⟩

/-- A new database. -/
def Fresh (s : Session C) : Prop :=
  ∃ kdf env, (Engine.openLocal [] s.passphrase kdf env).1 = .ok s.engine

theorem fresh_create (passphrase : String) {kdf : KdfParams} (hvalid : kdf.Valid)
    {env : Engine.OpenEnv C} (hparams : env.paramsIo = .ok) (hcanary : env.canaryIo = .ok) :
    (create passphrase kdf env).Fresh :=
  ⟨kdf, env, Engine.openLocal_create passphrase hvalid hparams hcanary⟩

theorem Fresh.eq_create {s : Session C} (h : s.Fresh) :
    ∃ passphrase kdf env, kdf.Valid ∧ s = create passphrase kdf env := by
  obtain ⟨e, passphrase⟩ := s
  obtain ⟨kdf, env, hopen⟩ := h
  obtain ⟨hvalid, he⟩ := Engine.openLocal_nil hopen
  exact ⟨passphrase, kdf, env, hvalid, congrArg (Session.mk · passphrase) he⟩

/-! Surroundings for concrete runs. -/

def clearOpenEnv : Engine.OpenEnv Crypto.clear := ⟨ByteArr.zeros 16, (), .ok, .ok⟩

def clearEnv : Env Crypto.clear := ⟨0, fun _ => (), .ok, .integers⟩

def clearSession : Session Crypto.clear := create "passphrase" .recommended clearOpenEnv

theorem fresh_clearSession : clearSession.Fresh := fresh_create _ (by decide) rfl rfl

/-- `CREATE TABLE t (k INT PRIMARY KEY)`. -/
def keyTable : Statement := .createTable "t" [⟨"k", .int, false, true, false, false⟩]

/-- `INSERT INTO t VALUES (1), (1)`. -/
def twiceOne : Statement := .insert "t" none [[.int 1], [.int 1]]

/-- An `INSERT` whose second row repeats the key of the first one is refused as a whole. -/
theorem executeStatement_atomic_twiceOne :
    let e := (clearSession.engine.executeStatement clearEnv keyTable).2
    (e.executeStatement clearEnv twiceOne).1 =
        .error (.constraint "duplicate value for primary key \"k\"") ∧
      (e.executeStatement clearEnv twiceOne).2.store.backend.map = e.store.backend.map := by
  have h : ((clearSession.engine.executeStatement clearEnv keyTable).2.executeStatement clearEnv
      twiceOne).1 = .error (.constraint "duplicate value for primary key \"k\"") := by decide +kernel
  exact ⟨h, (Engine.executeStatement_atomic _ clearEnv (by decide) h).2.2.1⟩

/-- The batches a step hands to a log: the record of a statement outside a transaction, the flush
of a transaction, everything a rotation writes. -/
def records (s : Session C) : Step C → List Batch
  | .statement env st =>
    match program C s.engine.master st, s.engine.store.overlay with
    | .mutate q, none =>
      match q.run s.engine.store.reader with
      | .ok plan => if plan.writes.isEmpty then [] else [s.engine.auditedBatch env plan]
      | .error _ => []
    | .commit, some overlay => [overlay.toList.map pending]
    | _, _ => []
  | .rotate env newPassphrase kdf =>
    match (snapshot C s.engine.master).run s.engine.store.reader,
      (carryAudit C s.engine.master
        (C.derive kdf newPassphrase env.openEnv.salt.1)).run s.engine.store.reader with
    | .ok tables, .ok audit => s.engine.rotationBatches env newPassphrase kdf tables audit
    | _, _ => []
  | .reopen _ _ => []

end Session

end Ciphra
