import Ciphra.Engine.Audit

/-!
# A transaction whose commit is rejected

The backend may reject the flush of a transaction, writing nothing. The overlay is gone by then and
the snapshot of the audit head is not restored, so the cached head stays ahead of the stored chain
by the statements that were buffered. `Ahead` is the invariant of runs with such rejections: the
stored entries lie below the cached head, and a transaction that has buffered anything has moved
it. From a rejected flush on, the sequence numbers have a gap that no statement fills (`Gap`), and
verification fails: `auditVerify_after_rejected_commit`.
-/

namespace Ciphra

open OrdMap
open Storage (Io Fits Intact)

variable {C : Crypto}

/-! ## Sequence numbers -/

/-- An audit entry at the bound moves it by one. -/
theorem Below.audited {m : ByteMap} {mk : C.MasterKey} {n : ℕ} (h : Below m n)
    (entry : AuditEntry) (hn : n ≤ entry.seq.toNat) {ws : List (Unsealed C)} (hw : DataWrites ws)
    (nonces nonces' : ℕ → C.Nonce) :
    Below (applyAll m (C.sealWrites nonces ws ++ C.sealWrites nonces' (C.auditWrites mk entry)))
      (entry.seq.toNat + 1) := by
  intro key hp hkey
  by_cases hk : key = auditKey entry.seq
  · exact ⟨entry.seq, hk, by omega⟩
  · have hhead : key ≠ auditHeadKey := by
      rintro rfl
      revert hp
      decide
    rw [getElem?_applyAll_audited m hw _ _ _ _ key (not_dataKey_of_auditPrefix hp) hhead hk] at hkey
    obtain ⟨seq, rfl, hlt⟩ := h key hp hkey
    exact ⟨seq, rfl, by omega⟩

/-- The writes of a rotated database lie below the sequence number of its rotation. -/
theorem below_rotated {e : Engine C} {n : ℕ} (h : Below e.store.view n)
    (hn : n ≤ e.auditHead.1.toNat) (env : Engine.RotateEnv C) (newPassphrase : String)
    (kdf : KdfParams) (tables : List TableSnapshot) {audit : List (Unsealed C)}
    (haudit : (carryAudit C e.master (C.derive kdf newPassphrase env.openEnv.salt.1)).run
      e.store.view.reader = .ok audit) :
    Below (Storage.applyLog ∅ (e.rotationBatches env newPassphrase kdf tables audit))
      (e.auditHead.1.toNat + 1) := by
  let mk' := C.derive kdf newPassphrase env.openEnv.salt.1
  let m₁ := Storage.applyLog (Storage.applyLog ∅
    (Engine.freshBatches newPassphrase kdf env.openEnv))
    (tables.zipIdx.map fun t => C.sealWrites (env.nonces t.2) (rebuildTable C mk' t.1))
  have hm : Storage.applyLog ∅ (e.rotationBatches env newPassphrase kdf tables audit) =
      applyAll (applyAll m₁ (C.sealWrites (env.nonces tables.length) audit))
        (C.sealWrites (fun n => env.nonces (tables.length + 1) (0 + n)) [] ++
          C.sealWrites (fun n => env.nonces (tables.length + 1) (0 + n))
            (C.auditWrites mk' (e.rotateEntry env))) := by
    simp only [m₁, mk', Engine.rotationBatches, Storage.applyLog_append]
    rfl
  have hcarried : Below (applyAll m₁ (C.sealWrites (env.nonces tables.length) audit)) n := by
    intro key hp hkey
    by_cases hmem : ∃ w ∈ audit, w.key = key
    · obtain ⟨w, hw, rfl⟩ := hmem
      obtain ⟨⟨k, x⟩, he, hk⟩ := carryAudit_scanned haudit w hw
      have hx := ((e.store.view.mem_scanPrefix auditPrefix k x).mp he).1
      exact h _ hp (by rw [hk, hx]; exact Option.some_ne_none _)
    · refine absurd ?_ hkey
      rw [getElem?_applyAll_of_notMem, getElem?_applyLog_tables _ _ (not_dataKey_of_auditPrefix hp),
        freshBatches_audit _ _ _ (.inl hp)]
      intro op hop he
      obtain ⟨w, hw, hkw⟩ := mem_sealWrites hop
      exact hmem ⟨w, hw, hkw ▸ he⟩
  rw [hm]
  exact hcarried.audited _ hn DataWrites.nil _ _

/-- The map stores a head, and its entries lie below it, and it is at most `n`. -/
def StoredBelow (m : ByteMap) (mk : C.MasterKey) (n : ℕ) : Prop :=
  ∃ head, Engine.HeadIs C m mk head ∧ Below m head.1.toNat ∧ head.1.toNat ≤ n

theorem StoredBelow.below {m : ByteMap} {mk : C.MasterKey} {n : ℕ} (h : StoredBelow m mk n) :
    Below m n := by
  obtain ⟨head, -, hb, hle⟩ := h
  exact hb.mono hle

theorem StoredBelow.mono {m : ByteMap} {mk : C.MasterKey} {n n' : ℕ} (h : StoredBelow m mk n)
    (hle : n ≤ n') : StoredBelow m mk n' := by
  obtain ⟨head, hh, hb, hn⟩ := h
  exact ⟨head, hh, hb, hn.trans hle⟩

/-- A sequence number that has room is one less than the next. -/
theorem toNat_add_one {seq : UInt64} (h : seq.toNat + 1 < 2 ^ 64) :
    (seq + 1).toNat = seq.toNat + 1 := by
  rw [UInt64.toNat_add]
  exact Nat.mod_eq_of_lt h

theorem storedBelow_audited {m : ByteMap} {mk : C.MasterKey} {entry : AuditEntry}
    (h : Below m entry.seq.toNat) (hseq : entry.seq.toNat + 1 < 2 ^ 64) {ws : List (Unsealed C)}
    (hw : DataWrites ws) (nonces nonces' : ℕ → C.Nonce) :
    StoredBelow (applyAll m (C.sealWrites nonces ws ++
      C.sealWrites nonces' (C.auditWrites mk entry))) mk (entry.seq + 1).toNat := by
  refine ⟨_, headIs_audited m mk ws nonces nonces' entry, ?_, le_refl _⟩
  rw [toNat_add_one hseq]
  exact h.audited entry (le_refl _) hw nonces nonces'

namespace Session

/-! ## The cached head is ahead -/

/-- The stored entries lie below the cached head; in a transaction, those of the backend lie below
the snapshot of the head, which the first buffered write leaves behind. -/
structure Ahead (s : Session C) : Prop where
  view : StoredBelow s.engine.store.view s.engine.master s.engine.auditHead.1.toNat
  txn : ∀ o, s.engine.store.overlay = some o → ∃ head, s.engine.txnAuditHead = some head ∧
    StoredBelow s.engine.store.backend.map s.engine.master head.1.toNat ∧
    head.1.toNat ≤ s.engine.auditHead.1.toNat ∧ (o ≠ ∅ → head.1.toNat < s.engine.auditHead.1.toNat)

/-- Opening a database starts with the stored head. -/
theorem ahead_opened {st : Storage} {mk : C.MasterKey} {head : AuditHead} {passphrase : String}
    (hhead : Engine.HeadIs C st.map mk head) (hb : Below st.map head.1.toNat) :
    Ahead ⟨Engine.opened ⟨st, none⟩ mk head, passphrase⟩ :=
  ⟨⟨head, hhead, hb, le_refl _⟩, fun _ ho => by cases ho⟩

/-- Backend and view are the same outside a transaction. -/
theorem Ahead.base {s : Session C} (h : Ahead s) :
    StoredBelow s.engine.store.backend.map s.engine.master s.engine.auditHead.1.toNat := by
  rcases Option.eq_none_or_eq_some s.engine.store.overlay with ho | ⟨o, ho⟩
  · exact Store.view_of_none ho ▸ h.view
  · obtain ⟨head, -, hb, hle, -⟩ := h.txn o ho
    exact hb.mono hle

theorem Ahead.applied {s : Session C} (h : Ahead s) (hseq : s.engine.auditHead.1.toNat + 1 < 2 ^ 64)
    {env : Env C} {plan : Plan C} (hw : DataWrites plan.writes)
    (hc : (s.engine.store.commit (s.engine.auditedBatch env plan) env.io).1 = .ok ())
    (t : List QueryNote) :
    Ahead ⟨{ s.engine with
      store := (s.engine.store.commit (s.engine.auditedBatch env plan) env.io).2
      auditHead := ((s.engine.planEntry env plan).seq + 1, C.entryRoot (s.engine.planEntry env plan))
      telemetry := t }, s.passphrase⟩ := by
  have hview := Store.view_commit hc
  have hnext : (s.engine.auditHead.1 + 1).toNat = s.engine.auditHead.1.toNat + 1 :=
    toNat_add_one hseq
  constructor
  · rw [hview]
    exact storedBelow_audited h.view.below hseq hw _ _
  · intro o' ho'
    rcases Option.eq_none_or_eq_some s.engine.store.overlay with ho | ⟨o, ho⟩
    · rw [(Store.commit_of_none ho _ _).1] at ho'
      cases ho'
    · obtain ⟨head, ht, hb, hle, -⟩ := h.txn o ho
      have hbackend : (s.engine.store.commit (s.engine.auditedBatch env plan) env.io).2.backend =
          s.engine.store.backend := by rw [Store.commit_of_overlay ho]
      have hlt : head.1.toNat < (s.engine.auditHead.1 + 1).toNat := by omega
      exact ⟨head, ht, hbackend.symm ▸ hb, hlt.le, fun _ => hlt⟩

/-- A statement keeps the cached head ahead. -/
theorem Ahead.statement {s : Session C} (h : Ahead s)
    (hseq : s.engine.auditHead.1.toNat + 1 < 2 ^ 64) {env : Env C} {st : Statement}
    {r : Except EngineError QueryResult} {e : Engine C} (hx : Engine.Executes s.engine env st r e) :
    Ahead ⟨e, s.passphrase⟩ := by
  cases hx with
  | quiet _ t _ _ _ => exact ⟨h.view, h.txn⟩
  | applied q plan t hp hq _ hc =>
    rw [Store.reader_eq] at hq
    exact h.applied hseq (program_dataKeys hp _ (lawful_reader _) _ hq) hc t
  | refused q plan t err _ _ _ hc =>
    obtain ⟨ho, hst, hmap⟩ := Store.commit_error hc
    have hview := (Store.view_of_none hst).trans hmap
    refine ⟨hview.symm ▸ h.base, fun o ho' => ?_⟩
    rw [hst] at ho'
    cases ho'
  | began _ ho =>
    refine ⟨?_, ?_⟩
    · rw [Store.view_begin]
      exact h.base
    · rintro o ho'
      cases ho'
      exact ⟨_, rfl, h.base, le_refl _, fun hne => absurd rfl hne⟩
  | committed o _ _ hc =>
    obtain ⟨hst, hmap⟩ := Store.map_commitTransaction hc
    have hview := (Store.view_of_none hst).trans hmap
    refine ⟨hview.symm ▸ h.view, fun o ho' => ?_⟩
    rw [hst] at ho'
    cases ho'
  | commitFailed o err _ _ hc =>
    obtain ⟨hst, hmap⟩ := Store.commitTransaction_error hc
    have hview := (Store.view_of_none hst).trans hmap
    refine ⟨hview.symm ▸ h.base, fun o ho' => ?_⟩
    rw [hst] at ho'
    cases ho'
  | rolledBack o _ ho =>
    obtain ⟨head, ht, hb, -, -⟩ := h.txn o ho
    refine ⟨?_, fun _ ho' => by cases ho'⟩
    rw [Store.view_rollbackTransaction]
    simpa only [ht, Option.getD_some] using hb

/-- So does every step of a run in which the backend writes a batch whole or not at all. -/
theorem Ahead.step {s : Session C} {g : History Unit} (h : Ahead s)
    (hs : Sound .atomic (fun _ _ _ => True) s g) {a : Step C} (hseq : HasSeq s a)
    (hclean : Clean .atomic s a) : Ahead (s.step a) := by
  cases a with
  | statement env st => exact h.statement hseq (s.engine.executeStatement_spec env st)
  | rotate env newPassphrase kdf =>
    rcases hs.rotate_cases hclean with ⟨hstep, -⟩ |
      ⟨tables, audit, -, haudit, hvalid, -, -, hstep⟩
    · rw [hstep]
      exact h
    · obtain ⟨-, hhead⟩ := reserved_rotated s.engine env newPassphrase hvalid tables
        (carryAudit_keys haudit)
      have hb := below_rotated h.view.below (le_refl _) env newPassphrase kdf tables haudit
      rw [← toNat_add_one hseq] at hb
      rw [← Engine.map_writeAll ⟨∅, []⟩] at hhead hb
      rw [hstep]
      exact ahead_opened hhead hb
  | reopen env kdf =>
    obtain ⟨log, hlog⟩ := hs.intact trivial
    obtain ⟨head, hhead, hb, -⟩ := h.base
    rw [step_reopen hlog.openLog_wal hs.opens hhead]
    exact ahead_opened hhead hb

/-- The cached head is ahead in every such run. -/
theorem ahead_run {s : Session C} (hs : s.Fresh) {steps : List (Step C)}
    (hrun : Along step (fun s a => HasSeq s a ∧ Clean .atomic s a) s steps) :
    Ahead (steps.foldl step s) := by
  let onPlan : Engine C → Env C → Plan C → Unit → Unit := fun _ _ _ g => g
  let onRotate : Engine C → Engine.RotateEnv C → Unit → Unit := fun _ _ g => g
  have hk : Keeps .atomic HasSeq (fun _ _ (_ : Unit) => True) onPlan onRotate :=
    ⟨fun _ _ _ _ _ _ _ _ _ _ _ _ => trivial, fun _ _ _ _ _ _ _ _ _ _ _ _ _ => trivial⟩
  have hfresh : Ahead s := by
    obtain ⟨passphrase, kdf, env, -, rfl⟩ := hs.eq_create
    obtain ⟨es, hes, heffects⟩ := chained_fresh passphrase kdf env
    obtain rfl := List.map_eq_nil_iff.mp heffects
    rw [← Engine.map_writeAll ⟨∅, []⟩] at hes
    refine ahead_opened hes.head fun key hp hkey => ?_
    obtain ⟨i, hi, -⟩ := hes.entries.only key hp hkey
    simp at hi
  have hinv := hrun.invariant_ghost (r := record onPlan onRotate)
    (I := fun s g => Sound .atomic (fun _ _ (_ : Unit) => True) s g ∧ Ahead s)
    (fun s g a h ha => ⟨h.1.step hk a ha, h.2.step h.1 ha.1 ha.2⟩)
    ⟨Fresh.sound (x := ()) (fun _ _ _ => trivial) hs, hfresh⟩
  exact hinv.2

/-! ## The gap -/

/-- The sequence number `k` has been given out and no entry has it. -/
structure Gap (k : UInt64) (s : Session C) : Prop where
  missing : s.engine.store.view[auditKey k]? = none
  lt : k.toNat < s.engine.auditHead.1.toNat
  below : Below s.engine.store.view s.engine.auditHead.1.toNat
  txn : ∀ o, s.engine.store.overlay = some o → ∃ head, s.engine.txnAuditHead = some head ∧
    s.engine.store.backend.map[auditKey k]? = none ∧ k.toNat < head.1.toNat ∧
    Below s.engine.store.backend.map head.1.toNat ∧ head.1.toNat ≤ s.engine.auditHead.1.toNat

theorem Gap.base {k : UInt64} {s : Session C} (h : Gap k s) :
    s.engine.store.backend.map[auditKey k]? = none ∧
      Below s.engine.store.backend.map s.engine.auditHead.1.toNat := by
  rcases Option.eq_none_or_eq_some s.engine.store.overlay with ho | ⟨o, ho⟩
  · exact Store.view_of_none ho ▸ ⟨h.missing, h.below⟩
  · obtain ⟨head, -, hm, -, hb, hle⟩ := h.txn o ho
    exact ⟨hm, hb.mono hle⟩

/-- A rejected flush opens the gap: the snapshot's sequence number is not used again. -/
theorem gap_of_rejected {s : Session C} (h : Ahead s) {o : Overlay}
    (ho : s.engine.store.overlay = some o) {io : Io} {err : StorageError}
    (hc : (s.engine.store.commitTransaction io).1 = .error err) :
    ∃ k, Gap k ⟨{ s.engine with store := (s.engine.store.commitTransaction io).2 },
      s.passphrase⟩ := by
  obtain ⟨hst, hmap⟩ := Store.commitTransaction_error hc
  have hview := (Store.view_of_none hst).trans hmap
  obtain ⟨head, -, hb, hle, hlt⟩ := h.txn o ho
  have hne : o ≠ ∅ := by
    rintro rfl
    rw [Store.commitTransaction, ho] at hc
    simp at hc
  refine ⟨head.1, ⟨?_, hlt hne, ?_, fun o' ho' => ?_⟩⟩
  · rw [hview]
    by_contra hkey
    obtain ⟨seq, heq, hseq⟩ := hb.below _ (auditPrefix_auditKey _) hkey
    rw [auditKey_injective heq] at hseq
    omega
  · rw [hview]
    exact hb.below.mono hle
  · rw [hst] at ho'
    cases ho'

theorem Gap.applied {k : UInt64} {s : Session C} (h : Gap k s)
    (hseq : s.engine.auditHead.1.toNat + 1 < 2 ^ 64)
    {env : Env C} {plan : Plan C} (hw : DataWrites plan.writes)
    (hc : (s.engine.store.commit (s.engine.auditedBatch env plan) env.io).1 = .ok ())
    (t : List QueryNote) :
    Gap k ⟨{ s.engine with
      store := (s.engine.store.commit (s.engine.auditedBatch env plan) env.io).2
      auditHead := ((s.engine.planEntry env plan).seq + 1, C.entryRoot (s.engine.planEntry env plan))
      telemetry := t }, s.passphrase⟩ := by
  have hview := Store.view_commit hc
  have hnext : (s.engine.auditHead.1 + 1).toNat = s.engine.auditHead.1.toNat + 1 :=
    toNat_add_one hseq
  have hlt := h.lt
  have hle : s.engine.auditHead.1.toNat ≤ (s.engine.auditHead.1 + 1).toNat := by omega
  have hne : auditKey k ≠ auditKey s.engine.auditHead.1 := by
    intro heq
    rw [auditKey_injective heq] at hlt
    omega
  refine ⟨?_, ?_, ?_, fun o' ho' => ?_⟩
  · rw [hview]
    have hlook := getElem?_applyAll_audited s.engine.store.view hw env.nonces
      (fun n => env.nonces (plan.writes.length + n)) s.engine.master (s.engine.planEntry env plan)
      (auditKey k) (not_dataKey_of_auditPrefix (auditPrefix_auditKey _))
      (auditKey_ne_auditHeadKey _) hne
    exact hlook.trans h.missing
  · exact lt_of_lt_of_le hlt hle
  · rw [hview]
    exact (h.below.audited (s.engine.planEntry env plan) (le_refl _) hw _ _).mono hnext.ge
  · rcases Option.eq_none_or_eq_some s.engine.store.overlay with ho | ⟨o, ho⟩
    · rw [(Store.commit_of_none ho _ _).1] at ho'
      cases ho'
    · obtain ⟨head, ht, hm, hkh, hb, hhead⟩ := h.txn o ho
      have hbackend : (s.engine.store.commit (s.engine.auditedBatch env plan) env.io).2.backend =
          s.engine.store.backend := by rw [Store.commit_of_overlay ho]
      exact ⟨head, ht, hbackend.symm ▸ hm, hkh, hbackend.symm ▸ hb, hhead.trans hle⟩

/-- No statement fills the gap. -/
theorem Gap.statement {k : UInt64} {s : Session C} (h : Gap k s)
    (hseq : s.engine.auditHead.1.toNat + 1 < 2 ^ 64) {env : Env C} {st : Statement}
    {r : Except EngineError QueryResult} {e : Engine C} (hx : Engine.Executes s.engine env st r e) :
    Gap k ⟨e, s.passphrase⟩ := by
  cases hx with
  | quiet _ t _ _ _ => exact ⟨h.missing, h.lt, h.below, h.txn⟩
  | applied q plan t hp hq _ hc =>
    rw [Store.reader_eq] at hq
    exact h.applied hseq (program_dataKeys hp _ (lawful_reader _) _ hq) hc t
  | refused q plan t err _ _ _ hc =>
    obtain ⟨ho, hst, hmap⟩ := Store.commit_error hc
    have hview := (Store.view_of_none hst).trans hmap
    refine ⟨hview.symm ▸ h.base.1, h.lt, hview.symm ▸ h.base.2, fun o ho' => ?_⟩
    rw [hst] at ho'
    cases ho'
  | began _ ho =>
    refine ⟨?_, h.lt, ?_, ?_⟩
    · rw [Store.view_begin]
      exact h.base.1
    · rw [Store.view_begin]
      exact h.base.2
    · rintro o ho'
      cases ho'
      exact ⟨_, rfl, h.base.1, h.lt, h.base.2, le_refl _⟩
  | committed o _ _ hc =>
    obtain ⟨hst, hmap⟩ := Store.map_commitTransaction hc
    have hview := (Store.view_of_none hst).trans hmap
    refine ⟨hview.symm ▸ h.missing, h.lt, hview.symm ▸ h.below, fun o ho' => ?_⟩
    rw [hst] at ho'
    cases ho'
  | commitFailed o err _ _ hc =>
    obtain ⟨hst, hmap⟩ := Store.commitTransaction_error hc
    have hview := (Store.view_of_none hst).trans hmap
    refine ⟨hview.symm ▸ h.base.1, h.lt, hview.symm ▸ h.base.2, fun o ho' => ?_⟩
    rw [hst] at ho'
    cases ho'
  | rolledBack o _ ho =>
    obtain ⟨head, ht, hm, hkh, hb, -⟩ := h.txn o ho
    refine ⟨hm, ?_, ?_, fun _ ho' => by cases ho'⟩
    · simpa only [ht, Option.getD_some] using hkh
    · rw [Store.view_rollbackTransaction]
      simpa only [ht, Option.getD_some] using hb

/-- Verification fails where there is a gap. -/
theorem Gap.auditVerify {k : UInt64} {s : Session C} (h : Gap k s) :
    ∃ err, s.engine.auditVerify = .error err := auditVerify_error h.below h.missing h.lt

/-- A `COMMIT` that fails in the backend. -/
theorem commit_storage_error {e : Engine C} {env : Env C} {err : StorageError}
    (h : (e.executeStatement env .commit).1 = .error (.storage err)) :
    ∃ o, e.store.overlay = some o ∧ (e.store.commitTransaction env.io).1 = .error err ∧
      (e.executeStatement env .commit).2 =
        { e with store := (e.store.commitTransaction env.io).2 } := by
  have heq : e.executeStatement env .commit = e.commitTransaction env.io := rfl
  rw [heq] at h ⊢
  unfold Engine.commitTransaction at h ⊢
  rcases Option.eq_none_or_eq_some e.store.overlay with ho | ⟨o, ho⟩
  · simp only [Store.inTransaction, ho, Option.isSome_none, Bool.false_eq_true, if_false] at h
    cases h
  · simp only [Store.inTransaction, ho, Option.isSome_some, if_true] at h ⊢
    refine ⟨o, rfl, ?_⟩
    rcases hc : e.store.commitTransaction env.io with ⟨⟨err'⟩ | ⟨⟩, store⟩
    · rw [hc] at h
      cases h
      exact ⟨rfl, rfl⟩
    · rw [hc] at h
      cases h

/-- The statements of a session, as steps. -/
def statements (l : List (Env C × Statement)) : List (Step C) := l.map fun f => .statement f.1 f.2

theorem Gap.statements {k : UInt64} {s : Session C} (h : Gap k s) (l : List (Env C × Statement))
    (hseq : Along step HasSeq s (statements l)) : Gap k ((statements l).foldl step s) := by
  induction l generalizing s with
  | nil => exact h
  | cons f l ih =>
    exact ih (h.statement hseq.1 (s.engine.executeStatement_spec f.1 f.2)) hseq.2

/-- **After a rejected commit** verification fails, whatever statements follow. -/
theorem auditVerify_after_rejected_commit {s : Session C} (hs : s.Fresh) (steps : List (Step C))
    (hrun : Along step (fun s a => HasSeq s a ∧ Clean .atomic s a) s steps) (env : Env C)
    {err : StorageError}
    (herr : ((steps.foldl step s).engine.executeStatement env .commit).1 = .error (.storage err))
    (further : List (Env C × Statement))
    (hfurther : Along step HasSeq ((steps.foldl step s).step (.statement env .commit))
      (statements further)) :
    ∃ err, ((statements further).foldl step
      ((steps.foldl step s).step (.statement env .commit))).engine.auditVerify = .error err := by
  obtain ⟨o, ho, hc, heq⟩ := commit_storage_error herr
  obtain ⟨k, hgap⟩ := gap_of_rejected (ahead_run hs hrun) ho hc
  rw [← heq] at hgap
  exact (hgap.statements further hfurther).auditVerify

/-! A transaction that creates a table, and whose commit is rejected. -/

/-- `BEGIN` and `CREATE TABLE`. -/
def buffered : List (Step Crypto.clear) :=
  [.statement clearEnv .begin, .statement clearEnv (tableStatement "t")]

/-- The surroundings in which the backend rejects a batch. -/
def rejectEnv : Env Crypto.clear := ⟨0, fun _ => (), .writeFailed 0, .integers⟩

theorem buffered_spec :
    let s := buffered.foldl step clearSession
    s.engine.auditHead.1 = 1 ∧ ∃ o, s.engine.store.overlay = some o ∧ o.toList ≠ [] := by
  let e : Engine Crypto.clear := (clearSession.step (.statement clearEnv .begin)).engine
  have hview : e.store.view = clearSession.engine.store.view := Store.view_begin _
  have hnew : e.store.view[Crypto.clear.catalogKey e.master "t"]? = none := by
    rw [hview]
    exact getElem?_create_catalog "passphrase" .recommended clearOpenEnv "t"
  obtain ⟨q, hp, hq⟩ := run_tableStatement hnew
  have hcommit := Store.commit_of_overlay (s := e.store) rfl
    (e.auditedBatch clearEnv (tablePlan e.master "t")) clearEnv.io
  have hx := e.executeStatement_applied clearEnv hp hq (by simp [tablePlan]) (by rw [hcommit])
  rw [hcommit] at hx
  have hs : buffered.foldl step clearSession =
    ⟨(e.executeStatement clearEnv (tableStatement "t")).2, "passphrase"⟩ := rfl
  rw [hs, hx]
  refine ⟨rfl, _, rfl, fun hnil => ?_⟩
  -- an overlay without writes would leave the head unwritten
  have hlayer := layer_foldl_stage clearSession.engine.store.backend.map ∅
    (e.auditedBatch clearEnv (tablePlan e.master "t"))
  rw [layer, hnil, layer_empty] at hlayer
  have hnone : clearSession.engine.store.backend.map[auditHeadKey]? = none := by
    have hmap : clearSession.engine.store.backend.map =
        Storage.applyLog ∅ (Engine.freshBatches "passphrase" .recommended clearOpenEnv) :=
      Engine.map_writeAll _ _
    rw [hmap, freshBatches_audit _ _ _ (.inr rfl)]
  rw [List.map_nil, applyAll_nil] at hlayer
  rw [hlayer, Engine.auditedBatch, applyAll_append, getElem?_applyAll_auditWrites,
    if_pos rfl] at hnone
  cases hnone

theorem rejected_commit :
    ((buffered.foldl step clearSession).engine.executeStatement rejectEnv .commit).1 =
      .error (.storage .io) := by
  obtain ⟨-, o, ho, hne⟩ := buffered_spec
  have heq : (buffered.foldl step clearSession).engine.executeStatement rejectEnv .commit =
    (buffered.foldl step clearSession).engine.commitTransaction rejectEnv.io := rfl
  have hfails := Store.commitTransaction_fails ho hne (show rejectEnv.io ≠ .ok by decide)
  rcases hc : (buffered.foldl step clearSession).engine.store.commitTransaction rejectEnv.io with
    ⟨r, store⟩
  rw [hc] at hfails
  obtain rfl : r = .error .io := hfails
  simp only [heq, Engine.commitTransaction, Store.inTransaction, ho, Option.isSome_some, if_true, hc]

theorem clean_buffered :
    Along step (fun s a => HasSeq s a ∧ Clean .atomic s a) clearSession buffered := by
  refine ⟨⟨?_, clean_statement rfl ?_⟩, ⟨?_, clean_statement rfl ?_⟩, trivial⟩
  all_goals decide +kernel

theorem auditVerify_after_rejected_commit_create_table :
    ∃ err, ((buffered.foldl step clearSession).step
      (.statement rejectEnv .commit)).engine.auditVerify = .error err :=
  auditVerify_after_rejected_commit fresh_clearSession buffered clean_buffered rejectEnv
    rejected_commit [] trivial

/-- The table's entry is gone, and the cached head still counts it. -/
theorem not_auditVerify_after_rejected_commit :
    clearSession.Fresh ∧
      ((buffered.foldl step clearSession).engine.executeStatement rejectEnv .commit).1 =
        .error (.storage .io) ∧
      ¬ ∃ es, ((buffered.foldl step clearSession).step
        (.statement rejectEnv .commit)).engine.auditVerify = .ok es := by
  obtain ⟨o, ho, hc, heq⟩ := commit_storage_error rejected_commit
  obtain ⟨k, hgap⟩ := gap_of_rejected (ahead_run fresh_clearSession clean_buffered) ho hc
  rw [← heq] at hgap
  refine ⟨fresh_clearSession, rejected_commit, ?_⟩
  rintro ⟨es, hes⟩
  obtain ⟨err, herr⟩ := hgap.auditVerify
  rw [step, herr] at hes
  cases hes

end Session

end Ciphra
