import Ciphra.Engine.FailedCommit

/-!
# The records of a log and the audit chain

Every record that a statement or a transaction writes to the log carries the audit entries of its
statements and the head that follows them (`Adds`). A log is its two first records, the parameters
and the canary, followed by such records, each continuing the chain where the one before it has
ended (`Recorded`); `logged_run` says so for every run without a rotation.

Records may then be taken out of the log. The remaining file always opens, and verification
compares the entries left with the last head left, so it succeeds exactly when what is left is a
prefix: `auditVerify_kept_iff_prefix`.
-/

namespace Ciphra

open OrdMap
open Storage (Io Fits Intact Writable applyLog encodeLog)

variable {C : Crypto}

/-! ## What a record adds to the chain -/

/-- The changes add the entries to the chain, store the head that follows them, and leave the other
reserved records alone. -/
structure Adds (C : Crypto) (mk : C.MasterKey) (o : Overlay) (es new : List AuditEntry) : Prop where
  entry : ∀ i e, new[i]? = some e → ∃ nonce, o[auditKey (UInt64.ofNat (es.length + i))]? =
    some (some (C.sealWith (C.deriveKey mk "audit") nonce e.encode
      (auditKey (UInt64.ofNat (es.length + i)))))
  only : ∀ key, auditPrefix <+: key → o[key]? ≠ none →
    ∃ i < new.length, key = auditKey (UInt64.ofNat (es.length + i))
  head : new ≠ [] → ∃ nonce, o[auditHeadKey]? =
    some (some (C.sealWith (C.deriveKey mk "audit") nonce
      (Crypto.headBytes (chainHead C (es ++ new))) auditHeadKey))
  params : o[keyparamsKey]? = none
  canary : o[canaryKey]? = none

theorem adds_empty (mk : C.MasterKey) (es : List AuditEntry) : Adds C mk ∅ es [] where
  entry i e he := by simp at he
  only key _ hkey := by simp at hkey
  head hne := absurd rfl hne
  params := by simp
  canary := by simp

/-- The two writes of an audit entry, looked up in the batch. -/
theorem getElem?_written_auditWrites (nonces : ℕ → C.Nonce) (mk : C.MasterKey) (entry : AuditEntry)
    (key : Bytes) :
    (written (C.sealWrites nonces (C.auditWrites mk entry)))[key]? =
      if key = auditHeadKey then
        some (some (C.sealWith (C.deriveKey mk "audit") (nonces 1)
          (Crypto.headBytes (entry.seq + 1, C.entryRoot entry)) auditHeadKey))
      else if key = auditKey entry.seq then
        some (some (C.sealWith (C.deriveKey mk "audit") (nonces 0) entry.encode
          (auditKey entry.seq)))
      else none := by
  simp only [Crypto.auditWrites, Crypto.sealWrites, written, List.foldl_cons, List.foldl_nil, stage,
    Mutation.key, Mutation.result, getElem?_insert_eq, eq_comm (a := key),
    Std.ExtTreeMap.getElem?_empty]

/-- The batch of a statement writes no other reserved record. -/
theorem getElem?_written_audited {ws : List (Unsealed C)} (hw : DataWrites ws)
    (nonces nonces' : ℕ → C.Nonce) (mk : C.MasterKey) (entry : AuditEntry) {key : Bytes}
    (hk : ¬ DataKey key) :
    (written (C.sealWrites nonces ws ++ C.sealWrites nonces' (C.auditWrites mk entry)))[key]? =
      (written (C.sealWrites nonces' (C.auditWrites mk entry)))[key]? := by
  have hnone : (written (C.sealWrites nonces ws))[key]? = none := by
    refine getElem?_written_of_notMem fun op hop he => ?_
    obtain ⟨w, hmem, hkey⟩ := mem_sealWrites hop
    exact hk (he ▸ hkey ▸ hw w hmem)
  rw [getElem?_written_append, hnone, Option.or_none]

/-- A statement adds its entry. -/
theorem adds_audited {mk : C.MasterKey} {es : List AuditEntry} {ws : List (Unsealed C)}
    (hw : DataWrites ws) (nonces nonces' : ℕ → C.Nonce) {entry : AuditEntry}
    (hseq : entry.seq = (chainHead C es).1) :
    Adds C mk (written (C.sealWrites nonces ws ++ C.sealWrites nonces' (C.auditWrites mk entry)))
      es [entry] := by
  have hlook : ∀ key, ¬ DataKey key → (written (C.sealWrites nonces ws ++
      C.sealWrites nonces' (C.auditWrites mk entry)))[key]? = _ := fun key hk =>
    (getElem?_written_audited hw nonces nonces' mk entry hk).trans
      (getElem?_written_auditWrites nonces' mk entry key)
  rw [chainHead_fst] at hseq
  constructor
  · intro i e he
    obtain ⟨rfl, rfl⟩ : i = 0 ∧ entry = e := by
      cases i with
      | zero => exact ⟨rfl, Option.some.inj he⟩
      | succ i => simp at he
    refine ⟨nonces' 0, ?_⟩
    rw [hlook _ (not_dataKey_of_auditPrefix (auditPrefix_auditKey _)),
      if_neg (auditKey_ne_auditHeadKey _), Nat.add_zero, ← hseq, if_pos rfl]
  · intro key hp hkey
    rw [hlook _ (not_dataKey_of_auditPrefix hp)] at hkey
    split at hkey
    · rename_i hh
      exact absurd (hh ▸ hp) (by decide)
    · split at hkey
      · exact ⟨0, by simp, by rw [Nat.add_zero, ← hseq]; assumption⟩
      · exact absurd rfl hkey
  · intro _
    refine ⟨nonces' 1, ?_⟩
    rw [hlook _ not_dataKey_auditHeadKey, if_pos rfl, chainHead_append, chainHead_fst, hseq]
  · rw [hlook _ not_dataKey_keyparamsKey, if_neg (by decide), if_neg]
    simp [keyparamsKey, auditKey, auditPrefix]
  · rw [hlook _ not_dataKey_canaryKey, if_neg (by decide), if_neg]
    simp [canaryKey, auditKey, auditPrefix]

/-- Buffered statements add up. -/
theorem Adds.stage {mk : C.MasterKey} {o : Overlay} {es new : List AuditEntry} {b : Batch}
    {entry : AuditEntry} (h : Adds C mk o es new)
    (hb : Adds C mk (written b) (es ++ new) [entry]) (hlen : (es ++ new).length < 2 ^ 64) :
    Adds C mk (b.foldl stage o) es (new ++ [entry]) := by
  have hlook := getElem?_foldl_stage o b
  constructor
  · intro i e he
    rw [hlook]
    rcases lt_or_ge i new.length with hi | hi
    · rw [List.getElem?_append_left hi] at he
      obtain ⟨nonce, hs⟩ := h.entry i e he
      have hnone : (written b)[auditKey (UInt64.ofNat (es.length + i))]? = none := by
        by_contra hne
        obtain ⟨j, hj, heq⟩ := hb.only _ (auditPrefix_auditKey _) hne
        obtain rfl : j = 0 := by simpa using hj
        rw [List.length_append] at hlen heq
        have := ofNat_inj (by omega) (by omega) (auditKey_injective heq)
        omega
      exact ⟨nonce, by rw [hnone, Option.none_or, hs]⟩
    · rw [List.getElem?_append_right hi] at he
      have hi' : i = new.length := by
        have := (List.getElem?_eq_some_iff.mp he).1
        simp at this
        omega
      subst hi'
      obtain ⟨nonce, hs⟩ := hb.entry 0 e (by simpa using he)
      rw [List.length_append, Nat.add_zero] at hs
      exact ⟨nonce, by rw [hs]; rfl⟩
  · intro key hp hkey
    rw [hlook] at hkey
    by_cases hw : (written b)[key]? = none
    · rw [hw, Option.none_or] at hkey
      obtain ⟨i, hi, rfl⟩ := h.only key hp hkey
      exact ⟨i, by simp; omega, rfl⟩
    · obtain ⟨i, hi, rfl⟩ := hb.only key hp hw
      obtain rfl : i = 0 := by simpa using hi
      exact ⟨new.length, by simp, by rw [List.length_append, Nat.add_zero]⟩
  · intro _
    obtain ⟨nonce, hs⟩ := hb.head (by simp)
    refine ⟨nonce, ?_⟩
    rw [hlook, hs, ← List.append_assoc]
    rfl
  · rw [hlook, hb.params, h.params]
    rfl
  · rw [hlook, hb.canary, h.canary]
    rfl

/-! ## Logs -/

/-- The records carry the chain, one after the other. -/
inductive Recorded (C : Crypto) (mk : C.MasterKey) : List Batch → List AuditEntry → Prop
  | nil : Recorded C mk [] []
  | snoc {recs : List Batch} {es new : List AuditEntry} {b : Batch} (h : Recorded C mk recs es)
      (hne : new ≠ []) (hadds : Adds C mk (written b) es new) :
      Recorded C mk (recs ++ [b]) (es ++ new)

/-- The records write only the entries of their chain. -/
theorem Recorded.only {mk : C.MasterKey} {recs : List Batch} {es : List AuditEntry}
    (h : Recorded C mk recs es) {b : Batch} (hb : b ∈ recs) {key : Bytes} (hp : auditPrefix <+: key)
    (hkey : (written b)[key]? ≠ none) : ∃ i < es.length, key = auditKey (UInt64.ofNat i) := by
  induction h with
  | nil => cases hb
  | @snoc recs es new b' _ _ hadds ih =>
    rcases List.mem_append.mp hb with hb | hb
    · obtain ⟨i, hi, rfl⟩ := ih hb
      exact ⟨i, by rw [List.length_append]; omega, rfl⟩
    · obtain rfl := List.mem_singleton.mp hb
      obtain ⟨i, hi, rfl⟩ := hadds.only key hp hkey
      exact ⟨es.length + i, by rw [List.length_append]; omega, rfl⟩

/-- A record that continues the chain is a new one. -/
theorem Recorded.notMem {mk : C.MasterKey} {recs : List Batch} {es new : List AuditEntry} {b : Batch}
    (h : Recorded C mk recs es) (hne : new ≠ []) (hadds : Adds C mk (written b) es new)
    (hlen : (es ++ new).length < 2 ^ 64) : b ∉ recs := by
  intro hb
  obtain ⟨e, new', rfl⟩ := List.exists_cons_of_ne_nil hne
  obtain ⟨nonce, hs⟩ := hadds.entry 0 e rfl
  obtain ⟨i, hi, heq⟩ := h.only hb (auditPrefix_auditKey _) (by rw [hs]; exact Option.some_ne_none _)
  rw [List.length_append, List.length_cons] at hlen
  have := ofNat_inj (by omega) (by omega) (auditKey_injective heq)
  omega

/-! ## Records taken out -/

/-- The map stores the entries of the chain at the places `cov`, and a head that says `n`. -/
structure Covers (C : Crypto) (mk : C.MasterKey) (base m : ByteMap) (es : List AuditEntry)
    (cov : ℕ → Prop) (n : ℕ) : Prop where
  stored : ∀ i e, cov i → es[i]? = some e → ∃ nonce, m[auditKey (UInt64.ofNat i)]? =
    some (C.sealWith (C.deriveKey mk "audit") nonce e.encode (auditKey (UInt64.ofNat i)))
  only : ∀ key, auditPrefix <+: key → m[key]? ≠ none → ∃ i, cov i ∧ key = auditKey (UInt64.ofNat i)
  lt : ∀ i, cov i → i < n
  le : n ≤ es.length
  head : Engine.HeadIs C m mk (chainHead C (es.take n))
  params : m[keyparamsKey]? = base[keyparamsKey]?
  canary : m[canaryKey]? = base[canaryKey]?

/-- A chain may go on beyond what is stored. -/
theorem Covers.append {mk : C.MasterKey} {base m : ByteMap} {es : List AuditEntry} {cov : ℕ → Prop}
    {n : ℕ} (h : Covers C mk base m es cov n) (new : List AuditEntry) :
    Covers C mk base m (es ++ new) cov n where
  stored i e hi he := by
    have hlt := (h.lt i hi).trans_le h.le
    rw [List.getElem?_append_left hlt] at he
    exact h.stored i e hi he
  only := h.only
  lt := h.lt
  le := h.le.trans (by simp)
  head := by
    rw [List.take_append_of_le_length h.le]
    exact h.head
  params := h.params
  canary := h.canary

/-- A record stores its entries and its head. -/
theorem Covers.applyAll {mk : C.MasterKey} {base m : ByteMap} {es new : List AuditEntry}
    {cov : ℕ → Prop} {n : ℕ} (h : Covers C mk base m es cov n) {b : Batch} (hne : new ≠ [])
    (hadds : Adds C mk (written b) es new) (hlen : (es ++ new).length < 2 ^ 64) :
    Covers C mk base (applyAll m b) (es ++ new)
      (fun i => cov i ∨ (es.length ≤ i ∧ i < es.length + new.length)) (es.length + new.length) := by
  have hlook := getElem?_applyAll m b
  have hsum : es.length + new.length < 2 ^ 64 := by simpa using hlen
  constructor
  · intro i e hi he
    rw [hlook]
    rcases lt_or_ge i es.length with hlt | hge
    · have hcov : cov i := hi.resolve_right fun hi => by omega
      rw [List.getElem?_append_left hlt] at he
      obtain ⟨nonce, hs⟩ := h.stored i e hcov he
      have hnone : (written b)[auditKey (UInt64.ofNat i)]? = none := by
        by_contra hw
        obtain ⟨j, hj, heq⟩ := hadds.only _ (auditPrefix_auditKey _) hw
        have := ofNat_inj (by omega) (by omega) (auditKey_injective heq)
        omega
      exact ⟨nonce, by rw [hnone]; exact hs⟩
    · rw [List.getElem?_append_right hge] at he
      obtain ⟨nonce, hs⟩ := hadds.entry _ e he
      rw [Nat.add_sub_cancel' hge] at hs
      exact ⟨nonce, by rw [hs]; rfl⟩
  · intro key hp hkey
    rw [hlook] at hkey
    by_cases hw : (written b)[key]? = none
    · rw [hw] at hkey
      obtain ⟨i, hi, rfl⟩ := h.only key hp hkey
      exact ⟨i, .inl hi, rfl⟩
    · obtain ⟨i, hi, rfl⟩ := hadds.only key hp hw
      exact ⟨es.length + i, .inr ⟨by omega, by omega⟩, rfl⟩
  · rintro i (hi | hi)
    · have := (h.lt i hi).trans_le h.le
      omega
    · exact hi.2
  · simp
  · obtain ⟨nonce, hs⟩ := hadds.head hne
    refine .inr ⟨nonce, ?_⟩
    rw [hlook, hs, ← List.length_append, List.take_length]
    rfl
  · rw [hlook, hadds.params]
    exact h.params
  · rw [hlook, hadds.canary]
    exact h.canary

/-- **What is left of a log.** The entries left reach up to the last head left exactly when the
records left are a prefix, and make up the whole chain exactly when they are all there. -/
theorem Recorded.covers {mk : C.MasterKey} {base : ByteMap} {recs : List Batch}
    {es : List AuditEntry} (h : Recorded C mk recs es) (hlen : es.length < 2 ^ 64)
    (hbase : ∀ key, auditPrefix <+: key → base[key]? = none) (hhead : base[auditHeadKey]? = none)
    {kept : List Batch} (hk : kept.Sublist recs) :
    ∃ cov n, Covers C mk base (applyLog base kept) es cov n ∧
      ((∀ i < n, cov i) ↔ kept <+: recs) ∧ ((∀ i < es.length, cov i) ↔ kept = recs) := by
  induction h generalizing kept with
  | nil =>
    obtain rfl := List.sublist_nil.mp hk
    refine ⟨fun _ => False, 0, ⟨fun i e hi => hi.elim, fun key hp hkey => ?_, fun i hi => hi.elim,
      le_refl _, .inl ⟨hhead, rfl⟩, rfl, rfl⟩, by simp, by simp⟩
    exact absurd (hbase key hp) hkey
  | @snoc recs es new b h hne hadds ih =>
    have hlen' : es.length < 2 ^ 64 := by
      rw [List.length_append] at hlen
      omega
    have hpos := List.length_pos_of_ne_nil hne
    obtain ⟨kept', l, rfl, hk', hl⟩ := List.sublist_append_iff.mp hk
    obtain ⟨cov, n, hcov, hpre, hall⟩ := ih hlen' hk'
    have hlt : ∀ i, cov i → i < es.length := fun i hi => (hcov.lt i hi).trans_le hcov.le
    rcases List.sublist_cons_iff.mp hl with hl | ⟨r, rfl, hr⟩
    · -- the last record is gone
      obtain rfl := List.sublist_nil.mp hl
      rw [List.append_nil]
      refine ⟨cov, n, hcov.append new, ?_, ?_⟩
      · rw [hpre, List.prefix_concat_iff]
        refine ⟨.inr, fun h => h.resolve_left ?_⟩
        rintro rfl
        have := hk'.length_le
        simp at this
      · constructor
        · intro hfull
          have := hlt es.length (hfull es.length (by rw [List.length_append]; omega))
          omega
        · rintro rfl
          have := hk'.length_le
          simp at this
    · obtain rfl := List.sublist_nil.mp hr
      rw [Storage.applyLog_append]
      -- with the last record everything before it has to be there
      have hiff : (∀ i < es.length + new.length, cov i ∨ (es.length ≤ i ∧
          i < es.length + new.length)) ↔ kept' = recs := by
        rw [← hall]
        constructor
        · intro hfull i hi
          exact (hfull i (by omega)).resolve_right fun h => by omega
        · intro hfull i hi
          rcases lt_or_ge i es.length with hlt | hge
          · exact .inl (hfull i hlt)
          · exact .inr ⟨hge, hi⟩
      refine ⟨_, _, hcov.applyAll hne hadds hlen, hiff.trans ?_, ?_⟩
      · constructor
        · rintro rfl
          exact List.prefix_rfl
        · intro hp
          rcases List.prefix_concat_iff.mp hp with heq | hp
          · exact List.append_cancel_right heq
          · have hmem : b ∈ recs := hp.subset (by simp)
            exact absurd hmem (h.notMem hne hadds hlen)
      · rw [List.length_append, hiff]
        exact ⟨fun h => by rw [h], fun h => List.append_cancel_right h⟩

/-- Verification succeeds where the entries reach up to the head. -/
theorem Covers.auditVerify_iff {e : Engine C} {base : ByteMap} {es : List AuditEntry}
    {cov : ℕ → Prop} {n : ℕ} (h : Covers C e.master base e.store.view es cov n)
    (hlinked : Linked C es) (hlen : es.length < 2 ^ 64)
    (hhead : e.auditHead = chainHead C (es.take n)) :
    (∃ entries, e.auditVerify = .ok entries) ↔ ∀ i < n, cov i := by
  have hn := h.le
  have htake : (es.take n).length = n := List.length_take_of_le hn
  have hnat : ∀ i < 2 ^ 64, (UInt64.ofNat i).toNat = i :=
    fun i hi => UInt64.toNat_ofNat_of_lt' hi
  constructor
  · rintro ⟨entries, hok⟩ k hk
    by_contra hcov
    have hseq : e.auditHead.1.toNat = n := by
      rw [hhead, chainHead_fst, htake, hnat n (by omega)]
    have hbelow : Below e.store.view e.auditHead.1.toNat := by
      intro key hp hkey
      obtain ⟨i, hi, rfl⟩ := h.only key hp hkey
      have := h.lt i hi
      exact ⟨_, rfl, by rw [hseq, hnat i (by omega)]; exact this⟩
    have hmissing : e.store.view[auditKey (UInt64.ofNat k)]? = none := by
      by_contra hkey
      obtain ⟨i, hi, heq⟩ := h.only _ (auditPrefix_auditKey _) hkey
      have hi' := h.lt i hi
      obtain rfl := ofNat_inj (by omega) (by omega) (auditKey_injective heq)
      exact hcov hi
    obtain ⟨err, herr⟩ := auditVerify_error hbelow hmissing
      (by rw [hseq, hnat k (by omega)]; exact hk)
    rw [hok] at herr
    cases herr
  · intro hfull
    refine ⟨es.take n, auditVerify_eq ⟨?_, by omega, ⟨?_, ?_⟩, hhead ▸ h.head⟩ hhead⟩
    · intro pre e hp
      exact hlinked pre e (hp.trans (List.take_prefix _ _))
    · intro i e he
      have hi := (List.getElem?_eq_some_iff.mp he).1
      rw [List.getElem?_take_of_lt (by omega)] at he
      exact h.stored i e (hfull i (by omega)) he
    · intro key hp hkey
      obtain ⟨i, hi, rfl⟩ := h.only key hp hkey
      exact ⟨i, by rw [htake]; exact h.lt i hi, rfl⟩

namespace Session

/-- The log of the session is that of a new database, followed by records that carry the chain; an
open transaction has buffered the rest of it. -/
structure Logged (first : List Batch) (s : Session C) (recs : List Batch)
    (es new : List AuditEntry) : Prop where
  isLocal : s.engine.isLocal = true
  intact : Intact s.engine.store.backend (first ++ recs)
  recorded : Recorded C s.engine.master recs es
  linked : Linked C (es ++ new)
  bound : (es ++ new).length < 2 ^ 64
  head : s.engine.auditHead = chainHead C (es ++ new)
  idle : s.engine.store.overlay = none → new = []
  buffered : ∀ o, s.engine.store.overlay = some o →
    Adds C s.engine.master o es new ∧ (new = [] → o = ∅) ∧
      s.engine.txnAuditHead = some (chainHead C es)

/-- A step leaves the records as they are or adds one. -/
def OneMore (recs recs' : List Batch) : Prop := recs' = recs ∨ ∃ b, recs' = recs ++ [b]

/-- The step is not a rotation. -/
def KeepsKey (a : Step C) : Prop := ∀ env newPassphrase kdf, a ≠ .rotate env newPassphrase kdf

section

variable {first recs : List Batch} {es new : List AuditEntry} {s : Session C}

/-- The entry of a statement continues the chain. -/
theorem Logged.entry (h : Logged first s recs es new) (env : Env C) (plan : Plan C) :
    (s.engine.planEntry env plan).seq = (chainHead C (es ++ new)).1 ∧
      (s.engine.planEntry env plan).prevRoot = (chainHead C (es ++ new)).2 := by
  rw [← h.head]
  exact ⟨rfl, rfl⟩

theorem Logged.applied (h : Logged first s recs es new) {env : Env C} {st : Statement}
    (hseq : HasSeq s (.statement env st)) (hclean : Clean .faultless s (.statement env st))
    {q : Read (Plan C)} {plan : Plan C} (hp : program C s.engine.master st = .mutate q)
    (hq : q.run s.engine.store.reader = .ok plan) (hw : plan.writes ≠ []) (t : List QueryNote) :
    ∃ recs' es' new', Logged first ⟨{ s.engine with
      store := (s.engine.store.commit (s.engine.auditedBatch env plan) env.io).2
      auditHead := ((s.engine.planEntry env plan).seq + 1, C.entryRoot (s.engine.planEntry env plan))
      telemetry := t }, s.passphrase⟩ recs' es' new' ∧ OneMore recs recs' := by
  obtain ⟨hentry, hroot⟩ := h.entry env plan
  have hio := hclean.2 trivial
  have hlen := length_lt_of_hasSeq h.bound h.head hseq
  have hwrites : DataWrites plan.writes := by
    rw [Store.reader_eq] at hq
    exact program_dataKeys hp _ (lawful_reader _) _ hq
  have hadds : Adds C s.engine.master (written (s.engine.auditedBatch env plan)) (es ++ new)
      [s.engine.planEntry env plan] := adds_audited hwrites _ _ hentry
  have hhead : ((s.engine.planEntry env plan).seq + 1, C.entryRoot (s.engine.planEntry env plan)) =
      chainHead C (es ++ new ++ [s.engine.planEntry env plan]) := by
    rw [chainHead_append, hentry]
  have hlinked := h.linked.append hentry hroot
  rcases Option.eq_none_or_eq_some s.engine.store.overlay with ho | ⟨o, ho⟩
  · obtain rfl := h.idle ho
    obtain ⟨hst, hbackend⟩ := Store.commit_of_none ho (s.engine.auditedBatch env plan) env.io
    have hfits := (hclean.1 trivial).2
    rw [records_applied hp hq hw ho, List.forall_mem_singleton] at hfits
    rw [List.append_nil] at hlinked hhead hlen hadds
    refine ⟨recs ++ [s.engine.auditedBatch env plan], es ++ [s.engine.planEntry env plan], [],
      ⟨h.isLocal, ?_, h.recorded.snoc (by simp) hadds, ?_, ?_, ?_, fun _ => rfl, fun o ho' => ?_⟩,
      .inr ⟨_, rfl⟩⟩
    · rw [hbackend, hio, ← List.append_assoc]
      exact h.intact.write_ok (w := .commit _) (auditedBatch_ne_nil _ _ _) hfits
    · rwa [List.append_nil]
    · simpa using hlen
    · rw [List.append_nil]
      exact hhead
    · rw [hst] at ho'
      cases ho'
  · have hstore := Store.commit_of_overlay ho (s.engine.auditedBatch env plan) env.io
    obtain ⟨hbuf, -, htxn⟩ := h.buffered o ho
    refine ⟨recs, es, new ++ [s.engine.planEntry env plan], ⟨h.isLocal, ?_, h.recorded, ?_, ?_, ?_,
      ?_, ?_⟩, .inl rfl⟩
    · rw [hstore]
      exact h.intact
    · rwa [← List.append_assoc]
    · simpa [Nat.add_assoc] using hlen
    · rw [← List.append_assoc]
      exact hhead
    · intro ho'
      rw [hstore] at ho'
      cases ho'
    · intro o' ho'
      rw [hstore] at ho'
      obtain rfl := Option.some.inj ho'
      exact ⟨hbuf.stage hadds h.bound, by simp, htxn⟩

theorem Logged.committed (h : Logged first s recs es new) {env : Env C}
    (hclean : Clean .faultless s (.statement env .commit)) {o : Overlay}
    (ho : s.engine.store.overlay = some o) :
    ∃ recs' es' new', Logged first ⟨{ s.engine with
      store := (s.engine.store.commitTransaction env.io).2
      txnAuditHead := none }, s.passphrase⟩ recs' es' new' ∧ OneMore recs recs' := by
  have hio := hclean.2 trivial
  obtain ⟨hbuf, hempty, -⟩ := h.buffered o ho
  have hbackend := Store.commitTransaction_backend ho env.io
  have hst : (s.engine.store.commitTransaction env.io).2.overlay = none := by
    rw [hio]
    exact (Store.map_commitTransaction (Store.commitTransaction_ok _)).1
  by_cases hnew : new = []
  · -- nothing was buffered, nothing is written
    subst hnew
    obtain rfl := hempty rfl
    refine ⟨recs, es, [], ⟨h.isLocal, ?_, h.recorded, h.linked, h.bound, h.head, fun _ => rfl,
      fun o ho' => ?_⟩, .inl rfl⟩
    · rw [hbackend, Storage.write_eq, if_pos (by simp [Storage.Write.batch])]
      exact h.intact
    · rw [hst] at ho'
      cases ho'
  · have hne : o.toList.map pending ≠ [] := by
      intro hnil
      obtain ⟨nonce, hs⟩ := hbuf.head hnew
      have hw := congrArg (fun o : Overlay => o[auditHeadKey]?) (written_pending o)
      simp [hnil, written, hs] at hw
    have hfits : Fits (o.toList.map pending) := (hclean.1 trivial).2 _ (by simp [records, program, ho])
    refine ⟨recs ++ [o.toList.map pending], es ++ new, [], ⟨h.isLocal, ?_,
      h.recorded.snoc hnew (by rwa [written_pending]), ?_, ?_, ?_, fun _ => rfl, fun o ho' => ?_⟩,
      .inr ⟨_, rfl⟩⟩
    · rw [hbackend, hio, ← List.append_assoc]
      exact h.intact.write_ok (w := .commit _) hne hfits
    · rw [List.append_nil]
      exact h.linked
    · rw [List.append_nil]
      exact h.bound
    · rw [List.append_nil]
      exact h.head
    · rw [hst] at ho'
      cases ho'

/-- A statement keeps the log in order. -/
theorem Logged.statement (h : Logged first s recs es new) {env : Env C} {st : Statement}
    (hseq : HasSeq s (.statement env st)) (hclean : Clean .faultless s (.statement env st))
    {r : Except EngineError QueryResult} {e : Engine C} (hx : Engine.Executes s.engine env st r e) :
    ∃ recs' es' new', Logged first ⟨e, s.passphrase⟩ recs' es' new' ∧ OneMore recs recs' := by
  have hio : env.io = .ok := hclean.2 trivial
  cases hx with
  | quiet _ t _ _ _ =>
    exact ⟨recs, es, new, ⟨h.isLocal, h.intact, h.recorded, h.linked, h.bound, h.head, h.idle,
      h.buffered⟩, .inl rfl⟩
  | applied q plan t hp hq hw hc => exact h.applied hseq hclean hp hq hw t
  | refused q plan t err hp hq hw hc =>
    obtain ⟨ho, -, -⟩ := Store.commit_error hc
    rw [hio, Store.commit, ho] at hc
    simp only [Store.backendCommit_eq, (Store.map_write_ok _ _).1] at hc
    cases hc
  | began hst ho =>
    obtain rfl := h.idle ho
    refine ⟨recs, es, [], ⟨h.isLocal, h.intact, h.recorded, h.linked, h.bound, h.head,
      fun ho' => absurd ho' (Option.some_ne_none _), fun o ho' => ?_⟩, .inl rfl⟩
    obtain rfl : ∅ = o := Option.some.inj ho'
    refine ⟨adds_empty _ _, fun _ => rfl, ?_⟩
    have hhead := h.head
    rw [List.append_nil] at hhead
    rw [hhead]
  | committed o hst ho hc =>
    subst hst
    exact h.committed hclean ho
  | commitFailed o err hst ho hc =>
    rw [hio, Store.commitTransaction_ok] at hc
    cases hc
  | rolledBack o hst ho =>
    obtain ⟨-, -, htxn⟩ := h.buffered o ho
    refine ⟨recs, es, [], ⟨h.isLocal, h.intact, h.recorded, ?_, ?_, ?_, fun _ => rfl,
      fun o ho' => absurd ho'.symm (Option.some_ne_none o)⟩, .inl rfl⟩
    · rw [List.append_nil]
      intro pre e hp
      exact h.linked pre e (hp.trans (List.prefix_append _ _))
    · have := h.bound
      rw [List.length_append] at this ⊢
      simp only [List.length_nil]
      omega
    · simp only [htxn, Option.getD_some, List.append_nil]

end

theorem writable_freshBatches (passphrase : String) (kdf : KdfParams) (env : Engine.OpenEnv C) :
    Writable (Engine.freshBatches passphrase kdf env) := by
  intro b hb
  refine ⟨?_, fits_freshBatches passphrase kdf env b hb⟩
  rintro rfl
  simp [Engine.freshBatches] at hb

/-- A log that leaves the parameters and the canary as they were opens under the passphrase. -/
theorem openLocal_log {passphrase : String} {kdf : KdfParams} (hvalid : kdf.Valid)
    {env : Engine.OpenEnv C} {log : List Batch}
    (hw : Writable (Engine.freshBatches passphrase kdf env ++ log))
    (hparams : (applyLog ∅ (Engine.freshBatches passphrase kdf env ++ log))[keyparamsKey]? =
      (applyLog ∅ (Engine.freshBatches passphrase kdf env))[keyparamsKey]?)
    (hcanary : (applyLog ∅ (Engine.freshBatches passphrase kdf env ++ log))[canaryKey]? =
      (applyLog ∅ (Engine.freshBatches passphrase kdf env))[canaryKey]?)
    {head : AuditHead} (hhead : Engine.HeadIs C
      (applyLog ∅ (Engine.freshBatches passphrase kdf env ++ log))
      (C.derive kdf passphrase env.salt.1) head) (kdf' : KdfParams) (env' : Engine.OpenEnv C) :
    (Engine.openLocal (encodeLog (Engine.freshBatches passphrase kdf env ++ log)) passphrase kdf'
      env').1 = .ok (Engine.opened
        ⟨⟨applyLog ∅ (Engine.freshBatches passphrase kdf env ++ log),
          encodeLog (Engine.freshBatches passphrase kdf env ++ log)⟩, none⟩
        (C.derive kdf passphrase env.salt.1) head) := by
  have hintact : Intact ⟨applyLog ∅ (Engine.freshBatches passphrase kdf env ++ log),
      encodeLog (Engine.freshBatches passphrase kdf env ++ log)⟩ _ := ⟨rfl, rfl, hw⟩
  have hopen := hintact.openLog_wal
  have hopens : Engine.Opens (applyLog ∅ (Engine.freshBatches passphrase kdf env ++ log))
      passphrase (C.derive kdf passphrase env.salt.1) := by
    refine Engine.opens_fresh hvalid env ?_ ?_
    · rw [hparams, getElem?_freshBatches, if_neg (by decide), if_pos rfl]
    · rw [hcanary, getElem?_freshBatches, if_pos rfl]
  rw [Engine.openLocal, hopen]
  exact Engine.openStore_eq hopens hhead kdf' env'

/-- **Opening what is left of a log.** -/
theorem openLocal_kept {passphrase : String} {kdf : KdfParams} (hvalid : kdf.Valid)
    {env : Engine.OpenEnv C} {recs kept : List Batch} {es : List AuditEntry}
    (h : Recorded C (C.derive kdf passphrase env.salt.1) recs es) (hlen : es.length < 2 ^ 64)
    (hw : Writable (Engine.freshBatches passphrase kdf env ++ recs)) (hk : kept.Sublist recs) :
    ∃ cov n, Covers C (C.derive kdf passphrase env.salt.1)
        (applyLog ∅ (Engine.freshBatches passphrase kdf env))
        (applyLog ∅ (Engine.freshBatches passphrase kdf env ++ kept)) es cov n ∧
      ((∀ i < n, cov i) ↔ kept <+: recs) ∧ ((∀ i < es.length, cov i) ↔ kept = recs) ∧
      ∀ kdf' env', (Engine.openLocal (encodeLog (Engine.freshBatches passphrase kdf env ++ kept))
        passphrase kdf' env').1 = .ok (Engine.opened
          ⟨⟨applyLog ∅ (Engine.freshBatches passphrase kdf env ++ kept),
            encodeLog (Engine.freshBatches passphrase kdf env ++ kept)⟩, none⟩
          (C.derive kdf passphrase env.salt.1) (chainHead C (es.take n))) := by
  obtain ⟨cov, n, hcov, hpre, hall⟩ := h.covers hlen
    (fun key hp => freshBatches_audit passphrase kdf env (.inl hp))
    (freshBatches_audit passphrase kdf env (.inr rfl)) hk
  rw [← Storage.applyLog_append] at hcov
  refine ⟨cov, n, hcov, hpre, hall, ?_⟩
  have hw' : Writable (Engine.freshBatches passphrase kdf env ++ kept) :=
    fun b hb => hw b (((List.Sublist.refl _).append hk).subset hb)
  exact openLocal_log hvalid hw' hcov.params hcov.canary hcov.head

section

variable {recs : List Batch} {es new : List AuditEntry} {s : Session C} {kdf : KdfParams}
  {env : Engine.OpenEnv C}

/-- Reopening drops what a transaction has buffered. -/
theorem Logged.reopen (h : Logged (Engine.freshBatches s.passphrase kdf env) s recs es new)
    (hvalid : kdf.Valid) (hmk : s.engine.master = C.derive kdf s.passphrase env.salt.1)
    (env' : Engine.OpenEnv C) (kdf' : KdfParams) :
    Logged (Engine.freshBatches s.passphrase kdf env) (s.step (.reopen env' kdf')) recs es [] ∧
      (s.step (.reopen env' kdf')).engine.master = s.engine.master := by
  have hlen : es.length < 2 ^ 64 := by
    have := h.bound
    rw [List.length_append] at this
    omega
  obtain ⟨cov, n, hcov, -, hall, hopen⟩ := openLocal_kept hvalid (hmk ▸ h.recorded) hlen
    h.intact.writable (List.Sublist.refl recs)
  have hn : n = es.length := by
    refine le_antisymm hcov.le ?_
    by_contra hlt
    have := hcov.lt n (hall.mpr rfl n (by omega))
    omega
  rw [Session.step, h.intact.wal_eq, hopen]
  rw [hn, List.take_length]
  refine ⟨⟨rfl, ⟨rfl, rfl, h.intact.writable⟩, hmk ▸ h.recorded, ?_, ?_, ?_, fun _ => rfl,
    fun o ho' => absurd ho'.symm (Option.some_ne_none o)⟩, hmk.symm⟩
  · rw [List.append_nil]
    intro pre e hp
    exact h.linked pre e (hp.trans (List.prefix_append _ _))
  · rwa [List.append_nil]
  · rw [List.append_nil]
    rfl

/-- Every step that keeps the key keeps the log in order. -/
theorem Logged.step (h : Logged (Engine.freshBatches s.passphrase kdf env) s recs es new)
    (hvalid : kdf.Valid) (hmk : s.engine.master = C.derive kdf s.passphrase env.salt.1)
    {a : Step C} (ha : (HasSeq s a ∧ Clean .faultless s a) ∧ KeepsKey a) :
    (s.step a).passphrase = s.passphrase ∧ (s.step a).engine.master = s.engine.master ∧
      ∃ recs' es' new', Logged (Engine.freshBatches s.passphrase kdf env) (s.step a) recs' es' new' ∧
        OneMore recs recs' := by
  obtain ⟨⟨hseq, hclean⟩, hkeep⟩ := ha
  cases a with
  | statement env' st =>
    have hspec := s.engine.executeStatement_spec env' st
    refine ⟨rfl, ?_, h.statement hseq hclean hspec⟩
    change (s.engine.executeStatement env' st).2.master = _
    generalize (s.engine.executeStatement env' st).1 = r at hspec
    generalize (s.engine.executeStatement env' st).2 = e at hspec
    cases hspec <;> rfl
  | rotate env' newPassphrase kdf' => exact absurd rfl (hkeep env' newPassphrase kdf')
  | reopen env' kdf' =>
    obtain ⟨hlog, hmk'⟩ := h.reopen hvalid hmk env' kdf'
    refine ⟨?_, hmk', recs, es, [], hlog, .inl rfl⟩
    rw [Session.step]
    split <;> rfl

/-- **The log of every run without a rotation.** What its first records leave is what the database
held at some point of the run. -/
theorem logged_run (hs : s.Fresh) {steps : List (Step C)}
    (hrun : Along step (fun s a => (HasSeq s a ∧ Clean .faultless s a) ∧ KeepsKey a) s steps) :
    ∃ (kdf : KdfParams) (env : Engine.OpenEnv C), kdf.Valid ∧ ∃ recs es new,
      Logged (Engine.freshBatches s.passphrase kdf env) (steps.foldl step s) recs es new ∧
      (steps.foldl step s).engine.master = C.derive kdf s.passphrase env.salt.1 ∧
      ∀ j ≤ recs.length, ∃ i ≤ steps.length,
        ((steps.take i).foldl step s).engine.store.backend.map =
          applyLog ∅ (Engine.freshBatches s.passphrase kdf env ++ recs.take j) := by
  obtain ⟨passphrase, kdf, env, hvalid, rfl⟩ := hs.eq_create
  refine ⟨kdf, env, hvalid, ?_⟩
  have hgoal : (steps.foldl step (create passphrase kdf env)).passphrase = passphrase ∧
      ∃ recs es new, Logged (Engine.freshBatches passphrase kdf env)
          (steps.foldl step (create passphrase kdf env)) recs es new ∧
        (steps.foldl step (create passphrase kdf env)).engine.master =
          C.derive kdf passphrase env.salt.1 ∧
        ∀ j ≤ recs.length, ∃ i ≤ steps.length,
          ((steps.take i).foldl step (create passphrase kdf env)).engine.store.backend.map =
            applyLog ∅ (Engine.freshBatches passphrase kdf env ++ recs.take j) := by
    induction steps using List.reverseRecOn with
    | nil =>
      have hintact := Engine.intact_writeAll Storage.intact_empty
        (writable_freshBatches passphrase kdf env)
      refine ⟨rfl, [], [], [], ⟨rfl, ?_, .nil, linked_nil, by simp, rfl, fun _ => rfl, nofun⟩, rfl,
        fun j _ => ⟨0, le_refl _, ?_⟩⟩
      · rw [List.append_nil]
        exact hintact
      · simp only [List.take_nil, List.append_nil]
        exact hintact.map_eq
    | append_singleton steps a ih =>
      obtain ⟨hrun, ha⟩ := along_concat.mp hrun
      obtain ⟨hpass, recs, es, new, hlog, hmk, hpast⟩ := ih hrun
      rw [List.foldl_append, List.foldl_cons, List.foldl_nil]
      generalize hs' : steps.foldl step (create passphrase kdf env) = s' at *
      subst hpass
      obtain ⟨hpass', hmk', recs', es', new', hlog', hmore⟩ := hlog.step hvalid hmk ha
      refine ⟨hpass', recs', es', new', hlog', hmk'.trans hmk, fun j hj => ?_⟩
      by_cases hlast : j = recs'.length
      · -- all records: the state after the step
        refine ⟨(steps ++ [a]).length, le_refl _, ?_⟩
        rw [List.take_length, List.foldl_append, hs', hlast, List.take_length]
        exact hlog'.intact.map_eq
      · obtain ⟨hle, htake⟩ : j ≤ recs.length ∧ recs'.take j = recs.take j := by
          rcases hmore with rfl | ⟨b, rfl⟩
          · exact ⟨hj, rfl⟩
          · rw [List.length_append, List.length_singleton] at hj hlast
            exact ⟨by omega, List.take_append_of_le_length (by omega)⟩
        obtain ⟨i, hi, hmap⟩ := hpast j hle
        refine ⟨i, by rw [List.length_append]; omega, ?_⟩
        rw [htake, List.take_append_of_le_length hi]
        exact hmap
  exact hgoal.2

/-- **Deleted history is detected.** Take the log of any run without a rotation, in which every
record fits and the sequence numbers do not run out, and keep any of the records that follow the
parameters and the canary. Opening what is left and verifying the chain succeeds exactly when a
prefix was kept. -/
theorem auditVerify_kept_iff_prefix (hs : s.Fresh) (steps : List (Step C))
    (hrun : Along step (fun s a => (HasSeq s a ∧ Clean .faultless s a) ∧ KeepsKey a) s steps) :
    ∃ params canary recs, Writable ([.put keyparamsKey params] :: [.put canaryKey canary] :: recs) ∧
      (steps.foldl step s).engine.store.backend.wal =
        encodeLog ([.put keyparamsKey params] :: [.put canaryKey canary] :: recs) ∧
      ∀ kept, kept.Sublist recs → ∀ kdf env,
        (∃ (e : Engine C) (entries : List AuditEntry), (Engine.openLocal
            (encodeLog ([.put keyparamsKey params] :: [.put canaryKey canary] :: kept))
            s.passphrase kdf env).1 = .ok e ∧ e.auditVerify = .ok entries) ↔ kept <+: recs := by
  obtain ⟨kdf, env, hvalid, recs, es, new, hlog, hmk, -⟩ := logged_run hs hrun
  refine ⟨_, _, recs, hlog.intact.writable, hlog.intact.wal_eq, fun kept hk kdf' env' => ?_⟩
  have hlen : es.length < 2 ^ 64 := by
    have := hlog.bound
    rw [List.length_append] at this
    omega
  have hlinked : Linked C es := fun pre e hp => hlog.linked pre e (hp.trans (List.prefix_append _ _))
  obtain ⟨cov, n, hcov, hpre, -, hopen⟩ := openLocal_kept hvalid (hmk ▸ hlog.recorded) hlen
    hlog.intact.writable hk
  have hiff := Covers.auditVerify_iff (e := Engine.opened
    ⟨⟨applyLog ∅ (Engine.freshBatches s.passphrase kdf env ++ kept),
      encodeLog (Engine.freshBatches s.passphrase kdf env ++ kept)⟩, none⟩
    (C.derive kdf s.passphrase env.salt.1) (chainHead C (es.take n))) hcov hlinked hlen rfl
  rw [← hpre, ← hiff]
  constructor
  · rintro ⟨e, entries, he, hv⟩
    obtain rfl := Except.ok.inj ((hopen kdf' env').symm.trans he)
    exact ⟨entries, hv⟩
  · rintro ⟨entries, hv⟩
    exact ⟨_, entries, hopen kdf' env', hv⟩

end

theorem wal_write_ok (s : Storage) {b : Batch} (hb : b ≠ []) :
    (s.write (.commit b) .ok).2.wal = s.wal ++ encodeLog [b] := by
  have hb' : (Storage.Write.commit b).batch ≠ [] := hb
  rw [Storage.write_eq, if_neg hb', if_pos rfl, Storage.encodeLog_cons, Storage.encodeLog_nil,
    List.append_nil]
  rfl

/-- The statement comes down to committing the plan. -/
def HasPlan (e : Engine C) (st : Statement) (plan : Plan C) : Prop :=
  plan.writes ≠ [] ∧ ∃ q, program C e.master st = .mutate q ∧ q.run e.store.reader = .ok plan

/-- A statement outside a transaction appends its record. -/
theorem HasPlan.wal {e : Engine C} {env : Env C} (hio : env.io = .ok)
    (ho : e.store.overlay = none) {st : Statement} {plan : Plan C} (h : HasPlan e st plan) :
    (e.executeStatement env st).2.store.overlay = none ∧
      (e.executeStatement env st).2.store.backend.wal =
        e.store.backend.wal ++ encodeLog [e.auditedBatch env plan] := by
  obtain ⟨hw, q, hp, hq⟩ := h
  obtain ⟨-, t, he⟩ := executeStatement_idle hio ho hp hq hw
  rw [he]
  exact ⟨rfl, wal_write_ok _ (auditedBatch_ne_nil _ _ _)⟩

/-- The log after three statements. -/
theorem wal_foldl_statements {s : Session C} {env : Env C} (hio : env.io = .ok)
    (ho : s.engine.store.overlay = none) {a b c : Statement} {p q r : Plan C} {e₁ e₂ : Engine C}
    (he₁ : (s.engine.executeStatement env a).2 = e₁) (he₂ : (e₁.executeStatement env b).2 = e₂)
    (ha : HasPlan s.engine a p) (hb : HasPlan e₁ b q) (hc : HasPlan e₂ c r) :
    ([.statement env a, .statement env b, .statement env c].foldl step s).engine.store.backend.wal =
      s.engine.store.backend.wal ++ encodeLog [s.engine.auditedBatch env p, e₁.auditedBatch env q,
        e₂.auditedBatch env r] := by
  subst he₂ he₁
  obtain ⟨ho₁, hwal₁⟩ := ha.wal hio ho
  obtain ⟨ho₂, hwal₂⟩ := hb.wal hio ho₁
  obtain ⟨-, hwal₃⟩ := hc.wal hio ho₂
  refine hwal₃.trans ?_
  rw [hwal₂, hwal₁]
  simp [Storage.encodeLog_cons]

/-- The only key of the tables that creating a table writes is that of its schema. -/
theorem key_auditedBatch_tablePlan {e : Engine C} {env : Env C} {name : String} {op : Op}
    (hop : op ∈ e.auditedBatch env (tablePlan e.master name)) (hdata : DataKey op.key) :
    op.key = C.catalogKey e.master name := by
  rcases List.mem_append.mp hop with hop | hop
  · obtain ⟨w, hw, hkey⟩ := mem_sealWrites hop
    obtain rfl := List.mem_singleton.mp hw
    exact hkey
  · obtain ⟨w, hw, hkey⟩ := mem_sealWrites hop
    rw [hkey] at hdata
    simp only [Crypto.auditWrites, List.mem_cons, List.not_mem_nil, or_false] at hw
    rcases hw with rfl | rfl
    · exact absurd hdata (not_dataKey_of_auditPrefix (auditPrefix_auditKey _))
    · exact absurd hdata not_dataKey_auditHeadKey

/-! Three tables are created. -/

def tableSteps : List (Step Crypto.clear) :=
  [.statement clearEnv (tableStatement "t"), .statement clearEnv (tableStatement "u"),
    .statement clearEnv (tableStatement "v")]

/-- The database after the first statement. -/
def firstEngine : Engine Crypto.clear :=
  (clearSession.engine.executeStatement clearEnv (tableStatement "t")).2

/-- The database after the second statement. -/
def secondEngine : Engine Crypto.clear :=
  (firstEngine.executeStatement clearEnv (tableStatement "u")).2

/-- The records of the statements. -/
def tableRecords : List Batch :=
  [clearSession.engine.auditedBatch clearEnv (tablePlan () "t"),
    firstEngine.auditedBatch clearEnv (tablePlan () "u"),
    secondEngine.auditedBatch clearEnv (tablePlan () "v")]

theorem wal_tableSteps : (tableSteps.foldl step clearSession).engine.store.backend.wal =
    encodeLog (Engine.freshBatches "passphrase" .recommended clearOpenEnv ++ tableRecords) := by
  have hfirst : clearSession.engine.store.backend.wal =
      encodeLog (Engine.freshBatches "passphrase" .recommended clearOpenEnv) :=
    (Engine.intact_writeAll Storage.intact_empty (writable_freshBatches _ _ _)).wal_eq
  have hp (e : Engine Crypto.clear) (name : String)
      (hnew : e.store.view[Crypto.clear.catalogKey () name]? = none) :
      HasPlan e (tableStatement name) (tablePlan () name) :=
    ⟨by simp [tablePlan], run_tableStatement hnew⟩
  rw [Storage.encodeLog_append, ← hfirst]
  exact wal_foldl_statements rfl rfl rfl rfl (hp _ _ (getElem?_create_catalog _ _ _ _))
    (hp firstEngine _ (by decide +kernel)) (hp secondEngine _ (by decide +kernel))

theorem writable_tableRecords : Writable tableRecords := by
  intro b hb
  simp only [tableRecords, List.mem_cons, List.not_mem_nil, or_false] at hb
  rcases hb with rfl | rfl | rfl <;> exact ⟨auditedBatch_ne_nil _ _ _, by decide +kernel⟩

/-- The log holds the two first records and these, however it is taken apart. -/
theorem eq_tableRecords {params canary : Bytes} {recs : List Batch}
    (hw : Writable ([.put keyparamsKey params] :: [.put canaryKey canary] :: recs))
    (hwal : (tableSteps.foldl step clearSession).engine.store.backend.wal =
      encodeLog ([.put keyparamsKey params] :: [.put canaryKey canary] :: recs)) :
    [[.put keyparamsKey params], [.put canaryKey canary]] =
        Engine.freshBatches "passphrase" .recommended clearOpenEnv ∧ recs = tableRecords := by
  have hlog : Writable (Engine.freshBatches "passphrase" .recommended clearOpenEnv ++
      tableRecords) := by
    intro b hb
    rcases List.mem_append.mp hb with hb | hb
    · exact writable_freshBatches _ _ _ b hb
    · exact writable_tableRecords b hb
  exact List.append_inj (Storage.encodeLog_injective hw hlog (hwal.symm.trans wal_tableSteps)) rfl

theorem clean_tableSteps :
    Along step (fun s a => (HasSeq s a ∧ Clean .faultless s a) ∧ KeepsKey a) clearSession
      tableSteps := by
  refine ⟨⟨⟨?_, clean_statement rfl ?_⟩, nofun⟩, ⟨⟨?_, clean_statement rfl ?_⟩, nofun⟩,
    ⟨⟨?_, clean_statement rfl ?_⟩, nofun⟩, trivial⟩
  all_goals decide +kernel

/-- Without the first of the records the log does not verify; without the last one it does. -/
theorem auditVerify_kept_iff_prefix_tableSteps :
    ∃ (params canary : Bytes) (r₁ r₂ r₃ : Batch),
      (tableSteps.foldl step clearSession).engine.store.backend.wal =
        encodeLog ([.put keyparamsKey params] :: [.put canaryKey canary] :: [r₁, r₂, r₃]) ∧
      (¬ ∃ (e : Engine Crypto.clear) (entries : List AuditEntry), (Engine.openLocal
        (encodeLog ([.put keyparamsKey params] :: [.put canaryKey canary] :: [r₂, r₃])) "passphrase"
        .recommended clearOpenEnv).1 = .ok e ∧ e.auditVerify = .ok entries) ∧
      ∃ (e : Engine Crypto.clear) (entries : List AuditEntry), (Engine.openLocal
        (encodeLog ([.put keyparamsKey params] :: [.put canaryKey canary] :: [r₁, r₂])) "passphrase"
        .recommended clearOpenEnv).1 = .ok e ∧ e.auditVerify = .ok entries := by
  obtain ⟨params, canary, recs, hw, hwal, hkept⟩ :=
    auditVerify_kept_iff_prefix fresh_clearSession tableSteps clean_tableSteps
  obtain ⟨-, rfl⟩ := eq_tableRecords hw hwal
  have hne : firstEngine.auditedBatch clearEnv (tablePlan () "u") ≠
      clearSession.engine.auditedBatch clearEnv (tablePlan () "t") := by decide +kernel
  refine ⟨params, canary, _, _, _, hwal, fun h => ?_, ?_⟩
  · have hprefix := (hkept [_, _] (List.sublist_cons_self _ _) _ _).mp h
    exact hne (List.cons_prefix_cons.mp hprefix).1
  · have hprefix : tableRecords.take 2 <+: tableRecords := List.take_prefix _ _
    exact (hkept _ hprefix.sublist _ _).mpr hprefix

/-! A record of exactly `2 ^ 32` bytes is not read back, so that what is left may verify without
being a prefix. -/

theorem catalogKey_longName_ne (n : ℕ) :
    Crypto.clear.catalogKey () (longName (n + 1)) ≠ Crypto.clear.catalogKey () "t" := by
  intro h
  have hhead := congrArg List.head? (List.append_cancel_left h)
  have ht : utf8 "t" = [116] := by decide
  have hname : utf8 (longName (n + 1)) = 97 :: List.replicate n 97 := utf8_replicate (n + 1)
  simp only [Crypto.tableTag, Crypto.clear, tableTagLen, fitTo, hname, ht, List.cons_append,
    List.take_succ_cons, List.head?_cons] at hhead
  cases hhead

/-- A new database followed by a record that is not read back opens as a new database. -/
theorem openLocal_lost (passphrase : String) {kdf : KdfParams} (hvalid : kdf.Valid)
    (env : Engine.OpenEnv C) {b : Batch} (hb : b ≠ [])
    (hlen : (Storage.payloadOf b).length = 2 ^ 32) (kdf' : KdfParams) (env' : Engine.OpenEnv C) :
    (Engine.openLocal (encodeLog (Engine.freshBatches passphrase kdf env ++ [b])) passphrase kdf'
      env').1 = .ok (Engine.create passphrase kdf env) := by
  have hintact := Engine.intact_writeAll Storage.intact_empty
    (writable_freshBatches passphrase kdf env)
  have hopen := hintact.openLog_write_lost hb hlen
  rw [wal_write_ok _ hb, hintact.wal_eq, ← Storage.encodeLog_append] at hopen
  have hget := getElem?_freshBatches passphrase kdf env
  rw [← Engine.map_writeAll ⟨∅, []⟩] at hget
  rw [Engine.openLocal]
  have hopens : Engine.Opens (Engine.writeAll ⟨∅, []⟩ (Engine.freshBatches passphrase kdf env)).map
      passphrase (C.derive kdf passphrase env.salt.1) := by
    refine Engine.opens_fresh hvalid env ?_ ?_
    · rw [hget, if_neg (by decide), if_pos rfl]
    · rw [hget, if_pos rfl]
  rw [List.nil_append] at hopen
  rw [hopen]
  exact Engine.openStore_eq hopens
    (.inl ⟨by rw [hget, if_neg (by decide), if_neg (by decide)], rfl⟩) kdf' env'

/-- Creating a table leaves the names of other tables free. -/
theorem getElem?_auditedBatch_tablePlan (m : ByteMap) (e : Engine C) (env : Env C)
    {name name' : String} (hne : C.catalogKey e.master name' ≠ C.catalogKey e.master name) :
    (applyAll m (e.auditedBatch env (tablePlan e.master name)))[C.catalogKey e.master name']? =
      m[C.catalogKey e.master name']? := by
  have hdata : DataKey (C.catalogKey e.master name') := dataKey_catalogKey name'
  refine getElem?_applyAll_of_notMem _ _ _ fun op hop he => ?_
  exact hne (he.symm.trans (key_auditedBatch_tablePlan hop (he ▸ hdata)))

/-- Two tables are created, the second with so long a name that its record has exactly `2 ^ 32`
bytes. With the first record taken out the log opens as a new database, and verifies. -/
theorem not_detected_lost_record :
    ∃ (name : String) (steps : List (Step Crypto.clear)) (params canary : Bytes) (r₁ r₂ : Batch),
      steps = [.statement clearEnv (tableStatement "t"), .statement clearEnv (tableStatement name)] ∧
      name = longName (2 ^ 32 - 304) ∧ IsIdent name ∧ clearSession.Fresh ∧
      (∀ a ∈ steps, a.Succeeds) ∧
      (steps.foldl step clearSession).engine.store.backend.wal =
        encodeLog ([.put keyparamsKey params] :: [.put canaryKey canary] :: [r₁, r₂]) ∧
      [r₂].Sublist [r₁, r₂] ∧ ¬ [r₂] <+: [r₁, r₂] ∧
      ∃ (e : Engine Crypto.clear) (entries : List AuditEntry), (Engine.openLocal
        (encodeLog ([.put keyparamsKey params] :: [.put canaryKey canary] :: [r₂])) "passphrase"
        .recommended clearOpenEnv).1 = .ok e ∧ e.auditVerify = .ok entries := by
  let e₀ : Engine Crypto.clear := clearSession.engine
  let e₁ : Engine Crypto.clear := (e₀.executeStatement clearEnv (tableStatement "t")).2
  obtain ⟨name, hname⟩ : ∃ name, name = longName (2 ^ 32 - 304) := ⟨_, rfl⟩
  let r₁ := e₀.auditedBatch clearEnv (tablePlan e₀.master "t")
  let r₂ := e₁.auditedBatch clearEnv (tablePlan e₁.master name)
  have hnew₀ : ∀ name, e₀.store.view[Crypto.clear.catalogKey e₀.master name]? = none :=
    getElem?_create_catalog "passphrase" .recommended clearOpenEnv
  have hstore₁ : e₁.store = ⟨(e₀.store.backend.write (.commit r₁) .ok).2, none⟩ := by
    obtain ⟨-, t₁, he₁⟩ := executeStatement_table clearEnv rfl rfl (hnew₀ "t")
    exact congrArg Engine.store he₁
  have hnew₁ : e₁.store.view[Crypto.clear.catalogKey e₁.master name]? = none := by
    rw [Store.view_of_none (by rw [hstore₁]), hstore₁, (Store.map_write_ok _ _).2]
    refine (getElem?_auditedBatch_tablePlan _ e₀ clearEnv ?_).trans (hnew₀ name)
    rw [hname]
    exact catalogKey_longName_ne _
  have hstore₂ : ((clearSession.step (.statement clearEnv (tableStatement "t"))).step
      (.statement clearEnv (tableStatement name))).engine.store =
        ⟨(e₁.store.backend.write (.commit r₂) .ok).2, none⟩ := by
    obtain ⟨-, t₂, he₂⟩ := executeStatement_table clearEnv rfl (by rw [hstore₁]) hnew₁
    exact congrArg Engine.store he₂
  have hlen : (Storage.payloadOf r₂).length = 2 ^ 32 := by
    rw [length_payload_tablePlan, hname, length_utf8_longName]
    norm_num
  have hne : r₁ ≠ r₂ := by
    intro heq
    have hlen₁ : (Storage.payloadOf r₁).length = 304 + (utf8 "t").length :=
      length_payload_tablePlan e₀ clearEnv "t"
    rw [heq, hlen] at hlen₁
    revert hlen₁
    decide
  refine ⟨name, _, _, _, r₁, r₂, rfl, hname, hname ▸ isIdent_longName _, fresh_clearSession,
    by simp [Step.Succeeds, clearEnv], ?_, by simp, ?_,
    Engine.create "passphrase" .recommended clearOpenEnv, [],
    openLocal_lost "passphrase" (by decide) clearOpenEnv (auditedBatch_ne_nil _ _ _) hlen _ _,
    auditVerify_create _ _ _⟩
  · rw [List.foldl_cons, List.foldl_cons, List.foldl_nil, hstore₂,
      wal_write_ok _ (auditedBatch_ne_nil _ _ _), hstore₁, wal_write_ok _ (auditedBatch_ne_nil _ _ _)]
    have hwal : e₀.store.backend.wal =
        encodeLog (Engine.freshBatches "passphrase" .recommended clearOpenEnv) :=
      (Engine.intact_writeAll Storage.intact_empty (writable_freshBatches _ _ _)).wal_eq
    rw [hwal, ← Storage.encodeLog_append, ← Storage.encodeLog_append]
    rfl
  · intro hp
    exact hne (List.cons_prefix_cons.mp hp).1.symm

end Session

end Ciphra
