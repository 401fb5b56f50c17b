import Ciphra.Engine.Records

/-!
# Backups

A backup is the map a reader sees, written as a compacted log, one record for each key, in key
order (`backupTo`); restoring opens it like any other log and verifies the audit chain
(`restoreFrom`). A backup that was cut short opens as what its whole records hold: the head of the
chain, the canary, the catalog, the parameters, the sequences, the audit entries and only then the
rows and indexes. So the cut is noticed where it leaves the first record but loses the parameters
or an audit entry, and nowhere else: `restoreFrom_error_iff`.
-/

namespace Ciphra

open OrdMap
open Storage (Io Fits Intact Writable applyLog encodeLog wholeBatches snapshotBytes)

variable {C : Crypto}

namespace Engine

/-- A sealed snapshot of the database, as a complete file. -/
def backupTo (e : Engine C) : Bytes := snapshotBytes e.store.dump

/-- Restore a snapshot into a directory and open it. A directory that already holds a log is
refused. -/
def restoreFrom (existing : Option Bytes) (snapshot : Bytes) (passphrase : String) (env : OpenEnv C) :
    Except EngineError (Engine C) :=
  match existing with
  | some _ => .error .io
  | none => do
    let e ← (openLocal snapshot passphrase .recommended env).1
    let _ ← e.auditVerify
    pure e

end Engine

/-! ## Snapshots that are cut short -/

/-- The records of a snapshot. -/
def putRecords (pairs : List (Bytes × Bytes)) : List Batch := pairs.map fun e => [.put e.1 e.2]

/-- The `i`-th record of a snapshot lies wholly in its first `n` bytes. -/
def WholeIn (pairs : List (Bytes × Bytes)) (n i : ℕ) : Prop :=
  (snapshotBytes (pairs.take (i + 1))).length ≤ n

instance (pairs : List (Bytes × Bytes)) (n i : ℕ) : Decidable (WholeIn pairs n i) :=
  inferInstanceAs (Decidable (_ ≤ n))

/-- The pairs whose records lie wholly in the first `n` bytes. -/
def wholePairs (pairs : List (Bytes × Bytes)) (n : ℕ) : List (Bytes × Bytes) :=
  pairs.take (wholeBatches (putRecords pairs) n).length

theorem wholePairs_isPrefix (pairs : List (Bytes × Bytes)) (n : ℕ) : wholePairs pairs n <+: pairs :=
  List.take_prefix _ _

theorem getElem?_wholePairs {pairs : List (Bytes × Bytes)} {n i : ℕ}
    (hi : i < (wholePairs pairs n).length) : (wholePairs pairs n)[i]? = pairs[i]? := by
  rw [wholePairs, List.length_take] at hi
  rw [wholePairs, List.getElem?_take_of_lt (by omega)]

theorem putRecords_wholePairs (pairs : List (Bytes × Bytes)) (n : ℕ) :
    putRecords (wholePairs pairs n) = wholeBatches (putRecords pairs) n := by
  have hp := Storage.wholeBatches_isPrefix (putRecords pairs) n
  rw [wholePairs, putRecords, List.map_take]
  exact (List.prefix_iff_eq_take.mp hp).symm

/-- Which records are whole. -/
theorem lt_length_wholePairs {pairs : List (Bytes × Bytes)} {n i : ℕ} (hi : i < pairs.length) :
    i < (wholePairs pairs n).length ↔ WholeIn pairs n i := by
  have hlen : (wholePairs pairs n).length = (wholeBatches (putRecords pairs) n).length := by
    rw [← putRecords_wholePairs, putRecords, List.length_map]
  rw [WholeIn, Storage.snapshotBytes_eq]
  constructor
  · intro hlt
    have hp : putRecords (pairs.take (i + 1)) <+: wholeBatches (putRecords pairs) n := by
      rw [← putRecords_wholePairs, putRecords, putRecords]
      refine List.IsPrefix.map _ ?_
      rw [wholePairs, List.prefix_take_iff]
      refine ⟨List.take_prefix _ _, ?_⟩
      rw [List.length_take, ← hlen]
      omega
    obtain ⟨t, ht⟩ := hp
    have hle := Storage.length_encodeLog_wholeBatches_le (putRecords pairs) n
    rw [← ht, Storage.encodeLog_append, List.length_append] at hle
    exact le_trans (Nat.le_add_right _ _) hle
  · intro hle
    have hp : putRecords (pairs.take (i + 1)) <+: putRecords pairs :=
      (List.take_prefix _ _).map _
    have := (Storage.isPrefix_wholeBatches hp hle).length_le
    rw [putRecords, List.length_map, List.length_take] at this
    omega

/-- A snapshot cut short opens as its whole records. -/
theorem openLog_take_snapshot {pairs : List (Bytes × Bytes)}
    (hfits : ∀ p ∈ pairs, Fits [.put p.1 p.2]) (n : ℕ) :
    Storage.openLog ((snapshotBytes pairs).take n) =
      ⟨applyAll ∅ ((wholePairs pairs n).map fun e => .put e.1 e.2),
        snapshotBytes (wholePairs pairs n)⟩ := by
  have hw : Writable (putRecords pairs) := by
    intro b hb
    obtain ⟨p, hp, rfl⟩ := List.mem_map.mp hb
    exact ⟨by simp, hfits p hp⟩
  have hintact : Intact ⟨applyLog ∅ (putRecords pairs), encodeLog (putRecords pairs)⟩ _ :=
    ⟨rfl, rfl, hw⟩
  have hopen := (hintact.openLog_take n).eq
  rw [Storage.snapshotBytes_eq, Storage.snapshotBytes_eq, ← Storage.applyLog_puts]
  change Storage.openLog ((encodeLog (putRecords pairs)).take n) =
    ⟨applyLog ∅ (putRecords (wholePairs pairs n)), encodeLog (putRecords (wholePairs pairs n))⟩
  rw [putRecords_wholePairs]
  exact hopen

/-! ## What a database holds -/

/-- The stored map holds its canary, and no keys but those of tables and the reserved ones. -/
structure Furnished (mk : C.MasterKey) (m : ByteMap) : Prop where
  canary : ∃ nonce, m[canaryKey]? =
    some (C.sealWith (C.deriveKey mk "canary") nonce canaryPlaintext canaryKey)
  known : ∀ key, m[key]? ≠ none → DataKey key ∨ auditPrefix <+: key ∨ key = keyparamsKey ∨
    key = canaryKey ∨ key = auditHeadKey

theorem furnished_fresh (passphrase : String) (kdf : KdfParams) (env : Engine.OpenEnv C) :
    Furnished (C.derive kdf passphrase env.salt.1)
      (applyLog ∅ (Engine.freshBatches passphrase kdf env)) := by
  refine ⟨⟨env.nonce, by rw [getElem?_freshBatches, if_pos rfl]⟩, fun key hkey => ?_⟩
  rw [getElem?_freshBatches] at hkey
  split at hkey
  · rename_i hc
    exact .inr (.inr (.inr (.inl hc)))
  · split at hkey
    · rename_i hk
      exact .inr (.inr (.inl hk))
    · exact absurd rfl hkey

/-- Data writes keep it. -/
theorem Furnished.dataWrites {mk : C.MasterKey} {m : ByteMap} (h : Furnished mk m)
    {ws : List (Unsealed C)} (hw : DataWrites ws) (nonces : ℕ → C.Nonce) :
    Furnished mk (applyAll m (C.sealWrites nonces ws)) := by
  refine ⟨?_, fun key hkey => ?_⟩
  · rw [getElem?_applyAll_dataWrites _ hw _ not_dataKey_canaryKey]
    exact h.canary
  · by_cases hd : DataKey key
    · exact .inl hd
    · rw [getElem?_applyAll_dataWrites _ hw _ hd] at hkey
      exact h.known key hkey

/-- So do the entry of a statement and its head. -/
theorem Furnished.auditWrites {mk mk' : C.MasterKey} {m : ByteMap} (h : Furnished mk m)
    (entry : AuditEntry) (nonces : ℕ → C.Nonce) :
    Furnished mk (applyAll m (C.sealWrites nonces (C.auditWrites mk' entry))) := by
  have hlook := getElem?_applyAll_auditWrites m nonces mk' entry
  refine ⟨?_, fun key hkey => ?_⟩
  · rw [hlook, if_neg (by decide), if_neg]
    · exact h.canary
    · simp [canaryKey, auditKey, auditPrefix]
  · rw [hlook] at hkey
    split at hkey
    · rename_i hh
      exact .inr (.inr (.inr (.inr hh)))
    · split at hkey
      · rename_i he
        exact .inr (.inl (he ▸ auditPrefix_auditKey _))
      · exact h.known key hkey

/-- Keys of the audit chain may be written to. -/
theorem Furnished.chainWrites {mk : C.MasterKey} {m : ByteMap} (h : Furnished mk m)
    {ws : List (Unsealed C)} (hw : ∀ w ∈ ws, auditPrefix <+: w.key) (nonces : ℕ → C.Nonce) :
    Furnished mk (applyAll m (C.sealWrites nonces ws)) := by
  have hlook : ∀ key, ¬ auditPrefix <+: key →
      (applyAll m (C.sealWrites nonces ws))[key]? = m[key]? := by
    intro key hp
    refine getElem?_applyAll_of_notMem _ _ _ fun op hop he => hp ?_
    obtain ⟨w, hmem, hkey⟩ := mem_sealWrites hop
    exact he ▸ hkey ▸ hw w hmem
  refine ⟨?_, fun key hkey => ?_⟩
  · rw [hlook _ (by decide)]
    exact h.canary
  · by_cases hp : auditPrefix <+: key
    · exact .inr (.inl hp)
    · rw [hlook _ hp] at hkey
      exact h.known key hkey

theorem furnished_rotated (e : Engine C) (env : Engine.RotateEnv C) (newPassphrase : String)
    (kdf : KdfParams) (tables : List TableSnapshot) {audit : List (Unsealed C)}
    (haudit : ∀ w ∈ audit, auditPrefix <+: w.key) :
    Furnished (C.derive kdf newPassphrase env.openEnv.salt.1)
      (applyLog ∅ (e.rotationBatches env newPassphrase kdf tables audit)) := by
  have htables : ∀ (ts : List (TableSnapshot × ℕ)) (m : ByteMap),
      Furnished (C.derive kdf newPassphrase env.openEnv.salt.1) m →
      Furnished (C.derive kdf newPassphrase env.openEnv.salt.1) (applyLog m (ts.map fun t =>
        C.sealWrites (env.nonces t.2)
          (rebuildTable C (C.derive kdf newPassphrase env.openEnv.salt.1) t.1))) := by
    intro ts
    induction ts with
    | nil => exact fun m h => h
    | cons t ts ih => exact fun m h => ih _ (h.dataWrites (rebuildTable_dataKeys _) _)
  simp only [Engine.rotationBatches, Storage.applyLog_append]
  refine Furnished.auditWrites (Furnished.chainWrites (htables _ _ ?_) haudit _) _ _
  exact furnished_fresh newPassphrase kdf env.openEnv

namespace Session

variable {γ : Type}

theorem keeps_furnished {mode : Mode} {P : Session C → Step C → Prop}
    {onPlan : Engine C → Env C → Plan C → γ → γ}
    {onRotate : Engine C → Engine.RotateEnv C → γ → γ} :
    Keeps mode P (fun mk m _ => Furnished (C := C) mk m) onPlan onRotate where
  plan := by
    rintro s env st q plan g - hp hq - - h
    rw [Engine.auditedBatch, applyAll_append]
    exact (h.dataWrites (program_dataKeys hp _ (lawful_reader _) _ hq) _).auditWrites _ _
  rotation := by
    rintro s env newPassphrase kdf tables audit g - - - haudit - -
    exact furnished_rotated s.engine env newPassphrase kdf tables (carryAudit_keys haudit)

/-- Two properties that are kept are kept together. -/
theorem Keeps.and {mode : Mode} {P : Session C → Step C → Prop}
    {I I' : C.MasterKey → ByteMap → γ → Prop} {onPlan : Engine C → Env C → Plan C → γ → γ}
    {onRotate : Engine C → Engine.RotateEnv C → γ → γ} (h : Keeps mode P I onPlan onRotate)
    (h' : Keeps mode P I' onPlan onRotate) :
    Keeps mode P (fun mk m g => I mk m g ∧ I' mk m g) onPlan onRotate where
  plan := fun s env st q plan g hP hp hq hw hhead hI =>
    ⟨h.plan s env st q plan g hP hp hq hw hhead hI.1, h'.plan s env st q plan g hP hp hq hw hhead hI.2⟩
  rotation := fun s env newPassphrase kdf tables audit g hP hv ht ha hhead hI =>
    ⟨h.rotation s env newPassphrase kdf tables audit g hP hv ht ha hhead hI.1,
      h'.rotation s env newPassphrase kdf tables audit g hP hv ht ha hhead hI.2⟩

end Session

/-! ## The order of the records -/

/-- Only the head of the chain stands before the canary. -/
theorem compare_canaryKey {key : Bytes} (h : DataKey key ∨ auditPrefix <+: key ∨ key = keyparamsKey) :
    compare canaryKey key = .lt := by
  rcases h with (⟨t, rfl⟩ | ⟨t, rfl⟩ | ⟨t, rfl⟩ | ⟨t, rfl⟩ | ⟨t, rfl⟩) | ⟨t, rfl⟩ | rfl <;> rfl

/-- The first record of a snapshot is the head of the chain or the canary. -/
theorem Furnished.first {mk : C.MasterKey} {m : ByteMap} (h : Furnished mk m) {p : Bytes × Bytes}
    {rest : List (Bytes × Bytes)} (hp : m.toList = p :: rest) :
    p.1 = auditHeadKey ∨ p.1 = canaryKey := by
  obtain ⟨nonce, hc⟩ := h.canary
  have hsorted := sortedKeys_toList m
  rw [hp, SortedKeys, List.pairwise_cons] at hsorted
  have hmem := (mem_toList_iff m _ _).mpr hc
  have hstored : m[p.1]? = some p.2 := (mem_toList_iff m _ _).mp (by rw [hp]; exact List.mem_cons_self)
  have hlater : ¬ (DataKey p.1 ∨ auditPrefix <+: p.1 ∨ p.1 = keyparamsKey) := by
    intro hk
    have hlt := compare_canaryKey hk
    rw [hp] at hmem
    rcases List.mem_cons.mp hmem with heq | hmem
    · rw [← heq] at hlt
      simp at hlt
    · have := hsorted.1 _ hmem
      rw [Std.OrientedOrd.eq_swap, hlt] at this
      cases this
  rcases h.known p.1 (by rw [hstored]; exact Option.some_ne_none _) with hk | hk | hk | hk | hk
  · exact absurd (.inl hk) hlater
  · exact absurd (.inr (.inl hk)) hlater
  · exact absurd (.inr (.inr hk)) hlater
  · exact .inr hk
  · exact .inl hk

theorem mem_wholePairs {pairs : List (Bytes × Bytes)} (hs : SortedKeys pairs) {i : ℕ}
    {p : Bytes × Bytes} (hp : pairs[i]? = some p) (n : ℕ) :
    p ∈ wholePairs pairs n ↔ WholeIn pairs n i := by
  have hi := (List.getElem?_eq_some_iff.mp hp).1
  rw [← lt_length_wholePairs hi]
  constructor
  · intro hmem
    obtain ⟨j, hj⟩ := List.mem_iff_getElem?.mp hmem
    have hjlt := (List.getElem?_eq_some_iff.mp hj).1
    have hj' : pairs[j]? = some p := by
      rw [← getElem?_wholePairs hjlt, hj]
    have hne := List.nodup_iff_getElem?_ne_getElem?.mp hs.nodup
    rcases lt_trichotomy i j with hij | rfl | hij
    · exact absurd (hp.trans hj'.symm) (hne i j hij (List.getElem?_eq_some_iff.mp hj').1)
    · exact hjlt
    · exact absurd (hj'.trans hp.symm) (hne j i hij hi)
  · intro hlt
    rw [← getElem?_wholePairs hlt] at hp
    exact List.mem_of_getElem? hp

/-! ## Restoring -/

/-- The canary and this head, sealed under the keys of one master key, do not open under those of
the other. -/
structure Foreign (C : Crypto) (mk mk' : C.MasterKey) (head : AuditHead) : Prop where
  canary : ∀ nonce, C.openSealed (C.deriveKey mk' "canary")
    (C.sealWith (C.deriveKey mk "canary") nonce canaryPlaintext canaryKey) canaryKey = none
  head : ∀ nonce, C.openSealed (C.deriveKey mk' "audit")
    (C.sealWith (C.deriveKey mk "audit") nonce (Crypto.headBytes head) auditHeadKey) auditHeadKey =
      none

section

variable {m : ByteMap} {mk : C.MasterKey} {passphrase : String} (env : Engine.OpenEnv C)

/-- What the whole records of a cut snapshot hold. -/
def keptMap (m : ByteMap) (n : ℕ) : ByteMap :=
  applyAll ∅ ((wholePairs m.toList n).map fun e => .put e.1 e.2)

theorem getElem?_keptMap (m : ByteMap) (n : ℕ) (key value : Bytes) :
    (keptMap m n)[key]? = some value ↔ (key, value) ∈ wholePairs m.toList n :=
  getElem?_applyAll_sorted ((sortedKeys_toList m).sublist (wholePairs_isPrefix _ _).sublist) _ _

/-- A record that is there holds what it held. -/
theorem getElem?_of_keptMap {n : ℕ} {key value : Bytes} (h : (keptMap m n)[key]? = some value) :
    m[key]? = some value :=
  (mem_toList_iff m _ _).mp ((wholePairs_isPrefix _ _).subset ((getElem?_keptMap _ _ _ _).mp h))

/-- Records before one that is there are there. -/
theorem getElem?_keptMap_of_lt {n : ℕ} {key key' value : Bytes}
    (h : (keptMap m n)[key]? = some value) (hlt : compare key' key = .lt) :
    (keptMap m n)[key']? = m[key']? := by
  cases hk : m[key']? with
  | some value' =>
    rw [getElem?_keptMap]
    exact (sortedKeys_toList m).mem_of_isPrefix (wholePairs_isPrefix _ _)
      ((getElem?_keptMap _ _ _ _).mp h) ((mem_toList_iff m _ _).mpr hk) hlt
  | none =>
    cases hk' : (keptMap m n)[key']? with
    | none => rfl
    | some value' =>
      rw [getElem?_of_keptMap hk'] at hk
      cases hk

theorem openLocal_take {n : ℕ} (hfits : ∀ p ∈ m.toList, Fits [.put p.1 p.2]) (kdf : KdfParams) :
    Engine.openLocal ((snapshotBytes m.toList).take n) passphrase kdf env =
      Engine.openStore ⟨⟨keptMap m n, snapshotBytes (wholePairs m.toList n)⟩, none⟩ true passphrase
        kdf env := by
  rw [Engine.openLocal, openLog_take_snapshot hfits]
  rfl

/-- Without a whole record the file is taken for a new database. -/
theorem restoreFrom_nil {n : ℕ} (hfits : ∀ p ∈ m.toList, Fits [.put p.1 p.2])
    (hparams : env.paramsIo = .ok) (hcanary : env.canaryIo = .ok)
    (h : wholePairs m.toList n = []) :
    Engine.restoreFrom none ((snapshotBytes m.toList).take n) passphrase env =
      .ok (Engine.create passphrase .recommended env) := by
  have hopen : Engine.openLocal ((snapshotBytes m.toList).take n) passphrase .recommended env =
      Engine.openLocal [] passphrase .recommended env := by
    rw [Engine.openLocal, openLog_take_snapshot hfits, h, Engine.openLocal, Engine.openLog_nil]
    rfl
  rw [Engine.restoreFrom, hopen, Engine.openLocal_create passphrase (by decide) hparams hcanary,
    ok_bind, Session.auditVerify_create]
  rfl

/-- Without its parameters the file is opened under a new key, under which neither the canary nor
the head opens. -/
theorem restoreFrom_without_params {n : ℕ} (hfits : ∀ p ∈ m.toList, Fits [.put p.1 p.2])
    (hfurnished : Furnished mk m) {head : AuditHead} (hhead : Engine.HeadIs C m mk head)
    (hparams : env.paramsIo = .ok) (hcanary : env.canaryIo = .ok)
    (hforeign : Foreign C mk (C.derive .recommended passphrase env.salt.1) head)
    (hne : wholePairs m.toList n ≠ []) (hnone : (keptMap m n)[keyparamsKey]? = none) :
    ∃ err, Engine.restoreFrom none ((snapshotBytes m.toList).take n) passphrase env =
      .error err := by
  let st : Storage := ⟨keptMap m n, snapshotBytes (wholePairs m.toList n)⟩
  let params : Batch := [.put keyparamsKey (encodeKeyparams .recommended env.salt.1)]
  have hget : ∀ key, keyparamsKey ≠ key →
      (Store.mk (Engine.writeAll st [params]) none).get key = (keptMap m n)[key]? := by
    intro key hk
    rw [Store.get_eq, Store.view_of_none rfl, Engine.map_writeAll]
    exact (getElem?_insert_eq _ _ _ _).trans (if_neg hk)
  obtain ⟨nonce, hc⟩ := hfurnished.canary
  -- opening stops at the canary or, if that is not there, at the head
  have hopen : ∃ err, (Engine.openLocal ((snapshotBytes m.toList).take n) passphrase .recommended
      env).1 = .error err := by
    rw [openLocal_take env hfits, Engine.openStore, Store.get_eq, Store.view_of_none rfl, hnone, hparams,
      Store.put_eq_commit, Engine.commit_none]
    simp only [show KdfParams.recommended.Valid by decide, if_true, Engine.openCanary]
    rw [hget _ (by decide)]
    cases hkept : (keptMap m n)[canaryKey]? with
    | some sealed =>
      obtain rfl := Option.some.inj ((getElem?_of_keptMap hkept).symm.trans hc)
      simp only [hforeign.canary nonce]
      exact ⟨_, rfl⟩
    | none =>
      obtain ⟨p, rest, hp⟩ := List.exists_cons_of_ne_nil hne
      obtain ⟨t, ht⟩ := wholePairs_isPrefix m.toList n
      rw [hp, List.cons_append] at ht
      have hpkept : (keptMap m n)[p.1]? = some p.2 := by
        rw [getElem?_keptMap, hp]
        exact List.mem_cons_self
      have hfirst : p.1 = auditHeadKey := by
        refine (hfurnished.first ht.symm).resolve_right fun h => ?_
        rw [h, hkept] at hpkept
        cases hpkept
      obtain ⟨nonce', hs⟩ : ∃ nonce', p.2 = C.sealWith (C.deriveKey mk "audit") nonce'
          (Crypto.headBytes head) auditHeadKey := by
        have hstored := getElem?_of_keptMap hpkept
        rw [hfirst] at hstored
        rcases hhead with ⟨hn, -⟩ | ⟨nonce', hs⟩
        · rw [hn] at hstored
          cases hstored
        · exact ⟨nonce', Option.some.inj (hstored.symm.trans hs)⟩
      simp only [hcanary, Store.put_eq_commit, Engine.commit_none, Engine.openHead]
      rw [← Engine.writeAll_append]
      have hgethead : (Store.mk (Engine.writeAll st ([params] ++ [[.put canaryKey
          (C.sealWith (C.deriveKey (C.derive .recommended passphrase env.salt.1) "canary") env.nonce
            canaryPlaintext canaryKey)]])) none).get auditHeadKey = some p.2 := by
        rw [Store.get_eq, Store.view_of_none rfl, Engine.map_writeAll]
        refine (getElem?_insert_eq _ _ _ _).trans ((if_neg (by decide)).trans ?_)
        refine (getElem?_insert_eq _ _ _ _).trans ((if_neg (by decide)).trans ?_)
        rw [← hfirst]
        exact hpkept
      rw [hgethead]
      simp only [Engine.readHead, hs, hforeign.head nonce']
      exact ⟨_, rfl⟩
  obtain ⟨err, herr⟩ := hopen
  exact ⟨err, by rw [Engine.restoreFrom, herr]; rfl⟩

/-- With its parameters the file opens, and is restored if the chain is whole. -/
theorem restoreFrom_with_params {n : ℕ} (hfits : ∀ p ∈ m.toList, Fits [.put p.1 p.2])
    (hopens : Engine.Opens m passphrase mk) {es : List AuditEntry} (hchain : ChainIn C m mk es)
    (hsome : (keptMap m n)[keyparamsKey]? ≠ none) :
    ((∀ p ∈ m.toList, auditPrefix <+: p.1 → p ∈ wholePairs m.toList n) →
      Engine.restoreFrom none ((snapshotBytes m.toList).take n) passphrase env = .ok (Engine.opened
        ⟨⟨keptMap m n, snapshotBytes (wholePairs m.toList n)⟩, none⟩ mk (chainHead C es))) ∧
    ((∃ p ∈ m.toList, auditPrefix <+: p.1 ∧ p ∉ wholePairs m.toList n) →
      ∃ err, Engine.restoreFrom none ((snapshotBytes m.toList).take n) passphrase env =
        .error err) := by
  obtain ⟨params, hparams⟩ := Option.ne_none_iff_exists'.mp hsome
  obtain ⟨⟨kdf, salt, hstored, hrest⟩, ⟨sealed, plain, hcanary, hopen⟩⟩ := hopens
  have hopens' : Engine.Opens (keptMap m n) passphrase mk := by
    refine ⟨⟨kdf, salt, ?_, hrest⟩, ⟨sealed, plain, ?_, hopen⟩⟩
    · rw [hparams, ← getElem?_of_keptMap hparams, hstored]
    · rw [getElem?_keptMap_of_lt hparams (by decide), hcanary]
  have hhead : Engine.HeadIs C (keptMap m n) mk (chainHead C es) := by
    have := hchain.head
    rwa [Engine.HeadIs, ← getElem?_keptMap_of_lt hparams (by decide : compare auditHeadKey
      keyparamsKey = .lt)] at this
  have hload : (Engine.openLocal ((snapshotBytes m.toList).take n) passphrase .recommended env).1 =
      .ok (Engine.opened ⟨⟨keptMap m n, snapshotBytes (wholePairs m.toList n)⟩, none⟩ mk
        (chainHead C es)) := by
    rw [openLocal_take env hfits]
    exact Engine.openStore_eq hopens' hhead _ _
  rw [Engine.restoreFrom, hload, ok_bind]
  constructor
  · intro hall
    have hentries : EntriesIn C (keptMap m n) mk es := by
      refine ⟨fun i e he => ?_, fun key hp hkey => ?_⟩
      · obtain ⟨nonce, hs⟩ := hchain.entries.stored i e he
        refine ⟨nonce, (getElem?_keptMap _ _ _ _).mpr ?_⟩
        exact hall _ ((mem_toList_iff m _ _).mpr hs) (auditPrefix_auditKey _)
      · obtain ⟨value, hvalue⟩ := Option.ne_none_iff_exists'.mp hkey
        exact hchain.entries.only key hp (by rw [getElem?_of_keptMap hvalue]; nofun)
    rw [auditVerify_eq (e := Engine.opened ⟨⟨keptMap m n, _⟩, none⟩ mk (chainHead C es))
      ⟨hchain.linked, hchain.bound, hentries, hhead⟩ rfl]
    rfl
  · rintro ⟨p, hp, haudit, hmissing⟩
    have hstoredp := (mem_toList_iff m _ _).mp hp
    obtain ⟨i, hi, hkey⟩ := hchain.entries.only p.1 haudit (by rw [hstoredp]; nofun)
    have hbound := hchain.bound
    have hnat : ∀ i < 2 ^ 64, (UInt64.ofNat i).toNat = i :=
      fun i hi => UInt64.toNat_ofNat_of_lt' hi
    have hcount : (chainHead C es).1.toNat = es.length := by rw [chainHead_fst, hnat _ hbound]
    have hbelow : Below (keptMap m n) (chainHead C es).1.toNat := by
      intro key hp hkey
      obtain ⟨value, hvalue⟩ := Option.ne_none_iff_exists'.mp hkey
      obtain ⟨j, hj, rfl⟩ := hchain.entries.only key hp (by rw [getElem?_of_keptMap hvalue]; nofun)
      exact ⟨_, rfl, by rw [hcount, hnat j (by omega)]; exact hj⟩
    have hgone : (keptMap m n)[auditKey (UInt64.ofNat i)]? = none := by
      rw [← hkey]
      by_contra hne
      obtain ⟨value, hvalue⟩ := Option.ne_none_iff_exists'.mp hne
      obtain rfl := Option.some.inj ((getElem?_of_keptMap hvalue).symm.trans hstoredp)
      exact hmissing ((getElem?_keptMap _ _ _ _).mp hvalue)
    obtain ⟨err, herr⟩ := auditVerify_error (e := Engine.opened ⟨⟨keptMap m n,
      snapshotBytes (wholePairs m.toList n)⟩, none⟩ mk (chainHead C es)) hbelow hgone
      (by rw [hnat i (by omega)]; exact hcount ▸ hi)
    exact ⟨err, by rw [herr]; rfl⟩

theorem wholePairs_length (pairs : List (Bytes × Bytes)) :
    wholePairs pairs (snapshotBytes pairs).length = pairs := by
  have hp : putRecords pairs <+: wholeBatches (putRecords pairs) (snapshotBytes pairs).length := by
    refine Storage.isPrefix_wholeBatches List.prefix_rfl ?_
    rw [Storage.snapshotBytes_eq]
    exact le_rfl
  have hlen := hp.length_le
  rw [putRecords, List.length_map] at hlen
  exact List.take_of_length_le hlen

theorem keptMap_length (m : ByteMap) : keptMap m (snapshotBytes m.toList).length = m := by
  rw [keptMap, wholePairs_length, applyAll_puts]

/-- **When a cut snapshot is refused.** -/
theorem restoreFrom_take_error_iff (hfits : ∀ p ∈ m.toList, Fits [.put p.1 p.2])
    (hopens : Engine.Opens m passphrase mk) (hfurnished : Furnished mk m) {es : List AuditEntry}
    (hchain : ChainIn C m mk es) (hparams : env.paramsIo = .ok) (hcanary : env.canaryIo = .ok)
    (hforeign : Foreign C mk (C.derive .recommended passphrase env.salt.1) (chainHead C es)) (n : ℕ) :
    (∃ err, Engine.restoreFrom none ((snapshotBytes m.toList).take n) passphrase env = .error err) ↔
      wholePairs m.toList n ≠ [] ∧ ∃ p ∈ m.toList, (p.1 = keyparamsKey ∨ auditPrefix <+: p.1) ∧
        p ∉ wholePairs m.toList n := by
  obtain ⟨kdf, salt, hstored, -⟩ := hopens.params
  have hmem := (mem_toList_iff m _ _).mpr hstored
  by_cases hnil : wholePairs m.toList n = []
  · rw [restoreFrom_nil env hfits hparams hcanary hnil]
    exact ⟨nofun, fun h => absurd hnil h.1⟩
  · cases hkept : (keptMap m n)[keyparamsKey]? with
    | none =>
      have herr := restoreFrom_without_params env hfits hfurnished hchain.head hparams hcanary hforeign
        hnil hkept
      refine ⟨fun _ => ⟨hnil, _, hmem, .inl rfl, fun hin => ?_⟩, fun _ => herr⟩
      rw [(getElem?_keptMap _ _ _ _).mpr hin] at hkept
      cases hkept
    | some params =>
      have hsome : (keptMap m n)[keyparamsKey]? ≠ none := by rw [hkept]; nofun
      obtain ⟨hok, herr⟩ := restoreFrom_with_params env hfits hopens hchain hsome
      constructor
      · rintro ⟨err, he⟩
        refine ⟨hnil, ?_⟩
        by_contra hall
        rw [hok fun p hp ha => by_contra fun hin => hall ⟨p, hp, .inr ha, hin⟩] at he
        cases he
      · rintro ⟨-, p, hp, hkind, hin⟩
        refine herr ⟨p, hp, hkind.resolve_left fun hk => hin ?_, hin⟩
        obtain ⟨key, value⟩ := p
        subst hk
        obtain rfl := Option.some.inj ((getElem?_of_keptMap hkept).symm.trans
          ((mem_toList_iff m _ _).mp hp))
        exact (getElem?_keptMap _ _ _ _).mp hkept

end

namespace Session

/-- **Restoring backups.** In every run in which every record fits, no append fails and the sequence
numbers do not run out, and whose pairs fit the records of a snapshot: a backup is restored to the
map a reader saw and to the same head of the chain; and a backup that was cut short is refused
exactly when its first record is whole and the record of the parameters, or that of an audit entry,
is not. -/
theorem restoreFrom_error_iff {s : Session C} (hs : s.Fresh) (steps : List (Step C))
    (hrun : Along step (fun s a => HasSeq s a ∧ Clean .faultless s a) s steps)
    (hfits : ∀ p ∈ (steps.foldl step s).engine.store.dump, Fits [.put p.1 p.2]) :
    let t := steps.foldl step s
    let pairs := t.engine.store.dump
    (∀ env : Engine.OpenEnv C, ∃ e : Engine C,
      Engine.restoreFrom none t.engine.backupTo t.passphrase env = .ok e ∧
        e.store.view = t.engine.store.view ∧ e.auditHead = t.engine.auditHead) ∧
    ∀ n < t.engine.backupTo.length, ∀ env : Engine.OpenEnv C,
      env.paramsIo = .ok → env.canaryIo = .ok →
      Foreign C t.engine.master (C.derive .recommended t.passphrase env.salt.1) t.engine.auditHead →
      ((∃ err, Engine.restoreFrom none (t.engine.backupTo.take n) t.passphrase env = .error err) ↔
        WholeIn pairs n 0 ∧ ∃ i p, pairs[i]? = some p ∧
          (p.1 = keyparamsKey ∨ auditPrefix <+: p.1) ∧ ¬ WholeIn pairs n i) := by
  intro t pairs
  have hsound := sound_run (keeps_chained.and keeps_furnished)
    (fun kdf env _ => ⟨chained_fresh s.passphrase kdf env, furnished_fresh s.passphrase kdf env⟩) hs
    hrun
  obtain ⟨⟨es, hchain, -⟩, hfurnished⟩ := hsound.view
  have hpairs : pairs = t.engine.store.view.toList := Store.dump_eq _
  have hsorted := sortedKeys_toList t.engine.store.view
  rw [Store.dump_eq] at hfits
  obtain ⟨kdf, salt, hstored, -⟩ := hsound.opensView.params
  have hmem := (mem_toList_iff _ _ _).mpr hstored
  have hbackup : t.engine.backupTo = snapshotBytes t.engine.store.view.toList := by
    rw [Engine.backupTo, Store.dump_eq]
  have hhead : chainHead C es = t.engine.auditHead := hchain.head.unique (hsound.head trivial)
  constructor
  · intro env
    have hall : ∀ p ∈ t.engine.store.view.toList, auditPrefix <+: p.1 →
        p ∈ wholePairs t.engine.store.view.toList (snapshotBytes t.engine.store.view.toList).length :=
      fun p hp _ => by rwa [wholePairs_length]
    have hok := (restoreFrom_with_params env hfits hsound.opensView hchain
      (n := (snapshotBytes t.engine.store.view.toList).length)
      (by rw [keptMap_length, hstored]; nofun)).1 hall
    rw [List.take_length] at hok
    rw [hbackup]
    refine ⟨_, hok, ?_, ?_⟩
    · exact keptMap_length t.engine.store.view
    · exact hhead
  · intro n hn env hparams hcanary hforeign
    rw [← hhead] at hforeign
    rw [hbackup, restoreFrom_take_error_iff env hfits hsound.opensView hfurnished hchain hparams hcanary
      hforeign, hpairs]
    have hfirst : wholePairs t.engine.store.view.toList n ≠ [] ↔
        WholeIn t.engine.store.view.toList n 0 := by
      rw [← lt_length_wholePairs (List.length_pos_of_mem hmem), List.length_pos_iff]
    rw [hfirst]
    refine and_congr_right fun _ => ⟨?_, ?_⟩
    · rintro ⟨p, hp, hkind, hin⟩
      obtain ⟨i, hi⟩ := List.mem_iff_getElem?.mp hp
      exact ⟨i, p, hi, hkind, fun hw => hin ((mem_wholePairs hsorted hi n).mpr hw)⟩
    · rintro ⟨i, p, hi, hkind, hw⟩
      exact ⟨p, List.mem_of_getElem? hi, hkind, fun hin => hw ((mem_wholePairs hsorted hi n).mp hin)⟩

/-! A table with one row is backed up. -/

/-- An instance whose ciphertexts open only under their own key, for concrete runs. -/
def Crypto.keyed : Crypto where
  MasterKey := Bytes
  CipherKey := Bytes
  Nonce := Unit
  derive _ _ salt := salt
  deriveKey mk _ := mk
  keyedTag _ _ data := fitTo 32 data
  sealWith key _ plaintext _ := fitTo 28 key ++ plaintext
  openSealed key sealed _ := if sealed.take 28 = fitTo 28 key then some (sealed.drop 28) else none
  sha256 data := fitTo 32 data
  length_keyedTag := length_fitTo_tag
  length_sha256 := length_fitTo_tag () ""
  length_sealWith _ _ plaintext _ := by rw [List.length_append, length_fitTo, Nat.add_comm]
  openSealed_sealWith _ _ plaintext _ := by
    rw [List.take_left' (length_fitTo _ _), if_pos rfl, List.drop_left' (length_fitTo _ _)]

theorem foreign_keyed {mk mk' : Bytes} (h : fitTo 28 mk ≠ fitTo 28 mk') (head : AuditHead) :
    Foreign Crypto.keyed mk mk' head := by
  have hnone : ∀ plain, (if (fitTo 28 mk ++ plain).take 28 = fitTo 28 mk' then
      some ((fitTo 28 mk ++ plain).drop 28) else none) = none := by
    intro plain
    rw [List.take_left' (length_fitTo _ _), if_neg h]
  exact ⟨fun _ => hnone _, fun _ => hnone _⟩

/-- The salt that is drawn consists of one byte, repeated. -/
def keyedOpenEnv (b : UInt8) : Engine.OpenEnv Crypto.keyed :=
  ⟨⟨List.replicate 16 b, List.length_replicate⟩, (), .ok, .ok⟩

def keyedEnv : Env Crypto.keyed := ⟨0, fun _ => (), .ok, .integers⟩

def keyedSession : Session Crypto.keyed := create "passphrase" .recommended (keyedOpenEnv 0)

theorem fresh_keyedSession : keyedSession.Fresh := fresh_create _ (by decide) rfl rfl

def rowSteps : List (Step Crypto.keyed) :=
  [.statement keyedEnv (tableStatement "t"), .statement keyedEnv (.insert "t" none [[.int 1]])]

example : (tables Crypto.keyed (List.replicate 16 0)).run
    (rowSteps.foldl step keyedSession).engine.store.reader = .ok ["t"] := by
  decide +kernel

theorem clean_rowSteps :
    Along step (fun s a => HasSeq s a ∧ Clean .faultless s a) keyedSession rowSteps := by
  refine ⟨⟨?_, clean_statement rfl ?_⟩, ⟨?_, clean_statement rfl ?_⟩, trivial⟩
  all_goals decide +kernel

theorem fits_rowSteps :
    ∀ p ∈ (rowSteps.foldl step keyedSession).engine.store.dump, Fits [.put p.1 p.2] := by
  decide +kernel

/-- Cut in the middle of the catalog, the backup is refused. -/
theorem restoreFrom_error_iff_cut_catalog :
    ∃ err, Engine.restoreFrom none ((rowSteps.foldl step keyedSession).engine.backupTo.take 200)
      (rowSteps.foldl step keyedSession).passphrase (keyedOpenEnv 1) = .error err := by
  refine ((restoreFrom_error_iff fresh_keyedSession rowSteps clean_rowSteps fits_rowSteps).2 200
    (by decide +kernel) (keyedOpenEnv 1) rfl rfl ?_).mpr ⟨by decide +kernel, 3, _,
      List.getElem?_eq_getElem (by decide +kernel), .inl (by decide +kernel), by decide +kernel⟩
  exact foreign_keyed (by decide +kernel) _

/-- Cut before the row, the backup is restored without it; cut before everything, as a new
database. -/
theorem not_refused_cut_row :
    ∃ (n : ℕ) (e e' : Engine Crypto.keyed),
      (rowSteps.foldl step keyedSession).passphrase = "passphrase" ∧ keyedSession.Fresh ∧
      (∀ a ∈ rowSteps, a.Succeeds) ∧
      (selectedRows Crypto.keyed (rowSteps.foldl step keyedSession).engine.master "t" none).run
        (rowSteps.foldl step keyedSession).engine.store.reader = .ok [[.int 1]] ∧
      n < (rowSteps.foldl step keyedSession).engine.backupTo.length ∧
      Engine.restoreFrom none ((rowSteps.foldl step keyedSession).engine.backupTo.take n) "passphrase"
        (keyedOpenEnv 1) = .ok e ∧
      (selectedRows Crypto.keyed e.master "t" none).run e.store.reader = .ok [] ∧
      Engine.restoreFrom none ((rowSteps.foldl step keyedSession).engine.backupTo.take 0) "passphrase"
        (keyedOpenEnv 1) = .ok e' ∧
      (schema Crypto.keyed e'.master "t").run e'.store.reader = .ok none := by
  have hsound := sound_run keeps_chained (fun kdf env _ => chained_fresh _ kdf env) fresh_keyedSession
    clean_rowSteps
  obtain ⟨es, hchain, -⟩ := hsound.view
  have hfits := fits_rowSteps
  rw [Store.dump_eq] at hfits
  have hbackup : (rowSteps.foldl step keyedSession).engine.backupTo =
      snapshotBytes (rowSteps.foldl step keyedSession).engine.store.view.toList := by
    rw [Engine.backupTo, Store.dump_eq]
  have hrow := (restoreFrom_with_params (keyedOpenEnv 1) (n := 682) hfits hsound.opensView
    hchain (by decide +kernel)).1 (by decide +kernel)
  have hnil : Engine.restoreFrom none _ "passphrase" (keyedOpenEnv 1) = _ :=
    restoreFrom_nil (keyedOpenEnv 1) (n := 0) hfits rfl rfl (by decide +kernel)
  have hpass : (rowSteps.foldl step keyedSession).passphrase = "passphrase" := rfl
  rw [← hbackup, hpass] at hrow
  rw [← hbackup] at hnil
  refine ⟨682, _, _, hpass, fresh_keyedSession, by simp [rowSteps, Step.Succeeds, keyedEnv],
    by decide +kernel, by decide +kernel, hrow, ?_, hnil, ?_⟩
  · change (selectedRows Crypto.keyed (rowSteps.foldl step keyedSession).engine.master "t" none).run
      (Store.mk ⟨keptMap (rowSteps.foldl step keyedSession).engine.store.view 682, _⟩ none).reader = _
    rw [Store.reader_eq]
    decide +kernel
  · decide +kernel

end Session

end Ciphra
