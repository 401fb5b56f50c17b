import Ciphra.Engine.Backup

/-!
# Restores that fail

`restoreFrom` copies the snapshot to its place first and checks it there: opening it reads the key
parameters, tries the canary and loads the head of the audit chain, and the chain is verified last.
Nothing takes the copy away when one of these checks fails. `restoreInto` keeps the log file of the
directory beside the result. A snapshot is `Accepted` when all the checks succeed on what its records
hold; every other snapshot is left in place, where it is in the way of the next restore and is what
the next open finds (`restoreInto_leaves_nothing_iff`).
-/

namespace Ciphra

open OrdMap
open Storage (Io Fits Writable applyLog encodeLog)

variable {C : Crypto}

namespace Engine

/-- Restore a snapshot into a directory with this log file, or with none: the result, and the log
file that is there afterwards. -/
def restoreInto (file : Option Bytes) (snapshot : Bytes) (passphrase : String) (env : OpenEnv C) :
    Except EngineError (Engine C) × Option Bytes :=
  match file with
  | some wal => (.error .io, some wal)
  | none =>
    match openLocal snapshot passphrase .recommended env with
    | (.error err, store) => (.error err, some store.backend.wal)
    | (.ok e, store) =>
      match e.auditVerify with
      | .error err => (.error err, some store.backend.wal)
      | .ok _ => (.ok e, some store.backend.wal)

/-- Open the database of a directory; a log file that is missing is created. -/
def openDir (file : Option Bytes) (passphrase : String) (kdf : KdfParams) (env : OpenEnv C) :
    Except EngineError (Engine C) :=
  (openLocal (file.getD []) passphrase kdf env).1

theorem restoreInto_fst (file : Option Bytes) (snapshot : Bytes) (passphrase : String)
    (env : OpenEnv C) :
    (restoreInto file snapshot passphrase env).1 = restoreFrom file snapshot passphrase env := by
  cases file with
  | some wal => rfl
  | none =>
    rw [restoreInto, restoreFrom]
    rcases openLocal snapshot passphrase .recommended env with ⟨⟨err⟩ | ⟨e⟩, store⟩
    · rfl
    · cases hv : e.auditVerify <;> simp [hv]

/-- The log file is in place whatever the result. -/
theorem restoreInto_snd_ne_none (file : Option Bytes) (snapshot : Bytes) (passphrase : String)
    (env : OpenEnv C) : (restoreInto file snapshot passphrase env).2 ≠ none := by
  unfold restoreInto
  split
  · exact Option.some_ne_none _
  · split
    · exact Option.some_ne_none _
    · split <;> exact Option.some_ne_none _

/-! ## The checks -/

/-- The master key from the recorded parameters, or from new ones that are recorded first. -/
def masterOf (m : ByteMap) (passphrase : String) (env : OpenEnv C) : Option C.MasterKey :=
  match m[keyparamsKey]? with
  | some record =>
    match readKeyparams record with
    | .ok (kdf, salt) => some (C.derive kdf passphrase salt)
    | .error _ => none
  | none =>
    if env.paramsIo = .ok then some (C.derive .recommended passphrase env.salt.1) else none

/-- The canary opens, or is missing and written. -/
def CanaryFits (m : ByteMap) (mk : C.MasterKey) (env : OpenEnv C) : Prop :=
  match m[canaryKey]? with
  | some sealed => C.openSealed (C.deriveKey mk "canary") sealed canaryKey ≠ none
  | none => env.canaryIo = .ok

/-- The head of the audit chain; a new database has none. -/
def headOf (m : ByteMap) (mk : C.MasterKey) : Except EngineError AuditHead :=
  match m[auditHeadKey]? with
  | none => .ok genesis
  | some sealed => readHead (C.deriveKey mk "audit") sealed

/-- The audit entries form a chain that ends in the head. -/
def ChainFits (m : ByteMap) (mk : C.MasterKey) : Prop :=
  ∃ entries root, verifyEntries (C.deriveKey mk "audit") (m.scanPrefix auditPrefix) 0
    (ByteArr.zeros 32) = .ok (entries, root) ∧ headOf m mk = .ok (UInt64.ofNat entries.length, root)

/-- All checks succeed on what the records of the snapshot hold. -/
def Accepted (snapshot : Bytes) (passphrase : String) (env : OpenEnv C) : Prop :=
  let m := (Storage.openLog snapshot).map
  ∃ mk, masterOf m passphrase env = some mk ∧ CanaryFits m mk env ∧ ChainFits m mk

theorem ChainFits.congr {m m' : ByteMap} {mk : C.MasterKey}
    (h : ∀ key, key ≠ keyparamsKey → key ≠ canaryKey → m'[key]? = m[key]?) :
    ChainFits m' mk ↔ ChainFits m mk := by
  have hscan : m'.scanPrefix auditPrefix = m.scanPrefix auditPrefix := by
    refine ByteMap.scanPrefix_congr fun key hp => h key ?_ ?_
    · rintro rfl
      revert hp
      decide
    · rintro rfl
      revert hp
      decide
  have hhead : headOf m' mk = headOf m mk := by
    rw [headOf, headOf, h auditHeadKey (by decide) (by decide)]
  rw [ChainFits, ChainFits, hscan, hhead]

/-- The audit head is loaded and the chain verified. -/
theorem openHead_verified_iff (store : Store) (mk : C.MasterKey) :
    (∃ e es, openHead store true mk = .ok e ∧ e.auditVerify = .ok es) ↔
      ChainFits store.view mk := by
  have hopen : openHead store true mk =
      (headOf store.view mk).map (opened store mk) := by
    rw [openHead, Store.get_eq, headOf]
    cases store.view[auditHeadKey]? with
    | none => rfl
    | some sealed => cases readHead (C.deriveKey mk "audit") sealed <;> rfl
  rw [hopen, ChainFits]
  constructor
  · rintro ⟨e, es, he, hv⟩
    cases hhead : headOf store.view mk with
    | error err =>
      rw [hhead] at he
      cases he
    | ok head =>
      rw [hhead] at he
      obtain rfl := Except.ok.inj he
      rw [auditVerify, Store.scanPrefix_eq] at hv
      obtain ⟨⟨entries, root⟩, hverify, hv⟩ := bind_eq_ok.mp hv
      simp only at hv
      split at hv
      · cases hv
      · rename_i heq
        exact ⟨entries, root, hverify, congrArg _ (not_not.mp heq).symm⟩
  · rintro ⟨entries, root, hverify, hhead⟩
    rw [hhead]
    refine ⟨_, entries, rfl, ?_⟩
    rw [auditVerify, Store.scanPrefix_eq]
    refine bind_eq_ok.mpr ⟨(entries, root), hverify, ?_⟩
    simp only [opened, ne_eq, not_true_eq_false, if_false]
    rfl

/-- A put outside a transaction. -/
theorem put_none_cases (st : Storage) (key value : Bytes) (io : Io) :
    (io = .ok ∧ ∃ st', (Store.mk st none).put key value io = (.ok (), ⟨st', none⟩) ∧
      st'.map = st.map.insert key value) ∨
    (io ≠ .ok ∧ ∃ err store, (Store.mk st none).put key value io = (.error err, store)) := by
  have hput : (Store.mk st none).put key value io =
      ((st.write (.put key value) io).1, ⟨(st.write (.put key value) io).2, none⟩) := rfl
  rw [hput, Storage.write_eq, Storage.Write.batch, if_neg (List.cons_ne_nil _ _)]
  by_cases hio : io = .ok
  · rw [if_pos hio]
    exact .inl ⟨hio, _, rfl, rfl⟩
  · rw [if_neg hio]
    exact .inr ⟨hio, _, _, rfl⟩

/-- The canary is tried or written, and the rest checked. -/
theorem openCanary_verified_iff (st : Storage) (mk : C.MasterKey) (env : OpenEnv C) :
    (∃ e es, (openCanary ⟨st, none⟩ true mk env).1 = .ok e ∧ e.auditVerify = .ok es) ↔
      CanaryFits st.map mk env ∧ ChainFits st.map mk := by
  have hget : (Store.mk st none).get canaryKey = st.map[canaryKey]? := Store.get_eq _ _
  rw [openCanary, hget, CanaryFits]
  cases st.map[canaryKey]? with
  | some sealed =>
    cases hopen : C.openSealed (C.deriveKey mk "canary") sealed canaryKey with
    | none => simp [hopen]
    | some plain =>
      simp only [hopen, ne_eq, reduceCtorEq, not_false_eq_true, true_and]
      exact openHead_verified_iff _ _
  | none =>
    simp only
    rcases put_none_cases st canaryKey (C.sealWith (C.deriveKey mk "canary") env.nonce
      canaryPlaintext canaryKey) env.canaryIo with ⟨hio, st', hput, hmap⟩ | ⟨hio, err, store, hput⟩
    · rw [hput]
      simp only [hio, true_and]
      rw [openHead_verified_iff]
      refine ChainFits.congr fun key _ hkey => ?_
      rw [Store.view_of_none rfl, hmap, getElem?_insert_eq, if_neg (Ne.symm hkey)]
    · rw [hput]
      simp [hio]

/-- A restore succeeds exactly on the snapshots that are accepted. -/
theorem restoreFrom_ok_iff (snapshot : Bytes) (passphrase : String) (env : OpenEnv C) :
    (∃ e, restoreFrom none snapshot passphrase env = .ok e) ↔
      Accepted snapshot passphrase env := by
  have hverified : (∃ e, restoreFrom none snapshot passphrase env = .ok e) ↔
      ∃ e es, (openLocal snapshot passphrase .recommended env).1 = .ok e ∧
        e.auditVerify = .ok es := by
    simp only [restoreFrom, bind_eq_ok]
    constructor
    · rintro ⟨-, e, he, es, hes, -⟩
      exact ⟨e, es, he, hes⟩
    · rintro ⟨e, es, he, hes⟩
      exact ⟨e, e, he, es, hes, rfl⟩
  set st := Storage.openLog snapshot with hst
  have hget : (Store.mk st none).get keyparamsKey = st.map[keyparamsKey]? := Store.get_eq _ _
  rw [hverified, Accepted, openLocal, openStore, ← hst, hget, masterOf]
  cases st.map[keyparamsKey]? with
  | some record =>
    cases hread : readKeyparams record with
    | error err => simp [hread]
    | ok params =>
      simp only [hread, Option.some.injEq, exists_eq_left']
      exact openCanary_verified_iff _ _ _
  | none =>
    simp only
    rcases put_none_cases st keyparamsKey (encodeKeyparams .recommended env.salt.1) env.paramsIo
      with ⟨hio, st', hput, hmap⟩ | ⟨hio, err, store, hput⟩
    · have hkeys : ∀ key, key ≠ keyparamsKey → st'.map[key]? = st.map[key]? := by
        intro key hkey
        rw [hmap, getElem?_insert_eq, if_neg (Ne.symm hkey)]
      have hcanary : CanaryFits st'.map (C.derive .recommended passphrase env.salt.1) env ↔
          CanaryFits st.map (C.derive .recommended passphrase env.salt.1) env := by
        rw [CanaryFits, CanaryFits, hkeys canaryKey (by decide)]
      rw [hput]
      simp only [show KdfParams.recommended.Valid by decide, hio, if_true, Option.some.injEq,
        exists_eq_left']
      rw [openCanary_verified_iff, hcanary, ChainFits.congr fun key hkey _ => hkeys key hkey]
    · rw [hput]
      simp [hio]

/-- If the restore fails, the directory holds no database: a good snapshot can be restored into it,
and opening it finds nothing. -/
def LeavesNothing (snapshot : Bytes) (passphrase : String) (env : OpenEnv C) : Prop :=
  ∀ err, (restoreInto none snapshot passphrase env).1 = .error err →
    let left := (restoreInto none snapshot passphrase env).2
    left = none ∧
      (∀ good passphrase' env', Accepted (C := C) good passphrase' env' →
        ∃ e : Engine C, (restoreInto left good passphrase' env').1 = .ok e) ∧
      ∀ passphrase' kdf (env' : OpenEnv C),
        openDir left passphrase' kdf env' = openDir none passphrase' kdf env'

theorem leavesNothing_iff (snapshot : Bytes) (passphrase : String) (env : OpenEnv C) :
    LeavesNothing snapshot passphrase env ↔ Accepted snapshot passphrase env := by
  constructor
  · intro h
    rw [← restoreFrom_ok_iff, ← restoreInto_fst]
    cases hr : (restoreInto none snapshot passphrase env).1 with
    | ok e => exact ⟨e, rfl⟩
    | error err => exact absurd (h err hr).1 (restoreInto_snd_ne_none _ _ _ _)
  · intro h err herr
    obtain ⟨e, he⟩ := (restoreFrom_ok_iff snapshot passphrase env).mpr h
    rw [restoreInto_fst, he] at herr
    cases herr

/-- **A failed restore leaves its copy behind**: nothing is left exactly if the snapshot is accepted,
that is, if the restore does not fail. After any other one no restore into the directory
succeeds. -/
theorem restoreInto_leaves_nothing_iff (snapshot : Bytes) (passphrase : String) (env : OpenEnv C) :
    (LeavesNothing snapshot passphrase env ↔ Accepted snapshot passphrase env) ∧
      ∀ good passphrase' (env' : OpenEnv C),
        (restoreInto (restoreInto none snapshot passphrase env).2 good passphrase' env').1 =
          .error .io := by
  refine ⟨leavesNothing_iff snapshot passphrase env, fun good passphrase' env' => ?_⟩
  obtain ⟨wal, hwal⟩ := Option.ne_none_iff_exists'.mp
    (restoreInto_snd_ne_none none snapshot passphrase env)
  rw [hwal]
  rfl

/-! ## A wrong passphrase -/

/-- An instance whose keys are the passphrase, for concrete runs. -/
def Crypto.passworded : Crypto :=
  { Session.Crypto.keyed with derive := fun _ passphrase _ => utf8 passphrase }

def passwordedEnv : OpenEnv Crypto.passworded := ⟨ByteArr.zeros 16, (), .ok, .ok⟩

/-- The log of a new database. -/
def passwordedSnapshot : Bytes := encodeLog (freshBatches "right" .recommended passwordedEnv)

theorem map_passwordedSnapshot : (Storage.openLog passwordedSnapshot).map =
    applyLog ∅ (freshBatches "right" .recommended passwordedEnv) := by
  have hopen := Storage.openLog_encodeLog_append _
    (Session.writable_freshBatches "right" .recommended passwordedEnv) (show Storage.decodeRecord [] = none from rfl)
  rw [List.append_nil] at hopen
  rw [passwordedSnapshot, hopen]

theorem params_passwordedSnapshot : (Storage.openLog passwordedSnapshot).map[keyparamsKey]? =
    some (encodeKeyparams .recommended passwordedEnv.salt.1) := by
  rw [map_passwordedSnapshot, getElem?_freshBatches, if_neg (by decide), if_pos rfl]

theorem canary_passwordedSnapshot : (Storage.openLog passwordedSnapshot).map[canaryKey]? =
    some (fitTo 28 (utf8 "right") ++ canaryPlaintext) := by
  rw [map_passwordedSnapshot, getElem?_freshBatches, if_pos rfl]
  rfl

theorem readKeyparams_passworded :
    readKeyparams (encodeKeyparams .recommended passwordedEnv.salt.1) =
      .ok (.recommended, passwordedEnv.salt.1) :=
  readKeyparams_encodeKeyparams (by decide) (by decide)

theorem openSealed_passworded (mk : Bytes) :
    Crypto.passworded.openSealed (Crypto.passworded.deriveKey mk "canary")
      (fitTo 28 (utf8 "right") ++ canaryPlaintext) canaryKey =
        if fitTo 28 (utf8 "right") = fitTo 28 mk then some canaryPlaintext else none := by
  change (if (fitTo 28 (utf8 "right") ++ canaryPlaintext).take 28 = fitTo 28 mk then
    some ((fitTo 28 (utf8 "right") ++ canaryPlaintext).drop 28) else none) = _
  rw [List.take_left' (length_fitTo _ _), List.drop_left' (length_fitTo _ _)]

theorem masterOf_passwordedSnapshot (passphrase : String) :
    masterOf (Storage.openLog passwordedSnapshot).map passphrase passwordedEnv =
      some (utf8 passphrase) := by
  rw [masterOf, params_passwordedSnapshot]
  simp only [readKeyparams_passworded]
  rfl

theorem canaryFits_passwordedSnapshot (mk : Bytes) :
    CanaryFits (C := Crypto.passworded) (Storage.openLog passwordedSnapshot).map mk passwordedEnv ↔
      fitTo 28 (utf8 "right") = fitTo 28 mk := by
  unfold CanaryFits
  simp only [canary_passwordedSnapshot]
  refine (not_congr (Eq.congr_left (openSealed_passworded mk))).trans ?_
  split <;> simp_all

/-- A restore with a mistyped passphrase: the snapshot is good, and it can no longer be restored. -/
theorem leaves_wrong_passphrase :
    Accepted passwordedSnapshot "right" passwordedEnv ∧
      (restoreInto none passwordedSnapshot "wrong" passwordedEnv).1 = .error .badPassphrase ∧
      ¬ LeavesNothing passwordedSnapshot "wrong" passwordedEnv := by
  have hne : ¬ fitTo 28 (utf8 "right") = fitTo 28 (utf8 "wrong") := by decide
  refine ⟨⟨_, masterOf_passwordedSnapshot _, (canaryFits_passwordedSnapshot _).mpr rfl, [],
    ByteArr.zeros 32, ?_, ?_⟩, ?_, ?_⟩
  · rw [map_passwordedSnapshot]
    decide +kernel
  · rw [map_passwordedSnapshot]
    decide +kernel
  · have hopen : (openLocal passwordedSnapshot "wrong" .recommended passwordedEnv).1 =
        .error .badPassphrase := by
      rw [openLocal, openStore, Store.get_eq, Store.view_of_none rfl, params_passwordedSnapshot]
      simp only [readKeyparams_passworded]
      rw [openCanary, Store.get_eq, Store.view_of_none rfl, canary_passwordedSnapshot]
      simp only
      rw [show Crypto.passworded.derive .recommended "wrong" passwordedEnv.salt.1 =
        utf8 "wrong" from rfl, openSealed_passworded, if_neg hne]
    rw [restoreInto_fst, restoreFrom, hopen]
    rfl
  · rw [leavesNothing_iff]
    rintro ⟨mk, hmk, hcanary, -⟩
    rw [masterOf_passwordedSnapshot] at hmk
    obtain rfl := Option.some.inj hmk
    exact hne ((canaryFits_passwordedSnapshot _).mp hcanary)

end Engine

end Ciphra
