import Ciphra.Engine.Plan
import Ciphra.Engine.Store

/-!
# The engine

The engine holds a store, the master key and the head of the audit chain. A statement that writes
commits its batch together with an audit entry (`commitAudited`, `commitWithAudit`); inside a
transaction the batch goes to the overlay and the cached head advances with it. `rotateTo` rebuilds
the database under a new passphrase in a scratch log, which then replaces the live one, and
`openStore` is the common tail of every way to open a database.

What the surroundings contribute to an operation is explicit: the time, the nonces and salts that
are drawn, and how appending to the log file ends.
-/

namespace Ciphra

open OrdMap
open Storage (Io)

/-! ## The audit chain -/

/-- One decoded audit-chain entry. -/
structure AuditEntry where
  seq : UInt64
  /-- Seconds since the Unix epoch. -/
  time : UInt64
  kind : UInt8
  /-- Opaque table tag; zeros for statements without a single table. -/
  tableTag : ByteArr 16
  /-- Hash of the committed (sealed) writes of the statement. -/
  writesDigest : ByteArr 32
  /-- The chain root this entry extends. -/
  prevRoot : ByteArr 32
  deriving DecidableEq

namespace AuditEntry

def encode (e : AuditEntry) : Bytes :=
  leBytes 8 e.seq.toNat ++ (leBytes 8 e.time.toNat ++ (e.kind :: (e.tableTag.1 ++
    (e.writesDigest.1 ++ e.prevRoot.1))))

/-- Fixed size of a serialized audit entry. -/
def encodedLen : ℕ := 97

def decode (bytes : Bytes) : Except EngineError AuditEntry :=
  if h : bytes.length = encodedLen then
    .ok {
      seq := UInt64.ofNat (leNat (bytes.take 8))
      time := UInt64.ofNat (leNat ((bytes.drop 8).take 8))
      kind := bytes.getD 16 0
      tableTag := ⟨(bytes.drop 17).take 16, by simp [h, encodedLen]⟩
      writesDigest := ⟨(bytes.drop 33).take 32, by simp [h, encodedLen]⟩
      prevRoot := ⟨bytes.drop 65, by simp [h, encodedLen]⟩ }
  else .error (.corrupt "bad audit entry")

theorem length_encode (e : AuditEntry) : e.encode.length = encodedLen := by
  simp [encode, e.tableTag.2, e.writesDigest.2, e.prevRoot.2, encodedLen]

/-- Entries are read back as they were written. -/
theorem decode_encode (e : AuditEntry) : decode e.encode = .ok e := by
  have h64 : ∀ x : UInt64, leNat (leBytes 8 x.toNat) = x.toNat :=
    fun x => leNat_leBytes_of_lt x.toNat_lt
  obtain ⟨seq, time, kind, ⟨tag, htag⟩, ⟨digest, hdigest⟩, ⟨root, hroot⟩⟩ := e
  rw [decode, dif_pos (length_encode _)]
  simp only [encode, Except.ok.injEq, AuditEntry.mk.injEq, Subtype.mk.injEq]
  have h16 : ∀ rest, (leBytes 8 seq.toNat ++ (leBytes 8 time.toNat ++ rest)).drop 16 = rest := by
    intro rest
    rw [← List.append_assoc, List.drop_left' (by simp)]
  have h17 : (leBytes 8 seq.toNat ++ (leBytes 8 time.toNat ++ (kind :: (tag ++ (digest ++
      root))))).drop 17 = tag ++ (digest ++ root) := by
    rw [show 17 = 16 + 1 from rfl, ← List.drop_drop, h16]
    rfl
  refine ⟨?_, ?_, ?_, ?_, ?_, ?_⟩
  · rw [List.take_left' (length_leBytes _ _), h64, UInt64.ofNat_toNat]
  · rw [List.drop_left' (length_leBytes _ _), List.take_left' (length_leBytes _ _), h64,
      UInt64.ofNat_toNat]
  · rw [List.getD_eq_getElem?_getD, ← List.getElem?_drop (i := 16) (j := 0), h16]
    rfl
  · rw [h17, List.take_left' htag]
  · rw [show 33 = 17 + 16 from rfl, ← List.drop_drop, h17, List.drop_left' htag,
      List.take_left' hdigest]
  · rw [show 65 = 17 + (16 + 32) from rfl, ← List.drop_drop, h17, ← List.drop_drop,
      List.drop_left' htag, List.drop_left' hdigest]

end AuditEntry

/-- The bytes a batch is hashed as: for each operation a delete flag, the length of the key, the
key, the length of the value and the value. -/
def digestInput (batch : Batch) : Bytes :=
  batch.flatMap fun op =>
    match op with
    | .put key value => 0 :: (leBytes 8 key.length ++ key ++ leBytes 8 value.length ++ value)
    | .delete key => 1 :: (leBytes 8 key.length ++ key ++ leBytes 8 0)

/-- Sequence number and root of the audit chain. -/
abbrev AuditHead := UInt64 × ByteArr 32

/-- The head of an empty chain. -/
def genesis : AuditHead := (0, ByteArr.zeros 32)

/-- An open database. -/
structure Engine (C : Crypto) where
  store : Store
  master : C.MasterKey
  /-- The data directory is local. -/
  isLocal : Bool
  /-- Cached audit head: next sequence number, current chain root. -/
  auditHead : AuditHead
  /-- Audit head snapshot taken at `BEGIN`, restored on `ROLLBACK`. -/
  txnAuditHead : Option AuditHead
  /-- What filtered statements told the index advisor. Never persisted. -/
  telemetry : List QueryNote

/-- What the surroundings contribute to a statement. -/
structure Env (C : Crypto) where
  time : UInt64
  nonces : ℕ → C.Nonce
  io : Io
  platform : Platform

namespace Crypto

variable (C : Crypto)

/-- SHA-256 with its length. -/
def hash (b : Bytes) : ByteArr 32 := ⟨C.sha256 b, C.length_sha256 b⟩

/-- The chain root after an entry. -/
def entryRoot (e : AuditEntry) : ByteArr 32 := C.hash e.encode

/-- Hash of a batch: binds an audit entry to the sealed bytes the statement committed. -/
def digestBatch (batch : Batch) : ByteArr 32 := C.hash (digestInput batch)

/-- Seal the writes in order, each put drawing the next nonce. -/
def sealWrites : (ℕ → C.Nonce) → List (Unsealed C) → Batch
  | _, [] => []
  | nonces, .put key cipher plain :: rest =>
    .put key (C.sealWith cipher (nonces 0) plain key) :: sealWrites (fun n => nonces (n + 1)) rest
  | nonces, .delete key :: rest => .delete key :: sealWrites nonces rest

/-- The table tag of an audit entry. -/
def auditTag (mk : C.MasterKey) (table : String) : ByteArr 16 :=
  ⟨C.tableTag mk table, C.length_tableTag mk table⟩

/-- The plaintext of the stored audit head. -/
def headBytes (head : AuditHead) : Bytes := leBytes 8 head.1.toNat ++ head.2.1

@[simp] theorem length_headBytes (head : AuditHead) : (headBytes head).length = 40 := by
  simp [headBytes, head.2.2]

/-- The two writes of an audit entry: the entry and the new head. -/
def auditWrites (mk : C.MasterKey) (entry : AuditEntry) : List (Unsealed C) :=
  [.put (auditKey entry.seq) (C.deriveKey mk "audit") entry.encode,
    .put auditHeadKey (C.deriveKey mk "audit") (headBytes (entry.seq + 1, C.entryRoot entry))]

end Crypto

namespace Engine

variable {C : Crypto}

/-- The audit entry of a batch. -/
def nextEntry (e : Engine C) (time : UInt64) (kind : UInt8) (tableTag : ByteArr 16)
    (writesDigest : ByteArr 32) : AuditEntry :=
  { seq := e.auditHead.1, time, kind, tableTag, writesDigest, prevRoot := e.auditHead.2 }

/-- Append an audit entry for `kind` to `batch` and commit everything. The nonces from `drawn` on
are still fresh. -/
def commitWithAudit (e : Engine C) (env : Env C) (drawn : ℕ) (kind : UInt8)
    (tableTag : ByteArr 16) (writesDigest : ByteArr 32) (batch : Batch) :
    Except EngineError Unit × Engine C :=
  let entry := e.nextEntry env.time kind tableTag writesDigest
  let audit := C.sealWrites (fun n => env.nonces (drawn + n)) (C.auditWrites e.master entry)
  match e.store.commit (batch ++ audit) env.io with
  | (.ok (), store) => (.ok (), { e with store, auditHead := (entry.seq + 1, C.entryRoot entry) })
  | (.error err, store) => (.error (.storage err), { e with store })

/-- Commit a statement's writes together with its audit entry. Statements that change nothing do
not advance the chain. -/
def commitAudited (e : Engine C) (env : Env C) (plan : Plan C) :
    Except EngineError Unit × Engine C :=
  if plan.writes.isEmpty then (.ok (), e)
  else
    let batch := C.sealWrites env.nonces plan.writes
    e.commitWithAudit env plan.writes.length plan.kind (C.auditTag e.master plan.table)
      (C.digestBatch batch) batch

/-- Run a program of the engine on the store, keeping its notes for the advisor. -/
def read {α : Type} (e : Engine C) (q : Read α) : Except EngineError α × Engine C :=
  (q.run e.store.reader, { e with telemetry := e.telemetry ++ q.notes e.store.reader })

def beginTransaction (e : Engine C) : Except EngineError QueryResult × Engine C :=
  if e.store.inTransaction then (.error (.schema "a transaction is already open"), e)
  else (.ok .begin, { e with txnAuditHead := some e.auditHead, store := e.store.begin })

def commitTransaction (e : Engine C) (io : Io) : Except EngineError QueryResult × Engine C :=
  if e.store.inTransaction then
    match e.store.commitTransaction io with
    | (.ok (), store) => (.ok .committed, { e with store, txnAuditHead := none })
    | (.error err, store) => (.error (.storage err), { e with store })
  else (.error (.schema "no transaction is open"), e)

def rollbackTransaction (e : Engine C) : Except EngineError QueryResult × Engine C :=
  if e.store.inTransaction then
    let store := e.store.rollbackTransaction
    match e.txnAuditHead with
    | some head => (.ok .rolledBack, { e with store, txnAuditHead := none, auditHead := head })
    | none => (.ok .rolledBack, { e with store })
  else (.error (.schema "no transaction is open"), e)

/-- Execute one statement. -/
def executeStatement (e : Engine C) (env : Env C) (statement : Statement) :
    Except EngineError QueryResult × Engine C :=
  match program C e.master statement with
  | .begin => e.beginTransaction
  | .commit => e.commitTransaction env.io
  | .rollback => e.rollbackTransaction
  | .query q => e.read (q env.platform)
  | .mutate q =>
    match e.read q with
    | (.error err, e) => (.error err, e)
    | (.ok plan, e) =>
      match e.commitAudited env plan with
      | (.ok (), e) => (.ok plan.result, e)
      | (.error err, e) => (.error err, e)

/-! ## Verifying the chain -/

/-- Check the links of the chain from the `n`-th entry on, which must extend `root`. -/
def verifyEntries (k : C.CipherKey) :
    List (Bytes × Bytes) → ℕ → ByteArr 32 → Except EngineError (List AuditEntry × ByteArr 32)
  | [], _, root => .ok ([], root)
  | (key, sealed) :: rest, n, root =>
    match C.openSealed k sealed key with
    | none => .error (.audit "audit entry failed authentication")
    | some plain => do
      let entry ← AuditEntry.decode plain
      if entry.seq ≠ UInt64.ofNat n then
        .error (.audit ("audit chain has a gap: expected seq " ++ toString n ++ ", found " ++
          toString entry.seq.toNat))
      else if entry.prevRoot ≠ root then
        .error (.audit ("audit entry " ++ toString entry.seq.toNat ++
          " does not extend the previous root"))
      else do
        let (entries, last) ← verifyEntries k rest (n + 1) (C.entryRoot entry)
        pure (entry :: entries, last)

/-- Recompute the audit chain from genesis and check every link. -/
def auditVerify (e : Engine C) : Except EngineError (List AuditEntry) := do
  let (entries, root) ← verifyEntries (C.deriveKey e.master "audit")
    (e.store.scanPrefix auditPrefix) 0 (ByteArr.zeros 32)
  if (UInt64.ofNat entries.length, root) ≠ e.auditHead then
    .error (.audit "audit head does not match the recomputed chain")
  else pure entries

/-! ## Opening -/

/-- What the surroundings contribute to opening a database: the salt and the nonce of a new one,
and how the appends of its two records end. -/
structure OpenEnv (C : Crypto) where
  salt : ByteArr 16
  nonce : C.Nonce
  paramsIo : Io
  canaryIo : Io

/-- The stored audit head. -/
def readHead (k : C.CipherKey) (sealed : Bytes) : Except EngineError AuditHead :=
  match C.openSealed k sealed auditHeadKey with
  | none => .error .crypto
  | some plain =>
    if h : plain.length = 40 then
      .ok (UInt64.ofNat (leNat (plain.take 8)), ⟨plain.drop 8, by simp [h]⟩)
    else .error (.corrupt "bad audit head")

/-- The last part of opening: load the audit head. -/
def openHead (store : Store) (isLocal : Bool) (master : C.MasterKey) :
    Except EngineError (Engine C) := do
  let auditHead ← match store.get auditHeadKey with
    | none => pure genesis
    | some sealed => readHead (C.deriveKey master "audit") sealed
  pure { store, master, isLocal, auditHead, txnAuditHead := none, telemetry := [] }

/-- Check the canary, or write it into a new database, then load the audit head. -/
def openCanary (store : Store) (isLocal : Bool) (master : C.MasterKey) (env : OpenEnv C) :
    Except EngineError (Engine C) × Store :=
  let key := C.deriveKey master "canary"
  match store.get canaryKey with
  | some sealed =>
    match C.openSealed key sealed canaryKey with
    | none => (.error .badPassphrase, store)
    | some _ => (openHead store isLocal master, store)
  | none =>
    match store.put canaryKey (C.sealWith key env.nonce canaryPlaintext canaryKey) env.canaryIo with
    | (.error err, store) => (.error (.storage err), store)
    | (.ok (), store) => (openHead store isLocal master, store)

/-- Shared tail of every open path: resolve the key-derivation parameters, derive the master key,
check the canary, load the audit head. -/
def openStore (store : Store) (isLocal : Bool) (passphrase : String) (kdf : KdfParams)
    (env : OpenEnv C) : Except EngineError (Engine C) × Store :=
  match store.get keyparamsKey with
  | some record =>
    match readKeyparams record with
    | .error err => (.error err, store)
    | .ok (kdf, salt) => openCanary store isLocal (C.derive kdf passphrase salt) env
  | none =>
    match store.put keyparamsKey (encodeKeyparams kdf env.salt.1) env.paramsIo with
    | (.error err, store) => (.error (.storage err), store)
    | (.ok (), store) =>
      if kdf.Valid then openCanary store isLocal (C.derive kdf passphrase env.salt.1) env
      else (.error .panicked, store)

/-- Open the log file of a local database. -/
def openLocal (file : Bytes) (passphrase : String) (kdf : KdfParams) (env : OpenEnv C) :
    Except EngineError (Engine C) × Store :=
  openStore ⟨Storage.openLog file, none⟩ true passphrase kdf env

/-! ## Rotation -/

/-- What the surroundings contribute to a rotation: a salt and nonces for the new database, the
nonces of each of its batches, the time, the nonce for reopening it (never drawn), and whether some
file operation before the switch fails. -/
structure RotateEnv (C : Crypto) where
  openEnv : OpenEnv C
  nonces : ℕ → ℕ → C.Nonce
  time : UInt64
  fails : Bool
  platform : Platform

/-- Commit the rebuilt tables, one batch for each, the `n`-th with its own nonces. -/
def commitTables (master : C.MasterKey) (nonces : ℕ → ℕ → C.Nonce) :
    List TableSnapshot → ℕ → Store → Except EngineError Store
  | [], _, store => .ok store
  | t :: rest, n, store =>
    match store.commit (C.sealWrites (nonces n) (rebuildTable C master t)) .ok with
    | (.error err, _) => .error (.storage err)
    | (.ok (), store) => commitTables master nonces rest (n + 1) store

/-- Build the database under the new passphrase in a scratch log, from what `e` reads. -/
def buildRotated (e : Engine C) (env : RotateEnv C) (newPassphrase : String) (kdf : KdfParams) :
    Except EngineError (Engine C) := do
  let tables ← (snapshot C e.master).run e.store.reader
  if env.fails then .error .io
  else do
    let fresh ← (openLocal [] newPassphrase kdf env.openEnv).1
    let store ← commitTables fresh.master env.nonces tables 0 fresh.store
    let audit ← (carryAudit C e.master fresh.master).run e.store.reader
    match store.commit (C.sealWrites (env.nonces tables.length) audit) .ok with
    | (.error err, _) => .error (.storage err)
    | (.ok (), store) =>
      let fresh := { fresh with store, auditHead := e.auditHead }
      let rotated := fresh.commitWithAudit
        ⟨env.time, env.nonces (tables.length + 1), .ok, env.platform⟩ 0 AuditKind.rotate (ByteArr.zeros 16)
        (ByteArr.zeros 32) []
      rotated.1.map fun _ => rotated.2

/-- Re-encrypt the whole database under a new passphrase. The scratch log replaces the live one,
and the database is opened again from it. -/
def rotateTo (e : Engine C) (env : RotateEnv C) (newPassphrase : String) (kdf : KdfParams) :
    Except EngineError Unit × Engine C :=
  if e.isLocal then
    match e.buildRotated env newPassphrase kdf with
    | .error err => (.error err, e)
    | .ok fresh =>
      let wal := fresh.store.backend.wal
      match (openLocal wal newPassphrase KdfParams.recommended env.openEnv).1 with
      | .error err =>
        (.error err, { e with store := { e.store with backend := { e.store.backend with wal } } })
      | .ok reopened => (.ok (), reopened)
  else
    (.error (.schema ("key rotation runs on the host that owns the database file; " ++
      "open the data directory locally to rotate")), e)

end Engine

end Ciphra
