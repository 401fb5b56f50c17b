import Ciphra.Engine.Codec

/-!
# Keys and the layout of the store

`Crypto` is the cryptography the engine is built on: key derivation, the keyed tags that stand for
names and values inside storage keys, sealing, and the hash of the audit chain. The engine relies
on its laws only: what was sealed opens again with the same key and associated data, and tags,
hashes and envelopes have their lengths.

The storage keys follow, each under the source's name for it.
-/

namespace Ciphra

/-- How the master key is derived from the passphrase. -/
inductive KdfParams
  | pbkdf2 (iterations : UInt32)
  | argon2id (memoryKib passes lanes : UInt32)
  deriving DecidableEq, Repr

namespace KdfParams

/-- The recommended default for new databases. -/
def recommended : KdfParams := .argon2id 19456 2 1

/-- The parameters the key derivation accepts; it panics on the others. -/
def Valid : KdfParams → Prop
  | .pbkdf2 iterations => iterations ≠ 0
  | .argon2id _ passes lanes => passes ≠ 0 ∧ lanes ≠ 0

instance : (kdf : KdfParams) → Decidable kdf.Valid
  | .pbkdf2 _ => inferInstanceAs (Decidable (_ ≠ _))
  | .argon2id _ _ _ => inferInstanceAs (Decidable (_ ∧ _))

end KdfParams

/-- The cryptographic operations. `sealWith` is `seal` with the nonce that it draws. -/
structure Crypto where
  MasterKey : Type
  CipherKey : Type
  Nonce : Type
  derive : KdfParams → String → Bytes → MasterKey
  deriveKey : MasterKey → String → CipherKey
  keyedTag : MasterKey → String → Bytes → Bytes
  sealWith : CipherKey → Nonce → Bytes → Bytes → Bytes
  openSealed : CipherKey → Bytes → Bytes → Option Bytes
  sha256 : Bytes → Bytes
  length_keyedTag : ∀ k purpose data, (keyedTag k purpose data).length = 32
  length_sha256 : ∀ data, (sha256 data).length = 32
  /-- An envelope holds a nonce of 12 bytes, the ciphertext and a tag of 16 bytes. -/
  length_sealWith : ∀ k nonce plaintext aad,
    (sealWith k nonce plaintext aad).length = plaintext.length + 28
  openSealed_sealWith : ∀ k nonce plaintext aad,
    openSealed k (sealWith k nonce plaintext aad) aad = some plaintext

attribute [simp] Crypto.length_keyedTag Crypto.length_sha256 Crypto.length_sealWith
  Crypto.openSealed_sealWith

/-! ## Key-derivation parameters -/

def keyparamsMagicV1 : Bytes := [67, 73, 80, 72, 82, 65, 0, 1]
def keyparamsMagicV2 : Bytes := [67, 73, 80, 72, 82, 65, 0, 2]
def kdfPbkdf2 : UInt8 := 1
def kdfArgon2id : UInt8 := 2
def saltLen : ℕ := 16

/-- Key-derivation parameters and salt, in the second version of the format. -/
def encodeKeyparams (kdf : KdfParams) (salt : Bytes) : Bytes :=
  keyparamsMagicV2 ++
    (match kdf with
      | .pbkdf2 iterations => kdfPbkdf2 :: leBytes 4 iterations.toNat
      | .argon2id memoryKib passes lanes =>
        kdfArgon2id :: (leBytes 4 memoryKib.toNat ++ leBytes 4 passes.toNat ++
          leBytes 4 lanes.toNat)) ++ salt

/-- PBKDF2 parameters and salt. -/
def readPbkdf2 (rest : Bytes) : Option (KdfParams × Bytes) :=
  if rest.length < 4 + saltLen then none
  else
    let iterations := UInt32.ofNat (leNat (rest.take 4))
    if iterations = 0 then none else some (.pbkdf2 iterations, rest.drop 4)

/-- Argon2id parameters and salt. -/
def readArgon2id (rest : Bytes) : Option (KdfParams × Bytes) :=
  if rest.length < 12 + saltLen then none
  else
    let memoryKib := UInt32.ofNat (leNat (rest.take 4))
    let passes := UInt32.ofNat (leNat ((rest.drop 4).take 4))
    let lanes := UInt32.ofNat (leNat ((rest.drop 8).take 4))
    if passes = 0 ∨ lanes = 0 then none
    else some (.argon2id memoryKib passes lanes, rest.drop 12)

/-- Parse a keyparams record: the first version implies PBKDF2, the second names its KDF. -/
def readKeyparams (contents : Bytes) : Except EngineError (KdfParams × Bytes) :=
  let parsed :=
    if contents.length < 8 then none
    else if contents.take 8 = keyparamsMagicV1 then readPbkdf2 (contents.drop 8)
    else if contents.take 8 ≠ keyparamsMagicV2 then none
    else
      match contents.drop 8 with
      | [] => none
      | kdfId :: rest =>
        if kdfId = kdfPbkdf2 then readPbkdf2 rest
        else if kdfId = kdfArgon2id then readArgon2id rest
        else none
  match parsed with
  | some r => .ok r
  | none => .error (.corrupt "bad ciphra.keyparams file")

/-- Recorded parameters are read back. -/
theorem readKeyparams_encodeKeyparams {kdf : KdfParams} (hk : kdf.Valid) {salt : Bytes}
    (hs : saltLen ≤ salt.length) : readKeyparams (encodeKeyparams kdf salt) = .ok (kdf, salt) := by
  have h32 : ∀ x : UInt32, leNat (leBytes 4 x.toNat) = x.toNat :=
    fun x => leNat_leBytes_of_lt x.toNat_lt
  have hmagic : ∀ rest : Bytes, (keyparamsMagicV2 ++ rest).take 8 = keyparamsMagicV2 ∧
      (keyparamsMagicV2 ++ rest).drop 8 = rest :=
    fun rest => ⟨List.take_left' rfl, List.drop_left' rfl⟩
  have hlong : ∀ rest : Bytes, ¬ (keyparamsMagicV2 ++ rest).length < 8 := by
    intro rest
    rw [List.length_append, keyparamsMagicV2]
    simp
  have hne : keyparamsMagicV2 ≠ keyparamsMagicV1 := by decide
  cases kdf with
  | pbkdf2 iterations =>
    have hread : readPbkdf2 (leBytes 4 iterations.toNat ++ salt) =
        some (.pbkdf2 iterations, salt) := by
      have hlen : ¬ (leBytes 4 iterations.toNat ++ salt).length < 4 + saltLen := by
        rw [List.length_append, length_leBytes]
        omega
      rw [readPbkdf2, if_neg hlen]
      simp [h32, show iterations ≠ 0 from hk]
    rw [readKeyparams, encodeKeyparams, List.append_assoc]
    simp [hlong, (hmagic _).1, (hmagic _).2, hne, hread, -List.length_append]
  | argon2id memoryKib passes lanes =>
    obtain ⟨hp, hl⟩ : passes ≠ 0 ∧ lanes ≠ 0 := hk
    have hread : readArgon2id (leBytes 4 memoryKib.toNat ++ leBytes 4 passes.toNat ++
        leBytes 4 lanes.toNat ++ salt) = some (.argon2id memoryKib passes lanes, salt) := by
      have hlen : ¬ (leBytes 4 memoryKib.toNat ++ leBytes 4 passes.toNat ++
          leBytes 4 lanes.toNat ++ salt).length < 12 + saltLen := by
        simp only [List.length_append, length_leBytes]
        omega
      have h8 : (leBytes 4 memoryKib.toNat ++ leBytes 4 passes.toNat).length = 8 := by simp
      have h12 : (leBytes 4 memoryKib.toNat ++ leBytes 4 passes.toNat ++
          leBytes 4 lanes.toNat).length = 12 := by simp
      rw [readArgon2id, if_neg hlen, List.drop_left' h12]
      rw [List.append_assoc (leBytes 4 memoryKib.toNat ++ leBytes 4 passes.toNat),
        List.drop_left' h8, List.append_assoc]
      simp [h32, hp, hl]
    rw [readKeyparams, encodeKeyparams, List.append_assoc]
    simp [hlong, (hmagic _).1, (hmagic _).2, hne, hread, show kdfArgon2id ≠ kdfPbkdf2 by decide,
      -List.append_assoc, -List.length_append]

/-! ## Storage keys -/

/-- `\0keyparams`: the plaintext key-derivation parameters. -/
def keyparamsKey : Bytes := [0, 107, 101, 121, 112, 97, 114, 97, 109, 115]

/-- `\0canary`: a sealed marker to detect a wrong passphrase. -/
def canaryKey : Bytes := [0, 99, 97, 110, 97, 114, 121]

/-- `ciphra-canary-v1`. -/
def canaryPlaintext : Bytes :=
  [99, 105, 112, 104, 114, 97, 45, 99, 97, 110, 97, 114, 121, 45, 118, 49]

/-- `\0audit`: the sealed audit head. -/
def auditHeadKey : Bytes := [0, 97, 117, 100, 105, 116]

/-- `a\0`: the sealed audit-chain entries, by sequence number. -/
def auditPrefix : Bytes := [97, 0]

/-- `\0catalog\0`: the sealed schemas, by table tag. -/
def catalogPrefix : Bytes := [0, 99, 97, 116, 97, 108, 111, 103, 0]

/-- `\0seq\0`: the sealed next row ids, by table tag. -/
def seqPrefix : Bytes := [0, 115, 101, 113, 0]

/-- `r\0`: the sealed rows. -/
def rowsPrefix : Bytes := [114, 0]

/-- `x\0`: the equality-index entries. -/
def indexesPrefix : Bytes := [120, 0]

/-- `z\0`: the sealed range-index blobs. -/
def rangesPrefix : Bytes := [122, 0]

def tableTagLen : ℕ := 16

namespace Crypto

variable (C : Crypto) (mk : C.MasterKey)

def tableKey (table : String) : C.CipherKey := C.deriveKey mk ("table:" ++ table)

/-- Opaque identifier for a table inside storage keys. -/
def tableTag (table : String) : Bytes := (C.keyedTag mk "table-name" (utf8 table)).take tableTagLen

def catalogKey (table : String) : Bytes := catalogPrefix ++ C.tableTag mk table

def seqKey (table : String) : Bytes := seqPrefix ++ C.tableTag mk table

def rowPrefix (table : String) : Bytes := rowsPrefix ++ C.tableTag mk table

def indexPrefix (table : String) : Bytes := indexesPrefix ++ C.tableTag mk table

/-- Prefix of all index entries for one column of a table. -/
def indexColumnPrefix (table : String) (col : ℕ) : Bytes := C.indexPrefix mk table ++ beBytes 2 col

/-- The purpose under which the values of a column are tagged. -/
def indexPurpose (table : String) (col : ℕ) : String := "index:" ++ table ++ ":" ++ toString col

/-- Keyed tag of a value of a column. -/
def valueTag (table : String) (col : ℕ) (value : Value) : Bytes :=
  (C.keyedTag mk (indexPurpose table col) (encodeRow [value])).take tableTagLen

/-- Prefix of the index entries for one column value. -/
def indexValuePrefix (table : String) (col : ℕ) (value : Value) : Bytes :=
  C.indexColumnPrefix mk table col ++ C.valueTag mk table col value

/-- Key of the index entry of a row under a value. -/
def indexKey (table : String) (col : ℕ) (value : Value) (rowid : UInt64) : Bytes :=
  C.indexValuePrefix mk table col value ++ beBytes 8 rowid.toNat

def rangePrefix (table : String) : Bytes := rangesPrefix ++ C.tableTag mk table

/-- Key of the sealed range-index blob for one column. -/
def rangeIndexKey (table : String) (col : ℕ) : Bytes := C.rangePrefix mk table ++ beBytes 2 col

/-- Big-endian row id, so that key order is insertion order. -/
def rowKey (table : String) (id : UInt64) : Bytes := C.rowPrefix mk table ++ beBytes 8 id.toNat

@[simp] theorem length_tableTag (table : String) : (C.tableTag mk table).length = 16 := by
  simp [tableTag, tableTagLen]

@[simp] theorem length_valueTag (table : String) (col : ℕ) (value : Value) :
    (C.valueTag mk table col value).length = 16 := by
  simp [valueTag, tableTagLen]

end Crypto

/-- The row id in the trailing 8 bytes of a row key. -/
def rowidFromKey (key : Bytes) : UInt64 := UInt64.ofNat (beNat (key.drop (key.length - 8)))

theorem rowidFromKey_append (p : Bytes) (id : UInt64) :
    rowidFromKey (p ++ beBytes 8 id.toNat) = id := by
  have hid : beNat (beBytes 8 id.toNat) = id.toNat := beNat_beBytes_of_lt id.toNat_lt
  rw [rowidFromKey, List.length_append, length_beBytes, Nat.add_sub_cancel, List.drop_left, hid,
    UInt64.ofNat_toNat]

/-- Key of an entry of the audit chain. -/
def auditKey (seq : UInt64) : Bytes := auditPrefix ++ beBytes 8 seq.toNat

/-- The data cut or padded to a length. -/
def fitTo (n : ℕ) (data : Bytes) : Bytes := (data ++ List.replicate n 0).take n

theorem length_fitTo (n : ℕ) (data : Bytes) : (fitTo n data).length = n := by
  rw [fitTo, List.length_take, List.length_append, List.length_replicate]
  omega

/-- An envelope that hides nothing: the plaintext behind zeros. -/
def clearEnvelope (plaintext : Bytes) : Bytes := List.replicate 28 0 ++ plaintext

theorem length_clearEnvelope (plaintext : Bytes) :
    (clearEnvelope plaintext).length = plaintext.length + 28 := by
  rw [clearEnvelope, List.length_append, List.length_replicate, Nat.add_comm]

/-- Tags and hashes of the concrete instances have 32 bytes. -/
theorem length_fitTo_tag {K : Type} (_ : K) (_ : String) (data : Bytes) :
    (fitTo 32 data).length = 32 :=
  length_fitTo 32 data

/-- An instance that hides nothing, for concrete runs. -/
def Crypto.clear : Crypto where
  MasterKey := Unit
  CipherKey := Unit
  Nonce := Unit
  derive _ _ _ := ()
  deriveKey _ _ := ()
  keyedTag _ _ data := fitTo 32 data
  sealWith _ _ plaintext _ := clearEnvelope plaintext
  openSealed _ sealed _ := some (sealed.drop 28)
  sha256 data := fitTo 32 data
  length_keyedTag := length_fitTo_tag
  length_sha256 := length_fitTo_tag () ""
  length_sealWith _ _ plaintext _ := length_clearEnvelope plaintext
  openSealed_sealWith _ _ _ _ := congrArg some (List.drop_left' List.length_replicate)

end Ciphra
