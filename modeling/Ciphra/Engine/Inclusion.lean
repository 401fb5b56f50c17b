import Ciphra.Engine.Audit
import Ciphra.Foundations.Merkle

/-!
# Inclusion proofs for the audit chain

The entries of the audit chain are the leaves of a hash tree. An inclusion proof gives the siblings
on the way from one entry to the root; checking it needs neither the database nor the passphrase.

`verifyInclusion_auditInclusionProof` says that the proofs the engine hands out are accepted.
`eq_of_verifyInclusion` says that nothing else is: index, total and siblings are the adversary's,
and the hash is only assumed to have no collision among the inputs that building the tree and
checking the proof hash.
-/

namespace Ciphra

/-- The sibling hashes on the path from the leaf of one entry up to the root. -/
structure MerkleProof where
  /-- Position of the proved entry. -/
  index : UInt64
  /-- Total number of entries the tree was built over. -/
  total : UInt64
  siblings : List (ByteArr 32)
  deriving DecidableEq

/-- What is hashed for a leaf. -/
def leafInput (entryBytes : Bytes) : Bytes := 0 :: entryBytes

/-- What is hashed for an internal node. -/
def nodeInput (left right : ByteArr 32) : Bytes := 1 :: (left.1 ++ right.1)

/-- `ciphra/merkle/empty/v1`: what is hashed for the root of an empty tree. -/
def emptyInput : Bytes :=
  [99, 105, 112, 104, 114, 97, 47, 109, 101, 114, 107, 108, 101, 47, 101, 109, 112, 116, 121, 47,
    118, 49]

namespace Crypto

variable (C : Crypto)

/-- Leaf hash of an audit entry, domain-separated from internal nodes. -/
def merkleLeaf (entryBytes : Bytes) : ByteArr 32 := C.hash (leafInput entryBytes)

/-- Internal node hash over its two children. -/
def merkleNode (left right : ByteArr 32) : ByteArr 32 := C.hash (nodeInput left right)

/-- The root over the leaves. -/
def merkleRootOf : List (ByteArr 32) → ByteArr 32
  | [] => C.hash emptyInput
  | leaf :: leaves => Merkle.root C.merkleNode leaf leaves

/-- Leaf hashes of audit entries, in order. -/
def leavesOf (entries : List AuditEntry) : List (ByteArr 32) :=
  entries.map fun e => C.merkleLeaf e.encode

/-- Verify an inclusion proof for `entry` against `root`. -/
def verifyInclusion (entry : AuditEntry) (proof : MerkleProof) (root : ByteArr 32) : Bool :=
  if proof.index ≠ entry.seq ∨ proof.total ≤ proof.index then false
  else
    match Merkle.walk C.merkleNode proof.index.toNat proof.total.toNat (C.merkleLeaf entry.encode)
        proof.siblings with
    | none => false
    | some (hash, rest) => rest.isEmpty && hash == root

end Crypto

namespace Engine

variable {C : Crypto} (e : Engine C)

/-- Leaf hashes of every audit entry, in order. -/
def auditLeaves : Except EngineError (List (ByteArr 32)) := do
  let entries ← e.auditVerify
  pure (C.leavesOf entries)

/-- The root over all audit entries. -/
def auditMerkleRoot : Except EngineError (ByteArr 32) := do
  let leaves ← e.auditLeaves
  pure (C.merkleRootOf leaves)

/-- The audit entry at `index`, its inclusion proof and the root it leads to. -/
def auditInclusionProof (index : UInt64) :
    Except EngineError (AuditEntry × MerkleProof × ByteArr 32) := do
  let entries ← e.auditVerify
  match entries[index.toNat]? with
  | none =>
    .error (.audit ("no audit entry at index " ++ toString index.toNat ++ " (chain has " ++
      toString entries.length ++ " entries)"))
  | some entry =>
    let leaves := C.leavesOf entries
    let levels := Merkle.levels C.merkleNode leaves
    let root := (levels.getLastD []).headD (C.merkleLeaf entry.encode)
    let proof := {
      index
      total := UInt64.ofNat entries.length
      siblings := Merkle.path levels.dropLast index.toNat }
    pure (entry, proof, root)

end Engine

variable {C : Crypto}

/-! ## Completeness -/

/-- The entries of a verified chain are numbered from the first one on. -/
theorem seq_of_verifyEntries {k : C.CipherKey} {pairs : List (Bytes × Bytes)} {n : ℕ}
    {root last : ByteArr 32} {entries : List AuditEntry}
    (h : Engine.verifyEntries k pairs n root = .ok (entries, last)) {i : ℕ} {e : AuditEntry}
    (he : entries[i]? = some e) : e.seq = UInt64.ofNat (n + i) := by
  induction pairs generalizing n root entries i with
  | nil =>
    cases h
    simp at he
  | cons p pairs ih =>
    obtain ⟨key, sealed⟩ := p
    rw [Engine.verifyEntries] at h
    split at h
    · cases h
    · obtain ⟨entry, -, h⟩ := bind_eq_ok.mp h
      split at h
      · cases h
      · rename_i hseq
        split at h
        · cases h
        · obtain ⟨⟨rest, last'⟩, hrest, h⟩ := bind_eq_ok.mp h
          cases h
          cases i with
          | zero =>
            obtain rfl : entry = e := by simpa using he
            exact not_not.mp hseq
          | succ i =>
            rw [ih hrest he]
            congr 1
            omega

theorem seq_of_auditVerify {e : Engine C} {entries : List AuditEntry}
    (h : e.auditVerify = .ok entries) {i : ℕ} {entry : AuditEntry}
    (he : entries[i]? = some entry) : entry.seq = UInt64.ofNat i := by
  rw [Engine.auditVerify] at h
  obtain ⟨⟨entries', root⟩, hentries, h⟩ := bind_eq_ok.mp h
  simp only at h
  split at h
  · cases h
  · cases h
    rw [seq_of_verifyEntries hentries he, Nat.zero_add]

/-- **Every entry of a verified chain has an accepted proof.** The verifier's walk consumes exactly
the siblings the prover's walk has emitted, and ends at the root over the whole chain. A chain is a
vector in memory, so its length is a number of 64 bits. -/
theorem verifyInclusion_auditInclusionProof {e : Engine C} {entries : List AuditEntry}
    (hv : e.auditVerify = .ok entries) (hlen : entries.length < 2 ^ 64) {index : UInt64}
    (hi : index.toNat < entries.length) :
    ∃ entry proof root, e.auditInclusionProof index = .ok (entry, proof, root) ∧
      entries[index.toNat]? = some entry ∧ e.auditMerkleRoot = .ok root ∧
      Merkle.walk C.merkleNode index.toNat entries.length (C.merkleLeaf entry.encode)
        proof.siblings = some (root, []) ∧
      C.verifyInclusion entry proof root = true := by
  have hentry : entries[index.toNat]? = some entries[index.toNat] := List.getElem?_eq_getElem hi
  generalize entries[index.toNat] = entry at hentry
  have hleaf : (C.leavesOf entries)[index.toNat]? = some (C.merkleLeaf entry.encode) := by
    rw [Crypto.leavesOf, List.getElem?_map, hentry]
    rfl
  have hlength : (C.leavesOf entries).length = entries.length := List.length_map _
  have hwalk := Merkle.walk_path C.merkleNode hleaf (C.merkleLeaf entry.encode) []
  rw [List.append_nil, hlength] at hwalk
  have htotal : (UInt64.ofNat entries.length).toNat = entries.length :=
    UInt64.toNat_ofNat_of_lt' hlen
  have hseq : index = entry.seq := by
    rw [seq_of_auditVerify hv hentry, UInt64.ofNat_toNat]
  refine ⟨entry, _, _, by rw [Engine.auditInclusionProof, hv, ok_bind, hentry]; rfl, hentry, ?_,
    hwalk, ?_⟩
  · obtain ⟨first, rest, hne⟩ : ∃ a l, C.leavesOf entries = a :: l :=
      List.exists_cons_of_length_pos (by omega)
    rw [Engine.auditMerkleRoot, Engine.auditLeaves, hv]
    simp only [ok_bind, hne, Crypto.merkleRootOf, Merkle.root]
    -- the default stands for a panic: the walk ends at the same digest whatever it is
    have hroot := Merkle.walk_path C.merkleNode hleaf first []
    rw [List.append_nil, hlength, hwalk, hne] at hroot
    exact congrArg Except.ok (Prod.ext_iff.mp (Option.some.inj hroot)).1.symm
  · have hle : ¬ UInt64.ofNat entries.length ≤ index := by
      rw [UInt64.le_iff_toNat_le, htotal]
      omega
    rw [Crypto.verifyInclusion, if_neg (by simp [hseq.symm, hle])]
    simp only [htotal, hwalk]
    simp

/-- The entry that follows a head. -/
def entryAt (head : AuditHead) : AuditEntry :=
  ⟨head.1, 0, AuditKind.insert, ByteArr.zeros 16, ByteArr.zeros 32, head.2⟩

/-- A chain of three entries: the last one is promoted on its way up. -/
theorem verifyInclusion_auditInclusionProof_promoted :
    ∃ (e : Engine Crypto.clear) (entries : List AuditEntry), entries.length = 3 ∧
      e.auditVerify = .ok entries ∧ ∃ entry proof root,
        e.auditInclusionProof 2 = .ok (entry, proof, root) ∧ e.auditMerkleRoot = .ok root ∧
        Crypto.clear.verifyInclusion entry proof root = true := by
  obtain ⟨es₀, h₀, hes₀⟩ := Session.chained_fresh (C := Crypto.clear) "passphrase" .recommended
    Session.clearOpenEnv
  obtain rfl := List.map_eq_nil_iff.mp hes₀
  have hnext : ∀ {m : ByteMap} {es : List AuditEntry} {n : ℕ}, ChainIn Crypto.clear m () es →
      es.length = n → n < 3 → ∃ m' es', ChainIn Crypto.clear m' () es' ∧ es'.length = n + 1 := by
    intro m es n h hn hlt
    have hseq : (entryAt (chainHead Crypto.clear es)).seq = (chainHead Crypto.clear es).1 := rfl
    exact ⟨_, _, h.audited (by omega) DataWrites.nil (fun _ => ()) (fun _ => ()) hseq rfl,
      by simp [hn]⟩
  obtain ⟨m₁, es₁, h₁, hn₁⟩ := hnext h₀ rfl (by decide)
  obtain ⟨m₂, es₂, h₂, hn₂⟩ := hnext h₁ hn₁ (by decide)
  obtain ⟨m₃, es₃, h₃, hn₃⟩ := hnext h₂ hn₂ (by decide)
  let e : Engine Crypto.clear := Engine.opened ⟨⟨m₃, []⟩, none⟩ () (chainHead Crypto.clear es₃)
  have hv : e.auditVerify = .ok es₃ := auditVerify_eq h₃ rfl
  have hi : (2 : UInt64).toNat < es₃.length := by
    rw [hn₃]
    decide
  obtain ⟨entry, proof, root, hproof, -, hroot, -, haccept⟩ :=
    verifyInclusion_auditInclusionProof hv h₃.bound hi
  exact ⟨e, es₃, hn₃, hv, entry, proof, root, hproof, hroot, haccept⟩

/-! ## Soundness -/

/-- What building the tree over the entries hashes. -/
def Crypto.treeInputs (C : Crypto) (entries : List AuditEntry) : List Bytes :=
  emptyInput :: (entries.map (fun e => leafInput e.encode) ++
    (Merkle.treeJoins C.merkleNode (C.leavesOf entries)).map fun p => nodeInput p.1 p.2)

/-- What checking a proof hashes. -/
def Crypto.proofInputs (C : Crypto) (entry : AuditEntry) (proof : MerkleProof) : List Bytes :=
  leafInput entry.encode :: (Merkle.walkJoins C.merkleNode proof.index.toNat proof.total.toNat
    (C.merkleLeaf entry.encode) proof.siblings).map fun p => nodeInput p.1 p.2

theorem encode_injective : Function.Injective AuditEntry.encode := by
  intro a b h
  have hdecode := AuditEntry.decode_encode a
  rw [h, AuditEntry.decode_encode] at hdecode
  exact (Except.ok.inj hdecode).symm

theorem nodeInput_inj {a b c d : ByteArr 32} (h : nodeInput a b = nodeInput c d) :
    a = c ∧ b = d := by
  obtain ⟨hl, hr⟩ := List.append_inj (List.cons.inj h).2 (a.2.trans c.2.symm)
  exact ⟨Subtype.ext hl, Subtype.ext hr⟩

section

variable {entries : List AuditEntry} {entry : AuditEntry} {proof : MerkleProof}

/-- A hash that is the hash of another input has the same input. -/
theorem eq_of_hash_eq (hinj : Set.InjOn C.sha256
      {x | x ∈ C.treeInputs entries ++ C.proofInputs entry proof}) {x y : Bytes}
    (hx : x ∈ C.treeInputs entries ++ C.proofInputs entry proof)
    (hy : y ∈ C.treeInputs entries ++ C.proofInputs entry proof) (h : C.hash x = C.hash y) :
    x = y := hinj hx hy (congrArg Subtype.val h)

theorem leafInput_mem {e : AuditEntry} (he : e ∈ entries) :
    leafInput e.encode ∈ C.treeInputs entries ++ C.proofInputs entry proof := by
  refine List.mem_append_left _ (List.mem_cons_of_mem _ (List.mem_append_left _ ?_))
  exact List.mem_map.mpr ⟨e, he, rfl⟩

theorem treeJoin_mem {p : ByteArr 32 × ByteArr 32}
    (hp : p ∈ Merkle.treeJoins C.merkleNode (C.leavesOf entries)) :
    nodeInput p.1 p.2 ∈ C.treeInputs entries ++ C.proofInputs entry proof := by
  refine List.mem_append_left _ (List.mem_cons_of_mem _ (List.mem_append_right _ ?_))
  exact List.mem_map.mpr ⟨p, hp, rfl⟩

theorem walkJoin_mem {p : ByteArr 32 × ByteArr 32} (hp : p ∈ Merkle.walkJoins C.merkleNode
      proof.index.toNat proof.total.toNat (C.merkleLeaf entry.encode) proof.siblings) :
    nodeInput p.1 p.2 ∈ C.treeInputs entries ++ C.proofInputs entry proof :=
  List.mem_append_right _ (List.mem_cons_of_mem _ (List.mem_map.mpr ⟨p, hp, rfl⟩))

theorem entryInput_mem : leafInput entry.encode ∈
    C.treeInputs entries ++ C.proofInputs entry proof :=
  List.mem_append_right _ List.mem_cons_self

/-- A join of the verifier that is a digest of the tree joins digests of the tree. -/
theorem digest_of_walkJoin (hinj : Set.InjOn C.sha256
      {x | x ∈ C.treeInputs entries ++ C.proofInputs entry proof})
    {p : ByteArr 32 × ByteArr 32} (hp : p ∈ Merkle.walkJoins C.merkleNode
      proof.index.toNat proof.total.toNat (C.merkleLeaf entry.encode) proof.siblings)
    (h : Merkle.Digest C.merkleNode (C.leavesOf entries) (C.merkleNode p.1 p.2)) :
    Merkle.Digest C.merkleNode (C.leavesOf entries) p.1 ∧
      Merkle.Digest C.merkleNode (C.leavesOf entries) p.2 := by
  rcases h.cases with hleaf | ⟨q, hq, heq, h1, h2⟩
  · obtain ⟨e, he, heq⟩ := List.mem_map.mp hleaf
    have := eq_of_hash_eq hinj (leafInput_mem he) (walkJoin_mem hp) heq
    cases this
  · obtain ⟨ha, hb⟩ := nodeInput_inj (eq_of_hash_eq hinj (walkJoin_mem hp) (treeJoin_mem hq) heq)
    exact ⟨ha ▸ h1, hb ▸ h2⟩

/-- **Only entries of the list have accepted proofs**, each at its own position. -/
theorem eq_of_verifyInclusion (hseq : ∀ (i : ℕ) (e : AuditEntry), entries[i]? = some e →
      e.seq.toNat = i)
    (hinj : Set.InjOn C.sha256 {x | x ∈ C.treeInputs entries ++ C.proofInputs entry proof})
    (h : C.verifyInclusion entry proof (C.merkleRootOf (C.leavesOf entries)) = true) :
    entry.seq.toNat < entries.length ∧ entries[entry.seq.toNat]? = some entry := by
  rw [Crypto.verifyInclusion] at h
  split at h
  · cases h
  split at h
  · cases h
  rename_i hash rest hwalk
  obtain ⟨-, hroot⟩ := Bool.and_eq_true_iff.mp h
  obtain rfl := eq_of_beq hroot
  cases hentries : entries with
  | nil =>
    -- the root of the empty tree is the hash of neither a leaf nor a node
    have hempty : emptyInput ∈ C.treeInputs entries ++ C.proofInputs entry proof :=
      List.mem_append_left _ List.mem_cons_self
    have hroot : C.merkleRootOf (C.leavesOf entries) = C.hash emptyInput := by rw [hentries]; rfl
    rw [hroot] at hwalk
    rcases Merkle.walk_eq_some _ hwalk with heq | ⟨p, hp, heq⟩
    · have := eq_of_hash_eq hinj hempty entryInput_mem heq
      simp [emptyInput, leafInput] at this
    · have := eq_of_hash_eq hinj hempty (walkJoin_mem hp) heq
      simp [emptyInput, nodeInput] at this
  | cons first others =>
    have hdigest : Merkle.Digest C.merkleNode (C.leavesOf entries)
        (C.merkleRootOf (C.leavesOf entries)) := by
      rw [hentries]
      exact Merkle.digest_root _ _ _
    rw [← hentries]
    have hleaf := Merkle.mem_of_walk _ hwalk hdigest fun p hp => digest_of_walkJoin hinj hp
    rcases hleaf.cases with hmem | ⟨q, hq, heq, -, -⟩
    · obtain ⟨e, he, heq⟩ := List.mem_map.mp hmem
      have hinput := eq_of_hash_eq hinj (leafInput_mem he) entryInput_mem heq
      obtain rfl := encode_injective (List.cons.inj hinput).2
      obtain ⟨i, hi⟩ := List.mem_iff_getElem?.mp he
      rw [hseq i e hi]
      exact ⟨(List.getElem?_eq_some_iff.mp hi).1, hi⟩
    · have := eq_of_hash_eq hinj entryInput_mem (treeJoin_mem hq) heq
      cases this

end

def firstEntry : AuditEntry := entryAt genesis

def secondEntry : AuditEntry := entryAt (1, ByteArr.zeros 32)

/-- The proof for the second of two entries. -/
def secondProof : MerkleProof := ⟨1, 2, [Crypto.clear.merkleLeaf firstEntry.encode]⟩

theorem eq_of_verifyInclusion_second :
    [firstEntry, secondEntry][secondEntry.seq.toNat]? = some secondEntry ∧
      Crypto.clear.verifyInclusion secondEntry secondProof
        (Crypto.clear.merkleRootOf (Crypto.clear.leavesOf [firstEntry, secondEntry])) = true := by
  have hjoins : Merkle.treeJoins Crypto.clear.merkleNode
      (Crypto.clear.leavesOf [firstEntry, secondEntry]) =
        [(Crypto.clear.merkleLeaf firstEntry.encode, Crypto.clear.merkleLeaf secondEntry.encode)] := by
    rw [Merkle.treeJoins, Merkle.levels_of_lt _ (by decide), Merkle.levels_of_le _ (by decide)]
    rfl
  have hwalk : Merkle.walkJoins Crypto.clear.merkleNode secondProof.index.toNat
      secondProof.total.toNat (Crypto.clear.merkleLeaf secondEntry.encode) secondProof.siblings =
        [(Crypto.clear.merkleLeaf firstEntry.encode, Crypto.clear.merkleLeaf secondEntry.encode)] := by
    rw [Merkle.walkJoins.eq_def, if_pos (by decide), if_pos (by decide)]
    simp only [secondProof]
    rw [Merkle.walkJoins.eq_def, if_neg (by decide)]
  have hroot : Crypto.clear.merkleRootOf (Crypto.clear.leavesOf [firstEntry, secondEntry]) =
      Crypto.clear.merkleNode (Crypto.clear.merkleLeaf firstEntry.encode)
        (Crypto.clear.merkleLeaf secondEntry.encode) := by
    simp only [Crypto.leavesOf, List.map_cons, List.map_nil, Crypto.merkleRootOf, Merkle.root]
    rw [Merkle.levels_of_lt _ (by simp), Merkle.levels_of_le _ (by simp [Merkle.nextLevel])]
    rfl
  have haccept : Crypto.clear.verifyInclusion secondEntry secondProof
      (Crypto.clear.merkleRootOf (Crypto.clear.leavesOf [firstEntry, secondEntry])) = true := by
    rw [hroot, Crypto.verifyInclusion, if_neg (by decide), Merkle.walk.eq_def, if_pos (by decide),
      if_pos (by decide)]
    simp only [secondProof]
    rw [Merkle.walk.eq_def, if_neg (by decide)]
    simp
  refine ⟨(eq_of_verifyInclusion (fun i e he => ?_) ?_ haccept).2, haccept⟩
  · rcases i with _ | _ | i
    · obtain rfl : firstEntry = e := by simpa using he
      rfl
    · obtain rfl : secondEntry = e := by simpa using he
      rfl
    · simp at he
  · rw [Crypto.treeInputs, Crypto.proofInputs, hjoins, hwalk]
    have hdistinct : ∀ x ∈ [emptyInput, leafInput firstEntry.encode, leafInput secondEntry.encode,
        nodeInput (Crypto.clear.merkleLeaf firstEntry.encode)
          (Crypto.clear.merkleLeaf secondEntry.encode)], ∀ y ∈ [emptyInput,
        leafInput firstEntry.encode, leafInput secondEntry.encode,
        nodeInput (Crypto.clear.merkleLeaf firstEntry.encode)
          (Crypto.clear.merkleLeaf secondEntry.encode)], fitTo 32 x = fitTo 32 y → x = y := by
      decide +kernel
    intro x hx y hy hxy
    refine hdistinct x ?_ y ?_ hxy
    · simp at hx ⊢
      tauto
    · simp at hy ⊢
      tauto

end Ciphra
