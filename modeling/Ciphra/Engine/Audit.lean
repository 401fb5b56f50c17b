import Ciphra.Engine.Reach

/-!
# The audit chain

A chain is a list of entries, each of which continues the head of the entries before it (`Linked`).
`ChainIn` says that a map stores a chain and its head; `auditVerify_eq` that verification then
returns exactly its entries.

The head of the chain lives in three places: the cache of the engine, the overlay of an open
transaction, and the backend. `AuditInv` relates them to a ledger of the statements that took
effect, the pending ones of an open transaction apart, and `audit_chain` is the result: along every
run without failed writes the chain is the ledger.
-/

namespace Ciphra

open OrdMap
open Storage (Io Fits Intact)

variable {C : Crypto}

/-! ## Chains -/

/-- The head of a chain: how many entries it has and its root. -/
def chainHead (C : Crypto) (es : List AuditEntry) : AuditHead :=
  es.foldl (fun h e => (h.1 + 1, C.entryRoot e)) genesis

/-- Every entry continues the head of the entries before it. -/
def Linked (C : Crypto) (es : List AuditEntry) : Prop :=
  ∀ pre e, pre ++ [e] <+: es → e.seq = (chainHead C pre).1 ∧ e.prevRoot = (chainHead C pre).2

@[simp] theorem chainHead_append (es : List AuditEntry) (e : AuditEntry) :
    chainHead C (es ++ [e]) = ((chainHead C es).1 + 1, C.entryRoot e) := by
  simp [chainHead]

theorem chainHead_fst (es : List AuditEntry) :
    (chainHead C es).1 = UInt64.ofNat es.length := by
  induction es using List.reverseRecOn with
  | nil => rfl
  | append_singleton es e ih => simp [ih]

theorem linked_nil : Linked C [] := by
  intro pre e h
  simp at h

theorem Linked.append {es : List AuditEntry} {e : AuditEntry} (h : Linked C es)
    (hseq : e.seq = (chainHead C es).1) (hroot : e.prevRoot = (chainHead C es).2) :
    Linked C (es ++ [e]) := by
  intro pre e' hp
  rcases List.prefix_concat_iff.mp hp with heq | hp
  · obtain ⟨rfl, he⟩ := List.append_inj' heq rfl
    cases he
    exact ⟨hseq, hroot⟩
  · exact h pre e' hp

/-- The place of an entry in a chain. -/
theorem Linked.getElem? {es : List AuditEntry} (h : Linked C es) {i : ℕ} {e : AuditEntry}
    (he : es[i]? = some e) :
    e.seq = UInt64.ofNat i ∧ e.prevRoot = (chainHead C (es.take i)).2 := by
  have htake : es.take i ++ [e] = es.take (i + 1) := by rw [List.take_add_one, he]; rfl
  obtain ⟨hseq, hroot⟩ := h (es.take i) e (htake ▸ List.take_prefix _ _)
  have hi := (List.getElem?_eq_some_iff.mp he).1
  rw [chainHead_fst, List.length_take_of_le hi.le] at hseq
  exact ⟨hseq, hroot⟩

/-- The entries are stored at their keys, and nothing else is under the audit prefix. -/
structure EntriesIn (C : Crypto) (m : ByteMap) (mk : C.MasterKey) (es : List AuditEntry) : Prop where
  stored : ∀ i e, es[i]? = some e → ∃ nonce, m[auditKey (UInt64.ofNat i)]? =
    some (C.sealWith (C.deriveKey mk "audit") nonce e.encode (auditKey (UInt64.ofNat i)))
  only : ∀ key, auditPrefix <+: key → m[key]? ≠ none →
    ∃ i < es.length, key = auditKey (UInt64.ofNat i)

/-- The map stores the chain and its head. -/
structure ChainIn (C : Crypto) (m : ByteMap) (mk : C.MasterKey) (es : List AuditEntry) : Prop where
  linked : Linked C es
  bound : es.length < 2 ^ 64
  entries : EntriesIn C m mk es
  head : Engine.HeadIs C m mk (chainHead C es)

theorem auditKey_injective {a b : UInt64} (h : auditKey a = auditKey b) : a = b := by
  have := List.append_cancel_left h
  rw [beBytes_inj a.toNat_lt b.toNat_lt, UInt64.toNat_inj] at this
  exact this

theorem ofNat_inj {i j : ℕ} (hi : i < 2 ^ 64) (hj : j < 2 ^ 64)
    (h : UInt64.ofNat i = UInt64.ofNat j) : i = j := by
  have := congrArg UInt64.toNat h
  rwa [UInt64.toNat_ofNat_of_lt' hi, UInt64.toNat_ofNat_of_lt' hj] at this

theorem compare_append_left (p a b : Bytes) : compare (p ++ a) (p ++ b) = compare a b := by
  induction p with
  | nil => rfl
  | cons x p ih =>
    rw [List.cons_append, List.cons_append, List.compare_cons_cons, ih]
    simp

theorem compare_auditKey {i j : ℕ} (hij : i < j) (hj : j < 2 ^ 64) :
    compare (auditKey (UInt64.ofNat i)) (auditKey (UInt64.ofNat j)) = .lt := by
  rw [auditKey, auditKey, compare_append_left, UInt64.toNat_ofNat_of_lt' (hij.trans hj),
    UInt64.toNat_ofNat_of_lt' hj, compare_beBytes (hij.trans hj) hj]
  exact Nat.compare_eq_lt.mpr hij

/-- A scan of the audit prefix finds the entries in order. -/
theorem EntriesIn.scanPrefix {m : ByteMap} {mk : C.MasterKey} {es : List AuditEntry}
    (h : EntriesIn C m mk es) (hb : es.length < 2 ^ 64) :
    m.scanPrefix auditPrefix = (List.range es.length).map fun i =>
      (auditKey (UInt64.ofNat i), (m[auditKey (UInt64.ofNat i)]?).getD []) := by
  refine (m.sortedKeys_scanPrefix _).eq_of_mem_iff ?_ fun ⟨k, x⟩ => ?_
  · rw [SortedKeys, List.pairwise_map]
    refine List.Pairwise.imp_of_mem (fun {i j} hi hj hij => ?_) List.pairwise_lt_range
    exact compare_auditKey hij (lt_trans (List.mem_range.mp hj) hb)
  · rw [ByteMap.mem_scanPrefix]
    simp only [List.mem_map, List.mem_range, Prod.mk.injEq]
    constructor
    · rintro ⟨hx, hp⟩
      obtain ⟨i, hi, rfl⟩ := h.only k hp (by rw [hx]; simp)
      exact ⟨i, hi, rfl, by rw [hx]; rfl⟩
    · rintro ⟨i, hi, rfl, rfl⟩
      obtain ⟨nonce, hs⟩ := h.stored i _ (List.getElem?_eq_getElem hi)
      exact ⟨by rw [hs]; rfl, auditPrefix_auditKey _⟩

/-- The scanned pairs open to the entries, one by one. -/
theorem EntriesIn.forall₂ {m : ByteMap} {mk : C.MasterKey} {es : List AuditEntry}
    (h : EntriesIn C m mk es) (hb : es.length < 2 ^ 64) :
    List.Forall₂ (fun (p : Bytes × Bytes) (e : AuditEntry) =>
      C.openSealed (C.deriveKey mk "audit") p.2 p.1 = some e.encode)
      (m.scanPrefix auditPrefix) es := by
  rw [h.scanPrefix hb, List.forall₂_iff_get]
  refine ⟨by simp, fun i hi hi' => ?_⟩
  obtain ⟨nonce, hs⟩ := h.stored i _ (List.getElem?_eq_getElem hi')
  simp [hs]

/-- Verification walks along a linked chain. -/
theorem verifyEntries_eq {k : C.CipherKey} {pairs : List (Bytes × Bytes)} {suf : List AuditEntry}
    (hp : List.Forall₂ (fun (p : Bytes × Bytes) (e : AuditEntry) =>
      C.openSealed k p.2 p.1 = some e.encode) pairs suf) (pre : List AuditEntry)
    (hl : Linked C (pre ++ suf)) :
    Engine.verifyEntries k pairs pre.length (chainHead C pre).2 =
      .ok (suf, (chainHead C (pre ++ suf)).2) := by
  induction hp generalizing pre with
  | nil => simp [Engine.verifyEntries]
  | @cons p e pairs suf hopen _ ih =>
    obtain ⟨hseq, hroot⟩ := hl pre e ⟨suf, by simp⟩
    rw [chainHead_fst] at hseq
    have hnext := ih (pre ++ [e]) (by simpa using hl)
    rw [chainHead_append, List.length_append, List.length_singleton, List.append_assoc] at hnext
    simp only [Engine.verifyEntries, hopen, AuditEntry.decode_encode, Bind.bind, Except.bind, hseq,
      hroot, ne_eq, not_true_eq_false, if_false, hnext, List.singleton_append]
    rfl

/-- **Verification of a stored chain** returns its entries. -/
theorem auditVerify_eq {e : Engine C} {es : List AuditEntry} (h : ChainIn C e.store.view e.master es)
    (hh : e.auditHead = chainHead C es) : e.auditVerify = .ok es := by
  have hv := verifyEntries_eq (h.entries.forall₂ h.bound) [] h.linked
  rw [Engine.auditVerify, Store.scanPrefix_eq]
  simp only [List.length_nil, List.nil_append] at hv
  rw [show ByteArr.zeros 32 = (chainHead C []).2 from rfl, hv]
  simp only [Bind.bind, Except.bind, hh]
  rw [if_neg]
  · rfl
  · rw [not_not, ← chainHead_fst (C := C)]

/-! ## What a digest identifies -/

/-- The lengths of keys and values are what a machine word counts, as those of all vectors are. -/
def Addressable (batch : Batch) : Prop :=
  ∀ op ∈ batch, op.key.length < 2 ^ 64 ∧ (op.result.getD []).length < 2 ^ 64

theorem digestInput_cons (op : Op) (batch : Batch) :
    digestInput (op :: batch) = (if op.result = none then 1 else 0) ::
      (leBytes 8 op.key.length ++ (op.key ++ (leBytes 8 (op.result.getD []).length ++
        (op.result.getD [] ++ digestInput batch)))) := by
  cases op <;> simp [digestInput, Mutation.key, Mutation.result]

theorem ext_op {op op' : Op} (hkey : op.key = op'.key) (hresult : op.result = op'.result) :
    op = op' := by
  cases op <;> cases op' <;> simp_all [Mutation.key, Mutation.result]

/-- The first operation of a batch and the bytes after it are read off in one way only. -/
theorem digestInput_cons_inj {op op' : Op} {batch batch' : Batch} (hb : Addressable (op :: batch))
    (hb' : Addressable (op' :: batch'))
    (h : digestInput (op :: batch) = digestInput (op' :: batch')) :
    op = op' ∧ digestInput batch = digestInput batch' := by
  obtain ⟨hk, hv⟩ := hb op List.mem_cons_self
  obtain ⟨hk', hv'⟩ := hb' op' List.mem_cons_self
  rw [digestInput_cons, digestInput_cons] at h
  obtain ⟨hflag, hbytes⟩ := List.cons.inj h
  obtain ⟨hkey, hbytes⟩ := prefixed_inj (w := 8) hk hk' hbytes
  obtain ⟨hvalue, hrest⟩ := prefixed_inj (w := 8) hv hv' hbytes
  refine ⟨ext_op hkey ?_, hrest⟩
  -- an empty value and a deletion have the same bytes, and different flags
  cases hr : op.result <;> cases hr' : op'.result <;> simp_all

/-- The bytes that are hashed determine the batch; so equal digests of different batches are a
collision of the hash. -/
theorem digestInput_injective (batch batch' : Batch) (hb : Addressable batch)
    (hb' : Addressable batch') :
    (digestInput batch = digestInput batch' → batch = batch') ∧
      (C.digestBatch batch = C.digestBatch batch' → batch = batch' ∨
        (digestInput batch ≠ digestInput batch' ∧
          C.sha256 (digestInput batch) = C.sha256 (digestInput batch'))) := by
  have hinj : digestInput batch = digestInput batch' → batch = batch' := by
    intro h
    induction batch generalizing batch' with
    | nil =>
      cases batch' with
      | nil => rfl
      | cons op' batch' =>
        rw [digestInput_cons] at h
        cases h
    | cons op batch ih =>
      cases batch' with
      | nil =>
        rw [digestInput_cons] at h
        cases h
      | cons op' batch' =>
        obtain ⟨rfl, hrest⟩ := digestInput_cons_inj hb hb' h
        rw [ih batch' (fun o ho => hb o (List.mem_cons_of_mem _ ho))
          (fun o ho => hb' o (List.mem_cons_of_mem _ ho)) hrest]
  refine ⟨hinj, fun hdigest => ?_⟩
  by_cases h : digestInput batch = digestInput batch'
  · exact Or.inl (hinj h)
  · exact Or.inr ⟨h, congrArg Subtype.val hdigest⟩

/-- A deletion is not hashed as a put of the empty value. -/
theorem digestInput_put_ne_delete : digestInput [.put [7] []] ≠ digestInput [.delete [7]] :=
  fun h => absurd ((digestInput_injective (C := Crypto.clear) [.put [7] []] [.delete [7]]
    (by simp [Addressable, Mutation.key, Mutation.result])
    (by simp [Addressable, Mutation.key, Mutation.result])).1 h) (by decide)

/-! ## Missing entries -/

/-- The audit entries of a map have sequence numbers below `n`. -/
def Below (m : ByteMap) (n : ℕ) : Prop :=
  ∀ key, auditPrefix <+: key → m[key]? ≠ none → ∃ seq : UInt64, key = auditKey seq ∧ seq.toNat < n

theorem Below.mono {m : ByteMap} {n n' : ℕ} (h : Below m n) (hle : n ≤ n') : Below m n' := by
  intro key hp hkey
  obtain ⟨seq, rfl, hlt⟩ := h key hp hkey
  exact ⟨seq, rfl, by omega⟩

theorem length_of_verifyEntries {k : C.CipherKey} {pairs : List (Bytes × Bytes)} {n : ℕ}
    {root root' : ByteArr 32} {es : List AuditEntry}
    (h : Engine.verifyEntries k pairs n root = .ok (es, root')) : es.length = pairs.length := by
  induction pairs generalizing n root es root' with
  | nil =>
    cases h
    rfl
  | cons p pairs ih =>
    unfold Engine.verifyEntries at h
    split at h
    · cases h
    · obtain ⟨entry, -, h⟩ := bind_eq_ok.mp h
      split at h
      · cases h
      · split at h
        · cases h
        · obtain ⟨⟨entries, last⟩, hrest, h⟩ := bind_eq_ok.mp h
          cases h
          rw [List.length_cons, ih hrest, List.length_cons]

/-- Distinct sequence numbers below `n` that leave one out are fewer than `n`. -/
theorem length_lt_of_notMem {l : List ℕ} {n k : ℕ} (hn : l.Nodup) (hb : ∀ i ∈ l, i < n) (hk : k < n)
    (hkl : k ∉ l) : l.length < n := by
  have hsub : (k :: l) ⊆ List.range n := by
    intro i hi
    rw [List.mem_range]
    rcases List.mem_cons.mp hi with rfl | hi
    · exact hk
    · exact hb i hi
  have := (List.nodup_cons.mpr ⟨hkl, hn⟩).subperm hsub |>.length_le
  rw [List.length_cons, List.length_range] at this
  omega

/-- Entries below `n` with one of them missing are fewer than `n`. -/
theorem Below.length_scanPrefix {m : ByteMap} {n : ℕ} (h : Below m n) {k : UInt64}
    (hmissing : m[auditKey k]? = none) (hk : k.toNat < n) :
    (m.scanPrefix auditPrefix).length < n := by
  let seqOf : Bytes × Bytes → ℕ := fun e => beNat (e.1.drop 2)
  have hseqOf : ∀ e ∈ m.scanPrefix auditPrefix, ∃ seq : UInt64,
      e.1 = auditKey seq ∧ seqOf e = seq.toNat ∧ seq.toNat < n ∧ seq ≠ k := by
    rintro ⟨key, x⟩ he
    obtain ⟨hx, hp⟩ := (m.mem_scanPrefix _ _ _).mp he
    obtain ⟨seq, rfl, hlt⟩ := h key hp (by rw [hx]; exact Option.some_ne_none _)
    refine ⟨seq, rfl, ?_, hlt, ?_⟩
    · exact beNat_beBytes_of_lt seq.toNat_lt
    · rintro rfl
      rw [hmissing] at hx
      cases hx
  rw [← List.length_map (f := seqOf)]
  refine length_lt_of_notMem ?_ ?_ hk ?_
  · refine List.Nodup.map_on ?_ (m.sortedKeys_scanPrefix _).nodup
    rintro ⟨key, x⟩ he ⟨key', x'⟩ he' heq
    obtain ⟨seq, hk, hs, -⟩ := hseqOf _ he
    obtain ⟨seq', hk', hs', -⟩ := hseqOf _ he'
    obtain rfl : seq = seq' := UInt64.toNat_inj.mp (by omega)
    obtain rfl : key = key' := hk.trans hk'.symm
    have hx := ((m.mem_scanPrefix _ _ _).mp he).1
    have hx' := ((m.mem_scanPrefix _ _ _).mp he').1
    rw [Option.some.inj (hx.symm.trans hx')]
  · intro i hi
    obtain ⟨e, he, rfl⟩ := List.mem_map.mp hi
    obtain ⟨seq, -, heq, hlt, -⟩ := hseqOf e he
    omega
  · intro hi
    obtain ⟨e, he, heq'⟩ := List.mem_map.mp hi
    obtain ⟨seq, -, heq, -, hne⟩ := hseqOf e he
    exact hne (UInt64.toNat_inj.mp (by omega))

/-- Verification fails where an entry below the cached head is missing. -/
theorem auditVerify_error {e : Engine C} (h : Below e.store.view e.auditHead.1.toNat) {k : UInt64}
    (hmissing : e.store.view[auditKey k]? = none) (hk : k.toNat < e.auditHead.1.toNat) :
    ∃ err, e.auditVerify = .error err := by
  have hlen := h.length_scanPrefix hmissing hk
  cases hv : e.auditVerify with
  | error err => exact ⟨err, rfl⟩
  | ok entries =>
    rw [Engine.auditVerify, Store.scanPrefix_eq] at hv
    obtain ⟨⟨es, root⟩, hes, hv⟩ := bind_eq_ok.mp hv
    rw [← length_of_verifyEntries hes] at hlen
    simp only at hv
    split at hv
    · cases hv
    · rename_i heq
      rw [not_not] at heq
      have hseq := congrArg (fun head : AuditHead => head.1.toNat) heq
      have hlt := e.auditHead.1.toNat_lt
      simp only [UInt64.toNat_ofNat'] at hseq
      rw [Nat.mod_eq_of_lt (by omega)] at hseq
      omega

/-! ## Writing to a chain -/

theorem EntriesIn.audited {m : ByteMap} {mk : C.MasterKey} {es : List AuditEntry}
    (h : EntriesIn C m mk es) (hb : es.length < 2 ^ 64) {ws : List (Unsealed C)}
    (hw : DataWrites ws) (nonces nonces' : ℕ → C.Nonce) {entry : AuditEntry}
    (hseq : entry.seq = UInt64.ofNat es.length) :
    EntriesIn C (applyAll m (C.sealWrites nonces ws ++
      C.sealWrites nonces' (C.auditWrites mk entry))) mk (es ++ [entry]) := by
  have hlook := getElem?_applyAll_audited m hw nonces nonces' mk entry
  constructor
  · intro i e he
    rcases lt_or_ge i es.length with hi | hi
    · rw [List.getElem?_append_left hi] at he
      obtain ⟨nonce, hs⟩ := h.stored i e he
      refine ⟨nonce, ?_⟩
      rw [hlook _ (not_dataKey_of_auditPrefix (auditPrefix_auditKey _))
        (auditKey_ne_auditHeadKey _), hs]
      intro hkey
      have := ofNat_inj (by omega) hb ((auditKey_injective hkey).trans hseq)
      omega
    · rw [List.getElem?_append_right hi] at he
      have hi' : i = es.length := by
        have := (List.getElem?_eq_some_iff.mp he).1
        simp at this
        omega
      subst hi'
      simp only [Nat.sub_self, List.getElem?_cons_zero, Option.some.injEq] at he
      subst he
      refine ⟨nonces' 0, ?_⟩
      rw [applyAll_append, getElem?_applyAll_auditWrites, if_neg (auditKey_ne_auditHeadKey _),
        if_pos (by rw [hseq]), hseq]
  · intro key hp hkey
    by_cases hk : key = auditKey entry.seq
    · exact ⟨es.length, by simp, by rw [hk, hseq]⟩
    · have hhead : key ≠ auditHeadKey := by
        rintro rfl
        revert hp
        decide
      rw [hlook key (not_dataKey_of_auditPrefix hp) hhead hk] at hkey
      obtain ⟨i, hi, rfl⟩ := h.only key hp hkey
      exact ⟨i, by simp; omega, rfl⟩

/-- A statement extends the stored chain by its entry. -/
theorem ChainIn.audited {m : ByteMap} {mk : C.MasterKey} {es : List AuditEntry}
    (h : ChainIn C m mk es) (hb : es.length + 1 < 2 ^ 64) {ws : List (Unsealed C)}
    (hw : DataWrites ws) (nonces nonces' : ℕ → C.Nonce) {entry : AuditEntry}
    (hseq : entry.seq = (chainHead C es).1) (hroot : entry.prevRoot = (chainHead C es).2) :
    ChainIn C (applyAll m (C.sealWrites nonces ws ++
      C.sealWrites nonces' (C.auditWrites mk entry))) mk (es ++ [entry]) where
  linked := h.linked.append hseq hroot
  bound := by simpa using hb
  entries := h.entries.audited h.bound hw nonces nonces' (hseq.trans (chainHead_fst es))
  head := by
    refine Or.inr ⟨nonces' 1, ?_⟩
    rw [applyAll_append, getElem?_applyAll_auditWrites, if_pos rfl, chainHead_append, hseq]

/-! ## Carrying a chain over to a new key -/

/-- The writes that carry a chain over. -/
def carried (es : List AuditEntry) (new : C.MasterKey) : List (Unsealed C) :=
  (List.range es.length).map fun i => .put (auditKey (UInt64.ofNat i)) (C.deriveKey new "audit")
    ((es[i]?.map AuditEntry.encode).getD [])

theorem carryAudit_eq {m : ByteMap} {mk : C.MasterKey} {es : List AuditEntry}
    (h : EntriesIn C m mk es) (hb : es.length < 2 ^ 64) (new : C.MasterKey) :
    (carryAudit C mk new).run m.reader = .ok (carried es new) := by
  have hscan : m.reader.scan auditPrefix = m.scanPrefix auditPrefix := rfl
  simp only [carryAudit, Query.run_bind, Query.run_entries, ok_bind, Query.run_mapM,
    Query.run_ofExcept, hscan, h.scanPrefix hb]
  rw [List.mapM_map]
  refine mapM_ok fun i hi => ?_
  obtain ⟨nonce, hs⟩ := h.stored i _ (List.getElem?_eq_getElem (List.mem_range.mp hi))
  simp only [Function.comp_apply, openValue, hs, Option.getD_some, C.openSealed_sealWith,
    List.getElem?_eq_getElem (List.mem_range.mp hi), Option.map_some]
  rfl

theorem key_carried {es : List AuditEntry} {new : C.MasterKey} {w : Unsealed C}
    (h : w ∈ carried es new) : ∃ i < es.length, w.key = auditKey (UInt64.ofNat i) := by
  obtain ⟨i, hi, rfl⟩ := List.mem_map.mp h
  exact ⟨i, List.mem_range.mp hi, rfl⟩

theorem pairwise_carried {es : List AuditEntry} (hb : es.length < 2 ^ 64) (new : C.MasterKey)
    (nonces : ℕ → C.Nonce) :
    (C.sealWrites nonces (carried es new)).Pairwise fun a b => a.key ≠ b.key := by
  rw [← List.pairwise_map (f := Mutation.key) (R := (· ≠ ·)), map_key_sealWrites, carried,
    List.map_map, List.pairwise_map]
  refine List.Pairwise.imp_of_mem (fun {i j} hi hj hij hkey => ?_) List.pairwise_lt_range
  have := ofNat_inj ((List.mem_range.mp hi).trans hb) ((List.mem_range.mp hj).trans hb)
    (auditKey_injective hkey)
  omega

/-- A map without audit entries has them after they have been carried over. -/
theorem entriesIn_carried {m : ByteMap} {es : List AuditEntry} (hb : es.length < 2 ^ 64)
    (hm : ∀ key, auditPrefix <+: key → m[key]? = none) (new : C.MasterKey) (nonces : ℕ → C.Nonce) :
    EntriesIn C (applyAll m (C.sealWrites nonces (carried es new))) new es where
  stored := by
    intro i e he
    have hi : i < es.length := (List.getElem?_eq_some_iff.mp he).1
    have hmem : .put (auditKey (UInt64.ofNat i)) (C.deriveKey new "audit") e.encode ∈
        carried es new := List.mem_map.mpr ⟨i, List.mem_range.mpr hi, by rw [he]; rfl⟩
    obtain ⟨nonce, hs⟩ := mem_sealWrites_of_mem nonces hmem
    exact ⟨nonce, getElem?_applyAll_of_mem m (pairwise_carried hb new nonces) hs⟩
  only := by
    intro key hp hkey
    by_contra hno
    refine hkey ?_
    rw [getElem?_applyAll_of_notMem, hm key hp]
    intro op hop heq
    obtain ⟨w, hw, hk⟩ := mem_sealWrites hop
    obtain ⟨i, hi, hk'⟩ := key_carried hw
    exact hno ⟨i, hi, by rw [← heq, hk, hk']⟩

/-- **The chain of a rotated database** is the old one and the entry of the rotation. -/
theorem chainIn_rotated {e : Engine C} {es : List AuditEntry} (h : ChainIn C e.store.view e.master es)
    (hh : e.auditHead = chainHead C es) (hb : es.length + 1 < 2 ^ 64)
    (env : Engine.RotateEnv C) (newPassphrase : String) (kdf : KdfParams)
    (tables : List TableSnapshot) :
    let mk' := C.derive kdf newPassphrase env.openEnv.salt.1
    ChainIn C (Storage.applyLog ∅
      (e.rotationBatches env newPassphrase kdf tables (carried es mk'))) mk'
      (es ++ [e.rotateEntry env]) := by
  intro mk'
  let m₁ := Storage.applyLog (Storage.applyLog ∅
    (Engine.freshBatches newPassphrase kdf env.openEnv))
    (tables.zipIdx.map fun t => C.sealWrites (env.nonces t.2) (rebuildTable C mk' t.1))
  have hm : Storage.applyLog ∅
      (e.rotationBatches env newPassphrase kdf tables (carried es mk')) =
      applyAll (applyAll m₁ (C.sealWrites (env.nonces tables.length) (carried es mk')))
        (C.sealWrites (fun n => env.nonces (tables.length + 1) (0 + n)) [] ++
          C.sealWrites (fun n => env.nonces (tables.length + 1) (0 + n))
            (C.auditWrites mk' (e.rotateEntry env))) := by
    simp only [m₁, mk', Engine.rotationBatches, Storage.applyLog_append]
    rfl
  have hempty : ∀ key, auditPrefix <+: key → m₁[key]? = none := by
    intro key hp
    rw [getElem?_applyLog_tables _ _ (not_dataKey_of_auditPrefix hp),
      freshBatches_audit _ _ _ (.inl hp)]
  have hentries : EntriesIn C _ mk' es :=
    entriesIn_carried (by omega) hempty mk' (env.nonces tables.length)
  have hseq : (e.rotateEntry env).seq = (chainHead C es).1 := by rw [← hh]; rfl
  have hroot : (e.rotateEntry env).prevRoot = (chainHead C es).2 := by rw [← hh]; rfl
  rw [hm]
  refine ⟨h.linked.append hseq hroot, by simpa using hb, ?_, ?_⟩
  · exact hentries.audited (by omega) DataWrites.nil _ _ (hseq.trans (chainHead_fst es))
  · have hhead := headIs_audited (applyAll m₁ (C.sealWrites (env.nonces tables.length)
      (carried es mk'))) mk' [] (fun n => env.nonces (tables.length + 1) (0 + n))
      (fun n => env.nonces (tables.length + 1) (0 + n)) (e.rotateEntry env)
    rw [chainHead_append, ← hseq]
    exact hhead

/-! ## The ledger of a session -/

/-- What a statement leaves in the chain. -/
structure Effect where
  time : UInt64
  kind : UInt8
  tableTag : ByteArr 16
  writesDigest : ByteArr 32
  deriving DecidableEq

/-- The statement an entry is about. -/
def AuditEntry.effect (e : AuditEntry) : Effect := ⟨e.time, e.kind, e.tableTag, e.writesDigest⟩

namespace Session

/-- A statement that took effect is entered into the ledger. -/
def enterPlan (e : Engine C) (env : Env C) (plan : Plan C) (effects : List Effect) : List Effect :=
  effects ++ [⟨env.time, plan.kind, C.auditTag e.master plan.table,
    C.digestBatch (C.sealWrites env.nonces plan.writes)⟩]

/-- A rotation is entered into the ledger. -/
def enterRotation (_ : Engine C) (env : Engine.RotateEnv C) (effects : List Effect) : List Effect :=
  effects ++ [⟨env.time, AuditKind.rotate, ByteArr.zeros 16, ByteArr.zeros 32⟩]

/-- The ledger of a run: the statements that took effect and were not rolled back, and the
rotations. -/
def ledger (s : Session C) (steps : List (Step C)) : History (List Effect) :=
  ghostRun step (record enterPlan enterRotation) s ⟨[], []⟩ steps

/-- The map stores a chain of these effects. -/
def Chained (mk : C.MasterKey) (m : ByteMap) (effects : List Effect) : Prop :=
  ∃ es, ChainIn C m mk es ∧ es.map AuditEntry.effect = effects

/-- The sequence number has room for another entry. -/
def HasSeq (s : Session C) (_ : Step C) : Prop := s.engine.auditHead.1.toNat + 1 < 2 ^ 64

instance (s : Session C) (a : Step C) : Decidable (HasSeq s a) := inferInstanceAs (Decidable (_ < _))

/-- The cached head of a stored chain. -/
theorem head_of_chainIn {e : Engine C} {es : List AuditEntry} (h : ChainIn C e.store.view e.master es)
    (hh : Engine.HeadIs C e.store.view e.master e.auditHead) : e.auditHead = chainHead C es :=
  hh.unique h.head

theorem length_lt_of_hasSeq {e : Engine C} {es : List AuditEntry} (hb : es.length < 2 ^ 64)
    (hh : e.auditHead = chainHead C es) (h : e.auditHead.1.toNat + 1 < 2 ^ 64) :
    es.length + 1 < 2 ^ 64 := by
  rw [hh, chainHead_fst, UInt64.toNat_ofNat_of_lt' hb] at h
  exact h

theorem keeps_chained : Keeps .faultless HasSeq (Chained (C := C)) enterPlan enterRotation where
  plan := by
    rintro s env st q plan effects hseq hp hq - hhead ⟨es, hes, rfl⟩
    have hh := head_of_chainIn hes (hhead trivial)
    refine ⟨es ++ [s.engine.planEntry env plan], ?_, by rw [List.map_append]; rfl⟩
    exact hes.audited (length_lt_of_hasSeq hes.bound hh hseq)
      (program_dataKeys hp _ (lawful_reader _) _ hq) _ _ (by rw [← hh]; rfl) (by rw [← hh]; rfl)
  rotation := by
    rintro s env newPassphrase kdf tables audit effects hseq - - haudit hhead ⟨es, hes, rfl⟩
    have hh := head_of_chainIn hes (hhead trivial)
    rw [carryAudit_eq hes.entries hes.bound, Except.ok.injEq] at haudit
    subst haudit
    refine ⟨es ++ [s.engine.rotateEntry env], ?_, by rw [List.map_append]; rfl⟩
    exact chainIn_rotated hes hh (length_lt_of_hasSeq hes.bound hh hseq) env newPassphrase kdf tables

theorem chained_fresh (passphrase : String) (kdf : KdfParams) (env : Engine.OpenEnv C) :
    Chained (C.derive kdf passphrase env.salt.1)
      (Storage.applyLog ∅ (Engine.freshBatches passphrase kdf env)) [] := by
  refine ⟨[], ⟨linked_nil, by simp, ⟨by simp, fun key hp hkey => ?_⟩, Or.inl ⟨?_, rfl⟩⟩, rfl⟩
  · exact absurd (freshBatches_audit passphrase kdf env (.inl hp)) hkey
  · exact freshBatches_audit passphrase kdf env (.inr rfl)

/-- **The audit chain of every run.** Where every record fits into the log and the sequence numbers
do not run out, verification returns one entry for each statement in the ledger, in order, each
linked to the one before it by its hash, and the cached head is the stored one. -/
theorem audit_chain {s : Session C} (hs : s.Fresh) (steps : List (Step C))
    (hrun : Along step (fun s a => HasSeq s a ∧ Clean .faultless s a) s steps) :
    ∃ es : List AuditEntry, (steps.foldl step s).engine.auditVerify = .ok es ∧
      es.map AuditEntry.effect = (s.ledger steps).visible ∧
      (∀ (i : ℕ) (e : AuditEntry), es[i]? = some e → e.seq.toNat = i) ∧
      (∀ e : AuditEntry, es[0]? = some e → e.prevRoot = ByteArr.zeros 32) ∧
      (∀ (i : ℕ) (e e' : AuditEntry), es[i]? = some e → es[i + 1]? = some e' →
        e'.prevRoot = C.hash e.encode) ∧
      Engine.HeadIs C (steps.foldl step s).engine.store.view (steps.foldl step s).engine.master
        (steps.foldl step s).engine.auditHead := by
  have hsound := sound_run keeps_chained (fun kdf env _ => chained_fresh s.passphrase kdf env) hs hrun
  obtain ⟨es, hes, heffects⟩ := hsound.view
  have hhead := hsound.head trivial
  refine ⟨es, auditVerify_eq hes (head_of_chainIn hes hhead), heffects, fun i e he => ?_,
    fun e he => ?_, fun i e e' he he' => ?_, hhead⟩
  · have hi := (List.getElem?_eq_some_iff.mp he).1
    rw [(hes.linked.getElem? he).1, UInt64.toNat_ofNat_of_lt' (hi.trans hes.bound)]
  · exact (hes.linked.getElem? he).2
  · rw [(hes.linked.getElem? he').2, List.take_add_one, he, Option.toList_some, chainHead_append]
    rfl

/-- The plan of a statement that creates a table with one column. -/
def tablePlan (mk : C.MasterKey) (name : String) : Plan C :=
  ⟨AuditKind.createTable, name, [addSchema C mk ⟨name, [⟨"a", .int, false, false, false, false⟩]⟩],
    .created name⟩

theorem length_payload_tablePlan (e : Engine C) (env : Env C) (name : String) :
    (Storage.payloadOf (e.auditedBatch env (tablePlan e.master name))).length =
      304 + (utf8 name).length := by
  have ha : (utf8 "a").length = 1 := by decide
  simp [Engine.auditedBatch, tablePlan, Crypto.sealWrites, Crypto.auditWrites, addSchema,
    Storage.payloadOf, Storage.length_batchPayload, Storage.entryOf, AuditEntry.length_encode,
    AuditEntry.encodedLen, auditKey, auditHeadKey, auditPrefix, Crypto.catalogKey, catalogPrefix,
    encodeSchema, encodeColumn, encodeType, ha]
  omega

/-- The statement that creates a table with one column. -/
def tableStatement (name : String) : Statement :=
  .createTable name [⟨"a", .int, false, false, false, false⟩]

/-- The plan of the statement where there is no table of the name. -/
theorem run_tableStatement {e : Engine C} {name : String}
    (hnew : e.store.view[C.catalogKey e.master name]? = none) :
    ∃ q, program C e.master (tableStatement name) = .mutate q ∧
      q.run e.store.reader = .ok (tablePlan e.master name) := by
  refine ⟨_, rfl, ?_⟩
  rw [Store.reader_eq]
  exact run_createTable C _ hnew rfl (by decide) rfl

/-- A statement that writes, outside a transaction. -/
theorem executeStatement_idle {e : Engine C} {env : Env C} (hio : env.io = .ok)
    (ho : e.store.overlay = none) {st : Statement} {q : Read (Plan C)} {plan : Plan C}
    (hp : program C e.master st = .mutate q) (hq : q.run e.store.reader = .ok plan)
    (hw : plan.writes ≠ []) :
    (e.executeStatement env st).1 = .ok plan.result ∧
      ∃ t, (e.executeStatement env st).2 = { e with
        store := ⟨(e.store.backend.write (.commit (e.auditedBatch env plan)) .ok).2, none⟩
        auditHead := (e.auditHead.1 + 1, C.entryRoot (e.planEntry env plan))
        telemetry := t } := by
  have hcommit : e.store.commit (e.auditedBatch env plan) env.io =
      (.ok (), ⟨(e.store.backend.write (.commit (e.auditedBatch env plan)) .ok).2, none⟩) := by
    rw [hio, show e.store = ⟨e.store.backend, none⟩ from congrArg (Store.mk _) ho]
    exact Engine.commit_none _
  rw [e.executeStatement_applied env hp hq hw (by rw [hcommit]), hcommit]
  exact ⟨rfl, _, rfl⟩

/-- Executing it outside a transaction. -/
theorem executeStatement_table {e : Engine C} (env : Env C) (hio : env.io = .ok)
    (ho : e.store.overlay = none) {name : String}
    (hnew : e.store.view[C.catalogKey e.master name]? = none) :
    (e.executeStatement env (tableStatement name)).1 = .ok (.created name) ∧
      ∃ t, (e.executeStatement env (tableStatement name)).2 = { e with
        store := ⟨(e.store.backend.write
          (.commit (e.auditedBatch env (tablePlan e.master name))) .ok).2, none⟩
        auditHead := (e.auditHead.1 + 1, C.entryRoot (e.planEntry env (tablePlan e.master name)))
        telemetry := t } := by
  obtain ⟨q, hp, hq⟩ := run_tableStatement hnew
  exact executeStatement_idle hio ho hp hq (by simp [tablePlan])

theorem getElem?_create_catalog (passphrase : String) (kdf : KdfParams) (env : Engine.OpenEnv C)
    (name : String) :
    (Engine.create passphrase kdf env).store.view[C.catalogKey
      (Engine.create passphrase kdf env).master name]? = none := by
  have hdata : DataKey (C.catalogKey (Engine.create passphrase kdf env).master name) :=
    dataKey_catalogKey name
  have hmap : (Engine.create passphrase kdf env).store.view =
      Storage.applyLog ∅ (Engine.freshBatches passphrase kdf env) := Engine.map_writeAll _ _
  rw [hmap, getElem?_freshBatches, if_neg, if_neg]
  · exact fun h => not_dataKey_keyparamsKey (h ▸ hdata)
  · exact fun h => not_dataKey_canaryKey (h ▸ hdata)

/-- A table, a row inserted in a transaction, a rotation and a reopen. -/
def auditedSteps : List (Step Crypto.clear) :=
  [.statement clearEnv (tableStatement "t"), .statement clearEnv .begin,
    .statement clearEnv (.insert "t" none [[.int 1]]), .statement clearEnv .commit,
    .rotate ⟨clearOpenEnv, fun _ _ => (), 0, false, .integers⟩ "new" .recommended,
    .reopen clearOpenEnv .recommended]

/-- What the rotation and the reopen leave: the whole run is evaluated once. -/
theorem auditedSteps_left :
    HasSeq ((auditedSteps.take 5).foldl step clearSession) (.reopen clearOpenEnv .recommended) ∧
      (auditedSteps.foldl step clearSession).passphrase = "new" ∧
      (clearSession.ledger auditedSteps).visible.length = 3 := by
  decide +kernel

theorem clean_auditedSteps :
    Along step (fun s a => HasSeq s a ∧ Clean .faultless s a) clearSession auditedSteps := by
  rw [show auditedSteps = auditedSteps.take 5 ++ [.reopen clearOpenEnv .recommended] from rfl,
    along_concat]
  -- the sequence number, then the records of the step
  refine ⟨⟨⟨?_, clean_statement rfl ?_⟩, ⟨?_, clean_statement rfl ?_⟩,
    ⟨?_, clean_statement rfl ?_⟩, ⟨?_, clean_statement rfl ?_⟩,
    ⟨?_, show ∀ b ∈ records _ _, Fits b from ?_⟩, trivial⟩, auditedSteps_left.1, trivial⟩
  all_goals decide +kernel

/-- After all of them the chain verifies and holds the table, the row and the rotation. -/
theorem audit_chain_auditedSteps :
    (auditedSteps.foldl step clearSession).passphrase = "new" ∧
      ∃ es, (auditedSteps.foldl step clearSession).engine.auditVerify = .ok es ∧
        es.map AuditEntry.effect = (clearSession.ledger auditedSteps).visible ∧ es.length = 3 := by
  obtain ⟨es, hes, heffects, -⟩ := audit_chain fresh_clearSession auditedSteps clean_auditedSteps
  refine ⟨auditedSteps_left.2.1, es, hes, heffects, ?_⟩
  rw [← List.length_map (f := AuditEntry.effect), heffects]
  exact auditedSteps_left.2.2

/-! A record of exactly `2 ^ 32` bytes is written with the length zero and lost at the next open. -/

theorem auditVerify_create (passphrase : String) (kdf : KdfParams) (env : Engine.OpenEnv C) :
    (Engine.create passphrase kdf env).auditVerify = .ok [] := by
  obtain ⟨es, hes, heffects⟩ := chained_fresh passphrase kdf env
  obtain rfl := List.map_eq_nil_iff.mp heffects
  rw [← Engine.map_writeAll ⟨∅, []⟩] at hes
  exact auditVerify_eq hes rfl

/-- Creating a table whose record has exactly `2 ^ 32` bytes leaves no trace after a reopen. -/
theorem auditVerify_lost (passphrase : String) (kdf : KdfParams) (hvalid : kdf.Valid)
    (env : Engine.OpenEnv C) (hparams : env.paramsIo = .ok) (hcanary : env.canaryIo = .ok)
    (env' : Env C) (hio : env'.io = .ok) (name : String)
    (hname : (utf8 name).length = 2 ^ 32 - 304) :
    let steps := [.statement env' (tableStatement name), .reopen env kdf]
    (steps.foldl step (create passphrase kdf env)).engine.auditVerify = .ok [] ∧
      ((create passphrase kdf env).ledger steps).visible ≠ [] := by
  intro steps
  let e : Engine C := Engine.create passphrase kdf env
  have hnew := getElem?_create_catalog passphrase kdf env name
  obtain ⟨hres, t, he⟩ := executeStatement_table env' hio rfl hnew
  have hsound : Sound .faultless (fun _ _ (_ : Unit) => True) (create passphrase kdf env) ⟨(), ()⟩ :=
    Fresh.sound (fun _ _ _ => trivial) (fresh_create passphrase hvalid hparams hcanary)
  constructor
  · obtain ⟨log, hlog⟩ := hsound.intact trivial
    have hlen : (Storage.payloadOf (e.auditedBatch env' (tablePlan e.master name))).length =
        2 ^ 32 := by
      rw [length_payload_tablePlan, hname]
      norm_num
    have hlost := hlog.openLog_write_lost (auditedBatch_ne_nil _ _ _) hlen
    have hwal : Storage.openLog ((create passphrase kdf env).step
        (.statement env' (tableStatement name))).engine.store.backend.wal = e.store.backend := by
      simp only [step, create]
      rw [he]
      exact hlost
    simp only [steps, List.foldl_cons, List.foldl_nil]
    rw [step_reopen hwal hsound.opens (hsound.head trivial)]
    exact auditVerify_create passphrase kdf env
  · obtain ⟨q, hp, hq⟩ := run_tableStatement hnew
    simp only [steps, ledger, ghostRun, record]
    rw [show ((create passphrase kdf env).engine.executeStatement env' (tableStatement name)).1 = _
      from hres, recordStatement_applied hp hq (by simp [tablePlan])]
    simp [Store.inTransaction, create, Engine.create, Engine.opened, enterPlan]

/-- A name of `n` letters. -/
def longName (n : ℕ) : String := String.ofList (List.replicate n 'a')

theorem isIdent_longName (n : ℕ) : IsIdent (longName n) := by
  intro c hc
  rw [longName, String.toList_ofList] at hc
  rw [List.eq_of_mem_replicate hc]
  decide

theorem length_utf8_longName (n : ℕ) : (utf8 (longName n)).length = n := by
  rw [longName, utf8_replicate, List.length_replicate]

/-- The creation of a table with so long a name that its record has exactly `2 ^ 32` bytes is
missing from the chain after a reopen. -/
theorem not_audit_chain_lost_record :
    ∃ (name : String) (steps : List (Step Crypto.clear)),
      steps = [.statement clearEnv (tableStatement name), .reopen clearOpenEnv .recommended] ∧
      name = longName (2 ^ 32 - 304) ∧ IsIdent name ∧ clearSession.Fresh ∧
      (∀ a ∈ steps, a.Succeeds) ∧
      ¬ ∃ es, (steps.foldl step clearSession).engine.auditVerify = .ok es ∧
        es.map AuditEntry.effect = (clearSession.ledger steps).visible := by
  refine ⟨_, _, rfl, rfl, isIdent_longName _, fresh_clearSession, by simp [Step.Succeeds, clearEnv], ?_⟩
  rintro ⟨es, hes, heffects⟩
  obtain ⟨hverify, hledger⟩ := auditVerify_lost "passphrase" .recommended (by decide) clearOpenEnv
    rfl rfl clearEnv rfl _ (length_utf8_longName _)
  have hnil : es = [] := Except.ok.inj (hes.symm.trans hverify)
  subst hnil
  exact hledger heffects.symm

end Session

end Ciphra
