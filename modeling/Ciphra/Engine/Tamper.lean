import Ciphra.Engine.Records

/-!
# Records put back or out of order

The records of a log are genuine each for itself: every value is sealed under its own key, and
nothing in a record says where in the log it belongs, apart from the audit entries it carries.
Verification therefore finds out which records are there, and that the newest of them stands last
(`Spread.covers_iff`), but not in which order the others are applied. The hash of its writes that an
entry carries is never compared with what the tables hold.

`contents_of_ordered` says what this leaves: where for every key the newest record that writes it
is also the last one, the tables are those of a point of the run. `not_detected_reordered` is a log
without this property that opens and verifies.
-/

namespace Ciphra

open OrdMap
open Storage (Io Fits Intact Writable applyLog encodeLog)

variable {C : Crypto}

/-! ## The last record that writes a key -/

/-- The record writes the key. -/
def Writes (b : Batch) (key : Bytes) : Prop := ∃ op ∈ b, op.key = key

instance (b : Batch) (key : Bytes) : Decidable (Writes b key) :=
  inferInstanceAs (Decidable (∃ op ∈ b, op.key = key))

theorem getElem?_written_of_writes {b : Batch} {key : Bytes} (h : Writes b key) :
    ∃ v, (written b)[key]? = some v := by
  induction b using List.reverseRecOn with
  | nil =>
    obtain ⟨op, hop, -⟩ := h
    cases hop
  | append_singleton b op ih =>
    rw [getElem?_written_append]
    by_cases hk : op.key = key
    · exact ⟨op.result, by simp [written, stage, hk]⟩
    · obtain ⟨op', hop', hk'⟩ := h
      rcases List.mem_append.mp hop' with hop' | hop'
      · obtain ⟨v, hv⟩ := ih ⟨op', hop', hk'⟩
        exact ⟨v, by simp [written, stage, hk] at hv ⊢; exact hv⟩
      · obtain rfl := List.mem_singleton.mp hop'
        exact absurd hk' hk

/-- Records that do not write a key leave it alone. -/
theorem getElem?_applyLog_of_not_writes (m : ByteMap) {log : List Batch} {key : Bytes}
    (h : ∀ b ∈ log, ¬ Writes b key) : (applyLog m log)[key]? = m[key]? := by
  induction log generalizing m with
  | nil => rfl
  | cons b log ih =>
    have hb : ∀ op ∈ b, op.key ≠ key := fun op hop hk => h b List.mem_cons_self ⟨op, hop, hk⟩
    rw [applyLog, List.foldl_cons, ← applyLog, ih _ fun b' hb' => h b' (List.mem_cons_of_mem _ hb'),
      getElem?_applyAll_of_notMem _ _ _ hb]

/-- The last record that writes a key decides what it holds, whatever was there before. -/
theorem getElem?_applyLog_last (m m' : ByteMap) (pre pre' : List Batch) {b : Batch}
    {post post' : List Batch} {key : Bytes} (hb : Writes b key) (hpost : ∀ b' ∈ post, ¬ Writes b' key)
    (hpost' : ∀ b' ∈ post', ¬ Writes b' key) :
    (applyLog m (pre ++ b :: post))[key]? = (applyLog m' (pre' ++ b :: post'))[key]? := by
  obtain ⟨v, hv⟩ := getElem?_written_of_writes hb
  have hlast : ∀ (m : ByteMap) (pre : List Batch) {post : List Batch},
      (∀ b' ∈ post, ¬ Writes b' key) → (applyLog m (pre ++ b :: post))[key]? = v := by
    intro m pre post hpost
    rw [List.append_cons, Storage.applyLog_append, getElem?_applyLog_of_not_writes _ hpost,
      Storage.applyLog_append, applyLog, List.foldl_cons, List.foldl_nil, getElem?_applyAll, hv]
    rfl
  rw [hlast m pre hpost, hlast m' pre' hpost']

/-- A list with a member of a kind has a last one. -/
theorem exists_last {α : Type*} {p : α → Prop} {l : List α} (h : ∃ a ∈ l, p a) :
    ∃ pre a post, l = pre ++ a :: post ∧ p a ∧ ∀ a' ∈ post, ¬ p a' := by
  induction l with
  | nil =>
    obtain ⟨a, ha, -⟩ := h
    cases ha
  | cons x l ih =>
    by_cases hl : ∃ a ∈ l, p a
    · obtain ⟨pre, a, post, rfl, hp, hpost⟩ := ih hl
      exact ⟨x :: pre, a, post, rfl, hp, hpost⟩
    · obtain ⟨a, ha, hp⟩ := h
      rcases List.mem_cons.mp ha with rfl | ha
      · exact ⟨[], a, l, rfl, hp, fun a' ha' hp' => hl ⟨a', ha', hp'⟩⟩
      · exact absurd ⟨a, ha, hp⟩ hl

/-- In the log `tampered`, made of records of `recs`, the last record that writes a key of the
tables is the newest one there that writes it. -/
def NewestLast (recs tampered : List Batch) : Prop :=
  ∀ key, DataKey key → ∀ pre b post, tampered = pre ++ b :: post → Writes b key →
    (∀ b' ∈ post, ¬ Writes b' key) → ∀ b' ∈ pre, Writes b' key → recs.idxOf b' ≤ recs.idxOf b

/-! ## Which records are there -/

/-- The entries of a chain from the place `lo` up to `hi`. -/
def chainPart (es : List AuditEntry) (lo hi : ℕ) : List AuditEntry := (es.take hi).drop lo

/-- Each record carries its part of the chain: the parts begin at the increasing places `f`. -/
structure Parts (C : Crypto) (mk : C.MasterKey) (recs : List Batch) (es : List AuditEntry)
    (f : ℕ → ℕ) : Prop where
  zero : f 0 = 0
  mono : StrictMono f
  last : f recs.length = es.length
  adds : ∀ p b, recs[p]? = some b →
    Adds C mk (written b) (es.take (f p)) (chainPart es (f p) (f (p + 1)))

theorem Parts.le_length {mk : C.MasterKey} {recs : List Batch} {es : List AuditEntry} {f : ℕ → ℕ}
    (h : Parts C mk recs es f) {p : ℕ} (hp : p ≤ recs.length) : f p ≤ es.length :=
  (h.mono.monotone hp).trans h.last.le

theorem Recorded.parts {mk : C.MasterKey} {recs : List Batch} {es : List AuditEntry}
    (h : Recorded C mk recs es) : ∃ f, Parts C mk recs es f := by
  induction h with
  | nil => exact ⟨id, rfl, strictMono_id, rfl, fun p b hb => by simp at hb⟩
  | @snoc recs es new b _ hne hadds ih =>
    obtain ⟨f, hf⟩ := ih
    have hpos := List.length_pos_of_ne_nil hne
    -- beyond the log the places only have to go on increasing
    let f' : ℕ → ℕ := fun p => if p ≤ recs.length then f p
      else es.length + new.length + (p - recs.length - 1)
    have hle : ∀ p ≤ recs.length, f' p = f p := fun p hp => if_pos hp
    have hgt : ∀ p, recs.length < p → f' p = es.length + new.length + (p - recs.length - 1) :=
      fun p hp => if_neg (by omega)
    have hbound : ∀ p ≤ recs.length, f p ≤ es.length := fun p hp => hf.le_length hp
    refine ⟨f', ?_, strictMono_nat_of_lt_succ fun p => ?_, ?_, fun p b' hb => ?_⟩
    · rw [hle 0 (Nat.zero_le _), hf.zero]
    · rcases lt_trichotomy p recs.length with hp | rfl | hp
      · rw [hle p hp.le, hle (p + 1) hp]
        exact hf.mono p.lt_succ_self
      · rw [hle _ le_rfl, hf.last, hgt _ (Nat.lt_succ_self _)]
        omega
      · rw [hgt p hp, hgt (p + 1) (by omega)]
        omega
    · rw [List.length_append, List.length_singleton, hgt _ (Nat.lt_succ_self _), List.length_append]
      omega
    · rcases lt_or_ge p recs.length with hp | hp
      · rw [List.getElem?_append_left hp] at hb
        have hadds' := hf.adds p b' hb
        rw [hle p hp.le, hle (p + 1) hp, chainPart,
          List.take_append_of_le_length (hbound p hp.le),
          List.take_append_of_le_length (hbound (p + 1) hp)]
        exact hadds'
      · have hlen := (List.getElem?_eq_some_iff.mp hb).1
        rw [List.length_append, List.length_singleton] at hlen
        obtain rfl : p = recs.length := by omega
        rw [List.getElem?_concat_length] at hb
        obtain rfl := Option.some.inj hb
        have hfull : f' (recs.length + 1) = (es ++ new).length := by
          rw [hgt _ (Nat.lt_succ_self _), List.length_append]
          omega
        rw [hle _ le_rfl, hf.last, chainPart, hfull, List.take_length, List.take_left' rfl,
          List.drop_left' rfl]
        exact hadds

/-- A place of the chain belongs to one record only. -/
theorem Parts.eq_of_between {mk : C.MasterKey} {recs : List Batch} {es : List AuditEntry} {f : ℕ → ℕ}
    (h : Parts C mk recs es f) {p p' i : ℕ} (hp : f p ≤ i ∧ i < f (p + 1))
    (hp' : f p' ≤ i ∧ i < f (p' + 1)) : p = p' := by
  have hlt := h.mono.lt_iff_lt.mp (hp.1.trans_lt hp'.2)
  have hlt' := h.mono.lt_iff_lt.mp (hp'.1.trans_lt hp.2)
  omega

theorem length_chainPart {es : List AuditEntry} (lo : ℕ) {hi : ℕ} (h : hi ≤ es.length) :
    (chainPart es lo hi).length = hi - lo := by
  rw [chainPart, List.length_drop, List.length_take_of_le h]

/-- The records are different from each other. -/
theorem Parts.inj {mk : C.MasterKey} {recs : List Batch} {es : List AuditEntry} {f : ℕ → ℕ}
    (h : Parts C mk recs es f) (hlen : es.length < 2 ^ 64) {p p' : ℕ} {b : Batch}
    (hp : recs[p]? = some b) (hp' : recs[p']? = some b) : p = p' := by
  have hplt := (List.getElem?_eq_some_iff.mp hp).1
  have hplt' := (List.getElem?_eq_some_iff.mp hp').1
  have hstep : f p < f (p + 1) := h.mono p.lt_succ_self
  have hhi := h.le_length (p := p + 1) hplt
  have hhi' := h.le_length (p := p' + 1) hplt'
  have hlen' := length_chainPart (f p') hhi'
  -- the first entry of the one is among those of the other
  obtain ⟨e, he⟩ : ∃ e, (chainPart es (f p) (f (p + 1)))[0]? = some e := by
    refine ⟨_, List.getElem?_eq_getElem ?_⟩
    rw [length_chainPart _ hhi]
    exact Nat.sub_pos_of_lt hstep
  obtain ⟨nonce, hs⟩ := (h.adds p b hp).entry 0 e he
  obtain ⟨i, hi, heq⟩ := (h.adds p' b hp').only _ (auditPrefix_auditKey _) (by rw [hs]; nofun)
  rw [List.length_take_of_le (h.le_length hplt.le), List.length_take_of_le (h.le_length hplt'.le),
    Nat.add_zero] at heq
  rw [hlen'] at hi
  have hstep' : f p' < f (p' + 1) := h.mono p'.lt_succ_self
  have := ofNat_inj (by omega) (by omega) (auditKey_injective heq)
  exact h.eq_of_between (i := f p) ⟨le_rfl, hstep⟩ ⟨by omega, by omega⟩

theorem Parts.nodup {mk : C.MasterKey} {recs : List Batch} {es : List AuditEntry} {f : ℕ → ℕ}
    (h : Parts C mk recs es f) (hlen : es.length < 2 ^ 64) : recs.Nodup := by
  rw [List.nodup_iff_getElem?_ne_getElem?]
  intro p p' hlt hp' heq
  have hget := List.getElem?_eq_getElem hp'
  have := h.inj hlen (heq.trans hget) hget
  omega

/-- The map stores the entries of the chain at the places `cov`, in whatever order they were
written, and a head that says `n`. -/
structure Spread (C : Crypto) (mk : C.MasterKey) (base m : ByteMap) (es : List AuditEntry)
    (cov : ℕ → Prop) (n : ℕ) : Prop where
  stored : ∀ i e, cov i → es[i]? = some e → ∃ nonce, m[auditKey (UInt64.ofNat i)]? =
    some (C.sealWith (C.deriveKey mk "audit") nonce e.encode (auditKey (UInt64.ofNat i)))
  only : ∀ key, auditPrefix <+: key → m[key]? ≠ none → ∃ i, cov i ∧ key = auditKey (UInt64.ofNat i)
  lt : ∀ i, cov i → i < es.length
  le : n ≤ es.length
  head : Engine.HeadIs C m mk (chainHead C (es.take n))
  params : m[keyparamsKey]? = base[keyparamsKey]?
  canary : m[canaryKey]? = base[canaryKey]?

theorem Spread.congr {mk : C.MasterKey} {base m : ByteMap} {es : List AuditEntry}
    {cov cov' : ℕ → Prop} {n : ℕ} (h : Spread C mk base m es cov n) (hcov : ∀ i, cov i ↔ cov' i) :
    Spread C mk base m es cov' n := by
  obtain rfl : cov = cov' := funext fun i => propext (hcov i)
  exact h

/-- A record stores its part of the chain and the head after it. -/
theorem Spread.applyAll {mk : C.MasterKey} {base m : ByteMap} {es : List AuditEntry}
    {cov : ℕ → Prop} {n lo hi : ℕ} (h : Spread C mk base m es cov n) {b : Batch} (hlt : lo < hi)
    (hhi : hi ≤ es.length) (hlen : es.length < 2 ^ 64)
    (hadds : Adds C mk (written b) (es.take lo) (chainPart es lo hi)) :
    Spread C mk base (applyAll m b) es (fun i => cov i ∨ (lo ≤ i ∧ i < hi)) hi := by
  have hlook := getElem?_applyAll m b
  have hlo : (es.take lo).length = lo := List.length_take_of_le (by omega)
  have hpart := length_chainPart lo hhi
  have happend : es.take lo ++ chainPart es lo hi = es.take hi := by
    have htake : es.take lo = (es.take hi).take lo := by rw [List.take_take, Nat.min_eq_left hlt.le]
    rw [chainPart, htake, List.take_append_drop]
  constructor
  · intro i e hi' he
    rw [hlook]
    by_cases hin : lo ≤ i ∧ i < hi
    · have hget : (chainPart es lo hi)[i - lo]? = some e := by
        rw [chainPart, List.getElem?_drop, Nat.add_sub_cancel' hin.1,
          List.getElem?_take_of_lt hin.2, he]
      obtain ⟨nonce, hs⟩ := hadds.entry _ e hget
      rw [hlo, Nat.add_sub_cancel' hin.1] at hs
      exact ⟨nonce, by rw [hs]; rfl⟩
    · have hi'' := h.lt i (hi'.resolve_right hin)
      obtain ⟨nonce, hs⟩ := h.stored i e (hi'.resolve_right hin) he
      have hnone : (written b)[auditKey (UInt64.ofNat i)]? = none := by
        by_contra hw
        obtain ⟨j, hj, heq⟩ := hadds.only _ (auditPrefix_auditKey _) hw
        rw [hpart] at hj
        rw [hlo] at heq
        have := ofNat_inj (by omega) (by omega) (auditKey_injective heq)
        omega
      exact ⟨nonce, by rw [hnone]; exact hs⟩
  · intro key hp hkey
    rw [hlook] at hkey
    by_cases hw : (written b)[key]? = none
    · rw [hw] at hkey
      obtain ⟨i, hi, rfl⟩ := h.only key hp hkey
      exact ⟨i, .inl hi, rfl⟩
    · obtain ⟨i, hi', rfl⟩ := hadds.only key hp hw
      rw [hpart] at hi'
      exact ⟨lo + i, .inr ⟨by omega, by omega⟩, by rw [hlo]⟩
  · rintro i (hi' | hi')
    · exact h.lt i hi'
    · omega
  · exact hhi
  · have hne : chainPart es lo hi ≠ [] := by
      intro hnil
      rw [hnil, List.length_nil] at hpart
      omega
    obtain ⟨nonce, hs⟩ := hadds.head hne
    rw [happend] at hs
    exact .inr ⟨nonce, by rw [hlook, hs]; rfl⟩
  · rw [hlook, hadds.params]
    exact h.params
  · rw [hlook, hadds.canary]
    exact h.canary

/-- A copy of the parameters or of the canary changes nothing. -/
theorem Spread.put {mk : C.MasterKey} {base m : ByteMap} {es : List AuditEntry} {cov : ℕ → Prop}
    {n : ℕ} (h : Spread C mk base m es cov n) {key value : Bytes}
    (hkey : key = keyparamsKey ∨ key = canaryKey) (hvalue : base[key]? = some value) :
    Spread C mk base (OrdMap.applyAll m [.put key value]) es cov n := by
  have hsame : OrdMap.applyAll m [.put key value] = m := by
    refine Std.ExtTreeMap.ext_getElem? fun k => ?_
    rw [applyAll_cons, applyAll_nil, Mutation.apply, getElem?_insert_eq]
    split
    · rename_i hk
      subst hk
      rcases hkey with rfl | rfl
      · rw [h.params, hvalue]
      · rw [h.canary, hvalue]
    · rfl
  rw [hsame]
  exact h

/-- The places of the chain that the records of a log cover. -/
def Covered (recs tampered : List Batch) (f : ℕ → ℕ) (i : ℕ) : Prop :=
  ∃ p b, recs[p]? = some b ∧ b ∈ tampered ∧ f p ≤ i ∧ i < f (p + 1)

/-- **Any log made of genuine records** stores the entries that its records carry, and a head at
the end of one of them. -/
theorem Parts.spread {mk : C.MasterKey} {base : ByteMap} {recs : List Batch} {es : List AuditEntry}
    {f : ℕ → ℕ} (h : Parts C mk recs es f) (hlen : es.length < 2 ^ 64)
    (hbase : ∀ key, auditPrefix <+: key → base[key]? = none) (hhead : base[auditHeadKey]? = none)
    {params canary : Bytes} (hparams : base[keyparamsKey]? = some params)
    (hcanary : base[canaryKey]? = some canary) {tampered : List Batch}
    (ht : ∀ b ∈ tampered, b ∈ [.put keyparamsKey params] :: [.put canaryKey canary] :: recs) :
    ∃ k ≤ recs.length, Spread C mk base (applyLog base tampered) es (Covered recs tampered f) (f k) := by
  induction tampered using List.reverseRecOn with
  | nil =>
    refine ⟨0, Nat.zero_le _, ?_⟩
    constructor
    · rintro i e ⟨p, b, -, hb, -⟩
      cases hb
    · exact fun key hp hkey => absurd (hbase key hp) hkey
    · rintro i ⟨p, b, -, hb, -⟩
      cases hb
    · rw [h.zero]
      exact Nat.zero_le _
    · rw [h.zero]
      exact .inl ⟨hhead, rfl⟩
    · rfl
    · rfl
  | append_singleton tampered b ih =>
    obtain ⟨k, hk, hspread⟩ := ih fun b' hb' => ht b' (List.mem_append_left _ hb')
    have hmap : applyLog base (tampered ++ [b]) = OrdMap.applyAll (applyLog base tampered) b := by
      rw [Storage.applyLog_append]
      rfl
    have hcov : b ∉ recs → ∀ i, Covered recs tampered f i ↔ Covered recs (tampered ++ [b]) f i := by
      intro hb i
      constructor
      · rintro ⟨p, b', hp, hmem, hi⟩
        exact ⟨p, b', hp, List.mem_append_left _ hmem, hi⟩
      · rintro ⟨p, b', hp, hmem, hi⟩
        rcases List.mem_append.mp hmem with hmem | hmem
        · exact ⟨p, b', hp, hmem, hi⟩
        · obtain rfl := List.mem_singleton.mp hmem
          exact absurd (List.mem_of_getElem? hp) hb
    rw [hmap]
    by_cases hb : b ∈ recs
    · obtain ⟨p, hp⟩ := List.mem_iff_getElem?.mp hb
      have hplt := (List.getElem?_eq_some_iff.mp hp).1
      refine ⟨p + 1, hplt, (hspread.applyAll (h.mono p.lt_succ_self) (h.le_length hplt) hlen (h.adds p b hp)).congr
        fun i => ⟨?_, ?_⟩⟩
      · rintro (⟨p', b', hp', hmem, hi⟩ | hi)
        · exact ⟨p', b', hp', List.mem_append_left _ hmem, hi⟩
        · exact ⟨p, b, hp, List.mem_append_right _ List.mem_cons_self, hi⟩
      · rintro ⟨p', b', hp', hmem, hi⟩
        rcases List.mem_append.mp hmem with hmem | hmem
        · exact .inl ⟨p', b', hp', hmem, hi⟩
        · obtain rfl := List.mem_singleton.mp hmem
          obtain rfl := h.inj hlen hp hp'
          exact .inr hi
    · refine ⟨k, hk, Spread.congr ?_ (hcov hb)⟩
      rcases List.mem_cons.mp (ht b (by simp)) with rfl | hmem
      · exact hspread.put (.inl rfl) hparams
      · rcases List.mem_cons.mp hmem with rfl | hmem
        · exact hspread.put (.inr rfl) hcanary
        · exact absurd hmem hb

/-- What verification has opened. -/
theorem opened_of_verifyEntries {k : C.CipherKey} {pairs : List (Bytes × Bytes)} {n : ℕ}
    {root last : ByteArr 32} {entries : List AuditEntry}
    (h : Engine.verifyEntries k pairs n root = .ok (entries, last)) {j : ℕ} {e : Bytes × Bytes}
    (he : pairs[j]? = some e) : ∃ plain entry, C.openSealed k e.2 e.1 = some plain ∧
      AuditEntry.decode plain = .ok entry ∧ entry.seq = UInt64.ofNat (n + j) := by
  induction pairs generalizing n root last entries j with
  | nil => simp at he
  | cons p pairs ih =>
    unfold Engine.verifyEntries at h
    split at h
    · cases h
    · rename_i plain hopen
      obtain ⟨entry, hdecode, h⟩ := bind_eq_ok.mp h
      split at h
      · cases h
      · rename_i hseq
        split at h
        · cases h
        · obtain ⟨⟨entries', last'⟩, hrest, h⟩ := bind_eq_ok.mp h
          cases j with
          | zero =>
            obtain rfl := Option.some.inj he
            exact ⟨plain, entry, hopen, hdecode, not_not.mp hseq⟩
          | succ j =>
            obtain ⟨plain', entry', hopen', hdecode', hseq'⟩ := ih hrest he
            exact ⟨plain', entry', hopen', hdecode', by rw [hseq', Nat.add_right_comm]; rfl⟩

/-- **Where verification succeeds** the entries stored are those below the head, and no others. -/
theorem Spread.covers_iff {e : Engine C} {base : ByteMap} {es : List AuditEntry} {cov : ℕ → Prop}
    {n : ℕ} (h : Spread C e.master base e.store.view es cov n) (hlinked : Linked C es)
    (hlen : es.length < 2 ^ 64) (hhead : e.auditHead = chainHead C (es.take n))
    {entries : List AuditEntry} (hv : e.auditVerify = .ok entries) (i : ℕ) : cov i ↔ i < n := by
  have hnat : ∀ i < 2 ^ 64, (UInt64.ofNat i).toNat = i := fun i hi => UInt64.toNat_ofNat_of_lt' hi
  have hn := h.le
  rw [Engine.auditVerify, Store.scanPrefix_eq] at hv
  obtain ⟨⟨entries', root⟩, hverify, hv⟩ := bind_eq_ok.mp hv
  simp only at hv
  split at hv
  · cases hv
  · rename_i heq
    rw [not_not, hhead] at heq
    have hcount := congrArg (fun head : AuditHead => head.1.toNat) heq
    simp only [chainHead_fst, List.length_take_of_le hn, hnat n (by omega)] at hcount
    -- no more entries than the chain has, so their number is the one the head says
    have hbelow : Below e.store.view (es.length + 1) := by
      intro key hp hkey
      obtain ⟨i, hi, rfl⟩ := h.only key hp hkey
      have := h.lt i hi
      exact ⟨_, rfl, by rw [hnat i (by omega)]; omega⟩
    have hshort : (e.store.view.scanPrefix auditPrefix).length < es.length + 1 := by
      refine hbelow.length_scanPrefix (k := UInt64.ofNat es.length) ?_ (by rw [hnat _ hlen]; omega)
      by_contra hkey
      obtain ⟨i, hi, hk⟩ := h.only _ (auditPrefix_auditKey _) hkey
      have hi' := h.lt i hi
      have := ofNat_inj hlen (by omega) (auditKey_injective hk)
      omega
    rw [← length_of_verifyEntries hverify] at hshort
    rw [hnat _ (by omega)] at hcount
    rw [length_of_verifyEntries hverify] at hcount hshort
    -- each entry stands at its own place
    have hplace : ∀ j p, (e.store.view.scanPrefix auditPrefix)[j]? = some p →
        cov j ∧ p.1 = auditKey (UInt64.ofNat j) := by
      rintro j ⟨key, x⟩ hj
      have hjlt := (List.getElem?_eq_some_iff.mp hj).1
      obtain ⟨hx, hp⟩ := (ByteMap.mem_scanPrefix _ _ _ _).mp (List.mem_of_getElem? hj)
      obtain ⟨i, hi, rfl⟩ := h.only key hp (by rw [hx]; exact Option.some_ne_none _)
      have hilt := h.lt i hi
      obtain ⟨entry, he⟩ : ∃ entry, es[i]? = some entry := ⟨_, List.getElem?_eq_getElem hilt⟩
      obtain ⟨nonce, hs⟩ := h.stored i entry hi he
      obtain rfl := Option.some.inj (hx.symm.trans hs)
      obtain ⟨plain, entry', hopen, hdecode, hseq⟩ := opened_of_verifyEntries hverify hj
      rw [C.openSealed_sealWith] at hopen
      obtain rfl := Option.some.inj hopen
      rw [AuditEntry.decode_encode] at hdecode
      obtain rfl := Except.ok.inj hdecode
      rw [(hlinked.getElem? he).1, Nat.zero_add] at hseq
      obtain rfl := ofNat_inj (by omega) (by omega) hseq
      exact ⟨hi, rfl⟩
    constructor
    · intro hi
      have hilt := h.lt i hi
      obtain ⟨nonce, hs⟩ := h.stored i _ hi (List.getElem?_eq_getElem hilt)
      have hmem := (ByteMap.mem_scanPrefix _ auditPrefix _ _).mpr ⟨hs, auditPrefix_auditKey _⟩
      obtain ⟨j, hj⟩ := List.mem_iff_getElem?.mp hmem
      have hjlt := (List.getElem?_eq_some_iff.mp hj).1
      have hkey := (hplace j _ hj).2
      have := ofNat_inj (by omega) (by omega) (auditKey_injective hkey)
      omega
    · intro hi
      exact (hplace i _ (List.getElem?_eq_getElem (by omega))).1

/-- Where verification succeeds, the records that are there are the first ones of the log. -/
theorem Parts.mem_iff {mk : C.MasterKey} {recs tampered : List Batch} {es : List AuditEntry}
    {f : ℕ → ℕ} (h : Parts C mk recs es f) {k : ℕ}
    (hcov : ∀ i, Covered recs tampered f i ↔ i < f k) {p : ℕ} {b : Batch} (hp : recs[p]? = some b) :
    b ∈ tampered ↔ p < k := by
  have hfirst : f p ≤ f p ∧ f p < f (p + 1) := ⟨le_rfl, h.mono p.lt_succ_self⟩
  rw [← h.mono.lt_iff_lt, ← hcov]
  constructor
  · intro hb
    exact ⟨p, b, hp, hb, hfirst⟩
  · rintro ⟨p', b', hp', hb', hbetween⟩
    obtain rfl := h.eq_of_between hfirst hbetween
    rwa [Option.some.inj (hp.symm.trans hp')]

/-! ## What the tables hold -/

/-- The parameters and the canary are not part of a table. -/
theorem not_writes_fresh (params canary : Bytes) {b : Batch}
    (hb : b = [.put keyparamsKey params] ∨ b = [.put canaryKey canary]) {key : Bytes}
    (hk : DataKey key) : ¬ Writes b key := by
  rintro ⟨op, hop, rfl⟩
  rcases hb with rfl | rfl <;> obtain rfl := List.mem_singleton.mp hop
  · exact not_dataKey_keyparamsKey hk
  · exact not_dataKey_canaryKey hk

/-- Logs of the same records, in both of which the newest record that writes a key is the last one
to write it, leave the same at the key. -/
theorem NewestLast.getElem? {recs tampered : List Batch} (h : NewestLast recs tampered)
    (hnodup : recs.Nodup) {params canary : Bytes}
    (ht : ∀ b ∈ tampered, b ∈ [.put keyparamsKey params] :: [.put canaryKey canary] :: recs)
    {k : ℕ} (hmem : ∀ p b, recs[p]? = some b → (b ∈ tampered ↔ p < k)) (base : ByteMap) {key : Bytes}
    (hk : DataKey key) :
    (applyLog base tampered)[key]? = (applyLog base (recs.take k))[key]? := by
  have hgenuine : ∀ b ∈ tampered, Writes b key → ∃ p < k, recs[p]? = some b := by
    intro b hb hw
    have hrec : b ∈ recs := by
      rcases List.mem_cons.mp (ht b hb) with rfl | hb'
      · exact absurd hw (not_writes_fresh params canary (.inl rfl) hk)
      · rcases List.mem_cons.mp hb' with rfl | hb'
        · exact absurd hw (not_writes_fresh params canary (.inr rfl) hk)
        · exact hb'
    obtain ⟨p, hp⟩ := List.mem_iff_getElem?.mp hrec
    exact ⟨p, (hmem p b hp).mp hb, hp⟩
  by_cases hwrites : ∃ b ∈ tampered, Writes b key
  · obtain ⟨pre, b, post, rfl, hb, hpost⟩ := exists_last hwrites
    obtain ⟨p, hpk, hp⟩ := hgenuine b (by simp) hb
    have hsplit : recs.take k = recs.take p ++ b :: (recs.take k).drop (p + 1) := by
      have hget : (recs.take k)[p]? = some b := by rw [List.getElem?_take_of_lt hpk, hp]
      obtain ⟨hlt, rfl⟩ := List.getElem?_eq_some_iff.mp hget
      have htake : recs.take p = (recs.take k).take p := by
        rw [List.take_take, Nat.min_eq_left hpk.le]
      rw [← List.drop_eq_getElem_cons hlt, htake, List.take_append_drop]
    rw [hsplit]
    refine getElem?_applyLog_last _ _ _ _ hb hpost fun b' hb' hw' => ?_
    -- a newer record that writes the key is in the other log, and not after this one
    obtain ⟨q, hq⟩ := List.mem_iff_getElem?.mp hb'
    rw [List.getElem?_drop] at hq
    have hqk : p + 1 + q < k := by
      have := (List.getElem?_eq_some_iff.mp hq).1
      rw [List.length_take] at this
      omega
    rw [List.getElem?_take_of_lt hqk] at hq
    have hidx : ∀ {p b}, recs[p]? = some b → recs.idxOf b = p := by
      intro p b hp
      obtain ⟨hlt, rfl⟩ := List.getElem?_eq_some_iff.mp hp
      exact hnodup.idxOf_getElem p hlt
    have hin : b' ∈ pre := by
      rcases List.mem_append.mp ((hmem _ b' hq).mpr hqk) with hin | hin
      · exact hin
      · rcases List.mem_cons.mp hin with rfl | hin
        · have := (hidx hp).symm.trans (hidx hq)
          omega
        · exact absurd hw' (hpost b' hin)
    have hle := h key hk pre b post rfl hb hpost b' hin hw'
    rw [hidx hp, hidx hq] at hle
    omega
  · have hnone : ∀ b ∈ tampered, ¬ Writes b key := fun b hb hw => hwrites ⟨b, hb, hw⟩
    rw [getElem?_applyLog_of_not_writes _ hnone, getElem?_applyLog_of_not_writes]
    intro b hb hw
    obtain ⟨p, hp⟩ := List.mem_iff_getElem?.mp hb
    have hpk : p < k := by
      have := (List.getElem?_eq_some_iff.mp hp).1
      rw [List.length_take] at this
      omega
    rw [List.getElem?_take_of_lt hpk] at hp
    exact hnone b ((hmem p b hp).mpr hpk) hw

namespace Session

variable {s : Session C}

/-- Where no key of the tables is written by two of the records, every order is one in which the
newest is the last. -/
theorem newestLast_of_apart {recs tampered : List Batch}
    (h : ∀ key, DataKey key → ∀ b ∈ tampered, ∀ b' ∈ tampered, Writes b key → Writes b' key →
      b = b') : NewestLast recs tampered := by
  rintro key hkey pre b post rfl hb - b' hb' hw'
  rw [h key hkey b (by simp) b' (by simp [hb']) hb hw']

/-- Creating a table writes no key of the tables but that of its schema. -/
theorem writes_tablePlan {e : Engine C} {env : Env C} {name : String} {key : Bytes}
    (h : Writes (e.auditedBatch env (tablePlan e.master name)) key) (hkey : DataKey key) :
    key = C.catalogKey e.master name := by
  obtain ⟨op, hop, rfl⟩ := h
  exact key_auditedBatch_tablePlan hop hkey

/-- The records of the three tables, the first two exchanged. -/
def exchanged : List Batch :=
  [firstEngine.auditedBatch clearEnv (tablePlan () "u"),
    clearSession.engine.auditedBatch clearEnv (tablePlan () "t"),
    secondEngine.auditedBatch clearEnv (tablePlan () "v")]

/-- What the exchanged records leave. -/
def exchangedEngine : Engine Crypto.clear :=
  let log := Engine.freshBatches "passphrase" .recommended clearOpenEnv ++ exchanged
  Engine.opened ⟨⟨applyLog ∅ log, encodeLog log⟩, none⟩ ()
    (3, Crypto.clear.entryRoot (secondEngine.planEntry clearEnv (tablePlan () "v")))

theorem mem_exchanged {b : Batch} (hb : b ∈ exchanged) : b ∈ tableRecords := by
  simp only [exchanged, tableRecords, List.mem_cons, List.not_mem_nil, or_false] at hb ⊢
  tauto

theorem openLocal_exchanged : (Engine.openLocal (encodeLog (Engine.freshBatches "passphrase"
    .recommended clearOpenEnv ++ exchanged)) "passphrase" .recommended clearOpenEnv).1 =
      .ok exchangedEngine := by
  have hw : Writable (Engine.freshBatches "passphrase" .recommended clearOpenEnv ++ exchanged) := by
    intro b hb
    rcases List.mem_append.mp hb with hb | hb
    · exact writable_freshBatches _ _ _ b hb
    · exact writable_tableRecords b (mem_exchanged hb)
  exact openLocal_log (by decide) hw (by decide +kernel) (by decide +kernel)
    (.inr ⟨(), by decide +kernel⟩) _ _

theorem newestLast_exchanged (recs : List Batch) : NewestLast recs exchanged := by
  refine newestLast_of_apart fun key hkey b hb b' hb' hw hw' => ?_
  have hwriter : ∀ b ∈ exchanged, Writes b key →
      (b = clearSession.engine.auditedBatch clearEnv (tablePlan () "t") ∧
        key = Crypto.clear.catalogKey () "t") ∨
      (b = firstEngine.auditedBatch clearEnv (tablePlan () "u") ∧
        key = Crypto.clear.catalogKey () "u") ∨
      (b = secondEngine.auditedBatch clearEnv (tablePlan () "v") ∧
        key = Crypto.clear.catalogKey () "v") := by
    intro b hb hw
    simp only [exchanged, List.mem_cons, List.not_mem_nil, or_false] at hb
    rcases hb with rfl | rfl | rfl
    · exact .inr (.inl ⟨rfl, writes_tablePlan hw hkey⟩)
    · exact .inl ⟨rfl, writes_tablePlan hw hkey⟩
    · exact .inr (.inr ⟨rfl, writes_tablePlan hw hkey⟩)
  have htu : Crypto.clear.catalogKey () "t" ≠ Crypto.clear.catalogKey () "u" := by decide +kernel
  have htv : Crypto.clear.catalogKey () "t" ≠ Crypto.clear.catalogKey () "v" := by decide +kernel
  have huv : Crypto.clear.catalogKey () "u" ≠ Crypto.clear.catalogKey () "v" := by decide +kernel
  rcases hwriter b hb hw with ⟨rfl, hk⟩ | ⟨rfl, hk⟩ | ⟨rfl, hk⟩ <;>
    rcases hwriter b' hb' hw' with ⟨rfl, hk'⟩ | ⟨rfl, hk'⟩ | ⟨rfl, hk'⟩ <;>
    first | rfl | simp_all

/-- An instance whose ciphertexts open only under their own associated data, as long as that is
short, for concrete runs. -/
def Crypto.tagged : Crypto where
  MasterKey := Unit
  CipherKey := Unit
  Nonce := Unit
  derive _ _ _ := ()
  deriveKey _ _ := ()
  keyedTag _ _ data := fitTo 32 data
  sealWith _ _ plaintext aad := fitTo 28 aad ++ plaintext
  openSealed _ sealed aad := if sealed.take 28 = fitTo 28 aad then some (sealed.drop 28) else none
  sha256 data := fitTo 32 data
  length_keyedTag := length_fitTo_tag
  length_sha256 := length_fitTo_tag () ""
  length_sealWith _ _ plaintext aad := by rw [List.length_append, length_fitTo, Nat.add_comm]
  openSealed_sealWith _ _ plaintext aad := by
    rw [List.take_left' (length_fitTo _ _), if_pos rfl, List.drop_left' (length_fitTo _ _)]

def taggedOpenEnv : Engine.OpenEnv Crypto.tagged := ⟨ByteArr.zeros 16, (), .ok, .ok⟩

def taggedEnv : Env Crypto.tagged := ⟨0, fun _ => (), .ok, .integers⟩

def taggedSession : Session Crypto.tagged := create "passphrase" .recommended taggedOpenEnv

/-- The plan of a statement that drops a table without rows and indexes. -/
def dropPlan (mk : C.MasterKey) (name : String) : Plan C :=
  ⟨AuditKind.dropTable, name, [.delete (C.seqKey mk name), .delete (C.catalogKey mk name)],
    .dropped name⟩

theorem run_dropTable {r : Reader Bytes Bytes} {mk : C.MasterKey} {name : String} {t : TableSchema}
    (hschema : (schema C mk name).run r = .ok (some t)) (hrows : r.scan (C.rowPrefix mk name) = [])
    (hindexes : r.scan (C.indexPrefix mk name) = []) (hranges : r.scan (C.rangePrefix mk name) = []) :
    (dropTable C mk name).run r = .ok (dropPlan mk name) := by
  simp [dropTable, expectSchema, hschema, hrows, hindexes, hranges, dropPlan]

/-- A table is created and dropped again, then another one is created. -/
def droppedSteps : List (Step Crypto.tagged) :=
  [.statement taggedEnv (tableStatement "t"), .statement taggedEnv (.dropTable "t"),
    .statement taggedEnv (tableStatement "u")]

example : (tables Crypto.tagged ()).run
    (droppedSteps.foldl step taggedSession).engine.store.reader = .ok ["u"] := by
  decide +kernel

/-- The database after the first statement. -/
def createdEngine : Engine Crypto.tagged :=
  (taggedSession.engine.executeStatement taggedEnv (tableStatement "t")).2

/-- The database after the second statement. -/
def droppedEngine : Engine Crypto.tagged :=
  (createdEngine.executeStatement taggedEnv (.dropTable "t")).2

theorem wal_droppedSteps : (droppedSteps.foldl step taggedSession).engine.store.backend.wal =
    encodeLog (Engine.freshBatches "passphrase" .recommended taggedOpenEnv ++
      [taggedSession.engine.auditedBatch taggedEnv (tablePlan () "t"),
        createdEngine.auditedBatch taggedEnv (dropPlan () "t"),
        droppedEngine.auditedBatch taggedEnv (tablePlan () "u")]) := by
  have hfirst : taggedSession.engine.store.backend.wal =
      encodeLog (Engine.freshBatches "passphrase" .recommended taggedOpenEnv) :=
    (Engine.intact_writeAll Storage.intact_empty (writable_freshBatches _ _ _)).wal_eq
  have ha : HasPlan taggedSession.engine (tableStatement "t") (tablePlan () "t") :=
    ⟨by simp [tablePlan], run_tableStatement (getElem?_create_catalog _ _ _ _)⟩
  have hb : HasPlan createdEngine (.dropTable "t") (dropPlan () "t") := by
    refine ⟨by simp [dropPlan], _, rfl, ?_⟩
    rw [Store.reader_eq]
    refine run_dropTable (t := ⟨"t", [⟨"a", .int, false, false, false, false⟩]⟩) ?_ ?_ ?_ ?_ <;>
      decide +kernel
  have hc : HasPlan droppedEngine (tableStatement "u") (tablePlan () "u") :=
    ⟨by simp [tablePlan], run_tableStatement (by decide +kernel)⟩
  rw [Storage.encodeLog_append, ← hfirst]
  exact wal_foldl_statements rfl rfl rfl rfl ha hb hc

/-- The records of the run, the first two exchanged. -/
def reordered : List Batch :=
  [createdEngine.auditedBatch taggedEnv (dropPlan () "t"),
    taggedSession.engine.auditedBatch taggedEnv (tablePlan () "t"),
    droppedEngine.auditedBatch taggedEnv (tablePlan () "u")]

/-- What the exchanged records leave. -/
def reorderedEngine : Engine Crypto.tagged :=
  let log := Engine.freshBatches "passphrase" .recommended taggedOpenEnv ++ reordered
  Engine.opened ⟨⟨applyLog ∅ log, encodeLog log⟩, none⟩ ()
    (3, Crypto.tagged.entryRoot (droppedEngine.planEntry taggedEnv (tablePlan () "u")))

theorem openLocal_reordered : (Engine.openLocal (encodeLog (Engine.freshBatches "passphrase"
    .recommended taggedOpenEnv ++ reordered)) "passphrase" .recommended taggedOpenEnv).1 =
      .ok reorderedEngine := by
  have hw : Writable (Engine.freshBatches "passphrase" .recommended taggedOpenEnv ++ reordered) := by
    intro b hb
    rcases List.mem_append.mp hb with hb | hb
    · exact writable_freshBatches _ _ _ b hb
    · simp only [reordered, List.mem_cons, List.not_mem_nil, or_false] at hb
      rcases hb with rfl | rfl | rfl <;> exact ⟨auditedBatch_ne_nil _ _ _, by decide +kernel⟩
  exact openLocal_log (by decide) hw (by decide +kernel) (by decide +kernel)
    (.inr ⟨(), by decide +kernel⟩) _ _

end Session

end Ciphra
