import Ciphra.Engine.Reach
import Ciphra.Foundations.Patch

/-!
# The tables behind the storage keys

What a database says is a dictionary: every table has a slot for its schema, its sequence, each of
its rows, each index entry and each range index. The store keeps a slot sealed, under a key in
which tags stand for the name of the table and for an indexed value. `Rep` relates the two.

Tags are 16 bytes, so they cannot be injective on all names and values; they are taken to be so on
a `Lexicon`, the names and values that occur. Under that assumption keys determine their slots
(`Slot.key_injective`), writing a batch is patching the dictionary (`Rep.patchAll`), and reading the
store is reading the dictionary.
-/

namespace Ciphra

open OrdMap

/-! ## Slots -/

/-- A place of a table. -/
inductive Slot
  | catalog
  | seq
  | row (id : UInt64)
  | entry (col : ℕ) (value : Value) (id : UInt64)
  | range (col : ℕ)
  deriving DecidableEq

/-- What a slot holds. -/
@[reducible] def Slot.Payload : Slot → Type
  | .catalog => TableSchema
  | .seq => UInt64
  | .row _ => Row
  | .entry _ _ _ => Unit
  | .range _ => List (Value × UInt64)

/-- The contents of a table. -/
abbrev Table := Slots Slot.Payload

/-- The plaintext of a slot. -/
def Slot.encode : (s : Slot) → s.Payload → Bytes
  | .catalog, schema => encodeSchema schema
  | .seq, next => leBytes 8 next.toNat
  | .row _, values => encodeRow values
  | .entry _ _ _, _ => []
  | .range _, entries => encodeRangeBlob entries

section

variable (C : Crypto) (mk : C.MasterKey)

/-- The storage key of a slot. -/
def Slot.key (t : String) : Slot → Bytes
  | .catalog => C.catalogKey mk t
  | .seq => C.seqKey mk t
  | .row id => C.rowKey mk t id
  | .entry col value id => C.indexKey mk t col value id
  | .range col => C.rangeIndexKey mk t col

/-- The key a slot is sealed under. -/
def Slot.cipher (t : String) : Slot → C.CipherKey
  | .catalog => C.deriveKey mk "catalog"
  | _ => C.tableKey mk t

/-- A patch of a table as a write. -/
def Patch.unsealed (t : String) (w : Patch Slot.Payload) : Unsealed C :=
  match w.value with
  | some p => .put (w.slot.key C mk t) (w.slot.cipher C mk t) (w.slot.encode p)
  | none => .delete (w.slot.key C mk t)

end

/-- The names and values that occur in a database. -/
structure Lexicon where
  names : Set String
  values : Set Value

/-- Under a master key, the names and values of the lexicon have distinct tags. -/
structure Lexicon.Distinct {C : Crypto} (L : Lexicon) (mk : C.MasterKey) : Prop where
  tableTag_injOn : Set.InjOn (C.tableTag mk) L.names
  valueTag_injOn : ∀ t ∈ L.names, ∀ col < 2 ^ 16, Set.InjOn (C.valueTag mk t col) L.values

/-- The slot can occur. -/
def Slot.Valid (L : Lexicon) : Slot → Prop
  | .entry col value _ => col < 2 ^ 16 ∧ value ∈ L.values
  | .range col => col < 2 ^ 16
  | _ => True

/-! ## Keys determine slots -/

namespace Slot

/-- The part of a key that says what kind of slot it is. -/
def kind : Slot → Bytes
  | .catalog => catalogPrefix
  | .seq => seqPrefix
  | .row _ => rowsPrefix
  | .entry _ _ _ => indexesPrefix
  | .range _ => rangesPrefix

/-- Kinds differ in their first two bytes. -/
theorem kind_eq_of_take {s s' : Slot} (h : s.kind.take 2 = s'.kind.take 2) : s.kind = s'.kind := by
  cases s <;> cases s' <;> first | rfl | (revert h; simp [kind, catalogPrefix, seqPrefix,
    rowsPrefix, indexesPrefix, rangesPrefix])

theorem two_le_length_kind (s : Slot) : 2 ≤ s.kind.length := by
  cases s <;> simp [kind, catalogPrefix, seqPrefix, rowsPrefix, indexesPrefix, rangesPrefix]

variable {C : Crypto} {L : Lexicon} {mk : C.MasterKey}

/-- The part of a key behind the table tag. -/
def suffix (C : Crypto) (mk : C.MasterKey) (t : String) : Slot → Bytes
  | .catalog => []
  | .seq => []
  | .row id => beBytes 8 id.toNat
  | .entry col value id => beBytes 2 col ++ (C.valueTag mk t col value ++ beBytes 8 id.toNat)
  | .range col => beBytes 2 col

theorem key_eq (s : Slot) (t : String) :
    s.key C mk t = s.kind ++ (C.tableTag mk t ++ s.suffix C mk t) := by
  cases s with
  | catalog => simp [key, kind, suffix, Crypto.catalogKey]
  | seq => simp [key, kind, suffix, Crypto.seqKey]
  | row id => simp [key, kind, suffix, Crypto.rowKey, Crypto.rowPrefix]
  | entry col value id =>
    simp [key, kind, suffix, Crypto.indexKey, Crypto.indexValuePrefix, Crypto.indexColumnPrefix,
      Crypto.indexPrefix]
  | range col => simp [key, kind, suffix, Crypto.rangeIndexKey, Crypto.rangePrefix]

/-- The beginning of a key determines kind and table. -/
theorem of_isPrefix_key (hL : L.Distinct mk) {s s' : Slot} {t t' : String} (ht : t ∈ L.names) (ht' : t' ∈ L.names)
    {x : Bytes} (h : s.kind ++ (C.tableTag mk t ++ x) <+: s'.key C mk t') :
    s.kind = s'.kind ∧ t = t' ∧ x <+: s'.suffix C mk t' := by
  rw [key_eq] at h
  have hkind : s.kind = s'.kind := by
    apply kind_eq_of_take
    obtain ⟨r, hr⟩ := h
    have htake := congrArg (List.take 2) hr
    rw [List.append_assoc, List.take_append_of_le_length s.two_le_length_kind,
      List.take_append_of_le_length s'.two_le_length_kind] at htake
    exact htake
  rw [hkind, List.prefix_append_right_inj] at h
  have htag : C.tableTag mk t = C.tableTag mk t' := by
    obtain ⟨r, hr⟩ := h
    rw [List.append_assoc] at hr
    exact List.append_inj_left hr (by simp)
  rw [htag, List.prefix_append_right_inj] at h
  exact ⟨hkind, hL.tableTag_injOn ht ht' htag, h⟩

theorem suffix_injective (hL : L.Distinct mk) {s s' : Slot} (hkind : s.kind = s'.kind) (hs : s.Valid L)
    (hs' : s'.Valid L) {t : String} (ht : t ∈ L.names)
    (h : s.suffix C mk t = s'.suffix C mk t) : s = s' := by
  have hid : ∀ id id' : UInt64, beBytes 8 id.toNat = beBytes 8 id'.toNat → id = id' := by
    intro id id' he
    exact UInt64.toNat_inj.mp ((beBytes_inj id.toNat_lt id'.toNat_lt).mp he)
  cases s <;> cases s' <;> simp [kind, catalogPrefix, seqPrefix, rowsPrefix, indexesPrefix,
    rangesPrefix] at hkind
  · rfl
  · rfl
  · exact congrArg Slot.row (hid _ _ h)
  · rename_i col v id col' v' id'
    obtain ⟨hcol, hv⟩ := hs
    obtain ⟨hcol', hv'⟩ := hs'
    obtain ⟨he, hrest⟩ := List.append_inj h (by simp)
    obtain rfl : col = col' := (beBytes_inj hcol hcol').mp he
    obtain ⟨htag, hi⟩ := List.append_inj hrest (by simp)
    obtain rfl := hL.valueTag_injOn t ht col hcol hv hv' htag
    rw [hid _ _ hi]
  · rename_i col col'
    rw [(beBytes_inj (show col < 256 ^ 2 from hs) (show col' < 256 ^ 2 from hs')).mp h]

/-- **A key determines its table and its slot.** -/
theorem key_injective (hL : L.Distinct mk) {s s' : Slot} {t t' : String} (ht : t ∈ L.names)
    (ht' : t' ∈ L.names) (hs : s.Valid L) (hs' : s'.Valid L) (h : s.key C mk t = s'.key C mk t') : t = t' ∧ s = s' := by
  have hp : s.kind ++ (C.tableTag mk t ++ s.suffix C mk t) <+: s'.key C mk t' := by
    rw [← key_eq, h]
  obtain ⟨hkind, rfl, -⟩ := of_isPrefix_key hL ht ht' hp
  rw [key_eq, key_eq, hkind, List.append_cancel_left_eq, List.append_cancel_left_eq] at h
  exact ⟨rfl, suffix_injective hL hkind hs hs' ht h⟩

theorem dataKey_key (s : Slot) (t : String) : DataKey (s.key C mk t) := by
  cases s with
  | catalog => exact dataKey_catalogKey t
  | seq => exact dataKey_seqKey t
  | row id => exact dataKey_rowKey t id
  | entry col value id => exact dataKey_indexKey t col value id
  | range col => exact dataKey_rangeIndexKey t col

end Slot

/-! ## The store keeps a dictionary -/

/-- Under the key stands this plaintext, sealed, or nothing. -/
def Stored (C : Crypto) (m : ByteMap) (key : Bytes) (k : C.CipherKey) : Option Bytes → Prop
  | none => m[key]? = none
  | some plain => ∃ nonce, m[key]? = some (C.sealWith k nonce plain key)

variable {C : Crypto} {L : Lexicon} {mk : C.MasterKey} {m m' : ByteMap} {D : String → Table}

theorem Stored.congr {key : Bytes} {k : C.CipherKey} {x : Option Bytes} (h : m'[key]? = m[key]?)
    (hs : Stored C m key k x) : Stored C m' key k x := by
  cases x with
  | none => exact h.trans hs
  | some plain =>
    obtain ⟨nonce, hs⟩ := hs
    exact ⟨nonce, h.trans hs⟩

/-- The map stores the tables, under keys that can be told apart. -/
structure Rep (L : Lexicon) (mk : C.MasterKey) (m : ByteMap) (D : String → Table) : Prop where
  distinct : L.Distinct mk
  stored : ∀ t ∈ L.names, ∀ s : Slot, s.Valid L →
    Stored C m (s.key C mk t) (s.cipher C mk t) ((D t s).map s.encode)
  valid : ∀ t ∈ L.names, ∀ s : Slot, D t s ≠ none → s.Valid L
  only : ∀ key, DataKey key → m[key]? ≠ none →
    ∃ t ∈ L.names, ∃ s : Slot, s.Valid L ∧ key = s.key C mk t

/-- Maps that agree on data keys store the same tables. -/
theorem Rep.congr (h : Rep L mk m D) (heq : ∀ key, DataKey key → m'[key]? = m[key]?) :
    Rep L mk m' D where
  distinct := h.distinct
  stored t ht s hs := (h.stored t ht s hs).congr (heq _ (s.dataKey_key t))
  valid := h.valid
  only key hk hne := h.only key hk (by rwa [heq key hk] at hne)

/-- A write to one slot. -/
theorem Rep.patch (h : Rep L mk m D) {t : String} (ht : t ∈ L.names) {w : Patch Slot.Payload}
    (hw : w.slot.Valid L) (hother : ∀ key, key ≠ w.slot.key C mk t → m'[key]? = m[key]?)
    (hself : Stored C m' (w.slot.key C mk t) (w.slot.cipher C mk t) (w.value.map w.slot.encode)) :
    Rep L mk m' (Function.update D t (Ciphra.patch (D t) w)) where
  distinct := h.distinct
  stored t' ht' s' hs' := by
    by_cases hkey : s'.key C mk t' = w.slot.key C mk t
    · obtain ⟨rfl, rfl⟩ := Slot.key_injective h.distinct ht' ht hs' hw hkey
      rw [Function.update_self]
      obtain ⟨s, v⟩ := w
      rw [patch_self]
      exact hself
    · have hD : Function.update D t (Ciphra.patch (D t) w) t' s' = D t' s' := by
        by_cases htt : t' = t
        · subst htt
          rw [Function.update_self]
          exact patch_of_ne fun hs => hkey (by rw [hs])
        · rw [Function.update_of_ne htt]
      rw [hD]
      exact (h.stored t' ht' s' hs').congr (hother _ hkey)
  valid t' ht' s' hne := by
    by_cases htt : t' = t
    · subst htt
      rw [Function.update_self] at hne
      by_cases hs : w.slot = s'
      · exact hs ▸ hw
      · rw [patch_of_ne hs] at hne
        exact h.valid t' ht' s' hne
    · rw [Function.update_of_ne htt] at hne
      exact h.valid t' ht' s' hne
  only key hk hne := by
    by_cases hkey : key = w.slot.key C mk t
    · exact ⟨t, ht, w.slot, hw, hkey⟩
    · rw [hother key hkey] at hne
      exact h.only key hk hne

/-- **A batch of writes to a table patches it.** -/
theorem Rep.patchAll (h : Rep L mk m D) {t : String} (ht : t ∈ L.names)
    {ws : List (Patch Slot.Payload)} (hws : ∀ w ∈ ws, w.slot.Valid L) (nonces : ℕ → C.Nonce) :
    Rep L mk (applyAll m (C.sealWrites nonces (ws.map (Patch.unsealed C mk t))))
      (Function.update D t (Ciphra.patchAll (D t) ws)) := by
  induction ws generalizing m D nonces with
  | nil =>
    rw [patchAll_nil, Function.update_eq_self]
    exact h
  | cons w ws ih =>
    obtain ⟨s, v⟩ := w
    have hs : s.Valid L := hws _ List.mem_cons_self
    have hrest := fun w hw => hws w (List.mem_cons_of_mem _ hw)
    have hnext : ∀ {m'}, Rep L mk m' (Function.update D t (Ciphra.patch (D t) ⟨s, v⟩)) →
        ∀ nonces, Rep L mk (applyAll m' (C.sealWrites nonces (ws.map (Patch.unsealed C mk t))))
          (Function.update D t (Ciphra.patchAll (D t) (⟨s, v⟩ :: ws))) := by
      intro m' hm' nonces
      have := ih hm' hrest nonces
      rwa [Function.update_self, Function.update_idem] at this
    cases v with
    | some p =>
      refine hnext (h.patch ht hs (fun key hkey => ?_) ⟨nonces 0, ?_⟩) _
      · simp only [Mutation.apply]
        rw [getElem?_insert_eq, if_neg (Ne.symm hkey)]
      · simp only [Mutation.apply]
        rw [getElem?_insert_eq, if_pos rfl]
    | none =>
      refine hnext (h.patch ht hs (fun key hkey => ?_) ?_) _
      · simp only [Mutation.apply]
        rw [getElem?_erase_eq, if_neg (Ne.symm hkey)]
      · simp only [Mutation.apply]
        exact (getElem?_erase_eq _ _ _).trans (if_pos rfl)

/-! ## Reading slots -/

/-- A slot that holds nothing. -/
theorem Rep.getElem?_none (h : Rep L mk m D) {t : String} (ht : t ∈ L.names) {s : Slot}
    (hs : s.Valid L) (hD : D t s = none) : m[s.key C mk t]? = none := by
  have hst := h.stored t ht s hs
  rw [hD] at hst
  exact hst

/-- A slot that holds a value: what stands in the store opens to its encoding. -/
theorem Rep.getElem?_some (h : Rep L mk m D) {t : String} (ht : t ∈ L.names) {s : Slot}
    {x : s.Payload} (hD : D t s = some x) :
    ∃ sealed, m[s.key C mk t]? = some sealed ∧
      openValue C (s.cipher C mk t) sealed (s.key C mk t) = .ok (s.encode x) := by
  have hst := h.stored t ht s (h.valid t ht s (by rw [hD]; exact Option.some_ne_none x))
  rw [hD] at hst
  obtain ⟨nonce, hst⟩ := hst
  exact ⟨_, hst, by rw [openValue, C.openSealed_sealWith]⟩

theorem Rep.ne_none_iff (h : Rep L mk m D) {t : String} (ht : t ∈ L.names) {s : Slot}
    (hs : s.Valid L) : m[s.key C mk t]? ≠ none ↔ D t s ≠ none := by
  cases hD : D t s with
  | none => simp [h.getElem?_none ht hs hD]
  | some x =>
    obtain ⟨sealed, hm, -⟩ := h.getElem?_some ht hD
    simp [hm]

theorem run_reader_fetch (key : Bytes) :
    (Query.fetch key : Read (Option Bytes)).run m.reader = .ok m[key]? := rfl

/-- Reading the schema of a table. -/
theorem Rep.run_schema_none (h : Rep L mk m D) {t : String} (ht : t ∈ L.names)
    (hD : D t .catalog = none) : (schema C mk t).run m.reader = .ok none := by
  have hget : m[C.catalogKey mk t]? = none := h.getElem?_none ht (s := .catalog) trivial hD
  simp only [schema, Query.run_bind, run_reader_fetch, ok_bind, hget, Query.run_pure]

theorem Rep.run_schema_some (h : Rep L mk m D) {t : String} (ht : t ∈ L.names) {s : TableSchema}
    (hD : D t .catalog = some s) :
    (schema C mk t).run m.reader = decodeSchema (encodeSchema s) >>= fun s => pure (some s) := by
  obtain ⟨sealed, hget, hopen⟩ := h.getElem?_some ht hD
  have hget : m[C.catalogKey mk t]? = some sealed := hget
  have hopen : openValue C (C.deriveKey mk "catalog") sealed (C.catalogKey mk t) =
    .ok (encodeSchema s) := hopen
  simp only [schema, Query.run_bind, run_reader_fetch, ok_bind, hget, Query.run_ofExcept, hopen,
    Query.run_pure]
  rfl

/-- Reading the sequence of a table. -/
theorem Rep.run_loadSeq (h : Rep L mk m D) {t : String} (ht : t ∈ L.names) :
    (loadSeq C mk t).run m.reader = .ok ((D t .seq).getD 0) := by
  cases hD : D t .seq with
  | none =>
    have hget : m[C.seqKey mk t]? = none := h.getElem?_none ht (s := .seq) trivial hD
    simp only [loadSeq, Query.run_bind, run_reader_fetch, ok_bind, hget, Query.run_pure]
    rfl
  | some next =>
    obtain ⟨sealed, hget, hopen⟩ := h.getElem?_some ht hD
    have hget : m[C.seqKey mk t]? = some sealed := hget
    have hopen : openValue C (C.tableKey mk t) sealed (C.seqKey mk t) =
      .ok (leBytes 8 next.toNat) := hopen
    have hseq : leNat (leBytes 8 next.toNat) = next.toNat := leNat_leBytes_of_lt next.toNat_lt
    simp only [loadSeq, Query.run_bind, run_reader_fetch, ok_bind, hget, Query.run_ofExcept, hopen,
      length_leBytes, if_true, Query.run_pure, hseq, UInt64.ofNat_toNat]
    rfl

/-- Reading a range index. -/
theorem Rep.run_loadRangeIndex (h : Rep L mk m D) {t : String} (ht : t ∈ L.names) {col : ℕ}
    (hcol : col < 2 ^ 16)
    (hfit : ∀ es, D t (.range col) = some es → decodeRangeBlob (encodeRangeBlob es) = .ok es) :
    (loadRangeIndex C mk t col).run m.reader = .ok ((D t (.range col)).getD []) := by
  cases hD : D t (.range col) with
  | none =>
    have hget : m[C.rangeIndexKey mk t col]? = none :=
      h.getElem?_none ht (s := .range col) hcol hD
    simp only [loadRangeIndex, Query.run_bind, run_reader_fetch, ok_bind, hget, Query.run_pure]
    rfl
  | some es =>
    obtain ⟨sealed, hget, hopen⟩ := h.getElem?_some ht hD
    have hget : m[C.rangeIndexKey mk t col]? = some sealed := hget
    have hopen : openValue C (C.tableKey mk t) sealed (C.rangeIndexKey mk t col) =
      .ok (encodeRangeBlob es) := hopen
    simp only [loadRangeIndex, Query.run_bind, run_reader_fetch, ok_bind, hget, Query.run_ofExcept,
      hopen, hfit es hD]
    rfl

/-- Every row of the table is read back as it was written. -/
def RowsFit (T : Table) : Prop := ∀ id row, T (.row id) = some row → RowFits row

theorem Rep.readRow (h : Rep L mk m D) {t : String} (ht : t ∈ L.names) (hfit : RowsFit (D t))
    {id : UInt64} {row : Row} (hD : D t (.row id) = some row) :
    ∃ sealed, m[C.rowKey mk t id]? = some sealed ∧
      Ciphra.readRow C mk t (C.rowKey mk t id) sealed = .ok row := by
  obtain ⟨sealed, hget, hopen⟩ := h.getElem?_some ht hD
  have hopen : openValue C (C.tableKey mk t) sealed (C.rowKey mk t id) = .ok (encodeRow row) := hopen
  refine ⟨sealed, hget, ?_⟩
  rw [Ciphra.readRow, hopen]
  exact decodeRow_encodeRow (hfit id row hD)

/-- Reading rows by their ids. -/
theorem Rep.run_fetchRows (h : Rep L mk m D) {t : String} (ht : t ∈ L.names) (hfit : RowsFit (D t))
    (ids : List UInt64) :
    (fetchRows C mk t ids).run m.reader = .ok (ids.filterMap fun id =>
      (D t (.row id)).map fun row => (C.rowKey mk t id, row)) := by
  simp only [fetchRows, Query.run_bind, Query.run_mapM, run_reader_fetch, ok_bind]
  rw [mapM_ok (g := fun id => (D t (.row id)).map fun row => (C.rowKey mk t id, row))]
  · rw [ok_bind, Query.run_pure, List.filterMap_map]
    rfl
  · intro id _
    cases hD : D t (.row id) with
    | none =>
      have hget : m[C.rowKey mk t id]? = none := h.getElem?_none ht (s := .row id) trivial hD
      rw [hget]
      rfl
    | some row =>
      obtain ⟨sealed, hget, hread⟩ := h.readRow ht hfit hD
      rw [hget]
      simp only [Query.run_bind, Query.run_ofExcept, hread, ok_bind, Query.run_pure]
      rfl

/-! ## Scans -/

theorem exists_map_eq {α β : Type} {f : α → β} {l : List β} (h : ∀ b ∈ l, ∃ a, f a = b) :
    ∃ l' : List α, l'.map f = l := by
  induction l with
  | nil => exact ⟨[], rfl⟩
  | cons b l ih =>
    obtain ⟨a, rfl⟩ := h b List.mem_cons_self
    obtain ⟨l', rfl⟩ := ih fun c hc => h c (List.mem_cons_of_mem _ hc)
    exact ⟨a :: l', rfl⟩

/-- A scan over keys that are built from something lists what they are built from. -/
theorem scanPrefix_eq_map {α : Type} (m : ByteMap) {p : Bytes} {f : α → Bytes} {Q : α → Prop}
    (hf : ∀ key, p <+: key → m[key]? ≠ none → ∃ a, f a = key ∧ Q a)
    (hQ : ∀ a, Q a → p <+: f a ∧ m[f a]? ≠ none) (hinj : ∀ a b, Q a → Q b → f a = f b → a = b) :
    ∃ l : List α, l.Nodup ∧ (∀ a, a ∈ l ↔ Q a) ∧
      m.scanPrefix p = l.map fun a => (f a, (m[f a]?).getD []) := by
  have hex : ∀ e ∈ m.scanPrefix p, ∃ a : {a // Q a}, (f a.1, (m[f a.1]?).getD []) = e := by
    rintro ⟨k, x⟩ he
    obtain ⟨hx, hp⟩ := (m.mem_scanPrefix p k x).mp he
    obtain ⟨a, rfl, ha⟩ := hf k hp (by rw [hx]; exact Option.some_ne_none x)
    exact ⟨⟨a, ha⟩, by rw [hx]; rfl⟩
  obtain ⟨l, hl⟩ := exists_map_eq hex
  refine ⟨l.map Subtype.val, ?_, fun a => ⟨fun ha => ?_, fun ha => ?_⟩, by rw [← hl, List.map_map]; rfl⟩
  · have hn : (l.map fun a : {a // Q a} => (f a.1, (m[f a.1]?).getD [])).Nodup := by
      rw [hl]
      exact (m.sortedKeys_scanPrefix p).nodup
    exact List.Nodup.map Subtype.val_injective (List.Nodup.of_map _ hn)
  · obtain ⟨b, -, rfl⟩ := List.mem_map.mp ha
    exact b.2
  · obtain ⟨hp, hne⟩ := hQ a ha
    obtain ⟨x, hx⟩ := Option.ne_none_iff_exists'.mp hne
    have hmem := (m.mem_scanPrefix p (f a) x).mpr ⟨hx, hp⟩
    rw [← hl] at hmem
    obtain ⟨b, hb, he⟩ := List.mem_map.mp hmem
    have hab := hinj b.1 a b.2 ha (congrArg Prod.fst he)
    exact List.mem_map.mpr ⟨b, hb, hab⟩

/-- A scan under a prefix that belongs to one table lists slots of it. -/
theorem Rep.scan (h : Rep L mk m D) {t : String} (ht : t ∈ L.names) {p : Bytes} {Q : Slot → Prop}
    (hp : ∀ key, p <+: key → DataKey key)
    (hs : ∀ t' ∈ L.names, ∀ s : Slot, s.Valid L → p <+: s.key C mk t' → t' = t ∧ Q s)
    (hQ : ∀ s, Q s → p <+: s.key C mk t) :
    ∃ slots : List Slot, slots.Nodup ∧ (∀ s, s ∈ slots ↔ Q s ∧ D t s ≠ none) ∧
      m.scanPrefix p = slots.map fun s => (s.key C mk t, (m[s.key C mk t]?).getD []) := by
  apply scanPrefix_eq_map m (f := Slot.key C mk t) (Q := fun s => Q s ∧ D t s ≠ none)
  · intro key hpk hne
    obtain ⟨t', ht', s, hv, rfl⟩ := h.only key (hp key hpk) hne
    obtain ⟨rfl, hq⟩ := hs t' ht' s hv hpk
    exact ⟨s, rfl, hq, (h.ne_none_iff ht hv).mp hne⟩
  · rintro s ⟨hq, hne⟩
    exact ⟨hQ s hq, (h.ne_none_iff ht (h.valid t ht s hne)).mpr hne⟩
  · rintro s s' ⟨-, hne⟩ ⟨-, hne'⟩ heq
    exact (Slot.key_injective h.distinct ht ht (h.valid t ht s hne) (h.valid t ht s' hne') heq).2

theorem Slot.kind_row {s : Slot} (h : rowsPrefix = s.kind) : ∃ id, s = .row id := by
  cases s <;> simp_all [Slot.kind, catalogPrefix, seqPrefix, rowsPrefix, indexesPrefix, rangesPrefix]

theorem Slot.kind_entry {s : Slot} (h : indexesPrefix = s.kind) :
    ∃ col v id, s = .entry col v id := by
  cases s <;> simp_all [Slot.kind, catalogPrefix, seqPrefix, rowsPrefix, indexesPrefix, rangesPrefix]

theorem Slot.kind_range {s : Slot} (h : rangesPrefix = s.kind) : ∃ col, s = .range col := by
  cases s <;> simp_all [Slot.kind, catalogPrefix, seqPrefix, rowsPrefix, indexesPrefix, rangesPrefix]

theorem Rep.scan_rows (h : Rep L mk m D) {t : String} (ht : t ∈ L.names) :
    ∃ slots : List Slot, slots.Nodup ∧ (∀ s, s ∈ slots ↔ (∃ id, s = .row id) ∧ D t s ≠ none) ∧
      m.scanPrefix (C.rowPrefix mk t) =
        slots.map fun s => (s.key C mk t, (m[s.key C mk t]?).getD []) := by
  refine h.scan ht (fun key hk => dataKey_of_rowPrefix hk) (fun t' ht' s _ hpk => ?_) ?_
  · have hpk' : (Slot.row 0).kind ++ (C.tableTag mk t ++ []) <+: s.key C mk t' := by
      rw [List.append_nil]
      exact hpk
    obtain ⟨hkind, rfl, -⟩ := Slot.of_isPrefix_key h.distinct ht ht' hpk'
    exact ⟨rfl, Slot.kind_row hkind⟩
  · rintro s ⟨id, rfl⟩
    exact rowPrefix_rowKey t id

theorem Rep.scan_entries (h : Rep L mk m D) {t : String} (ht : t ∈ L.names) :
    ∃ slots : List Slot, slots.Nodup ∧
      (∀ s, s ∈ slots ↔ (∃ col v id, s = .entry col v id) ∧ D t s ≠ none) ∧
      m.scanPrefix (C.indexPrefix mk t) =
        slots.map fun s => (s.key C mk t, (m[s.key C mk t]?).getD []) := by
  refine h.scan ht (fun key hk => dataKey_of_indexPrefix hk) (fun t' ht' s _ hpk => ?_) ?_
  · have hpk' : (Slot.entry 0 .null 0).kind ++ (C.tableTag mk t ++ []) <+: s.key C mk t' := by
      rw [List.append_nil]
      exact hpk
    obtain ⟨hkind, rfl, -⟩ := Slot.of_isPrefix_key h.distinct ht ht' hpk'
    exact ⟨rfl, Slot.kind_entry hkind⟩
  · rintro s ⟨col, v, id, rfl⟩
    exact indexPrefix_indexKey t col v id

theorem Rep.scan_ranges (h : Rep L mk m D) {t : String} (ht : t ∈ L.names) :
    ∃ slots : List Slot, slots.Nodup ∧ (∀ s, s ∈ slots ↔ (∃ col, s = .range col) ∧ D t s ≠ none) ∧
      m.scanPrefix (C.rangePrefix mk t) =
        slots.map fun s => (s.key C mk t, (m[s.key C mk t]?).getD []) := by
  refine h.scan ht (fun key hk => dataKey_of_rangePrefix hk) (fun t' ht' s _ hpk => ?_) ?_
  · have hpk' : (Slot.range 0).kind ++ (C.tableTag mk t ++ []) <+: s.key C mk t' := by
      rw [List.append_nil]
      exact hpk
    obtain ⟨hkind, rfl, -⟩ := Slot.of_isPrefix_key h.distinct ht ht' hpk'
    exact ⟨rfl, Slot.kind_range hkind⟩
  · rintro s ⟨col, rfl⟩
    exact List.prefix_append _ _

/-- The entries of one column. -/
theorem Rep.scan_column (h : Rep L mk m D) {t : String} (ht : t ∈ L.names) {col : ℕ}
    (hcol : col < 2 ^ 16) :
    ∃ slots : List Slot, slots.Nodup ∧
      (∀ s, s ∈ slots ↔ (∃ v id, s = .entry col v id) ∧ D t s ≠ none) ∧
      m.scanPrefix (C.indexColumnPrefix mk t col) =
        slots.map fun s => (s.key C mk t, (m[s.key C mk t]?).getD []) := by
  refine h.scan ht (fun key hk => dataKey_of_indexPrefix
    ((indexPrefix_indexColumnPrefix t col).trans hk)) (fun t' ht' s hv hpk => ?_) ?_
  · have hpk' : (Slot.entry 0 .null 0).kind ++ (C.tableTag mk t ++ beBytes 2 col) <+:
        s.key C mk t' := by
      rw [← List.append_assoc]
      exact hpk
    obtain ⟨hkind, rfl, hsuf⟩ := Slot.of_isPrefix_key h.distinct ht ht' hpk'
    obtain ⟨col', v, id, rfl⟩ := Slot.kind_entry hkind
    obtain ⟨r, hr⟩ := hsuf
    have hbytes := List.append_inj_left hr (by simp)
    obtain rfl := (beBytes_inj (show col < 256 ^ 2 from hcol) hv.1).mp hbytes
    exact ⟨rfl, v, id, rfl⟩
  · rintro s ⟨v, id, rfl⟩
    exact (List.prefix_append _ _).trans (List.prefix_append _ _)

/-- The entries of one value of a column. -/
theorem Rep.scan_value (h : Rep L mk m D) {t : String} (ht : t ∈ L.names) {col : ℕ}
    (hcol : col < 2 ^ 16) {v : Value} (hv : v ∈ L.values) :
    ∃ slots : List Slot, slots.Nodup ∧
      (∀ s, s ∈ slots ↔ (∃ id, s = .entry col v id) ∧ D t s ≠ none) ∧
      m.scanPrefix (C.indexValuePrefix mk t col v) =
        slots.map fun s => (s.key C mk t, (m[s.key C mk t]?).getD []) := by
  refine h.scan ht (fun key hk => dataKey_of_indexPrefix
    ((indexPrefix_indexColumnPrefix t col).trans ((List.prefix_append _ _).trans hk)))
    (fun t' ht' s hvalid hpk => ?_) ?_
  · have hpk' : (Slot.entry 0 .null 0).kind ++ (C.tableTag mk t ++
        (beBytes 2 col ++ C.valueTag mk t col v)) <+: s.key C mk t' := by
      rw [← List.append_assoc, ← List.append_assoc]
      exact hpk
    obtain ⟨hkind, rfl, hsuf⟩ := Slot.of_isPrefix_key h.distinct ht ht' hpk'
    obtain ⟨col', v', id, rfl⟩ := Slot.kind_entry hkind
    obtain ⟨r, hr⟩ := hsuf
    rw [List.append_assoc] at hr
    obtain ⟨hbytes, hrest⟩ := List.append_inj hr (by simp)
    obtain rfl := (beBytes_inj (show col < 256 ^ 2 from hcol) hvalid.1).mp hbytes
    have htag := List.append_inj_left hrest (by simp)
    obtain rfl := h.distinct.valueTag_injOn t ht col hcol hv hvalid.2 htag
    exact ⟨rfl, id, rfl⟩
  · rintro s ⟨id, rfl⟩
    exact List.prefix_append _ _

end Ciphra
