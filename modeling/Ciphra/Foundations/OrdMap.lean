import Ciphra.Foundations.Bytes

/-!
# Ordered maps, batches of mutations and overlays

The ordered map of the standard library, `Std.ExtTreeMap`, with what a key-value store needs of
it: mutations applied one after the other (`Mutation.applyAll`), a scan of the keys with a given
prefix (`scanPrefix`, characterised by `scanPrefix_eq_filter`), and a map of pending changes laid
over a base map (`layer`, `getElem?_layer`).

Extensionality is `Std.ExtTreeMap.ext_getElem?`; for the ordered list of entries it is
`eq_of_mem_iff`: two lists sorted by key with the same members are equal.
-/

set_option linter.unusedSectionVars false

namespace Ciphra

open Std

universe u v

variable {K : Type u} {V : Type v} [Ord K] [TransOrd K] [LawfulEqOrd K]

/-- An ordered map. -/
abbrev OrdMap (K : Type u) (V : Type v) [Ord K] := ExtTreeMap K V compare

namespace OrdMap

theorem getElem?_insert_eq [DecidableEq K] (m : OrdMap K V) (k a : K) (x : V) :
    (m.insert k x)[a]? = if k = a then some x else m[a]? := by
  simp only [ExtTreeMap.getElem?_insert, Std.compare_eq_iff_eq]

theorem getElem?_erase_eq [DecidableEq K] (m : OrdMap K V) (k a : K) :
    (m.erase k)[a]? = if k = a then none else m[a]? := by
  simp only [ExtTreeMap.getElem?_erase, Std.compare_eq_iff_eq]

/-! ## Lists sorted by key -/

/-- The entries stand in strictly increasing key order. -/
def SortedKeys (l : List (K × V)) : Prop := l.Pairwise fun a b => compare a.1 b.1 = .lt

theorem sortedKeys_toList (m : OrdMap K V) : SortedKeys m.toList := ExtTreeMap.ordered_keys_toList

theorem mem_toList_iff (m : OrdMap K V) (k : K) (x : V) : (k, x) ∈ m.toList ↔ m[k]? = some x :=
  ExtTreeMap.mem_toList_iff_getElem?_eq_some

theorem SortedKeys.sublist {l l' : List (K × V)} (h : SortedKeys l) (hs : l'.Sublist l) :
    SortedKeys l' := List.Pairwise.sublist hs h

theorem SortedKeys.nodup {l : List (K × V)} (h : SortedKeys l) : l.Nodup := by
  refine List.Pairwise.imp ?_ h
  rintro a b hab rfl
  simp at hab

/-- Two lists sorted by key with the same members are equal. -/
theorem SortedKeys.eq_of_mem_iff {l l' : List (K × V)} (h : SortedKeys l) (h' : SortedKeys l')
    (hmem : ∀ e, e ∈ l ↔ e ∈ l') : l = l' := by
  have hperm : l.Perm l' := (List.perm_ext_iff_of_nodup h.nodup h'.nodup).mpr hmem
  refine hperm.eq_of_pairwise (fun a b _ _ hab hba => ?_) h h'
  have := OrientedOrd.eq_swap (a := a.1) (b := b.1)
  rw [hab, hba] at this
  cases this

/-- The first entries of a sorted list are those with the smallest keys. -/
theorem SortedKeys.mem_of_isPrefix {l l' : List (K × V)} (h : SortedKeys l) (hp : l' <+: l)
    {a b : K × V} (ha : a ∈ l') (hb : b ∈ l) (hlt : compare b.1 a.1 = .lt) : b ∈ l' := by
  obtain ⟨t, rfl⟩ := hp
  rcases List.mem_append.mp hb with hb | hb
  · exact hb
  · have hab := (List.pairwise_append.mp h).2.2 a ha b hb
    rw [OrientedOrd.eq_swap, hlt] at hab
    cases hab

/-! ## Mutations -/

/-- One change of a map. -/
inductive Mutation (K : Type u) (V : Type v)
  | put (key : K) (value : V)
  | delete (key : K)
  deriving DecidableEq, Repr

/-- The key a mutation changes. -/
def Mutation.key : Mutation K V → K
  | .put k _ => k
  | .delete k => k

/-- The value a mutation leaves at its key. -/
def Mutation.result : Mutation K V → Option V
  | .put _ x => some x
  | .delete _ => none

/-- Apply one mutation. -/
def Mutation.apply (m : OrdMap K V) : Mutation K V → OrdMap K V
  | .put k x => m.insert k x
  | .delete k => m.erase k

/-- Apply mutations in order, later ones overriding earlier ones. -/
def applyAll (m : OrdMap K V) (ops : List (Mutation K V)) : OrdMap K V :=
  ops.foldl Mutation.apply m

@[simp] theorem applyAll_nil (m : OrdMap K V) : applyAll m [] = m := rfl

@[simp] theorem applyAll_cons (m : OrdMap K V) (op : Mutation K V) (ops : List (Mutation K V)) :
    applyAll m (op :: ops) = applyAll (op.apply m) ops := rfl

theorem applyAll_append (m : OrdMap K V) (ops ops' : List (Mutation K V)) :
    applyAll m (ops ++ ops') = applyAll (applyAll m ops) ops' := List.foldl_append

theorem getElem?_apply [DecidableEq K] (m : OrdMap K V) (op : Mutation K V) (a : K) :
    (op.apply m)[a]? = if op.key = a then op.result else m[a]? := by
  cases op with
  | put k x => exact getElem?_insert_eq m k a x
  | delete k => exact getElem?_erase_eq m k a

/-- A key no mutation touches keeps its value. -/
theorem getElem?_applyAll_of_notMem (m : OrdMap K V) (ops : List (Mutation K V)) (a : K)
    (h : ∀ op ∈ ops, op.key ≠ a) : (applyAll m ops)[a]? = m[a]? := by
  classical
  induction ops generalizing m with
  | nil => rfl
  | cons op ops ih =>
    rw [applyAll_cons, ih _ fun o ho => h o (List.mem_cons_of_mem _ ho), getElem?_apply,
      if_neg (h op List.mem_cons_self)]

/-- When a mutation is the only one of its key, its result is what the key ends up with. -/
theorem getElem?_applyAll_of_mem (m : OrdMap K V) {ops : List (Mutation K V)}
    (hn : ops.Pairwise fun a b => a.key ≠ b.key) {op : Mutation K V} (h : op ∈ ops) :
    (applyAll m ops)[op.key]? = op.result := by
  classical
  induction ops generalizing m with
  | nil => cases h
  | cons o ops ih =>
    obtain ⟨hhead, htail⟩ := List.pairwise_cons.mp hn
    rcases List.mem_cons.mp h with rfl | h
    · rw [applyAll_cons, getElem?_applyAll_of_notMem _ _ _ fun o ho => (hhead o ho).symm,
        getElem?_apply, if_pos rfl]
    · exact ih _ htail h

theorem SortedKeys.pairwise_puts {l : List (K × V)} (h : SortedKeys l) :
    (l.map fun e => Mutation.put e.1 e.2).Pairwise fun a b : Mutation K V => a.key ≠ b.key := by
  rw [List.pairwise_map]
  refine List.Pairwise.imp ?_ h
  rintro a b hab he
  simp [Mutation.key] at he
  simp [he] at hab

/-- The entries of a map, put one by one over another. -/
theorem getElem?_applyAll_puts (base m : OrdMap K V) (k : K) :
    (applyAll base (m.toList.map fun e => Mutation.put e.1 e.2))[k]? = m[k]?.or base[k]? := by
  have hn := (sortedKeys_toList m).pairwise_puts
  cases hk : m[k]? with
  | some x =>
    have hmem : Mutation.put k x ∈ m.toList.map fun e => Mutation.put e.1 e.2 :=
      List.mem_map.mpr ⟨(k, x), (mem_toList_iff m k x).mpr hk, rfl⟩
    exact getElem?_applyAll_of_mem _ hn hmem
  | none =>
    rw [getElem?_applyAll_of_notMem]
    · rfl
    · rintro op hop rfl
      obtain ⟨e, he, rfl⟩ := List.mem_map.mp hop
      have := (mem_toList_iff m e.1 e.2).mp he
      simp [Mutation.key, this] at hk

/-- A list sorted by key, put entry by entry into an empty map. -/
theorem getElem?_applyAll_sorted {l : List (K × V)} (h : SortedKeys l) (k : K) (x : V) :
    (applyAll ∅ (l.map fun e => Mutation.put e.1 e.2))[k]? = some x ↔ (k, x) ∈ l := by
  have hn := h.pairwise_puts
  have hput : ∀ e ∈ l, (applyAll ∅ (l.map fun e => Mutation.put e.1 e.2))[e.1]? = some e.2 :=
    fun e he => getElem?_applyAll_of_mem _ hn (List.mem_map.mpr ⟨e, he, rfl⟩)
  constructor
  · intro hk
    by_cases hin : ∃ e ∈ l, e.1 = k
    · obtain ⟨e, he, rfl⟩ := hin
      have hx := (hput e he).symm.trans hk
      exact Option.some.inj hx ▸ he
    · rw [getElem?_applyAll_of_notMem] at hk
      · simp at hk
      · rintro op hop rfl
        obtain ⟨e, he, rfl⟩ := List.mem_map.mp hop
        exact hin ⟨e, he, rfl⟩
  · exact fun he => hput _ he

/-- Rebuilding a map from its entries, put one by one. -/
theorem applyAll_puts (m : OrdMap K V) :
    applyAll ∅ (m.toList.map fun e => Mutation.put e.1 e.2) = m := by
  refine ExtTreeMap.ext_getElem? fun k => ?_
  rw [getElem?_applyAll_puts]
  simp

/-! ## Overlays -/

/-- The mutation a pending entry stands for: `none` is a pending delete. -/
def pending (e : K × Option V) : Mutation K V :=
  match e.2 with
  | some x => .put e.1 x
  | none => .delete e.1

@[simp] theorem key_pending (e : K × Option V) : (pending e).key = e.1 := by
  rcases e with ⟨k, _ | x⟩ <;> rfl

@[simp] theorem result_pending (e : K × Option V) : (pending e).result = e.2 := by
  rcases e with ⟨k, _ | x⟩ <;> rfl

/-- The base map with the pending changes of `o` laid over it, in key order. -/
def layer (m : OrdMap K V) (o : OrdMap K (Option V)) : OrdMap K V :=
  applyAll m (o.toList.map pending)

theorem pairwise_pending {l : List (K × Option V)} (h : SortedKeys l) :
    (l.map pending).Pairwise fun a b => a.key ≠ b.key := by
  rw [List.pairwise_map]
  refine List.Pairwise.imp ?_ h
  rintro a b hab he
  rw [key_pending, key_pending] at he
  simp [he] at hab

/-- Pending entries sorted by key, looked up at one key. -/
theorem getElem?_applyAll_pending (m : OrdMap K V) {l : List (K × Option V)} (h : SortedKeys l)
    {k : K} {ov : Option V} (hk : (k, ov) ∈ l) : (applyAll m (l.map pending))[k]? = ov := by
  have := getElem?_applyAll_of_mem m (pairwise_pending h) (List.mem_map_of_mem (f := pending) hk)
  simpa using this

theorem getElem?_applyAll_pending_of_notMem (m : OrdMap K V) {l : List (K × Option V)} {k : K}
    (hk : ∀ ov, (k, ov) ∉ l) : (applyAll m (l.map pending))[k]? = m[k]? := by
  refine getElem?_applyAll_of_notMem _ _ _ fun op hop he => ?_
  obtain ⟨e, hmem, rfl⟩ := List.mem_map.mp hop
  rw [key_pending] at he
  exact hk e.2 (he ▸ hmem)

/-- A read through an overlay: the pending change if there is one, else the base. -/
theorem getElem?_layer (m : OrdMap K V) (o : OrdMap K (Option V)) (k : K) :
    (layer m o)[k]? = (o[k]?).getD m[k]? := by
  cases hk : o[k]? with
  | some ov => exact getElem?_applyAll_pending m (sortedKeys_toList o) ((mem_toList_iff o k ov).mpr hk)
  | none =>
    refine getElem?_applyAll_pending_of_notMem m fun ov hmem => ?_
    rw [mem_toList_iff, hk] at hmem
    cases hmem

@[simp] theorem layer_empty (m : OrdMap K V) : layer m ∅ = m := by
  refine ExtTreeMap.ext_getElem? fun k => ?_
  rw [getElem?_layer]
  simp

/-- Record a mutation as pending. -/
def stage (o : OrdMap K (Option V)) (op : Mutation K V) : OrdMap K (Option V) :=
  o.insert op.key op.result

/-- Staging a mutation in the overlay is applying it to the layered map. -/
theorem layer_stage (m : OrdMap K V) (o : OrdMap K (Option V)) (op : Mutation K V) :
    layer m (stage o op) = op.apply (layer m o) := by
  classical
  refine ExtTreeMap.ext_getElem? fun k => ?_
  rw [getElem?_layer, stage, getElem?_insert_eq, getElem?_apply, getElem?_layer]
  split <;> rfl

theorem layer_foldl_stage (m : OrdMap K V) (o : OrdMap K (Option V)) (ops : List (Mutation K V)) :
    layer m (ops.foldl stage o) = applyAll (layer m o) ops := by
  induction ops generalizing o with
  | nil => rfl
  | cons op ops ih => rw [List.foldl_cons, ih, layer_stage, applyAll_cons]

/-- What a batch of mutations leaves at each key it writes. -/
def written (ops : List (Mutation K V)) : OrdMap K (Option V) := ops.foldl stage ∅

theorem getElem?_applyAll (m : OrdMap K V) (ops : List (Mutation K V)) (k : K) :
    (applyAll m ops)[k]? = ((written ops)[k]?).getD m[k]? := by
  rw [← getElem?_layer, written, layer_foldl_stage, layer_empty]

/-- Staging a batch over pending changes. -/
theorem getElem?_foldl_stage (o : OrdMap K (Option V)) (ops : List (Mutation K V)) (k : K) :
    (ops.foldl stage o)[k]? = ((written ops)[k]?).or o[k]? := by
  classical
  induction ops using List.reverseRecOn with
  | nil => simp [written]
  | append_singleton ops op ih =>
    rw [written, List.foldl_append, List.foldl_append, ← written]
    simp only [List.foldl_cons, List.foldl_nil, stage, getElem?_insert_eq]
    split
    · rfl
    · exact ih

theorem getElem?_written_append (ops ops' : List (Mutation K V)) (k : K) :
    (written (ops ++ ops'))[k]? = ((written ops')[k]?).or (written ops)[k]? := by
  rw [written, List.foldl_append, getElem?_foldl_stage, ← written]

theorem getElem?_written_of_notMem {ops : List (Mutation K V)} {k : K}
    (h : ∀ op ∈ ops, op.key ≠ k) : (written ops)[k]? = none := by
  classical
  induction ops using List.reverseRecOn with
  | nil => simp [written]
  | append_singleton ops op ih =>
    rw [getElem?_written_append, ih fun o ho => h o (List.mem_append_left _ ho)]
    simp [written, stage, h op (List.mem_append_right _ List.mem_cons_self)]

/-- Pending changes, written in key order. -/
theorem written_pending (o : OrdMap K (Option V)) : written (o.toList.map pending) = o := by
  have hstage : ∀ (l : List (K × Option V)) (o' : OrdMap K (Option V)),
      (l.map pending).foldl stage o' = applyAll o' (l.map fun e => Mutation.put e.1 e.2) := by
    intro l
    induction l with
    | nil => exact fun _ => rfl
    | cons e l ih =>
      intro o'
      rw [List.map_cons, List.foldl_cons, ih, List.map_cons, applyAll_cons]
      rw [stage, key_pending, result_pending]
      rfl
  rw [written, hstage, applyAll_puts]

end OrdMap

/-! ## Prefix scans -/

section Prefix

variable {α : Type u} [Ord α] [TransOrd α] [LawfulEqOrd α]

/-- Between a prefix and a key that has it, every key has it. -/
theorem isPrefix_of_between (p k k' : List α) (hle : compare k p ≠ .lt)
    (hlt : compare k k' = .lt) (hp : p <+: k') : p <+: k := by
  induction p generalizing k k' with
  | nil => exact List.nil_prefix
  | cons b p ih =>
    obtain ⟨s, rfl⟩ := hp
    cases k with
    | nil => exact absurd rfl hle
    | cons c k =>
      rw [List.compare_cons_cons] at hle
      rw [List.cons_append, List.compare_cons_cons] at hlt
      cases hc : compare c b with
      | lt => simp [hc] at hle
      | gt => simp [hc] at hlt
      | eq =>
        obtain rfl : c = b := Std.compare_eq_iff_eq.mp hc
        simp only [hc, Ordering.eq_then] at hle hlt
        exact List.cons_prefix_cons.mpr ⟨rfl, ih k (p ++ s) hle hlt (List.prefix_append p s)⟩

/-- A key with a prefix is not below the prefix. -/
theorem not_lt_of_isPrefix {p k : List α} (h : p <+: k) : compare k p ≠ .lt := by
  induction p generalizing k with
  | nil => cases k <;> simp
  | cons b p ih =>
    obtain ⟨s, rfl⟩ := h
    simpa [List.compare_cons_cons] using ih (List.prefix_append p s)

end Prefix

/-- Along an order in which a property is inherited downwards, taking while it holds loses
nothing. -/
theorem takeWhile_eq_filter {E : Type u} (r : E → E → Prop) (q : E → Bool) {l : List E}
    (hs : l.Pairwise r) (hq : ∀ a ∈ l, ∀ b ∈ l, r a b → q b = true → q a = true) :
    l.takeWhile q = l.filter q := by
  induction l with
  | nil => rfl
  | cons a l ih =>
    obtain ⟨ha, hl⟩ := List.pairwise_cons.mp hs
    have ih' := ih hl fun x hx y hy => hq x (List.mem_cons_of_mem _ hx) y (List.mem_cons_of_mem _ hy)
    cases hqa : q a with
    | true => simp [hqa, ih']
    | false =>
      have hnone : l.filter q = [] := by
        refine List.filter_eq_nil_iff.mpr fun b hb hqb => ?_
        rw [hq a List.mem_cons_self b (List.mem_cons_of_mem _ hb) (ha b hb) hqb] at hqa
        cases hqa
      simp [hqa, hnone]

/-- A map from byte strings to byte strings. -/
abbrev ByteMap := OrdMap Bytes Bytes

namespace ByteMap

/-- The entries whose key starts with `p`: start at the first key not below `p`, stop at the first
one without the prefix. -/
def scanPrefix (m : ByteMap) (p : Bytes) : List (Bytes × Bytes) :=
  (m.toList.filter fun e => compare e.1 p != .lt).takeWhile fun e => p.isPrefixOf e.1

/-- Starting at the prefix and stopping at the first key without it loses nothing. -/
theorem scanPrefix_eq_filter (m : ByteMap) (p : Bytes) :
    m.scanPrefix p = m.toList.filter fun e => p.isPrefixOf e.1 := by
  have hs : (m.toList.filter fun e => compare e.1 p != .lt).Pairwise
      fun a b => compare a.1 b.1 = .lt := (OrdMap.sortedKeys_toList m).sublist List.filter_sublist
  rw [scanPrefix, takeWhile_eq_filter _ _ hs, List.filter_filter]
  · refine List.filter_congr fun e _ => ?_
    cases hp : p.isPrefixOf e.1 with
    | false => rfl
    | true => simpa using not_lt_of_isPrefix (List.isPrefixOf_iff_prefix.mp hp)
  · intro a ha b _ hab hb
    rw [List.isPrefixOf_iff_prefix] at hb ⊢
    refine isPrefix_of_between p a.1 b.1 ?_ hab hb
    simpa using (List.mem_filter.mp ha).2

theorem sortedKeys_scanPrefix (m : ByteMap) (p : Bytes) : OrdMap.SortedKeys (m.scanPrefix p) := by
  rw [scanPrefix_eq_filter]
  exact (OrdMap.sortedKeys_toList m).sublist List.filter_sublist

theorem mem_scanPrefix (m : ByteMap) (p k x : Bytes) :
    (k, x) ∈ m.scanPrefix p ↔ m[k]? = some x ∧ p <+: k := by
  rw [scanPrefix_eq_filter, List.mem_filter, OrdMap.mem_toList_iff, List.isPrefixOf_iff_prefix]

/-- A scan depends on the keys under its prefix only. -/
theorem scanPrefix_congr {m m' : ByteMap} {p : Bytes}
    (h : ∀ key, p <+: key → m'[key]? = m[key]?) : m'.scanPrefix p = m.scanPrefix p := by
  refine (m'.sortedKeys_scanPrefix p).eq_of_mem_iff (m.sortedKeys_scanPrefix p) ?_
  rintro ⟨k, x⟩
  rw [mem_scanPrefix, mem_scanPrefix]
  exact and_congr_left fun hp => by rw [h k hp]

end ByteMap

end Ciphra
