import Ciphra.Foundations.Transform
import Ciphra.Foundations.Words

/-!
# Butterfly loops

A transform on an array works in place: a pass over a block replaces the entries `j` and `j + len`
by the two results of a butterfly, a layer runs one pass for every block of `2 * len` entries and
moves on in its table between them. No pass reads what another one writes, so a layer is what it
computes at each entry (`getElem!_layerLoop_lower`, `getElem!_layerLoop_upper`).

Under a map of the entries to a ring that turns the butterflies into those of a transform, the loops
over all layers compute the transform (`foldl_layerLoop_forward`, `foldl_layerLoop_backward`).
-/

namespace Ciphra

variable {α : Type*} [Inhabited α] {n : ℕ}

theorem getElem!_set! (a : Vector α n) (i j : ℕ) (v : α) (hj : j < n) :
    (a.set! j v)[i]! = if i = j then v else a[i]! := by
  by_cases hi : i < n
  · rw [getElem!_pos _ i hi, getElem!_pos _ i hi]
    by_cases hij : i = j
    · subst hij
      simp
    · rw [if_neg hij]
      exact Vector.getElem_setIfInBounds_ne hi fun h => hij h.symm
  · have hij : i ≠ j := by omega
    rw [getElem!_neg _ i hi, getElem!_neg _ i hi, if_neg hij]

/-- The entries `j` and `j + len`, replaced by the results of a butterfly. -/
def butterfly (f : α → α → α × α) (len : ℕ) (a : Vector α n) (j : ℕ) : Vector α n :=
  let p := f a[j]! a[j + len]!
  (a.set! (j + len) p.2).set! j p.1

/-- `for j in start..start + len`. -/
def pass (f : α → α → α × α) (len : ℕ) (a : Vector α n) (start : ℕ) : Vector α n :=
  (List.range' start len).foldl (butterfly f len) a

/-- `start = 0, 2 * len, ..` while it is below the length, with an index that moves by `next` after
every block. -/
def layerLoop (f : ℕ → α → α → α × α) (next : ℕ → ℕ) (s : Vector α n × ℕ) (len : ℕ) :
    Vector α n × ℕ :=
  (List.range' 0 (n / (2 * len)) (2 * len)).foldl
    (fun s start => (pass (f s.2) len s.1 start, next s.2)) s

/-- The entries after the first `m` butterflies of a block. -/
theorem getElem!_foldl_butterfly (f : α → α → α × α) {len start m : ℕ} (hm : m ≤ len)
    (hn : start + 2 * len ≤ n) (a : Vector α n) (i : ℕ) :
    ((List.range' start m).foldl (butterfly f len) a)[i]! =
      if start ≤ i ∧ i < start + m then (f a[i]! a[i + len]!).1
      else if start + len ≤ i ∧ i < start + len + m then (f a[i - len]! a[i]!).2
      else a[i]! := by
  induction m generalizing i with
  | zero =>
    have h1 : ¬(start ≤ i ∧ i < start + 0) := by omega
    have h2 : ¬(start + len ≤ i ∧ i < start + len + 0) := by omega
    rw [if_neg h1, if_neg h2]
    rfl
  | succ m ih =>
    rw [List.range'_concat, List.foldl_append, List.foldl_cons, List.foldl_nil, butterfly]
    have hlo := ih (by omega) (start + 1 * m)
    have hup := ih (by omega) (start + 1 * m + len)
    rw [if_neg (by omega), if_neg (by omega)] at hlo hup
    rw [hlo, hup, getElem!_set! _ _ _ _ (by omega), getElem!_set! _ _ _ _ (by omega), ih (by omega)]
    by_cases hi : i = start + 1 * m
    · rw [if_pos hi, if_pos (by omega), hi]
    · by_cases hi' : i = start + 1 * m + len
      · rw [if_neg hi, if_pos hi', if_neg (by omega), if_pos (by omega), hi']
        simp
      · rw [if_neg hi, if_neg hi']
        congr 1
        · simp only [eq_iff_iff]
          omega
        · congr 1
          simp only [eq_iff_iff]
          omega

theorem getElem!_pass (f : α → α → α × α) {len start : ℕ} (hn : start + 2 * len ≤ n)
    (a : Vector α n) (i : ℕ) :
    (pass f len a start)[i]! =
      if start ≤ i ∧ i < start + len then (f a[i]! a[i + len]!).1
      else if start + len ≤ i ∧ i < start + len + len then (f a[i - len]! a[i]!).2
      else a[i]! :=
  getElem!_foldl_butterfly f le_rfl hn a i

section Blocks

variable (f : ℕ → α → α → α × α) (next : ℕ → ℕ) {len : ℕ}

/-- The state after the first `c` blocks of a layer. -/
def blocks (s : Vector α n × ℕ) (len c : ℕ) : Vector α n × ℕ :=
  (List.range' 0 c (2 * len)).foldl (fun s start => (pass (f s.2) len s.1 start, next s.2)) s

theorem blocks_succ (s : Vector α n × ℕ) (c : ℕ) : blocks f next s len (c + 1) =
    (pass (f (blocks f next s len c).2) len (blocks f next s len c).1 (c * (2 * len)),
      next (blocks f next s len c).2) := by
  have hstart : 0 + 2 * len * c = c * (2 * len) := by ring
  unfold blocks
  rw [List.range'_concat, List.foldl_append, hstart]
  rfl

theorem blocks_index (s : Vector α n × ℕ) (c : ℕ) :
    (blocks f next s len c).2 = next^[c] s.2 := by
  induction c with
  | zero => rfl
  | succ c ih => rw [blocks_succ, ih, Function.iterate_succ_apply']

/-- The first blocks are transformed, the others are as they were. -/
theorem getElem!_blocks (s : Vector α n × ℕ) {c : ℕ} (hc : c * (2 * len) ≤ n) {b j : ℕ}
    (hj : j < len) :
    ((blocks f next s len c).1[b * (2 * len) + j]! =
        if b < c then (f (next^[b] s.2) s.1[b * (2 * len) + j]! s.1[b * (2 * len) + len + j]!).1
        else s.1[b * (2 * len) + j]!) ∧
      ((blocks f next s len c).1[b * (2 * len) + len + j]! =
        if b < c then (f (next^[b] s.2) s.1[b * (2 * len) + j]! s.1[b * (2 * len) + len + j]!).2
        else s.1[b * (2 * len) + len + j]!) := by
  induction c with
  | zero => exact ⟨rfl, rfl⟩
  | succ c ih =>
    have hc' : c * (2 * len) + 2 * len ≤ n := by
      rw [add_mul, one_mul] at hc
      exact hc
    obtain ⟨hlo, hup⟩ := ih (by omega)
    have hidx : b * (2 * len) + j + len = b * (2 * len) + len + j := by omega
    have hidx' : b * (2 * len) + len + j - len = b * (2 * len) + j := by omega
    rw [blocks_succ, getElem!_pass _ hc', getElem!_pass _ hc', hidx, hidx', blocks_index]
    rcases lt_trichotomy b c with hbc | hbc | hbc
    · have hmul : (b + 1) * (2 * len) ≤ c * (2 * len) := Nat.mul_le_mul_right _ hbc
      rw [add_mul, one_mul] at hmul
      have hsucc : b < c + 1 := by omega
      rw [if_pos hbc] at hlo hup
      rw [if_pos hsucc, if_pos hsucc]
      constructor
      · rw [if_neg (by omega), if_neg (by omega), hlo]
      · rw [if_neg (by omega), if_neg (by omega), hup]
    · subst hbc
      rw [if_neg (by omega)] at hlo hup
      have hsucc : b < b + 1 := by omega
      rw [if_pos hsucc, if_pos hsucc, hlo, hup]
      constructor
      · rw [if_pos (by omega)]
      · rw [if_neg (by omega), if_pos (by omega)]
    · have hmul : (c + 1) * (2 * len) ≤ b * (2 * len) := Nat.mul_le_mul_right _ hbc
      rw [add_mul, one_mul] at hmul
      have hsucc : ¬b < c + 1 := by omega
      rw [if_neg (by omega)] at hlo hup
      rw [if_neg hsucc, if_neg hsucc]
      constructor
      · rw [if_neg (by omega), if_neg (by omega), hlo]
      · rw [if_neg (by omega), if_neg (by omega), hup]

theorem layerLoop_index (s : Vector α n × ℕ) :
    (layerLoop f next s len).2 = next^[n / (2 * len)] s.2 :=
  blocks_index f next s _

theorem getElem!_layerLoop_lower (s : Vector α n × ℕ) {b j : ℕ} (hj : j < len)
    (hb : b < n / (2 * len)) :
    (layerLoop f next s len).1[b * (2 * len) + j]! =
      (f (next^[b] s.2) s.1[b * (2 * len) + j]! s.1[b * (2 * len) + len + j]!).1 := by
  have h := (getElem!_blocks f next s (Nat.div_mul_le_self n (2 * len)) (b := b) hj).1
  rwa [if_pos hb] at h

theorem getElem!_layerLoop_upper (s : Vector α n × ℕ) {b j : ℕ} (hj : j < len)
    (hb : b < n / (2 * len)) :
    (layerLoop f next s len).1[b * (2 * len) + len + j]! =
      (f (next^[b] s.2) s.1[b * (2 * len) + j]! s.1[b * (2 * len) + len + j]!).2 := by
  have h := (getElem!_blocks f next s (Nat.div_mul_le_self n (2 * len)) (b := b) hj).2
  rwa [if_pos hb] at h

/-- A property of all results of the butterflies holds of every entry of a layer. -/
theorem layerLoop_forall {P : α → Prop} (hf : ∀ k lo hi, P (f k lo hi).1 ∧ P (f k lo hi).2)
    (s : Vector α n × ℕ) (hlen : 0 < len) (hn : 2 * len ∣ n) {i : ℕ} (hi : i < n) :
    P (layerLoop f next s len).1[i]! := by
  obtain ⟨b, j, hj, rfl | rfl⟩ := index_cases hlen i
  · rw [getElem!_layerLoop_lower f next s hj (index_lt hn hj (Or.inl hi)).1]
    exact (hf _ _ _).1
  · rw [getElem!_layerLoop_upper f next s hj (index_lt hn hj (Or.inr hi)).1]
    exact (hf _ _ _).2

end Blocks

/-! ## Butterflies that can fail -/

section Checked

variable (f : α → α → Option (α × α)) (len : ℕ)

/-- A butterfly whose arithmetic is checked. -/
def butterflyM (a : Vector α n) (j : ℕ) : Option (Vector α n) :=
  (f a[j]! a[j + len]!).map fun p => (a.set! (j + len) p.2).set! j p.1

def passM (a : Vector α n) (start : ℕ) : Option (Vector α n) :=
  (List.range' start len).foldlM (butterflyM f len) a

def layerLoopM (f : ℕ → α → α → Option (α × α)) (next : ℕ → ℕ) (s : Vector α n × ℕ) (len : ℕ) :
    Option (Vector α n × ℕ) :=
  (List.range' 0 (n / (2 * len)) (2 * len)).foldlM
    (fun s start => (passM (f s.2) len s.1 start).map fun a => (a, next s.2)) s

variable {f len} {P : α → Prop}

/-- Where every entry has a property under which the butterfly succeeds and which it keeps, a pass
succeeds. -/
theorem passM_eq {g : α → α → α × α}
    (h : ∀ lo hi, P lo → P hi → f lo hi = some (g lo hi) ∧ P (g lo hi).1 ∧ P (g lo hi).2)
    {a : Vector α n} (ha : ∀ i : ℕ, P a[i]!) (start : ℕ) :
    passM f len a start = some (pass g len a start) ∧ ∀ i : ℕ, P (pass g len a start)[i]! := by
  refine foldlM_eq_some (P := fun a : Vector α n => ∀ i : ℕ, P a[i]!) ha ?_
  intro a j _ ha
  obtain ⟨hrun, hlo, hup⟩ := h a[j]! a[j + len]! (ha j) (ha (j + len))
  have hset : ∀ (v : Vector α n) (k : ℕ) (x : α), (∀ i : ℕ, P v[i]!) → P x →
      ∀ i : ℕ, P (v.set! k x)[i]! := by
    intro v k x hv hx i
    by_cases hk : k < n
    · rw [getElem!_set! v i k x hk]
      split
      · exact hx
      · exact hv i
    · have hsame : v.set! k x = v := Vector.setIfInBounds_eq_of_size_le (by omega)
      rw [hsame]
      exact hv i
  refine ⟨?_, hset _ _ _ (hset _ _ _ ha hup) hlo⟩
  rw [butterflyM, hrun]
  rfl

theorem layerLoopM_eq {f : ℕ → α → α → Option (α × α)} {g : ℕ → α → α → α × α} (next : ℕ → ℕ)
    (h : ∀ k lo hi, P lo → P hi → f k lo hi = some (g k lo hi) ∧ P (g k lo hi).1 ∧ P (g k lo hi).2)
    {s : Vector α n × ℕ} (hs : ∀ i : ℕ, P s.1[i]!) (len : ℕ) :
    layerLoopM f next s len = some (layerLoop g next s len) ∧
      ∀ i : ℕ, P (layerLoop g next s len).1[i]! := by
  refine foldlM_eq_some (P := fun s : Vector α n × ℕ => ∀ i : ℕ, P s.1[i]!) hs ?_
  intro s start _ hs
  have hpass : passM (f s.2) len s.1 start = some (pass (g s.2) len s.1 start) ∧ _ :=
    passM_eq (h s.2) hs start
  obtain ⟨hrun, hall⟩ := hpass
  refine ⟨?_, hall⟩
  rw [hrun]
  rfl

end Checked

/-! ## Layers of a transform -/

section Layers

variable {R : Type*} [CommRing R] (h : α → R) {f : ℕ → α → α → α × α} (next : ℕ → ℕ) {z y : ℕ → R}
  {e : ℕ}

theorem layerLoop_cutLayer (hlo : ∀ k lo hi, h (f k lo hi).1 = h lo + y k * h hi)
    (hup : ∀ k lo hi, h (f k lo hi).2 = h lo - y k * h hi) (s : Vector α n × ℕ) {len : ℕ}
    (hlen : 0 < len) (hn : 2 * len ∣ n) {i : ℕ} (hi : i < n) :
    h (layerLoop f next s len).1[i]! =
      cutLayer len (fun b => y (next^[b] s.2)) (fun i => h s.1[i]!) i := by
  obtain ⟨b, j, hj, rfl | rfl⟩ := index_cases hlen i
  · rw [getElem!_layerLoop_lower f next s hj (index_lt hn hj (Or.inl hi)).1, cutLayer_lower hj, hlo]
  · rw [getElem!_layerLoop_upper f next s hj (index_lt hn hj (Or.inr hi)).1, cutLayer_upper hj, hup]

theorem layerLoop_joinLayer (hlo : ∀ k lo hi, h (f k lo hi).1 = h lo + h hi)
    (hup : ∀ k lo hi, h (f k lo hi).2 = y k * (h hi - h lo)) (s : Vector α n × ℕ) {len : ℕ}
    (hlen : 0 < len) (hn : 2 * len ∣ n) {i : ℕ} (hi : i < n) :
    h (layerLoop f next s len).1[i]! =
      joinLayer len (fun b => y (next^[b] s.2)) (fun i => h s.1[i]!) i := by
  obtain ⟨b, j, hj, rfl | rfl⟩ := index_cases hlen i
  · rw [getElem!_layerLoop_lower f next s hj (index_lt hn hj (Or.inl hi)).1, joinLayer_lower hj, hlo]
  · rw [getElem!_layerLoop_upper f next s hj (index_lt hn hj (Or.inr hi)).1, joinLayer_upper hj, hup]

/-- The lengths of the first `m` layers on `2 ^ e` entries. -/
def lens (e m : ℕ) : List ℕ := (List.range m).map fun k => 2 ^ (e - 1 - k)

/-- The loops over the layers compute the transform, when the table is read in order. -/
theorem foldl_layerLoop_forward (hlo : ∀ k lo hi, h (f k lo hi).1 = h lo + y k * h hi)
    (hup : ∀ k lo hi, h (f k lo hi).2 = h lo - y k * h hi) (s : Vector α (2 ^ e) × ℕ) {m : ℕ}
    (hm : m ≤ e) (hy : ∀ t < 2 ^ m - 1, z (t + 1) = y (next^[t] s.2)) :
    ((lens e m).foldl (layerLoop f next) s).2 = next^[2 ^ m - 1] s.2 ∧
      ∀ i < 2 ^ e, h ((lens e m).foldl (layerLoop f next) s).1[i]! =
        forward z e m (fun i => h s.1[i]!) i := by
  induction m with
  | zero => exact ⟨rfl, fun i _ => rfl⟩
  | succ m ih =>
    have hpow : 2 ^ (m + 1) = 2 ^ m + 2 ^ m := by rw [pow_succ]; omega
    have hpos : 0 < 2 ^ m := by positivity
    obtain ⟨hidx, hval⟩ := ih (by omega) fun t ht => hy t (by omega)
    have hfold : (lens e (m + 1)).foldl (layerLoop f next) s =
        layerLoop f next ((lens e m).foldl (layerLoop f next) s) (2 ^ (e - 1 - m)) := by
      rw [lens, List.range_succ, List.map_append, List.foldl_append]
      rfl
    have hdvd : 2 * 2 ^ (e - 1 - m) ∣ 2 ^ e := blocks_dvd (by omega)
    rw [hfold]
    constructor
    · rw [layerLoop_index, blocks_div (by omega), hidx, ← Function.iterate_add_apply]
      congr 2
      omega
    · intro i hi
      rw [layerLoop_cutLayer h next hlo hup _ (by positivity) hdvd hi, forward,
        cutLayer_congr (by positivity) hdvd hval hi, hidx]
      -- the table is read at the same nodes in every block below `2 ^ e`
      obtain ⟨b, j, hj, hcase⟩ := index_cases (by positivity : 0 < 2 ^ (e - 1 - m)) i
      have hb : b < 2 ^ m := by
        have hlt := (index_lt hdvd hj (hcase.imp (fun he => he ▸ hi) (fun he => he ▸ hi))).1
        rwa [blocks_div (by omega)] at hlt
      have hnode : z (2 ^ m + b) = y (next^[b] (next^[2 ^ m - 1] s.2)) := by
        have hnode := hy (b + (2 ^ m - 1)) (by omega)
        rw [← Function.iterate_add_apply, ← hnode]
        congr 1
        omega
      rcases hcase with rfl | rfl
      · rw [cutLayer_lower hj, cutLayer_lower hj, hnode]
      · rw [cutLayer_upper hj, cutLayer_upper hj, hnode]

/-- The loops over the layers in reverse compute the inverse layers, when the table is read from its
end. -/
theorem foldl_layerLoop_backward (hlo : ∀ k lo hi, h (f k lo hi).1 = h lo + h hi)
    (hup : ∀ k lo hi, h (f k lo hi).2 = y k * (h hi - h lo)) (s : Vector α (2 ^ e) × ℕ) {m : ℕ}
    (hm : m ≤ e) (hy : ∀ t < 2 ^ m - 1, z (2 ^ m - 1 - t) = y (next^[t] s.2)) :
    ∀ i < 2 ^ e, h ((lens e m).reverse.foldl (layerLoop f next) s).1[i]! =
      backward z e m (fun i => h s.1[i]!) i := by
  induction m generalizing s with
  | zero => exact fun i _ => rfl
  | succ m ih =>
    have hpow : 2 ^ (m + 1) = 2 ^ m + 2 ^ m := by rw [pow_succ]; omega
    have hpos : 0 < 2 ^ m := by positivity
    have hfold : (lens e (m + 1)).reverse.foldl (layerLoop f next) s =
        (lens e m).reverse.foldl (layerLoop f next) (layerLoop f next s (2 ^ (e - 1 - m))) := by
      rw [lens, List.range_succ, List.map_append, List.reverse_append]
      rfl
    have hdvd : 2 * 2 ^ (e - 1 - m) ∣ 2 ^ e := blocks_dvd (by omega)
    have hidx : (layerLoop f next s (2 ^ (e - 1 - m))).2 = next^[2 ^ m] s.2 := by
      rw [layerLoop_index, blocks_div (by omega)]
    intro i hi
    rw [hfold, ih _ (by omega) ?table i hi, backward]
    · apply backward_congr (by omega) ?_ hi
      intro j hj
      rw [layerLoop_joinLayer h next hlo hup s (by positivity) hdvd hj]
      obtain ⟨b, k, hk, hcase⟩ := index_cases (by positivity : 0 < 2 ^ (e - 1 - m)) j
      have hb : b < 2 ^ m := by
        have hlt := (index_lt hdvd hk (hcase.imp (fun he => he ▸ hj) (fun he => he ▸ hj))).1
        rwa [blocks_div (by omega)] at hlt
      rcases hcase with rfl | rfl
      · rw [joinLayer_lower hk, joinLayer_lower hk]
      · rw [joinLayer_upper hk, joinLayer_upper hk, hy b (by omega)]
    · intro t ht
      have hnode := hy (t + 2 ^ m) (by omega)
      rw [hidx, ← Function.iterate_add_apply, ← hnode]
      congr 1
      omega

end Layers

end Ciphra
