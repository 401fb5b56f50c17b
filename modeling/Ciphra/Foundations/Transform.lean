import Mathlib.Algebra.Polynomial.Div
import Mathlib.Tactic

/-!
# Number-theoretic transforms

A list of `2 ^ e` coefficients stands for a polynomial modulo `X ^ (2 ^ e) + 1`. A layer of the
transform cuts every block of `2 * len` coefficients in two: modulo `X ^ len - z` and modulo
`X ^ len + z`, where `z ^ 2` is the constant of the block. The constants sit in a heap: node `i` of
the table `z` squares to the constant of its block, and the two halves are nodes `2 * i` and
`2 * i + 1`.

`forward_ringMul` says that the transform of a negacyclic product is the product of the transforms,
block by block; `backward_forward` and `forward_backward` that the inverse layers undo the layers up
to a power of two. Coefficients are functions of the index, of which only the first `2 ^ e` matter.
-/

namespace Ciphra

open Polynomial

variable {R : Type*} [CommRing R]

/-! ## Products modulo `X ^ n - c` -/

/-- The polynomial with coefficients `a 0`, ..., `a (n - 1)`. -/
noncomputable def toPoly (n : ℕ) (a : ℕ → R) : R[X] := ∑ i ∈ Finset.range n, C (a i) * X ^ i

/-- Coefficient `i` of the product of `f` and `g` modulo `X ^ n - c`. -/
def ringMul (n : ℕ) (c : R) (f g : ℕ → R) (i : ℕ) : R :=
  ∑ j ∈ Finset.range n, ∑ k ∈ Finset.range n,
    if j + k = i then f j * g k else if j + k = i + n then c * (f j * g k) else 0

theorem toPoly_congr {n : ℕ} {a b : ℕ → R} (h : ∀ i < n, a i = b i) : toPoly n a = toPoly n b := by
  unfold toPoly
  apply Finset.sum_congr rfl
  intro i hi
  rw [h i (Finset.mem_range.mp hi)]

theorem toPoly_add (n : ℕ) (a b : ℕ → R) :
    toPoly n (fun i => a i + b i) = toPoly n a + toPoly n b := by
  simp only [toPoly, map_add, add_mul, Finset.sum_add_distrib]

theorem toPoly_sub (n : ℕ) (a b : ℕ → R) :
    toPoly n (fun i => a i - b i) = toPoly n a - toPoly n b := by
  simp only [toPoly, map_sub, sub_mul, Finset.sum_sub_distrib]

theorem toPoly_mul_left (n : ℕ) (c : R) (a : ℕ → R) :
    toPoly n (fun i => c * a i) = C c * toPoly n a := by
  simp only [toPoly, map_mul, Finset.mul_sum, mul_assoc]

theorem toPoly_append (m n : ℕ) (a : ℕ → R) :
    toPoly (m + n) a = toPoly m a + X ^ m * toPoly n (fun i => a (m + i)) := by
  unfold toPoly
  rw [Finset.sum_range_add, Finset.mul_sum]
  congr 1
  apply Finset.sum_congr rfl
  intro i _
  ring

theorem coeff_toPoly {n i : ℕ} (a : ℕ → R) (hi : i < n) : (toPoly n a).coeff i = a i := by
  simp [toPoly, Polynomial.coeff_C_mul, Polynomial.coeff_X_pow, hi]

theorem degree_toPoly_lt (n : ℕ) (a : ℕ → R) : (toPoly n a).degree < n := by
  rw [Polynomial.degree_lt_iff_coeff_zero]
  intro m hm
  unfold toPoly
  rw [Polynomial.finsetSum_coeff]
  apply Finset.sum_eq_zero
  intro i hi
  have hne : m ≠ i := by
    have := Finset.mem_range.mp hi
    omega
  rw [Polynomial.coeff_C_mul, Polynomial.coeff_X_pow, if_neg hne, mul_zero]

/-- Residues modulo `X ^ n - c` are unique. -/
theorem eq_of_dvd_toPoly [Nontrivial R] {n : ℕ} {c : R} {a b : ℕ → R}
    (h : X ^ n - C c ∣ toPoly n a - toPoly n b) {i : ℕ} (hi : i < n) : a i = b i := by
  have hn : 0 < n := by omega
  have hmonic : (X ^ n - C c).Monic := Polynomial.monic_X_pow_sub_C c (by omega)
  have hzero : toPoly n a - toPoly n b = 0 := by
    by_contra hne
    refine hmonic.not_dvd_of_degree_lt hne ?_ h
    rw [Polynomial.degree_X_pow_sub_C hn, ← toPoly_sub]
    exact degree_toPoly_lt n _
  have hcoeff := congrArg (fun p => p.coeff i) hzero
  simp only [Polynomial.coeff_sub, Polynomial.coeff_zero] at hcoeff
  rw [coeff_toPoly a hi, coeff_toPoly b hi] at hcoeff
  exact sub_eq_zero.mp hcoeff

/-- A monomial below degree `2 * n`, folded back modulo `X ^ n - c`. -/
noncomputable def foldPow (n : ℕ) (c : R) (d : ℕ) : R[X] :=
  if d < n then X ^ d else C c * X ^ (d - n)

theorem dvd_foldPow (n : ℕ) (c : R) (d : ℕ) : X ^ n - C c ∣ X ^ d - foldPow n c d := by
  unfold foldPow
  split
  · simp
  · next h =>
    refine ⟨X ^ (d - n), ?_⟩
    have hd : d = n + (d - n) := by omega
    nth_rewrite 1 [hd]
    ring

theorem sum_foldPow {n : ℕ} (c v : R) {d : ℕ} (hd : d < 2 * n) :
    ∑ i ∈ Finset.range n, C (if d = i then v else if d = i + n then c * v else 0) * X ^ i =
      C v * foldPow n c d := by
  unfold foldPow
  by_cases h : d < n
  · rw [if_pos h, Finset.sum_eq_single d]
    · simp
    · intro i _ hi
      have hdi : d ≠ i := fun he => hi he.symm
      have hdn : d ≠ i + n := by omega
      simp [hdi, hdn]
    · intro hd'
      exact absurd (Finset.mem_range.mpr h) hd'
  · rw [if_neg h, Finset.sum_eq_single (d - n)]
    · have hdn : d ≠ d - n := by omega
      have hdn' : d = d - n + n := by omega
      rw [if_neg hdn, if_pos hdn', map_mul]
      ring
    · intro i hi hne
      have hi' := Finset.mem_range.mp hi
      have hdi : d ≠ i := by omega
      have hdn : d ≠ i + n := by omega
      simp [hdi, hdn]
    · intro hd'
      exact absurd (Finset.mem_range.mpr (by omega)) hd'

theorem toPoly_ringMul (n : ℕ) (c : R) (f g : ℕ → R) :
    toPoly n (ringMul n c f g) =
      ∑ j ∈ Finset.range n, ∑ k ∈ Finset.range n, C (f j * g k) * foldPow n c (j + k) := by
  unfold toPoly ringMul
  simp only [map_sum, Finset.sum_mul]
  rw [Finset.sum_comm]
  apply Finset.sum_congr rfl
  intro j hj
  rw [Finset.sum_comm]
  apply Finset.sum_congr rfl
  intro k hk
  have hj' := Finset.mem_range.mp hj
  have hk' := Finset.mem_range.mp hk
  exact sum_foldPow c (f j * g k) (by omega)

/-- `ringMul` is the product modulo `X ^ n - c`. -/
theorem dvd_ringMul (n : ℕ) (c : R) (f g : ℕ → R) :
    X ^ n - C c ∣ toPoly n f * toPoly n g - toPoly n (ringMul n c f g) := by
  have hprod : toPoly n f * toPoly n g =
      ∑ j ∈ Finset.range n, ∑ k ∈ Finset.range n, C (f j * g k) * X ^ (j + k) := by
    unfold toPoly
    rw [Finset.sum_mul_sum]
    apply Finset.sum_congr rfl
    intro j _
    apply Finset.sum_congr rfl
    intro k _
    rw [map_mul, pow_add]
    ring
  rw [hprod, toPoly_ringMul, ← Finset.sum_sub_distrib]
  apply Finset.dvd_sum
  intro j _
  rw [← Finset.sum_sub_distrib]
  apply Finset.dvd_sum
  intro k _
  rw [← mul_sub]
  exact (dvd_foldPow n c (j + k)).mul_left _

theorem ringMul_one (c : R) (f g : ℕ → R) : ringMul 1 c f g 0 = f 0 * g 0 := by
  simp [ringMul]

theorem ringMul_two_zero (c : R) (f g : ℕ → R) :
    ringMul 2 c f g 0 = f 0 * g 0 + c * (f 1 * g 1) := by
  simp [ringMul, Finset.sum_range_succ]

theorem ringMul_two_one (c : R) (f g : ℕ → R) : ringMul 2 c f g 1 = f 0 * g 1 + f 1 * g 0 := by
  simp [ringMul, Finset.sum_range_succ]

/-- For every coefficient of the first factor, one coefficient of the second meets it. -/
theorem sum_ringMul {n : ℕ} (c : R) (f g : ℕ → R) {i j : ℕ} (hi : i < n) (hj : j < n) :
    (∑ k ∈ Finset.range n,
      if j + k = i then f j * g k else if j + k = i + n then c * (f j * g k) else 0) =
      if j ≤ i then f j * g (i - j) else c * (f j * g (i + n - j)) := by
  by_cases hji : j ≤ i
  · rw [if_pos hji, Finset.sum_eq_single (i - j)]
    · rw [if_pos (by omega)]
    · intro k hk hne
      have hk' := Finset.mem_range.mp hk
      rw [if_neg (by omega), if_neg (by omega)]
    · intro hk
      exact absurd (Finset.mem_range.mpr (by omega)) hk
  · rw [if_neg hji, Finset.sum_eq_single (i + n - j)]
    · rw [if_neg (by omega), if_pos (by omega)]
    · intro k hk hne
      have hk' := Finset.mem_range.mp hk
      rw [if_neg (by omega), if_neg (by omega)]
    · intro hk
      exact absurd (Finset.mem_range.mpr (by omega)) hk

/-- The factor `1` leaves the other one as it is. -/
theorem ringMul_unit {n : ℕ} (c : R) {f : ℕ → R} (g : ℕ → R)
    (hf : ∀ j < n, f j = if j = 0 then 1 else 0) {i : ℕ} (hi : i < n) :
    ringMul n c f g i = g i := by
  unfold ringMul
  rw [Finset.sum_congr rfl fun j hj => sum_ringMul c f g hi (Finset.mem_range.mp hj),
    Finset.sum_eq_single 0]
  · rw [if_pos (Nat.zero_le i), hf 0 (by omega), if_pos rfl, one_mul, Nat.sub_zero]
  · intro j hj hne
    rw [hf j (Finset.mem_range.mp hj), if_neg hne, zero_mul, zero_mul, mul_zero, ite_self]
  · intro h
    exact absurd (Finset.mem_range.mpr (by omega)) h

/-- A coefficient of a negacyclic product, bounded by the sum of one factor and the maximum of the
other. -/
theorem abs_ringMul_le {n : ℕ} {f g : ℕ → ℤ} {B : ℤ} (hg : ∀ k < n, |g k| ≤ B) {i : ℕ}
    (hi : i < n) : |ringMul n (-1) f g i| ≤ (∑ j ∈ Finset.range n, |f j|) * B := by
  unfold ringMul
  rw [Finset.sum_mul]
  refine (Finset.abs_sum_le_sum_abs _ _).trans (Finset.sum_le_sum ?_)
  intro j hj
  have hj' := Finset.mem_range.mp hj
  rw [sum_ringMul (-1) f g hi hj']
  split
  · rw [abs_mul]
    exact mul_le_mul_of_nonneg_left (hg _ (by omega)) (abs_nonneg _)
  · rw [neg_one_mul, abs_neg, abs_mul]
    exact mul_le_mul_of_nonneg_left (hg _ (by omega)) (abs_nonneg _)

theorem map_ringMul {R' : Type*} [CommRing R'] (h : R →+* R') (n : ℕ) (c : R) (f g : ℕ → R) (i : ℕ) :
    h (ringMul n c f g i) = ringMul n (h c) (fun i => h (f i)) (fun i => h (g i)) i := by
  simp only [ringMul, map_sum, apply_ite h, map_mul, map_zero]

/-! ## Layers -/

/-- One layer: every block of `2 * len` coefficients is reduced modulo `X ^ len - z b` in its lower
half and modulo `X ^ len + z b` in its upper half. -/
def cutLayer (len : ℕ) (z : ℕ → R) (a : ℕ → R) (i : ℕ) : R :=
  if i % (2 * len) < len then a i + z (i / (2 * len)) * a (i + len)
  else a (i - len) - z (i / (2 * len)) * a i

/-- One inverse layer. -/
def joinLayer (len : ℕ) (z : ℕ → R) (a : ℕ → R) (i : ℕ) : R :=
  if i % (2 * len) < len then a i + a (i + len)
  else z (i / (2 * len)) * (a i - a (i - len))

/-- An index of a block of `2 * len` lies in its lower or in its upper half. -/
theorem index_cases {len : ℕ} (hlen : 0 < len) (i : ℕ) :
    ∃ b j, j < len ∧ (i = b * (2 * len) + j ∨ i = b * (2 * len) + len + j) := by
  have hdiv := Nat.div_add_mod i (2 * len)
  have hmod := Nat.mod_lt i (show 0 < 2 * len by omega)
  rw [mul_comm] at hdiv
  by_cases h : i % (2 * len) < len
  · exact ⟨i / (2 * len), i % (2 * len), h, Or.inl (by omega)⟩
  · exact ⟨i / (2 * len), i % (2 * len) - len, by omega, Or.inr (by omega)⟩

section Index

variable {len b j : ℕ} (hj : j < len)
include hj

theorem div_lower : (b * (2 * len) + j) / (2 * len) = b := by
  rw [mul_comm, Nat.mul_add_div (by omega), Nat.div_eq_of_lt (by omega), add_zero]

theorem mod_lower : (b * (2 * len) + j) % (2 * len) = j := by
  rw [mul_comm, Nat.mul_add_mod, Nat.mod_eq_of_lt (by omega)]

theorem div_upper : (b * (2 * len) + len + j) / (2 * len) = b := by
  rw [add_assoc, mul_comm, Nat.mul_add_div (by omega), Nat.div_eq_of_lt (by omega), add_zero]

theorem mod_upper : (b * (2 * len) + len + j) % (2 * len) = len + j := by
  rw [add_assoc, mul_comm, Nat.mul_add_mod, Nat.mod_eq_of_lt (by omega)]

theorem cutLayer_lower (z a : ℕ → R) : cutLayer len z a (b * (2 * len) + j) =
    a (b * (2 * len) + j) + z b * a (b * (2 * len) + len + j) := by
  unfold cutLayer
  rw [mod_lower hj, if_pos hj, div_lower hj, Nat.add_right_comm]

theorem cutLayer_upper (z a : ℕ → R) : cutLayer len z a (b * (2 * len) + len + j) =
    a (b * (2 * len) + j) - z b * a (b * (2 * len) + len + j) := by
  unfold cutLayer
  have hsub : b * (2 * len) + len + j - len = b * (2 * len) + j := by omega
  rw [mod_upper hj, if_neg (by omega), div_upper hj, hsub]

theorem joinLayer_lower (z a : ℕ → R) : joinLayer len z a (b * (2 * len) + j) =
    a (b * (2 * len) + j) + a (b * (2 * len) + len + j) := by
  unfold joinLayer
  rw [mod_lower hj, if_pos hj, Nat.add_right_comm]

theorem joinLayer_upper (z a : ℕ → R) : joinLayer len z a (b * (2 * len) + len + j) =
    z b * (a (b * (2 * len) + len + j) - a (b * (2 * len) + j)) := by
  unfold joinLayer
  have hsub : b * (2 * len) + len + j - len = b * (2 * len) + j := by omega
  rw [mod_upper hj, if_neg (by omega), div_upper hj, hsub]

end Index

/-- Both halves of an index below `n` lie below `n`, when blocks fill `n`. -/
theorem index_lt {len n b j : ℕ} (hn : 2 * len ∣ n) (hj : j < len)
    (hi : b * (2 * len) + j < n ∨ b * (2 * len) + len + j < n) :
    b < n / (2 * len) ∧ b * (2 * len) + j < n ∧ b * (2 * len) + len + j < n := by
  obtain ⟨c, rfl⟩ := hn
  have hb : b < c := by
    by_contra hge
    have hmul : 2 * len * c ≤ b * (2 * len) := by
      rw [mul_comm b]
      exact Nat.mul_le_mul_left _ (by omega)
    omega
  have hmul : (b + 1) * (2 * len) ≤ 2 * len * c := by
    rw [mul_comm]
    exact Nat.mul_le_mul_left _ hb
  rw [add_mul, one_mul] at hmul
  rw [Nat.mul_div_cancel_left c (by omega)]
  omega

section Inverse

variable {len n : ℕ} {z y : ℕ → R} (hlen : 0 < len) (hn : 2 * len ∣ n)
  (hz : ∀ b < n / (2 * len), y b * z b = -1)
include hlen hn hz

theorem joinLayer_cutLayer (a : ℕ → R) {i : ℕ} (hi : i < n) :
    joinLayer len y (cutLayer len z a) i = 2 * a i := by
  obtain ⟨b, j, hj, rfl | rfl⟩ := index_cases hlen i
  · rw [joinLayer_lower hj, cutLayer_lower hj, cutLayer_upper hj]
    ring
  · have hb := (index_lt hn hj (Or.inr hi)).1
    rw [joinLayer_upper hj, cutLayer_lower hj, cutLayer_upper hj]
    linear_combination (-2 * a (b * (2 * len) + len + j)) * hz b hb

theorem cutLayer_joinLayer (a : ℕ → R) {i : ℕ} (hi : i < n) :
    cutLayer len z (joinLayer len y a) i = 2 * a i := by
  obtain ⟨b, j, hj, rfl | rfl⟩ := index_cases hlen i
  · have hb := (index_lt hn hj (Or.inl hi)).1
    rw [cutLayer_lower hj, joinLayer_lower hj, joinLayer_upper hj]
    linear_combination (a (b * (2 * len) + len + j) - a (b * (2 * len) + j)) * hz b hb
  · have hb := (index_lt hn hj (Or.inr hi)).1
    rw [cutLayer_upper hj, joinLayer_lower hj, joinLayer_upper hj]
    linear_combination (a (b * (2 * len) + j) - a (b * (2 * len) + len + j)) * hz b hb

end Inverse

theorem cutLayer_congr {len n : ℕ} {z a b : ℕ → R} (hlen : 0 < len) (hn : 2 * len ∣ n)
    (h : ∀ i < n, a i = b i) {i : ℕ} (hi : i < n) : cutLayer len z a i = cutLayer len z b i := by
  obtain ⟨c, j, hj, rfl | rfl⟩ := index_cases hlen i
  · obtain ⟨-, hlo, hup⟩ := index_lt hn hj (Or.inl hi)
    rw [cutLayer_lower hj, cutLayer_lower hj, h _ hlo, h _ hup]
  · obtain ⟨-, hlo, hup⟩ := index_lt hn hj (Or.inr hi)
    rw [cutLayer_upper hj, cutLayer_upper hj, h _ hlo, h _ hup]

theorem joinLayer_congr {len n : ℕ} {z a b : ℕ → R} (hlen : 0 < len) (hn : 2 * len ∣ n)
    (h : ∀ i < n, a i = b i) {i : ℕ} (hi : i < n) : joinLayer len z a i = joinLayer len z b i := by
  obtain ⟨c, j, hj, rfl | rfl⟩ := index_cases hlen i
  · obtain ⟨-, hlo, hup⟩ := index_lt hn hj (Or.inl hi)
    rw [joinLayer_lower hj, joinLayer_lower hj, h _ hlo, h _ hup]
  · obtain ⟨-, hlo, hup⟩ := index_lt hn hj (Or.inr hi)
    rw [joinLayer_upper hj, joinLayer_upper hj, h _ hlo, h _ hup]

theorem cutLayer_add (len : ℕ) (z a b : ℕ → R) (i : ℕ) :
    cutLayer len z (fun i => a i + b i) i = cutLayer len z a i + cutLayer len z b i := by
  unfold cutLayer
  split <;> ring

theorem cutLayer_mul_left (len : ℕ) (z a : ℕ → R) (c : R) (i : ℕ) :
    cutLayer len z (fun i => c * a i) i = c * cutLayer len z a i := by
  unfold cutLayer
  split <;> ring

theorem joinLayer_add (len : ℕ) (z a b : ℕ → R) (i : ℕ) :
    joinLayer len z (fun i => a i + b i) i = joinLayer len z a i + joinLayer len z b i := by
  unfold joinLayer
  split <;> ring

theorem joinLayer_mul_left (len : ℕ) (z a : ℕ → R) (c : R) (i : ℕ) :
    joinLayer len z (fun i => c * a i) i = c * joinLayer len z a i := by
  unfold joinLayer
  split <;> ring

/-- Block `b` of `len` coefficients. -/
def block (len b : ℕ) (a : ℕ → R) (j : ℕ) : R := a (b * len + j)

theorem toPoly_block (len b : ℕ) (a : ℕ → R) : toPoly (2 * len) (block (2 * len) b a) =
    toPoly len (fun j => a (b * (2 * len) + j)) +
      X ^ len * toPoly len (fun j => a (b * (2 * len) + len + j)) := by
  nth_rewrite 1 [two_mul]
  rw [toPoly_append]
  unfold block
  simp only [add_assoc]

theorem dvd_cutLayer_even (len b : ℕ) (z a : ℕ → R) :
    X ^ len - C (z b) ∣
      toPoly (2 * len) (block (2 * len) b a) - toPoly len (block len (2 * b) (cutLayer len z a)) := by
  have hblock : toPoly len (block len (2 * b) (cutLayer len z a)) =
      toPoly len (fun j => a (b * (2 * len) + j)) +
        C (z b) * toPoly len (fun j => a (b * (2 * len) + len + j)) := by
    rw [← toPoly_mul_left, ← toPoly_add]
    apply toPoly_congr
    intro j hj
    have hidx : 2 * b * len + j = b * (2 * len) + j := by ring
    rw [block, hidx, cutLayer_lower hj]
  refine ⟨toPoly len (fun j => a (b * (2 * len) + len + j)), ?_⟩
  rw [toPoly_block, hblock]
  ring

theorem dvd_cutLayer_odd (len b : ℕ) (z a : ℕ → R) :
    X ^ len - C (-z b) ∣ toPoly (2 * len) (block (2 * len) b a) -
      toPoly len (block len (2 * b + 1) (cutLayer len z a)) := by
  have hblock : toPoly len (block len (2 * b + 1) (cutLayer len z a)) =
      toPoly len (fun j => a (b * (2 * len) + j)) -
        C (z b) * toPoly len (fun j => a (b * (2 * len) + len + j)) := by
    rw [← toPoly_mul_left, ← toPoly_sub]
    apply toPoly_congr
    intro j hj
    have hidx : (2 * b + 1) * len + j = b * (2 * len) + len + j := by ring
    rw [block, hidx, cutLayer_upper hj]
  refine ⟨toPoly len (fun j => a (b * (2 * len) + len + j)), ?_⟩
  rw [toPoly_block, hblock, map_neg]
  ring

/-! ## The transform -/

/-- The first `m` layers on `2 ^ e` coefficients; node `2 ^ k + b` serves block `b` of layer `k`. -/
def forward (z : ℕ → R) (e : ℕ) : ℕ → (ℕ → R) → ℕ → R
  | 0, a => a
  | m + 1, a => cutLayer (2 ^ (e - 1 - m)) (fun b => z (2 ^ m + b)) (forward z e m a)

/-- The inverse layers, from layer `m - 1` down to layer `0`. Block `b` of layer `k` takes the node
that stands opposite to its own. -/
def backward (z : ℕ → R) (e : ℕ) : ℕ → (ℕ → R) → ℕ → R
  | 0, a => a
  | m + 1, a =>
    backward z e m (joinLayer (2 ^ (e - 1 - m)) (fun b => z (2 ^ (m + 1) - 1 - b)) a)

/-- The constant of block `b` after `k` layers: the block is a residue modulo
`X ^ (2 ^ (e - k)) - blockRoot z k b`. -/
def blockRoot (z : ℕ → R) : ℕ → ℕ → R
  | 0, _ => -1
  | k + 1, b => if b % 2 = 0 then z (2 ^ k + b / 2) else -z (2 ^ k + b / 2)

/-- The table of a transform of `m` layers. -/
structure Twiddles (z : ℕ → R) (m : ℕ) : Prop where
  sq : ∀ k < m, ∀ b < 2 ^ k, z (2 ^ k + b) ^ 2 = blockRoot z k b
  opposite : ∀ k < m, ∀ b < 2 ^ k, z (2 ^ (k + 1) - 1 - b) * z (2 ^ k + b) = -1

/-- A table of powers of a root, the exponents in bit-reversed order. -/
theorem twiddles_of_exponents {z : ℕ → R} {w : R} {r : ℕ → ℕ} {m : ℕ} (hw : w ^ 2 ^ m = -1)
    (hz : ∀ i < 2 ^ m, z i = w ^ r i) (hroot : 2 * r 1 = 2 ^ m)
    (heven : ∀ i, 0 < i → 2 * i < 2 ^ m → 2 * r (2 * i) = r i)
    (hodd : ∀ i, 0 < i → 2 * i + 1 < 2 ^ m → 2 * r (2 * i + 1) = r i + 2 ^ m)
    (hopp : ∀ k < m, ∀ b < 2 ^ k, r (2 ^ (k + 1) - 1 - b) + r (2 ^ k + b) = 2 ^ m) :
    Twiddles z m := by
  have hnode : ∀ k < m, ∀ b < 2 ^ k, 2 ^ k + b < 2 ^ m := by
    intro k hk b hb
    have hle : 2 ^ (k + 1) ≤ 2 ^ m := Nat.pow_le_pow_right (by omega) hk
    rw [pow_succ] at hle
    omega
  constructor
  · intro k hk b hb
    cases k with
    | zero =>
      have hb0 : b = 0 := by simpa using hb
      have h1 : 2 ^ 0 + 0 < 2 ^ m := hb0 ▸ hnode 0 hk b hb
      rw [hb0, blockRoot, hz _ h1, ← pow_mul, mul_comm]
      exact (congrArg (w ^ ·) hroot).trans hw
    | succ k =>
      have hb2 : b / 2 < 2 ^ k := by
        rw [pow_succ] at hb
        omega
      have hpos : 0 < 2 ^ k + b / 2 := by positivity
      have hlt := hnode (k + 1) hk b hb
      rw [blockRoot, hz _ hlt, hz _ (hnode k (by omega) _ hb2), ← pow_mul, mul_comm]
      split
      · next hev =>
        have hi : 2 ^ (k + 1) + b = 2 * (2 ^ k + b / 2) := by
          rw [pow_succ]
          omega
        rw [hi] at hlt ⊢
        rw [heven _ hpos hlt]
      · next hod =>
        have hi : 2 ^ (k + 1) + b = 2 * (2 ^ k + b / 2) + 1 := by
          rw [pow_succ]
          omega
        rw [hi] at hlt ⊢
        rw [hodd _ hpos hlt, pow_add, hw, mul_neg_one]
  · intro k hk b hb
    have hlt : 2 ^ (k + 1) - 1 - b < 2 ^ m := by
      have hle : 2 ^ (k + 1) ≤ 2 ^ m := Nat.pow_le_pow_right (by omega) hk
      have hpos : 0 < 2 ^ (k + 1) := by positivity
      omega
    rw [hz _ hlt, hz _ (hnode k hk b hb), ← pow_add, hopp k hk b hb, hw]

theorem len_succ {e k : ℕ} (hk : k < e) : 2 ^ (e - k) = 2 * 2 ^ (e - 1 - k) := by
  have hek : e - k = e - 1 - k + 1 := by omega
  rw [hek, pow_succ']

theorem blocks_dvd {e k : ℕ} (hk : k < e) : 2 * 2 ^ (e - 1 - k) ∣ 2 ^ e := by
  rw [← len_succ hk]
  exact pow_dvd_pow 2 (by omega)

theorem blocks_div {e k : ℕ} (hk : k < e) : 2 ^ e / (2 * 2 ^ (e - 1 - k)) = 2 ^ k := by
  rw [← len_succ hk, Nat.pow_div (by omega) (by omega)]
  congr 1
  omega

section Twiddles

variable {z : ℕ → R} {m : ℕ} (hz : Twiddles z m)
include hz

theorem Twiddles.dvd_modulus {e k b : ℕ} (hk : k < m) (hke : k < e) (hb : b < 2 ^ k) (s : R)
    (hs : s ^ 2 = z (2 ^ k + b) ^ 2) :
    X ^ 2 ^ (e - (k + 1)) - C s ∣ X ^ 2 ^ (e - k) - C (blockRoot z k b) := by
  have hpow : 2 ^ (e - k) = 2 ^ (e - (k + 1)) * 2 := by
    rw [len_succ hke, mul_comm, Nat.sub_sub, Nat.add_comm 1 k]
  refine ⟨X ^ 2 ^ (e - (k + 1)) + C s, ?_⟩
  rw [← hz.sq k hk b hb, ← hs, hpow, pow_mul, map_pow]
  ring

/-- The moduli of the blocks divide `X ^ (2 ^ e) + 1`, and a block is the residue of the whole. -/
theorem Twiddles.forward_dvd {e k b : ℕ} (hk : k ≤ m) (hke : k ≤ e) (hb : b < 2 ^ k) :
    (X ^ 2 ^ (e - k) - C (blockRoot z k b) ∣ X ^ 2 ^ e - C (-1)) ∧
      ∀ a, X ^ 2 ^ (e - k) - C (blockRoot z k b) ∣
        toPoly (2 ^ e) a - toPoly (2 ^ (e - k)) (block (2 ^ (e - k)) b (forward z e k a)) := by
  induction k generalizing b with
  | zero =>
    have hb0 : b = 0 := by simpa using hb
    refine ⟨by simp [blockRoot], ?_⟩
    intro a
    have hblock : toPoly (2 ^ e) (block (2 ^ e) b a) = toPoly (2 ^ e) a := by
      apply toPoly_congr
      intro i _
      rw [block, hb0, zero_mul, zero_add]
    simp only [Nat.sub_zero, forward, hblock, sub_self, dvd_zero]
  | succ k ih =>
    have hb2 : b / 2 < 2 ^ k := by
      rw [pow_succ] at hb
      omega
    obtain ⟨hmod, hres⟩ := ih (by omega) (by omega) hb2
    have hlen : e - (k + 1) = e - 1 - k := by omega
    -- the modulus of the block divides the modulus of the block it was cut from
    have hup : X ^ 2 ^ (e - (k + 1)) - C (blockRoot z (k + 1) b) ∣
        X ^ 2 ^ (e - k) - C (blockRoot z k (b / 2)) := by
      apply hz.dvd_modulus (by omega) (by omega) hb2
      rw [blockRoot]
      split <;> ring
    refine ⟨hup.trans hmod, ?_⟩
    intro a
    have hcut : X ^ 2 ^ (e - (k + 1)) - C (blockRoot z (k + 1) b) ∣
        toPoly (2 ^ (e - k)) (block (2 ^ (e - k)) (b / 2) (forward z e k a)) -
          toPoly (2 ^ (e - (k + 1))) (block (2 ^ (e - (k + 1))) b (forward z e (k + 1) a)) := by
      rw [len_succ (by omega : k < e), hlen, blockRoot]
      split
      · next heven =>
        have hbe : b = 2 * (b / 2) := by omega
        nth_rewrite 3 [hbe]
        exact dvd_cutLayer_even _ (b / 2) (fun b => z (2 ^ k + b)) (forward z e k a)
      · next hodd =>
        have hbo : b = 2 * (b / 2) + 1 := by omega
        nth_rewrite 3 [hbo]
        exact dvd_cutLayer_odd _ (b / 2) (fun b => z (2 ^ k + b)) (forward z e k a)
    have hsum := dvd_add (hup.trans (hres a)) hcut
    rwa [sub_add_sub_cancel] at hsum

/-- The transform turns the negacyclic product into products of blocks. -/
theorem Twiddles.forward_ringMul [Nontrivial R] {e k b i : ℕ} (hk : k ≤ m) (hke : k ≤ e)
    (hb : b < 2 ^ k) (hi : i < 2 ^ (e - k)) (f g : ℕ → R) :
    forward z e k (ringMul (2 ^ e) (-1) f g) (b * 2 ^ (e - k) + i) =
      ringMul (2 ^ (e - k)) (blockRoot z k b) (block (2 ^ (e - k)) b (forward z e k f))
        (block (2 ^ (e - k)) b (forward z e k g)) i := by
  obtain ⟨hmod, hres⟩ := hz.forward_dvd hk hke hb
  have hprod := hmod.trans (dvd_ringMul (2 ^ e) (-1) f g)
  have hblocks := dvd_ringMul (2 ^ (e - k)) (blockRoot z k b)
    (block (2 ^ (e - k)) b (forward z e k f)) (block (2 ^ (e - k)) b (forward z e k g))
  have hfg := dvd_add ((hres f).mul_right (toPoly (2 ^ e) g))
    ((hres g).mul_left (toPoly (2 ^ (e - k)) (block (2 ^ (e - k)) b (forward z e k f))))
  have hall :=
    dvd_add (dvd_sub hfg (dvd_add (hres (ringMul (2 ^ e) (-1) f g)) hprod)) hblocks
  have heq : ∀ p q r s t u v : R[X],
      (p - q) * r + q * (r - s) - (t - u + (p * r - t)) + (q * s - v) = u - v := by
    intro p q r s t u v
    ring
  rw [heq] at hall
  exact eq_of_dvd_toPoly hall hi

end Twiddles

theorem forward_add (z : ℕ → R) (e m : ℕ) (a b : ℕ → R) (i : ℕ) :
    forward z e m (fun i => a i + b i) i = forward z e m a i + forward z e m b i := by
  induction m generalizing i with
  | zero => rfl
  | succ m ih =>
    have hfun : forward z e m (fun i => a i + b i) =
        fun i => forward z e m a i + forward z e m b i := funext ih
    simp only [forward, hfun, cutLayer_add]

theorem forward_mul_left (z : ℕ → R) (e m : ℕ) (c : R) (a : ℕ → R) (i : ℕ) :
    forward z e m (fun i => c * a i) i = c * forward z e m a i := by
  induction m generalizing i with
  | zero => rfl
  | succ m ih =>
    have hfun : forward z e m (fun i => c * a i) = fun i => c * forward z e m a i := funext ih
    simp only [forward, hfun, cutLayer_mul_left]

theorem backward_add (z : ℕ → R) (e m : ℕ) (a b : ℕ → R) (i : ℕ) :
    backward z e m (fun i => a i + b i) i = backward z e m a i + backward z e m b i := by
  induction m generalizing a b with
  | zero => rfl
  | succ m ih =>
    simp only [backward]
    rw [← ih]
    congr 1
    funext j
    exact joinLayer_add _ _ a b j

theorem backward_mul_left (z : ℕ → R) (e m : ℕ) (c : R) (a : ℕ → R) (i : ℕ) :
    backward z e m (fun i => c * a i) i = c * backward z e m a i := by
  induction m generalizing a with
  | zero => rfl
  | succ m ih =>
    simp only [backward]
    rw [← ih]
    congr 1
    funext j
    exact joinLayer_mul_left _ _ a c j

theorem forward_congr {z a b : ℕ → R} {e m : ℕ} (hm : m ≤ e) (h : ∀ i < 2 ^ e, a i = b i) {i : ℕ}
    (hi : i < 2 ^ e) : forward z e m a i = forward z e m b i := by
  induction m generalizing i with
  | zero => exact h i hi
  | succ m ih =>
    exact cutLayer_congr (by positivity) (blocks_dvd hm) (fun j hj => ih (by omega) hj) hi

theorem backward_congr {z a b : ℕ → R} {e m : ℕ} (hm : m ≤ e) (h : ∀ i < 2 ^ e, a i = b i) {i : ℕ}
    (hi : i < 2 ^ e) : backward z e m a i = backward z e m b i := by
  induction m generalizing a b with
  | zero => exact h i hi
  | succ m ih =>
    exact ih (by omega) fun j hj => joinLayer_congr (by positivity) (blocks_dvd hm) h hj

section Twiddles

variable {z : ℕ → R} {m : ℕ} (hz : Twiddles z m)
include hz

theorem Twiddles.opposite_blocks {e k : ℕ} (hk : k < m) (hke : k < e) :
    ∀ b < 2 ^ e / (2 * 2 ^ (e - 1 - k)), z (2 ^ (k + 1) - 1 - b) * z (2 ^ k + b) = -1 := by
  intro b hb
  rw [blocks_div hke] at hb
  exact hz.opposite k hk b hb

theorem Twiddles.backward_forward {e k : ℕ} (hk : k ≤ m) (hke : k ≤ e) (a : ℕ → R) {i : ℕ}
    (hi : i < 2 ^ e) : backward z e k (forward z e k a) i = 2 ^ k * a i := by
  induction k with
  | zero => simp [backward, forward]
  | succ k ih =>
    have hstep : ∀ j < 2 ^ e, joinLayer (2 ^ (e - 1 - k)) (fun b => z (2 ^ (k + 1) - 1 - b))
        (forward z e (k + 1) a) j = 2 * forward z e k a j := by
      intro j hj
      exact joinLayer_cutLayer (by positivity) (blocks_dvd (by omega))
        (hz.opposite_blocks (by omega) (by omega)) _ hj
    rw [backward, backward_congr (by omega) hstep hi, backward_mul_left, ih (by omega) (by omega),
      pow_succ']
    ring

theorem Twiddles.forward_backward {e k : ℕ} (hk : k ≤ m) (hke : k ≤ e) (a : ℕ → R) {i : ℕ}
    (hi : i < 2 ^ e) : forward z e k (backward z e k a) i = 2 ^ k * a i := by
  induction k generalizing a i with
  | zero => simp [backward, forward]
  | succ k ih =>
    have hinner : ∀ j < 2 ^ e, forward z e k (backward z e (k + 1) a) j =
        2 ^ k * joinLayer (2 ^ (e - 1 - k)) (fun b => z (2 ^ (k + 1) - 1 - b)) a j := by
      intro j hj
      exact ih (by omega) (by omega) _ hj
    rw [forward, cutLayer_congr (by positivity) (blocks_dvd hke) hinner hi, cutLayer_mul_left,
      cutLayer_joinLayer (by positivity) (blocks_dvd hke)
        (hz.opposite_blocks (by omega) (by omega)) _ hi, pow_succ]
    ring

end Twiddles

end Ciphra
