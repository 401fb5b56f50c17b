import Ciphra.Primitives.MlDsaRing

/-!
# Rounding, hints and small products

The high part of a residue is the nearest multiple of `2 * gamma2`, where the top one wraps to 0.
Adding less than the distance to the border does not change it (`highBits_of_small`), and a hint
restores it after an addition of at most `gamma2` (`useHint_makeHint`).

The challenge has 49 coefficients `1` or `-1`, so its product with a polynomial of coefficients at
most `B` has coefficients at most `49 * B` (`center_challengeMul`).
-/

namespace Ciphra

namespace MlDsa

/-! ## Centred representatives -/

theorem cast_center (a : ℤ) : ((center a : ℤ) : ZMod Q) = a := by
  unfold center
  split
  · rw [Int.cast_sub, cast_q, sub_zero]
  · rfl

/-- A small integer is the centred representative of its residue. -/
theorem center_mod {x : ℤ} (h : |x| ≤ 4190208) : center (x % q) = x := by
  obtain ⟨hlo, hhi⟩ := abs_le.mp h
  unfold center q
  split <;> omega

theorem mod_center {a : ℤ} (ha : 0 ≤ a ∧ a < q) : center a % q = a := by
  unfold center
  unfold q at ha ⊢
  split <;> omega

/-- The centred representative is the small integer with the same residue. -/
theorem center_eq_of_cast {a x : ℤ} (ha : 0 ≤ a ∧ a < q) (hx : |x| ≤ 4190208)
    (h : (a : ZMod Q) = (x : ZMod Q)) : center a = x := by
  have hmod : a = x % q := eq_of_cast_eq ha (mod_mem x) (by rw [h, cast_mod_q])
  rw [hmod, center_mod hx]

/-! ## Norms -/

theorem foldl_max_lt {l : List ℤ} {B b : ℤ} : l.foldl max b < B ↔ b < B ∧ ∀ x ∈ l, x < B := by
  induction l generalizing b with
  | nil => simp
  | cons x l ih =>
    rw [List.foldl_cons, ih, max_lt_iff, List.forall_mem_cons, and_assoc]

theorem maxNorm_lt {n : ℕ} {norm : Poly → ℤ} {v : Fin n → Poly} {B : ℤ} (hB : 0 < B) :
    maxNorm norm v < B ↔ ∀ i, norm (v i) < B := by
  rw [maxNorm, foldl_max_lt, and_iff_right hB]
  simp only [List.mem_ofFn, forall_exists_index, forall_apply_eq_imp_iff]

theorem foldl_max_map_lt {p : Poly} {f : ℤ → ℤ} {B : ℤ} (hB : 0 < B) :
    (p.toList.map f).foldl max 0 < B ↔ ∀ i : Fin 256, f p[i] < B := by
  rw [foldl_max_lt, and_iff_right hB]
  simp only [List.mem_map, forall_exists_index, and_imp, forall_apply_eq_imp_iff₂]
  constructor
  · intro hall i
    exact hall p[i] (by simp)
  · intro hall x hx
    obtain ⟨i, hi, rfl⟩ := List.getElem_of_mem hx
    exact hall ⟨i, by simpa using hi⟩

theorem normInf_lt {p : Poly} {B : ℤ} (hB : 0 < B) :
    normInf p < B ↔ ∀ i : Fin 256, |center p[i]| < B :=
  foldl_max_map_lt hB

theorem infinityLow_lt {p : Poly} {B : ℤ} (hB : 0 < B) :
    infinityLow p < B ↔ ∀ i : Fin 256, |p[i]| < B :=
  foldl_max_map_lt hB

/-! ## High and low parts -/

theorem power2round_spec {r : ℤ} (hr : 0 ≤ r ∧ r < q) :
    r = (power2round r).1 * 2 ^ 13 + (power2round r).2 ∧
      (0 ≤ (power2round r).1 ∧ (power2round r).1 < 2 ^ 10) ∧
      -(2 ^ 12) < (power2round r).2 ∧ (power2round r).2 ≤ 2 ^ 12 := by
  have hmod : r % q = r := Int.emod_eq_of_lt hr.1 hr.2
  simp only [power2round, hmod]
  unfold q at hr
  omega

/-- A residue is its high part times `2 * gamma2` plus its low part, except below the modulus, where
the high part wraps to 0. -/
theorem decompose_spec {r : ℤ} (hr : 0 ≤ r ∧ r < q) :
    (0 ≤ highBits r ∧ highBits r < 16) ∧
      ((r = highBits r * (2 * gamma2) + lowBitsOf r ∧
          -gamma2 < lowBitsOf r ∧ lowBitsOf r ≤ gamma2) ∨
        (highBits r = 0 ∧ r = q + lowBitsOf r ∧ -gamma2 ≤ lowBitsOf r ∧ lowBitsOf r < 0)) := by
  have hmod : r % q = r := Int.emod_eq_of_lt hr.1 hr.2
  simp only [highBits, lowBitsOf, decompose, hmod]
  unfold q gamma2 at *
  split <;> split
  · exact ⟨⟨le_rfl, by omega⟩, Or.inr ⟨rfl, by omega, by omega, by omega⟩⟩
  · simp only
    omega
  · exact ⟨⟨le_rfl, by omega⟩, Or.inr ⟨rfl, by omega, by omega, by omega⟩⟩
  · simp only
    omega

/-- The sum of residues, as an integer. -/
theorem addMod_cases {a b : ℤ} (ha : 0 ≤ a ∧ a < q) (hb : 0 ≤ b ∧ b < q) :
    addMod a b = a + center b ∨ addMod a b = a + center b - q ∨ addMod a b = a + center b + q := by
  unfold addMod center
  split <;> split <;> omega

/-- A hint restores the high part. -/
theorem useHint_makeHint {z r : ℤ} (hz : 0 ≤ z ∧ z < q) (hr : 0 ≤ r ∧ r < q)
    (hsmall : |center z| ≤ gamma2) : useHint (makeHint z r) r = highBits (addMod r z) := by
  have hzmod : z % q = z := Int.emod_eq_of_lt hz.1 hz.2
  have hrmod : r % q = r := Int.emod_eq_of_lt hr.1 hr.2
  obtain ⟨hlo, hhi⟩ := abs_le.mp hsmall
  have hr' := decompose_spec hr
  have hv' := decompose_spec (addMod_mem hr hz)
  have hsum := addMod_cases hr hz
  have hdec : decompose r = (highBits r, lowBitsOf r) := rfl
  have hm : (q - 1) / (2 * gamma2) = 16 := by decide
  simp only [useHint, makeHint, hzmod, hrmod, hdec, hm]
  generalize addMod r z = v at *
  generalize highBits r = r1 at *
  generalize lowBitsOf r = r0 at *
  generalize highBits v = v1 at *
  generalize lowBitsOf v = v0 at *
  generalize center z = e at *
  unfold q gamma2 at *
  by_cases heq : r1 = v1
  · simp [heq]
  · simp only [bne_iff_ne, ne_eq, heq, not_false_eq_true, if_true]
    split <;> omega

/-- A change that stays away from the border keeps the high part. -/
theorem highBits_of_small {d c w : ℤ} (hd : 0 ≤ d ∧ d < q) (hc : 0 ≤ c ∧ c < q)
    (hw : w = addMod d c) (hsmall : |center c| ≤ beta) (hlow : |lowBitsOf d| < gamma2 - beta) :
    highBits w = highBits d := by
  obtain ⟨hlo, hhi⟩ := abs_le.mp hsmall
  obtain ⟨hlo', hhi'⟩ := abs_lt.mp hlow
  have hd' := decompose_spec hd
  have hw' := decompose_spec (addMod_mem hd hc)
  have hsum := addMod_cases hd hc
  rw [← hw] at hw' hsum
  generalize highBits d = d1 at *
  generalize lowBitsOf d = d0 at *
  generalize highBits w = w1 at *
  generalize lowBitsOf w = w0 at *
  generalize center c = e at *
  unfold q gamma2 beta at *
  omega

/-! ## Products with the challenge -/

/-- The sum of the absolute values of the centred coefficients. -/
def norm1 (p : Poly) : ℤ := ∑ j ∈ Finset.range 256, |center p[j]!|

theorem center_challengeMul {a p : Poly} {B : ℤ} (hc : norm1 a ≤ 49)
    (hp : ∀ i : ℕ, i < 256 → |center p[i]!| ≤ B) (hB0 : 0 ≤ B) (hB : B ≤ 4096) {i : ℕ}
    (hi : i < 256) : |center (challengeMul (ntt a) (ntt p))[i]!| ≤ 49 * B := by
  set x : ℤ := ringMul 256 (-1) (fun j => center a[j]!) (fun j => center p[j]!) i
  have hbound : |x| ≤ 49 * B :=
    (abs_ringMul_le hp hi).trans (mul_le_mul_of_nonneg_right hc hB0)
  have hcast : ((x : ℤ) : ZMod Q) = coeffs Q (challengeMul (ntt a) (ntt p)) i := by
    rw [coeffs_challengeMul a p hi]
    have hmap := map_ringMul (Int.castRingHom (ZMod Q)) 256 (-1) (fun j => center a[j]!)
      (fun j => center p[j]!) i
    simp only [eq_intCast, cast_center, Int.cast_neg, Int.cast_one] at hmap
    exact hmap
  have hred : 0 ≤ (challengeMul (ntt a) (ntt p))[i]! ∧ (challengeMul (ntt a) (ntt p))[i]! < q :=
    reduced_invNtt (polyPointwise (ntt a) (ntt p)) i hi
  rw [center_eq_of_cast hred (hbound.trans (by omega)) hcast.symm]
  exact hbound

end MlDsa

end Ciphra
