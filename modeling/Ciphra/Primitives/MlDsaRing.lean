import Ciphra.Primitives.MlDsa

/-!
# The ring of ML-DSA

What the array operations of ML-DSA compute on the coefficients modulo 8380417. The transform is
complete: in its domain a product is coefficient-wise, and `invNtt` of a product of transforms is the
product modulo `X ^ 256 + 1` (`coeffs_challengeMul`).

The modulus is prime, and every sum and difference of representatives in `[0, q)` is again one.
-/

namespace Ciphra

namespace MlDsa

/-- The modulus, as the index of the residues. -/
abbrev Q : ℕ := 8380417

instance : Fact (Nat.Prime Q) := ⟨by norm_num⟩

theorem cast_q : ((q : ℤ) : ZMod Q) = 0 := ZMod.natCast_self Q

theorem cast_mod_q (x : ℤ) : ((x % q : ℤ) : ZMod Q) = x := ZMod.intCast_mod x Q

theorem cast_addMod (a b : ℤ) : ((addMod a b : ℤ) : ZMod Q) = a + b := by
  unfold addMod
  split
  · rw [Int.cast_sub, cast_q, sub_zero, Int.cast_add]
  · rw [Int.cast_add]

theorem cast_subMod (a b : ℤ) : ((subMod a b : ℤ) : ZMod Q) = a - b := by
  unfold subMod
  split
  · rw [Int.cast_add, cast_q, add_zero, Int.cast_sub]
  · rw [Int.cast_sub]

theorem cast_mulMod (a b : ℤ) : ((mulMod a b : ℤ) : ZMod Q) = a * b := by
  rw [mulMod, cast_mod_q, Int.cast_mul]

theorem addMod_mem {a b : ℤ} (ha : 0 ≤ a ∧ a < q) (hb : 0 ≤ b ∧ b < q) :
    0 ≤ addMod a b ∧ addMod a b < q := by
  unfold addMod
  split <;> omega

theorem subMod_mem {a b : ℤ} (ha : 0 ≤ a ∧ a < q) (hb : 0 ≤ b ∧ b < q) :
    0 ≤ subMod a b ∧ subMod a b < q := by
  unfold subMod
  split <;> omega

theorem mod_mem (x : ℤ) : 0 ≤ x % q ∧ x % q < q :=
  ⟨Int.emod_nonneg x (by decide), Int.emod_lt_of_pos x (by decide)⟩

/-! ## Tables -/

theorem cast_powMod (base : ℤ) (exp : ℕ) :
    ((powMod base exp : ℤ) : ZMod Q) = (base : ZMod Q) ^ exp := by
  have hloop : ((powModLoop q 1 (base % q) exp : ℤ) : ZMod Q) =
      ((1 : ℤ) : ZMod Q) * ((base % q : ℤ) : ZMod Q) ^ exp := cast_powModLoop Q 1 (base % q) exp
  rw [powMod, hloop, cast_mod_q, Int.cast_one, one_mul]

/-- Entry `i` of the table, modulo `q`. -/
def zeta (i : ℕ) : ZMod Q := (zetas[i]! : ℤ)

theorem zeta_eq {i : ℕ} (hi : i < 256) : zeta i = 1753 ^ reverseBits i := by
  rw [zeta, getElem!_pos zetas i hi, zetas, Vector.getElem_ofFn, cast_powMod]
  rfl

theorem pow_root : (1753 : ZMod Q) ^ 256 = -1 := by
  have h : (((1753 : ℕ) ^ 256 + 1 : ℕ) : ZMod Q) = 0 :=
    (ZMod.natCast_eq_zero_iff _ _).mpr (by decide)
  rw [Nat.cast_add, Nat.cast_pow, Nat.cast_one] at h
  exact eq_neg_of_add_eq_zero_left h

theorem twiddles : Twiddles zeta 8 := by
  have heven : ∀ i < 128, 0 < i → 2 * reverseBits (2 * i) = reverseBits i := by decide
  have hodd : ∀ i < 128, 0 < i → 2 * reverseBits (2 * i + 1) = reverseBits i + 256 := by
    decide
  have hopp : ∀ k < 8, ∀ b < 2 ^ k,
      reverseBits (2 ^ (k + 1) - 1 - b) + reverseBits (2 ^ k + b) = 256 := by
    decide
  refine twiddles_of_exponents (w := 1753) (r := reverseBits) pow_root ?_ (by decide) ?_ ?_ hopp
  · intro i hi
    exact zeta_eq hi
  · intro i h0 hi
    exact heven i (by omega) h0
  · intro i h0 hi
    exact hodd i (by omega) h0

/-- The scaling of the inverse transform undoes its eight doublings. -/
theorem cast_nInverse : ((nInverse : ℤ) : ZMod Q) * 2 ^ 8 = 1 := by
  have hne : (256 : ZMod Q) ≠ 0 := by
    have h : ((256 : ℕ) : ZMod Q) ≠ 0 := by
      rw [Ne, ZMod.natCast_eq_zero_iff]
      decide
    exact h
  have hfermat := ZMod.pow_card_sub_one_eq_one hne
  have hpow : (2 : ZMod Q) ^ 8 = 256 := by norm_num
  have hcast : ((256 : ℤ) : ZMod Q) = 256 := rfl
  rw [nInverse, cast_powMod, hcast, hpow, ← pow_succ]
  exact hfermat

/-! ## The transform -/

/-- The transform on coefficients. -/
def hat (a : ℕ → ZMod Q) : ℕ → ZMod Q := forward zeta 8 8 a

/-- The inverse transform on coefficients. -/
def unhat (a : ℕ → ZMod Q) (i : ℕ) : ZMod Q := (nInverse : ℤ) * backward zeta 8 8 a i

theorem coeffs_ntt (a : Poly) {i : ℕ} (hi : i < 256) : coeffs Q (ntt a) i = hat (coeffs Q a) i := by
  have hlo : ∀ (k : ℕ) (lo hi : ℤ),
      (((nttStep zetas[k + 1]! lo hi).1 : ℤ) : ZMod Q) = lo + zeta (k + 1) * hi := by
    intro k lo hi
    rw [nttStep, cast_addMod, cast_mulMod, zeta]
  have hup : ∀ (k : ℕ) (lo hi : ℤ),
      (((nttStep zetas[k + 1]! lo hi).2 : ℤ) : ZMod Q) = lo - zeta (k + 1) * hi := by
    intro k lo hi
    rw [nttStep, cast_subMod, cast_mulMod, zeta]
  have h := foldl_layerLoop_forward (z := zeta) (y := fun k => zeta (k + 1)) (e := 8) (m := 8)
    (fun x : ℤ => (x : ZMod Q)) (· + 1) hlo hup (a, 0) (by omega)
    (by intro t _; rw [iterate_add_one, Nat.zero_add])
  exact h.2 i hi

theorem coeffs_invNtt (a : Poly) {i : ℕ} (hi : i < 256) :
    coeffs Q (invNtt a) i = unhat (coeffs Q a) i := by
  have hlo : ∀ (k : ℕ) (lo hi : ℤ),
      (((invNttStep (q - zetas[k - 1]!) lo hi).1 : ℤ) : ZMod Q) = lo + hi := by
    intro k lo hi
    rw [invNttStep, cast_addMod]
  have hup : ∀ (k : ℕ) (lo hi : ℤ),
      (((invNttStep (q - zetas[k - 1]!) lo hi).2 : ℤ) : ZMod Q) = zeta (k - 1) * (hi - lo) := by
    intro k lo hi
    rw [invNttStep, cast_mulMod, cast_subMod, Int.cast_sub, cast_q, zeta]
    ring
  have h := foldl_layerLoop_backward (z := zeta) (y := fun k => zeta (k - 1)) (e := 8) (m := 8)
    (fun x : ℤ => (x : ZMod Q)) (· - 1) hlo hup (a, 256) (by omega)
    (by intro t _; rw [iterate_sub_one, Nat.sub_right_comm]; rfl) i hi
  have hval : coeffs Q (invNtt a) i = (([1, 2, 4, 8, 16, 32, 64, 128].foldl
      (layerLoop (fun k => invNttStep (q - zetas[k - 1]!)) (· - 1)) (a, 256)).1[i]! : ℤ) *
        ((nInverse : ℤ) : ZMod Q) := by
    rw [coeffs, invNtt, getElem!_pos _ i hi, Vector.getElem_map, cast_mulMod, getElem!_pos _ i hi]
  rw [hval, unhat, mul_comm]
  exact congrArg _ h

theorem unhat_hat (a : ℕ → ZMod Q) {i : ℕ} (hi : i < 256) : unhat (hat a) i = a i := by
  rw [unhat, hat, twiddles.backward_forward le_rfl (by omega) a hi, ← mul_assoc, cast_nInverse,
    one_mul]

theorem hat_unhat (a : ℕ → ZMod Q) {i : ℕ} (hi : i < 256) : hat (unhat a) i = a i := by
  have hscale : hat (unhat a) i = (nInverse : ℤ) * forward zeta 8 8 (backward zeta 8 8 a) i :=
    forward_mul_left zeta 8 8 _ (backward zeta 8 8 a) i
  rw [hscale, twiddles.forward_backward le_rfl (by omega) a hi, ← mul_assoc, cast_nInverse, one_mul]

theorem hat_congr {a b : ℕ → ZMod Q} (h : ∀ i < 256, a i = b i) {i : ℕ} (hi : i < 256) :
    hat a i = hat b i :=
  forward_congr (e := 8) (by omega) h hi

theorem unhat_congr {a b : ℕ → ZMod Q} (h : ∀ i < 256, a i = b i) {i : ℕ} (hi : i < 256) :
    unhat a i = unhat b i := by
  rw [unhat, unhat, backward_congr (e := 8) (by omega) h hi]

theorem hat_add (a b : ℕ → ZMod Q) (i : ℕ) : hat (fun i => a i + b i) i = hat a i + hat b i :=
  forward_add zeta 8 8 a b i

theorem hat_sub (a b : ℕ → ZMod Q) (i : ℕ) : hat (fun i => a i - b i) i = hat a i - hat b i := by
  have hneg : hat (fun i => -1 * b i) i = -1 * hat b i := forward_mul_left zeta 8 8 (-1) b i
  have hadd := hat_add a (fun i => -1 * b i) i
  rw [hneg] at hadd
  simp only [neg_one_mul, ← sub_eq_add_neg] at hadd
  exact hadd

theorem unhat_add (a b : ℕ → ZMod Q) (i : ℕ) :
    unhat (fun i => a i + b i) i = unhat a i + unhat b i := by
  rw [unhat, backward_add, mul_add]
  rfl

/-- The transform of a product modulo `X ^ 256 + 1` is the product of the transforms. -/
theorem hat_ringMul (a b : ℕ → ZMod Q) {k : ℕ} (hk : k < 256) :
    hat (ringMul 256 (-1) a b) k = hat a k * hat b k := by
  have h := twiddles.forward_ringMul (e := 8) (k := 8) (b := k) (i := 0) le_rfl le_rfl hk (by decide)
    a b
  have hidx : k * 2 ^ (8 - 8) + 0 = k := by simp
  have hblock : ∀ c : ℕ → ZMod Q, block (2 ^ (8 - 8)) k c 0 = c k := by
    intro c
    rw [block, hidx]
  rw [hidx] at h
  have hone : ∀ (c : ZMod Q) (f g : ℕ → ZMod Q), ringMul (2 ^ (8 - 8)) c f g 0 = f 0 * g 0 :=
    ringMul_one
  rw [hone, hblock, hblock] at h
  exact h

theorem unhat_mul_hat (a b : ℕ → ZMod Q) {k : ℕ} (hk : k < 256) :
    unhat (fun i => hat a i * hat b i) k = ringMul 256 (-1) a b k := by
  rw [← unhat_hat (ringMul 256 (-1) a b) hk]
  apply unhat_congr _ hk
  intro i hi
  exact (hat_ringMul a b hi).symm

/-! ## Polynomials -/

theorem coeffs_polyAdd (a b : Poly) {i : ℕ} (hi : i < 256) :
    coeffs Q (polyAdd a b) i = coeffs Q a i + coeffs Q b i := by
  rw [coeffs, getElem!_pos _ i hi, polyAdd, Vector.getElem_ofFn, cast_addMod,
    coeffs_eq_getElem _ a hi, coeffs_eq_getElem _ b hi]

theorem coeffs_polySub (a b : Poly) {i : ℕ} (hi : i < 256) :
    coeffs Q (polySub a b) i = coeffs Q a i - coeffs Q b i := by
  rw [coeffs, getElem!_pos _ i hi, polySub, Vector.getElem_ofFn, cast_subMod,
    coeffs_eq_getElem _ a hi, coeffs_eq_getElem _ b hi]

theorem coeffs_polyPointwise (a b : Poly) {i : ℕ} (hi : i < 256) :
    coeffs Q (polyPointwise a b) i = coeffs Q a i * coeffs Q b i := by
  rw [coeffs, getElem!_pos _ i hi, polyPointwise, Vector.getElem_ofFn, cast_mulMod,
    coeffs_eq_getElem _ a hi, coeffs_eq_getElem _ b hi]

theorem coeffs_rowMul (row x : VecL) {i : ℕ} (hi : i < 256) :
    coeffs Q (rowMul row x) i = ∑ j, coeffs Q (row j) i * coeffs Q (x j) i := by
  have hlist : List.finRange 5 = [0, 1, 2, 3, 4] := by decide
  simp only [rowMul, hlist, List.foldl_cons, List.foldl_nil, coeffs_polyAdd _ _ hi,
    coeffs_polyPointwise _ _ hi, coeffs_zeroPoly, Fin.sum_univ_five]
  ring

/-- The product with the challenge is the product modulo `X ^ 256 + 1`. -/
theorem coeffs_challengeMul (c p : Poly) {i : ℕ} (hi : i < 256) :
    coeffs Q (challengeMul (ntt c) (ntt p)) i = ringMul 256 (-1) (coeffs Q c) (coeffs Q p) i := by
  have hprod : ∀ k < 256, coeffs Q (polyPointwise (ntt c) (ntt p)) k =
      hat (coeffs Q c) k * hat (coeffs Q p) k := by
    intro k hk
    rw [coeffs_polyPointwise _ _ hk, coeffs_ntt _ hk, coeffs_ntt _ hk]
  rw [challengeMul, coeffs_invNtt _ hi, unhat_congr hprod hi, unhat_mul_hat _ _ hi]

theorem getElem_mem {p : Poly} (h : Reduced Q p) (i : Fin 256) :
    0 ≤ p.get i ∧ p.get i < q := by
  have hi := h i i.2
  rwa [getElem!_pos p i.val i.2] at hi

theorem reduced_polyAdd {a b : Poly} (ha : Reduced Q a) (hb : Reduced Q b) :
    Reduced Q (polyAdd a b) :=
  reduced_ofFn fun i => addMod_mem (getElem_mem ha i) (getElem_mem hb i)

theorem reduced_polySub {a b : Poly} (ha : Reduced Q a) (hb : Reduced Q b) :
    Reduced Q (polySub a b) :=
  reduced_ofFn fun i => subMod_mem (getElem_mem ha i) (getElem_mem hb i)

theorem reduced_invNtt (a : Poly) : Reduced Q (invNtt a) := by
  intro i hi
  rw [getElem!_pos _ i hi, invNtt, Vector.getElem_map]
  exact mod_mem _

end MlDsa

end Ciphra
