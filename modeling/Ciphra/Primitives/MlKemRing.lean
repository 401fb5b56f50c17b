import Ciphra.Primitives.MlKem

/-!
# The ring of ML-KEM

What the array operations of ML-KEM compute on the coefficients modulo 3329. `ntt` and `intt` are
inverse to each other (`coeffs_intt_ntt`, `coeffs_ntt_intt`) and turn `nttMul` into the product
modulo `X ^ 256 + 1` (`coeffs_nttMul_ntt`). In the transform domain a product is a product of pairs,
`pairMul`, and the algebra of the mechanism is done there.
-/

namespace Ciphra

namespace MlKem

instance fact_one_lt_modulus : Fact (1 < 3329) := ⟨by decide⟩

theorem cast_reduce (x : ℤ) : ((reduce x : ℤ) : ZMod 3329) = x := ZMod.intCast_mod x 3329

theorem reduce_mem (x : ℤ) : 0 ≤ reduce x ∧ reduce x < q :=
  ⟨Int.emod_nonneg x (by decide), Int.emod_lt_of_pos x (by decide)⟩

/-! ## Tables -/

theorem cast_powMod (base : ℤ) (exp : ℕ) :
    ((powMod base exp : ℤ) : ZMod 3329) = (base : ZMod 3329) ^ exp := by
  rw [powMod, q, show (3329 : ℤ) = ((3329 : ℕ) : ℤ) from rfl, cast_powModLoop, ZMod.intCast_mod,
    Int.cast_one, one_mul]

/-- Entry `i` of the table, modulo 3329. -/
def zeta (i : ℕ) : ZMod 3329 := (zetas[i]! : ℤ)

/-- The constant of pair `i`. -/
def gamma (i : ℕ) : ZMod 3329 := (gammas[i]! : ℤ)

theorem zeta_eq {i : ℕ} (hi : i < 128) : zeta i = 17 ^ bitrev7 i := by
  rw [zeta, getElem!_pos zetas i hi, zetas, Vector.getElem_ofFn, cast_powMod]
  rfl

theorem gamma_eq {i : ℕ} (hi : i < 128) : gamma i = 17 ^ (2 * bitrev7 i + 1) := by
  rw [gamma, getElem!_pos gammas i hi, gammas, Vector.getElem_ofFn, cast_powMod]
  rfl

theorem pow_root : (17 : ZMod 3329) ^ 128 = -1 := by
  have h : (((17 : ℕ) ^ 128 + 1 : ℕ) : ZMod 3329) = 0 :=
    (ZMod.natCast_eq_zero_iff _ _).mpr (by decide)
  rw [Nat.cast_add, Nat.cast_pow, Nat.cast_one] at h
  exact eq_neg_of_add_eq_zero_left h

theorem twiddles : Twiddles zeta 7 := by
  have heven : ∀ i < 64, 0 < i → 2 * bitrev7 (2 * i) = bitrev7 i := by decide
  have hodd : ∀ i < 64, 0 < i → 2 * bitrev7 (2 * i + 1) = bitrev7 i + 128 := by decide
  have hopp : ∀ k < 7, ∀ b < 2 ^ k, bitrev7 (2 ^ (k + 1) - 1 - b) + bitrev7 (2 ^ k + b) = 128 := by
    decide
  refine twiddles_of_exponents (w := 17) (r := bitrev7) pow_root ?_ (by decide) ?_ ?_ hopp
  · intro i hi
    exact zeta_eq hi
  · intro i h0 hi
    exact heven i (by omega) h0
  · intro i h0 hi
    exact hodd i (by omega) h0

/-- The constants of the pairs are those of the last layer. -/
theorem gamma_eq_blockRoot {i : ℕ} (hi : i < 128) : gamma i = blockRoot zeta 7 i := by
  have heven : ∀ i < 128, i % 2 = 0 → 2 * bitrev7 i + 1 = bitrev7 (2 ^ 6 + i / 2) := by
    decide
  have hodd : ∀ i < 128, ¬i % 2 = 0 → 2 * bitrev7 i + 1 = bitrev7 (2 ^ 6 + i / 2) + 128 := by
    decide
  rw [gamma_eq hi, blockRoot, zeta_eq (by omega : 2 ^ 6 + i / 2 < 128)]
  split
  · next hpar => rw [heven i hi hpar]
  · next hpar => rw [hodd i hi hpar, pow_add, pow_root, mul_neg_one]

/-! ## The transform -/

/-- The transform on coefficients. -/
def hat (a : ℕ → ZMod 3329) : ℕ → ZMod 3329 := forward zeta 8 7 a

/-- The inverse transform on coefficients. -/
def unhat (a : ℕ → ZMod 3329) (i : ℕ) : ZMod 3329 := 3303 * backward zeta 8 7 a i

theorem coeffs_ntt (f : Poly) {i : ℕ} (hi : i < 256) : coeffs 3329 (ntt f) i = hat (coeffs 3329 f) i := by
  have hlo : ∀ (k : ℕ) (lo hi : ℤ), (((nttStep zetas[k]! lo hi).1 : ℤ) : ZMod 3329) = lo + zeta k * hi := by
    intro k lo hi
    simp [nttStep, cast_reduce, zeta]
  have hup : ∀ (k : ℕ) (lo hi : ℤ), (((nttStep zetas[k]! lo hi).2 : ℤ) : ZMod 3329) = lo - zeta k * hi := by
    intro k lo hi
    simp [nttStep, cast_reduce, zeta]
  have h := foldl_layerLoop_forward (z := zeta) (e := 8) (m := 7)
    (fun x : ℤ => (x : ZMod 3329)) (· + 1) hlo hup (f, 1) (by omega)
    (by intro t _; rw [iterate_add_one, Nat.add_comm])
  exact h.2 i hi

theorem coeffs_intt (f : Poly) {i : ℕ} (hi : i < 256) :
    coeffs 3329 (intt f) i = unhat (coeffs 3329 f) i := by
  have hlo : ∀ (k : ℕ) (lo hi : ℤ), (((inttStep zetas[k]! lo hi).1 : ℤ) : ZMod 3329) = lo + hi := by
    intro k lo hi
    simp [inttStep, cast_reduce]
  have hup : ∀ (k : ℕ) (lo hi : ℤ),
      (((inttStep zetas[k]! lo hi).2 : ℤ) : ZMod 3329) = zeta k * (hi - lo) := by
    intro k lo hi
    simp [inttStep, cast_reduce, zeta]
  have h := foldl_layerLoop_backward (z := zeta) (e := 8) (m := 7)
    (fun x : ℤ => (x : ZMod 3329)) (· - 1) hlo hup (f, 127) (by omega)
    (by intro t _; rw [iterate_sub_one]; rfl) i hi
  have hval : coeffs 3329 (intt f) i = (([2, 4, 8, 16, 32, 64, 128].foldl
      (layerLoop (fun i => inttStep zetas[i]!) (· - 1)) (f, 127)).1[i]! * 3303 : ℤ) := by
    rw [coeffs, intt, getElem!_pos _ i hi, Vector.getElem_map, cast_reduce, getElem!_pos _ i hi]
  rw [hval, Int.cast_mul, unhat, mul_comm]
  exact congrArg _ h

theorem unhat_hat (a : ℕ → ZMod 3329) {i : ℕ} (hi : i < 256) : unhat (hat a) i = a i := by
  rw [unhat, hat, twiddles.backward_forward le_rfl (by omega) a hi, ← mul_assoc]
  have h : (3303 * 2 ^ 7 : ZMod 3329) = 1 := by decide
  rw [h, one_mul]

theorem hat_unhat (a : ℕ → ZMod 3329) {i : ℕ} (hi : i < 256) : hat (unhat a) i = a i := by
  have hscale : hat (unhat a) i = 3303 * forward zeta 8 7 (backward zeta 8 7 a) i :=
    forward_mul_left zeta 8 7 3303 (backward zeta 8 7 a) i
  rw [hscale, twiddles.forward_backward le_rfl (by omega) a hi, ← mul_assoc]
  have h : (3303 * 2 ^ 7 : ZMod 3329) = 1 := by decide
  rw [h, one_mul]

theorem hat_congr {a b : ℕ → ZMod 3329} (h : ∀ i < 256, a i = b i) {i : ℕ} (hi : i < 256) :
    hat a i = hat b i :=
  forward_congr (e := 8) (by omega) h hi

theorem unhat_congr {a b : ℕ → ZMod 3329} (h : ∀ i < 256, a i = b i) {i : ℕ} (hi : i < 256) :
    unhat a i = unhat b i := by
  rw [unhat, unhat, backward_congr (e := 8) (by omega) h hi]

theorem hat_add (a b : ℕ → ZMod 3329) (i : ℕ) : hat (fun i => a i + b i) i = hat a i + hat b i :=
  forward_add zeta 8 7 a b i

theorem unhat_add (a b : ℕ → ZMod 3329) (i : ℕ) :
    unhat (fun i => a i + b i) i = unhat a i + unhat b i := by
  rw [unhat, backward_add, mul_add]
  rfl

/-! ## Products -/

/-- The product of pairs in the transform domain. -/
def pairMul (a b : ℕ → ZMod 3329) (k : ℕ) : ZMod 3329 :=
  if k % 2 = 0 then a k * b k + a (k + 1) * b (k + 1) * gamma (k / 2)
  else a (k - 1) * b k + a k * b (k - 1)

theorem cast_tmod (x : ℤ) : ((x.tmod q : ℤ) : ZMod 3329) = x := by
  have h := Int.mul_tdiv_add_tmod x q
  have hcast := congrArg (fun y : ℤ => (y : ZMod 3329)) h
  have hq : ((q : ℤ) : ZMod 3329) = 0 := rfl
  simpa [hq] using hcast

theorem coeffs_nttMul (a b : Poly) {k : ℕ} (hk : k < 256) :
    coeffs 3329 (nttMul a b) k = pairMul (coeffs 3329 a) (coeffs 3329 b) k := by
  rw [coeffs, getElem!_pos _ k hk, nttMul, Vector.getElem_ofFn]
  rcases Nat.mod_two_eq_zero_or_one k with hpar | hpar
  · have h2 : 2 * (k / 2) = k := by omega
    simp only [hpar, if_true, pairMul, h2]
    rw [cast_reduce, Int.cast_add, Int.cast_mul, Int.cast_mul, cast_tmod, Int.cast_mul]
    rfl
  · have h2 : 2 * (k / 2) = k - 1 := by omega
    have h3 : k - 1 + 1 = k := by omega
    simp only [hpar, one_ne_zero, if_false, pairMul, h2, h3]
    rw [cast_reduce, Int.cast_add, Int.cast_mul, Int.cast_mul]
    rfl

/-- The transform of a product modulo `X ^ 256 + 1` is the product of the transforms. -/
theorem hat_ringMul (a b : ℕ → ZMod 3329) {k : ℕ} (hk : k < 256) :
    hat (ringMul 256 (-1) a b) k = pairMul (hat a) (hat b) k := by
  have hblock : k / 2 < 2 ^ 7 := by omega
  have h := twiddles.forward_ringMul (e := 8) le_rfl (by omega) hblock
    (Nat.mod_lt k (by decide : 0 < 2 ^ (8 - 7))) a b
  have hidx : k / 2 * 2 ^ (8 - 7) + k % 2 ^ (8 - 7) = k := Nat.div_add_mod' k 2
  rw [hidx] at h
  have hpair : hat (ringMul 256 (-1) a b) k = ringMul 2 (blockRoot zeta 7 (k / 2))
      (fun j => hat a (k / 2 * 2 + j)) (fun j => hat b (k / 2 * 2 + j)) (k % 2) := h
  rw [hpair, ← gamma_eq_blockRoot hblock, pairMul]
  rcases Nat.mod_two_eq_zero_or_one k with hpar | hpar
  · have h2 : k / 2 * 2 = k := by omega
    rw [hpar, ringMul_two_zero, if_pos rfl, h2]
    ring_nf
  · have h2 : k / 2 * 2 = k - 1 := by omega
    have h3 : k - 1 + 1 = k := by omega
    rw [hpar, ringMul_two_one, if_neg (by decide), h2, h3, Nat.add_zero]

theorem unhat_pairMul_hat (a b : ℕ → ZMod 3329) {k : ℕ} (hk : k < 256) :
    unhat (pairMul (hat a) (hat b)) k = ringMul 256 (-1) a b k := by
  rw [← unhat_hat (ringMul 256 (-1) a b) hk]
  apply unhat_congr _ hk
  intro i hi
  exact (hat_ringMul a b hi).symm

/-! ## Vectors -/

theorem coeffs_polyAdd (a b : Poly) {i : ℕ} (hi : i < 256) :
    coeffs 3329 (polyAdd a b) i = coeffs 3329 a i + coeffs 3329 b i := by
  rw [coeffs, getElem!_pos _ i hi, polyAdd, Vector.getElem_ofFn, cast_reduce, Int.cast_add,
    coeffs_eq_getElem _ a hi, coeffs_eq_getElem _ b hi]

theorem coeffs_polySub (a b : Poly) {i : ℕ} (hi : i < 256) :
    coeffs 3329 (polySub a b) i = coeffs 3329 a i - coeffs 3329 b i := by
  rw [coeffs, getElem!_pos _ i hi, polySub, Vector.getElem_ofFn, cast_reduce, Int.cast_sub,
    coeffs_eq_getElem _ a hi, coeffs_eq_getElem _ b hi]

theorem coeffs_dot (x y : PolyVec) {i : ℕ} (hi : i < 256) :
    coeffs 3329 (dot x y) i = ∑ j, pairMul (coeffs 3329 (x j)) (coeffs 3329 (y j)) i := by
  have hlist : List.finRange 3 = [0, 1, 2] := by decide
  simp only [dot, hlist, List.foldl_cons, List.foldl_nil, coeffs_polyAdd _ _ hi,
    coeffs_nttMul _ _ hi, coeffs_zeroPoly, Fin.sum_univ_three]
  ring

/-- Both sides of the key agree on the product with the matrix: `(A s) r = s (Aᵀ r)`. -/
theorem sum_pairMul_comm (a : Fin 3 → Fin 3 → ℕ → ZMod 3329) (s r : Fin 3 → ℕ → ZMod 3329) (k : ℕ) :
    ∑ j, pairMul (fun i => ∑ l, pairMul (a j l) (s l) i) (r j) k =
      ∑ l, pairMul (s l) (fun i => ∑ j, pairMul (a j l) (r j) i) k := by
  rcases Nat.mod_two_eq_zero_or_one k with hpar | hpar
  · have h1 : (k + 1) % 2 = 1 := by omega
    have h2 : (k + 1) / 2 = k / 2 := by omega
    simp only [pairMul, hpar, h1, if_true, one_ne_zero, if_false, Fin.sum_univ_three,
      Nat.add_sub_cancel]
    ring
  · have h1 : (k - 1) % 2 = 0 := by omega
    have h2 : (k - 1) / 2 = k / 2 := by omega
    have h3 : k - 1 + 1 = k := by omega
    simp only [pairMul, hpar, h1, h2, h3, if_true, one_ne_zero, if_false, Fin.sum_univ_three]
    ring

theorem pairMul_add_left (a b c : ℕ → ZMod 3329) (k : ℕ) :
    pairMul (fun i => a i + b i) c k = pairMul a c k + pairMul b c k := by
  unfold pairMul
  split <;> ring

theorem pairMul_add_right (a b c : ℕ → ZMod 3329) (k : ℕ) :
    pairMul a (fun i => b i + c i) k = pairMul a b k + pairMul a c k := by
  unfold pairMul
  split <;> ring

/-- A product of pairs reads its factors below 256 only. -/
theorem pairMul_congr {a a' b b' : ℕ → ZMod 3329} (ha : ∀ i < 256, a i = a' i)
    (hb : ∀ i < 256, b i = b' i) {k : ℕ} (hk : k < 256) : pairMul a b k = pairMul a' b' k := by
  unfold pairMul
  split
  · rw [ha k hk, hb k hk, ha (k + 1) (by omega), hb (k + 1) (by omega)]
  · rw [ha k hk, hb k hk, ha (k - 1) (by omega), hb (k - 1) (by omega)]

/-! ## Representatives -/

theorem reduced_polyAdd (a b : Poly) : Reduced 3329 (polyAdd a b) :=
  reduced_ofFn fun _ => reduce_mem _

theorem reduced_polySub (a b : Poly) : Reduced 3329 (polySub a b) :=
  reduced_ofFn fun _ => reduce_mem _

theorem reduced_ntt (f : Poly) : Reduced 3329 (ntt f) := by
  have hstep : ∀ (k : ℕ) (lo hi : ℤ), (0 ≤ (nttStep zetas[k]! lo hi).1 ∧
      (nttStep zetas[k]! lo hi).1 < q) ∧ 0 ≤ (nttStep zetas[k]! lo hi).2 ∧
      (nttStep zetas[k]! lo hi).2 < q := by
    intro k lo hi
    exact ⟨reduce_mem _, reduce_mem _⟩
  have hlast : [128, 64, 32, 16, 8, 4, 2] = [128, 64, 32, 16, 8, 4] ++ [2] := rfl
  intro i hi
  rw [ntt, hlast, List.foldl_append, List.foldl_cons, List.foldl_nil]
  exact layerLoop_forall (P := fun x => 0 ≤ x ∧ x < q) (fun i => nttStep zetas[i]!) (· + 1) hstep _
    (by decide) (by decide) hi

end MlKem

end Ciphra
