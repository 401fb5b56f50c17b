import Ciphra.Foundations.Arrays
import Ciphra.Primitives.MlDsaCodec
import Ciphra.Primitives.MlDsaSampling

/-!
# Signatures verify

The keys survive their encodings. The verifier computes `A z - c t1 2 ^ 13`, which is
`w - c s2 + c t0` for the commitment `w` of the signer (`coeffs_approximation`); the bounds that a
signature has to meet keep the high bits of `w - c s2` those of `w`, and the hint takes the term
`c t0` away (`useHint_hintOf`). So the verifier hashes what the signer hashed
(`sign_verifies`).
-/

namespace Ciphra

namespace MlDsa

/-! ## Keys -/

theorem packT1_spec {p : Poly} (h : ∀ (i : ℕ) (hi : i < 256), 0 ≤ p[i] ∧ p[i] < 2 ^ 10) :
    (packT1 p).length = 320 ∧ unpackT1 (packT1 p) = some p := by
  have hword : ∀ (i : ℕ) (hi : i < 256), asU32 p[i] = p[i].toNat := fun i hi =>
    asU32_of_nonneg (h i hi).1 ((h i hi).2.trans (by decide))
  have hlt : ∀ (i : ℕ) (hi : i < 256), asU32 p[i] < 2 ^ 10 := by
    intro i hi
    rw [hword i hi, Int.toNat_lt (h i hi).1]
    exact (h i hi).2
  refine ⟨length_packBits hlt, ofVals_unpackBits hlt fun i hi => ?_⟩
  rw [hword i hi]
  exact Int.toNat_of_nonneg (h i hi).1

theorem length_encodeAll {n : ℕ} {pack : Poly → Bytes} {stride : ℕ} {v : Fin n → Poly}
    (h : ∀ i, (pack (v i)).length = stride) : (encodeAll pack v).length = n * stride := by
  rw [encodeAll, List.length_flatMap, List.map_congr_left fun i _ => h i]
  simp

/-- The public key survives its encoding. -/
theorem pkDecode_pkEncode {rho : Bytes} {t1 : VecK} (hrho : rho.length = 32)
    (h : ∀ (i : Fin 6) (j : ℕ) (hj : j < 256), 0 ≤ (t1 i)[j] ∧ (t1 i)[j] < 2 ^ 10) :
    (pkEncode rho t1).length = 1952 ∧ pkDecode (pkEncode rho t1) = some (rho, t1) := by
  have hlen : ∀ i, (packT1 (t1 i)).length = 320 := fun i => (packT1_spec (h i)).1
  refine ⟨by rw [pkEncode, List.length_append, hrho, length_encodeAll hlen], ?_⟩
  have hslice : slice (pkEncode rho t1) 0 32 = some rho := by
    have happ : slice (_ ++ rho ++ _) 0 32 = _ :=
      slice_append [] rho (encodeAll packT1 t1) rfl (by simp [hrho])
    rwa [List.nil_append] at happ
  have hall := decodeAll_encodeAll hlen (fun i => (packT1_spec (h i)).2) rho [] hrho.symm
  rw [List.append_nil] at hall
  rw [pkDecode, hslice, pkEncode, hall]
  rfl

/-- The fields of a secret key fit their places. -/
structure SecretKey.Fits (sk : SecretKey) : Prop where
  rho : sk.rho.length = 32
  kSeed : sk.kSeed.length = 32
  tr : sk.tr.length = 64
  s1 : ∀ j, Tiny (sk.s1 j)
  s2 : ∀ i, Tiny (sk.s2 i)
  t0 : ∀ i, Reduced Q (sk.t0 i) ∧ Within (2 ^ 12) 13 (sk.t0 i)

theorem Tiny.within {p : Poly} (h : Tiny p) : Within 4 4 p := by
  intro i hi
  have hc := abs_le.mp (h.2 i hi)
  rw [getElem!_pos p i hi] at hc
  omega

theorem Tiny.packEta {p : Poly} (h : Tiny p) :
    (packEta p).length = 128 ∧ unpackEta (packEta p) = some p :=
  ⟨length_packCentred (by decide) h.within, unpackCentred_packCentred (by decide) h.1 h.within⟩

/-- The secret key survives its encoding. -/
theorem skDecode_skEncode {sk : SecretKey} (h : sk.Fits) : skDecode (skEncode sk) = some sk := by
  have hs1 : ∀ j, (packEta (sk.s1 j)).length = 128 := fun j => (h.s1 j).packEta.1
  have hs2 : ∀ i, (packEta (sk.s2 i)).length = 128 := fun i => (h.s2 i).packEta.1
  have ht0 : ∀ i, (packT0 (sk.t0 i)).length = 416 := fun i =>
    length_packCentred (by decide) (h.t0 i).2
  have hround : ∀ i, unpackT0 (packT0 (sk.t0 i)) = some (sk.t0 i) := fun i =>
    unpackCentred_packCentred (by decide) (h.t0 i).1 (h.t0 i).2
  obtain ⟨e1, he1⟩ : ∃ e, e = encodeAll packEta sk.s1 := ⟨_, rfl⟩
  obtain ⟨e2, he2⟩ : ∃ e, e = encodeAll packEta sk.s2 := ⟨_, rfl⟩
  obtain ⟨e3, he3⟩ : ∃ e, e = encodeAll packT0 sk.t0 := ⟨_, rfl⟩
  have hl1 : e1.length = 640 := by rw [he1, length_encodeAll hs1]
  have hl2 : e2.length = 768 := by rw [he2, length_encodeAll hs2]
  have hsk : skEncode sk = sk.rho ++ sk.kSeed ++ sk.tr ++ e1 ++ e2 ++ e3 := by
    rw [skEncode, he1, he2, he3]
  have hrho : slice (skEncode sk) 0 32 = some sk.rho := by
    have happ : slice (_ ++ sk.rho ++ _) 0 32 = _ :=
      slice_append [] sk.rho (sk.kSeed ++ sk.tr ++ e1 ++ e2 ++ e3) rfl (by simp [h.rho])
    simpa only [hsk, List.nil_append, List.append_assoc] using happ
  have hkSeed : slice (skEncode sk) 32 64 = some sk.kSeed := by
    have happ : slice (_ ++ sk.kSeed ++ _) 32 64 = _ :=
      slice_append sk.rho sk.kSeed (sk.tr ++ e1 ++ e2 ++ e3) h.rho.symm (by rw [h.rho, h.kSeed])
    simpa only [hsk, List.append_assoc] using happ
  have htr : slice (skEncode sk) 64 128 = some sk.tr := by
    have happ : slice (_ ++ sk.tr ++ _) 64 128 = _ :=
      slice_append (sk.rho ++ sk.kSeed) sk.tr (e1 ++ e2 ++ e3)
      (by rw [List.length_append, h.rho, h.kSeed]) (by rw [List.length_append, h.rho, h.kSeed, h.tr])
    simpa only [hsk, List.append_assoc] using happ
  have hdec1 : decodeAll unpackEta 128 128 (skEncode sk) = some sk.s1 := by
    have hall : decodeAll unpackEta 128 128 _ = _ :=
      decodeAll_encodeAll hs1 (fun j => (h.s1 j).packEta.2) (sk.rho ++ sk.kSeed ++ sk.tr) (e2 ++ e3)
      (by simp only [List.length_append, h.rho, h.kSeed, h.tr])
    simpa only [hsk, ← he1, List.append_assoc] using hall
  have hdec2 : decodeAll unpackEta 128 768 (skEncode sk) = some sk.s2 := by
    have hall : decodeAll unpackEta 128 768 _ = _ :=
      decodeAll_encodeAll hs2 (fun i => (h.s2 i).packEta.2) (sk.rho ++ sk.kSeed ++ sk.tr ++ e1) e3
      (by simp only [List.length_append, h.rho, h.kSeed, h.tr, hl1])
    simpa only [hsk, ← he2, List.append_assoc] using hall
  have hdec3 : decodeAll unpackT0 416 1536 (skEncode sk) = some sk.t0 := by
    have hall : decodeAll unpackT0 416 1536 _ = _ :=
      decodeAll_encodeAll ht0 hround (sk.rho ++ sk.kSeed ++ sk.tr ++ e1 ++ e2) []
      (by simp only [List.length_append, h.rho, h.kSeed, h.tr, hl1, hl2])
    simpa only [hsk, ← he3, List.append_assoc, List.append_nil] using hall
  rw [skDecode, hrho, hkSeed, htr, hdec1, hdec2, hdec3]
  rfl

/-! ## The approximation -/

theorem unhat_sub (a b : ℕ → ZMod Q) (i : ℕ) :
    unhat (fun i => a i - b i) i = unhat a i - unhat b i := by
  have hneg : unhat (fun i => -1 * b i) i = -1 * unhat b i := by
    rw [unhat, unhat, backward_mul_left]
    ring
  have hadd := unhat_add a (fun i => -1 * b i) i
  rw [hneg] at hadd
  simp only [neg_mul, one_mul, ← sub_eq_add_neg] at hadd
  exact hadd

theorem coeffs_map (f : ℤ → ℤ) (p : Poly) {k : ℕ} (hk : k < 256) :
    coeffs Q (p.map f) k = (f p[k] : ℤ) := by
  rw [coeffs, getElem!_pos _ k hk, Vector.getElem_map]

/-- The high parts of a reduced polynomial, moved back up, are the polynomial without its low
parts. -/
theorem coeffs_high {t : Poly} (ht : Reduced Q t) {k : ℕ} (hk : k < 256) :
    coeffs Q ((t.map fun r => (power2round r).1).map fun x => mulMod x (2 ^ 13)) k =
      coeffs Q t k - coeffs Q (t.map fun r => (power2round r).2 % q) k := by
  have hmem := ht k hk
  rw [getElem!_pos t k hk] at hmem
  have hspec := congrArg (Int.cast (R := ZMod Q)) (power2round_spec hmem).1
  rw [Int.cast_add, Int.cast_mul] at hspec
  rw [coeffs_map _ _ hk, Vector.getElem_map, cast_mulMod, coeffs_map _ _ hk, cast_mod_q, coeffs,
    getElem!_pos t k hk, hspec, add_sub_cancel_right]

theorem coeffs_challenge (a p : Poly) {k : ℕ} (hk : k < 256) :
    coeffs Q (challengeMul (ntt a) (ntt p)) k =
      unhat (fun m => hat (coeffs Q a) m * hat (coeffs Q p) m) k := by
  rw [coeffs_challengeMul a p hk, unhat_mul_hat _ _ hk]

theorem hat_challenge (a p : Poly) {m : ℕ} (hm : m < 256) :
    hat (coeffs Q (challengeMul (ntt a) (ntt p))) m = hat (coeffs Q a) m * hat (coeffs Q p) m := by
  rw [hat_congr (fun k hk => coeffs_challenge a p hk) hm, hat_unhat _ hm]

theorem coeffs_rowMul_ntt (row x : VecL) {m : ℕ} (hm : m < 256) :
    coeffs Q (rowMul row fun j => ntt (x j)) m = ∑ j, coeffs Q (row j) m * hat (coeffs Q (x j)) m := by
  rw [coeffs_rowMul _ _ hm]
  exact Finset.sum_congr rfl fun j _ => by rw [coeffs_ntt _ hm]

section Approximation

variable (a : Fin 6 → VecL) (s1 : VecL) (s2 : VecK) (y : VecL) (c : Poly)

/-- `z = y + c s1`. -/
def response : VecL := fun j => polyAdd (y j) (challengeMul (ntt c) (ntt (s1 j)))

/-- The high parts of the key vector. -/
def highPart : VecK := fun i => (keyVector a s1 s2 i).map fun r => (power2round r).1

/-- The low parts of the key vector. -/
def lowPart : VecK := fun i => (keyVector a s1 s2 i).map fun r => (power2round r).2 % q

variable {a s1 s2 y c}

theorem reduced_keyVector (a : Fin 6 → VecL) (s1 : VecL) (hs2 : ∀ i, Reduced Q (s2 i)) (i : Fin 6) :
    Reduced Q (keyVector a s1 s2 i) :=
  reduced_polyAdd (reduced_invNtt _) (hs2 i)

theorem hat_response (j : Fin 5) {m : ℕ} (hm : m < 256) :
    hat (coeffs Q (response s1 y c j)) m =
      hat (coeffs Q (y j)) m + hat (coeffs Q c) m * hat (coeffs Q (s1 j)) m := by
  have hsum : ∀ k < 256, coeffs Q (response s1 y c j) k =
      coeffs Q (y j) k + coeffs Q (challengeMul (ntt c) (ntt (s1 j))) k := fun k hk =>
    coeffs_polyAdd _ _ hk
  rw [hat_congr hsum hm, hat_add, hat_challenge _ _ hm]

theorem hat_keyVector (i : Fin 6) {m : ℕ} (hm : m < 256) :
    hat (coeffs Q (keyVector a s1 s2 i)) m =
      ∑ j, coeffs Q (a i j) m * hat (coeffs Q (s1 j)) m + hat (coeffs Q (s2 i)) m := by
  have hsum : ∀ k < 256, coeffs Q (keyVector a s1 s2 i) k =
      unhat (coeffs Q (rowMul (a i) fun j => ntt (s1 j))) k + coeffs Q (s2 i) k := by
    intro k hk
    rw [keyVector, coeffs_polyAdd _ _ hk, coeffs_invNtt _ hk]
  rw [hat_congr hsum hm, hat_add, hat_unhat _ hm, coeffs_rowMul_ntt _ _ hm]

/-- What the verifier computes is `w - c s2 + c t0`. -/
theorem coeffs_approximation (hs2 : ∀ i, Reduced Q (s2 i)) (i : Fin 6) {k : ℕ} (hk : k < 256) :
    coeffs Q (approximation a (response s1 y c) (ntt c) (highPart a s1 s2) i) k =
      coeffs Q (commitment a y i) k - coeffs Q (challengeMul (ntt c) (ntt (s2 i))) k +
        coeffs Q (challengeMul (ntt c) (ntt (lowPart a s1 s2 i))) k := by
  have hinner : ∀ m < 256,
      coeffs Q (polySub (rowMul (a i) fun j => ntt (response s1 y c j)) (polyPointwise (ntt c)
        (ntt ((highPart a s1 s2 i).map fun x => mulMod x (2 ^ 13))))) m =
      (∑ j, coeffs Q (a i j) m * hat (coeffs Q (y j)) m -
        hat (coeffs Q c) m * hat (coeffs Q (s2 i)) m) +
        hat (coeffs Q c) m * hat (coeffs Q (lowPart a s1 s2 i)) m := by
    intro m hm
    have hhigh : hat (coeffs Q ((highPart a s1 s2 i).map fun x => mulMod x (2 ^ 13))) m =
        hat (coeffs Q (keyVector a s1 s2 i)) m - hat (coeffs Q (lowPart a s1 s2 i)) m := by
      have hdiff : ∀ k < 256, coeffs Q ((highPart a s1 s2 i).map fun x => mulMod x (2 ^ 13)) k =
          coeffs Q (keyVector a s1 s2 i) k - coeffs Q (lowPart a s1 s2 i) k := fun k hk =>
        coeffs_high (reduced_keyVector _ _ hs2 i) hk
      rw [hat_congr hdiff hm, hat_sub]
    have hz : ∑ j, coeffs Q (a i j) m * hat (coeffs Q (response s1 y c j)) m =
        ∑ j, coeffs Q (a i j) m * hat (coeffs Q (y j)) m +
          hat (coeffs Q c) m * ∑ j, coeffs Q (a i j) m * hat (coeffs Q (s1 j)) m := by
      rw [Finset.mul_sum, ← Finset.sum_add_distrib]
      refine Finset.sum_congr rfl fun j _ => ?_
      rw [hat_response j hm]
      ring
    rw [coeffs_polySub _ _ hm, coeffs_polyPointwise _ _ hm, coeffs_rowMul_ntt _ _ hm,
      coeffs_ntt _ hm, coeffs_ntt _ hm, hz, hhigh, hat_keyVector i hm]
    ring
  rw [approximation, coeffs_invNtt _ hk, unhat_congr hinner hk,
    unhat_add (fun m => ∑ j, coeffs Q (a i j) m * hat (coeffs Q (y j)) m -
      hat (coeffs Q c) m * hat (coeffs Q (s2 i)) m), unhat_sub, coeffs_challenge _ _ hk,
    coeffs_challenge _ _ hk, commitment, coeffs_invNtt _ hk,
    unhat_congr (fun m hm => coeffs_rowMul_ntt (a i) y hm) hk]

end Approximation

/-! ## High bits -/

theorem center_neg {x : ℤ} (hx : 0 ≤ x ∧ x < q) : |center (subMod 0 x)| = |center x| := by
  have hneg : center (subMod 0 x) = -center x := by
    unfold subMod center
    unfold q at hx ⊢
    split <;> split <;> split <;> omega
  rw [hneg, abs_neg]

/-- The hint gives the verifier the high bits of the commitment. -/
theorem useHint_hintOf {w c2 c0 : ℤ} (hw : 0 ≤ w ∧ w < q) (h2 : 0 ≤ c2 ∧ c2 < q)
    (h0 : 0 ≤ c0 ∧ c0 < q) (hsmall2 : |center c2| ≤ beta) (hsmall0 : |center c0| < gamma2)
    (hlow : |lowBitsOf (subMod w c2)| < gamma2 - beta) :
    useHint (makeHint (subMod 0 c0) (addMod (subMod w c2) c0)) (addMod (subMod w c2) c0) =
      highBits w := by
  have hd := subMod_mem hw h2
  have hz : 0 ≤ subMod 0 c0 ∧ subMod 0 c0 < q := subMod_mem ⟨le_rfl, by decide⟩ h0
  have hback : addMod (addMod (subMod w c2) c0) (subMod 0 c0) = subMod w c2 := by
    refine eq_of_cast_eq (q := Q) (addMod_mem (addMod_mem hd h0) hz) hd ?_
    rw [cast_addMod, cast_addMod, cast_subMod, cast_subMod, Int.cast_zero]
    ring
  have hsum : w = addMod (subMod w c2) c2 := by
    refine eq_of_cast_eq (q := Q) hw (addMod_mem hd h2) ?_
    rw [cast_addMod, cast_subMod]
    ring
  rw [useHint_makeHint hz (addMod_mem hd h0) (by rw [center_neg h0]; exact hsmall0.le), hback,
    highBits_of_small hd h2 hsum hsmall2 hlow]

/-- The bounds that a signature has to meet. -/
structure Accepted (a : Fin 6 → VecL) (sk : SecretKey) (y : VecL) (c : Poly) : Prop where
  bound : ∀ j (k : Fin 256), |center ((response sk.s1 y c j).get k)| < gamma1 - beta
  low : ∀ i (k : Fin 256),
    |((polySub (commitment a y i) (challengeMul (ntt c) (ntt (sk.s2 i)))).map lowBitsOf).get k| <
      gamma2 - beta
  small : ∀ i (k : Fin 256), |center ((challengeMul (ntt c) (ntt (sk.t0 i))).get k)| < gamma2

/-- The hint of a signature. -/
def signatureHint (a : Fin 6 → VecL) (sk : SecretKey) (y : VecL) (c : Poly) : VecK :=
  hintOf (commitment a y) (fun i => challengeMul (ntt c) (ntt (sk.s2 i)))
    fun i => challengeMul (ntt c) (ntt (sk.t0 i))

theorem binary_signatureHint (a : Fin 6 → VecL) (sk : SecretKey) (y : VecL) (c : Poly)
    (i : Fin 6) : Binary (signatureHint a sk y c i) := by
  intro j hj
  rw [getElem!_pos _ j hj, signatureHint, hintOf, Vector.getElem_ofFn]
  split
  · exact Or.inr rfl
  · exact Or.inl rfl

/-- A successful try: the commitment it hashed, its challenge, and the bounds. -/
theorem attempt_eq_some {S : Sponge} {fuel : ℕ} {a : Fin 6 → VecL} {sk : SecretKey}
    {mu rhoPP : Bytes} {kappa : UInt16} {sig : Bytes}
    (h : attempt S fuel a sk mu rhoPP kappa = some (some sig)) :
    ∃ y c cTilde, cTilde = MlDsa.h S [mu, w1Encode fun i => (commitment a y i).map highBits] 48 ∧
      (∀ j, Reduced Q (y j)) ∧ sampleInBall S fuel cTilde = some c ∧ Accepted a sk y c ∧
      ones (signatureHint a sk y c) ≤ omega ∧
      sig = sigEncode cTilde (response sk.s1 y c) (signatureHint a sk y c) := by
  unfold attempt at h
  simp only [Option.bind_eq_bind, Option.bind_eq_some_iff] at h
  obtain ⟨y, hy, c, hc, h⟩ := h
  split at h
  · cases h
  next hbounds =>
  split at h
  · cases h
  next hhints =>
  simp only [ge_iff_le, gt_iff_lt, not_or, not_le, not_lt] at hbounds hhints
  refine ⟨y, c, _, rfl, fun j => reduced_expandMaskPoly (gather_eq_some.mp hy j), hc, ⟨?_, ?_, ?_⟩,
    hhints.2, (Option.some.inj (Option.some.inj h)).symm⟩
  · intro j
    exact (normInf_lt (by decide)).mp ((maxNorm_lt (by decide)).mp hbounds.1 j)
  · intro i
    exact (infinityLow_lt (by decide)).mp ((maxNorm_lt (by decide)).mp hbounds.2 i)
  · intro i
    exact (normInf_lt (by decide)).mp ((maxNorm_lt (by decide)).mp hhints.1 i)

theorem attempt_of_accepted {S : Sponge} {fuel : ℕ} {a : Fin 6 → VecL} {sk : SecretKey}
    {mu rhoPP : Bytes} {kappa : UInt16} {y : VecL} {c : Poly}
    (hy : (gather fun r : Fin 5 => expandMaskPoly S rhoPP (kappa + UInt16.ofNat r)) = some y)
    (hc : sampleInBall S fuel (MlDsa.h S [mu, w1Encode fun i => (commitment a y i).map highBits] 48) =
      some c)
    (hacc : Accepted a sk y c) (hones : ones (signatureHint a sk y c) ≤ omega) :
    attempt S fuel a sk mu rhoPP kappa = some (some (sigEncode
      (MlDsa.h S [mu, w1Encode fun i => (commitment a y i).map highBits] 48) (response sk.s1 y c)
      (signatureHint a sk y c))) := by
  have hz : maxNorm normInf (response sk.s1 y c) < gamma1 - beta :=
    (maxNorm_lt (by decide)).mpr fun j => (normInf_lt (by decide)).mpr (hacc.bound j)
  have hlow : maxNorm infinityLow (fun i => (polySub (commitment a y i)
      (challengeMul (ntt c) (ntt (sk.s2 i)))).map lowBitsOf) < gamma2 - beta :=
    (maxNorm_lt (by decide)).mpr fun i => (infinityLow_lt (by decide)).mpr (hacc.low i)
  have hsmall : maxNorm normInf (fun i => challengeMul (ntt c) (ntt (sk.t0 i))) < gamma2 :=
    (maxNorm_lt (by decide)).mpr fun i => (normInf_lt (by decide)).mpr (hacc.small i)
  unfold attempt
  rw [hy, Option.bind_eq_bind, Option.bind_some]
  simp only [hc, Option.bind_eq_bind, Option.bind_some]
  refine (if_neg ?_).trans (if_neg ?_)
  · exact not_or.mpr ⟨not_le.mpr hz, not_le.mpr hlow⟩
  · exact not_or.mpr ⟨not_le.mpr hsmall, not_lt.mpr hones⟩

theorem reduced_response {s1 y : VecL} {c : Poly} (hy : ∀ j, Reduced Q (y j)) (j : Fin 5) :
    Reduced Q (response s1 y c j) :=
  reduced_polyAdd (hy j) (reduced_invNtt _)

theorem length_h (S : Sponge) (parts : List Bytes) (n : ℕ) : (h S parts n).length = n :=
  (squeeze (S.shake256 parts.flatten) 0 n).2

/-- A signature that was accepted can be encoded. -/
theorem Accepted.encodable {a : Fin 6 → VecL} {sk : SecretKey} {y : VecL} {c : Poly}
    (h : Accepted a sk y c) (hy : ∀ j, Reduced Q (y j))
    (hones : ones (signatureHint a sk y c) ≤ omega) {cTilde : Bytes} (hlen : cTilde.length = 48) :
    Encodable cTilde (response sk.s1 y c) (signatureHint a sk y c) := by
  refine ⟨hlen, reduced_response hy, fun j k hk => ?_, binary_signatureHint a sk y c, hones⟩
  have hbeta : 0 < beta := by decide
  obtain ⟨hlo, hhi⟩ := abs_lt.mp (h.bound j ⟨k, hk⟩)
  change -(gamma1 - beta) < center (response sk.s1 y c j)[k] at hlo
  change center (response sk.s1 y c j)[k] < gamma1 - beta at hhi
  exact ⟨by linarith only [hlo, hbeta], by linarith only [hhi, hbeta]⟩

section Verification

variable {a : Fin 6 → VecL} {s1 : VecL} {s2 : VecK} {y : VecL} {c : Poly}

/-- What the verifier computes, as reduced polynomials. -/
theorem approximation_eq (hs2 : ∀ i, Reduced Q (s2 i)) (i : Fin 6) :
    approximation a (response s1 y c) (ntt c) (highPart a s1 s2) i =
      polyAdd (polySub (commitment a y i) (challengeMul (ntt c) (ntt (s2 i))))
        (challengeMul (ntt c) (ntt (lowPart a s1 s2 i))) := by
  have hright : Reduced Q (polyAdd (polySub (commitment a y i)
      (challengeMul (ntt c) (ntt (s2 i)))) (challengeMul (ntt c) (ntt (lowPart a s1 s2 i)))) :=
    reduced_polyAdd (reduced_polySub (reduced_invNtt _) (reduced_invNtt _)) (reduced_invNtt _)
  refine (reduced_invNtt _).ext hright fun k hk => ?_
  rw [coeffs_polyAdd _ _ hk, coeffs_polySub _ _ hk]
  exact coeffs_approximation hs2 i hk

/-- The verifier's high bits are those of the commitment. -/
theorem corrected_eq {sk : SecretKey} (hs2 : sk.s2 = s2)
    (ht0 : sk.t0 = lowPart a s1 s2) (htiny : ∀ i, Tiny (s2 i)) (hc : norm1 c ≤ 49)
    (h : Accepted a sk y c) :
    (fun i => Vector.ofFn fun j : Fin 256 => useHint ((signatureHint a sk y c i)[j] != 0)
      (approximation a (response s1 y c) (ntt c) (highPart a s1 s2) i)[j]) =
      fun i => (commitment a y i).map highBits := by
  funext i
  refine Vector.ext fun j hj => ?_
  have hmem : ∀ x : Poly, Reduced Q x → 0 ≤ x[j] ∧ x[j] < q := by
    intro x hx
    have hxj := hx j hj
    rwa [getElem!_pos x j hj] at hxj
  obtain ⟨w, hw⟩ : ∃ w, w = commitment a y i := ⟨_, rfl⟩
  obtain ⟨c2, hc2⟩ : ∃ c2, c2 = challengeMul (ntt c) (ntt (s2 i)) := ⟨_, rfl⟩
  obtain ⟨c0, hc0⟩ : ∃ c0, c0 = challengeMul (ntt c) (ntt (lowPart a s1 s2 i)) := ⟨_, rfl⟩
  have hwr : 0 ≤ w[j] ∧ w[j] < q := hmem w (hw ▸ reduced_invNtt _)
  have h2r : 0 ≤ c2[j] ∧ c2[j] < q := hmem c2 (hc2 ▸ reduced_invNtt _)
  have h0r : 0 ≤ c0[j] ∧ c0[j] < q := hmem c0 (hc0 ▸ reduced_invNtt _)
  have hsmall2 : |center c2[j]| ≤ beta := by
    have hbound := center_challengeMul hc (htiny i).2 (by decide) (by decide) hj
    rwa [← hc2, getElem!_pos c2 j hj] at hbound
  have hsmall0 : |center c0[j]| < gamma2 := by
    have hbound := h.small i ⟨j, hj⟩
    rw [ht0, ← hc0] at hbound
    exact hbound
  have hlow : |lowBitsOf (subMod w[j] c2[j])| < gamma2 - beta := by
    have hbound := h.low i ⟨j, hj⟩
    rw [hs2, ← hc2, ← hw] at hbound
    have hget : ((polySub w c2).map lowBitsOf)[j] = lowBitsOf (subMod w[j] c2[j]) := by
      rw [Vector.getElem_map, polySub, Vector.getElem_ofFn]
      rfl
    exact hget ▸ hbound
  have happrox : (approximation a (response s1 y c) (ntt c) (highPart a s1 s2) i)[j] =
      addMod (subMod w[j] c2[j]) c0[j] := by
    rw [approximation_eq (fun i => (htiny i).1) i, ← hw, ← hc2, ← hc0, polyAdd,
      Vector.getElem_ofFn]
    change addMod (polySub w c2)[j] c0[j] = _
    rw [polySub, Vector.getElem_ofFn]
    rfl
  have hhint : ((signatureHint a sk y c i)[j] != 0) =
      makeHint (subMod 0 c0[j]) (addMod (subMod w[j] c2[j]) c0[j]) := by
    rw [signatureHint, hintOf, Vector.getElem_ofFn, hs2, ht0]
    simp only [Fin.getElem_fin, ← hw, ← hc2, ← hc0]
    cases makeHint (subMod 0 c0[j]) (addMod (subMod w[j] c2[j]) c0[j]) <;> rfl
  rw [Vector.getElem_ofFn, Vector.getElem_map, ← hw]
  change useHint ((signatureHint a sk y c i)[j] != 0)
    (approximation a (response s1 y c) (ntt c) (highPart a s1 s2) i)[j] = highBits w[j]
  rw [hhint, happrox]
  exact useHint_hintOf hwr h2r h0r hsmall2 hsmall0 hlow

end Verification

/-! ## Keys from a seed -/

/-- What key generation expands a seed to. -/
def expandedSeed (S : Sponge) (seed : ByteArr 32) : Bytes := h S [seed.1, [6], [5]] 128

/-- The secret key of the sampled matrix and vectors. -/
def secretKeyOf (S : Sponge) (seed : ByteArr 32) (a : Fin 6 → VecL) (s1 : VecL) (s2 : VecK) :
    SecretKey where
  rho := (expandedSeed S seed).take 32
  kSeed := ((expandedSeed S seed).drop 96).take 32
  tr := h S [pkEncode ((expandedSeed S seed).take 32) (highPart a s1 s2)] 64
  s1 := s1
  s2 := s2
  t0 := lowPart a s1 s2

theorem keypairFromSeed_eq_some {S : Sponge} {fuel : ℕ} {seed : ByteArr 32} {pk sk : Bytes} :
    keypairFromSeed S fuel seed = some (pk, sk) ↔
      ∃ a s1 s2, expandA S fuel ((expandedSeed S seed).take 32) = some a ∧
        expandS S fuel (((expandedSeed S seed).drop 32).take 64) = some (s1, s2) ∧
        pk = pkEncode ((expandedSeed S seed).take 32) (highPart a s1 s2) ∧
        sk = skEncode (secretKeyOf S seed a s1 s2) := by
  simp only [keypairFromSeed, Option.bind_eq_bind, Option.bind_eq_some_iff, Option.pure_def,
    Option.some.injEq, Prod.exists, Prod.mk.injEq]
  constructor
  · rintro ⟨a, ha, s1, s2, hs, hpk, hsk⟩
    exact ⟨a, s1, s2, ha, hs, hpk.symm, hsk.symm⟩
  · rintro ⟨a, s1, s2, ha, hs, hpk, hsk⟩
    exact ⟨a, ha, s1, s2, hs, hpk.symm, hsk.symm⟩

theorem highPart_mem (a : Fin 6 → VecL) (s1 : VecL) {s2 : VecK} (hs2 : ∀ i, Tiny (s2 i)) (i : Fin 6)
    (j : ℕ) (hj : j < 256) : 0 ≤ (highPart a s1 s2 i)[j] ∧ (highPart a s1 s2 i)[j] < 2 ^ 10 := by
  have hmem := reduced_keyVector a s1 (fun i => (hs2 i).1) i j hj
  rw [getElem!_pos _ j hj] at hmem
  rw [highPart, Vector.getElem_map]
  exact (power2round_spec hmem).2.1

theorem lowPart_mem (a : Fin 6 → VecL) (s1 : VecL) {s2 : VecK} (hs2 : ∀ i, Tiny (s2 i)) (i : Fin 6) :
    Reduced Q (lowPart a s1 s2 i) ∧ Within (2 ^ 12) 13 (lowPart a s1 s2 i) := by
  constructor
  · intro j hj
    rw [getElem!_pos _ j hj, lowPart, Vector.getElem_map]
    exact mod_mem _
  · intro j hj
    have hmem := reduced_keyVector a s1 (fun i => (hs2 i).1) i j hj
    rw [getElem!_pos _ j hj] at hmem
    obtain ⟨-, -, hlo, hhi⟩ := power2round_spec hmem
    rw [lowPart, Vector.getElem_map, center_mod (abs_le.mpr ⟨by omega, by omega⟩)]
    omega

theorem fits_secretKeyOf (S : Sponge) (seed : ByteArr 32) (a : Fin 6 → VecL) {s1 : VecL}
    {s2 : VecK} (hs1 : ∀ j, Tiny (s1 j)) (hs2 : ∀ i, Tiny (s2 i)) :
    (secretKeyOf S seed a s1 s2).Fits := by
  have hlen : (expandedSeed S seed).length = 128 := length_h S _ _
  refine ⟨?_, ?_, length_h S _ _, hs1, hs2, lowPart_mem a s1 hs2⟩
  · rw [secretKeyOf, List.length_take, hlen]
    rfl
  · rw [secretKeyOf, List.length_take, List.length_drop, hlen]
    rfl

/-! ## Signing and verifying -/

/-- A signature is what some try returned. -/
theorem signLoop_eq_some {S : Sponge} {fuel : ℕ} {a : Fin 6 → VecL} {sk : SecretKey}
    {mu rhoPP : Bytes} {tries : ℕ} {kappa : UInt16} {sig : Bytes}
    (hloop : signLoop S fuel a sk mu rhoPP tries kappa = some sig) :
    ∃ kappa', attempt S fuel a sk mu rhoPP kappa' = some (some sig) := by
  induction tries generalizing kappa with
  | zero => cases hloop
  | succ tries ih =>
    rw [signLoop] at hloop
    obtain ⟨result, htry, hrest⟩ := Option.bind_eq_some_iff.mp hloop
    cases result with
    | some sig' =>
      obtain rfl := Option.some.inj hrest
      exact ⟨kappa, htry⟩
    | none => exact ih hrest

/-- A signature that encodes is verified by its hash. -/
theorem verify_sigEncode {S : Sponge} {fuel : ℕ} {rho : Bytes} {t1 : VecK} {a : Fin 6 → VecL}
    {cTilde : Bytes} {z : VecL} {hint : VecK} {c : Poly} (message : Bytes) (hrho : rho.length = 32)
    (ht1 : ∀ (i : Fin 6) (j : ℕ) (hj : j < 256), 0 ≤ (t1 i)[j] ∧ (t1 i)[j] < 2 ^ 10)
    (ha : expandA S fuel rho = some a) (henc : Encodable cTilde z hint)
    (hz : maxNorm normInf z < gamma1 - beta) (hc : sampleInBall S fuel cTilde = some c) :
    verify S fuel (pkEncode rho t1) message (sigEncode cTilde z hint) =
      some (h S [messageHash S (h S [pkEncode rho t1] 64) message,
        w1Encode fun i => Vector.ofFn fun j => useHint ((hint i)[j] != 0)
          (approximation a z (ntt c) t1 i)[j]] 48 == cTilde) := by
  obtain ⟨hpklen, hpk⟩ := pkDecode_pkEncode hrho ht1
  have hsiglen := (length_sigEncode henc).2
  have hsig := (sigDecode_eq_some_iff hsiglen).mpr ⟨henc, rfl⟩
  rw [verify, if_neg (by rw [hpklen, hsiglen]; decide), hpk]
  simp only [Option.bind_eq_bind, Option.bind_some, hsig, if_neg (not_le.mpr hz), ha, hc,
    Option.pure_def, ge_iff_le]

/-- What a key pair signs, it verifies, also when more squeezes are allowed. On the way the encoded
secret key decodes to the key generated, the signature to the response, whose hint restores the high
bits of the commitment, and products by the transform are negacyclic. -/
theorem sign_verifies (S : Sponge) {fuel fuel' tries : ℕ} {seed : ByteArr 32}
    {pk sk message sig : Bytes} (hkeys : keypairFromSeed S fuel seed = some (pk, sk))
    (hsign : sign S fuel tries sk message = some sig) (hle : fuel ≤ fuel') :
    verify S fuel' pk message sig = some true ∧
      (∃ (a : Fin 6 → VecL) (s1 : VecL) (s2 : VecK), keypairFromSeed S fuel seed =
          some (pk, skEncode (secretKeyOf S seed a s1 s2)) ∧
        skDecode sk = some (secretKeyOf S seed a s1 s2) ∧
        ∃ (y : VecL) (c : Poly) (cTilde : Bytes) (hint : VecK),
          sampleInBall S fuel cTilde = some c ∧
          sigDecode sig = some (some (cTilde, response s1 y c, hint)) ∧
          (fun i => Vector.ofFn fun j : Fin 256 => useHint ((hint i)[j] != 0)
            (approximation a (response s1 y c) (ntt c) (highPart a s1 s2) i)[j]) =
              fun i => (commitment a y i).map highBits) ∧
      ∀ (c p : Poly) (i : ℕ), i < 256 → coeffs Q (invNtt (polyPointwise (ntt c) (ntt p))) i =
        ringMul 256 (-1) (coeffs Q c) (coeffs Q p) i := by
  obtain ⟨a, s1, s2, ha, hs, rfl, rfl⟩ := keypairFromSeed_eq_some.mp hkeys
  obtain ⟨hs1, hs2⟩ := tiny_expandS hs
  have hfits := fits_secretKeyOf S seed a hs1 hs2
  have hdecode := skDecode_skEncode hfits
  rw [sign, hdecode, Option.bind_eq_bind, Option.bind_some] at hsign
  obtain ⟨a', ha', hloop⟩ := Option.bind_eq_some_iff.mp hsign
  obtain rfl : a = a' := Option.some.inj (ha.symm.trans ha')
  obtain ⟨kappa, htry⟩ := signLoop_eq_some hloop
  obtain ⟨y, c, cTilde, hchal, hy, hc, hacc, hones, rfl⟩ := attempt_eq_some htry
  have hlen : cTilde.length = 48 := hchal ▸ length_h S _ _
  have hpos : 0 < gamma1 - beta := by decide
  have hz : maxNorm normInf (response s1 y c) < gamma1 - beta :=
    (maxNorm_lt hpos).mpr fun j => (normInf_lt hpos).mpr (hacc.bound j)
  have hrho : ((expandedSeed S seed).take 32).length = 32 := hfits.rho
  have henc : Encodable cTilde (response s1 y c)
      (signatureHint a (secretKeyOf S seed a s1 s2) y c) := hacc.encodable hy hones hlen
  have hsig := (sigDecode_eq_some_iff (length_sigEncode henc).2).mpr ⟨henc, rfl⟩
  have hhash : h S [messageHash S (h S [pkEncode ((expandedSeed S seed).take 32)
      (highPart a s1 s2)] 64) message, w1Encode fun i => (commitment a y i).map highBits] 48 =
      cTilde := hchal.symm
  have hverify := verify_sigEncode message hrho (highPart_mem a s1 hs2)
    (expandA_mono S hle ha) henc hz (sampleInBall_mono S hle hc)
  have hs2eq : (secretKeyOf S seed a s1 s2).s2 = s2 := rfl
  have hrestored := corrected_eq hs2eq rfl hs2 (norm1_sampleInBall hc) hacc
  rw [hrestored, hhash, beq_self_eq_true] at hverify
  exact ⟨hverify, ⟨a, s1, s2, hkeys, hdecode, y, c, cTilde, _, hc, hsig, hrestored⟩,
    fun c p i hi => coeffs_challengeMul c p hi⟩

/-! ## A concrete signature -/

/-- A matrix and secrets of ones, and masks of one coefficient. -/
def flatSponge : Sponge where
  sha3_256 _ := ByteArr.zeros 32
  sha3_512 _ := ByteArr.zeros 64
  shake128 _ pos := if pos % 3 = 0 then 1 else 0
  shake256 _ _ := 0x33

/-- The first `n` coefficients are `v`. -/
def flatTo (v : ℤ) (n : ℕ) : Poly := Vector.ofFn fun i => if i.1 < n then v else 0

/-- All coefficients are `v`. -/
def flat (v : ℤ) : Poly := flatTo v 256

theorem get_flat (v : ℤ) (k : Fin 256) : (flat v).get k = v := by
  rw [flat, flatTo, get_ofFn, if_pos k.2]

theorem getElem_flat (v : ℤ) {k : ℕ} (hk : k < 256) : (flat v)[k] = v := get_flat v ⟨k, hk⟩

theorem coeffs_flat (v : ℤ) {k : ℕ} (hk : k < 256) : coeffs Q (flat v) k = v := by
  rw [coeffs_eq_getElem _ _ hk, get_flat]

theorem reduced_flat {v : ℤ} (hv : 0 ≤ v ∧ v < Q) : Reduced Q (flat v) := by
  intro k hk
  rw [getElem!_pos _ k hk, getElem_flat v hk]
  exact hv

theorem eq_flat {p : Poly} (hp : Reduced Q p) {v : ℤ} (hv : 0 ≤ v ∧ v < Q)
    (h : ∀ k < 256, coeffs Q p k = v) : p = flat v :=
  hp.ext (reduced_flat hv) fun k hk => by rw [h k hk, coeffs_flat _ hk]

/-! The sampling loops write one coefficient after the other. -/

theorem flatTo_zero (v : ℤ) : flatTo v 0 = zeroPoly := by
  apply Vector.ext
  intro i hi
  rw [flatTo, Vector.getElem_ofFn, if_neg (by omega), zeroPoly, Vector.getElem_replicate]

theorem set!_flatTo (v : ℤ) (n : ℕ) : (flatTo v n).set! n v = flatTo v (n + 1) := by
  apply Vector.ext
  intro i hi
  by_cases hni : n = i
  · subst hni
    simp [flatTo]
  · have hlt : i < n + 1 ↔ i < n := by omega
    refine (Vector.getElem_setIfInBounds_ne hi hni).trans ?_
    simp only [flatTo, Vector.getElem_ofFn, hlt]

theorem rejNttLoop_flat {fuel pos ctr : ℕ} (hpos : pos % 3 = 0) (hctr : ctr ≤ 256)
    (h : 256 ≤ ctr + fuel) : rejNttLoop (fun pos => if pos % 3 = 0 then 1 else 0) fuel pos
      (flatTo 1 ctr) ctr = some (flat 1) := by
  induction fuel generalizing pos ctr with
  | zero =>
    obtain rfl : ctr = 256 := by omega
    rfl
  | succ fuel ih =>
    rw [rejNttLoop]
    split
    · next hlt =>
      have hone : (((1 : UInt8).toNat ||| (0 : UInt8).toNat <<< 8 |||
          ((0 : UInt8).toNat &&& 0x7f) <<< 16 : ℕ) : ℤ) = 1 := rfl
      have hq : (1 : ℤ) < q := by decide
      have h1 : (pos + 1) % 3 ≠ 0 := by omega
      have h2 : (pos + 2) % 3 ≠ 0 := by omega
      simp only [h1, h2, if_true, if_false, hone, hq, set!_flatTo]
      exact ih (by omega) (by omega) (by omega)
    · obtain rfl : ctr = 256 := by omega
      rfl

theorem takeNibble_flat {ctr : ℕ} (hctr : ctr < 256) :
    takeNibble (flatTo 1 ctr, ctr) 3 = (flatTo 1 (ctr + 1), ctr + 1) := by
  have hvalue : ((4 - (3 : ℕ) : ℤ) % q) = 1 := by decide
  rw [takeNibble, if_pos ⟨by decide, hctr⟩, hvalue, set!_flatTo]

theorem rejBoundedLoop_flat {fuel pos ctr : ℕ} (heven : ctr % 2 = 0) (hctr : ctr ≤ 256)
    (h : 256 ≤ ctr + 2 * fuel) :
    rejBoundedLoop (fun _ => 0x33) fuel pos (flatTo 1 ctr) ctr = some (flat 1) := by
  induction fuel generalizing pos ctr with
  | zero =>
    obtain rfl : ctr = 256 := by omega
    rfl
  | succ fuel ih =>
    rw [rejBoundedLoop]
    split
    · next hlt =>
      have hlo : (0x33 : UInt8).toNat &&& 0x0f = 3 := rfl
      have hhi : (0x33 : UInt8).toNat >>> 4 = 3 := rfl
      simp only [hlo, hhi, takeNibble_flat hlt, takeNibble_flat (show ctr + 1 < 256 by omega)]
      exact ih (by omega) (by omega) (by omega)
    · obtain rfl : ctr = 256 := by omega
      rfl

theorem expandMaskPoly_flat (rhoPP : Bytes) (nonce : UInt16) :
    expandMaskPoly flatSponge rhoPP nonce = some (flat 314573) := by
  have hbits : unpackBits (squeeze (fun _ => 0x33) 0 640).1 20 256 =
      some (List.replicate 256 209715) := by decide +kernel
  have hmask : ofVals (fun v => subMod (gamma1 % q) (v % q)) (List.replicate 256 209715) =
      flat 314573 := by
    apply Vector.ext
    intro k hk
    have hget : (List.replicate 256 209715).getD k 0 = 209715 := by
      rw [List.getD_eq_getElem _ _ (by rwa [List.length_replicate]), List.getElem_replicate]
    rw [getElem_ofVals hk, hget, getElem_flat _ hk]
    decide
  refine (congrArg (Option.map (ofVals fun v => subMod (gamma1 % q) (v % q))) hbits).trans ?_
  rw [Option.map_some, hmask]

theorem sampleInBall_flat (seed : Bytes) : ∃ c, sampleInBall flatSponge 256 seed = some c := by
  have hsome : (sampleInBall flatSponge 1 []).isSome = true := by decide +kernel
  obtain ⟨c, hc⟩ := Option.isSome_iff_exists.mp hsome
  have hle : 1 ≤ 256 := by decide
  exact ⟨c, sampleInBall_mono flatSponge hle hc⟩

theorem tiny_flat : Tiny (flat 1) := by
  refine ⟨reduced_flat (by decide), fun k hk => ?_⟩
  rw [getElem!_pos _ k hk, getElem_flat 1 hk]
  decide

/-! A row of ones adds the polynomials up. -/

theorem coeffs_rowMul_flat (x : VecL) {k : ℕ} (hk : k < 256) :
    coeffs Q (invNtt (rowMul (fun _ => flat 1) fun j => ntt (x j))) k = ∑ j, coeffs Q (x j) k := by
  have hrow : ∀ m < 256, coeffs Q (rowMul (fun _ => flat 1) fun j => ntt (x j)) m =
      hat (fun i => ∑ j, coeffs Q (x j) i) m := by
    intro m hm
    rw [coeffs_rowMul_ntt _ _ hm]
    simp only [coeffs_flat 1 hm, Int.cast_one, one_mul, Fin.sum_univ_five, hat_add]
  rw [coeffs_invNtt _ hk, unhat_congr hrow hk, unhat_hat _ hk]

theorem commitment_flat :
    commitment (fun _ _ => flat 1) (fun _ => flat 314573) = fun _ => flat 1572865 := by
  funext i
  refine eq_flat (reduced_invNtt _) (by decide) fun k hk => ?_
  rw [coeffs_rowMul_flat _ hk]
  simp only [coeffs_flat _ hk, Fin.sum_univ_five]
  norm_num

theorem lowPart_flat :
    lowPart (fun _ _ => flat 1) (fun _ => flat 1) (fun _ => flat 1) = fun _ => flat 6 := by
  have hkey : ∀ i, keyVector (fun _ _ => flat 1) (fun _ => flat 1) (fun _ => flat 1) i =
      flat 6 := by
    intro i
    refine eq_flat (reduced_polyAdd (reduced_invNtt _) tiny_flat.1) (by decide) fun k hk => ?_
    rw [coeffs_polyAdd _ _ hk, coeffs_rowMul_flat _ hk]
    simp only [coeffs_flat _ hk, Fin.sum_univ_five]
    norm_num
  funext i
  refine Vector.ext fun k hk => ?_
  rw [lowPart, hkey i, Vector.getElem_map, getElem_flat 6 hk]
  decide

theorem get_polyAdd (a b : Poly) (k : Fin 256) : (polyAdd a b).get k = addMod (a.get k) (b.get k) := by
  rw [polyAdd, get_ofFn]

theorem get_polySub (a b : Poly) (k : Fin 256) : (polySub a b).get k = subMod (a.get k) (b.get k) := by
  rw [polySub, get_ofFn]

/-! Small products with the challenge stay away from the borders. -/

theorem addMod_center {w x B : ℤ} (hB : |center x| ≤ B) (hlo : B ≤ w) (hhi : w + B < q) :
    addMod w x = w + center x ∧ subMod w x = w - center x := by
  obtain ⟨hneg, hpos⟩ := abs_le.mp hB
  unfold addMod subMod
  unfold center at *
  split at hneg <;> split <;> split <;> constructor <;> omega

theorem decompose_near {r : ℤ} (h : |r - 1572865| ≤ 700) : decompose r = (3, r - 1571328) := by
  obtain ⟨hlo, hhi⟩ := abs_le.mp h
  have hmod : r % q = r := Int.emod_eq_of_lt (by omega) (by unfold q; omega)
  have hlow : r % (2 * gamma2) = r - 1571328 := by
    unfold gamma2
    omega
  have hhigh : r - (r - 1571328) = 1571328 := by omega
  rw [decompose]
  simp only [hmod, hlow]
  rw [if_neg (show ¬r - 1571328 > gamma2 by unfold gamma2; omega), hhigh, if_neg (by decide)]
  rfl

theorem makeHint_near {s t : ℤ} (hs : |center s| ≤ 49) (ht : 0 ≤ t ∧ t < q)
    (ht' : |center t| ≤ 294) :
    makeHint (subMod 0 t) (addMod (subMod 1572865 s) t) = false := by
  obtain ⟨hslo, hshi⟩ := abs_le.mp hs
  obtain ⟨htlo, hthi⟩ := abs_le.mp ht'
  have hneg : |center (subMod 0 t)| ≤ 294 := (center_neg ht).trans_le ht'
  obtain ⟨hnlo, hnhi⟩ := abs_le.mp hneg
  have hsub : subMod 1572865 s = 1572865 - center s :=
    (addMod_center hs (by decide) (by decide)).2
  have hadd : addMod (1572865 - center s) t = 1572865 - center s + center t :=
    (addMod_center ht' (by omega) (by unfold q; omega)).1
  have hback : addMod (1572865 - center s + center t) (subMod 0 t) =
      1572865 - center s + center t + center (subMod 0 t) :=
    (addMod_center hneg (by omega) (by unfold q; omega)).1
  have hmod : (1572865 - center s + center t) % q = 1572865 - center s + center t :=
    Int.emod_eq_of_lt (by omega) (by unfold q; omega)
  have hmod' : subMod 0 t % q = subMod 0 t := by
    obtain ⟨h0, hq⟩ := subMod_mem (show (0 : ℤ) ≤ 0 ∧ 0 < q by decide) ht
    exact Int.emod_eq_of_lt h0 hq
  rw [makeHint, hsub, hadd, hmod, hmod', hback, highBits, highBits,
    decompose_near (abs_le.mpr ⟨by omega, by omega⟩),
    decompose_near (abs_le.mpr ⟨by omega, by omega⟩)]
  rfl

/-- The masks are the response but for the challenge, and no hint is set. -/
theorem accepted_flat {sk : SecretKey} (hs1 : sk.s1 = fun _ => flat 1)
    (hs2 : sk.s2 = fun _ => flat 1) (ht0 : sk.t0 = fun _ => flat 6) {c : Poly} (hc : norm1 c ≤ 49) :
    Accepted (fun _ _ => flat 1) sk (fun _ => flat 314573) c ∧
      ones (signatureHint (fun _ _ => flat 1) sk (fun _ => flat 314573) c) ≤ omega := by
  have hsmall : ∀ v : ℤ, 0 ≤ v → v ≤ 6 → ∀ k : Fin 256,
      |center ((challengeMul (ntt c) (ntt (flat v))).get k)| ≤ 49 * v := by
    intro v h0 h6 k
    have hv : ∀ i : ℕ, i < 256 → |center (flat v)[i]!| ≤ v := by
      intro i hi
      rw [getElem!_pos _ i hi, getElem_flat v hi, center, if_neg (by unfold q; omega), abs_of_nonneg h0]
    have hprod := center_challengeMul hc hv h0 (by omega) k.2
    rwa [getElem!_pos _ k.val k.2] at hprod
  have hone : ∀ k, |center ((challengeMul (ntt c) (ntt (flat 1))).get k)| ≤ 49 :=
    fun k => (hsmall 1 (by decide) (by decide) k).trans (by decide)
  have hsix : ∀ k, |center ((challengeMul (ntt c) (ntt (flat 6))).get k)| ≤ 294 :=
    fun k => (hsmall 6 (by decide) (by decide) k).trans (by decide)
  have hhint : signatureHint (fun _ _ => flat 1) sk (fun _ => flat 314573) c =
      fun _ => zeroPoly := by
    funext i
    refine Vector.ext fun k hk => ?_
    have hmem := getElem_mem (reduced_invNtt (polyPointwise (ntt c) (ntt (flat 6)))) ⟨k, hk⟩
    have hnone := makeHint_near (hone ⟨k, hk⟩) hmem (hsix ⟨k, hk⟩)
    simp only [signatureHint, hintOf, commitment_flat, hs2, ht0, Vector.getElem_ofFn,
      Fin.getElem_fin, getElem_flat _ hk, zeroPoly, Vector.getElem_replicate]
    exact if_neg (ne_true_of_eq_false hnone)
  refine ⟨⟨fun j k => ?_, fun i k => ?_, fun i k => ?_⟩, ?_⟩
  · obtain ⟨hlo, hhi⟩ := abs_le.mp (hone k)
    rw [response, hs1, get_polyAdd, get_flat, (addMod_center (hone k) (by decide) (by decide)).1,
      center, if_neg (by unfold q; omega), abs_lt]
    unfold gamma1 beta
    constructor <;> omega
  · obtain ⟨hlo, hhi⟩ := abs_le.mp (hone k)
    rw [commitment_flat, hs2]
    change |((polySub (flat 1572865) (challengeMul (ntt c) (ntt (flat 1)))).map lowBitsOf)[k.val]| <
      gamma2 - beta
    rw [Vector.getElem_map]
    change |lowBitsOf ((polySub (flat 1572865) (challengeMul (ntt c) (ntt (flat 1)))).get k)| <
      gamma2 - beta
    rw [get_polySub, get_flat, (addMod_center (hone k) (by decide) (by decide)).2, lowBitsOf,
      decompose_near (abs_le.mpr ⟨by omega, by omega⟩), abs_lt]
    unfold gamma2 beta
    constructor <;> omega
  · rw [ht0]
    exact (hsix k).trans_lt (by decide)
  · have hnone : zeroPoly.toList.countP (· ≠ 0) = 0 := by
      rw [zeroPoly, Vector.toList_replicate, List.countP_eq_zero]
      intro x hx
      simp [List.eq_of_mem_replicate hx]
    simp only [ones, hhint, hnone]
    decide

/-- A seed and a message. -/
def flatSeed : ByteArr 32 := ⟨List.replicate 32 7, List.length_replicate⟩

def flatMessage : Bytes := [77, 101, 115, 115, 97, 103, 101]

/-- With a matrix, secrets, masks and a message other than zero, the first try succeeds. -/
theorem sign_verifies_flat : ∃ pk sk sig,
    keypairFromSeed flatSponge 256 flatSeed = some (pk, sk) ∧
    sign flatSponge 256 1 sk flatMessage = some sig ∧
    verify flatSponge 256 pk flatMessage sig = some true := by
  have ha : ∀ rho, expandA flatSponge 256 rho = some fun _ _ => flat 1 := by
    intro rho
    refine expandA_eq_some.mpr fun i j => ?_
    rw [rejNttPoly, ← flatTo_zero 1]
    exact rejNttLoop_flat rfl (by decide) (by decide)
  have hs : ∀ rho, expandS flatSponge 256 rho = some (fun _ => flat 1, fun _ => flat 1) := by
    intro rho
    have hpoly : ∀ nonce, rejBoundedPoly flatSponge 256 rho nonce = some (flat 1) := by
      intro nonce
      rw [rejBoundedPoly, ← flatTo_zero 1]
      exact rejBoundedLoop_flat rfl (by decide) (by decide)
    have hs1 : (gather fun i : Fin 5 => rejBoundedPoly flatSponge 256 rho (UInt16.ofNat i)) =
        some fun _ => flat 1 := gather_eq_some.mpr fun i => hpoly _
    have hs2 : (gather fun i : Fin 6 => rejBoundedPoly flatSponge 256 rho (UInt16.ofNat (5 + i))) =
        some fun _ => flat 1 := gather_eq_some.mpr fun i => hpoly _
    rw [expandS, hs1, hs2]
    rfl
  obtain ⟨key, hkey⟩ : ∃ key, key = secretKeyOf flatSponge flatSeed (fun _ _ => flat 1)
      (fun _ => flat 1) fun _ => flat 1 := ⟨_, rfl⟩
  have hkeys := keypairFromSeed_eq_some.mpr ⟨_, _, _, ha _, hs _, rfl, congrArg skEncode hkey⟩
  have hfits : key.Fits :=
    hkey ▸ fits_secretKeyOf flatSponge _ _ (fun _ => tiny_flat) fun _ => tiny_flat
  obtain ⟨c, hc⟩ := sampleInBall_flat (h flatSponge [messageHash flatSponge key.tr flatMessage,
    w1Encode fun i => (commitment (fun _ _ => flat 1) (fun _ => flat 314573) i).map highBits] 48)
  have hs1 : key.s1 = fun _ => flat 1 := by rw [hkey, secretKeyOf]
  have hs2 : key.s2 = fun _ => flat 1 := by rw [hkey, secretKeyOf]
  have ht0 : key.t0 = fun _ => flat 6 := by rw [hkey, secretKeyOf, lowPart_flat]
  obtain ⟨hacc, hones⟩ := accepted_flat hs1 hs2 ht0 (norm1_sampleInBall hc)
  obtain ⟨sig, htry⟩ : ∃ sig, attempt flatSponge 256 (fun _ _ => flat 1) key
      (messageHash flatSponge key.tr flatMessage) (h flatSponge [key.kSeed, List.replicate 32 0,
        messageHash flatSponge key.tr flatMessage] 64) 0 = some (some sig) :=
    ⟨_, attempt_of_accepted (gather_eq_some.mpr fun r => expandMaskPoly_flat _ _) hc hacc hones⟩
  have hsign : sign flatSponge 256 1 (skEncode key) flatMessage = some sig := by
    rw [sign, skDecode_skEncode hfits, Option.bind_eq_bind, Option.bind_some, ha,
      Option.bind_eq_bind, Option.bind_some]
    simp only [signLoop, htry]
    rfl
  exact ⟨_, _, _, hkeys, hsign, (sign_verifies flatSponge hkeys hsign le_rfl).1⟩

end MlDsa

end Ciphra
