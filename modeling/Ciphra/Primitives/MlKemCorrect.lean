import Ciphra.Primitives.MlKemRing

/-!
# Decapsulation recovers the secret

What decryption computes is the message, one coefficient of 0 or 1665 for each bit, plus the noise
`e r + e2 + dv - s (e1 + du)` of the samples and the compression (`coeffs_decrypted`). As long as
every centred coefficient of the noise stays within 831, rounding finds the bits again, the
re-encryption is the ciphertext and both sides hold the same secret. A ciphertext that is not its
own re-encryption gets the pseudo-random value of implicit rejection.
-/

namespace Ciphra

namespace MlKem

/-! ## Codecs -/

theorem byteEncode_eq (f : Poly) (d : ℕ) :
    byteEncode f d = (((f.toList.map asU32).flatMap (lowBits d)).foldl pushBit
      (List.replicate (32 * d) 0, 0)).1 := by
  rw [byteEncode, List.foldl_flatMap, List.foldl_map]
  simp only [lowBits, List.foldl_map]

@[simp] theorem length_byteEncode (f : Poly) (d : ℕ) : (byteEncode f d).length = 32 * d := by
  rw [byteEncode_eq, length_foldl_pushBit, List.length_replicate]

/-- All coefficients are below `2 ^ d`. -/
def Fits (f : Poly) (d : ℕ) : Prop := ∀ x ∈ f.toList, 0 ≤ x ∧ x < 2 ^ d

theorem leNat_byteEncode {f : Poly} {d : ℕ} (hd : d ≤ 32) (hf : Fits f d) :
    leNat (byteEncode f d) = Nat.ofDigits (2 ^ d) (f.toList.map Int.toNat) := by
  have hpow : (2 : ℤ) ^ d ≤ 2 ^ 32 := pow_le_pow_right₀ (by decide) hd
  have hmap : f.toList.map asU32 = f.toList.map Int.toNat := by
    apply List.map_congr_left
    intro x hx
    exact asU32_of_nonneg (hf x hx).1 ((hf x hx).2.trans_le hpow)
  have hlt : ∀ v ∈ f.toList.map Int.toNat, v < 2 ^ d := by
    intro v hv
    obtain ⟨x, hx, rfl⟩ := List.mem_map.mp hv
    obtain ⟨h0, hlt⟩ := hf x hx
    have hcast : ((x.toNat : ℕ) : ℤ) < ((2 ^ d : ℕ) : ℤ) := by
      rw [Int.toNat_of_nonneg h0]
      exact_mod_cast hlt
    exact_mod_cast hcast
  rw [byteEncode_eq, hmap]
  apply leNat_foldl_lowBits hlt
  simp only [List.length_map, Vector.length_toList]
  omega

/-- The coefficients of a polynomial that a codec of `d` bits gives back. -/
def Codable (f : Poly) (d : ℕ) : Prop := ∀ i : ℕ, i < 256 → 0 ≤ f[i]! ∧ f[i]! < codecModulus d

theorem codecModulus_le (d : ℕ) (hd : d ≤ 12) : codecModulus d ≤ 2 ^ d := by
  unfold codecModulus
  split
  · exact le_rfl
  · have h12 : d = 12 := by omega
    rw [h12]
    decide

theorem Codable.fits {f : Poly} {d : ℕ} (hd : d ≤ 12) (hf : Codable f d) : Fits f d := by
  intro x hx
  obtain ⟨i, hi, rfl⟩ := List.getElem_of_mem hx
  have hi' : i < 256 := by simpa using hi
  have hle : ((codecModulus d : ℕ) : ℤ) ≤ 2 ^ d := by exact_mod_cast codecModulus_le d hd
  have hbound := hf i hi'
  rw [getElem!_pos f i hi'] at hbound
  rw [Vector.getElem_toList]
  exact ⟨hbound.1, hbound.2.trans_le hle⟩

theorem byteDecode_byteEncode {f : Poly} {d : ℕ} (hd : d ≤ 12) (hf : Codable f d) :
    byteDecode (byteEncode f d) d = some f := by
  have hfits := hf.fits hd
  have hlen : ¬(byteEncode f d).length < 32 * d := by rw [length_byteEncode]; omega
  rw [byteDecode, if_neg hlen, Option.some_inj]
  apply Vector.ext
  intro i hi
  have hbound := hf i hi
  rw [getElem!_pos f i hi] at hbound
  have hlt : ∀ v ∈ f.toList.map Int.toNat, v < 2 ^ d := by
    intro v hv
    obtain ⟨x, hx, rfl⟩ := List.mem_map.mp hv
    obtain ⟨h0, hlt⟩ := hfits x hx
    have hcast : ((x.toNat : ℕ) : ℤ) < ((2 ^ d : ℕ) : ℤ) := by
      rw [Int.toNat_of_nonneg h0]
      exact_mod_cast hlt
    exact_mod_cast hcast
  have hdigit : digit d (leNat (byteEncode f d)) i = f[i].toNat := by
    rw [leNat_byteEncode (by omega) hfits, digit_ofDigits hlt (by simpa using hi)]
    simp
  have hmod : f[i].toNat < codecModulus d := by
    have hcast : ((f[i].toNat : ℕ) : ℤ) < (codecModulus d : ℕ) := by
      rw [Int.toNat_of_nonneg hbound.1]
      exact hbound.2
    exact_mod_cast hcast
  rw [Vector.getElem_ofFn, readBits_mul, hdigit, Nat.mod_eq_of_lt hmod, Int.toNat_of_nonneg hbound.1]

/-- The bits of a byte string are its own. -/
theorem byteEncode_byteDecode_one {m : Bytes} {mu : Poly} (hm : m.length = 32)
    (h : byteDecode m 1 = some mu) : byteEncode mu 1 = m := by
  rw [byteDecode, if_neg (by omega), Option.some_inj] at h
  have hget : ∀ (i : ℕ) (hi : i < 256), mu[i] = ((digit 1 (leNat m) i : ℕ) : ℤ) := by
    intro i hi
    have hdig := digit_lt 1 (leNat m) i
    have hmod : digit 1 (leNat m) i % codecModulus 1 = digit 1 (leNat m) i :=
      Nat.mod_eq_of_lt hdig
    rw [← h, Vector.getElem_ofFn, readBits_mul, hmod]
  have hfits : Fits mu 1 := by
    intro x hx
    obtain ⟨i, hi, rfl⟩ := List.getElem_of_mem hx
    have hi' : i < 256 := by simpa using hi
    have hdig := digit_lt 1 (leNat m) i
    rw [Vector.getElem_toList, hget i hi']
    exact ⟨by positivity, by exact_mod_cast hdig⟩
  apply leNat_inj (by rw [length_byteEncode, hm])
  rw [leNat_byteEncode (by decide) hfits]
  have hlist : mu.toList.map Int.toNat = (List.range 256).map (digit 1 (leNat m)) := by
    apply List.ext_getElem
    · simp
    · intro i hi hi'
      have hi256 : i < 256 := by simpa using hi'
      simp [hget i hi256]
  rw [hlist, ofDigits_digit]
  apply Nat.mod_eq_of_lt
  have hlt := leNat_lt_two_pow m
  rwa [hm] at hlt

theorem length_encodeVec (f : PolyVec) (d : ℕ) : (encodeVec f d).length = 32 * d * 3 := by
  rw [encodeVec, List.length_flatMap]
  simp only [length_byteEncode]
  rw [List.map_const', List.sum_replicate, List.length_finRange, smul_eq_mul, mul_comm]

theorem decodeVec_encodeVec {f : PolyVec} {d : ℕ} (hd : d ≤ 12) (hf : ∀ i, Codable (f i) d)
    (rest : Bytes) : decodeVec (encodeVec f d ++ rest) d = some f := by
  rw [decodeVec, gather_eq_some]
  intro i
  have hslice := slice_flatMap (fun i => byteEncode (f i) d) (32 * d)
    (fun i => length_byteEncode (f i) d) [] rest i
  rw [List.nil_append, List.length_nil, Nat.zero_add, Nat.zero_add] at hslice
  rw [encodeVec, hslice, Option.bind_eq_bind, Option.bind_some, byteDecode_byteEncode hd (hf i)]

theorem sliceArr_eq {a b c : Bytes} {lo n : ℕ} (hlo : lo = a.length) (hn : b.length = n) :
    sliceArr (a ++ b ++ c) lo n = some ⟨b, hn⟩ := by
  have hle : lo + n ≤ (a ++ b ++ c).length := by
    simp only [List.length_append]
    omega
  rw [sliceArr, dif_pos hle]
  congr 1
  apply Subtype.ext
  simp only [hlo, List.append_assoc, List.drop_left]
  rw [← hn, List.take_left]

theorem codable_of_reduced {f : Poly} (hf : Reduced 3329 f) : Codable f 12 := hf

/-! ## Compression -/

theorem codable_polyCompress (f : Poly) {d : ℕ} (hd : d < 12) : Codable (polyCompress f d) d := by
  intro i hi
  rw [getElem!_pos _ i hi, polyCompress, Vector.getElem_map, compress, codecModulus, if_pos hd]
  constructor
  · exact Int.natCast_nonneg _
  · exact Int.ofNat_lt.mpr (Nat.mod_lt _ (by positivity))

/-- Rounding to one bit: the middle half of the residues is 1. -/
theorem compress_one {x : ℤ} (h0 : 0 ≤ x) (h : x < q) :
    compress x 1 = if 833 ≤ x ∧ x ≤ 2496 then 1 else 0 := by
  unfold q at h
  obtain ⟨n, rfl⟩ := Int.eq_ofNat_of_zero_le h0
  have hn : n < 3329 := by omega
  have hu32 : asU32 (n : ℤ) = n := asU32_of_nonneg h0 (by omega)
  rw [compress, hu32, Nat.shiftLeft_eq]
  split <;> omega

/-- A bit that comes back from a coefficient of the message with a small error. -/
theorem compress_one_of_noise {bit : ℕ} (hbit : bit < 2) {x : ℤ} (h0 : 0 ≤ x) (h : x < q)
    {noise : ZMod 3329} (hnoise : noise.valMinAbs.natAbs ≤ 831)
    (hx : (x : ZMod 3329) = ((decompress bit 1 : ℤ) : ZMod 3329) + noise) :
    compress x 1 = bit := by
  have hdec : decompress (bit : ℤ) 1 = 1665 * bit := by
    interval_cases bit <;> rfl
  have hcast : (x : ZMod 3329) = ((1665 * bit + noise.valMinAbs : ℤ) : ZMod 3329) := by
    rw [hx, hdec]
    push_cast
    rfl
  have hmod := (ZMod.intCast_eq_intCast_iff' _ _ _).mp hcast
  rw [compress_one h0 h]
  unfold q at h
  generalize noise.valMinAbs = e at hnoise hmod
  interval_cases bit <;> split <;> omega

/-! ## Decryption -/

/-- What compression to `d` bits adds to a coefficient. -/
def compressionError (f : Poly) (d : ℕ) (i : ℕ) : ZMod 3329 :=
  coeffs 3329 (polyDecompress (polyCompress f d) d) i - coeffs 3329 f i

/-- The noise of a ciphertext: `e r + e2 + dv - s (e1 + du)` modulo `X ^ 256 + 1`. -/
def noise (s e r e1 : PolyVec) (e2 : Poly) (u : PolyVec) (v : Poly) (i : ℕ) : ZMod 3329 :=
  ∑ j, ringMul 256 (-1) (coeffs 3329 (e j)) (coeffs 3329 (r j)) i + coeffs 3329 e2 i + compressionError v 4 i -
    ∑ j, ringMul 256 (-1) (coeffs 3329 (s j)) (fun k => coeffs 3329 (e1 j) k + compressionError (u j) 10 k) i

theorem unhat_sum (f : Fin 3 → ℕ → ZMod 3329) (i : ℕ) :
    unhat (fun i => ∑ j, f j i) i = ∑ j, unhat (f j) i := by
  simp only [Fin.sum_univ_three]
  rw [unhat_add, unhat_add]

/-- The vector of the ciphertext in the transform domain. -/
def maskedHat (a : Fin 3 → PolyVec) (r : PolyVec) (l : Fin 3) (k : ℕ) : ZMod 3329 :=
  ∑ j, pairMul (coeffs 3329 (a j l)) (hat (coeffs 3329 (r j))) k

section Decryption

variable {a : Fin 3 → PolyVec} {s e r e1 u : PolyVec} {e2 mu v : Poly}
  (hu : u = fun i => polyAdd (intt (dot (fun j => a j i) fun j => ntt (r j))) (e1 i))
  (hv : v = polyAdd (polyAdd (intt (dot (publicVec a (fun j => ntt (s j)) fun j => ntt (e j))
    fun j => ntt (r j))) e2) mu)
include hu

theorem coeffs_u (l : Fin 3) {k : ℕ} (hk : k < 256) :
    coeffs 3329 (u l) k = unhat (maskedHat a r l) k + coeffs 3329 (e1 l) k := by
  have hmask : ∀ i < 256, coeffs 3329 (dot (fun j => a j l) fun j => ntt (r j)) i =
      maskedHat a r l i := by
    intro i hi
    rw [coeffs_dot _ _ hi, maskedHat]
    apply Finset.sum_congr rfl
    intro j _
    exact pairMul_congr (fun _ _ => rfl) (fun i hi => coeffs_ntt (r j) hi) hi
  rw [hu, coeffs_polyAdd _ _ hk, coeffs_intt _ hk, unhat_congr hmask hk]

/-- The transform of the decompressed vector: the masked vector and the transform of its errors. -/
theorem hat_u (l : Fin 3) {k : ℕ} (hk : k < 256) :
    hat (coeffs 3329 (polyDecompress (polyCompress (u l) 10) 10)) k =
      maskedHat a r l k + hat (fun i => coeffs 3329 (e1 l) i + compressionError (u l) 10 i) k := by
  have hsplit : ∀ i < 256, coeffs 3329 (polyDecompress (polyCompress (u l) 10) 10) i =
      unhat (maskedHat a r l) i + (coeffs 3329 (e1 l) i + compressionError (u l) 10 i) := by
    intro i hi
    rw [compressionError, coeffs_u hu l hi]
    ring
  rw [hat_congr hsplit hk, hat_add, hat_unhat _ hk]

include hv

omit hu in
theorem coeffs_v {k : ℕ} (hk : k < 256) :
    coeffs 3329 v k = unhat (fun i => ∑ l, pairMul (hat (coeffs 3329 (s l))) (maskedHat a r l) i) k +
      ∑ j, ringMul 256 (-1) (coeffs 3329 (e j)) (coeffs 3329 (r j)) k + coeffs 3329 e2 k + coeffs 3329 mu k := by
  have hdot : ∀ i < 256, coeffs 3329 (dot (publicVec a (fun j => ntt (s j)) fun j => ntt (e j))
      fun j => ntt (r j)) i = ∑ l, pairMul (hat (coeffs 3329 (s l))) (maskedHat a r l) i +
        ∑ j, pairMul (hat (coeffs 3329 (e j))) (hat (coeffs 3329 (r j))) i := by
    intro i hi
    rw [coeffs_dot _ _ hi]
    have hterm : ∀ j, pairMul (coeffs 3329 (publicVec a (fun j => ntt (s j)) (fun j => ntt (e j)) j))
        (coeffs 3329 (ntt (r j))) i =
        pairMul (fun i => ∑ l, pairMul (coeffs 3329 (a j l)) (hat (coeffs 3329 (s l))) i)
          (hat (coeffs 3329 (r j))) i + pairMul (hat (coeffs 3329 (e j))) (hat (coeffs 3329 (r j))) i := by
      intro j
      rw [← pairMul_add_left]
      apply pairMul_congr _ (fun i hi => coeffs_ntt (r j) hi) hi
      intro i hi
      rw [publicVec, coeffs_polyAdd _ _ hi, coeffs_dot _ _ hi, coeffs_ntt _ hi]
      congr 1
      apply Finset.sum_congr rfl
      intro l _
      exact pairMul_congr (fun _ _ => rfl) (fun i hi => coeffs_ntt (s l) hi) hi
    rw [Finset.sum_congr rfl fun j _ => hterm j, Finset.sum_add_distrib,
      sum_pairMul_comm (fun j l => coeffs 3329 (a j l)) (fun l => hat (coeffs 3329 (s l)))
        (fun j => hat (coeffs 3329 (r j)))]
    rfl
  have hproducts : unhat (fun i => ∑ j, pairMul (hat (coeffs 3329 (e j))) (hat (coeffs 3329 (r j))) i) k =
      ∑ j, ringMul 256 (-1) (coeffs 3329 (e j)) (coeffs 3329 (r j)) k := by
    rw [unhat_sum]
    exact Finset.sum_congr rfl fun j _ => unhat_pairMul_hat _ _ hk
  rw [hv, coeffs_polyAdd _ _ hk, coeffs_polyAdd _ _ hk, coeffs_intt _ hk, unhat_congr hdot hk,
    unhat_add, hproducts]

/-- Decryption leaves the message and the noise. -/
theorem coeffs_decrypted {k : ℕ} (hk : k < 256) :
    coeffs 3329 (polySub (polyDecompress (polyCompress v 4) 4) (intt (dot (fun j => ntt (s j))
        fun i => ntt (polyDecompress (polyCompress (u i) 10) 10)))) k =
      coeffs 3329 mu k + noise s e r e1 e2 u v k := by
  have hdot : ∀ i < 256, coeffs 3329 (dot (fun j => ntt (s j))
      fun i => ntt (polyDecompress (polyCompress (u i) 10) 10)) i =
        ∑ l, pairMul (hat (coeffs 3329 (s l))) (maskedHat a r l) i +
        ∑ l, pairMul (hat (coeffs 3329 (s l)))
          (hat fun i => coeffs 3329 (e1 l) i + compressionError (u l) 10 i) i := by
    intro i hi
    rw [coeffs_dot _ _ hi, ← Finset.sum_add_distrib]
    apply Finset.sum_congr rfl
    intro l _
    rw [← pairMul_add_right]
    apply pairMul_congr (fun i hi => coeffs_ntt (s l) hi) _ hi
    intro i hi
    rw [coeffs_ntt _ hi, hat_u hu l hi]
  have hproducts : unhat (fun i => ∑ l, pairMul (hat (coeffs 3329 (s l)))
      (hat fun i => coeffs 3329 (e1 l) i + compressionError (u l) 10 i) i) k =
      ∑ l, ringMul 256 (-1) (coeffs 3329 (s l))
        (fun i => coeffs 3329 (e1 l) i + compressionError (u l) 10 i) k := by
    rw [unhat_sum]
    exact Finset.sum_congr rfl fun j _ => unhat_pairMul_hat _ _ hk
  have hvk := coeffs_v hv hk
  rw [coeffs_polySub _ _ hk, coeffs_intt _ hk, unhat_congr hdot hk, unhat_add, hproducts, noise,
    compressionError, hvk]
  ring

/-- Rounding what decryption leaves finds the bits of the message. -/
theorem polyCompress_decrypted {bits : Poly} (hbits : Codable bits 1) (hmu : mu = polyDecompress bits 1)
    (hnoise : ∀ k < 256, (noise s e r e1 e2 u v k).valMinAbs.natAbs ≤ 831) :
    polyCompress (polySub (polyDecompress (polyCompress v 4) 4) (intt (dot (fun j => ntt (s j))
      fun i => ntt (polyDecompress (polyCompress (u i) 10) 10)))) 1 = bits := by
  apply Vector.ext
  intro k hk
  have hbit := hbits k hk
  rw [getElem!_pos bits k hk] at hbit
  have hcoeff := coeffs_decrypted hu hv hk
  have hmuk : coeffs 3329 mu k = ((decompress bits[k] 1 : ℤ) : ZMod 3329) := by
    rw [coeffs_eq_getElem _ mu hk, hmu]
    exact congrArg _ (Vector.getElem_map _ hk)
  rw [hmuk] at hcoeff
  have hred := reduced_polySub (polyDecompress (polyCompress v 4) 4) (intt (dot (fun j => ntt (s j))
    fun i => ntt (polyDecompress (polyCompress (u i) 10) 10))) k hk
  rw [coeffs] at hcoeff
  rw [polyCompress, Vector.getElem_map]
  generalize polySub (polyDecompress (polyCompress v 4) 4) (intt (dot (fun j => ntt (s j))
    fun i => ntt (polyDecompress (polyCompress (u i) 10) 10))) = w at hcoeff hred
  rw [getElem!_pos w k hk] at hcoeff hred
  obtain ⟨n, hn⟩ := Int.eq_ofNat_of_zero_le hbit.1
  have hn2 : n < 2 := by
    have hlt := hbit.2
    rw [hn] at hlt
    exact_mod_cast hlt
  rw [hn] at hcoeff ⊢
  exact compress_one_of_noise hn2 hred.1 hred.2 (hnoise k hk) hcoeff

end Decryption

/-! ## The mechanism -/

theorem sampleNttLoop_succ (xof : ℕ → UInt8) {fuel pos count : ℕ} {a r : Poly}
    (h : sampleNttLoop xof fuel pos a count = some r) :
    sampleNttLoop xof (fuel + 1) pos a count = some r := by
  induction fuel generalizing pos a count with
  | zero =>
    rw [sampleNttLoop] at h
    split at h
    · exact nomatch h
    · next hcount => rw [sampleNttLoop, if_neg hcount, h]
  | succ fuel ih =>
    rw [sampleNttLoop] at h
    split at h
    · next hcount =>
      rw [sampleNttLoop, if_pos hcount]
      exact ih h
    · next hcount => rw [sampleNttLoop, if_neg hcount, h]

/-- More squeezes change nothing once there were enough. -/
theorem sampleNtt_mono (S : Sponge) {fuel fuel' : ℕ} (hle : fuel ≤ fuel') {rho : ByteArr 32}
    {i j : UInt8} {a : Poly} (h : sampleNtt S fuel rho i j = some a) :
    sampleNtt S fuel' rho i j = some a := by
  induction fuel', hle using Nat.le_induction with
  | base => exact h
  | succ n _ ih => exact sampleNttLoop_succ _ ih

theorem genMatrix_eq_some {S : Sponge} {fuel : ℕ} {rho : ByteArr 32} {transposed : Bool}
    {a : Fin 3 → PolyVec} : genMatrix S fuel rho transposed = some a ↔
      ∀ i j : Fin 3, (if transposed then sampleNtt S fuel rho (UInt8.ofNat i) (UInt8.ofNat j)
        else sampleNtt S fuel rho (UInt8.ofNat j) (UInt8.ofNat i)) = some (a i j) := by
  rw [genMatrix, gather_eq_some]
  exact forall_congr' fun i => gather_eq_some

/-- Encryption samples the matrix of the key generation, transposed. -/
theorem genMatrix_transposed {S : Sponge} {fuel fuel' : ℕ} (hle : fuel ≤ fuel') {rho : ByteArr 32}
    {a : Fin 3 → PolyVec} (h : genMatrix S fuel rho false = some a) :
    genMatrix S fuel' rho true = some fun i j => a j i := by
  rw [genMatrix_eq_some] at h ⊢
  intro i j
  exact sampleNtt_mono S hle (h j i)

/-- A message of 32 bytes has 256 bits. -/
theorem byteDecode_one (m : ByteArr 32) : ∃ bits, byteDecode m.1 1 = some bits ∧ Codable bits 1 := by
  have hlen : ¬m.1.length < 32 * 1 := by rw [m.2]; decide
  refine ⟨_, by rw [byteDecode, if_neg hlen], ?_⟩
  intro i hi
  rw [getElem!_pos _ i hi, Vector.getElem_ofFn]
  exact ⟨Int.natCast_nonneg _, Int.ofNat_lt.mpr (Nat.mod_lt _ (by decide))⟩

/-- A key pair: the matrix and the vectors it was made from. -/
theorem keygenInternal_eq_some {S : Sponge} {fuel : ℕ} {d z : ByteArr 32} {kp : KeyPair}
    (hk : keygenInternal S fuel d z = some kp) :
    ∃ a tHat, genMatrix S fuel (seeds S d).1 false = some a ∧
      tHat = publicVec a (fun i => ntt (secret S (seeds S d).2 i))
        (fun i => ntt (error S (seeds S d).2 i)) ∧
      kp.ek = encodeVec tHat 12 ++ (seeds S d).1.1 ∧
      kp.dk = encodeVec (fun i => ntt (secret S (seeds S d).2 i)) 12 ++ kp.ek ++ (h S kp.ek).1 ++
        z.1 := by
  simp only [keygenInternal, pkeKeygen, Option.bind_eq_bind, Option.bind_eq_some_iff,
    Option.pure_def, Option.some_inj, Prod.exists, Prod.mk.injEq] at hk
  obtain ⟨ek, dk, ⟨a, ha, rfl, rfl⟩, rfl⟩ := hk
  exact ⟨a, _, ha, rfl, rfl, rfl⟩

/-- Encryption under a generated key, before compression. -/
theorem pkeUncompressed_key {S : Sponge} {fuel fuel' : ℕ} (hle : fuel ≤ fuel') {rho : ByteArr 32}
    {a : Fin 3 → PolyVec} (ha : genMatrix S fuel rho false = some a) {tHat : PolyVec}
    (ht : ∀ i, Reduced 3329 (tHat i)) (m rand : ByteArr 32) :
    pkeUncompressed S fuel' (encodeVec tHat 12 ++ rho.1) m rand =
      maskedPair S (fun i j => a j i) tHat m rand := by
  have hrho : sliceArr (encodeVec tHat 12 ++ rho.1) (384 * 3) 32 = some rho := by
    have hslice := sliceArr_eq (c := []) (length_encodeVec tHat 12).symm rho.2
    rwa [List.append_nil] at hslice
  rw [pkeUncompressed, decodeVec_encodeVec (by decide) (fun i => codable_of_reduced (ht i)), hrho]
  simp only [Option.bind_eq_bind, Option.bind_some, genMatrix_transposed hle ha]

theorem pkeDecrypt_encodePair {sHat : PolyVec} (hs : ∀ i, Reduced 3329 (sHat i)) (u : PolyVec)
    (v : Poly) : pkeDecrypt (encodeVec sHat 12) (encodePair u v) =
      some (byteEncode (polyCompress (polySub (polyDecompress (polyCompress v 4) 4)
        (intt (dot sHat fun i => ntt (polyDecompress (polyCompress (u i) 10) 10)))) 1) 1) := by
  have hu := decodeVec_encodeVec (by decide) (fun i => codable_polyCompress (u i) (d := 10) (by decide))
    (byteEncode (polyCompress v 4) 4)
  have hdk := decodeVec_encodeVec (by decide) (fun i => codable_of_reduced (hs i)) []
  rw [List.append_nil] at hdk
  have hlen := length_encodeVec (fun i => polyCompress (u i) 10) 10
  have hrest : slice (encodePair u v) (32 * 10 * 3) (encodePair u v).length =
      some (byteEncode (polyCompress v 4) 4) := by
    have hslice := slice_append (encodeVec (fun i => polyCompress (u i) 10) 10)
      (byteEncode (polyCompress v 4) 4) [] hlen.symm
      (show (encodePair u v).length = _ from List.length_append)
    rwa [List.append_nil] at hslice
  rw [pkeDecrypt, hrest]
  rw [encodePair, hu, hdk]
  simp only [Option.bind_eq_bind, Option.bind_some,
    byteDecode_byteEncode (by decide) (codable_polyCompress v (d := 4) (by decide)), Option.pure_def]

theorem pkeEncrypt_of_uncompressed {S : Sponge} {fuel : ℕ} {ek : Bytes} {m rand : ByteArr 32}
    {u : PolyVec} {v : Poly} (huv : pkeUncompressed S fuel ek m rand = some (u, v)) :
    pkeEncrypt S fuel ek m rand = some (encodePair u v) := by
  rw [pkeEncrypt, huv]
  rfl

theorem encapsInternal_of_uncompressed {S : Sponge} {fuel : ℕ} {ek : Bytes} {m : ByteArr 32}
    {u : PolyVec} {v : Poly}
    (huv : pkeUncompressed S fuel ek m (g S (m.1 ++ (h S ek).1)).2 = some (u, v)) :
    encapsInternal S fuel ek m = some (encodePair u v, (g S (m.1 ++ (h S ek).1)).1) := by
  have hct := pkeEncrypt_of_uncompressed huv
  simp only [encapsInternal, Option.bind_eq_bind, hct, Option.bind_some, Option.pure_def]

section Key

variable {S : Sponge} {kp : KeyPair} {dkPke : Bytes} {z : ByteArr 32} (hdk : dkPke.length = 384 * 3)
  (hek : kp.ek.length = 384 * 3 + 32) (hkp : kp.dk = dkPke ++ kp.ek ++ (h S kp.ek).1 ++ z.1)
include hdk hek hkp

/-- The parts of a decapsulation key. -/
theorem reencrypt_eq (fuel : ℕ) (ct : Bytes) : reencrypt S fuel kp.dk ct = do
    let m ← pkeDecrypt dkPke ct
    let m ← sliceArr m 0 32
    let ct' ← pkeEncrypt S fuel kp.ek m (g S (m.1 ++ (h S kp.ek).1)).2
    return ((g S (m.1 ++ (h S kp.ek).1)).1, ct') := by
  have h1 : slice kp.dk 0 (384 * 3) = some dkPke := by
    have hslice := slice_append [] dkPke (kp.ek ++ (h S kp.ek).1 ++ z.1) rfl rfl
    rw [List.nil_append, List.length_nil, Nat.zero_add, hdk] at hslice
    rw [hkp]
    simpa only [List.append_assoc] using hslice
  have h2 : slice kp.dk (384 * 3) (768 * 3 + 32) = some kp.ek := by
    have hslice := slice_append dkPke kp.ek ((h S kp.ek).1 ++ z.1) hdk.symm
      (show 768 * 3 + 32 = _ by rw [hdk, hek])
    rw [hkp]
    simpa only [List.append_assoc] using hslice
  have h3 : slice kp.dk (768 * 3 + 32) (768 * 3 + 64) = some (h S kp.ek).1 := by
    rw [hkp]
    apply slice_append
    · rw [List.length_append, hdk, hek]
    · rw [List.length_append, hdk, hek, (h S kp.ek).2]
  rw [reencrypt, h1, h2, h3]
  rfl

theorem decapsulate_eq (fuel : ℕ) (ct : Bytes) : decapsulate S fuel kp.dk ct = do
    let (shared, ct') ← reencrypt S fuel kp.dk ct
    return if ct = ct' then shared else squeeze (S.shake256 (z.1 ++ ct)) 0 32 := by
  have hz : slice kp.dk (768 * 3 + 64) (768 * 3 + 96) = some z.1 := by
    have hslice := slice_append (dkPke ++ kp.ek ++ (h S kp.ek).1) z.1 []
      (show 768 * 3 + 64 = _ by rw [List.length_append, List.length_append, hdk, hek, (h S kp.ek).2])
      (show 768 * 3 + 96 = _ by
        rw [List.length_append, List.length_append, hdk, hek, (h S kp.ek).2, z.2])
    rw [hkp]
    simpa only [List.append_nil] using hslice
  rw [decapsulate, hz]
  rfl

end Key

/-- Decryption returns whenever the ciphertext is long enough. -/
theorem pkeDecrypt_isSome {dk ct : Bytes} {sHat : PolyVec} (hs : decodeVec dk 12 = some sHat)
    (hct : 1088 ≤ ct.length) : ∃ m, pkeDecrypt dk ct = some m ∧ m.length = 32 := by
  have hdecode : ∀ (d : ℕ) (chunk : Bytes), 32 * d ≤ chunk.length → ∃ f, byteDecode chunk d = some f := by
    intro d chunk hlen
    exact ⟨_, by rw [byteDecode, if_neg (by omega)]⟩
  have hu : ∃ u, decodeVec ct 10 = some u := by
    have hone : ∀ i : Fin 3, ∃ f, (do
        let chunk ← slice ct (32 * 10 * i) (32 * 10 * (i + 1))
        byteDecode chunk 10) = some f := by
      intro i
      have hi := i.2
      have hcond : 32 * 10 * i.val ≤ 32 * 10 * (i.val + 1) ∧ 32 * 10 * (i.val + 1) ≤ ct.length := by
        omega
      obtain ⟨f, hf⟩ := hdecode 10 ((ct.drop (32 * 10 * i.val)).take
        (32 * 10 * (i.val + 1) - 32 * 10 * i.val)) (by
          rw [List.length_take, List.length_drop]
          omega)
      exact ⟨f, by rw [slice, if_pos hcond]; exact hf⟩
    choose f hf using hone
    exact ⟨f, gather_eq_some.mpr hf⟩
  obtain ⟨u, hu⟩ := hu
  have hslice : slice ct (32 * 10 * 3) ct.length = some ((ct.drop 960).take (ct.length - 960)) := by
    rw [slice, if_pos ⟨by omega, le_rfl⟩]
  obtain ⟨v, hv⟩ := hdecode 4 ((ct.drop 960).take (ct.length - 960)) (by
    rw [List.length_take, List.length_drop]
    omega)
  have hdec : pkeDecrypt dk ct = some (byteEncode (polyCompress (polySub (polyDecompress v 4)
      (intt (dot sHat fun i => ntt (polyDecompress (u i) 10)))) 1) 1) := by
    rw [pkeDecrypt, hu, hslice]
    simp only [Option.bind_eq_bind, Option.bind_some, hv, hs, Option.pure_def]
  exact ⟨_, hdec, length_byteEncode _ 1⟩

/-- Under a generated key, encapsulation returns, decapsulation of the ciphertext returns the same
secret whenever every centred coefficient of the noise is at most 831 in absolute value, and
decapsulation of any ciphertext that is not its own re-encryption returns `SHAKE256(z || ct)`. The
matrix is sampled within the squeezes that the key generation needed. -/
theorem decapsulate_correct (S : Sponge) {fuel fuel' : ℕ} (hle : fuel ≤ fuel') {d z : ByteArr 32}
    {kp : KeyPair} (hk : keygenInternal S fuel d z = some kp) :
    (∀ m : ByteArr 32, ∃ rand u v ct shared,
      (shared, rand) = g S (m.1 ++ (h S kp.ek).1) ∧
      pkeUncompressed S fuel' kp.ek m rand = some (u, v) ∧
      encapsInternal S fuel' kp.ek m = some (ct, shared) ∧
      ((∀ i < 256, (noise (secret S (seeds S d).2) (error S (seeds S d).2) (mask S rand)
          (error1 S rand) (error2 S rand) u v i).valMinAbs.natAbs ≤ 831) →
        decapsulate S fuel' kp.dk ct = some shared)) ∧
    ∀ ct : Bytes, 1088 ≤ ct.length → ∃ shared' ct',
      reencrypt S fuel' kp.dk ct = some (shared', ct') ∧
      (ct' ≠ ct → decapsulate S fuel' kp.dk ct = some (squeeze (S.shake256 (z.1 ++ ct)) 0 32)) := by
  obtain ⟨a, tHat, ha, ht, hek, hdk⟩ := keygenInternal_eq_some hk
  have htred : ∀ i, Reduced 3329 (tHat i) := by
    intro i
    rw [ht]
    exact reduced_polyAdd _ _
  have hsred : ∀ i, Reduced 3329 (ntt (secret S (seeds S d).2 i)) := fun i => reduced_ntt _
  have hlenDk := length_encodeVec (fun i => ntt (secret S (seeds S d).2 i)) 12
  have hlenEk : kp.ek.length = 384 * 3 + 32 := by
    rw [hek, List.length_append, length_encodeVec, (seeds S d).1.2]
  -- every message is encrypted under the key
  have hmasked : ∀ m rand : ByteArr 32, ∃ bits u v, byteDecode m.1 1 = some bits ∧ Codable bits 1 ∧
      u = (fun i => polyAdd (intt (dot (fun j => a j i) fun j => ntt (mask S rand j)))
        (error1 S rand i)) ∧
      v = polyAdd (polyAdd (intt (dot tHat fun j => ntt (mask S rand j))) (error2 S rand))
        (polyDecompress bits 1) ∧
      pkeUncompressed S fuel' kp.ek m rand = some (u, v) := by
    intro m rand
    obtain ⟨bits, hbits, hcod⟩ := byteDecode_one m
    refine ⟨bits, _, _, hbits, hcod, rfl, rfl, ?_⟩
    rw [hek, pkeUncompressed_key hle ha htred, maskedPair, hbits]
    rfl
  constructor
  · intro m
    obtain ⟨bits, u, v, hbits, hcod, hu, hv, huv⟩ := hmasked m (g S (m.1 ++ (h S kp.ek).1)).2
    refine ⟨(g S (m.1 ++ (h S kp.ek).1)).2, u, v, encodePair u v, (g S (m.1 ++ (h S kp.ek).1)).1,
      rfl, huv, ?_, ?_⟩
    · exact encapsInternal_of_uncompressed huv
    · intro hnoise
      rw [ht] at hv
      have hround := polyCompress_decrypted hu hv hcod rfl hnoise
      have hdec : pkeDecrypt (encodeVec (fun i => ntt (secret S (seeds S d).2 i)) 12)
          (encodePair u v) = some m.1 := by
        rw [pkeDecrypt_encodePair hsred, hround, byteEncode_byteDecode_one m.2 hbits]
      have hm : sliceArr m.1 0 32 = some m := by
        have hslice := sliceArr_eq (a := []) (c := []) rfl m.2
        rwa [List.append_nil, List.nil_append] at hslice
      rw [decapsulate_eq hlenDk hlenEk hdk, reencrypt_eq hlenDk hlenEk hdk, hdec]
      simp only [Option.bind_eq_bind, Option.bind_some, hm, pkeEncrypt_of_uncompressed huv,
        Option.pure_def, if_true]
  · intro ct hct
    have hsHat := decodeVec_encodeVec (by decide) (fun i => codable_of_reduced (hsred i)) []
    rw [List.append_nil] at hsHat
    obtain ⟨m, hm, hlen⟩ := pkeDecrypt_isSome hsHat hct
    have harr : sliceArr m 0 32 = some ⟨m, hlen⟩ := by
      have hslice := sliceArr_eq (a := []) (c := []) rfl hlen
      rwa [List.append_nil, List.nil_append] at hslice
    obtain ⟨bits, u, v, -, -, -, -, huv⟩ := hmasked ⟨m, hlen⟩ (g S (m ++ (h S kp.ek).1)).2
    have hre : reencrypt S fuel' kp.dk ct =
        some ((g S (m ++ (h S kp.ek).1)).1, encodePair u v) := by
      rw [reencrypt_eq hlenDk hlenEk hdk, hm]
      simp only [Option.bind_eq_bind, Option.bind_some, harr, pkeEncrypt_of_uncompressed huv,
        Option.pure_def]
    refine ⟨_, _, hre, ?_⟩
    intro hne
    rw [decapsulate_eq hlenDk hlenEk hdk, hre]
    simp only [Option.bind_eq_bind, Option.bind_some, Option.pure_def]
    rw [if_neg fun he => hne he.symm]

/-! ## A concrete exchange -/

/-- The constant `1`. -/
def unitPoly : Poly := Vector.ofFn fun i => if i.1 = 0 then 1 else 0

theorem coeffs_unitPoly {k : ℕ} (hk : k < 256) :
    coeffs 3329 unitPoly k = if k = 0 then 1 else 0 := by
  rw [coeffs, getElem!_pos _ k hk, unitPoly, Vector.getElem_ofFn]
  split <;> simp

theorem small_units (seed : ByteArr 32) (n : ℕ) : small Sponge.units seed n = unitPoly := by
  change sampleCbd (squeeze (fun pos => if pos = 0 then 1 else 0) 0 128).1 2 = unitPoly
  decide +kernel

/-- A residue close to zero, or to the modulus. -/
theorem natAbs_valMinAbs_le {x e : ℤ} {B : ℕ} (hB : 2 * B < 3329) (he : e.natAbs ≤ B)
    (hx : x = e ∨ x = e - 3329) : ((x : ℤ) : ZMod 3329).valMinAbs.natAbs ≤ B := by
  have hcast : ((x : ℤ) : ZMod 3329) = e := by
    rcases hx with rfl | rfl
    · rfl
    · rw [Int.cast_sub, sub_eq_self]
      rfl
  rw [(ZMod.valMinAbs_spec _ e).mpr ⟨hcast, by rw [Set.mem_Ioc]; push_cast; omega⟩]
  exact he

/-- Compression to 4 and to 10 bits moves a residue by at most 104 and 2. -/
theorem natAbs_decompress_compress {n : ℕ} (hn : n < 3329) :
    ((decompress (compress n 4) 4 - n : ℤ) : ZMod 3329).valMinAbs.natAbs ≤ 104 ∧
      ((decompress (compress n 10) 10 - n : ℤ) : ZMod 3329).valMinAbs.natAbs ≤ 2 := by
  have hu32 : ∀ m : ℕ, m < 2 ^ 31 → asU32 (m : ℤ) = m := by
    intro m hm
    exact asU32_of_nonneg (by omega) (by omega)
  have hvalue : ∀ d : ℕ, d < 12 → decompress (compress n d) d =
      (((n * 2 ^ d + 3329 / 2) / 3329 % 2 ^ d * 3329 + 2 ^ (d - 1)) / 2 ^ d : ℕ) := by
    intro d hd
    have hlt : (n * 2 ^ d + 3329 / 2) / 3329 % 2 ^ d < 2 ^ d := Nat.mod_lt _ (by positivity)
    have hpow : 2 ^ d ≤ 2 ^ 11 := Nat.pow_le_pow_right (by norm_num) (by omega)
    have hprod : n * 2 ^ d ≤ 3329 * 2 ^ 11 := Nat.mul_le_mul hn.le hpow
    rw [compress, hu32 n (by omega), Nat.shiftLeft_eq, Nat.mod_eq_of_lt (a := n * 2 ^ d) (by omega),
      decompress, hu32 _ (by omega), Nat.shiftLeft_eq, Nat.shiftRight_eq_div_pow, one_mul]
  rw [hvalue 4 (by norm_num), hvalue 10 (by norm_num)]
  constructor
  · by_cases hwrap : n < 3225
    · rw [Nat.mod_eq_of_lt (show (n * 2 ^ 4 + 3329 / 2) / 3329 < 2 ^ 4 by omega)]
      exact natAbs_valMinAbs_le (by norm_num) (by omega) (.inl rfl)
    · -- residues just below the modulus are rounded to zero
      rw [show (n * 2 ^ 4 + 3329 / 2) / 3329 = 2 ^ 4 by omega]
      exact natAbs_valMinAbs_le (e := 3329 - n) (by norm_num) (by omega) (.inr (by omega))
  · by_cases hwrap : n < 3328
    · rw [Nat.mod_eq_of_lt (show (n * 2 ^ 10 + 3329 / 2) / 3329 < 2 ^ 10 by omega)]
      exact natAbs_valMinAbs_le (by norm_num) (by omega) (.inl rfl)
    · rw [show (n * 2 ^ 10 + 3329 / 2) / 3329 = 2 ^ 10 by omega]
      exact natAbs_valMinAbs_le (e := 3329 - n) (by norm_num) (by omega) (.inr (by omega))

theorem natAbs_compressionError {f : Poly} (hf : Reduced 3329 f) {i : ℕ} (hi : i < 256) :
    (compressionError f 4 i).valMinAbs.natAbs ≤ 104 ∧
      (compressionError f 10 i).valMinAbs.natAbs ≤ 2 := by
  have hred := hf i hi
  rw [getElem!_pos f i hi] at hred
  obtain ⟨n, hn⟩ := Int.eq_ofNat_of_zero_le hred.1
  have herror : ∀ d, compressionError f d i =
      ((decompress (compress n d) d - n : ℤ) : ZMod 3329) := by
    intro d
    rw [compressionError, coeffs, coeffs, getElem!_pos _ i hi, getElem!_pos f i hi, polyDecompress,
      Vector.getElem_map, polyCompress, Vector.getElem_map, hn, Int.cast_sub]
  rw [herror, herror]
  exact natAbs_decompress_compress (by omega)

/-- With all small polynomials the constant `1`, what is left of the noise is compression. -/
theorem natAbs_noise_unit {u : PolyVec} {v : Poly} (hu : ∀ j, Reduced 3329 (u j))
    (hv : Reduced 3329 v) {i : ℕ} (hi : i < 256) :
    (noise (fun _ => unitPoly) (fun _ => unitPoly) (fun _ => unitPoly) (fun _ => unitPoly) unitPoly
      u v i).valMinAbs.natAbs ≤ 831 := by
  have hunit : ∀ g : ℕ → ZMod 3329, ringMul 256 (-1) (coeffs 3329 unitPoly) g i = g i :=
    fun g => ringMul_unit (-1) g (fun j hj => coeffs_unitPoly hj) hi
  have hnoise : noise (fun _ => unitPoly) (fun _ => unitPoly) (fun _ => unitPoly)
      (fun _ => unitPoly) unitPoly u v i = ((if i = 0 then 1 else 0) +
        (compressionError v 4 i).valMinAbs - (compressionError (u 0) 10 i).valMinAbs -
        (compressionError (u 1) 10 i).valMinAbs - (compressionError (u 2) 10 i).valMinAbs : ℤ) := by
    rw [noise]
    simp only [hunit, Fin.sum_univ_three, coeffs_unitPoly hi]
    push_cast
    ring
  have herror := (natAbs_compressionError hv hi).1
  have h0 := (natAbs_compressionError (hu 0) hi).2
  have h1 := (natAbs_compressionError (hu 1) hi).2
  have h2 := (natAbs_compressionError (hu 2) hi).2
  rw [hnoise]
  refine natAbs_valMinAbs_le (by norm_num) ?_ (.inl rfl)
  split <;> omega

/-- A stream in which every candidate is accepted fills a polynomial. -/
theorem sampleNttLoop_ones (fuel pos count : ℕ) (a : Poly) (h : 256 ≤ count + 2 * fuel) :
    ∃ r, sampleNttLoop (fun _ => 1) fuel pos a count = some r := by
  induction fuel generalizing pos count a with
  | zero => exact ⟨a, by rw [sampleNttLoop, if_neg (by omega)]⟩
  | succ fuel ih =>
    rw [sampleNttLoop]
    split
    · have h1 : (((1 : UInt8).toNat + 256 * ((1 : UInt8).toNat &&& 0x0f) : ℕ) : ℤ) < q := by decide
      have h2 : ((((1 : UInt8).toNat >>> 4) + 16 * (1 : UInt8).toNat : ℕ) : ℤ) < q := by decide
      simp only [h1, h2, if_true, true_and]
      split
      · exact ih _ _ _ (by omega)
      · exact ih _ _ _ (by omega)
    · exact ⟨a, rfl⟩

/-- The bytes from `n` on. -/
def countFrom (n : ℕ) : ByteArr 32 :=
  ⟨(List.range 32).map fun i => UInt8.ofNat (n + i), by simp⟩

/-- Keys, mask and errors of ones under a matrix without zeros: the noise stays in bounds and the
secret is recovered. -/
theorem decapsulate_correct_units : ∃ kp ct shared,
    keygenInternal Sponge.units 128 (countFrom 0) (countFrom 32) = some kp ∧
    encapsInternal Sponge.units 128 kp.ek (countFrom 64) = some (ct, shared) ∧
    decapsulate Sponge.units 128 kp.dk ct = some shared := by
  obtain ⟨row, hrow⟩ := sampleNttLoop_ones 128 0 0 zeroPoly (by decide)
  have hmatrix : ∀ rho, genMatrix Sponge.units 128 rho false = some fun _ _ => row := by
    intro rho
    rw [genMatrix_eq_some]
    intro i j
    rw [if_neg (by decide), sampleNtt]
    exact hrow
  obtain ⟨kp, hk⟩ : ∃ kp,
      keygenInternal Sponge.units 128 (countFrom 0) (countFrom 32) = some kp := by
    simp only [keygenInternal, pkeKeygen, hmatrix, Option.bind_eq_bind, Option.bind_some,
      Option.pure_def]
    exact ⟨_, rfl⟩
  obtain ⟨rand, u, v, ct, shared, -, huv, henc, hdec⟩ :=
    (decapsulate_correct Sponge.units le_rfl hk).1 (countFrom 64)
  refine ⟨kp, ct, shared, hk, henc, hdec fun i hi => ?_⟩
  obtain ⟨a, tHat, ha, ht, hek, -⟩ := keygenInternal_eq_some hk
  have htred : ∀ i, Reduced 3329 (tHat i) := by
    intro i
    rw [ht]
    exact reduced_polyAdd _ _
  rw [hek, pkeUncompressed_key le_rfl ha htred] at huv
  rw [maskedPair] at huv
  obtain ⟨mu, -, huv⟩ := Option.bind_eq_some_iff.mp huv
  obtain ⟨rfl, rfl⟩ := Prod.mk.inj (Option.some.inj huv)
  have hs : secret Sponge.units (seeds Sponge.units (countFrom 0)).2 = fun _ => unitPoly :=
    funext fun n => small_units _ n
  have he : error Sponge.units (seeds Sponge.units (countFrom 0)).2 = fun _ => unitPoly :=
    funext fun n => small_units _ (3 + n)
  have hr : mask Sponge.units rand = fun _ => unitPoly := funext fun n => small_units _ n
  have he1 : error1 Sponge.units rand = fun _ => unitPoly := funext fun n => small_units _ (3 + n)
  have he2 : error2 Sponge.units rand = unitPoly := small_units _ 6
  rw [hs, he, hr, he1, he2]
  exact natAbs_noise_unit (fun _ => reduced_polyAdd _ _) (reduced_polyAdd _ _) hi

end MlKem

end Ciphra
