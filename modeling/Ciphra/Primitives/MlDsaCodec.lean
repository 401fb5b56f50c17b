import Ciphra.Primitives.MlDsaHint
import Ciphra.Primitives.MlDsaRounding

/-!
# The encodings of ML-DSA

Coefficients are packed as their distance below a bound (`unpackCentred_packCentred` and
`packCentred_unpackCentred`), vectors polynomial by polynomial, and a signature is a challenge, a
vector and a hint. Every signature that is decoded is the encoding of what it decodes to, and every
triple within the bounds decodes to itself (`signature_canonical`), so a signature cannot be
written in two ways.
-/

namespace Ciphra

namespace MlDsa

/-! ## Polynomials -/

/-- The centred coefficients lie within `w` bits below a bound. -/
def Within (bound : ℤ) (w : ℕ) (p : Poly) : Prop :=
  ∀ (i : ℕ) (hi : i < 256), 0 ≤ bound - center p[i] ∧ bound - center p[i] < 2 ^ w

theorem getElem_ofVals {f : ℕ → ℤ} {vals : List ℕ} {i : ℕ} (hi : i < 256) :
    (ofVals f vals)[i] = f (vals.getD i 0) := Vector.getElem_ofFn hi

theorem map_lt_of_forall {g : ℤ → ℕ} {w : ℕ} {p : Poly}
    (hlt : ∀ (i : ℕ) (hi : i < 256), g p[i] < 2 ^ w) : ∀ v ∈ p.toList.map g, v < 2 ^ w := by
  intro v hv
  obtain ⟨c, hc, rfl⟩ := List.mem_map.mp hv
  obtain ⟨i, hi, rfl⟩ := List.getElem_of_mem hc
  rw [Vector.getElem_toList]
  exact hlt i (by simpa using hi)

theorem length_packBits {g : ℤ → ℕ} {w : ℕ} {p : Poly}
    (hlt : ∀ (i : ℕ) (hi : i < 256), g p[i] < 2 ^ w) :
    (packBits (p.toList.map g) w).length = 32 * w := by
  have hspec := (packBits_spec (map_lt_of_forall hlt) ⟨w * 32, by simp; ring⟩).1
  simp only [List.length_map, Vector.length_toList] at hspec
  omega

/-- Coefficients that are packed as numbers of `w` bits and read back from these. -/
theorem ofVals_unpackBits {g : ℤ → ℕ} {f : ℕ → ℤ} {w : ℕ} {p : Poly}
    (hlt : ∀ (i : ℕ) (hi : i < 256), g p[i] < 2 ^ w)
    (hround : ∀ (i : ℕ) (hi : i < 256), f (g p[i]) = p[i]) :
    (unpackBits (packBits (p.toList.map g) w) w 256).map (ofVals f) = some p := by
  have hlen : (p.toList.map g).length = 256 := by simp
  have hrun := unpackBits_packBits (map_lt_of_forall hlt) (by rw [hlen]; exact ⟨w * 32, by ring⟩)
  rw [hlen] at hrun
  rw [hrun, Option.map_some, Option.some.injEq]
  refine Vector.ext fun i hi => ?_
  rw [getElem_ofVals hi, List.getD_eq_getElem _ _ (by simpa using hi), List.getElem_map,
    Vector.getElem_toList, hround i hi]

/-- A coefficient within `w` bits below the bound is packed as its distance from it. -/
theorem Within.asU32 {bound : ℤ} {w : ℕ} (hw : w ≤ 32) {p : Poly} (h : Within bound w p) (i : ℕ)
    (hi : i < 256) : asU32 (bound - center p[i]) = (bound - center p[i]).toNat ∧
      asU32 (bound - center p[i]) < 2 ^ w := by
  have hpow : (2 : ℤ) ^ w ≤ 2 ^ 32 := pow_le_pow_right₀ (by decide) hw
  have heq := asU32_of_nonneg (h i hi).1 ((h i hi).2.trans_le hpow)
  refine ⟨heq, ?_⟩
  rw [heq, Int.toNat_lt (h i hi).1]
  exact_mod_cast (h i hi).2

theorem length_packCentred {bound : ℤ} {w : ℕ} (hw : w ≤ 32) {p : Poly}
    (hwithin : Within bound w p) : (packCentred bound w p).length = 32 * w :=
  length_packBits fun i hi => (hwithin.asU32 hw i hi).2

theorem unpackCentred_packCentred {bound : ℤ} {w : ℕ} (hw : w ≤ 32) {p : Poly} (hp : Reduced Q p)
    (hwithin : Within bound w p) : unpackCentred bound w (packCentred bound w p) = some p := by
  refine ofVals_unpackBits (fun i hi => (hwithin.asU32 hw i hi).2) fun i hi => ?_
  have hmem := hp i hi
  rw [getElem!_pos p i hi] at hmem
  rw [(hwithin.asU32 hw i hi).1, Int.toNat_of_nonneg (hwithin i hi).1, sub_sub_cancel,
    mod_center hmem]

/-- Packed coefficients unpack to representatives within the bounds, and pack to the same bytes. -/
theorem packCentred_unpackCentred {bound : ℤ} {w : ℕ} (hw : w ≤ 32) (hhi : bound ≤ 4190208)
    (hlo : 2 ^ w - bound ≤ 4190208) {data : Bytes} (hlen : data.length = 32 * w) {p : Poly}
    (h : unpackCentred bound w data = some p) :
    packCentred bound w p = data ∧ Reduced Q p ∧ Within bound w p := by
  obtain ⟨vals, hvals, rfl⟩ := Option.map_eq_some_iff.mp h
  have hpow : (2 : ℤ) ^ w ≤ 2 ^ 32 := pow_le_pow_right₀ (by decide) hw
  have hfit : 8 * data.length = w * 256 := by
    rw [hlen]
    ring
  have hdigits : vals = (List.range 256).map (digit w (leNat data)) :=
    Option.some.inj (hvals.symm.trans (unpackBits_eq hfit.ge))
  have hcount : vals.length = 256 := by
    rw [hdigits, List.length_map, List.length_range]
  have hlt : ∀ v ∈ vals, (v : ℤ) < 2 ^ w := by
    intro v hv
    rw [hdigits] at hv
    obtain ⟨i, -, rfl⟩ := List.mem_map.mp hv
    exact_mod_cast digit_lt w (leNat data) i
  have hcoeff : ∀ (i : ℕ) (hi : i < 256),
      center (ofVals (fun v => (bound - v) % q) vals)[i] = bound - (vals[i] : ℕ) := by
    intro i hi
    have hv := hlt vals[i] (List.getElem_mem _)
    rw [getElem_ofVals hi, List.getD_eq_getElem _ _ (by omega)]
    exact center_mod (abs_le.mpr ⟨by omega, by omega⟩)
  have hwithin : Within bound w (ofVals (fun v => (bound - v) % q) vals) := by
    intro i hi
    rw [hcoeff i hi, sub_sub_cancel]
    exact ⟨Int.natCast_nonneg _, hlt _ (List.getElem_mem _)⟩
  refine ⟨?_, reduced_ofFn fun i => mod_mem _, hwithin⟩
  have hsame : (ofVals (fun v => (bound - v) % q) vals).toList.map
      (fun c => asU32 (bound - center c)) = vals := by
    refine List.ext_getElem (by simp [hcount]) fun i hi hi' => ?_
    have hi256 : i < 256 := by omega
    rw [List.getElem_map, Vector.getElem_toList, hcoeff i hi256, sub_sub_cancel,
      asU32_of_nonneg (Int.natCast_nonneg _) ((hlt _ (List.getElem_mem _)).trans_le hpow),
      Int.toNat_natCast]
  rw [packCentred, hsame, packBits_unpackBits hfit hvals]

/-! ## Vectors -/

theorem decodeAll_encodeAll {n : ℕ} {pack : Poly → Bytes} {unpack : Bytes → Option Poly}
    {stride : ℕ} {v : Fin n → Poly} (hlen : ∀ i, (pack (v i)).length = stride)
    (hround : ∀ i, unpack (pack (v i)) = some (v i)) (a c : Bytes) {off : ℕ}
    (hoff : off = a.length) :
    decodeAll unpack stride off (a ++ encodeAll pack v ++ c) = some v := by
  refine gather_eq_some.mpr fun i => ?_
  rw [encodeAll, hoff, slice_flatMap (fun i => pack (v i)) stride hlen a c i]
  exact hround i

theorem flatMap_chunks (b : Bytes) (off stride n : ℕ) :
    ((List.range n).flatMap fun i => (b.drop (off + stride * i)).take stride) =
      (b.drop off).take (stride * n) := by
  induction n with
  | zero => simp
  | succ n ih =>
    rw [List.range_succ, List.flatMap_append, ih, List.flatMap_singleton, mul_add_one, List.take_add,
      List.drop_drop]

theorem decodeAll_eq_some {n : ℕ} {unpack : Bytes → Option Poly} {stride off : ℕ} {data : Bytes}
    {v : Fin n → Poly} (h : decodeAll unpack stride off data = some v) (i : Fin n) :
    ∃ chunk, chunk = (data.drop (off + stride * i)).take stride ∧ chunk.length = stride ∧
      unpack chunk = some (v i) := by
  obtain ⟨chunk, hslice, hunpack⟩ := Option.bind_eq_some_iff.mp (gather_eq_some.mp h i)
  unfold slice at hslice
  split at hslice
  · next hcond =>
    have hsub : off + stride * (i + 1) - (off + stride * i) = stride := by
      rw [mul_add_one]
      omega
    rw [hsub] at hslice
    refine ⟨chunk, (Option.some.inj hslice).symm, ?_, hunpack⟩
    rw [← Option.some.inj hslice, List.length_take, List.length_drop]
    rw [mul_add_one] at hcond
    omega
  · cases hslice

/-- What was decoded is encoded as the bytes it was decoded from. -/
theorem encodeAll_of_decodeAll {n : ℕ} {pack : Poly → Bytes} {unpack : Bytes → Option Poly}
    {stride off : ℕ} {data : Bytes} {v : Fin n → Poly}
    (hround : ∀ chunk p, chunk.length = stride → unpack chunk = some p → pack p = chunk)
    (h : decodeAll unpack stride off data = some v) :
    encodeAll pack v = (data.drop off).take (stride * n) := by
  have hchunk : ∀ i : Fin n, pack (v i) = (data.drop (off + stride * i)).take stride := by
    intro i
    obtain ⟨chunk, hchunk, hlen, hunpack⟩ := decodeAll_eq_some h i
    rw [hround chunk (v i) hlen hunpack, hchunk]
  rw [encodeAll, ← flatMap_chunks, List.flatMap_congr fun i _ => hchunk i,
    ← List.map_coe_finRange_eq_range, List.flatMap_map]

theorem decodeAll_isSome {n : ℕ} {unpack : Bytes → Option Poly} {stride off : ℕ} {data : Bytes}
    (hfit : off + stride * n ≤ data.length)
    (hsome : ∀ chunk, chunk.length = stride → (unpack chunk).isSome) :
    ∃ v : Fin n → Poly, decodeAll unpack stride off data = some v := by
  have hpart : ∀ i : Fin n, ∃ p, (do
      let chunk ← slice data (off + stride * i) (off + stride * (i + 1))
      unpack chunk) = some p := by
    intro i
    have hle : stride * (i + 1) ≤ stride * n := Nat.mul_le_mul_left _ i.isLt
    rw [slice, if_pos ⟨by rw [mul_add_one]; omega, by omega⟩]
    refine Option.isSome_iff_exists.mp (hsome _ ?_)
    rw [List.length_take, List.length_drop]
    rw [mul_add_one] at hle ⊢
    omega
  choose v hv using hpart
  exact ⟨v, gather_eq_some.mpr hv⟩

/-! ## Signatures -/

namespace Checked

/-- `unpackZ`, which reads 256 values of what was unpacked. -/
def unpackZ (data : Bytes) : Option Poly := do
  let vals ← unpackBits data 20 256
  if vals.length < 256 then none else some (ofVals (fun v => (gamma1 - v) % q) vals)

def sigDecode (sig : Bytes) : Except Halt (Bytes × VecL × VecK) := do
  let cTilde ← inRange (slice sig 0 48)
  let z ← inRange (decodeAll unpackZ 640 48 sig)
  let hint ← inRange (slice sig 3248 (3248 + omega + 6))
  let hint ← hintDecode hint
  .ok (cTilde, z, hint)

theorem unpackZ_eq : unpackZ = MlDsa.unpackZ := by
  funext data
  rw [unpackZ, MlDsa.unpackZ, unpackCentred]
  cases h : unpackBits data 20 256 with
  | none => rfl
  | some vals =>
    rw [Option.bind_eq_bind, Option.bind_some, Option.map_some,
      if_neg (by rw [length_unpackBits h]; decide)]

end Checked

/-- What a signature can hold: a challenge of 48 bytes, coefficients in `(-gamma1, gamma1]` and a
hint of zeros and at most `omega` ones. -/
structure Encodable (cTilde : Bytes) (z : VecL) (hint : VecK) : Prop where
  length_challenge : cTilde.length = 48
  reduced : ∀ i, Reduced Q (z i)
  bounded : ∀ (i : Fin 5) (j : ℕ) (hj : j < 256),
    -gamma1 < center (z i)[j] ∧ center (z i)[j] ≤ gamma1
  binary : ∀ i, Binary (hint i)
  ones_le : ones hint ≤ omega

theorem length_positions (p : Poly) : (positions p).length = p.toList.countP (· ≠ 0) := by
  have hlist : p.toList = (List.range 256).map fun j => p[j]! := by
    refine List.ext_getElem (by simp) fun j hj hj' => ?_
    rw [List.getElem_map, List.getElem_range, Vector.getElem_toList, getElem!_pos p j (by simpa using hj')]
  rw [hlist, List.countP_map, positions, List.countP_eq_length_filter]
  rfl

theorem ones_eq (hint : VecK) : ones hint = (placed hint 6).length := by
  rw [ones, placed, List.take_of_length_le (by simp), List.length_flatMap, List.ofFn_eq_map]
  simp only [length_positions]

theorem within_gamma1 {p : Poly} : Within gamma1 20 p ↔
    ∀ (j : ℕ) (hj : j < 256), -gamma1 < center p[j] ∧ center p[j] ≤ gamma1 := by
  refine forall₂_congr fun j hj => ?_
  have hpow : (2 : ℤ) ^ 20 = 2 * gamma1 := by decide
  rw [hpow]
  omega

theorem packZ_of_unpackZ {chunk : Bytes} {p : Poly} (hlen : chunk.length = 640)
    (h : unpackZ chunk = some p) : packZ p = chunk ∧ Reduced Q p ∧ Within gamma1 20 p :=
  packCentred_unpackCentred (by decide) (by decide) (by decide) hlen h

theorem length_sigEncode {cTilde : Bytes} {z : VecL} {hint : VecK} (h : Encodable cTilde z hint) :
    (encodeAll packZ z).length = 3200 ∧ (sigEncode cTilde z hint).length = 3309 := by
  have hz : ∀ i, (packZ (z i)).length = 640 := fun i =>
    length_packCentred (by decide) (within_gamma1.mpr (h.bounded i))
  have hall : (encodeAll packZ z).length = 3200 := by
    rw [encodeAll, List.length_flatMap, List.map_congr_left fun i _ => hz i]
    simp
  refine ⟨hall, ?_⟩
  have hhint := length_hintBytes (ones_eq hint ▸ h.ones_le)
  rw [sigEncode, hintEncode_eq (ones_eq hint ▸ h.ones_le), List.length_append, List.length_append,
    hall, hhint, h.length_challenge]
  rfl

/-- Exactly the encodings are decoded. -/
theorem sigDecode_eq_some_iff {sig : Bytes} (hlen : sig.length = 3309) {cTilde : Bytes} {z : VecL}
    {hint : VecK} : sigDecode sig = some (some (cTilde, z, hint)) ↔
      Encodable cTilde z hint ∧ sig = sigEncode cTilde z hint := by
  have hcond : (0 ≤ 48 ∧ 48 ≤ sig.length) ∧ 3248 ≤ 3248 + omega + 6 ∧ 3248 + omega + 6 ≤ sig.length := by
    rw [hlen]
    decide
  rw [sigDecode, slice, if_pos hcond.1, slice, if_pos hcond.2]
  simp only [Option.bind_eq_bind, Option.bind_some, Option.bind_eq_some_iff, Option.pure_def,
    Option.some.injEq, Option.map_eq_some_iff, Prod.mk.injEq, List.drop_zero, Nat.sub_zero]
  have hhintLen : ((sig.drop 3248).take (3248 + omega + 6 - 3248)).length = omega + 6 := by
    rw [List.length_take, List.length_drop, hlen]
    rfl
  have hall : (sig.drop 3248).take (3248 + omega + 6 - 3248) = sig.drop 3248 :=
    List.take_of_length_le (by rw [List.length_drop, hlen]; decide)
  constructor
  · rintro ⟨z', hz, v, hdecode, rfl, rfl, rfl⟩
    obtain ⟨hbinary, hplaced, hbytes⟩ := (hintDecode_eq_some_iff hhintLen).mp hdecode
    have hchunk : ∀ i, Reduced Q (z' i) ∧ Within gamma1 20 (z' i) := by
      intro i
      obtain ⟨chunk, -, hchunkLen, hunpack⟩ := decodeAll_eq_some hz i
      exact (packZ_of_unpackZ hchunkLen hunpack).2
    have henc : encodeAll packZ z' = (sig.drop 48).take 3200 :=
      encodeAll_of_decodeAll (fun _ _ hl h => (packZ_of_unpackZ hl h).1) hz
    refine ⟨⟨?_, fun i => (hchunk i).1, fun i => within_gamma1.mp (hchunk i).2, hbinary,
      (ones_eq v).trans_le hplaced⟩, ?_⟩
    · rw [List.length_take, hlen]
      rfl
    · rw [sigEncode, hintEncode_eq hplaced, ← hbytes, hall, henc, List.append_assoc,
        ← List.drop_drop (i := 3200) (j := 48), List.take_append_drop, List.take_append_drop]
  · rintro ⟨h, rfl⟩
    have hplaced : (placed hint 6).length ≤ omega := ones_eq hint ▸ h.ones_le
    have hz : ∀ i, (packZ (z i)).length = 640 := fun i =>
      length_packCentred (by decide) (within_gamma1.mpr (h.bounded i))
    have hround : ∀ i, unpackZ (packZ (z i)) = some (z i) := fun i =>
      unpackCentred_packCentred (by decide) (h.reduced i) (within_gamma1.mpr (h.bounded i))
    refine ⟨z, decodeAll_encodeAll hz hround cTilde _ h.length_challenge.symm, hint, ?_, ?_, rfl, rfl⟩
    · have hdrop : (sigEncode cTilde z hint).drop 3248 = hintEncode hint :=
        List.drop_left' (by
          rw [List.length_append, h.length_challenge, (length_sigEncode h).1])
      rw [hall, hdrop, hintEncode_eq hplaced]
      exact (hintDecode_eq_some_iff (length_hintBytes hplaced)).mpr ⟨h.binary, hplaced, rfl⟩
    · rw [sigEncode, List.append_assoc, List.take_left' h.length_challenge]

/-- Decoding a string of the length of a signature finds every index in range. -/
theorem checked_sigDecode {sig : Bytes} (hlen : sig.length = 3309) :
    ∃ r, sigDecode sig = some r ∧ Checked.sigDecode sig = Checked.orRefuse r := by
  have hc : slice sig 0 48 = some (sig.take 48) := if_pos ⟨by decide, by rw [hlen]; decide⟩
  have hhint : slice sig 3248 (3248 + omega + 6) =
      some ((sig.drop 3248).take (3248 + omega + 6 - 3248)) :=
    if_pos ⟨by decide, by rw [hlen]; decide⟩
  have hhintLen : ((sig.drop 3248).take (3248 + omega + 6 - 3248)).length = omega + 6 := by
    rw [List.length_take, List.length_drop, hlen]
    rfl
  obtain ⟨z, hz⟩ : ∃ z : VecL, decodeAll unpackZ 640 48 sig = some z := by
    refine decodeAll_isSome (by omega) fun chunk hchunk => ?_
    rw [unpackZ, unpackCentred, unpackBits_eq (by rw [hchunk])]
    rfl
  refine ⟨(hintDecode ((sig.drop 3248).take (3248 + omega + 6 - 3248))).map
    fun hint => (sig.take 48, z, hint), ?_, ?_⟩
  · rw [sigDecode, hc, hz, hhint]
    rfl
  · rw [Checked.sigDecode, hc, Checked.unpackZ_eq, hz, hhint]
    change (Checked.hintDecode _ >>= fun hint => _) = _
    rw [Checked.hintDecode_eq hhintLen]
    cases hintDecode ((sig.drop 3248).take (3248 + omega + 6 - 3248)) with
    | none => rfl
    | some hint => rfl

/-- Signatures are encoded in one way: what is decoded encodes to the bytes it came from, and what
can be encoded decodes to itself. -/
theorem signature_canonical :
    (∀ sig : Bytes, sig.length = 3309 →
      ∃ r, sigDecode sig = some r ∧ Checked.sigDecode sig = Checked.orRefuse r ∧
        ∀ cTilde z hint, r = some (cTilde, z, hint) →
          Encodable cTilde z hint ∧ sigEncode cTilde z hint = sig) ∧
      (∀ cTilde z hint, Encodable cTilde z hint →
        Checked.hintEncode hint = some (hintEncode hint) ∧
          (sigEncode cTilde z hint).length = 3309 ∧
          sigDecode (sigEncode cTilde z hint) = some (some (cTilde, z, hint))) ∧
      ∀ sig sig' r, sig.length = 3309 → sig'.length = 3309 → sigDecode sig = some (some r) →
        sigDecode sig' = some (some r) → sig = sig' := by
  refine ⟨fun sig hlen => ?_, fun cTilde z hint h => ?_, fun sig sig' r hlen hlen' h h' => ?_⟩
  · obtain ⟨r, hr, hchecked⟩ := checked_sigDecode hlen
    refine ⟨r, hr, hchecked, fun cTilde z hint heq => ?_⟩
    obtain ⟨henc, hsig⟩ := (sigDecode_eq_some_iff hlen).mp (hr.trans (congrArg some heq))
    exact ⟨henc, hsig.symm⟩
  · have hplaced : (placed hint 6).length ≤ omega := ones_eq hint ▸ h.ones_le
    refine ⟨by rw [checked_hintEncode hplaced, hintEncode_eq hplaced], (length_sigEncode h).2, ?_⟩
    exact (sigDecode_eq_some_iff (length_sigEncode h).2).mpr ⟨h, rfl⟩
  · obtain ⟨cTilde, z, hint⟩ := r
    rw [((sigDecode_eq_some_iff hlen).mp h).2, ((sigDecode_eq_some_iff hlen').mp h').2]

/-- Vectors with small coefficients of both signs, and hints with three ones in each polynomial. -/
def sampleZ (i : Fin 5) : Poly := Vector.ofFn fun j => if j.1 % 2 = 0 then i.1 + j.1 else q - 1 - j.1

def sampleHint (i : Fin 6) : Poly := onesAt [i.1, 100 + i.1, 200 + i.1]

theorem encodable_sample :
    Encodable ((List.range 48).map UInt8.ofNat) sampleZ sampleHint := by
  have hz : ∀ (i : Fin 5) (j : ℕ) (hj : j < 256),
      (sampleZ i)[j] = if j % 2 = 0 then (i.1 + j : ℤ) else q - 1 - j :=
    fun i j hj => Vector.getElem_ofFn hj
  refine ⟨by simp, fun i j hj => ?_, fun i j hj => ?_, fun i => binary_onesAt (by simp; omega),
    by decide +kernel⟩
  · rw [getElem!_pos _ j hj, hz i j hj]
    simp only [q, Q]
    split <;> omega
  · rw [hz i j hj]
    simp only [center, gamma1, q]
    split <;> split <;> omega

/-- The encoding of the sample is decoded again. -/
theorem sigDecode_sample :
    sigDecode (sigEncode ((List.range 48).map UInt8.ofNat) sampleZ sampleHint) =
      some (some ((List.range 48).map UInt8.ofNat, sampleZ, sampleHint)) :=
  (signature_canonical.2.1 _ _ _ encodable_sample).2.2

end MlDsa

end Ciphra
