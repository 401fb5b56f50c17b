import Ciphra.Primitives.MlDsaRounding

/-!
# What the samplers of ML-DSA return

The challenge has a sum of absolute values of at most 49, the secret polynomials have coefficients
in `[-4, 4]`, and the masks are reduced. A sampler that has had enough squeezes returns the same
with more of them.
-/

namespace Ciphra

namespace MlDsa

/-! ## More squeezes -/

theorem pickIndex_succ {xof : ℕ → UInt8} {i fuel pos : ℕ} {r : ℕ × ℕ}
    (h : pickIndex xof i fuel pos = some r) : pickIndex xof i (fuel + 1) pos = some r := by
  induction fuel generalizing pos with
  | zero => cases h
  | succ fuel ih =>
    rw [pickIndex] at h ⊢
    split at h
    · next hle => rw [if_pos hle, h]
    · next hgt =>
      rw [if_neg hgt]
      exact ih h

theorem foldlM_mono {σ ι : Type*} {f g : σ → ι → Option σ}
    (h : ∀ s i t, f s i = some t → g s i = some t) {l : List ι} {s t : σ}
    (hrun : l.foldlM f s = some t) : l.foldlM g s = some t := by
  induction l generalizing s with
  | nil => exact hrun
  | cons i l ih =>
    rw [List.foldlM_cons] at hrun ⊢
    obtain ⟨s', hround, hrest⟩ := Option.bind_eq_some_iff.mp hrun
    rw [h s i s' hround]
    exact ih hrest

theorem ballStep_succ {xof : ℕ → UInt8} {fuel signs bit : ℕ} {s t : Poly × ℕ}
    (h : ballStep fuel xof signs s bit = some t) :
    ballStep (fuel + 1) xof signs s bit = some t := by
  rw [ballStep] at h ⊢
  obtain ⟨r, hr, h⟩ := Option.bind_eq_some_iff.mp h
  rw [pickIndex_succ hr]
  exact h

theorem sampleInBall_mono (S : Sponge) {fuel fuel' : ℕ} (hle : fuel ≤ fuel') {seed : Bytes}
    {p : Poly} (h : sampleInBall S fuel seed = some p) : sampleInBall S fuel' seed = some p := by
  induction fuel', hle using Nat.le_induction with
  | base => exact h
  | succ n _ ih =>
    rw [sampleInBall] at ih ⊢
    obtain ⟨s, hrun, h⟩ := Option.bind_eq_some_iff.mp ih
    rw [foldlM_mono (fun _ _ _ => ballStep_succ) hrun]
    exact h

theorem rejNttLoop_succ (xof : ℕ → UInt8) {fuel pos ctr : ℕ} {p r : Poly}
    (h : rejNttLoop xof fuel pos p ctr = some r) :
    rejNttLoop xof (fuel + 1) pos p ctr = some r := by
  induction fuel generalizing pos ctr p with
  | zero =>
    rw [rejNttLoop] at h
    split at h
    · cases h
    · next hctr => rw [rejNttLoop, if_neg hctr, h]
  | succ fuel ih =>
    rw [rejNttLoop] at h
    split at h
    · next hctr =>
      rw [rejNttLoop, if_pos hctr]
      simp only at h ⊢
      split at h
      · next hlt =>
        rw [if_pos hlt]
        exact ih h
      · next hge =>
        rw [if_neg hge]
        exact ih h
    · next hctr => rw [rejNttLoop, if_neg hctr, h]

theorem rejNttPoly_mono (S : Sponge) {fuel fuel' : ℕ} (hle : fuel ≤ fuel') {rho : Bytes}
    {j i : UInt8} {p : Poly} (h : rejNttPoly S fuel rho j i = some p) :
    rejNttPoly S fuel' rho j i = some p := by
  induction fuel', hle using Nat.le_induction with
  | base => exact h
  | succ n _ ih => exact rejNttLoop_succ _ ih

theorem expandA_eq_some {S : Sponge} {fuel : ℕ} {rho : Bytes} {a : Fin 6 → VecL} :
    expandA S fuel rho = some a ↔
      ∀ (i : Fin 6) (j : Fin 5),
        rejNttPoly S fuel rho (UInt8.ofNat j) (UInt8.ofNat i) = some (a i j) := by
  rw [expandA, gather_eq_some]
  exact forall_congr' fun i => gather_eq_some

theorem expandA_mono (S : Sponge) {fuel fuel' : ℕ} (hle : fuel ≤ fuel') {rho : Bytes}
    {a : Fin 6 → VecL} (h : expandA S fuel rho = some a) : expandA S fuel' rho = some a := by
  rw [expandA_eq_some] at h ⊢
  exact fun i j => rejNttPoly_mono S hle (h i j)

/-! ## The challenge -/

theorem norm1_set! (p : Poly) {k : ℕ} (hk : k < 256) (x : ℤ) :
    norm1 (p.set! k x) = norm1 p - |center p[k]!| + |center x| := by
  have hmem : k ∈ Finset.range 256 := Finset.mem_range.mpr hk
  have hrest : ∑ j ∈ (Finset.range 256).erase k, |center (p.set! k x)[j]!| =
      ∑ j ∈ (Finset.range 256).erase k, |center p[j]!| := by
    refine Finset.sum_congr rfl fun j hj => ?_
    rw [getElem!_set! p j k x hk, if_neg (Finset.ne_of_mem_erase hj)]
  rw [norm1, norm1, ← Finset.add_sum_erase _ _ hmem, ← Finset.add_sum_erase _ _ hmem, hrest,
    getElem!_set! p k k x hk, if_pos rfl]
  ring

theorem pickIndex_le {xof : ℕ → UInt8} {i fuel pos : ℕ} {r : ℕ × ℕ}
    (h : pickIndex xof i fuel pos = some r) : r.1 ≤ i := by
  induction fuel generalizing pos with
  | zero => cases h
  | succ fuel ih =>
    rw [pickIndex] at h
    split at h
    · next hle =>
      obtain rfl := Option.some.inj h
      exact hle
    · exact ih h

/-- A step moves one coefficient and sets one, so the norm grows by at most 1. -/
theorem norm1_ballStep {xof : ℕ → UInt8} {fuel signs bit : ℕ} (hbit : bit < 49) {s t : Poly × ℕ}
    (h : ballStep fuel xof signs s bit = some t) : norm1 t.1 ≤ norm1 s.1 + 1 := by
  rw [ballStep] at h
  obtain ⟨⟨j, pos⟩, hpick, h⟩ := Option.bind_eq_some_iff.mp h
  have hj : j ≤ 207 + bit := pickIndex_le hpick
  obtain rfl := Option.some.inj h
  have hsign : |center (if (signs >>> bit) &&& 1 = 1 then q - 1 else 1)| = 1 := by
    split <;> decide
  simp only
  rw [norm1_set! _ (by omega), norm1_set! _ (by omega), hsign,
    getElem!_set! _ j (207 + bit) _ (by omega)]
  have h0 : 0 ≤ |center s.1[207 + bit]!| := abs_nonneg _
  split
  · omega
  · omega

theorem norm1_zeroPoly : norm1 zeroPoly = 0 := by
  refine Finset.sum_eq_zero fun j hj => ?_
  have hzero : zeroPoly[j]! = 0 := by
    rw [getElem!_pos zeroPoly j (Finset.mem_range.mp hj)]
    simp [zeroPoly]
  rw [hzero]
  decide

theorem norm1_sampleInBall {S : Sponge} {fuel : ℕ} {seed : Bytes} {p : Poly}
    (h : sampleInBall S fuel seed = some p) : norm1 p ≤ 49 := by
  rw [sampleInBall] at h
  obtain ⟨s, hrun, h⟩ := Option.bind_eq_some_iff.mp h
  obtain rfl := Option.some.inj h
  have hloop : ∀ n ≤ 49, ∀ t, (List.range n).foldlM (ballStep fuel (S.shake256 seed)
      (leNat (squeeze (S.shake256 seed) 0 8).1)) (zeroPoly, 8) = some t → norm1 t.1 ≤ n := by
    intro n hn
    induction n with
    | zero =>
      intro t ht
      obtain rfl := Option.some.inj ht
      exact norm1_zeroPoly.le
    | succ n ih =>
      intro t ht
      rw [List.range_succ, List.foldlM_append] at ht
      obtain ⟨u, hu, hstep⟩ := Option.bind_eq_some_iff.mp ht
      rw [List.foldlM_cons] at hstep
      obtain ⟨u', hu', hnil⟩ := Option.bind_eq_some_iff.mp hstep
      obtain rfl := Option.some.inj hnil
      have hprev := ih (by omega) u hu
      have hnext := norm1_ballStep (by omega) hu'
      push_cast
      omega
  exact hloop 49 le_rfl s hrun

/-! ## The secret polynomials -/

/-- Reduced, with centred coefficients in `[-4, 4]`. -/
def Tiny (p : Poly) : Prop := Reduced Q p ∧ ∀ i : ℕ, i < 256 → |center p[i]!| ≤ 4

theorem tiny_zeroPoly : Tiny zeroPoly := by
  refine ⟨reduced_zeroPoly (by decide), fun i hi => ?_⟩
  have hzero : zeroPoly[i]! = 0 := by
    rw [getElem!_pos zeroPoly i hi]
    simp [zeroPoly]
  rw [hzero]
  decide

theorem Tiny.takeNibble {s : Poly × ℕ} (h : Tiny s.1) (nibble : ℕ) :
    Tiny (takeNibble s nibble).1 := by
  unfold MlDsa.takeNibble
  split
  · next hcond =>
    have hcenter : center ((4 - nibble : ℤ) % q) = 4 - nibble :=
      center_mod (abs_le.mpr ⟨by omega, by omega⟩)
    refine ⟨fun i hi => ?_, fun i hi => ?_⟩
    · rw [getElem!_set! _ i s.2 _ hcond.2]
      split
      · exact mod_mem _
      · exact h.1 i hi
    · rw [getElem!_set! _ i s.2 _ hcond.2]
      split
      · rw [hcenter]
        exact abs_le.mpr ⟨by omega, by omega⟩
      · exact h.2 i hi
  · exact h

theorem tiny_rejBoundedLoop {xof : ℕ → UInt8} {fuel pos ctr : ℕ} {p r : Poly} (hp : Tiny p)
    (h : rejBoundedLoop xof fuel pos p ctr = some r) : Tiny r := by
  induction fuel generalizing pos ctr p with
  | zero =>
    rw [rejBoundedLoop] at h
    split at h
    · cases h
    · obtain rfl := Option.some.inj h
      exact hp
  | succ fuel ih =>
    rw [rejBoundedLoop] at h
    split at h
    · exact ih (Tiny.takeNibble (Tiny.takeNibble hp _) _) h
    · obtain rfl := Option.some.inj h
      exact hp

theorem tiny_expandS {S : Sponge} {fuel : ℕ} {rhoPrime : Bytes} {s1 : VecL} {s2 : VecK}
    (h : expandS S fuel rhoPrime = some (s1, s2)) : (∀ j, Tiny (s1 j)) ∧ ∀ i, Tiny (s2 i) := by
  rw [expandS] at h
  obtain ⟨v1, h1, h⟩ := Option.bind_eq_some_iff.mp h
  obtain ⟨v2, h2, h⟩ := Option.bind_eq_some_iff.mp h
  obtain ⟨rfl, rfl⟩ := Prod.mk.inj (Option.some.inj h)
  exact ⟨fun j => tiny_rejBoundedLoop tiny_zeroPoly (gather_eq_some.mp h1 j),
    fun i => tiny_rejBoundedLoop tiny_zeroPoly (gather_eq_some.mp h2 i)⟩

/-! ## The masks -/

theorem reduced_expandMaskPoly {S : Sponge} {rhoPP : Bytes} {nonce : UInt16} {p : Poly}
    (h : expandMaskPoly S rhoPP nonce = some p) : Reduced Q p := by
  obtain ⟨vals, -, rfl⟩ := Option.map_eq_some_iff.mp h
  exact reduced_ofFn fun i => subMod_mem (mod_mem _) (mod_mem _)

end MlDsa

end Ciphra
