import Ciphra.Primitives.MlKemRing
import Mathlib.RingTheory.AdjoinRoot

/-!
# Products in ML-KEM

The array operations are the arithmetic of the quotient ring modulo `X ^ 256 + 1`: on polynomials
with coefficients in `[0, 3329)`, the two transforms are inverse to each other on the nose, and a
product goes through the transform domain (`intt_nttMul_ntt`).

The program has its coefficients in 16 bits and computes with 32. `MlKem.Checked` is the program in
which every value is checked against its width; the checks never fail, because every layer leaves
representatives in `[0, 3329)`.
-/

open Polynomial

namespace Ciphra

namespace MlKem

/-! ## The program with its widths checked -/

namespace Checked

def i16 (x : ℤ) : Option ℤ := if -2 ^ 15 ≤ x ∧ x < 2 ^ 15 then some x else none

def i32 (x : ℤ) : Option ℤ := if -2 ^ 31 ≤ x ∧ x < 2 ^ 31 then some x else none

def reduce (x : ℤ) : Option ℤ := i16 (x % q)

def nttStep (zeta lo hi : ℤ) : Option (ℤ × ℤ) := do
  let zeta ← i16 zeta
  let t ← reduce (← i32 (zeta * hi))
  let up ← reduce (← i32 (lo - t))
  let low ← reduce (← i32 (lo + t))
  some (low, up)

def ntt (f : Poly) : Option Poly := do
  let s ← [128, 64, 32, 16, 8, 4, 2].foldlM
    (layerLoopM (fun i => nttStep zetas[i]!) (· + 1)) (f, 1)
  some s.1

def inttStep (zeta lo hi : ℤ) : Option (ℤ × ℤ) := do
  let zeta ← i16 zeta
  let low ← reduce (← i32 (lo + hi))
  let up ← reduce (← i32 (zeta * (← i32 (hi - lo))))
  some (low, up)

def scale (a : Poly) (i : ℕ) : Option Poly := do
  some (a.set! i (← reduce (← i32 (a[i]! * 3303))))

def intt (f : Poly) : Option Poly := do
  let s ← [2, 4, 8, 16, 32, 64, 128].foldlM
    (layerLoopM (fun i => inttStep zetas[i]!) (· - 1)) (f, 127)
  (List.range 256).foldlM scale s.1

def pair (a b : Poly) (c : Poly) (i : ℕ) : Option Poly := do
  let gamma ← i16 gammas[i]!
  let low ← i32 (a[2 * i]! * b[2 * i]!)
  let high ← i32 (a[2 * i + 1]! * b[2 * i + 1]!)
  let folded ← i32 (high.tmod q * gamma)
  let even ← reduce (← i32 (low + folded))
  let left ← i32 (a[2 * i]! * b[2 * i + 1]!)
  let right ← i32 (a[2 * i + 1]! * b[2 * i]!)
  let odd ← reduce (← i32 (left + right))
  some ((c.set! (2 * i) even).set! (2 * i + 1) odd)

def nttMul (a b : Poly) : Option Poly := (List.range 128).foldlM (pair a b) zeroPoly

/-- A product by way of the transform domain. -/
def product (a b : Poly) : Option Poly := do intt (← nttMul (← ntt a) (← ntt b))

end Checked

/-! ## Ranges -/

/-- A representative. -/
def InRange (x : ℤ) : Prop := 0 ≤ x ∧ x < q

theorem inRange_get {a : Poly} (ha : Reduced 3329 a) (i : ℕ) : InRange a[i]! := by
  by_cases hi : i < 256
  · exact ha i hi
  · rw [getElem!_neg _ i hi]
    exact ⟨le_rfl, by decide⟩

theorem InRange.i16 {x : ℤ} (h : InRange x) : Checked.i16 x = some x := by
  have hq : q = 3329 := rfl
  obtain ⟨h0, h1⟩ := h
  exact if_pos ⟨by omega, by omega⟩

theorem i32_eq {x : ℤ} (h0 : -2 ^ 31 ≤ x) (h1 : x < 2 ^ 31) : Checked.i32 x = some x :=
  if_pos ⟨h0, h1⟩

theorem checked_reduce (x : ℤ) : Checked.reduce x = some (reduce x) :=
  InRange.i16 (reduce_mem x)

/-- Products of representatives are small. -/
theorem InRange.mul {x y : ℤ} (hx : InRange x) (hy : InRange y) :
    0 ≤ x * y ∧ x * y ≤ 11075584 := by
  have hq : q = 3329 := rfl
  obtain ⟨x0, x1⟩ := hx
  obtain ⟨y0, y1⟩ := hy
  refine ⟨mul_nonneg x0 y0, ?_⟩
  calc x * y ≤ 3328 * 3328 := mul_le_mul (by omega) (by omega) y0 (by decide)
    _ = 11075584 := by norm_num

theorem powModLoop_inRange {result base : ℤ} (h : InRange result) (exp : ℕ) :
    InRange (powModLoop q result base exp) := by
  induction exp using Nat.strong_induction_on generalizing result base with
  | _ exp ih =>
    rw [powModLoop]
    split
    · exact h
    · next hne =>
      apply ih (exp / 2) (by omega)
      split
      · exact reduce_mem _
      · exact h

theorem powMod_inRange (base : ℤ) (exp : ℕ) : InRange (powMod base exp) :=
  powModLoop_inRange ⟨by decide, by decide⟩ exp

/-- The entries of the tables are representatives. -/
theorem tables_inRange (i : ℕ) : InRange zetas[i]! ∧ InRange gammas[i]! := by
  by_cases hi : i < 128
  · rw [getElem!_pos zetas i hi, getElem!_pos gammas i hi, zetas, gammas, Vector.getElem_ofFn,
      Vector.getElem_ofFn]
    exact ⟨powMod_inRange _ _, powMod_inRange _ _⟩
  · rw [getElem!_neg zetas i hi, getElem!_neg gammas i hi]
    exact ⟨⟨le_rfl, by decide⟩, ⟨le_rfl, by decide⟩⟩

theorem nttStep_spec {zeta lo hi : ℤ} (hz : InRange zeta) (hlo : InRange lo) (hhi : InRange hi) :
    Checked.nttStep zeta lo hi = some (nttStep zeta lo hi) ∧
      InRange (nttStep zeta lo hi).1 ∧ InRange (nttStep zeta lo hi).2 := by
  have hq : q = 3329 := rfl
  obtain ⟨p0, p1⟩ := hz.mul hhi
  obtain ⟨t0, t1⟩ := reduce_mem (zeta * hi)
  obtain ⟨l0, l1⟩ := hlo
  refine ⟨?_, reduce_mem _, reduce_mem _⟩
  simp only [Checked.nttStep, hz.i16, i32_eq (show -2 ^ 31 ≤ zeta * hi by omega) (by omega),
    checked_reduce, i32_eq (show -2 ^ 31 ≤ lo - reduce (zeta * hi) by omega) (by omega),
    i32_eq (show -2 ^ 31 ≤ lo + reduce (zeta * hi) by omega) (by omega), Option.bind_eq_bind,
    Option.bind_some, nttStep]

theorem inttStep_spec {zeta lo hi : ℤ} (hz : InRange zeta) (hlo : InRange lo) (hhi : InRange hi) :
    Checked.inttStep zeta lo hi = some (inttStep zeta lo hi) ∧
      InRange (inttStep zeta lo hi).1 ∧ InRange (inttStep zeta lo hi).2 := by
  have hq : q = 3329 := rfl
  obtain ⟨p0, p1⟩ := hz.mul hhi
  obtain ⟨s0, s1⟩ := hz.mul hlo
  obtain ⟨l0, l1⟩ := hlo
  obtain ⟨h0, h1⟩ := hhi
  have hsub : zeta * (hi - lo) = zeta * hi - zeta * lo := mul_sub _ _ _
  refine ⟨?_, reduce_mem _, reduce_mem _⟩
  simp only [Checked.inttStep, hz.i16, i32_eq (show -2 ^ 31 ≤ lo + hi by omega) (by omega),
    checked_reduce, i32_eq (show -2 ^ 31 ≤ hi - lo by omega) (by omega),
    i32_eq (show -2 ^ 31 ≤ zeta * (hi - lo) by omega) (by omega), Option.bind_eq_bind,
    Option.bind_some, inttStep]

/-! ## The loops -/

/-- All layers of a transform. -/
theorem layers_spec {f : ℕ → ℤ → ℤ → Option (ℤ × ℤ)} {g : ℕ → ℤ → ℤ → ℤ × ℤ} (next : ℕ → ℕ)
    (h : ∀ k lo hi, InRange lo → InRange hi →
      f k lo hi = some (g k lo hi) ∧ InRange (g k lo hi).1 ∧ InRange (g k lo hi).2)
    (ls : List ℕ) {s : Poly × ℕ} (hs : ∀ i : ℕ, InRange s.1[i]!) :
    ls.foldlM (layerLoopM f next) s = some (ls.foldl (layerLoop g next) s) ∧
      ∀ i : ℕ, InRange (ls.foldl (layerLoop g next) s).1[i]! :=
  foldlM_eq_some (P := fun s : Poly × ℕ => ∀ i : ℕ, InRange s.1[i]!) hs
    fun _ len _ hs => layerLoopM_eq next h hs len

theorem ntt_spec {a : Poly} (ha : Reduced 3329 a) :
    Checked.ntt a = some (ntt a) ∧ Reduced 3329 (ntt a) := by
  obtain ⟨hrun, -⟩ := layers_spec (· + 1) (fun k lo hi =>
    nttStep_spec (tables_inRange k).1) [128, 64, 32, 16, 8, 4, 2] (s := (a, 1)) (inRange_get ha)
  refine ⟨?_, reduced_ntt a⟩
  rw [Checked.ntt, hrun]
  rfl

/-- The last loop of `intt`. -/
theorem scale_loop {a : Poly} (ha : ∀ i : ℕ, InRange a[i]!) {m : ℕ} (hm : m ≤ 256) :
    ∃ v : Poly, (List.range m).foldlM Checked.scale a = some v ∧
      ∀ i : ℕ, v[i]! = if i < m then reduce (a[i]! * 3303) else a[i]! := by
  induction m with
  | zero => exact ⟨a, rfl, fun i => rfl⟩
  | succ m ih =>
    obtain ⟨v, hrun, hv⟩ := ih (by omega)
    have hq : q = 3329 := rfl
    have hsame : v[m]! = a[m]! := by rw [hv, if_neg (by omega)]
    obtain ⟨h0, h1⟩ := ha m
    refine ⟨v.set! m (reduce (a[m]! * 3303)), ?_, ?_⟩
    · rw [List.range_succ, List.foldlM_append, hrun]
      simp only [List.foldlM_cons, List.foldlM_nil, Checked.scale, hsame,
        i32_eq (show -2 ^ 31 ≤ a[m]! * 3303 by omega) (by omega), checked_reduce,
        Option.bind_eq_bind, Option.bind_some]
      rfl
    · intro i
      rw [getElem!_set! v i m _ (by omega)]
      by_cases him : i = m
      · rw [if_pos him, if_pos (by omega), him]
      · rw [if_neg him, hv]
        congr 1
        simp only [eq_iff_iff]
        omega

theorem intt_spec {a : Poly} (ha : Reduced 3329 a) :
    Checked.intt a = some (intt a) ∧ Reduced 3329 (intt a) := by
  obtain ⟨hrun, hrange⟩ := layers_spec (· - 1) (fun k lo hi =>
    inttStep_spec (tables_inRange k).1) [2, 4, 8, 16, 32, 64, 128] (s := (a, 127)) (inRange_get ha)
  obtain ⟨c, hscale, hc⟩ := scale_loop hrange le_rfl
  have hentry : ∀ i (hi : i < 256), (intt a)[i]! =
      reduce ((([2, 4, 8, 16, 32, 64, 128].foldl
        (layerLoop (fun i => inttStep zetas[i]!) (· - 1)) (a, 127)).1[i]!) * 3303) := by
    intro i hi
    rw [intt, getElem!_pos _ i hi, Vector.getElem_map, getElem!_pos _ i hi]
  have hsame : c = intt a := by
    apply Vector.ext
    intro i hi
    rw [← getElem!_pos c i hi, ← getElem!_pos (intt a) i hi, hc, if_pos hi, hentry i hi]
  refine ⟨?_, fun i hi => ?_⟩
  · rw [Checked.intt, hrun, Option.bind_eq_bind, Option.bind_some, hscale, hsame]
  · rw [hentry i hi]
    exact reduce_mem _

/-- One pair of a product in the transform domain. -/
theorem pair_spec {a b : Poly} (ha : Reduced 3329 a) (hb : Reduced 3329 b) (c : Poly) {i : ℕ}
    (hi : i < 128) : Checked.pair a b c i =
      some ((c.set! (2 * i) (nttMul a b)[2 * i]!).set! (2 * i + 1) (nttMul a b)[2 * i + 1]!) := by
  have hq : q = 3329 := rfl
  have a0 := inRange_get ha (2 * i)
  have a1 := inRange_get ha (2 * i + 1)
  have b0 := inRange_get hb (2 * i)
  have b1 := inRange_get hb (2 * i + 1)
  have hg := (tables_inRange i).2
  obtain ⟨p0, p1⟩ := a0.mul b0
  obtain ⟨r0, r1⟩ := a1.mul b1
  obtain ⟨s0, s1⟩ := a0.mul b1
  obtain ⟨t0, t1⟩ := a1.mul b0
  have hmod : InRange ((a[2 * i + 1]! * b[2 * i + 1]!).tmod q) := by
    rw [Int.tmod_eq_emod_of_nonneg r0]
    exact reduce_mem _
  obtain ⟨u0, u1⟩ := hmod.mul hg
  have heven : (nttMul a b)[2 * i]! = reduce (a[2 * i]! * b[2 * i]! +
      (a[2 * i + 1]! * b[2 * i + 1]!).tmod q * gammas[i]!) := by
    have hdiv : 2 * i / 2 = i := by omega
    have hpar : 2 * i % 2 = 0 := by omega
    rw [nttMul, getElem!_pos _ (2 * i) (by omega), Vector.getElem_ofFn]
    simp only [hdiv, hpar, if_true]
  have hodd : (nttMul a b)[2 * i + 1]! = reduce (a[2 * i]! * b[2 * i + 1]! +
      a[2 * i + 1]! * b[2 * i]!) := by
    have hdiv : (2 * i + 1) / 2 = i := by omega
    have hpar : ¬(2 * i + 1) % 2 = 0 := by omega
    rw [nttMul, getElem!_pos _ (2 * i + 1) (by omega), Vector.getElem_ofFn]
    simp only [hdiv, hpar, if_false]
  rw [heven, hodd]
  simp only [Checked.pair, hg.i16, i32_eq (show -2 ^ 31 ≤ a[2 * i]! * b[2 * i]! by omega) (by omega),
    i32_eq (show -2 ^ 31 ≤ a[2 * i + 1]! * b[2 * i + 1]! by omega) (by omega),
    i32_eq (show -2 ^ 31 ≤ (a[2 * i + 1]! * b[2 * i + 1]!).tmod q * gammas[i]! by omega) (by omega),
    i32_eq (show -2 ^ 31 ≤ a[2 * i]! * b[2 * i]! +
      (a[2 * i + 1]! * b[2 * i + 1]!).tmod q * gammas[i]! by omega) (by omega),
    i32_eq (show -2 ^ 31 ≤ a[2 * i]! * b[2 * i + 1]! by omega) (by omega),
    i32_eq (show -2 ^ 31 ≤ a[2 * i + 1]! * b[2 * i]! by omega) (by omega),
    i32_eq (show -2 ^ 31 ≤ a[2 * i]! * b[2 * i + 1]! + a[2 * i + 1]! * b[2 * i]! by omega) (by omega),
    checked_reduce, Option.bind_eq_bind, Option.bind_some]

theorem reduced_nttMul (a b : Poly) : Reduced 3329 (nttMul a b) := by
  refine reduced_ofFn fun k => ?_
  split
  · exact reduce_mem _
  · exact reduce_mem _

theorem nttMul_spec {a b : Poly} (ha : Reduced 3329 a) (hb : Reduced 3329 b) :
    Checked.nttMul a b = some (nttMul a b) := by
  have hloop : ∀ m ≤ 128, ∃ v : Poly, (List.range m).foldlM (Checked.pair a b) zeroPoly = some v ∧
      ∀ i < 2 * m, v[i]! = (nttMul a b)[i]! := by
    intro m hm
    induction m with
    | zero => exact ⟨zeroPoly, rfl, fun i hi => absurd hi (Nat.not_lt_zero i)⟩
    | succ m ih =>
      obtain ⟨v, hrun, hv⟩ := ih (by omega)
      refine ⟨(v.set! (2 * m) (nttMul a b)[2 * m]!).set! (2 * m + 1) (nttMul a b)[2 * m + 1]!,
        ?_, ?_⟩
      · rw [List.range_succ, List.foldlM_append, hrun, Option.bind_eq_bind, Option.bind_some,
          List.foldlM_cons, pair_spec ha hb v (by omega)]
        rfl
      · intro i hi
        rw [getElem!_set! _ i (2 * m + 1) _ (by omega), getElem!_set! v i (2 * m) _ (by omega)]
        by_cases h1 : i = 2 * m + 1
        · rw [if_pos h1, h1]
        · by_cases h0 : i = 2 * m
          · rw [if_neg h1, if_pos h0, h0]
          · rw [if_neg h1, if_neg h0, hv i (by omega)]
  obtain ⟨v, hrun, hv⟩ := hloop 128 le_rfl
  rw [Checked.nttMul, hrun]
  refine congrArg some (Vector.ext fun i hi => ?_)
  rw [← getElem!_pos v i hi, ← getElem!_pos (nttMul a b) i hi, hv i hi]

/-! ## The quotient ring -/

/-- The element of the quotient ring modulo `X ^ 256 + 1` that a polynomial stands for. -/
noncomputable def toRing (a : Poly) : AdjoinRoot (X ^ 256 + 1 : (ZMod 3329)[X]) :=
  AdjoinRoot.mk _ (toPoly 256 (coeffs 3329 a))

theorem dvd_negacyclic (n : ℕ) (f g : ℕ → ZMod 3329) :
    X ^ n + 1 ∣ toPoly n f * toPoly n g - toPoly n (ringMul n (-1) f g) := by
  have h := dvd_ringMul n (-1) f g
  rwa [map_neg, map_one, sub_neg_eq_add] at h

theorem coeffs_product (a b : Poly) {k : ℕ} (hk : k < 256) :
    coeffs 3329 (intt (nttMul (ntt a) (ntt b))) k =
      ringMul 256 (-1) (coeffs 3329 a) (coeffs 3329 b) k := by
  rw [coeffs_intt _ hk, ← unhat_pairMul_hat _ _ hk]
  refine unhat_congr (fun i hi => ?_) hk
  rw [coeffs_nttMul _ _ hi]
  exact pairMul_congr (fun j hj => coeffs_ntt a hj) (fun j hj => coeffs_ntt b hj) hi

/-- **The transform carries the multiplication of the ring**, and every value on the way fits its
machine integer. -/
theorem intt_nttMul_ntt (a b : Poly) (ha : Reduced 3329 a) (hb : Reduced 3329 b) :
    intt (ntt a) = a ∧
      toRing (intt (nttMul (ntt a) (ntt b))) = toRing a * toRing b ∧
      Reduced 3329 (intt (nttMul (ntt a) (ntt b))) ∧
      (Checked.ntt a >>= Checked.intt) = some (intt (ntt a)) ∧
      Checked.product a b = some (intt (nttMul (ntt a) (ntt b))) := by
  obtain ⟨hrunA, hnttA⟩ := ntt_spec ha
  obtain ⟨hrunB, hnttB⟩ := ntt_spec hb
  obtain ⟨hback, hinv⟩ := intt_spec hnttA
  obtain ⟨hlast, hprod⟩ := intt_spec (reduced_nttMul (ntt a) (ntt b))
  refine ⟨?_, ?_, hprod, ?_, ?_⟩
  · refine hinv.ext ha fun i hi => ?_
    rw [coeffs_intt _ hi, unhat_congr (fun j hj => coeffs_ntt a hj) hi, unhat_hat _ hi]
  · have hcongr : toPoly 256 (coeffs 3329 (intt (nttMul (ntt a) (ntt b)))) =
        toPoly 256 (ringMul 256 (-1) (coeffs 3329 a) (coeffs 3329 b)) :=
      toPoly_congr fun i hi => coeffs_product a b hi
    have hdvd := dvd_negacyclic 256 (coeffs 3329 a) (coeffs 3329 b)
    have hring := AdjoinRoot.mk_eq_mk.mpr hdvd
    exact (congrArg (AdjoinRoot.mk _) hcongr).trans (hring.symm.trans (map_mul _ _ _))
  · rw [bind_of_eq hrunA, hback]
  · rw [Checked.product, bind_of_eq hrunA, bind_of_eq hrunB, bind_of_eq (nttMul_spec hnttA hnttB),
      hlast]

/-- The polynomial with the coefficients `0, 1, .., 255`. -/
def ramp : Poly := Vector.ofFn fun i => (i.val : ℤ)

theorem reduced_ramp : Reduced 3329 ramp := by
  refine reduced_ofFn fun i => ?_
  have hi := i.isLt
  constructor <;> omega

theorem intt_ntt_ramp : intt (ntt ramp) = ramp ∧
    toRing (intt (nttMul (ntt ramp) (ntt ramp))) = toRing ramp * toRing ramp := by
  obtain ⟨hinv, hprod, -⟩ := intt_nttMul_ntt ramp ramp reduced_ramp reduced_ramp
  exact ⟨hinv, hprod⟩

end MlKem

end Ciphra
