import Mathlib.AlgebraicGeometry.EllipticCurve.Affine.Point
import Mathlib.FieldTheory.IsAlgClosed.Basic

/-!
# The ladder on a Montgomery curve

On the curve `y ^ 2 = x ^ 3 + A x ^ 2 + x` a multiple of a point can be computed from its
`x`-coordinate alone. `HasX P X Z` says that `X / Z` is the `x`-coordinate of `P`, with `Z = 0` for
the point at infinity. A doubling needs nothing else (`HasX.double`); a sum needs the coordinate of
the difference, which must not be zero (`HasX.sum`).

The ladder keeps two consecutive multiples `n P` and `(n + 1) P`, whose difference is `P`, and takes
in one bit of the factor in every round (`Rung.even`, `Rung.odd`). Over an algebraically closed field
every element is the coordinate of a point (`exists_xOf_eq`), so for the ladder it does not matter on
which curve the coordinate it starts from lies.
-/

namespace Ciphra

namespace Montgomery

open WeierstrassCurve.Affine

variable {K : Type*} [Field K]

/-- The curve `y ^ 2 = x ^ 3 + A x ^ 2 + x`. -/
def curve (A : K) : WeierstrassCurve.Affine K := ⟨0, A, 0, 1, 0⟩

variable {A : K}

theorem equation_iff {x y : K} : (curve A).Equation x y ↔ y ^ 2 = x ^ 3 + A * x ^ 2 + x := by
  rw [WeierstrassCurve.Affine.equation_iff]
  simp [curve]

/-- The curve is smooth unless `A` is plus or minus two. -/
theorem delta_ne_zero (h2 : (2 : K) ≠ 0) (hA : A ^ 2 ≠ 4) : (curve A).Δ ≠ 0 := by
  have hdelta : (curve A).Δ = 2 ^ 4 * (A ^ 2 - 4) := by
    simp only [WeierstrassCurve.Δ, WeierstrassCurve.b₂, WeierstrassCurve.b₄, WeierstrassCurve.b₆,
      WeierstrassCurve.b₈, curve]
    ring
  rw [hdelta]
  exact mul_ne_zero (pow_ne_zero 4 h2) (sub_ne_zero.mpr hA)

/-- The point has the projective `x`-coordinate `X : Z`. -/
def HasX (P : (curve A).Point) (X Z : K) : Prop :=
  match P with
  | .zero => X ≠ 0 ∧ Z = 0
  | .some x _ _ => Z ≠ 0 ∧ X = x * Z

@[simp] theorem hasX_zero {X Z : K} : HasX (0 : (curve A).Point) X Z ↔ X ≠ 0 ∧ Z = 0 := Iff.rfl

@[simp] theorem hasX_some {x y X Z : K} (h : (curve A).Nonsingular x y) :
    HasX (.some x y h) X Z ↔ Z ≠ 0 ∧ X = x * Z := Iff.rfl

theorem negY_eq (x y : K) : (curve A).negY x y = -y := by
  simp [WeierstrassCurve.Affine.negY, curve]

theorem HasX.neg {P : (curve A).Point} {X Z : K} (h : HasX P X Z) : HasX (-P) X Z := by
  cases P with
  | zero => exact h
  | some x y hP => exact h

theorem HasX.eq_of_one {P : (curve A).Point} {u : K} (h : HasX P u 1) :
    ∃ y hP, P = .some u y hP := by
  cases P with
  | zero => exact absurd h.2 one_ne_zero
  | some x y hP =>
    obtain rfl : u = x := h.2.trans (mul_one x)
    exact ⟨y, hP, rfl⟩

/-- The affine coordinate, zero at infinity. -/
def xOf (P : (curve A).Point) : K :=
  match P with
  | .zero => 0
  | .some x _ _ => x

theorem HasX.xOf_eq {P : (curve A).Point} {X Z : K} (h : HasX P X Z) : xOf P = X / Z := by
  cases P with
  | zero =>
    rw [h.2, div_zero]
    rfl
  | some x y hP => exact eq_div_of_mul_eq h.1 h.2.symm

theorem hasX_of_xOf {P : (curve A).Point} {x : K} (h : xOf P = x) (hx : x ≠ 0) : HasX P x 1 := by
  cases P with
  | zero => exact absurd h.symm hx
  | some x' y hP => exact ⟨one_ne_zero, by rw [mul_one]; exact h.symm⟩

/-- Over an algebraically closed field every element is the coordinate of a point. -/
theorem exists_xOf_eq [IsAlgClosed K] (h2 : (2 : K) ≠ 0) (hA : A ^ 2 ≠ 4) (x : K) :
    ∃ P : (curve A).Point, xOf P = x := by
  obtain ⟨y, hy⟩ := IsAlgClosed.exists_pow_nat_eq (x ^ 3 + A * x ^ 2 + x) zero_lt_two
  have hcurve : (curve A).Nonsingular x y :=
    (equation_iff_nonsingular_of_Δ_ne_zero (delta_ne_zero h2 hA)).mp (equation_iff.mpr hy)
  exact ⟨.some x y hcurve, rfl⟩

/-! ## Doubling and adding -/

section Arithmetic

variable [DecidableEq K] {P Q : (curve A).Point} {X Z X₁ Z₁ X₂ Z₂ u : K}

/-- **Doubling.** -/
theorem HasX.double (h2 : (2 : K) ≠ 0) (hA : A ^ 2 ≠ 4) (h : HasX P X Z) :
    HasX (P + P) ((X ^ 2 - Z ^ 2) ^ 2) (4 * X * Z * (X ^ 2 + A * X * Z + Z ^ 2)) := by
  have h4 : (4 : K) ≠ 0 := by
    have hsq : (4 : K) = 2 * 2 := by norm_num
    rw [hsq]
    exact mul_ne_zero h2 h2
  cases P with
  | zero =>
    obtain ⟨hX, rfl⟩ := h
    change HasX (0 + 0) _ _
    rw [add_zero, hasX_zero]
    refine ⟨?_, by ring⟩
    rw [zero_pow two_ne_zero, sub_zero]
    exact pow_ne_zero 2 (pow_ne_zero 2 hX)
  | some x y hP =>
    obtain ⟨hZ, rfl⟩ := h
    have heq : y ^ 2 = x ^ 3 + A * x ^ 2 + x := equation_iff.mp hP.1
    by_cases hy : y = 0
    · -- A point of order two: the line is vertical, and `x` is not a square root of one.
      subst hy
      have hzero : (0 : K) = x * (x ^ 2 + A * x + 1) := by linear_combination heq
      have hx : x ^ 2 ≠ 1 := by
        intro hx
        refine hA ?_
        have hsum : x * (A * x + 2) = 0 := by linear_combination -hzero - x * hx
        have hx0 : x ≠ 0 := by
          rintro rfl
          rw [zero_pow two_ne_zero] at hx
          exact zero_ne_one hx
        have hAx : A * x = -2 := eq_neg_of_add_eq_zero_left ((mul_eq_zero.mp hsum).resolve_left hx0)
        linear_combination (A * x - 2) * hAx - A ^ 2 * hx
      rw [Point.add_self_of_Y_eq (by rw [negY_eq, neg_zero]), hasX_zero]
      constructor
      · have hfactor : (x * Z) ^ 2 - Z ^ 2 = (x ^ 2 - 1) * Z ^ 2 := by ring
        rw [hfactor]
        exact pow_ne_zero 2 (mul_ne_zero (sub_ne_zero.mpr hx) (pow_ne_zero 2 hZ))
      · linear_combination -4 * Z ^ 4 * hzero
    · have h2y : 2 * y ≠ 0 := mul_ne_zero h2 hy
      have hne : y ≠ (curve A).negY x y := by
        rw [negY_eq]
        intro hneg
        exact h2y (by linear_combination hneg)
      obtain ⟨l, hl⟩ : ∃ l, l = (curve A).slope x x y y := ⟨_, rfl⟩
      have hslope : l * (2 * y) = 3 * x ^ 2 + 2 * A * x + 1 := by
        rw [hl, slope_of_Y_ne rfl hne, negY_eq, div_mul_eq_mul_div, div_eq_iff]
        · simp only [curve]
          ring
        · rw [sub_neg_eq_add, ← two_mul]
          exact h2y
      rw [Point.add_self_of_Y_ne hne, hasX_some]
      have hden : 4 * (x * Z) * Z * ((x * Z) ^ 2 + A * (x * Z) * Z + Z ^ 2) =
          4 * y ^ 2 * Z ^ 4 := by
        rw [heq]
        ring
      rw [hden, ← hl]
      refine ⟨mul_ne_zero (mul_ne_zero h4 (pow_ne_zero 2 hy)) (pow_ne_zero 4 hZ), ?_⟩
      simp only [WeierstrassCurve.Affine.addX, curve]
      linear_combination (-(Z ^ 4) * (l * (2 * y) + (3 * x ^ 2 + 2 * A * x + 1))) * hslope +
        (4 * Z ^ 4 * (A + 2 * x)) * heq

/-- The coordinates of a sum and of a difference, off the diagonal. -/
theorem addX_mul_addX {x₁ y₁ x₂ y₂ : K} (h₁ : y₁ ^ 2 = x₁ ^ 3 + A * x₁ ^ 2 + x₁)
    (h₂ : y₂ ^ 2 = x₂ ^ 3 + A * x₂ ^ 2 + x₂) (hx : x₁ ≠ x₂) :
    (curve A).addX x₁ x₂ ((curve A).slope x₁ x₂ y₁ y₂) *
      (curve A).addX x₁ x₂ ((curve A).slope x₁ x₂ y₁ (-y₂)) * (x₁ - x₂) ^ 2 =
        (x₁ * x₂ - 1) ^ 2 := by
  have hd : x₁ - x₂ ≠ 0 := sub_ne_zero.mpr hx
  obtain ⟨l, hl⟩ : ∃ l, l = (curve A).slope x₁ x₂ y₁ y₂ := ⟨_, rfl⟩
  obtain ⟨k, hk⟩ : ∃ k, k = (curve A).slope x₁ x₂ y₁ (-y₂) := ⟨_, rfl⟩
  have hsum : l * (x₁ - x₂) = y₁ - y₂ := by
    rw [hl, slope_of_X_ne hx, div_mul_cancel₀ _ hd]
  have hdiff : k * (x₁ - x₂) = y₁ + y₂ := by
    rw [hk, slope_of_X_ne hx, div_mul_cancel₀ _ hd, sub_neg_eq_add]
  rw [← hl, ← hk]
  simp only [WeierstrassCurve.Affine.addX, curve]
  have hfirst : (l ^ 2 + 0 * l - A - x₁ - x₂) * (x₁ - x₂) ^ 2 =
      (y₁ - y₂) ^ 2 - (A + x₁ + x₂) * (x₁ - x₂) ^ 2 := by
    linear_combination (l * (x₁ - x₂) + (y₁ - y₂)) * hsum
  have hsecond : (k ^ 2 + 0 * k - A - x₁ - x₂) * (x₁ - x₂) ^ 2 =
      (y₁ + y₂) ^ 2 - (A + x₁ + x₂) * (x₁ - x₂) ^ 2 := by
    linear_combination (k * (x₁ - x₂) + (y₁ + y₂)) * hdiff
  refine mul_right_cancel₀ (pow_ne_zero 2 hd) ?_
  calc (l ^ 2 + 0 * l - A - x₁ - x₂) * (k ^ 2 + 0 * k - A - x₁ - x₂) * (x₁ - x₂) ^ 2 *
        (x₁ - x₂) ^ 2
      = ((l ^ 2 + 0 * l - A - x₁ - x₂) * (x₁ - x₂) ^ 2) *
          ((k ^ 2 + 0 * k - A - x₁ - x₂) * (x₁ - x₂) ^ 2) := by ring
    _ = ((y₁ - y₂) ^ 2 - (A + x₁ + x₂) * (x₁ - x₂) ^ 2) *
          ((y₁ + y₂) ^ 2 - (A + x₁ + x₂) * (x₁ - x₂) ^ 2) := by rw [hfirst, hsecond]
    _ = (y₁ ^ 2 - y₂ ^ 2) ^ 2 - 2 * (A + x₁ + x₂) * (x₁ - x₂) ^ 2 * (y₁ ^ 2 + y₂ ^ 2) +
          (A + x₁ + x₂) ^ 2 * (x₁ - x₂) ^ 4 := by ring
    _ = (x₁ * x₂ - 1) ^ 2 * (x₁ - x₂) ^ 2 := by
      rw [h₁, h₂]
      ring

/-- **The sum of two points whose difference is known.** -/
theorem HasX.sum (h2 : (2 : K) ≠ 0) (hA : A ^ 2 ≠ 4) (hP : HasX P X₁ Z₁) (hQ : HasX Q X₂ Z₂)
    (hD : HasX (P - Q) u 1) (hu : u ≠ 0) :
    HasX (P + Q) (4 * (X₁ * X₂ - Z₁ * Z₂) ^ 2) (4 * u * (X₁ * Z₂ - X₂ * Z₁) ^ 2) := by
  have h4 : (4 : K) ≠ 0 := by
    have hsq : (4 : K) = 2 * 2 := by norm_num
    rw [hsq]
    exact mul_ne_zero h2 h2
  obtain ⟨v, hv, hdiff⟩ := hD.eq_of_one
  cases P with
  | zero =>
    obtain ⟨hX, rfl⟩ := hP
    change (0 : (curve A).Point) - Q = _ at hdiff
    rw [zero_sub, neg_eq_iff_eq_neg, Point.neg_some] at hdiff
    change HasX (0 + Q) _ _
    rw [zero_add]
    subst hdiff
    obtain ⟨hZ, rfl⟩ := hQ
    rw [hasX_some]
    refine ⟨?_, by ring⟩
    rw [mul_zero, sub_zero]
    exact mul_ne_zero (mul_ne_zero h4 hu) (pow_ne_zero 2 (mul_ne_zero hX hZ))
  | some x₁ y₁ hP₁ =>
    obtain ⟨hZ₁, rfl⟩ := hP
    cases Q with
    | zero =>
      obtain ⟨hX, rfl⟩ := hQ
      change Point.some x₁ y₁ hP₁ - 0 = _ at hdiff
      rw [sub_zero] at hdiff
      injection hdiff with hxu hyv
      subst hxu
      change HasX (Point.some x₁ y₁ hP₁ + 0) _ _
      rw [add_zero, hasX_some]
      refine ⟨?_, by ring⟩
      rw [mul_zero, zero_sub]
      exact mul_ne_zero (mul_ne_zero h4 hu) (pow_ne_zero 2 (neg_ne_zero.mpr (mul_ne_zero hX hZ₁)))
    | some x₂ y₂ hP₂ =>
      obtain ⟨hZ₂, rfl⟩ := hQ
      have h₁ : y₁ ^ 2 = x₁ ^ 3 + A * x₁ ^ 2 + x₁ := equation_iff.mp hP₁.1
      have h₂ : y₂ ^ 2 = x₂ ^ 3 + A * x₂ ^ 2 + x₂ := equation_iff.mp hP₂.1
      by_cases hx : x₁ = x₂
      · -- The difference is not zero, so the two points are opposite.
        subst hx
        have hsign : Point.some x₁ y₁ hP₁ = Point.some x₁ y₂ hP₂ ∨
            Point.some x₁ y₁ hP₁ = -Point.some x₁ y₂ hP₂ := Point.X_eq_iff.mp rfl
        rcases hsign with heq | heq
        · rw [heq, sub_self] at hdiff
          exact absurd hdiff.symm (Point.some_ne_zero hv)
        · have hopp : Point.some x₁ y₂ hP₂ = -Point.some x₁ y₁ hP₁ := by rw [heq, neg_neg]
          have hdouble := HasX.double h2 hA (P := Point.some x₁ y₁ hP₁) (X := x₁) (Z := 1)
            ⟨one_ne_zero, (mul_one x₁).symm⟩
          rw [hopp, sub_neg_eq_add] at hdiff
          rw [hdiff, hasX_some] at hdouble
          have hne : x₁ ^ 2 - 1 ^ 2 ≠ 0 := by
            intro hzero
            rw [hzero, zero_pow two_ne_zero] at hdouble
            exact mul_ne_zero hu hdouble.1 hdouble.2.symm
          rw [hopp, add_neg_cancel, hasX_zero]
          constructor
          · have hfactor : x₁ * Z₁ * (x₁ * Z₂) - Z₁ * Z₂ = (x₁ ^ 2 - 1 ^ 2) * (Z₁ * Z₂) := by ring
            rw [hfactor]
            exact mul_ne_zero h4 (pow_ne_zero 2 (mul_ne_zero hne (mul_ne_zero hZ₁ hZ₂)))
          · ring
      · rw [sub_eq_add_neg, Point.neg_some, Point.add_of_X_ne hx] at hdiff
        injection hdiff with hxu hyv
        have hprod := addX_mul_addX h₁ h₂ hx
        rw [negY_eq] at hxu
        rw [hxu] at hprod
        rw [Point.add_of_X_ne hx, hasX_some]
        have hfactor : x₁ * Z₁ * Z₂ - x₂ * Z₂ * Z₁ = (x₁ - x₂) * (Z₁ * Z₂) := by ring
        rw [hfactor]
        refine ⟨mul_ne_zero (mul_ne_zero h4 hu)
          (pow_ne_zero 2 (mul_ne_zero (sub_ne_zero.mpr hx) (mul_ne_zero hZ₁ hZ₂))), ?_⟩
        linear_combination (-4 * (Z₁ * Z₂) ^ 2) * hprod

/-! ## The ladder -/

/-- Two consecutive multiples of a point. -/
structure Rung (P : (curve A).Point) (n : ℕ) (X₂ Z₂ X₃ Z₃ : K) : Prop where
  low : HasX (n • P) X₂ Z₂
  high : HasX ((n + 1) • P) X₃ Z₃

variable {n : ℕ} {X₃ Z₃ : K}

theorem rung_zero (h : HasX P u 1) : Rung P 0 1 0 u 1 where
  low := by
    rw [zero_nsmul, hasX_zero]
    exact ⟨one_ne_zero, rfl⟩
  high := by
    rw [zero_add, one_nsmul]
    exact h

/-- The next bit is `0`: the lower multiple is doubled. -/
theorem Rung.even (h2 : (2 : K) ≠ 0) (hA : A ^ 2 ≠ 4) (h : Rung P n X₂ Z₂ X₃ Z₃) (hP : HasX P u 1)
    (hu : u ≠ 0) :
    Rung P (2 * n) ((X₂ ^ 2 - Z₂ ^ 2) ^ 2) (4 * X₂ * Z₂ * (X₂ ^ 2 + A * X₂ * Z₂ + Z₂ ^ 2))
      (4 * (X₂ * X₃ - Z₂ * Z₃) ^ 2) (4 * u * (X₂ * Z₃ - X₃ * Z₂) ^ 2) where
  low := by
    rw [two_mul, add_nsmul]
    exact h.low.double h2 hA
  high := by
    have hdiff : n • P - (n + 1) • P = -P := by
      rw [succ_nsmul]
      abel
    have hsum : (2 * n + 1) • P = n • P + (n + 1) • P := by
      rw [← add_nsmul]
      congr 1
      omega
    rw [hsum]
    exact h.low.sum h2 hA h.high (hdiff ▸ hP.neg) hu

/-- The next bit is `1`: the upper multiple is doubled. -/
theorem Rung.odd (h2 : (2 : K) ≠ 0) (hA : A ^ 2 ≠ 4) (h : Rung P n X₂ Z₂ X₃ Z₃) (hP : HasX P u 1)
    (hu : u ≠ 0) :
    Rung P (2 * n + 1) (4 * (X₃ * X₂ - Z₃ * Z₂) ^ 2) (4 * u * (X₃ * Z₂ - X₂ * Z₃) ^ 2)
      ((X₃ ^ 2 - Z₃ ^ 2) ^ 2) (4 * X₃ * Z₃ * (X₃ ^ 2 + A * X₃ * Z₃ + Z₃ ^ 2)) where
  low := by
    have hdiff : (n + 1) • P - n • P = P := by
      rw [succ_nsmul]
      abel
    have hsum : (2 * n + 1) • P = (n + 1) • P + n • P := by
      rw [← add_nsmul]
      congr 1
      omega
    rw [hsum]
    exact h.high.sum h2 hA h.low (by rwa [hdiff]) hu
  high := by
    have hsum : (2 * n + 1 + 1) • P = (n + 1) • P + (n + 1) • P := by
      rw [← add_nsmul]
      congr 1
      omega
    rw [hsum]
    exact h.high.double h2 hA

/-- A point with coordinate zero has order at most two. -/
theorem xOf_nsmul_eq_zero (h : xOf P = 0) (n : ℕ) : xOf (n • P) = 0 := by
  have hdouble : P + P = 0 := by
    cases P with
    | zero => exact add_zero _
    | some x y hP =>
      obtain rfl : x = 0 := h
      have heq := equation_iff.mp hP.1
      have hy : y = 0 := pow_eq_zero_iff two_ne_zero |>.mp (by linear_combination heq)
      exact Point.add_self_of_Y_eq (by rw [negY_eq, hy, neg_zero])
  have hmultiple : n • P = 0 ∨ n • P = P := by
    induction n with
    | zero => exact Or.inl (zero_nsmul P)
    | succ n ih =>
      rw [succ_nsmul]
      rcases ih with ih | ih
      · exact Or.inr (by rw [ih, zero_add])
      · exact Or.inl (by rw [ih, hdouble])
  rcases hmultiple with hn | hn
  · rw [hn]
    rfl
  · rw [hn, h]


end Arithmetic

end Montgomery

end Ciphra
