import Mathlib.Data.ZMod.ValMinAbs
import Ciphra.Foundations.Butterfly
import Ciphra.Primitives.Sponge

/-!
# Polynomials of the lattice schemes

Both schemes work on polynomials of 256 coefficients, each with its own modulus. A coefficient is an
integer; `coeffs` reads it modulo `q`, and on representatives in `[0, q)` nothing is lost by that
(`Reduced.ext`).
-/

namespace Ciphra

/-- A polynomial of 256 coefficients. -/
abbrev Poly := Vector ℤ 256

def zeroPoly : Poly := Vector.replicate 256 0

/-- `x as u32`. -/
def asU32 (x : ℤ) : ℕ := (x % 2 ^ 32).toNat

/-- The coefficients modulo `q`. -/
def coeffs (q : ℕ) (a : Poly) (i : ℕ) : ZMod q := (a[i]! : ℤ)

/-- All coefficients are representatives in `[0, q)`. -/
def Reduced (q : ℕ) (a : Poly) : Prop := ∀ i : ℕ, i < 256 → 0 ≤ a[i]! ∧ a[i]! < q

/-- The loop of square and multiply. -/
def powModLoop (q result base : ℤ) (exp : ℕ) : ℤ :=
  if exp = 0 then result
  else powModLoop q (if exp % 2 = 1 then result * base % q else result) (base * base % q) (exp / 2)
termination_by exp

theorem asU32_of_nonneg {x : ℤ} (h0 : 0 ≤ x) (h : x < 2 ^ 32) : asU32 x = x.toNat := by
  rw [asU32, Int.emod_eq_of_lt h0 h]

theorem coeffs_eq_getElem (q : ℕ) (a : Poly) {i : ℕ} (hi : i < 256) :
    coeffs q a i = (a.get ⟨i, hi⟩ : ℤ) := by
  rw [coeffs, getElem!_pos a i hi]
  rfl

theorem coeffs_zeroPoly (q i : ℕ) : coeffs q zeroPoly i = 0 := by
  rw [coeffs]
  by_cases hi : i < 256
  · rw [getElem!_pos _ i hi, zeroPoly, Vector.getElem_replicate, Int.cast_zero]
  · rw [getElem!_neg _ i hi]
    exact Int.cast_zero

theorem reduced_zeroPoly {q : ℕ} (hq : 0 < q) : Reduced q zeroPoly := by
  intro i hi
  rw [getElem!_pos _ i hi, zeroPoly, Vector.getElem_replicate]
  exact ⟨le_rfl, by exact_mod_cast hq⟩

/-- Representatives of one residue are equal. -/
theorem eq_of_cast_eq {q : ℕ} {x y : ℤ} (hx : 0 ≤ x ∧ x < q) (hy : 0 ≤ y ∧ y < q)
    (h : (x : ZMod q) = (y : ZMod q)) : x = y := by
  have hmod := (ZMod.intCast_eq_intCast_iff' _ _ _).mp h
  rwa [Int.emod_eq_of_lt hx.1 hx.2, Int.emod_eq_of_lt hy.1 hy.2] at hmod

/-- Reduced polynomials with the same coefficients modulo `q` are equal. -/
theorem Reduced.ext {q : ℕ} {a b : Poly} (ha : Reduced q a) (hb : Reduced q b)
    (h : ∀ i < 256, coeffs q a i = coeffs q b i) : a = b := by
  apply Vector.ext
  intro i hi
  have heq := eq_of_cast_eq (ha i hi) (hb i hi) (h i hi)
  rwa [getElem!_pos a i hi, getElem!_pos b i hi] at heq

theorem reduced_ofFn {q : ℕ} {f : Fin 256 → ℤ} (h : ∀ i, 0 ≤ f i ∧ f i < q) :
    Reduced q (Vector.ofFn f) := by
  intro i hi
  rw [getElem!_pos _ i hi, Vector.getElem_ofFn]
  exact h _

theorem cast_powModLoop (q : ℕ) (result base : ℤ) (exp : ℕ) :
    ((powModLoop q result base exp : ℤ) : ZMod q) = result * (base : ZMod q) ^ exp := by
  induction exp using Nat.strong_induction_on generalizing result base with
  | _ exp ih =>
    rw [powModLoop]
    split
    · next h0 => rw [h0, pow_zero, mul_one]
    · next h0 =>
      have hsq : ((base * base % q : ℤ) : ZMod q) = (base : ZMod q) ^ 2 := by
        rw [ZMod.intCast_mod, Int.cast_mul, sq]
      have hres : ((if exp % 2 = 1 then result * base % q else result : ℤ) : ZMod q) =
          result * (base : ZMod q) ^ (exp % 2) := by
        rcases Nat.mod_two_eq_zero_or_one exp with hpar | hpar
        · rw [hpar, if_neg (by decide), pow_zero, mul_one]
        · rw [hpar, if_pos rfl, ZMod.intCast_mod, Int.cast_mul, pow_one]
      rw [ih (exp / 2) (by omega), hsq, hres, ← pow_mul, mul_assoc, ← pow_add, Nat.mod_add_div]

theorem iterate_add_one (b i : ℕ) : (· + 1)^[b] i = i + b := by
  induction b with
  | zero => rfl
  | succ b ih => rw [Function.iterate_succ_apply', ih, Nat.add_assoc]

theorem iterate_sub_one (b i : ℕ) : (· - 1)^[b] i = i - b := by
  induction b with
  | zero => rfl
  | succ b ih => rw [Function.iterate_succ_apply', ih, Nat.sub_sub]

end Ciphra
