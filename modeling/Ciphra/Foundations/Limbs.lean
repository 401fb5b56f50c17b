import Ciphra.Foundations.Bytes
import Mathlib.Algebra.BigOperators.Fin
import Mathlib.Algebra.BigOperators.Intervals
import Mathlib.Algebra.Order.BigOperators.Group.Finset
import Mathlib.Tactic.Ring

/-!
# Limbs

A number in limbs is a sum of multiples of the powers of a base; the limbs may be larger than the
base. Carrying from each limb to the next settles them below the base and keeps the number
(`sum_settled`).
-/

open Finset

namespace Ciphra

variable (b : ℕ) (e : ℕ → ℕ)

/-- What is carried into limb `k`. -/
def carries : ℕ → ℕ
  | 0 => 0
  | k + 1 => (carries k + e k) / b

/-- Limb `k` after carrying. -/
def settled (k : ℕ) : ℕ := (carries b e k + e k) % b

/-- The number that the first `n` limbs stand for. -/
def limbSum (n : ℕ) : ℕ := ∑ k ∈ range n, e k * b ^ k

variable {b e}

theorem limbSum_succ' (n : ℕ) :
    limbSum b e (n + 1) = e 0 + b * limbSum b (fun k => e (k + 1)) n := by
  rw [limbSum, limbSum, sum_range_succ', mul_sum, pow_zero, mul_one, Nat.add_comm]
  refine congrArg _ (sum_congr rfl fun k _ => ?_)
  ring

theorem limbSum_succ (n : ℕ) : limbSum b e (n + 1) = limbSum b e n + e n * b ^ n :=
  sum_range_succ _ n

theorem settled_lt (hb : 0 < b) (k : ℕ) : settled b e k < b := Nat.mod_lt _ hb

/-- Carrying keeps the number. -/
theorem sum_settled (n : ℕ) :
    limbSum b (settled b e) n + carries b e n * b ^ n = limbSum b e n := by
  induction n with
  | zero => simp [limbSum, carries]
  | succ n ih =>
    have hsplit := Nat.mod_add_div (carries b e n + e n) b
    calc limbSum b (settled b e) (n + 1) + carries b e (n + 1) * b ^ (n + 1)
        = limbSum b (settled b e) n +
            ((carries b e n + e n) % b + b * ((carries b e n + e n) / b)) * b ^ n := by
          rw [limbSum_succ, settled, carries]
          ring
      _ = limbSum b (settled b e) n + carries b e n * b ^ n + e n * b ^ n := by
          rw [hsplit]
          ring
      _ = limbSum b e (n + 1) := by rw [ih, limbSum_succ]

/-- Carries stay below a bound that the base keeps them below. -/
theorem carries_le {C n : ℕ} (hb : 0 < b) (h : ∀ k < n, e k ≤ (b - 1) * C) : carries b e n ≤ C := by
  induction n with
  | zero => exact Nat.zero_le C
  | succ n ih =>
    have hcarry := ih fun k hk => h k (by omega)
    have hlimb := h n (by omega)
    have hsum : C + (b - 1) * C = b * C := by
      obtain ⟨c, rfl⟩ : ∃ c, b = c + 1 := ⟨b - 1, by omega⟩
      rw [Nat.add_sub_cancel]
      ring
    rw [carries]
    calc (carries b e n + e n) / b ≤ b * C / b := Nat.div_le_div_right (by omega)
      _ = C := Nat.mul_div_cancel_left C hb

theorem limbSum_add (m n : ℕ) :
    limbSum b e (m + n) = limbSum b e m + b ^ m * limbSum b (fun k => e (m + k)) n := by
  rw [limbSum, limbSum, limbSum, sum_range_add, mul_sum]
  refine congrArg _ (sum_congr rfl fun k _ => ?_)
  ring

theorem limbSum_congr {e' : ℕ → ℕ} {n : ℕ} (h : ∀ k < n, e k = e' k) :
    limbSum b e n = limbSum b e' n :=
  sum_congr rfl fun k hk => by rw [h k (mem_range.mp hk)]

/-- Something is added to the lowest limb. -/
theorem limbSum_of_first {e' : ℕ → ℕ} {n d : ℕ} (hfirst : e' 0 = e 0 + d)
    (h : ∀ k < n, e' (k + 1) = e (k + 1)) : limbSum b e' (n + 1) = limbSum b e (n + 1) + d := by
  have hrest : ∑ k ∈ range n, e' (k + 1) * b ^ (k + 1) = ∑ k ∈ range n, e (k + 1) * b ^ (k + 1) :=
    sum_congr rfl fun k hk => by rw [h k (mem_range.mp hk)]
  rw [limbSum, limbSum, sum_range_succ', sum_range_succ', hrest, hfirst]
  ring

/-- Limbs below the base make a number below its power. -/
theorem limbSum_lt {n : ℕ} (h : ∀ k < n, e k < b) : limbSum b e n < b ^ n := by
  induction n with
  | zero => simp [limbSum]
  | succ n ih =>
    have hlow := ih fun k hk => h k (by omega)
    have hlimb := h n (by omega)
    calc limbSum b e (n + 1) = limbSum b e n + e n * b ^ n := limbSum_succ n
      _ < b ^ n + e n * b ^ n := by omega
      _ = (e n + 1) * b ^ n := by ring
      _ ≤ b * b ^ n := Nat.mul_le_mul_right _ (by omega)
      _ = b ^ (n + 1) := by ring

/-- The same with a larger limb at the bottom. -/
theorem limbSum_lt_of_first {n : ℕ} (hb : 0 < b) (h : ∀ k < n, k ≠ 0 → e k < b) :
    limbSum b e n < b ^ n + e 0 := by
  induction n with
  | zero => simp [limbSum]
  | succ n ih =>
    have hlow := ih fun k hk => h k (by omega)
    rcases Nat.eq_zero_or_pos n with rfl | hpos
    · simp [limbSum]
      omega
    · have hlimb := h n (by omega) (by omega)
      calc limbSum b e (n + 1) = limbSum b e n + e n * b ^ n := limbSum_succ n
        _ < b ^ n + e 0 + e n * b ^ n := by omega
        _ = (e n + 1) * b ^ n + e 0 := by ring
        _ ≤ b * b ^ n + e 0 := Nat.add_le_add_right (Nat.mul_le_mul_right _ (by omega)) _
        _ = b ^ (n + 1) + e 0 := by ring

/-- What is carried out of limbs of which only the lowest one is large. -/
theorem carries_le_one {n : ℕ} (hb : 0 < b) (h : ∀ k < n, k ≠ 0 → e k < b) (hfirst : e 0 ≤ b ^ n) :
    carries b e n ≤ 1 := by
  have hsum := sum_settled (b := b) (e := e) n
  have hlt := limbSum_lt_of_first hb h
  have hpow : 0 < b ^ n := Nat.pow_pos hb
  by_contra hlarge
  have hge : 2 * b ^ n ≤ carries b e n * b ^ n := Nat.mul_le_mul_right _ (by omega)
  omega

/-- The number of a byte string, with zeros after its end. -/
theorem leNat_eq_limbSum {l : Bytes} {n : ℕ} (h : l.length ≤ n) :
    leNat l = limbSum 256 (fun k => (l.getD k 0).toNat) n := by
  induction l generalizing n with
  | nil =>
    rw [leNat, limbSum]
    exact (sum_eq_zero fun k _ => by simp).symm
  | cons x l ih =>
    obtain ⟨n, rfl⟩ : ∃ m, n = m + 1 := ⟨n - 1, by rw [List.length_cons] at h; omega⟩
    rw [List.length_cons] at h
    rw [leNat, limbSum_succ', ih (n := n) (by omega)]
    rfl

end Ciphra
