import Mathlib.Data.List.Basic
import Mathlib.Algebra.Group.Nat.Defs
import Mathlib.Algebra.Order.Monoid.Unbundled.Basic

/-!
# Machine words

Arithmetic on machine words wraps; a build that checks for overflow stops instead. `plus`, `minus`
and `times` are the checked operations: they have the result of the wrapping ones where that is
exact, and none elsewhere. A program that is written with them has a result if and only if nothing
in it overflows.
-/

namespace Ciphra

/-- Words stand for the numbers below `size`, and a sum, a difference or a product that stays among
these is exact. -/
class Word (α : Type) [Add α] [Sub α] [Mul α] where
  toNat : α → ℕ
  size : ℕ
  toNat_add (a b : α) : toNat a + toNat b < size → toNat (a + b) = toNat a + toNat b
  toNat_sub (a b : α) : toNat b ≤ toNat a → toNat (a - b) = toNat a - toNat b
  toNat_mul (a b : α) : toNat a * toNat b < size → toNat (a * b) = toNat a * toNat b

instance wordUInt32 : Word UInt32 where
  toNat := UInt32.toNat
  size := 2 ^ 32
  toNat_add a b h := by rw [UInt32.toNat_add, Nat.mod_eq_of_lt h]
  toNat_sub a b h := UInt32.toNat_sub_of_le a b (UInt32.le_iff_toNat_le.mpr h)
  toNat_mul a b h := by rw [UInt32.toNat_mul, Nat.mod_eq_of_lt h]

instance wordUInt64 : Word UInt64 where
  toNat := UInt64.toNat
  size := 2 ^ 64
  toNat_add a b h := by rw [UInt64.toNat_add, Nat.mod_eq_of_lt h]
  toNat_sub a b h := UInt64.toNat_sub_of_le a b (UInt64.le_iff_toNat_le.mpr h)
  toNat_mul a b h := by rw [UInt64.toNat_mul, Nat.mod_eq_of_lt h]

instance wordBitVec {w : ℕ} : Word (BitVec w) where
  toNat := BitVec.toNat
  size := 2 ^ w
  toNat_add _ _ h := BitVec.toNat_add_of_lt h
  toNat_sub _ _ h := BitVec.toNat_sub_of_le (BitVec.le_def.mpr h)
  toNat_mul _ _ h := BitVec.toNat_mul_of_lt h

namespace Word

variable {α : Type} [Add α] [Sub α] [Mul α] [Word α] {a b : α}

def plus (a b : α) : Option α := if toNat a + toNat b < size α then some (a + b) else none

def minus (a b : α) : Option α := if toNat b ≤ toNat a then some (a - b) else none

def times (a b : α) : Option α := if toNat a * toNat b < size α then some (a * b) else none

theorem plus_eq (h : toNat a + toNat b < size α) : plus a b = some (a + b) := if_pos h

theorem minus_eq (h : toNat b ≤ toNat a) : minus a b = some (a - b) := if_pos h

theorem times_eq (h : toNat a * toNat b < size α) : times a b = some (a * b) := if_pos h

end Word

/-- A step that succeeds. -/
theorem bind_of_eq {α β : Type} {x : Option α} {a : α} (h : x = some a) (f : α → Option β) :
    (x >>= f) = f a := by
  rw [h]
  rfl

/-- A loop that succeeds does what the rounds of its successes do. -/
theorem foldl_of_foldlM {σ ι : Type*} {f : σ → ι → Option σ} {g : σ → ι → σ}
    (h : ∀ s i t, f s i = some t → g s i = t) {l : List ι} {s t : σ}
    (hrun : l.foldlM f s = some t) : l.foldl g s = t := by
  induction l generalizing s with
  | nil => exact Option.some.inj hrun
  | cons i l ih =>
    rw [List.foldlM_cons] at hrun
    obtain ⟨s', hround, hrest⟩ := Option.bind_eq_some_iff.mp hrun
    rw [List.foldl_cons, h s i s' hround]
    exact ih hrest

/-- A loop of which every round succeeds. -/
theorem foldlM_eq_some {σ ι : Type*} {P : σ → Prop} {f : σ → ι → Option σ} {g : σ → ι → σ}
    {l : List ι} {s : σ} (hs : P s)
    (hstep : ∀ s i, i ∈ l → P s → f s i = some (g s i) ∧ P (g s i)) :
    l.foldlM f s = some (l.foldl g s) ∧ P (l.foldl g s) := by
  induction l generalizing s with
  | nil => exact ⟨rfl, hs⟩
  | cons i l ih =>
    obtain ⟨hround, hnext⟩ := hstep s i List.mem_cons_self hs
    obtain ⟨hrun, hlast⟩ := ih hnext fun s j hj => hstep s j (List.mem_cons_of_mem i hj)
    rw [List.foldlM_cons, hround, List.foldl_cons]
    exact ⟨hrun, hlast⟩

end Ciphra
