import Ciphra.Foundations.Bytes

/-!
# Floating-point numbers as bit patterns

A 64-bit (32-bit) floating-point number is its bit pattern. What the engine does with them is
modelled on the patterns: the total order of `total_cmp` (`F64.totalCmp`), which tells `-0.0` from
`0.0`, the equality of `==` (`F64.ieeeEq`), which does not, and the conversion of an integer,
rounding to nearest, ties to even (`F64.ofInt`).
-/

namespace Ciphra

/-- A 64-bit floating-point number. -/
structure F64 where
  bits : UInt64
  deriving DecidableEq, Repr

/-- A 32-bit floating-point number. -/
structure F32 where
  bits : UInt32
  deriving DecidableEq, Repr

/-- `-x` on 32 bits. -/
def F32.neg (x : F32) : F32 := ⟨x.bits ^^^ 0x80000000⟩

/-- The position of a pattern in the order of `total_cmp` on 32 bits. -/
def F32.totalKey (x : F32) : ℤ :=
  if x.bits.toNat < 2 ^ 31 then x.bits.toNat else 2 ^ 31 - 1 - x.bits.toNat

/-- The order of `total_cmp` on 32 bits. -/
def F32.totalCmp (x y : F32) : Ordering := compare x.totalKey y.totalKey

def F32.infinity : F32 := ⟨0x7F800000⟩

namespace F64

/-- The bits below the sign. -/
def magnitude (x : F64) : ℕ := x.bits.toNat % 2 ^ 63

/-- Exponent all ones and a non-zero fraction. -/
def isNaN (x : F64) : Bool := 0x7FF0000000000000 < x.magnitude

/-- The equality of `==`: no NaN equals anything, and both zeros are equal. -/
def ieeeEq (x y : F64) : Bool :=
  !x.isNaN && !y.isNaN && (x.bits == y.bits || (x.magnitude == 0 && y.magnitude == 0))

/-- The position of a pattern in the order of `total_cmp`: the negative patterns, reversed, stand
below the positive ones. -/
def totalKey (x : F64) : ℤ :=
  if x.bits.toNat < 2 ^ 63 then x.bits.toNat else 2 ^ 63 - 1 - x.bits.toNat

/-- The order of `total_cmp`. -/
def totalCmp (x y : F64) : Ordering := compare x.totalKey y.totalKey

/-- The pattern of the positive number nearest to `n`, ties to even. The exponent is the position
of the leading bit; a carry out of the rounded fraction moves into it. -/
def bitsOfNat (n : ℕ) : ℕ :=
  if n = 0 then 0
  else
    let e := n.log2
    if e ≤ 52 then (e + 1022) * 2 ^ 52 + n * 2 ^ (52 - e)
    else
      let shift := e - 52
      let q := n / 2 ^ shift
      let r := n % 2 ^ shift
      let half := 2 ^ (shift - 1)
      let q' := if half < r ∨ (r = half ∧ q % 2 = 1) then q + 1 else q
      (e + 1022) * 2 ^ 52 + q'

/-- A 64-bit integer as a floating-point number. -/
def ofInt (n : Int64) : F64 :=
  if n.toInt < 0 then ⟨UInt64.ofNat (2 ^ 63 + bitsOfNat n.toInt.natAbs)⟩
  else ⟨UInt64.ofNat (bitsOfNat n.toInt.natAbs)⟩

/-- `-x`, which turns the sign over. -/
def neg (x : F64) : F64 := ⟨x.bits ^^^ 0x8000000000000000⟩

theorem isNaN_neg (x : F64) : x.neg.isNaN = x.isNaN := by
  have h : x.neg.magnitude = x.magnitude := by
    rw [magnitude, magnitude, neg, UInt64.toNat_xor]
    apply Nat.eq_of_testBit_eq
    intro i
    rw [Nat.testBit_mod_two_pow, Nat.testBit_mod_two_pow, Nat.testBit_xor]
    by_cases hi : i < 63
    · have h63 : (0x8000000000000000 : UInt64).toNat = 2 ^ 63 := rfl
      rw [h63, Nat.testBit_two_pow_of_ne (by omega), Bool.xor_false]
    · simp [hi]
  rw [isNaN, isNaN, h]

/-! ## The order and the equality -/

theorem totalKey_injective : Function.Injective totalKey := by
  rintro ⟨x⟩ ⟨y⟩ h
  have hx := x.toNat_lt
  have hy := y.toNat_lt
  simp only [totalKey] at h
  congr 1
  apply UInt64.toNat_inj.mp
  split at h <;> split at h <;> omega

theorem totalCmp_eq_iff (x y : F64) : x.totalCmp y = .eq ↔ x = y := by
  rw [totalCmp, compare_eq_iff_eq, totalKey_injective.eq_iff]

theorem ieeeEq_self {x : F64} (h : x.isNaN = false) : x.ieeeEq x = true := by
  simp [ieeeEq, h]

theorem ieeeEq_trans {x y z : F64} (h : x.ieeeEq y = true) (h' : y.ieeeEq z = true) :
    x.ieeeEq z = true := by
  simp only [ieeeEq, Bool.and_eq_true, Bool.or_eq_true, beq_iff_eq, Bool.not_eq_true'] at h h' ⊢
  obtain ⟨⟨hx, hy⟩, hxy⟩ := h
  obtain ⟨⟨-, hz⟩, hyz⟩ := h'
  refine ⟨⟨hx, hz⟩, ?_⟩
  rcases hxy with hxy | ⟨h0, h0'⟩
  · rcases hyz with hyz | ⟨h1, h1'⟩
    · exact Or.inl (hxy.trans hyz)
    · refine Or.inr ⟨?_, h1'⟩
      rw [magnitude, hxy]
      exact h1
  · rcases hyz with hyz | ⟨-, h1'⟩
    · refine Or.inr ⟨h0, ?_⟩
      rw [magnitude, ← hyz]
      exact h0'
    · exact Or.inr ⟨h0, h1'⟩

/-! ## Converted integers are never NaN -/

theorem bitsOfNat_le {n : ℕ} (h : n ≤ 2 ^ 63) : bitsOfNat n ≤ 0x7FF0000000000000 := by
  rw [bitsOfNat]
  split
  · omega
  · rename_i h0
    have he : n.log2 ≤ 63 := by
      have : n.log2 < 64 := (Nat.log2_lt h0).mpr (by omega)
      omega
    have hlt : n < 2 ^ (n.log2 + 1) := Nat.lt_log2_self
    simp only
    split
    · rename_i h52
      have : n * 2 ^ (52 - n.log2) < 2 ^ 53 := by
        calc n * 2 ^ (52 - n.log2) < 2 ^ (n.log2 + 1) * 2 ^ (52 - n.log2) :=
              Nat.mul_lt_mul_of_pos_right hlt (by positivity)
          _ = 2 ^ 53 := by rw [← pow_add]; congr 1; omega
      generalize n * 2 ^ (52 - n.log2) = f at this
      omega
    · rename_i h52
      have hq : n / 2 ^ (n.log2 - 52) < 2 ^ 53 := by
        rw [Nat.div_lt_iff_lt_mul (by positivity), ← pow_add]
        rwa [show 53 + (n.log2 - 52) = n.log2 + 1 by omega]
      generalize n / 2 ^ (n.log2 - 52) = q at hq
      split <;> omega

theorem isNaN_ofInt (n : Int64) : (ofInt n).isNaN = false := by
  have hlo := n.le_toInt
  have hhi := n.toInt_lt
  have hb : bitsOfNat n.toInt.natAbs ≤ 0x7FF0000000000000 := bitsOfNat_le (by omega)
  rw [ofInt]
  split
  all_goals
    simp only [isNaN, magnitude, UInt64.toNat_ofNat', decide_eq_false_iff_not]
    omega

end F64

namespace F32

/-- The bits below the sign. -/
def magnitude (x : F32) : ℕ := x.bits.toNat % 2 ^ 31

def isNaN (x : F32) : Bool := 0x7F800000 < x.magnitude

/-- The equality of `==`. -/
def ieeeEq (x y : F32) : Bool :=
  !x.isNaN && !y.isNaN && (x.bits == y.bits || (x.magnitude == 0 && y.magnitude == 0))

end F32

end Ciphra
