import Ciphra.Foundations.Limbs
import Ciphra.Foundations.Packing
import Ciphra.Foundations.Words
import Ciphra.Primitives.X25519
import Mathlib.Data.ZMod.Basic

/-!
# The field of X25519

Limbs of 51 bits stand for a number, and the number for an element of the field modulo
`2 ^ 255 - 19`. The operations on limbs are the operations of the field, as long as the limbs are
within bounds: a product takes limbs below `2 ^ 53` and has `Tight` limbs again, and a sum of two
tight elements is within these bounds. `Fe.Checked` has the operations with overflow checks; on
limbs within the bounds none of them fails.
-/

namespace Ciphra

namespace Rfc7748

/-- The prime `2 ^ 255 - 19`. -/
def P : ℕ := 2 ^ 255 - 19

/-- The field. -/
abbrev Field := ZMod P

theorem two_pow_51 : ((2 : Field) ^ 51) ^ 5 = 19 := by
  have h : (((2 ^ 51) ^ 5 : ℕ) : Field) = ((19 : ℕ) : Field) :=
    (ZMod.natCast_eq_natCast_iff _ _ _).mpr (by decide)
  exact_mod_cast h

end Rfc7748

namespace Fe

theorem neZero_limbs : NeZero 5 := ⟨by decide⟩

attribute [local instance] neZero_limbs

/-! ## The operations with overflow checks -/

namespace Checked

open Word

def carry (a : Fe) : Option Fe := do
  let l1 ← plus a.l1 (a.l0 >>> 51)
  let l0 := a.l0 &&& mask51
  let l2 ← plus a.l2 (l1 >>> 51)
  let l1 := l1 &&& mask51
  let l3 ← plus a.l3 (l2 >>> 51)
  let l2 := l2 &&& mask51
  let l4 ← plus a.l4 (l3 >>> 51)
  let l3 := l3 &&& mask51
  let c := l4 >>> 51
  let l4 := l4 &&& mask51
  let l0 ← plus l0 (← times c 19)
  some ⟨l0, l1, l2, l3, l4⟩

/-- Whether the number, with 19 added, reaches `2 ^ 255`. -/
def quotient (a : Fe) : Option UInt64 := do
  let q := (← plus a.l0 19) >>> 51
  let q := (← plus a.l1 q) >>> 51
  let q := (← plus a.l2 q) >>> 51
  let q := (← plus a.l3 q) >>> 51
  some ((← plus a.l4 q) >>> 51)

/-- `19 * q` is added, and what is carried out of the top is dropped. -/
def dropTop (a : Fe) (q : UInt64) : Option Fe := do
  let l0 ← plus a.l0 (← times 19 q)
  let l1 ← plus a.l1 (l0 >>> 51)
  let l0 := l0 &&& mask51
  let l2 ← plus a.l2 (l1 >>> 51)
  let l1 := l1 &&& mask51
  let l3 ← plus a.l3 (l2 >>> 51)
  let l2 := l2 &&& mask51
  let l4 ← plus a.l4 (l3 >>> 51)
  let l3 := l3 &&& mask51
  let l4 := l4 &&& mask51
  some ⟨l0, l1, l2, l3, l4⟩

def freeze (a : Fe) : Option Fe := do
  let a ← carry (← carry a)
  dropTop a (← quotient a)

def add (a b : Fe) : Option Fe := do
  some ⟨← plus a.l0 b.l0, ← plus a.l1 b.l1, ← plus a.l2 b.l2, ← plus a.l3 b.l3, ← plus a.l4 b.l4⟩

/-- `x + k - y`. -/
def difference (x k y : UInt64) : Option UInt64 := do minus (← plus x k) y

def sub (a b : Fe) : Option Fe := do
  carry ⟨← difference a.l0 36028797018963664 b.l0, ← difference a.l1 36028797018963952 b.l1,
    ← difference a.l2 36028797018963952 b.l2, ← difference a.l3 36028797018963952 b.l3,
    ← difference a.l4 36028797018963952 b.l4⟩

def reduceWide (t0 t1 t2 t3 t4 : BitVec 128) : Option Fe := do
  let v0 := t0
  let v1 ← plus t1 (v0 >>> 51)
  let v2 ← plus t2 (v1 >>> 51)
  let v3 ← plus t3 (v2 >>> 51)
  let v4 ← plus t4 (v3 >>> 51)
  carry ⟨← plus (narrow v0 &&& mask51) (← times (narrow (v4 >>> 51)) 19), narrow v1 &&& mask51,
    narrow v2 &&& mask51, narrow v3 &&& mask51, narrow v4 &&& mask51⟩

/-- A sum of five wide products. -/
def column (x y : Fin 5 → UInt64) : Option (BitVec 128) := do
  plus (← plus (← plus (← plus (← times (wide (x 0)) (wide (y 0)))
    (← times (wide (x 1)) (wide (y 1)))) (← times (wide (x 2)) (wide (y 2))))
    (← times (wide (x 3)) (wide (y 3)))) (← times (wide (x 4)) (wide (y 4)))

def mul (a b : Fe) : Option Fe := do
  let r1 ← times b.l1 19
  let r2 ← times b.l2 19
  let r3 ← times b.l3 19
  let r4 ← times b.l4 19
  let limbs := ![a.l0, a.l1, a.l2, a.l3, a.l4]
  reduceWide (← column limbs ![b.l0, r4, r3, r2, r1]) (← column limbs ![b.l1, b.l0, r4, r3, r2])
    (← column limbs ![b.l2, b.l1, b.l0, r4, r3]) (← column limbs ![b.l3, b.l2, b.l1, b.l0, r4])
    (← column limbs ![b.l4, b.l3, b.l2, b.l1, b.l0])

def mulSmall (a : Fe) (k : UInt64) : Option Fe := do
  reduceWide (← times (wide a.l0) (wide k)) (← times (wide a.l1) (wide k))
    (← times (wide a.l2) (wide k)) (← times (wide a.l3) (wide k)) (← times (wide a.l4) (wide k))

end Checked

/-! ## Numbers and bounds -/

/-- The number that the limbs stand for. -/
def value (a : Fe) : ℕ :=
  a.l0.toNat + 2 ^ 51 * a.l1.toNat + 2 ^ 102 * a.l2.toNat + 2 ^ 153 * a.l3.toNat +
    2 ^ 204 * a.l4.toNat

/-- The element of the field. -/
def toField (a : Fe) : Rfc7748.Field := (a.value : Rfc7748.Field)

/-- No limb is above `n`. -/
structure Bounded (n : ℕ) (a : Fe) : Prop where
  l0 : a.l0.toNat ≤ n
  l1 : a.l1.toNat ≤ n
  l2 : a.l2.toNat ≤ n
  l3 : a.l3.toNat ≤ n
  l4 : a.l4.toNat ≤ n

/-- The limbs after a carry: all below `2 ^ 51` but the lowest, which may be a little above. -/
structure Tight (a : Fe) : Prop where
  l0 : a.l0.toNat < 2 ^ 51 + 2 ^ 17
  l1 : a.l1.toNat < 2 ^ 51
  l2 : a.l2.toNat < 2 ^ 51
  l3 : a.l3.toNat < 2 ^ 51
  l4 : a.l4.toNat < 2 ^ 51

theorem Bounded.mono {m n : ℕ} {a : Fe} (h : Bounded m a) (hmn : m ≤ n) : Bounded n a :=
  ⟨h.l0.trans hmn, h.l1.trans hmn, h.l2.trans hmn, h.l3.trans hmn, h.l4.trans hmn⟩

theorem Tight.bounded {a : Fe} (h : Tight a) : Bounded (2 ^ 51 + 2 ^ 17) a :=
  ⟨h.l0.le, by have := h.l1; omega, by have := h.l2; omega, by have := h.l3; omega,
    by have := h.l4; omega⟩

theorem Tight.loose {a : Fe} (h : Tight a) : Bounded (2 ^ 53) a := h.bounded.mono (by decide)

/-! ## Carrying -/

theorem toNat_shiftRight_51 (x : UInt64) : (x >>> 51).toNat = x.toNat / 2 ^ 51 := by
  rw [UInt64.toNat_shiftRight, Nat.shiftRight_eq_div_pow]
  rfl

theorem toNat_and_mask51 (x : UInt64) : (x &&& mask51).toNat = x.toNat % 2 ^ 51 := by
  rw [UInt64.toNat_and]
  exact Nat.and_two_pow_sub_one_eq_mod x.toNat 51

/-- A sum of words that are not too large. -/
theorem plus_small {x y : UInt64} (hx : x.toNat ≤ 2 ^ 63) (hy : y.toNat < 2 ^ 63) :
    Word.plus x y = some (x + y) ∧ (x + y).toNat = x.toNat + y.toNat := by
  have hsum : x.toNat + y.toNat < 2 ^ 64 := by omega
  exact ⟨Word.plus_eq hsum, Word.toNat_add x y hsum⟩

/-- One limb of a carry. -/
theorem carry_step {x y : UInt64} (hx : x.toNat ≤ 2 ^ 63) :
    Word.plus x (y >>> 51) = some (x + (y >>> 51)) ∧
      (x + (y >>> 51)).toNat = x.toNat + y.toNat / 2 ^ 51 := by
  have hy := y.toNat_lt
  have hshift := toNat_shiftRight_51 y
  obtain ⟨hrun, hsum⟩ := plus_small hx (y := y >>> 51) (by omega)
  exact ⟨hrun, by rw [hsum, hshift]⟩

theorem times_nineteen {x : UInt64} (hx : x.toNat < 2 ^ 59) :
    Word.times x 19 = some (x * 19) ∧ (x * 19).toNat = x.toNat * 19 := by
  have hprod : x.toNat * (19 : UInt64).toNat < 2 ^ 64 := by
    change x.toNat * 19 < 2 ^ 64
    omega
  exact ⟨Word.times_eq hprod, Word.toNat_mul x 19 hprod⟩

/-- The limbs after a carry. -/
theorem carry_limbs {a : Fe} (h : Bounded (2 ^ 63) a) : ∃ c1 c2 c3 c4 c5 : ℕ,
    c1 = a.l0.toNat / 2 ^ 51 ∧ c2 = (a.l1.toNat + c1) / 2 ^ 51 ∧
    c3 = (a.l2.toNat + c2) / 2 ^ 51 ∧ c4 = (a.l3.toNat + c3) / 2 ^ 51 ∧
    c5 = (a.l4.toNat + c4) / 2 ^ 51 ∧ Checked.carry a = some (carry a) ∧
    (carry a).l0.toNat = a.l0.toNat % 2 ^ 51 + c5 * 19 ∧
    (carry a).l1.toNat = (a.l1.toNat + c1) % 2 ^ 51 ∧
    (carry a).l2.toNat = (a.l2.toNat + c2) % 2 ^ 51 ∧
    (carry a).l3.toNat = (a.l3.toNat + c3) % 2 ^ 51 ∧
    (carry a).l4.toNat = (a.l4.toNat + c4) % 2 ^ 51 := by
  obtain ⟨h0, h1, h2, h3, h4⟩ := h
  obtain ⟨hrun1, hl1⟩ := carry_step (y := a.l0) h1
  obtain ⟨l1, e1⟩ : ∃ x, a.l1 + (a.l0 >>> 51) = x := ⟨_, rfl⟩
  rw [e1] at hrun1 hl1
  obtain ⟨hrun2, hl2⟩ := carry_step (y := l1) h2
  obtain ⟨l2, e2⟩ : ∃ x, a.l2 + (l1 >>> 51) = x := ⟨_, rfl⟩
  rw [e2] at hrun2 hl2
  obtain ⟨hrun3, hl3⟩ := carry_step (y := l2) h3
  obtain ⟨l3, e3⟩ : ∃ x, a.l3 + (l2 >>> 51) = x := ⟨_, rfl⟩
  rw [e3] at hrun3 hl3
  obtain ⟨hrun4, hl4⟩ := carry_step (y := l3) h4
  obtain ⟨l4, e4⟩ : ∃ x, a.l4 + (l3 >>> 51) = x := ⟨_, rfl⟩
  rw [e4] at hrun4 hl4
  have hc := toNat_shiftRight_51 l4
  have hl4lt := l4.toNat_lt
  obtain ⟨hrun5, hfold⟩ := times_nineteen (x := l4 >>> 51) (by omega)
  have hlow := toNat_and_mask51 a.l0
  obtain ⟨hrun6, hl0⟩ := plus_small (x := a.l0 &&& mask51) (y := (l4 >>> 51) * 19) (by omega)
    (by omega)
  have hcarry : carry a = ⟨(a.l0 &&& mask51) + (l4 >>> 51) * 19, l1 &&& mask51, l2 &&& mask51,
      l3 &&& mask51, l4 &&& mask51⟩ := by
    simp only [carry, e1, e2, e3, e4]
  refine ⟨_, _, _, _, _, rfl, rfl, rfl, rfl, rfl, ?_, ?_⟩
  · simp only [Checked.carry, hrun1, hrun2, hrun3, hrun4, hrun5, hrun6, Option.bind_eq_bind,
      Option.bind_some, hcarry]
  · rw [hcarry]
    simp only [toNat_and_mask51, hl0, hfold, hlow, hc, hl1, hl2, hl3, hl4]
    exact ⟨trivial, trivial, trivial, trivial, trivial⟩

/-- Carrying makes the limbs tight and keeps the element. -/
theorem carry_spec {a : Fe} (h : Bounded (2 ^ 63) a) :
    Checked.carry a = some (carry a) ∧ Tight (carry a) ∧ (carry a).toField = a.toField := by
  obtain ⟨c1, c2, c3, c4, c5, hc1, hc2, hc3, hc4, hc5, hrun, h0, h1, h2, h3, h4⟩ := carry_limbs h
  obtain ⟨b0, b1, b2, b3, b4⟩ := h
  refine ⟨hrun, ⟨?_, ?_, ?_, ?_, ?_⟩, ?_⟩
  · omega
  · omega
  · omega
  · omega
  · omega
  · have hvalue : a.value = (carry a).value + c5 * Rfc7748.P := by
      have hP : Rfc7748.P + 19 = 2 ^ 255 := by decide
      have hmul : c5 * Rfc7748.P + c5 * 19 = c5 * 2 ^ 255 := by rw [← Nat.mul_add, hP]
      rw [value, value, h0, h1, h2, h3, h4]
      omega
    have hzero : (Rfc7748.P : Rfc7748.Field) = 0 := ZMod.natCast_self _
    rw [toField, toField, hvalue]
    push_cast
    rw [hzero, mul_zero, add_zero]

/-! ## Sums and differences -/

theorem toField_eq (a : Fe) : a.toField = (a.l0.toNat : Rfc7748.Field) +
    a.l1.toNat * 2 ^ 51 + a.l2.toNat * (2 ^ 51) ^ 2 + a.l3.toNat * (2 ^ 51) ^ 3 +
    a.l4.toNat * (2 ^ 51) ^ 4 := by
  rw [toField, value]
  push_cast
  ring

theorem add_spec {a b : Fe} (ha : Tight a) (hb : Tight b) :
    Checked.add a b = some (a.add b) ∧ Bounded (2 ^ 53) (a.add b) ∧
      (a.add b).toField = a.toField + b.toField := by
  obtain ⟨a0, a1, a2, a3, a4⟩ := ha
  obtain ⟨b0, b1, b2, b3, b4⟩ := hb
  obtain ⟨r0, h0⟩ := plus_small (x := a.l0) (y := b.l0) (by omega) (by omega)
  obtain ⟨r1, h1⟩ := plus_small (x := a.l1) (y := b.l1) (by omega) (by omega)
  obtain ⟨r2, h2⟩ := plus_small (x := a.l2) (y := b.l2) (by omega) (by omega)
  obtain ⟨r3, h3⟩ := plus_small (x := a.l3) (y := b.l3) (by omega) (by omega)
  obtain ⟨r4, h4⟩ := plus_small (x := a.l4) (y := b.l4) (by omega) (by omega)
  refine ⟨?_, ⟨?_, ?_, ?_, ?_, ?_⟩, ?_⟩
  · simp only [Checked.add, r0, r1, r2, r3, r4, Option.bind_eq_bind, Option.bind_some, add]
  · rw [add, h0]
    omega
  · rw [add, h1]
    omega
  · rw [add, h2]
    omega
  · rw [add, h3]
    omega
  · rw [add, h4]
    omega
  · rw [toField_eq, toField_eq, toField_eq, add]
    simp only [h0, h1, h2, h3, h4]
    push_cast
    ring

/-- A limb of a difference: the constant that is added first is large enough. -/
theorem sub_limb {x y k : UInt64} {n : ℕ} (hk : k.toNat = n) (hx : x.toNat ≤ 2 ^ 53)
    (hn : n ≤ 2 ^ 55) (hy : y.toNat ≤ n) :
    ∃ w, x + k - y = w ∧ Checked.difference x k y = some w ∧
      w.toNat + y.toNat = x.toNat + n := by
  subst hk
  obtain ⟨hrun, hsum⟩ := plus_small (x := x) (y := k) (by omega) (by omega)
  have hle : y.toNat ≤ (x + k).toNat := by omega
  have hdiff : (x + k - y).toNat = (x + k).toNat - y.toNat := Word.toNat_sub (x + k) y hle
  refine ⟨x + k - y, rfl, ?_, by omega⟩
  rw [Checked.difference, hrun, Option.bind_eq_bind, Option.bind_some, Word.minus_eq hle]

/-- The constants of a difference make a multiple of the modulus. -/
theorem sixteen_P : 36028797018963664 + 2 ^ 51 * 36028797018963952 +
    2 ^ 102 * 36028797018963952 + 2 ^ 153 * 36028797018963952 + 2 ^ 204 * 36028797018963952 =
      16 * Rfc7748.P := by
  decide

theorem sub_spec {a b : Fe} (ha : Tight a) (hb : Tight b) :
    Checked.sub a b = some (a.sub b) ∧ Tight (a.sub b) ∧
      (a.sub b).toField = a.toField - b.toField := by
  obtain ⟨a0, a1, a2, a3, a4⟩ := ha
  obtain ⟨b0, b1, b2, b3, b4⟩ := hb
  have hk0 : (36028797018963664 : UInt64).toNat = 36028797018963664 := by decide
  have hk : (36028797018963952 : UInt64).toNat = 36028797018963952 := by decide
  obtain ⟨d0, e0, m0, h0⟩ := sub_limb (x := a.l0) (y := b.l0) hk0 (by omega) (by decide)
    (by omega)
  obtain ⟨d1, e1, m1, h1⟩ := sub_limb (x := a.l1) (y := b.l1) hk (by omega) (by decide)
    (by omega)
  obtain ⟨d2, e2, m2, h2⟩ := sub_limb (x := a.l2) (y := b.l2) hk (by omega) (by decide)
    (by omega)
  obtain ⟨d3, e3, m3, h3⟩ := sub_limb (x := a.l3) (y := b.l3) hk (by omega) (by decide)
    (by omega)
  obtain ⟨d4, e4, m4, h4⟩ := sub_limb (x := a.l4) (y := b.l4) hk (by omega) (by decide)
    (by omega)
  have hbounded : Bounded (2 ^ 63) ⟨d0, d1, d2, d3, d4⟩ := by
    refine ⟨?_, ?_, ?_, ?_, ?_⟩ <;> simp only <;> omega
  have hvalue : value ⟨d0, d1, d2, d3, d4⟩ + b.value = a.value + 16 * Rfc7748.P := by
    rw [← sixteen_P]
    simp only [value]
    omega
  obtain ⟨hrun, htight, hfield⟩ := carry_spec hbounded
  have hsub : a.sub b = carry ⟨d0, d1, d2, d3, d4⟩ := by rw [sub, e0, e1, e2, e3, e4]
  have hzero : (Rfc7748.P : Rfc7748.Field) = 0 := ZMod.natCast_self _
  rw [hsub]
  refine ⟨?_, htight, ?_⟩
  · simp only [Checked.sub, m0, m1, m2, m3, m4, Option.bind_eq_bind, Option.bind_some, hrun]
  · rw [hfield, eq_sub_iff_add_eq]
    have hcast := congrArg (Nat.cast (R := Rfc7748.Field)) hvalue
    push_cast at hcast
    rw [hzero, mul_zero, add_zero] at hcast
    exact hcast

/-! ## Products -/

theorem toNat_wide (x : UInt64) : (wide x).toNat = x.toNat := by
  rw [wide, BitVec.toNat_setWidth]
  exact Nat.mod_eq_of_lt (lt_of_lt_of_le x.toNat_lt (by decide))

theorem toNat_narrow (v : BitVec 128) : (narrow v).toNat = v.toNat % 2 ^ 64 := by
  change (v.setWidth 64).toNat = _
  rw [BitVec.toNat_setWidth]

theorem toNat_narrow_and (v : BitVec 128) : (narrow v &&& mask51).toNat = v.toNat % 2 ^ 51 := by
  rw [toNat_and_mask51, toNat_narrow]
  omega

/-- One limb of a wide carry. -/
theorem wide_step {x y : BitVec 128} (hx : x.toNat < 2 ^ 127) :
    Word.plus x (y >>> 51) = some (x + (y >>> 51)) ∧
      (x + (y >>> 51)).toNat = x.toNat + y.toNat / 2 ^ 51 := by
  have hy := y.isLt
  have hshift : (y >>> 51).toNat = y.toNat / 2 ^ 51 := by
    rw [BitVec.toNat_ushiftRight, Nat.shiftRight_eq_div_pow]
  have hsum : x.toNat + (y >>> 51).toNat < 2 ^ 128 := by omega
  refine ⟨Word.plus_eq hsum, ?_⟩
  rw [← hshift]
  exact Word.toNat_add x (y >>> 51) hsum

theorem reduceWide_spec {t0 t1 t2 t3 t4 : BitVec 128} (h0 : t0.toNat < 2 ^ 113)
    (h1 : t1.toNat < 2 ^ 113) (h2 : t2.toNat < 2 ^ 113) (h3 : t3.toNat < 2 ^ 113)
    (h4 : t4.toNat < 2 ^ 109) :
    Checked.reduceWide t0 t1 t2 t3 t4 = some (reduceWide t0 t1 t2 t3 t4) ∧
      Tight (reduceWide t0 t1 t2 t3 t4) ∧
      (reduceWide t0 t1 t2 t3 t4).toField = (t0.toNat : Rfc7748.Field) + t1.toNat * 2 ^ 51 +
        t2.toNat * (2 ^ 51) ^ 2 + t3.toNat * (2 ^ 51) ^ 3 + t4.toNat * (2 ^ 51) ^ 4 := by
  obtain ⟨r1, s1⟩ := wide_step (x := t1) (y := t0) (by omega)
  obtain ⟨v1, e1⟩ : ∃ v, t1 + (t0 >>> 51) = v := ⟨_, rfl⟩
  rw [e1] at r1 s1
  obtain ⟨r2, s2⟩ := wide_step (x := t2) (y := v1) (by omega)
  obtain ⟨v2, e2⟩ : ∃ v, t2 + (v1 >>> 51) = v := ⟨_, rfl⟩
  rw [e2] at r2 s2
  obtain ⟨r3, s3⟩ := wide_step (x := t3) (y := v2) (by omega)
  obtain ⟨v3, e3⟩ : ∃ v, t3 + (v2 >>> 51) = v := ⟨_, rfl⟩
  rw [e3] at r3 s3
  obtain ⟨r4, s4⟩ := wide_step (x := t4) (y := v3) (by omega)
  obtain ⟨v4, e4⟩ : ∃ v, t4 + (v3 >>> 51) = v := ⟨_, rfl⟩
  rw [e4] at r4 s4
  have hcarry : (narrow (v4 >>> 51)).toNat = v4.toNat / 2 ^ 51 := by
    rw [toNat_narrow, BitVec.toNat_ushiftRight, Nat.shiftRight_eq_div_pow]
    omega
  obtain ⟨r5, hfold⟩ := times_nineteen (x := narrow (v4 >>> 51)) (by omega)
  have hlow := toNat_narrow_and t0
  obtain ⟨r6, hl0⟩ := plus_small (x := narrow t0 &&& mask51) (y := narrow (v4 >>> 51) * 19)
    (by omega) (by omega)
  have n1 := toNat_narrow_and v1
  have n2 := toNat_narrow_and v2
  have n3 := toNat_narrow_and v3
  have n4 := toNat_narrow_and v4
  obtain ⟨d, hd⟩ : ∃ d : Fe, ⟨(narrow t0 &&& mask51) + narrow (v4 >>> 51) * 19, narrow v1 &&& mask51,
    narrow v2 &&& mask51, narrow v3 &&& mask51, narrow v4 &&& mask51⟩ = d := ⟨_, rfl⟩
  have hbounded : Bounded (2 ^ 63) d := by
    rw [← hd]
    refine ⟨?_, ?_, ?_, ?_, ?_⟩ <;> simp only <;> omega
  obtain ⟨hrun, htight, hfield⟩ := carry_spec hbounded
  have hreduce : reduceWide t0 t1 t2 t3 t4 = carry d := by
    simp only [reduceWide, e1, e2, e3, e4, hd]
  have hvalue : t0.toNat + 2 ^ 51 * t1.toNat + 2 ^ 102 * t2.toNat + 2 ^ 153 * t3.toNat +
      2 ^ 204 * t4.toNat = d.value + v4.toNat / 2 ^ 51 * Rfc7748.P := by
    have hP : Rfc7748.P + 19 = 2 ^ 255 := by decide
    have hmul : v4.toNat / 2 ^ 51 * Rfc7748.P + v4.toNat / 2 ^ 51 * 19 =
        v4.toNat / 2 ^ 51 * 2 ^ 255 := by rw [← Nat.mul_add, hP]
    rw [← hd]
    simp only [value, n1, n2, n3, n4, hl0, hlow, hfold, hcarry]
    omega
  have hzero : (Rfc7748.P : Rfc7748.Field) = 0 := ZMod.natCast_self _
  rw [hreduce]
  refine ⟨?_, htight, ?_⟩
  · simp only [Checked.reduceWide, r1, r2, r3, r4, r5, r6, Option.bind_eq_bind, Option.bind_some,
      hd, hrun]
  · have hcast := congrArg (Nat.cast (R := Rfc7748.Field)) hvalue
    push_cast at hcast
    rw [hzero, mul_zero, add_zero] at hcast
    rw [hfield, toField, ← hcast]
    ring

/-- A product of wide words. -/
theorem wide_product {x y : UInt64} {m n : ℕ} (hx : x.toNat ≤ m) (hy : y.toNat ≤ n)
    (hmn : m * n < 2 ^ 128) : Word.times (wide x) (wide y) = some (wide x * wide y) ∧
      (wide x * wide y).toNat = x.toNat * y.toNat ∧ x.toNat * y.toNat ≤ m * n := by
  have hle : x.toNat * y.toNat ≤ m * n := Nat.mul_le_mul hx hy
  have hprod : (wide x).toNat * (wide y).toNat < 2 ^ 128 := by
    rw [toNat_wide, toNat_wide]
    omega
  refine ⟨Word.times_eq hprod, ?_, hle⟩
  rw [← toNat_wide x, ← toNat_wide y]
  exact Word.toNat_mul (wide x) (wide y) hprod

theorem wide_plus {x y : BitVec 128} (h : x.toNat + y.toNat < 2 ^ 128) :
    Word.plus x y = some (x + y) ∧ (x + y).toNat = x.toNat + y.toNat :=
  ⟨Word.plus_eq h, Word.toNat_add x y h⟩

/-- A column of a product, with limbs of one factor folded or not. -/
theorem column_spec {x y : Fin 5 → UInt64} {n : ℕ} (hx : ∀ i, (x i).toNat ≤ 2 ^ 53)
    (hy : ∀ i, (y i).toNat ≤ n) (hn : n ≤ 2 ^ 58) :
    Checked.column x y = some (wide (x 0) * wide (y 0) + wide (x 1) * wide (y 1) +
      wide (x 2) * wide (y 2) + wide (x 3) * wide (y 3) + wide (x 4) * wide (y 4)) ∧
    (wide (x 0) * wide (y 0) + wide (x 1) * wide (y 1) + wide (x 2) * wide (y 2) +
      wide (x 3) * wide (y 3) + wide (x 4) * wide (y 4)).toNat =
        (x 0).toNat * (y 0).toNat + (x 1).toNat * (y 1).toNat + (x 2).toNat * (y 2).toNat +
          (x 3).toNat * (y 3).toNat + (x 4).toNat * (y 4).toNat ∧
    (wide (x 0) * wide (y 0) + wide (x 1) * wide (y 1) + wide (x 2) * wide (y 2) +
      wide (x 3) * wide (y 3) + wide (x 4) * wide (y 4)).toNat ≤ 5 * (2 ^ 53 * n) := by
  have hroom : 2 ^ 53 * n < 2 ^ 112 := by omega
  obtain ⟨r0, e0, l0⟩ := wide_product (hx 0) (hy 0) (by omega)
  obtain ⟨r1, e1, l1⟩ := wide_product (hx 1) (hy 1) (by omega)
  obtain ⟨r2, e2, l2⟩ := wide_product (hx 2) (hy 2) (by omega)
  obtain ⟨r3, e3, l3⟩ := wide_product (hx 3) (hy 3) (by omega)
  obtain ⟨r4, e4, l4⟩ := wide_product (hx 4) (hy 4) (by omega)
  obtain ⟨p1, s1⟩ := wide_plus (x := wide (x 0) * wide (y 0)) (y := wide (x 1) * wide (y 1))
    (by omega)
  obtain ⟨p2, s2⟩ := wide_plus (x := wide (x 0) * wide (y 0) + wide (x 1) * wide (y 1))
    (y := wide (x 2) * wide (y 2)) (by omega)
  obtain ⟨p3, s3⟩ := wide_plus (x := wide (x 0) * wide (y 0) + wide (x 1) * wide (y 1) +
    wide (x 2) * wide (y 2)) (y := wide (x 3) * wide (y 3)) (by omega)
  obtain ⟨p4, s4⟩ := wide_plus (x := wide (x 0) * wide (y 0) + wide (x 1) * wide (y 1) +
    wide (x 2) * wide (y 2) + wide (x 3) * wide (y 3)) (y := wide (x 4) * wide (y 4)) (by omega)
  refine ⟨?_, by rw [s4, s3, s2, s1, e0, e1, e2, e3, e4], by omega⟩
  simp only [Checked.column, r0, r1, r2, r3, r4, p1, p2, p3, p4, Option.bind_eq_bind,
    Option.bind_some]

/-- All entries of a row of five are below a bound. -/
theorem forall_row (x0 x1 x2 x3 x4 : UInt64) {n : ℕ} (h0 : x0.toNat ≤ n) (h1 : x1.toNat ≤ n)
    (h2 : x2.toNat ≤ n) (h3 : x3.toNat ≤ n) (h4 : x4.toNat ≤ n) (i : Fin 5) :
    ((![x0, x1, x2, x3, x4] : Fin 5 → UInt64) i).toNat ≤ n := by
  fin_cases i
  exacts [h0, h1, h2, h3, h4]

theorem mul_spec {a b : Fe} (ha : Bounded (2 ^ 53) a) (hb : Bounded (2 ^ 53) b) :
    Checked.mul a b = some (a.mul b) ∧ Tight (a.mul b) ∧
      (a.mul b).toField = a.toField * b.toField := by
  obtain ⟨a0, a1, a2, a3, a4⟩ := ha
  obtain ⟨b0, b1, b2, b3, b4⟩ := hb
  obtain ⟨r1, f1⟩ := times_nineteen (x := b.l1) (by omega)
  obtain ⟨r2, f2⟩ := times_nineteen (x := b.l2) (by omega)
  obtain ⟨r3, f3⟩ := times_nineteen (x := b.l3) (by omega)
  obtain ⟨r4, f4⟩ := times_nineteen (x := b.l4) (by omega)
  have hrow := forall_row _ _ _ _ _ a0 a1 a2 a3 a4
  have hn : 2 ^ 53 * 19 ≤ 2 ^ 58 := by decide
  obtain ⟨c0, e0, l0⟩ := column_spec hrow (forall_row b.l0 (b.l4 * 19) (b.l3 * 19)
    (b.l2 * 19) (b.l1 * 19) (n := 2 ^ 53 * 19)
    (by omega) (by omega) (by omega) (by omega) (by omega)) hn
  obtain ⟨c1, e1, l1⟩ := column_spec hrow (forall_row b.l1 b.l0 (b.l4 * 19)
    (b.l3 * 19) (b.l2 * 19) (n := 2 ^ 53 * 19)
    (by omega) (by omega) (by omega) (by omega) (by omega)) hn
  obtain ⟨c2, e2, l2⟩ := column_spec hrow (forall_row b.l2 b.l1 b.l0
    (b.l4 * 19) (b.l3 * 19) (n := 2 ^ 53 * 19)
    (by omega) (by omega) (by omega) (by omega) (by omega)) hn
  obtain ⟨c3, e3, l3⟩ := column_spec hrow (forall_row b.l3 b.l2 b.l1
    b.l0 (b.l4 * 19) (n := 2 ^ 53 * 19)
    (by omega) (by omega) (by omega) (by omega) (by omega)) hn
  obtain ⟨c4, e4, l4⟩ := column_spec hrow (forall_row _ _ _ _ _ b4 b3 b2 b1 b0) (by decide)
  obtain ⟨hrun, htight, hfield⟩ := reduceWide_spec (Nat.lt_of_le_of_lt l0 (by decide))
    (Nat.lt_of_le_of_lt l1 (by decide)) (Nat.lt_of_le_of_lt l2 (by decide))
    (Nat.lt_of_le_of_lt l3 (by decide)) (Nat.lt_of_le_of_lt l4 (by decide))
  refine ⟨?_, htight, ?_⟩
  · simp only [Checked.mul, r1, r2, r3, r4, c0, c1, c2, c3, c4, Option.bind_eq_bind,
      Option.bind_some, hrun]
    rfl
  · have hfold := Rfc7748.two_pow_51
    refine hfield.trans ?_
    rw [e0, e1, e2, e3, e4, toField_eq a, toField_eq b]
    simp only [Matrix.cons_val, f1, f2, f3, f4]
    generalize (2 : Rfc7748.Field) ^ 51 = B at hfold ⊢
    push_cast
    linear_combination (-((a.l1.toNat : Rfc7748.Field) * b.l4.toNat + a.l2.toNat * b.l3.toNat +
        a.l3.toNat * b.l2.toNat + a.l4.toNat * b.l1.toNat) -
      (a.l2.toNat * b.l4.toNat + a.l3.toNat * b.l3.toNat + a.l4.toNat * b.l2.toNat) * B -
      (a.l3.toNat * b.l4.toNat + a.l4.toNat * b.l3.toNat) * B ^ 2 -
      a.l4.toNat * b.l4.toNat * B ^ 3) * hfold

theorem mulSmall_spec {a : Fe} {k : UInt64} (ha : Bounded (2 ^ 53) a) (hk : k.toNat ≤ 2 ^ 17) :
    Checked.mulSmall a k = some (a.mulSmall k) ∧ Tight (a.mulSmall k) ∧
      (a.mulSmall k).toField = a.toField * k.toNat := by
  obtain ⟨a0, a1, a2, a3, a4⟩ := ha
  obtain ⟨r0, e0, l0⟩ := wide_product a0 hk (by decide)
  obtain ⟨r1, e1, l1⟩ := wide_product a1 hk (by decide)
  obtain ⟨r2, e2, l2⟩ := wide_product a2 hk (by decide)
  obtain ⟨r3, e3, l3⟩ := wide_product a3 hk (by decide)
  obtain ⟨r4, e4, l4⟩ := wide_product a4 hk (by decide)
  have hroom : 2 ^ 53 * 2 ^ 17 < 2 ^ 109 ∧ 2 ^ 53 * 2 ^ 17 < 2 ^ 113 := by decide
  obtain ⟨hrun, htight, hfield⟩ := reduceWide_spec
    (Nat.lt_of_le_of_lt (e0.trans_le l0) hroom.2) (Nat.lt_of_le_of_lt (e1.trans_le l1) hroom.2)
    (Nat.lt_of_le_of_lt (e2.trans_le l2) hroom.2) (Nat.lt_of_le_of_lt (e3.trans_le l3) hroom.2)
    (Nat.lt_of_le_of_lt (e4.trans_le l4) hroom.1)
  refine ⟨?_, htight, ?_⟩
  · simp only [Checked.mulSmall, r0, r1, r2, r3, r4, Option.bind_eq_bind, Option.bind_some, hrun]
    rfl
  · refine hfield.trans ?_
    rw [e0, e1, e2, e3, e4, toField_eq]
    push_cast
    ring

/-! ## The canonical form -/

/-- A second carry leaves nothing to carry. -/
theorem Tight.carry_lt {a : Fe} (h : Tight a) : Bounded (2 ^ 51 - 1) (carry a) := by
  obtain ⟨c1, c2, c3, c4, c5, hc1, hc2, hc3, hc4, hc5, -, h0, h1, h2, h3, h4⟩ :=
    carry_limbs (h.bounded.mono (by decide))
  obtain ⟨b0, b1, b2, b3, b4⟩ := h
  refine ⟨?_, ?_, ?_, ?_, ?_⟩ <;> omega

/-- The quotient that `freeze` finds. -/
def quotient (a : Fe) : UInt64 :=
  let q := (a.l0 + 19) >>> 51
  let q := (a.l1 + q) >>> 51
  let q := (a.l2 + q) >>> 51
  let q := (a.l3 + q) >>> 51
  (a.l4 + q) >>> 51

/-- What `freeze` does with the quotient. -/
def dropTop (a : Fe) (q : UInt64) : Fe :=
  let l0 := a.l0 + 19 * q
  let l1 := a.l1 + (l0 >>> 51)
  let l0 := l0 &&& mask51
  let l2 := a.l2 + (l1 >>> 51)
  let l1 := l1 &&& mask51
  let l3 := a.l3 + (l2 >>> 51)
  let l2 := l2 &&& mask51
  let l4 := a.l4 + (l3 >>> 51)
  let l3 := l3 &&& mask51
  let l4 := l4 &&& mask51
  ⟨l0, l1, l2, l3, l4⟩

theorem freeze_eq (a : Fe) : freeze a = dropTop a.carry.carry (quotient a.carry.carry) := rfl

/-- One limb of the chain that finds the quotient. -/
theorem quotient_step {x q : UInt64} {n : ℕ} (hx : x.toNat ≤ 2 ^ 51 - 1) (hq : q.toNat = n)
    (hn : n ≤ 19) : ∃ w, (x + q) >>> 51 = w ∧ Word.plus x q = some (x + q) ∧
      w.toNat = (x.toNat + n) / 2 ^ 51 := by
  obtain ⟨hrun, hsum⟩ := plus_small (x := x) (y := q) (by omega) (by omega)
  exact ⟨(x + q) >>> 51, rfl, hrun, by rw [toNat_shiftRight_51, hsum, hq]⟩

/-- The quotient of a number below `2 ^ 255`: adding 19 reaches `2 ^ 255` exactly if the number is
not below the modulus. -/
theorem quotient_spec {a : Fe} (h : Bounded (2 ^ 51 - 1) a) :
    Checked.quotient a = some (quotient a) ∧ (quotient a).toNat ≤ 1 ∧
      (quotient a).toNat * 2 ^ 255 ≤ a.value + 19 ∧
      a.value + 19 < ((quotient a).toNat + 1) * 2 ^ 255 := by
  obtain ⟨h0, h1, h2, h3, h4⟩ := h
  obtain ⟨w0, e0, r0, q0⟩ := quotient_step h0 (q := 19) (n := 19) rfl (by decide)
  obtain ⟨w1, e1, r1, q1⟩ := quotient_step h1 q0 (by omega)
  obtain ⟨w2, e2, r2, q2⟩ := quotient_step h2 q1 (by omega)
  obtain ⟨w3, e3, r3, q3⟩ := quotient_step h3 q2 (by omega)
  obtain ⟨w4, e4, r4, q4⟩ := quotient_step h4 q3 (by omega)
  have hquotient : quotient a = w4 := by
    rw [quotient]
    simp only [e0, e1, e2, e3, e4]
  rw [hquotient]
  refine ⟨?_, ?_, ?_, ?_⟩
  · simp only [Checked.quotient, r0, r1, r2, r3, r4, e0, e1, e2, e3, e4, Option.bind_eq_bind,
      Option.bind_some]
  · omega
  · rw [value]
    omega
  · rw [value]
    omega

/-- The quotient's multiple of 19 is added, and a multiple of `2 ^ 255` is dropped. -/
theorem dropTop_spec {a : Fe} {q : UInt64} (h : Bounded (2 ^ 51 - 1) a) (hq : q.toNat ≤ 1) :
    Checked.dropTop a q = some (dropTop a q) ∧ Bounded (2 ^ 51 - 1) (dropTop a q) ∧
      ∃ c, (dropTop a q).value + c * 2 ^ 255 = a.value + 19 * q.toNat := by
  obtain ⟨h0, h1, h2, h3, h4⟩ := h
  have hprod : (19 : UInt64).toNat * q.toNat < 2 ^ 64 := by
    change 19 * q.toNat < 2 ^ 64
    omega
  have hm : ((19 : UInt64) * q).toNat = 19 * q.toNat := Word.toNat_mul 19 q hprod
  obtain ⟨m, em, rm⟩ : ∃ m, (19 : UInt64) * q = m ∧ Word.times 19 q = some m :=
    ⟨19 * q, rfl, Word.times_eq hprod⟩
  rw [em] at hm
  obtain ⟨l0, e0, r0, v0⟩ : ∃ w, a.l0 + m = w ∧ Word.plus a.l0 m = some w ∧
      w.toNat = a.l0.toNat + m.toNat := by
    obtain ⟨hrun, hsum⟩ := plus_small (x := a.l0) (y := m) (by omega) (by omega)
    exact ⟨a.l0 + m, rfl, hrun, hsum⟩
  have hstep : ∀ x y : UInt64, x.toNat ≤ 2 ^ 51 - 1 → ∃ w, x + (y >>> 51) = w ∧
      Word.plus x (y >>> 51) = some w ∧ w.toNat = x.toNat + y.toNat / 2 ^ 51 := by
    intro x y hx
    obtain ⟨hrun, hsum⟩ := carry_step (x := x) (y := y) (by omega)
    exact ⟨x + (y >>> 51), rfl, hrun, hsum⟩
  obtain ⟨l1, e1, r1, v1⟩ := hstep a.l1 l0 h1
  obtain ⟨l2, e2, r2, v2⟩ := hstep a.l2 l1 h2
  obtain ⟨l3, e3, r3, v3⟩ := hstep a.l3 l2 h3
  obtain ⟨l4, e4, r4, v4⟩ := hstep a.l4 l3 h4
  have hdrop : dropTop a q = ⟨l0 &&& mask51, l1 &&& mask51, l2 &&& mask51, l3 &&& mask51,
      l4 &&& mask51⟩ := by
    rw [dropTop]
    simp only [em, e0, e1, e2, e3, e4]
  rw [hdrop]
  refine ⟨?_, ?_, l4.toNat / 2 ^ 51, ?_⟩
  · simp only [Checked.dropTop, rm, r0, r1, r2, r3, r4, Option.bind_eq_bind, Option.bind_some]
  · refine ⟨?_, ?_, ?_, ?_, ?_⟩ <;> simp only [toNat_and_mask51] <;> omega
  · simp only [value, toNat_and_mask51]
    omega

theorem Bounded.value_lt {a : Fe} (h : Bounded (2 ^ 51 - 1) a) : a.value < 2 ^ 255 := by
  obtain ⟨h0, h1, h2, h3, h4⟩ := h
  rw [value]
  omega

/-- Freezing is exact, also next to the modulus. -/
theorem freeze_spec {a : Fe} (h : Bounded (2 ^ 63) a) :
    Checked.freeze a = some (freeze a) ∧ Bounded (2 ^ 51 - 1) (freeze a) ∧
      (freeze a).value < Rfc7748.P ∧ (freeze a).toField = a.toField := by
  obtain ⟨hrun, htight, hfield⟩ := carry_spec h
  obtain ⟨hrun', -, hfield'⟩ := carry_spec (htight.bounded.mono (by decide))
  have hreduced := htight.carry_lt
  obtain ⟨b, hb⟩ : ∃ b, carry (carry a) = b := ⟨_, rfl⟩
  rw [hb] at hrun' hreduced hfield'
  obtain ⟨hrunq, hq, hlow, hhigh⟩ := quotient_spec hreduced
  obtain ⟨hrund, hlimbs, c, hsum⟩ := dropTop_spec hreduced hq
  have hfreeze : freeze a = dropTop b (quotient b) := by rw [freeze_eq, hb]
  have hlt := hlimbs.value_lt
  have hbefore := hreduced.value_lt
  rw [hfreeze]
  obtain ⟨g, hg⟩ : ∃ g, dropTop b (quotient b) = g := ⟨_, rfl⟩
  rw [hg] at hrund hlimbs hsum hlt ⊢
  obtain ⟨q, hqval⟩ : ∃ q, (quotient b).toNat = q := ⟨_, rfl⟩
  rw [hqval] at hq hlow hhigh hsum
  have hP : Rfc7748.P + 19 = 2 ^ 255 := by decide
  have hvalue : b.value = g.value + q * Rfc7748.P ∧ g.value < Rfc7748.P := by
    obtain rfl | rfl : q = 0 ∨ q = 1 := by omega
    · omega
    · omega
  have hzero : (Rfc7748.P : Rfc7748.Field) = 0 := ZMod.natCast_self _
  refine ⟨?_, hlimbs, hvalue.2, ?_⟩
  · simp only [Checked.freeze, hrun, hrun', hrunq, hrund, Option.bind_eq_bind, Option.bind_some]
  · rw [← hfield, ← hfield', toField, toField, hvalue.1]
    push_cast
    rw [hzero, mul_zero, add_zero]

/-- The number of the canonical form is that of the element. -/
theorem value_freeze {a : Fe} (h : Bounded (2 ^ 63) a) : (freeze a).value = a.toField.val := by
  obtain ⟨-, -, hlt, hfield⟩ := freeze_spec h
  rw [← hfield, toField, ZMod.val_natCast, Nat.mod_eq_of_lt hlt]

/-! ## Encodings -/

/-- A word above the bits of another one. -/
theorem toNat_or_shiftLeft {x y k : UInt64} {s : ℕ} (hk : k.toNat = s) (hs : s < 64)
    (hx : x.toNat < 2 ^ s) : (x ||| (y <<< k)).toNat = x.toNat + 2 ^ s * (y.toNat % 2 ^ (64 - s)) := by
  have hpow : 2 ^ 64 = 2 ^ s * 2 ^ (64 - s) := by
    rw [← pow_add]
    congr 1
    omega
  have hshift : (y <<< k).toNat = (y.toNat % 2 ^ (64 - s)) <<< s := by
    rw [UInt64.toNat_shiftLeft, hk, Nat.mod_eq_of_lt hs, Nat.shiftLeft_eq, Nat.shiftLeft_eq, hpow,
      Nat.mul_comm, Nat.mul_mod_mul_left, Nat.mul_comm]
  rw [UInt64.toNat_or, hshift, or_shiftLeft hx]

theorem toNat_shiftRight {x k : UInt64} {s : ℕ} (hk : k.toNat = s) (hs : s < 64) :
    (x >>> k).toNat = x.toNat / 2 ^ s := by
  rw [UInt64.toNat_shiftRight, hk, Nat.mod_eq_of_lt hs, Nat.shiftRight_eq_div_pow]

/-- The bytes of four words. -/
theorem leNat_words (w0 w1 w2 w3 : UInt64) :
    leNat ([w0, w1, w2, w3].flatMap fun word => leBytes 8 word.toNat) =
      w0.toNat + 2 ^ 64 * (w1.toNat + 2 ^ 64 * (w2.toNat + 2 ^ 64 * w3.toNat)) := by
  have hword : ∀ w : UInt64, leNat (leBytes 8 w.toNat) = w.toNat := fun w =>
    leNat_leBytes_of_lt w.toNat_lt
  rw [List.flatMap_cons, List.flatMap_cons, List.flatMap_cons, List.flatMap_cons, List.flatMap_nil,
    List.append_nil, leNat_append, leNat_append, leNat_append, hword, hword, hword, hword,
    length_leBytes, length_leBytes, length_leBytes]

/-- The encoding is the canonical one of the element. -/
theorem toBytes_eq {a : Fe} (h : Bounded (2 ^ 63) a) : a.toBytes = leBytes 32 a.toField.val := by
  obtain ⟨-, hlimbs, -, -⟩ := freeze_spec h
  have hvalue := value_freeze h
  obtain ⟨t, ht⟩ : ∃ t, freeze a = t := ⟨_, rfl⟩
  rw [ht] at hlimbs hvalue
  obtain ⟨h0, h1, h2, h3, h4⟩ := hlimbs
  have s1 := toNat_shiftRight (x := t.l1) (k := 13) (s := 13) rfl (by decide)
  have s2 := toNat_shiftRight (x := t.l2) (k := 26) (s := 26) rfl (by decide)
  have s3 := toNat_shiftRight (x := t.l3) (k := 39) (s := 39) rfl (by decide)
  have w0 := toNat_or_shiftLeft (x := t.l0) (y := t.l1) (k := 51) (s := 51) rfl (by decide) (by omega)
  have w1 := toNat_or_shiftLeft (x := t.l1 >>> 13) (y := t.l2) (k := 38) (s := 38) rfl (by decide)
    (by rw [s1]; omega)
  have w2 := toNat_or_shiftLeft (x := t.l2 >>> 26) (y := t.l3) (k := 25) (s := 25) rfl (by decide)
    (by rw [s2]; omega)
  have w3 := toNat_or_shiftLeft (x := t.l3 >>> 39) (y := t.l4) (k := 12) (s := 12) rfl (by decide)
    (by rw [s3]; omega)
  have hbytes : leNat a.toBytes = a.toField.val := by
    rw [toBytes, ht, leNat_words, w0, w1, w2, w3, s1, s2, s3, ← hvalue, value]
    omega
  have hlen : a.toBytes.length = 32 := by simp [toBytes]
  have hround := leBytes_leNat a.toBytes
  rw [hlen, hbytes] at hround
  exact hround.symm

/-- Eight bytes as a word. -/
theorem toNat_load (bytes : Bytes) (i : ℕ) :
    (load bytes i).toNat = limbSum 256 (fun k => (bytes.getD (i + k) 0).toNat) 8 := by
  have hloop : ∀ n ≤ 8, ((List.range n).foldl
      (fun x k => x ||| ((bytes.getD (i + k) 0).toUInt64 <<< UInt64.ofNat (8 * k)))
        (0 : UInt64)).toNat = limbSum 256 (fun k => (bytes.getD (i + k) 0).toNat) n := by
    intro n hn
    induction n with
    | zero => rfl
    | succ n ih =>
      have hbelow := ih (by omega)
      have hpow : 2 ^ (8 * n) = 256 ^ n := pow_mul 2 8 n
      have hlt : limbSum 256 (fun k => (bytes.getD (i + k) 0).toNat) n < 2 ^ (8 * n) := by
        rw [hpow]
        exact limbSum_lt fun k _ => UInt8.toNat_lt _
      have hamount : (UInt64.ofNat (8 * n)).toNat = 8 * n := by
        rw [UInt64.toNat_ofNat']
        omega
      have hbyte : (bytes.getD (i + n) 0).toNat < 2 ^ (64 - 8 * n) :=
        lt_of_lt_of_le (UInt8.toNat_lt _) (Nat.pow_le_pow_right (by decide) (by omega : 8 ≤ 64 - 8 * n))
      rw [List.range_succ, List.foldl_append, List.foldl_cons, List.foldl_nil,
        toNat_or_shiftLeft hamount (by omega) (by rw [hbelow]; exact hlt), hbelow, limbSum_succ,
        UInt8.toNat_toUInt64, Nat.mod_eq_of_lt hbyte, hpow, Nat.mul_comm]
  exact hloop 8 le_rfl

/-- Decoding drops the top bit and nothing else. -/
theorem fromBytes_spec {bytes : Bytes} (h : bytes.length = 32) :
    Bounded (2 ^ 51 - 1) (fromBytes bytes) ∧ (fromBytes bytes).value = leNat bytes % 2 ^ 255 := by
  have hnat : leNat bytes = (load bytes 0).toNat + 2 ^ 64 * ((load bytes 8).toNat +
      2 ^ 64 * ((load bytes 16).toNat + 2 ^ 64 * (load bytes 24).toNat)) := by
    rw [toNat_load, toNat_load, toNat_load, toNat_load, leNat_eq_limbSum (n := 8 + (8 + (8 + 8))) h.le,
      limbSum_add, limbSum_add, limbSum_add]
    simp only [Nat.zero_add, ← Nat.add_assoc]
    rfl
  have l0 := (load bytes 0).toNat_lt
  have l1 := (load bytes 8).toNat_lt
  have l2 := (load bytes 16).toNat_lt
  have l3 := (load bytes 24).toNat_lt
  have s0 := toNat_shiftRight (x := load bytes 0) (k := 51) (s := 51) rfl (by decide)
  have s1 := toNat_shiftRight (x := load bytes 8) (k := 38) (s := 38) rfl (by decide)
  have s2 := toNat_shiftRight (x := load bytes 16) (k := 25) (s := 25) rfl (by decide)
  have s3 := toNat_shiftRight (x := load bytes 24) (k := 12) (s := 12) rfl (by decide)
  have w1 := toNat_or_shiftLeft (x := load bytes 0 >>> 51) (y := load bytes 8) (k := 13) (s := 13) rfl
    (by decide) (by rw [s0]; omega)
  have w2 := toNat_or_shiftLeft (x := load bytes 8 >>> 38) (y := load bytes 16) (k := 26) (s := 26)
    rfl (by decide) (by rw [s1]; omega)
  have w3 := toNat_or_shiftLeft (x := load bytes 16 >>> 25) (y := load bytes 24) (k := 39) (s := 39)
    rfl (by decide) (by rw [s2]; omega)
  refine ⟨?_, ?_⟩
  · refine ⟨?_, ?_, ?_, ?_, ?_⟩ <;> simp only [fromBytes, toNat_and_mask51] <;> omega
  · rw [hnat, fromBytes, value]
    simp only [toNat_and_mask51, w1, w2, w3, s0, s1, s2, s3]
    omega

end Fe

end Ciphra
