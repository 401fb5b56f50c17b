import Ciphra.Primitives.Field25519

/-!
# The ladder of X25519

The Montgomery ladder of RFC 7748 with exact arithmetic in the field, and the one of the program. In
every round the four coordinates of the program are tight limbs of those of the standard
(`Ladder.Follows`), which leaves room for the additions of the round; so the result is the encoding
of the standard's result and nothing overflows (`scalarmult_exact`).
-/

namespace Ciphra

namespace Rfc7748

/-! ## The standard -/

/-- `decodeScalar25519`: three bits of the lowest byte and two of the highest are fixed. -/
def decodeScalar (k : Bytes) : ℕ :=
  let k := k.set 0 (k.getD 0 0 &&& 248)
  let k := k.set 31 (k.getD 31 0 &&& 127)
  let k := k.set 31 (k.getD 31 0 ||| 64)
  leNat k

/-- `decodeUCoordinate`: the top bit is not part of the number. -/
def decodeUCoordinate (u : Bytes) : Field := (leNat u % 2 ^ 255 : ℕ)

/-- The variables of the ladder. -/
structure Ladder where
  x2 : Field
  z2 : Field
  x3 : Field
  z3 : Field
  swap : Bool

namespace Ladder

/-- Conditional swap of both coordinates. -/
def cswap (s : Ladder) (swap : Bool) : Ladder :=
  if swap then { s with x2 := s.x3, x3 := s.x2, z2 := s.z3, z3 := s.z2 } else s

/-- The arithmetic of a round. -/
def doubleAdd (x1 : Field) (s : Ladder) : Ladder :=
  let A := s.x2 + s.z2
  let AA := A ^ 2
  let B := s.x2 - s.z2
  let BB := B ^ 2
  let E := AA - BB
  let C := s.x3 + s.z3
  let D := s.x3 - s.z3
  let DA := D * A
  let CB := C * B
  { s with
    x3 := (DA + CB) ^ 2
    z3 := x1 * (DA - CB) ^ 2
    x2 := AA * BB
    z2 := E * (AA + 121665 * E) }

/-- Round `t`. -/
def step (k : ℕ) (x1 : Field) (s : Ladder) (t : ℕ) : Ladder :=
  let s := s.cswap (s.swap ^^ k.testBit t)
  { doubleAdd x1 s with swap := k.testBit t }

end Ladder

/-- The function X25519; the inverse is the power `p - 2`. -/
def x25519 (k u : Bytes) : Bytes :=
  let x1 := decodeUCoordinate u
  let s := (List.range 255).reverse.foldl (Ladder.step (decodeScalar k) x1) ⟨1, 0, x1, 1, false⟩
  let s := s.cswap s.swap
  leBytes 32 (s.x2 * s.z2 ^ (P - 2)).val

end Rfc7748

/-! ## The program with overflow checks -/

namespace Fe.Checked

def square (a : Fe) : Option Fe := mul a a

/-- `n` squarings. -/
def squareTimes : ℕ → Fe → Option Fe
  | 0, a => some a
  | n + 1, a => do squareTimes n (← square a)

def invert (z1 : Fe) : Option Fe := do
  let z2 ← square z1
  let z8 ← square (← square z2)
  let z9 ← mul z1 z8
  let z11 ← mul z2 z9
  let z22 ← square z11
  let z_5_0 ← mul z9 z22
  let z_10_0 ← mul (← squareTimes 5 z_5_0) z_5_0
  let z_20_0 ← mul (← squareTimes 10 z_10_0) z_10_0
  let z_40_0 ← mul (← squareTimes 20 z_20_0) z_20_0
  let z_50_0 ← mul (← squareTimes 10 z_40_0) z_10_0
  let z_100_0 ← mul (← squareTimes 50 z_50_0) z_50_0
  let z_200_0 ← mul (← squareTimes 100 z_100_0) z_100_0
  let z_250_0 ← mul (← squareTimes 50 z_200_0) z_50_0
  mul (← squareTimes 5 z_250_0) z11

def toBytes (a : Fe) : Option Bytes := do
  let t ← freeze a
  let packed := [t.l0 ||| (t.l1 <<< 51), (t.l1 >>> 13) ||| (t.l2 <<< 38),
    (t.l2 >>> 26) ||| (t.l3 <<< 25), (t.l3 >>> 39) ||| (t.l4 <<< 12)]
  some (packed.flatMap fun word => leBytes 8 word.toNat)

end Fe.Checked

namespace Ladder.Checked

open Fe.Checked

def step (k : Bytes) (x1 : Fe) (s : Ladder) (t : ℕ) : Option Ladder := do
  let bit := ((k.getD (t >>> 3) 0 >>> UInt8.ofNat (t &&& 7)) &&& 1).toUInt64
  let s := s.cswap (s.swap ^^^ bit)
  let a ← add s.x2 s.z2
  let aa ← square a
  let b ← sub s.x2 s.z2
  let bb ← square b
  let e ← sub aa bb
  let c ← add s.x3 s.z3
  let d ← sub s.x3 s.z3
  let da ← mul d a
  let cb ← mul c b
  let x3 ← square (← add da cb)
  let z3 ← mul x1 (← square (← sub da cb))
  let x2 ← mul aa bb
  let z2 ← mul e (← add aa (← mulSmall e 121665))
  some { x3, z3, x2, z2, swap := bit }

end Ladder.Checked

namespace Checked

/-- The scalar multiplication with overflow checks. -/
def scalarmult (scalar u : Bytes) : Option Bytes := do
  let k := clampScalar scalar
  let x1 := Fe.fromBytes u
  let s ← (List.range 255).reverse.foldlM (Ladder.Checked.step k x1) ⟨.one, .zero, x1, .one, 0⟩
  let s := s.cswap s.swap
  Fe.Checked.toBytes (← Fe.Checked.mul s.x2 (← Fe.Checked.invert s.z2))

end Checked

/-! ## The inverse -/

namespace Fe

/-- `a` is a tight representation of a power of `z`. -/
def Power (z : Rfc7748.Field) (n : ℕ) (a : Fe) : Prop := Tight a ∧ a.toField = z ^ n

variable {z : Rfc7748.Field}

theorem Power.mul {m n : ℕ} {a b : Fe} (ha : Power z m a) (hb : Power z n b) :
    ∃ c, a.mul b = c ∧ Checked.mul a b = some c ∧ Power z (m + n) c := by
  obtain ⟨hrun, htight, hfield⟩ := mul_spec ha.1.loose hb.1.loose
  refine ⟨a.mul b, rfl, hrun, htight, ?_⟩
  rw [hfield, ha.2, hb.2, pow_add]

theorem Power.square {n : ℕ} {a : Fe} (ha : Power z n a) :
    ∃ c, a.square = c ∧ Checked.square a = some c ∧ Power z (2 * n) c := by
  rw [Nat.two_mul]
  exact ha.mul ha

theorem Power.squareTimes {n : ℕ} {a : Fe} (ha : Power z n a) (k : ℕ) :
    ∃ c, Fe.square^[k] a = c ∧ Checked.squareTimes k a = some c ∧ Power z (2 ^ k * n) c := by
  induction k generalizing n a with
  | zero =>
    rw [pow_zero, Nat.one_mul]
    exact ⟨a, rfl, rfl, ha⟩
  | succ k ih =>
    obtain ⟨b, hb, hrun, hpower⟩ := ha.square
    obtain ⟨c, hc, hrest, hlast⟩ := ih hpower
    refine ⟨c, ?_, ?_, ?_⟩
    · rw [Function.iterate_succ_apply, hb, hc]
    · rw [Checked.squareTimes, hrun, Option.bind_eq_bind, Option.bind_some, hrest]
    · rwa [← mul_assoc, ← pow_succ] at hlast

/-- The chain of squarings and products computes the power `p - 2`. -/
theorem invert_spec {a : Fe} (ha : Tight a) :
    ∃ c, invert a = c ∧ Checked.invert a = some c ∧ Tight c ∧
      c.toField = a.toField ^ (Rfc7748.P - 2) := by
  have h1 : Power a.toField 1 a := ⟨ha, (pow_one _).symm⟩
  obtain ⟨z2, e2, r2, h2⟩ := h1.square
  obtain ⟨z4, e4, r4, h4⟩ := h2.square
  obtain ⟨z8, e8, r8, h8⟩ := h4.square
  obtain ⟨z9, e9, r9, h9⟩ := h1.mul h8
  obtain ⟨z11, e11, r11, h11⟩ := h2.mul h9
  obtain ⟨z22, e22, r22, h22⟩ := h11.square
  obtain ⟨z_5_0, e5, r5, h5⟩ := h9.mul h22
  obtain ⟨z_10_5, f10, s10, p10⟩ := h5.squareTimes 5
  obtain ⟨z_10_0, e10, r10, h10⟩ := p10.mul h5
  obtain ⟨z_20_10, f20, s20, p20⟩ := h10.squareTimes 10
  obtain ⟨z_20_0, e20, r20, h20⟩ := p20.mul h10
  obtain ⟨z_40_20, f40, s40, p40⟩ := h20.squareTimes 20
  obtain ⟨z_40_0, e40, r40, h40⟩ := p40.mul h20
  obtain ⟨z_50_10, f50, s50, p50⟩ := h40.squareTimes 10
  obtain ⟨z_50_0, e50, r50, h50⟩ := p50.mul h10
  obtain ⟨z_100_50, f100, s100, p100⟩ := h50.squareTimes 50
  obtain ⟨z_100_0, e100, r100, h100⟩ := p100.mul h50
  obtain ⟨z_200_100, f200, s200, p200⟩ := h100.squareTimes 100
  obtain ⟨z_200_0, e200, r200, h200⟩ := p200.mul h100
  obtain ⟨z_250_50, f250, s250, p250⟩ := h200.squareTimes 50
  obtain ⟨z_250_0, e250, r250, h250⟩ := p250.mul h50
  obtain ⟨t, ft, st, pt⟩ := h250.squareTimes 5
  obtain ⟨c, elast, rlast, hlast⟩ := pt.mul h11
  refine ⟨c, ?_, ?_, hlast.1, ?_⟩
  · subst e2 e4 e8 e9 e11 e22 e5 f10 e10 f20 e20 f40 e40 f50 e50 f100 e100 f200 e200 f250 e250 ft
    exact elast
  · rw [Checked.invert, bind_of_eq r2, bind_of_eq r4, bind_of_eq r8, bind_of_eq r9, bind_of_eq r11,
      bind_of_eq r22, bind_of_eq r5, bind_of_eq s10, bind_of_eq r10, bind_of_eq s20, bind_of_eq r20,
      bind_of_eq s40, bind_of_eq r40, bind_of_eq s50, bind_of_eq r50, bind_of_eq s100,
      bind_of_eq r100, bind_of_eq s200, bind_of_eq r200, bind_of_eq s250, bind_of_eq r250,
      bind_of_eq st]
    exact rlast
  · refine hlast.2.trans (congrArg (a.toField ^ ·) ?_)
    decide

/-! ## The rounds -/

/-- `a` is a tight representation of `x`. -/
structure Represents (a : Fe) (x : Rfc7748.Field) : Prop where
  tight : Tight a
  toField : a.toField = x

/-- `a` is a representation of `x` within the bounds of a product. -/
structure Loose (a : Fe) (x : Rfc7748.Field) : Prop where
  bounded : Bounded (2 ^ 53) a
  toField : a.toField = x

theorem Represents.loose {a : Fe} {x : Rfc7748.Field} (h : a.Represents x) : a.Loose x :=
  ⟨h.tight.loose, h.toField⟩

section

variable {a b : Fe} {x y : Rfc7748.Field}

theorem Represents.add (ha : a.Represents x) (hb : b.Represents y) :
    ∃ c, a.add b = c ∧ Checked.add a b = some c ∧ c.Loose (x + y) := by
  obtain ⟨hrun, hbounded, hfield⟩ := add_spec ha.tight hb.tight
  exact ⟨a.add b, rfl, hrun, hbounded, by rw [hfield, ha.toField, hb.toField]⟩

theorem Represents.sub (ha : a.Represents x) (hb : b.Represents y) :
    ∃ c, a.sub b = c ∧ Checked.sub a b = some c ∧ c.Represents (x - y) := by
  obtain ⟨hrun, htight, hfield⟩ := sub_spec ha.tight hb.tight
  exact ⟨a.sub b, rfl, hrun, htight, by rw [hfield, ha.toField, hb.toField]⟩

theorem Loose.mul (ha : a.Loose x) (hb : b.Loose y) :
    ∃ c, a.mul b = c ∧ Checked.mul a b = some c ∧ c.Represents (x * y) := by
  obtain ⟨hrun, htight, hfield⟩ := mul_spec ha.bounded hb.bounded
  exact ⟨a.mul b, rfl, hrun, htight, by rw [hfield, ha.toField, hb.toField]⟩

theorem Loose.square (ha : a.Loose x) :
    ∃ c, a.square = c ∧ Checked.square a = some c ∧ c.Represents (x ^ 2) := by
  rw [pow_two]
  exact ha.mul ha

theorem Represents.mulSmall (ha : a.Represents x) :
    ∃ c, a.mulSmall 121665 = c ∧ Checked.mulSmall a 121665 = some c ∧
      c.Represents (121665 * x) := by
  have hnat : (121665 : UInt64).toNat = 121665 := by decide
  obtain ⟨hrun, htight, hfield⟩ := mulSmall_spec ha.tight.loose (k := 121665) (by rw [hnat]; decide)
  refine ⟨a.mulSmall 121665, rfl, hrun, htight, ?_⟩
  rw [hfield, ha.toField, hnat, mul_comm]
  rfl

end

/-- The word of a bit. -/
def bitWord (b : Bool) : UInt64 := if b then 1 else 0

theorem bitWord_xor (a b : Bool) : bitWord a ^^^ bitWord b = bitWord (a ^^ b) := by
  cases a <;> cases b <;> rfl

theorem mask_and (swap : Bool) (x : UInt64) :
    (0 - bitWord swap) &&& x = if swap then x else 0 := by
  cases swap with
  | false =>
    change (0 : UInt64) &&& x = 0
    exact UInt64.zero_and
  | true =>
    apply UInt64.toBitVec_inj.mp
    rw [UInt64.toBitVec_and]
    change BitVec.allOnes 64 &&& x.toBitVec = x.toBitVec
    exact BitVec.allOnes_and

theorem xor_xor (x y : UInt64) : x ^^^ (x ^^^ y) = y ∧ y ^^^ (x ^^^ y) = x := by
  constructor
  · rw [← UInt64.xor_assoc, UInt64.xor_self, UInt64.zero_xor]
  · rw [UInt64.xor_comm x, ← UInt64.xor_assoc, UInt64.xor_self, UInt64.zero_xor]

/-- The masked swap is a conditional swap. -/
theorem cswap_eq (a b : Fe) (swap : Bool) :
    cswap a b (bitWord swap) = if swap then (b, a) else (a, b) := by
  rw [cswap]
  simp only [mask_and]
  cases swap with
  | false => simp only [Bool.false_eq_true, if_false, UInt64.xor_zero]
  | true => simp only [if_true, (xor_xor _ _).1, (xor_xor _ _).2]

end Fe

namespace Ladder

open Fe

/-- The variables are tight representations of those of the standard. -/
structure Follows (s : Ladder) (t : Rfc7748.Ladder) : Prop where
  x2 : s.x2.Represents t.x2
  z2 : s.z2.Represents t.z2
  x3 : s.x3.Represents t.x3
  z3 : s.z3.Represents t.z3
  swap : s.swap = bitWord t.swap

variable {s : Ladder} {t : Rfc7748.Ladder}

theorem Follows.cswap (h : s.Follows t) (swap : Bool) :
    (s.cswap (bitWord swap)).Follows (t.cswap swap) := by
  rw [Ladder.cswap, Rfc7748.Ladder.cswap, cswap_eq, cswap_eq]
  cases swap with
  | false => exact h
  | true => exact ⟨h.x3, h.z3, h.x2, h.z2, h.swap⟩

theorem bit_eq (k : Bytes) (n : ℕ) :
    ((k.getD (n >>> 3) 0 >>> UInt8.ofNat (n &&& 7)) &&& 1).toUInt64 =
      bitWord ((leNat k).testBit n) := by
  have hdiv : n >>> 3 = n / 8 := Nat.shiftRight_eq_div_pow n 3
  have hmod : n &&& 7 = n % 8 := Nat.and_two_pow_sub_one_eq_mod n 3
  have hdigit := digit_one_leNat k n
  rw [digit, one_mul, pow_one] at hdigit
  have htest : (leNat k).testBit n = decide (leNat k / 2 ^ n % 2 = 1) := Nat.testBit_eq_decide_div_mod_eq
  apply UInt64.toNat_inj.mp
  rw [UInt8.toNat_toUInt64, hdiv, hmod, toNat_shiftRight_and_one _ (Nat.mod_lt n (by decide)),
    ← hdigit, htest, bitWord]
  rcases Nat.mod_two_eq_zero_or_one (leNat k / 2 ^ n) with hbit | hbit
  · rw [hbit]
    rfl
  · rw [hbit]
    rfl

/-- One round. -/
theorem Follows.step {k : Bytes} {x1 : Fe} {u : Rfc7748.Field} (hx1 : x1.Represents u)
    (h : s.Follows t) (n : ℕ) : ∃ s', s.step k x1 n = s' ∧ Checked.step k x1 s n = some s' ∧
      s'.Follows (t.step (leNat k) u n) := by
  have hswapped := h.cswap (t.swap ^^ (leNat k).testBit n)
  rw [← bitWord_xor, ← bit_eq, ← h.swap] at hswapped
  obtain ⟨bit, hbit⟩ : ∃ w, ((k.getD (n >>> 3) 0 >>> UInt8.ofNat (n &&& 7)) &&& 1).toUInt64 = w :=
    ⟨_, rfl⟩
  have hword := bit_eq k n
  rw [hbit] at hswapped hword
  obtain ⟨v, hv⟩ : ∃ v, s.cswap (s.swap ^^^ bit) = v := ⟨_, rfl⟩
  obtain ⟨w, hw⟩ : ∃ w, t.cswap (t.swap ^^ (leNat k).testBit n) = w := ⟨_, rfl⟩
  rw [hv, hw] at hswapped
  obtain ⟨h2, hz2, h3, hz3, -⟩ := hswapped
  obtain ⟨a, ea, ra, ha⟩ := h2.add hz2
  obtain ⟨aa, eaa, raa, haa⟩ := ha.square
  obtain ⟨b, eb, rb, hb⟩ := h2.sub hz2
  obtain ⟨bb, ebb, rbb, hbb⟩ := hb.loose.square
  obtain ⟨e, ee, re, he⟩ := haa.sub hbb
  obtain ⟨c, ec, rc, hc⟩ := h3.add hz3
  obtain ⟨d, ed, rd, hd⟩ := h3.sub hz3
  obtain ⟨da, eda, rda, hda⟩ := hd.loose.mul ha
  obtain ⟨cb, ecb, rcb, hcb⟩ := hc.mul hb.loose
  obtain ⟨sum, esum, rsum, hsum⟩ := hda.add hcb
  obtain ⟨x3, ex3, rx3, hx3⟩ := hsum.square
  obtain ⟨diff, ediff, rdiff, hdiff⟩ := hda.sub hcb
  obtain ⟨sq, esq, rsq, hsq⟩ := hdiff.loose.square
  obtain ⟨z3, ez3, rz3, hz3'⟩ := hx1.loose.mul hsq.loose
  obtain ⟨x2, ex2, rx2, hx2⟩ := haa.loose.mul hbb.loose
  obtain ⟨small, esmall, rsmall, hsmall⟩ := he.mulSmall
  obtain ⟨last, elast, rlast, hlast⟩ := haa.add hsmall
  obtain ⟨z2, ez2, rz2, hz2'⟩ := he.loose.mul hlast
  refine ⟨⟨x2, z2, x3, z3, bit⟩, ?_, ?_, ?_⟩
  · rw [Ladder.step, hbit, hv]
    subst ea eaa eb ebb ee ec ed eda ecb esum ex3 ediff esq ez3 ex2 esmall elast ez2
    rfl
  · rw [Checked.step, hbit, hv, bind_of_eq ra, bind_of_eq raa, bind_of_eq rb, bind_of_eq rbb,
      bind_of_eq re, bind_of_eq rc, bind_of_eq rd, bind_of_eq rda, bind_of_eq rcb, bind_of_eq rsum,
      bind_of_eq rx3, bind_of_eq rdiff, bind_of_eq rsq, bind_of_eq rz3, bind_of_eq rx2,
      bind_of_eq rsmall, bind_of_eq rlast, bind_of_eq rz2]
  · rw [Rfc7748.Ladder.step, hw]
    exact ⟨hx2, hz2', hx3, hz3', hword⟩

/-- All rounds. -/
theorem Follows.rounds {k : Bytes} {x1 : Fe} {u : Rfc7748.Field} (hx1 : x1.Represents u)
    (h : s.Follows t) (l : List ℕ) :
    l.foldlM (Checked.step k x1) s = some (l.foldl (Ladder.step k x1) s) ∧
      (l.foldl (Ladder.step k x1) s).Follows (l.foldl (Rfc7748.Ladder.step (leNat k) u) t) := by
  induction l generalizing s t with
  | nil => exact ⟨rfl, h⟩
  | cons n l ih =>
    obtain ⟨s', hs', hrun, hnext⟩ := h.step (k := k) hx1 n
    obtain ⟨hrest, hlast⟩ := ih hnext
    rw [List.foldlM_cons, hrun, List.foldl_cons, List.foldl_cons, hs']
    exact ⟨hrest, hlast⟩

end Ladder

/-! ## The result -/

theorem represents_constants : Fe.one.Represents 1 ∧ Fe.zero.Represents 0 := by
  have hone : Fe.one.toField = 1 := by
    rw [Fe.toField, show Fe.one.value = 1 by decide, Nat.cast_one]
  have hzero : Fe.zero.toField = 0 := by
    rw [Fe.toField, show Fe.zero.value = 0 by decide, Nat.cast_zero]
  refine ⟨⟨⟨?_, ?_, ?_, ?_, ?_⟩, hone⟩, ⟨⟨?_, ?_, ?_, ?_, ?_⟩, hzero⟩⟩ <;> decide

/-- **Scalar multiplication is the function X25519 of the standard**: the canonical encoding of what
the ladder computes with exact arithmetic, and nothing overflows. -/
theorem scalarmult_exact (scalar u : ByteArr 32) :
    Checked.scalarmult scalar.1 u.1 = some (scalarmult scalar.1 u.1) ∧
      scalarmult scalar.1 u.1 = Rfc7748.x25519 scalar.1 u.1 ∧
      leNat (scalarmult scalar.1 u.1) < Rfc7748.P := by
  obtain ⟨hlimbs, hvalue⟩ := Fe.fromBytes_spec u.2
  have hx1 : (Fe.fromBytes u.1).Represents (Rfc7748.decodeUCoordinate u.1) := by
    obtain ⟨h0, h1, h2, h3, h4⟩ := hlimbs
    refine ⟨⟨?_, ?_, ?_, ?_, ?_⟩, ?_⟩
    · omega
    · omega
    · omega
    · omega
    · omega
    · rw [Fe.toField, hvalue, Rfc7748.decodeUCoordinate]
  obtain ⟨hone, hzero⟩ := represents_constants
  have hstart : Ladder.Follows ⟨.one, .zero, Fe.fromBytes u.1, .one, 0⟩
      ⟨1, 0, Rfc7748.decodeUCoordinate u.1, 1, false⟩ := ⟨hone, hzero, hx1, hone, rfl⟩
  obtain ⟨hrun, hfollows⟩ := hstart.rounds (k := clampScalar scalar.1) hx1 (List.range 255).reverse
  obtain ⟨s, hs⟩ : ∃ s, (List.range 255).reverse.foldl
      (Ladder.step (clampScalar scalar.1) (Fe.fromBytes u.1))
        ⟨.one, .zero, Fe.fromBytes u.1, .one, 0⟩ = s := ⟨_, rfl⟩
  obtain ⟨t, ht⟩ : ∃ t, (List.range 255).reverse.foldl
      (Rfc7748.Ladder.step (leNat (clampScalar scalar.1)) (Rfc7748.decodeUCoordinate u.1))
        ⟨1, 0, Rfc7748.decodeUCoordinate u.1, 1, false⟩ = t := ⟨_, rfl⟩
  rw [hs] at hrun hfollows
  rw [ht] at hfollows
  have hlast := hfollows.cswap t.swap
  rw [← hfollows.swap] at hlast
  obtain ⟨z, hz, hrunz, htight, hinverse⟩ := Fe.invert_spec hlast.z2.tight
  obtain ⟨hrunm, htightm, hproduct⟩ := Fe.mul_spec hlast.x2.tight.loose htight.loose
  obtain ⟨hrunf, -, hreduced, hfield⟩ := Fe.freeze_spec (htightm.bounded.mono (by decide))
  have hbytes := Fe.toBytes_eq (htightm.bounded.mono (show 2 ^ 51 + 2 ^ 17 ≤ 2 ^ 63 by decide))
  have hresult : scalarmult scalar.1 u.1 = ((s.cswap s.swap).x2.mul z).toBytes := by
    rw [scalarmult]
    simp only [hs, hz]
  have hstandard : Rfc7748.x25519 scalar.1 u.1 = leBytes 32 ((t.cswap t.swap).x2 *
      (t.cswap t.swap).z2 ^ (Rfc7748.P - 2)).val := by
    have hscalar : Rfc7748.decodeScalar scalar.1 = leNat (clampScalar scalar.1) := rfl
    rw [Rfc7748.x25519, hscalar]
    simp only [ht]
  rw [hproduct, hinverse, hlast.x2.toField, hlast.z2.toField, ← hstandard] at hbytes
  refine ⟨?_, hresult.trans hbytes, ?_⟩
  · simp only [Checked.scalarmult, hrun, hrunz, hrunm, Option.bind_eq_bind, Option.bind_some,
      Fe.Checked.toBytes, hrunf, hresult, Fe.toBytes]
  · have hval := Fe.toBytes_eq (htightm.bounded.mono (show 2 ^ 51 + 2 ^ 17 ≤ 2 ^ 63 by decide))
    have hlt : ((s.cswap s.swap).x2.mul z).toField.val < Rfc7748.P := by
      rw [← Fe.value_freeze (htightm.bounded.mono (show 2 ^ 51 + 2 ^ 17 ≤ 2 ^ 63 by decide))]
      exact hreduced
    rw [hresult, hval, leNat_leBytes_of_lt (lt_trans hlt (by decide))]
    exact hlt

end Ciphra
