import Ciphra.Foundations.Montgomery
import Ciphra.Foundations.Primality
import Ciphra.Primitives.Curve25519
import Mathlib.Data.List.GetD
import Mathlib.FieldTheory.IsAlgClosed.AlgebraicClosure

/-!
# Diffie-Hellman agreement

The ladder computes a multiple of a point of the curve `y ^ 2 = x ^ 3 + 486662 x ^ 2 + x`, or of its
twist, from the coordinate of the point. Over the algebraic closure of the field both are one curve,
so every coordinate that a message can hold is that of a point, and the coordinate that comes out is
that of the multiple, with zero for the point at infinity (`ladderValue_eq`). Multiples commute, so
both sides of an exchange compute the same secret (`scalarmult_comm`), whatever the coordinate they
started from.
-/

namespace Ciphra

open Montgomery

/-! ## The prime -/

/-- The primes below `2 ^ 255 - 19` in its certificate. -/
def primesBelow : List LucasEntry :=
  [⟨9463, 3, [2, 3, 19, 83]⟩, ⟨37853, 2, [2, 2, 9463]⟩, ⟨75707, 2, [2, 37853]⟩,
    ⟨2437, 2, [2, 2, 3, 7, 29]⟩, ⟨569003, 2, [2, 7, 97, 419]⟩, ⟨2773320623, 5, [2, 2437, 569003]⟩,
    ⟨72106336199, 7, [2, 13, 2773320623]⟩, ⟨8574133, 2, [2, 2, 3, 7, 103, 991]⟩,
    ⟨1919519569386763, 2, [2, 3, 7, 19, 47, 47, 127, 8574133]⟩,
    ⟨75445702479781427272750846543864801, 7, [2, 2, 2, 2, 2, 3, 3, 5, 5, 75707, 72106336199,
      1919519569386763]⟩, ⟨4153, 5, [2, 2, 2, 3, 173]⟩, ⟨1723, 3, [2, 3, 7, 41]⟩,
    ⟨430751, 17, [2, 5, 5, 5, 1723]⟩,
    ⟨31757755568855353, 10, [2, 2, 2, 3, 31, 107, 223, 4153, 430751]⟩,
    ⟨132049, 26, [2, 2, 2, 2, 3, 3, 7, 131]⟩, ⟨57467, 2, [2, 59, 487]⟩,
    ⟨3727, 3, [2, 3, 3, 3, 3, 23]⟩, ⟨1923133, 2, [2, 2, 3, 43, 3727]⟩,
    ⟨74058212732561358302231226437062788676166966415465897661863160754340907, 2, [2, 3, 353, 57467,
      132049, 1923133, 31757755568855353, 75445702479781427272750846543864801]⟩,
    ⟨32573, 2, [2, 2, 17, 479]⟩, ⟨65147, 2, [2, 32573]⟩]

/-- The last entry, for the prime itself. -/
def primeEntry : LucasEntry :=
  ⟨Rfc7748.P, 2, [2, 2, 3, 65147,
    74058212732561358302231226437062788676166966415465897661863160754340907]⟩

theorem prime_P : Nat.Prime Rfc7748.P := by
  have hcheck : checkAll 255 [] (primesBelow ++ [primeEntry]) = true := by decide +kernel
  exact prime_of_checkAll (fun _ h => absurd h List.not_mem_nil) hcheck primeEntry
    (List.mem_append_right _ (List.mem_singleton_self _))

instance : Fact (Nat.Prime Rfc7748.P) := ⟨prime_P⟩

/-! ## The ladder on the curve -/

/-- The field in which every coordinate has its point. -/
abbrev Closure25519 : Type := AlgebraicClosure Rfc7748.Field

noncomputable instance : DecidableEq Closure25519 := Classical.decEq _

/-- Elements of the field in the closure. -/
noncomputable def lift (x : Rfc7748.Field) : Closure25519 :=
  algebraMap Rfc7748.Field Closure25519 x

theorem lift_injective : Function.Injective lift :=
  FaithfulSMul.algebraMap_injective Rfc7748.Field Closure25519

@[simp] theorem lift_add (x y : Rfc7748.Field) : lift (x + y) = lift x + lift y := map_add _ x y

@[simp] theorem lift_sub (x y : Rfc7748.Field) : lift (x - y) = lift x - lift y := map_sub _ x y

@[simp] theorem lift_mul (x y : Rfc7748.Field) : lift (x * y) = lift x * lift y := map_mul _ x y

@[simp] theorem lift_pow (x : Rfc7748.Field) (n : ℕ) : lift (x ^ n) = lift x ^ n := map_pow _ x n

@[simp] theorem lift_zero : lift 0 = 0 := map_zero _

@[simp] theorem lift_one : lift 1 = 1 := map_one _

@[simp] theorem lift_natCast (n : ℕ) : lift (n : Rfc7748.Field) = (n : Closure25519) :=
  map_natCast _ n

theorem natCast_ne_zero {n : ℕ} (h0 : n ≠ 0) (hlt : n < Rfc7748.P) : (n : Closure25519) ≠ 0 := by
  rw [← lift_natCast, ← lift_zero]
  refine fun h => h0 ?_
  have hzero := (ZMod.natCast_eq_zero_iff n Rfc7748.P).mp (lift_injective h)
  exact Nat.eq_zero_of_dvd_of_lt hzero hlt

/-- The curve of X25519. -/
noncomputable abbrev curve25519 : WeierstrassCurve.Affine Closure25519 := curve 486662

theorem two_ne_zero_closure : (2 : Closure25519) ≠ 0 := by
  have h : ((2 : ℕ) : Closure25519) ≠ 0 := natCast_ne_zero two_ne_zero (by decide)
  rwa [Nat.cast_ofNat] at h

theorem coefficient_ne : (486662 : Closure25519) ^ 2 ≠ 4 := by
  have h : ((486662 ^ 2 - 4 : ℕ) : Closure25519) ≠ 0 := natCast_ne_zero (by decide) (by decide)
  intro heq
  refine h ?_
  rw [Nat.cast_sub (by decide), Nat.cast_pow, Nat.cast_ofNat, Nat.cast_ofNat, heq, sub_self]

section Rounds

variable {Q : curve25519.Point} {n : ℕ} {s : Rfc7748.Ladder} {u : Rfc7748.Field}

/-- The coordinates of a state are those of consecutive multiples. -/
def OnRung (Q : curve25519.Point) (n : ℕ) (s : Rfc7748.Ladder) : Prop :=
  Rung Q n (lift s.x2) (lift s.z2) (lift s.x3) (lift s.z3)

theorem lift_doubleAdd_x2 (u : Rfc7748.Field) (s : Rfc7748.Ladder) :
    lift (s.doubleAdd u).x2 = (lift s.x2 ^ 2 - lift s.z2 ^ 2) ^ 2 := by
  simp only [Rfc7748.Ladder.doubleAdd, lift_mul, lift_pow, lift_add, lift_sub]
  ring

theorem lift_doubleAdd_z2 (u : Rfc7748.Field) (s : Rfc7748.Ladder) :
    lift (s.doubleAdd u).z2 = 4 * lift s.x2 * lift s.z2 *
      (lift s.x2 ^ 2 + 486662 * lift s.x2 * lift s.z2 + lift s.z2 ^ 2) := by
  have hconstant : lift 121665 = 121665 := by
    have hcast := lift_natCast 121665
    rwa [Nat.cast_ofNat, Nat.cast_ofNat] at hcast
  simp only [Rfc7748.Ladder.doubleAdd, lift_mul, lift_pow, lift_add, lift_sub, hconstant]
  ring

theorem lift_doubleAdd_x3 (u : Rfc7748.Field) (s : Rfc7748.Ladder) :
    lift (s.doubleAdd u).x3 = 4 * (lift s.x2 * lift s.x3 - lift s.z2 * lift s.z3) ^ 2 := by
  simp only [Rfc7748.Ladder.doubleAdd, lift_mul, lift_pow, lift_add, lift_sub]
  ring

theorem lift_doubleAdd_z3 (u : Rfc7748.Field) (s : Rfc7748.Ladder) :
    lift (s.doubleAdd u).z3 =
      4 * lift u * (lift s.x2 * lift s.z3 - lift s.x3 * lift s.z2) ^ 2 := by
  simp only [Rfc7748.Ladder.doubleAdd, lift_mul, lift_pow, lift_add, lift_sub]
  ring

/-- A round takes in the next bit of the factor. -/
theorem OnRung.step (h : OnRung Q n (s.cswap s.swap)) (hQ : HasX Q (lift u) 1) (hu : lift u ≠ 0)
    (k t : ℕ) :
    OnRung Q (2 * n + (k.testBit t).toNat)
      ((Rfc7748.Ladder.step k u s t).cswap (Rfc7748.Ladder.step k u s t).swap) := by
  have h2 := two_ne_zero_closure
  have hA := coefficient_ne
  obtain ⟨w, hw⟩ : ∃ w, w = s.cswap (s.swap ^^ k.testBit t) := ⟨_, rfl⟩
  have hstep : Rfc7748.Ladder.step k u s t = { w.doubleAdd u with swap := k.testBit t } := by
    rw [Rfc7748.Ladder.step, hw]
  rw [hstep]
  cases hbit : k.testBit t with
  | false =>
    rw [hbit, Bool.xor_false] at hw
    rw [← hw] at h
    have hnext := Rung.even h2 hA h hQ hu
    rw [← lift_doubleAdd_x2 u, ← lift_doubleAdd_z2 u, ← lift_doubleAdd_x3 u,
      ← lift_doubleAdd_z3 u] at hnext
    exact hnext
  | true =>
    -- The state was swapped for this round, so the upper multiple is the one that is doubled.
    have hswapped : Rung Q n (lift w.x3) (lift w.z3) (lift w.x2) (lift w.z2) := by
      rw [hbit, Bool.xor_true] at hw
      rw [hw]
      unfold OnRung at h
      cases hs : s.swap <;> simpa [Rfc7748.Ladder.cswap, hs] using h
    have hnext := Rung.odd h2 hA hswapped hQ hu
    rw [← lift_doubleAdd_x2 u, ← lift_doubleAdd_z2 u, ← lift_doubleAdd_x3 u,
      ← lift_doubleAdd_z3 u] at hnext
    exact hnext

/-- All rounds: the low `j` bits of the factor are taken in. -/
theorem OnRung.rounds (k j : ℕ) (h : OnRung Q (k / 2 ^ j) (s.cswap s.swap))
    (hQ : HasX Q (lift u) 1) (hu : lift u ≠ 0) :
    ∃ t, t = (List.range j).reverse.foldl (Rfc7748.Ladder.step k u) s ∧
      OnRung Q k (t.cswap t.swap) := by
  induction j generalizing s with
  | zero =>
    rw [pow_zero, Nat.div_one] at h
    exact ⟨s, rfl, h⟩
  | succ j ih =>
    have hnext := h.step hQ hu k j
    have hfactor : 2 * (k / 2 ^ (j + 1)) + (k.testBit j).toNat = k / 2 ^ j := by
      rw [Nat.toNat_testBit, pow_succ, ← Nat.div_div_eq_div_mul]
      omega
    rw [hfactor] at hnext
    obtain ⟨t, ht, hrung⟩ := ih hnext
    refine ⟨t, ?_, hrung⟩
    rw [List.range_succ, List.reverse_append, List.reverse_singleton, List.singleton_append,
      List.foldl_cons, ht]

end Rounds

/-! ## What the ladder computes -/

/-- The coordinate that the standard's ladder ends with. -/
def ladderValue (k : ℕ) (u : Rfc7748.Field) : Rfc7748.Field :=
  let s := (List.range 255).reverse.foldl (Rfc7748.Ladder.step k u) ⟨1, 0, u, 1, false⟩
  let s := s.cswap s.swap
  s.x2 * s.z2 ^ (Rfc7748.P - 2)

/-- From the coordinate zero the ladder stays where every product is zero. -/
theorem ladderValue_zero (k : ℕ) : ladderValue k 0 = 0 := by
  have hstep : ∀ (s : Rfc7748.Ladder) t, s.x2 * s.z2 = 0 ∧ s.x3 * s.z3 = 0 →
      (Rfc7748.Ladder.step k 0 s t).x2 * (Rfc7748.Ladder.step k 0 s t).z2 = 0 ∧
        (Rfc7748.Ladder.step k 0 s t).x3 * (Rfc7748.Ladder.step k 0 s t).z3 = 0 := by
    intro s t hs
    obtain ⟨w, hw⟩ : ∃ w, w = s.cswap (s.swap ^^ k.testBit t) := ⟨_, rfl⟩
    have hzero : w.x2 * w.z2 = 0 := by
      rw [hw, Rfc7748.Ladder.cswap]
      split
      · exact hs.2
      · exact hs.1
    have hround : Rfc7748.Ladder.step k 0 s t = { w.doubleAdd 0 with swap := k.testBit t } := by
      rw [Rfc7748.Ladder.step, hw]
    rw [hround]
    simp only [Rfc7748.Ladder.doubleAdd, zero_mul, mul_zero, and_true]
    linear_combination (4 * (w.x2 + w.z2) ^ 2 * (w.x2 - w.z2) ^ 2 *
      ((w.x2 + w.z2) ^ 2 + 121665 * ((w.x2 + w.z2) ^ 2 - (w.x2 - w.z2) ^ 2))) * hzero
  have hrounds : ∀ (l : List ℕ) (s : Rfc7748.Ladder), s.x2 * s.z2 = 0 ∧ s.x3 * s.z3 = 0 →
      (l.foldl (Rfc7748.Ladder.step k 0) s).x2 * (l.foldl (Rfc7748.Ladder.step k 0) s).z2 = 0 ∧
        (l.foldl (Rfc7748.Ladder.step k 0) s).x3 * (l.foldl (Rfc7748.Ladder.step k 0) s).z3 = 0 := by
    intro l
    induction l with
    | nil => exact fun s hs => hs
    | cons t l ih => exact fun s hs => ih _ (hstep s t hs)
  obtain ⟨s, hs⟩ : ∃ s, s = (List.range 255).reverse.foldl (Rfc7748.Ladder.step k 0)
      ⟨1, 0, 0, 1, false⟩ := ⟨_, rfl⟩
  have hlast := hrounds (List.range 255).reverse ⟨1, 0, 0, 1, false⟩ ⟨mul_zero 1, zero_mul 1⟩
  rw [← hs] at hlast
  have hproduct : (s.cswap s.swap).x2 * (s.cswap s.swap).z2 = 0 := by
    rw [Rfc7748.Ladder.cswap]
    split
    · exact hlast.2
    · exact hlast.1
  rw [ladderValue, ← hs]
  rcases mul_eq_zero.mp hproduct with h | h
  · simp only [h, zero_mul]
  · simp only [h, zero_pow (show Rfc7748.P - 2 ≠ 0 by decide), mul_zero]

theorem pow_P_sub_two (z : Rfc7748.Field) : z ^ (Rfc7748.P - 2) = z⁻¹ := by
  rcases eq_or_ne z 0 with rfl | hz
  · rw [inv_zero, zero_pow (by decide)]
  · refine eq_inv_of_mul_eq_one_left ?_
    rw [← pow_succ]
    exact ZMod.pow_card_sub_one_eq_one hz

/-- **The ladder computes multiples of points.** -/
theorem ladderValue_eq {k : ℕ} (hk : k < 2 ^ 255) {u : Rfc7748.Field} {Q : curve25519.Point}
    (hQ : xOf Q = lift u) : lift (ladderValue k u) = xOf (k • Q) := by
  rcases eq_or_ne u 0 with rfl | hu
  · rw [lift_zero] at hQ
    rw [ladderValue_zero, lift_zero, xOf_nsmul_eq_zero hQ]
  · have hlift : lift u ≠ 0 := fun h => hu (lift_injective (h.trans lift_zero.symm))
    have hX := hasX_of_xOf hQ hlift
    have hstart : OnRung Q (k / 2 ^ 255) (Rfc7748.Ladder.cswap ⟨1, 0, u, 1, false⟩ false) := by
      rw [Nat.div_eq_of_lt hk, OnRung]
      simp only [Rfc7748.Ladder.cswap, Bool.false_eq_true, if_false, lift_one, lift_zero]
      exact rung_zero hX
    obtain ⟨s, hs, hrung⟩ := OnRung.rounds (s := ⟨1, 0, u, 1, false⟩) k 255 hstart hX hlift
    rw [ladderValue, ← hs, hrung.low.xOf_eq]
    simp only [pow_P_sub_two, lift_mul]
    rw [div_eq_mul_inv]
    exact congrArg _ (map_inv₀ (algebraMap Rfc7748.Field Closure25519) _)

/-- Multiples of multiples do not depend on the order. -/
theorem ladderValue_comm {a b : ℕ} (ha : a < 2 ^ 255) (hb : b < 2 ^ 255) (u : Rfc7748.Field) :
    ladderValue a (ladderValue b u) = ladderValue b (ladderValue a u) := by
  obtain ⟨Q, hQ⟩ := exists_xOf_eq two_ne_zero_closure coefficient_ne (lift u)
  refine lift_injective ?_
  rw [ladderValue_eq ha (ladderValue_eq hb hQ).symm, ladderValue_eq hb (ladderValue_eq ha hQ).symm,
    ← mul_nsmul, ← mul_nsmul, mul_comm]

/-! ## The program -/

theorem decodeScalar_lt {k : Bytes} (h : k.length = 32) : Rfc7748.decodeScalar k < 2 ^ 255 := by
  have htop : ∀ b : UInt8, (b &&& 127 ||| 64).toNat < 128 := by
    intro b
    rw [UInt8.toNat_or, UInt8.toNat_and]
    exact Nat.or_lt_two_pow (n := 7) (Nat.and_lt_two_pow _ (by decide)) (by decide)
  obtain ⟨low, hlow⟩ : ∃ low, low = k.set 0 (k.getD 0 0 &&& 248) := ⟨_, rfl⟩
  have hlen : low.length = 32 := by rw [hlow, List.length_set, h]
  have hset : ∀ b : UInt8, low.set 31 b = low.take 31 ++ [b] := by
    intro b
    rw [List.set_eq_take_append_cons_drop, if_pos (by omega), List.drop_eq_nil_of_le (by omega)]
  have hlast : ∀ b : UInt8, (low.set 31 b).getD 31 0 = b := by
    intro b
    rw [List.getD_eq_getElem _ _ (by rw [List.length_set]; omega), List.getElem_set_self]
  have hscalar : Rfc7748.decodeScalar k = leNat (low.take 31 ++ [low.getD 31 0 &&& 127 ||| 64]) := by
    rw [Rfc7748.decodeScalar, ← hlow]
    simp only [hlast, List.set_set]
    rw [hset]
  have hbound := leNat_lt (low.take 31)
  have htop' := htop (low.getD 31 0)
  rw [hscalar, leNat_append, List.length_take, min_eq_left (by omega)]
  rw [List.length_take, min_eq_left (by omega)] at hbound
  have hone : leNat [low.getD 31 0 &&& 127 ||| 64] = (low.getD 31 0 &&& 127 ||| 64).toNat := rfl
  rw [hone]
  have hpow : (256 : ℕ) ^ 31 * 128 = 2 ^ 255 := by norm_num
  have hbase : (2 : ℕ) ^ (8 * 31) = 256 ^ 31 := by norm_num
  calc leNat (low.take 31) + 2 ^ (8 * 31) * (low.getD 31 0 &&& 127 ||| 64).toNat
      ≤ leNat (low.take 31) + 256 ^ 31 * 127 := by
        rw [hbase]
        exact Nat.add_le_add_left (Nat.mul_le_mul_left _ (by omega)) _
    _ < 2 ^ 255 := by omega

/-- The program computes the value of the standard's ladder. -/
theorem scalarmult_eq_ladderValue (scalar u : ByteArr 32) :
    scalarmult scalar.1 u.1 = leBytes 32 (ladderValue (Rfc7748.decodeScalar scalar.1)
      (Rfc7748.decodeUCoordinate u.1)).val := by
  obtain ⟨hlimbs, hvalue⟩ := Fe.fromBytes_spec u.2
  have hx1 : (Fe.fromBytes u.1).Represents (Rfc7748.decodeUCoordinate u.1) := by
    obtain ⟨h0, h1, h2, h3, h4⟩ := hlimbs
    have hfield : (Fe.fromBytes u.1).toField = Rfc7748.decodeUCoordinate u.1 := by
      rw [Fe.toField, hvalue, Rfc7748.decodeUCoordinate]
    exact ⟨⟨by omega, by omega, by omega, by omega, by omega⟩, hfield⟩
  obtain ⟨hone, hzero⟩ := represents_constants
  have hstart : Ladder.Follows ⟨.one, .zero, Fe.fromBytes u.1, .one, 0⟩
      ⟨1, 0, Rfc7748.decodeUCoordinate u.1, 1, false⟩ := ⟨hone, hzero, hx1, hone, rfl⟩
  have hfollows := (hstart.rounds (k := clampScalar scalar.1) hx1 (List.range 255).reverse).2
  have hlast := hfollows.cswap (List.foldl (Rfc7748.Ladder.step (leNat (clampScalar scalar.1))
    (Rfc7748.decodeUCoordinate u.1)) ⟨1, 0, Rfc7748.decodeUCoordinate u.1, 1, false⟩
      (List.range 255).reverse).swap
  rw [← hfollows.swap] at hlast
  obtain ⟨z, hz, -, htight, hinverse⟩ := Fe.invert_spec hlast.z2.tight
  obtain ⟨-, htightm, hproduct⟩ := Fe.mul_spec hlast.x2.tight.loose htight.loose
  have hbytes := Fe.toBytes_eq (htightm.bounded.mono (show 2 ^ 51 + 2 ^ 17 ≤ 2 ^ 63 by decide))
  rw [hproduct, hinverse, hlast.x2.toField, hlast.z2.toField] at hbytes
  rw [scalarmult]
  simp only [hz]
  exact hbytes

theorem decodeUCoordinate_leBytes (x : Rfc7748.Field) :
    Rfc7748.decodeUCoordinate (leBytes 32 x.val) = x := by
  have hlt : x.val < Rfc7748.P := ZMod.val_lt x
  have hP : Rfc7748.P < 2 ^ 255 := by decide
  rw [Rfc7748.decodeUCoordinate, leNat_leBytes_of_lt (by omega), Nat.mod_eq_of_lt (by omega),
    ZMod.natCast_zmod_val]

/-- **Agreement**: for every coordinate, two scalar multiplications can be done in either order. -/
theorem scalarmult_comm (a b u : ByteArr 32) :
    scalarmult a.1 (scalarmult b.1 u.1) = scalarmult b.1 (scalarmult a.1 u.1) := by
  have htwice : ∀ a b : ByteArr 32, scalarmult a.1 (scalarmult b.1 u.1) =
      leBytes 32 (ladderValue (Rfc7748.decodeScalar a.1) (ladderValue (Rfc7748.decodeScalar b.1)
        (Rfc7748.decodeUCoordinate u.1))).val := by
    intro a b
    have hinner : Rfc7748.decodeUCoordinate (scalarmult b.1 u.1) =
        ladderValue (Rfc7748.decodeScalar b.1) (Rfc7748.decodeUCoordinate u.1) := by
      rw [scalarmult_eq_ladderValue b u, decodeUCoordinate_leBytes]
    have houter := scalarmult_eq_ladderValue a ⟨scalarmult b.1 u.1, length_scalarmult _ _⟩
    exact houter.trans (by rw [hinner])
  rw [htwice a b, htwice b a,
    ladderValue_comm (decodeScalar_lt a.2) (decodeScalar_lt b.2)]

/-- Both sides of an exchange compute the same secret. -/
theorem diffieHellman_comm (a b : ByteArr 32) :
    diffieHellman a.1 (publicKey b.1) = diffieHellman b.1 (publicKey a.1) :=
  scalarmult_comm a b ⟨basePoint, rfl⟩

/-- **What X25519 computes**: every coordinate is that of a point, on the curve or on its twist, and
the result is the coordinate of the multiple of any such point by the clamped scalar, canonically
encoded. -/
theorem scalarmult_multiple (scalar u : ByteArr 32) :
    (∃ Q : curve25519.Point, xOf Q = lift (Rfc7748.decodeUCoordinate u.1)) ∧
    ∃ x : Rfc7748.Field, scalarmult scalar.1 u.1 = leBytes 32 x.val ∧
      ∀ Q : curve25519.Point, xOf Q = lift (Rfc7748.decodeUCoordinate u.1) →
        lift x = xOf (Rfc7748.decodeScalar scalar.1 • Q) :=
  ⟨exists_xOf_eq two_ne_zero_closure coefficient_ne _, _, scalarmult_eq_ladderValue scalar u,
    fun _ hQ => ladderValue_eq (decodeScalar_lt scalar.2) hQ⟩

/-- The coordinate after one more party has multiplied by its secret. -/
def contribute (secret u : ByteArr 32) : ByteArr 32 :=
  ⟨scalarmult secret.1 u.1, length_scalarmult _ _⟩

/-- **Agreement of many**: in whatever order any number of parties multiply by their secrets, and
whatever coordinate they start from, they end with the same one. -/
theorem contribute_perm {secrets secrets' : List (ByteArr 32)} (h : secrets.Perm secrets')
    (u : ByteArr 32) : secrets.foldr contribute u = secrets'.foldr contribute u := by
  have hcomm : LeftCommutative contribute :=
    ⟨fun a b v => Subtype.ext (scalarmult_comm a b v)⟩
  exact h.foldr_eq u

theorem contribute_perm_reversed :
    [ByteArr.zeros 32, ⟨basePoint, rfl⟩].foldr contribute ⟨basePoint, rfl⟩ =
      ([ByteArr.zeros 32, ⟨basePoint, rfl⟩].reverse).foldr contribute ⟨basePoint, rfl⟩ :=
  contribute_perm (List.reverse_perm _).symm ⟨basePoint, rfl⟩

end Ciphra
