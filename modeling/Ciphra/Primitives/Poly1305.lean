import Ciphra.Foundations.Arrays
import Ciphra.Foundations.Limbs
import Ciphra.Foundations.Packing
import Ciphra.Foundations.Words
import Ciphra.Primitives.Aead
import Mathlib.Data.ZMod.Basic

/-!
# Poly1305

The authenticator against its definition: a polynomial in the clamped half of the key, evaluated
modulo `2 ^ 130 - 5` by Horner's rule, plus the other half of the key.

The program works on seventeen limbs of 32 bits. `Poly1305.Checked` is the same program built with
overflow checks, which also checks the assertion that nothing is carried out of the top limb. Between
two blocks all limbs are bytes and the number is below `2 ^ 130 + 260`, and both halves of the result
follow from this: nothing overflows, and the last subtraction is exact (`Poly1305.poly1305_exact`).
-/

open Finset

namespace Ciphra

/-! ## The definition -/

namespace Rfc8439

/-- The prime `2 ^ 130 - 5`. -/
def P : ℕ := 2 ^ 130 - 5

/-- The key without the bits that have to be clear. -/
def clamp (r : ℕ) : ℕ := r &&& 0x0ffffffc0ffffffc0ffffffc0fffffff

/-- Block `i` of a message. -/
def messageBlock (message : Bytes) (i : ℕ) : Bytes := (message.drop (16 * i)).take 16

/-- The polynomial: each block with the byte 1 appended is a coefficient. -/
def accumulator (r : ℕ) (message : Bytes) : ℕ :=
  (List.range ((message.length + 15) / 16)).foldl
    (fun a i => (a + leNat (messageBlock message i ++ [1])) * r % P) 0

/-- The tag as a number of 128 bits. -/
def tag (message key : Bytes) : ℕ :=
  (accumulator (clamp (leNat (key.take 16))) message + leNat (key.drop 16)) % 2 ^ 128

end Rfc8439

namespace Poly1305

theorem neZero_limbs : NeZero 17 := ⟨by decide⟩

attribute [local instance] neZero_limbs

/-! ## The program with overflow checks -/

namespace Checked

open Word

/-- One limb of a sum, where `extra` is what it adds. -/
def carryLimb (acc : UInt32 × Limbs) (i : Fin 17) (extra : Option UInt32) :
    Option (UInt32 × Limbs) := do
  let carry ← plus acc.1 (← extra)
  some (carry >>> 8, put acc.2 i (carry &&& 255))

def add (h x : Limbs) : Option Limbs := do
  let acc ← (List.finRange 17).foldlM
    (fun acc i => carryLimb acc i (plus (acc.2.get i) (x.get i))) (0, h)
  some acc.2

def factor (r : Limbs) (i j : Fin 17) : Option UInt32 :=
  if j ≤ i then some (r.get (i - j)) else times 320 (r.get (i - j))

def productLimb (h r : Limbs) (i : Fin 17) : Option UInt32 :=
  (List.finRange 17).foldlM
    (fun sum j => do plus sum (← times (h.get j) (← factor r i j))) 0

def reducePass (x : Limbs) : Option Limbs := do
  let (carry, x) ← ((List.finRange 17).take 16).foldlM
    (fun acc i => carryLimb acc i (some (acc.2.get i))) (0, x)
  let carry ← plus carry (x.get 16)
  let x := put x 16 (carry &&& 3)
  let carry ← times (5 : UInt32) (carry >>> 2)
  some (put x 0 (← plus (x.get 0) carry))

def mulMod (h r : Limbs) : Option Limbs := do
  let x ← (List.finRange 17).foldlM (fun x i => do some (put x i (← productLimb h r i)))
    (Vector.replicate 17 0)
  let x ← reducePass (← reducePass x)
  let (carry, x) ← (List.finRange 17).foldlM
    (fun acc i => carryLimb acc i (some (acc.2.get i))) (0, x)
  -- `debug_assert_eq!(carry, 0)`
  if carry = 0 then some x else none

def absorb (r : Limbs) : ℕ → Limbs → Bytes → Option Limbs
  | 0, h, _ => some h
  | n + 1, h, rest => do
    absorb r n (← mulMod (← add h (blockLimbs (rest.take 16))) r) (rest.drop 16)

def freeze (g : Limbs) : Option Limbs := do
  let h ← add g minusP
  let mask := (0 : UInt32) - (h.get 16 >>> 7)
  some (Vector.ofFn fun i => h.get i ^^^ (mask &&& (g.get i ^^^ h.get i)))

def poly1305 (message key : Bytes) : Option (ByteArr 16) := do
  let h ← freeze (← absorb (clamp key) ((message.length + 15) / 16) (Vector.replicate 17 0) message)
  let s := Vector.ofFn fun i : Fin 17 =>
    if i.val < 16 then (key.getD (16 + i.val) 0).toUInt32 else 0
  let h ← add h s
  some ⟨(h.toList.take 16).map UInt32.toUInt8, by simp⟩

end Checked

/-! ## Numbers in limbs -/

/-- Limb `k` as a number. -/
def limb (h : Limbs) (k : ℕ) : ℕ := (h.get (Fin.ofNat 17 k)).toNat

theorem limb_val (h : Limbs) (i : Fin 17) : limb h i = (h.get i).toNat := by
  rw [limb, Fin.ofNat_val_eq_self]

/-- The number that the limbs stand for. -/
def value (h : Limbs) : ℕ := limbSum 256 (limb h) 17

/-- All limbs are bytes. -/
def Bytewise (h : Limbs) : Prop := ∀ i, (h.get i).toNat < 256

theorem Bytewise.limb_lt {h : Limbs} (hh : Bytewise h) (k : ℕ) : limb h k < 256 := hh _

theorem Bytewise.value_lt {h : Limbs} (hh : Bytewise h) : value h < 256 ^ 17 :=
  limbSum_lt fun k _ => hh.limb_lt k

/-! ## The carry loop -/

theorem toNat_shiftRight_eight (c : UInt32) : (c >>> 8).toNat = c.toNat / 256 := by
  rw [UInt32.toNat_shiftRight, Nat.shiftRight_eq_div_pow]
  rfl

theorem toNat_and_byte (c : UInt32) : (c &&& 255).toNat = c.toNat % 256 := by
  rw [UInt32.toNat_and]
  exact Nat.and_two_pow_sub_one_eq_mod c.toNat 8

/-- The first `n` rounds of a carry loop. A round adds to the carry what `extra` makes of its limb,
and no sum of the loop is out of range. -/
theorem carry_loop (extra : UInt32 → Fin 17 → UInt32) (checked : UInt32 → Fin 17 → Option UInt32)
    {h : Limbs} {e : ℕ → ℕ} (hextra : ∀ i, checked (h.get i) i = some (extra (h.get i) i) ∧
      (extra (h.get i) i).toNat = e i) (hroom : ∀ k < 17, carries 256 e k + e k < 2 ^ 32)
    {n : ℕ} (hn : n ≤ 17) : ∃ c v,
      ((List.finRange 17).take n).foldl
        (fun acc i => carryLimb acc i (extra (acc.2.get i) i)) (0, h) = (c, v) ∧
      ((List.finRange 17).take n).foldlM
        (fun acc i => Checked.carryLimb acc i (checked (acc.2.get i) i)) (0, h) = some (c, v) ∧
      c.toNat = carries 256 e n ∧
      ∀ i : Fin 17, if i.val < n then (v.get i).toNat = settled 256 e i else v.get i = h.get i := by
  induction n with
  | zero => exact ⟨0, h, rfl, rfl, rfl, fun i => rfl⟩
  | succ n ih =>
    obtain ⟨c, v, hrun, hchecked, hc, hv⟩ := ih (by omega)
    have hlt : n < (List.finRange 17).length := by
      rw [List.length_finRange]
      omega
    have hnext : (List.finRange 17)[n] = ⟨n, by omega⟩ := List.getElem_finRange hlt
    obtain ⟨i, hi⟩ : ∃ i : Fin 17, i = ⟨n, by omega⟩ := ⟨_, rfl⟩
    have hival : i.val = n := by rw [hi]
    have hsame : v.get i = h.get i := by
      have hvi := hv i
      rwa [if_neg (by omega)] at hvi
    obtain ⟨hsome, hnat⟩ := hextra i
    have hsum : c.toNat + (extra (h.get i) i).toNat < 2 ^ 32 := by
      rw [hc, hnat, hival]
      exact hroom n (by omega)
    have hplus : (c + extra (h.get i) i).toNat = carries 256 e n + e n := by
      rw [UInt32.toNat_add, Nat.mod_eq_of_lt hsum, hc, hnat, hival]
    refine ⟨(c + extra (h.get i) i) >>> 8, put v i ((c + extra (h.get i) i) &&& 255), ?_, ?_, ?_, ?_⟩
    · rw [List.take_succ_eq_append_getElem hlt, hnext, ← hi, List.foldl_append, hrun,
        List.foldl_cons, List.foldl_nil, carryLimb, hsame]
    · rw [List.take_succ_eq_append_getElem hlt, hnext, ← hi, List.foldlM_append, hchecked]
      change (Checked.carryLimb (c, v) i (checked (v.get i) i) >>= fun acc => some acc) = _
      rw [Checked.carryLimb, hsame, hsome]
      change ((Word.plus c (extra (h.get i) i)).bind _).bind _ = _
      rw [Word.plus_eq hsum]
      rfl
    · rw [toNat_shiftRight_eight, hplus, carries]
    · intro j
      by_cases hj : j = i
      · rw [hj, if_pos (by omega), put, get_set_self, toNat_and_byte, hplus, settled, hival]
      · have hne : j.val ≠ n := fun he => hj (Fin.ext (he.trans hival.symm))
        have hvj := hv j
        rw [put, get_set_of_ne _ _ fun he => hj he.symm]
        by_cases hlow : j.val < n
        · rwa [if_pos hlow, ← if_pos (show j.val < n + 1 by omega) (t := (v.get j).toNat = _)] at hvj
        · rw [if_neg hlow] at hvj
          rwa [if_neg (by omega)]

/-- A whole carry loop. -/
theorem carry_all (extra : UInt32 → Fin 17 → UInt32) (checked : UInt32 → Fin 17 → Option UInt32)
    {h : Limbs} {e : ℕ → ℕ} (hextra : ∀ i, checked (h.get i) i = some (extra (h.get i) i) ∧
      (extra (h.get i) i).toNat = e i) (hroom : ∀ k < 17, carries 256 e k + e k < 2 ^ 32) :
    ∃ c v, (List.finRange 17).foldl
        (fun acc i => carryLimb acc i (extra (acc.2.get i) i)) (0, h) = (c, v) ∧
      (List.finRange 17).foldlM
        (fun acc i => Checked.carryLimb acc i (checked (acc.2.get i) i)) (0, h) = some (c, v) ∧
      c.toNat = carries 256 e 17 ∧ (∀ k < 17, limb v k = settled 256 e k) ∧ Bytewise v ∧
      value v + c.toNat * 256 ^ 17 = limbSum 256 e 17 := by
  obtain ⟨c, v, hrun, hchecked, hc, hv⟩ := carry_loop extra checked hextra hroom le_rfl
  have hfull : (List.finRange 17).take 17 = List.finRange 17 :=
    List.take_of_length_le (by rw [List.length_finRange])
  rw [hfull] at hrun hchecked
  have hsettled : ∀ i : Fin 17, (v.get i).toNat = settled 256 e i := by
    intro i
    have hvi := hv i
    rwa [if_pos i.isLt] at hvi
  have hlimb : ∀ k < 17, limb v k = settled 256 e k := by
    intro k hk
    rw [limb, hsettled]
    exact congrArg _ (Nat.mod_eq_of_lt hk)
  refine ⟨c, v, hrun, hchecked, hc, hlimb, ?_, ?_⟩
  · intro i
    rw [hsettled]
    exact settled_lt (by decide) _
  · rw [value, limbSum_congr hlimb, hc, sum_settled]

/-! ## Sums -/

theorem add_spec {h x : Limbs} (hh : Bytewise h) (hx : Bytewise x) :
    Checked.add h x = some (add h x) ∧ Bytewise (add h x) ∧
      value (add h x) = (value h + value x) % 256 ^ 17 := by
  have hbound : ∀ k, limb h k + limb x k ≤ (256 - 1) * 2 := by
    intro k
    have h1 := hh.limb_lt k
    have h2 := hx.limb_lt k
    omega
  have hextra : ∀ i : Fin 17, Word.plus (h.get i) (x.get i) = some (h.get i + x.get i) ∧
      (h.get i + x.get i).toNat = limb h i + limb x i := by
    intro i
    have hsum : (h.get i).toNat + (x.get i).toNat < 2 ^ 32 := by
      have h1 := hh i
      have h2 := hx i
      omega
    exact ⟨Word.plus_eq hsum, by rw [UInt32.toNat_add, Nat.mod_eq_of_lt hsum, limb_val, limb_val]⟩
  have hroom : ∀ k < 17, carries 256 (fun k => limb h k + limb x k) k + (limb h k + limb x k) <
      2 ^ 32 := by
    intro k _
    have hcarry : carries 256 (fun k => limb h k + limb x k) k ≤ 2 :=
      carries_le (by decide) fun k _ => hbound k
    have hk := hbound k
    omega
  obtain ⟨c, v, hrun, hchecked, -, -, hv, hvalue⟩ := carry_all
    (fun y i => y + x.get i) (fun y i => Word.plus y (x.get i)) hextra hroom
  have hadd : add h x = v := congrArg Prod.snd hrun
  have hsum : limbSum 256 (fun k => limb h k + limb x k) 17 = value h + value x := by
    simp only [value, limbSum, add_mul, sum_add_distrib]
  refine ⟨?_, hadd ▸ hv, ?_⟩
  · rw [Checked.add, hchecked, hadd]
    rfl
  · rw [hadd, ← hsum, ← hvalue, Nat.add_mul_mod_self_right, Nat.mod_eq_of_lt hv.value_lt]

/-! ## Products -/

/-- What limb `j` of one factor is multiplied with for limb `i` of the product. -/
def weight (r : Limbs) (i j : Fin 17) : ℕ :=
  if j ≤ i then (r.get (i - j)).toNat else 320 * (r.get (i - j)).toNat

theorem weight_le {r : Limbs} (hr : Bytewise r) (i j : Fin 17) : weight r i j ≤ 320 * 255 := by
  have hlt := hr (i - j)
  rw [weight]
  split <;> omega

/-- A partial sum of a limb of the product. -/
theorem product_loop {h r : Limbs} (hh : Bytewise h) (hr : Bytewise r) (i : Fin 17)
    (l : List (Fin 17)) (sum : UInt32) (hsum : sum.toNat + l.length * 20808000 < 2 ^ 32) :
    ∃ w : UInt32, w.toNat = sum.toNat + (l.map fun j => (h.get j).toNat * weight r i j).sum ∧
      l.foldl (fun sum j => sum + h.get j *
        (if j ≤ i then r.get (i - j) else 320 * r.get (i - j))) sum = w ∧
      l.foldlM (fun sum j => do
        Word.plus sum (← Word.times (h.get j) (← Checked.factor r i j))) sum = some w := by
  induction l generalizing sum with
  | nil => exact ⟨sum, rfl, rfl, rfl⟩
  | cons j l ih =>
    have hlimb := hh j
    have hr' := hr (i - j)
    have htimes : (320 : UInt32).toNat * (r.get (i - j)).toNat < 2 ^ 32 := by
      change 320 * _ < _
      omega
    obtain ⟨factor, hfactor, hchecked, hweight⟩ : ∃ factor : UInt32,
        (if j ≤ i then r.get (i - j) else 320 * r.get (i - j)) = factor ∧
        Checked.factor r i j = some factor ∧ factor.toNat = weight r i j := by
      rw [Checked.factor, Word.times_eq htimes, weight]
      split
      · exact ⟨_, rfl, rfl, rfl⟩
      · refine ⟨_, rfl, rfl, ?_⟩
        rw [UInt32.toNat_mul, Nat.mod_eq_of_lt htimes]
        rfl
    have hle : (h.get j).toNat * factor.toNat ≤ 20808000 := by
      have hw := weight_le hr i j
      rw [hweight]
      calc (h.get j).toNat * weight r i j ≤ 255 * (320 * 255) :=
            Nat.mul_le_mul (by omega) hw
        _ = 20808000 := rfl
    rw [List.length_cons, Nat.succ_mul] at hsum
    have hmul : (h.get j * factor).toNat = (h.get j).toNat * weight r i j := by
      rw [UInt32.toNat_mul, Nat.mod_eq_of_lt (by omega), hweight]
    have hplus : sum.toNat + (h.get j * factor).toNat < 2 ^ 32 := by
      rw [hmul, ← hweight]
      omega
    have hnext : (sum + h.get j * factor).toNat =
        sum.toNat + (h.get j).toNat * weight r i j := by
      rw [UInt32.toNat_add, Nat.mod_eq_of_lt hplus, hmul]
    obtain ⟨w, hw, hrun, hrunM⟩ := ih (sum + h.get j * factor) (by
      rw [hnext, ← hweight]
      omega)
    refine ⟨w, ?_, ?_, ?_⟩
    · rw [hw, hnext, List.map_cons, List.sum_cons, Nat.add_assoc]
    · rw [List.foldl_cons, hfactor, hrun]
    · rw [List.foldlM_cons, hchecked]
      change ((Word.times (h.get j) factor).bind fun t => Word.plus sum t).bind _ = _
      rw [Word.times_eq (show (h.get j).toNat * factor.toNat < 2 ^ 32 by omega)]
      change (Word.plus sum (h.get j * factor)).bind _ = _
      rw [Word.plus_eq hplus]
      exact hrunM

theorem productLimb_spec {h r : Limbs} (hh : Bytewise h) (hr : Bytewise r) (i : Fin 17) :
    Checked.productLimb h r i = some (productLimb h r i) ∧
      (productLimb h r i).toNat = ∑ j, (h.get j).toNat * weight r i j := by
  obtain ⟨w, hw, hrun, hchecked⟩ := product_loop hh hr i (List.finRange 17) 0 (by
    rw [List.length_finRange]
    decide)
  have hlimb : productLimb h r i = w := hrun
  refine ⟨?_, ?_⟩
  · rw [hlimb]
    exact hchecked
  · rw [hlimb, hw, Fin.sum_univ_def]
    exact Nat.zero_add _

theorem productLimb_le {h r : Limbs} (hh : Bytewise h) (hr : Bytewise r) (i : Fin 17) :
    (productLimb h r i).toNat ≤ 353736000 := by
  rw [(productLimb_spec hh hr i).2]
  calc ∑ j, (h.get j).toNat * weight r i j ≤ ∑ _j : Fin 17, 255 * (320 * 255) :=
        sum_le_sum fun j _ => Nat.mul_le_mul (Nat.le_of_lt_succ (hh j)) (weight_le hr i j)
    _ = 353736000 := by
      rw [sum_const, card_univ, Fintype.card_fin]
      rfl

theorem pow_256 : (256 : ZMod Rfc8439.P) ^ 17 = 320 := by
  have h : ((256 ^ 17 : ℕ) : ZMod Rfc8439.P) = ((320 : ℕ) : ZMod Rfc8439.P) :=
    (ZMod.natCast_eq_natCast_iff _ _ _).mpr (by decide)
  exact_mod_cast h

theorem cast_value (h : Limbs) :
    (value h : ZMod Rfc8439.P) = ∑ i : Fin 17, ((h.get i).toNat : ZMod Rfc8439.P) * 256 ^ i.val := by
  rw [value, limbSum, Nat.cast_sum, ← Fin.sum_univ_eq_sum_range
    (fun k => ((limb h k * 256 ^ k : ℕ) : ZMod Rfc8439.P))]
  refine sum_congr rfl fun i _ => ?_
  rw [limb_val]
  push_cast
  rfl

/-- The limbs of the product that a limb contributes to: its own multiple of the other factor. -/
theorem sum_weight (r : Limbs) (j : Fin 17) :
    ∑ i : Fin 17, (weight r i j : ZMod Rfc8439.P) * 256 ^ i.val =
      256 ^ j.val * (value r : ZMod Rfc8439.P) := by
  rw [cast_value, mul_sum]
  refine Fintype.sum_equiv (Equiv.subRight j) _ _ fun i => ?_
  rw [Equiv.subRight_apply, weight]
  have hi := i.isLt
  have hj := j.isLt
  have hsub : (i - j).val = (17 - j.val + i.val) % 17 := rfl
  split
  · rename_i hle
    have hle : j.val ≤ i.val := hle
    have hval : (i - j).val = i.val - j.val := by omega
    have hpow : (256 : ZMod Rfc8439.P) ^ i.val = 256 ^ j.val * 256 ^ (i - j).val := by
      rw [hval, ← pow_add]
      congr 1
      omega
    rw [hpow]
    ring
  · rename_i hlt
    have hlt : ¬ j.val ≤ i.val := hlt
    have hval : (i - j).val = 17 + i.val - j.val := by omega
    have hpow : (256 : ZMod Rfc8439.P) ^ j.val * 256 ^ (i - j).val = 320 * 256 ^ i.val := by
      rw [hval, ← pow_add, ← pow_256, ← pow_add]
      congr 1
      omega
    push_cast
    linear_combination (-((r.get (i - j)).toNat : ZMod Rfc8439.P)) * hpow

/-- The limbs of the product, before any carry. -/
def product (h r : Limbs) : Limbs := Vector.ofFn (productLimb h r)

theorem cast_product {h r : Limbs} (hh : Bytewise h) (hr : Bytewise r) :
    (value (product h r) : ZMod Rfc8439.P) = value h * value r := by
  rw [cast_value, cast_value h, sum_mul]
  calc ∑ i : Fin 17, (((product h r).get i).toNat : ZMod Rfc8439.P) * 256 ^ i.val
      = ∑ i : Fin 17, ∑ j : Fin 17,
          (((h.get j).toNat : ZMod Rfc8439.P) * ((weight r i j : ZMod Rfc8439.P) * 256 ^ i.val)) := by
        refine sum_congr rfl fun i _ => ?_
        rw [product, get_ofFn, (productLimb_spec hh hr i).2]
        push_cast
        rw [sum_mul]
        exact sum_congr rfl fun j _ => mul_assoc _ _ _
    _ = ∑ j : Fin 17, ((h.get j).toNat : ZMod Rfc8439.P) * 256 ^ j.val * value r := by
        rw [sum_comm]
        refine sum_congr rfl fun j _ => ?_
        rw [← mul_sum, sum_weight, mul_assoc]

/-! ## Reduction -/

/-- What the top limb is after the carries of a pass. -/
def top (x : Limbs) : ℕ := carries 256 (limb x) 16 + limb x 16

theorem reducePass_spec {x : Limbs} (hroom : ∀ k < 17, carries 256 (limb x) k + limb x k < 2 ^ 32)
    (hfold : 5 * (top x / 4) + 255 < 2 ^ 32) :
    Checked.reducePass x = some (reducePass x) ∧
      limb (reducePass x) 0 = settled 256 (limb x) 0 + 5 * (top x / 4) ∧
      (∀ k < 15, limb (reducePass x) (k + 1) = settled 256 (limb x) (k + 1)) ∧
      limb (reducePass x) 16 = top x % 4 ∧
      value x = value (reducePass x) + top x / 4 * Rfc8439.P := by
  have hextra : ∀ i : Fin 17, some (x.get i) = some (x.get i) ∧ (x.get i).toNat = limb x i :=
    fun i => ⟨rfl, (limb_val x i).symm⟩
  obtain ⟨c, v, hrun, hchecked, hc, hv⟩ := carry_loop (fun y _ => y)
    (fun y _ => some y) hextra hroom (n := 16) (by decide)
  have hlast : v.get 16 = x.get 16 := by
    have h16 := hv 16
    rwa [if_neg (by decide)] at h16
  have hx16 : (x.get 16).toNat = limb x 16 := (limb_val x 16).symm
  have hsum : c.toNat + (v.get 16).toNat < 2 ^ 32 := by
    rw [hc, hlast, hx16]
    exact hroom 16 (by decide)
  obtain ⟨t, ht⟩ : ∃ t, c + v.get 16 = t := ⟨_, rfl⟩
  have htop : t.toNat = top x := by
    rw [← ht, UInt32.toNat_add, Nat.mod_eq_of_lt hsum, hc, hlast, hx16, top]
  have hquarter : (t >>> 2).toNat = top x / 4 := by
    rw [UInt32.toNat_shiftRight, Nat.shiftRight_eq_div_pow, htop]
    rfl
  have hlow : (t &&& 3).toNat = top x % 4 := by
    rw [UInt32.toNat_and, ← htop]
    exact Nat.and_two_pow_sub_one_eq_mod t.toNat 2
  have htimes : (5 : UInt32).toNat * (t >>> 2).toNat < 2 ^ 32 := by
    rw [hquarter]
    change 5 * _ < _
    omega
  have hfive : ((5 : UInt32) * (t >>> 2)).toNat = 5 * (top x / 4) := by
    rw [UInt32.toNat_mul, Nat.mod_eq_of_lt htimes, hquarter]
    rfl
  have hfirst : ((put v 16 (t &&& 3)).get 0).toNat = settled 256 (limb x) 0 := by
    have h0 := hv 0
    rw [if_pos (by decide)] at h0
    rw [put, get_set_of_ne _ _ (by decide), h0]
    rfl
  have hsettled : settled 256 (limb x) 0 < 256 := settled_lt (by decide) 0
  have hplus : ((put v 16 (t &&& 3)).get 0).toNat + ((5 : UInt32) * (t >>> 2)).toNat < 2 ^ 32 := by
    rw [hfirst, hfive]
    omega
  have hpass : reducePass x = put (put v 16 (t &&& 3)) 0
      ((put v 16 (t &&& 3)).get 0 + (5 : UInt32) * (t >>> 2)) := by
    rw [reducePass, hrun, ← ht]
  have hzero : limb (reducePass x) 0 = settled 256 (limb x) 0 + 5 * (top x / 4) := by
    rw [hpass]
    change ((put (put v 16 (t &&& 3)) 0 _).get 0).toNat = _
    rw [put, get_set_self, UInt32.toNat_add, Nat.mod_eq_of_lt hplus, hfirst, hfive]
  have hmiddle : ∀ k < 15, limb (reducePass x) (k + 1) = settled 256 (limb x) (k + 1) := by
    intro k hk
    obtain ⟨i, hi⟩ : ∃ i : Fin 17, i.val = k + 1 := ⟨⟨k + 1, by omega⟩, rfl⟩
    have hvi := hv i
    rw [if_pos (by omega), hi] at hvi
    rw [← hi, limb_val, hpass, put, put, get_set_of_ne _ _ fun h => ?_,
      get_set_of_ne _ _ fun h => ?_, hvi, hi]
    · rw [← h] at hi
      change 16 = k + 1 at hi
      omega
    · rw [← h] at hi
      change 0 = k + 1 at hi
      omega
  have hsixteen : limb (reducePass x) 16 = top x % 4 := by
    rw [hpass]
    change ((put (put v 16 (t &&& 3)) 0 _).get 16).toNat = _
    rw [put, put, get_set_of_ne _ _ (by decide), get_set_self, hlow]
  refine ⟨?_, hzero, hmiddle, hsixteen, ?_⟩
  · rw [Checked.reducePass, hchecked]
    change (Word.plus c (v.get 16)).bind _ = _
    rw [Word.plus_eq hsum, ht]
    change (Word.times (5 : UInt32) (t >>> 2)).bind _ = _
    rw [Word.times_eq htimes]
    change (Word.plus ((put v 16 (t &&& 3)).get 0) ((5 : UInt32) * (t >>> 2))).bind _ = _
    rw [Word.plus_eq hplus, hpass]
    rfl
  · have hnew := limbSum_of_first (b := 256) hzero hmiddle
    have hold := sum_settled (b := 256) (e := limb x) 16
    have hmod := Nat.mod_add_div (top x) 4
    have hP : 4 * 256 ^ 16 = Rfc8439.P + 5 := by decide
    calc value x = limbSum 256 (limb x) 16 + limb x 16 * 256 ^ 16 := limbSum_succ 16
      _ = limbSum 256 (settled 256 (limb x)) 16 + top x * 256 ^ 16 := by
          rw [← hold, top]
          ring
      _ = limbSum 256 (settled 256 (limb x)) 16 + top x % 4 * 256 ^ 16 +
            top x / 4 * (4 * 256 ^ 16) := by
          nth_rewrite 1 [← hmod]
          ring
      _ = limbSum 256 (limb (reducePass x)) 16 + limb (reducePass x) 16 * 256 ^ 16 +
            top x / 4 * Rfc8439.P := by
          rw [hnew, hsixteen, hP]
          ring
      _ = value (reducePass x) + top x / 4 * Rfc8439.P := by rw [value, limbSum_succ 16]

/-- The limbs of the product, as the loop writes them. -/
theorem checked_product {h r : Limbs} (hh : Bytewise h) (hr : Bytewise r) :
    (List.finRange 17).foldlM (fun x i => do some (put x i (← Checked.productLimb h r i)))
      (Vector.replicate 17 0) = some (product h r) := by
  have hloop := foldlM_eq_some (P := fun _ => True) (l := List.finRange 17)
    (f := fun x i => do some (put x i (← Checked.productLimb h r i)))
    (g := fun x i => put x i (productLimb h r i)) (s := Vector.replicate 17 (0 : UInt32)) trivial
    (by
      intro x i _ _
      refine ⟨?_, trivial⟩
      change (Checked.productLimb h r i).bind _ = _
      rw [(productLimb_spec hh hr i).1]
      rfl)
  rw [hloop.1]
  refine congrArg some (ext_get fun i => ?_)
  rw [product, get_ofFn]
  exact get_foldl_set (g := id) Function.injective_id _ (List.mem_finRange i)

/-- The three passes of a product. Its limbs are below a bound that leaves room for every sum, after
the first pass only the lowest limb is large, after the second one no limb is. -/
theorem mulMod_spec {h r : Limbs} (hh : Bytewise h) (hr : Bytewise r) :
    Checked.mulMod h r = some (mulMod h r) ∧ Bytewise (mulMod h r) ∧
      value (mulMod h r) < 2 ^ 130 + 260 ∧
      (value (mulMod h r) : ZMod Rfc8439.P) = value h * value r := by
  -- the first pass
  obtain ⟨x, hx⟩ : ∃ x, product h r = x := ⟨_, rfl⟩
  have hlimb : ∀ k, limb x k ≤ (256 - 1) * 1387200 := by
    intro k
    rw [← hx, limb, product, get_ofFn]
    exact productLimb_le hh hr _
  have hcarry : ∀ k, carries 256 (limb x) k ≤ 1387200 := fun k =>
    carries_le (by decide) fun k _ => hlimb k
  have htop : top x ≤ 355123200 := by
    have h1 := hcarry 16
    have h2 := hlimb 16
    rw [top]
    omega
  obtain ⟨hrun, hzero, hmiddle, hlast, hvalue⟩ := reducePass_spec (x := x) (by
    intro k _
    have h1 := hcarry k
    have h2 := hlimb k
    omega) (by omega)
  -- the second pass
  obtain ⟨y, hy⟩ : ∃ y, reducePass x = y := ⟨_, rfl⟩
  rw [hy] at hrun hzero hmiddle hlast hvalue
  have hyfirst : limb y 0 ≤ 443904255 := by
    have hs : settled 256 (limb x) 0 < 256 := settled_lt (by decide) 0
    omega
  have hyrest : ∀ k < 17, k ≠ 0 → limb y k < 256 := by
    intro k hk hne
    obtain ⟨j, rfl⟩ := Nat.exists_eq_succ_of_ne_zero hne
    rcases Nat.lt_or_ge j 15 with hj | hj
    · rw [Nat.succ_eq_add_one, hmiddle j hj]
      exact settled_lt (by decide) _
    · obtain rfl : j = 15 := by omega
      have hle : limb y 16 ≤ 3 := by omega
      exact Nat.lt_of_le_of_lt hle (by decide)
  have hycarry : ∀ k, k ≤ 17 → carries 256 (limb y) k ≤ 1740801 := by
    intro k hk
    refine carries_le (by decide) fun j hj => ?_
    rcases Nat.eq_zero_or_pos j with rfl | hpos
    · omega
    · have hlt := hyrest j (by omega) (by omega)
      omega
  have hyone : carries 256 (limb y) 16 ≤ 1 :=
    carries_le_one (by decide) (fun k hk => hyrest k (by omega)) (by omega)
  have hytop : top y ≤ 4 := by
    rw [top]
    omega
  obtain ⟨hrun', hzero', hmiddle', hlast', hvalue'⟩ := reducePass_spec (x := y) (by
    intro k hk
    have h1 := hycarry k (by omega)
    rcases Nat.eq_zero_or_pos k with rfl | hpos
    · omega
    · have hlt := hyrest k hk (by omega)
      omega) (by omega)
  -- the last carries
  obtain ⟨z, hz⟩ : ∃ z, reducePass y = z := ⟨_, rfl⟩
  rw [hz] at hrun' hzero' hmiddle' hlast' hvalue'
  have hzfirst : limb z 0 ≤ 260 := by
    have hs : settled 256 (limb y) 0 < 256 := settled_lt (by decide) 0
    omega
  have hztop : limb z 16 ≤ 3 := by omega
  have hzrest : ∀ k < 17, k ≠ 0 → limb z k < 256 := by
    intro k hk hne
    obtain ⟨j, rfl⟩ := Nat.exists_eq_succ_of_ne_zero hne
    rcases Nat.lt_or_ge j 15 with hj | hj
    · rw [Nat.succ_eq_add_one, hmiddle' j hj]
      exact settled_lt (by decide) _
    · obtain rfl : j = 15 := by omega
      exact Nat.lt_of_le_of_lt hztop (by decide)
  have hzcarry : ∀ k, k ≤ 17 → carries 256 (limb z) k ≤ 2 := by
    intro k hk
    refine carries_le (by decide) fun j hj => ?_
    rcases Nat.eq_zero_or_pos j with rfl | hpos
    · omega
    · have hlt := hzrest j (by omega) (by omega)
      omega
  have hextra : ∀ i : Fin 17, some (z.get i) = some (z.get i) ∧ (z.get i).toNat = limb z i :=
    fun i => ⟨rfl, (limb_val z i).symm⟩
  obtain ⟨c, v, hlastrun, hchecked, hc, -, hv, hvvalue⟩ := carry_all (fun y _ => y)
    (fun y _ => some y) hextra (by
      intro k hk
      have h1 := hzcarry k (by omega)
      rcases Nat.eq_zero_or_pos k with rfl | hpos
      · omega
      · have hlt := hzrest k hk (by omega)
        omega)
  have hnone : carries 256 (limb z) 17 = 0 := by
    have hone : carries 256 (limb z) 16 ≤ 1 :=
      carries_le_one (by decide) (fun k hk => hzrest k (by omega)) (by omega)
    rw [carries]
    omega
  have hczero : c = 0 := UInt32.toNat_inj.mp (hc.trans hnone)
  have hmul : mulMod h r = v := by
    change ((List.finRange 17).foldl (fun acc i => carryLimb acc i (acc.2.get i))
      (0, reducePass (reducePass (product h r)))).2 = v
    rw [hx, hy, hz, hlastrun]
  have hvz : value v = value z := by
    rw [hczero, UInt32.toNat_zero, Nat.zero_mul, Nat.add_zero] at hvvalue
    exact hvvalue
  rw [hmul]
  refine ⟨?_, hv, ?_, ?_⟩
  · have hbuild := checked_product hh hr
    rw [Checked.mulMod, hbuild, hx]
    change (Checked.reducePass x).bind _ = _
    rw [hrun]
    change (Checked.reducePass y).bind _ = _
    rw [hrun']
    change ((List.finRange 17).foldlM
      (fun acc i => Checked.carryLimb acc i (some (acc.2.get i))) (0, z)).bind _ = _
    rw [hchecked]
    exact if_pos hczero
  · have hlow : limbSum 256 (limb z) 16 < 256 ^ 16 + limb z 0 :=
      limbSum_lt_of_first (by decide) fun k hk => hzrest k (by omega)
    rw [hvz, value, limbSum_succ]
    omega
  · have hcast := cast_product hh hr
    have hP : (Rfc8439.P : ZMod Rfc8439.P) = 0 := ZMod.natCast_self _
    rw [← hcast, hx, hvz, hvalue, hvalue']
    push_cast
    rw [hP]
    ring

/-! ## Bytes as limbs -/

/-- Limbs that hold the bytes of a string. -/
theorem value_of_bytes {h : Limbs} {l : Bytes} (hlen : l.length ≤ 17)
    (hh : ∀ i : Fin 17, (h.get i).toNat = (l.getD i 0).toNat) :
    Bytewise h ∧ value h = leNat l := by
  refine ⟨fun i => ?_, ?_⟩
  · rw [hh]
    exact UInt8.toNat_lt _
  · rw [leNat_eq_limbSum hlen, value]
    refine limbSum_congr fun k hk => ?_
    rw [limb, hh]
    exact congrArg (fun j => (l.getD j 0).toNat) (Nat.mod_eq_of_lt hk)

theorem value_blockLimbs {chunk : Bytes} (h : chunk.length ≤ 16) :
    Bytewise (blockLimbs chunk) ∧ value (blockLimbs chunk) = leNat (chunk ++ [1]) := by
  refine value_of_bytes (by rw [List.length_append, List.length_singleton]; omega) fun i => ?_
  rw [blockLimbs, get_ofFn]
  by_cases hi : i.val = chunk.length
  · rw [if_pos hi, List.getD_append_right _ _ _ _ (by omega), hi, Nat.sub_self]
    rfl
  · rw [if_neg hi, UInt8.toNat_toUInt32]
    rcases Nat.lt_or_ge i.val chunk.length with hlt | hge
    · rw [List.getD_append _ _ _ _ hlt]
    · rw [List.getD_eq_default _ _ hge, List.getD_eq_default]
      rw [List.length_append, List.length_singleton]
      omega

/-- The mask of the clamp, byte by byte. -/
def clampMask : Bytes :=
  [255, 255, 255, 15, 252, 255, 255, 15, 252, 255, 255, 15, 252, 255, 255, 15]

theorem and_byte {x y m n : ℕ} (hx : x < 256) (hy : y < 256) :
    (x + 256 * m) &&& (y + 256 * n) = (x &&& y) + 256 * (m &&& n) := by
  have hand : x &&& y < 2 ^ 8 := Nat.and_lt_two_pow x (by omega)
  apply Nat.eq_of_testBit_eq
  intro j
  have h1 := Nat.testBit_two_pow_mul_add m (show x < 2 ^ 8 by omega) j
  have h2 := Nat.testBit_two_pow_mul_add n (show y < 2 ^ 8 by omega) j
  have h3 := Nat.testBit_two_pow_mul_add (m &&& n) hand j
  rw [Nat.add_comm] at h1 h2 h3
  change (x + 256 * m).testBit j = _ at h1
  change (y + 256 * n).testBit j = _ at h2
  change ((x &&& y) + 256 * (m &&& n)).testBit j = _ at h3
  rw [Nat.testBit_and, h1, h2, h3]
  split <;> rw [Nat.testBit_and]

theorem leNat_zipWith_and (a b : Bytes) (h : a.length = b.length) :
    leNat (List.zipWith (· &&& ·) a b) = leNat a &&& leNat b := by
  induction a generalizing b with
  | nil => simp [leNat]
  | cons x a ih =>
    obtain ⟨y, b, rfl⟩ : ∃ y c, b = y :: c :=
      List.exists_cons_of_length_pos (by rw [← h]; exact Nat.succ_pos _)
    rw [List.zipWith_cons_cons, leNat, leNat, leNat, ih b (by simpa using h), UInt8.toNat_and,
      and_byte x.toNat_lt y.toNat_lt]

theorem value_clamp {key : Bytes} (h : key.length = 32) :
    Bytewise (clamp key) ∧ value (clamp key) = Rfc8439.clamp (leNat (key.take 16)) := by
  have hlen : (key.take 16).length = clampMask.length := by
    rw [List.length_take, h]
    rfl
  have hmask : leNat clampMask = 0x0ffffffc0ffffffc0ffffffc0fffffff := by decide
  rw [Rfc8439.clamp, ← hmask, ← leNat_zipWith_and _ _ hlen]
  refine value_of_bytes (by rw [List.length_zipWith, hlen]; decide) fun i => ?_
  have hbyte : ∀ k < 16, (List.zipWith (· &&& ·) (key.take 16) clampMask).getD k 0 =
      key.getD k 0 &&& clampMask.getD k 0 := by
    intro k hk
    have hzip : k < (List.zipWith (· &&& ·) (key.take 16) clampMask).length := by
      rw [List.length_zipWith, hlen]
      exact lt_of_lt_of_le hk (by decide)
    rw [List.getD_eq_getElem _ _ hzip, List.getElem_zipWith, List.getElem_take,
      List.getD_eq_getElem _ _ (show k < key.length by omega),
      List.getD_eq_getElem _ _ (show k < clampMask.length from hk)]
  have hall : ∀ b : UInt8, b &&& 255 = b := by
    intro b
    apply UInt8.toNat_inj.mp
    rw [UInt8.toNat_and]
    exact (Nat.and_two_pow_sub_one_eq_mod b.toNat 8).trans (Nat.mod_eq_of_lt b.toNat_lt)
  rw [clamp, get_ofFn]
  rcases Nat.lt_or_ge i.val 16 with hlt | hge
  · rw [hbyte i hlt, if_pos hlt]
    obtain ⟨k, hk⟩ := i
    simp only at hlt ⊢
    generalize key.getD k 0 = b
    interval_cases k <;> simp [clampMask, hall]
  · have hi : i.val = 16 := by omega
    rw [hi, if_neg (by decide), if_neg (by decide), if_neg (by decide), List.getD_eq_default]
    · rfl
    · rw [List.length_zipWith, hlen]
      decide

/-! ## The loop over the blocks -/

theorem messageBlock_succ (rest : Bytes) (i : ℕ) :
    Rfc8439.messageBlock rest (i + 1) = Rfc8439.messageBlock (rest.drop 16) i := by
  rw [Rfc8439.messageBlock, Rfc8439.messageBlock, List.drop_drop]
  congr 2
  ring

theorem messageBlock_zero (rest : Bytes) : Rfc8439.messageBlock rest 0 = rest.take 16 := by
  rw [Rfc8439.messageBlock, Nat.mul_zero, List.drop_zero]

/-- What holds between two blocks. -/
structure Settled (h : Limbs) : Prop where
  bytewise : Bytewise h
  value_lt : value h < 2 ^ 130 + 260

theorem leNat_block_lt {chunk : Bytes} (h : chunk.length ≤ 16) :
    leNat (chunk ++ [1]) < 2 * 256 ^ 16 := by
  have hlt := leNat_lt chunk
  have hpow : 256 ^ chunk.length ≤ 256 ^ 16 := Nat.pow_le_pow_right (by decide) h
  have hone : leNat [1] = 1 := rfl
  have hbase : 2 ^ (8 * chunk.length) = 256 ^ chunk.length := pow_mul 2 8 chunk.length
  rw [leNat_append, hone, Nat.mul_one, hbase]
  omega

/-- One block. -/
theorem round_spec {h r : Limbs} (hr : Bytewise r) (hh : Settled h) {chunk : Bytes}
    (hlen : chunk.length ≤ 16) :
    Checked.add h (blockLimbs chunk) = some (add h (blockLimbs chunk)) ∧
      Checked.mulMod (add h (blockLimbs chunk)) r = some (mulMod (add h (blockLimbs chunk)) r) ∧
      Settled (mulMod (add h (blockLimbs chunk)) r) ∧
      (value (mulMod (add h (blockLimbs chunk)) r) : ZMod Rfc8439.P) =
        (value h + leNat (chunk ++ [1]) : ℕ) * value r := by
  obtain ⟨hblock, hnat⟩ := value_blockLimbs hlen
  obtain ⟨hadd, hsum, hsumval⟩ := add_spec hh.bytewise hblock
  obtain ⟨hmul, hbytes, hlt, hcast⟩ := mulMod_spec hsum hr
  have hroom : value h + value (blockLimbs chunk) < 256 ^ 17 := by
    have hsmall := leNat_block_lt hlen
    have hlow := hh.value_lt
    rw [hnat]
    omega
  rw [Nat.mod_eq_of_lt hroom, hnat] at hsumval
  rw [hsumval] at hcast
  exact ⟨hadd, hmul, ⟨hbytes, hlt⟩, hcast⟩

theorem absorb_spec {r : Limbs} (hr : Bytewise r) (n : ℕ) {h : Limbs} (hh : Settled h)
    (rest : Bytes) : Checked.absorb r n h rest = some (absorb r n h rest) ∧
      Settled (absorb r n h rest) ∧
      value (absorb r n h rest) % Rfc8439.P = (List.range n).foldl
        (fun a i => (a + leNat (Rfc8439.messageBlock rest i ++ [1])) * value r % Rfc8439.P)
        (value h % Rfc8439.P) := by
  induction n generalizing h rest with
  | zero =>
    refine ⟨rfl, hh, ?_⟩
    rw [absorb, List.range_zero, List.foldl_nil]
  | succ n ih =>
    obtain ⟨hadd, hmul, hround, hcast⟩ := round_spec hr hh (List.length_take_le 16 rest)
    obtain ⟨hrun, hsettled, hvalue⟩ := ih hround (rest.drop 16)
    have hmod : value (mulMod (add h (blockLimbs (rest.take 16))) r) % Rfc8439.P =
        (value h % Rfc8439.P + leNat (Rfc8439.messageBlock rest 0 ++ [1])) * value r %
          Rfc8439.P := by
      rw [messageBlock_zero]
      apply (ZMod.natCast_eq_natCast_iff' _ _ _).mp
      rw [hcast]
      push_cast
      rw [ZMod.natCast_mod]
    refine ⟨?_, hsettled, ?_⟩
    · simp only [Checked.absorb, hadd, hmul, Option.bind_eq_bind, Option.bind_some, hrun, absorb]
    · rw [absorb, hvalue, hmod, List.range_succ_eq_map, List.foldl_cons, List.foldl_map]
      simp only [messageBlock_succ]

/-! ## The last subtraction -/

theorem Bytewise.limb_sixteen {h : Limbs} (hh : Bytewise h) : limb h 16 = value h / 256 ^ 16 := by
  have hlow : limbSum 256 (limb h) 16 < 256 ^ 16 := limbSum_lt fun k _ => hh.limb_lt k
  rw [value, limbSum_succ, Nat.add_mul_div_right _ _ (by decide), Nat.div_eq_of_lt hlow,
    Nat.zero_add]

theorem value_minusP : Bytewise minusP ∧ value minusP = 256 ^ 17 - Rfc8439.P := by
  obtain ⟨hbytes, hvalue⟩ := value_of_bytes (h := minusP)
    (l := [5, 0, 0, 0, 0, 0, 0, 0, 0, 0, 0, 0, 0, 0, 0, 0, 252]) (by decide) (by
      intro i
      rw [minusP, get_ofFn]
      revert i
      decide)
  refine ⟨hbytes, hvalue.trans ?_⟩
  decide

theorem select_limb (g h : UInt32) :
    h ^^^ ((0 - 1 : UInt32) &&& (g ^^^ h)) = g ∧ h ^^^ ((0 - 0 : UInt32) &&& (g ^^^ h)) = h := by
  have hones : (0 - 1 : UInt32) &&& (g ^^^ h) = g ^^^ h := by
    apply UInt32.toBitVec_inj.mp
    rw [UInt32.toBitVec_and]
    change BitVec.allOnes 32 &&& _ = _
    rw [BitVec.allOnes_and]
  have hzeros : (0 - 0 : UInt32) &&& (g ^^^ h) = 0 := by
    change (0 : UInt32) &&& _ = 0
    rw [UInt32.zero_and]
  rw [hones, hzeros, UInt32.xor_zero, UInt32.xor_comm g, ← UInt32.xor_assoc, UInt32.xor_self,
    UInt32.zero_xor]
  exact ⟨rfl, rfl⟩

theorem freeze_spec {g : Limbs} (hg : Settled g) :
    Checked.freeze g = some (freeze g) ∧ Bytewise (freeze g) ∧
      value (freeze g) = value g % Rfc8439.P := by
  obtain ⟨hbytes, hminus⟩ := value_minusP
  obtain ⟨hadd, hsum, hvalue⟩ := add_spec hg.bytewise hbytes
  have hlt := hg.value_lt
  have hP : Rfc8439.P = 1361129467683753853853498429727072845819 := by decide
  have htop : ((add g minusP).get 16 >>> 7).toNat = value (add g minusP) / 256 ^ 16 / 128 := by
    rw [UInt32.toNat_shiftRight, Nat.shiftRight_eq_div_pow, ← hsum.limb_sixteen]
    rfl
  rw [hminus] at hvalue
  have hchecked : Checked.freeze g = some (freeze g) := by
    rw [Checked.freeze, hadd]
    rfl
  refine ⟨hchecked, ?_⟩
  by_cases hless : value g < Rfc8439.P
  · have hmask : (add g minusP).get 16 >>> 7 = 1 := by
      apply UInt32.toNat_inj.mp
      rw [htop, hvalue, Nat.mod_eq_of_lt (by omega)]
      change _ = 1
      omega
    have hsame : freeze g = g := by
      refine ext_get fun i => ?_
      rw [freeze, get_ofFn, hmask, (select_limb _ _).1]
    rw [hsame, Nat.mod_eq_of_lt hless]
    exact ⟨hg.bytewise, rfl⟩
  · have hreduced : value (add g minusP) = value g - Rfc8439.P := by
      rw [hvalue]
      omega
    have hmask : (add g minusP).get 16 >>> 7 = 0 := by
      apply UInt32.toNat_inj.mp
      rw [htop, hreduced]
      change _ = 0
      omega
    have hsame : freeze g = add g minusP := by
      refine ext_get fun i => ?_
      rw [freeze, get_ofFn, hmask, (select_limb _ _).2]
    rw [hsame, hreduced, Nat.mod_eq_sub_mod (by omega), Nat.mod_eq_of_lt (by omega)]
    exact ⟨hsum, rfl⟩

/-! ## The tag -/

/-- The low limbs as bytes. -/
theorem lowBytes_eq {h : Limbs} (hh : Bytewise h) :
    (h.toList.take 16).map UInt32.toUInt8 = leBytes 16 (value h) := by
  have hlen : ((h.toList.take 16).map UInt32.toUInt8).length = 16 := by simp
  have hlimbs : leNat ((h.toList.take 16).map UInt32.toUInt8) = limbSum 256 (limb h) 16 := by
    rw [leNat_eq_limbSum hlen.le]
    refine limbSum_congr fun k hk => ?_
    have hbyte := hh.limb_lt k
    rw [List.getD_eq_getElem _ _ (by omega), List.getElem_map, List.getElem_take,
      Vector.getElem_toList, UInt32.toNat_toUInt8]
    have hget : h[k] = h.get (Fin.ofNat 17 k) := by
      have hk : Fin.ofNat 17 k = ⟨k, by omega⟩ := Fin.ext (Nat.mod_eq_of_lt (by omega))
      rw [hk]
      rfl
    rw [hget]
    exact Nat.mod_eq_of_lt hbyte
  have hlow : limbSum 256 (limb h) 16 < 256 ^ 16 := limbSum_lt fun k _ => hh.limb_lt k
  have hmod : value h % 256 ^ 16 = limbSum 256 (limb h) 16 := by
    rw [value, limbSum_succ, Nat.add_mul_mod_self_right, Nat.mod_eq_of_lt hlow]
  have hbytes := leBytes_leNat ((h.toList.take 16).map UInt32.toUInt8)
  rw [hlen] at hbytes
  rw [← leBytes_mod 16 (value h), hmod, ← hlimbs, hbytes]

/-- **The tag is the one of the definition**, for every message and every key, and nothing in its
computation overflows. -/
theorem poly1305_exact (message : Bytes) (key : ByteArr 32) :
    Checked.poly1305 message key.1 = some (poly1305 message key.1) ∧
      (poly1305 message key.1).1 = leBytes 16 (Rfc8439.tag message key.1) := by
  obtain ⟨hclamp, hr⟩ := value_clamp key.2
  have hzero : Settled (Vector.replicate 17 (0 : UInt32)) ∧
      value (Vector.replicate 17 (0 : UInt32)) = 0 := by
    obtain ⟨hbytes, hvalue⟩ := value_of_bytes (h := Vector.replicate 17 (0 : UInt32)) (l := [])
      (by decide) (by decide +kernel)
    exact ⟨⟨hbytes, by rw [hvalue]; decide⟩, hvalue⟩
  obtain ⟨habsorb, hsettled, hacc⟩ := absorb_spec hclamp ((message.length + 15) / 16) hzero.1 message
  obtain ⟨hfreeze, hfrozen, hreduced⟩ := freeze_spec hsettled
  obtain ⟨s, hs⟩ : ∃ s : Limbs, (Vector.ofFn fun i : Fin 17 =>
      if i.val < 16 then (key.1.getD (16 + i.val) 0).toUInt32 else 0) = s := ⟨_, rfl⟩
  have hkey : (key.1.drop 16).length = 16 := by
    rw [List.length_drop, key.2]
  obtain ⟨hsbytes, hsvalue⟩ := value_of_bytes (h := s) (l := key.1.drop 16) (by omega) (by
    intro i
    rw [← hs, get_ofFn]
    rcases Nat.lt_or_ge i.val 16 with hlt | hge
    · rw [if_pos hlt, UInt8.toNat_toUInt32, List.getD_eq_getElem?_getD, List.getD_eq_getElem?_getD,
        List.getElem?_drop]
    · rw [if_neg (by omega), List.getD_eq_default _ _ (by omega)]
      rfl)
  obtain ⟨hadd, hsum, hvalue⟩ := add_spec hfrozen hsbytes
  refine ⟨?_, ?_⟩
  · simp only [Checked.poly1305, habsorb, Option.bind_eq_bind, Option.bind_some, hfreeze, hs, hadd,
      poly1305]
  · have htag : Rfc8439.tag message key.1 =
        (value (freeze (absorb (clamp key.1) ((message.length + 15) / 16) (Vector.replicate 17 0)
          message)) + value s) % 256 ^ 16 := by
      have hpow : 256 ^ 16 = 2 ^ 128 := by norm_num
      rw [hreduced, hacc, hr, hsvalue, hzero.2, Nat.zero_mod, Rfc8439.tag, Rfc8439.accumulator,
        hpow]
    have hmod : value (add (freeze (absorb (clamp key.1) ((message.length + 15) / 16)
        (Vector.replicate 17 0) message)) s) % 256 ^ 16 = Rfc8439.tag message key.1 := by
      rw [hvalue, Nat.mod_mod_of_dvd _ (pow_dvd_pow 256 (by decide : 16 ≤ 17)), htag]
    have hbytes : (poly1305 message key.1).1 = ((add (freeze (absorb (clamp key.1)
        ((message.length + 15) / 16) (Vector.replicate 17 0) message)) s).toList.take 16).map
          UInt32.toUInt8 := by
      simp only [poly1305, hs]
    exact hbytes.trans ((lowBytes_eq hsum).trans (hmod ▸ (leBytes_mod 16 _).symm))

end Poly1305

end Ciphra
