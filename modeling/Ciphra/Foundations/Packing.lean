import Ciphra.Foundations.Bytes

/-!
# Packing numbers of one width into bytes

A list of `w`-bit numbers and a byte string are two ways to write one number: its digits in base
`2 ^ w` and in base `256`, least significant first. A writer is right when the bytes denote
`Nat.ofDigits (2 ^ w) vals`, a reader when entry `i` is `digit w N i` of the number `N` of the bytes;
what a writer wrote, a reader then reads back (`digit_ofDigits`).

Two writers and two readers are covered. `pushBit` and `readBits` go bit by bit; `packBits` and
`unpackBits` carry an accumulator from which whole bytes, or whole numbers, are taken.
-/

namespace Ciphra

/-! ## Digits -/

/-- Digit `i` of `N` in base `2 ^ w`. -/
def digit (w N i : ℕ) : ℕ := N / 2 ^ (w * i) % 2 ^ w

theorem digit_lt (w N i : ℕ) : digit w N i < 2 ^ w := Nat.mod_lt _ (by positivity)

theorem digit_zero (w N : ℕ) : digit w N 0 = N % 2 ^ w := by simp [digit]

theorem digit_succ (w N i : ℕ) : digit w N (i + 1) = digit w (N / 2 ^ w) i := by
  rw [digit, digit, Nat.div_div_eq_div_mul, ← pow_add, mul_add_one, Nat.add_comm]

theorem digit_ofDigits {w : ℕ} {vals : List ℕ} (hvals : ∀ v ∈ vals, v < 2 ^ w) {i : ℕ}
    (hi : i < vals.length) : digit w (Nat.ofDigits (2 ^ w) vals) i = vals[i] := by
  induction vals generalizing i with
  | nil => exact absurd hi (by simp)
  | cons v vals ih =>
    have hv := hvals v List.mem_cons_self
    rw [Nat.ofDigits_cons]
    cases i with
    | zero => rw [digit_zero, Nat.add_mul_mod_self_left, Nat.mod_eq_of_lt hv, List.getElem_cons_zero]
    | succ i =>
      have hdiv : (v + 2 ^ w * Nat.ofDigits (2 ^ w) vals) / 2 ^ w = Nat.ofDigits (2 ^ w) vals := by
        rw [Nat.add_mul_div_left _ _ (by positivity), Nat.div_eq_of_lt hv, zero_add]
      rw [digit_succ, hdiv, ih (fun u hu => hvals u (List.mem_cons_of_mem _ hu)) (by simpa using hi),
        List.getElem_cons_succ]

theorem ofDigits_digit (w N n : ℕ) :
    Nat.ofDigits (2 ^ w) ((List.range n).map (digit w N)) = N % 2 ^ (w * n) := by
  induction n with
  | zero => simp [Nat.mod_one]
  | succ n ih =>
    rw [List.range_succ, List.map_append, Nat.ofDigits_append, ih, List.length_map,
      List.length_range, List.map_singleton, Nat.ofDigits_singleton, digit, mul_add_one, pow_add,
      Nat.mod_mul, ← pow_mul]

/-! ## Bytes as digits -/

theorem leNat_append (a b : Bytes) : leNat (a ++ b) = leNat a + 2 ^ (8 * a.length) * leNat b := by
  induction a with
  | nil => simp [leNat]
  | cons x a ih =>
    have hpow : 2 ^ (8 * (x :: a).length) = 256 * 2 ^ (8 * a.length) := by
      rw [List.length_cons, mul_add_one, pow_add]
      ring
    rw [List.cons_append, leNat, leNat, ih, hpow]
    ring

theorem leNat_lt_two_pow (bs : Bytes) : leNat bs < 2 ^ (8 * bs.length) := by
  have h := leNat_lt bs
  rwa [show (256 : ℕ) = 2 ^ 8 from rfl, ← pow_mul] at h

theorem leNat_inj {a b : Bytes} (hlen : a.length = b.length) (h : leNat a = leNat b) : a = b := by
  rw [← leBytes_leNat a, ← leBytes_leNat b, hlen, h]

theorem leNat_replicate_zero (n : ℕ) : leNat (List.replicate n 0) = 0 := by
  induction n with
  | zero => rfl
  | succ n ih => simp [List.replicate_succ, leNat, ih]

/-- Bit `k` of the number of a byte string is bit `k % 8` of byte `k / 8`. -/
theorem digit_one_leNat (bs : Bytes) (k : ℕ) :
    digit 1 (leNat bs) k = (bs.getD (k / 8) 0).toNat / 2 ^ (k % 8) % 2 := by
  induction bs generalizing k with
  | nil => simp [leNat, digit]
  | cons b bs ih =>
    have hb := b.toNat_lt
    rw [digit, one_mul, pow_one, leNat]
    by_cases hk : k < 8
    · have hdiv : k / 8 = 0 := by omega
      have hmod : k % 8 = k := by omega
      rw [hdiv, hmod, List.getD_cons_zero]
      have hpow : 256 * leNat bs = 2 ^ k * (2 ^ (8 - k) * leNat bs) := by
        rw [← mul_assoc, ← pow_add, Nat.add_sub_cancel' (by omega)]
        rfl
      have hev : 2 ^ (8 - k) * leNat bs = 2 * (2 ^ (7 - k) * leNat bs) := by
        rw [← mul_assoc, ← pow_succ', show 7 - k + 1 = 8 - k by omega]
      rw [hpow, Nat.add_mul_div_left _ _ (by positivity), hev]
      omega
    · have hk8 : k = 8 + (k - 8) := by omega
      have hdiv : k / 8 = (k - 8) / 8 + 1 := by omega
      have hmod : k % 8 = (k - 8) % 8 := by omega
      have hih := ih (k - 8)
      rw [digit, one_mul, pow_one] at hih
      have hquot : (b.toNat + 256 * leNat bs) / 2 ^ k = leNat bs / 2 ^ (k - 8) := by
        nth_rewrite 1 [hk8]
        rw [pow_add, ← Nat.div_div_eq_div_mul]
        congr 1
        omega
      rw [hquot, hih, hdiv, hmod, List.getD_cons_succ]

/-! ## Bit by bit -/

/-- One bit at the write position, which moves on. The buffer holds zeros from there. -/
def pushBit (s : Bytes × ℕ) (bit : Bool) : Bytes × ℕ :=
  (if bit then s.1.modify (s.2 / 8) (· ||| 1 <<< UInt8.ofNat (s.2 % 8)) else s.1, s.2 + 1)

/-- The bits of `v` from bit `0` to bit `w - 1`. -/
def lowBits (w v : ℕ) : List Bool := (List.range w).map fun b => (v >>> b) &&& 1 == 1

theorem or_two_pow {b p : ℕ} (h : b < 2 ^ p) : b ||| 2 ^ p = b + 2 ^ p := by
  have h' := Nat.two_pow_add_eq_or_of_lt h 1
  rw [mul_one] at h'
  rw [Nat.or_comm, ← h', Nat.add_comm]

theorem toNat_or_bit {b : UInt8} {p : ℕ} (hp : p < 8) (h : b.toNat < 2 ^ p) :
    (b ||| 1 <<< UInt8.ofNat p).toNat = b.toNat + 2 ^ p := by
  have hshift : ((1 : UInt8) <<< UInt8.ofNat p).toNat = 2 ^ p := by
    interval_cases p <;> rfl
  rw [UInt8.toNat_or, hshift, or_two_pow h]

theorem leNat_modify_bit {bs : Bytes} {p : ℕ} (hp : p / 8 < bs.length) (h : leNat bs < 2 ^ p) :
    leNat (bs.modify (p / 8) (· ||| 1 <<< UInt8.ofNat (p % 8))) = leNat bs + 2 ^ p := by
  induction bs generalizing p with
  | nil => exact absurd hp (by simp)
  | cons b bs ih =>
    rw [leNat] at h
    by_cases hp8 : p < 8
    · have hdiv : p / 8 = 0 := by omega
      have hmod : p % 8 = p := by omega
      rw [hdiv, hmod, List.modify_zero_cons, leNat, leNat, toNat_or_bit hp8 (by omega)]
      ring
    · have hdiv : p / 8 = (p - 8) / 8 + 1 := by omega
      have hmod : p % 8 = (p - 8) % 8 := by omega
      have hpow : 2 ^ p = 256 * 2 ^ (p - 8) := by
        rw [show (256 : ℕ) = 2 ^ 8 from rfl, ← pow_add, Nat.add_sub_cancel' (by omega)]
      rw [List.length_cons] at hp
      rw [hpow] at h
      rw [hdiv, hmod, List.modify_succ_cons, leNat, ih (by omega) (by omega), leNat, hpow]
      ring

theorem length_foldl_pushBit (bits : List Bool) (s : Bytes × ℕ) :
    (bits.foldl pushBit s).1.length = s.1.length := by
  induction bits generalizing s with
  | nil => rfl
  | cons bit bits ih =>
    rw [List.foldl_cons, ih, pushBit]
    cases bit <;> simp

/-- Bits are added at the write position. -/
theorem leNat_foldl_pushBit {bits : List Bool} {s : Bytes × ℕ}
    (hfit : s.2 + bits.length ≤ 8 * s.1.length) (h : leNat s.1 < 2 ^ s.2) :
    leNat (bits.foldl pushBit s).1 =
      leNat s.1 + 2 ^ s.2 * Nat.ofDigits 2 (bits.map Bool.toNat) := by
  induction bits generalizing s with
  | nil => simp
  | cons bit bits ih =>
    rw [List.length_cons] at hfit
    have hlen : (pushBit s bit).1.length = s.1.length := length_foldl_pushBit [bit] s
    have hstep : leNat (pushBit s bit).1 = leNat s.1 + 2 ^ s.2 * bit.toNat := by
      cases bit with
      | false => simp [pushBit]
      | true =>
        have hpos : s.2 / 8 < s.1.length := by omega
        have hmod := leNat_modify_bit hpos h
        simpa [pushBit] using hmod
    have hlt : leNat (pushBit s bit).1 < 2 ^ (pushBit s bit).2 := by
      have hbit : bit.toNat ≤ 1 := Bool.toNat_le bit
      have hmul : 2 ^ s.2 * bit.toNat ≤ 2 ^ s.2 * 1 := Nat.mul_le_mul_left _ hbit
      have hpow : 2 ^ (pushBit s bit).2 = 2 * 2 ^ s.2 := by rw [pushBit, pow_succ']
      rw [hstep, hpow]
      omega
    have hpos : (pushBit s bit).2 = s.2 + 1 := rfl
    rw [List.foldl_cons, ih (by omega) hlt, hstep, hpos, List.map_cons, Nat.ofDigits_cons, pow_succ]
    ring

@[simp] theorem length_lowBits (w v : ℕ) : (lowBits w v).length = w := by simp [lowBits]

theorem ofDigits_lowBits (w v : ℕ) :
    Nat.ofDigits 2 ((lowBits w v).map Bool.toNat) = v % 2 ^ w := by
  have hmap : (lowBits w v).map Bool.toNat = (List.range w).map (digit 1 v) := by
    rw [lowBits, List.map_map]
    apply List.map_congr_left
    intro b _
    rw [Function.comp_apply, digit, one_mul, pow_one, Nat.shiftRight_eq_div_pow, Nat.and_one_is_mod]
    rcases Nat.mod_two_eq_zero_or_one (v / 2 ^ b) with hbit | hbit <;> rw [hbit] <;> rfl
  have h := ofDigits_digit 1 v w
  rw [pow_one, one_mul] at h
  rw [hmap, h]

theorem ofDigits_flatMap_lowBits {w : ℕ} {vals : List ℕ} (hvals : ∀ v ∈ vals, v < 2 ^ w) :
    Nat.ofDigits 2 ((vals.flatMap (lowBits w)).map Bool.toNat) = Nat.ofDigits (2 ^ w) vals := by
  induction vals with
  | nil => rfl
  | cons v vals ih =>
    have hv := hvals v List.mem_cons_self
    have hlen : ((lowBits w v).map Bool.toNat).length = w := by simp
    rw [List.flatMap_cons, List.map_append, Nat.ofDigits_append, ofDigits_lowBits, hlen,
      Nat.mod_eq_of_lt hv, ih fun u hu => hvals u (List.mem_cons_of_mem _ hu), Nat.ofDigits_cons]

/-- The bits of the numbers, written to a buffer of zeros that holds them. -/
theorem leNat_foldl_lowBits {w n : ℕ} {vals : List ℕ} (hvals : ∀ v ∈ vals, v < 2 ^ w)
    (hfit : w * vals.length ≤ 8 * n) :
    leNat ((vals.flatMap (lowBits w)).foldl pushBit (List.replicate n 0, 0)).1 =
      Nat.ofDigits (2 ^ w) vals := by
  have hlen : (vals.flatMap (lowBits w)).length = w * vals.length := by
    simp [List.length_flatMap, mul_comm]
  rw [leNat_foldl_pushBit (by simpa [hlen] using hfit) (by simp [leNat_replicate_zero]),
    ofDigits_flatMap_lowBits hvals]
  simp [leNat_replicate_zero]

/-- The `w` bits from bit `pos`, collected from the lowest. -/
def readBits (bs : Bytes) (pos w : ℕ) : ℕ :=
  (List.range w).foldl
    (fun value b =>
      value ||| ((bs.getD ((pos + b) / 8) 0 >>> UInt8.ofNat ((pos + b) % 8)) &&& 1).toNat <<< b) 0

theorem toNat_shiftRight_and_one (x : UInt8) {t : ℕ} (ht : t < 8) :
    ((x >>> UInt8.ofNat t) &&& 1).toNat = x.toNat / 2 ^ t % 2 := by
  have hmod : (UInt8.ofNat t).toNat % 8 = t := by
    rw [UInt8.toNat_ofNat']
    omega
  rw [UInt8.toNat_and, UInt8.toNat_shiftRight, hmod, Nat.shiftRight_eq_div_pow]
  exact Nat.and_one_is_mod _

theorem readBits_eq (bs : Bytes) (pos w : ℕ) :
    readBits bs pos w = leNat bs / 2 ^ pos % 2 ^ w := by
  induction w with
  | zero => simp [readBits, Nat.mod_one]
  | succ w ih =>
    have hbit : ((bs.getD ((pos + w) / 8) 0 >>> UInt8.ofNat ((pos + w) % 8)) &&& 1).toNat =
        leNat bs / 2 ^ pos / 2 ^ w % 2 := by
      have hdigit := digit_one_leNat bs (pos + w)
      rw [digit, one_mul, pow_one, pow_add, ← Nat.div_div_eq_div_mul] at hdigit
      rw [toNat_shiftRight_and_one _ (Nat.mod_lt _ (by omega)), hdigit]
    have hfold : readBits bs pos (w + 1) = readBits bs pos w |||
        ((bs.getD ((pos + w) / 8) 0 >>> UInt8.ofNat ((pos + w) % 8)) &&& 1).toNat <<< w := by
      rw [readBits, List.range_succ, List.foldl_append]
      rfl
    have hlt : leNat bs / 2 ^ pos % 2 ^ w < 2 ^ w := Nat.mod_lt _ (by positivity)
    rw [hfold, ih, hbit, Nat.or_comm, ← Nat.shiftLeft_add_eq_or_of_lt hlt, Nat.shiftLeft_eq,
      Nat.mod_pow_succ]
    ring

/-- A number written at width `w` is read back at its place. -/
theorem readBits_mul (bs : Bytes) (w i : ℕ) : readBits bs (w * i) w = digit w (leNat bs) i :=
  readBits_eq bs (w * i) w

/-! ## With an accumulator -/

/-- Whole bytes leave the accumulator. -/
def flush (out : Bytes) (acc accBits : ℕ) : Bytes × ℕ × ℕ :=
  if 8 ≤ accBits then flush (out ++ [UInt8.ofNat acc]) (acc >>> 8) (accBits - 8)
  else (out, acc, accBits)
termination_by accBits

/-- Values of `w` bits packed least significant bit first. -/
def packBits (vals : List ℕ) (w : ℕ) : Bytes :=
  (vals.foldl (fun (s : Bytes × ℕ × ℕ) v => flush s.1 (s.2.1 ||| v <<< s.2.2) (s.2.2 + w))
    ([], 0, 0)).1

/-- Bytes enter the accumulator until it holds `w` bits; `none` where the data runs out. -/
def refill (w : ℕ) : Bytes → ℕ → ℕ → Option (Bytes × ℕ × ℕ)
  | [], acc, accBits => if accBits < w then none else some ([], acc, accBits)
  | b :: bs, acc, accBits =>
    if accBits < w then refill w bs (acc ||| b.toNat <<< accBits) (accBits + 8)
    else some (b :: bs, acc, accBits)

/-- `count` values of `w` bits, from the data and what the accumulator still holds. -/
def unpackFrom (w : ℕ) : ℕ → Bytes → ℕ → ℕ → Option (List ℕ)
  | 0, _, _, _ => some []
  | count + 1, data, acc, accBits => do
    let (data, acc, accBits) ← refill w data acc accBits
    let vals ← unpackFrom w count data (acc >>> w) (accBits - w)
    return acc % 2 ^ w :: vals

def unpackBits (data : Bytes) (w count : ℕ) : Option (List ℕ) := unpackFrom w count data 0 0

/-- Flushing moves bytes from the accumulator to the output and changes no bit. -/
theorem flush_spec (out : Bytes) (acc accBits : ℕ) (hacc : acc < 2 ^ accBits) :
    leNat (flush out acc accBits).1 +
        2 ^ (8 * (flush out acc accBits).1.length) * (flush out acc accBits).2.1 =
      leNat out + 2 ^ (8 * out.length) * acc ∧
    8 * (flush out acc accBits).1.length + (flush out acc accBits).2.2 =
      8 * out.length + accBits ∧
    (flush out acc accBits).2.1 < 2 ^ (flush out acc accBits).2.2 ∧
    (flush out acc accBits).2.2 < 8 := by
  induction accBits using Nat.strong_induction_on generalizing out acc with
  | _ accBits ih =>
    rw [flush]
    split
    · next h8 =>
      have hpow : 2 ^ accBits = 256 * 2 ^ (accBits - 8) := by
        rw [show (256 : ℕ) = 2 ^ 8 from rfl, ← pow_add, Nat.add_sub_cancel' h8]
      have hlt : acc >>> 8 < 2 ^ (accBits - 8) := by
        rw [Nat.shiftRight_eq_div_pow]
        omega
      obtain ⟨hval, hlen, hbound, hsmall⟩ :=
        ih (accBits - 8) (by omega) (out ++ [UInt8.ofNat acc]) (acc >>> 8) hlt
      refine ⟨?_, ?_, hbound, hsmall⟩
      · have hbyte : leNat [UInt8.ofNat acc] = acc % 256 := by simp [leNat]
        have hsplit : acc % 256 + 256 * (acc >>> 8) = acc := by
          rw [Nat.shiftRight_eq_div_pow]
          omega
        have hmul : 2 ^ (8 * (out ++ [UInt8.ofNat acc]).length) = 2 ^ (8 * out.length) * 256 := by
          rw [List.length_append, mul_add, pow_add]
          rfl
        rw [hval, leNat_append, hbyte, hmul, mul_assoc, add_assoc, ← mul_add, hsplit]
      · rw [hlen, List.length_append, List.length_singleton]
        omega
    · next h8 => exact ⟨rfl, rfl, hacc, Nat.lt_of_not_le h8⟩

theorem or_shiftLeft {acc v n : ℕ} (hacc : acc < 2 ^ n) : acc ||| v <<< n = acc + 2 ^ n * v := by
  rw [Nat.or_comm, ← Nat.shiftLeft_add_eq_or_of_lt hacc, Nat.shiftLeft_eq]
  ring

/-- Output and accumulator together hold the values packed so far. -/
theorem packBits_fold {w : ℕ} {vals : List ℕ} (hvals : ∀ v ∈ vals, v < 2 ^ w) (out : Bytes)
    (acc accBits : ℕ) (hacc : acc < 2 ^ accBits) (hbits : accBits < 8) :
    ∃ out' acc' accBits', vals.foldl
        (fun (s : Bytes × ℕ × ℕ) v => flush s.1 (s.2.1 ||| v <<< s.2.2) (s.2.2 + w))
        (out, acc, accBits) = (out', acc', accBits') ∧
      leNat out' + 2 ^ (8 * out'.length) * acc' =
        leNat out + 2 ^ (8 * out.length) * (acc + 2 ^ accBits * Nat.ofDigits (2 ^ w) vals) ∧
      8 * out'.length + accBits' = 8 * out.length + accBits + w * vals.length ∧
      acc' < 2 ^ accBits' ∧ accBits' < 8 := by
  induction vals generalizing out acc accBits with
  | nil => exact ⟨out, acc, accBits, rfl, by simp, by simp, hacc, hbits⟩
  | cons v vals ih =>
    have hv := hvals v List.mem_cons_self
    have hnew : acc ||| v <<< accBits < 2 ^ (accBits + w) := by
      have hmul : 2 ^ accBits * (v + 1) ≤ 2 ^ accBits * 2 ^ w := Nat.mul_le_mul_left _ hv
      rw [or_shiftLeft hacc, pow_add]
      rw [mul_add_one] at hmul
      omega
    obtain ⟨hval, hlen, hbound, hsmall⟩ := flush_spec out (acc ||| v <<< accBits) (accBits + w) hnew
    obtain ⟨out', acc', accBits', hfold, hval', hlen', hbound', hsmall'⟩ :=
      ih (fun u hu => hvals u (List.mem_cons_of_mem _ hu)) _ _ _ hbound hsmall
    refine ⟨out', acc', accBits', hfold, ?_, ?_, hbound', hsmall'⟩
    · have hpow : 2 ^ (8 * (flush out (acc ||| v <<< accBits) (accBits + w)).1.length) *
          2 ^ (flush out (acc ||| v <<< accBits) (accBits + w)).2.2 =
          2 ^ (8 * out.length) * (2 ^ accBits * 2 ^ w) := by
        rw [← pow_add, ← pow_add, ← pow_add, hlen]
      rw [hval', mul_add, ← add_assoc, hval, ← mul_assoc, hpow, or_shiftLeft hacc,
        Nat.ofDigits_cons]
      ring
    · rw [hlen', hlen, List.length_cons]
      ring

/-- Whole bytes of packed values denote the same number. -/
theorem packBits_spec {w : ℕ} {vals : List ℕ} (hvals : ∀ v ∈ vals, v < 2 ^ w)
    (h8 : 8 ∣ w * vals.length) :
    8 * (packBits vals w).length = w * vals.length ∧
      leNat (packBits vals w) = Nat.ofDigits (2 ^ w) vals := by
  obtain ⟨out, acc, accBits, hfold, hval, hlen, hbound, hsmall⟩ :=
    packBits_fold hvals [] 0 0 (by simp) (by simp)
  have hout : packBits vals w = out := by rw [packBits, hfold]
  simp only [List.length_nil, Nat.mul_zero, Nat.zero_add] at hlen
  have hbits : accBits = 0 := by omega
  subst hbits
  have hacc : acc = 0 := by simpa using hbound
  subst hacc
  rw [hout]
  refine ⟨by omega, ?_⟩
  simpa [leNat] using hval

/-- Refilling moves bytes from the data to the accumulator and changes no bit. -/
theorem refill_spec {w : ℕ} (data : Bytes) {acc accBits : ℕ} (hacc : acc < 2 ^ accBits)
    (hfit : w ≤ accBits + 8 * data.length) :
    ∃ data' acc' accBits', refill w data acc accBits = some (data', acc', accBits') ∧
      acc' + 2 ^ accBits' * leNat data' = acc + 2 ^ accBits * leNat data ∧
      accBits' + 8 * data'.length = accBits + 8 * data.length ∧
      acc' < 2 ^ accBits' ∧ w ≤ accBits' := by
  induction data generalizing acc accBits with
  | nil =>
    refine ⟨[], acc, accBits, ?_, rfl, rfl, hacc, by simpa using hfit⟩
    rw [refill, if_neg (by simpa using hfit)]
  | cons b bs ih =>
    rw [refill]
    split
    · have hb := b.toNat_lt
      have hpow : 2 ^ (accBits + 8) = 2 ^ accBits * 256 := by rw [pow_add]; rfl
      have hnew : acc ||| b.toNat <<< accBits < 2 ^ (accBits + 8) := by
        have hmul : 2 ^ accBits * (b.toNat + 1) ≤ 2 ^ accBits * 256 := Nat.mul_le_mul_left _ hb
        rw [or_shiftLeft hacc, hpow]
        rw [mul_add_one] at hmul
        omega
      rw [List.length_cons] at hfit
      obtain ⟨data', acc', accBits', heq, hval, hlen, hbound, hw⟩ := ih hnew (by omega)
      refine ⟨data', acc', accBits', heq, ?_, ?_, hbound, hw⟩
      · rw [hval, hpow, or_shiftLeft hacc, leNat]
        ring
      · rw [hlen, List.length_cons]
        omega
    · next hge => exact ⟨b :: bs, acc, accBits, rfl, rfl, rfl, hacc, by omega⟩

theorem unpackFrom_spec {w count : ℕ} {data : Bytes} {acc accBits : ℕ} (hacc : acc < 2 ^ accBits)
    (hfit : w * count ≤ accBits + 8 * data.length) :
    unpackFrom w count data acc accBits =
      some ((List.range count).map (digit w (acc + 2 ^ accBits * leNat data))) := by
  induction count generalizing data acc accBits with
  | zero => rfl
  | succ count ih =>
    rw [mul_add_one] at hfit
    obtain ⟨data', acc', accBits', hrefill, hval, hlen, hbound, hw⟩ :=
      refill_spec (w := w) data hacc (by omega)
    have hpow : 2 ^ accBits' = 2 ^ w * 2 ^ (accBits' - w) := by
      rw [← pow_add, Nat.add_sub_cancel' hw]
    have hshift : acc' >>> w < 2 ^ (accBits' - w) := by
      rw [Nat.shiftRight_eq_div_pow]
      exact Nat.div_lt_of_lt_mul (hpow ▸ hbound)
    have hfit' : w * count ≤ accBits' - w + 8 * data'.length := by omega
    have htail := ih hshift hfit'
    have hquot : (acc + 2 ^ accBits * leNat data) / 2 ^ w =
        acc' >>> w + 2 ^ (accBits' - w) * leNat data' := by
      rw [← hval, hpow, mul_assoc, Nat.add_mul_div_left _ _ (by positivity),
        Nat.shiftRight_eq_div_pow]
    have hhead : acc' % 2 ^ w = digit w (acc + 2 ^ accBits * leNat data) 0 := by
      rw [digit_zero, ← hval, hpow, mul_assoc, Nat.add_mul_mod_self_left]
    have hmap : (List.range count).map (digit w (acc' >>> w + 2 ^ (accBits' - w) * leNat data')) =
        (List.range count).map (fun i => digit w (acc + 2 ^ accBits * leNat data) (i + 1)) := by
      apply List.map_congr_left
      intro i _
      rw [digit_succ, hquot]
    simp only [unpackFrom, hrefill, Option.bind_eq_bind, Option.bind_some, htail, hmap, hhead]
    rw [List.range_succ_eq_map, List.map_cons, List.map_map]
    rfl

/-- Unpacking reads the digits, when the data holds them all. -/
theorem unpackBits_eq {w count : ℕ} {data : Bytes} (hfit : w * count ≤ 8 * data.length) :
    unpackBits data w count = some ((List.range count).map (digit w (leNat data))) := by
  rw [unpackBits, unpackFrom_spec (by simp) (by simpa using hfit)]
  simp

/-- What was packed is unpacked. -/
theorem unpackBits_packBits {w : ℕ} {vals : List ℕ} (hvals : ∀ v ∈ vals, v < 2 ^ w)
    (h8 : 8 ∣ w * vals.length) : unpackBits (packBits vals w) w vals.length = some vals := by
  obtain ⟨hlen, hval⟩ := packBits_spec hvals h8
  rw [unpackBits_eq hlen.ge, hval]
  congr 1
  apply List.ext_getElem
  · simp
  · intro i hi hi'
    rw [List.getElem_map, List.getElem_range]
    exact digit_ofDigits hvals hi'

/-- Data that is used up is what its values pack to. -/
theorem packBits_unpackBits {w count : ℕ} {data : Bytes} {vals : List ℕ}
    (hlen : 8 * data.length = w * count) (h : unpackBits data w count = some vals) :
    packBits vals w = data := by
  rw [unpackBits_eq hlen.ge] at h
  obtain rfl := Option.some.inj h
  have hcount : ((List.range count).map (digit w (leNat data))).length = count := by simp
  have hvals : ∀ v ∈ (List.range count).map (digit w (leNat data)), v < 2 ^ w := by
    intro v hv
    obtain ⟨i, -, rfl⟩ := List.mem_map.mp hv
    exact digit_lt w _ i
  obtain ⟨hbytes, hval⟩ := packBits_spec hvals (by rw [hcount]; exact ⟨_, hlen.symm⟩)
  rw [hcount] at hbytes
  refine leNat_inj (by omega) ?_
  rw [hval, ofDigits_digit, ← hlen, Nat.mod_eq_of_lt (leNat_lt_two_pow data)]

theorem length_unpackFrom {w count : ℕ} {data : Bytes} {acc accBits : ℕ} {vals : List ℕ}
    (h : unpackFrom w count data acc accBits = some vals) : vals.length = count := by
  induction count generalizing data acc accBits vals with
  | zero =>
    obtain rfl := Option.some.inj h
    rfl
  | succ count ih =>
    rw [unpackFrom] at h
    obtain ⟨s, -, h⟩ := Option.bind_eq_some_iff.mp h
    obtain ⟨rest, hrest, h⟩ := Option.bind_eq_some_iff.mp h
    obtain rfl := Option.some.inj h
    rw [List.length_cons, ih hrest]

theorem length_unpackBits {data : Bytes} {w count : ℕ} {vals : List ℕ}
    (h : unpackBits data w count = some vals) : vals.length = count := length_unpackFrom h

end Ciphra
