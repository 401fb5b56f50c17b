import Ciphra.Primitives.Keccak

/-!
# The sponge

What a sponge has absorbed is a number of whole blocks, which its state has gone through, and the
bytes of a block that is not full yet, which have been added to the state already. A full block is
permuted at once when it is absorbed; when output is squeezed the permutation waits until the next
byte is needed. Neither shows: the output is that of the sponge of FIPS 202 on the whole message
(`Keccak.sponge_exact`).
-/

namespace Ciphra

namespace Fips202

/-! ## Bits of bytes -/

theorem bitsOf_append (a b : Bytes) : bitsOf (a ++ b) = bitsOf a ++ bitsOf b := List.flatMap_append

theorem bitsOf_cons (x : UInt8) (b : Bytes) :
    bitsOf (x :: b) = (List.range 8).map x.toBitVec.getLsbD ++ bitsOf b := List.flatMap_cons

@[simp] theorem length_bitsOf (b : Bytes) : (bitsOf b).length = 8 * b.length := by
  induction b with
  | nil => rfl
  | cons x b ih =>
    rw [bitsOf_cons, List.length_append, ih, List.length_map, List.length_range, List.length_cons]
    omega

theorem getD_map_range {f : ℕ → Bool} {n k : ℕ} (hf : n ≤ k → f k = false) :
    ((List.range n).map f).getD k false = f k := by
  rcases Nat.lt_or_ge k n with hlt | hge
  · rw [List.getD_eq_getElem _ _ (by simpa using hlt), List.getElem_map, List.getElem_range]
  · rw [List.getD_eq_default _ _ (by simpa using hge), hf hge]

theorem getD_append_bits (a b : List Bool) (k : ℕ) : (a ++ b).getD k false =
    (a.getD k false ^^ (decide (a.length ≤ k) && b.getD (k - a.length) false)) := by
  rcases Nat.lt_or_ge k a.length with hlt | hge
  · rw [List.getD_append _ _ _ _ hlt, decide_eq_false (by omega), Bool.false_and, Bool.xor_false]
  · rw [List.getD_append_right _ _ _ _ hge, List.getD_eq_default _ _ hge, decide_eq_true hge,
      Bool.true_and, Bool.false_xor]

/-- The bits of tabulated bytes. -/
theorem bitsOf_map_range (f : ℕ → UInt8) (n : ℕ) : bitsOf ((List.range n).map f) =
    (List.range (8 * n)).map fun k => (f (k / 8)).toBitVec.getLsbD (k % 8) := by
  induction n with
  | zero => rfl
  | succ n ih =>
    have hlast : ∀ i ∈ List.range 8, (f ((8 * n + i) / 8)).toBitVec.getLsbD ((8 * n + i) % 8) =
        (f n).toBitVec.getLsbD i := by
      intro i hi
      have hlt := List.mem_range.mp hi
      rw [show (8 * n + i) / 8 = n by omega, show (8 * n + i) % 8 = i by omega]
    rw [List.range_succ, List.map_append, bitsOf_append, ih, Nat.mul_succ, List.range_add,
      List.map_append, List.map_map]
    refine congrArg _ ?_
    rw [List.map_singleton, bitsOf_cons]
    exact (List.append_nil _).trans (List.map_congr_left hlast).symm

/-! ## Padding -/

theorem length_pad (r m : ℕ) : (pad r m).length = 2 + (r - (m + 2) % r) % r := by
  simp only [pad, List.length_append, List.length_singleton, List.length_replicate]
  omega

end Fips202

namespace Keccak

open Fips202 (State bitsOf bitAt xorBlock)

/-! ## Bytes of the state -/

/-- The place of a bit in the bit string of a state. -/
def place (x y : Fin 5) (z : Fin 64) : ℕ := 64 * (5 * y.val + x.val) + z.val

/-- The shift that takes a byte to its place in a lane. -/
theorem toBitVec_byteShift (i : ℕ) :
    (UInt64.ofNat (8 * (i % 8))).toBitVec % 64 = BitVec.ofNat 64 (8 * (i % 8)) := by
  apply BitVec.eq_of_toNat_eq
  rw [BitVec.toNat_umod]
  change 8 * (i % 8) % 2 ^ 64 % 64 = _
  rw [BitVec.toNat_ofNat]
  omega

theorem toNat_byteShift (i : ℕ) : (BitVec.ofNat 64 (8 * (i % 8))).toNat = 8 * (i % 8) := by
  rw [BitVec.toNat_ofNat]
  omega

theorem toState_xorByte (a : Lanes) {i : ℕ} (hi : i < 200) (b : UInt8) (x y : Fin 5) (z : Fin 64) :
    toState (xorByte a i b) x y z = (toState a x y z ^^
      (decide (8 * i ≤ place x y z) && b.toBitVec.getLsbD (place x y z - 8 * i))) := by
  have hz := z.isLt
  have hx := x.isLt
  obtain ⟨j, hj⟩ : ∃ j : Fin 25, Fin.ofNat 25 (i / 8) = j := ⟨_, rfl⟩
  have hset : xorByte a i b =
      a.set j (a.get j ^^^ (b.toUInt64 <<< UInt64.ofNat (8 * (i % 8)))) j.isLt := by
    subst hj
    rfl
  rw [toState, hset]
  have hval : j.val = i / 8 := by
    rw [← hj]
    change i / 8 % 25 = i / 8
    omega
  by_cases hlane : j = lane x y
  · subst hlane
    have hindex : i / 8 = x.val + 5 * y.val := by
      change x.val + 5 * y.val = i / 8 at hval
      omega
    rw [get_set_self, UInt64.toBitVec_xor, BitVec.getLsbD_xor, UInt64.toBitVec_shiftLeft,
      toBitVec_byteShift, BitVec.shiftLeft_eq', toNat_byteShift, BitVec.getLsbD_shiftLeft,
      UInt8.toBitVec_toUInt64, BitVec.getLsbD_setWidth]
    refine congrArg _ ?_
    have hplace : place x y z = 8 * i - 8 * (i % 8) + z.val := by
      rw [place]
      omega
    by_cases hle : 8 * (i % 8) ≤ z.val
    · have hsub : place x y z - 8 * i = z.val - 8 * (i % 8) := by omega
      rw [hsub, decide_eq_true hz, decide_eq_false (by omega), decide_eq_true (by omega),
        decide_eq_true (by omega)]
      rfl
    · have hbefore : ¬ 8 * i ≤ place x y z := by omega
      have hlow : z.val < 8 * (i % 8) := by omega
      rw [decide_eq_true hz, decide_eq_true hlow, decide_eq_false hbefore]
      rfl
  · rw [get_set_of_ne _ _ hlane]
    have hindex : i / 8 ≠ x.val + 5 * y.val := by
      intro he
      apply hlane
      exact Fin.ext (hval.trans he)
    have hfalse : (decide (8 * i ≤ place x y z) && b.toBitVec.getLsbD (place x y z - 8 * i)) =
        false := by
      rw [Bool.and_eq_false_iff]
      by_cases hle : 8 * i ≤ place x y z
      · refine Or.inr (BitVec.getLsbD_of_ge _ _ ?_)
        rw [place] at hle ⊢
        omega
      · exact Or.inl (decide_eq_false hle)
    rw [hfalse, Bool.xor_false]
    rfl

/-- Bytes added to a state that has a block added to it already make that block longer. -/
theorem toState_xorBytes {a : Lanes} {A : State} {block : List Bool} {i : ℕ} (d : Bytes)
    (ha : toState a = xorBlock A block) (hlen : block.length = 8 * i) (hi : i + d.length ≤ 200) :
    toState (xorBytes a i d) = xorBlock A (block ++ bitsOf d) := by
  induction d generalizing a block i with
  | nil =>
    rw [show bitsOf [] = [] from rfl, List.append_nil]
    exact ha
  | cons b d ih =>
    rw [List.length_cons] at hi
    rw [Fips202.bitsOf_cons, ← List.append_assoc]
    refine ih ?_ ?_ (by omega)
    · funext x y z
      rw [toState_xorByte a (by omega), ha, xorBlock, xorBlock, Fips202.getD_append_bits, hlen,
        Fips202.getD_map_range (fun h => BitVec.getLsbD_of_ge _ _ h), Bool.xor_assoc]
      rfl
    · rw [List.length_append, hlen, List.length_map, List.length_range]
      omega

/-- The bits of a byte of the state. -/
theorem getLsbD_byte (a : Lanes) {i j : ℕ} (hi : i < 200) (hj : j < 8) :
    (byte a i).toBitVec.getLsbD j = bitAt (toState a) (8 * i + j) := by
  have hlane : Fin.ofNat 25 (i / 8) =
      lane (Fin.ofNat 5 ((8 * i + j) / 64)) (Fin.ofNat 5 ((8 * i + j) / 320)) := by
    apply Fin.ext
    change i / 8 % 25 = (8 * i + j) / 64 % 5 + 5 * ((8 * i + j) / 320 % 5)
    omega
  have hbit : (Fin.ofNat 64 (8 * i + j)).val = 8 * (i % 8) + j := by
    change (8 * i + j) % 64 = _
    omega
  rw [byte, UInt64.toBitVec_toUInt8, BitVec.getLsbD_setWidth, decide_eq_true hj, Bool.true_and,
    UInt64.toBitVec_shiftRight, toBitVec_byteShift, BitVec.ushiftRight_eq', toNat_byteShift,
    BitVec.getLsbD_ushiftRight, hlane, bitAt, toState, hbit]

/-! ## Absorbing -/

/-- The state after a block. -/
def step (A : State) (block : List Bool) : State := Fips202.keccakF (xorBlock A block)

/-- The state of zeros. -/
def zeroState : State := fun _ _ _ => false

theorem xorBlock_apply (A : State) (block : List Bool) (x y : Fin 5) (z : Fin 64) :
    xorBlock A block x y z = (A x y z ^^ block.getD (place x y z) false) := rfl

theorem xorBlock_nil (A : State) : xorBlock A [] = A := by
  funext x y z
  rw [xorBlock, List.getD_nil, Bool.xor_false]

variable {s : Keccak} {m : Bytes} {r : ℕ}

/-- The sponge has absorbed `m`. -/
structure Rep (r : ℕ) (s : Keccak) (m : Bytes) : Prop where
  absorbed : ∃ A buf, Absorbed (8 * r) step zeroState (bitsOf m) A (bitsOf buf) ∧
    toState s.state = xorBlock A (bitsOf buf) ∧ s.offset = buf.length
  offset : s.offset < r
  rate : s.rate = r
  bounds : 0 < r ∧ r < 200
  squeezing : s.squeezing = false

theorem rep_new (suffix : UInt8) (hr : 0 < r ∧ r < 200) : Rep r (new r suffix) [] where
  absorbed := by
    refine ⟨zeroState, [], Absorbed.nil _ _ _, ?_, rfl⟩
    funext x y z
    have hzero : (Vector.replicate 25 (0 : UInt64)).get (lane x y) = 0 :=
      Vector.getElem_replicate (lane x y).isLt
    rw [show bitsOf [] = [] from rfl, xorBlock_nil, toState]
    change ((Vector.replicate 25 (0 : UInt64)).get (lane x y)).toBitVec.getLsbD z = false
    rw [hzero]
    exact BitVec.getLsbD_zero
  offset := hr.1
  rate := rfl
  bounds := hr
  squeezing := rfl

theorem absorbLoop_full {fuel t : ℕ} {data : Bytes} (hne : data ≠ [])
    (ht : min (s.rate - s.offset) data.length = t) (hfull : s.offset + t = s.rate) :
    absorbLoop (fuel + 1) s data = absorbLoop fuel
      { s with state := keccakF (xorBytes s.state s.offset (data.take t)), offset := 0 }
      (data.drop t) := by
  rw [absorbLoop, if_neg hne, ht]
  simp only [if_pos hfull]

theorem absorbLoop_room {fuel t : ℕ} {data : Bytes} (hne : data ≠ [])
    (ht : min (s.rate - s.offset) data.length = t) (hroom : s.offset + t ≠ s.rate) :
    absorbLoop (fuel + 1) s data = absorbLoop fuel
      { s with state := xorBytes s.state s.offset (data.take t), offset := s.offset + t }
      (data.drop t) := by
  rw [absorbLoop, if_neg hne, ht]
  simp only [if_neg hroom]

theorem rep_absorbLoop (fuel : ℕ) {data : Bytes} (h : Rep r s m) (hfuel : data.length ≤ fuel) :
    Rep r (absorbLoop fuel s data) (m ++ data) ∧
      (absorbLoop fuel s data).suffix = s.suffix := by
  induction fuel generalizing s m data with
  | zero =>
    obtain rfl := List.eq_nil_of_length_eq_zero (Nat.le_zero.mp hfuel)
    rw [List.append_nil]
    exact ⟨h, rfl⟩
  | succ fuel ih =>
    by_cases hne : data = []
    · rw [hne, List.append_nil]
      exact ⟨h, rfl⟩
    have hpos : 0 < data.length := List.length_pos_of_ne_nil hne
    have hroom := h.offset
    have hrate := h.rate
    have hbounds := h.bounds
    obtain ⟨A, buf, habsorbed, hstate, hoffset⟩ := h.absorbed
    generalize ht : min (s.rate - s.offset) data.length = t
    have hlen : (data.take t).length = t := by
      rw [List.length_take]
      omega
    -- The bytes that fit go into the block that is not full yet.
    have hxor := toState_xorBytes (data.take t) hstate
      (i := s.offset) (by rw [Fips202.length_bitsOf, hoffset]) (by omega)
    have hpushed := habsorbed.push (bitsOf (data.take t))
    rw [← Fips202.bitsOf_append] at hxor hpushed
    rw [← Fips202.bitsOf_append] at hpushed
    have hbuf : (buf ++ data.take t).length = s.offset + t := by
      rw [List.length_append, hlen, hoffset]
    have hrest : (data.drop t).length ≤ fuel := by
      rw [List.length_drop]
      omega
    have hsplit : m ++ data = m ++ data.take t ++ data.drop t := by
      rw [List.append_assoc, List.take_append_drop]
    rw [hsplit]
    by_cases hfull : s.offset + t = s.rate
    · rw [absorbLoop_full hne ht hfull]
      have hflushed := hpushed.flush_full (by omega) (by rw [Fips202.length_bitsOf, hbuf, hfull, hrate])
      refine ih ?_ hrest
      refine ⟨⟨_, [], hflushed, ?_, rfl⟩, hbounds.1, hrate, hbounds, h.squeezing⟩
      rw [show bitsOf [] = [] from rfl, xorBlock_nil, toState_keccakF, hxor]
      rfl
    · rw [absorbLoop_room hne ht hfull]
      refine ih ?_ hrest
      exact ⟨⟨A, _, hpushed, hxor, hbuf.symm⟩, show s.offset + t < r by omega, hrate, hbounds,
        h.squeezing⟩

/-- The pieces of a message, absorbed one after the other. -/
theorem rep_absorbs (chunks : List Bytes) (h : Rep r s m) :
    ∃ s', chunks.foldlM absorb s = some s' ∧ Rep r s' (m ++ chunks.flatten) ∧
      s'.suffix = s.suffix := by
  induction chunks generalizing s m with
  | nil =>
    refine ⟨s, rfl, ?_, rfl⟩
    rwa [List.flatten_nil, List.append_nil]
  | cons d chunks ih =>
    obtain ⟨hrep, hsuffix⟩ := rep_absorbLoop d.length h le_rfl
    obtain ⟨s', hrun, hrep', hsuffix'⟩ := ih hrep
    have habsorb : absorb s d = some (absorbLoop d.length s d) := by
      rw [absorb, h.squeezing]
      rfl
    refine ⟨s', ?_, ?_, hsuffix'.trans hsuffix⟩
    · rw [List.foldlM_cons, habsorb]
      exact hrun
    · rwa [List.flatten_cons, ← List.append_assoc]

/-! ## Padding -/

/-- The bits of the suffix are the domain bits and the first bit of the padding. -/
def Suffix (suffix : UInt8) (domain : List Bool) : Prop :=
  domain.length ≤ 4 ∧ ∀ k < 8, suffix.toBitVec.getLsbD k = (domain ++ [true]).getD k false

theorem Suffix.getLsbD {suffix : UInt8} {domain : List Bool} (h : Suffix suffix domain) (k : ℕ) :
    suffix.toBitVec.getLsbD k = (domain ++ [true]).getD k false := by
  rcases Nat.lt_or_ge k 8 with hlt | hge
  · exact h.2 k hlt
  · have hlen := h.1
    rw [BitVec.getLsbD_of_ge _ _ hge, List.getD_eq_default]
    rw [List.length_append, List.length_singleton]
    omega

/-- The last bit of a byte. -/
theorem getLsbD_lastBit (k : ℕ) : (0x80 : UInt8).toBitVec.getLsbD k = decide (k = 7) := by
  rcases Nat.lt_or_ge k 8 with hlt | hge
  · revert k
    decide
  · rw [BitVec.getLsbD_of_ge _ _ hge, decide_eq_false (by omega)]

theorem getD_replicate_append (j k : ℕ) :
    (List.replicate j false ++ [true]).getD k false = decide (k = j) := by
  rcases Nat.lt_trichotomy k j with hlt | rfl | hgt
  · rw [List.getD_append _ _ _ _ (by simpa using hlt), List.getD_replicate _ hlt,
      decide_eq_false (by omega)]
  · rw [List.getD_append_right _ _ _ _ (by simp), List.length_replicate, Nat.sub_self,
      decide_eq_true rfl]
    rfl
  · rw [List.getD_eq_default _ _ (by simp; omega), decide_eq_false (by omega)]

/-- The last block: suffix and final bit are the domain bits and the padding. -/
theorem toState_padded {A : State} {buf : List Bool} {suffix : UInt8} {domain : List Bool}
    (hsuffix : Suffix suffix domain) {o j : ℕ} (ho : o < r) (hr : r < 200)
    (hj : 8 * o + domain.length + 2 + j = 8 * r) {a : Lanes} (ha : toState a = xorBlock A buf)
    (hbuf : buf.length = 8 * o) :
    toState (xorByte (xorByte a o suffix) (r - 1) 0x80) =
      xorBlock A (buf ++ (domain ++ ([true] ++ List.replicate j false ++ [true]))) := by
  funext x y z
  have htail : domain ++ ([true] ++ List.replicate j false ++ [true]) =
      (domain ++ [true]) ++ (List.replicate j false ++ [true]) := by
    simp only [List.append_assoc]
  have hlen : (domain ++ [true]).length = domain.length + 1 := by
    rw [List.length_append, List.length_singleton]
  rw [toState_xorByte _ (by omega), toState_xorByte _ (by omega), ha, xorBlock_apply, xorBlock_apply,
    Fips202.getD_append_bits, hbuf, htail, Fips202.getD_append_bits, hsuffix.getLsbD, hlen,
    getD_replicate_append, getLsbD_lastBit]
  generalize place x y z = k
  by_cases hle : 8 * o ≤ k
  · have hlast : (decide (8 * (r - 1) ≤ k) && decide (k - 8 * (r - 1) = 7)) =
        (decide (domain.length + 1 ≤ k - 8 * o) &&
          decide (k - 8 * o - (domain.length + 1) = j)) := by
      rw [← Bool.decide_and, ← Bool.decide_and]
      apply decide_eq_decide.mpr
      have hdomain := hsuffix.1
      omega
    rw [hlast, decide_eq_true hle, Bool.true_and, Bool.true_and]
    simp only [Bool.xor_assoc]
  · rw [decide_eq_false hle, decide_eq_false (by omega : ¬ 8 * (r - 1) ≤ k)]
    simp only [Bool.false_and, Bool.xor_false]

/-- After padding, the state is that of the standard. -/
theorem toState_padAndSwitch (h : Rep r s m) {domain : List Bool} (hsuffix : Suffix s.suffix domain) :
    toState s.padAndSwitch.state = Fips202.absorbed (8 * r)
      (bitsOf m ++ domain ++ Fips202.pad (8 * r) (bitsOf m ++ domain).length) := by
  obtain ⟨A, buf, habsorbed, hstate, hoffset⟩ := h.absorbed
  have hroom := h.offset
  have hbounds := h.bounds
  have hdomain := hsuffix.1
  obtain ⟨k, hk⟩ := habsorbed.length_modEq
  rw [Fips202.length_bitsOf, Fips202.length_bitsOf, ← hoffset] at hk
  have hmod : ((bitsOf m ++ domain).length + 2) % (8 * r) = 8 * s.offset + domain.length + 2 := by
    have hsum : (bitsOf m ++ domain).length + 2 =
        8 * r * k + (8 * s.offset + domain.length + 2) := by
      rw [List.length_append, Fips202.length_bitsOf, hk]
      omega
    rw [hsum, Nat.mul_add_mod, Nat.mod_eq_of_lt (by omega)]
  have hzeros : (8 * r - ((bitsOf m ++ domain).length + 2) % (8 * r)) % (8 * r) =
      8 * r - (8 * s.offset + domain.length + 2) := by
    rw [hmod, Nat.mod_eq_of_lt (by omega)]
  have hpushed := habsorbed.push
    (domain ++ Fips202.pad (8 * r) (bitsOf m ++ domain).length)
  have hlast := toState_padded hsuffix (o := s.offset) (r := r) hroom hbounds.2
    (j := 8 * r - (8 * s.offset + domain.length + 2)) (by omega) hstate
    (by rw [Fips202.length_bitsOf, hoffset])
  have hpad : Fips202.pad (8 * r) (bitsOf m ++ domain).length =
      [true] ++ List.replicate (8 * r - (8 * s.offset + domain.length + 2)) false ++ [true] := by
    rw [Fips202.pad, hzeros]
  have hlen : (bitsOf buf ++ (domain ++ Fips202.pad (8 * r)
      (bitsOf m ++ domain).length)).length = 8 * r := by
    rw [List.length_append, List.length_append, Fips202.length_pad, hzeros, Fips202.length_bitsOf,
      ← hoffset]
    omega
  have hchain := (hpushed.flush_full (by omega) hlen).chain_eq (by omega)
    (by rw [List.length_nil]; omega)
  rw [← List.append_assoc (bitsOf m)] at hchain
  rw [padAndSwitch]
  change toState (keccakF (xorByte (xorByte s.state s.offset s.suffix) (s.rate - 1) 0x80)) = _
  rw [h.rate, toState_keccakF, hlast, ← hpad]
  exact hchain

/-! ## Squeezing -/

/-- The byte of the output that stands at a place, if squeezing starts from the given lanes. -/
def outByte (r : ℕ) (a : Lanes) (i : ℕ) : UInt8 := byte (keccakF^[i / r] a) (i % r)

/-- The sponge has been squeezed for `p` bytes. -/
structure Squeezed (r : ℕ) (a : Lanes) (s : Keccak) (p : ℕ) : Prop where
  state : ∃ q, s.state = keccakF^[q] a ∧ p = r * q + s.offset
  offset : s.offset ≤ r
  rate : s.rate = r
  bounds : 0 < r
  squeezing : s.squeezing = true

theorem squeezed_ready {a : Lanes} {p : ℕ} (h : Squeezed r a s p) :
    Squeezed r a s.ready p ∧ s.ready.offset < r := by
  obtain ⟨q, hstate, hp⟩ := h.state
  have hoffset := h.offset
  have hrate := h.rate
  have hpos := h.bounds
  rw [ready]
  by_cases hfull : s.offset = s.rate
  · rw [if_pos hfull]
    refine ⟨⟨⟨q + 1, ?_, ?_⟩, Nat.zero_le r, hrate, hpos, h.squeezing⟩, hpos⟩
    · rw [Function.iterate_succ_apply', ← hstate]
    · rw [hp, hfull, hrate, Nat.mul_succ, Nat.add_zero]
  · rw [if_neg hfull]
    exact ⟨h, by omega⟩

theorem squeezeLoop_of_lt {fuel len t : ℕ} {out : Bytes} (hlt : out.length < len)
    (ht : min (s.ready.rate - s.ready.offset) (len - out.length) = t) :
    squeezeLoop (fuel + 1) s len out = squeezeLoop fuel
      { s.ready with offset := s.ready.offset + t } len
      (out ++ (List.range t).map fun i => byte s.ready.state (s.ready.offset + i)) := by
  subst ht
  rw [squeezeLoop, if_pos hlt]

theorem squeezed_squeezeLoop (fuel : ℕ) {a : Lanes} {p len : ℕ} (out : Bytes)
    (h : Squeezed r a s (p + out.length)) (hle : out.length ≤ len)
    (hfuel : len ≤ out.length + fuel) (hout : out = (List.range out.length).map fun i =>
      outByte r a (p + i)) :
    Squeezed r a (squeezeLoop fuel s len out).1 (p + len) ∧
      (squeezeLoop fuel s len out).2 = (List.range len).map fun i => outByte r a (p + i) := by
  induction fuel generalizing s out with
  | zero =>
    have hlen : out.length = len := by omega
    rw [squeezeLoop, ← hlen]
    exact ⟨h, hout⟩
  | succ fuel ih =>
    by_cases hmore : out.length < len
    · obtain ⟨hsqueezed, hroom⟩ := squeezed_ready h
      generalize ht : min (s.ready.rate - s.ready.offset) (len - out.length) = t
      rw [squeezeLoop_of_lt hmore ht]
      obtain ⟨q, hstate, hp⟩ := hsqueezed.state
      have hrate := hsqueezed.rate
      have hwritten : ((List.range t).map fun i => byte s.ready.state (s.ready.offset + i)) =
          (List.range t).map fun i => outByte r a (p + (out.length + i)) := by
        refine List.map_congr_left fun i hi => ?_
        have hi := List.mem_range.mp hi
        have hplace : p + (out.length + i) = r * q + (s.ready.offset + i) := by omega
        rw [outByte, hplace, Nat.mul_add_div hsqueezed.bounds, Nat.mul_add_mod,
          Nat.div_eq_of_lt (by omega), Nat.mod_eq_of_lt (by omega), Nat.add_zero, hstate]
      have hlen : (out ++ (List.range t).map fun i =>
          byte s.ready.state (s.ready.offset + i)).length = out.length + t := by
        rw [List.length_append, List.length_map, List.length_range]
      refine ih _ ?_ (by omega) (by omega) ?_
      · rw [hlen]
        exact ⟨⟨q, hstate, show p + (out.length + t) = r * q + (s.ready.offset + t) by omega⟩,
          show s.ready.offset + t ≤ r by omega, hrate, hsqueezed.bounds, hsqueezed.squeezing⟩
      · rw [hlen, List.range_add, List.map_append, List.map_map, ← hout, hwritten]
        rfl
    · have hlen : out.length = len := by omega
      rw [squeezeLoop, if_neg hmore, ← hlen]
      exact ⟨h, hout⟩

/-- The outputs of several squeezes are consecutive parts of one. -/
theorem flatten_squeezeAll {a : Lanes} {p : ℕ} (lens : List ℕ) (h : Squeezed r a s p) :
    (squeezeAll s lens).flatten = (List.range lens.sum).map fun i => outByte r a (p + i) := by
  induction lens generalizing s p with
  | nil => rfl
  | cons len lens ih =>
    obtain ⟨hnext, hout⟩ := squeezed_squeezeLoop len [] h (Nat.zero_le len) (by simp) rfl
    have hsqueeze : s.squeeze len = squeezeLoop len s len [] := by
      rw [squeeze, if_pos h.squeezing]
    rw [squeezeAll, List.flatten_cons, hsqueeze, hout, ih hnext, List.sum_cons, List.range_add,
      List.map_append, List.map_map]
    refine congrArg _ (List.map_congr_left fun i _ => ?_)
    rw [Function.comp_apply, Nat.add_assoc]

/-- The first squeeze pads; after that it does not matter whether padding was a step of its own. -/
theorem squeezeAll_padAndSwitch (h : s.squeezing = false) (len : ℕ) (lens : List ℕ) :
    squeezeAll s (len :: lens) = squeezeAll s.padAndSwitch (len :: lens) := by
  have hsame : s.squeeze len = s.padAndSwitch.squeeze len := by
    have hpadded : s.padAndSwitch.squeezing = true := rfl
    rw [squeeze, squeeze, if_pos hpadded, h, if_neg Bool.false_ne_true]
  rw [squeezeAll, squeezeAll, hsame]

theorem toState_iterate (n : ℕ) (a : Lanes) :
    toState (keccakF^[n] a) = Fips202.keccakF^[n] (toState a) := by
  induction n generalizing a with
  | zero => rfl
  | succ n ih => rw [Function.iterate_succ_apply, ih, toState_keccakF, Function.iterate_succ_apply]

/-- The bits of the output. -/
theorem bitsOf_outBytes (hr : 0 < r) (hr' : r < 200) (a : Lanes) (n : ℕ) :
    bitsOf ((List.range n).map fun i => outByte r a (0 + i)) =
      (List.range (8 * n)).map fun k =>
        bitAt (Fips202.keccakF^[k / (8 * r)] (toState a)) (k % (8 * r)) := by
  rw [Fips202.bitsOf_map_range]
  refine List.map_congr_left fun k _ => ?_
  have hmod := Nat.mod_lt (k / 8) hr
  rw [outByte, Nat.zero_add, getLsbD_byte _ (by omega) (Nat.mod_lt k (by decide)),
    toState_iterate, Nat.div_div_eq_div_mul, Nat.mod_mul, Nat.add_comm (8 * _)]

end Keccak

/-! ## The functions of the standard -/

namespace Fips202

/-- The functions that are used. -/
inductive Hash
  | sha3_256
  | sha3_512
  | shake128
  | shake256
  deriving DecidableEq, Repr

namespace Hash

/-- The sponge of the program. -/
def keccak : Hash → Keccak
  | sha3_256 => Keccak.sha3_256
  | sha3_512 => Keccak.sha3_512
  | shake128 => Keccak.shake128
  | shake256 => Keccak.shake256

/-- The capacity in bits: twice the length of the digest, or twice the security strength. -/
def capacity : Hash → ℕ
  | sha3_256 => 512
  | sha3_512 => 1024
  | shake128 => 256
  | shake256 => 512

/-- The bits that separate the digests from the extendable-output functions. -/
def domain : Hash → List Bool
  | sha3_256 | sha3_512 => [false, true]
  | shake128 | shake256 => [true, true, true, true]

/-- The first `d` bits of the function on a message. -/
def output (H : Hash) (m : Bytes) (d : ℕ) : List Bool :=
  sponge (1600 - H.capacity) (bitsOf m ++ H.domain) d

end Hash

end Fips202

namespace Keccak

/-- **The sponge is that of the standard**, in whatever pieces the message comes and the output is
squeezed. Padding is applied where the offset is below the rate. -/
theorem sponge_exact (H : Fips202.Hash) (chunks : List Bytes) (lens : List ℕ) :
    ∃ s, chunks.foldlM absorb H.keccak = some s ∧ s.squeezing = false ∧ s.offset < s.rate ∧
      Fips202.bitsOf (squeezeAll s lens).flatten = H.output chunks.flatten (8 * lens.sum) := by
  have hstart : ∃ r, Rep r H.keccak [] ∧ 8 * r = 1600 - H.capacity ∧
      Suffix H.keccak.suffix H.domain := by
    cases H with
    | sha3_256 => exact ⟨136, rep_new _ (by decide), rfl, by decide, by decide⟩
    | sha3_512 => exact ⟨72, rep_new _ (by decide), rfl, by decide, by decide⟩
    | shake128 => exact ⟨168, rep_new _ (by decide), rfl, by decide, by decide⟩
    | shake256 => exact ⟨136, rep_new _ (by decide), rfl, by decide, by decide⟩
  obtain ⟨r, hnew, hr, hsuffix⟩ := hstart
  obtain ⟨s, hrun, hrep, hsame⟩ := rep_absorbs chunks hnew
  rw [List.nil_append] at hrep
  refine ⟨s, hrun, hrep.squeezing, ?_, ?_⟩
  · rw [hrep.rate]
    exact hrep.offset
  cases lens with
  | nil => rfl
  | cons len lens =>
    rw [← hsame] at hsuffix
    have hpadded := toState_padAndSwitch hrep hsuffix
    have hsqueezed : Squeezed r s.padAndSwitch.state s.padAndSwitch 0 :=
      ⟨⟨0, rfl, rfl⟩, Nat.zero_le r, hrep.rate, hrep.bounds.1, rfl⟩
    rw [squeezeAll_padAndSwitch hrep.squeezing, flatten_squeezeAll _ hsqueezed,
      bitsOf_outBytes hrep.bounds.1 hrep.bounds.2, hpadded, Fips202.Hash.output, Fips202.sponge,
      ← hr]

end Keccak

end Ciphra
