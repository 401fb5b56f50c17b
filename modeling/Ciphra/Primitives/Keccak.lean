import Ciphra.Foundations.Arrays
import Ciphra.Foundations.Blocks
import Mathlib.Data.Fin.VecNotation
import Mathlib.Data.List.GetD
import Mathlib.Logic.Function.Iterate

/-!
# Keccak

The permutation on 25 lanes of 64 bits and the sponge on it, and next to them the functions of
FIPS 202: the five step mappings on the bits of a state array, the constants as the standard
computes them, and the sponge construction on bit strings. The permutation on lanes is that of the
standard bit by bit (`Keccak.toState_keccakF`).
-/

namespace Ciphra

namespace Keccak

/-! ## The program -/

def RC : List UInt64 :=
  [0x0000000000000001, 0x0000000000008082, 0x800000000000808a, 0x8000000080008000,
   0x000000000000808b, 0x0000000080000001, 0x8000000080008081, 0x8000000000008009,
   0x000000000000008a, 0x0000000000000088, 0x0000000080008009, 0x000000008000000a,
   0x000000008000808b, 0x800000000000008b, 0x8000000000008089, 0x8000000000008003,
   0x8000000000008002, 0x8000000000000080, 0x000000000000800a, 0x800000008000000a,
   0x8000000080008081, 0x8000000000008080, 0x0000000080000001, 0x8000000080008008]

/-- Rotation offsets, indexed as `RHO[x + 5*y]`. -/
def RHO : List ℕ :=
  [0, 1, 62, 28, 27,
   36, 44, 6, 55, 20,
   3, 10, 43, 25, 39,
   41, 45, 15, 21, 8,
   18, 2, 61, 56, 14]

abbrev Lanes := Vector UInt64 25

def rotateLeft (x : UInt64) (n : ℕ) : UInt64 := ⟨x.toBitVec.rotateLeft n⟩

theorem lane_lt (x y : Fin 5) : x.val + 5 * y.val < 25 := by
  omega

/-- The index of the lane `(x, y)`. -/
def lane (x y : Fin 5) : Fin 25 := ⟨x.val + 5 * y.val, lane_lt x y⟩

/-- The coordinates of a lane. -/
def laneX (i : Fin 25) : Fin 5 := Fin.ofNat 5 i.val

def laneY (i : Fin 25) : Fin 5 := Fin.ofNat 5 (i.val / 5)

def theta (a : Lanes) : Lanes :=
  let c : Vector UInt64 5 := Vector.ofFn fun x =>
    a.get (lane x 0) ^^^ a.get (lane x 1) ^^^ a.get (lane x 2) ^^^ a.get (lane x 3) ^^^
      a.get (lane x 4)
  let d : Vector UInt64 5 := Vector.ofFn fun x => c.get (x + 4) ^^^ rotateLeft (c.get (x + 1)) 1
  Vector.ofFn fun i => a.get i ^^^ d.get (laneX i)

/-- All lanes, in the order of the loops. -/
def coordinates : List (Fin 5 × Fin 5) :=
  (List.finRange 5).flatMap fun x => (List.finRange 5).map fun y => (x, y)

/-- Where the lane of the given coordinates goes. -/
def moved (p : Fin 5 × Fin 5) : Fin 25 := lane p.2 (2 * p.1 + 3 * p.2)

def rotated (a : Lanes) (p : Fin 5 × Fin 5) : UInt64 :=
  rotateLeft (a.get (lane p.1 p.2)) (RHO.getD (lane p.1 p.2) 0)

/-- The steps ρ and π: `B[y, 2x + 3y] = rot(A[x, y], r[x, y])`. -/
def rhoPi (a : Lanes) : Lanes :=
  coordinates.foldl (fun b p => b.set (moved p) (rotated a p) (moved p).isLt)
    (Vector.replicate 25 0)

def chi (b : Lanes) : Lanes :=
  Vector.ofFn fun i => b.get i ^^^
    (~~~b.get (lane (laneX i + 1) (laneY i)) &&& b.get (lane (laneX i + 2) (laneY i)))

def iota (a : Lanes) (rc : UInt64) : Lanes := a.set 0 (a.get 0 ^^^ rc)

@[irreducible] def keccakF (state : Lanes) : Lanes :=
  RC.foldl (fun a rc => iota (chi (rhoPi (theta a))) rc) state

end Keccak

/-- A Keccak sponge parameterized by rate (bytes) and domain-separation suffix. -/
structure Keccak where
  state : Keccak.Lanes
  rate : ℕ
  suffix : UInt8
  offset : ℕ
  squeezing : Bool

namespace Keccak

def new (rate : ℕ) (suffix : UInt8) : Keccak := ⟨Vector.replicate 25 0, rate, suffix, 0, false⟩

def sha3_256 : Keccak := new 136 0x06

def sha3_512 : Keccak := new 72 0x06

def shake128 : Keccak := new 168 0x1f

def shake256 : Keccak := new 136 0x1f

def xorByte (state : Lanes) (index : ℕ) (byte : UInt8) : Lanes :=
  let lane := Fin.ofNat 25 (index / 8)
  state.set lane (state.get lane ^^^ (byte.toUInt64 <<< UInt64.ofNat (8 * (index % 8)))) lane.isLt

def byte (state : Lanes) (index : ℕ) : UInt8 :=
  (state.get (Fin.ofNat 25 (index / 8)) >>> UInt64.ofNat (8 * (index % 8))).toUInt8

/-- Bytes that go into the state one after the other, from `index` on. -/
def xorBytes : Lanes → ℕ → Bytes → Lanes
  | state, _, [] => state
  | state, index, b :: rest => xorBytes (xorByte state index b) (index + 1) rest

/-- The loop of `absorb`; every round takes some of the data, so its length is fuel enough. -/
def absorbLoop : ℕ → Keccak → Bytes → Keccak
  | 0, s, _ => s
  | fuel + 1, s, data =>
    if data = [] then s
    else
      let take := min (s.rate - s.offset) data.length
      let state := xorBytes s.state s.offset (data.take take)
      let offset := s.offset + take
      absorbLoop fuel
        (if offset = s.rate then { s with state := keccakF state, offset := 0 }
          else { s with state, offset })
        (data.drop take)

/-- Absorbing after squeezing is a panic. -/
def absorb (s : Keccak) (data : Bytes) : Option Keccak :=
  if s.squeezing then none else some (absorbLoop data.length s data)

def padAndSwitch (s : Keccak) : Keccak :=
  { s with
    state := keccakF (xorByte (xorByte s.state s.offset s.suffix) (s.rate - 1) 0x80)
    offset := 0
    squeezing := true }

/-- The permutation that has waited until a byte after it is needed. -/
def ready (s : Keccak) : Keccak :=
  if s.offset = s.rate then { s with state := keccakF s.state, offset := 0 } else s

/-- The loop of `squeeze`; every round writes some of the output, so its length is fuel enough. -/
def squeezeLoop : ℕ → Keccak → ℕ → Bytes → Keccak × Bytes
  | 0, s, _, out => (s, out)
  | fuel + 1, s, len, out =>
    if out.length < len then
      let s := s.ready
      let take := min (s.rate - s.offset) (len - out.length)
      squeezeLoop fuel { s with offset := s.offset + take } len
        (out ++ (List.range take).map fun i => byte s.state (s.offset + i))
    else (s, out)

/-- The next `len` bytes of output. -/
def squeeze (s : Keccak) (len : ℕ) : Keccak × Bytes :=
  squeezeLoop len (if s.squeezing then s else s.padAndSwitch) len []

/-- Several squeezes, and their outputs. -/
def squeezeAll : Keccak → List ℕ → List Bytes
  | _, [] => []
  | s, len :: lens => (s.squeeze len).2 :: squeezeAll (s.squeeze len).1 lens

end Keccak

/-! ## The standard -/

namespace Fips202

/-- A state array: the bit `A[x, y, z]`. -/
abbrev State := Fin 5 → Fin 5 → Fin 64 → Bool

def theta (A : State) : State :=
  let C := fun x z => A x 0 z ^^ A x 1 z ^^ A x 2 z ^^ A x 3 z ^^ A x 4 z
  fun x y z => A x y z ^^ (C (x - 1) z ^^ C (x + 1) (z - 1))

/-- The lane that step `t` of the mapping ρ rotates. -/
def walk : ℕ → Fin 5 × Fin 5
  | 0 => (1, 0)
  | t + 1 => ((walk t).2, 2 * (walk t).1 + 3 * (walk t).2)

/-- The offset of a lane: `(t + 1)(t + 2) / 2` for the step that comes to it, none for `(0, 0)`. -/
def offset (x y : Fin 5) : ℕ :=
  (((List.range 24).find? fun t => walk t = (x, y)).map fun t => (t + 1) * (t + 2) / 2).getD 0

def rho (A : State) : State := fun x y z => A x y (z - Fin.ofNat 64 (offset x y))

def pi (A : State) : State := fun x y z => A (x + 3 * y) x z

def chi (A : State) : State := fun x y z => A x y z ^^ (!A (x + 1) y z && A (x + 2) y z)

/-- One step of the linear feedback register of the round constants. -/
def shiftRegister (R : List Bool) : List Bool :=
  let R := false :: R
  let last := R.getD 8 false
  ((List.range 8).map fun i => R.getD i false ^^ (last && (i = 0 ∨ i = 4 ∨ i = 5 ∨ i = 6)))

/-- The bit `rc(t)`. -/
def rc (t : ℕ) : Bool :=
  (shiftRegister^[t % 255] [true, false, false, false, false, false, false, false]).getD 0 false

/-- The bit `z` of the constant of a round: at `2 ^ j - 1` stands `rc(j + 7 * ir)`. -/
def roundConstant (ir : ℕ) (z : Fin 64) : Bool :=
  ((List.range 7).find? fun j => 2 ^ j - 1 = z.val).elim false fun j => rc (j + 7 * ir)

def iota (A : State) (ir : ℕ) : State := fun x y z =>
  A x y z ^^ (x = 0 && y = 0 && roundConstant ir z)

/-- The permutation Keccak-f on 1600 bits. -/
@[irreducible] def keccakF (A : State) : State :=
  (List.range 24).foldl (fun A ir => iota (chi (pi (rho (theta A)))) ir) A

/-- The bit of a state that stands at a place of its bit string. -/
def bitAt (A : State) (k : ℕ) : Bool :=
  A (Fin.ofNat 5 (k / 64)) (Fin.ofNat 5 (k / 320)) (Fin.ofNat 64 k)

/-- The state with a block, and zeros after it, added to its bit string. -/
def xorBlock (A : State) (block : List Bool) : State := fun x y z =>
  A x y z ^^ block.getD (64 * (5 * y.val + x.val) + z.val) false

/-- The padding `pad10*1`, up to a multiple of `r` bits for a string of `m` bits. -/
def pad (r m : ℕ) : List Bool :=
  [true] ++ List.replicate ((r - (m + 2) % r) % r) false ++ [true]

/-- The state after absorbing a padded string in blocks of `r` bits. -/
def absorbed (r : ℕ) (P : List Bool) : State :=
  chainBlocks r (fun A block => keccakF (xorBlock A block)) (fun _ _ _ => false) P

/-- The sponge on the message bits `N`, with the rate `r`: the first `d` bits of output. -/
def sponge (r : ℕ) (N : List Bool) (d : ℕ) : List Bool :=
  let A := absorbed r (N ++ pad r N.length)
  (List.range d).map fun i => bitAt (keccakF^[i / r] A) (i % r)

/-- The bits of a byte string, least significant bit of each byte first. -/
def bitsOf (b : Bytes) : List Bool := b.flatMap fun x => (List.range 8).map x.toBitVec.getLsbD

end Fips202

/-! ## The permutation -/

namespace Keccak

open Fips202 (State)

/-- The bits of the lanes. -/
def toState (a : Lanes) : State := fun x y z => (a.get (lane x y)).toBitVec.getLsbD z

theorem laneX_lane (x y : Fin 5) : laneX (lane x y) = x := by
  apply Fin.ext
  change (x.val + 5 * y.val) % 5 = x.val
  omega

theorem laneY_lane (x y : Fin 5) : laneY (lane x y) = y := by
  apply Fin.ext
  change (x.val + 5 * y.val) / 5 % 5 = y.val
  omega

theorem lane_injective {x y x' y' : Fin 5} (h : lane x y = lane x' y') : x = x' ∧ y = y' := by
  constructor
  · rw [← laneX_lane x y, h, laneX_lane]
  · rw [← laneY_lane x y, h, laneY_lane]

theorem getLsbD_rotateLeft (x : UInt64) {n : ℕ} (hn : n < 64) (z : Fin 64) :
    (rotateLeft x n).toBitVec.getLsbD z = x.toBitVec.getLsbD (z - Fin.ofNat 64 n : Fin 64) := by
  change (x.toBitVec.rotateLeft n).getLsbD z = _
  have hz := z.isLt
  have hsub : (z - Fin.ofNat 64 n : Fin 64).val = (64 - n + z.val) % 64 := by
    rw [Fin.sub_def]
    change (64 - n % 64 + z.val) % 64 = _
    rw [Nat.mod_eq_of_lt hn]
  rw [BitVec.getLsbD_rotateLeft_of_le hn, hsub]
  by_cases hlt : z.val < n
  · have hmod : (64 - n + z.val) % 64 = 64 - n + z.val := Nat.mod_eq_of_lt (by omega)
    rw [decide_eq_true hlt, cond_true, hmod]
  · have hmod : (64 - n + z.val) % 64 = z.val - n := by omega
    rw [decide_eq_false hlt, cond_false, hmod, decide_eq_true hz, Bool.true_and]

theorem toState_theta (a : Lanes) : toState (theta a) = Fips202.theta (toState a) := by
  funext x y z
  have hsub : x + 4 = x - 1 := by
    revert x
    decide
  simp only [toState, theta, Fips202.theta, get_ofFn, laneX_lane, UInt64.toBitVec_xor,
    BitVec.getLsbD_xor, getLsbD_rotateLeft _ (by decide : 1 < 64), hsub]
  rfl

/-- The offsets of the table are those of the standard, modulo the length of a lane. -/
theorem RHO_eq_offset : ∀ x y : Fin 5,
    RHO.getD (lane x y) 0 < 64 ∧ RHO.getD (lane x y) 0 = Fips202.offset x y % 64 := by
  decide

theorem moved_injective : Function.Injective moved := by
  rintro ⟨x, y⟩ ⟨x', y'⟩ h
  obtain ⟨hy, hsum⟩ := lane_injective h
  have hx : ∀ y x x' : Fin 5, 2 * x + 3 * y = 2 * x' + 3 * y → x = x' := by decide
  obtain rfl : y = y' := hy
  rw [hx y x x' hsum]

theorem mem_coordinates (p : Fin 5 × Fin 5) : p ∈ coordinates := by
  refine List.mem_flatMap.mpr ⟨p.1, List.mem_finRange p.1, ?_⟩
  exact List.mem_map.mpr ⟨p.2, List.mem_finRange p.2, rfl⟩

theorem get_rhoPi (a : Lanes) (x y : Fin 5) :
    (rhoPi a).get (lane x y) = rotated a (x + 3 * y, x) := by
  have htarget : ∀ x y : Fin 5, lane x y = moved (x + 3 * y, x) := by decide
  rw [htarget x y]
  exact get_foldl_set moved_injective _ (mem_coordinates _)

theorem toState_rhoPi (a : Lanes) :
    toState (rhoPi a) = Fips202.pi (Fips202.rho (toState a)) := by
  funext x y z
  obtain ⟨hlt, hoffset⟩ := RHO_eq_offset (x + 3 * y) x
  have hmod : Fin.ofNat 64 (RHO.getD (lane (x + 3 * y) x) 0) =
      Fin.ofNat 64 (Fips202.offset (x + 3 * y) x) := by
    apply Fin.ext
    change RHO.getD (lane (x + 3 * y) x) 0 % 64 = Fips202.offset (x + 3 * y) x % 64
    rw [hoffset, Nat.mod_mod]
  rw [toState, get_rhoPi, rotated, getLsbD_rotateLeft _ hlt, hmod]
  rfl

theorem toState_chi (a : Lanes) : toState (chi a) = Fips202.chi (toState a) := by
  funext x y z
  simp only [toState, chi, Fips202.chi, get_ofFn, laneX_lane, laneY_lane,
    UInt64.toBitVec_xor, UInt64.toBitVec_and, UInt64.toBitVec_not, BitVec.getLsbD_xor,
    BitVec.getLsbD_and, BitVec.getLsbD_not, z.isLt, decide_true, Bool.true_and]

/-- The constants of the table are those of the standard. -/
theorem RC_eq_roundConstant : RC.length = 24 ∧
    ∀ ir < 24, ∀ z : Fin 64, (RC.getD ir 0).toBitVec.getLsbD z = Fips202.roundConstant ir z := by
  refine ⟨rfl, ?_⟩
  decide

theorem toState_iota (a : Lanes) {ir : ℕ} (h : ir < 24) :
    toState (iota a (RC.getD ir 0)) = Fips202.iota (toState a) ir := by
  funext x y z
  rw [toState, Fips202.iota, iota]
  by_cases hxy : x = 0 ∧ y = 0
  · obtain ⟨rfl, rfl⟩ := hxy
    have hget : (a.set 0 (a.get 0 ^^^ RC.getD ir 0)).get (lane 0 0) = a.get 0 ^^^ RC.getD ir 0 :=
      get_set_self a 0 _
    rw [hget, UInt64.toBitVec_xor, BitVec.getLsbD_xor, RC_eq_roundConstant.2 ir h z]
    rfl
  · have hne : (0 : ℕ) ≠ (lane x y).val := by
      intro heq
      have hzero : lane 0 0 = lane x y := Fin.ext heq
      obtain ⟨hx, hy⟩ := lane_injective hzero
      exact hxy ⟨hx.symm, hy.symm⟩
    have hget : (a.set 0 (a.get 0 ^^^ RC.getD ir 0)).get (lane x y) = a.get (lane x y) :=
      get_set_of_ne a (i := 0) _ fun h => hne (congrArg Fin.val h)
    have hfalse : (decide (x = 0) && decide (y = 0)) = false := by
      rw [← Bool.decide_and]
      exact decide_eq_false hxy
    rw [hget, hfalse, Bool.false_and, Bool.xor_false]
    rfl

/-- **The permutation is Keccak-f.** -/
theorem toState_keccakF (a : Lanes) : toState (keccakF a) = Fips202.keccakF (toState a) := by
  have hrounds : ∀ n ≤ 24, toState ((RC.take n).foldl
      (fun a rc => iota (chi (rhoPi (theta a))) rc) a) =
        (List.range n).foldl (fun A ir => Fips202.iota (Fips202.chi (Fips202.pi (Fips202.rho
          (Fips202.theta A)))) ir) (toState a) := by
    intro n hn
    induction n with
    | zero => rfl
    | succ n ih =>
      have hlt : n < RC.length := by
        rw [RC_eq_roundConstant.1]
        omega
      have htake : RC.take (n + 1) = RC.take n ++ [RC.getD n 0] := by
        rw [List.take_succ_eq_append_getElem hlt, List.getD_eq_getElem _ _ hlt]
      rw [htake, List.range_succ, List.foldl_append, List.foldl_append, List.foldl_cons,
        List.foldl_nil, List.foldl_cons, List.foldl_nil, toState_iota _ (by omega), toState_chi,
        toState_rhoPi, toState_theta, ih (by omega)]
  have hall := hrounds 24 (Nat.le_refl 24)
  rw [List.take_of_length_le (Nat.le_of_eq RC_eq_roundConstant.1)] at hall
  unfold keccakF Fips202.keccakF
  exact hall

end Keccak

end Ciphra
