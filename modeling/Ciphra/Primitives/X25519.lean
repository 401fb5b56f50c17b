import Ciphra.Foundations.Bytes

/-!
# X25519

The classical half of the key exchange: field arithmetic modulo `2 ^ 255 - 19` on five limbs of 51
bits, and the Montgomery ladder. The limbs are 64-bit words and the products 128-bit words, as in
the source.

Reading a public key drops its top bit (`Fe.fromBytes_topBit`), so the two encodings that differ in
it lead to the same shared secret (`scalarmult_topBit`).
-/

namespace Ciphra

/-- A field element modulo `2 ^ 255 - 19` as five 51-bit limbs. -/
structure Fe where
  l0 : UInt64
  l1 : UInt64
  l2 : UInt64
  l3 : UInt64
  l4 : UInt64
  deriving DecidableEq, Repr

def mask51 : UInt64 := ((1 : UInt64) <<< 51) - 1

namespace Fe

def zero : Fe := ⟨0, 0, 0, 0, 0⟩

def one : Fe := ⟨1, 0, 0, 0, 0⟩

/-- Eight bytes as a little-endian word. -/
def load (bytes : Bytes) (i : ℕ) : UInt64 :=
  (List.range 8).foldl
    (fun x k => x ||| ((bytes.getD (i + k) 0).toUInt64 <<< UInt64.ofNat (8 * k))) 0

/-- Repack four 64-bit words, the top bit cleared, into five limbs. -/
def fromBytes (bytes : Bytes) : Fe :=
  let x0 := load bytes 0
  let x1 := load bytes 8
  let x2 := load bytes 16
  let x3 := load bytes 24
  ⟨x0 &&& mask51,
    ((x0 >>> 51) ||| (x1 <<< 13)) &&& mask51,
    ((x1 >>> 38) ||| (x2 <<< 26)) &&& mask51,
    ((x2 >>> 25) ||| (x3 <<< 39)) &&& mask51,
    (x3 >>> 12) &&& mask51⟩

/-- Reduce limbs to under `2 ^ 51` and a little. -/
def carry (a : Fe) : Fe :=
  let l1 := a.l1 + (a.l0 >>> 51)
  let l0 := a.l0 &&& mask51
  let l2 := a.l2 + (l1 >>> 51)
  let l1 := l1 &&& mask51
  let l3 := a.l3 + (l2 >>> 51)
  let l2 := l2 &&& mask51
  let l4 := a.l4 + (l3 >>> 51)
  let l3 := l3 &&& mask51
  let c := l4 >>> 51
  let l4 := l4 &&& mask51
  ⟨l0 + c * 19, l1, l2, l3, l4⟩

/-- Fully reduce into the canonical range. -/
def freeze (a : Fe) : Fe :=
  let a := a.carry.carry
  -- adding 19 carries out of the top limb exactly when the value is not yet reduced
  let q := (a.l0 + 19) >>> 51
  let q := (a.l1 + q) >>> 51
  let q := (a.l2 + q) >>> 51
  let q := (a.l3 + q) >>> 51
  let q := (a.l4 + q) >>> 51
  let l0 := a.l0 + 19 * q
  let l1 := a.l1 + (l0 >>> 51)
  let l0 := l0 &&& mask51
  let l2 := a.l2 + (l1 >>> 51)
  let l1 := l1 &&& mask51
  let l3 := a.l3 + (l2 >>> 51)
  let l2 := l2 &&& mask51
  let l4 := a.l4 + (l3 >>> 51)
  let l3 := l3 &&& mask51
  let l4 := l4 &&& mask51
  ⟨l0, l1, l2, l3, l4⟩

def toBytes (a : Fe) : Bytes :=
  let t := a.freeze
  let packed := [t.l0 ||| (t.l1 <<< 51), (t.l1 >>> 13) ||| (t.l2 <<< 38),
    (t.l2 >>> 26) ||| (t.l3 <<< 25), (t.l3 >>> 39) ||| (t.l4 <<< 12)]
  packed.flatMap fun word => leBytes 8 word.toNat

def add (a b : Fe) : Fe := ⟨a.l0 + b.l0, a.l1 + b.l1, a.l2 + b.l2, a.l3 + b.l3, a.l4 + b.l4⟩

/-- Subtraction, after adding a multiple of the modulus that keeps every limb from underflowing. -/
def sub (a b : Fe) : Fe :=
  carry ⟨a.l0 + 36028797018963664 - b.l0, a.l1 + 36028797018963952 - b.l1,
    a.l2 + 36028797018963952 - b.l2, a.l3 + 36028797018963952 - b.l3,
    a.l4 + 36028797018963952 - b.l4⟩

/-- A word as a 128-bit word. -/
def wide (x : UInt64) : BitVec 128 := x.toBitVec.setWidth 128

/-- The low word. -/
def narrow (x : BitVec 128) : UInt64 := ⟨x.setWidth 64⟩

/-- Carry through five wide limbs. -/
def reduceWide (t0 t1 t2 t3 t4 : BitVec 128) : Fe :=
  let v0 := t0
  let v1 := t1 + (v0 >>> 51)
  let v2 := t2 + (v1 >>> 51)
  let v3 := t3 + (v2 >>> 51)
  let v4 := t4 + (v3 >>> 51)
  carry ⟨(narrow v0 &&& mask51) + narrow (v4 >>> 51) * 19, narrow v1 &&& mask51,
    narrow v2 &&& mask51, narrow v3 &&& mask51, narrow v4 &&& mask51⟩

/-- Schoolbook multiplication, the high limbs folded back nineteen times. -/
def mul (a b : Fe) : Fe :=
  let m (x y : UInt64) : BitVec 128 := wide x * wide y
  let r19 (x : UInt64) : UInt64 := x * 19
  reduceWide
    (m a.l0 b.l0 + m a.l1 (r19 b.l4) + m a.l2 (r19 b.l3) + m a.l3 (r19 b.l2) + m a.l4 (r19 b.l1))
    (m a.l0 b.l1 + m a.l1 b.l0 + m a.l2 (r19 b.l4) + m a.l3 (r19 b.l3) + m a.l4 (r19 b.l2))
    (m a.l0 b.l2 + m a.l1 b.l1 + m a.l2 b.l0 + m a.l3 (r19 b.l4) + m a.l4 (r19 b.l3))
    (m a.l0 b.l3 + m a.l1 b.l2 + m a.l2 b.l1 + m a.l3 b.l0 + m a.l4 (r19 b.l4))
    (m a.l0 b.l4 + m a.l1 b.l3 + m a.l2 b.l2 + m a.l3 b.l1 + m a.l4 b.l0)

def square (a : Fe) : Fe := a.mul a

def mulSmall (a : Fe) (k : UInt64) : Fe :=
  reduceWide (wide a.l0 * wide k) (wide a.l1 * wide k) (wide a.l2 * wide k) (wide a.l3 * wide k)
    (wide a.l4 * wide k)

/-- Conditional swap, on `swap` zero or one. -/
def cswap (a b : Fe) (swap : UInt64) : Fe × Fe :=
  let mask := 0 - swap
  let t0 := mask &&& (a.l0 ^^^ b.l0)
  let t1 := mask &&& (a.l1 ^^^ b.l1)
  let t2 := mask &&& (a.l2 ^^^ b.l2)
  let t3 := mask &&& (a.l3 ^^^ b.l3)
  let t4 := mask &&& (a.l4 ^^^ b.l4)
  (⟨a.l0 ^^^ t0, a.l1 ^^^ t1, a.l2 ^^^ t2, a.l3 ^^^ t3, a.l4 ^^^ t4⟩,
    ⟨b.l0 ^^^ t0, b.l1 ^^^ t1, b.l2 ^^^ t2, b.l3 ^^^ t3, b.l4 ^^^ t4⟩)

/-- The inverse as the power `p - 2`, by the usual chain of squarings and products. -/
def invert (z1 : Fe) : Fe :=
  let z2 := z1.square
  let z8 := z2.square.square
  let z9 := z1.mul z8
  let z11 := z2.mul z9
  let z22 := z11.square
  let z_5_0 := z9.mul z22
  let z_10_0 := (square^[5] z_5_0).mul z_5_0
  let z_20_0 := (square^[10] z_10_0).mul z_10_0
  let z_40_0 := (square^[20] z_20_0).mul z_20_0
  let z_50_0 := (square^[10] z_40_0).mul z_10_0
  let z_100_0 := (square^[50] z_50_0).mul z_50_0
  let z_200_0 := (square^[100] z_100_0).mul z_100_0
  let z_250_0 := (square^[50] z_200_0).mul z_50_0
  (square^[5] z_250_0).mul z11

end Fe

/-- The variables of the ladder. -/
structure Ladder where
  x2 : Fe
  z2 : Fe
  x3 : Fe
  z3 : Fe
  swap : UInt64
  deriving DecidableEq, Repr

namespace Ladder

/-- Swap both coordinates of the two points. -/
def cswap (s : Ladder) (swap : UInt64) : Ladder :=
  let (x2, x3) := Fe.cswap s.x2 s.x3 swap
  let (z2, z3) := Fe.cswap s.z2 s.z3 swap
  { s with x2, z2, x3, z3 }

/-- One round of the ladder: swap as the bit demands, then double one point and add the other. -/
def step (k : Bytes) (x1 : Fe) (s : Ladder) (t : ℕ) : Ladder :=
  let bit := ((k.getD (t >>> 3) 0 >>> UInt8.ofNat (t &&& 7)) &&& 1).toUInt64
  let s := s.cswap (s.swap ^^^ bit)
  let a := s.x2.add s.z2
  let aa := a.square
  let b := s.x2.sub s.z2
  let bb := b.square
  let e := aa.sub bb
  let c := s.x3.add s.z3
  let d := s.x3.sub s.z3
  let da := d.mul a
  let cb := c.mul b
  { x3 := (da.add cb).square
    z3 := x1.mul (da.sub cb).square
    x2 := aa.mul bb
    z2 := e.mul (aa.add (e.mulSmall 121665))
    swap := bit }

end Ladder

/-- Clamp the scalar. -/
def clampScalar (scalar : Bytes) : Bytes :=
  let k := scalar.set 0 (scalar.getD 0 0 &&& 248)
  let k := k.set 31 (k.getD 31 0 &&& 127)
  k.set 31 (k.getD 31 0 ||| 64)

/-- Scalar multiplication of a point given by its first coordinate. -/
def scalarmult (scalar u : Bytes) : Bytes :=
  let k := clampScalar scalar
  let x1 := Fe.fromBytes u
  let s := (List.range 255).reverse.foldl (Ladder.step k x1) ⟨.one, .zero, x1, .one, 0⟩
  let s := s.cswap s.swap
  (s.x2.mul s.z2.invert).toBytes

/-- The base point, `9`. -/
def basePoint : Bytes := 9 :: List.replicate 31 0

/-- The public key of a secret. -/
def publicKey (secret : Bytes) : Bytes := scalarmult secret basePoint

/-- The shared secret of a secret and the other side's public key. -/
def diffieHellman (secret theirPublic : Bytes) : Bytes := scalarmult secret theirPublic

/-! ## The top bit of a public key -/

theorem or_and_mask (a b m : UInt64) : (a ||| b) &&& m = (a &&& m) ||| (b &&& m) := by
  apply UInt64.toBitVec_inj.mp
  simp only [UInt64.toBitVec_and, UInt64.toBitVec_or]
  apply BitVec.eq_of_getLsbD_eq
  intro i hi
  simp only [BitVec.getLsbD_and, BitVec.getLsbD_or]
  exact Bool.and_or_distrib_right _ _ _

/-- The same bytes with the top bit of the last one flipped. -/
def flipTopBit (bytes : Bytes) : Bytes := bytes.set 31 (bytes.getD 31 0 ^^^ 128)

theorem flipTopBit_ne {bytes : Bytes} (h : bytes.length = 32) : flipTopBit bytes ≠ bytes := by
  have hlt : 31 < bytes.length := by omega
  intro heq
  have hget := congrArg (fun l : Bytes => l.getD 31 0) heq
  simp only [flipTopBit, List.getD_eq_getElem?_getD, List.getElem?_set_self hlt,
    List.getElem?_eq_getElem hlt, Option.getD_some] at hget
  have hne : ∀ n : Fin 256, UInt8.ofNat n.val ^^^ 128 ≠ UInt8.ofNat n.val := by decide +kernel
  have hbyte := hne ⟨bytes[31].toNat, bytes[31].toNat_lt⟩
  simp only [UInt8.ofNat_toNat] at hbyte
  exact hbyte hget

namespace Fe

/-- The words below the last one do not see the last byte. -/
theorem load_set {bytes : Bytes} {b : UInt8} {i : ℕ} (hi : i + 8 ≤ 31) :
    load (bytes.set 31 b) i = load bytes i := by
  unfold load
  apply List.foldl_ext
  intro x k hk
  have hk8 := List.mem_range.mp hk
  have hne : 31 ≠ i + k := by omega
  simp [List.getD_eq_getElem?_getD, List.getElem?_set_ne hne]

/-- The last word without its last byte. -/
def loadLow (bytes : Bytes) : UInt64 :=
  (List.range 7).foldl
    (fun x k => x ||| ((bytes.getD (24 + k) 0).toUInt64 <<< UInt64.ofNat (8 * k))) 0

theorem load_last (bytes : Bytes) :
    load bytes 24 = loadLow bytes ||| ((bytes.getD 31 0).toUInt64 <<< 56) := by
  rw [load, List.range_succ, List.foldl_append]
  rfl

theorem loadLow_set (bytes : Bytes) (b : UInt8) : loadLow (bytes.set 31 b) = loadLow bytes := by
  unfold loadLow
  apply List.foldl_ext
  intro x k hk
  have hk7 := List.mem_range.mp hk
  have hne : 31 ≠ 24 + k := by omega
  simp [List.getD_eq_getElem?_getD, List.getElem?_set_ne hne]

/-- The last byte leaves the fourth limb alone, and its top bit the fifth. -/
theorem byte_topBit (b : UInt8) :
    ((b.toUInt64 <<< 56) <<< 39 : UInt64) = 0 ∧
      (((b ^^^ 128).toUInt64 <<< 56) >>> 12) &&& mask51 = ((b.toUInt64 <<< 56) >>> 12) &&& mask51 := by
  have h : ∀ n : Fin 256, (((UInt8.ofNat n.val).toUInt64 <<< 56) <<< 39 : UInt64) = 0 ∧
      (((UInt8.ofNat n.val ^^^ 128).toUInt64 <<< 56) >>> 12) &&& mask51 =
        (((UInt8.ofNat n.val).toUInt64 <<< 56) >>> 12) &&& mask51 := by decide +kernel
  have hb := h ⟨b.toNat, b.toNat_lt⟩
  simpa only [UInt8.ofNat_toNat] using hb

/-- **Reading a public key drops its top bit.** -/
theorem fromBytes_topBit {bytes : Bytes} (h : bytes.length = 32) :
    fromBytes (flipTopBit bytes) = fromBytes bytes := by
  have hlt : 31 < bytes.length := by omega
  have hbyte : (flipTopBit bytes).getD 31 0 = bytes.getD 31 0 ^^^ 128 := by
    simp only [flipTopBit, List.getD_eq_getElem?_getD, List.getElem?_set_self hlt, Option.getD_some]
  have h0 : load (flipTopBit bytes) 0 = load bytes 0 := load_set (by omega)
  have h1 : load (flipTopBit bytes) 8 = load bytes 8 := load_set (by omega)
  have h2 : load (flipTopBit bytes) 16 = load bytes 16 := load_set (by omega)
  have hlow : loadLow (flipTopBit bytes) = loadLow bytes := loadLow_set bytes _
  obtain ⟨hz, htop⟩ := byte_topBit (bytes.getD 31 0)
  obtain ⟨hz', -⟩ := byte_topBit (bytes.getD 31 0 ^^^ 128)
  simp only [fromBytes, h0, h1, h2, load_last, hlow, hbyte, UInt64.shiftLeft_or,
    UInt64.shiftRight_or, hz, hz', or_and_mask, htop]

end Fe

/-- The two encodings of a public key lead to the same shared secret. -/
theorem scalarmult_topBit (scalar : Bytes) {u : Bytes} (h : u.length = 32) :
    scalarmult scalar (flipTopBit u) = scalarmult scalar u := by
  rw [scalarmult, scalarmult, Fe.fromBytes_topBit h]

theorem length_scalarmult (scalar u : Bytes) : (scalarmult scalar u).length = 32 := by
  simp [scalarmult, Fe.toBytes]

end Ciphra
