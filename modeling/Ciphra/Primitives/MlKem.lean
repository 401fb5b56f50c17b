import Ciphra.Primitives.Lattice

/-!
# ML-KEM-768

The post-quantum half of the key exchange: polynomials of 256 coefficients modulo 3329, their
transform, the codecs of the keys and ciphertexts, the sampling from SHAKE, and the three operations
of the mechanism with explicit seeds.
-/

namespace Ciphra

namespace MlKem

/-- The modulus. -/
def q : ℤ := 3329

/-- Three polynomials, the rank of ML-KEM-768. -/
abbrev PolyVec := Fin 3 → Poly

/-- The representative in `[0, q)`. -/
def reduce (x : ℤ) : ℤ := x % q

/-! ## Tables -/

def powMod (base : ℤ) (exp : ℕ) : ℤ := powModLoop q 1 (base % q) exp

/-- The low 7 bits of `i`, reversed. -/
def bitrev7 (i : ℕ) : ℕ :=
  (List.range 7).foldl (fun r b => r ||| ((i >>> b) &&& 1) <<< (6 - b)) 0

def zetas : Vector ℤ 128 := Vector.ofFn fun i => powMod 17 (bitrev7 i)

def gammas : Vector ℤ 128 := Vector.ofFn fun i => powMod 17 (2 * bitrev7 i + 1)

/-! ## The transform -/

/-- The entries `a[j]` and `a[j + len]` after a step of `ntt`. -/
def nttStep (zeta lo hi : ℤ) : ℤ × ℤ :=
  let t := reduce (zeta * hi)
  (reduce (lo + t), reduce (lo - t))

def ntt (f : Poly) : Poly :=
  ([128, 64, 32, 16, 8, 4, 2].foldl (layerLoop (fun i => nttStep zetas[i]!) (· + 1)) (f, 1)).1

/-- The entries `a[j]` and `a[j + len]` after a step of `intt`. -/
def inttStep (zeta lo hi : ℤ) : ℤ × ℤ := (reduce (lo + hi), reduce (zeta * (hi - lo)))

def intt (f : Poly) : Poly :=
  ([2, 4, 8, 16, 32, 64, 128].foldl (layerLoop (fun i => inttStep zetas[i]!) (· - 1)) (f, 127)).1.map
    fun x => reduce (x * 3303)

/-- Multiply two polynomials in the transform domain: pairs of coefficients, each pair modulo
`X ^ 2 - gammas[i]`. -/
def nttMul (a b : Poly) : Poly :=
  Vector.ofFn fun k =>
    let i := k.val / 2
    if k.val % 2 = 0 then
      reduce (a[2 * i]! * b[2 * i]! +
        (a[2 * i + 1]! * b[2 * i + 1]!).tmod q * gammas[i]!)
    else reduce (a[2 * i]! * b[2 * i + 1]! + a[2 * i + 1]! * b[2 * i]!)

def polyAdd (a b : Poly) : Poly := Vector.ofFn fun i => reduce (a.get i + b.get i)

def polySub (a b : Poly) : Poly := Vector.ofFn fun i => reduce (a.get i - b.get i)

/-- The sum of the products of two vectors in the transform domain. -/
def dot (x y : PolyVec) : Poly :=
  (List.finRange 3).foldl (fun acc j => polyAdd acc (nttMul (x j) (y j))) zeroPoly

/-! ## Codecs -/

/-- 256 integers of `d` bits, little-endian. -/
def byteEncode (f : Poly) (d : ℕ) : Bytes :=
  (f.toList.foldl
    (fun s coeff => (List.range d).foldl (fun s b => pushBit s ((asU32 coeff >>> b) &&& 1 == 1)) s)
    (List.replicate (32 * d) 0, 0)).1

/-- The modulus of a decoded coefficient. -/
def codecModulus (d : ℕ) : ℕ := if d < 12 then 2 ^ d else 3329

def byteDecode (bytes : Bytes) (d : ℕ) : Option Poly :=
  if bytes.length < 32 * d then none
  else some (Vector.ofFn fun i => ((readBits bytes (d * i) d % codecModulus d : ℕ) : ℤ))

/-- `round(x * 2 ^ d / q) mod 2 ^ d`. -/
def compress (x : ℤ) (d : ℕ) : ℤ :=
  (((asU32 x <<< d) % 2 ^ 32 + 3329 / 2) / 3329 % 2 ^ d : ℕ)

/-- `round(y * q / 2 ^ d)`. -/
def decompress (y : ℤ) (d : ℕ) : ℤ := ((asU32 y * 3329 + 1 <<< (d - 1)) >>> d : ℕ)

def polyCompress (f : Poly) (d : ℕ) : Poly := f.map (compress · d)

def polyDecompress (f : Poly) (d : ℕ) : Poly := f.map (decompress · d)

/-! ## Sampling -/

/-- The rejection loop: two candidates of 12 bits in every three bytes. -/
def sampleNttLoop (xof : ℕ → UInt8) : ℕ → ℕ → Poly → ℕ → Option Poly
  | 0, _, a, count => if count < 256 then none else some a
  | fuel + 1, pos, a, count =>
    if count < 256 then
      let b0 := (xof pos).toNat
      let b1 := (xof (pos + 1)).toNat
      let b2 := (xof (pos + 2)).toNat
      let d1 : ℤ := (b0 + 256 * (b1 &&& 0x0f) : ℕ)
      let d2 : ℤ := ((b1 >>> 4) + 16 * b2 : ℕ)
      let s := if d1 < q then (a.set! count d1, count + 1) else (a, count)
      let s := if d2 < q ∧ s.2 < 256 then (s.1.set! s.2 d2, s.2 + 1) else s
      sampleNttLoop xof fuel (pos + 3) s.1 s.2
    else some a

def sampleNtt (S : Sponge) (fuel : ℕ) (rho : ByteArr 32) (i j : UInt8) : Option Poly :=
  sampleNttLoop (S.shake128 (rho.1 ++ [i, j])) fuel 0 zeroPoly 0

/-- Bit `pos` of a byte string. -/
def bitOf (bytes : Bytes) (pos : ℕ) : ℤ :=
  ((bytes.getD (pos / 8) 0 >>> UInt8.ofNat (pos % 8)) &&& 1).toNat

/-- A polynomial with small coefficients, the difference of two sums of `eta` bits each. -/
def sampleCbd (bytes : Bytes) (eta : ℕ) : Poly :=
  Vector.ofFn fun i =>
    let base := 2 * i.val * eta
    let s := (List.range eta).foldl
      (fun (s : ℤ × ℤ) b => (s.1 + bitOf bytes (base + b), s.2 + bitOf bytes (base + eta + b))) (0, 0)
    reduce (s.1 - s.2)

variable (S : Sponge)

/-- `SHAKE256(s || b)`, squeezed to `64 * eta` bytes. -/
def prf (s : ByteArr 32) (b : UInt8) (eta : ℕ) : Bytes :=
  (squeeze (S.shake256 (s.1 ++ [b])) 0 (64 * eta)).1

/-- SHA3-512 in two halves. -/
def g (input : Bytes) : ByteArr 32 × ByteArr 32 :=
  let h := S.sha3_512 input
  (⟨h.1.take 32, by rw [List.length_take, h.2]; rfl⟩,
    ⟨h.1.drop 32, by rw [List.length_drop, h.2]⟩)

def h (input : Bytes) : ByteArr 32 := S.sha3_256 input

def j (input : Bytes) : ByteArr 32 := squeeze (S.shake256 input) 0 32

/-- The matrix, or its transpose. -/
def genMatrix (fuel : ℕ) (rho : ByteArr 32) (transposed : Bool) : Option (Fin 3 → PolyVec) :=
  gather fun i => gather fun j =>
    if transposed then sampleNtt S fuel rho (UInt8.ofNat i) (UInt8.ofNat j)
    else sampleNtt S fuel rho (UInt8.ofNat j) (UInt8.ofNat i)

/-- The small polynomial number `n` of a seed. Both widths of ML-KEM-768 are 2. -/
def small (seed : ByteArr 32) (n : ℕ) : Poly := sampleCbd (prf S seed (UInt8.ofNat n) 2) 2

/-! ## Encryption -/

/-- The secret of a key, `s[i]` from number `i`. -/
def secret (sigma : ByteArr 32) : PolyVec := fun i => small S sigma i

/-- The error of a key, `e[i]` from number `3 + i`. -/
def error (sigma : ByteArr 32) : PolyVec := fun i => small S sigma (3 + i)

/-- `t[i] = sum over j of a[i][j] * s[j], plus e[i]`, in the transform domain. -/
def publicVec (a : Fin 3 → PolyVec) (sHat eHat : PolyVec) : PolyVec :=
  fun i => polyAdd (dot (a i) sHat) (eHat i)

def encodeVec (f : PolyVec) (d : ℕ) : Bytes := (List.finRange 3).flatMap fun i => byteEncode (f i) d

/-- `rho` and `sigma`. -/
def seeds (d : ByteArr 32) : ByteArr 32 × ByteArr 32 := g S (d.1 ++ [3])

def pkeKeygen (fuel : ℕ) (d : ByteArr 32) : Option (Bytes × Bytes) := do
  let (rho, sigma) := seeds S d
  let a ← genMatrix S fuel rho false
  let sHat : PolyVec := fun i => ntt (secret S sigma i)
  let eHat : PolyVec := fun i => ntt (error S sigma i)
  let tHat := publicVec a sHat eHat
  return (encodeVec tHat 12 ++ rho.1, encodeVec sHat 12)

/-- Polynomials of a byte string, 256 integers of `d` bits each, from the front. -/
def decodeVec (bytes : Bytes) (d : ℕ) : Option PolyVec :=
  gather fun i : Fin 3 => do
    let chunk ← slice bytes (32 * d * i) (32 * d * (i + 1))
    byteDecode chunk d

def sliceArr (b : Bytes) (lo n : ℕ) : Option (ByteArr n) :=
  if h : lo + n ≤ b.length then
    some ⟨(b.drop lo).take n, by rw [List.length_take, List.length_drop]; omega⟩
  else none

/-- The mask of a ciphertext, `r[i]` from number `i`. -/
def mask (rand : ByteArr 32) : PolyVec := fun i => small S rand i

/-- The error of `u`, `e1[i]` from number `3 + i`. -/
def error1 (rand : ByteArr 32) : PolyVec := fun i => small S rand (3 + i)

/-- The error of `v`, from number 6. -/
def error2 (rand : ByteArr 32) : Poly := small S rand 6

/-- The uncompressed ciphertext, for the transposed matrix and the vector of a public key. -/
def maskedPair (at' : Fin 3 → PolyVec) (tHat : PolyVec) (m rand : ByteArr 32) :
    Option (PolyVec × Poly) := do
  let rHat : PolyVec := fun i => ntt (mask S rand i)
  let u : PolyVec := fun i => polyAdd (intt (dot (at' i) rHat)) (error1 S rand i)
  let mu ← byteDecode m.1 1
  let v := polyAdd (polyAdd (intt (dot tHat rHat)) (error2 S rand)) (polyDecompress mu 1)
  return (u, v)

/-- `u` and `v`, before compression. -/
def pkeUncompressed (fuel : ℕ) (ek : Bytes) (m rand : ByteArr 32) : Option (PolyVec × Poly) := do
  let tHat ← decodeVec ek 12
  let rho ← sliceArr ek (384 * 3) 32
  let at' ← genMatrix S fuel rho true
  maskedPair S at' tHat m rand

/-- The ciphertext of `u` and `v`. -/
def encodePair (u : PolyVec) (v : Poly) : Bytes :=
  encodeVec (fun i => polyCompress (u i) 10) 10 ++ byteEncode (polyCompress v 4) 4

def pkeEncrypt (fuel : ℕ) (ek : Bytes) (m rand : ByteArr 32) : Option Bytes := do
  let (u, v) ← pkeUncompressed S fuel ek m rand
  return encodePair u v

def pkeDecrypt (dk ct : Bytes) : Option Bytes := do
  let u ← decodeVec ct 10
  let rest ← slice ct (32 * 10 * 3) ct.length
  let v ← byteDecode rest 4
  let sHat ← decodeVec dk 12
  let u' : PolyVec := fun i => polyDecompress (u i) 10
  let w := polySub (polyDecompress v 4) (intt (dot sHat fun i => ntt (u' i)))
  return byteEncode (polyCompress w 1) 1

/-! ## The mechanism -/

structure KeyPair where
  ek : Bytes
  dk : Bytes

def keygenInternal (fuel : ℕ) (d z : ByteArr 32) : Option KeyPair := do
  let (ek, dk) ← pkeKeygen S fuel d
  return ⟨ek, dk ++ ek ++ (h S ek).1 ++ z.1⟩

def encapsInternal (fuel : ℕ) (ek : Bytes) (m : ByteArr 32) : Option (Bytes × ByteArr 32) := do
  let (shared, r) := g S (m.1 ++ (h S ek).1)
  let ct ← pkeEncrypt S fuel ek m r
  return (ct, shared)

/-- The secret and the ciphertext that decapsulation derives from what it decrypted. -/
def reencrypt (fuel : ℕ) (dk ct : Bytes) : Option (ByteArr 32 × Bytes) := do
  let dkPke ← slice dk 0 (384 * 3)
  let ekPke ← slice dk (384 * 3) (768 * 3 + 32)
  let hash ← slice dk (768 * 3 + 32) (768 * 3 + 64)
  let m ← pkeDecrypt dkPke ct
  let m ← sliceArr m 0 32
  let (shared, r) := g S (m.1 ++ hash)
  let ct' ← pkeEncrypt S fuel ekPke m r
  return (shared, ct')

def decapsulate (fuel : ℕ) (dk ct : Bytes) : Option (ByteArr 32) := do
  let z ← slice dk (768 * 3 + 64) (768 * 3 + 96)
  let kBar := j S (z ++ ct)
  let (shared, ct') ← reencrypt S fuel dk ct
  return if ct = ct' then shared else kBar

end MlKem

end Ciphra
