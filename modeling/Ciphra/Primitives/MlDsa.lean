import Ciphra.Primitives.Lattice

/-!
# ML-DSA-65

The signatures on audit roots: polynomials of 256 coefficients modulo 8380417, rounding and hints,
sampling, the bit-packed formats, and key generation, signing and verification. Signing is
deterministic and tries again under the next masks until the bounds hold; `attempt` is one try.
-/

namespace Ciphra

namespace MlDsa

/-- The modulus. -/
def q : ℤ := 8380417

/-- A bound of the challenge times the secret, `tau * eta`. -/
def beta : ℤ := 196

def gamma1 : ℤ := 524288

def gamma2 : ℤ := 261888

/-- The most hints a signature holds. -/
def omega : ℕ := 55

/-- Five polynomials. -/
abbrev VecL := Fin 5 → Poly

/-- Six polynomials. -/
abbrev VecK := Fin 6 → Poly

/-! ## Modular helpers -/

def addMod (a b : ℤ) : ℤ := if a + b ≥ q then a + b - q else a + b

def subMod (a b : ℤ) : ℤ := if a - b < 0 then a - b + q else a - b

def mulMod (a b : ℤ) : ℤ := a * b % q

def powMod (base : ℤ) (exp : ℕ) : ℤ := powModLoop q 1 (base % q) exp

/-- The centred representative of a coefficient in `[0, q)`. -/
def center (a : ℤ) : ℤ := if a > q / 2 then a - q else a

/-- The greatest absolute value of the centred coefficients. -/
def normInf (p : Poly) : ℤ := (p.toList.map fun c => |center c|).foldl max 0

/-- The greatest norm of the polynomials of a vector, 0 for none. -/
def maxNorm {n : ℕ} (norm : Poly → ℤ) (v : Fin n → Poly) : ℤ :=
  (List.ofFn fun i => norm (v i)).foldl max 0

/-! ## The transform -/

/-- The 8 bits of a byte, reversed. -/
def reverseBits (i : ℕ) : ℕ :=
  (List.range 8).foldl (fun r b => r ||| ((i >>> b) &&& 1) <<< (7 - b)) 0

def zetas : Vector ℤ 256 := Vector.ofFn fun i => powMod 1753 (reverseBits i)

def nInverse : ℤ := powMod 256 8380415

/-- The entries `a[j]` and `a[j + len]` after a step of `ntt`. -/
def nttStep (zeta lo hi : ℤ) : ℤ × ℤ :=
  let t := mulMod zeta hi
  (addMod lo t, subMod lo t)

def ntt (a : Poly) : Poly :=
  ([128, 64, 32, 16, 8, 4, 2, 1].foldl
    (layerLoop (fun k => nttStep zetas[k + 1]!) (· + 1)) (a, 0)).1

/-- The entries `a[j]` and `a[j + len]` after a step of `invNtt`. -/
def invNttStep (zeta lo hi : ℤ) : ℤ × ℤ := (addMod lo hi, mulMod zeta (subMod lo hi))

def invNtt (a : Poly) : Poly :=
  ([1, 2, 4, 8, 16, 32, 64, 128].foldl
    (layerLoop (fun k => invNttStep (q - zetas[k - 1]!)) (· - 1)) (a, 256)).1.map
    fun x => mulMod x nInverse

def polyAdd (a b : Poly) : Poly := Vector.ofFn fun i => addMod (a.get i) (b.get i)

def polySub (a b : Poly) : Poly := Vector.ofFn fun i => subMod (a.get i) (b.get i)

/-- Coefficient-wise product in the transform domain. -/
def polyPointwise (a b : Poly) : Poly := Vector.ofFn fun i => mulMod (a.get i) (b.get i)

/-- A row of a matrix times a vector, in the transform domain. -/
def rowMul (row x : VecL) : Poly :=
  (List.finRange 5).foldl (fun acc j => polyAdd acc (polyPointwise (row j) (x j))) zeroPoly

/-! ## Rounding and hints -/

/-- `r = r1 * 2 ^ 13 + r0` with `r0` in `(-2 ^ 12, 2 ^ 12]`. -/
def power2round (r : ℤ) : ℤ × ℤ :=
  let r := r % q
  let r1 := (r + 2 ^ 12 - 1) / 2 ^ 13
  (r1, r - r1 * 2 ^ 13)

/-- High and low part around `2 * gamma2`. -/
def decompose (r : ℤ) : ℤ × ℤ :=
  let r := r % q
  let r0 := r % (2 * gamma2)
  let r0 := if r0 > gamma2 then r0 - 2 * gamma2 else r0
  if r - r0 = q - 1 then (0, r0 - 1) else ((r - r0) / (2 * gamma2), r0)

def highBits (r : ℤ) : ℤ := (decompose r).1

def lowBitsOf (r : ℤ) : ℤ := (decompose r).2

/-- Whether adding `z` to `r` changes its high bits. -/
def makeHint (z r : ℤ) : Bool := highBits r != highBits (addMod (r % q) (z % q))

/-- The corrected high bits. -/
def useHint (hint : Bool) (r : ℤ) : ℤ :=
  let m := (q - 1) / (2 * gamma2)
  let (r1, r0) := decompose r
  if hint then if r0 > 0 then (r1 + 1) % m else (r1 - 1) % m else r1

/-! ## Bit-packing -/

def packT1 (p : Poly) : Bytes := packBits (p.toList.map asU32) 10

/-- The polynomial of a list of coefficients. -/
def ofVals (f : ℕ → ℤ) (vals : List ℕ) : Poly := Vector.ofFn fun i => f (vals.getD i 0)

def unpackT1 (data : Bytes) : Option Poly := (unpackBits data 10 256).map (ofVals fun v => v)

/-- Coefficients packed as their distance below `bound`, in `w` bits. -/
def packCentred (bound : ℤ) (w : ℕ) (p : Poly) : Bytes :=
  packBits (p.toList.map fun c => asU32 (bound - center c)) w

def unpackCentred (bound : ℤ) (w : ℕ) (data : Bytes) : Option Poly :=
  (unpackBits data w 256).map (ofVals fun v => (bound - v) % q)

def packEta : Poly → Bytes := packCentred 4 4

def unpackEta : Bytes → Option Poly := unpackCentred 4 4

def packT0 : Poly → Bytes := packCentred (2 ^ 12) 13

def unpackT0 : Bytes → Option Poly := unpackCentred (2 ^ 12) 13

def packZ : Poly → Bytes := packCentred gamma1 20

def unpackZ : Bytes → Option Poly := unpackCentred gamma1 20

/-- The high bits of all polynomials, 4 bits each. -/
def w1Encode (w1 : VecK) : Bytes :=
  packBits ((List.finRange 6).flatMap fun i => (w1 i).toList.map asU32) 4

/-! ## Sampling -/

section Sampling

variable (S : Sponge) (fuel : ℕ)

/-- `SHAKE256` of the parts, squeezed to `n` bytes. -/
def h (parts : List Bytes) (n : ℕ) : Bytes := (squeeze (S.shake256 parts.flatten) 0 n).1

/-- The first byte from `pos` that is at most `i`, and the position after it. -/
def pickIndex (xof : ℕ → UInt8) (i : ℕ) : ℕ → ℕ → Option (ℕ × ℕ)
  | 0, _ => none
  | fuel + 1, pos =>
    if (xof pos).toNat ≤ i then some ((xof pos).toNat, pos + 1) else pickIndex xof i fuel (pos + 1)

/-- One step of `sampleInBall`: the coefficient `i` takes the value of the coefficient `j`, which
gets the next sign. -/
def ballStep (xof : ℕ → UInt8) (signs : ℕ) (s : Poly × ℕ) (bit : ℕ) : Option (Poly × ℕ) := do
  let i := 207 + bit
  let (j, pos) ← pickIndex xof i fuel s.2
  let c := s.1.set! i s.1[j]!
  return (c.set! j (if (signs >>> bit) &&& 1 = 1 then q - 1 else 1), pos)

/-- A polynomial with 49 coefficients `1` or `-1`. -/
def sampleInBall (seed : Bytes) : Option Poly := do
  let xof := S.shake256 seed
  let signs := leNat (squeeze xof 0 8).1
  let s ← (List.range 49).foldlM (ballStep fuel xof signs) (zeroPoly, 8)
  return s.1

/-- The rejection loop of `rejNttPoly`: one candidate of 23 bits in every three bytes. -/
def rejNttLoop (xof : ℕ → UInt8) : ℕ → ℕ → Poly → ℕ → Option Poly
  | 0, _, p, ctr => if ctr < 256 then none else some p
  | fuel + 1, pos, p, ctr =>
    if ctr < 256 then
      let t : ℤ := ((xof pos).toNat ||| (xof (pos + 1)).toNat <<< 8 |||
        ((xof (pos + 2)).toNat &&& 0x7f) <<< 16 : ℕ)
      if t < q then rejNttLoop xof fuel (pos + 3) (p.set! ctr t) (ctr + 1)
      else rejNttLoop xof fuel (pos + 3) p ctr
    else some p

def rejNttPoly (rho : Bytes) (j i : UInt8) : Option Poly :=
  rejNttLoop (S.shake128 (rho ++ [j, i])) fuel 0 zeroPoly 0

/-- A candidate of 4 bits: taken below 9. -/
def takeNibble (s : Poly × ℕ) (nibble : ℕ) : Poly × ℕ :=
  if nibble < 9 ∧ s.2 < 256 then (s.1.set! s.2 ((4 - nibble : ℤ) % q), s.2 + 1) else s

/-- The rejection loop of `rejBoundedPoly`: two candidates in every byte. -/
def rejBoundedLoop (xof : ℕ → UInt8) : ℕ → ℕ → Poly → ℕ → Option Poly
  | 0, _, p, ctr => if ctr < 256 then none else some p
  | fuel + 1, pos, p, ctr =>
    if ctr < 256 then
      let b := (xof pos).toNat
      let s := takeNibble (takeNibble (p, ctr) (b &&& 0x0f)) (b >>> 4)
      rejBoundedLoop xof fuel (pos + 1) s.1 s.2
    else some p

/-- Coefficients in `[-4, 4]` from a seed and a nonce. -/
def rejBoundedPoly (rhoPrime : Bytes) (nonce : UInt16) : Option Poly :=
  rejBoundedLoop (S.shake256 (rhoPrime ++ leBytes 2 nonce.toNat)) fuel 0 zeroPoly 0

/-- A masking polynomial with coefficients in `(-gamma1, gamma1]`. -/
def expandMaskPoly (rhoPP : Bytes) (nonce : UInt16) : Option Poly :=
  (unpackBits (squeeze (S.shake256 (rhoPP ++ leBytes 2 nonce.toNat)) 0 640).1 20 256).map
    (ofVals fun v => subMod (gamma1 % q) (v % q))

def expandA (rho : Bytes) : Option (Fin 6 → VecL) :=
  gather fun i => gather fun j => rejNttPoly S fuel rho (UInt8.ofNat j) (UInt8.ofNat i)

def expandS (rhoPrime : Bytes) : Option (VecL × VecK) := do
  let s1 ← gather fun i : Fin 5 => rejBoundedPoly S fuel rhoPrime (UInt16.ofNat i)
  let s2 ← gather fun i : Fin 6 => rejBoundedPoly S fuel rhoPrime (UInt16.ofNat (5 + i))
  return (s1, s2)

end Sampling

/-! ## Keys and signatures -/

/-- The encodings of the polynomials of a vector, one after the other. -/
def encodeAll {n : ℕ} (pack : Poly → Bytes) (v : Fin n → Poly) : Bytes :=
  (List.finRange n).flatMap fun i => pack (v i)

/-- `n` polynomials of `stride` bytes each, from offset `off`. -/
def decodeAll {n : ℕ} (unpack : Bytes → Option Poly) (stride off : ℕ) (data : Bytes) :
    Option (Fin n → Poly) :=
  gather fun i => do
    let chunk ← slice data (off + stride * i) (off + stride * (i + 1))
    unpack chunk

def pkEncode (rho : Bytes) (t1 : VecK) : Bytes := rho ++ encodeAll packT1 t1

def pkDecode (pk : Bytes) : Option (Bytes × VecK) := do
  let rho ← slice pk 0 32
  let t1 ← decodeAll unpackT1 320 32 pk
  return (rho, t1)

/-- The fields of a secret key. -/
structure SecretKey where
  rho : Bytes
  kSeed : Bytes
  tr : Bytes
  s1 : VecL
  s2 : VecK
  t0 : VecK

def skEncode (sk : SecretKey) : Bytes :=
  sk.rho ++ sk.kSeed ++ sk.tr ++ encodeAll packEta sk.s1 ++ encodeAll packEta sk.s2 ++
    encodeAll packT0 sk.t0

def skDecode (sk : Bytes) : Option SecretKey := do
  let rho ← slice sk 0 32
  let kSeed ← slice sk 32 64
  let tr ← slice sk 64 128
  let s1 ← decodeAll unpackEta 128 128 sk
  let s2 ← decodeAll unpackEta 128 768 sk
  let t0 ← decodeAll unpackT0 416 1536 sk
  return ⟨rho, kSeed, tr, s1, s2, t0⟩

/-- The positions of the set coefficients of one polynomial, at the write index. -/
def hintRow (p : Poly) (s : Bytes × ℕ) : Bytes × ℕ :=
  (List.range 256).foldl
    (fun s j => if p[j]! ≠ 0 then (s.1.set s.2 (UInt8.ofNat j), s.2 + 1) else s) s

/-- Positions of the set coefficients, then the count after every polynomial. -/
def hintEncode (hint : VecK) : Bytes :=
  ((List.finRange 6).foldl
    (fun s i =>
      let s := hintRow (hint i) s
      (s.1.set (omega + i) (UInt8.ofNat s.2), s.2)) (List.replicate (omega + 6) 0, 0)).1

def sigEncode (cTilde : Bytes) (z : VecL) (hint : VecK) : Bytes :=
  cTilde ++ encodeAll packZ z ++ hintEncode hint

/-- The polynomial of the positions `k` to `last`, which have to increase. -/
def hintDecodeRow (hint : Bytes) (k last : ℕ) : Option Poly :=
  (List.range' k (last - k)).foldlM
    (fun p j => if j > k ∧ hint.getD j 0 ≤ hint.getD (j - 1) 0 then none
      else some (p.set! (hint.getD j 0).toNat 1)) zeroPoly

/-- The loop over the polynomials, with the count so far. -/
def hintDecodeLoop (hint : Bytes) (s : ℕ × VecK) (i : Fin 6) : Option (ℕ × VecK) :=
  let last := (hint.getD (omega + i) 0).toNat
  if last < s.1 ∨ last > omega then none
  else do
    let p ← hintDecodeRow hint s.1 last
    return (last, Function.update s.2 i p)

def hintDecode (hint : Bytes) : Option VecK := do
  let s ← (List.finRange 6).foldlM (hintDecodeLoop hint) (0, fun _ => zeroPoly)
  if ((hint.drop s.1).take (omega - s.1)).all (· == 0) then return s.2 else none

/-- The outer result is missing where a slice is out of range, the inner one where the encoding is
refused. -/
def sigDecode (sig : Bytes) : Option (Option (Bytes × VecL × VecK)) := do
  let cTilde ← slice sig 0 48
  let z ← decodeAll unpackZ 640 48 sig
  let hint ← slice sig 3248 (3248 + omega + 6)
  return (hintDecode hint).map fun hint => (cTilde, z, hint)

/-! ## Signatures -/

section Scheme

variable (S : Sponge) (fuel : ℕ)

/-- `t = A s1 + s2`. -/
def keyVector (a : Fin 6 → VecL) (s1 : VecL) (s2 : VecK) : VecK :=
  fun i => polyAdd (invNtt (rowMul (a i) fun j => ntt (s1 j))) (s2 i)

def keypairFromSeed (seed : ByteArr 32) : Option (Bytes × Bytes) := do
  let expanded := h S [seed.1, [6], [5]] 128
  let rho := expanded.take 32
  let rhoPrime := (expanded.drop 32).take 64
  let kSeed := (expanded.drop 96).take 32
  let a ← expandA S fuel rho
  let (s1, s2) ← expandS S fuel rhoPrime
  let t := keyVector a s1 s2
  let t1 : VecK := fun i => (t i).map fun r => (power2round r).1
  let t0 : VecK := fun i => (t i).map fun r => (power2round r).2 % q
  let pk := pkEncode rho t1
  let tr := h S [pk] 64
  return (pk, skEncode ⟨rho, kSeed, tr, s1, s2, t0⟩)

/-- The absolute values of low bits, which are centred already. -/
def infinityLow (p : Poly) : ℤ := (p.toList.map fun c => |c|).foldl max 0

/-- The commitment `w = A y`. -/
def commitment (a : Fin 6 → VecL) (y : VecL) : VecK :=
  fun i => invNtt (rowMul (a i) fun j => ntt (y j))

/-- The product of the challenge with a polynomial whose transform is given. -/
def challengeMul (cHat pHat : Poly) : Poly := invNtt (polyPointwise cHat pHat)

/-- The hint of a signature, 1 where adding `-ct0` changes the high bits of `w - cs2 + ct0`. -/
def hintOf (w cs2 ct0 : VecK) : VecK :=
  fun i => Vector.ofFn fun j =>
    if makeHint (subMod 0 (ct0 i)[j]) (addMod (subMod (w i)[j] (cs2 i)[j]) (ct0 i)[j]) then 1 else 0

/-- The number of set coefficients. -/
def ones (hint : VecK) : ℕ := (List.ofFn fun i => (hint i).toList.countP (· ≠ 0)).sum

/-- One try under the masks of `kappa`: a signature, or nothing when a bound fails. -/
def attempt (a : Fin 6 → VecL) (sk : SecretKey) (mu rhoPP : Bytes) (kappa : UInt16) :
    Option (Option Bytes) := do
  let y ← gather fun r : Fin 5 => expandMaskPoly S rhoPP (kappa + UInt16.ofNat r)
  let w := commitment a y
  let w1 : VecK := fun i => (w i).map highBits
  let cTilde := h S [mu, w1Encode w1] 48
  let c ← sampleInBall S fuel cTilde
  let cHat := ntt c
  let cs1 : VecL := fun j => challengeMul cHat (ntt (sk.s1 j))
  let cs2 : VecK := fun i => challengeMul cHat (ntt (sk.s2 i))
  let z : VecL := fun j => polyAdd (y j) (cs1 j)
  let r0 : VecK := fun i => (polySub (w i) (cs2 i)).map lowBitsOf
  if maxNorm normInf z ≥ gamma1 - beta ∨ maxNorm infinityLow r0 ≥ gamma2 - beta then return none
  let ct0 : VecK := fun i => challengeMul cHat (ntt (sk.t0 i))
  let hint := hintOf w cs2 ct0
  if maxNorm normInf ct0 ≥ gamma2 ∨ ones hint > omega then return none
  return some (sigEncode cTilde z hint)

/-- Tries until one gives a signature; `kappa` wraps as a 16-bit counter does. -/
def signLoop (a : Fin 6 → VecL) (sk : SecretKey) (mu rhoPP : Bytes) : ℕ → UInt16 → Option Bytes
  | 0, _ => none
  | tries + 1, kappa => do
    match ← attempt S fuel a sk mu rhoPP kappa with
    | some sig => return sig
    | none => signLoop a sk mu rhoPP tries (kappa + 5)

/-- The representative of a message under a key. -/
def messageHash (tr message : Bytes) : Bytes := h S [tr, [0, 0] ++ message] 64

def sign (tries : ℕ) (secretKey message : Bytes) : Option Bytes := do
  let sk ← skDecode secretKey
  let a ← expandA S fuel sk.rho
  let mu := messageHash S sk.tr message
  let rhoPP := h S [sk.kSeed, List.replicate 32 0, mu] 64
  signLoop S fuel a sk mu rhoPP tries 0

/-- `w = A z - c t1 2 ^ 13`, which the hints correct. -/
def approximation (a : Fin 6 → VecL) (z : VecL) (cHat : Poly) (t1 : VecK) : VecK :=
  fun i => invNtt (polySub (rowMul (a i) fun j => ntt (z j))
    (polyPointwise cHat (ntt ((t1 i).map fun x => mulMod x (2 ^ 13)))))

def verify (publicKey message signature : Bytes) : Option Bool := do
  if publicKey.length ≠ 1952 ∨ signature.length ≠ 3309 then return false
  let (rho, t1) ← pkDecode publicKey
  match ← sigDecode signature with
  | none => return false
  | some (cTilde, z, hint) =>
    if maxNorm normInf z ≥ gamma1 - beta then return false
    let a ← expandA S fuel rho
    let mu := messageHash S (h S [publicKey] 64) message
    let c ← sampleInBall S fuel cTilde
    let approx := approximation a z (ntt c) t1
    let w1 : VecK := fun i => Vector.ofFn fun j => useHint ((hint i)[j] != 0) (approx i)[j]
    return h S [mu, w1Encode w1] 48 == cTilde

end Scheme

end MlDsa

end Ciphra
