import Mathlib.Data.List.GetD
import Ciphra.Engine.Crypto

/-!
# ChaCha20-Poly1305

The stream cipher, the one-time authenticator and their composition, and the envelope that
`CipherKey` puts around it: a nonce, the ciphertext and a tag. Arithmetic is on `u32` and wraps.

The stream is xored in blocks of 64 bytes, the last one partial; xoring twice gives the data back at
every length (`xorStream_xorStream`). What the authenticator reads is `macData`: both strings padded
to whole blocks of 16 bytes, then their lengths. The lengths come last and have a fixed width, so
they say where the padding starts, and the pair can be read off (`macData_inj`). That opening accepts
exactly what sealing makes (`aead_open_seal`) holds whatever the tag is; that the tag authenticates
`macData`, under a one-time key that the message does not depend on, is stated beside it.

The engine is built on the laws of `Crypto` alone; `Crypto.chacha` shows that this envelope has them.
-/

namespace Ciphra

namespace ChaCha20

/-- The sixteen words the cipher works on. -/
abbrev State := Vector UInt32 16

def blockLen : ℕ := 64

/-- "expand 32-byte k". -/
def sigma : List UInt32 := [0x61707865, 0x3320646e, 0x79622d32, 0x6b206574]

/-- `x.rotate_left(n)`, for `n` below the width. -/
def rotateLeft (x n : UInt32) : UInt32 := (x <<< n) ||| (x >>> (32 - n))

/-- `state[i] = x`. -/
def put (s : State) (i : Fin 16) (x : UInt32) : State := s.set i x i.isLt

/-- A quarter round on the words `i`, `j`, `k` and `l`. -/
def quarterRound (s : State) (i j k l : Fin 16) : State :=
  let s := put s i (s.get i + s.get j)
  let s := put s l (rotateLeft (s.get l ^^^ s.get i) 16)
  let s := put s k (s.get k + s.get l)
  let s := put s j (rotateLeft (s.get j ^^^ s.get k) 12)
  let s := put s i (s.get i + s.get j)
  let s := put s l (rotateLeft (s.get l ^^^ s.get i) 8)
  let s := put s k (s.get k + s.get l)
  put s j (rotateLeft (s.get j ^^^ s.get k) 7)

/-- The column rounds and the diagonal rounds. -/
def doubleRound (s : State) : State :=
  let s := quarterRound s 0 4 8 12
  let s := quarterRound s 1 5 9 13
  let s := quarterRound s 2 6 10 14
  let s := quarterRound s 3 7 11 15
  let s := quarterRound s 0 5 10 15
  let s := quarterRound s 1 6 11 12
  let s := quarterRound s 2 7 8 13
  quarterRound s 3 4 9 14

/-- The little-endian word number `i`. -/
def wordAt (b : Bytes) (i : ℕ) : UInt32 := UInt32.ofNat (leNat ((b.drop (4 * i)).take 4))

/-- The constants, the key, the counter and the nonce. -/
def initial (key : ByteArr 32) (counter : UInt32) (nonce : ByteArr 12) : State :=
  Vector.ofFn fun i =>
    if i.val < 4 then sigma.getD i.val 0
    else if i.val < 12 then wordAt key.1 (i.val - 4)
    else if i.val = 12 then counter
    else wordAt nonce.1 (i.val - 13)

/-- One 64-byte keystream block. -/
def block (key : ByteArr 32) (counter : UInt32) (nonce : ByteArr 12) : Bytes :=
  let state := initial key counter nonce
  let working := doubleRound^[10] state
  (List.finRange 16).flatMap fun i => leBytes 4 (working.get i + state.get i).toNat

/-- Chunk number `i` of the data and those after it, `n` of them, each xored with its block. -/
def xorChunks (key : ByteArr 32) (nonce : ByteArr 12) (counter : UInt32) : ℕ → ℕ → Bytes → Bytes
  | 0, _, _ => []
  | n + 1, i, data =>
    List.zipWith (· ^^^ ·) (data.take blockLen) (block key (counter + UInt32.ofNat i) nonce) ++
      xorChunks key nonce counter n (i + 1) (data.drop blockLen)

/-- `data` xored with the keystream from `counter` on. -/
def xorStream (key : ByteArr 32) (nonce : ByteArr 12) (counter : UInt32) (data : Bytes) : Bytes :=
  xorChunks key nonce counter ((data.length + 63) / blockLen) 0 data

theorem length_block (key : ByteArr 32) (counter : UInt32) (nonce : ByteArr 12) :
    (block key counter nonce).length = blockLen := by
  rw [block, List.length_flatMap]
  simp [length_leBytes, blockLen]

/-- Xoring with the same bytes twice changes nothing. -/
theorem zipWith_xor_cancel (a k : Bytes) (h : a.length ≤ k.length) :
    List.zipWith (· ^^^ ·) (List.zipWith (· ^^^ ·) a k) k = a := by
  induction a generalizing k with
  | nil => rfl
  | cons x a ih =>
    obtain ⟨y, k, rfl⟩ := List.exists_cons_of_length_pos (lt_of_lt_of_le (Nat.succ_pos _) h)
    rw [List.zipWith_cons_cons, List.zipWith_cons_cons, ih k (by simpa using h), UInt8.xor_assoc,
      UInt8.xor_self, UInt8.xor_zero]

variable {key : ByteArr 32} {nonce : ByteArr 12} {counter : UInt32}

theorem length_xored (data : Bytes) (i : UInt32) :
    (List.zipWith (· ^^^ ·) (data.take blockLen) (block key i nonce)).length =
      (data.take blockLen).length := by
  rw [List.length_zipWith, length_block, List.length_take]
  omega

theorem length_xorChunks (n i : ℕ) (data : Bytes) (h : data.length ≤ blockLen * n) :
    (xorChunks key nonce counter n i data).length = data.length := by
  induction n generalizing i data with
  | zero =>
    rw [xorChunks, List.length_nil]
    omega
  | succ n ih =>
    have hrest : (data.drop blockLen).length ≤ blockLen * n := by
      rw [List.length_drop]
      rw [Nat.mul_succ] at h
      omega
    rw [xorChunks, List.length_append, length_xored, ih _ _ hrest, ← List.length_append,
      List.take_append_drop]

/-- The blocks of the result are the blocks of the data, each xored with its block of the stream. -/
theorem xorChunks_xorChunks (n i : ℕ) (data : Bytes) (h : data.length ≤ blockLen * n) :
    xorChunks key nonce counter n i (xorChunks key nonce counter n i data) = data := by
  induction n generalizing i data with
  | zero =>
    rw [xorChunks, List.length_eq_zero_iff.mp (Nat.le_zero.mp h)]
  | succ n ih =>
    have hrest : (data.drop blockLen).length ≤ blockLen * n := by
      rw [List.length_drop]
      rw [Nat.mul_succ] at h
      omega
    set xored := List.zipWith (· ^^^ ·) (data.take blockLen)
      (block key (counter + UInt32.ofNat i) nonce) with hxored
    have hlen : xored.length = (data.take blockLen).length := length_xored _ _
    have hcancel : List.zipWith (· ^^^ ·) xored (block key (counter + UInt32.ofNat i) nonce) =
        data.take blockLen :=
      zipWith_xor_cancel _ _ (by rw [length_block]; exact List.length_take_le _ _)
    -- a partial block is the last one
    rcases le_or_gt blockLen data.length with hfull | hpartial
    · have hxlen : xored.length = blockLen := by rw [hlen, List.length_take_of_le hfull]
      rw [xorChunks, xorChunks, ← hxored, List.take_left' hxlen, List.drop_left' hxlen, hcancel,
        ih _ _ hrest, List.take_append_drop]
    · have hnil : data.drop blockLen = [] := List.drop_eq_nil_of_le (by omega)
      have hempty : ∀ m j, xorChunks key nonce counter m j [] = [] := fun m j =>
        List.length_eq_zero_iff.mp (length_xorChunks m j [] (Nat.zero_le _))
      have hxlen : xored.length ≤ blockLen := by
        rw [hlen]
        exact List.length_take_le _ _
      rw [xorChunks, xorChunks, ← hxored, hnil, hempty, List.append_nil,
        List.take_of_length_le hxlen, List.drop_eq_nil_of_le hxlen, hcancel, hempty,
        List.append_nil, List.take_of_length_le (by omega)]

theorem length_le_chunks (data : Bytes) :
    data.length ≤ blockLen * ((data.length + 63) / blockLen) := by
  rw [blockLen]
  omega

@[simp]
theorem length_xorStream (data : Bytes) :
    (xorStream key nonce counter data).length = data.length :=
  length_xorChunks _ _ _ (length_le_chunks data)

/-- The cipher is an involution, at every length. -/
theorem xorStream_xorStream (data : Bytes) :
    xorStream key nonce counter (xorStream key nonce counter data) = data := by
  rw [xorStream, length_xorStream]
  exact xorChunks_xorChunks _ _ _ (length_le_chunks data)

/-- The block of the standard's first test vector. -/
example : (block ⟨(List.range 32).map UInt8.ofNat, by simp⟩ 1
    ⟨[0, 0, 0, 9, 0, 0, 0, 0x4a, 0, 0, 0, 0], rfl⟩).take 8 =
      [0x10, 0xf1, 0xe7, 0xe4, 0xd1, 0x3b, 0x59, 0x15] := by
  decide +kernel

end ChaCha20

namespace Poly1305

/-- Seventeen base-256 limbs. -/
abbrev Limbs := Vector UInt32 17

/-- `h[i] = x`. -/
def put (h : Limbs) (i : Fin 17) (x : UInt32) : Limbs := h.set i x i.isLt

/-- One limb of a sum: the carry so far and what `extra` adds. -/
def carryLimb (acc : UInt32 × Limbs) (i : Fin 17) (extra : UInt32) : UInt32 × Limbs :=
  let carry := acc.1 + extra
  (carry >>> 8, put acc.2 i (carry &&& 255))

/-- `h += x`, carrying as we go. -/
def add (h x : Limbs) : Limbs :=
  ((List.finRange 17).foldl (fun acc i => carryLimb acc i (acc.2.get i + x.get i)) (0, h)).2

/-- Limb `i` of the product, with what overflows position 16 wrapped around. -/
def productLimb (h r : Limbs) (i : Fin 17) : UInt32 :=
  (List.finRange 17).foldl (fun sum j => sum + h.get j *
    (if j ≤ i then r.get (i - j) else 320 * r.get (i - j))) 0

/-- A partial reduction pass: the top limb keeps two bits, the rest comes back times five. -/
def reducePass (x : Limbs) : Limbs :=
  let (carry, x) := ((List.finRange 17).take 16).foldl
    (fun acc i => carryLimb acc i (acc.2.get i)) (0, x)
  let carry := carry + x.get 16
  let x := put x 16 (carry &&& 3)
  put x 0 (x.get 0 + (5 : UInt32) * (carry >>> 2))

/-- `h = (h * r) mod 2^130 - 5`, up to a last subtraction. -/
def mulMod (h r : Limbs) : Limbs :=
  let x := reducePass (reducePass (Vector.ofFn (productLimb h r)))
  ((List.finRange 17).foldl (fun acc i => carryLimb acc i (acc.2.get i)) (0, x)).2

/-- The first half of the key, clamped. -/
def clamp (key : Bytes) : Limbs := Vector.ofFn fun i =>
  let x := if i.val < 16 then (key.getD i.val 0).toUInt32 else 0
  if i.val = 3 ∨ i.val = 7 ∨ i.val = 11 ∨ i.val = 15 then x &&& 15
  else if i.val = 4 ∨ i.val = 8 ∨ i.val = 12 then x &&& 252
  else x

/-- A block of the message with the byte 1 appended. -/
def blockLimbs (chunk : Bytes) : Limbs := Vector.ofFn fun i =>
  if i.val = chunk.length then 1 else (chunk.getD i.val 0).toUInt32

/-- The loop over `n` blocks of 16 bytes, the last of them possibly partial. -/
def absorb (r : Limbs) : ℕ → Limbs → Bytes → Limbs
  | 0, h, _ => h
  | n + 1, h, rest => absorb r n (mulMod (add h (blockLimbs (rest.take 16))) r) (rest.drop 16)

/-- The modulus, negated. -/
def minusP : Limbs := Vector.ofFn fun i => if i.val = 0 then 5 else if i.val = 16 then 252 else 0

/-- `h` or `h - p`, whichever is reduced. -/
def freeze (g : Limbs) : Limbs :=
  let h := add g minusP
  let mask := (0 : UInt32) - (h.get 16 >>> 7)
  Vector.ofFn fun i => h.get i ^^^ (mask &&& (g.get i ^^^ h.get i))

/-- The tag of `message` under a one-time key. -/
def poly1305 (message key : Bytes) : ByteArr 16 :=
  let h := freeze (absorb (clamp key) ((message.length + 15) / 16) (Vector.replicate 17 0) message)
  let s := Vector.ofFn fun i : Fin 17 =>
    if i.val < 16 then (key.getD (16 + i.val) 0).toUInt32 else 0
  ⟨((add h s).toList.take 16).map UInt32.toUInt8, by simp⟩

/-- Comparison of tags in constant time. -/
def tagsEqual (a b : ByteArr 16) : Bool :=
  (List.range 16).foldl (fun diff i => diff ||| (a.1.getD i 0 ^^^ b.1.getD i 0)) 0 == 0

theorem or_eq_zero {x y : UInt8} : x ||| y = 0 ↔ x = 0 ∧ y = 0 := by
  rw [← UInt8.toBitVec_inj, UInt8.toBitVec_or, UInt8.toBitVec_zero, BitVec.or_eq_zero_iff,
    ← UInt8.toBitVec_zero, UInt8.toBitVec_inj, UInt8.toBitVec_inj]

theorem foldl_or_eq_zero (f : ℕ → UInt8) (l : List ℕ) (diff : UInt8) :
    l.foldl (fun diff i => diff ||| f i) diff = 0 ↔ diff = 0 ∧ ∀ i ∈ l, f i = 0 := by
  induction l generalizing diff with
  | nil => simp
  | cons i l ih => rw [List.foldl_cons, ih, or_eq_zero, List.forall_mem_cons, and_assoc]

@[simp]
theorem tagsEqual_iff {a b : ByteArr 16} : tagsEqual a b = true ↔ a = b := by
  rw [tagsEqual, beq_iff_eq, foldl_or_eq_zero]
  constructor
  · rintro ⟨-, h⟩
    refine Subtype.ext (List.ext_getElem (a.2.trans b.2.symm) fun i hi hi' => ?_)
    have hxor := h i (List.mem_range.mpr (a.2 ▸ hi))
    rw [UInt8.xor_eq_zero_iff] at hxor
    rwa [List.getD_eq_getElem _ _ hi, List.getD_eq_getElem _ _ hi'] at hxor
  · rintro rfl
    exact ⟨rfl, fun i _ => UInt8.xor_self⟩

/-- The standard's test vector. -/
example : poly1305 (utf8 "Cryptographic Forum Research Group")
    [0x85, 0xd6, 0xbe, 0x78, 0x57, 0x55, 0x6d, 0x33, 0x7f, 0x44, 0x52, 0xfe, 0x42, 0xd5, 0x06, 0xa8,
      0x01, 0x03, 0x80, 0x8a, 0xfb, 0x0d, 0xb2, 0xfd, 0x4a, 0xbf, 0xf6, 0xaf, 0x41, 0x49, 0xf5, 0x1b] =
    ⟨[0xa8, 0x06, 0x1d, 0xc1, 0x30, 0x51, 0x36, 0xc6, 0xc2, 0x2b, 0x8b, 0xaf, 0x0c, 0x01, 0x27, 0xa9],
      rfl⟩ := by
  decide +kernel

end Poly1305

namespace Aead

open ChaCha20 Poly1305

def tagLen : ℕ := 16

/-- A vector resized to the next multiple of 16, with zeros. -/
def padded (b : Bytes) : Bytes := b ++ List.replicate ((b.length + 15) / 16 * 16 - b.length) 0

/-- The string that is authenticated. -/
def macData (aad ciphertext : Bytes) : Bytes :=
  padded (padded aad ++ ciphertext) ++ leBytes 8 aad.length ++ leBytes 8 ciphertext.length

/-- The tag, under a one-time key from keystream block 0. -/
def computeTag (key : ByteArr 32) (nonce : ByteArr 12) (ciphertext aad : Bytes) : ByteArr 16 :=
  poly1305 (macData aad ciphertext) ((ChaCha20.block key 0 nonce).take 32)

/-- `ciphertext || tag`. -/
def sealWith (key : ByteArr 32) (nonce : ByteArr 12) (plaintext aad : Bytes) : Bytes :=
  let out := xorStream key nonce 1 plaintext
  out ++ (computeTag key nonce out aad).1

/-- The last 16 bytes, which are compared with the tag. -/
def expectedTag (sealed : Bytes) (h : ¬ sealed.length < tagLen) : ByteArr 16 :=
  ⟨sealed.drop (sealed.length - tagLen), by
    rw [tagLen] at h ⊢
    rw [List.length_drop]
    omega⟩

/-- Verify and decrypt `ciphertext || tag`. -/
def openSealed (key : ByteArr 32) (nonce : ByteArr 12) (sealed aad : Bytes) : Option Bytes :=
  if h : sealed.length < tagLen then none
  else
    let ciphertext := sealed.take (sealed.length - tagLen)
    let actual := computeTag key nonce ciphertext aad
    if tagsEqual actual (expectedTag sealed h) then some (xorStream key nonce 1 ciphertext) else none

theorem prefix_padded (b : Bytes) : (padded b).take b.length = b := List.take_left' rfl

theorem length_padded (b : Bytes) : (padded b).length = (b.length + 15) / 16 * 16 := by
  rw [padded, List.length_append, List.length_replicate]
  omega

/-- The pair can be read off the string, for every two slices: the two lengths at its end say where
the padding starts. -/
theorem macData_inj {aad aad' ciphertext ciphertext' : Bytes} (ha : aad.length < 2 ^ 64)
    (ha' : aad'.length < 2 ^ 64) (hc : ciphertext.length < 2 ^ 64)
    (hc' : ciphertext'.length < 2 ^ 64)
    (h : macData aad ciphertext = macData aad' ciphertext') :
    aad = aad' ∧ ciphertext = ciphertext' := by
  obtain ⟨h, hlenC⟩ := List.append_inj' h (by simp only [length_leBytes])
  obtain ⟨h, hlenA⟩ := List.append_inj' h (by simp only [length_leBytes])
  have hlenA := (leBytes_inj (w := 8) ha ha').mp hlenA
  have hlenC := (leBytes_inj (w := 8) hc hc').mp hlenC
  -- without the padding of the whole
  have hbody := congrArg (List.take (padded aad ++ ciphertext).length) h
  have hlen : (padded aad ++ ciphertext).length = (padded aad' ++ ciphertext').length := by
    rw [List.length_append, List.length_append, length_padded, length_padded, hlenA, hlenC]
  rw [prefix_padded, hlen, prefix_padded] at hbody
  obtain ⟨hpad, hct⟩ := List.append_inj' hbody hlenC
  have haad := congrArg (List.take aad.length) hpad
  rw [prefix_padded, hlenA, prefix_padded] at haad
  exact ⟨haad, hct⟩

@[simp]
theorem length_sealWith (key : ByteArr 32) (nonce : ByteArr 12) (plaintext aad : Bytes) :
    (sealWith key nonce plaintext aad).length = plaintext.length + tagLen := by
  rw [sealWith, List.length_append, length_xorStream, (computeTag key nonce _ aad).2, tagLen]

/-- Opening reads a ciphertext and its tag, whatever the string. -/
theorem openSealed_append (key : ByteArr 32) (nonce : ByteArr 12) (ciphertext aad : Bytes)
    (tag : ByteArr 16) :
    openSealed key nonce (ciphertext ++ tag.1) aad =
      if computeTag key nonce ciphertext aad = tag then some (xorStream key nonce 1 ciphertext)
      else none := by
  have hlen : (ciphertext ++ tag.1).length - tagLen = ciphertext.length := by
    rw [List.length_append, tag.2, tagLen]
    omega
  have hlong : ¬ (ciphertext ++ tag.1).length < tagLen := by
    rw [List.length_append, tag.2, tagLen]
    omega
  have htag : expectedTag (ciphertext ++ tag.1) hlong = tag :=
    Subtype.ext (List.drop_left' hlen.symm)
  rw [openSealed, dif_neg hlong, htag, List.take_left' hlen.symm]
  simp only [tagsEqual_iff]

/-- **Opening accepts exactly the image of sealing.** -/
theorem openSealed_eq_some_iff (key : ByteArr 32) (nonce : ByteArr 12)
    (sealed aad plaintext : Bytes) :
    openSealed key nonce sealed aad = some plaintext ↔ sealed = sealWith key nonce plaintext aad := by
  constructor
  · intro h
    have hlong : ¬ sealed.length < tagLen := by
      intro hshort
      rw [openSealed, dif_pos hshort] at h
      cases h
    have hsplit : sealed = sealed.take (sealed.length - tagLen) ++ (expectedTag sealed hlong).1 :=
      (List.take_append_drop _ _).symm
    rw [hsplit, openSealed_append] at h
    split at h
    · rename_i htag
      rw [sealWith, ← Option.some.inj h, xorStream_xorStream, htag]
      exact hsplit
    · cases h
  · rintro rfl
    rw [sealWith, openSealed_append, if_pos rfl, xorStream_xorStream]

end Aead

/-! ## Envelopes -/

namespace CipherKey

def nonceLen : ℕ := 12

/-- `seal`, with the nonce that it draws. -/
def sealWith (key : ByteArr 32) (nonce : ByteArr 12) (plaintext aad : Bytes) : Bytes :=
  nonce.1 ++ Aead.sealWith key nonce plaintext aad

/-- The first 12 bytes. -/
def nonceOf (sealed : Bytes) (h : ¬ sealed.length < nonceLen + Aead.tagLen) : ByteArr 12 :=
  ⟨sealed.take nonceLen, by
    rw [nonceLen] at h ⊢
    rw [List.length_take]
    omega⟩

def openSealed (key : ByteArr 32) (sealed aad : Bytes) : Option Bytes :=
  if h : sealed.length < nonceLen + Aead.tagLen then none
  else Aead.openSealed key (nonceOf sealed h) (sealed.drop nonceLen) aad

theorem length_sealWith (key : ByteArr 32) (nonce : ByteArr 12) (plaintext aad : Bytes) :
    (sealWith key nonce plaintext aad).length = plaintext.length + 28 := by
  rw [sealWith, List.length_append, nonce.2, Aead.length_sealWith, Aead.tagLen]
  omega

/-- An envelope is opened with the nonce it holds. -/
theorem openSealed_sealWith (key : ByteArr 32) (nonce : ByteArr 12) (plaintext aad : Bytes) :
    openSealed key (sealWith key nonce plaintext aad) aad = some plaintext := by
  have hlong : ¬ (sealWith key nonce plaintext aad).length < nonceLen + Aead.tagLen := by
    rw [length_sealWith, nonceLen, Aead.tagLen]
    omega
  have hnonce : nonceOf (sealWith key nonce plaintext aad) hlong = nonce :=
    Subtype.ext (List.take_left' nonce.2)
  rw [openSealed, dif_neg hlong, hnonce, sealWith, nonceLen, List.drop_left' nonce.2]
  exact (Aead.openSealed_eq_some_iff _ _ _ _ _).mpr rfl

end CipherKey

/-- A slice: no allocation holds more than `isize::MAX` bytes. -/
abbrev Slice := { b : Bytes // b.length < 2 ^ 63 }

/-- **Authenticated encryption.** For every key, nonce and associated data, opening accepts exactly
the image of sealing, with the plaintext that was sealed. The tag behind the ciphertext authenticates
`macData` under the first half of keystream block 0, and different pairs of slices are authenticated
as different strings. An envelope opens to what was put in it. -/
theorem aead_open_seal (key : ByteArr 32) (nonce : ByteArr 12) (sealed plaintext aad : Bytes) :
    (Aead.openSealed key nonce sealed aad = some plaintext ↔
      sealed = Aead.sealWith key nonce plaintext aad) ∧
    (∃ ciphertext, ciphertext.length = plaintext.length ∧
      Aead.sealWith key nonce plaintext aad =
        ciphertext ++ (Aead.computeTag key nonce ciphertext aad).1) ∧
    (∀ ciphertext, Aead.computeTag key nonce ciphertext aad =
      Poly1305.poly1305 (Aead.macData aad ciphertext) ((ChaCha20.block key 0 nonce).take 32)) ∧
    (Function.Injective fun p : Slice × Slice => Aead.macData p.1.1 p.2.1) ∧
    CipherKey.openSealed key (CipherKey.sealWith key nonce plaintext aad) aad = some plaintext := by
  refine ⟨Aead.openSealed_eq_some_iff key nonce sealed aad plaintext,
    ⟨ChaCha20.xorStream key nonce 1 plaintext, ChaCha20.length_xorStream plaintext, rfl⟩,
    fun ciphertext => rfl, ?_, CipherKey.openSealed_sealWith key nonce plaintext aad⟩
  have hlt : ∀ b : Slice, b.1.length < 2 ^ 64 := fun b => b.2.trans (by norm_num)
  rintro ⟨aad, ciphertext⟩ ⟨aad', ciphertext'⟩ h
  obtain ⟨haad, hct⟩ := Aead.macData_inj (hlt aad) (hlt aad') (hlt ciphertext) (hlt ciphertext') h
  rw [Subtype.ext haad, Subtype.ext hct]

/-- The engine's cryptography with this envelope, whatever the key derivation and the hashes. -/
def Crypto.chacha (MasterKey : Type) (derive : KdfParams → String → Bytes → MasterKey)
    (deriveKey : MasterKey → String → ByteArr 32)
    (keyedTag : MasterKey → String → Bytes → ByteArr 32) (sha256 : Bytes → ByteArr 32) : Crypto where
  MasterKey := MasterKey
  CipherKey := ByteArr 32
  Nonce := ByteArr 12
  derive := derive
  deriveKey := deriveKey
  keyedTag mk purpose data := (keyedTag mk purpose data).1
  sealWith := CipherKey.sealWith
  openSealed := CipherKey.openSealed
  sha256 data := (sha256 data).1
  length_keyedTag mk purpose data := (keyedTag mk purpose data).2
  length_sha256 data := (sha256 data).2
  length_sealWith := CipherKey.length_sealWith
  openSealed_sealWith := CipherKey.openSealed_sealWith

end Ciphra
