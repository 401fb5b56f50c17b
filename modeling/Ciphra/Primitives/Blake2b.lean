import Ciphra.Foundations.Limbs
import Ciphra.Primitives.Sha256

/-!
# BLAKE2b

The streaming hash keeps a full buffer until more data follows, since the last block goes through the
compression function with a flag of its own. Next to it stands the hash of RFC 7693, unkeyed, on the
whole message: words are vectors of 64 bits, the working vector has sixteen of them by its type, and
the initialization vector is computed from the square roots of the first primes. `Blake2b.g_eq`,
`Blake2b.round_eq` and `Blake2b.compress_eq` tie the program's functions to those of the standard.
Whatever the pieces a message comes in, `finalize` returns its hash (`Blake2b.finalize_updates`).
-/

namespace Ciphra

namespace Blake2b

/-! ## The program -/

def IV : List UInt64 :=
  [0x6a09e667f3bcc908, 0xbb67ae8584caa73b, 0x3c6ef372fe94f82b, 0xa54ff53a5f1d36f1,
   0x510e527fade682d1, 0x9b05688c2b3e6c1f, 0x1f83d9abfb41bd6b, 0x5be0cd19137e2179]

def SIGMA : List (List ℕ) :=
  [[0, 1, 2, 3, 4, 5, 6, 7, 8, 9, 10, 11, 12, 13, 14, 15],
   [14, 10, 4, 8, 9, 15, 13, 6, 1, 12, 0, 2, 11, 7, 5, 3],
   [11, 8, 12, 0, 5, 2, 15, 13, 10, 14, 3, 6, 7, 1, 9, 4],
   [7, 9, 3, 1, 13, 12, 11, 14, 2, 6, 5, 10, 4, 0, 15, 8],
   [9, 0, 5, 7, 2, 4, 10, 15, 14, 1, 11, 12, 6, 8, 3, 13],
   [2, 12, 6, 10, 0, 11, 8, 3, 4, 13, 7, 5, 15, 14, 1, 9],
   [12, 5, 1, 15, 14, 13, 4, 10, 0, 7, 6, 3, 9, 2, 8, 11],
   [13, 11, 7, 14, 12, 1, 3, 9, 5, 0, 15, 4, 8, 6, 2, 10],
   [6, 15, 14, 9, 11, 3, 0, 8, 12, 2, 13, 7, 1, 4, 10, 5],
   [10, 2, 8, 4, 7, 6, 1, 5, 15, 11, 9, 14, 3, 12, 13, 0]]

def rotateRight (x n : UInt64) : UInt64 := (x >>> n) ||| (x <<< (64 - n))

/-- The `i`-th little-endian word. -/
def wordAt (block : Bytes) (i : ℕ) : UInt64 := UInt64.ofNat (leNat (blockAt 8 block i))

def g (v : List UInt64) (a b c d : ℕ) (x y : UInt64) : List UInt64 :=
  let v := v.set a (v.getD a 0 + v.getD b 0 + x)
  let v := v.set d (rotateRight (v.getD d 0 ^^^ v.getD a 0) 32)
  let v := v.set c (v.getD c 0 + v.getD d 0)
  let v := v.set b (rotateRight (v.getD b 0 ^^^ v.getD c 0) 24)
  let v := v.set a (v.getD a 0 + v.getD b 0 + y)
  let v := v.set d (rotateRight (v.getD d 0 ^^^ v.getD a 0) 16)
  let v := v.set c (v.getD c 0 + v.getD d 0)
  v.set b (rotateRight (v.getD b 0 ^^^ v.getD c 0) 63)

def round (m v : List UInt64) (i : ℕ) : List UInt64 :=
  let s := SIGMA.getD (i % 10) []
  let word := fun j => m.getD (s.getD j 0) 0
  let v := g v 0 4 8 12 (word 0) (word 1)
  let v := g v 1 5 9 13 (word 2) (word 3)
  let v := g v 2 6 10 14 (word 4) (word 5)
  let v := g v 3 7 11 15 (word 6) (word 7)
  let v := g v 0 5 10 15 (word 8) (word 9)
  let v := g v 1 6 11 12 (word 10) (word 11)
  let v := g v 2 7 8 13 (word 12) (word 13)
  g v 3 4 9 14 (word 14) (word 15)

/-- `h[i] ^= v[i] ^ v[i + 8]`. -/
def feedForward (h v : List UInt64) : List UInt64 :=
  (List.range 8).map fun i => h.getD i 0 ^^^ (v.getD i 0 ^^^ v.getD (i + 8) 0)

def compress (h : List UInt64) (t : BitVec 128) (block : Bytes) (last : Bool) : List UInt64 :=
  let m := (List.range 16).map (wordAt block)
  let v := h ++ IV
  let v := v.set 12 (v.getD 12 0 ^^^ ⟨t.setWidth 64⟩)
  let v := v.set 13 (v.getD 13 0 ^^^ ⟨(t >>> 64).setWidth 64⟩)
  let v := if last then v.set 14 (~~~v.getD 14 0) else v
  feedForward h ((List.range 12).foldl (round m) v)

/-- The words, little-endian. -/
def outBytes (h : List UInt64) : Bytes := h.flatMap fun w => leBytes 8 w.toNat

/-- The initial chain of a digest length. -/
def initial (outLen : ℕ) : List UInt64 :=
  IV.set 0 (IV.getD 0 0 ^^^ (0x01010000 ^^^ UInt64.ofNat outLen))

end Blake2b

/-- Streaming BLAKE2b with a digest length fixed at construction. What the buffer holds beyond
`buffered` is left over from earlier blocks. -/
structure Blake2b where
  h : List UInt64
  t : BitVec 128
  buffer : Bytes
  buffered : ℕ
  outLen : ℕ

namespace Blake2b

/-- The digest length must be in `1..=64`; with another one the program panics. -/
def new (outLen : ℕ) : Option Blake2b :=
  if 1 ≤ outLen ∧ outLen ≤ 64 then
    some ⟨initial outLen, 0, List.replicate 128 0, 0, outLen⟩
  else none

/-- Only flush a full buffer when more input follows: the final block must go through the `last`
path of `finalize`. -/
def flushFull (s : Blake2b) : Blake2b :=
  if s.buffered = 128 then
    { s with t := s.t + 128, h := compress s.h (s.t + 128) s.buffer false, buffered := 0 }
  else s

/-- The loop of `update`; every round takes some of the data, so its length is fuel enough. -/
def feed : ℕ → Blake2b → Bytes → Blake2b
  | 0, s, _ => s
  | fuel + 1, s, data =>
    if data = [] then s
    else
      let s := flushFull s
      let take := min (128 - s.buffered) data.length
      feed fuel { s with
        buffer := overwrite s.buffer s.buffered (data.take take)
        buffered := s.buffered + take } (data.drop take)

def update (s : Blake2b) (data : Bytes) : Blake2b := feed data.length s data

def finalize (s : Blake2b) : Bytes :=
  let t := s.t + BitVec.ofNat 128 s.buffered
  let block := s.buffer.take s.buffered ++ List.replicate (128 - s.buffered) 0
  (outBytes (compress s.h t block true)).take s.outLen

end Blake2b

/-- One-shot BLAKE2b. -/
def blake2b (outLen : ℕ) (data : Bytes) : Option Bytes :=
  (Blake2b.new outLen).map fun s => (s.update data).finalize

/-! ## The standard -/

namespace Rfc7693

abbrev Word64 := BitVec 64

/-- The first 64 bits of the fractional part of the square root of a prime. -/
def IV (i : ℕ) : Word64 := BitVec.ofNat 64 (rootFraction 2 64 (Fips180.primes.getD i 0))

/-- The message word that goes into a step of a round; rounds ten and eleven use the first two
schedules again. -/
def SIGMA : Vector (Vector ℕ 16) 12 :=
  #v[#v[0, 1, 2, 3, 4, 5, 6, 7, 8, 9, 10, 11, 12, 13, 14, 15],
    #v[14, 10, 4, 8, 9, 15, 13, 6, 1, 12, 0, 2, 11, 7, 5, 3],
    #v[11, 8, 12, 0, 5, 2, 15, 13, 10, 14, 3, 6, 7, 1, 9, 4],
    #v[7, 9, 3, 1, 13, 12, 11, 14, 2, 6, 5, 10, 4, 0, 15, 8],
    #v[9, 0, 5, 7, 2, 4, 10, 15, 14, 1, 11, 12, 6, 8, 3, 13],
    #v[2, 12, 6, 10, 0, 11, 8, 3, 4, 13, 7, 5, 15, 14, 1, 9],
    #v[12, 5, 1, 15, 14, 13, 4, 10, 0, 7, 6, 3, 9, 2, 8, 11],
    #v[13, 11, 7, 14, 12, 1, 3, 9, 5, 0, 15, 4, 8, 6, 2, 10],
    #v[6, 15, 14, 9, 11, 3, 0, 8, 12, 2, 13, 7, 1, 4, 10, 5],
    #v[10, 2, 8, 4, 7, 6, 1, 5, 15, 11, 9, 14, 3, 12, 13, 0],
    #v[0, 1, 2, 3, 4, 5, 6, 7, 8, 9, 10, 11, 12, 13, 14, 15],
    #v[14, 10, 4, 8, 9, 15, 13, 6, 1, 12, 0, 2, 11, 7, 5, 3]]

/-- The mixing function, at four indices of the working vector. -/
def G (v : Vector Word64 16) (a b c d : ℕ) (x y : Word64) : Vector Word64 16 :=
  let v := v.set! a (v[a]! + v[b]! + x)
  let v := v.set! d ((v[d]! ^^^ v[a]!).rotateRight 32)
  let v := v.set! c (v[c]! + v[d]!)
  let v := v.set! b ((v[b]! ^^^ v[c]!).rotateRight 24)
  let v := v.set! a (v[a]! + v[b]! + y)
  let v := v.set! d ((v[d]! ^^^ v[a]!).rotateRight 16)
  let v := v.set! c (v[c]! + v[d]!)
  v.set! b ((v[b]! ^^^ v[c]!).rotateRight 63)

/-- A round: the columns are mixed, then the diagonals. -/
def round (m : ℕ → Word64) (v : Vector Word64 16) (s : Vector ℕ 16) : Vector Word64 16 :=
  let v := G v 0 4 8 12 (m s[0]!) (m s[1]!)
  let v := G v 1 5 9 13 (m s[2]!) (m s[3]!)
  let v := G v 2 6 10 14 (m s[4]!) (m s[5]!)
  let v := G v 3 7 11 15 (m s[6]!) (m s[7]!)
  let v := G v 0 5 10 15 (m s[8]!) (m s[9]!)
  let v := G v 1 6 11 12 (m s[10]!) (m s[11]!)
  let v := G v 2 7 8 13 (m s[12]!) (m s[13]!)
  G v 3 4 9 14 (m s[14]!) (m s[15]!)

/-- The compression function: `t` is the number of bytes so far, `f` marks the final block. -/
def F (h : Vector Word64 8) (m : ℕ → Word64) (t : ℕ) (f : Bool) : Vector Word64 8 :=
  let v : Vector Word64 16 := Vector.ofFn fun i => if i.1 < 8 then h[i.1]! else IV (i - 8)
  let v := v.set! 12 (v[12]! ^^^ BitVec.ofNat 64 t)
  let v := v.set! 13 (v[13]! ^^^ BitVec.ofNat 64 (t / 2 ^ 64))
  let v := if f then v.set! 14 (v[14]! ^^^ BitVec.allOnes 64) else v
  let v := SIGMA.foldl (round m) v
  Vector.ofFn fun i => h[i.1]! ^^^ v[i.1]! ^^^ v[i.1 + 8]!

/-- A word of a block, least significant byte first. Past the end of the message there are zeros. -/
def word (m : Bytes) (block i : ℕ) : Word64 :=
  BitVec.ofNat 64 (∑ k ∈ Finset.range 8, (m.getD (128 * block + 8 * i + k) 0).toNat * 256 ^ k)

/-- The number of blocks: one for the empty message. -/
def blockCount (m : Bytes) : ℕ := max 1 ((m.length + 127) / 128)

/-- The initial chain, with the parameters of an unkeyed hash. -/
def initial (outLen : ℕ) : Vector Word64 8 :=
  let h : Vector Word64 8 := Vector.ofFn fun i => IV i
  h.set! 0 (h[0]! ^^^ 0x01010000 ^^^ BitVec.ofNat 64 outLen)

/-- The chain after all blocks but the last. -/
def chain (outLen : ℕ) (m : Bytes) : Vector Word64 8 :=
  (List.range (blockCount m - 1)).foldl (fun h i => F h (word m i) ((i + 1) * 128) false)
    (initial outLen)

/-- The unkeyed hash of a message: the first `outLen` bytes of the chain, least significant byte of
a word first. -/
def hash (outLen : ℕ) (m : Bytes) : Bytes :=
  let h := F (chain outLen m) (word m (blockCount m - 1)) m.length true
  (List.range outLen).map fun n => UInt8.ofNat ((h.toList.getD (n / 8) 0 >>> (8 * (n % 8))).toNat)

end Rfc7693

namespace Blake2b

open Rfc7693 (Word64)

/-! ## Words -/

/-- The words of a vector. -/
def words {n : ℕ} (v : Vector Word64 n) : List UInt64 := v.toList.map UInt64.ofBitVec

section

variable {n : ℕ} (v : Vector Word64 n)

@[simp] theorem length_words : (words v).length = n := by
  rw [words, List.length_map, Vector.length_toList]

theorem words_getD (i : ℕ) : (words v).getD i 0 = ⟨v[i]!⟩ := by
  rcases Nat.lt_or_ge i n with hi | hi
  · rw [List.getD_eq_getElem _ _ ((length_words v).symm ▸ hi), getElem!_pos v i hi]
    simp only [words, List.getElem_map, Vector.getElem_toList]
  · rw [List.getD_eq_default _ _ ((length_words v).symm ▸ hi),
      getElem!_neg v i (Nat.not_lt.mpr hi)]
    rfl

theorem words_set (i : ℕ) (x : Word64) : (words v).set i ⟨x⟩ = words (v.set! i x) := by
  rw [words, words, Vector.toList_set!, List.map_set]

/-- A list of words is that of a vector if it has the words of the vector. -/
theorem eq_words {l : List UInt64} (hlen : l.length = n)
    (h : ∀ i (hi : i < n), l.getD i 0 = ⟨v[i]⟩) : l = words v := by
  refine List.ext_getElem (by rw [hlen, length_words]) fun i hi hi' => ?_
  rw [← List.getD_eq_getElem _ 0 hi, ← List.getD_eq_getElem _ 0 hi', h i (hlen ▸ hi),
    words_getD, getElem!_pos v i (hlen ▸ hi)]

end

/-- A byte of a word. -/
theorem getD_leBytes {w i : ℕ} (h : i < w) (n : ℕ) :
    (leBytes w n).getD i 0 = UInt8.ofNat (n / 256 ^ i) := by
  induction w generalizing i n with
  | zero => omega
  | succ w ih =>
    cases i with
    | zero => rw [leBytes, List.getD_cons_zero, pow_zero, Nat.div_one]
    | succ i => rw [leBytes, List.getD_cons_succ, ih (by omega), Nat.div_div_eq_div_mul, pow_succ']

/-- A byte of words that are written one after the other. -/
theorem getD_outBytes (h : List UInt64) (n : ℕ) :
    (outBytes h).getD n 0 = UInt8.ofNat ((h.getD (n / 8) 0).toNat / 256 ^ (n % 8)) := by
  induction h generalizing n with
  | nil =>
    rw [outBytes, List.flatMap_nil, List.getD_nil, List.getD_nil]
    simp
  | cons w h ih =>
    have hlen : (leBytes 8 w.toNat).length = 8 := length_leBytes 8 w.toNat
    rw [outBytes, List.flatMap_cons, ← outBytes]
    rcases Nat.lt_or_ge n 8 with hlt | hge
    · rw [List.getD_append _ _ _ _ (by omega), getD_leBytes hlt, Nat.div_eq_of_lt hlt,
        Nat.mod_eq_of_lt hlt, List.getD_cons_zero]
    · obtain ⟨k, rfl⟩ := Nat.exists_eq_add_of_le hge
      rw [List.getD_append_right _ _ _ _ (by omega), hlen, Nat.add_sub_cancel_left, ih,
        Nat.add_mod_left, Nat.add_comm 8 k, Nat.add_div_right k (by decide), List.getD_cons_succ]

theorem length_outBytes (h : List UInt64) : (outBytes h).length = 8 * h.length := by
  rw [outBytes, List.length_flatMap]
  simp [Nat.mul_comm]

/-! ## Constants -/

/-- The words of the program's initial vector bound the square roots of the primes. -/
theorem IV_squareRoots : ∀ i < 8, ∃ q < 8,
    (q * 2 ^ 64 + (IV.getD i 0).toNat) ^ 2 ≤ Fips180.primes.getD i 0 * 2 ^ 128 ∧
      Fips180.primes.getD i 0 * 2 ^ 128 < (q * 2 ^ 64 + (IV.getD i 0).toNat + 1) ^ 2 := by
  rw [Fips180.primes_eq]
  decide +kernel

theorem IV_eq {i : ℕ} (hi : i < 8) : IV.getD i 0 = ⟨Rfc7693.IV i⟩ := by
  obtain ⟨q, -, hle, hlt⟩ := IV_squareRoots i hi
  rw [Rfc7693.IV, rootFraction_eq (by decide) (IV.getD i 0).toNat_lt hle hlt]
  exact (UInt64.ofNat_toNat).symm

/-- The schedule of a round, as the standard has it. -/
theorem SIGMA_eq : ∀ i < 12, ∀ j < 16,
    (SIGMA.getD (i % 10) []).getD j 0 = (Rfc7693.SIGMA[i]!)[j]! ∧ (Rfc7693.SIGMA[i]!)[j]! < 16 := by
  decide

/-! ## Compression -/

theorem rotateRight_eq (x : Word64) :
    rotateRight ⟨x⟩ 32 = ⟨x.rotateRight 32⟩ ∧ rotateRight ⟨x⟩ 24 = ⟨x.rotateRight 24⟩ ∧
      rotateRight ⟨x⟩ 16 = ⟨x.rotateRight 16⟩ ∧ rotateRight ⟨x⟩ 63 = ⟨x.rotateRight 63⟩ :=
  ⟨rfl, rfl, rfl, rfl⟩

theorem ofBitVec_add (x y : Word64) : (⟨x⟩ + ⟨y⟩ : UInt64) = ⟨x + y⟩ := rfl

theorem ofBitVec_xor (x y : Word64) : (⟨x⟩ ^^^ ⟨y⟩ : UInt64) = ⟨x ^^^ y⟩ := rfl

/-- The program's mixing is that of the standard. -/
theorem g_eq (v : Vector Word64 16) (a b c d : ℕ) (x y : Word64) :
    g (words v) a b c d ⟨x⟩ ⟨y⟩ = words (Rfc7693.G v a b c d x y) := by
  simp only [g, Rfc7693.G, words_getD, words_set, ofBitVec_add, ofBitVec_xor, rotateRight_eq]

section

variable {m : ℕ → Word64} {ms : List UInt64}

/-- A round of the program is one of the standard. -/
theorem round_eq (hm : ∀ i < 16, ms.getD i 0 = ⟨m i⟩) (v : Vector Word64 16) {i : ℕ}
    (hi : i < 12) : round ms (words v) i = words (Rfc7693.round m v Rfc7693.SIGMA[i]!) := by
  have hword : ∀ j, j < 16 → ms.getD ((SIGMA.getD (i % 10) []).getD j 0) 0 =
      ⟨m (Rfc7693.SIGMA[i]!)[j]!⟩ := by
    intro j hj
    obtain ⟨hentry, hlt⟩ := SIGMA_eq i hi j hj
    rw [hentry, hm _ hlt]
  simp (disch := decide) only [round, hword, g_eq]
  rfl

/-- The rounds of the program are those of the standard. -/
theorem foldl_round (hm : ∀ i < 16, ms.getD i 0 = ⟨m i⟩) (v : Vector Word64 16) :
    (List.range 12).foldl (round ms) (words v) =
      words (Rfc7693.SIGMA.foldl (Rfc7693.round m) v) := by
  have hrounds : ∀ (l : List ℕ) (v : Vector Word64 16), (∀ i ∈ l, i < 12) →
      l.foldl (round ms) (words v) =
        words ((l.map fun i => Rfc7693.SIGMA[i]!).foldl (Rfc7693.round m) v) := by
    intro l
    induction l with
    | nil => exact fun v _ => rfl
    | cons i l ih =>
      intro v hl
      rw [List.map_cons, List.foldl_cons, List.foldl_cons, round_eq hm v (hl i List.mem_cons_self),
        ih _ fun k hk => hl k (List.mem_cons_of_mem _ hk)]
  exact hrounds (List.range 12) v fun i => List.mem_range.mp

end

theorem low_word (n : ℕ) :
    (⟨(BitVec.ofNat 128 n).setWidth 64⟩ : UInt64) = ⟨BitVec.ofNat 64 n⟩ := by
  congr 1
  exact BitVec.setWidth_ofNat_of_le (by decide) n

theorem high_word (n : ℕ) : (⟨((BitVec.ofNat 128 n) >>> 64).setWidth 64⟩ : UInt64) =
    ⟨BitVec.ofNat 64 (n / 2 ^ 64)⟩ := by
  congr 1
  apply BitVec.eq_of_toNat_eq
  rw [BitVec.toNat_setWidth, BitVec.toNat_ushiftRight, BitVec.toNat_ofNat, BitVec.toNat_ofNat,
    Nat.shiftRight_eq_div_pow]
  omega

theorem not_eq_xor (x : Word64) : ~~~(⟨x⟩ : UInt64) = ⟨x ^^^ BitVec.allOnes 64⟩ := by
  rw [BitVec.xor_allOnes]
  rfl

/-- The working vector before anything is added to its last words. -/
theorem append_IV (h : Vector Word64 8) : words h ++ IV =
    words (Vector.ofFn fun i : Fin 16 => if i.1 < 8 then h[i.1]! else Rfc7693.IV (i - 8)) := by
  refine eq_words _ (by rw [List.length_append, length_words]; rfl) fun i hi => ?_
  rw [Vector.getElem_ofFn]
  rcases Nat.lt_or_ge i 8 with hlt | hge
  · rw [List.getD_append _ _ _ _ (by rwa [length_words]), words_getD, if_pos hlt]
  · rw [List.getD_append_right _ _ _ _ (by rwa [length_words]), length_words, IV_eq (by omega),
      if_neg (Nat.not_lt.mpr hge)]

theorem feedForward_eq (h : Vector Word64 8) (v : Vector Word64 16) :
    feedForward (words h) (words v) =
      words (Vector.ofFn fun i : Fin 8 => h[i.1]! ^^^ v[i.1]! ^^^ v[i.1 + 8]!) := by
  refine eq_words _ (by rw [feedForward, List.length_map, List.length_range]) fun i hi => ?_
  rw [feedForward, List.getD_eq_getElem _ _ (by simpa using hi), List.getElem_map,
    List.getElem_range, words_getD, words_getD, words_getD, Vector.getElem_ofFn, ofBitVec_xor,
    ofBitVec_xor, ← BitVec.xor_assoc]

/-- The compression function is that of the standard. -/
theorem compress_eq {m : ℕ → Word64} {block : Bytes} (hm : ∀ i < 16, wordAt block i = ⟨m i⟩)
    (h : Vector Word64 8) (n : ℕ) (last : Bool) :
    compress (words h) (BitVec.ofNat 128 n) block last = words (Rfc7693.F h m n last) := by
  have hms : ∀ i < 16, ((List.range 16).map (wordAt block)).getD i 0 = ⟨m i⟩ := by
    intro i hi
    rw [List.getD_eq_getElem _ _ (by simpa using hi), List.getElem_map, List.getElem_range, hm i hi]
  rw [compress, Rfc7693.F, append_IV, low_word, high_word]
  simp only [words_getD, words_set, ofBitVec_xor, not_eq_xor]
  cases last
  · simp only [Bool.false_eq_true, if_false, foldl_round hms, feedForward_eq]
  · simp only [if_true, foldl_round hms, feedForward_eq]

/-! ## Blocks -/

/-- The `i`-th block of a message, with zeros up to its length. -/
def blockOf (m : Bytes) (i : ℕ) : Bytes :=
  blockAt 128 m i ++ List.replicate (128 - (blockAt 128 m i).length) 0

theorem getD_blockAt {n : ℕ} (l : Bytes) (i : ℕ) {k : ℕ} (hk : k < n) :
    (blockAt n l i).getD k 0 = l.getD (n * i + k) 0 := by
  rw [blockAt, List.getD_eq_getElem?_getD, List.getElem?_take, if_pos hk, List.getElem?_drop,
    List.getD_eq_getElem?_getD]

theorem getD_blockOf (m : Bytes) (i : ℕ) {k : ℕ} (hk : k < 128) :
    (blockOf m i).getD k 0 = m.getD (128 * i + k) 0 := by
  rw [blockOf, ← getD_blockAt m i hk]
  rcases Nat.lt_or_ge k (blockAt 128 m i).length with hlt | hge
  · rw [List.getD_append _ _ _ _ hlt]
  · rw [List.getD_append_right _ _ _ _ hge, List.getD_eq_default _ _ hge,
      List.getD_replicate _ (by omega)]

/-- The words of a block. -/
theorem wordAt_blockOf (m : Bytes) (k i : ℕ) (hi : i < 16) :
    wordAt (blockOf m k) i = ⟨Rfc7693.word m k i⟩ := by
  have hlen : (blockAt 8 (blockOf m k) i).length ≤ 8 := List.length_take_le _ _
  have hsum : leNat (blockAt 8 (blockOf m k) i) = ∑ j ∈ Finset.range 8,
      (m.getD (128 * k + 8 * i + j) 0).toNat * 256 ^ j := by
    rw [leNat_eq_limbSum hlen, limbSum]
    refine Finset.sum_congr rfl fun j hj => ?_
    have hj := Finset.mem_range.mp hj
    rw [getD_blockAt _ _ hj, getD_blockOf m k (by omega), Nat.add_assoc]
  rw [wordAt, hsum]
  rfl

/-! ## The buffer -/

/-- Chain and counter after a block that is not the last. -/
def step (c : List UInt64 × BitVec 128) (block : Bytes) : List UInt64 × BitVec 128 :=
  (compress c.1 (c.2 + 128) block false, c.2 + 128)

variable {s : Blake2b} {m data : Bytes}

/-- The hasher has been given `m`; its buffer is empty only at the beginning. -/
structure Rep (outLen : ℕ) (s : Blake2b) (m : Bytes) : Prop where
  absorbed : Absorbed 128 step (initial outLen, 0) m (s.h, s.t) (s.buffer.take s.buffered)
  buffer : s.buffer.length = 128
  buffered : s.buffered ≤ 128
  pending : s.buffered = 0 → m = []
  outLen : s.outLen = outLen

variable {outLen : ℕ}

/-- After a full buffer is flushed there is room. -/
theorem flushFull_spec (h : Rep outLen s m) :
    Absorbed 128 step (initial outLen, 0) m ((flushFull s).h, (flushFull s).t)
        ((flushFull s).buffer.take (flushFull s).buffered) ∧
      (flushFull s).buffer.length = 128 ∧ (flushFull s).buffered < 128 ∧
      (flushFull s).outLen = outLen := by
  have hbuffered := h.buffered
  rw [flushFull]
  split
  · rename_i hfull
    refine ⟨?_, h.buffer, Nat.zero_lt_succ 127, h.outLen⟩
    have habsorbed := h.absorbed
    rw [hfull, List.take_of_length_le h.buffer.le, ← List.append_nil s.buffer] at habsorbed
    exact habsorbed.flush (by decide) h.buffer
  · exact ⟨h.absorbed, h.buffer, by omega, h.outLen⟩

theorem rep_feed (fuel : ℕ) (h : Rep outLen s m) (hfuel : data.length ≤ fuel) :
    Rep outLen (feed fuel s data) (m ++ data) := by
  induction fuel generalizing s m data with
  | zero =>
    obtain rfl := List.eq_nil_of_length_eq_zero (Nat.le_zero.mp hfuel)
    rwa [List.append_nil]
  | succ fuel ih =>
    rw [feed]
    split
    · rename_i hnil
      rwa [hnil, List.append_nil]
    · rename_i hne
      have hpos : 0 < data.length := List.length_pos_of_ne_nil hne
      obtain ⟨habsorbed, hbuffer, hroom, hout⟩ := flushFull_spec h
      generalize flushFull s = t at habsorbed hbuffer hroom hout
      have hlen : (data.take (min (128 - t.buffered) data.length)).length =
          min (128 - t.buffered) data.length := by
        rw [List.length_take]
        omega
      have htake := take_overwrite (show t.buffered ≤ t.buffer.length by omega)
        (data.take (min (128 - t.buffered) data.length))
      have hwritten : (overwrite t.buffer t.buffered
          (data.take (min (128 - t.buffered) data.length))).length = t.buffer.length :=
        length_overwrite (by omega)
      have hpushed := habsorbed.push (data.take (min (128 - t.buffered) data.length))
      rw [hlen] at htake
      rw [← htake] at hpushed
      have hsplit : m ++ data = m ++ data.take (min (128 - t.buffered) data.length) ++
          data.drop (min (128 - t.buffered) data.length) := by
        rw [List.append_assoc, List.take_append_drop]
      rw [hsplit]
      refine ih ⟨hpushed, hwritten.trans hbuffer, ?_, ?_, hout⟩ ?_
      · exact show t.buffered + min (128 - t.buffered) data.length ≤ 128 by omega
      · intro hzero
        exact absurd (show t.buffered + min (128 - t.buffered) data.length = 0 from hzero) (by omega)
      · rw [List.length_drop]
        omega

/-- **An update appends its data.** -/
theorem rep_update (h : Rep outLen s m) (data : Bytes) : Rep outLen (s.update data) (m ++ data) :=
  rep_feed data.length h le_rfl

/-- The chain a hasher starts from. -/
theorem initial_eq (outLen : ℕ) : initial outLen = words (Rfc7693.initial outLen) := by
  have hIV : IV = words (Vector.ofFn fun i : Fin 8 => Rfc7693.IV i) := by
    refine eq_words _ rfl fun i hi => ?_
    rw [IV_eq hi, Vector.getElem_ofFn]
  have hlen : UInt64.ofNat outLen = ⟨BitVec.ofNat 64 outLen⟩ := rfl
  have hparameters : (0x01010000 : UInt64) = ⟨0x01010000⟩ := rfl
  rw [initial, hIV, words_getD, hlen, hparameters, ofBitVec_xor, ofBitVec_xor, words_set,
    ← BitVec.xor_assoc]
  rfl

/-- The chain of whole blocks and its counter. -/
theorem chainBlocks_step (h : Vector Word64 8) {a : Bytes} {k : ℕ} (ha : a.length = 128 * k)
    (rest : Bytes) : chainBlocks 128 step (words h, 0) a =
      (words ((List.range k).foldl
        (fun h i => Rfc7693.F h (Rfc7693.word (a ++ rest) i) ((i + 1) * 128) false) h),
        BitVec.ofNat 128 (128 * k)) := by
  have hcount : a.length / 128 = k := by omega
  rw [chainBlocks, hcount]
  have hsteps : ∀ n ≤ k, (List.range n).foldl (fun c i => step c (blockAt 128 a i)) (words h, 0) =
      (words ((List.range n).foldl
        (fun h i => Rfc7693.F h (Rfc7693.word (a ++ rest) i) ((i + 1) * 128) false) h),
        BitVec.ofNat 128 (128 * n)) := by
    intro n hn
    induction n with
    | zero => rfl
    | succ n ih =>
      have hblock : blockAt 128 a n = blockOf (a ++ rest) n := by
        rw [blockOf, blockAt_append_left ha hn, length_blockAt (by omega), Nat.sub_self,
          List.replicate_zero, List.append_nil]
      have hcounter : BitVec.ofNat 128 (128 * n) + 128 = BitVec.ofNat 128 ((n + 1) * 128) := by
        rw [show (n + 1) * 128 = 128 * n + 128 by omega, BitVec.ofNat_add]
        rfl
      rw [List.range_succ, List.foldl_append, List.foldl_append, ih (by omega), List.foldl_cons,
        List.foldl_nil, List.foldl_cons, List.foldl_nil, step]
      simp only [hcounter, hblock, compress_eq (wordAt_blockOf (a ++ rest) n)]
      rw [Nat.mul_comm]
  exact hsteps k le_rfl

/-- The first bytes of the chain. -/
theorem take_outBytes (h : Vector Word64 8) {n : ℕ} (hn : n ≤ 64) :
    (outBytes (words h)).take n = (List.range n).map fun i =>
      UInt8.ofNat ((h.toList.getD (i / 8) 0 >>> (8 * (i % 8))).toNat) := by
  have hlen : (outBytes (words h)).length = 64 := by rw [length_outBytes, length_words]
  refine List.ext_getElem (by simp [hlen, hn]) fun i hi hi' => ?_
  have hlt : i < n := by simpa using hi'
  have hword : i / 8 < 8 := by omega
  rw [List.getElem_take, ← List.getD_eq_getElem _ 0, getD_outBytes, words_getD,
    getElem!_pos h (i / 8) hword, List.getElem_map, List.getElem_range,
    List.getD_eq_getElem _ _ (by simpa using hword), Vector.getElem_toList,
    BitVec.toNat_ushiftRight, Nat.shiftRight_eq_div_pow, pow_mul]
  rfl

/-- **The digest is the hash of what the hasher was given.** -/
theorem finalize_eq (h : Rep outLen s m) (hout : outLen ≤ 64) :
    s.finalize = Rfc7693.hash outLen m := by
  obtain ⟨a, k, hm, ha, hchain⟩ := h.absorbed.exists_blocks
  have hbuffered := h.buffered
  have hrest : (s.buffer.take s.buffered).length = s.buffered := by
    rw [List.length_take, h.buffer]
    omega
  have hlen : m.length = 128 * k + s.buffered := by
    rw [hm, List.length_append, ha, hrest]
  have hcount : Rfc7693.blockCount m - 1 = k := by
    rw [Rfc7693.blockCount, hlen]
    by_cases hzero : s.buffered = 0
    · have hnil := congrArg List.length (h.pending hzero)
      rw [hlen, List.length_nil] at hnil
      omega
    · omega
  rw [initial_eq, chainBlocks_step _ ha (s.buffer.take s.buffered), ← hm] at hchain
  obtain ⟨hh, ht⟩ := Prod.mk.inj hchain
  have hcounter : s.t + BitVec.ofNat 128 s.buffered = BitVec.ofNat 128 m.length := by
    rw [ht, hlen, BitVec.ofNat_add]
  have hblock : s.buffer.take s.buffered ++ List.replicate (128 - s.buffered) 0 = blockOf m k := by
    have hlast : blockAt 128 m k = s.buffer.take s.buffered := by
      rw [hm, show k = k + 0 from rfl, blockAt_append_right ha, blockAt, Nat.mul_zero,
        List.drop_zero, List.take_of_length_le (by omega)]
    rw [blockOf, hlast, hrest]
  rw [finalize, hcounter, hh, h.outLen, hblock, compress_eq (wordAt_blockOf m k),
    take_outBytes _ hout, Rfc7693.hash, Rfc7693.chain, hcount]

/-- The digest of a message that comes in pieces. -/
theorem finalize_updates (h : new outLen = some s) (chunks : List Bytes) :
    (chunks.foldl update s).finalize = Rfc7693.hash outLen chunks.flatten := by
  have hrun : ∀ (chunks : List Bytes) (s : Blake2b) (m : Bytes), Rep outLen s m →
      Rep outLen (chunks.foldl update s) (m ++ chunks.flatten) := by
    intro chunks
    induction chunks with
    | nil =>
      intro s m h
      rwa [List.flatten_nil, List.append_nil]
    | cons d chunks ih =>
      intro s m h
      rw [List.foldl_cons, List.flatten_cons, ← List.append_assoc]
      exact ih _ _ (rep_update h d)
  have hnew : Rep outLen s [] ∧ outLen ≤ 64 := by
    rw [new] at h
    split at h
    · rename_i hout
      obtain rfl := Option.some.inj h
      exact ⟨⟨Absorbed.nil _ _ _, rfl, Nat.zero_le 128, fun _ => rfl, rfl⟩, hout.2⟩
    · cases h
  exact finalize_eq (hrun chunks s [] hnew.1) hnew.2

theorem new_eq_some (h : 1 ≤ outLen ∧ outLen ≤ 64) : ∃ s, new outLen = some s :=
  ⟨_, if_pos h⟩

end Blake2b

end Ciphra
