import Ciphra.Foundations.Blocks
import Mathlib.Analysis.SpecialFunctions.Pow.NthRootLemmas
import Mathlib.Data.List.GetD

/-!
# SHA-256

The streaming hash with its buffer of one block, which is compressed as soon as it is full, and next
to it the hash of FIPS 180-4, defined on the whole message: the message is padded, and every block
of the padded message goes through the compression function. The standard takes its constants from
the roots of the first primes, and shares nothing with the program but the record of eight words.
Whatever the pieces a message comes in, `finalize` returns its hash (`Sha256.finalize_updates`).
-/

namespace Ciphra

namespace Sha256

/-! ## The program -/

def K : List UInt32 :=
  [0x428a2f98, 0x71374491, 0xb5c0fbcf, 0xe9b5dba5, 0x3956c25b, 0x59f111f1, 0x923f82a4, 0xab1c5ed5,
   0xd807aa98, 0x12835b01, 0x243185be, 0x550c7dc3, 0x72be5d74, 0x80deb1fe, 0x9bdc06a7, 0xc19bf174,
   0xe49b69c1, 0xefbe4786, 0x0fc19dc6, 0x240ca1cc, 0x2de92c6f, 0x4a7484aa, 0x5cb0a9dc, 0x76f988da,
   0x983e5152, 0xa831c66d, 0xb00327c8, 0xbf597fc7, 0xc6e00bf3, 0xd5a79147, 0x06ca6351, 0x14292967,
   0x27b70a85, 0x2e1b2138, 0x4d2c6dfc, 0x53380d13, 0x650a7354, 0x766a0abb, 0x81c2c92e, 0x92722c85,
   0xa2bfe8a1, 0xa81a664b, 0xc24b8b70, 0xc76c51a3, 0xd192e819, 0xd6990624, 0xf40e3585, 0x106aa070,
   0x19a4c116, 0x1e376c08, 0x2748774c, 0x34b0bcb5, 0x391c0cb3, 0x4ed8aa4a, 0x5b9cca4f, 0x682e6ff3,
   0x748f82ee, 0x78a5636f, 0x84c87814, 0x8cc70208, 0x90befffa, 0xa4506ceb, 0xbef9a3f7, 0xc67178f2]

/-- Eight words: the chain, and the working variables of a compression. -/
structure Words where
  a : UInt32
  b : UInt32
  c : UInt32
  d : UInt32
  e : UInt32
  f : UInt32
  g : UInt32
  h : UInt32
  deriving DecidableEq, Repr

def H0 : Words :=
  ⟨0x6a09e667, 0xbb67ae85, 0x3c6ef372, 0xa54ff53a, 0x510e527f, 0x9b05688c, 0x1f83d9ab, 0x5be0cd19⟩

def rotateRight (x n : UInt32) : UInt32 := (x >>> n) ||| (x <<< (32 - n))

/-- The `i`-th big-endian word. -/
def wordAt (block : Bytes) (i : ℕ) : UInt32 := UInt32.ofNat (beNat (blockAt 4 block i))

/-- One step of the message schedule. -/
def extend (w : List UInt32) (i : ℕ) : List UInt32 :=
  let s0 := rotateRight (w.getD (i - 15) 0) 7 ^^^ rotateRight (w.getD (i - 15) 0) 18 ^^^
    (w.getD (i - 15) 0 >>> 3)
  let s1 := rotateRight (w.getD (i - 2) 0) 17 ^^^ rotateRight (w.getD (i - 2) 0) 19 ^^^
    (w.getD (i - 2) 0 >>> 10)
  w.set i (w.getD (i - 16) 0 + s0 + w.getD (i - 7) 0 + s1)

def messageSchedule (block : Bytes) : List UInt32 :=
  (List.range' 16 48).foldl extend
    ((List.range 64).map fun i => if i < 16 then wordAt block i else 0)

def round (w : List UInt32) (s : Words) (i : ℕ) : Words :=
  let s1 := rotateRight s.e 6 ^^^ rotateRight s.e 11 ^^^ rotateRight s.e 25
  let ch := (s.e &&& s.f) ^^^ (~~~s.e &&& s.g)
  let temp1 := s.h + s1 + ch + K.getD i 0 + w.getD i 0
  let s0 := rotateRight s.a 2 ^^^ rotateRight s.a 13 ^^^ rotateRight s.a 22
  let maj := (s.a &&& s.b) ^^^ (s.a &&& s.c) ^^^ (s.b &&& s.c)
  let temp2 := s0 + maj
  ⟨temp1 + temp2, s.a, s.b, s.c, s.d + temp1, s.e, s.f, s.g⟩

def addWords (s t : Words) : Words :=
  ⟨s.a + t.a, s.b + t.b, s.c + t.c, s.d + t.d, s.e + t.e, s.f + t.f, s.g + t.g, s.h + t.h⟩

def compress (state : Words) (block : Bytes) : Words :=
  addWords state ((List.range 64).foldl (round (messageSchedule block)) state)

def Words.toList (s : Words) : List UInt32 := [s.a, s.b, s.c, s.d, s.e, s.f, s.g, s.h]

/-- The words, big-endian. -/
def outBytes (s : Words) : Bytes := s.toList.flatMap fun w => beBytes 4 w.toNat

end Sha256

/-- Streaming SHA-256. What the buffer holds beyond `buffered` is left over from earlier blocks. -/
structure Sha256 where
  state : Sha256.Words
  buffer : Bytes
  buffered : ℕ
  totalLen : UInt64

namespace Sha256

def new : Sha256 := ⟨H0, List.replicate 64 0, 0, 0⟩

/-- Compress the buffer if it is full. -/
def flushFull (s : Sha256) : Sha256 :=
  if s.buffered = 64 then { s with state := compress s.state s.buffer, buffered := 0 } else s

/-- Compress whole blocks of the data; `fuel` is the number of blocks it can hold. -/
def compressBlocks : ℕ → Words → Bytes → Words × Bytes
  | 0, state, data => (state, data)
  | fuel + 1, state, data =>
    if 64 ≤ data.length then compressBlocks fuel (compress state (data.take 64)) (data.drop 64)
    else (state, data)

/-- Fill the buffer, if something is in it already. -/
def fillBuffer (s : Sha256) (data : Bytes) : Sha256 × Bytes :=
  if 0 < s.buffered then
    let take := min data.length (64 - s.buffered)
    (flushFull { s with
      buffer := overwrite s.buffer s.buffered (data.take take)
      buffered := s.buffered + take }, data.drop take)
  else (s, data)

def update (s : Sha256) (data : Bytes) : Sha256 :=
  let s := { s with totalLen := s.totalLen + UInt64.ofNat data.length }
  let (s, data) := fillBuffer s data
  let (state, data) := compressBlocks (data.length / 64) s.state data
  let s := { s with state }
  if data = [] then s
  else { s with buffer := overwrite s.buffer 0 data, buffered := data.length }

/-- Zeros up to the length field. -/
def padZeros : ℕ → Sha256 → Sha256
  | 0, s => s
  | fuel + 1, s =>
    if s.buffered = 56 then s
    else padZeros fuel (flushFull { s with
      buffer := overwrite s.buffer s.buffered [0]
      buffered := s.buffered + 1 })

def finalize (s : Sha256) : Bytes :=
  let bitLen := s.totalLen * 8
  let s := padZeros 64 (s.update [0x80])
  outBytes (compress s.state (overwrite s.buffer 56 (beBytes 8 bitLen.toNat)))

end Sha256

/-- One-shot SHA-256. -/
def sha256 (data : Bytes) : Bytes := (Sha256.new.update data).finalize

/-! ## The standard -/

/-- The first `w` bits of the fractional part of the `k`-th root of `p`. -/
def rootFraction (k w p : ℕ) : ℕ := Nat.nthRoot k (p * 2 ^ (k * w)) % 2 ^ w

/-- A root is found by bounding it from both sides. -/
theorem rootFraction_eq {k w p q f : ℕ} (hk : k ≠ 0) (hf : f < 2 ^ w)
    (hle : (q * 2 ^ w + f) ^ k ≤ p * 2 ^ (k * w))
    (hlt : p * 2 ^ (k * w) < (q * 2 ^ w + f + 1) ^ k) : rootFraction k w p = f := by
  have hroot : Nat.nthRoot k (p * 2 ^ (k * w)) = q * 2 ^ w + f := by
    refine le_antisymm ?_ ((Nat.le_nthRoot_iff hk).mpr hle)
    exact Nat.le_of_lt_succ ((Nat.nthRoot_lt_iff hk).mpr hlt)
  rw [rootFraction, hroot, Nat.mul_add_mod_self_right, Nat.mod_eq_of_lt hf]

namespace Fips180

open Sha256 (Words)

/-- The rotation `ROTR`. -/
def rotr (n x : UInt32) : UInt32 := (x >>> n) ||| (x <<< (32 - n))

def ch (x y z : UInt32) : UInt32 := (x &&& y) ^^^ (~~~x &&& z)

def maj (x y z : UInt32) : UInt32 := (x &&& y) ^^^ (x &&& z) ^^^ (y &&& z)

def bigSigma0 (x : UInt32) : UInt32 := rotr 2 x ^^^ rotr 13 x ^^^ rotr 22 x

def bigSigma1 (x : UInt32) : UInt32 := rotr 6 x ^^^ rotr 11 x ^^^ rotr 25 x

def smallSigma0 (x : UInt32) : UInt32 := rotr 7 x ^^^ rotr 18 x ^^^ (x >>> 3)

def smallSigma1 (x : UInt32) : UInt32 := rotr 17 x ^^^ rotr 19 x ^^^ (x >>> 10)

/-- The first 64 prime numbers. -/
def primes : List ℕ :=
  (List.range 312).filter fun n => 2 ≤ n && (List.range n).all fun d => d < 2 || n % d != 0

theorem primes_eq : primes =
    [2, 3, 5, 7, 11, 13, 17, 19, 23, 29, 31, 37, 41, 43, 47, 53, 59, 61, 67, 71, 73, 79, 83, 89, 97,
      101, 103, 107, 109, 113, 127, 131, 137, 139, 149, 151, 157, 163, 167, 173, 179, 181, 191, 193,
      197, 199, 211, 223, 227, 229, 233, 239, 241, 251, 257, 263, 269, 271, 277, 281, 283, 293, 307,
      311] := by
  decide +kernel

/-- The constants: the first 32 bits of the fractional parts of the cube roots of the primes. -/
def K (t : ℕ) : UInt32 := UInt32.ofNat (rootFraction 3 32 (primes.getD t 0))

/-- A word of the initial hash value: the first 32 bits of the fractional part of the square root of
a prime. -/
def initialWord (i : ℕ) : UInt32 := UInt32.ofNat (rootFraction 2 32 (primes.getD i 0))

def H0 : Words where
  a := initialWord 0
  b := initialWord 1
  c := initialWord 2
  d := initialWord 3
  e := initialWord 4
  f := initialWord 5
  g := initialWord 6
  h := initialWord 7

/-- The words `M` of a block, most significant byte first. -/
def word (block : Bytes) (t : ℕ) : UInt32 := UInt32.ofNat (beNat (blockAt 4 block t))

/-- The words `W` of a block. -/
def schedule (block : Bytes) (t : ℕ) : UInt32 :=
  if t < 16 then word block t
  else smallSigma1 (schedule block (t - 2)) + schedule block (t - 7) +
    smallSigma0 (schedule block (t - 15)) + schedule block (t - 16)

theorem schedule_of_le (block : Bytes) {t : ℕ} (h : 16 ≤ t) :
    schedule block t = smallSigma1 (schedule block (t - 2)) + schedule block (t - 7) +
      smallSigma0 (schedule block (t - 15)) + schedule block (t - 16) := by
  rw [schedule, if_neg (by omega)]

/-- The working variables after the first `t` rounds. -/
def rounds (block : Bytes) (s : Words) : ℕ → Words
  | 0 => s
  | t + 1 =>
    let v := rounds block s t
    let t1 := v.h + bigSigma1 v.e + ch v.e v.f v.g + K t + schedule block t
    let t2 := bigSigma0 v.a + maj v.a v.b v.c
    ⟨t1 + t2, v.a, v.b, v.c, v.d + t1, v.e, v.f, v.g⟩

/-- The hash value after a block. -/
def step (s : Words) (block : Bytes) : Words :=
  let v := rounds block s 64
  ⟨v.a + s.a, v.b + s.b, v.c + s.c, v.d + s.d, v.e + s.e, v.f + s.f, v.g + s.g, v.h + s.h⟩

/-- The message, a one bit, zeros, and the length in bits: a number of whole blocks. -/
def pad (m : Bytes) : Bytes :=
  m ++ [0x80] ++ List.replicate ((119 - m.length % 64) % 64) 0 ++ beBytes 8 (8 * m.length)

/-- The words `H`, one after the other, most significant byte first. -/
def digest (s : Words) : Bytes :=
  beBytes 4 s.a.toNat ++ beBytes 4 s.b.toNat ++ beBytes 4 s.c.toNat ++ beBytes 4 s.d.toNat ++
    beBytes 4 s.e.toNat ++ beBytes 4 s.f.toNat ++ beBytes 4 s.g.toNat ++ beBytes 4 s.h.toNat

/-- The hash of a message. Its length field holds the length modulo `2 ^ 64`, and the standard
leaves out messages of `2 ^ 64` bits and more. -/
def hash (m : Bytes) : Bytes := digest (chainBlocks 64 step H0 (pad m))

theorem length_pad (m : Bytes) : (pad m).length % 64 = 0 := by
  simp only [pad, List.length_append, List.length_replicate, List.length_singleton, beBytes,
    List.length_reverse, length_leBytes]
  omega

theorem length_digest (s : Words) : (digest s).length = 32 := by
  simp only [digest, List.length_append, length_beBytes]

end Fips180

/-! ## Constants -/

namespace Sha256

/-- The program's constants bound the cube roots of the primes. -/
theorem K_cubeRoots : ∀ t < 64, ∃ q < 8,
    (q * 2 ^ 32 + (K.getD t 0).toNat) ^ 3 ≤ Fips180.primes.getD t 0 * 2 ^ 96 ∧
      Fips180.primes.getD t 0 * 2 ^ 96 < (q * 2 ^ 32 + (K.getD t 0).toNat + 1) ^ 3 := by
  rw [Fips180.primes_eq]
  decide +kernel

theorem K_eq {t : ℕ} (ht : t < 64) : K.getD t 0 = Fips180.K t := by
  obtain ⟨q, -, hle, hlt⟩ := K_cubeRoots t ht
  rw [Fips180.K, rootFraction_eq (by decide) (K.getD t 0).toNat_lt hle hlt, UInt32.ofNat_toNat]

/-- The words of the initial chain bound the square roots of the primes. -/
theorem H0_squareRoots : ∀ i < 8, ∃ q < 8,
    (q * 2 ^ 32 + (H0.toList.getD i 0).toNat) ^ 2 ≤ Fips180.primes.getD i 0 * 2 ^ 64 ∧
      Fips180.primes.getD i 0 * 2 ^ 64 < (q * 2 ^ 32 + (H0.toList.getD i 0).toNat + 1) ^ 2 := by
  rw [Fips180.primes_eq]
  decide +kernel

theorem initialWord_eq {i : ℕ} (hi : i < 8) : Fips180.initialWord i = H0.toList.getD i 0 := by
  obtain ⟨q, -, hle, hlt⟩ := H0_squareRoots i hi
  rw [Fips180.initialWord, rootFraction_eq (by decide) (H0.toList.getD i 0).toNat_lt hle hlt,
    UInt32.ofNat_toNat]

theorem H0_eq : H0 = Fips180.H0 := by
  rw [Fips180.H0, initialWord_eq (i := 0) (by decide), initialWord_eq (i := 1) (by decide),
    initialWord_eq (i := 2) (by decide), initialWord_eq (i := 3) (by decide),
    initialWord_eq (i := 4) (by decide), initialWord_eq (i := 5) (by decide),
    initialWord_eq (i := 6) (by decide), initialWord_eq (i := 7) (by decide)]
  rfl

/-- The words of the chain are written in the order of the standard. -/
theorem outBytes_eq (s : Words) : outBytes s = Fips180.digest s := by
  simp only [outBytes, Words.toList, Fips180.digest, List.flatMap_cons, List.flatMap_nil, List.append_nil,
    List.append_assoc]

end Sha256

/-! ## Compression -/

namespace Sha256

theorem add_four_comm (a b c d : UInt32) : a + b + c + d = d + c + b + a := by
  ac_rfl

/-- The loop of the schedule fills in the words one after the other. -/
theorem extend_schedule (block : Bytes) (n : ℕ) (hn : n ≤ 48) :
    let w := (List.range' 16 n).foldl extend
      ((List.range 64).map fun i => if i < 16 then wordAt block i else 0)
    w.length = 64 ∧ ∀ t < 16 + n, w.getD t 0 = Fips180.schedule block t := by
  induction n with
  | zero =>
    refine ⟨by simp, fun t ht => ?_⟩
    rw [List.range'_zero, List.foldl_nil, Fips180.schedule, if_pos (by omega),
      List.getD_eq_getElem _ _ (by simp; omega), List.getElem_map, List.getElem_range,
      if_pos (by omega), wordAt, Fips180.word]
  | succ n ih =>
    obtain ⟨hlen, hw⟩ := ih (by omega)
    rw [List.range'_concat, List.foldl_append, Nat.one_mul, List.foldl_cons, List.foldl_nil]
    generalize (List.range' 16 n).foldl extend _ = w at hlen hw
    refine ⟨by rw [extend, List.length_set, hlen], fun t ht => ?_⟩
    rw [extend, List.getD_eq_getElem _ _ (by rw [List.length_set]; omega), List.getElem_set]
    split
    · rename_i heq
      rw [← heq, Fips180.schedule_of_le block (by omega), hw (16 + n - 15) (by omega), hw (16 + n - 2) (by omega),
        hw (16 + n - 16) (by omega), hw (16 + n - 7) (by omega)]
      exact add_four_comm _ _ _ _
    · rw [← List.getD_eq_getElem _ 0, hw t (by omega)]

theorem rounds_eq (block : Bytes) (s : Words) (n : ℕ) (hn : n ≤ 64) :
    (List.range n).foldl (round (messageSchedule block)) s = Fips180.rounds block s n := by
  induction n with
  | zero => rfl
  | succ n ih =>
    rw [List.range_succ, List.foldl_append, List.foldl_cons, List.foldl_nil, ih (by omega),
      Fips180.rounds, round, messageSchedule, (extend_schedule block 48 le_rfl).2 n (by omega),
      K_eq (by omega)]
    rfl

/-- The compression function is that of the standard. -/
theorem compress_eq_step : compress = Fips180.step := by
  funext s block
  rw [compress, rounds_eq block s 64 le_rfl, Fips180.step]
  simp only [addWords, UInt32.add_comm]

end Sha256

/-! ## The buffer -/

namespace Sha256

variable {s : Sha256} {m data : Bytes}

/-- The hasher has been given `m`. -/
structure Rep (s : Sha256) (m : Bytes) : Prop where
  absorbed : Absorbed 64 Fips180.step H0 m s.state (s.buffer.take s.buffered)
  buffer : s.buffer.length = 64
  buffered : s.buffered < 64

theorem rep_new : Rep new [] := ⟨Absorbed.nil _ _ _, rfl, by decide⟩

theorem compressBlocks_spec (fuel : ℕ) {c : Words} (hlen : data.length < 64 * (fuel + 1))
    (h : Absorbed 64 Fips180.step H0 m c data) :
    Absorbed 64 Fips180.step H0 m (compressBlocks fuel c data).1 (compressBlocks fuel c data).2 ∧
      (compressBlocks fuel c data).2.length < 64 := by
  induction fuel generalizing c data with
  | zero => exact ⟨h, by simpa [compressBlocks] using hlen⟩
  | succ fuel ih =>
    rw [compressBlocks]
    split
    · rename_i hfull
      have hnext : Absorbed 64 Fips180.step H0 m (compress c (data.take 64)) (data.drop 64) := by
        rw [← List.take_append_drop 64 data] at h
        rw [compress_eq_step]
        exact h.flush (by decide) (List.length_take_of_le hfull)
      exact ih (by rw [List.length_drop]; omega) hnext
    · exact ⟨h, show data.length < 64 by omega⟩

/-- Filling the buffer leaves it empty, or takes all data. -/
theorem fillBuffer_spec (h : Rep s m) (data : Bytes) :
    let r := fillBuffer s data
    Absorbed 64 Fips180.step H0 (m ++ data) r.1.state (r.1.buffer.take r.1.buffered ++ r.2) ∧
      r.1.buffer.length = 64 ∧ (r.1.buffered = 0 ∨ r.2 = [] ∧ r.1.buffered < 64) := by
  intro r
  have hpushed := h.absorbed.push data
  have hbuffer := h.buffer
  have hbuffered := h.buffered
  by_cases hpos : 0 < s.buffered
  · have hlen : (data.take (min data.length (64 - s.buffered))).length =
        min data.length (64 - s.buffered) := by
      rw [List.length_take]
      omega
    have htake := take_overwrite (show s.buffered ≤ s.buffer.length by omega)
      (data.take (min data.length (64 - s.buffered)))
    have hwritten : (overwrite s.buffer s.buffered
        (data.take (min data.length (64 - s.buffered)))).length = s.buffer.length :=
      length_overwrite (by omega)
    rw [hlen] at htake
    have hsplit : s.buffer.take s.buffered ++ data =
        (overwrite s.buffer s.buffered (data.take (min data.length (64 - s.buffered)))).take
          (s.buffered + min data.length (64 - s.buffered)) ++
            data.drop (min data.length (64 - s.buffered)) := by
      rw [htake, List.append_assoc, List.take_append_drop]
    rw [hsplit] at hpushed
    simp only [r, fillBuffer, if_pos hpos, flushFull]
    by_cases hfull : s.buffered + min data.length (64 - s.buffered) = 64
    · rw [if_pos hfull]
      rw [hfull, List.take_of_length_le (by omega)] at hpushed
      refine ⟨?_, hwritten.trans hbuffer, Or.inl rfl⟩
      rw [compress_eq_step]
      exact hpushed.flush (by decide) (by omega)
    · rw [if_neg hfull]
      refine ⟨hpushed, hwritten.trans hbuffer, Or.inr ⟨?_, ?_⟩⟩
      · exact List.drop_eq_nil_of_le (by omega)
      · exact show s.buffered + min data.length (64 - s.buffered) < 64 by omega
  · simp only [r, fillBuffer, if_neg hpos]
    exact ⟨hpushed, hbuffer, Or.inl (by omega)⟩

/-- **An update appends its data.** -/
theorem rep_update (h : Rep s m) (data : Bytes) : Rep (s.update data) (m ++ data) := by
  have hsame : Rep { s with totalLen := s.totalLen + UInt64.ofNat data.length } m := ⟨h.1, h.2, h.3⟩
  obtain ⟨habsorbed, hbuffer, hcase⟩ := fillBuffer_spec hsame data
  rw [update]
  generalize fillBuffer { s with totalLen := s.totalLen + UInt64.ofNat data.length } data = r
    at habsorbed hbuffer hcase
  obtain ⟨t, rest⟩ := r
  simp only at habsorbed hbuffer hcase ⊢
  rcases hcase with hempty | ⟨rfl, hlt⟩
  · rw [hempty, List.take_zero, List.nil_append] at habsorbed
    obtain ⟨hrest, hlen⟩ := compressBlocks_spec (rest.length / 64) (by omega) habsorbed
    generalize compressBlocks (rest.length / 64) t.state rest = r at hrest hlen
    split
    · rename_i hnil
      refine ⟨?_, hbuffer, show t.buffered < 64 by omega⟩
      rw [hempty, List.take_zero]
      rwa [hnil] at hrest
    · refine ⟨?_, (length_overwrite (by omega)).trans hbuffer, hlen⟩
      have htake := take_overwrite (Nat.zero_le t.buffer.length) r.2
      rw [Nat.zero_add, List.take_zero, List.nil_append] at htake
      rwa [htake]
  · rw [List.append_nil] at habsorbed
    exact ⟨habsorbed, hbuffer, hlt⟩

@[simp] theorem totalLen_fillBuffer (s : Sha256) (data : Bytes) :
    (fillBuffer s data).1.totalLen = s.totalLen := by
  unfold fillBuffer flushFull
  split
  · simp only
    split <;> rfl
  · rfl

@[simp] theorem totalLen_update (s : Sha256) (data : Bytes) :
    (s.update data).totalLen = s.totalLen + UInt64.ofNat data.length := by
  have hfill := totalLen_fillBuffer { s with totalLen := s.totalLen + UInt64.ofNat data.length } data
  rw [update]
  generalize fillBuffer { s with totalLen := s.totalLen + UInt64.ofNat data.length } data = r at hfill
  obtain ⟨t, rest⟩ := r
  simp only at hfill ⊢
  split <;> exact hfill

/-- Zeros are written until the length field is next. -/
theorem padZeros_spec (fuel : ℕ) (h : Rep s m) (hfuel : (120 - s.buffered) % 64 ≤ fuel) :
    Rep (padZeros fuel s) (m ++ List.replicate ((120 - s.buffered) % 64) 0) ∧
      (padZeros fuel s).buffered = 56 := by
  induction fuel generalizing s m with
  | zero =>
    have hbuffered := h.buffered
    have hzero : (120 - s.buffered) % 64 = 0 := by omega
    rw [hzero, List.replicate_zero, List.append_nil]
    exact ⟨h, show s.buffered = 56 by omega⟩
  | succ fuel ih =>
    have hbuffer := h.buffer
    have hbuffered := h.buffered
    rw [padZeros]
    split
    · rename_i hdone
      refine ⟨?_, hdone⟩
      rw [hdone, List.replicate_zero, List.append_nil]
      exact h
    · rename_i hmore
      have hwritten : (overwrite s.buffer s.buffered [0]).length = s.buffer.length :=
        length_overwrite (by rw [List.length_singleton]; omega)
      have htake := take_overwrite (show s.buffered ≤ s.buffer.length by omega) [0]
      have hpushed := h.absorbed.push [0]
      rw [← htake, List.length_singleton] at hpushed
      have hcount : (120 - s.buffered) % 64 =
          (120 - (s.buffered + 1) % 64) % 64 + 1 := by omega
      have hzeros : m ++ List.replicate ((120 - s.buffered) % 64) (0 : UInt8) =
          m ++ [0] ++ List.replicate ((120 - (s.buffered + 1) % 64) % 64) 0 := by
        rw [hcount, List.replicate_succ, List.append_assoc, List.singleton_append]
      rw [hzeros, flushFull]
      split
      · rename_i hfull
        replace hfull : s.buffered + 1 = 64 := hfull
        rw [hfull, List.take_of_length_le (by omega), ← List.append_nil (overwrite _ _ _)] at hpushed
        have hrep : Rep ⟨compress s.state (overwrite s.buffer s.buffered [0]),
            overwrite s.buffer s.buffered [0], 0, s.totalLen⟩ (m ++ [0]) := by
          refine ⟨?_, hwritten.trans hbuffer, Nat.zero_lt_succ 63⟩
          rw [compress_eq_step]
          exact hpushed.flush (by decide) (hwritten.trans hbuffer)
        rw [hfull]
        exact ih hrep (show (120 - 0) % 64 ≤ fuel by omega)
      · rename_i hroom
        replace hroom : s.buffered + 1 ≠ 64 := hroom
        have hrep : Rep { s with
            buffer := overwrite s.buffer s.buffered [0]
            buffered := s.buffered + 1 } (m ++ [0]) :=
          ⟨hpushed, hwritten.trans hbuffer, show s.buffered + 1 < 64 by omega⟩
        have hmod : (s.buffered + 1) % 64 = s.buffered + 1 := Nat.mod_eq_of_lt (by omega)
        rw [hmod]
        exact ih hrep (show (120 - (s.buffered + 1)) % 64 ≤ fuel by omega)

/-- **The digest is the hash of what the hasher was given.** -/
theorem finalize_eq (h : Rep s m) (hlen : s.totalLen = UInt64.ofNat m.length) :
    s.finalize = Fips180.hash m := by
  have hmarked := rep_update h [0x80]
  have hbuffered := hmarked.buffered
  obtain ⟨hpadded, h56⟩ := padZeros_spec 64 hmarked (by omega)
  have hcount : (120 - (s.update [0x80]).buffered) % 64 = (119 - m.length % 64) % 64 := by
    obtain ⟨k, hk⟩ := hmarked.absorbed.length_modEq
    rw [List.length_append, List.length_singleton, List.length_take, hmarked.buffer] at hk
    omega
  rw [hcount] at hpadded
  have hbits : beBytes 8 (s.totalLen * 8).toNat = beBytes 8 (8 * m.length) := by
    have hmod : (s.totalLen * 8).toNat = 8 * m.length % 256 ^ 8 := by
      rw [hlen, UInt64.toNat_mul, UInt64.toNat_ofNat', Nat.mod_mul_mod, Nat.mul_comm]
      rfl
    rw [hmod, beBytes_mod]
  have hfinal := hpadded.absorbed.push (beBytes 8 (8 * m.length))
  have hbuffer := hpadded.buffer
  rw [h56] at hfinal
  have hblock : overwrite (padZeros 64 (s.update [0x80])).buffer 56 (beBytes 8 (8 * m.length)) =
      (padZeros 64 (s.update [0x80])).buffer.take 56 ++ beBytes 8 (8 * m.length) := by
    have hlength : (beBytes 8 (8 * m.length)).length = 8 := by simp [beBytes]
    rw [overwrite, hlength, List.drop_eq_nil_of_le (by omega), List.append_nil]
  rw [← hblock, ← List.append_nil (overwrite _ _ _)] at hfinal
  have hlength : (overwrite (padZeros 64 (s.update [0x80])).buffer 56
      (beBytes 8 (8 * m.length))).length = 64 := by
    rw [length_overwrite (by simp [beBytes, hbuffer]), hbuffer]
  have hchain := (hfinal.flush (by decide) hlength).chain_eq (by decide) (by decide)
  rw [finalize, hbits, compress_eq_step, hchain, outBytes_eq, H0_eq, Fips180.hash, Fips180.pad]

/-- The digest of a message that comes in pieces. -/
theorem finalize_updates (chunks : List Bytes) :
    (chunks.foldl update new).finalize = Fips180.hash chunks.flatten := by
  have hrun : ∀ (chunks : List Bytes) (s : Sha256) (m : Bytes), Rep s m →
      s.totalLen = UInt64.ofNat m.length → Rep (chunks.foldl update s) (m ++ chunks.flatten) ∧
        (chunks.foldl update s).totalLen = UInt64.ofNat (m ++ chunks.flatten).length := by
    intro chunks
    induction chunks with
    | nil =>
      intro s m h hlen
      rw [List.flatten_nil, List.append_nil]
      exact ⟨h, hlen⟩
    | cons d chunks ih =>
      intro s m h hlen
      rw [List.foldl_cons, List.flatten_cons, ← List.append_assoc]
      refine ih _ _ (rep_update h d) ?_
      rw [totalLen_update, hlen, List.length_append, UInt64.ofNat_add]
  obtain ⟨hrep, hlen⟩ := hrun chunks new [] rep_new rfl
  exact finalize_eq hrep hlen

end Sha256

/-- The one-shot hash is the hash of the standard. -/
theorem sha256_eq (data : Bytes) : sha256 data = Fips180.hash data := by
  have h := Sha256.finalize_updates [data]
  rwa [List.flatten_cons, List.flatten_nil, List.append_nil] at h

theorem length_hash (m : Bytes) : (Fips180.hash m).length = 32 := by
  rw [Fips180.hash, Fips180.length_digest]

end Ciphra
