import Ciphra.Foundations.Arrays
import Ciphra.Foundations.Remainder
import Ciphra.Storage.Record

/-!
# What the checksum of the log detects

`crc32` works a byte at a time from a table. `bitwiseCrc32` is the division it stands for: the bits
of the message, each byte least significant first, enter the reflected division by `0xEDB88320` one
after the other, between a complement at the start and one at the end.

A burst, a change of at most 32 consecutive bits, changes the checksum whatever the length of the
message, so `decodeRecord` refuses a record whose payload suffered one
(`decodeRecord_eq_none_of_burst`).
-/

namespace Ciphra.Storage

open Remainder

/-- The bits of a message, each byte least significant first. -/
def bits (data : Bytes) : List Bool := data.flatMap fun byte => (List.range 8).map byte.toNat.testBit

/-- One bit of a message enters the reflected division. -/
def bitStep (c : UInt32) (b : Bool) : UInt32 :=
  if c.toNat.testBit 0 != b then (0xEDB88320 : UInt32) ^^^ (c >>> 1) else c >>> 1

/-- CRC-32, a bit at a time. -/
def bitwiseCrc32 (data : Bytes) : UInt32 := (bits data).foldl bitStep 0xFFFFFFFF ^^^ 0xFFFFFFFF

/-- Two payloads of one length differ, and only within 32 consecutive bits. -/
structure Burst (a b : Bytes) : Prop where
  length_eq : a.length = b.length
  ne : a ≠ b
  window : ∃ s, ∀ i, (bits a)[i]? ≠ (bits b)[i]? → s ≤ i ∧ i < s + 32

/-! ## The division in bit vectors -/

/-- The reflected polynomial. -/
def crcPoly : BitVec 32 := 0xEDB88320#32

theorem getLsbD_crcPoly : crcPoly.getLsbD 31 = true := by decide

theorem and_one_ne_zero (c : UInt32) : c &&& 1 ≠ 0 ↔ c.toBitVec.getLsbD 0 = true := by
  rw [Ne, ← UInt32.toNat_inj, UInt32.toNat_and]
  change ¬ c.toNat &&& 1 = 0 ↔ c.toNat.testBit 0 = true
  rw [Nat.and_one_is_mod, Nat.testBit_zero, decide_eq_true_iff]
  omega

theorem toBitVec_crcShift (c : UInt32) : (crcShift c).toBitVec = shift crcPoly c.toBitVec := by
  unfold crcShift shift
  rw [if_congr (and_one_ne_zero c) rfl rfl]
  split <;> rfl

theorem toBitVec_iterate_crcShift (n : ℕ) (c : UInt32) :
    (crcShift^[n] c).toBitVec = (shift crcPoly)^[n] c.toBitVec := by
  induction n generalizing c with
  | zero => rfl
  | succ n ih => rw [Function.iterate_succ_apply, ih, toBitVec_crcShift, Function.iterate_succ_apply]

theorem toBitVec_bitStep (c : UInt32) (b : Bool) :
    (bitStep c b).toBitVec = feed crcPoly c.toBitVec b := by
  have hlow : (c.toNat.testBit 0 != b) = (c.toBitVec.getLsbD 0 ^^ b) := rfl
  unfold bitStep feed
  rw [hlow]
  split <;> rfl

theorem toBitVec_foldl_bitStep (bs : List Bool) (c : UInt32) :
    (bs.foldl bitStep c).toBitVec = run crcPoly c.toBitVec bs := by
  induction bs generalizing c with
  | nil => rfl
  | cons b bs ih => rw [List.foldl_cons, ih, toBitVec_bitStep, run_cons]

/-! ## The table -/

theorem wordBits_and_255 (x : BitVec 32) : wordBits (x &&& 0xFF#32) 8 = wordBits x 8 := by
  refine List.map_congr_left fun i hi => ?_
  have hi : i < 8 := List.mem_range.mp hi
  have hmask : (0xFF#32).getLsbD i = true := by
    interval_cases i <;> rfl
  rw [BitVec.getLsbD_and, hmask, Bool.and_true]

theorem ushiftRight_and_255 (x : BitVec 32) : (x &&& 0xFF#32) >>> 8 = 0#32 := by
  have hlt : (x &&& 0xFF#32).toNat < 2 ^ 8 := by
    rw [BitVec.toNat_and]
    exact Nat.lt_of_le_of_lt Nat.and_le_right (by decide)
  apply BitVec.eq_of_toNat_eq
  rw [BitVec.toNat_ushiftRight, Nat.shiftRight_eq_div_pow, Nat.div_eq_of_lt hlt]
  rfl

/-- Eight shifts of a word: those of its low byte, and the rest of it moved down. -/
theorem shift_eight (x : BitVec 32) :
    (shift crcPoly)^[8] x = (shift crcPoly)^[8] (x &&& 0xFF#32) ^^^ (x >>> 8) := by
  have hrun : ∀ y : BitVec 32, (shift crcPoly)^[8] y = run crcPoly 0#32 (wordBits y 8) ^^^ (y >>> 8) := by
    intro y
    rw [← run_low_bits, BitVec.zero_xor]
  rw [hrun x, hrun (x &&& 0xFF#32), wordBits_and_255, ushiftRight_and_255, BitVec.xor_zero]

theorem toBitVec_crcTable (x : UInt32) :
    (crcTable.get ⟨(x &&& 0xFF).toNat, toNat_and_255_lt x⟩).toBitVec =
      (shift crcPoly)^[8] (x &&& 0xFF).toBitVec := by
  have hget : crcTable.get ⟨(x &&& 0xFF).toNat, toNat_and_255_lt x⟩ =
      crcShift^[8] (UInt32.ofNat (x &&& 0xFF).toNat) := get_ofFn _ _
  rw [hget, UInt32.ofNat_toNat, toBitVec_iterate_crcShift]

theorem ushiftRight_byte (byte : UInt8) : byte.toUInt32.toBitVec >>> 8 = 0#32 := by
  apply BitVec.eq_of_toNat_eq
  have hlt := byte.toNat_lt
  rw [BitVec.toNat_ushiftRight, Nat.shiftRight_eq_div_pow]
  exact Nat.div_eq_of_lt (by simpa using hlt)

theorem wordBits_byte (byte : UInt8) :
    wordBits byte.toUInt32.toBitVec 8 = (List.range 8).map byte.toNat.testBit := by
  refine List.map_congr_left fun i _ => ?_
  have hval : byte.toUInt32.toBitVec.toNat = byte.toNat := by simp
  rw [BitVec.getLsbD, hval]

/-- A byte from the table is the eight bits of the byte. -/
theorem toBitVec_crcByte (c : UInt32) (byte : UInt8) :
    (crcByte c byte).toBitVec = run crcPoly c.toBitVec ((List.range 8).map byte.toNat.testBit) := by
  have hrest : (c ^^^ byte.toUInt32).toBitVec >>> 8 = (c >>> 8).toBitVec := by
    rw [UInt32.toBitVec_xor, BitVec.ushiftRight_xor_distrib, ushiftRight_byte, BitVec.xor_zero]
    rfl
  calc (crcByte c byte).toBitVec
      = (shift crcPoly)^[8] ((c ^^^ byte.toUInt32).toBitVec &&& 0xFF#32) ^^^
          (c ^^^ byte.toUInt32).toBitVec >>> 8 := by
        rw [crcByte, UInt32.toBitVec_xor, toBitVec_crcTable, hrest]
        rfl
    _ = (shift crcPoly)^[8] (c.toBitVec ^^^ byte.toUInt32.toBitVec) := by
        rw [← shift_eight, UInt32.toBitVec_xor]
    _ = run crcPoly c.toBitVec (wordBits byte.toUInt32.toBitVec 8) := by
        rw [run_low_bits, ushiftRight_byte, BitVec.xor_zero]
    _ = run crcPoly c.toBitVec ((List.range 8).map byte.toNat.testBit) := by rw [wordBits_byte]

theorem toBitVec_foldl_crcByte (data : Bytes) (c : UInt32) :
    (data.foldl crcByte c).toBitVec = run crcPoly c.toBitVec (bits data) := by
  induction data generalizing c with
  | nil => rfl
  | cons byte data ih =>
    rw [List.foldl_cons, ih, toBitVec_crcByte, ← run_append, bits, bits, List.flatMap_cons]

theorem toBitVec_crc32 (data : Bytes) :
    (crc32 data).toBitVec = run crcPoly 0xFFFFFFFF#32 (bits data) ^^^ 0xFFFFFFFF#32 := by
  rw [crc32, UInt32.toBitVec_xor, toBitVec_foldl_crcByte]
  rfl

theorem crc32_eq_bitwise (data : Bytes) : crc32 data = bitwiseCrc32 data := by
  apply UInt32.toBitVec_inj.mp
  rw [toBitVec_crc32, bitwiseCrc32, UInt32.toBitVec_xor, toBitVec_foldl_bitStep]
  rfl

/-! ## Bursts -/

theorem length_bits (data : Bytes) : (bits data).length = 8 * data.length := by
  induction data with
  | nil => rfl
  | cons byte data ih =>
    have hcons : bits (byte :: data) = (List.range 8).map byte.toNat.testBit ++ bits data := rfl
    rw [hcons, List.length_append, ih, List.length_map, List.length_range, List.length_cons]
    omega

theorem testBit_byte_injective {a b : UInt8}
    (h : (List.range 8).map a.toNat.testBit = (List.range 8).map b.toNat.testBit) : a = b := by
  apply UInt8.toNat_inj.mp
  refine Nat.eq_of_testBit_eq fun i => ?_
  rcases Nat.lt_or_ge i 8 with hi | hi
  · exact List.map_inj_left.mp h i (List.mem_range.mpr hi)
  · have hpow : 2 ^ 8 ≤ 2 ^ i := Nat.pow_le_pow_right (by omega) hi
    rw [Nat.testBit_lt_two_pow (Nat.lt_of_lt_of_le a.toNat_lt hpow),
      Nat.testBit_lt_two_pow (Nat.lt_of_lt_of_le b.toNat_lt hpow)]

theorem bits_injective : Function.Injective bits := by
  intro a b h
  have hlen : a.length = b.length := by
    have hbits := congrArg List.length h
    rw [length_bits, length_bits] at hbits
    omega
  induction a generalizing b with
  | nil => exact (List.eq_nil_of_length_eq_zero hlen.symm).symm
  | cons x a ih =>
    cases b with
    | nil => exact absurd hlen (by simp)
    | cons y b =>
      rw [bits, List.flatMap_cons, bits, List.flatMap_cons] at h
      obtain ⟨hx, hrest⟩ := List.append_inj h (by simp)
      rw [testBit_byte_injective hx, ih hrest (by simpa using hlen)]

theorem Burst.crc32_ne {a b : Bytes} (h : Burst a b) : crc32 a ≠ crc32 b := by
  intro heq
  obtain ⟨s, hs⟩ := h.window
  have hrun := congrArg UInt32.toBitVec heq
  rw [toBitVec_crc32, toBitVec_crc32, BitVec.xor_left_inj] at hrun
  exact run_ne_of_window getLsbD_crcPoly _ (by rw [length_bits, length_bits, h.length_eq])
    (fun hbits => h.ne (bits_injective hbits)) hs hrun

/-- The payload of the record that takes `consumed` bytes at the front of a buffer. -/
def payloadAt (buf : Bytes) (consumed : ℕ) : Bytes := (buf.take consumed).drop 8

theorem payloadAt_eq (buf : Bytes) (n : ℕ) : payloadAt buf (8 + n) = (buf.drop 8).take n := by
  rw [payloadAt, List.drop_take, Nat.add_sub_cancel_left]

/-- A record that decodes has the checksum and the length of its payload in its header. -/
theorem decodeRecord_header {buf : Bytes} {consumed : ℕ} {r : Record}
    (h : decodeRecord buf = some (consumed, r)) :
    consumed = 8 + leNat ((buf.drop 4).take 4) ∧
      (crc32 (payloadAt buf consumed)).toNat = leNat (buf.take 4) := by
  obtain ⟨rfl, -, -, hcrc⟩ := decodeRecord_eq_some h
  rw [Nat.add_sub_cancel_left] at hcrc
  rw [payloadAt_eq]
  exact ⟨rfl, hcrc⟩

/-- A record whose payload suffered a burst is not read. -/
theorem decodeRecord_eq_none_of_burst {buf buf' : Bytes} {consumed : ℕ} {r : Record}
    (h : decodeRecord buf = some (consumed, r)) (hhead : buf'.take 8 = buf.take 8)
    (hburst : Burst (payloadAt buf consumed) (payloadAt buf' consumed)) :
    decodeRecord buf' = none := by
  cases hbuf' : decodeRecord buf' with
  | none => rfl
  | some result =>
    obtain ⟨consumed', r'⟩ := result
    obtain ⟨hlen, hcrc⟩ := decodeRecord_header h
    obtain ⟨hlen', hcrc'⟩ := decodeRecord_header hbuf'
    have hfield : (buf'.drop 4).take 4 = (buf.drop 4).take 4 := by
      have hdrop := congrArg (List.drop 4) hhead
      rwa [List.drop_take, List.drop_take] at hdrop
    have hsum : buf'.take 4 = buf.take 4 := by
      have htake := congrArg (List.take 4) hhead
      rwa [List.take_take, List.take_take] at htake
    have hconsumed : consumed' = consumed := by rw [hlen', hlen, hfield]
    rw [hconsumed, hsum, ← hcrc] at hcrc'
    exact absurd (UInt32.toNat_inj.mp hcrc'.symm) hburst.crc32_ne

/-- The checksum is the bitwise one, bursts change it, and no record that suffered one is read. -/
theorem crc32_detects_bursts :
    (∀ data, crc32 data = bitwiseCrc32 data) ∧
      (∀ a b, Burst a b → crc32 a ≠ crc32 b) ∧
      ∀ buf buf' consumed r, decodeRecord buf = some (consumed, r) → buf'.take 8 = buf.take 8 →
        Burst (payloadAt buf consumed) (payloadAt buf' consumed) → decodeRecord buf' = none :=
  ⟨crc32_eq_bitwise, fun _ _ h => h.crc32_ne,
    fun _ _ _ _ h hhead hburst => decodeRecord_eq_none_of_burst h hhead hburst⟩

theorem burst_last_byte :
    Burst [1, 1, 0, 0, 0, 7, 1, 0, 0, 0, 9] [1, 1, 0, 0, 0, 7, 1, 0, 0, 0, 8] := by
  refine ⟨rfl, by decide, 56, fun i hi => ?_⟩
  rcases Nat.lt_or_ge i 80 with hlt | hge
  · have hsame : ∀ x : UInt8, (bits ([1, 1, 0, 0, 0, 7, 1, 0, 0, 0] ++ [x]))[i]? =
        (bits [1, 1, 0, 0, 0, 7, 1, 0, 0, 0])[i]? := by
      intro x
      rw [bits, List.flatMap_append]
      exact List.getElem?_append_left hlt
    exact absurd ((hsame 9).trans (hsame 8).symm) hi
  rcases Nat.lt_or_ge i 88 with hlt | hge
  · omega
  · rw [List.getElem?_eq_none (by rw [length_bits]; exact hge),
      List.getElem?_eq_none (by rw [length_bits]; exact hge)] at hi
    exact absurd rfl hi

/-- The record of a put, its value changed under the old header. -/
theorem decodeRecord_bad_value :
    decodeRecord (leBytes 4 (crc32 [1, 1, 0, 0, 0, 7, 1, 0, 0, 0, 9]).toNat ++
      (leBytes 4 11 ++ [1, 1, 0, 0, 0, 7, 1, 0, 0, 0, 8])) = none :=
  crc32_detects_bursts.2.2 (encodeRecord opPut [7] [9]) _ 19 (.single opPut [7] [9])
    (by decide +kernel) (by decide +kernel) burst_last_byte

end Ciphra.Storage
