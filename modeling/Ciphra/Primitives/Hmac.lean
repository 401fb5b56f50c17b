import Ciphra.Primitives.Blake2b

/-!
# HMAC, HKDF and PBKDF2

HMAC-SHA256 keeps the two hashers that have been given the padded key, and starts from copies of
them; it is the keyed hash of RFC 2104 (`HmacSha256.mac_eq`). The expand step of HKDF chains such
hashes under a counter of one byte, which is stepped after every block, the last one included: at
the top of the admitted range it is stepped once too often (`hkdf_expand_exact_iff`). PBKDF2 writes
the blocks of its standard one after the other, under a counter of four bytes that is stepped in
the same way (`pbkdf2_exact_iff`).
-/

namespace Ciphra

def BLOCK_LEN : ℕ := 64

def MAC_LEN : ℕ := 32

/-- HMAC-SHA256 with cached pad states. -/
structure HmacSha256 where
  inner : Sha256
  outer : Sha256

namespace HmacSha256

/-- The key, hashed if it is longer than a block, with zeros up to a block. -/
def keyBlock (key : Bytes) : Bytes :=
  overwrite (List.replicate BLOCK_LEN 0) 0 (if BLOCK_LEN < key.length then sha256 key else key)

def new (key : Bytes) : HmacSha256 where
  inner := Sha256.new.update ((keyBlock key).map fun b => 0x36 ^^^ b)
  outer := Sha256.new.update ((keyBlock key).map fun b => 0x5c ^^^ b)

def mac (h : HmacSha256) (message : Bytes) : Bytes :=
  (h.outer.update (h.inner.update message).finalize).finalize

end HmacSha256

namespace Rfc2104

/-- The key of a block's length. -/
def blockKey (key : Bytes) : Bytes :=
  let k := if 64 < key.length then Fips180.hash key else key
  k ++ List.replicate (64 - k.length) 0

/-- The keyed hash of a message. -/
def hmac (key m : Bytes) : Bytes :=
  Fips180.hash ((blockKey key).map (0x5c ^^^ ·) ++
    Fips180.hash ((blockKey key).map (0x36 ^^^ ·) ++ m))

end Rfc2104

namespace HmacSha256

theorem keyBlock_eq (key : Bytes) : keyBlock key = Rfc2104.blockKey key := by
  have hzeros : ∀ k : Bytes, k.length ≤ 64 →
      overwrite (List.replicate BLOCK_LEN (0 : UInt8)) 0 k = k ++ List.replicate (64 - k.length) 0 := by
    intro k _
    rw [overwrite, List.take_zero, List.nil_append, Nat.zero_add, List.drop_replicate, BLOCK_LEN]
  rw [keyBlock, sha256_eq, Rfc2104.blockKey, BLOCK_LEN]
  apply hzeros
  split
  · rw [length_hash]
    decide
  · omega

/-- **HMAC is the keyed hash of the standard**, for keys of any length. -/
theorem mac_eq (key m : Bytes) : (new key).mac m = Rfc2104.hmac key m := by
  have htwo : ∀ a b : Bytes, ((Sha256.new.update a).update b).finalize = Fips180.hash (a ++ b) := by
    intro a b
    have h := Sha256.finalize_updates [a, b]
    rwa [List.flatten_cons, List.flatten_cons, List.flatten_nil, List.append_nil] at h
  rw [mac, new, htwo, htwo, keyBlock_eq, Rfc2104.hmac]

end HmacSha256

/-- **The streaming hashes depend on the whole message only**, in whatever pieces it comes. -/
theorem streaming_hashes_exact :
    (∀ chunks : List Bytes,
      (chunks.foldl Sha256.update Sha256.new).finalize = Fips180.hash chunks.flatten) ∧
    (∀ outLen, 1 ≤ outLen ∧ outLen ≤ 64 → ∃ s, Blake2b.new outLen = some s ∧
      ∀ chunks : List Bytes,
        (chunks.foldl Blake2b.update s).finalize = Rfc7693.hash outLen chunks.flatten) ∧
    ∀ key m, (HmacSha256.new key).mac m = Rfc2104.hmac key m := by
  refine ⟨Sha256.finalize_updates, fun outLen h => ?_, HmacSha256.mac_eq⟩
  obtain ⟨s, hs⟩ := Blake2b.new_eq_some h
  exact ⟨s, hs, Blake2b.finalize_updates hs⟩

/-! ## Runs of blocks -/

section

variable {f : ℕ → Bytes} {w : ℕ}

theorem flatMap_range_succ (f : ℕ → Bytes) (n : ℕ) :
    (List.range (n + 1)).flatMap f = (List.range n).flatMap f ++ f n := by
  rw [List.range_succ, List.flatMap_append, List.flatMap_singleton]

theorem length_flatMap_range (hf : ∀ i, (f i).length = w) (n : ℕ) :
    ((List.range n).flatMap f).length = w * n := by
  induction n with
  | zero => rfl
  | succ n ih => rw [flatMap_range_succ, List.length_append, ih, hf, Nat.mul_succ]

/-- Only the blocks that are needed matter. -/
theorem take_flatMap_range (hf : ∀ i, (f i).length = w) {n k len : ℕ} (hk : len ≤ w * n)
    (hn : n ≤ k) :
    ((List.range k).flatMap f).take len = ((List.range n).flatMap f).take len := by
  induction k, hn using Nat.le_induction with
  | base => rfl
  | succ k hle ih =>
    have hlen : len ≤ ((List.range k).flatMap f).length := by
      rw [length_flatMap_range hf]
      exact hk.trans (Nat.mul_le_mul_left w hle)
    rw [flatMap_range_succ, List.take_append_of_le_length hlen, ih]

/-- What a round writes, where something is left to be written. -/
theorem take_flatMap_range_succ (hf : ∀ i, (f i).length = w) {i len : ℕ} (h : w * i < len) :
    ((List.range i).flatMap f).take len ++
        (f i).take (min (len - (((List.range i).flatMap f).take len).length) w) =
      ((List.range (i + 1)).flatMap f).take len := by
  have hlen := length_flatMap_range hf i
  have hfull : ((List.range i).flatMap f).take len = (List.range i).flatMap f :=
    List.take_of_length_le (by omega)
  have hmin : (f i).take (min (len - w * i) w) = (f i).take (len - w * i) := by
    rw [← List.take_take, List.take_of_length_le (hf i).le]
  rw [hfull, hlen, hmin, flatMap_range_succ, List.take_append, hlen, hfull]

end

/-! ## HKDF -/

/-- `counter += 1` where overflow is checked: the program panics. -/
def succChecked (counter : UInt8) : Option UInt8 :=
  if counter = 255 then none else some (counter + 1)

/-- `counter += 1` where overflow wraps. -/
def succWrapping (counter : UInt8) : Option UInt8 := some (counter + 1)

/-- The loop of `hkdfExpand`: `t` is the previous block, `out` what has been written. Every round
writes at least one byte, so the length to be written is fuel enough. -/
def expandLoop (next : UInt8 → Option UInt8) (hmac : HmacSha256) (info : Bytes) (len : ℕ) :
    ℕ → Bytes → UInt8 → Bytes → Option Bytes
  | 0, _, _, out => some out
  | fuel + 1, t, counter, out =>
    if out.length < len then do
      let block := hmac.mac (t ++ info ++ [counter])
      let take := min (len - out.length) MAC_LEN
      let counter ← next counter
      expandLoop next hmac info len fuel block counter (out ++ block.take take)
    else some out

/-- HKDF-SHA256 expand step. `len` must be at most `255 * 32`, else the program panics. -/
def hkdfExpand (next : UInt8 → Option UInt8) (prk : ByteArr 32) (info : Bytes) (len : ℕ) :
    Option Bytes :=
  if len ≤ 255 * MAC_LEN then expandLoop next (HmacSha256.new prk.1) info len len [] 1 []
  else none

namespace Rfc5869

/-- The blocks `T(0)`, `T(1)`, … -/
def T (prk info : Bytes) : ℕ → Bytes
  | 0 => []
  | i + 1 => Rfc2104.hmac prk (T prk info i ++ info ++ [UInt8.ofNat (i + 1)])

/-- The output of `len` bytes: the first bytes of `T(1) || T(2) || …`. -/
def expand (prk info : Bytes) (len : ℕ) : Bytes :=
  ((List.range ((len + 31) / 32)).flatMap fun i => T prk info (i + 1)).take len

end Rfc5869

/-- The first `n` blocks. -/
def okmBlocks (prk info : Bytes) (n : ℕ) : Bytes :=
  (List.range n).flatMap fun i => Rfc5869.T prk info (i + 1)

theorem length_T (prk info : Bytes) (i : ℕ) : (Rfc5869.T prk info (i + 1)).length = 32 := by
  rw [Rfc5869.T, Rfc2104.hmac, length_hash]

theorem length_okmBlocks (prk info : Bytes) (n : ℕ) :
    (okmBlocks prk info n).length = 32 * n :=
  length_flatMap_range (length_T prk info) n

theorem take_okmBlocks {prk info : Bytes} {n k len : ℕ} (hk : len ≤ 32 * n) (hn : n ≤ k) :
    (okmBlocks prk info k).take len = (okmBlocks prk info n).take len :=
  take_flatMap_range (length_T prk info) hk hn

theorem succChecked_ofNat {j : ℕ} (hj : j < 255) :
    succChecked (UInt8.ofNat j) = some (UInt8.ofNat (j + 1)) := by
  have hne : UInt8.ofNat j ≠ 255 := by
    intro he
    have hnat := congrArg UInt8.toNat he
    rw [UInt8.toNat_ofNat_of_lt' (by change j < 256; omega)] at hnat
    exact absurd hnat (show j ≠ 255 by omega)
  rw [succChecked, if_neg hne, UInt8.ofNat_add]
  rfl

section

variable {next : UInt8 → Option UInt8} {prk info : Bytes} {len : ℕ}

theorem take_okmBlocks_succ {i : ℕ} (h : 32 * i < len) :
    (okmBlocks prk info i).take len ++ (Rfc5869.T prk info (i + 1)).take
        (min (len - ((okmBlocks prk info i).take len).length) MAC_LEN) =
      (okmBlocks prk info (i + 1)).take len :=
  take_flatMap_range_succ (length_T prk info) h

/-- A round of the loop, after `i` rounds. -/
theorem expandLoop_succ {fuel i : ℕ} (h : 32 * i < len) :
    expandLoop next (HmacSha256.new prk) info len (fuel + 1) (Rfc5869.T prk info i)
        (UInt8.ofNat (i + 1)) ((okmBlocks prk info i).take len) =
      (next (UInt8.ofNat (i + 1))).bind fun counter =>
        expandLoop next (HmacSha256.new prk) info len fuel (Rfc5869.T prk info (i + 1)) counter
          ((okmBlocks prk info (i + 1)).take len) := by
  have hshort : ((okmBlocks prk info i).take len).length < len := by
    rw [List.length_take, length_okmBlocks]
    omega
  rw [expandLoop, if_pos hshort, HmacSha256.mac_eq, ← take_okmBlocks_succ h]
  rfl

/-- The loop writes the output as long as the counter can be stepped. -/
theorem expandLoop_eq {fuel i : ℕ}
    (hnext : ∀ j, i < j → 32 * j < len + 32 → next (UInt8.ofNat j) = some (UInt8.ofNat (j + 1)))
    (hfuel : len ≤ 32 * i + fuel) :
    expandLoop next (HmacSha256.new prk) info len fuel (Rfc5869.T prk info i) (UInt8.ofNat (i + 1))
      ((okmBlocks prk info i).take len) = some (Rfc5869.expand prk info len) := by
  have hdone : len ≤ 32 * i →
      (okmBlocks prk info i).take len = Rfc5869.expand prk info len := by
    intro hle
    exact take_okmBlocks (by omega) (by omega)
  induction fuel generalizing i with
  | zero => exact congrArg some (hdone (by omega))
  | succ fuel ih =>
    by_cases hmore : 32 * i < len
    · rw [expandLoop_succ hmore, hnext (i + 1) (Nat.lt_succ_self i) (by omega)]
      exact ih (fun j hj hlt => hnext j (by omega) hlt) (by omega)
        fun hle => take_okmBlocks (by omega) (by omega)
    · have hlong : ¬ ((okmBlocks prk info i).take len).length < len := by
        rw [List.length_take, length_okmBlocks]
        omega
      rw [expandLoop, if_neg hlong, hdone (by omega)]

/-- With the last block of the admitted range the checked counter overflows. -/
theorem expandLoop_overflow {fuel i : ℕ} (hi : i ≤ 254) (hlen : 32 * 254 < len)
    (hfuel : len ≤ 32 * i + fuel) :
    expandLoop succChecked (HmacSha256.new prk) info len fuel (Rfc5869.T prk info i)
      (UInt8.ofNat (i + 1)) ((okmBlocks prk info i).take len) = none := by
  induction fuel generalizing i with
  | zero => omega
  | succ fuel ih =>
    rw [expandLoop_succ (by omega)]
    rcases Nat.lt_or_ge i 254 with hlt | hge
    · rw [succChecked_ofNat (by omega)]
      exact ih (by omega) (by omega)
    · obtain rfl : i = 254 := by omega
      rfl

end

theorem hkdfExpand_loop (next : UInt8 → Option UInt8) (prk : ByteArr 32) (info : Bytes) {len : ℕ}
    (h : len ≤ 255 * 32) :
    hkdfExpand next prk info len =
      expandLoop next (HmacSha256.new prk.1) info len len (Rfc5869.T prk.1 info 0)
        (UInt8.ofNat (0 + 1)) ((okmBlocks prk.1 info 0).take len) := by
  rw [hkdfExpand, MAC_LEN, if_pos h, okmBlocks, List.range_zero, List.flatMap_nil, List.take_nil]
  rfl

/-- Where overflow wraps, the counter does no harm. -/
theorem hkdfExpand_wrapping (prk : ByteArr 32) (info : Bytes) (len : ℕ) :
    hkdfExpand succWrapping prk info len = some (Rfc5869.expand prk.1 info len) ↔
      len ≤ 255 * 32 := by
  constructor
  · intro h
    by_contra hgt
    rw [hkdfExpand, MAC_LEN, if_neg hgt] at h
    cases h
  · intro h
    rw [hkdfExpand_loop succWrapping prk info h]
    refine expandLoop_eq (fun j _ _ => ?_) (by omega)
    rw [succWrapping, UInt8.ofNat_add]
    rfl

/-- With overflow checks, a length that needs all 255 blocks makes the program panic. -/
theorem hkdfExpand_overflow (prk : ByteArr 32) (info : Bytes) {len : ℕ} (h : 254 * 32 < len) :
    hkdfExpand succChecked prk info len = none := by
  by_cases hle : len ≤ 255 * 32
  · rw [hkdfExpand_loop succChecked prk info hle]
    exact expandLoop_overflow (by omega) (by omega) (by omega)
  · rw [hkdfExpand, MAC_LEN, if_neg hle]

/-- **When key derivation is exact.** The output is the prefix of `T(1) || T(2) || …`, and the
counter does not overflow on the way, exactly for lengths that need at most 254 blocks. Where
overflow wraps, the output is right for every length the assertion admits. -/
theorem hkdf_expand_exact_iff (prk : ByteArr 32) (info : Bytes) (len : ℕ) :
    (hkdfExpand succChecked prk info len = some (Rfc5869.expand prk.1 info len) ↔
      len ≤ 254 * 32) ∧
    (hkdfExpand succWrapping prk info len = some (Rfc5869.expand prk.1 info len) ↔
      len ≤ 255 * 32) := by
  refine ⟨⟨fun h => ?_, fun hle => ?_⟩, hkdfExpand_wrapping prk info len⟩
  · by_contra hgt
    rw [hkdfExpand_overflow prk info (by omega)] at h
    cases h
  · rw [hkdfExpand_loop succChecked prk info (by omega)]
    exact expandLoop_eq (fun j _ hj => succChecked_ofNat (by omega)) (by omega)

/-- The longest output the assertion admits. -/
theorem hkdf_expand_longest :
    255 * 32 ≤ 255 * MAC_LEN ∧
      hkdfExpand succChecked (ByteArr.zeros 32) [] (255 * 32) ≠
        some (Rfc5869.expand (ByteArr.zeros 32).1 [] (255 * 32)) := by
  refine ⟨le_rfl, fun h => ?_⟩
  rw [hkdfExpand_overflow _ _ (by decide)] at h
  cases h

/-! ## PBKDF2 -/

/-- `block_index += 1` where overflow is checked: the program panics. -/
def nextBlockChecked (blockIndex : UInt32) : Option UInt32 :=
  if blockIndex.toNat + 1 < 2 ^ 32 then some (blockIndex + 1) else none

/-- `block_index += 1` where overflow wraps. -/
def nextBlockWrapping (blockIndex : UInt32) : Option UInt32 := some (blockIndex + 1)

/-- One round of a block: the hash `u` is hashed again, and `acc` is the exclusive or of all. -/
def pbkdf2Round (hmac : HmacSha256) (s : Bytes × Bytes) : Bytes × Bytes :=
  let u := hmac.mac s.1
  (u, List.zipWith (· ^^^ ·) s.2 u)

/-- A block of the output, from the salt with the block's index. -/
def pbkdf2Block (hmac : HmacSha256) (iterations : UInt32) (salted : Bytes) : Bytes :=
  let u := hmac.mac salted
  ((List.range' 1 (iterations.toNat - 1)).foldl (fun s _ => pbkdf2Round hmac s) (u, u)).2

/-- The loop of `pbkdf2Sha256`: `out` is what has been written. Every round writes at least one
byte, so the length to be written is fuel enough. -/
def pbkdf2Loop (next : UInt32 → Option UInt32) (hmac : HmacSha256) (salt : Bytes)
    (iterations : UInt32) (len : ℕ) : ℕ → UInt32 → Bytes → Option Bytes
  | 0, _, out => some out
  | fuel + 1, blockIndex, out =>
    if out.length < len then do
      let acc := pbkdf2Block hmac iterations (salt ++ beBytes 4 blockIndex.toNat)
      let take := min (len - out.length) MAC_LEN
      let blockIndex ← next blockIndex
      pbkdf2Loop next hmac salt iterations len fuel blockIndex (out ++ acc.take take)
    else some out

/-- PBKDF2-HMAC-SHA256. With no iterations the program panics. -/
def pbkdf2Sha256 (next : UInt32 → Option UInt32) (password salt : Bytes) (iterations : UInt32)
    (len : ℕ) : Option Bytes :=
  if 0 < iterations then
    pbkdf2Loop next (HmacSha256.new password) salt iterations len len 1 []
  else none

namespace Rfc8018

/-- The chain `U_1`, `U_2`, … of block `i`, counted from 0 here. -/
def U (password salt : Bytes) (i : ℕ) : ℕ → Bytes
  | 0 => Rfc2104.hmac password (salt ++ beBytes 4 i)
  | j + 1 => Rfc2104.hmac password (U password salt i j)

/-- The function `F`: the exclusive or of the first `c` hashes of the chain of block `i`. -/
def F (password salt : Bytes) (c i : ℕ) : Bytes :=
  (List.range c).foldl (fun acc j => List.zipWith (· ^^^ ·) acc (U password salt i j))
    (List.replicate 32 0)

/-- The derived key of `len` bytes: the first bytes of `F(1) || F(2) || …`. The standard refuses more
than `2 ^ 32 - 1` blocks; here the four bytes of the block number go on modulo `2 ^ 32`. -/
def derive (password salt : Bytes) (c len : ℕ) : Bytes :=
  ((List.range ((len + 31) / 32)).flatMap fun i => F password salt c (i + 1)).take len

end Rfc8018

section

variable {next : UInt32 → Option UInt32} {password salt : Bytes} {iterations : UInt32} {len : ℕ}

theorem length_U (password salt : Bytes) (i j : ℕ) :
    (Rfc8018.U password salt i j).length = 32 := by
  cases j <;> rw [Rfc8018.U, Rfc2104.hmac, length_hash]

theorem F_succ (password salt : Bytes) (c i : ℕ) :
    Rfc8018.F password salt (c + 1) i =
      List.zipWith (· ^^^ ·) (Rfc8018.F password salt c i) (Rfc8018.U password salt i c) := by
  rw [Rfc8018.F, List.range_succ, List.foldl_append, List.foldl_cons, List.foldl_nil, ← Rfc8018.F]

theorem length_F (password salt : Bytes) (c i : ℕ) :
    (Rfc8018.F password salt c i).length = 32 := by
  induction c with
  | zero => rfl
  | succ c ih => rw [F_succ, List.length_zipWith, ih, length_U, min_self]

theorem F_one (password salt : Bytes) (i : ℕ) :
    Rfc8018.F password salt 1 i = Rfc8018.U password salt i 0 := by
  have hlen := length_U password salt i 0
  rw [F_succ]
  refine List.ext_getElem (by rw [List.length_zipWith, length_F, hlen, min_self]) ?_
  intro k hk hk'
  have hzero : Rfc8018.F password salt 0 i = List.replicate 32 0 := rfl
  simp only [List.getElem_zipWith, hzero, List.getElem_replicate, UInt8.zero_xor]

/-- After `n` more rounds: the last hash of the chain, and the exclusive or up to it. -/
theorem foldl_pbkdf2Round (password salt : Bytes) (i n : ℕ) :
    (List.range' 1 n).foldl (fun s _ => pbkdf2Round (HmacSha256.new password) s)
        (Rfc8018.U password salt i 0, Rfc8018.U password salt i 0) =
      (Rfc8018.U password salt i n, Rfc8018.F password salt (n + 1) i) := by
  induction n with
  | zero => rw [List.range'_zero, List.foldl_nil, F_one]
  | succ n ih =>
    rw [List.range'_1_concat, List.foldl_append, ih, List.foldl_cons, List.foldl_nil,
      pbkdf2Round, HmacSha256.mac_eq, F_succ password salt (n + 1)]
    rfl

theorem pbkdf2Block_eq (h : 0 < iterations) (i : ℕ) :
    pbkdf2Block (HmacSha256.new password) iterations (salt ++ beBytes 4 i) =
      Rfc8018.F password salt iterations.toNat i := by
  have hpos : 0 < iterations.toNat := h
  have hfold := foldl_pbkdf2Round password salt i (iterations.toNat - 1)
  rw [Nat.sub_add_cancel hpos, Rfc8018.U] at hfold
  rw [pbkdf2Block, HmacSha256.mac_eq, hfold]

/-- The first `n` blocks. -/
def dkBlocks (password salt : Bytes) (c n : ℕ) : Bytes :=
  (List.range n).flatMap fun i => Rfc8018.F password salt c (i + 1)

theorem length_dkBlocks (password salt : Bytes) (c n : ℕ) :
    (dkBlocks password salt c n).length = 32 * n :=
  length_flatMap_range (fun i => length_F password salt c (i + 1)) n

theorem take_dkBlocks {c n : ℕ} (h : len ≤ 32 * n) :
    (dkBlocks password salt c n).take len = Rfc8018.derive password salt c len :=
  take_flatMap_range (fun i => length_F password salt c (i + 1)) (by omega) (by omega)

theorem take_dkBlocks_succ {c i : ℕ} (h : 32 * i < len) :
    (dkBlocks password salt c i).take len ++ (Rfc8018.F password salt c (i + 1)).take
        (min (len - ((dkBlocks password salt c i).take len).length) MAC_LEN) =
      (dkBlocks password salt c (i + 1)).take len :=
  take_flatMap_range_succ (fun i => length_F password salt c (i + 1)) h

theorem beBytes_toNat_ofNat (i : ℕ) : beBytes 4 (UInt32.ofNat i).toNat = beBytes 4 i := by
  rw [UInt32.toNat_ofNat']
  exact beBytes_mod 4 i

/-- A round of the loop, after `i` rounds. -/
theorem pbkdf2Loop_succ (hpos : 0 < iterations) {fuel i : ℕ} (h : 32 * i < len) :
    pbkdf2Loop next (HmacSha256.new password) salt iterations len (fuel + 1)
        (UInt32.ofNat (i + 1)) ((dkBlocks password salt iterations.toNat i).take len) =
      (next (UInt32.ofNat (i + 1))).bind fun blockIndex =>
        pbkdf2Loop next (HmacSha256.new password) salt iterations len fuel blockIndex
          ((dkBlocks password salt iterations.toNat (i + 1)).take len) := by
  have hshort : ((dkBlocks password salt iterations.toNat i).take len).length < len := by
    rw [List.length_take, length_dkBlocks]
    omega
  rw [pbkdf2Loop, if_pos hshort, beBytes_toNat_ofNat, pbkdf2Block_eq hpos, ← take_dkBlocks_succ h]
  rfl

/-- The loop writes the output as long as the block index can be stepped. -/
theorem pbkdf2Loop_eq (hpos : 0 < iterations) {fuel i : ℕ}
    (hnext : ∀ j, 32 * j < len + 32 → next (UInt32.ofNat j) = some (UInt32.ofNat (j + 1)))
    (hfuel : len ≤ 32 * i + fuel) :
    pbkdf2Loop next (HmacSha256.new password) salt iterations len fuel (UInt32.ofNat (i + 1))
        ((dkBlocks password salt iterations.toNat i).take len) =
      some (Rfc8018.derive password salt iterations.toNat len) := by
  induction fuel generalizing i with
  | zero => exact congrArg some (take_dkBlocks (by omega))
  | succ fuel ih =>
    by_cases hmore : 32 * i < len
    · rw [pbkdf2Loop_succ hpos hmore, hnext (i + 1) (by omega)]
      exact ih (by omega)
    · have hlong : ¬ ((dkBlocks password salt iterations.toNat i).take len).length < len := by
        rw [List.length_take, length_dkBlocks]
        omega
      rw [pbkdf2Loop, if_neg hlong, take_dkBlocks (by omega)]

theorem nextBlockChecked_ofNat {j : ℕ} (hj : j + 1 < 2 ^ 32) :
    nextBlockChecked (UInt32.ofNat j) = some (UInt32.ofNat (j + 1)) := by
  have hto : (UInt32.ofNat j).toNat = j := UInt32.toNat_ofNat_of_lt' (by change j < 2 ^ 32; omega)
  rw [nextBlockChecked, hto, if_pos hj, UInt32.ofNat_add]
  rfl

/-- With the last block of the range the checked block index overflows. -/
theorem pbkdf2Loop_overflow (hpos : 0 < iterations) {fuel i : ℕ} (hi : i + 2 ≤ 2 ^ 32)
    (hlen : 32 * (2 ^ 32 - 2) < len) (hfuel : len ≤ 32 * i + fuel) :
    pbkdf2Loop nextBlockChecked (HmacSha256.new password) salt iterations len fuel
      (UInt32.ofNat (i + 1)) ((dkBlocks password salt iterations.toNat i).take len) = none := by
  induction fuel generalizing i with
  | zero => omega
  | succ fuel ih =>
    rw [pbkdf2Loop_succ hpos (by omega)]
    by_cases hlast : i + 2 < 2 ^ 32
    · rw [nextBlockChecked_ofNat hlast]
      exact ih (by omega) (by omega)
    · obtain rfl : i = 2 ^ 32 - 2 := by omega
      rfl

theorem pbkdf2Sha256_loop (next : UInt32 → Option UInt32) (password salt : Bytes)
    (hpos : 0 < iterations) (len : ℕ) :
    pbkdf2Sha256 next password salt iterations len =
      pbkdf2Loop next (HmacSha256.new password) salt iterations len len (UInt32.ofNat (0 + 1))
        ((dkBlocks password salt iterations.toNat 0).take len) := by
  rw [pbkdf2Sha256, if_pos hpos, dkBlocks, List.range_zero, List.flatMap_nil, List.take_nil]
  rfl

/-- **When a passphrase's key is the one of the standard**: for every positive number of iterations
and every length that leaves the block index room for one more step. Where overflow wraps, for
every length, also for those that the standard refuses and the program does not. -/
theorem pbkdf2_exact_iff (password salt : Bytes) (iterations : UInt32) (len : ℕ) :
    (pbkdf2Sha256 nextBlockChecked password salt iterations len =
        some (Rfc8018.derive password salt iterations.toNat len) ↔
      0 < iterations ∧ len ≤ 32 * (2 ^ 32 - 2)) ∧
    (pbkdf2Sha256 nextBlockWrapping password salt iterations len =
        some (Rfc8018.derive password salt iterations.toNat len) ↔ 0 < iterations) := by
  have hnone : ∀ next, ¬ 0 < iterations →
      pbkdf2Sha256 next password salt iterations len = none :=
    fun next h => if_neg h
  constructor
  · refine ⟨fun h => ?_, fun ⟨hpos, hle⟩ => ?_⟩
    · by_cases hpos : 0 < iterations
      · refine ⟨hpos, not_lt.mp fun hgt => ?_⟩
        rw [pbkdf2Sha256_loop _ _ _ hpos,
          pbkdf2Loop_overflow hpos (by omega) hgt (by omega)] at h
        cases h
      · rw [hnone _ hpos] at h
        cases h
    · rw [pbkdf2Sha256_loop _ _ _ hpos]
      exact pbkdf2Loop_eq hpos (fun j hj => nextBlockChecked_ofNat (by omega)) (by omega)
  · refine ⟨fun h => ?_, fun hpos => ?_⟩
    · by_contra hpos
      rw [hnone _ hpos] at h
      cases h
    · rw [pbkdf2Sha256_loop _ _ _ hpos]
      refine pbkdf2Loop_eq hpos (fun j _ => ?_) (by omega)
      rw [nextBlockWrapping, UInt32.ofNat_add]
      rfl

end

end Ciphra
