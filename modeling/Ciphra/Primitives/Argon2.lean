import Ciphra.Foundations.Interleaving
import Ciphra.Primitives.Blake2b

/-!
# Argon2id

The memory is an array of blocks, a lane after the other; a pass fills every lane in four slices,
and a block is mixed from the one before it and a reference block that earlier data choose. All
arithmetic on positions is checked: the program panics where a subtraction goes below zero, a
divisor is zero, an index is out of range or a 64-bit product overflows. The other sums and products
are bounded by the size of the memory.

The lanes of a slice are filled one after the other. `reference_spec` says where the reference block
may lie. It is never a block that another lane writes in the same slice, so any order of the lanes,
down to single blocks, gives the same memory (`fillMemory_eq`), and with it the same output.
-/

namespace Ciphra

namespace Argon2

open Interleaving

/-! ## The compression function -/

/-- A block of 1 KiB. -/
abbrev Block := Vector UInt64 128

def zeroBlock : Block := Vector.replicate 128 0

def xorBlock (x y : Block) : Block := Vector.ofFn fun i => x.get i ^^^ y.get i

def mix (x y : UInt64) : UInt64 :=
  let lo := x.toUInt32.toUInt64 * y.toUInt32.toUInt64
  x + y + lo * 2

/-- The word at a position. -/
def wordOf {n : ℕ} (v : Vector UInt64 n) (i : ℕ) : UInt64 := v[i]?.getD 0

def blamka (v : Vector UInt64 16) (a b c d : ℕ) : Vector UInt64 16 :=
  let v := v.setIfInBounds a (mix (wordOf v a) (wordOf v b))
  let v := v.setIfInBounds d (Blake2b.rotateRight (wordOf v d ^^^ wordOf v a) 32)
  let v := v.setIfInBounds c (mix (wordOf v c) (wordOf v d))
  let v := v.setIfInBounds b (Blake2b.rotateRight (wordOf v b ^^^ wordOf v c) 24)
  let v := v.setIfInBounds a (mix (wordOf v a) (wordOf v b))
  let v := v.setIfInBounds d (Blake2b.rotateRight (wordOf v d ^^^ wordOf v a) 16)
  let v := v.setIfInBounds c (mix (wordOf v c) (wordOf v d))
  v.setIfInBounds b (Blake2b.rotateRight (wordOf v b ^^^ wordOf v c) 63)

/-- The BlaMka permutation: a BLAKE2b round with a multiplication. -/
def permute (v : Vector UInt64 16) : Vector UInt64 16 :=
  let v := blamka v 0 4 8 12
  let v := blamka v 1 5 9 13
  let v := blamka v 2 6 10 14
  let v := blamka v 3 7 11 15
  let v := blamka v 0 5 10 15
  let v := blamka v 1 6 11 12
  let v := blamka v 2 7 8 13
  blamka v 3 4 9 14

/-- Permute the sixteen words at the given positions. -/
def permuteAt (position : ℕ → ℕ) (q : Block) : Block :=
  let words := permute (Vector.ofFn fun k : Fin 16 => wordOf q (position k))
  (List.range 16).foldl (fun q k => q.setIfInBounds (position k) (wordOf words k)) q

/-- `G`: the permutation over rows and then columns of the sum, added to the sum. -/
def compress (x y : Block) : Block :=
  let r := xorBlock x y
  let q := (List.range 8).foldl (fun q row => permuteAt (fun k => row * 16 + k) q) r
  let q := (List.range 8).foldl
    (fun q col => permuteAt (fun k => 16 * (k / 2) + 2 * col + k % 2) q) q
  xorBlock q r

/-! ## The variable-length hash -/

/-- The rounds of `h_prime` after the first one; each writes 32 bytes of a digest, up to a tail of
at most 64. The number of bytes left is fuel enough. -/
def hPrimeRest : ℕ → ℕ → Bytes → Option Bytes
  | 0, _, _ => none
  | fuel + 1, left, v =>
    if 64 < left then do
      let v ← blake2b 64 v
      let rest ← hPrimeRest fuel (left - 32) v
      pure (v.take 32 ++ rest)
    else blake2b left v

/-- `H'`, with `t` bytes of output. -/
def hPrime (t : ℕ) (input : Bytes) : Option Bytes :=
  let prefixed := leBytes 4 t ++ input
  if t ≤ 64 then blake2b t prefixed
  else do
    let v ← blake2b 64 prefixed
    let rest ← hPrimeRest t (t - 32) v
    pure (v.take 32 ++ rest)

def blockFromBytes (bytes : Bytes) : Block := Vector.ofFn fun i => Blake2b.wordAt bytes i

def blockBytes (b : Block) : Bytes := b.toList.flatMap fun word => leBytes 8 word.toNat

/-! ## Parameters -/

def SYNC_POINTS : ℕ := 4

def ADDRESSES_PER_BLOCK : ℕ := 128

/-- The memory of a run. -/
structure Shape where
  lanes : ℕ
  passes : ℕ
  memoryBlocks : ℕ
  laneLength : ℕ
  segmentLength : ℕ

def shape (memoryKib passes lanes : UInt32) : Shape :=
  let memoryBlocks := max memoryKib.toNat (8 * lanes.toNat)
  let memoryBlocks := memoryBlocks / (SYNC_POINTS * lanes.toNat) * (SYNC_POINTS * lanes.toNat)
  let laneLength := memoryBlocks / lanes.toNat
  ⟨lanes.toNat, passes.toNat, memoryBlocks, laneLength, laneLength / SYNC_POINTS⟩

/-! ## Reference blocks -/

def checkedSub (a b : ℕ) : Option ℕ := if b ≤ a then some (a - b) else none

def checkedRem (a b : ℕ) : Option ℕ := if b = 0 then none else some (a % b)

/-- A product of 64-bit words. -/
def checkedMul (a b : ℕ) : Option ℕ := if a * b < 2 ^ 64 then some (a * b) else none

/-- The size of the reference area. -/
def referenceArea (s : Shape) (pass slice index : ℕ) (sameLane : Prop) [Decidable sameLane] :
    Option ℕ :=
  if pass = 0 then
    if sameLane then checkedSub (slice * s.segmentLength + index) 1
    else checkedSub (slice * s.segmentLength) (if index = 0 then 1 else 0)
  else do
    let before ← checkedSub s.laneLength s.segmentLength
    if sameLane then checkedSub (before + index) 1
    else checkedSub before (if index = 0 then 1 else 0)

def referenceLane (s : Shape) (pass lane slice j2 : ℕ) : Option ℕ :=
  if pass = 0 ∧ slice = 0 then some lane else checkedRem j2 s.lanes

/-- The first column of the reference area. -/
def referenceStart (s : Shape) (pass slice : ℕ) : Option ℕ :=
  if pass = 0 then some 0 else checkedRem ((slice + 1) * s.segmentLength) s.laneLength

/-- The lane and the column of the reference block. -/
def reference (s : Shape) (pass lane slice index : ℕ) (pseudoRand : UInt64) : Option (ℕ × ℕ) := do
  let j1 := pseudoRand.toUInt32.toNat
  let j2 := (pseudoRand >>> 32).toNat
  let refLane ← referenceLane s pass lane slice j2
  let area ← referenceArea s pass slice index (refLane = lane)
  let square ← checkedMul j1 j1
  let product ← checkedMul area (square / 2 ^ 32)
  let last ← checkedSub area 1
  let zz ← checkedSub last (product / 2 ^ 32)
  let start ← referenceStart s pass slice
  let refColumn ← checkedRem (start + zz) s.laneLength
  pure (refLane, refColumn)

/-! ## Filling -/

/-- The addresses of the first slices, which do not depend on the data. -/
structure Addresses where
  addressBlock : Block
  inputBlock : Block

def nextAddresses (a : Addresses) : Addresses :=
  let input := a.inputBlock.setIfInBounds 6 (wordOf a.inputBlock 6 + 1)
  ⟨compress zeroBlock (compress zeroBlock input), input⟩

/-- The first two slices of the first pass choose their references independently of the data. -/
def Independent (pass slice : ℕ) : Prop := pass = 0 ∧ slice < 2

instance (pass slice : ℕ) : Decidable (Independent pass slice) :=
  inferInstanceAs (Decidable (_ ∧ _))

def inputBlock (s : Shape) (size pass lane slice : ℕ) : Block :=
  if Independent pass slice then
    let b := zeroBlock.setIfInBounds 0 (UInt64.ofNat pass)
    let b := b.setIfInBounds 1 (UInt64.ofNat lane)
    let b := b.setIfInBounds 2 (UInt64.ofNat slice)
    let b := b.setIfInBounds 3 (UInt64.ofNat size)
    let b := b.setIfInBounds 4 (UInt64.ofNat s.passes)
    b.setIfInBounds 5 2
  else zeroBlock

/-- The blocks that a segment leaves as they were seeded. -/
def startingIndex (pass slice : ℕ) : ℕ := if pass = 0 ∧ slice = 0 then 2 else 0

def prevColumn (s : Shape) (column : ℕ) : Option ℕ :=
  if column = 0 then checkedSub s.laneLength 1 else some (column - 1)

/-- The word that chooses the reference block. -/
def pseudoRand (pass slice index : ℕ) (addressBlock prev : Block) : Option UInt64 :=
  if Independent pass slice then addressBlock[index % ADDRESSES_PER_BLOCK]? else prev[0]?

/-- One round of the loop of `fill_segment`. -/
def fillIndex (s : Shape) (pass lane slice : ℕ) (state : Array Block × Addresses) (index : ℕ) :
    Option (Array Block × Addresses) := do
  let (memory, addresses) := state
  let column := slice * s.segmentLength + index
  let before ← prevColumn s column
  let prev ← memory[lane * s.laneLength + before]?
  let addresses := if Independent pass slice ∧ index % ADDRESSES_PER_BLOCK = 0 then
      nextAddresses addresses
    else addresses
  let word ← pseudoRand pass slice index addresses.addressBlock prev
  let (refLane, refColumn) ← reference s pass lane slice index word
  let referenceBlock ← memory[refLane * s.laneLength + refColumn]?
  let target := lane * s.laneLength + column
  let old ← memory[target]?
  let mixed := compress prev referenceBlock
  pure (memory.setIfInBounds target (if pass = 0 then mixed else xorBlock old mixed), addresses)

/-- Fill one segment of one lane. -/
def fillSegment (s : Shape) (pass lane slice : ℕ) (memory : Array Block) : Option (Array Block) :=
  let addresses := ⟨zeroBlock, inputBlock s memory.size pass lane slice⟩
  let addresses := if pass = 0 ∧ slice = 0 then nextAddresses addresses else addresses
  let start := startingIndex pass slice
  ((List.range' start (s.segmentLength - start)).foldlM (fillIndex s pass lane slice)
    (memory, addresses)).map Prod.fst

def fillMemory (s : Shape) (memory : Array Block) : Option (Array Block) :=
  (List.range s.passes).foldlM (fun memory pass =>
    (List.range SYNC_POINTS).foldlM (fun memory slice =>
      (List.range s.lanes).foldlM (fun memory lane => fillSegment s pass lane slice memory)
        memory) memory) memory

/-! ## The key derivation -/

/-- The seed that binds every parameter and input. -/
def h0Input (password salt secret associated : Bytes) (memoryKib passes lanes : UInt32)
    (outLen : ℕ) : Bytes :=
  ([lanes.toNat, outLen, memoryKib.toNat, passes.toNat, 0x13, 2].flatMap (leBytes 4)) ++
    [password, salt, secret, associated].flatMap fun data => leBytes 4 data.length ++ data

/-- A write to the memory, with the bounds check. -/
def setBlock (memory : Array Block) (i : ℕ) (b : Block) : Option (Array Block) :=
  if i < memory.size then some (memory.setIfInBounds i b) else none

/-- The first two blocks of every lane come from the seed. -/
def seedMemory (s : Shape) (h0 : Bytes) : Option (Array Block) :=
  (List.range s.lanes).foldlM (fun memory lane =>
    (List.range 2).foldlM (fun memory col => do
      let bytes ← hPrime 1024 (h0 ++ leBytes 4 col ++ leBytes 4 lane)
      setBlock memory (lane * s.laneLength + col) (blockFromBytes bytes)) memory)
    (Array.replicate s.memoryBlocks zeroBlock)

/-- The sum of the last column, hashed. -/
def finalHash (s : Shape) (memory : Array Block) (outLen : ℕ) : Option Bytes := do
  let last ← checkedSub s.laneLength 1
  let first ← memory[last]?
  let sum ← (List.range' 1 (s.lanes - 1)).foldlM (fun acc lane => do
    let block ← memory[lane * s.laneLength + last]?
    pure (xorBlock acc block)) first
  hPrime outLen (blockBytes sum)

/-- The derivation, with a given way to fill the memory. -/
def deriveWith (fill : Shape → Array Block → Option (Array Block))
    (password salt secret associated : Bytes) (memoryKib passes lanes : UInt32) (outLen : ℕ) :
    Option Bytes :=
  if lanes ≠ 0 ∧ passes ≠ 0 ∧ outLen ≠ 0 then do
    let s := shape memoryKib passes lanes
    let h0 ← blake2b 64 (h0Input password salt secret associated memoryKib passes lanes outLen)
    let memory ← seedMemory s h0
    let memory ← fill s memory
    finalHash s memory outLen
  else none

/-- Argon2id with the optional secret and associated data. -/
def argon2idFull : Bytes → Bytes → Bytes → Bytes → UInt32 → UInt32 → UInt32 → ℕ → Option Bytes :=
  deriveWith fillMemory

def argon2id (password salt : Bytes) (memoryKib passes lanes : UInt32) (outLen : ℕ) :
    Option Bytes :=
  argon2idFull password salt [] [] memoryKib passes lanes outLen

/-! ## What the parameters guarantee -/

/-- Lanes of four segments, of at least two blocks each. -/
structure Shape.Valid (s : Shape) : Prop where
  lanes : 0 < s.lanes
  segment : 2 ≤ s.segmentLength
  lane : s.laneLength = 4 * s.segmentLength
  blocks : s.memoryBlocks = s.lanes * s.laneLength
  small : s.laneLength < 2 ^ 32

theorem shape_valid {lanes : UInt32} (h : lanes ≠ 0) (memoryKib passes : UInt32) :
    (shape memoryKib passes lanes).Valid := by
  have hl : 0 < lanes.toNat := Nat.pos_of_ne_zero fun h0 => h (UInt32.toNat_inj.mp h0)
  have hl' := lanes.toNat_lt
  have hm := memoryKib.toNat_lt
  obtain ⟨l, hl₁⟩ : ∃ l, l = lanes.toNat := ⟨_, rfl⟩
  obtain ⟨k, hk⟩ : ∃ k, k = max memoryKib.toNat (8 * l) / (4 * l) := ⟨_, rfl⟩
  rw [← hl₁] at hl hl'
  have htwo : 2 ≤ k := by
    rw [hk, Nat.le_div_iff_mul_le (by omega)]
    omega
  have hsmall : 4 * k < 2 ^ 32 := by
    have hle : k * (4 * l) ≤ max memoryKib.toNat (8 * l) := by
      rw [hk]
      exact Nat.div_mul_le_self _ _
    rcases le_total memoryKib.toNat (8 * l) with hcase | hcase
    · rw [max_eq_right hcase] at hle
      have : k ≤ 2 := by
        by_contra hlt
        have := Nat.mul_le_mul_right (4 * l) (by omega : 3 ≤ k)
        omega
      omega
    · rw [max_eq_left hcase] at hle
      have := Nat.mul_le_mul_left (4 * k) (by omega : 1 ≤ l)
      have heq : k * (4 * l) = 4 * k * l := by ring
      omega
  have hlane : k * (4 * l) / l = 4 * k := by
    rw [show k * (4 * l) = 4 * k * l by ring, Nat.mul_div_cancel _ (by omega)]
  have hshape : shape memoryKib passes lanes = ⟨l, passes.toNat, k * (4 * l), 4 * k, k⟩ := by
    simp only [shape, SYNC_POINTS, ← hl₁, ← hk, hlane]
    rw [Nat.mul_div_cancel_left _ (by omega)]
  rw [hshape]
  exact ⟨hl, htwo, rfl, by change k * (4 * l) = l * (4 * k); ring, hsmall⟩

/-! ## Reference blocks -/

/-- A position that the loop of `fill_segment` reaches. -/
structure Position (s : Shape) (pass lane slice index : ℕ) : Prop where
  lane_lt : lane < s.lanes
  slice_lt : slice < SYNC_POINTS
  start_le : startingIndex pass slice ≤ index
  index_lt : index < s.segmentLength

variable {s : Shape} {pass lane slice index : ℕ}

theorem checkedSub_of_le {a b : ℕ} (h : b ≤ a) : checkedSub a b = some (a - b) := if_pos h

theorem checkedRem_of_pos (a : ℕ) {b : ℕ} (h : 0 < b) : checkedRem a b = some (a % b) :=
  if_neg h.ne'

theorem checkedMul_of_lt {a b : ℕ} (ha : a < 2 ^ 32) (hb : b < 2 ^ 32) :
    checkedMul a b = some (a * b) := if_pos (Nat.mul_lt_mul'' ha hb)

/-- The size of the reference area. In the first pass it is what has been filled, later all slices
but the current one; the own lane has the current slice as well, up to the previous block. -/
theorem referenceArea_eq (hs : s.Valid) (h : Position s pass lane slice index) (sameLane : Prop)
    [Decidable sameLane] (hsame : pass = 0 → slice = 0 → sameLane) :
    ∃ area, referenceArea s pass slice index sameLane = some area ∧ 0 < area ∧
      area + 1 = (if pass = 0 then slice * s.segmentLength else 3 * s.segmentLength) +
        (if sameLane then index else if index = 0 then 0 else 1) := by
  have hseg := hs.segment
  have hlane := hs.lane
  have hstart := h.start_le
  have hslice : slice ≠ 0 → s.segmentLength ≤ slice * s.segmentLength := fun h0 =>
    Nat.le_mul_of_pos_left _ (Nat.pos_of_ne_zero h0)
  rw [startingIndex] at hstart
  by_cases hpass : pass = 0
  · rw [referenceArea, if_pos hpass, if_pos hpass]
    by_cases hsame' : sameLane
    · rw [if_pos hsame', if_pos hsame']
      have hcolumn : 2 ≤ slice * s.segmentLength + index := by
        by_cases h0 : slice = 0
        · rw [if_pos ⟨hpass, h0⟩] at hstart
          omega
        · have := hslice h0
          omega
      exact ⟨_, checkedSub_of_le (by omega), by omega, by omega⟩
    · have := hslice fun h0 => hsame' (hsame hpass h0)
      rw [if_neg hsame', if_neg hsame']
      split
      · exact ⟨_, checkedSub_of_le (by omega), by omega, by omega⟩
      · exact ⟨_, checkedSub_of_le (by omega), by omega, by omega⟩
  · have hbefore : checkedSub s.laneLength s.segmentLength = some (3 * s.segmentLength) := by
      rw [checkedSub_of_le (by omega), hlane]
      congr 1
      omega
    rw [referenceArea, if_neg hpass, if_neg hpass, hbefore]
    simp only [Option.bind_eq_bind, Option.bind_some]
    by_cases hsame' : sameLane
    · rw [if_pos hsame', if_pos hsame']
      exact ⟨_, checkedSub_of_le (by omega), by omega, by omega⟩
    · rw [if_neg hsame', if_neg hsame']
      split
      · exact ⟨_, checkedSub_of_le (by omega), by omega, by omega⟩
      · exact ⟨_, checkedSub_of_le (by omega), by omega, by omega⟩

/-- The non-uniform choice stays inside the area. -/
theorem scaled_lt {area j : ℕ} (harea : 0 < area) (hj : j < 2 ^ 32) :
    area * (j * j / 2 ^ 32) / 2 ^ 32 < area := by
  have hsquare : j * j / 2 ^ 32 < 2 ^ 32 := by
    rw [Nat.div_lt_iff_lt_mul (by norm_num)]
    exact Nat.mul_lt_mul'' hj hj
  rw [Nat.div_lt_iff_lt_mul (by norm_num)]
  exact Nat.mul_lt_mul_of_pos_left hsquare harea

theorem mod_of_lt_double {x q : ℕ} (h : x < 2 * q) : x % q = if x < q then x else x - q := by
  split
  · exact Nat.mod_eq_of_lt ‹_›
  · rw [Nat.mod_eq_sub_mod (by omega), Nat.mod_eq_of_lt (by omega)]

theorem area_lt (hs : s.Valid) (h : Position s pass lane slice index) {area : ℕ} {sameLane : Prop}
    [Decidable sameLane]
    (heq : area + 1 = (if pass = 0 then slice * s.segmentLength else 3 * s.segmentLength) +
      if sameLane then index else if index = 0 then 0 else 1) : area < s.laneLength := by
  have hseg := hs.segment
  have hlane := hs.lane
  have hindex := h.index_lt
  have hslice : slice * s.segmentLength ≤ 3 * s.segmentLength :=
    Nat.mul_le_mul_right _ (Nat.le_of_lt_succ h.slice_lt)
  split_ifs at heq <;> omega

theorem prevColumn_eq (hs : s.Valid) (column : ℕ) :
    prevColumn s column = some (if column = 0 then s.laneLength - 1 else column - 1) := by
  have hseg := hs.segment
  have hlane := hs.lane
  rw [prevColumn]
  split
  · exact checkedSub_of_le (by omega)
  · rfl

theorem referenceLane_eq (hs : s.Valid) (h : Position s pass lane slice index) (j2 : ℕ) :
    ∃ l, referenceLane s pass lane slice j2 = some l ∧ l < s.lanes ∧
      (pass = 0 → slice = 0 → l = lane) := by
  rw [referenceLane]
  by_cases h0 : pass = 0 ∧ slice = 0
  · exact ⟨lane, if_pos h0, h.lane_lt, fun _ _ => rfl⟩
  · exact ⟨_, by rw [if_neg h0, checkedRem_of_pos _ hs.lanes], Nat.mod_lt _ hs.lanes,
      fun hp hsl => absurd ⟨hp, hsl⟩ h0⟩

theorem referenceStart_eq (hs : s.Valid) (h : Position s pass lane slice index) :
    ∃ start, referenceStart s pass slice = some start ∧
      start = if pass = 0 ∨ slice = 3 then 0 else (slice + 1) * s.segmentLength := by
  have hseg := hs.segment
  have hlane := hs.lane
  have hslice : slice < 4 := h.slice_lt
  rw [referenceStart]
  by_cases hpass : pass = 0
  · exact ⟨0, if_pos hpass, (if_pos (Or.inl hpass)).symm⟩
  · refine ⟨_, by rw [if_neg hpass, checkedRem_of_pos _ (by omega)], ?_⟩
    by_cases h3 : slice = 3
    · rw [if_pos (Or.inr h3), h3, hlane, Nat.mod_self]
    · rw [if_neg (by omega)]
      refine Nat.mod_eq_of_lt ?_
      rw [hlane]
      exact Nat.mul_lt_mul_of_pos_right (by omega) (by omega)

/-- The reference area as a window of columns. In the first pass it starts with the lane, later after
the current slice, and then it may run over the end of the lane. -/
theorem window {seg slice zz e start c pass : ℕ} (hseg : 2 ≤ seg) (hslice : slice < 4) (he : e < seg)
    (hzz : zz + 2 ≤ (if pass = 0 then slice * seg else 3 * seg) + e)
    (hstart : start = if pass = 0 ∨ slice = 3 then 0 else (slice + 1) * seg)
    (hc : c = (start + zz) % (4 * seg)) :
    (c + 2 ≤ slice * seg + e ∨ pass ≠ 0 ∧ slice * seg + seg ≤ c) ∧
      (slice * seg + e = 0 → c + 2 ≤ 4 * seg) := by
  by_cases hpass : pass = 0
  · rw [if_pos hpass] at hzz
    have hle : slice * seg ≤ 3 * seg := Nat.mul_le_mul_right _ (by omega)
    rw [hstart, if_pos (Or.inl hpass), Nat.zero_add, Nat.mod_eq_of_lt (by omega)] at hc
    exact ⟨Or.inl (by omega), fun h0 => by omega⟩
  · rw [if_neg hpass] at hzz
    simp only [hpass, false_or] at hstart
    have hstart' : start < 4 * seg := by interval_cases slice <;> split_ifs at hstart <;> omega
    rw [mod_of_lt_double (by omega)] at hc
    interval_cases slice <;> simp only [Nat.reduceEqDiff, reduceIte] at hstart <;>
      split_ifs at hc <;> omega

/-- **Where the reference block lies.** No step of its computation fails. The block is not the one
that is written, nor the one before it; in the first pass it has been written already; and in another
lane it lies outside the current slice. -/
theorem reference_spec (hs : s.Valid) (h : Position s pass lane slice index) (pseudoRand : UInt64) :
    ∃ refLane refColumn, reference s pass lane slice index pseudoRand = some (refLane, refColumn) ∧
      refLane < s.lanes ∧ refColumn < s.laneLength ∧
      (refLane = lane → refColumn ≠ slice * s.segmentLength + index ∧
        prevColumn s (slice * s.segmentLength + index) ≠ some refColumn) ∧
      (refLane ≠ lane → refColumn < slice * s.segmentLength ∨
        (slice + 1) * s.segmentLength ≤ refColumn) ∧
      (pass = 0 → refColumn < slice * s.segmentLength + if refLane = lane then index else 0) := by
  obtain ⟨l, hl, hlt, hsame⟩ := referenceLane_eq hs h (pseudoRand >>> 32).toNat
  obtain ⟨area, harea, hpos, heq⟩ := referenceArea_eq hs h (l = lane) hsame
  have hj : pseudoRand.toUInt32.toNat < 2 ^ 32 := pseudoRand.toUInt32.toNat_lt
  have hx : pseudoRand.toUInt32.toNat * pseudoRand.toUInt32.toNat / 2 ^ 32 < 2 ^ 32 := by
    rw [Nat.div_lt_iff_lt_mul (by norm_num)]
    exact Nat.mul_lt_mul'' hj hj
  have hy := scaled_lt hpos hj
  have harea' := area_lt hs h heq
  have hsmall : area < 2 ^ 32 := harea'.trans hs.small
  obtain ⟨y, hyeq⟩ : ∃ y, y = area *
    (pseudoRand.toUInt32.toNat * pseudoRand.toUInt32.toNat / 2 ^ 32) / 2 ^ 32 := ⟨_, rfl⟩
  rw [← hyeq] at hy
  have hq : 0 < s.laneLength := by
    have := hs.segment
    have := hs.lane
    omega
  obtain ⟨start, hstart, hstartEq⟩ := referenceStart_eq hs h
  obtain ⟨c, hc⟩ : ∃ c, c = (start + (area - 1 - y)) % s.laneLength := ⟨_, rfl⟩
  refine ⟨l, c, ?_, hlt, by rw [hc]; exact Nat.mod_lt _ hq, ?_⟩
  · simp only [reference, hl, harea, hstart, checkedMul_of_lt hj hj, checkedMul_of_lt hsmall hx,
      checkedRem_of_pos _ hq, Option.bind_eq_bind, Option.bind_some]
    rw [← hyeq, checkedSub_of_le (by omega), Option.bind_some, checkedSub_of_le (by omega),
      Option.bind_some, hc]
    rfl
  · have hseg := hs.segment
    have hindex := h.index_lt
    have he : (if l = lane then index else if index = 0 then 0 else 1) < s.segmentLength := by
      split_ifs <;> omega
    obtain ⟨hwindow, hfirst⟩ := window hseg h.slice_lt he (by omega) hstartEq (hs.lane ▸ hc)
    have hlane := hs.lane
    rw [prevColumn_eq hs, Option.some_inj.ne, Nat.succ_mul]
    refine ⟨fun hsame' => ?_, fun hother => ?_, fun hpass => ?_⟩
    · rw [if_pos hsame'] at hwindow hfirst
      constructor
      · omega
      · split_ifs <;> omega
    · rw [if_neg hother] at hwindow
      split_ifs at hwindow <;> omega
    · split_ifs at hwindow ⊢ <;> omega

/-! ## Blocks by position -/

/-- The addresses of a segment after a number of refreshes. -/
def addressesAfter (s : Shape) (pass lane slice n : ℕ) : Addresses :=
  nextAddresses^[n] ⟨zeroBlock, inputBlock s s.memoryBlocks pass lane slice⟩

/-- The block at a position, given as a lane and an index in the current segment. The addresses are
looked up by the position. -/
def blockValue (s : Shape) (pass slice : ℕ) (memory : Array Block) (a : ℕ × ℕ) : Option Block := do
  let column := slice * s.segmentLength + a.2
  let before ← prevColumn s column
  let prev ← memory[a.1 * s.laneLength + before]?
  let word ← pseudoRand pass slice a.2
    (addressesAfter s pass a.1 slice (a.2 / ADDRESSES_PER_BLOCK + 1)).addressBlock prev
  let (refLane, refColumn) ← reference s pass a.1 slice a.2 word
  let referenceBlock ← memory[refLane * s.laneLength + refColumn]?
  let old ← memory[a.1 * s.laneLength + column]?
  let mixed := compress prev referenceBlock
  pure (if pass = 0 then mixed else xorBlock old mixed)

def cell (s : Shape) (slice : ℕ) (a : ℕ × ℕ) : ℕ :=
  a.1 * s.laneLength + (slice * s.segmentLength + a.2)

/-- Fill one block. -/
def fillPosition (s : Shape) (pass slice : ℕ) : Array Block → ℕ × ℕ → Option (Array Block) :=
  writeCell (blockValue s pass slice) (cell s slice)

/-- The positions of a segment, in the order of the loop. -/
def positions (s : Shape) (pass slice lane : ℕ) : List (ℕ × ℕ) :=
  let start := startingIndex pass slice
  (List.range' start (s.segmentLength - start)).map fun index => (lane, index)

theorem cell_inj {q l l' c c' : ℕ} (hc : c < q) (hc' : c' < q) (h : l * q + c = l' * q + c') :
    l = l' ∧ c = c' := by
  have hq : 0 < q := by omega
  have hl : (l * q + c) / q = l := by
    rw [Nat.mul_comm, Nat.mul_add_div hq, Nat.div_eq_of_lt hc, Nat.add_zero]
  have hl' : (l' * q + c') / q = l' := by
    rw [Nat.mul_comm, Nat.mul_add_div hq, Nat.div_eq_of_lt hc', Nat.add_zero]
  have heq : l = l' := by rw [← hl, h, hl']
  exact ⟨heq, by subst heq; omega⟩

theorem Position.column_lt (hs : s.Valid) (h : Position s pass lane slice index) :
    slice * s.segmentLength + index < s.laneLength := by
  have hindex := h.index_lt
  have hlane := hs.lane
  have hslice : slice * s.segmentLength ≤ 3 * s.segmentLength :=
    Nat.mul_le_mul_right _ (Nat.le_of_lt_succ h.slice_lt)
  omega

/-- The cells of a lane lie in the memory. -/
theorem cell_lt (hs : s.Valid) {l c : ℕ} (hl : l < s.lanes) (hc : c < s.laneLength) :
    l * s.laneLength + c < s.memoryBlocks := by
  have hle := Nat.mul_le_mul_right s.laneLength (Nat.succ_le_of_lt hl)
  rw [Nat.succ_mul] at hle
  rw [hs.blocks]
  omega

/-- The column before one of a lane. -/
theorem prevColumn_lt (hs : s.Valid) {column : ℕ} (h : column < s.laneLength) :
    ∃ p, prevColumn s column = some p ∧ p < s.laneLength :=
  ⟨_, prevColumn_eq hs column, by split <;> omega⟩

theorem pseudoRand_eq (pass slice index : ℕ) (addressBlock prev : Block) :
    ∃ word, pseudoRand pass slice index addressBlock prev = some word := by
  have hlt : index % ADDRESSES_PER_BLOCK < 128 := Nat.mod_lt _ (by decide)
  rw [pseudoRand]
  split
  · exact ⟨_, Vector.getElem?_eq_getElem hlt⟩
  · exact ⟨_, Vector.getElem?_eq_getElem (by decide)⟩

/-- A reference is not a block that another lane writes in the same slice. -/
theorem reference_ne_cell (hs : s.Valid) (h : Position s pass lane slice index) {word : UInt64}
    {l c : ℕ} (href : reference s pass lane slice index word = some (l, c)) {b : ℕ × ℕ}
    (hb : Position s pass b.1 slice b.2) (hne : b.1 ≠ lane) :
    l * s.laneLength + c ≠ cell s slice b := by
  obtain ⟨l', c', href', -, hc, -, hother, -⟩ := reference_spec hs h word
  obtain ⟨rfl, rfl⟩ := Prod.mk.inj (Option.some.inj (href'.symm.trans href))
  intro heq
  obtain ⟨hlane, hcolumn⟩ := cell_inj hc (hb.column_lt hs) heq
  have hindex := hb.index_lt
  have hsucc : (slice + 1) * s.segmentLength = slice * s.segmentLength + s.segmentLength :=
    Nat.succ_mul _ _
  rcases hother (hlane ▸ hne) with hlt | hle <;> omega

/-- **A block does not read what another lane writes in the same slice.** -/
theorem blockValue_frame (hs : s.Valid) {a b : ℕ × ℕ} (ha : Position s pass a.1 slice a.2)
    (hb : Position s pass b.1 slice b.2) (hne : a.1 ≠ b.1) (m : Array Block) (v : Block) :
    blockValue s pass slice (m.setIfInBounds (cell s slice b) v) a = blockValue s pass slice m a := by
  have hread : ∀ i ≠ cell s slice b, (m.setIfInBounds (cell s slice b) v)[i]? = m[i]? :=
    fun i hi => Array.getElem?_setIfInBounds_ne hi.symm
  have hown : ∀ c < s.laneLength, a.1 * s.laneLength + c ≠ cell s slice b :=
    fun c hc h => hne (cell_inj hc (hb.column_lt hs) h).1
  obtain ⟨p, hp, hlt⟩ := prevColumn_lt hs (ha.column_lt hs)
  rw [blockValue, blockValue, hp]
  simp only [Option.bind_eq_bind, Option.bind_some]
  rw [hread _ (hown p hlt), hread _ (hown _ (ha.column_lt hs))]
  refine congrArg _ (funext fun prev => ?_)
  obtain ⟨word, hword⟩ := pseudoRand_eq pass slice a.2
    (addressesAfter s pass a.1 slice (a.2 / ADDRESSES_PER_BLOCK + 1)).addressBlock prev
  obtain ⟨l, c, href, -⟩ := reference_spec hs ha word
  have hreference := hread _ (reference_ne_cell hs ha href hb hne.symm)
  simp only [hword, href, hreference, Option.bind_some]

theorem fillPosition_comm (hs : s.Valid) {a b : ℕ × ℕ} (ha : Position s pass a.1 slice a.2)
    (hb : Position s pass b.1 slice b.2) (hne : a.1 ≠ b.1) (m : Array Block) :
    (fillPosition s pass slice m a).bind (fillPosition s pass slice · b) =
      (fillPosition s pass slice m b).bind (fillPosition s pass slice · a) := by
  have hcells : cell s slice a ≠ cell s slice b := fun h =>
    hne (cell_inj (ha.column_lt hs) (hb.column_lt hs) h).1
  unfold fillPosition
  exact writeCell_comm hcells (blockValue_frame hs hb ha hne.symm) (blockValue_frame hs ha hb hne) m

/-- A block can always be filled. -/
theorem fillPosition_total (hs : s.Valid) {a : ℕ × ℕ} (ha : Position s pass a.1 slice a.2)
    {m : Array Block} (hm : m.size = s.memoryBlocks) :
    ∃ m', fillPosition s pass slice m a = some m' ∧ m'.size = s.memoryBlocks := by
  have hread : ∀ l c, l < s.lanes → c < s.laneLength → ∃ v, m[l * s.laneLength + c]? = some v := by
    intro l c hl hc
    exact ⟨_, Array.getElem?_eq_getElem (hm ▸ cell_lt hs hl hc)⟩
  obtain ⟨p, hp, hlt⟩ := prevColumn_lt hs (ha.column_lt hs)
  obtain ⟨prev, hprev⟩ := hread a.1 p ha.lane_lt hlt
  obtain ⟨word, hword⟩ := pseudoRand_eq pass slice a.2
    (addressesAfter s pass a.1 slice (a.2 / ADDRESSES_PER_BLOCK + 1)).addressBlock prev
  obtain ⟨l, c, href, hl, hc, -⟩ := reference_spec hs ha word
  obtain ⟨ref, hrefBlock⟩ := hread l c hl hc
  obtain ⟨old, hold⟩ := hread a.1 _ ha.lane_lt (ha.column_lt hs)
  refine ⟨_, by
    simp only [fillPosition, writeCell, blockValue, hp, hprev, hword, href, hrefBlock, hold,
      Option.bind_eq_bind, Option.bind_some, Option.pure_def, Option.map_some]
    rfl, ?_⟩
  rw [Array.size_setIfInBounds, hm]

/-! ## Segments -/

/-- The number of refreshes before an index. -/
def refreshes (pass slice index : ℕ) : ℕ :=
  if Independent pass slice then (index + 127) / ADDRESSES_PER_BLOCK else 0

theorem addressesAfter_succ (s : Shape) (pass lane slice n : ℕ) :
    addressesAfter s pass lane slice (n + 1) = nextAddresses (addressesAfter s pass lane slice n) :=
  Function.iterate_succ_apply' _ _ _

/-- A round of the loop fills the block at its position. -/
theorem fillIndex_eq (s : Shape) (pass lane slice : ℕ) (m : Array Block) (index : ℕ) :
    fillIndex s pass lane slice
        (m, addressesAfter s pass lane slice (refreshes pass slice index)) index =
      (fillPosition s pass slice m (lane, index)).map fun m =>
        (m, addressesAfter s pass lane slice (refreshes pass slice (index + 1))) := by
  have haddresses : (if Independent pass slice ∧ index % ADDRESSES_PER_BLOCK = 0 then
        nextAddresses (addressesAfter s pass lane slice (refreshes pass slice index))
      else addressesAfter s pass lane slice (refreshes pass slice index)) =
      addressesAfter s pass lane slice (refreshes pass slice (index + 1)) := by
    rw [← addressesAfter_succ]
    simp only [refreshes, ADDRESSES_PER_BLOCK]
    by_cases hind : Independent pass slice
    · simp only [hind, true_and, if_true]
      split <;> congr 1 <;> omega
    · simp only [hind, false_and, if_false]
  have hword : ∀ prev, pseudoRand pass slice index
        (addressesAfter s pass lane slice (refreshes pass slice (index + 1))).addressBlock prev =
      pseudoRand pass slice index
        (addressesAfter s pass lane slice (index / ADDRESSES_PER_BLOCK + 1)).addressBlock prev := by
    intro prev
    simp only [pseudoRand]
    by_cases hind : Independent pass slice
    · have hcount : refreshes pass slice (index + 1) = index / ADDRESSES_PER_BLOCK + 1 := by
        rw [refreshes, if_pos hind, ADDRESSES_PER_BLOCK]
        omega
      rw [hcount]
    · rw [if_neg hind, if_neg hind]
  simp only [fillIndex, haddresses, hword, fillPosition, writeCell, blockValue, cell,
    Option.bind_eq_bind, Option.pure_def, Option.map_eq_bind, Option.bind_assoc, Option.bind_some,
    Function.comp_def]

theorem foldlM_fillIndex (s : Shape) (pass lane slice start n : ℕ) (m : Array Block) :
    (List.range' start n).foldlM (fillIndex s pass lane slice)
        (m, addressesAfter s pass lane slice (refreshes pass slice start)) =
      (((List.range' start n).map fun index => (lane, index)).foldlM (fillPosition s pass slice)
        m).map fun m =>
          (m, addressesAfter s pass lane slice (refreshes pass slice (start + n))) := by
  induction n generalizing start m with
  | zero => rfl
  | succ n ih =>
    rw [List.range'_succ, List.foldlM_cons, List.map_cons, List.foldlM_cons, fillIndex_eq]
    cases fillPosition s pass slice m (lane, start) with
    | none => rfl
    | some m' =>
      rw [Nat.add_comm n 1, ← Nat.add_assoc]
      exact ih (start + 1) m'

/-- **The loop of a segment fills its positions in order.** -/
theorem fillSegment_eq {m : Array Block} (hm : m.size = s.memoryBlocks)
    (pass lane slice : ℕ) : fillSegment s pass lane slice m =
      (positions s pass slice lane).foldlM (fillPosition s pass slice) m := by
  have hstart : (if pass = 0 ∧ slice = 0 then
        nextAddresses ⟨zeroBlock, inputBlock s m.size pass lane slice⟩
      else ⟨zeroBlock, inputBlock s m.size pass lane slice⟩) =
      addressesAfter s pass lane slice (refreshes pass slice (startingIndex pass slice)) := by
    rw [hm, startingIndex, refreshes]
    by_cases h0 : pass = 0 ∧ slice = 0
    · obtain ⟨rfl, rfl⟩ := h0
      rfl
    · rw [if_neg h0, if_neg h0]
      split <;> rfl
  rw [fillSegment, hstart, foldlM_fillIndex, Option.map_map]
  exact congrFun Option.map_id _

/-! ## Any order of the lanes -/

/-- An order in which the blocks of a slice may be filled: every lane fills its own in turn. -/
structure Schedule (s : Shape) (pass slice : ℕ) (as : List (ℕ × ℕ)) : Prop where
  lanes : ∀ a ∈ as, a.1 < s.lanes
  shares : ∀ lane < s.lanes, share Prod.fst lane as = positions s pass slice lane

/-- Fill the memory, every slice in the given order. -/
def fillScheduled (order : ℕ → ℕ → List (ℕ × ℕ)) (s : Shape) (memory : Array Block) :
    Option (Array Block) :=
  (List.range s.passes).foldlM (fun memory pass =>
    (List.range SYNC_POINTS).foldlM (fun memory slice =>
      (order pass slice).foldlM (fillPosition s pass slice) memory) memory) memory

theorem mem_positions {a : ℕ × ℕ} : a ∈ positions s pass slice lane ↔
    a.1 = lane ∧ startingIndex pass slice ≤ a.2 ∧ a.2 < s.segmentLength := by
  obtain ⟨l, index⟩ := a
  simp only [positions, List.mem_map, List.mem_range'_1, Prod.mk.injEq]
  constructor
  · rintro ⟨i, hi, rfl, rfl⟩
    omega
  · rintro ⟨rfl, hstart, hindex⟩
    exact ⟨index, by omega, rfl, rfl⟩

theorem Schedule.position {as : List (ℕ × ℕ)} (h : Schedule s pass slice as) (hslice : slice < 4)
    {a : ℕ × ℕ} (ha : a ∈ as) : Position s pass a.1 slice a.2 := by
  have hlane := h.lanes a ha
  have hmem : a ∈ positions s pass slice a.1 := by
    rw [← h.shares a.1 hlane]
    exact mem_share.mpr ⟨ha, rfl⟩
  obtain ⟨-, hstart, hindex⟩ := mem_positions.mp hmem
  exact ⟨hlane, hslice, hstart, hindex⟩

/-- **Any order of a slice gives the same memory** as the lanes one after the other. -/
theorem slice_eq (hs : s.Valid) {as : List (ℕ × ℕ)} (h : Schedule s pass slice as)
    (hslice : slice < 4) {m : Array Block} (hm : m.size = s.memoryBlocks) :
    (List.range s.lanes).foldlM (fun memory lane => fillSegment s pass lane slice memory) m =
        as.foldlM (fillPosition s pass slice) m ∧
      ∃ m', as.foldlM (fillPosition s pass slice) m = some m' ∧ m'.size = s.memoryBlocks := by
  have htotal : ∃ m', as.foldlM (fillPosition s pass slice) m = some m' ∧
      m'.size = s.memoryBlocks :=
    (foldlM_agree (I := fun m : Array Block => m.size = s.memoryBlocks)
      (g := fillPosition s pass slice)
      (fun a ha m hm => ⟨rfl, fillPosition_total hs (h.position hslice ha) hm⟩) hm).2
  refine ⟨?_, htotal⟩
  have hlanes : ∀ lane ∈ List.range s.lanes, ∀ m : Array Block, m.size = s.memoryBlocks →
      fillSegment s pass lane slice m =
        (positions s pass slice lane).foldlM (fillPosition s pass slice) m ∧
      ∃ m', (positions s pass slice lane).foldlM (fillPosition s pass slice) m = some m' ∧
        m'.size = s.memoryBlocks := by
    intro lane hlane m hm
    refine ⟨fillSegment_eq hm pass lane slice, (foldlM_agree (I := fun m : Array Block => m.size =
      s.memoryBlocks) (g := fillPosition s pass slice) (fun a ha m hm => ⟨rfl,
        fillPosition_total hs ?_ hm⟩) hm).2⟩
    obtain ⟨rfl, hstart, hindex⟩ := mem_positions.mp ha
    exact ⟨List.mem_range.mp hlane, hslice, hstart, hindex⟩
  have hsame : SamePrograms Prod.fst as ((List.range s.lanes).flatMap (positions s pass slice)) :=
    samePrograms_flatMap List.nodup_range (fun lane _ a ha => (mem_positions.mp ha).1)
      (fun lane hlane => h.shares lane (List.mem_range.mp hlane))
      fun a ha => List.mem_range.mpr (h.lanes a ha)
  rw [(foldlM_agree hlanes hm).1, ← foldlM_flatMap, hsame.foldlM_eq]
  intro a ha b hb hne m
  exact fillPosition_comm hs (h.position hslice ha) (h.position hslice hb) hne m

/-- **Any order of the lanes gives the same memory.** -/
theorem fillMemory_eq (hs : s.Valid) {order : ℕ → ℕ → List (ℕ × ℕ)}
    (h : ∀ pass < s.passes, ∀ slice < 4, Schedule s pass slice (order pass slice))
    {m : Array Block} (hm : m.size = s.memoryBlocks) :
    fillMemory s m = fillScheduled order s m ∧
      ∃ m', fillScheduled order s m = some m' ∧ m'.size = s.memoryBlocks := by
  refine foldlM_agree (I := fun m : Array Block => m.size = s.memoryBlocks)
    (fun pass hpass m hm => ?_) hm
  refine foldlM_agree (I := fun m : Array Block => m.size = s.memoryBlocks)
    (fun slice hslice m hm => ?_) hm
  exact slice_eq hs (h pass (List.mem_range.mp hpass) slice (List.mem_range.mp hslice))
    (List.mem_range.mp hslice) hm

/-! ## The output -/

/-- The order of the program: the lanes one after the other. -/
theorem schedule_sequential (s : Shape) (pass slice : ℕ) :
    Schedule s pass slice ((List.range s.lanes).flatMap (positions s pass slice)) where
  lanes a ha := by
    obtain ⟨lane, hlane, hmem⟩ := List.mem_flatMap.mp ha
    rw [(mem_positions.mp hmem).1]
    exact List.mem_range.mp hlane
  shares lane hlane := by
    rw [share_flatMap List.nodup_range fun lane _ a ha => (mem_positions.mp ha).1,
      if_pos (List.mem_range.mpr hlane)]

theorem blake2b_total {n : ℕ} (h : 1 ≤ n ∧ n ≤ 64) (data : Bytes) :
    ∃ digest, blake2b n data = some digest ∧ digest.length = n := by
  obtain ⟨state, hnew⟩ := Blake2b.new_eq_some h
  have hdigest := Blake2b.finalize_updates hnew [data]
  rw [List.foldl_cons, List.foldl_nil, List.flatten_singleton] at hdigest
  refine ⟨Rfc7693.hash n data, by rw [blake2b, hnew, Option.map_some, hdigest], ?_⟩
  rw [Rfc7693.hash, List.length_map, List.length_range]

theorem hPrimeRest_total {fuel left : ℕ} (hfuel : left ≤ fuel) (hleft : 1 ≤ left) (v : Bytes) :
    ∃ out, hPrimeRest fuel left v = some out ∧ out.length = left := by
  induction fuel generalizing left v with
  | zero => omega
  | succ fuel ih =>
    rw [hPrimeRest]
    by_cases h : 64 < left
    · obtain ⟨digest, hdigest, hlen⟩ := blake2b_total (n := 64) (by decide) v
      obtain ⟨rest, hrest, hlen'⟩ := ih (by omega : left - 32 ≤ fuel) (by omega) digest
      rw [if_pos h, hdigest, Option.bind_eq_bind, Option.bind_some, hrest]
      refine ⟨_, rfl, ?_⟩
      rw [List.length_append, List.length_take, hlen, hlen']
      omega
    · rw [if_neg h]
      exact blake2b_total ⟨hleft, by omega⟩ v

/-- The variable-length hash has the length it is asked for. -/
theorem hPrime_total {t : ℕ} (ht : 1 ≤ t) (input : Bytes) :
    ∃ out, hPrime t input = some out ∧ out.length = t := by
  rw [hPrime]
  by_cases h : t ≤ 64
  · simp only [h, if_true]
    exact blake2b_total ⟨ht, h⟩ _
  · obtain ⟨digest, hdigest, hlen⟩ := blake2b_total (n := 64) (by decide) (leBytes 4 t ++ input)
    obtain ⟨rest, hrest, hlen'⟩ := hPrimeRest_total (by omega : t - 32 ≤ t) (by omega) digest
    simp only [h, if_false, hdigest, hrest, Option.bind_eq_bind, Option.bind_some]
    refine ⟨_, rfl, ?_⟩
    rw [List.length_append, List.length_take, hlen, hlen']
    omega

theorem seedMemory_total (hs : s.Valid) (h0 : Bytes) :
    ∃ m, seedMemory s h0 = some m ∧ m.size = s.memoryBlocks := by
  have hseg := hs.segment
  have hlane := hs.lane
  refine (foldlM_agree (I := fun m : Array Block => m.size = s.memoryBlocks)
    (fun lane hlane' m hm => ⟨rfl, ?_⟩) Array.size_replicate).2
  refine (foldlM_agree (I := fun m : Array Block => m.size = s.memoryBlocks)
    (fun col hcol m hm => ⟨rfl, ?_⟩) hm).2
  obtain ⟨bytes, hbytes, -⟩ := hPrime_total (t := 1024) (by decide)
    (h0 ++ leBytes 4 col ++ leBytes 4 lane)
  have hcol' := List.mem_range.mp hcol
  have hlt := cell_lt hs (List.mem_range.mp hlane') (by omega : col < s.laneLength)
  rw [hbytes, Option.bind_eq_bind, Option.bind_some, setBlock, if_pos (hm ▸ hlt)]
  exact ⟨_, rfl, by rw [Array.size_setIfInBounds, hm]⟩

theorem finalHash_total (hs : s.Valid) {m : Array Block} (hm : m.size = s.memoryBlocks) {outLen : ℕ}
    (hout : outLen ≠ 0) : ∃ out, finalHash s m outLen = some out ∧ out.length = outLen := by
  have hseg := hs.segment
  have hlane := hs.lane
  have hread : ∀ l < s.lanes, ∃ b, m[l * s.laneLength + (s.laneLength - 1)]? = some b := by
    intro l hl
    have hlt := cell_lt hs hl (by omega : s.laneLength - 1 < s.laneLength)
    exact ⟨_, Array.getElem?_eq_getElem (hm ▸ hlt)⟩
  obtain ⟨first, hfirst⟩ := hread 0 hs.lanes
  rw [Nat.zero_mul, Nat.zero_add] at hfirst
  obtain ⟨sum, hsum, -⟩ : ∃ sum, (List.range' 1 (s.lanes - 1)).foldlM (fun acc lane =>
      (m[lane * s.laneLength + (s.laneLength - 1)]?).bind fun block => some (xorBlock acc block))
      first = some sum ∧ True := by
    refine (foldlM_agree (I := fun _ : Block => True) (fun lane hmem acc _ => ⟨rfl, ?_⟩) trivial).2
    have hrange := List.mem_range'_1.mp hmem
    obtain ⟨block, hblock⟩ := hread lane (by omega)
    rw [hblock]
    exact ⟨_, rfl, trivial⟩
  obtain ⟨out, hhash, hlen⟩ := hPrime_total (Nat.one_le_iff_ne_zero.mpr hout) (blockBytes sum)
  refine ⟨out, ?_, hlen⟩
  rw [finalHash, checkedSub_of_le (by omega)]
  simp only [Option.bind_eq_bind, Option.bind_some, hfirst, Option.pure_def]
  rw [hsum, Option.bind_some, hhash]

section

variable (password salt secret associated : Bytes) (memoryKib passes lanes : UInt32) (outLen : ℕ)

/-- **References are safe.** For all parameters, no step of the computation of a reference fails.
The block lies in the memory; it is not the one that is written; in the first pass it has been
written before; and no other lane writes it in the same slice. -/
theorem reference_safe (hl : lanes ≠ 0) {pass lane slice index : ℕ}
    (h : Position (shape memoryKib passes lanes) pass lane slice index) (word : UInt64) :
    let s := shape memoryKib passes lanes
    ∃ refLane refColumn, reference s pass lane slice index word = some (refLane, refColumn) ∧
      refLane * s.laneLength + refColumn < s.memoryBlocks ∧
      refLane * s.laneLength + refColumn ≠ cell s slice (lane, index) ∧
      (pass = 0 → refColumn < slice * s.segmentLength + if refLane = lane then index else 0) ∧
      ∀ b : ℕ × ℕ, Position s pass b.1 slice b.2 → b.1 ≠ lane →
        refLane * s.laneLength + refColumn ≠ cell s slice b := by
  intro s
  have hs : s.Valid := shape_valid hl memoryKib passes
  obtain ⟨l, c, href, hlt, hc, hown, -, hwritten⟩ := reference_spec hs h word
  refine ⟨l, c, href, cell_lt hs hlt hc, fun heq => ?_, hwritten,
    fun b hb hne => reference_ne_cell hs h href hb hne⟩
  obtain ⟨hlane, hcolumn⟩ := cell_inj hc (h.column_lt hs) heq
  exact (hown hlane).1 hcolumn

/-- **The output does not depend on the order of the lanes.** For all inputs with at least one lane,
one pass and one byte of output, the derivation returns that many bytes, and filling every slice in
any order of its blocks that keeps the order of each lane gives the same bytes. -/
theorem argon2id_anyOrder (hl : lanes ≠ 0) (hp : passes ≠ 0) (ho : outLen ≠ 0) :
    ∃ out, argon2idFull password salt secret associated memoryKib passes lanes outLen = some out ∧
      out.length = outLen ∧
      ∀ order : ℕ → ℕ → List (ℕ × ℕ), (∀ pass < passes.toNat, ∀ slice < 4,
          Schedule (shape memoryKib passes lanes) pass slice (order pass slice)) →
        deriveWith (fillScheduled order) password salt secret associated memoryKib passes lanes
          outLen = some out := by
  obtain ⟨s, hshape⟩ : ∃ s, s = shape memoryKib passes lanes := ⟨_, rfl⟩
  have hs : s.Valid := hshape ▸ shape_valid hl memoryKib passes
  have hpasses : s.passes = passes.toNat := by rw [hshape]; rfl
  obtain ⟨h0, hh0, -⟩ := blake2b_total (n := 64) (by decide)
    (h0Input password salt secret associated memoryKib passes lanes outLen)
  obtain ⟨m, hm, hsize⟩ := seedMemory_total hs h0
  have hderive : ∀ fill, deriveWith fill password salt secret associated memoryKib passes lanes
      outLen = (fill s m).bind fun m => finalHash s m outLen := by
    intro fill
    rw [deriveWith, if_pos ⟨hl, hp, ho⟩, ← hshape]
    simp only [Option.bind_eq_bind, hh0, Option.bind_some, hm]
  obtain ⟨hsequential, m', hm', hsize'⟩ := fillMemory_eq hs
    (fun pass _ slice _ => schedule_sequential s pass slice) hsize
  obtain ⟨out, hout, hlen⟩ := finalHash_total hs hsize' ho
  have hfill : fillMemory s m = some m' := hsequential.trans hm'
  refine ⟨out, by rw [argon2idFull, hderive, hfill, Option.bind_some, hout], hlen,
    fun order horder => ?_⟩
  rw [← hshape, ← hpasses] at horder
  rw [hderive, ← (fillMemory_eq hs horder hsize).1, hfill, Option.bind_some, hout]

end

/-- The reference of the last block of a memory of 32 blocks in four lanes. -/
theorem reference_safe_last :
    let s := shape 32 3 4
    ∃ refLane refColumn, reference s 2 3 3 1 0x123456789abcdef0 = some (refLane, refColumn) ∧
      refLane * s.laneLength + refColumn < s.memoryBlocks ∧
      ∀ b : ℕ × ℕ, Position s 2 b.1 3 b.2 → b.1 ≠ 3 →
        refLane * s.laneLength + refColumn ≠ cell s 3 b := by
  have hposition : Position (shape 32 3 4) 2 3 3 1 :=
    ⟨by decide, by decide, by decide, by decide⟩
  obtain ⟨l, c, href, hlt, -, -, hother⟩ := reference_safe 32 3 4 (by decide) hposition
    0x123456789abcdef0
  exact ⟨l, c, href, hlt, hother⟩

/-- The lanes of a slice in turn, a block each. -/
def roundRobin (s : Shape) (pass slice : ℕ) : List (ℕ × ℕ) :=
  let start := startingIndex pass slice
  (List.range' start (s.segmentLength - start)).flatMap fun index =>
    (List.range s.lanes).map fun lane => (lane, index)

/-- Four lanes in turn derive the same key as one after the other. -/
theorem argon2id_anyOrder_roundRobin :
    deriveWith (fillScheduled (roundRobin (shape 32 1 4))) [1] [2] [] [] 32 1 4 32 =
      argon2idFull [1] [2] [] [] 32 1 4 32 := by
  obtain ⟨out, hout, -, horder⟩ := argon2id_anyOrder [1] [2] [] [] 32 1 4 32
    (by decide) (by decide) (by decide)
  rw [hout]
  refine horder _ fun pass hpass slice hslice => ?_
  obtain rfl : pass = 0 := Nat.lt_one_iff.mp hpass
  interval_cases slice <;> exact ⟨by decide, by decide⟩

end Argon2

end Ciphra
