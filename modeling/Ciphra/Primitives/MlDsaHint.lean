import Mathlib.Data.List.GetD
import Mathlib.Data.List.Sort
import Ciphra.Foundations.Words
import Ciphra.Primitives.MlDsa

/-!
# The hint section of a signature

The set coefficients of all polynomials are written as positions, padded with zeros, and followed
by the number of positions after each polynomial. `hintBytes` is that layout. The encoder writes it
(`hintEncode_eq`) and the decoder accepts nothing else (`hintDecode_eq_some_iff`): positions out of
order, counters that do not fit and bytes in the padding are refused, so there is one encoding of a
hint.

`Checked` has the same programs with every index checked.
-/

namespace Ciphra

namespace MlDsa

/-- Every coefficient is 0 or 1. -/
def Binary (p : Poly) : Prop := ∀ j < 256, p[j]! = 0 ∨ p[j]! = 1

/-- The set coefficients of a polynomial. -/
def positions (p : Poly) : List ℕ := (List.range 256).filter fun j => p[j]! ≠ 0

/-- The set coefficients of the first `n` polynomials. -/
def placed (hint : VecK) (n : ℕ) : List ℕ :=
  ((List.finRange 6).take n).flatMap fun i => positions (hint i)

/-- Positions, padding and counters. -/
def hintBytes (hint : VecK) : Bytes :=
  (placed hint 6).map UInt8.ofNat ++ (List.replicate (omega - (placed hint 6).length) 0 ++
    (List.range 6).map fun i => UInt8.ofNat (placed hint (i + 1)).length)

/-! ## The programs with every index checked -/

namespace Checked

/-- How a decoder stops: the encoding is refused, or an index is out of range. -/
inductive Halt
  | refused
  | outOfRange
  deriving DecidableEq, Repr

/-- `b[i]`. -/
def get (b : Bytes) (i : ℕ) : Except Halt UInt8 :=
  match b[i]? with
  | some x => .ok x
  | none => .error .outOfRange

/-- The result of a function that returns nothing where it refuses its argument. -/
def orRefuse {α : Type} : Option α → Except Halt α
  | some x => .ok x
  | none => .error .refused

/-- The result of a function that returns nothing where it reads out of range. -/
def inRange {α : Type} : Option α → Except Halt α
  | some x => .ok x
  | none => .error .outOfRange

/-- `p[i] = 1`. -/
def setOne (p : Poly) (i : ℕ) : Except Halt Poly :=
  if i < 256 then .ok (p.set! i 1) else .error .outOfRange

/-- The check that the position at `j` follows the one before it. -/
def increases (hint : Bytes) (k j : ℕ) : Except Halt Unit := do
  if j > k then
    if (← get hint j) ≤ (← get hint (j - 1)) then .error .refused else .ok ()
  else .ok ()

def hintDecodeRow (hint : Bytes) (k last : ℕ) : Except Halt Poly :=
  (List.range' k (last - k)).foldlM
    (fun p j => do
      increases hint k j
      setOne p (← get hint j).toNat) zeroPoly

def hintDecodeLoop (hint : Bytes) (s : ℕ × VecK) (i : Fin 6) : Except Halt (ℕ × VecK) := do
  let last := (← get hint (omega + i)).toNat
  if last < s.1 ∨ last > omega then .error .refused
  else do
    let p ← hintDecodeRow hint s.1 last
    .ok (last, Function.update s.2 i p)

def hintDecode (hint : Bytes) : Except Halt VecK := do
  let s ← (List.finRange 6).foldlM (hintDecodeLoop hint) (0, fun _ => zeroPoly)
  let padding ← inRange (slice hint s.1 omega)
  if padding.all (· == 0) then .ok s.2 else .error .refused

/-- `b[i] = x`. -/
def set (b : Bytes) (i : ℕ) (x : UInt8) : Option Bytes :=
  if i < b.length then some (b.set i x) else none

def hintRow (p : Poly) (s : Bytes × ℕ) : Option (Bytes × ℕ) :=
  (List.range 256).foldlM
    (fun s j => if p[j]! ≠ 0 then (set s.1 s.2 (UInt8.ofNat j)).map (·, s.2 + 1) else some s) s

def hintStep (hint : VecK) (s : Bytes × ℕ) (i : Fin 6) : Option (Bytes × ℕ) := do
  let s ← hintRow (hint i) s
  (set s.1 (omega + i) (UInt8.ofNat s.2)).map (·, s.2)

def hintEncode (hint : VecK) : Option Bytes :=
  ((List.finRange 6).foldlM (hintStep hint) (List.replicate (omega + 6) 0, 0)).map Prod.fst

end Checked

/-! ## Positions -/

theorem mem_positions {p : Poly} {j : ℕ} : j ∈ positions p ↔ j < 256 ∧ p[j]! ≠ 0 := by
  simp [positions]

theorem sortedLT_positions (p : Poly) : (positions p).SortedLT :=
  (List.sortedLT_range 256).pairwise.filter _ |>.sortedLT

/-- The polynomial with ones at the positions of a list. -/
def onesAt (xs : List ℕ) : Poly := xs.foldl (fun p j => p.set! j 1) zeroPoly

theorem getElem!_onesAt {xs : List ℕ} (hlt : ∀ x ∈ xs, x < 256) {j : ℕ} (hj : j < 256) :
    (onesAt xs)[j]! = if j ∈ xs then 1 else 0 := by
  induction xs using List.reverseRecOn with
  | nil => simp [onesAt, zeroPoly, hj]
  | append_singleton xs x ih =>
    have hset : onesAt (xs ++ [x]) = (onesAt xs).set! x 1 := by simp [onesAt]
    rw [hset, getElem!_set! _ j x _ (hlt x (by simp)),
      ih fun y hy => hlt y (List.mem_append_left _ hy)]
    by_cases hjx : j = x
    · simp [hjx]
    · simp [hjx]

theorem binary_onesAt {xs : List ℕ} (hlt : ∀ x ∈ xs, x < 256) : Binary (onesAt xs) := by
  intro j hj
  rw [getElem!_onesAt hlt hj]
  split
  · exact Or.inr rfl
  · exact Or.inl rfl

theorem positions_onesAt {xs : List ℕ} (hlt : ∀ x ∈ xs, x < 256) (hs : xs.SortedLT) :
    positions (onesAt xs) = xs := by
  refine (sortedLT_positions _).eq_of_mem_iff hs fun j => ?_
  rw [mem_positions]
  constructor
  · rintro ⟨hj, hne⟩
    by_contra hmem
    exact hne (by rw [getElem!_onesAt hlt hj, if_neg hmem])
  · intro hmem
    refine ⟨hlt j hmem, ?_⟩
    rw [getElem!_onesAt hlt (hlt j hmem), if_pos hmem]
    decide

theorem lt_of_mem_positions {p : Poly} {j : ℕ} (h : j ∈ positions p) : j < 256 :=
  (mem_positions.mp h).1

theorem onesAt_positions {p : Poly} (hp : Binary p) : onesAt (positions p) = p := by
  refine Vector.ext fun j hj => ?_
  rw [← getElem!_pos (onesAt (positions p)) j hj, ← getElem!_pos p j hj,
    getElem!_onesAt (fun _ => lt_of_mem_positions) hj]
  rcases hp j hj with h0 | h1
  · rw [if_neg fun hmem => (mem_positions.mp hmem).2 h0, h0]
  · rw [if_pos (mem_positions.mpr ⟨hj, by rw [h1]; decide⟩), h1]

/-- A polynomial of zeros and ones and its positions determine each other. -/
theorem eq_onesAt_iff {p : Poly} {xs : List ℕ} (hlt : ∀ x ∈ xs, x < 256) :
    (xs.SortedLT ∧ p = onesAt xs) ↔ Binary p ∧ positions p = xs := by
  constructor
  · rintro ⟨hs, rfl⟩
    exact ⟨binary_onesAt hlt, positions_onesAt hlt hs⟩
  · rintro ⟨hp, rfl⟩
    exact ⟨sortedLT_positions p, (onesAt_positions hp).symm⟩

theorem placed_succ (hint : VecK) (i : Fin 6) :
    placed hint (i + 1) = placed hint i ++ positions (hint i) := by
  have hlen : (i : ℕ) < (List.finRange 6).length := by simp
  rw [placed, List.take_succ_eq_append_getElem hlen, List.flatMap_append, placed]
  simp

theorem placed_isPrefix (hint : VecK) {m n : ℕ} (h : m ≤ n) : placed hint m <+: placed hint n := by
  rw [placed, placed, ← List.take_append_drop m ((List.finRange 6).take n), List.take_take,
    min_eq_left h, List.flatMap_append]
  exact List.prefix_append _ _

theorem length_placed_le (hint : VecK) {m n : ℕ} (h : m ≤ n) :
    (placed hint m).length ≤ (placed hint n).length := (placed_isPrefix hint h).length_le

/-- Polynomials from the `n`th on do not matter for the positions of the first `n`. -/
theorem placed_congr {v v' : VecK} {n : ℕ} (h : ∀ i : Fin 6, (i : ℕ) < n → v i = v' i) :
    placed v n = placed v' n := by
  refine List.flatMap_congr fun i hi => ?_
  obtain ⟨k, hk, hget⟩ := List.getElem_of_mem hi
  have hkn : k < n := by
    rw [List.length_take] at hk
    omega
  have hik : (i : ℕ) = k := by
    rw [← hget, List.getElem_take]
    simp
  rw [h i (by omega)]

/-! ## Decoding -/

/-- The positions read so far, from `k` on. -/
def readPositions (hint : Bytes) (k n : ℕ) : List ℕ := ((hint.drop k).take n).map UInt8.toNat

theorem readPositions_succ {hint : Bytes} {k n : ℕ} (h : k + n < hint.length) :
    readPositions hint k (n + 1) = readPositions hint k n ++ [(hint.getD (k + n) 0).toNat] := by
  have hlen : n < (hint.drop k).length := by
    rw [List.length_drop]
    omega
  rw [readPositions, List.take_succ_eq_append_getElem hlen, List.map_append, List.map_singleton,
    List.getElem_drop, List.getD_eq_getElem _ _ h]
  rfl

theorem sortedLT_concat_iff {xs : List ℕ} {x : ℕ} :
    (xs ++ [x]).SortedLT ↔ xs.SortedLT ∧ ∀ y, xs.getLast? = some y → y < x := by
  constructor
  · intro h
    have hp := List.pairwise_append.mp h.pairwise
    refine ⟨hp.1.sortedLT, fun y hy => hp.2.2 y (List.mem_of_getLast? hy) x (by simp)⟩
  · rintro ⟨hs, hlast⟩
    refine (List.pairwise_append.mpr ⟨hs.pairwise, List.pairwise_singleton _ _, ?_⟩).sortedLT
    intro y hy z hz
    obtain rfl := List.mem_singleton.mp hz
    cases hl : xs.getLast? with
    | none =>
      rw [List.getLast?_eq_none_iff.mp hl] at hy
      cases hy
    | some w =>
      refine lt_of_le_of_lt ?_ (hlast w hl)
      obtain ⟨ys, rfl⟩ := List.getLast?_eq_some_iff.mp hl
      rcases List.mem_append.mp hy with hy | hy
      · exact (List.pairwise_append.mp hs.pairwise).2.2 y hy w (by simp) |>.le
      · exact (List.mem_singleton.mp hy).le

/-- A row is accepted if and only if its positions increase. -/
theorem hintDecodeRow_iff {hint : Bytes} {k n : ℕ} (hlen : k + n ≤ hint.length) {p : Poly} :
    hintDecodeRow hint k (k + n) = some p ↔
      (readPositions hint k n).SortedLT ∧ p = onesAt (readPositions hint k n) := by
  rw [hintDecodeRow, Nat.add_sub_cancel_left]
  induction n generalizing p with
  | zero =>
    have hnil : readPositions hint k 0 = [] := by simp [readPositions]
    have hs : ([] : List ℕ).SortedLT := List.Pairwise.nil.sortedLT
    rw [hnil, and_iff_right hs]
    simp [onesAt, eq_comm]
  | succ n ih =>
    have hones : ∀ xs x, onesAt (xs ++ [x]) = (onesAt xs).set! x 1 := by
      intro xs x
      simp [onesAt]
    have hlast : (readPositions hint k n).getLast? =
        if n = 0 then none else some (hint.getD (k + n - 1) 0).toNat := by
      cases n with
      | zero => simp [readPositions]
      | succ n =>
        rw [readPositions_succ (by omega), List.getLast?_concat, if_neg (by omega)]
        rfl
    rw [List.range'_concat, List.foldlM_append, readPositions_succ (by omega),
      sortedLT_concat_iff, hlast, hones]
    simp only [Option.bind_eq_bind, Option.bind_eq_some_iff, List.foldlM_cons, List.foldlM_nil,
      Nat.one_mul]
    have hstep : ∀ (q : Poly) (x y : UInt8),
        (∃ r, (if k + n > k ∧ x ≤ y then none else some (q.set! x.toNat 1)) = some r ∧
          some r = some p) ↔
        (∀ z, (if n = 0 then none else some y.toNat) = some z → z < x.toNat) ∧
          p = q.set! x.toNat 1 := by
      intro q x y
      by_cases hn : n = 0
      · simp [hn, eq_comm]
      · have hk : k + n > k := by omega
        simp only [hn, hk, true_and, if_false]
        by_cases hle : x ≤ y
        · rw [if_pos hle]
          have hge := UInt8.le_iff_toNat_le.mp hle
          simp only [reduceCtorEq, false_and, exists_false, Option.some.injEq, false_iff, not_and]
          intro hlt
          have := hlt _ rfl
          omega
        · rw [if_neg hle]
          have hlt := UInt8.lt_iff_toNat_lt.mp (UInt8.not_le.mp hle)
          simp [hlt, eq_comm]
    constructor
    · rintro ⟨q, hq, hp⟩
      obtain ⟨hs, rfl⟩ := (ih (by omega)).mp hq
      obtain ⟨hy, hset⟩ := (hstep _ _ _).mp hp
      exact ⟨⟨hs, hy⟩, hset⟩
    · rintro ⟨⟨hs, hy⟩, hset⟩
      exact ⟨_, (ih (by omega)).mpr ⟨hs, rfl⟩, (hstep _ _ _).mpr ⟨hy, hset⟩⟩

theorem length_readPositions {hint : Bytes} {k n : ℕ} (h : k + n ≤ hint.length) :
    (readPositions hint k n).length = n := by
  rw [readPositions, List.length_map, List.length_take, List.length_drop]
  omega

theorem readPositions_add (hint : Bytes) (k m n : ℕ) :
    readPositions hint k (m + n) = readPositions hint k m ++ readPositions hint (k + m) n := by
  rw [readPositions, readPositions, readPositions, ← List.map_append, List.take_add,
    List.drop_drop]

theorem lt_of_mem_readPositions {hint : Bytes} {k n j : ℕ} (h : j ∈ readPositions hint k n) :
    j < 256 := by
  obtain ⟨b, -, rfl⟩ := List.mem_map.mp h
  exact b.toNat_lt

/-- The first `n` polynomials have been read: `k` positions. -/
structure Decodes (hint : Bytes) (n k : ℕ) (v : VecK) : Prop where
  count : (placed v n).length = k
  le : k ≤ omega
  read : readPositions hint 0 k = placed v n
  counters : ∀ i < n, (hint.getD (omega + i) 0).toNat = (placed v (i + 1)).length
  binary : ∀ i, Binary (v i)
  rest : ∀ i : Fin 6, n ≤ i → v i = zeroPoly

theorem binary_zeroPoly : Binary zeroPoly := by
  intro j hj
  exact Or.inl (by simp [zeroPoly, hj])

theorem placed_update {v : VecK} {n : Fin 6} {p : Poly} {m : ℕ} (hm : m ≤ n) :
    placed (Function.update v n p) m = placed v m := by
  refine placed_congr fun i hi => Function.update_of_ne (fun h => ?_) _ _
  rw [h] at hi
  omega

theorem placed_update_succ (v : VecK) (n : Fin 6) (p : Poly) :
    placed (Function.update v n p) (n + 1) = placed v n ++ positions p := by
  rw [placed_succ, placed_update le_rfl, Function.update_self]

theorem hintDecodeLoop_eq_some {hint : Bytes} (hlen : hint.length = omega + 6) {k k' : ℕ}
    {v v' : VecK} {n : Fin 6} :
    hintDecodeLoop hint (k, v) n = some (k', v') ↔
      k' = (hint.getD (omega + n) 0).toNat ∧ k ≤ k' ∧ k' ≤ omega ∧
        ∃ p, Binary p ∧ positions p = readPositions hint k (k' - k) ∧
          v' = Function.update v n p := by
  unfold hintDecodeLoop
  simp only
  generalize (hint.getD (omega + n) 0).toNat = last
  by_cases hcond : last < k ∨ last > omega
  · rw [if_pos hcond]
    simp only [reduceCtorEq, false_iff]
    rintro ⟨rfl, hk, hle, -⟩
    omega
  · rw [if_neg hcond]
    obtain ⟨m, rfl⟩ : ∃ m, last = k + m := ⟨last - k, by omega⟩
    have hrow : ∀ p, hintDecodeRow hint k (k + m) = some p ↔
        Binary p ∧ positions p = readPositions hint k m := fun p =>
      (hintDecodeRow_iff (by omega)).trans (eq_onesAt_iff fun _ => lt_of_mem_readPositions)
    simp only [Option.bind_eq_bind, Option.bind_eq_some_iff, hrow, Option.pure_def,
      Option.some.injEq, Prod.mk.injEq]
    constructor
    · rintro ⟨p, ⟨hp, hpos⟩, rfl, rfl⟩
      exact ⟨rfl, by omega, by omega, p, hp, by rw [hpos, Nat.add_sub_cancel_left], rfl⟩
    · rintro ⟨rfl, hk, hle, p, hp, hpos, rfl⟩
      rw [Nat.add_sub_cancel_left] at hpos
      exact ⟨p, ⟨hp, hpos⟩, rfl, rfl⟩

theorem Decodes.succ {hint : Bytes} (hlen : hint.length = omega + 6) {k : ℕ} {v : VecK}
    {n : Fin 6} (h : Decodes hint n k v) {last : ℕ} {p : Poly}
    (hlast : last = (hint.getD (omega + n) 0).toNat) (hk : k ≤ last) (hle : last ≤ omega)
    (hp : Binary p) (hpos : positions p = readPositions hint k (last - k)) :
    Decodes hint (n + 1) last (Function.update v n p) := by
  obtain ⟨m, rfl⟩ : ∃ m, last = k + m := ⟨last - k, by omega⟩
  rw [Nat.add_sub_cancel_left] at hpos
  have hplaced := placed_update_succ v n p
  have hcount : (placed (Function.update v n p) (n + 1)).length = k + m := by
    rw [hplaced, List.length_append, h.count, hpos, length_readPositions (by omega)]
  refine ⟨hcount, hle, ?_, ?_, ?_, ?_⟩
  · rw [readPositions_add, h.read, hplaced, hpos, Nat.zero_add]
  · intro i hi
    rcases Nat.lt_succ_iff_lt_or_eq.mp hi with hlt | rfl
    · rw [h.counters i hlt, placed_update hlt]
    · rw [← hlast, hcount]
  · intro i
    by_cases hin : i = n
    · rw [hin, Function.update_self]
      exact hp
    · rw [Function.update_of_ne hin]
      exact h.binary i
  · intro i hi
    rw [Function.update_of_ne (fun he => by rw [he] at hi; omega)]
    exact h.rest i (by omega)

theorem Decodes.pred {hint : Bytes} {k : ℕ} {v : VecK} {n : Fin 6}
    (h : Decodes hint (n + 1) k v) :
    Decodes hint n (placed v n).length (Function.update v n zeroPoly) := by
  have hsame : placed (Function.update v n zeroPoly) n = placed v n := placed_update le_rfl
  have hle : (placed v n).length ≤ k := by
    rw [← h.count]
    exact length_placed_le v (by omega)
  refine ⟨congrArg List.length hsame, hle.trans h.le, ?_, ?_, ?_, ?_⟩
  · have hread := congrArg (List.take (placed v n).length) h.read
    rw [placed_succ, List.take_left, readPositions, ← List.map_take, List.take_take,
      min_eq_left hle] at hread
    rw [hsame]
    exact hread
  · intro i hi
    rw [h.counters i (by omega), placed_update hi]
  · intro i
    by_cases hin : i = n
    · rw [hin, Function.update_self]
      exact binary_zeroPoly
    · rw [Function.update_of_ne hin]
      exact h.binary i
  · intro i hi
    by_cases hin : i = n
    · rw [hin, Function.update_self]
    · rw [Function.update_of_ne hin]
      exact h.rest i (by have : (i : ℕ) ≠ n := fun he => hin (Fin.ext he); omega)

/-- After `n` rounds the decoder has read the first `n` polynomials, and only what can be read
takes it there. -/
theorem decodes_iff {hint : Bytes} (hlen : hint.length = omega + 6) {n : ℕ} (hn : n ≤ 6) {k : ℕ}
    {v : VecK} :
    ((List.finRange 6).take n).foldlM (hintDecodeLoop hint) (0, fun _ => zeroPoly) = some (k, v) ↔
      Decodes hint n k v := by
  induction n generalizing k v with
  | zero =>
    constructor
    · intro h
      cases h
      exact ⟨rfl, Nat.zero_le _, rfl, fun i hi => absurd hi (Nat.not_lt_zero i),
        fun _ => binary_zeroPoly, fun _ _ => rfl⟩
    · intro h
      have hk : k = 0 := h.count.symm
      have hv : v = fun _ => zeroPoly := funext fun i => h.rest i (Nat.zero_le _)
      rw [hk, hv]
      rfl
  | succ n ih =>
    obtain ⟨i, rfl⟩ : ∃ i : Fin 6, n = i := ⟨⟨n, by omega⟩, rfl⟩
    have hget : (List.finRange 6).take (i + 1) = (List.finRange 6).take i ++ [i] := by
      rw [List.take_succ_eq_append_getElem (by simp)]
      simp
    rw [hget, List.foldlM_append]
    simp only [Option.bind_eq_bind, Option.bind_eq_some_iff, List.foldlM_cons, List.foldlM_nil,
      Option.pure_def, Option.some.injEq, exists_eq_right]
    constructor
    · rintro ⟨⟨k₀, v₀⟩, hrun, hstep⟩
      obtain ⟨hlast, hk, hle, p, hp, hpos, rfl⟩ := (hintDecodeLoop_eq_some hlen).mp hstep
      exact ((ih (by omega)).mp hrun).succ hlen hlast hk hle hp hpos
    · intro h
      refine ⟨_, (ih (by omega)).mpr h.pred, (hintDecodeLoop_eq_some hlen).mpr
        ⟨?_, ?_, h.le, v i, h.binary i, ?_, ?_⟩⟩
      · rw [h.counters i (by omega), h.count]
      · rw [← h.count]
        exact length_placed_le v (by omega)
      · have hcount := h.count
        rw [placed_succ, List.length_append] at hcount
        have hread := h.read
        rw [← hcount, readPositions_add, placed_succ, Nat.zero_add] at hread
        obtain ⟨-, hread⟩ := List.append_inj hread
          (length_readPositions (by have := h.le; omega))
        rw [← hread, ← hcount, Nat.add_sub_cancel_left]
      · rw [Function.update_idem, Function.update_eq_self]

theorem map_ofNat_toNat (b : Bytes) : (b.map UInt8.toNat).map UInt8.ofNat = b := by
  rw [List.map_map]
  exact List.map_id'' (fun x => UInt8.ofNat_toNat) b

theorem map_toNat_placed (v : VecK) (n : ℕ) :
    ((placed v n).map UInt8.ofNat).map UInt8.toNat = placed v n := by
  rw [List.map_map]
  refine (List.map_congr_left fun j hj => ?_).trans (List.map_id _)
  obtain ⟨i, -, hi⟩ := List.mem_flatMap.mp hj
  rw [Function.comp_apply, UInt8.toNat_ofNat', Nat.mod_eq_of_lt (lt_of_mem_positions hi), id]

theorem toNat_ofNat_of_le_omega {x : ℕ} (h : x ≤ omega) : (UInt8.ofNat x).toNat = x := by
  rw [UInt8.toNat_ofNat', Nat.mod_eq_of_lt (Nat.lt_of_le_of_lt h (by decide))]

theorem Decodes.eq_hintBytes {hint : Bytes} (hlen : hint.length = omega + 6) {k : ℕ} {v : VecK}
    (h : Decodes hint 6 k v)
    (hpad : ((hint.drop k).take (omega - k)).all (· == 0) = true) : hint = hintBytes v := by
  have hplaced : hint.take k = (placed v 6).map UInt8.ofNat := by
    rw [← h.read, readPositions, map_ofNat_toNat, List.drop_zero]
  have hzeros : (hint.drop k).take (omega - k) = List.replicate (omega - k) 0 := by
    refine List.eq_replicate_iff.mpr ⟨?_, fun b hb => ?_⟩
    · rw [List.length_take, List.length_drop]
      omega
    · exact beq_iff_eq.mp (List.all_eq_true.mp hpad b hb)
  have hcounters : hint.drop omega =
      (List.range 6).map fun i => UInt8.ofNat (placed v (i + 1)).length := by
    refine List.ext_getElem (by simp [hlen]) fun i hi hi' => ?_
    have hi6 : i < 6 := by simpa using hi'
    rw [List.getElem_drop, List.getElem_map, List.getElem_range, ← h.counters i hi6,
      UInt8.ofNat_toNat, List.getD_eq_getElem]
  have hle := h.le
  calc hint = hint.take k ++ ((hint.drop k).take (omega - k) ++ (hint.drop k).drop (omega - k)) := by
        rw [List.take_append_drop, List.take_append_drop]
    _ = hintBytes v := by
        rw [List.drop_drop, Nat.add_sub_cancel' hle, hplaced, hzeros, hcounters, hintBytes, h.count]

theorem length_hintBytes {v : VecK} (h : (placed v 6).length ≤ omega) :
    (hintBytes v).length = omega + 6 := by
  simp only [hintBytes, List.length_append, List.length_map, List.length_replicate,
    List.length_range]
  omega

theorem decodes_hintBytes {v : VecK} (hv : ∀ i, Binary (v i)) (h : (placed v 6).length ≤ omega) :
    Decodes (hintBytes v) 6 (placed v 6).length v := by
  refine ⟨rfl, h, ?_, ?_, hv, fun i hi => absurd i.isLt (by omega)⟩
  · rw [readPositions, List.drop_zero, hintBytes, List.take_left' (by simp), map_toNat_placed]
  · intro i hi
    have hget : (hintBytes v).getD (omega + i) 0 = UInt8.ofNat (placed v (i + 1)).length := by
      rw [hintBytes, ← List.append_assoc, List.getD_append_right _ _ _ _ (by simp; omega),
        List.getD_eq_getElem _ _ (by simp; omega), List.getElem_map, List.getElem_range]
      simp only [List.length_append, List.length_map, List.length_replicate]
      rw [show omega + i - ((placed v 6).length + (omega - (placed v 6).length)) = i by omega]
    rw [hget, toNat_ofNat_of_le_omega ((length_placed_le v (by omega)).trans h)]

/-- The decoder accepts exactly what the layout of a hint is. -/
theorem hintDecode_eq_some_iff {hint : Bytes} (hlen : hint.length = omega + 6) {v : VecK} :
    hintDecode hint = some v ↔
      (∀ i, Binary (v i)) ∧ (placed v 6).length ≤ omega ∧ hint = hintBytes v := by
  have hall : (List.finRange 6).take 6 = List.finRange 6 := List.take_of_length_le (by simp)
  have hloop := fun k v => hall ▸ decodes_iff hlen (le_refl 6) (k := k) (v := v)
  rw [hintDecode]
  simp only [Option.bind_eq_bind, Option.bind_eq_some_iff, Prod.exists, hloop]
  constructor
  · rintro ⟨k, v', hrun, hpad⟩
    split at hpad
    · next hzero =>
      obtain rfl := Option.some.inj hpad
      refine ⟨hrun.binary, ?_, hrun.eq_hintBytes hlen hzero⟩
      rw [hrun.count]
      exact hrun.le
    · cases hpad
  · rintro ⟨hv, hle, rfl⟩
    refine ⟨_, v, decodes_hintBytes hv hle, ?_⟩
    have hzeros : ((hintBytes v).drop (placed v 6).length).take (omega - (placed v 6).length) =
        List.replicate (omega - (placed v 6).length) 0 := by
      rw [hintBytes, List.drop_left' (by simp), List.take_left' (by simp)]
    rw [hzeros, if_pos (by simp)]
    rfl

/-! ## Encoding -/

/-- The positions of a row take the place of zeros. -/
theorem checked_hintRow {p : Poly} (pre tail : Bytes) (l : List ℕ) {m : ℕ}
    (h : (l.filter fun j => p[j]! ≠ 0).length ≤ m) :
    l.foldlM (fun (s : Bytes × ℕ) j =>
      if p[j]! ≠ 0 then (Checked.set s.1 s.2 (UInt8.ofNat j)).map (·, s.2 + 1) else some s)
      (pre ++ (List.replicate m 0 ++ tail), pre.length) =
    some (pre ++ (l.filter fun j => p[j]! ≠ 0).map UInt8.ofNat ++
        (List.replicate (m - (l.filter fun j => p[j]! ≠ 0).length) 0 ++ tail),
      pre.length + (l.filter fun j => p[j]! ≠ 0).length) := by
  induction l generalizing pre m with
  | nil => simp
  | cons j l ih =>
    rw [List.foldlM_cons]
    by_cases hj : p[j]! ≠ 0
    · rw [List.filter_cons_of_pos (by simpa using hj)] at h ⊢
      obtain ⟨m, rfl⟩ : ∃ m', m = m' + 1 := ⟨m - 1, by rw [List.length_cons] at h; omega⟩
      have hset : Checked.set (pre ++ (List.replicate (m + 1) 0 ++ tail)) pre.length
          (UInt8.ofNat j) = some (pre ++ [UInt8.ofNat j] ++ (List.replicate m 0 ++ tail)) := by
        rw [Checked.set, if_pos (by simp), List.set_append_right _ _ le_rfl, Nat.sub_self]
        simp [List.replicate_succ]
      rw [if_pos hj, hset]
      have hih := ih (pre ++ [UInt8.ofNat j]) (m := m) (by simpa using h)
      rw [List.length_append, List.length_singleton] at hih
      rw [Option.map_some, Option.bind_eq_bind, Option.bind_some, hih]
      simp [Nat.add_assoc, Nat.add_comm 1]
    · rw [List.filter_cons_of_neg (by simpa using hj)] at h ⊢
      rw [if_neg hj, Option.bind_eq_bind, Option.bind_some]
      exact ih pre h

/-- The buffer after the first `n` polynomials. -/
def hintPrefix (hint : VecK) (n : ℕ) : Bytes :=
  (placed hint n).map UInt8.ofNat ++ (List.replicate (omega - (placed hint n).length) 0 ++
    ((List.range n).map (fun i => UInt8.ofNat (placed hint (i + 1)).length) ++
      List.replicate (6 - n) 0))

theorem checked_hintStep {hint : VecK} {i : Fin 6} (h : (placed hint (i + 1)).length ≤ omega) :
    Checked.hintStep hint (hintPrefix hint i, (placed hint i).length) i =
      some (hintPrefix hint (i + 1), (placed hint (i + 1)).length) := by
  have hlen : (placed hint (i + 1)).length =
      (placed hint i).length + (positions (hint i)).length := by
    rw [placed_succ, List.length_append]
  have hi := i.isLt
  obtain ⟨m, hm⟩ : ∃ m, 6 - (i : ℕ) = m + 1 := ⟨5 - i, by omega⟩
  -- positions and padding together fill the first part of the buffer
  obtain ⟨front, hfront⟩ : ∃ front, front = (placed hint (i + 1)).map UInt8.ofNat ++
      List.replicate (omega - (placed hint (i + 1)).length) 0 := ⟨_, rfl⟩
  have hfrontLen : front.length = omega := by
    rw [hfront, List.length_append, List.length_map, List.length_replicate]
    omega
  obtain ⟨counts, hcounts⟩ : ∃ counts, counts =
      (List.range i).map fun i => UInt8.ofNat (placed hint (i + 1)).length := ⟨_, rfl⟩
  have hcountsLen : counts.length = i := by rw [hcounts, List.length_map, List.length_range]
  have hrow : Checked.hintRow (hint i) (hintPrefix hint i, (placed hint i).length) =
      some (front ++ (counts ++ List.replicate (6 - i) 0), (placed hint (i + 1)).length) := by
    have hrun := checked_hintRow (p := hint i) ((placed hint i).map UInt8.ofNat)
      (counts ++ List.replicate (6 - i) 0) (List.range 256) (m := omega - (placed hint i).length)
      (by change (positions (hint i)).length ≤ _; omega)
    rw [List.length_map] at hrun
    rw [Checked.hintRow, hintPrefix, ← hcounts, hrun, hfront, hlen, placed_succ, List.map_append,
      Nat.sub_sub, List.append_assoc, List.append_assoc, List.append_assoc]
    rfl
  have hset : Checked.set (front ++ (counts ++ List.replicate (6 - i) 0)) (omega + i)
      (UInt8.ofNat (placed hint (i + 1)).length) = some (hintPrefix hint (i + 1)) := by
    rw [Checked.set, if_pos (by simp [hfrontLen, hcountsLen, hm]),
      List.set_append_right _ _ (by omega), List.set_append_right _ _ (by omega), hm,
      List.replicate_succ, show omega + (i : ℕ) - front.length - counts.length = 0 by omega,
      List.set_cons_zero, hintPrefix, List.range_succ, List.map_append, List.map_singleton,
      ← hcounts, ← List.append_assoc _ (List.replicate _ _), ← hfront,
      show 6 - ((i : ℕ) + 1) = m by omega, List.append_assoc, List.singleton_append]
  rw [Checked.hintStep, hrow, Option.bind_eq_bind, Option.bind_some, hset]
  rfl

theorem checked_hintLoop {hint : VecK} (h : (placed hint 6).length ≤ omega) {n : ℕ} (hn : n ≤ 6) :
    ((List.finRange 6).take n).foldlM (Checked.hintStep hint) (List.replicate (omega + 6) 0, 0) =
      some (hintPrefix hint n, (placed hint n).length) := by
  induction n with
  | zero => rfl
  | succ n ih =>
    obtain ⟨i, rfl⟩ : ∃ i : Fin 6, n = i := ⟨⟨n, by omega⟩, rfl⟩
    have hget : (List.finRange 6).take (i + 1) = (List.finRange 6).take i ++ [i] := by
      rw [List.take_succ_eq_append_getElem (by simp)]
      simp
    have hroom : (placed hint (i + 1)).length ≤ omega := (length_placed_le hint hn).trans h
    rw [hget, List.foldlM_append, ih (by omega), Option.bind_eq_bind, Option.bind_some,
      List.foldlM_cons, checked_hintStep hroom]
    rfl

theorem checked_hintEncode {hint : VecK} (h : (placed hint 6).length ≤ omega) :
    Checked.hintEncode hint = some (hintBytes hint) := by
  have hrun := checked_hintLoop h le_rfl
  rw [List.take_of_length_le (by simp)] at hrun
  have hbytes : hintPrefix hint 6 = hintBytes hint := by
    rw [hintPrefix, hintBytes, Nat.sub_self, List.replicate_zero, List.append_nil]
  rw [Checked.hintEncode, hrun, Option.map_some, hbytes]

theorem eq_of_checked_set {b b' : Bytes} {i : ℕ} {x : UInt8} (h : Checked.set b i x = some b') :
    b.set i x = b' := by
  unfold Checked.set at h
  split at h
  · exact Option.some.inj h
  · cases h

theorem eq_of_checked_hintRow {p : Poly} {s t : Bytes × ℕ} (h : Checked.hintRow p s = some t) :
    hintRow p s = t := by
  refine foldl_of_foldlM (fun s j t hround => ?_) h
  split at hround
  · next hj =>
    obtain ⟨b, hb, rfl⟩ := Option.map_eq_some_iff.mp hround
    rw [if_pos hj, eq_of_checked_set hb]
  · next hj =>
    rw [if_neg hj]
    exact Option.some.inj hround

/-- A hint with no more ones than there is room for is written in its layout. -/
theorem hintEncode_eq {hint : VecK} (h : (placed hint 6).length ≤ omega) :
    hintEncode hint = hintBytes hint := by
  obtain ⟨t, hrun, ht⟩ := Option.map_eq_some_iff.mp (checked_hintEncode h)
  have hfold := foldl_of_foldlM (g := fun s i =>
    let s := hintRow (hint i) s
    (s.1.set (omega + i) (UInt8.ofNat s.2), s.2)) (fun s i t hround => ?_) hrun
  · rw [hintEncode, hfold, ht]
  · obtain ⟨s', hrow, hset⟩ := Option.bind_eq_some_iff.mp hround
    obtain ⟨b, hb, rfl⟩ := Option.map_eq_some_iff.mp hset
    simp only [eq_of_checked_hintRow hrow, eq_of_checked_set hb]

/-! ## Indices -/

namespace Checked

theorem orRefuse_bind {α β : Type} (x : Option α) (f : α → Option β) :
    orRefuse (x.bind f) = orRefuse x >>= fun a => orRefuse (f a) := by
  cases x <;> rfl

theorem orRefuse_foldlM {σ ι : Type} {f : σ → ι → Option σ} {g : σ → ι → Except Halt σ}
    {l : List ι} (h : ∀ s, ∀ i ∈ l, g s i = orRefuse (f s i)) (s : σ) :
    l.foldlM g s = orRefuse (l.foldlM f s) := by
  induction l generalizing s with
  | nil => rfl
  | cons i l ih =>
    rw [List.foldlM_cons, List.foldlM_cons, Option.bind_eq_bind, orRefuse_bind,
      h s i List.mem_cons_self]
    exact congrArg (orRefuse (f s i) >>= ·)
      (funext fun t => ih (fun s j hj => h s j (List.mem_cons_of_mem i hj)) t)

theorem get_eq {b : Bytes} {i : ℕ} (h : i < b.length) : get b i = .ok (b.getD i 0) := by
  rw [get, List.getElem?_eq_getElem h, List.getD_eq_getElem _ _ h]

theorem hintDecodeRow_eq {hint : Bytes} {k last : ℕ} (h : last ≤ hint.length) :
    hintDecodeRow hint k last = orRefuse (MlDsa.hintDecodeRow hint k last) := by
  refine orRefuse_foldlM (fun p j hj => ?_) zeroPoly
  have hj : k ≤ j ∧ j < k + (last - k) := by simpa [List.mem_range'_1] using hj
  have hget := get_eq (b := hint) (i := j) (by omega)
  have hone : setOne p (hint.getD j 0).toNat = .ok (p.set! (hint.getD j 0).toNat 1) :=
    if_pos (hint.getD j 0).toNat_lt
  have hcheck : increases hint k j =
      if j > k ∧ hint.getD j 0 ≤ hint.getD (j - 1) 0 then .error .refused else .ok () := by
    rw [increases]
    by_cases hk : j > k
    · rw [if_pos hk, hget, get_eq (b := hint) (i := j - 1) (by omega)]
      simp only [hk, true_and]
      rfl
    · rw [if_neg hk, if_neg fun hand => hk hand.1]
  rw [hcheck, hget]
  split
  · rfl
  · exact hone

theorem hintDecodeLoop_eq {hint : Bytes} (hlen : hint.length = omega + 6) (s : ℕ × VecK)
    (i : Fin 6) : hintDecodeLoop hint s i = orRefuse (MlDsa.hintDecodeLoop hint s i) := by
  rw [hintDecodeLoop, get_eq (by omega), MlDsa.hintDecodeLoop]
  change (if _ then _ else _) = _
  split
  · rfl
  · rw [hintDecodeRow_eq (by omega), Option.bind_eq_bind, orRefuse_bind]
    rfl

/-- On a section of the right length no index is out of range. -/
theorem hintDecode_eq {hint : Bytes} (hlen : hint.length = omega + 6) :
    hintDecode hint = orRefuse (MlDsa.hintDecode hint) := by
  have hloop : (List.finRange 6).foldlM (hintDecodeLoop hint) (0, fun _ => zeroPoly) =
      orRefuse ((List.finRange 6).foldlM (MlDsa.hintDecodeLoop hint) (0, fun _ => zeroPoly)) :=
    orRefuse_foldlM (fun s i _ => hintDecodeLoop_eq hlen s i) _
  rw [hintDecode, hloop, MlDsa.hintDecode]
  cases hrun : (List.finRange 6).foldlM (MlDsa.hintDecodeLoop hint) (0, fun _ => zeroPoly) with
  | none => rfl
  | some s =>
    have hall : (List.finRange 6).take 6 = List.finRange 6 := List.take_of_length_le (by simp)
    have hle := ((decodes_iff hlen (le_refl 6)).mp (hall ▸ hrun)).le
    have hslice : slice hint s.1 omega = some ((hint.drop s.1).take (omega - s.1)) :=
      if_pos ⟨hle, by omega⟩
    change (inRange (slice hint s.1 omega) >>= fun padding => _) = _
    rw [hslice]
    change (if _ then _ else _) = orRefuse (if _ then _ else _)
    split <;> rfl

end Checked

end MlDsa

end Ciphra
