import Ciphra.Foundations.Packing

/-!
# What the lattice schemes share

ML-KEM and ML-DSA take all their randomness from SHA-3 and SHAKE, which are arbitrary functions
here: two digests and two output streams. Both schemes reject part of what they squeeze, in loops
that end only when the stream is kind to them; such a loop is given the number of squeezes it may
make, and returns nothing when these do not suffice. An index or a slice out of range, where the
program panics, returns nothing as well.
-/

namespace Ciphra

/-- SHA-3 and SHAKE. An output stream is a function of the position. -/
structure Sponge where
  sha3_256 : Bytes → ByteArr 32
  sha3_512 : Bytes → ByteArr 64
  shake128 : Bytes → ℕ → UInt8
  shake256 : Bytes → ℕ → UInt8

/-- Fixed digests, one stream of ones, and one stream whose first byte alone is one. -/
def Sponge.units : Sponge where
  sha3_256 _ := ⟨List.replicate 32 2, List.length_replicate⟩
  sha3_512 _ := ⟨List.replicate 64 3, List.length_replicate⟩
  shake128 _ _ := 1
  shake256 _ pos := if pos = 0 then 1 else 0

/-- `n` bytes of a stream, from position `pos`. -/
def squeeze (xof : ℕ → UInt8) (pos n : ℕ) : ByteArr n :=
  ⟨(List.range n).map fun i => xof (pos + i), by simp⟩

/-- `b[lo..hi]`. -/
def slice (b : Bytes) (lo hi : ℕ) : Option Bytes :=
  if lo ≤ hi ∧ hi ≤ b.length then some ((b.drop lo).take (hi - lo)) else none

theorem slice_append (a b c : Bytes) {lo hi : ℕ} (hlo : lo = a.length)
    (hhi : hi = a.length + b.length) : slice (a ++ b ++ c) lo hi = some b := by
  have hcond : lo ≤ hi ∧ hi ≤ (a ++ b ++ c).length := by
    simp only [List.length_append]
    omega
  have hlen : hi - lo = b.length := by omega
  rw [slice, if_pos hcond, hlen, hlo, List.append_assoc, List.drop_left, List.take_left]

/-- Results of a loop whose iterations may fail: all of them, or nothing. -/
def gather {α : Type*} {n : ℕ} (f : Fin n → Option α) : Option (Fin n → α) :=
  if h : ∀ i, (f i).isSome then some fun i => (f i).get (h i) else none

theorem gather_eq_some {α : Type*} {n : ℕ} {f : Fin n → Option α} {g : Fin n → α} :
    gather f = some g ↔ ∀ i, f i = some (g i) := by
  unfold gather
  split
  · next h =>
    rw [Option.some_inj, funext_iff]
    apply forall_congr'
    intro i
    exact ⟨fun he => Option.eq_some_of_isSome (h i) ▸ congrArg some he, Option.get_of_eq_some (h i)⟩
  · next h =>
    constructor
    · intro he
      exact nomatch he
    · intro he
      apply absurd _ h
      intro i
      rw [he i]
      rfl

/-- The pieces of a concatenation of pieces of one length. -/
theorem slice_flatMap {n : ℕ} (f : Fin n → Bytes) (len : ℕ) (hf : ∀ i, (f i).length = len)
    (a c : Bytes) (i : Fin n) :
    slice (a ++ (List.finRange n).flatMap f ++ c) (a.length + len * i) (a.length + len * (i + 1)) =
      some (f i) := by
  have hflat : ∀ l : List (Fin n), (l.flatMap f).length = len * l.length := by
    intro l
    induction l with
    | nil => rfl
    | cons x l ih => rw [List.flatMap_cons, List.length_append, hf, ih, List.length_cons]; ring
  have hsplit : (List.finRange n).flatMap f =
      ((List.finRange n).take i).flatMap f ++ (f i ++ ((List.finRange n).drop (i + 1)).flatMap f) := by
    have hget : (List.finRange n).drop i = i :: (List.finRange n).drop (i + 1) := by
      rw [List.drop_eq_getElem_cons (by simp), List.getElem_finRange]
      rfl
    rw [← List.flatMap_cons, ← hget, ← List.flatMap_append, List.take_append_drop]
  have hlen : (a ++ ((List.finRange n).take i).flatMap f).length = a.length + len * i := by
    rw [List.length_append, hflat, List.length_take, List.length_finRange, min_eq_left i.2.le]
  have happ : a ++ (List.finRange n).flatMap f ++ c =
      (a ++ ((List.finRange n).take i).flatMap f) ++ f i ++
        (((List.finRange n).drop (i + 1)).flatMap f ++ c) := by
    rw [hsplit]
    simp only [List.append_assoc]
  rw [happ]
  apply slice_append
  · exact hlen.symm
  · rw [hlen, hf]
    ring

end Ciphra
