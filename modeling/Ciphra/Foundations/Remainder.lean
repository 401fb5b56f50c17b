import Mathlib.Data.BitVec
import Mathlib.Data.List.GetD
import Mathlib.Tactic

/-!
# Division by a polynomial, a bit at a time

The remainder of a message by a polynomial over the field of two elements, in the reflected form in
which checksums compute it: a register of `w` bits, the low one first. `feed` takes in one bit of
the message, `run` a list of them.

Both are linear in exclusive or (`feed_xor`, `run_xor`). When the polynomial has its top bit set a
register can be read back from what a message of at most `w` bits leaves of it
(`getLsbD_of_run_eq_zero`), so two messages of one length that differ within `w` consecutive bits,
and only there, leave different remainders (`run_ne_of_window`).

`shift` is a step without a message. Doing a whole byte with shifts and then from a table of the
256 results rests on one identity, `run_low_bits`.
-/

namespace Ciphra.Remainder

variable {w : ℕ} (p : BitVec w)

/-- One step of the division without a message bit. -/
def shift (c : BitVec w) : BitVec w := if c.getLsbD 0 then p ^^^ (c >>> 1) else c >>> 1

/-- One bit of the message enters the division. -/
def feed (c : BitVec w) (b : Bool) : BitVec w :=
  if c.getLsbD 0 ^^ b then p ^^^ (c >>> 1) else c >>> 1

/-- A message enters the division. -/
def run (c : BitVec w) (message : List Bool) : BitVec w := message.foldl (feed p) c

@[simp] theorem run_nil (c : BitVec w) : run p c [] = c := rfl

@[simp] theorem run_cons (c : BitVec w) (b : Bool) (bs : List Bool) :
    run p c (b :: bs) = run p (feed p c b) bs := rfl

theorem run_append (c : BitVec w) (as bs : List Bool) :
    run p c (as ++ bs) = run p (run p c as) bs := List.foldl_append

/-! ## Linearity -/

theorem feed_xor (c d : BitVec w) (a b : Bool) :
    feed p (c ^^^ d) (a ^^ b) = feed p c a ^^^ feed p d b := by
  have hlow : ((c ^^^ d).getLsbD 0 ^^ (a ^^ b)) = ((c.getLsbD 0 ^^ a) ^^ (d.getLsbD 0 ^^ b)) := by
    rw [BitVec.getLsbD_xor, Bool.xor_assoc, Bool.xor_assoc, Bool.xor_left_comm (d.getLsbD 0)]
  rw [feed, feed, feed, hlow, BitVec.ushiftRight_xor_distrib]
  ext i hi
  cases c.getLsbD 0 ^^ a <;> cases d.getLsbD 0 ^^ b <;>
    simp only [Bool.xor_false, Bool.xor_true, Bool.not_true, Bool.not_false, if_true,
      Bool.false_eq_true, if_false, BitVec.getElem_xor] <;>
    cases p[i] <;> cases (c >>> 1)[i] <;> cases (d >>> 1)[i] <;> rfl

theorem run_xor (c d : BitVec w) {as bs : List Bool} (hlen : as.length = bs.length) :
    run p (c ^^^ d) (List.zipWith xor as bs) = run p c as ^^^ run p d bs := by
  induction as generalizing c d bs with
  | nil =>
    obtain rfl := List.eq_nil_of_length_eq_zero hlen.symm
    rfl
  | cons a as ih =>
    cases bs with
    | nil => exact absurd hlen (by simp)
    | cons b bs =>
      rw [List.zipWith_cons_cons, run_cons, feed_xor, ih _ _ (by simpa using hlen), run_cons,
        run_cons]

/-! ## Bytes and tables -/

/-- The `n` low bits of a word, least significant first. -/
def wordBits (x : BitVec w) (n : ℕ) : List Bool := (List.range n).map x.getLsbD

theorem wordBits_succ (x : BitVec w) (n : ℕ) :
    wordBits x (n + 1) = x.getLsbD 0 :: wordBits (x >>> 1) n := by
  rw [wordBits, List.range_succ_eq_map, List.map_cons, List.map_map, wordBits]
  congr 1
  refine List.map_congr_left fun i _ => ?_
  rw [Function.comp_apply, BitVec.getLsbD_ushiftRight, Nat.succ_eq_add_one, Nat.add_comm]

/-- A word whose low bit is taken into the message only moves down. -/
theorem shift_xor_word (c x : BitVec w) :
    shift p (c ^^^ x) = feed p c (x.getLsbD 0) ^^^ (x >>> 1) := by
  rw [shift, feed, BitVec.getLsbD_xor, BitVec.ushiftRight_xor_distrib]
  split
  · rw [BitVec.xor_assoc]
  · rfl

/-- A word laid over the register enters the division bit by bit; what is left of it after `n`
steps lies over the remainder still. -/
theorem run_low_bits (n : ℕ) (c x : BitVec w) :
    (shift p)^[n] (c ^^^ x) = run p c (wordBits x n) ^^^ (x >>> n) := by
  induction n generalizing c x with
  | zero => simp [wordBits]
  | succ n ih =>
    rw [Function.iterate_succ_apply, shift_xor_word, ih, wordBits_succ, run_cons,
      ← BitVec.shiftRight_add, Nat.add_comm]

/-! ## Errors within a window -/

theorem msb_ushiftRight_one (c : BitVec (w + 1)) : (c >>> 1).getLsbD w = false := by
  rw [BitVec.getLsbD_ushiftRight]
  exact BitVec.getLsbD_of_ge _ _ (by omega)

variable {p : BitVec (w + 1)}

/-- The top bit of a step tells whether the polynomial was subtracted. -/
theorem getLsbD_feed (hp : p.getLsbD w = true) (c : BitVec (w + 1)) (b : Bool) :
    (feed p c b).getLsbD w = (c.getLsbD 0 ^^ b) := by
  rw [feed]
  split
  · rename_i h
    rw [BitVec.getLsbD_xor, hp, msb_ushiftRight_one, h]
    rfl
  · rename_i h
    rw [msb_ushiftRight_one, Bool.eq_false_iff.mpr h]

/-- The bits of a register that a message of at most `w + 1` bits clears are the message. -/
theorem getLsbD_of_run_eq_zero (hp : p.getLsbD w = true) {c : BitVec (w + 1)} {bs : List Bool}
    (hlen : bs.length ≤ w + 1) (h : run p c bs = 0) {i : ℕ} (hi : i ≤ w) :
    c.getLsbD i = bs.getD i false := by
  induction bs generalizing c i with
  | nil =>
    rw [run_nil] at h
    rw [h]
    simp
  | cons b bs ih =>
    have hrest : bs.length ≤ w := by simpa using hlen
    have ih : ∀ {j}, j ≤ w → (feed p c b).getLsbD j = bs.getD j false := ih (by omega) h
    -- the rest of the message is too short to reach the top bit: no polynomial was subtracted
    have hlow : (c.getLsbD 0 ^^ b) = false := by
      rw [← getLsbD_feed hp, ih (Nat.le_refl w), List.getD_eq_default _ _ hrest]
    cases i with
    | zero => simpa using hlow
    | succ j =>
      have hj := ih (j := j) (by omega)
      rw [feed, hlow, if_neg (by decide), BitVec.getLsbD_ushiftRight, Nat.add_comm 1 j] at hj
      rw [hj, List.getD_cons_succ]

/-- Only the zero register is left empty by a message of zeros. -/
theorem feed_injective (hp : p.getLsbD w = true) (b : Bool) :
    Function.Injective fun c => feed p c b := by
  intro c d hcd
  have hzero : run p (c ^^^ d) [false] = 0 := by
    have hxor := feed_xor p c d b b
    rw [show feed p c b = feed p d b from hcd, BitVec.xor_self, Bool.xor_self] at hxor
    exact hxor
  refine BitVec.eq_of_getLsbD_eq fun i hi => ?_
  have hbit := getLsbD_of_run_eq_zero hp (by simp) hzero (i := i) (by omega)
  rw [BitVec.getLsbD_xor] at hbit
  cases i with
  | zero => simpa using hbit
  | succ i => simpa using hbit

theorem run_injective (hp : p.getLsbD w = true) (bs : List Bool) :
    Function.Injective fun c => run p c bs := by
  induction bs with
  | nil => exact fun _ _ h => h
  | cons b bs ih => exact fun _ _ h => feed_injective hp b (ih h)

/-- Messages no longer than the register are told apart. -/
theorem eq_of_run_eq (hp : p.getLsbD w = true) {c : BitVec (w + 1)} {as bs : List Bool}
    (hlen : as.length = bs.length) (hw : as.length ≤ w + 1) (h : run p c as = run p c bs) :
    as = bs := by
  have hzero : run p 0 (List.zipWith xor as bs) = 0 := by
    have hxor := run_xor p c c hlen
    rwa [h, BitVec.xor_self, BitVec.xor_self] at hxor
  have hzip : (List.zipWith xor as bs).length = as.length := by simp [hlen]
  refine List.ext_getElem hlen fun i ha hb => ?_
  have hbit := getLsbD_of_run_eq_zero hp (by omega) hzero (i := i) (by omega)
  rw [List.getD_eq_getElem _ _ (by omega), List.getElem_zipWith] at hbit
  simpa using hbit.symm

/-- Two messages of one length that differ, but only within `w + 1` consecutive bits, leave
different remainders. -/
theorem run_ne_of_window (hp : p.getLsbD w = true) (c : BitVec (w + 1)) {as bs : List Bool}
    (hlen : as.length = bs.length) (hne : as ≠ bs) {s : ℕ}
    (hs : ∀ i, as[i]? ≠ bs[i]? → s ≤ i ∧ i < s + (w + 1)) : run p c as ≠ run p c bs := by
  intro h
  have hhead : as.take s = bs.take s := by
    refine List.ext_getElem? fun i => ?_
    rw [List.getElem?_take, List.getElem?_take]
    split
    · by_contra hdiff
      exact absurd (hs i hdiff).1 (by omega)
    · rfl
  have htail : (as.drop s).drop (w + 1) = (bs.drop s).drop (w + 1) := by
    refine List.ext_getElem? fun i => ?_
    rw [List.drop_drop, List.drop_drop, List.getElem?_drop, List.getElem?_drop]
    by_contra hdiff
    exact absurd (hs _ hdiff).2 (by omega)
  have hsplit : ∀ l : List Bool, run p c l =
      run p (run p (run p c (l.take s)) ((l.drop s).take (w + 1))) ((l.drop s).drop (w + 1)) := by
    intro l
    rw [← run_append, ← run_append, List.take_append_drop,
      List.take_append_drop]
  rw [hsplit as, hsplit bs, hhead, htail] at h
  have hmid : (as.drop s).take (w + 1) = (bs.drop s).take (w + 1) :=
    eq_of_run_eq hp (by simp [hlen]) (by simp) (run_injective hp _ h)
  apply hne
  rw [← List.take_append_drop s as, ← List.take_append_drop (w + 1) (as.drop s), hhead, hmid,
    htail, List.take_append_drop, List.take_append_drop]

end Ciphra.Remainder
