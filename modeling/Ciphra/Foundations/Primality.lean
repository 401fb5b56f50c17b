import Mathlib.Data.List.Prime
import Mathlib.NumberTheory.LucasPrimality

/-!
# Certificates of primality

By the test of Lucas a number `p` is prime when some `a` has order `p - 1` modulo `p`. The order is
that when `a ^ (p - 1)` is one and no `a ^ ((p - 1) / q)` is, for the prime factors `q` of `p - 1`.
A certificate lists numbers with such an `a` and such factors, each factor being small or certified
further up; `prime_of_checkAll` says that all numbers in it are prime. Checking is computing powers,
which `powMod` does by squaring.
-/

namespace Ciphra

/-- `a ^ n` modulo `m`, for an exponent of `k` bits. -/
def powMod (m a : ℕ) : ℕ → ℕ → ℕ
  | 0, _ => 1 % m
  | k + 1, n =>
    let r := powMod m a k (n / 2)
    if n % 2 = 0 then r * r % m else r * r % m * a % m

theorem powMod_eq (m a : ℕ) {k n : ℕ} (h : n < 2 ^ k) : powMod m a k n = a ^ n % m := by
  induction k generalizing n with
  | zero =>
    obtain rfl : n = 0 := by omega
    rfl
  | succ k ih =>
    have hhalf : n / 2 < 2 ^ k := by omega
    have hsquare : powMod m a k (n / 2) * powMod m a k (n / 2) % m = a ^ (2 * (n / 2)) % m := by
      rw [ih hhalf, ← Nat.mul_mod, ← pow_add, Nat.two_mul]
    simp only [powMod, hsquare]
    split_ifs with hbit
    · congr 2
      omega
    · rw [Nat.mod_mul_mod, ← pow_succ]
      congr 2
      omega

/-- A number, an element of order `p - 1`, and the prime factors of `p - 1` with their
multiplicities. -/
structure LucasEntry where
  p : ℕ
  a : ℕ
  factors : List ℕ

/-- Trial division, for small numbers. -/
def trialPrime (q : ℕ) : Bool := 1 < q && (List.range q).all fun d => d < 2 || q % d != 0

theorem prime_of_trialPrime {q : ℕ} (h : trialPrime q = true) : q.Prime := by
  simp only [trialPrime, Bool.and_eq_true, decide_eq_true_eq, List.all_eq_true, List.mem_range,
    Bool.or_eq_true, bne_iff_ne] at h
  refine Nat.prime_def.mpr ⟨h.1, fun d hd => ?_⟩
  by_contra hne
  rw [not_or] at hne
  have hpos : 0 < q := by omega
  have hle := Nat.le_of_dvd hpos hd
  have hzero := Nat.mod_eq_zero_of_dvd hd
  have hd0 : d ≠ 0 := fun h0 => by
    rw [h0, zero_dvd_iff] at hd
    omega
  rcases h.2 d (by omega) with hsmall | hmod
  · omega
  · exact hmod hzero

/-- The test of an entry, given the numbers certified so far. -/
def LucasEntry.check (e : LucasEntry) (bits : ℕ) (known : List ℕ) : Bool :=
  1 < e.p && e.p ≤ 2 ^ bits && e.factors.prod == e.p - 1 && powMod e.p e.a bits (e.p - 1) == 1 &&
    e.factors.all fun q => (known.contains q || trialPrime q) &&
      powMod e.p e.a bits ((e.p - 1) / q) != 1

theorem LucasEntry.prime {e : LucasEntry} {bits : ℕ} {known : List ℕ}
    (hknown : ∀ q ∈ known, q.Prime) (h : e.check bits known = true) : e.p.Prime := by
  simp only [check, Bool.and_eq_true, decide_eq_true_eq, beq_iff_eq, List.all_eq_true,
    Bool.or_eq_true, List.contains_iff_mem, bne_iff_ne] at h
  obtain ⟨⟨⟨⟨hone, hbits⟩, hprod⟩, hpow⟩, hfactors⟩ := h
  have hcast : ∀ n < 2 ^ bits, (e.a : ZMod e.p) ^ n = 1 ↔ powMod e.p e.a bits n = 1 := by
    intro n hn
    rw [powMod_eq _ _ hn, ← Nat.cast_pow, ← Nat.cast_one, ZMod.natCast_eq_natCast_iff',
      Nat.mod_eq_of_lt hone]
  refine lucas_primality e.p e.a ((hcast _ (by omega)).mpr hpow) fun q hq hdvd => ?_
  rw [← hprod, hq.prime.dvd_prod_iff] at hdvd
  obtain ⟨r, hr, hqr⟩ := hdvd
  have hprime : r.Prime := (hfactors r hr).1.elim (hknown r) prime_of_trialPrime
  have hlt : (e.p - 1) / r < 2 ^ bits := lt_of_le_of_lt (Nat.div_le_self _ _) (by omega)
  rw [(Nat.prime_dvd_prime_iff_eq hq hprime).mp hqr, Ne, hcast _ hlt]
  exact (hfactors r hr).2

/-- The test of a certificate. -/
def checkAll (bits : ℕ) : List ℕ → List LucasEntry → Bool
  | _, [] => true
  | known, e :: es => e.check bits known && checkAll bits (e.p :: known) es

theorem prime_of_checkAll {bits : ℕ} {known : List ℕ} {es : List LucasEntry}
    (hknown : ∀ q ∈ known, q.Prime) (h : checkAll bits known es = true) :
    ∀ e ∈ es, e.p.Prime := by
  induction es generalizing known with
  | nil => exact fun e he => absurd he List.not_mem_nil
  | cons e es ih =>
    rw [checkAll, Bool.and_eq_true] at h
    have hprime := e.prime hknown h.1
    exact List.forall_mem_cons.mpr ⟨hprime, ih (List.forall_mem_cons.mpr ⟨hprime, hknown⟩) h.2⟩

end Ciphra
