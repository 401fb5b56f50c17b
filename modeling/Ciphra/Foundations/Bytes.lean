import Mathlib.Tactic

/-!
# Byte strings and fixed-width integers

Byte strings are lists of bytes. `leBytes w n` and `beBytes w n` are the little- and big-endian
encodings of `n` in `w` bytes, reduced modulo `256 ^ w` as a truncating cast does; `leNat` and
`beNat` read them back. The big-endian form keeps the numeric order (`compare_beBytes`), which is
what makes a scan over big-endian keys a scan in numeric order.
-/

namespace Ciphra

/-- A byte string. -/
abbrev Bytes := List UInt8

theorem lawfulBEq_bytes : LawfulBEq Bytes := inferInstance

attribute [instance] lawfulBEq_bytes

/-- An array of `n` bytes. -/
abbrev ByteArr (n : ℕ) := { b : Bytes // b.length = n }

/-- An array of zeros. -/
def ByteArr.zeros (n : ℕ) : ByteArr n := ⟨List.replicate n 0, by simp⟩

/-! ## Concatenations -/

theorem length_le_length_flatMap {α β : Type*} {l : List α} {f : α → List β}
    (h : ∀ a ∈ l, 1 ≤ (f a).length) : l.length ≤ (l.flatMap f).length := by
  induction l with
  | nil => simp
  | cons a l ih =>
    have ha := h a List.mem_cons_self
    have hl := ih fun b hb => h b (List.mem_cons_of_mem _ hb)
    rw [List.flatMap_cons, List.length_append, List.length_cons]
    omega

theorem length_le_length_flatMap_of_mem {α β : Type*} {l : List α} {a : α} (ha : a ∈ l)
    (f : α → List β) : (f a).length ≤ (l.flatMap f).length :=
  (List.sublist_flatten_of_mem (List.mem_map_of_mem ha)).length_le

/-! ## Little-endian -/

/-- The `w` low bytes of `n`, least significant first. -/
def leBytes : ℕ → ℕ → Bytes
  | 0, _ => []
  | w + 1, n => UInt8.ofNat n :: leBytes w (n / 256)

/-- The number a byte string encodes, least significant byte first. -/
def leNat : Bytes → ℕ
  | [] => 0
  | b :: bs => b.toNat + 256 * leNat bs

@[simp] theorem length_leBytes (w n : ℕ) : (leBytes w n).length = w := by
  induction w generalizing n with
  | zero => rfl
  | succ w ih => simp [leBytes, ih]

theorem leNat_leBytes (w n : ℕ) : leNat (leBytes w n) = n % 256 ^ w := by
  induction w generalizing n with
  | zero => simp [leBytes, leNat, Nat.mod_one]
  | succ w ih =>
    have hpow : 256 ^ (w + 1) = 256 * 256 ^ w := pow_succ' 256 w
    simp only [leBytes, leNat, ih, UInt8.toNat_ofNat']
    rw [hpow, Nat.mod_mul]

theorem leNat_leBytes_of_lt {w n : ℕ} (h : n < 256 ^ w) : leNat (leBytes w n) = n := by
  rw [leNat_leBytes, Nat.mod_eq_of_lt h]

theorem leNat_lt (bs : Bytes) : leNat bs < 256 ^ bs.length := by
  induction bs with
  | nil => simp [leNat]
  | cons b bs ih =>
    have hb := b.toNat_lt
    simp only [leNat, List.length_cons, pow_succ']
    omega

theorem leBytes_leNat (bs : Bytes) : leBytes bs.length (leNat bs) = bs := by
  induction bs with
  | nil => rfl
  | cons b bs ih =>
    have hb := b.toNat_lt
    have hdiv : (b.toNat + 256 * leNat bs) / 256 = leNat bs := by omega
    have hmod : UInt8.ofNat (b.toNat + 256 * leNat bs) = b := by
      apply UInt8.toNat_inj.mp
      rw [UInt8.toNat_ofNat']
      omega
    simp only [List.length_cons, leBytes, leNat, hdiv, hmod, ih]

theorem leBytes_mod (w n : ℕ) : leBytes w (n % 256 ^ w) = leBytes w n := by
  have h := leBytes_leNat (leBytes w n)
  rwa [length_leBytes, leNat_leBytes] at h

theorem leBytes_inj {w m n : ℕ} (hm : m < 256 ^ w) (hn : n < 256 ^ w) :
    leBytes w m = leBytes w n ↔ m = n := by
  refine ⟨fun h => ?_, fun h => h ▸ rfl⟩
  rw [← leNat_leBytes_of_lt hm, h, leNat_leBytes_of_lt hn]

/-- Reading a little-endian field off the front of a buffer. -/
@[simp] theorem leNat_take_leBytes (w n : ℕ) (rest : Bytes) :
    leNat ((leBytes w n ++ rest).take w) = n % 256 ^ w := by
  rw [List.take_left' (length_leBytes w n), leNat_leBytes]

@[simp] theorem drop_leBytes (w n : ℕ) (rest : Bytes) : (leBytes w n ++ rest).drop w = rest :=
  List.drop_left' (length_leBytes w n)

/-- A string behind its length, in a field wide enough for it, is read off in one way only. -/
theorem prefixed_inj {w : ℕ} {a b rest rest' : Bytes} (ha : a.length < 256 ^ w)
    (hb : b.length < 256 ^ w)
    (h : leBytes w a.length ++ (a ++ rest) = leBytes w b.length ++ (b ++ rest')) :
    a = b ∧ rest = rest' := by
  obtain ⟨hlen, hrest⟩ := List.append_inj h (by simp)
  exact List.append_inj hrest ((leBytes_inj ha hb).mp hlen)

/-! ## Big-endian -/

/-- The `w` low bytes of `n`, most significant first. -/
def beBytes (w n : ℕ) : Bytes := (leBytes w n).reverse

/-- The number a byte string encodes, most significant byte first. -/
def beNat (bs : Bytes) : ℕ := leNat bs.reverse

@[simp] theorem length_beBytes (w n : ℕ) : (beBytes w n).length = w := by simp [beBytes]

theorem beNat_beBytes_of_lt {w n : ℕ} (h : n < 256 ^ w) : beNat (beBytes w n) = n := by
  rw [beNat, beBytes, List.reverse_reverse, leNat_leBytes_of_lt h]

theorem beBytes_beNat (bs : Bytes) : beBytes bs.length (beNat bs) = bs := by
  have h := leBytes_leNat bs.reverse
  rw [List.length_reverse] at h
  rw [beBytes, beNat, h, List.reverse_reverse]

theorem beNat_lt (bs : Bytes) : beNat bs < 256 ^ bs.length := by
  simpa [beNat] using leNat_lt bs.reverse

theorem beBytes_inj {w m n : ℕ} (hm : m < 256 ^ w) (hn : n < 256 ^ w) :
    beBytes w m = beBytes w n ↔ m = n := by
  rw [beBytes, beBytes, List.reverse_inj, leBytes_inj hm hn]

theorem beBytes_succ (w n : ℕ) :
    beBytes (w + 1) n = UInt8.ofNat (n / 256 ^ w) :: beBytes w n := by
  induction w generalizing n with
  | zero => simp [beBytes, leBytes]
  | succ w ih =>
    have h := ih (n / 256)
    simp only [beBytes, leBytes, List.reverse_cons] at h ⊢
    rw [h, Nat.div_div_eq_div_mul, ← pow_succ']
    rfl

theorem beBytes_mod (w n : ℕ) : beBytes w (n % 256 ^ w) = beBytes w n := by
  rw [beBytes, leBytes_mod, beBytes]

theorem compare_ofNat {a b : ℕ} (ha : a < 256) (hb : b < 256) :
    compare (UInt8.ofNat a) (UInt8.ofNat b) = compare a b := by
  simp only [compare, compareOfLessAndEq, UInt8.lt_iff_toNat_lt, ← UInt8.toNat_inj,
    UInt8.toNat_ofNat', Nat.mod_eq_of_lt ha, Nat.mod_eq_of_lt hb]

/-- Big-endian byte strings of one width are ordered as the numbers they encode. -/
theorem compare_beBytes {w m n : ℕ} (hm : m < 256 ^ w) (hn : n < 256 ^ w) :
    compare (beBytes w m) (beBytes w n) = compare m n := by
  induction w generalizing m n with
  | zero =>
    obtain rfl : m = 0 := by simpa using hm
    obtain rfl : n = 0 := by simpa using hn
    rfl
  | succ w ih =>
    have hpos : 0 < 256 ^ w := by positivity
    rw [pow_succ] at hm hn
    have hm' : m / 256 ^ w < 256 := Nat.div_lt_of_lt_mul hm
    have hn' : n / 256 ^ w < 256 := Nat.div_lt_of_lt_mul hn
    -- compare the leading digits first, the remainders when these agree
    rw [beBytes_succ, beBytes_succ, List.compare_cons_cons, compare_ofNat hm' hn',
      ← beBytes_mod w m, ← beBytes_mod w n, ih (Nat.mod_lt _ hpos) (Nat.mod_lt _ hpos)]
    have em := Nat.div_add_mod m (256 ^ w)
    have en := Nat.div_add_mod n (256 ^ w)
    rcases lt_trichotomy (m / 256 ^ w) (n / 256 ^ w) with h | h | h
    · have hlt : m < n := Nat.lt_of_div_lt_div h
      rw [compare_lt_iff_lt.mpr h, compare_lt_iff_lt.mpr hlt]
      rfl
    · rw [h] at em ⊢
      have hlt : m % 256 ^ w < n % 256 ^ w ↔ m < n := by omega
      have heq : m % 256 ^ w = n % 256 ^ w ↔ m = n := by omega
      rw [compare_eq_iff_eq.mpr rfl, Ordering.eq_then]
      simp only [compare, compareOfLessAndEq, hlt, heq]
    · have hlt : n < m := Nat.lt_of_div_lt_div h
      rw [compare_gt_iff_gt.mpr h, compare_gt_iff_gt.mpr hlt]
      rfl

end Ciphra
