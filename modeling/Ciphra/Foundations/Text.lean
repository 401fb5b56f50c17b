import Ciphra.Foundations.Bytes

/-!
# Texts by byte offsets

A text is a list of characters, and a program that walks its UTF-8 bytes addresses it by byte
offsets. A slice exists only between offsets where characters begin; elsewhere the program stops
(`splitAtByte`, `slice`). A byte is ASCII exactly when it is a character of its own
(`bytes_ascii`, `bytes_not_ascii`), so a scan for ASCII bytes stops between characters
(`scan_bytes`).
-/

namespace Ciphra

namespace Text

/-- The UTF-8 bytes. -/
def bytes (cs : List Char) : Bytes := cs.flatMap String.utf8EncodeChar

/-- The number of UTF-8 bytes. -/
def size (cs : List Char) : ℕ := (bytes cs).length

/-- The byte of an ASCII character. -/
def ascii (c : Char) : UInt8 := UInt8.ofNat c.toNat

/-! ## Bytes of a character -/

theorem utf8_ascii {c : Char} (h : c.toNat < 0x80) : String.utf8EncodeChar c = [ascii c] := by
  unfold String.utf8EncodeChar
  exact if_pos (Nat.le_of_lt_succ h)

/-- Every byte of another character has its top bit set. -/
theorem utf8_not_ascii {c : Char} (h : 0x80 ≤ c.toNat) :
    ∀ b ∈ String.utf8EncodeChar c, 0x80 ≤ b.toNat := by
  have hbyte : ∀ n : ℕ, 0x80 ≤ n → n < 256 → 0x80 ≤ (UInt8.ofNat n).toNat := by
    intro n hlo hhi
    rw [UInt8.toNat_ofNat']
    change 0x80 ≤ n % 256
    omega
  intro b hb
  change 0x80 ≤ c.val.toNat at h
  unfold String.utf8EncodeChar at hb
  simp only at hb
  rw [if_neg (Nat.not_le.mpr h)] at hb
  split_ifs at hb
  all_goals
    simp only [List.mem_cons, List.not_mem_nil, or_false] at hb
  · rcases hb with rfl | rfl
    · exact hbyte _ (by omega) (by omega)
    · exact hbyte _ (by omega) (by omega)
  · rcases hb with rfl | rfl | rfl
    · exact hbyte _ (by omega) (by omega)
    · exact hbyte _ (by omega) (by omega)
    · exact hbyte _ (by omega) (by omega)
  · rcases hb with rfl | rfl | rfl | rfl
    · exact hbyte _ (by omega) (by omega)
    · exact hbyte _ (by omega) (by omega)
    · exact hbyte _ (by omega) (by omega)
    · exact hbyte _ (by omega) (by omega)

theorem toNat_ascii {c : Char} (h : c.toNat < 0x80) : (ascii c).toNat = c.toNat := by
  rw [ascii, UInt8.toNat_ofNat']
  change c.toNat % 256 = c.toNat
  omega

theorem ascii_inj {c d : Char} (hc : c.toNat < 0x80) (hd : d.toNat < 0x80)
    (h : ascii c = ascii d) : c = d := by
  have hnat := congrArg UInt8.toNat h
  rw [toNat_ascii hc, toNat_ascii hd] at hnat
  exact Char.toNat_inj.mp hnat

/-- A character's bytes tell it from an ASCII character. -/
theorem head_utf8_eq {c d : Char} (hd : d.toNat < 0x80) :
    (String.utf8EncodeChar c).head? = some (ascii d) ↔ c = d := by
  constructor
  · intro h
    by_cases hc : c.toNat < 0x80
    · rw [utf8_ascii hc] at h
      exact ascii_inj hc hd (Option.some.inj h)
    · have hmem := utf8_not_ascii (Nat.not_lt.mp hc) _ (List.mem_of_mem_head? h)
      rw [toNat_ascii hd] at hmem
      omega
  · rintro rfl
    rw [utf8_ascii hd]
    rfl

/-! ## Bytes of a text -/

@[simp] theorem bytes_nil : bytes [] = [] := rfl

theorem bytes_cons (c : Char) (cs : List Char) :
    bytes (c :: cs) = String.utf8EncodeChar c ++ bytes cs := List.flatMap_cons

@[simp] theorem bytes_append (a b : List Char) : bytes (a ++ b) = bytes a ++ bytes b :=
  List.flatMap_append

@[simp] theorem size_nil : size [] = 0 := rfl

@[simp] theorem size_append (a b : List Char) : size (a ++ b) = size a + size b := by
  rw [size, bytes_append, List.length_append, size, size]

theorem size_cons (c : Char) (cs : List Char) : size (c :: cs) = c.utf8Size + size cs := by
  rw [size, bytes_cons, List.length_append, String.length_utf8EncodeChar, size]

theorem size_pos {cs : List Char} (h : cs ≠ []) : 0 < size cs := by
  obtain ⟨c, cs, rfl⟩ := List.exists_cons_of_ne_nil h
  have hc := c.utf8Size_pos
  rw [size_cons]
  omega

theorem length_le_size (cs : List Char) : cs.length ≤ size cs := by
  induction cs with
  | nil => exact Nat.zero_le _
  | cons c cs ih =>
    have hc := c.utf8Size_pos
    rw [size_cons, List.length_cons]
    omega

/-- The byte where a character begins. -/
theorem getElem?_bytes (pre cs : List Char) :
    (bytes (pre ++ cs))[size pre]? = (bytes cs).head? := by
  rw [bytes_append, size, List.getElem?_append_right le_rfl, Nat.sub_self, List.head?_eq_getElem?]

/-- The next byte is that of an ASCII character exactly when the next character is that one. -/
theorem head_bytes_eq {cs : List Char} {d : Char} (hd : d.toNat < 0x80) :
    (bytes cs).head? = some (ascii d) ↔ cs.head? = some d := by
  cases cs with
  | nil => simp
  | cons c cs =>
    rw [bytes_cons, List.head?_append_of_ne_nil _ String.utf8EncodeChar_ne_nil, head_utf8_eq hd]
    simp

/-- The next byte satisfies `p` when the next character satisfies `P`. -/
theorem head_bytes_any {p : UInt8 → Bool} {P : Char → Bool}
    (h : ∀ c, ∀ x ∈ String.utf8EncodeChar c, p x = P c) (cs : List Char) :
    (bytes cs).head?.any p = cs.head?.any P := by
  cases cs with
  | nil => rfl
  | cons c cs =>
    obtain ⟨x, xs, hx⟩ := List.exists_cons_of_ne_nil (String.utf8EncodeChar_ne_nil (c := c))
    rw [bytes_cons, hx]
    exact h c x (hx ▸ List.mem_cons_self)

/-! ## Slices -/

/-- The text before and after a byte offset where a character begins. -/
def splitAtByte : ℕ → List Char → Option (List Char × List Char)
  | 0, cs => some ([], cs)
  | _ + 1, [] => none
  | n + 1, c :: cs =>
    if c.utf8Size ≤ n + 1 then (splitAtByte (n + 1 - c.utf8Size) cs).map fun r => (c :: r.1, r.2)
    else none

/-- `s[lo..]`. -/
def sliceFrom (cs : List Char) (lo : ℕ) : Option (List Char) := (splitAtByte lo cs).map Prod.snd

/-- `s[lo..hi]`. -/
def slice (cs : List Char) (lo hi : ℕ) : Option (List Char) := do
  let rest ← sliceFrom cs lo
  if lo ≤ hi then (splitAtByte (hi - lo) rest).map Prod.fst else none

theorem splitAtByte_append (a b : List Char) : splitAtByte (size a) (a ++ b) = some (a, b) := by
  induction a with
  | nil => rw [size_nil, List.nil_append, splitAtByte]
  | cons c a ih =>
    have hc := c.utf8Size_pos
    obtain ⟨n, hn⟩ := Nat.exists_eq_succ_of_ne_zero (n := size (c :: a)) (by rw [size_cons]; omega)
    have hsize := size_cons c a
    have hrest : n + 1 - c.utf8Size = size a := by omega
    rw [hn, List.cons_append, splitAtByte, if_pos (by omega), hrest, ih]
    rfl

theorem sliceFrom_append (a b : List Char) : sliceFrom (a ++ b) (size a) = some b := by
  rw [sliceFrom, splitAtByte_append]
  rfl

theorem slice_append (a b c : List Char) :
    slice (a ++ (b ++ c)) (size a) (size a + size b) = some b := by
  rw [slice, sliceFrom_append, Option.bind_eq_bind, Option.bind_some, if_pos (Nat.le_add_right _ _),
    Nat.add_sub_cancel_left, splitAtByte_append]
  rfl

/-! ## Scans -/

/-- The first offset from `i` whose byte does not satisfy `p`, or the end: `while i < len && p(b[i])
{ i += 1 }`. -/
def scan (p : UInt8 → Bool) (b : Bytes) : ℕ → ℕ → ℕ
  | 0, i => i
  | fuel + 1, i => if (b[i]?).any p then scan p b fuel (i + 1) else i

/-- A scan stops between characters, when the bytes of a character agree on `p`. -/
theorem scan_bytes {p : UInt8 → Bool} {P : Char → Bool}
    (h : ∀ c, ∀ x ∈ String.utf8EncodeChar c, p x = P c) (pre cs : List Char) {fuel : ℕ}
    (hfuel : size cs ≤ fuel) :
    scan p (bytes (pre ++ cs)) fuel (size pre) = size (pre ++ cs.takeWhile P) := by
  have hchar : ∀ (xs : Bytes) (before after : Bytes) (fuel : ℕ), (∀ x ∈ xs, p x = true) →
      xs.length ≤ fuel → scan p (before ++ xs ++ after) fuel before.length =
        scan p (before ++ xs ++ after) (fuel - xs.length) (before ++ xs).length := by
    intro xs
    induction xs with
    | nil => simp
    | cons x xs ih =>
      intro before after fuel hxs hfuel
      obtain ⟨fuel, rfl⟩ := Nat.exists_eq_succ_of_ne_zero (Nat.ne_zero_of_lt hfuel)
      have hget : (before ++ x :: xs ++ after)[before.length]? = some x := by simp
      have hstep := ih (before ++ [x]) after fuel (fun y hy => hxs y (List.mem_cons_of_mem x hy))
        (by simpa using hfuel)
      rw [scan, hget, Option.any_some, hxs x List.mem_cons_self, if_pos rfl]
      simpa using hstep
  induction cs generalizing pre fuel with
  | nil =>
    have hend : (bytes (pre ++ []))[size pre]? = none := by simp [size]
    cases fuel with
    | zero => simp [scan]
    | succ fuel =>
      rw [scan, hend, List.takeWhile_nil, List.append_nil]
      rfl
  | cons c cs ih =>
    have hsize := size_cons c cs
    have hlen := String.length_utf8EncodeChar c
    by_cases hc : P c = true
    · have hall : ∀ x ∈ String.utf8EncodeChar c, p x = true := fun x hx => (h c x hx).trans hc
      have hskip := hchar (String.utf8EncodeChar c) (bytes pre) (bytes cs) fuel hall (by omega)
      have hle : size cs ≤ fuel - c.utf8Size := by omega
      have hnext := ih (pre ++ [c]) hle
      have hone : bytes (pre ++ [c]) = bytes pre ++ String.utf8EncodeChar c := by simp [bytes]
      have htext : bytes (pre ++ c :: cs) = bytes pre ++ String.utf8EncodeChar c ++ bytes cs := by
        rw [bytes_append, bytes_cons, List.append_assoc]
      rw [List.takeWhile_cons_of_pos hc]
      calc scan p (bytes (pre ++ c :: cs)) fuel (size pre)
          = scan p (bytes pre ++ String.utf8EncodeChar c ++ bytes cs)
              (fuel - (String.utf8EncodeChar c).length)
              (bytes pre ++ String.utf8EncodeChar c).length := by
            rw [htext]
            exact hskip
        _ = scan p (bytes (pre ++ [c] ++ cs)) (fuel - c.utf8Size) (size (pre ++ [c])) := by
            rw [bytes_append _ cs, hone, size, hone, hlen]
        _ = size (pre ++ [c] ++ cs.takeWhile P) := hnext
        _ = size (pre ++ c :: cs.takeWhile P) := by rw [List.append_assoc, List.singleton_append]
    · obtain ⟨x, xs, hx⟩ := List.exists_cons_of_ne_nil (String.utf8EncodeChar_ne_nil (c := c))
      have hstop : p x = false := by
        rw [h c x (hx ▸ List.mem_cons_self)]
        exact Bool.eq_false_iff.mpr hc
      have hget : (bytes (pre ++ c :: cs))[size pre]? = some x := by
        rw [getElem?_bytes, bytes_cons, hx]
        rfl
      rw [List.takeWhile_cons_of_neg hc, List.append_nil]
      cases fuel with
      | zero => rfl
      | succ fuel =>
        rw [scan, hget, Option.any_some, hstop]
        rfl

end Text

end Ciphra
