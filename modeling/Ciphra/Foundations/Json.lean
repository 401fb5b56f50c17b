import Mathlib.Data.Rat.Defs
import Mathlib.Tactic

/-!
# JSON texts

A reader of JSON as RFC 8259 describes it: insignificant white space, numbers with a fraction and
an exponent, strings with escapes and surrogate pairs, nested arrays and objects. A number stands
for its exact value, an object for its members in order.

`Reads` says that a text without outer white space is read as a value wherever a comma, a closing
bracket or nothing follows. There is one rule for each kind of value (`reads_arr`, `reads_obj`), so
a text that is put together from such texts is read part by part (`Reads.parse`).
-/

namespace Ciphra

inductive Json
  | null
  | bool (b : Bool)
  | num (x : ℚ)
  | str (s : String)
  | arr (items : List Json)
  | obj (members : List (String × Json))

namespace Json

/-! ## Strings -/

def isSpace (c : Char) : Bool := c = ' ' || c = '\t' || c = '\n' || c = '\r'

/-- The text after insignificant white space. -/
def skip (cs : List Char) : List Char := cs.dropWhile isSpace

def hexDigit (c : Char) : Option ℕ :=
  if '0' ≤ c ∧ c ≤ '9' then some (c.toNat - 48)
  else if 'a' ≤ c ∧ c ≤ 'f' then some (c.toNat - 87)
  else if 'A' ≤ c ∧ c ≤ 'F' then some (c.toNat - 55)
  else none

/-- The value of four hexadecimal digits. -/
def hexQuad : List Char → Option (ℕ × List Char)
  | a :: b :: c :: d :: rest => do
    let a ← hexDigit a
    let b ← hexDigit b
    let c ← hexDigit c
    let d ← hexDigit d
    return (((a * 16 + b) * 16 + c) * 16 + d, rest)
  | _ => none

/-- The character of the digits after `\u`. A leading surrogate takes the trailing one with it. -/
def unicodeEscape (cs : List Char) : Option (Char × List Char) := do
  let (hi, rest) ← hexQuad cs
  if hi < 0xd800 ∨ 0xdfff < hi then return (Char.ofNat hi, rest)
  else if 0xdbff < hi then none
  else
    match rest with
    | '\\' :: 'u' :: rest =>
      let (lo, rest) ← hexQuad rest
      if 0xdc00 ≤ lo ∧ lo ≤ 0xdfff then
        return (Char.ofNat (0x10000 + (hi - 0xd800) * 0x400 + (lo - 0xdc00)), rest)
      else none
    | _ => none

/-- The character of a two-character escape. -/
def shortEscape (c : Char) : Option Char :=
  if c = '"' ∨ c = '\\' ∨ c = '/' then some c
  else if c = 'b' then some '\x08'
  else if c = 'f' then some '\x0c'
  else if c = 'n' then some '\n'
  else if c = 'r' then some '\r'
  else if c = 't' then some '\t'
  else none

/-- The next character of a string, or nothing at its closing quote. -/
def stringChar : List Char → Option (Option Char × List Char)
  | [] => none
  | c :: rest =>
    if c = '"' then some (none, rest)
    else if c = '\\' then
      match rest with
      | [] => none
      | e :: rest =>
        if e = 'u' then (unicodeEscape rest).map fun r => (some r.1, r.2)
        else (shortEscape e).map fun c => (some c, rest)
    else if c.toNat < 0x20 then none
    else some (some c, rest)

/-- The characters up to the closing quote. -/
def stringTail : ℕ → List Char → Option (List Char × List Char)
  | 0, _ => none
  | fuel + 1, cs => do
    let (c, rest) ← stringChar cs
    match c with
    | none => return ([], rest)
    | some c =>
      let (s, rest) ← stringTail fuel rest
      return (c :: s, rest)

/-- A string, from its opening quote on. -/
def string : List Char → Option (String × List Char)
  | [] => none
  | c :: rest =>
    if c = '"' then (stringTail rest.length rest).map fun r => (String.ofList r.1, r.2) else none

/-! ## Numbers -/

/-- The digits after a dot, if there is one. -/
def fraction : List Char → Option (List Char × List Char)
  | '.' :: rest =>
    if (rest.takeWhile Char.isDigit).isEmpty then none
    else some (rest.takeWhile Char.isDigit, rest.dropWhile Char.isDigit)
  | rest => some ([], rest)

/-- The value of a list of digits. -/
def natOf (digits : List Char) : ℕ := Nat.ofDigitChars 10 digits 0

/-- The exponent after `e` or `E`, if there is one. -/
def exponent : List Char → Option (ℤ × List Char)
  | c :: rest =>
    if c = 'e' ∨ c = 'E' then
      let negative := rest.head? = some '-'
      let rest := if negative ∨ rest.head? = some '+' then rest.drop 1 else rest
      let digits := rest.takeWhile Char.isDigit
      if digits.isEmpty then none
      else some (if negative then -(natOf digits : ℤ) else natOf digits, rest.dropWhile Char.isDigit)
    else some (0, c :: rest)
  | [] => some (0, [])

/-- A number without its sign: no leading zero, then a fraction and an exponent. -/
def unsigned (cs : List Char) : Option (ℚ × List Char) := do
  let int := cs.takeWhile Char.isDigit
  if int.isEmpty ∨ (int.head? = some '0' ∧ int.length ≠ 1) then none
  else
    let (frac, rest) ← fraction (cs.dropWhile Char.isDigit)
    let (exp, rest) ← exponent rest
    return (natOf (int ++ frac) * (10 : ℚ) ^ (exp - frac.length), rest)

def number : List Char → Option (ℚ × List Char)
  | '-' :: rest => (unsigned rest).map fun r => (-r.1, r.2)
  | rest => unsigned rest

/-! ## Values -/

section Sequences

variable {α : Type}

/-- The items of a list that has one, separated by commas, and its closing bracket. -/
def items (item : List Char → Option (α × List Char)) (close : Char) :
    ℕ → List Char → Option (List α × List Char)
  | 0, _ => none
  | fuel + 1, cs => do
    let (a, rest) ← item cs
    match skip rest with
    | [] => none
    | c :: rest =>
      if c = close then return ([a], rest)
      else if c = ',' then
        let (as, rest) ← items item close fuel rest
        return (a :: as, rest)
      else none

/-- The items after an opening bracket. -/
def sequence (item : List Char → Option (α × List Char)) (close : Char) (cs : List Char) :
    Option (List α × List Char) :=
  match skip cs with
  | [] => none
  | c :: rest => if c = close then some ([], rest) else items item close rest.length (c :: rest)

/-- A name, a colon and a value. -/
def member (item : List Char → Option (α × List Char)) (cs : List Char) :
    Option ((String × α) × List Char) := do
  let (name, rest) ← string (skip cs)
  match skip rest with
  | ':' :: rest =>
    let (a, rest) ← item rest
    return ((name, a), rest)
  | _ => none

end Sequences

/-- A value, with a bound on the nesting. -/
def value : ℕ → List Char → Option (Json × List Char)
  | 0, _ => none
  | fuel + 1, cs =>
    match skip cs with
    | 'n' :: 'u' :: 'l' :: 'l' :: rest => some (.null, rest)
    | 't' :: 'r' :: 'u' :: 'e' :: rest => some (.bool true, rest)
    | 'f' :: 'a' :: 'l' :: 's' :: 'e' :: rest => some (.bool false, rest)
    | '[' :: rest => (sequence (value fuel) ']' rest).map fun r => (.arr r.1, r.2)
    | '{' :: rest => (sequence (member (value fuel)) '}' rest).map fun r => (.obj r.1, r.2)
    | '"' :: rest => (string ('"' :: rest)).map fun r => (.str r.1, r.2)
    | cs => (number cs).map fun r => (.num r.1, r.2)

/-- A text that is one value, with white space around it. -/
def parse (text : String) : Option Json := do
  let (v, rest) ← value text.toList.length text.toList
  if (skip rest).isEmpty then return v else none

/-! ## Texts put together -/

/-- Nothing, a comma or a closing bracket follows. -/
def Ends (rest : List Char) : Prop := ∀ c ∈ rest.head?, c = ',' ∨ c = ']' ∨ c = '}'

/-- Neither white space nor a closing bracket. -/
def Opens (c : Char) : Prop := isSpace c = false ∧ c ≠ ']' ∧ c ≠ '}'

/-- A text that is read as a value. -/
structure Reads (text : List Char) (j : Json) : Prop where
  opens : ∃ c cs, text = c :: cs ∧ Opens c
  value_eq : ∀ fuel rest, text.length ≤ fuel → Ends rest →
    value fuel (text ++ rest) = some (j, rest)

theorem skip_cons {c : Char} (h : isSpace c = false) (cs : List Char) : skip (c :: cs) = c :: cs :=
  List.dropWhile_cons_of_neg (by rw [h]; exact Bool.false_ne_true)

theorem ends_nil : Ends [] := fun _ hc => absurd hc (by simp)

theorem ends_cons {c : Char} (h : c = ',' ∨ c = ']' ∨ c = '}') (cs : List Char) :
    Ends (c :: cs) := by
  intro d hd
  obtain rfl := Option.some.inj hd
  exact h

/-- A text that is read as a value is a JSON text for that value. -/
theorem Reads.parse {text : String} {j : Json} (h : Reads text.toList j) : parse text = some j := by
  have hvalue := h.value_eq text.toList.length [] le_rfl ends_nil
  rw [List.append_nil] at hvalue
  rw [Json.parse, hvalue]
  rfl

/-! ### Strings -/

/-- The characters of a string, each written as `enc` writes it. -/
theorem stringTail_flatMap {enc : Char → List Char}
    (h : ∀ c rest, stringChar (enc c ++ rest) = some (some c, rest)) (cs rest : List Char)
    {fuel : ℕ} (hfuel : cs.length < fuel) :
    stringTail fuel (cs.flatMap enc ++ '"' :: rest) = some (cs, rest) := by
  induction cs generalizing fuel with
  | nil =>
    obtain ⟨fuel, rfl⟩ := Nat.exists_eq_succ_of_ne_zero (Nat.ne_zero_of_lt hfuel)
    rfl
  | cons c cs ih =>
    obtain ⟨fuel, rfl⟩ := Nat.exists_eq_succ_of_ne_zero (Nat.ne_zero_of_lt hfuel)
    rw [List.flatMap_cons, List.append_assoc, stringTail, h]
    change (stringTail fuel (cs.flatMap enc ++ '"' :: rest) >>= fun r => _) = _
    rw [ih (by simpa using hfuel)]
    rfl

theorem string_flatMap {enc : Char → List Char}
    (h : ∀ c rest, stringChar (enc c ++ rest) = some (some c, rest)) (s : String)
    (rest : List Char) : string ('"' :: (s.toList.flatMap enc ++ '"' :: rest)) = some (s, rest) := by
  have hne : ∀ c, 1 ≤ (enc c).length := by
    intro c
    rw [Nat.one_le_iff_ne_zero]
    intro hzero
    have hnil := h c []
    rw [List.length_eq_zero_iff.mp hzero] at hnil
    cases hnil
  have hlen : s.toList.length ≤ (s.toList.flatMap enc).length := by
    rw [List.length_flatMap]
    calc s.toList.length = (s.toList.map fun _ => 1).sum := by simp
      _ ≤ _ := List.sum_le_sum fun c _ => hne c
  rw [string, if_pos rfl, stringTail_flatMap h _ _ (by
    rw [List.length_append, List.length_cons]
    omega)]
  exact congrArg (fun t => some (t, rest)) String.ofList_toList

theorem reads_str {enc : Char → List Char}
    (h : ∀ c rest, stringChar (enc c ++ rest) = some (some c, rest)) (s : String) :
    Reads ('"' :: (s.toList.flatMap enc ++ ['"'])) (.str s) := by
  refine ⟨⟨_, _, rfl, by decide, by decide, by decide⟩, fun fuel rest hfuel _ => ?_⟩
  obtain ⟨fuel, rfl⟩ := Nat.exists_eq_succ_of_ne_zero (Nat.ne_zero_of_lt hfuel)
  have hstring := string_flatMap h s rest
  rw [List.cons_append, List.append_assoc, List.singleton_append, value,
    skip_cons (by decide)]
  exact congrArg (Option.map fun r => (Json.str r.1, r.2)) hstring

/-! ### Literals and numbers -/

theorem reads_null : Reads ['n', 'u', 'l', 'l'] .null := by
  refine ⟨⟨_, _, rfl, by decide, by decide, by decide⟩, fun fuel rest hfuel _ => ?_⟩
  obtain ⟨fuel, rfl⟩ := Nat.exists_eq_succ_of_ne_zero (Nat.ne_zero_of_lt hfuel)
  rfl

theorem reads_true : Reads ['t', 'r', 'u', 'e'] (.bool true) := by
  refine ⟨⟨_, _, rfl, by decide, by decide, by decide⟩, fun fuel rest hfuel _ => ?_⟩
  obtain ⟨fuel, rfl⟩ := Nat.exists_eq_succ_of_ne_zero (Nat.ne_zero_of_lt hfuel)
  rfl

theorem reads_false : Reads ['f', 'a', 'l', 's', 'e'] (.bool false) := by
  refine ⟨⟨_, _, rfl, by decide, by decide, by decide⟩, fun fuel rest hfuel _ => ?_⟩
  obtain ⟨fuel, rfl⟩ := Nat.exists_eq_succ_of_ne_zero (Nat.ne_zero_of_lt hfuel)
  rfl

/-- What follows a value is no part of a number. -/
theorem Ends.not_digit {rest : List Char} (h : Ends rest) :
    rest.takeWhile Char.isDigit = [] ∧ rest.dropWhile Char.isDigit = rest := by
  cases rest with
  | nil => exact ⟨rfl, rfl⟩
  | cons c rest =>
    have hc : c.isDigit = false := by
      rcases h c rfl with rfl | rfl | rfl <;> rfl
    exact ⟨List.takeWhile_cons_of_neg (by simp [hc]), List.dropWhile_cons_of_neg (by simp [hc])⟩

theorem Ends.fraction {rest : List Char} (h : Ends rest) : fraction rest = some ([], rest) := by
  unfold Json.fraction
  split
  · next cs => rcases h '.' rfl with h | h | h <;> cases h
  · rfl

theorem Ends.exponent {rest : List Char} (h : Ends rest) : exponent rest = some (0, rest) := by
  unfold Json.exponent
  split
  · next c cs =>
    refine if_neg ?_
    rcases h c rfl with rfl | rfl | rfl <;> decide
  · rfl

/-- Only zero is written with a leading zero. -/
theorem eq_zero_of_head_toDigits {m : ℕ} (h : (Nat.toDigits 10 m).head? = some '0') : m = 0 := by
  induction m using Nat.strong_induction_on with
  | _ m ih =>
    by_cases hm : m < 10
    · rw [Nat.toDigits_of_lt_base hm] at h
      have hdigit : ∀ d < 10, Nat.digitChar d = '0' → d = 0 := by decide
      exact hdigit m hm (Option.some.inj h)
    · rw [Nat.toDigits_of_base_le (by decide) (by omega), List.head?_append_of_ne_nil _
        Nat.toDigits_ne_nil] at h
      have hrest := ih (m / 10) (by omega) h
      omega

theorem unsigned_repr (m : ℕ) {rest : List Char} (h : Ends rest) :
    unsigned (m.repr.toList ++ rest) = some ((m : ℚ), rest) := by
  have hdigits : ∀ c ∈ m.repr.toList, c.isDigit = true := by
    intro c hc
    rw [Nat.toList_repr] at hc
    exact Nat.isDigit_of_mem_toDigits (by decide) (by decide) hc
  have hne : m.repr.toList ≠ [] := by
    rw [Nat.toList_repr]
    exact Nat.toDigits_ne_nil
  have hvalue : natOf m.repr.toList = m := by
    rw [natOf, Nat.toList_repr]
    exact Nat.ofDigitChars_ten_toDigits
  have hlead : m.repr.toList.head? = some '0' → m.repr.toList.length = 1 := by
    intro hhead
    rw [Nat.toList_repr] at hhead ⊢
    rw [eq_zero_of_head_toDigits hhead]
    rfl
  have htake : (m.repr.toList ++ rest).takeWhile Char.isDigit = m.repr.toList := by
    rw [List.takeWhile_append_of_pos hdigits, h.not_digit.1, List.append_nil]
  have hdrop : (m.repr.toList ++ rest).dropWhile Char.isDigit = rest := by
    rw [List.dropWhile_append_of_pos hdigits, h.not_digit.2]
  have hcond : ¬(m.repr.toList.isEmpty = true ∨
      (m.repr.toList.head? = some '0' ∧ m.repr.toList.length ≠ 1)) := by
    rintro (hnil | hzero)
    · exact hne (List.isEmpty_iff.mp hnil)
    · exact hzero.2 (hlead hzero.1)
  rw [unsigned]
  simp only [htake, hdrop, if_neg hcond, h.fraction, h.exponent, Option.bind_eq_bind,
    Option.bind_some, List.append_nil, hvalue]
  simp

/-- A text that starts with a digit or a minus sign is a number. -/
theorem reads_num {text : List Char} {x : ℚ}
    (hopens : ∃ c cs, text = c :: cs ∧ (c = '-' ∨ c.isDigit = true))
    (h : ∀ rest, Ends rest → number (text ++ rest) = some (x, rest)) : Reads text (.num x) := by
  obtain ⟨c, cs, rfl, hc⟩ := hopens
  have hspecial : ∀ d : Char, d ≠ '-' → d.isDigit = false → c ≠ d := by
    rintro d hminus hdigit rfl
    rcases hc with hc | hc
    · exact hminus hc
    · rw [hdigit] at hc
      cases hc
  have hspace : isSpace c = false := by
    simp only [isSpace, Bool.or_eq_false_iff, decide_eq_false_iff_not]
    exact ⟨⟨⟨hspecial ' ' (by decide) rfl, hspecial '\t' (by decide) rfl⟩,
      hspecial '\n' (by decide) rfl⟩, hspecial '\r' (by decide) rfl⟩
  refine ⟨⟨c, cs, rfl, hspace, hspecial _ (by decide) rfl, hspecial _ (by decide) rfl⟩,
    fun fuel rest hfuel hrest => ?_⟩
  obtain ⟨fuel, rfl⟩ := Nat.exists_eq_succ_of_ne_zero (Nat.ne_zero_of_lt hfuel)
  rw [List.cons_append, value, skip_cons hspace]
  have hnumber := h rest hrest
  rw [List.cons_append] at hnumber
  split
  · next heq => exact absurd (List.cons.inj heq).1 (hspecial 'n' (by decide) rfl)
  · next heq => exact absurd (List.cons.inj heq).1 (hspecial 't' (by decide) rfl)
  · next heq => exact absurd (List.cons.inj heq).1 (hspecial 'f' (by decide) rfl)
  · next heq => exact absurd (List.cons.inj heq).1 (hspecial '[' (by decide) rfl)
  · next heq => exact absurd (List.cons.inj heq).1 (hspecial '\x7b' (by decide) rfl)
  · next heq => exact absurd (List.cons.inj heq).1 (hspecial '"' (by decide) rfl)
  · rw [hnumber]
    rfl

theorem exists_head_repr (m : ℕ) :
    ∃ c cs, m.repr.toList = c :: cs ∧ c.isDigit = true ∧ c ≠ '-' := by
  obtain ⟨c, cs, hcs⟩ := List.exists_cons_of_ne_nil (Nat.toDigits_ne_nil (b := 10) (n := m))
  have hc : c.isDigit = true :=
    Nat.isDigit_of_mem_toDigits (by decide) (by decide) (hcs ▸ List.mem_cons_self)
  refine ⟨c, cs, by rw [Nat.toList_repr, hcs], hc, ?_⟩
  rintro rfl
  cases hc

theorem number_of_head {c : Char} (hc : c ≠ '-') (cs : List Char) :
    number (c :: cs) = unsigned (c :: cs) := by
  unfold number
  split
  · next heq => exact absurd (List.cons.inj heq).1 hc
  · rfl

theorem reads_nat (m : ℕ) : Reads m.repr.toList (.num m) := by
  obtain ⟨c, cs, hcs, hc, hminus⟩ := exists_head_repr m
  refine reads_num ⟨c, cs, hcs, Or.inr hc⟩ fun rest hrest => ?_
  rw [← unsigned_repr m hrest, hcs, List.cons_append, number_of_head hminus]

theorem reads_int (n : ℤ) : Reads n.repr.toList (.num n) := by
  by_cases hn : 0 ≤ n
  · have hnat : ((n.toNat : ℤ) : ℚ) = n := by rw [Int.toNat_of_nonneg hn]
    rw [Int.repr_eq_if, if_pos hn, ← hnat, Int.cast_natCast]
    exact reads_nat n.toNat
  · have hnat : -(((-n).toNat : ℤ) : ℚ) = n := by
      rw [Int.toNat_of_nonneg (by omega)]
      push_cast
      ring
    have htext : n.repr.toList = '-' :: (-n).toNat.repr.toList := by
      rw [Int.repr_eq_if, if_neg hn, String.toList_append]
      rfl
    rw [htext, ← hnat, Int.cast_natCast]
    refine reads_num ⟨_, _, rfl, Or.inl rfl⟩ fun rest hrest => ?_
    rw [List.cons_append, number, unsigned_repr _ hrest]
    rfl

/-! ### Arrays and objects -/

section Sequences

variable {α : Type} {item : List Char → Option (α × List Char)} {close : Char}

/-- A text that `item` reads. -/
def ReadsItem (item : List Char → Option (α × List Char)) (text : List Char) (a : α) : Prop :=
  (∃ c cs, text = c :: cs ∧ Opens c) ∧
    ∀ rest, Ends rest → item (text ++ rest) = some (a, rest)

theorem items_intercalate (hclose : close = ']' ∨ close = '}') {texts : List (List Char)}
    {as : List α} (h : List.Forall₂ (ReadsItem item) texts as) (hne : texts ≠ [])
    (rest : List Char) {fuel : ℕ} (hfuel : texts.length ≤ fuel) :
    items item close fuel (List.intercalate [','] texts ++ close :: rest) = some (as, rest) := by
  have hspace : isSpace close = false := by rcases hclose with rfl | rfl <;> rfl
  have hcomma : ',' ≠ close := by rcases hclose with rfl | rfl <;> decide
  induction h generalizing fuel with
  | nil => exact absurd rfl hne
  | @cons text a texts as hitem hrest ih =>
    obtain ⟨fuel, rfl⟩ := Nat.exists_eq_succ_of_ne_zero (Nat.ne_zero_of_lt hfuel)
    cases hrest with
    | nil =>
      rw [List.intercalate_singleton, items, hitem.2 _ (ends_cons (Or.inr hclose) rest)]
      simp only [Option.bind_eq_bind, Option.bind_some, skip_cons hspace, if_true]
      rfl
    | @cons text' a' texts as hitem' hrest =>
      have hle : (text' :: texts).length ≤ fuel := by simpa using hfuel
      have hih := ih (by simp) hle
      rw [List.intercalate_cons_cons, List.append_assoc, List.append_assoc, items,
        List.singleton_append, hitem.2 _ (ends_cons (Or.inl rfl) _)]
      simp only [Option.bind_eq_bind, Option.bind_some, skip_cons (show isSpace ',' = false from rfl),
        if_neg hcomma, if_true, hih]
      rfl

theorem length_le_intercalate {texts : List (List Char)} {text : List Char} (h : text ∈ texts) :
    text.length ≤ (List.intercalate [','] texts).length := by
  induction texts with
  | nil => cases h
  | cons first texts ih =>
    cases texts with
    | nil =>
      obtain rfl := List.mem_singleton.mp h
      rw [List.intercalate_singleton]
    | cons second texts =>
      rw [List.intercalate_cons_cons, List.length_append, List.length_append]
      rcases List.mem_cons.mp h with rfl | h
      · omega
      · have hle := ih h
        omega

theorem count_le_intercalate {texts : List (List Char)} (h : ∀ text ∈ texts, text ≠ []) :
    texts.length ≤ (List.intercalate [','] texts).length := by
  induction texts with
  | nil => exact Nat.zero_le _
  | cons first texts ih =>
    have hfirst : 0 < first.length := List.length_pos_iff.mpr (h first List.mem_cons_self)
    cases texts with
    | nil =>
      rw [List.intercalate_singleton]
      exact hfirst
    | cons second texts =>
      have hle := ih fun text ht => h text (List.mem_cons_of_mem _ ht)
      rw [List.intercalate_cons_cons, List.length_append, List.length_append, List.length_cons]
      omega

theorem sequence_intercalate (hclose : close = ']' ∨ close = '}') {texts : List (List Char)}
    {as : List α} (h : List.Forall₂ (ReadsItem item) texts as) (rest : List Char) :
    sequence item close (List.intercalate [','] texts ++ close :: rest) = some (as, rest) := by
  have hspace : isSpace close = false := by rcases hclose with rfl | rfl <;> rfl
  cases texts with
  | nil =>
    cases h
    rw [List.intercalate_nil, List.nil_append, sequence, skip_cons hspace]
    exact if_pos rfl
  | cons text texts =>
    have hopens : ∀ t ∈ text :: texts, ∃ c cs, t = c :: cs ∧ Opens c := by
      intro t ht
      obtain ⟨k, hk, rfl⟩ := List.getElem_of_mem ht
      exact (h.get hk (h.length_eq ▸ hk)).1
    obtain ⟨c, cs, hcs, hspace', hbracket, hbrace⟩ := hopens text List.mem_cons_self
    obtain ⟨tail, htail⟩ : ∃ tail, List.intercalate [','] (text :: texts) = c :: tail := by
      cases texts with
      | nil => exact ⟨cs, by rw [List.intercalate_singleton, hcs]⟩
      | cons second texts =>
        rw [List.intercalate_cons_cons, hcs]
        exact ⟨_, rfl⟩
    have hcount := count_le_intercalate fun t ht => by
      obtain ⟨d, ds, hds, -⟩ := hopens t ht
      rw [hds]
      exact List.cons_ne_nil d ds
    have hne : ¬c = close := by
      rcases hclose with rfl | rfl
      · exact hbracket
      · exact hbrace
    have hlen : (text :: texts).length ≤ (tail ++ close :: rest).length := by
      simp only [htail, List.length_cons] at hcount
      simp only [List.length_append, List.length_cons]
      omega
    have hall := items_intercalate hclose h (List.cons_ne_nil _ _) rest hlen
    rw [htail, List.cons_append] at hall ⊢
    rw [sequence, skip_cons hspace']
    exact (if_neg hne).trans hall

end Sequences

/-- An array of texts that are read. -/
theorem reads_arr {texts : List (List Char)} {js : List Json} (h : List.Forall₂ Reads texts js) :
    Reads ('[' :: (List.intercalate [','] texts ++ [']'])) (.arr js) := by
  refine ⟨⟨_, _, rfl, by decide, by decide, by decide⟩, fun fuel rest hfuel _ => ?_⟩
  obtain ⟨fuel, rfl⟩ := Nat.exists_eq_succ_of_ne_zero (Nat.ne_zero_of_lt hfuel)
  have hitems : List.Forall₂ (ReadsItem (value fuel)) texts js := by
    refine List.forall₂_iff_get.mpr ⟨h.length_eq, fun k hk hk' => ?_⟩
    have hread := h.get hk hk'
    have hle := length_le_intercalate (List.get_mem texts ⟨k, hk⟩)
    refine ⟨hread.opens, fun rest hrest => hread.value_eq fuel rest ?_ hrest⟩
    simp only [List.length_cons, List.length_append, List.length_nil] at hfuel
    omega
  have hseq := sequence_intercalate (Or.inl rfl) hitems rest
  rw [List.cons_append, List.append_assoc, List.singleton_append, value, skip_cons (by decide)]
  exact congrArg (Option.map fun r => (Json.arr r.1, r.2)) hseq

/-- A name and a value with a colon between them. -/
def ReadsMember (text : List Char) (m : String × Json) : Prop :=
  ∃ name v, text = '"' :: (name ++ ':' :: v) ∧
    (∀ rest, string ('"' :: (name ++ rest)) = some (m.1, rest)) ∧ Reads v m.2

/-- An object of members that are read. -/
theorem reads_obj {texts : List (List Char)} {ms : List (String × Json)}
    (h : List.Forall₂ ReadsMember texts ms) :
    Reads ('\x7b' :: (List.intercalate [','] texts ++ ['\x7d'])) (.obj ms) := by
  refine ⟨⟨_, _, rfl, by decide, by decide, by decide⟩, fun fuel rest hfuel _ => ?_⟩
  obtain ⟨fuel, rfl⟩ := Nat.exists_eq_succ_of_ne_zero (Nat.ne_zero_of_lt hfuel)
  have hitems : List.Forall₂ (ReadsItem (member (value fuel))) texts ms := by
    refine List.forall₂_iff_get.mpr ⟨h.length_eq, fun k hk hk' => ?_⟩
    obtain ⟨name, v, htext, hname, hv⟩ := h.get hk hk'
    have hle := length_le_intercalate (List.get_mem texts ⟨k, hk⟩)
    rw [htext] at hle ⊢
    refine ⟨⟨_, _, rfl, by decide, by decide, by decide⟩, fun rest hrest => ?_⟩
    have hvalue := hv.value_eq fuel rest (by
      simp only [List.length_cons, List.length_append, List.length_nil] at hfuel hle
      omega) hrest
    rw [List.cons_append, List.append_assoc, List.cons_append, member, skip_cons (by decide), hname]
    simp only [Option.bind_eq_bind, Option.bind_some, skip_cons (show isSpace ':' = false from rfl),
      hvalue]
    rfl
  have hseq := sequence_intercalate (Or.inr rfl) hitems rest
  rw [List.cons_append, List.append_assoc, List.singleton_append, value, skip_cons (by decide)]
  exact congrArg (Option.map fun r => (Json.obj r.1, r.2)) hseq

end Json

end Ciphra
