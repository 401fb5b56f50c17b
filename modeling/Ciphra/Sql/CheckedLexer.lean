import Ciphra.Foundations.Text
import Ciphra.Sql.Lexer

/-!
# The tokenizer on bytes

The source walks the bytes of the text and slices the text at byte offsets, which stops the program
unless a character begins at both ends. Here are its loops on bytes, where a result is missing if
an index or a slice is out of range, an `unwrap` or an assertion fails, or a loop does not end.
The tokenizer on bytes always has a result, and it is the one on characters
(`Checked.tokenize_eq`): every offset it slices at is the offset of a character, since it stops only
before and after ASCII bytes.
-/

namespace Ciphra.Sql

open Text

namespace Checked

variable (F : Formats)

/-! ## Bytes -/

def isBlankByte (x : UInt8) : Bool :=
  x = ascii ' ' || x = ascii '\t' || x = ascii '\r' || x = ascii '\n'

def isDigitByte (x : UInt8) : Bool := 48 ≤ x.toNat && x.toNat ≤ 57

def isAlphaByte (x : UInt8) : Bool :=
  (97 ≤ x.toNat && x.toNat ≤ 122) || (65 ≤ x.toNat && x.toNat ≤ 90)

/-- `is_ascii_alphanumeric() || b'_'`. -/
def isWordByte (x : UInt8) : Bool := isAlphaByte x || isDigitByte x || x = ascii '_'

/-- `text.parse::<i64>()` on digits. -/
def parseI64 (text : List Char) : Option Int64 :=
  if decimal text < 2 ^ 63 then some (Int64.ofNat (decimal text)) else none

/-- The token written by the byte `x` and the byte after it, and how many bytes it takes. -/
def lexSymbol (x : UInt8) (next : Option UInt8) : Option (Except ParseError (Token × ℕ)) :=
  if x = ascii ',' then some (.ok (.comma, 1))
  else if x = ascii '[' then some (.ok (.lbracket, 1))
  else if x = ascii ']' then some (.ok (.rbracket, 1))
  else if x = ascii '(' then some (.ok (.lparen, 1))
  else if x = ascii ')' then some (.ok (.rparen, 1))
  else if x = ascii '*' then some (.ok (.star, 1))
  else if x = ascii ';' then some (.ok (.semi, 1))
  else if x = ascii '-' then some (.ok (.minus, 1))
  else if x = ascii '=' then some (.ok (.eq, 1))
  else if x = ascii '!' then
    if next = some (ascii '=') then some (.ok (.ne, 2))
    else some (.error (.message "expected '=' after '!'"))
  else if x = ascii '<' then
    if next = some (ascii '=') then some (.ok (.le, 2))
    else if next = some (ascii '>') then some (.ok (.ne, 2))
    else some (.ok (.lt, 1))
  else if x = ascii '>' then
    if next = some (ascii '=') then some (.ok (.ge, 2)) else some (.ok (.gt, 1))
  else none

/-! ## Literals and words -/

/-- The loop of `lex_string`: up to the next quote, and on behind a doubled one. -/
def lexStringLoop (input : List Char) : ℕ → ℕ → List Char →
    Option (Except ParseError (List Char × ℕ))
  | 0, _, _ => none
  | fuel + 1, i, out => do
    let rest ← sliceFrom input i
    match (bytes rest).findIdx? (· = ascii '\'') with
    | none => return .error (.message "unterminated string literal")
    | some rel =>
      let part ← Text.slice input i (i + rel)
      if (bytes input)[i + rel + 1]? = some (ascii '\'') then
        lexStringLoop input fuel (i + rel + 1 + 1) (out ++ part ++ ['\''])
      else return .ok (out ++ part, i + rel + 1)

/-- The contents of the string literal that the text starts with, and how many bytes it takes. -/
def lexString (input : List Char) : Option (Except ParseError (List Char × ℕ)) :=
  if (bytes input)[0]? = some (ascii '\'') then lexStringLoop input (size input) 1 [] else none

/-- A number from offset `i`, and the offset after it. -/
def lexNumber (input : List Char) (i : ℕ) : Option (Except ParseError (Token × ℕ)) :=
  let b := bytes input
  let stop := scan isDigitByte b b.length i
  if stop + 1 < b.length ∧ b[stop]? = some (ascii '.') ∧ (b[stop + 1]?).any isDigitByte then do
    let stop := scan isDigitByte b b.length (stop + 1)
    let text ← Text.slice input i stop
    return .ok (.float (F.parseF64 text), stop)
  else do
    let text ← Text.slice input i stop
    match parseI64 text with
    | some n => return .ok (.int n, stop)
    | none => return .error (.message ("integer literal out of range: " ++ String.ofList text))

/-- A round of `tokenize` at offset `i`: a token, a blank or a comment, and the next offset. -/
def lexAt (input : List Char) (i : ℕ) : Option (Except ParseError (Option Token × ℕ)) := do
  let b := bytes input
  let x ← b[i]?
  if isBlankByte x then return .ok (none, i + 1)
  else if x = ascii '-' ∧ b[i + 1]? = some (ascii '-') then
    return .ok (none, scan (· ≠ ascii '\n') b b.length i)
  else
    match lexSymbol x b[i + 1]? with
    | some r => return r.map fun r => (some r.1, i + r.2)
    | none =>
      if x = ascii '\'' then
        let rest ← sliceFrom input i
        let r ← lexString rest
        return r.map fun r => (some (.str (String.ofList r.1)), i + r.2)
      else if isDigitByte x then
        let r ← lexNumber F input i
        return r.map fun r => (some r.1, r.2)
      else if isAlphaByte x || x = ascii '_' then
        let stop := scan isWordByte b b.length i
        let text ← Text.slice input i stop
        return .ok (some (.ident (String.ofList (text.map Char.toLower))), stop)
      else
        let rest ← sliceFrom input i
        let c ← rest.head?
        return .error (.message ("unexpected character: " ++ F.debugChar c))

/-- `while i < bytes.len()`. -/
def tokenizeLoop (input : List Char) : ℕ → ℕ → List Token →
    Option (Except ParseError (List Token))
  | 0, _, _ => none
  | fuel + 1, i, tokens =>
    if i < (bytes input).length then do
      match ← lexAt F input i with
      | .error e => return .error e
      | .ok (token, i) => tokenizeLoop input fuel i (tokens ++ token.toList)
    else some (.ok tokens)

/-- The tokens of a text. A round takes at least a byte. -/
def tokenize (input : String) : Option (Except ParseError (List Token)) :=
  tokenizeLoop F input.toList (size input.toList + 1) 0 []

/-! ## Bytes and characters -/

/-- A class of ASCII characters is decided by every byte of a character. -/
theorem agree {p : UInt8 → Bool} {P : Char → Bool} (R : ℕ → Prop) (hR : ∀ n, R n → n < 0x80)
    (hp : ∀ x, p x = true ↔ R x.toNat) (hP : ∀ c, P c = true ↔ R c.toNat) (c : Char) (x : UInt8)
    (hx : x ∈ String.utf8EncodeChar c) : p x = P c := by
  rw [Bool.eq_iff_iff, hp, hP]
  by_cases hc : c.toNat < 0x80
  · rw [utf8_ascii hc] at hx
    rw [List.mem_singleton.mp hx, toNat_ascii hc]
  · have hbyte := utf8_not_ascii (Nat.not_lt.mp hc) x hx
    exact ⟨fun h => absurd (hR _ h) (by omega), fun h => absurd (hR _ h) (by omega)⟩

theorem eq_ascii_iff {d : Char} (hd : d.toNat < 0x80) (x : UInt8) :
    x = ascii d ↔ x.toNat = d.toNat := by
  rw [← UInt8.toNat_inj, toNat_ascii hd]

theorem agree_digit : ∀ c, ∀ x ∈ String.utf8EncodeChar c, isDigitByte x = c.isDigit := by
  refine agree (fun n => 48 ≤ n ∧ n ≤ 57) (fun n hn => by omega) (fun x => ?_) isDigit_iff
  simp [isDigitByte]

theorem agree_word : ∀ c, ∀ x ∈ String.utf8EncodeChar c, isWordByte x = isWordChar c := by
  refine agree (fun n => (65 ≤ n ∧ n ≤ 90) ∨ (97 ≤ n ∧ n ≤ 122) ∨ (48 ≤ n ∧ n ≤ 57) ∨ n = 95)
    (fun n hn => by omega) (fun x => ?_) isWordChar_iff
  simp only [isWordByte, isAlphaByte, isDigitByte, Bool.or_eq_true, Bool.and_eq_true,
    decide_eq_true_eq, eq_ascii_iff (show '_'.toNat < 0x80 by decide)]
  change _ ∨ x.toNat = 95 ↔ _
  omega

theorem agree_start : ∀ c, ∀ x ∈ String.utf8EncodeChar c,
    (isAlphaByte x || decide (x = ascii '_')) = isWordStart c := by
  refine agree (fun n => (65 ≤ n ∧ n ≤ 90) ∨ (97 ≤ n ∧ n ≤ 122) ∨ n = 95)
    (fun n hn => by omega) (fun x => ?_) isWordStart_iff
  simp only [isAlphaByte, Bool.or_eq_true, Bool.and_eq_true, decide_eq_true_eq,
    eq_ascii_iff (show '_'.toNat < 0x80 by decide)]
  change _ ∨ x.toNat = 95 ↔ _
  omega

theorem agree_blank : ∀ c, ∀ x ∈ String.utf8EncodeChar c, isBlankByte x = isBlank c := by
  refine agree (fun n => n = 32 ∨ n = 9 ∨ n = 13 ∨ n = 10) (fun n hn => by omega)
    (fun x => ?_) (fun c => ?_)
  · simp only [isBlankByte, Bool.or_eq_true, decide_eq_true_eq,
      eq_ascii_iff (show ' '.toNat < 0x80 by decide), eq_ascii_iff (show '\t'.toNat < 0x80 by decide),
      eq_ascii_iff (show '\r'.toNat < 0x80 by decide), eq_ascii_iff (show '\n'.toNat < 0x80 by decide)]
    change ((x.toNat = 32 ∨ x.toNat = 9) ∨ x.toNat = 13) ∨ x.toNat = 10 ↔ _
    omega
  · simp only [isBlank, Bool.or_eq_true, beq_iff_eq, ← Char.toNat_inj]
    change ((c.toNat = 32 ∨ c.toNat = 9) ∨ c.toNat = 13) ∨ c.toNat = 10 ↔ _
    omega

theorem agree_line : ∀ c, ∀ x ∈ String.utf8EncodeChar c,
    decide (x ≠ ascii '\n') = (c != '\n') := by
  intro c x hx
  have heq := agree (p := fun x => decide (x = ascii '\n')) (P := fun c => c == '\n')
    (fun n => n = 10) (fun n hn => by omega)
    (fun x => by rw [decide_eq_true_eq, eq_ascii_iff (by decide)]; rfl)
    (fun c => by rw [beq_iff_eq, ← Char.toNat_inj]; rfl) c x hx
  rw [decide_not, bne]
  exact congrArg Bool.not heq

/-! ## A round -/

/-- The outcome `o` at byte offsets is the outcome `r` on the characters `cs` behind `pre`. -/
def Follows {α : Type} (pre cs : List Char) (r : Except ParseError (α × List Char))
    (o : Option (Except ParseError (α × ℕ))) : Prop :=
  (∀ e, r = .error e → o = some (.error e)) ∧
    ∀ a rest, r = .ok (a, rest) →
      ∃ mid, cs = mid ++ rest ∧ o = some (.ok (a, size (pre ++ mid)))

theorem follows_ok {α : Type} {pre cs rest : List Char} {a : α}
    {o : Option (Except ParseError (α × ℕ))} (mid : List Char) (hcs : cs = mid ++ rest)
    (ho : o = some (.ok (a, size (pre ++ mid)))) : Follows pre cs (.ok (a, rest)) o := by
  refine ⟨fun e he => (by cases he), fun b rest' h => ?_⟩
  obtain ⟨rfl, rfl⟩ := Prod.mk.inj (Except.ok.inj h)
  exact ⟨mid, hcs, ho⟩

theorem follows_error {α : Type} {pre cs : List Char} {e : ParseError}
    {o : Option (Except ParseError (α × ℕ))} (ho : o = some (.error e)) :
    Follows pre cs (.error e) o := by
  refine ⟨fun e' he => ?_, fun b rest h => by cases h⟩
  obtain rfl := Except.error.inj he
  exact ho

theorem Follows.prepend {α : Type} {pre mid cs : List Char} {r : Except ParseError (α × List Char)}
    {o : Option (Except ParseError (α × ℕ))} (h : Follows (pre ++ mid) cs r o) :
    Follows pre (mid ++ cs) r o := by
  refine ⟨h.1, fun a rest hr => ?_⟩
  obtain ⟨mid', hcs, ho⟩ := h.2 a rest hr
  exact ⟨mid ++ mid', by rw [hcs, List.append_assoc], by rw [ho, List.append_assoc]⟩

theorem Follows.map {α β : Type} {pre cs : List Char} {r : Except ParseError (α × List Char)}
    {o : Option (Except ParseError (α × ℕ))} (h : Follows pre cs r o) (f : α → β) :
    Follows pre cs (r.map fun r => (f r.1, r.2)) (o.map fun o => o.map fun r => (f r.1, r.2)) := by
  cases r with
  | error e => exact follows_error (by rw [h.1 e rfl]; rfl)
  | ok r =>
    obtain ⟨mid, hcs, ho⟩ := h.2 r.1 r.2 rfl
    exact follows_ok mid hcs (by rw [ho]; rfl)

/-! ### Strings -/

theorem lexString_chunk {chunk : List Char} (h : ∀ c ∈ chunk, c ≠ '\'') (after : List Char) :
    Sql.lexString (chunk ++ after) = (Sql.lexString after).map fun r => (chunk ++ r.1, r.2) := by
  induction chunk with
  | nil => simp
  | cons c chunk ih =>
    have hstep : Sql.lexString (c :: (chunk ++ after)) =
        (Sql.lexString (chunk ++ after)).map fun r => (c :: r.1, r.2) := by
      rw [Sql.lexString.eq_def]
      exact if_neg (h c List.mem_cons_self)
    rw [List.cons_append, hstep, ih fun d hd => h d (List.mem_cons_of_mem c hd), Option.map_map]
    rfl

theorem findIdx_quote {chunk : List Char} (h : ∀ c ∈ chunk, c ≠ '\'') (after : List Char) :
    (bytes (chunk ++ after)).findIdx? (· = ascii '\'') =
      ((bytes after).findIdx? (· = ascii '\'')).map (· + size chunk) := by
  have hnone : (bytes chunk).findIdx? (· = ascii '\'') = none := by
    rw [List.findIdx?_eq_none_iff]
    intro x hx
    obtain ⟨c, hc, hx⟩ := List.mem_flatMap.mp hx
    have heq := agree (p := fun x => decide (x = ascii '\'')) (P := fun c => c == '\'')
      (fun n => n = 39) (fun n hn => by omega)
      (fun x => by rw [decide_eq_true_eq, eq_ascii_iff (by decide)]; rfl)
      (fun c => by rw [beq_iff_eq, ← Char.toNat_inj]; rfl) c x hx
    rw [heq, beq_eq_false_iff_ne]
    exact h c hc
  rw [bytes_append, List.findIdx?_append, hnone, Option.none_or]
  rfl

/-- A text without a quote, or with its first quote. -/
theorem exists_quote (cs : List Char) : (∀ c ∈ cs, c ≠ '\'') ∨
    ∃ chunk after, cs = chunk ++ '\'' :: after ∧ ∀ c ∈ chunk, c ≠ '\'' := by
  by_cases h : '\'' ∈ cs
  · obtain ⟨chunk, after, hcs, hchunk⟩ := List.eq_append_cons_of_mem h
    exact Or.inr ⟨chunk, after, hcs, fun c hc heq => hchunk (heq ▸ hc)⟩
  · exact Or.inl fun c hc heq => h (heq ▸ hc)

/-- The loop reads from quote to quote what the tokenizer on characters reads one by one. -/
theorem follows_lexStringLoop (input : List Char) {fuel : ℕ} (pre cs out : List Char)
    (hinput : input = pre ++ cs) (hfuel : cs.length < fuel) :
    Follows pre cs
      (match Sql.lexString cs with
        | some r => .ok (out ++ r.1, r.2)
        | none => .error (.message "unterminated string literal"))
      (lexStringLoop input fuel (size pre) out) := by
  induction fuel generalizing pre cs out with
  | zero => omega
  | succ fuel ih =>
    have hfrom : sliceFrom input (size pre) = some cs := hinput ▸ sliceFrom_append pre cs
    rw [lexStringLoop, hfrom, Option.bind_eq_bind, Option.bind_some]
    rcases exists_quote cs with hnone | ⟨chunk, after, rfl, hchunk⟩
    · have hchars : Sql.lexString cs = none := by
        have hall := lexString_chunk hnone []
        rw [List.append_nil] at hall
        rw [hall]
        rfl
      have hbytes : (bytes cs).findIdx? (· = ascii '\'') = none := by
        have hall := findIdx_quote hnone []
        rw [List.append_nil] at hall
        rw [hall]
        rfl
      rw [hchars, hbytes]
      exact follows_error rfl
    · have hquote : (bytes ('\'' :: after)).findIdx? (· = ascii '\'') = some 0 := by
        rw [bytes_cons, utf8_ascii (by decide)]
        rfl
      have hpart : Text.slice input (size pre) (size pre + size chunk) = some chunk :=
        hinput ▸ Text.slice_append pre chunk ('\'' :: after)
      have hone : size ['\''] = 1 := rfl
      have hnext : (bytes input)[size pre + size chunk + 1]? = some (ascii '\'') ↔
          after.head? = some '\'' := by
        have hsplit : input = (pre ++ (chunk ++ ['\''])) ++ after := by simp [hinput]
        have hsize : size (pre ++ (chunk ++ ['\''])) = size pre + size chunk + 1 := by
          rw [size_append, size_append, hone, Nat.add_assoc]
        rw [hsplit, ← hsize, getElem?_bytes, head_bytes_eq (by decide)]
      rw [findIdx_quote hchunk, hquote, Option.map_some, Nat.zero_add]
      simp only [hpart, Option.bind_some, hnext]
      rw [lexString_chunk hchunk]
      cases after with
      | nil =>
        refine follows_ok (chunk ++ ['\'']) (by simp) ?_
        simp [size_append, hone, Nat.add_assoc]
      | cons d after =>
        by_cases hd : d = '\''
        · subst hd
          have hchars : Sql.lexString ('\'' :: '\'' :: after) =
              (Sql.lexString after).map fun r => ('\'' :: r.1, r.2) := by
            rw [Sql.lexString.eq_def]
            exact if_pos rfl
          have htail := ih (pre ++ (chunk ++ ['\'', '\''])) after
            (out ++ chunk ++ ['\'']) (by simp [hinput])
            (by simp only [List.length_append, List.length_cons] at hfuel; omega)
          have hsize : size (pre ++ (chunk ++ ['\'', '\''])) = size pre + size chunk + 1 + 1 := by
            rw [size_append, size_append, ← Nat.add_assoc]
            rfl
          rw [hsize] at htail
          have hwhole := htail.prepend
          rw [List.append_assoc, List.cons_append, List.cons_append, List.nil_append] at hwhole
          rw [hchars, if_pos (by rfl)]
          cases hrest : Sql.lexString after with
          | none =>
            rw [hrest] at hwhole
            exact hwhole
          | some r =>
            rw [hrest] at hwhole
            simpa using hwhole
        · have hchars : Sql.lexString ('\'' :: d :: after) = some ([], d :: after) := by
            rw [Sql.lexString.eq_def]
            refine (if_pos rfl).trans ?_
            split
            · next heq => exact absurd (List.cons.inj heq).1 hd
            · rfl
          rw [hchars, if_neg (by simpa using hd)]
          refine follows_ok (chunk ++ ['\'']) (by simp) ?_
          simp [size_append, hone, Nat.add_assoc]

/-! ### Numbers and words -/

/-- A scan of a class of characters, and the slice up to where it stops. -/
theorem scan_slice {p : UInt8 → Bool} {P : Char → Bool}
    (h : ∀ c, ∀ x ∈ String.utf8EncodeChar c, p x = P c) (pre cs : List Char) :
    scan p (bytes (pre ++ cs)) (bytes (pre ++ cs)).length (size pre) =
        size pre + size (cs.takeWhile P) ∧
      Text.slice (pre ++ cs) (size pre) (size pre + size (cs.takeWhile P)) = some (cs.takeWhile P) := by
  constructor
  · rw [scan_bytes h pre cs (by rw [← size, size_append]; omega), size_append]
  · have hslice := Text.slice_append pre (cs.takeWhile P) (cs.dropWhile P)
    rwa [List.takeWhile_append_dropWhile] at hslice

theorem follows_int (pre whole rest : List Char) :
    Follows pre (whole ++ rest)
      (if decimal whole < 2 ^ 63 then .ok (.int (Int64.ofNat (decimal whole)), rest)
        else .error (.message ("integer literal out of range: " ++ String.ofList whole)))
      (match parseI64 whole with
        | some n => some (.ok (Token.int n, size pre + size whole))
        | none => some (.error
            (.message ("integer literal out of range: " ++ String.ofList whole)))) := by
  rw [parseI64]
  split
  · exact follows_ok _ rfl (by rw [size_append])
  · exact follows_error rfl

theorem follows_lexNumber (pre cs : List Char) :
    Follows pre cs (Sql.lexNumber F cs) (lexNumber F (pre ++ cs) (size pre)) := by
  obtain ⟨hstop, hslice⟩ := scan_slice agree_digit pre cs
  obtain ⟨whole, hwhole⟩ : ∃ whole, whole = cs.takeWhile Char.isDigit := ⟨_, rfl⟩
  obtain ⟨rest, hrest⟩ : ∃ rest, rest = cs.dropWhile Char.isDigit := ⟨_, rfl⟩
  have hcs : cs = whole ++ rest := by rw [hwhole, hrest, List.takeWhile_append_dropWhile]
  rw [← hwhole] at hstop hslice
  have hdot : (bytes (pre ++ cs))[size pre + size whole]? = some (ascii '.') ↔
      rest.head? = some '.' := by
    rw [hcs, ← List.append_assoc, ← size_append, getElem?_bytes, head_bytes_eq (by decide)]
  have hint : lexNumber F (pre ++ cs) (size pre) =
      if size pre + size whole + 1 < (bytes (pre ++ cs)).length ∧
          (bytes (pre ++ cs))[size pre + size whole]? = some (ascii '.') ∧
          ((bytes (pre ++ cs))[size pre + size whole + 1]?).any isDigitByte then
        (Text.slice (pre ++ cs) (size pre) (scan isDigitByte (bytes (pre ++ cs))
          (bytes (pre ++ cs)).length (size pre + size whole + 1))).bind fun text =>
            some (.ok (.float (F.parseF64 text), scan isDigitByte (bytes (pre ++ cs))
              (bytes (pre ++ cs)).length (size pre + size whole + 1)))
      else match parseI64 whole with
        | some n => some (.ok (.int n, size pre + size whole))
        | none => some (.error
            (.message ("integer literal out of range: " ++ String.ofList whole))) := by
    simp only [lexNumber, hstop, hslice, Option.bind_eq_bind, Option.bind_some, Option.pure_def]
  rw [hint]
  by_cases hfrac : ∃ d more, rest = '.' :: d :: more ∧ d.isDigit = true
  · obtain ⟨d, more, hmore, hd⟩ := hfrac
    obtain ⟨fraction, hfraction⟩ : ∃ f, f = (d :: more).takeWhile Char.isDigit := ⟨_, rfl⟩
    obtain ⟨hstop', -⟩ := scan_slice agree_digit (pre ++ (whole ++ ['.'])) (d :: more)
    have hinput : pre ++ (whole ++ ['.']) ++ d :: more = pre ++ cs := by simp [hcs, hmore]
    have hsize : size (pre ++ (whole ++ ['.'])) = size pre + size whole + 1 := by
      rw [size_append, size_append, ← Nat.add_assoc]
      rfl
    rw [hinput, hsize, ← hfraction] at hstop'
    have hdigit : ((bytes (pre ++ cs))[size pre + size whole + 1]?).any isDigitByte = true := by
      rw [← hinput, ← hsize, getElem?_bytes, head_bytes_any agree_digit]
      exact hd
    have hlt : size pre + size whole + 1 < (bytes (pre ++ cs)).length := by
      rw [← size, ← hinput, size_append, hsize]
      exact Nat.lt_add_of_pos_right (size_pos (List.cons_ne_nil d more))
    have htext : Text.slice (pre ++ cs) (size pre) (size pre + size whole + 1 + size fraction) =
        some (whole ++ '.' :: fraction) := by
      have hslice := Text.slice_append pre (whole ++ '.' :: fraction) ((d :: more).dropWhile Char.isDigit)
      have hwholetext : whole ++ '.' :: fraction ++ (d :: more).dropWhile Char.isDigit = cs := by
        rw [hcs, hmore, hfraction, List.append_assoc, List.cons_append,
          List.takeWhile_append_dropWhile]
      have hlen : size pre + size (whole ++ '.' :: fraction) =
          size pre + size whole + 1 + size fraction := by
        rw [size_append, size_cons, ← Nat.add_assoc, ← Nat.add_assoc]
        rfl
      rwa [hwholetext, hlen] at hslice
    have hchars : Sql.lexNumber F cs = .ok (.float (F.parseF64 (whole ++ '.' :: fraction)),
        (d :: more).dropWhile Char.isDigit) := by
      rw [Sql.lexNumber, ← hwhole, ← hrest, hmore, hfraction]
      exact if_pos hd
    rw [if_pos ⟨hlt, hdot.mpr (by rw [hmore]; rfl), hdigit⟩, hstop', htext, hchars]
    refine follows_ok (whole ++ '.' :: fraction) ?_ ?_
    · rw [hcs, hmore, hfraction, List.append_assoc, List.cons_append,
        List.takeWhile_append_dropWhile]
    · rw [size_append, size_append, size_cons, ← Nat.add_assoc, ← Nat.add_assoc]
      rfl
  · have hno : ¬(size pre + size whole + 1 < (bytes (pre ++ cs)).length ∧
        (bytes (pre ++ cs))[size pre + size whole]? = some (ascii '.') ∧
        ((bytes (pre ++ cs))[size pre + size whole + 1]?).any isDigitByte) := by
      rintro ⟨-, hhead, hdigit⟩
      obtain ⟨more, hmore⟩ : ∃ more, rest = '.' :: more := by
        have hfirst := hdot.mp hhead
        cases hr : rest with
        | nil => rw [hr] at hfirst; cases hfirst
        | cons c more =>
          rw [hr] at hfirst
          obtain rfl := Option.some.inj hfirst
          exact ⟨more, rfl⟩
      have hinput : pre ++ (whole ++ ['.']) ++ more = pre ++ cs := by simp [hcs, hmore]
      have hsize : size (pre ++ (whole ++ ['.'])) = size pre + size whole + 1 := by
        rw [size_append, size_append, ← Nat.add_assoc]
        rfl
      rw [← hinput, ← hsize, getElem?_bytes, head_bytes_any agree_digit] at hdigit
      cases more with
      | nil => cases hdigit
      | cons d more => exact hfrac ⟨d, more, hmore, hdigit⟩
    have hchars : Sql.lexNumber F cs =
        if decimal whole < 2 ^ 63 then .ok (.int (Int64.ofNat (decimal whole)), rest)
        else .error (.message ("integer literal out of range: " ++ String.ofList whole)) := by
      rw [Sql.lexNumber, ← hwhole, ← hrest]
      split
      · next _ d more => exact if_neg fun hd => hfrac ⟨d, more, rfl, hd⟩
      · rfl
    rw [if_neg hno, hchars, hcs]
    exact follows_int pre whole rest

/-! ### Symbols -/

/-- A symbol is decided by its first byte and the byte after it. -/
theorem lexSymbol_eq {c : Char} {x : UInt8} (hx : (String.utf8EncodeChar c).head? = some x)
    (cs : List Char) : lexSymbol x (bytes cs).head? =
      match Sql.lexSymbol c cs.head? with
      | some r => some (.ok (r.1, r.2 + 1))
      | none => if c = '!' then some (.error (.message "expected '=' after '!'")) else none := by
  have hbyte : ∀ d : Char, d.toNat < 0x80 → (x = ascii d ↔ c = d) := by
    intro d hd
    rw [← head_utf8_eq hd, hx, Option.some.injEq]
  rw [lexSymbol]
  simp only [hbyte ',' (by decide), hbyte '[' (by decide), hbyte ']' (by decide),
    hbyte '(' (by decide), hbyte ')' (by decide), hbyte '*' (by decide), hbyte ';' (by decide),
    hbyte '-' (by decide), hbyte '=' (by decide), hbyte '!' (by decide), hbyte '<' (by decide),
    hbyte '>' (by decide), head_bytes_eq (show '='.toNat < 0x80 by decide),
    head_bytes_eq (show '>'.toNat < 0x80 by decide)]
  by_cases h1 : c = ','
  · rw [h1]; rfl
  by_cases h2 : c = '['
  · rw [h2]; rfl
  by_cases h3 : c = ']'
  · rw [h3]; rfl
  by_cases h4 : c = '('
  · rw [h4]; rfl
  by_cases h5 : c = ')'
  · rw [h5]; rfl
  by_cases h6 : c = '*'
  · rw [h6]; rfl
  by_cases h7 : c = ';'
  · rw [h7]; rfl
  by_cases h8 : c = '-'
  · rw [h8]; rfl
  by_cases h9 : c = '='
  · rw [h9]; rfl
  by_cases h10 : c = '!'
  · subst h10
    by_cases he : cs.head? = some '='
    · rw [he]; rfl
    · simp [Sql.lexSymbol, he]
  by_cases h11 : c = '<'
  · subst h11
    by_cases he : cs.head? = some '='
    · rw [he]; rfl
    · by_cases hg : cs.head? = some '>'
      · rw [hg]; rfl
      · simp [Sql.lexSymbol, he, hg]
  by_cases h12 : c = '>'
  · subst h12
    by_cases he : cs.head? = some '='
    · rw [he]; rfl
    · simp [Sql.lexSymbol, he]
  have hnone : Sql.lexSymbol c cs.head? = none := by
    unfold Sql.lexSymbol
    split <;> first | contradiction | rfl
  rw [hnone]
  simp only [if_neg h1, if_neg h2, if_neg h3, if_neg h4, if_neg h5, if_neg h6, if_neg h7, if_neg h8,
    if_neg h9, if_neg h10, if_neg h11, if_neg h12]

theorem lexSymbol_takes {c : Char} {next : Option Char} {r : Token × ℕ}
    (h : Sql.lexSymbol c next = some r) :
    c.toNat < 0x80 ∧ (r.2 = 0 ∨ r.2 = 1 ∧ ∃ d, next = some d ∧ d.toNat < 0x80) := by
  unfold Sql.lexSymbol at h
  split at h
  all_goals try split at h
  all_goals try split at h
  all_goals
    cases h
  all_goals first
    | exact ⟨by decide, Or.inl rfl⟩
    | exact ⟨by decide, Or.inr ⟨rfl, _, ‹_›, by decide⟩⟩

theorem lexSymbol_none {x : UInt8} (h : 0x80 ≤ x.toNat) (next : Option UInt8) :
    lexSymbol x next = none := by
  have hbyte : ∀ d : Char, d.toNat < 0x80 → ¬x = ascii d := by
    intro d hd heq
    rw [eq_ascii_iff hd] at heq
    omega
  simp only [lexSymbol, if_neg (hbyte ',' (by decide)), if_neg (hbyte '[' (by decide)),
    if_neg (hbyte ']' (by decide)), if_neg (hbyte '(' (by decide)), if_neg (hbyte ')' (by decide)),
    if_neg (hbyte '*' (by decide)), if_neg (hbyte ';' (by decide)), if_neg (hbyte '-' (by decide)),
    if_neg (hbyte '=' (by decide)), if_neg (hbyte '!' (by decide)), if_neg (hbyte '<' (by decide)),
    if_neg (hbyte '>' (by decide))]

/-- A string literal, a number, a word or a character that starts no token. -/
theorem follows_lexWord (pre : List Char) (c : Char) (cs : List Char) (hbang : c ≠ '!') {x : UInt8}
    (hx : (String.utf8EncodeChar c).head? = some x) :
    Follows pre (c :: cs) ((lexWord F c cs).map fun r => (some r.1, r.2))
      (if x = ascii '\'' then do
        let rest ← sliceFrom (pre ++ c :: cs) (size pre)
        let r ← lexString rest
        return r.map fun r => (some (.str (String.ofList r.1)), size pre + r.2)
      else if isDigitByte x then do
        let r ← lexNumber F (pre ++ c :: cs) (size pre)
        return r.map fun r => (some r.1, r.2)
      else if isAlphaByte x || x = ascii '_' then do
        let stop := scan isWordByte (bytes (pre ++ c :: cs)) (bytes (pre ++ c :: cs)).length (size pre)
        let text ← Text.slice (pre ++ c :: cs) (size pre) stop
        return .ok (some (.ident (String.ofList (text.map Char.toLower))), stop)
      else do
        let rest ← sliceFrom (pre ++ c :: cs) (size pre)
        let c ← rest.head?
        return .error (.message ("unexpected character: " ++ F.debugChar c))) := by
  have hmem : x ∈ String.utf8EncodeChar c := List.mem_of_mem_head? hx
  have hfrom : sliceFrom (pre ++ c :: cs) (size pre) = some (c :: cs) := sliceFrom_append _ _
  have hquote : x = ascii '\'' ↔ c = '\'' := by
    rw [← head_utf8_eq (by decide), hx, Option.some.injEq]
  rw [lexWord, if_neg hbang]
  by_cases hc : c = '\''
  · subst hc
    rw [if_pos (hquote.mpr rfl), if_pos rfl, hfrom]
    have hstart : (bytes ('\'' :: cs))[0]? = some (ascii '\'') := rfl
    have hlen := length_le_size cs
    have hfuel : cs.length < size ('\'' :: cs) := by
      rw [size_cons]
      change cs.length < 1 + size cs
      omega
    have hloop := follows_lexStringLoop ('\'' :: cs) ['\''] cs [] rfl hfuel
    change Follows ['\''] cs _ (lexStringLoop ('\'' :: cs) (size ('\'' :: cs)) 1 []) at hloop
    simp only [Option.bind_eq_bind, Option.bind_some, lexString, if_pos hstart]
    cases hstring : Sql.lexString cs with
    | none =>
      rw [hstring] at hloop
      rw [hloop.1 _ rfl]
      exact follows_error rfl
    | some r =>
      rw [hstring] at hloop
      obtain ⟨mid, hcs, ho⟩ := hloop.2 _ _ rfl
      rw [ho]
      refine follows_ok ('\'' :: mid) (by rw [hcs]; rfl) ?_
      have hsize : size (pre ++ '\'' :: mid) = size pre + size (['\''] ++ mid) := size_append _ _
      rw [hsize]
      rfl
  rw [if_neg (fun h => hc (hquote.mp h)), if_neg hc, agree_digit c x hmem]
  by_cases hdigit : c.isDigit = true
  · rw [if_pos hdigit, if_pos hdigit]
    have hnumber := (follows_lexNumber F pre (c :: cs)).map some
    cases hn : lexNumber F (pre ++ c :: cs) (size pre) with
    | none =>
      rw [hn] at hnumber
      exact hnumber
    | some r =>
      rw [hn] at hnumber
      exact hnumber
  rw [if_neg hdigit, if_neg hdigit, agree_start c x hmem]
  by_cases hstart : isWordStart c = true
  · rw [if_pos hstart, if_pos hstart]
    obtain ⟨hstop, hslice⟩ := scan_slice agree_word pre (c :: cs)
    simp only [hstop, hslice, Option.bind_eq_bind, Option.bind_some]
    exact follows_ok _ (List.takeWhile_append_dropWhile).symm (by rw [size_append]; rfl)
  · rw [if_neg hstart, if_neg hstart, hfrom]
    exact follows_error rfl

/-- A round on bytes is a step on characters. -/
theorem follows_lexAt (pre : List Char) (c : Char) (cs : List Char) :
    Follows pre (c :: cs) (lexStep F c cs) (lexAt F (pre ++ c :: cs) (size pre)) := by
  obtain ⟨x, xs, hx⟩ := List.exists_cons_of_ne_nil (String.utf8EncodeChar_ne_nil (c := c))
  have hmem : x ∈ String.utf8EncodeChar c := hx ▸ List.mem_cons_self
  have hhead : (String.utf8EncodeChar c).head? = some x := by rw [hx]; rfl
  have hget : (bytes (pre ++ c :: cs))[size pre]? = some x := by
    rw [getElem?_bytes, bytes_cons, hx]
    rfl
  have hbyte : ∀ d : Char, d.toNat < 0x80 → (x = ascii d ↔ c = d) := by
    intro d hd
    rw [← head_utf8_eq hd, hhead, Option.some.injEq]
  have hone : c.toNat < 0x80 → size [c] = 1 := by
    intro hc
    rw [size, bytes, List.flatMap_singleton, utf8_ascii hc]
    rfl
  have hnext : c.toNat < 0x80 → (bytes (pre ++ c :: cs))[size pre + 1]? = (bytes cs).head? := by
    intro hc
    rw [← hone hc, ← size_append, List.append_cons, getElem?_bytes]
  rw [lexAt, lexStep, hget, Option.bind_eq_bind, Option.bind_some, agree_blank c x hmem]
  by_cases hblank : isBlank c = true
  · have hc : c.toNat < 0x80 := by
      simp only [isBlank, Bool.or_eq_true, beq_iff_eq] at hblank
      rcases hblank with ((rfl | rfl) | rfl) | rfl <;> decide
    rw [if_pos hblank, if_pos hblank]
    refine follows_ok [c] rfl ?_
    rw [size_append, hone hc]
    rfl
  rw [if_neg hblank, if_neg hblank]
  by_cases hcomment : c = '-' ∧ cs.head? = some '-'
  · obtain ⟨rfl, hdash⟩ := hcomment
    have hnext' := hnext (by decide)
    rw [if_pos ⟨rfl, hdash⟩, if_pos ⟨(hbyte '-' (by decide)).mpr rfl, by
      rw [hnext', head_bytes_eq (by decide)]; exact hdash⟩]
    obtain ⟨hstop, -⟩ := scan_slice agree_line pre ('-' :: cs)
    rw [List.takeWhile_cons_of_pos (by decide)] at hstop
    refine follows_ok ('-' :: cs.takeWhile (· != '\n')) ?_ ?_
    · rw [List.cons_append, List.takeWhile_append_dropWhile]
    · rw [size_append, ← hstop]
      rfl
  have hcomment' : ¬(x = ascii '-' ∧ (bytes (pre ++ c :: cs))[size pre + 1]? = some (ascii '-')) := by
    rintro ⟨hdash, hsecond⟩
    have hc := (hbyte '-' (by decide)).mp hdash
    rw [hnext (by rw [hc]; decide), head_bytes_eq (by decide)] at hsecond
    exact hcomment ⟨hc, hsecond⟩
  rw [if_neg hcomment, if_neg hcomment']
  by_cases hc : c.toNat < 0x80
  · rw [hnext hc, lexSymbol_eq hhead cs]
    cases hsymbol : Sql.lexSymbol c cs.head? with
    | some r =>
      obtain ⟨-, htakes⟩ := lexSymbol_takes hsymbol
      have hok : ∀ k, r.2 = k → size (pre ++ (c :: cs).take (k + 1)) = size pre + (k + 1) := by
        rintro k rfl
        rcases htakes with htakes | ⟨htakes, d, hd, hd'⟩
        · rw [htakes, size_append]
          exact congrArg _ (hone hc)
        · obtain ⟨cs, rfl⟩ : ∃ rest, cs = d :: rest := List.head?_eq_some_iff.mp hd
          rw [htakes, size_append]
          have htwo : size [c, d] = 2 := by
            rw [size, bytes, List.flatMap_cons, List.flatMap_singleton, utf8_ascii hc,
              utf8_ascii hd']
            rfl
          exact congrArg _ htwo
      refine follows_ok ((c :: cs).take (r.2 + 1)) ?_ ?_
      · rw [List.take_succ_cons, List.cons_append, List.take_append_drop]
      · rw [hok r.2 rfl]
        rfl
    | none =>
      by_cases hbang : c = '!'
      · subst hbang
        exact follows_error rfl
      · simp only [if_neg hbang]
        exact follows_lexWord F pre c cs hbang hhead
  · have hbang : c ≠ '!' := by
      rintro rfl
      exact hc (by decide)
    have hsymbol : Sql.lexSymbol c cs.head? = none := by
      cases hsymbol : Sql.lexSymbol c cs.head? with
      | none => rfl
      | some r => exact absurd (lexSymbol_takes hsymbol).1 hc
    rw [lexSymbol_none (utf8_not_ascii (Nat.not_lt.mp hc) x hmem), hsymbol]
    exact follows_lexWord F pre c cs hbang hhead

/-! ## All rounds -/

variable {F} in
/-- A step on characters takes at least one. -/
theorem mid_ne_nil {c : Char} {cs mid rest : List Char} {o : Option Token}
    (hstep : lexStep F c cs = .ok (o, rest)) (hcs : c :: cs = mid ++ rest) : mid ≠ [] := by
  rintro rfl
  have hlen := ((lexStep_spec F c cs).2 o rest hstep).2
  rw [List.nil_append] at hcs
  rw [← hcs, List.length_cons] at hlen
  omega

theorem tokenizeLoop_eq (pre cs : List Char) (tokens : List Token) {fuel : ℕ}
    (hfuel : size cs < fuel) :
    tokenizeLoop F (pre ++ cs) fuel (size pre) tokens =
      some ((Sql.tokenize F cs).map (tokens ++ ·)) := by
  induction fuel generalizing pre cs tokens with
  | zero => omega
  | succ fuel ih =>
    cases cs with
    | nil =>
      have hend : ¬size pre < (bytes (pre ++ [])).length := by
        rw [List.append_nil]
        exact lt_irrefl _
      rw [tokenizeLoop, if_neg hend]
      change _ = some (Except.ok (tokens ++ []))
      rw [List.append_nil]
    | cons c cs =>
      have hlt : size pre < (bytes (pre ++ c :: cs)).length := by
        rw [← size, size_append]
        exact Nat.lt_add_of_pos_right (size_pos (List.cons_ne_nil c cs))
      obtain ⟨herr, hok⟩ := follows_lexAt F pre c cs
      rw [tokenizeLoop, if_pos hlt, tokenize_cons]
      cases hstep : lexStep F c cs with
      | error e =>
        rw [herr e hstep]
        rfl
      | ok r =>
        obtain ⟨mid, hcs, ho⟩ := hok r.1 r.2 hstep
        have hmid := size_pos (mid_ne_nil hstep hcs)
        have hsize : size (c :: cs) = size mid + size r.2 := by rw [hcs, size_append]
        have htail := ih (pre ++ mid) r.2 (tokens ++ r.1.toList) (by omega)
        rw [List.append_assoc, ← hcs] at htail
        rw [ho]
        simp only [Option.bind_eq_bind, Option.bind_some, htail]
        change _ = some (Except.map (tokens ++ ·)
          (Sql.tokenize F r.2 >>= fun tokens => pure (r.1.toList ++ tokens)))
        cases Sql.tokenize F r.2 with
        | error e => rfl
        | ok rest =>
          change some (Except.ok (tokens ++ r.1.toList ++ rest)) =
            some (.ok (tokens ++ (r.1.toList ++ rest)))
          rw [List.append_assoc]

/-- Every index and every slice is in range, every round takes a byte, and the tokens are those of
the text. -/
theorem tokenize_eq (input : String) :
    tokenize F input = some (Sql.tokenize F input.toList) := by
  have hloop := tokenizeLoop_eq F [] input.toList [] (Nat.lt_succ_self _)
  rw [List.nil_append] at hloop
  rw [tokenize]
  refine hloop.trans ?_
  cases Sql.tokenize F input.toList <;> rfl

end Checked

end Ciphra.Sql
