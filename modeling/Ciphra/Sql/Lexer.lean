import Ciphra.Sql.Ast

/-!
# The tokenizer

Every character outside a string literal and a comment that matters is ASCII, and the others are an
error, so the text is read as characters. `lexStep` reads one token, or skips a blank or a comment;
it uses up at least one character (`lexStep_spec`), and `tokenize` repeats it. That is all later
proofs use: `tokenize_cons` reads the first token off.

Reading a floating-point number and writing one, and the debug form of a text in a message, are the
standard library's; they are parameters (`Formats`).
-/

namespace Ciphra.Sql

/-- What the front end takes from the standard library. -/
structure Formats where
  /-- `text.parse::<f64>()` on digits, a dot and digits, which never fails. -/
  parseF64 : List Char → F64
  /-- `x as f32`. -/
  f32OfF64 : F64 → F32
  /-- `n as f32`. -/
  f32OfInt : Int64 → F32
  displayF64 : F64 → String
  displayF32 : F32 → String
  debugChar : Char → String
  debugStr : String → String

/-- Number formats for statements in which no real number occurs. -/
def integerFormats : Formats where
  parseF64 _ := ⟨0⟩
  f32OfF64 _ := ⟨0⟩
  f32OfInt _ := ⟨0⟩
  displayF64 _ := "0"
  displayF32 _ := "0"
  debugChar c := "'" ++ c.toString ++ "'"
  debugStr s := "\"" ++ s ++ "\""

inductive ParseError
  | message (text : String)
  /-- The bound on the recursion of the model is used up. -/
  | depth
  deriving DecidableEq, Repr

inductive Token
  /-- Identifier or keyword, lowercased. -/
  | ident (s : String)
  | int (n : Int64)
  | float (x : F64)
  | str (s : String)
  | comma
  | lbracket
  | rbracket
  | lparen
  | rparen
  | star
  | semi
  | minus
  | eq
  | ne
  | lt
  | gt
  | le
  | ge
  deriving DecidableEq, Repr

variable (F : Formats)

/-- A token in a message. -/
def Token.display : Token → String
  | .ident s => s
  | .int n => toString n.toInt
  | .float x => F.displayF64 x
  | .str s => "'" ++ s ++ "'"
  | .comma => ","
  | .lbracket => "["
  | .rbracket => "]"
  | .lparen => "("
  | .rparen => ")"
  | .star => "*"
  | .semi => ";"
  | .minus => "-"
  | .eq => "="
  | .ne => "!="
  | .lt => "<"
  | .gt => ">"
  | .le => "<="
  | .ge => ">="

/-! ## Characters -/

def isBlank (c : Char) : Bool := c == ' ' || c == '\t' || c == '\r' || c == '\n'

def isWordStart (c : Char) : Bool := c.isAlpha || c == '_'

def isWordChar (c : Char) : Bool := c.isAlphanum || c == '_'

/-- The value of a string of digits. -/
def decimal (digits : List Char) : ℕ := digits.foldl (fun n c => 10 * n + (c.toNat - 48)) 0

/-- The contents of a string literal after its opening quote, and what follows its closing one. -/
def lexString : List Char → Option (List Char × List Char)
  | [] => none
  | c :: cs =>
    if c = '\'' then
      match cs with
      | '\'' :: rest => (lexString rest).map fun r => ('\'' :: r.1, r.2)
      | _ => some ([], cs)
    else (lexString cs).map fun r => (c :: r.1, r.2)

/-- A number: digits, or digits, a dot and digits. -/
def lexNumber (cs : List Char) : Except ParseError (Token × List Char) :=
  let whole := cs.takeWhile Char.isDigit
  let rest := cs.dropWhile Char.isDigit
  let asInt : Except ParseError (Token × List Char) :=
    if decimal whole < 2 ^ 63 then .ok (.int (Int64.ofNat (decimal whole)), rest)
    else .error (.message ("integer literal out of range: " ++ String.ofList whole))
  match rest with
  | '.' :: d :: more =>
    if d.isDigit then
      let fraction := (d :: more).takeWhile Char.isDigit
      .ok (.float (F.parseF64 (whole ++ '.' :: fraction)), (d :: more).dropWhile Char.isDigit)
    else asInt
  | _ => asInt

/-- The token written by `c` and the character after it, and how many characters it takes beyond `c`. -/
def lexSymbol (c : Char) (next : Option Char) : Option (Token × ℕ) :=
  match c with
  | ',' => some (.comma, 0)
  | '[' => some (.lbracket, 0)
  | ']' => some (.rbracket, 0)
  | '(' => some (.lparen, 0)
  | ')' => some (.rparen, 0)
  | '*' => some (.star, 0)
  | ';' => some (.semi, 0)
  | '-' => some (.minus, 0)
  | '=' => some (.eq, 0)
  | '!' => if next = some '=' then some (.ne, 1) else none
  | '<' =>
    if next = some '=' then some (.le, 1)
    else if next = some '>' then some (.ne, 1)
    else some (.lt, 0)
  | '>' => if next = some '=' then some (.ge, 1) else some (.gt, 0)
  | _ => none

/-- A string literal, a number or a word. -/
def lexWord (c : Char) (cs : List Char) : Except ParseError (Token × List Char) :=
  if c = '!' then .error (.message "expected '=' after '!'")
  else if c = '\'' then
    match lexString cs with
    | some (s, rest) => .ok (.str (String.ofList s), rest)
    | none => .error (.message "unterminated string literal")
  else if c.isDigit then lexNumber F (c :: cs)
  else if isWordStart c then
    .ok (.ident (String.ofList (((c :: cs).takeWhile isWordChar).map Char.toLower)),
      (c :: cs).dropWhile isWordChar)
  else .error (.message ("unexpected character: " ++ F.debugChar c))

/-- The token at the front of a text that is not empty, if it starts with one, and the rest. -/
def lexStep (c : Char) (cs : List Char) : Except ParseError (Option Token × List Char) :=
  if isBlank c then .ok (none, cs)
  else if c = '-' ∧ cs.head? = some '-' then .ok (none, cs.dropWhile (· != '\n'))
  else
    match lexSymbol c cs.head? with
    | some (t, more) => .ok (some t, cs.drop more)
    | none => (lexWord F c cs).map fun r => (some r.1, r.2)

/-- The loop of `tokenize`, which goes round at most once for each character. -/
def tokenizeLoop : ℕ → List Char → Except ParseError (List Token)
  | _, [] => .ok []
  | 0, _ => .error .depth
  | n + 1, c :: cs => do
    let (token, rest) ← lexStep F c cs
    let tokens ← tokenizeLoop n rest
    pure (token.toList ++ tokens)

def tokenize (input : List Char) : Except ParseError (List Token) :=
  tokenizeLoop F input.length input

/-! ## The codes of characters -/

section Codes

theorem isUpper_iff (c : Char) : c.isUpper = true ↔ 65 ≤ c.toNat ∧ c.toNat ≤ 90 := by
  have h : c.isUpper = (decide (c.val ≥ 65 ∧ c.val ≤ 90)) := rfl
  rw [h, decide_eq_true_iff]
  rfl

theorem isLower_iff (c : Char) : c.isLower = true ↔ 97 ≤ c.toNat ∧ c.toNat ≤ 122 := by
  have h : c.isLower = (decide (c.val ≥ 97) && decide (c.val ≤ 122)) := rfl
  rw [h, Bool.and_eq_true, decide_eq_true_iff, decide_eq_true_iff]
  rfl

theorem isDigit_iff (c : Char) : c.isDigit = true ↔ 48 ≤ c.toNat ∧ c.toNat ≤ 57 := by
  have h : c.isDigit = (decide (c.val ≥ 48) && decide (c.val ≤ 57)) := rfl
  rw [h, Bool.and_eq_true, decide_eq_true_iff, decide_eq_true_iff]
  rfl

theorem toNat_toLower (c : Char) :
    c.toLower.toNat = if 65 ≤ c.toNat ∧ c.toNat ≤ 90 then c.toNat + 32 else c.toNat := by
  by_cases h : c.val ≥ 65 ∧ c.val ≤ 90
  · have h' : 65 ≤ c.toNat ∧ c.toNat ≤ 90 := h
    have hval : c.toLower.val = c.val + 32 := congrArg Char.val (dif_pos h)
    rw [if_pos h', Char.toNat, hval, UInt32.toNat_add]
    have : c.val.toNat ≤ 90 := h'.2
    change (c.val.toNat + 32) % 2 ^ 32 = c.val.toNat + 32
    omega
  · have hval : c.toLower = c := dif_neg h
    rw [hval]
    exact (if_neg h).symm

theorem isAlpha_iff (c : Char) : c.isAlpha = true ↔
    (65 ≤ c.toNat ∧ c.toNat ≤ 90) ∨ (97 ≤ c.toNat ∧ c.toNat ≤ 122) := by
  have h : c.isAlpha = (c.isUpper || c.isLower) := rfl
  rw [h, Bool.or_eq_true, isUpper_iff, isLower_iff]

theorem eq_underscore_iff (c : Char) : (c == '_') = true ↔ c.toNat = 95 := by
  rw [beq_iff_eq]
  constructor
  · rintro rfl
    rfl
  · intro h
    exact Char.toNat_inj.mp h

theorem isWordChar_iff (c : Char) : isWordChar c = true ↔
    (65 ≤ c.toNat ∧ c.toNat ≤ 90) ∨ (97 ≤ c.toNat ∧ c.toNat ≤ 122) ∨
      (48 ≤ c.toNat ∧ c.toNat ≤ 57) ∨ c.toNat = 95 := by
  have h : c.isAlphanum = (c.isAlpha || c.isDigit) := rfl
  rw [isWordChar, h, Bool.or_eq_true, Bool.or_eq_true, isAlpha_iff, isDigit_iff, eq_underscore_iff]
  tauto

theorem isWordStart_iff (c : Char) : isWordStart c = true ↔
    (65 ≤ c.toNat ∧ c.toNat ≤ 90) ∨ (97 ≤ c.toNat ∧ c.toNat ≤ 122) ∨ c.toNat = 95 := by
  rw [isWordStart, Bool.or_eq_true, isAlpha_iff, eq_underscore_iff]
  tauto

theorem isIdentChar_iff (c : Char) : isIdentChar c = true ↔
    (97 ≤ c.toNat ∧ c.toNat ≤ 122) ∨ (48 ≤ c.toNat ∧ c.toNat ≤ 57) ∨ c.toNat = 95 := by
  rw [isIdentChar, Bool.or_eq_true, Bool.or_eq_true, isLower_iff, isDigit_iff, eq_underscore_iff]
  tauto

theorem isWordChar_of_start {c : Char} (h : isWordStart c = true) : isWordChar c = true := by
  rw [isWordStart_iff] at h
  rw [isWordChar_iff]
  omega

theorem isIdentChar_toLower {c : Char} (h : isWordChar c = true) :
    isIdentChar c.toLower = true := by
  rw [isWordChar_iff] at h
  rw [isIdentChar_iff, toNat_toLower]
  split <;> omega

theorem isWordStart_toLower {c : Char} (h : isWordStart c = true) :
    isWordStart c.toLower = true := by
  rw [isWordStart_iff] at h
  rw [isWordStart_iff, toNat_toLower]
  split <;> omega

theorem toLower_of_isIdentChar {c : Char} (h : isIdentChar c = true) : c.toLower = c := by
  rw [isIdentChar_iff] at h
  apply Char.toNat_inj.mp
  rw [toNat_toLower, if_neg (by omega)]

theorem isWordChar_of_isIdentChar {c : Char} (h : isIdentChar c = true) : isWordChar c = true := by
  rw [isIdentChar_iff] at h
  rw [isWordChar_iff]
  omega

end Codes

/-! ## Tokens -/

/-- A name as the lexer produces it: lowercase letters, digits and underscores, and no digit first. -/
def IsWord (s : String) : Prop :=
  IsIdent s ∧ ∃ c ∈ s.toList.head?, isWordStart c = true

instance (s : String) : Decidable (IsWord s) :=
  inferInstanceAs (Decidable (IsIdent s ∧ ∃ c ∈ s.toList.head?, isWordStart c = true))

/-- A token as the lexer produces it. -/
def Token.Lexed : Token → Prop
  | .ident s => IsWord s
  | .int n => 0 ≤ n.toInt
  | .float x => ∃ text, x = F.parseF64 text
  | _ => True

/-- The front of a text was read as a token, and at most `n` characters are left, or it was refused
with a message. -/
def Lexes (n : ℕ) (r : Except ParseError (Token × List Char)) : Prop :=
  r ≠ .error .depth ∧ ∀ t rest, r = .ok (t, rest) → t.Lexed F ∧ rest.length ≤ n

variable {F}

theorem lexes_ok {n : ℕ} {t : Token} {rest : List Char} (ht : t.Lexed F) (h : rest.length ≤ n) :
    Lexes F n (.ok (t, rest)) := by
  refine ⟨fun he => (by cases he), fun u r hr => ?_⟩
  obtain ⟨rfl, rfl⟩ := Prod.mk.inj (Except.ok.inj hr)
  exact ⟨ht, h⟩

theorem lexes_error (n : ℕ) (text : String) : Lexes F n (.error (.message text)) :=
  ⟨fun he => (by cases he), fun _ _ hr => by cases hr⟩

variable (F)

theorem length_lexString {cs s rest : List Char} (h : lexString cs = some (s, rest)) :
    rest.length < cs.length := by
  fun_induction lexString cs generalizing s with
  | case1 => cases h
  | case2 more ih =>
    obtain ⟨r, hr, he⟩ := Option.map_eq_some_iff.mp h
    obtain ⟨rfl, rfl⟩ := Prod.mk.inj he
    have := ih (s := r.1) hr
    simp only [List.length_cons]
    omega
  | case3 cs hcs =>
    obtain ⟨rfl, rfl⟩ := Prod.mk.inj (Option.some.inj h)
    exact Nat.lt_succ_self _
  | case4 c cs hc ih =>
    obtain ⟨r, hr, he⟩ := Option.map_eq_some_iff.mp h
    obtain ⟨rfl, rfl⟩ := Prod.mk.inj he
    exact lt_trans (ih (s := r.1) hr) (Nat.lt_succ_self _)

theorem length_dropWhile_le {α : Type*} (p : α → Bool) (l : List α) :
    (l.dropWhile p).length ≤ l.length :=
  (List.dropWhile_suffix p).length_le

/-- A word or a number that starts with `c` takes at least `c`. -/
theorem length_dropWhile_cons {α : Type*} {p : α → Bool} {a : α} (h : p a = true) (l : List α) :
    ((a :: l).dropWhile p).length ≤ l.length := by
  rw [List.dropWhile_cons_of_pos h]
  exact length_dropWhile_le p l

theorem isWord_lexed {c : Char} {cs : List Char} (hc : isWordStart c = true) :
    IsWord (String.ofList (((c :: cs).takeWhile isWordChar).map Char.toLower)) := by
  have hcons := List.takeWhile_cons_of_pos (l := cs) (isWordChar_of_start hc)
  refine ⟨?_, c.toLower, ?_, isWordStart_toLower hc⟩
  · intro d hd
    rw [String.toList_ofList] at hd
    obtain ⟨e, he, rfl⟩ := List.mem_map.mp hd
    exact isIdentChar_toLower (List.all_eq_true.mp List.all_takeWhile e he)
  · rw [String.toList_ofList, hcons]
    rfl

theorem lexes_lexNumber {c : Char} (hc : c.isDigit = true) (cs : List Char) :
    Lexes F cs.length (lexNumber F (c :: cs)) := by
  have hdrop := length_dropWhile_cons hc cs
  have hint : ∀ n text, Lexes F cs.length
      (if n < 2 ^ 63 then .ok (.int (Int64.ofNat n), (c :: cs).dropWhile Char.isDigit)
        else .error (.message text)) := by
    intro n text
    by_cases hn : n < 2 ^ 63
    · rw [if_pos hn]
      refine lexes_ok ?_ hdrop
      change 0 ≤ (Int64.ofNat n).toInt
      rw [Int64.toInt_ofNat_of_lt hn]
      exact Int.natCast_nonneg n
    · rw [if_neg hn]
      exact lexes_error _ _
  rw [lexNumber]
  split
  · rename_i d more hrest
    simp only
    split
    · refine lexes_ok ⟨_, rfl⟩ ?_
      have := length_dropWhile_le Char.isDigit (d :: more)
      rw [hrest] at hdrop
      simp only [List.length_cons] at hdrop this
      omega
    · exact hint _ _
  · exact hint _ _

theorem lexes_lexWord (c : Char) (cs : List Char) : Lexes F cs.length (lexWord F c cs) := by
  unfold lexWord
  by_cases hbang : c = '!'
  · rw [if_pos hbang]
    exact lexes_error _ _
  rw [if_neg hbang]
  by_cases hquote : c = '\''
  · rw [if_pos hquote]
    cases hs : lexString cs with
    | none => exact lexes_error _ _
    | some r => exact lexes_ok trivial (length_lexString (s := r.1) hs).le
  rw [if_neg hquote]
  by_cases hdigit : c.isDigit = true
  · rw [if_pos hdigit]
    exact lexes_lexNumber F hdigit cs
  rw [if_neg hdigit]
  by_cases hword : isWordStart c = true
  · rw [if_pos hword]
    exact lexes_ok (isWord_lexed hword) (length_dropWhile_cons (isWordChar_of_start hword) cs)
  · rw [if_neg hword]
    exact lexes_error _ _

theorem lexed_lexSymbol {c : Char} {o : Option Char} {r : Token × ℕ} (h : lexSymbol c o = some r) :
    r.1.Lexed F := by
  unfold lexSymbol at h
  repeat' split at h
  all_goals cases h <;> exact trivial

/-- A step reads a token, a blank or a comment, and takes at least one character. -/
theorem lexStep_spec (c : Char) (cs : List Char) :
    lexStep F c cs ≠ .error .depth ∧ ∀ o rest, lexStep F c cs = .ok (o, rest) →
      (∀ t ∈ o, t.Lexed F) ∧ rest.length ≤ cs.length := by
  have hnone : ∀ rest : List Char, rest.length ≤ cs.length →
      (.ok (none, rest) : Except ParseError (Option Token × List Char)) ≠ .error .depth ∧
        ∀ o r, (.ok (none, rest) : Except ParseError (Option Token × List Char)) = .ok (o, r) →
          (∀ t ∈ o, t.Lexed F) ∧ r.length ≤ cs.length := by
    intro rest hrest
    refine ⟨fun he => (by cases he), fun o r hr => ?_⟩
    obtain ⟨rfl, rfl⟩ := Prod.mk.inj (Except.ok.inj hr)
    exact ⟨fun t ht => (by cases ht), hrest⟩
  unfold lexStep
  by_cases hblank : isBlank c = true
  · rw [if_pos hblank]
    exact hnone _ le_rfl
  rw [if_neg hblank]
  by_cases hcomment : c = '-' ∧ cs.head? = some '-'
  · rw [if_pos hcomment]
    exact hnone _ (length_dropWhile_le _ _)
  rw [if_neg hcomment]
  cases hsymbol : lexSymbol c cs.head? with
  | some r =>
    refine ⟨fun he => (by cases he), fun o rest h => ?_⟩
    obtain ⟨rfl, rfl⟩ := Prod.mk.inj (Except.ok.inj h)
    refine ⟨fun t ht => ?_, ?_⟩
    · obtain rfl := Option.some.inj ht
      exact lexed_lexSymbol F hsymbol
    · rw [List.length_drop]
      exact Nat.sub_le _ _
  | none =>
    obtain ⟨hne, hok⟩ := lexes_lexWord F c cs
    cases hword : lexWord F c cs with
    | error e =>
      rw [hword] at hne
      exact ⟨fun he => hne (congrArg _ (Except.error.inj he)), fun o rest h => by cases h⟩
    | ok r =>
      obtain ⟨hr, hlen⟩ := hok r.1 r.2 hword
      refine ⟨fun he => (by cases he), fun o rest h => ?_⟩
      obtain ⟨rfl, rfl⟩ := Prod.mk.inj (Except.ok.inj h)
      refine ⟨fun t ht => ?_, hlen⟩
      obtain rfl := Option.some.inj ht
      exact hr

/-- The bound on the rounds is never reached. -/
theorem tokenizeLoop_eq (n : ℕ) (cs : List Char) (h : cs.length ≤ n) :
    tokenizeLoop F n cs = tokenize F cs := by
  induction n using Nat.strong_induction_on generalizing cs with
  | _ n ih =>
    cases cs with
    | nil => cases n <;> rfl
    | cons c cs =>
      obtain ⟨n, rfl⟩ : ∃ m, n = m + 1 := ⟨n - 1, by simp only [List.length_cons] at h; omega⟩
      rw [tokenize, List.length_cons, tokenizeLoop, tokenizeLoop]
      cases hstep : lexStep F c cs with
      | error e => rfl
      | ok r =>
        have hlen := ((lexStep_spec F c cs).2 _ _ hstep).2
        simp only [List.length_cons] at h
        change (tokenizeLoop F n r.2 >>= fun tokens => pure (r.1.toList ++ tokens)) =
          tokenizeLoop F cs.length r.2 >>= fun tokens => pure (r.1.toList ++ tokens)
        rw [ih n (Nat.lt_succ_self _) r.2 (by omega)]
        rcases Nat.lt_or_ge cs.length (n + 1) with hlt | hge
        · rw [ih cs.length hlt r.2 hlen]
        · omega

/-- The tokens of a text: the first one, and those of the rest. -/
theorem tokenize_cons (c : Char) (cs : List Char) :
    tokenize F (c :: cs) = (do
      let (token, rest) ← lexStep F c cs
      let tokens ← tokenize F rest
      pure (token.toList ++ tokens)) := by
  rw [tokenize, List.length_cons, tokenizeLoop]
  cases hstep : lexStep F c cs with
  | error e => rfl
  | ok r =>
    have hlen := ((lexStep_spec F c cs).2 _ _ hstep).2
    change (tokenizeLoop F cs.length r.2 >>= fun tokens => pure (r.1.toList ++ tokens)) =
      tokenize F r.2 >>= fun tokens => pure (r.1.toList ++ tokens)
    rw [tokenizeLoop_eq F _ _ hlen]

@[simp]
theorem tokenize_nil : tokenize F [] = .ok [] := rfl

/-- Tokenizing does not run out of rounds, and its tokens are lexed ones. -/
theorem tokenize_spec (cs : List Char) :
    tokenize F cs ≠ .error .depth ∧ ∀ ts, tokenize F cs = .ok ts → ∀ t ∈ ts, t.Lexed F := by
  induction hn : cs.length using Nat.strong_induction_on generalizing cs with
  | _ n ih =>
    cases cs with
    | nil =>
      refine ⟨fun he => (by cases he), fun ts hts => ?_⟩
      obtain rfl := Except.ok.inj hts
      exact fun t ht => absurd ht List.not_mem_nil
    | cons c cs =>
      obtain ⟨hne, hok⟩ := lexStep_spec F c cs
      rw [tokenize_cons]
      cases hstep : lexStep F c cs with
      | error e =>
        rw [hstep] at hne
        exact ⟨fun he => hne (congrArg _ (Except.error.inj he)), fun ts hts => by cases hts⟩
      | ok r =>
        obtain ⟨hlexed, hlen⟩ := hok r.1 r.2 hstep
        obtain ⟨hne, hok⟩ := ih r.2.length (by rw [← hn, List.length_cons]; omega) r.2 rfl
        change (tokenize F r.2 >>= fun tokens => pure (r.1.toList ++ tokens)) ≠ _ ∧
          ∀ ts, (tokenize F r.2 >>= fun tokens => pure (r.1.toList ++ tokens)) = .ok ts → _
        cases hrest : tokenize F r.2 with
        | error e =>
          rw [hrest] at hne
          exact ⟨fun he => hne (congrArg _ (Except.error.inj he)), fun ts hts => by cases hts⟩
        | ok tokens =>
          refine ⟨fun he => (by cases he), fun ts hts => ?_⟩
          obtain rfl := Except.ok.inj hts
          intro t ht
          rcases List.mem_append.mp ht with ht | ht
          · exact hlexed t (Option.mem_toList.mp ht)
          · exact hok tokens hrest t ht

end Ciphra.Sql
