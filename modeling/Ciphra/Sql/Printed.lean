import Ciphra.Sql.Parsed

/-!
# Printed predicates

The text `Display` writes for a predicate is read back as that predicate. The printer puts
parentheses around every `AND` and `OR` and around the operand of every `NOT`, so the text of a
predicate is an operand of the innermost level of the grammar whatever stands around it.

`Spells` relates a text to its tokens where a blank, a closing parenthesis or nothing follows, which
ends a word, a number and a string alike.
-/

namespace Ciphra.Sql

open Parsing

variable (F : Formats)

/-! ## Texts and their tokens -/

/-- Nothing, a blank or a closing parenthesis follows. -/
def Stops (rest : List Char) : Prop := ∀ c ∈ rest.head?, c = ' ' ∨ c = ')'

/-- A text that is read as the given tokens. -/
def Spells (text : List Char) (ts : List Token) : Prop :=
  ∀ rest, Stops rest → tokenize F (text ++ rest) = (tokenize F rest).map (ts ++ ·)

variable {F}

theorem stops_blank (rest : List Char) : Stops (' ' :: rest) := by
  intro c hc
  exact Or.inl (Option.some.inj hc).symm

theorem stops_paren (rest : List Char) : Stops (')' :: rest) := by
  intro c hc
  exact Or.inr (Option.some.inj hc).symm

theorem Stops.head_ne {rest : List Char} (h : Stops rest) {c : Char} (hc : c ≠ ' ' ∧ c ≠ ')') :
    rest.head? ≠ some c := by
  intro hhead
  rcases h c hhead with h | h
  · exact hc.1 h
  · exact hc.2 h

/-- What follows a text ends the longest run of characters that satisfy `p`. -/
theorem Stops.takeWhile_append {p : Char → Bool} {text rest : List Char}
    (htext : ∀ c ∈ text, p c = true) (hp : p ' ' = false ∧ p ')' = false) (h : Stops rest) :
    (text ++ rest).takeWhile p = text ∧ (text ++ rest).dropWhile p = rest := by
  have hrest : rest.takeWhile p = [] ∧ rest.dropWhile p = rest := by
    cases rest with
    | nil => exact ⟨rfl, rfl⟩
    | cons c rest =>
      have hc : p c = false := by
        rcases h c rfl with rfl | rfl
        · exact hp.1
        · exact hp.2
      exact ⟨List.takeWhile_cons_of_neg (by simp [hc]), List.dropWhile_cons_of_neg (by simp [hc])⟩
  rw [List.takeWhile_append_of_pos htext, List.dropWhile_append_of_pos htext, hrest.1, hrest.2]
  exact ⟨List.append_nil text, rfl⟩

/-- The first token of a text. -/
theorem tokenize_step {c : Char} {cs rest : List Char} {t : Token}
    (h : lexStep F c cs = .ok (some t, rest)) :
    tokenize F (c :: cs) = (tokenize F rest).map (t :: ·) := by
  rw [tokenize_cons, h]
  change (tokenize F rest >>= fun tokens => pure ([t] ++ tokens)) = _
  cases tokenize F rest with
  | error e => rfl
  | ok tokens => rfl

theorem tokenize_blank (cs : List Char) : tokenize F (' ' :: cs) = tokenize F cs := by
  rw [tokenize_cons]
  change (tokenize F cs >>= fun tokens => pure ([] ++ tokens)) = _
  cases tokenize F cs with
  | error e => rfl
  | ok tokens => rfl

theorem tokenize_lparen (cs : List Char) :
    tokenize F ('(' :: cs) = (tokenize F cs).map (.lparen :: ·) :=
  tokenize_step rfl

theorem tokenize_rparen (cs : List Char) :
    tokenize F (')' :: cs) = (tokenize F cs).map (.rparen :: ·) :=
  tokenize_step rfl

theorem map_map_append (r : Except ParseError (List Token)) (ts us : List Token) :
    (r.map (us ++ ·)).map (ts ++ ·) = r.map ((ts ++ us) ++ ·) := by
  cases r with
  | error e => rfl
  | ok l => exact congrArg Except.ok (List.append_assoc ts us l).symm

/-- A blank between two texts. -/
theorem Spells.blank {text text' : List Char} {ts us : List Token} (h : Spells F text ts)
    (h' : Spells F text' us) : Spells F (text ++ ' ' :: text') (ts ++ us) := by
  intro rest hrest
  rw [List.append_assoc, List.cons_append, h _ (stops_blank _), tokenize_blank, h' rest hrest,
    map_map_append]

/-- A text in parentheses. -/
theorem Spells.paren {text : List Char} {ts : List Token} (h : Spells F text ts) :
    Spells F ('(' :: (text ++ [')'])) (.lparen :: (ts ++ [.rparen])) := by
  intro rest _
  rw [List.cons_append, List.append_assoc, List.singleton_append, tokenize_lparen,
    h _ (stops_paren rest), tokenize_rparen]
  cases tokenize F rest with
  | error e => rfl
  | ok l =>
    change Except.ok (Token.lparen :: (ts ++ Token.rparen :: l)) = _
    exact congrArg Except.ok (by simp)

/-! ## Words, numbers and strings -/

/-- A character that starts no symbol. -/
theorem lexSymbol_eq_none {c : Char} (h : isWordChar c = true ∨ c = '\'') (o : Option Char) :
    lexSymbol c o = none := by
  unfold lexSymbol
  split <;> first
    | rfl
    | exact absurd h (by decide)

theorem lexStep_of_word {c : Char} (h : isWordChar c = true ∨ c = '\'') (cs : List Char) :
    lexStep F c cs = (lexWord F c cs).map fun r => (some r.1, r.2) := by
  have hblank : isBlank c = false := by
    by_contra hb
    rw [Bool.not_eq_false, isBlank, Bool.or_eq_true, Bool.or_eq_true, Bool.or_eq_true, beq_iff_eq,
      beq_iff_eq, beq_iff_eq, beq_iff_eq] at hb
    rcases hb with ((rfl | rfl) | rfl) | rfl <;> exact absurd h (by decide)
  have hminus : ¬(c = '-' ∧ cs.head? = some '-') := by
    rintro ⟨rfl, -⟩
    exact absurd h (by decide)
  rw [lexStep, hblank, if_neg Bool.false_ne_true, if_neg hminus, lexSymbol_eq_none h]

theorem lexStep_of_symbol {c : Char} {cs : List Char} {t : Token} {k : ℕ}
    (hblank : isBlank c = false) (hcomment : ¬(c = '-' ∧ cs.head? = some '-'))
    (h : lexSymbol c cs.head? = some (t, k)) : lexStep F c cs = .ok (some t, cs.drop k) := by
  rw [lexStep, hblank, if_neg Bool.false_ne_true, if_neg hcomment, h]

/-- A word in any case is read as its lowercase form. -/
theorem spells_word {c : Char} {cs : List Char} (hc : isWordStart c = true)
    (hcs : ∀ d ∈ cs, isWordChar d = true) :
    Spells F (c :: cs) [.ident (String.ofList ((c :: cs).map Char.toLower))] := by
  intro rest hrest
  have hall : ∀ d ∈ c :: cs, isWordChar d = true := by
    intro d hd
    rcases List.mem_cons.mp hd with rfl | hd
    · exact isWordChar_of_start hc
    · exact hcs d hd
  obtain ⟨htake, hdrop⟩ := hrest.takeWhile_append hall ⟨by decide, by decide⟩
  have hbang : c ≠ '!' := by
    rintro rfl
    exact absurd hc (by decide)
  have hquote : c ≠ '\'' := by
    rintro rfl
    exact absurd hc (by decide)
  have hdigit : ¬c.isDigit = true := by
    rw [isWordStart_iff] at hc
    rw [isDigit_iff]
    omega
  refine tokenize_step ?_
  rw [lexStep_of_word (Or.inl (isWordChar_of_start hc)), lexWord, if_neg hbang, if_neg hquote,
    if_neg hdigit, if_pos hc]
  change Except.ok (some (Token.ident (String.ofList (((c :: cs ++ rest).takeWhile
    isWordChar).map Char.toLower))), (c :: cs ++ rest).dropWhile isWordChar) = _
  rw [htake, hdrop]

/-- A name is read as itself. -/
theorem spells_name {s : String} (h : IsWord s) : Spells F s.toList [.ident s] := by
  obtain ⟨hident, c, hc, hstart⟩ := h
  obtain ⟨cs, hs⟩ : ∃ cs, s.toList = c :: cs := by
    cases hs : s.toList with
    | nil =>
      rw [hs] at hc
      cases hc
    | cons d cs =>
      rw [hs] at hc
      obtain rfl := Option.some.inj hc
      exact ⟨cs, rfl⟩
  have hlower : (c :: cs).map Char.toLower = c :: cs := by
    rw [← hs]
    exact (List.map_congr_left fun d hd => toLower_of_isIdentChar (hident d hd)).trans
      (List.map_id _)
  have hword := @spells_word F c cs hstart fun d hd =>
    isWordChar_of_isIdentChar (hident d (hs ▸ List.mem_cons_of_mem c hd))
  rw [hlower, ← hs, String.ofList_toList] at hword
  exact hword

theorem decimal_repr (m : ℕ) : decimal m.repr.toList = m := by
  rw [Nat.toList_repr]
  exact Nat.ofDigitChars_ten_toDigits

/-- A number without a sign. -/
theorem spells_nat {m : ℕ} (hm : m < 2 ^ 63) :
    Spells F m.repr.toList [.int (Int64.ofNat m)] := by
  intro rest hrest
  have hdigits : ∀ c ∈ m.repr.toList, c.isDigit = true := by
    intro c hc
    rw [Nat.toList_repr] at hc
    exact Nat.isDigit_of_mem_toDigits (by decide) (by decide) hc
  obtain ⟨htake, hdrop⟩ := hrest.takeWhile_append hdigits ⟨by decide, by decide⟩
  obtain ⟨c, cs, hm'⟩ : ∃ c cs, m.repr.toList = c :: cs := by
    rw [Nat.toList_repr]
    exact List.exists_cons_of_ne_nil Nat.toDigits_ne_nil
  have hc : c.isDigit = true := hdigits c (hm' ▸ List.mem_cons_self)
  have hcode := (isDigit_iff c).mp hc
  have hword : isWordChar c = true := by
    rw [isWordChar_iff]
    omega
  have hbang : c ≠ '!' := by
    rintro rfl
    exact absurd hc (by decide)
  have hquote : c ≠ '\'' := by
    rintro rfl
    exact absurd hc (by decide)
  have hnumber : lexNumber F (m.repr.toList ++ rest) = .ok (.int (Int64.ofNat m), rest) := by
    rw [lexNumber, htake, hdrop]
    simp only [decimal_repr, if_pos hm]
    split
    · rename_i d more _
      exact absurd rfl (hrest.head_ne (c := '.') ⟨by decide, by decide⟩)
    · rfl
  rw [hm', List.cons_append] at hnumber
  rw [hm', List.cons_append]
  refine tokenize_step ?_
  rw [lexStep_of_word (Or.inl hword), lexWord, if_neg hbang, if_neg hquote, if_pos hc, hnumber]
  rfl

/-- Doubling the quotes of a text. -/
def doubled (cs : List Char) : List Char :=
  cs.flatMap fun c => if c = '\'' then ['\'', '\''] else [c]

/-- A quoted text is read up to its closing quote. -/
theorem lexString_doubled (cs : List Char) {rest : List Char} (h : rest.head? ≠ some '\'') :
    lexString (doubled cs ++ '\'' :: rest) = some (cs, rest) := by
  induction cs with
  | nil =>
    change lexString ('\'' :: rest) = _
    rw [lexString.eq_def]
    simp only [if_pos]
    split
    · exact absurd rfl h
    · rfl
  | cons c cs ih =>
    by_cases hc : c = '\''
    · subst hc
      change lexString ('\'' :: '\'' :: (doubled cs ++ '\'' :: rest)) = _
      rw [lexString.eq_def]
      simp only [if_pos]
      rw [ih]
      rfl
    · have hcons : doubled (c :: cs) = c :: doubled cs := by
        rw [doubled, List.flatMap_cons, if_neg hc]
        rfl
      rw [hcons, List.cons_append, lexString.eq_def]
      simp only [if_neg hc]
      rw [ih]
      rfl

theorem spells_text (s : String) : Spells F (displayText s).toList [.str s] := by
  intro rest hrest
  have htext : (displayText s).toList = '\'' :: (doubled s.toList ++ ['\'']) := by
    simp only [displayText, String.toList_append, String.toList_ofList]
    rfl
  rw [htext, List.cons_append, List.append_assoc, List.singleton_append]
  refine tokenize_step ?_
  rw [lexStep_of_word (Or.inr rfl), lexWord, if_neg (by decide), if_pos rfl,
    lexString_doubled _ (hrest.head_ne ⟨by decide, by decide⟩)]
  change Except.ok (some (Token.str (String.ofList s.toList)), rest) = _
  rw [String.ofList_toList]

/-! ## Predicates -/

def opToken : CmpOp → Token
  | .eq => .eq
  | .ne => .ne
  | .lt => .lt
  | .gt => .gt
  | .le => .le
  | .ge => .ge

theorem spells_op (op : CmpOp) : Spells F (displayOp op).toList [opToken op] := by
  intro rest hrest
  have heq : rest.head? ≠ some '=' := hrest.head_ne ⟨by decide, by decide⟩
  have hgt : rest.head? ≠ some '>' := hrest.head_ne ⟨by decide, by decide⟩
  cases op with
  | eq => exact tokenize_step rfl
  | ne => exact tokenize_step rfl
  | le => exact tokenize_step rfl
  | ge => exact tokenize_step rfl
  | lt =>
    have hsymbol : lexSymbol '<' rest.head? = some (.lt, 0) := by
      change (if rest.head? = some '=' then _ else if rest.head? = some '>' then _ else _) = _
      rw [if_neg heq, if_neg hgt]
    exact tokenize_step (lexStep_of_symbol rfl (fun h => absurd h.1 (by decide)) hsymbol)
  | gt =>
    have hsymbol : lexSymbol '>' rest.head? = some (.gt, 0) := by
      change (if rest.head? = some '=' then _ else _) = _
      rw [if_neg heq]
    exact tokenize_step (lexStep_of_symbol rfl (fun h => absurd h.1 (by decide)) hsymbol)

/-- The literals whose texts are read back. -/
def Plain : Literal → Prop
  | .real _ | .vector _ => False
  | _ => True

def literalTokens : Literal → List Token
  | .int n => if n.toInt < 0 then [.minus, .int (-n)] else [.int n]
  | .text s => [.str s]
  | _ => [.ident "null"]

/-- The tokens of a printed predicate. -/
def exprTokens : Expr → List Token
  | .compare column op value => .ident column :: opToken op :: literalTokens value
  | .isNull column negated =>
    .ident column :: .ident "is" :: if negated then [.ident "not", .ident "null"] else [.ident "null"]
  | .not inner => .ident "not" :: .lparen :: (exprTokens inner ++ [.rparen])
  | .and a b => .lparen :: (exprTokens a ++ .ident "and" :: exprTokens b ++ [.rparen])
  | .or a b => .lparen :: (exprTokens a ++ .ident "or" :: exprTokens b ++ [.rparen])

/-- A keyword as the printer writes it. -/
theorem spells_keyword (upper lower : String) (hlower : String.ofList (upper.toList.map Char.toLower)
      = lower) (hword : ∃ c cs, upper.toList = c :: cs ∧ isWordStart c = true ∧
      cs.all isWordChar = true) : Spells F upper.toList [.ident lower] := by
  obtain ⟨c, cs, hcs, hstart, hall⟩ := hword
  rw [← hlower, hcs]
  exact spells_word hstart (List.all_eq_true.mp hall)

theorem spells_null : Spells F "NULL".toList [.ident "null"] :=
  spells_keyword "NULL" "null" rfl ⟨_, _, rfl, rfl, rfl⟩

theorem spells_int {n : Int64} (h : -(2 ^ 63) < n.toInt) :
    Spells F (displayLiteral F (.int n)).toList (literalTokens (.int n)) := by
  have hlt := n.toInt_lt
  by_cases hn : n.toInt < 0
  · have habs : n.toInt = -((-n.toInt).toNat : ℤ) := by omega
    have hneg : Int64.ofNat (-n.toInt).toNat = -n := by
      apply Int64.toInt_inj.mp
      rw [Int64.toInt_ofNat_of_lt (by omega), Int64.toInt_neg, Int.bmod_eq_of_le (by omega) (by omega)]
      omega
    have htext : (displayLiteral F (.int n)).toList = '-' :: (-n.toInt).toNat.repr.toList := by
      change n.toInt.repr.toList = _
      rw [Int.repr_eq_if, if_neg (by omega), String.toList_append]
      rfl
    have hhead : ∀ rest, ((-n.toInt).toNat.repr.toList ++ rest).head? ≠ some '-' := by
      intro rest hrest
      obtain ⟨c, cs, hcs⟩ := List.exists_cons_of_ne_nil (Nat.toDigits_ne_nil (b := 10)
        (n := (-n.toInt).toNat))
      rw [Nat.toList_repr, hcs] at hrest
      obtain rfl := Option.some.inj hrest
      exact absurd (Nat.isDigit_of_mem_toDigits (by decide) (by decide)
        (hcs ▸ List.mem_cons_self)) (by decide : ¬('-').isDigit = true)
    intro rest hrest
    rw [htext, List.cons_append, tokenize_step (lexStep_of_symbol (t := .minus) (k := 0) rfl
      (fun hc => hhead rest hc.2) rfl), List.drop_zero, spells_nat (by omega) rest hrest, hneg,
      literalTokens, if_pos hn]
    cases tokenize F rest <;> rfl
  · have hnat : Int64.ofNat n.toInt.toNat = n := by
      apply Int64.toInt_inj.mp
      rw [Int64.toInt_ofNat_of_lt (by omega)]
      omega
    have htext : (displayLiteral F (.int n)).toList = n.toInt.toNat.repr.toList := by
      change n.toInt.repr.toList = _
      rw [Int.repr_eq_if, if_pos (by omega)]
    have hspells := spells_nat (F := F) (m := n.toInt.toNat) (by omega)
    rw [htext, literalTokens, if_neg hn]
    rwa [hnat] at hspells

theorem spells_literal {l : Literal} (h : LiteralRead F l) (hplain : Plain l) :
    Spells F (displayLiteral F l).toList (literalTokens l) := by
  cases l with
  | null => exact spells_null
  | int n => exact spells_int h
  | text s => exact spells_text s
  | real x => exact hplain.elim
  | vector v => exact hplain.elim

/-- The text of a predicate. -/
theorem spells_expr {e : Expr} (h : ExprRead F e) (hplain : ∀ l ∈ e.literals, Plain l) :
    Spells F (displayExpr F e).toList (exprTokens e) := by
  induction e with
  | compare column op value =>
    have htext : (displayExpr F (.compare column op value)).toList =
        (column.toList ++ ' ' :: (displayOp op).toList) ++ ' ' ::
          (displayLiteral F value).toList := by
      simp [displayExpr, String.toList_append]
    rw [htext]
    exact ((spells_name h.1.1).blank (spells_op op)).blank
      (spells_literal h.2 (hplain value List.mem_cons_self))
  | isNull column negated =>
    have his : Spells F "IS".toList [.ident "is"] :=
      spells_keyword "IS" "is" rfl ⟨_, _, rfl, rfl, rfl⟩
    have hnot : Spells F "NOT".toList [.ident "not"] :=
      spells_keyword "NOT" "not" rfl ⟨_, _, rfl, rfl, rfl⟩
    cases negated with
    | false =>
      have htext : (displayExpr F (.isNull column false)).toList =
          (column.toList ++ ' ' :: "IS".toList) ++ ' ' :: "NULL".toList := by
        simp [displayExpr, String.toList_append]
      rw [htext]
      exact ((spells_name h.1).blank his).blank spells_null
    | true =>
      have htext : (displayExpr F (.isNull column true)).toList =
          ((column.toList ++ ' ' :: "IS".toList) ++ ' ' :: "NOT".toList) ++ ' ' ::
            "NULL".toList := by
        simp [displayExpr, String.toList_append]
      rw [htext]
      exact (((spells_name h.1).blank his).blank hnot).blank spells_null
  | not inner ih =>
    have htext : (displayExpr F (.not inner)).toList =
        "NOT".toList ++ ' ' :: '(' :: ((displayExpr F inner).toList ++ [')']) := by
      simp [displayExpr, String.toList_append]
    rw [htext]
    exact (spells_keyword "NOT" "not" rfl ⟨_, _, rfl, rfl, rfl⟩).blank (ih h hplain).paren
  | and a b iha ihb =>
    have htext : (displayExpr F (.and a b)).toList =
        '(' :: (((displayExpr F a).toList ++ ' ' :: "AND".toList) ++ ' ' ::
          (displayExpr F b).toList ++ [')']) := by
      simp [displayExpr, String.toList_append]
    have hand : Spells F "AND".toList [.ident "and"] :=
      spells_keyword "AND" "and" rfl ⟨_, _, rfl, rfl, rfl⟩
    have ha := iha h.1 fun l hl => hplain l (List.mem_append_left _ hl)
    have hb := ihb h.2 fun l hl => hplain l (List.mem_append_right _ hl)
    have hboth := ((ha.blank hand).blank hb).paren
    rw [htext, exprTokens]
    rwa [List.append_assoc (exprTokens a), List.singleton_append] at hboth
  | or a b iha ihb =>
    have htext : (displayExpr F (.or a b)).toList =
        '(' :: (((displayExpr F a).toList ++ ' ' :: "OR".toList) ++ ' ' ::
          (displayExpr F b).toList ++ [')']) := by
      simp [displayExpr, String.toList_append]
    have hor : Spells F "OR".toList [.ident "or"] :=
      spells_keyword "OR" "or" rfl ⟨_, _, rfl, rfl, rfl⟩
    have ha := iha h.1 fun l hl => hplain l (List.mem_append_left _ hl)
    have hb := ihb h.2 fun l hl => hplain l (List.mem_append_right _ hl)
    have hboth := ((ha.blank hor).blank hb).paren
    rw [htext, exprTokens]
    rwa [List.append_assoc (exprTokens a), List.singleton_append] at hboth

/-! ## Reading the tokens back -/

section Reading

variable {α : Type} {G : Grammar α}

theorem run_operators_stop {kw : String} {join : α → α → α} {operand : TokenParser α}
    {ts rest : List Token} {a : α} (h : operand.run ts = .ok (a, rest))
    (hrest : rest.head? ≠ some (.ident kw)) :
    (operators kw join operand).run ts = .ok (a, rest) := by
  rw [operators, run_bind_ok h]
  refine run_loop_stop ?_
  rcases run_eat (ε := ParseError) (Token.ident kw) rest with ⟨more, rfl, -⟩ | ⟨-, hrun⟩
  · exact absurd rfl hrest
  · exact hrun

theorem run_operators_once {kw : String} {join : α → α → α} {operand : TokenParser α}
    {ts mid rest : List Token} {a b : α} (h : operand.run ts = .ok (a, .ident kw :: mid))
    (h' : operand.run mid = .ok (b, rest)) (hrest : rest.head? ≠ some (.ident kw)) :
    (operators kw join operand).run ts = .ok (join a b, rest) := by
  rw [operators, run_bind_ok h]
  refine run_loop_once (run_eat_self _ mid) ?_ ?_ (List.cons_ne_nil _ _)
  · rw [run_bind_ok h']
    rfl
  · rcases run_eat (ε := ParseError) (Token.ident kw) rest with ⟨more, rfl, -⟩ | ⟨-, hrun⟩
    · exact absurd rfl hrest
    · exact hrun

/-- A parenthesis ends a whole expression, and `NOT` does not stand before one. -/
theorem run_notExpr_paren {n k : ℕ} {ts rest : List Token} {a : α}
    (h : (orExpr G (primaryExpr F G n) n).run ts = .ok (a, .rparen :: rest)) :
    (notExpr G (primaryExpr F G (n + 1)) (k + 1)).run (.lparen :: ts) = .ok (a, rest) := by
  have hnot : (eatKeyword "not").run (Token.lparen :: ts) = .ok (false, .lparen :: ts) :=
    run_eat_cons_ne (fun h => by cases h) ts
  have hparen : (eat Token.lparen : TokenParser Bool).run (Token.lparen :: ts) = .ok (true, ts) :=
    run_eat_self _ _
  rw [notExpr, run_bind_ok hnot]
  change (primaryExpr F G (n + 1)).run _ = _
  rw [primaryExpr, run_bind_ok hparen]
  change (orExpr G (primaryExpr F G n) n >>= fun inner => expect F .rparen >>= fun _ =>
    pure inner).run ts = _
  have hclose : (expect F .rparen).run (Token.rparen :: rest) = .ok ((), rest) := by
    rw [expect, run_bind_ok (run_eat_self _ rest)]
    rfl
  rw [run_bind_ok h, run_bind_ok hclose]
  rfl

/-- An operand in parentheses. -/
theorem run_orExpr_stop {primary : TokenParser α} {n : ℕ} {ts rest : List Token} {a : α}
    (h : (notExpr G primary n).run ts = .ok (a, rest)) (hand : rest.head? ≠ some (.ident "and"))
    (hor : rest.head? ≠ some (.ident "or")) :
    (orExpr G primary n).run ts = .ok (a, rest) :=
  run_operators_stop (run_operators_stop h hand) hor

end Reading

theorem run_literal {l : Literal} (hplain : Plain l) (rest : List Token) :
    (literal F).run (literalTokens l ++ rest) = .ok (l, rest) := by
  cases l with
  | null => rfl
  | text s => rfl
  | real x => exact hplain.elim
  | vector v => exact hplain.elim
  | int n =>
    by_cases hn : n.toInt < 0
    · rw [literalTokens, if_pos hn]
      change Except.ok (Literal.int (- -n), rest) = _
      rw [Int64.neg_neg]
    · rw [literalTokens, if_neg hn]
      rfl

/-- A leaf is read at every level: its first token is neither `NOT` nor a parenthesis. -/
theorem run_notExpr_leaf {n k : ℕ} {column : String} (h : column ≠ "not") (ts : List Token) :
    (notExpr (whereGrammar F) (primaryExpr F (whereGrammar F) (n + 1)) (k + 1)).run
      (.ident column :: ts) = (whereLeaf F).run (.ident column :: ts) := by
  have hnot : (eatKeyword "not").run (Token.ident column :: ts) = .ok (false, .ident column :: ts) :=
    run_eat_cons_ne (fun h' => h (Token.ident.inj h')) ts
  have hparen : (eat Token.lparen : TokenParser Bool).run (Token.ident column :: ts) =
      .ok (false, .ident column :: ts) :=
    run_eat_cons_ne (fun h => by cases h) ts
  rw [notExpr, run_bind_ok hnot]
  change (primaryExpr F (whereGrammar F) (n + 1)).run _ = _
  rw [primaryExpr, run_bind_ok hparen]
  rfl

theorem run_whereLeaf_compare (column : String) (op : CmpOp) {value : Literal}
    (hplain : Plain value) (rest : List Token) :
    (whereLeaf F).run (.ident column :: opToken op :: (literalTokens value ++ rest)) =
      .ok (.compare column op value, rest) := by
  have hcolumn : (identifier F "a column name").run
      (.ident column :: opToken op :: (literalTokens value ++ rest)) =
        .ok (column, opToken op :: (literalTokens value ++ rest)) := rfl
  have his : (eatKeyword "is").run (opToken op :: (literalTokens value ++ rest)) =
      .ok (false, opToken op :: (literalTokens value ++ rest)) :=
    run_eat_cons_ne (by cases op <;> exact fun h => by cases h) _
  have hop : (comparison F "").run (opToken op :: (literalTokens value ++ rest)) =
      .ok (op, literalTokens value ++ rest) := by
    cases op <;> rfl
  rw [whereLeaf, run_bind_ok hcolumn, run_bind_ok his]
  change (comparison F "" >>= fun op => literal F >>= fun value =>
    pure (Expr.compare column op value)).run _ = _
  rw [run_bind_ok hop, run_bind_ok (run_literal hplain rest)]
  rfl

/-- The tokens of a predicate are read back at the innermost level. -/
theorem run_notExpr {e : Expr} (h : ExprRead F e) (hplain : ∀ l ∈ e.literals, Plain l) (n k : ℕ)
    (hn : (exprTokens e).length < n) (hk : (exprTokens e).length < k) (rest : List Token) :
    (notExpr (whereGrammar F) (primaryExpr F (whereGrammar F) n) k).run (exprTokens e ++ rest) =
      .ok (e, rest) := by
  induction e generalizing n k rest with
  | compare column op value =>
    obtain ⟨n, rfl⟩ : ∃ m, n = m + 1 := ⟨n - 1, by omega⟩
    obtain ⟨k, rfl⟩ : ∃ m, k = m + 1 := ⟨k - 1, by omega⟩
    exact (run_notExpr_leaf h.1.2 _).trans
      (run_whereLeaf_compare column op (hplain value List.mem_cons_self) rest)
  | isNull column negated =>
    obtain ⟨n, rfl⟩ : ∃ m, n = m + 1 := ⟨n - 1, by omega⟩
    obtain ⟨k, rfl⟩ : ∃ m, k = m + 1 := ⟨k - 1, by omega⟩
    refine (run_notExpr_leaf h.2 _).trans ?_
    cases negated <;> rfl
  | not inner ih =>
    simp only [exprTokens, List.length_cons, List.length_append] at hn hk
    obtain ⟨n, rfl⟩ : ∃ m, n = m + 1 := ⟨n - 1, by omega⟩
    obtain ⟨k, rfl⟩ : ∃ m, k = m + 2 := ⟨k - 2, by omega⟩
    have hinner := ih h hplain n n (by omega) (by omega) (.rparen :: rest)
    have hparen := run_notExpr_paren (k := k) (run_orExpr_stop hinner (fun h => by cases h)
      (fun h => by cases h))
    have hnot : (eatKeyword "not").run (exprTokens (.not inner) ++ rest) =
        .ok (true, .lparen :: (exprTokens inner ++ .rparen :: rest)) := by
      rw [exprTokens, List.cons_append, List.cons_append, List.append_assoc]
      exact run_eat_self _ _
    rw [notExpr, run_bind_ok hnot]
    change (notExpr (whereGrammar F) (primaryExpr F (whereGrammar F) (n + 1)) (k + 1) >>= fun inner =>
      pure (Expr.not inner)).run _ = _
    rw [run_bind_ok hparen]
    rfl
  | and a b iha ihb =>
    simp only [exprTokens, List.length_cons, List.length_append] at hn hk
    obtain ⟨n, rfl⟩ : ∃ m, n = m + 1 := ⟨n - 1, by omega⟩
    obtain ⟨k, rfl⟩ : ∃ m, k = m + 1 := ⟨k - 1, by omega⟩
    have ha := iha h.1 (fun l hl => hplain l (List.mem_append_left _ hl)) n n (by omega) (by omega)
      (.ident "and" :: (exprTokens b ++ .rparen :: rest))
    have hb := ihb h.2 (fun l hl => hplain l (List.mem_append_right _ hl)) n n (by omega) (by omega)
      (.rparen :: rest)
    have htokens : exprTokens (.and a b) ++ rest = .lparen :: (exprTokens a ++
        .ident "and" :: (exprTokens b ++ .rparen :: rest)) := by
      simp [exprTokens]
    rw [htokens]
    refine run_notExpr_paren ?_
    exact run_operators_stop (run_operators_once ha hb fun h => by cases h) fun h => by cases h
  | or a b iha ihb =>
    simp only [exprTokens, List.length_cons, List.length_append] at hn hk
    obtain ⟨n, rfl⟩ : ∃ m, n = m + 1 := ⟨n - 1, by omega⟩
    obtain ⟨k, rfl⟩ : ∃ m, k = m + 1 := ⟨k - 1, by omega⟩
    have ha := iha h.1 (fun l hl => hplain l (List.mem_append_left _ hl)) n n (by omega) (by omega)
      (.ident "or" :: (exprTokens b ++ .rparen :: rest))
    have hb := ihb h.2 (fun l hl => hplain l (List.mem_append_right _ hl)) n n (by omega) (by omega)
      (.rparen :: rest)
    have htokens : exprTokens (.or a b) ++ rest = .lparen :: (exprTokens a ++
        .ident "or" :: (exprTokens b ++ .rparen :: rest)) := by
      simp [exprTokens]
    rw [htokens]
    refine run_notExpr_paren ?_
    refine run_operators_once (run_operators_stop ha fun h => ?_)
      (run_operators_stop hb fun h => by cases h) fun h => by cases h
    exact absurd (Token.ident.inj (Option.some.inj h)) (by decide)

theorem run_expr {e : Expr} (h : ExprRead F e) (hplain : ∀ l ∈ e.literals, Plain l) :
    (expr F).run (exprTokens e) = .ok (e, []) := by
  have hnot := run_notExpr h hplain ((exprTokens e).length + 1) ((exprTokens e).length + 1)
    (Nat.lt_succ_self _) (Nat.lt_succ_self _) []
  rw [List.append_nil] at hnot
  rw [expr, exprOf, run_get_bind]
  exact run_orExpr_stop hnot (fun h => by cases h) fun h => by cases h

/-- The tokens of `DELETE FROM t WHERE …`. -/
theorem run_delete {e : Expr} (h : ExprRead F e) (hplain : ∀ l ∈ e.literals, Plain l) (n : ℕ) :
    (statement F (n + 1)).run
      (.ident "delete" :: .ident "from" :: .ident "t" :: .ident "where" :: exprTokens e) =
        .ok (.delete "t" (some e), []) := by
  have hkeyword : ∀ (expected w : String) (ts : List Token),
      (keyword F expected).run (.ident w :: ts) = .ok (w, ts) := fun _ _ _ => rfl
  have hfrom : (expectKeyword F "from").run (.ident "from" :: .ident "t" :: .ident "where" ::
      exprTokens e) = .ok ((), .ident "t" :: .ident "where" :: exprTokens e) := rfl
  have hwhere : (optionalWhere F).run (.ident "where" :: exprTokens e) = .ok (some e, []) := by
    rw [optionalWhere, eatKeyword, run_bind_ok (run_eat_self _ _)]
    change (expr F >>= fun e => pure (some e)).run _ = _
    rw [run_bind_ok (run_expr h hplain)]
    rfl
  rw [statement, run_bind_ok (hkeyword _ _ _)]
  change (delete F).run _ = _
  rw [delete, run_bind_ok hfrom, identifier, run_bind_ok (hkeyword _ _ _), run_bind_ok hwhere]
  rfl

theorem run_skipSemis {ts : List Token} (h : ts.head? ≠ some .semi) :
    skipSemis.run ts = .ok ((), ts) := by
  refine run_loop_stop ?_
  rcases run_eat (ε := ParseError) Token.semi ts with ⟨rest, rfl, -⟩ | ⟨-, hrun⟩
  · exact absurd rfl h
  · exact hrun

theorem tokenize_delete {e : Expr} (h : ExprRead F e) (hplain : ∀ l ∈ e.literals, Plain l) :
    tokenize F ("DELETE FROM t WHERE " ++ displayExpr F e).toList =
      .ok (.ident "delete" :: .ident "from" :: .ident "t" :: .ident "where" :: exprTokens e) := by
  have htext : ("DELETE FROM t WHERE " ++ displayExpr F e).toList =
      ((("DELETE".toList ++ ' ' :: "FROM".toList) ++ ' ' :: "t".toList) ++ ' ' :: "WHERE".toList) ++
        ' ' :: (displayExpr F e).toList := by
    simp [String.toList_append]
  have hspells := ((((spells_keyword "DELETE" "delete" rfl ⟨_, _, rfl, rfl, rfl⟩).blank
    (spells_keyword "FROM" "from" rfl ⟨_, _, rfl, rfl, rfl⟩)).blank
    (spells_keyword "t" "t" rfl ⟨_, _, rfl, rfl, rfl⟩)).blank
    (spells_keyword "WHERE" "where" rfl ⟨_, _, rfl, rfl, rfl⟩)).blank (spells_expr h hplain)
  have hall := hspells [] fun c hc => by cases hc
  rw [List.append_nil, tokenize_nil] at hall
  rw [htext, hall]
  exact congrArg Except.ok (List.append_nil _)

/-- A text that spells one statement. -/
theorem parseStatements_single {input : String} {t : Token} {ts : List Token} {s : Statement}
    (htokens : tokenize F input.toList = .ok (t :: ts)) (ht : t ≠ .semi)
    (hrun : ∀ n, (statement F (n + 1)).run (t :: ts) = .ok (s, [])) :
    parseStatements F input = .ok [s] := by
  have hhead : (t :: ts).head? ≠ some .semi := fun h => ht (Option.some.inj h)
  have hloop : ∀ n, (statementsLoop F (n + 2) []).run (t :: ts) = .ok ([s], []) := by
    intro n
    rw [statementsLoop, run_bind_ok (run_skipSemis hhead), run_get_bind,
      if_neg (List.cons_ne_nil _ _), run_bind_ok (hrun _), run_get_bind,
      if_neg (fun h => h.1 rfl), statementsLoop, run_bind_ok (run_skipSemis fun h => by cases h),
      run_get_bind, if_pos rfl]
    rfl
  rw [parseStatements, htokens]
  change ((statementsLoop F _ []).run _ >>= fun r => pure r.1) = _
  rw [List.length_cons, hloop]
  rfl

/-- A predicate the parser can return is read back from its text. -/
theorem parseStatements_delete {e : Expr} (h : ExprRead F e) (hplain : ∀ l ∈ e.literals, Plain l) :
    parseStatements F ("DELETE FROM t WHERE " ++ displayExpr F e) =
      .ok [.delete "t" (some e)] :=
  parseStatements_single (tokenize_delete h hplain) (fun h => by cases h) (run_delete h hplain)

/-- The `WHERE` predicate of a statement. -/
def whereOf : Statement → Option Expr
  | .select _ _ predicate _ _ _ _ => predicate
  | .update _ _ predicate => predicate
  | .delete _ predicate => predicate
  | .explain inner => whereOf inner
  | _ => none

theorem exprRead_whereOf {s : Statement} (h : StatementRead F s) {e : Expr}
    (he : whereOf s = some e) : ExprRead F e := by
  induction s with
  | select columns table predicate groupBy having orderBy limit => exact h.2.1 e he
  | update table assignments predicate => exact h.2.2 e he
  | delete table predicate => exact h.2 e he
  | explain inner ih => exact ih h he
  | _ => cases he

/-- Every predicate of a statement that was parsed, with literals `NULL`, `INT` and `TEXT`, is
written so that it parses back to itself. -/
theorem parse_printed_predicate {sql : String} {statements : List Statement}
    (h : parseStatements F sql = .ok statements) {s : Statement} (hs : s ∈ statements) {e : Expr}
    (he : whereOf s = some e) (hplain : ∀ l ∈ e.literals, Plain l) :
    parseStatements F ("DELETE FROM t WHERE " ++ displayExpr F e) = .ok [.delete "t" (some e)] :=
  parseStatements_delete (exprRead_whereOf (parseStatements_read F h hs) he) hplain

/-- `NOT` binds tighter than `AND`, and `AND` tighter than `OR`; negative numbers and quotes. -/
theorem parse_printed_nested :
    parseStatements integerFormats
      "SELECT * FROM a WHERE NOT b = -5 AND c IS NOT NULL OR d <> 'it''s --'" =
        .ok [.select .all "a" (some (.or (.and (.not (.compare "b" .eq (.int (-5))))
          (.isNull "c" true)) (.compare "d" .ne (.text "it's --")))) [] none none none] ∧
    parseStatements integerFormats
      ("DELETE FROM t WHERE " ++ displayExpr integerFormats
        (.or (.and (.not (.compare "b" .eq (.int (-5)))) (.isNull "c" true))
          (.compare "d" .ne (.text "it's --")))) =
        .ok [.delete "t" (some (.or (.and (.not (.compare "b" .eq (.int (-5))))
          (.isNull "c" true)) (.compare "d" .ne (.text "it's --"))))] := by
  have hsql : parseStatements integerFormats
      "SELECT * FROM a WHERE NOT b = -5 AND c IS NOT NULL OR d <> 'it''s --'" =
        .ok [.select .all "a" (some (.or (.and (.not (.compare "b" .eq (.int (-5))))
          (.isNull "c" true)) (.compare "d" .ne (.text "it's --")))) [] none none none] := by
    decide +kernel
  refine ⟨hsql, parse_printed_predicate hsql List.mem_cons_self rfl ?_⟩
  intro l hl
  rcases List.mem_append.mp hl with hl | hl
  · rw [List.mem_singleton.mp hl]
    exact trivial
  · rw [List.mem_singleton.mp hl]
    exact trivial

end Ciphra.Sql
