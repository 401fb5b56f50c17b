import Mathlib.Data.List.Basic
import Mathlib.Tactic

/-!
# Recursive descent over a list of tokens

A parser takes tokens off the front of a list, or fails. Its recursion is bounded, and `bound` is
the failure that stands for the bound being used up.

`Reads T bound n k Q p` says what a parser does on at most `n` tokens that satisfy `T`: it does not
run into the bound, and when it succeeds it has taken at least `k` tokens and its result satisfies
`Q`. There is one rule for each way parsers are put together; the recursion of a grammar is an
induction on `n`, since a parser calls itself only after a token is taken.
-/

namespace Ciphra.Parsing

variable {τ ε : Type} {α β : Type}

/-- Takes tokens off the front of a list. -/
abbrev Parser (τ ε α : Type) := StateT (List τ) (Except ε) α

theorem ok_ne_error {a : α} {e : ε} : (.ok a : Except ε α) ≠ .error e := by
  intro h
  cases h

/-! ## Running -/

theorem run_bind_ok {p : Parser τ ε α} {f : α → Parser τ ε β} {ts rest : List τ} {a : α}
    (h : p.run ts = .ok (a, rest)) : (p >>= f).run ts = (f a).run rest := by
  rw [StateT.run_bind, h]
  rfl

theorem run_bind_error {p : Parser τ ε α} {f : α → Parser τ ε β} {ts : List τ} {e : ε}
    (h : p.run ts = .error e) : (p >>= f).run ts = .error e := by
  rw [StateT.run_bind, h]
  rfl

@[simp]
theorem run_pure (a : α) (ts : List τ) :
    (pure a : Parser τ ε α).run ts = .ok (a, ts) := rfl

@[simp]
theorem run_throw (e : ε) (ts : List τ) :
    (throw e : Parser τ ε α).run ts = .error e := rfl

/-- Looking at the tokens that are left. -/
theorem run_get_bind (f : List τ → Parser τ ε α) (ts : List τ) :
    (get >>= f).run ts = (f ts).run ts := rfl

/-- `while cond { body }`, for at most `n` rounds. -/
def whileTrue (bound : ε) (cond : Parser τ ε Bool) (body : α → Parser τ ε α) :
    ℕ → α → Parser τ ε α
  | 0, _ => throw bound
  | n + 1, a => do
    if ← cond then
      let a ← body a
      whileTrue bound cond body n a
    else pure a

/-- `while cond { body }`, where `cond` takes a token each time it is true. -/
def loop (bound : ε) (cond : Parser τ ε Bool) (body : α → Parser τ ε α) (a : α) :
    Parser τ ε α := do
  let ts ← get
  whileTrue bound cond body (ts.length + 1) a

/-- `item (sep item)*`, where `sep` takes a token each time it is true. -/
def sepBy (bound : ε) (sep : Parser τ ε Bool) (item : Parser τ ε α) : Parser τ ε (List α) := do
  let first ← item
  loop bound sep (fun items => do
    let a ← item
    pure (items ++ [a])) [first]

section Loops

variable {bound : ε} {cond : Parser τ ε Bool} {body : α → Parser τ ε α}

theorem run_loop (a : α) (ts : List τ) :
    (loop bound cond body a).run ts =
      (whileTrue bound cond body (ts.length + 1) a).run ts := rfl

theorem run_loop_stop {a : α} {ts : List τ} (h : cond.run ts = .ok (false, ts)) :
    (loop bound cond body a).run ts = .ok (a, ts) := by
  rw [run_loop, whileTrue, run_bind_ok h]
  rfl

/-- A loop that goes round once. -/
theorem run_loop_once {a b : α} {ts rest rest' : List τ} (h : cond.run ts = .ok (true, rest))
    (hbody : (body a).run rest = .ok (b, rest')) (hstop : cond.run rest' = .ok (false, rest'))
    (hts : ts ≠ []) : (loop bound cond body a).run ts = .ok (b, rest') := by
  obtain ⟨n, hn⟩ : ∃ n, ts.length = n + 1 := by
    cases ts with
    | nil => exact absurd rfl hts
    | cons t ts => exact ⟨ts.length, rfl⟩
  rw [run_loop, hn, whileTrue, run_bind_ok h]
  change (body a >>= fun a => whileTrue bound cond body (n + 1) a).run rest = _
  rw [run_bind_ok hbody, whileTrue, run_bind_ok hstop]
  rfl

end Loops

section Tokens

variable [DecidableEq τ]

/-- Takes the next token if it is `t`. -/
def eat (t : τ) : Parser τ ε Bool := do
  match ← get with
  | t' :: rest =>
    if t' = t then
      set rest
      pure true
    else pure false
  | [] => pure false

@[simp]
theorem run_eat_self (t : τ) (ts : List τ) :
    (eat t : Parser τ ε Bool).run (t :: ts) = .ok (true, ts) := by
  unfold eat
  simp only [StateT.run_bind, StateT.run_get]
  change StateT.run (if t = t then _ else _) _ = _
  rw [if_pos rfl]
  rfl

theorem run_eat_cons_ne {t t' : τ} (h : t' ≠ t) (ts : List τ) :
    (eat t : Parser τ ε Bool).run (t' :: ts) = .ok (false, t' :: ts) := by
  unfold eat
  simp only [StateT.run_bind, StateT.run_get]
  change StateT.run (if t' = t then _ else _) _ = _
  rw [if_neg h]
  rfl

@[simp]
theorem run_eat_nil (t : τ) : (eat t : Parser τ ε Bool).run [] = .ok (false, []) := rfl

/-- What `eat` does. -/
theorem run_eat (t : τ) (ts : List τ) :
    (∃ rest, ts = t :: rest ∧ (eat t : Parser τ ε Bool).run ts = .ok (true, rest)) ∨
      (ts.head? ≠ some t ∧ (eat t : Parser τ ε Bool).run ts = .ok (false, ts)) := by
  cases ts with
  | nil => exact Or.inr ⟨by simp, rfl⟩
  | cons t' rest =>
    by_cases h : t' = t
    · subst h
      exact Or.inl ⟨rest, rfl, run_eat_self t' rest⟩
    · exact Or.inr ⟨by simpa using h, run_eat_cons_ne h rest⟩

end Tokens

/-! ## What a parser reads -/

section Reads

variable {T : τ → Prop} {bound : ε} {n m k l : ℕ} {Q : α → Prop} {R : β → Prop}

/-- On the tokens `ts`, `p` does not run into the bound, and on success it has taken at least `k` of
them, its result satisfies `Q`, and the tokens that are left satisfy `T`. -/
def ReadsAt (T : τ → Prop) (bound : ε) (k : ℕ) (Q : α → Prop) (p : Parser τ ε α) (ts : List τ) :
    Prop :=
  p.run ts ≠ .error bound ∧ ∀ a rest, p.run ts = .ok (a, rest) →
    Q a ∧ rest.length + k ≤ ts.length ∧ ∀ t ∈ rest, T t

/-- What `p` does on at most `n` tokens that satisfy `T`. -/
def Reads (T : τ → Prop) (bound : ε) (n k : ℕ) (Q : α → Prop) (p : Parser τ ε α) : Prop :=
  ∀ ts : List τ, ts.length ≤ n → (∀ t ∈ ts, T t) → ReadsAt T bound k Q p ts

theorem readsAt_of_ok {p : Parser τ ε α} {ts rest : List τ} {a : α} (h : p.run ts = .ok (a, rest))
    (hQ : Q a) (hlen : rest.length + k ≤ ts.length) (hrest : ∀ t ∈ rest, T t) :
    ReadsAt T bound k Q p ts := by
  refine ⟨by rw [h]; exact ok_ne_error, fun b r hrun => ?_⟩
  rw [h] at hrun
  obtain ⟨rfl, rfl⟩ := Prod.mk.inj (Except.ok.inj hrun)
  exact ⟨hQ, hlen, hrest⟩

theorem readsAt_of_error {p : Parser τ ε α} {ts : List τ} {e : ε} (h : p.run ts = .error e)
    (he : e ≠ bound) : ReadsAt T bound k Q p ts := by
  refine ⟨fun hrun => he (Except.error.inj (h.symm.trans hrun)), fun a rest hrun => ?_⟩
  rw [h] at hrun
  cases hrun

theorem ReadsAt.bind {p : Parser τ ε α} {f : α → Parser τ ε β} {ts : List τ}
    (h : ReadsAt T bound k Q p ts)
    (hf : ∀ a rest, Q a → rest.length + k ≤ ts.length → (∀ t ∈ rest, T t) →
      ReadsAt T bound l R (f a) rest) :
    ReadsAt T bound (k + l) R (p >>= f) ts := by
  obtain ⟨hne, hok⟩ := h
  cases hp : p.run ts with
  | error e =>
    exact readsAt_of_error (run_bind_error hp) fun he => hne (hp.trans (congrArg _ he))
  | ok r =>
    obtain ⟨hQ, hlen, hrest⟩ := hok r.1 r.2 hp
    obtain ⟨hne', hok'⟩ := hf r.1 r.2 hQ hlen hrest
    rw [ReadsAt, run_bind_ok hp]
    refine ⟨hne', fun b rest hrun => ?_⟩
    obtain ⟨hR, hlen', hrest'⟩ := hok' b rest hrun
    exact ⟨hR, by omega, hrest'⟩

theorem ReadsAt.mono {Q' : α → Prop} {p : Parser τ ε α} {ts : List τ}
    (h : ReadsAt T bound k Q p ts) (hl : l ≤ k) (hQ : ∀ a, Q a → Q' a) :
    ReadsAt T bound l Q' p ts := by
  refine ⟨h.1, fun a rest hrun => ?_⟩
  obtain ⟨hQa, hlen, hrest⟩ := h.2 a rest hrun
  exact ⟨hQ a hQa, by omega, hrest⟩

theorem Reads.mono {Q' : α → Prop} {p : Parser τ ε α} (h : Reads T bound n k Q p) (hm : m ≤ n)
    (hl : l ≤ k) (hQ : ∀ a, Q a → Q' a) : Reads T bound m l Q' p :=
  fun ts hts hT => (h ts (hts.trans hm) hT).mono hl hQ

theorem reads_pure {a : α} (h : Q a) : Reads T bound n 0 Q (pure a : Parser τ ε α) :=
  fun ts _ hT => readsAt_of_ok (run_pure a ts) h le_rfl hT

theorem reads_throw {e : ε} (h : e ≠ bound) : Reads T bound n k Q (throw e : Parser τ ε α) :=
  fun ts _ _ => readsAt_of_error (run_throw e ts) h

theorem Reads.bind {p : Parser τ ε α} {f : α → Parser τ ε β} (h : Reads T bound n k Q p)
    (hf : ∀ a, Q a → Reads T bound (n - k) l R (f a)) :
    Reads T bound n (k + l) R (p >>= f) := by
  intro ts hts hT
  refine (h ts hts hT).bind fun a rest ha hlen hrest => ?_
  exact hf a ha rest (by omega) hrest

/-- The usual form of `Reads.bind`: the rest is read with the same bound. -/
theorem Reads.seq {p : Parser τ ε α} {f : α → Parser τ ε β} (h : Reads T bound n k Q p)
    (hf : ∀ a, Q a → Reads T bound n 0 R (f a)) : Reads T bound n k R (p >>= f) :=
  h.bind fun a ha => (hf a ha).mono (Nat.sub_le _ _) le_rfl fun _ hb => hb

theorem Reads.map {p : Parser τ ε α} {f : α → β} (h : Reads T bound n k Q p)
    (hf : ∀ a, Q a → R (f a)) : Reads T bound n k R (f <$> p) := by
  rw [map_eq_pure_bind]
  exact h.seq fun a ha => reads_pure (hf a ha)

theorem Reads.ite {c : Prop} [Decidable c] {p q : Parser τ ε α}
    (hp : c → Reads T bound n k Q p) (hq : ¬c → Reads T bound n k Q q) :
    Reads T bound n k Q (if c then p else q) := by
  split
  · exact hp ‹_›
  · exact hq ‹_›

/-- `cond` takes a token when it is true, and none when it is false. -/
def Guards (T : τ → Prop) (cond : Parser τ ε Bool) : Prop :=
  ∀ ts : List τ, (∀ t ∈ ts, T t) →
    cond.run ts = .ok (false, ts) ∨
      ∃ rest, cond.run ts = .ok (true, rest) ∧ rest.length < ts.length ∧ ∀ t ∈ rest, T t

theorem guards_eat [DecidableEq τ] (t : τ) : Guards (ε := ε) T (eat t) := by
  intro ts hT
  rcases run_eat (ε := ε) t ts with ⟨rest, rfl, hrun⟩ | ⟨-, hrun⟩
  · exact Or.inr ⟨rest, hrun, Nat.lt_succ_self _, fun u hu => hT u (List.mem_cons_of_mem _ hu)⟩
  · exact Or.inl hrun

theorem Guards.ite {cond : Parser τ ε Bool} {p q : Parser τ ε α} (hc : Guards T cond)
    (hp : ∀ m < n, Reads T bound m k Q p) (hq : Reads T bound n k Q q) :
    Reads T bound n k Q (cond >>= fun b => if b = true then p else q) := by
  intro ts hts hT
  rcases hc ts hT with hrun | ⟨rest, hrun, hlen, hrest⟩
  · rw [ReadsAt, run_bind_ok hrun]
    exact hq ts hts hT
  · obtain ⟨hne, hok⟩ := hp rest.length (by omega) rest le_rfl hrest
    rw [ReadsAt, run_bind_ok hrun]
    refine ⟨hne, fun a r ha => ?_⟩
    obtain ⟨hQ, hlen', hr⟩ := hok a r ha
    exact ⟨hQ, by omega, hr⟩

theorem Guards.reads {cond : Parser τ ε Bool} (hc : Guards T cond) :
    Reads T bound n 0 (fun _ => True) cond := by
  intro ts _ hT
  rcases hc ts hT with hrun | ⟨rest, hrun, hlen, hrest⟩
  · exact readsAt_of_ok hrun trivial le_rfl hT
  · exact readsAt_of_ok hrun trivial hlen.le hrest

/-- A loop goes round at most once for each token. -/
theorem Guards.whileTrue {cond : Parser τ ε Bool} {body : α → Parser τ ε α}
    (hc : Guards T cond) (hbody : ∀ m < n, ∀ a, Q a → Reads T bound m 0 Q (body a))
    (fuel : ℕ) (hfuel : n < fuel) (a : α) (ha : Q a) :
    Reads T bound n 0 Q (whileTrue bound cond body fuel a) := by
  induction fuel generalizing n a with
  | zero => omega
  | succ fuel ih =>
    refine hc.ite (fun m hm => ?_) (reads_pure ha)
    exact (hbody m hm a ha).seq fun b hb =>
      ih (fun m' hm' => hbody m' (hm'.trans hm)) (by omega) b hb

theorem Guards.loop {cond : Parser τ ε Bool} {body : α → Parser τ ε α} (hc : Guards T cond)
    (hbody : ∀ m < n, ∀ a, Q a → Reads T bound m 0 Q (body a)) (a : α) (ha : Q a) :
    Reads T bound n 0 Q (loop bound cond body a) := by
  intro ts hts hT
  rw [ReadsAt, run_loop]
  exact hc.whileTrue (fun m hm => hbody m (lt_of_lt_of_le hm hts)) _ (Nat.lt_succ_self _) a ha ts
    le_rfl hT

theorem Guards.sepBy {sep : Parser τ ε Bool} {item : Parser τ ε α} (hc : Guards T sep)
    (hitem : Reads T bound n k Q item) :
    Reads T bound n k (fun items => ∀ a ∈ items, Q a) (sepBy bound sep item) := by
  refine hitem.seq fun first hfirst => ?_
  refine hc.loop (fun m hm items hitems => ?_) _ ?_
  · refine (hitem.mono hm.le (Nat.zero_le k) fun _ h => h).seq fun a ha => reads_pure ?_
    intro b hb
    rcases List.mem_append.mp hb with hb | hb
    · exact hitems b hb
    · rw [List.mem_singleton.mp hb]
      exact ha
  · intro b hb
    rw [List.mem_singleton.mp hb]
    exact hfirst

/-! ### Two parsers -/

/-- On tokens that satisfy `T`, `p'` does what `p` does, whose results satisfy `Q`. -/
def SameOn (T : τ → Prop) (Q : α → Prop) (p p' : Parser τ ε α) : Prop :=
  ∀ ts : List τ, (∀ t ∈ ts, T t) → p'.run ts = p.run ts ∧
    ∀ a rest, p.run ts = .ok (a, rest) → Q a ∧ ∀ t ∈ rest, T t

theorem Reads.sameOn {p : Parser τ ε α} (h : ∀ n, Reads T bound n k Q p) : SameOn T Q p p := by
  intro ts hT
  refine ⟨rfl, fun a rest hrun => ?_⟩
  obtain ⟨hQ, -, hrest⟩ := (h ts.length ts le_rfl hT).2 a rest hrun
  exact ⟨hQ, hrest⟩

theorem sameOn_pure {a : α} (h : Q a) :
    SameOn T Q (pure a : Parser τ ε α) (pure a) := by
  intro ts hT
  refine ⟨rfl, fun b rest hrun => ?_⟩
  obtain ⟨rfl, rfl⟩ := Prod.mk.inj (Except.ok.inj hrun)
  exact ⟨h, hT⟩

theorem sameOn_throw (e : ε) : SameOn T Q (throw e : Parser τ ε α) (throw e) :=
  fun _ _ => ⟨rfl, fun _ _ hrun => by cases hrun⟩

theorem SameOn.mono {Q' : α → Prop} {p p' : Parser τ ε α} (h : SameOn T Q p p')
    (hQ : ∀ a, Q a → Q' a) : SameOn T Q' p p' := by
  intro ts hT
  refine ⟨(h ts hT).1, fun a rest hrun => ?_⟩
  obtain ⟨hQa, hrest⟩ := (h ts hT).2 a rest hrun
  exact ⟨hQ a hQa, hrest⟩

theorem SameOn.bind {p p' : Parser τ ε α} {f f' : α → Parser τ ε β} (h : SameOn T Q p p')
    (hf : ∀ a, Q a → SameOn T R (f a) (f' a)) : SameOn T R (p >>= f) (p' >>= f') := by
  intro ts hT
  obtain ⟨heq, hok⟩ := h ts hT
  cases hp : p.run ts with
  | error e =>
    rw [run_bind_error hp, run_bind_error (heq.trans hp)]
    exact ⟨rfl, fun _ _ hrun => by cases hrun⟩
  | ok r =>
    obtain ⟨hQ, hrest⟩ := hok r.1 r.2 hp
    rw [run_bind_ok hp, run_bind_ok (heq.trans hp)]
    exact hf r.1 hQ r.2 hrest

theorem SameOn.ite {c : Prop} [Decidable c] {p p' q q' : Parser τ ε α}
    (hp : c → SameOn T Q p p') (hq : ¬c → SameOn T Q q q') :
    SameOn T Q (if c then p else q) (if c then p' else q') := by
  split
  · exact hp ‹_›
  · exact hq ‹_›

/-- Looking at the tokens that are left. -/
theorem sameOn_get {f f' : List τ → Parser τ ε α} (h : ∀ ts, SameOn T Q (f ts) (f' ts)) :
    SameOn T Q (get >>= f) (get >>= f') := by
  intro ts hT
  rw [run_get_bind, run_get_bind]
  exact h ts ts hT

theorem Guards.sameOn {cond : Parser τ ε Bool} (hc : Guards T cond) :
    SameOn T (fun _ => True) cond cond := by
  intro ts hT
  refine ⟨rfl, fun b rest hrun => ⟨trivial, ?_⟩⟩
  rcases hc ts hT with hfalse | ⟨rest', htrue, -, hrest⟩
  · obtain ⟨-, rfl⟩ := Prod.mk.inj (Except.ok.inj (hfalse.symm.trans hrun))
    exact hT
  · obtain ⟨-, rfl⟩ := Prod.mk.inj (Except.ok.inj (htrue.symm.trans hrun))
    exact hrest

theorem SameOn.loop {cond : Parser τ ε Bool} {body body' : α → Parser τ ε α}
    (hc : SameOn T (fun _ => True) cond cond) (hbody : ∀ a, Q a → SameOn T Q (body a) (body' a))
    {a : α} (ha : Q a) : SameOn T Q (loop bound cond body a) (loop bound cond body' a) := by
  have hrounds : ∀ fuel a, Q a →
      SameOn T Q (Parsing.whileTrue bound cond body fuel a)
        (Parsing.whileTrue bound cond body' fuel a) := by
    intro fuel
    induction fuel with
    | zero => exact fun a _ => sameOn_throw bound
    | succ fuel ih =>
      intro a ha
      refine hc.bind fun b _ => SameOn.ite (fun _ => ?_) fun _ => sameOn_pure ha
      exact (hbody a ha).bind ih
  exact sameOn_get fun ts => hrounds _ a ha

theorem SameOn.sepBy {sep : Parser τ ε Bool} {item item' : Parser τ ε α}
    (hc : SameOn T (fun _ => True) sep sep) (hitem : SameOn T Q item item') :
    SameOn T (fun _ => True) (sepBy bound sep item) (sepBy bound sep item') := by
  refine hitem.bind fun first _ => SameOn.loop hc (fun items _ => ?_) trivial
  exact hitem.bind fun a _ => sameOn_pure trivial

end Reads

end Ciphra.Parsing
