import Mathlib.Tactic

/-!
# Programs that read a store

A `Query` is a program that reads a key-value store, one request after the other: the value at a
key, or the entries under a key prefix. It may fail, and it may leave notes for its caller on the
way. As an inductive type it can be run against a store at once (`run`, `notes`) or request by
request, with other clients writing in between (`step`); `run_step` says that the two agree when
nothing is written in between.

Proofs about a query go through `run_bind`, `run_mapM` and the rules for postconditions
`Ensures.bind`, `Ensures.mapM`.
-/

namespace Ciphra

/-- Reading access to a store. -/
structure Reader (K V : Type) where
  get : K → Option V
  scan : K → List (K × V)

/-- A program that reads a store, fails with an `ε` and leaves notes in `ν`. -/
inductive Query (K V ε ν : Type) (α : Type) : Type
  | pure (a : α)
  | fail (e : ε)
  | get (key : K) (next : Option V → Query K V ε ν α)
  | scan (key : K) (next : List (K × V) → Query K V ε ν α)
  | note (n : ν) (next : Query K V ε ν α)

@[simp] theorem ok_bind {ε α β : Type} (a : α) (f : α → Except ε β) :
    ((Except.ok a : Except ε α) >>= f) = f a := rfl

@[simp] theorem error_bind {ε α β : Type} (e : ε) (f : α → Except ε β) :
    ((Except.error e : Except ε α) >>= f) = .error e := rfl

theorem bind_eq_ok {ε α β : Type} {x : Except ε α} {f : α → Except ε β} {b : β} :
    x >>= f = .ok b ↔ ∃ a, x = .ok a ∧ f a = .ok b := by
  cases x with
  | ok a => simp [Bind.bind, Except.bind]
  | error e => simp [Bind.bind, Except.bind]

/-- A loop all of whose steps succeed. -/
theorem mapM_ok {ε α β : Type} {f : α → Except ε β} {g : α → β} {l : List α}
    (h : ∀ a ∈ l, f a = .ok (g a)) : l.mapM f = .ok (l.map g) := by
  induction l with
  | nil => rfl
  | cons a l ih =>
    rw [List.mapM_cons, h a List.mem_cons_self, ih fun b hb => h b (List.mem_cons_of_mem _ hb)]
    rfl

/-- A loop that succeeds: each of its rounds did. -/
theorem forall₂_of_mapM {ε α β : Type} {f : α → Except ε β} {l : List α} {out : List β}
    (h : l.mapM f = .ok out) : List.Forall₂ (fun a b => f a = .ok b) l out := by
  induction l generalizing out with
  | nil =>
    cases h
    exact .nil
  | cons a l ih =>
    rw [List.mapM_cons] at h
    obtain ⟨b, hb, h⟩ := bind_eq_ok.mp h
    obtain ⟨bs, hbs, h⟩ := bind_eq_ok.mp h
    cases h
    exact .cons hb (ih hbs)

/-- Two relations one after the other, the second of which also sees where the first one started. -/
theorem forall₂_of_zip {α β γ : Type} {R : α → β → Prop} {S : α × β → γ → Prop} {T : α → γ → Prop}
    {as : List α} {bs : List β} {cs : List γ} (h : List.Forall₂ R as bs)
    (h' : List.Forall₂ S (as.zip bs) cs) (hT : ∀ a b c, R a b → S (a, b) c → T a c) :
    List.Forall₂ T as cs := by
  induction h generalizing cs with
  | nil =>
    cases h'
    exact .nil
  | cons hr _ ih =>
    cases h' with
    | cons hs hrest => exact .cons (hT _ _ _ hr hs) (ih hrest)

/-- What the rounds of a loop keep, the loop keeps. -/
theorem map_eq_of_mapM {ε α β γ : Type} {f : α → Except ε β} {g : α → γ} {g' : β → γ} {l : List α}
    {out : List β} (h : l.mapM f = .ok out) (hg : ∀ a b, f a = .ok b → g' b = g a) :
    out.map g' = l.map g := by
  have hall := forall₂_of_mapM h
  clear h
  induction hall with
  | nil => rfl
  | cons hb _ ih => rw [List.map_cons, List.map_cons, ih, hg _ _ hb]

theorem mapM_of_forall₂ {ε α β : Type} {f : α → Except ε β} {l : List α} {out : List β}
    (h : List.Forall₂ (fun a b => f a = .ok b) l out) : l.mapM f = .ok out := by
  induction h with
  | nil => rfl
  | cons hb _ ih =>
    rw [List.mapM_cons, hb, ih]
    rfl

/-- A loop in which each round fails with one error or succeeds. -/
theorem mapM_guard {ε α β : Type} {e : ε} {f : α → Except ε β} {p : α → Bool} {g : α → β}
    {l : List α} (h : ∀ a ∈ l, f a = if p a then .error e else .ok (g a)) :
    l.mapM f = if l.any p then .error e else .ok (l.map g) := by
  induction l with
  | nil => rfl
  | cons a l ih =>
    rw [List.mapM_cons, h a List.mem_cons_self, ih fun b hb => h b (List.mem_cons_of_mem _ hb)]
    cases hp : p a with
    | true => simp [Bind.bind, Except.bind, hp]
    | false =>
      by_cases hl : l.any p = true
      · simp [Bind.bind, Except.bind, hp, hl]
      · simp [Bind.bind, Except.bind, hp, hl, pure, Except.pure]

namespace Query

variable {K V ε ν : Type} {α β γ : Type}

/-- Run one query after another. -/
def bind : Query K V ε ν α → (α → Query K V ε ν β) → Query K V ε ν β
  | .pure a, f => f a
  | .fail e, _ => .fail e
  | .get key next, f => .get key fun v => (next v).bind f
  | .scan key next, f => .scan key fun l => (next l).bind f
  | .note n next, f => .note n (next.bind f)

instance : Monad (Query K V ε ν) where
  pure := .pure
  bind := .bind

theorem bind_def (q : Query K V ε ν α) (f : α → Query K V ε ν β) : q >>= f = q.bind f := rfl

theorem pure_def (a : α) : (Pure.pure a : Query K V ε ν α) = .pure a := rfl

theorem bind_pure' (q : Query K V ε ν α) : q.bind .pure = q := by
  induction q with
  | pure a => rfl
  | fail e => rfl
  | get key next ih => simp only [bind, ih]
  | scan key next ih => simp only [bind, ih]
  | note n next ih => simp only [bind, ih]

theorem bind_assoc' (q : Query K V ε ν α) (f : α → Query K V ε ν β) (g : β → Query K V ε ν γ) :
    (q.bind f).bind g = q.bind fun a => (f a).bind g := by
  induction q with
  | pure a => rfl
  | fail e => rfl
  | get key next ih => simp only [bind, ih]
  | scan key next ih => simp only [bind, ih]
  | note n next ih => simp only [bind, ih]

instance : LawfulMonad (Query K V ε ν) :=
  LawfulMonad.mk' _ bind_pure' (fun _ _ => rfl) bind_assoc'

/-- The value at a key. -/
def fetch (key : K) : Query K V ε ν (Option V) := .get key .pure

/-- The entries under a key prefix. -/
def entries (key : K) : Query K V ε ν (List (K × V)) := .scan key .pure

/-- Leave a note. -/
def tell (n : ν) : Query K V ε ν Unit := .note n (.pure ())

/-- A result computed without reading. -/
def ofExcept : Except ε α → Query K V ε ν α
  | .ok a => .pure a
  | .error e => .fail e

/-! ## Running against a store -/

/-- The outcome of a query on a store. -/
def run (r : Reader K V) : Query K V ε ν α → Except ε α
  | .pure a => .ok a
  | .fail e => .error e
  | .get key next => (next (r.get key)).run r
  | .scan key next => (next (r.scan key)).run r
  | .note _ next => next.run r

/-- The notes a query leaves on the way, also when it fails later. -/
def notes (r : Reader K V) : Query K V ε ν α → List ν
  | .pure _ => []
  | .fail _ => []
  | .get key next => (next (r.get key)).notes r
  | .scan key next => (next (r.scan key)).notes r
  | .note n next => n :: next.notes r

variable {r : Reader K V}

@[simp] theorem run_pure (a : α) : run r (Pure.pure a : Query K V ε ν α) = .ok a := rfl

@[simp] theorem run_fail (e : ε) : run r (.fail e : Query K V ε ν α) = .error e := rfl

@[simp] theorem run_fetch (key : K) :
    run r (fetch key : Query K V ε ν (Option V)) = .ok (r.get key) := rfl

@[simp] theorem run_entries (key : K) :
    run r (entries key : Query K V ε ν (List (K × V))) = .ok (r.scan key) := rfl

@[simp] theorem run_tell (n : ν) : run r (tell n : Query K V ε ν Unit) = .ok () := rfl

@[simp] theorem run_ofExcept (x : Except ε α) : run r (ofExcept x : Query K V ε ν α) = x := by
  cases x <;> rfl

@[simp] theorem run_bind (q : Query K V ε ν α) (f : α → Query K V ε ν β) :
    run r (q >>= f) = run r q >>= fun a => run r (f a) := by
  rw [bind_def]
  induction q with
  | pure a => rfl
  | fail e => rfl
  | get key next ih => exact ih _
  | scan key next ih => exact ih _
  | note n next ih => exact ih

@[simp] theorem run_map (q : Query K V ε ν α) (f : α → β) : run r (f <$> q) = f <$> run r q := by
  rw [map_eq_pure_bind, run_bind, map_eq_pure_bind]
  rfl

@[simp] theorem run_mapM (l : List β) (f : β → Query K V ε ν α) :
    run r (l.mapM f) = l.mapM fun b => run r (f b) := by
  induction l with
  | nil => rfl
  | cons b l ih => simp [List.mapM_cons, ih]

@[simp] theorem run_foldlM (l : List β) (f : γ → β → Query K V ε ν γ) (c : γ) :
    run r (l.foldlM f c) = l.foldlM (fun c b => run r (f c b)) c := by
  induction l generalizing c with
  | nil => rfl
  | cons b l ih => simp [List.foldlM_cons, ih]

theorem run_bind_eq_ok {q : Query K V ε ν α} {f : α → Query K V ε ν β} {b : β} :
    run r (q >>= f) = .ok b ↔ ∃ a, run r q = .ok a ∧ run r (f a) = .ok b := by
  rw [run_bind, bind_eq_ok]

/-! ## Postconditions -/

/-- Whatever store answers as `ok` allows, a result of the query satisfies `P`. -/
def Ensures (ok : Reader K V → Prop) (q : Query K V ε ν α) (P : α → Prop) : Prop :=
  ∀ r, ok r → ∀ a, run r q = .ok a → P a

variable {ok : Reader K V → Prop}

theorem Ensures.pure {a : α} {P : α → Prop} (h : P a) :
    Ensures ok (Pure.pure a : Query K V ε ν α) P := by
  rintro r - b hb
  cases hb
  exact h

theorem Ensures.fail (e : ε) (P : α → Prop) : Ensures ok (.fail e : Query K V ε ν α) P := by
  rintro r - b hb
  cases hb

theorem Ensures.imp {q : Query K V ε ν α} {P Q : α → Prop} (h : Ensures ok q P)
    (hi : ∀ a, P a → Q a) : Ensures ok q Q := fun r hr a ha => hi a (h r hr a ha)

theorem Ensures.trivial (q : Query K V ε ν α) : Ensures ok q fun _ => True :=
  fun _ _ _ _ => True.intro

theorem Ensures.bind {q : Query K V ε ν α} {f : α → Query K V ε ν β} {P : α → Prop}
    {Q : β → Prop} (h : Ensures ok q P) (hf : ∀ a, P a → Ensures ok (f a) Q) :
    Ensures ok (q >>= f) Q := by
  intro r hr b hb
  obtain ⟨a, ha, hb⟩ := run_bind_eq_ok.mp hb
  exact hf a (h r hr a ha) r hr b hb

theorem Ensures.bind' {q : Query K V ε ν α} {f : α → Query K V ε ν β} {Q : β → Prop}
    (hf : ∀ a, Ensures ok (f a) Q) : Ensures ok (q >>= f) Q :=
  (Ensures.trivial q).bind fun a _ => hf a

theorem Ensures.mapM {l : List β} {f : β → Query K V ε ν α} {P : α → Prop}
    (h : ∀ b ∈ l, Ensures ok (f b) P) : Ensures ok (l.mapM f) fun out => ∀ a ∈ out, P a := by
  induction l with
  | nil => exact Ensures.pure (by simp)
  | cons b l ih =>
    rw [List.mapM_cons]
    refine (h b List.mem_cons_self).bind fun a ha => ?_
    refine (ih fun c hc => h c (List.mem_cons_of_mem _ hc)).bind fun out hout => ?_
    refine Ensures.pure fun x hx => ?_
    rcases List.mem_cons.mp hx with rfl | hx
    · exact ha
    · exact hout x hx

/-! ## Notes -/

theorem notes_bind (q : Query K V ε ν α) (f : α → Query K V ε ν β) :
    notes r (q >>= f) = notes r q ++ ((run r q).toOption.map fun a => notes r (f a)).getD [] := by
  rw [bind_def]
  induction q with
  | pure a => rfl
  | fail e => rfl
  | get key next ih => exact ih _
  | scan key next ih => exact ih _
  | note n next ih => exact congrArg (n :: ·) ih

/-- Whatever the store answers, the notes of the query satisfy `P`. -/
def Tells (q : Query K V ε ν α) (P : ν → Prop) : Prop := ∀ r, ∀ n ∈ notes r q, P n

variable {P : ν → Prop}

theorem Tells.pure (a : α) : Tells (Pure.pure a : Query K V ε ν α) P :=
  fun _ _ hn => absurd hn List.not_mem_nil

theorem Tells.fail (e : ε) : Tells (.fail e : Query K V ε ν α) P :=
  fun _ _ hn => absurd hn List.not_mem_nil

theorem Tells.fetch (key : K) : Tells (fetch key : Query K V ε ν (Option V)) P :=
  fun _ _ hn => absurd hn List.not_mem_nil

theorem Tells.entries (key : K) : Tells (entries key : Query K V ε ν (List (K × V))) P :=
  fun _ _ hn => absurd hn List.not_mem_nil

theorem Tells.ofExcept (x : Except ε α) : Tells (ofExcept x : Query K V ε ν α) P := by
  cases x with
  | error e => exact Tells.fail e
  | ok a => exact Tells.pure a

theorem Tells.tell {n : ν} (h : P n) : Tells (tell n : Query K V ε ν Unit) P := by
  intro _ n' hn
  rw [List.mem_singleton.mp hn]
  exact h

theorem Tells.bind {q : Query K V ε ν α} {f : α → Query K V ε ν β} (h : Tells q P)
    (hf : ∀ r a, run r q = .ok a → Tells (f a) P) : Tells (q >>= f) P := by
  intro r n hn
  rw [notes_bind, List.mem_append] at hn
  rcases hn with hn | hn
  · exact h r n hn
  · cases hq : run r q with
    | error e =>
      rw [hq] at hn
      exact absurd hn List.not_mem_nil
    | ok a =>
      rw [hq] at hn
      exact hf r a hq r n hn

theorem Tells.seq {q : Query K V ε ν α} {f : α → Query K V ε ν β} (h : Tells q P)
    (hf : ∀ a, Tells (f a) P) : Tells (q >>= f) P := h.bind fun _ a _ => hf a

theorem Tells.mapM {l : List β} {f : β → Query K V ε ν α} (h : ∀ b, Tells (f b) P) :
    Tells (l.mapM f) P := by
  induction l with
  | nil => exact Tells.pure _
  | cons b l ih =>
    rw [List.mapM_cons]
    exact (h b).seq fun a => ih.seq fun out => Tells.pure _

/-! ## Running request by request -/

/-- The query after its next request has been answered by `r`; a finished query stays. -/
def step (r : Reader K V) : Query K V ε ν α → Query K V ε ν α
  | .pure a => .pure a
  | .fail e => .fail e
  | .get key next => next (r.get key)
  | .scan key next => next (r.scan key)
  | .note _ next => next

/-- Answering one request does not change the outcome on the same store. -/
@[simp] theorem run_step (q : Query K V ε ν α) : run r (step r q) = run r q := by
  cases q <;> rfl

end Query

end Ciphra
