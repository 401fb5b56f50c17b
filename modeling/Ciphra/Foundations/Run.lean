import Mathlib.Tactic

/-!
# Runs of a deterministic system

A system is a step function on states. `Along P` says that a condition on a state and the next
action holds at every step of a run; `Along.invariant` is the induction over runs, and
`Along.invariant_ghost` the one for an invariant that relates the state to a history kept beside it.
`Path` is a run of a system that is given as a relation, with the labels of its steps, and
`Along.simulates` is forward simulation: what is observed of a run labels a path.
-/

namespace Ciphra

variable {σ α γ : Type*} {step : σ → α → σ} {P Q : σ → α → Prop}

/-- The condition holds before every step of the run. -/
def Along (step : σ → α → σ) (P : σ → α → Prop) : σ → List α → Prop
  | _, [] => True
  | s, a :: actions => P s a ∧ Along step P (step s a) actions

/-- The history kept beside a run. -/
def ghostRun (step : σ → α → σ) (record : σ → γ → α → γ) : σ → γ → List α → γ
  | _, g, [] => g
  | s, g, a :: actions => ghostRun step record (step s a) (record s g a) actions

theorem Along.mono (h : ∀ s a, P s a → Q s a) {s : σ} {actions : List α}
    (hp : Along step P s actions) : Along step Q s actions := by
  induction actions generalizing s with
  | nil => trivial
  | cons a actions ih => exact ⟨h s a hp.1, ih hp.2⟩

theorem Along.of_forall (h : ∀ s a, P s a) (s : σ) (actions : List α) : Along step P s actions := by
  induction actions generalizing s with
  | nil => trivial
  | cons a actions ih => exact ⟨h s a, ih _⟩

theorem Along.and {s : σ} {actions : List α} (hp : Along step P s actions)
    (hq : Along step Q s actions) : Along step (fun s a => P s a ∧ Q s a) s actions := by
  induction actions generalizing s with
  | nil => trivial
  | cons a actions ih => exact ⟨⟨hp.1, hq.1⟩, ih hp.2 hq.2⟩

/-- A run and one step more. -/
theorem along_concat {s : σ} {actions : List α} {a : α} : Along step P s (actions ++ [a]) ↔
    Along step P s actions ∧ P (actions.foldl step s) a := by
  induction actions generalizing s with
  | nil => exact ⟨fun h => ⟨trivial, h.1⟩, fun h => ⟨h.2, trivial⟩⟩
  | cons b actions ih =>
    rw [List.cons_append, Along, ih, Along, List.foldl_cons, and_assoc]

/-- What every step preserves holds at the end of a run. -/
theorem Along.invariant {I : σ → Prop} (hstep : ∀ s a, I s → P s a → I (step s a)) {s : σ}
    (h : I s) {actions : List α} (hp : Along step P s actions) :
    I (actions.foldl step s) := by
  induction actions generalizing s with
  | nil => exact h
  | cons a actions ih => exact ih (hstep s a h hp.1) hp.2

/-- The same for an invariant that relates the state to a history. -/
theorem Along.invariant_ghost {r : σ → γ → α → γ} {I : σ → γ → Prop}
    (hstep : ∀ s g a, I s g → P s a → I (step s a) (r s g a)) {s : σ} {g : γ}
    (h : I s g) {actions : List α} (hp : Along step P s actions) :
    I (actions.foldl step s) (ghostRun step r s g actions) := by
  induction actions generalizing s g with
  | nil => exact h
  | cons a actions ih => exact ih (hstep s g a h hp.1) hp.2

/-- The labels lead from one state to another. -/
inductive Path (R : σ → α → σ → Prop) : σ → List α → σ → Prop
  | nil (a : σ) : Path R a [] a
  | cons {a b c : σ} {l : α} {ls : List α} (h : R a l b) (hs : Path R b ls c) :
      Path R a (l :: ls) c

namespace Path

variable {R S : σ → α → σ → Prop}

theorem append {a b c : σ} {ls ls' : List α} (h : Path R a ls b) (h' : Path R b ls' c) :
    Path R a (ls ++ ls') c := by
  induction h with
  | nil a => exact h'
  | cons hl _ ih => exact .cons hl (ih h')

theorem snoc {a b c : σ} {ls : List α} {l : α} (h : Path R a ls b) (hl : R b l c) :
    Path R a (ls ++ [l]) c := h.append (.cons hl (.nil c))

theorem mono (hRS : ∀ a l b, R a l b → S a l b) {a b : σ} {ls : List α} (h : Path R a ls b) :
    Path S a ls b := by
  induction h with
  | nil a => exact .nil a
  | cons hl _ ih => exact .cons (hRS _ _ _ hl) ih

end Path

/-- What is observed of a run, step by step. -/
def transcript {ε : Type*} (step : σ → α → σ) (observe : σ → α → ε) : σ → List α → List ε
  | _, [] => []
  | s, a :: actions => observe s a :: transcript step observe (step s a) actions

/-- **Forward simulation.** If every step that meets the condition is matched by a move, so is every
run of such steps. -/
theorem Along.simulates {ε τ : Type*} {observe : σ → α → ε} {R : τ → ε → τ → Prop} {S : σ → τ → Prop}
    (hstep : ∀ s a b, S s b → P s a → ∃ b', R b (observe s a) b' ∧ S (step s a) b') {s : σ} {b : τ}
    (h : S s b) {actions : List α} (hp : Along step P s actions) :
    ∃ b', Path R b (transcript step observe s actions) b' ∧ S (actions.foldl step s) b' := by
  induction actions generalizing s b with
  | nil => exact ⟨b, .nil b, h⟩
  | cons a actions ih =>
    obtain ⟨b₁, hmove, h₁⟩ := hstep s a b h hp.1
    obtain ⟨b', hpath, h'⟩ := ih h₁ hp.2
    exact ⟨b', .cons hmove hpath, h'⟩

end Ciphra
