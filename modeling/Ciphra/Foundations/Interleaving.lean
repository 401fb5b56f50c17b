import Mathlib.Data.List.Basic
import Mathlib.Data.Finset.Basic

/-!
# Interleavings of several programs

A list of actions, each with an owner, interleaves what its owners do. Two lists are interleavings
of the same programs when every owner has the same share of both, in the same order
(`SamePrograms`). `SamePrograms.foldlM_eq`: if actions of different owners commute, then both lists
lead to the same state. `samePrograms_flatMap` is the list in which one owner goes after the other.

For actions that each write one cell of an array (`writeCell`), `writeCell_comm` derives the
commutation from what the actions read.
-/

namespace Ciphra

namespace Interleaving

variable {σ α β ι : Type*} [DecidableEq ι] {owner : α → ι} {step : σ → α → Option σ}
  {as bs : List α}

/-- The actions of one owner. -/
def share (owner : α → ι) (i : ι) (as : List α) : List α := as.filter fun a => owner a = i

/-- The lists interleave the same programs. -/
def SamePrograms (owner : α → ι) (as bs : List α) : Prop :=
  ∀ i, share owner i as = share owner i bs

theorem mem_share {i : ι} {a : α} : a ∈ share owner i as ↔ a ∈ as ∧ owner a = i := by
  rw [share, List.mem_filter, decide_eq_true_iff]

theorem share_eq_self {i : ι} (h : ∀ a ∈ as, owner a = i) : share owner i as = as :=
  List.filter_eq_self.mpr fun a ha => decide_eq_true (h a ha)

theorem share_eq_nil {i : ι} (h : ∀ a ∈ as, owner a ≠ i) : share owner i as = [] :=
  List.filter_eq_nil_iff.mpr fun a ha => by rw [decide_eq_true_iff]; exact h a ha

theorem SamePrograms.mem_iff (h : SamePrograms owner as bs) {a : α} : a ∈ as ↔ a ∈ bs := by
  have hmem : a ∈ share owner (owner a) as ↔ a ∈ share owner (owner a) bs := by rw [h]
  simpa only [mem_share, and_true] using hmem

/-- The share of an owner, when the owners go one after the other. -/
theorem share_flatMap {is : List ι} (hn : is.Nodup) {f : ι → List α}
    (hf : ∀ i ∈ is, ∀ a ∈ f i, owner a = i) (i : ι) :
    share owner i (is.flatMap f) = if i ∈ is then f i else [] := by
  induction is with
  | nil => rfl
  | cons j is ih =>
    obtain ⟨hj, hn⟩ := List.nodup_cons.mp hn
    have htail := ih hn fun k hk => hf k (List.mem_cons_of_mem _ hk)
    rw [share, List.flatMap_cons, List.filter_append, ← share, ← share, htail]
    by_cases hij : i = j
    · subst hij
      rw [if_neg hj, if_pos List.mem_cons_self, List.append_nil,
        share_eq_self (hf i List.mem_cons_self)]
    · rw [share_eq_nil fun a ha => by rw [hf j List.mem_cons_self a ha]; exact Ne.symm hij,
        List.nil_append]
      simp only [List.mem_cons, hij, false_or]

/-- The owners one after the other. -/
theorem samePrograms_flatMap {is : List ι} (hn : is.Nodup) {f : ι → List α}
    (hf : ∀ i ∈ is, ∀ a ∈ f i, owner a = i) (has : ∀ i ∈ is, share owner i as = f i)
    (hother : ∀ a ∈ as, owner a ∈ is) : SamePrograms owner as (is.flatMap f) := by
  intro i
  rw [share_flatMap hn hf]
  by_cases hi : i ∈ is
  · rw [if_pos hi, has i hi]
  · rw [if_neg hi]
    refine share_eq_nil ?_
    rintro a ha rfl
    exact hi (hother a ha)

/-- An action can be done before the actions it commutes with. -/
theorem foldlM_bring_forward {pre post : List α} {a : α}
    (hcomm : ∀ b ∈ pre, ∀ s, (step s b).bind (step · a) = (step s a).bind (step · b)) (s : σ) :
    (pre ++ a :: post).foldlM step s = (a :: (pre ++ post)).foldlM step s := by
  induction pre generalizing s with
  | nil => rfl
  | cons b pre ih =>
    have htail := ih fun c hc => hcomm c (List.mem_cons_of_mem _ hc)
    calc (b :: (pre ++ a :: post)).foldlM step s
        = (step s b).bind fun t => (a :: (pre ++ post)).foldlM step t := by
          rw [List.foldlM_cons]
          exact congrArg _ (funext htail)
      _ = ((step s b).bind (step · a)).bind fun t => (pre ++ post).foldlM step t := by
          rw [Option.bind_assoc]
          rfl
      _ = ((step s a).bind (step · b)).bind fun t => (pre ++ post).foldlM step t := by
          rw [hcomm b List.mem_cons_self]
      _ = (a :: b :: (pre ++ post)).foldlM step s := by
          rw [Option.bind_assoc]
          rfl

/-- **Interleavings of the same programs lead to the same state**, if actions of different owners
commute. -/
theorem SamePrograms.foldlM_eq (h : SamePrograms owner as bs)
    (hcomm : ∀ a ∈ as, ∀ b ∈ as, owner a ≠ owner b →
      ∀ s, (step s a).bind (step · b) = (step s b).bind (step · a)) (s : σ) :
    as.foldlM step s = bs.foldlM step s := by
  induction as generalizing bs s with
  | nil =>
    obtain rfl : bs = [] := List.eq_nil_iff_forall_not_mem.mpr fun b hb => by
      cases h.mem_iff.mpr hb
    rfl
  | cons a as ih =>
    -- the first action of its owner, in the other list
    have hshare : share owner (owner a) bs = a :: share owner (owner a) as := by
      rw [← h, share, List.filter_cons_of_pos (by simp), ← share]
    obtain ⟨pre, post, rfl, hpre, -, hpost⟩ := List.filter_eq_cons_iff.mp hshare
    have hpre : ∀ b ∈ pre, owner b ≠ owner a := fun b hb => by simpa using hpre b hb
    have hsub : ∀ b ∈ pre, b ∈ a :: as := fun b hb => h.mem_iff.mpr (List.mem_append_left _ hb)
    have hrest : SamePrograms owner as (pre ++ post) := by
      intro i
      by_cases hi : owner a = i
      · subst hi
        have hnil : share owner (owner a) pre = [] := share_eq_nil hpre
        rw [share, share, List.filter_append, ← share, ← share, hnil, List.nil_append]
        exact hpost.symm
      · have hi' := h i
        rw [share, List.filter_cons_of_neg (by simpa using hi), share, List.filter_append,
          List.filter_cons_of_neg (by simpa using hi)] at hi'
        rw [share, share, List.filter_append]
        exact hi'
    rw [foldlM_bring_forward fun b hb =>
        hcomm b (hsub b hb) a List.mem_cons_self (hpre b hb), List.foldlM_cons, List.foldlM_cons]
    exact congrArg _ (funext fun t => ih hrest (fun b hb c hc =>
      hcomm b (List.mem_cons_of_mem _ hb) c (List.mem_cons_of_mem _ hc)) t)

/-! Actions that may fail. -/

/-- Folds that agree on an invariant, and do not fail. -/
theorem foldlM_agree {I : σ → Prop} {f g : σ → α → Option σ} {as : List α}
    (h : ∀ a ∈ as, ∀ m, I m → g m a = f m a ∧ ∃ m', f m a = some m' ∧ I m') {m : σ} (hm : I m) :
    as.foldlM g m = as.foldlM f m ∧ ∃ m', as.foldlM f m = some m' ∧ I m' := by
  induction as generalizing m with
  | nil => exact ⟨rfl, m, rfl, hm⟩
  | cons a as ih =>
    obtain ⟨heq, m₁, hf, hm₁⟩ := h a List.mem_cons_self m hm
    obtain ⟨hrest, m', hm'⟩ := ih (fun b hb => h b (List.mem_cons_of_mem _ hb)) hm₁
    rw [List.foldlM_cons, List.foldlM_cons, heq, hf]
    exact ⟨hrest, m', hm'⟩

theorem foldlM_flatMap {κ : Type*} (f : σ → α → Option σ) (g : κ → List α) (is : List κ) (m : σ) :
    (is.flatMap g).foldlM f m = is.foldlM (fun m i => (g i).foldlM f m) m := by
  induction is generalizing m with
  | nil => rfl
  | cons i is ih =>
    rw [List.flatMap_cons, List.foldlM_append, List.foldlM_cons]
    exact congrArg _ (funext ih)

/-- The action that writes the computed value to its cell. -/
def writeCell (value : Array β → α → Option β) (target : α → ℕ) (m : Array β) (a : α) :
    Option (Array β) :=
  (value m a).map fun v => m.setIfInBounds (target a) v

/-- Actions that write different cells, neither of which the other one reads. -/
theorem writeCell_comm {value : Array β → α → Option β} {target : α → ℕ} {a b : α}
    (hne : target a ≠ target b) (hab : ∀ m v, value (m.setIfInBounds (target a) v) b = value m b)
    (hba : ∀ m v, value (m.setIfInBounds (target b) v) a = value m a) (m : Array β) :
    (writeCell value target m a).bind (writeCell value target · b) =
      (writeCell value target m b).bind (writeCell value target · a) := by
  cases ha : value m a <;> cases hb : value m b <;>
    simp [writeCell, hab, hba, ha, hb, Array.setIfInBounds_comm _ _ hne]

end Interleaving

end Ciphra
