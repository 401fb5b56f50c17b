import Mathlib.Tactic

/-!
# Dictionaries of typed slots

A dictionary holds at most one value in every slot, of a type that depends on the slot. A patch
sets or clears one slot. What a list of patches leaves in a slot depends only on what was in it and
on the patches of that slot, so a lookup after a long batch comes down to the few patches that can
touch it: `patchAll_of_mem` and `patchAll_of_notMem`.
-/

namespace Ciphra

variable {ι : Type} {P : ι → Type}

/-- Every slot holds at most one value of its type. -/
abbrev Slots (P : ι → Type) := (i : ι) → Option (P i)

/-- One slot is set, or cleared. -/
structure Patch (P : ι → Type) where
  slot : ι
  value : Option (P slot)

variable [DecidableEq ι]

/-- The dictionary after a patch. -/
def patch (T : Slots P) (w : Patch P) : Slots P := Function.update T w.slot w.value

/-- The dictionary after a batch of patches. -/
def patchAll (T : Slots P) (ws : List (Patch P)) : Slots P := ws.foldl patch T

@[simp] theorem patchAll_nil (T : Slots P) : patchAll T [] = T := rfl

@[simp] theorem patchAll_cons (T : Slots P) (w : Patch P) (ws : List (Patch P)) :
    patchAll T (w :: ws) = patchAll (patch T w) ws := rfl

theorem patchAll_append (T : Slots P) (ws ws' : List (Patch P)) :
    patchAll T (ws ++ ws') = patchAll (patchAll T ws) ws' := List.foldl_append

@[simp] theorem patch_self (T : Slots P) (i : ι) (v : Option (P i)) : patch T ⟨i, v⟩ i = v := by
  unfold patch
  exact Function.update_self ..

theorem patch_of_ne {T : Slots P} {w : Patch P} {i : ι} (h : w.slot ≠ i) : patch T w i = T i := by
  unfold patch
  exact Function.update_of_ne h.symm ..

/-- A slot that no patch names keeps its value. -/
theorem patchAll_of_notMem {T : Slots P} {ws : List (Patch P)} {i : ι}
    (h : ∀ w ∈ ws, w.slot ≠ i) : patchAll T ws i = T i := by
  induction ws generalizing T with
  | nil => rfl
  | cons w ws ih =>
    rw [patchAll_cons, ih fun x hx => h x (List.mem_cons_of_mem _ hx),
      patch_of_ne (h w List.mem_cons_self)]

/-- Only the slot itself decides what a batch leaves in it. -/
theorem patchAll_congr {T T' : Slots P} {i : ι} (h : T i = T' i) (ws : List (Patch P)) :
    patchAll T ws i = patchAll T' ws i := by
  induction ws generalizing T T' with
  | nil => exact h
  | cons w ws ih =>
    rw [patchAll_cons, patchAll_cons]
    apply ih
    by_cases hw : w.slot = i
    · subst hw
      rw [patch, patch, Function.update_self, Function.update_self]
    · rw [patch_of_ne hw, patch_of_ne hw, h]

/-- A slot that the patches agree about holds what they say. -/
theorem patchAll_of_mem {T : Slots P} {ws : List (Patch P)} {i : ι} {v : Option (P i)}
    (hmem : ⟨i, v⟩ ∈ ws) (hagree : ∀ v', ⟨i, v'⟩ ∈ ws → v' = v) : patchAll T ws i = v := by
  induction ws generalizing T with
  | nil => cases hmem
  | cons w ws ih =>
    rw [patchAll_cons]
    have hrest : ∀ v', ⟨i, v'⟩ ∈ ws → v' = v := fun v' h => hagree v' (List.mem_cons_of_mem _ h)
    by_cases hlater : ∃ v', ⟨i, v'⟩ ∈ ws
    · obtain ⟨v', h⟩ := hlater
      obtain rfl := hrest v' h
      exact ih h hrest
    · rw [patchAll_of_notMem]
      · rcases List.mem_cons.mp hmem with rfl | h
        · exact patch_self ..
        · exact absurd ⟨v, h⟩ hlater
      · rintro ⟨j, v'⟩ h rfl
        exact hlater ⟨v', h⟩

/-- Clearing a list of slots. -/
theorem patchAll_clear (T : Slots P) (l : List ι) (i : ι) :
    patchAll T (l.map fun j => ⟨j, none⟩) i = if i ∈ l then none else T i := by
  induction l generalizing T with
  | nil => rfl
  | cons j l ih =>
    rw [List.map_cons, patchAll_cons, ih]
    by_cases hi : i ∈ l
    · rw [if_pos hi, if_pos (List.mem_cons_of_mem _ hi)]
    · by_cases hj : j = i
      · subst hj
        rw [if_neg hi, if_pos List.mem_cons_self, patch_self]
      · rw [if_neg hi, if_neg, patch_of_ne hj]
        intro hmem
        exact hi ((List.mem_cons.mp hmem).resolve_left (Ne.symm hj))

end Ciphra
