import Mathlib.Data.List.Induction

/-!
# Orders on part of a type

An order that is total on the elements with a property (`OrderOn`) sorts a list of them
(`OrderOn.pairwise_mergeSort`, `OrderOn.eq_of_mem_iff`). The element of a list that stands below all
others is found in one pass (`OrderOn.extremum_concat`), and the order of the list does not matter
(`OrderOn.extremum_congr`).
-/

namespace Ciphra

variable {α : Type} {le : α → α → Bool} {P : α → Prop}

/-- A total order on the elements with a property. -/
structure OrderOn (P : α → Prop) (le : α → α → Bool) : Prop where
  total : ∀ a b, P a → P b → le a b = true ∨ le b a = true
  trans : ∀ a b c, P a → P b → P c → le a b = true → le b c = true → le a c = true
  antisymm : ∀ a b, P a → P b → le a b = true → le b a = true → a = b

theorem OrderOn.swap (h : OrderOn P le) : OrderOn P fun a b => le b a where
  total a b ha hb := (h.total b a hb ha)
  trans a b c ha hb hc hab hbc := h.trans c b a hc hb ha hbc hab
  antisymm a b ha hb hab hba := h.antisymm a b ha hb hba hab

theorem OrderOn.refl (h : OrderOn P le) {a : α} (ha : P a) : le a a = true := by
  rcases h.total a a ha ha with h | h <;> exact h

/-! ## Sorting -/

/-- Sorting puts the elements in order. -/
theorem OrderOn.pairwise_mergeSort (h : OrderOn P le) {l : List α} (hl : ∀ a ∈ l, P a) :
    (l.mergeSort le).Pairwise fun a b => le a b = true := by
  -- the order is total on the subtype of the elements with the property
  let sub : List (Subtype P) := l.attachWith P hl
  have hsub : sub.map Subtype.val = l := List.attachWith_map_subtype_val hl
  have hsort : (sub.mergeSort fun a b => le a.1 b.1).map Subtype.val = l.mergeSort le := by
    rw [List.map_mergeSort (s := le) (fun a _ b _ => rfl), hsub]
  rw [← hsort, List.pairwise_map]
  apply List.pairwise_mergeSort
  · intro a b c hab hbc
    exact h.trans a b c a.2 b.2 c.2 hab hbc
  · intro a b
    rw [Bool.or_eq_true]
    exact h.total a b a.2 b.2

/-- Two lists in order and without duplicates that have the same elements are equal. -/
theorem OrderOn.eq_of_mem_iff (h : OrderOn P le) {l l' : List α} (hl : ∀ a ∈ l, P a)
    (hsort : l.Pairwise fun a b => le a b = true) (hsort' : l'.Pairwise fun a b => le a b = true)
    (hnodup : l.Nodup) (hnodup' : l'.Nodup) (hmem : ∀ a, a ∈ l ↔ a ∈ l') : l = l' := by
  have hperm : l.Perm l' := (List.perm_ext_iff_of_nodup hnodup hnodup').mpr hmem
  refine hperm.eq_of_pairwise (fun a b ha hb hab hba => ?_) hsort hsort'
  exact h.antisymm a b (hl a ha) (hl b ((hmem b).mpr hb)) hab hba

/-! ## The extreme element of a list -/

/-- The first element that stands below all others. -/
def extremum (le : α → α → Bool) (l : List α) : Option α := l.find? fun a => l.all fun b => le a b

theorem extremum_mem {l : List α} {a : α} (h : extremum le l = some a) :
    a ∈ l ∧ ∀ b ∈ l, le a b = true := by
  rw [extremum] at h
  have hall := List.find?_some h
  exact ⟨List.mem_of_find?_eq_some h, List.all_eq_true.mp hall⟩

theorem OrderOn.extremum_eq (h : OrderOn P le) {l : List α} (hP : ∀ a ∈ l, P a) {a : α}
    (ha : a ∈ l) (hle : ∀ b ∈ l, le a b = true) : extremum le l = some a := by
  cases hf : extremum le l with
  | none =>
    rw [extremum, List.find?_eq_none] at hf
    exact absurd (List.all_eq_true.mpr hle) (hf a ha)
  | some b =>
    obtain ⟨hb, hble⟩ := extremum_mem hf
    rw [h.antisymm b a (hP b hb) (hP a ha) (hble a ha) (hle b hb)]

/-- The extreme element of a longer list: the new element, unless the old one is at least as
extreme. -/
theorem OrderOn.extremum_concat (h : OrderOn P le) {l : List α} {a : α} (hP : ∀ b ∈ l, P b)
    (ha : P a) : extremum le (l ++ [a]) =
      match extremum le l with
      | none => some a
      | some b => if le b a then some b else some a := by
  have hP' : ∀ b ∈ l ++ [a], P b := by
    intro b hb
    rcases List.mem_append.mp hb with hb | hb
    · exact hP b hb
    · exact List.mem_singleton.mp hb ▸ ha
  induction l using List.reverseRecOn generalizing a with
  | nil => exact h.extremum_eq hP' (by simp) (by simpa using h.refl ha)
  | append_singleton l c ih =>
    have hPl : ∀ b ∈ l, P b := fun b hb => hP b (List.mem_append_left _ hb)
    -- the shorter list has an extreme element
    obtain ⟨m, hm⟩ : ∃ m, extremum le (l ++ [c]) = some m := by
      rw [ih hPl (hP c (by simp)) hP]
      cases extremum le l with
      | none => exact ⟨c, rfl⟩
      | some b => by_cases hb : le b c = true <;> simp [hb]
    obtain ⟨hmem, hmle⟩ := extremum_mem hm
    have hPm := hP m hmem
    rw [hm]
    by_cases hma : le m a = true
    · simp only [hma, if_true]
      refine h.extremum_eq hP' (List.mem_append_left _ hmem) fun b hb => ?_
      rcases List.mem_append.mp hb with hb | hb
      · exact hmle b hb
      · exact List.mem_singleton.mp hb ▸ hma
    · simp only [hma, Bool.false_eq_true, if_false]
      have ham : le a m = true := (h.total a m ha hPm).resolve_right hma
      refine h.extremum_eq hP' (by simp) fun b hb => ?_
      rcases List.mem_append.mp hb with hb | hb
      · exact h.trans a m b ha hPm (hP b hb) ham (hmle b hb)
      · rw [List.mem_singleton.mp hb]
        exact h.refl ha

/-- Only the elements of the list matter. -/
theorem OrderOn.extremum_congr (h : OrderOn P le) {l l' : List α} (hP : ∀ a ∈ l, P a)
    (hl : ∀ a, a ∈ l ↔ a ∈ l') : extremum le l = extremum le l' := by
  cases hf : extremum le l with
  | some a =>
    obtain ⟨ha, hle⟩ := extremum_mem hf
    exact (h.extremum_eq (fun b hb => hP b ((hl b).mpr hb)) ((hl a).mp ha)
      fun b hb => hle b ((hl b).mpr hb)).symm
  | none =>
    cases hf' : extremum le l' with
    | none => rfl
    | some a =>
      obtain ⟨ha, hle⟩ := extremum_mem hf'
      rw [h.extremum_eq hP ((hl a).mpr ha) fun b hb => hle b ((hl b).mp hb)] at hf
      cases hf

end Ciphra
