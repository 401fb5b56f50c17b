import Mathlib.Data.List.Induction
import Mathlib.Logic.Function.Basic

/-!
# Arrays of a fixed length

Reading an array that was tabulated or written to. A loop that writes to different places leaves at
each of them what it wrote there.
-/

namespace Ciphra

variable {α ι : Type} {n : ℕ}

@[simp] theorem get_ofFn (f : Fin n → α) (i : Fin n) : (Vector.ofFn f).get i = f i :=
  Vector.getElem_ofFn i.isLt

theorem get_set_self (v : Vector α n) (i : Fin n) (x : α) : (v.set i x i.isLt).get i = x :=
  Vector.getElem_set_self i.isLt

theorem get_set_of_ne (v : Vector α n) {i j : Fin n} (x : α) (h : i ≠ j) :
    (v.set i x i.isLt).get j = v.get j :=
  Vector.getElem_set_ne i.isLt j.isLt fun he => h (Fin.ext he)

/-- Arrays with the same elements are the same. -/
theorem ext_get {v w : Vector α n} (h : ∀ i, v.get i = w.get i) : v = w :=
  Vector.ext fun i hi => h ⟨i, hi⟩

/-- Writing to different places one after the other. -/
theorem get_foldl_set {g : ι → Fin n} {x : ι → α} (hg : Function.Injective g) {l : List ι}
    (v : Vector α n) {p : ι} (hp : p ∈ l) :
    (l.foldl (fun v q => v.set (g q) (x q) (g q).isLt) v).get (g p) = x p := by
  induction l using List.reverseRecOn with
  | nil => exact absurd hp List.not_mem_nil
  | append_singleton l q ih =>
    rw [List.foldl_append, List.foldl_cons, List.foldl_nil]
    by_cases hqp : q = p
    · rw [hqp, get_set_self]
    · have hmem : p ∈ l := by
        rcases List.mem_append.mp hp with hl | hq
        · exact hl
        · exact absurd (List.mem_singleton.mp hq).symm hqp
      rw [get_set_of_ne _ _ fun h => hqp (hg h), ih hmem]

end Ciphra
