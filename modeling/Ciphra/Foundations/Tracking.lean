import Mathlib.Tactic

/-!
# Lists that track a partial function

A list of pairs `(b, i)` tracks a partial function when it has one pair for every argument at which
the function is defined, and the value in the pair stands in a given relation to the value of the
function. The list is an index over the function: moving the function moves the list by dropping
one pair (`Tracks.remove`) or adding one (`Tracks.add`), whatever order the list is kept in
(`Tracks.perm`). `assignAll` moves a function at several arguments.
-/

namespace Ciphra

variable {ι α : Type} {r : α → α → Prop} {f : ι → Option α} {l : List (α × ι)}

/-- The list has one pair for every `i` with `f i = some a`, of a value related to `a`. -/
structure Tracks (r : α → α → Prop) (f : ι → Option α) (l : List (α × ι)) : Prop where
  nodup : (l.map Prod.snd).Nodup
  sound : ∀ b i, (b, i) ∈ l → ∃ a, f i = some a ∧ r b a
  complete : ∀ i a, f i = some a → ∃ b, (b, i) ∈ l

namespace Tracks

theorem nil : Tracks r (fun _ : ι => none) [] where
  nodup := List.nodup_nil
  sound b i hb := by cases hb
  complete i a ha := by cases ha

/-- The arguments at which the function is defined are those in the list. -/
theorem mem_map_snd (h : Tracks r f l) {i : ι} : i ∈ l.map Prod.snd ↔ f i ≠ none := by
  rw [List.mem_map, Option.ne_none_iff_exists']
  constructor
  · rintro ⟨⟨b, i⟩, hmem, rfl⟩
    obtain ⟨a, ha, -⟩ := h.sound b i hmem
    exact ⟨a, ha⟩
  · rintro ⟨a, ha⟩
    obtain ⟨b, hb⟩ := h.complete i a ha
    exact ⟨(b, i), hb, rfl⟩

theorem perm {l' : List (α × ι)} (h : Tracks r f l) (hp : l'.Perm l) : Tracks r f l' where
  nodup := (hp.map _).nodup_iff.mpr h.nodup
  sound b i hb := h.sound b i (hp.mem_iff.mp hb)
  complete i a ha := by
    obtain ⟨b, hb⟩ := h.complete i a ha
    exact ⟨b, hp.mem_iff.mpr hb⟩

/-- Two lists that track the same function have the same length: each has one pair for every
argument at which the function is defined. -/
theorem length_eq {r' : α → α → Prop} {l' : List (α × ι)} (h : Tracks r f l)
    (h' : Tracks r' f l') : l.length = l'.length := by
  have hperm : (l.map Prod.snd).Perm (l'.map Prod.snd) := by
    refine (List.perm_ext_iff_of_nodup h.nodup h'.nodup).mpr fun i => ?_
    rw [h.mem_map_snd, h'.mem_map_snd]
  simpa using hperm.length_eq

/-- With equality as the relation, the list is the graph of the function. -/
theorem mem_iff (h : Tracks r f l) (hr : ∀ b a, r b a → b = a) {a : α} {i : ι} :
    (a, i) ∈ l ↔ f i = some a := by
  constructor
  · intro hmem
    obtain ⟨a', ha', hra⟩ := h.sound a i hmem
    rw [ha', hr a a' hra]
  · intro ha
    obtain ⟨b, hb⟩ := h.complete i a ha
    obtain ⟨a', ha', hra⟩ := h.sound b i hb
    rw [ha] at ha'
    cases ha'
    rw [← hr b a hra]
    exact hb

/-- The function may move within the relation. -/
theorem congr {g : ι → Option α} (h : Tracks r f l)
    (hg : ∀ i, f i = none ∧ g i = none ∨
      ∃ a a', f i = some a ∧ g i = some a' ∧ ∀ b, (b, i) ∈ l → r b a → r b a') :
    Tracks r g l where
  nodup := h.nodup
  sound b i hb := by
    obtain ⟨a, ha, hra⟩ := h.sound b i hb
    rcases hg i with ⟨hf, -⟩ | ⟨a₁, a', hf, hg, hr⟩
    · rw [ha] at hf
      cases hf
    · rw [ha] at hf
      cases hf
      exact ⟨a', hg, hr b hb hra⟩
  complete i a ha := by
    rcases hg i with ⟨-, hg⟩ | ⟨a₁, a', hf, -, -⟩
    · rw [ha] at hg
      cases hg
    · exact h.complete i a₁ hf

variable [DecidableEq ι]

/-- A value leaves the function, its pair leaves the list. -/
theorem remove (h : Tracks r f l) {i : ι} {a : α} (ha : f i = some a) {p : α × ι → Bool}
    (hp : ∀ b, r b a → p (b, i) = false) (hother : ∀ b j, j ≠ i → p (b, j) = true) :
    Tracks r (Function.update f i none) (l.filter p) where
  nodup := h.nodup.sublist ((List.filter_sublist).map _)
  sound b j hb := by
    obtain ⟨hmem, hpb⟩ := List.mem_filter.mp hb
    obtain ⟨a', ha', hra⟩ := h.sound b j hmem
    have hj : j ≠ i := by
      rintro rfl
      rw [ha] at ha'
      cases ha'
      rw [hp b hra] at hpb
      cases hpb
    exact ⟨a', by rw [Function.update_of_ne hj, ha'], hra⟩
  complete j a' ha' := by
    have hj : j ≠ i := by
      rintro rfl
      rw [Function.update_self] at ha'
      cases ha'
    rw [Function.update_of_ne hj] at ha'
    obtain ⟨b, hb⟩ := h.complete j a' ha'
    exact ⟨b, List.mem_filter.mpr ⟨hb, hother b j hj⟩⟩

/-- A value enters the function, a pair enters the list. -/
theorem add (h : Tracks r f l) {i : ι} (hi : f i = none) {a : α} (ha : r a a) :
    Tracks r (Function.update f i (some a)) (l ++ [(a, i)]) where
  nodup := by
    rw [List.map_append, List.nodup_append]
    refine ⟨h.nodup, List.nodup_singleton _, ?_⟩
    rintro j hj j' hj' rfl
    obtain ⟨⟨b, k⟩, hmem, rfl⟩ := List.mem_map.mp hj
    obtain rfl : k = i := List.mem_singleton.mp hj'
    obtain ⟨a', ha', -⟩ := h.sound b k hmem
    rw [hi] at ha'
    cases ha'
  sound b j hb := by
    rcases List.mem_append.mp hb with hb | hb
    · obtain ⟨a', ha', hra⟩ := h.sound b j hb
      have hj : j ≠ i := by
        rintro rfl
        rw [hi] at ha'
        cases ha'
      exact ⟨a', by rw [Function.update_of_ne hj, ha'], hra⟩
    · cases List.mem_singleton.mp hb
      exact ⟨a, Function.update_self .., ha⟩
  complete j a' ha' := by
    by_cases hj : j = i
    · subst hj
      exact ⟨a, List.mem_append_right _ (List.mem_singleton.mpr rfl)⟩
    · rw [Function.update_of_ne hj] at ha'
      obtain ⟨b, hb⟩ := h.complete j a' ha'
      exact ⟨b, List.mem_append_left _ hb⟩

end Tracks

/-! ## Functions changed at several arguments -/

section

variable {β : Type} [DecidableEq ι] {g : ι → β} {cs : List (ι × β)}

/-- The function with new values at the listed arguments. -/
def assignAll (g : ι → β) (cs : List (ι × β)) : ι → β :=
  cs.foldl (fun g c => Function.update g c.1 c.2) g

@[simp] theorem assignAll_nil (g : ι → β) : assignAll g [] = g := rfl

@[simp] theorem assignAll_cons (g : ι → β) (c : ι × β) (cs : List (ι × β)) :
    assignAll g (c :: cs) = assignAll (Function.update g c.1 c.2) cs := rfl

theorem assignAll_of_notMem {i : ι} (h : ∀ c ∈ cs, c.1 ≠ i) : assignAll g cs i = g i := by
  induction cs generalizing g with
  | nil => rfl
  | cons c cs ih =>
    rw [assignAll_cons, ih fun c' hc' => h c' (List.mem_cons_of_mem _ hc'),
      Function.update_of_ne (h c List.mem_cons_self).symm]

theorem assignAll_of_mem (hn : (cs.map Prod.fst).Nodup) {c : ι × β} (h : c ∈ cs) :
    assignAll g cs c.1 = c.2 := by
  induction cs generalizing g with
  | nil => cases h
  | cons d cs ih =>
    rw [List.map_cons, List.nodup_cons] at hn
    rw [assignAll_cons]
    rcases List.mem_cons.mp h with rfl | h
    · rw [assignAll_of_notMem, Function.update_self]
      rintro c' hc' heq
      exact hn.1 (heq ▸ List.mem_map_of_mem hc')
    · exact ih hn.2 h

/-- A function that has the new values where they are listed, and the old ones elsewhere. -/
theorem eq_assignAll (hn : (cs.map Prod.fst).Nodup) {g' : ι → β} (hmem : ∀ c ∈ cs, g' c.1 = c.2)
    (hother : ∀ i, (∀ c ∈ cs, c.1 ≠ i) → g' i = g i) : g' = assignAll g cs := by
  funext i
  by_cases hi : ∃ c ∈ cs, c.1 = i
  · obtain ⟨c, hc, rfl⟩ := hi
    rw [hmem c hc, assignAll_of_mem hn hc]
  · have hi : ∀ c ∈ cs, c.1 ≠ i := fun c hc heq => hi ⟨c, hc, heq⟩
    rw [hother i hi, assignAll_of_notMem hi]

end

end Ciphra
