import Mathlib.Tactic

/-!
# Hash trees over a list

A hash tree joins neighbours level by level until one digest is left; a lone digest at the end of a
level is promoted unchanged. The prover walks over the stored levels (`path`), the verifier only
over a position and a size (`walk`). `walk_path` says that the verifier consumes exactly what the
prover emits and ends at the root. `mem_of_walk` is the converse for a verifier whose siblings are
chosen by anyone: a set of digests that no join enters from outside is not entered by a walk.
-/

namespace Ciphra

namespace Merkle

variable {D : Type} (node : D → D → D)

/-- The level above: neighbours are joined, a lone digest is promoted. -/
def nextLevel : List D → List D
  | [] => []
  | [a] => [a]
  | a :: b :: rest => node a b :: nextLevel rest

theorem length_nextLevel (l : List D) : (nextLevel node l).length = (l.length + 1) / 2 := by
  fun_induction nextLevel node l with
  | case1 => simp
  | case2 a => simp
  | case3 a b rest ih =>
    simp only [List.length_cons, ih]
    omega

/-- All levels, from the given one up to the first that has at most one digest. -/
def levels (l : List D) : List (List D) :=
  l :: if 1 < l.length then levels (nextLevel node l) else []
termination_by l.length
decreasing_by
  rw [length_nextLevel]
  omega

theorem levels_of_le {l : List D} (h : l.length ≤ 1) : levels node l = [l] := by
  rw [levels, if_neg (by omega)]

theorem levels_of_lt {l : List D} (h : 1 < l.length) :
    levels node l = l :: levels node (nextLevel node l) := by
  rw [levels, if_pos h]

theorem levels_ne_nil (l : List D) : levels node l ≠ [] := by
  rw [levels]
  exact List.cons_ne_nil _ _

/-- The root over a non-empty list. -/
def root (a : D) (l : List D) : D := ((levels node (a :: l)).getLastD []).headD a

/-- The sibling of a position on its level: the digest before an odd one, after an even one. -/
def sibling (level : List D) (pos : ℕ) : List D :=
  if pos % 2 = 1 then level[pos - 1]?.toList
  else if pos + 1 < level.length then level[pos + 1]?.toList
  else []

/-- The siblings on the way up from a position, one for each level but a promotion has none. -/
def path : List (List D) → ℕ → List D
  | [], _ => []
  | level :: rest, pos => sibling level pos ++ path rest (pos / 2)

/-- The verifier's walk from a position in a level of the given size: the digest it ends at and the
siblings it has not consumed. -/
def walk (pos size : ℕ) (hash : D) (siblings : List D) : Option (D × List D) :=
  if 1 < size then
    if pos % 2 = 1 then
      match siblings with
      | [] => none
      | s :: rest => walk (pos / 2) ((size + 1) / 2) (node s hash) rest
    else if pos + 1 < size then
      match siblings with
      | [] => none
      | s :: rest => walk (pos / 2) ((size + 1) / 2) (node hash s) rest
    else walk (pos / 2) ((size + 1) / 2) hash siblings
  else some (hash, siblings)
termination_by size

/-! ## Completeness -/

/-- A digest of the level above is a join or a promotion. -/
theorem getElem?_nextLevel (l : List D) (i : ℕ) :
    (nextLevel node l)[i]? =
      match l[2 * i]?, l[2 * i + 1]? with
      | some a, some b => some (node a b)
      | x, none => x
      | none, some _ => none := by
  induction l using nextLevel.induct generalizing i with
  | case1 => simp [nextLevel]
  | case2 a =>
    rw [nextLevel]
    cases i with
    | zero => rfl
    | succ i => simp [show 2 * (i + 1) = 2 * i + 1 + 1 by omega]
  | case3 a b rest ih =>
    rw [nextLevel]
    cases i with
    | zero => rfl
    | succ i =>
      rw [List.getElem?_cons_succ, ih, show 2 * (i + 1) = 2 * i + 1 + 1 by omega,
        List.getElem?_cons_succ, List.getElem?_cons_succ, List.getElem?_cons_succ,
        List.getElem?_cons_succ]

/-- One level of the verifier's walk mirrors one level of the prover's. -/
theorem walk_sibling {l : List D} {pos : ℕ} {hash : D} (hlen : 1 < l.length)
    (hpos : l[pos]? = some hash) (rest : List D) :
    ∃ hash', (nextLevel node l)[pos / 2]? = some hash' ∧
      walk node pos l.length hash (sibling l pos ++ rest) =
        walk node (pos / 2) (nextLevel node l).length hash' rest := by
  obtain ⟨hlt, -⟩ := List.getElem?_eq_some_iff.mp hpos
  have hnext := getElem?_nextLevel node l (pos / 2)
  rw [length_nextLevel]
  rcases Nat.mod_two_eq_zero_or_one pos with hmod | hmod
  · rw [show 2 * (pos / 2) = pos by omega, hpos] at hnext
    by_cases hsib : pos + 1 < l.length
    · have hs : l[pos + 1]? = some l[pos + 1] := List.getElem?_eq_getElem hsib
      rw [hs] at hnext
      refine ⟨_, hnext, ?_⟩
      rw [walk.eq_def, if_pos hlen, if_neg (by omega), if_pos hsib, sibling, if_neg (by omega),
        if_pos hsib, hs]
      rfl
    · have hs : l[pos + 1]? = none := List.getElem?_eq_none (by omega)
      rw [hs] at hnext
      refine ⟨_, hnext, ?_⟩
      rw [walk.eq_def, if_pos hlen, if_neg (by omega), if_neg hsib, sibling, if_neg (by omega),
        if_neg hsib]
      rfl
  · have hs : l[pos - 1]? = some l[pos - 1] := List.getElem?_eq_getElem (by omega)
    rw [show 2 * (pos / 2) = pos - 1 by omega, show pos - 1 + 1 = pos by omega, hpos, hs] at hnext
    refine ⟨_, hnext, ?_⟩
    rw [walk.eq_def, if_pos hlen, if_pos hmod, sibling, if_pos hmod, hs]
    rfl

/-- **The verifier consumes what the prover emits and ends at the root.** -/
theorem walk_path {l : List D} {pos : ℕ} {hash : D} (hpos : l[pos]? = some hash) (d : D)
    (rest : List D) :
    walk node pos l.length hash (path (levels node l).dropLast pos ++ rest) =
      some (((levels node l).getLastD []).headD d, rest) := by
  induction hn : l.length using Nat.strong_induction_on generalizing l pos hash with
  | _ n ih =>
    subst hn
    by_cases hlen : 1 < l.length
    · obtain ⟨hash', hpos', hwalk⟩ := walk_sibling node hlen hpos
        (path (levels node (nextLevel node l)).dropLast (pos / 2) ++ rest)
      have hshort : (nextLevel node l).length < l.length := by
        rw [length_nextLevel]
        omega
      rw [levels_of_lt node hlen, List.dropLast_cons_of_ne_nil (levels_ne_nil node _), path,
        List.append_assoc, hwalk, ih _ hshort hpos' rfl]
      obtain ⟨x, xs, hx⟩ := List.exists_cons_of_ne_nil (levels_ne_nil node (nextLevel node l))
      rw [hx]
      rfl
    · obtain ⟨hlt, -⟩ := List.getElem?_eq_some_iff.mp hpos
      match l, pos, hpos with
      | [a], 0, hpos =>
        obtain rfl : a = hash := by simpa using hpos
        rw [levels_of_le node (by simp), walk.eq_def, if_neg (by simp)]
        rfl
      | [a], p + 1, hpos => simp at hpos
      | [], _, hpos => simp at hpos
      | a :: b :: l, _, _ => simp at hlen

/-! ## Soundness -/

/-- The pairs that are joined into the level above. -/
def joins : List D → List (D × D)
  | [] => []
  | [_] => []
  | a :: b :: rest => (a, b) :: joins rest

/-- The pairs that are joined in the whole tree. -/
def treeJoins (l : List D) : List (D × D) := (levels node l).flatMap joins

/-- The pairs that a walk joins. -/
def walkJoins (pos size : ℕ) (hash : D) (siblings : List D) : List (D × D) :=
  if 1 < size then
    if pos % 2 = 1 then
      match siblings with
      | [] => []
      | s :: rest => (s, hash) :: walkJoins (pos / 2) ((size + 1) / 2) (node s hash) rest
    else if pos + 1 < size then
      match siblings with
      | [] => []
      | s :: rest => (hash, s) :: walkJoins (pos / 2) ((size + 1) / 2) (node hash s) rest
    else walkJoins (pos / 2) ((size + 1) / 2) hash siblings
  else []
termination_by size

/-- The digests of the whole tree. -/
def Digest (l : List D) (d : D) : Prop := ∃ level ∈ levels node l, d ∈ level

theorem mem_joins {l : List D} {p : D × D} (h : p ∈ joins l) : p.1 ∈ l ∧ p.2 ∈ l := by
  fun_induction joins l with
  | case1 => cases h
  | case2 a => cases h
  | case3 a b rest ih =>
    rcases List.mem_cons.mp h with rfl | h
    · simp
    · exact ⟨by simp [(ih h).1], by simp [(ih h).2]⟩

theorem mem_nextLevel {l : List D} {d : D} (h : d ∈ nextLevel node l) :
    d ∈ l ∨ ∃ p ∈ joins l, d = node p.1 p.2 := by
  fun_induction nextLevel node l with
  | case1 => cases h
  | case2 a => exact Or.inl h
  | case3 a b rest ih =>
    rcases List.mem_cons.mp h with rfl | h
    · exact Or.inr ⟨(a, b), by simp [joins], rfl⟩
    · rcases ih h with h | ⟨p, hp, rfl⟩
      · exact Or.inl (by simp [h])
      · exact Or.inr ⟨p, by simp [joins, hp], rfl⟩

/-- A digest of a tree is a leaf or the join of two digests of the tree. -/
theorem Digest.cases {l : List D} {d : D} (h : Digest node l d) :
    d ∈ l ∨ ∃ p ∈ treeJoins node l, d = node p.1 p.2 ∧ Digest node l p.1 ∧ Digest node l p.2 := by
  induction hn : l.length using Nat.strong_induction_on generalizing l with
  | _ n ih =>
    subst hn
    obtain ⟨level, hlevel, hd⟩ := h
    by_cases hlen : 1 < l.length
    · rw [levels_of_lt node hlen] at hlevel
      have hup : ∀ {x}, Digest node (nextLevel node l) x → Digest node l x := by
        rintro x ⟨m, hm, hx⟩
        exact ⟨m, by rw [levels_of_lt node hlen]; exact List.mem_cons_of_mem _ hm, hx⟩
      have hself : ∀ {x}, x ∈ l → Digest node l x := fun hx =>
        ⟨l, by rw [levels_of_lt node hlen]; exact List.mem_cons_self, hx⟩
      have hjoins : ∀ {p}, p ∈ treeJoins node (nextLevel node l) → p ∈ treeJoins node l := by
        intro p hp
        rw [treeJoins, levels_of_lt node hlen, List.flatMap_cons]
        exact List.mem_append_right _ hp
      rcases List.mem_cons.mp hlevel with rfl | hlevel
      · exact Or.inl hd
      · have hshort : (nextLevel node l).length < l.length := by
          rw [length_nextLevel]
          omega
        rcases ih _ hshort ⟨level, hlevel, hd⟩ rfl with hmem | ⟨p, hp, rfl, h1, h2⟩
        · rcases mem_nextLevel node hmem with hmem | ⟨p, hp, rfl⟩
          · exact Or.inl hmem
          · refine Or.inr ⟨p, ?_, rfl, hself (mem_joins hp).1, hself (mem_joins hp).2⟩
            rw [treeJoins, levels_of_lt node hlen, List.flatMap_cons]
            exact List.mem_append_left _ hp
        · exact Or.inr ⟨p, hjoins hp, rfl, hup h1, hup h2⟩
    · rw [levels_of_le node (by omega), List.mem_singleton] at hlevel
      exact Or.inl (hlevel ▸ hd)

/-- The root is a digest of the tree. -/
theorem digest_root (a : D) (l : List D) : Digest node (a :: l) (root node a l) := by
  have hne := levels_ne_nil node (a :: l)
  have hlast : (levels node (a :: l)).getLastD [] = (levels node (a :: l)).getLast hne := by
    rw [List.getLastD_eq_getLast?, List.getLast?_eq_some_getLast hne]
    rfl
  refine ⟨(levels node (a :: l)).getLast hne, List.getLast_mem hne, ?_⟩
  rw [root, hlast]
  suffices h : ∀ n (m : List D), m.length = n → m ≠ [] → (levels node m).getLast
      (levels_ne_nil node m) ≠ [] by
    obtain ⟨x, xs, hx⟩ := List.exists_cons_of_ne_nil (h _ (a :: l) rfl (List.cons_ne_nil _ _))
    rw [hx]
    exact List.mem_cons_self
  intro n
  induction n using Nat.strong_induction_on with
  | _ n ih =>
    rintro m rfl hm
    by_cases hlen : 1 < m.length
    · have hshort : (nextLevel node m).length < m.length := by
        rw [length_nextLevel]
        omega
      have hnext : nextLevel node m ≠ [] := by
        apply List.ne_nil_of_length_pos
        rw [length_nextLevel]
        omega
      have := ih _ hshort _ rfl hnext
      simpa only [levels_of_lt node hlen, List.getLast_cons (levels_ne_nil node _)] using this
    · simpa only [levels_of_le node (show m.length ≤ 1 by omega), List.getLast_singleton] using hm

/-- A walk ends at the digest it starts from or at a join it has made. -/
theorem walk_eq_some {pos size : ℕ} {hash : D} {siblings : List D} {d : D} {rest : List D}
    (h : walk node pos size hash siblings = some (d, rest)) :
    d = hash ∨ ∃ p ∈ walkJoins node pos size hash siblings, d = node p.1 p.2 := by
  fun_induction walk node pos size hash siblings with
  | case1 => cases h
  | case2 pos size hash hsize hodd s siblings ih =>
    rw [walkJoins.eq_def, if_pos hsize, if_pos hodd]
    rcases ih h with rfl | ⟨p, hp, rfl⟩
    · exact Or.inr ⟨(s, hash), List.mem_cons_self, rfl⟩
    · exact Or.inr ⟨p, List.mem_cons_of_mem _ hp, rfl⟩
  | case3 => cases h
  | case4 pos size hash hsize heven hlt s siblings ih =>
    rw [walkJoins.eq_def, if_pos hsize, if_neg heven, if_pos hlt]
    rcases ih h with rfl | ⟨p, hp, rfl⟩
    · exact Or.inr ⟨(hash, s), List.mem_cons_self, rfl⟩
    · exact Or.inr ⟨p, List.mem_cons_of_mem _ hp, rfl⟩
  | case5 pos size hash siblings hsize heven hlone ih =>
    rw [walkJoins.eq_def, if_pos hsize, if_neg heven, if_neg hlone]
    exact ih h
  | case6 => exact Or.inl (by cases h; rfl)

/-- **A walk that ends in a set has started in it**, when the joins of the walk that lie in the set
come from the set. -/
theorem mem_of_walk {S : D → Prop} {pos size : ℕ} {hash : D} {siblings : List D} {d : D}
    {rest : List D} (h : walk node pos size hash siblings = some (d, rest)) (hd : S d)
    (hS : ∀ p ∈ walkJoins node pos size hash siblings, S (node p.1 p.2) → S p.1 ∧ S p.2) :
    S hash := by
  fun_induction walk node pos size hash siblings with
  | case1 => cases h
  | case2 pos size hash hsize hodd s siblings ih =>
    rw [walkJoins.eq_def, if_pos hsize, if_pos hodd] at hS
    exact (hS (s, hash) List.mem_cons_self
      (ih h fun p hp => hS p (List.mem_cons_of_mem _ hp))).2
  | case3 => cases h
  | case4 pos size hash hsize heven hlt s siblings ih =>
    rw [walkJoins.eq_def, if_pos hsize, if_neg heven, if_pos hlt] at hS
    exact (hS (hash, s) List.mem_cons_self
      (ih h fun p hp => hS p (List.mem_cons_of_mem _ hp))).1
  | case5 pos size hash siblings hsize heven hlone ih =>
    rw [walkJoins.eq_def, if_pos hsize, if_neg heven, if_neg hlone] at hS
    exact ih h hS
  | case6 =>
    cases h
    exact hd

end Merkle

end Ciphra
