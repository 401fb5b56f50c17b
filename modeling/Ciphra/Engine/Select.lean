import Ciphra.Engine.Grouping
import Ciphra.Engine.Session
import Ciphra.Sql.Printed

/-!
# The whole `SELECT`

`selectQuery` starts from the rows that the predicate selects. A projection with items takes the
aggregate path, and the others the plain path, which does not look at `HAVING`.

The rows it reads were decoded, so their texts are shorter than `2 ^ 32` bytes, and the encoded keys
of the aggregate path tell its groups apart (`aggregate_correct`).

What a `HAVING` says of a group is stated on the rows of the group (`havingTruth`), without the
compiled form and its accumulators. `aggregate_from_true_groups` connects the two.
-/

namespace Ciphra

variable (C : Crypto) (mk : C.MasterKey) (F : Floats)

/-! ## The rows of a query -/

section

open Query (Ensures)

variable {C mk} {ok : Reader Bytes Bytes → Prop} (t : String)

/-- A row that was decoded fits the fields it was decoded from. -/
theorem rowFits_of_readRow {key sealed : Bytes} {row : Row}
    (h : readRow C mk t key sealed = .ok row) : RowFits row := by
  obtain ⟨plain, -, hrow⟩ := bind_eq_ok.mp h
  exact (decodeRow_eq_ok hrow).2

theorem ensures_scanRows :
    Ensures ok (scanRows C mk t) fun rows => ∀ e ∈ rows, RowFits e.2 := by
  refine Ensures.bind' fun pairs => Ensures.mapM fun e _ => ?_
  rintro r - out hout
  rw [Query.run_ofExcept] at hout
  obtain ⟨row, hrow, hout⟩ := bind_eq_ok.mp hout
  cases hout
  exact rowFits_of_readRow t hrow

theorem ensures_fetchRows (ids : List UInt64) :
    Ensures ok (fetchRows C mk t ids) fun rows => ∀ e ∈ rows, RowFits e.2 := by
  refine Ensures.bind (P := fun rows => ∀ r ∈ rows, ∀ e ∈ r, RowFits e.2) ?_ fun rows hrows => ?_
  · refine Ensures.mapM fun id _ => Ensures.bind' fun found => ?_
    cases found with
    | none => exact Ensures.pure (by simp)
    | some sealed =>
      refine Ensures.bind (P := RowFits) ?_ fun row hrow => Ensures.pure ?_
      · rintro r - row hrow
        exact rowFits_of_readRow t ((Query.run_ofExcept _).symm.trans hrow)
      · rintro e ⟨⟩
        exact hrow
  · refine Ensures.pure fun e he => ?_
    obtain ⟨r, hr, he⟩ := List.mem_filterMap.mp he
    exact hrows r hr e he

/-- Whatever the store holds, the rows that a statement works on fit the fields they came from. -/
theorem rowFits_matchingRows {s : TableSchema} {filter : Option CompiledExpr}
    {r : Reader Bytes Bytes} {found : List (Bytes × Row)}
    (h : (matchingRows C mk t s filter).run r = .ok found) : ∀ e ∈ found, RowFits e.2 := by
  have hensures : Ensures (fun _ => True) (matchingRows C mk t s filter)
      fun rows => ∀ e ∈ rows, RowFits e.2 :=
    ensures_matchingRows (ensures_scanRows t) (ensures_fetchRows t) s filter
  exact hensures r trivial found h

theorem fits_keyOf {schema : TableSchema} (groupBy : List String) {row : Row}
    (h : ∀ v ∈ row, v.Fits) : ∀ v ∈ schema.keyOf groupBy row, v.Fits := by
  intro v hv
  obtain ⟨i, -, rfl⟩ := List.mem_map.mp hv
  rw [Row.cell, List.getD_eq_getElem?_getD]
  cases hget : row[i]? with
  | none => trivial
  | some v => exact h v (List.mem_of_getElem? hget)

end

/-- **Aggregates are correct.** Every admissible aggregate query is answered correctly on rows of the
schema whose values fit the fields of a stored row; and such are the rows that `SELECT` reads and
hands to `aggregate`, whatever the store holds and whichever way they are found. -/
theorem aggregate_correct (table : String) {schema : TableSchema} {items : List SelectItem}
    {groupBy : List String} {having : Option HavingExpr}
    (hadm : Admissible schema items groupBy having) :
    (∀ rows : List Row, (∀ r ∈ rows, RowOf schema r ∧ ∀ v ∈ r, v.Fits) →
      AggregateCorrect F schema table items groupBy having rows) ∧
    ∀ filter (r : Reader Bytes Bytes) found,
      (matchingRows C mk table schema filter).run r = .ok found →
        (∀ e ∈ found, ∀ v ∈ e.2, v.Fits) ∧
          ((∀ e ∈ found, RowOf schema e.2) →
            AggregateCorrect F schema table items groupBy having (found.map Prod.snd)) := by
  have hcorrect : ∀ rows : List Row, (∀ r ∈ rows, RowOf schema r ∧ ∀ v ∈ r, v.Fits) →
      AggregateCorrect F schema table items groupBy having rows := fun rows hrows =>
    aggregateCorrect_of_apart hadm (fun r hr => (hrows r hr).1)
      (keysApart_of_fits fun r hr => fits_keyOf groupBy (hrows r hr).2)
  refine ⟨hcorrect, fun filter r found hfound => ?_⟩
  have hfits := rowFits_matchingRows table hfound
  refine ⟨fun e he => (hfits e he).values, fun hof => hcorrect _ fun row hrow => ?_⟩
  obtain ⟨e, he, rfl⟩ := List.mem_map.mp hrow
  exact ⟨hof e he, (hfits e he).values⟩

/-- `CREATE TABLE t (a TEXT, b TEXT); INSERT INTO t VALUES ('x', 'y'), ('z', 'y'), ('x', NULL)`. -/
def pairSteps : List (Step Crypto.clear) :=
  [.statement Session.clearEnv (.createTable "t" pairSchema.columns),
    .statement Session.clearEnv (.insert "t" none
      [[.text "x", .text "y"], [.text "z", .text "y"], [.text "x", .null]])]

/-- `COUNT(b)` and `MAX(b)` by `a`, for the groups of more than one row. -/
theorem aggregate_correct_pairs :
    let r := (pairSteps.foldl Session.step Session.clearSession).engine.store.reader
    let rows : List Row := [[.text "x", .text "y"], [.text "z", .text "y"], [.text "x", .null]]
    let items : List SelectItem :=
      [.column "a", .aggregate .count (.column "b"), .aggregate .max (.column "b")]
    let many : HavingExpr := .compare (.aggregate .count .star) .gt (.int 1)
    (∃ found, (matchingRows Crypto.clear () "t" pairSchema none).run r = .ok found ∧
      found.map Prod.snd = rows) ∧
    AggregateCorrect noFloats pairSchema "t" items ["a"] (some many) rows := by
  intro r rows items many
  have hadm : Admissible pairSchema items ["a"] (some many) := by
    refine ⟨fun n hn => ?_, fun item hitem => ?_, fun e he => ?_⟩
    · rw [List.mem_singleton.mp hn]
      exact ⟨0, _, rfl, rfl⟩
    · simp only [items, List.mem_cons, List.not_mem_nil, or_false] at hitem
      rcases hitem with rfl | rfl | rfl
      · exact List.mem_singleton_self _
      · exact ⟨1, _, rfl, rfl, trivial⟩
      · exact ⟨1, _, rfl, rfl, by simp⟩
    · obtain rfl := Option.mem_some_iff.mp he
      exact (rfl : AggFunc.count = .count)
  have hread : ∃ found, (matchingRows Crypto.clear () "t" pairSchema none).run r = .ok found ∧
      found.map Prod.snd = rows :=
    ⟨_, show (matchingRows Crypto.clear () "t" pairSchema none).run r =
      .ok [(Crypto.clear.rowKey () "t" 0, [.text "x", .text "y"]),
        (Crypto.clear.rowKey () "t" 1, [.text "z", .text "y"]),
        (Crypto.clear.rowKey () "t" 2, [.text "x", .null])] by decide +kernel, rfl⟩
  refine ⟨hread, ?_⟩
  obtain ⟨found, hfound, hrows⟩ := hread
  have hof : ∀ e ∈ found, RowOf pairSchema e.2 := by
    intro e he
    have hmem : e.2 ∈ rows := hrows ▸ List.mem_map_of_mem he
    simp only [rows, List.mem_cons, List.not_mem_nil, or_false] at hmem
    rcases hmem with h | h | h <;> rw [h] <;> exact .cons trivial (.cons trivial .nil)
  rw [← hrows]
  exact ((aggregate_correct Crypto.clear () noFloats "t" hadm).2 none r found hfound).2 hof

/-! ## What `HAVING` says of a group -/

/-- The value of a plan for a group of rows with the given key. -/
def groupValue (key : Row) (rows : List Row) (plan : AggPlan) : Except EngineError Value := do
  let acc ← rows.foldlM (fun acc row => accumulate F row plan acc) (initAcc plan)
  finalizePlan F plan acc key

/-- The value of a projected item, or of an operand of `HAVING`, for a group. -/
def itemValue (schema : TableSchema) (table : String) (groupBy : List String) (key : Row)
    (rows : List Row) (item : SelectItem) : Except EngineError Value := do
  let plan ← resolveItem schema table groupBy item
  groupValue F key rows plan.1

/-- The truth of a `HAVING` predicate for a group. -/
def havingTruth (schema : TableSchema) (table : String) (groupBy : List String) (key : Row)
    (rows : List Row) : HavingExpr → Except EngineError (Option Bool)
  | .compare term op literal => do
    let v ← itemValue F schema table groupBy key rows term.item
    pure (compareHaving op v (literalToValue literal))
  | .not inner => do
    let a ← havingTruth schema table groupBy key rows inner
    pure (a.map fun b => !b)
  | .and a b => do
    let x ← havingTruth schema table groupBy key rows a
    let y ← havingTruth schema table groupBy key rows b
    pure (kleeneAnd x y)
  | .or a b => do
    let x ← havingTruth schema table groupBy key rows a
    let y ← havingTruth schema table groupBy key rows b
    pure (kleeneOr x y)

/-! ## Accumulators of a group -/

/-- The accumulators of a group. -/
def accsOf (plans : List AggPlan) (rows : List Row) : Except EngineError (List AggAcc) :=
  rows.foldlM (fun accs row => (plans.zip accs).mapM fun p => accumulate F row p.1 p.2)
    (plans.map initAcc)

variable {F}

/-- What the loop over the rows knows of its groups. -/
structure GroupsOf (F : Floats) (plans : List AggPlan) (groupIdx : List ℕ) (rows : List Row)
    (g : Groups) : Prop where
  index : g.index = (g.groups.map Prod.fst).zipIdx.map fun p => (encodeRow p.1, p.2)
  keys : KeysOf groupIdx rows (g.groups.map Prod.fst)
  accs : ∀ e ∈ g.groups, accsOf F plans (rowsAt groupIdx e.1 rows) = .ok e.2

theorem accsOf_concat (plans : List AggPlan) (rows : List Row) (row : Row) :
    accsOf F plans (rows ++ [row]) = accsOf F plans rows >>= fun accs =>
      (plans.zip accs).mapM fun p => accumulate F row p.1 p.2 := by
  rw [accsOf, List.foldlM_append]
  congr 1
  funext accs
  rw [List.foldlM_cons]
  exact bind_pure _

/-- The group of a row, old or new. -/
theorem GroupsOf.entry {plans : List AggPlan} {groupIdx : List ℕ} {rows : List Row} {g : Groups}
    (h : GroupsOf F plans groupIdx rows g) (key : Row) :
    ∃ i k accs, (g.entry plans key).1 = i ∧
      (g.entry plans key).2.groups[i]? = some (k, accs) ∧ encodeRow k = encodeRow key ∧
      (g.entry plans key).2.groups.map Prod.fst = addKey (g.groups.map Prod.fst) key ∧
      (g.entry plans key).2.index =
        ((addKey (g.groups.map Prod.fst) key).zipIdx.map fun p => (encodeRow p.1, p.2)) ∧
      ∀ e ∈ (g.entry plans key).2.groups, accsOf F plans (rowsAt groupIdx e.1 rows) = .ok e.2 := by
  have hlookup := lookup_zipIdx (g.groups.map Prod.fst) (encodeRow key) 0
  rw [← h.index] at hlookup
  cases hfind : (g.groups.map Prod.fst).findIdx? fun k => encodeRow k == encodeRow key with
  | some i =>
    obtain ⟨hlt, hi, -⟩ := List.findIdx?_eq_some_iff_getElem.mp hfind
    have hlt' : i < g.groups.length := by simpa using hlt
    have hk : encodeRow (g.groups.get ⟨i, hlt'⟩).1 = encodeRow key := by simpa using hi
    have hmem : encodeRow key ∈ (g.groups.map Prod.fst).map encodeRow :=
      List.mem_map.mpr ⟨_, List.mem_map_of_mem (List.get_mem g.groups ⟨i, hlt'⟩), hk⟩
    have hentry : g.entry plans key = (i, g) := by
      rw [Groups.entry, hlookup, hfind]
      rfl
    rw [hentry, addKey, if_pos hmem]
    exact ⟨i, (g.groups.get ⟨i, hlt'⟩).1, (g.groups.get ⟨i, hlt'⟩).2, rfl,
      List.getElem?_eq_getElem hlt', hk, rfl, h.index, h.accs⟩
  | none =>
    obtain ⟨hmem, hfresh⟩ := rowsAt_of_findIdx?_eq_none h.keys.complete hfind
    have hentry : g.entry plans key = (g.groups.length,
        ⟨g.groups ++ [(key, plans.map initAcc)], g.index ++ [(encodeRow key, g.groups.length)]⟩) := by
      rw [Groups.entry, hlookup, hfind]
      rfl
    rw [hentry, addKey, if_neg hmem]
    refine ⟨g.groups.length, key, plans.map initAcc, rfl, by simp, rfl, by simp, ?_, ?_⟩
    · rw [h.index]
      simp [List.zipIdx_append]
    · intro e he
      rcases List.mem_append.mp he with he | he
      · exact h.accs e he
      · rw [List.mem_singleton.mp he, hfresh]
        rfl

/-- One round of the loop. -/
theorem GroupsOf.addRow {plans : List AggPlan} {groupIdx : List ℕ} {rows : List Row}
    {g g' : Groups} (h : GroupsOf F plans groupIdx rows g) {row : Row}
    (hrow : g.addRow F plans groupIdx row = .ok g') :
    GroupsOf F plans groupIdx (rows ++ [row]) g' := by
  obtain ⟨i, k, accs, hi, hget, hk, hkeys, hindex, haccs⟩ := h.entry (groupIdx.map row.cell)
  set g₁ := (g.entry plans (groupIdx.map row.cell)).2
  have hunfold : g.addRow F plans groupIdx row =
      (plans.zip accs).mapM (fun p => accumulate F row p.1 p.2) >>= fun accs' =>
        .ok ⟨g₁.groups.set i (k, accs'), g₁.index⟩ := by
    have hentry : g.entry plans (groupIdx.map row.cell) = (i, g₁) := Prod.ext hi rfl
    rw [Groups.addRow, hentry]
    simp only [hget]
    rfl
  rw [hunfold] at hrow
  obtain ⟨accs', haccs', hg'⟩ := bind_eq_ok.mp hrow
  obtain rfl := Except.ok.inj hg'
  have hlt : i < g₁.groups.length := (List.getElem?_eq_some_iff.mp hget).1
  have hset : (g₁.groups.set i (k, accs')).map Prod.fst = g₁.groups.map Prod.fst := by
    apply List.ext_getElem?
    intro j
    rw [List.getElem?_map, List.getElem?_map, List.getElem?_set]
    by_cases hij : i = j
    · subst hij
      rw [if_pos rfl, if_pos hlt, hget]
      rfl
    · rw [if_neg hij]
  have hnodup : ((g₁.groups.map Prod.fst).map encodeRow).Nodup := by
    rw [hkeys]
    exact nodup_addKey h.keys.nodup _
  refine ⟨?_, ?_, ?_⟩
  · change g₁.index = _
    rw [hset, hindex, hkeys]
  · change KeysOf groupIdx (rows ++ [row]) ((g₁.groups.set i (k, accs')).map Prod.fst)
    rw [hset, hkeys]
    exact h.keys.addRow row
  · intro e he
    obtain ⟨j, hj⟩ := List.getElem?_of_mem he
    change (g₁.groups.set i (k, accs'))[j]? = some e at hj
    rw [List.getElem?_set] at hj
    by_cases hij : i = j
    · rw [if_pos hij, if_pos hlt] at hj
      obtain rfl := Option.some.inj hj
      rw [rowsAt_concat, if_pos hk.symm, accsOf_concat,
        haccs (k, accs) (List.mem_of_getElem? hget)]
      exact haccs'
    · rw [if_neg hij] at hj
      have hne : encodeRow (groupIdx.map row.cell) ≠ encodeRow e.1 := by
        intro heq
        apply hij
        have hlt' : i < ((g₁.groups.map Prod.fst).map encodeRow).length := by simpa using hlt
        apply (List.getElem?_inj hlt' hnodup).mp
        rw [List.getElem?_map, List.getElem?_map, List.getElem?_map, List.getElem?_map, hget, hj]
        exact congrArg some (hk.trans heq)
      rw [rowsAt_concat, if_neg hne, List.append_nil]
      exact haccs e (List.mem_of_getElem? hj)

theorem GroupsOf.foldlM {plans : List AggPlan} {groupIdx : List ℕ} {rest rows : List Row}
    {g g' : Groups} (h : GroupsOf F plans groupIdx rows g)
    (hfold : rest.foldlM (Groups.addRow F plans groupIdx) g = .ok g') :
    GroupsOf F plans groupIdx (rows ++ rest) g' := by
  induction rest generalizing rows g with
  | nil =>
    obtain rfl := Except.ok.inj hfold
    rwa [List.append_nil]
  | cons row rest ih =>
    rw [List.foldlM_cons] at hfold
    obtain ⟨g₁, hg₁, hfold⟩ := bind_eq_ok.mp hfold
    have := ih (h.addRow hg₁) hfold
    rwa [List.append_assoc, List.singleton_append] at this

theorem groupsOf_start (plans : List AggPlan) {groupBy : List String} {groupIdx : List ℕ}
    (h : groupBy.length = groupIdx.length) :
    GroupsOf F plans groupIdx [] (Groups.start plans groupBy) := by
  have hempty : groupBy.isEmpty = true ↔ groupIdx = [] := by
    rw [List.isEmpty_iff, ← List.length_eq_zero_iff, h, List.length_eq_zero_iff]
  by_cases hg : groupBy.isEmpty = true
  · rw [Groups.start, if_pos hg]
    have hidx := hempty.mp hg
    refine ⟨rfl, ⟨by simp, by simp, ?_, fun _ => List.mem_singleton_self _⟩, ?_⟩
    · intro k hk
      exact Or.inl ⟨hidx, List.mem_singleton.mp hk⟩
    · intro e he
      rw [List.mem_singleton.mp he]
      rfl
  · rw [Groups.start, if_neg hg]
    have hidx : groupIdx ≠ [] := fun h => hg (hempty.mpr h)
    exact ⟨rfl, ⟨List.nodup_nil, by simp, by simp, fun h => absurd h hidx⟩, by simp⟩

/-! ## The values of a group -/

/-- The computed values of a group hold, at the position of every plan, the plan's value. -/
def Valued (F : Floats) (computed key : Row) (rows : List Row) (plans : List AggPlan) : Prop :=
  ∀ i plan, plans[i]? = some plan → groupValue F key rows plan = .ok (computed.cell i)

theorem Valued.left {computed key : Row} {rows : List Row} {plans more : List AggPlan}
    (h : Valued F computed key rows (plans ++ more)) : Valued F computed key rows plans := by
  intro i plan hi
  have hlt := (List.getElem?_eq_some_iff.mp hi).1
  exact h i plan (by rw [List.getElem?_append_left hlt, hi])

/-- The accumulators of a group are those of its plans, one by one. -/
theorem forall₂_accsOf {plans : List AggPlan} {rows : List Row} {accs : List AggAcc}
    (h : accsOf F plans rows = .ok accs) :
    List.Forall₂ (fun plan acc =>
      rows.foldlM (fun acc row => accumulate F row plan acc) (initAcc plan) = .ok acc)
      plans accs := by
  induction rows using List.reverseRecOn generalizing accs with
  | nil =>
    obtain rfl := Except.ok.inj h
    rw [List.forall₂_map_right_iff]
    exact List.forall₂_same.mpr fun plan _ => rfl
  | append_singleton rows row ih =>
    rw [accsOf_concat] at h
    obtain ⟨accs₁, haccs₁, hmap⟩ := bind_eq_ok.mp h
    refine forall₂_of_zip (ih haccs₁) (forall₂_of_mapM hmap) fun plan acc₁ acc hacc hstep => ?_
    rw [List.foldlM_append, hacc, ok_bind, List.foldlM_cons, hstep]
    rfl

theorem valued_of_finalized {plans : List AggPlan} {key : Row} {rows : List Row}
    {accs : List AggAcc} {computed : Row} (haccs : accsOf F plans rows = .ok accs)
    (h : ((plans.zip accs).mapM fun p => finalizePlan F p.1 p.2 key) = .ok computed) :
    List.Forall₂ (fun plan v => groupValue F key rows plan = .ok v) plans computed := by
  refine forall₂_of_zip (forall₂_accsOf haccs) (forall₂_of_mapM h) fun plan acc v hacc hfinal => ?_
  rw [groupValue, hacc]
  exact hfinal

theorem valued_of_forall₂ {plans : List AggPlan} {key computed : Row} {rows : List Row}
    (h : List.Forall₂ (fun plan v => groupValue F key rows plan = .ok v) plans computed) :
    Valued F computed key rows plans := by
  intro i plan hi
  obtain ⟨hlt, rfl⟩ := List.getElem?_eq_some_iff.mp hi
  obtain ⟨hlen, hget⟩ := List.forall₂_iff_get.mp h
  have hlt' : i < computed.length := hlen ▸ hlt
  have hcell : computed.cell i = computed.get ⟨i, hlt'⟩ := by
    simp [Row.cell, hlt']
  rw [hcell]
  exact hget i hlt hlt'

/-- The compiled predicate is as true of the computed values as the predicate is of the group. -/
theorem havingTruth_compiled {schema : TableSchema} {table : String} {groupBy : List String}
    {h : HavingExpr} {plans plans' : List AggPlan} {c : CompiledHaving}
    (hc : compileHaving schema table groupBy h plans = .ok (c, plans')) :
    plans <+: plans' ∧ ∀ {computed key : Row} {rows : List Row},
      Valued F computed key rows plans' →
        havingTruth F schema table groupBy key rows h = .ok (evalHaving computed key c) := by
  induction h generalizing plans plans' c with
  | compare term op literal =>
    cases term with
    | column name =>
      rw [compileHaving] at hc
      obtain ⟨pos, hpos, hc⟩ := bind_eq_ok.mp hc
      obtain ⟨rfl, rfl⟩ := Prod.mk.inj (Except.ok.inj hc)
      refine ⟨List.prefix_rfl, fun {computed key rows} _ => ?_⟩
      have hgroup : ∀ rows : List Row, rows.foldlM (fun acc row =>
          accumulate F row (.groupCol pos) acc) .groupCol = .ok AggAcc.groupCol := by
        intro rows
        induction rows with
        | nil => rfl
        | cons row rows ih => exact ih
      rw [havingTruth, itemValue, HavingTerm.item, resolveItem, hpos]
      change (rows.foldlM (fun acc row => accumulate F row (.groupCol pos) acc) .groupCol >>=
        fun acc => finalizePlan F (.groupCol pos) acc key) >>= _ = _
      rw [hgroup]
      rfl
    | aggregate func arg =>
      rw [compileHaving] at hc
      obtain ⟨plan, hplan, hc⟩ := bind_eq_ok.mp hc
      obtain ⟨rfl, rfl⟩ := Prod.mk.inj (Except.ok.inj hc)
      refine ⟨List.prefix_append _ _, fun {computed key rows} hvalued => ?_⟩
      have hcell := hvalued plans.length plan
        (by rw [List.getElem?_append_right le_rfl, Nat.sub_self]; rfl)
      rw [havingTruth, itemValue, HavingTerm.item, resolveItem, hplan]
      change groupValue F key rows plan >>= _ = _
      rw [hcell]
      rfl
  | not inner ih =>
    rw [compileHaving] at hc
    obtain ⟨r, hr, hc⟩ := bind_eq_ok.mp hc
    obtain ⟨rfl, rfl⟩ := Prod.mk.inj (Except.ok.inj hc)
    obtain ⟨hinit, htruth⟩ := ih hr
    refine ⟨hinit, fun hvalued => ?_⟩
    rw [havingTruth, htruth hvalued]
    rfl
  | and a b iha ihb =>
    rw [compileHaving] at hc
    obtain ⟨ra, hra, hc⟩ := bind_eq_ok.mp hc
    obtain ⟨rb, hrb, hc⟩ := bind_eq_ok.mp hc
    obtain ⟨rfl, rfl⟩ := Prod.mk.inj (Except.ok.inj hc)
    obtain ⟨hinita, htrutha⟩ := iha hra
    obtain ⟨⟨more, hmore⟩, htruthb⟩ := ihb hrb
    refine ⟨hinita.trans ⟨more, hmore⟩, fun hvalued => ?_⟩
    rw [havingTruth, htrutha (Valued.left (hmore ▸ hvalued)), htruthb hvalued]
    rfl
  | or a b iha ihb =>
    rw [compileHaving] at hc
    obtain ⟨ra, hra, hc⟩ := bind_eq_ok.mp hc
    obtain ⟨rb, hrb, hc⟩ := bind_eq_ok.mp hc
    obtain ⟨rfl, rfl⟩ := Prod.mk.inj (Except.ok.inj hc)
    obtain ⟨hinita, htrutha⟩ := iha hra
    obtain ⟨⟨more, hmore⟩, htruthb⟩ := ihb hrb
    refine ⟨hinita.trans ⟨more, hmore⟩, fun hvalued => ?_⟩
    rw [havingTruth, htrutha (Valued.left (hmore ▸ hvalued)), htruthb hvalued]
    rfl

/-! ## Rows that come from groups -/

/-- The keys of the groups of some rows: without `GROUP BY` there is one group, even of no rows. -/
def IsKey (groupIdx : List ℕ) (rows : List Row) (key : Row) : Prop :=
  (groupIdx = [] ∧ key = []) ∨ ∃ r ∈ rows, groupIdx.map r.cell = key

/-- An output row comes from a group: a row of items holds their values for the group, and a plain
row is the projection of a member. -/
def ComesFrom (F : Floats) (schema : TableSchema) (table : String) (projection : Projection)
    (groupBy : List String) (key : Row) (group : List Row) (out : Row) : Prop :=
  match projection with
  | .items items => items.mapM (itemValue F schema table groupBy key group) = .ok out
  | other => ∃ row ∈ group, ∃ output, outputColumns schema table other = .ok output ∧
      out = output.map row.cell

/-- Every output row comes from a group for which `HAVING` is true. -/
def FromTrueGroups (F : Floats) (schema : TableSchema) (table : String) (projection : Projection)
    (groupBy : List String) (h : HavingExpr) (rows out : List Row) : Prop :=
  ∀ r ∈ out, ∃ groupIdx key, groupBy.mapM (resolveGroupColumn schema table) = .ok groupIdx ∧
    IsKey groupIdx rows key ∧
    havingTruth F schema table groupBy key (rowsAt groupIdx key rows) h = .ok (some true) ∧
    ComesFrom F schema table projection groupBy key (rowsAt groupIdx key rows) r

theorem mem_of_mem_limitRows {α : Type} {limit : Option Limit} {rows : List α} {r : α}
    (h : r ∈ limitRows limit rows) : r ∈ rows := by
  cases limit with
  | none => exact h
  | some l => exact List.mem_of_mem_drop (List.mem_of_mem_take h)

theorem forall₂_itemValue {schema : TableSchema} {table : String} {items : List SelectItem}
    {groupBy : List String} {key : Row} {rows : List Row} {resolved : List (AggPlan × String)}
    {values : List Value}
    (hitems : List.Forall₂ (fun item r => resolveItem schema table groupBy item = .ok r) items
      resolved)
    (hvalues : List.Forall₂ (fun plan v => groupValue F key rows plan = .ok v)
      (resolved.map Prod.fst) values) :
    List.Forall₂ (fun item v => itemValue F schema table groupBy key rows item = .ok v) items
      values := by
  induction hitems generalizing values with
  | nil =>
    cases hvalues
    exact .nil
  | cons hitem _ ih =>
    cases hvalues with
    | cons hvalue hrest =>
      refine .cons ?_ (ih hrest)
      rw [itemValue, hitem]
      exact hvalue

/-- The rows of an aggregate query with `HAVING` come from groups for which it is true. -/
theorem aggregate_from_true_groups {schema : TableSchema} {table : String}
    {items : List SelectItem} {groupBy : List String} {h : HavingExpr} {rows : List Row}
    {limit : Option Limit} {names : List String} {out : List Row}
    (hagg : aggregate F schema table items groupBy (some h) rows limit = .ok (names, out)) :
    FromTrueGroups F schema table (.items items) groupBy h rows out := by
  rw [aggregate] at hagg
  obtain ⟨groupIdx, hidx, hagg⟩ := bind_eq_ok.mp hagg
  obtain ⟨resolved, hresolved, hagg⟩ := bind_eq_ok.mp hagg
  obtain ⟨compiled, hcompiled, hagg⟩ := bind_eq_ok.mp hagg
  rw [compileOptional] at hcompiled
  obtain ⟨c, hc, hcompiled⟩ := bind_eq_ok.mp hcompiled
  obtain rfl := Except.ok.inj hcompiled
  obtain ⟨g, hg, hagg⟩ := bind_eq_ok.mp hagg
  obtain ⟨outs, houts, hagg⟩ := bind_eq_ok.mp hagg
  obtain ⟨-, rfl⟩ := Prod.mk.inj (Except.ok.inj hagg)
  have hlen : groupBy.length = groupIdx.length := (forall₂_of_mapM hidx).length_eq
  have hgroups := (groupsOf_start (F := F) c.2 hlen).foldlM hg
  rw [List.nil_append] at hgroups
  obtain ⟨⟨more, hmore⟩, htruth⟩ := havingTruth_compiled (F := F) hc
  intro r hr
  have hmem : some r ∈ outs := by
    have hr' : r ∈ outs.filterMap id := mem_of_mem_limitRows (show r ∈ limitRows limit _ from hr)
    obtain ⟨o, ho, hor⟩ := List.mem_filterMap.mp hr'
    rwa [← (show o = some r from hor)]
  obtain ⟨e, he, hout⟩ : ∃ e ∈ g.groups, outputRow F c.2 (resolved.map Prod.fst).length (some c.1) e
      = .ok (some r) := by
    have hforall := forall₂_of_mapM houts
    obtain ⟨i, hi⟩ := List.getElem?_of_mem hmem
    obtain ⟨hi', hri⟩ := List.getElem?_eq_some_iff.mp hi
    obtain ⟨hlen', hget⟩ := List.forall₂_iff_get.mp hforall
    have hlt : i < (g.groups.mergeSort fun a b => (compareKeys a.1 b.1).isLE).length := by
      rw [hlen']
      exact hi'
    refine ⟨_, List.mem_mergeSort.mp (List.get_mem _ ⟨i, hlt⟩), ?_⟩
    rw [hget i hlt hi']
    exact congrArg Except.ok hri
  rw [outputRow] at hout
  obtain ⟨computed, hcomputed, hout⟩ := bind_eq_ok.mp hout
  have hvalues := valued_of_finalized (hgroups.accs e he) hcomputed
  have hvalued := valued_of_forall₂ hvalues
  simp only at hout
  split at hout
  · cases hout
  rename_i htrue
  rw [not_not] at htrue
  obtain rfl := Option.some.inj (Except.ok.inj hout)
  refine ⟨groupIdx, e.1, hidx, hgroups.keys.sound e.1 (List.mem_map_of_mem he), ?_, ?_⟩
  · rw [htruth hvalued, htrue]
  · have htake := List.forall₂_take (resolved.map Prod.fst).length hvalues
    rw [← hmore, List.take_left] at htake
    exact mapM_of_forall₂ (forall₂_itemValue (forall₂_of_mapM hresolved) htake)

/-! ## `HAVING` in a whole query -/

section Whole

variable {C} {mk} {cosine : CosineDistance} {r : Reader Bytes Bytes} {table : String}
  {projection : Projection} {predicate : Option Expr} {groupBy : List String} {h : HavingExpr}
  {orderBy : Option OrderBy} {limit : Option Limit}

/-- A query with `HAVING` fails, or its rows come from groups of the matching rows for which the
predicate is true. -/
def HavingRespected (C : Crypto) (mk : C.MasterKey) (F : Floats) (cosine : CosineDistance)
    (r : Reader Bytes Bytes) (table : String) (projection : Projection) (predicate : Option Expr)
    (groupBy : List String) (h : HavingExpr) (orderBy : Option OrderBy) (limit : Option Limit) :
    Prop :=
  ∀ names out, (selectQuery C mk F cosine table projection predicate groupBy (some h) orderBy
      limit).run r = .ok (names, out) →
    ∃ schema rows, (expectSchema C mk table).run r = .ok schema ∧
      (selectedRows C mk table predicate).run r = .ok rows ∧
      FromTrueGroups F schema table projection groupBy h rows out

/-- The plain path can do without `HAVING`: nothing is left of the matching rows, or `HAVING` is
true of them as a whole. -/
def WholeTrue (C : Crypto) (mk : C.MasterKey) (F : Floats) (cosine : CosineDistance)
    (r : Reader Bytes Bytes) (table : String) (predicate : Option Expr) (h : HavingExpr)
    (orderBy : Option OrderBy) (limit : Option Limit) : Prop :=
  ∀ schema rows order sorted, (expectSchema C mk table).run r = .ok schema →
    (selectedRows C mk table predicate).run r = .ok rows →
    orderColumn schema table orderBy = .ok order → orderRows cosine schema order rows = .ok sorted →
      limitRows limit rows = [] ∨ havingTruth F schema table [] [] rows h = .ok (some true)

theorem run_selectedRows {schema : TableSchema} {filter : Option CompiledExpr}
    {rows : List (Bytes × Row)} (hschema : (expectSchema C mk table).run r = .ok schema)
    (hfilter : predicate.mapM (compileExpr schema) = .ok filter)
    (hrows : (matchingRows C mk table schema filter).run r = .ok rows) :
    (selectedRows C mk table predicate).run r = .ok (rows.map Prod.snd) := by
  rw [selectedRows, Query.run_bind, hschema, ok_bind, Query.run_bind, Query.run_ofExcept, hfilter, ok_bind,
    Query.run_bind, hrows, ok_bind]
  rfl

theorem run_selectedRows_eq_ok {rows : List Row}
    (h : (selectedRows C mk table predicate).run r = .ok rows) :
    ∃ schema filter pairs, (expectSchema C mk table).run r = .ok schema ∧
      predicate.mapM (compileExpr schema) = .ok filter ∧
      (matchingRows C mk table schema filter).run r = .ok pairs ∧ rows = pairs.map Prod.snd := by
  rw [selectedRows] at h
  obtain ⟨schema, hschema, h⟩ := Query.run_bind_eq_ok.mp h
  obtain ⟨filter, hfilter, h⟩ := Query.run_bind_eq_ok.mp h
  obtain ⟨pairs, hpairs, h⟩ := Query.run_bind_eq_ok.mp h
  rw [Query.run_ofExcept] at hfilter
  refine ⟨schema, filter, pairs, hschema, hfilter, hpairs, ?_⟩
  exact (Except.ok.inj h).symm

/-- The query with a `*`: the rows, sorted and cut. -/
theorem run_selectQuery_all {names : List String} {out : List Row} :
    (selectQuery C mk F cosine table .all predicate groupBy (some h) orderBy limit).run r =
        .ok (names, out) ↔
      ∃ schema rows order sorted, (expectSchema C mk table).run r = .ok schema ∧
        (selectedRows C mk table predicate).run r = .ok rows ∧
        orderColumn schema table orderBy = .ok order ∧
        orderRows cosine schema order rows = .ok sorted ∧
        names = (List.range schema.columns.length).map (fun i =>
          (schema.columns[i]?.map ColumnDef.name).getD "") ∧
        out = (limitRows limit sorted).map fun row =>
          (List.range schema.columns.length).map row.cell := by
  rw [selectQuery]
  constructor
  · intro hrun
    obtain ⟨schema, hschema, hrun⟩ := Query.run_bind_eq_ok.mp hrun
    obtain ⟨filter, hfilter, hrun⟩ := Query.run_bind_eq_ok.mp hrun
    obtain ⟨output, houtput, hrun⟩ := Query.run_bind_eq_ok.mp hrun
    obtain ⟨order, horder, hrun⟩ := Query.run_bind_eq_ok.mp hrun
    obtain ⟨pairs, hpairs, hrun⟩ := Query.run_bind_eq_ok.mp hrun
    obtain ⟨sorted, hsorted, hrun⟩ := Query.run_bind_eq_ok.mp hrun
    rw [Query.run_ofExcept] at hfilter houtput horder hsorted
    obtain rfl := Except.ok.inj houtput
    obtain ⟨rfl, rfl⟩ := Prod.mk.inj (Except.ok.inj hrun)
    exact ⟨schema, pairs.map Prod.snd, order, sorted, hschema, run_selectedRows hschema hfilter hpairs,
      horder, hsorted, rfl, rfl⟩
  · rintro ⟨schema, rows, order, sorted, hschema, hselect, horder, hsorted, rfl, rfl⟩
    obtain ⟨schema', filter, pairs, hschema', hfilter, hpairs, rfl⟩ := run_selectedRows_eq_ok hselect
    obtain rfl := Except.ok.inj (hschema.symm.trans hschema')
    rw [Query.run_bind, hschema, ok_bind, Query.run_bind, Query.run_ofExcept, hfilter, ok_bind]
    simp only [Query.run_bind, Query.run_ofExcept, outputColumns, ok_bind, horder, hpairs, hsorted]
    rfl

theorem limitRows_eq_nil_iff {α : Type} (limit : Option Limit) {l l' : List α}
    (h : l.length = l'.length) : limitRows limit l = [] ↔ limitRows limit l' = [] := by
  cases limit with
  | none => rw [limitRows, limitRows, ← List.length_eq_zero_iff, ← List.length_eq_zero_iff, h]
  | some lim =>
    rw [limitRows, limitRows, ← List.length_eq_zero_iff, ← List.length_eq_zero_iff,
      List.length_take, List.length_take, List.length_drop, List.length_drop, h]

theorem perm_orderRows {schema : TableSchema} {order : Option (ℕ × OrderBy)}
    {rows sorted : List Row} (h : orderRows cosine schema order rows = .ok sorted) :
    sorted.Perm rows := by
  cases order with
  | none =>
    obtain rfl := Except.ok.inj h
    exact .refl _
  | some o =>
    rw [orderRows, sortRows] at h
    repeat' split at h
    all_goals first
      | cases h
        exact List.mergeSort_perm _ _
      | cases h

/-- Without `GROUP BY` there is one group. -/
theorem rowsAt_nil (rows : List Row) : rowsAt [] [] rows = rows := by
  rw [rowsAt]
  exact List.filter_eq_self.mpr fun r _ => beq_self_eq_true _

/-- The rows of a `*` come from the one group there is. -/
theorem fromTrueGroups_all {schema : TableSchema} {rows out : List Row}
    (hout : ∀ o ∈ out, ∃ row ∈ rows, o = (List.range schema.columns.length).map row.cell) :
    FromTrueGroups F schema table .all [] h rows out ↔
      out = [] ∨ havingTruth F schema table [] [] rows h = .ok (some true) := by
  constructor
  · intro hfrom
    cases out with
    | nil => exact Or.inl rfl
    | cons o out =>
      obtain ⟨groupIdx, key, hidx, hkey, htruth, -⟩ := hfrom o List.mem_cons_self
      obtain rfl : groupIdx = [] := (Except.ok.inj hidx).symm
      have hnil : key = [] := by
        rcases hkey with ⟨-, hkey⟩ | ⟨row, -, hkey⟩
        · exact hkey
        · exact hkey.symm
      rw [hnil, rowsAt_nil] at htruth
      exact Or.inr htruth
  · rintro (rfl | htruth) o ho
    · exact absurd ho List.not_mem_nil
    · obtain ⟨row, hrow, rfl⟩ := hout o ho
      refine ⟨[], [], rfl, Or.inl ⟨rfl, rfl⟩, ?_, row, ?_, _, rfl, rfl⟩
      · rw [rowsAt_nil]
        exact htruth
      · rw [rowsAt_nil]
        exact hrow

theorem havingRespected_all_iff :
    HavingRespected C mk F cosine r table .all predicate [] h orderBy limit ↔
      WholeTrue C mk F cosine r table predicate h orderBy limit := by
  have hmem : ∀ {schema : TableSchema} {order : Option (ℕ × OrderBy)} {rows sorted : List Row},
      orderRows cosine schema order rows = .ok sorted →
        ∀ o ∈ (limitRows limit sorted).map fun row =>
          (List.range schema.columns.length).map row.cell,
        ∃ row ∈ rows, o = (List.range schema.columns.length).map row.cell := by
    intro schema order rows sorted hsorted o ho
    obtain ⟨row, hrow, rfl⟩ := List.mem_map.mp ho
    exact ⟨row, (perm_orderRows hsorted).mem_iff.mp (mem_of_mem_limitRows hrow), rfl⟩
  constructor
  · intro hrespected schema rows order sorted hschema hselect horder hsorted
    obtain ⟨schema', rows', hschema', hselect', hfrom⟩ := hrespected _ _
      (run_selectQuery_all.mpr ⟨schema, rows, order, sorted, hschema, hselect, horder, hsorted, rfl,
        rfl⟩)
    obtain rfl := Except.ok.inj (hschema.symm.trans hschema')
    obtain rfl := Except.ok.inj (hselect.symm.trans hselect')
    rcases (fromTrueGroups_all (hmem hsorted)).mp hfrom with hnil | htruth
    · left
      rw [limitRows_eq_nil_iff limit (perm_orderRows hsorted).length_eq.symm]
      exact List.map_eq_nil_iff.mp hnil
    · exact Or.inr htruth
  · intro hwhole names out hrun
    obtain ⟨schema, rows, order, sorted, hschema, hselect, horder, hsorted, rfl, rfl⟩ :=
      run_selectQuery_all.mp hrun
    refine ⟨schema, rows, hschema, hselect, (fromTrueGroups_all (hmem hsorted)).mpr ?_⟩
    rcases hwhole schema rows order sorted hschema hselect horder hsorted with hnil | htruth
    · left
      rw [limitRows_eq_nil_iff limit (perm_orderRows hsorted).length_eq.symm] at hnil
      rw [hnil, List.map_nil]
    · exact Or.inr htruth

theorem havingRespected_items (items : List SelectItem) :
    HavingRespected C mk F cosine r table (.items items) predicate groupBy h orderBy limit := by
  intro names out hrun
  rw [selectQuery] at hrun
  obtain ⟨schema, hschema, hrun⟩ := Query.run_bind_eq_ok.mp hrun
  obtain ⟨filter, hfilter, hrun⟩ := Query.run_bind_eq_ok.mp hrun
  obtain ⟨_, -, hrun⟩ := Query.run_bind_eq_ok.mp hrun
  obtain ⟨pairs, hpairs, hrun⟩ := Query.run_bind_eq_ok.mp hrun
  rw [Query.run_ofExcept] at hfilter hrun
  exact ⟨schema, pairs.map Prod.snd, hschema, run_selectedRows hschema hfilter hpairs,
    aggregate_from_true_groups hrun⟩

/-- `HAVING` is respected by a query that was parsed, whatever the engine holds, exactly when the
projection is not `*`, or the plain path can do without it. -/
theorem having_respected_iff (N : Sql.Formats) {sql : String} {statements : List Statement}
    (hparse : Sql.parseStatements N sql = .ok statements)
    (hmem : .select projection table predicate groupBy (some h) orderBy limit ∈ statements)
    (e : Engine C) :
    HavingRespected C e.master F cosine e.store.reader table projection predicate groupBy h orderBy
        limit ↔
      projection ≠ .all ∨
        WholeTrue C e.master F cosine e.store.reader table predicate h orderBy limit := by
  obtain ⟨-, -, hgroup, hcolumns⟩ := Sql.parseStatements_read N hparse hmem
  cases projection with
  | all =>
    rw [hgroup rfl, havingRespected_all_iff]
    exact ⟨Or.inr, fun h => h.resolve_left fun hne => hne rfl⟩
  | columns names => exact absurd rfl (hcolumns rfl names)
  | items items => exact ⟨fun _ => Or.inl (by simp), fun _ => havingRespected_items items⟩

end Whole

/-! ## A query whose `HAVING` is ignored -/

/-- `CREATE TABLE t (a INT); INSERT INTO t VALUES (1)`. -/
def oneRowSteps : List (Step Crypto.clear) :=
  [.statement Session.clearEnv (.createTable "t" [⟨"a", .int, false, false, false, false⟩]),
    .statement Session.clearEnv (.insert "t" none [[.int 1]])]

example : (selectQuery Crypto.clear () noFloats (fun _ _ => ⟨0⟩) "t" .all none [] none none none).run
    (oneRowSteps.foldl Session.step Session.clearSession).engine.store.reader =
      .ok (["a"], [[.int 1]]) := by
  decide +kernel

/-- `COUNT(*) > 100`. -/
def manyRows : HavingExpr := .compare (.aggregate .count .star) .gt (.int 100)

theorem having_respected_count :
    HavingRespected Crypto.clear () noFloats (fun _ _ => ⟨0⟩)
        (oneRowSteps.foldl Session.step Session.clearSession).engine.store.reader "t"
        (.items [.aggregate .count .star]) none [] manyRows none none ↔
      Projection.items [.aggregate .count .star] ≠ .all ∨
        WholeTrue Crypto.clear () noFloats (fun _ _ => ⟨0⟩)
          (oneRowSteps.foldl Session.step Session.clearSession).engine.store.reader "t" none manyRows
          none none :=
  having_respected_iff Sql.integerFormats
    (show Sql.parseStatements Sql.integerFormats "SELECT COUNT(*) FROM t HAVING COUNT(*) > 100" =
      .ok [.select (.items [.aggregate .count .star]) "t" none [] (some manyRows) none none] by
        decide +kernel)
    List.mem_cons_self (oneRowSteps.foldl Session.step Session.clearSession).engine

/-- `SELECT * FROM t HAVING COUNT(*) > 100` returns the only row of the table. -/
theorem having_star_ignored :
    Session.clearSession.Fresh ∧
      Sql.parseStatements Sql.integerFormats "SELECT * FROM t HAVING COUNT(*) > 100" =
        .ok [.select .all "t" none [] (some manyRows) none none] ∧
      (selectQuery Crypto.clear () noFloats (fun _ _ => ⟨0⟩) "t" .all none [] (some manyRows) none
        none).run (oneRowSteps.foldl Session.step Session.clearSession).engine.store.reader =
          .ok (["a"], [[.int 1]]) ∧
      ¬HavingRespected Crypto.clear () noFloats (fun _ _ => ⟨0⟩)
        (oneRowSteps.foldl Session.step Session.clearSession).engine.store.reader "t" .all none []
        manyRows none none := by
  refine ⟨Session.fresh_clearSession, by decide +kernel, by decide +kernel, ?_⟩
  intro hrespected
  have hwhole := havingRespected_all_iff.mp hrespected
  have hschema : (expectSchema Crypto.clear () "t").run
      (oneRowSteps.foldl Session.step Session.clearSession).engine.store.reader =
        .ok ⟨"t", [⟨"a", .int, false, false, false, false⟩]⟩ := by decide +kernel
  have hselect : (selectedRows Crypto.clear () "t" none).run
      (oneRowSteps.foldl Session.step Session.clearSession).engine.store.reader =
        .ok [[.int 1]] := by decide +kernel
  rcases hwhole _ _ none _ hschema hselect rfl rfl with hnil | htruth
  · cases hnil
  · revert htruth
    decide +kernel

end Ciphra
