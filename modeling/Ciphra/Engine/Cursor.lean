import Ciphra.Engine.Codec
import Ciphra.Foundations.Query

/-!
# Decoding by position

The decoders of `Codec` hand on the rest of the buffer. The source keeps the buffer and moves a
position through it; most of its reads are checked, a few index the buffer directly and would panic
outside of it. Here the decoders of rows and of range indexes are written that way, with `panicked`
as the outcome of an index out of range. `Locates` relates the two ways of reading, and
`decodeRowAt_eq`, `decodeRangeBlobAt_eq` say that they always agree; so no read ever panics. One
thing does: the count of a range index is not checked against the buffer before room for as many
entries is reserved, and `decodeRangeBlob_eq_panicked_iff` says for which buffers this overflows.

The second part completes the round trips of `Codec`: a buffer that decodes is the encoding of what
it decodes to, and the rows and range indexes that decode to themselves are exactly those whose
lengths fit their fields.
-/

namespace Ciphra

/-! ## Reads -/

/-- `buf[i]`. -/
def index (buf : Bytes) (i : ℕ) : Except EngineError UInt8 :=
  match buf[i]? with
  | some b => .ok b
  | none => .error .panicked

/-- `buf[..n]`. -/
def sliceTo (buf : Bytes) (n : ℕ) : Except EngineError Bytes :=
  if n ≤ buf.length then .ok (buf.take n) else .error .panicked

/-- `buf.get(pos..pos + n)`, or the given error. -/
def getRange (err : EngineError) (buf : Bytes) (pos n : ℕ) : Except EngineError Bytes :=
  if pos + n ≤ buf.length then .ok ((buf.drop pos).take n) else .error err

def badRow : EngineError := .corrupt "bad row record"

/-! ## Rows -/

def decodeComponentsAt (buf : Bytes) : ℕ → ℕ → Except EngineError (List F32 × ℕ)
  | 0, pos => .ok ([], pos)
  | n + 1, pos => do
    let bits ← getRange badRow buf pos 4
    let (v, pos) ← decodeComponentsAt buf n (pos + 4)
    pure (⟨UInt32.ofNat (leNat bits)⟩ :: v, pos)

def decodeValueAt (buf : Bytes) (pos : ℕ) : Except EngineError (Value × ℕ) :=
  match buf[pos]? with
  | none => .error badRow
  | some tag =>
    let pos := pos + 1
    if tag = tagNull then .ok (.null, pos)
    else if tag = tagInt then do
      let bytes ← getRange badRow buf pos 8
      pure (.int (UInt64.ofNat (leNat bytes)).toInt64, pos + 8)
    else if tag = tagReal then do
      let bytes ← getRange badRow buf pos 8
      pure (.real ⟨UInt64.ofNat (leNat bytes)⟩, pos + 8)
    else if tag = tagText then do
      let len ← getRange badRow buf pos 4
      let pos := pos + 4
      let bytes ← getRange badRow buf pos (leNat len)
      match fromUtf8 bytes with
      | none => .error badRow
      | some text => pure (.text text, pos + leNat len)
    else if tag = tagVector then do
      let len ← getRange badRow buf pos 4
      let (v, pos) ← decodeComponentsAt buf (leNat len) (pos + 4)
      pure (.vector v, pos)
    else .error badRow

def decodeValuesAt (buf : Bytes) : ℕ → ℕ → Except EngineError (Row × ℕ)
  | 0, pos => .ok ([], pos)
  | n + 1, pos => do
    let (v, pos) ← decodeValueAt buf pos
    let (vs, pos) ← decodeValuesAt buf n pos
    pure (v :: vs, pos)

def decodeRowAt (buf : Bytes) : Except EngineError Row :=
  if buf.length < 2 then .error badRow
  else do
    let b₀ ← index buf 0
    let b₁ ← index buf 1
    let (values, pos) ← decodeValuesAt buf (leNat [b₀, b₁]) 2
    if pos ≠ buf.length then .error badRow else pure values

/-! ## Range indexes -/

def decodeRangeEntryAt (buf : Bytes) (pos : ℕ) : Except EngineError ((Value × UInt64) × ℕ) := do
  let len ← getRange badRangeBlob buf pos 4
  let pos := pos + 4
  let bytes ← getRange badRangeBlob buf pos (leNat len)
  match ← decodeRowAt bytes with
  | [v] =>
    let pos := pos + leNat len
    let rowid ← getRange badRangeBlob buf pos 8
    pure ((v, UInt64.ofNat (leNat rowid)), pos + 8)
  | _ => .error badRangeBlob

def decodeRangeEntriesAt (buf : Bytes) : ℕ → ℕ → Except EngineError (List (Value × UInt64) × ℕ)
  | 0, pos => .ok ([], pos)
  | n + 1, pos => do
    let (e, pos) ← decodeRangeEntryAt buf pos
    let (es, pos) ← decodeRangeEntriesAt buf n pos
    pure (e :: es, pos)

def decodeRangeBlobAt (buf : Bytes) : Except EngineError (List (Value × UInt64)) :=
  if buf.length < 8 then .error badRangeBlob
  else do
    let count ← sliceTo buf 8
    -- `Vec::with_capacity(count)`
    if maxEntries < leNat count then .error .panicked
    else do
      let (entries, pos) ← decodeRangeEntriesAt buf (leNat count) 8
      if pos ≠ buf.length then .error badRangeBlob else pure entries

/-! ## Positions and rests -/

/-- Reading by position and reading off the rest end alike: with the same result, the position
being where the rest starts, or with the same error. -/
inductive Locates {α : Type} (buf : Bytes) :
    Except EngineError (α × ℕ) → Except EngineError (α × Bytes) → Prop
  | ok (a : α) (pos : ℕ) (h : pos ≤ buf.length) : Locates buf (.ok (a, pos)) (.ok (a, buf.drop pos))
  | error (err : EngineError) : Locates buf (.error err) (.error err)

/-- A missing result is the given error. -/
def orError {α : Type} (err : EngineError) : Option α → Except EngineError α
  | some a => .ok a
  | none => .error err

variable {α β : Type} {buf : Bytes}

theorem orError_bind (err : EngineError) (o : Option α) (g : α → Option β) :
    orError err (o >>= g) = orError err o >>= fun a => orError err (g a) := by
  cases o <;> rfl

theorem Locates.bind {x : Except EngineError (α × ℕ)} {y : Except EngineError (α × Bytes)}
    {f : α × ℕ → Except EngineError (β × ℕ)} {g : α × Bytes → Except EngineError (β × Bytes)}
    (h : Locates buf x y)
    (hfg : ∀ a pos, pos ≤ buf.length → Locates buf (f (a, pos)) (g (a, buf.drop pos))) :
    Locates buf (x >>= f) (y >>= g) := by
  cases h with
  | ok a pos hpos => exact hfg a pos hpos
  | error err => exact .error err

/-- A checked read, and what follows. -/
theorem Locates.getRange (err : EngineError) {pos : ℕ} (hpos : pos ≤ buf.length) (n : ℕ)
    {f : Bytes → Except EngineError (β × ℕ)} {g : Bytes × Bytes → Except EngineError (β × Bytes)}
    (hfg : ∀ bytes, pos + n ≤ buf.length → Locates buf (f bytes) (g (bytes, buf.drop (pos + n)))) :
    Locates buf (Ciphra.getRange err buf pos n >>= f)
      (orError err (splitBytes n (buf.drop pos)) >>= g) := by
  rw [Ciphra.getRange, splitBytes, List.length_drop]
  by_cases h : pos + n ≤ buf.length
  · rw [if_pos h, if_pos (by omega), List.drop_drop]
    exact hfg _ h
  · rw [if_neg h, if_neg (by omega)]
    exact .error err

theorem locates_decodeComponentsAt (n : ℕ) {pos : ℕ} (hpos : pos ≤ buf.length) :
    Locates buf (decodeComponentsAt buf n pos)
      (orError badRow (decodeComponents n (buf.drop pos))) := by
  induction n generalizing pos with
  | zero => exact .ok [] pos hpos
  | succ n ih =>
    rw [decodeComponentsAt, decodeComponents, orError_bind]
    refine .getRange badRow hpos 4 fun bits hbits => ?_
    rw [orError_bind]
    exact (ih hbits).bind fun v pos' hpos' => .ok _ _ hpos'

theorem locates_decodeValueAt (pos : ℕ) :
    Locates buf (decodeValueAt buf pos) (orError badRow (decodeValue (buf.drop pos))) := by
  rw [decodeValueAt]
  cases hget : buf[pos]? with
  | none =>
    rw [List.drop_eq_nil_of_le (List.getElem?_eq_none_iff.mp hget)]
    exact .error badRow
  | some tag =>
    obtain ⟨hlt, rfl⟩ := List.getElem?_eq_some_iff.mp hget
    rw [List.drop_eq_getElem_cons hlt]
    simp only [decodeValue]
    -- one case for each tag
    split_ifs
    · exact .ok _ _ hlt
    · rw [orError_bind]
      exact .getRange badRow hlt 8 fun bytes h => .ok _ _ h
    · rw [orError_bind]
      exact .getRange badRow hlt 8 fun bytes h => .ok _ _ h
    · rw [orError_bind]
      refine .getRange badRow hlt 4 fun len hlen => ?_
      rw [orError_bind]
      refine .getRange badRow hlen (leNat len) fun bytes h => ?_
      cases fromUtf8 bytes with
      | none => exact .error badRow
      | some text => exact .ok _ _ h
    · rw [orError_bind]
      refine .getRange badRow hlt 4 fun len hlen => ?_
      rw [orError_bind]
      exact (locates_decodeComponentsAt _ hlen).bind fun v pos' hpos' => .ok _ _ hpos'
    · exact .error badRow

theorem locates_decodeValuesAt (n : ℕ) {pos : ℕ} (hpos : pos ≤ buf.length) :
    Locates buf (decodeValuesAt buf n pos) (orError badRow (decodeValues n (buf.drop pos))) := by
  induction n generalizing pos with
  | zero => exact .ok [] pos hpos
  | succ n ih =>
    rw [decodeValuesAt, decodeValues, orError_bind]
    refine (locates_decodeValueAt pos).bind fun v pos' hpos' => ?_
    rw [orError_bind]
    exact (ih hpos').bind fun vs pos'' hpos'' => .ok _ _ hpos''

/-- The end of both ways: everything must have been read. -/
theorem Locates.finish {x : Except EngineError (α × ℕ)} {y : Except EngineError (α × Bytes)}
    (h : Locates buf x y) (err : EngineError) :
    (x >>= fun r => if r.2 ≠ buf.length then .error err else pure r.1) =
      y >>= fun r => if r.2 = [] then pure r.1 else .error err := by
  cases h with
  | error err' => rfl
  | ok a pos hpos =>
    simp only [Bind.bind, Except.bind, List.drop_eq_nil_iff]
    by_cases hend : pos = buf.length
    · rw [if_neg (by simpa using hend), if_pos (le_of_eq hend.symm)]
    · rw [if_pos hend, if_neg (by omega)]

/-- **The row decoder of the source is the one of the model**, and no index of it is out of range. -/
theorem decodeRowAt_eq (buf : Bytes) : decodeRowAt buf = decodeRow buf := by
  match buf with
  | [] => rfl
  | [b] => rfl
  | b₀ :: b₁ :: rest =>
    have h := (locates_decodeValuesAt (leNat [b₀, b₁])
      (show 2 ≤ (b₀ :: b₁ :: rest).length by simp)).finish badRow
    have hat : decodeRowAt (b₀ :: b₁ :: rest) =
        (decodeValuesAt (b₀ :: b₁ :: rest) (leNat [b₀, b₁]) 2 >>= fun r =>
          if r.2 ≠ (b₀ :: b₁ :: rest).length then .error badRow else pure r.1) := by
      rw [decodeRowAt, if_neg (by simp)]
      rfl
    have hrow : decodeRow (b₀ :: b₁ :: rest) =
        (orError badRow (decodeValues (leNat [b₀, b₁]) rest) >>= fun r =>
          if r.2 = [] then pure r.1 else .error badRow) := by
      rw [decodeRow, splitBytes, if_pos (by simp)]
      simp only [Option.bind_eq_bind, Option.bind_some, List.take, List.drop]
      cases decodeValues (leNat [b₀, b₁]) rest with
      | none => rfl
      | some r =>
        obtain ⟨values, rest'⟩ := r
        cases rest' <;> rfl
    rw [hat, hrow]
    exact h

theorem blobBytes_eq (n : ℕ) (buf : Bytes) :
    blobBytes n buf = orError badRangeBlob (splitBytes n buf) := by
  rw [blobBytes]
  cases splitBytes n buf <;> rfl

/-- A checked read of a range index, and what follows. -/
theorem Locates.blobBytes {pos : ℕ} (hpos : pos ≤ buf.length) (n : ℕ)
    {f : Bytes → Except EngineError (β × ℕ)} {g : Bytes × Bytes → Except EngineError (β × Bytes)}
    (hfg : ∀ bytes, pos + n ≤ buf.length → Locates buf (f bytes) (g (bytes, buf.drop (pos + n)))) :
    Locates buf (Ciphra.getRange badRangeBlob buf pos n >>= f)
      (Ciphra.blobBytes n (buf.drop pos) >>= g) := by
  rw [blobBytes_eq]
  exact .getRange badRangeBlob hpos n hfg

theorem locates_decodeRangeEntryAt {pos : ℕ} (hpos : pos ≤ buf.length) :
    Locates buf (decodeRangeEntryAt buf pos) (decodeRangeEntry (buf.drop pos)) := by
  rw [decodeRangeEntryAt, decodeRangeEntry]
  refine .blobBytes hpos 4 fun len hlen => .blobBytes hlen (leNat len) fun bytes hbytes => ?_
  simp only [decodeRowAt_eq]
  cases decodeRow bytes with
  | error err => exact .error err
  | ok row =>
    match row with
    | [] => exact .error badRangeBlob
    | _ :: _ :: _ => exact .error badRangeBlob
    | [v] =>
      refine .blobBytes hbytes 8 fun rowid hrowid => ?_
      exact .ok _ _ hrowid

theorem locates_decodeRangeEntriesAt (n : ℕ) {pos : ℕ} (hpos : pos ≤ buf.length) :
    Locates buf (decodeRangeEntriesAt buf n pos) (decodeRangeEntries n (buf.drop pos)) := by
  induction n generalizing pos with
  | zero => exact .ok [] pos hpos
  | succ n ih =>
    rw [decodeRangeEntriesAt, decodeRangeEntries]
    refine (locates_decodeRangeEntryAt hpos).bind fun e pos' hpos' => ?_
    exact (ih hpos').bind fun es pos'' hpos'' => .ok _ _ hpos''

/-- **The range-index decoder of the source is the one of the model.** -/
theorem decodeRangeBlobAt_eq (buf : Bytes) : decodeRangeBlobAt buf = decodeRangeBlob buf := by
  rw [decodeRangeBlobAt, decodeRangeBlob, blobBytes_eq, splitBytes]
  by_cases hlen : buf.length < 8
  · rw [if_pos hlen, if_neg (by omega)]
    rfl
  · rw [if_neg hlen, if_pos (by omega), sliceTo, if_pos (by omega)]
    change (if maxEntries < leNat (buf.take 8) then _ else _) =
      if maxEntries < leNat (buf.take 8) then _ else _
    split
    · rfl
    · exact (locates_decodeRangeEntriesAt _ (by omega)).finish badRangeBlob

/-! ## Round trips -/

theorem blobBytes_eq_ok {n : ℕ} {buf a rest : Bytes} (h : blobBytes n buf = .ok (a, rest)) :
    buf = a ++ rest ∧ a.length = n := by
  rw [blobBytes] at h
  split at h
  · rename_i hsplit
    cases h
    exact splitBytes_eq_some hsplit
  · cases h

/-- What an entry decodes from is its encoding, which fits its field. -/
theorem decodeRangeEntry_canonical {buf rest : Bytes} {e : Value × UInt64}
    (h : decodeRangeEntry buf = .ok (e, rest)) :
    buf = encodeRangeEntry e ++ rest ∧ e.1.BlobFits := by
  rw [decodeRangeEntry, bind_eq_ok] at h
  obtain ⟨⟨len, buf₁⟩, hread₁, h⟩ := h
  rw [bind_eq_ok] at h
  obtain ⟨⟨bytes, buf₂⟩, hread₂, h⟩ := h
  rw [bind_eq_ok] at h
  obtain ⟨row, hrow, h⟩ := h
  obtain ⟨rfl, hlen⟩ := blobBytes_eq_ok hread₁
  obtain ⟨rfl, hbytes⟩ := blobBytes_eq_ok hread₂
  rcases row with _ | ⟨v, _ | ⟨_, _⟩⟩
  · cases h
  · rw [bind_eq_ok] at h
    obtain ⟨⟨rowid, buf₃⟩, hread₃, h⟩ := h
    obtain ⟨rfl, hrowid⟩ := blobBytes_eq_ok hread₃
    cases h
    obtain ⟨rfl, hfits⟩ := decodeRow_eq_ok hrow
    have hlt := leNat_lt len
    have hid := leNat_lt rowid
    rw [hlen] at hlt
    rw [hrowid] at hid
    refine ⟨?_, hfits.values v List.mem_cons_self, ?_⟩
    · rw [encodeRangeEntry, hbytes, UInt64.toNat_ofNat_of_lt' hid, ← hlen, leBytes_leNat,
        ← hrowid, leBytes_leNat, List.append_assoc, List.append_assoc]
    · rw [hbytes]
      exact hlt
  · cases h

theorem decodeRangeEntries_canonical {n : ℕ} {buf rest : Bytes} {es : List (Value × UInt64)}
    (h : decodeRangeEntries n buf = .ok (es, rest)) :
    buf = es.flatMap encodeRangeEntry ++ rest ∧ es.length = n ∧ ∀ e ∈ es, e.1.BlobFits := by
  induction n generalizing buf es with
  | zero =>
    cases h
    exact ⟨rfl, rfl, by simp⟩
  | succ n ih =>
    rw [decodeRangeEntries, bind_eq_ok] at h
    obtain ⟨⟨e, buf'⟩, he, h⟩ := h
    rw [bind_eq_ok] at h
    obtain ⟨⟨es', buf''⟩, hes, h⟩ := h
    cases h
    obtain ⟨rfl, hfit⟩ := decodeRangeEntry_canonical he
    obtain ⟨rfl, hlen, hfits⟩ := ih hes
    rw [List.flatMap_cons, List.length_cons, hlen, List.append_assoc]
    exact ⟨rfl, rfl, List.forall_mem_cons.mpr ⟨hfit, hfits⟩⟩

/-- A buffer that decodes is the encoding of the entries it decodes to. -/
theorem decodeRangeBlob_canonical {buf : Bytes} {es : List (Value × UInt64)}
    (h : decodeRangeBlob buf = .ok es) :
    buf = encodeRangeBlob es ∧ es.length ≤ maxEntries ∧ ∀ e ∈ es, e.1.BlobFits := by
  rw [decodeRangeBlob, bind_eq_ok] at h
  obtain ⟨⟨count, buf₁⟩, hread, h⟩ := h
  obtain ⟨rfl, hcount⟩ := blobBytes_eq_ok hread
  dsimp only at h
  split at h
  · cases h
  · rename_i hroom
    obtain ⟨⟨es', buf₂⟩, hes, hend⟩ := bind_eq_ok.mp h
    obtain ⟨rfl, hlen, hfits⟩ := decodeRangeEntries_canonical hes
    by_cases hnil : buf₂ = []
    · simp only [hnil, if_true] at hend
      cases hend
      refine ⟨?_, ?_, hfits⟩
      · rw [encodeRangeBlob, hlen, ← hcount, leBytes_leNat, hnil, List.append_nil]
      · rw [hlen]
        exact not_lt.mp hroom
    · simp only [hnil, if_false] at hend
      cases hend

theorem rowFits_iff (row : Row) : RowFits row ↔ row.length ≤ 65535 ∧
    (∀ s, Value.text s ∈ row → (utf8 s).length < 2 ^ 32) ∧
    ∀ v, Value.vector v ∈ row → v.length < 2 ^ 32 := by
  constructor
  · intro h
    exact ⟨Nat.le_of_lt_succ h.length, fun s hs => h.values _ hs, fun v hv => h.values _ hv⟩
  · rintro ⟨hlen, htext, hvector⟩
    refine ⟨Nat.lt_succ_of_le hlen, fun v hv => ?_⟩
    cases v with
    | null | int n | real x => trivial
    | text s => exact htext s hv
    | vector v => exact hvector v hv

/-- A row decodes to itself exactly if its lengths fit their fields. -/
theorem decodeRow_encodeRow_iff (row : Row) : decodeRow (encodeRow row) = .ok row ↔ RowFits row :=
  ⟨fun h => (decodeRow_eq_ok h).2, decodeRow_encodeRow⟩

/-- A value whose encoding fits the field of a range index fits the fields of a row. -/
theorem Value.blobFits_iff (v : Value) : v.BlobFits ↔ (encodeRow [v]).length < 2 ^ 32 := by
  refine ⟨fun h => h.2, fun h => ⟨?_, h⟩⟩
  cases v with
  | null | int n | real x => trivial
  | text s =>
    simp only [encodeRow, encodeValue, List.flatMap_singleton, List.length_append,
      List.length_cons, length_leBytes] at h
    rw [Value.Fits]
    omega
  | vector w =>
    simp only [encodeRow, encodeValue, List.flatMap_singleton, List.length_append,
      List.length_cons, length_leBytes, List.length_flatMap, List.map_const', List.sum_replicate,
      smul_eq_mul] at h
    rw [Value.Fits]
    omega

/-- A range index decodes to itself exactly if it fits into a vector and its lengths fit their
fields. -/
theorem decodeRangeBlob_encodeRangeBlob_iff (es : List (Value × UInt64)) :
    decodeRangeBlob (encodeRangeBlob es) = .ok es ↔
      es.length ≤ maxEntries ∧ ∀ e ∈ es, (encodeRow [e.1]).length < 2 ^ 32 := by
  constructor
  · intro h
    obtain ⟨-, hlen, hfits⟩ := decodeRangeBlob_canonical h
    exact ⟨hlen, fun e he => (hfits e he).2⟩
  · rintro ⟨hlen, hfits⟩
    exact decodeRangeBlob_encodeRangeBlob hlen fun e he => e.1.blobFits_iff.mpr (hfits e he)

theorem decodeRow_ne_panicked (buf : Bytes) : decodeRow buf ≠ .error .panicked := by
  rw [decodeRow]
  split <;> simp

theorem bind_ne_panicked {x : Except EngineError α} {f : α → Except EngineError β}
    (hx : x ≠ .error .panicked) (hf : ∀ a, f a ≠ .error .panicked) :
    (x >>= f) ≠ .error .panicked := by
  cases x with
  | error err => exact fun h => hx (congrArg Except.error (Except.error.inj h))
  | ok a => exact hf a

theorem blobBytes_ne_panicked (n : ℕ) (buf : Bytes) : blobBytes n buf ≠ .error .panicked := by
  rw [blobBytes]
  split <;> simp [badRangeBlob]

theorem decodeRangeEntry_ne_panicked (buf : Bytes) : decodeRangeEntry buf ≠ .error .panicked := by
  refine bind_ne_panicked (blobBytes_ne_panicked 4 buf) fun r => ?_
  refine bind_ne_panicked (blobBytes_ne_panicked _ _) fun r => ?_
  refine bind_ne_panicked (decodeRow_ne_panicked _) fun row => ?_
  match row with
  | [] => simp [badRangeBlob]
  | _ :: _ :: _ => simp [badRangeBlob]
  | [v] => exact bind_ne_panicked (blobBytes_ne_panicked 8 _) fun r => by simp [pure, Except.pure]

theorem decodeRangeEntries_ne_panicked (n : ℕ) (buf : Bytes) :
    decodeRangeEntries n buf ≠ .error .panicked := by
  induction n generalizing buf with
  | zero => simp [decodeRangeEntries]
  | succ n ih =>
    refine bind_ne_panicked (decodeRangeEntry_ne_panicked buf) fun r => ?_
    exact bind_ne_panicked (ih _) fun r => by simp [pure, Except.pure]

/-- A range index panics exactly if its first eight bytes count more entries than fit into a
vector. -/
theorem decodeRangeBlob_eq_panicked_iff (buf : Bytes) :
    decodeRangeBlob buf = .error .panicked ↔
      8 ≤ buf.length ∧ maxEntries < leNat (buf.take 8) := by
  rw [decodeRangeBlob, blobBytes, splitBytes]
  by_cases hlen : 8 ≤ buf.length
  · rw [if_pos hlen, and_iff_right hlen]
    dsimp only
    rw [ok_bind]
    by_cases hroom : maxEntries < leNat (buf.take 8)
    · simp [hroom]
    · rw [if_neg hroom]
      refine iff_of_false (bind_ne_panicked (decodeRangeEntries_ne_panicked _ _) fun r => ?_) hroom
      split <;> simp [badRangeBlob, pure, Except.pure]
  · rw [if_neg hlen]
    exact iff_of_false (by simp [badRangeBlob, Bind.bind, Except.bind]) fun h => hlen h.1

/-- **The codecs are inverse as far as lengths fit their fields.** What is accepted is always the
encoding of what it decodes to, a row or a list of entries comes back exactly if every length in it
fits, and a decoder panics exactly if it is a count of range entries that fits into no vector. -/
theorem codecs_exact (row row' : Row) (es : List (Value × UInt64)) (buf : Bytes) :
    (decodeRow (encodeRow row) = .ok row ↔ row.length ≤ 65535 ∧
      (∀ s, Value.text s ∈ row → (utf8 s).length < 2 ^ 32) ∧
      ∀ v, Value.vector v ∈ row → v.length < 2 ^ 32) ∧
    (decodeRow buf = .ok row → encodeRow row = buf) ∧
    (RowFits row → RowFits row' → encodeRow row = encodeRow row' → row = row') ∧
    (decodeRangeBlob (encodeRangeBlob es) = .ok es ↔
      es.length ≤ maxEntries ∧ ∀ e ∈ es, (encodeRow [e.1]).length < 2 ^ 32) ∧
    (decodeRangeBlob buf = .ok es → encodeRangeBlob es = buf) ∧
    decodeRowAt buf = decodeRow buf ∧ decodeRowAt buf ≠ .error .panicked ∧
    decodeRangeBlobAt buf = decodeRangeBlob buf ∧
    (decodeRangeBlobAt buf = .error .panicked ↔
      8 ≤ buf.length ∧ maxEntries < leNat (buf.take 8)) := by
  refine ⟨?_, fun h => (decodeRow_eq_ok h).1.symm, fun h h' heq => ?_,
    decodeRangeBlob_encodeRangeBlob_iff es, fun h => (decodeRangeBlob_canonical h).1.symm, ?_⟩
  · rw [decodeRow_encodeRow_iff, rowFits_iff]
  · have hrow := decodeRow_encodeRow h
    rw [heq, decodeRow_encodeRow h'] at hrow
    exact (Except.ok.inj hrow).symm
  · rw [decodeRowAt_eq, decodeRangeBlobAt_eq]
    exact ⟨rfl, decodeRow_ne_panicked buf, rfl, decodeRangeBlob_eq_panicked_iff buf⟩

/-- A text of `2 ^ 32 - 7` bytes, shorter than any text field allows, does not come back from a
range index: with its own header it takes `2 ^ 32` bytes. A vector of `2 ^ 32` components does not
come back from a row. A range index of eight bytes `0xff` panics. -/
theorem codecs_truncate :
    let s := String.ofList (List.replicate (2 ^ 32 - 7) 'a')
    let v : List F32 := List.replicate (2 ^ 32) ⟨0⟩
    (utf8 s).length < 2 ^ 32 ∧
      decodeRangeBlob (encodeRangeBlob [(.text s, 0)]) ≠ .ok [(.text s, 0)] ∧
      decodeRow (encodeRow [.vector v]) ≠ .ok [.vector v] ∧
      decodeRangeBlobAt (List.replicate 8 0xff) = .error .panicked := by
  intro s v
  have hs : (utf8 s).length = 2 ^ 32 - 7 := by rw [utf8_replicate, List.length_replicate]
  refine ⟨by omega, fun h => ?_, fun h => ?_, by decide⟩
  · have hlen := ((decodeRangeBlob_encodeRangeBlob_iff _).mp h).2 _ List.mem_cons_self
    rw [encodeRow_text] at hlen
    simp only [List.length_append, List.length_cons, List.length_nil, length_leBytes, hs] at hlen
    omega
  · have hfit : v.length < 2 ^ 32 :=
      ((decodeRow_encodeRow_iff _).mp h).values _ List.mem_cons_self
    rw [List.length_replicate] at hfit
    exact lt_irrefl _ hfit

end Ciphra
