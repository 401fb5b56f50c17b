import Ciphra.Engine.Value

/-!
# Binary codecs for schemas, rows and range indexes

Lengths are written into fixed-width fields: a row counts its columns in two bytes and the bytes of
a text in four, a schema counts names and columns in two, a range index counts the bytes of an
encoded value in four. `Value.Fits`, `SchemaFits` and `BlobFits` say when they hold, and the round
trips `decodeRow_encodeRow`, `decodeSchema_encodeSchema` and `decodeRangeBlob_encodeRangeBlob` need
nothing more.

Beyond the fields, a row may decode to another row, but a schema and a range index are never
mistaken for another one: `decodeSchema_eq_ok` and `decodeRangeBlob_eq_ok`.
-/

namespace Ciphra

/-! ## Strings as bytes -/

/-- The UTF-8 bytes of a string. -/
def utf8 (s : String) : Bytes := s.toByteArray.data.toList

/-- The string of UTF-8 bytes. -/
def fromUtf8 (b : Bytes) : Option String := String.fromUTF8? ⟨b.toArray⟩

@[simp] theorem fromUtf8_utf8 (s : String) : fromUtf8 (utf8 s) = some s := by
  have h : (⟨(utf8 s).toArray⟩ : ByteArray) = s.toByteArray := by simp [utf8]
  rw [fromUtf8, h, String.fromUTF8?, dif_pos s.isValidUTF8]
  rfl

theorem utf8_of_fromUtf8 {b : Bytes} {s : String} (h : fromUtf8 b = some s) : utf8 s = b := by
  rw [fromUtf8, String.fromUTF8?] at h
  split at h
  · cases h
    rfl
  · cases h

theorem utf8_eq_flatMap (s : String) : utf8 s = s.toList.flatMap String.utf8EncodeChar := by
  have h : s.toByteArray = s.toList.utf8Encode := by
    rw [← String.toByteArray_ofList, String.ofList_toList]
  rw [utf8, h, List.utf8Encode]
  simp

theorem utf8_replicate (n : ℕ) :
    utf8 (String.ofList (List.replicate n 'a')) = List.replicate n 97 := by
  have ha : String.utf8EncodeChar 'a' = [97] := by decide
  rw [utf8_eq_flatMap, String.toList_ofList]
  induction n with
  | zero => rfl
  | succ n ih => rw [List.replicate_succ, List.flatMap_cons, ih, ha, List.replicate_succ]; rfl

/-! ## Taking bytes off a buffer -/

/-- The next `n` bytes and the rest, if there are so many. -/
def splitBytes (n : ℕ) (buf : Bytes) : Option (Bytes × Bytes) :=
  if n ≤ buf.length then some (buf.take n, buf.drop n) else none

theorem splitBytes_append {n : ℕ} {a : Bytes} (h : a.length = n) (b : Bytes) :
    splitBytes n (a ++ b) = some (a, b) := by
  subst h
  simp [splitBytes]

theorem splitBytes_eq_some {n : ℕ} {buf a b : Bytes} (h : splitBytes n buf = some (a, b)) :
    buf = a ++ b ∧ a.length = n := by
  rw [splitBytes] at h
  split at h
  · cases h
    simp_all
  · cases h

/-! ## Rows -/

def tagNull : UInt8 := 0
def tagInt : UInt8 := 1
def tagText : UInt8 := 2
def tagVector : UInt8 := 3
def tagReal : UInt8 := 4

/-- One value of a row: a tag byte, then nothing (NULL), eight bytes (INT, REAL), or a four-byte
length and the contents (TEXT, VECTOR). -/
def encodeValue : Value → Bytes
  | .null => [tagNull]
  | .int n => tagInt :: leBytes 8 n.toUInt64.toNat
  | .real x => tagReal :: leBytes 8 x.bits.toNat
  | .text s => tagText :: (leBytes 4 (utf8 s).length ++ utf8 s)
  | .vector v => tagVector :: (leBytes 4 v.length ++ v.flatMap fun x => leBytes 4 x.bits.toNat)

/-- Row layout: the number of columns in two bytes, then the values. -/
def encodeRow (values : Row) : Bytes :=
  leBytes 2 values.length ++ values.flatMap encodeValue

/-- The components of a vector. -/
def decodeComponents : ℕ → Bytes → Option (List F32 × Bytes)
  | 0, buf => some ([], buf)
  | n + 1, buf => do
    let (bits, buf) ← splitBytes 4 buf
    let (v, buf) ← decodeComponents n buf
    pure (⟨UInt32.ofNat (leNat bits)⟩ :: v, buf)

/-- Take one value off a buffer. -/
def decodeValue : Bytes → Option (Value × Bytes)
  | [] => none
  | tag :: buf =>
    if tag = tagNull then some (.null, buf)
    else if tag = tagInt then do
      let (bytes, buf) ← splitBytes 8 buf
      pure (.int (UInt64.ofNat (leNat bytes)).toInt64, buf)
    else if tag = tagReal then do
      let (bytes, buf) ← splitBytes 8 buf
      pure (.real ⟨UInt64.ofNat (leNat bytes)⟩, buf)
    else if tag = tagText then do
      let (len, buf) ← splitBytes 4 buf
      let (bytes, buf) ← splitBytes (leNat len) buf
      let text ← fromUtf8 bytes
      pure (.text text, buf)
    else if tag = tagVector then do
      let (len, buf) ← splitBytes 4 buf
      let (v, buf) ← decodeComponents (leNat len) buf
      pure (.vector v, buf)
    else none

/-- Take `n` values off a buffer. -/
def decodeValues : ℕ → Bytes → Option (Row × Bytes)
  | 0, buf => some ([], buf)
  | n + 1, buf => do
    let (v, buf) ← decodeValue buf
    let (vs, buf) ← decodeValues n buf
    pure (v :: vs, buf)

def decodeRow (buf : Bytes) : Except EngineError Row :=
  let row : Option (Row × Bytes) := do
    let (ncols, buf) ← splitBytes 2 buf
    decodeValues (leNat ncols) buf
  match row with
  | some (values, []) => .ok values
  | _ => .error (.corrupt "bad row record")

/-- The length of the contents fits its four-byte field. -/
def Value.Fits : Value → Prop
  | .text s => (utf8 s).length < 2 ^ 32
  | .vector v => v.length < 2 ^ 32
  | _ => True

/-- Every field of the row's encoding holds its length. -/
structure RowFits (row : Row) : Prop where
  length : row.length < 2 ^ 16
  values : ∀ v ∈ row, v.Fits

theorem decodeComponents_append (v : List F32) (rest : Bytes) :
    decodeComponents v.length ((v.flatMap fun x => leBytes 4 x.bits.toNat) ++ rest) =
      some (v, rest) := by
  induction v with
  | nil => rfl
  | cons x v ih =>
    have hx : leNat (leBytes 4 x.bits.toNat) = x.bits.toNat :=
      leNat_leBytes_of_lt x.bits.toNat_lt
    rw [List.flatMap_cons, List.append_assoc, List.length_cons, decodeComponents,
      splitBytes_append (length_leBytes _ _)]
    simp [ih, hx]

/-- Decoding a value takes exactly its encoding off the buffer. -/
theorem decodeValue_append {v : Value} (h : v.Fits) (rest : Bytes) :
    decodeValue (encodeValue v ++ rest) = some (v, rest) := by
  cases v with
  | null => rfl
  | int n =>
    have hn : leNat (leBytes 8 n.toUInt64.toNat) = n.toUInt64.toNat :=
      leNat_leBytes_of_lt n.toUInt64.toNat_lt
    have hback : Int64.ofNat n.toUInt64.toNat = n := by
      rw [← UInt64.toInt64_ofNat', UInt64.ofNat_toNat]
      rfl
    simp [encodeValue, decodeValue, tagInt, tagNull, splitBytes_append (length_leBytes _ _), hn,
      hback]
  | real x =>
    have hx : leNat (leBytes 8 x.bits.toNat) = x.bits.toNat := leNat_leBytes_of_lt x.bits.toNat_lt
    simp [encodeValue, decodeValue, tagInt, tagNull, tagReal,
      splitBytes_append (length_leBytes _ _), hx]
  | text s =>
    have hs : leNat (leBytes 4 (utf8 s).length) = (utf8 s).length := leNat_leBytes_of_lt h
    simp [encodeValue, decodeValue, tagInt, tagNull, tagReal, tagText,
      splitBytes_append (length_leBytes _ _), hs, splitBytes_append rfl]
  | vector v =>
    have hv : leNat (leBytes 4 v.length) = v.length := leNat_leBytes_of_lt h
    simp [encodeValue, decodeValue, tagInt, tagNull, tagReal, tagText, tagVector,
      splitBytes_append (length_leBytes _ _), hv, decodeComponents_append]

theorem decodeValues_append {row : Row} (h : ∀ v ∈ row, v.Fits) (rest : Bytes) :
    decodeValues row.length (row.flatMap encodeValue ++ rest) = some (row, rest) := by
  induction row with
  | nil => rfl
  | cons v row ih =>
    rw [List.flatMap_cons, List.append_assoc, List.length_cons, decodeValues,
      decodeValue_append (h v List.mem_cons_self)]
    simp [ih fun w hw => h w (List.mem_cons_of_mem _ hw)]

/-- The row codec is exact on rows whose lengths fit their fields. -/
theorem decodeRow_encodeRow {row : Row} (h : RowFits row) : decodeRow (encodeRow row) = .ok row := by
  have hlen : leNat (leBytes 2 row.length) = row.length := leNat_leBytes_of_lt h.length
  have hvals := decodeValues_append h.values []
  rw [List.append_nil] at hvals
  simp [decodeRow, encodeRow, splitBytes_append (length_leBytes _ _), hlen, hvals]

/-- A row of three columns. -/
example : encodeRow [.null, .int 258, .text "a"] =
    [3, 0, 0, 1, 2, 1, 0, 0, 0, 0, 0, 0, 2, 1, 0, 0, 0, 97] := by
  decide +kernel

theorem decodeComponents_eq_some {n : ℕ} {buf : Bytes} {v : List F32} {rest : Bytes}
    (h : decodeComponents n buf = some (v, rest)) :
    buf = (v.flatMap fun x => leBytes 4 x.bits.toNat) ++ rest ∧ v.length = n := by
  induction n generalizing buf v with
  | zero =>
    cases h
    exact ⟨rfl, rfl⟩
  | succ n ih =>
    simp only [decodeComponents, Option.bind_eq_bind, Option.bind_eq_some_iff, Prod.exists,
      Option.pure_def, Option.some.injEq, Prod.mk.injEq] at h
    obtain ⟨bits, buf', hs, w, buf'', hd, rfl, rfl⟩ := h
    obtain ⟨rfl, hlen⟩ := splitBytes_eq_some hs
    obtain ⟨rfl, hw⟩ := ih hd
    have hbits : leBytes 4 (UInt32.ofNat (leNat bits)).toNat = bits := by
      have hlt : leNat bits < 2 ^ 32 := by
        have := leNat_lt bits
        rwa [hlen] at this
      rw [UInt32.toNat_ofNat_of_lt' hlt, ← hlen, leBytes_leNat]
    rw [List.flatMap_cons, hbits, List.length_cons, hw, List.append_assoc]
    exact ⟨rfl, rfl⟩

/-- What a value decodes from is its encoding, and its lengths fit their fields. -/
theorem decodeValue_eq_some {buf : Bytes} {v : Value} {rest : Bytes}
    (h : decodeValue buf = some (v, rest)) : buf = encodeValue v ++ rest ∧ v.Fits := by
  cases buf with
  | nil => cases h
  | cons tag buf =>
    have h64 : ∀ bytes : Bytes, bytes.length = 8 →
        leBytes 8 (UInt64.ofNat (leNat bytes)).toNat = bytes := by
      intro bytes hlen
      have hlt : leNat bytes < 2 ^ 64 := by
        have := leNat_lt bytes
        rwa [hlen] at this
      rw [UInt64.toNat_ofNat_of_lt' hlt, ← hlen, leBytes_leNat]
    have h32 : ∀ bytes : Bytes, bytes.length = 4 →
        leBytes 4 (leNat bytes) = bytes ∧ leNat bytes < 2 ^ 32 := by
      intro bytes hlen
      have := leNat_lt bytes
      rw [hlen] at this
      exact ⟨by rw [← hlen, leBytes_leNat], this⟩
    rw [decodeValue] at h
    split at h
    · rename_i htag
      cases h
      exact ⟨by rw [htag]; rfl, trivial⟩
    split at h
    · rename_i htag
      simp only [Option.bind_eq_bind, Option.bind_eq_some_iff, Prod.exists, Option.pure_def,
        Option.some.injEq, Prod.mk.injEq] at h
      obtain ⟨bytes, buf', hs, rfl, rfl⟩ := h
      obtain ⟨rfl, hlen⟩ := splitBytes_eq_some hs
      refine ⟨?_, trivial⟩
      have := h64 bytes hlen
      rw [htag, encodeValue, List.cons_append]
      congr 2
      exact this.symm
    split at h
    · rename_i htag
      simp only [Option.bind_eq_bind, Option.bind_eq_some_iff, Prod.exists, Option.pure_def,
        Option.some.injEq, Prod.mk.injEq] at h
      obtain ⟨bytes, buf', hs, rfl, rfl⟩ := h
      obtain ⟨rfl, hlen⟩ := splitBytes_eq_some hs
      refine ⟨?_, trivial⟩
      rw [htag, encodeValue, List.cons_append, h64 bytes hlen]
    split at h
    · rename_i htag
      simp only [Option.bind_eq_bind, Option.bind_eq_some_iff, Prod.exists, Option.pure_def,
        Option.some.injEq, Prod.mk.injEq] at h
      obtain ⟨len, buf', hs, bytes, buf'', hs', s, hutf, rfl, rfl⟩ := h
      obtain ⟨rfl, hlen⟩ := splitBytes_eq_some hs
      obtain ⟨rfl, hlen'⟩ := splitBytes_eq_some hs'
      obtain ⟨hback, hlt⟩ := h32 len hlen
      have hbytes := utf8_of_fromUtf8 hutf
      refine ⟨?_, ?_⟩
      · rw [htag, encodeValue, List.cons_append, hbytes, hlen', hback, List.append_assoc]
      · rw [Value.Fits, hbytes, hlen']
        exact hlt
    split at h
    · rename_i htag
      simp only [Option.bind_eq_bind, Option.bind_eq_some_iff, Prod.exists, Option.pure_def,
        Option.some.injEq, Prod.mk.injEq] at h
      obtain ⟨len, buf', hs, v, buf'', hd, rfl, rfl⟩ := h
      obtain ⟨rfl, hlen⟩ := splitBytes_eq_some hs
      obtain ⟨rfl, hv⟩ := decodeComponents_eq_some hd
      obtain ⟨hback, hlt⟩ := h32 len hlen
      refine ⟨?_, ?_⟩
      · rw [htag, encodeValue, List.cons_append, hv, hback, List.append_assoc]
      · rw [Value.Fits, hv]
        exact hlt
    · cases h

theorem decodeValues_eq_some {n : ℕ} {buf : Bytes} {row : Row} {rest : Bytes}
    (h : decodeValues n buf = some (row, rest)) :
    buf = row.flatMap encodeValue ++ rest ∧ row.length = n ∧ ∀ v ∈ row, v.Fits := by
  induction n generalizing buf row with
  | zero =>
    cases h
    exact ⟨rfl, rfl, by simp⟩
  | succ n ih =>
    simp only [decodeValues, Option.bind_eq_bind, Option.bind_eq_some_iff, Prod.exists,
      Option.pure_def, Option.some.injEq, Prod.mk.injEq] at h
    obtain ⟨v, buf', hv, vs, buf'', hvs, rfl, rfl⟩ := h
    obtain ⟨rfl, hfit⟩ := decodeValue_eq_some hv
    obtain ⟨rfl, hlen, hfits⟩ := ih hvs
    rw [List.flatMap_cons, List.length_cons, hlen, List.append_assoc]
    exact ⟨rfl, rfl, List.forall_mem_cons.mpr ⟨hfit, hfits⟩⟩

/-- A buffer that decodes is the encoding of the row it decodes to. -/
theorem decodeRow_eq_ok {buf : Bytes} {row : Row} (h : decodeRow buf = .ok row) :
    buf = encodeRow row ∧ RowFits row := by
  simp only [decodeRow] at h
  split at h
  · rename_i values hrow
    cases h
    simp only [Option.bind_eq_bind, Option.bind_eq_some_iff, Prod.exists] at hrow
    obtain ⟨ncols, buf', hs, hvals⟩ := hrow
    obtain ⟨rfl, hlen⟩ := splitBytes_eq_some hs
    obtain ⟨rfl, hn, hfits⟩ := decodeValues_eq_some hvals
    have hlt := leNat_lt ncols
    rw [hlen] at hlt
    refine ⟨?_, ?_, hfits⟩
    · rw [encodeRow, hn, ← hlen, leBytes_leNat, List.append_nil]
    · rw [hn]
      exact hlt
  · cases h

/-! ## Schemas -/

def schemaVersion : UInt8 := 2

def flagEncrypted : UInt8 := 1
def flagPrimaryKey : UInt8 := 2
def flagIndexed : UInt8 := 4
def flagRangeIndexed : UInt8 := 8

/-- The flags byte of a column. -/
def schemaFlags (encrypted primaryKey indexed rangeIndexed : Bool) : UInt8 :=
  (if encrypted then flagEncrypted else 0) ||| (if primaryKey then flagPrimaryKey else 0) |||
    (if indexed then flagIndexed else 0) ||| (if rangeIndexed then flagRangeIndexed else 0)

def encodeType : DataType → Bytes
  | .int => [tagInt]
  | .real => [tagReal]
  | .text => [tagText]
  | .vector dim => tagVector :: leBytes 2 dim.toNat

def encodeColumn (col : ColumnDef) : Bytes :=
  schemaFlags col.encrypted col.primaryKey col.indexed col.rangeIndexed ::
    (encodeType col.ty ++ (leBytes 2 (utf8 col.name).length ++ utf8 col.name))

/-- Schema layout: a version byte, the name's length in two bytes and the name, the number of
columns in two bytes, then the columns: flags, type, length of the name in two bytes, name. -/
def encodeSchema (schema : TableSchema) : Bytes :=
  schemaVersion :: (leBytes 2 (utf8 schema.name).length ++ (utf8 schema.name ++
    (leBytes 2 schema.columns.length ++ schema.columns.flatMap encodeColumn)))

def decodeType : Bytes → Option (DataType × Bytes)
  | [] => none
  | tag :: buf =>
    if tag = tagInt then some (.int, buf)
    else if tag = tagReal then some (.real, buf)
    else if tag = tagText then some (.text, buf)
    else if tag = tagVector then do
      let (dim, buf) ← splitBytes 2 buf
      pure (.vector (UInt16.ofNat (leNat dim)), buf)
    else none

/-- A name behind its two-byte length. -/
def decodeName (buf : Bytes) : Option (String × Bytes) := do
  let (len, buf) ← splitBytes 2 buf
  let (bytes, buf) ← splitBytes (leNat len) buf
  let name ← fromUtf8 bytes
  pure (name, buf)

def decodeColumn : Bytes → Option (ColumnDef × Bytes)
  | [] => none
  | flags :: buf => do
    let (ty, buf) ← decodeType buf
    let (name, buf) ← decodeName buf
    pure ({ name, ty, encrypted := flags &&& flagEncrypted != 0,
            primaryKey := flags &&& flagPrimaryKey != 0, indexed := flags &&& flagIndexed != 0,
            rangeIndexed := flags &&& flagRangeIndexed != 0 }, buf)

def decodeColumns : ℕ → Bytes → Option (List ColumnDef × Bytes)
  | 0, buf => some ([], buf)
  | n + 1, buf => do
    let (col, buf) ← decodeColumn buf
    let (cols, buf) ← decodeColumns n buf
    pure (col :: cols, buf)

def decodeSchema (buf : Bytes) : Except EngineError TableSchema :=
  let schema : Option (TableSchema × Bytes) := do
    let (version, buf) ← splitBytes 1 buf
    if version = [schemaVersion] then
      let (name, buf) ← decodeName buf
      let (ncols, buf) ← splitBytes 2 buf
      let (columns, buf) ← decodeColumns (leNat ncols) buf
      pure ({ name, columns }, buf)
    else none
  match schema with
  | some (schema, []) => .ok schema
  | _ => .error (.corrupt "bad schema record in catalog")

/-- Every field of the schema's encoding holds its length. -/
structure SchemaFits (schema : TableSchema) : Prop where
  name : (utf8 schema.name).length < 2 ^ 16
  ncols : schema.columns.length < 2 ^ 16
  columns : ∀ c ∈ schema.columns, (utf8 c.name).length < 2 ^ 16

theorem decodeType_append (ty : DataType) (rest : Bytes) :
    decodeType (encodeType ty ++ rest) = some (ty, rest) := by
  cases ty with
  | int => rfl
  | real => rfl
  | text => rfl
  | vector dim =>
    have hd : leNat (leBytes 2 dim.toNat) = dim.toNat := leNat_leBytes_of_lt dim.toNat_lt
    simp [encodeType, decodeType, tagInt, tagReal, tagText, tagVector,
      splitBytes_append (length_leBytes _ _), hd]

theorem decodeName_append {name : String} (h : (utf8 name).length < 2 ^ 16) (rest : Bytes) :
    decodeName (leBytes 2 (utf8 name).length ++ (utf8 name ++ rest)) = some (name, rest) := by
  have hl : leNat (leBytes 2 (utf8 name).length) = (utf8 name).length := leNat_leBytes_of_lt h
  simp [decodeName, splitBytes_append (length_leBytes _ _), hl, splitBytes_append rfl]

theorem schemaFlags_and (e p i r : Bool) :
    (schemaFlags e p i r &&& flagEncrypted != 0) = e ∧
      (schemaFlags e p i r &&& flagPrimaryKey != 0) = p ∧
      (schemaFlags e p i r &&& flagIndexed != 0) = i ∧
      (schemaFlags e p i r &&& flagRangeIndexed != 0) = r := by
  revert e p i r
  decide

theorem decodeColumn_append {c : ColumnDef} (h : (utf8 c.name).length < 2 ^ 16) (rest : Bytes) :
    decodeColumn (encodeColumn c ++ rest) = some (c, rest) := by
  obtain ⟨he, hp, hi, hr⟩ := schemaFlags_and c.encrypted c.primaryKey c.indexed c.rangeIndexed
  simp [encodeColumn, decodeColumn, decodeType_append, decodeName_append h, he, hp, hi, hr]

theorem decodeColumns_append {cols : List ColumnDef}
    (h : ∀ c ∈ cols, (utf8 c.name).length < 2 ^ 16) (rest : Bytes) :
    decodeColumns cols.length (cols.flatMap encodeColumn ++ rest) = some (cols, rest) := by
  induction cols with
  | nil => rfl
  | cons c cols ih =>
    rw [List.flatMap_cons, List.append_assoc, List.length_cons, decodeColumns,
      decodeColumn_append (h c List.mem_cons_self)]
    simp [ih fun c' hc' => h c' (List.mem_cons_of_mem _ hc')]

/-- The schema codec is exact on schemas whose lengths fit their fields. -/
theorem decodeSchema_encodeSchema {schema : TableSchema} (h : SchemaFits schema) :
    decodeSchema (encodeSchema schema) = .ok schema := by
  have hn : leNat (leBytes 2 schema.columns.length) = schema.columns.length :=
    leNat_leBytes_of_lt h.ncols
  have hcols := decodeColumns_append h.columns []
  rw [List.append_nil] at hcols
  have hversion : ∀ rest, splitBytes 1 (schemaVersion :: rest) = some ([schemaVersion], rest) :=
    fun rest => splitBytes_append (a := [schemaVersion]) rfl rest
  simp [decodeSchema, encodeSchema, hversion, decodeName_append h.name,
    splitBytes_append (length_leBytes _ _), hn, hcols]

/-! A schema that does not fit is never mistaken for another one: the bytes of a name that is too
long are identifier characters, and none of them is a type tag. -/

/-- No byte of the name is the tag of a type. -/
def NameBytes (name : String) : Prop := ∀ b ∈ utf8 name, 0x30 ≤ b.toNat

theorem decodeType_of_le {tag : UInt8} (h : 0x30 ≤ tag.toNat) (buf : Bytes) :
    decodeType (tag :: buf) = none := by
  have hne : ∀ t : UInt8, t.toNat < 0x30 → tag ≠ t := by
    rintro t ht rfl
    omega
  rw [decodeType, if_neg (hne _ (by decide)), if_neg (hne _ (by decide)),
    if_neg (hne _ (by decide)), if_neg (hne _ (by decide))]

theorem decodeColumn_of_le {a b : UInt8} (h : 0x30 ≤ b.toNat) (buf : Bytes) :
    decodeColumn (a :: b :: buf) = none := by
  rw [decodeColumn, decodeType_of_le h]
  rfl

/-- Columns never decode from the middle of a name. -/
theorem decodeColumns_of_nameBytes {bytes : Bytes} (h : ∀ b ∈ bytes, 0x30 ≤ b.toNat)
    (hlen : 2 ≤ bytes.length) (rest : Bytes) {n : ℕ} {cols : List ColumnDef} :
    decodeColumns n (bytes ++ rest) ≠ some (cols, []) := by
  match bytes, hlen with
  | a :: b :: bytes, _ =>
    intro hd
    cases n with
    | zero => cases hd
    | succ n =>
      rw [decodeColumns, List.cons_append, List.cons_append, decodeColumn_of_le (h b (by simp))]
        at hd
      cases hd

/-- Where a name ends up when its length does not fit its field. -/
theorem decodeName_overflow {name : String} (h : 2 ^ 16 ≤ (utf8 name).length) {rest buf : Bytes}
    {out : String}
    (hd : decodeName (leBytes 2 (utf8 name).length ++ (utf8 name ++ rest)) = some (out, buf)) :
    ∃ tail, buf = tail ++ rest ∧ (∀ b ∈ tail, b ∈ utf8 name) ∧ 2 ^ 16 ≤ tail.length := by
  have hl := leNat_leBytes 2 (utf8 name).length
  have hlt : (utf8 name).length % 256 ^ 2 ≤ (utf8 name).length - 2 ^ 16 := by
    have := Nat.mod_lt (utf8 name).length (show 0 < 256 ^ 2 by decide)
    have := Nat.div_add_mod (utf8 name).length (256 ^ 2)
    have : 1 ≤ (utf8 name).length / 256 ^ 2 := (Nat.one_le_div_iff (by decide)).mpr (by simpa using h)
    omega
  simp only [decodeName, splitBytes_append (length_leBytes _ _), Option.bind_eq_bind,
    Option.bind_some, Option.bind_eq_some_iff, Prod.exists, Option.pure_def, Option.some.injEq,
    Prod.mk.injEq] at hd
  obtain ⟨bytes, buf', hs, name', -, rfl, rfl⟩ := hd
  rw [splitBytes] at hs
  split at hs
  · cases hs
    refine ⟨(utf8 name).drop (leNat (leBytes 2 (utf8 name).length)), ?_, ?_, ?_⟩
    · rw [List.drop_append_of_le_length]
      omega
    · exact fun b hb => List.mem_of_mem_drop hb
    · rw [List.length_drop]
      omega
  · cases hs

theorem decodeColumns_eq_some {cols : List ColumnDef} (hn : ∀ c ∈ cols, NameBytes c.name) {n : ℕ}
    {out : List ColumnDef} (h : decodeColumns n (cols.flatMap encodeColumn) = some (out, [])) :
    n = cols.length ∧ out = cols ∧ ∀ c ∈ cols, (utf8 c.name).length < 2 ^ 16 := by
  induction cols generalizing n out with
  | nil =>
    cases n with
    | zero =>
      cases h
      exact ⟨rfl, rfl, by simp⟩
    | succ n => cases h
  | cons c cols ih =>
    cases n with
    | zero => cases h
    | succ n =>
      rw [List.flatMap_cons, decodeColumns] at h
      by_cases hc : (utf8 c.name).length < 2 ^ 16
      · rw [decodeColumn_append hc] at h
        simp only [Option.bind_eq_bind, Option.bind_some, Option.bind_eq_some_iff, Prod.exists,
          Option.pure_def, Option.some.injEq, Prod.mk.injEq] at h
        obtain ⟨out', buf, hd, rfl, rfl⟩ := h
        obtain ⟨rfl, rfl, hfit⟩ := ih (fun c' hc' => hn c' (List.mem_cons_of_mem _ hc')) hd
        exact ⟨rfl, rfl, List.forall_mem_cons.mpr ⟨hc, hfit⟩⟩
      · exfalso
        simp only [encodeColumn, List.cons_append, List.append_assoc, decodeColumn,
          decodeType_append, Option.bind_eq_bind, Option.bind_some, Option.bind_eq_some_iff,
          Prod.exists, Option.pure_def, Option.some.injEq, Prod.mk.injEq] at h
        obtain ⟨col, buf, ⟨name, buf', hname, -, rfl⟩, out', buf'', hd, -, rfl⟩ := h
        obtain ⟨tail, rfl, hmem, hlen⟩ := decodeName_overflow (by omega) hname
        exact decodeColumns_of_nameBytes
          (fun b hb => hn c List.mem_cons_self b (hmem b hb)) (by omega) _ hd

/-- A stored schema decodes to itself or not at all. -/
theorem decodeSchema_eq_ok {schema out : TableSchema} (hn : NameBytes schema.name)
    (hc : ∀ c ∈ schema.columns, NameBytes c.name)
    (h : decodeSchema (encodeSchema schema) = .ok out) : out = schema ∧ SchemaFits schema := by
  have hversion : ∀ rest, splitBytes 1 (schemaVersion :: rest) = some ([schemaVersion], rest) :=
    fun rest => splitBytes_append (a := [schemaVersion]) rfl rest
  simp only [decodeSchema, encodeSchema, hversion, Option.bind_eq_bind, Option.bind_some, if_true]
    at h
  split at h
  · rename_i out' hd
    cases h
    simp only [Option.bind_eq_some_iff, Prod.exists, Option.pure_def, Option.some.injEq,
      Prod.mk.injEq] at hd
    obtain ⟨name, buf, hname, ncols, buf', hs, columns, buf'', hcols, rfl, rfl⟩ := hd
    by_cases hfit : (utf8 schema.name).length < 2 ^ 16
    · rw [decodeName_append hfit] at hname
      cases hname
      rw [splitBytes_append (length_leBytes _ _)] at hs
      cases hs
      obtain ⟨hlen, rfl, hfits⟩ := decodeColumns_eq_some hc hcols
      refine ⟨rfl, hfit, ?_, hfits⟩
      rw [leNat_leBytes] at hlen
      have := Nat.mod_lt schema.columns.length (show 0 < 256 ^ 2 by decide)
      omega
    · exfalso
      obtain ⟨tail, rfl, hmem, hlen⟩ := decodeName_overflow (by omega) hname
      rw [splitBytes, if_pos (by rw [List.length_append]; omega)] at hs
      cases hs
      rw [List.drop_append_of_le_length (by omega)] at hcols
      refine decodeColumns_of_nameBytes (fun b hb => ?_) ?_ _ hcols
      · exact hn b (hmem b (List.mem_of_mem_drop hb))
      · rw [List.length_drop]
        omega
  · cases h

/-- Identifiers are made of such bytes. -/
theorem nameBytes_of_isIdent {name : String} (h : IsIdent name) : NameBytes name := by
  intro b hb
  rw [utf8_eq_flatMap, List.mem_flatMap] at hb
  obtain ⟨c, hc, hb⟩ := hb
  have hid := h c hc
  have hrange : 0x30 ≤ c.val.toNat ∧ c.val.toNat ≤ 0x7f := by
    have hlower : c.isLower = (decide ('a'.val ≤ c.val) && decide (c.val ≤ 'z'.val)) := rfl
    simp only [isIdentChar, hlower, Char.isDigit, Bool.or_eq_true, Bool.and_eq_true,
      decide_eq_true_eq, beq_iff_eq, UInt32.le_iff_toNat_le] at hid
    rw [show 'a'.val.toNat = 97 from rfl, show 'z'.val.toNat = 122 from rfl,
      show '0'.val.toNat = 48 from rfl, show '9'.val.toNat = 57 from rfl] at hid
    rcases hid with (⟨h1, h2⟩ | ⟨h1, h2⟩) | rfl
    · omega
    · omega
    · decide
  simp only [String.utf8EncodeChar, hrange.2, if_true, List.mem_singleton] at hb
  subst hb
  rw [UInt8.toNat_ofNat']
  omega

/-! ## Range indexes -/

/-- One entry of a range index: the length of the encoded value, the value, the row id. -/
def encodeRangeEntry (e : Value × UInt64) : Bytes :=
  leBytes 4 (encodeRow [e.1]).length ++ (encodeRow [e.1] ++ leBytes 8 e.2.toNat)

/-- Sealed range-index blob: the number of entries in eight bytes, then the entries. -/
def encodeRangeBlob (entries : List (Value × UInt64)) : Bytes :=
  leBytes 8 entries.length ++ entries.flatMap encodeRangeEntry

def badRangeBlob : EngineError := .corrupt "bad range-index blob"

/-- The next `n` bytes, or a corrupt blob. -/
def blobBytes (n : ℕ) (buf : Bytes) : Except EngineError (Bytes × Bytes) :=
  match splitBytes n buf with
  | some r => .ok r
  | none => .error badRangeBlob

def decodeRangeEntry (buf : Bytes) : Except EngineError ((Value × UInt64) × Bytes) := do
  let (len, buf) ← blobBytes 4 buf
  let (bytes, buf) ← blobBytes (leNat len) buf
  match ← decodeRow bytes with
  | [v] =>
    let (rowid, buf) ← blobBytes 8 buf
    pure ((v, UInt64.ofNat (leNat rowid)), buf)
  | _ => .error badRangeBlob

def decodeRangeEntries : ℕ → Bytes → Except EngineError (List (Value × UInt64) × Bytes)
  | 0, buf => .ok ([], buf)
  | n + 1, buf => do
    let (e, buf) ← decodeRangeEntry buf
    let (es, buf) ← decodeRangeEntries n buf
    pure (e :: es, buf)

/-- The entries that fit into a vector: one takes 40 bytes (a value of 32 and a row id of 8), and no
allocation is larger than `isize::MAX`. -/
def maxEntries : ℕ := (2 ^ 63 - 1) / 40

/-- The count is read off the buffer and room for as many entries is reserved at once: that panics
if they fit into no vector. -/
def decodeRangeBlob (buf : Bytes) : Except EngineError (List (Value × UInt64)) := do
  let (count, buf) ← blobBytes 8 buf
  if maxEntries < leNat count then .error .panicked
  else do
    let (entries, buf) ← decodeRangeEntries (leNat count) buf
    if buf = [] then pure entries else .error badRangeBlob

theorem maxEntries_pos : 0 < maxEntries := by decide

theorem maxEntries_lt : maxEntries < 2 ^ 64 := by decide

/-- The encoding of the value fits its four-byte field. -/
def Value.BlobFits (v : Value) : Prop := v.Fits ∧ (encodeRow [v]).length < 2 ^ 32

theorem blobBytes_append {n : ℕ} {a : Bytes} (h : a.length = n) (b : Bytes) :
    blobBytes n (a ++ b) = .ok (a, b) := by
  rw [blobBytes, splitBytes_append h]

theorem decodeRangeEntry_append {e : Value × UInt64} (h : e.1.BlobFits) (rest : Bytes) :
    decodeRangeEntry (encodeRangeEntry e ++ rest) = .ok (e, rest) := by
  have hlen : leNat (leBytes 4 (encodeRow [e.1]).length) = (encodeRow [e.1]).length :=
    leNat_leBytes_of_lt h.2
  have hid : leNat (leBytes 8 e.2.toNat) = e.2.toNat := leNat_leBytes_of_lt e.2.toNat_lt
  have hrow : decodeRow (encodeRow [e.1]) = .ok [e.1] :=
    decodeRow_encodeRow ⟨by simp, by simpa using h.1⟩
  rw [decodeRangeEntry, encodeRangeEntry, List.append_assoc, List.append_assoc,
    blobBytes_append (length_leBytes _ _)]
  simp only [Bind.bind, Except.bind, hlen, blobBytes_append rfl, hrow,
    blobBytes_append (length_leBytes _ _), hid, UInt64.ofNat_toNat]
  rfl

theorem decodeRangeEntries_append {es : List (Value × UInt64)} (h : ∀ e ∈ es, e.1.BlobFits)
    (rest : Bytes) :
    decodeRangeEntries es.length (es.flatMap encodeRangeEntry ++ rest) = .ok (es, rest) := by
  induction es with
  | nil => rfl
  | cons e es ih =>
    rw [List.flatMap_cons, List.append_assoc, List.length_cons, decodeRangeEntries,
      decodeRangeEntry_append (h e List.mem_cons_self)]
    simp [ih fun e' he' => h e' (List.mem_cons_of_mem _ he'), Bind.bind, Except.bind, Pure.pure,
      Except.pure]

/-- The blob codec is exact on entries whose values fit their fields. -/
theorem decodeRangeBlob_encodeRangeBlob {es : List (Value × UInt64)} (hlen : es.length ≤ maxEntries)
    (h : ∀ e ∈ es, e.1.BlobFits) : decodeRangeBlob (encodeRangeBlob es) = .ok es := by
  have hn : leNat (leBytes 8 es.length) = es.length :=
    leNat_leBytes_of_lt (hlen.trans_lt maxEntries_lt)
  have hes := decodeRangeEntries_append h []
  rw [List.append_nil] at hes
  rw [decodeRangeBlob, encodeRangeBlob, blobBytes_append (length_leBytes _ _)]
  simp [Bind.bind, Except.bind, hn, not_lt.mpr hlen, hes, Pure.pure, Except.pure]

theorem encodeRow_text (s : String) :
    encodeRow [.text s] = [1, 0, tagText] ++ (leBytes 4 (utf8 s).length ++ utf8 s) := by
  simp [encodeRow, encodeValue, leBytes]

/-- The first bytes of an encoded text, without all of its length field, are no row. -/
theorem decodeRow_take_text {s : String} {k : ℕ} (hk : k < 7) {row : Row} :
    decodeRow ((encodeRow [.text s]).take k) ≠ .ok row := by
  intro hd
  obtain ⟨he, hfit⟩ := decodeRow_eq_ok hd
  have hlen := congrArg List.length he
  rw [List.length_take, encodeRow_text] at hlen
  simp only [List.length_append, List.length_cons, List.length_nil, length_leBytes, encodeRow]
    at hlen
  have hcount : leBytes 2 row.length = leBytes 2 1 := by
    have h2 := congrArg (List.take 2) he
    rw [List.take_take, min_eq_left (by omega), encodeRow, encodeRow,
      List.take_left' (length_leBytes 2 _), List.take_left' (length_leBytes 2 _)] at h2
    exact h2.symm
  have hone : row.length = 1 :=
    (leBytes_inj (show row.length < 256 ^ 2 from hfit.length) (by decide)).mp hcount
  obtain ⟨w, rfl⟩ := List.length_eq_one_iff.mp hone
  -- the one value starts with the tag of a text, so it takes the length field too
  have htag := congrArg (fun b => b[2]?) he
  cases w with
  | text t =>
    simp only [List.flatMap_singleton, encodeValue, List.length_cons, List.length_append,
      length_leBytes] at hlen
    omega
  | null | int n | real x | vector v =>
    rw [encodeRow_text] at htag
    simp only [List.flatMap_singleton, encodeValue, List.length_cons, List.length_nil] at hlen
    rw [List.getElem?_take_of_lt (by omega)] at htag
    simp [encodeRow, encodeValue, leBytes, tagText, tagNull, tagInt, tagReal, tagVector] at htag

/-- The values a range index can hold. -/
def Value.NoVector : Value → Prop
  | .vector _ => False
  | _ => True

/-- An entry that does not fit is never mistaken for another one. -/
theorem decodeRangeEntry_eq_ok {e out : Value × UInt64} {rest buf : Bytes} (hfit : e.1.Fits)
    (hv : e.1.NoVector) (h : decodeRangeEntry (encodeRangeEntry e ++ rest) = .ok (out, buf)) :
    e.1.BlobFits := by
  by_contra hno
  obtain ⟨v, id⟩ := e
  have hbig : 2 ^ 32 ≤ (encodeRow [v]).length := by
    by_contra hlt
    exact hno ⟨hfit, not_le.mp hlt⟩
  cases v with
  | vector v => exact hv
  | null | int n | real x => simp [encodeRow, encodeValue] at hbig
  | text s =>
    have hs : (utf8 s).length < 2 ^ 32 := hfit
    have hlen : (encodeRow [Value.text s]).length = 7 + (utf8 s).length := by
      rw [encodeRow_text]
      simp only [List.length_append, List.length_cons, List.length_nil, length_leBytes]
      omega
    have hk : leNat (leBytes 4 (encodeRow [Value.text s]).length) < 7 := by
      rw [leNat_leBytes]
      omega
    rw [decodeRangeEntry, encodeRangeEntry, List.append_assoc, List.append_assoc,
      blobBytes_append (length_leBytes _ _)] at h
    simp only [Bind.bind, Except.bind, blobBytes, splitBytes] at h
    rw [if_pos (by rw [List.length_append]; omega)] at h
    simp only [List.take_append_of_le_length
      (show leNat (leBytes 4 (encodeRow [Value.text s]).length) ≤ (encodeRow [Value.text s]).length
        by omega)] at h
    split at h
    · cases h
    · rename_i row hrow
      exact decodeRow_take_text hk hrow

theorem decodeRangeEntries_eq_ok {es out : List (Value × UInt64)} {rest buf : Bytes}
    (hfit : ∀ e ∈ es, e.1.Fits) (hv : ∀ e ∈ es, e.1.NoVector)
    (h : decodeRangeEntries es.length (es.flatMap encodeRangeEntry ++ rest) = .ok (out, buf)) :
    ∀ e ∈ es, e.1.BlobFits := by
  induction es generalizing out buf with
  | nil => simp
  | cons e es ih =>
    rw [List.flatMap_cons, List.append_assoc, List.length_cons, decodeRangeEntries] at h
    cases he : decodeRangeEntry (encodeRangeEntry e ++ (es.flatMap encodeRangeEntry ++ rest)) with
    | error err =>
      rw [he] at h
      cases h
    | ok r =>
      have hblob := decodeRangeEntry_eq_ok (hfit e List.mem_cons_self) (hv e List.mem_cons_self) he
      rw [decodeRangeEntry_append hblob] at h
      simp only [Bind.bind, Except.bind] at h
      cases hes : decodeRangeEntries es.length (es.flatMap encodeRangeEntry ++ rest) with
      | error err =>
        rw [hes] at h
        cases h
      | ok r' =>
        exact List.forall_mem_cons.mpr ⟨hblob,
          ih (fun e' he' => hfit e' (List.mem_cons_of_mem _ he'))
            (fun e' he' => hv e' (List.mem_cons_of_mem _ he')) hes⟩

/-- A stored range index decodes to itself or not at all. -/
theorem decodeRangeBlob_eq_ok {es out : List (Value × UInt64)} (hlen : es.length ≤ maxEntries)
    (hfit : ∀ e ∈ es, e.1.Fits) (hv : ∀ e ∈ es, e.1.NoVector)
    (h : decodeRangeBlob (encodeRangeBlob es) = .ok out) :
    out = es ∧ ∀ e ∈ es, e.1.BlobFits := by
  have hn : leNat (leBytes 8 es.length) = es.length :=
    leNat_leBytes_of_lt (hlen.trans_lt maxEntries_lt)
  have hblob : ∀ e ∈ es, e.1.BlobFits := by
    rw [decodeRangeBlob, encodeRangeBlob, blobBytes_append (length_leBytes _ _)] at h
    simp only [Bind.bind, Except.bind, hn, not_lt.mpr hlen, if_false] at h
    cases hes : decodeRangeEntries es.length (es.flatMap encodeRangeEntry) with
    | error err =>
      rw [hes] at h
      cases h
    | ok r =>
      rw [← List.append_nil (es.flatMap encodeRangeEntry)] at hes
      exact decodeRangeEntries_eq_ok hfit hv hes
  rw [decodeRangeBlob_encodeRangeBlob hlen hblob] at h
  exact ⟨(Except.ok.inj h).symm, hblob⟩

end Ciphra
