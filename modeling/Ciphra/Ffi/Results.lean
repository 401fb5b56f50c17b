import Ciphra.Engine.Codec
import Ciphra.Foundations.Json
import Ciphra.Sql.Printed

/-!
# Results as JSON

The foreign-function interface hands results over as one JSON text, which it puts together by hand.
The text of results without floating-point numbers is read back as those results, string for string
(`resultsToJson_faithful`), and holds no NUL, so it passes through a C string unchanged.

Every encoder writes a text that is read as the JSON value meant (`reads_encodeStr`,
`reads_encodeValue`, `reads_encodeResult`); the structure of the whole follows from the rules for
arrays and objects.
-/

namespace Ciphra

/-- The exponent is not all ones. -/
def F64.isFinite (x : F64) : Bool := x.magnitude < 0x7FF0000000000000

/-- The exponent is not all ones. -/
def F32.isFinite (x : F32) : Bool := x.magnitude < 0x7F800000

namespace Ffi

/-- Result of executing one statement, as a caller of the engine gets it. -/
inductive QueryResult
  | created (name : String)
  | dropped (name : String)
  | indexCreated (table column : String) (range : Bool)
  | indexDropped (table column : String) (range : Bool)
  | inserted (count : ℕ)
  | updated (count : ℕ)
  | deleted (count : ℕ)
  | rows (columns : List String) (rows : List (List Value))
  | begin
  | committed
  | rolledBack
  deriving DecidableEq, Repr

/-- The string that `CString::new` gets: a NUL is replaced. -/
def intoCString (s : String) : String :=
  String.ofList (s.toList.map fun c => if c = '\x00' then '\ufffd' else c)

/-! ## Encoding -/

/-- `{:04x}`. -/
def hexFour (n : ℕ) : List Char :=
  List.replicate (4 - (Nat.toDigits 16 n).length) '0' ++ Nat.toDigits 16 n

def encodeChar (c : Char) : List Char :=
  if c = '"' then ['\\', '"']
  else if c = '\\' then ['\\', '\\']
  else if c = '\n' then ['\\', 'n']
  else if c = '\r' then ['\\', 'r']
  else if c = '\t' then ['\\', 't']
  else if c = '\x08' then ['\\', 'b']
  else if c = '\x0c' then ['\\', 'f']
  else if c.toNat < 0x20 then '\\' :: 'u' :: hexFour c.toNat
  else [c]

/-- A JSON string literal. -/
def encodeStr (s : String) : String :=
  "\"" ++ String.ofList (s.toList.flatMap encodeChar) ++ "\""

/-- The items of a loop that writes a comma before every item but the first, from index `i`. -/
def encodeItems {α : Type} (encode : α → String) : ℕ → List α → String
  | _, [] => ""
  | i, x :: xs => (if i > 0 then "," else "") ++ encode x ++ encodeItems encode (i + 1) xs

section Encoding

variable (F : Sql.Formats)

def encodeValue : Value → String
  | .null => "null"
  | .int n => toString n.toInt
  | .real x => if x.isFinite then F.displayF64 x else "null"
  | .text s => encodeStr s
  | .vector v =>
    "[" ++ encodeItems (fun x => if x.isFinite then F.displayF32 x else "null") 0 v ++ "]"

def encodeIndex (kind table column : String) (range : Bool) : String :=
  "\x7b\"kind\":\"" ++ kind ++ "\",\"table\":" ++ encodeStr table ++ ",\"column\":" ++
    encodeStr column ++ ",\"range\":" ++ (if range then "true" else "false") ++ "\x7d"

def encodeCount (kind : String) (n : ℕ) : String :=
  "\x7b\"kind\":\"" ++ kind ++ "\",\"count\":" ++ toString n ++ "\x7d"

def encodeRow (row : List Value) : String := "[" ++ encodeItems (encodeValue F) 0 row ++ "]"

def encodeResult : QueryResult → String
  | .created name => "\x7b\"kind\":\"created\",\"name\":" ++ encodeStr name ++ "\x7d"
  | .dropped name => "\x7b\"kind\":\"dropped\",\"name\":" ++ encodeStr name ++ "\x7d"
  | .indexCreated table column range => encodeIndex "index_created" table column range
  | .indexDropped table column range => encodeIndex "index_dropped" table column range
  | .inserted n => encodeCount "inserted" n
  | .updated n => encodeCount "updated" n
  | .deleted n => encodeCount "deleted" n
  | .rows columns rows =>
    "\x7b\"kind\":\"rows\",\"columns\":[" ++ encodeItems encodeStr 0 columns ++ "],\"rows\":[" ++
      encodeItems (encodeRow F) 0 rows ++ "]\x7d"
  | .begin => "\x7b\"kind\":\"begin\"\x7d"
  | .committed => "\x7b\"kind\":\"committed\"\x7d"
  | .rolledBack => "\x7b\"kind\":\"rolled_back\"\x7d"

/-- The results as a JSON array. -/
def resultsToJson (results : List QueryResult) : String :=
  "[" ++ encodeItems (encodeResult F) 0 results ++ "]"

end Encoding

/-! ## Decoding -/

def decodeInt : Json → Option ℤ
  | .num x => if x.den = 1 then some x.num else none
  | _ => none

def decodeCount (j : Json) : Option ℕ := do
  let n ← decodeInt j
  if 0 ≤ n then return n.toNat else none

def decodeString : Json → Option String
  | .str s => some s
  | _ => none

def decodeBool : Json → Option Bool
  | .bool b => some b
  | _ => none

def decodeArray {α : Type} (decode : Json → Option α) : Json → Option (List α)
  | .arr items => items.mapM decode
  | _ => none

/-- `NULL`, an integer of 64 bits or a text. -/
def decodeValue : Json → Option Value
  | .null => some .null
  | .str s => some (.text s)
  | j => do
    let n ← decodeInt j
    if -2 ^ 63 ≤ n ∧ n < 2 ^ 63 then return .int (Int64.ofInt n) else none

/-- The member of an object with the given name. -/
def decodeField {α : Type} (decode : Json → Option α) (name : String) : Json → Option α
  | .obj members => do
    let j ← members.lookup name
    decode j
  | _ => none

def decodeIndex (make : String → String → Bool → QueryResult) (j : Json) : Option QueryResult := do
  let table ← decodeField decodeString "table" j
  let column ← decodeField decodeString "column" j
  let range ← decodeField decodeBool "range" j
  return make table column range

/-- The result that a JSON value describes, by its kind. -/
def decodeResult (j : Json) : Option QueryResult := do
  let kind ← decodeField decodeString "kind" j
  if kind = "created" then (decodeField decodeString "name" j).map .created
  else if kind = "dropped" then (decodeField decodeString "name" j).map .dropped
  else if kind = "index_created" then decodeIndex .indexCreated j
  else if kind = "index_dropped" then decodeIndex .indexDropped j
  else if kind = "inserted" then (decodeField decodeCount "count" j).map .inserted
  else if kind = "updated" then (decodeField decodeCount "count" j).map .updated
  else if kind = "deleted" then (decodeField decodeCount "count" j).map .deleted
  else if kind = "rows" then do
    let columns ← decodeField (decodeArray decodeString) "columns" j
    let rows ← decodeField (decodeArray (decodeArray decodeValue)) "rows" j
    return .rows columns rows
  else if kind = "begin" then some .begin
  else if kind = "committed" then some .committed
  else if kind = "rolled_back" then some .rolledBack
  else none

def decodeResults : Json → Option (List QueryResult) := decodeArray decodeResult

/-! ## Strings -/

theorem stringChar_hexFour {n : ℕ} (hn : n < 0x20) (rest : List Char) :
    Json.stringChar ('\\' :: 'u' :: hexFour n ++ rest) = some (some (Char.ofNat n), rest) := by
  interval_cases n <;> rfl

/-- An encoded character is read as that character. -/
theorem stringChar_encodeChar (c : Char) (rest : List Char) :
    Json.stringChar (encodeChar c ++ rest) = some (some c, rest) := by
  unfold encodeChar
  split
  · next h => rw [h]; rfl
  next hquote =>
  split
  · next h => rw [h]; rfl
  next hslash =>
  split
  · next h => rw [h]; rfl
  split
  · next h => rw [h]; rfl
  split
  · next h => rw [h]; rfl
  split
  · next h => rw [h]; rfl
  split
  · next h => rw [h]; rfl
  split
  · next h => rw [stringChar_hexFour h, Char.ofNat_toNat]
  · next h =>
    rw [List.singleton_append, Json.stringChar.eq_def]
    simp only [if_neg hquote, if_neg hslash, if_neg h]

theorem toList_encodeStr (s : String) :
    (encodeStr s).toList = '"' :: (s.toList.flatMap encodeChar ++ ['"']) := by
  simp only [encodeStr, String.toList_append, String.toList_ofList]
  rfl

theorem reads_encodeStr (s : String) : Json.Reads (encodeStr s).toList (.str s) := by
  rw [toList_encodeStr]
  exact Json.reads_str stringChar_encodeChar s

/-! ## Items -/

theorem toList_bracketed (text : String) :
    ("[" ++ text ++ "]").toList = '[' :: (text.toList ++ [']']) := by
  simp only [String.toList_append]
  rfl

section Items

variable {α : Type} {encode : α → String}

/-- The comma tests separate the items by commas. -/
theorem toList_encodeItems (xs : List α) :
    (encodeItems encode 0 xs).toList =
      List.intercalate [','] (xs.map fun x => (encode x).toList) := by
  have hlater : ∀ (xs : List α) i, 0 < i → (encodeItems encode i xs).toList =
      xs.flatMap fun x => ',' :: (encode x).toList := by
    intro xs
    induction xs with
    | nil => exact fun _ _ => rfl
    | cons x xs ih =>
      intro i hi
      simp only [encodeItems, if_pos hi, String.toList_append, ih (i + 1) (Nat.succ_pos i),
        List.flatMap_cons]
      rfl
  cases xs with
  | nil => rfl
  | cons x xs =>
    have hrest : ∀ xs : List α, (encode x).toList ++ xs.flatMap (fun x => ',' :: (encode x).toList) =
        List.intercalate [','] ((encode x).toList :: xs.map fun x => (encode x).toList) := by
      intro xs
      induction xs generalizing x with
      | nil => simp
      | cons y ys ih =>
        rw [List.map_cons, List.intercalate_cons_cons, ← ih y, List.flatMap_cons]
        simp
    rw [List.map_cons, ← hrest xs]
    simp only [encodeItems, String.toList_append, hlater xs 1 one_pos]
    rfl

theorem reads_array {json : α → Json} {xs : List α}
    (h : ∀ x ∈ xs, Json.Reads (encode x).toList (json x)) :
    Json.Reads ("[" ++ encodeItems encode 0 xs ++ "]").toList (.arr (xs.map json)) := by
  have hread := Json.reads_arr (by
    rw [List.forall₂_map_left_iff, List.forall₂_map_right_iff, List.forall₂_same]
    exact h)
  rw [← toList_encodeItems] at hread
  rwa [toList_bracketed]

theorem mapM_map_eq_some {β : Type} {json : α → β} {decode : β → Option α} {xs : List α}
    (h : ∀ x ∈ xs, decode (json x) = some x) : (xs.map json).mapM decode = some xs := by
  induction xs with
  | nil => rfl
  | cons x xs ih =>
    rw [List.map_cons, List.mapM_cons, h x List.mem_cons_self,
      ih fun y hy => h y (List.mem_cons_of_mem x hy)]
    rfl

end Items

/-! ## Values -/

/-- `NULL`, `INT` or `TEXT`. -/
def PlainValue (v : Value) : Prop := (∀ x, v ≠ .real x) ∧ ∀ x, v ≠ .vector x

/-- The rows hold only `NULL`, `INT` and `TEXT`. -/
def Plain : QueryResult → Prop
  | .rows _ rows => ∀ row ∈ rows, ∀ v ∈ row, PlainValue v
  | _ => True

/-- The JSON value of a plain value. -/
def jsonOfValue : Value → Json
  | .null => .null
  | .int n => .num n.toInt
  | .text s => .str s
  | .real _ => .null
  | .vector _ => .null

theorem reads_encodeValue (F : Sql.Formats) {v : Value} (h : PlainValue v) :
    Json.Reads (encodeValue F v).toList (jsonOfValue v) := by
  cases v with
  | null =>
    rw [encodeValue]
    exact Json.reads_null
  | int n => exact Json.reads_int n.toInt
  | text s => exact reads_encodeStr s
  | real x => exact absurd rfl (h.1 x)
  | vector x => exact absurd rfl (h.2 x)

theorem decodeInt_num (n : ℤ) : decodeInt (.num n) = some n := by
  rw [decodeInt, if_pos (Rat.den_intCast n), Rat.num_intCast]

theorem decodeCount_num (n : ℕ) : decodeCount (.num n) = some n := by
  have hint := decodeInt_num n
  rw [Int.cast_natCast] at hint
  rw [decodeCount, hint]
  change (if 0 ≤ (n : ℤ) then some (n : ℤ).toNat else none) = some n
  rw [if_pos (Int.natCast_nonneg n), Int.toNat_natCast]

theorem decodeValue_jsonOfValue {v : Value} (h : PlainValue v) :
    decodeValue (jsonOfValue v) = some v := by
  cases v with
  | null => rfl
  | int n =>
    change (decodeInt (.num n.toInt) >>= fun n => _) = _
    rw [decodeInt_num]
    change (if -2 ^ 63 ≤ n.toInt ∧ n.toInt < 2 ^ 63 then some (Value.int (Int64.ofInt n.toInt))
      else none) = some (Value.int n)
    rw [if_pos ⟨n.le_toInt, n.toInt_lt⟩, Int64.ofInt_toInt]
  | text s => rfl
  | real x => exact absurd rfl (h.1 x)
  | vector x => exact absurd rfl (h.2 x)

/-! ## Results -/

/-- A member as the encoder writes it: the quoted name, a colon and the value. -/
theorem readsMember (name : String) {text : List Char} {j : Json}
    (hname : ∀ c ∈ name.toList, encodeChar c = [c]) (h : Json.Reads text j) :
    Json.ReadsMember ('"' :: (name.toList ++ '"' :: ':' :: text)) (name, j) := by
  refine ⟨name.toList ++ ['"'], text, by simp, fun rest => ?_, h⟩
  have hstring := Json.string_flatMap stringChar_encodeChar name rest
  have hsame : name.toList.flatMap encodeChar = name.toList := by
    rw [List.flatMap_congr hname]
    exact List.flatMap_singleton' _
  rw [hsame] at hstring
  rw [List.append_assoc, List.singleton_append]
  exact hstring

/-- The JSON value of a result, its kind first. -/
def jsonOfResult : QueryResult → Json
  | .created name => .obj [("kind", .str "created"), ("name", .str name)]
  | .dropped name => .obj [("kind", .str "dropped"), ("name", .str name)]
  | .indexCreated table column range =>
    .obj [("kind", .str "index_created"), ("table", .str table), ("column", .str column),
      ("range", .bool range)]
  | .indexDropped table column range =>
    .obj [("kind", .str "index_dropped"), ("table", .str table), ("column", .str column),
      ("range", .bool range)]
  | .inserted n => .obj [("kind", .str "inserted"), ("count", .num n)]
  | .updated n => .obj [("kind", .str "updated"), ("count", .num n)]
  | .deleted n => .obj [("kind", .str "deleted"), ("count", .num n)]
  | .rows columns rows =>
    .obj [("kind", .str "rows"), ("columns", .arr (columns.map .str)),
      ("rows", .arr (rows.map fun row => .arr (row.map jsonOfValue)))]
  | .begin => .obj [("kind", .str "begin")]
  | .committed => .obj [("kind", .str "committed")]
  | .rolledBack => .obj [("kind", .str "rolled_back")]

theorem toList_foldl_append (first : String) (parts : List String) :
    (parts.foldl (· ++ ·) first).toList = first.toList ++ parts.flatMap String.toList := by
  induction parts generalizing first with
  | nil => simp
  | cons part parts ih =>
    rw [List.foldl_cons, ih, String.toList_append, List.flatMap_cons, List.append_assoc]

/-- An object as the encoder writes it, part by part. -/
theorem reads_object {texts : List (List Char)} {ms : List (String × Json)} (first : String)
    (parts : List String)
    (htext : first.toList ++ parts.flatMap String.toList =
      '\x7b' :: (List.intercalate [','] texts ++ ['\x7d']))
    (h : List.Forall₂ Json.ReadsMember texts ms) :
    Json.Reads (parts.foldl (· ++ ·) first).toList (.obj ms) := by
  rw [toList_foldl_append, htext]
  exact Json.reads_obj h

/-- The names of the members need no escape. -/
theorem encodeChar_keys : ∀ key ∈ ["kind", "count", "table", "column", "range", "name", "columns",
    "rows"], ∀ c ∈ key.toList, encodeChar c = [c] := by
  simp [encodeChar]

/-- Nor do the kinds. -/
theorem encodeChar_kinds : ∀ kind ∈ ["rows", "created", "dropped", "index_created",
    "index_dropped", "inserted", "updated", "deleted", "begin", "committed", "rolled_back"],
    ∀ c ∈ kind.toList, encodeChar c = [c] := by
  simp [encodeChar]

theorem reads_kind (kind : String) (h : ∀ c ∈ kind.toList, encodeChar c = [c]) :
    Json.ReadsMember ("\"kind\":\"".toList ++ (kind.toList ++ ['"'])) ("kind", .str kind) := by
  have hkind := reads_encodeStr kind
  have hsame : kind.toList.flatMap encodeChar = kind.toList := by
    rw [List.flatMap_congr h]
    exact List.flatMap_singleton' _
  rw [toList_encodeStr, hsame] at hkind
  exact readsMember "kind" (encodeChar_keys _ (by simp)) hkind

theorem reads_encodeCount {kind : String} (h : ∀ c ∈ kind.toList, encodeChar c = [c]) (n : ℕ) :
    Json.Reads (encodeCount kind n).toList (.obj [("kind", .str kind), ("count", .num n)]) := by
  have hcount := readsMember "count" (encodeChar_keys _ (by simp)) (Json.reads_nat n)
  refine reads_object "\x7b\"kind\":\"" [kind, "\",\"count\":", n.repr, "\x7d"] ?_
    (List.Forall₂.cons (reads_kind kind h) (List.Forall₂.cons hcount List.Forall₂.nil))
  simp only [List.flatMap_cons, List.flatMap_nil, List.intercalate_cons_cons,
    List.intercalate_singleton, List.append_assoc, String.reduceToList, List.cons_append,
    List.nil_append]

theorem reads_encodeBool (b : Bool) :
    Json.Reads (if b then "true" else "false").toList (.bool b) := by
  cases b
  · exact Json.reads_false
  · exact Json.reads_true

theorem reads_encodeIndex {kind : String} (h : ∀ c ∈ kind.toList, encodeChar c = [c])
    (table column : String) (range : Bool) :
    Json.Reads (encodeIndex kind table column range).toList
      (.obj [("kind", .str kind), ("table", .str table), ("column", .str column),
        ("range", .bool range)]) := by
  have htable := readsMember "table" (encodeChar_keys _ (by simp)) (reads_encodeStr table)
  have hcolumn := readsMember "column" (encodeChar_keys _ (by simp)) (reads_encodeStr column)
  have hrange := readsMember "range" (encodeChar_keys _ (by simp)) (reads_encodeBool range)
  refine reads_object "\x7b\"kind\":\"" [kind, "\",\"table\":", encodeStr table, ",\"column\":",
    encodeStr column, ",\"range\":", if range then "true" else "false", "\x7d"] ?_
    (List.Forall₂.cons (reads_kind kind h) (List.Forall₂.cons htable
      (List.Forall₂.cons hcolumn (List.Forall₂.cons hrange List.Forall₂.nil))))
  simp only [List.flatMap_cons, List.flatMap_nil, List.intercalate_cons_cons,
    List.intercalate_singleton, List.append_assoc, String.reduceToList, List.cons_append,
    List.nil_append]

theorem reads_named (kind : String) (h : ∀ c ∈ kind.toList, encodeChar c = [c]) (name : String) :
    Json.Reads ("\x7b\"kind\":\"" ++ kind ++ "\",\"name\":" ++ encodeStr name ++ "\x7d").toList
      (.obj [("kind", .str kind), ("name", .str name)]) := by
  have hname := readsMember "name" (encodeChar_keys _ (by simp)) (reads_encodeStr name)
  refine reads_object "\x7b\"kind\":\"" [kind, "\",\"name\":", encodeStr name, "\x7d"] ?_
    (List.Forall₂.cons (reads_kind kind h) (List.Forall₂.cons hname List.Forall₂.nil))
  simp only [List.flatMap_cons, List.flatMap_nil, List.intercalate_cons_cons,
    List.intercalate_singleton, List.append_assoc, String.reduceToList, List.cons_append,
    List.nil_append]

theorem reads_bare (kind : String) (h : ∀ c ∈ kind.toList, encodeChar c = [c]) :
    Json.Reads ("\x7b\"kind\":\"" ++ kind ++ "\"\x7d").toList (.obj [("kind", .str kind)]) := by
  refine reads_object "\x7b\"kind\":\"" [kind, "\"\x7d"] ?_
    (List.Forall₂.cons (reads_kind kind h) List.Forall₂.nil)
  simp only [List.flatMap_cons, List.flatMap_nil, List.intercalate_singleton, List.append_assoc,
    String.reduceToList, List.cons_append, List.nil_append]

theorem reads_encodeRow (F : Sql.Formats) {row : List Value} (h : ∀ v ∈ row, PlainValue v) :
    Json.Reads (encodeRow F row).toList (.arr (row.map jsonOfValue)) :=
  reads_array fun v hv => reads_encodeValue F (h v hv)

theorem reads_encodeRows (F : Sql.Formats) (columns : List String) {rows : List (List Value)}
    (h : ∀ row ∈ rows, ∀ v ∈ row, PlainValue v) :
    Json.Reads (encodeResult F (.rows columns rows)).toList
      (jsonOfResult (.rows columns rows)) := by
  have hnames : Json.Reads ("[" ++ encodeItems encodeStr 0 columns ++ "]").toList
      (.arr (columns.map .str)) := reads_array fun c _ => reads_encodeStr c
  have hvalues : Json.Reads ("[" ++ encodeItems (encodeRow F) 0 rows ++ "]").toList
      (.arr (rows.map fun row => .arr (row.map jsonOfValue))) :=
    reads_array fun row hrow => reads_encodeRow F (h row hrow)
  rw [toList_bracketed] at hnames hvalues
  have hcolumns := readsMember "columns" (encodeChar_keys _ (by simp)) hnames
  have hrows := readsMember "rows" (encodeChar_keys _ (by simp)) hvalues
  refine reads_object "\x7b\"kind\":\"rows\",\"columns\":[" [encodeItems encodeStr 0 columns,
    "],\"rows\":[", encodeItems (encodeRow F) 0 rows, "]\x7d"] ?_
    (List.Forall₂.cons (reads_kind "rows" (encodeChar_kinds _ (by simp)))
      (List.Forall₂.cons hcolumns (List.Forall₂.cons hrows List.Forall₂.nil)))
  simp only [List.flatMap_cons, List.flatMap_nil, List.intercalate_cons_cons,
    List.intercalate_singleton, List.append_assoc, String.reduceToList, List.cons_append,
    List.nil_append]

theorem reads_encodeResult (F : Sql.Formats) {r : QueryResult} (h : Plain r) :
    Json.Reads (encodeResult F r).toList (jsonOfResult r) := by
  cases r with
  | created name => exact reads_named "created" (encodeChar_kinds _ (by simp)) name
  | dropped name => exact reads_named "dropped" (encodeChar_kinds _ (by simp)) name
  | indexCreated table column range =>
    exact reads_encodeIndex (encodeChar_kinds _ (by simp)) table column range
  | indexDropped table column range =>
    exact reads_encodeIndex (encodeChar_kinds _ (by simp)) table column range
  | inserted n => exact reads_encodeCount (encodeChar_kinds _ (by simp)) n
  | updated n => exact reads_encodeCount (encodeChar_kinds _ (by simp)) n
  | deleted n => exact reads_encodeCount (encodeChar_kinds _ (by simp)) n
  | rows columns rows => exact reads_encodeRows F columns h
  | begin => exact reads_bare "begin" (encodeChar_kinds _ (by simp))
  | committed => exact reads_bare "committed" (encodeChar_kinds _ (by simp))
  | rolledBack => exact reads_bare "rolled_back" (encodeChar_kinds _ (by simp))

theorem decodeResult_jsonOfResult {r : QueryResult} (h : Plain r) :
    decodeResult (jsonOfResult r) = some r := by
  cases r with
  | rows columns rows =>
    have hcolumns : (columns.map Json.str).mapM decodeString = some columns :=
      mapM_map_eq_some fun _ _ => rfl
    have hrows : (rows.map fun row => Json.arr (row.map jsonOfValue)).mapM
        (decodeArray decodeValue) = some rows :=
      mapM_map_eq_some fun row hrow =>
        mapM_map_eq_some fun v hv => decodeValue_jsonOfValue (h row hrow v hv)
    change ((columns.map Json.str).mapM decodeString >>= fun columns => _) = _
    rw [hcolumns]
    change ((rows.map fun row => Json.arr (row.map jsonOfValue)).mapM
      (decodeArray decodeValue) >>= fun rows => _) = _
    rw [hrows]
    rfl
  | inserted n => exact congrArg (Option.map QueryResult.inserted) (decodeCount_num n)
  | updated n => exact congrArg (Option.map QueryResult.updated) (decodeCount_num n)
  | deleted n => exact congrArg (Option.map QueryResult.deleted) (decodeCount_num n)
  | created name => rfl
  | dropped name => rfl
  | indexCreated table column range => rfl
  | indexDropped table column range => rfl
  | begin => rfl
  | committed => rfl
  | rolledBack => rfl

/-! ## No NUL -/

/-- No character is NUL. -/
abbrev NoNul (s : String) : Prop := '\x00' ∉ s.toList

theorem noNul_append {s t : String} (hs : NoNul s) (ht : NoNul t) : NoNul (s ++ t) := by
  rw [NoNul, String.toList_append, List.mem_append]
  rintro (h | h)
  · exact hs h
  · exact ht h

theorem noNul_encodeStr (s : String) : NoNul (encodeStr s) := by
  have hchar : ∀ c, '\x00' ∉ encodeChar c := by
    intro c
    have hhex : ∀ n < 0x20, '\x00' ∉ '\\' :: 'u' :: hexFour n := by decide +kernel
    unfold encodeChar
    split_ifs with h1 h2 h3 h4 h5 h6 h7 h8
    · decide
    · decide
    · decide
    · decide
    · decide
    · decide
    · decide
    · exact hhex c.toNat h8
    · rintro hmem
      rw [← List.mem_singleton.mp hmem] at h8
      exact h8 (by decide)
  rw [NoNul, toList_encodeStr, List.mem_cons, List.mem_append, List.mem_flatMap, List.mem_singleton]
  rintro (h | ⟨c, -, h⟩ | h)
  · cases h
  · exact hchar c h
  · cases h

theorem noNul_repr (n : ℕ) : NoNul n.repr := by
  intro h
  rw [Nat.toList_repr] at h
  have hdigit := Nat.isDigit_of_mem_toDigits (by decide) (by decide) h
  cases hdigit

theorem noNul_int (n : ℤ) : NoNul n.repr := by
  rw [Int.repr_eq_if]
  split
  · exact noNul_repr _
  · exact noNul_append (by decide) (noNul_repr _)

theorem noNul_encodeItems {α : Type} {encode : α → String} (i : ℕ) {xs : List α}
    (h : ∀ x ∈ xs, NoNul (encode x)) : NoNul (encodeItems encode i xs) := by
  induction xs generalizing i with
  | nil => exact List.not_mem_nil
  | cons x xs ih =>
    have hcomma : NoNul (if i > 0 then "," else "") := by
      split
      · exact (by decide : NoNul ",")
      · exact (by decide : NoNul "")
    exact noNul_append (noNul_append hcomma (h x List.mem_cons_self))
      (ih _ fun y hy => h y (List.mem_cons_of_mem x hy))

theorem noNul_encodeValue (F : Sql.Formats) {v : Value} (h : PlainValue v) :
    NoNul (encodeValue F v) := by
  cases v with
  | null => exact (by decide : NoNul "null")
  | int n => exact noNul_int n.toInt
  | text s => exact noNul_encodeStr s
  | real x => exact absurd rfl (h.1 x)
  | vector x => exact absurd rfl (h.2 x)

theorem noNul_bracketed {text : String} (h : NoNul text) : NoNul ("[" ++ text ++ "]") :=
  noNul_append (noNul_append (by decide) h) (by decide)

/-- No part that the encoder writes itself has a NUL. -/
theorem noNul_parts : ∀ part ∈ ["\x7b\"kind\":\"", "\",\"count\":", "\",\"table\":",
    ",\"column\":", ",\"range\":", "true", "false", "\x7d",
    "\x7b\"kind\":\"created\",\"name\":", "\x7b\"kind\":\"dropped\",\"name\":", "index_created",
    "index_dropped", "inserted", "updated", "deleted", "\x7b\"kind\":\"rows\",\"columns\":[",
    "],\"rows\":[", "]\x7d", "\x7b\"kind\":\"begin\"\x7d", "\x7b\"kind\":\"committed\"\x7d",
    "\x7b\"kind\":\"rolled_back\"\x7d"], NoNul part := by
  decide +kernel

theorem noNul_encodeCount {kind : String} (h : NoNul kind) (n : ℕ) : NoNul (encodeCount kind n) :=
  noNul_append (noNul_append (noNul_append (noNul_append (noNul_parts _ (by simp)) h)
    (noNul_parts _ (by simp)))
    (noNul_repr n)) (noNul_parts _ (by simp))

theorem noNul_encodeIndex {kind : String} (h : NoNul kind) (table column : String) (range : Bool) :
    NoNul (encodeIndex kind table column range) := by
  have hrange : NoNul (if range then "true" else "false") := by
    cases range
    · exact noNul_parts _ (by simp)
    · exact noNul_parts _ (by simp)
  exact noNul_append (noNul_append (noNul_append (noNul_append (noNul_append (noNul_append
    (noNul_append (noNul_append (noNul_parts _ (by simp)) h) (noNul_parts _ (by simp)))
    (noNul_encodeStr table)) (noNul_parts _ (by simp))) (noNul_encodeStr column))
    (noNul_parts _ (by simp)))
    hrange) (noNul_parts _ (by simp))

theorem noNul_encodeResult (F : Sql.Formats) {r : QueryResult} (h : Plain r) :
    NoNul (encodeResult F r) := by
  cases r with
  | created name =>
    exact noNul_append (noNul_append (noNul_parts _ (by simp)) (noNul_encodeStr name))
      (noNul_parts _ (by simp))
  | dropped name =>
    exact noNul_append (noNul_append (noNul_parts _ (by simp)) (noNul_encodeStr name))
      (noNul_parts _ (by simp))
  | indexCreated table column range => exact noNul_encodeIndex (noNul_parts _ (by simp)) _ _ _
  | indexDropped table column range => exact noNul_encodeIndex (noNul_parts _ (by simp)) _ _ _
  | inserted n => exact noNul_encodeCount (noNul_parts _ (by simp)) n
  | updated n => exact noNul_encodeCount (noNul_parts _ (by simp)) n
  | deleted n => exact noNul_encodeCount (noNul_parts _ (by simp)) n
  | rows columns rows =>
    have hcolumns : NoNul (encodeItems encodeStr 0 columns) :=
      noNul_encodeItems 0 fun c _ => noNul_encodeStr c
    have hrows : NoNul (encodeItems (encodeRow F) 0 rows) := noNul_encodeItems 0 fun row hrow =>
      noNul_bracketed (noNul_encodeItems 0 fun v hv => noNul_encodeValue F (h row hrow v hv))
    exact noNul_append (noNul_append (noNul_append (noNul_append (noNul_parts _ (by simp)) hcolumns)
      (noNul_parts _ (by simp))) hrows) (noNul_parts _ (by simp))
  | begin => exact (noNul_parts _ (by simp) : NoNul "\x7b\"kind\":\"begin\"\x7d")
  | committed => exact (noNul_parts _ (by simp) : NoNul "\x7b\"kind\":\"committed\"\x7d")
  | rolledBack => exact (noNul_parts _ (by simp) : NoNul "\x7b\"kind\":\"rolled_back\"\x7d")

/-- Only NUL has a zero byte in its encoding. -/
theorem eq_nul_of_zero_mem {c : Char} (h : (0 : UInt8) ∈ String.utf8EncodeChar c) : c = '\x00' := by
  have hbyte : ∀ n : ℕ, 0 < n → n < 256 → (0 : UInt8) ≠ UInt8.ofNat n := by
    intro n hpos hlt heq
    have hnat := congrArg UInt8.toNat heq
    rw [UInt8.toNat_ofNat'] at hnat
    change 0 = n % 256 at hnat
    omega
  by_contra hne
  have hpos : 0 < c.val.toNat := by
    rw [Nat.pos_iff_ne_zero]
    intro hzero
    exact hne (Char.ext (UInt32.toNat_inj.mp hzero))
  unfold String.utf8EncodeChar at h
  simp only at h
  split_ifs at h
  all_goals
    simp only [List.mem_cons, List.not_mem_nil, or_false] at h
  · exact hbyte _ hpos (by omega) h
  · rcases h with h | h
    · exact hbyte _ (by omega) (by omega) h
    · exact hbyte _ (by omega) (by omega) h
  · rcases h with h | h | h
    · exact hbyte _ (by omega) (by omega) h
    · exact hbyte _ (by omega) (by omega) h
    · exact hbyte _ (by omega) (by omega) h
  · rcases h with h | h | h | h
    · exact hbyte _ (by omega) (by omega) h
    · exact hbyte _ (by omega) (by omega) h
    · exact hbyte _ (by omega) (by omega) h
    · exact hbyte _ (by omega) (by omega) h

theorem NoNul.zero_not_mem {s : String} (h : NoNul s) : (0 : UInt8) ∉ utf8 s := by
  rw [utf8_eq_flatMap, List.mem_flatMap]
  rintro ⟨c, hc, hzero⟩
  rw [eq_nul_of_zero_mem hzero] at hc
  exact h hc

theorem NoNul.intoCString_eq {s : String} (h : NoNul s) : intoCString s = s := by
  have hmap : (s.toList.map fun c => if c = '\x00' then '\ufffd' else c) = s.toList := by
    refine (List.map_congr_left fun c hc => ?_).trans (List.map_id s.toList)
    rw [if_neg fun heq : c = '\x00' => h (heq ▸ hc)]
    rfl
  rw [intoCString, hmap, String.ofList_toList]

/-! ## The whole text -/

/-- The JSON text of plain results has no zero byte, so the C string is that text, and reading it
gives back the results. -/
theorem resultsToJson_faithful (F : Sql.Formats) {results : List QueryResult}
    (h : ∀ r ∈ results, Plain r) :
    (0 : UInt8) ∉ utf8 (resultsToJson F results) ∧
      intoCString (resultsToJson F results) = resultsToJson F results ∧
      ∃ j, Json.parse (resultsToJson F results) = some j ∧ decodeResults j = some results := by
  have hnul : NoNul (resultsToJson F results) :=
    noNul_bracketed (noNul_encodeItems 0 fun r hr => noNul_encodeResult F (h r hr))
  refine ⟨hnul.zero_not_mem, hnul.intoCString_eq, .arr (results.map jsonOfResult), ?_, ?_⟩
  · exact (reads_array fun r hr => reads_encodeResult F (h r hr)).parse
  · exact mapM_map_eq_some fun r hr => decodeResult_jsonOfResult (h r hr)

/-- A column name that tries to end its string, and a text of a NUL and a backslash. -/
theorem resultsToJson_faithful_quotes :
    (0 : UInt8) ∉ utf8 (resultsToJson Sql.integerFormats
        [.created "t", .rows ["a\"],["] [[.null, .int (-5), .text "\x00\\"]]]) ∧
      intoCString (resultsToJson Sql.integerFormats
        [.created "t", .rows ["a\"],["] [[.null, .int (-5), .text "\x00\\"]]]) =
        resultsToJson Sql.integerFormats
          [.created "t", .rows ["a\"],["] [[.null, .int (-5), .text "\x00\\"]]] ∧
      ∃ j, Json.parse (resultsToJson Sql.integerFormats
        [.created "t", .rows ["a\"],["] [[.null, .int (-5), .text "\x00\\"]]]) = some j ∧
        decodeResults j =
          some [.created "t", .rows ["a\"],["] [[.null, .int (-5), .text "\x00\\"]]] := by
  refine resultsToJson_faithful Sql.integerFormats fun r hr => ?_
  simp only [List.mem_cons, List.not_mem_nil, or_false] at hr
  rcases hr with rfl | rfl
  · trivial
  · intro row hrow v hv
    simp only [List.mem_cons, List.not_mem_nil, or_false] at hrow hv
    subst hrow
    simp only [List.mem_cons, List.not_mem_nil, or_false] at hv
    rcases hv with rfl | rfl | rfl
    · exact ⟨fun _ => by simp, fun _ => by simp⟩
    · exact ⟨fun _ => by simp, fun _ => by simp⟩
    · exact ⟨fun _ => by simp, fun _ => by simp⟩

end Ffi

end Ciphra
