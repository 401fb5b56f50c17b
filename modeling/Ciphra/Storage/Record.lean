import Ciphra.Foundations.OrdMap

/-!
# The records of the write-ahead log

A record is `crc32(payload) | payload_len | payload`. The payload is one entry
`op | key_len | key | value_len | value`, or `OP_BATCH | count` followed by `count` entries. All
lengths are four bytes, little-endian, and a length that does not fit is truncated, as the casts
of the source do.

A record whose payload is shorter than `2 ^ 32` bytes decodes to itself whatever follows it
(`decodeRecord_frame_append`), and no proper prefix of one decodes (`decodeRecord_take_frame`).
-/

namespace Ciphra.Storage

/-! ## The checksum -/

/-- One bit of the reflected CRC-32 division. -/
def crcShift (c : UInt32) : UInt32 :=
  if c &&& 1 ≠ 0 then (0xEDB88320 : UInt32) ^^^ (c >>> 1) else c >>> 1

/-- The table of the checksum: eight shifts of every byte. -/
def crcTable : Vector UInt32 256 := Vector.ofFn fun i => crcShift^[8] (UInt32.ofNat i)

theorem toNat_and_255_lt (c : UInt32) : (c &&& 0xFF).toNat < 256 := by
  rw [UInt32.toNat_and]
  exact Nat.lt_of_le_of_lt Nat.and_le_right (by decide)

/-- One byte of the table-driven checksum. -/
def crcByte (c : UInt32) (byte : UInt8) : UInt32 :=
  crcTable.get ⟨((c ^^^ byte.toUInt32) &&& 0xFF).toNat, toNat_and_255_lt _⟩ ^^^ (c >>> 8)

/-- Standard CRC-32 (IEEE 802.3). -/
def crc32 (data : Bytes) : UInt32 := data.foldl crcByte 0xFFFFFFFF ^^^ 0xFFFFFFFF

/-! ## Encoding -/

def opPut : UInt8 := 1
def opDelete : UInt8 := 2
/-- A group of puts and deletes inside one checksummed record. -/
def opBatch : UInt8 := 3

/-- An operation as it stands in the log: opcode, key, value. -/
abbrev Entry := UInt8 × Bytes × Bytes

/-- The payload layout of one operation. -/
def encodeEntry (e : Entry) : Bytes :=
  e.1 :: (leBytes 4 e.2.1.length ++ e.2.1 ++ (leBytes 4 e.2.2.length ++ e.2.2))

/-- A payload under its checksum and length. -/
def frame (payload : Bytes) : Bytes :=
  leBytes 4 (crc32 payload).toNat ++ (leBytes 4 payload.length ++ payload)

/-- The record of a single operation. -/
def encodeRecord (op : UInt8) (key value : Bytes) : Bytes := frame (encodeEntry (op, key, value))

/-- The payload of a batch. -/
def batchPayload (entries : List Entry) : Bytes :=
  opBatch :: (leBytes 4 entries.length ++ entries.flatMap encodeEntry)

/-- The record of a batch. -/
def encodeBatchRecord (entries : List Entry) : Bytes := frame (batchPayload entries)

/-! ## Decoding -/

/-- A decoded record. -/
inductive Record
  | single (op : UInt8) (key value : Bytes)
  | batch (entries : List Entry)
  deriving DecidableEq, Repr

/-- Decode one entry from the front of a buffer, with the number of bytes consumed. -/
def decodeEntry (buf : Bytes) : Option (Entry × ℕ) :=
  match buf with
  | [] => none
  | op :: rest =>
    if buf.length < 9 then none
    else
      let keyLen := leNat (rest.take 4)
      let vstart := 5 + keyLen
      if buf.length < vstart + 4 then none
      else
        let key := (buf.drop 5).take keyLen
        let valueLen := leNat ((buf.drop vstart).take 4)
        let stop := vstart + 4 + valueLen
        if buf.length < stop then none
        else some ((op, key, (buf.drop (vstart + 4)).take valueLen), stop)

/-- Decode `count` entries one after the other. -/
def decodeEntries : ℕ → Bytes → Option (List Entry × ℕ)
  | 0, _ => some ([], 0)
  | count + 1, buf => do
    let (entry, advanced) ← decodeEntry buf
    let (entries, pos) ← decodeEntries count (buf.drop advanced)
    some (entry :: entries, advanced + pos)

/-- Decode a payload whose checksum was right: it must be used up exactly. -/
def decodePayload (payload : Bytes) : Option Record :=
  match payload with
  | [] => none
  | op :: rest =>
    if op = opBatch then do
      let (entries, pos) ← decodeEntries (leNat (rest.take 4)) (payload.drop 5)
      if 5 + pos ≠ payload.length then none else some (.batch entries)
    else do
      let ((op, key, value), advanced) ← decodeEntry payload
      if advanced ≠ payload.length then none else some (.single op key value)

/-- Decode one record from the front of a buffer, with the number of bytes consumed; `none` if it
is truncated, malformed, or fails its checksum. -/
def decodeRecord (buf : Bytes) : Option (ℕ × Record) :=
  if buf.length < 8 then none
  else
    let crc := leNat (buf.take 4)
    let payloadLen := leNat ((buf.drop 4).take 4)
    if buf.length < 8 + payloadLen ∨ payloadLen < 5 then none
    else
      let payload := (buf.drop 8).take payloadLen
      if (crc32 payload).toNat ≠ crc then none
      else (decodePayload payload).map fun r => (8 + payloadLen, r)

/-- A record that decodes lies in the buffer, and has the checksum and the length of its payload in
its header. -/
theorem decodeRecord_eq_some {buf : Bytes} {consumed : ℕ} {r : Record}
    (h : decodeRecord buf = some (consumed, r)) :
    consumed = 8 + leNat ((buf.drop 4).take 4) ∧ 13 ≤ consumed ∧ consumed ≤ buf.length ∧
      (crc32 ((buf.drop 8).take (consumed - 8))).toNat = leNat (buf.take 4) := by
  unfold decodeRecord at h
  split at h
  · cases h
  · simp only at h
    split at h
    · cases h
    · split at h
      · cases h
      · rename_i hlen hcrc
        obtain ⟨r', -, he⟩ := Option.map_eq_some_iff.mp h
        obtain ⟨rfl, -⟩ := Prod.mk.inj he
        rw [Nat.add_sub_cancel_left]
        exact ⟨rfl, by omega, by omega, not_not.mp hcrc⟩

theorem decodeRecord_consumed {buf : Bytes} {consumed : ℕ} {r : Record}
    (h : decodeRecord buf = some (consumed, r)) : 13 ≤ consumed ∧ consumed ≤ buf.length :=
  ⟨(decodeRecord_eq_some h).2.1, (decodeRecord_eq_some h).2.2.1⟩

/-! ## Lengths -/

@[simp] theorem length_encodeEntry (e : Entry) :
    (encodeEntry e).length = 9 + e.2.1.length + e.2.2.length := by
  simp only [encodeEntry, List.length_cons, List.length_append, length_leBytes]
  omega

@[simp] theorem length_frame (payload : Bytes) : (frame payload).length = 8 + payload.length := by
  simp only [frame, List.length_append, length_leBytes]
  omega

theorem frame_ne_nil (payload : Bytes) : frame payload ≠ [] := by
  intro h
  have := congrArg List.length h
  rw [length_frame, List.length_nil] at this
  omega

theorem length_batchPayload (entries : List Entry) :
    (batchPayload entries).length = 5 + (entries.flatMap encodeEntry).length := by
  simp only [batchPayload, List.length_cons, List.length_append, length_leBytes]
  omega

theorem length_encodeEntry_le {entries : List Entry} {e : Entry} (h : e ∈ entries) :
    (encodeEntry e).length ≤ (entries.flatMap encodeEntry).length := by
  rw [List.length_flatMap]
  exact List.le_sum_of_mem (List.mem_map_of_mem h)

theorem length_le_flatMap_encodeEntry (entries : List Entry) :
    entries.length ≤ (entries.flatMap encodeEntry).length := by
  induction entries with
  | nil => simp
  | cons e es ih =>
    simp only [List.flatMap_cons, List.length_append, List.length_cons, length_encodeEntry]
    omega

/-- The length field of a payload of exactly `2 ^ 32` bytes is zero, and its record is not read. -/
theorem decodeRecord_frame_eq_none {payload : Bytes} (h : payload.length = 2 ^ 32) :
    decodeRecord (frame payload) = none := by
  have hlen : leNat (((frame payload).drop 4).take 4) = 0 := by
    rw [frame, List.drop_left' (length_leBytes _ _), List.take_left' (length_leBytes _ _), h]
    decide
  unfold decodeRecord
  simp only [hlen]
  rw [if_neg (by rw [length_frame]; omega), if_pos (Or.inr (by omega))]

/-! ## Round trips -/

theorem decodeEntry_append (e : Entry) (rest : Bytes) (hk : e.2.1.length < 2 ^ 32)
    (hv : e.2.2.length < 2 ^ 32) :
    decodeEntry (encodeEntry e ++ rest) = some (e, (encodeEntry e).length) := by
  obtain ⟨op, key, value⟩ := e
  replace hk : key.length < 2 ^ 32 := hk
  replace hv : value.length < 2 ^ 32 := hv
  have hbuf : encodeEntry (op, key, value) ++ rest =
      op :: (leBytes 4 key.length ++ (key ++ (leBytes 4 value.length ++ (value ++ rest)))) := by
    simp only [encodeEntry, List.cons_append, List.append_assoc]
  have hkl : key.length % 256 ^ 4 = key.length := Nat.mod_eq_of_lt (by simpa using hk)
  have hvl : value.length % 256 ^ 4 = value.length := Nat.mod_eq_of_lt (by simpa using hv)
  have h5 : (op :: (leBytes 4 key.length ++
      (key ++ (leBytes 4 value.length ++ (value ++ rest))))).drop 5 =
      key ++ (leBytes 4 value.length ++ (value ++ rest)) := by
    rw [List.drop_succ_cons, drop_leBytes]
  have hvs : (op :: (leBytes 4 key.length ++
      (key ++ (leBytes 4 value.length ++ (value ++ rest))))).drop (5 + key.length) =
      leBytes 4 value.length ++ (value ++ rest) := by
    rw [← List.drop_drop, h5, List.drop_left]
  rw [hbuf]
  simp only [decodeEntry, leNat_take_leBytes, hkl]
  rw [if_neg, if_neg, hvs, h5, leNat_take_leBytes, hvl, if_neg, List.take_left]
  · rw [← List.drop_drop, hvs, drop_leBytes, List.take_left, length_encodeEntry]
    simp only [Option.some.injEq, Prod.mk.injEq, true_and]
    omega
  all_goals
    simp only [List.length_cons, List.length_append, length_leBytes]
    omega

theorem decodeEntries_append (entries : List Entry) (rest : Bytes)
    (h : (entries.flatMap encodeEntry).length < 2 ^ 32) :
    decodeEntries entries.length (entries.flatMap encodeEntry ++ rest) =
      some (entries, (entries.flatMap encodeEntry).length) := by
  induction entries with
  | nil => rfl
  | cons e es ih =>
    simp only [List.flatMap_cons, List.length_append] at h
    have hlen := length_encodeEntry e
    rw [List.flatMap_cons, List.append_assoc, List.length_cons, decodeEntries,
      decodeEntry_append e _ (by omega) (by omega)]
    simp only [Option.bind_eq_bind, Option.bind_some, List.drop_left]
    rw [ih (by omega)]
    simp

theorem decodePayload_encodeEntry (e : Entry) (hop : e.1 ≠ opBatch)
    (h : (encodeEntry e).length < 2 ^ 32) :
    decodePayload (encodeEntry e) = some (.single e.1 e.2.1 e.2.2) := by
  have hlen := length_encodeEntry e
  have hdec := decodeEntry_append e [] (by omega) (by omega)
  rw [List.append_nil] at hdec
  rw [decodePayload.eq_def]
  simp only [encodeEntry, if_neg hop] at hdec ⊢
  rw [hdec]
  simp

theorem decodePayload_batchPayload (entries : List Entry)
    (h : (batchPayload entries).length < 2 ^ 32) :
    decodePayload (batchPayload entries) = some (.batch entries) := by
  rw [length_batchPayload] at h
  have hcount := length_le_flatMap_encodeEntry entries
  have hmod : entries.length % 256 ^ 4 = entries.length := Nat.mod_eq_of_lt (by omega)
  have hdec := decodeEntries_append entries [] (by omega)
  rw [List.append_nil] at hdec
  have hdrop : (batchPayload entries).drop 5 = entries.flatMap encodeEntry := by
    rw [batchPayload, List.drop_succ_cons, drop_leBytes]
  have hread : leNat ((leBytes 4 entries.length ++ entries.flatMap encodeEntry).take 4) =
      entries.length := by rw [leNat_take_leBytes, hmod]
  rw [decodePayload.eq_def]
  conv_lhs => rw [batchPayload]
  simp only [if_true]
  rw [hread, ← batchPayload, hdrop, hdec]
  simp [length_batchPayload]

/-- A framed payload is read off the front of a buffer in one way only. -/
theorem frame_append_inj {p p' rest rest' : Bytes} (hp : p.length < 2 ^ 32)
    (hp' : p'.length < 2 ^ 32) (h : frame p ++ rest = frame p' ++ rest') : p = p' ∧ rest = rest' := by
  simp only [frame, List.append_assoc] at h
  have hbody := (List.append_inj h (by rw [length_leBytes, length_leBytes])).2
  exact prefixed_inj (by simpa using hp) (by simpa using hp') hbody

theorem decodeRecord_frame_append (payload rest : Bytes) (r : Record) (h5 : 5 ≤ payload.length)
    (hlt : payload.length < 2 ^ 32) (hp : decodePayload payload = some r) :
    decodeRecord (frame payload ++ rest) = some ((frame payload).length, r) := by
  have hbuf : frame payload ++ rest =
      leBytes 4 (crc32 payload).toNat ++ (leBytes 4 payload.length ++ (payload ++ rest)) := by
    simp only [frame, List.append_assoc]
  have hcrc : (crc32 payload).toNat % 256 ^ 4 = (crc32 payload).toNat :=
    Nat.mod_eq_of_lt (by simpa using (crc32 payload).toNat_lt)
  have hlen : payload.length % 256 ^ 4 = payload.length := Nat.mod_eq_of_lt (by simpa using hlt)
  have h8 : (leBytes 4 (crc32 payload).toNat ++
      (leBytes 4 payload.length ++ (payload ++ rest))).drop 8 = payload ++ rest := by
    rw [show 8 = 4 + 4 from rfl, ← List.drop_drop, drop_leBytes, drop_leBytes]
  rw [hbuf, decodeRecord, if_neg]
  · simp only [drop_leBytes, leNat_take_leBytes, hcrc, hlen]
    rw [if_neg, h8, List.take_left, if_neg (by simp), hp, length_frame]
    · rfl
    · simp only [List.length_append, length_leBytes]
      omega
  · simp only [List.length_append, length_leBytes]
    omega

/-- A record cut anywhere before its end does not decode. -/
theorem decodeRecord_take_frame (payload : Bytes) (n : ℕ) (hlt : payload.length < 2 ^ 32)
    (hn : n < (frame payload).length) : decodeRecord ((frame payload).take n) = none := by
  rw [length_frame] at hn
  have hlen : ((frame payload).take n).length = n := by
    rw [List.length_take, length_frame]
    omega
  rw [decodeRecord]
  split
  · rfl
  · rename_i h8
    rw [hlen] at h8
    -- the length field is whole, and promises more than is there
    have hfield : leNat ((((frame payload).take n).drop 4).take 4) = payload.length := by
      rw [List.drop_take, List.take_take, Nat.min_eq_left (by omega), frame, drop_leBytes,
        leNat_take_leBytes, Nat.mod_eq_of_lt (by simpa using hlt)]
    simp only [hfield, hlen]
    rw [if_pos (Or.inl (by omega))]

end Ciphra.Storage
