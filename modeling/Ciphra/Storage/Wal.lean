import Ciphra.Storage.Record

/-!
# The durable key-value store

`Storage` is an ordered map in memory and the bytes of its write-ahead log. Every mutation appends
one record and is then applied to the map; `Storage.openLog` replays a log file and cuts a torn
tail off. A write may fail: `Io` says whether the record was written and synced, how much of it
reached the file, or that only the sync failed.

The abstract level is the *log*: a list of batches, one for each record (`encodeLog`, `applyLog`).
`run_events` is the refinement: after any sequence of successful calls and crashes, each crash
leaving an arbitrary prefix of the file that is then reopened, the store is the one its log
describes, where a crash keeps exactly the batches wholly inside the prefix.
-/

namespace Ciphra

open OrdMap

/-- One operation of a batch. -/
abbrev Op := Mutation Bytes Bytes

/-- A group of mutations to be committed together. -/
abbrev Batch := List Op

inductive StorageError
  | io
  | corrupt (message : String)
  deriving DecidableEq, Repr

/-- A durable ordered key-value store backed by a write-ahead log. -/
structure Storage where
  map : ByteMap
  wal : Bytes

namespace Storage

/-- An operation as it stands in the log. -/
def entryOf : Op → Entry
  | .put key value => (opPut, key, value)
  | .delete key => (opDelete, key, [])

/-- Apply one logged operation to the in-memory table; `false` for an unknown opcode. -/
def applyOp (map : ByteMap) (op : UInt8) (key value : Bytes) : ByteMap × Bool :=
  if op = opPut then (map.insert key value, true)
  else if op = opDelete then (map.erase key, true)
  else (map, false)

/-- Apply the entries of a batch record. -/
def applyEntries (map : ByteMap) (entries : List Entry) : ByteMap :=
  entries.foldl (fun m e => (applyOp m e.1 e.2.1 e.2.2).1) map

/-- The replay loop of `open`: the map after the records that decode, and how many bytes they
take. -/
def replay (buf : Bytes) (map : ByteMap) : ByteMap × ℕ :=
  if buf = [] then (map, 0)
  else
    match _h : decodeRecord buf with
    | some (consumed, .single op key value) =>
      match applyOp map op key value with
      | (map', true) =>
        let (final, pos) := replay (buf.drop consumed) map'
        (final, consumed + pos)
      -- unknown opcode: treat as torn tail
      | (_, false) => (map, 0)
    | some (consumed, .batch entries) =>
      let (final, pos) := replay (buf.drop consumed) (applyEntries map entries)
      (final, consumed + pos)
    | none => (map, 0)
termination_by buf.length
decreasing_by
  all_goals
    have := decodeRecord_consumed _h
    rw [List.length_drop]
    omega

/-- Open a store on the contents of its log file, truncating a torn tail. -/
def openLog (file : Bytes) : Storage :=
  let (map, pos) := replay file ∅
  { map, wal := file.take pos }

/-- How appending a record to the log file ends. -/
inductive Io
  | ok
  /-- `write_all` failed after this many bytes. -/
  | writeFailed (written : ℕ)
  /-- The record was written and `sync_data` failed. -/
  | syncFailed
  deriving DecidableEq, Repr

/-- The bytes of a record that reach the file. -/
def Io.written (record : Bytes) : Io → Bytes
  | .ok => record
  | .writeFailed n => record.take n
  | .syncFailed => record

/-- Write a record and sync it. -/
def append (s : Storage) (record : Bytes) (io : Io) : Except StorageError Unit × Storage :=
  (if io = .ok then .ok () else .error .io, { s with wal := s.wal ++ io.written record })

/-- Insert or replace a key. -/
def put (s : Storage) (key value : Bytes) (io : Io) : Except StorageError Unit × Storage :=
  match s.append (encodeRecord opPut key value) io with
  | (.ok (), s) => (.ok (), { s with map := s.map.insert key value })
  | (.error e, s) => (.error e, s)

/-- Remove a key if present. -/
def delete (s : Storage) (key : Bytes) (io : Io) : Except StorageError Unit × Storage :=
  match s.append (encodeRecord opDelete key []) io with
  | (.ok (), s) => (.ok (), { s with map := s.map.erase key })
  | (.error e, s) => (.error e, s)

/-- Apply a batch with one record and one sync. -/
def commit (s : Storage) (batch : Batch) (io : Io) : Except StorageError Unit × Storage :=
  match batch with
  | [] => (.ok (), s)
  | [op] =>
    -- a single-op batch is just a plain record
    let (code, key, value) := entryOf op
    match s.append (encodeRecord code key value) io with
    | (.ok (), s) => (.ok (), { s with map := (applyOp s.map code key value).1 })
    | (.error e, s) => (.error e, s)
  | ops =>
    match s.append (encodeBatchRecord (ops.map entryOf)) io with
    | (.ok (), s) => (.ok (), { s with map := applyEntries s.map (ops.map entryOf) })
    | (.error e, s) => (.error e, s)

/-- All pairs whose key starts with `p`, in key order. -/
def scanPrefix (s : Storage) (p : Bytes) : List (Bytes × Bytes) := s.map.scanPrefix p

/-- A scan yields the pairs under its prefix, each once and in ascending order of the keys. -/
theorem scanPrefix_exact (s : Storage) (p : Bytes) :
    s.scanPrefix p = (s.map.toList.filter fun e => p.isPrefixOf e.1) ∧
      (∀ k x, (k, x) ∈ s.scanPrefix p ↔ s.map[k]? = some x ∧ p <+: k) ∧
      ((s.scanPrefix p).Pairwise fun a b => compare a.1 b.1 = .lt) ∧
      ((s.scanPrefix p).map Prod.fst).Nodup := by
  have hsorted := s.map.sortedKeys_scanPrefix p
  refine ⟨s.map.scanPrefix_eq_filter p, s.map.mem_scanPrefix p, hsorted, ?_⟩
  refine List.pairwise_map.mpr (hsorted.imp fun hlt heq => ?_)
  rw [heq, Std.ReflOrd.compare_self] at hlt
  cases hlt

/-- The pairs written as a fresh, compacted log: a complete database file. -/
def snapshotBytes (pairs : List (Bytes × Bytes)) : Bytes :=
  pairs.flatMap fun e => encodeRecord opPut e.1 e.2

/-- Rewrite the log so that it contains exactly the live state. -/
def compact (s : Storage) : Storage := { s with wal := snapshotBytes s.map.toList }

/-! ## The log as a list of batches -/

/-- The payload of the record a non-empty batch is written as. -/
def payloadOf : Batch → Bytes
  | [op] => encodeEntry (entryOf op)
  | ops => batchPayload (ops.map entryOf)

/-- The record of a batch fits the four-byte length field. -/
def Fits (b : Batch) : Prop := (payloadOf b).length < 2 ^ 32

instance (b : Batch) : Decidable (Fits b) := inferInstanceAs (Decidable (_ < _))

/-- The bytes of a log. -/
def encodeLog (log : List Batch) : Bytes := log.flatMap fun b => frame (payloadOf b)

/-- The map a log describes. -/
def applyLog (m : ByteMap) (log : List Batch) : ByteMap := log.foldl applyAll m

/-- The batches whose records lie wholly in the first `n` bytes. -/
def wholeBatches : List Batch → ℕ → List Batch
  | [], _ => []
  | b :: log, n =>
    if (frame (payloadOf b)).length ≤ n then
      b :: wholeBatches log (n - (frame (payloadOf b)).length)
    else []

/-- A log the store can have written: no empty batch, every record within the format. -/
def Writable (log : List Batch) : Prop := ∀ b ∈ log, b ≠ [] ∧ Fits b

@[simp] theorem encodeLog_nil : encodeLog [] = [] := rfl

@[simp] theorem encodeLog_cons (b : Batch) (log : List Batch) :
    encodeLog (b :: log) = frame (payloadOf b) ++ encodeLog log := rfl

theorem encodeLog_append (log log' : List Batch) :
    encodeLog (log ++ log') = encodeLog log ++ encodeLog log' := List.flatMap_append

theorem applyLog_append (m : ByteMap) (log log' : List Batch) :
    applyLog m (log ++ log') = applyLog (applyLog m log) log' := List.foldl_append

theorem applyOp_entryOf (m : ByteMap) (op : Op) :
    applyOp m (entryOf op).1 (entryOf op).2.1 (entryOf op).2.2 = (op.apply m, true) := by
  cases op <;> rfl

theorem applyEntries_map (m : ByteMap) (b : Batch) :
    applyEntries m (b.map entryOf) = applyAll m b := by
  induction b generalizing m with
  | nil => rfl
  | cons op b ih =>
    rw [List.map_cons, applyEntries, List.foldl_cons, applyOp_entryOf, applyAll_cons]
    exact ih _

theorem entryOf_ne_opBatch (op : Op) : (entryOf op).1 ≠ opBatch := by
  cases op <;> simp [entryOf, opPut, opDelete, opBatch]

theorem five_le_length_payloadOf (b : Batch) : 5 ≤ (payloadOf b).length := by
  unfold payloadOf
  split
  · rw [length_encodeEntry]
    omega
  · rw [length_batchPayload]
    omega

/-- What the record of a non-empty batch holds. -/
def recordOf : Batch → Record
  | [op] => .single (entryOf op).1 (entryOf op).2.1 (entryOf op).2.2
  | ops => .batch (ops.map entryOf)

theorem decodePayload_payloadOf {b : Batch} (hfit : Fits b) :
    decodePayload (payloadOf b) = some (recordOf b) := by
  rcases b with _ | ⟨op, _ | ⟨op', ops⟩⟩
  · exact decodePayload_batchPayload _ hfit
  · exact decodePayload_encodeEntry _ (entryOf_ne_opBatch op) hfit
  · exact decodePayload_batchPayload _ hfit

theorem entryOf_injective : Function.Injective entryOf := by
  intro op op' h
  cases op <;> cases op' <;> simp_all [entryOf, opPut, opDelete]

theorem recordOf_injective : Function.Injective recordOf := by
  intro b b' h
  match b, b' with
  | [op], [op'] =>
    obtain ⟨hcode, hkey, hvalue⟩ := Record.single.inj h
    rw [entryOf_injective (Prod.ext hcode (Prod.ext hkey hvalue))]
  | [], [_] | [_], [] | [_], _ :: _ :: _ | _ :: _ :: _, [_] => cases h
  | [], [] | [], _ :: _ :: _ | _ :: _ :: _, [] | _ :: _ :: _, _ :: _ :: _ =>
    exact entryOf_injective.list_map (Record.batch.inj h)

/-- Two logs of the same bytes hold the same batches. -/
theorem encodeLog_injective {log log' : List Batch} (hw : Writable log) (hw' : Writable log')
    (h : encodeLog log = encodeLog log') : log = log' := by
  induction log generalizing log' with
  | nil =>
    cases log' with
    | nil => rfl
    | cons b' log' => simp [frame_ne_nil] at h
  | cons b log ih =>
    cases log' with
    | nil => simp [frame_ne_nil] at h
    | cons b' log' =>
      have hfit := (hw b List.mem_cons_self).2
      have hfit' := (hw' b' List.mem_cons_self).2
      obtain ⟨hpayload, hrest⟩ := frame_append_inj hfit hfit' h
      have hrecord := (decodePayload_payloadOf hfit).symm.trans
        ((congrArg decodePayload hpayload).trans (decodePayload_payloadOf hfit'))
      rw [recordOf_injective (Option.some.inj hrecord),
        ih (fun c hc => hw c (List.mem_cons_of_mem _ hc))
          (fun c hc => hw' c (List.mem_cons_of_mem _ hc)) hrest]

/-! ## Replaying a log -/

/-- The replay loop over the record of one batch. -/
theorem replay_record (b : Batch) (hb : b ≠ []) (hfit : Fits b) (rest : Bytes) (m : ByteMap) :
    replay (frame (payloadOf b) ++ rest) m =
      ((replay rest (applyAll m b)).1,
        (frame (payloadOf b)).length + (replay rest (applyAll m b)).2) := by
  have hne : frame (payloadOf b) ++ rest ≠ [] := by simp [frame_ne_nil]
  have hdec := decodeRecord_frame_append (payloadOf b) rest _ (five_le_length_payloadOf _) hfit
    (decodePayload_payloadOf hfit)
  rw [replay, if_neg hne]
  cases b with
  | nil => exact absurd rfl hb
  | cons op ops =>
    cases ops with
    | nil =>
      split
      · rename_i consumed code key value h
        rw [hdec] at h
        simp only [recordOf, Option.some.injEq, Prod.mk.injEq, Record.single.injEq] at h
        obtain ⟨rfl, rfl, rfl, rfl⟩ := h
        rw [applyOp_entryOf, List.drop_left]
        rfl
      · rename_i h
        rw [hdec] at h
        cases h
      · rename_i h
        rw [hdec] at h
        cases h
    | cons op' ops =>
      split
      · rename_i h
        rw [hdec] at h
        cases h
      · rename_i consumed entries h
        rw [hdec] at h
        simp only [recordOf, Option.some.injEq, Prod.mk.injEq, Record.batch.injEq] at h
        obtain ⟨rfl, rfl⟩ := h
        rw [applyEntries_map, List.drop_left]
      · rename_i h
        rw [hdec] at h
        cases h

theorem replay_of_decodeRecord_none {tail : Bytes} (h : decodeRecord tail = none) (m : ByteMap) :
    replay tail m = (m, 0) := by
  rw [replay]
  split
  · rfl
  · split
    · rename_i h'
      rw [h] at h'
      cases h'
    · rename_i h'
      rw [h] at h'
      cases h'
    · rfl

/-- Replaying a log followed by bytes that do not decode stops exactly at its end. -/
theorem replay_encodeLog_append (log : List Batch) (hw : Writable log) {tail : Bytes}
    (ht : decodeRecord tail = none) (m : ByteMap) :
    replay (encodeLog log ++ tail) m = (applyLog m log, (encodeLog log).length) := by
  induction log generalizing m with
  | nil => exact replay_of_decodeRecord_none ht m
  | cons b log ih =>
    obtain ⟨hb, hfit⟩ := hw b List.mem_cons_self
    rw [encodeLog_cons, List.append_assoc, replay_record b hb hfit,
      ih (fun c hc => hw c (List.mem_cons_of_mem _ hc))]
    simp [applyLog]

theorem openLog_encodeLog_append (log : List Batch) (hw : Writable log) {tail : Bytes}
    (ht : decodeRecord tail = none) :
    openLog (encodeLog log ++ tail) = ⟨applyLog ∅ log, encodeLog log⟩ := by
  simp only [openLog, replay_encodeLog_append log hw ht, List.take_left]

/-- A prefix of a log file is the whole records in it followed by a torn one. -/
theorem take_encodeLog (log : List Batch) (hw : Writable log) (n : ℕ) :
    ∃ tail, (encodeLog log).take n = encodeLog (wholeBatches log n) ++ tail ∧
      decodeRecord tail = none := by
  induction log generalizing n with
  | nil => exact ⟨[], by simp [wholeBatches], rfl⟩
  | cons b log ih =>
    rw [encodeLog_cons, List.take_append, wholeBatches]
    split
    · rename_i hle
      obtain ⟨tail, he, ht⟩ := ih (fun c hc => hw c (List.mem_cons_of_mem _ hc))
        (n - (frame (payloadOf b)).length)
      refine ⟨tail, ?_, ht⟩
      rw [List.take_of_length_le hle, he, encodeLog_cons, List.append_assoc]
    · rename_i hlt
      refine ⟨(frame (payloadOf b)).take n, ?_,
        decodeRecord_take_frame _ _ (hw b List.mem_cons_self).2 (by omega)⟩
      rw [Nat.sub_eq_zero_of_le (by omega), List.take_zero, List.append_nil]
      rfl

theorem wholeBatches_isPrefix (log : List Batch) (n : ℕ) : wholeBatches log n <+: log := by
  induction log generalizing n with
  | nil => exact List.nil_prefix
  | cons b log ih =>
    rw [wholeBatches]
    split
    · exact List.cons_prefix_cons.mpr ⟨rfl, ih _⟩
    · exact List.nil_prefix

theorem length_encodeLog_wholeBatches_le (log : List Batch) (n : ℕ) :
    (encodeLog (wholeBatches log n)).length ≤ n := by
  induction log generalizing n with
  | nil => simp [wholeBatches]
  | cons b log ih =>
    rw [wholeBatches]
    split
    · have := ih (n - (frame (payloadOf b)).length)
      rw [encodeLog_cons, List.length_append]
      omega
    · simp

/-- The whole batches are the longest part of the log that lies in the prefix. -/
theorem isPrefix_wholeBatches {log more : List Batch} {n : ℕ} (hp : more <+: log)
    (hn : (encodeLog more).length ≤ n) : more <+: wholeBatches log n := by
  induction log generalizing more n with
  | nil =>
    obtain rfl := List.prefix_nil.mp hp
    exact List.nil_prefix
  | cons b log ih =>
    cases more with
    | nil => exact List.nil_prefix
    | cons c more =>
      obtain ⟨rfl, hp'⟩ := List.cons_prefix_cons.mp hp
      rw [encodeLog_cons, List.length_append] at hn
      rw [wholeBatches, if_pos (by omega)]
      exact List.cons_prefix_cons.mpr ⟨rfl, ih hp' (by omega)⟩

theorem writable_wholeBatches {log : List Batch} (hw : Writable log) (n : ℕ) :
    Writable (wholeBatches log n) :=
  fun b hb => hw b ((wholeBatches_isPrefix log n).subset hb)

/-! ## Calls -/

/-- A mutating call. -/
inductive Write
  | put (key value : Bytes)
  | delete (key : Bytes)
  | commit (batch : Batch)
  deriving DecidableEq, Repr

/-- The mutations a call makes. -/
def Write.batch : Write → Batch
  | .put key value => [.put key value]
  | .delete key => [.delete key]
  | .commit batch => batch

/-- Make a mutating call, its append ending as `io` says. -/
def write (s : Storage) (w : Write) (io : Io) : Except StorageError Unit × Storage :=
  match w with
  | .put key value => s.put key value io
  | .delete key => s.delete key io
  | .commit batch => s.commit batch io

/-- What every mutating call does: nothing for an empty batch, else one append, the map following
only when it succeeds. -/
theorem write_eq (s : Storage) (w : Write) (io : Io) :
    s.write w io =
      if w.batch = [] then (.ok (), s)
      else if io = .ok then
        (.ok (), ⟨applyAll s.map w.batch, s.wal ++ frame (payloadOf w.batch)⟩)
      else (.error .io, ⟨s.map, s.wal ++ io.written (frame (payloadOf w.batch))⟩) := by
  cases w with
  | put key value =>
    by_cases hio : io = .ok <;> simp [write, put, append, Write.batch, hio, Io.written,
      encodeRecord, payloadOf, entryOf, Mutation.apply]
  | delete key =>
    by_cases hio : io = .ok <;> simp [write, delete, append, Write.batch, hio, Io.written,
      encodeRecord, payloadOf, entryOf, Mutation.apply]
  | commit batch =>
    rcases batch with _ | ⟨op, _ | ⟨op', ops⟩⟩
    · rfl
    · have happ := applyOp_entryOf s.map op
      by_cases hio : io = .ok <;> simp [write, commit, append, Write.batch, hio, Io.written,
        encodeRecord, payloadOf, happ]
    · have happ := applyEntries_map s.map (op :: op' :: ops)
      by_cases hio : io = .ok <;> simp [write, commit, append, Write.batch, hio, Io.written,
        encodeBatchRecord, payloadOf, -List.map_cons, happ]

/-- A call on an open store. -/
inductive Call
  | write (w : Write)
  | compact
  deriving DecidableEq, Repr

/-- A call that succeeds. -/
def call (s : Storage) : Call → Storage
  | .write w => (s.write w .ok).2
  | .compact => s.compact

/-- The record a call writes fits its length field. -/
def Call.Fits : Call → Prop
  | .write w => Storage.Fits w.batch
  | .compact => True

/-- The log after a call. -/
def logCall (log : List Batch) : Call → List Batch
  | .write w => if w.batch = [] then log else log ++ [w.batch]
  | .compact => (applyLog ∅ log).toList.map fun e => [.put e.1 e.2]

/-- The store is what its log describes. -/
structure Intact (s : Storage) (log : List Batch) : Prop where
  map_eq : s.map = applyLog ∅ log
  wal_eq : s.wal = encodeLog log
  writable : Writable log

theorem Intact.eq {s : Storage} {log : List Batch} (h : Intact s log) :
    s = ⟨applyLog ∅ log, encodeLog log⟩ := by
  obtain ⟨hm, hw, -⟩ := h
  cases s
  simp_all

theorem intact_empty : Intact ⟨∅, []⟩ [] := ⟨rfl, rfl, fun _ h => by cases h⟩

/-- A batch that is written leaves its records in the log. -/
theorem writable_append {log : List Batch} (hw : Writable log) {b : Batch} (hb : b ≠ [])
    (hfit : Fits b) : Writable (log ++ [b]) := by
  intro c hc
  rcases List.mem_append.mp hc with hc | hc
  · exact hw c hc
  · obtain rfl := List.mem_singleton.mp hc
    exact ⟨hb, hfit⟩

/-! The pairs of the live map fit records of their own, since they came out of records. -/

theorem mem_of_getElem?_applyAll {m : ByteMap} {b : Batch} {k x : Bytes}
    (h : (applyAll m b)[k]? = some x) : .put k x ∈ b ∨ m[k]? = some x := by
  induction b generalizing m with
  | nil => exact Or.inr h
  | cons op b ih =>
    rcases ih h with h' | h'
    · exact Or.inl (List.mem_cons_of_mem _ h')
    · rw [getElem?_apply] at h'
      split at h'
      · rename_i hk
        cases op with
        | put k' x' =>
          obtain rfl : k' = k := hk
          obtain rfl : x' = x := Option.some.inj h'
          exact Or.inl List.mem_cons_self
        | delete k' => cases h'
      · exact Or.inr h'

theorem length_payloadOf_put_le {b : Batch} {k x : Bytes} (h : .put k x ∈ b) :
    (payloadOf [.put k x]).length ≤ (payloadOf b).length := by
  match b with
  | [op] =>
    obtain rfl := List.mem_singleton.mp h
    exact le_rfl
  | op :: op' :: ops =>
    have hmem : entryOf (.put k x) ∈ (op :: op' :: ops).map entryOf := List.mem_map_of_mem h
    have := length_encodeEntry_le hmem
    simp only [payloadOf]
    rw [length_batchPayload]
    omega

theorem fits_of_getElem?_applyLog {log : List Batch} (hw : Writable log) {m : ByteMap}
    (hm : ∀ k x, m[k]? = some x → Fits [.put k x]) {k x : Bytes}
    (h : (applyLog m log)[k]? = some x) : Fits [.put k x] := by
  induction log generalizing m with
  | nil => exact hm k x h
  | cons b log ih =>
    refine ih (fun c hc => hw c (List.mem_cons_of_mem _ hc)) (m := applyAll m b) ?_ h
    intro k x hx
    rcases mem_of_getElem?_applyAll hx with hmem | hx
    · exact lt_of_le_of_lt (length_payloadOf_put_le hmem) (hw b List.mem_cons_self).2
    · exact hm k x hx

theorem snapshotBytes_eq (pairs : List (Bytes × Bytes)) :
    snapshotBytes pairs = encodeLog (pairs.map fun e => [.put e.1 e.2]) := by
  simp only [snapshotBytes, encodeLog, List.flatMap_map]
  rfl

theorem applyLog_puts (m : ByteMap) (pairs : List (Bytes × Bytes)) :
    applyLog m (pairs.map fun e => [.put e.1 e.2]) =
      applyAll m (pairs.map fun e => .put e.1 e.2) := by
  induction pairs generalizing m with
  | nil => rfl
  | cons e pairs ih => exact ih _

/-! ## The refinement -/

theorem Intact.write_ok {s : Storage} {log : List Batch} (h : Intact s log) {w : Write}
    (hb : w.batch ≠ []) (hfit : Fits w.batch) : Intact (s.write w .ok).2 (log ++ [w.batch]) := by
  rw [write_eq, if_neg hb, if_pos rfl]
  refine ⟨?_, ?_, writable_append h.writable hb hfit⟩
  · rw [applyLog_append, ← h.map_eq]
    rfl
  · rw [encodeLog_append, ← h.wal_eq, encodeLog_cons, encodeLog_nil, List.append_nil]

theorem Intact.compact {s : Storage} {log : List Batch} (h : Intact s log) :
    Intact s.compact (logCall log .compact) := by
  have hmap : applyLog ∅ (logCall log .compact) = applyLog ∅ log := by
    rw [logCall, applyLog_puts, applyAll_puts]
  refine ⟨?_, ?_, ?_⟩
  · rw [hmap, ← h.map_eq]
    rfl
  · rw [Storage.compact, snapshotBytes_eq, h.map_eq]
    rfl
  · intro b hb
    obtain ⟨e, he, rfl⟩ := List.mem_map.mp hb
    refine ⟨by simp, fits_of_getElem?_applyLog h.writable (m := ∅) (by simp) ?_⟩
    exact (mem_toList_iff _ _ _).mp he

theorem Intact.call {s : Storage} {log : List Batch} (h : Intact s log) {c : Call}
    (hfit : c.Fits) : Intact (s.call c) (logCall log c) := by
  cases c with
  | write w =>
    by_cases hb : w.batch = []
    · simpa [Storage.call, logCall, write_eq, hb] using h
    · simpa [Storage.call, logCall, hb] using h.write_ok hb hfit
  | compact => exact h.compact

/-- Reopening a prefix of the log file keeps exactly the whole batches of the prefix. -/
theorem Intact.openLog_take {s : Storage} {log : List Batch} (h : Intact s log) (n : ℕ) :
    Intact (openLog (s.wal.take n)) (wholeBatches log n) := by
  obtain ⟨tail, he, ht⟩ := take_encodeLog log h.writable n
  have hw := writable_wholeBatches h.writable n
  rw [h.wal_eq, he, openLog_encodeLog_append _ hw ht]
  exact ⟨rfl, rfl, hw⟩

theorem Intact.openLog_wal {s : Storage} {log : List Batch} (h : Intact s log) :
    openLog s.wal = s := by
  have hnil : decodeRecord [] = none := rfl
  have := openLog_encodeLog_append log h.writable hnil
  rw [List.append_nil, ← h.wal_eq, ← h.map_eq] at this
  exact this

/-- A write that reaches the log whole or not at all leaves it intact. -/
theorem Intact.write_atomic {s : Storage} {log : List Batch} (h : Intact s log) {w : Write}
    (hfit : Fits w.batch) {io : Io} (hio : io = .ok ∨ io = .writeFailed 0) :
    ∃ log', Intact (s.write w io).2 log' := by
  rcases hio with rfl | rfl
  · exact ⟨_, h.call (c := .write w) hfit⟩
  · refine ⟨log, ?_⟩
    rw [write_eq]
    split
    · exact h
    · simpa [Io.written] using h

/-- A batch whose payload has exactly `2 ^ 32` bytes is acknowledged and not read back. -/
theorem Intact.openLog_write_lost {s : Storage} {log : List Batch} (h : Intact s log) {b : Batch}
    (hb : b ≠ []) (hlen : (payloadOf b).length = 2 ^ 32) :
    openLog (s.write (.commit b) .ok).2.wal = s := by
  have hb' : (Write.commit b).batch ≠ [] := hb
  have := openLog_encodeLog_append log h.writable (decodeRecord_frame_eq_none hlen)
  rw [← h.wal_eq, ← h.map_eq] at this
  rw [write_eq, if_neg hb', if_pos rfl]
  exact this

/-- What happens to a store: a successful call, or a crash that leaves the first `n` bytes of the
log file and is followed by a reopen. -/
inductive Event
  | call (c : Call)
  | crash (n : ℕ)
  deriving DecidableEq, Repr

/-- The store after an event. -/
def event (s : Storage) : Event → Storage
  | .call c => s.call c
  | .crash n => openLog (s.wal.take n)

/-- The log after an event. -/
def logEvent (log : List Batch) : Event → List Batch
  | .call c => logCall log c
  | .crash n => wholeBatches log n

/-- Every record written by the calls of a history fits its length field. -/
def Event.Fits : Event → Prop
  | .call c => c.Fits
  | .crash _ => True

/-- **The store refines its log** along every history of calls and crashes. -/
theorem run_events (events : List Event) (hfit : ∀ e ∈ events, e.Fits) {s : Storage}
    {log : List Batch} (h : Intact s log) :
    Intact (events.foldl event s) (events.foldl logEvent log) := by
  induction events generalizing s log with
  | nil => exact h
  | cons e events ih =>
    refine ih (fun e' he' => hfit e' (List.mem_cons_of_mem _ he')) ?_
    cases e with
    | call c => exact h.call (hfit (.call c) List.mem_cons_self)
    | crash n => exact h.openLog_take n

theorem run_calls (calls : List Call) (hfit : ∀ c ∈ calls, c.Fits) {s : Storage}
    {log : List Batch} (h : Intact s log) :
    Intact (calls.foldl call s) (calls.foldl logCall log) := by
  induction calls generalizing s log with
  | nil => exact h
  | cons c calls ih =>
    exact ih (fun c' hc' => hfit c' (List.mem_cons_of_mem _ hc')) (h.call (hfit c List.mem_cons_self))

/-- **Crash consistency.** Take any history of successful calls and crashes on a fresh store, cut
the log file at any byte and reopen it. The store opened holds exactly the batches wholly inside
the prefix, applied in order, and its file ends with the last of them; and after any further calls
another reopen gives their combined result. In particular the whole file replays to the live
store, and a batch is kept whole or not at all. -/
theorem crash_consistency (events : List Event) (hfit : ∀ e ∈ events, e.Fits) (n : ℕ)
    (further : List Call) (hfurther : ∀ c ∈ further, c.Fits) :
    let live := events.foldl event ⟨∅, []⟩
    let log := events.foldl logEvent []
    let reopened := openLog (live.wal.take n)
    let kept := wholeBatches log n
    (live = ⟨applyLog ∅ log, encodeLog log⟩ ∧ openLog live.wal = live) ∧
      (reopened = ⟨applyLog ∅ kept, encodeLog kept⟩ ∧ kept <+: log ∧ (encodeLog kept).length ≤ n ∧
        ∀ more, more <+: log → (encodeLog more).length ≤ n → more <+: kept) ∧
      further.foldl call reopened =
        ⟨applyLog ∅ (further.foldl logCall kept), encodeLog (further.foldl logCall kept)⟩ ∧
      openLog (further.foldl call reopened).wal = further.foldl call reopened := by
  have hlive := run_events events hfit intact_empty
  have hre := hlive.openLog_take n
  have hfu := run_calls further hfurther hre
  exact ⟨⟨hlive.eq, hlive.openLog_wal⟩, ⟨hre.eq, wholeBatches_isPrefix _ _,
    length_encodeLog_wholeBatches_le _ _, fun _ => isPrefix_wholeBatches⟩, hfu.eq,
    hfu.openLog_wal⟩

/-- The history of a batch that overrides itself, a crash in the middle of its record, a single
put and a compaction. -/
theorem crash_consistency_torn_batch :
    let events : List Event := [.call (.write (.put [1] [2])),
      .call (.write (.commit [.put [1] [3], .delete [1], .put [4] []])), .crash 40,
      .call (.write (.delete [7])), .call .compact]
    openLog ((events.foldl event ⟨∅, []⟩).wal.take 1000) =
      ⟨applyLog ∅ (wholeBatches (events.foldl logEvent []) 1000),
        encodeLog (wholeBatches (events.foldl logEvent []) 1000)⟩ :=
  (crash_consistency _ (by simp [Event.Fits, Call.Fits, Fits, Write.batch, payloadOf,
    length_batchPayload, entryOf, encodeEntry]) 1000 [.write (.put [] [])]
    (by simp [Call.Fits, Fits, Write.batch, payloadOf, entryOf, encodeEntry])).2.1.1

end Storage

end Ciphra
