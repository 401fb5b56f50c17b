import Ciphra.Net.Channel

/-!
# The storage protocol

The server is an ordered key-value store for sealed bytes it cannot read, so its protocol is a
storage protocol: a request starts with an opcode, a response with a status. This module has the
encodings of both sides and the server's `handleRequest`.

Every variable-length field is preceded by its length in four bytes, reduced modulo `2 ^ 32`; the
round trips hold for fields shorter than that, and what the decoders return always is
(`takeBytes_eq_ok`, `decodeBatch_eq_ok`). A request that no client can have encoded is refused and
changes nothing (`handleRequest_malformed`).
-/

namespace Ciphra

namespace Net

open OrdMap
open Storage (Io)

def opGet : UInt8 := 1
def opScan : UInt8 := 2
def opCommit : UInt8 := 3
def opDump : UInt8 := 4
def opPut : UInt8 := 5
def opDelete : UInt8 := 6

/-- Kinds of replication records. -/
def recSnapshot : UInt8 := 0
def recBatch : UInt8 := 1

def statusOk : UInt8 := 0
def statusErr : UInt8 := 1

/-- An owned key-value pair as shipped over the wire. -/
abbrev Pair := Bytes × Bytes

/-! ## Encodings -/

def putBytes (bytes : Bytes) : Bytes := leBytes 4 bytes.length ++ bytes

def takeBytes (buf : Bytes) : Except String (Bytes × Bytes) :=
  if buf.length < 4 then .error "truncated length"
  else
    let len := leNat (buf.take 4)
    if buf.length < 4 + len then .error "truncated bytes"
    else .ok ((buf.drop 4).take len, buf.drop (4 + len))

def takeU32 (buf : Bytes) : Except String (ℕ × Bytes) :=
  if buf.length < 4 then .error "truncated u32" else .ok (leNat (buf.take 4), buf.drop 4)

def expectEmpty (rest : Bytes) : Except String Unit :=
  if rest = [] then .ok () else .error "trailing bytes in message"

def encodePair (p : Pair) : Bytes := putBytes p.1 ++ putBytes p.2

def encodePairs (pairs : List Pair) : Bytes :=
  leBytes 4 pairs.length ++ pairs.flatMap encodePair

/-- The pairs of a message, the given number of them. -/
def takePairs : ℕ → Bytes → Except String (List Pair × Bytes)
  | 0, rest => .ok ([], rest)
  | count + 1, rest => do
    let (key, after) ← takeBytes rest
    let (value, after) ← takeBytes after
    let (pairs, rest) ← takePairs count after
    pure ((key, value) :: pairs, rest)

def decodePairs (body : Bytes) : Except String (List Pair) := do
  let (count, rest) ← takeU32 body
  let (pairs, rest) ← takePairs count rest
  expectEmpty rest
  pure pairs

/-- An entry of a batch: whether it deletes, its key and its value. -/
abbrev WireEntry := Bool × Bytes × Bytes

def wireEntry : Op → WireEntry
  | .put key value => (false, key, value)
  | .delete key => (true, key, [])

def encodeWireEntry (e : WireEntry) : Bytes :=
  (if e.1 then 1 else 0) :: (putBytes e.2.1 ++ putBytes e.2.2)

def encodeWireEntries (entries : List WireEntry) : Bytes :=
  leBytes 4 entries.length ++ entries.flatMap encodeWireEntry

/-- Encode a batch with the framing that a commit request has. -/
def encodeBatch (batch : Batch) : Bytes := encodeWireEntries (batch.map wireEntry)

/-- The operation of an entry: the value of a delete is dropped. -/
def entryOp (code : UInt8) (key value : Bytes) : Except String Op :=
  if code = 0 then .ok (.put key value)
  else if code = 1 then .ok (.delete key)
  else .error "bad batch entry"

/-- The entries of a batch, the given number of them. -/
def takeEntries : ℕ → Bytes → Except String (Batch × Bytes)
  | 0, rest => .ok ([], rest)
  | _ + 1, [] => .error "truncated batch"
  | count + 1, code :: after => do
    let (key, after) ← takeBytes after
    let (value, after) ← takeBytes after
    let op ← entryOp code key value
    let (batch, rest) ← takeEntries count after
    pure (op :: batch, rest)

def decodeBatch (body : Bytes) : Except String Batch := do
  let (count, rest) ← takeU32 body
  let (batch, rest) ← takeEntries count rest
  expectEmpty rest
  pure batch

/-- A replication record: `kind | seq | body`. -/
def record (kind : UInt8) (seq : UInt64) (body : Bytes) : Bytes :=
  kind :: (leBytes 8 seq.toNat ++ body)

/-! ## The server -/

/-- The sending half of a follower's channel: what is queued in it, and whether the receiving half
still exists. -/
structure Subscriber where
  id : ℕ
  queue : List Bytes
  isOpen : Bool

/-- Send to a subscriber. -/
def Subscriber.send (sub : Subscriber) (msg : Bytes) : Subscriber :=
  { sub with queue := sub.queue ++ [msg] }

/-- Send to every subscriber, dropping any whose receiver has gone away. -/
def broadcast (subscribers : List Subscriber) (msg : Bytes) : List Subscriber :=
  (subscribers.filter Subscriber.isOpen).map fun sub => sub.send msg

structure ServerState where
  storage : Storage
  readOnly : Bool
  /-- Commit counter; mirrors the leader's on a follower. -/
  seq : UInt64
  subscribers : List Subscriber

/-- Bump the sequence and push a batch record to every follower. -/
def ServerState.replicate (st : ServerState) (entries : Bytes) : ServerState :=
  { st with
    seq := st.seq + 1
    subscribers := broadcast st.subscribers (record recBatch (st.seq + 1) entries) }

/-- How the disk answers one write: the outcome, and the text of its error if it fails. -/
structure Disk where
  io : Io
  text : String

/-- The text of a storage error. -/
def display (disk : Disk) : StorageError → String
  | .io => "storage io error: " ++ disk.text
  | .corrupt message => "storage corruption: " ++ message

def readOnlyError : String := "server is a read-only replica"

/-- A key that makes up the whole body. -/
def parseKey (body : Bytes) : Except String Bytes := do
  let (key, rest) ← takeBytes body
  expectEmpty rest
  pure key

/-- A key and a value that make up the whole body. -/
def parsePair (body : Bytes) : Except String (Bytes × Bytes) := do
  let (key, rest) ← takeBytes body
  let (value, rest) ← takeBytes rest
  expectEmpty rest
  pure (key, value)

/-- The end of every mutation: report a failed write, or broadcast what was written. -/
def ServerState.finish (st : ServerState) (disk : Disk)
    (r : Except StorageError Unit × Storage) (entries : Bytes) :
    Except String Bytes × ServerState :=
  match r with
  | (.error e, storage) => (.error (display disk e), { st with storage })
  | (.ok (), storage) => (.ok [], { st with storage }.replicate entries)

def handleRequest (st : ServerState) (disk : Disk) (request : Bytes) :
    Except String Bytes × ServerState :=
  match request with
  | [] => (.error "empty request", st)
  | op :: body =>
    if op = opGet then
      (do
        let key ← parseKey body
        match st.storage.map[key]? with
        | none => pure [0]
        | some value => pure (1 :: putBytes value), st)
    else if op = opScan then
      (do
        let p ← parseKey body
        pure (encodePairs (st.storage.map.scanPrefix p)), st)
    else if op = opDump then
      (do
        expectEmpty body
        pure (encodePairs (st.storage.map.scanPrefix [])), st)
    else if op = opPut then
      match parsePair body with
      | .error message => (.error message, st)
      | .ok (key, value) =>
        if st.readOnly then (.error readOnlyError, st)
        else st.finish disk (st.storage.put key value disk.io) (encodeBatch [.put key value])
    else if op = opDelete then
      match parseKey body with
      | .error message => (.error message, st)
      | .ok key =>
        if st.readOnly then (.error readOnlyError, st)
        else st.finish disk (st.storage.delete key disk.io) (encodeBatch [.delete key])
    else if op = opCommit then
      if st.readOnly then (.error readOnlyError, st)
      else
        match decodeBatch body with
        | .error message => (.error message, st)
        | .ok batch => st.finish disk (st.storage.commit batch disk.io) (encodeBatch batch)
    else (.error ("unknown opcode " ++ toString op.toNat), st)

/-! ## Fields -/

theorem length_putBytes (b : Bytes) : (putBytes b).length = 4 + b.length := by simp [putBytes]

theorem takeBytes_putBytes {b : Bytes} (h : b.length < 2 ^ 32) (rest : Bytes) :
    takeBytes (putBytes b ++ rest) = .ok (b, rest) := by
  have hlen : leNat ((putBytes b ++ rest).take 4) = b.length := by
    rw [putBytes, List.append_assoc, leNat_take_leBytes]
    exact Nat.mod_eq_of_lt h
  have hbuf : (putBytes b ++ rest).length = 4 + b.length + rest.length := by
    simp [putBytes, Nat.add_assoc]
  rw [takeBytes, if_neg (by omega), hlen, if_neg (by omega)]
  rw [← List.drop_drop, putBytes, List.append_assoc, drop_leBytes, List.take_left, List.drop_left]

/-- What is taken off a buffer was put there, and its length fits the field. -/
theorem takeBytes_eq_ok {buf b rest : Bytes} (h : takeBytes buf = .ok (b, rest)) :
    buf = putBytes b ++ rest ∧ b.length < 2 ^ 32 := by
  rw [takeBytes] at h
  split at h
  · cases h
  rename_i h4
  simp only at h
  split at h
  · cases h
  rename_i hlen
  cases h
  have h4' : (buf.take 4).length = 4 := List.length_take_of_le (by omega)
  have hb : ((buf.drop 4).take (leNat (buf.take 4))).length = leNat (buf.take 4) := by
    rw [List.length_take, List.length_drop]
    omega
  have hlt := leNat_lt (buf.take 4)
  have hbytes := leBytes_leNat (buf.take 4)
  rw [h4'] at hlt hbytes
  refine ⟨?_, by rw [hb]; exact hlt⟩
  rw [putBytes, hb, hbytes, ← List.drop_drop, List.append_assoc, List.take_append_drop,
    List.take_append_drop]

theorem takeU32_leBytes {n : ℕ} (h : n < 2 ^ 32) (rest : Bytes) :
    takeU32 (leBytes 4 n ++ rest) = .ok (n, rest) := by
  rw [takeU32, if_neg (by simp), leNat_take_leBytes, drop_leBytes,
    Nat.mod_eq_of_lt (show n < 256 ^ 4 from h)]

theorem takeU32_eq_ok {buf rest : Bytes} {n : ℕ} (h : takeU32 buf = .ok (n, rest)) :
    buf = leBytes 4 n ++ rest ∧ n < 2 ^ 32 := by
  rw [takeU32] at h
  split at h
  · cases h
  rename_i h4
  cases h
  have h4' : (buf.take 4).length = 4 := List.length_take_of_le (by omega)
  have hlt := leNat_lt (buf.take 4)
  have hbytes := leBytes_leNat (buf.take 4)
  rw [h4'] at hlt hbytes
  exact ⟨by rw [hbytes, List.take_append_drop], hlt⟩

theorem expectEmpty_eq_ok {rest : Bytes} {u : Unit} (h : expectEmpty rest = .ok u) : rest = [] := by
  rw [expectEmpty] at h
  split at h
  · assumption
  · cases h

/-! ## Pairs -/

/-- Every field of the message fits its length field. -/
structure PairsFit (pairs : List Pair) : Prop where
  count : pairs.length < 2 ^ 32
  fields : ∀ p ∈ pairs, p.1.length < 2 ^ 32 ∧ p.2.length < 2 ^ 32

theorem takePairs_flatMap {pairs : List Pair}
    (h : ∀ p ∈ pairs, p.1.length < 2 ^ 32 ∧ p.2.length < 2 ^ 32) (rest : Bytes) :
    takePairs pairs.length (pairs.flatMap encodePair ++ rest) = .ok (pairs, rest) := by
  induction pairs with
  | nil => rfl
  | cons p pairs ih =>
    obtain ⟨hk, hv⟩ := h p List.mem_cons_self
    rw [List.flatMap_cons, List.append_assoc, encodePair, List.append_assoc, List.length_cons,
      takePairs, takeBytes_putBytes hk]
    simp only [ok_bind, takeBytes_putBytes hv,
      ih fun q hq => h q (List.mem_cons_of_mem _ hq)]
    rfl

theorem decodePairs_encodePairs {pairs : List Pair} (h : PairsFit pairs) :
    decodePairs (encodePairs pairs) = .ok pairs := by
  have hpairs := takePairs_flatMap h.fields []
  rw [List.append_nil] at hpairs
  rw [decodePairs, encodePairs, takeU32_leBytes h.count]
  simp only [ok_bind, hpairs]
  rfl

/-- A message that is short enough has fields that fit. -/
theorem pairsFit_of_length {pairs : List Pair} (h : (encodePairs pairs).length < 2 ^ 32) :
    PairsFit pairs := by
  have hlen : ∀ p, (encodePair p).length = 8 + p.1.length + p.2.length := by
    intro p
    rw [encodePair, List.length_append, length_putBytes, length_putBytes]
    omega
  have hcount := length_le_length_flatMap (l := pairs) (f := encodePair) fun p _ => by
    rw [hlen]
    omega
  rw [encodePairs, List.length_append, length_leBytes] at h
  refine ⟨by omega, fun p hp => ?_⟩
  have hle := length_le_length_flatMap_of_mem hp encodePair
  rw [hlen] at hle
  omega

/-! ## Batches -/

/-- Every field of the batch fits its length field. -/
structure EntriesFit (entries : List WireEntry) : Prop where
  count : entries.length < 2 ^ 32
  fields : ∀ e ∈ entries, e.2.1.length < 2 ^ 32 ∧ e.2.2.length < 2 ^ 32

theorem entriesFit_singleton {e : WireEntry} (hk : e.2.1.length < 2 ^ 32)
    (hv : e.2.2.length < 2 ^ 32) : EntriesFit [e] := by
  refine ⟨by simp, fun e' he => ?_⟩
  obtain rfl := List.mem_singleton.mp he
  exact ⟨hk, hv⟩

/-- The operation an entry stands for. -/
def WireEntry.op (e : WireEntry) : Op := if e.1 then .delete e.2.1 else .put e.2.1 e.2.2

@[simp] theorem op_wireEntry (op : Op) : (wireEntry op).op = op := by cases op <;> rfl

theorem takeEntries_flatMap {entries : List WireEntry}
    (h : ∀ e ∈ entries, e.2.1.length < 2 ^ 32 ∧ e.2.2.length < 2 ^ 32) (rest : Bytes) :
    takeEntries entries.length (entries.flatMap encodeWireEntry ++ rest) =
      .ok (entries.map WireEntry.op, rest) := by
  induction entries with
  | nil => rfl
  | cons e entries ih =>
    obtain ⟨del, key, value⟩ := e
    obtain ⟨hk, hv⟩ := h _ List.mem_cons_self
    have hop : entryOp (if del then 1 else 0) key value = .ok (WireEntry.op (del, key, value)) := by
      cases del <;> rfl
    rw [List.flatMap_cons, List.append_assoc, encodeWireEntry, List.cons_append, List.append_assoc,
      List.length_cons, takeEntries, takeBytes_putBytes hk]
    simp only [ok_bind, takeBytes_putBytes hv, hop,
      ih fun q hq => h q (List.mem_cons_of_mem _ hq)]
    rfl

theorem decodeBatch_encodeWireEntries {entries : List WireEntry} (h : EntriesFit entries) :
    decodeBatch (encodeWireEntries entries) = .ok (entries.map WireEntry.op) := by
  have hentries := takeEntries_flatMap h.fields []
  rw [List.append_nil] at hentries
  rw [decodeBatch, encodeWireEntries, takeU32_leBytes h.count]
  simp only [ok_bind, hentries]
  rfl

/-- Batches are read back as they were written. -/
theorem decodeBatch_encodeBatch {batch : Batch} (h : EntriesFit (batch.map wireEntry)) :
    decodeBatch (encodeBatch batch) = .ok batch := by
  rw [encodeBatch, decodeBatch_encodeWireEntries h, List.map_map]
  simp [Function.comp_def]

theorem takeEntries_eq_ok {n : ℕ} {buf : Bytes} {batch : Batch} {rest : Bytes}
    (h : takeEntries n buf = .ok (batch, rest)) :
    ∃ entries : List WireEntry, entries.length = n ∧ batch = entries.map WireEntry.op ∧
      buf = entries.flatMap encodeWireEntry ++ rest ∧
      ∀ e ∈ entries, e.2.1.length < 2 ^ 32 ∧ e.2.2.length < 2 ^ 32 := by
  induction n generalizing buf batch with
  | zero =>
    cases h
    exact ⟨[], rfl, rfl, rfl, by simp⟩
  | succ n ih =>
    cases buf with
    | nil => cases h
    | cons code buf =>
      rw [takeEntries] at h
      obtain ⟨⟨key, after⟩, hkey, h⟩ := bind_eq_ok.mp h
      obtain ⟨⟨value, after'⟩, hvalue, h⟩ := bind_eq_ok.mp h
      obtain ⟨op, hop, h⟩ := bind_eq_ok.mp h
      obtain ⟨⟨more, rest'⟩, hmore, h⟩ := bind_eq_ok.mp h
      cases h
      obtain ⟨rfl, hk⟩ := takeBytes_eq_ok hkey
      obtain ⟨rfl, hv⟩ := takeBytes_eq_ok hvalue
      obtain ⟨entries, rfl, rfl, rfl, hfields⟩ := ih hmore
      obtain ⟨del, hdel, rfl⟩ : ∃ del : Bool, code = (if del then 1 else 0) ∧
          op = WireEntry.op (del, key, value) := by
        rw [entryOp] at hop
        split at hop
        · rename_i hc
          cases hop
          exact ⟨false, hc, rfl⟩
        · split at hop
          · rename_i hc
            cases hop
            exact ⟨true, hc, rfl⟩
          · cases hop
      refine ⟨(del, key, value) :: entries, rfl, rfl, ?_, ?_⟩
      · rw [List.flatMap_cons, encodeWireEntry, hdel]
        simp
      · rintro e he
        rcases List.mem_cons.mp he with rfl | he
        · exact ⟨hk, hv⟩
        · exact hfields e he

/-- What the server reads as a batch was encoded as one. -/
theorem decodeBatch_eq_ok {body : Bytes} {batch : Batch} (h : decodeBatch body = .ok batch) :
    ∃ entries : List WireEntry, EntriesFit entries ∧ body = encodeWireEntries entries ∧
      batch = entries.map WireEntry.op := by
  rw [decodeBatch] at h
  obtain ⟨⟨count, rest⟩, hcount, h⟩ := bind_eq_ok.mp h
  obtain ⟨⟨batch', rest'⟩, hentries, h⟩ := bind_eq_ok.mp h
  obtain ⟨u, hempty, h⟩ := bind_eq_ok.mp h
  cases h
  obtain ⟨rfl, hlt⟩ := takeU32_eq_ok hcount
  obtain ⟨entries, rfl, rfl, rfl, hfields⟩ := takeEntries_eq_ok hentries
  have hnil : rest' = [] := expectEmpty_eq_ok hempty
  subst hnil
  exact ⟨entries, ⟨hlt, hfields⟩, by rw [List.append_nil]; rfl, rfl⟩

/-- A decoded batch can be encoded again: its fields fit. -/
theorem entriesFit_of_decodeBatch {body : Bytes} {batch : Batch}
    (h : decodeBatch body = .ok batch) : EntriesFit (batch.map wireEntry) := by
  obtain ⟨entries, hfit, -, rfl⟩ := decodeBatch_eq_ok h
  refine ⟨by simpa using hfit.count, fun e he => ?_⟩
  simp only [List.mem_map] at he
  obtain ⟨op, ⟨e', he', rfl⟩, rfl⟩ := he
  obtain ⟨hk, hv⟩ := hfit.fields e' he'
  obtain ⟨del, key, value⟩ := e'
  cases del
  · exact ⟨hk, hv⟩
  · exact ⟨hk, by simp [WireEntry.op, wireEntry]⟩

/-! ## Requests -/

/-- What a client can ask for. The value field of a delete inside a commit is ignored. -/
inductive Request
  | get (key : Bytes)
  | scan (start : Bytes)
  | dump
  | put (key value : Bytes)
  | delete (key : Bytes)
  | commit (entries : List WireEntry)

namespace Request

def encode : Request → Bytes
  | .get key => opGet :: putBytes key
  | .scan start => opScan :: putBytes start
  | .dump => [opDump]
  | .put key value => opPut :: (putBytes key ++ putBytes value)
  | .delete key => opDelete :: putBytes key
  | .commit entries => opCommit :: encodeWireEntries entries

/-- Every field fits its length field. -/
def Fits : Request → Prop
  | .get key => key.length < 2 ^ 32
  | .scan start => start.length < 2 ^ 32
  | .dump => True
  | .put key value => key.length < 2 ^ 32 ∧ value.length < 2 ^ 32
  | .delete key => key.length < 2 ^ 32
  | .commit entries => EntriesFit entries

end Request

/-- No client can have encoded the request. -/
def Malformed (request : Bytes) : Prop := ∀ r : Request, r.Fits → request ≠ r.encode

theorem parseKey_putBytes {key : Bytes} (h : key.length < 2 ^ 32) :
    parseKey (putBytes key) = .ok key := by
  have htake := takeBytes_putBytes h []
  rw [List.append_nil] at htake
  rw [parseKey, htake]
  rfl

theorem parseKey_eq_ok {body key : Bytes} (h : parseKey body = .ok key) :
    body = putBytes key ∧ key.length < 2 ^ 32 := by
  rw [parseKey] at h
  obtain ⟨⟨key', rest⟩, hkey, h⟩ := bind_eq_ok.mp h
  obtain ⟨u, hempty, h⟩ := bind_eq_ok.mp h
  cases h
  have hnil : rest = [] := expectEmpty_eq_ok hempty
  subst hnil
  simpa using takeBytes_eq_ok hkey

theorem parsePair_putBytes {key value : Bytes} (hk : key.length < 2 ^ 32)
    (hv : value.length < 2 ^ 32) :
    parsePair (putBytes key ++ putBytes value) = .ok (key, value) := by
  have htake := takeBytes_putBytes hv []
  rw [List.append_nil] at htake
  rw [parsePair, takeBytes_putBytes hk]
  simp only [ok_bind, htake]
  rfl

theorem parsePair_eq_ok {body key value : Bytes} (h : parsePair body = .ok (key, value)) :
    body = putBytes key ++ putBytes value ∧ key.length < 2 ^ 32 ∧ value.length < 2 ^ 32 := by
  rw [parsePair] at h
  obtain ⟨⟨key', rest⟩, hkey, h⟩ := bind_eq_ok.mp h
  obtain ⟨⟨value', rest'⟩, hvalue, h⟩ := bind_eq_ok.mp h
  obtain ⟨u, hempty, h⟩ := bind_eq_ok.mp h
  cases h
  have hnil : rest' = [] := expectEmpty_eq_ok hempty
  subst hnil
  obtain ⟨rfl, hk⟩ := takeBytes_eq_ok hkey
  obtain ⟨rfl, hv⟩ := takeBytes_eq_ok hvalue
  exact ⟨by rw [List.append_nil], hk, hv⟩

/-! ## What a request does -/

/-- What handling a request can do to the server. -/
inductive Handled (st : ServerState) (disk : Disk) : Except String Bytes → ServerState → Prop
  /-- Nothing: a read, or a request that is refused. -/
  | answered (r : Except String Bytes) : Handled st disk r st
  /-- One write to the log, and its batch to every follower. -/
  | written (w : Storage.Write) (hro : st.readOnly = false)
      (hfit : EntriesFit (w.batch.map wireEntry))
      (hw : (st.storage.write w disk.io).1 = .ok ()) :
      Handled st disk (.ok []) ({ st with storage := (st.storage.write w disk.io).2 }.replicate
        (encodeBatch w.batch))
  /-- A write that fails. -/
  | failed (w : Storage.Write) (hro : st.readOnly = false) (e : StorageError)
      (hw : (st.storage.write w disk.io).1 = .error e) :
      Handled st disk (.error (display disk e))
        { st with storage := (st.storage.write w disk.io).2 }

theorem handled_finish {st : ServerState} {disk : Disk} (hro : st.readOnly = false)
    (w : Storage.Write) (hfit : EntriesFit (w.batch.map wireEntry)) :
    Handled st disk (st.finish disk (st.storage.write w disk.io) (encodeBatch w.batch)).1
      (st.finish disk (st.storage.write w disk.io) (encodeBatch w.batch)).2 := by
  rcases hw : st.storage.write w disk.io with ⟨⟨e⟩ | ⟨⟩, s⟩
  · have := Handled.failed w hro e (by rw [hw])
    simpa only [hw, ServerState.finish] using this
  · have := Handled.written w hro hfit (by rw [hw])
    simpa only [hw, ServerState.finish] using this

/-- **What a request does.** -/
theorem handleRequest_spec (st : ServerState) (disk : Disk) (request : Bytes) :
    Handled st disk (handleRequest st disk request).1 (handleRequest st disk request).2 := by
  have hfree : ¬ st.readOnly = true → st.readOnly = false := Bool.eq_false_iff.mpr
  unfold handleRequest
  split
  · exact .answered _
  rename_i op body
  split
  · exact .answered _
  split
  · exact .answered _
  split
  · exact .answered _
  split
  · split
    · exact .answered _
    · rename_i key value hparse
      split
      · exact .answered _
      · rename_i hro
        obtain ⟨-, hk, hv⟩ := parsePair_eq_ok hparse
        exact handled_finish (hfree hro) (.put key value)
          (entriesFit_singleton hk hv)
  split
  · split
    · exact .answered _
    · rename_i key hparse
      split
      · exact .answered _
      · rename_i hro
        obtain ⟨-, hk⟩ := parseKey_eq_ok hparse
        exact handled_finish (hfree hro) (.delete key)
          (entriesFit_singleton hk (by simp [wireEntry]))
  split
  · split
    · exact .answered _
    · rename_i hro
      split
      · exact .answered _
      · rename_i batch hparse
        exact handled_finish (hfree hro) (.commit batch) (entriesFit_of_decodeBatch hparse)
  · exact .answered _

/-- A read-only server refuses every mutation. -/
theorem handleRequest_readOnly {st : ServerState} (hro : st.readOnly = true) (disk : Disk)
    {op : UInt8} (hop : op = opPut ∨ op = opDelete ∨ op = opCommit) (body : Bytes) :
    ∃ message, handleRequest st disk (op :: body) = (.error message, st) := by
  rcases hop with rfl | rfl | rfl
  · cases hparse : parsePair body with
    | error message => exact ⟨message, by simp [handleRequest, opGet, opScan, opDump, opPut, hparse]⟩
    | ok p =>
      exact ⟨readOnlyError, by simp [handleRequest, opGet, opScan, opDump, opPut, hparse, hro]⟩
  · cases hparse : parseKey body with
    | error message =>
      exact ⟨message, by simp [handleRequest, opGet, opScan, opDump, opPut, opDelete, hparse]⟩
    | ok key =>
      exact ⟨readOnlyError, by simp [handleRequest, opGet, opScan, opDump, opPut, opDelete, hparse,
        hro]⟩
  · exact ⟨readOnlyError, by simp [handleRequest, opGet, opScan, opDump, opPut, opDelete, opCommit,
      hro]⟩

/-- A request that no client can have encoded is refused and changes nothing. -/
theorem handleRequest_malformed (st : ServerState) (disk : Disk) {request : Bytes}
    (h : Malformed request) :
    ∃ message, handleRequest st disk request = (.error message, st) := by
  unfold handleRequest
  split
  · exact ⟨_, rfl⟩
  rename_i op body
  split
  · rename_i hop
    cases hparse : parseKey body with
    | error message => exact ⟨message, rfl⟩
    | ok key =>
      obtain ⟨rfl, hk⟩ := parseKey_eq_ok hparse
      exact absurd (by rw [hop]; rfl) (h (.get key) hk)
  split
  · rename_i hop
    cases hparse : parseKey body with
    | error message => exact ⟨message, rfl⟩
    | ok key =>
      obtain ⟨rfl, hk⟩ := parseKey_eq_ok hparse
      exact absurd (by rw [hop]; rfl) (h (.scan key) hk)
  split
  · rename_i hop
    cases hparse : expectEmpty body with
    | error message => exact ⟨message, rfl⟩
    | ok u =>
      obtain rfl := expectEmpty_eq_ok hparse
      exact absurd (by rw [hop]; rfl) (h .dump trivial)
  split
  · rename_i hop
    split
    · exact ⟨_, rfl⟩
    · rename_i key value hparse
      obtain ⟨rfl, hk, hv⟩ := parsePair_eq_ok hparse
      exact absurd (by rw [hop]; rfl) (h (.put key value) ⟨hk, hv⟩)
  split
  · rename_i hop
    split
    · exact ⟨_, rfl⟩
    · rename_i key hparse
      obtain ⟨rfl, hk⟩ := parseKey_eq_ok hparse
      exact absurd (by rw [hop]; rfl) (h (.delete key) hk)
  split
  · rename_i hop
    split
    · exact ⟨_, rfl⟩
    · split
      · exact ⟨_, rfl⟩
      · rename_i batch hparse
        obtain ⟨entries, hfit, rfl, -⟩ := decodeBatch_eq_ok hparse
        exact absurd (by rw [hop]; rfl) (h (.commit entries) hfit)
  · exact ⟨_, rfl⟩

end Net

end Ciphra
