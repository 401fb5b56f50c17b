import Ciphra.Net.Wire

/-!
# A remote store

`RemoteStorage` makes the calls of a store by sending requests to a server and decoding its
responses. Requests and responses travel in sealed frames of bounded size; a payload that does not
fit one ends the connection.

`remote_equals_local` compares the two: as long as every payload fits its frame, a sequence of calls
returns the same results in the same order as on a local store with the server's map, and leaves
the server with the local store. Where the disk fails, both report an error, the remote one with the
text the server has sent.
-/

namespace Ciphra

namespace Net

open OrdMap
open Storage (Io)

/-! ## The connection -/

/-- The payload of one sealed frame: the cipher adds a tag of 16 bytes. -/
def FitsFrame (payload : Bytes) : Prop := payload.length + 16 ≤ maxFrame

instance (payload : Bytes) : Decidable (FitsFrame payload) := inferInstanceAs (Decidable (_ ≤ _))

/-- The response of a connection to one request. -/
def respond (st : ServerState) (disk : Disk) (request : Bytes) : Bytes × ServerState :=
  match handleRequest st disk request with
  | (.ok body, st) => (statusOk :: body, st)
  | (.error message, st) => (statusErr :: utf8 message, st)

def protocolError (message : String) : StorageError := .corrupt ("protocol error: " ++ message)

/-- The width of the character that a byte starts, and the range of the second byte; width 0 for a
byte that starts none. -/
def utf8Lead (b : UInt8) : ℕ × UInt8 × UInt8 :=
  if b < 0x80 then (1, 0, 0)
  else if b < 0xC2 then (0, 0, 0)
  else if b < 0xE0 then (2, 0x80, 0xBF)
  else if b < 0xF0 then (3, if b = 0xE0 then 0xA0 else 0x80, if b = 0xED then 0x9F else 0xBF)
  else if b < 0xF5 then (4, if b = 0xF0 then 0x90 else 0x80, if b = 0xF4 then 0x8F else 0xBF)
  else (0, 0, 0)

/-- How many bytes from a first byte on belong to its character, up to the first that cannot. -/
def utf8Front (b : UInt8) (rest : Bytes) : ℕ :=
  let (width, lo, hi) := utf8Lead b
  match rest.take (width - 1) with
  | [] => 1
  | c :: more =>
    if lo ≤ c ∧ c ≤ hi then 2 + (more.takeWhile fun d => 0x80 ≤ d ∧ d ≤ 0xBF).length else 1

/-- Decode character by character, with one replacement character for every part that is not one. -/
def lossyLoop : ℕ → Bytes → String
  | 0, _ | _, [] => ""
  | fuel + 1, b :: rest =>
    let n := utf8Front b rest
    (fromUtf8 ((b :: rest).take n)).getD "\uFFFD" ++ lossyLoop fuel ((b :: rest).drop n)

/-- The text of an error response: what is valid UTF-8 is returned as it is. -/
def lossyText (body : Bytes) : String := (fromUtf8 body).getD (lossyLoop body.length body)

example : lossyText [0x61, 0xF0, 0x90, 0x80, 0x62, 0xFF, 0xE2, 0x82, 0xAC] = "a\uFFFDb\uFFFD€" := by
  decide +kernel

def serverError (message : String) : StorageError := .corrupt ("server error: " ++ message)

/-- Send a request and read the response. A payload too large for a frame is refused by the reader
and ends the connection. -/
def roundtrip (st : ServerState) (disk : Disk) (request : Bytes) :
    Except StorageError Bytes × ServerState :=
  if FitsFrame request then
    let (response, st) := respond st disk request
    if FitsFrame response then
      match response with
      | [] => (.error (protocolError "empty response"), st)
      | status :: body =>
        if status = statusOk then (.ok body, st)
        else (.error (serverError (lossyText body)), st)
    else (.error .io, st)
  else (.error .io, st)

/-! ## Calls -/

/-- A call of a store. -/
inductive Call
  | get (key : Bytes)
  | scanPrefix (start : Bytes)
  | dump
  | put (key value : Bytes)
  | delete (key : Bytes)
  | commit (batch : Batch)

/-- What a call returns. -/
inductive Answer
  | value (v : Option Bytes)
  | pairs (l : List Pair)
  | done
  deriving DecidableEq

namespace Call

/-- The request the client encodes for a call. -/
def request : Call → Bytes
  | .get key => opGet :: putBytes key
  | .scanPrefix start => opScan :: putBytes start
  | .dump => [opDump]
  | .put key value => opPut :: (putBytes key ++ putBytes value)
  | .delete key => opDelete :: putBytes key
  | .commit batch => opCommit :: (leBytes 4 batch.length ++ batch.flatMap fun op =>
      encodeWireEntry (wireEntry op))

/-- The value in the response to a `get`. -/
def decodeValue : Bytes → Except StorageError (Option Bytes)
  | [] => .error (protocolError "short GET response")
  | present :: rest =>
    if present = 0 then .ok none
    else
      match parseKey rest with
      | .error message => .error (protocolError message)
      | .ok value => .ok (some value)

/-- What the client makes of a response. -/
def decode : Call → Bytes → Except StorageError Answer
  | .get _, body => do
    let v ← decodeValue body
    pure (.value v)
  | .scanPrefix _, body | .dump, body =>
    match decodePairs body with
    | .error message => .error (protocolError message)
    | .ok pairs => .ok (.pairs pairs)
  | .put _ _, _ | .delete _, _ | .commit _, _ => .ok .done

end Call

/-- A call on the remote store. -/
def remoteCall (st : ServerState) (c : Call × Disk) : Except StorageError Answer × ServerState :=
  let (body, st) := roundtrip st c.2 c.1.request
  (body >>= c.1.decode, st)

/-- The same call on a local store. -/
def localCall (s : Storage) (c : Call × Disk) : Except StorageError Answer × Storage :=
  match c.1 with
  | .get key => (.ok (.value s.map[key]?), s)
  | .scanPrefix start => (.ok (.pairs (s.map.scanPrefix start)), s)
  | .dump => (.ok (.pairs s.map.toList), s)
  | .put key value => ((s.put key value c.2.io).1.map fun _ => .done, (s.put key value c.2.io).2)
  | .delete key => ((s.delete key c.2.io).1.map fun _ => .done, (s.delete key c.2.io).2)
  | .commit batch => ((s.commit batch c.2.io).1.map fun _ => .done, (s.commit batch c.2.io).2)

/-- A local result as the remote store returns it: the same value, or an error with the text of the
server. -/
def overWire (disk : Disk) : Except StorageError Answer → Except StorageError Answer
  | .ok a => .ok a
  | .error e => .error (serverError (display disk e))

/-- Request and response fit their frames. -/
def CallFits (st : ServerState) (c : Call × Disk) : Prop :=
  FitsFrame c.1.request ∧ FitsFrame (respond st c.2 c.1.request).1

/-! ## One call -/

theorem length_lt_of_fitsFrame {payload : Bytes} (h : FitsFrame payload) :
    payload.length < 2 ^ 32 := by
  have : maxFrame < 2 ^ 32 := by decide
  rw [FitsFrame] at h
  omega

/-- A response that fits its frame is delivered. -/
theorem remoteCall_eq {st : ServerState} {c : Call × Disk} (hfit : CallFits st c) :
    remoteCall st c =
      match handleRequest st c.2 c.1.request with
      | (.ok body, st) => (c.1.decode body, st)
      | (.error message, st) => (.error (serverError message), st) := by
  obtain ⟨hreq, hresp⟩ := hfit
  rw [remoteCall, roundtrip, if_pos hreq]
  rcases hh : handleRequest st c.2 c.1.request with ⟨message | body, st'⟩
  · have hr : respond st c.2 c.1.request = (statusErr :: utf8 message, st') := by rw [respond, hh]
    rw [hr] at hresp ⊢
    simp only [if_pos hresp]
    rw [if_neg (by decide)]
    simp [lossyText]
  · have hr : respond st c.2 c.1.request = (statusOk :: body, st') := by rw [respond, hh]
    rw [hr] at hresp ⊢
    simp only [if_pos hresp]
    rw [if_pos trivial]
    rfl

theorem scanPrefix_nil (m : ByteMap) : m.scanPrefix [] = m.toList := by
  rw [ByteMap.scanPrefix_eq_filter]
  simp

/-- The end of a mutation, seen from the client. -/
theorem remote_finish (st : ServerState) (disk : Disk) (w : Storage.Write) (entries : Bytes)
    (decode : Bytes → Except StorageError Answer) (hdecode : decode [] = .ok .done) :
    (match st.finish disk (st.storage.write w disk.io) entries with
      | (.ok body, st) => (decode body, st)
      | (.error message, st) => (.error (serverError message), st)).1 =
        overWire disk ((st.storage.write w disk.io).1.map fun _ => .done) ∧
    (match st.finish disk (st.storage.write w disk.io) entries with
      | (.ok body, st) => (decode body, st)
      | (.error message, st) => (.error (serverError message), st)).2.storage =
        (st.storage.write w disk.io).2 := by
  rcases st.storage.write w disk.io with ⟨e | ⟨⟩, s⟩
  · exact ⟨rfl, rfl⟩
  · exact ⟨hdecode, rfl⟩

section

variable {st : ServerState} {disk : Disk}

theorem handleRequest_get {key : Bytes} (hk : key.length < 2 ^ 32) :
    handleRequest st disk (Call.get key).request =
      (.ok (match st.storage.map[key]? with
        | none => [0]
        | some value => 1 :: putBytes value), st) := by
  simp only [handleRequest, Call.request, if_pos, parseKey_putBytes hk, ok_bind]
  cases st.storage.map[key]? <;> rfl

theorem handleRequest_scan {start : Bytes} (hk : start.length < 2 ^ 32) :
    handleRequest st disk (Call.scanPrefix start).request =
      (.ok (encodePairs (st.storage.map.scanPrefix start)), st) := by
  simp only [handleRequest, Call.request, parseKey_putBytes hk, ok_bind]
  rfl

theorem handleRequest_dump :
    handleRequest st disk Call.dump.request = (.ok (encodePairs st.storage.map.toList), st) := by
  rw [← scanPrefix_nil]
  rfl

variable (hro : st.readOnly = false)

include hro

theorem handleRequest_put {key value : Bytes} (hk : key.length < 2 ^ 32)
    (hv : value.length < 2 ^ 32) :
    handleRequest st disk (Call.put key value).request =
      st.finish disk (st.storage.write (.put key value) disk.io)
        (encodeBatch [.put key value]) := by
  simp [handleRequest, Call.request, opGet, opScan, opDump, opPut, parsePair_putBytes hk hv, hro,
    Storage.write]

theorem handleRequest_delete {key : Bytes} (hk : key.length < 2 ^ 32) :
    handleRequest st disk (Call.delete key).request =
      st.finish disk (st.storage.write (.delete key) disk.io) (encodeBatch [.delete key]) := by
  simp [handleRequest, Call.request, opGet, opScan, opDump, opPut, opDelete, parseKey_putBytes hk,
    hro, Storage.write]

theorem handleRequest_commit {batch : Batch} (hfit : EntriesFit (batch.map wireEntry)) :
    handleRequest st disk (Call.commit batch).request =
      st.finish disk (st.storage.write (.commit batch) disk.io) (encodeBatch batch) := by
  have hreq : (Call.commit batch).request = opCommit :: encodeBatch batch := by
    rw [Call.request, encodeBatch, encodeWireEntries, List.length_map, List.flatMap_map]
  simp [handleRequest, hreq, opGet, opScan, opDump, opPut, opDelete, opCommit,
    decodeBatch_encodeBatch hfit, hro, Storage.write]

end

/-- A commit request that fits its frame has fields that fit. -/
theorem entriesFit_of_length {batch : Batch} (h : (Call.commit batch).request.length < 2 ^ 32) :
    EntriesFit (batch.map wireEntry) := by
  have hlen : ∀ op, (encodeWireEntry (wireEntry op)).length =
      9 + (wireEntry op).2.1.length + (wireEntry op).2.2.length := by
    intro op
    rw [encodeWireEntry, List.length_cons, List.length_append, length_putBytes, length_putBytes]
    omega
  have hcount := length_le_length_flatMap (l := batch)
      (f := fun op => encodeWireEntry (wireEntry op)) fun op _ => by
    rw [hlen]
    omega
  rw [Call.request, List.length_cons, List.length_append, length_leBytes] at h
  refine ⟨by rw [List.length_map]; omega, fun e he => ?_⟩
  obtain ⟨op, hop, rfl⟩ := List.mem_map.mp he
  have hle := length_le_length_flatMap_of_mem hop fun op => encodeWireEntry (wireEntry op)
  rw [hlen] at hle
  omega

/-- **One remote call** returns what the local one returns, and leaves the local store. -/
theorem remoteCall_spec {st : ServerState} (hro : st.readOnly = false) {c : Call × Disk}
    (hfit : CallFits st c) :
    (remoteCall st c).1 = overWire c.2 (localCall st.storage c).1 ∧
      (remoteCall st c).2.storage = (localCall st.storage c).2 := by
  have hreq := length_lt_of_fitsFrame hfit.1
  have hresp := length_lt_of_fitsFrame hfit.2
  rw [remoteCall_eq hfit]
  obtain ⟨call, disk⟩ := c
  simp only at hreq hresp ⊢
  rw [respond] at hresp
  cases call with
  | get key =>
    have hk : key.length < 2 ^ 32 := by
      simp only [Call.request, List.length_cons, length_putBytes] at hreq
      omega
    rw [handleRequest_get hk] at hresp ⊢
    refine ⟨?_, rfl⟩
    cases hget : st.storage.map[key]? with
    | none => simp [Call.decode, Call.decodeValue, localCall, overWire, hget]
    | some value =>
      have hv : value.length < 2 ^ 32 := by
        simp only [hget, List.length_cons, length_putBytes] at hresp
        omega
      simp [Call.decode, Call.decodeValue, parseKey_putBytes hv, localCall, overWire, hget]
  | scanPrefix start =>
    have hk : start.length < 2 ^ 32 := by
      simp only [Call.request, List.length_cons, length_putBytes] at hreq
      omega
    rw [handleRequest_scan hk] at hresp ⊢
    have hpairs := decodePairs_encodePairs (pairsFit_of_length (Nat.lt_of_succ_lt hresp))
    refine ⟨?_, rfl⟩
    simp [Call.decode, hpairs, localCall, overWire]
  | dump =>
    rw [handleRequest_dump] at hresp ⊢
    have hpairs := decodePairs_encodePairs (pairsFit_of_length (Nat.lt_of_succ_lt hresp))
    refine ⟨?_, rfl⟩
    simp [Call.decode, hpairs, localCall, overWire]
  | put key value =>
    simp only [Call.request, List.length_cons, List.length_append, length_putBytes] at hreq
    rw [handleRequest_put hro (by omega) (by omega)]
    exact remote_finish st disk (.put key value) _ _ rfl
  | delete key =>
    simp only [Call.request, List.length_cons, length_putBytes] at hreq
    rw [handleRequest_delete hro (by omega)]
    exact remote_finish st disk (.delete key) _ _ rfl
  | commit batch =>
    rw [handleRequest_commit hro (entriesFit_of_length hreq)]
    exact remote_finish st disk (.commit batch) _ _ rfl

/-- A round trip leaves the server as handling the request does. -/
theorem roundtrip_snd {st : ServerState} {disk : Disk} {request : Bytes} :
    (roundtrip st disk request).2 = st ∨
      (roundtrip st disk request).2 = (handleRequest st disk request).2 := by
  have hr : (respond st disk request).2 = (handleRequest st disk request).2 := by
    rw [respond]
    split
    · rename_i h
      rw [h]
    · rename_i h
      rw [h]
  rw [← hr, roundtrip]
  rcases respond st disk request with ⟨response, st'⟩
  by_cases hreq : FitsFrame request
  · right
    rw [if_pos hreq]
    by_cases hresp : FitsFrame response
    · simp only [if_pos hresp]
      cases response with
      | nil => rfl
      | cons status body => by_cases hs : status = statusOk <;> simp [hs]
    · simp only [if_neg hresp]
  · left
    rw [if_neg hreq]

/-- A call does not change what kind of server it is made to. -/
theorem remoteCall_readOnly (st : ServerState) (c : Call × Disk) :
    (remoteCall st c).2.readOnly = st.readOnly := by
  have hh : (handleRequest st c.2 c.1.request).2.readOnly = st.readOnly := by
    have hspec := handleRequest_spec st c.2 c.1.request
    generalize (handleRequest st c.2 c.1.request).1 = r at hspec
    generalize (handleRequest st c.2 c.1.request).2 = st' at hspec
    cases hspec <;> rfl
  change (roundtrip st c.2 c.1.request).2.readOnly = st.readOnly
  rcases roundtrip_snd with h | h
  · rw [h]
  · rw [h, hh]

/-! ## A sequence of calls -/

/-- The results of a sequence of calls, in order, and the state they leave. -/
def results {σ : Type} (call : σ → Call × Disk → Except StorageError Answer × σ) :
    σ → List (Call × Disk) → List (Except StorageError Answer) × σ
  | s, [] => ([], s)
  | s, c :: calls =>
    let (r, s) := call s c
    let (rs, s) := results call s calls
    (r :: rs, s)

theorem results_remote {st : ServerState} (hro : st.readOnly = false) {calls : List (Call × Disk)}
    (hfit : Along (fun st c => (remoteCall st c).2) CallFits st calls) :
    (results remoteCall st calls).1 =
        (calls.zip (results localCall st.storage calls).1).map (fun p => overWire p.1.2 p.2) ∧
      (results remoteCall st calls).2.storage = (results localCall st.storage calls).2 := by
  induction calls generalizing st with
  | nil => exact ⟨rfl, rfl⟩
  | cons c calls ih =>
    obtain ⟨hc, hcalls⟩ := hfit
    obtain ⟨hresult, hstorage⟩ := remoteCall_spec hro hc
    obtain ⟨hrs, hs⟩ := ih (by rw [remoteCall_readOnly, hro]) hcalls
    rw [hstorage] at hrs hs
    refine ⟨?_, hs⟩
    change (remoteCall st c).1 :: (results remoteCall (remoteCall st c).2 calls).1 = _
    rw [hresult, hrs]
    rfl

/-- **Remote equals local.** Calls whose requests and responses fit their frames return the results
of the local store in the same order and leave the server with that store; a read-only server
refuses every mutation, and every server refuses a malformed request, leaving its state alone. -/
theorem remote_equals_local (st : ServerState) :
    (st.readOnly = false → ∀ calls,
      Along (fun st c => (remoteCall st c).2) CallFits st calls →
      (results remoteCall st calls).1 =
          (calls.zip (results localCall st.storage calls).1).map (fun p => overWire p.1.2 p.2) ∧
        (results remoteCall st calls).2.storage = (results localCall st.storage calls).2) ∧
    (st.readOnly = true → ∀ disk op body, op = opPut ∨ op = opDelete ∨ op = opCommit →
      ∃ message, handleRequest st disk (op :: body) = (.error message, st)) ∧
    (∀ disk request, Malformed request →
      ∃ message, handleRequest st disk request = (.error message, st)) := by
  refine ⟨?_, ?_, ?_⟩
  · intro hro calls hfit
    exact results_remote hro hfit
  · intro hro disk op body hop
    exact handleRequest_readOnly hro disk hop body
  · intro disk request hmal
    exact handleRequest_malformed st disk hmal

/-- A value is written and read back; a read-only server refuses the write, and an empty request is
malformed. -/
theorem remote_equals_local_put_get :
    (results remoteCall ⟨⟨∅, []⟩, false, 0, []⟩
        [(.put [1] [2], ⟨.ok, ""⟩), (.get [1], ⟨.ok, ""⟩)]).1 =
      [.ok .done, .ok (.value (some [2]))] ∧
    (∃ message, handleRequest ⟨⟨∅, []⟩, true, 0, []⟩ ⟨.ok, ""⟩
        (opPut :: (putBytes [1] ++ putBytes [2])) =
      (.error message, ⟨⟨∅, []⟩, true, 0, []⟩)) ∧
    ∃ message, handleRequest ⟨⟨∅, []⟩, true, 0, []⟩ ⟨.ok, ""⟩ [] =
      (.error message, ⟨⟨∅, []⟩, true, 0, []⟩) := by
  obtain ⟨hcalls, -, -⟩ := remote_equals_local ⟨⟨∅, []⟩, false, 0, []⟩
  obtain ⟨-, hro, hmal⟩ := remote_equals_local ⟨⟨∅, []⟩, true, 0, []⟩
  have hfit : Along (fun st c => (remoteCall st c).2) CallFits ⟨⟨∅, []⟩, false, 0, []⟩
      [(.put [1] [2], ⟨.ok, ""⟩), (.get [1], ⟨.ok, ""⟩)] := by
    exact ⟨⟨by decide, by decide⟩, ⟨by decide, by decide⟩, trivial⟩
  refine ⟨?_, hro rfl _ _ _ (.inl rfl), hmal _ _ ?_⟩
  · rw [(hcalls rfl _ hfit).1]
    decide
  · intro r _ h
    cases r <;> cases h

end Net

end Ciphra
