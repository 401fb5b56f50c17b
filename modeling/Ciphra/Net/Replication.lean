import Ciphra.Net.Remote

/-!
# Replication

A follower connects to the node it follows, its upstream, and sends a subscription. The upstream
takes a snapshot and registers the follower's channel under one lock, sends the snapshot, and from
then on every record it broadcasts. The follower applies the records in order: a snapshot replaces
its map, a batch is committed to it and passed on to its own followers.

This module has the network, a step function over every interleaving of client requests,
subscriptions, sends, deliveries and broken connections, and what applying a record does
(`applyRecord_spec`, `applyRecord_snapshot`, `applyRecord_batch`).
-/

namespace Ciphra

namespace Net

open OrdMap
open Storage (Io)

/-! ## Applying a record -/

/-- The batch that replaces the map by the pairs of a snapshot: a delete for every key the snapshot
does not have, then every pair. -/
def snapshotBatch (m : ByteMap) (pairs : List Pair) : Batch :=
  ((m.scanPrefix []).filter fun e => ¬ pairs.any fun p => p.1 = e.1).map (fun e => .delete e.1) ++
    pairs.map fun p => .put p.1 p.2

/-- Apply one replication record. A batch is passed on to this node's own followers with the
leader's sequence number. -/
def applyRecord (st : ServerState) (disk : Disk) (msg : Bytes) :
    Except String Unit × ServerState :=
  match msg with
  | [] => (.error "empty replication record", st)
  | kind :: rest =>
    if rest.length < 8 then (.error "truncated replication record", st)
    else
      let seq := UInt64.ofNat (leNat (rest.take 8))
      let body := rest.drop 8
      if kind = recSnapshot then
        match decodePairs body with
        | .error message => (.error ("storage corruption: protocol error: " ++ message), st)
        | .ok pairs =>
          match st.storage.commit (snapshotBatch st.storage.map pairs) disk.io with
          | (.error e, storage) => (.error (display disk e), { st with storage })
          | (.ok (), storage) => (.ok (), { st with storage, seq })
      else if kind = recBatch then
        match decodeBatch body with
        | .error message => (.error message, st)
        | .ok batch =>
          match st.storage.commit batch disk.io with
          | (.error e, storage) => (.error (display disk e), { st with storage })
          | (.ok (), storage) =>
            (.ok (), { st with
              storage
              seq
              subscribers := broadcast st.subscribers (record recBatch seq body) })
      else (.error ("unknown replication record kind " ++ toString kind.toNat), st)

/-! ## The network -/

/-- A connection of a follower: its channel at the upstream, the records sent on the connection and
not yet received, and those already applied. -/
structure Link where
  sub : ℕ
  wire : List Bytes
  received : List Bytes

/-- The nodes, the connection of each follower, a supply of channels and the channels whose follower
has gone away. -/
structure Network (ι : Type) where
  node : ι → ServerState
  link : ι → Option Link
  nextSub : ℕ
  gone : List ℕ

/-- What happens in the network. -/
inductive Action (ι : Type)
  /-- A client sends a request to a node. -/
  | request (i : ι) (bytes : Bytes)
  /-- A follower connects and subscribes. -/
  | subscribe (i : ι)
  /-- The upstream of a follower sends the next record of its channel. -/
  | push (i : ι)
  /-- A follower receives a record and applies it. -/
  | deliver (i : ι)
  /-- The connection of a follower breaks. -/
  | disconnect (i : ι)
  /-- A node notices that the follower of a channel has gone away. -/
  | close (u : ι) (sub : ℕ)

/-- The disk of a server that has no I/O errors. -/
def soundDisk : Disk := ⟨.ok, ""⟩

/-- What is queued in a channel whose receiver still exists. -/
def queueOf (subs : List Subscriber) (id : ℕ) : Option (List Bytes) :=
  (subs.find? fun sub => sub.id = id ∧ sub.isOpen).map Subscriber.queue

/-- Take the first record off a channel. -/
def popQueue (subs : List Subscriber) (id : ℕ) : List Subscriber :=
  subs.map fun sub => if sub.id = id then { sub with queue := sub.queue.tail } else sub

/-- Drop the receiving half of a channel. -/
def closeQueue (subs : List Subscriber) (id : ℕ) : List Subscriber :=
  subs.map fun sub => if sub.id = id then { sub with isOpen := false } else sub

/-- The snapshot record of a node. -/
def snapshotRecord (st : ServerState) : Bytes :=
  record recSnapshot st.seq (encodePairs (st.storage.map.scanPrefix []))

namespace Network

variable {ι : Type} [DecidableEq ι]

/-- Replace one node. -/
def setNode (net : Network ι) (i : ι) (st : ServerState) : Network ι :=
  { net with node := Function.update net.node i st }

/-- Replace one connection. -/
def setLink (net : Network ι) (i : ι) (l : Option Link) : Network ι :=
  { net with link := Function.update net.link i l }

/-- Break the connection of a follower. -/
def drop (net : Network ι) (i : ι) (l : Link) : Network ι :=
  { net.setLink i none with gone := l.sub :: net.gone }

/-- One step of the network. `upstream` says which node each follower follows. -/
def step (upstream : ι → Option ι) (net : Network ι) : Action ι → Network ι
  | .request i bytes => net.setNode i (handleRequest (net.node i) soundDisk bytes).2
  | .subscribe i =>
    match upstream i, net.link i with
    | some u, none =>
      let st := net.node u
      let net := net.setNode u
        { st with subscribers := st.subscribers ++ [⟨net.nextSub, [], true⟩] }
      { net.setLink i (some ⟨net.nextSub, [snapshotRecord st], []⟩) with
        nextSub := net.nextSub + 1 }
    | _, _ => net
  | .push i =>
    match upstream i, net.link i with
    | some u, some l =>
      match queueOf (net.node u).subscribers l.sub with
      | some (msg :: _) =>
        let st := net.node u
        (net.setNode u { st with subscribers := popQueue st.subscribers l.sub }).setLink i
          (some { l with wire := l.wire ++ [msg] })
      | _ => net
    | _, _ => net
  | .deliver i =>
    match net.link i with
    | some ⟨sub, msg :: wire, received⟩ =>
      -- a record too large for a frame, or one that cannot be applied, ends the connection
      if FitsFrame msg then
        match applyRecord (net.node i) soundDisk msg with
        | (.ok (), st) => (net.setNode i st).setLink i (some ⟨sub, wire, received ++ [msg]⟩)
        | (.error _, st) => (net.setNode i st).drop i ⟨sub, msg :: wire, received⟩
      else net.drop i ⟨sub, msg :: wire, received⟩
    | _ => net
  | .disconnect i =>
    match net.link i with
    | some l => net.drop i l
    | none => net
  | .close u sub =>
    if sub ∈ net.gone then
      let st := net.node u
      net.setNode u { st with subscribers := closeQueue st.subscribers sub }
    else net

/-- The records on their way to a follower. -/
def inFlight (upstream : ι → Option ι) (net : Network ι) (i : ι) : List Bytes :=
  match upstream i, net.link i with
  | some u, some l => l.wire ++ (queueOf (net.node u).subscribers l.sub).getD []
  | _, _ => []

/-- A network before anything has happened: the nodes that follow none take writes, the others are
read-only, with any contents. -/
structure Start (upstream : ι → Option ι) (net : Network ι) : Prop where
  readOnly : ∀ i, (net.node i).readOnly = (upstream i).isSome
  seq : ∀ i, (net.node i).seq = 0
  subscribers : ∀ i, (net.node i).subscribers = []
  link : ∀ i, net.link i = none
  gone : net.gone = []

/-- The network after the actions. -/
def run (upstream : ι → Option ι) (net : Network ι) (actions : List (Action ι)) : Network ι :=
  actions.foldl (step upstream) net

end Network

/-! ## Channels -/

section Channels

variable {subs : List Subscriber} {id : ℕ}

theorem queueOf_cons (sub : Subscriber) (subs : List Subscriber) (id : ℕ) :
    queueOf (sub :: subs) id =
      if sub.id = id ∧ sub.isOpen then some sub.queue else queueOf subs id := by
  by_cases h : sub.id = id ∧ sub.isOpen <;> simp [queueOf, h]

/-- A broadcast reaches every channel that is still open. -/
theorem queueOf_broadcast (subs : List Subscriber) (id : ℕ) (msg : Bytes) :
    queueOf (broadcast subs msg) id = (queueOf subs id).map (· ++ [msg]) := by
  induction subs with
  | nil => rfl
  | cons sub subs ih =>
    rw [broadcast] at ih
    by_cases hopen : sub.isOpen = true
    · rw [broadcast, List.filter_cons_of_pos hopen, List.map_cons, queueOf_cons, queueOf_cons, ih]
      by_cases hid : sub.id = id <;> simp [Subscriber.send, hid, hopen]
    · rw [broadcast, List.filter_cons_of_neg hopen, ih, queueOf_cons]
      simp [hopen]

theorem queueOf_append_of_ne {sub : Subscriber} (h : sub.id ≠ id) :
    queueOf (subs ++ [sub]) id = queueOf subs id := by
  induction subs with
  | nil => simp [queueOf, h]
  | cons s subs ih => rw [List.cons_append, queueOf_cons, queueOf_cons, ih]

/-- A channel with a new name starts empty. -/
theorem queueOf_append_self (h : ∀ sub ∈ subs, sub.id ≠ id) :
    queueOf (subs ++ [⟨id, [], true⟩]) id = some [] := by
  induction subs with
  | nil => simp [queueOf]
  | cons s subs ih =>
    have hs := h s List.mem_cons_self
    rw [List.cons_append, queueOf_cons, ih fun sub hsub => h sub (List.mem_cons_of_mem _ hsub)]
    simp [hs]

theorem queueOf_popQueue_self (subs : List Subscriber) (id : ℕ) :
    queueOf (popQueue subs id) id = (queueOf subs id).map List.tail := by
  induction subs with
  | nil => rfl
  | cons s subs ih =>
    rw [popQueue] at ih
    rw [popQueue, List.map_cons, queueOf_cons, queueOf_cons, ih]
    by_cases hid : s.id = id <;> by_cases hopen : s.isOpen = true <;> simp [hid, hopen]

theorem queueOf_popQueue_of_ne {id' : ℕ} (h : id' ≠ id) :
    queueOf (popQueue subs id') id = queueOf subs id := by
  induction subs with
  | nil => rfl
  | cons s subs ih =>
    rw [popQueue] at ih
    rw [popQueue, List.map_cons, queueOf_cons, queueOf_cons, ih]
    by_cases hid : s.id = id'
    · have hne : ¬ s.id = id := hid ▸ h
      simp [hid, h]
    · simp [hid]

theorem queueOf_closeQueue_of_ne {id' : ℕ} (h : id' ≠ id) :
    queueOf (closeQueue subs id') id = queueOf subs id := by
  induction subs with
  | nil => rfl
  | cons s subs ih =>
    rw [closeQueue] at ih
    rw [closeQueue, List.map_cons, queueOf_cons, queueOf_cons, ih]
    by_cases hid : s.id = id'
    · have hne : ¬ s.id = id := hid ▸ h
      simp [hid, h]
    · simp [hid]

end Channels

/-! ## What applying a record does -/

theorem write_ok_fst (s : Storage) (w : Storage.Write) : (s.write w .ok).1 = .ok () := by
  rw [Storage.write_eq]
  split <;> rfl

theorem write_ok_map (s : Storage) (w : Storage.Write) :
    (s.write w .ok).2.map = applyAll s.map w.batch := by
  rw [Storage.write_eq]
  split
  · rename_i h
    rw [h]
    rfl
  · rfl

theorem commit_ok (s : Storage) (b : Batch) :
    s.commit b .ok = (.ok (), (s.write (.commit b) .ok).2) :=
  Prod.ext (write_ok_fst s (.commit b)) rfl

/-- What a replica shows of its data: the map, and the sequence number it belongs to. -/
def ServerState.state (st : ServerState) : ByteMap × UInt64 := (st.storage.map, st.seq)

/-- What applying a record can do. -/
inductive Applied (st : ServerState) (msg : Bytes) : Except String Unit → ServerState → Prop
  /-- Nothing: the record is refused. -/
  | refused (message : String) : Applied st msg (.error message) st
  /-- A snapshot replaces the map; the followers of the node are not told. -/
  | snapshot (s : UInt64) (body : Bytes) (pairs : List Pair) (hmsg : msg = record recSnapshot s body)
      (hpairs : decodePairs body = .ok pairs) :
      Applied st msg (.ok ()) { st with
        storage := (st.storage.write (.commit (snapshotBatch st.storage.map pairs)) .ok).2
        seq := s }
  /-- A batch is committed and passed on. -/
  | batch (s : UInt64) (body : Bytes) (b : Batch) (hmsg : msg = record recBatch s body)
      (hb : decodeBatch body = .ok b) :
      Applied st msg (.ok ()) { st with
        storage := (st.storage.write (.commit b) .ok).2
        seq := s
        subscribers := broadcast st.subscribers msg }

theorem record_eq (kind : UInt8) {rest : Bytes} (h : 8 ≤ rest.length) :
    kind :: rest = record kind (UInt64.ofNat (leNat (rest.take 8))) (rest.drop 8) := by
  have h8 : (rest.take 8).length = 8 := List.length_take_of_le h
  have hlt := leNat_lt (rest.take 8)
  have hbytes := leBytes_leNat (rest.take 8)
  rw [h8] at hlt hbytes
  have hnat : (UInt64.ofNat (leNat (rest.take 8))).toNat = leNat (rest.take 8) := by
    rw [UInt64.toNat_ofNat']
    exact Nat.mod_eq_of_lt hlt
  rw [record, hnat, hbytes, List.take_append_drop]

theorem applyRecord_record (st : ServerState) (disk : Disk) (kind : UInt8) (s : UInt64)
    (body : Bytes) :
    applyRecord st disk (record kind s body) =
      if kind = recSnapshot then
        match decodePairs body with
        | .error message => (.error ("storage corruption: protocol error: " ++ message), st)
        | .ok pairs =>
          match st.storage.commit (snapshotBatch st.storage.map pairs) disk.io with
          | (.error e, storage) => (.error (display disk e), { st with storage })
          | (.ok (), storage) => (.ok (), { st with storage, seq := s })
      else if kind = recBatch then
        match decodeBatch body with
        | .error message => (.error message, st)
        | .ok batch =>
          match st.storage.commit batch disk.io with
          | (.error e, storage) => (.error (display disk e), { st with storage })
          | (.ok (), storage) =>
            (.ok (), { st with
              storage
              seq := s
              subscribers := broadcast st.subscribers (record recBatch s body) })
      else (.error ("unknown replication record kind " ++ toString kind.toNat), st) := by
  have hlen : ¬ (leBytes 8 s.toNat ++ body).length < 8 := by simp
  have hseq : UInt64.ofNat (leNat ((leBytes 8 s.toNat ++ body).take 8)) = s := by
    rw [leNat_take_leBytes, Nat.mod_eq_of_lt (show s.toNat < 256 ^ 8 from s.toNat_lt)]
    exact UInt64.ofNat_toNat
  have hbody : (leBytes 8 s.toNat ++ body).drop 8 = body := drop_leBytes ..
  simp only [applyRecord, record, if_neg hlen, hseq, hbody]

/-- **What applying a record does**, on a disk without errors. -/
theorem applyRecord_spec (st : ServerState) (msg : Bytes) :
    Applied st msg (applyRecord st soundDisk msg).1 (applyRecord st soundDisk msg).2 := by
  cases msg with
  | nil => exact .refused _
  | cons kind rest =>
    by_cases hlen : rest.length < 8
    · rw [applyRecord, if_pos hlen]
      exact .refused _
    · rw [record_eq kind (not_lt.mp hlen)]
      generalize UInt64.ofNat (leNat (rest.take 8)) = s
      generalize rest.drop 8 = body
      rw [applyRecord_record]
      by_cases hkind : kind = recSnapshot
      · rw [if_pos hkind]
        cases hpairs : decodePairs body with
        | error message => exact .refused _
        | ok pairs =>
          simp only [soundDisk, commit_ok]
          exact .snapshot s body pairs (by rw [hkind]) hpairs
      · rw [if_neg hkind]
        by_cases hkind' : kind = recBatch
        · rw [if_pos hkind']
          cases hb : decodeBatch body with
          | error message => exact .refused _
          | ok b =>
            simp only [soundDisk, commit_ok]
            rw [hkind']
            exact .batch s body b rfl hb
        · rw [if_neg hkind']
          exact .refused _

/-- Applying a batch record. -/
theorem applyRecord_batch (st : ServerState) (s : UInt64) {body : Bytes} {b : Batch}
    (hb : decodeBatch body = .ok b) :
    applyRecord st soundDisk (record recBatch s body) = (.ok (), { st with
      storage := (st.storage.write (.commit b) .ok).2
      seq := s
      subscribers := broadcast st.subscribers (record recBatch s body) }) := by
  rw [applyRecord_record, if_neg (by decide), if_pos rfl]
  simp only [hb, soundDisk, commit_ok]

/-- The pairs of a map, committed over any other, leave that map. -/
theorem applyAll_snapshotBatch (m m' : ByteMap) :
    applyAll m (snapshotBatch m m'.toList) = m' := by
  refine Std.ExtTreeMap.ext_getElem? fun k => ?_
  rw [snapshotBatch, applyAll_append, getElem?_applyAll_puts]
  cases hk : m'[k]? with
  | some x => rfl
  | none =>
    rw [Option.none_or, scanPrefix_nil]
    cases hm : m[k]? with
    | none =>
      rw [getElem?_applyAll_of_notMem, hm]
      rintro op hop rfl
      obtain ⟨e, he, rfl⟩ := List.mem_map.mp hop
      have := (mem_toList_iff m e.1 e.2).mp (List.mem_filter.mp he).1
      simp [Mutation.key, this] at hm
    | some x =>
      -- a stale key: the snapshot does not have it, so it is deleted
      have hstale : ¬ (m'.toList.any fun p => p.1 = k) = true := by
        intro h
        obtain ⟨p, hp, hpk⟩ := List.any_eq_true.mp h
        have := (mem_toList_iff m' p.1 p.2).mp hp
        rw [of_decide_eq_true hpk, hk] at this
        cases this
      have hn : ((m.toList.filter fun e => ¬ m'.toList.any fun p => p.1 = e.1).map
          fun e => (.delete e.1 : Op)).Pairwise fun a b => a.key ≠ b.key := by
        rw [List.pairwise_map]
        refine List.Pairwise.imp ?_ ((sortedKeys_toList m).sublist List.filter_sublist)
        rintro a b hab he
        simp only [Mutation.key] at he
        simp [he] at hab
      have hmem : (.delete k : Op) ∈ (m.toList.filter fun e =>
          ¬ m'.toList.any fun p => p.1 = e.1).map fun e => .delete e.1 := by
        refine List.mem_map.mpr ⟨(k, x), List.mem_filter.mpr ⟨(mem_toList_iff m k x).mpr hm, ?_⟩, rfl⟩
        exact decide_eq_true hstale
      exact getElem?_applyAll_of_mem m hn hmem

/-- Applying a snapshot replaces the map. -/
theorem applyRecord_snapshot (st : ServerState) (s : UInt64) {m : ByteMap}
    (hfit : PairsFit m.toList) :
    ∃ st', applyRecord st soundDisk (record recSnapshot s (encodePairs m.toList)) = (.ok (), st') ∧
      st'.state = (m, s) := by
  rw [applyRecord_record, if_pos rfl]
  simp only [decodePairs_encodePairs hfit, soundDisk, commit_ok]
  refine ⟨_, rfl, ?_⟩
  rw [ServerState.state, write_ok_map]
  exact Prod.ext (applyAll_snapshotBatch _ _) rfl
end Net

end Ciphra
