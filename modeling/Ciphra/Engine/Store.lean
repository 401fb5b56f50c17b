import Ciphra.Foundations.Query
import Ciphra.Storage.Wal

/-!
# The store with its transaction overlay

`Store` is what the engine reads and writes: a backend and, while a transaction is open, an
overlay of pending changes (`none` is a pending delete). Reads see the overlay laid over the
backend.

What a reader sees is one map, `Store.view`: `get_eq`, `scanPrefix_eq` and `dump_eq` say that every
read is a read of it, and `view_commit` that a commit applies its batch to it, inside a transaction
as outside. `transaction_refines_direct` puts them together: a transaction behaves as direct
execution would, and the backend changes only when the transaction commits.
-/

namespace Ciphra

open OrdMap

/-- Reading access to a map. -/
def ByteMap.reader (m : ByteMap) : Reader Bytes Bytes := ⟨fun k => m[k]?, m.scanPrefix⟩

/-- Pending changes: `none` is a pending delete. -/
abbrev Overlay := OrdMap Bytes (Option Bytes)

/-- Sealed-byte storage with an optional transaction overlay. -/
structure Store where
  backend : Storage
  overlay : Option Overlay

namespace Store

open Storage (Io)

def inTransaction (s : Store) : Bool := s.overlay.isSome

/-- Open a transaction: later writes are buffered. -/
def begin (s : Store) : Store := { s with overlay := some ∅ }

def backendPut (s : Store) (key value : Bytes) (io : Io) : Except StorageError Unit × Store :=
  let (result, backend) := s.backend.put key value io
  (result, { s with backend })

def backendCommit (s : Store) (batch : Batch) (io : Io) : Except StorageError Unit × Store :=
  let (result, backend) := s.backend.commit batch io
  (result, { s with backend })

/-- Flush the buffered writes as one backend commit and close the transaction. The overlay is taken
before the backend is asked. -/
def commitTransaction (s : Store) (io : Io) : Except StorageError Unit × Store :=
  match s.overlay with
  | some overlay =>
    let s := { s with overlay := none }
    let batch : Batch := overlay.toList.map pending
    if batch = [] then (.ok (), s) else s.backendCommit batch io
  | none => (.ok (), s)

/-- Drop the buffered writes and close the transaction. -/
def rollbackTransaction (s : Store) : Store := { s with overlay := none }

def get (s : Store) (key : Bytes) : Option Bytes :=
  match s.overlay with
  | some overlay =>
    match overlay[key]? with
    | some value => value
    | none => s.backend.map[key]?
  | none => s.backend.map[key]?

/-- Pairs collected into an ordered map. -/
def collect (pairs : List (Bytes × Bytes)) : ByteMap :=
  applyAll ∅ (pairs.map fun e => .put e.1 e.2)

def scanPrefix (s : Store) (p : Bytes) : List (Bytes × Bytes) :=
  let merged := collect (s.backend.map.scanPrefix p)
  match s.overlay with
  | some overlay =>
    (applyAll merged ((overlay.toList.filter fun e => p.isPrefixOf e.1).map pending)).toList
  | none => merged.toList

def put (s : Store) (key value : Bytes) (io : Io) : Except StorageError Unit × Store :=
  match s.overlay with
  | some overlay => (.ok (), { s with overlay := some (overlay.insert key (some value)) })
  | none => s.backendPut key value io

def commit (s : Store) (batch : Batch) (io : Io) : Except StorageError Unit × Store :=
  match s.overlay with
  | some overlay => (.ok (), { s with overlay := some (batch.foldl stage overlay) })
  | none => s.backendCommit batch io

def dump (s : Store) : List (Bytes × Bytes) :=
  let merged := collect s.backend.map.toList
  match s.overlay with
  | some overlay => (applyAll merged (overlay.toList.map pending)).toList
  | none => merged.toList

/-- Reading access for queries. -/
def reader (s : Store) : Reader Bytes Bytes := ⟨s.get, s.scanPrefix⟩

/-! ## What a reader sees -/

/-- The map a reader sees. -/
def view (s : Store) : ByteMap :=
  match s.overlay with
  | some overlay => layer s.backend.map overlay
  | none => s.backend.map

theorem view_of_none {s : Store} (h : s.overlay = none) : s.view = s.backend.map := by
  rw [view, h]

@[simp] theorem view_begin (s : Store) : s.begin.view = s.backend.map := layer_empty _

@[simp] theorem view_rollbackTransaction (s : Store) :
    s.rollbackTransaction.view = s.backend.map := rfl

theorem get_eq (s : Store) (key : Bytes) : s.get key = s.view[key]? := by
  rw [get, view]
  cases s.overlay with
  | none => rfl
  | some o =>
    simp only [getElem?_layer]
    cases o[key]? <;> rfl

theorem collect_toList (m : ByteMap) : collect m.toList = m := applyAll_puts m

theorem getElem?_collect_scanPrefix (m : ByteMap) (p k : Bytes) :
    (collect (m.scanPrefix p))[k]? = if p <+: k then m[k]? else none := by
  have hn : ((m.scanPrefix p).map fun e => Mutation.put e.1 e.2).Pairwise
      fun a b : Op => a.key ≠ b.key := by
    rw [List.pairwise_map]
    refine List.Pairwise.imp ?_ (m.sortedKeys_scanPrefix p)
    rintro a b hab he
    simp only [Mutation.key] at he
    simp [he] at hab
  by_cases hk : ∃ x, (k, x) ∈ m.scanPrefix p
  · obtain ⟨x, hx⟩ := hk
    have hmem : Mutation.put k x ∈ (m.scanPrefix p).map fun e => Mutation.put e.1 e.2 :=
      List.mem_map.mpr ⟨(k, x), hx, rfl⟩
    obtain ⟨hx, hp⟩ := (m.mem_scanPrefix p k x).mp hx
    rw [if_pos hp, hx]
    exact getElem?_applyAll_of_mem _ hn hmem
  · rw [collect, getElem?_applyAll_of_notMem]
    · split
      · rename_i hp
        cases hx : m[k]? with
        | none => simp
        | some x => exact absurd ⟨x, (m.mem_scanPrefix p k x).mpr ⟨hx, hp⟩⟩ hk
      · simp
    · rintro op hop rfl
      obtain ⟨e, he, rfl⟩ := List.mem_map.mp hop
      exact hk ⟨e.2, he⟩

/-- The merged map of a prefix scan is the visible map cut down to the prefix. -/
theorem getElem?_merged (m : ByteMap) (o : Overlay) (p k : Bytes) :
    (applyAll (collect (m.scanPrefix p))
        ((o.toList.filter fun e => p.isPrefixOf e.1).map pending))[k]? =
      if p <+: k then (layer m o)[k]? else none := by
  have hs : SortedKeys (o.toList.filter fun e => p.isPrefixOf e.1) :=
    (sortedKeys_toList o).sublist List.filter_sublist
  by_cases hk : ∃ ov, (k, ov) ∈ o.toList.filter fun e => p.isPrefixOf e.1
  · obtain ⟨ov, hov⟩ := hk
    rw [getElem?_applyAll_pending _ hs hov]
    obtain ⟨hmem, hp⟩ := List.mem_filter.mp hov
    rw [if_pos (List.isPrefixOf_iff_prefix.mp hp), getElem?_layer, (mem_toList_iff o k ov).mp hmem]
    rfl
  · rw [getElem?_applyAll_pending_of_notMem _ fun ov hov => hk ⟨ov, hov⟩,
      getElem?_collect_scanPrefix]
    split
    · rename_i hp
      have hnone : o[k]? = none := by
        rw [Option.eq_none_iff_forall_not_mem]
        intro ov hov
        exact hk ⟨ov, List.mem_filter.mpr
          ⟨(mem_toList_iff o k ov).mpr hov, List.isPrefixOf_iff_prefix.mpr hp⟩⟩
      rw [getElem?_layer, hnone]
      rfl
    · rfl

/-- An ordered map cut down to a prefix lists what a scan of the whole map finds. -/
theorem toList_eq_scanPrefix {m m' : ByteMap} {p : Bytes}
    (h : ∀ k, m'[k]? = if p <+: k then m[k]? else none) : m'.toList = m.scanPrefix p := by
  refine (sortedKeys_toList m').eq_of_mem_iff (m.sortedKeys_scanPrefix p) fun ⟨k, x⟩ => ?_
  rw [mem_toList_iff, ByteMap.mem_scanPrefix, h]
  split <;> simp_all

theorem scanPrefix_eq (s : Store) (p : Bytes) : s.scanPrefix p = s.view.scanPrefix p := by
  rw [scanPrefix, view]
  cases s.overlay with
  | none => exact toList_eq_scanPrefix (getElem?_collect_scanPrefix _ p)
  | some o => exact toList_eq_scanPrefix (getElem?_merged _ o p)

theorem dump_eq (s : Store) : s.dump = s.view.toList := by
  rw [dump, view, collect_toList]
  cases s.overlay <;> rfl

theorem reader_eq (s : Store) : s.reader = s.view.reader := by
  simp only [reader, ByteMap.reader, Reader.mk.injEq]
  exact ⟨funext s.get_eq, funext s.scanPrefix_eq⟩

/-! ## Writes -/

theorem backendCommit_eq (s : Store) (batch : Batch) (io : Io) :
    s.backendCommit batch io =
      ((s.backend.write (.commit batch) io).1,
        { s with backend := (s.backend.write (.commit batch) io).2 }) := rfl

/-- A backend commit that succeeds applies its batch. -/
theorem map_write_ok (st : Storage) (w : Storage.Write) :
    (st.write w .ok).1 = .ok () ∧ (st.write w .ok).2.map = applyAll st.map w.batch := by
  rw [Storage.write_eq]
  split
  · rename_i h
    rw [h]
    exact ⟨rfl, rfl⟩
  · rw [if_pos rfl]
    exact ⟨rfl, rfl⟩

/-- A backend write that fails leaves the map alone. -/
theorem map_write_error {st : Storage} {w : Storage.Write} {io : Io} {e : StorageError}
    (h : (st.write w io).1 = .error e) : (st.write w io).2.map = st.map := by
  rw [Storage.write_eq] at h ⊢
  split
  · rfl
  · split
    · rename_i hb hio
      rw [if_neg hb, if_pos hio] at h
      cases h
    · rfl

/-- A write that succeeds is one whose append succeeds, or that has nothing to write. -/
theorem map_write_of_ok {st : Storage} {w : Storage.Write} {io : Io}
    (h : (st.write w io).1 = .ok ()) : (st.write w io).2.map = applyAll st.map w.batch := by
  rw [Storage.write_eq] at h ⊢
  split
  · rename_i hb
    rw [hb]
    rfl
  · rename_i hb
    rw [if_neg hb] at h
    split
    · rfl
    · rename_i hio
      rw [if_neg hio] at h
      cases h

/-- A write that succeeds is the write whose append succeeds. -/
theorem write_eq_of_ok {st : Storage} {w : Storage.Write} {io : Io}
    (h : (st.write w io).1 = .ok ()) : st.write w io = st.write w .ok := by
  rw [Storage.write_eq] at h ⊢
  rw [Storage.write_eq]
  by_cases hb : w.batch = []
  · rw [if_pos hb, if_pos hb]
  · rw [if_neg hb] at h ⊢
    by_cases hio : io = .ok
    · rw [hio, if_neg hb]
    · rw [if_neg hio] at h
      cases h

/-- A commit applies its batch to what a reader sees, inside a transaction as outside. -/
theorem view_commit {s : Store} {batch : Batch} {io : Io} (h : (s.commit batch io).1 = .ok ()) :
    (s.commit batch io).2.view = applyAll s.view batch := by
  cases ho : s.overlay with
  | some o =>
    simp only [commit, ho, view]
    exact layer_foldl_stage _ _ _
  | none =>
    simp only [commit, ho, backendCommit_eq] at h ⊢
    rw [view_of_none ho]
    exact map_write_of_ok h

/-- A commit that fails changes nothing a reader sees, and there is no transaction then. -/
theorem commit_error {s : Store} {batch : Batch} {io : Io} {e : StorageError}
    (h : (s.commit batch io).1 = .error e) :
    s.overlay = none ∧ (s.commit batch io).2.overlay = none ∧
      (s.commit batch io).2.backend.map = s.backend.map := by
  cases ho : s.overlay with
  | some o =>
    simp only [commit, ho] at h
    cases h
  | none =>
    simp only [commit, ho, backendCommit_eq] at h ⊢
    exact ⟨trivial, trivial, map_write_error h⟩

/-- Inside a transaction a commit does not reach the backend. -/
theorem commit_of_overlay {s : Store} {o : Overlay} (h : s.overlay = some o) (batch : Batch)
    (io : Io) : s.commit batch io = (.ok (), { s with overlay := some (batch.foldl stage o) }) := by
  rw [commit, h]

theorem commit_of_none {s : Store} (h : s.overlay = none) (batch : Batch) (io : Io) :
    (s.commit batch io).2.overlay = none ∧
      (s.commit batch io).2.backend = (s.backend.write (.commit batch) io).2 := by
  rw [commit, h]
  exact ⟨h, rfl⟩

/-- The flush of a transaction is one backend commit. -/
theorem commitTransaction_backend {s : Store} {o : Overlay} (h : s.overlay = some o) (io : Io) :
    (s.commitTransaction io).2.backend =
      (s.backend.write (.commit (o.toList.map pending)) io).2 := by
  rw [commitTransaction, h]
  simp only
  split
  · rename_i hb
    have hb : (Storage.Write.commit (o.toList.map pending)).batch = [] := hb
    rw [Storage.write_eq, if_pos hb]
  · rfl

theorem commitTransaction_ok (s : Store) : (s.commitTransaction .ok).1 = .ok () := by
  rw [commitTransaction]
  split
  · simp only
    split
    · rfl
    · rw [backendCommit_eq, (map_write_ok _ _).1]
  · rfl

/-- A flush fails with its append. -/
theorem commitTransaction_fails {s : Store} {o : Overlay} (h : s.overlay = some o)
    (hne : o.toList ≠ []) {io : Io} (hio : io ≠ .ok) :
    (s.commitTransaction io).1 = .error .io := by
  have hbatch : o.toList.map pending ≠ [] := by simpa using hne
  rw [commitTransaction, h]
  simp only [hbatch, if_false, backendCommit_eq, Storage.write_eq, Storage.Write.batch, hio]

/-- A transaction that commits leaves in the backend what its readers saw. -/
theorem map_commitTransaction {s : Store} {io : Io} (h : (s.commitTransaction io).1 = .ok ()) :
    (s.commitTransaction io).2.overlay = none ∧
      (s.commitTransaction io).2.backend.map = s.view := by
  rw [commitTransaction, view] at *
  cases ho : s.overlay with
  | none => exact ⟨ho, rfl⟩
  | some o =>
    simp only [ho] at h ⊢
    split
    · rename_i hb
      refine ⟨rfl, ?_⟩
      rw [layer, hb, applyAll_nil]
    · rename_i hb
      rw [if_neg hb, backendCommit_eq] at h
      exact ⟨rfl, map_write_of_ok h⟩

/-- A transaction whose commit fails is gone, and the backend map is as before. -/
theorem commitTransaction_error {s : Store} {io : Io} {e : StorageError}
    (h : (s.commitTransaction io).1 = .error e) :
    (s.commitTransaction io).2.overlay = none ∧
      (s.commitTransaction io).2.backend.map = s.backend.map := by
  rw [commitTransaction] at *
  cases ho : s.overlay with
  | none =>
    simp only [ho] at h
    cases h
  | some o =>
    simp only [ho] at h ⊢
    split
    · rename_i hb
      rw [if_pos hb] at h
      cases h
    · rename_i hb
      rw [if_neg hb, backendCommit_eq] at h
      exact ⟨rfl, map_write_error h⟩

/-! ## Transactions refine direct execution -/

/-- A call on the store. -/
inductive Request
  | put (key value : Bytes)
  | commit (batch : Batch)
  | get (key : Bytes)
  | scanPrefix (p : Bytes)
  | dump
  deriving DecidableEq, Repr

/-- The answer to a call. -/
inductive Answer
  | done (result : Except StorageError Unit)
  | value (x : Option Bytes)
  | pairs (l : List (Bytes × Bytes))

/-- Make a call, a backend write ending as `io` says. -/
def request (s : Store) (io : Io) : Request → Answer × Store
  | .put key value => ((.done (s.put key value io).1), (s.put key value io).2)
  | .commit batch => (.done (s.commit batch io).1, (s.commit batch io).2)
  | .get key => (.value (s.get key), s)
  | .scanPrefix p => (.pairs (s.scanPrefix p), s)
  | .dump => (.pairs s.dump, s)

/-- Make calls in order, every backend write succeeding. -/
def requests (s : Store) : List Request → List Answer × Store
  | [] => ([], s)
  | c :: calls =>
    let (answer, s) := s.request .ok c
    let (answers, s) := s.requests calls
    (answer :: answers, s)

/-- What a call writes. -/
def Request.batch : Request → Batch
  | .put key value => [.put key value]
  | .commit batch => batch
  | .get _ | .scanPrefix _ | .dump => []

/-- One store answers as the other: it is in a transaction, the other is not, and readers see the
same. -/
structure Mirrors (txn direct : Store) (base : Storage) : Prop where
  overlay : txn.overlay.isSome
  backend : txn.backend = base
  view : txn.view = direct.view
  direct : direct.overlay = none

theorem put_eq_commit (s : Store) (key value : Bytes) (io : Io) :
    s.put key value io = s.commit [.put key value] io := by
  cases ho : s.overlay with
  | some o => rw [put, commit, ho]; rfl
  | none =>
    rw [put, commit, ho, backendPut, backendCommit]
    simp [Storage.put, Storage.commit, Storage.entryOf, Storage.encodeRecord, Storage.append,
      Storage.applyOp]

/-- A commit whose append succeeds is answered so, inside a transaction as outside. -/
theorem commit_succeeds (s : Store) (batch : Batch) : (s.commit batch .ok).1 = .ok () := by
  cases ho : s.overlay with
  | some o => rw [commit_of_overlay ho]
  | none =>
    rw [commit, ho, backendCommit_eq]
    exact (map_write_ok _ _).1

/-- A call applies what it writes to what a reader sees. -/
theorem view_request (s : Store) (c : Request) :
    (s.request .ok c).2.view = applyAll s.view c.batch := by
  cases c with
  | put key value =>
    simp only [request, put_eq_commit]
    exact view_commit (commit_succeeds _ _)
  | commit batch => exact view_commit (commit_succeeds _ _)
  | get _ | scanPrefix _ | dump => rfl

theorem view_requests (s : Store) (calls : List Request) :
    (s.requests calls).2.view = applyAll s.view (calls.flatMap Request.batch) := by
  induction calls generalizing s with
  | nil => rfl
  | cons c calls ih =>
    rw [List.flatMap_cons, applyAll_append, ← view_request]
    exact ih _

theorem Mirrors.commit {txn direct : Store} {base : Storage} (h : Mirrors txn direct base)
    (batch : Batch) :
    (txn.commit batch .ok).1 = (direct.commit batch .ok).1 ∧
      Mirrors (txn.commit batch .ok).2 (direct.commit batch .ok).2 base := by
  obtain ⟨o, ho⟩ := Option.isSome_iff_exists.mp h.overlay
  have htxn := commit_succeeds txn batch
  have hdirect := commit_succeeds direct batch
  refine ⟨htxn.trans hdirect.symm, ?_, ?_, ?_, ?_⟩
  · rw [commit_of_overlay ho]
    rfl
  · rw [commit_of_overlay ho]
    exact h.backend
  · rw [view_commit htxn, view_commit hdirect, h.view]
  · rw [Store.commit, h.direct, backendCommit_eq]
    exact h.direct

/-- One call is answered alike and keeps the two stores alike. -/
theorem Mirrors.request {txn direct : Store} {base : Storage} (h : Mirrors txn direct base)
    (c : Request) :
    (txn.request .ok c).1 = (direct.request .ok c).1 ∧
      Mirrors (txn.request .ok c).2 (direct.request .ok c).2 base := by
  cases c with
  | put key value =>
    simp only [Store.request, put_eq_commit]
    exact ⟨congrArg _ (h.commit _).1, (h.commit _).2⟩
  | commit batch => exact ⟨congrArg Answer.done (h.commit batch).1, (h.commit batch).2⟩
  | get key => exact ⟨by simp only [Store.request, get_eq, h.view], h⟩
  | scanPrefix p => exact ⟨by simp only [Store.request, scanPrefix_eq, h.view], h⟩
  | dump => exact ⟨by simp only [Store.request, dump_eq, h.view], h⟩

theorem Mirrors.requests {txn direct : Store} {base : Storage} (h : Mirrors txn direct base)
    (calls : List Request) :
    (txn.requests calls).1 = (direct.requests calls).1 ∧
      Mirrors (txn.requests calls).2 (direct.requests calls).2 base := by
  induction calls generalizing txn direct with
  | nil => exact ⟨rfl, h⟩
  | cons c calls ih =>
    obtain ⟨hanswer, hnext⟩ := h.request c
    obtain ⟨hanswers, hlast⟩ := ih hnext
    exact ⟨by simp only [Store.requests, hanswer, hanswers], hlast⟩

/-- **Transactions refine direct execution.** Make any calls inside a transaction and, on a store
with the same backend, directly, which applies every write at once. The answers are the same; the
backend of the transaction has not changed; a commit leaves in it the map that direct execution
built; a rollback leaves it as it was at `begin`. -/
theorem transaction_refines_direct (base : Storage) (calls : List Request) :
    let direct := (Store.mk base none).requests calls
    let txn := (Store.mk base none).begin.requests calls
    direct.2.backend.map = applyAll base.map (calls.flatMap Request.batch) ∧
      txn.1 = direct.1 ∧ txn.2.backend = base ∧
      ((txn.2.commitTransaction .ok).1 = .ok () ∧ (txn.2.commitTransaction .ok).2.overlay = none ∧
        (txn.2.commitTransaction .ok).2.backend.map = direct.2.backend.map) ∧
      txn.2.rollbackTransaction = ⟨base, none⟩ := by
  intro direct txn
  have hstart : Mirrors (Store.mk base none).begin ⟨base, none⟩ base :=
    ⟨rfl, rfl, view_begin _, rfl⟩
  obtain ⟨hanswers, h⟩ := hstart.requests calls
  have hok : (txn.2.commitTransaction .ok).1 = .ok () := by
    obtain ⟨o, ho⟩ := Option.isSome_iff_exists.mp h.overlay
    rw [commitTransaction, ho]
    simp only
    split
    · rfl
    · rw [backendCommit_eq]
      exact (map_write_ok _ _).1
  refine ⟨?_, hanswers, h.backend, ⟨hok, (map_commitTransaction hok).1, ?_⟩, ?_⟩
  · rw [← view_of_none h.direct]
    exact view_requests _ calls
  · rw [(map_commitTransaction hok).2, h.view, view_of_none h.direct]
  · rw [rollbackTransaction, h.backend]

end Store

end Ciphra
