import Ciphra.Storage.Wal

/-!
# Mutations that fail

A call whose append fails returns an error and leaves whatever part of its record reached the file
where it is: nothing cuts it off before the next append. The tail left by a failed write is
therefore in front of every later record, and the replay loop of `openLog` stops there. A call that
returned `Ok` after such a failure is lost when the store is reopened
(`not_durable_after_torn_write`).

When no record is written behind a torn one, and every record fits its length field, a reopen
reflects every call that returned `Ok` (`durable_of_tornFree`): it applies, in order, all of those
and possibly some of the failed ones, whose record was written before the error.

A single call can lose its batch without any failure, when the record is too long for its length
field. `commit_replays_iff` says exactly which batches are read back.
-/

namespace Ciphra.Storage

open OrdMap

/-- A mutating call together with the way its append ends. -/
structure Attempt where
  write : Write
  io : Io
  deriving DecidableEq, Repr

/-- The bytes an attempt leaves in the log file. -/
def Attempt.bytes (a : Attempt) : Bytes :=
  if a.write.batch = [] then [] else a.io.written (frame (payloadOf a.write.batch))

/-- The store after an attempt. -/
def attempt (s : Storage) (a : Attempt) : Storage := (s.write a.write a.io).2

/-- The attempt returns `Ok`, whatever the store. -/
def Attempt.Ok (a : Attempt) : Prop := ∀ s : Storage, (s.write a.write a.io).1 = .ok ()

theorem Attempt.ok_iff (a : Attempt) : a.Ok ↔ a.write.batch = [] ∨ a.io = .ok := by
  constructor
  · intro h
    have := h ⟨∅, []⟩
    rw [write_eq] at this
    split at this
    · exact Or.inl ‹_›
    · split at this
      · exact Or.inr ‹_›
      · cases this
  · intro h s
    rw [write_eq]
    rcases h with h | h
    · rw [if_pos h]
    · rw [if_pos h]
      split <;> rfl

instance (a : Attempt) : Decidable a.Ok := decidable_of_iff _ a.ok_iff.symm

theorem wal_attempt (s : Storage) (a : Attempt) : (s.attempt a).wal = s.wal ++ a.bytes := by
  rw [attempt, write_eq, Attempt.bytes]
  split
  · simp
  · split
    · rename_i h
      simp [h, Io.written]
    · rfl

theorem wal_attempts (s : Storage) (as : List Attempt) :
    (as.foldl attempt s).wal = s.wal ++ as.flatMap Attempt.bytes := by
  induction as generalizing s with
  | nil => simp
  | cons a as ih => rw [List.foldl_cons, ih, wal_attempt, List.flatMap_cons, List.append_assoc]

/-- A map reflects every attempt that returned `Ok`: it is the effect, in order, of some of the
attempts, all of the successful ones among them. -/
def Reflects (m₀ : ByteMap) (as : List Attempt) (m : ByteMap) : Prop :=
  ∃ kept : List Attempt, (as.filter fun a => a.Ok).Sublist kept ∧ kept.Sublist as ∧
    m = applyLog m₀ (kept.map fun a => a.write.batch)

/-- The write stopped inside its record. -/
def Attempt.Torn (a : Attempt) : Prop :=
  a.write.batch ≠ [] ∧ a.bytes ≠ [] ∧ a.bytes.length < (frame (payloadOf a.write.batch)).length

/-- Nothing is written behind a torn record. -/
def TornFree : List Attempt → Prop
  | [] => True
  | a :: as => (a.Torn → ∀ b ∈ as, b.bytes = []) ∧ TornFree as

/-! ## What an attempt leaves in the file -/

theorem written_isPrefix (record : Bytes) (io : Io) : io.written record <+: record := by
  cases io with
  | ok => exact List.prefix_rfl
  | writeFailed n => exact List.take_prefix n record
  | syncFailed => exact List.prefix_rfl

/-- An attempt leaves nothing, its whole record, or a torn one. -/
theorem Attempt.bytes_cases (a : Attempt) :
    a.bytes = [] ∨ (a.write.batch ≠ [] ∧ a.bytes = frame (payloadOf a.write.batch)) ∨ a.Torn := by
  by_cases hb : a.write.batch = []
  · exact Or.inl (by rw [Attempt.bytes, if_pos hb])
  · have hbytes : a.bytes = a.io.written (frame (payloadOf a.write.batch)) := by
      rw [Attempt.bytes, if_neg hb]
    by_cases he : a.bytes = []
    · exact Or.inl he
    · have hp := written_isPrefix (frame (payloadOf a.write.batch)) a.io
      rw [← hbytes] at hp
      rcases Nat.lt_or_ge a.bytes.length (frame (payloadOf a.write.batch)).length with hlt | hge
      · exact Or.inr (Or.inr ⟨hb, he, hlt⟩)
      · exact Or.inr (Or.inl ⟨hb, hp.eq_of_length_le hge⟩)

theorem Attempt.bytes_of_ok {a : Attempt} (h : a.Ok) :
    a.bytes = if a.write.batch = [] then [] else frame (payloadOf a.write.batch) := by
  rw [Attempt.bytes]
  rcases a.ok_iff.mp h with hb | hio
  · rw [if_pos hb, if_pos hb]
  · rw [hio]
    rfl

theorem Attempt.Torn.not_ok {a : Attempt} (h : a.Torn) : ¬ a.Ok := by
  intro hok
  obtain ⟨hb, -, hlt⟩ := h
  rw [Attempt.bytes_of_ok hok, if_neg hb] at hlt
  omega

theorem Attempt.Torn.decodeRecord_bytes {a : Attempt} (h : a.Torn) (hfit : Fits a.write.batch) :
    decodeRecord a.bytes = none := by
  obtain ⟨hb, -, hlt⟩ := h
  have hp := written_isPrefix (frame (payloadOf a.write.batch)) a.io
  rw [Attempt.bytes, if_neg hb] at hlt ⊢
  rw [List.prefix_iff_eq_take.mp hp]
  exact decodeRecord_take_frame _ _ hfit hlt

/-- The file left by attempts that never write behind a torn record: the records of a selection
of them that holds all the successful ones, followed by a tail that does not decode. -/
theorem flatMap_bytes_of_tornFree (as : List Attempt) (hfit : ∀ a ∈ as, Fits a.write.batch)
    (ht : TornFree as) :
    ∃ (kept : List Attempt) (tail : Bytes), (as.filter fun a => a.Ok).Sublist kept ∧
      kept.Sublist as ∧ decodeRecord tail = none ∧
      as.flatMap Attempt.bytes =
        encodeLog ((kept.map fun a => a.write.batch).filter fun b => b ≠ []) ++ tail := by
  induction as with
  | nil => exact ⟨[], [], by simp, by simp, rfl, rfl⟩
  | cons a as ih =>
    obtain ⟨hhead, htail⟩ := ht
    have hfit' : ∀ b ∈ as, Fits b.write.batch := fun b hb => hfit b (List.mem_cons_of_mem _ hb)
    rcases a.bytes_cases with he | ⟨hb, hfull⟩ | htorn
    · -- nothing was written: the attempt counts when it is an empty batch
      obtain ⟨kept, tail, hok, hsub, hdec, heq⟩ := ih hfit' htail
      by_cases hb : a.write.batch = []
      · refine ⟨a :: kept, tail, ?_, hsub.cons_cons a, hdec, ?_⟩
        · rw [List.filter_cons_of_pos (by simpa using a.ok_iff.mpr (Or.inl hb))]
          exact hok.cons_cons a
        · simpa [he, hb] using heq
      · have hnok : ¬ a.Ok := by
          intro h
          have := Attempt.bytes_of_ok h
          rw [he, if_neg hb] at this
          exact frame_ne_nil _ this.symm
        refine ⟨kept, tail, ?_, hsub.cons a, hdec, by simpa [he] using heq⟩
        rwa [List.filter_cons_of_neg (by simpa using hnok)]
    · obtain ⟨kept, tail, hok, hsub, hdec, heq⟩ := ih hfit' htail
      refine ⟨a :: kept, tail, ?_, hsub.cons_cons a, hdec, ?_⟩
      · by_cases h : a.Ok
        · rw [List.filter_cons_of_pos (by simpa using h)]
          exact hok.cons_cons a
        · rw [List.filter_cons_of_neg (by simpa using h)]
          exact hok.cons a
      · rw [List.flatMap_cons, heq, hfull, List.map_cons, List.filter_cons_of_pos (by simpa using hb),
          encodeLog_cons, List.append_assoc]
    · -- a torn record: whatever follows wrote nothing, so only empty batches succeeded
      have hempty : as.flatMap Attempt.bytes = [] := by
        rw [List.flatMap_eq_nil_iff]
        exact hhead htorn
      refine ⟨as.filter fun a => a.Ok, a.bytes, ?_, List.filter_sublist.cons a,
        htorn.decodeRecord_bytes (hfit a List.mem_cons_self), ?_⟩
      · rw [List.filter_cons_of_neg (by simpa using htorn.not_ok)]
      · have hnone : ((as.filter fun a => a.Ok).map fun a => a.write.batch).filter
            (fun b => b ≠ []) = [] := by
          rw [List.filter_eq_nil_iff]
          intro b hb
          obtain ⟨c, hc, rfl⟩ := List.mem_map.mp hb
          obtain ⟨hmem, hok⟩ := List.mem_filter.mp hc
          have := Attempt.bytes_of_ok (by simpa using hok : c.Ok)
          rw [hhead htorn c hmem] at this
          by_contra hne
          rw [if_neg (by simpa using hne)] at this
          exact frame_ne_nil _ this.symm
        rw [hnone, List.flatMap_cons, hempty]
        simp

theorem applyLog_filter_ne_nil (m : ByteMap) (log : List Batch) :
    applyLog m (log.filter fun b => b ≠ []) = applyLog m log := by
  induction log generalizing m with
  | nil => rfl
  | cons b log ih =>
    by_cases hb : b = []
    · subst hb
      rw [List.filter_cons_of_neg (by simp)]
      exact ih m
    · rw [List.filter_cons_of_pos (by simpa using hb)]
      exact ih _

/-- **Successful mutations are durable when nothing is written behind a torn record.** On a store
with an intact log, take any attempts whose records fit their length field and of which none
writes behind a record that a failed write left torn: a reopen reflects every attempt that
returned `Ok`. -/
theorem durable_of_tornFree {s : Storage} {log : List Batch} (h : Intact s log)
    (as : List Attempt) (hfit : ∀ a ∈ as, Fits a.write.batch) (ht : TornFree as) :
    Reflects s.map as (openLog (as.foldl attempt s).wal).map := by
  obtain ⟨kept, tail, hok, hsub, hdec, heq⟩ := flatMap_bytes_of_tornFree as hfit ht
  refine ⟨kept, hok, hsub, ?_⟩
  have hw : Writable (log ++ (kept.map fun a => a.write.batch).filter fun b => b ≠ []) := by
    intro b hb
    rcases List.mem_append.mp hb with hb | hb
    · exact h.writable b hb
    · obtain ⟨hmem, hne⟩ := List.mem_filter.mp hb
      obtain ⟨a, ha, rfl⟩ := List.mem_map.mp hmem
      exact ⟨by simpa using hne, hfit a (hsub.subset ha)⟩
  rw [wal_attempts, heq, h.wal_eq, ← List.append_assoc, ← encodeLog_append,
    openLog_encodeLog_append _ hw hdec, applyLog_append, applyLog_filter_ne_nil, ← h.map_eq]

/-- An empty batch, a put whose sync failed, a successful put and a torn last write. -/
theorem durable_of_tornFree_sync_failure :
    Reflects ∅ [⟨.commit [], .writeFailed 7⟩, ⟨.put [1] [2], .syncFailed⟩, ⟨.put [3] [4], .ok⟩,
        ⟨.delete [3], .writeFailed 5⟩]
      (openLog ([⟨.commit [], .writeFailed 7⟩, ⟨.put [1] [2], .syncFailed⟩, ⟨.put [3] [4], .ok⟩,
        ⟨.delete [3], .writeFailed 5⟩].foldl attempt ⟨∅, []⟩).wal).map :=
  durable_of_tornFree intact_empty _
    (by simp [Fits, Write.batch, payloadOf, length_batchPayload, entryOf, encodeEntry])
    (by simp [TornFree, Attempt.Torn, Attempt.bytes, Write.batch, Io.written])

/-- One byte of a failed put in front of a successful one: the reopened store has lost the
successful put. -/
theorem not_durable_after_torn_write :
    ¬ Reflects ∅ [⟨.put [1] [2], .writeFailed 1⟩, ⟨.put [3] [4], .ok⟩]
      (openLog ([⟨.put [1] [2], .writeFailed 1⟩, ⟨.put [3] [4], .ok⟩].foldl attempt
        ⟨∅, []⟩).wal).map := by
  have hdec : decodeRecord ([⟨.put [1] [2], .writeFailed 1⟩, ⟨.put [3] [4], .ok⟩].foldl attempt
      ⟨∅, []⟩).wal = none := by decide +kernel
  have hopen : (openLog ([⟨.put [1] [2], .writeFailed 1⟩, ⟨.put [3] [4], .ok⟩].foldl attempt
      ⟨∅, []⟩).wal).map = ∅ := by
    rw [openLog, replay_of_decodeRecord_none hdec]
  rw [hopen]
  rintro ⟨kept, hok, hsub, hmap⟩
  rw [← List.mem_sublists] at hsub
  have hget := congrArg (fun m : ByteMap => m[([3] : Bytes)]?) hmap
  revert hok hget
  revert kept
  decide +kernel

/-! ## Batches that are read back -/

/-- The bytes that an operation takes in a record. -/
def opSize : Op → ℕ
  | .put key value => 9 + key.length + value.length
  | .delete key => 9 + key.length

/-- The bytes that a batch takes: a single operation goes without the header of a batch. -/
def batchSize (b : Batch) : ℕ := (if b.length = 1 then 0 else 5) + (b.map opSize).sum

/-- Decoding the bytes that a commit appended gives the operations of the batch and uses up exactly
these bytes. A batch without operations appends none. -/
def Replays (b : Batch) (appended : Bytes) : Prop :=
  if b = [] then appended = []
  else decodeRecord appended = some (appended.length, recordOf b)

theorem length_encodeEntry_entryOf (op : Op) : (encodeEntry (entryOf op)).length = opSize op := by
  cases op <;> simp [entryOf, opSize]

theorem length_payloadOf (b : Batch) : (payloadOf b).length = batchSize b := by
  have hsum : ((b.map entryOf).flatMap encodeEntry).length = (b.map opSize).sum := by
    rw [List.length_flatMap, List.map_map]
    exact congrArg List.sum (List.map_congr_left fun op _ => length_encodeEntry_entryOf op)
  rcases b with _ | ⟨op, _ | ⟨op', ops⟩⟩
  · rfl
  · rw [payloadOf, length_encodeEntry_entryOf, batchSize]
    simp
  · rw [payloadOf, length_batchPayload, hsum, batchSize, if_neg (by simp)]
    simp

/-- A record is read back as itself exactly if its payload fits the length field: beyond that the
decoder consumes less than was appended. -/
theorem decodeRecord_frame_payloadOf_iff (b : Batch) :
    decodeRecord (frame (payloadOf b)) = some ((frame (payloadOf b)).length, recordOf b) ↔
      Fits b := by
  constructor
  · intro h
    have hlen := (decodeRecord_eq_some h).1
    have hfield := leNat_lt (((frame (payloadOf b)).drop 4).take 4)
    have hwidth : (((frame (payloadOf b)).drop 4).take 4).length ≤ 4 := List.length_take_le _ _
    have hbound : 256 ^ (((frame (payloadOf b)).drop 4).take 4).length ≤ 256 ^ 4 :=
      Nat.pow_le_pow_right (by norm_num) hwidth
    rw [length_frame] at hlen
    rw [Fits]
    omega
  · intro hfit
    have hdec := decodeRecord_frame_append (payloadOf b) [] (recordOf b)
      (five_le_length_payloadOf b) hfit (decodePayload_payloadOf hfit)
    rwa [List.append_nil] at hdec

theorem commit_eq_write (s : Storage) (b : Batch) (io : Io) :
    s.commit b io = s.write (.commit b) io := rfl

/-- **A commit is replayable or refused exactly when its record fits**, for every batch, store and
outcome of the append: the batch is empty, an error is returned, or the operations take less than
`2 ^ 32` bytes. -/
theorem commit_replays_iff (s : Storage) (b : Batch) (io : Io) :
    ((s.commit b io).1 ≠ .ok () ∨ Replays b ((s.commit b io).2.wal.drop s.wal.length)) ↔
      b = [] ∨ io ≠ .ok ∨ batchSize b < 2 ^ 32 := by
  rw [commit_eq_write, write_eq, Write.batch]
  by_cases hb : b = []
  · subst hb
    simp [Replays]
  · rw [if_neg hb, Replays, if_neg hb]
    by_cases hio : io = .ok
    · rw [if_pos hio]
      simp only [List.drop_left, decodeRecord_frame_payloadOf_iff, Fits, length_payloadOf, hb, hio,
        ne_eq, not_true_eq_false, false_or]
    · rw [if_neg hio]
      simp [hio]

/-- A batch of exactly `2 ^ 32` bytes is acknowledged, and what is appended for it does not decode. -/
theorem commit_lost (s : Storage) {b : Batch} (hb : b ≠ []) (hsize : batchSize b = 2 ^ 32) :
    (s.commit b .ok).1 = .ok () ∧ ¬ Replays b ((s.commit b .ok).2.wal.drop s.wal.length) := by
  rw [commit_eq_write, write_eq, Write.batch, if_neg hb, if_pos rfl, Replays, if_neg hb]
  refine ⟨rfl, ?_⟩
  rw [List.drop_left, decodeRecord_frame_eq_none ((length_payloadOf b).trans hsize)]
  exact fun h => Option.some_ne_none _ h.symm

theorem batchSize_put (key value : Bytes) :
    batchSize [.put key value] = 9 + key.length + value.length := by
  simp [batchSize, opSize]

/-- One put whose value makes a payload of exactly `2 ^ 32` bytes. -/
theorem commit_replays_lost :
    ((⟨∅, []⟩ : Storage).commit [.put [] (List.replicate (2 ^ 32 - 9) 0)] .ok).1 = .ok () ∧
      ¬ Replays [.put [] (List.replicate (2 ^ 32 - 9) 0)]
        (((⟨∅, []⟩ : Storage).commit [.put [] (List.replicate (2 ^ 32 - 9) 0)] .ok).2.wal.drop
          (⟨∅, []⟩ : Storage).wal.length) := by
  refine commit_lost _ (List.cons_ne_nil _ _) ?_
  rw [batchSize_put, List.length_replicate, List.length_nil]
  norm_num

end Ciphra.Storage
