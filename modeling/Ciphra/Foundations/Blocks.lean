import Ciphra.Foundations.Bytes

/-!
# Data cut into blocks

A machine that works on blocks of `n` elements is fed with data in pieces of any length. It keeps
what does not fill a block in a buffer: what it has been given is a number of whole blocks, which
its chain has gone through, and then the buffer (`Absorbed`). When a full buffer is flushed is up to
the machine: at once, or only when more data follows; the relation is the same for both, and where
the buffer is shorter than a block it determines chain and buffer (`Absorbed.chain_eq`).
-/

namespace Ciphra

variable {α σ : Type*}

/-- The `i`-th block of `n` elements. -/
def blockAt (n : ℕ) (l : List α) (i : ℕ) : List α := (l.drop (n * i)).take n

/-- The chain after the whole blocks of the data. -/
def chainBlocks (n : ℕ) (f : σ → List α → σ) (c : σ) (l : List α) : σ :=
  (List.range (l.length / n)).foldl (fun c i => f c (blockAt n l i)) c

section

variable {n : ℕ} {f : σ → List α → σ} {c : σ}

theorem blockAt_append_left {a b : List α} {i k : ℕ} (ha : a.length = n * k) (hi : i < k) :
    blockAt n (a ++ b) i = blockAt n a i := by
  have hle : n * (i + 1) ≤ n * k := Nat.mul_le_mul_left n hi
  rw [Nat.mul_succ] at hle
  rw [blockAt, blockAt, List.drop_append_of_le_length (by omega),
    List.take_append_of_le_length (by rw [List.length_drop]; omega)]

theorem blockAt_append_right {a b : List α} {i k : ℕ} (ha : a.length = n * k) :
    blockAt n (a ++ b) (k + i) = blockAt n b i := by
  rw [blockAt, blockAt, Nat.mul_add, ← ha, ← List.drop_drop, List.drop_left]

theorem length_blockAt {l : List α} {i : ℕ} (h : n * (i + 1) ≤ l.length) :
    (blockAt n l i).length = n := by
  rw [Nat.mul_succ] at h
  rw [blockAt, List.length_take, List.length_drop]
  omega

theorem chainBlocks_of_lt {l : List α} (h : l.length < n) : chainBlocks n f c l = c := by
  rw [chainBlocks, Nat.div_eq_of_lt h]
  rfl

/-- Whole blocks first, then the rest. -/
theorem chainBlocks_append (hn : 0 < n) {a b : List α} {k : ℕ} (ha : a.length = n * k) :
    chainBlocks n f c (a ++ b) = chainBlocks n f (chainBlocks n f c a) b := by
  have hcount : (a ++ b).length / n = k + b.length / n := by
    rw [List.length_append, ha, Nat.mul_add_div hn]
  have hleft : a.length / n = k := by rw [ha, Nat.mul_div_cancel_left k hn]
  rw [chainBlocks, hcount, List.range_add, List.foldl_append, List.foldl_map]
  have hfirst : (List.range k).foldl (fun c i => f c (blockAt n (a ++ b) i)) c =
      chainBlocks n f c a := by
    rw [chainBlocks, hleft]
    refine List.foldl_ext _ _ _ fun c i hi => ?_
    rw [blockAt_append_left ha (List.mem_range.mp hi)]
  rw [hfirst, chainBlocks]
  refine List.foldl_ext _ _ _ fun c i _ => ?_
  rw [blockAt_append_right ha]

theorem chainBlocks_singleton (hn : 0 < n) {b : List α} (hb : b.length = n) :
    chainBlocks n f c b = f c b := by
  rw [chainBlocks, hb, Nat.div_self hn, List.range_one, List.foldl_cons, List.foldl_nil, blockAt,
    Nat.mul_zero, List.drop_zero, List.take_of_length_le hb.le]

/-- The rest of the data, where whole blocks have been taken from it. -/
theorem chainBlocks_append_of_lt (hn : 0 < n) {a b : List α} {k : ℕ} (ha : a.length = n * k)
    (hb : b.length < n) : chainBlocks n f c (a ++ b) = chainBlocks n f c a := by
  rw [chainBlocks_append hn ha, chainBlocks_of_lt hb]

end

/-! ## Machines with a buffer -/

/-- `buffer[off..off + data.len()].copy_from_slice(data)`. -/
def overwrite (buffer : List α) (off : ℕ) (data : List α) : List α :=
  buffer.take off ++ data ++ buffer.drop (off + data.length)

theorem length_overwrite {buffer data : List α} {off : ℕ}
    (h : off + data.length ≤ buffer.length) :
    (overwrite buffer off data).length = buffer.length := by
  simp only [overwrite, List.length_append, List.length_take, List.length_drop]
  omega

theorem take_overwrite {buffer : List α} {off : ℕ} (h : off ≤ buffer.length) (data : List α) :
    (overwrite buffer off data).take (off + data.length) = buffer.take off ++ data := by
  rw [overwrite, List.take_left']
  rw [List.length_append, List.length_take, min_eq_left h]

/-- Of the data `m`, whole blocks have gone through the chain, and the rest is in the buffer. -/
def Absorbed (n : ℕ) (f : σ → List α → σ) (c₀ : σ) (m : List α) (c : σ) (buf : List α) : Prop :=
  ∃ a k, m = a ++ buf ∧ a.length = n * k ∧ c = chainBlocks n f c₀ a

namespace Absorbed

variable {n : ℕ} {f : σ → List α → σ} {c₀ c : σ} {m buf : List α}

theorem nil (n : ℕ) (f : σ → List α → σ) (c₀ : σ) : Absorbed n f c₀ [] c₀ [] :=
  ⟨[], 0, rfl, rfl, by simp [chainBlocks]⟩

/-- More data goes into the buffer. -/
theorem push (h : Absorbed n f c₀ m c buf) (d : List α) : Absorbed n f c₀ (m ++ d) c (buf ++ d) := by
  obtain ⟨a, k, rfl, ha, rfl⟩ := h
  exact ⟨a, k, List.append_assoc a buf d, ha, rfl⟩

/-- A block leaves the buffer. -/
theorem flush (hn : 0 < n) {b rest : List α} (h : Absorbed n f c₀ m c (b ++ rest))
    (hb : b.length = n) : Absorbed n f c₀ m (f c b) rest := by
  obtain ⟨a, k, rfl, ha, rfl⟩ := h
  refine ⟨a ++ b, k + 1, (List.append_assoc a b rest).symm, ?_, ?_⟩
  · rw [List.length_append, ha, hb, Nat.mul_succ]
  · rw [chainBlocks_append hn ha, chainBlocks_singleton hn hb]

/-- A full buffer leaves. -/
theorem flush_full (hn : 0 < n) (h : Absorbed n f c₀ m c buf) (hb : buf.length = n) :
    Absorbed n f c₀ m (f c buf) [] := by
  rw [← List.append_nil buf] at h
  exact h.flush hn hb

/-- The blocks that have gone through the chain. -/
theorem exists_blocks (h : Absorbed n f c₀ m c buf) :
    ∃ a k, m = a ++ buf ∧ a.length = n * k ∧ c = chainBlocks n f c₀ a := h

theorem chain_eq (hn : 0 < n) (h : Absorbed n f c₀ m c buf) (hb : buf.length < n) :
    c = chainBlocks n f c₀ m := by
  obtain ⟨a, k, rfl, ha, rfl⟩ := h
  rw [chainBlocks_append_of_lt hn ha hb]

/-- How full the buffer is. -/
theorem length_modEq (h : Absorbed n f c₀ m c buf) : ∃ k, m.length = n * k + buf.length := by
  obtain ⟨a, k, rfl, ha, rfl⟩ := h
  exact ⟨k, by rw [List.length_append, ha]⟩

end Absorbed

end Ciphra
