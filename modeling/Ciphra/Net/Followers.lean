import Ciphra.Net.Connection

/-!
# Followers

What a connection carries is a path (`Fed`): the records applied on it and those in flight lead from
the state of the snapshot to the present state of the upstream. For a follower of the leader this
gives `one_hop`, for any position of the subscription among the writes and any state the follower
joins with.

A node that applies a snapshot does not send one on, although applying a record is said to
re-broadcast it. `not_chained_before_first_snapshot` is a chain of two replicas that stays apart,
and `chained` the chain as long as no snapshot changes a node that is followed.
-/

namespace Ciphra

namespace Net

open OrdMap

/-! ## What a connection carries -/

section Fed

variable {σ : Type} {Snap : σ → Bytes → Prop} {Eff : σ → Bytes → σ → Prop}
  {At : σ → ByteMap × UInt64 → Prop}

/-- The records of a connection, applied and in flight, lead from a snapshot to the present state of
the upstream; a follower that has applied the snapshot is where the applied ones have led. -/
def Fed (Snap : σ → Bytes → Prop) (Eff : σ → Bytes → σ → Prop) (At : σ → ByteMap × UInt64 → Prop)
    (cur : σ) (follower : ByteMap × UInt64) : List Bytes × List Bytes → Prop
  | ([], flight) => ∃ a r rest, flight = r :: rest ∧ Snap a r ∧ Path Eff a rest cur
  | (r :: applied, flight) =>
    ∃ a₀ a, Snap a₀ r ∧ Path Eff a₀ applied a ∧ At a follower ∧ Path Eff a flight cur

namespace Fed

variable {cur : σ} {follower : ByteMap × UInt64}

theorem connected {r : Bytes} (h : Snap cur r) : Fed Snap Eff At cur follower ([], [r]) :=
  ⟨cur, r, [], rfl, h, .nil cur⟩

theorem sent {cur' : σ} {l : List Bytes × List Bytes} {r : Bytes}
    (h : Fed Snap Eff At cur follower l) (hr : Eff cur r cur') :
    Fed Snap Eff At cur' follower (l.1, l.2 ++ [r]) := by
  obtain ⟨_ | ⟨r₀, applied⟩, flight⟩ := l
  · obtain ⟨a, r', rest, rfl, hsnap, hpath⟩ := h
    exact ⟨a, r', rest ++ [r], rfl, hsnap, hpath.snoc hr⟩
  · obtain ⟨a₀, a, hsnap, happlied, hat, hpath⟩ := h
    exact ⟨a₀, a, hsnap, happlied, hat, hpath.snoc hr⟩

/-- A record that is applied moves the follower along the path. -/
theorem received {st st' : ServerState} {applied rest : List Bytes} {msg : Bytes}
    (hsnap : ∀ a st, Snap a msg → FitsFrame msg →
      At a (applyRecord st soundDisk msg).2.state)
    (heff : ∀ a a' st, Eff a msg a' → At a st.state →
      At a' (applyRecord st soundDisk msg).2.state)
    (h : Fed Snap Eff At cur st.state (applied, msg :: rest)) (hfit : FitsFrame msg)
    (happ : applyRecord st soundDisk msg = (.ok (), st')) :
    Fed Snap Eff At cur st'.state (applied ++ [msg], rest) := by
  have hst' : (applyRecord st soundDisk msg).2 = st' := by rw [happ]
  cases applied with
  | nil =>
    obtain ⟨a, r, rest', heq, hs, hpath⟩ := h
    cases heq
    exact ⟨a, a, hs, .nil a, hst' ▸ hsnap a st hs hfit, hpath⟩
  | cons r₀ applied =>
    obtain ⟨a₀, a, hs, happlied, hat, hpath⟩ := h
    cases hpath with
    | cons hr hrest => exact ⟨a₀, _, hs, happlied.snoc hr, hst' ▸ heff _ _ st hr hat, hrest⟩

/-- Nothing in flight: the follower has caught up. -/
theorem caughtUp {applied : List Bytes} (h : Fed Snap Eff At cur follower (applied, [])) :
    At cur follower := by
  cases applied with
  | nil =>
    obtain ⟨a, r, rest, heq, -⟩ := h
    cases heq
  | cons r₀ applied =>
    obtain ⟨a₀, a, -, -, hat, hpath⟩ := h
    cases hpath
    exact hat

end Fed

/-- The follower after the records have been applied. -/
def applyRecords (st : ServerState) (msgs : List Bytes) : ServerState :=
  msgs.foldl (fun st msg => (applyRecord st soundDisk msg).2) st

theorem applyRecords_path
    (heff : ∀ a r a' st, Eff a r a' → At a st.state → At a' (applyRecord st soundDisk r).2.state)
    {a a' : σ} {msgs : List Bytes} (h : Path Eff a msgs a') {st : ServerState} (hat : At a st.state) :
    At a' (applyRecords st msgs).state := by
  induction h generalizing st with
  | nil a => exact hat
  | cons hr _ ih => exact ih (heff _ _ _ st hr hat)

end Fed

/-! ## Following the leader -/

/-- The state of a node at a sequence number of the leader. -/
def AtSeq (maps : List ByteMap) (n : ℕ) (a : ByteMap × UInt64) : Prop :=
  maps[n]? = some a.1 ∧ a.2 = UInt64.ofNat n

/-- The snapshot of the leader at a sequence number. -/
def SnapAt (maps : List ByteMap) (n : ℕ) (r : Bytes) : Prop :=
  ∃ m, maps[n]? = some m ∧ r = record recSnapshot (UInt64.ofNat n) (encodePairs m.toList)

/-- The batch that leads to the next sequence number. -/
def EffAt (maps : List ByteMap) (n : ℕ) (r : Bytes) (n' : ℕ) : Prop :=
  n' = n + 1 ∧ ∃ m b body, maps[n]? = some m ∧ maps[n + 1]? = some (applyAll m b) ∧
    decodeBatch body = .ok b ∧ r = record recBatch (UInt64.ofNat (n + 1)) body

theorem atSeq_applyRecord_snapshot {maps : List ByteMap} {n : ℕ} {r : Bytes} (st : ServerState)
    (h : SnapAt maps n r) (hfit : FitsFrame r) :
    AtSeq maps n (applyRecord st soundDisk r).2.state := by
  obtain ⟨m, hm, rfl⟩ := h
  have hlt := length_lt_of_fitsFrame hfit
  rw [record, List.length_cons, List.length_append, length_leBytes] at hlt
  obtain ⟨st', happ, hst'⟩ := applyRecord_snapshot st (UInt64.ofNat n)
    (pairsFit_of_length (by omega) : PairsFit m.toList)
  rw [happ]
  simp only [hst']
  exact ⟨hm, rfl⟩

theorem atSeq_applyRecord_batch {maps : List ByteMap} {n n' : ℕ} {r : Bytes} {st : ServerState}
    (h : EffAt maps n r n') (hat : AtSeq maps n st.state) :
    AtSeq maps n' (applyRecord st soundDisk r).2.state := by
  obtain ⟨rfl, m, b, body, hm, hm', hb, rfl⟩ := h
  obtain rfl : m = st.storage.map := Option.some.inj (hm.symm.trans hat.1)
  rw [applyRecord_batch st _ hb]
  refine ⟨?_, rfl⟩
  rw [hm', ServerState.state, write_ok_map]
  rfl

theorem getElem?_append_of_some {maps : List ByteMap} {n : ℕ} {m : ByteMap} (m' : ByteMap)
    (h : maps[n]? = some m) : (maps ++ [m'])[n]? = some m := by
  rw [List.getElem?_append_left (List.getElem?_eq_some_iff.mp h).1, h]

theorem SnapAt.mono {maps : List ByteMap} {n : ℕ} {r : Bytes} (m' : ByteMap)
    (h : SnapAt maps n r) : SnapAt (maps ++ [m']) n r := by
  obtain ⟨m, hm, hr⟩ := h
  exact ⟨m, getElem?_append_of_some m' hm, hr⟩

theorem EffAt.mono {maps : List ByteMap} {n n' : ℕ} {r : Bytes} (m' : ByteMap)
    (h : EffAt maps n r n') : EffAt (maps ++ [m']) n r n' := by
  obtain ⟨rfl, m, b, body, hm, hmb, hb, hr⟩ := h
  exact ⟨rfl, m, b, body, getElem?_append_of_some m' hm, getElem?_append_of_some m' hmb, hb, hr⟩

theorem fed_mono {maps : List ByteMap} {n : ℕ} {follower : ByteMap × UInt64}
    {l : List Bytes × List Bytes} (m' : ByteMap)
    (h : Fed (SnapAt maps) (EffAt maps) (AtSeq maps) n follower l) :
    Fed (SnapAt (maps ++ [m'])) (EffAt (maps ++ [m'])) (AtSeq (maps ++ [m'])) n follower l := by
  have hmono : ∀ a r b, EffAt maps a r b → EffAt (maps ++ [m']) a r b :=
    fun a r b hr => hr.mono m'
  obtain ⟨_ | ⟨r₀, applied⟩, flight⟩ := l
  · obtain ⟨a, r, rest, rfl, hsnap, hpath⟩ := h
    exact ⟨a, r, rest, rfl, hsnap.mono m', hpath.mono hmono⟩
  · obtain ⟨a₀, a, hsnap, happlied, hat, hpath⟩ := h
    exact ⟨a₀, a, hsnap.mono m', happlied.mono hmono, ⟨getElem?_append_of_some m' hat.1, hat.2⟩,
      hpath.mono hmono⟩

/-- The maps of the leader, one for each sequence number, and a follower fed with them. -/
structure Follows (maps : List ByteMap) (v : Network.View) : Prop where
  current : AtSeq maps (maps.length - 1) v.upstream
  fed : ∀ l, v.link = some l →
    Fed (SnapAt maps) (EffAt maps) (AtSeq maps) (maps.length - 1) v.follower l

/-- The next map, once the sequence number has moved. -/
def nextMaps (maps : List ByteMap) (v v' : Network.View) : List ByteMap :=
  if v'.upstream.2 = v.upstream.2 then maps else maps ++ [v'.upstream.1]

theorem ofNat_succ (n : ℕ) : UInt64.ofNat (n + 1) = UInt64.ofNat n + 1 := by
  rw [UInt64.ofNat_add]
  rfl

/-- **One step of a follower of the leader.** -/
theorem Follows.step {maps : List ByteMap} {v v' : Network.View} (h : Follows maps v)
    (hs : Network.ViewStep True (fun _ _ => False) v v') :
    Follows (nextMaps maps v v') v' := by
  have hsame : ∀ follower link, nextMaps maps v ⟨v.upstream, follower, link⟩ = maps :=
    fun _ _ => if_pos rfl
  have hpos : 0 < maps.length := by
    have := (List.getElem?_eq_some_iff.mp h.current.1).1
    omega
  cases hs with
  | quiet =>
    rw [hsame]
    exact h
  | replaced a hrep => exact hrep.elim
  | sent s body b hb hseq =>
    obtain rfl := hseq trivial
    have hne : v.upstream.2 + 1 ≠ v.upstream.2 := by
      intro he
      have := congrArg UInt64.toNat he
      rw [UInt64.toNat_add] at this
      have hlt := v.upstream.2.toNat_lt
      simp only [UInt64.toNat_one] at this
      omega
    have hmaps : nextMaps maps v { v with
        upstream := (applyAll v.upstream.1 b, v.upstream.2 + 1)
        link := v.link.map fun l => (l.1, l.2 ++ [record recBatch (v.upstream.2 + 1) body]) } =
        maps ++ [applyAll v.upstream.1 b] := by
      rw [nextMaps, if_neg hne]
    rw [hmaps]
    obtain ⟨n, hn⟩ : ∃ n, maps.length = n + 1 := ⟨maps.length - 1, by omega⟩
    obtain ⟨⟨hcur, hseq⟩, hfed⟩ := h
    have hlast : (maps ++ [applyAll v.upstream.1 b]).length - 1 = n + 1 := by simp [hn]
    have hnew : (maps ++ [applyAll v.upstream.1 b])[n + 1]? = some (applyAll v.upstream.1 b) := by
      rw [← hn]
      simp
    have hold : maps.length - 1 = n := by omega
    rw [hold] at hcur hseq hfed
    rw [hseq, ← ofNat_succ]
    refine ⟨?_, ?_⟩
    · rw [hlast]
      exact ⟨hnew, rfl⟩
    · intro l hl
      rw [hlast]
      obtain ⟨l', hl', rfl⟩ := Option.map_eq_some_iff.mp hl
      refine (fed_mono _ (hfed l' hl')).sent ⟨rfl, v.upstream.1, b, body, ?_, hnew, hb, rfl⟩
      exact getElem?_append_of_some _ hcur
  | connected hnone =>
    rw [hsame]
    refine ⟨h.current, fun l hl => ?_⟩
    cases hl
    refine .connected ⟨v.upstream.1, h.current.1, ?_⟩
    rw [h.current.2]
  | received applied msg rest st st' hl hfit hst happ =>
    rw [hsame]
    refine ⟨h.current, fun l hl' => ?_⟩
    cases hl'
    refine .received (fun a st => atSeq_applyRecord_snapshot st)
      (fun a a' st hr hat => atSeq_applyRecord_batch hr hat) ?_ hfit happ
    rw [hst]
    exact h.fed _ hl
  | lost =>
    rw [hsame]
    exact ⟨h.current, fun l hl => by cases hl⟩

/-- Kind and sequence number of a record. -/
def recordHead (msg : Bytes) : UInt8 × UInt64 :=
  (msg.headD 0, UInt64.ofNat (leNat ((msg.drop 1).take 8)))

theorem recordHead_record (kind : UInt8) (s : UInt64) (body : Bytes) :
    recordHead (record kind s body) = (kind, s) := by
  have hseq : UInt64.ofNat (leNat ((leBytes 8 s.toNat ++ body).take 8)) = s := by
    rw [leNat_take_leBytes, Nat.mod_eq_of_lt (show s.toNat < 256 ^ 8 from s.toNat_lt)]
    exact UInt64.ofNat_toNat
  exact Prod.ext rfl hseq

/-- The batches of a path carry consecutive sequence numbers. -/
theorem map_recordHead_path {maps : List ByteMap} {n n' : ℕ} {msgs : List Bytes}
    (h : Path (EffAt maps) n msgs n') :
    n' = n + msgs.length ∧ msgs.map recordHead =
      (List.range' (n + 1) msgs.length).map fun j => (recBatch, UInt64.ofNat j) := by
  induction h with
  | nil a => exact ⟨rfl, rfl⟩
  | cons hr _ ih =>
    obtain ⟨rfl, m, b, body, -, -, -, rfl⟩ := hr
    obtain ⟨hn, hmsgs⟩ := ih
    refine ⟨by rw [hn, List.length_cons]; omega, ?_⟩
    rw [List.map_cons, recordHead_record, hmsgs, List.length_cons, List.range'_succ, List.map_cons]

namespace Network

variable {ι : Type} [DecidableEq ι] {upstream : ι → Option ι} {net net₀ : Network ι}

/-- The maps of a node along a run, one for each sequence number it has had. -/
def maps (upstream : ι → Option ι) (u : ι) (net : Network ι) (actions : List (Action ι)) :
    List ByteMap :=
  ghostRun (step upstream)
    (fun net maps a =>
      let st := (step upstream net a).node u
      if st.seq = (net.node u).seq then maps else maps ++ [st.storage.map])
    net [(net.node u).storage.map] actions

omit [DecidableEq ι] in
theorem inFlight_eq {u i : ι} (hi : upstream i = some u) {l : Link} (hl : net.link i = some l) :
    (net.view u i).link = some (l.received, net.inFlight upstream i) := by
  simp [view, inFlight, hi, hl]

/-- **A follower of the leader** is fed with the leader's maps along every run. -/
theorem follows_run (h : Start upstream net₀) {ℓ i : ι} (hℓ : upstream ℓ = none)
    (hi : upstream i = some ℓ) (actions : List (Action ι)) :
    Follows (maps upstream ℓ net₀ actions) ((run upstream net₀ actions).view ℓ i) := by
  have hne : i ≠ ℓ := by
    rintro rfl
    rw [hi] at hℓ
    cases hℓ
  have hall : Along (step upstream) (fun _ _ => True) net₀ actions := .of_forall (by simp) _ _
  have hinit : Wired upstream net₀ ∧
      Follows [(net₀.node ℓ).storage.map] (net₀.view ℓ i) := by
    refine ⟨h.wired, ⟨rfl, ?_⟩, fun l hl => ?_⟩
    · exact h.seq ℓ
    · simp [view, h.link] at hl
  refine (Along.invariant_ghost (I := fun net maps => Wired upstream net ∧
    Follows maps (net.view ℓ i)) ?_ hinit hall).2
  rintro net maps a ⟨hw, hf⟩ -
  refine ⟨wired_step hw a, ?_⟩
  have hstep : ViewStep (upstream ℓ = none) (fun _ _ => False) (net.view ℓ i)
      ((step upstream net a).view ℓ i) := by
    refine view_step hw hi hne a ?_
    rintro - sub s body wire received pairs hl -
    obtain ⟨v, -, hv, -⟩ := hw.channel ℓ _ hl
    rw [hℓ] at hv
    cases hv
  simp only [hℓ] at hstep
  exact hf.step hstep

/-- **Replication, one hop.** Along every run, a connected follower of the leader that has applied
its snapshot and `k` batches holds the leader's map at the sequence number it stores, `k` after the
snapshot's; the records of its connection, applied and in flight, are the snapshot and batches with
consecutive sequence numbers; and applying what is in flight leads to the leader's present map and
sequence number. -/
theorem one_hop (h : Start upstream net₀) {ℓ i : ι} (hℓ : upstream ℓ = none)
    (hi : upstream i = some ℓ) (actions : List (Action ι)) :
    let net := run upstream net₀ actions
    let maps := maps upstream ℓ net₀ actions
    AtSeq maps (maps.length - 1) (net.node ℓ).state ∧
      ∀ l, net.link i = some l → ∀ k, l.received.length = k + 1 →
        ∃ n, AtSeq maps (n + k) (net.node i).state ∧
          (l.received ++ net.inFlight upstream i).map recordHead =
            (recSnapshot, UInt64.ofNat n) ::
              (List.range' (n + 1) (k + (net.inFlight upstream i).length)).map
                (fun j => (recBatch, UInt64.ofNat j)) ∧
          (applyRecords (net.node i) (net.inFlight upstream i)).state = (net.node ℓ).state := by
  intro net maps
  obtain ⟨hcur, hfed⟩ := follows_run h hℓ hi actions
  refine ⟨hcur, fun l hl k hk => ?_⟩
  have hfed := hfed _ (inFlight_eq hi hl)
  obtain ⟨sub, wire, received⟩ := l
  cases received with
  | nil => cases hk
  | cons r applied =>
    obtain ⟨n, n', ⟨m, hm, rfl⟩, happlied, hat, hpath⟩ := hfed
    obtain ⟨rfl, hheads⟩ := map_recordHead_path happlied
    obtain ⟨-, hheads'⟩ := map_recordHead_path hpath
    obtain rfl : applied.length = k := by simpa using hk
    refine ⟨n, hat, ?_, ?_⟩
    · rw [List.map_append, List.map_cons, recordHead_record, hheads, hheads', List.cons_append,
        ← List.map_append, Nat.add_right_comm, List.range'_append_1]
    · have hend : AtSeq maps _ (applyRecords (net.node i) (net.inFlight upstream i)).state :=
        applyRecords_path (fun a r a' st hr hat => atSeq_applyRecord_batch hr hat) hpath hat
      refine Prod.ext ?_ ?_
      · exact Option.some.inj (hend.1.symm.trans hcur.1)
      · exact hend.2.trans hcur.2.symm

/-- A chain of three nodes: the leader, its replica and the replica of that. -/
def chain : Fin 3 → Option (Fin 3)
  | 0 => none
  | 1 => some 0
  | 2 => some 1

/-- The chain with empty stores. -/
def emptyChain : Network (Fin 3) where
  node i := ⟨⟨∅, []⟩, (chain i).isSome, 0, []⟩
  link _ := none
  nextSub := 0
  gone := []

theorem start_emptyChain : Start chain emptyChain :=
  ⟨fun _ => rfl, fun _ => rfl, fun _ => rfl, fun _ => rfl, rfl⟩

/-- A follower that joins between two writes, with the second one in flight. -/
theorem one_hop_joined_between :
    let actions : List (Action (Fin 3)) := [.request 0 (Call.put [1] [2]).request, .subscribe 1,
      .deliver 1, .request 0 (Call.delete [1]).request]
    let net := run chain emptyChain actions
    (net.inFlight chain 1).length = 1 ∧
      (applyRecords (net.node 1) (net.inFlight chain 1)).state = (net.node 0).state := by
  intro actions net
  have hlink : ∃ l, net.link 1 = some l ∧ l.received.length = 0 + 1 := ⟨_, rfl, rfl⟩
  obtain ⟨l, hl, hk⟩ := hlink
  obtain ⟨n, -, -, happly⟩ := (one_hop start_emptyChain (ℓ := 0) (i := 1) rfl rfl actions).2 l hl 0 hk
  exact ⟨by decide, happly⟩

end Network

/-! ## Following a follower -/

/-- A snapshot of a map. -/
def SnapOf (m : ByteMap) (r : Bytes) : Prop :=
  ∃ s, r = record recSnapshot s (encodePairs m.toList)

/-- A batch that leads from one map to another. -/
def EffOf (m : ByteMap) (r : Bytes) (m' : ByteMap) : Prop :=
  ∃ s body b, decodeBatch body = .ok b ∧ r = record recBatch s body ∧ m' = applyAll m b

/-- A node that holds a map. -/
def Holds (m : ByteMap) (a : ByteMap × UInt64) : Prop := a.1 = m

theorem holds_applyRecord_snapshot {m : ByteMap} {r : Bytes} (st : ServerState) (h : SnapOf m r)
    (hfit : FitsFrame r) : Holds m (applyRecord st soundDisk r).2.state := by
  obtain ⟨s, rfl⟩ := h
  have hlt := length_lt_of_fitsFrame hfit
  rw [record, List.length_cons, List.length_append, length_leBytes] at hlt
  obtain ⟨st', happ, hst'⟩ := applyRecord_snapshot st s
    (pairsFit_of_length (by omega) : PairsFit m.toList)
  rw [happ, Holds]
  simp only [hst']

theorem holds_applyRecord_batch {m m' : ByteMap} {r : Bytes} {st : ServerState}
    (h : EffOf m r m') (hat : Holds m st.state) : Holds m' (applyRecord st soundDisk r).2.state := by
  obtain ⟨s, body, b, hb, rfl, rfl⟩ := h
  obtain rfl : st.storage.map = m := hat
  rw [applyRecord_batch st s hb, Holds, ServerState.state, write_ok_map]
  rfl

/-- A follower is fed with the maps of its upstream. -/
def Mirrors (v : Network.View) : Prop :=
  ∀ l, v.link = some l → Fed SnapOf EffOf Holds v.upstream.1 v.follower l

/-- A snapshot may replace the upstream's state while nobody follows, or where it has the map the
upstream has. -/
def Unseen (v : Network.View) (a : ByteMap × UInt64) : Prop := v.link = none ∨ a.1 = v.upstream.1

/-- **One step of a follower** whose upstream may be a follower itself. -/
theorem Mirrors.step {leader : Prop} {v v' : Network.View} (h : Mirrors v)
    (hs : Network.ViewStep leader Unseen v v') : Mirrors v' := by
  cases hs with
  | quiet => exact h
  | replaced a hrep =>
    intro l hl
    rcases hrep with hnone | hmap
    · rw [hnone] at hl
      cases hl
    · simp only [hmap]
      exact h l hl
  | sent s body b hb hseq =>
    intro l hl
    obtain ⟨l', hl', rfl⟩ := Option.map_eq_some_iff.mp hl
    exact (h l' hl').sent ⟨s, body, b, hb, rfl, rfl⟩
  | connected hnone =>
    intro l hl
    cases hl
    exact .connected ⟨v.upstream.2, rfl⟩
  | received applied msg rest st st' hl hfit hst happ =>
    intro l hl'
    cases hl'
    refine .received (fun a st => holds_applyRecord_snapshot st)
      (fun a a' st hr hat => holds_applyRecord_batch hr hat) ?_ hfit happ
    rw [hst]
    exact h _ hl
  | lost =>
    intro l hl
    cases hl

namespace Network

variable {ι : Type} [DecidableEq ι] {upstream : ι → Option ι} {net net₀ : Network ι}

/-- The step does not change the map of `u` by a snapshot while `i` follows: when `u` is about to
apply a snapshot, `i` is not connected, or the pairs of the snapshot are those `u` has. -/
def Undisturbed (u i : ι) (net : Network ι) (a : Action ι) : Prop :=
  a = .deliver u → ∀ sub s body wire received pairs,
    net.link u = some ⟨sub, record recSnapshot s body :: wire, received⟩ →
    decodePairs body = .ok pairs →
    net.link i = none ∨ pairs = (net.node u).storage.map.toList

theorem mirrors_run (h : Start upstream net₀) {u i : ι} (hi : upstream i = some u) (hne : i ≠ u)
    {actions : List (Action ι)} (hun : Along (step upstream) (Undisturbed u i) net₀ actions) :
    Mirrors ((run upstream net₀ actions).view u i) := by
  have hinit : Wired upstream net₀ ∧ Mirrors (net₀.view u i) := by
    refine ⟨h.wired, fun l hl => ?_⟩
    simp [view, h.link] at hl
  refine (Along.invariant (I := fun net => Wired upstream net ∧ Mirrors (net.view u i))
    ?_ hinit hun).2
  rintro net a ⟨hw, hm⟩ hun
  refine ⟨wired_step hw a, hm.step (view_step hw hi hne a ?_)⟩
  intro ha sub s body wire received pairs hl hpairs
  rcases hun ha sub s body wire received pairs hl hpairs with hnone | rfl
  · left
    simp [view, hnone]
  · right
    exact applyAll_snapshotBatch _ _

/-- The leader never applies a snapshot. -/
theorem undisturbed_leader (h : Start upstream net₀) {ℓ : ι} (hℓ : upstream ℓ = none) (i : ι)
    (actions : List (Action ι)) :
    Along (step upstream) (Undisturbed ℓ i) net₀ actions := by
  have hw := h.wired
  clear h
  induction actions generalizing net₀ with
  | nil => trivial
  | cons a actions ih =>
    refine ⟨fun _ sub s body wire received pairs hl _ => ?_, ih (wired_step hw a)⟩
    obtain ⟨v, -, hv, -⟩ := hw.channel ℓ _ hl
    rw [hℓ] at hv
    cases hv

omit [DecidableEq ι] in
/-- A connected follower with nothing in flight has caught up. -/
theorem Mirrors.caughtUp {u i : ι} (hm : Mirrors (net.view u i)) (hi : upstream i = some u)
    (hlink : (net.link i).isSome) (hflight : net.inFlight upstream i = []) :
    (net.node i).storage.map = (net.node u).storage.map := by
  obtain ⟨l, hl⟩ := Option.isSome_iff_exists.mp hlink
  have hfed := hm _ (inFlight_eq hi hl)
  rw [hflight] at hfed
  exact hfed.caughtUp

/-- **Replication, chained.** Along every run in which no snapshot changes the middle node while
the last one follows it, a chain that is connected and has nothing in flight agrees. -/
theorem chained (h : Start upstream net₀) {L M F : ι} (hL : upstream L = none)
    (hM : upstream M = some L) (hF : upstream F = some M) (actions : List (Action ι))
    (hun : Along (step upstream) (Undisturbed M F) net₀ actions) :
    let net := run upstream net₀ actions
    (net.link M).isSome → (net.link F).isSome →
    net.inFlight upstream M = [] → net.inFlight upstream F = [] →
    (net.node F).storage.map = (net.node M).storage.map ∧
      (net.node M).storage.map = (net.node L).storage.map := by
  intro net hlinkM hlinkF hflightM hflightF
  have hML : M ≠ L := by
    rintro rfl
    rw [hL] at hM
    cases hM
  have hFM : F ≠ M := by
    rintro rfl
    rw [hM] at hF
    exact hML (Option.some.inj hF).symm
  have hmF := mirrors_run h hF hFM hun
  have hmM := mirrors_run h hM hML (undisturbed_leader h hL M actions)
  exact ⟨Mirrors.caughtUp hmF hF hlinkF hflightF, Mirrors.caughtUp hmM hM hlinkM hflightM⟩

/-- The middle node joins first: the chain agrees. -/
theorem chained_in_order :
    let actions : List (Action (Fin 3)) := [.subscribe 1, .deliver 1, .subscribe 2, .deliver 2,
      .request 0 (Call.put [1] [2]).request, .push 1, .deliver 1, .push 2, .deliver 2]
    let net := run chain emptyChain actions
    (net.node 2).storage.map[([1] : Bytes)]? = some [2] ∧
      (net.node 2).storage.map = (net.node 1).storage.map := by
  intro actions net
  have hun : Along (step chain) (Undisturbed 1 2) emptyChain actions := by
    have hother : ∀ net a, a ≠ .deliver 1 → Undisturbed (1 : Fin 3) 2 net a :=
      fun net a hne ha => absurd ha hne
    refine ⟨hother _ _ nofun, ?_, hother _ _ nofun, hother _ _ nofun, hother _ _ nofun,
      hother _ _ nofun, ?_, hother _ _ nofun, hother _ _ nofun, trivial⟩
    · -- nobody follows the middle node when it gets its snapshot
      intro _ _ _ _ _ _ _ _ _
      exact .inl rfl
    · -- the second record it gets is a batch
      intro _ sub s body wire received pairs hl _
      have hkind := congrArg (Option.map fun l => (l.wire.headD []).headD 0) hl
      cases hkind
  exact ⟨by decide, (chained start_emptyChain (L := 0) rfl rfl rfl actions hun (by decide)
    (by decide) (by decide) (by decide)).1⟩

/-- The last node subscribes before the middle one has applied its first snapshot: the chain is
connected, nothing is in flight, and the last node does not have what the other two have. -/
theorem not_chained_before_first_snapshot :
    let actions : List (Action (Fin 3)) := [.request 0 (Call.put [1] [2]).request, .subscribe 2,
      .deliver 2, .subscribe 1, .deliver 1]
    let net := run chain emptyChain actions
    Start chain emptyChain ∧ (net.link 1).isSome ∧ (net.link 2).isSome ∧
      net.inFlight chain 1 = [] ∧ net.inFlight chain 2 = [] ∧
      (net.node 1).storage.map[([1] : Bytes)]? = some [2] ∧
      (net.node 2).storage.map[([1] : Bytes)]? = none := by
  refine ⟨start_emptyChain, ?_⟩
  decide

end Network

end Net

end Ciphra
