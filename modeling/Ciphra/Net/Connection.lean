import Ciphra.Net.Replication

/-!
# Connections

The network seen from one connection. `Wired` says that channels have names of their own and that
every connection has its channel; every step keeps it. What a step can do to a follower and its
upstream is then one of six things (`ViewStep`), and `view_step` is the inversion: every invariant
of a connection is proved over these six cases, not over the actions of the network.
-/

namespace Ciphra

namespace Net

open OrdMap
open Storage (Io)

/-! ## Connections -/

namespace Network

variable {ι : Type} [DecidableEq ι] {upstream : ι → Option ι} {net : Network ι}

@[simp] theorem node_setNode (i j : ι) (st : ServerState) :
    (net.setNode i st).node j = if j = i then st else net.node j := by
  simp [setNode, Function.update_apply]

@[simp] theorem link_setNode (i : ι) (st : ServerState) : (net.setNode i st).link = net.link := rfl

@[simp] theorem nextSub_setNode (i : ι) (st : ServerState) :
    (net.setNode i st).nextSub = net.nextSub := rfl

@[simp] theorem gone_setNode (i : ι) (st : ServerState) : (net.setNode i st).gone = net.gone := rfl

@[simp] theorem node_setLink (i : ι) (l : Option Link) : (net.setLink i l).node = net.node := rfl

@[simp] theorem link_setLink (i j : ι) (l : Option Link) :
    (net.setLink i l).link j = if j = i then l else net.link j := by
  simp [setLink, Function.update_apply]

@[simp] theorem nextSub_setLink (i : ι) (l : Option Link) :
    (net.setLink i l).nextSub = net.nextSub := rfl

@[simp] theorem node_drop (i : ι) (l : Link) : (net.drop i l).node = net.node := rfl

@[simp] theorem link_drop (i j : ι) (l : Link) :
    (net.drop i l).link j = if j = i then none else net.link j := link_setLink ..

@[simp] theorem gone_setLink (i : ι) (l : Option Link) : (net.setLink i l).gone = net.gone := rfl

/-- Channels have names of their own, and every connection has its channel. -/
structure Wired (upstream : ι → Option ι) (net : Network ι) : Prop where
  readOnly : ∀ i, (net.node i).readOnly = (upstream i).isSome
  subs_lt : ∀ u, ∀ sub ∈ (net.node u).subscribers, sub.id < net.nextSub
  link_lt : ∀ i l, net.link i = some l → l.sub < net.nextSub
  gone_lt : ∀ id ∈ net.gone, id < net.nextSub
  notGone : ∀ i l, net.link i = some l → l.sub ∉ net.gone
  distinct : ∀ i j l l', net.link i = some l → net.link j = some l' → l.sub = l'.sub → i = j
  channel : ∀ i l, net.link i = some l →
    ∃ u q, upstream i = some u ∧ queueOf (net.node u).subscribers l.sub = some q

omit [DecidableEq ι] in
theorem Start.wired (h : Start upstream net) : Wired upstream net where
  readOnly := h.readOnly
  subs_lt u sub hsub := by simp [h.subscribers] at hsub
  link_lt i l hl := by simp [h.link] at hl
  gone_lt id hid := by simp [h.gone] at hid
  notGone i l hl := by simp [h.link] at hl
  distinct i j l l' hl := by simp [h.link] at hl
  channel i l hl := by simp [h.link] at hl

/-- A node keeps its kind, gets no channels and loses none but those given up. -/
structure Kept (gone : List ℕ) (st st' : ServerState) : Prop where
  readOnly : st'.readOnly = st.readOnly
  subs_lt : ∀ n, (∀ sub ∈ st.subscribers, sub.id < n) → ∀ sub ∈ st'.subscribers, sub.id < n
  channel : ∀ id ∉ gone, ∀ q, queueOf st.subscribers id = some q →
    ∃ q', queueOf st'.subscribers id = some q'

theorem Kept.refl (gone : List ℕ) (st : ServerState) : Kept gone st st :=
  ⟨rfl, fun _ h => h, fun _ _ q hq => ⟨q, hq⟩⟩

theorem Kept.broadcast {gone : List ℕ} {st st' : ServerState} {msg : Bytes}
    (hro : st'.readOnly = st.readOnly)
    (hsubs : st'.subscribers = Net.broadcast st.subscribers msg) : Kept gone st st' := by
  refine ⟨hro, fun n h sub hsub => ?_, fun id _ q hq => ⟨q ++ [msg], ?_⟩⟩
  · rw [hsubs, Net.broadcast] at hsub
    obtain ⟨sub', hsub', rfl⟩ := List.mem_map.mp hsub
    exact h sub' (List.mem_of_mem_filter hsub')
  · rw [hsubs, queueOf_broadcast, hq]
    rfl

theorem kept_handleRequest (gone : List ℕ) (st : ServerState) (disk : Disk) (request : Bytes) :
    Kept gone st (handleRequest st disk request).2 := by
  have hspec := handleRequest_spec st disk request
  generalize (handleRequest st disk request).1 = r at hspec
  generalize (handleRequest st disk request).2 = st' at hspec
  cases hspec with
  | answered => exact .refl _ _
  | written => exact .broadcast rfl rfl
  | failed => exact ⟨rfl, fun _ h => h, fun _ _ q hq => ⟨q, hq⟩⟩

theorem kept_applyRecord (gone : List ℕ) (st : ServerState) (msg : Bytes) :
    Kept gone st (applyRecord st soundDisk msg).2 := by
  have hspec := applyRecord_spec st msg
  generalize (applyRecord st soundDisk msg).1 = r at hspec
  generalize (applyRecord st soundDisk msg).2 = st' at hspec
  cases hspec with
  | refused => exact .refl _ _
  | snapshot => exact ⟨rfl, fun _ h => h, fun _ _ q hq => ⟨q, hq⟩⟩
  | batch => exact .broadcast rfl rfl

theorem kept_popQueue (gone : List ℕ) (st : ServerState) (id : ℕ) :
    Kept gone st { st with subscribers := popQueue st.subscribers id } := by
  refine ⟨rfl, fun n h sub hsub => ?_, fun id' _ q hq => ?_⟩
  · obtain ⟨sub', hsub', rfl⟩ := List.mem_map.mp hsub
    have := h sub' hsub'
    split <;> exact this
  · by_cases hid : id = id'
    · subst hid
      exact ⟨q.tail, by rw [queueOf_popQueue_self, hq]; rfl⟩
    · exact ⟨q, by rw [queueOf_popQueue_of_ne hid, hq]⟩

theorem kept_closeQueue {gone : List ℕ} {id : ℕ} (hid : id ∈ gone) (st : ServerState) :
    Kept gone st { st with subscribers := closeQueue st.subscribers id } := by
  refine ⟨rfl, fun n h sub hsub => ?_, fun id' hid' q hq => ⟨q, ?_⟩⟩
  · obtain ⟨sub', hsub', rfl⟩ := List.mem_map.mp hsub
    have := h sub' hsub'
    split <;> exact this
  · have hne : id ≠ id' := by
      rintro rfl
      exact hid' hid
    rw [queueOf_closeQueue_of_ne hne, hq]

namespace Wired

theorem setNode (h : Wired upstream net) {i : ι} {st : ServerState}
    (hk : Kept net.gone (net.node i) st) : Wired upstream (net.setNode i st) where
  readOnly j := by
    rw [node_setNode]
    split
    · rename_i hj
      rw [hk.readOnly, h.readOnly, hj]
    · exact h.readOnly j
  subs_lt u sub hsub := by
    rw [node_setNode] at hsub
    split at hsub
    · exact hk.subs_lt _ (h.subs_lt i) sub hsub
    · exact h.subs_lt u sub hsub
  link_lt := h.link_lt
  gone_lt := h.gone_lt
  notGone := h.notGone
  distinct := h.distinct
  channel j l hl := by
    obtain ⟨u, q, hu, hq⟩ := h.channel j l hl
    by_cases hui : u = i
    · subst hui
      obtain ⟨q', hq'⟩ := hk.channel _ (h.notGone j l hl) q hq
      exact ⟨u, q', hu, by simpa using hq'⟩
    · exact ⟨u, q, hu, by simpa [hui] using hq⟩

/-- A connection goes on on the same channel. -/
theorem setLink (h : Wired upstream net) {i : ι} {l l' : Link} (hl : net.link i = some l)
    (hsub : l'.sub = l.sub) : Wired upstream (net.setLink i (some l')) := by
  -- every connection after the step has the channel of one before it
  have hold : ∀ j k, (net.setLink i (some l')).link j = some k →
      ∃ k', net.link j = some k' ∧ k.sub = k'.sub := by
    intro j k hk
    rw [link_setLink] at hk
    split at hk
    · rename_i hj
      cases hk
      exact ⟨l, hj ▸ hl, hsub⟩
    · exact ⟨k, hk, rfl⟩
  refine ⟨h.readOnly, h.subs_lt, ?_, h.gone_lt, ?_, ?_, ?_⟩
  · intro j k hk
    obtain ⟨k', hk', he⟩ := hold j k hk
    exact he ▸ h.link_lt j k' hk'
  · intro j k hk
    obtain ⟨k', hk', he⟩ := hold j k hk
    exact he ▸ h.notGone j k' hk'
  · intro j₁ j₂ k₁ k₂ hk₁ hk₂ he
    obtain ⟨k₁', hk₁', he₁⟩ := hold j₁ k₁ hk₁
    obtain ⟨k₂', hk₂', he₂⟩ := hold j₂ k₂ hk₂
    exact h.distinct j₁ j₂ k₁' k₂' hk₁' hk₂' (by rw [← he₁, ← he₂, he])
  · intro j k hk
    obtain ⟨k', hk', he⟩ := hold j k hk
    exact he ▸ h.channel j k' hk'

theorem drop (h : Wired upstream net) {i : ι} {l : Link} (hl : net.link i = some l) :
    Wired upstream (net.drop i l) := by
  have hold : ∀ j k, (net.drop i l).link j = some k → j ≠ i ∧ net.link j = some k := by
    intro j k hk
    have hk' : (net.setLink i none).link j = some k := hk
    rw [link_setLink] at hk'
    split at hk'
    · cases hk'
    · exact ⟨‹_›, hk'⟩
  refine ⟨h.readOnly, h.subs_lt, ?_, ?_, ?_, ?_, ?_⟩
  · intro j k hk
    exact h.link_lt j k (hold j k hk).2
  · intro id hid
    rcases List.mem_cons.mp hid with rfl | hid
    · exact h.link_lt i l hl
    · exact h.gone_lt id hid
  · intro j k hk hmem
    obtain ⟨hne, hk⟩ := hold j k hk
    rcases List.mem_cons.mp hmem with he | hmem
    · exact hne (h.distinct j i k l hk hl he)
    · exact h.notGone j k hk hmem
  · intro j₁ j₂ k₁ k₂ hk₁ hk₂
    exact h.distinct j₁ j₂ k₁ k₂ (hold j₁ k₁ hk₁).2 (hold j₂ k₂ hk₂).2
  · intro j k hk
    exact h.channel j k (hold j k hk).2

/-- A new connection gets a new channel. -/
theorem subscribe (h : Wired upstream net) {i u : ι} (hu : upstream i = some u)
    (wire : List Bytes) :
    Wired upstream { (net.setNode u { net.node u with
        subscribers := (net.node u).subscribers ++ [⟨net.nextSub, [], true⟩] }).setLink i
          (some ⟨net.nextSub, wire, []⟩) with nextSub := net.nextSub + 1 } := by
  have hfresh : queueOf ((net.node u).subscribers ++ [⟨net.nextSub, [], true⟩]) net.nextSub =
      some [] :=
    queueOf_append_self fun sub hsub => (h.subs_lt u sub hsub).ne
  have hold : ∀ j k, (if j = i then some ⟨net.nextSub, wire, []⟩ else net.link j) = some k →
      (j = i ∧ k.sub = net.nextSub) ∨ (net.link j = some k ∧ k.sub ≠ net.nextSub) := by
    intro j k hk
    split at hk
    · cases hk
      exact .inl ⟨‹_›, rfl⟩
    · exact .inr ⟨hk, (h.link_lt j k hk).ne⟩
  refine ⟨?_, ?_, ?_, ?_, ?_, ?_, ?_⟩
  · intro j
    simp only [node_setLink, node_setNode]
    split
    · rename_i hj
      rw [hj]
      exact h.readOnly u
    · exact h.readOnly j
  · intro v sub hsub
    simp only [node_setLink, node_setNode] at hsub
    simp only
    split at hsub
    · rcases List.mem_append.mp hsub with hsub | hsub
      · have := h.subs_lt u sub hsub
        omega
      · obtain rfl := List.mem_singleton.mp hsub
        exact Nat.lt_succ_self _
    · have := h.subs_lt v sub hsub
      omega
  · intro j k hk
    simp only [link_setLink, link_setNode] at hk
    rcases hold j k hk with ⟨-, he⟩ | ⟨hk, -⟩
    · simp only
      omega
    · have := h.link_lt j k hk
      simp only
      omega
  · intro id hid
    have := h.gone_lt id hid
    simp only
    omega
  · intro j k hk hmem
    simp only [link_setLink, link_setNode] at hk
    rcases hold j k hk with ⟨-, he⟩ | ⟨hk, -⟩
    · have := h.gone_lt _ hmem
      omega
    · exact h.notGone j k hk hmem
  · intro j₁ j₂ k₁ k₂ hk₁ hk₂ he
    simp only [link_setLink, link_setNode] at hk₁ hk₂
    rcases hold j₁ k₁ hk₁ with ⟨rfl, he₁⟩ | ⟨hk₁, hne₁⟩
    · rcases hold j₂ k₂ hk₂ with ⟨rfl, -⟩ | ⟨-, hne₂⟩
      · rfl
      · exact absurd (he ▸ he₁) hne₂
    · rcases hold j₂ k₂ hk₂ with ⟨-, he₂⟩ | ⟨hk₂, -⟩
      · exact absurd (he.trans he₂) hne₁
      · exact h.distinct j₁ j₂ k₁ k₂ hk₁ hk₂ he
  · intro j k hk
    simp only [link_setLink, link_setNode] at hk
    simp only [node_setLink, node_setNode]
    rcases hold j k hk with ⟨rfl, he⟩ | ⟨hk, hne⟩
    · exact ⟨u, [], hu, by rw [he, if_pos rfl]; exact hfresh⟩
    · obtain ⟨v, q, hv, hq⟩ := h.channel j k hk
      refine ⟨v, q, hv, ?_⟩
      split
      · rename_i hvu
        rw [queueOf_append_of_ne (Ne.symm hne), ← hvu, hq]
      · exact hq

end Wired

/-- **Connections stay wired.** -/
theorem wired_step (h : Wired upstream net) (a : Action ι) :
    Wired upstream (step upstream net a) := by
  cases a with
  | request i bytes => exact h.setNode (kept_handleRequest _ _ _ _)
  | subscribe i =>
    rw [step]
    split
    · rename_i u hu hl
      exact h.subscribe hu _
    · exact h
  | push i =>
    rw [step]
    split
    · rename_i u l hu hl
      split
      · exact (h.setNode (kept_popQueue _ _ _)).setLink (l := l) hl rfl
      · exact h
    · exact h
  | deliver i =>
    rw [step]
    split
    · rename_i sub msg wire received hl
      split
      · have hkept := kept_applyRecord net.gone (net.node i) msg
        split
        · rename_i st happ
          rw [happ] at hkept
          exact (h.setNode hkept).setLink (l := ⟨sub, msg :: wire, received⟩) hl rfl
        · rename_i e st happ
          rw [happ] at hkept
          exact (h.setNode hkept).drop hl
      · exact h.drop hl
    · exact h
  | disconnect i =>
    rw [step]
    split
    · exact h.drop ‹_›
    · exact h
  | close u sub =>
    rw [step]
    split
    · exact h.setNode (kept_closeQueue ‹_› _)
    · exact h

/-! ## The view of one connection -/

/-- What matters for one follower: the state of its upstream, its own state, and on its connection
the records applied and the records in flight. -/
structure View where
  upstream : ByteMap × UInt64
  follower : ByteMap × UInt64
  link : Option (List Bytes × List Bytes)

def view (net : Network ι) (u i : ι) : View where
  upstream := (net.node u).state
  follower := (net.node i).state
  link := (net.link i).map fun l =>
    (l.received, l.wire ++ (queueOf (net.node u).subscribers l.sub).getD [])

/-- What a step can do to a connection. `leader` says that the upstream takes writes itself, `rep`
which states may replace the one of the upstream by a snapshot. -/
inductive ViewStep (leader : Prop) (rep : View → ByteMap × UInt64 → Prop) : View → View → Prop
  | quiet (v : View) : ViewStep leader rep v v
  /-- The upstream commits a batch and sends it. -/
  | sent (v : View) (s : UInt64) (body : Bytes) (b : Batch) (hb : decodeBatch body = .ok b)
      (hs : leader → s = v.upstream.2 + 1) :
      ViewStep leader rep v { v with
        upstream := (applyAll v.upstream.1 b, s)
        link := v.link.map fun l => (l.1, l.2 ++ [record recBatch s body]) }
  /-- The upstream applies a snapshot. -/
  | replaced (v : View) (a : ByteMap × UInt64) (h : rep v a) :
      ViewStep leader rep v { v with upstream := a }
  | connected (v : View) (h : v.link = none) :
      ViewStep leader rep v { v with
        link := some ([], [record recSnapshot v.upstream.2 (encodePairs v.upstream.1.toList)]) }
  | received (v : View) (applied : List Bytes) (msg : Bytes) (rest : List Bytes)
      (st st' : ServerState) (hl : v.link = some (applied, msg :: rest)) (hfit : FitsFrame msg)
      (hst : st.state = v.follower) (happ : applyRecord st soundDisk msg = (.ok (), st')) :
      ViewStep leader rep v { v with
        follower := st'.state
        link := some (applied ++ [msg], rest) }
  | lost (v : View) : ViewStep leader rep v { v with link := none }

section

variable {u i : ι} {rep : View → ByteMap × UInt64 → Prop} {net' : Network ι}

omit [DecidableEq ι] in
/-- A view depends on the states of the two nodes and on what the connection carries. -/
theorem view_congr (hu : (net'.node u).state = (net.node u).state)
    (hi : (net'.node i).state = (net.node i).state) (hl : net'.link i = net.link i)
    (hq : ∀ l, net.link i = some l → queueOf (net'.node u).subscribers l.sub =
      queueOf (net.node u).subscribers l.sub) : net'.view u i = net.view u i := by
  unfold view
  rw [hu, hi, hl]
  cases h : net.link i with
  | none => rfl
  | some l => rw [Option.map_some, Option.map_some, hq l h]

omit [DecidableEq ι] in
theorem viewStep_quiet {leader : Prop} (h : net'.view u i = net.view u i) :
    ViewStep leader rep (net.view u i) (net'.view u i) := by
  rw [h]
  exact .quiet _

/-- The state of a node does not depend on its followers. -/
theorem state_setSubscribers (v k : ι) (subs : List Subscriber) :
    ((net.setNode v { net.node v with subscribers := subs }).node k).state =
      (net.node k).state := by
  rw [node_setNode]
  split
  · rename_i hkv
    rw [hkv]
    rfl
  · rfl

theorem view_setLink_of_ne {j : ι} (hj : i ≠ j) (l : Option Link) :
    (net.setLink j l).view u i = net.view u i :=
  view_congr rfl rfl (by simp [hj]) fun _ _ => rfl

theorem view_setNode_of_ne {j : ι} (hu : u ≠ j) (hi : i ≠ j) (st : ServerState) :
    (net.setNode j st).view u i = net.view u i :=
  view_congr (by simp [hu]) (by simp [hi]) rfl (by simp [hu])

theorem view_drop_of_ne {j : ι} (hj : i ≠ j) (l : Link) :
    (net.drop j l).view u i = net.view u i :=
  view_congr rfl rfl (by simp [hj]) fun _ _ => rfl

theorem viewStep_lost {leader : Prop} (l : Link) :
    ViewStep leader rep (net.view u i) ((net.drop i l).view u i) := by
  have hview : (net.drop i l).view u i = { net.view u i with link := none } := by simp [view]
  rw [hview]
  exact .lost _

/-- A node that broadcasts what it commits. -/
theorem viewStep_broadcast (h : Wired upstream net) (hi : upstream i = some u) (hne : i ≠ u)
    {st : ServerState} {s : UInt64} {body : Bytes} {b : Batch} (hb : decodeBatch body = .ok b)
    (hs : upstream u = none → s = (net.node u).seq + 1)
    (hstate : st.state = (applyAll (net.node u).storage.map b, s))
    (hsubs : st.subscribers = broadcast (net.node u).subscribers (record recBatch s body)) :
    ViewStep (upstream u = none) rep (net.view u i) ((net.setNode u st).view u i) := by
  have hview : (net.setNode u st).view u i = { net.view u i with
      upstream := (applyAll (net.view u i).upstream.1 b, s)
      link := (net.view u i).link.map fun l => (l.1, l.2 ++ [record recBatch s body]) } := by
    unfold view
    simp only [node_setNode, if_pos, if_neg hne, link_setNode, hstate, hsubs]
    refine View.mk.injEq .. |>.mpr ⟨rfl, rfl, ?_⟩
    cases hl : net.link i with
    | none => rfl
    | some l =>
      obtain ⟨u', q, hu', hq⟩ := h.channel i l hl
      obtain rfl : u' = u := Option.some.inj (hu'.symm.trans hi)
      simp [queueOf_broadcast, hq]
  rw [hview]
  exact .sent _ s body b hb hs

theorem viewStep_request (h : Wired upstream net) (hi : upstream i = some u) (hne : i ≠ u) (j : ι)
    (bytes : Bytes) :
    ViewStep (upstream u = none) rep (net.view u i)
      ((step upstream net (.request j bytes)).view u i) := by
  rw [step]
  have hspec := handleRequest_spec (net.node j) soundDisk bytes
  generalize (handleRequest (net.node j) soundDisk bytes).1 = r at hspec
  generalize (handleRequest (net.node j) soundDisk bytes).2 = st at hspec
  cases hspec with
  | answered => exact viewStep_quiet (by simp [setNode])
  | failed w hro e hw =>
    rw [show soundDisk.io = .ok from rfl, write_ok_fst] at hw
    cases hw
  | written w hro hfit hw =>
    -- only a node that follows none takes writes
    have hj : upstream j = none := by
      rw [h.readOnly] at hro
      simpa using hro
    have hji : i ≠ j := by
      rintro rfl
      rw [hi] at hj
      cases hj
    by_cases hju : u = j
    · subst hju
      refine viewStep_broadcast h hi hne (decodeBatch_encodeBatch hfit) (fun _ => rfl) ?_ rfl
      exact Prod.ext (write_ok_map _ w) rfl
    · exact viewStep_quiet (view_setNode_of_ne hju hji _)

theorem viewStep_subscribe (h : Wired upstream net) (hi : upstream i = some u) (hne : i ≠ u)
    (j : ι) :
    ViewStep (upstream u = none) rep (net.view u i)
      ((step upstream net (.subscribe j)).view u i) := by
  rw [step]
  split
  · rename_i v hv hl
    by_cases hji : i = j
    · subst hji
      obtain rfl : v = u := Option.some.inj (hv.symm.trans hi)
      have hfresh : queueOf ((net.node v).subscribers ++ [⟨net.nextSub, [], true⟩]) net.nextSub =
          some [] :=
        queueOf_append_self fun sub hsub => (h.subs_lt v sub hsub).ne
      have hlink : (net.view v i).link = none := by simp [view, hl]
      convert ViewStep.connected (net.view v i) hlink using 1
      simp [view, hne, hfresh, snapshotRecord, scanPrefix_nil, ServerState.state]
    · refine viewStep_quiet (view_congr ?_ ?_ ?_ ?_)
      · exact state_setSubscribers v u _
      · exact state_setSubscribers v i _
      · simp [hji]
      · intro l hl'
        have hlt := h.link_lt i l hl'
        simp only [node_setLink, node_setNode]
        split
        · rename_i huv
          rw [huv]
          exact queueOf_append_of_ne (by simp only; omega)
        · rfl
  · exact .quiet _

theorem viewStep_push (h : Wired upstream net) (hi : upstream i = some u) (j : ι) :
    ViewStep (upstream u = none) rep (net.view u i) ((step upstream net (.push j)).view u i) := by
  rw [step]
  split
  · rename_i v l hv hl
    split
    · rename_i msg rest hq
      refine viewStep_quiet ?_
      by_cases hji : i = j
      · -- the record moves from the channel to the wire
        subst hji
        obtain rfl : v = u := Option.some.inj (hv.symm.trans hi)
        unfold view
        simp only [node_setLink, state_setSubscribers, hl]
        simp [queueOf_popQueue_self, hq]
      · refine view_congr ?_ ?_ ?_ ?_
        · exact state_setSubscribers v u _
        · exact state_setSubscribers v i _
        · simp [hji]
        · intro l' hl'
          simp only [node_setLink, node_setNode]
          split
          · rename_i huv
            rw [huv]
            refine queueOf_popQueue_of_ne fun he => hji ?_
            exact h.distinct i j l' l hl' hl he.symm
          · rfl
    · exact .quiet _
  · exact .quiet _

theorem viewStep_close (h : Wired upstream net) (v : ι) (sub : ℕ) :
    ViewStep (upstream u = none) rep (net.view u i)
      ((step upstream net (.close v sub)).view u i) := by
  rw [step]
  split
  · rename_i hgone
    refine viewStep_quiet (view_congr ?_ ?_ rfl ?_)
    · exact state_setSubscribers v u _
    · exact state_setSubscribers v i _
    · intro l hl
      rw [node_setNode]
      split
      · rename_i huv
        rw [huv]
        refine queueOf_closeQueue_of_ne fun he => h.notGone i l hl ?_
        rw [← he]
        exact hgone
      · rfl
  · exact .quiet _

/-- A record that cannot be applied changes nothing. -/
theorem eq_of_applyRecord_error {st st' : ServerState} {msg : Bytes} {e : String}
    (h : applyRecord st soundDisk msg = (.error e, st')) : st' = st := by
  have hspec := applyRecord_spec st msg
  rw [h] at hspec
  cases hspec
  rfl

/-- The follower itself receives a record. -/
theorem viewStep_deliver_self (hne : i ≠ u) :
    ViewStep (upstream u = none) rep (net.view u i)
      ((step upstream net (.deliver i)).view u i) := by
  rw [step]
  split
  · rename_i sub msg wire received hl
    split
    · rename_i hfit
      split
      · rename_i st happ
        have hlink : (net.view u i).link = some (received, msg ::
            (wire ++ (queueOf (net.node u).subscribers sub).getD [])) := by
          simp [view, hl]
        convert ViewStep.received (net.view u i) received msg _ (net.node i) st hlink hfit rfl happ
          using 1
        simp [view, hne.symm]
      · rename_i e st happ
        rw [eq_of_applyRecord_error happ]
        have hsame : net.setNode i (net.node i) = net := by simp [setNode]
        rw [hsame]
        exact viewStep_lost _
    · exact viewStep_lost _
  · exact .quiet _

/-- The upstream of the follower receives a record. -/
theorem viewStep_deliver_upstream (h : Wired upstream net) (hi : upstream i = some u) (hne : i ≠ u)
    (hrep : ∀ sub s body wire received pairs,
      net.link u = some ⟨sub, record recSnapshot s body :: wire, received⟩ →
      decodePairs body = .ok pairs →
      rep (net.view u i) (applyAll (net.node u).storage.map
        (snapshotBatch (net.node u).storage.map pairs), s)) :
    ViewStep (upstream u = none) rep (net.view u i)
      ((step upstream net (.deliver u)).view u i) := by
  rw [step]
  split
  · rename_i sub msg wire received hl
    have hfollows : upstream u ≠ none := by
      obtain ⟨v, -, hv, -⟩ := h.channel u _ hl
      simp [hv]
    split
    · split
      · rename_i st happ
        rw [view_setLink_of_ne hne]
        have hspec := applyRecord_spec (net.node u) msg
        rw [happ] at hspec
        cases hspec with
        | snapshot s body pairs hmsg hpairs =>
          have hr := hrep sub s body wire received pairs (hmsg ▸ hl) hpairs
          convert ViewStep.replaced (net.view u i) _ hr using 1
          simp [view, hne, ServerState.state, write_ok_map, Storage.Write.batch]
        | batch s body b hmsg hb =>
          rw [hmsg]
          refine viewStep_broadcast h hi hne hb (fun hnone => absurd hnone hfollows) ?_ rfl
          exact Prod.ext (write_ok_map _ (.commit b)) rfl
      · rename_i e st happ
        rw [eq_of_applyRecord_error happ]
        have hsame : net.setNode u (net.node u) = net := by simp [setNode]
        rw [hsame]
        exact viewStep_quiet (view_drop_of_ne hne _)
    · exact viewStep_quiet (view_drop_of_ne hne _)
  · exact .quiet _

/-- Another node receives a record. -/
theorem viewStep_deliver_other {j : ι} (hju : u ≠ j) (hji : i ≠ j) :
    ViewStep (upstream u = none) rep (net.view u i)
      ((step upstream net (.deliver j)).view u i) := by
  refine viewStep_quiet ?_
  rw [step]
  split
  · split
    · split
      · rw [view_setLink_of_ne hji, view_setNode_of_ne hju hji]
      · rw [view_drop_of_ne hji, view_setNode_of_ne hju hji]
    · rw [view_drop_of_ne hji]
  · rfl

/-- **What a step does to a connection.** -/
theorem view_step (h : Wired upstream net) (hi : upstream i = some u) (hne : i ≠ u) (a : Action ι)
    (hrep : a = .deliver u → ∀ sub s body wire received pairs,
      net.link u = some ⟨sub, record recSnapshot s body :: wire, received⟩ →
      decodePairs body = .ok pairs →
      rep (net.view u i) (applyAll (net.node u).storage.map
        (snapshotBatch (net.node u).storage.map pairs), s)) :
    ViewStep (upstream u = none) rep (net.view u i) ((step upstream net a).view u i) := by
  cases a with
  | request j bytes => exact viewStep_request h hi hne j bytes
  | subscribe j => exact viewStep_subscribe h hi hne j
  | push j => exact viewStep_push h hi j
  | deliver j =>
    by_cases hji : i = j
    · subst hji
      exact viewStep_deliver_self hne
    · by_cases hju : u = j
      · subst hju
        exact viewStep_deliver_upstream h hi hne (hrep rfl)
      · exact viewStep_deliver_other hju hji
  | disconnect j =>
    rw [step]
    split
    · rename_i l hl
      by_cases hji : i = j
      · subst hji
        exact viewStep_lost l
      · exact viewStep_quiet (view_drop_of_ne hji l)
    · exact .quiet _
  | close v sub => exact viewStep_close h v sub

end

end Network
end Net

end Ciphra
