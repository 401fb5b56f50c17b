import Ciphra.Engine.Engine
import Ciphra.Foundations.Run

/-!
# The sealed channel

After the handshake every frame is sealed under a key of its direction and a counter as the nonce.
The two ends of a channel share nothing but the secret of the handshake; what lies between them is
the adversary's, who sees every frame and decides what bytes each end reads next.

`World` holds both ends together with what each has passed to `send`, what each has accepted, and
the seals made so far. An ideal cipher is one that opens only what was sealed (`Unforged`); under
that assumption `accepted_prefix_sent` says that each end accepts a prefix of what the other has
sent, and that no nonce is used twice under one key.
-/

namespace Ciphra

namespace Net

/-- The cryptography of the channel: the hash that derives the direction keys, and an authenticated
cipher whose nonce is explicit. -/
structure Transport where
  sha256 : Bytes → Bytes
  sealWith : ByteArr 32 → ByteArr 12 → Bytes → Bytes → Bytes
  openSealed : ByteArr 32 → ByteArr 12 → Bytes → Bytes → Option Bytes
  length_sha256 : ∀ data, (sha256 data).length = 32
  length_sealWith : ∀ key nonce plaintext aad,
    (sealWith key nonce plaintext aad).length = plaintext.length + 16
  openSealed_sealWith : ∀ key nonce plaintext aad,
    openSealed key nonce (sealWith key nonce plaintext aad) aad = some plaintext

/-! ## Frames -/

/-- A frame is capped to keep a misbehaving peer from ballooning memory. -/
def maxFrame : ℕ := 256 * 1024 * 1024

/-- The length of the payload, then the payload. -/
def writeFrame (payload : Bytes) : Bytes := leBytes 4 payload.length ++ payload

/-- Read one frame off a stream: the payload and what follows it. -/
def readFrame (stream : Bytes) : Option (Bytes × Bytes) :=
  if stream.length < 4 then none
  else
    let len := leNat (stream.take 4)
    if maxFrame < len then none
    else splitBytes len (stream.drop 4)

/-! ## Channels -/

/-- `ciphra/transport/v1`. -/
def transportAad : Bytes :=
  [99, 105, 112, 104, 114, 97, 47, 116, 114, 97, 110, 115, 112, 111, 114, 116, 47, 118, 49]

/-- The counter in the first 8 of the 12 bytes of a nonce. -/
def counterNonce (counter : UInt64) : ByteArr 12 :=
  ⟨leBytes 8 counter.toNat ++ List.replicate 4 0, by simp⟩

theorem counterNonce_injective : Function.Injective counterNonce := by
  intro a b h
  have hbytes := List.append_cancel_right (congrArg Subtype.val h)
  rw [leBytes_inj a.toNat_lt b.toNat_lt, UInt64.toNat_inj] at hbytes
  exact hbytes

namespace Transport

variable (T : Transport)

def channelSeal (key : ByteArr 32) (counter : UInt64) (plaintext : Bytes) : Bytes :=
  T.sealWith key (counterNonce counter) plaintext transportAad

def channelOpen (key : ByteArr 32) (counter : UInt64) (sealed : Bytes) : Option Bytes :=
  T.openSealed key (counterNonce counter) sealed transportAad

theorem channelOpen_channelSeal (key : ByteArr 32) (counter : UInt64) (plaintext : Bytes) :
    T.channelOpen key counter (T.channelSeal key counter plaintext) = some plaintext :=
  T.openSealed_sealWith _ _ _ _

/-- A direction key. -/
def derive (shared : ByteArr 32) (label : Bytes) : ByteArr 32 :=
  ⟨T.sha256 (shared.1 ++ label), T.length_sha256 _⟩

/-- `c2s`: the key from client to server. -/
def c2s (shared : ByteArr 32) : ByteArr 32 := T.derive shared [99, 50, 115]

/-- `s2c`: the key from server to client. -/
def s2c (shared : ByteArr 32) : ByteArr 32 := T.derive shared [115, 50, 99]

end Transport

/-- Two keys and two counters, so that a frame sent one way can never collide with one sent the
other. -/
structure Channel where
  sendKey : ByteArr 32
  recvKey : ByteArr 32
  sendCtr : UInt64
  recvCtr : UInt64

namespace Channel

/-- A counter after one more frame where overflow is checked: at the last number the program
panics. -/
def increment (counter : UInt64) : Option UInt64 :=
  if counter.toNat + 1 < 2 ^ 64 then some (counter + 1) else none

/-- A counter after one more frame where overflow wraps. -/
def incrementWrapping (counter : UInt64) : Option UInt64 := some (counter + 1)

variable (T : Transport) (next : UInt64 → Option UInt64)

/-- The end of a channel: `client` flips which key is used for sending. -/
def new (shared : ByteArr 32) (client : Bool) : Channel :=
  if client then ⟨T.c2s shared, T.s2c shared, 0, 0⟩ else ⟨T.s2c shared, T.c2s shared, 0, 0⟩

/-- Seal and write one frame: the bytes written and the channel after it, or a panic. -/
def send (ch : Channel) (plaintext : Bytes) : Option (Bytes × Channel) :=
  let sealed := T.channelSeal ch.sendKey ch.sendCtr plaintext
  (next ch.sendCtr).map fun sendCtr => (writeFrame sealed, { ch with sendCtr })

/-- How reading a frame ends. -/
inductive Received
  | accepted (plaintext : Bytes) (ch : Channel)
  /-- No frame, an oversized one, or one that does not authenticate. -/
  | refused
  | panicked

/-- Read and open one frame of the stream. -/
def recv (ch : Channel) (stream : Bytes) : Received :=
  match readFrame stream with
  | none => .refused
  | some (sealed, _) =>
    match T.channelOpen ch.recvKey ch.recvCtr sealed with
    | none => .refused
    | some opened =>
      match next ch.recvCtr with
      | none => .panicked
      | some recvCtr => .accepted opened { ch with recvCtr }

end Channel

/-! ## Two ends and an adversary -/

inductive Side
  | client
  | server
  deriving DecidableEq

def Side.other : Side → Side
  | .client => .server
  | .server => .client

/-- One end: its channel, gone after a panic, the plaintexts it has passed to `send`, and those its
`recv` has returned. -/
structure End where
  channel : Option Channel
  sent : List Bytes
  accepted : List Bytes

/-- One call of the cipher. -/
structure Seal where
  key : ByteArr 32
  counter : UInt64
  plaintext : Bytes
  sealed : Bytes

/-- The nonce of a seal. -/
def Seal.nonce (s : Seal) : ByteArr 12 := counterNonce s.counter

structure World where
  ends : Side → End
  seals : List Seal

/-- What happens at an end: its program sends, or it reads bytes that the adversary provides. -/
inductive Event
  | send (side : Side) (plaintext : Bytes)
  | recv (side : Side) (stream : Bytes)

namespace World

variable (T : Transport) (next : UInt64 → Option UInt64)

/-- Both ends right after the handshake. -/
def start (shared : ByteArr 32) : World where
  ends side := ⟨some (Channel.new T shared (side = .client)), [], []⟩
  seals := []

def step (w : World) : Event → World
  | .send side plaintext =>
    match (w.ends side).channel with
    | none => w
    | some ch => {
        ends := Function.update w.ends side { w.ends side with
          channel := (ch.send T next plaintext).map Prod.snd
          sent := (w.ends side).sent ++ [plaintext] }
        seals := w.seals ++ [⟨ch.sendKey, ch.sendCtr, plaintext,
          T.channelSeal ch.sendKey ch.sendCtr plaintext⟩] }
  | .recv side stream =>
    match (w.ends side).channel with
    | none => w
    | some ch =>
      match ch.recv T next stream with
      | .refused => w
      | .panicked =>
        { w with ends := Function.update w.ends side { w.ends side with channel := none } }
      | .accepted plaintext ch => { w with
          ends := Function.update w.ends side { w.ends side with
            channel := some ch
            accepted := (w.ends side).accepted ++ [plaintext] } }

/-- An ideal cipher: a frame that opens under a key and a counter was sealed with them. -/
def Unforged (w : World) : Event → Prop
  | .send _ _ => True
  | .recv side stream => ∀ ch sealed rest plaintext, (w.ends side).channel = some ch →
      readFrame stream = some (sealed, rest) →
      T.channelOpen ch.recvKey ch.recvCtr sealed = some plaintext →
      ∃ s ∈ w.seals, s.key = ch.recvKey ∧ s.counter = ch.recvCtr ∧ s.sealed = sealed

/-! ## The invariant -/

/-- The key an end seals with. -/
def sendKeyOf (shared : ByteArr 32) : Side → ByteArr 32
  | .client => T.c2s shared
  | .server => T.s2c shared

/-- The channel of an end: its keys, and counters that count its calls. -/
structure EndOk (shared : ByteArr 32) (side : Side) (e : End) : Prop where
  keys : ∀ ch, e.channel = some ch →
    ch.sendKey = sendKeyOf T shared side ∧ ch.recvKey = sendKeyOf T shared side.other
  sendCtr : ∀ ch, e.channel = some ch → ch.sendCtr.toNat = e.sent.length
  recvCtr : ∀ ch, e.channel = some ch → ch.recvCtr.toNat = e.accepted.length

/-- The seals under the key of an end are numbered as its calls of `send`, and the other end has
accepted those up to its counter. -/
structure Inv (shared : ByteArr 32) (w : World) : Prop where
  ends : ∀ side, EndOk T shared side (w.ends side)
  sealed : ∀ s ∈ w.seals, ∃ side, s.key = sendKeyOf T shared side ∧
    (w.ends side).sent[s.counter.toNat]? = some s.plaintext ∧
    s.sealed = T.channelSeal s.key s.counter s.plaintext
  accepted : ∀ side, (w.ends side).accepted <+: (w.ends side.other).sent
  nodup : (w.seals.map fun s => (s.key, s.counter)).Nodup

variable {T} {shared : ByteArr 32} {w : World}

theorem inv_start (shared : ByteArr 32) : Inv T shared (start T shared) where
  ends side := by
    constructor <;> cases side <;> rintro ch ⟨⟩
    · exact ⟨rfl, rfl⟩
    · exact ⟨rfl, rfl⟩
    all_goals rfl
  sealed s hs := by cases hs
  accepted side := List.prefix_rfl
  nodup := List.nodup_nil

theorem toNat_increment {c c' : UInt64} (h : Channel.increment c = some c') :
    c'.toNat = c.toNat + 1 := by
  rw [Channel.increment] at h
  split at h
  · rename_i hlt
    cases h
    rw [UInt64.toNat_add]
    exact Nat.mod_eq_of_lt hlt
  · cases h

theorem sendKeyOf_injective (hkeys : T.c2s shared ≠ T.s2c shared) :
    Function.Injective (sendKeyOf T shared) := by
  intro a b h
  cases a <;> cases b
  · rfl
  · exact absurd h hkeys
  · exact absurd h.symm hkeys
  · rfl

theorem other_ne (side : Side) : side.other ≠ side := by cases side <;> decide

theorem getElem?_of_prefix {α : Type} {l l' : List α} (h : l <+: l') {i : ℕ} {a : α}
    (hi : l[i]? = some a) : l'[i]? = some a := by
  obtain ⟨t, rfl⟩ := h
  rw [List.getElem?_append_left (List.getElem?_eq_some_iff.mp hi).1, hi]

/-- What replacing one end must keep. -/
theorem Inv.replace (h : Inv T shared w) {side : Side} {e : End} {seals : List Seal}
    (he : EndOk T shared side e) (hsent : (w.ends side).sent <+: e.sent)
    (haccepted : e.accepted <+: (w.ends side.other).sent)
    (hseals : ∀ s ∈ seals, s ∈ w.seals ∨ s.key = sendKeyOf T shared side ∧
      e.sent[s.counter.toNat]? = some s.plaintext ∧
      s.sealed = T.channelSeal s.key s.counter s.plaintext)
    (hnodup : (seals.map fun s => (s.key, s.counter)).Nodup) :
    Inv T shared ⟨Function.update w.ends side e, seals⟩ := by
  set w' : World := ⟨Function.update w.ends side e, seals⟩
  have hself : w'.ends side = e := Function.update_self ..
  have hother : ∀ o, o ≠ side → w'.ends o = w.ends o := fun o ho => Function.update_of_ne ho ..
  have hgrows : ∀ o, (w.ends o).sent <+: (w'.ends o).sent := by
    intro o
    by_cases ho : o = side
    · subst ho
      rw [hself]
      exact hsent
    · rw [hother o ho]
  refine ⟨fun o => ?_, fun s hs => ?_, fun o => ?_, hnodup⟩
  · by_cases ho : o = side
    · subst ho
      rw [hself]
      exact he
    · rw [hother o ho]
      exact h.ends o
  · rcases hseals s hs with hs | ⟨hk, hat, hsealed⟩
    · obtain ⟨o, hk, hat, hsealed⟩ := h.sealed s hs
      exact ⟨o, hk, getElem?_of_prefix (hgrows o) hat, hsealed⟩
    · exact ⟨side, hk, by rw [hself, hat], hsealed⟩
  · by_cases ho : o = side
    · subst ho
      rw [hself, hother _ (other_ne o)]
      exact haccepted
    · rw [hother o ho]
      exact (h.accepted o).trans (hgrows _)

/-- A send takes the next number of its end. -/
theorem Inv.send (hkeys : T.c2s shared ≠ T.s2c shared) (h : Inv T shared w) (side : Side)
    (plaintext : Bytes) : Inv T shared (w.step T Channel.increment (.send side plaintext)) := by
  rw [step]
  rcases Option.eq_none_or_eq_some (w.ends side).channel with hch | ⟨ch, hch⟩
  · rw [hch]
    exact h
  rw [hch]
  have hctr := (h.ends side).sendCtr ch hch
  have hkey := ((h.ends side).keys ch hch).1
  refine h.replace ?_ (List.prefix_append _ _) (h.accepted side) (fun s hs => ?_) ?_
  · have hnew : ∀ c, (ch.send T Channel.increment plaintext).map Prod.snd = some c →
        ∃ n, Channel.increment ch.sendCtr = some n ∧ c = { ch with sendCtr := n } := by
      intro c hc
      simpa [Channel.send, eq_comm] using hc
    refine ⟨fun c hc => ?_, fun c hc => ?_, fun c hc => ?_⟩ <;>
      obtain ⟨n, hn, rfl⟩ := hnew c hc
    · exact (h.ends side).keys ch hch
    · rw [toNat_increment hn, hctr, List.length_append]
      rfl
    · exact (h.ends side).recvCtr ch hch
  · rcases List.mem_append.mp hs with hs | hs
    · exact Or.inl hs
    · rw [List.mem_singleton] at hs
      subst hs
      refine Or.inr ⟨hkey, ?_, rfl⟩
      simp only [hctr]
      rw [List.getElem?_concat_length]
  · rw [List.map_append, List.map_singleton, ← List.concat_eq_append]
    refine List.Nodup.concat (fun hmem => ?_) h.nodup
    obtain ⟨s, hs, heq⟩ := List.mem_map.mp hmem
    obtain ⟨hsk, hsc⟩ := Prod.mk.inj heq
    obtain ⟨o, hk, hat, -⟩ := h.sealed s hs
    obtain rfl := sendKeyOf_injective hkeys (hk.symm.trans (hsk.trans hkey))
    rw [hsc, hctr, List.getElem?_eq_none le_rfl] at hat
    cases hat

/-- What opens at an end was sealed by the other end, with the number this end expects. -/
theorem Inv.next_of_open (hkeys : T.c2s shared ≠ T.s2c shared) (h : Inv T shared w) {side : Side}
    {stream : Bytes} (hideal : Unforged T w (.recv side stream)) {ch : Channel}
    (hch : (w.ends side).channel = some ch) {sealed rest opened : Bytes}
    (hframe : readFrame stream = some (sealed, rest))
    (hopen : T.channelOpen ch.recvKey ch.recvCtr sealed = some opened) :
    (w.ends side.other).sent[(w.ends side).accepted.length]? = some opened := by
  obtain ⟨s, hs, hsk, hsc, hss⟩ := hideal ch sealed rest opened hch hframe hopen
  obtain ⟨o, hk, hat, hsealed⟩ := h.sealed s hs
  obtain rfl : o = side.other :=
    sendKeyOf_injective hkeys (hk.symm.trans (hsk.trans ((h.ends side).keys ch hch).2))
  rw [← hss, hsealed, hsk, hsc, T.channelOpen_channelSeal, Option.some.injEq] at hopen
  rw [hsc, (h.ends side).recvCtr ch hch, hopen] at hat
  exact hat

theorem Inv.next_of_recv (hkeys : T.c2s shared ≠ T.s2c shared) (h : Inv T shared w) {side : Side}
    {stream : Bytes} (hideal : Unforged T w (.recv side stream)) {ch ch' : Channel}
    (hch : (w.ends side).channel = some ch) {plaintext : Bytes}
    (hr : ch.recv T Channel.increment stream = .accepted plaintext ch') :
    (w.ends side.other).sent[(w.ends side).accepted.length]? = some plaintext ∧
      ∃ n, Channel.increment ch.recvCtr = some n ∧ ch' = { ch with recvCtr := n } := by
  rw [Channel.recv] at hr
  split at hr
  · cases hr
  rename_i sealed rest hframe
  split at hr
  · cases hr
  rename_i opened hopen
  split at hr
  · cases hr
  rename_i n hn
  cases hr
  exact ⟨h.next_of_open hkeys hideal hch hframe hopen, n, hn, rfl⟩

/-- An end accepts what the other one has sent next. -/
theorem Inv.recv (hkeys : T.c2s shared ≠ T.s2c shared) (h : Inv T shared w) (side : Side)
    (stream : Bytes) (hideal : Unforged T w (.recv side stream)) :
    Inv T shared (w.step T Channel.increment (.recv side stream)) := by
  rw [step]
  rcases Option.eq_none_or_eq_some (w.ends side).channel with hch | ⟨ch, hch⟩
  · rw [hch]
    exact h
  rw [hch]
  simp only
  cases hr : ch.recv T Channel.increment stream with
  | refused => exact h
  | panicked =>
    refine h.replace ⟨?_, ?_, ?_⟩ List.prefix_rfl (h.accepted side) (fun s hs => Or.inl hs) h.nodup
    · rintro c ⟨⟩
    · rintro c ⟨⟩
    · rintro c ⟨⟩
  | accepted plaintext ch' =>
    obtain ⟨hat, n, hn, rfl⟩ := h.next_of_recv hkeys hideal hch hr
    refine h.replace ⟨?_, ?_, ?_⟩ List.prefix_rfl ?_ (fun s hs => Or.inl hs) h.nodup
    · rintro c ⟨⟩
      exact (h.ends side).keys ch hch
    · rintro c ⟨⟩
      exact (h.ends side).sendCtr ch hch
    · rintro c ⟨⟩
      rw [toNat_increment hn, (h.ends side).recvCtr ch hch, List.length_append]
      rfl
    · obtain ⟨t, ht⟩ := h.accepted side
      rw [← ht, List.getElem?_append_right le_rfl, Nat.sub_self] at hat
      rw [← ht, List.prefix_append_right_inj]
      cases t with
      | nil => cases hat
      | cons x t =>
        obtain rfl := Option.some.inj hat
        exact ⟨t, rfl⟩

theorem Inv.step (hkeys : T.c2s shared ≠ T.s2c shared) (h : Inv T shared w) (event : Event)
    (hideal : Unforged T w event) : Inv T shared (w.step T Channel.increment event) := by
  cases event with
  | send side plaintext => exact h.send hkeys side plaintext
  | recv side stream => exact h.recv hkeys side stream hideal

/-! Fewer than `2 ^ 64` sends leave the counters short of the overflow. -/

/-- Each end accepts a prefix of what the other has sent, and no nonce is used twice under a key. -/
def Delivers (w : World) : Prop :=
  (∀ side, (w.ends side).accepted <+: (w.ends side.other).sent) ∧
    (w.seals.map fun s => (s.key, s.nonce)).Nodup

theorem Inv.delivers (h : Inv T shared w) : w.Delivers := by
  refine ⟨h.accepted, ?_⟩
  have hmap : w.seals.map (fun s => (s.key, s.nonce)) =
      (w.seals.map fun s => (s.key, s.counter)).map (Prod.map id counterNonce) := by
    rw [List.map_map]
    rfl
  rw [hmap]
  exact h.nodup.map (Function.injective_id.prodMap counterNonce_injective)

/-- What was sent stays sent. -/
theorem sent_prefix_step (T : Transport) (next : UInt64 → Option UInt64) (w : World) (event : Event)
    (side : Side) : (w.ends side).sent <+: ((w.step T next event).ends side).sent := by
  have hupdate : ∀ (o : Side) (e : End), (w.ends o).sent <+: e.sent →
      (w.ends side).sent <+: (Function.update w.ends o e side).sent := by
    intro o e he
    by_cases ho : side = o
    · subst ho
      rwa [Function.update_self]
    · rw [Function.update_of_ne ho]
  cases event with
  | send o plaintext =>
    rw [step]
    split
    · exact List.prefix_rfl
    · exact hupdate o _ (List.prefix_append _ _)
  | recv o stream =>
    rw [step]
    split
    · exact List.prefix_rfl
    · split
      · exact List.prefix_rfl
      · exact hupdate o _ List.prefix_rfl
      · exact hupdate o _ List.prefix_rfl

theorem incrementWrapping_eq {counter : UInt64} (h : counter.toNat + 1 < 2 ^ 64) :
    Channel.incrementWrapping counter = Channel.increment counter := by
  rw [Channel.incrementWrapping, Channel.increment, if_pos h]

/-- While fewer than `2 ^ 64` messages have been sent, wrapping counters do as checked ones. -/
theorem Inv.step_wrapping (hkeys : T.c2s shared ≠ T.s2c shared) (h : Inv T shared w) (event : Event)
    (hideal : Unforged T w event) (hcount : ∀ side,
      ((w.step T Channel.incrementWrapping event).ends side).sent.length < 2 ^ 64) :
    w.step T Channel.incrementWrapping event = w.step T Channel.increment event := by
  cases event with
  | send side plaintext =>
    rw [World.step] at hcount
    rw [World.step, World.step]
    rcases Option.eq_none_or_eq_some (w.ends side).channel with hch | ⟨ch, hch⟩
    · rw [hch]
    simp only [hch] at hcount ⊢
    have hlt := hcount side
    rw [Function.update_self, List.length_append, List.length_singleton,
      ← (h.ends side).sendCtr ch hch] at hlt
    rw [Channel.send, incrementWrapping_eq hlt]
    rfl
  | recv side stream =>
    have hlt := ((sent_prefix_step T _ w _ side.other).length_le).trans_lt (hcount side.other)
    rw [World.step, World.step]
    rcases Option.eq_none_or_eq_some (w.ends side).channel with hch | ⟨ch, hch⟩
    · rw [hch]
    have hrecv : ch.recv T Channel.incrementWrapping stream =
        ch.recv T Channel.increment stream := by
      rw [Channel.recv, Channel.recv]
      split
      · rfl
      rename_i sealed rest hframe
      split
      · rfl
      rename_i opened hopen
      have hat := (List.getElem?_eq_some_iff.mp
        (h.next_of_open hkeys hideal hch hframe hopen)).1
      rw [incrementWrapping_eq (by rw [(h.ends side).recvCtr ch hch]; omega)]
    simp only [hch, hrecv]

theorem inv_foldl_wrapping (hkeys : T.c2s shared ≠ T.s2c shared) {events : List Event}
    (hideal : Along (World.step T Channel.incrementWrapping) (Unforged T) (start T shared) events)
    (hcount : ∀ side, ((events.foldl (World.step T Channel.incrementWrapping)
      (start T shared)).ends side).sent.length < 2 ^ 64) :
    Inv T shared (events.foldl (World.step T Channel.incrementWrapping) (start T shared)) := by
  induction events using List.reverseRecOn with
  | nil => exact inv_start shared
  | append_singleton events event ih =>
    obtain ⟨hbefore, hlast⟩ := along_concat.mp hideal
    rw [List.foldl_append, List.foldl_cons, List.foldl_nil] at hcount ⊢
    have hinv := ih hbefore fun side =>
      ((sent_prefix_step T _ _ event side).length_le).trans_lt (hcount side)
    rw [hinv.step_wrapping hkeys event hlast hcount]
    exact hinv.step hkeys event hlast

end World

/-- **The channel delivers prefixes.** Whatever the adversary provides to read, each end accepts a
prefix of what the other has passed to `send`, and no nonce is used twice under one key: in every
run where the counters are checked, and where they wrap in every run of fewer than `2 ^ 64` sends
from each end. -/
theorem accepted_prefix_sent {T : Transport} {shared : ByteArr 32}
    (hkeys : T.c2s shared ≠ T.s2c shared) (events : List Event) :
    (Along (World.step T Channel.increment) (World.Unforged T) (World.start T shared) events →
      (events.foldl (World.step T Channel.increment) (World.start T shared)).Delivers) ∧
    (Along (World.step T Channel.incrementWrapping) (World.Unforged T) (World.start T shared) events →
      (∀ side, ((events.foldl (World.step T Channel.incrementWrapping)
        (World.start T shared)).ends side).sent.length < 2 ^ 64) →
      (events.foldl (World.step T Channel.incrementWrapping) (World.start T shared)).Delivers) :=
  ⟨fun hideal => (hideal.invariant (fun _ event h he => h.step hkeys event he)
      (World.inv_start shared)).delivers,
    fun hideal hcount => (World.inv_foldl_wrapping hkeys hideal hcount).delivers⟩

/-- A transport that hides nothing: the tag of a frame is its nonce and the first bytes of its key,
and the hash of a secret and a label starts with the label. -/
def Transport.clear : Transport where
  sha256 data := fitTo 32 data.reverse
  sealWith key nonce plaintext _ := nonce.1 ++ key.1.take 4 ++ plaintext
  openSealed key nonce sealed _ :=
    if sealed.take 16 = nonce.1 ++ key.1.take 4 then some (sealed.drop 16) else none
  length_sha256 data := length_fitTo 32 _
  length_sealWith key nonce plaintext _ := by
    rw [List.length_append, List.length_append, nonce.2, List.length_take_of_le (by rw [key.2]; decide)]
    omega
  openSealed_sealWith key nonce plaintext _ := by
    have hlen : (nonce.1 ++ key.1.take 4).length = 16 := by
      rw [List.length_append, nonce.2, List.length_take_of_le (by rw [key.2]; decide)]
    rw [List.take_left' hlen, if_pos rfl, List.drop_left' hlen]

/-- The frame of the first message from the client. -/
def firstFrame : Bytes :=
  writeFrame (Transport.clear.channelSeal (Transport.clear.c2s (ByteArr.zeros 32)) 0 [7])

/-- A message that is reflected to its sender, delivered, and delivered again. -/
def replayed : List Event :=
  [.send .client [7], .recv .client firstFrame, .recv .server firstFrame, .recv .server firstFrame]

/-- An end that reads what opens nowhere meets no forgery, and none where it reads what was sent. -/
theorem unforged_replayed {next : UInt64 → Option UInt64}
    (hnext : next = Channel.increment ∨ next = Channel.incrementWrapping) :
    Along (World.step Transport.clear next) (World.Unforged Transport.clear)
      (World.start Transport.clear (ByteArr.zeros 32)) replayed := by
  rcases hnext with rfl | rfl <;> refine ⟨trivial, ?_, ?_, ?_, trivial⟩
  all_goals
    rintro ch sealed rest plaintext ⟨⟩ ⟨⟩ hopen
    first
      | exact ⟨_, List.mem_cons_self, rfl, rfl, rfl⟩
      | exact nomatch (show (none : Option Bytes) = some plaintext from hopen)

theorem accepted_prefix_sent_replayed :
    let w := replayed.foldl (World.step Transport.clear Channel.increment)
      (World.start Transport.clear (ByteArr.zeros 32))
    let w' := replayed.foldl (World.step Transport.clear Channel.incrementWrapping)
      (World.start Transport.clear (ByteArr.zeros 32))
    (w.ends .server).accepted = [[7]] ∧ w.Delivers ∧ (w'.ends .server).accepted = [[7]] ∧
      w'.Delivers := by
  intro w w'
  have hkeys : Transport.clear.c2s (ByteArr.zeros 32) ≠ Transport.clear.s2c (ByteArr.zeros 32) := by
    decide
  have hdelivers := accepted_prefix_sent hkeys replayed
  refine ⟨by decide, hdelivers.1 (unforged_replayed (.inl rfl)), by decide,
    hdelivers.2 (unforged_replayed (.inr rfl)) fun side => ?_⟩
  cases side <;> decide

end Net

end Ciphra
