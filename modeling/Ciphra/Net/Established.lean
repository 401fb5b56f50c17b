import Ciphra.Net.Handshake
import Ciphra.Net.Remote
import Ciphra.Primitives.DiffieHellman

/-!
# An established connection

Without an adversary the handshake ends with one key on both sides: X25519 agrees on every pair of
secrets, and the encapsulated secret is recovered. Each side then makes its end of the channel from
the key it derived, and the two talk over two streams of bytes that arrive as written.

`Connection` holds both ends with the bytes each has written and the other has not read. In every
order of sends and receipts, what an end has accepted and what is on the way to it are together what
the other end has sent (`Flowing`), so nothing is refused, and reading on delivers all of it
(`established`).
-/

namespace Ciphra

namespace Net

/-! ## The handshake without an adversary -/

section Honest

variable (K : Kem) (state : ClientState) (identity : ServerIdentity) (random : ServerRandom)

theorem ephemeralsAgree_of_kem (hkem : K.decapsulate state.dk (K.encapsulate state.ek random.m).1 =
    (K.encapsulate state.ek random.m).2) : EphemeralsAgree K state random := by
  refine ⟨?_, hkem⟩
  rw [state.ePublic_eq]
  exact diffieHellman_comm state.eSecret random.eSecret

theorem clientHandshake_honest (sha3 : Bytes → ByteArr 32) {pinned : Option (ByteArr 32)}
    (hpin : ∀ expected ∈ pinned, expected = identity.public)
    (hkem : K.decapsulate state.dk (K.encapsulate state.ek random.m).1 =
      (K.encapsulate state.ek random.m).2) :
    clientHandshake K sha3 state pinned
        (identity.public.1 ++ (serverRespond K identity random state.hello).1.toBytes) =
      some (sha3 (serverRespond K identity random state.hello).2) := by
  have hparse := parseReply_eq_some.mpr ⟨rfl, length_ct K identity random state.hello, hpin⟩
  have hstatic : diffieHellman state.eSecret.1 identity.public.1 =
      diffieHellman identity.secret.1 state.ePublic.1 := by
    rw [state.ePublic_eq]
    exact diffieHellman_comm state.eSecret identity.secret
  have hinput := clientInput_eq K state identity random
    (ephemeralsAgree_of_kem K state random hkem) hstatic
  rw [clientHandshake, hparse, ← hinput]
  rfl

/-- A client that pins another key refuses the reply. -/
theorem clientHandshake_mispinned (sha3 : Bytes → ByteArr 32) {expected : ByteArr 32}
    (hne : expected ≠ identity.public) :
    clientHandshake K sha3 state (some expected)
        (identity.public.1 ++ (serverRespond K identity random state.hello).1.toBytes) = none := by
  cases hp : parseReply (some expected)
      (identity.public.1 ++ (serverRespond K identity random state.hello).1.toBytes) with
  | none => rw [clientHandshake, hp]; rfl
  | some pair =>
    obtain ⟨key, hello⟩ := pair
    obtain ⟨hreply, -, hpin⟩ := parseReply_eq_some.mp hp
    have hkey : identity.public.1 = key.1 :=
      (List.append_inj hreply (by rw [identity.public.2, key.2])).1
    exact absurd ((hpin expected rfl).trans (Subtype.ext hkey.symm)) hne

end Honest

/-! ## Two ends and two streams -/

/-- Both ends, and the bytes that each has written and the other has not read. -/
structure Connection where
  ends : Side → End
  wire : Side → Bytes

/-- What a program does with its end: send a message, or wait for one. -/
inductive Move
  | send (side : Side) (plaintext : Bytes)
  | recv (side : Side)

namespace Connection

variable (T : Transport)

/-- Right after the handshake, each side with the key it derived. -/
def start (clientKey serverKey : ByteArr 32) : Connection where
  ends
    | .client => ⟨some (Channel.new T clientKey true), [], []⟩
    | .server => ⟨some (Channel.new T serverKey false), [], []⟩
  wire _ := []

def step (c : Connection) : Move → Connection
  | .send side plaintext =>
    match (c.ends side).channel with
    | none => c
    | some ch =>
      match ch.send T Channel.increment plaintext with
      | none => { c with ends := Function.update c.ends side { c.ends side with channel := none } }
      | some (frame, ch) => {
          ends := Function.update c.ends side { c.ends side with
            channel := some ch
            sent := (c.ends side).sent ++ [plaintext] }
          wire := Function.update c.wire side (c.wire side ++ frame) }
  | .recv side =>
    match (c.ends side).channel, c.wire side.other with
    | none, _ => c
    -- the call waits
    | some _, [] => c
    | some ch, stream =>
      match ch.recv T Channel.increment stream with
      | .accepted plaintext ch => {
          ends := Function.update c.ends side { c.ends side with
            channel := some ch
            accepted := (c.ends side).accepted ++ [plaintext] }
          wire := Function.update c.wire side.other (((readFrame stream).map Prod.snd).getD []) }
      | _ => { c with ends := Function.update c.ends side { c.ends side with channel := none } }

/-! ## What is on the way -/

/-- The frames of messages, numbered from `n`. -/
def frames (key : ByteArr 32) : ℕ → List Bytes → Bytes
  | _, [] => []
  | n, p :: ps => writeFrame (T.channelSeal key (UInt64.ofNat n) p) ++ frames key (n + 1) ps

variable {T}

theorem frames_append (key : ByteArr 32) (n : ℕ) (ps qs : List Bytes) :
    frames T key n (ps ++ qs) = frames T key n ps ++ frames T key (n + ps.length) qs := by
  induction ps generalizing n with
  | nil => rfl
  | cons p ps ih =>
    rw [List.cons_append, frames, frames, ih, List.append_assoc, List.length_cons,
      show n + 1 + ps.length = n + (ps.length + 1) by omega]

theorem readFrame_writeFrame {payload : Bytes} (h : payload.length ≤ maxFrame) (rest : Bytes) :
    readFrame (writeFrame payload ++ rest) = some (payload, rest) := by
  have hhead : (leBytes 4 payload.length).length = 4 := length_leBytes 4 _
  have hlt : payload.length < 256 ^ 4 := lt_of_le_of_lt h (by decide)
  have hlen : ¬(writeFrame payload ++ rest).length < 4 := by
    simp only [writeFrame, List.length_append, hhead]
    omega
  have htake : (writeFrame payload ++ rest).take 4 = leBytes 4 payload.length := by
    rw [writeFrame, List.append_assoc]
    exact List.take_left' hhead
  have hdrop : (writeFrame payload ++ rest).drop 4 = payload ++ rest := by
    rw [writeFrame, List.append_assoc]
    exact List.drop_left' hhead
  rw [readFrame, if_neg hlen]
  simp only [htake, hdrop]
  rw [leNat_leBytes_of_lt hlt, if_neg (by omega), splitBytes_append rfl]

/-! ## The invariant -/

/-- One direction: sender and receiver use one key, their counters count the messages, and the wire
holds the frames of those on the way. -/
structure Carries (T : Transport) (sender receiver : Channel) (sent accepted pending : List Bytes)
    (wire : Bytes) : Prop where
  key : sender.sendKey = receiver.recvKey
  sendCtr : sender.sendCtr.toNat = sent.length
  recvCtr : receiver.recvCtr.toNat = accepted.length
  sent_eq : sent = accepted ++ pending
  wire_eq : wire = frames T sender.sendKey accepted.length pending
  fits : ∀ p ∈ pending, FitsFrame p

section Direction

variable {sender receiver : Channel} {sent accepted pending : List Bytes} {wire : Bytes}

theorem increment_of_lt (ctr : UInt64) (h : ctr.toNat + 1 < 2 ^ 64) :
    Channel.increment ctr = some (ctr + 1) := if_pos h

/-- A message sent joins those on the way. -/
theorem Carries.send (h : Carries T sender receiver sent accepted pending wire) {p : Bytes}
    (hp : FitsFrame p) (hctr : sent.length + 1 < 2 ^ 64) :
    ∃ frame, sender.send T Channel.increment p = some (frame, { sender with sendCtr := sender.sendCtr + 1 }) ∧
      Carries T { sender with sendCtr := sender.sendCtr + 1 } receiver (sent ++ [p]) accepted
        (pending ++ [p]) (wire ++ frame) := by
  have hinc := increment_of_lt sender.sendCtr (by rw [h.sendCtr]; exact hctr)
  have hnumber : UInt64.ofNat (accepted.length + pending.length) = sender.sendCtr := by
    rw [← List.length_append, ← h.sent_eq, ← h.sendCtr, UInt64.ofNat_toNat]
  refine ⟨writeFrame (T.channelSeal sender.sendKey sender.sendCtr p), ?_,
    h.key, ?_, h.recvCtr, ?_, ?_, ?_⟩
  · simp only [Channel.send, hinc, Option.map_some]
  · rw [World.toNat_increment hinc, h.sendCtr, List.length_append, List.length_singleton]
  · rw [h.sent_eq, List.append_assoc]
  · simp only [frames_append, ← h.wire_eq, frames, List.append_nil, hnumber]
  · intro q hq
    rcases List.mem_append.mp hq with hq | hq
    · exact h.fits q hq
    · rw [List.mem_singleton.mp hq]
      exact hp

/-- The first message on the way is the next to be received. -/
theorem Carries.recv {p : Bytes} {ps : List Bytes}
    (h : Carries T sender receiver sent accepted (p :: ps) wire)
    (hctr : accepted.length + 1 < 2 ^ 64) :
    ∃ sealed rest, wire ≠ [] ∧ readFrame wire = some (sealed, rest) ∧
      receiver.recv T Channel.increment wire = .accepted p { receiver with recvCtr := receiver.recvCtr + 1 } ∧
      Carries T sender { receiver with recvCtr := receiver.recvCtr + 1 } sent (accepted ++ [p]) ps
        rest := by
  have hinc := increment_of_lt receiver.recvCtr (by rw [h.recvCtr]; exact hctr)
  have hnumber : UInt64.ofNat accepted.length = receiver.recvCtr := by
    rw [← h.recvCtr, UInt64.ofNat_toNat]
  have hfit : (T.channelSeal sender.sendKey receiver.recvCtr p).length ≤ maxFrame := by
    rw [Transport.channelSeal, T.length_sealWith]
    exact h.fits p List.mem_cons_self
  have hwire := h.wire_eq
  rw [frames, hnumber] at hwire
  have hread := readFrame_writeFrame hfit (frames T sender.sendKey (accepted.length + 1) ps)
  rw [← hwire] at hread
  refine ⟨_, _, ?_, hread, ?_, h.key, h.sendCtr, ?_, ?_, ?_, ?_⟩
  · intro hnil
    rw [hnil] at hread
    cases hread
  · rw [Channel.recv, hread]
    simp only [h.key, T.channelOpen_channelSeal, hinc]
  · rw [World.toNat_increment hinc, h.recvCtr, List.length_append, List.length_singleton]
  · rw [h.sent_eq, List.append_assoc, List.singleton_append]
  · rw [List.length_append, List.length_singleton]
  · exact fun q hq => h.fits q (List.mem_cons_of_mem p hq)

end Direction

/-- Both ends are up, and each direction carries what is pending in it. -/
structure Flowing (T : Transport) (c : Connection) (ch : Side → Channel)
    (pending : Side → List Bytes) : Prop where
  channel : ∀ side, (c.ends side).channel = some (ch side)
  carries : ∀ side, Carries T (ch side) (ch side.other) (c.ends side).sent
    (c.ends side.other).accepted (pending side) (c.wire side)

theorem flowing_start (T : Transport) (key : ByteArr 32) :
    Flowing T (start T key key) (fun side => Channel.new T key (side = .client)) fun _ => [] where
  channel side := by cases side <;> rfl
  carries side := by
    cases side
    all_goals exact ⟨rfl, rfl, rfl, rfl, rfl, fun _ h => absurd h List.not_mem_nil⟩

theorem other_other (side : Side) : side.other.other = side := by cases side <;> rfl

theorem eq_or_eq_other (side o : Side) : o = side ∨ o = side.other := by
  cases side <;> cases o <;> decide

section Steps

variable {c : Connection} {ch : Side → Channel} {pending : Side → List Bytes}

theorem Flowing.send (h : Flowing T c ch pending) (side : Side) {p : Bytes} (hp : FitsFrame p)
    (hctr : (c.ends side).sent.length + 1 < 2 ^ 64) :
    ∃ ch', Flowing T (step T c (.send side p)) ch'
      (Function.update pending side (pending side ++ [p])) := by
  obtain ⟨frame, hsend, hcarries⟩ := (h.carries side).send hp hctr
  refine ⟨Function.update ch side { ch side with sendCtr := (ch side).sendCtr + 1 }, ?_, ?_⟩
  all_goals
    intro o
    simp only [step, h.channel side, hsend]
    rcases eq_or_eq_other side o with rfl | rfl
  · simp only [Function.update_self]
  · simp only [Function.update_of_ne (World.other_ne side), h.channel]
  · simpa only [Function.update_self, Function.update_of_ne (World.other_ne o)] using hcarries
  · have hback := h.carries side.other
    rw [other_other] at hback ⊢
    simp only [Function.update_self, Function.update_of_ne (World.other_ne side)]
    exact ⟨hback.key, hback.sendCtr, hback.recvCtr, hback.sent_eq, hback.wire_eq, hback.fits⟩

/-- A call that finds nothing waits. -/
theorem Flowing.wait (h : Flowing T c ch pending) {side : Side} (hnil : pending side.other = []) :
    step T c (.recv side) = c := by
  have hwire := (h.carries side.other).wire_eq
  rw [hnil, frames] at hwire
  simp only [step, h.channel side, hwire]

theorem Flowing.recv (h : Flowing T c ch pending) {side : Side} {p : Bytes} {ps : List Bytes}
    (hcons : pending side.other = p :: ps)
    (hctr : (c.ends side).accepted.length + 1 < 2 ^ 64) :
    ∃ ch', Flowing T (step T c (.recv side)) ch' (Function.update pending side.other ps) ∧
      ∀ o, ((step T c (.recv side)).ends o).sent = (c.ends o).sent := by
  have hback := h.carries side.other
  rw [other_other, hcons] at hback
  obtain ⟨sealed, rest, hwire, hread, hrecv, hcarries⟩ := hback.recv hctr
  have hstep : step T c (.recv side) = {
      ends := Function.update c.ends side { c.ends side with
        channel := some { ch side with recvCtr := (ch side).recvCtr + 1 }
        accepted := (c.ends side).accepted ++ [p] }
      wire := Function.update c.wire side.other rest } := by
    obtain ⟨b, bs, hb⟩ := List.exists_cons_of_ne_nil hwire
    rw [hb] at hrecv hread
    simp only [step, h.channel side, hb, hrecv, hread, Option.map_some, Option.getD_some]
  rw [hstep]
  refine ⟨Function.update ch side { ch side with recvCtr := (ch side).recvCtr + 1 },
    ⟨?_, ?_⟩, ?_⟩
  all_goals
    intro o
    rcases eq_or_eq_other side o with rfl | rfl
  · simp only [Function.update_self]
  · simp only [Function.update_of_ne (World.other_ne side), h.channel]
  · have hthere := h.carries o
    simp only [Function.update_self, Function.update_of_ne (World.other_ne o),
      Function.update_of_ne (World.other_ne o).symm]
    exact ⟨hthere.key, hthere.sendCtr, hthere.recvCtr, hthere.sent_eq, hthere.wire_eq, hthere.fits⟩
  · simp only [other_other, Function.update_self, Function.update_of_ne (World.other_ne side)]
    exact hcarries
  · simp only [Function.update_self]
  · simp only [Function.update_of_ne (World.other_ne side)]

/-- Every move keeps the messages flowing, while the counters last. -/
theorem Flowing.step (h : Flowing T c ch pending) (m : Move)
    (hfit : ∀ side p, m = .send side p → FitsFrame p)
    (hctr : ∀ side, (c.ends side).sent.length + 1 < 2 ^ 64) :
    ∃ ch' pending', Flowing T (step T c m) ch' pending' ∧
      ∀ o, ((Connection.step T c m).ends o).sent.length ≤ (c.ends o).sent.length + 1 := by
  cases m with
  | send side p =>
    obtain ⟨ch', hflow⟩ := h.send side (hfit side p rfl) (hctr side)
    obtain ⟨frame, hsend, -⟩ := (h.carries side).send (hfit side p rfl) (hctr side)
    refine ⟨ch', _, hflow, ?_⟩
    intro o
    simp only [Connection.step, h.channel side, hsend]
    rcases eq_or_eq_other side o with rfl | rfl
    · simp only [Function.update_self, List.length_append, List.length_singleton, le_refl]
    · simp only [Function.update_of_ne (World.other_ne side), Nat.le_succ]
  | recv side =>
    cases hp : pending side.other with
    | nil =>
      rw [h.wait hp]
      exact ⟨ch, pending, h, fun o => Nat.le_succ _⟩
    | cons p ps =>
      have hback := (h.carries side.other).sent_eq
      rw [other_other, hp] at hback
      have hlt := hctr side.other
      rw [hback, List.length_append, List.length_cons] at hlt
      obtain ⟨ch', hflow, hsent⟩ := h.recv hp (by omega)
      exact ⟨ch', _, hflow, fun o => (hsent o).symm ▸ Nat.le_succ _⟩

end Steps

theorem flowing_run {moves : List Move} {c : Connection} {ch : Side → Channel}
    {pending : Side → List Bytes} (h : Flowing T c ch pending)
    (hfit : ∀ side p, .send side p ∈ moves → FitsFrame p)
    (hcount : ∀ side, (c.ends side).sent.length + moves.length < 2 ^ 64) :
    ∃ ch' pending', Flowing T (moves.foldl (step T) c) ch' pending' ∧
      ∀ side, ((moves.foldl (step T) c).ends side).sent.length < 2 ^ 64 := by
  induction moves generalizing c ch pending with
  | nil => exact ⟨ch, pending, h, hcount⟩
  | cons m moves ih =>
    simp only [List.length_cons] at hcount
    obtain ⟨ch', pending', hflow, hlen⟩ := h.step m
      (fun side p hm => hfit side p (hm ▸ List.mem_cons_self))
      (fun side => by have := hcount side; omega)
    exact ih hflow (fun side p hm => hfit side p (List.mem_cons_of_mem m hm))
      (fun side => by have := hcount side; have := hlen side; omega)

/-- Reading as often as messages are on the way delivers all of them. -/
theorem Flowing.drain {side : Side} (n : ℕ) {c : Connection} {ch : Side → Channel}
    {pending : Side → List Bytes} (h : Flowing T c ch pending)
    (hn : (pending side.other).length = n) (hsent : (c.ends side.other).sent.length < 2 ^ 64) :
    (((List.replicate n (.recv side)).foldl (Connection.step T) c).ends side).accepted =
      (c.ends side.other).sent := by
  have hback := (h.carries side.other).sent_eq
  rw [other_other] at hback
  induction n generalizing c ch pending with
  | zero =>
    rw [List.length_eq_zero_iff] at hn
    rw [hback, hn, List.append_nil]
    rfl
  | succ n ih =>
    obtain ⟨p, ps, hp⟩ := List.exists_cons_of_length_eq_add_one hn
    rw [hp, List.length_cons] at hn
    have hlen := congrArg List.length hback
    rw [hp, List.length_append, List.length_cons] at hlen
    obtain ⟨ch', hflow, hkeep⟩ := h.recv hp (by omega)
    have hnext := (hflow.carries side.other).sent_eq
    rw [other_other] at hnext
    rw [List.replicate_succ, List.foldl_cons, ← hkeep side.other]
    exact ih hflow (by rw [Function.update_self]; omega) (by rw [hkeep]; exact hsent) hnext

end Connection

/-- **An honest connection.** The handshake leaves both sides with one key, unless the client pins
another static key and refuses the reply. In every order of sends and receipts both ends then stay
up, each has accepted a prefix of what the other sent, and receiving on delivers the rest. -/
theorem established (T : Transport) (K : Kem) (sha3 : Bytes → ByteArr 32) (state : ClientState)
    (identity : ServerIdentity) (random : ServerRandom) {pinned : Option (ByteArr 32)}
    (hpin : ∀ expected ∈ pinned, expected = identity.public)
    (hkem : K.decapsulate state.dk (K.encapsulate state.ek random.m).1 =
      (K.encapsulate state.ek random.m).2) :
    ∃ reply clientKey serverKey,
      serverHandshake K sha3 identity random state.hello.toBytes = some (reply, serverKey) ∧
      clientHandshake K sha3 state pinned reply = some clientKey ∧
      (∀ expected, expected ≠ identity.public →
        clientHandshake K sha3 state (some expected) reply = none) ∧
      clientKey = serverKey ∧
      ∀ moves : List Move, moves.length < 2 ^ 64 →
        (∀ side p, .send side p ∈ moves → FitsFrame p) → ∀ side,
          let c := moves.foldl (Connection.step T) (Connection.start T clientKey serverKey)
          (c.ends side).channel.isSome = true ∧
          (c.ends side).accepted <+: (c.ends side.other).sent ∧
          ∃ n, (((List.replicate n (.recv side)).foldl (Connection.step T) c).ends side).accepted =
            (c.ends side.other).sent := by
  refine ⟨_, _, _, serverHandshake_hello K sha3 state identity random,
    clientHandshake_honest K state identity random sha3 hpin hkem,
    fun expected hne => clientHandshake_mispinned K state identity random sha3 hne, rfl, ?_⟩
  intro moves hlen hfit side c
  obtain ⟨ch, pending, hflow, hsent⟩ := Connection.flowing_run
    (Connection.flowing_start T (sha3 (serverRespond K identity random state.hello).2)) hfit
    (fun side => by cases side <;> simpa [Connection.start] using hlen)
  have hback := (hflow.carries side.other).sent_eq
  rw [Connection.other_other] at hback
  refine ⟨?_, ?_, (pending side.other).length, hflow.drain _ rfl (hsent _)⟩
  · rw [hflow.channel side]
    rfl
  · rw [hback]
    exact List.prefix_append _ _

/-- A client and a server that both send before either receives. -/
theorem established_crossing : ∃ clientKey serverKey,
    clientKey = serverKey ∧
    let c := [Move.send .client [7], .send .server [8], .recv .client].foldl
      (Connection.step .clear) (Connection.start .clear clientKey serverKey)
    (c.ends .server).channel.isSome = true ∧
    ∃ n, (((List.replicate n (.recv .server)).foldl (Connection.step .clear) c).ends
      .server).accepted = (c.ends .client).sent := by
  obtain ⟨reply, clientKey, serverKey, -, -, -, hkey, hrun⟩ := established .clear plainKem firstBytes
    zeroState zeroIdentity zeroRandom
    (show ∀ expected ∈ (none : Option (ByteArr 32)), expected = zeroIdentity.public from
      fun _ h => nomatch h)
    (plainKem_decapsulate _ _ _)
  obtain ⟨hopen, -, hall⟩ := hrun [.send .client [7], .send .server [8], .recv .client] (by decide)
    (by
      intro side p hp
      simp only [List.mem_cons, Move.send.injEq, reduceCtorEq, List.not_mem_nil, or_false] at hp
      rcases hp with ⟨-, rfl⟩ | ⟨-, rfl⟩
      all_goals exact of_decide_eq_true rfl) .server
  exact ⟨clientKey, serverKey, hkey, hopen, hall⟩

end Net

end Ciphra
