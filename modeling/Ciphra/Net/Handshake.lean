import Ciphra.Net.Channel
import Ciphra.Primitives.X25519

/-!
# The handshake

One round trip in clear: the client sends an ephemeral X25519 key and an ML-KEM encapsulation key,
the server answers with its static key, an ephemeral key of its own and a ciphertext. Each side then
hashes three shared secrets and the messages to the key of the channel. What the other side reads is
the adversary's choice: `clientHandshake` and `serverHandshake` take the bytes read as arguments.

The static key enters the hash through a Diffie-Hellman result only. Everything else a side sent is
bound by an equal key; the static key is, exactly as far as X25519 tells keys apart
(`handshake_binds_iff`), and reading a key drops its top bit.
-/

namespace Ciphra

namespace Net

/-! ## Messages -/

/-- Length of an ML-KEM encapsulation key. -/
def ekLen : ℕ := 1184

/-- Length of an ML-KEM ciphertext. -/
def ctLen : ℕ := 1088

/-- The key encapsulation mechanism, its randomness explicit. -/
structure Kem where
  encapsulate : Bytes → ByteArr 32 → Bytes × ByteArr 32
  decapsulate : Bytes → Bytes → ByteArr 32
  length_encapsulate : ∀ ek m, (encapsulate ek m).1.length = ctLen

/-- A server's long-term transport identity. -/
structure ServerIdentity where
  secret : ByteArr 32

/-- The public key of a secret, as an array. -/
def publicArr (secret : ByteArr 32) : ByteArr 32 := ⟨publicKey secret.1, length_scalarmult _ _⟩

def ServerIdentity.public (identity : ServerIdentity) : ByteArr 32 := publicArr identity.secret

/-- The client's first message: ephemeral X25519 key and ML-KEM key. -/
structure ClientHello where
  eC : ByteArr 32
  ek : Bytes

/-- The server's reply: ephemeral X25519 key and ML-KEM ciphertext. -/
structure ServerHello where
  eS : ByteArr 32
  ct : Bytes

def ClientHello.toBytes (hello : ClientHello) : Bytes := hello.eC.1 ++ hello.ek

def ClientHello.fromBytes (bytes : Bytes) : Option ClientHello :=
  if h : bytes.length = 32 + ekLen then
    some ⟨⟨bytes.take 32, by rw [List.length_take, h]; rfl⟩, bytes.drop 32⟩
  else none

def ServerHello.toBytes (hello : ServerHello) : Bytes := hello.eS.1 ++ hello.ct

def ServerHello.fromBytes (bytes : Bytes) : Option ServerHello :=
  if h : bytes.length = 32 + ctLen then
    some ⟨⟨bytes.take 32, by rw [List.length_take, h]; rfl⟩, bytes.drop 32⟩
  else none

/-- Client-side state carried between the two messages, as the start of a handshake makes it. -/
structure ClientState where
  eSecret : ByteArr 32
  ePublic : ByteArr 32
  ek : Bytes
  dk : Bytes
  ePublic_eq : ePublic = publicArr eSecret
  length_ek : ek.length = ekLen

/-- The hello of the state. -/
def ClientState.hello (state : ClientState) : ClientHello := ⟨state.ePublic, state.ek⟩

/-! ## The key -/

/-- What is hashed: a label, the three secrets, then the messages. -/
def keyInput (dhE dhS : Bytes) (ssPq : ByteArr 32) (eC : ByteArr 32) (ek : Bytes) (eS : ByteArr 32)
    (ct : Bytes) : Bytes :=
  transportAad ++ dhE ++ dhS ++ ssPq.1 ++ eC.1 ++ ek ++ eS.1 ++ ct

/-- What the client hashes to finish the handshake. -/
def clientInput (K : Kem) (state : ClientState) (hello : ServerHello)
    (serverStaticPublic : ByteArr 32) : Bytes :=
  let dhE := diffieHellman state.eSecret.1 hello.eS.1
  let dhS := diffieHellman state.eSecret.1 serverStaticPublic.1
  let ssPq := K.decapsulate state.dk hello.ct
  keyInput dhE dhS ssPq state.ePublic state.ek hello.eS hello.ct

/-- The server's randomness: its ephemeral secret, and the message of the encapsulation. -/
structure ServerRandom where
  eSecret : ByteArr 32
  m : ByteArr 32

/-- The reply to a hello, and what the server hashes. -/
def serverRespond (K : Kem) (identity : ServerIdentity) (random : ServerRandom)
    (hello : ClientHello) : ServerHello × Bytes :=
  let ePublic := publicArr random.eSecret
  let dhE := diffieHellman random.eSecret.1 hello.eC.1
  let dhS := diffieHellman identity.secret.1 hello.eC.1
  let (ct, ssPq) := K.encapsulate hello.ek random.m
  (⟨ePublic, ct⟩, keyInput dhE dhS ssPq hello.eC hello.ek ePublic ct)

/-! ## Both sides -/

/-- The server reads a hello and answers: the bytes of the reply, and the channel key. -/
def serverHandshake (K : Kem) (sha3 : Bytes → ByteArr 32) (identity : ServerIdentity)
    (random : ServerRandom) (read : Bytes) : Option (Bytes × ByteArr 32) := do
  let hello ← ClientHello.fromBytes read
  let (reply, input) := serverRespond K identity random hello
  pure (identity.public.1 ++ reply.toBytes, sha3 input)

/-- A reply as the client takes it apart: the server's static key and hello. -/
def parseReply (pinned : Option (ByteArr 32)) (reply : Bytes) :
    Option (ByteArr 32 × ServerHello) :=
  if h : reply.length = 32 + (32 + ctLen) then
    let serverPublic : ByteArr 32 := ⟨reply.take 32, by rw [List.length_take, h]; rfl⟩
    -- a pinned key must match
    if pinned.any fun expected => expected ≠ serverPublic then none
    else (ServerHello.fromBytes (reply.drop 32)).map fun hello => (serverPublic, hello)
  else none

/-- The client reads the reply: the channel key. -/
def clientHandshake (K : Kem) (sha3 : Bytes → ByteArr 32) (state : ClientState)
    (pinned : Option (ByteArr 32)) (read : Bytes) : Option (ByteArr 32) := do
  let (serverPublic, hello) ← parseReply pinned read
  pure (sha3 (clientInput K state hello serverPublic))

/-! ## Taking messages apart -/

theorem ClientHello.fromBytes_eq_some {bytes : Bytes} {hello : ClientHello} :
    ClientHello.fromBytes bytes = some hello ↔
      bytes = hello.toBytes ∧ hello.ek.length = ekLen := by
  unfold ClientHello.fromBytes
  constructor
  · intro h
    split at h
    · rename_i hlen
      cases h
      exact ⟨(List.take_append_drop 32 bytes).symm, by simp [hlen]⟩
    · cases h
  · rintro ⟨rfl, hek⟩
    have hlen : hello.toBytes.length = 32 + ekLen := by
      rw [ClientHello.toBytes, List.length_append, hello.eC.2, hek]
    rw [dif_pos hlen]
    obtain ⟨⟨eC, heC⟩, ek⟩ := hello
    simp [ClientHello.toBytes, List.take_left' heC, List.drop_left' heC]

theorem ServerHello.fromBytes_eq_some {bytes : Bytes} {hello : ServerHello} :
    ServerHello.fromBytes bytes = some hello ↔
      bytes = hello.toBytes ∧ hello.ct.length = ctLen := by
  unfold ServerHello.fromBytes
  constructor
  · intro h
    split at h
    · rename_i hlen
      cases h
      exact ⟨(List.take_append_drop 32 bytes).symm, by simp [hlen]⟩
    · cases h
  · rintro ⟨rfl, hct⟩
    have hlen : hello.toBytes.length = 32 + ctLen := by
      rw [ServerHello.toBytes, List.length_append, hello.eS.2, hct]
    rw [dif_pos hlen]
    obtain ⟨⟨eS, heS⟩, ct⟩ := hello
    simp [ServerHello.toBytes, List.take_left' heS, List.drop_left' heS]

/-- What the client accepts: a static key, the pinned one if there is one, and a hello. -/
theorem parseReply_eq_some {pinned : Option (ByteArr 32)} {reply : Bytes} {key : ByteArr 32}
    {hello : ServerHello} :
    parseReply pinned reply = some (key, hello) ↔
      reply = key.1 ++ hello.toBytes ∧ hello.ct.length = ctLen ∧
        ∀ expected ∈ pinned, expected = key := by
  unfold parseReply
  constructor
  · intro h
    split at h
    · rename_i hlen
      simp only at h
      split at h
      · cases h
      · rename_i hpin
        obtain ⟨hello', hhello, hpair⟩ := Option.map_eq_some_iff.mp h
        obtain ⟨hdrop, hct⟩ := ServerHello.fromBytes_eq_some.mp hhello
        cases hpair
        refine ⟨?_, hct, fun expected hexp => ?_⟩
        · rw [← hdrop]
          exact (List.take_append_drop 32 reply).symm
        · by_contra hne
          rw [Option.mem_def.mp hexp] at hpin
          exact hpin (by simpa using hne)
    · cases h
  · rintro ⟨rfl, hct, hpin⟩
    have hlen : (key.1 ++ hello.toBytes).length = 32 + (32 + ctLen) := by
      rw [List.length_append, ServerHello.toBytes, List.length_append, key.2, hello.eS.2, hct]
    rw [dif_pos hlen]
    have htake : (⟨(key.1 ++ hello.toBytes).take 32, by rw [List.length_take, hlen]; rfl⟩ :
        ByteArr 32) = key := Subtype.ext (List.take_left' key.2)
    have hany : (pinned.any fun expected => expected ≠ key) = false := by
      cases hp : pinned with
      | none => rfl
      | some expected => simp [hpin expected (by rw [hp]; rfl)]
    simp only [htake, hany, Bool.false_eq_true, if_false, List.drop_left' key.2,
      ServerHello.fromBytes_eq_some.mpr ⟨rfl, hct⟩, Option.map_some]

/-- The hashed bytes determine every part of them. -/
theorem keyInput_inj {dhE dhE' dhS dhS' : Bytes} {ss ss' eC eC' eS eS' : ByteArr 32}
    {ek ek' ct ct' : Bytes} (hE : dhE.length = dhE'.length) (hS : dhS.length = dhS'.length)
    (hek : ek.length = ek'.length) :
    keyInput dhE dhS ss eC ek eS ct = keyInput dhE' dhS' ss' eC' ek' eS' ct' ↔
      dhE = dhE' ∧ dhS = dhS' ∧ ss = ss' ∧ eC = eC' ∧ ek = ek' ∧ eS = eS' ∧ ct = ct' := by
  constructor
  · intro h
    simp only [keyInput, List.append_assoc] at h
    replace h := List.append_cancel_left h
    obtain ⟨h1, h⟩ := List.append_inj h hE
    obtain ⟨h2, h⟩ := List.append_inj h hS
    obtain ⟨h3, h⟩ := List.append_inj h (by rw [ss.2, ss'.2])
    obtain ⟨h4, h⟩ := List.append_inj h (by rw [eC.2, eC'.2])
    obtain ⟨h5, h⟩ := List.append_inj h hek
    obtain ⟨h6, h7⟩ := List.append_inj h (by rw [eS.2, eS'.2])
    exact ⟨h1, h2, Subtype.ext h3, Subtype.ext h4, h5, Subtype.ext h6, h7⟩
  · rintro ⟨rfl, rfl, rfl, rfl, rfl, rfl, rfl⟩
    rfl

/-! ## What an equal key binds -/

section Binding

variable (K : Kem) (sha3 : Bytes → ByteArr 32) (state : ClientState) (identity : ServerIdentity)
  (random : ServerRandom) (pinned : Option (ByteArr 32))

/-- **The channel key binds the handshake**: if both sides end with the same key, then each has read
what the other sent. -/
def Binds (helloRead replyRead : Bytes) : Prop :=
  ∀ key reply, clientHandshake K sha3 state pinned replyRead = some key →
    serverHandshake K sha3 identity random helloRead = some (reply, key) →
      helloRead = state.hello.toBytes ∧ replyRead = reply

/-- Untampered, the two sides agree on the two ephemeral secrets. -/
def EphemeralsAgree : Prop :=
  diffieHellman state.eSecret.1 (publicArr random.eSecret).1 =
      diffieHellman random.eSecret.1 state.ePublic.1 ∧
    K.decapsulate state.dk (K.encapsulate state.ek random.m).1 =
      (K.encapsulate state.ek random.m).2

/-- The static key alone was replaced, by one that X25519 does not tell from the server's. -/
def StaticReplaced (helloRead replyRead : Bytes) : Prop :=
  helloRead = state.hello.toBytes ∧ ∃ key : ByteArr 32, key ≠ identity.public ∧
    replyRead = key.1 ++ (serverRespond K identity random state.hello).1.toBytes ∧
    (∀ expected ∈ pinned, expected = key) ∧
    diffieHellman state.eSecret.1 key.1 = diffieHellman identity.secret.1 state.ePublic.1

theorem serverHandshake_hello : serverHandshake K sha3 identity random state.hello.toBytes =
    some (identity.public.1 ++ (serverRespond K identity random state.hello).1.toBytes,
      sha3 (serverRespond K identity random state.hello).2) := by
  have hhello : ClientHello.fromBytes state.hello.toBytes = some state.hello :=
    ClientHello.fromBytes_eq_some.mpr ⟨rfl, state.length_ek⟩
  rw [serverHandshake, hhello]
  rfl

theorem length_ct (hello : ClientHello) :
    (serverRespond K identity random hello).1.ct.length = ctLen :=
  K.length_encapsulate _ _

/-- When the untampered sides agree, replacing the static key by one X25519 does not tell from it
leaves the hashed bytes as they are. -/
theorem clientInput_eq (hagree : EphemeralsAgree K state random) {key : ByteArr 32}
    (hkey : diffieHellman state.eSecret.1 key.1 =
      diffieHellman identity.secret.1 state.ePublic.1) :
    clientInput K state (serverRespond K identity random state.hello).1 key =
      (serverRespond K identity random state.hello).2 := by
  simp only [clientInput, serverRespond, ClientState.hello]
  rw [hagree.1, hagree.2, hkey]

/-- A replaced static key leaves the two sides with the same channel key. -/
theorem not_binds_of_replaced {helloRead replyRead : Bytes} (hagree : EphemeralsAgree K state random)
    (h : StaticReplaced K state identity random pinned helloRead replyRead) :
    ¬ Binds K sha3 state identity random pinned helloRead replyRead := by
  obtain ⟨rfl, key, hne, rfl, hpin, hdh⟩ := h
  intro hbinds
  have hparse : parseReply pinned (key.1 ++ (serverRespond K identity random
      state.hello).1.toBytes) = some (key, (serverRespond K identity random state.hello).1) :=
    parseReply_eq_some.mpr ⟨rfl, length_ct K identity random _, hpin⟩
  have hclient : clientHandshake K sha3 state pinned (key.1 ++ (serverRespond K identity random
      state.hello).1.toBytes) = some (sha3 (serverRespond K identity random state.hello).2) := by
    rw [clientHandshake, hparse, ← clientInput_eq K state identity random hagree hdh]
    rfl
  obtain ⟨-, hreply⟩ := hbinds _ _ hclient (serverHandshake_hello K sha3 state identity random)
  exact hne (Subtype.ext (List.append_cancel_right hreply))

/-- The static key with its top bit flipped is such a key, whenever the untampered sides agree. -/
theorem staticReplaced_topBit (hstatic : diffieHellman state.eSecret.1 identity.public.1 =
      diffieHellman identity.secret.1 state.ePublic.1) :
    StaticReplaced K state identity random none state.hello.toBytes
      (flipTopBit identity.public.1 ++
        (serverRespond K identity random state.hello).1.toBytes) := by
  have hlen : (flipTopBit identity.public.1).length = 32 := by
    rw [flipTopBit, List.length_set, identity.public.2]
  refine ⟨rfl, ⟨flipTopBit identity.public.1, hlen⟩, fun heq => ?_, rfl, (fun _ h => absurd h.symm (Option.some_ne_none _)), ?_⟩
  · exact flipTopBit_ne identity.public.2 (congrArg Subtype.val heq)
  · rw [diffieHellman, scalarmult_topBit _ identity.public.2]
    exact hstatic

/-- **What the key binds**, for every client state, server identity and randomness and whatever
either side reads, when the hash does not collide on what the two sides hash. -/
theorem handshake_binds_iff (helloRead replyRead : Bytes)
    (hsha3 : ∀ hello reply key, ClientHello.fromBytes helloRead = some hello →
      parseReply pinned replyRead = some (key, reply) →
      sha3 (clientInput K state reply key) = sha3 (serverRespond K identity random hello).2 →
      clientInput K state reply key = (serverRespond K identity random hello).2) :
    Binds K sha3 state identity random pinned helloRead replyRead ↔
      ¬ (EphemeralsAgree K state random ∧
        StaticReplaced K state identity random pinned helloRead replyRead) := by
  constructor
  · rintro hbinds ⟨hagree, hreplaced⟩
    exact not_binds_of_replaced K sha3 state identity random pinned hagree hreplaced hbinds
  · intro hno key reply hclient hserver
    obtain ⟨hello, hhello, hserver⟩ := Option.bind_eq_some_iff.mp hserver
    obtain ⟨⟨static, shello⟩, hparse, hclient⟩ := Option.bind_eq_some_iff.mp hclient
    cases hserver
    have hinput := hsha3 hello shello static hhello hparse (Option.some.inj hclient)
    obtain ⟨rfl, hek⟩ := ClientHello.fromBytes_eq_some.mp hhello
    obtain ⟨rfl, hct, hpin⟩ := parseReply_eq_some.mp hparse
    obtain ⟨hdhE, hdhS, hss, heC, hek', heS, hct'⟩ := (keyInput_inj (by simp [diffieHellman,
      length_scalarmult]) (by simp [diffieHellman, length_scalarmult])
      (state.length_ek.trans hek.symm)).mp hinput
    have hhello' : hello = state.hello := by
      obtain ⟨eC, ek⟩ := hello
      rw [ClientState.hello, ClientHello.mk.injEq]
      exact ⟨heC.symm, hek'.symm⟩
    have hshello : shello = (serverRespond K identity random hello).1 := by
      obtain ⟨eS, ct⟩ := shello
      rw [serverRespond, ServerHello.mk.injEq]
      exact ⟨heS, hct'⟩
    subst hhello'
    refine ⟨rfl, ?_⟩
    rw [hshello]
    -- only the static key can differ, and then the handshake is of the excluded kind
    by_contra hne
    refine hno ⟨⟨?_, ?_⟩, rfl, static, fun heq => hne (by rw [heq]; rfl), by rw [hshello], hpin, hdhS⟩
    · rw [heS] at hdhE
      exact hdhE
    · rw [hct'] at hss
      exact hss

end Binding

/-- An encapsulation that shows the secret. -/
def plainKem : Kem where
  encapsulate _ m := (m.1 ++ List.replicate 1056 0, m)
  decapsulate _ ct := if h : (ct.take 32).length = 32 then ⟨ct.take 32, h⟩ else ByteArr.zeros 32
  length_encapsulate ek m := by rw [List.length_append, m.2, List.length_replicate]; rfl

/-- The first bytes of the data, in place of a hash. -/
def firstBytes (data : Bytes) : ByteArr 32 :=
  ⟨(data ++ List.replicate 32 0).take 32, by simp⟩

/-- A client, a server and its randomness with all secrets zero. -/
def zeroState : ClientState :=
  ⟨.zeros 32, publicArr (.zeros 32), List.replicate 1184 0, [], rfl, List.length_replicate⟩

def zeroIdentity : ServerIdentity := ⟨.zeros 32⟩

def zeroRandom : ServerRandom := ⟨.zeros 32, .zeros 32⟩

theorem plainKem_decapsulate (dk ek : Bytes) (m : ByteArr 32) :
    plainKem.decapsulate dk (plainKem.encapsulate ek m).1 = m := by
  have htake : (m.1 ++ List.replicate 1056 0).take 32 = m.1 := List.take_left' m.2
  simp only [plainKem, htake, m.2, dif_pos]

theorem zero_agree : EphemeralsAgree plainKem zeroState zeroRandom :=
  ⟨rfl, plainKem_decapsulate _ _ _⟩

/-- The last bytes of the data, in place of a hash that sees the end of the ciphertext. -/
def lastBytes (data : Bytes) : ByteArr 32 :=
  ⟨(List.replicate 32 0 ++ data).drop data.length, by
    rw [List.length_drop, List.length_append, List.length_replicate, Nat.add_sub_cancel]⟩

theorem lastBytes_append (front : Bytes) {back : Bytes} (h : 32 ≤ back.length) :
    (lastBytes (front ++ back)).1 = back.drop (back.length - 32) := by
  have hfront : (List.replicate 32 (0 : UInt8) ++ front).drop (front ++ back).length = [] :=
    List.drop_eq_nil_of_le (by simp only [List.length_append, List.length_replicate]; omega)
  have hstart : (front ++ back).length - (List.replicate 32 (0 : UInt8) ++ front).length =
      back.length - 32 := by
    simp only [List.length_append, List.length_replicate]
    omega
  calc (lastBytes (front ++ back)).1
      = ((List.replicate 32 0 ++ front) ++ back).drop (front ++ back).length := by
        rw [lastBytes, List.append_assoc]
    _ = back.drop (back.length - 32) := by rw [List.drop_append, hfront, hstart, List.nil_append]

theorem lastBytes_clientInput (K : Kem) (state : ClientState) {hello : ServerHello}
    (hct : hello.ct.length = ctLen) (key : ByteArr 32) :
    (lastBytes (clientInput K state hello key)).1 = hello.ct.drop 1056 := by
  have h := lastBytes_append (transportAad ++ diffieHellman state.eSecret.1 hello.eS.1 ++
    diffieHellman state.eSecret.1 key.1 ++ (K.decapsulate state.dk hello.ct).1 ++ state.ePublic.1 ++
    state.ek ++ hello.eS.1) (hct.symm ▸ (by decide : 32 ≤ ctLen))
  rw [hct] at h
  exact h

theorem lastBytes_serverRespond (K : Kem) (identity : ServerIdentity) (random : ServerRandom)
    (hello : ClientHello) : (lastBytes (serverRespond K identity random hello).2).1 =
      (serverRespond K identity random hello).1.ct.drop 1056 := by
  have hct := length_ct K identity random hello
  have h := lastBytes_append (transportAad ++ diffieHellman random.eSecret.1 hello.eC.1 ++
    diffieHellman identity.secret.1 hello.eC.1 ++ (K.encapsulate hello.ek random.m).2.1 ++
    hello.eC.1 ++ hello.ek ++ (publicArr random.eSecret).1) (hct.symm ▸ (by decide : 32 ≤ ctLen))
  rw [hct] at h
  exact h

/-- The array of one byte. -/
def sameByte (byte : UInt8) : ByteArr 32 := ⟨List.replicate 32 byte, List.length_replicate⟩

def sampleState : ClientState :=
  ⟨sameByte 1, publicArr (sameByte 1), List.replicate 1184 2, [], rfl, List.length_replicate⟩

def sampleIdentity : ServerIdentity := ⟨sameByte 3⟩

def sampleRandom : ServerRandom := ⟨sameByte 4, sameByte 5⟩

/-- The server's hello, the last byte of the ciphertext altered on the way. -/
def alteredHello : ServerHello :=
  let hello := (serverRespond plainKem sampleIdentity sampleRandom sampleState.hello).1
  ⟨hello.eS, hello.ct.set 1087 1⟩

/-- The server answers the hello, the client accepts a reply altered in one byte, and the two end
with different keys. -/
theorem handshake_altered :
    let reply := sampleIdentity.public.1 ++
      (serverRespond plainKem sampleIdentity sampleRandom sampleState.hello).1.toBytes
    let altered := sampleIdentity.public.1 ++ alteredHello.toBytes
    altered ≠ reply ∧
      Binds plainKem lastBytes sampleState sampleIdentity sampleRandom (some sampleIdentity.public)
        sampleState.hello.toBytes altered ∧
      ∃ clientKey serverKey,
        clientHandshake plainKem lastBytes sampleState (some sampleIdentity.public) altered =
          some clientKey ∧
        serverHandshake plainKem lastBytes sampleIdentity sampleRandom sampleState.hello.toBytes =
          some (reply, serverKey) ∧ clientKey ≠ serverKey := by
  intro reply altered
  have hlast : alteredHello.ct.drop 1056 ≠
      (serverRespond plainKem sampleIdentity sampleRandom sampleState.hello).1.ct.drop 1056 := by
    decide +kernel
  have hne : altered ≠ reply := by
    intro heq
    exact hlast (congrArg (List.drop 1056) (List.append_cancel_left (List.append_cancel_left heq)))
  have hct : (serverRespond plainKem sampleIdentity sampleRandom sampleState.hello).1.ct.length =
      ctLen := length_ct plainKem sampleIdentity sampleRandom _
  have hlen : alteredHello.ct.length = ctLen := by rw [alteredHello, List.length_set, hct]
  have hhello : ClientHello.fromBytes sampleState.hello.toBytes = some sampleState.hello :=
    ClientHello.fromBytes_eq_some.mpr ⟨rfl, sampleState.length_ek⟩
  have hparse : parseReply (some sampleIdentity.public) altered =
      some (sampleIdentity.public, alteredHello) :=
    parseReply_eq_some.mpr ⟨rfl, hlen, fun _ h => (Option.some.inj h).symm⟩
  have hbinds : Binds plainKem lastBytes sampleState sampleIdentity sampleRandom
      (some sampleIdentity.public) sampleState.hello.toBytes altered := by
    refine (handshake_binds_iff plainKem lastBytes sampleState sampleIdentity sampleRandom _ _ _
      fun hello shello key hh hp heq => ?_).mpr ?_
    · obtain rfl := Option.some.inj (hhello.symm.trans hh)
      obtain ⟨rfl, rfl⟩ := Prod.mk.inj (Option.some.inj (hparse.symm.trans hp))
      refine absurd ?_ hlast
      rw [← lastBytes_clientInput plainKem sampleState hlen sampleIdentity.public, heq,
        lastBytes_serverRespond]
    · rintro ⟨-, -, key, -, heq, -⟩
      obtain ⟨-, heq⟩ := List.append_inj heq (by rw [key.2, sampleIdentity.public.2])
      exact hlast (congrArg (List.drop 1056) (List.append_cancel_left heq))
  have hclient : clientHandshake plainKem lastBytes sampleState (some sampleIdentity.public)
      altered = some (lastBytes (clientInput plainKem sampleState alteredHello
        sampleIdentity.public)) := by
    rw [clientHandshake, hparse]
    rfl
  have hserver := serverHandshake_hello plainKem lastBytes sampleState sampleIdentity sampleRandom
  refine ⟨hne, hbinds, _, _, hclient, hserver, fun heq => hne (hbinds _ _ hclient ?_).2⟩
  rw [heq]
  exact hserver

/-- The static key arrives with its top bit flipped, and both sides hash the same bytes. -/
theorem handshake_topBit :
    clientInput plainKem zeroState
        (serverRespond plainKem zeroIdentity zeroRandom zeroState.hello).1
        ⟨flipTopBit zeroIdentity.public.1, by rw [flipTopBit, List.length_set,
          zeroIdentity.public.2]⟩ =
      (serverRespond plainKem zeroIdentity zeroRandom zeroState.hello).2 ∧
    ¬ Binds plainKem firstBytes zeroState zeroIdentity zeroRandom none zeroState.hello.toBytes
      (flipTopBit zeroIdentity.public.1 ++
        (serverRespond plainKem zeroIdentity zeroRandom zeroState.hello).1.toBytes) := by
  constructor
  · refine clientInput_eq plainKem zeroState zeroIdentity zeroRandom zero_agree ?_
    rw [diffieHellman, scalarmult_topBit _ zeroIdentity.public.2]
    rfl
  · exact not_binds_of_replaced plainKem firstBytes zeroState zeroIdentity zeroRandom none
      zero_agree (staticReplaced_topBit plainKem zeroState zeroIdentity zeroRandom rfl)

end Net

end Ciphra
