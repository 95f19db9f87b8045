import Blkit.Data.Fallible
import Mathlib.Data.Set.Insert

/-!
# Envelopes

Every message is a body in an envelope, both serialised, and the body encrypted when there is a
cipher.  The serialiser can read back what it writes.  A cipher is authenticated: it opens what
was sealed with it and nothing else, and no two texts are sealed under one nonce.
-/

namespace Blkit.Wire

open Fallible

abbrev Bytes := List UInt8

/-- `Envelope`; the nonce is empty when it is not set. -/
structure Envelope where
  v : UInt8
  kind : String
  instanceID : String
  correlationKey : Option String
  keyID : Option String
  nonce : Bytes
  payload : Bytes
deriving DecidableEq

def envelopeVersion : UInt8 := 1

inductive WireError where
  | encodePayload (kind cause : String)
  | encrypt (kind cause : String)
  | encodeEnvelope (cause : String)
  | decodeEnvelope (cause : String)
  | unknownVersion (v : UInt8)
  | unknownKeyID (keyID : String)
  | badNonceLength (length : Nat)
  | authentication
  | decrypt (cause : WireError)
  | decodePayload (kind cause : String)

/-- A serialiser of `X`, which reads back what it writes. -/
structure Serialiser (X : Type) where
  marshal : X → Except String Bytes
  unmarshal : Bytes → Except String X
  unmarshal_marshal : ∀ {x data}, marshal x = .ok data → unmarshal data = .ok x

/-- Authenticated encryption under one key, and all that is ever sealed with the key. -/
structure AEAD where
  nonceSize : Nat
  sealWith : Bytes → Bytes → Bytes
  openWith : Bytes → Bytes → Option Bytes
  sealed : Set (Bytes × Bytes)
  openWith_eq_some : ∀ {nonce ciphertext plaintext}, openWith nonce ciphertext = some plaintext ↔
    (nonce, plaintext) ∈ sealed ∧ ciphertext = sealWith nonce plaintext
  once : ∀ {nonce p p'}, (nonce, p) ∈ sealed → (nonce, p') ∈ sealed → p = p'

/-- `aesGCMPayloadCipher`. -/
structure PayloadCipher where
  keyID : String
  aead : AEAD

namespace PayloadCipher

variable (c : PayloadCipher)

/-- `Encrypt`: the ciphertext and the nonce, given what `rand.Read` answers. -/
def encrypt (rand : (n : Nat) → Except String (Vector UInt8 n)) (plaintext : Bytes) :
    Except String (Bytes × Bytes) := do
  let nonce ← rand c.aead.nonceSize
  .ok (c.aead.sealWith nonce.toList plaintext, nonce.toList)

def decrypt (keyID : String) (nonce ciphertext : Bytes) : Except WireError Bytes :=
  if keyID ≠ c.keyID then .error (.unknownKeyID keyID)
  else if nonce.length ≠ c.aead.nonceSize then .error (.badNonceLength nonce.length)
  else match c.aead.openWith nonce ciphertext with
    | some plaintext => .ok plaintext
    | none => .error .authentication

/-- Another cipher: it has another key id, or another key, under which nothing opens that was sealed
with this one. -/
def Differs (c' : PayloadCipher) : Prop :=
  c'.keyID ≠ c.keyID ∨ ∀ nonce plaintext,
    c'.aead.openWith nonce (c.aead.sealWith nonce plaintext) = none

variable {c} {keyID : String} {nonce ciphertext plaintext : Bytes}

lemma decrypt_eq_ok : c.decrypt keyID nonce ciphertext = .ok plaintext ↔
    keyID = c.keyID ∧ nonce.length = c.aead.nonceSize ∧ c.aead.openWith nonce ciphertext =
      some plaintext := by
  unfold decrypt
  split_ifs with hk hn
  · simp [hk]
  · simp [hn]
  · cases c.aead.openWith nonce ciphertext <;> simp_all

end PayloadCipher

section

variable {D : Type} (body : Serialiser D) (cbor : Serialiser Envelope)
variable (rand : (n : Nat) → Except String (Vector UInt8 n))
variable (kind instanceID : String) (correlationKey : Option String) (d : D)

def encodeEnvelope (cipher : Option PayloadCipher) : Except WireError Bytes := do
  let payload ← (body.marshal d).mapError (.encodePayload kind)
  let env : Envelope := ⟨envelopeVersion, kind, instanceID, correlationKey, none, [], payload⟩
  let env ← match cipher with
    | none => .ok env
    | some c => do
      let (ciphertext, nonce) ← (c.encrypt rand payload).mapError (.encrypt kind)
      .ok { env with keyID := some c.keyID, nonce, payload := ciphertext }
  (cbor.marshal env).mapError .encodeEnvelope

def decodeEnvelope (data : Bytes) (cipher : Option PayloadCipher) : Except WireError Envelope := do
  let env ← (cbor.unmarshal data).mapError .decodeEnvelope
  if env.v ≠ envelopeVersion then .error (.unknownVersion env.v)
  else match env.keyID with
    | none => .ok env
    | some keyID => match cipher with
      | none => .error (.unknownKeyID keyID)
      | some c => do
        let plaintext ← (c.decrypt keyID env.nonce env.payload).mapError .decrypt
        .ok { env with keyID := none, nonce := [], payload := plaintext }

def Envelope.decodePayload (env : Envelope) : Except WireError D :=
  (body.unmarshal env.payload).mapError (.decodePayload env.kind)

variable {body cbor rand kind instanceID correlationKey d}

lemma mapError_eq_ok {X E E' : Type} {f : E → E'} {x : Except E X} {a : X} :
    x.mapError f = .ok a ↔ x = .ok a := by
  cases x <;> simp [Except.mapError]

/-- The envelope around a body: the body itself, or sealed under a nonce. -/
def envelopeOf (kind instanceID : String) (correlationKey : Option String) (payload : Bytes) :
    Option (PayloadCipher × Bytes) → Envelope
  | none => ⟨envelopeVersion, kind, instanceID, correlationKey, none, [], payload⟩
  | some (c, nonce) =>
    ⟨envelopeVersion, kind, instanceID, correlationKey, some c.keyID, nonce,
      c.aead.sealWith nonce payload⟩

variable {data payload : Bytes} {c c' : PayloadCipher} {env : Envelope}
  {cipher : Option PayloadCipher}

lemma unmarshal_encode
    (h : encodeEnvelope body cbor rand kind instanceID correlationKey d cipher = .ok data) :
    ∃ payload, body.marshal d = .ok payload ∧ match cipher with
      | none => cbor.unmarshal data = .ok (envelopeOf kind instanceID correlationKey payload none)
      | some c => ∃ nonce, rand c.aead.nonceSize = .ok nonce ∧
          cbor.unmarshal data =
            .ok (envelopeOf kind instanceID correlationKey payload (some (c, nonce.toList))) := by
  simp only [encodeEnvelope, bind_eq_ok, mapError_eq_ok] at h
  obtain ⟨payload, hp, h⟩ := h
  refine ⟨payload, hp, ?_⟩
  cases cipher with
  | none => exact cbor.unmarshal_marshal (mapError_eq_ok.1 h)
  | some c =>
    simp only [PayloadCipher.encrypt, bind_eq_ok, mapError_eq_ok, ok_bind] at h
    obtain ⟨_, ⟨nonce, hr, ⟨⟩⟩, hm⟩ := h
    exact ⟨nonce, hr, cbor.unmarshal_marshal hm⟩

/-- What comes out of an encrypted envelope was opened by a cipher. -/
lemma decode_sealed {sent : Envelope} (h : cbor.unmarshal data = .ok sent)
    (hk : sent.keyID = some c.keyID)
    (hv : sent.v = envelopeVersion) :
    decodeEnvelope cbor data cipher = .ok env ↔ ∃ c' ∈ cipher, ∃ plaintext,
      c'.decrypt c.keyID sent.nonce sent.payload = .ok plaintext ∧
      { sent with keyID := none, nonce := [], payload := plaintext } = env := by
  simp only [decodeEnvelope, mapError_eq_ok.2 h, ok_bind, hv, hk, ne_eq,
    not_true_eq_false, if_false]
  cases cipher with
  | none => simp
  | some c' => simp [bind_eq_ok, mapError_eq_ok]

/-- Envelopes come back as they were sent: decoding what was encoded, with the same cipher or with
none for none, gives the kind, the ids and the body.  What was encoded with a cipher does not decode
without it, with another one, or with other bytes in place of the encrypted ones. -/
theorem envelope_faithful
    (h : encodeEnvelope body cbor rand kind instanceID correlationKey d cipher = .ok data)
    (hsealed : ∀ c ∈ cipher, ∀ nonce payload, rand c.aead.nonceSize = .ok nonce →
      body.marshal d = .ok payload →
      (nonce.toList, payload) ∈ c.aead.sealed) :
    (∃ env, decodeEnvelope cbor data cipher = .ok env ∧ env.kind = kind ∧
      env.instanceID = instanceID ∧
      env.correlationKey = correlationKey ∧ env.decodePayload body = .ok d) ∧
    ∀ c ∈ cipher, (∀ env, decodeEnvelope cbor data none ≠ .ok env) ∧
      (∀ c', c.Differs c' → ∀ env, decodeEnvelope cbor data (some c') ≠ .ok env) ∧
      ∀ sent data', cbor.unmarshal data = .ok sent → ∀ payload ≠ sent.payload,
        cbor.marshal { sent with payload } = .ok data' →
        ∀ env, decodeEnvelope cbor data' (some c) ≠ .ok env := by
  obtain ⟨payload, hp, hdata⟩ := unmarshal_encode h
  have hbody : body.unmarshal payload = .ok d := body.unmarshal_marshal hp
  cases cipher with
  | none =>
    refine ⟨⟨envelopeOf kind instanceID correlationKey payload none, ?_, rfl, rfl, rfl,
      mapError_eq_ok.2 hbody⟩, by simp⟩
    simp [decodeEnvelope, mapError_eq_ok.2 hdata, envelopeOf]
  | some c =>
    obtain ⟨nonce, hr, hdata⟩ := hdata
    have hlog := hsealed c rfl nonce payload hr hp
    have hopen := c.aead.openWith_eq_some.2 ⟨hlog, rfl⟩
    constructor
    · refine ⟨_, (decode_sealed hdata rfl rfl).2 ⟨c, rfl, payload, ?_, rfl⟩, rfl, rfl,
        rfl, mapError_eq_ok.2 hbody⟩
      exact PayloadCipher.decrypt_eq_ok.2 ⟨rfl, by simp [envelopeOf], hopen⟩
    rintro _ ⟨⟩
    refine ⟨fun env he => ?_, fun c' hc' env he => ?_,
      fun sent data' hsent changed hne hm env he => ?_⟩
    · obtain ⟨_, ⟨⟩, -⟩ := (decode_sealed hdata rfl rfl).1 he
    · obtain ⟨_, ⟨⟩, plaintext, hd, -⟩ := (decode_sealed hdata rfl rfl).1 he
      obtain ⟨hk, -, ho⟩ := PayloadCipher.decrypt_eq_ok.1 hd
      rcases hc' with hid | hkey
      · exact hid hk.symm
      · exact absurd (ho.symm.trans (hkey ..)) (by simp)
    · cases hsent.symm.trans hdata
      obtain ⟨_, ⟨⟩, plaintext, hd, -⟩ := (decode_sealed (cbor.unmarshal_marshal hm) rfl rfl).1 he
      obtain ⟨-, -, ho⟩ := PayloadCipher.decrypt_eq_ok.1 hd
      -- Only one text was sealed under the nonce, so only one ciphertext opens.
      obtain ⟨hlog', hchanged⟩ := c.aead.openWith_eq_some.1 ho
      exact hne (hchanged.trans (congrArg _ (c.aead.once hlog' hlog)))

end

/-- A toy key: a sealed text is the text behind its nonce, and one text is ever sealed. -/
def toyKey (nonce text : Bytes) : AEAD where
  nonceSize := nonce.length
  sealWith n p := n ++ p
  openWith n ct := if n = nonce ∧ ct = nonce ++ text then some text else none
  sealed := {(nonce, text)}
  openWith_eq_some := by
    intro n ct p
    simp only [Option.ite_none_right_eq_some, Set.mem_singleton_iff,
      Prod.mk.injEq, Option.some.injEq]
    grind
  once := by
    rintro n p p' ⟨⟩ ⟨⟩
    rfl

/-- Bytes as they are. -/
def rawBytes : Serialiser Bytes where
  marshal := .ok
  unmarshal := .ok
  unmarshal_marshal h := h.symm

/-- Envelopes that have everything but the payload in common. -/
def likeEnvelope (like : Envelope) : Serialiser Envelope where
  marshal env :=
    if { like with payload := env.payload } = env then .ok env.payload else .error "unlike"
  unmarshal data := .ok { like with payload := data }
  unmarshal_marshal := by
    intro env data h
    split_ifs at h with heq
    cases h
    rw [heq]

def toyCipher : PayloadCipher := ⟨"k1", toyKey [7] [1, 2]⟩

def toyEnvelope : Envelope := envelopeOf "job.start" "i1" (some "ck") [1, 2] (some (toyCipher, [7]))

/-- What is decoded is what was encoded, and a changed text is refused. -/
theorem envelope_faithful_toy :
    (∃ env, decodeEnvelope (likeEnvelope toyEnvelope) [7, 1, 2] (some toyCipher) = .ok env ∧
    env.correlationKey = some "ck" ∧
      env.decodePayload rawBytes = .ok [1, 2]) ∧
    ∀ env, decodeEnvelope (likeEnvelope toyEnvelope) [7, 1, 3] (some toyCipher) ≠ .ok env := by
  have h : encodeEnvelope rawBytes (likeEnvelope toyEnvelope) (fun n => .ok (.replicate n 7))
      "job.start" "i1" (some "ck")
      [1, 2] (some toyCipher) = .ok [7, 1, 2] := rfl
  obtain ⟨⟨env, he, -, -, hc, hd⟩, hfail⟩ := envelope_faithful h (by
    rintro _ ⟨⟩ _ _ ⟨⟩ ⟨⟩
    rfl)
  exact ⟨⟨env, he, hc, hd⟩, (hfail toyCipher rfl).2.2 toyEnvelope _ rfl [7, 1, 3] (by decide) rfl⟩

end Blkit.Wire
