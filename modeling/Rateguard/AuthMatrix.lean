import Rateguard.RoundTrip

/- Which receivers open what a sender sealed, for every pair of modes and secrets. -/
namespace Rateguard

theorem decVarint_continued {k width n : Nat} {b : UInt8} {bytes rest : List UInt8}
    (continued : 128 ≤ b.toNat)
    (h : Postcard.Codec.decVarint k width (b :: bytes) = some (n, rest)) : b.toNat - 128 ≤ n := by
  cases k with
  | zero => simp [Postcard.Codec.decVarint] at h
  | succ k =>
    simp only [Postcard.Codec.decVarint, if_neg (show ¬b.toNat < 128 by omega), bind,
      Option.bind_eq_some_iff, Option.some.injEq, Prod.mk.injEq] at h
    obtain ⟨⟨high, middle⟩, _, rfl, _⟩ := h
    dsimp only
    omega

/-- No message begins with the marker: as the index of a variant it is at least 38. -/
theorem messageCodec_first {m : Message} {bytes rest : List UInt8}
    (h : messageCodec.dec bytes = some (m, rest)) : bytes.head? ≠ some marker := by
  intro marked
  cases bytes with
  | nil => simp at marked
  | cons b bytes =>
    have first : b = marker := by simpa using marked
    subst first
    change Option.map _ (Option.bind _ _) = _ at h
    simp only [Option.map_eq_some_iff, Option.bind_eq_some_iff] at h
    obtain ⟨_, ⟨⟨i, middle⟩, index, h⟩, _⟩ := h
    have large := decVarint_continued (by decide) index
    have wide : 38 ≤ i := large
    dsimp only at h
    rw [dif_neg (by omega)] at h
    simp at h

theorem encode_first {m : Message} {bytes : List UInt8} (h : encode m = .ok bytes) :
    bytes.head? ≠ some marker :=
  messageCodec_first (decode_reads (decode_encode h))

theorem decode_first {m : Message} {bytes : List UInt8} (h : decode bytes = .ok m) :
    bytes.head? ≠ some marker :=
  messageCodec_first (decode_reads h)

namespace Auth
variable {mac : Secret → List UInt8 → Vector UInt8 tagLen} {mode : GossipAuth}
  {secrets : List Secret} {a : Auth} {message datagram : List UInt8}

def covered (message : List UInt8) : List UInt8 := marker :: frameVersion :: message

theorem new_cases (h : new mode secrets = .ok a) :
    mode = .off ∧ a = off ∨
      mode ≠ .off ∧ ∃ first others, secrets = first :: others ∧ a = ⟨mode, secrets⟩ := by
  unfold new at h
  split at h
  · simp at h
  · split at h
    · rename_i unsigning
      exact .inl ⟨unsigning, by simpa using h.symm⟩
    · rename_i signing
      cases secrets with
      | nil => simp at h
      | cons first others => exact .inr ⟨signing, first, others, rfl, by simpa using h.symm⟩

theorem sealFrame_off (message : List UInt8) : off.sealFrame mac message = message := rfl

theorem sealFrame_signed {first : Secret} (signs : a.secrets.head? = some first)
    (message : List UInt8) :
    a.sealFrame mac message = covered message ++ (mac first (covered message)).toList := by
  unfold sealFrame
  rw [signs]
  rfl

theorem openFrame_unsigned (unmarked : datagram.head? ≠ some marker) :
    a.openFrame mac datagram = if a.mode = .required then .error .unsigned else .ok datagram := by
  unfold openFrame
  rw [if_pos unmarked]
  cases a.mode <;> rfl

theorem openFrame_signed (message : List UInt8) (tag : Vector UInt8 tagLen) :
    a.openFrame mac (covered message ++ tag.toList) =
      if a.mode = .off ∨ ∃ secret ∈ a.secrets, mac secret (covered message) = tag then .ok message
      else .error .badTag := by
  have length : (covered message ++ tag.toList).length - tagLen = (covered message).length := by
    simp
  unfold openFrame
  rw [if_neg (by simp [covered]), if_neg, length]
  · simp only [List.take_left, List.drop_left, List.any_eq_true, decide_eq_true_eq]
    by_cases unchecked : a.mode = .off
    · simp [unchecked, covered]
    · simp [unchecked, covered, Vector.toList_inj]
  · have long : frameOverhead ≤ (covered message ++ tag.toList).length := by
      rw [List.length_append, Vector.length_toList]
      simp only [covered, frameOverhead, List.length_cons]
      omega
    simp [covered] at long ⊢
    exact long

/-- What a signing receiver takes out of a frame was sealed under one of its own secrets. -/
theorem openFrame_forged (signs : a.mode ≠ .off) (marked : datagram.head? = some marker)
    (opened : a.openFrame mac datagram = .ok message) :
    ∃ secret ∈ a.secrets, datagram = covered message ++ (mac secret (covered message)).toList := by
  unfold openFrame at opened
  rw [if_neg (by simpa using marked)] at opened
  split at opened
  · simp at opened
  · rename_i whole
    rw [not_or, not_lt, not_not] at whole
    obtain ⟨long, version⟩ := whole
    dsimp only at opened
    split at opened
    · rename_i verified
      simp only [Except.ok.injEq] at opened
      simp only [List.any_eq_true, decide_eq_true_eq] at verified
      obtain ⟨secret, own, tag⟩ := verified
      have split := List.take_append_drop (datagram.length - tagLen) datagram
      have frame : datagram.take (datagram.length - tagLen) = covered message := by
        match datagram, marked, version with
        | b :: v :: bytes, marked, version =>
          have first : b = marker := by simpa using marked
          have second : v = frameVersion := by simpa using version
          subst first second
          simp only [frameOverhead, tagLen, List.length_cons] at long
          have room : bytes.length + 1 + 1 - tagLen = bytes.length - tagLen + 2 := by
            simp only [tagLen]
            omega
          simp only [List.length_cons, room, List.take_succ_cons, List.drop_succ_cons,
            List.drop_zero, covered] at opened ⊢
          rw [← opened]
      refine ⟨secret, own, ?_⟩
      rw [← frame, tag, split]
    · simp at opened

theorem openFrame_shorter (marked : datagram.head? = some marker)
    (opened : a.openFrame mac datagram = .ok message) :
    message.length + frameOverhead = datagram.length := by
  unfold openFrame at opened
  rw [if_neg (by simpa using marked)] at opened
  split at opened
  · simp at opened
  · rename_i whole
    rw [not_or, not_lt, not_not] at whole
    have long := whole.1
    have length : ((datagram.take (datagram.length - tagLen)).drop 2).length + frameOverhead
        = datagram.length := by
      simp only [frameOverhead, tagLen, List.length_drop, List.length_take] at long ⊢
      omega
    dsimp only at opened
    split at opened
    · rw [Except.ok.injEq] at opened
      rw [← opened, length]
    · split at opened
      · rw [Except.ok.injEq] at opened
        rw [← opened, length]
      · simp at opened

def Admits (sendMode : GossipAuth) (sendSecrets : List Secret) (mode : GossipAuth)
    (secrets : List Secret) : Prop :=
  sendMode = .off ∧ mode ≠ .required ∨
    sendMode ≠ .off ∧ (mode = .off ∨ ∃ first, sendSecrets.head? = some first ∧ first ∈ secrets)

instance (sendMode mode : GossipAuth) (sendSecrets secrets : List Secret) :
    Decidable (Admits sendMode sendSecrets mode secrets) := by
  unfold Admits
  cases sendSecrets with
  | nil => exact decidable_of_iff (sendMode = .off ∧ mode ≠ .required ∨
      sendMode ≠ .off ∧ mode = .off) (by simp)
  | cons first _ => exact decidable_of_iff (sendMode = .off ∧ mode ≠ .required ∨
      sendMode ≠ .off ∧ (mode = .off ∨ first ∈ secrets)) (by simp)

/- With tags that tell the secrets apart on this frame, the receiver opens exactly what it
   admits, and nothing else comes out. -/
theorem openFrame_sealFrame {sendMode : GossipAuth} {sendSecrets : List Secret}
    {sender receiver : Auth} (new_sender : new sendMode sendSecrets = .ok sender)
    (new_receiver : new mode secrets = .ok receiver) (unmarked : message.head? ≠ some marker)
    (apart : ∀ s ∈ sender.secrets, ∀ s' ∈ receiver.secrets, s ≠ s' →
      mac s (covered message) ≠ mac s' (covered message)) :
    (Admits sendMode sendSecrets mode secrets →
        receiver.openFrame mac (sender.sealFrame mac message) = .ok message) ∧
      (¬Admits sendMode sendSecrets mode secrets →
        ∃ why, receiver.openFrame mac (sender.sealFrame mac message) = .error why) := by
  have receiver_mode : receiver.mode = mode := by
    obtain ⟨rfl, rfl⟩ | ⟨_, _, _, _, rfl⟩ := new_cases new_receiver
    · rfl
    · rfl
  obtain ⟨rfl, rfl⟩ | ⟨signing, first, others, rfl, rfl⟩ := new_cases new_sender
  · rw [sealFrame_off, openFrame_unsigned unmarked, receiver_mode]
    by_cases required : mode = .required
    · simp [Admits, required]
    · simp [Admits, required]
  · rw [sealFrame_signed rfl, openFrame_signed, receiver_mode]
    obtain ⟨rfl, rfl⟩ | ⟨checking, own, more, rfl, rfl⟩ := new_cases new_receiver
    · simp [Admits, signing]
    · have held : (∃ secret ∈ own :: more,
          mac secret (covered message) = mac first (covered message)) ↔ first ∈ own :: more := by
        constructor
        · rintro ⟨secret, mem, tag⟩
          by_cases same : first = secret
          · exact same ▸ mem
          · exact absurd tag.symm (apart first List.mem_cons_self secret mem same)
        · intro mem
          exact ⟨first, mem, rfl⟩
      have admits : Admits sendMode (first :: others) mode (own :: more) ↔ first ∈ own :: more := by
        unfold Admits
        constructor
        · rintro (⟨off, _⟩ | ⟨_, off | ⟨signer, named, mem⟩⟩)
          · exact absurd off signing
          · exact absurd off checking
          · rw [List.head?_cons, Option.some.injEq] at named
            exact named ▸ mem
        · intro mem
          exact .inr ⟨signing, .inr ⟨first, rfl, mem⟩⟩
      rw [admits]
      constructor
      · intro mem
        exact if_pos (.inr (held.mpr mem))
      · intro strange
        exact ⟨.badTag, if_neg (not_or.mpr ⟨checking, mt held.mp strange⟩)⟩

end Auth

/-- The matrix of senders and receivers; no forged frame; no message taken for a frame nor a
    frame for a message. -/
theorem authentication_matrix (mac : Secret → List UInt8 → Vector UInt8 tagLen) :
    (∀ (m : Message) (bytes : List UInt8), encode m = .ok bytes →
      ∀ (sendMode mode : GossipAuth) (sendSecrets secrets : List Secret) (sender receiver : Auth),
        Auth.new sendMode sendSecrets = .ok sender → Auth.new mode secrets = .ok receiver →
        (∀ s ∈ sender.secrets, ∀ s' ∈ receiver.secrets, s ≠ s' →
          mac s (marker :: frameVersion :: bytes) ≠ mac s' (marker :: frameVersion :: bytes)) →
        (Auth.Admits sendMode sendSecrets mode secrets →
          receiver.openFrame mac (sender.sealFrame mac bytes) = .ok bytes) ∧
        (¬Auth.Admits sendMode sendSecrets mode secrets →
          ∃ why, receiver.openFrame mac (sender.sealFrame mac bytes) = .error why)) ∧
    (∀ (mode : GossipAuth) (secrets : List Secret) (receiver : Auth),
      Auth.new mode secrets = .ok receiver → mode ≠ .off →
        ∀ datagram message, datagram.head? = some marker →
          receiver.openFrame mac datagram = .ok message →
          ∃ secret ∈ receiver.secrets, ∃ own, Auth.new .required [secret] = .ok own ∧
            datagram = own.sealFrame mac message) ∧
    (∀ (m : Message) (bytes : List UInt8), encode m = .ok bytes → bytes.head? ≠ some marker) ∧
    ∀ datagram : List UInt8, datagram.head? = some marker →
      (∀ m, decode datagram ≠ .ok m) ∧
      ∀ receiver : Auth, receiver.openFrame mac datagram ≠ .ok datagram := by
  refine ⟨?_, ?_, fun m bytes encoded => encode_first encoded, ?_⟩
  · intro m bytes encoded sendMode mode sendSecrets secrets sender receiver new_sender new_receiver
      apart
    exact Auth.openFrame_sealFrame new_sender new_receiver (encode_first encoded) apart
  · intro mode secrets receiver new_receiver signing datagram message marked opened
    have signs : receiver.mode ≠ .off := by
      obtain ⟨off, _⟩ | ⟨_, _, _, _, rfl⟩ := Auth.new_cases new_receiver
      · exact absurd off signing
      · exact signing
    obtain ⟨secret, held, frame⟩ := Auth.openFrame_forged signs marked opened
    refine ⟨secret, held, ⟨.required, [secret]⟩, rfl, ?_⟩
    rw [frame, Auth.sealFrame_signed rfl]
  · intro datagram marked
    constructor
    · intro m decoded
      exact decode_first decoded marked
    · intro receiver opened
      have shorter := Auth.openFrame_shorter marked opened
      simp only [frameOverhead, tagLen] at shorter
      omega

/- A roll-out of a second secret, one step before the end: the sender still signs with the
   old one, the receiver holds both; and one step too far, where it holds only the new one. -/
def firstBytes (secret : Secret) (_ : List UInt8) : Vector UInt8 tagLen :=
  Vector.ofFn fun i => secret.bytes.getD i 0

def secretOf (b : UInt8) : Secret := ⟨List.replicate minSecret b, by simp⟩

theorem authentication_matrix_rotation :
    (∃ receiver sender bytes, Auth.new .required [secretOf 2, secretOf 1] = .ok receiver ∧
      Auth.new .required [secretOf 1] = .ok sender ∧ encode (.ack 7 [] []) = .ok bytes ∧
      receiver.openFrame firstBytes (sender.sealFrame firstBytes bytes) = .ok bytes ∧
      ∃ secret ∈ receiver.secrets, ∃ own, Auth.new .required [secret] = .ok own ∧
        sender.sealFrame firstBytes bytes = own.sealFrame firstBytes bytes) ∧
    ∃ receiver sender bytes why, Auth.new .required [secretOf 2] = .ok receiver ∧
      Auth.new .required [secretOf 1] = .ok sender ∧ encode (.ack 7 [] []) = .ok bytes ∧
      receiver.openFrame firstBytes (sender.sealFrame firstBytes bytes) = .error why := by
  have encoded : encode (.ack 7 [] []) = .ok [1, 7, 0, 0] := by decide +kernel
  obtain ⟨matrix, unforged, _⟩ := authentication_matrix firstBytes
  constructor
  · have opened := (matrix _ _ encoded .required .required [secretOf 1] [secretOf 2, secretOf 1]
      _ _ rfl rfl (by decide +kernel)).1 (by decide +kernel)
    exact ⟨_, _, _, rfl, rfl, encoded, opened,
      unforged .required [secretOf 2, secretOf 1] _ rfl (by decide) _ _ rfl opened⟩
  · obtain ⟨why, refused⟩ := (matrix _ _ encoded .required .required [secretOf 1] [secretOf 2]
      _ _ rfl rfl (by decide +kernel)).2 (by decide +kernel)
    exact ⟨_, _, _, why, rfl, rfl, encoded, refused⟩

end Rateguard
