import Rateguard.Auth
import Rateguard.Wire

/- Encoding and decoding undo each other, in both directions. -/
namespace Rateguard

theorem decode_reads {m : Message} {bytes : List UInt8} (h : decode bytes = .ok m) :
    messageCodec.dec bytes = some (m, []) := by
  unfold decode at h
  split at h
  · simp at h
  · split at h
    · simp at h
    · rename_i message rest read
      split at h
      · simp at h
      · rename_i whole
        have rest_nil : rest = [] := by simpa using whole
        cases limits : checkLimits message with
        | error e => simp [limits, bind, Except.bind] at h
        | ok _ =>
          simp only [limits, bind, Except.bind, Except.ok.injEq] at h
          rw [read, h, rest_nil]

/- Bytes in a longer form than encode's, as a varint not in its shortest, are read too. -/
theorem encode_of_decode {m : Message} {bytes : List UInt8} (h : decode bytes = .ok m) :
    encode m = .ok (messageCodec.enc m) ∧ (messageCodec.enc m).length ≤ bytes.length := by
  refine ⟨encode_of_limits (decode_limits h), ?_⟩
  have shorter := (messageCodec.sound _ _ _ (decode_reads h)).2
  simpa using shorter

/-- The wire format in both directions: encode fails for the limits only, its result leaves
    room for the frame of a signed one and decodes to the message; and what decode accepts
    passes the limits and encodes again, to no more bytes, that decode to the same. -/
theorem wire_round_trip :
    (∀ m : Message, ((∃ bytes, encode m = .ok bytes) ↔ checkLimits m = .ok ()) ∧
      ∀ bytes, encode m = .ok bytes →
        bytes.length ≤ maxDatagram - frameOverhead ∧ decode bytes = .ok m) ∧
    ∀ (bytes : List UInt8) (m : Message), decode bytes = .ok m →
      checkLimits m = .ok () ∧
        ∃ again, encode m = .ok again ∧ again.length ≤ bytes.length ∧ decode again = .ok m := by
  constructor
  · intro m
    refine ⟨⟨?_, fun ok => ⟨_, encode_of_limits ((checkLimits_ok_iff m).mp ok)⟩⟩, ?_⟩
    · rintro ⟨bytes, encoded⟩
      exact (checkLimits_ok_iff m).mpr (encode_limits encoded).1
    · intro bytes encoded
      have fits := encode_length encoded
      refine ⟨?_, decode_encode encoded⟩
      simp only [maxMessage, maxDatagram, frameOverhead, tagLen] at *
      omega
  · intro bytes m decoded
    obtain ⟨encoded, shorter⟩ := encode_of_decode decoded
    exact ⟨(checkLimits_ok_iff m).mpr (decode_limits decoded), _, encoded, shorter,
      decode_encode encoded⟩

end Rateguard
