import Rateguard.Words

/- Signed frames around the bytes of one encoded message. The MAC, a keyed hash cut to the
   length of the tag, is a parameter. -/
namespace Rateguard

/- The first byte of a signed frame. -/
def marker : UInt8 := 0xA6
def frameVersion : UInt8 := 1
def tagLen : Nat := 16
def minSecret : Nat := 32
def maxSecrets : Nat := 2

/- The bytes a frame adds to a message: marker, version and tag. -/
def frameOverhead : Nat := 2 + tagLen

inductive GossipAuth where
  | off
  | transitional
  | required
  deriving DecidableEq, Repr

inductive Rejected where
  | unsigned
  | badTag
  | malformed
  deriving DecidableEq, Repr

inductive AuthError where
  | shortSecret (n : Nat)
  | tooManySecrets (n : Nat)
  | noSecrets
  deriving DecidableEq, Repr

structure Secret where
  bytes : List UInt8
  long : minSecret ≤ bytes.length
  deriving DecidableEq

def Secret.new (bytes : List UInt8) : Except AuthError Secret :=
  if long : minSecret ≤ bytes.length then .ok ⟨bytes, long⟩ else .error (.shortSecret bytes.length)

/- For one mode and an ordered list of secrets: the first signs, any verifies. -/
structure Auth where
  mode : GossipAuth
  secrets : List Secret
  deriving DecidableEq

namespace Auth

def off : Auth := ⟨.off, []⟩

def new (mode : GossipAuth) (secrets : List Secret) : Except AuthError Auth :=
  if maxSecrets < secrets.length then .error (.tooManySecrets secrets.length)
  else if mode = .off then .ok off
  else if secrets.isEmpty then .error .noSecrets
  else .ok ⟨mode, secrets⟩

variable (mac : Secret → List UInt8 → Vector UInt8 tagLen)

/- The datagram to send for an encoded message. -/
def sealFrame (a : Auth) (message : List UInt8) : List UInt8 :=
  match a.secrets.head? with
  | none => message
  | some secret =>
    let frame := marker :: frameVersion :: message
    frame ++ (mac secret frame).toList

/- The message inside a received datagram, or why the datagram is refused. -/
def openFrame (a : Auth) (datagram : List UInt8) : Except Rejected (List UInt8) :=
  if datagram.head? ≠ some marker then
    match a.mode with
    | .required => .error .unsigned
    | .off | .transitional => .ok datagram
  else if datagram.length < frameOverhead ∨ datagram[1]? ≠ some frameVersion then
    .error .malformed
  else
    let signed := datagram.take (datagram.length - tagLen)
    let tag := datagram.drop (datagram.length - tagLen)
    let message := signed.drop 2
    if a.mode = .off then .ok message
    else if a.secrets.any fun secret => (mac secret signed).toList = tag then .ok message
    else .error .badTag

/- A frame is its overhead longer than the message at most. -/
theorem sealFrame_length (a : Auth) (message : List UInt8) :
    (a.sealFrame mac message).length ≤ message.length + frameOverhead := by
  unfold sealFrame
  split
  · omega
  · simp only [List.length_append, List.length_cons, Vector.length_toList, frameOverhead]
    omega

end Auth
end Rateguard
