import Rateguard.Node
import Rateguard.RoundTrip

/- What the driver makes of a datagram before the core sees it. The hash that gives a node's ID from
   its address is a parameter. -/
namespace Rateguard
open Postcard (Codec)

namespace Message

def withUpdates : Message → List Update → Message
  | .ping seq _ demand, updates => .ping seq updates demand
  | .ack seq _ demand, updates => .ack seq updates demand
  | .pingReq seq target _ demand, updates => .pingReq seq target updates demand
  | .leave _, updates => .leave updates

@[simp] theorem withUpdates_updates (m : Message) (updates : List Update) :
    (m.withUpdates updates).updates = updates := by cases m <;> rfl

@[simp] theorem withUpdates_demand (m : Message) (updates : List Update) :
    (m.withUpdates updates).demand = m.demand := by cases m <;> rfl

@[simp] theorem withUpdates_self (m : Message) : m.withUpdates m.updates = m := by cases m <;> rfl

end Message

structure Screened where
  sender : PeerId
  bytes : List UInt8
  dropped : Nat
  deriving DecidableEq

structure RejectedDatagrams where
  unsigned : Nat
  badTag : Nat
  malformed : Nat
  mismatchedRecords : Nat
  deriving DecidableEq

section
variable (peerId : Address → PeerId)

/- The record names its member by the ID its address gives. -/
def Update.matches (u : Update) : Bool := u.member == peerId u.addr

/- none for a datagram that is malformed, or whose sender's own record, the first, does not match. A
   later record that does not is dropped alone. -/
def screen (bytes : List UInt8) : Option Screened := do
  let message ← (decode bytes).toOption
  let opening ← message.updates.head?
  if !opening.matches peerId then none
  else if message.updates.all (·.matches peerId) then some ⟨opening.member, bytes, 0⟩
  else do
    let before := message.updates.length
    let updates := message.updates.filter (·.matches peerId)
    let again ← (encode (message.withUpdates updates)).toOption
    some ⟨opening.member, again, before - updates.length⟩

/- One datagram in. What is refused is counted by its reason and dropped. -/
def Node.receiveDatagram (mac : Secret → List UInt8 → Vector UInt8 tagLen) (decay : Nat → Nat → ℚ)
    (n : Node) (auth : Auth) (datagram : List UInt8) (now : Nat) (rejected : RejectedDatagrams) :
    Option (List Action × Node × RejectedDatagrams) :=
  match auth.openFrame mac datagram with
  | .error .unsigned => some ([], n, { rejected with unsigned := rejected.unsigned + 1 })
  | .error .badTag => some ([], n, { rejected with badTag := rejected.badTag + 1 })
  | .error .malformed => some ([], n, { rejected with malformed := rejected.malformed + 1 })
  | .ok message =>
    match screen peerId message with
    | none => some ([], n, { rejected with malformed := rejected.malformed + 1 })
    | some screened => do
      let n ← n.handle decay (.messageReceived screened.sender screened.bytes) now
      some (n.actions, n, { rejected with
        mismatchedRecords := rejected.mismatchedRecords + screened.dropped })

variable {peerId}

theorem withUpdates_shorter {m : Message} {updates : List Update}
    (sublist : updates.Sublist m.updates) (short : m.updates.length < 128) :
    (messageCodec.enc (m.withUpdates updates)).length ≤ (messageCodec.enc m).length := by
  have shorter := @Codec.seq_sublist _ updateCodec _ _ sublist short
  cases m with
  | ping seq us ds =>
    have size (list : List Update) : (messageCodec.enc (.ping seq list ds)).length =
        1 + ((Codec.u32.pair (updateCodec.seq.pair demandReportCodec.seq)).enc (seq, list, ds)).length :=
      Codec.tagged_length (by decide) MessageParts messageParts (by decide) ⟨0, (seq, list, ds)⟩
    simp only [Message.withUpdates, size, Codec.pair_length]
    simp only [Message.updates] at shorter
    omega
  | ack seq us ds =>
    have size (list : List Update) : (messageCodec.enc (.ack seq list ds)).length =
        1 + ((Codec.u32.pair (updateCodec.seq.pair demandReportCodec.seq)).enc (seq, list, ds)).length :=
      Codec.tagged_length (by decide) MessageParts messageParts (by decide) ⟨1, (seq, list, ds)⟩
    simp only [Message.withUpdates, size, Codec.pair_length]
    simp only [Message.updates] at shorter
    omega
  | pingReq seq target us ds =>
    have size (list : List Update) : (messageCodec.enc (.pingReq seq target list ds)).length =
        1 + ((Codec.u32.pair (Codec.u64.pair (updateCodec.seq.pair demandReportCodec.seq))).enc
          (seq, target, list, ds)).length :=
      Codec.tagged_length (by decide) MessageParts messageParts (by decide)
        ⟨2, (seq, target, list, ds)⟩
    simp only [Message.withUpdates, size, Codec.pair_length]
    simp only [Message.updates] at shorter
    omega
  | leave us =>
    have size (list : List Update) :
        (messageCodec.enc (.leave list)).length = 1 + (updateCodec.seq.enc list).length :=
      Codec.tagged_length (by decide) MessageParts messageParts (by decide) ⟨3, list⟩
    simp only [Message.withUpdates, size]
    exact Nat.add_le_add_left shorter 1

/- What decoded still keeps the limits without some of its records, and so encodes again. -/
theorem encode_withUpdates {m : Message} {bytes : List UInt8} (decoded : decode bytes = .ok m)
    {updates : List Update} (sublist : updates.Sublist m.updates) :
    encode (m.withUpdates updates) = .ok (messageCodec.enc (m.withUpdates updates)) ∧
      (messageCodec.enc (m.withUpdates updates)).length ≤ bytes.length := by
  have limits := decode_limits decoded
  have kept : (m.withUpdates updates).WithinLimits := by
    refine ⟨?_, ?_, ?_, ?_⟩
    · rw [Message.withUpdates_updates]
      exact sublist.length_le.trans limits.updates
    · simpa using limits.reports
    · simpa using limits.keys
    · simpa using limits.rates
  have short : m.updates.length < 128 := Nat.lt_of_le_of_lt limits.updates (by decide)
  exact ⟨encode_of_limits kept,
    (withUpdates_shorter sublist short).trans (encode_of_decode decoded).2⟩

def Message.matching (peerId : Address → PeerId) (m : Message) : List Update :=
  m.updates.filter (·.matches peerId)

theorem matching_sublist (m : Message) : (m.matching peerId).Sublist m.updates :=
  List.filter_sublist

structure Screened.Of (peerId : Address → PeerId) (s : Screened) (bytes : List UInt8) (m : Message)
    (opening : Update) : Prop where
  decoded : decode bytes = .ok m
  first : m.updates.head? = some opening
  matches_ : opening.member = peerId opening.addr
  sender : s.sender = opening.member
  again : decode s.bytes = .ok (m.withUpdates (m.matching peerId))
  dropped : s.dropped = m.updates.countP fun u => !u.matches peerId
  shorter : s.bytes.length ≤ bytes.length

theorem screen_of {bytes : List UInt8} {m : Message} {opening : Update}
    (decoded : decode bytes = .ok m) (first : m.updates.head? = some opening)
    (matched : opening.member = peerId opening.addr) :
    ∃ s, screen peerId bytes = some s ∧ s.Of peerId bytes m opening := by
  have own : opening.matches peerId = true := beq_iff_eq.mpr matched
  unfold screen
  simp only [decoded, Except.toOption, first, own, Option.bind_eq_bind, Option.bind_some,
    Bool.not_true, Bool.false_eq_true, if_false]
  split
  · rename_i all
    have whole : m.matching peerId = m.updates :=
      List.filter_eq_self.mpr (List.all_eq_true.mp all)
    refine ⟨_, rfl, decoded, first, matched, rfl, ?_, ?_, Nat.le_refl _⟩
    · rw [whole, Message.withUpdates_self]
      exact decoded
    · symm
      rw [List.countP_eq_zero]
      intro u mem
      simp [List.all_eq_true.mp all u mem]
  · obtain ⟨encoded, shorter⟩ := encode_withUpdates decoded (@matching_sublist peerId m)
    simp only [Message.matching] at encoded
    rw [encoded]
    refine ⟨_, rfl, decoded, first, matched, rfl, decode_encode encoded, ?_, shorter⟩
    have parts : m.updates.length = m.updates.countP (·.matches peerId) +
        m.updates.countP fun u => !u.matches peerId := by
      simpa using List.length_eq_countP_add_countP (fun u : Update => u.matches peerId)
    rw [List.countP_eq_length_filter] at parts
    dsimp only
    omega

theorem screen_some {bytes : List UInt8} {s : Screened} (screened : screen peerId bytes = some s) :
    ∃ m opening, s.Of peerId bytes m opening := by
  have read := screened
  unfold screen at read
  simp only [Option.bind_eq_bind, Option.bind_eq_some_iff] at read
  obtain ⟨m, decoded, opening, first, read⟩ := read
  have decoded : decode bytes = .ok m := by
    cases all : decode bytes <;> simp_all [Except.toOption]
  have matched : opening.member = peerId opening.addr := by
    by_contra other
    simp [Update.matches, other] at read
  obtain ⟨s', screened', of⟩ := screen_of decoded first matched
  rw [screened] at screened'
  obtain rfl := Option.some.inj screened'
  exact ⟨m, opening, of⟩

/- Whatever comes in, the core is handed messages without a record that does not match. -/
theorem receiveDatagram_matching {mac : Secret → List UInt8 → Vector UInt8 tagLen}
    {decay : Nat → Nat → ℚ} {n n' : Node} {auth : Auth} {datagram : List UInt8} {now : Nat}
    {rejected rejected' : RejectedDatagrams} {actions : List Action}
    (received : n.receiveDatagram peerId mac decay auth datagram now rejected =
      some (actions, n', rejected')) :
    actions = [] ∧ n' = n ∨ ∃ sender bytes m,
      n.handle decay (.messageReceived sender bytes) now = some n' ∧ actions = n'.actions ∧
      decode bytes = .ok m ∧ (∃ opening, m.updates.head? = some opening ∧ opening.member = sender) ∧
      ∀ u ∈ m.updates, u.member = peerId u.addr := by
  unfold Node.receiveDatagram at received
  split at received
  · simp only [Option.some.injEq, Prod.mk.injEq] at received
    exact .inl ⟨received.1.symm, received.2.1.symm⟩
  · simp only [Option.some.injEq, Prod.mk.injEq] at received
    exact .inl ⟨received.1.symm, received.2.1.symm⟩
  · simp only [Option.some.injEq, Prod.mk.injEq] at received
    exact .inl ⟨received.1.symm, received.2.1.symm⟩
  · split at received
    · simp only [Option.some.injEq, Prod.mk.injEq] at received
      exact .inl ⟨received.1.symm, received.2.1.symm⟩
    · rename_i s screened
      simp only [Option.bind_eq_bind, Option.bind_eq_some_iff, Option.some.injEq,
        Prod.mk.injEq] at received
      obtain ⟨after, handled, rfl, rfl, rfl⟩ := received
      obtain ⟨m, opening, of⟩ := screen_some screened
      refine .inr ⟨s.sender, s.bytes, _, handled, rfl, of.again, ⟨opening, ?_, of.sender.symm⟩, ?_⟩
      · rw [Message.withUpdates_updates]
        have own : opening.matches peerId = true := beq_iff_eq.mpr of.matches_
        obtain ⟨rest, whole⟩ := List.head?_eq_some_iff.mp of.first
        simp [Message.matching, whole, own]
      · intro u mem
        rw [Message.withUpdates_updates] at mem
        exact beq_iff_eq.mp (List.mem_filter.mp mem).2

/-- What is let through is what decodes, opens with the sender's own record under the ID its address
    gives, and reaches the core without the records under another; nothing else is lost. -/
theorem screen_drops_foreign (peerId : Address → PeerId) :
    (∀ bytes : List UInt8, (∃ s, screen peerId bytes = some s) ↔
      ∃ m opening, decode bytes = .ok m ∧ m.updates.head? = some opening ∧
        opening.member = peerId opening.addr) ∧
    (∀ (bytes : List UInt8) (s : Screened), screen peerId bytes = some s →
      ∃ m opening, decode bytes = .ok m ∧ m.updates.head? = some opening ∧
        s.sender = opening.member ∧
        decode s.bytes =
          .ok (m.withUpdates (m.updates.filter fun u => decide (u.member = peerId u.addr))) ∧
        s.dropped = m.updates.countP (fun u => decide (u.member ≠ peerId u.addr)) ∧
        s.bytes.length ≤ bytes.length) ∧
    (∀ (bytes : List UInt8) (m : Message), decode bytes = .ok m →
      ∃ again, encode (m.withUpdates (m.updates.filter fun u => decide (u.member = peerId u.addr))) =
        .ok again) ∧
    ∀ (mac : Secret → List UInt8 → Vector UInt8 tagLen) (decay : Nat → Nat → ℚ) (n n' : Node)
      (auth : Auth) (datagram : List UInt8) (now : Nat) (rejected rejected' : RejectedDatagrams)
      (actions : List Action),
      n.receiveDatagram peerId mac decay auth datagram now rejected =
        some (actions, n', rejected') →
      actions = [] ∧ n' = n ∨ ∃ sender bytes m,
        n.handle decay (.messageReceived sender bytes) now = some n' ∧ actions = n'.actions ∧
        decode bytes = .ok m ∧
        (∃ opening, m.updates.head? = some opening ∧ opening.member = sender) ∧
        ∀ u ∈ m.updates, u.member = peerId u.addr := by
  have same (m : Message) :
      m.updates.filter (fun u => decide (u.member = peerId u.addr)) = m.matching peerId := rfl
  refine ⟨?_, ?_, ?_, fun _ _ _ _ _ _ _ _ _ _ => receiveDatagram_matching⟩
  · intro bytes
    constructor
    · rintro ⟨s, screened⟩
      obtain ⟨m, opening, of⟩ := screen_some screened
      exact ⟨m, opening, of.decoded, of.first, of.matches_⟩
    · rintro ⟨m, opening, decoded, first, matched⟩
      obtain ⟨s, screened, _⟩ := screen_of decoded first matched
      exact ⟨s, screened⟩
  · intro bytes s screened
    obtain ⟨m, opening, of⟩ := screen_some screened
    refine ⟨m, opening, of.decoded, of.first, of.sender, of.again, ?_, of.shorter⟩
    rw [of.dropped]
    refine List.countP_congr ?_
    intro u _
    simp [Update.matches]
  · intro bytes m decoded
    rw [same]
    exact ⟨_, (encode_withUpdates decoded (matching_sublist m)).1⟩

end
end Rateguard
