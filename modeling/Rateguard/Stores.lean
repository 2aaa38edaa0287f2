import Rateguard.Reachable
import Rateguard.Sound
import Rateguard.DemandStore

/- Whose demand a node stores: a message's own report, from a sender that is a member, and the
   report of a probe's target, from a helper. -/
namespace Rateguard
open Std (ExtTreeMap)

def storeAll (d : PeerDemand) (stored : List (PeerId × DemandReport)) (now : Nat) :
    Option PeerDemand :=
  stored.foldlM (fun d entry => d.apply entry.1 entry.2 now) d

theorem storeAll_append (d : PeerDemand) (one two : List (PeerId × DemandReport)) (now : Nat) :
    storeAll d (one ++ two) now = (storeAll d one now).bind fun d => storeAll d two now := by
  simp only [storeAll, List.foldlM_append, Option.bind_eq_bind]

theorem storeAll_other {d d' : PeerDemand} {stored : List (PeerId × DemandReport)} {now : Nat}
    (h : storeAll d stored now = some d') {peer : PeerId}
    (other : ∀ entry ∈ stored, entry.1 ≠ peer) : d'.peers[peer]? = d.peers[peer]? := by
  induction stored generalizing d with
  | nil =>
    simp only [storeAll, List.foldlM_nil, Option.pure_def, Option.some.injEq] at h
    rw [h]
  | cons entry rest ih =>
    simp only [storeAll, List.foldlM_cons, bind, Option.bind_eq_some_iff] at h
    obtain ⟨u, first, h⟩ := h
    rw [ih h fun later mem => other later (List.mem_cons_of_mem _ mem)]
    by_cases own : entry.2.origin = entry.1
    · obtain ⟨record, _, rfl⟩ := PeerDemand.apply_takes first own
      rw [PeerDemand.insert_get, if_neg (other entry List.mem_cons_self)]
    · rw [PeerDemand.apply_other first own]

namespace Node

def ownReport (n : Node) (sender : PeerId) (message : Message) : Option DemandReport :=
  if (n.members.status sender).isSome && !n.members.hasDeparted sender
    then message.demand.find? (·.origin == sender) else none

def answered (n : Node) (sender : PeerId) (seq : UInt32) : Option Probe :=
  n.probe.filter fun probe => probe.seq = seq &&
    (sender = probe.target || probe.helpers.any (·.contains sender))

def relayedReport (n : Node) (sender : PeerId) (seq : UInt32) (demand : List DemandReport) :
    Option (PeerId × DemandReport) :=
  (n.answered sender seq).bind fun probe =>
    if probe.helpers.any (·.contains sender) && !n.members.hasDeparted probe.target
      then (demand.find? (·.origin == probe.target)).map (probe.target, ·) else none

def relayed (n : Node) (sender : PeerId) : Message → List (PeerId × DemandReport)
  | .ack seq _ demand => (n.relayedReport sender seq demand).toList
  | _ => []

/- What a message stores, and under whom, in the state once its news is learned. -/
def stores (n : Node) (sender : PeerId) (message : Message) : List (PeerId × DemandReport) :=
  ((n.ownReport sender message).map (sender, ·)).toList ++ n.relayed sender message

theorem store_eq (n : Node) (peer : PeerId) (report : Option DemandReport) (now : Nat) :
    n.store peer report now = storeAll n.peerDemand (report.map (peer, ·)).toList now := by
  cases report with
  | none => rfl
  | some report =>
    simp only [store, storeAll, Option.map_some, Option.toList_some, List.foldlM_cons,
      List.foldlM_nil]
    cases n.peerDemand.apply peer report now <;> rfl

theorem hear_stores {n n' : Node} {sender : PeerId} {newcomer : Bool} {message : Message}
    {now : Nat} (h : n.hear sender newcomer message now = some n') :
    storeAll n.peerDemand ((n.ownReport sender message).map (sender, ·)).toList now =
      some n'.peerDemand := by
  simp only [hear, bind, Option.bind_eq_some_iff, Option.some.injEq] at h
  obtain ⟨peerDemand, stored, rfl⟩ := h
  rw [store_eq] at stored
  exact stored

theorem acknowledged_stores {n n' : Node} {sender : PeerId} {seq : UInt32}
    {demand : List DemandReport} {now : Nat} (h : n.acknowledged sender seq demand now = some n') :
    storeAll n.peerDemand (n.relayedReport sender seq demand).toList now = some n'.peerDemand := by
  have same {u : Node} (peerDemand : u.peerDemand = n.peerDemand)
      (none : n.answered sender seq = none) :
      storeAll n.peerDemand (n.relayedReport sender seq demand).toList now =
        some u.peerDemand := by
    rw [relayedReport, none, peerDemand]
    rfl
  unfold acknowledged at h
  dsimp only at h
  split at h
  · rename_i probe answers
    simp only [bind, Option.bind_eq_some_iff, Option.some.injEq] at h
    obtain ⟨peerDemand, stored, rfl⟩ := h
    rw [store_eq] at stored
    rw [relayedReport, answered, answers, Option.bind_some, ← stored]
    split <;> rfl
  · rename_i none
    split at h
    · split at h
      · simp only [bind, Option.bind_eq_some_iff] at h
        obtain ⟨⟨updates, u⟩, out, h⟩ := h
        obtain ⟨bytes, _, rfl⟩ := send_some h
        refine same ?_ none
        have frame := outgoing_frame out
        rw [frame]
      · exact (Option.some.inj h) ▸ same rfl none
    · exact (Option.some.inj h) ▸ same rfl none

theorem answer_stores {n n' : Node} {sender : PeerId} {message : Message} {now : Nat}
    (h : n.answer sender message now = some n') :
    storeAll n.peerDemand (n.relayed sender message) now = some n'.peerDemand := by
  cases message with
  | ack seq updates demand => exact acknowledged_stores h
  | ping seq updates demand =>
    have frame := ack_frame h
    rw [frame]
    rfl
  | pingReq seq target updates demand =>
    have frame := relay_frame h
    rw [frame]
    rfl
  | leave updates => simp [answer] at h

theorem receiveMessage_stores {n n' : Node} {sender : PeerId} {message : Message} {now : Nat}
    (told : ∀ updates, message ≠ .leave updates)
    (h : n.receiveMessage sender message now = some n') :
    ∃ learned, ({ n with behind := if n.opensBehind sender message then n.behind.insert sender
        else n.behind.erase sender } : Node).learnAll message.updates now = some learned ∧
      storeAll n.peerDemand (learned.stores sender message) now = some n'.peerDemand ∧
      n'.members = learned.members := by
  simp only [receiveMessage, bind, Option.bind_eq_some_iff] at h
  obtain ⟨a, learned, h⟩ := h
  refine ⟨a, learned, ?_⟩
  have demandA : a.peerDemand = n.peerDemand := by rw [learnAll_frame learned]
  cases message with
  | leave updates => exact absurd rfl (told updates)
  | ping | ack | pingReq =>
    obtain ⟨b, heard, h⟩ := h
    have frameB := hear_frame heard
    have storedB := hear_stores heard
    have storedC := answer_stores h
    have members : n'.members = a.members := by rw [answer_frame h, frameB]
    refine ⟨?_, members⟩
    rw [demandA] at storedB
    rw [stores, storeAll_append, storedB, Option.bind_some, ← storedC, frameB]
    rfl

end Node

/- What one message stores: the node once its news is learned, the sender and the message, and
   the reports with the peers they are stored under. -/
structure Storing where
  state : Node
  sender : PeerId
  message : Message
  stored : List (PeerId × DemandReport)

namespace Node

/- The storing a handled event does; none if it is no message that gets so far. -/
def storing (n : Node) (event : Event) (now : Nat) : Option Storing :=
  match event with
  | .tick => none
  | .messageReceived sender bytes => do
    let n ← n.advance now
    if n.left || sender = n.members.localId then none
    else match decode bytes with
      | .error _ => none
      | .ok (.leave _) => none
      | .ok message => do
        let opened := { n with
          actions := []
          behind := if n.opensBehind sender message then n.behind.insert sender
            else n.behind.erase sender }
        let learned ← opened.learnAll message.updates now
        some ⟨learned, sender, message, learned.stores sender message⟩

theorem wellFormedLeave_other {sender : PeerId} {message : Message}
    (told : ∀ updates, message ≠ .leave updates) : wellFormedLeave sender message = true := by
  cases message with
  | leave updates => exact absurd rfl (told updates)
  | ping | ack | pingReq => rfl

theorem storing_some {n : Node} {sender : PeerId} {bytes : List UInt8} {now : Nat}
    {noted : Storing} (h : n.storing (.messageReceived sender bytes) now = some noted) :
    n.left = false ∧ sender ≠ n.members.localId ∧ decode bytes = .ok noted.message ∧
      noted.stored = noted.state.stores sender noted.message ∧
      ∃ opened : Node, opened.members = n.members ∧ opened.gossip = n.gossip ∧
        opened.probe = n.probe ∧ opened.learnAll noted.message.updates now = some noted.state := by
  simp only [storing, bind, Option.bind_eq_some_iff] at h
  obtain ⟨a, advanced, h⟩ := h
  obtain ⟨_, rfl⟩ := advance_some advanced
  split at h
  · simp at h
  rename_i here
  have present : n.left = false ∧ sender ≠ n.members.localId := by simpa using here
  split at h
  · simp at h
  · simp at h
  · rename_i message _ decoded
    simp only [Option.bind_eq_some_iff, Option.some.injEq] at h
    obtain ⟨learned, news, rfl⟩ := h
    refine ⟨present.1, present.2, decoded, rfl, _, ?_, ?_, ?_, news⟩
    · rfl
    · rfl
    · rfl

def storedBy (n : Node) (sender : PeerId) (bytes : List UInt8) (now : Nat) :
    List (PeerId × DemandReport) :=
  ((n.storing (.messageReceived sender bytes) now).map (·.stored)).getD []

/-- Handling a message stores what storing says. One that storing is not for, among them every
    leave, puts nothing in. -/
theorem handle_storing {decay : Nat → Nat → ℚ} {n n' : Node} {sender : PeerId}
    {bytes : List UInt8} {now : Nat}
    (h : n.handle decay (.messageReceived sender bytes) now = some n') :
    (∃ storing, n.storing (.messageReceived sender bytes) now = some storing ∧
      storeAll n.peerDemand storing.stored now = some n'.peerDemand ∧
      n'.members = storing.state.members) ∨
    (n.storing (.messageReceived sender bytes) now = none ∧
      (∀ seq updates demand, n.left = false → sender ≠ n.members.localId →
        decode bytes ≠ .ok (.ack seq updates demand)) ∧
      (n'.peerDemand = n.peerDemand ∨ n'.peerDemand = n.peerDemand.forget sender)) := by
  simp only [handle, bind, Option.bind_eq_some_iff] at h
  obtain ⟨a, advanced, h⟩ := h
  obtain ⟨_, rfl⟩ := advance_some advanced
  simp only [storing, bind, advanced, Option.bind_some]
  split at h
  · rename_i left
    have gone : n.left = true := left
    exact .inr ⟨by simp [gone], by simp [gone], .inl ((Option.some.inj h) ▸ rfl)⟩
  rename_i here
  have present : ¬ n.left = true := here
  simp only [receive] at h
  split at h
  · rename_i own
    exact .inr ⟨by simp [own], fun _ _ _ _ other => absurd own other,
      .inl ((Option.some.inj h) ▸ rfl)⟩
  rename_i stranger
  have open' : ¬ (n.left || decide (sender = n.members.localId)) = true := by
    simp [present, stranger]
  rw [if_neg open']
  cases decoded : decode bytes with
  | error e =>
    simp only [decoded, Option.some.injEq] at h
    exact .inr ⟨rfl, by simp, .inl (h ▸ rfl)⟩
  | ok message =>
    simp only [decoded] at h
    by_cases leave : ∃ updates, message = .leave updates
    · obtain ⟨updates, rfl⟩ := leave
      refine .inr ⟨rfl, by simp, ?_⟩
      split at h
      · simp only [receiveMessage, bind, Option.bind_eq_some_iff, Option.some.injEq] at h
        obtain ⟨learned, news, rfl⟩ := h
        have demand : learned.peerDemand = n.peerDemand := by rw [learnAll_frame news]
        unfold depart
        dsimp only
        split
        · exact .inl demand
        · exact .inr (by rw [demand])
      · exact .inl ((Option.some.inj h) ▸ rfl)
    · have told : ∀ updates, message ≠ .leave updates := fun updates is => leave ⟨updates, is⟩
      rw [if_pos (wellFormedLeave_other told)] at h
      obtain ⟨learned, news, stored, members⟩ := receiveMessage_stores told h
      left
      cases message with
      | leave updates => exact absurd rfl (told updates)
      | ping | ack | pingReq =>
        exact ⟨_, Option.bind_eq_some_iff.mpr ⟨learned, news, rfl⟩, stored, members⟩

end Node

end Rateguard
