import Rateguard.Sound

/- What sending does to what waits to be said: the gossip buffer and the list of the peers being
   introduced take no new entry. -/
namespace Rateguard
open Std (ExtTreeMap)
namespace Node

structure Sends (n n' : Node) : Prop where
  introducing : ∀ peer : PeerId, n'.introducing[peer]?.isSome → n.introducing[peer]?.isSome
  gossip : ∀ peer : PeerId, n'.gossip.queue[peer]?.isSome → n.gossip.queue[peer]?.isSome

theorem Sends.refl (n : Node) : Sends n n := ⟨fun _ => id, fun _ => id⟩

theorem Sends.trans {n u n' : Node} (first : Sends n u) (second : Sends u n') : Sends n n' :=
  ⟨fun peer held => first.introducing peer (second.introducing peer held),
    fun peer held => first.gossip peer (second.gossip peer held)⟩

theorem outgoing_sends {n n' : Node} {recipient : PeerId} {updates : List Update}
    (h : n.outgoing recipient = some (updates, n')) : Sends n n' := by
  constructor
  · simp only [outgoing, bind, Option.bind_eq_some_iff] at h
    obtain ⟨own, _, limit, _, ⟨taken, gossip⟩, _, h⟩ := h
    intro peer held
    split at h
    · simp only [Option.some.injEq, Prod.mk.injEq] at h
      obtain ⟨_, rfl⟩ := h
      exact held
    · rename_i start listed
      simp only [Option.some.injEq, Prod.mk.injEq] at h
      obtain ⟨_, rfl⟩ := h
      by_cases same : recipient = peer
      · rw [← same, listed]
        rfl
      · dsimp only at held
        split at held
        · simpa [ExtTreeMap.getElem?_erase, same] using held
        · simpa [ExtTreeMap.getElem?_insert, same] using held
  · obtain ⟨limit, _, sent⟩ := outgoing_sent h
    intro peer held
    obtain ⟨left, found⟩ := Option.isSome_iff_exists.mp held
    obtain ⟨before, was, _⟩ := sent peer left found
    rw [was]
    rfl

/- A message sent to a peer. -/
theorem sendTo_sends {n u n' : Node} {recipient : PeerId} {updates : List Update}
    {message : Message} (out : n.outgoing recipient = some (updates, u))
    (sent : u.send recipient message = some n') : Sends n n' := by
  obtain ⟨bytes, _, rfl⟩ := send_some sent
  have sends := outgoing_sends out
  exact ⟨sends.introducing, sends.gossip⟩

theorem ack_sends {n n' : Node} {recipient : PeerId} {seq : UInt32}
    (h : n.ack recipient seq = some n') : Sends n n' := by
  simp only [ack, bind, Option.bind_eq_some_iff] at h
  obtain ⟨⟨updates, u⟩, out, h⟩ := h
  exact sendTo_sends out h

theorem ping_sends {n n' : Node} {target : PeerId} {now : Nat}
    (h : n.ping target now = some n') : Sends n n' := by
  simp only [ping, nextSeq, bind, Option.bind_eq_some_iff] at h
  obtain ⟨⟨updates, u⟩, out, h⟩ := h
  have sends := sendTo_sends out h
  exact ⟨sends.introducing, sends.gossip⟩

theorem askHelpers_sends {n n' : Node} {target : PeerId} {seq : UInt32} {helpers : List PeerId}
    (h : askHelpers target seq helpers n = some n') : Sends n n' := by
  induction helpers generalizing n with
  | nil =>
    obtain rfl := Option.some.inj h
    exact .refl n
  | cons helper rest ih =>
    simp only [askHelpers, bind, Option.bind_eq_some_iff] at h
    obtain ⟨⟨updates, u⟩, out, v, sent, h⟩ := h
    exact (sendTo_sends out sent).trans (ih h)

/- A round sends at its end; what comes before, but for its opening, says nothing. -/
theorem round_sends {decay : Nat → Nat → ℚ} {n n' : Node} {now : Nat}
    (h : n.round decay now = some n') : ∃ a, n.openRound now = some a ∧ Sends a n' := by
  simp only [round, bind, Option.bind_eq_some_iff] at h
  obtain ⟨a, opened, b, policy, c, shares, d, reported, e, followed, stale, _, ⟨target, f⟩,
    chosen, h⟩ := h
  have frameD := reportDemand_frame reported
  rw [applyShares_frame shares, applyPolicy_frame policy] at frameD
  have frameE := followChanges_frame followed
  rw [frameD] at frameE
  have frameF := chooseTarget_frame chosen
  rw [frameE] at frameF
  have quiet : Sends a f := by
    rw [frameF]
    exact ⟨fun _ => id, fun _ => id⟩
  refine ⟨a, opened, ?_⟩
  dsimp only at h
  split at h
  · exact quiet.trans (ping_sends h)
  · obtain rfl := Option.some.inj h
    exact quiet

theorem escalate_sends {n n' : Node} {now : Nat} (h : n.escalate now = some n') :
    Sends n n' := by
  unfold escalate at h
  split at h
  · obtain rfl := Option.some.inj h
    exact .refl n
  · split at h
    · obtain rfl := Option.some.inj h
      exact .refl n
    · simp only [bind, Option.bind_eq_some_iff] at h
      obtain ⟨due, _, h⟩ := h
      split at h
      · obtain rfl := Option.some.inj h
        exact .refl n
      · simp only [Option.bind_eq_some_iff, Option.some.injEq] at h
        obtain ⟨⟨shuffled, rng⟩, _, u, asked, rfl⟩ := h
        have sends := askHelpers_sends asked
        exact ⟨sends.introducing, sends.gossip⟩

theorem acknowledged_sends {n n' : Node} {sender : PeerId} {seq : UInt32}
    {demand : List DemandReport} {now : Nat} (h : n.acknowledged sender seq demand now = some n') :
    Sends n n' := by
  unfold acknowledged at h
  dsimp only at h
  split at h
  · simp only [bind, Option.bind_eq_some_iff, Option.some.injEq] at h
    obtain ⟨peerDemand, _, rfl⟩ := h
    exact ⟨fun _ => id, fun _ => id⟩
  · split at h
    · split at h
      · simp only [bind, Option.bind_eq_some_iff] at h
        obtain ⟨⟨updates, u⟩, out, h⟩ := h
        have sends := sendTo_sends out h
        exact ⟨sends.introducing, sends.gossip⟩
      · obtain rfl := Option.some.inj h
        exact .refl n
    · obtain rfl := Option.some.inj h
      exact .refl n

theorem relay_sends {n n' : Node} {requester target : PeerId} {seq : UInt32} {now : Nat}
    (h : n.relay requester seq target now = some n') : Sends n n' := by
  unfold relay at h
  split at h
  · exact ack_sends h
  · simp only [nextSeq, bind, Option.bind_eq_some_iff] at h
    obtain ⟨expiresAt, _, ⟨updates, u⟩, out, h⟩ := h
    have sends := sendTo_sends out h
    exact ⟨sends.introducing, sends.gossip⟩

theorem answer_sends {n n' : Node} {sender : PeerId} {message : Message} {now : Nat}
    (h : n.answer sender message now = some n') : Sends n n' := by
  cases message with
  | ping seq updates demand => exact ack_sends h
  | ack seq updates demand => exact acknowledged_sends h
  | pingReq seq target updates demand => exact relay_sends h
  | leave updates => simp [answer] at h

end Node
end Rateguard
