import Rateguard.MemberRuns
import Rateguard.Reachable

/- What each function of a node leaves alone: the state it gives is the one it was given but
   for the fields named. -/
namespace Rateguard.Node
open Std (ExtTreeMap)

theorem refreshCap_frame {n n' : Node} {now : Nat} (h : n.refreshCap now = some n') :
    n' = { n with limiter := { n.limiter with cap := n'.limiter.cap }, held := n'.held } := by
  simp only [refreshCap, bind, Option.bind_eq_some_iff, Option.some.injEq] at h
  obtain ⟨learning, _, rfl⟩ := h
  rfl

theorem advance_some {n n' : Node} {now : Nat} (h : n.advance now = some n') :
    n.lastNow ≤ now ∧ n' = { n with lastNow := now } := by
  unfold advance at h
  split at h
  · exact ⟨‹_›, (Option.some.inj h).symm⟩
  · simp at h

theorem send_some {n n' : Node} {peer : PeerId} {message : Message}
    (h : n.send peer message = some n') :
    ∃ bytes, encode message = .ok bytes ∧
      n' = { n with actions := n.actions ++ [.sendTo peer bytes] } := by
  unfold send at h
  split at h
  · rename_i bytes encoded
    exact ⟨bytes, encoded, (Option.some.inj h).symm⟩
  · simp at h

theorem outgoing_frame {n n' : Node} {recipient : PeerId} {updates : List Update}
    (h : n.outgoing recipient = some (updates, n')) :
    n' = { n with gossip := n'.gossip, introducing := n'.introducing } := by
  simp only [outgoing, bind, Option.bind_eq_some_iff] at h
  obtain ⟨own, _, limit, _, ⟨taken, gossip⟩, _, h⟩ := h
  split at h
  · simp only [Option.some.injEq, Prod.mk.injEq] at h
    obtain ⟨_, rfl⟩ := h
    rfl
  · simp only [Option.some.injEq, Prod.mk.injEq] at h
    obtain ⟨_, rfl⟩ := h
    rfl

theorem ack_frame {n n' : Node} {recipient : PeerId} {seq : UInt32}
    (h : n.ack recipient seq = some n') :
    n' = { n with gossip := n'.gossip, introducing := n'.introducing, actions := n'.actions } := by
  simp only [ack, bind, Option.bind_eq_some_iff] at h
  obtain ⟨⟨updates, u⟩, out, h⟩ := h
  obtain ⟨bytes, _, rfl⟩ := send_some h
  have frame := outgoing_frame out
  rw [frame]

theorem ping_frame {n n' : Node} {target : PeerId} {now : Nat} (h : n.ping target now = some n') :
    n' = { n with
      seq := n'.seq, probe := n'.probe, gossip := n'.gossip, introducing := n'.introducing
      actions := n'.actions } := by
  simp only [ping, nextSeq, bind, Option.bind_eq_some_iff] at h
  obtain ⟨⟨updates, u⟩, out, h⟩ := h
  obtain ⟨bytes, _, rfl⟩ := send_some h
  have frame := outgoing_frame out
  rw [frame]

theorem randomLost_frame {n n' : Node} {target : Option PeerId}
    (h : n.randomLost = some (target, n')) : n' = { n with rng := n'.rng } := by
  unfold randomLost at h
  dsimp only at h
  split at h
  · simp only [Option.some.injEq, Prod.mk.injEq] at h
    obtain ⟨_, rfl⟩ := h
    rfl
  · simp only [bind, Option.bind_eq_some_iff, Option.some.injEq, Prod.mk.injEq] at h
    obtain ⟨lost, _, _, rfl⟩ := h
    rfl

theorem nextTarget_frame {n n' : Node} {target : Option PeerId}
    (h : n.nextTarget = some (target, n')) :
    n' = { n with order := n'.order, next := n'.next, rng := n'.rng } := by
  unfold nextTarget takeLive at h
  split at h
  · rename_i found taken
    simp only [Prod.mk.injEq] at taken
    simp only [Option.some.injEq, Prod.mk.injEq] at h
    obtain ⟨_, rfl⟩ := h
    rw [← taken.2]
  · rename_i taken
    simp only [Prod.mk.injEq] at taken
    simp only [bind, Option.bind_eq_some_iff, Option.some.injEq, Prod.mk.injEq] at h
    obtain ⟨⟨order, rng⟩, _, _, rfl⟩ := h
    rw [← taken.2]

theorem chooseTarget_frame {n n' : Node} {now : Nat} {target : Option PeerId}
    (h : n.chooseTarget now = some (target, n')) :
    n' = { n with
      order := n'.order, next := n'.next, rng := n'.rng
      nextReconnectAt := n'.nextReconnectAt } := by
  simp only [chooseTarget, bind, Option.bind_eq_some_iff] at h
  obtain ⟨⟨lost, u⟩, first, h⟩ := h
  have frame : u = { n with rng := u.rng } := by
    split at first
    · exact randomLost_frame first
    · simp only [Option.some.injEq, Prod.mk.injEq] at first
      obtain ⟨_, rfl⟩ := first
      rfl
  dsimp only at h
  split at h
  · simp only [Option.bind_eq_some_iff, Option.some.injEq, Prod.mk.injEq] at h
    obtain ⟨at', _, _, rfl⟩ := h
    rw [frame]
  · simp only [Option.bind_eq_some_iff] at h
    obtain ⟨⟨found, v⟩, second, h⟩ := h
    have frameV := nextTarget_frame second
    split at h
    · simp only [Option.some.injEq, Prod.mk.injEq] at h
      obtain ⟨_, rfl⟩ := h
      rw [frameV, frame]
    · have last := randomLost_frame h
      rw [last, frameV, frame]

theorem spread_frame {n n' : Node} {update : Update} (h : n.spread update = some n') :
    n' = { n with gossip := n'.gossip } := by
  simp only [spread, bind, Option.bind_eq_some_iff, Option.some.injEq] at h
  obtain ⟨taken, _, rfl⟩ := h
  rfl

theorem spreadAll_frame {n n' : Node} {updates : List Update}
    (h : n.spreadAll updates = some n') : n' = { n with gossip := n'.gossip } := by
  induction updates generalizing n with
  | nil =>
    simp only [spreadAll, List.foldlM_nil, Option.pure_def, Option.some.injEq] at h
    subst h
    rfl
  | cons update rest ih =>
    simp only [spreadAll, List.foldlM_cons, bind, Option.bind_eq_some_iff] at h
    obtain ⟨u, first, h⟩ := h
    have frame := ih h
    rw [spread_frame first] at frame
    exact frame

theorem applyPolicy_frame {n n' : Node} {now : Nat} (h : n.applyPolicy now = some n') :
    n' = { n with
      heldSize := n'.heldSize, sizes := n'.sizes, joinedAt := n'.joinedAt
      withoutQuorumSince := n'.withoutQuorumSince, quorumSize := n'.quorumSize
      flooredUntil := n'.flooredUntil, limiter := { n.limiter with cap := n'.limiter.cap }
      held := n'.held } := by
  simp only [applyPolicy, bind, Option.bind_eq_some_iff] at h
  obtain ⟨⟨heldSize, sizes⟩, _, flooredUntil, _, h⟩ := h
  have frame := refreshCap_frame h
  rw [frame]

theorem applyShares_frame {decay : Nat → Nat → ℚ} {n n' : Node} {now : Nat}
    (h : n.applyShares decay now = some n') :
    n' = { n with limiter := n'.limiter, recentShares := n'.recentShares } := by
  simp only [applyShares, bind, Option.bind_eq_some_iff, Option.some.injEq] at h
  obtain ⟨informed, _, alone, _, ⟨limiter, recentShares⟩, _, rfl⟩ := h
  rfl

theorem reportDemand_frame {n n' : Node} {now : Nat} (h : n.reportDemand now = some n') :
    n' = { n with
      roundNumber := n'.roundNumber, ownDemand := n'.ownDemand, reported := n'.reported } := by
  simp only [reportDemand, bind, Option.bind_eq_some_iff, Option.some.injEq] at h
  obtain ⟨kept, _, reported, _, rfl⟩ := h
  rfl

theorem followChange_frame {n n' : Node} {now : Nat} {change : Change}
    (h : n.followChange now change = some n') :
    n' = { n with order := n'.order, rng := n'.rng, peerDemand := n'.peerDemand } := by
  cases change with
  | joined peer =>
    simp only [followChange] at h
    split at h
    · split at h
      · exact (Option.some.inj h) ▸ rfl
      · split at h
        · exact (Option.some.inj h) ▸ rfl
        · simp at h
    · simp at h
  | left peer =>
    simp only [followChange, Option.some.injEq] at h
    exact h ▸ rfl

theorem followChanges_frame {n n' : Node} {now : Nat} (h : n.followChanges now = some n') :
    n' = { n with
      members := { n.members with changes := [] }, order := n'.order, rng := n'.rng
      peerDemand := n'.peerDemand } := by
  have each : ∀ (changes : List Change) (m : Node),
      changes.foldlM (fun n change => n.followChange now change) m = some n' →
      n' = { m with order := n'.order, rng := n'.rng, peerDemand := n'.peerDemand } := by
    intro changes
    induction changes with
    | nil =>
      intro m h
      simp only [List.foldlM_nil, Option.pure_def, Option.some.injEq] at h
      subst h
      rfl
    | cons change rest ih =>
      intro m h
      simp only [List.foldlM_cons, bind, Option.bind_eq_some_iff] at h
      obtain ⟨u, first, h⟩ := h
      have frame := ih u h
      rw [followChange_frame first] at frame
      exact frame
  exact each _ _ h

theorem askHelpers_frame {n n' : Node} {target : PeerId} {seq : UInt32} {helpers : List PeerId}
    (h : askHelpers target seq helpers n = some n') :
    n' = { n with gossip := n'.gossip, introducing := n'.introducing, actions := n'.actions } := by
  induction helpers generalizing n with
  | nil =>
    simp only [askHelpers, Option.some.injEq] at h
    subst h
    rfl
  | cons helper rest ih =>
    simp only [askHelpers, bind, Option.bind_eq_some_iff] at h
    obtain ⟨⟨updates, u⟩, out, v, sent, h⟩ := h
    obtain ⟨bytes, _, rfl⟩ := send_some sent
    have frame := ih h
    rw [outgoing_frame out] at frame
    exact frame

theorem escalate_frame {n n' : Node} {now : Nat} (h : n.escalate now = some n') :
    n' = { n with
      rng := n'.rng, gossip := n'.gossip, introducing := n'.introducing, actions := n'.actions
      probe := n'.probe } := by
  unfold escalate at h
  split at h
  · exact (Option.some.inj h) ▸ rfl
  · split at h
    · exact (Option.some.inj h) ▸ rfl
    · simp only [bind, Option.bind_eq_some_iff] at h
      obtain ⟨due, _, h⟩ := h
      split at h
      · exact (Option.some.inj h) ▸ rfl
      · simp only [Option.bind_eq_some_iff, Option.some.injEq] at h
        obtain ⟨⟨shuffled, rng⟩, _, u, asked, rfl⟩ := h
        have frame := askHelpers_frame asked
        rw [frame]

theorem missProbe_frame {n n' : Node} {now : Nat} (h : n.missProbe now = some n') :
    n' = { n with members := n'.members, gossip := n'.gossip, probe := none } := by
  unfold missProbe at h
  split at h
  · rename_i absent
    have same := Option.some.inj h
    subst same
    rw [← absent]
  · simp only [bind, Option.bind_eq_some_iff] at h
    obtain ⟨⟨suspicion, members⟩, _, h⟩ := h
    dsimp only at h
    split at h
    · have frame := spread_frame h
      rw [frame]
    · exact (Option.some.inj h) ▸ rfl

theorem learn_frame {n n' : Node} {update : Update} {now : Nat}
    (h : n.learn update now = some n') :
    n' = { n with
      members := n'.members, gossip := n'.gossip, lastRefusedAt := n'.lastRefusedAt
      limiter := { n.limiter with cap := n'.limiter.cap }, held := n'.held
      identityConflicts := n'.identityConflicts } := by
  simp only [learn, bind, Option.bind_eq_some_iff] at h
  obtain ⟨⟨applied, members⟩, _, h⟩ := h
  cases applied with
  | ignored => exact (Option.some.inj h) ▸ rfl
  | refused =>
    dsimp only at h
    split at h
    · exact (Option.some.inj h) ▸ rfl
    · split at h
      · exact (Option.some.inj h) ▸ rfl
      · have frame := refreshCap_frame h
        rw [frame]
  | accepted previous =>
    have frame := spread_frame h
    rw [frame]
  | refuted alive =>
    simp only [Option.bind_eq_some_iff] at h
    obtain ⟨conflicts, _, h⟩ := h
    have frame := spread_frame h
    rw [frame]

theorem learnAll_frame {n n' : Node} {updates : List Update} {now : Nat}
    (h : n.learnAll updates now = some n') :
    n' = { n with
      members := n'.members, gossip := n'.gossip, lastRefusedAt := n'.lastRefusedAt
      limiter := { n.limiter with cap := n'.limiter.cap }, held := n'.held
      identityConflicts := n'.identityConflicts } := by
  induction updates generalizing n with
  | nil =>
    simp only [learnAll, List.foldlM_nil, Option.pure_def, Option.some.injEq] at h
    subst h
    rfl
  | cons update rest ih =>
    simp only [learnAll, List.foldlM_cons, bind, Option.bind_eq_some_iff] at h
    obtain ⟨u, first, h⟩ := h
    have frame := ih h
    rw [learn_frame first] at frame
    exact frame

theorem hear_frame {n n' : Node} {sender : PeerId} {newcomer : Bool} {message : Message}
    {now : Nat} (h : n.hear sender newcomer message now = some n') :
    n' = { n with
      introducing := n'.introducing, lastHeard := n'.lastHeard, peerDemand := n'.peerDemand } := by
  simp only [hear, bind, Option.bind_eq_some_iff, Option.some.injEq] at h
  obtain ⟨peerDemand, _, rfl⟩ := h
  rfl

theorem acknowledged_frame {n n' : Node} {sender : PeerId} {seq : UInt32}
    {demand : List DemandReport} {now : Nat} (h : n.acknowledged sender seq demand now = some n') :
    n' = { n with
      peerDemand := n'.peerDemand, probe := n'.probe, relays := n'.relays, gossip := n'.gossip
      introducing := n'.introducing, actions := n'.actions } := by
  unfold acknowledged at h
  dsimp only at h
  split at h
  · simp only [bind, Option.bind_eq_some_iff, Option.some.injEq] at h
    obtain ⟨peerDemand, _, rfl⟩ := h
    rfl
  · split at h
    · split at h
      · simp only [bind, Option.bind_eq_some_iff] at h
        obtain ⟨⟨updates, u⟩, out, h⟩ := h
        obtain ⟨bytes, _, rfl⟩ := send_some h
        rw [outgoing_frame out]
      · exact (Option.some.inj h) ▸ rfl
    · exact (Option.some.inj h) ▸ rfl

theorem relay_frame {n n' : Node} {requester target : PeerId} {seq : UInt32} {now : Nat}
    (h : n.relay requester seq target now = some n') :
    n' = { n with
      seq := n'.seq, relays := n'.relays, gossip := n'.gossip, introducing := n'.introducing
      actions := n'.actions } := by
  unfold relay at h
  split at h
  · have frame := ack_frame h
    rw [frame]
  · simp only [nextSeq, bind, Option.bind_eq_some_iff] at h
    obtain ⟨expiresAt, _, ⟨updates, u⟩, out, h⟩ := h
    obtain ⟨bytes, _, rfl⟩ := send_some h
    rw [outgoing_frame out]

theorem answer_frame {n n' : Node} {sender : PeerId} {message : Message} {now : Nat}
    (h : n.answer sender message now = some n') :
    n' = { n with
      seq := n'.seq, relays := n'.relays, peerDemand := n'.peerDemand, probe := n'.probe
      gossip := n'.gossip, introducing := n'.introducing, actions := n'.actions } := by
  cases message with
  | ping seq updates demand =>
    have frame := ack_frame h
    rw [frame]
  | ack seq updates demand =>
    have frame := acknowledged_frame h
    rw [frame]
  | pingReq seq target updates demand =>
    have frame := relay_frame h
    rw [frame]
  | leave updates => simp [answer] at h

theorem sendLeave_frame {n n' : Node} {own : Update} {peers : List PeerId}
    (h : sendLeave own peers n = some n') : n' = { n with actions := n'.actions } := by
  induction peers generalizing n with
  | nil =>
    simp only [sendLeave, Option.some.injEq] at h
    subst h
    rfl
  | cons peer rest ih =>
    simp only [sendLeave, bind, Option.bind_eq_some_iff] at h
    obtain ⟨u, first, v, second, h⟩ := h
    obtain ⟨_, _, rfl⟩ := send_some first
    obtain ⟨_, _, rfl⟩ := send_some second
    have frame := ih h
    exact frame

theorem depart_frame (n : Node) (peer : PeerId) :
    n.depart peer = { n with
      members := (n.members.depart peer).2, behind := (n.depart peer).behind
      introducing := (n.depart peer).introducing, peerDemand := (n.depart peer).peerDemand
      lastHeard := (n.depart peer).lastHeard, sizes := (n.depart peer).sizes
      quorumSize := (n.depart peer).quorumSize } := by
  unfold depart
  dsimp only
  split
  · rename_i unmarked
    rw [n.members.depart_unmarked (by simpa using unmarked)]
  · rfl

theorem ping_probe {n n' : Node} {target : PeerId} {now : Nat} (h : n.ping target now = some n') :
    n'.probe = some ⟨target, n.seq + 1, now, none⟩ ∧ n'.seq = n.seq + 1 := by
  simp only [ping, nextSeq, bind, Option.bind_eq_some_iff] at h
  obtain ⟨⟨updates, u⟩, out, h⟩ := h
  obtain ⟨bytes, _, rfl⟩ := send_some h
  rw [outgoing_frame out]
  exact ⟨rfl, rfl⟩

/- Asking helpers only adds them to the probe. -/
theorem escalate_probe {n n' : Node} {now : Nat} (h : n.escalate now = some n') :
    n'.probe = n.probe ∨ ∃ probe helpers, n.probe = some probe ∧
      n'.probe = some { probe with helpers := some helpers } := by
  unfold escalate at h
  split at h
  · exact .inl ((Option.some.inj h) ▸ rfl)
  · rename_i probe pending
    split at h
    · exact .inl ((Option.some.inj h) ▸ rfl)
    · simp only [bind, Option.bind_eq_some_iff] at h
      obtain ⟨due, _, h⟩ := h
      split at h
      · exact .inl ((Option.some.inj h) ▸ rfl)
      · simp only [Option.bind_eq_some_iff, Option.some.injEq] at h
        obtain ⟨⟨shuffled, rng⟩, _, u, asked, rfl⟩ := h
        refine .inr ⟨probe, shuffled.take n.swim.indirectProbes, pending, ?_⟩
        rw [askHelpers_frame asked]
        dsimp only
        rw [pending, Option.map_some]

theorem receiveMessage_frame {n n' : Node} {sender : PeerId} {message : Message} {now : Nat}
    (h : n.receiveMessage sender message now = some n') :
    n' = { n with
      limiter := { n.limiter with cap := n'.limiter.cap }, members := n'.members
      gossip := n'.gossip, seq := n'.seq
      probe := n'.probe, relays := n'.relays, actions := n'.actions, peerDemand := n'.peerDemand
      sizes := n'.sizes, quorumSize := n'.quorumSize, lastHeard := n'.lastHeard
      behind := n'.behind, introducing := n'.introducing, held := n'.held
      identityConflicts := n'.identityConflicts, lastRefusedAt := n'.lastRefusedAt } := by
  simp only [receiveMessage, bind, Option.bind_eq_some_iff] at h
  obtain ⟨a, learned, h⟩ := h
  have frameA := learnAll_frame learned
  cases message with
  | leave updates =>
    rw [← Option.some.inj h, depart_frame a sender, frameA]
  | ping | ack | pingReq =>
    simp only [Option.bind_eq_some_iff] at h
    obtain ⟨b, heard, h⟩ := h
    rw [answer_frame h, hear_frame heard, frameA]

/- What an event comes to: only the clock moves, or a tick or a message is taken in. -/
theorem handle_cases {decay : Nat → Nat → ℚ} {n n' : Node} {event : Event} {now : Nat}
    (h : n.handle decay event now = some n') :
    n.lastNow ≤ now ∧ (n' = { n with lastNow := now, actions := [] } ∨
      n.left = false ∧ event = .tick ∧
        ({ n with lastNow := now, actions := [] } : Node).tick decay now = some n' ∨
      ∃ sender bytes message, n.left = false ∧ event = .messageReceived sender bytes ∧
        sender ≠ n.members.localId ∧ decode bytes = .ok message ∧
        wellFormedLeave sender message = true ∧
        ({ n with lastNow := now, actions := [] } : Node).receiveMessage sender message now =
          some n') := by
  simp only [handle, bind, Option.bind_eq_some_iff] at h
  obtain ⟨a, advanced, h⟩ := h
  obtain ⟨later, rfl⟩ := advance_some advanced
  refine ⟨later, ?_⟩
  split at h
  · exact .inl (Option.some.inj h).symm
  · rename_i present
    have present : n.left = false := by simpa using present
    cases event with
    | tick => exact .inr (.inl ⟨present, rfl, h⟩)
    | messageReceived sender bytes =>
      simp only [receive] at h
      split at h
      · exact .inl (Option.some.inj h).symm
      · rename_i stranger
        split at h
        · exact .inl (Option.some.inj h).symm
        · rename_i message decoded
          split at h
          · rename_i proper
            exact .inr (.inr ⟨sender, bytes, message, present, rfl, stranger, decoded, proper, h⟩)
          · exact .inl (Option.some.inj h).symm

end Rateguard.Node
