import Rateguard.Frames

/- What holds of the member table and the gossip buffer in every state a node reaches: the
   table is well formed, the buffer files news under its member, and what it says of the node
   itself is an Alive record the node made. -/
namespace Rateguard
open Std (ExtTreeMap)

structure GossipSound (t : MemberTable) (g : Gossip) : Prop where
  filed : g.Filed
  own : ∀ pending : Pending, g.queue[t.localId]? = some pending →
    pending.update.status = .alive ∧ pending.update.addr = t.addr ∧
      pending.update.incarnation ≤ t.incarnation

/- A table of the same node, its incarnation no lower. -/
structure SameSelf (t t' : MemberTable) : Prop where
  localId : t'.localId = t.localId
  addr : t'.addr = t.addr
  incarnation : t.incarnation ≤ t'.incarnation

theorem SameSelf.refl (t : MemberTable) : SameSelf t t := ⟨rfl, rfl, UInt32.le_refl _⟩

theorem SameSelf.trans {t u v : MemberTable} (first : SameSelf t u) (second : SameSelf u v) :
    SameSelf t v :=
  ⟨second.localId.trans first.localId, second.addr.trans first.addr,
    UInt32.le_trans first.incarnation second.incarnation⟩

theorem MemberTable.Outcome.sameSelf {t t' : MemberTable} {update : Update} {now : Nat}
    {applied : Applied} (h : t.Outcome update now applied t') : SameSelf t t' := by
  cases h with
  | outbid own newer fits =>
    refine ⟨rfl, rfl, ?_⟩
    have rank := update.status.rank_lt
    simp only [Update.rank, MemberTable.ownUpdate] at newer
    rw [UInt32.le_iff_toNat_le, UInt32.toNat_add, Nat.mod_eq_of_lt (by simpa using fits)]
    simp
    omega
  | _ => exact ⟨rfl, rfl, UInt32.le_refl _⟩

theorem MemberTable.depart_sameSelf (t : MemberTable) (peer : PeerId) :
    SameSelf t (t.depart peer).2 := by
  rw [(t.depart_frame peer).1]
  exact ⟨rfl, rfl, UInt32.le_refl _⟩

theorem GossipSound.follows {t t' : MemberTable} {g : Gossip} (sound : GossipSound t g)
    (same : SameSelf t t') : GossipSound t' g := by
  refine ⟨sound.filed, fun pending found => ?_⟩
  rw [same.localId] at found
  obtain ⟨alive, addr, incarnation⟩ := sound.own pending found
  exact ⟨alive, addr.trans same.addr.symm, UInt32.le_trans incarnation same.incarnation⟩

theorem GossipSound.sent {t : MemberTable} {g g' : Gossip} {limit : Nat}
    (sound : GossipSound t g) (sent : SentFrom limit g g') : GossipSound t g' := by
  constructor
  · intro member pending' found
    obtain ⟨pending, original, same, _⟩ := sent member pending' found
    rw [same]
    exact sound.filed member pending original
  · intro pending' found
    obtain ⟨pending, original, same, _⟩ := sent _ pending' found
    rw [same]
    exact sound.own pending original

/- News that may go into the buffer: of a peer, or this node's own record. -/
def Sayable (t : MemberTable) (update : Update) : Prop :=
  update.member = t.localId →
    update.status = .alive ∧ update.addr = t.addr ∧ update.incarnation ≤ t.incarnation

theorem GossipSound.pushed {t : MemberTable} {g g' : Gossip} {update : Update} {taken : Bool}
    (sound : GossipSound t g) (sayable : Sayable t update) (h : g.push update = some (taken, g')) :
    GossipSound t g' := by
  rcases Gossip.push_spec sound.filed update with ⟨pushed, _⟩ | ⟨kept, _⟩
  · rw [pushed] at h
    simp only [Option.some.injEq, Prod.mk.injEq] at h
    obtain ⟨_, rfl⟩ := h
    constructor
    · intro member pending found
      rw [ExtTreeMap.getElem?_insert] at found
      split at found
      · rename_i same
        rw [← Option.some.inj found]
        exact Std.LawfulEqCmp.eq_of_compare same
      · exact sound.filed member pending found
    · intro pending found
      rw [ExtTreeMap.getElem?_insert] at found
      split at found
      · rename_i same
        rw [← Option.some.inj found]
        exact sayable (Std.LawfulEqCmp.eq_of_compare same)
      · exact sound.own pending found
  · rw [kept] at h
    simp only [Option.some.injEq, Prod.mk.injEq] at h
    exact h.2 ▸ sound

theorem MemberTable.ownUpdate_sayable (t : MemberTable) : Sayable t t.ownUpdate :=
  fun _ => ⟨rfl, rfl, UInt32.le_refl _⟩

/- What an outcome gives to spread may be spread. -/
theorem MemberTable.Outcome.sayable {t t' : MemberTable} {update : Update} {now : Nat}
    {applied : Applied} (h : t.Outcome update now applied t') :
    (∀ previous, applied = .accepted previous → Sayable t' update) ∧
      ∀ own, applied = .refuted own → own = t'.ownUpdate := by
  cases h with
  | taken live changes distinct newer room accounts after =>
    exact ⟨fun _ _ same => absurd same distinct, by simp⟩
  | answered | outbid =>
    refine ⟨by simp, fun own same => ?_⟩
    rw [Applied.refuted.injEq] at same
    exact same.symm
  | _ => exact ⟨by simp, by simp⟩

structure Node.Sound (n : Node) : Prop where
  members : n.members.WellFormed
  gossip : GossipSound n.members n.gossip

namespace Node

theorem Sound.same {n n' : Node} (sound : n.Sound) (members : n'.members = n.members)
    (gossip : n'.gossip = n.gossip) : n'.Sound := by
  refine ⟨members ▸ sound.members, ?_⟩
  rw [members, gossip]
  exact sound.gossip

theorem spread_sound {n n' : Node} {update : Update} (sound : n.Sound)
    (sayable : Sayable n.members update) (h : n.spread update = some n') : n'.Sound := by
  have frame := spread_frame h
  have members : n'.members = n.members := by rw [frame]
  simp only [spread, bind, Option.bind_eq_some_iff, Option.some.injEq] at h
  obtain ⟨⟨taken, gossip⟩, pushed, rfl⟩ := h
  exact ⟨sound.members, sound.gossip.pushed sayable pushed⟩

theorem outgoing_sent {n n' : Node} {recipient : PeerId} {updates : List Update}
    (h : n.outgoing recipient = some (updates, n')) :
    ∃ limit, retransmitLimit n.members.clusterSize = some limit ∧
      SentFrom limit n.gossip n'.gossip := by
  simp only [outgoing, bind, Option.bind_eq_some_iff] at h
  obtain ⟨own, _, limit, limited, ⟨taken, gossip⟩, took, h⟩ := h
  refine ⟨limit, limited, ?_⟩
  have sent := (Gossip.take_spec took).1
  split at h
  · simp only [Option.some.injEq, Prod.mk.injEq] at h
    obtain ⟨_, rfl⟩ := h
    exact sent
  · simp only [Option.some.injEq, Prod.mk.injEq] at h
    obtain ⟨_, rfl⟩ := h
    exact sent

theorem outgoing_sound {n n' : Node} {recipient : PeerId} {updates : List Update}
    (sound : n.Sound) (h : n.outgoing recipient = some (updates, n')) : n'.Sound := by
  obtain ⟨limit, _, sent⟩ := outgoing_sent h
  have members : n'.members = n.members := by rw [outgoing_frame h]
  refine ⟨members ▸ sound.members, ?_⟩
  rw [members]
  exact sound.gossip.sent sent

/- A message sent to a peer: the records, then the datagram. -/
theorem sendTo_sound {n u n' : Node} {recipient : PeerId} {updates : List Update}
    {message : Message} (sound : n.Sound) (out : n.outgoing recipient = some (updates, u))
    (sent : u.send recipient message = some n') : n'.Sound := by
  obtain ⟨bytes, _, rfl⟩ := send_some sent
  exact (outgoing_sound sound out).same rfl rfl

theorem ack_sound {n n' : Node} {recipient : PeerId} {seq : UInt32} (sound : n.Sound)
    (h : n.ack recipient seq = some n') : n'.Sound := by
  simp only [ack, bind, Option.bind_eq_some_iff] at h
  obtain ⟨⟨updates, u⟩, out, h⟩ := h
  exact sendTo_sound sound out h

theorem ping_sound {n n' : Node} {target : PeerId} {now : Nat} (sound : n.Sound)
    (h : n.ping target now = some n') : n'.Sound := by
  simp only [ping, nextSeq, bind, Option.bind_eq_some_iff] at h
  obtain ⟨⟨updates, u⟩, out, h⟩ := h
  refine sendTo_sound ?_ out h
  exact sound.same rfl rfl

theorem askHelpers_sound {n n' : Node} {target : PeerId} {seq : UInt32} {helpers : List PeerId}
    (sound : n.Sound) (h : askHelpers target seq helpers n = some n') : n'.Sound := by
  induction helpers generalizing n with
  | nil =>
    simp only [askHelpers, Option.some.injEq] at h
    exact h ▸ sound
  | cons helper rest ih =>
    simp only [askHelpers, bind, Option.bind_eq_some_iff] at h
    obtain ⟨⟨updates, u⟩, out, v, sent, h⟩ := h
    exact ih (sendTo_sound sound out sent) h

theorem escalate_sound {n n' : Node} {now : Nat} (sound : n.Sound)
    (h : n.escalate now = some n') : n'.Sound := by
  unfold escalate at h
  split at h
  · exact (Option.some.inj h) ▸ sound
  · split at h
    · exact (Option.some.inj h) ▸ sound
    · simp only [bind, Option.bind_eq_some_iff] at h
      obtain ⟨due, _, h⟩ := h
      split at h
      · exact (Option.some.inj h) ▸ sound
      · simp only [Option.bind_eq_some_iff, Option.some.injEq] at h
        obtain ⟨⟨shuffled, rng⟩, _, u, asked, rfl⟩ := h
        have helped := askHelpers_sound (n := { n with rng }) (sound.same rfl rfl) asked
        exact helped.same rfl rfl

/- News of the table, told to the node. -/
theorem Sound.outcome {n : Node} {update : Update} {now : Nat} {applied : Applied}
    {members : MemberTable} (sound : n.Sound)
    (outcome : n.members.Outcome update now applied members) : ({ n with members } : Node).Sound :=
  ⟨outcome.wellFormed sound.members, sound.gossip.follows outcome.sameSelf⟩

/- The table after a piece of news is the table told of it. -/
theorem learn_members {n n' : Node} {update : Update} {now : Nat}
    (h : n.learn update now = some n') :
    ∃ applied, n.members.apply update now = some (applied, n'.members) := by
  simp only [learn, bind, Option.bind_eq_some_iff] at h
  obtain ⟨⟨applied, members⟩, told, h⟩ := h
  refine ⟨applied, ?_⟩
  rw [told]
  cases applied with
  | ignored => exact (Option.some.inj h) ▸ rfl
  | refused =>
    dsimp only at h
    split at h
    · exact (Option.some.inj h) ▸ rfl
    · split at h
      · exact (Option.some.inj h) ▸ rfl
      · have frame := refreshCap_frame h
        rw [frame]
  | accepted previous =>
    have frame := spread_frame h
    rw [frame]
  | refuted alive =>
    simp only [Option.bind_eq_some_iff] at h
    obtain ⟨conflicts, _, h⟩ := h
    have frame := spread_frame h
    rw [frame]

theorem learn_sound {n n' : Node} {update : Update} {now : Nat} (sound : n.Sound)
    (h : n.learn update now = some n') : n'.Sound := by
  simp only [learn, bind, Option.bind_eq_some_iff] at h
  obtain ⟨⟨applied, members⟩, told, h⟩ := h
  have outcome := MemberTable.apply_spec sound.members told
  have soundU := sound.outcome outcome
  obtain ⟨accepted, refuted⟩ := outcome.sayable
  cases applied with
  | ignored => exact (Option.some.inj h) ▸ soundU
  | refused =>
    dsimp only at h
    split at h
    · exact (Option.some.inj h) ▸ soundU
    · split at h
      · exact (Option.some.inj h) ▸ soundU.same rfl rfl
      · have frame := refreshCap_frame h
        rw [frame]
        exact soundU.same rfl rfl
  | accepted previous => exact spread_sound soundU (accepted previous rfl) h
  | refuted alive =>
    simp only [Option.bind_eq_some_iff] at h
    obtain ⟨conflicts, _, h⟩ := h
    have own := refuted alive rfl
    subst own
    refine spread_sound ?_ ?_ h
    · exact soundU.same rfl rfl
    · exact MemberTable.ownUpdate_sayable _

theorem learnAll_sound {n n' : Node} {updates : List Update} {now : Nat} (sound : n.Sound)
    (h : n.learnAll updates now = some n') : n'.Sound := by
  induction updates generalizing n with
  | nil =>
    simp only [learnAll, List.foldlM_nil, Option.pure_def, Option.some.injEq] at h
    exact h ▸ sound
  | cons update rest ih =>
    simp only [learnAll, List.foldlM_cons, bind, Option.bind_eq_some_iff] at h
    obtain ⟨u, first, h⟩ := h
    exact ih (learn_sound sound first) h

theorem depart_sound {n : Node} (sound : n.Sound) (peer : PeerId) : (n.depart peer).Sound := by
  have frame := depart_frame n peer
  have members : (n.depart peer).members = (n.members.depart peer).2 := by rw [frame]
  have gossip : (n.depart peer).gossip = n.gossip := by rw [frame]
  refine ⟨?_, ?_⟩
  · rw [members]
    exact (MemberTable.depart_keeps sound.members peer).wellFormed
  · rw [members, gossip]
    exact sound.gossip.follows (n.members.depart_sameSelf peer)

theorem refreshCap_sound {n n' : Node} {now : Nat} (sound : n.Sound)
    (h : n.refreshCap now = some n') : n'.Sound := by
  have frame := refreshCap_frame h
  exact sound.same (by rw [frame]) (by rw [frame])

theorem spreadAll_sound {n n' : Node} {updates : List Update} (sound : n.Sound)
    (sayable : ∀ update ∈ updates, Sayable n.members update)
    (h : n.spreadAll updates = some n') : n'.Sound := by
  induction updates generalizing n with
  | nil =>
    simp only [spreadAll, List.foldlM_nil, Option.pure_def, Option.some.injEq] at h
    exact h ▸ sound
  | cons update rest ih =>
    simp only [spreadAll, List.foldlM_cons, bind, Option.bind_eq_some_iff] at h
    obtain ⟨u, first, h⟩ := h
    have members : u.members = n.members := by rw [spread_frame first]
    refine ih (spread_sound sound (sayable update List.mem_cons_self) first) ?_ h
    intro other mem
    rw [members]
    exact sayable other (List.mem_cons_of_mem _ mem)

/- A suspicion is of a peer, never of the node itself. -/
theorem missProbe_sound {n n' : Node} {now : Nat} (sound : n.Sound)
    (h : n.missProbe now = some n') : n'.Sound := by
  unfold missProbe at h
  split at h
  · exact (Option.some.inj h) ▸ sound
  · rename_i missed _
    simp only [bind, Option.bind_eq_some_iff] at h
    obtain ⟨⟨suspicion, members⟩, suspected, h⟩ := h
    by_cases own : missed.target = n.members.localId
    · simp [MemberTable.suspect, own] at suspected
    obtain ⟨news, members', same, outcome⟩ := MemberTable.suspect_spec sound.members own now
    rw [suspected] at same
    simp only [Option.some.injEq, Prod.mk.injEq] at same
    obtain ⟨rfl, rfl⟩ := same
    rcases outcome with ⟨rfl, rfl⟩ | ⟨member, applied, found, _, rfl, outcome⟩
    · exact (Option.some.inj h) ▸ sound.same rfl rfl
    · refine spread_sound ?_ ?_ h
      · exact (sound.outcome outcome).same rfl rfl
      · intro same
        exact absurd (same.trans outcome.localId) own

theorem followChanges_sound {n n' : Node} {now : Nat} (sound : n.Sound)
    (h : n.followChanges now = some n') : n'.Sound := by
  have frame := followChanges_frame h
  have members : n'.members = { n.members with changes := [] } := by rw [frame]
  have gossip : n'.gossip = n.gossip := by rw [frame]
  refine ⟨?_, ?_⟩
  · rw [members]
    exact ⟨sound.members.ascending, sound.members.live_iff, sound.members.stranger⟩
  · rw [members, gossip]
    exact sound.gossip.follows ⟨rfl, rfl, UInt32.le_refl _⟩

theorem openRound_sound {n n' : Node} {now : Nat} (sound : n.Sound)
    (h : n.openRound now = some n') : n'.Sound := by
  simp only [openRound, bind, Option.bind_eq_some_iff] at h
  obtain ⟨_, _, missed⟩ := h
  refine missProbe_sound ?_ missed
  exact sound.same rfl rfl

theorem round_sound {decay : Nat → Nat → ℚ} {n n' : Node} {now : Nat} (sound : n.Sound)
    (h : n.round decay now = some n') : n'.Sound := by
  simp only [round, bind, Option.bind_eq_some_iff] at h
  obtain ⟨a, opened, b, policy, c, shares, d, reported, e, followed, stale, _, ⟨target, f⟩,
    chosen, h⟩ := h
  have soundA := openRound_sound sound opened
  have frameB := applyPolicy_frame policy
  have soundB : b.Sound := soundA.same (by rw [frameB]) (by rw [frameB])
  have frameC := applyShares_frame shares
  have soundC : c.Sound := soundB.same (by rw [frameC]) (by rw [frameC])
  have frameD := reportDemand_frame reported
  have soundD : d.Sound := soundC.same (by rw [frameD]) (by rw [frameD])
  have soundE := followChanges_sound soundD followed
  have frameF := chooseTarget_frame chosen
  have soundF : f.Sound := soundE.same (by rw [frameF]) (by rw [frameF])
  dsimp only at h
  split at h
  · exact ping_sound soundF h
  · exact (Option.some.inj h) ▸ soundF

/- The deaths of suspects are of peers, and leave the node's own record as it was. -/
theorem expireSuspects_sound {n : Node} {now timeout : Nat} {expired : List Update}
    {members : MemberTable} (sound : n.Sound)
    (h : n.members.expireSuspects now timeout = some (expired, members)) :
    members.WellFormed ∧ SameSelf n.members members ∧
      ∀ update ∈ expired, Sayable members update := by
  by_cases pos : 0 < timeout
  · obtain ⟨after, same, self, wf⟩ := MemberTable.expireSuspects_spec
      (P := fun t => SameSelf n.members t) now timeout
      (fun _ _ _ _ _ _ _ _ _ held _ outcome => held.trans outcome.sameSelf)
      sound.members pos (SameSelf.refl _)
    rw [h] at same
    simp only [Option.some.injEq, Prod.mk.injEq] at same
    obtain ⟨rfl, rfl⟩ := same
    refine ⟨wf, self, fun update mem own => ?_⟩
    obtain ⟨member, found, _⟩ := MemberTable.mem_expired mem
    exact absurd (own.trans self.localId) (sound.members.ne_local found)
  · simp [MemberTable.expireSuspects, pos] at h

theorem timeOut_sound {n n' : Node} {now : Nat} (sound : n.Sound)
    (h : n.timeOut now = some n') : n'.Sound := by
  simp only [timeOut, bind, Option.bind_eq_some_iff, Option.some.injEq] at h
  obtain ⟨⟨expired, members⟩, expires, a, spreads, rfl⟩ := h
  obtain ⟨wf, self, sayable⟩ := expireSuspects_sound sound expires
  have soundA : a.Sound := by
    refine spreadAll_sound ?_ ?_ spreads
    · exact ⟨wf, sound.gossip.follows self⟩
    · exact sayable
  have keeps := MemberTable.forgetDead_keeps soundA.members now a.swim.tombstoneTtl
  exact ⟨keeps.wellFormed, soundA.gossip.follows ⟨rfl, rfl, UInt32.le_refl _⟩⟩

theorem tick_sound {decay : Nat → Nat → ℚ} {n n' : Node} {now : Nat} (sound : n.Sound)
    (h : n.tick decay now = some n') : n'.Sound := by
  simp only [tick, bind, Option.bind_eq_some_iff] at h
  obtain ⟨a, timed, b, rounds, h⟩ := h
  have soundA := timeOut_sound sound timed
  refine escalate_sound ?_ h
  split at rounds
  · exact round_sound soundA rounds
  · exact (Option.some.inj rounds) ▸ soundA

theorem acknowledged_sound {n n' : Node} {sender : PeerId} {seq : UInt32}
    {demand : List DemandReport} {now : Nat} (sound : n.Sound)
    (h : n.acknowledged sender seq demand now = some n') : n'.Sound := by
  unfold acknowledged at h
  dsimp only at h
  split at h
  · simp only [bind, Option.bind_eq_some_iff, Option.some.injEq] at h
    obtain ⟨peerDemand, _, rfl⟩ := h
    exact sound.same rfl rfl
  · split at h
    · split at h
      · simp only [bind, Option.bind_eq_some_iff] at h
        obtain ⟨⟨updates, u⟩, out, h⟩ := h
        refine sendTo_sound ?_ out h
        exact sound.same rfl rfl
      · exact (Option.some.inj h) ▸ sound
    · exact (Option.some.inj h) ▸ sound

theorem relay_sound {n n' : Node} {requester target : PeerId} {seq : UInt32} {now : Nat}
    (sound : n.Sound) (h : n.relay requester seq target now = some n') : n'.Sound := by
  unfold relay at h
  split at h
  · exact ack_sound sound h
  · simp only [nextSeq, bind, Option.bind_eq_some_iff] at h
    obtain ⟨expiresAt, _, ⟨updates, u⟩, out, h⟩ := h
    refine sendTo_sound ?_ out h
    exact sound.same rfl rfl

theorem answer_sound {n n' : Node} {sender : PeerId} {message : Message} {now : Nat}
    (sound : n.Sound) (h : n.answer sender message now = some n') : n'.Sound := by
  cases message with
  | ping seq updates demand => exact ack_sound sound h
  | ack seq updates demand => exact acknowledged_sound sound h
  | pingReq seq target updates demand => exact relay_sound sound h
  | leave updates => simp [answer] at h

theorem receiveMessage_sound {n n' : Node} {sender : PeerId} {message : Message} {now : Nat}
    (sound : n.Sound) (h : n.receiveMessage sender message now = some n') : n'.Sound := by
  simp only [receiveMessage, bind, Option.bind_eq_some_iff] at h
  obtain ⟨a, learned, h⟩ := h
  have soundA : a.Sound := by
    refine learnAll_sound ?_ learned
    exact sound.same rfl rfl
  cases message with
  | leave updates => exact (Option.some.inj h) ▸ depart_sound soundA sender
  | ping | ack | pingReq =>
    simp only [Option.bind_eq_some_iff] at h
    obtain ⟨b, heard, h⟩ := h
    have frame := hear_frame heard
    exact answer_sound (soundA.same (by rw [frame]) (by rw [frame])) h

theorem receive_sound {n n' : Node} {sender : PeerId} {bytes : List UInt8} {now : Nat}
    (sound : n.Sound) (h : n.receive sender bytes now = some n') : n'.Sound := by
  unfold receive at h
  split at h
  · exact (Option.some.inj h) ▸ sound
  · split at h
    · exact (Option.some.inj h) ▸ sound
    · split at h
      · exact receiveMessage_sound sound h
      · exact (Option.some.inj h) ▸ sound

theorem handle_sound {decay : Nat → Nat → ℚ} {n n' : Node} {event : Event} {now : Nat}
    (sound : n.Sound) (h : n.handle decay event now = some n') : n'.Sound := by
  simp only [handle, bind, Option.bind_eq_some_iff] at h
  obtain ⟨a, advanced, h⟩ := h
  obtain ⟨_, rfl⟩ := advance_some advanced
  split at h
  · exact (Option.some.inj h) ▸ sound.same rfl rfl
  · cases event with
    | tick =>
      refine tick_sound ?_ h
      exact sound.same rfl rfl
    | messageReceived sender bytes =>
      refine receive_sound ?_ h
      exact sound.same rfl rfl

theorem leave_sound {n n' : Node} {now : Nat} (sound : n.Sound) (h : n.leave now = some n') :
    n'.Sound := by
  simp only [leave, bind, Option.bind_eq_some_iff] at h
  obtain ⟨a, advanced, h⟩ := h
  obtain ⟨_, rfl⟩ := advance_some advanced
  split at h
  · exact (Option.some.inj h) ▸ sound.same rfl rfl
  · simp only [Option.bind_eq_some_iff] at h
    obtain ⟨own, _, h⟩ := h
    have frame := sendLeave_frame h
    exact sound.same (by rw [frame]) (by rw [frame])

theorem introduce_sound {n n' : Node} {peer : PeerId} {addr : Address} (sound : n.Sound)
    (h : n.introduce peer addr = some n') : n'.Sound := by
  unfold introduce at h
  split at h
  · simp at h
  · simp only [bind, Option.bind_eq_some_iff] at h
    obtain ⟨⟨applied, members⟩, told, h⟩ := h
    have soundU := sound.outcome (MemberTable.apply_spec sound.members told)
    split at h
    · refine refreshCap_sound ?_ h
      exact soundU.same rfl rfl
    · exact (Option.some.inj h) ▸ soundU

theorem step_sound {decay : Nat → Nat → ℚ} {n n' : Node} (sound : n.Sound) (op : Op)
    (h : n.step decay op = some n') : n'.Sound := by
  cases op with
  | introduce peer addr => exact introduce_sound sound h
  | addSeed seed addr =>
    simp only [step, addSeed] at h
    split at h
    · simp at h
    · refine refreshCap_sound ?_ h
      split
      · exact sound
      · exact sound.same rfl rfl
  | removeSeed | expectPeers | setPartitionPolicy =>
    refine refreshCap_sound ?_ h
    exact sound.same rfl rfl
  | setQuorumMemory memory => exact (Option.some.inj h) ▸ sound.same rfl rfl
  | setMaxMembers max =>
    simp only [step, setMaxMembers, MemberTable.setMax, bind, Option.bind_eq_some_iff,
      Option.ite_none_right_eq_some, Option.some.injEq] at h
    obtain ⟨members, ⟨_, rfl⟩, rfl⟩ := h
    exact ⟨⟨sound.members.ascending, sound.members.live_iff, sound.members.stranger⟩,
      sound.gossip.follows ⟨rfl, rfl, UInt32.le_refl _⟩⟩
  | record key tally limit now =>
    simp only [step, record, bind, Option.bind_eq_some_iff, Option.some.injEq] at h
    obtain ⟨a, advanced, limiter, _, rfl⟩ := h
    obtain ⟨_, rfl⟩ := advance_some advanced
    exact sound.same rfl rfl
  | checkIn key limit now =>
    simp only [step, checkIn, bind, Option.bind_eq_some_iff, Option.map_eq_some_iff,
      Option.some.injEq] at h
    obtain ⟨_, ⟨a, advanced, ⟨decision, limiter⟩, _, rfl⟩, rfl⟩ := h
    obtain ⟨_, rfl⟩ := advance_some advanced
    exact sound.same rfl rfl
  | checkInTraced key limit shadow now =>
    simp only [step, checkInTraced, bind, Option.bind_eq_some_iff, Option.map_eq_some_iff,
      Option.some.injEq] at h
    obtain ⟨_, ⟨a, advanced, ⟨decisions, limiter⟩, _, rfl⟩, rfl⟩ := h
    obtain ⟨_, rfl⟩ := advance_some advanced
    exact sound.same rfl rfl
  | handle event now => exact handle_sound sound h
  | leave now => exact leave_sound sound h
  | rehash keys =>
    simp only [step, rehash, Option.ite_none_right_eq_some, Option.some.injEq] at h
    obtain ⟨_, rfl⟩ := h
    exact sound.same rfl rfl

theorem new_sound {config : Config} {swim : SwimConfig} {localId : PeerId} {addr : Address}
    {seed : UInt64} {n : Node} (h : Node.new config swim localId addr seed = some n) :
    n.Sound := by
  unfold Node.new at h
  split at h
  · simp only [MemberTable.setMax, bind, Option.bind_eq_some_iff, Option.ite_none_right_eq_some,
      Option.some.injEq] at h
    obtain ⟨members, ⟨_, rfl⟩, limiter, _, rfl⟩ := h
    have wf := MemberTable.new_wellFormed localId addr
    exact ⟨⟨wf.ascending, wf.live_iff, wf.stranger⟩,
      ⟨fun member pending found => by simp [Gossip.new] at found,
        fun pending found => by simp [Gossip.new] at found⟩⟩
  · simp at h

end Node

theorem Reachable.sound {decay : Nat → Nat → ℚ} {n : Node} (reached : Reachable decay n) :
    n.Sound := by
  induction reached with
  | start config swim localId addr seed n h => exact Node.new_sound h
  | step n op n' _ h sound => exact Node.step_sound sound op h

end Rateguard
