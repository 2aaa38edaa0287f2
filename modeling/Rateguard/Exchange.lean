import Rateguard.Leaves
import Rateguard.Tables
import Rateguard.Outgoing

/- One exchange of a ping and its ack, and what the pinging node then holds of the other. -/
namespace Rateguard
open Std (ExtTreeMap)

theorem SameSelf.rank_le {t t' : MemberTable} (same : SameSelf t t') :
    t.ownUpdate.rank ≤ t'.ownUpdate.rank := by
  have incarnation := UInt32.le_iff_toNat_le.mp same.incarnation
  simp only [Update.rank, MemberTable.ownUpdate, Status.rank]
  omega

section
variable {t t' : MemberTable} {update : Update} {now : Nat} {applied : Applied}

/- What a node is told of itself, below the last incarnation, does not beat its own record
   afterwards. -/
theorem MemberTable.Outcome.answers (h : t.Outcome update now applied t')
    (own : update.member = t.localId) (fits : update.incarnation.toNat + 1 < 2 ^ 32) :
    update.rank ≤ t'.ownUpdate.rank := by
  cases h with
  | echoed _ reason =>
    rcases reason with ⟨_, older⟩ | last
    · exact older
    · omega
  | answered _ _ older => exact older
  | outbid _ newer _ =>
    have upper := update.status.rank_lt
    simp only [Update.rank, ownUpdate, Status.rank] at upper ⊢
    rw [UInt32.toNat_add, Nat.mod_eq_of_lt (by simpa using fits)]
    simp
    omega
  | stale _ stranger | refused stranger | taken _ _ stranger => exact absurd own stranger

/- News no newer than the record of its member leaves it, and so does news of another. -/
theorem MemberTable.Outcome.keeps_record (h : t.Outcome update now applied t') {peer : PeerId}
    {member : Member} (found : t.members[peer]? = some member)
    (older : update.member = peer → update.rank ≤ (member.update peer).rank) :
    t'.members[peer]? = some member := by
  cases h with
  | taken live changes _ newer =>
    by_cases same : update.member = peer
    · subst same
      have := newer member found
      have := older rfl
      omega
    · rw [ExtTreeMap.getElem?_insert, if_neg (by simpa using same)]
      exact found
  | _ => exact found

/- An Alive of a member no older than its record is what is then held. -/
theorem MemberTable.Outcome.alive (h : t.Outcome update now applied t') {member : Member}
    (stranger : update.member ≠ t.localId) (found : t.members[update.member]? = some member)
    (alive : update.status = .alive) (newer : (member.update update.member).rank ≤ update.rank) :
    ∃ held, t'.members[update.member]? = some held ∧ held.status = .alive ∧
      held.incarnation = update.incarnation := by
  cases h with
  | echoed own | answered own | outbid own => exact absurd own stranger
  | refused _ absent => simp [absent] at found
  | stale current _ same older =>
    rw [found, Option.some.injEq] at same
    subst same
    refine ⟨member, found, ?_⟩
    have lower := member.status.rank_lt
    have rank : member.status.rank = Status.alive.rank := by
      simp only [Update.rank, Member.update, alive, Status.rank] at newer older lower ⊢
      omega
    refine ⟨Status.rank_inj rank, ?_⟩
    rw [← UInt32.toNat_inj]
    simp only [Update.rank, Member.update, alive, rank] at newer older
    omega
  | taken live changes =>
    exact ⟨_, ExtTreeMap.getElem?_insert_self, alive, rfl⟩

end

namespace Node

/- Everything learned at once: the node's own record only rises, and answers what it was told. -/
theorem learnAll_answers {n n' : Node} {updates : List Update} {now : Nat} (sound : n.Sound)
    (h : n.learnAll updates now = some n') :
    SameSelf n.members n'.members ∧ ∀ update ∈ updates, update.member = n.members.localId →
      update.incarnation.toNat + 1 < 2 ^ 32 → update.rank ≤ n'.members.ownUpdate.rank := by
  induction updates generalizing n with
  | nil =>
    simp only [learnAll, List.foldlM_nil, Option.pure_def, Option.some.injEq] at h
    subst h
    exact ⟨SameSelf.refl _, by simp⟩
  | cons update rest ih =>
    simp only [learnAll, List.foldlM_cons, bind, Option.bind_eq_some_iff] at h
    obtain ⟨u, first, h⟩ := h
    obtain ⟨applied, told⟩ := learn_members first
    have outcome := MemberTable.apply_spec sound.members told
    obtain ⟨later, answered⟩ := ih (learn_sound sound first) h
    refine ⟨outcome.sameSelf.trans later, fun other mem own fits => ?_⟩
    rcases List.mem_cons.mp mem with rfl | mem
    · exact (outcome.answers own fits).trans later.rank_le
    · exact answered other mem (own.trans outcome.localId.symm) fits

theorem learnAll_keeps_record {n n' : Node} {updates : List Update} {now : Nat} {peer : PeerId}
    {member : Member} (sound : n.Sound) (found : n.members.members[peer]? = some member)
    (older : ∀ update ∈ updates, update.member = peer →
      update.rank ≤ (member.update peer).rank)
    (h : n.learnAll updates now = some n') : n'.members.members[peer]? = some member := by
  induction updates generalizing n with
  | nil =>
    simp only [learnAll, List.foldlM_nil, Option.pure_def, Option.some.injEq] at h
    exact h ▸ found
  | cons update rest ih =>
    simp only [learnAll, List.foldlM_cons, bind, Option.bind_eq_some_iff] at h
    obtain ⟨u, first, h⟩ := h
    obtain ⟨applied, told⟩ := learn_members first
    have outcome := MemberTable.apply_spec sound.members told
    exact ih (learn_sound sound first)
      (outcome.keeps_record found (older update List.mem_cons_self))
      (fun other mem => older other (List.mem_cons_of_mem _ mem)) h

/- Every ping among the actions was built on the table and the marks the node has. -/
def PingsTold (n : Node) : Prop :=
  ∀ peer bytes seq updates demand, .sendTo peer bytes ∈ n.actions →
    decode bytes = .ok (.ping seq updates demand) →
    ∃ u u' : Node, u.Sound ∧ u.members = n.members ∧ u.behind = n.behind ∧
      u.outgoing peer = some (updates, u')

theorem pingsTold_of_silent {n : Node} (silent : n.actions = []) : n.PingsTold := by
  intro peer bytes seq updates demand mem
  simp [silent] at mem

theorem PingsTold.same {n n' : Node} (told : n.PingsTold) (members : n'.members = n.members)
    (behind : n'.behind = n.behind) (actions : n'.actions = n.actions) : n'.PingsTold := by
  intro peer bytes seq updates demand mem decoded
  rw [members, behind]
  exact told peer bytes seq updates demand (actions ▸ mem) decoded

theorem PingsTold.sendTo {n u n' : Node} {recipient : PeerId} {message : Message}
    {updates : List Update} (told : n.PingsTold) (sound : n.Sound)
    (out : n.outgoing recipient = some (updates, u)) (carried : message.updates = updates)
    (sent : u.send recipient message = some n') : n'.PingsTold := by
  obtain ⟨encoded, encodes, rfl⟩ := send_some sent
  have frame := outgoing_frame out
  have members : u.members = n.members := by rw [frame]
  have behind : u.behind = n.behind := by rw [frame]
  have actions : u.actions = n.actions := by rw [frame]
  intro peer bytes seq updates' demand mem decoded
  rcases List.mem_append.mp mem with earlier | last
  · obtain ⟨v, v', soundV, membersV, behindV, outV⟩ :=
      told peer bytes seq updates' demand (actions ▸ earlier) decoded
    exact ⟨v, v', soundV, membersV.trans members.symm, behindV.trans behind.symm, outV⟩
  · obtain ⟨rfl, rfl⟩ : peer = recipient ∧ bytes = encoded := by simpa using last
    rw [decode_encode encodes, Except.ok.injEq] at decoded
    have same : updates = updates' := by rw [← carried, decoded]; rfl
    exact ⟨n, u, sound, members.symm, behind.symm, same ▸ out⟩

theorem ack_pingsTold {n n' : Node} {recipient : PeerId} {seq : UInt32} (told : n.PingsTold)
    (sound : n.Sound) (h : n.ack recipient seq = some n') : n'.PingsTold := by
  simp only [ack, bind, Option.bind_eq_some_iff] at h
  obtain ⟨⟨updates, u⟩, out, h⟩ := h
  exact told.sendTo sound out rfl h

theorem ping_pingsTold {n n' : Node} {target : PeerId} {now : Nat} (told : n.PingsTold)
    (sound : n.Sound) (h : n.ping target now = some n') : n'.PingsTold := by
  simp only [ping, nextSeq, bind, Option.bind_eq_some_iff] at h
  obtain ⟨⟨updates, u⟩, out, h⟩ := h
  refine PingsTold.sendTo ?_ ?_ out rfl h
  · exact told.same rfl rfl rfl
  · exact sound.same rfl rfl

theorem askHelpers_pingsTold {n n' : Node} {target : PeerId} {seq : UInt32}
    {helpers : List PeerId} (told : n.PingsTold) (sound : n.Sound)
    (h : askHelpers target seq helpers n = some n') : n'.PingsTold := by
  induction helpers generalizing n with
  | nil =>
    simp only [askHelpers, Option.some.injEq] at h
    exact h ▸ told
  | cons helper rest ih =>
    simp only [askHelpers, bind, Option.bind_eq_some_iff] at h
    obtain ⟨⟨updates, u⟩, out, v, sent, h⟩ := h
    exact ih (told.sendTo sound out rfl sent) (sendTo_sound sound out sent) h

theorem escalate_pingsTold {n n' : Node} {now : Nat} (told : n.PingsTold) (sound : n.Sound)
    (h : n.escalate now = some n') : n'.PingsTold := by
  unfold escalate at h
  split at h
  · exact (Option.some.inj h) ▸ told
  · split at h
    · exact (Option.some.inj h) ▸ told
    · simp only [bind, Option.bind_eq_some_iff] at h
      obtain ⟨due, _, h⟩ := h
      split at h
      · exact (Option.some.inj h) ▸ told
      · simp only [Option.bind_eq_some_iff, Option.some.injEq] at h
        obtain ⟨⟨shuffled, rng⟩, _, u, asked, rfl⟩ := h
        have toldU : u.PingsTold := by
          refine askHelpers_pingsTold ?_ ?_ asked
          · exact told.same rfl rfl rfl
          · exact sound.same rfl rfl
        exact toldU.same rfl rfl rfl

/- A round says nothing before its ping. -/
theorem round_pingsTold {decay : Nat → Nat → ℚ} {n n' : Node} {now : Nat}
    (silent : n.actions = []) (sound : n.Sound) (h : n.round decay now = some n') :
    n'.PingsTold := by
  simp only [round, bind, Option.bind_eq_some_iff] at h
  obtain ⟨a, opened, b, policy, c, shares, d, reported, e, followed, stale, _, ⟨target, f⟩,
    chosen, h⟩ := h
  have frameB := applyPolicy_frame policy
  have frameC := applyShares_frame shares
  have frameD := reportDemand_frame reported
  have frameF := chooseTarget_frame chosen
  have soundA := openRound_sound sound opened
  have soundB : b.Sound := soundA.same (by rw [frameB]) (by rw [frameB])
  have soundC : c.Sound := soundB.same (by rw [frameC]) (by rw [frameC])
  have soundD : d.Sound := soundC.same (by rw [frameD]) (by rw [frameD])
  have soundE := followChanges_sound soundD followed
  have soundF : f.Sound := soundE.same (by rw [frameF]) (by rw [frameF])
  have quiet : f.actions = [] := by
    rw [frameF, followChanges_frame followed, frameD, frameC, frameB]
    simp only [openRound, bind, Option.bind_eq_some_iff] at opened
    obtain ⟨_, _, missed⟩ := opened
    rw [missProbe_frame missed]
    exact silent
  dsimp only at h
  split at h
  · exact ping_pingsTold (pingsTold_of_silent quiet) soundF h
  · exact (Option.some.inj h) ▸ pingsTold_of_silent quiet

theorem tick_pingsTold {decay : Nat → Nat → ℚ} {n n' : Node} {now : Nat}
    (silent : n.actions = []) (sound : n.Sound) (h : n.tick decay now = some n') :
    n'.PingsTold := by
  simp only [tick, bind, Option.bind_eq_some_iff] at h
  obtain ⟨a, timed, b, rounds, h⟩ := h
  have soundA := timeOut_sound sound timed
  have quiet : a.actions = [] := by
    simp only [timeOut, bind, Option.bind_eq_some_iff, Option.some.injEq] at timed
    obtain ⟨_, _, u, spreads, rfl⟩ := timed
    have frame := spreadAll_frame spreads
    rw [frame]
    exact silent
  split at rounds
  · exact escalate_pingsTold (round_pingsTold quiet soundA rounds) (round_sound soundA rounds) h
  · have same := Option.some.inj rounds
    subst same
    exact escalate_pingsTold (pingsTold_of_silent quiet) soundA h

theorem answer_pingsTold {n n' : Node} {sender : PeerId} {message : Message} {now : Nat}
    (silent : n.actions = []) (sound : n.Sound) (h : n.answer sender message now = some n') :
    n'.PingsTold := by
  have told := pingsTold_of_silent silent
  cases message with
  | ping seq updates demand => exact ack_pingsTold told sound h
  | ack seq updates demand =>
    simp only [answer, acknowledged] at h
    split at h
    · simp only [bind, Option.bind_eq_some_iff, Option.some.injEq] at h
      obtain ⟨peerDemand, _, rfl⟩ := h
      exact told.same rfl rfl rfl
    · split at h
      · split at h
        · simp only [bind, Option.bind_eq_some_iff] at h
          obtain ⟨⟨updates, u⟩, out, h⟩ := h
          refine PingsTold.sendTo ?_ ?_ out rfl h
          · exact told.same rfl rfl rfl
          · exact sound.same rfl rfl
        · exact (Option.some.inj h) ▸ told
      · exact (Option.some.inj h) ▸ told
  | pingReq seq target updates demand =>
    simp only [answer, relay] at h
    split at h
    · exact ack_pingsTold told sound h
    · simp only [nextSeq, bind, Option.bind_eq_some_iff] at h
      obtain ⟨expiresAt, _, ⟨updates, u⟩, out, h⟩ := h
      refine PingsTold.sendTo ?_ ?_ out rfl h
      · exact told.same rfl rfl rfl
      · exact sound.same rfl rfl
  | leave updates => simp [answer] at h

theorem receiveMessage_heard {n n' : Node} {sender : PeerId} {message : Message} {now : Nat}
    (told : ∀ updates, message ≠ .leave updates)
    (h : n.receiveMessage sender message now = some n') :
    ∃ (opened learned heard : Node) (newcomer : Bool), opened.members = n.members ∧
      opened.gossip = n.gossip ∧ opened.actions = n.actions ∧
      opened.learnAll message.updates now = some learned ∧
      learned.hear sender newcomer message now = some heard ∧
      heard.answer sender message now = some n' := by
  simp only [receiveMessage, bind, Option.bind_eq_some_iff] at h
  obtain ⟨a, learned, h⟩ := h
  cases message with
  | leave updates => exact absurd rfl (told updates)
  | ping | ack | pingReq =>
    obtain ⟨b, heard, h⟩ := h
    refine ⟨_, a, b, _, ?_, ?_, ?_, learned, heard, h⟩ <;> rfl

theorem receiveMessage_pingsTold {n n' : Node} {sender : PeerId} {message : Message} {now : Nat}
    (silent : n.actions = []) (sound : n.Sound)
    (h : n.receiveMessage sender message now = some n') : n'.PingsTold := by
  by_cases told : ∀ updates, message ≠ .leave updates
  · obtain ⟨opened, learned, heard, newcomer, members, gossip, actions, learns, hears, h⟩ :=
      receiveMessage_heard told h
    have frameL := learnAll_frame learns
    have frameH := hear_frame hears
    refine answer_pingsTold ?_ ?_ h
    · rw [frameH, frameL]
      exact actions.trans silent
    · exact (learnAll_sound (sound.same members gossip) learns).same (by rw [frameH])
        (by rw [frameH])
  · simp only [not_forall, not_not] at told
    obtain ⟨updates, rfl⟩ := told
    simp only [receiveMessage, bind, Option.bind_eq_some_iff, Option.some.injEq] at h
    obtain ⟨a, learned, rfl⟩ := h
    have frameL := learnAll_frame learned
    have frameD := depart_frame a sender
    refine pingsTold_of_silent ?_
    rw [frameD, frameL]
    exact silent

theorem handle_pingsTold {decay : Nat → Nat → ℚ} {n n' : Node} {event : Event} {now : Nat}
    (sound : n.Sound) (h : n.handle decay event now = some n') : n'.PingsTold := by
  simp only [handle, bind, Option.bind_eq_some_iff] at h
  obtain ⟨a, advanced, h⟩ := h
  obtain ⟨_, rfl⟩ := advance_some advanced
  split at h
  · exact (Option.some.inj h) ▸ pingsTold_of_silent rfl
  · cases event with
    | tick =>
      refine tick_pingsTold ?_ ?_ h
      · rfl
      · exact sound.same rfl rfl
    | messageReceived sender bytes =>
      simp only [receive] at h
      split at h
      · exact (Option.some.inj h) ▸ pingsTold_of_silent rfl
      · split at h
        · exact (Option.some.inj h) ▸ pingsTold_of_silent rfl
        · split at h
          · refine receiveMessage_pingsTold ?_ ?_ h
            · rfl
            · exact sound.same rfl rfl
          · exact (Option.some.inj h) ▸ pingsTold_of_silent rfl

theorem handle_message {decay : Nat → Nat → ℚ} {n n' : Node} {sender : PeerId}
    {bytes : List UInt8} {message : Message} {now : Nat} (present : n.left = false)
    (distinct : sender ≠ n.members.localId) (decoded : decode bytes = .ok message)
    (told : ∀ updates, message ≠ .leave updates)
    (h : n.handle decay (.messageReceived sender bytes) now = some n') :
    ∃ (opened learned heard : Node) (newcomer : Bool), opened.members = n.members ∧
      opened.gossip = n.gossip ∧ opened.actions = [] ∧
      opened.learnAll message.updates now = some learned ∧
      learned.hear sender newcomer message now = some heard ∧
      heard.answer sender message now = some n' := by
  simp only [handle, bind, Option.bind_eq_some_iff] at h
  obtain ⟨a, advanced, h⟩ := h
  obtain ⟨_, rfl⟩ := advance_some advanced
  have proper : wellFormedLeave sender message = true := by
    cases message with
    | leave updates => exact absurd rfl (told updates)
    | _ => rfl
  simp only [present, Bool.false_eq_true, ↓reduceIte, receive, distinct, decoded, proper] at h
  exact receiveMessage_heard told h

/- A ping heard: the node's own record answers what it was told of itself, and one ack opens
   with it. -/
theorem handle_ping {decay : Nat → Nat → ℚ} {n n' : Node} {sender : PeerId} {bytes : List UInt8}
    {seq : UInt32} {updates : List Update} {demand : List DemandReport} {now : Nat}
    (sound : n.Sound) (present : n.left = false) (distinct : sender ≠ n.members.localId)
    (decoded : decode bytes = .ok (.ping seq updates demand))
    (h : n.handle decay (.messageReceived sender bytes) now = some n') :
    SameSelf n.members n'.members ∧
      (∀ update ∈ updates, update.member = n.members.localId →
        update.incarnation.toNat + 1 < 2 ^ 32 → update.rank ≤ n'.members.ownUpdate.rank) ∧
      ∃ reply rest demand', n'.actions = [.sendTo sender reply] ∧
        decode reply = .ok (.ack seq (n'.members.ownUpdate :: rest) demand') ∧
        ∀ update ∈ rest, Sayable n'.members update := by
  obtain ⟨opened, learned, heard, newcomer, members, gossip, silent, learns, hears, h⟩ :=
    handle_message present distinct decoded (by simp) h
  have soundO : opened.Sound := sound.same members gossip
  obtain ⟨later, answered⟩ := learnAll_answers soundO learns
  have soundL := learnAll_sound soundO learns
  have frameL := learnAll_frame learns
  have frameH := hear_frame hears
  have soundH : heard.Sound := soundL.same (by rw [frameH]) (by rw [frameH])
  have frame := ack_frame h
  have final : n'.members = learned.members := by rw [frame, frameH]
  rw [members] at later answered
  rw [final]
  refine ⟨later, answered, ?_⟩
  simp only [answer, ack, bind, Option.bind_eq_some_iff] at h
  obtain ⟨⟨said, u⟩, out, h⟩ := h
  obtain ⟨reply, encodes, rfl⟩ := send_some h
  have carries := outgoing_carries soundH out
  have heardMembers : heard.members = learned.members := by rw [frameH]
  obtain ⟨rest, opens⟩ := carries.own
  rw [heardMembers] at opens
  refine ⟨reply, rest, u.outgoingDemand, ?_, ?_, ?_⟩
  · have quiet : u.actions = [] := by rw [outgoing_frame out, frameH, frameL]; exact silent
    rw [quiet]
    rfl
  · rw [decode_encode encodes, opens]
  · intro update mem
    have sayable := carries.sayable update (by rw [opens]; exact List.mem_cons_of_mem _ mem)
    rwa [heardMembers] at sayable

/- An ack heard that opens with an Alive of its sender no older than the record held. -/
theorem handle_ack {decay : Nat → Nat → ℚ} {n n' : Node} {bytes : List UInt8} {seq : UInt32}
    {own : Update} {rest : List Update} {demand : List DemandReport} {now : Nat} {held : Member}
    (sound : n.Sound) (present : n.left = false) (distinct : own.member ≠ n.members.localId)
    (decoded : decode bytes = .ok (.ack seq (own :: rest) demand))
    (known : n.members.members[own.member]? = some held) (alive : own.status = .alive)
    (newer : (held.update own.member).rank ≤ own.rank)
    (older : ∀ update ∈ rest, update.member = own.member →
      update.status = .alive ∧ update.incarnation ≤ own.incarnation)
    (h : n.handle decay (.messageReceived own.member bytes) now = some n') :
    ∃ member, n'.members.members[own.member]? = some member ∧ member.status = .alive ∧
      member.incarnation = own.incarnation := by
  obtain ⟨opened, learned, heard, newcomer, members, gossip, _, learns, hears, h⟩ :=
    handle_message present distinct decoded (by simp) h
  have soundO : opened.Sound := sound.same members gossip
  simp only [Message.updates, learnAll, List.foldlM_cons, bind, Option.bind_eq_some_iff] at learns
  obtain ⟨u, first, learns⟩ := learns
  obtain ⟨applied, told⟩ := learn_members first
  have outcome := MemberTable.apply_spec soundO.members told
  rw [members] at outcome
  obtain ⟨member, found, status, incarnation⟩ := outcome.alive distinct known alive newer
  have kept := learnAll_keeps_record (learn_sound soundO first) found (fun update mem same => by
    obtain ⟨status', incarnation'⟩ := older update mem same
    have le := UInt32.le_iff_toNat_le.mp incarnation'
    simp only [Update.rank, Member.update, status, status', incarnation]
    omega) learns
  have frameH := hear_frame hears
  have frame := answer_frame h
  refine ⟨member, ?_, status, incarnation⟩
  rw [frame, frameH]
  exact kept

end Node

/-- One exchange clears a false accusation. A node tells a peer it holds suspect or dead, or
    behind its own incarnation, what it holds of it in the ping; the peer's ack opens with an
    Alive record that beats it, or is as new; and the node holds that. -/
theorem accusation_cleared (decay : Nat → Nat → ℚ) (a b : Node) (reachedA : Reachable decay a)
    (reachedB : Reachable decay b) (distinct : a.members.localId ≠ b.members.localId)
    -- The event that makes a ping b, and what a holds of b as it does.
    (event : Event) (sentAt : Nat) (a' : Node) (pings : a.handle decay event sentAt = some a')
    (ping : List UInt8) (sent : .sendTo b.members.localId ping ∈ a'.actions) (seq : UInt32)
    (updates : List Update) (demand : List DemandReport)
    (decoded : decode ping = .ok (.ping seq updates demand)) (present : a'.left = false)
    (held : Member) (known : a'.members.members[b.members.localId]? = some held)
    (accused : held.status ≠ .alive ∨ b.members.localId ∈ a'.behind)
    (below : held.incarnation.toNat < 2 ^ 32 - 1)
    -- b handles the ping, and a next b's ack.
    (presentB : b.left = false) (heardAt : Nat) (b' : Node)
    (hears : b.handle decay (.messageReceived a.members.localId ping) heardAt = some b') :
    held.update b.members.localId ∈ updates ∧ b.members.incarnation ≤ b'.members.incarnation ∧
      ∃ ack own rest demand', b'.actions = [.sendTo a.members.localId ack] ∧
        decode ack = .ok (.ack seq (own :: rest) demand') ∧ own.member = b.members.localId ∧
        own.status = .alive ∧ own.incarnation = b'.members.incarnation ∧
        (own.supersedes (held.update b.members.localId) = some true ∨
          held.status = .alive ∧ held.incarnation = own.incarnation) ∧
        ∀ ackedAt a'', a'.handle decay (.messageReceived b.members.localId ack) ackedAt = some a'' →
          ∃ member, a''.members.members[b.members.localId]? = some member ∧
            member.status = .alive ∧ member.incarnation = b'.members.incarnation := by
  have soundA := reachedA.sound
  have soundA' := Node.handle_sound soundA pings
  have selfA : a'.members.localId = a.members.localId :=
    (Node.handle_sameSelf soundA pings).localId
  -- The accusation has its place.
  obtain ⟨u, u', soundU, membersU, behindU, out⟩ :=
    Node.handle_pingsTold soundA pings _ _ _ _ _ sent decoded
  have stranger : b.members.localId ≠ a'.members.localId := fun same => distinct (selfA ▸ same.symm)
  have told : held.update b.members.localId ∈ updates := by
    refine (Node.outgoing_carries soundU out).accusation _ (Node.accusation_some.mpr ⟨?_, ?_⟩)
    · rw [membersU]
      simp [MemberTable.updateAbout, stranger, known]
    · rw [behindU]
      exact accused
  -- The peer answers it.
  obtain ⟨same, answered, ack, rest, demand', actions, reply, sayable⟩ :=
    Node.handle_ping reachedB.sound presentB distinct decoded hears
  have newer : (held.update b.members.localId).rank ≤ b'.members.ownUpdate.rank :=
    answered _ told rfl (by simp only [Member.update]; omega)
  have own : b'.members.ownUpdate.member = b.members.localId := same.localId
  refine ⟨told, same.incarnation, ack, b'.members.ownUpdate, rest, demand', actions, reply, own, rfl,
    rfl, ?_, ?_⟩
  · rcases Nat.lt_or_ge (held.update b.members.localId).rank b'.members.ownUpdate.rank with
      beats | equal
    · left
      rw [Update.supersedes_eq own]
      exact congrArg some (decide_eq_true beats)
    · right
      have lower := held.status.rank_lt
      simp only [Update.rank, Member.update, MemberTable.ownUpdate, Status.rank] at newer equal lower
      have status : held.status.rank = Status.alive.rank := by
        simp only [Status.rank]
        omega
      refine ⟨Status.rank_inj status, ?_⟩
      rw [← UInt32.toNat_inj]
      simp only [Status.rank] at status
      simp only [MemberTable.ownUpdate]
      omega
  · intro ackedAt a'' hears'
    rw [← own] at hears' known newer ⊢
    refine Node.handle_ack soundA' present (own ▸ stranger) reply known rfl newer ?_ hears'
    intro update mem about
    obtain ⟨alive, _, incarnation⟩ := sayable update mem about
    exact ⟨alive, incarnation⟩

/- Node 0 holds node 1 dead by hearsay, and pings it. -/
def clearingRun : Option (Node × Node × Node × Node × List UInt8 × Message × Member) := do
  let start ← Node.sample 0 0
  let a ← start.run sampleDecay [.introduce 1 (sampleAddress 1),
    sampleOp 99 (.ack 0 [⟨1, sampleAddress 1, 3, .dead⟩] []) (ms 100)]
  let b ← Node.sample 1 1
  let a' ← a.handle sampleDecay .tick (ms 200)
  match a'.actions with
  | [.sendTo _ ping] =>
    let held ← a'.members.members[b.members.localId]?
    let message ← (decode ping).toOption
    let b' ← b.handle sampleDecay (.messageReceived a.members.localId ping) (ms 1)
    some (a, b, a', b', ping, message, held)
  | _ => none

theorem clearingRun_runs : (clearingRun.any fun (a, b, a', b', ping, message, held) =>
    decide (a.members.localId ≠ b.members.localId) && !a'.left && !b.left &&
      decide (held.status ≠ .alive) && decide (held.incarnation.toNat < 2 ^ 32 - 1) &&
      decide (a'.actions = [.sendTo b.members.localId ping]) &&
      decide (decode ping = .ok message) && decide (b'.members.incarnation = 4) &&
      (match message with | .ping .. => true | _ => false)) = true := by
  decide +kernel

theorem accusation_cleared_dead : ∃ (a b a' b' : Node) (ping : List UInt8) (message : Message)
    (held : Member), clearingRun = some (a, b, a', b', ping, message, held) ∧
      held.update b.members.localId ∈ message.updates ∧
      b.members.incarnation ≤ b'.members.incarnation := by
  obtain ⟨⟨a, b, a', b', ping, message, held⟩, ran, checked⟩ :=
    (Option.any_eq_true _ _).mp clearingRun_runs
  simp only [Bool.and_eq_true, decide_eq_true_eq, Bool.not_eq_true'] at checked
  obtain ⟨⟨⟨⟨⟨⟨⟨⟨distinct, present⟩, presentB⟩, dead⟩, below⟩, sent⟩, decoded⟩, _⟩, isPing⟩ :=
    checked
  have same := ran
  simp only [clearingRun, bind, Option.bind_eq_some_iff] at ran
  obtain ⟨start, fresh, u, ran, v, freshB, w, ticked, ran⟩ := ran
  split at ran
  · simp only [Option.bind_eq_some_iff, Option.some.injEq, Prod.mk.injEq] at ran
    obtain ⟨held', known, message', _, x, heard, rfl, rfl, rfl, rfl, rfl, rfl, rfl⟩ := ran
    cases message' with
    | ping seq updates demand =>
      have cleared := accusation_cleared sampleDecay u v (Reachable.sample fresh ran)
        (.start _ _ _ _ _ v freshB) distinct .tick (ms 200) w ticked _ (by rw [sent]; simp) seq
        updates demand decoded present held' known (Or.inl dead) below presentB (ms 1) x heard
      exact ⟨u, v, w, x, _, _, held', same, cleared.1, cleared.2.1⟩
    | ack | pingReq | leave => simp at isPing
  · simp at ran

end Rateguard
