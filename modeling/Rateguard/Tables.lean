import Rateguard.Sound

/- What becomes of the member table in one event: news of a message is applied to it in turn,
   a tick accuses members that are live, and forgets dead ones. What the operations that handle
   no event leave alone. -/
namespace Rateguard
open Std (ExtTreeMap)

/- A property of tables that a tick keeps: under news of a member that is live there or was at
   the start, under forgetting, and under the changes being taken out. -/
structure KeptByTick (start : MemberTable) (P : MemberTable → Prop) : Prop where
  accused : ∀ t t' update now applied member,
    start.members[update.member]? = some member ∨ t.members[update.member]? = some member →
    member.isLive → update.incarnation = member.incarnation → P t → t.WellFormed → t.Outcome update now applied t' → P t'
  forgot : ∀ t now ttl, P t → P (t.forgetDead now ttl).2
  drained : ∀ t, P t → P { t with changes := [] }

/- The same, but for the changes being taken out, which only a round does. -/
structure KeptByNews (start : MemberTable) (P : MemberTable → Prop) : Prop where
  accused : ∀ t t' update now applied member,
    start.members[update.member]? = some member ∨ t.members[update.member]? = some member →
    member.isLive → update.incarnation = member.incarnation → P t → t.WellFormed → t.Outcome update now applied t' → P t'
  forgot : ∀ t now ttl, P t → P (t.forgetDead now ttl).2

theorem KeptByTick.byNews {start : MemberTable} {P : MemberTable → Prop}
    (kept : KeptByTick start P) : KeptByNews start P := ⟨kept.accused, kept.forgot⟩

/- A property that any news keeps, whatever it is of. -/
theorem KeptByTick.of_news {start : MemberTable} {P : MemberTable → Prop}
    (news : ∀ t t' update now applied, P t → t.Outcome update now applied t' → P t')
    (forgot : ∀ t now ttl, P t → P (t.forgetDead now ttl).2)
    (drained : ∀ t, P t → P { t with changes := [] }) : KeptByTick start P :=
  ⟨fun t t' update now applied _ _ _ _ held _ outcome => news t t' update now applied held outcome,
    forgot, drained⟩

namespace Node
variable {P : MemberTable → Prop}

theorem learnAll_table {n n' : Node} {updates : List Update} {now : Nat} (sound : n.Sound)
    (told : ∀ t t' update applied, update ∈ updates → P t → t.WellFormed →
      t.Outcome update now applied t' → P t')
    (held : P n.members) (h : n.learnAll updates now = some n') : P n'.members := by
  induction updates generalizing n with
  | nil =>
    simp only [learnAll, List.foldlM_nil, Option.pure_def, Option.some.injEq] at h
    exact h ▸ held
  | cons update rest ih =>
    simp only [learnAll, List.foldlM_cons, bind, Option.bind_eq_some_iff] at h
    obtain ⟨u, first, h⟩ := h
    obtain ⟨applied, news⟩ := learn_members first
    have outcome := MemberTable.apply_spec sound.members news
    refine ih (learn_sound sound first) ?_ ?_ h
    · intro t t' other applied mem
      exact told t t' other applied (List.mem_cons_of_mem _ mem)
    · exact told n.members u.members update applied List.mem_cons_self held sound.members outcome

theorem missProbe_table {start : MemberTable} (kept : KeptByNews start P) {n n' : Node}
    {now : Nat} (sound : n.Sound) (held : P n.members) (h : n.missProbe now = some n') :
    P n'.members := by
  unfold missProbe at h
  split at h
  · exact (Option.some.inj h) ▸ held
  · rename_i missed _
    simp only [bind, Option.bind_eq_some_iff] at h
    obtain ⟨⟨suspicion, members⟩, suspected, h⟩ := h
    have last : n'.members = members := by
      cases suspicion with
      | none => exact (Option.some.inj h) ▸ rfl
      | some suspicion =>
        have frame := spread_frame h
        rw [frame]
    by_cases own : missed.target = n.members.localId
    · simp [MemberTable.suspect, own] at suspected
    obtain ⟨news, members', same, outcome⟩ := MemberTable.suspect_spec sound.members own now
    rw [suspected] at same
    simp only [Option.some.injEq, Prod.mk.injEq] at same
    obtain ⟨_, rfl⟩ := same
    rw [last]
    rcases outcome with ⟨_, rfl⟩ | ⟨member, applied, found, alive, _, outcome⟩
    · exact held
    · have live : member.isLive = true := by simp [Member.isLive, alive]
      exact kept.accused n.members members _ now applied member (.inr found) live rfl held
        sound.members outcome

/- A round's table is the one its missed probe leaves, its changes taken out. -/
theorem round_members {decay : Nat → Nat → ℚ} {n n' : Node} {now : Nat}
    (h : n.round decay now = some n') :
    ∃ a, n.openRound now = some a ∧ n'.members = { a.members with changes := [] } := by
  simp only [round, bind, Option.bind_eq_some_iff] at h
  obtain ⟨a, opened, b, policy, c, shares, d, reported, e, followed, stale, _, ⟨target, f⟩,
    chosen, h⟩ := h
  refine ⟨a, opened, ?_⟩
  rw [chooseTarget_frame chosen] at h
  have members : d.members = a.members := by
    rw [reportDemand_frame reported, applyShares_frame shares, applyPolicy_frame policy]
  have membersE : e.members = { a.members with changes := [] } := by
    rw [followChanges_frame followed, members]
  dsimp only at h
  split at h
  · rw [ping_frame h]
    exact membersE
  · exact (Option.some.inj h) ▸ membersE

theorem round_table {decay : Nat → Nat → ℚ} {start : MemberTable} (kept : KeptByTick start P)
    {n n' : Node} {now : Nat} (sound : n.Sound) (held : P n.members)
    (h : n.round decay now = some n') : P n'.members := by
  obtain ⟨a, opened, last⟩ := round_members h
  simp only [openRound, bind, Option.bind_eq_some_iff] at opened
  obtain ⟨_, _, missed⟩ := opened
  rw [last]
  refine kept.drained a.members (missProbe_table kept.byNews ?_ ?_ missed)
  · exact sound.same rfl rfl
  · exact held

theorem timeOut_table {n n' : Node} {now : Nat} (kept : KeptByNews n.members P) (sound : n.Sound)
    (held : P n.members) (h : n.timeOut now = some n') : P n'.members := by
  simp only [timeOut, bind, Option.bind_eq_some_iff, Option.some.injEq] at h
  obtain ⟨⟨expired, members⟩, expires, a, spreads, rfl⟩ := h
  have same : a.members = members := by rw [spreadAll_frame spreads]
  refine kept.forgot a.members now a.swim.tombstoneTtl ?_
  rw [same]
  by_cases pos : 0 < n.swim.suspicionTimeout
  · obtain ⟨after, expires', heldAfter, _⟩ := MemberTable.expireSuspects_spec now
      n.swim.suspicionTimeout
      (fun t t' member update applied found suspect _ accused before wf outcome =>
        kept.accused t t' update now applied member (.inl found) (by simp [Member.isLive, suspect])
          (congrArg Update.incarnation accused) before wf outcome)
      sound.members pos held
    rw [expires] at expires'
    simp only [Option.some.injEq, Prod.mk.injEq] at expires'
    rw [expires'.2]
    exact heldAfter
  · simp [MemberTable.expireSuspects, pos] at expires

theorem tick_table {decay : Nat → Nat → ℚ} {n n' : Node} {now : Nat}
    (kept : KeptByTick n.members P) (sound : n.Sound) (held : P n.members)
    (h : n.tick decay now = some n') : P n'.members := by
  simp only [tick, bind, Option.bind_eq_some_iff] at h
  obtain ⟨b, timed, c, rounds, h⟩ := h
  have heldB := timeOut_table kept.byNews sound held timed
  have last : n'.members = c.members := by rw [escalate_frame h]
  rw [last]
  split at rounds
  · exact round_table kept (timeOut_sound sound timed) heldB rounds
  · exact (Option.some.inj rounds) ▸ heldB

/- A message's table is the one its news leaves, but for the mark of a leave. -/
theorem receiveMessage_table {n n' : Node} {sender : PeerId} {message : Message} {now : Nat}
    (sound : n.Sound)
    (told : ∀ t t' update applied, update ∈ message.updates → P t → t.WellFormed →
      t.Outcome update now applied t' → P t')
    (departs : ∀ updates, message = .leave updates → ∀ t, P t → P (t.depart sender).2)
    (held : P n.members) (h : n.receiveMessage sender message now = some n') : P n'.members := by
  simp only [receiveMessage, bind, Option.bind_eq_some_iff] at h
  obtain ⟨a, learned, h⟩ := h
  have heldA : P a.members := by
    refine learnAll_table ?_ told ?_ learned
    · exact sound.same rfl rfl
    · exact held
  cases message with
  | leave updates =>
    rw [← Option.some.inj h, depart_frame a sender]
    exact departs updates rfl a.members heldA
  | ping | ack | pingReq =>
    simp only [Option.bind_eq_some_iff] at h
    obtain ⟨b, heard, h⟩ := h
    rw [answer_frame h, hear_frame heard]
    exact heldA

/-- What keeps a property of the table through every event. -/
theorem handle_table {decay : Nat → Nat → ℚ} {n n' : Node} {event : Event} {now : Nat}
    (kept : event = .tick → KeptByTick n.members P)
    (told : ∀ sender bytes message, event = .messageReceived sender bytes →
      decode bytes = .ok message → ∀ t t' update applied, update ∈ message.updates → P t →
        t.WellFormed → t.Outcome update now applied t' → P t')
    (departs : ∀ sender bytes updates, event = .messageReceived sender bytes →
      decode bytes = .ok (.leave updates) → ∀ t, P t → P (t.depart sender).2)
    (sound : n.Sound) (held : P n.members) (h : n.handle decay event now = some n') :
    P n'.members := by
  simp only [handle, bind, Option.bind_eq_some_iff] at h
  obtain ⟨a, advanced, h⟩ := h
  obtain ⟨_, rfl⟩ := advance_some advanced
  split at h
  · exact (Option.some.inj h) ▸ held
  · cases event with
    | tick =>
      refine tick_table ?_ ?_ ?_ h
      · exact kept rfl
      · exact sound.same rfl rfl
      · exact held
    | messageReceived sender bytes =>
      simp only [receive] at h
      split at h
      · exact (Option.some.inj h) ▸ held
      · split at h
        · exact (Option.some.inj h) ▸ held
        · rename_i message decoded
          split at h
          · refine receiveMessage_table ?_ ?_ ?_ ?_ h
            · exact sound.same rfl rfl
            · exact told sender bytes message rfl decoded
            · rintro updates rfl
              exact departs sender bytes updates rfl decoded
            · exact held
          · exact (Option.some.inj h) ▸ held

/- A node stays the node it is: its ID and address, and an incarnation that only rises. -/
theorem handle_sameSelf {decay : Nat → Nat → ℚ} {n n' : Node} {event : Event} {now : Nat}
    (sound : n.Sound) (h : n.handle decay event now = some n') :
    SameSelf n.members n'.members := by
  refine handle_table (P := SameSelf n.members) ?_ ?_ ?_ sound (SameSelf.refl _) h
  · exact fun _ => .of_news (fun _ _ _ _ _ same outcome => same.trans outcome.sameSelf)
      (fun _ _ _ same => same.trans ⟨rfl, rfl, UInt32.le_refl _⟩)
      (fun _ same => same.trans ⟨rfl, rfl, UInt32.le_refl _⟩)
  · intro _ _ _ _ _ t t' _ _ _ same _ outcome
    exact same.trans outcome.sameSelf
  · intro sender _ _ _ _ t same
    exact same.trans (t.depart_sameSelf sender)

/- What an operation that handles nothing leaves alone: the protocol's state, and the table but
   for a peer it may introduce. -/
structure Apart (n n' : Node) : Prop where
  frame : n' = { n with
    limiter := n'.limiter, members := n'.members, seeds := n'.seeds, lastNow := n'.lastNow
    actions := n'.actions, policy := n'.policy, sizes := n'.sizes, heldSize := n'.heldSize
    quorumMemory := n'.quorumMemory, expectsPeers := n'.expectsPeers, left := n'.left
    held := n'.held, lastRefusedAt := n'.lastRefusedAt }
  localId : n'.members.localId = n.members.localId
  left : n.left = true → n'.left = true
  told : n'.members.members = n.members.members ∧ n'.members.incarnation = n.members.incarnation ∨
    ∃ peer addr applied, peer ≠ n.members.localId ∧
      n.members.Outcome ⟨peer, addr, 0, .alive⟩ n.lastNow applied n'.members

theorem Apart.peerDemand {n n' : Node} (apart : Apart n n') : n'.peerDemand = n.peerDemand := by
  rw [apart.frame]

theorem Apart.behind {n n' : Node} (apart : Apart n n') : n'.behind = n.behind := by
  rw [apart.frame]

theorem refreshCap_apart {n n' : Node} {now : Nat} (h : n.refreshCap now = some n') :
    Apart n n' := by
  have frame := refreshCap_frame h
  rw [frame]
  exact ⟨rfl, rfl, id, .inl ⟨rfl, rfl⟩⟩

theorem introduce_apart {n n' : Node} {peer : PeerId} {addr : Address} (sound : n.Sound)
    (h : n.introduce peer addr = some n') : Apart n n' := by
  unfold introduce at h
  split at h
  · simp at h
  · rename_i stranger
    simp only [bind, Option.bind_eq_some_iff] at h
    obtain ⟨⟨applied, members⟩, told, h⟩ := h
    have outcome := MemberTable.apply_spec sound.members told
    split at h
    · have frame := refreshCap_frame h
      rw [frame]
      exact ⟨rfl, outcome.localId, id, .inr ⟨peer, addr, applied, stranger, outcome⟩⟩
    · rw [← Option.some.inj h]
      exact ⟨rfl, outcome.localId, id, .inr ⟨peer, addr, applied, stranger, outcome⟩⟩

theorem step_apart {decay : Nat → Nat → ℚ} {n n' : Node} (sound : n.Sound) {op : Op}
    (unhandled : ∀ event now, op ≠ .handle event now) (h : n.step decay op = some n') :
    Apart n n' := by
  cases op with
  | handle event now => exact absurd rfl (unhandled event now)
  | introduce peer addr => exact introduce_apart sound h
  | addSeed seed addr =>
    simp only [step, addSeed] at h
    split at h
    · simp at h
    · split at h
      · exact refreshCap_apart h
      · rw [refreshCap_frame h]
        exact ⟨rfl, rfl, id, .inl ⟨rfl, rfl⟩⟩
  | removeSeed | expectPeers | setPartitionPolicy =>
    rw [refreshCap_frame h]
    exact ⟨rfl, rfl, id, .inl ⟨rfl, rfl⟩⟩
  | setQuorumMemory memory =>
    rw [← Option.some.inj h]
    exact ⟨rfl, rfl, id, .inl ⟨rfl, rfl⟩⟩
  | setMaxMembers max =>
    simp only [step, setMaxMembers, MemberTable.setMax, bind, Option.bind_eq_some_iff,
      Option.ite_none_right_eq_some, Option.some.injEq] at h
    obtain ⟨members, ⟨_, rfl⟩, rfl⟩ := h
    exact ⟨rfl, rfl, id, .inl ⟨rfl, rfl⟩⟩
  | record key tally limit now =>
    simp only [step, Node.record, bind, Option.bind_eq_some_iff, Option.some.injEq] at h
    obtain ⟨a, advanced, limiter, _, rfl⟩ := h
    obtain ⟨_, rfl⟩ := advance_some advanced
    exact ⟨rfl, rfl, id, .inl ⟨rfl, rfl⟩⟩
  | checkIn key limit now =>
    simp only [step, checkIn, bind, Option.bind_eq_some_iff, Option.map_eq_some_iff,
      Option.some.injEq] at h
    obtain ⟨_, ⟨a, advanced, ⟨decision, limiter⟩, _, rfl⟩, rfl⟩ := h
    obtain ⟨_, rfl⟩ := advance_some advanced
    exact ⟨rfl, rfl, id, .inl ⟨rfl, rfl⟩⟩
  | checkInTraced key limit shadow now =>
    simp only [step, checkInTraced, bind, Option.bind_eq_some_iff, Option.map_eq_some_iff,
      Option.some.injEq] at h
    obtain ⟨_, ⟨a, advanced, ⟨decisions, limiter⟩, _, rfl⟩, rfl⟩ := h
    obtain ⟨_, rfl⟩ := advance_some advanced
    exact ⟨rfl, rfl, id, .inl ⟨rfl, rfl⟩⟩
  | leave now =>
    simp only [step, leave, bind, Option.bind_eq_some_iff] at h
    obtain ⟨a, advanced, h⟩ := h
    obtain ⟨_, rfl⟩ := advance_some advanced
    split at h
    · rw [← Option.some.inj h]
      exact ⟨rfl, rfl, id, .inl ⟨rfl, rfl⟩⟩
    · simp only [Option.bind_eq_some_iff] at h
      obtain ⟨own, _, h⟩ := h
      rw [sendLeave_frame h]
      exact ⟨rfl, rfl, fun _ => rfl, .inl ⟨rfl, rfl⟩⟩
  | rehash keys =>
    simp only [step, rehash, Option.ite_none_right_eq_some, Option.some.injEq] at h
    obtain ⟨_, rfl⟩ := h
    exact ⟨rfl, rfl, id, .inl ⟨rfl, rfl⟩⟩

theorem step_localId {decay : Nat → Nat → ℚ} {n n' : Node} (sound : n.Sound) {op : Op}
    (h : n.step decay op = some n') : n'.members.localId = n.members.localId := by
  by_cases handles : ∃ event now, op = .handle event now
  · obtain ⟨event, now, rfl⟩ := handles
    exact (handle_sameSelf sound h).localId
  · exact (step_apart sound (fun event now is => handles ⟨event, now, is⟩) h).localId

end Node
end Rateguard
