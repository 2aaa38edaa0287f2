import Rateguard.Leaves

/- A leave from an earlier life of a peer, delayed or replayed: what it changes. -/
namespace Rateguard

/- What an inert event leaves as it was. -/
structure Node.Inert (n n' : Node) : Prop where
  members : n'.members = n.members
  peerDemand : n'.peerDemand = n.peerDemand
  sizes : n'.sizes = n.sizes
  quorumSize : n'.quorumSize = n.quorumSize
  lastHeard : n'.lastHeard = n.lastHeard
  gossip : n'.gossip = n.gossip

theorem MemberTable.apply_outdated {t : MemberTable} (wf : t.WellFormed) {update : Update}
    {member : Member} (known : t.members[update.member]? = some member)
    (older : update.incarnation < member.incarnation) (now : Nat) :
    t.apply update now = some (.ignored, t) := by
  obtain ⟨applied, t', told⟩ := apply_known wf update now (by rw [known]; rfl)
  have outdated : update.rank < (member.update update.member).rank := by
    have upper := update.status.rank_lt
    rw [UInt32.lt_iff_toNat_lt] at older
    simp only [Update.rank, Member.update]
    omega
  cases apply_spec wf told with
  | stale => exact told
  | echoed same | answered same | outbid same => exact absurd same (wf.ne_local known)
  | refused _ absent => simp [known] at absent
  | taken live changes _ newer =>
    have := newer member known
    omega

namespace Node

theorem learn_outdated {n : Node} (wf : n.members.WellFormed) {update : Update} {member : Member}
    (known : n.members.members[update.member]? = some member)
    (older : update.incarnation < member.incarnation) (now : Nat) :
    n.learn update now = some n := by
  simp only [learn, MemberTable.apply_outdated wf known older now, bind, Option.bind_some]

theorem depart_unmarked {n : Node} {peer : PeerId} (unmarked : (n.members.depart peer).1 = false) :
    n.depart peer = n := by
  unfold depart
  simp only [unmarked, Bool.not_false, ↓reduceIte]

theorem depart_marked {n : Node} {peer : PeerId} (marked : (n.members.depart peer).1 = true) :
    (n.depart peer).members.members[peer]?.any (·.departed) = true := by
  have frame := depart_frame n peer
  rw [frame]
  dsimp only
  rw [MemberTable.depart_members]
  rw [MemberTable.depart_marks] at marked
  cases found : n.members.members[peer]? with
  | none => simp [found] at marked
  | some member =>
    simp only [found, Option.any_some, Bool.and_eq_true, decide_eq_true_eq] at marked
    simp [marked.1]

end Node

/-- A leave older than the record held of its sender is inert unless the sender is held dead
    and not departed: then it departs, whatever the incarnation it died in. -/
theorem outdated_leave_inert_iff (decay : Nat → Nat → ℚ) (n : Node) (reached : Reachable decay n)
    (peer : PeerId) (member : Member) (known : n.members.members[peer]? = some member)
    (own : Update) (bytes : List UInt8) (decoded : decode bytes = .ok (.leave [own]))
    (its : own.member = peer) (dead : own.status = .dead)
    (older : own.incarnation < member.incarnation) (now : Nat) (later : n.lastNow ≤ now) :
    ∃ n', n.handle decay (.messageReceived peer bytes) now = some n' ∧
      (n.Inert n' ↔ n.left = true ∨ member.status ≠ .dead ∨ member.departed = true) := by
  subst its
  have wf := reached.sound.members
  have stranger := wf.ne_local known
  by_cases left : n.left = true
  · refine ⟨{ n with lastNow := now, actions := [] }, ?_, ?_⟩
    · simp [Node.handle, Node.advance, later, left]
    · exact ⟨fun _ => Or.inl left, fun _ => ⟨rfl, rfl, rfl, rfl, rfl, rfl⟩⟩
  have brings : n.leaveOf (.messageReceived own.member bytes) = some own := by
    simp [Node.leaveOf, left, stranger, decoded, dead]
  have learned : (n.openedLeave own.member now).learn own now = some (n.openedLeave own.member now) :=
    Node.learn_outdated (n := n.openedLeave own.member now) wf known older now
  refine ⟨(n.openedLeave own.member now).depart own.member, ?_, ?_⟩
  · rw [Node.handle_leave later brings, learned, Option.map_some]
  · have marks := n.members.depart_marks own.member
    rw [known, Option.any_some] at marks
    by_cases held : member.status = .dead ∧ member.departed = false
    · -- The mark is set, so the table is not the one it was.
      have mark : (n.members.depart own.member).1 = true := by simp [marks, held.1, held.2]
      have marked := Node.depart_marked (n := n.openedLeave own.member now) mark
      refine ⟨fun inert => ?_, fun exempt => ?_⟩
      · have same : ((n.openedLeave own.member now).depart own.member).members = n.members :=
          inert.members
        rw [same, known] at marked
        simp [held.2] at marked
      · rcases exempt with gone | alive | departed
        · exact absurd gone left
        · exact absurd held.1 alive
        · simp [held.2] at departed
    · have unmarked : (n.members.depart own.member).1 = false := by
        rw [marks]
        by_cases gone : member.status = .dead
        · have departed : member.departed = true := by
            cases mark : member.departed
            · exact absurd ⟨gone, mark⟩ held
            · rfl
          simp [departed]
        · simp [gone]
      rw [Node.depart_unmarked (n := n.openedLeave own.member now) unmarked]
      refine ⟨fun _ => Or.inr ?_, fun _ => ⟨rfl, rfl, rfl, rfl, rfl, rfl⟩⟩
      by_cases gone : member.status = .dead
      · right
        cases mark : member.departed
        · exact absurd ⟨gone, mark⟩ held
        · rfl
      · exact Or.inl gone

/- A peer held dead at incarnation 1, and its leave of incarnation 0. -/
def deadAtOne : List Op :=
  [.introduce 1 (sampleAddress 1), .handle .tick 0,
   sampleOp 99 (.ack 0 [⟨1, sampleAddress 1, 1, .dead⟩] []) (ms 100)]

def earlierLife : Update := ⟨1, sampleAddress 1, 0, .dead⟩

def outdatedLeaveRun : Option (Node × Node) := do
  let start ← Node.sample 0 0
  let n ← start.run sampleDecay deadAtOne
  let n' ← n.handle sampleDecay
    (.messageReceived 1 (messageCodec.enc (.leave [earlierLife]))) (ms 110)
  some (n, n')

theorem outdatedLeaveRun_releases : (outdatedLeaveRun.any fun (n, n') =>
    decide (n.members.members[(1 : UInt64)]? = some ⟨sampleAddress 1, 1, .dead, ms 100, 0, false⟩) &&
      decide (n.lastNow ≤ ms 110) && decide (n'.quorumSize ≠ n.quorumSize)) = true := by
  decide +kernel

theorem outdated_leave_not_inert :
    ¬ ∀ (decay : Nat → Nat → ℚ) (n n' : Node) (peer : PeerId) (member : Member) (own : Update)
      (bytes : List UInt8) (now : Nat), Reachable decay n →
      n.members.members[peer]? = some member → decode bytes = .ok (.leave [own]) →
      own.member = peer → own.status = .dead → own.incarnation < member.incarnation →
      n.lastNow ≤ now → n.handle decay (.messageReceived peer bytes) now = some n' →
      n.Inert n' := by
  intro claim
  have checked := outdatedLeaveRun_releases
  obtain ⟨⟨n, n'⟩, ran, checked⟩ := (Option.any_eq_true _ _).mp checked
  simp only [Bool.and_eq_true, decide_eq_true_eq] at checked
  obtain ⟨⟨known, later⟩, changed⟩ := checked
  simp only [outdatedLeaveRun, bind, Option.bind_eq_some_iff, Option.some.injEq,
    Prod.mk.injEq] at ran
  obtain ⟨start, fresh, u, ran, v, handled, rfl, rfl⟩ := ran
  exact changed (claim sampleDecay u v 1 _ earlierLife _ (ms 110) (Reachable.sample fresh ran)
    known (by decide +kernel) rfl rfl (by decide) later handled).quorumSize

theorem outdated_leave_inert_iff_released :
    ∃ n n', Reachable sampleDecay n ∧
      n.handle sampleDecay
        (.messageReceived 1 (messageCodec.enc (.leave [earlierLife]))) (ms 110) = some n' ∧
      (n.Inert n' ↔ n.left = true ∨ Status.dead ≠ .dead ∨ false = true) := by
  obtain ⟨⟨n, n'⟩, ran, checked⟩ := (Option.any_eq_true _ _).mp outdatedLeaveRun_releases
  simp only [Bool.and_eq_true, decide_eq_true_eq] at checked
  obtain ⟨⟨known, later⟩, _⟩ := checked
  simp only [outdatedLeaveRun, bind, Option.bind_eq_some_iff, Option.some.injEq,
    Prod.mk.injEq] at ran
  obtain ⟨start, fresh, u, ran, v, handled, rfl, rfl⟩ := ran
  have reached := Reachable.sample fresh ran
  have decoded : decode (messageCodec.enc (.leave [earlierLife])) = .ok (.leave [earlierLife]) := by
    decide +kernel
  obtain ⟨w, handled', inert⟩ := outdated_leave_inert_iff sampleDecay u reached 1 _ known earlierLife
    _ decoded rfl rfl (by decide) (ms 110) later
  exact ⟨u, w, reached, handled', inert⟩

end Rateguard
