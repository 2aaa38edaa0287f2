import Rateguard.Sound

/- A peer's leave: what a node does with one, and when it accepts it. -/
namespace Rateguard
open Std (ExtTreeMap)

/- Whether a table told of the leave marks its sender as departed: the news is newer than the
   record, or the sender is dead already and has not departed. A stranger needs room. -/
def MemberTable.takesLeave (t : MemberTable) (own : Update) : Bool :=
  match t.members[own.member]? with
  | some held => (held.update own.member).rank < own.rank || held.status = .dead && !held.departed
  | none => t.known < t.max

theorem MemberTable.depart_marks (t : MemberTable) (peer : PeerId) :
    (t.depart peer).1 = t.members[peer]?.any fun member =>
      member.status = .dead && !member.departed := by
  unfold depart
  cases t.members[peer]? with
  | none => rfl
  | some member =>
    dsimp only [Option.any_some]
    split
    · rename_i marked
      exact marked.symm
    · rename_i kept
      exact (Bool.not_eq_true _ ▸ kept).symm

theorem MemberTable.depart_joinedAt (t : MemberTable) (peer other : PeerId) :
    (t.depart peer).2.joinedAt other = t.joinedAt other := by
  unfold joinedAt
  rw [depart_members]
  cases t.members[other]? with
  | none => rfl
  | some member =>
    simp only [Option.map_some]
    split <;> rfl

section
variable {t t' : MemberTable} {own : Update} {now : Nat} {applied : Applied}

/- The mark is what takesLeave says, whatever became of the news. -/
theorem MemberTable.Outcome.marks (h : t.Outcome own now applied t') (dead : own.status = .dead)
    (stranger : own.member ≠ t.localId) : (t'.depart own.member).1 = t.takesLeave own := by
  rw [depart_marks]
  unfold takesLeave
  cases h with
  | echoed same | answered same | outbid same => exact absurd same stranger
  | stale current _ found older =>
    rw [found]
    have notNewer : ¬ (current.update own.member).rank < own.rank := by omega
    simp [notNewer]
  | refused _ found full =>
    dsimp only
    rw [found]
    simp [full]
  | taken live changes _ newer room =>
    rw [ExtTreeMap.getElem?_insert_self]
    cases found : t.members[own.member]? with
    | none =>
      have := room found
      simp [record, dead, this]
    | some current =>
      have := newer current found
      simp [record, dead, this]

theorem MemberTable.Outcome.joinedAt (h : t.Outcome own now applied t') (dead : own.status = .dead)
    (stranger : own.member ≠ t.localId) (taken : t.takesLeave own = true) :
    t'.joinedAt own.member = some ((t.joinedAt own.member).getD now) := by
  unfold MemberTable.joinedAt
  cases h with
  | echoed same | answered same | outbid same => exact absurd same stranger
  | stale current _ found older =>
    rw [found]
    rfl
  | refused _ found full =>
    simp only [takesLeave, found, decide_eq_true_eq] at taken
    omega
  | taken live changes _ newer room =>
    rw [ExtTreeMap.getElem?_insert_self]
    cases t.members[own.member]? <;> simp [record, dead]

/-- Only the sender's record may change, and the mark leaves it dead. -/
theorem MemberTable.Outcome.departs (h : t.Outcome own now applied t') (dead : own.status = .dead)
    (stranger : own.member ≠ t.localId) (taken : t.takesLeave own = true) :
    (∀ other, other ≠ own.member →
      (t'.depart own.member).2.members[other]? = t.members[other]?) ∧
    ∃ member, (t'.depart own.member).2.members[own.member]? = some member ∧
      member.status = .dead ∧ member.departed = true := by
  have marks := h.marks dead stranger
  rw [taken, depart_marks] at marks
  constructor
  · intro other ne
    rw [depart_members]
    have same : t'.members[other]? = t.members[other]? := by
      cases h with
      | taken => rw [ExtTreeMap.getElem?_insert, if_neg (by simpa using Ne.symm ne)]
      | _ => rfl
    rw [same]
    simp [ne]
  · rw [depart_members]
    cases found : t'.members[own.member]? with
    | none => simp [found] at marks
    | some member =>
      simp only [found, Option.any_some, Bool.and_eq_true, decide_eq_true_eq] at marks
      exact ⟨_, rfl, by simp [marks.1], by simp [marks.1]⟩

end

namespace Node

def leaveOf (n : Node) : Event → Option Update
  | .tick => none
  | .messageReceived sender bytes =>
    if n.left || sender = n.members.localId then none
    else match decode bytes with
      | .ok (.leave [own]) => if own.member = sender && own.status = .dead then some own else none
      | _ => none

def acceptedLeave (n : Node) (event : Event) : Option PeerId :=
  ((n.leaveOf event).filter n.members.takesLeave).map (·.member)

def openedLeave (n : Node) (peer : PeerId) (now : Nat) : Node :=
  { n with lastNow := now, actions := [], behind := n.behind.erase peer }

theorem leaveOf_some {n : Node} {event : Event} {own : Update} (h : n.leaveOf event = some own) :
    ∃ bytes, event = .messageReceived own.member bytes ∧ n.left = false ∧
      own.member ≠ n.members.localId ∧ decode bytes = .ok (.leave [own]) ∧ own.status = .dead := by
  cases event with
  | tick => simp [leaveOf] at h
  | messageReceived sender bytes =>
    simp only [leaveOf] at h
    split at h
    · simp at h
    · rename_i present
      simp only [Bool.or_eq_true, decide_eq_true_eq, not_or, Bool.not_eq_true] at present
      split at h
      · rename_i said decoded
        simp only [Bool.and_eq_true, decide_eq_true_eq, Option.ite_none_right_eq_some,
          Option.some.injEq] at h
        obtain ⟨⟨rfl, dead⟩, rfl⟩ := h
        exact ⟨bytes, rfl, present.1, present.2, decoded, dead⟩
      · simp at h

theorem handle_leave {decay : Nat → Nat → ℚ} {n : Node} {event : Event} {own : Update} {now : Nat}
    (later : n.lastNow ≤ now) (h : n.leaveOf event = some own) :
    n.handle decay event now =
      ((n.openedLeave own.member now).learn own now).map (·.depart own.member) := by
  obtain ⟨bytes, rfl, present, stranger, decoded, dead⟩ := leaveOf_some h
  have proper : wellFormedLeave own.member (.leave [own]) = true := by
    simp [wellFormedLeave, dead]
  have silent (u : Node) : u.opensBehind own.member (.leave [own]) = false := by
    unfold opensBehind
    split
    · rename_i opening held head _
      simp only [Message.updates, List.head?_cons, Option.some.injEq] at head
      subst head
      simp [dead]
    · rfl
  simp only [handle, advance, later, ↓reduceIte, present, Bool.false_eq_true, receive, stranger,
    decoded, proper, receiveMessage, silent, Message.updates, learnAll, List.foldlM_cons,
    List.foldlM_nil, openedLeave, bind, Option.bind_some, Option.pure_def]
  cases learn _ own now <;> rfl

structure Departs (n : Node) (peer : PeerId) (now : Nat) (n' : Node) : Prop where
  distinct : peer ≠ n.members.localId
  localId : n'.members.localId = n.members.localId
  others : ∀ other, other ≠ peer → n'.members.members[other]? = n.members.members[other]?
  marked : ∃ member, n'.members.members[peer]? = some member ∧ member.status = .dead ∧
    member.departed = true
  sizes : n'.sizes = n.sizes.forgetOne ((n.members.joinedAt peer).getD now)
  quorumSize : n'.quorumSize = max (n.quorumSize - 1) n'.knownForQuorum
  swim : n'.swim = n.swim
  policy : n'.policy = n.policy
  quorumMemory : n'.quorumMemory = n.quorumMemory
  withoutQuorumSince : n'.withoutQuorumSince = n.withoutQuorumSince
  lastNow : n'.lastNow = now

theorem depart_effect {n : Node} {peer : PeerId} {since : Nat}
    (marked : (n.members.depart peer).1 = true) (joined : n.members.joinedAt peer = some since) :
    (n.depart peer).sizes = n.sizes.forgetOne since ∧
      (n.depart peer).quorumSize = max (n.quorumSize - 1) (n.depart peer).knownForQuorum := by
  unfold depart
  simp only [marked, Bool.not_true, Bool.false_eq_true, ↓reduceIte, MemberTable.depart_joinedAt,
    joined, true_and]
  rfl

theorem handle_departs {decay : Nat → Nat → ℚ} {n n' : Node} {event : Event} {peer : PeerId}
    {now : Nat} (sound : n.Sound) (later : n.lastNow ≤ now)
    (accepted : n.acceptedLeave event = some peer) (h : n.handle decay event now = some n') :
    Departs n peer now n' := by
  simp only [acceptedLeave, Option.map_eq_some_iff, Option.filter_eq_some_iff] at accepted
  obtain ⟨own, ⟨brings, taken⟩, rfl⟩ := accepted
  obtain ⟨bytes, _, _, stranger, _, dead⟩ := leaveOf_some brings
  rw [handle_leave later brings, Option.map_eq_some_iff] at h
  obtain ⟨u, learned, rfl⟩ := h
  obtain ⟨applied, told⟩ := learn_members learned
  have outcome : n.members.Outcome own now applied u.members :=
    MemberTable.apply_spec sound.members told
  obtain ⟨others, marked⟩ := outcome.departs dead stranger taken
  have mark := outcome.marks dead stranger
  rw [taken] at mark
  have frameU := learn_frame learned
  have frame := depart_frame u own.member
  have effect := depart_effect mark (outcome.joinedAt dead stranger taken)
  have sizes : u.sizes = n.sizes := by rw [frameU]; rfl
  have quorumSize : u.quorumSize = n.quorumSize := by rw [frameU]; rfl
  rw [sizes, quorumSize] at effect
  have members : (u.depart own.member).members = (u.members.depart own.member).2 := by rw [frame]
  refine ⟨stranger, ?_, ?_, ?_, effect.1, effect.2, ?_, ?_, ?_, ?_, ?_⟩
  · rw [members, (u.members.depart_frame own.member).1]
    exact outcome.localId
  · rw [members]
    exact others
  · rw [members]
    exact marked
  all_goals
    rw [frame, frameU]
    rfl

end Node
end Rateguard
