import Rateguard.Departed

/- A departed peer stays departed through any run of outdated news, and its leave is only
   counted once; a node that has left emits nothing more. -/
namespace Rateguard
open Std (ExtTreeMap ExtTreeSet)

/- Whether what a handled message says of the peer is no newer than this incarnation. -/
def Op.OutdatedOf (peer : PeerId) (incarnation : UInt32) : Op → Prop
  | .handle (.messageReceived _ bytes) _ => ∀ message, decode bytes = .ok message →
      ∀ update ∈ message.updates, update.member = peer → update.incarnation ≤ incarnation
  | _ => True

section
variable (decay : Nat → Nat → ℚ)

/- Any operation, and one that is allowed and after which the record of the peer is kept. -/
def AnyStep (n n' : Node) : Prop := ∃ op, n.step decay op = some n'

def KeptStep (peer : PeerId) (allowed : Op → Prop) (n n' : Node) : Prop :=
  ∃ op, allowed op ∧ n.step decay op = some n' ∧ n'.members.members[peer]?.isSome

end

theorem Reachable.later {decay : Nat → Nat → ℚ} {n n' : Node} (reached : Reachable decay n)
    (run : Relation.ReflTransGen (AnyStep decay) n n') : Reachable decay n' := by
  induction run with
  | refl => exact reached
  | tail _ step ih =>
    obtain ⟨op, step⟩ := step
    exact ih.step _ op _ step

theorem KeptStep.any {decay : Nat → Nat → ℚ} {peer : PeerId} {allowed : Op → Prop} {n n' : Node}
    (step : KeptStep decay peer allowed n n') : AnyStep decay n n' := by
  obtain ⟨op, _, step, _⟩ := step
  exact ⟨op, step⟩

namespace MemberTable.Outcome
variable {t t' : MemberTable} {update : Update} {now : Nat} {applied : Applied}

theorem others (h : t.Outcome update now applied t') {other : PeerId}
    (distinct : other ≠ update.member) : t'.members[other]? = t.members[other]? := by
  cases h with
  | taken => rw [ExtTreeMap.getElem?_insert, if_neg (by simpa using Ne.symm distinct)]
  | _ => rfl

/- News that does not outrank the record changes nothing. -/
theorem outranked (wf : t.WellFormed) (h : t.Outcome update now applied t') {member : Member}
    (known : t.members[update.member]? = some member)
    (older : update.rank ≤ (member.update update.member).rank) : applied = .ignored ∧ t' = t := by
  cases h with
  | stale => exact ⟨rfl, rfl⟩
  | echoed same | answered same | outbid same => exact absurd same (wf.ne_local known)
  | refused _ absent => simp [known] at absent
  | taken live changes _ newer =>
    have := newer member known
    omega

/- The record of a member that stays one never goes back to an older incarnation. -/
theorem incarnation (h : t.Outcome update now applied t') {member : Member}
    (known : t.members[update.member]? = some member) :
    ∃ member', t'.members[update.member]? = some member' ∧
      member.incarnation ≤ member'.incarnation := by
  cases h with
  | taken live changes _ newer =>
    refine ⟨_, ExtTreeMap.getElem?_insert_self, ?_⟩
    have rank := newer member known
    have upper := update.status.rank_lt
    simp only [Update.rank, Member.update] at rank
    rw [UInt32.le_iff_toNat_le]
    simp only [record]
    omega
  | _ => exact ⟨member, known, UInt32.le_refl _⟩

/- News of a member that is one afterwards is no newer than its record then. -/
theorem told (h : t.Outcome update now applied t') (distinct : update.member ≠ t.localId)
    {member : Member} (known : t'.members[update.member]? = some member) :
    update.incarnation ≤ member.incarnation := by
  cases h with
  | echoed same | answered same | outbid same => exact absurd same distinct
  | refused _ absent => simp [absent] at known
  | stale current _ found older =>
    rw [found, Option.some.injEq] at known
    subst known
    have upper := current.status.rank_lt
    simp only [Update.rank, Member.update] at older
    rw [UInt32.le_iff_toNat_le]
    omega
  | taken =>
    rw [ExtTreeMap.getElem?_insert_self, Option.some.injEq] at known
    subst known
    exact UInt32.le_refl _

theorem ownIncarnation (h : t.Outcome update now applied t')
    (distinct : update.member ≠ t.localId) : t'.incarnation = t.incarnation := by
  cases h with
  | outbid same => exact absurd same distinct
  | _ => rfl

end MemberTable.Outcome

/- No news up to the incarnation of a dead record outranks it. -/
theorem Member.outranks {member : Member} {update : Update} {peer : PeerId}
    (dead : member.status = .dead) (older : update.incarnation ≤ member.incarnation) :
    update.rank ≤ (member.update peer).rank := by
  have upper := update.status.rank_lt
  rw [UInt32.le_iff_toNat_le] at older
  have last : Status.dead.rank = 2 := rfl
  simp only [Update.rank, Member.update, dead]
  omega

namespace Node

section
variable {decay : Nat → Nat → ℚ} {n n' : Node} {peer : PeerId} {member : Member}

theorem message_keeps {sender : PeerId} {bytes : List UInt8} {now : Nat} (sound : n.Sound)
    (known : n.members.members[peer]? = some member) (dead : member.status = .dead)
    (departed : member.departed = true)
    (outdated : Op.OutdatedOf peer member.incarnation (.handle (.messageReceived sender bytes) now))
    (h : n.handle decay (.messageReceived sender bytes) now = some n') :
    n'.members.members[peer]? = some member := by
  refine handle_table (P := fun t => t.members[peer]? = some member) ?_ ?_ ?_ sound known h
  · intro tick
    simp at tick
  · rintro _ _ message same decoded t t' update applied mem held wf outcome
    obtain ⟨rfl, rfl⟩ := Event.messageReceived.inj same
    by_cases its : update.member = peer
    · subst its
      have older := outdated message decoded update mem rfl
      rw [(outcome.outranked wf held (Member.outranks dead older)).2]
      exact held
    · rw [outcome.others (Ne.symm its)]
      exact held
  · intro other _ _ _ _ t held
    rw [MemberTable.depart_members, held, Option.map_some]
    cases member
    dsimp only at departed
    subst departed
    split <;> rfl

theorem tick_keeps {now : Nat} (sound : n.Sound)
    (known : n.members.members[peer]? = some member) (dead : member.status = .dead)
    (h : n.handle decay .tick now = some n') :
    n'.members.members[peer]? = some member ∨ n'.members.members[peer]? = none := by
  refine handle_table
    (P := fun t => t.members[peer]? = some member ∨ t.members[peer]? = none) ?_ ?_ ?_ sound
    (.inl known) h
  · intro _
    constructor
    · intro t t' update _ _ accused live isLive _ held _ outcome
      have other : peer ≠ update.member := by
        rintro rfl
        have gone : accused = member := by
          rcases live with before | here
          · rw [known] at before
            exact (Option.some.inj before).symm
          · rcases held with same | none
            · rw [here] at same
              exact Option.some.inj same
            · rw [here] at none
              simp at none
        rw [gone] at isLive
        simp [Member.isLive, dead] at isLive
      rw [outcome.others other]
      exact held
    · intro t now ttl held
      rw [MemberTable.forgetDead_members]
      rcases held with same | none
      · rw [same, Option.filter_some]
        split
        · exact .inl rfl
        · exact .inr rfl
      · rw [none]
        exact .inr rfl
    · exact fun _ held => held
  · intro _ _ _ event
    simp at event
  · intro _ _ _ event
    simp at event

theorem step_keeps (sound : n.Sound) (released : n.Released)
    (known : n.members.members[peer]? = some member) (departed : member.departed = true)
    (step : KeptStep decay peer (·.OutdatedOf peer member.incarnation) n n') :
    n'.members.members[peer]? = some member := by
  obtain ⟨op, outdated, h, kept⟩ := step
  have dead := (released.departed peer member known departed).dead
  by_cases handles : ∃ event now, op = .handle event now
  · obtain ⟨event, now, rfl⟩ := handles
    have handled : n.handle decay event now = some n' := h
    cases event with
    | messageReceived sender bytes => exact message_keeps sound known dead departed outdated handled
    | tick =>
      rcases tick_keeps sound known dead handled with same | none
      · exact same
      · rw [none] at kept
        simp at kept
  · have apart := step_apart sound (fun event now is => handles ⟨event, now, is⟩) h
    rcases apart.told with ⟨same, _⟩ | ⟨other, addr, applied, _, outcome⟩
    · rw [same]
      exact known
    · by_cases its : other = peer
      · subst its
        have older : (0 : UInt32) ≤ member.incarnation := UInt32.zero_le
        rw [(outcome.outranked sound.members known (Member.outranks dead older)).2]
        exact known
      · rw [outcome.others (Ne.symm its)]
        exact known

theorem run_keeps (reached : Reachable decay n)
    (known : n.members.members[peer]? = some member) (departed : member.departed = true)
    (run : Relation.ReflTransGen (KeptStep decay peer (·.OutdatedOf peer member.incarnation)) n n') :
    Reachable decay n' ∧ n'.members.members[peer]? = some member := by
  induction run with
  | refl => exact ⟨reached, known⟩
  | tail _ step ih =>
    obtain ⟨reachedU, same⟩ := ih
    refine ⟨reachedU.later (.single step.any), ?_⟩
    exact step_keeps reachedU.sound reachedU.released same departed step

/- The incarnation a record is held at never falls while it is kept. -/
theorem step_incarnation (sound : n.Sound) (known : n.members.members[peer]? = some member)
    (step : KeptStep decay peer (fun _ => True) n n') :
    ∃ member', n'.members.members[peer]? = some member' ∧
      member.incarnation ≤ member'.incarnation := by
  obtain ⟨op, _, h, kept⟩ := step
  obtain ⟨last, found⟩ := Option.isSome_iff_exists.mp kept
  by_cases handles : ∃ event now, op = .handle event now
  · obtain ⟨event, now, rfl⟩ := handles
    have handled : n.handle decay event now = some n' := h
    cases event with
    | messageReceived sender bytes =>
      refine handle_table (P := fun t => ∃ member', t.members[peer]? = some member' ∧
        member.incarnation ≤ member'.incarnation) ?_ ?_ ?_ sound ⟨member, known, UInt32.le_refl _⟩
        handled
      · intro tick
        simp at tick
      · rintro _ _ _ _ _ t t' update _ _ ⟨before, held, lower⟩ _ outcome
        by_cases its : update.member = peer
        · subst its
          obtain ⟨after, found, higher⟩ := outcome.incarnation held
          exact ⟨after, found, UInt32.le_trans lower higher⟩
        · rw [outcome.others (Ne.symm its)]
          exact ⟨before, held, lower⟩
      · rintro other _ _ _ _ t ⟨before, held, lower⟩
        refine ⟨_, by rw [MemberTable.depart_members, held, Option.map_some], ?_⟩
        split <;> exact lower
    | tick =>
      refine ⟨last, found, ?_⟩
      refine handle_table (P := fun t => ∀ member', t.members[peer]? = some member' →
        member.incarnation ≤ member'.incarnation) ?_ ?_ ?_ sound ?_ handled last found
      · intro _
        constructor
        · intro t t' update _ _ accused live _ its lower _ outcome after found
          by_cases same : update.member = peer
          · subst same
            rcases live with before | here
            · rw [known] at before
              obtain rfl := Option.some.inj before
              cases outcome with
              | taken =>
                rw [ExtTreeMap.getElem?_insert_self] at found
                rw [← Option.some.inj found, ← its]
                exact UInt32.le_refl _
              | _ => exact lower after found
            · obtain ⟨later, there, higher⟩ := outcome.incarnation here
              rw [there] at found
              obtain rfl := Option.some.inj found
              exact UInt32.le_trans (lower accused here) higher
          · rw [outcome.others (Ne.symm same)] at found
            exact lower after found
        · intro t now ttl lower after found
          rw [MemberTable.forgetDead_members, Option.filter_eq_some_iff] at found
          exact lower after found.1
        · exact fun _ lower => lower
      · intro _ _ _ event
        simp at event
      · intro _ _ _ event
        simp at event
      · intro same held
        rw [known] at held
        rw [← Option.some.inj held]
        exact UInt32.le_refl _
  · have apart := step_apart sound (fun event now is => handles ⟨event, now, is⟩) h
    rcases apart.told with ⟨same, _⟩ | ⟨other, addr, applied, _, outcome⟩
    · rw [same]
      exact ⟨member, known, UInt32.le_refl _⟩
    · by_cases its : other = peer
      · subst its
        exact outcome.incarnation known
      · rw [outcome.others (Ne.symm its)]
        exact ⟨member, known, UInt32.le_refl _⟩

theorem run_incarnation (reached : Reachable decay n)
    (known : n.members.members[peer]? = some member)
    (run : Relation.ReflTransGen (KeptStep decay peer fun _ => True) n n') :
    ∃ member', n'.members.members[peer]? = some member' ∧
      member.incarnation ≤ member'.incarnation := by
  have both : Reachable decay n' ∧ ∃ member', n'.members.members[peer]? = some member' ∧
      member.incarnation ≤ member'.incarnation := by
    induction run with
    | refl => exact ⟨reached, member, known, UInt32.le_refl _⟩
    | tail _ step ih =>
      obtain ⟨reachedU, before, held, lower⟩ := ih
      obtain ⟨after, found, higher⟩ := step_incarnation reachedU.sound held step
      exact ⟨reachedU.later (.single step.any), after, found, UInt32.le_trans lower higher⟩
  exact both.2

/- A leave the node does not take in moves only the clock. -/
theorem handle_noLeave {bytes : List UInt8} {updates : List Update} {now : Nat}
    (decoded : decode bytes = .ok (.leave updates)) (later : n.lastNow ≤ now)
    (none : n.leaveOf (.messageReceived peer bytes) = none) :
    n.handle decay (.messageReceived peer bytes) now =
      some { n with lastNow := now, actions := [] } := by
  simp only [leaveOf] at none
  simp only [handle, advance, later, ↓reduceIte, bind, Option.bind_some, receive]
  split at none
  · rename_i silent
    rw [Bool.or_eq_true, decide_eq_true_eq] at silent
    by_cases left : n.left = true
    · rw [if_pos left]
    · rw [if_neg left, if_pos (silent.resolve_left left)]
  · rename_i open'
    rw [Bool.or_eq_true, decide_eq_true_eq, not_or] at open'
    rw [if_neg open'.1, if_neg open'.2, decoded]
    dsimp only
    have improper : wellFormedLeave peer (.leave updates) = false := by
      unfold wellFormedLeave
      cases updates with
      | nil => rfl
      | cons own rest =>
        cases rest with
        | cons => rfl
        | nil =>
          rw [decoded] at none
          dsimp only at none ⊢
          split at none
          · simp at none
          · rename_i other
            exact Bool.eq_false_iff.mpr other
    rw [improper, if_neg Bool.false_ne_true]

/- A leave of a departed peer, no newer than its record, moves only the clock. -/
theorem leave_again (sound : n.Sound) (released : n.Released)
    (known : n.members.members[peer]? = some member) (departed : member.departed = true)
    {bytes : List UInt8} {updates : List Update} (decoded : decode bytes = .ok (.leave updates))
    (older : ∀ update ∈ updates, update.incarnation ≤ member.incarnation) {now : Nat}
    (later : n.lastNow ≤ now) :
    n.handle decay (.messageReceived peer bytes) now =
      some { n with lastNow := now, actions := [] } := by
  cases brings : n.leaveOf (.messageReceived peer bytes) with
  | none => exact handle_noLeave decoded later brings
  | some own =>
    obtain ⟨_, same, _, _, decoded', _⟩ := leaveOf_some brings
    obtain ⟨rfl, rfl⟩ := Event.messageReceived.inj same
    obtain ⟨rfl⟩ : updates = [own] := by
      rw [decoded] at decoded'
      simpa using decoded'
    have holds := released.departed _ member known departed
    have level : n.behind.erase own.member = n.behind := by
      refine ExtTreeSet.ext_mem fun other => ?_
      rw [ExtTreeSet.mem_erase]
      refine ⟨fun mem => mem.2, fun mem => ⟨?_, mem⟩⟩
      intro same
      rw [Std.LawfulEqCmp.compare_eq_iff_eq] at same
      exact holds.level (same ▸ mem)
    have opened : n.openedLeave own.member now = { n with lastNow := now, actions := [] } := by
      rw [openedLeave, level]
    rw [handle_leave later brings, opened]
    have outranked : own.rank ≤ (member.update own.member).rank :=
      Member.outranks holds.dead (older own List.mem_cons_self)
    obtain ⟨applied, t', told⟩ := MemberTable.apply_known sound.members own now (by rw [known]; rfl)
    obtain ⟨rfl, rfl⟩ := (MemberTable.apply_spec sound.members told).outranked sound.members known
      outranked
    have learned : ({ n with lastNow := now, actions := [] } : Node).learn own now =
        some { n with lastNow := now, actions := [] } := by
      simp only [learn, told, bind, Option.bind_some]
    rw [learned, Option.map_some, depart_unmarked]
    rw [MemberTable.depart_marks, known]
    simp [departed]

theorem handle_left {event : Event} {now : Nat} (left : n.left = true)
    (h : n.handle decay event now = some n') :
    n' = { n with lastNow := now, actions := [] } := by
  simp only [handle, bind, Option.bind_eq_some_iff] at h
  obtain ⟨a, advanced, h⟩ := h
  obtain ⟨_, rfl⟩ := advance_some advanced
  rw [if_pos left] at h
  exact (Option.some.inj h).symm

theorem leave_left {now : Nat} (left : n.left = true) (h : n.leave now = some n') :
    n' = { n with lastNow := now, actions := [] } := by
  simp only [leave, bind, Option.bind_eq_some_iff] at h
  obtain ⟨a, advanced, h⟩ := h
  obtain ⟨_, rfl⟩ := advance_some advanced
  rw [if_pos left] at h
  exact (Option.some.inj h).symm

theorem step_left (sound : n.Sound) (left : n.left = true) (step : AnyStep decay n n') :
    n'.left = true ∧ n'.members.incarnation = n.members.incarnation := by
  obtain ⟨op, h⟩ := step
  by_cases handles : ∃ event now, op = .handle event now
  · obtain ⟨event, now, rfl⟩ := handles
    rw [handle_left left h]
    exact ⟨left, rfl⟩
  · have apart := step_apart sound (fun event now is => handles ⟨event, now, is⟩) h
    refine ⟨apart.left left, ?_⟩
    rcases apart.told with ⟨_, same⟩ | ⟨other, addr, applied, stranger, outcome⟩
    · exact same
    · exact outcome.ownIncarnation stranger

theorem run_left (reached : Reachable decay n) (left : n.left = true)
    (run : Relation.ReflTransGen (AnyStep decay) n n') :
    n'.left = true ∧ n'.members.incarnation = n.members.incarnation := by
  induction run with
  | refl => exact ⟨left, rfl⟩
  | tail before step ih =>
    have sound := (reached.later before).sound
    obtain ⟨gone, same⟩ := step_left sound ih.1 step
    exact ⟨gone, same.trans ih.2⟩

theorem leave_leaves {now : Nat} (h : n.leave now = some n') :
    n'.left = true ∧ n'.members.incarnation = n.members.incarnation := by
  simp only [leave, bind, Option.bind_eq_some_iff] at h
  obtain ⟨a, advanced, h⟩ := h
  obtain ⟨_, rfl⟩ := advance_some advanced
  split at h
  · rename_i left
    exact (Option.some.inj h) ▸ ⟨left, rfl⟩
  · simp only [Option.bind_eq_some_iff] at h
    obtain ⟨own, _, h⟩ := h
    rw [sendLeave_frame h]
    exact ⟨rfl, rfl⟩

theorem run_localId (reached : Reachable decay n)
    (run : Relation.ReflTransGen (AnyStep decay) n n') :
    n'.members.localId = n.members.localId := by
  induction run with
  | refl => rfl
  | tail before step ih =>
    have sound := (reached.later before).sound
    obtain ⟨op, h⟩ := step
    rw [← ih]
    exact step_localId sound h

/- The leave a node takes in is no newer than the record it leaves. -/
theorem handle_leave_told {bytes : List UInt8} {own : Update} {now : Nat} (sound : n.Sound)
    (brings : n.leaveOf (.messageReceived peer bytes) = some own)
    (h : n.handle decay (.messageReceived peer bytes) now = some n')
    (known : n'.members.members[peer]? = some member) : own.incarnation ≤ member.incarnation := by
  obtain ⟨_, same, _, stranger, _, _⟩ := leaveOf_some brings
  obtain ⟨rfl, rfl⟩ := Event.messageReceived.inj same
  have later : n.lastNow ≤ now := by
    simp only [handle, bind, Option.bind_eq_some_iff] at h
    obtain ⟨a, advanced, _⟩ := h
    exact (advance_some advanced).1
  rw [handle_leave later brings, Option.map_eq_some_iff] at h
  obtain ⟨u, learned, rfl⟩ := h
  obtain ⟨applied, told⟩ := learn_members learned
  have outcome : n.members.Outcome own now applied u.members :=
    MemberTable.apply_spec sound.members told
  have members : (u.depart own.member).members = (u.members.depart own.member).2 := by
    rw [depart_frame u own.member]
  rw [members, MemberTable.depart_members, Option.map_eq_some_iff] at known
  obtain ⟨before, found, rfl⟩ := known
  have upper := outcome.told stranger found
  split <;> exact upper

end

end Node

section
variable (decay : Nat → Nat → ℚ)

/-- What holds of a peer whose record is marked departed, there and later: nothing of it is
    stored and it is not live, through every run of outdated news that keeps the record; and a
    leave no newer than the record moves only the clock. -/
structure StaysDeparted (n : Node) (peer : PeerId) (member : Member) : Prop where
  silent : n.peerDemand.peers[peer]? = none
  gone : n.isLive peer = false ∧ peer ∉ n.members.live
  kept : ∀ n', Relation.ReflTransGen
      (KeptStep decay peer (·.OutdatedOf peer member.incarnation)) n n' →
    n'.members.members[peer]? = some member ∧ n'.isLive peer = false ∧
      n'.peerDemand.peers[peer]? = none
  again : ∀ bytes updates now, decode bytes = .ok (.leave updates) →
    (∀ update ∈ updates, update.incarnation ≤ member.incarnation) → n.lastNow ≤ now →
    n.handle decay (.messageReceived peer bytes) now =
      some { n with lastNow := now, actions := [] }

/-- A leave handled twice, the second time while the record it left is still kept and marked. -/
def CountedOnce (n : Node) : Prop :=
  ∀ peer bytes updates now n₁, decode bytes = .ok (.leave updates) →
    n.handle decay (.messageReceived peer bytes) now = some n₁ →
    n₁.members.members[peer]?.isSome →
    ∀ n₂, Relation.ReflTransGen (KeptStep decay peer fun _ => True) n₁ n₂ →
      n₂.members.hasDeparted peer = true → ∀ later, n₂.lastNow ≤ later →
        n₂.handle decay (.messageReceived peer bytes) later =
          some { n₂ with lastNow := later, actions := [] }

/-- After its own leave a node neither emits anything nor changes its incarnation. -/
def SilentAfterLeave (n : Node) : Prop :=
  ∀ now n₁, n.leave now = some n₁ → ∀ n₂, Relation.ReflTransGen (AnyStep decay) n₁ n₂ →
    n₂.members.incarnation = n.members.incarnation ∧
      (∀ event later n₃, n₂.handle decay event later = some n₃ → n₃.actions = []) ∧
      ∀ later n₃, n₂.leave later = some n₃ → n₃.actions = []

end

theorem Node.HoldsNone.not_live {n : Node} {peer : PeerId} {member : Member} (sound : n.Sound)
    (holds : n.HoldsNone peer member) (known : n.members.members[peer]? = some member) :
    n.isLive peer = false ∧ peer ∉ n.members.live := by
  have distinct := sound.members.ne_local known
  constructor
  · simp [Node.isLive, MemberTable.status, distinct, known, holds.dead]
  · rw [sound.members.mem_live, known]
    simp [Member.isLive, holds.dead]

theorem Reachable.staysDeparted {decay : Nat → Nat → ℚ} {n : Node} (reached : Reachable decay n)
    {peer : PeerId} {member : Member} (known : n.members.members[peer]? = some member)
    (departed : member.departed = true) : StaysDeparted decay n peer member := by
  have holds := reached.released.departed peer member known departed
  refine ⟨holds.silent, holds.not_live reached.sound known, fun n' run => ?_, ?_⟩
  · obtain ⟨reached', same⟩ := Node.run_keeps reached known departed run
    have holds' := reached'.released.departed peer member same departed
    exact ⟨same, (holds'.not_live reached'.sound same).1, holds'.silent⟩
  · intro bytes updates now decoded older later
    exact Node.leave_again reached.sound reached.released known departed decoded older later

theorem Reachable.countedOnce {decay : Nat → Nat → ℚ} {n : Node} (reached : Reachable decay n) :
    CountedOnce decay n := by
  intro peer bytes updates now n₁ decoded first kept n₂ run departed later due
  have any : Relation.ReflTransGen (AnyStep decay) n₁ n₂ :=
    Relation.ReflTransGen.mono (fun _ _ step => step.any) _ _ run
  have reached₁ := reached.step n (.handle (.messageReceived peer bytes) now) n₁ first
  have reached₂ := reached₁.later any
  cases brings : n₂.leaveOf (.messageReceived peer bytes) with
  | none => exact Node.handle_noLeave decoded due brings
  | some own =>
    obtain ⟨_, same, present, stranger, decoded', dead⟩ := Node.leaveOf_some brings
    obtain ⟨rfl, rfl⟩ := Event.messageReceived.inj same
    obtain ⟨rfl⟩ : updates = [own] := by
      rw [decoded] at decoded'
      simpa using decoded'
    -- the node that takes it in again took it in before
    have here : n.left = false := by
      by_contra left
      have left : n.left = true := by simpa using left
      have gone := Node.handle_left left first
      have still := (Node.run_left reached₁ (by rw [gone]; exact left) any).1
      rw [still] at present
      simp at present
    have other : own.member ≠ n.members.localId := by
      rw [Node.run_localId reached₁ any,
        (Node.handle_sameSelf reached.sound first).localId] at stranger
      exact stranger
    have before : n.leaveOf (.messageReceived own.member bytes) = some own := by
      simp [Node.leaveOf, here, other, decoded, dead]
    obtain ⟨member₁, known₁⟩ := Option.isSome_iff_exists.mp kept
    obtain ⟨member₂, known₂, higher⟩ := Node.run_incarnation reached₁ known₁ run
    have upper := Node.handle_leave_told reached.sound before first known₁
    have marked : member₂.departed = true := by
      simpa [MemberTable.hasDeparted, known₂] using departed
    refine (reached₂.staysDeparted known₂ marked).again bytes [own] later decoded ?_ due
    intro update mem
    rw [List.mem_singleton.mp mem]
    exact UInt32.le_trans upper higher

theorem Reachable.silentAfterLeave {decay : Nat → Nat → ℚ} {n : Node}
    (reached : Reachable decay n) : SilentAfterLeave decay n := by
  intro now n₁ left n₂ run
  obtain ⟨gone, same⟩ := Node.leave_leaves left
  obtain ⟨gone₂, same₂⟩ := Node.run_left (reached.step n (.leave now) n₁ left) gone run
  refine ⟨same₂.trans same, ?_, ?_⟩
  · intro event later n₃ handled
    rw [Node.handle_left gone₂ handled]
  · intro later n₃ again
    rw [Node.leave_left gone₂ again]

/-- In every reachable state, every peer marked departed stays so through outdated news and
    leaves nothing in the store, its leave counts once, and after its own leave the node is
    silent. -/
theorem departed_stays_departed (decay : Nat → Nat → ℚ) (n : Node)
    (reached : Reachable decay n) :
    (∀ (peer : PeerId) (member : Member), n.members.members[peer]? = some member →
      member.departed = true → StaysDeparted decay n peer member) ∧
    CountedOnce decay n ∧ SilentAfterLeave decay n :=
  ⟨fun _ _ known departed => reached.staysDeparted known departed, reached.countedOnce,
    reached.silentAfterLeave⟩

/- A peer that has left. -/
def departedRun : Option Node := do
  let start ← Node.sample 0 0
  start.run sampleDecay [.introduce 1 (sampleAddress 1), .handle .tick 0,
    sampleOp 1 (.leave [⟨1, sampleAddress 1, 0, .dead⟩]) (ms 60)]

theorem departedRun_marks : (departedRun.any fun n => decide (n.members.members[(1 : PeerId)]? =
    some ⟨sampleAddress 1, 0, .dead, ms 60, 0, true⟩)) = true := by
  decide +kernel

theorem departed_stays_departed_left : ∃ n, departedRun = some n ∧
    StaysDeparted sampleDecay n 1 ⟨sampleAddress 1, 0, .dead, ms 60, 0, true⟩ := by
  obtain ⟨n, ran, known⟩ := (Option.any_eq_true _ _).mp departedRun_marks
  have same := ran
  simp only [departedRun, bind, Option.bind_eq_some_iff] at ran
  obtain ⟨start, fresh, ran⟩ := ran
  refine ⟨n, same, (departed_stays_departed sampleDecay n (Reachable.sample fresh ran)).1 1 _ ?_ rfl⟩
  exact of_decide_eq_true known

end Rateguard
