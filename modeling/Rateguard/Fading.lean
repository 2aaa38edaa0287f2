import Rateguard.DepartedStays
import Rateguard.UnfailingRuns

/- What time does to the records of a member table: it suspects the live and buries the suspected,
   and only newer news of a member takes that back. -/
namespace Rateguard
open Std (ExtTreeMap)

/- What the passing of time makes of a member's record. -/
inductive Member.Fades (now : Nat) (member : Member) : Member → Prop
  | kept : Fades now member member
  | accused (after : Member) : after.incarnation = member.incarnation → after.since = now →
      after.status = .suspect → member.status = .alive → Fades now member after
  | died (after : Member) : after.incarnation = member.incarnation → after.since = now →
      after.status = .dead → member.isLive → Fades now member after

theorem Member.Fades.trans {now : Nat} {member middle after : Member}
    (first : member.Fades now middle) (second : middle.Fades now after) : member.Fades now after := by
  cases first with
  | kept => exact second
  | accused _ incarnation since suspect alive =>
    cases second with
    | kept => exact .accused _ incarnation since suspect alive
    | accused _ _ _ _ again => simp [suspect] at again
    | died _ same since dead _ =>
      exact .died _ (same.trans incarnation) since dead (by simp [Member.isLive, alive])
  | died _ incarnation since dead live =>
    cases second with
    | kept => exact .died _ incarnation since dead live
    | accused _ _ _ _ again => simp [dead] at again
    | died _ _ _ _ again => simp [Member.isLive, dead] at again

namespace MemberTable

/-- Whoever is known was, and time has done no more to the record. -/
def Fades (now : Nat) (t t' : MemberTable) : Prop :=
  ∀ (peer : PeerId) (after : Member), t'.members[peer]? = some after →
    ∃ member, t.members[peer]? = some member ∧ member.Fades now after

theorem Fades.refl (now : Nat) (t : MemberTable) : t.Fades now t :=
  fun _ after found => ⟨after, found, .kept⟩

theorem Fades.trans {now : Nat} {t u v : MemberTable} (first : t.Fades now u)
    (second : u.Fades now v) : t.Fades now v := by
  intro peer after found
  obtain ⟨middle, there, late⟩ := second peer after found
  obtain ⟨member, known, early⟩ := first peer middle there
  exact ⟨member, known, early.trans late⟩

theorem Fades.accuse {now : Nat} {t u u' : MemberTable} {update : Update} {applied : Applied}
    {member : Member} (fades : t.Fades now u) (outcome : u.Outcome update now applied u')
    (known : t.members[update.member]? = some member)
    (incarnation : update.incarnation = member.incarnation)
    (accuses : update.status = .suspect ∧ member.status = .alive ∨
      update.status = .dead ∧ member.isLive) : t.Fades now u' := by
  intro peer after found
  by_cases its : peer = update.member
  · subst its
    cases outcome with
    | taken =>
      rw [ExtTreeMap.getElem?_insert_self] at found
      obtain rfl := Option.some.inj found
      refine ⟨member, known, ?_⟩
      rcases accuses with ⟨suspect, alive⟩ | ⟨dead, live⟩
      · exact .accused _ incarnation rfl suspect alive
      · exact .died _ incarnation rfl dead live
    | _ => exact fades update.member after found
  · rw [outcome.others its] at found
    exact fades peer after found

theorem suspect_fades {t t' : MemberTable} (wf : t.WellFormed) {peer : PeerId} {now : Nat}
    {news : Option Update} (h : t.suspect peer now = some (news, t')) : t.Fades now t' := by
  by_cases own : peer = t.localId
  · simp [suspect, own] at h
  · obtain ⟨_, _, same, outcome⟩ := suspect_spec wf own now
    rw [h] at same
    simp only [Option.some.injEq, Prod.mk.injEq] at same
    obtain ⟨rfl, rfl⟩ := same
    rcases outcome with ⟨_, rfl⟩ | ⟨member, _, found, alive, _, outcome⟩
    · exact Fades.refl now _
    · exact (Fades.refl now t).accuse outcome found rfl (.inl ⟨rfl, alive⟩)

theorem expireSuspects_fades {t t' : MemberTable} (wf : t.WellFormed) {now timeout : Nat}
    {expired : List Update} (h : t.expireSuspects now timeout = some (expired, t')) :
    t.Fades now t' := by
  by_cases pos : 0 < timeout
  · obtain ⟨after, same, fades, _⟩ := @expireSuspects_spec (t.Fades now) now timeout t
      (fun u u' member update applied found suspect _ accused before _ outcome =>
        before.accuse outcome found (congrArg Update.incarnation accused)
          (.inr ⟨congrArg Update.status accused, by simp [Member.isLive, suspect]⟩))
      wf pos (Fades.refl now t)
    rw [h] at same
    simp only [Option.some.injEq, Prod.mk.injEq] at same
    rw [same.2]
    exact fades
  · simp [expireSuspects, pos] at h

theorem forgetDead_fades (t : MemberTable) (now ttl : Nat) :
    t.Fades now (t.forgetDead now ttl).2 := by
  intro peer after found
  rw [forgetDead_members, Option.filter_eq_some_iff] at found
  exact ⟨after, found.1, .kept⟩

theorem suspect_accuses {t t' : MemberTable} (wf : t.WellFormed) {peer : PeerId} {now : Nat}
    {news : Option Update} (h : t.suspect peer now = some (news, t')) {after : Member}
    (found : t'.members[peer]? = some after) : after.status ≠ .alive := by
  unfold suspect at h
  split at h
  · simp at h
  · split at h
    · rename_i none
      simp only [Option.some.injEq, Prod.mk.injEq] at h
      rw [← h.2, none] at found
      simp at found
    · rename_i member known
      split at h
      · rename_i alive
        simp only [bind, Option.bind_eq_some_iff, Option.some.injEq, Prod.mk.injEq] at h
        obtain ⟨⟨applied, members⟩, told, _, rfl⟩ := h
        have outcome := apply_spec wf told
        have newer : (member.update peer).rank < (member.accused peer .suspect).rank := by
          simp [Update.rank, Member.update, Member.accused, alive, Status.rank]
        generalize same : member.accused peer .suspect = update at outcome newer
        have its : update.member = peer := by rw [← same]; rfl
        have status : update.status = .suspect := by rw [← same]; rfl
        subst its
        cases outcome with
        | taken =>
          rw [ExtTreeMap.getElem?_insert_self] at found
          rw [← Option.some.inj found]
          simp [record, status]
        | stale current _ there older =>
          rw [known, Option.some.injEq] at there
          rw [← there] at older
          omega
        | echoed own | answered own | outbid own => exact absurd own (wf.ne_local known)
        | refused _ absent => simp [known] at absent
      · rename_i other
        simp only [Option.some.injEq, Prod.mk.injEq] at h
        rw [← h.2, known, Option.some.injEq] at found
        exact found ▸ other

/- What is told of a member known is no newer than its record afterwards. -/
theorem Outcome.level {t t' : MemberTable} {update : Update} {now : Nat} {applied : Applied}
    (wf : t.WellFormed) (h : t.Outcome update now applied t') {member : Member}
    (known : t.members[update.member]? = some member) :
    ∃ after, t'.members[update.member]? = some after ∧
      update.rank ≤ (after.update update.member).rank ∧
      (member.update update.member).rank ≤ (after.update update.member).rank := by
  cases h with
  | taken _ _ _ newer =>
    exact ⟨_, ExtTreeMap.getElem?_insert_self, Nat.le_refl _, (newer member known).le⟩
  | stale current _ there older =>
    rw [known, Option.some.injEq] at there
    subst there
    exact ⟨member, known, older, Nat.le_refl _⟩
  | echoed own | answered own | outbid own => exact absurd own (wf.ne_local known)
  | refused _ absent => simp [known] at absent

/- A list of news: a member known has a record no older than any of it about the member, and than
   the record it had. -/
theorem applyAll_level {updates : List Update} {t t' : MemberTable} (wf : t.WellFormed) {now : Nat}
    (h : t.applyAll updates now = some t') {peer : PeerId} {member : Member}
    (known : t.members[peer]? = some member) :
    ∃ after, t'.members[peer]? = some after ∧
      (member.update peer).rank ≤ (after.update peer).rank ∧
      ∀ update ∈ updates, update.member = peer → update.rank ≤ (after.update peer).rank := by
  induction updates generalizing t member with
  | nil =>
    simp only [applyAll, List.foldlM_nil, Option.pure_def, Option.some.injEq] at h
    subst h
    exact ⟨member, known, Nat.le_refl _, by simp⟩
  | cons update rest ih =>
    simp only [applyAll, List.foldlM_cons, bind, Option.bind_eq_some_iff, Option.map_eq_some_iff] at h
    obtain ⟨u, ⟨⟨applied, _⟩, told, rfl⟩, h⟩ := h
    have outcome := apply_spec wf told
    by_cases its : update.member = peer
    · subst its
      obtain ⟨middle, there, newer, kept⟩ := outcome.level wf known
      obtain ⟨after, found, later, news⟩ := ih (outcome.wellFormed wf) h there
      refine ⟨after, found, kept.trans later, fun other mem same => ?_⟩
      rcases List.mem_cons.mp mem with rfl | mem
      · exact newer.trans later
      · exact news other mem same
    · rw [← outcome.others (Ne.symm its)] at known
      obtain ⟨after, found, later, news⟩ := ih (outcome.wellFormed wf) h known
      refine ⟨after, found, later, fun other mem same => ?_⟩
      rcases List.mem_cons.mp mem with rfl | mem
      · exact absurd same its
      · exact news other mem same

theorem expireSuspects_kills {t t' : MemberTable} (wf : t.WellFormed) {now timeout : Nat}
    {expired : List Update} (h : t.expireSuspects now timeout = some (expired, t'))
    {peer : PeerId} {member after : Member} (known : t.members[peer]? = some member)
    (suspect : member.status = .suspect) (due : timeout ≤ now - member.since)
    (found : t'.members[peer]? = some after) : after.status = .dead := by
  obtain ⟨before, same, fades⟩ := expireSuspects_fades wf h peer after found
  rw [known, Option.some.injEq] at same
  subst same
  cases fades with
  | accused _ _ _ _ alive => simp [suspect] at alive
  | died _ _ _ dead => exact dead
  | kept =>
    unfold expireSuspects at h
    split at h
    · simp only [Option.map_eq_some_iff, Prod.mk.injEq] at h
      obtain ⟨last, all, _, rfl⟩ := h
      obtain ⟨kept, there, _, news⟩ := applyAll_level wf all known
      rw [found, Option.some.injEq] at there
      subst there
      have listed : member.accused peer .dead ∈ t.expired now timeout := by
        refine List.mem_map.mpr ⟨(peer, member), List.mem_filter.mpr ⟨?_, ?_⟩, rfl⟩
        · exact ExtTreeMap.mem_toList_iff_getElem?_eq_some.mpr known
        · simp [suspect, due]
      have level := news _ listed rfl
      simp [Update.rank, Member.update, Member.accused, suspect, Status.rank] at level
    · simp at h

end MemberTable

/- Held at this incarnation, and, once suspected, since this time at the latest. -/
def Member.Wanes (incarnation : UInt32) (since : Option Nat) (member : Member) : Prop :=
  member.incarnation = incarnation ∧ ∀ time, since = some time →
    member.status ≠ .alive ∧ (member.status = .suspect → member.since ≤ time)

theorem Member.Wanes.fades {incarnation : UInt32} {since : Option Nat} {now : Nat}
    {member after : Member} (wanes : member.Wanes incarnation since)
    (fades : member.Fades now after) : after.Wanes incarnation since := by
  cases fades with
  | kept => exact wanes
  | accused _ same _ _ alive =>
    exact ⟨same.trans wanes.1, fun time is => absurd alive (wanes.2 time is).1⟩
  | died _ same _ dead _ =>
    exact ⟨same.trans wanes.1, fun _ _ => by simp [dead]⟩

theorem MemberTable.Outcome.wanes {t t' : MemberTable} {update : Update} {now : Nat}
    {applied : Applied} (wf : t.WellFormed) (h : t.Outcome update now applied t') {peer : PeerId}
    {incarnation : UInt32} {since : Option Nat}
    (outdated : update.member = peer → update.incarnation ≤ incarnation)
    (wanes : ∃ member, t.members[peer]? = some member ∧ member.Wanes incarnation since) :
    ∃ member, t'.members[peer]? = some member ∧ member.Wanes incarnation since := by
  obtain ⟨member, known, rfl, fading⟩ := wanes
  by_cases its : update.member = peer
  · subst its
    have older := UInt32.le_iff_toNat_le.mp (outdated rfl)
    cases h with
    | taken _ _ _ newer =>
      refine ⟨_, ExtTreeMap.getElem?_insert_self, ?_⟩
      have newer := newer member known
      have upper := update.status.rank_lt
      simp only [Update.rank, Member.update] at newer
      have same : update.incarnation = member.incarnation := UInt32.toNat_inj.mp (by omega)
      refine ⟨same, fun time is => ?_⟩
      -- it was suspected already, so only its death outranks it
      have condemned := (fading time is).1
      have dead : update.status = .dead := by
        rw [same] at newer
        cases held : member.status <;> cases told : update.status <;>
          simp_all [Status.rank]
      simp [record, dead]
    | echoed own | answered own | outbid own => exact absurd own (wf.ne_local known)
    | _ => exact ⟨member, known, rfl, fading⟩
  · rw [h.others (Ne.symm its)]
    exact ⟨member, known, rfl, fading⟩

namespace Node

section
variable {decay : Nat → Nat → ℚ} {n n' : Node} {now : Nat}

theorem timeOut_fades (sound : n.Sound) (h : n.timeOut now = some n') :
    n.members.Fades now n'.members := by
  simp only [timeOut, bind, Option.bind_eq_some_iff, Option.some.injEq] at h
  obtain ⟨⟨expired, members⟩, expires, a, spreads, rfl⟩ := h
  have same : a.members = members := by rw [spreadAll_frame spreads]
  have first := MemberTable.expireSuspects_fades sound.members expires
  rw [← same] at first
  exact first.trans (a.members.forgetDead_fades now a.swim.tombstoneTtl)

theorem missProbe_suspects (h : n.missProbe now = some n') :
    n.probe = none ∧ n' = n ∨ ∃ missed suspicion, n.probe = some missed ∧
      n.members.suspect missed.target now = some (suspicion, n'.members) := by
  unfold missProbe at h
  split at h
  · rename_i none
    exact .inl ⟨none, (Option.some.inj h).symm⟩
  · rename_i missed pending
    simp only [bind, Option.bind_eq_some_iff] at h
    obtain ⟨⟨suspicion, members⟩, suspected, h⟩ := h
    have same : n'.members = members := by
      cases suspicion with
      | none => exact (Option.some.inj h) ▸ rfl
      | some suspicion => rw [spread_frame h]
    exact .inr ⟨missed, suspicion, pending, same ▸ suspected⟩

theorem missProbe_fades (sound : n.Sound) (h : n.missProbe now = some n') :
    n.members.Fades now n'.members := by
  rcases missProbe_suspects h with ⟨_, rfl⟩ | ⟨_, _, _, suspected⟩
  · exact MemberTable.Fades.refl now _
  · exact MemberTable.suspect_fades sound.members suspected

theorem ran_fades (sound : n.Sound)
    (h : (if n.nextRoundAt ≤ now then n.round decay now else some n) = some n') :
    n.members.Fades now n'.members := by
  split at h
  · obtain ⟨a, opened, drained⟩ := round_members h
    simp only [openRound, bind, Option.bind_eq_some_iff] at opened
    obtain ⟨_, _, missed⟩ := opened
    have fades {b : Node} (h : b.missProbe now = some a) (members : b.members = n.members)
        (gossip : b.gossip = n.gossip) : n.members.Fades now a.members := by
      rw [← members]
      exact missProbe_fades (sound.same members gossip) h
    rw [drained]
    exact fades missed rfl rfl
  · exact (Option.some.inj h) ▸ MemberTable.Fades.refl now _

theorem tick_fades (sound : n.Sound) (h : n.handle decay .tick now = some n') :
    n.members.Fades now n'.members := by
  rcases (handle_cases h).2 with rfl | ⟨_, _, ticked⟩ | ⟨_, _, _, _, is, _⟩
  · exact MemberTable.Fades.refl now _
  · simp only [tick, bind, Option.bind_eq_some_iff] at ticked
    obtain ⟨b, timed, c, ran, escalated⟩ := ticked
    have begun : Sound { n with lastNow := now, actions := [] } := sound.same rfl rfl
    have first := timeOut_fades begun timed
    have second := ran_fades (timeOut_sound begun timed) ran
    rw [escalate_frame escalated]
    exact first.trans second
  · simp at is

theorem step_wanes {peer : PeerId} {incarnation : UInt32} {since : Option Nat} {op : Op}
    {member after : Member} (sound : n.Sound) (known : n.members.members[peer]? = some member)
    (wanes : member.Wanes incarnation since) (outdated : op.OutdatedOf peer incarnation)
    (h : n.step decay op = some n') (found : n'.members.members[peer]? = some after) :
    after.Wanes incarnation since := by
  have same {t : MemberTable} (there : t.members[peer]? = some after)
      (held : ∃ member, t.members[peer]? = some member ∧ member.Wanes incarnation since) :
      after.Wanes incarnation since := by
    obtain ⟨_, found, held⟩ := held
    rw [there, Option.some.injEq] at found
    exact found ▸ held
  by_cases handles : ∃ event now, op = .handle event now
  · obtain ⟨event, now, rfl⟩ := handles
    have handled : n.handle decay event now = some n' := h
    cases event with
    | messageReceived sender bytes =>
      refine same found (handle_table (P := fun t => ∃ member, t.members[peer]? = some member ∧
        member.Wanes incarnation since) ?_ ?_ ?_ sound ⟨member, known, wanes⟩ handled)
      · intro tick
        simp at tick
      · rintro _ _ message is decoded t t' update _ mem held wf outcome
        obtain ⟨rfl, rfl⟩ := Event.messageReceived.inj is
        exact outcome.wanes wf (outdated message decoded update mem) held
      · rintro other _ _ _ _ t ⟨before, held, fading⟩
        refine ⟨_, by rw [MemberTable.depart_members, held, Option.map_some], ?_⟩
        split <;> exact fading
    | tick =>
      obtain ⟨before, there, fades⟩ := tick_fades sound handled peer after found
      rw [known, Option.some.injEq] at there
      subst there
      exact wanes.fades fades
  · have apart := step_apart sound (fun event now is => handles ⟨event, now, is⟩) h
    rcases apart.told with ⟨kept, _⟩ | ⟨other, addr, applied, _, outcome⟩
    · rw [kept] at found
      exact same found ⟨member, known, wanes⟩
    · refine same found (outcome.wanes sound.members ?_ ⟨member, known, wanes⟩)
      exact fun _ => UInt32.zero_le

/- No record is from later than the node's clock. -/
def Dated (n : Node) : Prop :=
  ∀ (peer : PeerId) (member : Member), n.members.members[peer]? = some member →
    member.since ≤ n.lastNow

theorem step_dated {op : Op} (sound : n.Sound) (dated : n.Dated) (h : n.step decay op = some n') :
    n'.Dated := by
  obtain ⟨later, clock⟩ := step_clock h
  have told {t t' : MemberTable} {update : Update} {time : Nat} {applied : Applied}
      (outcome : t.Outcome update time applied t') {last : Nat} (le : time ≤ last)
      (before : ∀ (peer : PeerId) (member : Member), t.members[peer]? = some member →
        member.since ≤ last) (peer : PeerId) (member : Member)
      (found : t'.members[peer]? = some member) : member.since ≤ last := by
    by_cases its : peer = update.member
    · subst its
      cases outcome with
      | taken =>
        rw [ExtTreeMap.getElem?_insert_self] at found
        rw [← Option.some.inj found]
        exact le
      | _ => exact before update.member member found
    · rw [outcome.others its] at found
      exact before peer member found
  have kept : ∀ (peer : PeerId) (member : Member), n.members.members[peer]? = some member →
      member.since ≤ n'.lastNow :=
    fun peer member found => (dated peer member found).trans (later.trans (Nat.le_of_eq clock.symm))
  by_cases handles : ∃ event now, op = .handle event now
  · obtain ⟨event, now, rfl⟩ := handles
    have handled : n.handle decay event now = some n' := h
    have time : n'.lastNow = now := clock
    cases event with
    | messageReceived sender bytes =>
      refine handle_table (P := fun t => ∀ (peer : PeerId) (member : Member),
        t.members[peer]? = some member → member.since ≤ n'.lastNow) ?_ ?_ ?_ sound kept handled
      · intro tick
        simp at tick
      · rintro _ _ _ _ _ t t' update _ _ held _ outcome
        exact told outcome (Nat.le_of_eq time.symm) held
      · intro other _ _ _ _ t held peer member found
        rw [MemberTable.depart_members, Option.map_eq_some_iff] at found
        obtain ⟨before, there, rfl⟩ := found
        have le := held peer before there
        split <;> exact le
    | tick =>
      intro peer after found
      obtain ⟨member, known, fades⟩ := tick_fades sound handled peer after found
      cases fades with
      | kept => exact kept peer after known
      | accused _ _ since | died _ _ since => exact Nat.le_of_eq (since.trans time.symm)
  · have apart := step_apart sound (fun event now is => handles ⟨event, now, is⟩) h
    rcases apart.told with ⟨same, _⟩ | ⟨other, addr, applied, _, outcome⟩
    · intro peer member found
      rw [same] at found
      exact kept peer member found
    · exact told outcome (later.trans (Nat.le_of_eq clock.symm)) kept

theorem new_dated {config : Config} {swim : SwimConfig} {localId : PeerId} {addr : Address}
    {seed : UInt64} (h : Node.new config swim localId addr seed = some n) : n.Dated := by
  unfold Node.new at h
  split at h
  · simp only [MemberTable.setMax, bind, Option.bind_eq_some_iff, Option.ite_none_right_eq_some,
      Option.some.injEq] at h
    obtain ⟨members, ⟨_, rfl⟩, limiter, _, rfl⟩ := h
    intro peer member found
    simp [MemberTable.new] at found
  · simp at h

end

end Node

theorem Reachable.dated {decay : Nat → Nat → ℚ} {n : Node} (reached : Reachable decay n) :
    n.Dated := by
  induction reached with
  | start _ _ _ _ _ n h => exact Node.new_dated h
  | step n op n' before h ih => exact Node.step_dated before.sound ih h

end Rateguard
