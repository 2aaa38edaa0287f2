import Rateguard.Departed
import Rateguard.Fleet
import Rateguard.Hearsay
import Rateguard.Rumours

/- Where the news in a fleet comes from: who made each record, who missed the probe behind each
   suspicion, and whose suspicion or leave is behind each death. -/
namespace Rateguard
open DatagramNetwork Node
open Std (ExtTreeMap)

/- News some node knows, or some datagram carried. -/
def Abroad (net : Net PeerId Node Op) (update : Update) : Prop :=
  (∃ localId n, net.states localId = some n ∧ n.Knows update) ∨
    ∃ o ∈ net.log, ∃ recipient bytes, (recipient, bytes) ∈ o.action.emits o.after ∧
      BytesCarry bytes update

def Happening.Source (o : Happening) (update : Update) : Prop :=
  Node.Source o.before o.action o.after update

def FirstRecord (start : PeerId → Option Node) (update : Update) : Prop :=
  ∃ n, start update.member = some n ∧ update = n.members.ownUpdate

/- A node held the member Alive at this incarnation when its probe of it went unanswered up to
   the next round. -/
def Missed (o : Happening) (update : Update) : Prop :=
  ∃ now probe member, o.action = .handle .tick now ∧ o.before.left = false ∧
    o.before.nextRoundAt ≤ now ∧ o.before.probe = some probe ∧ probe.target = update.member ∧
    o.before.members.members[update.member]? = some member ∧ member.status = .alive ∧
    member.incarnation = update.incarnation

/- A node had suspected the member at this incarnation for the suspicion timeout. -/
def Expired (o : Happening) (update : Update) : Prop :=
  ∃ now member, o.action = .handle .tick now ∧ o.before.left = false ∧
    o.before.members.members[update.member]? = some member ∧ member.status = .suspect ∧
    o.before.swim.suspicionTimeout ≤ now - member.since ∧
    member.incarnation = update.incarnation

def LeftAt (o : Happening) (update : Update) : Prop :=
  ∃ now, o.party = update.member ∧ o.action = .leave now ∧ o.before.left = false ∧
    o.before.members.incarnation = update.incarnation

/-- An Alive record is one its node made, when it started or when it refuted something at a lower
    incarnation, or an introduction. A suspicion goes back to a probe missed. A death goes back to
    the member's own leave, or to a suspicion that ran out, and so to a probe missed before. -/
structure Provenance (start : PeerId → Option Node) (log : List Happening) (update : Update) :
    Prop where
  alive : update.status = .alive → FirstRecord start update ∨
    (∃ o ∈ log, o.action = .introduce update.member update.addr ∧ update.incarnation = 0) ∨
    ∃ o ∈ log, o.party = update.member ∧ update.addr = o.before.members.addr ∧
      o.before.members.incarnation < update.incarnation ∧
      update.incarnation ≤ o.after.members.incarnation
  suspect : update.status = .suspect → ∃ o ∈ log, o.party ≠ update.member ∧ Missed o update
  dead : update.status = .dead → (∃ o ∈ log, LeftAt o update) ∨
    ∃ (j k : Nat) (missed o : Happening), j < k ∧ log[j]? = some missed ∧
      missed.party ≠ update.member ∧ Missed missed update ∧ log[k]? = some o ∧
      o.party ≠ update.member ∧ Expired o update

def ownIncarnation (net : Net PeerId Node Op) (peer : PeerId) : UInt32 :=
  ((net.states peer).map (·.members.incarnation)).getD 0

namespace Node
section
variable {decay : Nat → Nat → ℚ} {n n' : Node} {now : Nat}

/- News of the node itself that it has reached counts no conflict. -/
theorem learnAll_conflicts {updates : List Update} (sound : n.Sound)
    (reached : ∀ update ∈ updates, update.member = n.members.localId →
      update.incarnation ≤ n.members.incarnation)
    (h : n.learnAll updates now = some n') : n'.identityConflicts = n.identityConflicts := by
  induction updates generalizing n with
  | nil =>
    simp only [learnAll, List.foldlM_nil, Option.pure_def, Option.some.injEq] at h
    exact h ▸ rfl
  | cons update rest ih =>
    simp only [learnAll, List.foldlM_cons, bind, Option.bind_eq_some_iff] at h
    obtain ⟨u, first, h⟩ := h
    obtain ⟨applied', news⟩ := learn_members first
    have same := (MemberTable.apply_spec sound.members news).sameSelf
    have later := ih (learn_sound sound first) (fun other mem itself =>
      UInt32.le_trans (reached other (List.mem_cons_of_mem _ mem) (itself.trans same.localId))
        same.incarnation) h
    rw [later]
    simp only [learn, bind, Option.bind_eq_some_iff] at first
    obtain ⟨⟨applied, members⟩, heard, first⟩ := first
    have outcome := MemberTable.apply_spec sound.members heard
    cases applied with
    | ignored => exact Option.some.inj first ▸ rfl
    | refused =>
      dsimp only at first
      split at first
      · exact Option.some.inj first ▸ rfl
      · split at first
        · exact Option.some.inj first ▸ rfl
        · rw [refreshCap_frame first]
    | accepted previous => rw [spread_frame first]
    | refuted alive =>
      have accused : update.status ≠ .alive := by
        intro is
        cases outcome with
        | answered _ other => exact other is
        | outbid itself newer =>
          have low := reached update List.mem_cons_self itself
          rw [UInt32.le_iff_toNat_le] at low
          simp only [Update.rank, MemberTable.ownUpdate, is] at newer
          omega
      simp only [if_neg accused, Option.bind_eq_some_iff, Option.some.injEq] at first
      obtain ⟨conflicts, rfl, first⟩ := first
      rw [spread_frame first]

theorem tick_conflicts (h : n.tick decay now = some n') :
    n'.identityConflicts = n.identityConflicts := by
  simp only [tick, bind, Option.bind_eq_some_iff] at h
  obtain ⟨a, timed, b, rounds, h⟩ := h
  rw [escalate_frame h]
  dsimp only
  have timedOut : a.identityConflicts = n.identityConflicts := by rw [timeOut_frame timed]
  rw [← timedOut]
  split at rounds
  · simp only [round, bind, Option.bind_eq_some_iff] at rounds
    obtain ⟨c, opened, d, policy, e, shares, f, reported, g, followed, stale, _, ⟨target, t⟩,
      chosen, last⟩ := rounds
    have frame := chooseTarget_frame chosen
    rw [followChanges_frame followed, reportDemand_frame reported, applyShares_frame shares,
      applyPolicy_frame policy, (openRound_frame opened).1] at frame
    have before : t.identityConflicts = a.identityConflicts := by rw [frame]
    cases target with
    | none => exact Option.some.inj last ▸ before
    | some target => exact (congrArg identityConflicts (ping_frame last)).trans before
  · exact Option.some.inj rounds ▸ rfl

theorem step_conflicts {op : Op} (sound : n.Sound) (h : n.step decay op = some n')
    (reached : ∀ sender bytes update, op.datagram = some (sender, bytes) →
      BytesCarry bytes update → update.member = n.members.localId →
      update.incarnation ≤ n.members.incarnation) :
    n'.identityConflicts = n.identityConflicts := by
  by_cases handles : ∃ event now, op = .handle event now
  · obtain ⟨event, now, rfl⟩ := handles
    obtain ⟨_, rfl | ⟨_, rfl, ticked⟩ | ⟨sender, bytes, message, _, rfl, _, decoded, _, taken⟩⟩ :=
      handle_cases h
    · rfl
    · have same := tick_conflicts ticked
      exact same
    · simp only [receiveMessage, bind, Option.bind_eq_some_iff] at taken
      obtain ⟨a, learned, taken⟩ := taken
      have heard : a.identityConflicts = n.identityConflicts := by
        refine Eq.trans (learnAll_conflicts ?_ ?_ learned) rfl
        · exact sound.same rfl rfl
        · exact fun update mem => reached sender bytes update rfl ⟨message, decoded, mem⟩
      cases message with
      | leave updates =>
        rw [← Option.some.inj taken, depart_frame a sender]
        exact heard
      | ping | ack | pingReq =>
        simp only [Option.bind_eq_some_iff] at taken
        obtain ⟨b, hears, taken⟩ := taken
        rw [answer_frame taken, hear_frame hears]
        exact heard
  · rw [(step_apart sound (fun event now is => handles ⟨event, now, is⟩) h).frame]

theorem death_recorded {t t' : MemberTable} {own : Update} {applied : Applied}
    {held : Member} (outcome : t.Outcome own now applied t') (dead : own.status = .dead)
    (other : own.member ≠ t.localId) (known : t'.members[own.member]? = some held) :
    own.incarnation ≤ held.incarnation := by
  cases outcome with
  | echoed itself | answered itself | outbid itself => exact absurd itself other
  | refused _ absent =>
    rw [absent] at known
    simp at known
  | stale current _ was older =>
    rw [was, Option.some.injEq] at known
    subst known
    have low := current.status.rank_lt
    have most : Status.dead.rank = 2 := rfl
    simp only [Update.rank, Member.update, dead, most] at older
    rw [UInt32.le_iff_toNat_le]
    omega
  | taken =>
    rw [ExtTreeMap.getElem?_insert_self] at known
    exact Option.some.inj known ▸ UInt32.le_refl _

/- A record is only marked departed by a leave of the member's own, of no later incarnation. -/
theorem step_departs {op : Op} {peer : PeerId} {member : Member} (sound : n.Sound)
    (h : n.step decay op = some n') (found : n'.members.members[peer]? = some member)
    (departed : member.departed = true) :
    n.members.members[peer]? = some member ∨ ∃ bytes own, op.datagram = some (peer, bytes) ∧
      decode bytes = .ok (.leave [own]) ∧ own.incarnation ≤ member.incarnation := by
  by_cases handles : ∃ event now, op = .handle event now
  · obtain ⟨event, now, rfl⟩ := handles
    obtain ⟨_, rfl | ⟨_, rfl, ticked⟩ | ⟨sender, bytes, message, _, rfl, other, decoded, shaped,
      taken⟩⟩ := handle_cases h
    · exact .inl found
    · left
      refine tick_table (P := DepartedBefore n.members) ?_ ?_ ?_ ticked peer member found departed
      · exact .of_news (fun _ _ _ _ _ held outcome => held.trans outcome.departedBefore)
          (fun t now ttl held => held.trans (t.forgetDead_departedBefore now ttl))
          (fun _ held => held)
      · exact sound.same rfl rfl
      · exact .refl _
    · simp only [receiveMessage, bind, Option.bind_eq_some_iff] at taken
      obtain ⟨a, learned, taken⟩ := taken
      have before : DepartedBefore n.members a.members := by
        refine learnAll_table (P := DepartedBefore n.members) ?_ ?_ ?_ learned
        · exact sound.same rfl rfl
        · exact fun _ _ _ _ _ held _ outcome => held.trans outcome.departedBefore
        · exact .refl _
      cases message with
      | ping | ack | pingReq =>
        simp only [Option.bind_eq_some_iff] at taken
        obtain ⟨b, hears, taken⟩ := taken
        rw [answer_frame taken, hear_frame hears] at found
        exact .inl (before peer member found departed)
      | leave updates =>
        simp only [wellFormedLeave] at shaped
        split at shaped
        · rename_i own
          simp only [Bool.and_eq_true, decide_eq_true_eq] at shaped
          obtain ⟨rfl, dead⟩ := shaped
          rw [← Option.some.inj taken, depart_frame a own.member] at found
          dsimp only at found
          rw [MemberTable.depart_members] at found
          obtain ⟨held, known, rfl⟩ := Option.map_eq_some_iff.mp found
          by_cases marked : held.departed = true
          · left
            rw [before peer held known marked]
            split
            · rw [← marked]
            · rfl
          · by_cases itself : peer = own.member ∧ held.status = .dead
            · rw [if_pos itself]
              obtain ⟨rfl, _⟩ := itself
              refine .inr ⟨bytes, own, rfl, decoded, ?_⟩
              simp only [Message.updates, learnAll, List.foldlM_cons, List.foldlM_nil, bind,
                Option.bind_eq_some_iff] at learned
              obtain ⟨u, first, last⟩ := learned
              obtain rfl := Option.some.inj last
              obtain ⟨applied, news⟩ := learn_members first
              have reached :=
                death_recorded (MemberTable.apply_spec sound.members news) dead other known
              exact reached
            · rw [if_neg itself] at departed
              exact absurd departed marked
        · simp at shaped
  · have apart := step_apart sound (fun event now is => handles ⟨event, now, is⟩) h
    exact .inl (apart.departedBefore peer member found departed)

theorem tells_leave {op : Op} {recipient : PeerId} (sound : n.Sound)
    (h : n.step decay op = some n') (told : op.Tells n' recipient .leave) :
    ∃ now, op = .leave now := by
  obtain ⟨action, mem, only⟩ := told.action
  cases op with
  | leave now => exact ⟨now, rfl⟩
  | handle event now =>
    exfalso
    obtain ⟨_, rfl | ⟨_, rfl, ticked⟩ | ⟨sender, bytes, message, _, rfl, _, decoded, _, taken⟩⟩ :=
      handle_cases h
    · simp at mem
    · obtain ⟨probe, _, ⟨_, _, carries⟩ | ⟨helper, _, carries⟩⟩ :=
        (tick_ticked rfl ticked).sends action mem
      · exact absurd (only _ _ carries).2 (by simp)
      · exact absurd (only _ _ carries).2 (by simp)
    · have begun : Sound { n with lastNow := now, actions := [] } := sound.same rfl rfl
      have replied := receiveMessage_replied begun rfl taken
      generalize message.header = heard at replied
      cases replied with
      | acks _ _ _ sent carries | answers _ _ _ sent carries
      | passesOn _ _ _ _ _ _ _ _ sent carries | relays _ _ _ _ _ _ _ _ sent carries =>
        rw [sent, List.mem_singleton] at mem
        exact absurd (only _ _ (mem ▸ carries)).2 (by simp)
      | clears _ _ _ _ _ _ _ _ sent | ignores _ _ sent | departs _ sent => simp [sent] at mem
  | introduce | addSeed | removeSeed | expectPeers | setPartitionPolicy | setQuorumMemory
  | setMaxMembers | record | checkIn | checkInTraced | rehash =>
    obtain ⟨_, _, sent, _⟩ := told
    simp [Op.emits] at sent

theorem leave_sends {peer : PeerId} {bytes : List UInt8} (h : n.leave now = some n')
    (mem : .sendTo peer bytes ∈ n'.actions) : n.left = false ∧
      decode bytes = .ok (.leave [{ n.members.ownUpdate with status := .dead }]) := by
  have said (own : Update) (peers : List PeerId) (m : Node) :
      sendLeave own peers m = some n' → .sendTo peer bytes ∈ m.actions ∨
        decode bytes = .ok (.leave [own]) := by
    induction peers generalizing m with
    | nil =>
      intro h
      exact .inl (Option.some.inj h ▸ mem)
    | cons first rest ih =>
      intro h
      simp only [sendLeave, bind, Option.bind_eq_some_iff] at h
      obtain ⟨u, one, v, two, h⟩ := h
      obtain ⟨bytes', encoded, rfl⟩ := send_some one
      obtain ⟨bytes'', encoded', rfl⟩ := send_some two
      rw [encoded, Except.ok.injEq] at encoded'
      subst encoded'
      refine (ih _ h).elim (fun sent => ?_) .inr
      simp only [List.append_assoc, List.mem_append, List.cons_append, List.nil_append,
        List.mem_cons, Action.sendTo.injEq, List.not_mem_nil, or_false] at sent
      rcases sent with old | ⟨_, rfl⟩ | ⟨_, rfl⟩
      · exact .inl old
      · exact .inr (decode_encode encoded)
      · exact .inr (decode_encode encoded)
  simp only [leave, bind, Option.bind_eq_some_iff] at h
  obtain ⟨a, advanced, h⟩ := h
  obtain ⟨_, rfl⟩ := advance_some advanced
  split at h
  · rw [← Option.some.inj h] at mem
    simp at mem
  · rename_i present
    simp only [Option.bind_eq_some_iff] at h
    obtain ⟨own, itself, h⟩ := h
    have itself : own = n.members.ownUpdate := by
      simpa [MemberTable.updateAbout, eq_comm] using itself
    subst itself
    refine ⟨by simpa using present, (said _ _ _ h).resolve_left ?_⟩
    simp

end
end Node

section
variable {decay : Nat → Nat → ℚ} {start : PeerId → Option Node} {net : Net PeerId Node Op}

theorem fleet_faithful : Faithful (fleet decay) Proper Knows BytesCarry Happening.Source :=
  fun _ proper stepped _ knew took source => step_keepsTo proper.1 stepped knew took source

theorem new_knows {config : Config} {swim : SwimConfig} {localId : PeerId} {addr : Address}
    {seed : UInt64} {n : Node} (h : Node.new config swim localId addr seed = some n)
    {update : Update} (knows : n.Knows update) :
    update = n.members.ownUpdate ∧ n.members.incarnation = 0 := by
  unfold Node.new at h
  split at h
  · simp only [MemberTable.setMax, bind, Option.bind_eq_some_iff, Option.ite_none_right_eq_some,
      Option.some.injEq] at h
    obtain ⟨members, ⟨_, rfl⟩, limiter, _, rfl⟩ := h
    cases knows with
    | own => exact ⟨rfl, rfl⟩
    | held peer member found => simp [MemberTable.new] at found
    | queued peer pending found => simp [Gossip.new] at found
  · simp at h

theorem new_conflicts {config : Config} {swim : SwimConfig} {localId : PeerId} {addr : Address}
    {seed : UInt64} {n : Node} (h : Node.new config swim localId addr seed = some n) :
    n.identityConflicts = 0 := by
  unfold Node.new at h
  split at h
  · simp only [bind, Option.bind_eq_some_iff, Option.some.injEq] at h
    obtain ⟨members, _, limiter, _, rfl⟩ := h
    rfl
  · simp at h

variable (fresh : NewFleet start)
include fresh

theorem NewFleet.given (localId : PeerId) (n : Node) (update : Update)
    (h : start localId = some n) (knows : n.Knows update) : FirstRecord start update := by
  obtain ⟨config, swim, addr, seed, new⟩ := fresh localId n h
  obtain ⟨rfl, _⟩ := new_knows new knows
  have itself : n.members.localId = localId := (fresh.proper localId n h).2
  exact ⟨n, (congrArg start itself).trans h, rfl⟩

variable (run : Run (fleet decay) start net)
include run

theorem abroad_sourced {update : Update} (abroad : Abroad net update) :
    Sourced Happening.Source (FirstRecord start) net.log update := by
  obtain ⟨known, told⟩ := run.sourced fleet_faithful fresh.proper Proper.step fresh.given
  rcases abroad with ⟨localId, n, held, knows⟩ | ⟨o, mem, recipient, bytes, sent, carries⟩
  · exact known localId n update held knows
  · exact told o mem recipient bytes update sent carries

theorem knew_sourced {k : Nat} {o : Happening} (found : net.log[k]? = some o) {update : Update}
    (knows : o.before.Knows update) :
    Sourced Happening.Source (FirstRecord start) (net.log.take k) update :=
  run.sourced_before fleet_faithful fresh.proper Proper.step fresh.given found knows

theorem accuser_other {k : Nat} {o : Happening} (found : net.log[k]? = some o) {peer : PeerId}
    {member : Member} (held : o.before.members.members[peer]? = some member) : o.party ≠ peer := by
  obtain ⟨sound, itself⟩ := run.keeps_before fresh.proper Proper.step found
  exact fun same => sound.members.ne_local held (same ▸ itself.symm)

theorem source_missed {k : Nat} {o : Happening} (found : net.log[k]? = some o) {update : Update}
    (source : o.Source update) (suspect : update.status = .suspect) :
    o.party ≠ update.member ∧ Missed o update := by
  cases source with
  | misses now probe member is present due pending held alive =>
    exact ⟨accuser_other fresh run found held, now, probe, member, is, present, due, pending, rfl,
      held, alive, rfl⟩
  | refutes | introduces | expires | leaves =>
    simp [Member.accused, MemberTable.ownUpdate] at suspect

theorem news_provenance {update : Update} (abroad : Abroad net update) :
    Provenance start net.log update := by
  have sourced := abroad_sourced fresh run abroad
  constructor
  · intro alive
    rcases sourced with first | ⟨o, mem, source⟩
    · exact .inl first
    · obtain ⟨k, found⟩ := List.getElem?_of_mem mem
      have itself := (run.keeps_before fresh.proper Proper.step found).2
      cases source with
      | refutes incarnation above below =>
        exact .inr (.inr ⟨o, mem, itself.symm, rfl, above, below⟩)
      | introduces peer addr is => exact .inr (.inl ⟨o, mem, is, rfl⟩)
      | misses | expires | leaves => simp [Member.accused] at alive
  · intro suspect
    rcases sourced with ⟨n, _, first⟩ | ⟨o, mem, source⟩
    · exact absurd (suspect.symm.trans (congrArg Update.status first)) (by simp [MemberTable.ownUpdate])
    · obtain ⟨k, found⟩ := List.getElem?_of_mem mem
      exact ⟨o, mem, source_missed fresh run found source suspect⟩
  · intro dead
    rcases sourced with ⟨n, _, first⟩ | ⟨o, mem, source⟩
    · exact absurd (dead.symm.trans (congrArg Update.status first)) (by simp [MemberTable.ownUpdate])
    · obtain ⟨k, found⟩ := List.getElem?_of_mem mem
      have itself := (run.keeps_before fresh.proper Proper.step found).2
      cases source with
      | leaves now is present => exact .inl ⟨o, mem, now, itself.symm, is, present, rfl⟩
      | expires now peer member is present held suspect due =>
        right
        rcases knew_sourced fresh run found (.held peer member held) with
          ⟨n, _, first⟩ | ⟨s, early, source⟩
        · exact absurd (suspect.symm.trans (congrArg Update.status first))
            (by simp [MemberTable.ownUpdate])
        · obtain ⟨j, earlier⟩ := List.getElem?_of_mem early
          have inside : j < k := by
            have length := (List.getElem?_eq_some_iff.mp earlier).1
            rw [List.length_take] at length
            omega
          rw [List.getElem?_take_of_lt inside] at earlier
          obtain ⟨other, missed⟩ := source_missed fresh run earlier source suspect
          exact ⟨j, k, s, o, inside, earlier, other, missed, found,
            accuser_other fresh run found held, now, member, is, present, held, suspect, due, rfl⟩
      | refutes | introduces | misses => simp [Member.accused, MemberTable.ownUpdate] at dead

theorem sameSelf_after {o : Happening} (mem : o ∈ net.log) :
    ∃ n, net.states o.party = some n ∧ SameSelf o.after.members n.members :=
  run.follows (R := fun n n' => SameSelf n.members n'.members) (fun _ => .refl _)
    (fun _ _ _ => .trans) fresh.proper Proper.step
    (fun _ _ _ _ proper stepped => step_sameSelf proper.1 stepped) mem

theorem le_ownIncarnation {o : Happening} (mem : o ∈ net.log) :
    o.after.members.incarnation ≤ ownIncarnation net o.party := by
  obtain ⟨n, held, same⟩ := sameSelf_after fresh run mem
  rw [ownIncarnation, held]
  exact same.incarnation

/- News is of no incarnation its source has not seen the member at. The steps behind it come
   before it, down to one of the member itself. -/
theorem source_bounded (k : Nat) (o : Happening) (found : net.log[k]? = some o) (update : Update)
    (source : o.Source update) : update.incarnation ≤ ownIncarnation net update.member := by
  induction k using Nat.strongRecOn generalizing o update with
  | ind k ih =>
    have mem := List.mem_of_getElem? found
    obtain ⟨sound, itself⟩ := run.keeps_before fresh.proper Proper.step found
    have known {earlier : Update} (knows : o.before.Knows earlier) :
        earlier.incarnation ≤ ownIncarnation net earlier.member := by
      rcases knew_sourced fresh run found knows with ⟨n, began, rfl⟩ | ⟨s, early, source⟩
      · obtain ⟨config, swim, addr, seed, new⟩ := fresh _ n began
        have zero := (new_knows new .own).2
        simp only [MemberTable.ownUpdate, zero]
        exact UInt32.zero_le
      · obtain ⟨j, earlier⟩ := List.getElem?_of_mem early
        have inside : j < k := by
          have length := (List.getElem?_eq_some_iff.mp earlier).1
          rw [List.length_take] at length
          omega
        rw [List.getElem?_take_of_lt inside] at earlier
        exact ih j inside s earlier _ source
    cases source with
    | refutes incarnation above below =>
      simp only [MemberTable.ownUpdate, itself]
      exact UInt32.le_trans below (le_ownIncarnation fresh run mem)
    | introduces peer addr is => exact UInt32.zero_le
    | misses now probe member is present due pending held alive =>
      have before := known (.held probe.target member held)
      exact before
    | expires now peer member is present held suspect due =>
      have before := known (.held peer member held)
      exact before
    | leaves now is present =>
      have before := known .own
      exact before

theorem sourced_bounded {update : Update}
    (sourced : Sourced Happening.Source (FirstRecord start) net.log update) :
    update.incarnation ≤ ownIncarnation net update.member := by
  rcases sourced with ⟨n, began, rfl⟩ | ⟨o, mem, source⟩
  · obtain ⟨config, swim, addr, seed, new⟩ := fresh _ n began
    simp only [MemberTable.ownUpdate, (new_knows new .own).2]
    exact UInt32.zero_le
  · obtain ⟨k, found⟩ := List.getElem?_of_mem mem
    exact source_bounded fresh run k o found update source

/- No node is told of an incarnation of its own that it has not reached. -/
theorem conflicts_none {localId : PeerId} {n : Node} (held : net.states localId = some n) :
    n.identityConflicts = 0 := by
  induction run generalizing localId n with
  | start =>
    obtain ⟨config, swim, addr, seed, new⟩ := fresh localId n held
    exact new_conflicts new
  | move net move net' run h ih =>
    obtain ⟨delivers, before, after, was, stepped, rfl⟩ := move_some h
    dsimp only at held
    by_cases same : localId = move.party
    · subst same
      rw [Function.update_self, Option.some.injEq] at held
      subst held
      obtain ⟨sound, itself⟩ := run.keeps fresh.proper Proper.step was
      rw [step_conflicts sound stepped, ih was]
      intro sender bytes update taken carries own
      have told := (run.sourced fleet_faithful fresh.proper Proper.step fresh.given).2
      have bounded := sourced_bounded fresh run (delivers.sourced told taken carries)
      rwa [ownIncarnation, own, itself, was] at bounded
    · rw [Function.update_of_ne same] at held
      exact ih held

theorem released_everywhere {localId : PeerId} {n : Node} (held : net.states localId = some n) :
    n.Released := by
  refine (run.keeps (P := fun localId n => Proper localId n ∧ n.Released) ?_ ?_ held).2
  · intro localId n began
    obtain ⟨config, swim, addr, seed, new⟩ := fresh localId n began
    exact ⟨fresh.proper localId n began, new_released new⟩
  · intro localId n op n' ⟨proper, released⟩ stepped
    exact ⟨proper.step localId n op n' stepped, step_released proper.1 released stepped⟩

/- A record marked departed was marked on taking in a leave the member sent: the member has left,
   and its incarnation is the record's still. -/
theorem departed_left {localId peer : PeerId} {n : Node} {member : Member}
    (held : net.states localId = some n) (found : n.members.members[peer]? = some member)
    (departed : member.departed = true) :
    ∃ m, net.states peer = some m ∧ m.left = true ∧ member.incarnation = m.members.incarnation := by
  obtain ⟨k, o, at_k, itself, ⟨bytes, own, takes, decoded, reached⟩, _⟩ :=
    run.caused fresh.proper Proper.step
      (fun n (fact : PeerId × Member) => n.members.members[fact.1]? = some fact.2 ∧
        fact.2.departed = true)
      (fun op _ _ fact => ∃ bytes own, op.datagram = some (fact.1, bytes) ∧
        decode bytes = .ok (.leave [own]) ∧ own.incarnation ≤ fact.2.incarnation)
      (fun _ n _ began holds => by
        obtain ⟨config, swim, addr, seed, new⟩ := fresh _ n began
        have first := (new_knows new (.held _ _ holds.1)).1
        exact absurd (congrArg Update.member first)
          ((new_sound new).members.ne_local holds.1))
      (fun _ _ _ _ fact proper stepped holds => by
        rcases step_departs proper.1 stepped holds.1 holds.2 with before | leave
        · exact .inl ⟨before, holds.2⟩
        · exact .inr leave)
      (peer, member) held ⟨found, departed⟩
  obtain ⟨j, sent, _, _, sentAt, sender, mem⟩ := run.sent at_k takes
  obtain ⟨earlier, _, _, _, stepped, _⟩ := run.occurred sentAt
  have proper := run.keeps_before fresh.proper Proper.step sentAt
  obtain ⟨now, is⟩ := tells_leave proper.1 stepped ⟨bytes, _, mem, decoded, rfl⟩
  rw [is] at stepped mem
  obtain ⟨⟨recipient, bytes'⟩, sends, same⟩ := List.mem_map.mp mem
  simp only [Prod.mk.injEq] at same
  obtain ⟨_, rfl⟩ := same
  obtain ⟨_, decoded'⟩ := leave_sends stepped sends
  rw [decoded, Except.ok.injEq, Message.leave.injEq, List.cons.injEq] at decoded'
  obtain ⟨left, stayed⟩ := leave_leaves stepped
  obtain ⟨m, now_, since⟩ := run.follows
    (R := fun n n' => n.left = true → n'.left = true ∧
      n'.members.incarnation = n.members.incarnation)
    (fun _ left => ⟨left, rfl⟩)
    (fun s t u first second left => by
      obtain ⟨leftT, same⟩ := first left
      obtain ⟨leftU, same'⟩ := second leftT
      exact ⟨leftU, same'.trans same⟩)
    fresh.proper Proper.step
    (fun _ _ op _ proper stepped left => step_left proper.1 left ⟨op, stepped⟩)
    (List.mem_of_getElem? sentAt)
  obtain ⟨leftM, sameM⟩ := since left
  rw [sender] at now_
  refine ⟨m, now_, leftM, ?_⟩
  have bounded := sourced_bounded fresh run (abroad_sourced fresh run
    (.inl ⟨localId, n, held, .held peer member found⟩))
  rw [ownIncarnation, show (member.update peer).member = peer from rfl, now_] at bounded
  refine UInt32.le_antisymm bounded ?_
  rw [decoded'.1] at reached
  rw [sameM, stayed]
  exact reached

end

/-- Every record a node of the fleet holds or tells, and every one that ever was in a datagram,
    has its provenance: only a missed probe brings a suspicion, and only a suspicion that ran out,
    or the member's own leave, brings a death. -/
theorem fleet_news_has_provenance (decay : Nat → Nat → ℚ) (start : PeerId → Option Node)
    (net : Net PeerId Node Op) (fresh : NewFleet start) (run : Run (fleet decay) start net)
    (update : Update) (abroad : Abroad net update) : Provenance start net.log update :=
  news_provenance fresh run abroad

theorem sampleFleet_new : NewFleet sampleFleet := by
  intro localId n h
  simp only [sampleFleet, Option.ite_none_right_eq_some] at h
  exact ⟨_, _, _, _, h.2⟩

/- Node 1 probes node 2, which never answers. -/
def sampleDeath : Option (Net PeerId Node Op) :=
  drive sampleDecay ⟨sampleFleet, []⟩ [
    .act 1 (.introduce 2 (sampleAddress 2)), .act 1 (.handle .tick (ms 1)),
    .act 1 (.handle .tick (ms 201)), .act 1 (.handle .tick (ms 6201))]

theorem sampleDeath_dies : (sampleDeath.any fun net => (net.states 1).any fun n =>
    n.members.members[(2 : PeerId)]?.any (·.status = .dead)) = true := by
  decide +kernel

theorem fleet_news_has_provenance_death : ∃ (net : Net PeerId Node Op) (update : Update),
    update.status = .dead ∧ Provenance sampleFleet net.log update := by
  obtain ⟨net, ran, checked⟩ := (Option.any_eq_true _ _).mp sampleDeath_dies
  obtain ⟨n, held, checked⟩ := (Option.any_eq_true _ _).mp checked
  obtain ⟨member, found, dead⟩ := (Option.any_eq_true _ _).mp checked
  exact ⟨net, member.update 2, of_decide_eq_true dead,
    fleet_news_has_provenance sampleDecay sampleFleet net sampleFleet_new (drive_run .start ran) _
      (.inl ⟨1, n, held, .held 2 member found⟩)⟩

/-- Where each node is run once, whatever the network does, nothing is ever said of a node at an
    incarnation above its own, and no node counts a conflict over its identity. -/
theorem fleet_incarnations_are_own (decay : Nat → Nat → ℚ) (start : PeerId → Option Node)
    (net : Net PeerId Node Op) (fresh : NewFleet start) (run : Run (fleet decay) start net) :
    (∀ update, Abroad net update → update.incarnation ≤ ownIncarnation net update.member) ∧
      ∀ localId n, net.states localId = some n → n.identityConflicts = 0 :=
  ⟨fun _ abroad => sourced_bounded fresh run (abroad_sourced fresh run abroad),
    fun _ _ held => conflicts_none fresh run held⟩

theorem fleet_incarnations_are_own_sample : ∃ net : Net PeerId Node Op, net.log.length = 8 ∧
    (∀ update, Abroad net update → update.incarnation ≤ ownIncarnation net update.member) ∧
      ∀ localId n, net.states localId = some n → n.identityConflicts = 0 := by
  obtain ⟨net, ran, checked⟩ := (Option.any_eq_true _ _).mp sampleIndirect_clears
  simp only [Bool.and_eq_true, decide_eq_true_eq] at checked
  exact ⟨net, checked.1, fleet_incarnations_are_own sampleDecay sampleFleet net sampleFleet_new
    (drive_run .start ran)⟩

/-- Who is marked as departed has left, at the incarnation it is held dead at; and no record of it
    that is still around, in a table, a buffer or a datagram on its way, supersedes that. -/
theorem fleet_departed_have_left (decay : Nat → Nat → ℚ) (start : PeerId → Option Node)
    (net : Net PeerId Node Op) (fresh : NewFleet start) (run : Run (fleet decay) start net)
    (localId peer : PeerId) (n : Node) (member : Member) (held : net.states localId = some n)
    (found : n.members.members[peer]? = some member) (departed : member.departed = true) :
    (∃ m, net.states peer = some m ∧ m.left = true ∧
      member.incarnation = m.members.incarnation) ∧
    ∀ update, Abroad net update → update.member = peer →
      update.supersedes (member.update peer) = some false := by
  obtain ⟨m, now, left, same⟩ := departed_left fresh run held found departed
  refine ⟨⟨m, now, left, same⟩, ?_⟩
  rintro update abroad rfl
  have dead := (released_everywhere fresh run held).departed _ member found departed |>.dead
  have bounded := sourced_bounded fresh run (abroad_sourced fresh run abroad)
  rw [ownIncarnation, now, Option.map_some, Option.getD_some, ← same] at bounded
  rw [Update.supersedes_eq (member.update_member _).symm, Option.some.injEq, decide_eq_false_iff_not]
  have low := update.status.rank_lt
  have most : Status.dead.rank = 2 := rfl
  rw [UInt32.le_iff_toNat_le] at bounded
  simp only [Update.rank, Member.update, dead, most]
  omega

/- Node 2 leaves, and node 1 takes in its leave. -/
def sampleLeave : Option (Net PeerId Node Op) :=
  drive sampleDecay ⟨sampleFleet, []⟩ [
    .act 1 (.introduce 2 (sampleAddress 2)), .act 2 (.introduce 1 (sampleAddress 1)),
    .act 2 (.leave (ms 1)), .deliver 2 0 (ms 2)]

theorem sampleLeave_departs : (sampleLeave.any fun net => (net.states 1).any fun n =>
    n.members.members[(2 : PeerId)]?.any (·.departed)) = true := by
  decide +kernel

theorem fleet_departed_have_left_sample : ∃ (net : Net PeerId Node Op) (member : Member),
    member.departed = true ∧ (∃ m, net.states 2 = some m ∧ m.left = true ∧
      member.incarnation = m.members.incarnation) ∧
    ∀ update, Abroad net update → update.member = 2 →
      update.supersedes (member.update 2) = some false := by
  obtain ⟨net, ran, checked⟩ := (Option.any_eq_true _ _).mp sampleLeave_departs
  obtain ⟨n, held, checked⟩ := (Option.any_eq_true _ _).mp checked
  obtain ⟨member, found, departed⟩ := (Option.any_eq_true _ _).mp checked
  exact ⟨net, member, departed, fleet_departed_have_left sampleDecay sampleFleet net
    sampleFleet_new (drive_run .start ran) 1 2 n member held found departed⟩

end Rateguard
