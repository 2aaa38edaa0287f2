import Rateguard.UnfailingRounds
import Rateguard.DemandStore

/- What a node that is fit makes of a message, of its leaving and of what its runtime asks of it:
   nothing fails but a count of news once there is too much of it. -/
namespace Rateguard
open Std (ExtTreeMap)

/- A result that is fit, or the overflow of a count of that much news. -/
def Passes (result : Option Node) (now peak news : Nat) : Prop :=
  (∃ n, result = some n ∧ n.Fit now peak news) ∨ (result = none ∧ u64Max < news)

namespace Passes
variable {result : Option Node} {f : Node → Option Node} {now peak news news' : Nat}

theorem of_some (total : ∃ n, result = some n ∧ n.Fit now peak news) :
    Passes result now peak news := .inl total

theorem bind (first : Passes result now peak news) (more : news ≤ news')
    (rest : ∀ n, n.Fit now peak news → Passes (f n) now peak news') :
    Passes (result.bind f) now peak news' := by
  rcases first with ⟨n, rfl, fit⟩ | ⟨rfl, overflow⟩
  · exact rest n fit
  · exact .inr ⟨rfl, overflow.trans_le more⟩

theorem total (passes : Passes result now peak news) (room : news ≤ u64Max) :
    ∃ n, result = some n ∧ n.Fit now peak news := by
  rcases passes with total | ⟨_, overflow⟩
  · exact total
  · omega

theorem fit {n : Node} (passes : Passes result now peak news) (h : result = some n) :
    n.Fit now peak news := by
  rcases passes with ⟨n', same, fit⟩ | ⟨none, _⟩
  · rw [h] at same
    exact Option.some.inj same ▸ fit
  · rw [h] at none
    exact absurd none (by simp)

end Passes

namespace Node

section
variable {n : Node} {now peak news : Nat}

theorem Fit.more (fit : Fit n now peak news) {news' : Nat} (le : news ≤ news') :
    Fit n now peak news' :=
  { fit with
    within := ⟨fit.within.known, fit.within.max, fit.within.refused.trans le⟩
    conflicts := fit.conflicts.trans le }

theorem Fit.learn_passes (fit : Fit n now peak news) (update : Update) :
    Passes (n.learn update now) now peak (news + 1) := by
  rcases n.members.apply_outcome fit.sound.members update now with
    ⟨applied, members, told, outcome⟩ | ⟨failed, _, _, _, full⟩
  · have soundU := fit.sound.outcome outcome
    have fitU : Fit { n with members } now peak (news + 1) :=
      fit.withMembers soundU (outcome.within_more fit.within) outcome.localId (Nat.le_succ news)
    obtain ⟨accepted, refuted⟩ := outcome.sayable
    simp only [learn, told, Option.bind_eq_bind, Option.bind_some]
    cases applied with
    | ignored => exact .of_some ⟨_, rfl, fitU⟩
    | refused =>
      have refusing : Fit { n with members, lastRefusedAt := some now } now peak (news + 1) :=
        { fitU with sound := soundU.same rfl rfl }
      refine .of_some ?_
      dsimp only
      split
      · exact ⟨_, rfl, fitU⟩
      · split
        · exact ⟨_, rfl, refusing⟩
        · exact refusing.refreshCap_total now
    | accepted previous => exact .of_some (fitU.spread_total (accepted previous rfl))
    | refuted alive =>
      have own := refuted alive rfl
      subst own
      dsimp only
      have counted : (∃ conflicts, (if update.status = .alive then addU64 n.identityConflicts 1
          else some n.identityConflicts) = some conflicts ∧ conflicts ≤ news + 1) ∨
          (if update.status = .alive then addU64 n.identityConflicts 1
            else some n.identityConflicts) = none ∧ u64Max < news + 1 := by
        have before := fit.conflicts
        split
        · by_cases room : n.identityConflicts + 1 ≤ u64Max
          · exact .inl ⟨_, by rw [addU64, if_pos room], by omega⟩
          · exact .inr ⟨by rw [addU64, if_neg room], by omega⟩
        · exact .inl ⟨_, rfl, by omega⟩
      rcases counted with ⟨identityConflicts, counted, conflicts⟩ | ⟨counted, overflow⟩
      · rw [counted, Option.bind_some]
        refine .of_some (Fit.spread_total ?_ (MemberTable.ownUpdate_sayable _))
        exact { fitU with sound := soundU.same rfl rfl, conflicts }
      · rw [counted]
        exact .inr ⟨rfl, overflow⟩
  · refine .inr ⟨by simp only [learn, failed, Option.bind_eq_bind, Option.bind_none], ?_⟩
    have refused := fit.within.refused
    omega

theorem Fit.learnAll_passes (fit : Fit n now peak news) (updates : List Update) :
    Passes (n.learnAll updates now) now peak (news + updates.length) := by
  induction updates generalizing n news with
  | nil => exact .of_some ⟨n, rfl, fit⟩
  | cons update rest ih =>
    have step : news + (update :: rest).length = news + 1 + rest.length := by
      rw [List.length_cons]
      omega
    rw [learnAll, List.foldlM_cons, step]
    exact (fit.learn_passes update).bind (Nat.le_add_right _ _) fun u fitU => ih fitU

theorem Fit.store_total (peer : PeerId) (report : Option DemandReport) :
    ∃ peerDemand, n.store peer report now = some peerDemand := by
  cases report with
  | none => exact ⟨_, rfl⟩
  | some report => exact n.peerDemand.apply_isSome peer report now

theorem Fit.hear_total (fit : Fit n now peak news) (sender : PeerId) (newcomer : Bool)
    (message : Message) :
    ∃ n', n.hear sender newcomer message now = some n' ∧ Fit n' now peak news := by
  obtain ⟨peerDemand, stored⟩ := @Fit.store_total n now sender
    (if (n.members.status sender).isSome && !n.members.hasDeparted sender
      then message.demand.find? (·.origin == sender) else none)
  simp only [hear, stored, Option.bind_eq_bind, Option.bind_some]
  exact ⟨_, rfl, { fit with sound := fit.sound.same rfl rfl }⟩

theorem Fit.acknowledged_total (fit : Fit n now peak news) (sender : PeerId) (seq : UInt32)
    {demand : List DemandReport} (fits : FitsDemand demand) :
    ∃ n', n.acknowledged sender seq demand now = some n' ∧ Fit n' now peak news := by
  unfold acknowledged
  dsimp only
  split
  · rename_i probe _
    obtain ⟨peerDemand, stored⟩ := @Fit.store_total n now probe.target
      (if probe.helpers.any (·.contains sender) && !n.members.hasDeparted probe.target
        then demand.find? (·.origin == probe.target) else none)
    simp only [stored, Option.bind_eq_bind, Option.bind_some]
    exact ⟨_, rfl, { fit with sound := fit.sound.same rfl rfl, probe := by simp }⟩
  · split
    · rename_i relay _
      split
      · have relayed : Fit { n with relays := n.relays.erase seq } now peak news :=
          { fit with sound := fit.sound.same rfl rfl }
        have theirs : FitsDemand (demand.filter (·.origin == sender)) :=
          ⟨(List.length_filter_le _ _).trans fits.1, fun report mem =>
            fits.2 report (List.mem_of_mem_filter mem)⟩
        obtain ⟨updates, u, n', out, sent, fit'⟩ := relayed.tell_total relay.requester
          (fun updates _ => .ack relay.seq updates (demand.filter (·.origin == sender)))
          (fun _ _ _ => theirs) fun _ _ => rfl
        exact ⟨n', by simp only [out, Option.bind_eq_bind, Option.bind_some, sent], fit'⟩
      · exact ⟨n, rfl, fit⟩
    · exact ⟨n, rfl, fit⟩

theorem Fit.relay_total (fit : Fit n now peak news) (requester : PeerId) (seq : UInt32)
    (target : PeerId) : ∃ n', n.relay requester seq target now = some n' ∧ Fit n' now peak news := by
  unfold relay
  split
  · exact fit.ack_total requester seq
  · have relaying : Fit { n with
        seq := n.seq + 1
        relays := n.relays.insert (n.seq + 1)
          ⟨requester, seq, target, now + n.swim.protocolPeriod⟩ } now peak news :=
      { fit with sound := fit.sound.same rfl rfl }
    obtain ⟨updates, u, n', out, sent, fit'⟩ := relaying.tell_total target
      (fun updates u => .ping (n.seq + 1) updates u.outgoingDemand)
      (fun _ _ fitU => fitU.outgoingDemand) fun _ _ => rfl
    refine ⟨n', ?_, fit'⟩
    have expires : addU64 now n.swim.protocolPeriod = some (now + n.swim.protocolPeriod) := by
      rw [addU64, if_pos fit.period]
    simp only [nextSeq, expires, out, sent, Option.bind_eq_bind, Option.bind_some]

theorem Fit.answer_total (fit : Fit n now peak news) (sender : PeerId) {message : Message}
    (fits : FitsDemand message.demand) (stays : ∀ updates, message ≠ .leave updates) :
    ∃ n', n.answer sender message now = some n' ∧ Fit n' now peak news := by
  cases message with
  | ping seq updates demand => exact fit.ack_total sender seq
  | ack seq updates demand => exact fit.acknowledged_total sender seq fits
  | pingReq seq target updates demand => exact fit.relay_total sender seq target
  | leave updates => exact absurd rfl (stays updates)

theorem Fit.peak_pos (fit : Fit n now peak news) : 0 < peak :=
  Nat.lt_of_lt_of_le (Nat.succ_pos _) fit.within.known

theorem Fit.departed (fit : Fit n now peak news) (sender : PeerId) :
    Fit (n.depart sender) now peak news := by
  obtain ⟨frame, size⟩ := n.members.depart_frame sender
  have localId : (n.members.depart sender).2.localId = n.members.localId := by rw [frame]
  have within : (n.members.depart sender).2.Within peak news := by
    have max : (n.members.depart sender).2.max = n.members.max := by rw [frame]
    have refused : (n.members.depart sender).2.refused = n.members.refused := by rw [frame]
    refine ⟨?_, max ▸ fit.within.max, refused ▸ fit.within.refused⟩
    rw [MemberTable.known, size]
    exact fit.within.known
  have departed : Fit { n with members := (n.members.depart sender).2 } now peak news :=
    fit.withMembers ⟨(n.members.depart_keeps fit.sound.members sender).wellFormed,
      fit.sound.gossip.follows (n.members.depart_sameSelf sender)⟩ within localId (Nat.le_refl news)
  have one := fit.peak_pos
  have counted : ∀ since, ∀ sample ∈ (n.sizes.forgetOne since).samples, sample.2 ≤ peak := by
    intro since sample mem
    obtain ⟨before, listed, rfl⟩ := List.mem_map.mp mem
    have le := fit.sizes before listed
    unfold forgetIn
    split
    · dsimp only
      omega
    · exact le
  have released (sizes : SizeHistory) (few : ∀ sample ∈ sizes.samples, sample.2 ≤ peak) :
      Fit { n with
        members := (n.members.depart sender).2, behind := n.behind.erase sender
        introducing := n.introducing.erase sender, peerDemand := n.peerDemand.forget sender
        lastHeard := n.lastHeard.erase sender, sizes } now peak news :=
    { departed with sound := departed.sound.same rfl rfl, sizes := few }
  have without (sizes : SizeHistory) (few : ∀ sample ∈ sizes.samples, sample.2 ≤ peak) :=
    Nat.max_le.mpr ⟨(Nat.sub_le _ 1).trans fit.quorum, (released sizes few).knownForQuorum_le⟩
  unfold depart
  dsimp only
  split
  · exact fit
  · cases (n.members.depart sender).2.joinedAt sender with
    | none =>
      exact { released n.sizes fit.sizes with
        sound := departed.sound.same rfl rfl, quorum := without n.sizes fit.sizes }
    | some since =>
      exact { released _ (counted since) with
        sound := departed.sound.same rfl rfl, quorum := without _ (counted since) }

theorem Fit.receiveMessage_passes (fit : Fit n now peak news) (sender : PeerId) {message : Message}
    (limits : message.WithinLimits) :
    Passes (n.receiveMessage sender message now) now peak (news + message.updates.length) := by
  have fits : FitsDemand message.demand :=
    ⟨limits.reports, fun report mem => ⟨limits.keys report mem, limits.rates report mem⟩⟩
  have opened : Fit { n with
      behind := if n.opensBehind sender message then n.behind.insert sender
        else n.behind.erase sender } now peak news :=
    { fit with sound := fit.sound.same rfl rfl }
  refine (opened.learnAll_passes message.updates).bind (Nat.le_refl _) fun u fitU => ?_
  have answered : (∀ updates, message ≠ .leave updates) →
      ∃ n', (u.hear sender (!n.isLive sender) message now).bind
        (fun n => n.answer sender message now) = some n' ∧
        Fit n' now peak (news + message.updates.length) := by
    intro stays
    obtain ⟨v, heard, fitV⟩ := fitU.hear_total sender (!n.isLive sender) message
    rw [heard]
    exact fitV.answer_total sender fits stays
  cases message with
  | leave updates => exact .of_some ⟨_, rfl, fitU.departed sender⟩
  | ping | ack | pingReq => exact .of_some (answered (by simp))

end
end Node
end Rateguard
