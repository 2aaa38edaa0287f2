import Rateguard.Unfailing
import Rateguard.HoldDown
import Rateguard.SideTables

/- A tick of a node that is fit cannot fail, and leaves it fit. -/
namespace Rateguard
open Std (ExtTreeMap)
open AscendingList (binarySearch)

theorem dropOld_ne_nil {window now : Nat} {samples : List (Nat × Nat)} (some : samples ≠ []) :
    dropOld window now samples ≠ [] := by
  fun_induction dropOld window now samples with
  | case1 first second rest due ih => exact ih (by simp)
  | case2 first second rest kept => simp
  | case3 short => exact some

/- A size no larger than the most there ever was is recorded, and so is the largest. -/
theorem SizeHistory.record_total {h : SizeHistory} {size peak : Nat} (now : Nat) (le : size ≤ peak)
    (samples : ∀ sample ∈ h.samples, sample.2 ≤ peak) :
    ∃ largest h', h.record now size = some (largest, h') ∧ largest ≤ peak ∧
      ∀ sample ∈ h'.samples, sample.2 ≤ peak := by
  have some : (dropOld h.window now (h.samples ++ [(now, size)])).map (·.2) ≠ [] := by
    simpa using dropOld_ne_nil (show h.samples ++ [(now, size)] ≠ [] by simp)
  obtain ⟨largest, most⟩ := Option.ne_none_iff_exists'.mp (mt List.max?_eq_none_iff.mp some)
  have recorded : h.record now size =
      Option.some (largest, ⟨h.window, dropOld h.window now (h.samples ++ [(now, size)])⟩) := by
    simp only [SizeHistory.record, most, bind, Option.bind_some]
  obtain ⟨_, _, old, kept, _⟩ := SizeHistory.record_spec recorded
  have within : ∀ sample ∈ dropOld h.window now (h.samples ++ [(now, size)]), sample.2 ≤ peak := by
    intro sample mem
    have listed : sample ∈ h.samples ++ [(now, size)] := kept ▸ List.mem_append_right old mem
    rcases List.mem_append.mp listed with before | last
    · exact samples sample before
    · rw [List.mem_singleton.mp last]
      exact le
  obtain ⟨sample, mem, rfl⟩ := List.mem_map.mp (List.max?_mem most)
  exact ⟨_, _, recorded, within sample mem, within⟩

namespace MemberTable
variable {t t' : MemberTable} {update : Update} {now peak news : Nat} {applied : Applied}

theorem Outcome.not_refused (h : t.Outcome update now applied t')
    (known : t.members[update.member]?.isSome) : applied ≠ .refused := by
  rintro rfl
  cases h with
  | refused _ stranger =>
    rw [stranger] at known
    simp at known

theorem Outcome.within_more (h : t.Outcome update now applied t') (within : t.Within peak news) :
    t'.Within peak (news + 1) := by
  refine ⟨?_, h.max ▸ within.max, ?_⟩
  · rcases h.known_le with fewer | fewer
    · exact fewer.trans within.known
    · exact fewer.trans within.max
  · have before := within.refused
    cases h with
    | refused => exact Nat.succ_le_succ before
    | _ => exact Nat.le_succ_of_le before

theorem Outcome.within (h : t.Outcome update now applied t') (taken : applied ≠ .refused)
    (within : t.Within peak news) : t'.Within peak news := by
  obtain ⟨known, max, _⟩ := h.within_more within
  refine ⟨known, max, ?_⟩
  cases h with
  | refused => exact absurd rfl taken
  | _ => exact within.refused

end MemberTable

namespace Node

section
variable {n : Node} {now peak news : Nat}

/- Whom a round probes is never the node itself. -/
theorem Fit.randomLost_total (fit : Fit n now peak news) :
    ∃ target n', n.randomLost = some (target, n') ∧ Fit n' now peak news ∧
      ∀ peer, target = some peer → peer ≠ n'.members.localId := by
  unfold randomLost
  generalize found : n.members.dead ++
    (n.seeds.map (·.1)).filter (fun seed => (n.members.status seed).isNone) = lost
  have others : ∀ peer ∈ lost, peer ≠ n.members.localId := by
    intro peer mem own
    rw [← found] at mem
    rcases List.mem_append.mp mem with dead | seed
    · obtain ⟨member, known, _⟩ := MemberTable.mem_dead.mp dead
      exact fit.sound.members.ne_local known own
    · have strange := (List.mem_filter.mp seed).2
      simp [MemberTable.status, own] at strange
  by_cases none : lost.isEmpty
  · exact ⟨_, _, by rw [if_pos none], fit, by simp⟩
  · rw [if_neg none]
    have some : 0 < lost.length := List.length_pos_iff.mpr (by simpa using none)
    have pick := n.rng.upTo_le (lost.length - 1)
    have here : (n.rng.upTo (lost.length - 1)).1 < lost.length := by omega
    simp only [List.getElem?_eq_getElem here, bind, Option.bind_some]
    refine ⟨_, _, rfl, ?_, ?_⟩
    · exact { fit with sound := fit.sound.same rfl rfl }
    · intro peer same
      rw [← Option.some.inj same]
      exact others _ (List.getElem_mem here)

theorem takeFrom_live {live order : List PeerId} {next : Nat} {peer : PeerId}
    (taken : (takeFrom live order next).1 = some peer) : peer ∈ live := by
  induction order generalizing next with
  | nil => simp [takeFrom] at taken
  | cons first rest ih =>
    simp only [takeFrom] at taken
    split at taken
    · rename_i found
      rw [← Option.some.inj taken]
      exact AscendingList.binarySearch_ok_mem found
    · exact ih taken

theorem nextTarget_live {n' : Node} {target : Option PeerId}
    (h : n.nextTarget = some (target, n')) : ∀ peer, target = some peer → peer ∈ n.members.live := by
  rintro peer rfl
  unfold nextTarget at h
  split at h
  · rename_i first m taken
    obtain ⟨same, _⟩ := Prod.mk.inj (Option.some.inj h)
    exact takeFrom_live ((congrArg Prod.fst taken).trans same)
  · rename_i m taken
    have last : n.takeLive.2 = m := by rw [taken]
    have members : m.members = n.members := by
      rw [← last]
      rfl
    simp only [bind, Option.bind_eq_some_iff] at h
    obtain ⟨⟨order, rng⟩, _, h⟩ := h
    rw [← members]
    exact takeFrom_live (congrArg Prod.fst (Option.some.inj h))

theorem Fit.nextTarget_total (fit : Fit n now peak news) :
    ∃ target n', n.nextTarget = some (target, n') ∧ Fit n' now peak news ∧
      ∀ peer, target = some peer → peer ≠ n'.members.localId := by
  obtain ⟨target, n', found, order⟩ := Node.nextTarget_total fit.order
  refine ⟨target, n', found, ?_, ?_⟩
  · have frame := nextTarget_frame found
    rw [frame] at order ⊢
    exact { fit with sound := fit.sound.same rfl rfl, order }
  · intro peer chosen own
    have live := nextTarget_live found peer chosen
    rw [own, nextTarget_frame found] at live
    exact fit.sound.members.notMem_live live

theorem Fit.chooseTarget_total (fit : Fit n now peak news) :
    ∃ target n', n.chooseTarget now = some (target, n') ∧ Fit n' now peak news ∧
      ∀ peer, target = some peer → peer ≠ n'.members.localId := by
  have opened : ∃ lost u,
      (if n.nextReconnectAt ≤ now then n.randomLost else some (none, n)) = some (lost, u) ∧
        Fit u now peak news ∧ ∀ peer, lost = some peer → peer ≠ u.members.localId := by
    by_cases due : n.nextReconnectAt ≤ now
    · rw [if_pos due]
      exact fit.randomLost_total
    · rw [if_neg due]
      exact ⟨none, n, rfl, fit, by simp⟩
  obtain ⟨lost, u, first, fitU, otherU⟩ := opened
  simp only [chooseTarget, first, bind, Option.bind_some]
  cases lost with
  | some lost =>
    simp only [addU64, if_pos fitU.reconnect, Option.bind_some]
    exact ⟨_, _, rfl, { fitU with sound := fitU.sound.same rfl rfl }, otherU⟩
  | none =>
    obtain ⟨target, v, second, fitV, otherV⟩ := fitU.nextTarget_total
    simp only [second, Option.bind_some]
    cases target with
    | some target => exact ⟨_, _, rfl, fitV, otherV⟩
    | none => exact fitV.randomLost_total

theorem Fit.followChanges_total (fit : Fit n now peak news) :
    ∃ n', n.followChanges now = some n' ∧ Fit n' now peak news := by
  obtain ⟨n', followed, order⟩ := Node.followChanges_total fit.order now
  refine ⟨n', followed, ?_⟩
  have sound := followChanges_sound fit.sound followed
  have frame := followChanges_frame followed
  rw [frame] at order sound ⊢
  exact { fit with
    sound, order, within := ⟨fit.within.known, fit.within.max, fit.within.refused⟩ }

theorem Fit.countQuorum_le (fit : Fit n now peak news) (at' : Nat) :
    (n.countQuorum at').1 ≤ peak := by
  have known := fit.knownForQuorum_le
  have quorum := fit.quorum
  unfold countQuorum
  dsimp only
  split
  · exact Nat.max_le.mpr ⟨known, quorum⟩
  · split
    · exact known
    · exact Nat.max_le.mpr ⟨known, quorum⟩

theorem Fit.applyPolicy_total (fit : Fit n now peak news) :
    ∃ n', n.applyPolicy now = some n' ∧ Fit n' now peak news := by
  obtain ⟨heldSize, sizes, recorded, held, samples⟩ :=
    SizeHistory.record_total now fit.clusterSize_le fit.sizes
  obtain ⟨stale, staleAfter, room⟩ := fit.staleAfter_total (fit.countQuorum_le now)
  have floored : ∃ til, (if n.policy = .quorum ∧ !(n.countQuorum now).2.1 then
      (n.staleAfter (n.countQuorum now).1).bind (addU64 now) else some n.flooredUntil) = some til := by
    split
    · exact ⟨now + stale, by rw [staleAfter, Option.bind_some, addU64, if_pos room]⟩
    · exact ⟨_, rfl⟩
  obtain ⟨til, floored⟩ := floored
  simp only [applyPolicy, recorded, floored, bind, Option.bind_some]
  refine Fit.refreshCap_total ?_ now
  refine { fit with sound := fit.sound.same rfl rfl, held, sizes := samples, quorum := ?_, joined := ?_ }
  · dsimp only
    split
    · exact fit.knownForQuorum_le
    · exact fit.countQuorum_le now
  · intro since same
    dsimp only at same
    split at same
    · rw [← Option.some.inj same]
    · exact fit.joined since same

theorem Fit.informedKeys_total (fit : Fit n now peak news) (keys : List UInt64) :
    ∃ informed, n.informedKeys now keys = some informed := by
  induction keys with
  | nil => exact ⟨[], rfl⟩
  | cons key rest ih =>
    obtain ⟨others, h⟩ := ih
    have hot : (n.limiter.hotSet.hotSince key).getD now ≤ now := by
      cases found : n.limiter.hotSet.hot[key]? with
      | none => simp [HotSet.hotSince, found]
      | some entry => simpa [HotSet.hotSince, found] using fit.limiter.hotSet.since key entry found
    obtain ⟨informed, h'⟩ := fit.informedSince_total (Nat.max_le.mpr ⟨hot, fit.joined_le⟩) now
    simp only [informedKeys, h', h, bind, Option.bind_some]
    exact ⟨_, rfl⟩

theorem shareSize_pos (n : Node) : 0 < n.shareSize := by
  have size : 0 < n.members.clusterSize := Nat.succ_pos _
  unfold shareSize allocationSize
  split <;> omega

theorem Fit.applyShares_total {decay : Nat → Nat → ℚ} (decays : Decays decay)
    (fit : Fit n now peak news) :
    ∃ n', n.applyShares decay now = some n' ∧ Fit n' now peak news := by
  obtain ⟨informed, h⟩ := fit.informedKeys_total (n.limiter.hotDemand.map (·.1))
  obtain ⟨alone, h'⟩ := fit.informedSince_total (Nat.le_refl now) now
  obtain ⟨limiter, shares, ticked, sound⟩ := Limiter.tickWithShares_total
    (n.delayedShare n.shareSize alone informed) decays fit.limiter (Nat.le_refl now) n.shareSize_pos
    n.peerDemand.hotElsewhere ∅
  simp only [applyShares, h, h', ticked, bind, Option.bind_some]
  exact ⟨_, rfl, { fit with sound := fit.sound.same rfl rfl, limiter := sound }⟩

theorem dropReported_total {kept now : Nat} (at' : Nat) {reports : List (Nat × List KeyDemand)}
    (made : ∀ report ∈ reports, report.1 ≤ now) (room : now + kept ≤ u64Max) :
    ∃ left, dropReported kept at' reports = some left := by
  induction reports with
  | nil => exact ⟨[], rfl⟩
  | cons first rest ih =>
    have before := made first List.mem_cons_self
    obtain ⟨left, h⟩ := ih fun report mem => made report (List.mem_cons_of_mem _ mem)
    simp only [dropReported, addU64, if_pos (show first.1 + kept ≤ u64Max by omega), bind,
      Option.bind_some]
    split
    · exact ⟨left, h⟩
    · exact ⟨_, rfl⟩

theorem Fit.reportDemand_total (fit : Fit n now peak news) :
    ∃ n', n.reportDemand now = some n' ∧ Fit n' now peak news := by
  obtain ⟨kept, h, room⟩ := fit.staleAfter_total fit.allocationSize_le
  obtain ⟨few, rates⟩ := Limiter.hotDemand_fits fit.limiter
  have own : FitsReport (n.limiter.hotDemand.map fun hot =>
      (⟨hot.1, F32.ofRat hot.2.1, hot.2.2⟩ : KeyDemand)) := by
    refine ⟨by rw [List.length_map]; exact few, fun key mem => ?_⟩
    obtain ⟨entry, listed, rfl⟩ := List.mem_map.mp mem
    exact F32.ofRat_fits (rates entry listed).1 (rates entry listed).2
  have made : ∀ report ∈ n.reported ++ [(now, n.limiter.hotDemand.map fun hot =>
      (⟨hot.1, F32.ofRat hot.2.1, hot.2.2⟩ : KeyDemand))], report.1 ≤ now := by
    intro report mem
    rcases List.mem_append.mp mem with before | last
    · exact fit.reported report before
    · rw [List.mem_singleton.mp last]
  obtain ⟨reported, dropped⟩ := dropReported_total now made room
  simp only [reportDemand, h, dropped, bind, Option.bind_some]
  refine ⟨_, rfl, { fit with sound := fit.sound.same rfl rfl, ownDemand := own, reported := ?_ }⟩
  intro report mem
  exact made report ((dropReported_spec dropped).1.subset mem)

theorem Fit.withMembers (fit : Fit n now peak news) {members : MemberTable} {news' : Nat}
    (sound : ({ n with members } : Node).Sound) (within : members.Within peak news')
    (localId : members.localId = n.members.localId) (more : news ≤ news') :
    Fit { n with members } now peak news' :=
  { fit with
    sound, within
    conflicts := fit.conflicts.trans more
    probe := fun probe pending => by
      rw [localId]
      exact fit.probe probe pending }

theorem Fit.told (fit : Fit n now peak news) {update : Update} {at' : Nat} {applied : Applied}
    {members : MemberTable} (outcome : n.members.Outcome update at' applied members)
    (taken : applied ≠ .refused) : Fit { n with members } now peak news :=
  fit.withMembers (fit.sound.outcome outcome) (outcome.within taken fit.within) outcome.localId
    (Nat.le_refl news)

theorem Fit.unprobed (fit : Fit n now peak news) : Fit { n with probe := none } now peak news :=
  { fit with sound := fit.sound.same rfl rfl, probe := by simp }

theorem Fit.missProbe_total (fit : Fit n now peak news) :
    ∃ n', n.missProbe now = some n' ∧ Fit n' now peak news := by
  unfold missProbe
  cases pending : n.probe with
  | none => exact ⟨n, rfl, fit⟩
  | some missed =>
    obtain ⟨other, _⟩ := fit.probe missed pending
    obtain ⟨suspicion, members, suspected, is⟩ := MemberTable.suspect_spec fit.sound.members other now
    simp only [suspected, bind, Option.bind_some]
    rcases is with ⟨rfl, rfl⟩ | ⟨member, applied, found, _, rfl, outcome⟩
    · exact ⟨_, rfl, fit.unprobed⟩
    · have known : n.members.members[(member.accused missed.target .suspect).member]?.isSome := by
        change n.members.members[missed.target]?.isSome = true
        rw [found]
        rfl
      refine ((fit.told outcome (outcome.not_refused known)).unprobed).spread_total ?_
      intro same
      exact absurd (same.trans outcome.localId) other

theorem Fit.openRound_total (fit : Fit n now peak news) :
    ∃ n', n.openRound now = some n' ∧ Fit n' now peak news := by
  simp only [openRound, addU64, if_pos fit.period, bind, Option.bind_some]
  exact Fit.missProbe_total { fit with sound := fit.sound.same rfl rfl }

theorem Fit.round_total {decay : Nat → Nat → ℚ} (decays : Decays decay)
    (fit : Fit n now peak news) : ∃ n', n.round decay now = some n' ∧ Fit n' now peak news := by
  obtain ⟨a, opened, fitA⟩ := fit.openRound_total
  obtain ⟨b, policy, fitB⟩ := fitA.applyPolicy_total
  obtain ⟨c, shares, fitC⟩ := fitB.applyShares_total decays
  obtain ⟨d, reported, fitD⟩ := fitC.reportDemand_total
  obtain ⟨e, followed, fitE⟩ := fitD.followChanges_total
  obtain ⟨stale, staleAfter, _⟩ := fitE.staleAfter_total fitE.allocationSize_le
  have expired : Fit { e with
      peerDemand := e.peerDemand.expire now (satAdd stale (holdOf e.policy)) } now peak news :=
    { fitE with sound := fitE.sound.same rfl rfl }
  obtain ⟨target, f, chosen, fitF, other⟩ := expired.chooseTarget_total
  simp only [round, opened, policy, shares, reported, followed, staleAfter, chosen, bind,
    Option.bind_some]
  cases target with
  | some target => exact fitF.ping_total (other target rfl)
  | none => exact ⟨f, rfl, fitF⟩

theorem Fit.escalate_total (fit : Fit n now peak news) :
    ∃ n', n.escalate now = some n' ∧ Fit n' now peak news := by
  unfold escalate
  split
  · exact ⟨n, rfl, fit⟩
  · rename_i probe pending
    obtain ⟨other, sentAt⟩ := fit.probe probe pending
    have acked : n.swim.ackTimeout < n.swim.protocolPeriod := fit.swim.2.1.2
    have period := fit.period
    split
    · exact ⟨n, rfl, fit⟩
    · simp only [addU64, if_pos (show probe.sentAt + n.swim.ackTimeout ≤ u64Max by omega), bind,
        Option.bind_some]
      split
      · exact ⟨n, rfl, fit⟩
      · generalize (n.members.live.filter fun peer =>
          peer ≠ probe.target && n.members.status peer = some .alive) = candidates
        obtain ⟨shuffled, rng, shuffles, _⟩ := n.rng.shuffle_spec candidates
        have drawn : Fit { n with rng } now peak news := { fit with sound := fit.sound.same rfl rfl }
        obtain ⟨u, asked, fitU⟩ := drawn.askHelpers_total probe.target probe.seq
          (shuffled.take n.swim.indirectProbes)
        simp only [shuffles, asked, Option.bind_some]
        refine ⟨_, rfl, { fitU with sound := fitU.sound.same rfl rfl, probe := ?_ }⟩
        intro probe' same
        obtain ⟨held, pendingU, rfl⟩ := Option.map_eq_some_iff.mp same
        exact fitU.probe held pendingU

theorem Fit.spreadAll_total (fit : Fit n now peak news) {updates : List Update}
    (sayable : ∀ update ∈ updates, Sayable n.members update) :
    ∃ n', n.spreadAll updates = some n' ∧ Fit n' now peak news := by
  induction updates generalizing n with
  | nil => exact ⟨n, rfl, fit⟩
  | cons update rest ih =>
    obtain ⟨u, first, fitU⟩ := fit.spread_total (sayable update List.mem_cons_self)
    have members : u.members = n.members := by rw [spread_frame first]
    obtain ⟨n', others, fit'⟩ := ih fitU (by
      rw [members]
      exact fun other mem => sayable other (List.mem_cons_of_mem _ mem))
    refine ⟨n', ?_, fit'⟩
    rw [spreadAll, List.foldlM_cons, first]
    exact others

theorem Fit.expireSuspects_total (fit : Fit n now peak news) {timeout : Nat} (pos : 0 < timeout) :
    ∃ expired members, n.members.expireSuspects now timeout = some (expired, members) ∧
      Fit { n with members } now peak news ∧ ∀ update ∈ expired, Sayable members update := by
  obtain ⟨members, expires, ⟨within, localId, _⟩, _⟩ := @MemberTable.expireSuspects_spec
    (fun t => t.Within peak news ∧ t.localId = n.members.localId ∧
      ∀ peer, n.members.members[peer]?.isSome → t.members[peer]?.isSome) now timeout n.members
    (fun u u' member update applied found _ _ _ held _ outcome => by
      obtain ⟨within, localId, known⟩ := held
      have here := known update.member (by rw [found]; rfl)
      exact ⟨outcome.within (outcome.not_refused here) within, outcome.localId.trans localId,
        fun peer mem => outcome.keeps_known (known peer mem)⟩)
    fit.sound.members pos ⟨fit.within, rfl, fun _ known => known⟩
  obtain ⟨wf, self, sayable⟩ := expireSuspects_sound fit.sound expires
  exact ⟨_, members, expires,
    fit.withMembers ⟨wf, fit.sound.gossip.follows self⟩ within localId (Nat.le_refl news), sayable⟩

theorem Fit.timeOut_total (fit : Fit n now peak news) :
    ∃ n', n.timeOut now = some n' ∧ Fit n' now peak news := by
  have timeout : 0 < n.swim.suspicionTimeout :=
    Nat.lt_of_lt_of_le fit.swim.1 fit.swim.2.2.1
  obtain ⟨expired, members, expires, fitA, sayable⟩ := fit.expireSuspects_total timeout
  obtain ⟨b, spreads, fitB⟩ := fitA.spreadAll_total sayable
  simp only [timeOut, expires, spreads, bind, Option.bind_some]
  refine ⟨_, rfl, ?_⟩
  have keeps := MemberTable.forgetDead_keeps fitB.sound.members now b.swim.tombstoneTtl
  have fewer : (b.members.forgetDead now b.swim.tombstoneTtl).2.known ≤ b.members.known :=
    Nat.add_le_add_right ExtTreeMap.size_filter_le_size 1
  have forgot := @Fit.withMembers b now peak news fitB (b.members.forgetDead now b.swim.tombstoneTtl).2 news
    ⟨keeps.wellFormed, fitB.sound.gossip.follows ⟨rfl, rfl, UInt32.le_refl _⟩⟩
    ⟨fewer.trans fitB.within.known, fitB.within.max, fitB.within.refused⟩ rfl (Nat.le_refl news)
  exact { forgot with sound := forgot.sound.same rfl rfl }

theorem Fit.tick_total {decay : Nat → Nat → ℚ} (decays : Decays decay) (fit : Fit n now peak news) :
    ∃ n', n.tick decay now = some n' ∧ Fit n' now peak news := by
  obtain ⟨a, timed, fitA⟩ := fit.timeOut_total
  have ran : ∃ b, (if a.nextRoundAt ≤ now then a.round decay now else some a) = some b ∧
      Fit b now peak news := by
    split
    · exact fitA.round_total decays
    · exact ⟨a, rfl, fitA⟩
  obtain ⟨b, ran, fitB⟩ := ran
  obtain ⟨n', escalated, fit'⟩ := fitB.escalate_total
  exact ⟨n', by simp only [tick, timed, ran, escalated, bind, Option.bind_some], fit'⟩

end
end Node
end Rateguard
