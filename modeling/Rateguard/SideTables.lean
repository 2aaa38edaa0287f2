import Rateguard.Departed
import Rateguard.PendingChanges
import Rateguard.RoundShares
import Rateguard.Sends

/- What a node keeps by peer and by key beside its members and its limiter, and that each of it is
   bounded: by the members it knows, by the size of its hot set, and by what one message holds. -/
namespace Rateguard
open Std (ExtTreeMap ExtTreeSet)

structure Peer.Fits (peer : Peer) : Prop where
  snapshot : ∀ snapshot, peer.snapshot = some snapshot → snapshot.keys.size ≤ maxMessageKeys
  contested : peer.contested.size ≤ maxContested

def PeerDemand.Fits (d : PeerDemand) : Prop :=
  ∀ (peer : PeerId) (entry : Peer), d.peers[peer]? = some entry → entry.Fits

theorem DemandReport.keyMap_size (report : DemandReport) :
    report.keyMap.size ≤ report.keys.length := by
  have each : ∀ (keys : List KeyDemand) (said : ReportedKeys),
      (keys.foldl (fun said key => said.insert key.keyHash (key.demand, key.primary)) said).size ≤
        said.size + keys.length := by
    intro keys
    induction keys with
    | nil =>
      intro said
      simp
    | cons key rest ih =>
      intro said
      have step := ih (said.insert key.keyHash (key.demand, key.primary))
      rw [ExtTreeMap.size_insert] at step
      simp only [List.foldl_cons, List.length_cons]
      split at step <;> omega
  unfold DemandReport.keyMap
  simpa using each report.keys ∅

theorem dropOldest_size {n : Nat} {contested left : ExtTreeMap UInt64 Contested}
    (h : dropOldest n contested = some left) : left.size = contested.size - n := by
  induction n generalizing contested with
  | zero =>
    obtain rfl := Option.some.inj h
    rfl
  | succ n ih =>
    simp only [dropOldest, bind, Option.bind_eq_some_iff] at h
    obtain ⟨oldest, found, h⟩ := h
    obtain ⟨word, held, _⟩ := oldestContested_spec found
    have listed : contested.contains oldest = true := by
      rw [ExtTreeMap.contains_eq_isSome_getElem?, held]
      rfl
    rw [ih h, ExtTreeMap.size_erase, if_pos listed]
    omega

theorem Peer.contest_fits {peer peer' : Peer} {keys : ReportedKeys} {round : UInt16}
    {heardAt : Nat} (h : peer.contest keys round heardAt = some peer') :
    peer'.snapshot = peer.snapshot ∧ peer'.contested.size ≤ maxContested := by
  obtain ⟨left, dropped, rfl⟩ := contest_some h
  have size := dropOldest_size dropped
  exact ⟨rfl, by dsimp only; omega⟩

theorem Peer.default_fits : Peer.default.Fits :=
  ⟨fun _ none => by simp [Peer.default] at none, by simp [Peer.default]⟩

theorem Peer.Takes.fits {peer peer' : Peer} {report : DemandReport} {now : Nat}
    (takes : Peer.Takes peer report now peer') (fits : peer.Fits)
    (short : report.keys.length ≤ maxMessageKeys) : peer'.Fits := by
  have keys := report.keyMap_size.trans short
  cases takes with
  | first none =>
    refine ⟨fun snapshot taken => ?_, fits.contested⟩
    obtain rfl := Option.some.inj taken
    exact keys
  | duplicate => exact fits
  | contested snapshot refused differs contest =>
    obtain ⟨same, size⟩ := contest_fits contest
    exact ⟨fun taken found => fits.snapshot taken (same ▸ found), size⟩
  | newer snapshot epoch fresh later near =>
    refine ⟨fun snapshot taken => ?_, fits.contested⟩
    obtain rfl := Option.some.inj taken
    exact keys
  | replaced pastEpochs snapshot fresh jump past contest =>
    obtain ⟨same, size⟩ := contest_fits contest
    refine ⟨fun taken found => ?_, size⟩
    obtain rfl := Option.some.inj (same.symm.trans found)
    exact keys

namespace PeerDemand

theorem Fits.apply {d d' : PeerDemand} {sender : PeerId} {report : DemandReport} {now : Nat}
    (fits : d.Fits) (short : report.keys.length ≤ maxMessageKeys)
    (h : d.apply sender report now = some d') : d'.Fits := by
  by_cases own : report.origin = sender
  · obtain ⟨taken, takes, rfl⟩ := apply_takes h own
    have before : (d.peers[sender]?.getD Peer.default).Fits := by
      cases found : d.peers[sender]? with
      | none => exact Peer.default_fits
      | some entry => exact fits sender entry found
    have after := takes.fits before short
    intro peer entry found
    rw [ExtTreeMap.getElem?_insert] at found
    split at found
    · exact (Option.some.inj found) ▸ after
    · exact fits peer entry found
  · rw [apply_other h own]
    exact fits

theorem Fits.forget {d : PeerDemand} (fits : d.Fits) (gone : PeerId) : (d.forget gone).Fits := by
  intro peer entry found
  simp only [PeerDemand.forget, ExtTreeMap.getElem?_erase] at found
  split at found
  · simp at found
  · exact fits peer entry found

theorem Fits.expire {d : PeerDemand} (fits : d.Fits) (now maxAge : Nat) :
    (d.expire now maxAge).Fits := by
  intro peer entry found
  rw [expire_get, Option.bind_eq_some_iff] at found
  obtain ⟨old, held, left⟩ := found
  have before := fits peer old held
  unfold Peer.expire at left
  dsimp only at left
  split at left
  · split at left
    · exact (Option.some.inj left) ▸ before
    · simp at left
  · split at left
    · obtain rfl := Option.some.inj left
      refine ⟨fun snapshot kept => ?_, ?_⟩
      · exact before.snapshot snapshot (Option.filter_eq_some_iff.mp kept).1
      · exact ExtTreeMap.size_filter_le_size.trans before.contested
    · simp at left

end PeerDemand

namespace Node

theorem followChanges_fits {n n' : Node} {now : Nat} (fits : n.peerDemand.Fits)
    (h : n.followChanges now = some n') : n'.peerDemand.Fits := by
  have each : ∀ (changes : List Change) (m : Node), m.peerDemand.Fits →
      changes.foldlM (fun n change => n.followChange now change) m = some n' →
      n'.peerDemand.Fits := by
    intro changes
    induction changes with
    | nil =>
      intro m fits h
      obtain rfl := Option.some.inj h
      exact fits
    | cons change rest ih =>
      intro m fits h
      simp only [List.foldlM_cons, bind, Option.bind_eq_some_iff] at h
      obtain ⟨u, first, h⟩ := h
      refine ih u (fun peer entry found => ?_) h
      rw [followChange_demand first] at found
      split at found
      · split at found
        · simp at found
        · simp only [Option.map_eq_some_iff] at found
          obtain ⟨held, before, rfl⟩ := found
          exact ⟨(fits peer held before).snapshot, (fits peer held before).contested⟩
      · exact fits peer entry found
  exact each _ { n with members := { n.members with changes := [] } } fits h

theorem storeAll_fits {d d' : PeerDemand} {stored : List (PeerId × DemandReport)} {now : Nat}
    (fits : d.Fits) (short : ∀ entry ∈ stored, entry.2.keys.length ≤ maxMessageKeys)
    (h : storeAll d stored now = some d') : d'.Fits := by
  induction stored generalizing d with
  | nil =>
    obtain rfl := Option.some.inj h
    exact fits
  | cons entry rest ih =>
    simp only [storeAll, List.foldlM_cons, bind, Option.bind_eq_some_iff] at h
    obtain ⟨u, first, h⟩ := h
    refine ih (fits.apply (short entry List.mem_cons_self) first) ?_ h
    exact fun other mem => short other (List.mem_cons_of_mem _ mem)

end Node

/- No member is forgotten. -/
def MemberTable.Recalls (t t' : MemberTable) : Prop :=
  ∀ peer : PeerId, t.members[peer]?.isSome → t'.members[peer]?.isSome

theorem MemberTable.Recalls.refl (t : MemberTable) : t.Recalls t := fun _ known => known

theorem MemberTable.Recalls.trans {t u v : MemberTable} (first : t.Recalls u)
    (second : u.Recalls v) : t.Recalls v :=
  fun peer known => second peer (first peer known)

theorem MemberTable.Outcome.recalls {t t' : MemberTable} {update : Update} {now : Nat}
    {applied : Applied} (h : t.Outcome update now applied t') : t.Recalls t' :=
  fun _ known => h.keeps_known known

theorem MemberTable.depart_recalls (t : MemberTable) (peer : PeerId) :
    t.Recalls (t.depart peer).2 := by
  intro other known
  rw [depart_members]
  simpa using known

theorem MemberTable.expireSuspects_recalls {t t' : MemberTable} {now timeout : Nat}
    {expired : List Update} (wf : t.WellFormed)
    (h : t.expireSuspects now timeout = some (expired, t')) : t.Recalls t' := by
  by_cases pos : 0 < timeout
  · obtain ⟨after, same, recalls, _⟩ := MemberTable.expireSuspects_spec (P := t.Recalls) now timeout
      (fun _ _ _ _ _ _ _ _ _ recalls _ outcome => recalls.trans outcome.recalls) wf pos (.refl t)
    rw [h, Option.some.injEq, Prod.mk.injEq] at same
    exact same.2 ▸ recalls
  · simp [expireSuspects, pos] at h

theorem MemberTable.suspect_recalls {t t' : MemberTable} {peer : PeerId} {now : Nat}
    {news : Option Update} (wf : t.WellFormed) (h : t.suspect peer now = some (news, t')) :
    t.Recalls t' := by
  by_cases own : peer = t.localId
  · simp [suspect, own] at h
  · obtain ⟨told, after, same, outcome⟩ := MemberTable.suspect_spec wf own now
    rw [h, Option.some.injEq, Prod.mk.injEq] at same
    obtain ⟨_, rfl⟩ := same
    rcases outcome with ⟨_, rfl⟩ | ⟨_, _, _, _, _, outcome⟩
    · exact .refl _
    · exact outcome.recalls

/- Members are forgotten by the time they are dead for; if none is, all are kept. -/
theorem MemberTable.forgetDead_none {t : MemberTable} {now ttl : Nat}
    (none : ¬ 0 < (t.forgetDead now ttl).1) : t.Recalls (t.forgetDead now ttl).2 := by
  have size : (t.members.filter fun _ member => member.remembered now ttl).size =
      t.members.size := by
    have fewer : (t.members.filter fun _ member => member.remembered now ttl).size ≤
        t.members.size := ExtTreeMap.size_filter_le_size
    simp only [forgetDead] at none
    omega
  have same : (t.members.filter fun _ member => member.remembered now ttl) = t.members :=
    ExtTreeMap.filter_eq_self_iff.mpr (ExtTreeMap.size_filter_eq_size_iff.mp size)
  intro peer known
  simp only [forgetDead, same]
  exact known

theorem MemberTable.status_known {t : MemberTable} {peer : PeerId} (other : peer ≠ t.localId)
    (status : (t.status peer).isSome) : t.members[peer]?.isSome := by
  simpa [MemberTable.status, other] using status

namespace Node

/- Every peer a node keeps something of beside its record is a member. -/
structure Listed (n : Node) : Prop where
  lastHeard : ∀ peer : PeerId, n.lastHeard[peer]?.isSome → n.members.members[peer]?.isSome
  behind : ∀ peer ∈ n.behind, n.members.members[peer]?.isSome
  introducing : ∀ peer : PeerId, n.introducing[peer]?.isSome → n.members.members[peer]?.isSome

theorem Listed.follows {n n' : Node} (listed : n.Listed) (recalls : n.members.Recalls n'.members)
    (lastHeard : n'.lastHeard = n.lastHeard) (behind : n'.behind = n.behind)
    (introducing : ∀ peer : PeerId, n'.introducing[peer]?.isSome → n.introducing[peer]?.isSome) :
    n'.Listed := by
  constructor
  · intro peer held
    rw [lastHeard] at held
    exact recalls peer (listed.lastHeard peer held)
  · intro peer held
    rw [behind] at held
    exact recalls peer (listed.behind peer held)
  · intro peer held
    exact recalls peer (listed.introducing peer (introducing peer held))

theorem timeOut_listed {n n' : Node} {now : Nat} (sound : n.Sound) (listed : n.Listed)
    (h : n.timeOut now = some n') : n'.Listed := by
  simp only [timeOut, bind, Option.bind_eq_some_iff, Option.some.injEq] at h
  obtain ⟨⟨expired, members⟩, expires, a, spreads, rfl⟩ := h
  have frame := spreadAll_frame spreads
  have recalls := MemberTable.expireSuspects_recalls sound.members expires
  have soundA : a.members.WellFormed := by
    rw [frame]
    exact (expireSuspects_sound sound expires).1
  have membersA : a.members = members := by rw [frame]
  have before : a.Listed := by
    rw [frame]
    exact listed.follows recalls rfl rfl fun _ => id
  have known {peer : PeerId} (was : a.members.members[peer]?.isSome)
      (left : ((a.members.forgetDead now a.swim.tombstoneTtl).2.status peer).isSome) :
      (a.members.forgetDead now a.swim.tombstoneTtl).2.members[peer]?.isSome := by
    obtain ⟨member, found⟩ := Option.isSome_iff_exists.mp was
    exact MemberTable.status_known (soundA.ne_local found) left
  constructor
  · intro peer held
    dsimp only at held ⊢
    split at held
    · rw [ExtTreeMap.getElem?_filter', Option.isSome_filter] at held
      obtain ⟨since, found, left⟩ := (Option.any_eq_true _ _).mp held
      exact known (before.lastHeard peer (found ▸ rfl)) left
    · rename_i none
      exact MemberTable.forgetDead_none none peer (before.lastHeard peer held)
  · intro peer held
    dsimp only at held ⊢
    split at held
    · rw [ExtTreeSet.mem_filter] at held
      obtain ⟨was, left⟩ := held
      rw [ExtTreeSet.get_eq] at left
      exact known (before.behind peer was) left
    · rename_i none
      exact MemberTable.forgetDead_none none peer (before.behind peer held)
  · intro peer held
    dsimp only at held ⊢
    rw [ExtTreeMap.getElem?_filter', Option.isSome_filter] at held
    obtain ⟨start, found, live⟩ := (Option.any_eq_true _ _).mp held
    have was := before.introducing peer (found ▸ rfl)
    obtain ⟨member, record⟩ := Option.isSome_iff_exists.mp was
    rw [MemberTable.forgetDead_members, record]
    have other := soundA.ne_local record
    have alive : member.status ≠ .dead := by
      simp only [isLive, MemberTable.status, other, if_false, record, Option.map_some,
        Bool.or_eq_true, decide_eq_true_eq, Option.some.injEq] at live
      rcases live with alive | suspect
      · simp [alive]
      · simp [suspect]
    simp [Member.remembered, alive]

theorem openRound_recalls {n n' : Node} {now : Nat} (sound : n.Sound)
    (h : n.openRound now = some n') : n.members.Recalls n'.members := by
  simp only [openRound, bind, Option.bind_eq_some_iff] at h
  obtain ⟨_, _, h⟩ := h
  unfold missProbe at h
  split at h
  · obtain rfl := Option.some.inj h
    exact .refl _
  · simp only [bind, Option.bind_eq_some_iff] at h
    obtain ⟨⟨suspicion, members⟩, suspected, h⟩ := h
    have recalls := MemberTable.suspect_recalls sound.members suspected
    cases suspicion with
    | none =>
      obtain rfl := Option.some.inj h
      exact recalls
    | some suspicion =>
      rw [spread_frame h]
      exact recalls

theorem round_listed {decay : Nat → Nat → ℚ} {n n' : Node} {now : Nat} (sound : n.Sound)
    (listed : n.Listed) (h : n.round decay now = some n') : n'.Listed := by
  obtain ⟨a, opened, sends⟩ := round_sends h
  obtain ⟨a', m, c, d, opened', policy, shares, _, _, frame⟩ := round_sharing h
  obtain rfl : a = a' := Option.some.inj (opened.symm.trans opened')
  rw [applyShares_frame shares, applyPolicy_frame policy] at frame
  obtain ⟨a', opened', members⟩ := round_members h
  obtain rfl : a = a' := Option.some.inj (opened.symm.trans opened')
  have frameA := (openRound_frame opened).1
  have recalls : n.members.Recalls n'.members := by
    rw [members]
    exact openRound_recalls sound opened
  refine listed.follows recalls ?_ ?_ ?_
  · rw [frame, frameA]
  · rw [frame, frameA]
  · intro peer held
    have was := sends.introducing peer held
    rw [frameA] at was
    exact was

theorem tick_listed {decay : Nat → Nat → ℚ} {n n' : Node} {now : Nat} (sound : n.Sound)
    (listed : n.Listed) (h : n.tick decay now = some n') : n'.Listed := by
  simp only [tick, bind, Option.bind_eq_some_iff] at h
  obtain ⟨b, timed, c, rounds, h⟩ := h
  have listedB := timeOut_listed sound listed timed
  have listedC : c.Listed := by
    split at rounds
    · exact round_listed (timeOut_sound sound timed) listedB rounds
    · obtain rfl := Option.some.inj rounds
      exact listedB
  have sends := escalate_sends h
  have frame := escalate_frame h
  rw [frame] at sends ⊢
  exact listedC.follows (.refl _) rfl rfl sends.introducing

/- The mark of being behind is put on a member only. -/
theorem Listed.opened {n : Node} (listed : n.Listed) {sender : PeerId}
    (other : sender ≠ n.members.localId) (message : Message) :
    ({ n with behind := if n.opensBehind sender message then n.behind.insert sender
        else n.behind.erase sender } : Node).Listed := by
  refine ⟨listed.lastHeard, ?_, listed.introducing⟩
  intro peer marked
  dsimp only at marked ⊢
  split at marked
  · rename_i behind
    rcases ExtTreeSet.mem_insert.mp marked with same | old
    · obtain rfl := Std.LawfulEqCmp.eq_of_compare same
      unfold opensBehind at behind
      split at behind
      · rename_i own held _ about
        rw [MemberTable.updateAbout, if_neg other] at about
        simpa using congrArg Option.isSome about
      · simp at behind
    · exact listed.behind peer old
  · exact listed.behind peer (ExtTreeSet.mem_of_mem_erase marked)

theorem depart_listed {n : Node} (listed : n.Listed) (peer : PeerId) : (n.depart peer).Listed := by
  have frame := depart_frame n peer
  by_cases marked : (n.members.depart peer).1 = true
  · have recalls := n.members.depart_recalls peer
    have members : (n.depart peer).members = (n.members.depart peer).2 := by rw [frame]
    have effect : (n.depart peer).lastHeard = n.lastHeard.erase peer ∧
        (n.depart peer).behind = n.behind.erase peer ∧
        (n.depart peer).introducing = n.introducing.erase peer := by
      unfold depart
      simp only [marked, Bool.not_true, Bool.false_eq_true, ↓reduceIte, and_self]
    obtain ⟨lastHeard, behind, introducing⟩ := effect
    constructor
    · intro other held
      rw [lastHeard, ExtTreeMap.getElem?_erase] at held
      rw [members]
      split at held
      · simp at held
      · exact recalls other (listed.lastHeard other held)
    · intro other held
      rw [behind] at held
      rw [members]
      exact recalls other (listed.behind other (ExtTreeSet.mem_of_mem_erase held))
    · intro other held
      rw [introducing, ExtTreeMap.getElem?_erase] at held
      rw [members]
      split at held
      · simp at held
      · exact recalls other (listed.introducing other held)
  · rw [depart_unmarked (by simpa using marked)]
    exact listed

theorem hear_listed {n n' : Node} {sender : PeerId} {newcomer : Bool} {message : Message}
    {now : Nat} (listed : n.Listed) (other : sender ≠ n.members.localId)
    (h : n.hear sender newcomer message now = some n') : n'.Listed := by
  simp only [hear, bind, Option.bind_eq_some_iff, Option.some.injEq] at h
  obtain ⟨peerDemand, _, rfl⟩ := h
  refine ⟨?_, listed.behind, ?_⟩
  · intro peer held
    dsimp only at held ⊢
    split at held
    · rename_i known
      rw [ExtTreeMap.getElem?_insert] at held
      split at held
      · rename_i same
        obtain rfl := Std.LawfulEqCmp.eq_of_compare same
        exact MemberTable.status_known other known
      · exact listed.lastHeard peer held
    · exact listed.lastHeard peer held
  · intro peer held
    dsimp only at held ⊢
    split at held
    · rename_i joined
      simp only [Bool.and_eq_true, decide_eq_true_eq] at joined
      rw [ExtTreeMap.getElem?_insert] at held
      split at held
      · rename_i same
        obtain rfl := Std.LawfulEqCmp.eq_of_compare same
        exact MemberTable.status_known other (joined.2 ▸ rfl)
      · exact listed.introducing peer held
    · exact listed.introducing peer held

theorem learnAll_recalls {n n' : Node} {updates : List Update} {now : Nat}
    (h : n.learnAll updates now = some n') (sound : n.Sound) :
    n.members.Recalls n'.members ∧ n'.members.localId = n.members.localId := by
  constructor
  · exact learnAll_table sound (fun _ _ _ _ _ held _ outcome => held.trans outcome.recalls)
      (.refl _) h
  · exact (learnAll_table sound (fun _ _ _ _ _ held _ outcome => held.trans outcome.sameSelf)
      (SameSelf.refl _) h).localId

theorem receiveMessage_listed {n n' : Node} {sender : PeerId} {message : Message} {now : Nat}
    (sound : n.Sound) (listed : n.Listed) (other : sender ≠ n.members.localId)
    (h : n.receiveMessage sender message now = some n') : n'.Listed := by
  have opened := listed.opened other message
  simp only [receiveMessage, bind, Option.bind_eq_some_iff] at h
  obtain ⟨a, learned, h⟩ := h
  have frameA := learnAll_frame learned
  obtain ⟨recalls, localId⟩ := learnAll_recalls learned (sound.same rfl rfl)
  have listedA : a.Listed := by
    rw [frameA]
    exact opened.follows recalls rfl rfl fun _ => id
  have otherA : sender ≠ a.members.localId := by
    rw [localId]
    exact other
  cases message with
  | leave updates =>
    rw [← Option.some.inj h]
    exact depart_listed listedA sender
  | ping | ack | pingReq =>
    simp only [Option.bind_eq_some_iff] at h
    obtain ⟨b, heard, h⟩ := h
    have listedB := hear_listed listedA otherA heard
    have sends := answer_sends h
    have frame := answer_frame h
    rw [frame] at sends ⊢
    exact listedB.follows (.refl _) rfl rfl sends.introducing

theorem step_listed {decay : Nat → Nat → ℚ} {n n' : Node} {op : Op} (sound : n.Sound)
    (listed : n.Listed) (h : n.step decay op = some n') : n'.Listed := by
  by_cases handles : ∃ event now, op = .handle event now
  · obtain ⟨event, now, rfl⟩ := handles
    have here : ({ n with lastNow := now, actions := [] } : Node).Listed :=
      ⟨listed.lastHeard, listed.behind, listed.introducing⟩
    have soundHere : ({ n with lastNow := now, actions := [] } : Node).Sound := sound.same rfl rfl
    obtain ⟨_, rfl | ⟨_, _, ticked⟩ | ⟨sender, _, message, _, _, other, _, _, took⟩⟩ :=
      handle_cases h
    · exact here
    · exact tick_listed soundHere here ticked
    · exact receiveMessage_listed soundHere here other took
  · have apart := step_apart sound (fun event now is => handles ⟨event, now, is⟩) h
    have recalls : n.members.Recalls n'.members := by
      rcases apart.told with ⟨same, _⟩ | ⟨_, _, _, _, outcome⟩
      · intro peer known
        rw [same]
        exact known
      · exact outcome.recalls
    rw [apart.frame]
    exact listed.follows recalls rfl rfl fun _ => id

theorem stores_said {n : Node} {sender : PeerId} {message : Message}
    {entry : PeerId × DemandReport} (mem : entry ∈ n.stores sender message) :
    entry.2 ∈ message.demand := by
  rcases List.mem_append.mp mem with own | relays
  · simp only [ownReport, Option.mem_toList, Option.map_eq_some_iff,
      Option.ite_none_right_eq_some] at own
    obtain ⟨report, ⟨_, found⟩, rfl⟩ := own
    exact List.mem_of_find?_eq_some found
  · cases message with
    | ack seq updates demand =>
      simp only [relayed, relayedReport, Option.mem_toList, Option.bind_eq_some_iff,
        Option.ite_none_right_eq_some, Option.map_eq_some_iff] at relays
      obtain ⟨probe, _, _, report, found, rfl⟩ := relays
      exact List.mem_of_find?_eq_some found
    | ping | pingReq | leave => simp [relayed] at relays

theorem tick_fits {decay : Nat → Nat → ℚ} {n n' : Node} {now : Nat} (fits : n.peerDemand.Fits)
    (h : n.tick decay now = some n') : n'.peerDemand.Fits := by
  simp only [tick, bind, Option.bind_eq_some_iff] at h
  obtain ⟨b, timed, c, rounds, h⟩ := h
  have last : n'.peerDemand = c.peerDemand := by rw [escalate_frame h]
  have first : b.peerDemand = n.peerDemand := by rw [timeOut_frame timed]
  rw [last]
  split at rounds
  · obtain ⟨_, d, e, maxAge, followed, demandD, demandC⟩ := round_demand rounds
    rw [demandC]
    refine (followChanges_fits ?_ followed).expire now maxAge
    rw [demandD, first]
    exact fits
  · obtain rfl := Option.some.inj rounds
    rw [first]
    exact fits

theorem receiveMessage_fits {n n' : Node} {sender : PeerId} {message : Message} {now : Nat}
    (fits : n.peerDemand.Fits) (limits : message.WithinLimits)
    (h : n.receiveMessage sender message now = some n') : n'.peerDemand.Fits := by
  cases message with
  | leave updates =>
    simp only [receiveMessage, bind, Option.bind_eq_some_iff] at h
    obtain ⟨a, learned, h⟩ := h
    have demand : a.peerDemand = n.peerDemand := by rw [learnAll_frame learned]
    rw [← Option.some.inj h]
    by_cases marked : (a.members.depart sender).1 = true
    · simp only [depart, marked, Bool.not_true, Bool.false_eq_true, ↓reduceIte, demand]
      exact fits.forget sender
    · rw [depart_unmarked (by simpa using marked), demand]
      exact fits
  | ping | ack | pingReq =>
    obtain ⟨learned, _, stored, _⟩ := receiveMessage_stores (by simp) h
    refine storeAll_fits fits ?_ stored
    intro entry mem
    exact limits.keys entry.2 (stores_said mem)

theorem step_fits {decay : Nat → Nat → ℚ} {n n' : Node} {op : Op} (sound : n.Sound)
    (fits : n.peerDemand.Fits) (h : n.step decay op = some n') : n'.peerDemand.Fits := by
  by_cases handles : ∃ event now, op = .handle event now
  · obtain ⟨event, now, rfl⟩ := handles
    have here : ({ n with lastNow := now, actions := [] } : Node).peerDemand.Fits := fits
    obtain ⟨_, rfl | ⟨_, _, ticked⟩ | ⟨sender, _, message, _, _, _, decoded, _, took⟩⟩ :=
      handle_cases h
    · exact here
    · exact tick_fits here ticked
    · exact receiveMessage_fits here (decode_limits decoded) took
  · rw [(step_apart sound (fun event now is => handles ⟨event, now, is⟩) h).peerDemand]
    exact fits

/- What is dropped of the reports is the oldest, and what is left dates from the time kept. -/
theorem dropReported_spec {kept now : Nat} {reports left : List (Nat × List KeyDemand)}
    (h : dropReported kept now reports = some left) :
    left.Sublist reports ∧ ∀ first ∈ left.head?, now ≤ first.1 + kept := by
  induction reports with
  | nil =>
    obtain rfl := Option.some.inj h
    exact ⟨.refl _, by simp⟩
  | cons first rest ih =>
    simp only [dropReported, bind, Option.bind_eq_some_iff, addU64_eq_some] at h
    obtain ⟨due, ⟨_, rfl⟩, h⟩ := h
    split at h
    · obtain ⟨sublist, since⟩ := ih h
      exact ⟨sublist.cons first, since⟩
    · rename_i recent
      obtain rfl := Option.some.inj h
      refine ⟨.refl _, fun oldest is => ?_⟩
      obtain rfl := Option.some.inj is
      omega

/- What a round adds to the reports kept, and what it leaves of them. -/
theorem reportDemand_reported {n n' : Node} {now : Nat} (h : n.reportDemand now = some n') :
    ∃ own stale, own.length = n.limiter.hotDemand.length ∧
      staleAfterRounds n.allocationSize = some stale ∧
      n'.reported.Sublist (n.reported ++ [(now, own)]) ∧
      ∀ first ∈ n'.reported.head?, now ≤ first.1 + stale * n.swim.protocolPeriod := by
  simp only [reportDemand, staleAfter, bind, Option.bind_eq_some_iff, Option.some.injEq,
    mulU64_eq_some] at h
  obtain ⟨_, ⟨stale, rounds, _, rfl⟩, left, dropped, rfl⟩ := h
  obtain ⟨sublist, since⟩ := dropReported_spec dropped
  exact ⟨_, stale, List.length_map _, rounds, sublist, since⟩

end Node

/- Times a period apart: as many fit before a time as periods lie between. -/
theorem spaced_span {period last first : Nat} {rest : List Nat}
    (spaced : (first :: rest).Pairwise (· + period ≤ ·)) (past : ∀ time ∈ first :: rest, time ≤ last) :
    first + rest.length * period ≤ last := by
  induction rest generalizing first with
  | nil => simpa using past first (by simp)
  | cons second rest ih =>
    obtain ⟨apart, spaced⟩ := List.pairwise_cons.mp spaced
    have step := ih spaced fun time mem => past time (List.mem_cons_of_mem _ mem)
    have gap := apart second List.mem_cons_self
    have grown : (second :: rest).length * period = rest.length * period + period := by
      rw [List.length_cons, Nat.succ_mul]
    omega

def noteSize (n : Node) (size : Option Nat) (op : Op) : Option Nat :=
  match n.sharingIn op with
  | some (m, _) => some m.allocationSize
  | none => size

structure KeepsReports (n : Node) (size : Option Nat) : Prop where
  spaced : (n.reported.map Prod.fst).Pairwise (· + n.swim.protocolPeriod ≤ ·)
  past : ∀ report ∈ n.reported, report.1 + n.swim.protocolPeriod ≤ n.nextRoundAt
  keys : ∀ report ∈ n.reported, report.2.length ≤ n.limiter.config.hotSetSize
  none : size = none → n.reported = []
  count : ∀ last, size = some last → ∃ stale, staleAfterRounds last = some stale ∧
    n.reported.length ≤ stale + 1

theorem KeepsReports.round {decay : Nat → Nat → ℚ} {n a m c d n' : Node} {now : Nat}
    {size : Option Nat} (keeps : KeepsReports n size) (runs : Node.Runs decay n a m c d n' now)
    (tidy : n.limiter.Tidy n.lastNow) (positive : 0 < n.swim.protocolPeriod)
    (swim : n'.swim = n.swim) : KeepsReports n' (some m.allocationSize) := by
  have atPolicy := Node.applyPolicy_frame runs.policy
  have atShares := Node.applyShares_frame runs.shares
  obtain ⟨shared, tidyC⟩ := Node.applyShares_shares (runs.begun.tidy runs.policy tidy) runs.shares
  have config : c.limiter.config = n.limiter.config := by
    rw [shared.config, atPolicy]
    dsimp only
    rw [runs.begun.limiter]
  have reported : c.reported = n.reported := by
    rw [atShares, atPolicy]
    exact runs.begun.reported
  have period : c.swim = n.swim := by
    rw [atShares, atPolicy]
    exact runs.begun.swim
  have sized : c.allocationSize = m.allocationSize := by rw [atShares]; rfl
  obtain ⟨own, stale, length, rounds, sublist, since⟩ := Node.reportDemand_reported runs.report
  rw [reported] at sublist
  rw [sized] at rounds
  rw [period] at since
  have ends : ∀ report ∈ n.reported ++ [(now, own)], report.1 ≤ now := by
    intro report mem
    rcases List.mem_append.mp mem with old | new
    · have := keeps.past report old
      have := runs.due
      omega
    · rw [List.mem_singleton] at new
      rw [new]
  have spaced : ((n.reported ++ [(now, own)]).map Prod.fst).Pairwise
      (· + n.swim.protocolPeriod ≤ ·) := by
    rw [List.map_append, List.pairwise_append]
    refine ⟨keeps.spaced, by simp, ?_⟩
    intro time old last new
    obtain ⟨report, mem, rfl⟩ := List.mem_map.mp old
    obtain rfl : last = now := by simpa using new
    exact (keeps.past report mem).trans runs.due
  have keys : ∀ report ∈ n.reported ++ [(now, own)],
      report.2.length ≤ n.limiter.config.hotSetSize := by
    intro report mem
    rcases List.mem_append.mp mem with old | new
    · exact keeps.keys report old
    · rw [List.mem_singleton] at new
      rw [new, length, ← config, ← tidyC.size]
      exact (Limiter.hotDemand_length tidyC.distinct).trans tidyC.hotSet.fits
  have kept := runs.reported
  constructor
  · rw [kept, swim]
    exact spaced.sublist (sublist.map _)
  · intro report mem
    rw [kept] at mem
    rw [swim, runs.nextRoundAt]
    exact Nat.add_le_add_right (ends report (sublist.subset mem)) _
  · intro report mem
    rw [kept] at mem
    rw [runs.limiter, config]
    exact keys report (sublist.subset mem)
  · intro none
    simp at none
  · intro last same
    obtain rfl := Option.some.inj same
    refine ⟨stale, rounds, ?_⟩
    rw [kept]
    cases left : d.reported with
    | nil => simp
    | cons first rest =>
      rw [left] at sublist since
      have span := @spaced_span _ now _ _ (spaced.sublist (sublist.map _)) fun time mem => by
        rw [← List.map_cons] at mem
        obtain ⟨report, listed, rfl⟩ := List.mem_map.mp mem
        exact ends report (sublist.subset listed)
      have late := since first rfl
      rw [List.length_map] at span
      have few : rest.length * n.swim.protocolPeriod ≤ stale * n.swim.protocolPeriod := by omega
      have := Nat.le_of_mul_le_mul_right few positive
      simp only [List.length_cons]
      omega

structure Bookkept (n : Node) (size : Option Nat) : Prop where
  listed : n.Listed
  demand : n.peerDemand.Fits
  recent : ∀ key, n.recentShares[key]?.isSome → n.limiter.hotSet.isHot key = true
  reports : KeepsReports n size

theorem Bookkept.step {decay : Nat → Nat → ℚ} {n n' : Node} {size : Option Nat} {op : Op}
    (kept : Bookkept n size) (reached : Reachable decay n) (h : n.step decay op = some n') :
    Bookkept n' (noteSize n size op) := by
  have listed := Node.step_listed reached.sound kept.listed h
  have demand := Node.step_fits reached.sound kept.demand h
  have swim := (Node.step_policy reached.sound op h).swim
  cases Node.step_shared h with
  | idle none idles =>
    simp only [noteSize, Node.sharingIn, none, bind, Option.bind_none]
    refine ⟨listed, demand, ?_, ?_⟩
    · rw [idles.recentShares, idles.grows.hotSet]
      exact kept.recent
    · have reports := kept.reports
      constructor
      · rw [idles.reported, swim]
        exact reports.spaced
      · rw [idles.reported, swim, idles.nextRoundAt]
        exact reports.past
      · rw [idles.reported, idles.grows.config]
        exact reports.keys
      · rw [idles.reported]
        exact reports.none
      · rw [idles.reported]
        exact reports.count
  | round a m c d now found runs =>
    simp only [noteSize, Node.sharingIn, found, runs.policy, bind, Option.bind_some]
    have tidy := runs.begun.tidy runs.policy reached.tidy
    have shared := (Node.applyShares_shares tidy runs.shares).1
    refine ⟨listed, demand, ?_, ?_⟩
    · intro key held
      rw [runs.recentShares] at held
      rw [runs.limiter, shared.hot]
      cases made : m.roundShare decay now key with
      | none =>
        rw [shared.gone key made] at held
        simp at held
      | some share => rfl
    · exact kept.reports.round runs reached.tidy reached.swim_valid.1 swim

theorem Recorded.bookkept {decay : Nat → Nat → ℚ} {n : Node} {size : Option Nat}
    (h : Recorded decay noteSize none (fun _ _ _ => True) n size) : Bookkept n size := by
  induction h with
  | start config swim localId addr seed n h =>
    unfold Node.new at h
    split at h
    · simp only [bind, Option.bind_eq_some_iff, Option.some.injEq] at h
      obtain ⟨members, _, limiter, _, rfl⟩ := h
      refine ⟨⟨?_, ?_, ?_⟩, ?_, ?_, ⟨?_, ?_, ?_, ?_, ?_⟩⟩ <;> simp [PeerDemand.Fits, PeerDemand.new]
    · simp at h
  | step n size op n' run _ h kept => exact kept.step run.reachable h

/-- What a node keeps by peer and by key is bounded. In every run, after any datagrams, checks and
    ticks: whoever it has heard of, marked as behind or is introducing is a member; recent shares
    are of hot keys, of which there are no more than the hot set holds; of its own reports it keeps
    as many rounds as word takes to go stale in a cluster of the size the last round went by, and
    one, each of no more keys than the hot set holds; and of each peer's demand no more than a
    message holds, and four times as many contested keys. -/
theorem bookkeeping_bounded (decay : Nat → Nat → ℚ) (n : Node) (size : Option Nat)
    (run : Recorded decay noteSize none (fun _ _ _ => True) n size) :
    (∀ peer : PeerId, (n.lastHeard[peer]?.isSome ∨ peer ∈ n.behind ∨
      n.introducing[peer]?.isSome) → n.members.members[peer]?.isSome) ∧
    (∀ key, n.recentShares[key]?.isSome → n.limiter.hotSet.isHot key = true) ∧
    n.limiter.hotSet.hot.size ≤ n.limiter.config.hotSetSize ∧
    (size = none → n.reported = []) ∧
    (∀ last, size = some last → ∃ stale, staleAfterRounds last = some stale ∧
      n.reported.length ≤ stale + 1) ∧
    (∀ report ∈ n.reported, report.2.length ≤ n.limiter.config.hotSetSize) ∧
    (∀ (peer : PeerId) (entry : Peer), n.peerDemand.peers[peer]? = some entry →
      (∀ snapshot, entry.snapshot = some snapshot → snapshot.keys.size ≤ 64) ∧
        entry.contested.size ≤ 256) := by
  obtain ⟨listed, demand, recent, reports⟩ := run.bookkept
  have tidy := run.reachable.tidy
  refine ⟨?_, recent, tidy.size ▸ tidy.hotSet.fits, reports.none, reports.count, reports.keys, ?_⟩
  · intro peer kept
    rcases kept with heard | behind | introducing
    · exact listed.lastHeard peer heard
    · exact listed.behind peer behind
    · exact listed.introducing peer introducing
  · intro peer entry found
    have fits := demand peer entry found
    exact ⟨fits.snapshot, fits.contested⟩

/- Two rounds of a node that hears a report of a newcomer between them. -/
def bookkeptRun : Option (Node × Option Nat) := do
  let start ← Node.sample 0 0
  Node.runRecorded sampleDecay noteSize (fun _ _ _ => True) start none
    [.handle .tick 0, .record 7 ⟨40, 0, 0⟩ ⟨100, 10⟩ (ms 100),
      sampleOp 1 (.ack 0 [⟨1, sampleAddress 1, 0, .alive⟩] []) (ms 150), .handle .tick (ms 200)]

theorem bookkeptRun_keeps : (bookkeptRun.any fun (n, size) =>
    size == some 2 && n.lastHeard.contains 1 && decide (n.reported.length = 2)) = true := by
  decide +kernel

theorem bookkeeping_bounded_heard : ∃ n, bookkeptRun = some (n, some 2) ∧
    n.lastHeard[(1 : PeerId)]?.isSome ∧ n.members.members[(1 : PeerId)]?.isSome ∧
      ∃ stale, staleAfterRounds 2 = some stale ∧ n.reported.length = 2 ∧ 2 ≤ stale + 1 := by
  obtain ⟨⟨n, size⟩, ran, checked⟩ := (Option.any_eq_true _ _).mp bookkeptRun_keeps
  simp only [Bool.and_eq_true, beq_iff_eq, decide_eq_true_eq] at checked
  obtain ⟨⟨rfl, heard⟩, rounds⟩ := checked
  have same := ran
  simp only [bookkeptRun, bind, Option.bind_eq_some_iff] at ran
  obtain ⟨start, fresh, ran⟩ := ran
  have run := Recorded.run (.start _ _ _ _ _ start fresh) ran
  obtain ⟨known, _, _, _, count, _⟩ := bookkeeping_bounded sampleDecay n (some 2) run
  rw [ExtTreeMap.contains_eq_isSome_getElem?] at heard
  obtain ⟨stale, periods, fits⟩ := count 2 rfl
  exact ⟨n, same, heard, known 1 (.inl heard), stale, periods, rounds, rounds ▸ fits⟩

end Rateguard
