import Rateguard.Rounds
import Rateguard.Stores
import Rateguard.PendingChanges
import Rateguard.Tables

/- A departed peer: what a node still holds of it, and that outdated news of it changes nothing
   more. A node that has left says nothing. -/
namespace Rateguard
open Std (ExtTreeMap ExtTreeSet)

/- Every departed record of t' was there in t. -/
def DepartedBefore (t t' : MemberTable) : Prop :=
  ∀ (peer : PeerId) (member : Member), t'.members[peer]? = some member →
    member.departed = true → t.members[peer]? = some member

theorem DepartedBefore.refl (t : MemberTable) : DepartedBefore t t := fun _ _ found _ => found

theorem DepartedBefore.trans {t u v : MemberTable} (first : DepartedBefore t u)
    (second : DepartedBefore u v) : DepartedBefore t v :=
  fun peer member found departed => first peer member (second peer member found departed) departed

/- News of a peer leaves it not departed. -/
theorem MemberTable.Outcome.departedBefore {t t' : MemberTable} {update : Update} {now : Nat}
    {applied : Applied} (h : t.Outcome update now applied t') : DepartedBefore t t' := by
  intro peer member found departed
  cases h with
  | taken =>
    rw [ExtTreeMap.getElem?_insert] at found
    split at found
    · rw [← Option.some.inj found] at departed
      simp [record] at departed
    · exact found
  | _ => exact found

theorem MemberTable.forgetDead_departedBefore (t : MemberTable) (now ttl : Nat) :
    DepartedBefore t (t.forgetDead now ttl).2 := by
  intro peer member found _
  rw [forgetDead_members, Option.filter_eq_some_iff] at found
  exact found.1

/- What a node holds of a departed peer: a dead record, and neither demand nor the mark of
   being behind. -/
structure Node.HoldsNone (n : Node) (peer : PeerId) (member : Member) : Prop where
  dead : member.status = .dead
  silent : n.peerDemand.peers[peer]? = none
  level : peer ∉ n.behind

structure Node.Released (n : Node) : Prop where
  departed : ∀ (peer : PeerId) (member : Member), n.members.members[peer]? = some member →
    member.departed = true → n.HoldsNone peer member

namespace Node

theorem Released.follows {n n' : Node} (released : n.Released)
    (before : DepartedBefore n.members n'.members)
    (demand : ∀ peer : PeerId, n.peerDemand.peers[peer]? = none →
      n'.peerDemand.peers[peer]? = none)
    (behind : ∀ peer, peer ∉ n.behind → peer ∉ n'.behind) :
    n'.Released := by
  constructor
  intro peer member found departed
  have holds := released.departed peer member (before peer member found departed) departed
  exact ⟨holds.dead, demand peer holds.silent, behind peer holds.level⟩

theorem Released.same {n n' : Node} (released : n.Released)
    (before : DepartedBefore n.members n'.members) (demand : n'.peerDemand = n.peerDemand)
    (behind : n'.behind = n.behind) : n'.Released :=
  released.follows before (fun _ silent => by rw [demand]; exact silent)
    fun _ level => by rw [behind]; exact level

/- Acting on the changes puts nothing in the store, nor does expiring. -/
theorem followChanges_absent {n n' : Node} {now : Nat} (h : n.followChanges now = some n')
    {peer : PeerId} (absent : n.peerDemand.peers[peer]? = none) :
    n'.peerDemand.peers[peer]? = none := by
  have each : ∀ (changes : List Change) (m : Node), m.peerDemand.peers[peer]? = none →
      changes.foldlM (fun n change => n.followChange now change) m = some n' →
      n'.peerDemand.peers[peer]? = none := by
    intro changes
    induction changes with
    | nil =>
      intro m silent h
      simp only [List.foldlM_nil, Option.pure_def, Option.some.injEq] at h
      exact h ▸ silent
    | cons change rest ih =>
      intro m silent h
      simp only [List.foldlM_cons, bind, Option.bind_eq_some_iff] at h
      obtain ⟨u, first, h⟩ := h
      refine ih u ?_ h
      rw [followChange_demand first peer, silent]
      simp
  exact each _ { n with members := { n.members with changes := [] } } absent h

theorem expire_absent {d : PeerDemand} {now maxAge : Nat} {peer : PeerId}
    (absent : d.peers[peer]? = none) : (d.expire now maxAge).peers[peer]? = none := by
  simp [PeerDemand.expire, absent]

/- A round's demand is what acting on the changes left, expired. -/
theorem round_demand {decay : Nat → Nat → ℚ} {n n' : Node} {now : Nat}
    (h : n.round decay now = some n') :
    n'.behind = n.behind ∧ ∃ (d e : Node) (maxAge : Nat), d.followChanges now = some e ∧
      d.peerDemand = n.peerDemand ∧ n'.peerDemand = e.peerDemand.expire now maxAge := by
  simp only [round, bind, Option.bind_eq_some_iff] at h
  obtain ⟨a, opened, b, policy, c, shares, d, reported, e, followed, stale, _, ⟨target, f⟩,
    chosen, h⟩ := h
  have frameD : d.peerDemand = n.peerDemand ∧ d.behind = n.behind := by
    rw [reportDemand_frame reported, applyShares_frame shares, applyPolicy_frame policy,
      (openRound_frame opened).1]
    exact ⟨rfl, rfl⟩
  have frameF : f.peerDemand = e.peerDemand.expire now (satAdd stale (holdOf e.policy)) ∧
      f.behind = n.behind := by
    rw [chooseTarget_frame chosen]
    refine ⟨rfl, ?_⟩
    dsimp only
    rw [followChanges_frame followed]
    exact frameD.2
  have last : n'.peerDemand = f.peerDemand ∧ n'.behind = f.behind := by
    dsimp only at h
    split at h
    · rw [ping_frame h]
      exact ⟨rfl, rfl⟩
    · exact (Option.some.inj h) ▸ ⟨rfl, rfl⟩
  exact ⟨last.2.trans frameF.2, d, e, _, followed, frameD.1, last.1.trans frameF.1⟩

theorem tick_released {decay : Nat → Nat → ℚ} {n n' : Node} {now : Nat} (sound : n.Sound)
    (released : n.Released) (h : n.tick decay now = some n') : n'.Released := by
  have before : DepartedBefore n.members n'.members := by
    refine tick_table (.of_news ?_ ?_ ?_) sound (.refl _) h
    · exact fun _ _ _ _ _ held outcome => held.trans outcome.departedBefore
    · exact fun t now ttl held => held.trans (t.forgetDead_departedBefore now ttl)
    · exact fun _ held => held
  simp only [tick, bind, Option.bind_eq_some_iff] at h
  obtain ⟨b, timed, c, rounds, h⟩ := h
  have frame := timeOut_frame timed
  have behindB : ∀ peer, peer ∉ n.behind → peer ∉ b.behind := by
    simp only [timeOut, bind, Option.bind_eq_some_iff, Option.some.injEq] at timed
    obtain ⟨⟨expired, members⟩, _, a, spreads, rfl⟩ := timed
    intro peer level
    have same : a.behind = n.behind := by rw [spreadAll_frame spreads]
    dsimp only
    split
    · intro mem
      have kept := ExtTreeSet.mem_of_mem_filter mem
      exact level (same ▸ kept)
    · rw [same]
      exact level
  have demandB : b.peerDemand = n.peerDemand := by rw [frame]
  have later : n'.peerDemand = c.peerDemand ∧ n'.behind = c.behind := by
    rw [escalate_frame h]
    exact ⟨rfl, rfl⟩
  split at rounds
  · obtain ⟨behindC, d, e, maxAge, followed, demandD, demandC⟩ := round_demand rounds
    refine released.follows before ?_ ?_
    · intro peer silent
      rw [later.1, demandC]
      refine expire_absent (followChanges_absent followed ?_)
      rw [demandD, demandB]
      exact silent
    · intro peer level
      rw [later.2, behindC]
      exact behindB peer level
  · obtain rfl := Option.some.inj rounds
    refine released.follows before ?_ ?_
    · intro peer silent
      rw [later.1, demandB]
      exact silent
    · intro peer level
      rw [later.2]
      exact behindB peer level

/- The mark of being behind is never put on the departed: a dead peer is not behind. -/
theorem Released.opened {n : Node} (sound : n.Sound) (released : n.Released) (sender : PeerId)
    (message : Message) :
    ({ n with behind := if n.opensBehind sender message then n.behind.insert sender
        else n.behind.erase sender } : Node).Released := by
  constructor
  intro peer member found departed
  have holds := released.departed peer member found departed
  refine ⟨holds.dead, holds.silent, ?_⟩
  have distinct := sound.members.ne_local found
  have dead : peer = sender → n.opensBehind sender message = false := by
    rintro rfl
    unfold opensBehind
    split
    · rename_i own held _ about
      rw [MemberTable.updateAbout, if_neg distinct, found, Option.map_some] at about
      obtain rfl := Option.some.inj about
      simp [Member.update, holds.dead]
    · rfl
  dsimp only
  intro mem
  split at mem
  · rename_i behind
    rcases ExtTreeSet.mem_insert.mp mem with same | old
    · have own := Std.LawfulEqCmp.eq_of_compare same
      rw [dead own.symm] at behind
      simp at behind
    · exact holds.level old
  · exact holds.level (ExtTreeSet.mem_of_mem_erase mem)

theorem learnAll_released {n n' : Node} {updates : List Update} {now : Nat} (sound : n.Sound)
    (released : n.Released) (h : n.learnAll updates now = some n') : n'.Released := by
  have frame := learnAll_frame h
  refine released.same ?_ (by rw [frame]) (by rw [frame])
  exact learnAll_table sound (fun _ _ _ _ _ held _ outcome => held.trans outcome.departedBefore)
    (.refl _) h

/- What is stored is stored under peers that have not departed. -/
theorem stores_present {n : Node} {sender : PeerId} {message : Message}
    {entry : PeerId × DemandReport} (mem : entry ∈ n.stores sender message) :
    n.members.hasDeparted entry.1 = false := by
  rcases List.mem_append.mp mem with own | relays
  · simp only [ownReport, Option.mem_toList, Option.map_eq_some_iff,
      Option.ite_none_right_eq_some, Bool.and_eq_true, Bool.not_eq_true'] at own
    obtain ⟨report, ⟨⟨_, present⟩, _⟩, rfl⟩ := own
    exact present
  · cases message with
    | ack seq updates demand =>
      simp only [relayed, relayedReport, Option.mem_toList, Option.bind_eq_some_iff,
        Option.ite_none_right_eq_some, Option.map_eq_some_iff, Bool.and_eq_true,
        Bool.not_eq_true'] at relays
      obtain ⟨probe, _, ⟨_, present⟩, report, _, rfl⟩ := relays
      exact present
    | ping | pingReq | leave => simp [relayed] at relays

theorem depart_released {n : Node} (released : n.Released) (peer : PeerId) :
    (n.depart peer).Released := by
  by_cases marked : (n.members.depart peer).1 = true
  · constructor
    intro other member found departed
    have members : (n.depart peer).members = (n.members.depart peer).2 := by
      rw [depart_frame n peer]
    rw [members, MemberTable.depart_members, Option.map_eq_some_iff] at found
    obtain ⟨held, before, is⟩ := found
    have effect : (n.depart peer).peerDemand = n.peerDemand.forget peer ∧
        (n.depart peer).behind = n.behind.erase peer := by
      unfold depart
      simp only [marked, Bool.not_true, Bool.false_eq_true, ↓reduceIte, true_and]
    by_cases same : other = peer
    · subst same
      rw [MemberTable.depart_marks, before, Option.any_some] at marked
      simp only [Bool.and_eq_true, decide_eq_true_eq] at marked
      refine ⟨?_, ?_, ?_⟩
      · rw [← is, if_pos ⟨rfl, marked.1⟩]
        exact marked.1
      · rw [effect.1, PeerDemand.forget_get, if_pos rfl]
      · rw [effect.2, ExtTreeSet.mem_erase]
        simp
    · rw [if_neg fun marks => same marks.1] at is
      subst is
      have holds := released.departed other held before departed
      refine ⟨holds.dead, ?_, ?_⟩
      · rw [effect.1, PeerDemand.forget_get, if_neg (Ne.symm same)]
        exact holds.silent
      · rw [effect.2]
        exact fun mem => holds.level (ExtTreeSet.mem_of_mem_erase mem)
  · rw [depart_unmarked (by simpa using marked)]
    exact released

theorem heard_released {n m n' : Node} {sender : PeerId} {newcomer : Bool} {message : Message}
    {now : Nat} (released : n.Released) (heard : n.hear sender newcomer message now = some m)
    (h : m.answer sender message now = some n') : n'.Released := by
  have frameM := hear_frame heard
  have frame := answer_frame h
  constructor
  intro peer member found departed
  have there : n.members.members[peer]? = some member := by
    rw [← found, frame, frameM]
  have holds := released.departed peer member there departed
  refine ⟨holds.dead, ?_, ?_⟩
  · have stored := storeAll_append n.peerDemand ((n.ownReport sender message).map (sender, ·)).toList
      (m.relayed sender message) now
    rw [hear_stores heard, Option.bind_some, answer_stores h] at stored
    rw [storeAll_other stored, holds.silent]
    intro entry mem same
    have mine : entry ∈ n.stores sender message := by
      rw [frameM] at mem
      exact mem
    have present := stores_present mine
    rw [same] at present
    simp [MemberTable.hasDeparted, there, departed] at present
  · rw [frame]
    dsimp only
    rw [frameM]
    exact holds.level

theorem receiveMessage_released {n n' : Node} {sender : PeerId} {message : Message} {now : Nat}
    (sound : n.Sound) (released : n.Released)
    (h : n.receiveMessage sender message now = some n') : n'.Released := by
  have opened := released.opened sound sender message
  simp only [receiveMessage, bind, Option.bind_eq_some_iff] at h
  obtain ⟨a, learned, h⟩ := h
  have releasedA : a.Released := by
    refine learnAll_released ?_ opened learned
    exact sound.same rfl rfl
  cases message with
  | leave updates =>
    rw [← Option.some.inj h]
    exact depart_released releasedA sender
  | ping | ack | pingReq =>
    simp only [Option.bind_eq_some_iff] at h
    obtain ⟨b, heard, h⟩ := h
    exact heard_released releasedA heard h

theorem handle_released {decay : Nat → Nat → ℚ} {n n' : Node} {event : Event} {now : Nat}
    (sound : n.Sound) (released : n.Released) (h : n.handle decay event now = some n') :
    n'.Released := by
  simp only [handle, bind, Option.bind_eq_some_iff] at h
  obtain ⟨a, advanced, h⟩ := h
  obtain ⟨_, rfl⟩ := advance_some advanced
  have opened : ({ n with lastNow := now, actions := [] } : Node).Released :=
    released.same (.refl _) rfl rfl
  split at h
  · exact (Option.some.inj h) ▸ opened
  · cases event with
    | tick =>
      refine tick_released ?_ opened h
      exact sound.same rfl rfl
    | messageReceived sender bytes =>
      simp only [receive] at h
      split at h
      · exact (Option.some.inj h) ▸ opened
      · split at h
        · exact (Option.some.inj h) ▸ opened
        · split at h
          · refine receiveMessage_released ?_ opened h
            exact sound.same rfl rfl
          · exact (Option.some.inj h) ▸ opened

theorem Apart.departedBefore {n n' : Node} (apart : Apart n n') :
    DepartedBefore n.members n'.members := by
  rcases apart.told with ⟨same, _⟩ | ⟨peer, addr, applied, _, outcome⟩
  · intro peer member found _
    rw [← same]
    exact found
  · exact outcome.departedBefore

theorem step_released {decay : Nat → Nat → ℚ} {n n' : Node} (sound : n.Sound)
    (released : n.Released) {op : Op} (h : n.step decay op = some n') : n'.Released := by
  by_cases handles : ∃ event now, op = .handle event now
  · obtain ⟨event, now, rfl⟩ := handles
    exact handle_released sound released h
  · have apart := step_apart sound (fun event now is => handles ⟨event, now, is⟩) h
    exact released.same apart.departedBefore apart.peerDemand apart.behind

theorem new_released {config : Config} {swim : SwimConfig} {localId : PeerId} {addr : Address}
    {seed : UInt64} {n : Node} (h : Node.new config swim localId addr seed = some n) :
    n.Released := by
  unfold Node.new at h
  split at h
  · simp only [MemberTable.setMax, bind, Option.bind_eq_some_iff, Option.ite_none_right_eq_some,
      Option.some.injEq] at h
    obtain ⟨members, ⟨_, rfl⟩, limiter, _, rfl⟩ := h
    constructor
    intro peer member found
    simp [MemberTable.new] at found
  · simp at h

end Node

theorem Reachable.released {decay : Nat → Nat → ℚ} {n : Node} (reached : Reachable decay n) :
    n.Released := by
  induction reached with
  | start config swim localId addr seed n h => exact Node.new_released h
  | step n op n' before h released => exact Node.step_released before.sound released h

end Rateguard
