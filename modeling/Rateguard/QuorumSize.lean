import Rateguard.Rounds

/- The size a majority is counted against, while a node is without a quorum. -/
namespace Rateguard
open Std (ExtTreeMap)
open AscendingList

/- The members counted for a quorum: the node, the live, and the dead not departed. -/
def Node.quorumMembers (n : Node) : Finset PeerId :=
  insert n.members.localId
    (n.members.live ++ n.members.dead.filter fun peer => !n.members.hasDeparted peer).toFinset

/- The members counted at the last round with a quorum, and those of any whose leave was accepted
   since. -/
structure Remembered where
  members : Finset PeerId
  left : Finset PeerId

def Remembered.floor (s : Remembered) : Nat := s.members.card - (s.members ∩ s.left).card

def Remembered.remaining (s : Remembered) : Finset PeerId := s.members \ s.left

def Remembered.without (s : Remembered) (peer : PeerId) : Remembered :=
  { s with left := insert peer s.left }

/- Whether a node without a quorum still remembers the size it had one of. -/
def Node.Remembers (n : Node) (now : Nat) : Prop :=
  now - n.withoutQuorumSince.getD now < n.quorumMemory

instance (n : Node) (now : Nat) : Decidable (n.Remembers now) :=
  inferInstanceAs (Decidable (_ < _))

def noteQuorum (n : Node) (remembered : Option Remembered) : Op → Option Remembered
  | .handle .tick now =>
    match n.roundState now with
    | some m =>
      if (m.countQuorum now).2.1 then some ⟨m.quorumMembers, ∅⟩
      else if m.Remembers now then remembered else none
    | none => remembered
  | .handle (.messageReceived sender bytes) _ =>
    match n.acceptedLeave (.messageReceived sender bytes) with
    | some peer => remembered.map (·.without peer)
    | none => remembered
  | _ => remembered

/- Whether the size may be lowered for an accepted leave: its sender was counted and has not been
   taken out since, or the size, or the members still known, are enough without it. -/
def LeaveRemembered (n : Node) (remembered : Option Remembered) : Op → Prop
  | .handle event _ => ∀ peer, n.acceptedLeave event = some peer → ∀ s, remembered = some s →
    peer ∈ s.remaining ∨ s.remaining.card < n.quorumSize ∨
      s.remaining.card ≤ (n.quorumMembers.erase peer).card
  | _ => True

instance (n : Node) (remembered : Option Remembered) (op : Op) :
    Decidable (LeaveRemembered n remembered op) :=
  match op with
  | .handle event _ =>
    decidable_of_iff
      ((n.acceptedLeave event).all fun peer => remembered.all fun s =>
        decide (peer ∈ s.remaining ∨ s.remaining.card < n.quorumSize ∨
          s.remaining.card ≤ (n.quorumMembers.erase peer).card))
      (by
        cases accepted : n.acceptedLeave event <;> cases remembered <;>
          simp [LeaveRemembered, accepted])
  | .introduce .. | .addSeed .. | .removeSeed .. | .expectPeers .. | .setPartitionPolicy ..
  | .setQuorumMemory .. | .setMaxMembers .. | .record .. | .checkIn .. | .checkInTraced ..
  | .leave .. | .rehash .. => .isTrue trivial

theorem Remembered.floor_eq (s : Remembered) : s.floor = s.remaining.card := by
  have split := Finset.card_sdiff_add_card_inter s.members s.left
  unfold floor remaining
  omega

@[simp] theorem Remembered.without_remaining (s : Remembered) (peer : PeerId) :
    (s.without peer).remaining = s.remaining.erase peer := by
  ext other
  simp [remaining, without]
  tauto

theorem MemberTable.mem_dead {t : MemberTable} {peer : PeerId} :
    peer ∈ t.dead ↔ ∃ member, t.members[peer]? = some member ∧ member.status = .dead := by
  simp only [dead, List.mem_map, List.mem_filter, decide_eq_true_eq, Prod.exists,
    ExtTreeMap.mem_toList_iff_getElem?_eq_some]
  constructor
  · rintro ⟨other, member, ⟨found, gone⟩, rfl⟩
    exact ⟨member, found, gone⟩
  · rintro ⟨member, found, gone⟩
    exact ⟨peer, member, ⟨found, gone⟩, rfl⟩

theorem MemberTable.dead_nodup (t : MemberTable) : t.dead.Nodup := by
  have distinct := t.members.distinct_keys_toList
  refine List.pairwise_map.mpr ((distinct.filter _).imp ?_)
  intro one two apart same
  exact apart (by simp [same])

theorem Node.mem_quorumMembers {n : Node} (sound : n.Sound) (peer : PeerId) :
    peer ∈ n.quorumMembers ↔ peer = n.members.localId ∨
      ∃ member, n.members.members[peer]? = some member ∧
        (member.isLive = true ∨ member.departed = false) := by
  simp only [quorumMembers, Finset.mem_insert, List.mem_toFinset, List.mem_append,
    List.mem_filter, sound.members.live_iff, MemberTable.mem_dead, MemberTable.hasDeparted]
  refine or_congr_right ?_
  cases found : n.members.members[peer]? with
  | none => simp
  | some member =>
    cases status : member.status <;> cases departed : member.departed <;>
      simp [Member.isLive, status, departed]

theorem Node.knownForQuorum_eq {n : Node} (sound : n.Sound) :
    n.knownForQuorum = n.quorumMembers.card := by
  have wf := sound.members
  have apart : n.members.live.Disjoint
      (n.members.dead.filter fun peer => !n.members.hasDeparted peer) := by
    intro peer live gone
    obtain ⟨member, found, isLive⟩ := (wf.live_iff peer).mp live
    obtain ⟨member', found', dead⟩ := MemberTable.mem_dead.mp (List.mem_of_mem_filter gone)
    rw [found, Option.some.injEq] at found'
    simp [Member.isLive, found', dead] at isLive
  have nodup : (n.members.live ++
      n.members.dead.filter fun peer => !n.members.hasDeparted peer).Nodup := by
    refine List.Nodup.append ?_ (n.members.dead_nodup.filter _) apart
    exact wf.ascending.imp fun below => UInt64.ne_of_lt below
  have fresh : n.members.localId ∉ (n.members.live ++
      n.members.dead.filter fun peer => !n.members.hasDeparted peer).toFinset := by
    simp only [List.mem_toFinset, List.mem_append, List.mem_filter, not_or]
    refine ⟨wf.notMem_live, fun gone => ?_⟩
    obtain ⟨member, found, _⟩ := MemberTable.mem_dead.mp gone.1
    exact wf.ne_local found rfl
  rw [quorumMembers, Finset.card_insert_of_notMem fresh, List.toFinset_card_of_nodup nodup,
    List.length_append, knownForQuorum, MemberTable.clusterSize]
  omega

/- An accepted leave takes its sender out of the members counted, and no one else. -/
theorem Node.Departs.quorumMembers {n n' : Node} {peer : PeerId} {now : Nat} (sound : n.Sound)
    (sound' : n'.Sound) (departs : Departs n peer now n') :
    n'.quorumMembers = n.quorumMembers.erase peer := by
  ext other
  rw [Finset.mem_erase, mem_quorumMembers sound', mem_quorumMembers sound, departs.localId]
  by_cases same : other = peer
  · subst same
    obtain ⟨member, found, dead, departed⟩ := departs.marked
    simp [departs.distinct, found, Member.isLive, dead, departed]
  · rw [departs.others other same]
    simp [same]

theorem Node.countQuorum_remembers {n : Node} {now : Nat} (remembers : n.Remembers now) :
    (n.countQuorum now).1 = max n.knownForQuorum n.quorumSize ∧
      (n.countQuorum now).2.1 = hasQuorum n.aliveCount (max n.knownForQuorum n.quorumSize) := by
  unfold Remembers at remembers
  simp only [countQuorum]
  split
  · rename_i quorum
    exact ⟨rfl, quorum.symm⟩
  · rename_i short
    split
    · omega
    · exact ⟨rfl, by simpa using short⟩

/- The size remembered covers the members remembered that have not left. -/
def QuorumSound (n : Node) (remembered : Option Remembered) : Prop :=
  ∀ s, remembered = some s → s.remaining.card ≤ n.quorumSize

theorem QuorumSound.rounded {n m n' : Node} {remembered : Option Remembered} {now : Nat}
    (covered : QuorumSound n remembered) (sound : m.Sound) (steady : Node.Steady n m)
    (state : n.roundState now = some m) (applied : Node.PolicyApplied m n' now) :
    QuorumSound n' (noteQuorum n remembered (.handle .tick now)) := by
  intro s noted
  simp only [noteQuorum, state] at noted
  rw [applied.quorumSize]
  split at noted
  · rename_i quorum
    rw [if_pos quorum, Node.knownForQuorum_eq sound, ← Option.some.inj noted]
    simp [Remembered.remaining]
  · rename_i without
    rw [if_neg without]
    split at noted
    · rename_i remembers
      rw [(Node.countQuorum_remembers remembers).1, steady.quorumSize]
      exact (covered s noted).trans (le_max_right _ _)
    · simp at noted

theorem QuorumSound.step {decay : Nat → Nat → ℚ} {n n' : Node} {remembered : Option Remembered}
    {op : Op} (covered : QuorumSound n remembered) (sound : n.Sound)
    (counted : LeaveRemembered n remembered op) (h : n.step decay op = some n') :
    QuorumSound n' (noteQuorum n remembered op) := by
  have sound' := Node.step_sound sound op h
  cases Node.step_policy sound op h with
  | round now m _ _ state steady _ _ applied =>
    exact covered.rounded (Node.roundState_sound sound state) steady state applied
  | departure sender bytes now peer _ later accepted departs =>
    intro s noted
    simp only [noteQuorum, accepted, Option.map_eq_some_iff] at noted
    obtain ⟨s, before, rfl⟩ := noted
    rw [Remembered.without_remaining, departs.quorumSize, Node.knownForQuorum_eq sound',
      departs.quorumMembers sound sound']
    have enough := covered s before
    have fewer := Finset.card_erase_le (s := s.remaining) (a := peer)
    rcases counted peer accepted s before with present | spare | known
    · have some := Finset.card_pos.mpr ⟨peer, present⟩
      rw [Finset.card_erase_of_mem present]
      omega
    · omega
    · exact fewer.trans (known.trans (le_max_right _ _))
  | policy policy _ steady =>
    intro s noted
    rw [steady.quorumSize]
    exact covered s noted
  | memory => exact covered
  | idle _ _ idle _ steady =>
    have same : noteQuorum n remembered op = remembered := by
      unfold noteQuorum
      split
      · rw [show n.roundState _ = none from idle]
      · rw [show n.acceptedLeave _ = none from idle]
      · rfl
    intro s noted
    rw [steady.quorumSize]
    exact covered s (same ▸ noted)

theorem Recorded.quorumSound {decay : Nat → Nat → ℚ} {n : Node} {remembered : Option Remembered}
    (run : Recorded decay noteQuorum none LeaveRemembered n remembered) :
    QuorumSound n remembered := by
  induction run with
  | start config swim localId addr seed n h => simp [QuorumSound]
  | step n remembered op n' run counted h ih => exact ih.step run.reachable.sound counted h

/-- In a run whose accepted leaves are all remembered, a round of a node that remembers the size
    counts a majority against no less than the members it had a quorum of, less those that
    left; so no minority of them is one. -/
theorem quorum_size_law (decay : Nat → Nat → ℚ) (n : Node) (remembered : Option Remembered)
    (run : Recorded decay noteQuorum none LeaveRemembered n remembered) (s : Remembered)
    (had : remembered = some s) (now : Nat) (m : Node) (round : n.roundState now = some m)
    (n' : Node) (h : n.step decay (.handle .tick now) = some n') (remembers : m.Remembers now) :
    s.floor ≤ (m.countQuorum now).1 ∧
      ((m.countQuorum now).2.1 = true → s.floor < 2 * m.aliveCount) := by
  have covered := run.quorumSound s had
  obtain ⟨size, quorum⟩ := Node.countQuorum_remembers remembers
  cases Node.step_policy run.reachable.sound _ h with
  | round _ u _ _ state steady =>
    rw [round, Option.some.injEq] at state
    subst state
    have enough : s.floor ≤ max m.knownForQuorum m.quorumSize := by
      rw [s.floor_eq, steady.quorumSize]
      exact covered.trans (le_max_right _ _)
    refine ⟨size ▸ enough, fun majority => ?_⟩
    rw [quorum, hasQuorum, decide_eq_true_eq] at majority
    omega
  | idle _ _ idle => simp [show n.roundState now = none from idle] at round

/- Both peers of a node die, and one of them leaves; a round. -/
def rememberedLeaveRun : Option (Node × Option Remembered × Node × Node) := do
  let start ← Node.sample 0 0
  let (n, remembered) ← Node.runRecorded sampleDecay noteQuorum LeaveRemembered start none
    [.setPartitionPolicy .quorum, .introduce 1 (sampleAddress 1), .introduce 2 (sampleAddress 2),
     .handle .tick 0,
     sampleOp 99 (.ack 0 [⟨1, sampleAddress 1, 0, .dead⟩, ⟨2, sampleAddress 2, 0, .dead⟩] [])
      (ms 100),
     sampleOp 1 (.leave [⟨1, sampleAddress 1, 0, .dead⟩]) (ms 150)]
  let m ← n.roundState (ms 200)
  let n' ← n.step sampleDecay (.handle .tick (ms 200))
  some (n, remembered, m, n')

theorem rememberedLeaveRun_runs : (rememberedLeaveRun.any fun (_, remembered, m, _) =>
    decide (m.Remembers (ms 200)) && remembered.any fun s => s.floor = 2) = true := by
  decide +kernel

theorem quorum_size_law_remembered : ∃ n m n' s,
    rememberedLeaveRun = some (n, some s, m, n') ∧ s.floor = 2 ∧
      (s.floor ≤ (m.countQuorum (ms 200)).1 ∧
        ((m.countQuorum (ms 200)).2.1 = true → s.floor < 2 * m.aliveCount)) := by
  obtain ⟨⟨n, remembered, m, n'⟩, ran, checked⟩ :=
    (Option.any_eq_true _ _).mp rememberedLeaveRun_runs
  simp only [Bool.and_eq_true, decide_eq_true_eq] at checked
  obtain ⟨remembers, had⟩ := checked
  obtain ⟨s, rfl, floor⟩ := (Option.any_eq_true _ _).mp had
  have same := ran
  simp only [rememberedLeaveRun, bind, Option.bind_eq_some_iff, Option.some.injEq,
    Prod.mk.injEq] at ran
  obtain ⟨start, fresh, ⟨u, noted⟩, ran, v, state, w, stepped, rfl, rfl, rfl, rfl⟩ := ran
  have run := Recorded.run (.start _ _ _ _ _ start fresh) ran
  exact ⟨u, v, w, s, same, by simpa using floor,
    quorum_size_law sampleDecay u _ run s rfl _ v state w stepped remembers⟩

/- Both peers of a node die and are forgotten; a stranger leaves. -/
def strangersLeaveRun : Option (Node × Option Remembered × Node × Node) := do
  let start ← Node.sample 0 0
  let (n, remembered) ← Node.runRecorded sampleDecay noteQuorum (fun _ _ _ => True) start none
    [.setPartitionPolicy .quorum, .introduce 1 (sampleAddress 1), .introduce 2 (sampleAddress 2),
     .handle .tick 0,
     sampleOp 99 (.ack 0 [⟨1, sampleAddress 1, 0, .dead⟩, ⟨2, sampleAddress 2, 0, .dead⟩] [])
      (ms 100),
     .handle .tick (ms 200), .handle .tick (ms 600300),
     sampleOp 5 (.leave [⟨5, sampleAddress 5, 0, .dead⟩]) (ms 600310)]
  let m ← n.roundState (ms 600500)
  let n' ← n.step sampleDecay (.handle .tick (ms 600500))
  some (n, remembered, m, n')

theorem strangersLeaveRun_lowers : (strangersLeaveRun.any fun (_, remembered, m, _) =>
    decide (m.Remembers (ms 600500)) &&
      remembered.any fun s => decide ((m.countQuorum (ms 600500)).1 < s.floor)) = true := by
  decide +kernel

theorem quorum_size_lowered :
    ¬ ∀ (decay : Nat → Nat → ℚ) (n : Node) (remembered : Option Remembered),
      Recorded decay noteQuorum none (fun _ _ _ => True) n remembered → ∀ s,
      remembered = some s → ∀ now m, n.roundState now = some m → ∀ n',
      n.step decay (.handle .tick now) = some n' → m.Remembers now →
      s.floor ≤ (m.countQuorum now).1 := by
  intro claim
  obtain ⟨⟨n, remembered, m, n'⟩, ran, checked⟩ :=
    (Option.any_eq_true _ _).mp strangersLeaveRun_lowers
  simp only [Bool.and_eq_true, decide_eq_true_eq] at checked
  obtain ⟨remembers, had⟩ := checked
  obtain ⟨s, rfl, lower⟩ := (Option.any_eq_true _ _).mp had
  simp only [decide_eq_true_eq] at lower
  simp only [strangersLeaveRun, bind, Option.bind_eq_some_iff, Option.some.injEq,
    Prod.mk.injEq] at ran
  obtain ⟨start, fresh, ⟨u, noted⟩, ran, v, state, w, stepped, rfl, rfl, rfl, rfl⟩ := ran
  have run := Recorded.run (.start _ _ _ _ _ start fresh) ran
  have kept := claim sampleDecay u _ run s rfl _ v state w stepped remembers
  omega

end Rateguard
