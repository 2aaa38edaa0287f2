import Rateguard.Rounds

/- The hold of HoldDown: how far the leaves a node accepts may lower the sizes it holds. -/
namespace Rateguard

structure Round where
  time : Nat
  live : Finset PeerId
  left : Finset PeerId

/- The size the round is to be held at. -/
def Round.floor (r : Round) : Nat := 1 + r.live.card - (r.live ∩ r.left).card

def Round.remaining (r : Round) : Finset PeerId := r.live \ r.left

def Round.without (r : Round) (peer : PeerId) : Round := { r with left := insert peer r.left }

def Node.roundAt (m : Node) (now : Nat) : Round := ⟨now, m.members.live.toFinset, ∅⟩

def noteRounds (n : Node) (rounds : List Round) : Op → List Round
  | .setPartitionPolicy _ => []
  | .handle .tick now =>
    match n.roundState now with
    | some m => rounds ++ [m.roundAt now]
    | none => rounds
  | .handle (.messageReceived sender bytes) _ =>
    match n.acceptedLeave (.messageReceived sender bytes) with
    | some peer => rounds.map (·.without peer)
    | none => rounds
  | _ => rounds

/- Whether every size of the window that an accepted leave takes its sender out of counted it:
   it was live at that round and has not been taken out since; or nobody is left to count. -/
def LeaveCounted (n : Node) (rounds : List Round) : Op → Prop
  | .handle event now => ∀ peer, n.acceptedLeave event = some peer →
    ∀ r ∈ rounds, now < r.time + holdOf n.policy → (n.members.joinedAt peer).getD now ≤ r.time →
      peer ∈ r.remaining ∨ r.remaining = ∅
  | _ => True

instance (n : Node) (rounds : List Round) (op : Op) : Decidable (LeaveCounted n rounds op) :=
  match op with
  | .handle event now =>
    decidable_of_iff
      ((n.acceptedLeave event).all fun peer => rounds.all fun r =>
        !decide (now < r.time + holdOf n.policy) ||
          !decide ((n.members.joinedAt peer).getD now ≤ r.time) ||
          decide (peer ∈ r.remaining ∨ r.remaining = ∅))
      (by
        cases accepted : n.acceptedLeave event with
        | none => simp [LeaveCounted, accepted]
        | some peer =>
          simp only [LeaveCounted, accepted, Option.all_some, List.all_eq_true, Bool.or_eq_true,
            Bool.not_eq_eq_eq_not, Bool.not_true, decide_eq_false_iff_not, decide_eq_true_eq,
            Option.some.injEq, forall_eq']
          refine forall₂_congr fun r _ => ?_
          tauto)
  | .introduce .. | .addSeed .. | .removeSeed .. | .expectPeers .. | .setPartitionPolicy ..
  | .setQuorumMemory .. | .setMaxMembers .. | .record .. | .checkIn .. | .checkInTraced ..
  | .leave .. | .rehash .. => .isTrue trivial

theorem Round.floor_eq (r : Round) : r.floor = 1 + r.remaining.card := by
  have split := Finset.card_sdiff_add_card_inter r.live r.left
  unfold floor remaining
  omega

@[simp] theorem Round.without_time (r : Round) (peer : PeerId) : (r.without peer).time = r.time := rfl

@[simp] theorem Round.without_remaining (r : Round) (peer : PeerId) :
    (r.without peer).remaining = r.remaining.erase peer := by
  ext other
  simp [remaining, without]
  tauto

/- What record drops has left the window, and its answer is the largest of what it keeps. -/
theorem dropOld_spec (window now : Nat) (samples : List (Nat × Nat)) :
    ∃ old, samples = old ++ dropOld window now samples ∧
      ∀ sample ∈ old, satAdd sample.1 window ≤ now := by
  fun_induction dropOld window now samples with
  | case1 first second rest due ih =>
    obtain ⟨old, split, left⟩ := ih
    refine ⟨first :: old, by rw [List.cons_append, ← split], ?_⟩
    intro sample mem
    rcases List.mem_cons.mp mem with rfl | mem
    · exact due
    · exact left sample mem
  | case2 first second rest kept => exact ⟨[], rfl, by simp⟩
  | case3 short => exact ⟨[], rfl, by simp⟩

theorem SizeHistory.record_spec {h h' : SizeHistory} {now size largest : Nat}
    (recorded : h.record now size = some (largest, h')) :
    h'.window = h.window ∧ (∀ sample ∈ h'.samples, sample.2 ≤ largest) ∧
      ∃ old, h.samples ++ [(now, size)] = old ++ h'.samples ∧
        ∀ sample ∈ old, satAdd sample.1 h.window ≤ now := by
  simp only [record, bind, Option.bind_eq_some_iff, Option.some.injEq, Prod.mk.injEq] at recorded
  obtain ⟨found, largestOf, rfl, rfl⟩ := recorded
  refine ⟨rfl, fun sample mem => ?_, dropOld_spec _ _ _⟩
  exact (List.max?_eq_some_iff.mp largestOf).2 _ (List.mem_map_of_mem mem)

/- A round and its sample, which is held at the round's size while in the window. -/
structure HeldAt (window lastNow : Nat) (r : Round) (sample : Nat × Nat) : Prop where
  time : sample.1 = r.time
  size : lastNow < r.time + window → 1 + r.remaining.card ≤ sample.2

/- The rounds run are those that left the window and those with a sample. -/
structure HoldSound (n : Node) (rounds : List Round) : Prop where
  window : n.sizes.window = holdOf n.policy
  sampled : ∃ gone kept, rounds = gone ++ kept ∧
    (∀ r ∈ gone, r.time + n.sizes.window ≤ n.lastNow) ∧
    List.Forall₂ (HeldAt n.sizes.window n.lastNow) kept n.sizes.samples

theorem HeldAt.later {window lastNow now : Nat} {r : Round} {sample : Nat × Nat}
    (held : HeldAt window lastNow r sample) (later : lastNow ≤ now) : HeldAt window now r sample :=
  ⟨held.time, fun young => held.size (by omega)⟩

theorem HoldSound.steady {n n' : Node} {rounds : List Round} (sound : HoldSound n rounds)
    (sizes : n'.sizes = n.sizes) (policy : n'.policy = n.policy) (later : n.lastNow ≤ n'.lastNow) :
    HoldSound n' rounds := by
  obtain ⟨gone, kept, split, left, held⟩ := sound.sampled
  refine ⟨by rw [sizes, policy, sound.window], gone, kept, split, fun r mem => ?_, ?_⟩
  · have := left r mem
    rw [sizes]
    omega
  · rw [sizes]
    exact held.imp fun r sample held => held.later later

/- An accepted leave takes its sender out of a round, and out of its sample. -/
theorem HeldAt.departed {window lastNow now since : Nat} {r : Round} {sample : Nat × Nat}
    {peer : PeerId} (held : HeldAt window lastNow r sample) (later : lastNow ≤ now)
    (counted : now < r.time + window → since ≤ r.time → peer ∈ r.remaining ∨ r.remaining = ∅) :
    HeldAt window now (r.without peer) (forgetIn since sample) := by
  have time := held.time
  refine ⟨by unfold forgetIn; split <;> exact time, fun young => ?_⟩
  rw [Round.without_time] at young
  rw [Round.without_remaining]
  have size := held.size (by omega)
  unfold forgetIn
  split
  · rename_i lowered
    rcases counted young (time ▸ lowered) with present | nobody
    · have some := Finset.card_pos.mpr ⟨peer, present⟩
      rw [Finset.card_erase_of_mem present]
      dsimp only
      omega
    · rw [nobody]
      simp
  · have fewer := Finset.card_erase_le (s := r.remaining) (a := peer)
    omega

theorem exists_sample {R : Round → Nat × Nat → Prop} {rounds : List Round}
    {samples : List (Nat × Nat)} (related : List.Forall₂ R rounds samples) {r : Round}
    (mem : r ∈ rounds) : ∃ sample ∈ samples, R r sample := by
  induction related with
  | nil => simp at mem
  | cons first _ ih =>
    rcases List.mem_cons.mp mem with rfl | mem
    · exact ⟨_, List.mem_cons_self, first⟩
    · obtain ⟨sample, listed, held⟩ := ih mem
      exact ⟨sample, List.mem_cons_of_mem _ listed, held⟩

theorem HoldSound.rounded {n m n' : Node} {rounds : List Round} {now : Nat}
    (sound : HoldSound n rounds) (later : n.lastNow ≤ now) (steady : Node.Steady n m)
    (clock : m.lastNow = now) (inTime : now < u64Max) (applied : Node.PolicyApplied m n' now) :
    HoldSound n' (rounds ++ [m.roundAt now]) := by
  obtain ⟨window, _, old, samples, expired⟩ := SizeHistory.record_spec applied.recorded
  rw [steady.sizes] at window samples expired
  obtain ⟨gone, kept, split, left, held⟩ := sound.sampled
  have newest : HeldAt n.sizes.window now (m.roundAt now)
      (now, m.members.clusterSize) := by
    refine ⟨rfl, fun _ => ?_⟩
    have few := List.toFinset_card_le m.members.live
    simp only [Node.roundAt, Round.remaining, Finset.sdiff_empty, MemberTable.clusterSize]
    omega
  have every : List.Forall₂ (HeldAt n.sizes.window now)
      (kept ++ [m.roundAt now]) (old ++ n'.sizes.samples) := by
    rw [← samples]
    exact List.rel_append (held.imp fun r sample held => held.later later)
      (.cons newest .nil)
  have expiredRounds := List.forall₂_take_append _ _ _ every
  have keptRounds := List.forall₂_drop_append _ _ _ every
  have clock' : n'.lastNow = now := applied.lastNow.trans clock
  refine ⟨?_, gone ++ (kept ++ [m.roundAt now]).take old.length,
    (kept ++ [m.roundAt now]).drop old.length, ?_, ?_, ?_⟩
  · rw [window, sound.window, applied.policy, steady.policy]
  · rw [split, List.append_assoc, List.append_assoc, List.take_append_drop]
  · intro r mem
    rw [window, clock']
    rcases List.mem_append.mp mem with early | dropped
    · have := left r early
      omega
    · -- Its sample was dropped: it left the window, since no round runs at the last instant.
      obtain ⟨sample, dropped, held⟩ := exists_sample expiredRounds dropped
      have due := expired sample dropped
      rw [held.time] at due
      unfold satAdd at due
      omega
  · rw [window, clock']
    exact keptRounds

theorem HoldSound.step {decay : Nat → Nat → ℚ} {n n' : Node} {rounds : List Round} {op : Op}
    (hold : HoldSound n rounds) (sound : n.Sound) (swim : n.swim.Valid)
    (counted : LeaveCounted n rounds op) (h : n.step decay op = some n') :
    HoldSound n' (noteRounds n rounds op) := by
  cases Node.step_policy sound op h with
  | round now m _ later state steady clock fits applied =>
    simp only [noteRounds, state]
    have period := swim.1
    exact hold.rounded later steady clock (by omega) applied
  | departure sender bytes now peer _ later accepted departs =>
    simp only [noteRounds, accepted]
    obtain ⟨gone, kept, split, left, held⟩ := hold.sampled
    have window : n'.sizes.window = n.sizes.window := by
      rw [departs.sizes]
      rfl
    refine ⟨by rw [window, departs.policy, hold.window], gone.map (·.without peer),
      kept.map (·.without peer), by rw [split, List.map_append], ?_, ?_⟩
    · intro r mem
      obtain ⟨r, early, rfl⟩ := List.mem_map.mp mem
      have := left r early
      rw [window, departs.lastNow, Round.without_time]
      omega
    · rw [window, departs.lastNow, departs.sizes]
      simp only [SizeHistory.forgetOne, List.forall₂_map_left_iff, List.forall₂_map_right_iff]
      refine List.Forall₂.imp (fun r sample both => both.2.departed later both.1)
        ((List.forall₂_and_left kept _).mpr ⟨fun r mem => ?_, held⟩)
      rw [hold.window]
      exact counted peer accepted r (split ▸ List.mem_append_right gone mem)
  | policy policy _ steady clock =>
    refine ⟨?_, [], [], rfl, by simp, ?_⟩
    · rw [steady.sizes, steady.policy]
      rfl
    · rw [steady.sizes]
      exact .nil
  | memory => exact ⟨hold.window, hold.sampled⟩
  | idle _ _ idle later steady =>
    have same : noteRounds n rounds op = rounds := by
      unfold noteRounds
      split
      · exact absurd idle id
      · rw [show n.roundState _ = none from idle]
      · rw [show n.acceptedLeave _ = none from idle]
      · rfl
    rw [same]
    exact hold.steady steady.sizes steady.policy later

theorem Node.new_holdSound {config : Config} {swim : SwimConfig} {localId : PeerId}
    {addr : Address} {seed : UInt64} {n : Node}
    (h : Node.new config swim localId addr seed = some n) : HoldSound n [] := by
  unfold Node.new at h
  split at h
  · simp only [bind, Option.bind_eq_some_iff, Option.some.injEq] at h
    obtain ⟨members, _, limiter, _, rfl⟩ := h
    exact ⟨rfl, [], [], rfl, by simp, .nil⟩
  · simp at h

theorem Recorded.holdSound {decay : Nat → Nat → ℚ} {n : Node} {rounds : List Round}
    (run : Recorded decay noteRounds [] LeaveCounted n rounds) : HoldSound n rounds := by
  induction run with
  | start config swim localId addr seed n h => exact Node.new_holdSound h
  | step n rounds op n' run counted h ih =>
    have reached := run.reachable
    exact ih.step reached.sound reached.swim_valid counted h

/-- In a run whose accepted leaves are all counted, every round holds at least what each round of
    the window counted, less those of its peers that left. -/
theorem hold_down_law (decay : Nat → Nat → ℚ) (n : Node) (rounds : List Round)
    (run : Recorded decay noteRounds [] LeaveCounted n rounds) (hold : Nat)
    (policy : n.policy = .holdDown hold) (now : Nat) (rounded : (n.roundState now).isSome)
    (n' : Node) (h : n.step decay (.handle .tick now) = some n') :
    ∀ r ∈ noteRounds n rounds (.handle .tick now), now < r.time + hold → r.floor ≤ n'.heldSize := by
  intro r mem young
  have reached := run.reachable
  have after := run.holdSound.step reached.sound reached.swim_valid (fun peer accepted => by
    simp [Node.acceptedLeave, Node.leaveOf] at accepted) h
  cases Node.step_policy reached.sound _ h with
  | round _ m _ _ state steady clock _ applied =>
    have window : n'.sizes.window = hold := by
      rw [after.window, applied.policy, steady.policy, policy]
      rfl
    have time : n'.lastNow = now := applied.lastNow.trans clock
    obtain ⟨gone, kept, split, left, held⟩ := after.sampled
    rw [split] at mem
    rcases List.mem_append.mp mem with early | recent
    · have := left r early
      omega
    · obtain ⟨sample, listed, heldAt⟩ := exists_sample held recent
      obtain ⟨_, largest, _⟩ := SizeHistory.record_spec applied.recorded
      have size := heldAt.size (by omega)
      rw [r.floor_eq]
      exact size.trans (largest sample listed)
  | idle _ _ idle => simp [show n.roundState now = none from idle] at rounded

/- A run of a round, the leave of a peer it counted, and a round. -/
def countedLeaveRun : Option (Node × List Round × Node) := do
  let start ← Node.sample 0 0
  let (n, rounds) ← Node.runRecorded sampleDecay noteRounds LeaveCounted start []
    [.introduce 1 (sampleAddress 1), .introduce 2 (sampleAddress 2), .handle .tick 0,
     sampleOp 1 (.leave [⟨1, sampleAddress 1, 0, .dead⟩]) (ms 100)]
  let n' ← n.step sampleDecay (.handle .tick (ms 200))
  some (n, rounds, n')

theorem countedLeaveRun_runs : (countedLeaveRun.any fun (n, rounds, _) =>
    decide (n.policy = .holdDown (ms 10000)) && (n.roundState (ms 200)).isSome &&
      rounds.any fun r => r.time = 0 && r.live = {1, 2} && r.left = {1}) = true := by
  decide +kernel

theorem hold_down_law_counted : ∃ n rounds n', countedLeaveRun = some (n, rounds, n') ∧
    ∀ r ∈ noteRounds n rounds (.handle .tick (ms 200)), ms 200 < r.time + ms 10000 →
      r.floor ≤ n'.heldSize := by
  obtain ⟨⟨n, rounds, n'⟩, ran, checked⟩ := (Option.any_eq_true _ _).mp countedLeaveRun_runs
  simp only [Bool.and_eq_true, decide_eq_true_eq] at checked
  obtain ⟨⟨policy, rounded⟩, _⟩ := checked
  have same := ran
  simp only [countedLeaveRun, bind, Option.bind_eq_some_iff, Option.some.injEq,
    Prod.mk.injEq] at ran
  obtain ⟨start, fresh, ⟨u, noted⟩, ran, v, stepped, rfl, rfl, rfl⟩ := ran
  have run := Recorded.run (.start _ _ _ _ _ start fresh) ran
  exact ⟨u, noted, v, same, hold_down_law sampleDecay u noted run _ policy _ rounded v stepped⟩

/- Three peers, the first found dead by news; its leave comes after a round without it, and the
   second dies. The third round holds one short of the second. -/
def lateLeave : List Op :=
  [.setPartitionPolicy (.holdDown (ms 1000)), .introduce 1 (sampleAddress 1),
   .introduce 2 (sampleAddress 2), .introduce 3 (sampleAddress 3), .handle .tick 0,
   sampleOp 3 (.ack 0 [⟨1, sampleAddress 1, 0, .dead⟩] []) (ms 100), .handle .tick (ms 900),
   sampleOp 1 (.leave [⟨1, sampleAddress 1, 0, .dead⟩]) (ms 950),
   sampleOp 3 (.ack 0 [⟨2, sampleAddress 2, 0, .dead⟩] []) (ms 960)]

def lateLeaveRun : Option (Node × List Round × Node) := do
  let start ← Node.sample 0 0
  let (n, rounds) ← Node.runRecorded sampleDecay noteRounds (fun _ _ _ => True) start [] lateLeave
  let n' ← n.step sampleDecay (.handle .tick (ms 1100))
  some (n, rounds, n')

theorem lateLeaveRun_lowers : (lateLeaveRun.any fun (n, rounds, n') =>
    decide (n.policy = .holdDown (ms 1000)) && (n.roundState (ms 1100)).isSome &&
      (noteRounds n rounds (.handle .tick (ms 1100))).any fun r =>
        decide (ms 1100 < r.time + ms 1000) && decide (n'.heldSize < r.floor)) = true := by
  decide +kernel

theorem hold_down_lowered :
    ¬ ∀ (decay : Nat → Nat → ℚ) (n : Node) (rounds : List Round),
      Recorded decay noteRounds [] (fun _ _ _ => True) n rounds → ∀ hold : Nat,
      n.policy = .holdDown hold → ∀ now, (n.roundState now).isSome → ∀ n',
      n.step decay (.handle .tick now) = some n' →
      ∀ r ∈ noteRounds n rounds (.handle .tick now), now < r.time + hold →
        r.floor ≤ n'.heldSize := by
  intro claim
  obtain ⟨⟨n, rounds, n'⟩, ran, checked⟩ := (Option.any_eq_true _ _).mp lateLeaveRun_lowers
  simp only [Bool.and_eq_true, decide_eq_true_eq, List.any_eq_true] at checked
  obtain ⟨⟨policy, rounded⟩, r, mem, young, lower⟩ := checked
  simp only [lateLeaveRun, bind, Option.bind_eq_some_iff, Option.some.injEq,
    Prod.mk.injEq] at ran
  obtain ⟨start, fresh, ⟨u, noted⟩, ran, v, stepped, rfl, rfl, rfl⟩ := ran
  have run := Recorded.run (.start _ _ _ _ _ start fresh) ran
  have kept := claim sampleDecay u noted run _ policy _ rounded v stepped r mem young
  omega

end Rateguard
