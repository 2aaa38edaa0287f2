import Rateguard.Coverage

/- The passes of the probe order over a run, each with the changes of the membership its rounds act
   on: a circuit of the peers that are live. -/
namespace Rateguard
open RoundRobin (Turn Linked timesTaken)

structure Lap where
  changes : List Change
  turn : Turn PeerId
  deriving DecidableEq

/- The changes account for who is live from each lap to the next. -/
def LapsFollow : Finset PeerId → List Lap → Finset PeerId → Prop
  | live, [], last => live = last
  | live, lap :: laps, last =>
    replay live lap.changes = some lap.turn.live.toFinset ∧
      LapsFollow lap.turn.live.toFinset laps last

theorem LapsFollow.append {live last : Finset PeerId} {early late : List Lap}
    (h : LapsFollow live (early ++ late) last) :
    ∃ middle, LapsFollow live early middle ∧ LapsFollow middle late last := by
  induction early generalizing live with
  | nil => exact ⟨live, rfl, h⟩
  | cons lap laps ih =>
    obtain ⟨middle, before, after⟩ := ih h.2
    exact ⟨middle, ⟨h.1, before⟩, after⟩

theorem LapsFollow.snoc {live last : Finset PeerId} {laps : List Lap} {lap : Lap}
    (h : LapsFollow live laps last) (next : replay last lap.changes = some lap.turn.live.toFinset) :
    LapsFollow live (laps ++ [lap]) lap.turn.live.toFinset := by
  induction laps generalizing live with
  | nil =>
    obtain rfl : live = last := h
    exact ⟨next, rfl⟩
  | cons first laps ih => exact ⟨h.1, ih h.2⟩

theorem replay_stays {live last : Finset PeerId} {changes : List Change} {peer : PeerId}
    (replayed : replay live changes = some last) (there : peer ∈ live)
    (stays : .left peer ∉ changes) : peer ∈ last ∧ .joined peer ∉ changes := by
  induction changes generalizing live with
  | nil =>
    simp only [replay, List.foldlM_nil, Option.pure_def, Option.some.injEq] at replayed
    exact ⟨replayed ▸ there, by simp⟩
  | cons change rest ih =>
    simp only [replay, List.foldlM_cons, Option.bind_eq_bind, Option.bind_eq_some_iff] at replayed
    obtain ⟨middle, first, replayed⟩ := replayed
    have stays' : Change.left peer ∉ rest := fun mem => stays (List.mem_cons_of_mem _ mem)
    cases change with
    | joined other =>
      simp only [replayChange, Option.ite_none_left_eq_some, Option.some.injEq] at first
      obtain ⟨absent, rfl⟩ := first
      obtain ⟨stillLive, apart⟩ := ih replayed (Finset.mem_insert_of_mem there) stays'
      refine ⟨stillLive, ?_⟩
      rintro mem
      rcases List.mem_cons.mp mem with same | mem
      · rw [Change.joined.inj same] at there
        exact absent there
      · exact apart mem
    | left other =>
      simp only [replayChange, Option.ite_none_right_eq_some, Option.some.injEq] at first
      obtain ⟨_, rfl⟩ := first
      have distinct : peer ≠ other := by
        rintro rfl
        exact stays List.mem_cons_self
      obtain ⟨stillLive, apart⟩ := ih replayed (Finset.mem_erase.mpr ⟨distinct, there⟩) stays'
      exact ⟨stillLive, by simpa using apart⟩

theorem replay_joins {live last : Finset PeerId} {early late : List Change} {peer : PeerId}
    (replayed : replay live (early ++ .joined peer :: late) = some last)
    (stays : .left peer ∉ late) : peer ∈ last := by
  rw [replay_append, Option.bind_eq_some_iff] at replayed
  obtain ⟨middle, _, replayed⟩ := replayed
  simp only [replay, List.foldlM_cons, Option.bind_eq_bind, Option.bind_eq_some_iff] at replayed
  obtain ⟨joined, first, replayed⟩ := replayed
  simp only [replayChange, Option.ite_none_left_eq_some, Option.some.injEq] at first
  obtain ⟨_, rfl⟩ := first
  exact (replay_stays replayed (Finset.mem_insert_self _ _) stays).1

theorem LapsFollow.stays {live last : Finset PeerId} {laps : List Lap} {peer : PeerId}
    (follows : LapsFollow live laps last) (there : peer ∈ live)
    (stays : ∀ lap ∈ laps, .left peer ∉ lap.changes) :
    ∀ lap ∈ laps, peer ∈ lap.turn.live ∧ .joined peer ∉ lap.changes := by
  induction laps generalizing live with
  | nil => simp
  | cons first laps ih =>
    obtain ⟨now, joined⟩ := replay_stays follows.1 there (stays first List.mem_cons_self)
    have later := ih follows.2 now fun lap mem => stays lap (List.mem_cons_of_mem _ mem)
    intro lap mem
    rcases List.mem_cons.mp mem with rfl | mem
    · exact ⟨List.mem_toFinset.mp now, joined⟩
    · exact later lap mem

namespace Node
variable {decay : Nat → Nat → ℚ}

/- News of any kind, and forgetting, are accounted for. -/
theorem accounts_news (start t : MemberTable) :
    KeptByNews start fun u => u.WellFormed ∧ Accounts t u where
  accused := by
    rintro u u' update now applied member _ _ _ ⟨_, accounts⟩ wfU outcome
    exact ⟨outcome.wellFormed wfU, accounts.trans outcome.accounts⟩
  forgot := by
    rintro u now ttl ⟨wfU, accounts⟩
    have keeps := MemberTable.forgetDead_keeps wfU now ttl
    exact ⟨keeps.wellFormed, accounts.trans keeps.accounts⟩

/- Up to where a round acts on the changes, they account for what it has made of the live. -/
theorem pendingState_accounts {n m : Node} {now : Nat} (sound : n.Sound)
    (h : n.pendingState decay now = some m) :
    Accounts n.members m.members ∧ ∃ a b o, n.advance now = some a ∧ a.left = false ∧
      ({ a with actions := [] } : Node).timeOut now = some b ∧ b.openRound now = some o ∧
      b.nextRoundAt ≤ now ∧ m.members = o.members := by
  simp only [pendingState, roundState, bind, Option.bind_eq_some_iff] at h
  obtain ⟨o, ⟨a, advanced, h⟩, p, policy, s, shares, reported⟩ := h
  have same := (advance_some advanced).2
  split at h
  · simp at h
  · rename_i present
    simp only [Option.bind_eq_some_iff, Option.ite_none_right_eq_some] at h
    obtain ⟨b, timed, due, opened⟩ := h
    have members : m.members = o.members := by
      rw [reportDemand_frame reported, applyShares_frame shares, applyPolicy_frame policy]
    refine ⟨?_, a, b, o, advanced, by simpa using present, timed, opened, due, members⟩
    rw [members]
    have soundA : ({ a with actions := [] } : Node).Sound := sound.same (by rw [same]) (by rw [same])
    have heldB := timeOut_table (accounts_news _ n.members) soundA
      ⟨soundA.members, by rw [same]; exact Accounts.refl _⟩ timed
    have soundB := timeOut_sound soundA timed
    simp only [openRound, bind, Option.bind_eq_some_iff] at opened
    obtain ⟨_, _, missed⟩ := opened
    refine (missProbe_table (accounts_news b.members n.members) ?_ ?_ missed).2
    · exact soundB.same rfl rfl
    · exact heldB

/- What a tick's round leaves of the table, and what it noted of the changes it acted on. -/
structure Rounded (n before : Node) (turn : Turn PeerId) (n' : Node) : Prop where
  accounts : Accounts n.members before.members
  live : before.members.live = turn.live
  joined : turn.joined = joinedBy before.members.changes
  after : n'.members.live = turn.live ∧ n'.members.changes = []

theorem tick_rounded {n n' : Node} {now : Nat} (sound : n.Sound)
    (h : n.handle decay .tick now = some n') :
    (∃ before after turn, n.processed decay now = some (before, after) ∧
      n.turn decay now = some turn ∧ Rounded n before turn n') ∨
    (n.turn decay now = none ∧ Accounts n.members n'.members) := by
  have ticked := h
  simp only [handle, bind, Option.bind_eq_some_iff] at h
  obtain ⟨a, advanced, h⟩ := h
  rcases tick_turn ticked with ⟨turn, took, _⟩ | ⟨idle, none, _⟩
  · left
    have taken := took
    simp only [Node.turn, processed, bind, Option.bind_eq_some_iff, Option.some.injEq] at taken
    obtain ⟨⟨_, _⟩, ⟨before, pending, after, followed, same⟩, stale, _, taken⟩ := taken
    obtain ⟨rfl, rfl⟩ := Prod.mk.inj same
    obtain ⟨accounts, a', b, o, advanced', present, timed, opened, due, members⟩ :=
      pendingState_accounts sound pending
    have frame := followChanges_frame followed
    have live : after.members.live = before.members.live := by rw [frame]
    have soundAfter := followChanges_sound (pendingState_rest sound pending).1 followed
    obtain ⟨_, joined, liveTurn, _⟩ := turnOf_some taken soundAfter.members.ascending
    refine ⟨before, after, turn, ?_, took, accounts, ?_, joined, ?_⟩
    · simp only [processed, pending, followed, bind, Option.bind_some]
    · rw [liveTurn, ← live]
    · rw [advanced] at advanced'
      obtain rfl := Option.some.inj advanced'
      rw [if_neg (by simp [present])] at h
      simp only [tick, bind, Option.bind_eq_some_iff] at h
      obtain ⟨b', timed', c, ran, escalated⟩ := h
      rw [timed] at timed'
      obtain rfl := Option.some.inj timed'
      rw [if_pos due] at ran
      obtain ⟨o', opened', last⟩ := round_members ran
      rw [opened] at opened'
      obtain rfl := Option.some.inj opened'
      have table : n'.members = { before.members with changes := [] } := by
        rw [escalate_frame escalated, members, ← last]
      rw [table, liveTurn, ← live]
      exact ⟨rfl, rfl⟩
  · right
    refine ⟨none, ?_⟩
    have same := (advance_some advanced).2
    simp only [roundState, advanced, bind, Option.bind_some] at idle
    split at h
    · rw [← Option.some.inj h, same]
      exact Accounts.refl _
    · rename_i present
      rw [if_neg present] at idle
      simp only [tick, bind, Option.bind_eq_some_iff] at h
      obtain ⟨b, timed, c, ran, escalated⟩ := h
      rw [timed, Option.bind_some] at idle
      have early : ¬b.nextRoundAt ≤ now := by
        intro due
        rw [if_pos due] at idle ran
        obtain ⟨o, opened, _⟩ := round_members ran
        rw [opened] at idle
        simp at idle
      rw [if_neg early] at ran
      obtain rfl := Option.some.inj ran
      have table : n'.members = b.members := by rw [escalate_frame escalated]
      have soundA : ({ a with actions := [] } : Node).Sound :=
        sound.same (by rw [same]) (by rw [same])
      rw [table]
      exact (timeOut_table (accounts_news _ n.members) soundA
        ⟨soundA.members, by rw [same]; exact Accounts.refl _⟩ timed).2

theorem message_accounts {n n' : Node} {sender : PeerId} {bytes : List UInt8} {now : Nat}
    (sound : n.Sound) (h : n.handle decay (.messageReceived sender bytes) now = some n') :
    Accounts n.members n'.members := by
  refine (handle_table (P := fun t => t.WellFormed ∧ Accounts n.members t) ?_ ?_ ?_ sound
    ⟨sound.members, Accounts.refl _⟩ h).2
  · intro tick
    cases tick
  · rintro _ _ _ _ _ t t' update applied _ ⟨_, accounts⟩ wf outcome
    exact ⟨outcome.wellFormed wf, accounts.trans outcome.accounts⟩
  · rintro peer _ _ _ _ t ⟨wf, accounts⟩
    have keeps := MemberTable.depart_keeps wf peer
    exact ⟨keeps.wellFormed, accounts.trans keeps.accounts⟩

/- An operation that handles nothing introduces a peer, or leaves the live and the changes alone. -/
theorem unhandled_accounts {n n' : Node} (sound : n.Sound) {op : Op}
    (unhandled : ∀ event now, op ≠ .handle event now) (h : n.step decay op = some n') :
    Accounts n.members n'.members := by
  have kept {t : MemberTable} (live : t.live = n.members.live)
      (changes : t.changes = n.members.changes) : Accounts n.members t :=
    ⟨[], by rw [changes, List.append_nil], by rw [live]; rfl⟩
  cases op with
  | handle event now => exact absurd rfl (unhandled event now)
  | introduce peer addr =>
    simp only [step, introduce] at h
    split at h
    · simp at h
    · simp only [bind, Option.bind_eq_some_iff] at h
      obtain ⟨⟨applied, members⟩, told, h⟩ := h
      have outcome := MemberTable.apply_spec sound.members told
      split at h
      · rw [refreshCap_frame h]
        exact outcome.accounts
      · rw [← Option.some.inj h]
        exact outcome.accounts
  | addSeed seed addr =>
    simp only [step, addSeed] at h
    split at h
    · simp at h
    · split at h
      · rw [refreshCap_frame h]
        exact kept rfl rfl
      · rw [refreshCap_frame h]
        exact kept rfl rfl
  | removeSeed | expectPeers | setPartitionPolicy =>
    rw [refreshCap_frame h]
    exact kept rfl rfl
  | setQuorumMemory memory =>
    rw [← Option.some.inj h]
    exact kept rfl rfl
  | setMaxMembers max =>
    simp only [step, setMaxMembers, MemberTable.setMax, bind, Option.bind_eq_some_iff,
      Option.ite_none_right_eq_some, Option.some.injEq] at h
    obtain ⟨members, ⟨_, rfl⟩, rfl⟩ := h
    exact kept rfl rfl
  | record key tally limit now =>
    simp only [step, Node.record, bind, Option.bind_eq_some_iff, Option.some.injEq] at h
    obtain ⟨a, advanced, limiter, _, rfl⟩ := h
    obtain ⟨_, rfl⟩ := advance_some advanced
    exact kept rfl rfl
  | checkIn key limit now =>
    simp only [step, checkIn, bind, Option.bind_eq_some_iff, Option.map_eq_some_iff,
      Option.some.injEq] at h
    obtain ⟨_, ⟨a, advanced, ⟨decision, limiter⟩, _, rfl⟩, rfl⟩ := h
    obtain ⟨_, rfl⟩ := advance_some advanced
    exact kept rfl rfl
  | checkInTraced key limit shadow now =>
    simp only [step, checkInTraced, bind, Option.bind_eq_some_iff, Option.map_eq_some_iff,
      Option.some.injEq] at h
    obtain ⟨_, ⟨a, advanced, ⟨decisions, limiter⟩, _, rfl⟩, rfl⟩ := h
    obtain ⟨_, rfl⟩ := advance_some advanced
    exact kept rfl rfl
  | leave now =>
    simp only [step, leave, bind, Option.bind_eq_some_iff] at h
    obtain ⟨a, advanced, h⟩ := h
    obtain ⟨_, rfl⟩ := advance_some advanced
    split at h
    · rw [← Option.some.inj h]
      exact kept rfl rfl
    · simp only [Option.bind_eq_some_iff] at h
      obtain ⟨own, _, h⟩ := h
      rw [sendLeave_frame h]
      exact kept rfl rfl
  | rehash keys =>
    simp only [step, rehash, Option.ite_none_right_eq_some, Option.some.injEq] at h
    obtain ⟨_, rfl⟩ := h
    exact kept rfl rfl

/- The cursor is within the order, or at its end. -/
def InRange (n : Node) : Prop := n.next ≤ n.order.length

theorem followChange_total {n : Node} (within : n.InRange) (now : Nat) (change : Change) :
    ∃ n', n.followChange now change = some n' ∧ n'.InRange := by
  cases change with
  | left gone => exact ⟨_, rfl, within⟩
  | joined newcomer =>
    have offset := n.rng.upTo_le (n.order.length - n.next)
    have fits : n.next + (n.rng.upTo (n.order.length - n.next)).1 ≤ n.order.length := by
      simp only [InRange] at within
      omega
    have begun : n.next ≤ n.order.length := within
    simp only [followChange, if_pos begun, if_pos fits]
    split
    · exact ⟨n, rfl, within⟩
    · refine ⟨_, rfl, ?_⟩
      simp only [InRange] at within ⊢
      rw [List.length_insertIdx_of_le_length fits]
      omega

theorem followChanges_total {n : Node} (within : n.InRange) (now : Nat) :
    ∃ n', n.followChanges now = some n' ∧ n'.InRange := by
  have each : ∀ (changes : List Change) (m : Node), m.InRange →
      ∃ m', changes.foldlM (fun n change => n.followChange now change) m = some m' ∧
        m'.InRange := by
    intro changes
    induction changes with
    | nil => exact fun m within => ⟨m, rfl, within⟩
    | cons change rest ih =>
      intro m within
      obtain ⟨u, first, withinU⟩ := followChange_total within now change
      obtain ⟨m', others, within'⟩ := ih u withinU
      exact ⟨m', by rw [List.foldlM_cons, first]; exact others, within'⟩
  exact each _ { n with members := { n.members with changes := [] } } within

theorem takeFrom_le (live order : List PeerId) (next : Nat) :
    (takeFrom live order next).2 ≤ next + order.length := by
  induction order generalizing next with
  | nil => simp [takeFrom]
  | cons peer rest ih =>
    simp only [takeFrom, List.length_cons]
    split
    · simp only
      omega
    · have := ih (next + 1)
      omega

theorem takeLive_inRange {n : Node} (within : n.InRange) : n.takeLive.2.InRange := by
  have bound := takeFrom_le n.members.live (n.order.drop n.next) n.next
  rw [List.length_drop] at bound
  simp only [InRange, takeLive] at within bound ⊢
  omega

theorem nextTarget_total {n : Node} (within : n.InRange) :
    ∃ target n', n.nextTarget = some (target, n') ∧ n'.InRange := by
  have taken := takeLive_inRange within
  unfold nextTarget
  split
  · rename_i target m found
    rw [found] at taken
    exact ⟨_, m, rfl, taken⟩
  · rename_i m found
    obtain ⟨order, rng, shuffled, _⟩ := m.rng.shuffle_spec m.members.live
    simp only [shuffled, bind, Option.bind_some]
    exact ⟨_, _, rfl, takeLive_inRange (Nat.zero_le _)⟩

theorem chooseTarget_inRange {n n' : Node} {now : Nat} {target : Option PeerId}
    (within : n.InRange) (h : n.chooseTarget now = some (target, n')) : n'.InRange := by
  simp only [chooseTarget, bind, Option.bind_eq_some_iff] at h
  obtain ⟨⟨lost, u⟩, first, h⟩ := h
  have withinU : u.InRange := by
    split at first
    · rw [randomLost_frame first]
      exact within
    · simp only [Option.some.injEq, Prod.mk.injEq] at first
      exact first.2 ▸ within
  dsimp only at h
  split at h
  · simp only [Option.bind_eq_some_iff, Option.some.injEq, Prod.mk.injEq] at h
    obtain ⟨_, _, _, rfl⟩ := h
    exact withinU
  · simp only [Option.bind_eq_some_iff] at h
    obtain ⟨⟨found, v⟩, second, h⟩ := h
    obtain ⟨_, v', took, withinV⟩ := nextTarget_total withinU
    rw [second] at took
    obtain ⟨rfl, rfl⟩ := Prod.mk.inj (Option.some.inj took)
    split at h
    · simp only [Option.some.injEq, Prod.mk.injEq] at h
      exact h.2 ▸ withinV
    · rw [randomLost_frame h]
      exact withinV

theorem step_inRange {n n' : Node} (sound : n.Sound) (within : n.InRange) {op : Op}
    (h : n.step decay op = some n') : n'.InRange := by
  by_cases handles : ∃ event now, op = .handle event now
  · obtain ⟨event, now, rfl⟩ := handles
    rcases (handle_cases h).2 with rfl | ⟨_, rfl, _⟩ | ⟨_, _, _, _, _, _, _, _, received⟩
    · exact within
    · simp only [step, handle, bind, Option.bind_eq_some_iff] at h
      obtain ⟨a, advanced, h⟩ := h
      have same := (advance_some advanced).2
      split at h
      · rw [← Option.some.inj h, same]
        exact within
      · simp only [tick, bind, Option.bind_eq_some_iff] at h
        obtain ⟨b, timed, c, ran, escalated⟩ := h
        have withinB : b.InRange := by
          rw [timeOut_frame timed, same]
          exact within
        rw [escalate_frame escalated]
        split at ran
        · simp only [round, bind, Option.bind_eq_some_iff] at ran
          obtain ⟨o, opened, p, policy, s, shares, r, reported, f, followed, stale, _,
            ⟨target, g⟩, chosen, pinged⟩ := ran
          have withinR : r.InRange := by
            rw [reportDemand_frame reported, applyShares_frame shares, applyPolicy_frame policy,
              (openRound_frame opened).1]
            exact withinB
          obtain ⟨f', followed', withinF⟩ := followChanges_total withinR now
          rw [followed] at followed'
          obtain rfl := Option.some.inj followed'
          have withinG : g.InRange := by
            refine chooseTarget_inRange ?_ chosen
            exact withinF
          dsimp only at pinged
          split at pinged
          · rw [ping_frame pinged]
            exact withinG
          · exact (Option.some.inj pinged) ▸ withinG
        · exact (Option.some.inj ran) ▸ withinB
    · rw [receiveMessage_frame received]
      exact within
  · have frame := (step_apart sound (fun event now is => handles ⟨event, now, is⟩) h).frame
    rw [frame]
    exact within

theorem new_inRange {config : Config} {swim : SwimConfig} {localId : PeerId} {addr : Address}
    {seed : UInt64} {n : Node} (h : Node.new config swim localId addr seed = some n) :
    n.InRange := by
  unfold Node.new at h
  split at h
  · simp only [bind, Option.bind_eq_some_iff, Option.some.injEq] at h
    obtain ⟨members, _, limiter, _, rfl⟩ := h
    exact Nat.zero_le _
  · simp at h

end Node

theorem Reachable.inRange {decay : Nat → Nat → ℚ} {n : Node} (reached : Reachable decay n) :
    n.InRange := by
  induction reached with
  | start config swim localId addr seed n h => exact Node.new_inRange h
  | step n op n' before h ih => exact Node.step_inRange before.sound ih h

def noteLap (decay : Nat → Nat → ℚ) (n : Node) (laps : List Lap) : Op → List Lap
  | .handle .tick now =>
    match n.processed decay now, n.turn decay now with
    | some (before, _), some turn => laps ++ [⟨before.members.changes, turn⟩]
    | _, _ => laps
  | _ => laps

/- The laps of a run: their turns go on from each other and are fair, and their changes account for
   who is live in each. -/
structure Laps (laps : List Lap) (n : Node) : Prop where
  linked : Linked [] (laps.map (·.turn)) n.rest
  fair : ∀ lap ∈ laps, lap.turn.Fair ∧ lap.turn.joined = joinedBy lap.changes
  follows : ∃ live, LapsFollow ∅ laps live ∧ replay live n.members.changes = some n.members.live.toFinset

theorem Laps.unchanged {laps : List Lap} {n n' : Node} (held : Laps laps n)
    (rest : n'.rest = n.rest) (accounts : Accounts n.members n'.members) : Laps laps n' := by
  obtain ⟨live, follows, replayed⟩ := held.follows
  obtain ⟨logged, changes, account⟩ := accounts
  refine ⟨rest ▸ held.linked, held.fair, live, follows, ?_⟩
  rw [changes, replay_append, replayed, Option.bind_some, account]

theorem Recorded.laps {decay : Nat → Nat → ℚ} {n : Node} {laps : List Lap}
    (run : Recorded decay (noteLap decay) [] (fun _ _ _ => True) n laps) : Laps laps n := by
  induction run with
  | start config swim localId addr seed n h =>
    refine ⟨(Node.new_rest h).symm, by simp, ∅, rfl, ?_⟩
    unfold Node.new at h
    split at h
    · simp only [bind, Option.bind_eq_some_iff, Option.some.injEq] at h
      obtain ⟨members, made, limiter, _, rfl⟩ := h
      simp only [MemberTable.new, MemberTable.setMax, Option.ite_none_right_eq_some,
        Option.some.injEq] at made
      obtain ⟨_, rfl⟩ := made
      rfl
    · simp at h
  | step m laps op n before _ h ih =>
    have sound := before.reachable.sound
    by_cases ticks : ∃ now, op = .handle .tick now
    · obtain ⟨now, rfl⟩ := ticks
      rcases Node.tick_rounded sound h with ⟨b, a, turn, processed, took, rounded⟩ | ⟨none, accounts⟩
      · have noted : noteLap decay m laps (.handle .tick now) =
            laps ++ [⟨b.members.changes, turn⟩] := by
          simp only [noteLap, processed, took]
        have nodup := ih.linked.nodup (fun turn mem => by
          obtain ⟨lap, listed, rfl⟩ := List.mem_map.mp mem
          exact (ih.fair lap listed).1) List.nodup_nil
        obtain ⟨fair, rest⟩ := Node.turn_fair sound nodup took
        obtain ⟨live, follows, replayed⟩ := ih.follows
        obtain ⟨logged, changes, account⟩ := rounded.accounts
        have next : replay live b.members.changes = some turn.live.toFinset := by
          rw [changes, replay_append, replayed, Option.bind_some, account, rounded.live]
        have left : n.rest = turn.left := by
          rcases Node.tick_turn h with ⟨turn', took', left, _⟩ | ⟨_, none, _⟩
          · rw [took] at took'
            exact left.trans (congrArg Turn.left (Option.some.inj took').symm)
          · rw [none] at took
            cases took
        rw [noted]
        refine ⟨?_, ?_, _, follows.snoc next, ?_⟩
        · rw [List.map_append, List.map_singleton, left]
          exact ih.linked.snoc rest
        · intro lap mem
          rcases List.mem_append.mp mem with old | new
          · exact ih.fair lap old
          · rw [List.mem_singleton.mp new]
            exact ⟨fair, rounded.joined⟩
        · rw [rounded.after.2, rounded.after.1]
          rfl
      · have noted : noteLap decay m laps (.handle .tick now) = laps := by
          simp only [noteLap, none]
          split
          · simp_all
          · rfl
        have rest : n.rest = m.rest := by
          rcases Node.tick_turn h with ⟨turn, took, _⟩ | ⟨_, _, same⟩
          · rw [none] at took
            cases took
          · exact same
        rw [noted]
        exact ih.unchanged rest accounts
    · have noted : noteLap decay m laps op = laps := by
        unfold noteLap
        split
        · rename_i now
          exact absurd ⟨now, rfl⟩ ticks
        · rfl
      rw [noted]
      refine ih.unchanged (Node.step_rest sound (fun now is => ticks ⟨now, is⟩) h) ?_
      by_cases hears : ∃ event now, op = .handle event now
      · obtain ⟨event, now, rfl⟩ := hears
        cases event with
        | tick => exact absurd ⟨now, rfl⟩ ticks
        | messageReceived sender bytes => exact @Node.message_accounts decay _ _ _ _ _ sound h
      · exact Node.unhandled_accounts sound (fun event now is => hears ⟨event, now, is⟩) h

theorem LapsFollow.of_laps {laps earlier later : List Lap} {n : Node} (held : Laps laps n)
    (split : laps = earlier ++ later) : ∃ live last, LapsFollow live later last := by
  obtain ⟨last, follows, _⟩ := held.follows
  rw [split] at follows
  obtain ⟨live, _, follows⟩ := follows.append
  exact ⟨live, last, follows⟩

/- In each pass of a run, one that is live throughout is chosen once. -/
theorem Laps.chosen_once {laps : List Lap} {n : Node} (held : Laps laps n)
    {earlier pass later : List Lap} {first next : Lap}
    (split : laps = earlier ++ first :: pass ++ next :: later) (begun : first.turn.renewed = true)
    (goes : ∀ lap ∈ pass, lap.turn.renewed = false) (ended : next.turn.renewed = true)
    {peer : PeerId} (there : peer ∈ first.turn.live)
    (stays : ∀ lap ∈ pass ++ [next], .left peer ∉ lap.changes) :
    timesTaken peer ((first :: pass).map (·.turn)) = 1 := by
  have whole : laps = earlier ++ (first :: pass ++ [next] ++ later) := by simp [split]
  obtain ⟨live, last, follows⟩ := LapsFollow.of_laps held whole
  obtain ⟨_, follows, _⟩ := follows.append
  have present := LapsFollow.stays follows.2 (List.mem_toFinset.mpr there) stays
  have linked := held.linked
  rw [whole, List.map_append, List.map_append] at linked
  obtain ⟨_, _, linked⟩ := linked.append
  obtain ⟨_, linked, _⟩ := linked.append
  have fair (lap : Lap) (mem : lap ∈ first :: pass ++ [next]) := held.fair lap
    (by rw [whole]; exact List.mem_append_right _ (List.mem_append_left _ mem))
  rw [List.map_append, List.map_cons] at linked
  rw [List.map_cons]
  refine RoundRobin.pass_takes_once linked ?_ begun ?_ ended ?_ ?_
  · intro turn mem
    obtain ⟨lap, listed, rfl⟩ := List.mem_map.mp
      (show turn ∈ (first :: pass ++ [next]).map (·.turn) by simpa using mem)
    exact (fair lap listed).1
  · intro turn mem
    obtain ⟨lap, listed, rfl⟩ := List.mem_map.mp mem
    exact goes lap listed
  · intro turn mem
    obtain ⟨lap, listed, rfl⟩ := List.mem_map.mp
      (show turn ∈ (first :: pass ++ [next]).map (·.turn) by simpa using mem)
    rcases List.mem_cons.mp listed with rfl | listed
    · exact there
    · exact (present lap listed).1
  · intro turn mem
    obtain ⟨lap, listed, rfl⟩ := List.mem_map.mp mem
    rw [(fair lap (List.mem_cons_of_mem _ (List.mem_append_left _ listed))).2, mem_joinedBy]
    exact (present lap (List.mem_append_left _ listed)).2

/- One that joins a pass and does not leave is chosen in it from then on. -/
theorem Laps.chosen_after {laps : List Lap} {n : Node} (held : Laps laps n)
    {earlier after later : List Lap} {joining next : Lap}
    (split : laps = earlier ++ joining :: after ++ next :: later)
    (goes : ∀ lap ∈ joining :: after, lap.turn.renewed = false) (ended : next.turn.renewed = true)
    {peer : PeerId} {early late : List Change}
    (joins : joining.changes = early ++ .joined peer :: late) (now : .left peer ∉ late)
    (stays : ∀ lap ∈ after ++ [next], .left peer ∉ lap.changes) :
    ∃ lap ∈ joining :: after, lap.turn.target = some peer := by
  have whole : laps = earlier ++ (joining :: after ++ [next] ++ later) := by simp [split]
  obtain ⟨live, last, follows⟩ := LapsFollow.of_laps held whole
  obtain ⟨_, follows, _⟩ := follows.append
  have first := follows.1
  rw [joins] at first
  have there := replay_joins first now
  have present := LapsFollow.stays follows.2 there stays
  have linked := held.linked
  rw [whole, List.map_append, List.map_append] at linked
  obtain ⟨_, _, linked⟩ := linked.append
  obtain ⟨_, linked, _⟩ := linked.append
  have fair (lap : Lap) (mem : lap ∈ joining :: after ++ [next]) := held.fair lap
    (by rw [whole]; exact List.mem_append_right _ (List.mem_append_left _ mem))
  rw [List.map_append, List.map_cons] at linked
  obtain ⟨turn, mem, took⟩ := @RoundRobin.pass_takes_joined _ _ _ _ _ _ peer linked
    (by
      intro turn mem
      obtain ⟨lap, listed, rfl⟩ := List.mem_map.mp
        (show turn ∈ (joining :: after ++ [next]).map (·.turn) by simpa using mem)
      exact (fair lap listed).1)
    (by
      intro turn mem
      obtain ⟨lap, listed, rfl⟩ := List.mem_map.mp
        (show turn ∈ (joining :: after).map (·.turn) by simpa using mem)
      exact goes lap listed)
    ended
    (by
      intro turn mem
      obtain ⟨lap, listed, rfl⟩ := List.mem_map.mp
        (show turn ∈ (joining :: after ++ [next]).map (·.turn) by simpa using mem)
      rcases List.mem_cons.mp listed with rfl | listed
      · exact List.mem_toFinset.mp there
      · exact (present lap listed).1)
    (by
      rw [(fair joining List.mem_cons_self).2, mem_joinedBy, joins]
      simp)
  obtain ⟨lap, listed, rfl⟩ := List.mem_map.mp
    (show turn ∈ (joining :: after).map (·.turn) by simpa using mem)
  exact ⟨lap, listed, took⟩

/-- In every run, each pass of the probe order from one reshuffle to the next chooses a peer that is
    live throughout once, and one that joins it and stays before it ends; whoever is chosen is live
    then, what is still to come holds nobody twice, and the order is never left. -/
theorem probe_pass_circuit (decay : Nat → Nat → ℚ) (n : Node) (laps : List Lap)
    (run : Recorded decay (noteLap decay) [] (fun _ _ _ => True) n laps) :
    (∀ earlier first pass next later, laps = earlier ++ first :: pass ++ next :: later →
      first.turn.renewed = true → (∀ lap ∈ pass, lap.turn.renewed = false) →
      next.turn.renewed = true →
      (∀ peer ∈ first.turn.live, (∀ lap ∈ pass ++ [next], .left peer ∉ lap.changes) →
        timesTaken peer ((first :: pass).map (·.turn)) = 1) ∧
      ∀ before joining after peer early late, pass = before ++ joining :: after →
        joining.changes = early ++ .joined peer :: late → .left peer ∉ late →
        (∀ lap ∈ after ++ [next], .left peer ∉ lap.changes) →
        ∃ lap ∈ joining :: after, lap.turn.target = some peer) ∧
    (∀ lap ∈ laps, ∀ peer, lap.turn.target = some peer → peer ∈ lap.turn.live) ∧
    n.rest.Nodup ∧ n.next ≤ n.order.length ∧
    ∀ (m : Node) (now : Nat), m.order = n.order → m.next = n.next →
      ∃ m', m.followChanges now = some m' ∧ m'.rest.Nodup ∧ m'.next ≤ m'.order.length ∧
        ∃ target m'', m'.nextTarget = some (target, m'') ∧ m''.next ≤ m''.order.length := by
  have held := run.laps
  have nodup : n.rest.Nodup := held.linked.nodup (fun turn mem => by
    obtain ⟨lap, listed, rfl⟩ := List.mem_map.mp mem
    exact (held.fair lap listed).1) List.nodup_nil
  refine ⟨?_, fun lap mem peer took => (held.fair lap mem).1.target_live took, nodup,
    run.reachable.inRange, ?_⟩
  · intro earlier first pass next later split begun goes ended
    refine ⟨fun peer there stays => held.chosen_once split begun goes ended there stays, ?_⟩
    rintro before joining after peer early late rfl joins now stays
    refine @Laps.chosen_after laps n held (earlier ++ first :: before) after later joining next
      (by simp [split]) ?_ ended peer early late joins now stays
    intro lap mem
    exact goes lap (List.mem_append_right _ mem)
  · intro m now order next
    have within : m.InRange := by
      rw [Node.InRange, order, next]
      exact run.reachable.inRange
    have rest : m.rest = n.rest := by rw [Node.rest, Node.rest, order, next]
    obtain ⟨m', followed, within'⟩ := Node.followChanges_total within now
    obtain ⟨target, m'', taken, within''⟩ := Node.nextTarget_total within'
    exact ⟨m', followed, (Node.followChanges_rest followed (rest ▸ nodup)).1, within', target, m'',
      taken, within''⟩

/- Two peers, each probed twice: the second time in a pass of its own. -/
def circuitRun : Option (Node × List Lap) := do
  let start ← Node.sample 0 0
  Node.runRecorded sampleDecay (noteLap sampleDecay) (fun _ _ _ => True) start []
    [.introduce 1 (sampleAddress 1), .introduce 2 (sampleAddress 2), .handle .tick 0,
     .handle .tick (ms 200), .handle .tick (ms 400), .handle .tick (ms 600),
     .handle .tick (ms 800)]

theorem circuitRun_passes : (circuitRun.any fun (_, laps) =>
    match laps with
    | [_, _, first, second, next] =>
      first.turn.renewed && !second.turn.renewed && next.turn.renewed &&
        first.turn.live.contains 1 && !second.changes.contains (.left 1) &&
        !next.changes.contains (.left 1)
    | _ => false) = true := by
  decide +kernel

theorem probe_pass_circuit_two : ∃ n laps first second, circuitRun = some (n, laps) ∧
    first ∈ laps ∧ second ∈ laps ∧ timesTaken 1 [first.turn, second.turn] = 1 := by
  obtain ⟨⟨n, laps⟩, ran, checked⟩ := (Option.any_eq_true _ _).mp circuitRun_passes
  have same := ran
  simp only [circuitRun, bind, Option.bind_eq_some_iff] at ran
  obtain ⟨start, fresh, ran⟩ := ran
  have run := Recorded.run (.start _ _ _ _ _ start fresh) ran
  dsimp only at checked
  split at checked
  · rename_i a b first second next
    simp only [Bool.and_eq_true, Bool.not_eq_true', List.contains_iff_mem] at checked
    obtain ⟨⟨⟨⟨⟨begun, goes⟩, ended⟩, there⟩, stays⟩, stays'⟩ := checked
    have pass := (probe_pass_circuit sampleDecay n _ run).1 [a, b] first [second] next [] rfl begun
      (by simpa using goes) ended
    refine ⟨n, _, first, second, same, by simp, by simp, pass.1 1 there ?_⟩
    intro lap mem
    simp only [List.singleton_append, List.mem_cons, List.not_mem_nil, or_false] at mem
    rcases mem with rfl | rfl
    · simpa using stays
    · simpa using stays'
  · cases checked

end Rateguard
