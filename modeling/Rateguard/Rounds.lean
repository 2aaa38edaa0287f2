import Rateguard.OutdatedLeave

/- What the sizes a node holds, and the size its majority is counted against, do in one step:
   a round records, an accepted leave takes away, a new policy starts over, and nothing else
   touches them. -/
namespace Rateguard
open Std (ExtTreeMap)

namespace Node

/- The state a tick's round applies the policy to, if the tick runs a round. -/
def roundState (n : Node) (now : Nat) : Option Node := do
  let n ← n.advance now
  if n.left then none
  else do
    let n ← { n with actions := [] }.timeOut now
    if n.nextRoundAt ≤ now then n.openRound now else none

/- What the policy remembers, and its settings, are the same. -/
structure Steady (n n' : Node) : Prop where
  swim : n'.swim = n.swim
  policy : n'.policy = n.policy
  sizes : n'.sizes = n.sizes
  quorumSize : n'.quorumSize = n.quorumSize
  quorumMemory : n'.quorumMemory = n.quorumMemory
  withoutQuorumSince : n'.withoutQuorumSince = n.withoutQuorumSince

theorem Steady.trans {n m n' : Node} (first : Steady n m) (second : Steady m n') : Steady n n' :=
  ⟨second.swim.trans first.swim, second.policy.trans first.policy,
    second.sizes.trans first.sizes, second.quorumSize.trans first.quorumSize,
    second.quorumMemory.trans first.quorumMemory,
    second.withoutQuorumSince.trans first.withoutQuorumSince⟩

theorem timeOut_frame {n n' : Node} {now : Nat} (h : n.timeOut now = some n') :
    n' = { n with
      members := n'.members, gossip := n'.gossip, introducing := n'.introducing
      lastHeard := n'.lastHeard, behind := n'.behind, relays := n'.relays } := by
  simp only [timeOut, bind, Option.bind_eq_some_iff, Option.some.injEq] at h
  obtain ⟨⟨expired, members⟩, _, a, spreads, rfl⟩ := h
  rw [spreadAll_frame spreads]

theorem openRound_frame {n n' : Node} {now : Nat} (h : n.openRound now = some n') :
    n' = { n with
      nextRoundAt := n'.nextRoundAt, lastRound := n'.lastRound, members := n'.members
      gossip := n'.gossip, probe := none } ∧ now + n.swim.protocolPeriod ≤ u64Max := by
  simp only [openRound, bind, Option.bind_eq_some_iff, addU64_eq_some] at h
  obtain ⟨_, ⟨fits, rfl⟩, missed⟩ := h
  have frame := missProbe_frame missed
  refine ⟨?_, fits⟩
  rw [frame]

/- What a round leaves is what the policy made of the state it was applied to. -/
structure PolicyApplied (m n' : Node) (now : Nat) : Prop where
  swim : n'.swim = m.swim
  policy : n'.policy = m.policy
  lastNow : n'.lastNow = m.lastNow
  recorded : m.sizes.record now m.members.clusterSize = some (n'.heldSize, n'.sizes)
  quorumSize : n'.quorumSize =
    if (m.countQuorum now).2.1 then m.knownForQuorum else (m.countQuorum now).1
  withoutQuorumSince : n'.withoutQuorumSince = (m.countQuorum now).2.2

theorem applyPolicy_applied {m n' : Node} {now : Nat} (h : m.applyPolicy now = some n') :
    PolicyApplied m n' now := by
  simp only [applyPolicy, bind, Option.bind_eq_some_iff] at h
  obtain ⟨⟨heldSize, sizes⟩, recorded, flooredUntil, _, h⟩ := h
  have frame := refreshCap_frame h
  constructor
  case recorded => rw [frame]; exact recorded
  all_goals rw [frame]

theorem round_applied {decay : Nat → Nat → ℚ} {n n' : Node} {now : Nat}
    (h : n.round decay now = some n') : ∃ m, n.openRound now = some m ∧ PolicyApplied m n' now := by
  simp only [round, bind, Option.bind_eq_some_iff] at h
  obtain ⟨m, opened, b, policy, c, shares, d, reported, e, followed, stale, _, ⟨target, f⟩,
    chosen, h⟩ := h
  refine ⟨m, opened, ?_⟩
  have applied := applyPolicy_applied policy
  have frameC := applyShares_frame shares
  have frameD := reportDemand_frame reported
  have frameE := followChanges_frame followed
  have frameF := chooseTarget_frame chosen
  have last : n' = { f with
      seq := n'.seq, probe := n'.probe, gossip := n'.gossip, introducing := n'.introducing
      actions := n'.actions } := by
    dsimp only at h
    split at h
    · exact ping_frame h
    · exact (Option.some.inj h) ▸ rfl
  rw [frameE, frameD, frameC] at frameF
  rw [frameF] at last
  rw [last]
  exact ⟨applied.swim, applied.policy, applied.lastNow, applied.recorded, applied.quorumSize,
    applied.withoutQuorumSince⟩

theorem tick_applied {decay : Nat → Nat → ℚ} {n n' : Node} {now : Nat}
    (later : n.lastNow ≤ now) (present : n.left = false)
    (h : n.handle decay .tick now = some n') :
    (∃ m, n.roundState now = some m ∧ Steady n m ∧ m.lastNow = now ∧
        now + n.swim.protocolPeriod ≤ u64Max ∧ PolicyApplied m n' now) ∨
      (n.roundState now = none ∧ Steady n n' ∧ n'.lastNow = now) := by
  simp only [handle, advance, later, ↓reduceIte, present, bind, Option.bind_some,
    Bool.false_eq_true, tick, Option.bind_eq_some_iff] at h
  obtain ⟨a, timed, b, rounds, h⟩ := h
  have frameA := timeOut_frame timed
  have frameLast := escalate_frame h
  simp only [roundState, advance, later, ↓reduceIte, present, bind, Option.bind_some,
    Bool.false_eq_true, timed]
  split at rounds
  · rename_i due
    left
    obtain ⟨m, opened, applied⟩ := round_applied rounds
    obtain ⟨frameM, fits⟩ := openRound_frame opened
    have swim : a.swim = n.swim := by rw [frameA]
    refine ⟨m, by simp [due, opened], ?_, ?_, swim ▸ fits, ?_⟩
    · rw [frameA] at frameM
      constructor <;> rw [frameM]
    · rw [frameA] at frameM
      rw [frameM]
    · rw [frameLast]
      exact ⟨applied.swim, applied.policy, applied.lastNow, applied.recorded, applied.quorumSize,
        applied.withoutQuorumSince⟩
  · rename_i early
    right
    have same := Option.some.inj rounds
    subst same
    rw [frameA] at frameLast
    exact ⟨by simp [early], by constructor <;> rw [frameLast], by rw [frameLast]⟩

theorem roundState_sound {n m : Node} {now : Nat} (sound : n.Sound)
    (h : n.roundState now = some m) : m.Sound := by
  simp only [roundState, bind, Option.bind_eq_some_iff] at h
  obtain ⟨a, advanced, h⟩ := h
  obtain ⟨_, rfl⟩ := advance_some advanced
  split at h
  · simp at h
  · simp only [Option.bind_eq_some_iff] at h
    obtain ⟨b, timed, h⟩ := h
    have soundB : b.Sound := by
      refine timeOut_sound ?_ timed
      exact sound.same rfl rfl
    split at h
    · exact openRound_sound soundB h
    · simp at h

theorem answer_steady {n n' : Node} {sender : PeerId} {message : Message} {now : Nat}
    (h : n.answer sender message now = some n') : Steady n n' ∧ n'.lastNow = n.lastNow := by
  have frame := answer_frame h
  exact ⟨by constructor <;> rw [frame], by rw [frame]⟩

theorem learnAll_steady {n n' : Node} {updates : List Update} {now : Nat}
    (h : n.learnAll updates now = some n') : Steady n n' ∧ n'.lastNow = n.lastNow := by
  have frame := learnAll_frame h
  exact ⟨by constructor <;> rw [frame], by rw [frame]⟩

theorem hear_steady {n n' : Node} {sender : PeerId} {newcomer : Bool} {message : Message}
    {now : Nat} (h : n.hear sender newcomer message now = some n') :
    Steady n n' ∧ n'.lastNow = n.lastNow := by
  have frame := hear_frame h
  exact ⟨by constructor <;> rw [frame], by rw [frame]⟩

theorem refreshCap_steady {n n' : Node} {now : Nat} (h : n.refreshCap now = some n') :
    Steady n n' ∧ n'.lastNow = n.lastNow := by
  have frame := refreshCap_frame h
  exact ⟨by constructor <;> rw [frame], by rw [frame]⟩

theorem learn_steady {n n' : Node} {update : Update} {now : Nat}
    (h : n.learn update now = some n') : Steady n n' ∧ n'.lastNow = n.lastNow := by
  have frame := learn_frame h
  exact ⟨by constructor <;> rw [frame], by rw [frame]⟩

/- A message that is no leave. -/
theorem receiveMessage_steady {n n' : Node} {sender : PeerId} {message : Message} {now : Nat}
    (told : ∀ updates, message ≠ .leave updates)
    (h : n.receiveMessage sender message now = some n') :
    Steady n n' ∧ n'.lastNow = n.lastNow := by
  simp only [receiveMessage, bind, Option.bind_eq_some_iff] at h
  obtain ⟨a, learned, h⟩ := h
  obtain ⟨steadyA, clockA⟩ := learnAll_steady learned
  cases message with
  | leave updates => exact absurd rfl (told updates)
  | ping | ack | pingReq =>
    obtain ⟨b, heard, h⟩ := h
    obtain ⟨steadyB, clockB⟩ := hear_steady heard
    obtain ⟨steadyC, clockC⟩ := answer_steady h
    refine ⟨(Steady.trans ?_ steadyB).trans steadyC, clockC.trans (clockB.trans clockA)⟩
    exact ⟨steadyA.swim, steadyA.policy, steadyA.sizes, steadyA.quorumSize, steadyA.quorumMemory,
      steadyA.withoutQuorumSince⟩

theorem Steady.refl (n : Node) : Steady n n := ⟨rfl, rfl, rfl, rfl, rfl, rfl⟩

/- A message that is no leave the node accepts changes nothing the policy remembers. -/
theorem message_steady {decay : Nat → Nat → ℚ} {n n' : Node} {sender : PeerId}
    {bytes : List UInt8} {now : Nat} (sound : n.Sound) (later : n.lastNow ≤ now)
    (idle : n.acceptedLeave (.messageReceived sender bytes) = none)
    (h : n.handle decay (.messageReceived sender bytes) now = some n') :
    Steady n n' ∧ n'.lastNow = now := by
  cases brings : n.leaveOf (.messageReceived sender bytes) with
  | some own =>
    obtain ⟨_, _, _, stranger, _, dead⟩ := leaveOf_some brings
    rw [handle_leave later brings, Option.map_eq_some_iff] at h
    obtain ⟨u, learned, rfl⟩ := h
    obtain ⟨applied, told⟩ := learn_members learned
    have outcome : n.members.Outcome own now applied u.members :=
      MemberTable.apply_spec sound.members told
    have untaken : n.members.takesLeave own = false := by
      simpa [acceptedLeave, brings, Option.filter_some] using idle
    have unmarked := (outcome.marks dead stranger).trans untaken
    rw [depart_unmarked unmarked]
    obtain ⟨steady, clock⟩ := learn_steady learned
    refine ⟨Steady.trans ?_ steady, clock⟩
    exact ⟨rfl, rfl, rfl, rfl, rfl, rfl⟩
  | none =>
    simp only [handle, advance, later, ↓reduceIte, bind, Option.bind_some] at h
    split at h
    · exact (Option.some.inj h) ▸ ⟨⟨rfl, rfl, rfl, rfl, rfl, rfl⟩, rfl⟩
    rename_i present
    simp only [receive] at h
    split at h
    · exact (Option.some.inj h) ▸ ⟨⟨rfl, rfl, rfl, rfl, rfl, rfl⟩, rfl⟩
    rename_i stranger
    split at h
    · exact (Option.some.inj h) ▸ ⟨⟨rfl, rfl, rfl, rfl, rfl, rfl⟩, rfl⟩
    rename_i message decoded
    split at h
    · rename_i proper
      have told : ∀ updates, message ≠ .leave updates := by
        rintro updates rfl
        -- A well-formed leave is one the event brings.
        simp only [wellFormedLeave] at proper
        split at proper
        · rename_i own
          simp only [Bool.and_eq_true, decide_eq_true_eq] at proper
          simp [leaveOf, present, stranger, decoded, proper.1, proper.2] at brings
        · simp at proper
      obtain ⟨steady, clock⟩ := receiveMessage_steady told h
      refine ⟨Steady.trans ?_ steady, clock⟩
      exact ⟨rfl, rfl, rfl, rfl, rfl, rfl⟩
    · exact (Option.some.inj h) ▸ ⟨⟨rfl, rfl, rfl, rfl, rfl, rfl⟩, rfl⟩

/- An operation that runs no round, brings no leave the node accepts, and sets nothing of the
   policy. -/
def Idle (n : Node) : Op → Prop
  | .setPartitionPolicy _ | .setQuorumMemory _ => False
  | .handle .tick now => n.roundState now = none
  | .handle event _ => n.acceptedLeave event = none
  | _ => True

/-- Every way one operation may touch what the policy remembers. -/
inductive PolicyStep (n : Node) : Op → Node → Prop
  | round (now : Nat) (m n' : Node) : n.lastNow ≤ now → n.roundState now = some m →
      Steady n m → m.lastNow = now → now + n.swim.protocolPeriod ≤ u64Max →
      PolicyApplied m n' now → PolicyStep n (.handle .tick now) n'
  | departure (sender : PeerId) (bytes : List UInt8) (now : Nat) (peer : PeerId) (n' : Node) :
      n.lastNow ≤ now → n.acceptedLeave (.messageReceived sender bytes) = some peer →
      Departs n peer now n' → PolicyStep n (.handle (.messageReceived sender bytes) now) n'
  | policy (policy : PartitionPolicy) (n' : Node) :
      Steady { n with policy, sizes := .new (holdOf policy) } n' → n'.lastNow = n.lastNow →
      PolicyStep n (.setPartitionPolicy policy) n'
  | memory (memory : Nat) : PolicyStep n (.setQuorumMemory memory) (n.setQuorumMemory memory)
  | idle (op : Op) (n' : Node) : n.Idle op → n.lastNow ≤ n'.lastNow → Steady n n' →
      PolicyStep n op n'

theorem handle_policy {decay : Nat → Nat → ℚ} {n n' : Node} {event : Event} {now : Nat}
    (sound : n.Sound) (h : n.handle decay event now = some n') :
    PolicyStep n (.handle event now) n' := by
  have later : n.lastNow ≤ now := by
    simp only [handle, bind, Option.bind_eq_some_iff] at h
    obtain ⟨a, advanced, _⟩ := h
    exact (advance_some advanced).1
  cases event with
  | tick =>
    cases left : n.left with
    | false =>
      rcases tick_applied later left h with ⟨m, state, steady, clock, fits, applied⟩ |
        ⟨none, steady, clock⟩
      · exact .round now m n' later state steady clock fits applied
      · exact .idle _ _ none (clock ▸ later) steady
    | true =>
      have none : n.roundState now = none := by
        simp [roundState, advance, later, left]
      simp only [handle, advance, later, ↓reduceIte, left, bind, Option.bind_some,
        Option.some.injEq] at h
      subst h
      exact .idle _ _ none later ⟨rfl, rfl, rfl, rfl, rfl, rfl⟩
  | messageReceived sender bytes =>
    cases accepted : n.acceptedLeave (.messageReceived sender bytes) with
    | some peer =>
      exact .departure sender bytes now peer n' later accepted
        (handle_departs sound later accepted h)
    | none =>
      obtain ⟨steady, clock⟩ := message_steady sound later accepted h
      exact .idle _ _ accepted (clock ▸ later) steady

theorem PolicyStep.swim {n n' : Node} {op : Op} (h : PolicyStep n op n') : n'.swim = n.swim := by
  cases h with
  | round now m _ _ _ steady _ _ applied => exact applied.swim.trans steady.swim
  | departure _ _ _ _ _ _ _ departs => exact departs.swim
  | policy _ _ steady => exact steady.swim
  | memory => rfl
  | idle _ _ _ _ steady => exact steady.swim

theorem step_policy {decay : Nat → Nat → ℚ} {n n' : Node} (sound : n.Sound) (op : Op)
    (h : n.step decay op = some n') : PolicyStep n op n' := by
  -- The functions that end in refreshCap, and those that set other fields.
  have refreshed {u : Node} (op : Op) (now : Nat) (idle : n.Idle op) (same : Steady n u)
      (clock : u.lastNow = n.lastNow) (h : u.refreshCap now = some n') : PolicyStep n op n' := by
    obtain ⟨steady, clock'⟩ := refreshCap_steady h
    exact .idle op n' idle (Nat.le_of_eq (clock'.trans clock).symm) (same.trans steady)
  cases op with
  | introduce peer addr =>
    simp only [step, introduce] at h
    split at h
    · simp at h
    · simp only [bind, Option.bind_eq_some_iff] at h
      obtain ⟨⟨applied, members⟩, _, h⟩ := h
      split at h
      · refine refreshed _ _ trivial ?_ ?_ h
        · exact ⟨rfl, rfl, rfl, rfl, rfl, rfl⟩
        · rfl
      · have same := Option.some.inj h
        subst same
        exact .idle _ _ trivial (Nat.le_refl _) ⟨rfl, rfl, rfl, rfl, rfl, rfl⟩
  | addSeed seed addr =>
    simp only [step, addSeed] at h
    split at h
    · simp at h
    · refine refreshed _ _ trivial ?_ ?_ h
      · split <;> exact ⟨rfl, rfl, rfl, rfl, rfl, rfl⟩
      · split <;> rfl
  | removeSeed seed =>
    refine refreshed _ _ trivial ?_ ?_ h
    · exact ⟨rfl, rfl, rfl, rfl, rfl, rfl⟩
    · rfl
  | expectPeers expected =>
    refine refreshed _ _ trivial ?_ ?_ h
    · exact ⟨rfl, rfl, rfl, rfl, rfl, rfl⟩
    · rfl
  | setPartitionPolicy policy =>
    obtain ⟨steady, clock⟩ := refreshCap_steady h
    refine .policy policy n' ⟨steady.swim, steady.policy, steady.sizes, steady.quorumSize,
      steady.quorumMemory, steady.withoutQuorumSince⟩ clock
  | setQuorumMemory memory => exact (Option.some.inj h) ▸ .memory memory
  | setMaxMembers max =>
    simp only [step, setMaxMembers, bind, Option.bind_eq_some_iff, Option.some.injEq] at h
    obtain ⟨members, _, rfl⟩ := h
    exact .idle _ _ trivial (Nat.le_refl _) ⟨rfl, rfl, rfl, rfl, rfl, rfl⟩
  | record key tally limit now =>
    simp only [step, record, bind, Option.bind_eq_some_iff, Option.some.injEq] at h
    obtain ⟨a, advanced, limiter, _, rfl⟩ := h
    obtain ⟨later, rfl⟩ := advance_some advanced
    exact .idle _ _ trivial later ⟨rfl, rfl, rfl, rfl, rfl, rfl⟩
  | checkIn key limit now =>
    simp only [step, checkIn, bind, Option.bind_eq_some_iff, Option.map_eq_some_iff,
      Option.some.injEq] at h
    obtain ⟨_, ⟨a, advanced, ⟨decision, limiter⟩, _, rfl⟩, rfl⟩ := h
    obtain ⟨later, rfl⟩ := advance_some advanced
    exact .idle _ _ trivial later ⟨rfl, rfl, rfl, rfl, rfl, rfl⟩
  | checkInTraced key limit shadow now =>
    simp only [step, checkInTraced, bind, Option.bind_eq_some_iff, Option.map_eq_some_iff,
      Option.some.injEq] at h
    obtain ⟨_, ⟨a, advanced, ⟨decisions, limiter⟩, _, rfl⟩, rfl⟩ := h
    obtain ⟨later, rfl⟩ := advance_some advanced
    exact .idle _ _ trivial later ⟨rfl, rfl, rfl, rfl, rfl, rfl⟩
  | handle event now => exact handle_policy sound h
  | leave now =>
    simp only [step, leave, bind, Option.bind_eq_some_iff] at h
    obtain ⟨a, advanced, h⟩ := h
    obtain ⟨later, rfl⟩ := advance_some advanced
    split at h
    · have same := Option.some.inj h
      subst same
      exact .idle _ _ trivial later ⟨rfl, rfl, rfl, rfl, rfl, rfl⟩
    · simp only [Option.bind_eq_some_iff] at h
      obtain ⟨own, _, h⟩ := h
      have frame := sendLeave_frame h
      rw [frame]
      exact .idle _ _ trivial later ⟨rfl, rfl, rfl, rfl, rfl, rfl⟩
  | rehash keys =>
    simp only [step, rehash, Option.ite_none_right_eq_some, Option.some.injEq] at h
    obtain ⟨_, rfl⟩ := h
    exact .idle _ _ trivial (Nat.le_refl _) ⟨rfl, rfl, rfl, rfl, rfl, rfl⟩

end Node

theorem Reachable.swim_valid {decay : Nat → Nat → ℚ} {n : Node} (reached : Reachable decay n) :
    n.swim.Valid := by
  induction reached with
  | start config swim localId addr seed n h =>
    unfold Node.new at h
    split at h
    · rename_i valid
      simp only [bind, Option.bind_eq_some_iff, Option.some.injEq] at h
      obtain ⟨members, _, limiter, _, rfl⟩ := h
      exact valid
    · simp at h
  | step n op n' reached h valid =>
    rw [(Node.step_policy reached.sound op h).swim]
    exact valid

end Rateguard
