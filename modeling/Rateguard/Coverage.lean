import Rateguard.ProbeOrder
import Rateguard.Reachable

/- Which peers the rounds of a run probe: every peer that stays live, unless peers the pass has
   probed already return to it. -/
namespace Rateguard
open RoundRobin (Turn Linked takes returns)

namespace Node

/- A tick that runs a round takes its turn, and probes whom the turn takes. -/
theorem tick_turn {decay : Nat → Nat → ℚ} {n n' : Node} {now : Nat}
    (h : n.handle decay .tick now = some n') :
    (∃ turn, n.turn decay now = some turn ∧ n'.rest = turn.left ∧
      ∀ peer, turn.target = some peer → n'.probe.any (·.target = peer) = true) ∨
    (n.roundState now = none ∧ n.turn decay now = none ∧ n'.rest = n.rest) := by
  simp only [handle, bind, Option.bind_eq_some_iff] at h
  obtain ⟨a, advanced, h⟩ := h
  have opened := advance_some advanced
  split at h
  · rename_i left
    right
    refine ⟨?_, ?_, ?_⟩
    · simp only [roundState, advanced, bind, Option.bind_some, if_pos left]
    · simp only [turn, processed, pendingState, roundState, advanced, bind, Option.bind_some,
        if_pos left, Option.bind_none]
    · rw [← Option.some.inj h, opened.2]
      rfl
  rename_i present
  simp only [tick, bind, Option.bind_eq_some_iff] at h
  obtain ⟨b, timed, c, ran, escalated⟩ := h
  have rest : n'.rest = c.rest := by
    rw [rest, rest, escalate_frame escalated]
  have restB : b.rest = n.rest := by
    rw [timeOut_frame timed, opened.2]
    rfl
  split at ran
  · rename_i due
    left
    simp only [round, bind, Option.bind_eq_some_iff] at ran
    obtain ⟨o, first, p, policy, s, shares, r, reported, f, followed, stale, window,
      ⟨target, g⟩, chosen, pinged⟩ := ran
    obtain ⟨turn, took, left, target'⟩ := chooseTarget_turn r chosen
    refine ⟨turn, ?_, ?_, ?_⟩
    · simp only [Node.turn, processed, pendingState, roundState, advanced, if_neg present, timed,
        if_pos due, first, policy, shares, reported, followed, bind, Option.bind_some, window, took]
    · rw [rest, ← left]
      dsimp only at pinged
      split at pinged
      · rw [ping_frame pinged]
        rfl
      · rw [Option.some.inj pinged]
    · intro peer same
      obtain rfl := target' peer same
      obtain ⟨probed, _⟩ := ping_probe pinged
      rcases escalate_probe escalated with kept | ⟨probe, helpers, pending, asked⟩
      · rw [kept, probed]
        simp
      · rw [probed, Option.some.injEq] at pending
        rw [asked, ← pending]
        simp
  · rename_i early
    right
    refine ⟨?_, ?_, ?_⟩
    · simp only [roundState, advanced, if_neg present, timed, if_neg early, bind, Option.bind_some]
    · simp only [turn, processed, pendingState, roundState, advanced, if_neg present, timed,
        if_neg early, bind, Option.bind_some, Option.bind_none]
    · rw [rest, ← Option.some.inj ran, restB]

theorem step_rest {decay : Nat → Nat → ℚ} {n n' : Node} (sound : n.Sound) {op : Op}
    (apart : ∀ now, op ≠ .handle .tick now) (h : n.step decay op = some n') : n'.rest = n.rest := by
  by_cases handles : ∃ event now, op = .handle event now
  · obtain ⟨event, now, rfl⟩ := handles
    rcases (handle_cases h).2 with rfl | ⟨_, rfl, _⟩ | ⟨_, _, _, _, _, _, _, _, received⟩
    · rfl
    · exact absurd rfl (apart now)
    · rw [receiveMessage_frame received]
      rfl
  · have frame := (step_apart sound (fun event now is => handles ⟨event, now, is⟩) h).frame
    rw [rest, rest, frame]

theorem new_rest {config : Config} {swim : SwimConfig} {localId : PeerId} {addr : Address}
    {seed : UInt64} {n : Node} (h : Node.new config swim localId addr seed = some n) :
    n.rest = [] := by
  unfold Node.new at h
  split at h
  · simp only [bind, Option.bind_eq_some_iff, Option.some.injEq] at h
    obtain ⟨members, _, limiter, _, rfl⟩ := h
    rfl
  · simp at h

end Node

/- One operation of a run: who is live before it, and the turn of the round it runs, if any. -/
structure Moment where
  live : List PeerId
  turn : Option (Turn PeerId)
  deriving DecidableEq

def Moment.Live (moment : Moment) (peer : PeerId) : Prop :=
  peer ∈ moment.live ∧ ∀ turn ∈ moment.turn, peer ∈ turn.live

def turnsOf (moments : List Moment) : List (Turn PeerId) := moments.filterMap (·.turn)

def everLive (moments : List Moment) : Finset PeerId :=
  (moments.flatMap fun moment => moment.live ++ moment.turn.toList.flatMap (·.live)).toFinset

def noteMoment (decay : Nat → Nat → ℚ) (n : Node) (moments : List Moment) : Op → List Moment
  | .handle .tick now => moments ++ [⟨n.members.live, n.turn decay now⟩]
  | _ => moments ++ [⟨n.members.live, none⟩]

theorem Recorded.turns {decay : Nat → Nat → ℚ} {n : Node} {moments : List Moment}
    (run : Recorded decay (noteMoment decay) [] (fun _ _ _ => True) n moments) :
    Linked [] (turnsOf moments) n.rest ∧ ∀ turn ∈ turnsOf moments, turn.Fair := by
  induction run with
  | start config swim localId addr seed n h =>
    refine ⟨?_, by simp [turnsOf]⟩
    rw [Node.new_rest h]
    rfl
  | step m moments op n before _ h ih =>
    obtain ⟨linked, fair⟩ := ih
    have sound := before.reachable.sound
    have nodup := linked.nodup fair List.nodup_nil
    have idle : turnsOf (moments ++ [⟨m.members.live, none⟩]) = turnsOf moments := by
      simp [turnsOf]
    by_cases ticks : ∃ now, op = .handle .tick now
    · obtain ⟨now, rfl⟩ := ticks
      simp only [noteMoment]
      rcases Node.tick_turn h with ⟨turn, took, left, _⟩ | ⟨_, none, same⟩
      · obtain ⟨fairTurn, rest⟩ := Node.turn_fair sound nodup took
        have more : turnsOf (moments ++ [⟨m.members.live, some turn⟩]) =
            turnsOf moments ++ [turn] := by
          simp [turnsOf]
        rw [took, more, left]
        refine ⟨linked.snoc rest, fun other mem => ?_⟩
        rcases List.mem_append.mp mem with old | new
        · exact fair other old
        · rw [List.mem_singleton.mp new]
          exact fairTurn
      · rw [none, idle, same]
        exact ⟨linked, fair⟩
    · have noted : noteMoment decay m moments op = moments ++ [⟨m.members.live, none⟩] := by
        unfold noteMoment
        split
        · rename_i now
          exact absurd ⟨now, rfl⟩ ticks
        · rfl
      rw [noted, idle, Node.step_rest sound (fun now is => ticks ⟨now, is⟩) h]
      exact ⟨linked, fair⟩

instance (moment : Moment) (peer : PeerId) : Decidable (moment.Live peer) :=
  inferInstanceAs (Decidable (_ ∧ _))

end Rateguard
