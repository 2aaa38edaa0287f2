import Rateguard.Coverage
import Rateguard.Fading
import Rateguard.Probing

/- A peer that nothing speaks for: whatever else its node is asked and told, it is suspected once a
   probe of it goes unanswered, and dead a suspicion timeout later. -/
namespace Rateguard
open RoundRobin (Linked takes returns)

/- Nothing an operation brings speaks for a peer held at this incarnation: no newer news of it,
   and no answer to a probe of it. -/
structure Op.SilentOf (peer : PeerId) (incarnation : UInt32) (n : Node) (op : Op) : Prop where
  outdated : op.OutdatedOf peer incarnation
  unanswered : ∀ probe, n.probe = some probe → probe.target = peer → ∀ sender,
    op.Hears sender (.ack probe.seq) → sender ≠ peer ∧
      ∀ helpers, probe.helpers = some helpers → sender ∉ helpers

namespace Node

/- A probe of the peer waits for its answer. -/
def Pends (n : Node) (peer : PeerId) : Prop := ∃ probe, n.probe = some probe ∧ probe.target = peer

/- A tick leaves it waiting, or runs the round that accuses the peer. -/
theorem tick_pends {decay : Nat → Nat → ℚ} {n n' : Node} {peer : PeerId} {now : Nat}
    (sound : n.Sound) (pends : n.Pends peer) (h : n.handle decay .tick now = some n') :
    n.turn decay now = none ∧ n'.Pends peer ∨
      ∀ after, n'.members.members[peer]? = some after → after.status ≠ .alive := by
  obtain ⟨probe, pending, rfl⟩ := pends
  simp only [handle, bind, Option.bind_eq_some_iff] at h
  obtain ⟨a, advanced, h⟩ := h
  have opened := advance_some advanced
  split at h
  · rename_i left
    refine .inl ⟨?_, probe, ?_, rfl⟩
    · simp only [turn, processed, pendingState, roundState, advanced, bind, Option.bind_some,
        if_pos left, Option.bind_none]
    · rw [← Option.some.inj h, opened.2]
      exact pending
  · rename_i present
    simp only [tick, bind, Option.bind_eq_some_iff] at h
    obtain ⟨b, timed, c, ran, escalated⟩ := h
    have pendingB : b.probe = some probe := by
      rw [timeOut_frame timed, opened.2]
      exact pending
    have begun : Sound { a with actions := [] } := by
      rw [opened.2]
      exact sound.same rfl rfl
    have soundB := timeOut_sound begun timed
    split at ran
    · right
      intro after found
      obtain ⟨o, first, drained⟩ := round_members ran
      rw [escalate_frame escalated] at found
      dsimp only at found
      rw [drained] at found
      simp only [openRound, bind, Option.bind_eq_some_iff] at first
      obtain ⟨_, _, missed⟩ := first
      rcases missProbe_suspects missed with ⟨none, _⟩ | ⟨other, _, held, suspected⟩
      · simp [pendingB] at none
      have its : other = probe := Option.some.inj (held.symm.trans pendingB)
      rw [its] at suspected
      exact MemberTable.suspect_accuses soundB.members suspected found
    · rename_i early
      left
      constructor
      · simp only [turn, processed, pendingState, roundState, advanced, if_neg present, timed,
          if_neg early, bind, Option.bind_some, Option.bind_none]
      · obtain rfl := Option.some.inj ran
        rcases escalate_probe escalated with kept | ⟨before, helpers, held, asked⟩
        · exact ⟨probe, kept.trans pendingB, rfl⟩
        · rw [pendingB, Option.some.injEq] at held
          exact ⟨_, asked, by rw [← held]⟩

/- Nothing else clears it, while nothing answers it. -/
theorem step_pends {decay : Nat → Nat → ℚ} {n n' : Node} {peer : PeerId} {incarnation : UInt32}
    {op : Op} (sound : n.Sound) (pends : n.Pends peer) (silent : op.SilentOf peer incarnation n)
    (apart : ∀ now, op ≠ .handle .tick now) (h : n.step decay op = some n') : n'.Pends peer := by
  obtain ⟨probe, pending, target⟩ := pends
  have same (kept : n'.probe = n.probe) : n'.Pends peer := ⟨probe, kept.trans pending, target⟩
  cases step_conducts sound h with
  | ticks now is _ => exact absurd is (apart now)
  | rests quiet => exact same quiet.probe
  | replies sender header hears replied =>
    cases replied with
    | acks _ _ quiet | ignores _ quiet | answers _ _ quiet | departs quiet => exact same quiet.probe
    | passesOn _ _ _ _ _ _ kept | relays _ _ _ _ _ _ kept => exact same kept
    | clears seq held was number came =>
      rw [pending, Option.some.injEq] at was
      subst was
      obtain ⟨stranger, unasked⟩ := silent.unanswered probe pending target sender (number ▸ hears)
      rcases came with own | ⟨helpers, asked, mem⟩
      · exact absurd (own.trans target) stranger
      · exact absurd mem (unasked helpers asked)

theorem Sound.known_of_live {n : Node} (sound : n.Sound) {peer : PeerId}
    (live : peer ∈ n.members.live) :
    ∃ member, n.members.members[peer]? = some member ∧ member.isLive :=
  (sound.members.live_iff peer).mp live

end Node

section
variable {decay : Nat → Nat → ℚ} {n n' : Node}

theorem Reachable.recorded (reached : Reachable decay n) :
    ∃ moments, Recorded decay (noteMoment decay) [] (fun _ _ _ => True) n moments := by
  induction reached with
  | start config swim localId addr seed n h => exact ⟨_, .start config swim localId addr seed n h⟩
  | step n op n' _ h ih =>
    obtain ⟨moments, run⟩ := ih
    exact ⟨_, run.step n moments op n' trivial h⟩

theorem Reachable.rest_nodup (reached : Reachable decay n) : n.rest.Nodup := by
  obtain ⟨moments, run⟩ := reached.recorded
  obtain ⟨linked, fair⟩ := run.turns
  exact linked.nodup fair List.nodup_nil

variable (decay) in
/- A stretch of a run: its operations, each with the state it meets. -/
inductive Passage : Node → List (Node × Op) → Node → Prop
  | stays (n : Node) : Passage n [] n
  | acts {n m n' : Node} {op : Op} {rest : List (Node × Op)} : n.step decay op = some m →
      Passage m rest n' → Passage n ((n, op) :: rest) n'

variable (decay) in
def momentsOf (trace : List (Node × Op)) : List Moment :=
  trace.flatMap fun act => noteMoment decay act.1 [] act.2

namespace Passage
variable {trace early late : List (Node × Op)}

theorem split (run : Passage decay n (early ++ late) n') :
    ∃ m, Passage decay n early m ∧ Passage decay m late n' := by
  induction early generalizing n with
  | nil => exact ⟨n, .stays n, run⟩
  | cons act early ih =>
    cases run with
    | acts h rest =>
      obtain ⟨m, first, second⟩ := ih rest
      exact ⟨m, .acts h first, second⟩

theorem reaches (run : Passage decay n trace n') (reached : Reachable decay n) :
    Reachable decay n' := by
  induction run with
  | stays => exact reached
  | acts h _ ih => exact ih (reached.step _ _ _ h)

theorem later (run : Passage decay n trace n') : n.lastNow ≤ n'.lastNow := by
  induction run with
  | stays => exact Nat.le_refl _
  | acts h _ ih =>
    obtain ⟨later, clock⟩ := Node.step_clock h
    exact (later.trans (Nat.le_of_eq clock.symm)).trans ih

theorem swim (run : Passage decay n trace n') (reached : Reachable decay n) :
    n'.swim = n.swim := by
  induction run with
  | stays => rfl
  | acts h _ ih =>
    exact (ih (reached.step _ _ _ h)).trans (Node.step_policy reached.sound _ h).swim

theorem first {P : Node → Prop} (run : Passage decay n trace n')
    (met : ∀ m op, (m, op) ∈ trace → P m) (last : P n') : P n := by
  cases run with
  | stays => exact last
  | acts _ _ => exact met n _ List.mem_cons_self

theorem turns (run : Passage decay n trace n') (reached : Reachable decay n) :
    Linked n.rest (turnsOf (momentsOf decay trace)) n'.rest ∧
      ∀ turn ∈ turnsOf (momentsOf decay trace), turn.Fair := by
  induction run with
  | stays n => exact ⟨rfl, by simp [momentsOf, turnsOf]⟩
  | @acts n m n' op rest h _ ih =>
    obtain ⟨linked, fair⟩ := ih (reached.step _ _ _ h)
    have idle : noteMoment decay n [] op = [⟨n.members.live, none⟩] → m.rest = n.rest →
        Linked n.rest (turnsOf (momentsOf decay ((n, op) :: rest))) n'.rest ∧
          ∀ turn ∈ turnsOf (momentsOf decay ((n, op) :: rest)), turn.Fair := by
      intro noted same
      have none : turnsOf (momentsOf decay ((n, op) :: rest)) = turnsOf (momentsOf decay rest) := by
        simp [momentsOf, turnsOf, noted]
      rw [none, ← same]
      exact ⟨linked, fair⟩
    by_cases ticks : ∃ now, op = .handle .tick now
    · obtain ⟨now, rfl⟩ := ticks
      rcases Node.tick_turn h with ⟨turn, took, left, _⟩ | ⟨_, none, same⟩
      · obtain ⟨fairTurn, begins⟩ := Node.turn_fair reached.sound reached.rest_nodup took
        have more : turnsOf (momentsOf decay ((n, .handle .tick now) :: rest)) =
            turn :: turnsOf (momentsOf decay rest) := by
          simp [momentsOf, turnsOf, noteMoment, took]
        rw [more]
        refine ⟨⟨begins, left ▸ linked⟩, fun other mem => ?_⟩
        rcases List.mem_cons.mp mem with rfl | mem
        · exact fairTurn
        · exact fair other mem
      · exact idle (by simp [noteMoment, none]) same
    · refine idle ?_ (Node.step_rest reached.sound (fun now is => ticks ⟨now, is⟩) h)
      unfold noteMoment
      split
      · rename_i now
        exact absurd ⟨now, rfl⟩ ticks
      · rfl

variable {peer : PeerId} {incarnation : UInt32}

/- Through a stretch that is silent of a peer that stays live, its record wanes. -/
theorem wanes {since : Option Nat} (run : Passage decay n trace n') (reached : Reachable decay n)
    (outdated : ∀ m op, (m, op) ∈ trace → op.OutdatedOf peer incarnation)
    (live : ∀ m op, (m, op) ∈ trace → peer ∈ m.members.live) (last : peer ∈ n'.members.live)
    (held : ∃ member, n.members.members[peer]? = some member ∧ member.Wanes incarnation since) :
    ∃ member, n'.members.members[peer]? = some member ∧ member.Wanes incarnation since := by
  induction run with
  | stays => exact held
  | acts h rest ih =>
    obtain ⟨member, known, wanes⟩ := held
    have later := reached.step _ _ _ h
    have liveRest := fun m op mem => live m op (List.mem_cons_of_mem _ mem)
    obtain ⟨after, found, _⟩ := later.sound.known_of_live (rest.first liveRest last)
    refine ih later (fun m op mem => outdated m op (List.mem_cons_of_mem _ mem)) liveRest last
      ⟨after, found, ?_⟩
    exact Node.step_wanes reached.sound known wanes (outdated _ _ List.mem_cons_self) h found

/- A probe of it waits, or it is suspected by the end of the stretch. -/
theorem pends (run : Passage decay n trace n') (reached : Reachable decay n)
    (silent : ∀ m op, (m, op) ∈ trace → op.SilentOf peer incarnation m)
    (live : ∀ m op, (m, op) ∈ trace → peer ∈ m.members.live) (last : peer ∈ n'.members.live)
    (held : ∃ member, n.members.members[peer]? = some member ∧ member.Wanes incarnation none)
    (pending : n.Pends peer) :
    n'.Pends peer ∨ ∃ member, n'.members.members[peer]? = some member ∧
      member.Wanes incarnation (some n'.lastNow) := by
  induction run with
  | stays => exact .inl pending
  | @acts n m n' op trace h rest ih =>
    obtain ⟨member, known, wanes⟩ := held
    have later := reached.step _ _ _ h
    have liveRest := fun m op mem => live m op (List.mem_cons_of_mem _ mem)
    have silentRest := fun m op mem => silent m op (List.mem_cons_of_mem _ mem)
    have now := silent n op List.mem_cons_self
    obtain ⟨after, found, _⟩ := later.sound.known_of_live (rest.first liveRest last)
    have wanes := Node.step_wanes reached.sound known wanes now.outdated h found
    by_cases ticks : ∃ now, op = .handle .tick now
    · obtain ⟨now, rfl⟩ := ticks
      rcases Node.tick_pends reached.sound pending h with ⟨_, waits⟩ | accused
      · exact ih later silentRest liveRest last ⟨after, found, wanes⟩ waits
      · right
        have suspected : after.Wanes incarnation (some n'.lastNow) := by
          refine ⟨wanes.1, fun time is => ⟨accused after found, fun _ => ?_⟩⟩
          rw [← Option.some.inj is]
          exact (later.dated peer after found).trans rest.later
        exact rest.wanes later (fun m op mem => (silentRest m op mem).outdated) liveRest last
          ⟨after, found, suspected⟩
    · exact ih later silentRest liveRest last ⟨after, found, wanes⟩
        (Node.step_pends reached.sound pending now (fun now is => ticks ⟨now, is⟩) h)

end Passage
end

section
variable {decay : Nat → Nat → ℚ} {trace : List (Node × Op)}

theorem mem_momentsOf {m : Node} {op : Op} (mem : (m, op) ∈ trace) :
    ∃ moment ∈ momentsOf decay trace, moment.live = m.members.live := by
  have noted : ∃ moment ∈ noteMoment decay m [] op, moment.live = m.members.live := by
    unfold noteMoment
    split <;> exact ⟨_, List.mem_singleton_self _, rfl⟩
  obtain ⟨moment, there, live⟩ := noted
  exact ⟨moment, List.mem_flatMap.mpr ⟨(m, op), mem, there⟩, live⟩

theorem live_of_moments {peer : PeerId}
    (lives : ∀ moment ∈ momentsOf decay trace, moment.Live peer) :
    ∀ m op, (m, op) ∈ trace → peer ∈ m.members.live := by
  intro m op mem
  obtain ⟨moment, noted, same⟩ := @mem_momentsOf decay trace m op mem
  exact same ▸ (lives moment noted).1

theorem turnsOf_tick {turn : RoundRobin.Turn PeerId}
    (mem : turn ∈ turnsOf (momentsOf decay trace)) :
    ∃ m now, (m, .handle .tick now) ∈ trace ∧ m.turn decay now = some turn := by
  obtain ⟨moment, noted, took⟩ := List.mem_filterMap.mp mem
  obtain ⟨⟨m, op⟩, listed, there⟩ := List.mem_flatMap.mp noted
  dsimp only at there
  unfold noteMoment at there
  split at there
  · rename_i now
    rw [List.nil_append, List.mem_singleton] at there
    rw [there] at took
    exact ⟨m, now, listed, took⟩
  · rw [List.nil_append, List.mem_singleton] at there
    simp [there] at took

theorem Passage.probes {n n' : Node} {peer : PeerId} (run : Passage decay n trace n')
    (reached : Reachable decay n) (some' : trace ≠ [])
    (live : ∀ moment ∈ momentsOf decay trace, moment.Live peer)
    (enough : 2 * (everLive (momentsOf decay trace)).card +
      returns ∅ (turnsOf (momentsOf decay trace)) ≤ takes (turnsOf (momentsOf decay trace)) + 1) :
    ∃ turn ∈ turnsOf (momentsOf decay trace), turn.target = some peer := by
  obtain ⟨linked, fair⟩ := run.turns reached
  have members {other : PeerId} {moment : Moment} (mem : moment ∈ momentsOf decay trace)
      (there : other ∈ moment.live ++ moment.turn.toList.flatMap (·.live)) :
      other ∈ everLive (momentsOf decay trace) :=
    List.mem_toFinset.mpr (List.mem_flatMap.mpr ⟨moment, mem, there⟩)
  refine RoundRobin.taken_of_takes linked fair ?_ ?_ enough
  · obtain ⟨⟨m, op⟩, mem⟩ := List.exists_mem_of_ne_nil trace some'
    obtain ⟨moment, noted, _⟩ := @mem_momentsOf decay trace m op mem
    exact members noted (List.mem_append_left _ (live moment noted).1)
  · intro turn mem
    obtain ⟨moment, noted, took⟩ := List.mem_filterMap.mp mem
    refine ⟨(live moment noted).2 turn took, fun other there => members noted ?_⟩
    refine List.mem_append_right _ (List.mem_flatMap.mpr ⟨turn, ?_, there⟩)
    rw [took]
    exact List.mem_singleton.mpr rfl

end

/- A suspect whose time is up is not live after the next tick. -/
theorem Node.tick_kills {decay : Nat → Nat → ℚ} {n n' : Node} {now : Nat} {peer : PeerId}
    {member : Member} (sound : n.Sound) (present : n.left = false)
    (known : n.members.members[peer]? = some member) (suspect : member.status = .suspect)
    (due : n.swim.suspicionTimeout ≤ now - member.since)
    (h : n.handle decay .tick now = some n') : peer ∉ n'.members.live := by
  intro live
  obtain ⟨after, found, alive⟩ := (handle_sound sound h).known_of_live live
  have handled := h
  simp only [handle, bind, Option.bind_eq_some_iff] at h
  obtain ⟨a, advanced, h⟩ := h
  obtain ⟨_, rfl⟩ := advance_some advanced
  rw [if_neg (by simp [present])] at h
  simp only [tick, bind, Option.bind_eq_some_iff] at h
  obtain ⟨b, timed, c, ran, escalated⟩ := h
  have begun : Sound { n with lastNow := now, actions := [] } := sound.same rfl rfl
  have fades := ran_fades (timeOut_sound begun timed) ran
  rw [escalate_frame escalated] at found
  obtain ⟨held, there, fading⟩ := fades peer after found
  have dead : held.status = .dead := by
    simp only [timeOut, bind, Option.bind_eq_some_iff, Option.some.injEq] at timed
    obtain ⟨⟨expired, members⟩, expires, u, spreads, rfl⟩ := timed
    have same : u.members = members := by rw [spreadAll_frame spreads]
    dsimp only at there
    rw [MemberTable.forgetDead_members, Option.filter_eq_some_iff, same] at there
    exact MemberTable.expireSuspects_kills begun.members expires known suspect due there.1
  cases fading with
  | kept => simp [Member.isLive, dead] at alive
  | accused _ _ _ _ again => simp [dead] at again
  | died _ _ _ _ again => simp [Member.isLive, dead] at again

section
variable {decay : Nat → Nat → ℚ} {n n' : Node} {peer : PeerId} {incarnation : UInt32}

/- A stretch that probes often enough leaves a probe of the peer waiting, or the peer suspected. -/
theorem Passage.asks {trace : List (Node × Op)} (run : Passage decay n trace n')
    (reached : Reachable decay n) (some' : trace ≠ [])
    (silent : ∀ m op, (m, op) ∈ trace → op.SilentOf peer incarnation m)
    (lives : ∀ moment ∈ momentsOf decay trace, moment.Live peer) (last : peer ∈ n'.members.live)
    (held : ∃ member, n.members.members[peer]? = some member ∧ member.Wanes incarnation none)
    (enough : 2 * (everLive (momentsOf decay trace)).card +
      returns ∅ (turnsOf (momentsOf decay trace)) ≤ takes (turnsOf (momentsOf decay trace)) + 1) :
    n'.Pends peer ∨ ∃ member, n'.members.members[peer]? = some member ∧
      member.Wanes incarnation (some n'.lastNow) := by
  have live := live_of_moments lives
  obtain ⟨turn, mem, target⟩ := run.probes reached some' lives enough
  obtain ⟨asker, time, listed, took⟩ := turnsOf_tick mem
  obtain ⟨early, late, rfl⟩ := List.append_of_mem listed
  obtain ⟨_, began, probed⟩ := run.split
  cases probed with
  | @acts _ b _ _ _ probes after =>
  have reachedA := began.reaches reached
  have reachedB := reachedA.step _ _ _ probes
  have pending : b.Pends peer := by
    rcases Node.tick_turn probes with ⟨other, same, _, asks⟩ | ⟨_, none, _⟩
    · rw [took, Option.some.injEq] at same
      obtain ⟨probe, waits, its⟩ := (Option.any_eq_true _ _).mp (asks peer (same ▸ target))
      exact ⟨probe, waits, by simpa using its⟩
    · simp [none] at took
  have liveLate : ∀ m op, (m, op) ∈ late → peer ∈ m.members.live :=
    fun m op mem => live m op (by simp [mem])
  obtain ⟨before, there, wanes⟩ := began.wanes reached
    (fun m op mem => (silent m op (by simp [mem])).outdated)
    (fun m op mem => live m op (by simp [mem])) (live asker (.handle .tick time) (by simp)) held
  obtain ⟨record, found, _⟩ := reachedB.sound.known_of_live (after.first liveLate last)
  have now := Node.step_wanes reachedA.sound there wanes
    (silent asker (.handle .tick time) (by simp)).outdated probes found
  exact after.pends reachedB (fun m op mem => silent m op (by simp [mem])) liveLate last
    ⟨record, found, now⟩ pending

theorem Node.round_accuses {now : Nat} {record : Member} (reached : Reachable decay n)
    (rounds : (n.turn decay now).isSome) (h : n.handle decay .tick now = some n')
    (held : ∃ member, n.members.members[peer]? = some member ∧ member.Wanes incarnation none)
    (asked : n.Pends peer ∨ ∃ member, n.members.members[peer]? = some member ∧
      member.Wanes incarnation (some n.lastNow))
    (found : n'.members.members[peer]? = some record) :
    record.Wanes incarnation (some now) := by
  have stepped : n.step decay (.handle .tick now) = some n' := h
  have outdated : Op.OutdatedOf peer incarnation (.handle .tick now) := trivial
  obtain ⟨later, clock⟩ := step_clock stepped
  rcases asked with waits | ⟨member, known, wanes⟩
  · obtain ⟨member, known, wanes⟩ := held
    have kept := step_wanes reached.sound known wanes outdated stepped found
    rcases tick_pends reached.sound waits h with ⟨none, _⟩ | accused
    · simp [none] at rounds
    · refine ⟨kept.1, fun time is => ⟨accused record found, fun _ => ?_⟩⟩
      rw [← Option.some.inj is]
      exact ((reached.step _ _ _ stepped).dated peer record found).trans (Nat.le_of_eq clock)
  · have kept := step_wanes reached.sound known wanes outdated stepped found
    refine ⟨kept.1, fun time is => ⟨(kept.2 _ rfl).1, fun suspect => ?_⟩⟩
    rw [← Option.some.inj is]
    exact ((kept.2 _ rfl).2 suspect).trans later

end

/-- The failure detector is complete. Whatever else a node is asked and told, a peer that nothing
    speaks for does not stay live: not through rounds that probe often enough to come to it, the
    next round, and a tick a suspicion timeout later. -/
theorem silent_peer_fails (decay : Nat → Nat → ℚ) (n n' : Node) (reached : Reachable decay n)
    (trace probing waiting : List (Node × Op)) (round last : Node) (missed due : Nat)
    (run : Passage decay n trace n')
    (parts : trace = probing ++ (round, .handle .tick missed) ::
      (waiting ++ [(last, .handle .tick due)]))
    (peer : PeerId) (member : Member) (known : n.members.members[peer]? = some member)
    (silent : ∀ m op, (m, op) ∈ trace → op.SilentOf peer member.incarnation m)
    (some' : probing ≠ [])
    (enough : 2 * (everLive (momentsOf decay probing)).card +
      returns ∅ (turnsOf (momentsOf decay probing)) ≤ takes (turnsOf (momentsOf decay probing)) + 1)
    (rounds : (round.turn decay missed).isSome) (present : last.left = false)
    (waited : missed + n.swim.suspicionTimeout ≤ due) :
    peer ∉ n'.members.live ∨ ∃ moment ∈ momentsOf decay trace, ¬ moment.Live peer := by
  by_contra stays
  rw [not_or, not_not] at stays
  obtain ⟨livesOn, always⟩ := stays
  have lives : ∀ moment ∈ momentsOf decay trace, moment.Live peer := fun moment mem =>
    not_not.mp fun dead => always ⟨moment, mem, dead⟩
  have live := live_of_moments lives
  subst parts
  obtain ⟨s, probed, followed⟩ := run.split
  cases followed with
  | @acts _ t _ _ _ accuses rest =>
  obtain ⟨l, waits, ended⟩ := rest.split
  cases ended with
  | @acts _ m _ _ _ kills ended =>
  cases ended
  have reachedS := probed.reaches reached
  have reachedT := reachedS.step _ _ _ accuses
  have reachedL := waits.reaches reachedT
  have liveS : peer ∈ round.members.live := live round (.handle .tick missed) (by simp)
  have liveL : peer ∈ last.members.live := live last (.handle .tick due) (by simp)
  have liveWaiting : ∀ m op, (m, op) ∈ waiting → peer ∈ m.members.live :=
    fun m op mem => live m op (by simp [mem])
  -- the probes come to the peer, and the next round finds it silent
  have begun : ∃ record, n.members.members[peer]? = some record ∧
      record.Wanes member.incarnation none := ⟨member, known, rfl, by simp⟩
  have held := probed.wanes reached (fun m op mem => (silent m op (by simp [mem])).outdated)
    (fun m op mem => live m op (by simp [mem])) liveS begun
  have asked := probed.asks reached some' (fun m op mem => silent m op (by simp [mem]))
    (fun moment mem => lives moment (by
      simp only [momentsOf, List.flatMap_append]
      exact List.mem_append_left _ mem)) liveS begun enough
  obtain ⟨record, found, _⟩ := reachedT.sound.known_of_live (waits.first liveWaiting liveL)
  have suspected := Node.round_accuses reachedS rounds accuses held asked found
  -- it stays suspected until its time is up
  obtain ⟨ending, there, wanes⟩ := waits.wanes reachedT
    (fun m op mem => (silent m op (by simp [mem])).outdated) liveWaiting liveL
    ⟨record, found, suspected⟩
  obtain ⟨same, there', alive⟩ := reachedL.sound.known_of_live liveL
  rw [there, Option.some.injEq] at there'
  subst there'
  obtain ⟨condemned, since⟩ := wanes.2 missed rfl
  have suspect : ending.status = .suspect := by
    cases status : ending.status with
    | alive => exact absurd status condemned
    | suspect => rfl
    | dead => simp [Member.isLive, status] at alive
  have timeout : last.swim = n.swim :=
    ((waits.swim reachedT).trans (Node.step_policy reachedS.sound _ accuses).swim).trans
      (probed.swim reached)
  refine Node.tick_kills reachedL.sound present there suspect ?_ kills livesOn
  have le := since suspect
  rw [timeout]
  omega

/- Whether an operation says nothing for the peer, read off the datagram it brings. -/
def Op.quietOf (peer : PeerId) (incarnation : UInt32) (n : Node) (op : Op) : Bool :=
  op.datagram.all fun taken => (decode taken.2).toOption.all fun message =>
    (message.updates.all fun update => update.member != peer || update.incarnation ≤ incarnation) &&
      n.probe.all fun probe => probe.target != peer || message.header != .ack probe.seq ||
        taken.1 != peer && probe.helpers.all fun helpers => !helpers.contains taken.1

theorem Op.quietOf_silent {peer : PeerId} {incarnation : UInt32} {n : Node} {op : Op}
    (quiet : op.quietOf peer incarnation n = true) : op.SilentOf peer incarnation n := by
  simp only [quietOf, Option.all_eq_true, Bool.and_eq_true, Bool.or_eq_true, List.all_eq_true,
    bne_iff_ne, ne_eq, decide_eq_true_eq, Bool.not_eq_true', List.contains_eq_mem,
    decide_eq_false_iff_not] at quiet
  constructor
  · unfold OutdatedOf
    split
    · rename_i sender bytes now
      intro message decoded update mem own
      obtain ⟨news, _⟩ := quiet (sender, bytes) rfl message (by rw [decoded]; rfl)
      exact (news update mem).resolve_left fun other => other own
    · trivial
  · rintro probe waits rfl sender ⟨bytes, message, taken, decoded, acks⟩
    obtain ⟨_, answers⟩ := quiet (sender, bytes) taken message (by rw [decoded]; rfl)
    rcases answers probe waits with apart | ⟨stranger, unasked⟩
    · exact absurd acks (apart.resolve_left (· rfl))
    · exact ⟨stranger, unasked⟩

def Node.traced (n : Node) : List Op → Option (List (Node × Op) × Node)
  | [] => some ([], n)
  | op :: rest => do
    let m ← n.step sampleDecay op
    let (trace, n') ← m.traced rest
    some ((n, op) :: trace, n')

theorem Passage.traced {n : Node} {ops : List Op} {traced : List (Node × Op) × Node}
    (h : n.traced ops = some traced) : Passage sampleDecay n traced.1 traced.2 := by
  induction ops generalizing n traced with
  | nil =>
    rw [← Option.some.inj h]
    exact .stays n
  | cons op rest ih =>
    simp only [Node.traced, bind, Option.bind_eq_some_iff, Option.some.injEq] at h
    obtain ⟨m, stepped, later, ran, rfl⟩ := h
    exact .acts stepped (ih ran)

theorem Passage.append {decay : Nat → Nat → ℚ} {n m n' : Node} {early late : List (Node × Op)}
    (first : Passage decay n early m) (second : Passage decay m late n') :
    Passage decay n (early ++ late) n' := by
  induction first with
  | stays => exact second
  | acts h _ ih => exact .acts h (ih second)

def ownNews : List Update := [⟨2, sampleAddress 2, 0, .alive⟩]

/- The parts of a run in which peer 1 is accused at 600 ms, and its time is up at 6600. -/
structure Silenced where
  met : Node
  probing : List (Node × Op)
  round : Node
  waiting : List (Node × Op)
  last : Node
  ended : Node

def Silenced.trace (s : Silenced) : List (Node × Op) :=
  s.probing ++ (s.round, .handle .tick (ms 600)) ::
    (s.waiting ++ [(s.last, .handle .tick (ms 6600))])

/- Of two peers 2 answers its probes, and pings; 1 answers nothing, nor does 2 for it. -/
def silencedRun : Option Silenced := do
  let start ← Node.sample 0 0
  let met ← start.run sampleDecay
    [.introduce 1 (sampleAddress 1), .introduce 2 (sampleAddress 2)]
  let (probing, round) ← met.traced [.handle .tick 0,
    sampleOp 2 (.ack 3938468761 ownNews []) (ms 50), .handle .tick (ms 200),
    sampleOp 2 (.ping 7 ownNews []) (ms 250), .handle .tick (ms 300),
    sampleOp 2 (.ping 8 ownNews []) (ms 350), .handle .tick (ms 400)]
  let accused ← round.step sampleDecay (.handle .tick (ms 600))
  let (waiting, last) ← accused.traced [sampleOp 2 (.ack 3938468764 ownNews []) (ms 650),
    .handle .tick (ms 800), sampleOp 2 (.ping 9 ownNews []) (ms 900), .handle .tick (ms 6000)]
  let ended ← last.step sampleDecay (.handle .tick (ms 6600))
  some ⟨met, probing, round, waiting, last, ended⟩

theorem silencedRun_passes {s : Silenced} (h : silencedRun = some s) :
    Reachable sampleDecay s.met ∧ Passage sampleDecay s.met s.trace s.ended := by
  simp only [silencedRun, bind, Option.bind_eq_some_iff, Option.some.injEq] at h
  obtain ⟨start, fresh, met, introduced, probed, first, accused, accuses, waited, second, ended,
    ends, rfl⟩ := h
  have waits := (Passage.traced second).append (.acts ends (.stays _))
  exact ⟨.sample fresh introduced, (Passage.traced first).append (.acts accuses waits)⟩

theorem silencedRun_met : (silencedRun.any fun s =>
    decide ((s.met.members.members[(1 : PeerId)]?.map (·.incarnation)) = some 0) &&
      (s.trace.all fun act => act.2.quietOf 1 0 act.1) && !s.probing.isEmpty &&
      decide (2 * (everLive (momentsOf sampleDecay s.probing)).card +
        returns ∅ (turnsOf (momentsOf sampleDecay s.probing)) ≤
          takes (turnsOf (momentsOf sampleDecay s.probing)) + 1) &&
      (s.round.turn sampleDecay (ms 600)).isSome && !s.last.left &&
      decide (s.met.swim.suspicionTimeout = ms 6000) &&
      decide ((1 : PeerId) ∈ s.last.members.live)) = true := by
  decide +kernel

theorem silent_peer_fails_of_two : ∃ s, silencedRun = some s ∧
    (1 : PeerId) ∈ s.last.members.live ∧
      ((1 : PeerId) ∉ s.ended.members.live ∨
        ∃ moment ∈ momentsOf sampleDecay s.trace, ¬ moment.Live 1) := by
  obtain ⟨s, ran, checked⟩ := (Option.any_eq_true _ _).mp silencedRun_met
  simp only [Bool.and_eq_true, decide_eq_true_eq, Bool.not_eq_true', Option.map_eq_some_iff,
    List.all_eq_true, List.isEmpty_eq_false_iff] at checked
  obtain ⟨⟨⟨⟨⟨⟨⟨⟨member, known, zero⟩, quiet⟩, some'⟩, enough⟩, rounds⟩, present⟩, timeout⟩, live⟩ :=
    checked
  obtain ⟨reached, run⟩ := silencedRun_passes ran
  have silent : ∀ m op, (m, op) ∈ s.trace → op.SilentOf 1 member.incarnation m :=
    fun m op mem => Op.quietOf_silent (zero ▸ quiet (m, op) mem)
  refine ⟨s, ran, live, ?_⟩
  exact silent_peer_fails sampleDecay s.met s.ended reached s.trace s.probing s.waiting s.round s.last
    (ms 600) (ms 6600) run rfl 1 member known silent some' enough rounds present
    (by rw [timeout]; decide)

end Rateguard
