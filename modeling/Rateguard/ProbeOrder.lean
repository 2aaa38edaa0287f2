import Rateguard.PendingChanges
import Rateguard.RoundRobin
import Rateguard.Tables

/- The probe order: each round is one turn of a round robin over the live peers. -/
namespace Rateguard
open RoundRobin (Turn Takes Linked)
open AscendingList (Ascending binarySearch)

theorem drop_insertIdx {α : Type} (items : List α) (next offset : Nat) (item : α)
    (within : next ≤ items.length) :
    (items.insertIdx (next + offset) item).drop next = (items.drop next).insertIdx offset item := by
  induction next generalizing items with
  | zero => simp
  | succ next ih =>
    cases items with
    | nil => simp at within
    | cons first rest =>
      have step : (first :: rest).insertIdx (next + 1 + offset) item =
          first :: rest.insertIdx (next + offset) item := by
        rw [show next + 1 + offset = next + offset + 1 by omega, List.insertIdx_succ_cons]
      rw [step, List.drop_succ_cons, List.drop_succ_cons]
      exact ih rest (by simpa using within)

def joinedBy (changes : List Change) : List PeerId :=
  changes.filterMap fun change => match change with
    | .joined peer => some peer
    | .left _ => none

theorem mem_joinedBy {changes : List Change} {peer : PeerId} :
    peer ∈ joinedBy changes ↔ .joined peer ∈ changes := by
  simp only [joinedBy, List.mem_filterMap]
  constructor
  · rintro ⟨change, mem, is⟩
    cases change with
    | joined other =>
      dsimp only at is
      rw [← Option.some.inj is]
      exact mem
    | left other => simp at is
  · intro mem
    exact ⟨.joined peer, mem, rfl⟩

namespace Node

def rest (n : Node) : List PeerId := n.order.drop n.next

theorem followChange_rest {n n' : Node} {now : Nat} {change : Change}
    (h : n.followChange now change = some n') (nodup : n.rest.Nodup) :
    n'.rest.Nodup ∧ ∀ peer, peer ∈ n'.rest ↔ peer ∈ n.rest ∨ change = .joined peer := by
  cases change with
  | left gone =>
    simp only [followChange, Option.some.injEq] at h
    subst h
    exact ⟨nodup, fun peer => by simp [rest]⟩
  | joined newcomer =>
    simp only [followChange] at h
    split at h
    · rename_i within
      split at h
      · rename_i present
        obtain rfl := Option.some.inj h
        rw [List.contains_iff_mem] at present
        refine ⟨nodup, fun peer => ⟨.inl, ?_⟩⟩
        rintro (there | same)
        · exact there
        · rw [← Change.joined.inj same]
          exact present
      · rename_i absent
        rw [List.contains_iff_mem] at absent
        split at h
        · rename_i fits
          obtain rfl := Option.some.inj h
          have moved : ({ n with
              order := n.order.insertIdx (n.next + (n.rng.upTo (n.order.length - n.next)).1) newcomer
              rng := (n.rng.upTo (n.order.length - n.next)).2 } : Node).rest =
              n.rest.insertIdx (n.rng.upTo (n.order.length - n.next)).1 newcomer :=
            drop_insertIdx n.order n.next _ newcomer within
          have perm : (n.rest.insertIdx (n.rng.upTo (n.order.length - n.next)).1 newcomer).Perm
              (newcomer :: n.rest) := by
            refine List.perm_insertIdx newcomer n.rest ?_
            rw [rest, List.length_drop]
            omega
          rw [moved]
          refine ⟨perm.nodup_iff.mpr (List.nodup_cons.mpr ⟨absent, nodup⟩), fun peer => ?_⟩
          rw [perm.mem_iff, List.mem_cons, Change.joined.injEq, or_comm, eq_comm]
        · simp at h
    · simp at h

theorem followChanges_rest {n n' : Node} {now : Nat} (h : n.followChanges now = some n')
    (nodup : n.rest.Nodup) :
    n'.rest.Nodup ∧ ∀ peer, peer ∈ n'.rest ↔ peer ∈ n.rest ∨ peer ∈ joinedBy n.members.changes := by
  have each : ∀ (changes : List Change) (m : Node), m.rest.Nodup →
      changes.foldlM (fun n change => n.followChange now change) m = some n' →
      n'.rest.Nodup ∧ ∀ peer, peer ∈ n'.rest ↔ peer ∈ m.rest ∨ .joined peer ∈ changes := by
    intro changes
    induction changes with
    | nil =>
      intro m nodup h
      simp only [List.foldlM_nil, Option.pure_def, Option.some.injEq] at h
      subst h
      exact ⟨nodup, by simp⟩
    | cons change rest ih =>
      intro m nodup h
      simp only [List.foldlM_cons, bind, Option.bind_eq_some_iff] at h
      obtain ⟨u, first, h⟩ := h
      obtain ⟨nodupU, memU⟩ := followChange_rest first nodup
      obtain ⟨nodup', mem'⟩ := ih u nodupU h
      refine ⟨nodup', fun peer => ?_⟩
      rw [mem' peer, memU peer, List.mem_cons, or_assoc, eq_comm]
  obtain ⟨nodup', mem'⟩ := each _ { n with members := { n.members with changes := [] } } nodup h
  refine ⟨nodup', fun peer => ?_⟩
  rw [mem' peer, mem_joinedBy]
  rfl

theorem takeFrom_takes {live : List PeerId} (ascending : Ascending live) (order : List PeerId)
    (next : Nat) :
    (∃ skipped target left, order = skipped ++ target :: left ∧ target ∈ live ∧
      (∀ peer ∈ skipped, peer ∉ live) ∧
      takeFrom live order next = (some target, next + skipped.length + 1)) ∨
    ((∀ peer ∈ order, peer ∉ live) ∧ takeFrom live order next = (none, next + order.length)) := by
  induction order generalizing next with
  | nil => exact .inr ⟨by simp, rfl⟩
  | cons peer rest ih =>
    by_cases alive : peer ∈ live
    · obtain ⟨index, search⟩ := AscendingList.binarySearch_ok_of_mem ascending alive
      refine .inl ⟨[], peer, rest, rfl, alive, by simp, ?_⟩
      simp only [takeFrom, search, List.length_nil, Nat.add_zero]
    · obtain ⟨index, search⟩ := AscendingList.binarySearch_error_of_notMem alive
      simp only [takeFrom, search]
      rcases ih (next + 1) with ⟨skipped, target, left, rfl, mem, dead, taken⟩ | ⟨dead, taken⟩
      · refine .inl ⟨peer :: skipped, target, left, rfl, mem, ?_, ?_⟩
        · intro other passed
          rcases List.mem_cons.mp passed with rfl | passed
          · exact alive
          · exact dead other passed
        · rw [taken, List.length_cons]
          congr 1
          omega
      · refine .inr ⟨?_, ?_⟩
        · intro other mem
          rcases List.mem_cons.mp mem with rfl | mem
          · exact alive
          · exact dead other mem
        · rw [taken, List.length_cons]
          congr 1
          omega

theorem takeLive_takes {n : Node} (ascending : Ascending n.members.live) :
    (∃ target n', n.takeLive = (some target, n') ∧
      Takes n.members.live n.rest (some target) false n'.rest) ∨
    ((∀ peer ∈ n.rest, peer ∉ n.members.live) ∧
      n.takeLive = (none, { n with next := n.next + n.rest.length })) := by
  unfold takeLive
  rcases takeFrom_takes ascending n.rest n.next with
    ⟨skipped, target, left, split, mem, dead, taken⟩ | ⟨dead, taken⟩
  · left
    rw [rest] at taken split
    refine ⟨target, { n with next := n.next + skipped.length + 1 }, by rw [taken], ?_⟩
    have after : ({ n with next := n.next + skipped.length + 1 } : Node).rest = left := by
      rw [rest]
      dsimp only
      rw [Nat.add_assoc, ← List.drop_drop, split, ← List.singleton_append, ← List.append_assoc]
      exact List.drop_left' (by simp)
    rw [after, rest, split]
    exact .takes skipped target left mem dead
  · right
    rw [rest] at taken dead
    exact ⟨dead, by rw [taken, rest]⟩

theorem nextTarget_takes {n n' : Node} {target : Option PeerId}
    (ascending : Ascending n.members.live) (h : n.nextTarget = some (target, n')) :
    Takes n.members.live n.rest target n.takeLive.1.isNone n'.rest := by
  unfold nextTarget at h
  rcases takeLive_takes ascending with ⟨found, m, taken, takes⟩ | ⟨dead, taken⟩
  · rw [taken] at h ⊢
    simp only [Option.some.injEq, Prod.mk.injEq] at h
    obtain ⟨rfl, rfl⟩ := h
    exact takes
  · rw [taken] at h ⊢
    simp only [bind, Option.bind_eq_some_iff, Option.some.injEq] at h
    obtain ⟨⟨order, rng⟩, shuffled, h⟩ := h
    have perm := Rng.shuffleFrom_perm shuffled
    have again := takeLive_takes
      (n := { n with next := 0, order, rng }) ascending
    dsimp only at h again
    rcases again with ⟨found, m, takenThen, takes⟩ | ⟨gone, takenThen⟩
    · rw [takenThen, Prod.mk.injEq] at h
      obtain ⟨rfl, rfl⟩ := h
      exact takes.renewed dead perm
    · rw [takenThen, Prod.mk.injEq] at h
      obtain ⟨rfl, rfl⟩ := h
      have nobody : n.members.live = [] := by
        refine List.eq_nil_iff_forall_not_mem.mpr fun peer mem => ?_
        exact gone peer (perm.mem_iff.mpr mem) mem
      have nothing : ({ n with
          order, rng, next := 0 + ({ n with next := 0, order, rng } : Node).rest.length }
          : Node).rest = [] := by
        simp [rest]
      rw [nothing]
      exact .idles n.rest nobody

/- The round's turn, once it has acted on the changes: none is taken from the order when the
   probe goes to a lost peer instead. -/
def turnOf (before after : Node) (now : Nat) : Option (Turn PeerId) := do
  let joined := joinedBy before.members.changes
  let (lost, n) ← (if after.nextReconnectAt ≤ now then after.randomLost else some (none, after))
  match lost with
  | some _ => some ⟨before.rest, joined, after.members.live, none, false, after.rest⟩
  | none =>
    let (target, n') ← n.nextTarget
    some ⟨before.rest, joined, after.members.live, target, n.takeLive.1.isNone, n'.rest⟩

def turn (decay : Nat → Nat → ℚ) (n : Node) (now : Nat) : Option (Turn PeerId) := do
  let (before, after) ← n.processed decay now
  let stale ← after.staleAfter after.allocationSize
  let expired := { after with
    peerDemand := after.peerDemand.expire now (satAdd stale (holdOf after.policy)) }
  turnOf before expired now

theorem turnOf_some {before after : Node} {now : Nat} {turn : Turn PeerId}
    (h : turnOf before after now = some turn) (ascending : Ascending after.members.live) :
    turn.rest = before.rest ∧ turn.joined = joinedBy before.members.changes ∧
      turn.live = after.members.live ∧
      Takes after.members.live after.rest turn.target turn.renewed turn.left := by
  simp only [turnOf, bind, Option.bind_eq_some_iff] at h
  obtain ⟨⟨lost, n⟩, first, h⟩ := h
  have frame : n = { after with rng := n.rng } := by
    split at first
    · exact randomLost_frame first
    · simp only [Option.some.injEq, Prod.mk.injEq] at first
      obtain ⟨_, rfl⟩ := first
      rfl
  dsimp only at h
  split at h
  · obtain rfl := Option.some.inj h
    exact ⟨rfl, rfl, rfl, .waits _⟩
  · simp only [Option.bind_eq_some_iff, Option.some.injEq] at h
    obtain ⟨⟨target, n'⟩, next, rfl⟩ := h
    refine ⟨rfl, rfl, rfl, ?_⟩
    have members : n.members = after.members := by rw [frame]
    have rest : n.rest = after.rest := by rw [frame, Node.rest, Node.rest]
    have took := nextTarget_takes (members ▸ ascending) next
    rw [members, rest] at took
    exact took

/- What chooseTarget makes of the order is the turn, and the target it takes is its choice. -/
theorem chooseTarget_turn (before : Node) {after n' : Node} {now : Nat} {target : Option PeerId}
    (h : after.chooseTarget now = some (target, n')) :
    ∃ turn, turnOf before after now = some turn ∧ n'.rest = turn.left ∧
      ∀ peer, turn.target = some peer → target = some peer := by
  simp only [chooseTarget, bind, Option.bind_eq_some_iff] at h
  obtain ⟨⟨lost, n⟩, first, h⟩ := h
  simp only [turnOf, first, bind, Option.bind_some]
  cases lost with
  | some lost =>
    simp only [Option.bind_eq_some_iff, Option.some.injEq, Prod.mk.injEq] at h
    obtain ⟨at', _, _, rfl⟩ := h
    refine ⟨_, rfl, ?_, by simp⟩
    have frame : n = { after with rng := n.rng } := by
      split at first
      · exact randomLost_frame first
      · simp at first
    rw [frame]
    rfl
  | none =>
    simp only [Option.bind_eq_some_iff] at h
    obtain ⟨⟨found, m⟩, second, h⟩ := h
    refine ⟨_, Option.bind_eq_some_iff.mpr ⟨⟨found, m⟩, second, rfl⟩, ?_, ?_⟩
    · split at h
      · simp only [Option.some.injEq, Prod.mk.injEq] at h
        rw [← h.2]
      · rw [randomLost_frame h]
        rfl
    · intro peer same
      dsimp only at same
      subst same
      simp only [Option.some.injEq, Prod.mk.injEq] at h
      exact h.1.symm

theorem pendingState_rest {decay : Nat → Nat → ℚ} {n m : Node} {now : Nat} (sound : n.Sound)
    (h : n.pendingState decay now = some m) : m.Sound ∧ m.rest = n.rest := by
  simp only [pendingState, roundState, bind, Option.bind_eq_some_iff] at h
  obtain ⟨o, ⟨a, advanced, h⟩, p, policy, s, shares, reported⟩ := h
  obtain ⟨_, rfl⟩ := advance_some advanced
  split at h
  · simp at h
  · simp only [Option.bind_eq_some_iff, Option.ite_none_right_eq_some] at h
    obtain ⟨t, timed, _, opened⟩ := h
    have soundT : t.Sound := by
      refine timeOut_sound ?_ timed
      exact sound.same rfl rfl
    have soundO := openRound_sound soundT opened
    have frameP := applyPolicy_frame policy
    have soundP : p.Sound := soundO.same (by rw [frameP]) (by rw [frameP])
    have frameS := applyShares_frame shares
    have soundS : s.Sound := soundP.same (by rw [frameS]) (by rw [frameS])
    have frameM := reportDemand_frame reported
    refine ⟨soundS.same (by rw [frameM]) (by rw [frameM]), ?_⟩
    rw [frameM, frameS, frameP, (openRound_frame opened).1, timeOut_frame timed]
    rfl

theorem turn_fair {decay : Nat → Nat → ℚ} {n : Node} {now : Nat} {turn : Turn PeerId}
    (sound : n.Sound) (nodup : n.rest.Nodup) (h : n.turn decay now = some turn) :
    turn.Fair ∧ turn.rest = n.rest := by
  simp only [Node.turn, processed, bind, Option.bind_eq_some_iff, Option.some.injEq] at h
  obtain ⟨⟨before, after⟩, ⟨b, pending, a, followed, same⟩, stale, _, h⟩ := h
  obtain ⟨rfl, rfl⟩ := Prod.mk.inj same
  obtain ⟨soundB, restB⟩ := pendingState_rest sound pending
  have soundA := followChanges_sound soundB followed
  obtain ⟨rest, joined, live, took⟩ := turnOf_some h soundA.members.ascending
  obtain ⟨nodupA, memA⟩ := followChanges_rest followed (restB ▸ nodup)
  refine ⟨⟨?_, _, nodupA, ?_, ?_⟩, rest.trans restB⟩
  · rw [live]
    exact soundA.members.ascending.nodup
  · rw [rest, joined]
    exact memA
  · rw [live]
    exact took

end Node
end Rateguard
