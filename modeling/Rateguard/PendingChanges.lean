import Rateguard.Rounds
import Rateguard.DemandStore

/- The changes of the membership a round acts on: what they do to the demand of a peer that is
   live again by then. -/
namespace Rateguard
open Std (ExtTreeMap)

theorem PeerDemand.leave_get (d : PeerDemand) (gone : PeerId) (now hold : Nat) (peer : PeerId) :
    (d.leave gone now hold).peers[peer]? =
      if gone = peer then
        if hold = 0 then none
        else d.peers[peer]?.map fun heard => { heard with heldUntil := some (satAdd now hold) }
      else d.peers[peer]? := by
  unfold leave
  by_cases same : gone = peer
  · subst same
    by_cases zero : hold = 0
    · simp [zero, forget]
    · cases heard : d.peers[gone]? <;> simp [zero, heard]
  · have other : compare gone peer ≠ .eq := by
      simpa only [ne_eq, Std.LawfulEqCmp.compare_eq_iff_eq] using same
    by_cases zero : hold = 0
    · simp [zero, forget, same, other, ExtTreeMap.getElem?_erase]
    · cases heard : d.peers[gone]? <;> simp [zero, same, other, ExtTreeMap.getElem?_insert]

theorem PeerDemand.forget_get (d : PeerDemand) (gone peer : PeerId) :
    (d.forget gone).peers[peer]? = if gone = peer then none else d.peers[peer]? := by
  simp only [forget, ExtTreeMap.getElem?_erase, Std.LawfulEqCmp.compare_eq_iff_eq]

namespace Node

def pendingState (decay : Nat → Nat → ℚ) (n : Node) (now : Nat) : Option Node := do
  let n ← n.roundState now
  let n ← n.applyPolicy now
  let n ← n.applyShares decay now
  n.reportDemand now

def processed (decay : Nat → Nat → ℚ) (n : Node) (now : Nat) : Option (Node × Node) := do
  let before ← n.pendingState decay now
  let after ← before.followChanges now
  some (before, after)

/- Every round that returns has processed the changes, and its tick leaves what is not stale of the
   demand they leave. -/
theorem handle_processed {decay : Nat → Nat → ℚ} {n n' m : Node} {now : Nat}
    (h : n.handle decay .tick now = some n') (rounds : n.roundState now = some m) :
    ∃ round stale, n.processed decay now = some round ∧
      round.2.staleAfter round.2.allocationSize = some stale ∧
      n'.peerDemand = round.2.peerDemand.expire now (satAdd stale (holdOf round.2.policy)) := by
  simp only [handle, bind, Option.bind_eq_some_iff] at h
  obtain ⟨a, advanced, h⟩ := h
  simp only [roundState, advanced, bind, Option.bind_some] at rounds
  split at h
  · rename_i left
    rw [if_pos left] at rounds
    simp at rounds
  rename_i present
  simp only [tick, bind, Option.bind_eq_some_iff] at h
  obtain ⟨b, timed, c, ran, escalated⟩ := h
  rw [if_neg present, timed, Option.bind_some] at rounds
  split at rounds
  · rename_i due
    rw [if_pos due] at ran
    simp only [round, bind, Option.bind_eq_some_iff] at ran
    obtain ⟨opened, first, p, policy, s, shares, r, reported, f, followed, stale, window,
      ⟨target, t⟩, chosen, probes⟩ := ran
    refine ⟨(r, f), stale, ?_, window, ?_⟩
    · simp only [processed, pendingState, roundState, advanced, if_neg present, timed, if_pos due,
        first, policy, shares, reported, followed, bind, Option.bind_some]
    · rw [escalate_frame escalated]
      cases target with
      | none => rw [← Option.some.inj probes, chooseTarget_frame chosen]
      | some target => rw [ping_frame probes, chooseTarget_frame chosen]
  · simp at rounds

theorem followChange_demand {n n' : Node} {now : Nat} {change : Change}
    (h : n.followChange now change = some n') (peer : PeerId) :
    n'.peerDemand.peers[peer]? =
      if change = .left peer then
        if n.members.hasDeparted peer ∨ holdOf n.policy = 0 then none
        else n.peerDemand.peers[peer]?.map fun heard =>
          { heard with heldUntil := some (satAdd now (holdOf n.policy)) }
      else n.peerDemand.peers[peer]? := by
  cases change with
  | joined other =>
    simp only [reduceCtorEq, ↓reduceIte]
    simp only [followChange] at h
    split at h
    · split at h
      · exact (Option.some.inj h) ▸ rfl
      · split at h
        · exact (Option.some.inj h) ▸ rfl
        · simp at h
    · simp at h
  | left gone =>
    simp only [followChange, Option.some.injEq] at h
    subst h
    simp only [Change.left.injEq]
    by_cases same : gone = peer
    · subst same
      by_cases departed : n.members.hasDeparted gone = true
      · simp [departed, PeerDemand.forget_get]
      · simp [departed, PeerDemand.leave_get]
    · by_cases departed : n.members.hasDeparted gone = true
      · simp [departed, PeerDemand.forget_get, same]
      · simp [departed, PeerDemand.leave_get, same]

/- A peer none of the changes is a Left of keeps its demand; one that some is a Left of is
   forgotten or held. -/
theorem followChanges_demand {n n' : Node} {now : Nat} (h : n.followChanges now = some n')
    (peer : PeerId) :
    (.left peer ∉ n.members.changes → n'.peerDemand.peers[peer]? = n.peerDemand.peers[peer]?) ∧
      (.left peer ∈ n.members.changes → ∀ record, n'.peerDemand.peers[peer]? = some record →
        record.heldUntil.isSome) := by
  have each : ∀ (changes : List Change) (m : Node),
      changes.foldlM (fun n change => n.followChange now change) m = some n' →
      (.left peer ∉ changes → n'.peerDemand.peers[peer]? = m.peerDemand.peers[peer]?) ∧
        ((∀ record, m.peerDemand.peers[peer]? = some record → record.heldUntil.isSome) ∨
            .left peer ∈ changes →
          ∀ record, n'.peerDemand.peers[peer]? = some record → record.heldUntil.isSome) := by
    intro changes
    induction changes with
    | nil =>
      intro m h
      simp only [List.foldlM_nil, Option.pure_def, Option.some.injEq] at h
      subst h
      simp
    | cons change rest ih =>
      intro m h
      simp only [List.foldlM_cons, bind, Option.bind_eq_some_iff] at h
      obtain ⟨u, first, h⟩ := h
      have demand := followChange_demand first peer
      obtain ⟨kept, held⟩ := ih u h
      constructor
      · intro absent
        rw [List.mem_cons, not_or] at absent
        rw [kept absent.2, demand, if_neg (Ne.symm absent.1)]
      · intro gone
        -- a Left of the peer leaves nothing or a held record, and neither is undone
        have after : change = .left peer ∨
            (∀ record, m.peerDemand.peers[peer]? = some record → record.heldUntil.isSome) →
            ∀ record, u.peerDemand.peers[peer]? = some record → record.heldUntil.isSome := by
          intro cause record there
          rw [demand] at there
          split at there
          · split at there
            · simp at there
            · rw [Option.map_eq_some_iff] at there
              obtain ⟨_, _, rfl⟩ := there
              rfl
          · rename_i other
            exact cause.resolve_left other record there
        rcases gone with before | mem
        · exact held (.inl (after (.inr before)))
        · rcases List.mem_cons.mp mem with now' | later
          · exact held (.inl (after (.inl now'.symm)))
          · exact held (.inr later)
  obtain ⟨kept, held⟩ := each _ _ h
  exact ⟨kept, fun mem => held (.inr mem)⟩

end Node

/- What the store heard from the peer is as it was, and the peer is not held for an absence. -/
structure DemandKept (before after : Node) (peer : PeerId) : Prop where
  heard : ∀ key, after.peerDemand.get peer key = before.peerDemand.get peer key
  present : ∀ record, after.peerDemand.peers[peer]? = some record → record.heldUntil = none

/-- No Left of the peer is still to be acted on, and it is not held since an earlier one. -/
structure NoneLeft (before : Node) (peer : PeerId) : Prop where
  pending : .left peer ∉ before.members.changes
  earlier : ∀ record, before.peerDemand.peers[peer]? = some record → record.heldUntil = none

/- A Left of a peer that was heard is never without effect. -/
theorem demandKept_iff {before after : Node} {now : Nat}
    (h : before.followChanges now = some after) {peer : PeerId} {key : UInt64} {heard : Heard}
    (said : before.peerDemand.get peer key = some heard) :
    DemandKept before after peer ↔ NoneLeft before peer := by
  obtain ⟨kept, held⟩ := Node.followChanges_demand h peer
  constructor
  · intro same
    have pending : .left peer ∉ before.members.changes := by
      intro mem
      have still := same.heard key
      rw [said, PeerDemand.get, Option.bind_eq_some_iff] at still
      obtain ⟨record, there, _⟩ := still
      have marked := held mem record there
      rw [same.present record there] at marked
      simp at marked
    refine ⟨pending, fun record there => same.present record ?_⟩
    rw [kept pending, there]
  · rintro ⟨pending, earlier⟩
    have same := kept pending
    constructor
    · intro key
      rw [PeerDemand.get, PeerDemand.get, same]
    · intro record there
      exact earlier record (same ▸ there)

/- The rounds of a run, each with its state before and after it acted on the changes. -/
def noteProcessed (decay : Nat → Nat → ℚ) (n : Node) (rounds : List (Node × Node)) :
    Op → List (Node × Node)
  | .handle .tick now => (n.processed decay now).toList ++ rounds
  | _ => rounds

theorem Recorded.processed {decay : Nat → Nat → ℚ} {n : Node} {rounds : List (Node × Node)}
    (run : Recorded decay (noteProcessed decay) [] (fun _ _ _ => True) n rounds) :
    ∀ round ∈ rounds, ∃ now, round.1.followChanges now = some round.2 := by
  induction run with
  | start => simp
  | step m rounds op _ _ _ _ ih =>
    intro round mem
    unfold noteProcessed at mem
    split at mem
    · rename_i now _
      rcases List.mem_append.mp mem with new | old
      · rw [Option.mem_toList] at new
        simp only [Node.processed, bind, Option.bind_eq_some_iff, Option.some.injEq] at new
        obtain ⟨before, _, after, followed, rfl⟩ := new
        exact ⟨now, followed⟩
      · exact ih round old
    · exact ih round mem

/-- In every run and every round of it, a live peer whose demand was heard keeps it when the
    round acts on the pending changes, and is not held for an absence, if and only if no Left
    of it was pending and it was not still held since an earlier one. Every tick that runs a round
    notes it, and leaves of the demand then kept what is not stale. -/
theorem live_demand_kept (decay : Nat → Nat → ℚ) (n : Node) (rounds : List (Node × Node))
    (run : Recorded decay (noteProcessed decay) [] (fun _ _ _ => True) n rounds) :
    (∀ round ∈ rounds, ∀ peer, round.2.isLive peer = true → ∀ key heard,
      round.1.peerDemand.get peer key = some heard →
        (DemandKept round.1 round.2 peer ↔ NoneLeft round.1 peer)) ∧
    ∀ now m n', n.roundState now = some m → n.handle decay .tick now = some n' →
      ∃ round stale, noteProcessed decay n rounds (.handle .tick now) = round :: rounds ∧
        round.2.staleAfter round.2.allocationSize = some stale ∧
        n'.peerDemand = round.2.peerDemand.expire now (satAdd stale (holdOf round.2.policy)) := by
  refine ⟨fun round mem peer _ key heard said => ?_, fun now m n' due h => ?_⟩
  · obtain ⟨now, followed⟩ := run.processed round mem
    exact demandKept_iff followed said
  · obtain ⟨round, stale, noted, window, left⟩ := Node.handle_processed h due
    exact ⟨round, stale, by rw [noteProcessed, noted]; rfl, window, left⟩

/- A peer reports, and a round acts on its joining alone. -/
def joinedRun : Option (Node × List (Node × Node)) := do
  let start ← Node.sample 0 0
  Node.runRecorded sampleDecay (noteProcessed sampleDecay) (fun _ _ _ => True) start []
    [.introduce 1 (sampleAddress 1),
     sampleOp 1 (.ack 0 [⟨1, sampleAddress 1, 0, .alive⟩] [inEpoch 7 3 42 eighty]) 0,
     .handle .tick 0]

theorem joinedRun_keeps : (joinedRun.any fun (_, rounds) => rounds.any fun round =>
    round.2.isLive 1 && (round.1.peerDemand.get 1 42).isSome &&
      !round.1.members.changes.contains (.left 1) &&
      (round.1.peerDemand.peers[(1 : PeerId)]?.bind (·.heldUntil)).isNone) = true := by
  decide +kernel

theorem live_demand_kept_joined : ∃ n rounds, joinedRun = some (n, rounds) ∧
    ∃ round ∈ rounds, DemandKept round.1 round.2 1 := by
  obtain ⟨⟨n, rounds⟩, ran, checked⟩ := (Option.any_eq_true _ _).mp joinedRun_keeps
  simp only [List.any_eq_true, Bool.and_eq_true, Bool.not_eq_true', List.contains_eq_mem,
    decide_eq_false_iff_not, Option.isNone_iff_eq_none] at checked
  obtain ⟨round, mem, ⟨⟨live, said⟩, pending⟩, earlier⟩ := checked
  obtain ⟨heard, said⟩ := Option.isSome_iff_exists.mp said
  have same := ran
  simp only [joinedRun, bind, Option.bind_eq_some_iff] at ran
  obtain ⟨start, fresh, ran⟩ := ran
  have run := Recorded.run (.start _ _ _ _ _ start fresh) ran
  refine ⟨n, rounds, same, round, mem, ?_⟩
  refine ((live_demand_kept sampleDecay n rounds run).1 round mem 1 live 42 heard said).mpr ?_
  refine ⟨pending, fun record there => ?_⟩
  rw [there, Option.bind_some] at earlier
  exact earlier

/- A peer leaves, returns and reports, all between two rounds. -/
def rejoinRun : Option (Node × List (Node × Node)) := do
  let start ← Node.sample 0 0
  Node.runRecorded sampleDecay (noteProcessed sampleDecay) (fun _ _ _ => True) start []
    [.setPartitionPolicy .optimistic, .introduce 1 (sampleAddress 1), .handle .tick 0,
     sampleOp 1 (.leave [⟨1, sampleAddress 1, 0, .dead⟩]) (ms 60),
     sampleOp 1 (.ack 0 [⟨1, sampleAddress 1, 1, .alive⟩] [inEpoch 7 3 42 eighty]) (ms 70),
     .handle .tick (ms 200)]

def HeardLately (round : Node × Node) (heard : Heard) : Prop :=
  ∃ stale, round.1.staleAfter round.1.allocationSize = some stale ∧
    round.1.lastNow < heard.heardAt + stale

theorem rejoinRun_forgets : (rejoinRun.any fun (_, rounds) => rounds.any fun round =>
    round.2.isLive 1 && (round.1.peerDemand.get 1 42).any (fun heard =>
      (round.1.staleAfter round.1.allocationSize).any fun stale =>
        decide (round.1.lastNow < heard.heardAt + stale)) &&
      (round.2.peerDemand.get 1 42).isNone) = true := by
  decide +kernel

theorem live_demand_forgotten : ¬ ∀ (decay : Nat → Nat → ℚ) (n : Node) (rounds : List (Node × Node)),
    Recorded decay (noteProcessed decay) [] (fun _ _ _ => True) n rounds →
    ∀ round ∈ rounds, ∀ peer, round.2.isLive peer = true → ∀ key heard,
      round.1.peerDemand.get peer key = some heard → HeardLately round heard →
        DemandKept round.1 round.2 peer := by
  intro claim
  obtain ⟨⟨n, rounds⟩, ran, checked⟩ := (Option.any_eq_true _ _).mp rejoinRun_forgets
  simp only [List.any_eq_true, Bool.and_eq_true, Option.any_eq_true, decide_eq_true_eq,
    Option.isNone_iff_eq_none] at checked
  obtain ⟨round, mem, ⟨live, heard, said, stale, window, fresh⟩, gone⟩ := checked
  simp only [rejoinRun, bind, Option.bind_eq_some_iff] at ran
  obtain ⟨start, new, ran⟩ := ran
  have run := Recorded.run (.start _ _ _ _ _ start new) ran
  have kept := claim sampleDecay n rounds run round mem 1 live 42 heard said ⟨stale, window, fresh⟩
  have still := kept.heard 42
  rw [gone, said] at still
  simp at still

end Rateguard
