import Rateguard.Fleet
import Rateguard.GuardRuns

/- What a guard makes of its core: each of its calls is a few of the core's own operations, so that
   whatever holds in every run of the core holds in every run of a guard. -/
namespace Rateguard
open KeyTable (Slots RealKey)

/- What the builder and the background task ask of the core on their own: they introduce nobody. -/
def Op.Inward : Op → Prop
  | .introduce _ _ | .handle (.messageReceived _ _) _ => False
  | _ => True

theorem Op.Inward.quiet {op : Op} (inward : op.Inward) : op.datagram = none := by
  unfold datagram
  split
  · exact inward.elim
  · rfl

/- From one state of a core to another by such operations. -/
def Node.Works (decay : Nat → Nat → ℚ) (n n' : Node) : Prop :=
  ∃ ops, n.run decay ops = some n' ∧ ∀ op ∈ ops, op.Inward

namespace Node.Works
variable {decay : Nat → Nat → ℚ} {n m n' : Node}

theorem refl (n : Node) : n.Works decay n := ⟨[], rfl, by simp⟩

theorem trans (first : n.Works decay m) (second : m.Works decay n') : n.Works decay n' := by
  obtain ⟨ops, ran, inward⟩ := first
  obtain ⟨more, ran', inward'⟩ := second
  refine ⟨ops ++ more, ?_, fun op mem => (List.mem_append.mp mem).elim (inward op) (inward' op)⟩
  unfold run at ran ran' ⊢
  rw [List.foldlM_append, ran]
  exact ran'

theorem step (op : Op) (inward : op.Inward) (stepped : n.step decay op = some n') :
    n.Works decay n' := by
  refine ⟨[op], ?_, fun other mem => List.mem_singleton.mp mem ▸ inward⟩
  simp only [run, List.foldlM_cons, List.foldlM_nil, bind, stepped, Option.bind_some]
  rfl

end Node.Works

namespace Names
variable {decay : Nat → Nat → ℚ} {peerId : Address → PeerId} {names names' : Names}
  {node node' : Node}

theorem collect_works {addresses : List Address} {current current' : Std.ExtTreeSet PeerId}
    (h : collect peerId names addresses current node = some (current', node')) :
    node.Works decay node' := by
  induction addresses generalizing current node with
  | nil =>
    simp only [collect, Option.some.injEq, Prod.mk.injEq] at h
    exact h.2 ▸ .refl node
  | cons address rest ih =>
    rw [collect] at h
    split at h
    · exact ih h
    · simp only [bind, Option.bind_eq_some_iff] at h
      obtain ⟨u, added, h⟩ := h
      have first : node.Works decay u := by
        split at added
        · exact .step (.addSeed _ address) trivial added
        · exact Option.some.inj added ▸ .refl node
      exact first.trans (ih h)

theorem removeAll_works {gone : List PeerId} (h : removeAll node gone = some node') :
    node.Works decay node' := by
  induction gone generalizing node with
  | nil => exact Option.some.inj h ▸ .refl node
  | cons seed rest ih =>
    simp only [removeAll, List.foldlM_cons, bind, Option.bind_eq_some_iff] at h
    obtain ⟨u, removed, h⟩ := h
    have first : node.Works decay u := .step (.removeSeed seed) trivial removed
    exact first.trans (ih h)

theorem update_works {found : Found}
    (h : names.update peerId node found = some (names', node')) : node.Works decay node' := by
  simp only [update, bind, Option.bind_eq_some_iff, Option.some.injEq, Prod.mk.injEq] at h
  obtain ⟨a, expected, ⟨current, b⟩, collected, c, removed, _, rfl⟩ := h
  have first : node.Works decay a := by
    generalize (if onlyMe peerId names.localId found then min (names.alone + 1) u32Max else 0) = alone
      at expected
    split at expected
    · exact .step (.expectPeers false) trivial expected
    · exact Option.some.inj expected ▸ .refl node
  exact first.trans ((collect_works collected).trans (removeAll_works removed))

end Names

/- A node as it is launched: what its core started as, and what it was told before it ran. -/
theorem keepSeeds_works {decay : Nat → Nat → ℚ} {peerId : Address → PeerId}
    {addresses : List Address} {state state' : Names × Node}
    (h : keepSeeds peerId addresses state = some state') : state.2.Works decay state'.2 := by
  induction addresses generalizing state with
  | nil =>
    simp only [keepSeeds, Option.some.injEq] at h
    exact h ▸ .refl _
  | cons address rest ih =>
    obtain ⟨names, node⟩ := state
    rw [keepSeeds] at h
    split at h
    · exact ih h
    · simp only [bind, Option.bind_eq_some_iff] at h
      obtain ⟨u, added, h⟩ := h
      have first : node.Works decay u := .step (.addSeed _ address) trivial added
      exact first.trans (ih h)

theorem Settings.launch_works {decay : Nat → Nat → ℚ} {s : Settings} {peerId : Address → PeerId}
    {seed : UInt64} {names : Names} {node : Node}
    (h : s.launch peerId seed = some (names, node)) : ∃ base,
      Node.new s.core s.swim (peerId s.advertise) s.advertise seed = some base ∧
        base.Works decay node := by
  simp only [launch, start, Option.bind_eq_bind, Option.bind_eq_some_iff, Option.some.injEq,
    Prod.mk.injEq] at h
  obtain ⟨started, ⟨base, new, a, policy, members⟩, ⟨names', b⟩, kept, c, expected, rfl, rfl⟩ := h
  refine ⟨base, new, ?_⟩
  have first : base.Works decay a := .step (.setPartitionPolicy s.policy) trivial policy
  have second : a.Works decay (a.setQuorumMemory s.quorumMemory) :=
    .step (.setQuorumMemory s.quorumMemory) trivial rfl
  have third : (a.setQuorumMemory s.quorumMemory).Works decay started :=
    .step (.setMaxMembers s.maxMembers) trivial members
  have last : b.Works decay c := by
    split at expected
    · exact Option.some.inj expected ▸ .refl b
    · exact .step (.expectPeers true) trivial expected
  exact first.trans (second.trans (third.trans ((keepSeeds_works kept).trans last)))

namespace Guard
variable {p : Primitives} {g g' : Guard} {now : Nat}

theorem recordSlot_works {slot slot' : KeyTable.Slot} {s s' : Node × Counts}
    (h : g.recordSlot p now slot s = some (slot', s')) : s.1.Works p.decay s'.1 := by
  simp only [recordSlot, bind, Option.bind_eq_some_iff, Option.some.injEq, Prod.mk.injEq] at h
  obtain ⟨u, recorded, _, rfl⟩ := h
  split at recorded
  · exact .step (.record _ _ _ now) trivial recorded
  · exact Option.some.inj recorded ▸ .refl s.1

theorem visit_works {order : List Nat} {slots slots' : Slots} {s s' : Node × Counts}
    (h : KeyTable.Layout.visit (g.recordSlot p now) order slots s = some (slots', s')) :
    s.1.Works p.decay s'.1 := by
  induction order generalizing slots s with
  | nil =>
    simp only [KeyTable.Layout.visit, Option.some.injEq, Prod.mk.injEq] at h
    exact h.2 ▸ .refl s.1
  | cons first rest ih =>
    rw [KeyTable.Layout.visit] at h
    split at h
    · simp only [bind, Option.bind_eq_some_iff] at h
      obtain ⟨⟨edited, u⟩, recorded, h⟩ := h
      exact (recordSlot_works recorded).trans (ih h)
    · exact ih h

/- A check leaves the core alone; and of the calls that put slots on other quotas none touches the
   secrets. -/
theorem judge_core {cls key : UInt64} {v : Verdict} (h : g.judge p cls key now = some (v, g')) :
    g'.node = g.node ∧ g'.auth = g.auth := by
  simp only [judge, bind, Option.bind_eq_some_iff, Option.some.injEq, Prod.mk.injEq] at h
  obtain ⟨_, _, _, rfl⟩ := h
  generalize (KeyTable.claim g.layout g.slots key).2.1 = index
  cases index with
  | none => exact ⟨rfl, rfl⟩
  | some i => exact ⟨rfl, rfl⟩

theorem sync_auth (h : g.sync p now = some g') : g'.auth = g.auth := by
  simp only [sync, bind, Option.bind_eq_some_iff, Option.some.injEq] at h
  obtain ⟨_, _, _, _, _, _, _, _, _, _, _, _, rfl⟩ := h
  rfl

theorem holdAtFloor_auth (h : g.holdAtFloor p now = some g') : g'.auth = g.auth := by
  simp only [holdAtFloor, bind, Option.bind_eq_some_iff, Option.some.injEq] at h
  obtain ⟨_, _, _, _, _, _, _, _, rfl⟩ := h
  rfl

/- A tick takes the counts to the core, and ends with the core's own. -/
theorem Synced.works (synced : Synced p g now g') : ∃ node, g.node.Works p.decay node ∧
    node.handle p.decay .tick now = some g'.node := by
  obtain ⟨slots, node, counts, recorded, ticked, _⟩ := synced.node
  exact ⟨node, visit_works recorded, ticked⟩

end Guard

theorem Settings.guard_works {s : Settings} {p : Primitives} {rehash : UInt64 → UInt64}
    {seed : UInt64} {g : Guard} (started : s.guard p rehash seed = some g) : ∃ base,
      Node.new s.core s.swim (p.peerId s.advertise) s.advertise seed = some base ∧
        base.Works p.decay g.node ∧ g.auth = s.auth := by
  simp only [guard, Option.bind_eq_bind, Option.bind_eq_some_iff, Option.some.injEq] at started
  obtain ⟨⟨names, node⟩, launched, default, _, quota, _, rfl⟩ := started
  obtain ⟨base, new, works⟩ := Settings.launch_works launched
  exact ⟨base, new, works, rfl⟩

end Rateguard
