import Rateguard.Gossip
import Mathlib.Data.List.Sort

/- Runs of the piggyback buffer: each piece of news is sent its number of times. -/
namespace Rateguard
open Std (ExtTreeMap)

inductive GossipOp where
  | push (update : Update)
  | take (max : Nat)

inductive GossipEvent where
  | pushed (update : Update) (accepted : Bool)
  | took (max : Nat) (updates : List Update)
  deriving DecidableEq

namespace Gossip

def perform (limit : UInt32) (g : Gossip) : GossipOp → Option (GossipEvent × Gossip)
  | .push update => (g.push update).map fun (accepted, g) => (.pushed update accepted, g)
  | .take max => (g.take max limit.toNat).map fun (updates, g) => (.took max updates, g)

/- What comes of operations in turn; none is an assertion or an expect that fails, or a count that
   overflows. -/
def run (limit : UInt32) : Gossip → List GossipOp → Option (List GossipEvent × Gossip)
  | g, [] => some ([], g)
  | g, op :: rest => do
    let (event, g) ← g.perform limit op
    let (events, g) ← g.run limit rest
    some (event :: events, g)

def timesTaken (update : Update) (events : List GossipEvent) : Nat :=
  events.countP fun
    | .took _ updates => updates.contains update
    | .pushed .. => false

theorem mem_freshest {g : Gossip} {max : Nat} {member : UInt64} (mem : member ∈ g.freshest max) :
    ∃ pending, g.queue[member]? = some pending := by
  obtain ⟨count, listed, rfl⟩ := List.mem_map.mp mem
  have sorted := List.mem_of_mem_take listed
  rw [List.mem_insertionSort] at sorted
  obtain ⟨entry, queued, rfl⟩ := List.mem_map.mp sorted
  exact ⟨entry.2, ExtTreeMap.mem_toList_iff_getElem?_eq_some.mp queued⟩

theorem freshest_nodup (g : Gossip) (max : Nat) : (g.freshest max).Nodup := by
  have keys : (g.queue.toList.map (·.1)).Nodup := by
    refine List.pairwise_map.mpr (g.queue.distinct_keys_toList.imp ?_)
    intro one two apart same
    exact apart (by simp [same])
  have counts : ((g.queue.toList.map fun entry => (entry.2.transmits, entry.1)).map (·.2)).Nodup := by
    rw [List.map_map]
    exact keys
  have sorted := (List.perm_insertionSort lessSent
    (g.queue.toList.map fun entry => (entry.2.transmits, entry.1))).map (·.2)
  exact (sorted.nodup_iff.mpr counts).sublist ((List.take_sublist _ _).map _)

theorem freshest_size (g : Gossip) (max : Nat) :
    (g.freshest max).length = min max g.queue.size := by
  simp [freshest, List.length_take, ExtTreeMap.length_toList]

instance : Std.Total lessSent := ⟨fun one two => by unfold lessSent; grind⟩

instance : IsTrans (Nat × UInt64) lessSent := ⟨fun one two three => by unfold lessSent; grind⟩

/- Nobody left out was sent less often than one listed. -/
theorem freshest_least {g : Gossip} {max : Nat} {one other : UInt64} {p q : Pending}
    (listed : one ∈ g.freshest max) (found : g.queue[one]? = some p)
    (queued : g.queue[other]? = some q) (out : other ∉ g.freshest max) :
    p.transmits ≤ q.transmits := by
  have sorted := List.pairwise_insertionSort lessSent
    (g.queue.toList.map fun entry => (entry.2.transmits, entry.1))
  rw [← List.take_append_drop max (List.insertionSort _ _), List.pairwise_append] at sorted
  obtain ⟨count, chosen, rfl⟩ := List.mem_map.mp listed
  have counted : count = (p.transmits, count.2) := by
    have mem := List.mem_of_mem_take chosen
    rw [List.mem_insertionSort] at mem
    obtain ⟨entry, queued', rfl⟩ := List.mem_map.mp mem
    rw [ExtTreeMap.mem_toList_iff_getElem?_eq_some, found, Option.some.injEq] at queued'
    rw [queued']
  have last : (q.transmits, other) ∈ (List.insertionSort lessSent
      (g.queue.toList.map fun entry => (entry.2.transmits, entry.1))).drop max := by
    have mem : (q.transmits, other) ∈ List.insertionSort lessSent
        (g.queue.toList.map fun entry => (entry.2.transmits, entry.1)) := by
      rw [List.mem_insertionSort]
      exact List.mem_map.mpr
        ⟨(other, q), ExtTreeMap.mem_toList_iff_getElem?_eq_some.mpr queued, rfl⟩
    rw [← List.take_append_drop max (List.insertionSort _ _), List.mem_append] at mem
    exact mem.resolve_left fun taken => out (List.mem_map.mpr ⟨_, taken, rfl⟩)
  have before := sorted.2.2 count chosen _ last
  rw [counted] at before
  rcases before with less | same
  · exact less.le
  · exact same.1.le

structure Within (limit : Nat) (g : Gossip) : Prop where
  filed : g.Filed
  low : ∀ (member : UInt64) (pending : Pending), g.queue[member]? = some pending →
    pending.transmits < limit

def sentOnce (limit : Nat) (pending : Pending) : Option Pending :=
  if limit ≤ pending.transmits + 1 then none
  else some { pending with transmits := pending.transmits + 1 }

theorem sendEach_exact {limit : Nat} (fits : limit < 2 ^ 32) {members : List UInt64} {g : Gossip}
    (within : g.Within limit) (nodup : members.Nodup)
    (queued : ∀ member ∈ members, ∃ pending, g.queue[member]? = some pending) :
    ∃ updates g', sendEach limit members g = some (updates, g') ∧ g'.Within limit ∧
      updates.map (·.member) = members ∧
      (∀ update ∈ updates, ∃ count, g.queue[update.member]? = some ⟨update, count⟩) ∧
      ∀ member : UInt64, g'.queue[member]? =
        if member ∈ members then (g.queue[member]?).bind (sentOnce limit) else g.queue[member]? := by
  induction members generalizing g with
  | nil => exact ⟨[], g, rfl, within, rfl, by simp, by simp⟩
  | cons member rest ih =>
    obtain ⟨absent, nodup⟩ := List.nodup_cons.mp nodup
    obtain ⟨pending, found⟩ := queued member List.mem_cons_self
    have low := within.low member pending found
    have few : pending.transmits + 1 < 2 ^ 32 := by omega
    let sent : Gossip := ⟨if limit ≤ pending.transmits + 1 then g.queue.erase member
      else g.queue.insert member { pending with transmits := pending.transmits + 1 }⟩
    have others {other : UInt64} (apart : member ≠ other) :
        sent.queue[other]? = g.queue[other]? := by
      have differ : compare member other ≠ .eq :=
        fun same => apart (Std.LawfulEqCmp.eq_of_compare same)
      dsimp only [sent]
      split
      · rw [ExtTreeMap.getElem?_erase, if_neg differ]
      · rw [ExtTreeMap.getElem?_insert, if_neg differ]
    have itself : sent.queue[member]? = sentOnce limit pending := by
      dsimp only [sent, sentOnce]
      split
      · exact ExtTreeMap.getElem?_erase_self
      · exact ExtTreeMap.getElem?_insert_self
    have withinSent : sent.Within limit := by
      constructor
      · intro other held foundHeld
        by_cases same : member = other
        · subst same
          rw [itself, sentOnce] at foundHeld
          split at foundHeld
          · simp at foundHeld
          · rw [← Option.some.inj foundHeld]
            exact within.filed member pending found
        · exact within.filed other held (others same ▸ foundHeld)
      · intro other held foundHeld
        by_cases same : member = other
        · subst same
          rw [itself, sentOnce] at foundHeld
          split at foundHeld
          · simp at foundHeld
          · rw [← Option.some.inj foundHeld]
            dsimp only
            omega
        · exact within.low other held (others same ▸ foundHeld)
    obtain ⟨updates, g', h, within', named, source, left⟩ := ih withinSent nodup
      fun other mem => by
        obtain ⟨held, foundHeld⟩ := queued other (List.mem_cons_of_mem _ mem)
        exact ⟨held, by rw [others fun same => absent (same ▸ mem)]; exact foundHeld⟩
    have filed := within.filed member pending found
    refine ⟨pending.update :: updates, g', ?_, within', ?_, ?_, fun other => ?_⟩
    · simp only [sendEach, found, bind, Option.bind_some, if_pos few]
      rw [h]
      rfl
    · rw [List.map_cons, named, filed]
    · intro update mem
      rcases List.mem_cons.mp mem with rfl | mem
      · exact ⟨pending.transmits, by rw [filed, found]⟩
      · obtain ⟨count, foundCount⟩ := source update mem
        have apart : member ≠ update.member := by
          rintro rfl
          exact absent (named ▸ List.mem_map.mpr ⟨update, mem, rfl⟩)
        exact ⟨count, (others apart).symm.trans foundCount⟩
    · rw [left other]
      by_cases same : member = other
      · subst same
        rw [if_neg absent, if_pos List.mem_cons_self, itself, found, Option.bind_some]
      · rw [others same]
        simp [List.mem_cons, Ne.symm same]

structure Took (limit max : Nat) (g : Gossip) (updates : List Update) (g' : Gossip) : Prop where
  within : g'.Within limit
  size : updates.length = min max g.queue.size
  apart : (updates.map (·.member)).Nodup
  queued : ∀ update ∈ updates, ∃ sent, g.queue[update.member]? = some ⟨update, sent⟩ ∧
    ∀ (member : UInt64) (pending : Pending), g.queue[member]? = some pending →
      member ∉ updates.map (·.member) → sent ≤ pending.transmits
  left : ∀ member : UInt64, g'.queue[member]? =
    if member ∈ updates.map (·.member) then (g.queue[member]?).bind (sentOnce limit)
    else g.queue[member]?

theorem take_took {limit : Nat} (pos : 0 < limit) (fits : limit < 2 ^ 32) {g : Gossip}
    (within : g.Within limit) (max : Nat) :
    ∃ updates g', g.take max limit = some (updates, g') ∧ Took limit max g updates g' := by
  obtain ⟨updates, g', h, within', named, source, left⟩ :=
    sendEach_exact fits within (g.freshest_nodup max) fun member mem => mem_freshest mem
  refine ⟨updates, g', by rw [take, if_pos pos, h], within', ?_, ?_, fun update mem => ?_, ?_⟩
  · rw [← freshest_size, ← named, List.length_map]
  · rw [named]
    exact g.freshest_nodup max
  · obtain ⟨sent, found⟩ := source update mem
    refine ⟨sent, found, fun member pending queued out => ?_⟩
    rw [named] at out
    have listed : update.member ∈ g.freshest max := named ▸ List.mem_map.mpr ⟨update, mem, rfl⟩
    exact freshest_least listed found queued out
  · rw [named]
    exact left

theorem new_within {limit : Nat} : Gossip.new.Within limit :=
  ⟨fun member pending found => by simp [new] at found,
    fun member pending found => by simp [new] at found⟩

theorem pushed_within {limit : Nat} (pos : 0 < limit) {g : Gossip} (within : g.Within limit)
    (update : Update) : (⟨g.queue.insert update.member ⟨update, 0⟩⟩ : Gossip).Within limit := by
  constructor
  · intro member pending found
    rw [ExtTreeMap.getElem?_insert] at found
    split at found
    · rename_i same
      rw [← Option.some.inj found]
      exact Std.LawfulEqCmp.eq_of_compare same
    · exact within.filed member pending found
  · intro member pending found
    rw [ExtTreeMap.getElem?_insert] at found
    split at found
    · rw [← Option.some.inj found]
      exact pos
    · exact within.low member pending found

section
variable {limit : UInt32} (pos : 0 < limit) {g g' : Gossip} {events : List GossipEvent}
include pos

/- No operation fails, and the counts stay within the limit. -/
theorem perform_within (within : g.Within limit.toNat) (op : GossipOp) :
    ∃ event g', g.perform limit op = some (event, g') ∧ g'.Within limit.toNat := by
  cases op with
  | push update =>
    rcases push_spec within.filed update with ⟨pushed, _⟩ | ⟨kept, _⟩
    · exact ⟨_, _, by rw [perform, pushed]; rfl, pushed_within (UInt32.lt_iff_toNat_lt.mp pos) within update⟩
    · exact ⟨_, _, by rw [perform, kept]; rfl, within⟩
  | take max =>
    obtain ⟨updates, g', h, took⟩ :=
      take_took (UInt32.lt_iff_toNat_lt.mp pos) limit.toNat_lt within max
    exact ⟨_, g', by rw [perform, h]; rfl, took.within⟩

theorem run_within (within : g.Within limit.toNat) (ops : List GossipOp) :
    ∃ events g', g.run limit ops = some (events, g') ∧ g'.Within limit.toNat := by
  induction ops generalizing g with
  | nil => exact ⟨[], g, rfl, within⟩
  | cons op rest ih =>
    obtain ⟨event, u, first, withinU⟩ := perform_within pos within op
    obtain ⟨events, g', h, within'⟩ := ih withinU
    refine ⟨event :: events, g', ?_, within'⟩
    simp only [run, first, h, bind, Option.bind_some]

end

theorem push_accepted {g g' : Gossip} (filed : g.Filed) {update : Update}
    (h : g.push update = some (true, g')) :
    g' = ⟨g.queue.insert update.member ⟨update, 0⟩⟩ ∧
      ∀ pending, g.queue[update.member]? = some pending → pending.update.rank < update.rank := by
  rcases push_spec filed update with ⟨pushed, newer⟩ | ⟨kept, _⟩
  · rw [pushed] at h
    exact ⟨(Prod.mk.inj (Option.some.inj h)).2.symm, newer⟩
  · rw [kept] at h
    simp at h

theorem timesTaken_cons (update : Update) (event : GossipEvent) (events : List GossipEvent) :
    timesTaken update (event :: events) = timesTaken update [event] + timesTaken update events := by
  rw [timesTaken, timesTaken, timesTaken, ← List.countP_append, List.singleton_append]

/- What one operation does to a piece of news that is pending: an accepted push of its member
   replaces it, a take that returns it counts it once more, and nothing else touches it. -/
theorem perform_pending {limit : UInt32} (pos : 0 < limit) {g g' : Gossip}
    (within : g.Within limit.toNat) {op : GossipOp} {event : GossipEvent}
    (h : g.perform limit op = some (event, g')) {update : Update} {sent : Nat}
    (pending : g.queue[update.member]? = some ⟨update, sent⟩) :
    (∃ newer, event = .pushed newer true ∧ newer.member = update.member) ∨
    (timesTaken update [event] = 1 ∧
      g'.queue[update.member]? = sentOnce limit.toNat ⟨update, sent⟩) ∨
    (timesTaken update [event] = 0 ∧ g'.queue[update.member]? = some ⟨update, sent⟩) := by
  cases op with
  | push other =>
    rcases push_spec within.filed other with ⟨pushed, _⟩ | ⟨kept, _⟩
    · rw [perform, pushed] at h
      obtain ⟨rfl, rfl⟩ := Prod.mk.inj (Option.some.inj h)
      by_cases same : other.member = update.member
      · exact .inl ⟨other, rfl, same⟩
      · refine .inr (.inr ⟨rfl, ?_⟩)
        rw [ExtTreeMap.getElem?_insert, if_neg, pending]
        exact fun equal => same (Std.LawfulEqCmp.eq_of_compare equal)
    · rw [perform, kept] at h
      obtain ⟨rfl, rfl⟩ := Prod.mk.inj (Option.some.inj h)
      exact .inr (.inr ⟨rfl, pending⟩)
  | take max =>
    obtain ⟨updates, u, taken, took⟩ :=
      take_took (UInt32.lt_iff_toNat_lt.mp pos) limit.toNat_lt within max
    rw [perform, taken] at h
    obtain ⟨rfl, rfl⟩ := Prod.mk.inj (Option.some.inj h)
    have left := took.left update.member
    by_cases named : update.member ∈ updates.map (·.member)
    · right; left
      obtain ⟨other, mem, same⟩ := List.mem_map.mp named
      obtain ⟨count, found, _⟩ := took.queued other mem
      rw [same, pending, Option.some.injEq, Pending.mk.injEq] at found
      obtain ⟨rfl, rfl⟩ := found
      rw [if_pos named, pending, Option.bind_some] at left
      exact ⟨by simp [timesTaken, mem], left⟩
    · right; right
      rw [if_neg named, pending] at left
      refine ⟨?_, left⟩
      have absent : update ∉ updates := fun mem => named (List.mem_map.mpr ⟨update, mem, rfl⟩)
      simp [timesTaken, absent]

/- What is not pending is not returned, and becomes pending by an accepted push alone. -/
theorem perform_absent {limit : UInt32} (pos : 0 < limit) {g g' : Gossip}
    (within : g.Within limit.toNat) {op : GossipOp} {event : GossipEvent}
    (h : g.perform limit op = some (event, g')) {update : Update}
    (absent : ∀ sent, g.queue[update.member]? ≠ some ⟨update, sent⟩) :
    event = .pushed update true ∨ timesTaken update [event] = 0 ∧
      ∀ sent, g'.queue[update.member]? ≠ some ⟨update, sent⟩ := by
  cases op with
  | push other =>
    rcases push_spec within.filed other with ⟨pushed, _⟩ | ⟨kept, _⟩
    · rw [perform, pushed] at h
      obtain ⟨rfl, rfl⟩ := Prod.mk.inj (Option.some.inj h)
      by_cases itself : other = update
      · exact .inl (itself ▸ rfl)
      · refine .inr ⟨rfl, fun sent found => ?_⟩
        rw [ExtTreeMap.getElem?_insert] at found
        split at found
        · exact itself (Pending.mk.inj (Option.some.inj found)).1
        · exact absent sent found
    · rw [perform, kept] at h
      obtain ⟨rfl, rfl⟩ := Prod.mk.inj (Option.some.inj h)
      exact .inr ⟨rfl, absent⟩
  | take max =>
    obtain ⟨updates, u, taken, took⟩ :=
      take_took (UInt32.lt_iff_toNat_lt.mp pos) limit.toNat_lt within max
    rw [perform, taken] at h
    obtain ⟨rfl, rfl⟩ := Prod.mk.inj (Option.some.inj h)
    refine .inr ⟨?_, fun sent found => ?_⟩
    · have out : update ∉ updates := by
        intro mem
        obtain ⟨sent, found, _⟩ := took.queued update mem
        exact absent sent found
      simp [timesTaken, out]
    · rw [took.left] at found
      split at found
      · obtain ⟨⟨other, count⟩, held, once⟩ := Option.bind_eq_some_iff.mp found
        rw [sentOnce] at once
        split at once
        · simp at once
        · rw [Option.some.injEq, Pending.mk.injEq] at once
          exact absent count (once.1 ▸ held)
      · exact absent sent found

/- Nothing of a member becomes pending but by an accepted push of it. -/
theorem perform_none {limit : UInt32} (pos : 0 < limit) {g g' : Gossip}
    (within : g.Within limit.toNat) {op : GossipOp} {event : GossipEvent}
    (h : g.perform limit op = some (event, g')) {member : UInt64}
    (none' : g.queue[member]? = none) :
    (∃ update, event = .pushed update true ∧ update.member = member) ∨
      g'.queue[member]? = none := by
  cases op with
  | push other =>
    rcases push_spec within.filed other with ⟨pushed, _⟩ | ⟨kept, _⟩
    · rw [perform, pushed] at h
      obtain ⟨rfl, rfl⟩ := Prod.mk.inj (Option.some.inj h)
      by_cases same : other.member = member
      · exact .inl ⟨other, rfl, same⟩
      · right
        rw [ExtTreeMap.getElem?_insert, if_neg, none']
        exact fun equal => same (Std.LawfulEqCmp.eq_of_compare equal)
    · rw [perform, kept] at h
      obtain ⟨rfl, rfl⟩ := Prod.mk.inj (Option.some.inj h)
      exact .inr none'
  | take max =>
    obtain ⟨updates, u, taken, took⟩ :=
      take_took (UInt32.lt_iff_toNat_lt.mp pos) limit.toNat_lt within max
    rw [perform, taken] at h
    obtain ⟨rfl, rfl⟩ := Prod.mk.inj (Option.some.inj h)
    right
    rw [took.left, none', Option.bind_none, ite_self]

section
variable {limit : UInt32} (pos : 0 < limit) {ops : List GossipOp} {g g' : Gossip}
  {events : List GossipEvent}
include pos

/- A run in which it is not pushed and accepted does not return what is not pending. -/
theorem run_absent (within : g.Within limit.toNat) (h : g.run limit ops = some (events, g'))
    {update : Update} (absent : ∀ sent, g.queue[update.member]? ≠ some ⟨update, sent⟩)
    (unpushed : .pushed update true ∉ events) : timesTaken update events = 0 := by
  induction ops generalizing g events with
  | nil =>
    obtain ⟨rfl, rfl⟩ := Prod.mk.inj (Option.some.inj h)
    rfl
  | cons op rest ih =>
    simp only [run, bind, Option.bind_eq_some_iff] at h
    obtain ⟨⟨event, u⟩, first, ⟨later, last⟩, ran, h⟩ := h
    obtain ⟨rfl, rfl⟩ := Prod.mk.inj (Option.some.inj h)
    obtain ⟨event', u', same, withinU⟩ := perform_within pos within op
    obtain ⟨rfl, rfl⟩ := Prod.mk.inj (Option.some.inj (first.symm.trans same))
    rcases perform_absent pos within first absent with pushed | ⟨untaken, absentU⟩
    · exact absurd (pushed ▸ List.mem_cons_self) unpushed
    · rw [timesTaken_cons, untaken, Nat.zero_add]
      exact ih withinU ran absentU fun mem => unpushed (List.mem_cons_of_mem _ mem)

/- While no other news of its member is accepted, what is pending is returned up to the limit, and
   is then gone for good. -/
theorem run_none (within : g.Within limit.toNat) (h : g.run limit ops = some (events, g'))
    {member : UInt64} (none' : g.queue[member]? = none)
    (alone : ∀ update, .pushed update true ∈ events → update.member ≠ member) :
    g'.queue[member]? = none := by
  induction ops generalizing g events with
  | nil =>
    obtain ⟨rfl, rfl⟩ := Prod.mk.inj (Option.some.inj h)
    exact none'
  | cons op rest ih =>
    simp only [run, bind, Option.bind_eq_some_iff] at h
    obtain ⟨⟨event, u⟩, first, ⟨later, last⟩, ran, h⟩ := h
    obtain ⟨rfl, rfl⟩ := Prod.mk.inj (Option.some.inj h)
    obtain ⟨event', u', same, withinU⟩ := perform_within pos within op
    obtain ⟨rfl, rfl⟩ := Prod.mk.inj (Option.some.inj (first.symm.trans same))
    rcases perform_none pos within first none' with ⟨update, rfl, itself⟩ | noneU
    · exact absurd itself (alone update List.mem_cons_self)
    · exact ih withinU ran noneU fun update mem => alone update (List.mem_cons_of_mem _ mem)

theorem run_pending (within : g.Within limit.toNat) (h : g.run limit ops = some (events, g'))
    {update : Update} {sent : Nat} (pending : g.queue[update.member]? = some ⟨update, sent⟩)
    (alone : ∀ other, .pushed other true ∈ events → other.member ≠ update.member) :
    (sent + timesTaken update events = limit.toNat ∧ g'.queue[update.member]? = none) ∨
    (sent + timesTaken update events < limit.toNat ∧
      g'.queue[update.member]? = some ⟨update, sent + timesTaken update events⟩) := by
  induction ops generalizing g events sent with
  | nil =>
    obtain ⟨rfl, rfl⟩ := Prod.mk.inj (Option.some.inj h)
    exact .inr ⟨within.low _ _ pending, pending⟩
  | cons op rest ih =>
    simp only [run, bind, Option.bind_eq_some_iff] at h
    obtain ⟨⟨event, u⟩, first, ⟨later, last⟩, ran, h⟩ := h
    obtain ⟨rfl, rfl⟩ := Prod.mk.inj (Option.some.inj h)
    obtain ⟨event', u', same, withinU⟩ := perform_within pos within op
    obtain ⟨rfl, rfl⟩ := Prod.mk.inj (Option.some.inj (first.symm.trans same))
    have low : sent < limit.toNat := within.low _ _ pending
    have alone' : ∀ other, .pushed other true ∈ later → other.member ≠ update.member :=
      fun other mem => alone other (List.mem_cons_of_mem _ mem)
    rw [timesTaken_cons, ← Nat.add_assoc]
    rcases perform_pending pos within first pending with ⟨newer, rfl, itself⟩ | ⟨taken, left⟩ |
        ⟨untaken, left⟩
    · exact absurd itself (alone newer List.mem_cons_self)
    · rw [taken]
      rw [sentOnce] at left
      split at left
      · rename_i last'
        have gone : timesTaken update later = 0 := by
          refine run_absent pos withinU ran (fun count => by simp [left]) ?_
          exact fun mem => alone' update mem rfl
        rw [gone]
        have reached : limit.toNat ≤ sent + 1 := last'
        exact .inl ⟨by omega, run_none pos withinU ran left alone'⟩
      · exact ih withinU ran left alone'
    · rw [untaken]
      exact ih withinU ran left alone'

end

end Gossip

/-- Each piece of news is sent its number of times. No run fails; the buffer never holds two updates
    of one member; a take returns as many as it may or there are, of distinct members, none sent
    more often than one left out; what is pending, or older, changes nothing when pushed; an update
    accepted is returned by exactly limit takes and then dropped, while no other of its member is
    accepted; and one replaced is never returned again, unless it is pushed and accepted anew. -/
theorem news_sent_its_times (limit : UInt32) (pos : 0 < limit) (ops : List GossipOp) :
    ∃ events g, Gossip.run limit .new ops = some (events, g) ∧
    (∀ (member member' : UInt64) (p p' : Pending), g.queue[member]? = some p →
      g.queue[member']? = some p' → p.update.member = p'.update.member → member = member') ∧
    (∀ max, ∃ updates g', g.take max limit.toNat = some (updates, g') ∧
      updates.length = min max g.queue.size ∧ (updates.map (·.member)).Nodup ∧
      ∀ update ∈ updates, ∃ sent, g.queue[update.member]? = some ⟨update, sent⟩ ∧
        ∀ (member : UInt64) (p : Pending), g.queue[member]? = some p →
          member ∉ updates.map (·.member) → sent ≤ p.transmits) ∧
    (∀ (p : Pending) (update : Update), g.queue[update.member]? = some p →
      update.rank ≤ p.update.rank → g.push update = some (false, g)) ∧
    ∀ update g₁, g.push update = some (true, g₁) → ∀ more said g₂,
      g₁.run limit more = some (said, g₂) →
      (∀ other, .pushed other true ∈ said → other.member ≠ update.member) →
      (Gossip.timesTaken update said = limit.toNat ∧ g₂.queue[update.member]? = none ∨
        Gossip.timesTaken update said < limit.toNat ∧
          g₂.queue[update.member]? = some ⟨update, Gossip.timesTaken update said⟩) ∧
      ∀ newer g₃, g₂.queue[update.member]?.isSome → g₂.push newer = some (true, g₃) →
        newer.member = update.member → ∀ later said' g₄, g₃.run limit later = some (said', g₄) →
          .pushed update true ∉ said' → Gossip.timesTaken update said' = 0 := by
  obtain ⟨events, g, ran, within⟩ := Gossip.run_within pos Gossip.new_within ops
  have pos' : 0 < limit.toNat := UInt32.lt_iff_toNat_lt.mp pos
  refine ⟨events, g, ran, ?_, fun max => ?_, fun p update found older => ?_, ?_⟩
  · intro member member' p p' found found' same
    rw [← within.filed member p found, same, within.filed member' p' found']
  · obtain ⟨updates, g', taken, took⟩ := Gossip.take_took pos' limit.toNat_lt within max
    exact ⟨updates, g', taken, took.size, took.apart, took.queued⟩
  · rcases Gossip.push_spec within.filed update with ⟨_, newer⟩ | ⟨kept, _⟩
    · exact absurd (newer p found) (Nat.not_lt.mpr older)
    · exact kept
  · intro update g₁ pushed more said g₂ ran' alone
    obtain ⟨rfl, _⟩ := Gossip.push_accepted within.filed pushed
    have within₁ := Gossip.pushed_within pos' within update
    have counted := Gossip.run_pending pos within₁ ran' ExtTreeMap.getElem?_insert_self alone
    rw [Nat.zero_add] at counted
    refine ⟨counted, fun newer g₃ there replaced same later said' g₄ ran'' unpushed => ?_⟩
    obtain ⟨_, _, ranAgain, within₂⟩ := Gossip.run_within pos within₁ more
    obtain ⟨rfl, rfl⟩ := Prod.mk.inj (Option.some.inj (ran'.symm.trans ranAgain))
    obtain ⟨rfl, higher⟩ := Gossip.push_accepted within₂.filed replaced
    have pending := counted.resolve_left fun ⟨_, gone⟩ => by simp [gone] at there
    refine Gossip.run_absent pos (Gossip.pushed_within pos' within₂ newer) ran'' ?_ unpushed
    intro sent found
    rw [same, ExtTreeMap.getElem?_insert_self, Option.some.injEq, Pending.mk.injEq] at found
    obtain ⟨rfl, _⟩ := found
    exact absurd (higher _ pending.2) (Nat.lt_irrefl _)

/- An update in the order it may come in: told, outdated, and told again once the newer is gone. -/
def sampleNews (incarnation : UInt32) : Update := ⟨1, .v4 #v[10, 0, 0, 1] 7946, incarnation, .alive⟩

theorem replaced_returns : ¬ ∀ (limit : UInt32), 0 < limit → ∀ ops events g,
    Gossip.run limit .new ops = some (events, g) → ∀ update g₁, g.push update = some (true, g₁) →
    ∀ newer g₂, g₁.push newer = some (true, g₂) → newer.member = update.member →
    ∀ later said g₃, g₂.run limit later = some (said, g₃) →
      Gossip.timesTaken update said = 0 := by
  intro claim
  have again : ((Gossip.new.push (sampleNews 0)).any fun (first, g₁) => first &&
      (g₁.push (sampleNews 1)).any fun (second, g₂) => second &&
        (g₂.run 1 [.take 1, .push (sampleNews 0), .take 1]).any fun (said, _) =>
          Gossip.timesTaken (sampleNews 0) said == 1) = true := by
    decide +kernel
  obtain ⟨⟨first, g₁⟩, pushed, checked⟩ := (Option.any_eq_true _ _).mp again
  simp only [Bool.and_eq_true] at checked
  obtain ⟨rfl, checked⟩ := checked
  obtain ⟨⟨second, g₂⟩, replaced, checked⟩ := (Option.any_eq_true _ _).mp checked
  simp only [Bool.and_eq_true] at checked
  obtain ⟨rfl, checked⟩ := checked
  obtain ⟨⟨said, g₃⟩, ran, checked⟩ := (Option.any_eq_true _ _).mp checked
  have never := claim 1 (by decide) [] [] .new rfl (sampleNews 0) g₁ pushed (sampleNews 1) g₂ replaced rfl _
    said g₃ ran
  rw [beq_iff_eq, never] at checked
  exact absurd checked (by decide)

theorem news_sent_its_times_three : ∃ g said g', Gossip.new.push (sampleNews 0) = some (true, g) ∧
    g.run 3 [.take 16, .take 16, .take 16] = some (said, g') ∧
    Gossip.timesTaken (sampleNews 0) said = 3 := by
  have runs : ((Gossip.new.push (sampleNews 0)).any fun (first, g) => first &&
      (g.run 3 [.take 16, .take 16, .take 16]).any fun (said, g') =>
        g'.queue[(1 : UInt64)]? == none &&
          said.all fun | .pushed .. => false | .took .. => true) = true := by
    decide +kernel
  obtain ⟨⟨first, g⟩, pushed, checked⟩ := (Option.any_eq_true _ _).mp runs
  simp only [Bool.and_eq_true] at checked
  obtain ⟨rfl, checked⟩ := checked
  obtain ⟨⟨said, g'⟩, ran, checked⟩ := (Option.any_eq_true _ _).mp checked
  simp only [Bool.and_eq_true, beq_iff_eq, List.all_eq_true] at checked
  obtain ⟨gone, takes⟩ := checked
  obtain ⟨events, start, began, _, _, _, counted⟩ := news_sent_its_times 3 (by decide) []
  obtain ⟨rfl, rfl⟩ := Prod.mk.inj (Option.some.inj began)
  refine ⟨g, said, g', pushed, ran, ?_⟩
  rcases (counted _ g pushed _ said g' ran fun other mem => absurd (takes _ mem) (by simp)).1 with
    ⟨times, _⟩ | ⟨_, kept⟩
  · exact times
  · exact absurd (gone.symm.trans kept) (by simp)

end Rateguard
