import Rateguard.GuardRuns

/- Every check is counted once: it waits at its slot until a tick takes it to the report. -/
namespace Rateguard
open KeyTable (Slots Layout RealKey)

namespace KeyTable.Slot

def tally (s : Slot) : Tally := s.takeCounts.1

theorem tally_eq (s : Slot) :
    s.tally = ⟨s.counts.toNat % 2 ^ 32, s.counts.toNat / 2 ^ 32, s.shadowDenials.toNat⟩ := by
  have mask : (denial - 1).toNat = 2 ^ 32 - 1 := by decide
  have shift : (32 : UInt64).toNat % 64 = 32 := by decide
  simp only [tally, takeCounts]
  rw [UInt64.toNat_and, mask, Nat.and_two_pow_sub_one_eq_mod, UInt64.toNat_shiftRight, shift,
    Nat.shiftRight_eq_div_pow]

theorem tally_none {s : Slot} (counts : s.counts = 0) (denials : s.shadowDenials = 0) :
    s.tally = ⟨0, 0, 0⟩ := by
  rw [tally_eq, counts, denials]
  rfl

/- No more is counted at a slot than its checks since the last tick. -/
structure Light (s : Slot) (since : Nat) : Prop where
  attempts : s.tally.attempts ≤ since
  denials : s.tally.denials ≤ s.tally.attempts
  shadowDenials : s.tally.shadowDenials ≤ s.tally.attempts

end KeyTable.Slot

def Verdict.tally (v : Verdict) : Tally where
  attempts := 1
  denials := if v.decided = .allow then 0 else 1
  shadowDenials := if v.shadow.any (· ≠ .allow) then 1 else 0

def Tally.add (a b : Tally) : Tally :=
  ⟨a.attempts + b.attempts, a.denials + b.denials, a.shadowDenials + b.shadowDenials⟩

namespace KeyTable.Slot

theorem checked_tally {s prepared : Slot} {since now : Nat} (light : s.Light since)
    (few : since + 1 < 2 ^ 32) (counts : prepared.counts = s.counts + attempt)
    (shadows : prepared.shadowDenials = s.shadowDenials) (index : Option Nat) :
    (prepared.check now).2.2.tally =
      s.tally.add (Verdict.tally ⟨index, (prepared.check now).1, (prepared.check now).2.1⟩) := by
  obtain ⟨attempts, denials, shadowDenials⟩ := light
  have one : attempt.toNat = 1 := by decide
  have high : denial.toNat = 2 ^ 32 := by decide
  rw [tally_eq] at attempts denials shadowDenials ⊢
  dsimp only at attempts denials shadowDenials
  have added : (s.counts + attempt).toNat = s.counts.toNat + 1 := by
    rw [UInt64.toNat_add, one]
    omega
  have denied : (s.counts + attempt + denial).toNat = s.counts.toNat + 1 + 2 ^ 32 := by
    rw [UInt64.toNat_add, added, high]
    omega
  have traced : (s.shadowDenials + 1).toNat = s.shadowDenials.toNat + 1 := by
    rw [UInt64.toNat_add, UInt64.toNat_one]
    omega
  have counted : (if (prepared.gcra.check now 0).1 = .allow then s.counts + attempt
      else s.counts + attempt + denial).toNat = s.counts.toNat + 1 +
        2 ^ 32 * (if (prepared.gcra.check now 0).1 = .allow then 0 else 1) := by
    split
    · rw [added, Nat.mul_zero, Nat.add_zero]
    · rw [denied, Nat.mul_one]
  have shadowed : (if (prepared.shadow.check now 0).1.any (· ≠ .allow) then s.shadowDenials + 1
      else s.shadowDenials).toNat = s.shadowDenials.toNat +
        if (prepared.shadow.check now 0).1.any (· ≠ .allow) then 1 else 0 := by
    split
    · rw [traced]
    · rfl
  rw [check_eq, counts, shadows, tally_eq]
  dsimp only [Verdict.tally, Tally.add]
  rw [counted, shadowed]
  generalize (if (prepared.gcra.check now 0).1 = Decision.allow then 0 else 1) = denies
  have low : (s.counts.toNat + 1 + 2 ^ 32 * denies) % 2 ^ 32 = s.counts.toNat % 2 ^ 32 + 1 := by omega
  have upper : (s.counts.toNat + 1 + 2 ^ 32 * denies) / 2 ^ 32 = s.counts.toNat / 2 ^ 32 + denies := by
    omega
  rw [low, upper]

end KeyTable.Slot

namespace Guard
variable {p : Primitives} {g g' : Guard} {cls key : UInt64} {now last since : Nat}

def waiting (g : Guard) (count : Tally → Nat) : Nat :=
  ((List.range g.layout.capacity).map fun i => count (g.slots i).tally).sum + count g.overflow.tally

/- No slot has more to be counted than there were checks since the last tick; the overflow slot has
   no shadow. -/
structure Light (g : Guard) (since : Nat) : Prop where
  slots : ∀ i, (g.slots i).Light since
  overflow : g.overflow.Light since
  plain : g.overflow.shadow.quota = 0
  silent : g.overflow.tally.shadowDenials = 0

end Guard

theorem sum_update {order : List Nat} (nodup : order.Nodup) (slots : Slots) {i : Nat}
    (mem : i ∈ order) (written : KeyTable.Slot) (part : KeyTable.Slot → Nat) :
    (order.map fun j => part (Function.update slots i written j)).sum + part (slots i) =
      (order.map fun j => part (slots j)).sum + part written := by
  induction order with
  | nil => simp at mem
  | cons first rest ih =>
    obtain ⟨unlisted, nodup⟩ := List.nodup_cons.mp nodup
    rw [List.map_cons, List.map_cons, List.sum_cons, List.sum_cons]
    rcases List.mem_cons.mp mem with rfl | mem
    · have others : (rest.map fun j => part (Function.update slots i written j)) =
          rest.map fun j => part (slots j) := by
        refine List.map_congr_left fun j later => ?_
        rw [Function.update_of_ne]
        rintro rfl
        exact unlisted later
      rw [others, Function.update_self]
      omega
    · have apart : first ≠ i := by
        rintro rfl
        exact unlisted mem
      rw [Function.update_of_ne apart]
      have := ih nodup mem
      omega

namespace Guard
variable {p : Primitives} {g g' : Guard} {cls key : UInt64} {now last since : Nat}

theorem judge_counts {v : Verdict} (sound : g.Sound last) (light : g.Light since)
    (few : since + 1 < 2 ^ 32) (real : RealKey key) (h : g.judge p cls key now = some (v, g')) :
    g'.Light (since + 1) ∧ g'.report = g.report ∧
      g'.overflow.tally = (if v.slot = none then g.overflow.tally.add v.tally else g.overflow.tally) ∧
      ∀ count : Tally → Nat, (∀ a b, count (a.add b) = count a + count b) →
        g'.waiting count = g.waiting count + count v.tally := by
  obtain ⟨slot, prepared, decided, shadow, rfl⟩ := judge_prepared sound.placed real h
  have told : v.tally = Verdict.tally ⟨v.slot, (slot.check now).1, (slot.check now).2.1⟩ := by
    rw [Verdict.tally, decided, shadow, Verdict.tally]
  have grows {s : KeyTable.Slot} (light : s.Light since) (tally : (slot.check now).2.2.tally =
      s.tally.add v.tally) : (slot.check now).2.2.Light (since + 1) := by
    obtain ⟨attempts, denials, shadowDenials⟩ := light
    refine ⟨?_, ?_, ?_⟩
    · rw [tally]
      exact Nat.succ_le_succ attempts
    · rw [tally]
      dsimp only [Tally.add, Verdict.tally]
      split <;> omega
    · rw [tally]
      dsimp only [Tally.add, Verdict.tally]
      split <;> omega
  have keeps {s : KeyTable.Slot} (light : s.Light since) : s.Light (since + 1) :=
    ⟨Nat.le_succ_of_le light.attempts, light.denials, light.shadowDenials⟩
  have written (i : Nat) (inside : i < g.layout.capacity) (counts : slot.counts =
      (g.slots i).counts + KeyTable.attempt) (shadows : slot.shadowDenials = (g.slots i).shadowDenials) :
      (∀ j, (Function.update g.slots i (slot.check now).2.2 j).Light (since + 1)) ∧
      ∀ count : Tally → Nat, (∀ a b, count (a.add b) = count a + count b) →
        ((List.range g.layout.capacity).map fun j =>
          count (Function.update g.slots i (slot.check now).2.2 j).tally).sum =
        ((List.range g.layout.capacity).map fun j => count (g.slots j).tally).sum + count v.tally := by
    have tally := @KeyTable.Slot.checked_tally _ _ since now (light.slots i) few counts shadows v.slot
    rw [← told] at tally
    refine ⟨fun j => ?_, fun count adds => ?_⟩
    · by_cases same : j = i
      · subst same
        rw [Function.update_self]
        exact grows (light.slots j) tally
      · rw [Function.update_of_ne same]
        exact keeps (light.slots j)
    · have moved := sum_update List.nodup_range g.slots (List.mem_range.mpr inside)
        (slot.check now).2.2 fun s => count s.tally
      rw [tally, adds] at moved
      omega
  generalize v.slot = index at prepared
  cases prepared with
  | own i held =>
    have inside := sound.inside (i := i) (held.symm ▸ real)
    obtain ⟨lights, adds⟩ := written i inside rfl rfl
    refine ⟨⟨lights, keeps light.overflow, light.plain, light.silent⟩, rfl, rfl,
      fun count additive => ?_⟩
    have := adds count additive
    simp only [waiting, putSlot]
    omega
  | fresh i quota limit gcra traced absent mem =>
    have inside := KeyTable.Layout.candidates_lt sound.buckets mem
    obtain ⟨lights, adds⟩ := written i inside rfl rfl
    refine ⟨⟨lights, keeps light.overflow, light.plain, light.silent⟩, rfl, rfl,
      fun count additive => ?_⟩
    have := adds count additive
    simp only [waiting, putSlot]
    omega
  | overflow =>
    have tally := @KeyTable.Slot.checked_tally _ g.overflow.countAttempt since now light.overflow few
      rfl rfl v.slot
    rw [← told] at tally
    have off : g.overflow.countAttempt.shadow.check now 0 = (none, g.overflow.shadow) :=
      if_pos light.plain
    refine ⟨⟨fun j => keeps (light.slots j), grows light.overflow tally, ?_, ?_⟩, rfl, tally,
      fun count additive => ?_⟩
    · simp only [putSlot, KeyTable.Slot.check_eq, off]
      exact light.plain
    · simp only [putSlot]
      rw [tally, told, KeyTable.Slot.check_eq, off]
      exact light.silent
    simp only [waiting, putSlot]
    rw [tally, additive, Nat.add_assoc]

theorem recordSlot_counts {slot slot' : KeyTable.Slot} {s s' : Node × Counts}
    (h : g.recordSlot p now slot s = some (slot', s')) :
    s'.2.attempts = s.2.attempts + slot.tally.attempts ∧
      s'.2.denied = s.2.denied + slot.tally.denials ∧
      s'.2.shadowDenied = s.2.shadowDenied + slot.tally.shadowDenials := by
  simp only [recordSlot, bind, Option.bind_eq_some_iff, Option.some.injEq, Prod.mk.injEq] at h
  obtain ⟨_, _, _, rfl⟩ := h
  exact ⟨rfl, rfl, rfl⟩

theorem Requoted.cleared {newKey : Quota} {slot slot' : KeyTable.Slot}
    (requoted : Requoted newKey now slot.takeCounts.2 slot') : slot'.tally = ⟨0, 0, 0⟩ := by
  cases requoted with
  | put => exact KeyTable.Slot.tally_none rfl rfl
  | freed => exact KeyTable.Slot.tally_none rfl rfl

theorem sync_counts (sound : g.Sound last) (light : g.Light since) (h : g.sync p now = some g') :
    g'.Light 0 ∧ (∀ count : Tally → Nat, count ⟨0, 0, 0⟩ = 0 → g'.waiting count = 0) ∧
      g'.overflow.tally = ⟨0, 0, 0⟩ ∧
      g'.report.attempts = g.report.attempts + g.waiting (·.attempts) ∧
      g'.report.stats.denied = g.report.stats.denied + g.waiting (·.denials) ∧
      g'.report.stats.shadowDenied = g.report.stats.shadowDenied + g.waiting (·.shadowDenials) ∧
      g'.report.stats.overflowed = g.report.stats.overflowed + g.overflow.tally.attempts := by
  have synced := sync_synced h
  have free {i : Nat} (free : ¬ RealKey (g.slots i).key) : (g.slots i).tally = ⟨0, 0, 0⟩ := by
    obtain ⟨_, counts, denials, _⟩ := (sound.slots i).free free
    exact KeyTable.Slot.tally_none counts denials
  have cleared (i : Nat) : (g'.slots i).tally = ⟨0, 0, 0⟩ := by
    by_cases real : RealKey (g.slots i).key
    · exact (requoteSlot_requoted (synced.held i (sound.inside real) real)).1.cleared
    · rcases synced.free i real with same | ⟨gcra, _, same⟩
      · rw [same]
        exact free real
      · rw [same]
        exact free real
  have light₀ {s : KeyTable.Slot} (empty : s.tally = ⟨0, 0, 0⟩) : s.Light 0 := by
    constructor <;> rw [empty]
  obtain ⟨gcra, _, overflow⟩ := synced.overflow
  have emptied : g'.overflow.tally = ⟨0, 0, 0⟩ := by
    rw [overflow]
    exact KeyTable.Slot.tally_none rfl rfl
  refine ⟨⟨fun i => light₀ (cleared i), light₀ emptied, ?_, by rw [emptied]⟩, fun count zero => ?_,
    emptied, ?_⟩
  · rw [overflow]
    exact light.plain
  · rw [waiting, emptied, zero, Nat.add_zero, List.sum_eq_zero]
    intro x mem
    obtain ⟨i, _, rfl⟩ := List.mem_map.mp mem
    rw [cleared i, zero]
  · obtain ⟨slots, node, counts, recorded, _, report⟩ := synced.node
    have sums (total : Node × Counts → Nat) (count : Tally → Nat) (zero : count ⟨0, 0, 0⟩ = 0)
        (adds : ∀ slot s edited s', RealKey slot.key → g.recordSlot p now slot s = some (edited, s') →
          total s' = total s + count slot.tally) : total (node, counts) =
        total (g.node, ⟨0, 0, 0, 0, 0, g.rejected⟩) +
          ((List.range g.layout.capacity).map fun i => count (g.slots i).tally).sum := by
      have visited := KeyTable.visit_sum total (fun slot => count slot.tally) List.nodup_range adds
        recorded
      rw [visited]
      congr 2
      refine List.map_congr_left fun i _ => ?_
      split
      · rfl
      · rename_i unheld
        rw [free unheld, zero]
    have attempts := sums (·.2.attempts) (·.attempts) rfl fun _ _ _ _ _ taken =>
      (recordSlot_counts taken).1
    have denials := sums (·.2.denied) (·.denials) rfl fun _ _ _ _ _ taken =>
      (recordSlot_counts taken).2.1
    have shadows := sums (·.2.shadowDenied) (·.shadowDenials) rfl fun _ _ _ _ _ taken =>
      (recordSlot_counts taken).2.2
    dsimp only at attempts denials shadows
    rw [report]
    dsimp only [Report.updated]
    have silent := light.silent
    have overflowed : g.overflow.takeCounts.1 = g.overflow.tally := rfl
    rw [overflowed]
    refine ⟨?_, ?_, ?_, rfl⟩
    · rw [attempts, waiting]
      omega
    · rw [denials, waiting]
      omega
    · rw [shadows, waiting]
      omega

/- What has been counted of each, in the report or still at the slots. -/
def ledger (g : Guard) : Tally where
  attempts := g.report.attempts + g.waiting (·.attempts)
  denials := g.report.stats.denied + g.waiting (·.denials)
  shadowDenials := g.report.stats.shadowDenied + g.waiting (·.shadowDenials)

def overflowed (g : Guard) : Nat := g.report.stats.overflowed + g.overflow.tally.attempts

theorem Floored.counts (floored : Floored p g now g') (sound : g.Sound last) (light : g.Light since) :
    g'.Light since ∧ g'.ledger = g.ledger ∧ g'.overflowed = g.overflowed := by
  have tally (i : Nat) : (g'.slots i).tally = (g.slots i).tally := by
    by_cases real : RealKey (g.slots i).key
    · obtain ⟨_, _, _, _, _, same⟩ := floored.held i (sound.inside real) real
      rw [same]
      rfl
    · rcases floored.free i real with same | ⟨_, _, same⟩
      · rw [same]
      · rw [same]
        rfl
  obtain ⟨gcra, _, overflow⟩ := floored.overflow
  have spare : g'.overflow.tally = g.overflow.tally := by rw [overflow]; rfl
  have moved {s s' : KeyTable.Slot} (same : s'.tally = s.tally) (light : s.Light since) :
      s'.Light since :=
    ⟨same ▸ light.attempts, same ▸ light.denials, same ▸ light.shadowDenials⟩
  have waits (count : Tally → Nat) : g'.waiting count = g.waiting count := by
    simp only [waiting, tally, spare, floored.kept.1]
  have report := floored.kept.2.2.2.2.2.2.2
  refine ⟨⟨fun i => moved (tally i) (light.slots i), moved spare light.overflow, ?_, ?_⟩, ?_, ?_⟩
  · rw [overflow]
    exact light.plain
  · rw [spare]
    exact light.silent
  · simp only [ledger, waits, report]
  · rw [overflowed, overflowed, report, spare]

end Guard

def GuardStep.tally (step : GuardStep) : Tally := step.verdict.elim ⟨0, 0, 0⟩ Verdict.tally

/- Fewer than 2³² checks come between two ticks. -/
def Paced : Nat → List GuardCall → Prop
  | _, [] => True
  | _, .tick _ :: rest => Paced 0 rest
  | since, .check _ _ _ :: rest => since + 1 < 2 ^ 32 ∧ Paced (since + 1) rest
  | since, _ :: rest => Paced since rest

def leftBy (g : Guard) : List GuardStep → Guard
  | [] => g
  | step :: rest => leftBy step.after rest

namespace GuardCall
variable {p : Primitives} {g g' : Guard} {last since : Nat} {v : Option Verdict}

theorem perform_counts {call : GuardCall} {rest : List GuardCall} (sound : g.Sound last)
    (light : g.Light since) (later : last ≤ call.time last) (paced : Paced since (call :: rest))
    (h : call.perform p g = some (v, g')) : ∃ since', g'.Light since' ∧ Paced since' rest ∧
      g'.ledger = g.ledger.add (v.elim ⟨0, 0, 0⟩ Verdict.tally) ∧
      g'.overflowed = g.overflowed + (if v.any (·.slot = none) then 1 else 0) := by
  cases GuardCall.performs h with
  | check judged =>
    obtain ⟨few, paced⟩ := paced
    obtain ⟨lighter, report, overflow, adds⟩ :=
      Guard.judge_counts sound light few (offReserved_real _) judged
    refine ⟨since + 1, lighter, paced, ?_, ?_⟩
    · have attempts := adds (·.attempts) fun _ _ => rfl
      have denials := adds (·.denials) fun _ _ => rfl
      have shadows := adds (·.shadowDenials) fun _ _ => rfl
      simp only [Guard.ledger, report, attempts, denials, shadows, Option.elim_some, Tally.add,
        Nat.add_assoc]
    · simp only [Guard.overflowed, report, overflow, Option.any_some, decide_eq_true_eq]
      split
      · rfl
      · rfl
  | setClasses | setKeyLimits | setDryRun | setGossipAuth | receive | lookedUp =>
    exact ⟨since, ⟨light.slots, light.overflow, light.plain, light.silent⟩, paced, rfl, rfl⟩
  | tick _ synced =>
    obtain ⟨lighter, none, overflow, attempts, denials, shadows, spare⟩ :=
      Guard.sync_counts sound light synced
    refine ⟨0, lighter, paced, ?_, ?_⟩
    · simp only [Guard.ledger, attempts, denials, shadows, none (·.attempts) rfl,
        none (·.denials) rfl, none (·.shadowDenials) rfl]
      rfl
    · simp only [Guard.overflowed, spare, overflow]
      rfl
  | leave _ floored | crash _ floored =>
    obtain ⟨lighter, ledger, spare⟩ := (Guard.holdAtFloor_floored floored).counts sound light
    exact ⟨since, ⟨lighter.slots, lighter.overflow, lighter.plain, lighter.silent⟩, paced, ledger, spare⟩

end GuardCall

theorem guardRun_counts {p : Primitives} {g : Guard} {last since : Nat} {calls : List GuardCall}
    {steps : List GuardStep} (sound : g.Sound last) (light : g.Light since)
    (paced : Paced since calls) (ran : guardRun p g last calls = some steps)
    (ordered : (last :: steps.map fun step => step.time).Pairwise (· ≤ ·)) :
    (leftBy g steps).ledger = steps.foldl (fun counted step => counted.add step.tally) g.ledger ∧
      (leftBy g steps).overflowed =
        g.overflowed + steps.countP fun step => step.verdict.any (·.slot = none) := by
  induction calls generalizing g last since steps with
  | nil =>
    obtain rfl := Option.some.inj ran
    exact ⟨rfl, rfl⟩
  | cons call calls ih =>
    obtain ⟨v, g', rest, performed, later, rfl⟩ := guardRun_cons ran
    rw [List.map_cons] at ordered
    obtain ⟨late, ordered⟩ := List.pairwise_cons.mp ordered
    have first := late _ List.mem_cons_self
    obtain ⟨since', lighter, paced, ledger, spare⟩ :=
      GuardCall.perform_counts sound light first paced performed
    obtain ⟨counted, overflowed⟩ :=
      ih (GuardCall.perform_sound sound first performed) lighter paced later ordered
    refine ⟨?_, ?_⟩
    · rw [leftBy, List.foldl_cons, counted, ledger]
      rfl
    · rw [leftBy, overflowed, spare, List.countP_cons, Nat.add_assoc, Nat.add_comm (List.countP _ _)]

theorem guardRun_ticked {p : Primitives} {g : Guard} {last since now : Nat} {calls : List GuardCall}
    {steps : List GuardStep} (sound : g.Sound last) (light : g.Light since)
    (paced : Paced since calls) (ran : guardRun p g last calls = some steps)
    (ordered : (last :: steps.map fun step => step.time).Pairwise (· ≤ ·))
    (ticked : calls.getLast? = some (.tick now)) (count : Tally → Nat) (zero : count ⟨0, 0, 0⟩ = 0) :
    (leftBy g steps).waiting count = 0 := by
  induction calls generalizing g last since steps with
  | nil => nomatch ticked
  | cons call calls ih =>
    obtain ⟨v, g', rest, performed, later, rfl⟩ := guardRun_cons ran
    rw [List.map_cons] at ordered
    obtain ⟨late, ordered⟩ := List.pairwise_cons.mp ordered
    have first := late _ List.mem_cons_self
    obtain ⟨since', lighter, paced, _⟩ := GuardCall.perform_counts sound light first paced performed
    cases calls with
    | nil =>
      obtain rfl := Option.some.inj later
      obtain rfl := Option.some.inj ticked
      cases GuardCall.performs performed with
      | tick _ synced => exact (Guard.sync_counts sound light synced).2.1 count zero
    | cons next calls =>
      rw [List.getLast?_cons_cons] at ticked
      rw [leftBy]
      exact ih (GuardCall.perform_sound sound first performed) lighter paced later ordered ticked

theorem foldl_tally (steps : List GuardStep) (a : Tally) :
    steps.foldl (fun counted step => counted.add step.tally) a =
      ⟨a.attempts + steps.countP fun step => step.verdict.isSome,
        a.denials + steps.countP fun step => step.verdict.any (·.decided ≠ .allow),
        a.shadowDenials + steps.countP fun step => step.verdict.any (·.shadow.any (· ≠ .allow))⟩ := by
  induction steps generalizing a with
  | nil => rfl
  | cons step rest ih =>
    rw [List.foldl_cons, ih, List.countP_cons, List.countP_cons, List.countP_cons]
    cases checked : step.verdict with
    | none => simp [GuardStep.tally, checked, Tally.add]
    | some v =>
      simp only [GuardStep.tally, checked, Option.elim_some, Tally.add, Verdict.tally,
        Option.isSome_some, Option.any_some, if_true]
      by_cases allowed : v.decided = .allow
      · simp only [allowed, ne_eq, not_true_eq_false, decide_false, Bool.false_eq_true, if_true,
          if_false]
        congr 1 <;> omega
      · simp only [allowed, ne_eq, not_false_eq_true, decide_true, if_true, if_false]
        congr 1 <;> omega

theorem countP_decided (steps : List GuardStep) : (steps.countP fun step => step.verdict.isSome) =
    (steps.countP fun step => step.verdict.any (·.decided = .allow)) +
      steps.countP fun step => step.verdict.any (·.decided ≠ .allow) := by
  induction steps with
  | nil => rfl
  | cons step rest ih =>
    rw [List.countP_cons, List.countP_cons, List.countP_cons, ih]
    cases step.verdict with
    | none => rfl
    | some v =>
      by_cases allowed : v.decided = .allow
      · simp [allowed]
        omega
      · simp [allowed]
        omega

theorem Settings.guard_light {s : Settings} {p : Primitives} {rehash : UInt64 → UInt64}
    {seed : UInt64} {g : Guard} (h : s.guard p rehash seed = some g) :
    g.Light 0 ∧ g.ledger = ⟨0, 0, 0⟩ ∧ g.overflowed = 0 := by
  simp only [guard, Option.bind_eq_bind, Option.bind_eq_some_iff, Option.some.injEq] at h
  obtain ⟨⟨names, node⟩, _, default, _, quota, _, rfl⟩ := h
  have empty : (KeyTable.Slot.new quota).tally = ⟨0, 0, 0⟩ := KeyTable.Slot.tally_none rfl rfl
  have light : (KeyTable.Slot.new quota).Light 0 := by
    constructor <;> rw [empty]
  refine ⟨⟨fun _ => light, light, rfl, by rw [empty]⟩, ?_, ?_⟩
  · simp only [Guard.ledger, Guard.waiting, empty]
    simp [Report.default, Stats.default]
  · simp only [Guard.overflowed, empty]
    rfl

/-- Every check of a node's run is counted once, for as long as fewer than 2³² come between two
    ticks: those taken to the report and those that wait at the slots are as many as were checked,
    denied, denied by a shadow, and sent to the overflow slot. After a tick none waits, and the
    report tells what was admitted and what was denied. -/
theorem guard_counts_every_check (p : Primitives) (s : Settings) (rehash : UInt64 → UInt64)
    (seed : UInt64) (g : Guard) (calls : List GuardCall) (steps : List GuardStep)
    (started : s.guard p rehash seed = some g) (ran : guardRun p g 0 calls = some steps)
    (ordered : (steps.map fun step => step.time).Pairwise (· ≤ ·)) (paced : Paced 0 calls) :
    (leftBy g steps).report.attempts + (leftBy g steps).waiting (·.attempts) =
        (steps.countP fun step => step.verdict.isSome) ∧
      (leftBy g steps).report.stats.denied + (leftBy g steps).waiting (·.denials) =
        (steps.countP fun step => step.verdict.any (·.decided ≠ .allow)) ∧
      (leftBy g steps).report.stats.shadowDenied + (leftBy g steps).waiting (·.shadowDenials) =
        (steps.countP fun step => step.verdict.any (·.shadow.any (· ≠ .allow))) ∧
      (leftBy g steps).report.stats.overflowed + (leftBy g steps).overflow.tally.attempts =
        (steps.countP fun step => step.verdict.any (·.slot = none)) ∧
      ∀ now, calls.getLast? = some (.tick now) →
        ((leftBy g steps).stats now).admitted =
          (steps.countP fun step => step.verdict.any (·.decided = .allow)) ∧
        ((leftBy g steps).stats now).denied =
          steps.countP fun step => step.verdict.any (·.decided ≠ .allow) := by
  have sound := Settings.guard_sound started
  obtain ⟨light, empty, none⟩ := Settings.guard_light started
  have ordered := List.pairwise_cons.mpr ⟨fun time _ => Nat.zero_le time, ordered⟩
  obtain ⟨ledger, overflowed⟩ := guardRun_counts sound light paced ran ordered
  rw [foldl_tally, empty] at ledger
  simp only [Guard.ledger, Tally.mk.injEq, Nat.zero_add] at ledger
  obtain ⟨attempts, denials, shadows⟩ := ledger
  rw [none, Nat.zero_add] at overflowed
  refine ⟨attempts, denials, shadows, overflowed, fun now ticked => ?_⟩
  have waits := guardRun_ticked sound light paced ran ordered ticked
  rw [waits _ rfl, Nat.add_zero] at attempts denials
  have parts := countP_decided steps
  refine ⟨?_, denials⟩
  simp only [Guard.stats]
  omega

/- A burst with a shadow, a tick, then more keys than there are slots. -/
def busyCalls : List GuardCall :=
  [.setClasses (.setShadow "" (some ((GivenLimit.new 5 .second).withBurst 1))),
    .check "" "a" 5, .check "" "a" 6, .check "" "a" 7, .tick 50000000, .check "" "a" 60000000,
    .check "" "b" 60000001, .check "" "c" 60000002, .check "" "d" 60000003, .check "" "e" 60000004,
    .check "" "f" 60000005, .check "" "g" 60000006, .check "" "h" 60000007, .check "" "i" 60000008,
    .tick 100000000]

theorem busyCalls_run : ((smallSettings.guard plainPrimitives id 1).any fun g =>
    (guardRun plainPrimitives g 0 busyCalls).any fun steps =>
      decide ((steps.map fun step => step.time).Pairwise (· ≤ ·)) &&
        (steps.countP fun step => step.verdict.any (·.decided ≠ .allow)) == 2 &&
        (steps.countP fun step => step.verdict.any (·.shadow.any (· ≠ .allow))) == 3 &&
        (steps.countP fun step => step.verdict.any (·.slot = none)) == 1) = true := by
  decide +kernel

theorem guard_counts_every_check_busy : ∃ g steps,
    smallSettings.guard plainPrimitives id 1 = some g ∧
    guardRun plainPrimitives g 0 busyCalls = some steps ∧
    (steps.countP fun step => step.verdict.any (·.slot = none)) = 1 ∧
    ((leftBy g steps).stats 100000000).denied = 2 := by
  obtain ⟨g, started, ran⟩ := (Option.any_eq_true _ _).mp busyCalls_run
  obtain ⟨steps, ran, checked⟩ := (Option.any_eq_true _ _).mp ran
  simp only [Bool.and_eq_true, decide_eq_true_eq, beq_iff_eq] at checked
  obtain ⟨⟨⟨ordered, denied⟩, _⟩, spare⟩ := checked
  have paced : Paced 0 busyCalls := by simp [Paced, busyCalls]
  have counted := guard_counts_every_check plainPrimitives smallSettings id 1 g busyCalls steps
    started ran ordered paced
  exact ⟨g, steps, started, ran, spare, (counted.2.2.2.2 100000000 rfl).2.trans denied⟩

end Rateguard
