import Rateguard.GuardBuckets

/- What the nodes of a fleet let through of one key between them. -/
namespace Rateguard
open OnCredit
open KeyTable (RealKey)

namespace GuardStep
variable (p : Primitives) (key : UInt64) (step : GuardStep)

def letThrough : Bool :=
  step.call.asksFor p step.before key &&
    step.verdict.any fun v => (v.checked step.before.dryRun step.time).decision = .allow

def entry : Entry := (step.bucketStep p key).entry

theorem letThrough_admitted (enforced : step.before.dryRun = false) :
    step.letThrough p key = (step.entry p key).admitted := by
  have told (v : Verdict) : (v.checked false step.time).decision = .allow ↔ v.decided = .allow := by
    unfold Verdict.checked Guard.Decision.fromCore
    cases v.decided with
    | allow => simp
    | deny retryAt => simp
  simp only [letThrough, entry, BucketStep.entry, bucketEntry, bucketStep, answer, enforced, told]
  by_cases asked : step.call.asksFor p step.before key = true
  · simp only [asked, Bool.true_and, if_true]
    cases step.verdict with
    | none => simp
    | some v => simp
  · simp [asked]

end GuardStep

/- A fleet of nodes, each with its own run from its start, its calls in the order of their times. -/
structure GuardFleet (ι : Type) (p : Primitives) where
  settings : ι → Settings
  rehash : ι → UInt64 → UInt64
  seed : ι → UInt64
  start : ι → Guard
  calls : ι → List GuardCall
  steps : ι → List GuardStep
  started : ∀ i, (settings i).guard p (rehash i) (seed i) = some (start i)
  ran : ∀ i, guardRun p (start i) 0 (calls i) = some (steps i)
  ordered : ∀ i, ((steps i).map fun step => step.time).Pairwise (· ≤ ·)

namespace GuardFleet
variable {ι : Type} {p : Primitives} (fleet : GuardFleet ι p) (cls name : String)

def key (i : ι) : UInt64 := (fleet.start i).hash p cls name

def entries (i : ι) : List Entry :=
  (fleet.steps i).map fun step => step.entry p (fleet.key cls name i)

def letThrough (a b : Nat) (i : ι) : Nat :=
  (fleet.steps i).countP fun step => decide (a ≤ step.time ∧ step.time ≤ b ∧
    step.letThrough p (fleet.key cls name i) = true)

/- The rate one node's slot holds the key to between a time and the next, in requests a nanosecond:
   none at all while the key has no slot. -/
def rateAt (time : Nat) (i : ι) : ℚ := OnCredit.rateAt time 0 (fleet.entries cls name i)

/- The largest burst it admits somebody under in the window. -/
def burst (a b : Nat) (i : ι) : ℚ := highestLimit a b (fleet.entries cls name i)

/- What it loses there to the rounding of debts: half a nanosecond's worth of requests each time
   the quota changes. -/
def rounding (a b : Nat) (i : ι) : ℚ := forgivenIn a b (fleet.entries cls name i)

/- Every check of the key has a slot and is enforced, and no TAT reaches the end of time. -/
def Enforced : Prop := ∀ i, ∀ step ∈ fleet.steps i, step.Seated p (fleet.key cls name i) ∧
  Unsaturated (step.after.bucket (fleet.key cls name i)) ∧ step.before.dryRun = false

variable {fleet cls name}

theorem account (enforced : fleet.Enforced cls name) (i : ι) :
    Account 0 0 0 (fleet.entries cls name i) := by
  have real : RealKey (fleet.key cls name i) := offReserved_real _
  have run := guardRun_buckets (Settings.guard_sound (fleet.started i)) real (fleet.ran i)
    (List.pairwise_cons.mpr ⟨fun time _ => Nat.zero_le time, fleet.ordered i⟩)
    fun step mem => (enforced i step mem).1
  rw [Settings.guard_bucket (fleet.started i) real] at run
  have account := run.account (fun _ mem => absurd mem (by simp)) fun step mem => by
    obtain ⟨kept, listed, rfl⟩ := List.mem_map.mp mem
    exact (enforced i kept listed).2.1
  rwa [List.map_map] at account

theorem letThrough_eq (enforced : fleet.Enforced cls name) (a b : Nat) (i : ι) :
    fleet.letThrough cls name a b i = admittedIn a b (fleet.entries cls name i) := by
  rw [letThrough, admittedIn, entries, List.countP_map]
  refine List.countP_congr fun step mem => ?_
  have same := step.letThrough_admitted p (fleet.key cls name i) (enforced i step mem).2.2
  simp only [Function.comp_apply, decide_eq_true_eq, same]
  rfl

end GuardFleet

/-- Whatever the nodes of a fleet are asked and do: where the rates their slots hold a key to never
    come to more than a total at any time of a window, they let through between them no more of its
    requests there than that total is worth over the window, a burst each and the rounding. -/
theorem guard_fleet_bounded {ι : Type} [Fintype ι] (p : Primitives) (fleet : GuardFleet ι p)
    (cls name : String) (enforced : fleet.Enforced cls name) (a b : Nat) (total : ℚ) (le : a ≤ b)
    (fits : ∀ time, a ≤ time → time < b → ∑ i, fleet.rateAt cls name time i ≤ total) :
    ((∑ i, fleet.letThrough cls name a b i : Nat) : ℚ) ≤ total * (b - a) +
      ∑ i, (fleet.burst cls name a b i + fleet.rounding cls name a b i) := by
  rw [Finset.sum_congr rfl fun i _ => GuardFleet.letThrough_eq enforced a b i]
  exact admitted_le_total (GuardFleet.account enforced) (fun _ => le_refl 0) le fits

/- Two nodes, each alone with its keys. -/
def freedSteps : Option (Guard × List GuardStep) :=
  (smallSettings.guard plainPrimitives id 1).bind fun g =>
    (guardRun plainPrimitives g 0 freedCalls).map fun steps => (g, steps)

theorem freedSteps_isSome : freedSteps.isSome = true := by
  obtain ⟨g, started, ran⟩ := (Option.any_eq_true _ _).mp freedCalls_run
  obtain ⟨steps, ran, _⟩ := (Option.any_eq_true _ _).mp ran
  rw [freedSteps, started, Option.bind_some, ran]
  rfl

theorem freedSteps_spec : smallSettings.guard plainPrimitives id 1 =
      some (freedSteps.get freedSteps_isSome).1 ∧
    guardRun plainPrimitives (freedSteps.get freedSteps_isSome).1 0 freedCalls =
      some (freedSteps.get freedSteps_isSome).2 := by
  obtain ⟨g, started, ran⟩ := (Option.any_eq_true _ _).mp freedCalls_run
  obtain ⟨steps, ran, _⟩ := (Option.any_eq_true _ _).mp ran
  have whole : freedSteps = some (g, steps) := by
    rw [freedSteps, started, Option.bind_some, ran, Option.map_some]
  simp only [whole, Option.get_some]
  exact ⟨started, ran⟩

theorem freedSteps_checked :
    ((freedSteps.get freedSteps_isSome).2.map fun step => step.time).Pairwise (· ≤ ·) ∧
    ∀ step ∈ (freedSteps.get freedSteps_isSome).2,
      (step.Seated plainPrimitives
          ((freedSteps.get freedSteps_isSome).1.hash plainPrimitives "" "a") ∧
        Unsaturated (step.after.bucket
          ((freedSteps.get freedSteps_isSome).1.hash plainPrimitives "" "a")) ∧
        step.before.dryRun = false) ∧
      (step.entry plainPrimitives
        ((freedSteps.get freedSteps_isSome).1.hash plainPrimitives "" "a")).rate ≤ 1 / 200000000 := by
  obtain ⟨g, started, ran⟩ := (Option.any_eq_true _ _).mp freedCalls_run
  obtain ⟨steps, ran, checked⟩ := (Option.any_eq_true _ _).mp ran
  have whole : freedSteps = some (g, steps) := by
    rw [freedSteps, started, Option.bind_some, ran, Option.map_some]
  simp only [Bool.and_eq_true, decide_eq_true_eq] at checked
  obtain ⟨⟨⟨⟨ordered, seated⟩, kept⟩, rates⟩, _⟩ := checked
  simp only [whole, Option.get_some]
  exact ⟨ordered, fun step mem => ⟨⟨seated step mem, kept step mem⟩, rates step mem⟩⟩

def freedFleet : GuardFleet (Fin 2) plainPrimitives where
  settings _ := smallSettings
  rehash _ := id
  seed _ := 1
  start _ := (freedSteps.get freedSteps_isSome).1
  calls _ := freedCalls
  steps _ := (freedSteps.get freedSteps_isSome).2
  started _ := freedSteps_spec.1
  ran _ := freedSteps_spec.2
  ordered _ := freedSteps_checked.1

theorem guard_fleet_bounded_freed :
    ((∑ i, freedFleet.letThrough "" "a" 0 4000000000 i : Nat) : ℚ) ≤
      1 / 100000000 * (4000000000 - 0) +
        ∑ i, (freedFleet.burst "" "a" 0 4000000000 i + freedFleet.rounding "" "a" 0 4000000000 i) := by
  refine guard_fleet_bounded plainPrimitives freedFleet "" "a"
    (fun _ step mem => (freedSteps_checked.2 step mem).1) 0 4000000000 _ (Nat.zero_le _)
    fun time _ _ => ?_
  have each (i : Fin 2) : freedFleet.rateAt "" "a" time i ≤ 1 / 200000000 := by
    refine rateAt_le (by norm_num) fun entry mem => ?_
    obtain ⟨step, listed, rfl⟩ := List.mem_map.mp mem
    exact (freedSteps_checked.2 step listed).2
  rw [Fin.sum_univ_two]
  linarith [each 0, each 1]

end Rateguard
