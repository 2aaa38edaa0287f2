import Rateguard.LoneBuckets
import Rateguard.OnCredit
import Rateguard.QuotaWords

/- What the limiters of a fleet admit of one key between them. Each key's bucket is an account: its
   debt is in requests, and its quota says how fast that is paid off and how much of it there may
   be. -/
namespace Rateguard
open OnCredit

namespace Gcra

theorem debt_waits (g : Gcra) {last now : Nat} (later : last ≤ now) :
    max 0 (g.debt last - 1 / g.quota.interval * (now - last : Nat)) ≤ g.debt now := by
  refine max_le (g.debt_nonneg now) ?_
  have pos := g.quota.interval_cast_pos
  rw [sub_le_iff_le_add, Gcra.debt, Gcra.debt, one_div_mul_eq_div, ← add_div]
  gcongr
  norm_cast
  omega

end Gcra

def bucketEntry (now : Nat) (before : Option Gcra) (answer : Option Decision)
    (after : Option Gcra) : Entry where
  time := now
  admitted := decide (answer = some .allow)
  debt := after.elim 0 fun g => g.debt now
  rate := after.elim 0 fun g => 1 / g.quota.interval
  limit := after.elim 0 fun g => g.quota.burst
  forgiven := before.elim 0 fun b => after.elim 0 fun g =>
    if g.quota = b.quota then 0 else 1 / (2 * (g.quota.interval : ℚ))

/- No TAT is at the end of time. -/
def Unsaturated (bucket : Option Gcra) : Prop := ∀ g ∈ bucket, g.tat ≠ some u64Max

instance (bucket : Option Gcra) : Decidable (Unsaturated bucket) := by unfold Unsaturated; infer_instance

theorem bucketEntry_nonneg (now : Nat) (before : Option Gcra) (answer : Option Decision)
    (after : Option Gcra) : 0 ≤ (bucketEntry now before answer after).debt ∧
      0 ≤ (bucketEntry now before answer after).rate ∧
      0 ≤ (bucketEntry now before answer after).limit ∧
      0 ≤ (bucketEntry now before answer after).forgiven := by
  simp only [bucketEntry]
  cases after with
  | none => cases before <;> simp
  | some g =>
    refine ⟨g.debt_nonneg now, one_div_nonneg.mpr (Nat.cast_nonneg _), Nat.cast_nonneg _, ?_⟩
    cases before with
    | none => exact le_refl 0
    | some b =>
      dsimp only [Option.elim_some]
      split
      · exact le_refl 0
      · positivity

/- An admission adds one request to the debt. -/
theorem Gcra.check_adds (g : Gcra) (now : Nat) (free : (g.check now).2.tat ≠ some u64Max) :
    g.debt now + (if (g.check now).1 = .allow then 1 else 0) ≤ (g.check now).2.debt now ∧
      (g.check now).2.quota = g.quota ∧
      ((g.check now).1 = .allow → (g.check now).2.debt now ≤ g.quota.burst) := by
  rcases g.check_cases now with ⟨_, denied⟩ | ⟨within, admitted⟩
  · rw [denied]
    simp
  · rw [admitted] at free ⊢
    have adds := g.admission_adds_one now within fun full => free (congrArg some full)
    refine ⟨?_, rfl, fun _ => ?_⟩
    · rw [if_pos rfl]
      exact adds.1.ge
    · rw [adds.1]
      exact adds.2

theorem Gcra.debt_new (quota : Quota) (now : Nat) : (Gcra.new quota).debt now = 0 := by
  simp [Gcra.new, Gcra.debt]

theorem Gcra.debt_idle {g : Gcra} {now : Nat} (idle : g.hasDebt now = false) : g.debt now = 0 := by
  have past : g.tat.getD 0 ≤ now := by
    unfold Gcra.hasDebt at idle
    cases held : g.tat with
    | none => exact Nat.zero_le _
    | some tat => simpa [held] using idle
  rw [Gcra.debt, Nat.sub_eq_zero_of_le past, Nat.cast_zero, zero_div]

theorem Touches.follows {last now : Nat} {before after : Option Gcra} {answer : Option Decision}
    (touches : Touches now before answer after) (later : last ≤ now) (was : Unsaturated before)
    (is : Unsaturated after) : (bucketEntry now before answer after).Follows last
      (before.elim 0 fun g => g.debt last) (before.elim 0 fun g => 1 / g.quota.interval) := by
  obtain ⟨owes, rate, limit, forgiven⟩ := bucketEntry_nonneg now before answer after
  have free (g : Gcra) (left : after = some g) : g.tat ≠ some u64Max := is g left
  refine ⟨later, owes, ?_, ?_, rate, limit, forgiven⟩
  · simp only [bucketEntry, decide_eq_true_eq]
    cases touches with
    | nothing =>
      cases before with
      | none => simp
      | some g => simpa using g.debt_waits later
    | fresh cold => simp [Gcra.debt_new]
    | first cold =>
      have adds := ((Gcra.new cold).check_adds now (free _ rfl)).1
      rw [Gcra.debt_new] at adds
      simpa using adds
    | check g =>
      obtain ⟨adds, quota, _⟩ := g.check_adds now (free _ rfl)
      have waits := g.debt_waits later
      simp only [Option.elim_some, Option.some.injEq, if_pos quota]
      linarith
    | setQuota g quota =>
      have keeps := g.setQuota_keeps_debt quota now (was g rfl) (free _ rfl)
      have waits := g.debt_waits later
      have loss : (if quota ≠ g.quota then 1 / (2 * (quota.interval : ℚ)) else 0) =
          if quota = g.quota then 0 else 1 / (2 * (quota.interval : ℚ)) := by
        split <;> simp_all
      rw [loss] at keeps
      simp only [Option.elim_some, reduceCtorEq, if_false, g.setQuota_quota]
      linarith
    | forget g idle =>
      have waits := g.debt_waits later
      rw [Gcra.debt_idle idle] at waits
      simpa using waits
  · simp only [bucketEntry, decide_eq_true_eq]
    intro allowed
    cases touches with
    | nothing => simp at allowed
    | fresh => simp at allowed
    | first cold =>
      obtain ⟨_, quota, within⟩ := (Gcra.new cold).check_adds now (free _ rfl)
      simp only [Option.elim_some, quota]
      exact within (Option.some.inj allowed)
    | check g =>
      obtain ⟨_, quota, within⟩ := g.check_adds now (free _ rfl)
      simp only [Option.elim_some, quota]
      exact within (Option.some.inj allowed)
    | setQuota => simp at allowed
    | forget => simp at allowed

def BucketStep.entry (step : BucketStep) : Entry :=
  bucketEntry step.time step.before step.answer step.after

theorem BucketRun.account {last : Nat} {bucket : Option Gcra} {steps : List BucketStep}
    (run : BucketRun last bucket steps) (free : Unsaturated bucket)
    (unsaturated : ∀ step ∈ steps, Unsaturated step.after) :
    Account last (bucket.elim 0 fun g => g.debt last) (bucket.elim 0 fun g => 1 / g.quota.interval)
      (steps.map BucketStep.entry) := by
  induction run with
  | done => exact .closed ..
  | step later touches _ ih =>
    have after := unsaturated _ List.mem_cons_self
    exact .entry (touches.follows later free after)
      (ih after fun step mem => unsaturated step (List.mem_cons_of_mem _ mem))

def LimiterStep.entry {σ : Type} (key : UInt64) (step : LimiterStep σ) : Entry :=
  (step.bucketStep key).entry

/- A fleet of limiters, each with its own run from new, its calls in the order of their times. -/
structure FleetRun (ι σ : Type) (decay : Nat → Nat → ℚ) where
  config : ι → Config
  start : ι → Limiter
  calls : ι → List (LimiterCall σ)
  steps : ι → List (LimiterStep σ)
  new : ∀ i, Limiter.new (config i) = some (start i)
  ran : ∀ i, limiterRun decay (start i) 0 (calls i) = some (steps i)
  ordered : ∀ i, ((steps i).map fun step => step.time).Pairwise (· ≤ ·)

namespace FleetRun
variable {ι σ : Type} {decay : Nat → Nat → ℚ} (run : FleetRun ι σ decay) (key : UInt64)

def admitted (a b : Nat) (i : ι) : Nat := admittedIn a b ((run.steps i).map fun step => step.entry key)

/- The rate one of them holds the key to between a time and the next, in requests a nanosecond:
   none at all while the key is not tracked. -/
def rateAt (time : Nat) (i : ι) : ℚ :=
  OnCredit.rateAt time 0 ((run.steps i).map fun step => step.entry key)

/- The largest burst it admits somebody under in the window. -/
def burst (a b : Nat) (i : ι) : ℚ := highestLimit a b ((run.steps i).map fun step => step.entry key)

/- What it loses there to the rounding of debts: half a nanosecond's worth of requests each time
   the quota changes. -/
def rounding (a b : Nat) (i : ι) : ℚ := forgivenIn a b ((run.steps i).map fun step => step.entry key)

/- Nothing is forgotten for lack of room, and no TAT reaches the end of time. -/
def Spacious : Prop :=
  ∀ i, ∀ step ∈ run.steps i, step.Roomy ∧ Unsaturated (step.after.bucket key)

variable {run key}

theorem account (spacious : run.Spacious key) (i : ι) :
    Account 0 0 0 ((run.steps i).map fun step => step.entry key) := by
  have untracked : (run.start i).bucket key = none := by
    rw [Limiter.bucket_eq, Limiter.new_held (run.new i)]
    rfl
  have buckets := @limiterRun_buckets _ _ key _ _ _ _ (Limiter.new_orderly (run.new i)) (run.ran i)
    (List.pairwise_cons.mpr ⟨fun _ _ => Nat.zero_le _, run.ordered i⟩)
    fun step mem => (spacious i step mem).1
  rw [untracked] at buckets
  have account := buckets.account (fun _ mem => absurd mem (by simp)) fun step mem => by
    obtain ⟨kept, listed, rfl⟩ := List.mem_map.mp mem
    exact (spacious i kept listed).2
  rwa [List.map_map] at account

end FleetRun

/-- Whatever the limiters of a fleet are asked, and whenever: where the rates they hold a key to
    never come to more than a total at any time of a window, they admit between them no more of it
    there than that total is worth over the window, a burst each and the rounding. -/
theorem fleet_admissions_bounded {ι σ : Type} [Fintype ι] (decay : Nat → Nat → ℚ)
    (run : FleetRun ι σ decay) (key : UInt64) (spacious : run.Spacious key) (a b : Nat)
    (total : ℚ) (le : a ≤ b)
    (fits : ∀ time, a ≤ time → time < b → ∑ i, run.rateAt key time i ≤ total) :
    ((∑ i, run.admitted key a b i : Nat) : ℚ) ≤ total * (b - a) +
      ∑ i, (run.burst key a b i + run.rounding key a b i) :=
  admitted_le_total (FleetRun.account spacious) (fun _ => le_refl 0) le fits

/- Two limiters asked for one key, and held back after the first second. -/
def heldBackCalls (_ : Fin 2) : List (LimiterCall Unit) :=
  [.check 7 ⟨100, 1⟩ none 5 2, .setCap (some (1 / 10)),
    .tick 1000000000 2 (fun _ => false) (fun s _ _ limit => (limit / 2, s)) (),
    .check 7 ⟨100, 1⟩ none 1000000000 2, .check 7 ⟨100, 1⟩ none 1000000001 2]

def heldBackSteps (i : Fin 2) : Option (List (LimiterStep Unit)) :=
  limiterRun quickDecay emptyLimiter 0 (heldBackCalls i)

theorem heldBackSteps_run : ∀ i, (heldBackSteps i).any (fun steps =>
    decide ((steps.map fun step => step.time).Pairwise (· ≤ ·)) &&
      decide (∀ step ∈ steps, step.Roomy ∧ Unsaturated (step.after.bucket 7)) &&
      decide (∀ step ∈ steps, (step.entry 7).rate ≤ 1 / 20000000) &&
      decide (∀ step ∈ steps, step.after.hotSet.isHot 7 = false)) = true := by
  decide +kernel

def heldBackRun : FleetRun (Fin 2) Unit quickDecay where
  config _ := emptyLimiter.config
  start _ := emptyLimiter
  calls := heldBackCalls
  steps i := (heldBackSteps i).get (Option.isSome_of_any (heldBackSteps_run i))
  new _ := by decide +kernel
  ran _ := (Option.some_get _).symm
  ordered i := by
    obtain ⟨steps, ran, checked⟩ := (Option.any_eq_true _ _).mp (heldBackSteps_run i)
    simp only [Bool.and_eq_true, decide_eq_true_eq] at checked
    simp only [ran, Option.get_some]
    exact checked.1.1.1

theorem heldBackRun_checked (i : Fin 2) : ∀ step ∈ heldBackRun.steps i,
    (step.Roomy ∧ Unsaturated (step.after.bucket 7)) ∧ (step.entry 7).rate ≤ 1 / 20000000 ∧
      step.after.hotSet.isHot 7 = false := by
  obtain ⟨steps, ran, checked⟩ := (Option.any_eq_true _ _).mp (heldBackSteps_run i)
  simp only [Bool.and_eq_true, decide_eq_true_eq] at checked
  have same : heldBackRun.steps i = steps := by simp only [heldBackRun, ran, Option.get_some]
  rw [same]
  exact fun step mem => ⟨checked.1.1.2 step mem, checked.1.2 step mem, checked.2 step mem⟩

theorem fleet_admissions_bounded_held :
    ((∑ i, heldBackRun.admitted 7 0 2000000000 i : Nat) : ℚ) ≤ 1 / 10000000 * (2000000000 - 0) +
      ∑ i, (heldBackRun.burst 7 0 2000000000 i + heldBackRun.rounding 7 0 2000000000 i) := by
  refine fleet_admissions_bounded quickDecay heldBackRun 7
    (fun i step mem => (heldBackRun_checked i step mem).1) 0 2000000000 _ (Nat.zero_le _)
    fun time _ _ => ?_
  have each (i : Fin 2) : heldBackRun.rateAt 7 time i ≤ 1 / 20000000 := by
    refine rateAt_le (by norm_num) fun entry mem => ?_
    obtain ⟨step, listed, rfl⟩ := List.mem_map.mp mem
    exact (heldBackRun_checked i step listed).2.1
  rw [Fin.sum_univ_two]
  linarith [each 0, each 1]

/- A quota is no faster than the rate it is asked for, where no rate that slow is out of its reach. -/
theorem quotaFor_rate {rate most : ℚ} {burst : Nat} {q : Quota}
    (made : quotaFor rate burst = some q) (le : rate ≤ most) (pos : 0 < most)
    (reach : oneSec / most ≤ maxInterval) :
    1 / q.interval ≤ most / oneSec ∧ q.burst = burst := by
  obtain ⟨value, unit, encoded, interval, same⟩ := Quota.withInterval_interval made
  refine ⟨?_, same⟩
  have kept := (encodeInterval_rounds encoded).1
  rw [← interval] at kept
  have asked : oneSec / most ≤ ((Rate.finite rate).interval : ℚ) := by
    unfold Rate.interval
    dsimp only
    split
    · rename_i whole
      have positive : 0 < (oneSec : ℚ) / rate := by
        rw [Int.le_ceil_iff] at whole
        simpa using whole
      have ratePos : 0 < rate := by
        rcases div_pos_iff.mp positive with ⟨_, pos⟩ | ⟨neg, _⟩
        · exact pos
        · exact absurd neg (by simp)
      rw [Nat.cast_min]
      refine le_min ?_ reach
      have longer : oneSec / most ≤ (oneSec : ℚ) / rate := by gcongr
      refine longer.trans ((Int.le_ceil _).trans ?_)
      exact_mod_cast Int.self_le_toNat _
    · rename_i short
      rw [if_neg fun one => short (by omega)]
      exact reach
  have held : oneSec / most ≤ (q.interval : ℚ) := by
    refine le_trans ?_ (Nat.cast_le.mpr kept)
    rw [Nat.cast_max, Nat.cast_min]
    exact le_max_of_le_right (le_min asked reach)
  have sec : (0 : ℚ) < oneSec := by norm_num [oneSec]
  rw [div_le_iff₀ pos] at held
  rw [div_le_div_iff₀ q.interval_cast_pos sec, one_mul, mul_comm]
  exact held

namespace LimiterCall
variable {σ : Type}

/- A call gives a key no more than a limit, in a cluster of so many at least. -/
def Within (key : UInt64) (limit : Limit) (size : Nat) : LimiterCall σ → Prop
  | check asked own _ _ clusterSize =>
    asked = key → own.rate ≤ limit.rate ∧ own.burst ≤ limit.burst ∧ size ≤ clusterSize
  | record asked _ own _ clusterSize =>
    asked = key → own.rate ≤ limit.rate ∧ own.burst ≤ limit.burst ∧ size ≤ clusterSize
  | setCap _ => True
  | relist _ => True
  | tick _ clusterSize _ _ _ => size ≤ clusterSize

instance (key : UInt64) (limit : Limit) (size : Nat) (call : LimiterCall σ) :
    Decidable (call.Within key limit size) := by
  cases call <;> unfold Within <;> infer_instance

end LimiterCall

namespace Limiter
variable {l l' : Limiter} {key : UInt64} {limit : Limit} {alpha most : ℚ} {size : Nat}

/- What a limiter holds a key to that is never hot: a limit, and a rate. -/
structure HeldTo (l : Limiter) (key : UInt64) (limit : Limit) (alpha most : ℚ) : Prop where
  alpha : l.config.alpha = alpha
  given : ∀ own g, l.held key = some (own, g) →
    0 < own.rate ∧ own.rate ≤ limit.rate ∧ own.burst ≤ limit.burst
  quota : ∀ own g, l.held key = some (own, g) →
    1 / g.quota.interval ≤ most / oneSec ∧ g.quota.burst ≤ limit.burst

theorem HeldTo.same (heldTo : l.HeldTo key limit alpha most) (config : l'.config = l.config)
    (held : l'.held key = l.held key) : l'.HeldTo key limit alpha most :=
  ⟨config ▸ heldTo.alpha, held ▸ heldTo.given, held ▸ heldTo.quota⟩

theorem cold_le {own : Limit} {clusterSize : Nat} (pos : 0 < own.rate)
    (rate : own.rate ≤ limit.rate) (alpha_pos : 0 < alpha) (size_pos : 0 < size)
    (counted : size ≤ clusterSize) :
    own.rate / clusterSize * alpha ≤ limit.rate * alpha / size := by
  rw [div_mul_eq_mul_div]
  have : (0 : ℚ) < size := by exact_mod_cast size_pos
  have : 0 ≤ limit.rate * alpha := mul_nonneg (pos.le.trans rate) alpha_pos.le
  gcongr

theorem HeldTo.serving {own : Limit} {now clusterSize : Nat} {answer : Option Decision}
    (heldTo : l.HeldTo key limit alpha (limit.rate * alpha / size)) (alpha_pos : 0 < alpha)
    (size_pos : 0 < size) (limit_pos : 0 < limit.rate)
    (reach : oneSec / (limit.rate * alpha / size) ≤ maxInterval)
    {asked : UInt64} (serving : Serving l asked own now clusterSize answer l')
    (config : l'.config = l.config)
    (within : asked = key → own.rate ≤ limit.rate ∧ own.burst ≤ limit.burst ∧ size ≤ clusterSize) :
    l'.HeldTo key limit alpha (limit.rate * alpha / size) := by
  by_cases same : asked = key
  · subst same
    obtain ⟨rate, burst, counted⟩ := within rfl
    obtain ⟨g, holds, quota⟩ := serving.own
    refine ⟨config ▸ heldTo.alpha, fun own' g' held => ?_, fun own' g' held => ?_⟩
    · rw [holds, Option.some.injEq, Prod.mk.injEq] at held
      obtain ⟨rfl, rfl⟩ := held
      exact ⟨serving.valid.1, rate, burst⟩
    · rw [holds, Option.some.injEq, Prod.mk.injEq] at held
      obtain ⟨rfl, rfl⟩ := held
      rcases quota with ⟨old, before, was, same⟩ | ⟨_, cold⟩
      · rw [same]
        exact heldTo.quota old before was
      · simp only [coldQuota, Option.ite_none_right_eq_some] at cold
        have factor : l.newKeyFactor clusterSize ≤ alpha / clusterSize := by
          rw [newKeyFactor, heldTo.alpha]
          cases l.cap with
          | none => exact le_refl _
          | some cap => exact min_le_left _ _
        have slow : own.rate * l.newKeyFactor clusterSize ≤ limit.rate * alpha / size := by
          refine le_trans (mul_le_mul_of_nonneg_left factor serving.valid.1.le) ?_
          rw [← mul_div_assoc, ← div_mul_eq_mul_div]
          exact cold_le serving.valid.1 rate alpha_pos size_pos counted
        obtain ⟨held, bursts⟩ := quotaFor_rate cold.2 slow (by positivity) reach
        exact ⟨held, bursts ▸ burst⟩
  · exact heldTo.same config (serving.others key (Ne.symm same))

theorem HeldTo.retuned {now clusterSize : Nat} {hotElsewhere : UInt64 → Bool}
    (heldTo : l.HeldTo key limit alpha (limit.rate * alpha / size)) (alpha_pos : 0 < alpha)
    (size_pos : 0 < size) (limit_pos : 0 < limit.rate)
    (reach : oneSec / (limit.rate * alpha / size) ≤ maxInterval)
    (retuned : Retuned l now clusterSize hotElsewhere l' key) (config : l'.config = l.config)
    (counted : size ≤ clusterSize) (cold : l'.hotSet.isHot key = false) :
    l'.HeldTo key limit alpha (limit.rate * alpha / size) := by
  cases retuned with
  | untracked _ after => exact ⟨config ▸ heldTo.alpha, by simp [after], by simp [after]⟩
  | forgotten _ _ after => exact ⟨config ▸ heldTo.alpha, by simp [after], by simp [after]⟩
  | @retuned own g quota asked state before same applied after =>
    obtain ⟨pos, rate, burst⟩ := heldTo.given own g before
    have slow : appliedRate l.config l.cap clusterSize hotElsewhere l'.hotSet asked key state ≤
        limit.rate * alpha / size := by
      have split := cold_le pos rate alpha_pos size_pos counted
      unfold appliedRate
      dsimp only
      rw [if_neg (by simp [cold]), same, heldTo.alpha]
      split
      · exact (capped_le _ _ _).trans ((min_le_right _ _).trans split)
      · exact (capped_le _ _ _).trans split
    obtain ⟨held, bursts⟩ := quotaFor_rate applied slow (by positivity) reach
    refine ⟨config ▸ heldTo.alpha, fun own' g' held' => ?_, fun own' g' held' => ?_⟩
    · rw [after, Option.some.injEq, Prod.mk.injEq] at held'
      obtain ⟨rfl, rfl⟩ := held'
      exact ⟨pos, rate, burst⟩
    · rw [after, Option.some.injEq, Prod.mk.injEq] at held'
      obtain ⟨rfl, rfl⟩ := held'
      rw [Gcra.setQuota_quota]
      exact ⟨held, bursts ▸ burst⟩

end Limiter

namespace LimiterCall
variable {σ : Type} {decay : Nat → Nat → ℚ} {l l' : Limiter} {served : Served σ}

theorem serve_heldTo {call : LimiterCall σ} {key : UInt64} {limit : Limit} {alpha : ℚ} {size : Nat}
    (orderly : l.Orderly) (heldTo : l.HeldTo key limit alpha (limit.rate * alpha / size))
    (alpha_pos : 0 < alpha) (size_pos : 0 < size) (limit_pos : 0 < limit.rate)
    (reach : oneSec / (limit.rate * alpha / size) ≤ maxInterval)
    (within : call.Within key limit size) (cold : l'.hotSet.isHot key = false)
    (roomy : call.isTick = true → l.trackedKeys ≤ l.config.maxTrackedKeys)
    (h : call.serve decay l = some (served, l')) :
    l'.HeldTo key limit alpha (limit.rate * alpha / size) := by
  cases call with
  | check asked own traced now clusterSize =>
    obtain ⟨decision, u, checked, rfl, same⟩ := serve_check orderly.distinct h
    have serving := (Limiter.checkIn_serving orderly.tuned checked).sameReal same
    exact heldTo.serving alpha_pos size_pos limit_pos reach serving
      (same.config.symm.trans (Limiter.checkIn_serves checked).config) within
  | record asked tally own now clusterSize =>
    simp only [serve, Option.map_eq_some_iff, Prod.mk.injEq] at h
    obtain ⟨_, recorded, rfl, rfl⟩ := h
    exact heldTo.serving alpha_pos size_pos limit_pos reach
      (Limiter.record_serving orderly.tuned recorded) (Limiter.record_serves recorded).config within
  | setCap cap =>
    simp only [serve, Option.some.injEq, Prod.mk.injEq] at h
    obtain ⟨rfl, rfl⟩ := h
    exact heldTo.same rfl rfl
  | relist order =>
    simp only [serve, Option.map_eq_some_iff, Prod.mk.injEq] at h
    obtain ⟨u, listed, rfl, rfl⟩ := h
    refine heldTo.same ?_ ?_
    · simp only [Limiter.relisted, Option.ite_none_right_eq_some, Option.some.injEq] at listed
      rw [← listed.2]
    · rw [Limiter.held, Limiter.held, Limiter.relisted_find listed]
  | tick now clusterSize hotElsewhere share s =>
    simp only [serve, Option.map_eq_some_iff, Prod.mk.injEq] at h
    obtain ⟨⟨u, s'⟩, ticked, rfl, rfl⟩ := h
    obtain ⟨_, each⟩ := Limiter.tick_retuned orderly.tuned orderly.distinct (roomy rfl) ticked
    obtain ⟨_, _, spec⟩ := Limiter.tickWithShares_spec ticked
    exact heldTo.retuned alpha_pos size_pos limit_pos reach (each key) spec.config within cold

end LimiterCall

theorem limiterRun_heldTo {σ : Type} {decay : Nat → Nat → ℚ} {key : UInt64} {limit : Limit}
    {alpha : ℚ} {size : Nat} {l : Limiter} {last : Nat} {calls : List (LimiterCall σ)}
    {steps : List (LimiterStep σ)} (orderly : l.Orderly)
    (heldTo : l.HeldTo key limit alpha (limit.rate * alpha / size)) (alpha_pos : 0 < alpha)
    (size_pos : 0 < size) (limit_pos : 0 < limit.rate)
    (reach : oneSec / (limit.rate * alpha / size) ≤ maxInterval)
    (ran : limiterRun decay l last calls = some steps)
    (within : ∀ call ∈ calls, call.Within key limit size) (roomy : ∀ step ∈ steps, step.Roomy)
    (cold : ∀ step ∈ steps, step.after.hotSet.isHot key = false) :
    ∀ step ∈ steps, step.after.HeldTo key limit alpha (limit.rate * alpha / size) := by
  induction calls generalizing l last steps with
  | nil =>
    obtain rfl := Option.some.inj ran
    simp
  | cons call calls ih =>
    obtain ⟨served, l', rest, stepped, later, rfl⟩ := limiterRun_cons ran
    have roomyFirst := roomy _ List.mem_cons_self
    have after := call.serve_heldTo orderly heldTo alpha_pos size_pos limit_pos reach
      (within call List.mem_cons_self) (cold _ List.mem_cons_self) roomyFirst stepped
    have orderly' := (call.serve_orderly orderly stepped key last roomyFirst).1
    intro step mem
    rcases List.mem_cons.mp mem with rfl | mem
    · exact after
    · exact ih orderly' after later (fun call mem => within call (List.mem_cons_of_mem _ mem))
        (fun step mem => roomy step (List.mem_cons_of_mem _ mem))
        (fun step mem => cold step (List.mem_cons_of_mem _ mem)) step mem

def LimiterStep.changesQuota {σ : Type} (key : UInt64) (step : LimiterStep σ) : Bool :=
  (step.before.bucket key).any fun b => (step.after.bucket key).any fun g => g.quota != b.quota

namespace FleetRun
variable {ι σ : Type} {decay : Nat → Nat → ℚ} (run : FleetRun ι σ decay) (key : UInt64)

def quotaChanges (a b : Nat) (i : ι) : Nat :=
  (run.steps i).countP fun step => decide (a ≤ step.time ∧ step.time ≤ b) && step.changesQuota key

end FleetRun

/- A change loses at most half a nanosecond of the rate it leaves. -/
theorem bucketEntry_forgiven {now : Nat} {before after : Option Gcra} {answer : Option Decision}
    {most : ℚ} (slow : ∀ g, after = some g → 1 / g.quota.interval ≤ most) :
    (bucketEntry now before answer after).forgiven ≤
      if before.any (fun b => after.any fun g => g.quota != b.quota) then most / 2 else 0 := by
  cases before with
  | none => simp [bucketEntry]
  | some b =>
    cases after with
    | none => simp [bucketEntry]
    | some g =>
      have slow := slow g rfl
      by_cases same : g.quota = b.quota
      · simp [bucketEntry, same]
      · have half : 1 / (2 * (g.quota.interval : ℚ)) = 1 / g.quota.interval / 2 := by
          rw [div_div, mul_comm]
        simp only [bucketEntry, Option.elim_some, same, if_false, Option.any_some, bne_iff_ne, ne_eq,
          not_false_eq_true, if_true, half]
        linarith

theorem forgiven_le {σ : Type} {key : UInt64} {a b : Nat} {most : ℚ} {steps : List (LimiterStep σ)}
    (slow : ∀ step ∈ steps, ∀ g, step.after.bucket key = some g → 1 / g.quota.interval ≤ most) :
    forgivenIn a b (steps.map fun step => step.entry key) ≤
      (steps.countP fun step =>
        decide (a ≤ step.time ∧ step.time ≤ b) && step.changesQuota key : Nat) * (most / 2) := by
  induction steps with
  | nil => simp [forgivenIn]
  | cons step rest ih =>
    have later := ih fun step mem => slow step (List.mem_cons_of_mem _ mem)
    have first : (step.entry key).forgiven ≤ if step.changesQuota key then most / 2 else 0 :=
      bucketEntry_forgiven (slow step List.mem_cons_self)
    rw [List.map_cons, forgivenIn, List.countP_cons, Nat.cast_add, add_mul, add_comm]
    refine add_le_add later ?_
    by_cases window : a ≤ step.time ∧ step.time ≤ b
    · have inside : a ≤ (step.entry key).time ∧ (step.entry key).time ≤ b := window
      rw [if_pos inside]
      refine first.trans (le_of_eq ?_)
      simp only [window, and_self, decide_true, Bool.true_and]
      split <;> simp
    · have outside : ¬ (a ≤ (step.entry key).time ∧ (step.entry key).time ≤ b) := window
      rw [if_neg outside]
      simp [window]

/-- Traffic that is never coordinated: while no node of a fleet holds a key hot, and each counts at
    least as many nodes as there are, the fleet admits of it in any window no more than the alpha
    part of its limit, a burst each, and half a nanosecond of that rate for each change of quota.
    The limits and caps may change at any time, and the nodes may know nothing of each other. -/
theorem uncoordinated_traffic_bounded {ι σ : Type} [Fintype ι] [Nonempty ι]
    (decay : Nat → Nat → ℚ) (run : FleetRun ι σ decay) (key : UInt64) (limit : Limit) (alpha : ℚ)
    (spacious : run.Spacious key) (valid : limit.Valid)
    (agreed : ∀ i, (run.config i).alpha = alpha)
    (within : ∀ i, ∀ call ∈ run.calls i, call.Within key limit (Fintype.card ι))
    (cold : ∀ i, ∀ step ∈ run.steps i, step.after.hotSet.isHot key = false)
    (reach : oneSec / (limit.rate * alpha / Fintype.card ι) ≤ maxInterval) (a b : Nat)
    (le : a ≤ b) :
    ((∑ i, run.admitted key a b i : Nat) : ℚ) ≤
      limit.rate * alpha / oneSec * ((b - a) +
        (∑ i, run.quotaChanges key a b i : Nat) / (2 * Fintype.card ι)) +
      Fintype.card ι * limit.burst := by
  have size_pos : 0 < Fintype.card ι := Fintype.card_pos
  have alpha_pos : 0 < alpha := by
    have i := Classical.arbitrary ι
    have new := run.new i
    simp only [Limiter.new, Option.ite_none_right_eq_some] at new
    rw [← agreed i]
    exact new.1.2.2.2.1.1
  set most := limit.rate * alpha / Fintype.card ι with mostEq
  have sec : (0 : ℚ) < oneSec := by norm_num [oneSec]
  have most_pos : 0 < most := by
    have := valid.1
    positivity
  have heldTo (i : ι) (step : LimiterStep σ) (mem : step ∈ run.steps i) :
      step.after.HeldTo key limit alpha most := by
    have new : (run.start i).config = run.config i := by
      have new := run.new i
      simp only [Limiter.new, Option.ite_none_right_eq_some, Option.map_eq_some_iff] at new
      obtain ⟨_, _, _, same⟩ := new
      rw [← same]
    have untracked := Limiter.new_held (run.new i) key
    exact limiterRun_heldTo (Limiter.new_orderly (run.new i))
      ⟨by rw [new, agreed], by simp [untracked], by simp [untracked]⟩ alpha_pos size_pos valid.1 reach
      (run.ran i) (within i) (fun step mem => (spacious i step mem).1) (cold i) step mem
  have slow (i : ι) (step : LimiterStep σ) (mem : step ∈ run.steps i) (g : Gcra)
      (left : step.after.bucket key = some g) :
      1 / g.quota.interval ≤ most / oneSec ∧ (g.quota.burst : ℚ) ≤ limit.burst := by
    rw [Limiter.bucket_eq, Option.map_eq_some_iff] at left
    obtain ⟨⟨own, _⟩, held, rfl⟩ := left
    obtain ⟨rate, burst⟩ := (heldTo i step mem).quota own _ held
    exact ⟨rate, by exact_mod_cast burst⟩
  have rates (time : Nat) : ∑ i, run.rateAt key time i ≤ limit.rate * alpha / oneSec := by
    have each (i : ι) : run.rateAt key time i ≤ most / oneSec := by
      refine rateAt_le (by positivity) fun entry mem => ?_
      obtain ⟨step, listed, rfl⟩ := List.mem_map.mp mem
      simp only [LimiterStep.entry, LimiterStep.bucketStep, BucketStep.entry, bucketEntry]
      cases left : step.after.bucket key with
      | none => simp only [Option.elim_none]; positivity
      | some g => exact (slow i step listed g left).1
    refine (Finset.sum_le_sum fun i _ => each i).trans (le_of_eq ?_)
    rw [Finset.sum_const, Finset.card_univ, nsmul_eq_mul, mostEq]
    field_simp
  have bursts (i : ι) : run.burst key a b i ≤ limit.burst := by
    refine highestLimit_le (Nat.cast_nonneg _) fun entry mem => ?_
    obtain ⟨step, listed, rfl⟩ := List.mem_map.mp mem
    simp only [LimiterStep.entry, LimiterStep.bucketStep, BucketStep.entry, bucketEntry]
    cases left : step.after.bucket key with
    | none => simp
    | some g => exact (slow i step listed g left).2
  have losses (i : ι) : run.rounding key a b i ≤ run.quotaChanges key a b i * (most / oneSec / 2) :=
    forgiven_le fun step mem g left => (slow i step mem g left).1
  have bound := admitted_le_total (FleetRun.account spacious) (fun _ => le_refl 0) le
    fun time _ _ => rates time
  have rest : ∑ i, (run.burst key a b i + run.rounding key a b i) ≤
      Fintype.card ι * limit.burst +
        (∑ i, run.quotaChanges key a b i : Nat) * (most / oneSec / 2) := by
    calc ∑ i, (run.burst key a b i + run.rounding key a b i)
        ≤ ∑ i, ((limit.burst : ℚ) + run.quotaChanges key a b i * (most / oneSec / 2)) :=
          Finset.sum_le_sum fun i _ => add_le_add (bursts i) (losses i)
      _ = _ := by
          rw [Finset.sum_add_distrib, Finset.sum_const, Finset.card_univ, nsmul_eq_mul,
            ← Finset.sum_mul, Nat.cast_sum]
  refine (bound.trans (add_le_add (le_refl _) rest)).trans (le_of_eq ?_)
  rw [mostEq]
  field_simp
  ring

theorem uncoordinated_traffic_bounded_pair :
    ((∑ i, heldBackRun.admitted 7 0 2000000000 i : Nat) : ℚ) ≤
      (100 : ℚ) * 1 / oneSec * ((2000000000 - 0) +
        (∑ i, heldBackRun.quotaChanges 7 0 2000000000 i : Nat) / (2 * Fintype.card (Fin 2))) +
      Fintype.card (Fin 2) * (1 : Nat) :=
  uncoordinated_traffic_bounded quickDecay heldBackRun 7 ⟨100, 1⟩ 1
    (fun i step mem => (heldBackRun_checked i step mem).1) (by decide +kernel)
    (fun _ => rfl) (by decide +kernel)
    (fun i step mem => (heldBackRun_checked i step mem).2.2)
    (by decide +kernel) 0 2000000000 (Nat.zero_le _)

end Rateguard
