import Rateguard.Admission

/- What a bucket admits while its quota changes under it. Debt is measured in requests, as
   carryTat carries it. -/
namespace Rateguard

/- One call on a bucket, with its time. -/
inductive BucketCall where
  | check (now : Nat)
  | setQuota (quota : Quota) (now : Nat)

def BucketCall.time : BucketCall → Nat
  | .check now => now
  | .setQuota _ now => now

def Gcra.call (g : Gcra) : BucketCall → Gcra
  | .check now => (g.check now).2
  | .setQuota quota now => g.setQuota quota now

def Gcra.runAnswers (g : Gcra) : List BucketCall → List (Nat × Decision)
  | [] => []
  | .check now :: rest => (now, (g.check now).1) :: (g.check now).2.runAnswers rest
  | .setQuota quota now :: rest => (g.setQuota quota now).runAnswers rest

/- No TAT of the run is at the end of time. -/
def Gcra.Unsaturated (g : Gcra) : List BucketCall → Prop
  | [] => g.tat ≠ some u64Max
  | call :: rest => g.tat ≠ some u64Max ∧ (g.call call).Unsaturated rest

instance (g : Gcra) (calls : List BucketCall) : Decidable (g.Unsaturated calls) := by
  induction calls generalizing g with
  | nil => exact inferInstanceAs (Decidable (g.tat ≠ some u64Max))
  | cons call rest ih =>
    have := ih (g.call call)
    exact inferInstanceAs (Decidable (g.tat ≠ some u64Max ∧ (g.call call).Unsaturated rest))

/- The length of the part of [start, stop] inside the window [a, b]. -/
def overlap (a b start stop : Nat) : ℚ := ((min b stop - max a start : Nat) : ℚ)

/- The requests the window's stretches are worth, each at the interval in force: quota is
   in force from start to the first change, the last one for good. -/
def refill (a b : Nat) (quota : Quota) (start : Nat) : List BucketCall → ℚ
  | [] => overlap a b start b / quota.interval
  | .check _ :: rest => refill a b quota start rest
  | .setQuota next now :: rest =>
      overlap a b start now / quota.interval + refill a b next now rest

/- The largest burst in force at some time of the window. -/
def burstInForce (a b : Nat) (quota : Quota) (start : Nat) : List BucketCall → Nat
  | [] => if start ≤ b then quota.burst else 0
  | .check _ :: rest => burstInForce a b quota start rest
  | .setQuota next now :: rest =>
      max (if start ≤ b ∧ a ≤ now then quota.burst else 0) (burstInForce a b next now rest)

/- Half a nanosecond of requests for each change of quota in the window. -/
def roundingLoss (a b : Nat) (quota : Quota) : List BucketCall → ℚ
  | [] => 0
  | .check _ :: rest => roundingLoss a b quota rest
  | .setQuota next now :: rest =>
      (if next ≠ quota ∧ a ≤ now ∧ now ≤ b then 1 / (2 * (next.interval : ℚ)) else 0) +
        roundingLoss a b next rest

/- Requests admitted ahead of their time and not yet paid for. -/
def Gcra.debt (g : Gcra) (now : Nat) : ℚ :=
  ((g.tat.getD 0 - now : Nat) : ℚ) / g.quota.interval

theorem Gcra.debt_nonneg (g : Gcra) (now : Nat) : 0 ≤ g.debt now := by
  unfold Gcra.debt
  positivity

theorem Quota.interval_cast_pos (q : Quota) : (0 : ℚ) < q.interval := by
  exact_mod_cast q.interval_pos

theorem overlap_nonneg (a b start stop : Nat) : 0 ≤ overlap a b start stop := by
  unfold overlap
  positivity

theorem overlap_split {a b start now stop : Nat} (early : start ≤ now) (late : now ≤ stop) :
    overlap a b start stop = overlap a b start now + overlap a b now stop := by
  unfold overlap
  norm_cast
  omega

theorem refill_nonneg (a b : Nat) (quota : Quota) (start : Nat) (calls : List BucketCall) :
    0 ≤ refill a b quota start calls := by
  induction calls generalizing quota start with
  | nil => exact div_nonneg (overlap_nonneg ..) (by positivity)
  | cons call rest ih =>
    cases call with
    | check now => exact ih quota start
    | setQuota next now =>
      exact add_nonneg (div_nonneg (overlap_nonneg ..) (by positivity)) (ih next now)

theorem roundingLoss_nonneg (a b : Nat) (quota : Quota) (calls : List BucketCall) :
    0 ≤ roundingLoss a b quota calls := by
  induction calls generalizing quota with
  | nil => exact le_refl 0
  | cons call rest ih =>
    cases call with
    | check now => exact ih quota
    | setQuota next now =>
      refine add_nonneg ?_ (ih next)
      split
      · positivity
      · exact le_refl 0

/- A stretch is worth the sum of its two parts. -/
theorem refill_advance {a b start now : Nat} (quota : Quota) {calls : List BucketCall}
    (early : start ≤ now) (inside : now ≤ b) (late : ∀ call ∈ calls, now ≤ call.time) :
    refill a b quota start calls =
      overlap a b start now / quota.interval + refill a b quota now calls := by
  induction calls with
  | nil =>
    simp only [refill]
    rw [overlap_split early inside, add_div]
  | cons call rest ih =>
    have restLate : ∀ later ∈ rest, now ≤ later.time := fun later mem => late later (by simp [mem])
    cases call with
    | check time => exact ih restLate
    | setQuota next time =>
      have reached : now ≤ time := late (.setQuota next time) (by simp)
      simp only [refill]
      rw [overlap_split early reached, add_div, add_assoc]

theorem burstInForce_advance {a b start now : Nat} (quota : Quota) {calls : List BucketCall}
    (early : start ≤ now) :
    burstInForce a b quota now calls ≤ burstInForce a b quota start calls := by
  induction calls with
  | nil => simp only [burstInForce]; split <;> split <;> omega
  | cons call rest ih =>
    cases call with
    | check time => exact ih
    | setQuota next time =>
      simp only [burstInForce]
      refine max_le_max ?_ (le_refl _)
      split <;> split <;> omega

theorem burst_le_burstInForce {a b now : Nat} (quota : Quota) {calls : List BucketCall}
    (opened : a ≤ now) (inside : now ≤ b) (late : ∀ call ∈ calls, now ≤ call.time) :
    quota.burst ≤ burstInForce a b quota now calls := by
  induction calls with
  | nil => simp [burstInForce, inside]
  | cons call rest ih =>
    have restLate : ∀ later ∈ rest, now ≤ later.time := fun later mem => late later (by simp [mem])
    cases call with
    | check time => exact ih restLate
    | setQuota next time =>
      have := late (.setQuota next time) (by simp)
      simp only [BucketCall.time] at this
      simp only [burstInForce]
      rw [if_pos ⟨inside, by omega⟩]
      exact le_max_left _ _

theorem none_allowed_after {a b : Nat} (g : Gcra) {calls : List BucketCall}
    (late : ∀ call ∈ calls, b < call.time) : allowedIn a b (g.runAnswers calls) = 0 := by
  induction calls generalizing g with
  | nil => rfl
  | cons call rest ih =>
    have restLate : ∀ later ∈ rest, b < later.time := fun later mem => late later (by simp [mem])
    cases call with
    | check now =>
      have after := late (.check now) (by simp)
      simp only [BucketCall.time] at after
      have others := ih (g.check now).2 restLate
      simp only [Gcra.runAnswers, allowedIn, List.countP_cons] at others ⊢
      rw [others, if_neg (by simp only [decide_eq_true_eq]; omega)]
    | setQuota quota now => exact ih (g.setQuota quota now) restLate

/- The debt counted from the window's start on. -/
def Gcra.pending (g : Gcra) (a now : Nat) : ℚ := if a ≤ now then g.debt now else 0

theorem Gcra.pending_advance (g : Gcra) {a b start now : Nat} (early : start ≤ now)
    (inside : now ≤ b) :
    g.pending a start ≤ overlap a b start now / g.quota.interval + g.pending a now := by
  unfold Gcra.pending
  by_cases opened : a ≤ start
  · rw [if_pos opened, if_pos (Nat.le_trans opened early)]
    simp only [Gcra.debt, overlap]
    rw [← add_div]
    have pos := g.quota.interval_cast_pos
    gcongr
    norm_cast
    omega
  · rw [if_neg opened]
    refine add_nonneg (div_nonneg (overlap_nonneg ..) (by positivity)) ?_
    split
    · exact g.debt_nonneg now
    · exact le_refl 0

/- An admission adds exactly one request of debt, and leaves at most the burst. -/
theorem Gcra.admission_adds_one (g : Gcra) (now : Nat)
    (within : g.tat.getD now ≤ now + g.quota.tauNanos)
    (exact' : satAdd (max (g.tat.getD now) now) g.quota.tNanos ≠ u64Max) :
    Gcra.debt { g with tat := some (satAdd (max (g.tat.getD now) now) g.quota.tNanos) } now =
      g.debt now + 1 ∧ g.debt now + 1 ≤ g.quota.burst := by
  have pos := g.quota.interval_cast_pos
  have ahead : g.tat.getD now - now = g.tat.getD 0 - now := by cases g.tat <;> simp
  have tolerance := g.quota.tauNanos_le
  have burst := g.quota.burst_pos
  constructor
  · rw [satAdd_of_ne exact']
    simp only [Gcra.debt, Option.getD_some, Quota.tNanos]
    rw [div_add_one pos.ne']
    congr 1
    norm_cast
    omega
  · have owed : g.tat.getD 0 - now + g.quota.interval ≤ g.quota.interval * g.quota.burst := by
      have whole : g.quota.interval * (g.quota.burst - 1) + g.quota.interval =
          g.quota.interval * g.quota.burst := by
        rw [← Nat.mul_succ]
        congr 1
        omega
      omega
    simp only [Gcra.debt]
    rw [div_add_one pos.ne', div_le_iff₀ pos, mul_comm]
    exact_mod_cast owed

theorem Gcra.setQuota_keeps_debt (g : Gcra) (quota : Quota) (now : Nat)
    (before : g.tat ≠ some u64Max) (after : (g.setQuota quota now).tat ≠ some u64Max) :
    g.debt now ≤ (g.setQuota quota now).debt now +
      if quota ≠ g.quota then 1 / (2 * (quota.interval : ℚ)) else 0 := by
  by_cases same : quota = g.quota
  · simp [Gcra.setQuota, same]
  · rw [if_pos same]
    cases known : g.tat with
    | none =>
      simp only [Gcra.setQuota, same, ↓reduceIte, known, Gcra.debt, Option.getD_none]
      simp only [Nat.zero_sub, Nat.cast_zero, zero_div, zero_add]
      positivity
    | some tat =>
      have pos := quota.interval_cast_pos
      have saturated : tat ≠ u64Max := fun full => before (by rw [known, full])
      simp only [Gcra.setQuota, same, ↓reduceIte, known, carryTat, saturated] at after ⊢
      rw [Quota.tNanos, Quota.tNanos] at after ⊢
      set owed : ℚ := ((tat - now : Nat) : ℚ) / g.quota.interval with owedEq
      have owedNonneg : 0 ≤ owed := by positivity
      have below : satAdd now (roundToU64 (owed * quota.interval)) ≠ u64Max :=
        fun full => after (congrArg some full)
      have carried := satAdd_of_ne below
      have unclipped : roundToU64 (owed * quota.interval) =
          (round (owed * quota.interval)).toNat := by
        simp only [roundToU64, satAdd] at below ⊢
        omega
      have nearest := abs_le.mp (abs_sub_round (owed * quota.interval))
      have roundNonneg : 0 ≤ round (owed * quota.interval) := by
        rw [round_eq]
        positivity
      have exact' : ((roundToU64 (owed * quota.interval) : Nat) : ℚ) =
          round (owed * quota.interval) := by
        rw [unclipped]
        exact_mod_cast Int.toNat_of_nonneg roundNonneg
      have debtEq : g.debt now = owed := by simp [Gcra.debt, known, owedEq]
      rw [debtEq]
      simp only [Gcra.debt, Option.getD_some]
      rw [carried, Nat.add_sub_cancel_left, exact']
      have whole : owed = owed * quota.interval / quota.interval := by field_simp
      have half : 1 / (2 * (quota.interval : ℚ)) = 1 / 2 / quota.interval := by field_simp
      rw [half, ← add_div, whole, div_mul_cancel₀ _ pos.ne']
      gcongr
      linarith only [nearest.2]

theorem Gcra.setQuota_keeps_pending (g : Gcra) {a b now : Nat} (quota : Quota)
    (inside : now ≤ b) (before : g.tat ≠ some u64Max)
    (after : (g.setQuota quota now).tat ≠ some u64Max) :
    g.pending a now ≤ (g.setQuota quota now).pending a now +
      if quota ≠ g.quota ∧ a ≤ now ∧ now ≤ b then 1 / (2 * (quota.interval : ℚ)) else 0 := by
  unfold Gcra.pending
  by_cases opened : a ≤ now
  · simpa only [opened, inside, and_true, if_true] using g.setQuota_keeps_debt quota now before after
  · simp [opened]

theorem Gcra.pending_admission (g : Gcra) {a now : Nat} (opened : a ≤ now)
    (within : g.tat.getD now ≤ now + g.quota.tauNanos)
    (exact' : satAdd (max (g.tat.getD now) now) g.quota.tNanos ≠ u64Max) :
    Gcra.pending { g with tat := some (satAdd (max (g.tat.getD now) now) g.quota.tNanos) } a now =
      g.pending a now + 1 ∧ g.pending a now + 1 ≤ g.quota.burst := by
  simpa only [Gcra.pending, if_pos opened] using g.admission_adds_one now within exact'

theorem Gcra.Unsaturated.now {g : Gcra} {calls : List BucketCall} (h : g.Unsaturated calls) :
    g.tat ≠ some u64Max := by
  cases calls with
  | nil => exact h
  | cons call rest => exact h.1

theorem Gcra.setQuota_quota (g : Gcra) (quota : Quota) (now : Nat) :
    (g.setQuota quota now).quota = quota := by
  unfold Gcra.setQuota
  split
  · rename_i same; exact same.symm
  · split <;> rfl

/- Requests admitted, and those owed at the start, fit what the window's stretches are worth,
   one burst and the rounding. By induction on the calls, each an advance of the clock to its
   own time and then its step. -/
theorem Gcra.admissions_spend_debt (g : Gcra) (a b start : Nat) (calls : List BucketCall)
    (late : ∀ call ∈ calls, start ≤ call.time)
    (ordered : (calls.map BucketCall.time).Pairwise (· ≤ ·)) (unsaturated : g.Unsaturated calls) :
    allowedIn a b (g.runAnswers calls) = 0 ∨
      allowedIn a b (g.runAnswers calls) + g.pending a start ≤
        refill a b g.quota start calls + burstInForce a b g.quota start calls +
          roundingLoss a b g.quota calls := by
  induction calls generalizing g start with
  | nil => exact Or.inl rfl
  | cons call rest ih =>
    have reached : start ≤ call.time := late call (by simp)
    obtain ⟨restLate, restOrdered⟩ : (∀ later ∈ rest, call.time ≤ later.time) ∧
        (rest.map BucketCall.time).Pairwise (· ≤ ·) := by
      simpa using ordered
    by_cases inside : call.time ≤ b
    · have ih := ih (g.call call) call.time restLate restOrdered unsaturated.2
      have waited := g.pending_advance (a := a) reached inside
      have sequel := unsaturated.2.now
      have bursts : (burstInForce a b g.quota call.time rest : ℚ) ≤
          burstInForce a b g.quota start rest := by
        exact_mod_cast burstInForce_advance g.quota reached
      cases call with
      | check now =>
        simp only [BucketCall.time, Gcra.call] at restLate reached inside ih waited sequel bursts
        simp only [refill, burstInForce, roundingLoss, Gcra.runAnswers, allowedIn,
          List.countP_cons] at ih ⊢
        rw [refill_advance g.quota reached inside restLate]
        rcases g.check_cases now with ⟨_, denied⟩ | ⟨within, admitted⟩
        · simp only [denied, reduceCtorEq, and_false, decide_false, Bool.false_eq_true,
            ↓reduceIte, Nat.add_zero] at ih ⊢
          refine ih.imp_right fun spent => ?_
          linarith
        · simp only [admitted, Option.some.injEq, ne_eq] at ih sequel ⊢
          by_cases opened : a ≤ now
          · have adds := g.pending_admission opened within sequel
            have fits : (g.quota.burst : ℚ) ≤ burstInForce a b g.quota start rest := by
              refine le_trans ?_ bursts
              exact_mod_cast burst_le_burstInForce g.quota opened inside restLate
            have refillPos := refill_nonneg a b g.quota now rest
            have lossPos := roundingLoss_nonneg a b g.quota rest
            rw [if_pos (by simp [opened, inside])]
            right
            push_cast
            rcases ih with none | spent
            · rw [none, Nat.cast_zero]
              linarith [adds.2]
            · linarith [adds.1]
          · have closed : ∀ h : Gcra, h.pending a now = 0 := fun h => if_neg opened
            rw [closed] at ih waited
            rw [if_neg (by simp [opened]), Nat.add_zero]
            refine ih.imp_right fun spent => ?_
            linarith
      | setQuota next now =>
        simp only [BucketCall.time, Gcra.call] at restLate reached inside ih waited sequel
        rw [g.setQuota_quota] at ih
        simp only [refill, burstInForce, roundingLoss, Gcra.runAnswers]
        refine ih.imp_right fun spent => ?_
        have kept := g.setQuota_keeps_pending (a := a) next inside unsaturated.1 sequel
        have larger : (burstInForce a b next now rest : ℚ) ≤
            (max (if start ≤ b ∧ a ≤ now then g.quota.burst else 0)
              (burstInForce a b next now rest) : Nat) := by
          exact_mod_cast le_max_right _ _
        linarith
    · exact Or.inl (none_allowed_after g fun later mem => by
        rcases List.mem_cons.mp mem with same | mem
        · subst later; omega
        · have := restLate later mem; omega)

/-- Quota changes never mint requests: the bound for every run from a fresh bucket and every
    window. -/
theorem quota_changes_mint_nothing (quota : Quota) (calls : List BucketCall)
    (ordered : (calls.map BucketCall.time).Pairwise (· ≤ ·))
    (unsaturated : (Gcra.new quota).Unsaturated calls) (a b : Nat) :
    (allowedIn a b ((Gcra.new quota).runAnswers calls) : ℚ) ≤
      refill a b quota 0 calls + burstInForce a b quota 0 calls +
        roundingLoss a b quota calls := by
  have spent := (Gcra.new quota).admissions_spend_debt a b 0 calls (fun _ _ => Nat.zero_le _)
    ordered unsaturated
  have owed : 0 ≤ (Gcra.new quota).pending a 0 := by
    unfold Gcra.pending
    split
    · exact Gcra.debt_nonneg _ _
    · exact le_refl 0
  rcases spent with none | spent
  · rw [none]
    have := refill_nonneg a b quota 0 calls
    have := roundingLoss_nonneg a b quota calls
    push_cast
    positivity
  · have same : (Gcra.new quota).quota = quota := rfl
    rw [same] at spent
    linarith

def onePerMilli : Quota := .perMilli 2 (by decide) (by decide)

theorem quota_changes_mint_nothing_dip :
    (allowedIn 0 2000 ((Gcra.new threePerMicro).runAnswers [.check 0, .check 0,
      .setQuota onePerMilli 500, .check 600, .setQuota threePerMicro 700, .check 1800]) : ℚ) ≤
      refill 0 2000 threePerMicro 0 [.check 0, .check 0, .setQuota onePerMilli 500, .check 600,
        .setQuota threePerMicro 700, .check 1800] +
      burstInForce 0 2000 threePerMicro 0 [.check 0, .check 0, .setQuota onePerMilli 500,
        .check 600, .setQuota threePerMicro 700, .check 1800] +
      roundingLoss 0 2000 threePerMicro [.check 0, .check 0, .setQuota onePerMilli 500,
        .check 600, .setQuota threePerMicro 700, .check 1800] :=
  quota_changes_mint_nothing threePerMicro _ (by decide) (by decide +kernel) 0 2000

end Rateguard
