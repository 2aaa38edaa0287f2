import Rateguard.DoubleDebts
import Rateguard.IdleBuckets
import Rateguard.QuotaChanges

/- A spent bucket taken through other quotas and back at one instant: what is left of its debt
   once doubles have rounded it, or a TAT has met the end of time. -/
namespace Rateguard
open SignificantBits (Fits)

namespace Gcra

def chain (g : Gcra) (quotas : List Quota) (now : Nat) : Gcra :=
  quotas.foldl (fun g quota => g.setQuotaIn double quota now) g

/- On q, its burst just spent: checks at now from no debt on, until the next is denied. -/
def Spent (g : Gcra) (q : Quota) (now : Nat) : Prop :=
  ∃ idle : Gcra, idle.quota = q ∧ idle.hasDebt now = false ∧
    ∃ n, g = (fun g : Gcra => (g.check now).2)^[n] idle ∧ (g.check now).1 ≠ .allow

/- j halves of a request are owed, or the TAT is at the end of time. -/
def Owes (j now : Nat) (g : Gcra) : Prop :=
  ∃ tat, g.tat = some tat ∧ tat ≤ u64Max ∧
    (tat = u64Max ∨ j * g.quota.interval ≤ 2 * (tat - now))

theorem chain_append (g : Gcra) (one two : List Quota) (now : Nat) :
    g.chain (one ++ two) now = (g.chain one now).chain two now := List.foldl_append

theorem denied_iff (g : Gcra) (now tat : Nat) (held : g.tat = some tat) :
    (g.check now).1 ≠ .allow ↔ now < tat - g.quota.tauNanos := by
  unfold check
  rw [held, Option.getD_some]
  dsimp only
  split
  · rename_i early
    simp [early]
  · rename_i late
    simp [late]

/- What a bucket spent at now has counted: whole intervals from now on. -/
theorem spent_tat {g : Gcra} {q : Quota} {now : Nat} (spent : g.Spent q now) :
    g.quota = q ∧ ∃ m, g.tat = some (min (now + m * q.interval) u64Max) ∧
      now + q.tauNanos < min (now + m * q.interval) u64Max := by
  obtain ⟨idle, on, free, n, rfl, denied⟩ := spent
  have counted (n : Nat) : ∃ left, (fun g : Gcra => (g.check now).2)^[n] idle = left ∧
      left.quota = q ∧
      (left.hasDebt now = false ∨ ∃ m, left.tat = some (min (now + m * q.interval) u64Max)) := by
    induction n with
    | zero => exact ⟨idle, rfl, on, .inl free⟩
    | succ n ih =>
      obtain ⟨left, reached, quota, state⟩ := ih
      rw [Function.iterate_succ_apply', reached]
      refine ⟨_, rfl, ?_⟩
      rcases state with none | ⟨m, held⟩
      · rw [check_idle none]
        refine ⟨quota, .inr ⟨1, ?_⟩⟩
        rw [quota, Nat.one_mul]
        rfl
      · unfold check
        rw [held, Option.getD_some]
        dsimp only
        split
        · exact ⟨quota, .inr ⟨m, held⟩⟩
        · refine ⟨quota, .inr ⟨m + 1, ?_⟩⟩
          simp only [satAdd, quota, Quota.tNanos, Nat.succ_mul, Option.some.injEq]
          omega
  obtain ⟨left, reached, quota, state⟩ := counted n
  rw [reached] at denied ⊢
  rcases state with none | ⟨m, held⟩
  · rw [check_idle none] at denied
    simp at denied
  · refine ⟨quota, m, held, ?_⟩
    rw [denied_iff left now _ held, quota] at denied
    omega

end Gcra

/- The least number of half requests that is more than the tolerance. -/
def Quota.halvesOwed (q : Quota) : Nat := 2 * q.tauNanos / q.interval + 1

theorem Quota.halvesOwed_gt (q : Quota) : 2 * q.tauNanos < q.halvesOwed * q.interval := by
  have pos := q.interval_pos
  have split := Nat.div_add_mod (2 * q.tauNanos) q.interval
  have rest := Nat.mod_lt (2 * q.tauNanos) pos
  unfold halvesOwed
  rw [Nat.add_mul, Nat.mul_comm _ q.interval]
  omega

theorem Quota.halvesOwed_le {q : Quota} {j : Nat} (more : 2 * q.tauNanos < j * q.interval) :
    q.halvesOwed ≤ j := by
  have less : 2 * q.tauNanos / q.interval < j := by
    rw [Nat.mul_comm j] at more
    exact Nat.div_lt_of_lt_mul more
  unfold halvesOwed
  omega

theorem Quota.halvesOwed_le_burst (q : Quota) : q.halvesOwed ≤ 2 * q.burst := by
  have pos := q.interval_pos
  have burst := q.burst_pos
  have tolerance := q.tauNanos_le
  refine halvesOwed_le ?_
  have whole : q.interval * (q.burst - 1) + q.interval = q.interval * q.burst := by
    rw [← Nat.mul_succ]
    congr 1
    omega
  rw [Nat.mul_assoc, Nat.mul_comm q.burst]
  omega

theorem Quota.halvesOwed_small (q : Quota) : q.halvesOwed < 2 ^ 53 := by
  have le := q.halvesOwed_le_burst
  have most := q.burst_le
  have few : 2 * maxBurst < 2 ^ 53 := by decide
  omega

theorem Quota.halvesOwed_pos (q : Quota) : 0 < q.halvesOwed := Nat.succ_pos _

/- j halves of a request are a double at the quota, or they are sure to meet the end of time. -/
def Quota.Holds (q : Quota) (j : Nat) : Prop := Fits 53 (j * q.interval)

def Quota.Saturates (q : Quota) (j now : Nat) : Prop :=
  2 * (u64Max - now) + 2 ^ 16 ≤ j * q.interval

def Quota.Measures (q : Quota) (j now : Nat) : Prop := q.Holds j ∨ q.Saturates j now

/- A change of quota that keeps j halves: no double rounds them, and the TAT does not meet the end
   of time for less, or one of the two bursts it then counts as is as much. -/
def Carries (j now : Nat) (old new : Quota) : Prop :=
  new = old ∨ old.Measures j now ∧ new.Measures j now ∧
    (j * old.interval ≤ 2 * (u64Max - now) ∨ j ≤ 2 * max old.burst new.burst)

section
variable {j now e tat : Nat} {q old new : Quota}

/- What is counted where j halves are owed and are a double. -/
theorem Quota.Holds.counted (holds : q.Holds j) (pos : 0 < j) (few : j < 2 ^ 53)
    (owed : j * q.interval ≤ 2 * e) : (j : ℚ) / 2 ≤ double (double e / double q.tNanos) := by
  have interval : double q.tNanos = q.interval := double_natCast (holds.of_mul pos)
  have halves : (j : ℚ) / 2 * q.interval ≤ double e := by
    have cast : ((j * q.interval : Nat) : ℚ) / 2 ≤ e := by
      rw [div_le_iff₀ (by norm_num)]
      exact_mod_cast (Nat.mul_comm e 2) ▸ owed
    have kept := double_mono cast
    rw [double_half holds] at kept
    push_cast at kept
    linarith
  rw [interval]
  have quotient : (j : ℚ) / 2 ≤ double e / q.interval :=
    (le_div_iff₀ q.interval_cast_pos).mpr halves
  have kept := double_mono quotient
  rwa [double_half (SignificantBits.fits_of_lt few)] at kept

theorem Carries.counted (pos : 0 < j) (few : j < 2 ^ 53) (differ : new ≠ old)
    (carries : Carries j now old new) (small : tat ≤ u64Max)
    (owed : tat = u64Max ∨ j * old.interval ≤ 2 * (tat - now)) :
    (j : ℚ) / 2 ≤ debtSlots double tat old new now := by
  obtain ⟨held, _, kept⟩ := carries.resolve_left differ
  -- where the end of time is not met, the old quota holds what is owed
  have counted {e : Nat} (le : e ≤ u64Max - now) (owed : j * old.interval ≤ 2 * e) :
      (j : ℚ) / 2 ≤ double (double e / double old.tNanos) := by
    refine (held.resolve_right fun late => ?_).counted pos few owed
    unfold Quota.Saturates at late
    omega
  unfold debtSlots
  dsimp only
  split
  · rename_i full
    subst full
    rcases kept with time | burst
    · exact (counted le_rfl time).trans ((le_max_left _ _).trans (le_max_left _ _))
    · have cast : (j : ℚ) ≤ 2 * max (old.burst : ℚ) new.burst := by exact_mod_cast burst
      have larger : max (old.burst : ℚ) new.burst ≤
          max (max (double (double (u64Max - now : Nat) / double old.tNanos)) old.burst)
            new.burst := max_le_max (le_max_right _ _) le_rfl
      linarith
  · rename_i unfull
    exact counted (by omega) (owed.resolve_left unfull)

theorem Quota.Measures.carried (pos : 0 < j) (measures : new.Measures j now)
    (counted : (j : ℚ) / 2 ≤ debtSlots double tat old new now) :
    carryTatIn double tat old new now = u64Max ∨
      j * new.interval ≤ 2 * (carryTatIn double tat old new now - now) := by
  have long := new.interval_cast_pos
  rcases measures with holds | late
  · have interval : double new.tNanos = new.interval := double_natCast (holds.of_mul pos)
    refine carryTatIn_ge ?_
    have product : ((j * new.interval : Nat) : ℚ) / 2 ≤
        debtSlots double tat old new now * new.interval := by
      push_cast
      nlinarith
    have kept := double_mono product
    rw [double_half holds] at kept
    rw [interval]
    linarith
  · left
    refine carryTatIn_full ?_
    have halves : (0 : ℚ) ≤ (j : ℚ) / 2 := by positivity
    have interval : (new.interval : ℚ) * (1 - 1 / 2 ^ 53) ≤ double new.tNanos := double_ge long.le
    have product : (j : ℚ) / 2 * new.interval * (1 - 1 / 2 ^ 53) ≤
        debtSlots double tat old new now * double new.tNanos := by
      have less := mul_le_mul counted interval (mul_nonneg long.le (by norm_num))
        (halves.trans counted)
      linarith
    have kept := le_double (mul_nonneg halves long.le) (by norm_num) (by norm_num) product
    refine le_trans ?_ kept
    have past : 2 * ((u64Max - now : Nat) : ℚ) + 2 ^ 16 ≤ j * new.interval := by
      exact_mod_cast late
    have whole : ((u64Max - now : Nat) : ℚ) ≤ 2 ^ 64 := by
      have := Nat.sub_le u64Max now
      have most : u64Max ≤ 2 ^ 64 := by decide
      exact_mod_cast this.trans most
    nlinarith

end

namespace Gcra
variable {j now : Nat} {g : Gcra} {q : Quota}

theorem Owes.setQuota (owes : g.Owes j now) (pos : 0 < j) (few : j < 2 ^ 53) {quota : Quota}
    (carries : Carries j now g.quota quota) : (g.setQuotaIn double quota now).Owes j now := by
  obtain ⟨tat, held, small, owed⟩ := owes
  unfold setQuotaIn
  split
  · exact ⟨tat, held, small, owed⟩
  · rename_i differ
    rw [held]
    have counted := carries.counted pos few differ small owed
    obtain ⟨_, measures, _⟩ := carries.resolve_left differ
    exact ⟨_, rfl, satAdd_le _ _, measures.carried pos counted⟩

theorem Owes.chain (owes : g.Owes j now) (pos : 0 < j) (few : j < 2 ^ 53) {quotas : List Quota}
    (carries : (g.quota :: quotas).IsChain (Carries j now)) : (g.chain quotas now).Owes j now := by
  induction quotas generalizing g with
  | nil => exact owes
  | cons quota rest ih =>
    rw [List.isChain_cons_cons] at carries
    refine ih (owes.setQuota pos few carries.1) ?_
    rw [setQuotaIn_quota]
    exact carries.2

theorem Spent.owes {g : Gcra} {q : Quota} {now : Nat} (spent : g.Spent q now) :
    g.Owes q.halvesOwed now := by
  obtain ⟨on, m, held, ahead⟩ := spent_tat spent
  subst on
  refine ⟨_, held, Nat.min_le_right _ _, ?_⟩
  by_cases full : u64Max ≤ now + m * g.quota.interval
  · exact .inl (Nat.min_eq_right full)
  · rw [Nat.min_eq_left (by omega)] at ahead ⊢
    have more : 2 * g.quota.tauNanos < 2 * m * g.quota.interval := by
      rw [Nat.mul_assoc]
      omega
    have halves := Nat.mul_le_mul_right g.quota.interval (Quota.halvesOwed_le more)
    rw [Nat.mul_assoc] at halves
    omega

theorem Spent.denied_after (spent : g.Spent q now) {quotas : List Quota}
    (carries : (q :: (quotas ++ [q])).IsChain (Carries q.halvesOwed now)) :
    ((g.chain (quotas ++ [q]) now).check now).1 ≠ .allow := by
  obtain ⟨on, m, held, ahead⟩ := spent_tat spent
  subst on
  obtain ⟨tat, left, _, owed⟩ :=
    spent.owes.chain g.quota.halvesOwed_pos g.quota.halvesOwed_small carries
  have back : (g.chain (quotas ++ [g.quota]) now).quota = g.quota := by
    rw [chain_append]
    exact setQuotaIn_quota double _ g.quota now
  rw [denied_iff _ now tat left, back]
  rw [back] at owed
  have tolerance := g.quota.halvesOwed_gt
  omega

end Gcra

/- The slowest rate there is, and the fastest, each with a burst of one. -/
def slowest (burst : Nat) (pos : 0 < burst) (le : burst ≤ maxBurst) : Quota :=
  { interval := maxInterval, burst := burst, interval_pos := by decide, interval_le := by decide,
    rounded := ⟨(2 ^ 40 - 1, 2), by decide, by decide⟩, burst_pos := pos, burst_le := le }

def fastest : Quota :=
  { interval := 1, burst := 1, interval_pos := by decide, interval_le := by decide,
    rounded := ⟨(1, 0), by decide, by decide⟩, burst_pos := by decide, burst_le := by decide }

theorem double_one : double 1 = 1 := by
  exact_mod_cast double_natCast (SignificantBits.fits_of_lt (by decide : 1 < 2 ^ 53))

theorem double_fastest : double (fastest.tNanos : ℚ) = 1 := by
  exact_mod_cast double_one

/- A few roundings lose little of what is counted. -/
theorem Quota.counted_loses {h e : Nat} {q : Quota} (owed : h * q.interval ≤ 2 * e) :
    (h : ℚ) / 2 * (1 - 4 / 2 ^ 53) ≤ double (double e / double q.tNanos) := by
  have size : (0 : ℚ) < q.tNanos := q.interval_cast_pos
  have cast : (h : ℚ) * q.tNanos ≤ 2 * e := by exact_mod_cast owed
  have time := double_ge (Nat.cast_nonneg e : (0 : ℚ) ≤ e)
  have low := double_ge size.le
  have most := double_le size.le
  have pos : (0 : ℚ) < double q.tNanos := lt_of_lt_of_le (mul_pos size (by norm_num)) low
  have quotient : (h : ℚ) / 2 * (1 - 3 / 2 ^ 53) ≤ double e / double q.tNanos := by
    rw [le_div_iff₀ pos]
    nlinarith
  have kept := le_double (by positivity) (by norm_num) (by norm_num) quotient
  refine le_trans ?_ kept
  linarith

theorem Quota.counted_adds {h e : Nat} {q : Quota} (owed : 2 * e ≤ h * q.interval) :
    double (double e / double q.tNanos) ≤ (h : ℚ) / 2 * (1 + 5 / 2 ^ 53) := by
  have size : (0 : ℚ) < q.tNanos := q.interval_cast_pos
  have cast : 2 * (e : ℚ) ≤ h * q.tNanos := by exact_mod_cast owed
  have time := double_le (Nat.cast_nonneg e : (0 : ℚ) ≤ e)
  have low := double_ge size.le
  have pos : (0 : ℚ) < double q.tNanos := lt_of_lt_of_le (mul_pos size (by norm_num)) low
  have quotient : double e / double q.tNanos ≤ (h : ℚ) / 2 * (1 + 3 / 2 ^ 53) := by
    rw [div_le_iff₀ pos]
    have halves : (0 : ℚ) ≤ h := Nat.cast_nonneg h
    nlinarith
  have kept := double_le (div_nonneg (double_nonneg e) pos.le)
  have halves : (0 : ℚ) ≤ h := Nat.cast_nonneg h
  nlinarith

namespace Gcra
variable {now h e : Nat} {g : Gcra} {q slow : Quota}

/- A spent bucket that goes down to the slowest rate where its debt is late for the end of time. -/
theorem Spent.dipped (spent : g.Spent q now) (apart : slow ≠ q)
    (late : 2 * (u64Max - now) + 3 * slow.tNanos ≤ q.halvesOwed * slow.tNanos) :
    g.setQuotaIn double slow now = ⟨slow, some u64Max⟩ := by
  obtain ⟨on, m, held, ahead⟩ := spent_tat spent
  subst on
  obtain ⟨tat, known, small, owed⟩ := spent.owes
  have most : (g.quota.halvesOwed : ℚ) ≤ 8388606 := by
    exact_mod_cast g.quota.halvesOwed_le_burst.trans (Nat.mul_le_mul_left 2 g.quota.burst_le)
  have burst : (g.quota.halvesOwed : ℚ) ≤ 2 * g.quota.burst := by
    exact_mod_cast g.quota.halvesOwed_le_burst
  have pos : (0 : ℚ) < g.quota.halvesOwed := by exact_mod_cast g.quota.halvesOwed_pos
  generalize g.quota.halvesOwed = h at *
  have counted : (h : ℚ) / 2 * (1 - 4 / 2 ^ 53) ≤ debtSlots double tat g.quota slow now := by
    unfold debtSlots
    dsimp only
    split
    · refine le_trans ?_ ((le_max_right _ _).trans (le_max_left _ _))
      linarith
    · rename_i unfull
      exact Quota.counted_loses (owed.resolve_left unfull)
  have long : (0 : ℚ) < slow.tNanos := slow.interval_cast_pos
  have product := mul_le_mul counted (double_ge long.le) (mul_nonneg long.le (by norm_num))
    ((mul_nonneg (by positivity) (by norm_num)).trans counted)
  have halves := mul_pos pos long
  have kept := @le_double (h / 2 * slow.tNanos) _ 5 (by positivity) (by norm_num) (by norm_num)
    (le_trans (by linarith) product)
  have past : 2 * ((u64Max - now : Nat) : ℚ) + 3 * slow.tNanos ≤ h * slow.tNanos := by
    exact_mod_cast late
  have lost : (h : ℚ) * slow.tNanos ≤ 8388606 * slow.tNanos :=
    mul_le_mul_of_nonneg_right most long.le
  have full := @carryTatIn_full double tat now g.quota slow (by linarith)
  unfold setQuotaIn
  rw [if_neg apart, known]
  dsimp only
  rw [full]

/- What a saturated TAT counts as on the fastest rate is then a whole request short. -/
theorem refilled_down (burst_one : slow.burst = 1) (apart : fastest ≠ slow) (several : 4 ≤ h)
    (most : h ≤ 8388606) (now_le : now ≤ u64Max)
    (late : 2 * (u64Max - now) + 3 * slow.tNanos ≤ h * slow.tNanos) :
    ∃ e, 2 * e + 2 ≤ h ∧
      setQuotaIn double ⟨slow, some u64Max⟩ fastest now = ⟨fastest, some (now + e)⟩ := by
  obtain ⟨k, rfl⟩ := Nat.le.dest (show 3 ≤ h by omega)
  have adds := @Quota.counted_adds k (u64Max - now) slow (by
    change _ ≤ k * slow.tNanos
    rw [Nat.add_mul] at late
    omega)
  have few : (k : ℚ) ≤ 8388606 := by exact_mod_cast (show k ≤ 8388606 by omega)
  have counted : debtSlots double u64Max slow fastest now ≤ max 1 ((k : ℚ) / 2 + 1 / 8) := by
    rw [debtSlots, if_pos rfl, burst_one, Nat.cast_one]
    refine max_le (max_le ?_ (le_max_left _ _)) (le_max_left _ _)
    refine le_trans adds (le_trans ?_ (le_max_right _ _))
    linarith
  have rounded : double (debtSlots double u64Max slow fastest now * double fastest.tNanos) <
      (((k + 1) / 2 : Nat) : ℚ) + 1 / 2 := by
    rw [double_fastest, mul_one]
    refine lt_of_le_of_lt (double_mono counted) ?_
    have half : (k : ℚ) ≤ 2 * ((k + 1) / 2 : Nat) := by
      exact_mod_cast (show k ≤ 2 * ((k + 1) / 2) by omega)
    rcases max_choice (1 : ℚ) (k / 2 + 1 / 8) with low | high
    · have some' : (1 : ℚ) ≤ ((k + 1) / 2 : Nat) := by
        exact_mod_cast (show 1 ≤ (k + 1) / 2 by omega)
      rw [low, double_one]
      linarith
    · rw [high]
      have kept := double_le (show (0 : ℚ) ≤ k / 2 + 1 / 8 by positivity)
      linarith
  have le := carryTatIn_le rounded
  have ge : now ≤ carryTatIn double u64Max slow fastest now := by
    simp only [carryTatIn, satAdd]
    omega
  obtain ⟨e, is⟩ := Nat.le.dest ge
  refine ⟨e, by omega, ?_⟩
  unfold setQuotaIn
  rw [if_neg apart]
  dsimp only
  rw [is]

/- What is carried back as less than the tolerance is forgiven. -/
theorem allowed_back (apart : q ≠ fastest) (room : now + q.tauNanos < u64Max) (few : e ≤ 8388606)
    (less : (2 * e + 1) * q.interval ≤ 2 * q.tauNanos) :
    ((setQuotaIn double ⟨fastest, some (now + e)⟩ q now).check now).1 = .allow := by
  have size : (0 : ℚ) < q.tNanos := q.interval_cast_pos
  have below : e ≤ q.tauNanos := by nlinarith [q.interval_pos]
  have counted : debtSlots double (now + e) fastest q now = e := by
    have exact' : double (e : ℚ) = e :=
      double_natCast (SignificantBits.fits_of_lt (lt_of_le_of_lt few (by norm_num)))
    rw [debtSlots, if_neg (by omega), Nat.add_sub_cancel_left, double_fastest, exact', div_one,
      exact']
  have rounded : double (debtSlots double (now + e) fastest q now * double q.tNanos) <
      (q.tauNanos : ℚ) + 1 / 2 := by
    rw [counted]
    have interval := double_le size.le
    have nonneg : (0 : ℚ) ≤ e := Nat.cast_nonneg e
    have cast : (e : ℚ) ≤ 8388606 := by exact_mod_cast few
    have fits : (2 * (e : ℚ) + 1) * q.tNanos ≤ 2 * q.tauNanos := by exact_mod_cast less
    have product : (e : ℚ) * double q.tNanos ≤ e * q.tNanos * (1 + 1 / 2 ^ 53) := by nlinarith
    have kept := double_le (mul_nonneg nonneg (double_nonneg (q.tNanos : ℚ)))
    have lost : (e : ℚ) * q.tNanos ≤ 8388606 * q.tNanos := mul_le_mul_of_nonneg_right cast size.le
    linarith
  have le := carryTatIn_le rounded
  unfold setQuotaIn
  rw [if_neg apart]
  by_contra denied
  have denied := (denied_iff _ now _ rfl).mp denied
  dsimp only at denied
  omega

/- So a dip to the slowest rate, the fastest, and back let a request more through. -/
theorem Spent.refilled (spent : g.Spent q now)
    (late : 2 * (u64Max - now) + 3 * maxInterval ≤ q.halvesOwed * maxInterval) :
    ∃ quotas, ((g.chain (quotas ++ [q]) now).check now).1 = .allow := by
  obtain ⟨_, m, _, ahead⟩ := spent_tat spent
  have room : now + q.tauNanos < u64Max := by omega
  have several : 4 ≤ q.halvesOwed := by
    by_contra few
    have le := Nat.mul_le_mul_right maxInterval (show q.halvesOwed ≤ 3 by omega)
    omega
  have bursts := q.halvesOwed_le_burst
  have most : q.halvesOwed ≤ 8388606 := bursts.trans (Nat.mul_le_mul_left 2 q.burst_le)
  have slow : slowest 1 (by decide) (by decide) ≠ q := by
    rintro rfl
    exact absurd (several.trans bursts) (by decide)
  have fast : q ≠ fastest := by
    rintro rfl
    exact absurd (several.trans bursts) (by decide)
  obtain ⟨e, short, down⟩ := @refilled_down now q.halvesOwed (slowest 1 (by decide) (by decide)) rfl
    (by decide) several most (by omega) late
  refine ⟨[slowest 1 (by decide) (by decide), fastest], ?_⟩
  change (((Gcra.setQuotaIn double (g.setQuotaIn double _ now) fastest now).setQuotaIn double q
    now).check now).1 = .allow
  rw [spent.dipped slow late, down]
  refine allowed_back fast room (by omega) ?_
  have whole : 2 * q.tauNanos / q.interval * q.interval ≤ 2 * q.tauNanos := Nat.div_mul_le_self _ _
  have fewer : 2 * e + 1 ≤ 2 * q.tauNanos / q.interval := by
    unfold Quota.halvesOwed at short
    omega
  exact (Nat.mul_le_mul_right q.interval fewer).trans whole

/- A fresh bucket's checks at one time, as long as they are within its tolerance. -/
theorem checks_new (q : Quota) (now n : Nat) (within : n * q.interval ≤ q.tauNanos)
    (room : now + (n + 1) * q.interval ≤ u64Max) :
    (fun g : Gcra => (g.check now).2)^[n + 1] (Gcra.new q) =
      ⟨q, some (now + (n + 1) * q.interval)⟩ := by
  induction n with
  | zero =>
    rw [Function.iterate_one, check_idle rfl]
    simp only [Gcra.new, Quota.tNanos, satAdd, Nat.zero_add, Nat.one_mul] at room ⊢
    rw [Nat.min_eq_left room]
  | succ n ih =>
    rw [Nat.succ_mul] at within room
    rw [Function.iterate_succ_apply', ih (by omega) (by omega)]
    have early : ¬ now < now + (n + 1) * q.interval - q.tauNanos := by
      rw [Nat.succ_mul]
      omega
    simp only [check, Option.getD_some, if_neg early, satAdd, Quota.tNanos]
    rw [Nat.max_eq_left (Nat.le_add_right _ _), Nat.succ_mul (n + 1), Nat.min_eq_left (by omega),
      Nat.add_assoc]

end Gcra

/-- A spent bucket stays denied through every chain of quotas back to its own of which each change
    carries the debt; and where the time left is late for what is owed at the slowest rate, some
    chain does let another request through. -/
theorem spent_stays_denied {g : Gcra} {q : Quota} {now : Nat} (spent : g.Spent q now) :
    (∀ quotas, (q :: (quotas ++ [q])).IsChain (Carries q.halvesOwed now) →
      ((g.chain (quotas ++ [q]) now).check now).1 ≠ .allow) ∧
    (2 * (u64Max - now) + 3 * maxInterval ≤ q.halvesOwed * maxInterval →
      ∃ quotas, ((g.chain (quotas ++ [q]) now).check now).1 = .allow) :=
  ⟨fun _ carries => spent.denied_after carries, spent.refilled⟩

def twentyBurst : Quota := .perMilli 20 (by decide) (by decide)

def oneBurst : Quota := { twentyBurst with burst := 1, burst_pos := by decide, burst_le := by decide }

def spentTwenty : Gcra := ⟨twentyBurst, some 20000000⟩

theorem spentTwenty_spent : spentTwenty.Spent twentyBurst 0 :=
  ⟨Gcra.new twentyBurst, rfl, rfl, 20, by decide +kernel, by decide⟩

/- A request in 32 hours, with a burst that its tolerance caps, and one in 8 hours. -/
def cappedBurst : Quota :=
  { interval := 115852587352000, burst := 79614, interval_pos := by decide, interval_le := by decide,
    rounded := ⟨(115852587352, 1), by decide, by decide⟩, burst_pos := by decide,
    burst_le := by decide }

def roundedOn : Quota :=
  { interval := 29737033511000, burst := 1, interval_pos := by decide, interval_le := by decide,
    rounded := ⟨(29737033511, 1), by decide, by decide⟩, burst_pos := by decide,
    burst_le := by decide }

def spentCapped : Gcra := ⟨cappedBurst, some 9223372036854776000⟩

theorem spentCapped_spent : spentCapped.Spent cappedBurst 0 :=
  ⟨Gcra.new cappedBurst, rfl, rfl, 79613,
    (Gcra.checks_new cappedBurst 0 79612 (by decide) (by decide)).symm, by decide⟩

/- The first is let through because a TAT met the end of time, the second because the doubles
   rounded the debt down. -/
theorem spent_stays_denied_refilled :
    (Quota.new 1000 20 = some twentyBurst ∧ Quota.new 1000 1 = some oneBurst ∧
      Quota.perSecond (.finite 0) 1 = some (slowest 1 (by decide) (by decide)) ∧
      spentTwenty.Spent twentyBurst 0 ∧ (spentTwenty.check 0).1 ≠ .allow ∧
      ((spentTwenty.chain ([slowest 1 (by decide) (by decide), oneBurst] ++ [twentyBurst]) 0).check
        0).1 = .allow) ∧
    spentCapped.Spent cappedBurst 0 ∧ (spentCapped.check 0).1 ≠ .allow ∧
      (spentCapped.chain [roundedOn] 0).tat ≠ some u64Max ∧
      ((spentCapped.chain ([roundedOn] ++ [cappedBurst]) 0).check 0).1 = .allow :=
  ⟨⟨by decide +kernel, by decide +kernel, by decide +kernel, spentTwenty_spent, by decide,
    by decide +kernel⟩, spentCapped_spent, by decide, by decide +kernel, by decide +kernel⟩

theorem spent_stays_denied_dip :
    ((spentTwenty.chain ([slowest 20 (by decide) (by decide)] ++ [twentyBurst]) 0).check 0).1 ≠
        .allow ∧
      ∃ quotas, ((spentTwenty.chain (quotas ++ [twentyBurst]) 0).check 0).1 = .allow := by
  obtain ⟨carried, late⟩ := spent_stays_denied spentTwenty_spent
  refine ⟨carried [slowest 20 (by decide) (by decide)] ?_, late (by decide)⟩
  have halves : twentyBurst.halvesOwed = 39 := by decide
  have holds : twentyBurst.Measures 39 0 := .inl (SignificantBits.fits_of_lt (by decide))
  have saturates : (slowest 20 (by decide) (by decide)).Measures 39 0 := .inr (by
    unfold Quota.Saturates
    decide)
  rw [halves]
  refine List.isChain_cons_cons.mpr ⟨.inr ⟨holds, saturates, .inr (by decide)⟩,
    List.isChain_cons_cons.mpr ⟨.inr ⟨saturates, holds, .inr (by decide)⟩, .singleton _⟩⟩

end Rateguard
