import Rateguard.Gcra

/- How many requests one bucket admits in a window, whatever order the clock hands out its
   readings in. -/
namespace Rateguard

def Gcra.answers (g : Gcra) : List Nat → List (Nat × Decision)
  | [] => []
  | now :: rest => (now, (g.check now).1) :: (g.check now).2.answers rest

def allowedIn (a b : Nat) (answers : List (Nat × Decision)) : Nat :=
  answers.countP fun (now, decision) => a ≤ now ∧ now ≤ b ∧ decision = .allow

theorem Gcra.check_cases (g : Gcra) (now : Nat) :
    (now < g.tat.getD now - g.quota.tauNanos ∧
      g.check now = (.deny (g.tat.getD now - g.quota.tauNanos), g)) ∨
    (g.tat.getD now ≤ now + g.quota.tauNanos ∧
      g.check now = (.allow,
        { g with tat := some (satAdd (max (g.tat.getD now) now) g.quota.tNanos) })) := by
  unfold Gcra.check
  by_cases early : now < g.tat.getD now - g.quota.tauNanos
  · exact Or.inl ⟨early, by simp [early]⟩
  · exact Or.inr ⟨by omega, by simp [early]⟩

/- The first admission left finds the TAT within the tolerance of the window's end, and each
   one after it finds the TAT an interval further. The end of time is out of reach: no clock
   reading below 2^63 comes within the tolerance of a saturated TAT. -/
theorem Gcra.admissions_push_tat (g : Gcra) (a b : Nat) (times : List Nat)
    (clock : ∀ now ∈ times, now < 2 ^ 63) :
    allowedIn a b (g.answers times) = 0 ∨
      max (g.tat.getD 0) a + (allowedIn a b (g.answers times) - 1) * g.quota.interval ≤
        min b (2 ^ 63 - 1) + g.quota.tauNanos := by
  induction times generalizing g with
  | nil => exact Or.inl rfl
  | cons now rest ih =>
    have reading := clock now (by simp)
    have restClock : ∀ t ∈ rest, t < 2 ^ 63 := fun t mem => clock t (by simp [mem])
    have tauLe : g.quota.tauNanos ≤ 2 ^ 63 - 1 := g.quota.tauNanos_le_maxTau
    rcases g.check_cases now with ⟨_, denied⟩ | ⟨withinTau, admitted⟩
    · have same : allowedIn a b (g.answers (now :: rest)) = allowedIn a b (g.answers rest) := by
        simp [Gcra.answers, allowedIn, denied]
      rw [same]
      exact ih g restClock
    · have later := ih (g.check now).2 restClock
      simp only [Gcra.answers, allowedIn, List.countP_cons] at later ⊢
      simp only [admitted, Option.getD_some] at later ⊢
      generalize List.countP _ (Gcra.answers _ rest) = count at later ⊢
      have tatLe : g.tat.getD 0 ≤ g.tat.getD now := by cases g.tat <;> simp
      have pushed : satAdd (max (g.tat.getD now) now) g.quota.tNanos =
          max (g.tat.getD now) now + g.quota.interval ∨
          satAdd (max (g.tat.getD now) now) g.quota.tNanos = 2 ^ 64 - 1 := by
        by_cases full : satAdd (max (g.tat.getD now) now) g.quota.tNanos = u64Max
        · exact Or.inr full
        · exact Or.inl (satAdd_of_ne full)
      generalize satAdd (max (g.tat.getD now) now) g.quota.tNanos = next at later pushed
      rcases Nat.eq_zero_or_pos count with none | some
      · subst none
        split
        · simp_all
          omega
        · simp_all
      · obtain ⟨k, rfl⟩ : ∃ k, count = k + 1 := ⟨count - 1, by omega⟩
        have bound := later.resolve_left (by omega)
        right
        simp only [Nat.add_sub_cancel] at bound
        split
        · simp only [Nat.add_sub_cancel, Nat.succ_mul]
          generalize k * g.quota.interval = spent at bound ⊢
          simp_all
          omega
        · simp only [Nat.add_zero, Nat.add_sub_cancel]
          omega

/-- The bound for every quota, starting TAT, run and window. -/
theorem Gcra.admission_bound (g : Gcra) (times : List Nat)
    (clock : ∀ now ∈ times, now < 2 ^ 63) (a b : Nat) (window : a ≤ b) :
    allowedIn a b (g.answers times) ≤ (b - a + g.quota.tauNanos) / g.quota.interval + 1 ∧
      allowedIn a b (g.answers times) ≤ (b - a) / g.quota.interval + g.quota.burst := by
  have pos := g.quota.interval_pos
  have first : allowedIn a b (g.answers times) ≤
      (b - a + g.quota.tauNanos) / g.quota.interval + 1 := by
    rcases g.admissions_push_tat a b times clock with none | pushed
    · exact none ▸ Nat.zero_le _
    · have spent : (allowedIn a b (g.answers times) - 1) * g.quota.interval ≤
          b - a + g.quota.tauNanos := by omega
      exact Nat.sub_le_iff_le_add.mp ((Nat.le_div_iff_mul_le pos).mpr spent)
  refine ⟨first, Nat.le_trans first ?_⟩
  have tolerance := g.quota.tauNanos_le
  have burst := g.quota.burst_pos
  calc (b - a + g.quota.tauNanos) / g.quota.interval + 1
      ≤ (b - a + g.quota.interval * (g.quota.burst - 1)) / g.quota.interval + 1 :=
        Nat.add_le_add_right (Nat.div_le_div_right (by omega)) 1
    _ = (b - a) / g.quota.interval + g.quota.burst := by
        rw [Nat.add_mul_div_left _ _ pos]
        omega

/- Three a microsecond apart, on a clock that steps back between the calls. -/
def threePerMicro : Quota :=
  { interval := 1000, burst := 3, interval_pos := by decide, interval_le := by decide,
    rounded := ⟨(1000, 0), by decide, by decide⟩, burst_pos := by decide, burst_le := by decide }

theorem Gcra.admission_bound_backwards :
    allowedIn 0 500 ((Gcra.new threePerMicro).answers [500, 0, 300, 100, 1500, 200]) ≤ 3 :=
  ((Gcra.new threePerMicro).admission_bound [500, 0, 300, 100, 1500, 200] (by decide) 0 500
    (by decide)).2

end Rateguard
