import Rateguard.Admission
import Rateguard.AtomicRefines
import Rateguard.Spacing

/- What the lock-free bucket lets through, exactly: whatever its threads do, a check is refused
   only where it would break the bound, it is told the very time that ends, and no other rule
   would have let more through. -/
namespace Rateguard
open OptimisticUpdate (Machine Step)

/- Those let through keep the quota's interval but for its tolerance, on top of the debt the
   bucket starts with. -/
def Gcra.Keeps (g : Gcra) (times : List Nat) : Prop :=
  Spacing.Conforms g.quota.tNanos g.quota.tauNanos (g.tat.getD 0) times

def letThrough {ι : Type} (effects : List (ι × Nat × Decision)) : List Nat :=
  (effects.filter (·.2.2 = .allow)).map (·.2.1)

/- The clock is far enough from its end that no TAT saturates: it has run for less than two
   centuries, for every quota. -/
def Quota.Reads (q : Quota) (now : Nat) : Prop := now + q.tauNanos + q.tNanos ≤ u64Max

instance (q : Quota) (now : Nat) : Decidable (q.Reads now) := Nat.decLe _ _

section
variable {ι : Type} {g : Gcra} {effects : List (ι × Nat × Decision)}

theorem Gcra.check_spaced (g : Gcra) {now : Nat} (clock : g.quota.Reads now) :
    (g.tat.getD 0 ≤ now + g.quota.tauNanos ∧ (g.check now).1 = .allow ∧
      (g.check now).2.quota = g.quota ∧
      (g.check now).2.tat.getD 0 = max (g.tat.getD 0) now + g.quota.tNanos) ∨
    (now + g.quota.tauNanos < g.tat.getD 0 ∧
      g.check now = (.deny (g.tat.getD 0 - g.quota.tauNanos), g)) := by
  have clock : now + g.quota.tauNanos + g.quota.tNanos ≤ u64Max := clock
  rcases g.check_cases now with ⟨early, denied⟩ | ⟨within, admitted⟩
  · cases held : g.tat with
    | none =>
      rw [held, Option.getD_none] at early
      omega
    | some tat =>
      rw [held, Option.getD_some] at early denied
      rw [Option.getD_some]
      exact .inr ⟨by omega, denied⟩
  · have same : max (g.tat.getD now) now = max (g.tat.getD 0) now := by
      cases g.tat <;> simp
    have le : g.tat.getD 0 ≤ g.tat.getD now := by cases g.tat <;> simp
    refine .inl ⟨by omega, by rw [admitted], by rw [admitted], ?_⟩
    rw [admitted, Option.getD_some, same, satAdd, Nat.min_eq_left (by omega)]

theorem letThrough_cons (effect : ι × Nat × Decision) :
    letThrough (effect :: effects) =
      if effect.2.2 = .allow then effect.2.1 :: letThrough effects else letThrough effects := by
  rw [letThrough, List.filter_cons]
  by_cases allowed : effect.2.2 = .allow
  · simp [allowed, letThrough]
  · simp [allowed, letThrough]

/- The checks of a run are answered as the spacing selects. By induction on them, whatever the
   bucket starts with. -/
theorem Gcra.letThrough_select (answered : g.checks (effects.map (·.2.1)) = effects.map (·.2.2))
    (clock : ∀ effect ∈ effects, g.quota.Reads effect.2.1) :
    letThrough effects = Spacing.select g.quota.tNanos g.quota.tauNanos (g.tat.getD 0)
      (effects.map (·.2.1)) := by
  induction effects generalizing g with
  | nil => rfl
  | cons effect rest ih =>
    simp only [List.map_cons, checks, List.cons.injEq] at answered
    obtain ⟨first, answered⟩ := answered
    rw [letThrough_cons, List.map_cons, Spacing.select]
    have now := clock effect List.mem_cons_self
    have later : ∀ effect ∈ rest, g.quota.Reads effect.2.1 :=
      fun effect mem => clock effect (List.mem_cons_of_mem _ mem)
    rcases g.check_spaced now with ⟨may, allowed, quota, tat⟩ | ⟨early, denied⟩
    · rw [if_pos (first.symm.trans allowed), if_pos may, ih answered (by rwa [quota]), quota, tat]
    · rw [denied] at first answered
      have refused : effect.2.2 ≠ .allow := by simp [← first]
      rw [if_neg refused, if_neg (by omega), ih answered later]

theorem Gcra.checks_take (g : Gcra) (early late : List Nat) :
    (g.checks (early ++ late)).take early.length = g.checks early := by
  induction early generalizing g with
  | nil => simp [checks]
  | cons now rest ih => simp only [List.cons_append, checks, List.length_cons, List.take_succ_cons, ih]

theorem Gcra.decision_due {early late : List (ι × Nat × Decision)} {i : ι} {now : Nat}
    {decision : Decision} (same : effects = early ++ (i, now, decision) :: late)
    (answered : g.checks (effects.map (·.2.1)) = effects.map (·.2.2))
    (clock : ∀ effect ∈ effects, g.quota.Reads effect.2.1) :
    decision = if Spacing.due g.quota.tNanos (g.tat.getD 0) (letThrough early) ≤
        now + g.quota.tauNanos then .allow
      else .deny (Spacing.due g.quota.tNanos (g.tat.getD 0) (letThrough early) -
        g.quota.tauNanos) := by
  subst same
  induction early generalizing g with
  | nil =>
    simp only [List.nil_append, List.map_cons, checks, List.cons.injEq] at answered
    rw [← answered.1, letThrough, List.filter_nil, List.map_nil, Spacing.due]
    have read : g.quota.Reads now := clock (i, now, decision) (by simp)
    rcases g.check_spaced read with ⟨may, allowed, _⟩ | ⟨early, denied⟩
    · rw [if_pos may, allowed]
    · rw [if_neg (by omega), denied]
  | cons effect rest ih =>
    simp only [List.cons_append, List.map_cons, checks, List.cons.injEq] at answered
    obtain ⟨first, answered⟩ := answered
    have read := clock effect (by simp)
    have later : ∀ effect ∈ rest ++ (i, now, decision) :: late, g.quota.Reads effect.2.1 :=
      fun effect mem => clock effect (List.mem_cons_of_mem _ mem)
    rw [letThrough_cons]
    rcases g.check_spaced read with ⟨_, allowed, quota, tat⟩ | ⟨_, denied⟩
    · have rest := ih answered (by rwa [quota])
      rwa [if_pos (first.symm.trans allowed), Spacing.due, ← tat, ← quota]
    · rw [denied] at first answered
      have refused : effect.2.2 ≠ .allow := by simp [← first]
      rw [if_neg refused]
      exact ih answered later

end

section
variable {ι : Type} [DecidableEq ι]

theorem Gcra.checks_effects (g : Gcra) {m : Machine ι UInt64 Nat Nat Decision}
    (run : Relation.ReflTransGen (Step attempt) (Machine.start g.quota.pack (g.tat.getD 0)) m) :
    g.checks (m.effects.map (·.2.1)) = m.effects.map (·.2.2) := by
  rw [← g.replay_checks, (OptimisticUpdate.linearizable run).replayed]

end

/-- Any number of threads check one bucket, in any order of their accesses to it. A check is let
    through exactly where those let through before it and this one keep the quota, whichever
    stretch of them is counted; and one that is refused is told the first time at which a check
    would be let through. Every answer returned is one of these. -/
theorem checks_keep_exactly (ι : Type) [DecidableEq ι] (g : Gcra)
    (m : Machine ι UInt64 Nat Nat Decision)
    (run : Relation.ReflTransGen (Step attempt) (Machine.start g.quota.pack (g.tat.getD 0)) m)
    (clock : ∀ effect ∈ m.effects, g.quota.Reads effect.2.1) :
    m.returns ⊆ m.effects ∧ g.Keeps (letThrough m.effects) ∧
      ∀ early i now decision late, m.effects = early ++ (i, now, decision) :: late →
        (decision = .allow ↔ g.Keeps (letThrough early ++ [now])) ∧
        ∀ retryAt, decision = .deny retryAt →
          now < retryAt ∧ IsLeast {time | g.Keeps (letThrough early ++ [time])} retryAt := by
  have answered := g.checks_effects run
  have keeps : ∀ early late, m.effects = early ++ late → g.Keeps (letThrough early) := by
    intro early late split
    have first : g.checks (early.map (·.2.1)) = early.map (·.2.2) := by
      rw [← g.checks_take _ (late.map (·.2.1)), ← List.map_append, ← split, answered, split]
      simp
    rw [g.letThrough_select first fun effect mem => clock effect (by simp [split, mem])]
    exact Spacing.select_conforms _ _ _ _
  refine ⟨?_, keeps m.effects [] (by simp), ?_⟩
  · intro returned mem
    have own := (OptimisticUpdate.linearizable run).returned returned.1
    have kept : returned ∈ m.effects.filter (·.1 = returned.1) := by
      rw [own]
      exact List.mem_append_left _ (List.mem_filter.mpr ⟨mem, by simp⟩)
    exact (List.mem_filter.mp kept).1
  · intro early i now decision late split
    have before := keeps early _ split
    have told := g.decision_due split answered clock
    constructor
    · have kept : g.Keeps (letThrough early ++ [now]) ↔
          Spacing.due g.quota.tNanos (g.tat.getD 0) (letThrough early) ≤
            now + g.quota.tauNanos :=
        Spacing.conforms_concat.trans (and_iff_right before)
      rw [kept, told]
      split <;> simp_all
    · intro retryAt denied
      rw [denied] at told
      split at told
      · simp at told
      · obtain rfl := (Decision.deny.inj told)
        exact ⟨by omega, before.next_least⟩

theorem checks_keep_exactly_contended : ∃ g : Gcra,
    ¬ g.Keeps (letThrough [(true, 0, .allow)] ++ [0]) ∧
      IsLeast {time | g.Keeps (letThrough [(true, 0, .allow)] ++ [time])} 1000000 := by
  obtain ⟨m, run, effects, _⟩ := contended_run
  have kept := checks_keep_exactly Bool (Gcra.new (Quota.perMilli 1 (by decide) (by decide))) m run
    (by rw [effects]; decide)
  obtain ⟨allowed, denied⟩ := kept.2.2 [(true, 0, .allow)] false 0 (.deny 1000000) [] effects
  exact ⟨_, by simp [← allowed], (denied 1000000 rfl).2⟩

/-- And no rule would have let more through: where the checks take effect in the order of their
    times, any others of them that keep the quota are no more than those let through. -/
theorem no_rule_lets_more_through (ι : Type) [DecidableEq ι] (g : Gcra)
    (m : Machine ι UInt64 Nat Nat Decision)
    (run : Relation.ReflTransGen (Step attempt) (Machine.start g.quota.pack (g.tat.getD 0)) m)
    (clock : ∀ effect ∈ m.effects, g.quota.Reads effect.2.1)
    (ordered : (m.effects.map (·.2.1)).Pairwise (· ≤ ·)) (chosen : List Nat)
    (among : chosen.Sublist (m.effects.map (·.2.1))) (keeps : g.Keeps chosen) :
    chosen.length ≤ (letThrough m.effects).length := by
  rw [g.letThrough_select (g.checks_effects run) clock]
  exact Spacing.length_le_select ordered among keeps

theorem no_rule_lets_more_through_contended : ∃ m : Machine Bool UInt64 Nat Nat Decision,
    m.effects = [(true, 0, .allow), (false, 0, .deny 1000000)] ∧
      [0].length ≤ (letThrough m.effects).length := by
  obtain ⟨m, run, effects, _⟩ := contended_run
  refine ⟨m, effects, no_rule_lets_more_through Bool
    (Gcra.new (Quota.perMilli 1 (by decide) (by decide))) m run (by rw [effects]; decide)
    (by rw [effects]; decide) [0] (by rw [effects]; decide) ?_⟩
  exact Spacing.conforms_cons.mpr ⟨by decide, Spacing.conforms_nil _ _ _⟩

end Rateguard
