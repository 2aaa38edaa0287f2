import Mathlib.Algebra.Order.Field.Basic
import Mathlib.Algebra.Order.BigOperators.Group.List
import Mathlib.Data.Finset.Max
import Mathlib.Tactic.Ring

/- An average that forgets: over each gap it keeps a part of what it was, the less the longer the
   gap, and takes the rest from what the gap saw. -/
namespace Averages
variable {T K : Type*}

/-- The part kept over two gaps is the product of the parts, as of an exponential. -/
structure Decays [AddMonoid T] [LT T] [Field K] [LT K] (decay : T → K) : Prop where
  add : ∀ a b, decay (a + b) = decay a * decay b
  pos : ∀ a, 0 < a → 0 < decay a
  lt_one : ∀ a, 0 < a → decay a < 1

def fold [Ring K] (decay : T → K) (average : K) (gaps : List (K × T)) : K :=
  gaps.foldl (fun average gap => (1 - decay gap.2) * gap.1 + decay gap.2 * average) average

def span [AddMonoid T] (gaps : List (K × T)) : T := (gaps.map (·.2)).sum

@[simp] theorem fold_nil [Ring K] (decay : T → K) (average : K) : fold decay average [] = average :=
  rfl

@[simp] theorem fold_snoc [Ring K] (decay : T → K) (average : K) (gaps : List (K × T))
    (gap : K × T) : fold decay average (gaps ++ [gap]) =
      (1 - decay gap.2) * gap.1 + decay gap.2 * fold decay average gaps := by
  simp [fold]

@[simp] theorem span_snoc [AddMonoid T] (gaps : List (K × T)) (gap : K × T) :
    span (gaps ++ [gap]) = span gaps + gap.2 := by
  simp [span]

variable [Field K] [LinearOrder K] {decay : T → K}

/- Splitting the time into gaps does not matter to an average of what is constant. -/
theorem fold_constant [AddMonoid T] [LT T] (decays : Decays decay) {rate : K}
    {gaps : List (K × T)} (constant : ∀ gap ∈ gaps, gap.1 = rate) (some : gaps ≠ []) (average : K) :
    fold decay average gaps = rate - (rate - average) * decay (span gaps) := by
  induction gaps using List.reverseRecOn with
  | nil => exact absurd rfl some
  | append_singleton gaps gap ih =>
    have same := constant gap (by simp)
    rw [fold_snoc, span_snoc, decays.add, same]
    by_cases first : gaps = []
    · -- Over no time at all nothing need be kept: the gap alone is the span.
      have alone : decay (span gaps) * decay gap.2 = decay gap.2 := by
        rw [← decays.add, first]
        simp [span]
      rw [alone, first, fold_nil]
      ring
    · rw [ih (fun gap mem => constant gap (List.mem_append_left _ mem)) first]
      ring

section
variable [AddMonoid T] [LT T] [IsStrictOrderedRing K]

theorem le_fold (decays : Decays decay) {low average : K} {gaps : List (K × T)}
    (long : ∀ gap ∈ gaps, 0 < gap.2) (seen : ∀ gap ∈ gaps, low ≤ gap.1) (had : low ≤ average) :
    low ≤ fold decay average gaps := by
  induction gaps using List.reverseRecOn with
  | nil => exact had
  | append_singleton gaps gap ih =>
    have before := ih (fun gap mem => long gap (List.mem_append_left _ mem))
      (fun gap mem => seen gap (List.mem_append_left _ mem))
    have kept := decays.pos gap.2 (long gap (by simp))
    have taken : 0 ≤ 1 - decay gap.2 := sub_nonneg.mpr (decays.lt_one gap.2 (long gap (by simp))).le
    rw [fold_snoc]
    calc low = (1 - decay gap.2) * low + decay gap.2 * low := by ring
      _ ≤ (1 - decay gap.2) * gap.1 + decay gap.2 * fold decay average gaps :=
        add_le_add (mul_le_mul_of_nonneg_left (seen gap (by simp)) taken)
          (mul_le_mul_of_nonneg_left before kept.le)

theorem fold_le (decays : Decays decay) {high average : K} {gaps : List (K × T)}
    (long : ∀ gap ∈ gaps, 0 < gap.2) (seen : ∀ gap ∈ gaps, gap.1 ≤ high) (had : average ≤ high) :
    fold decay average gaps ≤ high := by
  induction gaps using List.reverseRecOn with
  | nil => exact had
  | append_singleton gaps gap ih =>
    have before := ih (fun gap mem => long gap (List.mem_append_left _ mem))
      (fun gap mem => seen gap (List.mem_append_left _ mem))
    have kept := decays.pos gap.2 (long gap (by simp))
    have taken : 0 ≤ 1 - decay gap.2 := sub_nonneg.mpr (decays.lt_one gap.2 (long gap (by simp))).le
    rw [fold_snoc]
    calc (1 - decay gap.2) * gap.1 + decay gap.2 * fold decay average gaps
        ≤ (1 - decay gap.2) * high + decay gap.2 * high :=
        add_le_add (mul_le_mul_of_nonneg_left (seen gap (by simp)) taken)
          (mul_le_mul_of_nonneg_left before kept.le)
      _ = high := by ring

/- An average begun at nothing stays under the highest of the gaps. -/
theorem fold_le_highest (decays : Decays decay) {gaps : List (K × T)}
    (long : ∀ gap ∈ gaps, 0 < gap.2) (seen : ∀ gap ∈ gaps, 0 ≤ gap.1) (some : gaps ≠ []) :
    ∃ gap ∈ gaps, fold decay 0 gaps ≤ gap.1 := by
  obtain ⟨highest, mem, most⟩ := Multiset.exists_max_image (·.1)
    (show (gaps : Multiset (K × T)) ≠ 0 by simpa using some)
  exact ⟨highest, mem, fold_le decays long most (seen highest mem)⟩

end

end Averages
