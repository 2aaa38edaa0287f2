import Mathlib

/- Dividing a whole among agents, each by its own claim against what the others are known
   to claim. -/
namespace Proportion
variable {ι K : Type} [DecidableEq ι] [Field K] [LinearOrder K] [IsStrictOrderedRing K]

def part (s : Finset ι) (own known : ι → K) (i : ι) : K :=
  own i / (own i + ∑ j ∈ s.erase i, known j)

theorem others_nonneg {s : Finset ι} {own known : ι → K}
    (claims : ∀ i ∈ s, 0 ≤ own i ∧ own i ≤ known i) (i : ι) :
    0 ≤ ∑ j ∈ s.erase i, known j :=
  Finset.sum_nonneg fun j mem =>
    have claim := claims j (Finset.mem_of_mem_erase mem)
    le_trans claim.1 claim.2

/- Claiming less than is known of one never takes more than the known claims give. -/
theorem part_le_known {s : Finset ι} {own known : ι → K}
    (claims : ∀ i ∈ s, 0 ≤ own i ∧ own i ≤ known i) {i : ι} (mem : i ∈ s) :
    part s own known i ≤ known i / ∑ j ∈ s, known j := by
  have rest := others_nonneg claims i
  have claim := claims i mem
  have whole := Finset.add_sum_erase s known mem
  have wholeNonneg : 0 ≤ ∑ j ∈ s, known j := by rw [← whole]; linarith
  unfold part
  rcases (add_nonneg claim.1 rest).eq_or_lt with zero | pos
  · rw [← zero, div_zero]
    exact div_nonneg (le_trans claim.1 claim.2) wholeNonneg
  · rw [← whole, div_le_div_iff₀ pos (by linarith)]
    nlinarith [mul_le_mul_of_nonneg_right claim.2 rest]

theorem parts_le_one {s : Finset ι} {own known : ι → K}
    (claims : ∀ i ∈ s, 0 ≤ own i ∧ own i ≤ known i) :
    ∑ i ∈ s, part s own known i ≤ 1 :=
  calc ∑ i ∈ s, part s own known i
      ≤ ∑ i ∈ s, known i / ∑ j ∈ s, known j := Finset.sum_le_sum fun _ mem => part_le_known claims mem
    _ = (∑ i ∈ s, known i) / ∑ j ∈ s, known j := (Finset.sum_div ..).symm
    _ ≤ 1 := div_self_le_one _

/- With every claim known as it is the parts make the whole. -/
omit [IsStrictOrderedRing K] in
theorem parts_eq_one {s : Finset ι} {known : ι → K} (pos : 0 < ∑ j ∈ s, known j) :
    ∑ i ∈ s, part s known known i = 1 := by
  have same : ∀ i ∈ s, part s known known i = known i / ∑ j ∈ s, known j := by
    intro i mem
    rw [part, Finset.add_sum_erase s known mem]
  rw [Finset.sum_congr rfl same, ← Finset.sum_div, div_self pos.ne']

theorem part_nonneg {s : Finset ι} {own known : ι → K}
    (claims : ∀ i ∈ s, 0 ≤ own i ∧ own i ≤ known i) {i : ι} (mem : i ∈ s) :
    0 ≤ part s own known i :=
  div_nonneg (claims i mem).1 (add_nonneg (claims i mem).1 (others_nonneg claims i))

/- One agent that knows of no claim at all, its own included, is the only one known of: all
   the others' parts are nothing. -/
theorem others_nothing {s : Finset ι} {own known : ι → K}
    (claims : ∀ i ∈ s, 0 ≤ own i ∧ own i ≤ known i) {i j : ι} (jMem : j ∈ s)
    (other : j ≠ i) (unknown : own i + ∑ k ∈ s.erase i, known k ≤ 0) (iMem : i ∈ s) :
    own j = 0 := by
  have rest := others_nonneg claims i
  have restZero : ∑ k ∈ s.erase i, known k = 0 := by linarith [(claims i iMem).1]
  have each := (Finset.sum_eq_zero_iff_of_nonneg fun k mem =>
    have claim := claims k (Finset.mem_of_mem_erase mem)
    le_trans claim.1 claim.2).mp restZero j (Finset.mem_erase.mpr ⟨other, jMem⟩)
  have claim := claims j jMem
  linarith

end Proportion
