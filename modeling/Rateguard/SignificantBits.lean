import Mathlib.Data.Int.Log
import Mathlib.Data.Nat.Factorization.Basic
import Mathlib.Data.Rat.Floor
import Mathlib.Algebra.Order.Floor.Ring
import Mathlib.Tactic.Linarith
import Mathlib.Tactic.Ring
import Mathlib.Tactic.FieldSimp
import Mathlib.Tactic.Positivity
import Mathlib.Tactic.NormNum

/- Numbers of so many significant bits, and rounding to the nearest of them, as floating point does
   where no exponent is too small or too large for its format. -/
namespace SignificantBits

/- The nearest whole number, the even one of two as near. -/
def nearestEven (x : ℚ) : ℤ :=
  if 2 * Int.fract x < 1 then ⌊x⌋
  else if 1 < 2 * Int.fract x then ⌊x⌋ + 1
  else if ⌊x⌋ % 2 = 0 then ⌊x⌋ else ⌊x⌋ + 1

theorem nearestEven_cases (x : ℚ) :
    (nearestEven x = ⌊x⌋ ∧ 2 * Int.fract x ≤ 1) ∨ (nearestEven x = ⌊x⌋ + 1 ∧ 1 ≤ 2 * Int.fract x) := by
  unfold nearestEven
  split
  · rename_i low
    exact .inl ⟨rfl, low.le⟩
  · rename_i high
    split
    · rename_i above
      exact .inr ⟨rfl, above.le⟩
    · rename_i below
      split
      · exact .inl ⟨rfl, not_lt.mp below⟩
      · exact .inr ⟨rfl, not_lt.mp high⟩

theorem nearestEven_near (x : ℚ) : 2 * |(nearestEven x : ℚ) - x| ≤ 1 := by
  have whole := Int.floor_add_fract x
  have pos := Int.fract_nonneg x
  have less := Int.fract_lt_one x
  rcases nearestEven_cases x with ⟨down, near⟩ | ⟨up, near⟩
  · rw [down, abs_sub_comm, abs_of_nonneg (by linarith)]
    linarith
  · rw [up, Int.cast_add, Int.cast_one, abs_of_nonneg (by linarith)]
    linarith

theorem le_nearestEven {n : ℤ} {x : ℚ} (le : (n : ℚ) ≤ x) : n ≤ nearestEven x := by
  have floor := Int.le_floor.mpr le
  rcases nearestEven_cases x with ⟨same, _⟩ | ⟨same, _⟩
  · omega
  · omega

theorem nearestEven_le {n : ℤ} {x : ℚ} (le : x ≤ n) : nearestEven x ≤ n := by
  have near := (abs_le.mp (show |(nearestEven x : ℚ) - x| ≤ 1 / 2 by
    linarith [nearestEven_near x])).2
  have below : (nearestEven x : ℚ) < (n + 1 : ℤ) := by
    push_cast
    linarith
  have := Int.cast_lt.mp below
  omega

theorem nearestEven_intCast (n : ℤ) : nearestEven n = n :=
  Int.le_antisymm (nearestEven_le le_rfl) (le_nearestEven le_rfl)

theorem nearestEven_mono {x y : ℚ} (le : x ≤ y) : nearestEven x ≤ nearestEven y := by
  rcases (Int.floor_mono le).lt_or_eq with apart | same
  · have above : nearestEven x ≤ ⌊x⌋ + 1 := nearestEven_le (by
      push_cast
      exact (Int.lt_floor_add_one x).le)
    have below := @le_nearestEven ⌊y⌋ y (Int.floor_le y)
    omega
  · have fracts : Int.fract x ≤ Int.fract y := by
      unfold Int.fract
      rw [same]
      linarith
    unfold nearestEven
    rw [same]
    split_ifs <;> first | omega | linarith

section
variable (bits : Nat)

/- What the last of the bits of a number stands for. -/
def place (x : ℚ) : ℚ := 2 ^ (Int.log 2 x + 1 - bits : ℤ)

def keep (x : ℚ) : ℚ := if 0 < x then nearestEven (x / place bits x) * place bits x else 0

/- A whole number that the bits hold. -/
def Fits (n : Nat) : Prop := ∃ m e : Nat, m < 2 ^ bits ∧ n = m * 2 ^ e

end

variable {bits : Nat} {x y : ℚ}

theorem place_pos (bits : Nat) (x : ℚ) : 0 < place bits x := zpow_pos (by norm_num) _

theorem pow_log_le (pos : 0 < x) : (2 : ℚ) ^ Int.log 2 x ≤ x := by
  exact_mod_cast Int.zpow_log_le_self (b := 2) (by norm_num) pos

theorem lt_pow_log (x : ℚ) : x < (2 : ℚ) ^ (Int.log 2 x + 1) := by
  exact_mod_cast Int.lt_zpow_succ_log_self (b := 2) (by norm_num) x

/- A number between two powers of two is as many places as there are numbers of its bits. -/
theorem places (bits : Nat) (x : ℚ) (k : ℤ) :
    (2 : ℚ) ^ (Int.log 2 x + 1 - bits + k) = 2 ^ k * place bits x := by
  rw [place, ← zpow_add₀ (by norm_num)]
  congr 1
  ring

theorem keep_nonneg (bits : Nat) (x : ℚ) : 0 ≤ keep bits x := by
  unfold keep
  split
  · rename_i pos
    have whole : (0 : ℤ) ≤ nearestEven (x / place bits x) :=
      le_nearestEven (by simpa using div_nonneg pos.le (place_pos bits x).le)
    exact mul_nonneg (by exact_mod_cast whole) (place_pos bits x).le
  · exact le_rfl

/- What the bits hold is kept. -/
theorem keep_eq {m : Nat} {e : ℤ} (few : m < 2 ^ bits) (is : x = m * 2 ^ e) : keep bits x = x := by
  unfold keep
  split
  · rename_i pos
    have two : (0 : ℚ) < 2 ^ e := zpow_pos (by norm_num) e
    have size : (2 : ℚ) ^ Int.log 2 x < 2 ^ (bits + e : ℤ) := by
      refine (pow_log_le pos).trans_lt ?_
      rw [is, zpow_add₀ (by norm_num), zpow_natCast]
      exact mul_lt_mul_of_pos_right (by exact_mod_cast few) two
    have fine : Int.log 2 x + 1 - bits ≤ e := by
      have := (zpow_lt_zpow_iff_right₀ (by norm_num : (1 : ℚ) < 2)).mp size
      omega
    obtain ⟨k, sum⟩ := Int.le.dest fine
    have power := places bits x k
    rw [sum, zpow_natCast] at power
    have whole : x / place bits x = ((m * 2 ^ k : ℤ) : ℚ) := by
      rw [div_eq_iff (place_pos bits x).ne']
      conv_lhs => rw [is, power]
      push_cast
      ring
    rw [whole, nearestEven_intCast, ← whole, div_mul_cancel₀ _ (place_pos bits x).ne']
  · rename_i none
    refine le_antisymm ?_ (not_lt.mp none)
    rw [is]
    exact mul_nonneg (Nat.cast_nonneg m) (zpow_nonneg (by norm_num) e)

theorem keep_natCast {n : Nat} (fits : Fits bits n) : keep bits n = n := by
  obtain ⟨m, e, few, rfl⟩ := fits
  exact keep_eq few (by push_cast; rw [zpow_natCast])

theorem keep_half {n : Nat} (fits : Fits bits n) : keep bits (n / 2) = n / 2 := by
  obtain ⟨m, e, few, rfl⟩ := fits
  refine @keep_eq _ _ m (e - 1) few ?_
  rw [zpow_sub_one₀ (by norm_num), zpow_natCast]
  push_cast
  ring

theorem fits_of_lt {n : Nat} (few : n < 2 ^ bits) : Fits bits n := ⟨n, 0, few, by simp⟩

/- Fewer bits hold a factor than a product. -/
theorem Fits.of_mul {j n : Nat} (pos : 0 < j) (fits : Fits bits (j * n)) : Fits bits n := by
  obtain ⟨m, e, few, is⟩ := fits
  rcases Nat.eq_zero_or_pos n with none | some
  · exact ⟨0, 0, Nat.two_pow_pos bits, by simp [none]⟩
  · obtain ⟨k, odd, oddly, rfl⟩ := Nat.exists_eq_two_pow_mul_odd some.ne'
    refine ⟨odd, k, lt_of_le_of_lt (Nat.le_of_dvd ?_ ?_) few, Nat.mul_comm _ _⟩
    · refine Nat.pos_of_ne_zero fun zero => ?_
      rw [zero, Nat.zero_mul] at is
      exact absurd is (Nat.mul_pos pos some).ne'
    · have part : odd ∣ m * 2 ^ e := is ▸ Dvd.intro_left (j * 2 ^ k) (by ring)
      exact (Nat.Coprime.pow_right e (Nat.coprime_two_right.mpr oddly)).dvd_of_dvd_mul_right part

/- The powers of two around a number are around what is kept of it. -/
theorem pow_le_keep (some : 0 < bits) (pos : 0 < x) : (2 : ℚ) ^ Int.log 2 x ≤ keep bits x := by
  obtain ⟨b, rfl⟩ : ∃ b, bits = b + 1 := ⟨bits - 1, by omega⟩
  have power : (2 : ℚ) ^ Int.log 2 x = ((2 ^ b : ℤ) : ℚ) * place (b + 1) x := by
    have same := places (b + 1) x b
    rw [zpow_natCast] at same
    push_cast at same ⊢
    rw [← same]
    congr 1
    ring
  rw [keep, if_pos pos, power]
  refine mul_le_mul_of_nonneg_right ?_ (place_pos _ x).le
  refine Int.cast_le.mpr (le_nearestEven ?_)
  rw [le_div_iff₀ (place_pos _ x), ← power]
  exact pow_log_le pos

theorem keep_le_pow (pos : 0 < x) : keep bits x ≤ (2 : ℚ) ^ (Int.log 2 x + 1) := by
  have power : (2 : ℚ) ^ (Int.log 2 x + 1) = ((2 ^ bits : ℤ) : ℚ) * place bits x := by
    have same := places bits x bits
    rw [zpow_natCast] at same
    push_cast
    rw [← same]
    congr 1
    ring
  rw [keep, if_pos pos, power]
  refine mul_le_mul_of_nonneg_right ?_ (place_pos _ x).le
  refine Int.cast_le.mpr (nearestEven_le ?_)
  rw [div_le_iff₀ (place_pos _ x), ← power]
  exact (lt_pow_log x).le

theorem keep_mono (some : 0 < bits) (le : x ≤ y) : keep bits x ≤ keep bits y := by
  by_cases pos : 0 < x
  · rcases (Int.log_mono_right (b := 2) pos le).lt_or_eq with apart | same
    · have powers : (2 : ℚ) ^ (Int.log 2 x + 1) ≤ 2 ^ Int.log 2 y :=
        zpow_le_zpow_right₀ (by norm_num) (by omega)
      exact ((keep_le_pow pos).trans powers).trans (pow_le_keep some (pos.trans_le le))
    · rw [keep, if_pos pos, keep, if_pos (pos.trans_le le), place, place, ← same]
      refine mul_le_mul_of_nonneg_right ?_ (place_pos bits x).le
      exact Int.cast_le.mpr (nearestEven_mono (div_le_div_of_nonneg_right le (place_pos bits x).le))
  · rw [keep, if_neg pos]
    exact keep_nonneg bits y

/-- What is lost or gained is half the last place at most. -/
theorem keep_near (bits : Nat) (nonneg : 0 ≤ x) : |keep bits x - x| ≤ x / 2 ^ bits := by
  rcases nonneg.eq_or_lt with rfl | pos
  · simp [keep]
  · have step := place_pos bits x
    have half := nearestEven_near (x / place bits x)
    have small : place bits x * 2 ^ bits ≤ 2 * x := by
      have power : place bits x * 2 ^ bits = 2 ^ Int.log 2 x * 2 := by
        rw [place, ← zpow_natCast, ← zpow_add₀ (by norm_num), ← zpow_add_one₀ (by norm_num)]
        congr 1
        ring
      rw [power]
      linarith [pow_log_le pos]
    have scaled : keep bits x - x =
        (nearestEven (x / place bits x) - x / place bits x) * place bits x := by
      rw [keep, if_pos pos, sub_mul, div_mul_cancel₀ _ step.ne']
    rw [scaled, abs_mul, abs_of_pos step, le_div_iff₀ (by positivity)]
    nlinarith [abs_nonneg (nearestEven (x / place bits x) - x / place bits x : ℚ)]

end SignificantBits
