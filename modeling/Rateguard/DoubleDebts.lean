import Rateguard.Gcra
import Rateguard.SignificantBits

/- The debt carried over at a change of quota as the source computes it, in doubles. -/
namespace Rateguard
open SignificantBits (Fits)

/- The nearest double. No number here comes near the ends of a double's exponents. -/
def double (x : ℚ) : ℚ := SignificantBits.keep 53 x

/- The requests that a TAT counts as, every operation rounded as keep does. The debt of a saturated
   TAT is unknown: it counts as the largest of what it measures, the old burst and the new burst. -/
def debtSlots (keep : ℚ → ℚ) (tat : Nat) (old new : Quota) (now : Nat) : ℚ :=
  let computed := keep (keep (tat - now : Nat) / keep old.tNanos)
  if tat = u64Max then max (max computed old.burst) new.burst else computed

def carryTatIn (keep : ℚ → ℚ) (tat : Nat) (old new : Quota) (now : Nat) : Nat :=
  satAdd now (roundToU64 (keep (debtSlots keep tat old new now * keep new.tNanos)))

def Gcra.setQuotaIn (keep : ℚ → ℚ) (g : Gcra) (quota : Quota) (now : Nat) : Gcra :=
  if quota = g.quota then g
  else match g.tat with
    | some oldTat => ⟨quota, some (carryTatIn keep oldTat g.quota quota now)⟩
    | none => ⟨quota, none⟩

/- Where nothing is rounded on the way, this is the change of quota in exact arithmetic. -/
theorem Gcra.setQuotaIn_id : Gcra.setQuotaIn id = Gcra.setQuota := rfl

theorem Gcra.setQuotaIn_quota (keep : ℚ → ℚ) (g : Gcra) (quota : Quota) (now : Nat) :
    (g.setQuotaIn keep quota now).quota = quota := by
  unfold setQuotaIn
  split
  · rename_i same
    exact same.symm
  · split <;> rfl

theorem double_mono {x y : ℚ} (le : x ≤ y) : double x ≤ double y :=
  SignificantBits.keep_mono (by decide) le

theorem double_nonneg (x : ℚ) : 0 ≤ double x := SignificantBits.keep_nonneg 53 x

theorem double_natCast {n : Nat} (fits : Fits 53 n) : double n = n :=
  SignificantBits.keep_natCast fits

theorem double_half {n : Nat} (fits : Fits 53 n) : double (n / 2) = n / 2 :=
  SignificantBits.keep_half fits

/- What a rounding loses at most, and what it adds. -/
theorem double_ge {x : ℚ} (nonneg : 0 ≤ x) : x * (1 - 1 / 2 ^ 53) ≤ double x := by
  have near := (abs_le.mp (SignificantBits.keep_near 53 nonneg)).1
  unfold double
  linarith

theorem double_le {x : ℚ} (nonneg : 0 ≤ x) : double x ≤ x * (1 + 1 / 2 ^ 53) := by
  have near := (abs_le.mp (SignificantBits.keep_near 53 nonneg)).2
  unfold double
  linarith

/- One more rounding after k of them. -/
theorem le_double {a x k : ℚ} (nonneg : 0 ≤ a) (some : 0 ≤ k) (few : k ≤ 2 ^ 53)
    (le : a * (1 - k / 2 ^ 53) ≤ x) : a * (1 - (k + 1) / 2 ^ 53) ≤ double x := by
  have part : 0 ≤ 1 - k / 2 ^ 53 := sub_nonneg.mpr (by rw [div_le_one (by norm_num)]; exact few)
  refine le_trans ?_ (double_ge ((mul_nonneg nonneg part).trans le))
  have less := mul_le_mul_of_nonneg_right le (show (0 : ℚ) ≤ 1 - 1 / 2 ^ 53 by norm_num)
  have product := mul_nonneg nonneg some
  linarith

/- Rounding to the nearest keeps every bound in halves. -/
theorem half_le_round {x : ℚ} {m : Nat} (h : (m : ℚ) ≤ 2 * x) : m ≤ 2 * (round x).toNat := by
  have up : (((m + 1) / 2 : Nat) : ℤ) ≤ round x := by
    have half : 2 * ((m + 1) / 2) ≤ m + 1 := Nat.mul_div_le (m + 1) 2
    have cast : 2 * (((m + 1) / 2 : Nat) : ℚ) ≤ m + 1 := by exact_mod_cast half
    rw [round_eq, Int.le_floor, Int.cast_natCast]
    linarith
  omega

theorem round_le_nat {x : ℚ} {m : Nat} (h : x < m + 1 / 2) : (round x).toNat ≤ m := by
  have down : round x < (m : ℤ) + 1 := by
    rw [round_eq, Int.floor_lt]
    push_cast
    linarith
  omega

theorem carryTatIn_ge {keep : ℚ → ℚ} {tat now m : Nat} {old new : Quota}
    (h : (m : ℚ) ≤ 2 * keep (debtSlots keep tat old new now * keep new.tNanos)) :
    carryTatIn keep tat old new now = u64Max ∨ m ≤ 2 * (carryTatIn keep tat old new now - now) := by
  have rounded := half_le_round h
  simp only [carryTatIn, roundToU64, satAdd]
  omega

theorem carryTatIn_full {keep : ℚ → ℚ} {tat now : Nat} {old new : Quota}
    (h : ((u64Max - now : Nat) : ℚ) ≤ keep (debtSlots keep tat old new now * keep new.tNanos)) :
    carryTatIn keep tat old new now = u64Max := by
  have rounded := half_le_round (m := 2 * (u64Max - now)) (by push_cast at h ⊢; linarith)
  simp only [carryTatIn, roundToU64, satAdd]
  omega

theorem carryTatIn_le {keep : ℚ → ℚ} {tat now m : Nat} {old new : Quota}
    (h : keep (debtSlots keep tat old new now * keep new.tNanos) < m + 1 / 2) :
    carryTatIn keep tat old new now ≤ now + m := by
  have rounded := round_le_nat h
  simp only [carryTatIn, roundToU64, satAdd]
  omega

end Rateguard
