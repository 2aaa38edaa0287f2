import Mathlib

/- Unsigned 64-bit arithmetic on Nat, as the time computations use it. Plain sums and
   products that overflow panic in the source: here they give none. Saturating
   subtraction is the subtraction of Nat. -/
namespace Rateguard

def u64Max : Nat := 2 ^ 64 - 1

def satAdd (a b : Nat) : Nat := min (a + b) u64Max
def satMul (a b : Nat) : Nat := min (a * b) u64Max

def divCeil (a b : Nat) : Nat := (a + b - 1) / b

def addU64 (a b : Nat) : Option Nat := if a + b ≤ u64Max then some (a + b) else none
def mulU64 (a b : Nat) : Option Nat := if a * b ≤ u64Max then some (a * b) else none

theorem satAdd_le (a b : Nat) : satAdd a b ≤ u64Max := Nat.min_le_right _ _

theorem satAdd_of_ne {a b : Nat} (h : satAdd a b ≠ u64Max) : satAdd a b = a + b := by
  unfold satAdd at *; omega

@[simp] theorem addU64_eq_some {a b c : Nat} :
    addU64 a b = some c ↔ a + b ≤ u64Max ∧ c = a + b := by
  unfold addU64; split <;> simp_all [eq_comm]

@[simp] theorem mulU64_eq_some {a b c : Nat} :
    mulU64 a b = some c ↔ a * b ≤ u64Max ∧ c = a * b := by
  unfold mulU64; split <;> simp_all [eq_comm]

theorem divCeil_one (a : Nat) : divCeil a 1 = a := by simp [divCeil]

theorem le_divCeil_mul {b : Nat} (hb : 0 < b) (a : Nat) : a ≤ divCeil a b * b := by
  have h := Nat.div_add_mod (a + b - 1) b
  have hm := Nat.mod_lt (a + b - 1) hb
  rw [Nat.mul_comm] at h
  unfold divCeil
  omega

theorem divCeil_mul_lt {b : Nat} (hb : 0 < b) (a : Nat) : divCeil a b * b < a + b := by
  have h := Nat.div_mul_le_self (a + b - 1) b
  unfold divCeil
  omega

theorem divCeil_mul_self {b : Nat} (hb : 0 < b) (k : Nat) : divCeil (k * b) b = k := by
  unfold divCeil
  rw [Nat.add_sub_assoc hb, Nat.mul_comm, Nat.mul_add_div hb, Nat.div_eq_of_lt (by omega)]
  rfl

theorem divCeil_mono {a c : Nat} (b : Nat) (h : a ≤ c) : divCeil a b ≤ divCeil c b :=
  Nat.div_le_div_right (by omega)

end Rateguard
