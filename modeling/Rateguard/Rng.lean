import Rateguard.Words

/- The deterministic generator behind the protocol's random choices. -/
namespace Rateguard

/- SplitMix64. -/
structure Rng where
  state : UInt64
  deriving DecidableEq, Repr

def Rng.new (seed : UInt64) : Rng := ⟨seed⟩

def Rng.nextU64 (rng : Rng) : UInt64 × Rng :=
  let state := rng.state + 0x9e3779b97f4a7c15
  let z := (state ^^^ (state >>> 30)) * 0xbf58476d1ce4e5b9
  let z := (z ^^^ (z >>> 27)) * 0x94d049bb133111eb
  (z ^^^ (z >>> 31), ⟨state⟩)

/- Uniform in 0 to max, max included. -/
def Rng.upTo (rng : Rng) (max : Nat) : Nat × Rng :=
  let (draw, rng) := rng.nextU64
  if max + 1 < 2 ^ 64 then (draw.toNat * (max + 1) / 2 ^ 64, rng) else (draw.toNat, rng)

theorem Rng.upTo_le (rng : Rng) (max : Nat) : (rng.upTo max).1 ≤ max := by
  have draw := rng.nextU64.1.toNat_lt
  simp only [upTo]
  split
  · have upper : rng.nextU64.1.toNat * (max + 1) < 2 ^ 64 * (max + 1) :=
      Nat.mul_lt_mul_of_pos_right draw (Nat.succ_pos max)
    have := Nat.div_lt_of_lt_mul upper
    omega
  · omega

section
variable {α : Type}

/- none is an index out of range. -/
def swap (items : List α) (i j : Nat) : Option (List α) := do
  let x ← items[i]?
  let y ← items[j]?
  some ((items.set i y).set j x)

/- Fisher and Yates, from index i down to 1. -/
def Rng.shuffleFrom : Nat → List α → Rng → Option (List α × Rng)
  | 0, items, rng => some (items, rng)
  | i + 1, items, rng => do
    let (j, rng) := rng.upTo (i + 1)
    let items ← swap items (i + 1) j
    shuffleFrom i items rng

def Rng.shuffle (rng : Rng) (items : List α) : Option (List α × Rng) :=
  shuffleFrom (items.length - 1) items rng

theorem swap_perm {items swapped : List α} {i j : Nat} (h : swap items i j = some swapped) :
    swapped.Perm items := by
  simp only [swap, bind, Option.bind_eq_some_iff, Option.some.injEq] at h
  obtain ⟨x, atI, y, atJ, rfl⟩ := h
  obtain ⟨hi, rfl⟩ := List.getElem?_eq_some_iff.mp atI
  obtain ⟨hj, rfl⟩ := List.getElem?_eq_some_iff.mp atJ
  exact List.set_set_perm hi hj

theorem swap_some {items : List α} {i j : Nat} (hi : i < items.length) (hj : j < items.length) :
    ∃ swapped, swap items i j = some swapped := by
  refine ⟨(items.set i items[j]).set j items[i], ?_⟩
  simp only [swap, List.getElem?_eq_getElem hi, List.getElem?_eq_getElem hj, bind, Option.bind]

theorem Rng.shuffleFrom_spec (items : List α) (rng : Rng) (i : Nat) (within : i < items.length) :
    ∃ shuffled rng', shuffleFrom i items rng = some (shuffled, rng') ∧ shuffled.Perm items := by
  induction i generalizing items rng with
  | zero => exact ⟨items, rng, rfl, List.Perm.refl _⟩
  | succ i ih =>
    have bound := rng.upTo_le (i + 1)
    obtain ⟨swapped, swaps⟩ := swap_some within (show (rng.upTo (i + 1)).1 < items.length by omega)
    have perm := swap_perm swaps
    obtain ⟨shuffled, rng', rest, permRest⟩ := ih swapped (rng.upTo (i + 1)).2
      (by rw [perm.length_eq]; omega)
    refine ⟨shuffled, rng', ?_, permRest.trans perm⟩
    simp only [shuffleFrom, swaps, bind, Option.bind, rest]

theorem Rng.shuffle_spec (rng : Rng) (items : List α) :
    ∃ shuffled rng', rng.shuffle items = some (shuffled, rng') ∧ shuffled.Perm items := by
  cases items with
  | nil => exact ⟨[], rng, rfl, List.Perm.refl _⟩
  | cons first rest =>
    exact Rng.shuffleFrom_spec (first :: rest) rng _ (by simp)

theorem Rng.shuffleFrom_perm {i : Nat} {items shuffled : List α} {rng rng' : Rng}
    (h : shuffleFrom i items rng = some (shuffled, rng')) : shuffled.Perm items := by
  induction i generalizing items rng with
  | zero =>
    simp only [shuffleFrom, Option.some.injEq, Prod.mk.injEq] at h
    exact h.1 ▸ List.Perm.refl _
  | succ i ih =>
    simp only [shuffleFrom, bind, Option.bind_eq_some_iff] at h
    obtain ⟨swapped, swaps, rest⟩ := h
    exact (ih rest).trans (swap_perm swaps)

end
end Rateguard
