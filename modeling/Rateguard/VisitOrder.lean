import Rateguard.FleetShares

/- Whether the order in which a tick visits the keys shows in what it leaves. -/
namespace Rateguard
open Std (ExtTreeMap)

namespace Reordered
variable {α β κ : Type}

theorem lookup_eq_some_iff [DecidableEq κ] {entries : List (κ × β)}
    (distinct : (entries.map Prod.fst).Nodup) {key : κ} {b : β} :
    entries.lookup key = some b ↔ (key, b) ∈ entries := by
  induction entries with
  | nil => simp
  | cons entry rest ih =>
    obtain ⟨other, value⟩ := entry
    rw [List.map_cons, List.nodup_cons] at distinct
    by_cases same : key = other
    · subst same
      have absent : (key, b) ∉ rest := fun mem => distinct.1 (List.mem_map.mpr ⟨_, mem, rfl⟩)
      simp [absent, eq_comm]
    · have apart : (key == other) = false := by simpa using same
      simp [List.lookup_cons, apart, same, ih distinct.2]

end Reordered

/- What the visit of a key makes of its own entry, if the set has room for it. -/
def visited (cooldown : Nat) (entry : Option HotEntry) (demandRate threshold : ℚ) (now : Nat)
    (hotElsewhere : Bool) : Option HotEntry :=
  match entry with
  | none =>
    if threshold < demandRate then some ⟨none, demandRate, true, now⟩
    else if hotElsewhere then some ⟨none, demandRate, false, now⟩
    else none
  | some entry =>
    if threshold < demandRate then
      some { entry with demand := demandRate, coolingSince := none, primary := true }
    else if !entry.primary then
      if hotElsewhere then some { entry with demand := demandRate } else none
    else match entry.coolingSince with
      | none => some { entry with demand := demandRate, coolingSince := some now }
      | some since =>
        if cooldown ≤ now - since then
          if hotElsewhere then
            some { entry with demand := demandRate, primary := false, coolingSince := none }
          else none
        else some { entry with demand := demandRate }

def wants (demandRate threshold : ℚ) (hotElsewhere : Bool) : Bool :=
  decide (threshold < demandRate) || hotElsewhere

theorem hot_insert (hot : ExtTreeMap UInt64 HotEntry) (key other : UInt64) (entry : HotEntry) :
    (hot.insert key entry)[other]? = if other = key then some entry else hot[other]? := by
  by_cases same : other = key
  · simp [same]
  · simp [ExtTreeMap.getElem?_insert, same, Ne.symm same]

theorem hot_erase (hot : ExtTreeMap UInt64 HotEntry) (key other : UInt64) :
    (hot.erase key)[other]? = if other = key then none else hot[other]? := by
  by_cases same : other = key
  · simp [same]
  · simp [ExtTreeMap.getElem?_erase, same, Ne.symm same]

section Pass
variable (decay : Nat → Nat → ℚ) (now : Nat) (n alpha : ℚ) (hotElsewhere : UInt64 → Bool)

def newcomer (hotSet : HotSet) (entry : UInt64 × KeyState) : Bool :=
  let state := entry.2.tick decay now
  !hotSet.isHot entry.1 && wants state.demand.rate (state.limit.rate / n * alpha)
    (elsewhere hotElsewhere entry.1 state)

/- There is no newcomer, or room for all beside the keys that are hot. -/
def Roomy (hotSet : HotSet) (keys : List (UInt64 × KeyState)) : Prop :=
  keys.countP (newcomer decay now n alpha hotElsewhere hotSet) = 0 ∨
    hotSet.len + keys.countP (newcomer decay now n alpha hotElsewhere hotSet) ≤ hotSet.maxSize

end Pass

section Settling
variable {decay : Nat → Nat → ℚ} {now : Nat} {n alpha : ℚ} {hotElsewhere : UInt64 → Bool}

theorem Roomy.perm {hotSet : HotSet} {one two : List (UInt64 × KeyState)} (perm : one.Perm two)
    (room : Roomy decay now n alpha hotElsewhere hotSet one) :
    Roomy decay now n alpha hotElsewhere hotSet two := by
  unfold Roomy at room ⊢
  rwa [← perm.countP_eq]

end Settling

/- A share that the caller computes from nothing but the key, its demand and its limit. -/
def stateless (share : UInt64 → ℚ → ℚ → ℚ) (s : Unit) (key : UInt64) (demand limit : ℚ) : ℚ × Unit :=
  (share key demand limit, s)

section Quotas
variable (share : UInt64 → ℚ → ℚ → ℚ) (config : Config) (cap : Option ℚ) (n : ℚ)
  (hotElsewhere : UInt64 → Bool) (hotSet : HotSet) (now : Nat)

def withQuota (entry : UInt64 × KeyState) : Option (UInt64 × KeyState) := do
  let (key, state) := entry
  let asked := if hotSet.isHot key then share key state.demand.rate state.limit.rate else 0
  let wanted ← quotaFor (appliedRate config cap n hotElsewhere hotSet asked key state)
    state.limit.burst
  some (key, state.apply wanted now)

theorem withQuota_key {entry entry' : UInt64 × KeyState}
    (h : withQuota share config cap n hotElsewhere hotSet now entry = some entry') :
    entry'.1 = entry.1 := by
  obtain ⟨key, state⟩ := entry
  simp only [withQuota, bind, Option.bind_eq_some_iff, Option.some.injEq] at h
  obtain ⟨_, _, rfl⟩ := h
  rfl

end Quotas

/- The order in which keys go over the cap is total: least demand first, then least ID. -/
theorem Limiter.victims_total :
    Std.Total fun a b : UInt64 × ℚ => a.2 < b.2 ∨ a.2 = b.2 ∧ a.1 ≤ b.1 := by
  constructor
  intro a b
  rcases lt_trichotomy a.2 b.2 with lt | eq | gt
  · exact .inl (.inl lt)
  · rcases UInt64.le_total a.1 b.1 with le | ge
    · exact .inl (.inr ⟨eq, le⟩)
    · exact .inr (.inr ⟨eq.symm, ge⟩)
  · exact .inr (.inl gt)

theorem Limiter.victims_trans :
    IsTrans (UInt64 × ℚ) fun a b => a.2 < b.2 ∨ a.2 = b.2 ∧ a.1 ≤ b.1 := by
  constructor
  intro a b c ab bc
  rcases ab with lt | ⟨eq, le⟩
  · rcases bc with lt' | ⟨eq', _⟩
    · exact .inl (lt.trans lt')
    · exact .inl (eq' ▸ lt)
  · rcases bc with lt' | ⟨eq', le'⟩
    · exact .inl (eq ▸ lt')
    · exact .inr ⟨eq.trans eq', UInt64.le_trans le le'⟩

theorem Limiter.enforceCap_hotSet (decay : Nat → Nat → ℚ) (l : Limiter) :
    (l.enforceCap decay).hotSet = l.hotSet ∧ (l.enforceCap decay).keys.Sublist l.keys := by
  unfold Limiter.enforceCap
  dsimp only
  split
  · exact ⟨rfl, List.Sublist.refl _⟩
  · exact ⟨rfl, List.filter_sublist⟩

section Orders
variable {decay : Nat → Nat → ℚ} {l : Limiter} {now clusterSize : Nat}
  {hotElsewhere : UInt64 → Bool} {one two : List (UInt64 × KeyState)}

end Orders

end Rateguard
