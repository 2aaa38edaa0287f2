import Rateguard.Words

/- The keys of one node that need coordination, bounded in size. -/
namespace Rateguard
open Std (ExtTreeMap)

structure HotEntry where
  coolingSince : Option Nat
  demand : ℚ
  primary : Bool
  since : Nat
  deriving DecidableEq, Repr

structure HotSet where
  cooldown : Nat
  maxSize : Nat
  hot : ExtTreeMap UInt64 HotEntry
  deriving DecidableEq

/- A newcomer to a full set must beat the weakest key by this much. -/
def evictionMargin : ℚ := 11 / 10

def HotSet.new (cooldown maxSize : Nat) : Option HotSet :=
  if 0 < maxSize then some ⟨cooldown, maxSize, ∅⟩ else none

def HotSet.isHot (hs : HotSet) (key : UInt64) : Bool := hs.hot.contains key

def HotSet.hotSince (hs : HotSet) (key : UInt64) : Option Nat := hs.hot[key]?.map (·.since)

def HotSet.isPrimary (hs : HotSet) (key : UInt64) : Bool := hs.hot[key]?.any (·.primary)

def HotSet.len (hs : HotSet) : Nat := hs.hot.size

def HotSet.insert (hs : HotSet) (key : UInt64) (demandRate : ℚ) (primary : Bool) (now : Nat) :
    HotSet :=
  { hs with hot := hs.hot.insert key ⟨none, demandRate, primary, now⟩ }

def weaker (x y : UInt64 × HotEntry) : Bool :=
  x.2.demand < y.2.demand || x.2.demand = y.2.demand && x.1 < y.1

/- The key with the least demand, the least ID among equals; none for an empty set. -/
def HotSet.weakest (hs : HotSet) : Option (UInt64 × ℚ) :=
  match hs.hot.toList with
  | [] => none
  | first :: rest =>
    let least := rest.foldl (fun best entry => if weaker entry best then entry else best) first
    some (least.1, least.2.demand)

/- Whether the key is in the set afterwards; none is a failed expect. -/
def HotSet.promote (hs : HotSet) (key : UInt64) (demandRate : ℚ) (primary : Bool) (now : Nat) :
    Option (Bool × HotSet) :=
  match hs.hot[key]? with
  | some entry =>
    some (true, { hs with
      hot := hs.hot.insert key
        { entry with demand := demandRate, coolingSince := none, primary := primary } })
  | none =>
    if hs.hot.size < hs.maxSize then some (true, hs.insert key demandRate primary now)
    else do
      let (weakestKey, weakestDemand) ← hs.weakest
      if weakestDemand * evictionMargin < demandRate then
        some (true, { hs with hot := hs.hot.erase weakestKey }.insert key demandRate primary now)
      else some (false, hs)

/- A primary key at or below the threshold counts down its cooldown and then stops being
   primary. -/
def HotSet.cool (hs : HotSet) (key : UInt64) (demandRate : ℚ) (now : Nat) : Bool × HotSet :=
  match hs.hot[key]? with
  | none => (true, hs)
  | some entry =>
    let entry := { entry with demand := demandRate }
    if !entry.primary then (true, { hs with hot := hs.hot.insert key entry })
    else
      let (expired, entry) := match entry.coolingSince with
        | none => (false, { entry with coolingSince := some now })
        | some since => (decide (hs.cooldown ≤ now - since), entry)
      let entry := if expired then { entry with primary := false, coolingSince := none } else entry
      (true, { hs with hot := hs.hot.insert key entry })

def HotSet.updateWith (hs : HotSet) (key : UInt64) (demandRate threshold : ℚ) (now : Nat)
    (hotElsewhere : Bool) : Option (Bool × HotSet) :=
  if threshold < demandRate then hs.promote key demandRate true now
  else
    let (cooled, hs) := hs.cool key demandRate now
    if !cooled then some (false, hs)
    else match hs.hot[key]? with
      | some entry =>
        if entry.primary then some (true, hs)
        else if hotElsewhere then some (true, hs)
        else some (false, { hs with hot := hs.hot.erase key })
      | none =>
        if hotElsewhere then hs.promote key demandRate false now else some (false, hs)

theorem HotSet.isHot_iff (hs : HotSet) (key : UInt64) :
    hs.isHot key = true ↔ ∃ entry, hs.hot[key]? = some entry := by
  rw [← Option.isSome_iff_exists, ExtTreeMap.isSome_getElem?_eq_contains]
  rfl

/- What one call does to the keys it is not about: nothing, or an eviction. -/
def KeepsOthers (key : UInt64) (before after : HotSet) : Prop :=
  ∀ other, other ≠ key → after.hot[other]? = before.hot[other]? ∨ after.hot[other]? = none

theorem HotSet.insert_others (hs : HotSet) (key : UInt64) (entry : HotEntry) :
    KeepsOthers key hs { hs with hot := hs.hot.insert key entry } := by
  intro other distinct
  left
  simp [ExtTreeMap.getElem?_insert, Ne.symm distinct]

theorem HotSet.promote_spec {hs after : HotSet} {key : UInt64} {demandRate : ℚ} {primary hot : Bool}
    {now : Nat} (h : hs.promote key demandRate primary now = some (hot, after)) :
    KeepsOthers key hs after ∧ ∀ entry, after.hot[key]? = some entry → entry.primary = primary := by
  unfold HotSet.promote at h
  split at h
  · simp only [Option.some.injEq, Prod.mk.injEq] at h
    obtain ⟨_, rfl⟩ := h
    exact ⟨hs.insert_others key _, fun entry found => by simp at found; simp [← found]⟩
  · rename_i absent
    split at h
    · simp only [Option.some.injEq, Prod.mk.injEq] at h
      obtain ⟨_, rfl⟩ := h
      exact ⟨hs.insert_others key _,
        fun entry found => by simp [HotSet.insert] at found; simp [← found]⟩
    · simp only [bind, Option.bind_eq_some_iff] at h
      obtain ⟨⟨weakestKey, weakestDemand⟩, _, h⟩ := h
      split at h
      · simp only [Option.some.injEq, Prod.mk.injEq] at h
        obtain ⟨_, rfl⟩ := h
        refine ⟨?_, fun entry found => by simp [HotSet.insert] at found; simp [← found]⟩
        intro other distinct
        by_cases evicted : weakestKey = other
        · right
          simp [HotSet.insert, Ne.symm distinct, evicted]
        · left
          simp [HotSet.insert, ExtTreeMap.getElem?_insert, ExtTreeMap.getElem?_erase,
            Ne.symm distinct, evicted]
      · simp only [Option.some.injEq, Prod.mk.injEq] at h
        obtain ⟨_, rfl⟩ := h
        exact ⟨fun _ _ => Or.inl rfl, fun entry found => by rw [absent] at found; simp at found⟩

theorem HotSet.cool_spec (hs : HotSet) (key : UInt64) (demandRate : ℚ) (now : Nat) :
    (hs.cool key demandRate now).1 = true ∧
      KeepsOthers key hs (hs.cool key demandRate now).2 := by
  unfold HotSet.cool
  split
  · exact ⟨rfl, fun _ _ => Or.inl rfl⟩
  · dsimp only
    split
    · exact ⟨rfl, hs.insert_others key _⟩
    · exact ⟨rfl, hs.insert_others key _⟩

theorem KeepsOthers.trans {key : UInt64} {x y z : HotSet} (first : KeepsOthers key x y)
    (second : KeepsOthers key y z) : KeepsOthers key x z := by
  intro other distinct
  rcases second other distinct with same | gone
  · rw [same]
    exact first other distinct
  · exact Or.inr gone

/-- After its own call a key is in the set by its demand, or because a peer holds it so. -/
theorem HotSet.updateWith_spec {hs after : HotSet} {key : UInt64} {demandRate threshold : ℚ}
    {now : Nat} {hotElsewhere hot : Bool}
    (h : hs.updateWith key demandRate threshold now hotElsewhere = some (hot, after)) :
    KeepsOthers key hs after ∧
      ∀ entry, after.hot[key]? = some entry → entry.primary = true ∨ hotElsewhere = true := by
  unfold HotSet.updateWith at h
  split at h
  · obtain ⟨others, own⟩ := HotSet.promote_spec h
    exact ⟨others, fun entry found => Or.inl (own entry found)⟩
  · obtain ⟨cooled, others⟩ := hs.cool_spec key demandRate now
    generalize hs.cool key demandRate now = result at h cooled others
    obtain ⟨done, cool⟩ := result
    simp only at cooled others
    subst done
    simp only [Bool.not_true, Bool.false_eq_true, ↓reduceIte] at h
    split at h
    · rename_i entry found
      split at h
      · rename_i primary
        simp only [Option.some.injEq, Prod.mk.injEq] at h
        obtain ⟨_, rfl⟩ := h
        refine ⟨others, fun other same => Or.inl ?_⟩
        rw [found, Option.some.injEq] at same
        exact same ▸ primary
      · split at h
        · rename_i heard
          simp only [Option.some.injEq, Prod.mk.injEq] at h
          obtain ⟨_, rfl⟩ := h
          exact ⟨others, fun _ _ => Or.inr heard⟩
        · simp only [Option.some.injEq, Prod.mk.injEq] at h
          obtain ⟨_, rfl⟩ := h
          refine ⟨others.trans ?_, fun other same => by simp at same⟩
          intro other distinct
          left
          simp [ExtTreeMap.getElem?_erase, Ne.symm distinct]
    · rename_i absent
      split at h
      · rename_i heard
        exact ⟨others.trans (HotSet.promote_spec h).1, fun _ _ => Or.inr heard⟩
      · simp only [Option.some.injEq, Prod.mk.injEq] at h
        obtain ⟨_, rfl⟩ := h
        exact ⟨others, fun other same => by rw [absent] at same; simp at same⟩

end Rateguard
