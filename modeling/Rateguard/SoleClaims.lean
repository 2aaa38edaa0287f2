import Mathlib.Logic.Relation
import Rateguard.KeyClaims

/- A claim and a release that no other thread disturbs: what their atomic steps come to. -/
namespace Rateguard.KeyTable

def taken (slots : Slots) (bucket : List Nat) : Nat :=
  bucket.countP fun slot => decide ((slots slot).key ≠ emptyKey)

def Layout.offered (l : Layout) (slots : Slots) (key : UInt64) : List Nat :=
  let (first, second) := l.bucketsOf key
  if taken slots (Layout.bucket second) < taken slots (Layout.bucket first) then
    Layout.bucket second ++ Layout.bucket first
  else Layout.bucket first ++ Layout.bucket second

/- The slot of a key, none for the overflow slot, and whether it was just taken for the key. -/
def claim (l : Layout) (slots : Slots) (key : UInt64) : Slots × Option Nat × Bool :=
  match (l.candidates key).find? fun slot => decide ((slots slot).key = key) with
  | some slot => (slots, some slot, false)
  | none =>
    match (l.offered slots key).find? fun slot => decide ((slots slot).key = emptyKey) with
    | some slot => (Function.update slots slot { slots slot with key }, some slot, true)
    | none => (slots, none, false)

def Slot.released (s : Slot) (key : UInt64) (quota : Quota) : Slot :=
  if s.key = key then .new quota else s

def release (slots : Slots) (slot : Nat) (key : UInt64) (quota : Quota) : Slots :=
  Function.update slots slot ((slots slot).released key quota)

def Alone (l : Layout) (a b : Slots × Phase) : Prop := a.2.step l a.1 = some b

section
variable {l : Layout} {slots : Slots} {key : UInt64}
open Relation (ReflTransGen)

theorem finds_alone (rest : List Nat) : ReflTransGen (Alone l) (slots, .find key rest)
    (slots, (rest.find? fun slot => decide ((slots slot).key = key)).elim
      (.countSecond key (Layout.bucket (l.bucketsOf key).2) 0)
      fun slot => .claimed key (some slot) false) := by
  induction rest with
  | nil => exact .single rfl
  | cons slot rest ih =>
    by_cases held : (slots slot).key = key
    · rw [List.find?_cons_of_pos (by simpa using held)]
      exact .single (by simp [Alone, Phase.step, held])
    · rw [List.find?_cons_of_neg (by simpa using held)]
      have stepped : Alone l (slots, .find key (slot :: rest)) (slots, .find key rest) := by
        simp [Alone, Phase.step, held]
      exact .head stepped ih

theorem taken_cons (slot : Nat) (rest : List Nat) (counted : Nat) :
    (if (slots slot).key = emptyKey then counted else counted + 1) + taken slots rest =
      counted + taken slots (slot :: rest) := by
  unfold taken
  rw [List.countP_cons]
  split
  · rename_i free
    simp [free]
  · rename_i held
    simp only [ne_eq, held, not_false_eq_true, decide_true, if_true]
    omega

theorem counts_alone :
    ReflTransGen (Alone l) (slots, .countSecond key (Layout.bucket (l.bucketsOf key).2) 0)
      (slots, .pick key (l.offered slots key)) := by
  have countsSecond (rest : List Nat) (second : Nat) :
      ReflTransGen (Alone l) (slots, .countSecond key rest second)
        (slots, .countFirst key (Layout.bucket (l.bucketsOf key).1) (second + taken slots rest) 0) := by
    induction rest generalizing second with
    | nil => exact .single rfl
    | cons slot rest ih =>
      have stepped : Alone l (slots, .countSecond key (slot :: rest) second)
          (slots, .countSecond key rest
            (if (slots slot).key = emptyKey then second else second + 1)) := rfl
      rw [← taken_cons]
      exact .head stepped (ih _)
  have countsFirst (rest : List Nat) (second first : Nat) :
      ReflTransGen (Alone l) (slots, .countFirst key rest second first)
        (slots, .countFirst key [] second (first + taken slots rest)) := by
    induction rest generalizing first with
    | nil => exact .refl
    | cons slot rest ih =>
      have stepped : Alone l (slots, .countFirst key (slot :: rest) second first)
          (slots, .countFirst key rest second
            (if (slots slot).key = emptyKey then first else first + 1)) := rfl
      rw [← taken_cons]
      exact .head stepped (ih _)
  refine (countsSecond _ 0).trans ((countsFirst _ _ 0).tail ?_)
  simp only [Alone, Phase.step, Layout.offered, Nat.zero_add]

theorem picks_alone (rest : List Nat) : ReflTransGen (Alone l) (slots, .pick key rest)
    ((rest.find? fun slot => decide ((slots slot).key = emptyKey)).elim
      (slots, .claimed key none false)
      fun slot => (Function.update slots slot { slots slot with key },
        .scan key slot (l.candidates key) slot false)) := by
  induction rest with
  | nil => exact .single rfl
  | cons slot rest ih =>
    by_cases free : (slots slot).key = emptyKey
    · rw [List.find?_cons_of_pos (by simpa using free)]
      have asked : Alone l (slots, .pick key (slot :: rest)) (slots, .swap key slot rest) := by
        simp [Alone, Phase.step, free]
      refine .head asked (.single ?_)
      simp [Alone, Phase.step, free]
    · rw [List.find?_cons_of_neg (by simpa using free)]
      have stepped : Alone l (slots, .pick key (slot :: rest)) (slots, .pick key rest) := by
        simp [Alone, Phase.step, free]
      exact .head stepped ih

/- Nobody else having taken a slot for the key, the scan keeps this one. -/
theorem scans_alone {mine : Nat} (rest : List Nat) (seen : Bool)
    (sole : ∀ other ∈ rest, (slots other).key = key → other = mine) :
    ReflTransGen (Alone l) (slots, .scan key mine rest mine seen)
      (slots, .claimed key (some mine) true) := by
  induction rest generalizing seen with
  | nil => exact .single (by simp [Alone, Phase.step])
  | cons other rest ih =>
    have later (seen : Bool) := ih seen fun other mem => sole other (List.mem_cons_of_mem _ mem)
    by_cases own : other = mine
    · have stepped : Alone l (slots, .scan key mine (other :: rest) mine seen)
          (slots, .scan key mine rest mine true) := by
        simp [Alone, Phase.step, own]
      exact .head stepped (later true)
    · have apart : (slots other).key ≠ key := fun same => own (sole other List.mem_cons_self same)
      have stepped : Alone l (slots, .scan key mine (other :: rest) mine seen)
          (slots, .scan key mine rest mine seen) := by
        simp [Alone, Phase.step, own, apart]
      exact .head stepped (later seen)

end

/-- A claim that runs alone, step by step, comes to what the claim in one step does, whatever the
    table holds. -/
theorem claim_alone (l : Layout) (slots : Slots) (key : UInt64) :
    Relation.ReflTransGen (Alone l) (slots, .find key (l.candidates key))
      ((claim l slots key).1, .claimed key (claim l slots key).2.1 (claim l slots key).2.2) := by
  have finds := @finds_alone l slots key (l.candidates key)
  unfold claim
  cases found : (l.candidates key).find? fun slot => decide ((slots slot).key = key) with
  | some slot =>
    rw [found] at finds
    exact finds
  | none =>
    rw [found] at finds
    refine (finds.trans counts_alone).trans ?_
    have picks := @picks_alone l slots key (l.offered slots key)
    cases free : (l.offered slots key).find? fun slot => decide ((slots slot).key = emptyKey) with
    | none =>
      rw [free] at picks
      exact picks
    | some mine =>
      rw [free] at picks
      refine picks.trans (scans_alone _ _ fun other mem held => ?_)
      by_contra apart
      rw [update_key, if_neg apart] at held
      exact absurd held (by simpa using List.find?_eq_none.mp found other mem)

theorem resets_alone (l : Layout) (slots : Slots) (key : UInt64) (slot : Nat)
    (left : List (Slot → Slot)) :
    Relation.ReflTransGen (Alone l) (slots, .reset key slot left .background)
      (Function.update slots slot
        { left.foldl (fun stored store => store stored) (slots slot) with key := emptyKey },
        .released) := by
  induction left generalizing slots with
  | nil => exact .single rfl
  | cons store left ih =>
    have stored := ih (Function.update slots slot (store (slots slot)))
    rw [Function.update_idem, Function.update_self] at stored
    exact .head rfl stored

/-- A release that runs alone frees the slot at once, if it holds the key. -/
theorem release_alone (l : Layout) (slots : Slots) (slot : Nat) (key : UInt64) (quota : Quota) :
    Relation.ReflTransGen (Alone l) (slots, .release key slot quota .background)
      (release slots slot key quota, .released) := by
  unfold release Slot.released
  split
  · rename_i held
    have blocked : Alone l (slots, .release key slot quota .background)
        (Function.update slots slot { slots slot with key := busyKey },
          .reset key slot (resets quota) .background) := by
      simp [Alone, Phase.step, held]
    have freed := resets_alone l (Function.update slots slot { slots slot with key := busyKey }) key
      slot (resets quota)
    rw [Function.update_idem, Function.update_self] at freed
    exact .head blocked freed
  · rename_i other
    rw [Function.update_eq_self]
    exact .single (by simp [Alone, Phase.step, other, After.resume])

end Rateguard.KeyTable
