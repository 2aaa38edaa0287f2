import Mathlib.Order.Basic
import Mathlib.Data.Finset.Card

/- A walk over ordered keys that stops and goes on from where it stopped, while the keys change
   under it. It stands at the last key it passed, if any, until it is over: none. -/
namespace Cursor
variable {α : Type} [LE α]

def Passed : Option (Option α) → α → Prop
  | none, _ => True
  | some none, _ => False
  | some (some last), x => x ≤ last

@[simp] theorem passed_over (x : α) : Passed none x := trivial

@[simp] theorem not_passed_start (x : α) : ¬ Passed (some none) x := id

@[simp] theorem passed_last {last x : α} : Passed (some (some last)) x ↔ x ≤ last := Iff.rfl

/- A stretch of a walk: it never turns back, and has met every key there that it passed. -/
structure Walked (there : α → Prop) (first last : Option (Option α)) (met : α → Prop) : Prop where
  onward : ∀ x, Passed first x → Passed last x
  met : ∀ x, there x → Passed last x → ¬ Passed first x → met x
  ended : first = none → last = none

theorem Walked.refl (there : α → Prop) (place : Option (Option α)) (met : α → Prop) :
    Walked there place place met :=
  ⟨fun _ => id, fun _ _ passed unpassed => absurd passed unpassed, id⟩

theorem Walked.mono {there met met' : α → Prop} {first last : Option (Option α)}
    (walked : Walked there first last met) (more : ∀ x, met x → met' x) :
    Walked there first last met' :=
  ⟨walked.onward, fun x known passed unpassed => more x (walked.met x known passed unpassed),
    walked.ended⟩

theorem Walked.trans {there met : α → Prop} {first middle last : Option (Option α)}
    (one : Walked there first middle met) (two : Walked there middle last met) :
    Walked there first last met := by
  refine ⟨fun x passed => two.onward x (one.onward x passed), fun x known passed unpassed => ?_,
    fun ended => two.ended (one.ended ended)⟩
  by_cases half : Passed middle x
  · exact one.met x known half unpassed
  · exact two.met x known passed half

/- A step of the walk that passes a key. -/
def Advanced (keys : Finset α) (first last : Option (Option α)) : Prop :=
  ∃ x ∈ keys, Passed last x ∧ ¬ Passed first x

theorem Advanced.later {there met : α → Prop} {keys : Finset α}
    {first middle last : Option (Option α)} (advanced : Advanced keys first middle)
    (walked : Walked there middle last met) : Advanced keys first last := by
  obtain ⟨x, mem, passed, unpassed⟩ := advanced
  exact ⟨x, mem, walked.onward x passed, unpassed⟩

theorem Advanced.earlier {there met : α → Prop} {keys : Finset α}
    {first middle last : Option (Option α)} (walked : Walked there first middle met)
    (advanced : Advanced keys middle last) : Advanced keys first last := by
  obtain ⟨x, mem, passed, unpassed⟩ := advanced
  exact ⟨x, mem, passed, fun already => unpassed (walked.onward x already)⟩

/- How many keys of a set it has passed. -/
open Classical in
noncomputable def count (keys : Finset α) (place : Option (Option α)) : Nat :=
  (keys.filter (Passed place)).card

theorem count_le (keys : Finset α) (place : Option (Option α)) : count keys place ≤ keys.card := by
  classical
  exact Finset.card_filter_le keys _

theorem count_mono {keys : Finset α} {first last : Option (Option α)}
    (onward : ∀ x, Passed first x → Passed last x) : count keys first ≤ count keys last := by
  classical
  exact Finset.card_le_card (Finset.monotone_filter_right keys fun x _ => onward x)

theorem count_lt {keys : Finset α} {first last : Option (Option α)}
    (onward : ∀ x, Passed first x → Passed last x) (advanced : Advanced keys first last) :
    count keys first < count keys last := by
  classical
  obtain ⟨x, mem, passed, unpassed⟩ := advanced
  refine Finset.card_lt_card (Finset.ssubset_iff_subset_ne.mpr ⟨?_, fun same => ?_⟩)
  · exact Finset.monotone_filter_right keys fun x _ => onward x
  · have there : x ∈ keys.filter (Passed last) := Finset.mem_filter.mpr ⟨mem, passed⟩
    rw [← same] at there
    exact unpassed (Finset.mem_filter.mp there).2

/-- A walk over finitely many keys that advances again and again comes to its end. -/
theorem ends {keys : Finset α} {places : Nat → Option (Option α)}
    (onward : ∀ k, places (k + 1) ≠ none → ∀ x, Passed (places k) x → Passed (places (k + 1)) x)
    (again : ∀ k, ∃ j, k ≤ j ∧
      (places (j + 1) ≠ none → Advanced keys (places j) (places (j + 1)))) :
    ∃ k, places k = none := by
  by_contra endless
  have runs : ∀ k, places k ≠ none := fun k over' => endless ⟨k, over'⟩
  have rises {k j : Nat} (after : k ≤ j) : count keys (places k) ≤ count keys (places j) := by
    induction j, after using Nat.le_induction with
    | base => exact Nat.le_refl _
    | succ j _ ih => exact ih.trans (count_mono (onward j (runs (j + 1))))
  have grows (n : Nat) : ∃ k, n ≤ count keys (places k) := by
    induction n with
    | zero => exact ⟨0, Nat.zero_le _⟩
    | succ n ih =>
      obtain ⟨k, reached⟩ := ih
      obtain ⟨j, after, advances⟩ := again k
      have more := count_lt (onward j (runs (j + 1))) (advances (runs (j + 1)))
      exact ⟨j + 1, by have := rises after; omega⟩
  obtain ⟨k, reached⟩ := grows (keys.card + 1)
  have := count_le keys (places k)
  omega

end Cursor
