import Mathlib.Order.Lattice
import Mathlib.Data.List.Basic

/- The first least element of a list, found in one pass, for a test that compares the ranks
   of two elements in a linear order. -/
namespace LeastOfList
variable {α β : Type} (before : α → α → Bool)

def least (first : α) (rest : List α) : α :=
  rest.foldl (fun best x => if before x best then x else best) first

theorem least_mem (first : α) (rest : List α) : least before first rest ∈ first :: rest := by
  induction rest generalizing first with
  | nil => simp [least]
  | cons x xs ih =>
    have found := ih (if before x first then x else first)
    simp only [least, List.foldl_cons] at found ⊢
    rcases List.mem_cons.mp found with same | later
    · rw [same]
      split <;> simp
    · exact List.mem_cons_of_mem _ (List.mem_cons_of_mem _ later)

variable [LinearOrder β] {before} {rank : α → β}

theorem least_le (ranks : ∀ x y, before x y = true ↔ rank x < rank y) (first : α)
    (rest : List α) : ∀ x ∈ first :: rest, rank (least before first rest) ≤ rank x := by
  induction rest generalizing first with
  | nil =>
    intro x mem
    rw [List.mem_singleton.mp mem]
    exact le_refl _
  | cons y ys ih =>
    intro x mem
    simp only [least, List.foldl_cons] at ih ⊢
    have lower := ih (if before y first then y else first)
    have head := lower _ List.mem_cons_self
    -- the best of the first two is below both
    have best : rank (if before y first then y else first) ≤ min (rank first) (rank y) := by
      split
      · rename_i earlier
        exact le_min ((ranks y first).mp earlier).le le_rfl
      · rename_i notEarlier
        refine le_min le_rfl (not_lt.mp fun less => notEarlier ?_)
        exact (ranks y first).mpr less
    rcases List.mem_cons.mp mem with rfl | mem
    · exact head.trans (best.trans (min_le_left _ _))
    · rcases List.mem_cons.mp mem with rfl | mem
      · exact head.trans (best.trans (min_le_right _ _))
      · exact lower x (List.mem_cons_of_mem _ mem)

end LeastOfList
