import Mathlib.Order.Basic
import Mathlib.Data.List.Basic

/- Strictly ascending lists: what a binary search finds in one, and what inserting and
   removing at the index found does to it. -/
namespace AscendingList
variable {α : Type} [LT α]

def Ascending (xs : List α) : Prop := xs.Pairwise (· < ·)

theorem erase_ascending {xs : List α} (sorted : Ascending xs) (index : Nat) :
    Ascending (xs.eraseIdx index) :=
  sorted.sublist (List.eraseIdx_sublist xs index)

variable [DecidableLT α] [DecidableEq α]

/- The index of x, or the index it would be inserted at. -/
def binarySearch : List α → α → Except Nat Nat
  | [], _ => .error 0
  | y :: ys, x =>
    if y < x then
      match binarySearch ys x with
      | .ok index => .ok (index + 1)
      | .error index => .error (index + 1)
    else if y = x then .ok 0
    else .error 0

theorem binarySearch_ok_mem {xs : List α} {x : α} {index : Nat}
    (h : binarySearch xs x = .ok index) : x ∈ xs := by
  induction xs generalizing index with
  | nil => simp [binarySearch] at h
  | cons y ys ih =>
    simp only [binarySearch] at h
    split at h
    · split at h
      · rename_i found
        exact List.mem_cons_of_mem _ (ih found)
      · simp at h
    · split at h
      · rename_i same
        simp [same]
      · simp at h

theorem binarySearch_error_of_notMem {xs : List α} {x : α} (absent : x ∉ xs) :
    ∃ index, binarySearch xs x = .error index := by
  cases h : binarySearch xs x with
  | ok index => exact absurd (binarySearch_ok_mem h) absent
  | error index => exact ⟨index, rfl⟩

/-- What is not there would be inserted within the list or at its end. -/
theorem binarySearch_error_le {xs : List α} {x : α} {index : Nat}
    (h : binarySearch xs x = .error index) : index ≤ xs.length := by
  induction xs generalizing index with
  | nil =>
    simp only [binarySearch, Except.error.injEq] at h
    exact Nat.le_of_eq h.symm
  | cons y ys ih =>
    simp only [binarySearch] at h
    split at h
    · split at h
      · simp at h
      · rename_i absent
        rw [← Except.error.inj h]
        exact Nat.succ_le_succ (ih absent)
    · split at h
      · simp at h
      · rw [← Except.error.inj h]
        exact Nat.zero_le _

theorem mem_insert {xs : List α} {x : α} {index : Nat} (h : binarySearch xs x = .error index)
    (y : α) : y ∈ xs.insertIdx index x ↔ y = x ∨ y ∈ xs := by
  induction xs generalizing index with
  | nil =>
    simp only [binarySearch, Except.error.injEq] at h
    subst h
    simp
  | cons z zs ih =>
    simp only [binarySearch] at h
    split at h
    · split at h
      · simp at h
      · rename_i absent
        simp only [Except.error.injEq] at h
        subst h
        rw [List.insertIdx_succ_cons, List.mem_cons, ih absent, List.mem_cons]
        tauto
    · split at h
      · simp at h
      · simp only [Except.error.injEq] at h
        subst h
        simp

variable [LE α] [Std.IsLinearOrder α] [Std.LawfulOrderLT α]

omit [Std.IsLinearOrder α] in
theorem binarySearch_error_notMem {xs : List α} {x : α} {index : Nat} (sorted : Ascending xs)
    (h : binarySearch xs x = .error index) : x ∉ xs := by
  induction xs generalizing index with
  | nil => simp
  | cons y ys ih =>
    obtain ⟨above, rest⟩ := List.pairwise_cons.mp sorted
    simp only [binarySearch] at h
    split at h
    · rename_i below
      split at h
      · simp at h
      · rename_i absent
        simp only [List.mem_cons, not_or]
        exact ⟨fun same => Std.lt_irrefl (same ▸ below), ih rest absent⟩
    · rename_i notBelow
      split at h
      · simp at h
      · rename_i distinct
        simp only [List.mem_cons, not_or]
        exact ⟨fun same => distinct same.symm, fun mem => notBelow (above x mem)⟩

omit [Std.IsLinearOrder α] in
theorem binarySearch_ok_of_mem {xs : List α} {x : α} (sorted : Ascending xs) (mem : x ∈ xs) :
    ∃ index, binarySearch xs x = .ok index := by
  cases h : binarySearch xs x with
  | ok index => exact ⟨index, rfl⟩
  | error index => exact absurd mem (binarySearch_error_notMem sorted h)

theorem insert_ascending {xs : List α} {x : α} {index : Nat} (sorted : Ascending xs)
    (h : binarySearch xs x = .error index) : Ascending (xs.insertIdx index x) := by
  induction xs generalizing index with
  | nil =>
    simp only [binarySearch, Except.error.injEq] at h
    subst h
    simp [Ascending]
  | cons z zs ih =>
    obtain ⟨above, rest⟩ := List.pairwise_cons.mp sorted
    simp only [binarySearch] at h
    split at h
    · rename_i below
      split at h
      · simp at h
      · rename_i absent
        simp only [Except.error.injEq] at h
        subst h
        rw [List.insertIdx_succ_cons]
        refine List.pairwise_cons.mpr ⟨?_, ih rest absent⟩
        intro y mem
        rcases (mem_insert absent y).mp mem with rfl | mem
        · exact below
        · exact above y mem
    · rename_i notBelow
      split at h
      · simp at h
      · rename_i distinct
        simp only [Except.error.injEq] at h
        subst h
        have first : x < z := by grind
        rw [List.insertIdx_zero]
        refine List.pairwise_cons.mpr ⟨?_, sorted⟩
        intro y mem
        rcases List.mem_cons.mp mem with rfl | mem
        · exact first
        · have := above y mem
          grind

omit [Std.IsLinearOrder α] in
theorem mem_erase {xs : List α} {x : α} {index : Nat} (sorted : Ascending xs)
    (h : binarySearch xs x = .ok index) (y : α) :
    y ∈ xs.eraseIdx index ↔ y ∈ xs ∧ y ≠ x := by
  induction xs generalizing index with
  | nil => simp [binarySearch] at h
  | cons z zs ih =>
    obtain ⟨above, rest⟩ := List.pairwise_cons.mp sorted
    simp only [binarySearch] at h
    split at h
    · rename_i below
      split at h
      · rename_i found
        simp only [Except.ok.injEq] at h
        subst h
        rw [List.eraseIdx_cons_succ, List.mem_cons, ih rest found, List.mem_cons]
        constructor
        · rintro (rfl | ⟨mem, distinct⟩)
          · exact ⟨Or.inl rfl, fun same => Std.lt_irrefl (same ▸ below)⟩
          · exact ⟨Or.inr mem, distinct⟩
        · rintro ⟨same | mem, distinct⟩
          · exact Or.inl same
          · exact Or.inr ⟨mem, distinct⟩
      · simp at h
    · split at h
      · rename_i same
        simp only [Except.ok.injEq] at h
        subst h same
        rw [List.eraseIdx_cons_zero, List.mem_cons]
        constructor
        · intro mem
          exact ⟨Or.inr mem, fun same => Std.lt_irrefl (same ▸ above y mem)⟩
        · rintro ⟨same | mem, distinct⟩
          · exact absurd same distinct
          · exact mem
      · simp at h

/- An ascending list is known by its members. -/
omit [DecidableLT α] [DecidableEq α] in
theorem eq_of_mem_iff {xs ys : List α} (left : Ascending xs) (right : Ascending ys)
    (same : ∀ x, x ∈ xs ↔ x ∈ ys) : xs = ys := by
  induction xs generalizing ys with
  | nil =>
    cases ys with
    | nil => rfl
    | cons y ys => exact absurd ((same y).mpr List.mem_cons_self) List.not_mem_nil
  | cons x xs ih =>
    cases ys with
    | nil => exact absurd ((same x).mp List.mem_cons_self) List.not_mem_nil
    | cons y ys =>
      obtain ⟨aboveX, leftRest⟩ := List.pairwise_cons.mp left
      obtain ⟨aboveY, rightRest⟩ := List.pairwise_cons.mp right
      have heads : x = y := by
        rcases List.mem_cons.mp ((same x).mp List.mem_cons_self) with eq | later
        · exact eq
        · rcases List.mem_cons.mp ((same y).mpr List.mem_cons_self) with eq | earlier
          · exact eq.symm
          · have := aboveY x later
            have := aboveX y earlier
            grind
      subst heads
      congr 1
      refine ih leftRest rightRest fun z => ?_
      have := same z
      simp only [List.mem_cons] at this
      constructor
      · intro mem
        rcases this.mp (Or.inr mem) with rfl | mem'
        · exact absurd (aboveX z mem) Std.lt_irrefl
        · exact mem'
      · intro mem
        rcases this.mpr (Or.inr mem) with rfl | mem'
        · exact absurd (aboveY z mem) Std.lt_irrefl
        · exact mem'

end AscendingList
