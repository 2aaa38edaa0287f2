import Mathlib.Order.Bounds.Defs

/- Requests let through a gap apart, with some slack: what it is for those let through to keep
   the gap, whatever stretch of them is counted, and that taking each one that may be taken is
   both exact and best. -/
namespace Spacing

section
variable (gap slack : Nat)

/- Whichever of them a count starts with, as many as are let through after it come no more than
   the slack ahead of the gap; nor do they after a debt, a time everything waits for. -/
structure Conforms (debt : Nat) (times : List Nat) : Prop where
  owed : ∀ early time late, times = early ++ time :: late →
    debt + early.length * gap ≤ time + slack
  spaced : ∀ early first between time late, times = early ++ first :: (between ++ time :: late) →
    first + (between.length + 1) * gap ≤ time + slack

/- When the next would come, were there no slack. -/
def due (debt : Nat) : List Nat → Nat
  | [] => debt
  | time :: rest => due (max debt time + gap) rest

def select (debt : Nat) : List Nat → List Nat
  | [] => []
  | time :: rest =>
    if debt ≤ time + slack then time :: select (max debt time + gap) rest else select debt rest

end

variable {gap slack debt : Nat} {times : List Nat}

theorem conforms_nil (gap slack debt : Nat) : Conforms gap slack debt [] := by
  constructor
  · intro early time late split
    simp at split
  · intro early first between time late split
    simp at split

theorem conforms_cons {time : Nat} : Conforms gap slack debt (time :: times) ↔
    debt ≤ time + slack ∧ Conforms gap slack (max debt time + gap) times := by
  constructor
  · intro conforms
    have first := conforms.owed [] time times rfl
    refine ⟨by simpa using first, ⟨?_, ?_⟩⟩
    · intro early later late split
      have owes := conforms.owed (time :: early) later late (by rw [split, List.cons_append])
      have apart := conforms.spaced [] time early later late (by rw [split, List.nil_append])
      rw [List.length_cons, Nat.succ_mul] at owes
      rw [Nat.succ_mul] at apart
      omega
    · intro early first between later late split
      exact conforms.spaced (time :: early) first between later late
        (by rw [split, List.cons_append])
  · rintro ⟨first, rest⟩
    constructor
    · intro early later late split
      cases early with
      | nil =>
        obtain ⟨rfl, rfl⟩ := List.cons.inj split
        simpa using first
      | cons head early =>
        obtain ⟨rfl, same⟩ := List.cons.inj split
        have owes := rest.owed early later late same
        rw [List.length_cons, Nat.succ_mul]
        omega
    · intro early first between later late split
      cases early with
      | nil =>
        obtain ⟨rfl, same⟩ := List.cons.inj split
        have owes := rest.owed between later late same
        rw [Nat.succ_mul]
        omega
      | cons head early =>
        obtain ⟨rfl, same⟩ := List.cons.inj split
        exact rest.spaced early first between later late same

/- One more may come once what the others leave due is within the slack of it. -/
theorem conforms_concat {time : Nat} : Conforms gap slack debt (times ++ [time]) ↔
    Conforms gap slack debt times ∧ due gap debt times ≤ time + slack := by
  induction times generalizing debt with
  | nil =>
    rw [List.nil_append, conforms_cons]
    exact ⟨fun ⟨may, _⟩ => ⟨conforms_nil gap slack debt, may⟩,
      fun ⟨_, may⟩ => ⟨may, conforms_nil gap slack _⟩⟩
  | cons first rest ih => rw [List.cons_append, conforms_cons, ih, conforms_cons, due, and_assoc]

theorem Conforms.next_least (conforms : Conforms gap slack debt times) :
    IsLeast {time | Conforms gap slack debt (times ++ [time])} (due gap debt times - slack) := by
  constructor
  · exact conforms_concat.mpr ⟨conforms, by omega⟩
  · intro time may
    have within := (conforms_concat.mp may).2
    omega

theorem select_conforms (gap slack debt : Nat) (times : List Nat) :
    Conforms gap slack debt (select gap slack debt times) := by
  induction times generalizing debt with
  | nil => exact conforms_nil gap slack debt
  | cons time rest ih =>
    rw [select]
    split
    · rename_i may
      exact conforms_cons.mpr ⟨may, ih _⟩
    · exact ih debt

/- The selection stays ahead: whoever has taken fewer is that many gaps less in debt, at most.
   By induction on the requests, whatever both owe. -/
theorem length_le_select_add {kept last ahead : Nat} {chosen : List Nat}
    (ordered : times.Pairwise (· ≤ ·)) (start : ∀ time ∈ times, last ≤ time)
    (lead : max kept last ≤ max debt last + ahead * gap)
    (sub : chosen.Sublist times) (conforms : Conforms gap slack debt chosen) :
    chosen.length ≤ (select gap slack kept times).length + ahead := by
  induction times generalizing kept debt last ahead chosen with
  | nil =>
    rw [List.sublist_nil.mp sub]
    exact Nat.zero_le _
  | cons time rest ih =>
    have passed := start time List.mem_cons_self
    rw [List.pairwise_cons] at ordered
    have taken : max (max kept time + gap) time ≤ max debt time + (ahead + 1) * gap := by
      rw [Nat.succ_mul]
      omega
    rw [select]
    cases sub with
    | cons _ sub =>
      split
      · have rest := ih ordered.2 ordered.1 taken sub conforms
        rw [List.length_cons]
        omega
      · have waited : max kept time ≤ max debt time + ahead * gap := by omega
        exact ih ordered.2 ordered.1 waited sub conforms
    | cons_cons _ sub =>
      obtain ⟨may, conforms⟩ := conforms_cons.mp conforms
      rw [List.length_cons]
      split
      · have both : max (max kept time + gap) time ≤
            max (max debt time + gap) time + ahead * gap := by omega
        have rest := ih ordered.2 ordered.1 both sub conforms
        rw [List.length_cons]
        omega
      · rename_i late
        -- Only one that took more before is refused where the other is not.
        cases ahead with
        | zero => omega
        | succ ahead =>
          have caught : max kept time ≤ max (max debt time + gap) time + ahead * gap := by
            rw [Nat.succ_mul] at lead
            omega
          have rest := ih ordered.2 ordered.1 caught sub conforms
          omega

/-- No other way to choose among the same requests takes more of them. -/
theorem length_le_select {chosen : List Nat} (ordered : times.Pairwise (· ≤ ·))
    (sub : chosen.Sublist times) (conforms : Conforms gap slack debt chosen) :
    chosen.length ≤ (select gap slack debt times).length :=
  @length_le_select_add gap slack debt times debt 0 0 chosen ordered
    (fun time _ => Nat.zero_le time) (Nat.le_add_right _ _) sub conforms

end Spacing
