import Mathlib.Algebra.BigOperators.Intervals
import Mathlib.Algebra.BigOperators.Ring.Finset
import Mathlib.Algebra.Order.BigOperators.Group.Finset
import Mathlib.Algebra.Order.Field.Rat
import Mathlib.Tactic.Linarith
import Mathlib.Tactic.Positivity

/- What is let through on credit. Every admission is owed for, waiting pays the debt off at the
   rate in force, no faster, and nobody is admitted into more debt than the limit in force. -/
namespace OnCredit

/- A step of the account: its time, whether it admitted somebody, and how it leaves the account,
   with the rate in force from then on and the debt it forgave. -/
structure Entry where
  time : Nat
  admitted : Bool
  debt : ℚ
  rate : ℚ
  limit : ℚ
  forgiven : ℚ
  deriving DecidableEq, Repr

/- A step fits an account left with a debt at an earlier time, to be paid off at a rate. Waiting
   longer than that takes saves nothing up. -/
structure Entry.Follows (entry : Entry) (last : Nat) (debt rate : ℚ) : Prop where
  later : last ≤ entry.time
  owes : 0 ≤ entry.debt
  pays : max 0 (debt - rate * (entry.time - last : Nat)) + (if entry.admitted then 1 else 0) ≤
    entry.debt + entry.forgiven
  within : entry.admitted = true → entry.debt ≤ entry.limit
  rate_nonneg : 0 ≤ entry.rate
  limit_nonneg : 0 ≤ entry.limit
  forgiven_nonneg : 0 ≤ entry.forgiven

inductive Account : Nat → ℚ → ℚ → List Entry → Prop
  | closed (last : Nat) (debt rate : ℚ) : Account last debt rate []
  | entry {last : Nat} {debt rate : ℚ} {entry : Entry} {rest : List Entry} :
      entry.Follows last debt rate → Account entry.time entry.debt entry.rate rest →
      Account last debt rate (entry :: rest)

section Window
variable (a b : Nat)

def admittedIn (entries : List Entry) : Nat :=
  entries.countP fun entry => decide (a ≤ entry.time ∧ entry.time ≤ b ∧ entry.admitted = true)

def rateAt (time : Nat) (rate : ℚ) : List Entry → ℚ
  | [] => rate
  | entry :: rest => if entry.time ≤ time then rateAt time entry.rate rest else rate

def paidOff (rate : ℚ) (entries : List Entry) : ℚ := ∑ time ∈ Finset.Ico a b, rateAt time rate entries

def highestLimit : List Entry → ℚ
  | [] => 0
  | entry :: rest =>
    if a ≤ entry.time ∧ entry.time ≤ b ∧ entry.admitted = true then max entry.limit (highestLimit rest)
    else highestLimit rest

def forgivenIn : List Entry → ℚ
  | [] => 0
  | entry :: rest =>
    (if a ≤ entry.time ∧ entry.time ≤ b then entry.forgiven else 0) + forgivenIn rest

end Window

variable {a b last : Nat} {debt rate : ℚ} {entries : List Entry}

theorem Account.late (account : Account last debt rate entries) {entry : Entry}
    (mem : entry ∈ entries) : last ≤ entry.time := by
  induction account with
  | closed => simp at mem
  | entry follows _ ih =>
    rcases List.mem_cons.mp mem with rfl | mem
    · exact follows.later
    · exact follows.later.trans (ih mem)

theorem Account.rateAt_nonneg (account : Account last debt rate entries) (nonneg : 0 ≤ rate)
    (time : Nat) : 0 ≤ rateAt time rate entries := by
  induction account with
  | closed => exact nonneg
  | entry follows _ ih =>
    rw [rateAt]
    split
    · exact ih follows.rate_nonneg
    · exact nonneg

theorem rateAt_le {time : Nat} {most : ℚ} (first : rate ≤ most)
    (each : ∀ entry ∈ entries, entry.rate ≤ most) : rateAt time rate entries ≤ most := by
  induction entries generalizing rate with
  | nil => exact first
  | cons entry rest ih =>
    rw [rateAt]
    split
    · exact ih (each entry List.mem_cons_self) fun entry mem => each entry (List.mem_cons_of_mem _ mem)
    · exact first

theorem highestLimit_le {most : ℚ} (nonneg : 0 ≤ most) (each : ∀ entry ∈ entries, entry.limit ≤ most) :
    highestLimit a b entries ≤ most := by
  induction entries with
  | nil => exact nonneg
  | cons entry rest ih =>
    have later := ih fun entry mem => each entry (List.mem_cons_of_mem _ mem)
    rw [highestLimit]
    split
    · exact max_le (each entry List.mem_cons_self) later
    · exact later

theorem Account.highestLimit_nonneg (account : Account last debt rate entries) :
    0 ≤ highestLimit a b entries := by
  induction account with
  | closed => exact le_refl 0
  | entry follows _ ih =>
    rw [highestLimit]
    split
    · exact le_max_of_le_right ih
    · exact ih

theorem Account.forgivenIn_nonneg (account : Account last debt rate entries) :
    0 ≤ forgivenIn a b entries := by
  induction account with
  | closed => exact le_refl 0
  | entry follows _ ih =>
    rw [forgivenIn]
    refine add_nonneg ?_ ih
    split
    · exact follows.forgiven_nonneg
    · exact le_refl 0

/- A stretch of the window before a step, and the rest after it. -/
theorem paidOff_cons {entry : Entry} {rest : List Entry} (late : last ≤ entry.time)
    (inside : entry.time ≤ b) :
    paidOff (max a last) b rate (entry :: rest) =
      rate * (entry.time - max a last : Nat) + paidOff (max a entry.time) b entry.rate rest := by
  by_cases opened : a ≤ entry.time
  · have split : max a last ≤ entry.time := max_le opened late
    rw [max_eq_right opened, paidOff, paidOff,
      ← Finset.sum_Ico_consecutive _ split inside]
    congr 1
    · rw [Finset.sum_congr rfl (g := fun _ => rate) fun time mem => ?_, Finset.sum_const,
        Nat.card_Ico, nsmul_eq_mul, mul_comm]
      rw [rateAt, if_neg (Nat.not_le.mpr (Finset.mem_Ico.mp mem).2)]
    · refine Finset.sum_congr rfl fun time mem => ?_
      rw [rateAt, if_pos (Finset.mem_Ico.mp mem).1]
  · have early : entry.time < a := Nat.lt_of_not_le opened
    rw [max_eq_left early.le, max_eq_left (late.trans early.le), Nat.sub_eq_zero_of_le early.le,
      Nat.cast_zero, mul_zero, zero_add]
    refine Finset.sum_congr rfl fun time mem => ?_
    rw [rateAt, if_pos (early.le.trans (Finset.mem_Ico.mp mem).1)]

theorem Account.none_after (account : Account last debt rate entries) (after : b < last) :
    admittedIn a b entries = 0 := by
  rw [admittedIn, List.countP_eq_zero]
  intro entry mem
  have := account.late mem
  simp only [decide_eq_true_eq]
  omega

/- What is owed of the window: nothing before it opens. -/
def owed (a time : Nat) (debt : ℚ) : ℚ := if a ≤ time then debt else 0

theorem Entry.Follows.owed_le {entry : Entry} (follows : entry.Follows last debt rate)
    (nonneg : 0 ≤ rate) :
    owed a last debt + (if entry.admitted then 1 else 0) ≤
      entry.debt + rate * (entry.time - max a last : Nat) + entry.forgiven := by
  have pays := follows.pays
  unfold owed
  split
  · rename_i before
    rw [max_eq_right before]
    linarith [le_max_right 0 (debt - rate * (entry.time - last : Nat))]
  · rename_i before
    rw [max_eq_left (Nat.le_of_not_le before)]
    have stretch : 0 ≤ rate * (entry.time - a : Nat) := by positivity
    linarith [le_max_left 0 (debt - rate * (entry.time - last : Nat))]

/- Whoever is admitted in the window is owed for at its end, unless it was paid off or forgiven
   there; and so is what was owed when the window opened. By induction on the account. -/
theorem Account.admitted_owed (account : Account last debt rate entries) (nonneg : 0 ≤ rate) :
    admittedIn a b entries = 0 ∨
      admittedIn a b entries + owed a last debt ≤
        paidOff (max a last) b rate entries + highestLimit a b entries +
          forgivenIn a b entries := by
  induction account with
  | closed => exact .inl rfl
  | @entry last debt rate entry rest follows account ih =>
    by_cases inside : entry.time ≤ b
    · have ih := ih follows.rate_nonneg
      rw [paidOff_cons follows.later inside, forgivenIn]
      by_cases opened : a ≤ entry.time
      · have wait := follows.owed_le (a := a) nonneg
        have limits : highestLimit a b rest ≤ highestLimit a b (entry :: rest) := by
          rw [highestLimit]
          split
          · exact le_max_right _ _
          · exact le_refl _
        rw [if_pos ⟨opened, inside⟩]
        rw [owed, if_pos opened] at ih
        cases admitted : entry.admitted with
        | true =>
          have counts : admittedIn a b (entry :: rest) = admittedIn a b rest + 1 := by
            simp [admittedIn, opened, inside, admitted]
          have within : entry.debt ≤ highestLimit a b (entry :: rest) := by
            rw [highestLimit, if_pos ⟨opened, inside, admitted⟩]
            exact (follows.within admitted).trans (le_max_left _ _)
          have later : 0 ≤ paidOff (max a entry.time) b entry.rate rest :=
            Finset.sum_nonneg fun time _ => account.rateAt_nonneg follows.rate_nonneg time
          have spared := account.forgivenIn_nonneg (a := a) (b := b)
          rw [admitted, if_pos rfl] at wait
          rw [counts]
          push_cast
          right
          rcases ih with none | ih
          · rw [none, Nat.cast_zero]
            linarith
          · linarith
        | false =>
          have counts : admittedIn a b (entry :: rest) = admittedIn a b rest := by
            simp [admittedIn, admitted]
          rw [admitted, if_neg Bool.false_ne_true] at wait
          rw [counts]
          refine ih.imp_right fun ih => ?_
          linarith
      · have before : ¬ a ≤ last := fun early => opened (early.trans follows.later)
        have counts : admittedIn a b (entry :: rest) = admittedIn a b rest := by
          simp [admittedIn, opened]
        have limits : highestLimit a b (entry :: rest) = highestLimit a b rest := by
          rw [highestLimit, if_neg fun window => opened window.1]
        have shut : entry.time - max a last = 0 := by omega
        rw [counts, limits, shut, if_neg fun window => opened window.1, owed, if_neg before]
        rw [owed, if_neg opened] at ih
        refine ih.imp_right fun ih => ?_
        rw [Nat.cast_zero, mul_zero]
        linarith
    · left
      have none := account.none_after (a := a) (Nat.lt_of_not_le inside)
      simp only [admittedIn, List.countP_cons] at none ⊢
      rw [none, if_neg (by simp [inside])]

/-- An account that starts out of debt admits in a window what the window pays off, the highest
    limit and what was forgiven there, and no more. -/
theorem Account.admitted_le (account : Account last 0 rate entries) (nonneg : 0 ≤ rate) :
    (admittedIn a b entries : ℚ) ≤
      paidOff a b rate entries + highestLimit a b entries + forgivenIn a b entries := by
  have limits := account.highestLimit_nonneg (a := a) (b := b)
  have spared := account.forgivenIn_nonneg (a := a) (b := b)
  have rates (time : Nat) := account.rateAt_nonneg nonneg time
  rcases account.admitted_owed nonneg with none | bound
  · rw [none, Nat.cast_zero]
    have paid : 0 ≤ paidOff a b rate entries := Finset.sum_nonneg fun time _ => rates time
    linarith
  · have free : owed a last 0 = 0 := by simp [owed]
    have more : paidOff (max a last) b rate entries ≤ paidOff a b rate entries :=
      Finset.sum_le_sum_of_subset_of_nonneg
        (Finset.Ico_subset_Ico_left (le_max_left a last)) fun time _ _ => rates time
    linarith

theorem forgivenIn_zero (each : ∀ entry ∈ entries, entry.forgiven = 0) : forgivenIn a b entries = 0 := by
  induction entries with
  | nil => rfl
  | cons entry rest ih =>
    rw [forgivenIn, ih fun entry mem => each entry (List.mem_cons_of_mem _ mem),
      each entry List.mem_cons_self, ite_self, add_zero]

/-- An account whose rate and limit are held down, and that is forgiven nothing, admits in a window
    what the rate is worth there and the limit once, whatever it owes when the window opens. -/
theorem Account.admitted_le_held (account : Account last debt rate entries) (owes : 0 ≤ debt)
    (nonneg : 0 ≤ rate) {most top : ℚ} (slow : rate ≤ most) (low : 0 ≤ top)
    (held : ∀ entry ∈ entries, entry.rate ≤ most ∧ entry.limit ≤ top ∧ entry.forgiven = 0)
    (le : a ≤ b) : (admittedIn a b entries : ℚ) ≤ most * (b - a) + top := by
  have limits := highestLimit_le (a := a) (b := b) low fun entry mem => (held entry mem).2.1
  have spared := forgivenIn_zero (a := a) (b := b) fun entry mem => (held entry mem).2.2
  have rates (time : Nat) := account.rateAt_nonneg nonneg time
  have paid : paidOff (max a last) b rate entries ≤ most * (b - a) := by
    calc paidOff (max a last) b rate entries
        ≤ paidOff a b rate entries := Finset.sum_le_sum_of_subset_of_nonneg
          (Finset.Ico_subset_Ico_left (le_max_left a last)) fun time _ _ => rates time
      _ ≤ ∑ _time ∈ Finset.Ico a b, most := Finset.sum_le_sum fun time _ =>
          rateAt_le slow fun entry mem => (held entry mem).1
      _ = most * (b - a) := by
          rw [Finset.sum_const, Nat.card_Ico, nsmul_eq_mul, Nat.cast_sub le, mul_comm]
  have owing : 0 ≤ owed a last debt := by
    rw [owed]
    split
    · exact owes
    · exact le_refl 0
  rcases account.admitted_owed nonneg with none | bound
  · have worth : 0 ≤ most * (b - a : ℚ) := by
      have longer : (a : ℚ) ≤ b := Nat.cast_le.mpr le
      exact mul_nonneg (nonneg.trans slow) (sub_nonneg.mpr longer)
    rw [none, Nat.cast_zero]
    exact add_nonneg worth low
  · linarith

/-- Over many accounts at once: where the rates in force never come to more than a total, they
    admit what that total pays off over the window, and the limits and what was forgiven of each. -/
theorem admitted_le_total {ι : Type*} [Fintype ι] {last : ι → Nat} {rate : ι → ℚ}
    {entries : ι → List Entry} (accounts : ∀ i, Account (last i) 0 (rate i) (entries i))
    (nonneg : ∀ i, 0 ≤ rate i) {total : ℚ} (le : a ≤ b)
    (fits : ∀ time, a ≤ time → time < b → ∑ i, rateAt time (rate i) (entries i) ≤ total) :
    ((∑ i, admittedIn a b (entries i) : Nat) : ℚ) ≤ total * (b - a) +
      ∑ i, (highestLimit a b (entries i) + forgivenIn a b (entries i)) := by
  have paid : ∑ i, paidOff a b (rate i) (entries i) ≤ total * (b - a) := by
    calc ∑ i, paidOff a b (rate i) (entries i)
        = ∑ time ∈ Finset.Ico a b, ∑ i, rateAt time (rate i) (entries i) := Finset.sum_comm
      _ ≤ ∑ _time ∈ Finset.Ico a b, total := Finset.sum_le_sum fun time mem =>
          fits time (Finset.mem_Ico.mp mem).1 (Finset.mem_Ico.mp mem).2
      _ = total * (b - a) := by
          rw [Finset.sum_const, Nat.card_Ico, nsmul_eq_mul, Nat.cast_sub le, mul_comm]
  have each : ∑ i, (admittedIn a b (entries i) : ℚ) ≤ ∑ i, (paidOff a b (rate i) (entries i) +
      (highestLimit a b (entries i) + forgivenIn a b (entries i))) :=
    Finset.sum_le_sum fun i _ => by linarith [(accounts i).admitted_le (a := a) (b := b) (nonneg i)]
  rw [Finset.sum_add_distrib] at each
  rw [Nat.cast_sum]
  linarith

end OnCredit
