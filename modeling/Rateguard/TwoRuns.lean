import Mathlib.Data.List.Forall2

/- Two runs of one machine, and what an observer of both can tell apart. A machine may fail; what
   it puts out and the state it is left in are seen after every step. -/
namespace TwoRuns
variable {σ ι ο : Type*}

def run (step : σ → ι → Option (ο × σ)) : σ → List ι → Option (List (ο × σ))
  | _, [] => some []
  | s, i :: is => (step s i).bind fun (o, s') => (run step s' is).map ((o, s') :: ·)

theorem run_cons {step : σ → ι → Option (ο × σ)} {s : σ} {i : ι} {is : List ι}
    {trace : List (ο × σ)} (h : run step s (i :: is) = some trace) :
    ∃ o s' rest, step s i = some (o, s') ∧ run step s' is = some rest ∧
      trace = (o, s') :: rest := by
  simp only [run, Option.bind_eq_some_iff, Option.map_eq_some_iff] at h
  obtain ⟨⟨o, s'⟩, stepped, rest, ran, rfl⟩ := h
  exact ⟨o, s', rest, stepped, ran, rfl⟩

/- Steps that cannot be told apart, on inputs that may differ where nobody looks. -/
def Hides (step : σ → ι → Option (ο × σ)) (Like : ι → ι → Prop) (Same : σ → σ → Prop) : Prop :=
  ∀ s t i j, Same s t → Like i j → ∀ o s' p t', step s i = some (o, s') →
    step t j = some (p, t') → o = p ∧ Same s' t'

/-- What every step hides, a run hides: its outputs are the same, and the states after it. -/
theorem Hides.run {step : σ → ι → Option (ο × σ)} {Like : ι → ι → Prop} {Same : σ → σ → Prop}
    (hides : Hides step Like Same) {is js : List ι} (like : List.Forall₂ Like is js) {s t : σ}
    (same : Same s t) {one two : List (ο × σ)} (first : TwoRuns.run step s is = some one)
    (second : TwoRuns.run step t js = some two) :
    List.Forall₂ (fun x y => x.1 = y.1 ∧ Same x.2 y.2) one two := by
  induction like generalizing s t one two with
  | nil =>
    obtain rfl := Option.some.inj first
    obtain rfl := Option.some.inj second
    exact .nil
  | cons like _ ih =>
    obtain ⟨o, s', rest, stepped, ran, rfl⟩ := run_cons first
    obtain ⟨p, t', rest', stepped', ran', rfl⟩ := run_cons second
    obtain ⟨output, same'⟩ := hides _ _ _ _ same like o s' p t' stepped stepped'
    exact .cons ⟨output, same'⟩ (ih same' ran ran')

/- A second run that keeps what its steps need goes as far as the first. -/
theorem run_follows {step : σ → ι → Option (ο × σ)} {Like : ι → ι → Prop} {Same : σ → σ → Prop}
    {Fine : σ → Prop} {Safe : ι → Prop} (hides : Hides step Like Same)
    (follows : ∀ s t i j o s', Same s t → Fine t → Like i j → Safe j → step s i = some (o, s') →
      ∃ p t', step t j = some (p, t') ∧ Fine t')
    {is js : List ι} (like : List.Forall₂ Like is js) (safe : ∀ j ∈ js, Safe j) {s t : σ}
    (same : Same s t) (fine : Fine t) {one : List (ο × σ)} (first : run step s is = some one) :
    ∃ two, run step t js = some two := by
  induction like generalizing s t one with
  | nil => exact ⟨[], rfl⟩
  | @cons i j is js like _ ih =>
    obtain ⟨o, s', rest, stepped, ran, rfl⟩ := run_cons first
    obtain ⟨p, t', stepped', fine'⟩ :=
      follows _ _ i j o s' same fine like (safe j List.mem_cons_self) stepped
    have same' := (hides _ _ _ _ same like o s' p t' stepped stepped').2
    obtain ⟨two, ran'⟩ := ih (fun j mem => safe j (List.mem_cons_of_mem _ mem)) same' fine' ran
    exact ⟨(p, t') :: two, by simp only [run, stepped', Option.bind_some, ran', Option.map_some]⟩

end TwoRuns
