import Mathlib.Data.List.Count
import Mathlib.Logic.Function.Iterate
import Mathlib.Tactic.Common

/- Parties that take steps of their own and send each other datagrams, over a network that may
   lose, repeat and reorder them. What happened is kept in order, so that what a party holds or
   handles can be traced to what caused it. -/
namespace DatagramNetwork
variable {ι σ α δ : Type}

/- How a party steps, the datagram a step takes in and who it is from, and the datagrams a step
   sends and to whom, by the state it leaves. -/
structure Parties (ι σ α δ : Type) where
  step : σ → α → Option σ
  receives : α → Option (ι × δ)
  sends : α → σ → List (ι × δ)

/- A step of a party: for one that takes in a datagram, with the place in the log of the step
   that sent it. -/
structure Occurrence (ι σ α : Type) where
  party : ι
  action : α
  origin : Option Nat
  before : σ
  after : σ

structure Net (ι σ α : Type) where
  states : ι → Option σ
  log : List (Occurrence ι σ α)

structure Move (ι α : Type) where
  party : ι
  action : α
  origin : Option Nat

theorem getElem?_logged {log : List (Occurrence ι σ α)} {o p : Occurrence ι σ α} {k : Nat} :
    (log ++ [o])[k]? = some p ↔ log[k]? = some p ∨ k = log.length ∧ p = o := by
  by_cases inside : k < log.length
  · rw [List.getElem?_append_left inside]
    simp [Nat.ne_of_lt inside]
  · rw [List.getElem?_append_right (by omega), List.getElem?_singleton]
    have outside : log[k]? = none := List.getElem?_eq_none (by omega)
    simp only [outside, reduceCtorEq, false_or, Option.ite_none_right_eq_some, Option.some.injEq]
    constructor
    · intro ⟨first, last⟩
      exact ⟨by omega, last.symm⟩
    · intro ⟨first, last⟩
      exact ⟨by omega, last.symm⟩

theorem length_of_logged {log : List (Occurrence ι σ α)} {o : Occurrence ι σ α} {k : Nat}
    (found : log[k]? = some o) : k < log.length :=
  (List.getElem?_eq_some_iff.mp found).1

section
variable [DecidableEq ι] [DecidableEq δ] (parties : Parties ι σ α δ)

/- A datagram taken in is one sent before, to this party and by the party it is from. -/
def Delivers (log : List (Occurrence ι σ α)) (move : Move ι α) : Prop :=
  match parties.receives move.action with
  | none => move.origin = none
  | some (sender, datagram) => ((move.origin.bind (log[·]?)).any fun sent =>
      sent.party = sender && (move.party, datagram) ∈ parties.sends sent.action sent.after) = true

instance (log : List (Occurrence ι σ α)) (move : Move ι α) :
    Decidable (Delivers parties log move) := by
  unfold Delivers
  split <;> infer_instance

def Net.move (net : Net ι σ α) (move : Move ι α) : Option (Net ι σ α) :=
  if Delivers parties net.log move then do
    let before ← net.states move.party
    let after ← parties.step before move.action
    some {
      states := Function.update net.states move.party (some after)
      log := net.log ++ [⟨move.party, move.action, move.origin, before, after⟩] }
  else none

/- The nets reached from a start, one move at a time. -/
inductive Run (start : ι → Option σ) : Net ι σ α → Prop
  | start : Run start ⟨start, []⟩
  | move (net : Net ι σ α) (move : Move ι α) (net' : Net ι σ α) : Run start net →
      net.move parties move = some net' → Run start net'

end

section
variable [DecidableEq ι] [DecidableEq δ] {parties : Parties ι σ α δ} {start : ι → Option σ}
  {net : Net ι σ α}

theorem move_some {net' : Net ι σ α} {move : Move ι α} (h : net.move parties move = some net') :
    Delivers parties net.log move ∧ ∃ before after, net.states move.party = some before ∧
      parties.step before move.action = some after ∧
      net' = ⟨Function.update net.states move.party (some after),
        net.log ++ [⟨move.party, move.action, move.origin, before, after⟩]⟩ := by
  simp only [Net.move, bind, Option.ite_none_right_eq_some, Option.bind_eq_some_iff,
    Option.some.injEq] at h
  obtain ⟨delivers, before, held, after, stepped, rfl⟩ := h
  exact ⟨delivers, before, after, held, stepped, rfl⟩

theorem delivers_of {log : List (Occurrence ι σ α)} {move : Move ι α} {sent : Occurrence ι σ α}
    {datagram : δ} {k : Nat} (receives : parties.receives move.action = some (sent.party, datagram))
    (origin : move.origin = some k) (found : log[k]? = some sent)
    (mem : (move.party, datagram) ∈ parties.sends sent.action sent.after) :
    Delivers parties log move := by
  simp only [Delivers, receives, origin, Option.bind_some, found, Option.any_some, mem,
    decide_true, Bool.and_self]

theorem move_of {move : Move ι α} {before after : σ} (delivers : Delivers parties net.log move)
    (held : net.states move.party = some before)
    (stepped : parties.step before move.action = some after) : net.move parties move =
      some ⟨Function.update net.states move.party (some after),
        net.log ++ [⟨move.party, move.action, move.origin, before, after⟩]⟩ := by
  simp only [Net.move, if_pos delivers, held, stepped, bind, Option.bind_some]

/- A party may join that was not there: none of what happened was of its doing. -/
theorem Run.join (run : Run parties start net) {i : ι} (absent : start i = none) (s : σ) :
    Run parties (Function.update start i (some s)) ⟨Function.update net.states i (some s), net.log⟩ ∧
      net.states i = none := by
  induction run with
  | start => exact ⟨.start, absent⟩
  | move net move net' run h ih =>
    obtain ⟨joined, unheld⟩ := ih
    obtain ⟨delivers, before, after, held, stepped, rfl⟩ := move_some h
    have other : i ≠ move.party := by
      rintro rfl
      rw [unheld] at held
      simp at held
    have still : (Function.update net.states i (some s)) move.party = some before := by
      rw [Function.update_of_ne (Ne.symm other), held]
    constructor
    · have moved := @move_of _ _ _ _ _ _ _ ⟨Function.update net.states i (some s), net.log⟩ _ _ _
        delivers still stepped
      rw [Function.update_comm other] at moved
      exact .move _ move _ joined moved
    · exact (Function.update_of_ne other ..).trans unheld

theorem Run.acts (run : Run parties start net) {i : ι} {s s' : σ} {actions : List α}
    (held : net.states i = some s) (quiet : ∀ action ∈ actions, parties.receives action = none)
    (ran : actions.foldlM (fun s action => parties.step s action) s = some s') :
    ∃ net', Run parties start net' ∧ net'.states = Function.update net.states i (some s') ∧
      ∃ more, net'.log = net.log ++ more ∧ ∀ o ∈ more, o.action ∈ actions := by
  induction actions generalizing net s with
  | nil =>
    obtain rfl := Option.some.inj ran
    refine ⟨net, run, ?_, [], (List.append_nil _).symm, by simp⟩
    rw [← held, Function.update_eq_self]
  | cons action rest ih =>
    simp only [List.foldlM_cons, bind, Option.bind_eq_some_iff] at ran
    obtain ⟨u, stepped, ran⟩ := ran
    have delivers : Delivers parties net.log ⟨i, action, none⟩ := by
      simp only [Delivers, quiet action List.mem_cons_self]
    have moved := move_of delivers held stepped
    obtain ⟨net', run', states, more, log, among⟩ := ih (run.move net ⟨i, action, none⟩ _ moved)
      (Function.update_self ..) (fun action mem => quiet action (List.mem_cons_of_mem _ mem)) ran
    refine ⟨net', run', ?_, ⟨i, action, none, s, u⟩ :: more, ?_, fun o mem => ?_⟩
    · rw [states, Function.update_idem]
    · rw [log, List.append_assoc, List.singleton_append]
    · rcases List.mem_cons.mp mem with rfl | mem
      · exact List.mem_cons_self
      · exact List.mem_cons_of_mem _ (among o mem)

/- What is in the log happened in a run of its own, which the log goes on from. -/
theorem Run.occurred (run : Run parties start net) {k : Nat} {o : Occurrence ι σ α}
    (found : net.log[k]? = some o) :
    ∃ earlier : Net ι σ α, Run parties start earlier ∧ earlier.log = net.log.take k ∧
      earlier.states o.party = some o.before ∧ parties.step o.before o.action = some o.after ∧
      Delivers parties earlier.log ⟨o.party, o.action, o.origin⟩ := by
  induction run with
  | start => simp at found
  | move net move net' run h ih =>
    obtain ⟨delivers, before, after, held, stepped, rfl⟩ := move_some h
    dsimp only at found ⊢
    rcases getElem?_logged.mp found with old | ⟨rfl, rfl⟩
    · obtain ⟨earlier, run', log, rest⟩ := ih old
      have inside := length_of_logged old
      refine ⟨earlier, run', ?_, rest⟩
      rw [log, List.take_append_of_le_length (by omega)]
    · exact ⟨net, run, by simp, held, stepped, delivers⟩

theorem Run.sent (run : Run parties start net) {k : Nat} {o : Occurrence ι σ α} {sender : ι}
    {datagram : δ} (found : net.log[k]? = some o)
    (received : parties.receives o.action = some (sender, datagram)) :
    ∃ j s, o.origin = some j ∧ j < k ∧ net.log[j]? = some s ∧ s.party = sender ∧
      (o.party, datagram) ∈ parties.sends s.action s.after := by
  obtain ⟨earlier, _, log, _, _, delivers⟩ := run.occurred found
  simp only [Delivers, received, Option.any_eq_true, Option.bind_eq_some_iff, Bool.and_eq_true,
    decide_eq_true_eq] at delivers
  obtain ⟨s, ⟨j, origin, sent⟩, party, mem⟩ := delivers
  have inside := length_of_logged sent
  rw [log] at sent inside
  rw [List.length_take] at inside
  rw [List.getElem?_take_of_lt (by omega)] at sent
  exact ⟨j, s, origin, by omega, sent, party, mem⟩

/- What every step of a party keeps holds of its state in every net. -/
section Kept
variable {P : ι → σ → Prop} (fresh : ∀ i s, start i = some s → P i s)
  (kept : ∀ i s action s', P i s → parties.step s action = some s' → P i s')
include fresh kept

theorem Run.keeps (run : Run parties start net) {i : ι} {s : σ}
    (held : net.states i = some s) : P i s := by
  induction run generalizing i s with
  | start => exact fresh i s held
  | move net move net' run h ih =>
    obtain ⟨_, before, after, was, stepped, rfl⟩ := move_some h
    dsimp only at held
    by_cases same : i = move.party
    · subst same
      rw [Function.update_self, Option.some.injEq] at held
      exact held ▸ kept _ before _ after (ih was) stepped
    · rw [Function.update_of_ne same] at held
      exact ih held

theorem Run.keeps_before (run : Run parties start net) {k : Nat} {o : Occurrence ι σ α}
    (found : net.log[k]? = some o) : P o.party o.before := by
  obtain ⟨earlier, run', _, held, _⟩ := run.occurred found
  exact run'.keeps fresh kept held

/-- What a party holds was brought about by one of its steps, and it has held it ever since. -/
theorem Run.caused {φ : Type} (Holds : σ → φ → Prop) (Causes : α → σ → σ → φ → Prop)
    (blank : ∀ i s fact, start i = some s → ¬ Holds s fact)
    (causes : ∀ i s action s' fact, P i s → parties.step s action = some s' → Holds s' fact →
      Holds s fact ∨ Causes action s s' fact)
    (run : Run parties start net) (fact : φ) {i : ι} {s : σ} (held : net.states i = some s)
    (holds : Holds s fact) :
    ∃ (k : Nat) (o : Occurrence ι σ α), net.log[k]? = some o ∧ o.party = i ∧
      Causes o.action o.before o.after fact ∧
      ∀ (l : Nat) (later : Occurrence ι σ α), k ≤ l → net.log[l]? = some later →
        later.party = i → Holds later.after fact := by
  induction run generalizing i s with
  | start => exact absurd holds (blank i s fact held)
  | move net move net' run h ih =>
    obtain ⟨_, before, after, was, stepped, rfl⟩ := move_some h
    dsimp only at held ⊢
    by_cases same : i = move.party
    · subst same
      rw [Function.update_self, Option.some.injEq] at held
      subst held
      have proper := run.keeps fresh kept was
      rcases causes _ before _ after fact proper stepped holds with old | new
      · obtain ⟨k, o, found, party, cause, since⟩ := ih was old
        refine ⟨k, o, getElem?_logged.mpr (.inl found), party, cause, ?_⟩
        intro l later after_ logged same
        rcases getElem?_logged.mp logged with old | ⟨rfl, rfl⟩
        · exact since l later after_ old same
        · exact holds
      · refine ⟨net.log.length, _, getElem?_logged.mpr (.inr ⟨rfl, rfl⟩), rfl, new, ?_⟩
        intro l later after_ logged same
        rcases getElem?_logged.mp logged with old | ⟨rfl, rfl⟩
        · have inside := length_of_logged old
          omega
        · exact holds
    · rw [Function.update_of_ne same] at held
      obtain ⟨k, o, found, party, cause, since⟩ := ih held holds
      refine ⟨k, o, getElem?_logged.mpr (.inl found), party, cause, ?_⟩
      intro l later after_ logged own
      rcases getElem?_logged.mp logged with old | ⟨rfl, rfl⟩
      · exact since l later after_ old own
      · exact absurd own.symm same

/- So was what it held before a step. -/
theorem Run.caused_before {φ : Type} (Holds : σ → φ → Prop) (Causes : α → σ → σ → φ → Prop)
    (blank : ∀ i s fact, start i = some s → ¬ Holds s fact)
    (causes : ∀ i s action s' fact, P i s → parties.step s action = some s' → Holds s' fact →
      Holds s fact ∨ Causes action s s' fact)
    (run : Run parties start net) (fact : φ) {k : Nat} {o : Occurrence ι σ α}
    (found : net.log[k]? = some o) (holds : Holds o.before fact) :
    ∃ (j : Nat) (p : Occurrence ι σ α), j < k ∧ net.log[j]? = some p ∧ p.party = o.party ∧
      Causes p.action p.before p.after fact ∧
      ∀ (l : Nat) (later : Occurrence ι σ α), j ≤ l → l < k → net.log[l]? = some later →
        later.party = o.party → Holds later.after fact := by
  obtain ⟨earlier, run', log, held, _⟩ := run.occurred found
  have before (l : Nat) (inside : l < k) : earlier.log[l]? = net.log[l]? := by
    rw [log, List.getElem?_take_of_lt inside]
  obtain ⟨j, p, logged, party, cause, since⟩ := run'.caused fresh kept Holds Causes blank causes fact held holds
  have inside : j < k := by
    have length := length_of_logged logged
    rw [log, List.length_take] at length
    omega
  refine ⟨j, p, inside, (before j inside) ▸ logged, party, cause, ?_⟩
  intro l later from_ to_ logged' own
  exact since l later from_ ((before l to_).trans logged') own

end Kept

/- Numbers a party takes one after another. -/
section Numbers
variable {ν : Type} [DecidableEq ν] (number : σ → ν)

def Occurrence.takes (o : Occurrence ι σ α) : Bool := number o.after ≠ number o.before

def taken (log : List (Occurrence ι σ α)) (i : ι) : Nat :=
  log.countP fun o => o.party = i && o.takes number

theorem taken_logged (log : List (Occurrence ι σ α)) (o : Occurrence ι σ α) (i : ι) :
    taken number (log ++ [o]) i =
      taken number log i + if o.party = i ∧ o.takes number = true then 1 else 0 := by
  simp only [taken, List.countP_append, List.countP_singleton, Bool.and_eq_true,
    decide_eq_true_eq]

theorem taken_take_le (log : List (Occurrence ι σ α)) (i : ι) {j k : Nat} (le : j ≤ k) :
    taken number (log.take j) i ≤ taken number (log.take k) i :=
  (List.take_sublist_take_left le).countP_le

variable {number} {next : ν → ν} {P : ι → σ → Prop} (fresh : ∀ i s, start i = some s → P i s)
  (kept : ∀ i s action s', P i s → parties.step s action = some s' → P i s')
  (counts : ∀ i s action s', P i s → parties.step s action = some s' →
    number s' = number s ∨ number s' = next (number s))
include fresh kept counts

theorem Run.numbered (run : Run parties start net) {i : ι} {s : σ}
    (held : net.states i = some s) :
    ∃ first, start i = some first ∧
      number s = next^[taken number net.log i] (number first) := by
  induction run generalizing i s with
  | start => exact ⟨s, held, rfl⟩
  | move net move net' run h ih =>
    obtain ⟨_, before, after, was, stepped, rfl⟩ := move_some h
    dsimp only at held ⊢
    rw [taken_logged]
    by_cases same : i = move.party
    · subst same
      rw [Function.update_self, Option.some.injEq] at held
      subst held
      obtain ⟨first, began, now⟩ := ih was
      refine ⟨first, began, ?_⟩
      have proper := run.keeps fresh kept was
      by_cases old : number after = number before
      · simp [Occurrence.takes, old, now]
      · have took := (counts _ before _ after proper stepped).resolve_left old
        simp only [Occurrence.takes, ne_eq, old, not_false_eq_true, decide_true, true_and, if_true]
        rw [Function.iterate_succ_apply', ← now, took]
    · rw [Function.update_of_ne same] at held
      rw [if_neg (fun h => same h.1.symm)]
      exact ih held

/- The number a step takes, by how many the party took up to it. -/
theorem Run.takes_number (run : Run parties start net) {k : Nat} {o : Occurrence ι σ α}
    (found : net.log[k]? = some o) (took : o.takes number = true) :
    ∃ first, start o.party = some first ∧
      number o.after = next^[taken number (net.log.take k) o.party + 1] (number first) := by
  obtain ⟨earlier, run', log, held, stepped, _⟩ := run.occurred found
  have proper := run'.keeps fresh kept held
  obtain ⟨first, began, before⟩ := run'.numbered fresh kept counts held
  refine ⟨first, began, ?_⟩
  have other : number o.after ≠ number o.before := by simpa [Occurrence.takes] using took
  rw [(counts _ _ _ _ proper stepped).resolve_left other, before, log, ← Function.iterate_succ_apply' next]

/-- No number is taken twice while they have not come round. -/
theorem Run.takes_once {bound : Nat} (apart : ∀ m x, 0 < m → m < bound → next^[m] x ≠ x)
    (run : Run parties start net) {j k : Nat} {o p : Occurrence ι σ α}
    (few : taken number net.log o.party < bound)
    (foundO : net.log[j]? = some o) (foundP : net.log[k]? = some p) (party : p.party = o.party)
    (tookO : o.takes number = true) (tookP : p.takes number = true)
    (same : number p.after = number o.after) : j = k := by
  have ordered : ∀ (j k : Nat) (o p : Occurrence ι σ α), taken number net.log o.party < bound →
      net.log[j]? = some o → net.log[k]? = some p → p.party = o.party → o.takes number = true →
      p.takes number = true → number p.after = number o.after → ¬ j < k := by
    intro j k o p few foundO foundP party tookO tookP same earlier
    obtain ⟨first, began, numberO⟩ := run.takes_number fresh kept counts foundO tookO
    obtain ⟨first', began', numberP⟩ := run.takes_number fresh kept counts foundP tookP
    rw [party, began, Option.some.injEq] at began'
    subst began'
    have split (l : Nat) (u : Occurrence ι σ α) (found : net.log[l]? = some u)
        (own : u.party = o.party) (took : u.takes number = true) :
        taken number (net.log.take (l + 1)) o.party = taken number (net.log.take l) o.party + 1 := by
      rw [List.take_add_one, found, Option.toList_some, taken_logged, if_pos ⟨own, took⟩]
    have upToO := split j o foundO rfl tookO
    have upToP := split k p foundP party tookP
    have between := taken_take_le number net.log o.party (show j + 1 ≤ k by omega)
    have total := (List.take_sublist (k + 1) net.log).countP_le
      (p := fun u => u.party = o.party && u.takes number)
    change taken number (net.log.take (k + 1)) o.party ≤ taken number net.log o.party at total
    rw [party] at numberP
    set a := taken number (net.log.take j) o.party
    set b := taken number (net.log.take k) o.party
    have sum : b + 1 = (b - a) + (a + 1) := by omega
    rw [numberO, numberP, sum, Function.iterate_add_apply] at same
    exact apart (b - a) _ (by omega) (by omega) same
  have forward := ordered j k o p few foundO foundP party tookO tookP same
  have backward := ordered k j p o (party ▸ few) foundP foundO party.symm tookP tookO same.symm
  omega

end Numbers
end
end DatagramNetwork
