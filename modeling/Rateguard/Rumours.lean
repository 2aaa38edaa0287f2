import Rateguard.DatagramNetwork

/- What parties know and tell each other. A fact nobody was given at the start has a source: a
   step in the log, before anyone else knew it. -/
namespace DatagramNetwork
variable {ι σ α δ φ : Type} (parties : Parties ι σ α δ)
  (P : ι → σ → Prop) (Knows : σ → φ → Prop) (Carries : δ → φ → Prop)
  (Source : Occurrence ι σ α → φ → Prop) (Given : φ → Prop)

/- A step makes known, and sends, only what it knew before, took in, or is the source of: it
   keeps within any set of facts that all of these are in. -/
def Faithful : Prop :=
  ∀ o : Occurrence ι σ α, P o.party o.before → parties.step o.before o.action = some o.after →
    ∀ K : φ → Prop, (∀ fact, Knows o.before fact → K fact) →
      (∀ sender datagram fact, parties.receives o.action = some (sender, datagram) →
        Carries datagram fact → K fact) →
      (∀ fact, Source o fact → K fact) →
      (∀ fact, Knows o.after fact → K fact) ∧
        ∀ recipient datagram fact, (recipient, datagram) ∈ parties.sends o.action o.after →
          Carries datagram fact → K fact

def Sourced (log : List (Occurrence ι σ α)) (fact : φ) : Prop :=
  Given fact ∨ ∃ o ∈ log, Source o fact

variable {parties P Knows Carries Source Given} {start : ι → Option σ} {net : Net ι σ α}

theorem Sourced.logged {log : List (Occurrence ι σ α)} {fact : φ}
    (sourced : Sourced Source Given log fact) (o : Occurrence ι σ α) :
    Sourced Source Given (log ++ [o]) fact := by
  rcases sourced with given | ⟨source, mem, is⟩
  · exact .inl given
  · exact .inr ⟨source, List.mem_append_left _ mem, is⟩

variable [DecidableEq ι] [DecidableEq δ]

theorem Delivers.sourced {log : List (Occurrence ι σ α)} {move : Move ι α}
    (delivers : Delivers parties log move) {sender : ι} {datagram : δ} {fact : φ}
    (told : ∀ o ∈ log, ∀ recipient datagram fact,
      (recipient, datagram) ∈ parties.sends o.action o.after → Carries datagram fact →
        Sourced Source Given log fact)
    (received : parties.receives move.action = some (sender, datagram))
    (carries : Carries datagram fact) : Sourced Source Given log fact := by
  simp only [Delivers, received, Option.any_eq_true, Option.bind_eq_some_iff, Bool.and_eq_true,
    decide_eq_true_eq] at delivers
  obtain ⟨sent, ⟨j, _, found⟩, _, mem⟩ := delivers
  exact told sent (List.mem_of_getElem? found) _ _ _ mem carries

section Sourced
variable (faithful : Faithful parties P Knows Carries Source)
  (fresh : ∀ i s, start i = some s → P i s)
  (kept : ∀ i s action s', P i s → parties.step s action = some s' → P i s')
  (given : ∀ i s fact, start i = some s → Knows s fact → Given fact)
include faithful fresh kept given

theorem Run.sourced (run : Run parties start net) :
    (∀ i s fact, net.states i = some s → Knows s fact → Sourced Source Given net.log fact) ∧
      ∀ o ∈ net.log, ∀ recipient datagram fact,
        (recipient, datagram) ∈ parties.sends o.action o.after → Carries datagram fact →
          Sourced Source Given net.log fact := by
  induction run with
  | start => exact ⟨fun i s fact held knows => .inl (given i s fact held knows), by simp⟩
  | move net move net' run h ih =>
    obtain ⟨known, told⟩ := ih
    obtain ⟨delivers, before, after, was, stepped, rfl⟩ := move_some h
    dsimp only
    obtain ⟨knows, sends⟩ := faithful ⟨move.party, move.action, move.origin, before, after⟩
      (run.keeps fresh kept was) stepped (Sourced Source Given (net.log ++ [_]))
      (fun fact knows => (known _ before fact was knows).logged _)
      (fun sender datagram fact received carries =>
        (delivers.sourced told received carries).logged _)
      (fun fact source => .inr ⟨_, List.mem_append_right _ List.mem_cons_self, source⟩)
    constructor
    · intro i s fact held knownOf
      by_cases same : i = move.party
      · subst same
        rw [Function.update_self, Option.some.injEq] at held
        exact knows fact (held ▸ knownOf)
      · rw [Function.update_of_ne same] at held
        exact (known i s fact held knownOf).logged _
    · intro o mem recipient datagram fact sent carries
      rcases List.mem_append.mp mem with old | new
      · exact (told o old recipient datagram fact sent carries).logged _
      · obtain rfl := List.mem_singleton.mp new
        exact sends recipient datagram fact sent carries

theorem Run.sourced_before (run : Run parties start net) {k : Nat} {o : Occurrence ι σ α}
    (found : net.log[k]? = some o) {fact : φ} (knows : Knows o.before fact) :
    Sourced Source Given (net.log.take k) fact := by
  obtain ⟨earlier, run', log, held, _⟩ := run.occurred found
  rw [← log]
  exact (run'.sourced faithful fresh kept given).1 o.party o.before fact held knows

omit given in
/-- Where what was given, and what each step is the source of, is of a kind, so is all that is known
    and all that was ever sent. -/
theorem Run.closed {K : φ → Prop} (run : Run parties start net)
    (begins : ∀ i s fact, start i = some s → Knows s fact → K fact)
    (sources : ∀ o ∈ net.log, (∀ fact, Knows o.before fact → K fact) → ∀ fact, Source o fact → K fact) :
    (∀ i s fact, net.states i = some s → Knows s fact → K fact) ∧
      ∀ o ∈ net.log, ∀ recipient datagram fact,
        (recipient, datagram) ∈ parties.sends o.action o.after → Carries datagram fact → K fact := by
  induction run with
  | start => exact ⟨begins, by simp⟩
  | move net move net' run h ih =>
    obtain ⟨delivers, before, after, was, stepped, rfl⟩ := move_some h
    obtain ⟨known, told⟩ := ih fun o mem => sources o (List.mem_append_left _ mem)
    have knew (fact : φ) (knows : Knows before fact) : K fact := known _ before fact was knows
    obtain ⟨knows, sends⟩ := faithful ⟨move.party, move.action, move.origin, before, after⟩
      (run.keeps fresh kept was) stepped K knew
      (fun sender datagram fact received carries => by
        simp only [Delivers, received, Option.any_eq_true, Option.bind_eq_some_iff, Bool.and_eq_true,
          decide_eq_true_eq] at delivers
        obtain ⟨sent, ⟨j, _, found⟩, _, mem⟩ := delivers
        exact told sent (List.mem_of_getElem? found) _ _ _ mem carries)
      (sources _ (List.mem_append_right _ List.mem_cons_self) knew)
    constructor
    · intro i s fact held knownOf
      dsimp only at held
      by_cases same : i = move.party
      · subst same
        rw [Function.update_self, Option.some.injEq] at held
        exact knows fact (held ▸ knownOf)
      · rw [Function.update_of_ne same] at held
        exact known i s fact held knownOf
    · intro o mem recipient datagram fact sent carries
      rcases List.mem_append.mp mem with old | new
      · exact told o old recipient datagram fact sent carries
      · obtain rfl := List.mem_singleton.mp new
        exact sends recipient datagram fact sent carries

end Sourced

section Order
variable {R : σ → σ → Prop} (refl : ∀ s, R s s) (trans : ∀ s t u, R s t → R t u → R s u)
  (fresh : ∀ i s, start i = some s → P i s)
  (kept : ∀ i s action s', P i s → parties.step s action = some s' → P i s')
  (steps : ∀ i s action s', P i s → parties.step s action = some s' → R s s')
include refl trans fresh kept steps

theorem Run.follows (run : Run parties start net) {o : Occurrence ι σ α} (mem : o ∈ net.log) :
    ∃ s, net.states o.party = some s ∧ R o.after s := by
  induction run with
  | start => simp at mem
  | move net move net' run h ih =>
    obtain ⟨_, before, after, was, stepped, rfl⟩ := move_some h
    dsimp only at mem ⊢
    rcases List.mem_append.mp mem with old | new
    · obtain ⟨s, held, follows⟩ := ih old
      by_cases same : o.party = move.party
      · rw [same] at held ⊢
        rw [was, Option.some.injEq] at held
        subst held
        refine ⟨after, Function.update_self .., ?_⟩
        exact trans _ _ _ follows (steps _ _ _ _ (run.keeps fresh kept was) stepped)
      · exact ⟨s, by rw [Function.update_of_ne same, held], follows⟩
    · obtain rfl := List.mem_singleton.mp new
      exact ⟨after, Function.update_self .., refl after⟩

end Order

end DatagramNetwork
