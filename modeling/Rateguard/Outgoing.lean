import Rateguard.Sound

/- The records a message carries: the sender's own first, what the recipient has to hear of
   itself, and never more than a message may hold. -/
namespace Rateguard
open Std (ExtTreeMap)

theorem MemberTable.mem_liveAfter {t : MemberTable} {after : Option PeerId} {update : Update}
    (mem : update ∈ t.liveAfter after) :
    ∃ member, t.members[update.member]? = some member ∧ update = member.update update.member := by
  obtain ⟨⟨peer, member⟩, listed, rfl⟩ := List.mem_map.mp mem
  have known := List.mem_of_mem_filter listed
  rw [ExtTreeMap.mem_toList_iff_getElem?_eq_some] at known
  exact ⟨member, known, rfl⟩

/- News of a peer may be said. -/
theorem MemberTable.WellFormed.sayable {t : MemberTable} (wf : t.WellFormed) {update : Update}
    {member : Member} (known : t.members[update.member]? = some member) : Sayable t update :=
  fun own => absurd own (wf.ne_local known)

namespace Node

/- What tell adds comes from the members it is given, in the room left. -/
theorem tell_spec {recipient : PeerId} {rest updates updates' : List Update}
    {last last' : Option PeerId} {allTold : Bool}
    (h : tell recipient rest updates last = (updates', last', allTold)) :
    ∃ added, updates' = updates ++ added ∧ (∀ update ∈ added, update ∈ rest) ∧
      (updates.length ≤ maxUpdates → updates'.length ≤ maxUpdates) := by
  induction rest generalizing updates last with
  | nil =>
    have same : updates = updates' := by
      unfold tell at h
      split at h <;> simp only [Prod.mk.injEq] at h <;> exact h.1
    exact ⟨[], by simp [same], by simp, fun fits => same ▸ fits⟩
  | cons update rest ih =>
    unfold tell at h
    split at h
    · rename_i room
      dsimp only at h
      obtain ⟨added, grown, listed, fits⟩ := ih h
      split at grown
      · rename_i fresh
        refine ⟨update :: added, by simp [grown], ?_, fun _ => fits ?_⟩
        · intro other mem
          rcases List.mem_cons.mp mem with rfl | mem
          · exact List.mem_cons_self
          · exact List.mem_cons_of_mem _ (listed other mem)
        · rw [if_pos fresh, List.length_append]
          exact room
      · rename_i known
        refine ⟨added, grown, fun other mem => List.mem_cons_of_mem _ (listed other mem),
          fun _ => fits ?_⟩
        rw [if_neg known]
        exact Nat.le_of_lt room
    · simp only [Prod.mk.injEq] at h
      exact ⟨[], by simp [h.1], by simp, fun fits => h.1 ▸ fits⟩

theorem opening_spec (own : Update) (taken : List Update) (accusation : Option Update) :
    (∃ rest, opening own taken accusation = own :: rest) ∧
      (∀ update ∈ opening own taken accusation,
        update = own ∨ update ∈ taken ∨ accusation = some update) ∧
      (∀ held, accusation = some held → held ∈ opening own taken accusation) ∧
      (opening own taken accusation).length ≤
        1 + taken.length + (if accusation.isSome then 1 else 0) := by
  have few := List.length_filter_le (fun update => decide (update ≠ own)) taken
  unfold opening
  cases accusation with
  | none =>
    refine ⟨⟨_, rfl⟩, fun update mem => ?_, by simp, by simp only [List.length_cons]; omega⟩
    rcases List.mem_cons.mp mem with rfl | mem
    · exact Or.inl rfl
    · exact Or.inr (Or.inl (List.mem_of_mem_filter mem))
  | some held =>
    dsimp only
    split
    · rename_i contained
      refine ⟨⟨_, rfl⟩, fun update mem => ?_, ?_, by simp only [List.length_cons]; omega⟩
      · rcases List.mem_cons.mp mem with rfl | mem
        · exact Or.inl rfl
        · exact Or.inr (Or.inl (List.mem_of_mem_filter mem))
      · rintro _ ⟨⟩
        exact List.contains_iff_mem.mp contained
    · refine ⟨⟨_, rfl⟩, fun update mem => ?_, ?_, ?_⟩
      · rcases List.mem_append.mp mem with mem | mem
        · rcases List.mem_cons.mp mem with rfl | mem
          · exact Or.inl rfl
          · exact Or.inr (Or.inl (List.mem_of_mem_filter mem))
        · exact Or.inr (Or.inr (congrArg some (List.mem_singleton.mp mem).symm))
      · rintro _ ⟨⟩
        exact List.mem_append_right _ List.mem_cons_self
      · simp only [List.length_append, List.length_cons, List.length_nil, Option.isSome_some,
          ↓reduceIte]
        omega

theorem accusation_some {n : Node} {recipient : PeerId} {held : Update} :
    n.accusation recipient = some held ↔ n.members.updateAbout recipient = some held ∧
      (held.status ≠ .alive ∨ recipient ∈ n.behind) := by
  simp [accusation, Option.filter_eq_some_iff]

theorem Sound.sayable {n : Node} (sound : n.Sound) {recipient : PeerId} {held : Update}
    (known : n.members.updateAbout recipient = some held) : Sayable n.members held := by
  unfold MemberTable.updateAbout at known
  split at known
  · exact Option.some.inj known ▸ n.members.ownUpdate_sayable
  · obtain ⟨member, found, rfl⟩ := Option.map_eq_some_iff.mp known
    exact sound.members.sayable found

/-- The spec of outgoing: it opens with the sender's own record, says of the sender nothing but
    Alive records it made, has a place for the accusation, and fits a message. -/
structure Carries (n : Node) (recipient : PeerId) (updates : List Update) : Prop where
  own : ∃ rest, updates = n.members.ownUpdate :: rest
  sayable : ∀ update ∈ updates, Sayable n.members update
  accusation : ∀ held, n.accusation recipient = some held → held ∈ updates
  fits : updates.length ≤ maxUpdates

/- It opens with the sender's own record and fits, whatever the sender has queued. -/
theorem outgoing_opens {n n' : Node} {recipient : PeerId} {updates : List Update}
    (h : n.outgoing recipient = some (updates, n')) :
    (∃ rest, updates = n.members.ownUpdate :: rest) ∧ updates.length ≤ maxUpdates := by
  simp only [outgoing, bind, Option.bind_eq_some_iff] at h
  obtain ⟨own, knows, limit, _, ⟨taken, gossip⟩, took, h⟩ := h
  have itself : own = n.members.ownUpdate := by
    simpa [MemberTable.updateAbout, eq_comm] using knows
  subst itself
  obtain ⟨_, few, _⟩ := Gossip.take_spec took
  obtain ⟨opens, _, _, length⟩ :=
    opening_spec n.members.ownUpdate taken (n.accusation recipient)
  have fits : (opening n.members.ownUpdate taken (n.accusation recipient)).length ≤
      maxUpdates := by
    simp only [maxUpdates] at few ⊢
    split at few <;> simp_all <;> omega
  split at h
  · simp only [Option.some.injEq, Prod.mk.injEq] at h
    obtain ⟨rfl, _⟩ := h
    exact ⟨opens, fits⟩
  · rename_i start _
    generalize told : tell recipient (n.members.liveAfter start)
      (opening n.members.ownUpdate taken (n.accusation recipient)) start = result at h
    obtain ⟨all, last, allTold⟩ := result
    simp only [Option.some.injEq, Prod.mk.injEq] at h
    obtain ⟨rfl, _⟩ := h
    obtain ⟨added, rfl, _, short⟩ := tell_spec told
    obtain ⟨rest, opens⟩ := opens
    exact ⟨⟨rest ++ added, by rw [opens, List.cons_append]⟩, short fits⟩

theorem outgoing_carries {n n' : Node} {recipient : PeerId} {updates : List Update}
    (sound : n.Sound) (h : n.outgoing recipient = some (updates, n')) :
    Carries n recipient updates := by
  obtain ⟨opens, fits⟩ := outgoing_opens h
  simp only [outgoing, bind, Option.bind_eq_some_iff] at h
  obtain ⟨own, knows, limit, _, ⟨taken, gossip⟩, took, h⟩ := h
  have itself : own = n.members.ownUpdate := by
    simpa [MemberTable.updateAbout, eq_comm] using knows
  subst itself
  obtain ⟨_, _, queued⟩ := Gossip.take_spec took
  obtain ⟨_, source, accused, _⟩ :=
    opening_spec n.members.ownUpdate taken (n.accusation recipient)
  have said : ∀ update ∈ opening n.members.ownUpdate taken (n.accusation recipient),
      Sayable n.members update := by
    intro update mem
    rcases source update mem with rfl | mem | held
    · exact n.members.ownUpdate_sayable
    · obtain ⟨member, pending, found, rfl⟩ := queued update mem
      intro own
      have filed := sound.gossip.filed member pending found
      exact sound.gossip.own pending (by rw [← own, filed]; exact found)
    · exact sound.sayable (accusation_some.mp held).1
  split at h
  · simp only [Option.some.injEq, Prod.mk.injEq] at h
    obtain ⟨rfl, _⟩ := h
    exact ⟨opens, said, accused, fits⟩
  · rename_i start _
    generalize told : tell recipient (n.members.liveAfter start)
      (opening n.members.ownUpdate taken (n.accusation recipient)) start = result at h
    obtain ⟨all, last, allTold⟩ := result
    simp only [Option.some.injEq, Prod.mk.injEq] at h
    obtain ⟨rfl, _⟩ := h
    obtain ⟨added, rfl, listed, _⟩ := tell_spec told
    refine ⟨opens, fun update mem => ?_,
      fun held accusation => List.mem_append_left _ (accused held accusation), fits⟩
    rcases List.mem_append.mp mem with mem | mem
    · exact said update mem
    · obtain ⟨member, found, _⟩ := MemberTable.mem_liveAfter (listed update mem)
      exact sound.members.sayable found

end Node
end Rateguard
