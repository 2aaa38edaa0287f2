import Rateguard.Freshest
import Rateguard.MemberRuns

/- Tables that took the same news agree, whatever the order it came in and however often. -/
namespace Rateguard
open Std (ExtTreeMap)

/- News in the order it is applied, each at its time. -/
def MemberTable.hear (t : MemberTable) (news : List (Nat × Update)) : Option MemberTable :=
  news.foldlM (fun t heard => (t.apply heard.2 heard.1).map (·.2)) t

def MemberTable.held (t : MemberTable) (peer : PeerId) : Option Update :=
  t.members[peer]?.map (·.update peer)

theorem MemberTable.updateAbout_peer (t : MemberTable) {peer : PeerId}
    (distinct : peer ≠ t.localId) : t.updateAbout peer = t.held peer := by
  simp [updateAbout, held, distinct]

@[simp] theorem record_update (current : Option Member) (update : Update) (now : Nat) :
    (record current update now).update update.member = update := rfl

/- The table holds what it was told, as registers do. -/
structure Holding (localId : PeerId) (max : Nat) (told : List Update) (t : MemberTable) : Prop where
  wellFormed : t.WellFormed
  localId : t.localId = localId
  max : t.max = max
  held : t.held = Freshest.tellAll Update.member Update.rank (fun _ => none) told
  size : t.members.size = (told.map (·.member)).toFinset.card

theorem held_insert (t : MemberTable) (update : Update) (now : Nat) (live : List PeerId)
    (changes : List Change) :
    ({ t with
        members := t.members.insert update.member (record t.members[update.member]? update now)
        live, changes } : MemberTable).held =
      Function.update t.held update.member (some update) := by
  funext peer
  by_cases same : peer = update.member
  · subst same
    simp [MemberTable.held]
  · simp [MemberTable.held, ExtTreeMap.getElem?_insert, Function.update_of_ne same, Ne.symm same]

theorem Holding.known_iff {localId : PeerId} {max : Nat} {told : List Update} {t : MemberTable}
    (holding : Holding localId max told t) (peer : PeerId) :
    t.members[peer]? = none ↔ ∀ update ∈ told, update.member ≠ peer := by
  have holds : Freshest.Holds Update.member Update.rank told t.held := by
    rw [holding.held]
    exact Freshest.tellAll_holds told
  obtain ⟨some_fresh, none_told⟩ := holds peer
  constructor
  · intro stranger
    exact none_told (by simp [MemberTable.held, stranger])
  · intro untold
    cases found : t.members[peer]? with
    | none => rfl
    | some member =>
      have fresh := some_fresh (member.update peer) (by simp [MemberTable.held, found])
      exact absurd fresh.about (untold _ fresh.mem)

/- One piece of news of a peer, with room for it if it is of a stranger. -/
theorem Holding.apply {localId : PeerId} {max : Nat} {told : List Update} {t : MemberTable}
    (holding : Holding localId max told t) {update : Update} (other : update.member ≠ localId)
    (room : ((told ++ [update]).map (·.member)).toFinset.card < max) (now : Nat) :
    ∃ applied t', t.apply update now = some (applied, t') ∧
      Holding localId max (told ++ [update]) t' := by
  have wf := holding.wellFormed
  have distinct : update.member ≠ t.localId := holding.localId ▸ other
  have card : ((told ++ [update]).map (·.member)).toFinset =
      insert update.member (told.map (·.member)).toFinset := by
    ext peer
    simp
  have vacancy : t.members[update.member]? = none → t.known < t.max := by
    intro stranger
    have untold : update.member ∉ (told.map (·.member)).toFinset := by
      simpa using (holding.known_iff update.member).mp stranger
    rw [card, Finset.card_insert_of_notMem untold] at room
    have := holding.size
    have := holding.max
    simp only [MemberTable.known]
    omega
  have told_held : Freshest.tellAll Update.member Update.rank (fun _ => none) (told ++ [update]) =
      Freshest.tell Update.member Update.rank t.held update := by
    rw [holding.held]
    simp [Freshest.tellAll]
  rcases t.apply_outcome wf update now with ⟨applied, t', h, outcome⟩ | ⟨_, _, stranger, full, _⟩
  · refine ⟨applied, t', h, outcome.wellFormed wf, outcome.localId.trans holding.localId,
      outcome.max.trans holding.max, ?_, ?_⟩
    · rw [told_held]
      cases outcome with
      | echoed own | answered own | outbid own => exact absurd own distinct
      | refused _ stranger full => have := vacancy stranger; omega
      | stale current _ found older =>
        simp [Freshest.tell, MemberTable.held, found, older]
      | taken live changes _ newer _ _ _ =>
        rw [held_insert]
        cases found : t.members[update.member]? with
        | none => simp [Freshest.tell, MemberTable.held, found]
        | some current => simp [Freshest.tell, MemberTable.held, found, newer current found]
    · rw [card]
      cases outcome with
      | echoed own | answered own | outbid own => exact absurd own distinct
      | refused _ stranger full => have := vacancy stranger; omega
      | stale current _ found older =>
        have told : update.member ∈ (told.map (·.member)).toFinset := by
          by_contra untold
          have := (holding.known_iff update.member).mpr (by simpa using untold)
          rw [found] at this
          simp at this
        rw [Finset.insert_eq_of_mem told, holding.size]
      | taken live changes _ newer _ _ _ =>
        change (t.members.insert _ _).size = _
        rw [ExtTreeMap.size_insert, holding.size]
        have known := holding.known_iff update.member
        rw [← ExtTreeMap.isSome_getElem?_eq_contains]
        cases found : t.members[update.member]? with
        | none =>
          have untold : update.member ∉ (told.map (·.member)).toFinset := by
            simpa using known.mp found
          simp [Finset.card_insert_of_notMem untold]
        | some current =>
          have told : update.member ∈ (told.map (·.member)).toFinset := by
            by_contra untold
            have := known.mpr (by simpa using untold)
            rw [found] at this
            simp at this
          simp [Finset.insert_eq_of_mem told]
  · have := vacancy stranger
    omega

theorem Holding.hear {localId : PeerId} {max : Nat} {told : List Update} {t : MemberTable}
    (holding : Holding localId max told t) {news : List (Nat × Update)}
    (others : ∀ heard ∈ news, heard.2.member ≠ localId)
    (room : ((told ++ news.map (·.2)).map (·.member)).toFinset.card < max) :
    ∃ t', t.hear news = some t' ∧ Holding localId max (told ++ news.map (·.2)) t' := by
  induction news generalizing told t with
  | nil => exact ⟨t, rfl, by simpa using holding⟩
  | cons heard rest ih =>
    have split : told ++ (heard :: rest).map (·.2) =
        told ++ [heard.2] ++ rest.map (·.2) := by simp
    rw [split] at room ⊢
    have roomFirst : ((told ++ [heard.2]).map (·.member)).toFinset.card < max := by
      refine Nat.lt_of_le_of_lt (Finset.card_le_card ?_) room
      intro peer mem
      simp only [List.map_append, List.toFinset_append, Finset.mem_union] at mem ⊢
      tauto
    obtain ⟨applied, u, first, holdingU⟩ :=
      holding.apply (others heard List.mem_cons_self) roomFirst heard.1
    obtain ⟨t', h, holding'⟩ :=
      ih holdingU (fun heard mem => others heard (List.mem_cons_of_mem _ mem)) room
    refine ⟨t', ?_, holding'⟩
    simpa [MemberTable.hear, first] using h

theorem live_eq_of_held_eq {t t' : MemberTable} (wf : t.WellFormed) (wf' : t'.WellFormed)
    (same : t.held = t'.held) : t.live = t'.live := by
  refine AscendingList.eq_of_mem_iff wf.ascending wf'.ascending fun peer => ?_
  rw [wf.mem_live, wf'.mem_live]
  have heldSame := congrFun same peer
  have live : ∀ u : MemberTable, u.members[peer]?.any (·.isLive) =
      (u.held peer).any (·.status != .dead) := by
    intro u
    simp only [MemberTable.held]
    cases u.members[peer]? <;> rfl
  rw [live, live, heldSame]

/- u is the maximum of the news of its member under supersedes. -/
def IsNewest (news : List (Nat × Update)) (update : Update) : Prop :=
  (∃ heard ∈ news, heard.2 = update) ∧
    ∀ heard ∈ news, heard.2.member = update.member → heard.2.supersedes update = some false

theorem held_iff_newest {localId : PeerId} {max : Nat} {news : List (Nat × Update)}
    {t : MemberTable} (holding : Holding localId max (news.map (·.2)) t)
    (oneAddress : ∀ one ∈ news, ∀ two ∈ news, one.2.member = two.2.member → one.2.addr = two.2.addr)
    (peer : PeerId) (update : Update) :
    t.held peer = some update ↔ update.member = peer ∧ IsNewest news update := by
  have holds : Freshest.Holds Update.member Update.rank (news.map (·.2)) t.held := by
    rw [holding.held]
    exact Freshest.tellAll_holds _
  obtain ⟨some_fresh, none_told⟩ := holds peer
  constructor
  · intro found
    have fresh := some_fresh update found
    refine ⟨fresh.about, by simpa using fresh.mem, fun heard mem about => ?_⟩
    have le := fresh.above heard.2 (List.mem_map_of_mem mem) (about.trans fresh.about)
    rw [Update.supersedes_eq about, Option.some.injEq, decide_eq_false_iff_not]
    omega
  · rintro ⟨rfl, ⟨told, mem, rfl⟩, newest⟩
    cases found : t.held told.2.member with
    | none => exact absurd rfl (none_told found told.2 (List.mem_map_of_mem mem))
    | some current =>
      have fresh := some_fresh current found
      obtain ⟨source, sourceMem, rfl⟩ := List.mem_map.mp fresh.mem
      have upper := fresh.above told.2 (List.mem_map_of_mem mem) rfl
      have lower := newest source sourceMem fresh.about
      rw [Update.supersedes_eq fresh.about, Option.some.injEq, decide_eq_false_iff_not] at lower
      rw [Update.eq_of_rank fresh.about
        (oneAddress source sourceMem told mem fresh.about) (by omega)]

/-- A finite set of news of peers, applied one by one to an empty table with room for them:
    every peer is held at the maximum of its news, and any other order of the same news, with
    any repeats and at any times, gives the same records and the same live list. -/
theorem membership_converges (localId : PeerId) (addr : Address) (max : Nat)
    (news : List (Nat × Update)) (others : ∀ heard ∈ news, heard.2.member ≠ localId)
    (oneAddress : ∀ one ∈ news, ∀ two ∈ news,
      one.2.member = two.2.member → one.2.addr = two.2.addr)
    (room : (news.map (·.2.member)).toFinset.card < max) :
    ∃ t, ({ MemberTable.new localId addr with max } : MemberTable).hear news = some t ∧
      (∀ peer, peer ≠ localId → ∀ update,
        t.updateAbout peer = some update ↔ update.member = peer ∧ IsNewest news update) ∧
      ∀ again : List (Nat × Update),
        (∀ update, update ∈ again.map (·.2) ↔ update ∈ news.map (·.2)) →
        ∃ t', ({ MemberTable.new localId addr with max } : MemberTable).hear again = some t' ∧
          (∀ peer, peer ≠ localId → t'.updateAbout peer = t.updateAbout peer) ∧
          t'.live = t.live := by
  have empty : Holding localId max [] { MemberTable.new localId addr with max } := by
    obtain ⟨ascending, live_iff, stranger⟩ := MemberTable.new_wellFormed localId addr
    exact ⟨⟨ascending, live_iff, stranger⟩, rfl, rfl, by
      funext peer
      simp [MemberTable.held, MemberTable.new, Freshest.tellAll], rfl⟩
  have roomNews : ((news.map (·.2)).map (·.member)).toFinset.card < max := by
    simpa [List.map_map, Function.comp_def] using room
  obtain ⟨t, h, holding⟩ := empty.hear others (by simpa using roomNews)
  rw [List.nil_append] at holding
  refine ⟨t, h, fun peer distinct update => ?_, fun again same => ?_⟩
  · rw [t.updateAbout_peer (holding.localId ▸ distinct)]
    exact held_iff_newest holding oneAddress peer update
  · have othersAgain : ∀ heard ∈ again, heard.2.member ≠ localId := by
      intro heard mem
      obtain ⟨told, toldMem, eq⟩ := List.mem_map.mp ((same heard.2).mp (List.mem_map_of_mem mem))
      exact eq ▸ others told toldMem
    have members : ((again.map (·.2)).map (·.member)).toFinset =
        ((news.map (·.2)).map (·.member)).toFinset := by
      ext peer
      simp only [List.mem_toFinset, List.mem_map (f := Update.member), same]
    obtain ⟨t', h', holding'⟩ := empty.hear othersAgain (by
      rw [List.nil_append, members]
      exact roomNews)
    rw [List.nil_append] at holding'
    have held : t'.held = t.held := by
      rw [holding.held, holding'.held]
      refine Freshest.tellAll_eq_of_mem_iff same fun one memOne two memTwo member rank => ?_
      obtain ⟨first, mem₁, rfl⟩ := List.mem_map.mp ((same one).mp memOne)
      obtain ⟨second, mem₂, rfl⟩ := List.mem_map.mp ((same two).mp memTwo)
      exact Update.eq_of_rank member (oneAddress first mem₁ second mem₂ member) rank
    refine ⟨t', h', fun peer distinct => ?_,
      live_eq_of_held_eq holding'.wellFormed holding.wellFormed held⟩
    rw [t.updateAbout_peer (holding.localId ▸ distinct),
      t'.updateAbout_peer (holding'.localId ▸ distinct), held]

theorem membership_converges_refuted :
    let addr : Address := .v4 (Vector.replicate 4 10) 7946
    let news : List (Nat × Update) :=
      [(1, ⟨1, addr, 0, .alive⟩), (2, ⟨1, addr, 0, .dead⟩), (2, ⟨2, addr, 3, .suspect⟩),
       (3, ⟨1, addr, 1, .alive⟩)]
    ∃ t, ({ MemberTable.new 0 addr with max := 3 } : MemberTable).hear news = some t ∧
      ∀ again : List (Nat × Update),
        (∀ update, update ∈ again.map (·.2) ↔ update ∈ news.map (·.2)) →
        ∃ t', ({ MemberTable.new 0 addr with max := 3 } : MemberTable).hear again = some t' ∧
          t'.live = t.live := by
  intro addr news
  obtain ⟨t, h, _, again⟩ := membership_converges 0 addr 3 news (by decide) (by decide) (by decide)
  refine ⟨t, h, fun other same => ?_⟩
  obtain ⟨t', h', _, live⟩ := again other same
  exact ⟨t', h', live⟩

end Rateguard
