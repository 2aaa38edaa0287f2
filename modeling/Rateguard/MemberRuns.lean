import Rateguard.Member

/- What each operation of the member table does, and what holds of the table over any run of
   them. -/
namespace Rateguard
open Std (ExtTreeMap)
open AscendingList

/- The live list is the ascending list of the members known that are not dead, and this
   node is not among the members. -/
structure MemberTable.WellFormed (t : MemberTable) : Prop where
  ascending : Ascending t.live
  live_iff : ∀ peer, peer ∈ t.live ↔ ∃ member, t.members[peer]? = some member ∧ member.isLive
  stranger : t.members[t.localId]? = none

def replayChange (live : Finset PeerId) : Change → Option (Finset PeerId)
  | .joined peer => if peer ∈ live then none else some (insert peer live)
  | .left peer => if peer ∈ live then some (live.erase peer) else none

/- A join of a peer present or the leaving of one absent is none. -/
def replay (live : Finset PeerId) (changes : List Change) : Option (Finset PeerId) :=
  changes.foldlM replayChange live

/- The changes logged on the way from t to t' account for its live list. -/
def Accounts (t t' : MemberTable) : Prop :=
  ∃ logged, t'.changes = t.changes ++ logged ∧ replay t.live.toFinset logged = some t'.live.toFinset

theorem replay_append (live : Finset PeerId) (one two : List Change) :
    replay live (one ++ two) = (replay live one).bind fun live => replay live two := by
  simp [replay, List.foldlM_append]

theorem Accounts.refl (t : MemberTable) : Accounts t t := ⟨[], by simp, rfl⟩

theorem Accounts.trans {t u v : MemberTable} (first : Accounts t u) (second : Accounts u v) :
    Accounts t v := by
  obtain ⟨early, log, replayed⟩ := first
  obtain ⟨late, log', replayed'⟩ := second
  refine ⟨early ++ late, by rw [log', log, List.append_assoc], ?_⟩
  rw [replay_append, replayed, Option.bind_some, replayed']

theorem MemberTable.new_wellFormed (localId : PeerId) (addr : Address) :
    (MemberTable.new localId addr).WellFormed := by
  refine ⟨by simp [Ascending, MemberTable.new], fun peer => ?_, ?_⟩ <;> simp [MemberTable.new]

theorem MemberTable.WellFormed.notMem_live {t : MemberTable} (wf : t.WellFormed) :
    t.localId ∉ t.live := by
  intro mem
  obtain ⟨member, found, _⟩ := (wf.live_iff _).mp mem
  rw [wf.stranger] at found
  simp at found

theorem MemberTable.WellFormed.ne_local {t : MemberTable} (wf : t.WellFormed) {peer : PeerId}
    {member : Member} (found : t.members[peer]? = some member) : peer ≠ t.localId := by
  rintro rfl
  rw [wf.stranger] at found
  simp at found

theorem MemberTable.WellFormed.mem_live {t : MemberTable} (wf : t.WellFormed) (peer : PeerId) :
    peer ∈ t.live ↔ t.members[peer]?.any (·.isLive) = true := by
  rw [wf.live_iff]
  cases t.members[peer]? <;> simp

/- A record written over another: the live list follows it, and no expect fails. -/
theorem MemberTable.follow_spec {t : MemberTable} (wf : t.WellFormed) {peer : PeerId}
    (distinct : peer ≠ t.localId) (member : Member) :
    ∃ live changes,
      ({ t with members := t.members.insert peer member } : MemberTable).follow peer
          (t.members[peer]?.any (·.isLive)) member.isLive =
        some { t with members := t.members.insert peer member, live, changes } ∧
      ({ t with members := t.members.insert peer member, live, changes } : MemberTable).WellFormed ∧
      Accounts t { t with members := t.members.insert peer member, live, changes } := by
  have stranger : (t.members.insert peer member)[t.localId]? = none := by
    rw [ExtTreeMap.getElem?_insert, if_neg (by simpa using distinct), wf.stranger]
  have others : ∀ other, other ≠ peer →
      (other ∈ t.live ↔ ∃ m, (t.members.insert peer member)[other]? = some m ∧ m.isLive) := by
    intro other ne
    rw [wf.live_iff, ExtTreeMap.getElem?_insert, if_neg (by simpa using Ne.symm ne)]
  have own : (∃ m, (t.members.insert peer member)[peer]? = some m ∧ m.isLive) ↔ member.isLive := by
    simp
  have before := wf.mem_live peer
  cases wasLive : t.members[peer]?.any (·.isLive) <;> cases isLive : member.isLive
  · rw [wasLive] at before
    rw [isLive] at own
    refine ⟨t.live, t.changes, rfl, ⟨wf.ascending, fun other => ?_, stranger⟩, [], by simp, rfl⟩
    by_cases same : other = peer
    · subst same
      exact before.trans own.symm
    · exact others other same
  · rw [wasLive] at before
    rw [isLive] at own
    have absent : peer ∉ t.live := by simpa using before
    obtain ⟨index, search⟩ := binarySearch_error_of_notMem absent
    refine ⟨t.live.insertIdx index peer, t.changes ++ [.joined peer], ?_,
      ⟨insert_ascending wf.ascending search, fun other => ?_, stranger⟩, [.joined peer], rfl, ?_⟩
    · simp only [follow, search]
    · simp only [mem_insert search]
      by_cases same : other = peer
      · subst same
        simpa using own.mpr rfl
      · simpa [same] using others other same
    · have inserted : (t.live.insertIdx index peer).toFinset = insert peer t.live.toFinset := by
        ext other
        simp [mem_insert search]
      simp [replay, replayChange, absent, inserted]
  · rw [wasLive] at before
    rw [isLive] at own
    have present : peer ∈ t.live := by simpa using before
    obtain ⟨index, search⟩ := binarySearch_ok_of_mem wf.ascending present
    refine ⟨t.live.eraseIdx index, t.changes ++ [.left peer], ?_,
      ⟨erase_ascending wf.ascending index, fun other => ?_, stranger⟩, [.left peer], rfl, ?_⟩
    · simp only [follow, search]
    · simp only [mem_erase wf.ascending search]
      by_cases same : other = peer
      · subst same
        simpa using own
      · simpa [same] using others other same
    · have erased : (t.live.eraseIdx index).toFinset = t.live.toFinset.erase peer := by
        ext other
        simp [mem_erase wf.ascending search, and_comm]
      simp [replay, replayChange, present, erased]
  · rw [wasLive] at before
    rw [isLive] at own
    refine ⟨t.live, t.changes, rfl, ⟨wf.ascending, fun other => ?_, stranger⟩, [], by simp, rfl⟩
    by_cases same : other = peer
    · subst same
      exact before.trans own.symm
    · exact others other same

/- Every outcome of a piece of news: about this node, ignored, answered or outbid; about
   another, ignored, refused or taken. -/
inductive MemberTable.Outcome (t : MemberTable) (update : Update) (now : Nat) :
    Applied → MemberTable → Prop
  | echoed : update.member = t.localId →
      (update.status = .alive ∧ update.rank ≤ t.ownUpdate.rank ∨
        2 ^ 32 ≤ update.incarnation.toNat + 1) → Outcome t update now .ignored t
  | answered : update.member = t.localId → update.status ≠ .alive →
      update.rank ≤ t.ownUpdate.rank → Outcome t update now (.refuted t.ownUpdate) t
  | outbid : update.member = t.localId → t.ownUpdate.rank < update.rank →
      update.incarnation.toNat + 1 < 2 ^ 32 →
      Outcome t update now (.refuted { t.ownUpdate with incarnation := update.incarnation + 1 })
        { t with incarnation := update.incarnation + 1 }
  | stale (current : Member) : update.member ≠ t.localId →
      t.members[update.member]? = some current →
      update.rank ≤ (current.update update.member).rank → Outcome t update now .ignored t
  | refused : update.member ≠ t.localId → t.members[update.member]? = none → t.max ≤ t.known →
      Outcome t update now .refused { t with refused := t.refused + 1 }
  | taken (live : List PeerId) (changes : List Change) : update.member ≠ t.localId →
      (∀ current, t.members[update.member]? = some current →
        (current.update update.member).rank < update.rank) →
      (t.members[update.member]? = none → t.known < t.max) →
      Accounts t { t with
        members := t.members.insert update.member (record t.members[update.member]? update now)
        live, changes } →
      MemberTable.WellFormed { t with
        members := t.members.insert update.member (record t.members[update.member]? update now)
        live, changes } →
      Outcome t update now (.accepted (t.members[update.member]?.map (·.status))) { t with
        members := t.members.insert update.member (record t.members[update.member]? update now)
        live, changes }

theorem MemberTable.refute_outcome {t : MemberTable} {update : Update} {now : Nat}
    (own : update.member = t.localId) :
    ∃ applied t', t.refute update = some (applied, t') ∧ t.Outcome update now applied t' := by
  unfold refute
  rw [Update.supersedes_eq (show update.member = t.ownUpdate.member from own)]
  by_cases newer : t.ownUpdate.rank < update.rank
  · simp only [bind, Option.bind, decide_eq_true newer, Bool.not_true, Bool.false_eq_true,
      ↓reduceIte]
    split
    · rename_i fits
      exact ⟨_, _, rfl, .outbid own newer fits⟩
    · rename_i last
      exact ⟨_, _, rfl, .echoed own (Or.inr (by omega))⟩
  · simp only [bind, Option.bind, decide_eq_false newer, Bool.not_false, ↓reduceIte]
    have older : update.rank ≤ t.ownUpdate.rank := by omega
    cases status : update.status
    · exact ⟨_, _, rfl, .echoed own (Or.inl ⟨status, older⟩)⟩
    · exact ⟨_, _, rfl, .answered own (by simp [status]) older⟩
    · exact ⟨_, _, rfl, .answered own (by simp [status]) older⟩

@[simp] theorem record_isLive (current : Option Member) (update : Update) (now : Nat) :
    (record current update now).isLive = (update.status != .dead) := rfl

@[simp] theorem Member.update_member (member : Member) (peer : PeerId) :
    (member.update peer).member = peer := rfl

/-- The spec of apply: one of the outcomes, or the overflow of the count of refusals. -/
theorem MemberTable.apply_outcome {t : MemberTable} (wf : t.WellFormed) (update : Update)
    (now : Nat) :
    (∃ applied t', t.apply update now = some (applied, t') ∧ t.Outcome update now applied t') ∨
      (t.apply update now = none ∧ update.member ≠ t.localId ∧
        t.members[update.member]? = none ∧ t.max ≤ t.known ∧ u64Max ≤ t.refused) := by
  unfold apply
  by_cases own : update.member = t.localId
  · left
    simpa only [own, ↓reduceIte] using refute_outcome own
  · simp only [own, ↓reduceIte]
    obtain ⟨live, changes, followed, after, accounts⟩ :=
      follow_spec wf own (record t.members[update.member]? update now)
    rw [record_isLive] at followed
    cases found : t.members[update.member]? with
    | some current =>
      left
      rw [found] at followed accounts after
      simp only [bind, Option.bind, Update.supersedes_eq (current.update_member _).symm]
      by_cases newer : (current.update update.member).rank < update.rank
      · simp only [decide_eq_true newer, Bool.not_true, Bool.false_eq_true, ↓reduceIte,
          Option.isNone_some, Bool.false_and, followed]
        refine ⟨_, _, rfl, ?_⟩
        have taken : _ → _ → t.Outcome update now _ _ := Outcome.taken live changes own
          (fun other same => by
            rw [found, Option.some.injEq] at same
            exact same ▸ newer) (fun none => by rw [found] at none; simp at none)
        rw [found] at taken
        exact taken accounts after
      · simp only [decide_eq_false newer, Bool.not_false, ↓reduceIte]
        exact ⟨_, _, rfl, .stale current own found (by omega)⟩
    | none =>
      rw [found] at followed accounts after
      simp only [bind, Option.bind, Bool.not_true, Bool.false_eq_true, ↓reduceIte,
        Option.isNone_none, Bool.true_and, decide_eq_true_eq]
      by_cases full : t.max ≤ t.known
      · simp only [full, ↓reduceIte]
        by_cases fits : t.refused + 1 ≤ u64Max
        · left
          simp only [addU64, if_pos fits]
          exact ⟨_, _, rfl, .refused own found full⟩
        · right
          simp only [addU64, if_neg fits]
          exact ⟨trivial, own, trivial, trivial, by omega⟩
      · left
        simp only [full, ↓reduceIte, followed]
        refine ⟨_, _, rfl, ?_⟩
        have taken : _ → _ → t.Outcome update now _ _ := Outcome.taken live changes own
          (fun other same => by rw [found] at same; simp at same) (fun _ => by omega)
        rw [found] at taken
        exact taken accounts after

namespace MemberTable.Outcome
variable {t t' : MemberTable} {update : Update} {now : Nat} {applied : Applied}

theorem wellFormed (wf : t.WellFormed) (h : t.Outcome update now applied t') : t'.WellFormed := by
  cases h with
  | taken live changes distinct newer room accounts after => exact after
  | _ => exact ⟨wf.ascending, wf.live_iff, wf.stranger⟩

theorem accounts (h : t.Outcome update now applied t') : Accounts t t' := by
  cases h with
  | taken live changes distinct newer room accounts after => exact accounts
  | _ => exact ⟨[], by simp, rfl⟩

theorem localId (h : t.Outcome update now applied t') : t'.localId = t.localId := by
  cases h <;> rfl

theorem max (h : t.Outcome update now applied t') : t'.max = t.max := by
  cases h <;> rfl

theorem keeps_known (h : t.Outcome update now applied t') {peer : PeerId}
    (known : t.members[peer]?.isSome) : t'.members[peer]?.isSome := by
  cases h with
  | taken live changes distinct newer room accounts after =>
    rw [ExtTreeMap.getElem?_insert]
    split <;> simp_all
  | _ => exact known

theorem known_le (h : t.Outcome update now applied t') :
    t'.known ≤ t.known ∨ t'.known ≤ t.max := by
  cases h with
  | taken live changes distinct newer room accounts after =>
    simp only [known, ExtTreeMap.size_insert] at *
    split
    · exact Or.inl (Nat.le_refl _)
    · rename_i stranger
      right
      have none : t.members[update.member]? = none := by
        exact ExtTreeMap.getElem?_eq_none fun mem => stranger (ExtTreeMap.mem_iff_contains.mp mem)
      have := room none
      omega
  | _ => exact Or.inl (Nat.le_refl _)

theorem inert (h : t.Outcome update now applied t')
    (unused : applied = .ignored ∨ applied = .refused) :
    t'.members = t.members ∧ t'.live = t.live ∧ t'.changes = t.changes := by
  cases h with
  | taken | answered | outbid => simp at unused
  | _ => exact ⟨rfl, rfl, rfl⟩

end MemberTable.Outcome

theorem MemberTable.apply_spec {t t' : MemberTable} (wf : t.WellFormed) {update : Update}
    {now : Nat} {applied : Applied} (h : t.apply update now = some (applied, t')) :
    t.Outcome update now applied t' := by
  rcases t.apply_outcome wf update now with ⟨other, u, result, outcome⟩ | ⟨failed, _⟩
  · rw [h, Option.some.injEq, Prod.mk.injEq] at result
    obtain ⟨rfl, rfl⟩ := result
    exact outcome
  · rw [h] at failed
    simp at failed

/- News of a member known, or of this node, is never refused. -/
theorem MemberTable.apply_known {t : MemberTable} (wf : t.WellFormed) (update : Update)
    (now : Nat) (known : t.members[update.member]?.isSome) :
    ∃ applied t', t.apply update now = some (applied, t') := by
  rcases t.apply_outcome wf update now with ⟨applied, t', h, _⟩ | ⟨_, _, stranger, _⟩
  · exact ⟨applied, t', h⟩
  · rw [stranger] at known
    simp at known

/- What each operation keeps of a table. -/
structure Keeps (t t' : MemberTable) : Prop where
  wellFormed : t'.WellFormed
  accounts : Accounts t t'
  localId : t'.localId = t.localId
  known_le : t'.known ≤ t.known ∨ t'.known ≤ t.max

theorem Keeps.refl {t : MemberTable} (wf : t.WellFormed) : Keeps t t :=
  ⟨wf, Accounts.refl t, rfl, Or.inl (Nat.le_refl _)⟩

theorem MemberTable.Outcome.keeps {t t' : MemberTable} {update : Update} {now : Nat}
    {applied : Applied} (wf : t.WellFormed) (h : t.Outcome update now applied t') :
    Keeps t t' :=
  ⟨h.wellFormed wf, h.accounts, h.localId, h.known_le⟩

theorem MemberTable.depart_members (t : MemberTable) (peer other : PeerId) :
    (t.depart peer).2.members[other]? = t.members[other]?.map fun member =>
      if other = peer ∧ member.status = .dead then { member with departed := true }
      else member := by
  unfold depart
  cases found : t.members[peer]? with
  | none =>
    cases same : t.members[other]? with
    | none => simp
    | some member =>
      have distinct : other ≠ peer := by
        rintro rfl
        rw [found] at same
        simp at same
      simp [distinct]
  | some member =>
    dsimp only
    by_cases same : other = peer
    · subst same
      cases member with
      | mk addr incarnation status since joined departed =>
        cases status <;> cases departed <;> simp [found]
    · split <;> simp [ExtTreeMap.getElem?_insert, same, Ne.symm same]

theorem MemberTable.depart_unmarked (t : MemberTable) {peer : PeerId}
    (unmarked : (t.depart peer).1 = false) : (t.depart peer).2 = t := by
  unfold depart at unmarked ⊢
  split
  · rename_i member found
    rw [found] at unmarked
    dsimp only at unmarked ⊢
    split at unmarked
    · simp at unmarked
    · rename_i kept
      rw [if_neg kept]
  · rfl

theorem MemberTable.depart_frame (t : MemberTable) (peer : PeerId) :
    (t.depart peer).2 = { t with members := (t.depart peer).2.members } ∧
      (t.depart peer).2.members.size = t.members.size := by
  unfold depart
  cases found : t.members[peer]? with
  | none => exact ⟨rfl, rfl⟩
  | some member =>
    dsimp only
    split
    · refine ⟨rfl, ?_⟩
      have known : t.members.contains peer := by
        rw [← ExtTreeMap.isSome_getElem?_eq_contains, found]
        rfl
      simp [ExtTreeMap.size_insert, known]
    · exact ⟨rfl, rfl⟩

theorem MemberTable.depart_keeps {t : MemberTable} (wf : t.WellFormed) (peer : PeerId) :
    Keeps t (t.depart peer).2 := by
  obtain ⟨frame, size⟩ := t.depart_frame peer
  have live : (t.depart peer).2.live = t.live := by rw [frame]
  have localId : (t.depart peer).2.localId = t.localId := by rw [frame]
  have changes : (t.depart peer).2.changes = t.changes := by rw [frame]
  refine ⟨⟨by rw [live]; exact wf.ascending, fun other => ?_, ?_⟩,
    ⟨[], by simp [changes], by rw [live]; rfl⟩, localId, Or.inl (by simp [known, size])⟩
  · rw [live, wf.live_iff, t.depart_members]
    cases t.members[other]? with
    | none => simp
    | some member =>
      by_cases marked : other = peer ∧ member.status = .dead
      · simp [marked, Member.isLive]
      · simp [marked]
  · rw [localId, t.depart_members, wf.stranger]
    rfl

theorem MemberTable.forgetDead_members (t : MemberTable) (now ttl : Nat) (peer : PeerId) :
    (t.forgetDead now ttl).2.members[peer]? =
      t.members[peer]?.filter (·.remembered now ttl) := by
  simp [forgetDead, ExtTreeMap.getElem?_filter]

theorem MemberTable.forgetDead_keeps {t : MemberTable} (wf : t.WellFormed) (now ttl : Nat) :
    Keeps t (t.forgetDead now ttl).2 := by
  refine ⟨⟨wf.ascending, fun peer => ?_, ?_⟩, ⟨[], by simp [forgetDead], rfl⟩, rfl, Or.inl ?_⟩
  · change peer ∈ t.live ↔ _
    rw [wf.live_iff, t.forgetDead_members]
    cases t.members[peer]? with
    | none => simp
    | some member =>
      simp only [Option.some.injEq, exists_eq_left', Option.filter_some]
      cases live : member.isLive
      · simp [Option.ite_none_right_eq_some, live]
      · have : member.remembered now ttl = true := by
          unfold Member.remembered
          unfold Member.isLive at live
          rw [live, Bool.true_or]
        simp [this, live]
  · rw [t.forgetDead_members]
    change Option.filter _ t.members[t.localId]? = none
    rw [wf.stranger]
    rfl
  · exact Nat.add_le_add_right ExtTreeMap.size_filter_le_size 1

theorem MemberTable.suspect_spec {t : MemberTable} (wf : t.WellFormed) {peer : PeerId}
    (distinct : peer ≠ t.localId) (now : Nat) :
    ∃ news t', t.suspect peer now = some (news, t') ∧
      ((news = none ∧ t' = t) ∨
        ∃ member applied, t.members[peer]? = some member ∧ member.status = .alive ∧
          news = some (member.accused peer .suspect) ∧
          t.Outcome (member.accused peer .suspect) now applied t') := by
  unfold suspect
  simp only [distinct, ↓reduceIte]
  cases found : t.members[peer]? with
  | none => exact ⟨none, t, rfl, Or.inl ⟨rfl, rfl⟩⟩
  | some member =>
    dsimp only
    split
    · rename_i alive
      have known : t.members[(member.accused peer .suspect).member]?.isSome := by
        change t.members[peer]?.isSome = true
        rw [found]
        rfl
      obtain ⟨applied, t', h⟩ := apply_known wf (member.accused peer .suspect) now known
      refine ⟨_, t', by simp only [bind, Option.bind, h], Or.inr
        ⟨member, applied, rfl, alive, rfl, apply_spec wf h⟩⟩
    · exact ⟨none, t, rfl, Or.inl ⟨rfl, rfl⟩⟩

/- A list of news of members known: each is applied, none is refused. -/
theorem MemberTable.applyAll_spec {P : MemberTable → Prop} (updates : List Update) (now : Nat)
    (step : ∀ t t' update applied, update ∈ updates → P t → t.WellFormed →
      t.Outcome update now applied t' → P t') {t : MemberTable} (wf : t.WellFormed) (start : P t)
    (known : ∀ update ∈ updates, t.members[update.member]?.isSome) :
    ∃ t', t.applyAll updates now = some t' ∧ P t' ∧ t'.WellFormed := by
  induction updates generalizing t with
  | nil => exact ⟨t, rfl, start, wf⟩
  | cons update rest ih =>
    obtain ⟨applied, u, h⟩ := apply_known wf update now (known update List.mem_cons_self)
    have outcome := apply_spec wf h
    obtain ⟨t', applyRest, held, after⟩ := ih
      (fun t t' other applied mem => step t t' other applied (List.mem_cons_of_mem _ mem))
      (outcome.wellFormed wf) (step t u update applied List.mem_cons_self start wf outcome)
      fun other mem => outcome.keeps_known (known other (List.mem_cons_of_mem _ mem))
    refine ⟨t', ?_, held, after⟩
    simpa [applyAll, h] using applyRest

theorem MemberTable.mem_expired {t : MemberTable} {now timeout : Nat} {update : Update}
    (mem : update ∈ t.expired now timeout) :
    ∃ member, t.members[update.member]? = some member ∧ member.status = .suspect ∧
      timeout ≤ now - member.since ∧ update = member.accused update.member .dead := by
  obtain ⟨⟨peer, member⟩, listed, rfl⟩ := List.mem_map.mp mem
  obtain ⟨known, due⟩ := List.mem_filter.mp listed
  rw [ExtTreeMap.mem_toList_iff_getElem?_eq_some] at known
  simp only [Bool.and_eq_true, decide_eq_true_eq] at due
  exact ⟨member, known, due.1, due.2, rfl⟩

theorem MemberTable.expireSuspects_spec {P : MemberTable → Prop} (now timeout : Nat)
    {t : MemberTable}
    (step : ∀ u u' member update applied, t.members[update.member]? = some member →
      member.status = .suspect → timeout ≤ now - member.since →
      update = member.accused update.member .dead →
      P u → u.WellFormed → u.Outcome update now applied u' → P u')
    (wf : t.WellFormed) (pos : 0 < timeout) (start : P t) :
    ∃ t', t.expireSuspects now timeout = some (t.expired now timeout, t') ∧ P t' ∧
      t'.WellFormed := by
  obtain ⟨t', applied, held, after⟩ := applyAll_spec (P := P) (t.expired now timeout) now
    (fun u u' update applied mem held wfU outcome => by
      obtain ⟨member, found, suspect, due, eq⟩ := mem_expired mem
      exact step u u' member update applied found suspect due eq held wfU outcome)
    wf start (fun update mem => by
      obtain ⟨member, found, _⟩ := mem_expired mem
      simp [found])
  refine ⟨t', ?_, held, after⟩
  rw [expireSuspects, if_pos pos, applied]
  rfl

inductive MemberOp where
  | apply (update : Update)
  | suspect (peer : PeerId)
  | depart (peer : PeerId)
  | forgetDead (ttl : Nat)
  | expireSuspects (timeout : Nat)
  | setMax (max : Nat)
  | drainChanges

/- What the caller of the operation promises. -/
def MemberOp.Proper (localId : PeerId) : MemberOp → Prop
  | .suspect peer => peer ≠ localId
  | .expireSuspects timeout => 0 < timeout
  | .setMax max => 1 ≤ max
  | _ => True

/- The table, the changes drained from it so far, and the members known when its cap was
   last set. -/
structure Watched where
  table : MemberTable
  drained : List Change
  knownAtCap : Nat

def Watched.start (localId : PeerId) (addr : Address) : Watched :=
  ⟨.new localId addr, [], (MemberTable.new localId addr).known⟩

def Watched.step (w : Watched) (now : Nat) : MemberOp → Option Watched
  | .apply update => (w.table.apply update now).map fun result => { w with table := result.2 }
  | .suspect peer => (w.table.suspect peer now).map fun result => { w with table := result.2 }
  | .depart peer => some { w with table := (w.table.depart peer).2 }
  | .forgetDead ttl => some { w with table := (w.table.forgetDead now ttl).2 }
  | .expireSuspects timeout =>
    (w.table.expireSuspects now timeout).map fun result => { w with table := result.2 }
  | .setMax max =>
    (w.table.setMax max).map fun table => { w with table, knownAtCap := w.table.known }
  | .drainChanges =>
    some { w with table := w.table.drainChanges.2, drained := w.drained ++ w.table.drainChanges.1 }

def Watched.run (w : Watched) (ops : List (Nat × MemberOp)) : Option Watched :=
  ops.foldlM (fun w op => w.step op.1 op.2) w

structure Watched.Sound (w : Watched) (localId : PeerId) : Prop where
  wellFormed : w.table.WellFormed
  localId : w.table.localId = localId
  replayed : replay ∅ (w.drained ++ w.table.changes) = some w.table.live.toFinset
  bounded : w.table.known ≤ max w.table.max w.knownAtCap

theorem Watched.start_sound (localId : PeerId) (addr : Address) :
    (Watched.start localId addr).Sound localId :=
  ⟨MemberTable.new_wellFormed localId addr, rfl, rfl, le_max_right _ _⟩

theorem Watched.Sound.kept {w : Watched} {localId : PeerId} (sound : w.Sound localId)
    {table : MemberTable} (keeps : Keeps w.table table) (max : table.max = w.table.max) :
    ({ w with table } : Watched).Sound localId := by
  refine ⟨keeps.wellFormed, keeps.localId.trans sound.localId, ?_, ?_⟩
  · obtain ⟨logged, changes, replayed⟩ := keeps.accounts
    rw [changes, ← List.append_assoc, replay_append, sound.replayed, Option.bind_some, replayed]
  · have bounded := sound.bounded
    have le := keeps.known_le
    simp only [max] at *
    omega

theorem Keeps.trans {t u v : MemberTable} (first : Keeps t u) (second : Keeps u v)
    (max : u.max = t.max) : Keeps t v := by
  refine ⟨second.wellFormed, first.accounts.trans second.accounts,
    second.localId.trans first.localId, ?_⟩
  have := first.known_le
  have := second.known_le
  omega

/- The one way a proper operation fails: news of a stranger refused once too often. -/
def Watched.Overflows (w : Watched) (op : MemberOp) : Prop :=
  ∃ update, op = .apply update ∧ update.member ≠ w.table.localId ∧
    w.table.members[update.member]? = none ∧ w.table.max ≤ w.table.known ∧
    u64Max ≤ w.table.refused

theorem Watched.step_sound {w : Watched} {localId : PeerId} (sound : w.Sound localId) (now : Nat)
    (op : MemberOp) (proper : op.Proper localId) :
    (∃ w', w.step now op = some w' ∧ w'.Sound localId) ∨
      (w.step now op = none ∧ w.Overflows op) := by
  have wf := sound.wellFormed
  cases op with
  | apply update =>
    rcases w.table.apply_outcome wf update now with ⟨applied, t', h, outcome⟩ | ⟨failed, overflow⟩
    · exact Or.inl ⟨_, by simp only [step, h, Option.map_some],
        sound.kept (outcome.keeps wf) outcome.max⟩
    · exact Or.inr ⟨by simp only [step, failed, Option.map_none], update, rfl, overflow⟩
  | suspect peer =>
    left
    have distinct : peer ≠ w.table.localId := sound.localId ▸ proper
    obtain ⟨news, t', h, outcome⟩ := MemberTable.suspect_spec wf distinct now
    refine ⟨{ w with table := t' }, by simp only [step, h, Option.map_some], ?_⟩
    rcases outcome with ⟨_, rfl⟩ | ⟨member, applied, _, _, _, outcome⟩
    · exact sound
    · exact sound.kept (outcome.keeps wf) outcome.max
  | depart peer =>
    have frame := (w.table.depart_frame peer).1
    exact Or.inl ⟨_, rfl, sound.kept (MemberTable.depart_keeps wf peer) (by rw [frame])⟩
  | forgetDead ttl =>
    exact Or.inl ⟨_, rfl, sound.kept (MemberTable.forgetDead_keeps wf now ttl) rfl⟩
  | expireSuspects timeout =>
    left
    obtain ⟨t', h, ⟨keeps, max⟩, _⟩ := MemberTable.expireSuspects_spec now timeout
      (P := fun t => Keeps w.table t ∧ t.max = w.table.max)
      (fun u u' _ _ _ _ _ _ _ held wfU outcome =>
        ⟨held.1.trans (outcome.keeps wfU) held.2, outcome.max.trans held.2⟩)
      wf proper ⟨Keeps.refl wf, rfl⟩
    exact ⟨_, by simp only [step, h, Option.map_some], sound.kept keeps max⟩
  | setMax max =>
    left
    have lifted : w.table.setMax max = some { w.table with max } := if_pos proper
    refine ⟨{ w with table := { w.table with max }, knownAtCap := w.table.known },
      by simp only [step, lifted, Option.map_some], ⟨wf.ascending, wf.live_iff, wf.stranger⟩, sound.localId, sound.replayed, le_max_right _ _⟩
  | drainChanges =>
    left
    refine ⟨_, rfl, ⟨wf.ascending, wf.live_iff, wf.stranger⟩, sound.localId, ?_, sound.bounded⟩
    simpa [MemberTable.drainChanges] using sound.replayed

theorem Watched.run_sound {w w' : Watched} {localId : PeerId} (sound : w.Sound localId)
    {ops : List (Nat × MemberOp)} (proper : ∀ op ∈ ops, op.2.Proper localId)
    (h : w.run ops = some w') : w'.Sound localId := by
  induction ops generalizing w with
  | nil =>
    simp only [run, List.foldlM_nil, Option.pure_def, Option.some.injEq] at h
    exact h ▸ sound
  | cons op rest ih =>
    simp only [run, List.foldlM_cons, bind, Option.bind_eq_some_iff] at h
    obtain ⟨u, first, h⟩ := h
    rcases w.step_sound sound op.1 op.2 (proper op List.mem_cons_self) with
      ⟨u', same, soundU⟩ | ⟨failed, _⟩
    · rw [first, Option.some.injEq] at same
      exact ih (same ▸ soundU) (fun op mem => proper op (List.mem_cons_of_mem _ mem)) h
    · rw [first] at failed
      simp at failed

/-- Over any run of proper operations: the live list is the ascending list of the members not
    dead, without this node; the changes drained and pending replay to it; the members known
    stay within the cap or what was known when it was set; news ignored or refused is inert;
    and no expect fails, only the count of refusals may overflow. -/
theorem member_table_invariant (localId : PeerId) (addr : Address) (ops : List (Nat × MemberOp))
    (proper : ∀ op ∈ ops, op.2.Proper localId) (w : Watched)
    (h : (Watched.start localId addr).run ops = some w) :
    (Ascending w.table.live ∧
      (∀ peer, peer ∈ w.table.live ↔
        ∃ member, w.table.members[peer]? = some member ∧ member.status ≠ .dead) ∧
      localId ∉ w.table.live) ∧
    replay ∅ (w.drained ++ w.table.changes) = some w.table.live.toFinset ∧
    w.table.known ≤ max w.table.max w.knownAtCap ∧
    (∀ update now applied t', w.table.apply update now = some (applied, t') →
      applied = .ignored ∨ applied = .refused →
        t'.members = w.table.members ∧ t'.live = w.table.live ∧
          t'.changes = w.table.changes) ∧
    (∀ now op, op.Proper localId → w.step now op = none → w.Overflows op) := by
  have sound := Watched.run_sound (Watched.start_sound localId addr) proper h
  have wf := sound.wellFormed
  refine ⟨⟨wf.ascending, fun peer => ?_, ?_⟩, sound.replayed, sound.bounded, ?_, ?_⟩
  · simpa [Member.isLive] using wf.live_iff peer
  · simpa [sound.localId] using wf.notMem_live
  · intro update now applied t' result unused
    exact (MemberTable.apply_spec wf result).inert unused
  · intro now op properOp failed
    rcases w.step_sound sound now op properOp with ⟨w', ok, _⟩ | ⟨_, overflows⟩
    · rw [failed] at ok
      simp at ok
    · exact overflows

/- A member joins, is suspected, dies, is forgotten and is a stranger again. -/
def returnOps : List (Nat × MemberOp) :=
  let addr : Address := .v4 (Vector.replicate 4 10) 7946
  [(1, .apply ⟨1, addr, 0, .alive⟩), (2, .suspect 1), (3, .apply ⟨0, addr, 4, .dead⟩),
   (9, .expireSuspects 5), (9, .drainChanges), (9, .depart 1), (20, .forgetDead 10),
   (21, .setMax 2), (22, .apply ⟨1, addr, 0, .suspect⟩), (22, .apply ⟨2, addr, 0, .alive⟩)]

theorem member_table_invariant_return :
    ∃ w, (Watched.start 0 (.v4 (Vector.replicate 4 10) 7946)).run returnOps = some w ∧
      replay ∅ (w.drained ++ w.table.changes) = some w.table.live.toFinset := by
  have runs : ((Watched.start 0 (.v4 (Vector.replicate 4 10) 7946)).run returnOps).isSome := by
    decide +kernel
  obtain ⟨w, h⟩ := Option.isSome_iff_exists.mp runs
  have proper : ∀ op ∈ returnOps, op.2.Proper 0 := by
    simp [returnOps, MemberOp.Proper]
  exact ⟨w, h, (member_table_invariant 0 _ returnOps proper w h).2.1⟩

end Rateguard
