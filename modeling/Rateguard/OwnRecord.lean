import Rateguard.Convergence

/- News of a node itself, whoever made it: the node's own record outruns it. -/
namespace Rateguard
namespace MemberTable

/- How a table takes one piece of news of its own node: an accusation, and an Alive of a higher
   incarnation, is answered with the record then, which supersedes it. -/
structure Answers (t : MemberTable) (news : Update) (applied : Applied) (t' : MemberTable) : Prop where
  localId : t'.localId = t.localId
  addr : t'.addr = t.addr
  grows : t.incarnation ≤ t'.incarnation
  outruns : news.rank ≤ t'.ownUpdate.rank
  answer : news.status ≠ .alive ∨ t.incarnation < news.incarnation →
    applied = .refuted t'.ownUpdate ∧ t'.ownUpdate.status = .alive ∧
      t'.ownUpdate.supersedes news = some true

theorem ownUpdate_rank (t : MemberTable) : t.ownUpdate.rank = t.incarnation.toNat * 3 := rfl

theorem Outcome.answers_own {t t' : MemberTable} {news : Update} {now : Nat} {applied : Applied}
    (own : news.member = t.localId) (low : news.incarnation.toNat < 2 ^ 32 - 1)
    (outcome : t.Outcome news now applied t') : t.Answers news applied t' := by
  have supersedes {t' : MemberTable} (same : t'.localId = t.localId)
      (outranks : news.rank < t'.ownUpdate.rank) : t'.ownUpdate.supersedes news = some true := by
    rw [Update.supersedes_eq (same.trans own.symm), decide_eq_true outranks]
  have bounded := news.status.rank_lt
  have own_rank := t.ownUpdate_rank
  have news_rank : news.rank = news.incarnation.toNat * 3 + news.status.rank := rfl
  cases outcome with
  | echoed _ echo =>
    obtain ⟨alive, older⟩ | last := echo
    · refine ⟨rfl, rfl, UInt32.le_refl _, older, ?_⟩
      rintro (accused | higher)
      · exact absurd alive accused
      · have := UInt32.lt_iff_toNat_lt.mp higher
        omega
    · omega
  | answered _ accused older =>
    -- An accusation has no rank of an Alive, so it is older by more than nothing.
    have apart : news.status.rank ≠ Status.alive.rank := fun same => accused (Status.rank_inj same)
    have alive : Status.alive.rank = 0 := rfl
    have outranks : news.rank < t.ownUpdate.rank := by omega
    exact ⟨rfl, rfl, UInt32.le_refl _, older, fun _ => ⟨rfl, rfl, supersedes rfl outranks⟩⟩
  | outbid _ newer fits =>
    have next : (news.incarnation + 1).toNat = news.incarnation.toNat + 1 := by
      rw [UInt32.toNat_add]
      exact Nat.mod_eq_of_lt fits
    have rank := ownUpdate_rank { t with incarnation := news.incarnation + 1 }
    dsimp only at rank
    rw [next] at rank
    refine ⟨rfl, rfl, ?_, by omega, fun _ => ⟨rfl, rfl, supersedes rfl (by omega)⟩⟩
    rw [UInt32.le_iff_toNat_le, next]
    omega
  | stale _ other | refused other | taken _ _ other => exact absurd own other

theorem apply_own {t : MemberTable} {news : Update} (own : news.member = t.localId)
    (low : news.incarnation.toNat < 2 ^ 32 - 1) (now : Nat) :
    ∃ applied t', t.apply news now = some (applied, t') ∧ t.Answers news applied t' := by
  obtain ⟨applied, t', refuted, outcome⟩ := @refute_outcome t news now own
  refine ⟨applied, t', ?_, outcome.answers_own own low⟩
  rw [apply, if_pos own]
  exact refuted

/- News of the table's own node, of an incarnation that can be outbid. -/
def OwnNews (t : MemberTable) (news : List (Nat × Update)) : Prop :=
  ∀ heard ∈ news, heard.2.member = t.localId ∧ heard.2.incarnation.toNat < 2 ^ 32 - 1

theorem hear_snoc {t : MemberTable} (before : List (Nat × Update)) (heard : Nat × Update) :
    t.hear (before ++ [heard]) =
      (t.hear before).bind fun t => (t.apply heard.2 heard.1).map (·.2) := by
  simp [hear]

/- What the record is after any news of its own node. -/
structure Outran (t : MemberTable) (news : List (Nat × Update)) (t' : MemberTable) : Prop where
  localId : t'.localId = t.localId
  addr : t'.addr = t.addr
  grows : t.incarnation ≤ t'.incarnation
  outruns : ∀ heard ∈ news, heard.2.rank ≤ t'.ownUpdate.rank

theorem hear_own {t : MemberTable} {news : List (Nat × Update)} (own : t.OwnNews news) :
    ∃ t', t.hear news = some t' ∧ t.Outran news t' := by
  induction news using List.reverseRecOn with
  | nil => exact ⟨t, rfl, rfl, rfl, UInt32.le_refl _, fun _ mem => absurd mem List.not_mem_nil⟩
  | append_singleton before heard ih =>
    obtain ⟨t₁, heard₁, outran⟩ := ih fun h mem => own h (List.mem_append_left _ mem)
    obtain ⟨mine, low⟩ := own heard (List.mem_append_right _ List.mem_cons_self)
    obtain ⟨applied, t₂, taken, answers⟩ := apply_own (mine.trans outran.localId.symm) low heard.1
    refine ⟨t₂, by rw [hear_snoc, heard₁, Option.bind_some, taken, Option.map_some], ?_⟩
    refine ⟨answers.localId.trans outran.localId, answers.addr.trans outran.addr,
      UInt32.le_trans outran.grows answers.grows, fun h mem => ?_⟩
    rcases List.mem_append.mp mem with old | new
    · have before := outran.outruns h old
      have grown := UInt32.le_iff_toNat_le.mp answers.grows
      rw [ownUpdate_rank] at before ⊢
      omega
    · rw [List.mem_singleton.mp new]
      exact answers.outruns

/- News the record does not supersede says of the node what the record says. -/
theorem outran_or_said {t' : MemberTable} {news : Update} (own : news.member = t'.localId)
    (outruns : news.rank ≤ t'.ownUpdate.rank) : t'.ownUpdate.supersedes news = some true ∨
      (t'.ownUpdate.incarnation = news.incarnation ∧ t'.ownUpdate.status = news.status ∧
        (news.addr = t'.addr → t'.ownUpdate = news)) := by
  rw [Update.supersedes_eq own.symm]
  rcases Nat.lt_or_ge news.rank t'.ownUpdate.rank with outranks | same
  · exact .inl (by rw [decide_eq_true outranks])
  · have rank : t'.ownUpdate.rank = news.rank := Nat.le_antisymm same outruns
    refine .inr ?_
    have said : t'.ownUpdate = { news with addr := t'.addr } := Update.eq_of_rank own.symm rfl rank
    exact ⟨congrArg (·.incarnation) said, congrArg (·.status) said,
      fun addr => said.trans (by rw [← addr])⟩

/-- Whatever is said of a node, in any order and however often: its incarnation only grows, every
    accusation and every Alive of a higher incarnation is answered at once with the record then,
    which supersedes it, and in the end no news supersedes the record. -/
theorem own_record_wins {t : MemberTable} {news : List (Nat × Update)} (own : t.OwnNews news) :
    (∀ before heard after, news = before ++ heard :: after → ∃ t₁ applied t₂,
      t.hear before = some t₁ ∧ t₁.apply heard.2 heard.1 = some (applied, t₂) ∧
        t.hear (before ++ [heard]) = some t₂ ∧ t₁.Answers heard.2 applied t₂) ∧
      ∃ t', t.hear news = some t' ∧ t.incarnation ≤ t'.incarnation ∧
        ∀ heard ∈ news, t'.ownUpdate.supersedes heard.2 = some true ∨
          (t'.ownUpdate.incarnation = heard.2.incarnation ∧
            t'.ownUpdate.status = heard.2.status ∧
            (heard.2.addr = t.addr → t'.ownUpdate = heard.2)) := by
  constructor
  · rintro before heard after rfl
    obtain ⟨t₁, heard₁, outran⟩ := hear_own fun h mem => own h (List.mem_append_left _ mem)
    obtain ⟨mine, low⟩ := own heard (List.mem_append_right _ List.mem_cons_self)
    obtain ⟨applied, t₂, taken, answers⟩ := apply_own (mine.trans outran.localId.symm) low heard.1
    refine ⟨t₁, applied, t₂, heard₁, taken, ?_, answers⟩
    rw [hear_snoc, heard₁, Option.bind_some, taken, Option.map_some]
  · obtain ⟨t', heard, outran⟩ := hear_own own
    refine ⟨t', heard, outran.grows, fun h mem => ?_⟩
    have said := outran_or_said ((own h mem).1.trans outran.localId.symm) (outran.outruns h mem)
    rwa [outran.addr] at said

/- A node accused, then told of an earlier life's later record. -/
def homeAddress : Address := .v4 (.replicate 4 10) 7946

def rumours : List (Nat × Update) :=
  [(1, ⟨1, homeAddress, 3, .suspect⟩), (2, ⟨1, homeAddress, 1, .dead⟩),
    (2, ⟨1, homeAddress, 9, .alive⟩)]

theorem own_record_wins_rumours : ∃ t', (MemberTable.new 1 homeAddress).hear rumours = some t' ∧
    ∀ heard ∈ rumours, t'.ownUpdate.supersedes heard.2 = some true ∨ t'.ownUpdate = heard.2 := by
  have own : (MemberTable.new 1 homeAddress).OwnNews rumours := by
    unfold OwnNews rumours
    decide
  obtain ⟨_, t', heard, _, said⟩ := own_record_wins own
  refine ⟨t', heard, fun h mem => (said h mem).imp_right fun same => same.2.2 ?_⟩
  simp only [rumours, List.mem_cons, List.not_mem_nil, or_false] at mem
  rcases mem with rfl | rfl | rfl
  · rfl
  · rfl
  · rfl

/- News that has the node elsewhere, at the incarnation it is at, neither is the record nor is
   superseded by it. -/
theorem own_record_elsewhere : ¬ ∀ (t : MemberTable) (news : List (Nat × Update)),
    t.OwnNews news → ∃ t', t.hear news = some t' ∧
      ∀ heard ∈ news, t'.ownUpdate = heard.2 ∨ t'.ownUpdate.supersedes heard.2 = some true := by
  intro holds
  let elsewhere : Update := ⟨1, .v4 #v[10, 0, 0, 2] 7946, 0, .alive⟩
  obtain ⟨t', heard, said⟩ := holds (.new 1 homeAddress) [(0, elsewhere)] (by
    unfold OwnNews
    decide)
  have same : some t' = some (MemberTable.new 1 homeAddress) := heard.symm.trans (by rfl)
  rw [Option.some.inj same] at said
  have absurd := said (0, elsewhere) List.mem_cons_self
  revert absurd
  decide

end MemberTable
end Rateguard
