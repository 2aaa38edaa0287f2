import Rateguard.ProbeOrder
import Rateguard.SideTables

/- What traffic queues in a node: the relays it keeps, its probe order and its gossip, and when
   they are no more than the members it knows. -/
namespace Rateguard
open Std (ExtTreeMap)

theorem size_le_of_keys {β γ : Type} {one : ExtTreeMap UInt64 β} {two : ExtTreeMap UInt64 γ}
    (keys : ∀ key : UInt64, one[key]?.isSome → two[key]?.isSome) : one.size ≤ two.size := by
  rw [← ExtTreeMap.length_keys, ← ExtTreeMap.length_keys]
  refine (List.subperm_of_subset ExtTreeMap.nodup_keys fun key mem => ?_).length_le
  rw [ExtTreeMap.mem_keys, ExtTreeMap.mem_iff_isSome_getElem?] at mem ⊢
  exact keys key mem

theorem length_le_of_keys {β : Type} {items : List UInt64} {map : ExtTreeMap UInt64 β}
    (distinct : items.Nodup) (keys : ∀ key ∈ items, map[key]?.isSome) :
    items.length ≤ map.size := by
  rw [← ExtTreeMap.length_keys]
  refine (List.subperm_of_subset distinct fun key mem => ?_).length_le
  rw [ExtTreeMap.mem_keys, ExtTreeMap.mem_iff_isSome_getElem?]
  exact keys key mem

theorem take_insertIdx {α : Type} (items : List α) (next offset : Nat) (item : α) :
    (items.insertIdx (next + offset) item).take next = items.take next := by
  induction next generalizing items with
  | zero => simp
  | succ next ih =>
    rw [show next + 1 + offset = next + offset + 1 by omega]
    cases items with
    | nil => simp
    | cons first rest =>
      rw [List.insertIdx_succ_cons, List.take_succ_cons, List.take_succ_cons, ih]

theorem MemberTable.Recalls.known_le {t t' : MemberTable} (recalls : t.Recalls t') :
    t.known ≤ t'.known :=
  Nat.add_le_add_right (size_le_of_keys recalls) 1

theorem MemberTable.follow_joined {t t' : MemberTable} {peer : PeerId} {wasLive isLive : Bool}
    (h : t.follow peer wasLive isLive = some t') : t'.members = t.members ∧
      ∀ other, .joined other ∈ t'.changes → .joined other ∈ t.changes ∨
        other = peer ∧ wasLive = false ∧ isLive = true := by
  unfold follow at h
  split at h
  · split at h
    · obtain rfl := Option.some.inj h
      refine ⟨rfl, fun other joined => ?_⟩
      rcases List.mem_append.mp joined with old | new
      · exact .inl old
      · exact .inr ⟨by simpa using new, rfl, rfl⟩
    · simp at h
  · split at h
    · obtain rfl := Option.some.inj h
      exact ⟨rfl, fun other joined => .inl (by simpa using joined)⟩
    · simp at h
  · obtain rfl := Option.some.inj h
    exact ⟨rfl, fun _ => .inl⟩

theorem MemberTable.refute_joined {t t' : MemberTable} {update : Update} {applied : Applied}
    (h : t.refute update = some (applied, t')) : t'.changes = t.changes := by
  simp only [refute, bind, Option.bind_eq_some_iff] at h
  obtain ⟨newer, _, h⟩ := h
  split at h
  · split at h <;> simp only [Option.some.injEq, Prod.mk.injEq] at h <;> exact h.2 ▸ rfl
  · split at h <;> simp only [Option.some.injEq, Prod.mk.injEq] at h <;> exact h.2 ▸ rfl

/- A joining logged by news is of a peer it makes live. -/
theorem MemberTable.apply_joined {t t' : MemberTable} {update : Update} {now : Nat}
    {applied : Applied} (h : t.apply update now = some (applied, t')) {peer : PeerId}
    (joined : .joined peer ∈ t'.changes) : .joined peer ∈ t.changes ∨
      peer = update.member ∧ t'.members[peer]?.isSome ∧ update.status ≠ .dead ∧
        t.members[peer]?.any (·.isLive) = false := by
  have logged (current : Option Member) (same : t.members[update.member]? = current)
      (followed : ({ t with
          members := t.members.insert update.member (record current update now) } :
        MemberTable).follow update.member (current.any (·.isLive)) (update.status != .dead) =
          some t') :
      .joined peer ∈ t.changes ∨ peer = update.member ∧ t'.members[peer]?.isSome ∧
        update.status ≠ .dead ∧ t.members[peer]?.any (·.isLive) = false := by
    obtain ⟨members, changes⟩ := follow_joined followed
    rcases changes peer joined with old | ⟨rfl, dead, live⟩
    · exact .inl old
    · refine .inr ⟨rfl, by simp [members], by simpa using live, ?_⟩
      rw [same]
      exact dead
  unfold apply at h
  dsimp only at h
  split at h
  · exact .inl (refute_joined h ▸ joined)
  · cases found : t.members[update.member]? with
    | some current =>
      simp only [found, bind, Option.bind_eq_some_iff, Option.isNone_some, Bool.false_and,
        Bool.false_eq_true, ↓reduceIte] at h
      obtain ⟨newer, _, h⟩ := h
      split at h
      · simp only [Option.some.injEq, Prod.mk.injEq] at h
        exact .inl (h.2 ▸ joined)
      · simp only [Option.bind_eq_some_iff, Option.some.injEq, Prod.mk.injEq] at h
        obtain ⟨told, followed, _, rfl⟩ := h
        exact logged _ found followed
    | none =>
      simp only [found, bind, Option.bind_some, Bool.not_true, Bool.false_eq_true, ↓reduceIte,
        Option.isNone_none, Bool.true_and] at h
      split at h
      · simp only [Option.bind_eq_some_iff, Option.some.injEq, Prod.mk.injEq] at h
        obtain ⟨refused, _, _, rfl⟩ := h
        exact .inl joined
      · simp only [Option.bind_eq_some_iff, Option.some.injEq, Prod.mk.injEq] at h
        obtain ⟨told, followed, _, rfl⟩ := h
        exact logged _ found followed

/- News that kills, and the suspicion of a live member, log no joining. -/
def MemberTable.JoinsNone (t t' : MemberTable) : Prop :=
  ∀ peer, .joined peer ∈ t'.changes → .joined peer ∈ t.changes

theorem MemberTable.expireSuspects_joinsNone {t t' : MemberTable} {now timeout : Nat}
    {expired : List Update} (h : t.expireSuspects now timeout = some (expired, t')) :
    t.JoinsNone t' := by
  have each : ∀ (updates : List Update) (u : MemberTable), (∀ update ∈ updates, update.status = .dead) →
      u.applyAll updates now = some t' → u.JoinsNone t' := by
    intro updates
    induction updates with
    | nil =>
      intro u _ told
      obtain rfl := Option.some.inj told
      exact fun _ => id
    | cons update rest ih =>
      intro u dead told
      simp only [applyAll, List.foldlM_cons, bind, Option.bind_eq_some_iff,
        Option.map_eq_some_iff] at told
      obtain ⟨v, ⟨⟨applied, _⟩, first, rfl⟩, told⟩ := told
      intro peer joined
      have later := ih _ (fun other mem => dead other (List.mem_cons_of_mem _ mem)) told peer joined
      rcases apply_joined first later with old | ⟨_, _, alive, _⟩
      · exact old
      · exact absurd (dead update List.mem_cons_self) alive
  unfold expireSuspects at h
  split at h
  · simp only [Option.map_eq_some_iff, Prod.mk.injEq] at h
    obtain ⟨after, told, _, rfl⟩ := h
    refine each _ t ?_ told
    intro update mem
    obtain ⟨_, _, _, _, is⟩ := mem_expired mem
    rw [is]
    rfl
  · simp at h

theorem MemberTable.suspect_joinsNone {t t' : MemberTable} {peer : PeerId} {now : Nat}
    {news : Option Update} (h : t.suspect peer now = some (news, t')) : t.JoinsNone t' := by
  unfold suspect at h
  split at h
  · simp at h
  · split at h
    · simp only [Option.some.injEq, Prod.mk.injEq] at h
      exact h.2 ▸ fun _ => id
    · rename_i member found
      split at h
      · rename_i alive
        simp only [bind, Option.bind_eq_some_iff, Option.some.injEq, Prod.mk.injEq] at h
        obtain ⟨⟨applied, after⟩, told, _, rfl⟩ := h
        intro other joined
        rcases apply_joined told joined with old | ⟨same, _, _, dead⟩
        · exact old
        · rw [same] at dead
          change t.members[peer]?.any (·.isLive) = false at dead
          simp [found, Member.isLive, alive] at dead
      · simp only [Option.some.injEq, Prod.mk.injEq] at h
        exact h.2 ▸ fun _ => id

theorem Gossip.push_queue {g g' : Gossip} {update : Update} {taken : Bool}
    (h : g.push update = some (taken, g')) (peer : PeerId) (held : g'.queue[peer]?.isSome) :
    g.queue[peer]?.isSome ∨ peer = update.member := by
  have pushed : g' = g ∨ g' = ⟨g.queue.insert update.member ⟨update, 0⟩⟩ := by
    have each (newer : Bool) (h : (if newer then
        some (true, (⟨g.queue.insert update.member ⟨update, 0⟩⟩ : Gossip)) else some (false, g)) =
          some (taken, g')) :
        g' = g ∨ g' = ⟨g.queue.insert update.member ⟨update, 0⟩⟩ := by
      cases newer with
      | false => exact .inl (Prod.mk.inj (Option.some.inj h)).2.symm
      | true => exact .inr (Prod.mk.inj (Option.some.inj h)).2.symm
    unfold push at h
    cases found : g.queue[update.member]? with
    | none => exact each true (by simpa [found] using h)
    | some pending =>
      simp only [found, bind, Option.bind_eq_some_iff] at h
      obtain ⟨newer, _, h⟩ := h
      exact each newer h
  rcases pushed with rfl | rfl
  · exact .inl held
  · rw [ExtTreeMap.getElem?_insert] at held
    split at held
    · rename_i same
      exact .inr (Std.LawfulEqCmp.eq_of_compare same).symm
    · exact .inl held

namespace Node

/- Whoever the gossip is of, has a joining pending or is in the probe order is a member, and in
   the probe order once. -/
structure Covered (n : Node) : Prop where
  gossip : ∀ peer : PeerId, n.gossip.queue[peer]?.isSome →
    peer = n.members.localId ∨ n.members.members[peer]?.isSome
  joined : ∀ peer, .joined peer ∈ n.members.changes → n.members.members[peer]?.isSome
  order : ∀ peer ∈ n.order, n.members.members[peer]?.isSome
  distinct : n.order.Nodup

theorem Covered.fewer {n n' : Node} (covered : n.Covered)
    (gossip : ∀ peer : PeerId, n'.gossip.queue[peer]?.isSome → n.gossip.queue[peer]?.isSome)
    (members : n'.members = n.members) (order : n'.order = n.order) : n'.Covered := by
  constructor
  · intro peer held
    rw [members]
    exact covered.gossip peer (gossip peer held)
  · rw [members]
    exact covered.joined
  · rw [members, order]
    exact covered.order
  · rw [order]
    exact covered.distinct

/- News told to the table, and nothing yet said of it. -/
theorem Covered.tables {n : Node} {members : MemberTable} (covered : n.Covered)
    (recalls : n.members.Recalls members) (localId : members.localId = n.members.localId)
    (joined : ∀ peer, .joined peer ∈ members.changes →
      .joined peer ∈ n.members.changes ∨ members.members[peer]?.isSome) :
    ({ n with members } : Node).Covered := by
  constructor
  · intro peer held
    rcases covered.gossip peer held with own | known
    · exact .inl (own.trans localId.symm)
    · exact .inr (recalls peer known)
  · intro peer pending
    rcases joined peer pending with old | known
    · exact recalls peer (covered.joined peer old)
    · exact known
  · exact fun peer mem => recalls peer (covered.order peer mem)
  · exact covered.distinct

theorem Covered.told {n : Node} {update : Update} {now : Nat} {applied : Applied}
    {members : MemberTable} (covered : n.Covered) (sound : n.Sound)
    (told : n.members.apply update now = some (applied, members)) :
    ({ n with members } : Node).Covered := by
  have outcome := MemberTable.apply_spec sound.members told
  refine covered.tables outcome.recalls outcome.localId fun peer joined => ?_
  rcases MemberTable.apply_joined told joined with old | ⟨_, known, _⟩
  · exact .inl old
  · exact .inr known

theorem Covered.spread {n n' : Node} {update : Update} (covered : n.Covered)
    (about : update.member = n.members.localId ∨ n.members.members[update.member]?.isSome)
    (h : n.spread update = some n') : n'.Covered := by
  simp only [Node.spread, bind, Option.bind_eq_some_iff, Option.some.injEq] at h
  obtain ⟨⟨taken, gossip⟩, pushed, rfl⟩ := h
  refine ⟨fun peer held => ?_, covered.joined, covered.order, covered.distinct⟩
  rcases Gossip.push_queue pushed peer held with old | rfl
  · exact covered.gossip peer old
  · exact about

theorem spreadAll_queue {n n' : Node} {updates : List Update} (h : n.spreadAll updates = some n')
    (peer : PeerId) (held : n'.gossip.queue[peer]?.isSome) :
    n.gossip.queue[peer]?.isSome ∨ ∃ update ∈ updates, peer = update.member := by
  induction updates generalizing n with
  | nil =>
    obtain rfl := Option.some.inj h
    exact .inl held
  | cons update rest ih =>
    simp only [spreadAll, List.foldlM_cons, bind, Option.bind_eq_some_iff] at h
    obtain ⟨u, first, h⟩ := h
    simp only [Node.spread, bind, Option.bind_eq_some_iff, Option.some.injEq] at first
    obtain ⟨⟨taken, gossip⟩, pushed, rfl⟩ := first
    rcases ih h with before | ⟨other, mem, about⟩
    · rcases Gossip.push_queue pushed peer before with old | about
      · exact .inl old
      · exact .inr ⟨update, List.mem_cons_self, about⟩
    · exact .inr ⟨other, List.mem_cons_of_mem _ mem, about⟩

theorem learn_covered {n n' : Node} {update : Update} {now : Nat} (sound : n.Sound)
    (covered : n.Covered) (h : n.learn update now = some n') : n'.Covered := by
  simp only [learn, bind, Option.bind_eq_some_iff] at h
  obtain ⟨⟨applied, members⟩, told, h⟩ := h
  have outcome := MemberTable.apply_spec sound.members told
  have coveredU := covered.told sound told
  cases applied with
  | ignored =>
    obtain rfl := Option.some.inj h
    exact coveredU
  | refused =>
    dsimp only at h
    split at h
    · obtain rfl := Option.some.inj h
      exact coveredU
    · split at h
      · obtain rfl := Option.some.inj h
        exact ⟨coveredU.gossip, coveredU.joined, coveredU.order, coveredU.distinct⟩
      · rw [refreshCap_frame h]
        exact ⟨coveredU.gossip, coveredU.joined, coveredU.order, coveredU.distinct⟩
  | accepted previous =>
    refine coveredU.spread ?_ h
    cases outcome with
    | taken => exact .inr (by simp)
  | refuted alive =>
    simp only [Option.bind_eq_some_iff] at h
    obtain ⟨conflicts, _, h⟩ := h
    obtain rfl := outcome.sayable.2 alive rfl
    refine Covered.spread ?_ (.inl rfl) h
    exact ⟨coveredU.gossip, coveredU.joined, coveredU.order, coveredU.distinct⟩

theorem learnAll_covered {n n' : Node} {updates : List Update} {now : Nat} (sound : n.Sound)
    (covered : n.Covered) (h : n.learnAll updates now = some n') : n'.Covered := by
  induction updates generalizing n with
  | nil =>
    obtain rfl := Option.some.inj h
    exact covered
  | cons update rest ih =>
    simp only [learnAll, List.foldlM_cons, bind, Option.bind_eq_some_iff] at h
    obtain ⟨u, first, h⟩ := h
    exact ih (learn_sound sound first) (learn_covered sound covered first) h

theorem openRound_covered {n n' : Node} {now : Nat} (sound : n.Sound) (covered : n.Covered)
    (h : n.openRound now = some n') : n'.Covered ∧ n.members.JoinsNone n'.members := by
  simp only [openRound, bind, Option.bind_eq_some_iff] at h
  obtain ⟨nextRoundAt, _, h⟩ := h
  have begun : ({ n with nextRoundAt, lastRound := some now } : Node).Covered :=
    ⟨covered.gossip, covered.joined, covered.order, covered.distinct⟩
  unfold missProbe at h
  split at h
  · obtain rfl := Option.some.inj h
    exact ⟨begun, fun _ => id⟩
  · rename_i missed _
    simp only [bind, Option.bind_eq_some_iff] at h
    obtain ⟨⟨suspicion, members⟩, suspected, h⟩ := h
    have none := MemberTable.suspect_joinsNone suspected
    have recalls := MemberTable.suspect_recalls sound.members suspected
    by_cases own : missed.target = n.members.localId
    · simp [MemberTable.suspect, own] at suspected
    obtain ⟨news, members', same, outcome⟩ := MemberTable.suspect_spec sound.members own now
    rw [suspected, Option.some.injEq, Prod.mk.injEq] at same
    obtain ⟨rfl, rfl⟩ := same
    have localId : members.localId = n.members.localId := by
      rcases outcome with ⟨_, rfl⟩ | ⟨_, _, _, _, _, outcome⟩
      · rfl
      · exact outcome.localId
    have coveredU := begun.tables recalls localId fun peer joined => .inl (none peer joined)
    cases suspicion with
    | none =>
      obtain rfl := Option.some.inj h
      exact ⟨⟨coveredU.gossip, coveredU.joined, coveredU.order, coveredU.distinct⟩, none⟩
    | some suspicion =>
      refine ⟨Covered.spread ?_ (.inr ?_) h, ?_⟩
      · exact ⟨coveredU.gossip, coveredU.joined, coveredU.order, coveredU.distinct⟩
      · rcases outcome with ⟨absent, _⟩ | ⟨member, _, found, _, is, _⟩
        · simp at absent
        · obtain rfl := Option.some.inj is
          exact recalls missed.target (found ▸ rfl)
      · rw [spread_frame h]
        exact none

/- The peers a tick forgets: dead for their time. -/
def forgotten (n : Node) (now : Nat) : List PeerId :=
  (n.members.members.filter fun _ member => !member.remembered now n.swim.tombstoneTtl).keys

/- Whether a tick leaves nothing of whom it forgets: no place in the probe order, no news, no
   joining pending, and no more relays than the members left. -/
def ForgetsAll (n : Node) (now : Nat) : Prop :=
  (∀ peer ∈ n.forgotten now, peer ∉ n.order ∧ n.gossip.queue[peer]? = none ∧
    .joined peer ∉ n.members.changes) ∧
  (n.relays.filter fun _ relay => now < relay.expiresAt).size ≤
    (n.members.members.filter fun _ member => member.remembered now n.swim.tombstoneTtl).size + 1

/- Whether whoever joins is still ahead in the pass, if it is in the probe order. -/
def JoinsAhead (n : Node) : Prop :=
  ∀ peer ∈ joinedBy n.members.changes, peer ∉ n.order.take n.next

/- Whether a message asks for no relay past the members known once its news is. -/
def RelayFits (n : Node) (message : Message) (now : Nat) : Prop :=
  match message with
  | .pingReq _ target updates _ =>
    target = n.members.localId ∨ n.relays.contains (n.seq + 1) = true ∨
      ∀ told ∈ n.members.applyAll updates now, n.relays.size < told.known
  | _ => True

/- The steps that queue nothing past the members known. -/
def Contained (n : Node) : Op → Prop
  | .handle .tick now =>
    n.left = true ∨ n.ForgetsAll now ∧ (now < n.nextRoundAt ∨ n.JoinsAhead)
  | .handle (.messageReceived sender bytes) now =>
    n.left = true ∨ sender = n.members.localId ∨
      ∀ message ∈ (decode bytes).toOption, n.RelayFits message now
  | _ => True

instance (n : Node) (now : Nat) : Decidable (n.ForgetsAll now) :=
  @instDecidableAnd _ _ (List.decidableBAll _ _) (Nat.decLe _ _)

instance (n : Node) : Decidable n.JoinsAhead :=
  List.decidableBAll _ _

instance (n : Node) (message : Message) (now : Nat) : Decidable (n.RelayFits message now) :=
  match message with
  | .pingReq _ _ _ _ => inferInstanceAs (Decidable (_ ∨ _ ∨ ∀ told ∈ _, _))
  | .ping _ _ _ | .ack _ _ _ | .leave _ => .isTrue trivial

instance (n : Node) (op : Op) : Decidable (n.Contained op) :=
  match op with
  | .handle .tick _ => inferInstanceAs (Decidable (_ ∨ _ ∧ (_ ∨ _)))
  | .handle (.messageReceived _ _) _ => inferInstanceAs (Decidable (_ ∨ _ ∨ ∀ message ∈ _, _))
  | .introduce _ _ | .addSeed _ _ | .removeSeed _ | .expectPeers _ | .setPartitionPolicy _
  | .setQuorumMemory _ | .setMaxMembers _ | .record _ _ _ _ | .checkIn _ _ _
  | .checkInTraced _ _ _ _ | .leave _ | .rehash _ => .isTrue trivial

def FoundBefore (t : MemberTable) (now ttl : Nat) (t' : MemberTable) : Prop :=
  ∀ (peer : PeerId) (member : Member), t'.members[peer]? = some member →
    member.remembered now ttl = false → t.members[peer]? = some member

theorem FoundBefore.outcome {t u v : MemberTable} {update : Update} {now ttl : Nat}
    {applied : Applied} (before : FoundBefore t now ttl u) (lasts : 0 < ttl)
    (h : u.Outcome update now applied v) : FoundBefore t now ttl v := by
  intro peer member found gone
  cases h with
  | taken =>
    rw [ExtTreeMap.getElem?_insert] at found
    split at found
    · obtain rfl := Option.some.inj found
      simp [Member.remembered, Rateguard.record, lasts] at gone
    · exact before peer member found gone
  | _ => exact before peer member found gone

/- Whoever dies now is not forgotten now. -/
theorem expireSuspects_foundBefore {t t' : MemberTable} {now timeout ttl : Nat}
    {expired : List Update} (wf : t.WellFormed) (lasts : 0 < ttl)
    (h : t.expireSuspects now timeout = some (expired, t')) : FoundBefore t now ttl t' := by
  by_cases pos : 0 < timeout
  · obtain ⟨after, same, before, _⟩ := MemberTable.expireSuspects_spec
      (P := FoundBefore t now ttl) now timeout
      (fun _ _ _ _ _ _ _ _ _ before _ outcome => before.outcome lasts outcome) wf pos
      (fun _ _ found _ => found)
    rw [h, Option.some.injEq, Prod.mk.injEq] at same
    rw [same.2]
    exact before
  · simp [MemberTable.expireSuspects, pos] at h

theorem mem_forgotten {n : Node} {now : Nat} {peer : PeerId} : peer ∈ n.forgotten now ↔
    ∃ member, n.members.members[peer]? = some member ∧
      member.remembered now n.swim.tombstoneTtl = false := by
  rw [forgotten, ExtTreeMap.mem_keys, ExtTreeMap.mem_iff_isSome_getElem?,
    ExtTreeMap.getElem?_filter', Option.isSome_filter, Option.any_eq_true]
  simp

theorem timeOut_covered {n n' : Node} {now : Nat} (sound : n.Sound)
    (lasts : 0 < n.swim.tombstoneTtl) (covered : n.Covered) (clean : n.ForgetsAll now)
    (h : n.timeOut now = some n') :
    n'.Covered ∧ n.members.JoinsNone n'.members ∧ n'.relays.size ≤ n'.members.known := by
  simp only [timeOut, bind, Option.bind_eq_some_iff, Option.some.injEq] at h
  obtain ⟨⟨expired, members⟩, expires, a, spreads, rfl⟩ := h
  have frame := spreadAll_frame spreads
  have recalls := MemberTable.expireSuspects_recalls sound.members expires
  have none := MemberTable.expireSuspects_joinsNone expires
  obtain ⟨_, self, _⟩ := expireSuspects_sound sound expires
  have suspected : ∀ update ∈ expired, ∃ member,
      n.members.members[update.member]? = some member ∧ member.status = .suspect := by
    unfold MemberTable.expireSuspects at expires
    split at expires
    · simp only [Option.map_eq_some_iff, Prod.mk.injEq] at expires
      obtain ⟨_, _, rfl, _⟩ := expires
      intro update mem
      obtain ⟨member, found, suspect, _⟩ := MemberTable.mem_expired mem
      exact ⟨member, found, suspect⟩
    · simp at expires
  have membersA : a.members = members := by rw [frame]
  have ttl : a.swim.tombstoneTtl = n.swim.tombstoneTtl := by rw [frame]
  have left {peer : PeerId} {member : Member} (found : members.members[peer]? = some member)
      (stays : peer ∉ n.forgotten now) : member.remembered now n.swim.tombstoneTtl = true := by
    by_contra gone
    rw [Bool.not_eq_true] at gone
    have before := expireSuspects_foundBefore sound.members lasts expires peer member found gone
    exact stays (mem_forgotten.mpr ⟨member, before, gone⟩)
  have known {peer : PeerId} (was : members.members[peer]?.isSome)
      (stays : peer ∉ n.forgotten now) :
      (members.forgetDead now n.swim.tombstoneTtl).2.members[peer]?.isSome := by
    obtain ⟨member, found⟩ := Option.isSome_iff_exists.mp was
    rw [MemberTable.forgetDead_members, found]
    simp [left found stays]
  rw [membersA, ttl]
  obtain ⟨gone, few⟩ := clean
  have order : a.order = n.order := by rw [frame]
  refine ⟨⟨?_, ?_, ?_, order ▸ covered.distinct⟩, none, ?_⟩
  · intro peer held
    rcases spreadAll_queue spreads peer held with old | ⟨update, mem, rfl⟩
    · rcases covered.gossip peer old with own | was
      · exact .inl (own.trans self.localId.symm)
      · refine .inr (known (recalls peer was) fun forgot => ?_)
        have cleared : n.gossip.queue[peer]? = .none := (gone peer forgot).2.1
        rw [cleared] at old
        simp at old
    · obtain ⟨member, found, suspect⟩ := suspected update mem
      refine .inr (known (recalls _ (found ▸ rfl)) fun forgot => ?_)
      obtain ⟨held, again, dead⟩ := mem_forgotten.mp forgot
      obtain rfl := Option.some.inj (found.symm.trans again)
      simp [Member.remembered, suspect] at dead
  · intro peer joined
    have old := none peer joined
    refine known (recalls peer (covered.joined peer old)) fun forgot => ?_
    exact (gone peer forgot).2.2 old
  · intro peer mem
    dsimp only at mem
    rw [order] at mem
    refine known (recalls peer (covered.order peer mem)) fun forgot => ?_
    exact (gone peer forgot).1 mem
  · have relays : a.relays = n.relays := by rw [frame]
    rw [relays]
    refine few.trans (Nat.add_le_add_right (size_le_of_keys fun peer kept => ?_) 1)
    rw [ExtTreeMap.getElem?_filter', Option.isSome_filter] at kept
    obtain ⟨member, found, stays⟩ := (Option.any_eq_true _ _).mp kept
    refine known (recalls peer (found ▸ rfl)) fun forgot => ?_
    obtain ⟨held, again, dead⟩ := mem_forgotten.mp forgot
    obtain rfl := Option.some.inj (found.symm.trans again)
    rw [stays] at dead
    simp at dead

/- A peer that joins ahead is put in the rest of the order, where it is not yet. -/
theorem followChange_order {n n' : Node} {now : Nat} {change : Change}
    (h : n.followChange now change = some n') (distinct : n.order.Nodup)
    (ahead : ∀ peer, change = .joined peer → peer ∉ n.order.take n.next) :
    n'.order.Nodup ∧ n'.order.take n'.next = n.order.take n.next ∧
      ∀ peer ∈ n'.order, peer ∈ n.order ∨ change = .joined peer := by
  cases change with
  | left gone =>
    obtain rfl := Option.some.inj h
    exact ⟨distinct, rfl, fun _ => .inl⟩
  | joined newcomer =>
    simp only [followChange] at h
    split at h
    · rename_i within
      split at h
      · obtain rfl := Option.some.inj h
        exact ⟨distinct, rfl, fun _ => .inl⟩
      · rename_i absent
        rw [List.contains_iff_mem] at absent
        split at h
        · rename_i fits
          obtain rfl := Option.some.inj h
          have fresh : newcomer ∉ n.order := by
            rw [← List.take_append_drop n.next n.order, List.mem_append]
            exact not_or.mpr ⟨ahead newcomer rfl, absent⟩
          have perm := List.perm_insertIdx newcomer n.order fits
          refine ⟨perm.nodup_iff.mpr (List.nodup_cons.mpr ⟨fresh, distinct⟩), ?_, ?_⟩
          · exact take_insertIdx n.order n.next _ newcomer
          · intro peer mem
            rcases List.mem_cons.mp (perm.mem_iff.mp mem) with rfl | old
            · exact .inr rfl
            · exact .inl old
        · simp at h
    · simp at h

theorem followChanges_order {n n' : Node} {now : Nat} (h : n.followChanges now = some n')
    (distinct : n.order.Nodup) (ahead : n.JoinsAhead) : n'.order.Nodup ∧
      ∀ peer ∈ n'.order, peer ∈ n.order ∨ .joined peer ∈ n.members.changes := by
  have each : ∀ (changes : List Change) (m : Node), m.order.Nodup →
      (∀ peer, .joined peer ∈ changes → peer ∉ m.order.take m.next) →
      changes.foldlM (fun n change => n.followChange now change) m = some n' →
      n'.order.Nodup ∧ ∀ peer ∈ n'.order, peer ∈ m.order ∨ .joined peer ∈ changes := by
    intro changes
    induction changes with
    | nil =>
      intro m distinct _ h
      obtain rfl := Option.some.inj h
      exact ⟨distinct, fun _ => .inl⟩
    | cons change rest ih =>
      intro m distinct ahead h
      simp only [List.foldlM_cons, bind, Option.bind_eq_some_iff] at h
      obtain ⟨u, first, h⟩ := h
      obtain ⟨distinctU, passed, fromM⟩ := followChange_order first distinct
        fun peer is => ahead peer (is ▸ List.mem_cons_self)
      obtain ⟨distinct', from'⟩ := ih u distinctU
        (fun peer mem => passed ▸ ahead peer (List.mem_cons_of_mem _ mem)) h
      refine ⟨distinct', fun peer mem => ?_⟩
      rcases from' peer mem with old | joined
      · rcases fromM peer old with old | is
        · exact .inl old
        · exact .inr (is ▸ List.mem_cons_self)
      · exact .inr (List.mem_cons_of_mem _ joined)
  refine each _ { n with members := { n.members with changes := [] } } distinct ?_ h
  exact fun peer mem => ahead peer (mem_joinedBy.mpr mem)

theorem chooseTarget_order {n n' : Node} {now : Nat} {target : Option PeerId}
    (h : n.chooseTarget now = some (target, n')) :
    n'.order = n.order ∨ n'.order.Perm n.members.live := by
  have next {m m' : Node} {target : Option PeerId} (h : m.nextTarget = some (target, m')) :
      m'.order = m.order ∨ m'.order.Perm m.members.live := by
    unfold nextTarget takeLive at h
    split at h
    · rename_i taken
      simp only [Prod.mk.injEq] at taken
      obtain ⟨_, rfl⟩ := taken
      simp only [Option.some.injEq, Prod.mk.injEq] at h
      obtain ⟨_, rfl⟩ := h
      exact .inl rfl
    · rename_i taken
      simp only [Prod.mk.injEq] at taken
      obtain ⟨_, rfl⟩ := taken
      simp only [bind, Option.bind_eq_some_iff, Option.some.injEq, Prod.mk.injEq] at h
      obtain ⟨⟨order, rng⟩, shuffled, _, rfl⟩ := h
      exact .inr (Rng.shuffleFrom_perm shuffled)
  simp only [chooseTarget, bind, Option.bind_eq_some_iff] at h
  obtain ⟨⟨lost, u⟩, first, h⟩ := h
  have frameU : u = { n with rng := u.rng } := by
    split at first
    · exact randomLost_frame first
    · simp only [Option.some.injEq, Prod.mk.injEq] at first
      obtain ⟨_, rfl⟩ := first
      rfl
  have orderU : u.order = n.order ∧ u.members = n.members := by
    rw [frameU]
    exact ⟨rfl, rfl⟩
  dsimp only at h
  split at h
  · simp only [Option.bind_eq_some_iff, Option.some.injEq, Prod.mk.injEq] at h
    obtain ⟨_, _, _, rfl⟩ := h
    exact .inl orderU.1
  · simp only [Option.bind_eq_some_iff] at h
    obtain ⟨⟨found, v⟩, second, h⟩ := h
    have chosen := next second
    rw [orderU.1, orderU.2] at chosen
    split at h
    · simp only [Option.some.injEq, Prod.mk.injEq] at h
      obtain ⟨_, rfl⟩ := h
      exact chosen
    · rw [randomLost_frame h]
      exact chosen

theorem round_covered {decay : Nat → Nat → ℚ} {n n' : Node} {now : Nat} (sound : n.Sound)
    (covered : n.Covered) (ahead : n.JoinsAhead) (h : n.round decay now = some n') :
    n'.Covered ∧ n'.relays = n.relays ∧ n.members.known ≤ n'.members.known := by
  obtain ⟨o, opening, sends⟩ := round_sends h
  have known := (openRound_recalls sound opening).known_le
  simp only [round, bind, Option.bind_eq_some_iff] at h
  obtain ⟨a, opened, b, policy, c, shares, d, reported, e, followed, stale, _, ⟨target, f⟩,
    chosen, h⟩ := h
  obtain rfl : o = a := Option.some.inj (opening.symm.trans opened)
  obtain ⟨coveredA, none⟩ := openRound_covered sound covered opened
  have soundA := openRound_sound sound opened
  have frameA := (openRound_frame opened).1
  have frameD := reportDemand_frame reported
  rw [applyShares_frame shares, applyPolicy_frame policy] at frameD
  have frameE := followChanges_frame followed
  have ahead' : d.JoinsAhead := by
    intro peer mem
    rw [frameD] at mem ⊢
    rw [frameA]
    exact ahead peer (mem_joinedBy.mpr (none peer (mem_joinedBy.mp mem)))
  have distinctD : d.order.Nodup := by
    rw [frameD]
    exact coveredA.distinct
  obtain ⟨distinctE, fromD⟩ := followChanges_order followed distinctD ahead'
  have orderE : ∀ peer ∈ e.order, o.members.members[peer]?.isSome := by
    intro peer mem
    rw [frameD] at fromD
    rcases fromD peer mem with old | joined
    · exact coveredA.order peer old
    · exact coveredA.joined peer joined
  have liveE : e.members.live = o.members.live := by rw [frameE, frameD]
  have orderF : f.order.Nodup ∧ ∀ peer ∈ f.order, o.members.members[peer]?.isSome := by
    rcases chooseTarget_order chosen with same | perm
    · exact same ▸ ⟨distinctE, orderE⟩
    · dsimp only at perm
      rw [liveE] at perm
      refine ⟨perm.nodup_iff.mpr soundA.members.ascending.nodup, fun peer mem => ?_⟩
      obtain ⟨member, found, _⟩ := (soundA.members.live_iff peer).mp (perm.mem_iff.mp mem)
      rw [found]
      rfl
  have frameF := chooseTarget_frame chosen
  rw [frameE, frameD] at frameF
  have orderN : n'.order = f.order ∧ n'.relays = f.relays ∧ n'.members = f.members := by
    dsimp only at h
    split at h
    · rw [ping_frame h]
      exact ⟨rfl, rfl, rfl⟩
    · obtain rfl := Option.some.inj h
      exact ⟨rfl, rfl, rfl⟩
  have members : n'.members = { o.members with changes := [] } := by
    rw [orderN.2.2, frameF]
  refine ⟨⟨?_, ?_, ?_, ?_⟩, ?_, ?_⟩
  · intro peer held
    rw [members]
    exact coveredA.gossip peer (sends.gossip peer held)
  · rw [members]
    exact fun _ pending => by simp at pending
  · rw [members, orderN.1]
    exact orderF.2
  · rw [orderN.1]
    exact orderF.1
  · rw [orderN.2.1, frameF, frameA]
  · rw [members]
    exact known

structure WithinMembers (n : Node) : Prop where
  covered : n.Covered
  relays : n.relays.size ≤ n.members.known

theorem tick_within {decay : Nat → Nat → ℚ} {n n' : Node} {now : Nat} (sound : n.Sound)
    (lasts : 0 < n.swim.tombstoneTtl) (within : n.WithinMembers) (clean : n.ForgetsAll now)
    (ahead : now < n.nextRoundAt ∨ n.JoinsAhead) (h : n.tick decay now = some n') :
    n'.WithinMembers := by
  simp only [tick, bind, Option.bind_eq_some_iff] at h
  obtain ⟨b, timed, c, rounds, h⟩ := h
  have frameB := timeOut_frame timed
  obtain ⟨coveredB, none, relaysB⟩ := timeOut_covered sound lasts within.covered clean timed
  have withinC : c.WithinMembers := by
    split at rounds
    · rename_i due
      have nextRoundAt : b.nextRoundAt = n.nextRoundAt := by rw [frameB]
      have order : b.order.take b.next = n.order.take n.next := by rw [frameB]
      have aheadB : b.JoinsAhead := by
        rcases ahead with early | ahead
        · omega
        · intro peer mem
          rw [order]
          exact ahead peer (mem_joinedBy.mpr (none peer (mem_joinedBy.mp mem)))
      obtain ⟨coveredC, relays, known⟩ := round_covered (timeOut_sound sound timed) coveredB aheadB rounds
      exact ⟨coveredC, relays ▸ relaysB.trans known⟩
    · obtain rfl := Option.some.inj rounds
      exact ⟨coveredB, relaysB⟩
  have sends := escalate_sends h
  have frame := escalate_frame h
  have members : n'.members = c.members := by rw [frame]
  refine ⟨withinC.covered.fewer sends.gossip members (by rw [frame]), ?_⟩
  rw [members, frame]
  exact withinC.relays

theorem answer_relays {n n' : Node} {sender : PeerId} {message : Message} {now : Nat}
    (h : n.answer sender message now = some n') : n'.relays.size ≤ n.relays.size ∨
      ∃ seq target updates demand relay, message = .pingReq seq target updates demand ∧
        target ≠ n.members.localId ∧ n'.relays = n.relays.insert (n.seq + 1) relay := by
  cases message with
  | ping seq updates demand =>
    rw [ack_frame h]
    exact .inl (Nat.le_refl _)
  | leave updates => simp [answer] at h
  | ack seq updates demand =>
    left
    simp only [answer, acknowledged] at h
    split at h
    · simp only [bind, Option.bind_eq_some_iff, Option.some.injEq] at h
      obtain ⟨_, _, rfl⟩ := h
      exact Nat.le_refl _
    · split at h
      · split at h
        · simp only [bind, Option.bind_eq_some_iff] at h
          obtain ⟨⟨said, u⟩, out, h⟩ := h
          obtain ⟨bytes, _, rfl⟩ := send_some h
          rw [outgoing_frame out]
          exact ExtTreeMap.size_erase_le
        · obtain rfl := Option.some.inj h
          exact Nat.le_refl _
      · obtain rfl := Option.some.inj h
        exact Nat.le_refl _
  | pingReq seq target updates demand =>
    simp only [answer, relay] at h
    split at h
    · rw [ack_frame h]
      exact .inl (Nat.le_refl _)
    · rename_i other
      simp only [nextSeq, bind, Option.bind_eq_some_iff] at h
      obtain ⟨expiresAt, _, ⟨said, u⟩, out, h⟩ := h
      obtain ⟨bytes, _, rfl⟩ := send_some h
      rw [outgoing_frame out]
      exact .inr ⟨seq, target, updates, demand, _, rfl, other, rfl⟩

theorem learnAll_told {n n' : Node} {updates : List Update} {now : Nat}
    (h : n.learnAll updates now = some n') :
    n.members.applyAll updates now = some n'.members := by
  induction updates generalizing n with
  | nil =>
    obtain rfl := Option.some.inj h
    rfl
  | cons update rest ih =>
    simp only [learnAll, List.foldlM_cons, bind, Option.bind_eq_some_iff] at h
    obtain ⟨u, first, h⟩ := h
    obtain ⟨applied, told⟩ := learn_members first
    simp only [MemberTable.applyAll, List.foldlM_cons, told, Option.map_some, bind,
      Option.bind_some]
    exact ih h

theorem depart_within {n : Node} (within : n.WithinMembers) (peer : PeerId) :
    (n.depart peer).WithinMembers := by
  have frame := depart_frame n peer
  have members : (n.depart peer).members = (n.members.depart peer).2 := by rw [frame]
  obtain ⟨table, size⟩ := n.members.depart_frame peer
  have covered := within.covered.tables (n.members.depart_recalls peer) (by rw [table])
    fun other joined => .inl (by rw [table] at joined; exact joined)
  refine ⟨covered.fewer ?_ members (by rw [frame]), ?_⟩
  · intro other
    rw [frame]
    exact id
  · rw [members, frame]
    exact within.relays.trans (n.members.depart_recalls peer).known_le

theorem heard_within {n m n' : Node} {sender : PeerId} {newcomer : Bool} {message : Message}
    {now : Nat} (within : n.WithinMembers)
    (room : ∀ seq target updates demand, message = .pingReq seq target updates demand →
      target = n.members.localId ∨ n.relays.contains (n.seq + 1) = true ∨
        n.relays.size < n.members.known)
    (heard : n.hear sender newcomer message now = some m)
    (h : m.answer sender message now = some n') : n'.WithinMembers := by
  have frameM := hear_frame heard
  have frame := answer_frame h
  have sends := answer_sends h
  have members : n'.members = n.members := by rw [frame, frameM]
  refine ⟨within.covered.fewer ?_ members (by rw [frame, frameM]), ?_⟩
  · intro peer held
    have was := sends.gossip peer held
    rw [frameM] at was
    exact was
  · have limit := within.relays
    have grown := answer_relays h
    rw [frameM] at grown
    rw [members]
    rcases grown with fewer | ⟨seq, target, updates, demand, relay, is, other, grown⟩
    · exact fewer.trans limit
    · rw [grown, ExtTreeMap.size_insert]
      dsimp only at other ⊢
      rcases room seq target updates demand is with own | again | room
      · exact absurd own other
      · rw [← ExtTreeMap.mem_iff_contains] at again
        simpa [again] using limit
      · split <;> omega

theorem receiveMessage_within {n n' : Node} {sender : PeerId} {message : Message} {now : Nat}
    (sound : n.Sound) (within : n.WithinMembers) (fits : n.RelayFits message now)
    (h : n.receiveMessage sender message now = some n') : n'.WithinMembers := by
  simp only [receiveMessage, bind, Option.bind_eq_some_iff] at h
  obtain ⟨a, learned, h⟩ := h
  have frameA := learnAll_frame learned
  have told := learnAll_told learned
  obtain ⟨recalls, localId⟩ := learnAll_recalls learned (sound.same rfl rfl)
  have coveredA : a.Covered := by
    refine learnAll_covered ?_ ?_ learned
    · exact sound.same rfl rfl
    · exact ⟨within.covered.gossip, within.covered.joined, within.covered.order,
        within.covered.distinct⟩
  have relaysA : a.relays = n.relays := by rw [frameA]
  have withinA : a.WithinMembers := ⟨coveredA, relaysA ▸ within.relays.trans recalls.known_le⟩
  cases message with
  | leave updates =>
    rw [← Option.some.inj h]
    exact depart_within withinA sender
  | ping | ack =>
    simp only [Option.bind_eq_some_iff] at h
    obtain ⟨b, heard, h⟩ := h
    exact heard_within withinA (by simp) heard h
  | pingReq =>
    simp only [Option.bind_eq_some_iff] at h
    obtain ⟨b, heard, h⟩ := h
    refine heard_within withinA (fun seq target updates demand is => ?_) heard h
    cases is
    have seqA : a.seq = n.seq := by rw [frameA]
    rw [relaysA, seqA, localId]
    rcases fits with own | again | room
    · exact .inl own
    · exact .inr (.inl again)
    · exact .inr (.inr (room a.members told))

theorem step_told {decay : Nat → Nat → ℚ} {n n' : Node} {op : Op}
    (unhandled : ∀ event now, op ≠ .handle event now) (h : n.step decay op = some n') :
    n'.members = { n.members with max := n'.members.max } ∨
      ∃ update applied, n.members.apply update n.lastNow = some (applied, n'.members) := by
  cases op with
  | handle event now => exact absurd rfl (unhandled event now)
  | introduce peer addr =>
    simp only [step, introduce] at h
    split at h
    · simp at h
    · simp only [bind, Option.bind_eq_some_iff] at h
      obtain ⟨⟨applied, members⟩, told, h⟩ := h
      right
      split at h
      · rw [refreshCap_frame h]
        exact ⟨_, applied, told⟩
      · rw [← Option.some.inj h]
        exact ⟨_, applied, told⟩
  | addSeed seed addr =>
    simp only [step, addSeed] at h
    split at h
    · simp at h
    · rw [refreshCap_frame h]
      split <;> exact .inl rfl
  | removeSeed | expectPeers | setPartitionPolicy =>
    rw [refreshCap_frame h]
    exact .inl rfl
  | setQuorumMemory memory =>
    obtain rfl := Option.some.inj h
    exact .inl rfl
  | setMaxMembers max =>
    simp only [step, setMaxMembers, MemberTable.setMax, bind, Option.bind_eq_some_iff,
      Option.ite_none_right_eq_some, Option.some.injEq] at h
    obtain ⟨members, ⟨_, rfl⟩, rfl⟩ := h
    exact .inl rfl
  | record key tally limit now =>
    simp only [step, Node.record, bind, Option.bind_eq_some_iff, Option.some.injEq] at h
    obtain ⟨a, advanced, limiter, _, rfl⟩ := h
    obtain ⟨_, rfl⟩ := advance_some advanced
    exact .inl rfl
  | checkIn key limit now =>
    simp only [step, checkIn, bind, Option.bind_eq_some_iff, Option.map_eq_some_iff,
      Option.some.injEq] at h
    obtain ⟨_, ⟨a, advanced, ⟨decision, limiter⟩, _, rfl⟩, rfl⟩ := h
    obtain ⟨_, rfl⟩ := advance_some advanced
    exact .inl rfl
  | checkInTraced key limit shadow now =>
    simp only [step, checkInTraced, bind, Option.bind_eq_some_iff, Option.map_eq_some_iff,
      Option.some.injEq] at h
    obtain ⟨_, ⟨a, advanced, ⟨decisions, limiter⟩, _, rfl⟩, rfl⟩ := h
    obtain ⟨_, rfl⟩ := advance_some advanced
    exact .inl rfl
  | leave now =>
    simp only [step, leave, bind, Option.bind_eq_some_iff] at h
    obtain ⟨a, advanced, h⟩ := h
    obtain ⟨_, rfl⟩ := advance_some advanced
    split at h
    · obtain rfl := Option.some.inj h
      exact .inl rfl
    · simp only [Option.bind_eq_some_iff] at h
      obtain ⟨own, _, h⟩ := h
      rw [sendLeave_frame h]
      exact .inl rfl
  | rehash keys =>
    simp only [step, rehash, Option.ite_none_right_eq_some, Option.some.injEq] at h
    obtain ⟨_, rfl⟩ := h
    exact .inl rfl

theorem step_within {decay : Nat → Nat → ℚ} {n n' : Node} {op : Op} (reached : Reachable decay n)
    (within : n.WithinMembers) (contained : n.Contained op) (h : n.step decay op = some n') :
    n'.WithinMembers := by
  have sound := reached.sound
  have lasts : 0 < n.swim.tombstoneTtl := by
    obtain ⟨period, _, suspicion, _, tombstone⟩ := reached.swim_valid
    omega
  by_cases handles : ∃ event now, op = .handle event now
  · obtain ⟨event, now, rfl⟩ := handles
    have here : ({ n with lastNow := now, actions := [] } : Node).WithinMembers :=
      ⟨⟨within.covered.gossip, within.covered.joined, within.covered.order,
        within.covered.distinct⟩, within.relays⟩
    have soundHere : ({ n with lastNow := now, actions := [] } : Node).Sound := sound.same rfl rfl
    obtain ⟨_, rfl | ⟨present, rfl, ticked⟩ |
      ⟨sender, bytes, message, present, rfl, other, decoded, _, took⟩⟩ := handle_cases h
    · exact here
    · rcases contained with left | ⟨clean, ahead⟩
      · simp [present] at left
      · exact tick_within soundHere lasts here clean ahead ticked
    · rcases contained with left | own | fits
      · simp [present] at left
      · exact absurd own other
      · refine receiveMessage_within soundHere here ?_ took
        exact fits message (by simp [decoded, Except.toOption])
  · have apart := step_apart sound (fun event now is => handles ⟨event, now, is⟩) h
    have frame := apart.frame
    have told : n.members.Recalls n'.members ∧ ∀ peer, .joined peer ∈ n'.members.changes →
        .joined peer ∈ n.members.changes ∨ n'.members.members[peer]?.isSome := by
      rcases step_told (fun event now is => handles ⟨event, now, is⟩) h with
        same | ⟨update, applied, told⟩
      · rw [same]
        exact ⟨.refl _, fun _ => .inl⟩
      · refine ⟨(MemberTable.apply_spec sound.members told).recalls, fun peer joined => ?_⟩
        rcases MemberTable.apply_joined told joined with old | ⟨_, known, _⟩
        · exact .inl old
        · exact .inr known
    have covered := within.covered.tables told.1 apart.localId told.2
    refine ⟨covered.fewer ?_ rfl ?_, ?_⟩
    · rw [frame]
      exact fun _ => id
    · rw [frame]
    · rw [frame]
      exact within.relays.trans told.1.known_le

end Node

theorem Recorded.within {decay : Nat → Nat → ℚ} {n : Node}
    (h : Recorded decay (fun _ _ _ => ()) () (fun n _ op => n.Contained op) n ()) :
    n.WithinMembers := by
  generalize is : () = record at h
  clear is
  induction h with
  | start config swim localId addr seed n h =>
    unfold Node.new at h
    split at h
    · simp only [bind, Option.bind_eq_some_iff, Option.some.injEq] at h
      obtain ⟨members, started, limiter, _, rfl⟩ := h
      simp only [MemberTable.setMax, Option.ite_none_right_eq_some, Option.some.injEq] at started
      obtain ⟨_, rfl⟩ := started
      refine ⟨⟨?_, ?_, ?_, ?_⟩, ?_⟩ <;> simp [Gossip.new, MemberTable.new]
    · simp at h
  | step n record op n' run contained h within =>
    exact Node.step_within run.reachable within contained h

/-- What traffic queues in a node is bounded by the members it knows, as long as no relay is asked
    for past them, nobody joins whom the probing has passed already, and a tick leaves nothing of
    whom it forgets. -/
theorem traffic_bounded (decay : Nat → Nat → ℚ) (n : Node)
    (run : Recorded decay (fun _ _ _ => ()) () (fun n _ op => n.Contained op) n ()) :
    n.relays.size ≤ n.members.known ∧ n.order.length ≤ n.members.known ∧
      n.gossip.queue.size ≤ n.members.known := by
  obtain ⟨⟨gossip, _, order, distinct⟩, relays⟩ := run.within
  refine ⟨relays, ?_, ?_⟩
  · exact (length_le_of_keys distinct order).trans (Nat.le_succ _)
  · have keys : n.gossip.queue.keys.length ≤ (n.members.localId :: n.members.members.keys).length := by
      refine (List.subperm_of_subset ExtTreeMap.nodup_keys fun peer mem => ?_).length_le
      rw [ExtTreeMap.mem_keys, ExtTreeMap.mem_iff_isSome_getElem?] at mem
      rw [List.mem_cons, ExtTreeMap.mem_keys, ExtTreeMap.mem_iff_isSome_getElem?]
      exact gossip peer mem
    rw [List.length_cons, ExtTreeMap.length_keys, ExtTreeMap.length_keys] at keys
    exact keys

/- A newcomer is heard, and a tick. -/
def containedRun : Option (Node × Unit) := do
  let start ← Node.sample 0 0
  Node.runRecorded sampleDecay (fun _ _ _ => ()) (fun n _ op => n.Contained op) start ()
    [sampleOp 1 (.ping 4 [⟨1, sampleAddress 1, 0, .alive⟩] []) 0, .handle .tick 0,
      sampleOp 1 (.pingReq 5 2 [⟨1, sampleAddress 1, 0, .alive⟩] []) (ms 100)]

theorem containedRun_queues : (containedRun.any fun (n, _) =>
    decide (n.relays.size = 1 ∧ n.order.length = 1 ∧ n.members.known = 2)) = true := by
  decide +kernel

theorem traffic_bounded_newcomer : ∃ n, containedRun = some (n, ()) ∧ n.relays.size = 1 ∧
    n.order.length = 1 ∧ n.members.known = 2 ∧ n.gossip.queue.size ≤ 2 := by
  obtain ⟨⟨n, noted⟩, ran, checked⟩ := (Option.any_eq_true _ _).mp containedRun_queues
  obtain ⟨relays, order, known⟩ := of_decide_eq_true checked
  have same := ran
  simp only [containedRun, bind, Option.bind_eq_some_iff] at ran
  obtain ⟨start, fresh, ran⟩ := ran
  have run := Recorded.run (.start _ _ _ _ _ start fresh) ran
  have bounded := traffic_bounded sampleDecay n run
  exact ⟨n, same, relays, order, known, known ▸ bounded.2.2⟩

/- A stranger asks twice within a period for a probe of another. -/
def askedRun : Option Node := do
  let start ← Node.sample 0 0
  start.run sampleDecay [sampleOp 9 (.pingReq 1 5 [] []) 0, sampleOp 9 (.pingReq 2 5 [] []) 0]

/- Two peers die and return between the rounds of a pass. -/
def returningRun : Option Node := do
  let start ← Node.sample 0 0
  start.run sampleDecay
    [.introduce 1 (sampleAddress 1), .introduce 2 (sampleAddress 2), .handle .tick 0,
      sampleOp 9 (.ack 0 [⟨1, sampleAddress 1, 0, .dead⟩, ⟨1, sampleAddress 1, 1, .alive⟩,
        ⟨2, sampleAddress 2, 0, .dead⟩, ⟨2, sampleAddress 2, 1, .alive⟩] []) (ms 100),
      .handle .tick (ms 200),
      sampleOp 9 (.ack 0 [⟨1, sampleAddress 1, 1, .dead⟩, ⟨1, sampleAddress 1, 2, .alive⟩,
        ⟨2, sampleAddress 2, 1, .dead⟩, ⟨2, sampleAddress 2, 2, .alive⟩] []) (ms 300),
      .handle .tick (ms 400)]

/- Two peers die, nobody is left to be told, and they are forgotten. -/
def forgottenRun : Option Node := do
  let start ← Node.sample 0 0
  start.run sampleDecay
    [sampleOp 9 (.ack 0 [⟨1, sampleAddress 1, 0, .dead⟩, ⟨2, sampleAddress 2, 0, .dead⟩] []) 0,
      .handle .tick (ms 600000)]

theorem askedRun_queues :
    (askedRun.any fun n => decide (n.members.known < n.relays.size)) = true := by
  decide +kernel

theorem returningRun_queues :
    (returningRun.any fun n => decide (n.members.known < n.order.length)) = true := by
  decide +kernel

theorem forgottenRun_queues :
    (forgottenRun.any fun n => decide (n.members.known < n.gossip.queue.size)) = true := by
  decide +kernel

/-- Each of the three is more than the members known in some run. -/
theorem traffic_unbounded :
    (¬ ∀ (decay : Nat → Nat → ℚ) (n : Node), Reachable decay n → n.relays.size ≤ n.members.known) ∧
    (¬ ∀ (decay : Nat → Nat → ℚ) (n : Node), Reachable decay n →
      n.order.length ≤ n.members.known) ∧
    ¬ ∀ (decay : Nat → Nat → ℚ) (n : Node), Reachable decay n →
      n.gossip.queue.size ≤ n.members.known := by
  refine ⟨fun bounded => ?_, fun bounded => ?_, fun bounded => ?_⟩
  · obtain ⟨n, ran, more⟩ := (Option.any_eq_true _ _).mp askedRun_queues
    simp only [askedRun, bind, Option.bind_eq_some_iff] at ran
    obtain ⟨start, fresh, ran⟩ := ran
    have most := bounded sampleDecay n (.sample fresh ran)
    exact absurd (of_decide_eq_true more) (Nat.not_lt.mpr most)
  · obtain ⟨n, ran, more⟩ := (Option.any_eq_true _ _).mp returningRun_queues
    simp only [returningRun, bind, Option.bind_eq_some_iff] at ran
    obtain ⟨start, fresh, ran⟩ := ran
    have most := bounded sampleDecay n (.sample fresh ran)
    exact absurd (of_decide_eq_true more) (Nat.not_lt.mpr most)
  · obtain ⟨n, ran, more⟩ := (Option.any_eq_true _ _).mp forgottenRun_queues
    simp only [forgottenRun, bind, Option.bind_eq_some_iff] at ran
    obtain ⟨start, fresh, ran⟩ := ran
    have most := bounded sampleDecay n (.sample fresh ran)
    exact absurd (of_decide_eq_true more) (Nat.not_lt.mpr most)

end Rateguard
