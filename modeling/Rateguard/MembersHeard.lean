import Rateguard.MemberRuns
import Rateguard.Stores

/- Only members are heard, but for the target of a probe whose report a helper relays. -/
namespace Rateguard
open Std (ExtTreeMap)

namespace MemberTable

def Heeds (t : MemberTable) (peer : PeerId) : Prop :=
  (t.status peer).isSome ∧ t.hasDeparted peer = false

instance (t : MemberTable) (peer : PeerId) : Decidable (t.Heeds peer) :=
  inferInstanceAs (Decidable (_ ∧ _))

def strangers (t : MemberTable) (updates : List Update) : Finset PeerId :=
  (updates.map (·.member)).toFinset.filter fun peer => (t.status peer).isSome = false

/- The peer is known, or told of while there is still room, the strangers told of before it taken
   in first. -/
def Meets (t : MemberTable) (updates : List Update) (peer : PeerId) : Prop :=
  (t.status peer).isSome ∨ peer ∈ updates.map (·.member) ∧
    t.known + (t.strangers (updates.takeWhile fun update => update.member ≠ peer)).card < t.max

theorem hasDeparted_status {t : MemberTable} {peer : PeerId}
    (departed : t.hasDeparted peer = true) : (t.status peer).isSome := by
  unfold hasDeparted at departed
  unfold status
  split
  · rfl
  · cases found : t.members[peer]? <;> simp [found] at departed ⊢

/- Who is known: as before, but that a stranger told of is taken in where there is room. -/
theorem Outcome.known {t t' : MemberTable} {update : Update} {now : Nat} {applied : Applied}
    (outcome : t.Outcome update now applied t') :
    ((∀ peer, (t'.status peer).isSome = (t.status peer).isSome) ∧ t'.known = t.known ∧
      t'.max = t.max ∧ ((t.status update.member).isSome ∨ t.max ≤ t.known)) ∨
    ((∀ peer, (t'.status peer).isSome = ((t.status peer).isSome || decide (peer = update.member))) ∧
      t'.known = t.known + 1 ∧ t'.max = t.max ∧ (t.status update.member).isSome = false ∧
      t.known < t.max) := by
  cases outcome with
  | echoed own | answered own | outbid own =>
    exact .inl ⟨fun _ => rfl, rfl, rfl, .inl (by simp [status, own])⟩
  | stale current other held =>
    exact .inl ⟨fun _ => rfl, rfl, rfl, .inl (by simp [status, other, held])⟩
  | refused _ _ full => exact .inl ⟨fun _ => rfl, rfl, rfl, .inr full⟩
  | taken live changes other newer room accounts wf =>
    have told (peer : PeerId) :
        (status { t with
          members := t.members.insert update.member (record t.members[update.member]? update now)
          live, changes } peer).isSome =
        ((t.status peer).isSome || decide (peer = update.member)) := by
      simp only [status, ExtTreeMap.getElem?_insert]
      split
      · simp
      · by_cases same : update.member = peer
        · simp [same]
        · simp [same, Ne.symm same]
    have size : (t.members.insert update.member
        (record t.members[update.member]? update now)).size =
        if update.member ∈ t.members then t.members.size else t.members.size + 1 :=
      ExtTreeMap.size_insert
    by_cases mem : update.member ∈ t.members
    · obtain ⟨current, held⟩ := ExtTreeMap.mem_iff_isSome_getElem?.mp mem |> Option.isSome_iff_exists.mp
      have known : (t.status update.member).isSome := by simp [status, other, held]
      refine .inl ⟨fun peer => ?_, ?_, rfl, .inl known⟩
      · rw [told peer]
        by_cases same : peer = update.member
        · simp [same, known]
        · simp [same]
      · rw [if_pos mem] at size
        exact congrArg (· + 1) size
    · have held : t.members[update.member]? = none := ExtTreeMap.getElem?_eq_none mem
      refine .inr ⟨told, ?_, rfl, by simp [status, other, held], room held⟩
      rw [if_neg mem] at size
      exact congrArg (· + 1) size

/- One more to be told of, who is not the peer: known already, refused, or one of the strangers. -/
theorem Outcome.meets_other {t t' : MemberTable} {update : Update} {now : Nat} {applied : Applied}
    (outcome : t.Outcome update now applied t') {rest : List Update} {peer : PeerId}
    (other : update.member ≠ peer) : t'.Meets rest peer ↔ t.Meets (update :: rest) peer := by
  have early : (update :: rest).takeWhile (fun update => update.member ≠ peer) =
      update :: rest.takeWhile fun update => update.member ≠ peer := by simp [other]
  have told : peer ∈ (update :: rest).map (·.member) ↔ peer ∈ rest.map (·.member) := by
    simp [Ne.symm other]
  rw [Meets, Meets, early, told]
  generalize rest.takeWhile (fun update => update.member ≠ peer) = before
  rcases outcome.known with ⟨same, size, max, full⟩ | ⟨taken, size, max, stranger, room⟩
  · have unmoved : t'.strangers before = t.strangers before :=
      Finset.filter_congr fun other _ => by rw [same other]
    rw [same peer, size, max, unmoved]
    rcases full with known | full
    · have none : t.strangers (update :: before) = t.strangers before := by
        unfold strangers
        rw [List.map_cons, List.toFinset_cons, Finset.filter_insert, known, if_neg (by simp)]
      rw [none]
    · have refused (more : Nat) : ¬ t.known + more < t.max := by omega
      simp only [refused]
  · have joined : t.strangers (update :: before) = insert update.member (t'.strangers before) := by
      ext other
      simp only [strangers, List.map_cons, List.toFinset_cons, Finset.mem_filter, Finset.mem_insert,
        taken other, Bool.or_eq_false_iff, decide_eq_false_iff_not]
      by_cases own : other = update.member
      · simp [own, stranger]
      · simp [own]
    have counted : (t.strangers (update :: before)).card = (t'.strangers before).card + 1 := by
      rw [joined, Finset.card_insert_of_notMem (by simp [strangers, taken])]
    rw [taken peer, size, max, counted]
    simp only [Ne.symm other, decide_false, Bool.or_false]
    have sum : t.known + ((t'.strangers before).card + 1) =
        t.known + 1 + (t'.strangers before).card := by omega
    rw [sum]

theorem Outcome.meets {t t' : MemberTable} {update : Update} {now : Nat} {applied : Applied}
    (outcome : t.Outcome update now applied t') (rest : List Update) (peer : PeerId) :
    t'.Meets rest peer ↔ t.Meets (update :: rest) peer := by
  by_cases other : update.member ≠ peer
  · exact outcome.meets_other other
  · rw [not_not] at other
    subst other
    rcases outcome.known with ⟨same, size, max, full⟩ | ⟨taken, _, _, _, room⟩
    · rw [Meets, Meets, same, max, size]
      refine or_congr_right' fun unknown => iff_of_false ?_ ?_
      · exact fun ⟨_, room⟩ => absurd room (by have := full.resolve_left unknown; omega)
      · exact fun ⟨_, room⟩ => absurd room (by have := full.resolve_left unknown; omega)
    · refine iff_of_true (.inl (by simp [taken])) (.inr ⟨by simp, ?_⟩)
      simpa [strangers] using room

end MemberTable

namespace Node

theorem learnAll_meets {n n' : Node} {updates : List Update} {now : Nat} (sound : n.Sound)
    (h : n.learnAll updates now = some n') (peer : PeerId) :
    (n'.members.status peer).isSome ↔ n.members.Meets updates peer := by
  induction updates generalizing n with
  | nil =>
    simp only [learnAll, List.foldlM_nil, Option.pure_def, Option.some.injEq] at h
    simp [h, MemberTable.Meets]
  | cons update rest ih =>
    simp only [learnAll, List.foldlM_cons, bind, Option.bind_eq_some_iff] at h
    obtain ⟨u, first, h⟩ := h
    obtain ⟨applied, news⟩ := learn_members first
    have outcome := MemberTable.apply_spec sound.members news
    exact (ih (learn_sound sound first) h).trans (outcome.meets rest peer)

theorem ownReport_heeds {n : Node} {sender : PeerId} {message : Message} {report : DemandReport}
    (h : n.ownReport sender message = some report) : n.members.Heeds sender := by
  simp only [ownReport, Option.ite_none_right_eq_some, Bool.and_eq_true, Bool.not_eq_true'] at h
  exact h.1

theorem relayedReport_some {n : Node} {sender : PeerId} {seq : UInt32}
    {demand : List DemandReport} {entry : PeerId × DemandReport} :
    n.relayedReport sender seq demand = some entry ↔
      ∃ probe, n.probe = some probe ∧ probe.seq = seq ∧
        probe.helpers.any (·.contains sender) = true ∧
        n.members.hasDeparted probe.target = false ∧
        demand.find? (·.origin == probe.target) = some entry.2 ∧ entry.1 = probe.target := by
  simp only [relayedReport, answered, Option.bind_eq_some_iff, Option.filter_eq_some_iff,
    Option.ite_none_right_eq_some, Option.map_eq_some_iff, Bool.and_eq_true, Bool.or_eq_true,
    decide_eq_true_eq, Bool.not_eq_true']
  constructor
  · rintro ⟨probe, ⟨pending, same, _⟩, ⟨helper, departed⟩, report, found, rfl⟩
    exact ⟨probe, pending, same, helper, departed, found, rfl⟩
  · rintro ⟨probe, pending, same, helper, departed, found, target⟩
    refine ⟨probe, ⟨pending, same, .inr helper⟩, ⟨helper, departed⟩, entry.2, found, ?_⟩
    rw [← target]

/- Every report a message stores is a member's, just if that of a probe's target is. -/
theorem stores_heeds_iff (n : Node) (sender : PeerId) (message : Message) :
    (∀ entry ∈ n.stores sender message, n.members.Heeds entry.1) ↔
      ∀ seq updates demand probe, message = .ack seq updates demand → n.probe = some probe →
        probe.seq = seq → probe.helpers.any (·.contains sender) = true →
        demand.any (·.origin == probe.target) = true →
        (n.members.status probe.target).isSome := by
  constructor
  · intro heeds seq updates demand probe is pending same helper reported
    subst is
    cases departed : n.members.hasDeparted probe.target with
    | true => exact MemberTable.hasDeparted_status departed
    | false =>
      obtain ⟨report, found⟩ := Option.isSome_iff_exists.mp (List.find?_isSome.mpr
        (List.any_eq_true.mp reported))
      have relays : n.relayedReport sender seq demand = some (probe.target, report) :=
        relayedReport_some.mpr ⟨probe, pending, same, helper, departed, found, rfl⟩
      refine (heeds (probe.target, report) ?_).1
      rw [stores, relayed, relays]
      exact List.mem_append_right _ (List.mem_singleton.mpr rfl)
  · intro known entry mem
    rcases List.mem_append.mp mem with own | relays
    · rw [Option.mem_toList, Option.map_eq_some_iff] at own
      obtain ⟨report, own, rfl⟩ := own
      exact ownReport_heeds own
    · cases message with
      | ack seq updates demand =>
        rw [relayed, Option.mem_toList] at relays
        obtain ⟨probe, pending, same, helper, departed, found, target⟩ :=
          relayedReport_some.mp relays
        rw [target]
        refine ⟨known seq updates demand probe rfl pending same helper ?_, departed⟩
        have its := List.find?_some found
        exact List.any_eq_true.mpr ⟨entry.2, List.mem_of_find?_eq_some found, its⟩
      | ping | pingReq | leave => simp [relayed] at relays

/- If the message is an Ack that a helper sends for the probe it was asked to, and has a report of
   the probe's target, then the target is known, or told of in the Ack while there is room. -/
def TargetKnown (n : Node) (sender : PeerId) (bytes : List UInt8) : Prop :=
  ∀ seq updates demand probe, n.left = false → sender ≠ n.members.localId →
    decode bytes = .ok (.ack seq updates demand) → n.probe = some probe → probe.seq = seq →
    probe.helpers.any (·.contains sender) = true →
    demand.any (·.origin == probe.target) = true → n.members.Meets updates probe.target

/- Just then are all the reports a handled message stores those of members. -/
theorem storedBy_heeds_iff {decay : Nat → Nat → ℚ} {n n' : Node} {sender : PeerId}
    {bytes : List UInt8} {now : Nat} (sound : n.Sound)
    (h : n.handle decay (.messageReceived sender bytes) now = some n') :
    (∀ entry ∈ n.storedBy sender bytes now, n'.members.Heeds entry.1) ↔
      n.TargetKnown sender bytes := by
  unfold storedBy
  rcases handle_storing h with ⟨noted, is, _, members⟩ | ⟨none, other, _⟩
  · obtain ⟨present, stranger, decoded, stored, opened, same, gossip, probe, learned⟩ :=
      storing_some is
    have probes : noted.state.probe = n.probe := by rw [learnAll_frame learned, ← probe]
    have met := learnAll_meets (sound.same same gossip) learned
    rw [is, Option.map_some, Option.getD_some, stored, members, stores_heeds_iff, probes]
    constructor
    · intro known seq updates demand probe _ _ acks
      rw [decoded, Except.ok.injEq] at acks
      have meets := met probe.target
      rw [same, acks] at meets
      intro pending number helper reported
      exact meets.mp (known seq updates demand probe acks pending number helper reported)
    · intro known seq updates demand probe acks pending number helper reported
      rw [met, same, acks]
      exact known seq updates demand probe present stranger (acks ▸ decoded) pending number helper
        reported
  · rw [none, Option.map_none, Option.getD_none]
    refine iff_of_true (by simp) fun seq updates demand probe present stranger acks => ?_
    exact absurd acks (other seq updates demand present stranger)

end Node

/-- Whatever a reachable node is sent, what that puts into the store is what it stores; all of it is
    stored under known members that have not departed, if and only if the target of a probe a helper
    answers for is one; and then whoever's demand is there and was not, is one. -/
theorem only_members_heard (decay : Nat → Nat → ℚ) (n n' : Node) (sender : PeerId)
    (bytes : List UInt8) (now : Nat) (reached : Reachable decay n)
    (h : n.handle decay (.messageReceived sender bytes) now = some n') :
    (storeAll n.peerDemand (n.storedBy sender bytes now) now = some n'.peerDemand ∨
      n.storedBy sender bytes now = [] ∧ n'.peerDemand = n.peerDemand.forget sender) ∧
    ((∀ entry ∈ n.storedBy sender bytes now, n'.members.Heeds entry.1) ↔
      n.TargetKnown sender bytes) ∧
    (n.TargetKnown sender bytes → ∀ peer, n'.peerDemand.peers[peer]?.isSome →
      n'.peerDemand.peers[peer]? ≠ n.peerDemand.peers[peer]? → n'.members.Heeds peer) := by
  have heeds := Node.storedBy_heeds_iff reached.sound h
  have adds : storeAll n.peerDemand (n.storedBy sender bytes now) now = some n'.peerDemand ∨
      n.storedBy sender bytes now = [] ∧ n'.peerDemand = n.peerDemand.forget sender := by
    rcases Node.handle_storing h with ⟨noted, is, stored, _⟩ | ⟨none, _, kept⟩
    · left
      rw [Node.storedBy, is]
      exact stored
    · have nothing : n.storedBy sender bytes now = [] := by rw [Node.storedBy, none]; rfl
      rcases kept with same | forgot
      · left
        rw [nothing, same]
        rfl
      · exact .inr ⟨nothing, forgot⟩
  refine ⟨adds, heeds, fun known peer there changed => ?_⟩
  rcases adds with stored | ⟨_, forgot⟩
  · by_contra stranger
    refine changed (storeAll_other stored fun entry mem own => stranger ?_)
    exact own ▸ heeds.mpr known entry mem
  · rw [forgot, PeerDemand.forget] at there changed
    dsimp only at there changed
    by_cases own : sender = peer
    · simp [own] at there
    · exact absurd (by simp [ExtTreeMap.getElem?_erase, own]) changed

/- The one member is asked to probe a seed that is no member, and answers for it: with the
   seed's report, or its own. -/
def seedReport (origin : UInt64) : DemandReport := ⟨origin, 7, 3, [⟨42, eighty, true⟩]⟩

def seedAnswer (seq : UInt32) (origin : UInt64) : List UInt8 :=
  messageCodec.enc (.ack seq [⟨1, sampleAddress 1, 0, .alive⟩] [seedReport origin])

def seedRun (origin : UInt64) : Option (Node × List UInt8 × Node) := do
  let start ← Node.sample 0 0
  let n ← start.run sampleDecay [.introduce 1 (sampleAddress 1), .addSeed 9 (sampleAddress 9),
    .handle .tick 0, .handle .tick (ms 100)]
  let probe ← n.probe
  let n' ← n.handle sampleDecay (.messageReceived 1 (seedAnswer probe.seq origin)) (ms 150)
  some (n, seedAnswer probe.seq origin, n')

theorem seedRun_handles {origin : UInt64} {n n' : Node} {bytes : List UInt8}
    (h : seedRun origin = some (n, bytes, n')) : Reachable sampleDecay n ∧
      n.handle sampleDecay (.messageReceived 1 bytes) (ms 150) = some n' := by
  simp only [seedRun, bind, Option.bind_eq_some_iff, Option.some.injEq, Prod.mk.injEq] at h
  obtain ⟨start, fresh, _, ran, probe, _, _, handled, rfl, rfl, rfl⟩ := h
  exact ⟨.sample fresh ran, handled⟩

theorem seedRun_hears_seed : ((seedRun 9).any fun run =>
    (run.2.2.peerDemand.peers[(9 : PeerId)]?).isSome && (run.2.2.members.status 9).isNone &&
      (run.1.peerDemand.peers[(9 : PeerId)]?).isNone) = true := by
  decide +kernel

theorem seed_heard : ¬ ∀ (decay : Nat → Nat → ℚ) (n n' : Node) (sender : PeerId)
    (bytes : List UInt8) (now : Nat), Reachable decay n →
    n.handle decay (.messageReceived sender bytes) now = some n' →
    ∀ peer, n'.peerDemand.peers[peer]?.isSome →
      n'.peerDemand.peers[peer]? ≠ n.peerDemand.peers[peer]? → n'.members.Heeds peer := by
  intro claim
  obtain ⟨⟨n, bytes, n'⟩, ran, checked⟩ := (Option.any_eq_true _ _).mp seedRun_hears_seed
  simp only [Bool.and_eq_true, Option.isNone_iff_eq_none] at checked
  obtain ⟨⟨there, unknown⟩, before⟩ := checked
  obtain ⟨reached, handled⟩ := seedRun_handles ran
  have heeds := claim sampleDecay n n' 1 bytes (ms 150) reached handled 9 there fun same => by
    rw [same, before] at there
    simp at there
  simp [MemberTable.Heeds, unknown] at heeds

theorem seedRun_hears_helper : ((seedRun 1).any fun run =>
    decide ((run.1.storedBy 1 run.2.1 (ms 150)).length = 1) &&
      (decode run.2.1).toOption.all fun message => message.demand.all fun report =>
        run.1.probe.all fun probe => report.origin != probe.target) = true := by
  decide +kernel

theorem only_members_heard_helper : ∃ n bytes n', seedRun 1 = some (n, bytes, n') ∧
    (n.storedBy 1 bytes (ms 150)).length = 1 ∧
      storeAll n.peerDemand (n.storedBy 1 bytes (ms 150)) (ms 150) = some n'.peerDemand ∧
      ∀ entry ∈ n.storedBy 1 bytes (ms 150), n'.members.Heeds entry.1 := by
  obtain ⟨⟨n, bytes, n'⟩, ran, checked⟩ := (Option.any_eq_true _ _).mp seedRun_hears_helper
  simp only [Bool.and_eq_true, decide_eq_true_eq, List.all_eq_true, Option.all_eq_true,
    bne_iff_ne, ne_eq] at checked
  obtain ⟨one, others⟩ := checked
  obtain ⟨reached, handled⟩ := seedRun_handles ran
  obtain ⟨adds, heeds, _⟩ := only_members_heard sampleDecay n n' 1 bytes (ms 150) reached handled
  have stored : storeAll n.peerDemand (n.storedBy 1 bytes (ms 150)) (ms 150) = some n'.peerDemand := by
    refine adds.resolve_right fun forgot => ?_
    simp [forgot.1] at one
  refine ⟨n, bytes, n', ran, one, stored, ?_⟩
  refine heeds.mpr fun seq updates demand probe _ _ acks pending _ _ reported => ?_
  obtain ⟨report, listed, its⟩ := List.any_eq_true.mp reported
  exact absurd (beq_iff_eq.mp its)
    (others (.ack seq updates demand) (by rw [acks]; rfl) report listed probe pending)

end Rateguard
