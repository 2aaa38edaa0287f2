import Rateguard.Letters
import Rateguard.Probing

/- The news a node knows, and where it has it from: one step makes known, and sends, only what the
   node knew, what the message brought, and what the step itself is the source of. -/
namespace Rateguard
open Std (ExtTreeMap)

def BytesCarry (bytes : List UInt8) (update : Update) : Prop :=
  ∃ message, decode bytes = .ok message ∧ update ∈ message.updates

namespace Node

/- The node's own record, those of its members, and what waits in the gossip buffer. -/
inductive Knows (n : Node) : Update → Prop
  | own : Knows n n.members.ownUpdate
  | held (peer : PeerId) (member : Member) : n.members.members[peer]? = some member →
      Knows n (member.update peer)
  | queued (peer : PeerId) (pending : Pending) : n.gossip.queue[peer]? = some pending →
      Knows n pending.update

inductive Source (n : Node) (op : Op) (n' : Node) : Update → Prop
  | refutes (incarnation : UInt32) : n.members.incarnation < incarnation →
      incarnation ≤ n'.members.incarnation →
      Source n op n' { n.members.ownUpdate with incarnation }
  | introduces (peer : PeerId) (addr : Address) : op = .introduce peer addr →
      Source n op n' ⟨peer, addr, 0, .alive⟩
  | misses (now : Nat) (probe : Probe) (member : Member) : op = .handle .tick now →
      n.left = false → n.nextRoundAt ≤ now → n.probe = some probe →
      n.members.members[probe.target]? = some member → member.status = .alive →
      Source n op n' (member.accused probe.target .suspect)
  | expires (now : Nat) (peer : PeerId) (member : Member) : op = .handle .tick now →
      n.left = false → n.members.members[peer]? = some member → member.status = .suspect →
      n.swim.suspicionTimeout ≤ now - member.since →
      Source n op n' (member.accused peer .dead)
  | leaves (now : Nat) : op = .leave now → n.left = false →
      Source n op n' { n.members.ownUpdate with status := .dead }

/- Nothing known or sent is outside a set of news. -/
structure KeepsTo (K : Update → Prop) (n : Node) : Prop where
  own : K n.members.ownUpdate
  held : ∀ (peer : PeerId) (member : Member), n.members.members[peer]? = some member →
    K (member.update peer)
  queued : ∀ (peer : PeerId) (pending : Pending), n.gossip.queue[peer]? = some pending →
    K pending.update
  sent : ∀ peer bytes update, .sendTo peer bytes ∈ n.actions → BytesCarry bytes update → K update

/- The set has every incarnation of the node's own from this state on up to that one. -/
def Raised (K : Update → Prop) (n n' : Node) : Prop :=
  ∀ incarnation, n.members.incarnation ≤ incarnation → incarnation ≤ n'.members.incarnation →
    K { n.members.ownUpdate with incarnation }

section
variable {K : Update → Prop} {n n' : Node} {now : Nat}

theorem KeepsTo.knows (keeps : n.KeepsTo K) {update : Update} (knows : n.Knows update) :
    K update := by
  cases knows with
  | own => exact keeps.own
  | held peer member found => exact keeps.held peer member found
  | queued peer pending found => exact keeps.queued peer pending found

theorem KeepsTo.same (keeps : n.KeepsTo K) (members : n'.members = n.members)
    (gossip : n'.gossip = n.gossip) (actions : n'.actions = n.actions) : n'.KeepsTo K := by
  constructor
  · rw [members]
    exact keeps.own
  · rw [members]
    exact keeps.held
  · rw [gossip]
    exact keeps.queued
  · rw [actions]
    exact keeps.sent

theorem KeepsTo.fewer (keeps : n.KeepsTo K) {members : MemberTable}
    (own : members.ownUpdate = n.members.ownUpdate)
    (was : ∀ (peer : PeerId) (member : Member), members.members[peer]? = some member →
      ∃ held : Member, n.members.members[peer]? = some held ∧ member.update peer = held.update peer) :
    ({ n with members } : Node).KeepsTo K := by
  refine ⟨own ▸ keeps.own, fun peer member found => ?_, keeps.queued, keeps.sent⟩
  obtain ⟨held, known, same⟩ := was peer member found
  exact same ▸ keeps.held peer held known

theorem KeepsTo.outcome (keeps : n.KeepsTo K) {update : Update} {applied : Applied}
    {members : MemberTable} (outcome : n.members.Outcome update now applied members)
    (told : K update) (own : K members.ownUpdate) : ({ n with members } : Node).KeepsTo K := by
  refine ⟨own, fun peer member found => ?_, keeps.queued, keeps.sent⟩
  cases outcome with
  | taken =>
    rw [ExtTreeMap.getElem?_insert] at found
    split at found
    · rename_i same
      obtain rfl := Std.LawfulEqCmp.eq_of_compare same
      exact Option.some.inj found ▸ told
    · exact keeps.held peer member found
  | _ => exact keeps.held peer member found

theorem spread_keepsTo {update : Update} (sound : n.Sound) (keeps : n.KeepsTo K) (told : K update)
    (h : n.spread update = some n') : n'.KeepsTo K := by
  simp only [spread, bind, Option.bind_eq_some_iff, Option.some.injEq] at h
  obtain ⟨⟨taken, gossip⟩, pushed, rfl⟩ := h
  refine ⟨keeps.own, keeps.held, fun peer pending found => ?_, keeps.sent⟩
  rcases Gossip.push_spec sound.gossip.filed update with ⟨stored, _⟩ | ⟨kept, _⟩
  · rw [stored] at pushed
    simp only [Option.some.injEq, Prod.mk.injEq] at pushed
    obtain ⟨_, rfl⟩ := pushed
    rw [ExtTreeMap.getElem?_insert] at found
    split at found
    · exact Option.some.inj found ▸ told
    · exact keeps.queued peer pending found
  · rw [kept] at pushed
    simp only [Option.some.injEq, Prod.mk.injEq] at pushed
    obtain ⟨_, rfl⟩ := pushed
    exact keeps.queued peer pending found

theorem spreadAll_keepsTo {updates : List Update} (sound : n.Sound) (keeps : n.KeepsTo K)
    (told : ∀ update ∈ updates, K update ∧ update.member ≠ n.members.localId)
    (h : n.spreadAll updates = some n') : n'.KeepsTo K := by
  induction updates generalizing n with
  | nil =>
    simp only [spreadAll, List.foldlM_nil, Option.pure_def, Option.some.injEq] at h
    exact h ▸ keeps
  | cons update rest ih =>
    simp only [spreadAll, List.foldlM_cons, bind, Option.bind_eq_some_iff] at h
    obtain ⟨u, first, h⟩ := h
    obtain ⟨toldFirst, other⟩ := told update List.mem_cons_self
    have members : u.members = n.members := by rw [spread_frame first]
    refine ih (spread_sound sound (fun own => absurd own other) first)
      (spread_keepsTo sound keeps toldFirst first) (fun later mem => ?_) h
    rw [members]
    exact told later (List.mem_cons_of_mem _ mem)

theorem outgoing_knows {u : Node} {recipient : PeerId} {updates : List Update}
    (h : n.outgoing recipient = some (updates, u)) {update : Update} (mem : update ∈ updates) :
    n.Knows update := by
  simp only [outgoing, bind, Option.bind_eq_some_iff] at h
  obtain ⟨own, knows, limit, _, ⟨taken, gossip⟩, took, h⟩ := h
  have about {peer : PeerId} {held : Update} (known : n.members.updateAbout peer = some held) :
      n.Knows held := by
    unfold MemberTable.updateAbout at known
    split at known
    · exact Option.some.inj known ▸ .own
    · obtain ⟨member, found, rfl⟩ := Option.map_eq_some_iff.mp known
      exact .held peer member found
  obtain ⟨_, _, queued⟩ := Gossip.take_spec took
  obtain ⟨_, source, _, _⟩ := opening_spec own taken (n.accusation recipient)
  have opened (update : Update) (mem : update ∈ opening own taken (n.accusation recipient)) :
      n.Knows update := by
    rcases source update mem with rfl | mem | held
    · exact about knows
    · obtain ⟨peer, pending, found, rfl⟩ := queued update mem
      exact .queued peer pending found
    · exact about (accusation_some.mp held).1
  split at h
  · simp only [Option.some.injEq, Prod.mk.injEq] at h
    obtain ⟨rfl, _⟩ := h
    exact opened update mem
  · rename_i start _
    generalize told : tell recipient (n.members.liveAfter start)
      (opening own taken (n.accusation recipient)) start = result at h
    obtain ⟨all, last, allTold⟩ := result
    simp only [Option.some.injEq, Prod.mk.injEq] at h
    obtain ⟨rfl, _⟩ := h
    obtain ⟨added, rfl, listed, _⟩ := tell_spec told
    rcases List.mem_append.mp mem with mem | mem
    · exact opened update mem
    · obtain ⟨member, found, same⟩ := MemberTable.mem_liveAfter (listed update mem)
      exact same ▸ .held update.member member found

theorem outgoing_keepsTo {u : Node} {recipient : PeerId} {updates : List Update}
    (keeps : n.KeepsTo K) (h : n.outgoing recipient = some (updates, u)) : u.KeepsTo K := by
  obtain ⟨limit, _, sent⟩ := outgoing_sent h
  have frame := outgoing_frame h
  have members : u.members = n.members := by rw [frame]
  have actions : u.actions = n.actions := by rw [frame]
  refine ⟨members ▸ keeps.own, members ▸ keeps.held, fun peer pending found => ?_,
    actions ▸ keeps.sent⟩
  obtain ⟨before, was, same, _⟩ := sent peer pending found
  exact same ▸ keeps.queued peer before was

/- What a node says is what it knows. -/
theorem Spoken.keeps {letters : List Letter} (spoken : Spoken n letters n')
    (keeps : n.KeepsTo K) : n'.KeepsTo K := by
  induction spoken with
  | silent same => exact keeps.same same.members same.gossip same.actions
  | letter same out sent told _ ih =>
    have writer := keeps.same same.members same.gossip same.actions
    have after := outgoing_keepsTo writer out
    obtain ⟨bytes, encoded, rfl⟩ := send_some sent
    refine ih ⟨after.own, after.held, after.queued, fun peer bytes' update mem carries => ?_⟩
    rcases List.mem_append.mp mem with old | new
    · exact after.sent peer bytes' update old carries
    · obtain ⟨rfl, rfl⟩ := Action.sendTo.inj (List.mem_singleton.mp new)
      obtain ⟨message, decoded, mem⟩ := carries
      rw [decode_encode encoded, Except.ok.injEq] at decoded
      obtain rfl := decoded
      exact writer.knows (outgoing_knows out (told ▸ mem))

theorem learn_keepsTo {update : Update} (sound : n.Sound) (keeps : n.KeepsTo K) (told : K update)
    (own : K n'.members.ownUpdate) (h : n.learn update now = some n') : n'.KeepsTo K := by
  obtain ⟨applied', news⟩ := learn_members h
  simp only [learn, bind, Option.bind_eq_some_iff] at h
  obtain ⟨⟨applied, members⟩, heard, h⟩ := h
  rw [heard, Option.some.injEq, Prod.mk.injEq] at news
  obtain ⟨_, same⟩ := news
  have outcome := MemberTable.apply_spec sound.members heard
  have keepsU := keeps.outcome outcome told (same ▸ own)
  cases applied with
  | ignored => exact Option.some.inj h ▸ keepsU
  | refused =>
    dsimp only at h
    split at h
    · exact Option.some.inj h ▸ keepsU
    · split at h
      · exact Option.some.inj h ▸ keepsU.same rfl rfl rfl
      · rw [refreshCap_frame h]
        exact keepsU.same rfl rfl rfl
  | accepted previous => exact spread_keepsTo (sound.outcome outcome) keepsU told h
  | refuted alive =>
    simp only [Option.bind_eq_some_iff] at h
    obtain ⟨conflicts, _, h⟩ := h
    obtain rfl := outcome.sayable.2 alive rfl
    refine spread_keepsTo ?_ ?_ (same ▸ own) h
    · exact (sound.outcome outcome).same rfl rfl
    · exact keepsU.same rfl rfl rfl

theorem learnAll_sameSelf {updates : List Update} (sound : n.Sound)
    (h : n.learnAll updates now = some n') : SameSelf n.members n'.members :=
  learnAll_table (P := SameSelf n.members) sound
    (fun _ _ _ _ _ same _ outcome => same.trans outcome.sameSelf) (SameSelf.refl _) h

theorem Raised.between {m : Node} (raised : n.Raised K n') (first : SameSelf n.members m.members)
    (last : SameSelf m.members n'.members) : K m.members.ownUpdate ∧ m.Raised K n' := by
  have own : m.members.ownUpdate =
      { n.members.ownUpdate with incarnation := m.members.incarnation } := by
    simp only [MemberTable.ownUpdate, first.localId, first.addr]
  constructor
  · exact own ▸ raised _ first.incarnation last.incarnation
  · intro incarnation above below
    rw [own]
    exact raised _ (UInt32.le_trans first.incarnation above) below

theorem learnAll_keepsTo {updates : List Update} (sound : n.Sound) (keeps : n.KeepsTo K)
    (told : ∀ update ∈ updates, K update) (raised : n.Raised K n')
    (h : n.learnAll updates now = some n') : n'.KeepsTo K := by
  induction updates generalizing n with
  | nil =>
    simp only [learnAll, List.foldlM_nil, Option.pure_def, Option.some.injEq] at h
    exact h ▸ keeps
  | cons update rest ih =>
    simp only [learnAll, List.foldlM_cons, bind, Option.bind_eq_some_iff] at h
    obtain ⟨u, first, h⟩ := h
    obtain ⟨applied, news⟩ := learn_members first
    have soundU := learn_sound sound first
    obtain ⟨own, rest'⟩ := raised.between (MemberTable.apply_spec sound.members news).sameSelf
      (learnAll_sameSelf soundU h)
    exact ih soundU (learn_keepsTo sound keeps (told update List.mem_cons_self) own first)
      (fun later mem => told later (List.mem_cons_of_mem _ mem)) rest' h

theorem ownUpdate_of_peer {t t' : MemberTable} {update : Update} {applied : Applied}
    (outcome : t.Outcome update now applied t') (other : update.member ≠ t.localId) :
    t'.ownUpdate = t.ownUpdate := by
  cases outcome with
  | echoed own | answered own | outbid own => exact absurd own other
  | _ => rfl

theorem missProbe_keepsTo (sound : n.Sound) (keeps : n.KeepsTo K)
    (missed : ∀ (probe : Probe) (member : Member), n.probe = some probe →
      n.members.members[probe.target]? = some member → member.status = .alive →
      K (member.accused probe.target .suspect))
    (h : n.missProbe now = some n') : n'.KeepsTo K := by
  unfold missProbe at h
  split at h
  · exact Option.some.inj h ▸ keeps
  · rename_i probe pending
    simp only [bind, Option.bind_eq_some_iff] at h
    obtain ⟨⟨suspicion, members⟩, suspected, h⟩ := h
    by_cases own : probe.target = n.members.localId
    · simp [MemberTable.suspect, own] at suspected
    obtain ⟨news, members', same, outcome⟩ := MemberTable.suspect_spec sound.members own now
    rw [suspected] at same
    simp only [Option.some.injEq, Prod.mk.injEq] at same
    obtain ⟨rfl, rfl⟩ := same
    rcases outcome with ⟨rfl, rfl⟩ | ⟨member, applied, found, alive, rfl, outcome⟩
    · exact Option.some.inj h ▸ keeps.same rfl rfl rfl
    · have told := missed probe member pending found alive
      have keepsU := keeps.outcome outcome told (ownUpdate_of_peer outcome own ▸ keeps.own)
      refine spread_keepsTo ?_ ?_ told h
      · exact (sound.outcome outcome).same rfl rfl
      · exact keepsU.same rfl rfl rfl

theorem forgetDead_keepsTo (keeps : n.KeepsTo K) (ttl : Nat) :
    ({ n with members := (n.members.forgetDead now ttl).2 } : Node).KeepsTo K := by
  refine keeps.fewer rfl fun peer member found => ?_
  rw [MemberTable.forgetDead_members] at found
  exact ⟨member, Option.eq_some_of_filter_eq_some found, rfl⟩

theorem timeOut_keepsTo (sound : n.Sound) (keeps : n.KeepsTo K)
    (died : ∀ update ∈ n.members.expired now n.swim.suspicionTimeout, K update)
    (h : n.timeOut now = some n') : n'.KeepsTo K := by
  simp only [timeOut, bind, Option.bind_eq_some_iff, Option.some.injEq] at h
  obtain ⟨⟨expired, members⟩, expires, a, spreads, rfl⟩ := h
  obtain ⟨wf, self, sayable⟩ := expireSuspects_sound sound expires
  have pos : 0 < n.swim.suspicionTimeout := by
    by_contra none
    simp [MemberTable.expireSuspects, none] at expires
  have other {update : Update} (mem : update ∈ n.members.expired now n.swim.suspicionTimeout) :
      update.member ≠ n.members.localId := by
    obtain ⟨member, found, _⟩ := MemberTable.mem_expired mem
    exact sound.members.ne_local found
  obtain ⟨after, applied, ⟨own, keepsU⟩, _⟩ := MemberTable.applyAll_spec
    (P := fun t => t.ownUpdate = n.members.ownUpdate ∧ ({ n with members := t } : Node).KeepsTo K)
    (n.members.expired now n.swim.suspicionTimeout) now
    (fun t t' update applied mem held wfT outcome => by
      have localId : t.localId = n.members.localId := congrArg Update.member held.1
      have kept := ownUpdate_of_peer outcome (localId ▸ other mem)
      refine ⟨kept.trans held.1, ?_⟩
      exact held.2.outcome outcome (died update mem) (kept ▸ held.2.own))
    sound.members ⟨rfl, keeps⟩
    (fun update mem => by
      obtain ⟨member, found, _⟩ := MemberTable.mem_expired mem
      simp [found])
  rw [MemberTable.expireSuspects, if_pos pos, applied, Option.map_some] at expires
  simp only [Option.some.injEq, Prod.mk.injEq] at expires
  obtain ⟨rfl, rfl⟩ := expires
  have keepsA : a.KeepsTo K := by
    refine spreadAll_keepsTo ?_ keepsU (fun update mem => ⟨died update mem, ?_⟩) spreads
    · exact ⟨wf, sound.gossip.follows self⟩
    · exact self.localId ▸ other mem
  exact (forgetDead_keepsTo keepsA _).same rfl rfl rfl

theorem alive_timedOut (sound : n.Sound) (h : n.timeOut now = some n') {peer : PeerId}
    {member : Member} (found : n'.members.members[peer]? = some member)
    (alive : member.status = .alive) : n.members.members[peer]? = some member := by
  simp only [timeOut, bind, Option.bind_eq_some_iff, Option.some.injEq] at h
  obtain ⟨⟨expired, members⟩, expires, a, spreads, rfl⟩ := h
  dsimp only at found
  rw [MemberTable.forgetDead_members, spreadAll_frame spreads] at found
  have found := Option.eq_some_of_filter_eq_some found
  by_cases pos : 0 < n.swim.suspicionTimeout
  · obtain ⟨after, expires', was, _⟩ := MemberTable.expireSuspects_spec now
      n.swim.suspicionTimeout
      (P := fun t => ∀ (peer : PeerId) (member : Member), t.members[peer]? = some member →
        member.status = .alive → n.members.members[peer]? = some member)
      (fun t t' suspect update applied _ _ _ accused held wf outcome peer member found alive => by
        cases outcome with
        | taken =>
          rw [ExtTreeMap.getElem?_insert] at found
          split at found
          · have dead : update.status = .dead := congrArg Update.status accused
            rw [← Option.some.inj found] at alive
            exact absurd (dead.symm.trans alive) (by decide)
          · exact held peer member found alive
        | _ => exact held peer member found alive)
      sound.members pos (fun _ _ found _ => found)
    rw [expires] at expires'
    simp only [Option.some.injEq, Prod.mk.injEq] at expires'
    obtain ⟨_, rfl⟩ := expires'
    exact was peer member found alive
  · simp [MemberTable.expireSuspects, pos] at expires

theorem round_keepsTo {decay : Nat → Nat → ℚ} (sound : n.Sound) (keeps : n.KeepsTo K)
    (missed : ∀ (probe : Probe) (member : Member), n.probe = some probe →
      n.members.members[probe.target]? = some member → member.status = .alive →
      K (member.accused probe.target .suspect))
    (h : n.round decay now = some n') : n'.KeepsTo K := by
  simp only [round, bind, Option.bind_eq_some_iff] at h
  obtain ⟨a, opened, b, policy, c, shares, d, reported, e, followed, stale, _, ⟨target, f⟩,
    chosen, h⟩ := h
  simp only [openRound, bind, Option.bind_eq_some_iff] at opened
  obtain ⟨_, _, opened⟩ := opened
  have keepsA : a.KeepsTo K := by
    refine missProbe_keepsTo ?_ ?_ ?_ opened
    · exact sound.same rfl rfl
    · exact keeps.same rfl rfl rfl
    · exact missed
  have frame := chooseTarget_frame chosen
  rw [followChanges_frame followed, reportDemand_frame reported, applyShares_frame shares,
    applyPolicy_frame policy] at frame
  have keepsF : f.KeepsTo K := by
    rw [frame]
    have cleared : ({ a with members := { a.members with changes := [] } } : Node).KeepsTo K :=
      keepsA.fewer rfl fun peer member found => ⟨member, found, rfl⟩
    exact cleared.same rfl rfl rfl
  dsimp only at h
  cases target with
  | none => exact Option.some.inj h ▸ keepsF
  | some target => exact (ping_spoken h).keeps keepsF

theorem tick_keepsTo {decay : Nat → Nat → ℚ} (sound : n.Sound) (keeps : n.KeepsTo K)
    (died : ∀ update ∈ n.members.expired now n.swim.suspicionTimeout, K update)
    (missed : ∀ (probe : Probe) (member : Member), n.nextRoundAt ≤ now → n.probe = some probe →
      n.members.members[probe.target]? = some member → member.status = .alive →
      K (member.accused probe.target .suspect))
    (h : n.tick decay now = some n') : n'.KeepsTo K := by
  simp only [tick, bind, Option.bind_eq_some_iff] at h
  obtain ⟨a, timed, b, rounds, h⟩ := h
  have soundA := timeOut_sound sound timed
  have keepsA := timeOut_keepsTo sound keeps died timed
  have frame := timeOut_frame timed
  obtain ⟨letters, _, spoken⟩ := escalate_spoken h
  refine spoken.keeps ?_
  split at rounds
  · rename_i due
    refine round_keepsTo soundA keepsA (fun probe member pending found alive => ?_) rounds
    rw [frame] at due pending
    exact missed probe member due pending (alive_timedOut sound timed found alive) alive
  · exact Option.some.inj rounds ▸ keepsA

theorem depart_keepsTo (keeps : n.KeepsTo K) (peer : PeerId) : (n.depart peer).KeepsTo K := by
  have frame := depart_frame n peer
  rw [frame]
  have left : ({ n with members := (n.members.depart peer).2 } : Node).KeepsTo K := by
    refine keeps.fewer ?_ fun other member found => ?_
    · rw [(n.members.depart_frame peer).1]
      rfl
    · rw [MemberTable.depart_members] at found
      obtain ⟨held, known, rfl⟩ := Option.map_eq_some_iff.mp found
      refine ⟨held, known, ?_⟩
      split <;> rfl
  exact left.same rfl rfl rfl

theorem receiveMessage_keepsTo {sender : PeerId} {message : Message} (sound : n.Sound)
    (keeps : n.KeepsTo K) (told : ∀ update ∈ message.updates, K update) (raised : n.Raised K n')
    (h : n.receiveMessage sender message now = some n') : n'.KeepsTo K := by
  simp only [receiveMessage, bind, Option.bind_eq_some_iff] at h
  obtain ⟨a, learned, h⟩ := h
  have learns (same : n'.members.incarnation = a.members.incarnation) : a.KeepsTo K := by
    refine learnAll_keepsTo ?_ ?_ told ?_ learned
    · exact sound.same rfl rfl
    · exact keeps.same rfl rfl rfl
    · exact fun incarnation above below => raised incarnation above (same ▸ below)
  cases message with
  | leave updates =>
    obtain rfl := Option.some.inj h
    refine depart_keepsTo (learns ?_) sender
    rw [depart_frame a sender, (a.members.depart_frame sender).1]
  | ping | ack | pingReq =>
    simp only [Option.bind_eq_some_iff] at h
    obtain ⟨b, heard, h⟩ := h
    obtain ⟨letters, _, spoken⟩ := answer_spoken h
    have members : n'.members = a.members := by rw [spoken.members, hear_frame heard]
    refine spoken.keeps ?_
    rw [hear_frame heard]
    exact (learns (members ▸ rfl)).same rfl rfl rfl

theorem sendLeave_keepsTo {own : Update} {peers : List PeerId} (keeps : n.KeepsTo K)
    (told : K own) (h : sendLeave own peers n = some n') : n'.KeepsTo K := by
  have said {m m' : Node} {peer : PeerId} (keeps : m.KeepsTo K)
      (sent : m.send peer (.leave [own]) = some m') : m'.KeepsTo K := by
    obtain ⟨bytes, encoded, rfl⟩ := send_some sent
    refine ⟨keeps.own, keeps.held, keeps.queued, fun peer bytes' update mem carries => ?_⟩
    rcases List.mem_append.mp mem with old | new
    · exact keeps.sent peer bytes' update old carries
    · obtain ⟨rfl, rfl⟩ := Action.sendTo.inj (List.mem_singleton.mp new)
      obtain ⟨message, decoded, mem⟩ := carries
      rw [decode_encode encoded, Except.ok.injEq] at decoded
      subst decoded
      exact List.mem_singleton.mp mem ▸ told
  induction peers generalizing n with
  | nil =>
    simp only [sendLeave, Option.some.injEq] at h
    exact h ▸ keeps
  | cons peer rest ih =>
    simp only [sendLeave, bind, Option.bind_eq_some_iff] at h
    obtain ⟨u, first, v, second, h⟩ := h
    exact ih (said (said keeps first) second) h

end

theorem step_table {decay : Nat → Nat → ℚ} {n n' : Node} {op : Op}
    (h : n.step decay op = some n') (unhandled : ∀ event now, op ≠ .handle event now)
    (alone : ∀ peer addr, op ≠ .introduce peer addr) :
    n'.members.members = n.members.members ∧ n'.members.ownUpdate = n.members.ownUpdate ∧
      n'.gossip = n.gossip := by
  cases op with
  | handle event now => exact absurd rfl (unhandled event now)
  | introduce peer addr => exact absurd rfl (alone peer addr)
  | addSeed seed addr =>
    simp only [step, addSeed] at h
    split at h
    · simp at h
    · rw [refreshCap_frame h]
      split <;> exact ⟨rfl, rfl, rfl⟩
  | removeSeed | expectPeers | setPartitionPolicy =>
    rw [refreshCap_frame h]
    exact ⟨rfl, rfl, rfl⟩
  | setQuorumMemory memory =>
    rw [← Option.some.inj h]
    exact ⟨rfl, rfl, rfl⟩
  | setMaxMembers max =>
    simp only [step, setMaxMembers, MemberTable.setMax, bind, Option.bind_eq_some_iff,
      Option.ite_none_right_eq_some, Option.some.injEq] at h
    obtain ⟨members, ⟨_, rfl⟩, rfl⟩ := h
    exact ⟨rfl, rfl, rfl⟩
  | record key tally limit now =>
    simp only [step, Node.record, bind, Option.bind_eq_some_iff, Option.some.injEq] at h
    obtain ⟨a, advanced, limiter, _, rfl⟩ := h
    obtain ⟨_, rfl⟩ := advance_some advanced
    exact ⟨rfl, rfl, rfl⟩
  | checkIn key limit now =>
    simp only [step, checkIn, bind, Option.bind_eq_some_iff, Option.map_eq_some_iff,
      Option.some.injEq] at h
    obtain ⟨_, ⟨a, advanced, ⟨decision, limiter⟩, _, rfl⟩, rfl⟩ := h
    obtain ⟨_, rfl⟩ := advance_some advanced
    exact ⟨rfl, rfl, rfl⟩
  | checkInTraced key limit shadow now =>
    simp only [step, checkInTraced, bind, Option.bind_eq_some_iff, Option.map_eq_some_iff,
      Option.some.injEq] at h
    obtain ⟨_, ⟨a, advanced, ⟨decisions, limiter⟩, _, rfl⟩, rfl⟩ := h
    obtain ⟨_, rfl⟩ := advance_some advanced
    exact ⟨rfl, rfl, rfl⟩
  | leave now =>
    simp only [step, leave, bind, Option.bind_eq_some_iff] at h
    obtain ⟨a, advanced, h⟩ := h
    obtain ⟨_, rfl⟩ := advance_some advanced
    split at h
    · rw [← Option.some.inj h]
      exact ⟨rfl, rfl, rfl⟩
    · simp only [Option.bind_eq_some_iff] at h
      obtain ⟨own, _, h⟩ := h
      rw [sendLeave_frame h]
      exact ⟨rfl, rfl, rfl⟩
  | rehash keys =>
    simp only [step, rehash, Option.ite_none_right_eq_some, Option.some.injEq] at h
    obtain ⟨_, rfl⟩ := h
    exact ⟨rfl, rfl, rfl⟩

theorem step_sameSelf {decay : Nat → Nat → ℚ} {n n' : Node} {op : Op} (sound : n.Sound)
    (h : n.step decay op = some n') : SameSelf n.members n'.members := by
  by_cases handles : ∃ event now, op = .handle event now
  · obtain ⟨event, now, rfl⟩ := handles
    exact handle_sameSelf sound h
  · have unhandled (event : Event) (now : Nat) (is : op = .handle event now) : False :=
      handles ⟨event, now, is⟩
    by_cases introduces : ∃ peer addr, op = .introduce peer addr
    · obtain ⟨peer, addr, rfl⟩ := introduces
      simp only [step, introduce] at h
      split at h
      · simp at h
      · simp only [bind, Option.bind_eq_some_iff] at h
        obtain ⟨⟨applied, members⟩, told, h⟩ := h
        have same := (MemberTable.apply_spec sound.members told).sameSelf
        split at h
        · rw [refreshCap_frame h]
          exact same
        · exact Option.some.inj h ▸ same
    · have own := (step_table h unhandled fun peer addr is => introduces ⟨peer, addr, is⟩).2.1
      exact ⟨congrArg Update.member own, congrArg Update.addr own,
        UInt32.le_of_eq (congrArg Update.incarnation own).symm⟩

/-- The spec of a step: what it makes known and sends is what was known, what it took in, and what
    it is the source of. -/
theorem step_keepsTo {decay : Nat → Nat → ℚ} {n n' : Node} {op : Op} (sound : n.Sound)
    (h : n.step decay op = some n') {K : Update → Prop} (knew : ∀ update, n.Knows update → K update)
    (took : ∀ sender bytes update, op.datagram = some (sender, bytes) → BytesCarry bytes update →
      K update)
    (source : ∀ update, n.Source op n' update → K update) :
    (∀ update, n'.Knows update → K update) ∧
      ∀ recipient bytes update, (recipient, bytes) ∈ op.emits n' → BytesCarry bytes update →
        K update := by
  have start {m : Node} (members : m.members = n.members) (gossip : m.gossip = n.gossip)
      (silent : m.actions = []) : m.KeepsTo K := by
    refine ⟨members ▸ knew _ .own, fun peer member found => ?_, fun peer pending found => ?_, ?_⟩
    · exact knew _ (.held peer member (members ▸ found))
    · exact knew _ (.queued peer pending (gossip ▸ found))
    · simp [silent]
  have keeps (is : (∃ event at_, op = .handle event at_) ∨ ∃ at_, op = .leave at_)
      (keeps : n'.KeepsTo K) : (∀ update, n'.Knows update → K update) ∧
        ∀ recipient bytes update, (recipient, bytes) ∈ op.emits n' → BytesCarry bytes update →
          K update := by
    refine ⟨fun update => keeps.knows, fun recipient bytes update mem carries => ?_⟩
    have sent : Action.sendTo recipient bytes ∈ n'.actions := by
      rcases is with ⟨event, at_, rfl⟩ | ⟨at_, rfl⟩ <;>
      · obtain ⟨⟨peer, bytes'⟩, given, same⟩ := List.mem_map.mp mem
        simp only [Prod.mk.injEq] at same
        obtain ⟨rfl, rfl⟩ := same
        exact given
    exact keeps.sent recipient bytes update sent carries
  cases op with
  | handle event at_ =>
    refine keeps (.inl ⟨event, at_, rfl⟩) ?_
    obtain ⟨_, rfl | ⟨present, rfl, ticked⟩ |
      ⟨sender, bytes, message, present, rfl, _, decoded, _, taken⟩⟩ := handle_cases h
    · exact start rfl rfl rfl
    · refine tick_keepsTo ?_ ?_ (fun update mem => ?_) ?_ ticked
      · exact sound.same rfl rfl
      · exact start rfl rfl rfl
      · obtain ⟨member, found, suspect, due, accused⟩ := MemberTable.mem_expired mem
        exact accused ▸ source _ (.expires at_ _ member rfl present found suspect due)
      · intro probe member due pending found alive
        exact source _ (.misses at_ probe member rfl present due pending found alive)
    · refine receiveMessage_keepsTo ?_ ?_ ?_ (fun incarnation above below => ?_) taken
      · exact sound.same rfl rfl
      · exact start rfl rfl rfl
      · exact fun update mem => took sender bytes update rfl ⟨message, decoded, mem⟩
      · rcases UInt32.le_iff_lt_or_eq.mp above with higher | same
        · exact source _ (.refutes incarnation higher below)
        · exact same ▸ knew _ .own
  | leave at_ =>
    refine keeps (.inr ⟨at_, rfl⟩) ?_
    simp only [step, leave, bind, Option.bind_eq_some_iff] at h
    obtain ⟨a, advanced, h⟩ := h
    obtain ⟨_, rfl⟩ := advance_some advanced
    split at h
    · exact Option.some.inj h ▸ start rfl rfl rfl
    · rename_i present
      simp only [Option.bind_eq_some_iff] at h
      obtain ⟨own, itself, h⟩ := h
      have itself : own = n.members.ownUpdate := by
        simpa [MemberTable.updateAbout, eq_comm] using itself
      subst itself
      refine sendLeave_keepsTo ?_ (source _ (.leaves at_ rfl (by simpa using present))) h
      exact start rfl rfl rfl
  | introduce peer addr =>
    have opened : ({ n with actions := [] } : Node).KeepsTo K := start rfl rfl rfl
    simp only [step, introduce] at h
    split at h
    · simp at h
    · rename_i other
      simp only [bind, Option.bind_eq_some_iff] at h
      obtain ⟨⟨applied, members⟩, told, h⟩ := h
      have outcome := MemberTable.apply_spec sound.members told
      have kept : members.ownUpdate = n.members.ownUpdate := ownUpdate_of_peer outcome other
      have told : ({ n with members, actions := [] } : Node).KeepsTo K :=
        opened.outcome outcome (source _ (.introduces peer addr rfl)) (kept ▸ opened.own)
      have same : n'.members = members ∧ n'.gossip = n.gossip := by
        split at h
        · rw [refreshCap_frame h]
          exact ⟨rfl, rfl⟩
        · exact Option.some.inj h ▸ ⟨rfl, rfl⟩
      have silent : ({ n' with actions := [] } : Node).KeepsTo K := told.same same.1 same.2 rfl
      refine ⟨fun update knows => ?_, by simp [Op.emits]⟩
      cases knows with
      | own => exact silent.own
      | held peer member found => exact silent.held peer member found
      | queued peer pending found => exact silent.queued peer pending found
  | addSeed | removeSeed | expectPeers | setPartitionPolicy | setQuorumMemory | setMaxMembers
  | record | checkIn | checkInTraced | rehash =>
    obtain ⟨members, own, gossip⟩ := step_table h (by simp) (by simp)
    refine ⟨fun update knows => ?_, by simp [Op.emits]⟩
    cases knows with
    | own => exact own ▸ knew _ .own
    | held peer member found => exact knew _ (.held peer member (members ▸ found))
    | queued peer pending found => exact knew _ (.queued peer pending (gossip ▸ found))

end Node
end Rateguard
