import Rateguard.DepartedStays
import Rateguard.Leaves
import Rateguard.Outgoing
import Rateguard.Rounds

/- The messages an event writes, each with the node as it puts it together, and what the event does
   before the first of them. -/
namespace Rateguard
open Std (ExtTreeMap)
namespace Node

/- The same as far as what it says goes. -/
structure SameVoice (n n' : Node) : Prop where
  members : n'.members = n.members
  gossip : n'.gossip = n.gossip
  behind : n'.behind = n.behind
  introducing : n'.introducing = n.introducing
  actions : n'.actions = n.actions

theorem SameVoice.refl (n : Node) : SameVoice n n := ⟨rfl, rfl, rfl, rfl, rfl⟩

theorem SameVoice.trans {n m n' : Node} (first : SameVoice n m) (second : SameVoice m n') :
    SameVoice n n' :=
  ⟨second.members.trans first.members, second.gossip.trans first.gossip,
    second.behind.trans first.behind, second.introducing.trans first.introducing,
    second.actions.trans first.actions⟩

/- A message as it is put together: whom it is for, and the node that writes it. -/
structure Letter where
  recipient : PeerId
  writer : Node

/- The letters written on the way from one state to another, in their order. -/
inductive Spoken : Node → List Letter → Node → Prop
  | silent {n n' : Node} : SameVoice n n' → Spoken n [] n'
  | letter {n writer u v n' : Node} {recipient : PeerId} {updates : List Update}
      {message : Message} {letters : List Letter} : SameVoice n writer →
      writer.outgoing recipient = some (updates, u) → u.send recipient message = some v →
      message.updates = updates → Spoken v letters n' →
      Spoken n (⟨recipient, writer⟩ :: letters) n'

theorem Spoken.after {n m n' : Node} {letters : List Letter} (same : SameVoice n m)
    (spoken : Spoken m letters n') : Spoken n letters n' := by
  cases spoken with
  | silent last => exact .silent (same.trans last)
  | letter first out sent told rest => exact .letter (same.trans first) out sent told rest

theorem Spoken.append {n m n' : Node} {one two : List Letter} (first : Spoken n one m)
    (second : Spoken m two n') : Spoken n (one ++ two) n' := by
  induction first with
  | silent same => exact second.after same
  | letter same out sent told _ ih => exact .letter same out sent told (ih second)

/- The letters of each part of an event, where the source calls outgoing. -/
def helperLetters (target : PeerId) (seq : UInt32) : List PeerId → Node → Option (List Letter)
  | [], _ => some []
  | helper :: rest, n => do
    let (updates, m) ← n.outgoing helper
    let m ← m.send helper (.pingReq seq target updates m.outgoingDemand)
    let letters ← helperLetters target seq rest m
    some (⟨helper, n⟩ :: letters)

def escalateLetters (n : Node) (now : Nat) : Option (List Letter) :=
  match n.probe with
  | none => some []
  | some probe =>
    if probe.helpers.isSome then some []
    else do
      let due ← addU64 probe.sentAt n.swim.ackTimeout
      if now < due then some []
      else
        let candidates := n.members.live.filter fun peer =>
          peer ≠ probe.target && n.members.status peer = some .alive
        let (shuffled, rng) ← n.rng.shuffle candidates
        helperLetters probe.target probe.seq (shuffled.take n.swim.indirectProbes) { n with rng }

def pingLetter (n : Node) (target : PeerId) (now : Nat) : Letter :=
  let (seq, n) := n.nextSeq
  ⟨target, { n with probe := some ⟨target, seq, now, none⟩ }⟩

def answerLetters (n : Node) (sender : PeerId) : Message → Nat → Option (List Letter)
  | .ping .., _ => some [⟨sender, n⟩]
  | .ack seq _ _, _ =>
    let answers := n.probe.filter fun probe => probe.seq = seq &&
      (sender = probe.target || probe.helpers.any (·.contains sender))
    if answers.isSome then some []
    else match n.relays[seq]? with
      | some relay =>
        if relay.target = sender
          then some [⟨relay.requester, { n with relays := n.relays.erase seq }⟩] else some []
      | none => some []
  | .pingReq seq target _ _, now =>
    if target = n.members.localId then some [⟨sender, n⟩]
    else do
      let (own, n) := n.nextSeq
      let expiresAt ← addU64 now n.swim.protocolPeriod
      some [⟨target, { n with relays := n.relays.insert own ⟨sender, seq, target, expiresAt⟩ }⟩]
  | .leave _, _ => some []

section
variable (decay : Nat → Nat → ℚ)

def roundLetters (n : Node) (now : Nat) : Option (List Letter) := do
  let n ← n.openRound now
  let n ← n.applyPolicy now
  let n ← n.applyShares decay now
  let n ← n.reportDemand now
  let n ← n.followChanges now
  let stale ← n.staleAfter n.allocationSize
  let n := { n with peerDemand := n.peerDemand.expire now (satAdd stale (holdOf n.policy)) }
  let (target, n) ← n.chooseTarget now
  some (target.toList.map fun target => n.pingLetter target now)

def tickLetters (n : Node) (now : Nat) : Option (List Letter) := do
  let n ← n.timeOut now
  let letters ← (if n.nextRoundAt ≤ now then n.roundLetters decay now else some [])
  let n ← (if n.nextRoundAt ≤ now then n.round decay now else some n)
  let more ← n.escalateLetters now
  some (letters ++ more)

def messageLetters (n : Node) (sender : PeerId) (message : Message) (now : Nat) :
    Option (List Letter) := do
  let n := { n with behind := if n.opensBehind sender message then n.behind.insert sender
    else n.behind.erase sender }
  let newcomer := !n.isLive sender
  let n ← n.learnAll message.updates now
  match message with
  | .leave _ => some []
  | message => do
    let n ← n.hear sender newcomer message now
    n.answerLetters sender message now

/- Those of an event. -/
def letters (n : Node) (event : Event) (now : Nat) : Option (List Letter) := do
  let n ← n.advance now
  let n := { n with actions := [] }
  if n.left then some []
  else match event with
    | .tick => n.tickLetters decay now
    | .messageReceived sender bytes =>
      if sender = n.members.localId then some []
      else match decode bytes with
        | .error _ => some []
        | .ok message =>
          if wellFormedLeave sender message then n.messageLetters sender message now else some []

end

variable {n n' : Node} {now : Nat}

theorem Spoken.members {letters : List Letter} (spoken : Spoken n letters n') :
    n'.members = n.members := by
  induction spoken with
  | silent same => exact same.members
  | letter same out sent _ _ ih =>
    obtain ⟨bytes, _, rfl⟩ := send_some sent
    rw [ih, ← same.members]
    dsimp only
    rw [outgoing_frame out]

/- One letter, and no other. -/
theorem spoken_one {writer u : Node} {recipient : PeerId} {updates : List Update}
    {message : Message} (same : SameVoice n writer)
    (out : writer.outgoing recipient = some (updates, u))
    (sent : u.send recipient message = some n') (told : message.updates = updates) :
    Spoken n [⟨recipient, writer⟩] n' :=
  .letter same out sent told (.silent (.refl n'))

theorem ping_spoken {target : PeerId} (h : n.ping target now = some n') :
    Spoken n [n.pingLetter target now] n' := by
  simp only [ping, nextSeq, bind, Option.bind_eq_some_iff] at h
  obtain ⟨⟨updates, u⟩, out, h⟩ := h
  exact spoken_one ⟨rfl, rfl, rfl, rfl, rfl⟩ out h rfl

theorem ack_spoken {recipient : PeerId} {seq : UInt32} (h : n.ack recipient seq = some n') :
    Spoken n [⟨recipient, n⟩] n' := by
  simp only [ack, bind, Option.bind_eq_some_iff] at h
  obtain ⟨⟨updates, u⟩, out, h⟩ := h
  exact spoken_one (.refl n) out h rfl

theorem askHelpers_spoken {target : PeerId} {seq : UInt32} {helpers : List PeerId}
    (h : askHelpers target seq helpers n = some n') :
    ∃ letters, helperLetters target seq helpers n = some letters ∧ Spoken n letters n' := by
  induction helpers generalizing n with
  | nil =>
    obtain rfl := Option.some.inj h
    exact ⟨[], rfl, .silent (.refl n)⟩
  | cons helper rest ih =>
    simp only [askHelpers, bind, Option.bind_eq_some_iff] at h
    obtain ⟨⟨updates, u⟩, out, v, sent, h⟩ := h
    obtain ⟨letters, written, spoken⟩ := ih h
    refine ⟨⟨helper, n⟩ :: letters, ?_, .letter (.refl n) out sent rfl spoken⟩
    simp only [helperLetters, out, bind, Option.bind_some, sent, written]

theorem escalate_spoken (h : n.escalate now = some n') :
    ∃ letters, n.escalateLetters now = some letters ∧ Spoken n letters n' := by
  unfold escalate at h
  unfold escalateLetters
  cases pending : n.probe with
  | none =>
    rw [pending] at h
    obtain rfl := Option.some.inj h
    exact ⟨[], rfl, .silent (.refl n)⟩
  | some probe =>
    rw [pending] at h
    dsimp only at h ⊢
    split at h
    · rename_i asked
      obtain rfl := Option.some.inj h
      exact ⟨[], if_pos asked, .silent (.refl n)⟩
    · rename_i unasked
      rw [if_neg unasked]
      simp only [bind, Option.bind_eq_some_iff] at h
      obtain ⟨due, added, h⟩ := h
      simp only [added, bind, Option.bind_some]
      split at h
      · rename_i early
        obtain rfl := Option.some.inj h
        exact ⟨[], if_pos early, .silent (.refl n)⟩
      · rename_i late
        simp only [Option.bind_eq_some_iff, Option.some.injEq] at h
        obtain ⟨⟨shuffled, rng⟩, drawn, u, asks, rfl⟩ := h
        obtain ⟨letters, written, spoken⟩ := askHelpers_spoken asks
        refine ⟨letters, ?_, ?_⟩
        · rw [if_neg late, drawn, Option.bind_some, written]
        · rw [← List.append_nil letters]
          refine (spoken.append (.silent ?_)).after ?_
          · exact ⟨rfl, rfl, rfl, rfl, rfl⟩
          · exact ⟨rfl, rfl, rfl, rfl, rfl⟩

theorem answer_spoken {sender : PeerId} {message : Message}
    (h : n.answer sender message now = some n') :
    ∃ letters, n.answerLetters sender message now = some letters ∧ Spoken n letters n' := by
  cases message with
  | ping seq updates demand => exact ⟨_, rfl, ack_spoken h⟩
  | leave updates => simp [answer] at h
  | ack seq updates demand =>
    simp only [answer, acknowledged] at h
    simp only [answerLetters]
    split at h
    · rename_i answers
      simp only [bind, Option.bind_eq_some_iff, Option.some.injEq] at h
      obtain ⟨peerDemand, _, rfl⟩ := h
      rw [answers]
      exact ⟨[], rfl, .silent ⟨rfl, rfl, rfl, rfl, rfl⟩⟩
    · rename_i unasked
      rw [unasked]
      cases found : n.relays[seq]? with
      | none =>
        rw [found] at h
        obtain rfl := Option.some.inj h
        exact ⟨[], rfl, .silent (.refl n)⟩
      | some relay =>
        rw [found] at h
        dsimp only at h ⊢
        split at h
        · rename_i itself
          simp only [bind, Option.bind_eq_some_iff] at h
          obtain ⟨⟨told, u⟩, out, h⟩ := h
          refine ⟨_, if_pos itself, spoken_one ⟨rfl, rfl, rfl, rfl, rfl⟩ out h rfl⟩
        · rename_i other
          obtain rfl := Option.some.inj h
          exact ⟨[], if_neg other, .silent (.refl n)⟩
  | pingReq seq target updates demand =>
    simp only [answer, relay] at h
    simp only [answerLetters]
    split at h
    · rename_i itself
      exact ⟨_, if_pos itself, ack_spoken h⟩
    · rename_i other
      simp only [nextSeq, bind, Option.bind_eq_some_iff] at h
      obtain ⟨expiresAt, added, ⟨told, u⟩, out, h⟩ := h
      refine ⟨_, ?_, spoken_one ?_ out h rfl⟩
      · rw [if_neg other]
        simp only [nextSeq, added, bind, Option.bind_some]
      · exact ⟨rfl, rfl, rfl, rfl, rfl⟩

/- Live is in the live list, or the node itself. -/
theorem isLive_iff (wf : n.members.WellFormed) {peer : PeerId} :
    n.isLive peer = true ↔ peer = n.members.localId ∨ peer ∈ n.members.live := by
  by_cases own : peer = n.members.localId
  · simp [isLive, MemberTable.status, own]
  · rw [wf.mem_live, isLive, MemberTable.status, if_neg own, Bool.or_eq_true, decide_eq_true_eq,
      decide_eq_true_eq]
    cases found : n.members.members[peer]? with
    | none => simp [own]
    | some member => cases status : member.status <;> simp [own, Member.isLive, status]

/- News of a tick makes nobody live. -/
theorem revives_nobody {start : MemberTable} {peer : PeerId} (absent : peer ∉ start.live)
    (wf : start.WellFormed) :
    KeptByNews start fun t => ¬ (peer = t.localId ∨ peer ∈ t.live) where
  accused := by
    intro t t' update now applied member known live _ absentT wfT outcome there
    rw [outcome.localId] at there
    rcases there with own | there
    · exact absentT (.inl own)
    · obtain ⟨member', found, alive⟩ := ((outcome.wellFormed wfT).live_iff peer).mp there
      by_cases same : peer = update.member
      · subst same
        rcases known with known | known
        · exact absent ((wf.live_iff _).mpr ⟨member, known, live⟩)
        · exact absentT (.inr ((wfT.live_iff _).mpr ⟨member, known, live⟩))
      · rw [outcome.others same] at found
        exact absentT (.inr ((wfT.live_iff _).mpr ⟨member', found, alive⟩))
  forgot := fun _ _ _ absentT => absentT

theorem openRound_live {peer : PeerId} (sound : n.Sound) (h : n.openRound now = some n')
    (live : n'.isLive peer = true) : n.isLive peer = true := by
  rw [isLive_iff (openRound_sound sound h).members] at live
  rw [isLive_iff sound.members]
  simp only [openRound, bind, Option.bind_eq_some_iff] at h
  obtain ⟨_, _, missed⟩ := h
  by_contra absent
  refine missProbe_table (revives_nobody (fun mem => absent (.inr mem)) sound.members) ?_ ?_ missed
    live
  · exact sound.same rfl rfl
  · exact absent

/- What times out ends the introduction of nobody that is live. -/
theorem timeOut_introducing {peer : PeerId} (sound : n.Sound) (h : n.timeOut now = some n')
    (stands : n'.isLive peer = true ∨ n'.introducing[peer]?.isSome) :
    n'.introducing[peer]? = n.introducing[peer]? := by
  have sound' := timeOut_sound sound h
  rw [isLive_iff sound'.members] at stands
  simp only [timeOut, bind, Option.bind_eq_some_iff, Option.some.injEq] at h
  obtain ⟨⟨expired, members⟩, expires, a, spreads, rfl⟩ := h
  have frame := spreadAll_frame spreads
  have wf : a.members.WellFormed := by
    rw [frame]
    exact (expireSuspects_sound sound expires).1
  have introducing : a.introducing = n.introducing := by rw [frame]
  dsimp only at stands ⊢
  rw [ExtTreeMap.getElem?_filter', introducing] at stands ⊢
  cases found : n.introducing[peer]? with
  | none => rfl
  | some start =>
    rw [found, Option.filter_some] at stands
    rw [Option.filter_some]
    by_cases live : a.isLive peer = true
    · rw [if_pos live]
    · rcases stands with known | kept
      · exact absurd ((isLive_iff wf).mpr known) live
      · simp [live] at kept

/- What an event has done when it writes its first letter: the membership is as it will be, nothing
   is sent, and introductions have only begun, but for those of the dead. -/
structure Ready (n m n' : Node) (begun : PeerId → Bool) : Prop where
  members : n'.members = m.members
  actions : m.actions = n.actions
  introducing : ∀ peer, n'.isLive peer = true ∨ m.introducing[peer]?.isSome →
    m.introducing[peer]? = if begun peer then some none else n.introducing[peer]?

theorem round_spoken {decay : Nat → Nat → ℚ} (h : n.round decay now = some n') :
    ∃ a m letters, n.openRound now = some a ∧ n.roundLetters decay now = some letters ∧
      Spoken m letters n' ∧ m.actions = a.actions ∧ m.introducing = a.introducing ∧
      m.members.localId = a.members.localId ∧ m.members.live = a.members.live := by
  simp only [round, bind, Option.bind_eq_some_iff] at h
  obtain ⟨a, opened, b, policy, c, shares, d, reported, e, followed, stale, window, ⟨target, f⟩,
    chosen, h⟩ := h
  have frame := chooseTarget_frame chosen
  have frameD := reportDemand_frame reported
  rw [applyShares_frame shares, applyPolicy_frame policy] at frameD
  have frameE := followChanges_frame followed
  rw [frameD] at frameE
  rw [frameE] at frame
  have written : n.roundLetters decay now =
      some (target.toList.map fun target => f.pingLetter target now) := by
    simp only [roundLetters, opened, policy, shares, reported, followed, window, chosen, bind,
      Option.bind_some]
  refine ⟨a, f, _, opened, written, ?_, ?_, ?_, ?_, ?_⟩
  · dsimp only at h
    cases target with
    | none =>
      obtain rfl := Option.some.inj h
      exact .silent (.refl f)
    | some target => exact ping_spoken h
  all_goals rw [frame]

theorem tick_spoken {decay : Nat → Nat → ℚ} (sound : n.Sound) (h : n.tick decay now = some n') :
    ∃ m letters, n.tickLetters decay now = some letters ∧ Spoken m letters n' ∧
      Ready n m n' fun _ => false := by
  have ticked := h
  simp only [tick, bind, Option.bind_eq_some_iff] at ticked
  obtain ⟨b, timed, c, ran, escalated⟩ := ticked
  obtain ⟨more, asks, spokenLast⟩ := escalate_spoken escalated
  have soundB := timeOut_sound sound timed
  have actionsB : b.actions = n.actions := by rw [timeOut_frame timed]
  have introducingB {peer : PeerId} :
      b.isLive peer = true ∨ b.introducing[peer]?.isSome →
      b.introducing[peer]? = n.introducing[peer]? := timeOut_introducing sound timed
  split at ran
  · rename_i due
    obtain ⟨a, m, letters, opened, written, spoken, actions, introducing, itself, live⟩ :=
      round_spoken ran
    have soundA := openRound_sound soundB opened
    have sent := spoken.append spokenLast
    refine ⟨m, letters ++ more, ?_, sent, sent.members, ?_, fun peer stands => ?_⟩
    · simp only [tickLetters, timed, if_pos due, written, ran, asks, bind, Option.bind_some]
    · rw [actions, (openRound_frame opened).1, actionsB]
    · rw [introducing, (openRound_frame opened).1] at stands ⊢
      refine introducingB (stands.imp_left fun alive => openRound_live soundB opened ?_)
      rw [isLive_iff (tick_sound sound h).members, sent.members, itself, live] at alive
      exact (isLive_iff soundA.members).mpr alive
  · rename_i early
    obtain rfl := Option.some.inj ran
    refine ⟨b, more, ?_, spokenLast, spokenLast.members, actionsB, fun peer stands => ?_⟩
    · simp only [tickLetters, timed, if_neg early, asks, bind, Option.bind_some, List.nil_append]
    · refine introducingB (stands.imp_left fun alive => ?_)
      rw [isLive, ← spokenLast.members]
      exact alive

/- A newcomer's introduction begins: a peer that was not live is Alive after a message of its own. -/
def introduces (n : Node) (event : Event) (n' : Node) (peer : PeerId) : Bool :=
  match event with
  | .messageReceived sender _ =>
    sender = peer && !n.isLive peer && n'.members.status peer = some .alive
  | .tick => false

/- News of a death revives nobody. -/
theorem learnAll_death {own : Update} (sound : n.Sound) (dead : own.status = .dead)
    (absent : own.member ∉ n.members.live) (learned : n.learnAll [own] now = some n') :
    own.member ∉ n'.members.live := by
  refine learnAll_table (P := fun t => own.member ∉ t.live) sound ?_ absent learned
  intro t t' update applied mem notLive wf outcome there
  obtain rfl := List.mem_singleton.mp mem
  obtain ⟨member, found, alive⟩ := ((outcome.wellFormed wf).live_iff _).mp there
  cases outcome with
  | taken =>
    rw [ExtTreeMap.getElem?_insert_self, Option.some.injEq] at found
    rw [← found, record_isLive, dead] at alive
    exact absurd alive (by decide)
  | _ => exact notLive ((wf.live_iff _).mpr ⟨member, found, alive⟩)

theorem learnAll_localId {updates : List Update} (sound : n.Sound)
    (learned : n.learnAll updates now = some n') : n'.members.localId = n.members.localId :=
  learnAll_table (P := fun t => t.localId = n.members.localId) sound
    (fun _ _ _ _ _ same _ outcome => outcome.localId.trans same) rfl learned

theorem depart_members_frame (n : Node) (peer : PeerId) :
    (n.depart peer).members.localId = n.members.localId ∧
      (n.depart peer).members.live = n.members.live := by
  rw [depart_frame n peer, (n.members.depart_frame peer).1]
  exact ⟨rfl, rfl⟩

/- A leave leaves its sender dead, if it was not live; if it was and is, it ends nothing. -/
theorem leave_introducing {sender : PeerId} {updates : List Update} (sound : n.Sound)
    (other : sender ≠ n.members.localId) (shaped : wellFormedLeave sender (.leave updates) = true)
    (learned : n.learnAll updates now = some n') {peer : PeerId} :
    ((n'.depart sender).isLive peer = true ∨ (n'.depart sender).introducing[peer]?.isSome →
      (n'.depart sender).introducing[peer]? = n.introducing[peer]?) ∧
    (peer = sender → (n'.depart sender).isLive peer = true → n.isLive peer = true) := by
  have soundN' := learnAll_sound sound learned
  have introducing : n'.introducing = n.introducing := by rw [learnAll_frame learned]
  have itself : n'.members.localId = n.members.localId := learnAll_localId sound learned
  obtain ⟨itself', live'⟩ := depart_members_frame n' sender
  rw [isLive_iff (depart_sound soundN' sender).members, itself', live', itself]
  constructor
  · intro stands
    by_cases marked : (n'.members.depart sender).1 = true
    · have ended : (n'.depart sender).introducing = n'.introducing.erase sender := by
        unfold depart
        simp only [marked, Bool.not_true, Bool.false_eq_true, ↓reduceIte]
      rw [ended, ExtTreeMap.getElem?_erase] at stands ⊢
      by_cases same : compare sender peer = .eq
      · obtain rfl := Std.LawfulEqCmp.eq_of_compare same
        rw [if_pos same, or_iff_right other] at stands
        rcases stands with live | kept
        · obtain ⟨member, found, alive⟩ := (soundN'.members.live_iff sender).mp live
          rw [MemberTable.depart_marks, found] at marked
          have status : member.status ≠ .dead := by simpa [Member.isLive] using alive
          simp [status] at marked
        · simp at kept
      · rw [if_neg same, introducing]
    · rw [depart_unmarked (by simpa using marked), introducing]
  · rintro rfl live
    rw [or_iff_right other] at live
    rw [isLive_iff sound.members]
    right
    by_contra absent
    simp only [wellFormedLeave] at shaped
    split at shaped
    · rename_i own
      simp only [Bool.and_eq_true, decide_eq_true_eq] at shaped
      obtain ⟨rfl, dead⟩ := shaped
      exact learnAll_death sound dead absent learned live
    · simp at shaped

theorem hear_introducing {sender : PeerId} {newcomer : Bool} {message : Message}
    (h : n.hear sender newcomer message now = some n') (peer : PeerId) :
    n'.introducing[peer]? =
      if sender = peer && newcomer && n.members.status peer = some .alive then some none
      else n.introducing[peer]? := by
  simp only [hear, bind, Option.bind_eq_some_iff, Option.some.injEq] at h
  obtain ⟨peerDemand, _, rfl⟩ := h
  by_cases same : sender = peer
  · subst same
    simp only [decide_true, Bool.true_and]
    split
    · exact ExtTreeMap.getElem?_insert_self
    · rfl
  · simp only [same, decide_false, Bool.false_and, Bool.false_eq_true, if_false]
    split
    · have apart : compare sender peer ≠ .eq :=
        fun equal => same (Std.LawfulEqCmp.eq_of_compare equal)
      rw [ExtTreeMap.getElem?_insert, if_neg apart]
    · rfl

theorem receiveMessage_spoken {sender : PeerId} {message : Message} (bytes : List UInt8)
    (sound : n.Sound) (other : sender ≠ n.members.localId)
    (shaped : wellFormedLeave sender message = true)
    (h : n.receiveMessage sender message now = some n') :
    ∃ m letters, n.messageLetters sender message now = some letters ∧ Spoken m letters n' ∧
      Ready n m n' (n.introduces (.messageReceived sender bytes) n') := by
  simp only [receiveMessage, bind, Option.bind_eq_some_iff] at h
  obtain ⟨a, learned, h⟩ := h
  have frame := learnAll_frame learned
  cases message with
  | leave updates =>
    obtain rfl := Option.some.inj h
    refine ⟨a.depart sender, [], ?_, .silent (.refl _), rfl, ?_, fun peer stands => ?_⟩
    · simp only [messageLetters, learned, bind, Option.bind_some]
    · rw [depart_frame a sender, frame]
    · have ended := fun opened stranger =>
        @leave_introducing _ _ _ _ _ opened stranger shaped learned peer
      obtain ⟨kept, was⟩ := ended (sound.same rfl rfl) other
      have begun : n.introduces (.messageReceived sender bytes) (a.depart sender) peer = false := by
        by_contra begins
        simp only [introduces, Bool.not_eq_false, Bool.and_eq_true, decide_eq_true_eq,
          Bool.not_eq_eq_eq_not, Bool.not_true] at begins
        obtain ⟨⟨rfl, dead⟩, alive⟩ := begins
        have live : (a.depart sender).isLive sender = true := by simp [isLive, alive]
        exact Bool.false_ne_true (dead.symm.trans (was rfl live))
      rw [kept stands, begun]
      rfl
  | ping | ack | pingReq =>
    simp only [Option.bind_eq_some_iff] at h
    obtain ⟨b, heard, h⟩ := h
    obtain ⟨letters, written, spoken⟩ := answer_spoken h
    refine ⟨b, letters, ?_, spoken, spoken.members, ?_, fun peer _ => ?_⟩
    · simp only [messageLetters, learned, heard, written, bind, Option.bind_some]
    · rw [hear_frame heard, frame]
    · have members : n'.members = a.members := by rw [spoken.members, hear_frame heard]
      have introducing : a.introducing = n.introducing := by rw [frame]
      rw [hear_introducing heard peer, introducing, introduces, members]
      by_cases same : sender = peer
      · subst same
        rfl
      · simp [same]

theorem handle_spoken {decay : Nat → Nat → ℚ} {event : Event} (sound : n.Sound)
    (h : n.handle decay event now = some n') :
    ∃ m letters, n.letters decay event now = some letters ∧ Spoken m letters n' ∧
      Ready { n with actions := [] } m n' (n.introduces event n') := by
  simp only [handle, bind, Option.bind_eq_some_iff] at h
  obtain ⟨a, advanced, h⟩ := h
  obtain ⟨_, same⟩ := advance_some advanced
  subst same
  have idle (unmoved : n' = { n with lastNow := now, actions := [] }) :
      Spoken { n with lastNow := now, actions := [] } [] n' ∧
        Ready { n with actions := [] } { n with lastNow := now, actions := [] } n'
          (n.introduces event n') := by
    subst unmoved
    refine ⟨.silent (.refl _), rfl, rfl, fun peer _ => ?_⟩
    cases event with
    | tick => rfl
    | messageReceived sender bytes =>
      have begun : n.introduces (.messageReceived sender bytes)
          { n with lastNow := now, actions := [] } peer = false := by
        by_contra begins
        simp only [introduces, Bool.not_eq_false, Bool.and_eq_true, decide_eq_true_eq,
          Bool.not_eq_eq_eq_not, Bool.not_true] at begins
        obtain ⟨⟨_, dead⟩, alive⟩ := begins
        simp [isLive, alive] at dead
      rw [begun]
      rfl
  have opened : ({ n with lastNow := now, actions := [] } : Node).Sound := sound.same rfl rfl
  simp only [letters, advanced, bind, Option.bind_some]
  split at h
  · rename_i left
    obtain ⟨spoken, ready⟩ := idle (Option.some.inj h).symm
    exact ⟨_, _, if_pos left, spoken, ready⟩
  rename_i present
  rw [if_neg present]
  cases event with
  | tick =>
    obtain ⟨m, letters, written, spoken, ready⟩ := tick_spoken opened h
    exact ⟨m, letters, written, spoken, ready.members, ready.actions, ready.introducing⟩
  | messageReceived sender bytes =>
    simp only [receive] at h
    split at h
    · rename_i itself
      obtain ⟨spoken, ready⟩ := idle (Option.some.inj h).symm
      exact ⟨_, _, if_pos itself, spoken, ready⟩
    rename_i other
    dsimp only
    rw [if_neg other]
    cases decoded : decode bytes with
    | error problem =>
      rw [decoded] at h
      obtain ⟨spoken, ready⟩ := idle (Option.some.inj h).symm
      exact ⟨_, _, rfl, spoken, ready⟩
    | ok message =>
      rw [decoded] at h
      dsimp only at h ⊢
      split at h
      · rename_i shaped
        obtain ⟨m, letters, written, spoken, ready⟩ :=
          receiveMessage_spoken bytes opened other shaped h
        rw [if_pos shaped]
        exact ⟨m, letters, written, spoken, ready.members, ready.actions, ready.introducing⟩
      · rename_i misshaped
        obtain ⟨spoken, ready⟩ := idle (Option.some.inj h).symm
        exact ⟨_, _, if_neg misshaped, spoken, ready⟩

end Node
end Rateguard
