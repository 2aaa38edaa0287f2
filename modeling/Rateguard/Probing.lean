import Rateguard.Rounds
import Rateguard.Tables

/- What a node does with its probe, its relays and its sequence numbers in one event, and what it
   sends. -/
namespace Rateguard
open Std (ExtTreeMap)

/- What a message asks or answers, apart from the news and the demand it carries. -/
inductive Header where
  | ping (seq : UInt32)
  | ack (seq : UInt32)
  | pingReq (seq : UInt32) (target : PeerId)
  | leave
  deriving DecidableEq

def Message.header : Message → Header
  | .ping seq _ _ => .ping seq
  | .ack seq _ _ => .ack seq
  | .pingReq seq target _ _ => .pingReq seq target
  | .leave _ => .leave

def Action.Carries (action : Action) (recipient : PeerId) (header : Header) : Prop :=
  ∃ bytes message, action = .sendTo recipient bytes ∧ encode message = .ok bytes ∧
    message.header = header

namespace Node

structure Quiet (n n' : Node) : Prop where
  seq : n'.seq = n.seq
  probe : n'.probe = n.probe
  relays : n'.relays = n.relays

theorem Quiet.trans {n m n' : Node} (first : Quiet n m) (second : Quiet m n') : Quiet n n' :=
  ⟨second.seq.trans first.seq, second.probe.trans first.probe, second.relays.trans first.relays⟩

theorem send_action {n n' : Node} {peer : PeerId} {message : Message}
    (h : n.send peer message = some n') :
    ∃ action, n'.actions = n.actions ++ [action] ∧ action.Carries peer message.header := by
  obtain ⟨bytes, encoded, rfl⟩ := send_some h
  exact ⟨.sendTo peer bytes, rfl, bytes, message, rfl, encoded, rfl⟩

theorem outgoing_send {n u n' : Node} {recipient peer : PeerId} {updates : List Update}
    {message : Message} (out : n.outgoing recipient = some (updates, u))
    (h : u.send peer message = some n') :
    Quiet n n' ∧
      ∃ action, n'.actions = n.actions ++ [action] ∧ action.Carries peer message.header := by
  obtain ⟨action, actions, carries⟩ := send_action h
  obtain ⟨bytes, _, rfl⟩ := send_some h
  have frame := outgoing_frame out
  have same : u.actions = n.actions := by rw [frame]
  refine ⟨?_, action, by rw [actions, same], carries⟩
  rw [frame]
  exact ⟨rfl, rfl, rfl⟩

theorem ack_acks {n n' : Node} {recipient : PeerId} {seq : UInt32}
    (h : n.ack recipient seq = some n') :
    Quiet n n' ∧
      ∃ action, n'.actions = n.actions ++ [action] ∧ action.Carries recipient (.ack seq) := by
  simp only [ack, bind, Option.bind_eq_some_iff] at h
  obtain ⟨⟨updates, u⟩, out, h⟩ := h
  obtain ⟨quiet, action, actions, carries⟩ := outgoing_send out h
  exact ⟨quiet, action, actions, carries⟩

theorem ping_pings {n n' : Node} {target : PeerId} {now : Nat} (h : n.ping target now = some n') :
    n'.relays = n.relays ∧
      ∃ action, n'.actions = n.actions ++ [action] ∧ action.Carries target (.ping (n.seq + 1)) := by
  simp only [ping, nextSeq, bind, Option.bind_eq_some_iff] at h
  obtain ⟨⟨updates, u⟩, out, h⟩ := h
  obtain ⟨quiet, action, actions, carries⟩ := outgoing_send out h
  exact ⟨quiet.relays, action, actions, carries⟩

theorem askHelpers_asks {n n' : Node} {target : PeerId} {seq : UInt32} {helpers : List PeerId}
    (h : askHelpers target seq helpers n = some n') {action : Action} (mem : action ∈ n'.actions) :
    action ∈ n.actions ∨ ∃ helper ∈ helpers, action.Carries helper (.pingReq seq target) := by
  induction helpers generalizing n with
  | nil =>
    simp only [askHelpers, Option.some.injEq] at h
    exact .inl (h ▸ mem)
  | cons helper rest ih =>
    simp only [askHelpers, bind, Option.bind_eq_some_iff] at h
    obtain ⟨⟨updates, u⟩, out, v, sent, h⟩ := h
    rcases ih h with before | ⟨other, listed, asks⟩
    · obtain ⟨_, asked, actions, carries⟩ := outgoing_send out sent
      rw [actions] at before
      rcases List.mem_append.mp before with old | new
      · exact .inl old
      · rw [List.mem_singleton.mp new]
        exact .inr ⟨helper, List.mem_cons_self, carries⟩
    · exact .inr ⟨other, List.mem_cons_of_mem _ listed, asks⟩

theorem askHelpers_adds {n n' : Node} {target : PeerId} {seq : UInt32} {helpers : List PeerId}
    (h : askHelpers target seq helpers n = some n') {action : Action} (mem : action ∈ n.actions) :
    action ∈ n'.actions := by
  induction helpers generalizing n with
  | nil =>
    simp only [askHelpers, Option.some.injEq] at h
    exact h ▸ mem
  | cons helper rest ih =>
    simp only [askHelpers, bind, Option.bind_eq_some_iff] at h
    obtain ⟨⟨updates, u⟩, out, v, sent, h⟩ := h
    obtain ⟨_, asked, actions, _⟩ := outgoing_send out sent
    refine ih h ?_
    rw [actions]
    exact List.mem_append_left _ mem

theorem escalate_adds {n n' : Node} {now : Nat} (h : n.escalate now = some n') {action : Action}
    (mem : action ∈ n.actions) : action ∈ n'.actions := by
  unfold escalate at h
  split at h
  · exact (Option.some.inj h) ▸ mem
  · split at h
    · exact (Option.some.inj h) ▸ mem
    · simp only [bind, Option.bind_eq_some_iff] at h
      obtain ⟨due, _, h⟩ := h
      split at h
      · exact (Option.some.inj h) ▸ mem
      · simp only [Option.bind_eq_some_iff, Option.some.injEq] at h
        obtain ⟨⟨shuffled, rng⟩, _, u, asked, rfl⟩ := h
        exact askHelpers_adds asked mem

/- What escalating sends goes to helpers other than the target, about the probe. -/
theorem escalate_asks {n n' : Node} {now : Nat} (h : n.escalate now = some n') {action : Action}
    (mem : action ∈ n'.actions) :
    action ∈ n.actions ∨ ∃ probe helper, n'.probe = some probe ∧ helper ≠ probe.target ∧
      action.Carries helper (.pingReq probe.seq probe.target) := by
  unfold escalate at h
  split at h
  · exact .inl ((Option.some.inj h) ▸ mem)
  · rename_i probe pending
    split at h
    · exact .inl ((Option.some.inj h) ▸ mem)
    · simp only [bind, Option.bind_eq_some_iff] at h
      obtain ⟨due, _, h⟩ := h
      split at h
      · exact .inl ((Option.some.inj h) ▸ mem)
      · simp only [Option.bind_eq_some_iff, Option.some.injEq] at h
        obtain ⟨⟨shuffled, rng⟩, shuffle, u, asked, rfl⟩ := h
        rcases askHelpers_asks asked mem with old | ⟨helper, listed, asks⟩
        · exact .inl old
        · right
          have perm := Rng.shuffleFrom_perm shuffle
          have candidate := perm.mem_iff.mp (List.mem_of_mem_take listed)
          simp only [List.mem_filter, Bool.and_eq_true, decide_eq_true_eq] at candidate
          refine ⟨{ probe with helpers := some (shuffled.take n.swim.indirectProbes) }, helper, ?_,
            candidate.2.1, asks⟩
          rw [askHelpers_frame asked]
          dsimp only
          rw [pending, Option.map_some]

/- What a tick does: it keeps the probe it had, or has none, or takes the next number for a new
   one; it only drops relays; and it sends a Ping of its new probe, and PingReqs of its probe. -/
structure Ticked (n n' : Node) : Prop where
  seq : n'.seq = n.seq ∨ n'.seq = n.seq + 1
  probe : ∀ probe, n'.probe = some probe →
    (∃ before, n.probe = some before ∧ before.target = probe.target ∧ before.seq = probe.seq) ∨
      n'.seq = n.seq + 1 ∧ probe.seq = n'.seq ∧
        ∃ action ∈ n'.actions, action.Carries probe.target (.ping probe.seq)
  relays : ∀ (own : UInt32) (relay : Relay), n'.relays[own]? = some relay →
    n.relays[own]? = some relay
  sends : ∀ action ∈ n'.actions, ∃ probe, n'.probe = some probe ∧
    (n'.seq = n.seq + 1 ∧ probe.seq = n'.seq ∧ action.Carries probe.target (.ping probe.seq) ∨
      ∃ helper, helper ≠ probe.target ∧ action.Carries helper (.pingReq probe.seq probe.target))

theorem round_probes {decay : Nat → Nat → ℚ} {n n' : Node} {now : Nat}
    (h : n.round decay now = some n') :
    n'.relays = n.relays ∧ (n'.seq = n.seq ∧ n'.probe = none ∧ n'.actions = n.actions ∨
      ∃ probe action, n'.seq = n.seq + 1 ∧ n'.probe = some probe ∧ probe.seq = n.seq + 1 ∧
        n'.actions = n.actions ++ [action] ∧ action.Carries probe.target (.ping probe.seq)) := by
  simp only [round, bind, Option.bind_eq_some_iff] at h
  obtain ⟨a, opened, b, policy, c, shares, d, reported, e, followed, stale, _, ⟨target, f⟩,
    chosen, h⟩ := h
  have before : f.seq = n.seq ∧ f.probe = none ∧ f.relays = n.relays ∧ f.actions = n.actions := by
    rw [chooseTarget_frame chosen]
    dsimp only
    rw [followChanges_frame followed, reportDemand_frame reported, applyShares_frame shares,
      applyPolicy_frame policy, (openRound_frame opened).1]
    exact ⟨rfl, rfl, rfl, rfl⟩
  obtain ⟨seq, probe, relays, actions⟩ := before
  dsimp only at h
  split at h
  · rename_i target
    obtain ⟨probed, taken⟩ := ping_probe h
    obtain ⟨kept, action, sent, pings⟩ := ping_pings h
    refine ⟨kept.trans relays, .inr ⟨_, action, ?_, probed, ?_, ?_, ?_⟩⟩
    · rw [taken, seq]
    · rw [seq]
    · rw [sent, actions]
    · exact pings
  · obtain rfl := Option.some.inj h
    exact ⟨relays, .inl ⟨seq, probe, actions⟩⟩

theorem tick_ticked {decay : Nat → Nat → ℚ} {n n' : Node} {now : Nat} (silent : n.actions = [])
    (h : n.tick decay now = some n') : Ticked n n' := by
  simp only [tick, bind, Option.bind_eq_some_iff] at h
  obtain ⟨a, timed, b, ran, h⟩ := h
  have relaysA : ∀ (own : UInt32) (relay : Relay), a.relays[own]? = some relay →
      n.relays[own]? = some relay := by
    simp only [timeOut, bind, Option.bind_eq_some_iff, Option.some.injEq] at timed
    obtain ⟨⟨expired, members⟩, _, u, spreads, rfl⟩ := timed
    intro own relay found
    rw [ExtTreeMap.getElem?_filter', Option.filter_eq_some_iff, spreadAll_frame spreads] at found
    exact found.1
  have frameA : a.seq = n.seq ∧ a.probe = n.probe ∧ a.actions = n.actions := by
    rw [timeOut_frame timed]
    exact ⟨rfl, rfl, rfl⟩
  obtain ⟨seqA, probeA, actionsA⟩ := frameA
  have last : n'.seq = b.seq ∧ n'.relays = b.relays := by
    rw [escalate_frame h]
    exact ⟨rfl, rfl⟩
  -- the probe that is asked about is the one there was before asking
  have same {probe : Probe} (pending : n'.probe = some probe) :
      ∃ before, b.probe = some before ∧ before.target = probe.target ∧ before.seq = probe.seq := by
    rcases escalate_probe h with kept | ⟨before, helpers, held, asked⟩
    · exact ⟨probe, kept.symm.trans pending, rfl, rfl⟩
    · rw [asked, Option.some.injEq] at pending
      exact ⟨before, held, by rw [← pending], by rw [← pending]⟩
  have keeps {before : Probe} (held : b.probe = some before) :
      ∃ probe, n'.probe = some probe ∧ probe.target = before.target ∧ probe.seq = before.seq := by
    rcases escalate_probe h with kept | ⟨other, helpers, pending, asked⟩
    · exact ⟨before, kept.trans held, rfl, rfl⟩
    · rw [held, Option.some.injEq] at pending
      exact ⟨_, asked, by rw [pending], by rw [pending]⟩
  split at ran
  · obtain ⟨relaysB, idle | ⟨probe, action, seqB, probed, numbered, sent, pings⟩⟩ := round_probes ran
    · obtain ⟨seqB, none, actionsB⟩ := idle
      constructor
      · left
        rw [last.1, seqB, seqA]
      · intro probe pending
        obtain ⟨before, held, _⟩ := same pending
        simp [none] at held
      · intro own relay found
        rw [last.2, relaysB] at found
        exact relaysA own relay found
      · intro action mem
        rcases escalate_asks h mem with old | ⟨probe, helper, pending, other, asks⟩
        · simp [actionsB, actionsA, silent] at old
        · exact ⟨probe, pending, .inr ⟨helper, other, asks⟩⟩
    · obtain ⟨kept, pending, target, number⟩ := keeps probed
      have taken : n'.seq = n.seq + 1 := by rw [last.1, seqB, seqA]
      have own : kept.seq = n'.seq := by rw [number, numbered, taken, seqA]
      constructor
      · exact .inr taken
      · intro probe pending'
        rw [pending, Option.some.injEq] at pending'
        subst pending'
        have kept : action ∈ n'.actions := escalate_adds h (by rw [sent]; simp)
        rw [target, number]
        exact .inr ⟨taken, number ▸ own, action, kept, pings⟩
      · intro own relay found
        rw [last.2, relaysB] at found
        exact relaysA own relay found
      · intro other mem
        rcases escalate_asks h mem with old | ⟨probe, helper, pending, stranger, asks⟩
        · rw [sent, actionsA, silent, List.nil_append, List.mem_singleton] at old
          rw [old]
          exact ⟨kept, pending, .inl ⟨taken, own, by rw [target, number]; exact pings⟩⟩
        · exact ⟨probe, pending, .inr ⟨helper, stranger, asks⟩⟩
  · obtain rfl := Option.some.inj ran
    constructor
    · left
      rw [last.1, seqA]
    · intro probe pending
      obtain ⟨before, held, target, number⟩ := same pending
      exact .inl ⟨before, probeA ▸ held, target, number⟩
    · intro own relay found
      rw [last.2] at found
      exact relaysA own relay found
    · intro action mem
      rcases escalate_asks h mem with old | ⟨probe, helper, pending, other, asks⟩
      · simp [actionsA, silent] at old
      · exact ⟨probe, pending, .inr ⟨helper, other, asks⟩⟩

/-- What a message does: a Ping is acknowledged; an Ack clears the probe it answers, or is passed
    on for the relay it answers, which is done with, or comes to nothing; a PingReq is
    acknowledged by its target, and for any other a helper takes the next number and pings. -/
inductive Replied (n : Node) (sender : PeerId) (n' : Node) : Header → Prop
  | acks (seq : UInt32) (action : Action) : Quiet n n' → n'.actions = [action] →
      action.Carries sender (.ack seq) → Replied n sender n' (.ping seq)
  | clears (seq : UInt32) (probe : Probe) : n.probe = some probe → probe.seq = seq →
      (sender = probe.target ∨ ∃ helpers, probe.helpers = some helpers ∧ sender ∈ helpers) →
      n'.seq = n.seq → n'.probe = none → n'.relays = n.relays → n'.actions = [] →
      Replied n sender n' (.ack seq)
  | passesOn (seq : UInt32) (relay : Relay) (action : Action) : n.relays[seq]? = some relay →
      relay.target = sender → n'.seq = n.seq → n'.probe = n.probe →
      n'.relays = n.relays.erase seq → n'.actions = [action] →
      action.Carries relay.requester (.ack relay.seq) → Replied n sender n' (.ack seq)
  | ignores (seq : UInt32) : Quiet n n' → n'.actions = [] → Replied n sender n' (.ack seq)
  | answers (seq : UInt32) (action : Action) : Quiet n n' → n'.actions = [action] →
      action.Carries sender (.ack seq) → Replied n sender n' (.pingReq seq n.members.localId)
  | relays (seq : UInt32) (target : PeerId) (expiresAt : Nat) (action : Action) :
      target ≠ n.members.localId → n'.seq = n.seq + 1 → n'.probe = n.probe →
      n'.relays = n.relays.insert (n.seq + 1) ⟨sender, seq, target, expiresAt⟩ →
      n'.actions = [action] → action.Carries target (.ping (n.seq + 1)) →
      Replied n sender n' (.pingReq seq target)
  | departs : Quiet n n' → n'.actions = [] → Replied n sender n' .leave

theorem answer_replied {n n' : Node} {sender : PeerId} {message : Message} {now : Nat}
    (silent : n.actions = []) (h : n.answer sender message now = some n') :
    Replied n sender n' message.header := by
  cases message with
  | ping seq updates demand =>
    obtain ⟨quiet, action, sent, acks⟩ := ack_acks h
    rw [silent] at sent
    exact .acks seq action quiet sent acks
  | ack seq updates demand =>
    simp only [answer, acknowledged] at h
    split at h
    · rename_i probe answers
      simp only [Option.filter_eq_some_iff, Bool.and_eq_true, Bool.or_eq_true, decide_eq_true_eq,
        Option.any_eq_true, List.contains_iff_mem] at answers
      obtain ⟨pending, number, known⟩ := answers
      simp only [bind, Option.bind_eq_some_iff, Option.some.injEq] at h
      obtain ⟨peerDemand, _, rfl⟩ := h
      exact .clears seq probe pending number known rfl rfl rfl silent
    · split at h
      · rename_i relay found
        split at h
        · rename_i target
          simp only [bind, Option.bind_eq_some_iff] at h
          obtain ⟨⟨told, u⟩, out, h⟩ := h
          obtain ⟨quiet, action, sent, carries⟩ := outgoing_send out h
          dsimp only at sent
          rw [silent] at sent
          exact .passesOn seq relay action found target quiet.seq quiet.probe
            quiet.relays sent carries
        · obtain rfl := Option.some.inj h
          exact .ignores seq ⟨rfl, rfl, rfl⟩ silent
      · obtain rfl := Option.some.inj h
        exact .ignores seq ⟨rfl, rfl, rfl⟩ silent
  | pingReq seq target updates demand =>
    simp only [answer, relay] at h
    split at h
    · rename_i own
      obtain ⟨quiet, action, sent, acks⟩ := ack_acks h
      rw [silent] at sent
      rw [own]
      exact .answers seq action quiet sent acks
    · rename_i other
      simp only [nextSeq, bind, Option.bind_eq_some_iff] at h
      obtain ⟨expiresAt, _, ⟨told, u⟩, out, h⟩ := h
      obtain ⟨quiet, action, sent, carries⟩ := outgoing_send out h
      dsimp only at sent
      rw [silent] at sent
      exact .relays seq target expiresAt action other quiet.seq quiet.probe
        quiet.relays sent carries
  | leave updates => simp [answer] at h

/- It depends on no more of a node than the probe, the relays, the number and the ID. -/
theorem Replied.of_quiet {n m n' : Node} {sender : PeerId} {header : Header}
    (quiet : Quiet n m) (localId : m.members.localId = n.members.localId)
    (replied : Replied m sender n' header) : Replied n sender n' header := by
  obtain ⟨seq, probe, relays⟩ := quiet
  cases replied with
  | acks number action same sent acks =>
    exact .acks number action (Quiet.trans ⟨seq, probe, relays⟩ same) sent acks
  | clears number held pending numbered known seq' probe' relays' sent =>
    exact .clears number held (probe ▸ pending) numbered known (seq'.trans seq)
      probe' (relays'.trans relays) sent
  | passesOn number relay action found target seq' probe' relays' sent acks =>
    rw [relays] at found relays'
    exact .passesOn number relay action found target (seq'.trans seq)
      (probe'.trans probe) relays' sent acks
  | ignores number same sent =>
    exact .ignores number (Quiet.trans ⟨seq, probe, relays⟩ same) sent
  | answers number action same sent acks =>
    rw [localId]
    exact .answers number action (Quiet.trans ⟨seq, probe, relays⟩ same) sent acks
  | relays number target expiresAt action other seq' probe' relays' sent pings =>
    rw [localId] at other
    rw [seq] at seq' relays' pings
    rw [relays] at relays'
    exact .relays number target expiresAt action other seq' (probe'.trans probe)
      relays' sent pings
  | departs same sent =>
    exact .departs (Quiet.trans ⟨seq, probe, relays⟩ same) sent

theorem receiveMessage_replied {n n' : Node} {sender : PeerId} {message : Message} {now : Nat}
    (sound : n.Sound) (silent : n.actions = [])
    (h : n.receiveMessage sender message now = some n') : Replied n sender n' message.header := by
  simp only [receiveMessage, bind, Option.bind_eq_some_iff] at h
  obtain ⟨a, learned, h⟩ := h
  have sameSelf : SameSelf n.members a.members := by
    refine learnAll_table (P := SameSelf n.members) ?_ ?_ ?_ learned
    · exact sound.same rfl rfl
    · intro t t' update applied _ same _ outcome
      exact same.trans outcome.sameSelf
    · exact SameSelf.refl _
  have frameA : Quiet n a ∧ a.actions = [] := by
    rw [learnAll_frame learned]
    exact ⟨⟨rfl, rfl, rfl⟩, silent⟩
  obtain ⟨quietA, silentA⟩ := frameA
  cases message with
  | leave updates =>
    have last := Option.some.inj h
    have quiet : Quiet a n' ∧ n'.actions = a.actions := by
      rw [← last, depart_frame a sender]
      exact ⟨⟨rfl, rfl, rfl⟩, rfl⟩
    exact .departs (quietA.trans quiet.1) (quiet.2.trans silentA)
  | ping | ack | pingReq =>
    simp only [Option.bind_eq_some_iff] at h
    obtain ⟨b, heard, h⟩ := h
    have frameB : Quiet a b ∧ b.actions = [] ∧ b.members = a.members := by
      rw [hear_frame heard]
      exact ⟨⟨rfl, rfl, rfl⟩, silentA, rfl⟩
    obtain ⟨quietB, silentB, membersB⟩ := frameB
    exact (answer_replied silentB h).of_quiet (quietA.trans quietB)
      (by rw [membersB]; exact sameSelf.localId)

theorem sendLeave_carries {own : Update} {n n' : Node} {peers : List PeerId}
    (h : sendLeave own peers n = some n') {action : Action} (mem : action ∈ n'.actions) :
    action ∈ n.actions ∨ ∃ recipient, action.Carries recipient .leave := by
  induction peers generalizing n with
  | nil =>
    simp only [sendLeave, Option.some.injEq] at h
    exact .inl (h ▸ mem)
  | cons peer rest ih =>
    simp only [sendLeave, bind, Option.bind_eq_some_iff] at h
    obtain ⟨u, first, v, second, h⟩ := h
    obtain ⟨one, actionsU, carriesOne⟩ := send_action first
    obtain ⟨two, actionsV, carriesTwo⟩ := send_action second
    rcases ih h with old | new
    · rw [actionsV, actionsU, List.append_assoc] at old
      simp only [List.mem_append, List.mem_singleton] at old
      rcases old with old | rfl | rfl
      · exact .inl old
      · exact .inr ⟨peer, carriesOne⟩
      · exact .inr ⟨peer, carriesTwo⟩
    · exact .inr new

theorem leave_carries {n n' : Node} {now : Nat} (h : n.leave now = some n') {action : Action}
    (mem : action ∈ n'.actions) : ∃ recipient, action.Carries recipient .leave := by
  simp only [leave, bind, Option.bind_eq_some_iff] at h
  obtain ⟨a, advanced, h⟩ := h
  obtain ⟨_, rfl⟩ := advance_some advanced
  split at h
  · simp [← Option.some.inj h] at mem
  · simp only [Option.bind_eq_some_iff] at h
    obtain ⟨own, _, h⟩ := h
    rcases sendLeave_carries h mem with old | new
    · simp at old
    · exact new

end Node

/- The datagram an operation takes in, and who it is from. -/
def Op.datagram : Op → Option (PeerId × List UInt8)
  | .handle (.messageReceived sender bytes) _ => some (sender, bytes)
  | _ => none

/- The datagrams a node sends: the actions a handled event or a leave gives. -/
def Op.emits : Op → Node → List (PeerId × List UInt8)
  | .handle _ _, n | .leave _, n => n.actions.map fun | .sendTo peer bytes => (peer, bytes)
  | _, _ => []

def Op.Hears (op : Op) (sender : PeerId) (header : Header) : Prop :=
  ∃ bytes message, op.datagram = some (sender, bytes) ∧ decode bytes = .ok message ∧
    message.header = header

def Op.Tells (op : Op) (n : Node) (recipient : PeerId) (header : Header) : Prop :=
  ∃ bytes message, (recipient, bytes) ∈ op.emits n ∧ decode bytes = .ok message ∧
    message.header = header

theorem Op.handles_of_datagram {op : Op} {taken : PeerId × List UInt8}
    (h : op.datagram = some taken) : ∃ event now, op = .handle event now := by
  cases op with
  | handle event now => exact ⟨event, now, rfl⟩
  | introduce | addSeed | removeSeed | expectPeers | setPartitionPolicy | setQuorumMemory
  | setMaxMembers | record | checkIn | checkInTraced | leave | rehash => simp [datagram] at h

theorem Op.Hears.unique {op : Op} {sender sender' : PeerId} {header header' : Header}
    (first : op.Hears sender header) (second : op.Hears sender' header') :
    sender' = sender ∧ header' = header := by
  obtain ⟨bytes, message, brings, decoded, rfl⟩ := first
  obtain ⟨bytes', message', brings', decoded', rfl⟩ := second
  rw [brings, Option.some.injEq, Prod.mk.injEq] at brings'
  obtain ⟨rfl, rfl⟩ := brings'
  rw [decoded, Except.ok.injEq] at decoded'
  exact ⟨rfl, by rw [decoded']⟩

/- What an action carries is what an operation that gives it tells. -/
theorem Op.Tells.action {op : Op} {n : Node} {recipient : PeerId} {header : Header}
    (told : op.Tells n recipient header) : ∃ action ∈ n.actions, ∀ recipient' header',
      action.Carries recipient' header' → recipient' = recipient ∧ header' = header := by
  obtain ⟨bytes, message, mem, decoded, rfl⟩ := told
  have sent : Action.sendTo recipient bytes ∈ n.actions := by
    unfold emits at mem
    split at mem
    · obtain ⟨⟨peer, bytes'⟩, given, same⟩ := List.mem_map.mp mem
      simp only [Prod.mk.injEq] at same
      obtain ⟨rfl, rfl⟩ := same
      exact given
    · obtain ⟨⟨peer, bytes'⟩, given, same⟩ := List.mem_map.mp mem
      simp only [Prod.mk.injEq] at same
      obtain ⟨rfl, rfl⟩ := same
      exact given
    · simp at mem
  refine ⟨_, sent, ?_⟩
  rintro recipient' header' ⟨bytes', message', same, encoded, rfl⟩
  obtain ⟨rfl, rfl⟩ := Action.sendTo.inj same
  rw [decode_encode encoded, Except.ok.injEq] at decoded
  exact ⟨rfl, by rw [decoded]⟩

theorem Action.Carries.told {op : Op} {n : Node} {event : Event} {now : Nat} {action : Action}
    {recipient : PeerId} {header : Header} (handles : op = .handle event now)
    (mem : action ∈ n.actions) (carries : action.Carries recipient header) :
    op.Tells n recipient header := by
  obtain ⟨bytes, message, rfl, encoded, rfl⟩ := carries
  refine ⟨bytes, message, ?_, decode_encode encoded, rfl⟩
  rw [handles]
  exact List.mem_map.mpr ⟨_, mem, rfl⟩

namespace Node

inductive Conducts (n : Node) (op : Op) (n' : Node) : Prop
  | ticks (now : Nat) : op = .handle .tick now → Ticked n n' → Conducts n op n'
  | replies (sender : PeerId) (header : Header) : op.Hears sender header →
      Replied n sender n' header → Conducts n op n'
  | rests : Quiet n n' → (op.emits n' = [] ∨ op.datagram = none ∧
      ∀ recipient header, op.Tells n' recipient header → header = .leave) → Conducts n op n'

theorem step_conducts {decay : Nat → Nat → ℚ} {n n' : Node} {op : Op} (sound : n.Sound)
    (h : n.step decay op = some n') : Conducts n op n' := by
  by_cases handles : ∃ event now, op = .handle event now
  · obtain ⟨event, now, rfl⟩ := handles
    obtain ⟨_, rfl | ⟨_, rfl, ticked⟩ | ⟨sender, bytes, message, _, rfl, _, decoded, _, taken⟩⟩ :=
      handle_cases h
    · exact .rests ⟨rfl, rfl, rfl⟩ (.inl rfl)
    · have done := tick_ticked rfl ticked
      exact .ticks now rfl ⟨done.seq, done.probe, done.relays, done.sends⟩
    · refine .replies sender message.header ⟨bytes, message, rfl, decoded, rfl⟩ ?_
      have begun : Sound { n with lastNow := now, actions := [] } := sound.same rfl rfl
      have quiet : Quiet n { n with lastNow := now, actions := [] } := ⟨rfl, rfl, rfl⟩
      exact (receiveMessage_replied begun rfl taken).of_quiet quiet rfl
  · have apart := step_apart sound (fun event now same => handles ⟨event, now, same⟩) h
    have quiet : Quiet n n' := by
      rw [apart.frame]
      exact ⟨rfl, rfl, rfl⟩
    refine .rests quiet ?_
    cases op with
    | handle event now => exact absurd ⟨event, now, rfl⟩ handles
    | leave now =>
      refine .inr ⟨rfl, ?_⟩
      intro recipient header told
      obtain ⟨action, mem, carries⟩ := told.action
      obtain ⟨recipient', leave⟩ := leave_carries h mem
      exact (carries _ _ leave).2.symm
    | introduce | addSeed | removeSeed | expectPeers | setPartitionPolicy | setQuorumMemory
    | setMaxMembers | record | checkIn | checkInTraced | rehash => exact .inl rfl

/- What a node had taken a number for. -/
section
variable {n n' : Node} {op : Op}

theorem Conducts.seq (conducts : Conducts n op n') : n'.seq = n.seq ∨ n'.seq = n.seq + 1 := by
  cases conducts with
  | ticks now _ ticked => exact ticked.seq
  | replies sender header _ replied =>
    cases replied with
    | acks _ _ quiet | ignores _ quiet | answers _ _ quiet | departs quiet => exact .inl quiet.seq
    | clears _ _ _ _ _ seq | passesOn _ _ _ _ _ seq => exact .inl seq
    | relays _ _ _ _ _ seq => exact .inr seq
  | rests quiet => exact .inl quiet.seq

def Probes (n : Node) (probe : PeerId × UInt32) : Prop :=
  n.probe.map (fun pending => (pending.target, pending.seq)) = some probe

structure SendsProbe (op : Op) (n n' : Node) (probe : PeerId × UInt32) : Prop where
  ticks : ∃ now, op = .handle .tick now
  taken : n'.seq = n.seq + 1
  number : n'.seq = probe.2
  pending : n'.Probes probe
  sent : op.Tells n' probe.1 (.ping probe.2)

theorem Conducts.probes (conducts : Conducts n op n') {probe : PeerId × UInt32}
    (probes : n'.Probes probe) : n.Probes probe ∨ SendsProbe op n n' probe := by
  have same (kept : n'.probe = n.probe) : n.Probes probe := by
    unfold Probes at probes ⊢
    rw [← kept]
    exact probes
  cases conducts with
  | ticks now is ticked =>
    obtain ⟨pending, held, rfl⟩ := Option.map_eq_some_iff.mp probes
    rcases ticked.probe pending held with ⟨before, was, target, number⟩ | ⟨taken, number, _, mem, carries⟩
    · exact .inl (Option.map_eq_some_iff.mpr ⟨before, was, by rw [target, number]⟩)
    · exact .inr ⟨⟨now, is⟩, taken, number.symm, probes, carries.told is mem⟩
  | replies sender header _ replied =>
    cases replied with
    | acks _ _ quiet | ignores _ quiet | answers _ _ quiet | departs quiet =>
      exact .inl (same quiet.probe)
    | clears _ _ _ _ _ _ cleared => simp [Probes, cleared] at probes
    | passesOn _ _ _ _ _ _ kept | relays _ _ _ _ _ _ kept => exact .inl (same kept)
  | rests quiet => exact .inl (same quiet.probe)

structure TakesRelay (op : Op) (n n' : Node) (own : UInt32) (relay : Relay) : Prop where
  taken : n'.seq = n.seq + 1
  number : n'.seq = own
  asked : op.Hears relay.requester (.pingReq relay.seq relay.target)

theorem Conducts.takesRelay (conducts : Conducts n op n') {own : UInt32} {relay : Relay}
    (held : n'.relays[own]? = some relay) :
    n.relays[own]? = some relay ∨ TakesRelay op n n' own relay := by
  cases conducts with
  | ticks now _ ticked => exact .inl (ticked.relays own relay held)
  | replies sender header hears replied =>
    cases replied with
    | acks _ _ quiet | ignores _ quiet | answers _ _ quiet | departs quiet =>
      exact .inl (quiet.relays ▸ held)
    | clears _ _ _ _ _ _ _ kept => exact .inl (kept ▸ held)
    | passesOn seq _ _ _ _ _ _ erased =>
      rw [erased, ExtTreeMap.getElem?_erase] at held
      split at held
      · simp at held
      · exact .inl held
    | relays seq target expiresAt _ other taken _ inserted =>
      rw [inserted, ExtTreeMap.getElem?_insert] at held
      split at held
      · rename_i same
        simp only [Option.some.injEq] at held
        subst held
        right
        exact ⟨taken, by rw [taken]; exact Std.LawfulEqOrd.eq_of_compare same, hears⟩
      · exact .inl held
  | rests quiet => exact .inl (quiet.relays ▸ held)

/- Why a node sends what it sends: a Ping to the target of its new probe, or of a PingReq;
   a PingReq to a helper that is not the target of its probe; an Ack to who pinged it, or asked
   about it, or asked for the relay that the Ack in answers. -/
inductive Accounts (n : Node) (op : Op) (n' : Node) (recipient : PeerId) : Header → Prop
  | probe (seq : UInt32) : SendsProbe op n n' (recipient, seq) →
      Accounts n op n' recipient (.ping seq)
  | relay (requester : PeerId) (seq number : UInt32) : n'.seq = n.seq + 1 → n'.seq = seq →
      op.Hears requester (.pingReq number recipient) → Accounts n op n' recipient (.ping seq)
  | asks (seq : UInt32) (target : PeerId) : n'.Probes (target, seq) → recipient ≠ target →
      Accounts n op n' recipient (.pingReq seq target)
  | acks (seq : UInt32) : op.Hears recipient (.ping seq) → Accounts n op n' recipient (.ack seq)
  | answers (seq : UInt32) : op.Hears recipient (.pingReq seq n.members.localId) →
      Accounts n op n' recipient (.ack seq)
  | passesOn (own seq : UInt32) (target : PeerId) (expiresAt : Nat) :
      n.relays[own]? = some ⟨recipient, seq, target, expiresAt⟩ → op.Hears target (.ack own) →
      Accounts n op n' recipient (.ack seq)
  | leaves : Accounts n op n' recipient .leave

theorem Ticked.accounts {n n' : Node} {now : Nat} {action : Action} {recipient : PeerId}
    {header : Header} (ticked : Ticked n n') (is : op = .handle .tick now)
    (mem : action ∈ n'.actions) (told : op.Tells n' recipient header)
    (only : ∀ recipient' header', action.Carries recipient' header' →
      recipient' = recipient ∧ header' = header) : Accounts n op n' recipient header := by
  obtain ⟨probe, pending, sent⟩ := ticked.sends action mem
  have probes : n'.Probes (probe.target, probe.seq) :=
    Option.map_eq_some_iff.mpr ⟨probe, pending, rfl⟩
  rcases sent with ⟨taken, number, carries⟩ | ⟨helper, other, carries⟩
  · obtain ⟨rfl, rfl⟩ := only _ _ carries
    exact .probe probe.seq ⟨⟨now, is⟩, taken, number.symm, probes, told⟩
  · obtain ⟨rfl, rfl⟩ := only _ _ carries
    exact .asks probe.seq probe.target probes other

theorem Replied.accounts {sender recipient : PeerId} {action : Action} {heard header : Header}
    (replied : Replied n sender n' heard) (hears : op.Hears sender heard)
    (mem : action ∈ n'.actions) (only : ∀ recipient' header', action.Carries recipient' header' →
      recipient' = recipient ∧ header' = header) : Accounts n op n' recipient header := by
  cases replied with
  | acks seq _ _ sent carries =>
    rw [sent, List.mem_singleton] at mem
    obtain ⟨rfl, rfl⟩ := only _ _ (mem ▸ carries)
    exact .acks seq hears
  | answers seq _ _ sent carries =>
    rw [sent, List.mem_singleton] at mem
    obtain ⟨rfl, rfl⟩ := only _ _ (mem ▸ carries)
    exact .answers seq hears
  | passesOn own relay _ found target _ _ _ sent carries =>
    rw [sent, List.mem_singleton] at mem
    obtain ⟨rfl, rfl⟩ := only _ _ (mem ▸ carries)
    exact .passesOn own relay.seq relay.target relay.expiresAt found (target ▸ hears)
  | relays seq target _ _ _ taken _ _ sent carries =>
    rw [sent, List.mem_singleton] at mem
    obtain ⟨rfl, rfl⟩ := only _ _ (mem ▸ carries)
    exact .relay sender _ seq taken taken hears
  | clears _ _ _ _ _ _ _ _ sent | ignores _ _ sent | departs _ sent => simp [sent] at mem

theorem Conducts.accounts (conducts : Conducts n op n') {recipient : PeerId} {header : Header}
    (told : op.Tells n' recipient header) : Accounts n op n' recipient header := by
  obtain ⟨action, mem, only⟩ := told.action
  cases conducts with
  | ticks now is ticked => exact ticked.accounts is mem told only
  | replies sender heard hears replied => exact replied.accounts hears mem only
  | rests _ silent =>
    rcases silent with none | ⟨_, leaves⟩
    · obtain ⟨_, _, mem, _⟩ := told
      simp [none] at mem
    · rw [leaves _ _ told]
      exact .leaves

/- Only an Ack clears a probe, of a node that takes in a datagram: one with its number. -/
theorem Conducts.clears (conducts : Conducts n op n') {probe : Probe} {sender : PeerId}
    {bytes : List UInt8} (takes : op.datagram = some (sender, bytes))
    (pending : n.probe = some probe) (cleared : n'.probe = none) :
    op.Hears sender (.ack probe.seq) := by
  cases conducts with
  | ticks now is _ => simp [is, Op.datagram] at takes
  | replies sender' header hears replied =>
    have same : sender' = sender := by
      obtain ⟨_, _, from_, _⟩ := hears
      rw [takes, Option.some.injEq, Prod.mk.injEq] at from_
      exact from_.1.symm
    rw [same] at hears
    cases replied with
    | acks _ _ quiet | ignores _ quiet | answers _ _ quiet | departs quiet =>
      simp [quiet.probe, pending] at cleared
    | clears seq held was number _ _ _ _ =>
      rw [pending, Option.some.injEq] at was
      rw [was, number]
      exact hears
    | passesOn _ _ _ _ _ _ kept | relays _ _ _ _ _ _ kept => simp [kept, pending] at cleared
  | rests quiet => simp [quiet.probe, pending] at cleared

/- What takes in an Ack and sends anything passes it on, for a relay that it is done with. -/
theorem Conducts.passes_on (conducts : Conducts n op n') {sender : PeerId} {own : UInt32}
    (hears : op.Hears sender (.ack own)) (sends : op.emits n' ≠ []) :
    ∃ relay, n.relays[own]? = some relay ∧ relay.target = sender ∧ n'.relays[own]? = none ∧
      ∃ datagram, op.emits n' = [(relay.requester, datagram)] ∧
        op.Tells n' relay.requester (.ack relay.seq) := by
  obtain ⟨bytes, message, brings, decoded, ack⟩ := hears
  cases conducts with
  | ticks now is _ => simp [is, Op.datagram] at brings
  | replies sender' header hears replied =>
    have same := hears.unique ⟨bytes, message, brings, decoded, ack⟩
    obtain ⟨event, now, handles⟩ := Op.handles_of_datagram brings
    have given : op.emits n' = n'.actions.map fun | .sendTo peer bytes => (peer, bytes) := by
      rw [handles, Op.emits]
    rw [given] at sends ⊢
    rw [← same.2] at replied
    rw [← same.1] at replied
    cases replied with
    | clears _ _ _ _ _ _ _ _ sent | ignores _ _ sent => simp [sent] at sends
    | passesOn _ relay action found target _ _ erased sent carries =>
      have mem : action ∈ n'.actions := by simp [sent]
      have told := carries.told handles mem
      obtain ⟨datagram, _, rfl, _⟩ := carries
      refine ⟨relay, found, target, ?_, datagram, by simp [sent], told⟩
      rw [erased, ExtTreeMap.getElem?_erase_self]
  | rests _ silent =>
    rcases silent with none | ⟨none, _⟩
    · exact absurd none sends
    · simp [none] at brings

end

theorem new_blank {config : Config} {swim : SwimConfig} {localId : PeerId} {addr : Address}
    {seed : UInt64} {n : Node} (h : Node.new config swim localId addr seed = some n) :
    n.members.localId = localId ∧ n.probe = none ∧ n.relays = ∅ := by
  unfold Node.new at h
  split at h
  · simp only [MemberTable.setMax, bind, Option.bind_eq_some_iff, Option.ite_none_right_eq_some,
      Option.some.injEq] at h
    obtain ⟨members, ⟨_, rfl⟩, limiter, _, rfl⟩ := h
    exact ⟨rfl, rfl, rfl⟩
  · simp at h

end Node
end Rateguard
