import Rateguard.Cursor
import Rateguard.Letters
import Rateguard.RoundTrip

/- A newcomer is introduced to everyone: the walk over the members that the messages to it go on
   with, from the last one told of, while the members change under it. -/
namespace Rateguard
open Std (ExtTreeMap)
open Cursor (Passed Walked Advanced)

/- The loop as the source has it, each member looked up after the last; none where the turns it is
   given run out. -/
def MemberTable.tellAfter (t : MemberTable) (recipient : PeerId) :
    Nat → List Update → Option PeerId → Option (List Update × Option PeerId × Bool)
  | 0, _, _ => none
  | turns + 1, updates, last =>
    if updates.length < maxUpdates then
      match t.nextLiveAfter last with
      | none => some (updates, last, true)
      | some update =>
        let updates := if update.member ≠ recipient ∧ updates.all (·.member ≠ update.member)
          then updates ++ [update] else updates
        t.tellAfter recipient turns updates (some update.member)
    else some (updates, last, false)

namespace MemberTable

theorem liveAfter_ascending (t : MemberTable) (after : Option PeerId) :
    (t.liveAfter after).Pairwise fun one other => one.member < other.member := by
  refine List.pairwise_map.mpr (List.Pairwise.filter _ ?_)
  refine ExtTreeMap.ordered_keys_toList.imp fun {one other} before => ?_
  exact Std.compare_eq_lt.mp before

theorem mem_liveAfter_iff {t : MemberTable} {after : Option PeerId} {update : Update} :
    update ∈ t.liveAfter after ↔ after.all (· < update.member) = true ∧
      ∃ member, t.members[update.member]? = some member ∧ member.isLive = true ∧
        update = member.update update.member := by
  simp only [liveAfter, List.mem_map, List.mem_filter, Bool.and_eq_true]
  constructor
  · rintro ⟨⟨peer, member⟩, ⟨listed, later, live⟩, rfl⟩
    rw [ExtTreeMap.mem_toList_iff_getElem?_eq_some] at listed
    exact ⟨later, member, listed, live, rfl⟩
  · rintro ⟨later, member, known, live, same⟩
    refine ⟨(update.member, member), ⟨?_, later, live⟩, same.symm⟩
    exact ExtTreeMap.mem_toList_iff_getElem?_eq_some.mpr known

/- The members after the first one after a place are the others after the place. -/
theorem liveAfter_cons {t : MemberTable} {after : Option PeerId} {update : Update}
    {rest : List Update} (first : t.liveAfter after = update :: rest) :
    t.liveAfter (some update.member) = rest := by
  have later : after.all (· < update.member) = true :=
    (mem_liveAfter_iff.mp (first ▸ List.mem_cons_self : update ∈ t.liveAfter after)).1
  have beyond : t.liveAfter (some update.member) =
      (t.liveAfter after).filter (update.member < ·.member) := by
    unfold liveAfter
    rw [List.filter_map, List.filter_filter]
    refine congrArg (List.map _) (List.filter_congr fun entry _ => ?_)
    cases after with
    | none => simp [Member.update]
    | some after =>
      simp only [Option.all_some, decide_eq_true_eq] at later
      by_cases above : update.member < entry.1
      · simp [Member.update, above, UInt64.lt_trans later above]
      · simp [Member.update, above]
  have sorted := t.liveAfter_ascending after
  rw [beyond, first]
  rw [first, List.pairwise_cons] at sorted
  have others : rest.filter (update.member < ·.member) = rest :=
    List.filter_eq_self.mpr fun other mem => by simpa using sorted.1 other mem
  simp [others]

theorem tellAfter_eq (t : MemberTable) (recipient : PeerId) {turns : Nat} {updates : List Update}
    {last : Option PeerId} (enough : (t.liveAfter last).length < turns) :
    t.tellAfter recipient turns updates last =
      some (Node.tell recipient (t.liveAfter last) updates last) := by
  induction turns generalizing updates last with
  | zero => simp at enough
  | succ turns ih =>
    unfold tellAfter nextLiveAfter
    cases listed : t.liveAfter last with
    | nil =>
      unfold Node.tell
      split <;> rfl
    | cons update rest =>
      have others := liveAfter_cons listed
      unfold Node.tell
      split
      · dsimp only [List.head?_cons]
        rw [← others]
        refine ih ?_
        rw [listed, List.length_cons] at enough
        rw [others]
        omega
      · rfl

theorem liveAfter_length (t : MemberTable) (after : Option PeerId) :
    (t.liveAfter after).length ≤ t.members.size := by
  rw [liveAfter, List.length_map, ← ExtTreeMap.length_toList]
  exact List.length_filter_le _ _

end MemberTable

namespace Node

def opensWith (n : Node) (recipient : PeerId) : Option (List Update) := do
  let own ← n.members.updateAbout n.members.localId
  let accusation := n.accusation recipient
  let room := maxUpdates - 1 - (if accusation.isSome then 1 else 0)
  let limit ← retransmitLimit n.members.clusterSize
  let (taken, _) ← n.gossip.take room limit
  some (opening own taken accusation)

def hasSpare (n : Node) (recipient : PeerId) : Bool :=
  (n.opensWith recipient).any (·.length < maxUpdates)

theorem passed_next {last : Option PeerId} {next : PeerId} (ahead : ¬ Passed (some last) next)
    (peer : PeerId) (passed : Passed (some last) peer) : Passed (some (some next)) peer := by
  cases last with
  | none => exact absurd passed (Cursor.not_passed_start peer)
  | some last =>
    rw [Cursor.passed_last] at ahead passed ⊢
    exact UInt64.le_trans passed (UInt64.le_of_lt (UInt64.not_le.mp ahead))

theorem tell_passes {recipient : PeerId} {rest updates updates' : List Update}
    {last last' : Option PeerId} {allTold : Bool}
    (sorted : rest.Pairwise fun one other => one.member < other.member)
    (ahead : ∀ update ∈ rest, ¬ Passed (some last) update.member)
    (h : tell recipient rest updates last = (updates', last', allTold)) :
    (∀ peer, Passed (some last) peer → Passed (some last') peer) ∧
    (∀ update ∈ rest, Passed (if allTold then none else some last') update.member →
      update.member = recipient ∨ update.member ∈ updates'.map (·.member)) ∧
    (updates.length < maxUpdates → allTold = false →
      ∃ update ∈ rest, Passed (some last') update.member) := by
  induction rest generalizing updates last with
  | nil =>
    unfold tell at h
    split at h
    · simp only [Prod.mk.injEq] at h
      obtain ⟨rfl, rfl, rfl⟩ := h
      exact ⟨fun _ => id, by simp, by simp⟩
    · rename_i full
      simp only [Prod.mk.injEq] at h
      obtain ⟨rfl, rfl, rfl⟩ := h
      exact ⟨fun _ => id, by simp, fun room => absurd room full⟩
  | cons update rest ih =>
    rw [List.pairwise_cons] at sorted
    unfold tell at h
    split at h
    · dsimp only at h
      have aheadThen : ∀ other ∈ rest, ¬ Passed (some (some update.member)) other.member := by
        intro other mem passed
        exact UInt64.not_le.mpr (sorted.1 other mem) passed
      obtain ⟨added, grown, _⟩ := tell_spec h
      obtain ⟨onward, met, _⟩ := ih sorted.2 aheadThen h
      have here := onward update.member (UInt64.le_refl _)
      refine ⟨fun peer passed => ?_, fun other mem passed => ?_, fun _ _ => ?_⟩
      · exact onward peer (passed_next (ahead update List.mem_cons_self) peer passed)
      · rcases List.mem_cons.mp mem with rfl | mem
        · by_cases itself : other.member = recipient
          · exact .inl itself
          · right
            rw [grown, List.map_append, List.mem_append]
            left
            split
            · simp
            · rename_i known
              simp only [ne_eq, itself, not_false_eq_true, true_and, List.all_eq_true,
                decide_eq_true_eq, not_forall, Decidable.not_not] at known
              obtain ⟨earlier, listed, same⟩ := known
              exact List.mem_map.mpr ⟨earlier, listed, same⟩
        · exact met other mem passed
      · exact ⟨update, List.mem_cons_self, here⟩
    · rename_i full
      simp only [Prod.mk.injEq] at h
      obtain ⟨rfl, rfl, rfl⟩ := h
      exact ⟨fun _ => id, fun other mem passed => absurd passed (ahead other mem),
        fun room => absurd room full⟩

theorem tell_walks {t : MemberTable} (wf : t.WellFormed) {recipient : PeerId}
    {updates updates' : List Update} {last last' : Option PeerId} {allTold : Bool}
    (h : tell recipient (t.liveAfter last) updates last = (updates', last', allTold)) :
    Walked (· ∈ t.live) (some last) (if allTold then none else some last')
      (fun peer => peer = recipient ∨ peer ∈ updates'.map (·.member)) ∧
    (updates.length < maxUpdates → allTold = false →
      Advanced t.live.toFinset (some last) (some last')) := by
  have ahead : ∀ update ∈ t.liveAfter last, ¬ Passed (some last) update.member := by
    intro update mem passed
    have later := (MemberTable.mem_liveAfter_iff.mp mem).1
    cases last with
    | none => exact passed
    | some last => exact UInt64.not_le.mpr (by simpa using later) passed
  obtain ⟨onward, met, advances⟩ := tell_passes (t.liveAfter_ascending last) ahead h
  refine ⟨⟨fun peer passed => ?_, fun peer live passed unpassed => ?_, by simp⟩,
    fun room more => ?_⟩
  · split
    · trivial
    · exact onward peer passed
  · obtain ⟨member, known, alive⟩ := (wf.live_iff peer).mp live
    refine met (member.update peer) (MemberTable.mem_liveAfter_iff.mpr ⟨?_, ?_⟩) passed
    · cases last with
      | none => rfl
      | some last => exact decide_eq_true (UInt64.not_le.mp unpassed)
    · exact ⟨member, known, alive, rfl⟩
  · obtain ⟨update, mem, passed⟩ := advances room more
    obtain ⟨_, member, known, alive, _⟩ := MemberTable.mem_liveAfter_iff.mp mem
    refine ⟨update.member, ?_, passed, ahead update mem⟩
    exact List.mem_toFinset.mpr ((wf.live_iff _).mpr ⟨member, known, alive⟩)

theorem outgoing_introduces {n n' : Node} {recipient : PeerId} {updates : List Update}
    (wf : n.members.WellFormed) (h : n.outgoing recipient = some (updates, n')) :
    (∀ other, other ≠ recipient → n'.introducing[other]? = n.introducing[other]?) ∧
    Walked (· ∈ n.members.live) n.introducing[recipient]? n'.introducing[recipient]?
      (fun peer => peer = recipient ∨ peer ∈ updates.map (·.member)) ∧
    (n.hasSpare recipient = true → n'.introducing[recipient]? ≠ none →
      Advanced n.members.live.toFinset n.introducing[recipient]? n'.introducing[recipient]?) := by
  simp only [outgoing, bind, Option.bind_eq_some_iff] at h
  obtain ⟨own, knows, limit, limited, ⟨taken, gossip⟩, took, h⟩ := h
  have opens : n.opensWith recipient = some (opening own taken (n.accusation recipient)) := by
    simp only [opensWith, knows, limited, took, bind, Option.bind_some]
  split at h
  · rename_i absent
    simp only [Option.some.injEq, Prod.mk.injEq] at h
    obtain ⟨_, rfl⟩ := h
    exact ⟨fun _ _ => rfl, .refl _ _ _, fun _ listed => absurd absent listed⟩
  · rename_i start standing
    generalize told : tell recipient (n.members.liveAfter start)
      (opening own taken (n.accusation recipient)) start = result at h
    obtain ⟨all, last, allTold⟩ := result
    simp only [Option.some.injEq, Prod.mk.injEq] at h
    obtain ⟨rfl, rfl⟩ := h
    obtain ⟨walked, advances⟩ := tell_walks wf told
    have stands : (if allTold then n.introducing.erase recipient
        else n.introducing.insert recipient last)[recipient]? =
        if allTold then none else some last := by
      split
      · exact ExtTreeMap.getElem?_erase_self
      · exact ExtTreeMap.getElem?_insert_self
    refine ⟨fun other distinct => ?_, ?_, fun spare more => ?_⟩
    · have apart : compare recipient other ≠ .eq :=
        fun same => distinct (Std.LawfulEqCmp.eq_of_compare same).symm
      dsimp only
      split
      · rw [ExtTreeMap.getElem?_erase, if_neg apart]
      · rw [ExtTreeMap.getElem?_insert, if_neg apart]
    · rw [stands, standing]
      exact walked
    · rw [stands] at more ⊢
      rw [standing]
      rw [hasSpare, opens, Option.any_some, decide_eq_true_eq] at spare
      cases allTold with
      | true => exact absurd rfl more
      | false => exact advances spare rfl

def namesTo (n : Node) (peer : PeerId) : List PeerId :=
  n.actions.flatMap fun
    | .sendTo recipient bytes =>
      if recipient = peer then
        match decode bytes with
        | .ok message => message.updates.map (·.member)
        | .error _ => []
      else []

theorem send_namesTo {n n' : Node} {recipient : PeerId} {message : Message} (peer : PeerId)
    (h : n.send recipient message = some n') :
    n'.namesTo peer = n.namesTo peer ++
      if recipient = peer then message.updates.map (·.member) else [] := by
  obtain ⟨bytes, encoded, rfl⟩ := send_some h
  simp [namesTo, decode_encode encoded]

/- The messages of a stretch take a peer's introduction on, and each with a slot to spare passes
   a member or ends it. -/
theorem Spoken.walks {n n' : Node} {letters : List Letter} (spoken : Spoken n letters n')
    (wf : n.members.WellFormed) (peer : PeerId) :
    ∃ said, n'.namesTo peer = n.namesTo peer ++ said ∧
      Walked (· ∈ n.members.live) n.introducing[peer]? n'.introducing[peer]?
        (fun other => other = peer ∨ other ∈ said) ∧
      ((∃ letter ∈ letters, letter.recipient = peer ∧ letter.writer.hasSpare peer = true) →
        n'.introducing[peer]? ≠ none →
        Advanced n.members.live.toFinset n.introducing[peer]? n'.introducing[peer]?) := by
  induction spoken with
  | silent same =>
    refine ⟨[], ?_, ?_, by simp⟩
    · rw [namesTo, same.actions, List.append_nil, namesTo]
    · rw [same.introducing]
      exact .refl _ _ _
  | @letter n writer u v n' recipient updates message letters same out sent told _ ih =>
    have wfW : writer.members.WellFormed := by
      rw [same.members]
      exact wf
    have names := send_namesTo peer sent
    obtain ⟨apart, walked, advances⟩ := outgoing_introduces wfW out
    have framed := outgoing_frame out
    obtain ⟨bytes, _, rfl⟩ := send_some sent
    have members : u.members = n.members := by rw [framed, same.members]
    have actions : u.actions = n.actions := by rw [framed, same.actions]
    have earlier : u.namesTo peer = n.namesTo peer := by rw [namesTo, actions, namesTo]
    rw [same.members, same.introducing] at walked advances
    obtain ⟨said, later, walkedOn, advancesOn⟩ := ih (members ▸ wf)
    dsimp only at walkedOn advancesOn
    rw [members] at walkedOn advancesOn
    rw [names, earlier, List.append_assoc, told] at later
    refine ⟨_, later, ?_⟩
    by_cases own : recipient = peer
    · subst own
      rw [if_pos rfl]
      refine ⟨(walked.mono ?_).trans (walkedOn.mono ?_), ?_⟩
      · rintro other (itself | named)
        · exact .inl itself
        · exact .inr (List.mem_append_left _ named)
      · rintro other (itself | named)
        · exact .inl itself
        · exact .inr (List.mem_append_right _ named)
      · rintro ⟨letter, mem, same', spare⟩ standing
        rcases List.mem_cons.mp mem with rfl | mem
        · have stood : u.introducing[recipient]? ≠ none :=
            fun ended => standing (walkedOn.ended ended)
          exact (advances spare stood).later walkedOn
        · exact .earlier walked (advancesOn ⟨letter, mem, same', spare⟩ standing)
    · have stands : u.introducing[peer]? = n.introducing[peer]? := by
        rw [apart peer (Ne.symm own), same.introducing]
      rw [stands] at walkedOn advancesOn
      rw [if_neg own, List.nil_append]
      refine ⟨walkedOn, ?_⟩
      rintro ⟨letter, mem, same', spare⟩ standing
      rcases List.mem_cons.mp mem with rfl | mem
      · exact absurd same' own
      · exact advancesOn ⟨letter, mem, same', spare⟩ standing

/- What a letter comes to: a datagram to its recipient with the records the writer gives. -/
def Letter.Sends (letter : Letter) (action : Action) : Prop :=
  ∃ bytes message left, action = .sendTo letter.recipient bytes ∧ decode bytes = .ok message ∧
    letter.writer.outgoing letter.recipient = some (message.updates, left)

theorem Spoken.sends {n n' : Node} {letters : List Letter} (spoken : Spoken n letters n') :
    ∃ sent, n'.actions = n.actions ++ sent ∧ List.Forall₂ Letter.Sends letters sent ∧
      ∀ letter ∈ letters, letter.writer.members = n.members := by
  induction spoken with
  | silent same => exact ⟨[], by rw [same.actions, List.append_nil], .nil, by simp⟩
  | @letter n writer u v n' recipient updates message letters same out sent told _ ih =>
    obtain ⟨later, actions, sends, alike⟩ := ih
    have framed := outgoing_frame out
    obtain ⟨bytes, encoded, rfl⟩ := send_some sent
    have before : u.actions = n.actions := by rw [framed, same.actions]
    have members : u.members = n.members := by rw [framed, same.members]
    refine ⟨.sendTo recipient bytes :: later, ?_, .cons ?_ sends, fun letter mem => ?_⟩
    · rw [actions, before, List.append_assoc, List.singleton_append]
    · exact ⟨bytes, message, u, rfl, decode_encode encoded, told ▸ out⟩
    · rcases List.mem_cons.mp mem with rfl | mem
      · exact same.members
      · exact (alike letter mem).trans members

/- A message of at most twelve records, its sender's own the first. -/
def Opened (sender : PeerId) (action : Action) : Prop :=
  ∃ recipient bytes message own rest, action = .sendTo recipient bytes ∧
    decode bytes = .ok message ∧ message.updates = own :: rest ∧ own.member = sender ∧
    message.updates.length ≤ maxUpdates

theorem Letter.Sends.opened {letter : Letter} {action : Action} (sends : letter.Sends action) :
    Opened letter.writer.members.localId action := by
  obtain ⟨bytes, message, left, rfl, decoded, out⟩ := sends
  obtain ⟨⟨rest, opens⟩, fits⟩ := outgoing_opens out
  exact ⟨letter.recipient, bytes, message, _, rest, rfl, decoded, opens, rfl, fits⟩

theorem handle_opened {decay : Nat → Nat → ℚ} {n n' : Node} {event : Event} {now : Nat}
    (sound : n.Sound) (h : n.handle decay event now = some n') :
    (∃ letters, n.letters decay event now = some letters ∧
      List.Forall₂ Letter.Sends letters n'.actions) ∧
    ∀ action ∈ n'.actions, Opened n'.members.localId action := by
  obtain ⟨m, letters, written, spoken, ready⟩ := handle_spoken sound h
  obtain ⟨sent, actions, sends, alike⟩ := spoken.sends
  rw [ready.actions, List.nil_append] at actions
  subst actions
  refine ⟨⟨letters, written, sends⟩, fun action mem => ?_⟩
  obtain ⟨index, bound, rfl⟩ := List.getElem_of_mem mem
  have within : index < letters.length := by rw [sends.length_eq]; exact bound
  have opened := (sends.get within bound).opened
  simp only [List.get_eq_getElem] at opened
  rw [alike _ (List.getElem_mem within), ← ready.members] at opened
  exact opened

theorem sendLeave_opened {n n' : Node} {own : Update} {peers : List PeerId}
    (before : ∀ action ∈ n.actions, Opened own.member action)
    (h : sendLeave own peers n = some n') : ∀ action ∈ n'.actions, Opened own.member action := by
  induction peers generalizing n with
  | nil =>
    obtain rfl := Option.some.inj h
    exact before
  | cons peer rest ih =>
    simp only [sendLeave, bind, Option.bind_eq_some_iff] at h
    obtain ⟨u, first, v, second, h⟩ := h
    obtain ⟨bytes, encoded, rfl⟩ := send_some first
    obtain ⟨bytes', encoded', rfl⟩ := send_some second
    refine ih (fun action mem => ?_) h
    simp only [List.append_assoc, List.mem_append, List.mem_singleton] at mem
    rcases mem with old | rfl | rfl
    · exact before action old
    · exact ⟨peer, bytes, _, own, [], rfl, decode_encode encoded, rfl, rfl,
        Nat.le_add_left 1 11⟩
    · exact ⟨peer, bytes', _, own, [], rfl, decode_encode encoded', rfl, rfl,
        Nat.le_add_left 1 11⟩

theorem leave_opened {n n' : Node} {now : Nat} (h : n.leave now = some n') :
    ∀ action ∈ n'.actions, Opened n'.members.localId action := by
  simp only [leave, bind, Option.bind_eq_some_iff] at h
  obtain ⟨a, advanced, h⟩ := h
  split at h
  · rw [← Option.some.inj h]
    simp
  · simp only [Option.bind_eq_some_iff] at h
    obtain ⟨own, knows, h⟩ := h
    have itself : own = a.members.ownUpdate := by
      simpa [MemberTable.updateAbout, eq_comm] using knows
    have members : n'.members = a.members := by rw [sendLeave_frame h]
    have opened := sendLeave_opened (by simp) h
    rw [itself] at opened
    rw [members]
    exact opened

theorem handle_walks {decay : Nat → Nat → ℚ} {n n' : Node} {event : Event} {now : Nat}
    (sound : n.Sound) (h : n.handle decay event now = some n') (peer : PeerId) :
    ∃ start, (n'.isLive peer = true ∨ start.isSome → start =
        if n.introduces event n' peer then some none else n.introducing[peer]?) ∧
      Walked (· ∈ n'.members.live) start n'.introducing[peer]?
        (fun other => other = peer ∨ other ∈ n'.namesTo peer) ∧
      ((∃ letters, n.letters decay event now = some letters ∧
          ∃ letter ∈ letters, letter.recipient = peer ∧ letter.writer.hasSpare peer = true) →
        n'.introducing[peer]? ≠ none →
        Advanced n'.members.live.toFinset start n'.introducing[peer]?) := by
  obtain ⟨m, letters, written, spoken, ready⟩ := handle_spoken sound h
  have wf : m.members.WellFormed := by
    rw [← ready.members]
    exact (handle_sound sound h).members
  obtain ⟨said, names, walked, advances⟩ := spoken.walks wf peer
  have none' : m.namesTo peer = [] := by rw [namesTo, ready.actions]; rfl
  rw [none', List.nil_append] at names
  rw [names, ready.members]
  refine ⟨m.introducing[peer]?, ready.introducing peer, walked, ?_⟩
  rintro ⟨letters', written', spare⟩
  rw [written, Option.some.injEq] at written'
  exact advances (written' ▸ spare)

end Node

/- An introduction as a run goes: the members live ever since it began, and those named in the
   messages to the newcomer since. -/
structure Introduction where
  since : List PeerId
  named : List PeerId
  deriving DecidableEq

def Introduction.goesOn (i : Introduction) (live named : List PeerId) : Introduction :=
  ⟨i.since.filter (· ∈ live), i.named ++ named⟩

def noteIntroduction (decay : Nat → Nat → ℚ) (newcomer : PeerId) (n : Node)
    (noted : Option Introduction) (op : Op) : Option Introduction :=
  match n.step decay op with
  | none => noted
  | some n' =>
    match op with
    | .handle event _ =>
      if n.introduces event n' newcomer then some ⟨n'.members.live, n'.namesTo newcomer⟩
      else noted.map (·.goesOn n'.members.live (n'.namesTo newcomer))
    | _ => noted.map (·.goesOn n'.members.live [])

/- Whoever has been live since and is passed has been named. -/
def Introduction.Covers (i : Introduction) (newcomer : PeerId) (place : Option (Option PeerId)) :
    Prop :=
  ∀ peer ∈ i.since, Passed place peer → peer = newcomer ∨ peer ∈ i.named

/- Every introduction in progress is noted, and has named whom it passed. -/
def Node.Introducing (n : Node) (newcomer : PeerId) (noted : Option Introduction) : Prop :=
  ∀ last, n.introducing[newcomer]? = some last →
    ∃ i, noted = some i ∧ i.Covers newcomer (some last)

theorem Introduction.Covers.goesOn {i : Introduction} {newcomer : PeerId}
    {first last : Option (Option PeerId)} {live named : List PeerId}
    (covers : i.Covers newcomer first) (walked : Walked (· ∈ live) first last
      (fun other => other = newcomer ∨ other ∈ named)) :
    (i.goesOn live named).Covers newcomer last := by
  intro peer mem passed
  simp only [Introduction.goesOn, List.mem_filter, decide_eq_true_eq] at mem
  obtain ⟨since, there⟩ := mem
  have before : peer = newcomer ∨ peer ∈ i.named ∨ peer ∈ named := by
    by_cases already : Passed first peer
    · exact (covers peer since already).imp_right .inl
    · exact (walked.met peer there passed already).imp_right .inr
  exact before.imp_right List.mem_append.mpr

theorem Node.new_introducing {config : Config} {swim : SwimConfig} {localId : PeerId}
    {addr : Address} {seed : UInt64} {n : Node}
    (h : Node.new config swim localId addr seed = some n) : n.introducing = ∅ := by
  unfold Node.new at h
  split at h
  · simp only [bind, Option.bind_eq_some_iff, Option.some.injEq] at h
    obtain ⟨members, _, limiter, _, rfl⟩ := h
    rfl
  · simp at h

section
variable {decay : Nat → Nat → ℚ} {n n' : Node} {newcomer : PeerId} {noted : Option Introduction}

/- An event takes an introduction on from where it stood, or begins it. -/
theorem Node.Introducing.handled {event : Event} {now : Nat} (introducing : n.Introducing newcomer noted)
    (sound : n.Sound) (h : n.handle decay event now = some n')
    (stands : n'.introducing[newcomer]?.isSome ∨ n'.isLive newcomer = true ∧
      (n.introducing[newcomer]?.isSome ∨ n.introduces event n' newcomer = true)) :
    ∃ i, noteIntroduction decay newcomer n noted (.handle event now) = some i ∧
      i.Covers newcomer n'.introducing[newcomer]? := by
  obtain ⟨start, begun, walked, _⟩ := Node.handle_walks sound h newcomer
  have from' : start = if n.introduces event n' newcomer then some none
      else n.introducing[newcomer]? := by
    refine begun ?_
    rcases stands with stands | ⟨live, _⟩
    · right
      by_contra ended
      rw [walked.ended (by simpa using ended)] at stands
      simp at stands
    · exact .inl live
  have stepped : n.step decay (.handle event now) = some n' := h
  simp only [noteIntroduction, stepped]
  by_cases begins : n.introduces event n' newcomer = true
  · rw [if_pos begins] at from' ⊢
    rw [from'] at walked
    refine ⟨_, rfl, fun peer since passed => ?_⟩
    exact walked.met peer since passed (Cursor.not_passed_start peer)
  · rw [if_neg begins] at from' ⊢
    have stood : n.introducing[newcomer]?.isSome := by
      rcases stands with stands | ⟨_, stood | begins'⟩
      · by_contra ended
        rw [walked.ended (from'.trans (by simpa using ended))] at stands
        simp at stands
      · exact stood
      · exact absurd begins' begins
    obtain ⟨last, stood⟩ := Option.isSome_iff_exists.mp stood
    obtain ⟨i, rfl, covers⟩ := introducing last stood
    rw [from', stood] at walked
    exact ⟨_, rfl, covers.goesOn walked⟩

theorem Recorded.introducing (run : Recorded decay (noteIntroduction decay newcomer) none
    (fun _ _ _ => True) n noted) : n.Introducing newcomer noted := by
  induction run with
  | start config swim localId addr seed n h =>
    intro last found
    rw [Node.new_introducing h] at found
    simp at found
  | step n noted op n' before _ h ih =>
    have sound := before.reachable.sound
    by_cases handles : ∃ event now, op = .handle event now
    · obtain ⟨event, now, rfl⟩ := handles
      intro last found
      obtain ⟨i, noted', covers⟩ := ih.handled sound h (.inl (found ▸ rfl))
      exact ⟨i, noted', found ▸ covers⟩
    · have frame := (Node.step_apart sound (fun event now is => handles ⟨event, now, is⟩) h).frame
      intro last found
      rw [frame] at found
      obtain ⟨i, rfl, covers⟩ := ih last found
      refine ⟨i.goesOn n'.members.live [], ?_, covers.goesOn (.refl _ _ _)⟩
      simp only [noteIntroduction, h]
      split
      · rename_i event now
        exact absurd ⟨event, now, rfl⟩ handles
      · rfl

end

/- A message of the operation to a peer has a slot to spare for its introduction. -/
def Node.Spares (decay : Nat → Nat → ℚ) (n : Node) (peer : PeerId) : Op → Prop
  | .handle event now => ∃ letters, n.letters decay event now = some letters ∧
      ∃ letter ∈ letters, letter.recipient = peer ∧ letter.writer.hasSpare peer = true
  | _ => False

/- While a newcomer stays live its introduction is never begun again. -/
theorem handle_goesOn {decay : Nat → Nat → ℚ} {n n' : Node} {event : Event} {now : Nat}
    {newcomer : PeerId} (sound : n.Sound) (h : n.handle decay event now = some n')
    (was : n.isLive newcomer = true) (live : n'.isLive newcomer = true) :
    (∃ met, Walked (· ∈ n'.members.live) n.introducing[newcomer]? n'.introducing[newcomer]? met) ∧
    (n.Spares decay newcomer (.handle event now) → n'.introducing[newcomer]? ≠ none →
      Advanced n'.members.live.toFinset n.introducing[newcomer]? n'.introducing[newcomer]?) := by
  obtain ⟨start, begun, walked, advances⟩ := Node.handle_walks sound h newcomer
  have same := begun (.inl live)
  have begins : n.introduces event n' newcomer = false := by
    unfold Node.introduces
    cases event with
    | tick => rfl
    | messageReceived sender bytes => simp [was]
  rw [begins] at same
  subst same
  exact ⟨⟨_, walked⟩, advances⟩

theorem introduction_ends {decay : Nat → Nat → ℚ} {newcomer : PeerId} {nodes : Nat → Node}
    {ops : Nat → Op} {peers : Finset PeerId} (reached : Reachable decay (nodes 0))
    (steps : ∀ k, (nodes k).step decay (ops k) = some (nodes (k + 1)))
    (live : ∀ k, (nodes k).isLive newcomer = true)
    (few : ∀ k, ∀ peer ∈ (nodes k).members.live, peer ∈ peers)
    (spares : ∀ k, ∃ j, k ≤ j ∧ (nodes j).Spares decay newcomer (ops j)) :
    ∃ k, (nodes k).introducing[newcomer]? = none := by
  have reachable (k : Nat) : Reachable decay (nodes k) := by
    induction k with
    | zero => exact reached
    | succ k ih => exact ih.step _ _ _ (steps k)
  refine @Cursor.ends _ _ peers _ (fun k _ => ?_) fun k => ?_
  · have step := steps k
    by_cases handles : ∃ event now, ops k = .handle event now
    · obtain ⟨event, now, is⟩ := handles
      rw [is] at step
      obtain ⟨met, walked⟩ :=
        (handle_goesOn (reachable k).sound step (live k) (live (k + 1))).1
      exact walked.onward
    · have frame := (Node.step_apart (reachable k).sound
        (fun event now is => handles ⟨event, now, is⟩) step).frame
      rw [frame]
      exact fun _ => id
  · obtain ⟨j, after, spare⟩ := spares k
    refine ⟨j, after, fun standing => ?_⟩
    have step := steps j
    cases operation : ops j with
    | handle event now =>
      rw [operation] at step spare
      obtain ⟨peer, mem, passed, unpassed⟩ :=
        (handle_goesOn (reachable j).sound step (live j) (live (j + 1))).2 spare standing
      exact ⟨peer, few (j + 1) peer (List.mem_toFinset.mp mem), passed, unpassed⟩
    | _ => simp [operation, Node.Spares] at spare

/-- A newcomer is introduced to everyone. Where a message ends its introduction while it is live,
    whoever has been live since it began was named to it. Each message, of a leave too, holds at
    most twelve records, the sender's first, and the letters are those sent; the loop ends after as
    many turns as there are members, and one; and in a run in which the newcomer stays live, its
    messages have a slot to spare again and again and there are finitely many peers, the
    introduction ends. -/
theorem newcomer_introduced (decay : Nat → Nat → ℚ) (newcomer : PeerId) :
    (∀ n noted, Recorded decay (noteIntroduction decay newcomer) none (fun _ _ _ => True) n noted →
      (∀ last, n.introducing[newcomer]? = some last → noted.isSome) ∧
      ∀ event now n', n.handle decay event now = some n' → n'.isLive newcomer = true →
        n.introducing[newcomer]?.isSome ∨ n.introduces event n' newcomer = true →
        n'.introducing[newcomer]? = none →
        ∃ i, noteIntroduction decay newcomer n noted (.handle event now) = some i ∧
          ∀ peer ∈ i.since, peer ≠ newcomer → peer ∈ i.named) ∧
    (∀ n, Reachable decay n → ∀ n',
      (∀ event now, n.handle decay event now = some n' →
        (∃ letters, n.letters decay event now = some letters ∧
          List.Forall₂ Node.Letter.Sends letters n'.actions) ∧
        ∀ action ∈ n'.actions, Node.Opened n'.members.localId action) ∧
      ∀ now, n.leave now = some n' → ∀ action ∈ n'.actions, Node.Opened n'.members.localId action) ∧
    (∀ (t : MemberTable) recipient updates last,
      t.tellAfter recipient (t.members.size + 1) updates last =
        some (Node.tell recipient (t.liveAfter last) updates last)) ∧
    ∀ (nodes : Nat → Node) (ops : Nat → Op) (peers : Finset PeerId), Reachable decay (nodes 0) →
      (∀ k, (nodes k).step decay (ops k) = some (nodes (k + 1))) →
      (∀ k, (nodes k).isLive newcomer = true) →
      (∀ k, ∀ peer ∈ (nodes k).members.live, peer ∈ peers) →
      (∀ k, ∃ j, k ≤ j ∧ (nodes j).Spares decay newcomer (ops j)) →
      ∃ k, (nodes k).introducing[newcomer]? = none := by
  refine ⟨fun n noted run => ⟨fun last found => ?_, ?_⟩, fun n reached n' => ⟨?_, ?_⟩, ?_, ?_⟩
  · obtain ⟨i, rfl, _⟩ := run.introducing last found
    rfl
  · intro event now n' h live standing ended
    obtain ⟨i, noted', covers⟩ :=
      run.introducing.handled run.reachable.sound h (.inr ⟨live, standing⟩)
    refine ⟨i, noted', fun peer since other => ?_⟩
    rw [ended] at covers
    exact (covers peer since trivial).resolve_left other
  · exact fun event now h => Node.handle_opened reached.sound h
  · exact fun now h => Node.leave_opened h
  · intro t recipient updates last
    exact t.tellAfter_eq recipient (Nat.lt_succ_of_le (t.liveAfter_length last))
  · exact fun nodes ops peers reached steps live few spares =>
      introduction_ends reached steps live few spares

/- Peer 9 pings a node of two members, and is told of them in the answer. -/
def greeted : Option (Node × Option Introduction) := do
  let start ← Node.sample 0 0
  Node.runRecorded sampleDecay (noteIntroduction sampleDecay 9) (fun _ _ _ => True) start none
    [.introduce 1 (sampleAddress 1), .introduce 2 (sampleAddress 2)]

def greeting : Event :=
  .messageReceived 9 (messageCodec.enc (.ping 0 [⟨9, sampleAddress 9, 0, .alive⟩] []))

theorem greeted_answers : (greeted.any fun (n, noted) =>
    (n.handle sampleDecay greeting 0).any fun n' => n'.isLive 9 && n.introduces greeting n' 9 &&
      n'.introducing[(9 : PeerId)]? == none &&
      (noteIntroduction sampleDecay 9 n noted (.handle greeting 0)).any (·.since == [1, 2, 9])) =
    true := by
  decide +kernel

theorem newcomer_introduced_two : ∃ i : Introduction, i.since = [1, 2, 9] ∧
    ∀ peer ∈ i.since, peer ≠ 9 → peer ∈ i.named := by
  obtain ⟨⟨n, noted⟩, ran, checked⟩ := (Option.any_eq_true _ _).mp greeted_answers
  obtain ⟨n', h, checked⟩ := (Option.any_eq_true _ _).mp checked
  simp only [Bool.and_eq_true, beq_iff_eq] at checked
  obtain ⟨⟨⟨live, begins⟩, ended⟩, since⟩ := checked
  simp only [greeted, bind, Option.bind_eq_some_iff] at ran
  obtain ⟨start, fresh, ran⟩ := ran
  have run := Recorded.run (.start _ _ _ _ _ start fresh) ran
  obtain ⟨i, noted', named⟩ := ((newcomer_introduced sampleDecay 9).1 n noted run).2
    greeting 0 n' h live (.inr begins) ended
  rw [noted', Option.any_some, beq_iff_eq] at since
  exact ⟨i, since, named⟩

end Rateguard
