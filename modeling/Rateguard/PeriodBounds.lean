import Rateguard.Builder
import Rateguard.Datagrams

/- What a node's settings promise its core: it starts, and no time it computes overflows, as long as
   the period fits as often as the largest cluster takes it. -/
namespace Rateguard
open Std (ExtTreeMap)

def Node.counted (n : Node) : Nat := max n.members.refused n.identityConflicts

/- An operation that computes with times, called as its caller promised. -/
def Op.Timed (n : Node) : Op → Prop
  | .introduce peer _ | .addSeed peer _ => peer ≠ n.members.localId
  | .removeSeed _ | .expectPeers _ | .setPartitionPolicy _ | .setQuorumMemory _ => True
  | .handle _ now | .leave now => n.lastNow ≤ now
  | _ => False

def clockEnd : Nat := 2 ^ 62

/- A node of these settings starts, and none of its runs has it fail for a time that overflows. -/
def Settings.NeverFails (s : Settings) : Prop :=
  ∀ (localId : PeerId) (addr : Address) (seed : UInt64),
    ∃ start, s.start localId addr seed = some start ∧
      ∀ (decay : Nat → Nat → ℚ), Decays decay → ∀ (ops : List Op) (n : Node),
        (∀ max, Op.setMaxMembers max ∉ ops) → start.run decay ops = some n →
        ∀ op : Op, op.Timed n → op.time n < clockEnd →
          (∃ n', n.step decay op = some n') ∨ u64Max < n.counted + op.news

theorem Limiter.new_total {config : Config} (valid : config.Valid) :
    ∃ limiter, Limiter.new config = some limiter := by
  rw [Limiter.new, if_pos valid, HotSet.new, if_pos valid.2.2.2.2.2.1]
  exact ⟨_, rfl⟩

theorem Passes.returns {result : Option Node} {now peak news : Nat}
    (passes : Passes result now peak news) : (∃ n, result = some n) ∨ u64Max < news := by
  rcases passes with ⟨n, h, _⟩ | ⟨_, overflow⟩
  · exact .inl ⟨n, h⟩
  · exact .inr overflow

namespace Node

theorem new_total {config : Config} {swim : SwimConfig} (core : config.Valid) (valid : swim.Valid)
    (localId : PeerId) (addr : Address) (seed : UInt64) :
    ∃ n, Node.new config swim localId addr seed = some n ∧ n.swim = swim := by
  obtain ⟨limiter, made⟩ := Limiter.new_total core
  have members : (MemberTable.new localId addr).setMax defaultMaxMembers =
      some { MemberTable.new localId addr with max := defaultMaxMembers } := by
    rw [MemberTable.setMax, if_pos (by decide)]
  rw [Node.new, if_pos valid]
  simp only [members, made, Option.bind_eq_bind, Option.bind_some]
  exact ⟨_, rfl, rfl⟩

variable {n : Node} {peak news : Nat}

theorem Fit.here {now : Nat} (fit : Fit n now peak news) : Fit n n.lastNow peak news := by
  obtain rfl := fit.clock
  exact fit

/- No more news was counted than the counts say. -/
theorem Fit.recount {now : Nat} (fit : Fit n now peak news) : Fit n now peak n.counted :=
  { fit with
    within := ⟨fit.within.known, fit.within.max, Nat.le_max_left _ _⟩
    conflicts := Nat.le_max_right _ _ }

/- What a node that is fit is asked returns, unless it counts too much news. -/
theorem Fit.timed {decay : Nat → Nat → ℚ} (decays : Decays decay) (fit : Fit n n.lastNow peak news)
    {op : Op} (timed : op.Timed n) (room : n.swim.Room (op.time n) peak) :
    (∃ n', n.step decay op = some n') ∨ u64Max < news + op.news := by
  cases op with
  | introduce peer addr => exact Passes.returns (fit.introduce_passes addr timed)
  | addSeed seed addr =>
    obtain ⟨n', h, _⟩ := fit.addSeed_total addr timed
    exact .inl ⟨n', h⟩
  | removeSeed seed =>
    obtain ⟨n', h, _⟩ := fit.removeSeed_total seed
    exact .inl ⟨n', h⟩
  | expectPeers expected =>
    obtain ⟨n', h, _⟩ := fit.expectPeers_total expected
    exact .inl ⟨n', h⟩
  | setPartitionPolicy policy =>
    obtain ⟨n', h, _⟩ := fit.setPartitionPolicy_total policy
    exact .inl ⟨n', h⟩
  | setQuorumMemory memory => exact .inl ⟨_, rfl⟩
  | handle event now => exact Passes.returns (fit.handle_passes decays timed room event)
  | leave now =>
    obtain ⟨n', h, _⟩ := fit.leave_total timed room
    exact .inl ⟨n', h⟩
  | setMaxMembers | record | checkIn | checkInTraced | rehash => exact timed.elim

theorem run_later {decay : Nat → Nat → ℚ} {n' : Node} {ops : List Op}
    (h : n.run decay ops = some n') : n.lastNow ≤ n'.lastNow := by
  induction ops generalizing n with
  | nil => exact Nat.le_of_eq (congrArg _ (Option.some.inj h))
  | cons op rest ih =>
    simp only [run, List.foldlM_cons, bind, Option.bind_eq_some_iff] at h
    obtain ⟨u, first, h⟩ := h
    obtain ⟨later, clock⟩ := step_clock first
    exact (later.trans (Nat.le_of_eq clock.symm)).trans (ih h)

theorem Fit.run {decay : Nat → Nat → ℚ} (decays : Decays decay) {n' : Node} {ops : List Op}
    (fit : Fit n n.lastNow peak news) (capped : ∀ max, Op.setMaxMembers max ∉ ops)
    (h : n.run decay ops = some n') (room : n.swim.Room n'.lastNow peak) :
    ∃ news', Fit n' n'.lastNow peak news' ∧ n'.swim = n.swim := by
  induction ops generalizing n news with
  | nil =>
    obtain rfl := Option.some.inj h
    exact ⟨news, fit, rfl⟩
  | cons op rest ih =>
    simp only [Node.run, List.foldlM_cons, bind, Option.bind_eq_some_iff] at h
    obtain ⟨u, first, h⟩ := h
    obtain ⟨later, clock⟩ := step_clock first
    have swim := (step_policy fit.sound op first).swim
    have same : op.peak peak = peak := by
      cases op with
      | setMaxMembers max => exact absurd List.mem_cons_self (capped max)
      | _ => rfl
    have early : op.time n ≤ n'.lastNow := clock ▸ run_later h
    have roomy : n.swim.Room (op.time n) (op.peak peak) := by
      rw [same]
      exact room.of_le early (Nat.le_refl peak)
    have fitU := fit.step decays op first later roomy
    rw [same, ← clock] at fitU
    obtain ⟨news', fit', kept⟩ := ih fitU
      (fun max mem => capped max (List.mem_cons_of_mem op mem)) h (swim ▸ room)
    exact ⟨news', fit', kept.trans swim⟩

end Node

/- Room for the period above every clock reading, in the largest cluster of these settings. -/
def Settings.PeriodFits (s : Settings) : Prop :=
  clockEnd - 1 + max (3 * s.maxMembers) 10 * s.swim.protocolPeriod ≤ u64Max

namespace Settings
variable {s : Settings}

theorem Accepted.swim_valid (accepted : s.Accepted) : s.swim.Valid := by
  rw [accepted.period]
  exact Builder.swim_valid accepted.long

theorem PeriodFits.room (fits : s.PeriodFits) (accepted : s.Accepted) {now : Nat}
    (early : now < clockEnd) : s.swim.Room now s.maxMembers := by
  unfold PeriodFits at fits
  simp only [clockEnd, u64Max] at *
  have ten : 10 * s.swim.protocolPeriod ≤ max (3 * s.maxMembers) 10 * s.swim.protocolPeriod :=
    Nat.mul_le_mul_right _ (Nat.le_max_right _ 10)
  constructor
  · simp only [u64Max]
    omega
  · rw [accepted.period]
    simp only [Builder.swim, SwimConfig.default, u64Max]
    omega

/- Nothing fails before there is a peer, and the node is fit for as many as it may have. -/
theorem PeriodFits.start_fit (fits : s.PeriodFits) (accepted : s.Accepted) (localId : PeerId)
    (addr : Address) (seed : UInt64) : ∃ n, s.start localId addr seed = some n ∧
      n.Fit n.lastNow s.maxMembers 0 ∧ n.swim = s.swim := by
  obtain ⟨n, made, swim⟩ := Node.new_total accepted.core accepted.swim_valid localId addr seed
  have room := fits.room accepted (show 0 < clockEnd by decide)
  have fresh := Node.new_fit made accepted.members.1 (swim ▸ room)
  have opened : Node.Fit { n with
      members := { n.members with max := s.maxMembers }, policy := s.policy
      sizes := .new (holdOf s.policy), heldSize := 0, quorumMemory := s.quorumMemory }
      0 s.maxMembers 0 :=
    { fresh with
      sound := fresh.sound.same rfl rfl
      held := Nat.zero_le _
      sizes := by simp [SizeHistory.new] }
  -- What the cap is set from does not depend on the members allowed.
  obtain ⟨informed, known⟩ := opened.informedSince_total opened.joined_le n.lastNow
  have informs : Node.informedSince { n with
      policy := s.policy, sizes := .new (holdOf s.policy), heldSize := 0 }
      (n.joinedAt.getD 0) n.lastNow = some informed := known
  obtain ⟨a, policed⟩ : ∃ a, n.setPartitionPolicy s.policy = some a :=
    Node.refreshCap_of_informed informs
  have frame := Node.refreshCap_frame policed
  have capped := opened.capped a.limiter.cap a.held
  refine ⟨{ a with members := { a.members with max := s.maxMembers }, quorumMemory := s.quorumMemory },
    ?_, ?_, ?_⟩
  · simp only [start, made, policed, Option.bind_eq_bind, Option.bind_some, Node.setMaxMembers,
      Node.setQuorumMemory, MemberTable.setMax, if_pos accepted.members.1]
  · rw [frame]
    exact capped.here
  · rw [frame]
    exact swim

theorem PeriodFits.neverFails (fits : s.PeriodFits) (accepted : s.Accepted) : s.NeverFails := by
  intro localId addr seed
  obtain ⟨start, started, fit, swim⟩ := fits.start_fit accepted localId addr seed
  refine ⟨start, started, ?_⟩
  intro decay decays ops n capped ran op timed early
  have later : n.lastNow ≤ op.time n := by
    cases op with
    | handle | leave => exact timed
    | setMaxMembers | record | checkIn | checkInTraced | rehash => exact timed.elim
    | _ => exact Nat.le_refl _
  have roomy : start.swim.Room n.lastNow s.maxMembers :=
    swim ▸ fits.room accepted (later.trans_lt early)
  obtain ⟨news, fit', kept⟩ := fit.run decays capped ran roomy
  refine fit'.recount.timed decays timed ?_
  rw [kept, swim]
  exact fits.room accepted early

end Settings

/- The largest cluster, by introductions alone: what shows that the room is needed. -/

/- A node that knows so many peers, all alive, and did nothing else since it was started. -/
structure Crowd (start n : Node) (peers : Nat) : Prop where
  frame : n = { start with members := n.members }
  localId : n.members.localId = 0
  max : n.members.max = start.members.max
  refused : n.members.refused = 0
  size : n.members.members.size = peers
  live : n.members.live.length = peers
  alive : ∀ (peer : PeerId) (member : Member), n.members.members[peer]? = some member →
    member.status = .alive ∧ peer.toNat ≤ peers

theorem Crowd.other {start n : Node} {peers : Nat} (crowd : Crowd start n peers)
    (small : peers + 1 < 2 ^ 64) : UInt64.ofNat (peers + 1) ≠ n.members.localId := by
  intro same
  rw [crowd.localId] at same
  have number := congrArg UInt64.toNat same
  rw [UInt64.toNat_ofNat_of_lt' small] at number
  simp at number

theorem Crowd.introduce {start n n' : Node} {peers : Nat} (crowd : Crowd start n peers)
    (room : peers + 1 < start.members.max) (small : peers + 1 < 2 ^ 64) {addr : Address}
    (h : n.introduce (UInt64.ofNat (peers + 1)) addr = some n') : Crowd start n' (peers + 1) := by
  have number : (UInt64.ofNat (peers + 1)).toNat = peers + 1 :=
    UInt64.toNat_ofNat_of_lt' small
  have other := crowd.other small
  have fresh : n.members.members[UInt64.ofNat (peers + 1)]? = none := by
    rw [Option.eq_none_iff_forall_ne_some]
    intro member found
    have := (crowd.alive _ member found).2
    omega
  have notFull : ¬ n.members.max ≤ n.members.known := by
    have size := crowd.size
    rw [crowd.max, MemberTable.known]
    omega
  have notMem : ¬ n.members.members.contains (UInt64.ofNat (peers + 1)) = true := by
    rw [ExtTreeMap.contains_eq_isSome_getElem?, fresh]
    simp
  simp only [Node.introduce, if_neg other, MemberTable.apply, fresh, Option.isNone_none,
    Bool.true_and, decide_eq_true_eq, if_neg notFull, MemberTable.follow, bind, Option.any_none,
    show (Status.alive != Status.dead) = true from rfl, Option.bind_some, Bool.not_true,
    Bool.false_eq_true, if_false] at h
  split at h
  · rename_i index absent
    simp only [Option.bind_some, reduceCtorEq, if_false, Option.some.injEq] at h
    subst h
    refine ⟨?_, crowd.localId, crowd.max, crowd.refused, ?_, ?_, ?_⟩
    · rw [crowd.frame]
    · rw [ExtTreeMap.size_insert, if_neg notMem, crowd.size]
    · rw [List.length_insertIdx_of_le_length (AscendingList.binarySearch_error_le absent),
        crowd.live]
    · intro peer member found
      rw [ExtTreeMap.getElem?_insert] at found
      split at found
      · rename_i same
        rw [← Std.LawfulEqCmp.eq_of_compare same, number, ← Option.some.inj found]
        exact ⟨rfl, Nat.le_refl _⟩
      · have held := crowd.alive peer member found
        exact ⟨held.1, held.2.trans (Nat.le_succ peers)⟩
  · simp at h

theorem Node.new_fields {config : Config} {swim : SwimConfig} {localId : PeerId} {addr : Address}
    {seed : UInt64} {n : Node} (h : Node.new config swim localId addr seed = some n) :
    n.members = { MemberTable.new localId addr with max := defaultMaxMembers } ∧ n.lastNow = 0 ∧
      n.left = false ∧ n.probe = none ∧ n.nextRoundAt = 0 ∧ n.identityConflicts = 0 ∧
      n.swim = swim := by
  unfold Node.new at h
  obtain ⟨_, h⟩ := Option.ite_none_right_eq_some.mp h
  simp only [MemberTable.setMax, bind, Option.bind_eq_some_iff, Option.ite_none_right_eq_some,
    Option.some.injEq] at h
  obtain ⟨_, ⟨_, rfl⟩, limiter, _, rfl⟩ := h
  exact ⟨rfl, rfl, rfl, rfl, rfl, rfl, rfl⟩

theorem Settings.start_crowd {s : Settings} {addr : Address} {seed : UInt64} {n : Node}
    (h : s.start 0 addr seed = some n) : Crowd n n 0 ∧ n.members.max = s.maxMembers ∧
      n.lastNow = 0 ∧ n.left = false ∧ n.probe = none ∧ n.nextRoundAt = 0 ∧
      n.identityConflicts = 0 ∧ n.swim = s.swim := by
  simp only [start, Option.bind_eq_bind, Option.bind_eq_some_iff] at h
  obtain ⟨a, made, b, policed, capped⟩ := h
  obtain ⟨members, clock, left, probe, round, conflicts, swim⟩ := Node.new_fields made
  have frame := Node.refreshCap_frame policed
  simp only [Node.setMaxMembers, MemberTable.setMax, Option.bind_eq_bind, Option.bind_eq_some_iff,
    Option.ite_none_right_eq_some, Option.some.injEq] at capped
  obtain ⟨_, ⟨_, rfl⟩, rfl⟩ := capped
  have same : b.members = { MemberTable.new 0 addr with max := defaultMaxMembers } := by
    rw [frame]
    exact members
  simp only [Node.setQuorumMemory, same]
  rw [frame]
  refine ⟨⟨rfl, rfl, rfl, rfl, ExtTreeMap.size_empty, rfl, ?_⟩, trivial, clock, left, probe, round,
    conflicts, swim⟩
  intro peer member found
  simp [MemberTable.new] at found

/- The largest cluster the settings allow is reached, all of it still at the start. -/
theorem Settings.NeverFails.crowd {s : Settings} (never : s.NeverFails)
    (small : s.maxMembers ≤ maxMaxMembers) {addr : Address} {start : Node}
    (started : s.start 0 addr 0 = some start) {peers : Nat} (fits : peers < s.maxMembers) :
    ∃ ops n, (∀ max, Op.setMaxMembers max ∉ ops) ∧ start.run sampleDecay ops = some n ∧
      Crowd start n peers := by
  obtain ⟨empty, max, clock, _, _, _, conflicts, _⟩ := start_crowd started
  induction peers with
  | zero => exact ⟨[], start, by simp, rfl, empty⟩
  | succ peers ih =>
    obtain ⟨ops, n, proper, ran, crowd⟩ := ih (Nat.lt_of_succ_lt fits)
    have few : peers + 1 < 2 ^ 64 := by
      unfold maxMaxMembers at small
      omega
    have counted : n.counted = 0 := by
      rw [Node.counted, crowd.refused, crowd.frame]
      exact conflicts
    have early : n.lastNow < clockEnd := by
      rw [crowd.frame]
      exact clock ▸ (by decide : 0 < clockEnd)
    obtain ⟨_, started', runs⟩ := never 0 addr 0
    obtain rfl := Option.some.inj (started.symm.trans started')
    rcases runs sampleDecay sampleDecay_decays ops n proper ran
      (.introduce (UInt64.ofNat (peers + 1)) addr) (crowd.other few) early with ⟨n', h⟩ | overflow
    · refine ⟨ops ++ [.introduce (UInt64.ofNat (peers + 1)) addr], n', ?_, ?_, ?_⟩
      · simpa using proper
      · rw [Node.run, List.foldlM_append]
        rw [Node.run] at ran
        rw [ran]
        simpa using h
      · exact crowd.introduce (max ▸ fits) few h
    · rw [counted, Op.news] at overflow
      exact absurd overflow (by decide)

theorem Node.timeOut_alive {n n' : Node} {now : Nat}
    (alive : ∀ (peer : PeerId) (member : Member), n.members.members[peer]? = some member →
      member.status = .alive) (h : n.timeOut now = some n') :
    n'.members.live = n.members.live := by
  have none : n.members.expired now n.swim.suspicionTimeout = [] := by
    rw [MemberTable.expired, List.map_eq_nil_iff, List.filter_eq_nil_iff]
    intro entry mem
    have found := ExtTreeMap.mem_toList_iff_getElem?_eq_some.mp mem
    simp [alive entry.1 entry.2 found]
  simp only [timeOut, MemberTable.expireSuspects, none, MemberTable.applyAll, bind,
    Option.bind_eq_some_iff, Option.some.injEq] at h
  obtain ⟨⟨expired, members⟩, expires, u, spreads, rfl⟩ := h
  simp only [Option.ite_none_right_eq_some, List.foldlM_nil, Option.pure_def, Option.map_some,
    Option.some.injEq, Prod.mk.injEq] at expires
  obtain ⟨_, rfl, rfl⟩ := expires
  obtain rfl := Option.some.inj spreads
  rfl

theorem Node.informedSince_room {n : Node} {since now : Nat} {informed : Bool}
    (h : n.informedSince since now = some informed) :
    since + max (3 * n.allocationSize) 10 * n.swim.protocolPeriod ≤ u64Max := by
  simp only [informedSince, staleAfter, staleAfterRounds, bind, Option.bind_eq_some_iff,
    Option.map_eq_some_iff, mulU64_eq_some, addU64_eq_some] at h
  obtain ⟨_, ⟨_, ⟨_, ⟨_, rfl⟩, rfl⟩, _, rfl⟩, _, ⟨room, rfl⟩, _⟩ := h
  exact room

theorem Node.round_room {decay : Nat → Nat → ℚ} {n n' : Node} {now : Nat} (probe : n.probe = none)
    (h : n.round decay now = some n') :
    now + max (3 * n.members.clusterSize) 10 * n.swim.protocolPeriod ≤ u64Max := by
  obtain ⟨u, m, c, _, opened, policy, shares, _⟩ := round_sharing h
  obtain ⟨_, _, alone, waited, _⟩ : ∃ informed, _ := by
    simpa only [applyShares, bind, Option.bind_eq_some_iff] using shares
  have room := informedSince_room waited
  have frameM := applyPolicy_frame policy
  have members : m.members = n.members := by
    simp only [openRound, missProbe, probe, bind, Option.bind_eq_some_iff,
      Option.some.injEq] at opened
    obtain ⟨_, _, rfl⟩ := opened
    rw [frameM]
  have swim : m.swim = n.swim := by
    rw [frameM, (openRound_frame opened).1]
  have larger : n.members.clusterSize ≤ m.allocationSize := members ▸ Nat.le_max_left _ _
  have scaled : max (3 * n.members.clusterSize) 10 * n.swim.protocolPeriod ≤
      max (3 * m.allocationSize) 10 * m.swim.protocolPeriod := by
    rw [swim]
    exact Nat.mul_le_mul_right _ (by omega)
  exact (Nat.add_le_add_left scaled now).trans room

theorem Crowd.tick {start n n' : Node} {peers now : Nat} (crowd : Crowd start n peers)
    (later : start.lastNow ≤ now) (present : start.left = false) (probe : start.probe = none)
    (due : start.nextRoundAt ≤ now) (h : n.handle sampleDecay .tick now = some n') :
    now + Max.max (3 * (peers + 1)) 10 * start.swim.protocolPeriod ≤ u64Max := by
  have laterN : n.lastNow ≤ now := by
    rw [crowd.frame]
    exact later
  have presentN : n.left = false := by
    rw [crowd.frame]
    exact present
  simp only [Node.handle, Node.advance, laterN, ↓reduceIte, presentN, bind, Option.bind_some,
    Bool.false_eq_true, Node.tick, Option.bind_eq_some_iff] at h
  obtain ⟨a, timed, b, rounds, _⟩ := h
  have live : a.members.live = n.members.live :=
    Node.timeOut_alive (n := { n with lastNow := now, actions := [], left := false })
      (fun peer member found => (crowd.alive peer member found).1) timed
  have same : a.nextRoundAt = n.nextRoundAt ∧ a.probe = n.probe ∧ a.swim = n.swim := by
    rw [Node.timeOut_frame timed]
    exact ⟨rfl, rfl, rfl⟩
  rw [crowd.frame] at same
  rw [if_pos (same.1 ▸ due)] at rounds
  have room := Node.round_room (same.2.1.trans probe) rounds
  rw [MemberTable.clusterSize, live, crowd.live, same.2.2] at room
  exact room

theorem Settings.NeverFails.periodFits {s : Settings} (never : s.NeverFails) (accepted : s.Accepted) :
    s.PeriodFits := by
  obtain ⟨some, few⟩ := accepted.members
  obtain ⟨start, started, runs⟩ := never 0 (sampleAddress 0) 0
  obtain ⟨_, _, clock, present, probe, due, conflicts, swim⟩ := start_crowd started
  obtain ⟨ops, n, proper, ran, crowd⟩ := never.crowd few started (show s.maxMembers - 1 < _ by omega)
  have zero : n.lastNow = 0 := by
    rw [crowd.frame]
    exact clock
  have counted : n.counted = 0 := by
    rw [Node.counted, crowd.refused, crowd.frame]
    exact conflicts
  rcases runs sampleDecay sampleDecay_decays ops n proper ran (.handle .tick (clockEnd - 1))
    (show n.lastNow ≤ _ from zero ▸ Nat.zero_le _) (show clockEnd - 1 < clockEnd by decide)
    with ⟨n', h⟩ | overflow
  · have room := crowd.tick (clock ▸ Nat.zero_le _) present probe (due ▸ Nat.zero_le _) h
    rw [swim, Nat.sub_add_cancel some] at room
    exact room
  · rw [counted, Op.news, Event.news] at overflow
    exact absurd overflow (by decide)

/-- Settings that were accepted make a node, and one that never fails exactly where there is room for
    the wait of the largest cluster above every reading of the clock. -/
theorem node_fails_iff_period (parse : String → Option Address) (xxh3 : String → UInt64)
    (b : Builder) (s : Settings) (taken : b.settings parse xxh3 = .ok s) :
    (∀ (localId : PeerId) (addr : Address) (seed : UInt64),
      ∃ n, Node.new s.core s.swim localId addr seed = some n) ∧ (s.NeverFails ↔ s.PeriodFits) := by
  have accepted := Builder.settings_accepted taken
  constructor
  · intro localId addr seed
    obtain ⟨n, made, _⟩ := Node.new_total accepted.core accepted.swim_valid localId addr seed
    exact ⟨n, made⟩
  · exact ⟨fun never => never.periodFits accepted, fun fits => fits.neverFails accepted⟩

def parseHome (text : String) : Option Address :=
  if text = "127.0.0.1:7946" then some (.v4 #v[127, 0, 0, 1] 7946) else none

/- A node at home, with a period or with the default one. -/
def homeBuilder (period : Option Duration) : Builder :=
  { Builder.new with
    bind := some "127.0.0.1:7946", limit := some (.new 100 .second), period := period }

theorem home_period_fits : (((homeBuilder none).settings parseHome fun _ => 0).toOption.any fun s =>
    decide (s.maxMembers = defaultMaxMembers ∧ s.swim.protocolPeriod = 200 * 1000000)) = true := by
  decide +kernel

theorem node_fails_iff_period_default : ∃ s, ((homeBuilder none).settings parseHome fun _ => 0) =
    .ok s ∧ s.NeverFails := by
  obtain ⟨s, taken, checked⟩ := (Option.any_eq_true _ _).mp home_period_fits
  obtain ⟨members, period⟩ := decide_eq_true_eq.mp checked
  have taken := ok_of_toOption taken
  refine ⟨s, taken, (node_fails_iff_period _ _ _ s taken).2.mpr ?_⟩
  rw [Settings.PeriodFits, members, period]
  decide

theorem longest_period_fails : (((homeBuilder (some .longest)).settings parseHome fun _ => 0).toOption.any
    fun s => (s.start 0 (sampleAddress 0) 0).isNone) = true := by
  decide +kernel

theorem longest_period_accepted : ¬ ∀ (parse : String → Option Address) (xxh3 : String → UInt64)
    (b : Builder) (s : Settings), b.settings parse xxh3 = .ok s → s.NeverFails := by
  intro claim
  obtain ⟨s, taken, checked⟩ := (Option.any_eq_true _ _).mp longest_period_fails
  obtain ⟨start, started, _⟩ := claim _ _ _ s (ok_of_toOption taken) 0 (sampleAddress 0) 0
  rw [Option.isNone_iff_eq_none.mp checked] at started
  exact absurd started (by simp)

end Rateguard
