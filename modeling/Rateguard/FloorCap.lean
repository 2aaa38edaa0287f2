import Rateguard.RoundShares

/- The cap a node holds every key to: the least floor over its reasons to hold back, what it does
   to the rates of tracked and of new keys, and how long the loss of a majority keeps it. -/
namespace Rateguard
open Std (ExtTreeMap)

namespace Node

/- A reason in force to hold back, by the size its floor is taken over. -/
inductive HoldsBack (n : Node) : Nat → Prop
  | joining : n.held.joining = true → HoldsBack n (1 + n.seeds.length)
  | learning : n.held.learning = true → HoldsBack n n.shareSize
  | withoutQuorum : n.held.withoutQuorum = true → HoldsBack n n.quorumSize
  | membersFull : n.held.membersFull = true → HoldsBack n n.shareSize

/- Their floors, as parts of each key's own limit. -/
def floors (n : Node) : List ℚ :=
  let floor := fun known : Nat => n.limiter.config.floorFactor / known
  (if n.held.joining then [floor (1 + n.seeds.length)] else []) ++
    (if n.held.learning then [floor n.shareSize] else []) ++
    (if n.held.withoutQuorum then [floor n.quorumSize] else []) ++
    (if n.held.membersFull then [floor n.shareSize] else [])

theorem mem_floors {n : Node} {floor : ℚ} : floor ∈ n.floors ↔
    ∃ size, n.HoldsBack size ∧ floor = n.limiter.config.floorFactor / size := by
  have one {held : Bool} {size : Nat} :
      floor ∈ (if held = true then [n.limiter.config.floorFactor / (size : ℚ)] else []) ↔
        held = true ∧ floor = n.limiter.config.floorFactor / size := by
    cases held <;> simp
  simp only [floors, List.mem_append, one]
  constructor
  · rintro (((⟨held, same⟩ | ⟨held, same⟩) | ⟨held, same⟩) | ⟨held, same⟩)
    · exact ⟨_, .joining held, same⟩
    · exact ⟨_, .learning held, same⟩
    · exact ⟨_, .withoutQuorum held, same⟩
    · exact ⟨_, .membersFull held, same⟩
  · rintro ⟨size, reason, same⟩
    cases reason with
    | joining held => exact .inl (.inl (.inl ⟨held, same⟩))
    | learning held => exact .inl (.inl (.inr ⟨held, same⟩))
    | withoutQuorum held => exact .inl (.inr ⟨held, same⟩)
    | membersFull held => exact .inr ⟨held, same⟩

/- The cap is the least floor over the reasons in force, and there is none without a reason. -/
def Capped (n : Node) : Prop :=
  match n.limiter.cap with
  | none => ∀ size, ¬ n.HoldsBack size
  | some cap =>
    IsLeast {floor | ∃ size, n.HoldsBack size ∧ floor = n.limiter.config.floorFactor / size} cap

theorem refreshCap_floors {n n' : Node} {now : Nat} (h : n.refreshCap now = some n') :
    n'.limiter.cap = n'.floors.min? := by
  simp only [refreshCap, bind, Option.bind_eq_some_iff, Option.some.injEq] at h
  obtain ⟨learning, _, rfl⟩ := h
  rfl

theorem refreshCap_capped {n n' : Node} {now : Nat} (h : n.refreshCap now = some n') :
    n'.Capped := by
  have cap := refreshCap_floors h
  unfold Capped
  split
  · rename_i absent
    rw [absent, eq_comm, List.min?_eq_none_iff] at cap
    intro size reason
    have mem := mem_floors.mpr ⟨size, reason, rfl⟩
    rw [cap] at mem
    exact absurd mem (by simp)
  · rename_i least found
    rw [found, eq_comm, List.min?_eq_some_iff] at cap
    exact ⟨mem_floors.mp cap.1, fun floor held => cap.2 floor (mem_floors.mpr held)⟩

theorem refreshCap_held {n n' : Node} {now : Nat} (h : n.refreshCap now = some n') :
    n'.held.withoutQuorum = (n'.policy == .quorum && decide (now < n'.flooredUntil)) := by
  simp only [refreshCap, bind, Option.bind_eq_some_iff, Option.some.injEq] at h
  obtain ⟨learning, _, rfl⟩ := h
  rfl

/- Whether a piece of news refreshes the cap: a live newcomer is refused where none was. -/
def refuses (n : Node) (update : Update) (now : Nat) : Bool :=
  (n.members.apply update now).any (·.1 = .refused) && update.status != .dead &&
    !n.held.membersFull

def refusesAny (n : Node) (now : Nat) : List Update → Bool
  | [] => false
  | update :: rest =>
    n.refuses update now || (n.learn update now).any fun n => n.refusesAny now rest

/- A message as its news is about to be learned. -/
def opened (n : Node) (sender : PeerId) (message : Message) (now : Nat) : Node :=
  { n with
    lastNow := now, actions := []
    behind := if n.opensBehind sender message then n.behind.insert sender
      else n.behind.erase sender }

/- Whether a step refreshes the cap. -/
def refreshes (n : Node) : Op → Bool
  | .introduce peer addr =>
    (n.members.apply ⟨peer, addr, 0, .alive⟩ n.lastNow).any (·.1 = .refused)
  | .addSeed _ _ | .removeSeed _ | .expectPeers _ | .setPartitionPolicy _ => true
  | .handle .tick now => (n.roundState now).isSome
  | .handle (.messageReceived sender bytes) now =>
    !n.left && sender != n.members.localId && match decode bytes with
      | .ok message => wellFormedLeave sender message &&
        (n.opened sender message now).refusesAny now message.updates
      | .error _ => false
  | _ => false

/- What one step does to the cap: nothing, or what its last refresh makes of it. -/
inductive CapStep (n : Node) (op : Op) (n' : Node) : Prop
  | quiet : n.refreshes op = false → n'.limiter.cap = n.limiter.cap → n'.held = n.held →
      n'.policy = n.policy → n'.flooredUntil = n.flooredUntil → n.lastNow ≤ n'.lastNow →
      CapStep n op n'
  | refreshed (u v : Node) : n.refreshes op = true → u.refreshCap u.lastNow = some v →
      n'.limiter.cap = v.limiter.cap → n'.held = v.held → n'.policy = v.policy →
      n'.flooredUntil = v.flooredUntil → n'.lastNow = v.lastNow → CapStep n op n'

theorem learn_cap {n n' : Node} {update : Update} {now : Nat}
    (h : n.learn update now = some n') :
    n.refuses update now = false ∧ n'.limiter.cap = n.limiter.cap ∧ n'.held = n.held ∨
      n.refuses update now = true ∧
        ∃ u : Node, u.lastNow = n.lastNow ∧ u.refreshCap now = some n' := by
  simp only [learn, bind, Option.bind_eq_some_iff] at h
  obtain ⟨⟨applied, members⟩, told, h⟩ := h
  unfold refuses
  rw [told]
  cases applied with
  | ignored =>
    obtain rfl := Option.some.inj h
    exact .inl ⟨rfl, rfl, rfl⟩
  | accepted previous =>
    rw [spread_frame h]
    exact .inl ⟨rfl, rfl, rfl⟩
  | refuted alive =>
    simp only [Option.bind_eq_some_iff] at h
    obtain ⟨conflicts, _, h⟩ := h
    rw [spread_frame h]
    exact .inl ⟨rfl, rfl, rfl⟩
  | refused =>
    dsimp only at h
    split at h
    · rename_i dead
      obtain rfl := Option.some.inj h
      exact .inl ⟨by simp [dead], rfl, rfl⟩
    · rename_i alive
      split at h
      · rename_i full
        obtain rfl := Option.some.inj h
        exact .inl ⟨by simp [show n.held.membersFull = true from full], rfl, rfl⟩
      · rename_i room
        have room : n.held.membersFull = false := by simpa using room
        refine .inr ⟨by simp [alive, room], _, ?_, h⟩
        rfl

theorem learnAll_cap {n n' : Node} {updates : List Update} {now : Nat}
    (h : n.learnAll updates now = some n') :
    n.refusesAny now updates = false ∧ n'.limiter.cap = n.limiter.cap ∧ n'.held = n.held ∨
      n.refusesAny now updates = true ∧ ∃ u v : Node, u.lastNow = n.lastNow ∧
        u.refreshCap now = some v ∧ n'.limiter.cap = v.limiter.cap ∧ n'.held = v.held ∧
        n'.policy = v.policy ∧ n'.flooredUntil = v.flooredUntil ∧ n'.lastNow = v.lastNow := by
  induction updates generalizing n with
  | nil =>
    obtain rfl := Option.some.inj h
    exact .inl ⟨rfl, rfl, rfl⟩
  | cons update rest ih =>
    simp only [learnAll, List.foldlM_cons, bind, Option.bind_eq_some_iff] at h
    obtain ⟨m, first, h⟩ := h
    have clock : m.lastNow = n.lastNow := by rw [learn_frame first]
    have frame := learnAll_frame h
    simp only [refusesAny, first, Option.any_some]
    rcases ih h with ⟨quiet, cap, held⟩ | ⟨again, u, v, clockU, rest⟩
    · rcases learn_cap first with ⟨kept, capM, heldM⟩ | ⟨refused, u, clockU, refreshed⟩
      · left
        exact ⟨by rw [kept, quiet]; rfl, cap.trans capM, held.trans heldM⟩
      · right
        refine ⟨by rw [refused]; rfl, u, m, clockU, refreshed, cap, held, ?_, ?_, ?_⟩
        · rw [frame]
        · rw [frame]
        · rw [frame]
    · right
      exact ⟨by rw [again, Bool.or_true], u, v, clockU.trans clock, rest⟩

theorem receiveMessage_cap {n n' : Node} {sender : PeerId} {message : Message} {now : Nat}
    (h : n.receiveMessage sender message now = some n') : ∃ a : Node,
      ({ n with behind := if n.opensBehind sender message then n.behind.insert sender
        else n.behind.erase sender } : Node).learnAll message.updates now = some a ∧
      n'.limiter.cap = a.limiter.cap ∧ n'.held = a.held ∧ n'.policy = a.policy ∧
      n'.flooredUntil = a.flooredUntil ∧ n'.lastNow = a.lastNow := by
  simp only [receiveMessage, bind, Option.bind_eq_some_iff] at h
  obtain ⟨a, learned, h⟩ := h
  refine ⟨a, learned, ?_⟩
  cases message with
  | leave updates =>
    rw [← Option.some.inj h, depart_frame a sender]
    exact ⟨rfl, rfl, rfl, rfl, rfl⟩
  | ping | ack | pingReq =>
    simp only [Option.bind_eq_some_iff] at h
    obtain ⟨b, heard, h⟩ := h
    rw [answer_frame h, hear_frame heard]
    exact ⟨rfl, rfl, rfl, rfl, rfl⟩

theorem applyPolicy_refresh {n n' : Node} {now : Nat} (h : n.applyPolicy now = some n') :
    ∃ u : Node, u.lastNow = n.lastNow ∧ u.refreshCap now = some n' := by
  simp only [applyPolicy, bind, Option.bind_eq_some_iff] at h
  obtain ⟨⟨heldSize, sizes⟩, _, flooredUntil, _, h⟩ := h
  refine ⟨_, ?_, h⟩
  rfl

theorem tick_cap {decay : Nat → Nat → ℚ} {n n' : Node} {now : Nat} (later : n.lastNow ≤ now)
    (present : n.left = false) (h : n.handle decay .tick now = some n') :
    CapStep n (.handle .tick now) n' := by
  simp only [handle, advance, later, ↓reduceIte, present, bind, Option.bind_some,
    Bool.false_eq_true, tick, Option.bind_eq_some_iff] at h
  obtain ⟨a, timed, b, rounds, h⟩ := h
  have frameA := timeOut_frame timed
  have frameLast := escalate_frame h
  have state : n.roundState now = if a.nextRoundAt ≤ now then a.openRound now else none := by
    simp only [roundState, advance, later, ↓reduceIte, present, bind, Option.bind_some,
      Bool.false_eq_true, timed]
  split at rounds
  · rename_i due
    obtain ⟨opened, m, c, _, opens, policy, shares, _, _, frameB⟩ := round_sharing rounds
    obtain ⟨u, clockU, refreshed⟩ := applyPolicy_refresh policy
    have clock : u.lastNow = now := by
      rw [clockU, (openRound_frame opens).1, frameA]
    obtain ⟨informed, keys, alone, waited, ⟨limiter, recent⟩, tick, made⟩ : ∃ informed, _ := by
      simpa only [applyShares, bind, Option.bind_eq_some_iff] using shares
    obtain ⟨kept, quoted, ticked⟩ := Limiter.tickWithShares_spec tick
    have frameC := applyShares_frame shares
    have cap : c.limiter.cap = m.limiter.cap := by
      rw [← Option.some.inj made]
      exact ticked.cap
    rw [frameB] at frameLast
    refine .refreshed u m ?_ (clock ▸ refreshed) ?_ ?_ ?_ ?_ ?_
    · simp [refreshes, state, due, opens]
    · rw [frameLast]
      exact cap
    all_goals rw [frameLast, frameC]
  · rename_i early
    obtain rfl := Option.some.inj rounds
    rw [frameA] at frameLast
    rw [frameLast]
    refine .quiet ?_ rfl rfl rfl rfl later
    simp [refreshes, state, early]

theorem message_cap {n n' : Node} {sender : PeerId} {bytes : List UInt8} {message : Message}
    {now : Nat} (later : n.lastNow ≤ now) (present : n.left = false)
    (stranger : sender ≠ n.members.localId) (decoded : decode bytes = .ok message)
    (proper : wellFormedLeave sender message = true)
    (h : ({ n with lastNow := now, actions := [] } : Node).receiveMessage sender message now =
      some n') : CapStep n (.handle (.messageReceived sender bytes) now) n' := by
  obtain ⟨a, learned, cap, held, policy, floored, clock⟩ := receiveMessage_cap h
  have frame := learnAll_frame learned
  have refreshes : n.refreshes (.handle (.messageReceived sender bytes) now) =
      (n.opened sender message now).refusesAny now message.updates := by
    simp [Node.refreshes, present, stranger, decoded, proper]
  rcases learnAll_cap learned with ⟨quiet, capA, heldA⟩ | ⟨some, u, v, clockU, refreshed, capA,
    heldA, policyA, flooredA, clockA⟩
  · refine .quiet (refreshes.trans quiet) (cap.trans capA) (held.trans heldA) ?_ ?_ ?_
    · rw [policy, frame]
    · rw [floored, frame]
    · rw [clock, frame]
      exact later
  · have here : u.lastNow = now := clockU
    exact .refreshed u v (refreshes.trans some) (here ▸ refreshed) (cap.trans capA)
      (held.trans heldA) (policy.trans policyA) (floored.trans flooredA) (clock.trans clockA)

theorem handle_cap {decay : Nat → Nat → ℚ} {n n' : Node} {event : Event} {now : Nat}
    (h : n.handle decay event now = some n') : CapStep n (.handle event now) n' := by
  have later := (handle_cases h).1
  have idle (same : n' = { n with lastNow := now, actions := [] })
      (quiet : n.refreshes (.handle event now) = false) : CapStep n (.handle event now) n' := by
    subst same
    exact .quiet quiet rfl rfl rfl rfl later
  cases left : n.left with
  | true =>
    refine idle ?_ ?_
    · simp only [handle, advance, later, ↓reduceIte, left, bind, Option.bind_some,
        Option.some.injEq] at h
      rw [← h, left]
    · cases event <;> simp [refreshes, roundState, advance, later, left]
  | false =>
    cases event with
    | tick => exact tick_cap later left h
    | messageReceived sender bytes =>
      simp only [handle, advance, later, ↓reduceIte, left, bind, Option.bind_some,
        Bool.false_eq_true, receive] at h
      split at h
      · rename_i own
        exact idle (by simpa [left, eq_comm] using h) (by simp [refreshes, own])
      · rename_i stranger
        split at h
        · rename_i failed
          exact idle (by simpa [left, eq_comm] using h) (by simp [refreshes, failed])
        · rename_i message decoded
          split at h
          · rename_i proper
            refine message_cap later left stranger decoded proper ?_
            rw [left]
            exact h
          · rename_i improper
            exact idle (by simpa [left, eq_comm] using h) (by simp [refreshes, decoded, improper])

theorem step_cap {decay : Nat → Nat → ℚ} {n n' : Node} {op : Op}
    (h : n.step decay op = some n') : CapStep n op n' := by
  have refreshed {u : Node} (op : Op) (refreshes : n.refreshes op = true)
      (h : u.refreshCap u.lastNow = some n') : CapStep n op n' :=
    .refreshed u n' refreshes h rfl rfl rfl rfl rfl
  cases op with
  | handle event now => exact handle_cap h
  | introduce peer addr =>
    simp only [step, introduce] at h
    split at h
    · simp at h
    · simp only [bind, Option.bind_eq_some_iff] at h
      obtain ⟨⟨applied, members⟩, told, h⟩ := h
      split at h
      · rename_i refused
        refine .refreshed { n with members, lastRefusedAt := some n.lastNow } n' ?_ h rfl rfl rfl
          rfl rfl
        simpa [refreshes, told] using refused
      · rename_i kept
        obtain rfl := Option.some.inj h
        refine .quiet ?_ rfl rfl rfl rfl (Nat.le_refl _)
        simpa [refreshes, told] using kept
  | addSeed seed addr =>
    simp only [step, addSeed] at h
    split at h
    · simp at h
    · split at h
      · exact refreshed _ rfl h
      · exact refreshed _ rfl h
  | removeSeed | expectPeers | setPartitionPolicy => exact refreshed _ rfl h
  | setQuorumMemory memory =>
    obtain rfl := Option.some.inj h
    exact .quiet rfl rfl rfl rfl rfl (Nat.le_refl _)
  | setMaxMembers max =>
    simp only [step, setMaxMembers, bind, Option.bind_eq_some_iff, Option.some.injEq] at h
    obtain ⟨members, _, rfl⟩ := h
    exact .quiet rfl rfl rfl rfl rfl (Nat.le_refl _)
  | record key tally limit now =>
    simp only [step, Node.record, bind, Option.bind_eq_some_iff, Option.some.injEq] at h
    obtain ⟨a, advanced, limiter, recorded, rfl⟩ := h
    obtain ⟨later, rfl⟩ := advance_some advanced
    exact .quiet rfl (Limiter.record_serves recorded).cap rfl rfl rfl later
  | checkIn key limit now =>
    simp only [step, checkIn, bind, Option.bind_eq_some_iff, Option.map_eq_some_iff,
      Option.some.injEq] at h
    obtain ⟨_, ⟨a, advanced, ⟨decision, limiter⟩, checked, rfl⟩, rfl⟩ := h
    obtain ⟨later, rfl⟩ := advance_some advanced
    exact .quiet rfl (Limiter.checkIn_serves checked).cap rfl rfl rfl later
  | checkInTraced key limit shadow now =>
    simp only [step, checkInTraced, bind, Option.bind_eq_some_iff, Option.map_eq_some_iff,
      Option.some.injEq] at h
    obtain ⟨_, ⟨a, advanced, ⟨decisions, limiter⟩, checked, rfl⟩, rfl⟩ := h
    obtain ⟨later, rfl⟩ := advance_some advanced
    exact .quiet rfl (Limiter.checkInTraced_serves checked).cap rfl rfl rfl later
  | leave now =>
    simp only [step, leave, bind, Option.bind_eq_some_iff] at h
    obtain ⟨a, advanced, h⟩ := h
    obtain ⟨later, rfl⟩ := advance_some advanced
    split at h
    · obtain rfl := Option.some.inj h
      exact .quiet rfl rfl rfl rfl rfl later
    · simp only [Option.bind_eq_some_iff] at h
      obtain ⟨own, _, h⟩ := h
      rw [sendLeave_frame h]
      exact .quiet rfl rfl rfl rfl rfl later
  | rehash keys =>
    simp only [step, rehash, Option.ite_none_right_eq_some, Option.some.injEq] at h
    obtain ⟨perm, rfl⟩ := h
    exact .quiet rfl rfl rfl rfl rfl (Nat.le_refl _)

theorem knownForQuorum_pos (n : Node) : 0 < n.knownForQuorum := by
  unfold knownForQuorum MemberTable.clusterSize
  omega

theorem countQuorum_majority (n : Node) (now : Nat) :
    (n.countQuorum now).2.1 = hasQuorum n.aliveCount (n.countQuorum now).1 ∧
      0 < (n.countQuorum now).1 := by
  have known := n.knownForQuorum_pos
  unfold countQuorum
  dsimp only
  split
  · rename_i majority
    exact ⟨majority.symm, by omega⟩
  · rename_i minority
    split
    · exact ⟨rfl, known⟩
    · exact ⟨by simpa using minority, by dsimp only; omega⟩

theorem quorumSize_pos {decay : Nat → Nat → ℚ} {n : Node} (reached : Reachable decay n) :
    0 < n.quorumSize := by
  induction reached with
  | start config swim localId addr seed n h =>
    unfold Node.new at h
    split at h
    · simp only [bind, Option.bind_eq_some_iff, Option.some.injEq] at h
      obtain ⟨members, _, limiter, _, rfl⟩ := h
      exact Nat.one_pos
    · simp at h
  | step n op n' reached h pos =>
    cases step_policy reached.sound op h with
    | round now m _ _ _ _ _ _ applied =>
      have known := m.knownForQuorum_pos
      have counted := (m.countQuorum_majority now).2
      rw [applied.quorumSize]
      split
      · exact known
      · exact counted
    | departure _ _ _ _ _ _ _ departs =>
      have known := n'.knownForQuorum_pos
      rw [departs.quorumSize]
      omega
    | policy _ _ steady => exact steady.quorumSize ▸ pos
    | memory memory => exact pos
    | idle _ _ _ _ steady => exact steady.quorumSize ▸ pos

theorem HoldsBack.pos {decay : Nat → Nat → ℚ} {n : Node} (reached : Reachable decay n) {size : Nat}
    (reason : n.HoldsBack size) : 0 < size := by
  have share : 0 < n.shareSize := by
    unfold shareSize allocationSize MemberTable.clusterSize
    split <;> omega
  cases reason with
  | joining => omega
  | learning => exact share
  | withoutQuorum => exact quorumSize_pos reached
  | membersFull => exact share

end Node

theorem appliedRate_capped (config : Config) (cap n : ℚ) (hotElsewhere : UInt64 → Bool)
    (hotSet : HotSet) (share : ℚ) (key : UInt64) (state : KeyState) :
    appliedRate config (some cap) n hotElsewhere hotSet share key state ≤ cap * state.limit.rate := by
  rw [mul_comm]
  unfold appliedRate
  dsimp only
  split
  · exact min_le_right _ _
  · split
    · exact min_le_right _ _
    · exact min_le_right _ _

/- After a tick under a cap no tracked key has more of its limit. -/
theorem Limiter.Ticked.capped {σ : Type} {share : σ → UInt64 → ℚ → ℚ → ℚ × σ}
    {pure : UInt64 → ℚ → ℚ → ℚ} {decay : Nat → Nat → ℚ} {l l' : Limiter} {now clusterSize : Nat}
    {hotElsewhere : UInt64 → Bool} {s s' : σ} {kept quoted : List (UInt64 × KeyState)}
    (ticked : Ticked share decay l now clusterSize hotElsewhere s l' s' kept quoted)
    (same : ∀ s key own limit, (share s key own limit).1 = pure key own limit) {cap : ℚ}
    (capped : l.cap = some cap) {key : UInt64} {state : KeyState}
    (found : l'.find key = some state) :
    ∃ asked, quotaFor (appliedRate l'.config (some cap) clusterSize hotElsewhere l'.hotSet asked
      key state) state.limit.burst = some state.applied := by
  have mem := ticked.keys.subset (find_mem found)
  obtain ⟨⟨own, before⟩, _, quota⟩ :=
    Reordered.mem_mapM (applyQuotas_map same ticked.quotas) mem
  obtain ⟨rfl, limit, demand, applied⟩ := withQuota_some quota
  dsimp only at limit demand applied
  generalize (if l'.hotSet.isHot key = true then pure key before.demand.rate before.limit.rate
    else 0) = asked at applied
  refine ⟨asked, ?_⟩
  rw [capped, ← limit] at applied
  rw [← applied, ticked.config]
  simp only [appliedRate, elsewhere, limit, demand]
  rfl

theorem coldQuota_capped {l : Limiter} {cap : ℚ} (capped : l.cap = some cap) {limit : Limit}
    {size : Nat} {quota : Quota} (valid : limit.Valid)
    (cold : l.coldQuota limit size = some quota) :
    quotaFor (limit.rate * l.newKeyFactor size) limit.burst = some quota ∧
      limit.rate * l.newKeyFactor size ≤ cap * limit.rate := by
  simp only [Limiter.coldQuota, Option.ite_none_right_eq_some] at cold
  refine ⟨cold.2, ?_⟩
  rw [mul_comm cap]
  refine mul_le_mul_of_nonneg_left ?_ valid.1.le
  simp only [Limiter.newKeyFactor, capped]
  exact min_le_right _ _

/- The cap the last round left, if no refresh has come after it. -/
def noteCap (n : Node) (cap : Option ℚ) (op : Op) : Option ℚ :=
  if n.refreshes op then (n.sharingIn op).bind fun (m, _) => m.limiter.cap else cap

/- The last round under Quorum without a majority: of how many members, and when. -/
def noteLost (n : Node) (lost : Option (Nat × Nat)) (op : Op) : Option (Nat × Nat) :=
  match n.roundIn op with
  | some (m, now) =>
    let counted := (m.countQuorum now).1
    if m.policy = .quorum ∧ !hasQuorum m.aliveCount counted then some (counted, now) else lost
  | none => lost

namespace Node

/- What keeps the loss of a majority in force: the floor until its time, at every refresh. -/
def FloorHeld (n : Node) : Prop :=
  n.policy = .quorum → n.lastNow < n.flooredUntil →
    n.held.withoutQuorum = true ∧ n.limiter.cap.isSome

theorem refreshCap_floorHeld {u v : Node} (h : u.refreshCap u.lastNow = some v) : v.FloorHeld := by
  intro policy early
  have held : v.held.withoutQuorum = true := by
    have clock : v.lastNow = u.lastNow := by rw [refreshCap_frame h]
    rw [refreshCap_held h, policy, ← clock]
    simpa using early
  refine ⟨held, ?_⟩
  have capped := refreshCap_capped h
  unfold Capped at capped
  cases cap : v.limiter.cap with
  | none =>
    rw [cap] at capped
    exact absurd (.withoutQuorum held) (capped _)
  | some cap => rfl

theorem CapStep.floorHeld {n n' : Node} {op : Op} (step : CapStep n op n') (kept : n.FloorHeld) :
    n'.FloorHeld := by
  cases step with
  | quiet _ cap held policy floored later =>
    intro quorum early
    rw [held, cap]
    exact kept (policy ▸ quorum) (by omega)
  | refreshed u v _ refreshed cap held policy floored clock =>
    intro quorum early
    rw [held, cap]
    exact refreshCap_floorHeld refreshed (policy ▸ quorum) (by omega)

theorem floorHeld_of_reachable {decay : Nat → Nat → ℚ} {n : Node} (reached : Reachable decay n) :
    n.FloorHeld := by
  induction reached with
  | start config swim localId addr seed n h =>
    unfold Node.new at h
    split at h
    · simp only [bind, Option.bind_eq_some_iff, Option.some.injEq] at h
      obtain ⟨members, _, limiter, _, rfl⟩ := h
      intro _ early
      simp at early
    · simp at h
  | step n op n' _ h kept => exact (step_cap h).floorHeld kept

theorem applyPolicy_floored {n n' : Node} {now : Nat} (h : n.applyPolicy now = some n') :
    if n.policy = .quorum ∧ !hasQuorum n.aliveCount (n.countQuorum now).1 then
      ∃ stale, staleAfterRounds (n.countQuorum now).1 = some stale ∧
        n'.flooredUntil = now + stale * n.swim.protocolPeriod
    else n'.flooredUntil = n.flooredUntil := by
  simp only [applyPolicy, bind, Option.bind_eq_some_iff] at h
  obtain ⟨⟨heldSize, sizes⟩, _, flooredUntil, floored, h⟩ := h
  have last : n'.flooredUntil = flooredUntil := by rw [refreshCap_frame h]
  rw [last]
  rw [(n.countQuorum_majority now).1] at floored
  split
  · rename_i lost
    rw [if_pos lost] at floored
    simp only [staleAfter, bind, Option.bind_eq_some_iff, mulU64_eq_some, addU64_eq_some] at floored
    obtain ⟨_, ⟨stale, rounds, _, rfl⟩, _, rfl⟩ := floored
    exact ⟨stale, rounds, rfl⟩
  · rename_i kept
    rw [if_neg kept] at floored
    exact (Option.some.inj floored).symm

/- Until when the last loss of a majority floors the keys. -/
def FlooredSince (n : Node) (lost : Option (Nat × Nat)) : Prop :=
  ∀ known since, lost = some (known, since) → ∃ stale, staleAfterRounds known = some stale ∧
    n.flooredUntil = since + stale * n.swim.protocolPeriod

theorem FlooredSince.step {decay : Nat → Nat → ℚ} {n n' : Node} {lost : Option (Nat × Nat)}
    {op : Op} (kept : n.FlooredSince lost) (sound : n.Sound) (h : n.step decay op = some n') :
    n'.FlooredSince (noteLost n lost op) := by
  have swim := (step_policy sound op h).swim
  cases step_shared h with
  | idle none idles =>
    simp only [noteLost, none]
    intro known since last
    rw [idles.flooredUntil, swim]
    exact kept known since last
  | round a m c d now found runs =>
    have floors := applyPolicy_floored runs.policy
    simp only [noteLost, found]
    intro known since last
    rw [runs.flooredUntil, swim]
    split at last
    · rename_i lost
      simp only [Option.some.injEq, Prod.mk.injEq] at last
      obtain ⟨rfl, rfl⟩ := last
      rw [if_pos lost, runs.begun.swim] at floors
      exact floors
    · rename_i regained
      rw [if_neg regained, runs.begun.flooredUntil] at floors
      rw [floors]
      exact kept known since last

end Node

theorem Recorded.flooredSince {decay : Nat → Nat → ℚ} {n : Node} {lost : Option (Nat × Nat)}
    (h : Recorded decay noteLost none (fun _ _ _ => True) n lost) : n.FlooredSince lost := by
  induction h with
  | start => exact fun _ _ none => by simp at none
  | step n lost op n' run _ h kept => exact kept.step run.reachable.sound h

/- What the last round left is the cap until the next refresh. -/
theorem Recorded.cap {decay : Nat → Nat → ℚ} {n : Node} {cap : Option ℚ}
    (h : Recorded decay noteCap none (fun _ _ _ => True) n cap) {least : ℚ}
    (left : cap = some least) : n.limiter.cap = some least := by
  induction h with
  | start => simp at left
  | step n cap op n' run _ h kept =>
    unfold noteCap at left
    cases Node.step_cap h with
    | quiet quiet same =>
      rw [quiet] at left
      rw [same]
      exact kept left
    | refreshed _ _ refreshes =>
      rw [refreshes, if_pos rfl] at left
      cases Node.step_shared h with
      | idle none => simp [Node.sharingIn, none] at left
      | round a m c d now found runs =>
        simp only [Node.sharingIn, found, runs.policy, bind, Option.bind_some] at left
        have tidy := runs.begun.tidy runs.policy run.reachable.tidy
        rw [runs.limiter, (Node.applyShares_shares tidy runs.shares).1.cap]
        exact left

/- A key first seen in a step is tracked at the cold rate of the state before it. -/
theorem first_seen {decay : Nat → Nat → ℚ} {n n' : Node} {op : Op}
    (tidy : n.limiter.Tidy n.lastNow) (h : n.step decay op = some n') {key : UInt64}
    {state : KeyState} (unseen : n.limiter.find key = none)
    (seen : n'.limiter.find key = some state) :
    state.limit.Valid ∧ ∃ size, n.limiter.coldQuota state.limit size = some state.applied := by
  cases Node.step_shared h with
  | idle _ idles => exact idles.grows.fresh key state unseen seen
  | round a m c d now opened runs =>
    have same : m.limiter.keys = n.limiter.keys := by
      rw [Node.applyPolicy_frame runs.policy, runs.begun.limiter]
    have settles := (runs.begun.tidy runs.policy tidy).distinct
    have shares := runs.shares
    simp only [Node.applyShares, bind, Option.bind_eq_some_iff, Option.some.injEq] at shares
    obtain ⟨informed, _, alone, _, ⟨limiter', recent⟩, tick, rfl⟩ := shares
    obtain ⟨kept, quoted, ticked⟩ := Limiter.tickWithShares_spec tick
    rw [runs.limiter] at seen
    have listed : key ∈ quoted.map Prod.fst :=
      List.mem_map.mpr ⟨_, ticked.keys.subset (Limiter.find_mem seen), rfl⟩
    rw [applyQuotas_names ticked.quotas] at listed
    have before := (settle_spec settles ticked.settled).1.subset listed
    rw [same] at before
    exact absurd before (Limiter.find_none_iff.mp unseen)

/-- While a node must hold back, no key has more than its floor. A refresh makes the cap the least
    floor over the reasons in force, each over a size of at least one. After a round that leaves a
    cap every tracked key has at most that part of its limit, and so has every key first seen before
    the next refresh. A round under Quorum without a majority of some number of members is a
    reason for as many periods as those take to be heard, or until the next such round. -/
theorem floor_held (decay : Nat → Nat → ℚ) :
    (∀ (n : Node) now n', n.refreshCap now = some n' → n'.Capped) ∧
    (∀ n : Node, Reachable decay n → ∀ size, n.HoldsBack size → 0 < size) ∧
    (∀ (n : Node) op m now n' cap, Reachable decay n → n.sharingIn op = some (m, now) →
      n.step decay op = some n' → n'.limiter.cap = some cap → ∀ key state,
      n'.limiter.find key = some state → ∃ asked rate,
        rate = appliedRate n'.limiter.config (some cap) m.shareSize m.peerDemand.hotElsewhere
          n'.limiter.hotSet asked key state ∧
        quotaFor rate state.limit.burst = some state.applied ∧ rate ≤ cap * state.limit.rate) ∧
    (∀ (n : Node) cap, Recorded decay noteCap none (fun _ _ _ => True) n (some cap) →
      n.limiter.cap = some cap ∧ ∀ op n' key state, n.step decay op = some n' →
        n.limiter.find key = none → n'.limiter.find key = some state → ∃ size rate,
          rate = state.limit.rate * n.limiter.newKeyFactor size ∧
          quotaFor rate state.limit.burst = some state.applied ∧ rate ≤ cap * state.limit.rate) ∧
    (∀ (n : Node) known since,
      Recorded decay noteLost none (fun _ _ _ => True) n (some (known, since)) →
      n.policy = .quorum → ∃ stale, staleAfterRounds known = some stale ∧
        (n.lastNow < since + stale * n.swim.protocolPeriod →
          n.held.withoutQuorum = true ∧ n.limiter.cap.isSome)) := by
  refine ⟨fun _ _ _ => Node.refreshCap_capped, fun _ reached _ reason => reason.pos reached,
    ?_, ?_, ?_⟩
  · intro n op m now n' cap reached sharing stepped left key state found
    cases Node.step_shared stepped with
    | idle none => simp [Node.sharingIn, none] at sharing
    | round a m' c d now' opened runs =>
      obtain ⟨rfl, rfl⟩ : m' = m ∧ now' = now := by
        simpa [Node.sharingIn, opened, runs.policy] using sharing
      have tidy := runs.begun.tidy runs.policy reached.tidy
      have capped := (Node.applyShares_shares tidy runs.shares).1.cap
      have shares := runs.shares
      simp only [Node.applyShares, bind, Option.bind_eq_some_iff, Option.some.injEq] at shares
      obtain ⟨informed, _, alone, _, ⟨limiter', recent⟩, tick, rfl⟩ := shares
      obtain ⟨kept, quoted, ticked⟩ := Limiter.tickWithShares_spec tick
      rw [runs.limiter] at left found ⊢
      obtain ⟨asked, quota⟩ := ticked.capped (fun _ _ _ _ => rfl) (capped ▸ left) found
      exact ⟨asked, _, rfl, quota, appliedRate_capped _ _ _ _ _ _ _ _⟩
  · intro n cap run
    have capped := run.cap rfl
    refine ⟨capped, fun op n' key state stepped unseen seen => ?_⟩
    obtain ⟨valid, size, cold⟩ := first_seen run.reachable.tidy stepped unseen seen
    obtain ⟨quota, low⟩ := coldQuota_capped capped valid cold
    exact ⟨size, _, rfl, quota, low⟩
  · intro n known since run quorum
    obtain ⟨stale, rounds, floored⟩ := run.flooredSince known since rfl
    refine ⟨stale, rounds, fun early => ?_⟩
    exact Node.floorHeld_of_reachable run.reachable quorum (floored ▸ early)

/- Both peers of a node die, in a cluster that keeps to a quorum; a round. -/
def lostMajorityRun : Option (Node × Option (Nat × Nat) × Node × Node) := do
  let start ← Node.sample 0 0
  let (n, lost) ← Node.runRecorded sampleDecay noteLost (fun _ _ _ => True) start none
    [.setPartitionPolicy .quorum, .introduce 1 (sampleAddress 1), .introduce 2 (sampleAddress 2),
     .handle .tick 0,
     sampleOp 99 (.ack 0 [⟨1, sampleAddress 1, 0, .dead⟩, ⟨2, sampleAddress 2, 0, .dead⟩] [])
      (ms 100), .record 7 ⟨40, 0, 0⟩ ⟨100, 10⟩ (ms 150)]
  let (m, _) ← n.sharingIn (.handle .tick (ms 200))
  let n' ← n.step sampleDecay (.handle .tick (ms 200))
  some (n, lost, m, n')

theorem lostMajorityRun_floors : (lostMajorityRun.any fun (n, lost, _, n') =>
    noteLost n lost (.handle .tick (ms 200)) == some (3, ms 200) && n'.policy == .quorum &&
      n'.lastNow == ms 200 && n'.swim.protocolPeriod == ms 200 && n'.limiter.cap == some (1 / 30) &&
      (n'.limiter.find 7).any (·.limit.rate == 100)) = true := by
  decide +kernel

theorem floor_held_lost : ∃ n lost m n' state, lostMajorityRun = some (n, lost, m, n') ∧
    n'.held.withoutQuorum = true ∧ n'.limiter.find 7 = some state ∧ state.limit.rate = 100 ∧
      ∃ rate, quotaFor rate state.limit.burst = some state.applied ∧ rate ≤ 1 / 30 * 100 := by
  obtain ⟨⟨n, lost, m, n'⟩, ran, checked⟩ := (Option.any_eq_true _ _).mp lostMajorityRun_floors
  simp only [Bool.and_eq_true, beq_iff_eq] at checked
  obtain ⟨⟨⟨⟨⟨noted, policy⟩, clock⟩, period⟩, cap⟩, tracked⟩ := checked
  obtain ⟨state, found, rate⟩ := (Option.any_eq_true _ _).mp tracked
  rw [beq_iff_eq] at rate
  have same := ran
  simp only [lostMajorityRun, bind, Option.bind_eq_some_iff, Option.some.injEq,
    Prod.mk.injEq] at ran
  obtain ⟨start, fresh, ⟨u, before⟩, ran, ⟨v, now⟩, sharing, w, stepped, rfl, rfl, rfl, rfl⟩ := ran
  have run := Recorded.run (.start _ _ _ _ _ start fresh) ran
  have last := run.step u before _ w trivial stepped
  rw [noted] at last
  obtain ⟨_, _, round, _, held⟩ := floor_held sampleDecay
  obtain ⟨stale, rounds, force⟩ := held w 3 (ms 200) last policy
  obtain rfl : stale = 10 := by simpa [staleAfterRounds, mulU64, u64Max] using rounds.symm
  obtain ⟨asked, rate', _, quota, low⟩ :=
    round u _ v now w _ run.reachable sharing stepped cap 7 state found
  refine ⟨u, before, v, w, state, same, (force ?_).1, found, rate, rate', quota, rate ▸ low⟩
  rw [clock, period]
  decide

end Rateguard
