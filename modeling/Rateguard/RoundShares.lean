import Rateguard.HotKeys
import Rateguard.Rounds

/- What a round of a node makes of the shares of the hot keys, and that nothing but a round
   touches them. -/
namespace Rateguard
open Std (ExtTreeMap)

/- A hot key's share in one round: whether the node is informed for the key, its floor, what is
   computed, and what is applied before the cap. -/
structure RoundShare where
  informed : Bool
  floor : ℚ
  computed : ℚ
  applied : ℚ
  deriving DecidableEq, Repr

namespace Node

/- The state a round begins in, if the step runs one, and the one it hands the shares out in. -/
def roundIn (n : Node) : Op → Option (Node × Nat)
  | .handle .tick now => (n.roundState now).map (·, now)
  | _ => none

def sharingIn (n : Node) (op : Op) : Option (Node × Nat) := do
  let (a, now) ← n.roundIn op
  let m ← a.applyPolicy now
  some (m, now)

def roundShare (decay : Nat → Nat → ℚ) (n : Node) (now : Nat) (key : UInt64) :
    Option RoundShare := do
  let informed ← n.informedKeys now (n.limiter.hotDemand.map (·.1))
  let alone ← n.informedSince now now
  let (kept, hotSet) ← settle decay now n.shareSize n.limiter.config.alpha
    n.peerDemand.hotElsewhere n.limiter.keys n.limiter.hotSet
  if hotSet.isHot key then do
    let state ← kept.lookup key
    let own := state.demand.rate
    let limit := state.limit.rate
    some {
      informed := alone || informed.contains key
      floor := limit * n.limiter.config.floorFactor / n.shareSize
      computed := n.computedShare n.shareSize alone informed key own limit
      applied := (n.delayedShare n.shareSize alone informed ∅ key own limit).1 }
  else none

/- The second pass remembers of every key that is hot what was computed, and of no other. -/
theorem applyQuotas_recent {n : Node} {clusterSize : Nat} {alone : Bool} {informed : List UInt64}
    {config : Config} {cap : Option ℚ} {size : ℚ} {hotElsewhere : UInt64 → Bool}
    {hotSet : HotSet} {now : Nat} {keys quoted : List (UInt64 × KeyState)}
    {recent recent' : ExtTreeMap UInt64 (ℚ × ℚ)} (distinct : (keys.map Prod.fst).Nodup)
    (h : applyQuotas (n.delayedShare clusterSize alone informed) config cap size hotElsewhere
      hotSet now keys recent = some (quoted, recent')) (key : UInt64) :
    recent'[key]? = match keys.lookup key with
      | some state =>
        if hotSet.isHot key then
          let share := n.computedShare clusterSize alone informed key state.demand.rate
            state.limit.rate
          some (share, (n.recentShares[key]?.getD (share, share)).1)
        else recent[key]?
      | none => recent[key]? := by
  induction keys generalizing recent quoted with
  | nil =>
    simp only [applyQuotas, Option.some.injEq, Prod.mk.injEq] at h
    obtain ⟨_, rfl⟩ := h
    rfl
  | cons entry rest ih =>
    obtain ⟨own, state⟩ := entry
    obtain ⟨absent, distinctRest⟩ := List.nodup_cons.mp distinct
    simp only [applyQuotas, bind] at h
    have later : ∃ others s', s' = (if hotSet.isHot own = true then
        n.delayedShare clusterSize alone informed recent own state.demand.rate state.limit.rate
        else (0, recent)).2 ∧ applyQuotas (n.delayedShare clusterSize alone informed) config cap
          size hotElsewhere hotSet now rest s' = some (others, recent') := by
      simp only [Option.bind_eq_some_iff, Option.some.injEq, Prod.mk.injEq] at h
      obtain ⟨wanted, _, ⟨others, last⟩, later, _, rfl⟩ := h
      exact ⟨others, _, rfl, later⟩
    obtain ⟨others, next, kept, later⟩ := later
    rw [ih distinctRest later]
    by_cases same : key = own
    · subst same
      have missing : rest.lookup key = none := List.lookup_eq_none_iff.mpr fun entry mem => by
        have : key ≠ entry.1 := fun same => absent (List.mem_map.mpr ⟨entry, mem, same.symm⟩)
        simpa using this
      rw [missing, List.lookup_cons_self, kept]
      dsimp only
      split
      · simp [delayedShare]
      · rfl
    · have apart : (key == own) = false := by simpa using same
      have untouched : next[key]? = recent[key]? := by
        rw [kept]
        split
        · simp [delayedShare, ExtTreeMap.getElem?_insert, Ne.symm same]
        · rfl
      rw [List.lookup_cons, apart, untouched]

structure Shares (decay : Nat → Nat → ℚ) (n n' : Node) (now : Nat) : Prop where
  config : n'.limiter.config = n.limiter.config
  cap : n'.limiter.cap = n.limiter.cap
  hot : ∀ key, n'.limiter.hotSet.isHot key = (n.roundShare decay now key).isSome
  gone : ∀ key, n.roundShare decay now key = none → n'.recentShares[key]? = none
  recent : ∀ key share, n.roundShare decay now key = some share →
    n'.recentShares[key]? = some (share.computed,
      (n.recentShares[key]?.getD (share.computed, share.computed)).1)
  delayed : ∀ key share, n.roundShare decay now key = some share →
    share.applied = min (min share.computed
      (n.recentShares[key]?.getD (share.computed, share.computed)).1)
      (n.recentShares[key]?.getD (share.computed, share.computed)).2
  uninformed : ∀ key share, n.roundShare decay now key = some share → share.informed = false →
    share.computed = share.floor
  quota : ∀ key share, n.roundShare decay now key = some share → ∃ state,
    n'.limiter.find key = some state ∧
      quotaFor (capped n.limiter.cap state.limit.rate share.applied) state.limit.burst =
        some state.applied

theorem applyShares_shares {decay : Nat → Nat → ℚ} {n n' : Node} {now : Nat}
    (tidy : n.limiter.Tidy now) (h : n.applyShares decay now = some n') :
    Shares decay n n' now ∧ n'.limiter.Tidy now := by
  simp only [applyShares, bind, Option.bind_eq_some_iff, Option.some.injEq] at h
  obtain ⟨informed, keys, alone, waited, ⟨limiter, recent⟩, tick, rfl⟩ := h
  obtain ⟨kept, quoted, ticked⟩ := Limiter.tickWithShares_spec tick
  have same (s : ExtTreeMap UInt64 (ℚ × ℚ)) (key : UInt64) (own limit : ℚ) :
      (n.delayedShare n.shareSize alone informed s key own limit).1 =
        (n.delayedShare n.shareSize alone informed ∅ key own limit).1 := rfl
  have distinct := tidy.distinct.sublist (settle_spec tidy.distinct ticked.settled).1
  have shared (key : UInt64) : n.roundShare decay now key =
      if limiter.hotSet.isHot key then do
        let state ← kept.lookup key
        some {
          informed := alone || informed.contains key
          floor := state.limit.rate * n.limiter.config.floorFactor / n.shareSize
          computed := n.computedShare n.shareSize alone informed key state.demand.rate
            state.limit.rate
          applied := (n.delayedShare n.shareSize alone informed ∅ key state.demand.rate
            state.limit.rate).1 }
      else none := by
    simp only [roundShare, keys, waited, ticked.settled, bind, Option.bind_some]
  have some_iff {key : UInt64} {share : RoundShare} (h : n.roundShare decay now key = some share) :
      limiter.hotSet.isHot key = true ∧ ∃ state, kept.lookup key = some state ∧ share = {
        informed := alone || informed.contains key
        floor := state.limit.rate * n.limiter.config.floorFactor / n.shareSize
        computed := n.computedShare n.shareSize alone informed key state.demand.rate
          state.limit.rate
        applied := (n.delayedShare n.shareSize alone informed ∅ key state.demand.rate
          state.limit.rate).1 } := by
    rw [shared] at h
    split at h
    · rename_i hot
      simp only [bind, Option.bind_eq_some_iff, Option.some.injEq] at h
      obtain ⟨state, found, rfl⟩ := h
      exact ⟨hot, state, found, rfl⟩
    · simp at h
  have hot (key : UInt64) :
      limiter.hotSet.isHot key = (n.roundShare decay now key).isSome := by
    rw [shared]
    cases hot : limiter.hotSet.isHot key with
    | false => rfl
    | true =>
      obtain ⟨state, _, found, _⟩ := ticked.hot_quota same tidy hot
      simp [found]
  have remembered := applyQuotas_recent distinct ticked.quotas
  refine ⟨⟨ticked.config, ticked.cap, hot, ?_, ?_, ?_, ?_, ?_⟩, tidy.tick (Nat.le_refl _) ticked⟩
  · intro key absent
    have cold := hot key
    rw [absent] at cold
    have last := remembered key
    simp only [cold, Option.isSome_none, Bool.false_eq_true, if_false] at last
    dsimp only
    rw [last]
    split <;> simp
  · intro key share computed
    obtain ⟨hot, state, found, rfl⟩ := some_iff computed
    have last := remembered key
    rw [found] at last
    simpa [hot] using last
  · intro key share computed
    obtain ⟨_, state, _, rfl⟩ := some_iff computed
    rfl
  · intro key share computed uninformed
    obtain ⟨_, state, _, rfl⟩ := some_iff computed
    dsimp only at uninformed ⊢
    rw [Bool.or_eq_false_iff] at uninformed
    simp only [computedShare, uninformed, Bool.not_false, Bool.and_self, if_true]
  · intro key share computed
    obtain ⟨hot, state, found, rfl⟩ := some_iff computed
    obtain ⟨again, state', found', tracked, limit, _, quota⟩ := ticked.hot_quota same tidy hot
    rw [found] at found'
    obtain rfl := Option.some.inj found'
    refine ⟨state', tracked, ?_⟩
    rw [limit]
    exact quota

theorem round_sharing {decay : Nat → Nat → ℚ} {n n' : Node} {now : Nat}
    (h : n.round decay now = some n') : ∃ a m c d, n.openRound now = some a ∧
      a.applyPolicy now = some m ∧ m.applyShares decay now = some c ∧
      c.reportDemand now = some d ∧ n'.reported = d.reported ∧ n' = { c with
        roundNumber := n'.roundNumber, ownDemand := n'.ownDemand, reported := n'.reported
        members := n'.members, order := n'.order, rng := n'.rng, next := n'.next
        nextReconnectAt := n'.nextReconnectAt, peerDemand := n'.peerDemand, seq := n'.seq
        probe := n'.probe, gossip := n'.gossip, introducing := n'.introducing
        actions := n'.actions } := by
  simp only [round, bind, Option.bind_eq_some_iff] at h
  obtain ⟨a, opened, m, policy, c, shares, d, reported, e, followed, stale, _, ⟨target, f⟩,
    chosen, h⟩ := h
  refine ⟨a, m, c, d, opened, policy, shares, reported, ?_⟩
  have frameE := followChanges_frame followed
  rw [reportDemand_frame reported] at frameE
  have frameF := chooseTarget_frame chosen
  rw [frameE] at frameF
  dsimp only at h
  split at h
  · have frame := ping_frame h
    rw [frameF] at frame
    rw [frame]
    exact ⟨rfl, rfl⟩
  · obtain rfl := Option.some.inj h
    rw [frameF]
    exact ⟨rfl, rfl⟩

structure RoundFrom (n a : Node) (now : Nat) : Prop where
  later : n.lastNow ≤ now
  lastNow : a.lastNow = now
  limiter : a.limiter = n.limiter
  recentShares : a.recentShares = n.recentShares
  reported : a.reported = n.reported
  swim : a.swim = n.swim
  policy : a.policy = n.policy
  nextRoundAt : a.nextRoundAt = now + n.swim.protocolPeriod
  flooredUntil : a.flooredUntil = n.flooredUntil

theorem RoundFrom.recent {n a m : Node} {now : Nat} (begun : RoundFrom n a now)
    (policy : a.applyPolicy now = some m) : m.recentShares = n.recentShares := by
  rw [applyPolicy_frame policy]
  exact begun.recentShares

theorem RoundFrom.tidy {n a m : Node} {now : Nat} (begun : RoundFrom n a now)
    (policy : a.applyPolicy now = some m) (tidy : n.limiter.Tidy n.lastNow) :
    m.limiter.Tidy now := by
  rw [applyPolicy_frame policy, begun.limiter]
  refine Limiter.Tidy.later (tidy.grows ?_) begun.later
  exact .of_keys rfl rfl rfl

structure Idles (n n' : Node) : Prop where
  later : n.lastNow ≤ n'.lastNow
  grows : Limiter.Grows n.limiter n'.limiter
  recentShares : n'.recentShares = n.recentShares
  reported : n'.reported = n.reported
  nextRoundAt : n'.nextRoundAt = n.nextRoundAt
  flooredUntil : n'.flooredUntil = n.flooredUntil

/- What a round makes of them: the states it begins in, has applied its policy and its shares in,
   and has reported its demand in. -/
structure Runs (decay : Nat → Nat → ℚ) (n a m c d n' : Node) (now : Nat) : Prop where
  due : n.nextRoundAt ≤ now
  begun : RoundFrom n a now
  policy : a.applyPolicy now = some m
  shares : m.applyShares decay now = some c
  report : c.reportDemand now = some d
  limiter : n'.limiter = c.limiter
  recentShares : n'.recentShares = c.recentShares
  reported : n'.reported = d.reported
  lastNow : n'.lastNow = now
  nextRoundAt : n'.nextRoundAt = now + n.swim.protocolPeriod
  flooredUntil : n'.flooredUntil = m.flooredUntil

/-- One step of a node: a round, or nothing that touches a share. -/
inductive Shared (decay : Nat → Nat → ℚ) (n : Node) (op : Op) (n' : Node) : Prop
  | idle : n.roundIn op = none → Idles n n' → Shared decay n op n'
  | round (a m c d : Node) (now : Nat) : n.roundIn op = some (a, now) →
      Runs decay n a m c d n' now → Shared decay n op n'

theorem openRound_from {n a : Node} {now : Nat} (opened : n.openRound now = some a)
    (here : n.lastNow = now) : RoundFrom n a now := by
  simp only [openRound, bind, Option.bind_eq_some_iff, addU64_eq_some] at opened
  obtain ⟨_, ⟨_, rfl⟩, missed⟩ := opened
  rw [missProbe_frame missed]
  exact ⟨here.le, here, rfl, rfl, rfl, rfl, rfl, rfl, rfl⟩

theorem tick_shared {decay : Nat → Nat → ℚ} {n n' : Node} {now : Nat} (later : n.lastNow ≤ now)
    (present : n.left = false) (h : n.handle decay .tick now = some n') :
    Shared decay n (.handle .tick now) n' := by
  simp only [handle, advance, later, ↓reduceIte, present, bind, Option.bind_some,
    Bool.false_eq_true, tick, Option.bind_eq_some_iff] at h
  obtain ⟨a, timed, b, rounds, h⟩ := h
  have frameA := timeOut_frame timed
  have frameLast := escalate_frame h
  have state : n.roundState now = if a.nextRoundAt ≤ now then a.openRound now else none := by
    simp only [roundState, advance, later, ↓reduceIte, present, bind, Option.bind_some,
      Bool.false_eq_true, timed]
  split at rounds
  · rename_i due
    obtain ⟨opened, m, c, d, opens, policy, shares, report, kept, frameB⟩ := round_sharing rounds
    have begun : RoundFrom a opened now := openRound_from opens (by rw [frameA])
    have atPolicy := applyPolicy_frame policy
    have atShares := applyShares_frame shares
    rw [frameB] at frameLast
    refine .round opened m c d now (by simp [roundIn, state, due, opens]) ?_
    have period : a.swim = n.swim := by rw [frameA]
    have starts : RoundFrom n opened now := by
      rw [frameA] at begun
      exact ⟨later, begun.lastNow, begun.limiter, begun.recentShares, begun.reported, begun.swim,
        begun.policy, begun.nextRoundAt, begun.flooredUntil⟩
    constructor
    case due =>
      rw [frameA] at due
      exact due
    case begun => exact starts
    case policy => exact policy
    case shares => exact shares
    case report => exact report
    case reported =>
      rw [frameLast]
      exact kept
    case limiter => rw [frameLast]
    case recentShares => rw [frameLast]
    case lastNow =>
      rw [frameLast, atShares, atPolicy]
      exact begun.lastNow
    case nextRoundAt =>
      rw [frameLast, atShares, atPolicy]
      exact starts.nextRoundAt
    case flooredUntil => rw [frameLast, atShares]
  · rename_i early
    obtain rfl := Option.some.inj rounds
    rw [frameA] at frameLast
    refine .idle (by simp [roundIn, state, early]) ?_
    rw [frameLast]
    exact ⟨later, .of_keys rfl rfl rfl, rfl, rfl, rfl, rfl⟩

theorem handle_shared {decay : Nat → Nat → ℚ} {n n' : Node} {event : Event} {now : Nat}
    (h : n.handle decay event now = some n') : Shared decay n (.handle event now) n' := by
  obtain ⟨later, same | ⟨present, rfl, _⟩ | ⟨sender, bytes, message, _, rfl, _, _, _, took⟩⟩ :=
    handle_cases h
  · cases event with
    | messageReceived sender bytes =>
      subst same
      exact .idle rfl ⟨later, .of_keys rfl rfl rfl, rfl, rfl, rfl, rfl⟩
    | tick =>
      cases left : n.left with
      | false => exact tick_shared later left h
      | true =>
        subst same
        refine .idle ?_ ⟨later, .of_keys rfl rfl rfl, rfl, rfl, rfl, rfl⟩
        simp [roundIn, roundState, advance, later, left]
  · exact tick_shared later present h
  · have frame := receiveMessage_frame took
    rw [frame]
    exact .idle rfl ⟨later, .of_keys rfl rfl rfl, rfl, rfl, rfl, rfl⟩

theorem step_shared {decay : Nat → Nat → ℚ} {n n' : Node} {op : Op}
    (h : n.step decay op = some n') : Shared decay n op n' := by
  have refreshed {u : Node} (op : Op) (now : Nat) (idle : n.roundIn op = none)
      (limiter : u.limiter = n.limiter) (recent : u.recentShares = n.recentShares)
      (reported : u.reported = n.reported) (next : u.nextRoundAt = n.nextRoundAt)
      (clock : u.lastNow = n.lastNow) (floored : u.flooredUntil = n.flooredUntil)
      (h : u.refreshCap now = some n') : Shared decay n op n' := by
    rw [refreshCap_frame h]
    refine .idle idle ⟨clock.ge, ?_, recent, reported, next, floored⟩
    rw [limiter]
    exact .of_keys rfl rfl rfl
  cases op with
  | handle event now => exact handle_shared h
  | introduce peer addr =>
    simp only [step, introduce] at h
    split at h
    · simp at h
    · simp only [bind, Option.bind_eq_some_iff] at h
      obtain ⟨⟨applied, members⟩, told, h⟩ := h
      split at h
      · refine refreshed _ _ rfl ?_ ?_ ?_ ?_ ?_ ?_ h
        · rfl
        · rfl
        · rfl
        · rfl
        · rfl
        · rfl
      · obtain rfl := Option.some.inj h
        exact .idle rfl ⟨Nat.le_refl _, .of_keys rfl rfl rfl, rfl, rfl, rfl, rfl⟩
  | addSeed seed addr =>
    simp only [step, addSeed] at h
    split at h
    · simp at h
    · split at h
      · exact refreshed _ _ rfl rfl rfl rfl rfl rfl rfl h
      · refine refreshed _ _ rfl ?_ ?_ ?_ ?_ ?_ ?_ h
        · rfl
        · rfl
        · rfl
        · rfl
        · rfl
        · rfl
  | removeSeed | expectPeers | setPartitionPolicy =>
    refine refreshed _ _ rfl ?_ ?_ ?_ ?_ ?_ ?_ h
    · rfl
    · rfl
    · rfl
    · rfl
    · rfl
    · rfl
  | setQuorumMemory memory =>
    obtain rfl := Option.some.inj h
    exact .idle rfl ⟨Nat.le_refl _, .of_keys rfl rfl rfl, rfl, rfl, rfl, rfl⟩
  | setMaxMembers max =>
    simp only [step, setMaxMembers, bind, Option.bind_eq_some_iff, Option.some.injEq] at h
    obtain ⟨members, _, rfl⟩ := h
    exact .idle rfl ⟨Nat.le_refl _, .of_keys rfl rfl rfl, rfl, rfl, rfl, rfl⟩
  | record key tally limit now =>
    simp only [step, Node.record, bind, Option.bind_eq_some_iff, Option.some.injEq] at h
    obtain ⟨a, advanced, limiter, recorded, rfl⟩ := h
    obtain ⟨later, rfl⟩ := advance_some advanced
    exact .idle rfl ⟨later, (Limiter.record_serves recorded).toGrows, rfl, rfl, rfl, rfl⟩
  | checkIn key limit now =>
    simp only [step, checkIn, bind, Option.bind_eq_some_iff, Option.map_eq_some_iff,
      Option.some.injEq] at h
    obtain ⟨_, ⟨a, advanced, ⟨decision, limiter⟩, checked, rfl⟩, rfl⟩ := h
    obtain ⟨later, rfl⟩ := advance_some advanced
    exact .idle rfl ⟨later, (Limiter.checkIn_serves checked).toGrows, rfl, rfl, rfl, rfl⟩
  | checkInTraced key limit shadow now =>
    simp only [step, checkInTraced, bind, Option.bind_eq_some_iff, Option.map_eq_some_iff,
      Option.some.injEq] at h
    obtain ⟨_, ⟨a, advanced, ⟨decisions, limiter⟩, checked, rfl⟩, rfl⟩ := h
    obtain ⟨later, rfl⟩ := advance_some advanced
    exact .idle rfl ⟨later, (Limiter.checkInTraced_serves checked).toGrows, rfl, rfl, rfl, rfl⟩
  | leave now =>
    simp only [step, leave, bind, Option.bind_eq_some_iff] at h
    obtain ⟨a, advanced, h⟩ := h
    obtain ⟨later, rfl⟩ := advance_some advanced
    split at h
    · obtain rfl := Option.some.inj h
      exact .idle rfl ⟨later, .of_keys rfl rfl rfl, rfl, rfl, rfl, rfl⟩
    · simp only [Option.bind_eq_some_iff] at h
      obtain ⟨own, _, h⟩ := h
      rw [sendLeave_frame h]
      exact .idle rfl ⟨later, .of_keys rfl rfl rfl, rfl, rfl, rfl, rfl⟩
  | rehash keys =>
    simp only [step, rehash, Option.ite_none_right_eq_some, Option.some.injEq] at h
    obtain ⟨perm, rfl⟩ := h
    exact .idle rfl ⟨Nat.le_refl _, .of_perm rfl rfl (perm.map _), rfl, rfl, rfl, rfl⟩

theorem Shared.tidy {decay : Nat → Nat → ℚ} {n n' : Node} {op : Op} (shared : Shared decay n op n')
    (tidy : n.limiter.Tidy n.lastNow) : n'.limiter.Tidy n'.lastNow := by
  cases shared with
  | idle _ idles => exact (tidy.grows idles.grows).later idles.later
  | round a m c d now _ runs =>
    rw [runs.limiter, runs.lastNow]
    exact (applyShares_shares (runs.begun.tidy runs.policy tidy) runs.shares).2

end Node

theorem Reachable.tidy {decay : Nat → Nat → ℚ} {n : Node} (reached : Reachable decay n) :
    n.limiter.Tidy n.lastNow := by
  induction reached with
  | start config swim localId addr seed n h =>
    unfold Node.new at h
    split at h
    · simp only [bind, Option.bind_eq_some_iff, Option.some.injEq] at h
      obtain ⟨members, _, limiter, built, rfl⟩ := h
      exact Limiter.new_tidy built
    · simp at h
  | step n op n' reached h tidy => exact (Node.step_shared h).tidy tidy

end Rateguard
