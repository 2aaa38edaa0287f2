import Rateguard.Gcra
import Rateguard.Demand
import Rateguard.HotSet

/- Enforcement on one node: a bucket per key, on a share of the limit, in exact arithmetic.
   The tracked keys are kept in the order their map is visited in. -/
namespace Rateguard
open Std (ExtTreeMap)

def silentDemand : ℚ := 1 / 1000
def denialTimeConstant : Nat := 10000000000
def maxDemandKeys : Nat := 64

structure Limit where
  rate : ℚ
  burst : Nat
  deriving DecidableEq, Repr

def Limit.Valid (limit : Limit) : Prop := 0 < limit.rate ∧ 0 < limit.burst ∧ limit.burst ≤ maxBurst

instance (limit : Limit) : Decidable limit.Valid := inferInstanceAs (Decidable (_ ∧ _))

structure Config where
  limit : Limit
  alpha : ℚ
  floorFactor : ℚ
  cooldown : Nat
  hotSetSize : Nat
  maxTrackedKeys : Nat
  demandTimeConstant : Nat
  deriving DecidableEq, Repr

def Config.Valid (config : Config) : Prop :=
  0 < config.limit.rate ∧ 0 < config.limit.burst ∧ config.limit.burst ≤ maxBurst ∧
    (0 < config.alpha ∧ config.alpha ≤ 1) ∧ (0 ≤ config.floorFactor ∧ config.floorFactor ≤ 1) ∧
    0 < config.hotSetSize ∧ config.hotSetSize ≤ maxDemandKeys ∧
    config.hotSetSize ≤ config.maxTrackedKeys

instance (config : Config) : Decidable config.Valid := by unfold Config.Valid; infer_instance

structure Tally where
  attempts : Nat
  denials : Nat
  shadowDenials : Nat

structure KeyState where
  limit : Limit
  demand : Demand
  requests : Demand
  denials : Demand
  shadowDenials : Demand
  gcra : Gcra
  applied : Quota
  deriving DecidableEq

structure Limiter where
  config : Config
  hotSet : HotSet
  keys : List (UInt64 × KeyState)
  shadows : ExtTreeMap UInt64 Gcra
  cap : Option ℚ
  lastTick : Option Nat
  deriving DecidableEq

def Limiter.new (config : Config) : Option Limiter :=
  if config.Valid then
    (HotSet.new config.cooldown config.hotSetSize).map fun hotSet =>
      ⟨config, hotSet, [], ∅, none, none⟩
  else none

def Limiter.setCap (l : Limiter) (cap : Option ℚ) : Limiter := { l with cap := cap }

def Limiter.find (l : Limiter) (key : UInt64) : Option KeyState := l.keys.lookup key

/- Writes the state of a tracked key back. -/
def Limiter.put (l : Limiter) (key : UInt64) (state : KeyState) : Limiter :=
  { l with keys := l.keys.map fun entry => if entry.1 = key then (key, state) else entry }

def quotaFor (ratePerSec : ℚ) (burst : Nat) : Option Quota := Quota.perSecond (.finite ratePerSec) burst

/- The cap on every rate, if there is one, as a part of the key's limit. -/
def capped (cap : Option ℚ) (limit rate : ℚ) : ℚ :=
  match cap with
  | none => rate
  | some cap => min rate (limit * cap)

def Limiter.newKeyFactor (l : Limiter) (clusterSize : Nat) : ℚ :=
  match l.cap with
  | none => l.config.alpha / clusterSize
  | some cap => min (l.config.alpha / clusterSize) cap

def Limiter.coldQuota (l : Limiter) (limit : Limit) (clusterSize : Nat) : Option Quota :=
  if 0 < clusterSize then quotaFor (limit.rate * l.newKeyFactor clusterSize) limit.burst else none

/- The state of the key, tracked from now on if it was not: at the end of the order, until
   the map is next visited in another. -/
def Limiter.entry (l : Limiter) (key : UInt64) (limit : Limit) (now clusterSize : Nat) :
    Option (KeyState × Limiter) :=
  if limit.Valid then do
    let cold ← l.coldQuota limit clusterSize
    let since := l.lastTick.getD now
    match l.find key with
    | some state =>
      let state := { state with limit := limit }
      some (state, l.put key state)
    | none =>
      let state : KeyState := {
        limit := limit
        demand := .startingAt l.config.demandTimeConstant since
        requests := .startingAt denialTimeConstant since
        denials := .startingAt denialTimeConstant since
        shadowDenials := .startingAt denialTimeConstant since
        gcra := .new cold
        applied := cold }
      some (state, { l with keys := l.keys ++ [(key, state)] })
  else none

def Limiter.checkIn (l : Limiter) (key : UInt64) (limit : Limit) (now clusterSize : Nat) :
    Option (Decision × Limiter) := do
  let (state, l) ← l.entry key limit now clusterSize
  let demand ← state.demand.recordAttempt
  let requests ← state.requests.recordAttempt
  let (decision, gcra) := state.gcra.check now
  let denials ← if decision = .allow then some state.denials else state.denials.recordAttempt
  some (decision, l.put key { state with demand, requests, denials, gcra })

def Limiter.checkInTraced (l : Limiter) (key : UInt64) (limit : Limit) (shadow : Option Limit)
    (now clusterSize : Nat) : Option ((Decision × Option Decision) × Limiter) := do
  let (decision, l) ← l.checkIn key limit now clusterSize
  match shadow with
  | none => some ((decision, none), { l with shadows := l.shadows.erase key })
  | some shadow =>
    if shadow.Valid then do
      let state ← l.find key
      let wanted ← quotaFor (oneSec / state.applied.interval * shadow.rate / limit.rate) shadow.burst
      let gcra := l.shadows[key]?.getD (.new wanted)
      let gcra := if gcra.quota = wanted then gcra else gcra.setQuota wanted now
      let (traced, gcra) := gcra.check now
      let shadowDenials ←
        if traced = .allow then some state.shadowDenials else state.shadowDenials.recordAttempt
      some ((decision, some traced),
        { l.put key { state with shadowDenials } with shadows := l.shadows.insert key gcra })
    else none

def Limiter.record (l : Limiter) (key : UInt64) (tally : Tally) (limit : Limit)
    (now clusterSize : Nat) : Option Limiter := do
  let (state, l) ← l.entry key limit now clusterSize
  let demand ← state.demand.recordAttempts tally.attempts
  let requests ← state.requests.recordAttempts tally.attempts
  let denials ← state.denials.recordAttempts tally.denials
  let shadowDenials ← state.shadowDenials.recordAttempts tally.shadowDenials
  some (l.put key { state with demand, requests, denials, shadowDenials })

def KeyState.tick (decay : Nat → Nat → ℚ) (now : Nat) (state : KeyState) : KeyState :=
  { state with
    demand := state.demand.tick decay now
    requests := state.requests.tick decay now
    denials := state.denials.tick decay now
    shadowDenials := state.shadowDenials.tick decay now }

/- A key some peer holds primary, with any demand here at all. -/
def elsewhere (hotElsewhere : UInt64 → Bool) (key : UInt64) (state : KeyState) : Bool :=
  decide (silentDemand ≤ state.demand.rate) && hotElsewhere key

/- The first pass of a tick: demand is folded in, the hot set is settled, and a key with
   nothing to remember is dropped. -/
def settle (decay : Nat → Nat → ℚ) (now : Nat) (n alpha : ℚ) (hotElsewhere : UInt64 → Bool) :
    List (UInt64 × KeyState) → HotSet → Option (List (UInt64 × KeyState) × HotSet)
  | [], hotSet => some ([], hotSet)
  | (key, state) :: rest, hotSet => do
    let state := state.tick decay now
    let rate := state.demand.rate
    let threshold := state.limit.rate / n * alpha
    let (isHot, hotSet) ←
      hotSet.updateWith key rate threshold now (elsewhere hotElsewhere key state)
    let kept := isHot || state.gcra.hasDebt now || decide (silentDemand ≤ rate) ||
      state.demand.hasPending
    let (others, hotSet) ← settle decay now n alpha hotElsewhere rest hotSet
    some (if kept then (key, state) :: others else others, hotSet)

/- The rate of a key once the hot set is settled: of its share if it is hot, the floor if a
   peer holds it hot and there is no room for it here, the cold rate else. -/
def appliedRate (config : Config) (cap : Option ℚ) (n : ℚ) (hotElsewhere : UInt64 → Bool)
    (hotSet : HotSet) (share : ℚ) (key : UInt64) (state : KeyState) : ℚ :=
  let limit := state.limit.rate
  if hotSet.isHot key then capped cap limit share
  else if elsewhere hotElsewhere key state then
    capped cap limit (min (limit * config.floorFactor / n) (limit / n * config.alpha))
  else capped cap limit (limit / n * config.alpha)

def KeyState.apply (state : KeyState) (wanted : Quota) (now : Nat) : KeyState :=
  if state.applied = wanted then state
  else { state with gcra := state.gcra.setQuota wanted now, applied := wanted }

section Shares
variable {σ : Type} (share : σ → UInt64 → ℚ → ℚ → ℚ × σ)

/- The second pass: every key's quota. The share of a hot key is asked of the caller, who
   may keep a state of its own between the calls. -/
def applyQuotas (config : Config) (cap : Option ℚ) (n : ℚ) (hotElsewhere : UInt64 → Bool)
    (hotSet : HotSet) (now : Nat) :
    List (UInt64 × KeyState) → σ → Option (List (UInt64 × KeyState) × σ)
  | [], s => some ([], s)
  | (key, state) :: rest, s => do
    let (asked, s) := if hotSet.isHot key then share s key state.demand.rate state.limit.rate
      else (0, s)
    let wanted ← quotaFor (appliedRate config cap n hotElsewhere hotSet asked key state)
      state.limit.burst
    let (others, s) ← applyQuotas config cap n hotElsewhere hotSet now rest s
    some ((key, state.apply wanted now) :: others, s)

/- Over the cap the keys with the least demand go, none of them hot. -/
def Limiter.enforceCap (decay : Nat → Nat → ℚ) (l : Limiter) : Limiter :=
  if l.keys.length ≤ l.config.maxTrackedKeys then l
  else
    let excess := l.keys.length - l.config.maxTrackedKeys
    let victims := (l.keys.filter fun entry => !l.hotSet.isHot entry.1).map fun entry =>
      (entry.1, entry.2.demand.unbiasedRate decay)
    let sorted := victims.insertionSort fun a b => a.2 < b.2 ∨ a.2 = b.2 ∧ a.1 ≤ b.1
    let gone := (sorted.take excess).map (·.1)
    { l with keys := l.keys.filter fun entry => !gone.contains entry.1 }

def Limiter.tickWithShares (decay : Nat → Nat → ℚ) (l : Limiter) (now clusterSize : Nat)
    (hotElsewhere : UInt64 → Bool) (s : σ) : Option (Limiter × σ) :=
  if 0 < clusterSize then do
    let n : ℚ := clusterSize
    let (keys, hotSet) ← settle decay now n l.config.alpha hotElsewhere l.keys l.hotSet
    let (keys, s) ← applyQuotas share l.config l.cap n hotElsewhere hotSet now keys s
    let l := { l with keys := keys, hotSet := hotSet, lastTick := some now }.enforceCap decay
    some ({ l with shadows := l.shadows.filter fun key _ => l.keys.any (·.1 == key) }, s)
  else none

end Shares

/- The hot keys with their demand and whether they are hot by it, busiest first. -/
def Limiter.hotDemand (l : Limiter) : List (UInt64 × ℚ × Bool) :=
  let hot := (l.keys.filter fun entry => l.hotSet.isHot entry.1).map fun entry =>
    (entry.1, entry.2.demand.rate, l.hotSet.isPrimary entry.1)
  hot.insertionSort fun a b => b.2.1 < a.2.1 ∨ a.2.1 = b.2.1 ∧ a.1 ≤ b.1

end Rateguard
