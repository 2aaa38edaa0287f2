import Rateguard.Classes
import Rateguard.Node

/- What the request path and the background task of a node share, and one tick of the task. -/
namespace Rateguard

/- The quota of a shadow next to the quota a slot was just given: scaled by the ratio of the two
   limits, with the shadow's burst. -/
def shadowQuota (main : Quota) (limit : Limit) (shadow : Option Limit) : Option (Option Quota) :=
  match shadow with
  | none => some none
  | some shadow =>
    (quotaFor (oneSec / main.interval * shadow.rate / limit.rate) shadow.burst).map some

/- A slot a key holds: its class, the counts since the last tick, whether it is to be kept (it owes,
   or a check has come since the counts were taken), and its quotas. -/
structure Slot where
  key : UInt64
  cls : UInt64
  tally : Tally
  kept : Bool
  quota : Quota
  shadow : Option Quota

structure Shared where
  slots : List Slot
  classes : Classes
  keyLimits : KeyLimits
  freshFactor : ℚ
  freeQuota : Quota

namespace Node

def quota (n : Node) (key : UInt64) : Option Quota := (n.limiter.find key).map (·.applied)

def newKeyQuotaIn (n : Node) (limit : Limit) : Option Quota := n.limiter.coldQuota limit n.shareSize

def newKeyFactor (n : Node) : ℚ := n.limiter.newKeyFactor n.shareSize

end Node

namespace Shared
section
variable (xxh3 : String → UInt64)

/- The limit of a key taking its first slot, and its shadow: no table is read for the default class
   without key limits and shadows. -/
def freshLimit (s : Shared) (cls key : UInt64) : Limit × Option Limit :=
  if s.keyLimits.isEmpty && !s.classes.hasShadows then (s.classes.limitOf cls, none)
  else s.classes.limitFor xxh3 s.keyLimits.table cls key

def freshQuota (s : Shared) (cls key : UInt64) : Option (Quota × Option Quota) := do
  let (limit, shadow) := s.freshLimit xxh3 cls key
  let main ← quotaFor (limit.rate * s.freshFactor) limit.burst
  let shadow ← shadowQuota main limit shadow
  some (main, shadow)

def resolved (s : Shared) (slot : Slot) : Resolved :=
  s.classes.table.resolve xxh3 s.keyLimits.table slot.cls slot.key

def recordSlots (s : Shared) (now : Nat) (n : Node) : Option Node :=
  s.slots.foldlM (fun n slot =>
    let limit := (s.resolved xxh3 slot).limit
    if 0 < slot.tally.attempts ∨ (n.limiter.find slot.key).any (·.limit ≠ limit) then
      n.record slot.key slot.tally limit now
    else some n) n

/- What a tick makes of a slot: the quotas the core says, those of a new key where it tracks none, or
   nothing of a slot that is not kept. -/
def syncSlot (s : Shared) (n : Node) (slot : Slot) : Option (Option Slot) :=
  let resolved := s.resolved xxh3 slot
  let slot := { slot with tally := ⟨0, 0, 0⟩ }
  match n.quota slot.key with
  | some quota => do
    let shadow ← (if s.classes.table.hasShadows then
      shadowQuota quota resolved.limit resolved.shadow else some none)
    some (some { slot with quota, shadow })
  | none =>
    if slot.kept then do
      let quota ← n.newKeyQuotaIn resolved.limit
      let shadow ← shadowQuota quota resolved.limit resolved.shadow
      some (some { slot with quota, shadow })
    else some none

def sync (decay : Nat → Nat → ℚ) (s : Shared) (n : Node) (now : Nat) : Option (Shared × Node) := do
  let n ← s.recordSlots xxh3 now n
  let n ← n.handle decay .tick now
  let newKey ← n.newKeyQuotaIn s.classes.table.strictest
  let slots ← s.slots.mapM (s.syncSlot xxh3 n)
  some ({ s with slots := slots.reduceOption, freshFactor := n.newKeyFactor, freeQuota := newKey }, n)

end
end Shared
end Rateguard
