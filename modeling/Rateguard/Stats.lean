import Mathlib.Data.List.Sort
import Rateguard.KeyBounds
import Rateguard.Screen

/- What a node tells about itself, and the keys it denied most. -/
namespace Rateguard

structure KeyRates where
  requestsPerSec : ℚ
  deniedPerSec : ℚ
  shadowDeniedPerSec : ℚ
  deriving DecidableEq, Repr

section
variable (decay : Nat → Nat → ℚ)

def KeyState.rates (state : KeyState) : KeyRates where
  requestsPerSec := state.requests.unbiasedRate decay
  deniedPerSec := state.denials.unbiasedRate decay
  shadowDeniedPerSec := state.shadowDenials.unbiasedRate decay

namespace Limiter

def keyRates (l : Limiter) (key : UInt64) : Option KeyRates :=
  (l.find key).map fun state => state.rates decay

/- The higher first, of two as high the smaller key. -/
def ranked (a b : UInt64 × ℚ × KeyState) : Bool :=
  decide (b.2.1 < a.2.1 ∨ a.2.1 = b.2.1 ∧ a.1 ≤ b.1)

def loud (l : Limiter) (rank : KeyState → ℚ) : List (UInt64 × ℚ × KeyState) :=
  (l.keys.map fun entry => (entry.1, rank entry.2, entry.2)).filter fun entry =>
    decide (silentDemand ≤ entry.2.1)

def mostBy (l : Limiter) (k : Nat) (rank : KeyState → ℚ) : List (UInt64 × KeyRates) :=
  if k = 0 then []
  else (((l.loud rank).mergeSort ranked).take k).map fun entry => (entry.1, entry.2.2.rates decay)

def mostDenied (l : Limiter) (k : Nat) : List (UInt64 × KeyRates) :=
  l.mostBy decay k fun state => state.denials.rate

def mostShadowDenied (l : Limiter) (k : Nat) : List (UInt64 × KeyRates) :=
  l.mostBy decay k fun state => state.shadowDenials.rate

end Limiter
end

structure DeniedKey where
  keyHash : UInt64
  deniedPerSec : ℚ
  requestsPerSec : ℚ
  shadowDeniedPerSec : ℚ
  deriving DecidableEq, Repr

def listed (keys : List (UInt64 × KeyRates)) : List DeniedKey :=
  keys.map fun (key, rates) =>
    ⟨key, rates.deniedPerSec, rates.requestsPerSec, rates.shadowDeniedPerSec⟩

def RejectedDatagrams.none : RejectedDatagrams := ⟨0, 0, 0, 0⟩

def RejectedDatagrams.add (a b : RejectedDatagrams) : RejectedDatagrams where
  unsigned := a.unsigned + b.unsigned
  badTag := a.badTag + b.badTag
  malformed := a.malformed + b.malformed
  mismatchedRecords := a.mismatchedRecords + b.mismatchedRecords

/- A node's state as of the last tick of its background task. -/
structure Stats where
  admitted : Nat
  denied : Nat
  overflowed : Nat
  clusterSize : Nat
  countedSize : Nat
  suspects : Nat
  trackedKeys : Nat
  hotKeys : Nat
  joining : Bool
  learning : Bool
  withoutQuorum : Bool
  membersFull : Bool
  sinceLastRound : Option Nat
  running : Bool
  dryRun : Bool
  mostDenied : List DeniedKey
  mostShadowDenied : List DeniedKey
  unknownClass : Nat
  shadowDenied : Nat
  gossipAuth : GossipAuth
  rejectedDatagrams : RejectedDatagrams
  identityConflicts : Nat
  membersRefused : Nat
  deriving DecidableEq

def Stats.default : Stats where
  admitted := 0
  denied := 0
  overflowed := 0
  clusterSize := 0
  countedSize := 0
  suspects := 0
  trackedKeys := 0
  hotKeys := 0
  joining := false
  learning := false
  withoutQuorum := false
  membersFull := false
  sinceLastRound := none
  running := false
  dryRun := false
  mostDenied := []
  mostShadowDenied := []
  unknownClass := 0
  shadowDenied := 0
  gossipAuth := .off
  rejectedDatagrams := .none
  identityConflicts := 0
  membersRefused := 0

/- The stats but for what is filled in when they are asked for, every check counted, and when the last
   round ran. -/
structure Report where
  stats : Stats
  attempts : Nat
  lastRound : Option Nat
  deriving DecidableEq

def Report.default : Report := ⟨.default, 0, none⟩

structure Counts where
  attempts : Nat
  denied : Nat
  overflowed : Nat
  unknownClass : Nat
  shadowDenied : Nat
  rejected : RejectedDatagrams
  deriving DecidableEq

def Report.updated (r : Report) (decay : Nat → Nat → ℚ) (n : Node) (counts : Counts)
    (mostDenied : Nat) : Report where
  attempts := r.attempts + counts.attempts
  lastRound := n.lastRound
  stats := { r.stats with
    denied := r.stats.denied + counts.denied
    overflowed := r.stats.overflowed + counts.overflowed
    unknownClass := r.stats.unknownClass + counts.unknownClass
    shadowDenied := r.stats.shadowDenied + counts.shadowDenied
    rejectedDatagrams := r.stats.rejectedDatagrams.add counts.rejected
    mostDenied := listed (n.limiter.mostDenied decay mostDenied)
    mostShadowDenied := listed (n.limiter.mostShadowDenied decay mostDenied)
    clusterSize := n.members.clusterSize
    countedSize := n.shareSize
    suspects := n.members.live.countP fun peer => decide (n.members.status peer = some .suspect)
    trackedKeys := n.limiter.trackedKeys
    hotKeys := n.limiter.hotSet.len
    joining := n.held.joining
    learning := n.held.learning
    withoutQuorum := n.held.withoutQuorum
    membersFull := n.held.membersFull
    identityConflicts := n.identityConflicts
    membersRefused := n.members.refused }

end Rateguard
