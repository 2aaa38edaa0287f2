import Rateguard.LimitChanges
import Rateguard.SeedNames
import Rateguard.SoleClaims
import Rateguard.Stats

/- A node as its users see it: requests are checked on the key table, and the background task takes
   their counts to the core and brings the quotas back. Each check and each step of the task is taken
   whole here. What is not of this repository, the hashes, the tags and the decay, is a parameter. -/
namespace Rateguard
open KeyTable (Slots Layout RealKey)

namespace KeyTable

/- Attempts in the low half of a slot's counts, denials in the high. -/
def attempt : UInt64 := 1
def denial : UInt64 := 0x100000000

namespace Slot

def countAttempt (s : Slot) : Slot := { s with counts := s.counts + attempt }
def countDenial (s : Slot) : Slot := { s with counts := s.counts + denial }
def countShadowDenial (s : Slot) : Slot := { s with shadowDenials := s.shadowDenials + 1 }
def hasCounts (s : Slot) : Bool := s.counts != 0

def check (s : Slot) (now : Nat) : Decision × Option Decision × Slot :=
  let (decided, gcra) := s.gcra.check now 0
  let (shadowed, shadow) := s.shadow.check now 0
  let s := { s with gcra, shadow }
  let s := if shadowed.any (· ≠ .allow) then s.countShadowDenial else s
  (decided, shadowed, if decided = .allow then s else s.countDenial)

def takeCounts (s : Slot) : Tally × Slot :=
  (⟨(s.counts &&& (denial - 1)).toNat, (s.counts >>> 32).toNat, s.shadowDenials.toNat⟩,
    { s with counts := 0, shadowDenials := 0 })

end Slot

namespace Layout

/- Room for twice the tracked keys, in whole buckets, a power of two of them. -/
def new (trackedKeys : Nat) (rehash : UInt64 → UInt64) : Layout where
  buckets := (divCeil (2 * trackedKeys) bucketSize).nextPowerOfTwo
  rehash

def capacity (l : Layout) : Nat := l.buckets * bucketSize

def find (l : Layout) (slots : Slots) (key : UInt64) : Option Nat :=
  (l.candidates key).find? fun slot => decide ((slots slot).key = key)

def visit {σ : Type} (edit : Slot → σ → Option (Slot × σ)) :
    List Nat → Slots → σ → Option (Slots × σ)
  | [], slots, s => some (slots, s)
  | slot :: rest, slots, s =>
    if RealKey (slots slot).key then do
      let (edited, s) ← edit (slots slot) s
      visit edit rest (Function.update slots slot edited) s
    else visit edit rest slots s

def forEach {σ : Type} (l : Layout) (edit : Slot → σ → Option (Slot × σ)) (slots : Slots) (s : σ) :
    Option (Slots × σ) :=
  visit edit (List.range l.capacity) slots s

def visitFree (edit : Slot → Option Slot) : List Nat → Slots → Option Slots
  | [], slots => some slots
  | slot :: rest, slots =>
    if (slots slot).key = emptyKey then do
      let edited ← edit (slots slot)
      visitFree edit rest (Function.update slots slot edited)
    else visitFree edit rest slots

def forEachFree (l : Layout) (edit : Slot → Option Slot) (slots : Slots) : Option Slots :=
  visitFree edit (List.range l.capacity) slots

end Layout
end KeyTable

structure Primitives where
  xxh3 : String → UInt64
  xxh3Seeded : UInt64 → String → UInt64
  sipHash : KeySalt → UInt64 → String → UInt64
  peerId : Address → PeerId
  mac : Secret → List UInt8 → Vector UInt8 tagLen
  decay : Nat → Nat → ℚ

/- The two hashes the key table reserves, moved next door. -/
def offReserved (hash : UInt64) : UInt64 :=
  if hash = KeyTable.emptyKey then 1
  else if hash = KeyTable.busyKey then KeyTable.busyKey - 1
  else hash

def Primitives.saltedHashIn (p : Primitives) (salt : Option KeySalt) (cls : UInt64) (key : String) :
    UInt64 :=
  offReserved (match salt with
    | none => p.xxh3Seeded cls key
    | some salt => p.sipHash salt cls key)

/- What the request path and the background task share, the counts for the next report, and the core
   with what is found behind its seeds' names. -/
structure Guard where
  layout : Layout
  slots : Slots
  overflow : KeyTable.Slot
  clusterSize : Nat
  running : Bool
  mostDenied : Nat
  dryRun : Bool
  report : Report
  classes : Classes
  keyLimits : KeyLimits
  freshFactor : ℚ
  freeQuota : Quota
  auth : Auth
  salt : Option KeySalt
  rejected : RejectedDatagrams
  names : Names
  node : Node

inductive Guard.Decision where
  | allow
  | deny (retryAfter : Nat)
  deriving DecidableEq, Repr

def Guard.Decision.fromCore (now : Nat) : Rateguard.Decision → Guard.Decision
  | .allow => .allow
  | .deny retryAt => .deny (retryAt - now)

structure Checked where
  decision : Guard.Decision
  shadow : Option Guard.Decision
  deriving DecidableEq, Repr

/- What a check comes to at its slot, none for the overflow slot. -/
structure Verdict where
  slot : Option Nat
  decided : Decision
  shadow : Option Decision
  deriving DecidableEq, Repr

/- What a caller is told: in a dry run every request is let through. -/
def Verdict.checked (v : Verdict) (dryRun : Bool) (now : Nat) : Checked where
  decision := if dryRun then .allow else .fromCore now v.decided
  shadow := v.shadow.map (.fromCore now)

namespace Guard

def slotAt (g : Guard) (slot : Option Nat) : KeyTable.Slot := slot.elim g.overflow g.slots

def putSlot (g : Guard) (slot : Option Nat) (written : KeyTable.Slot) : Guard :=
  match slot with
  | none => { g with overflow := written }
  | some slot => { g with slots := Function.update g.slots slot written }

section
variable (p : Primitives)

def hash (g : Guard) (cls key : String) : UInt64 :=
  p.saltedHashIn g.salt (classHash p.xxh3 cls) key

def tables (g : Guard) : Shared where
  slots := []
  classes := g.classes
  keyLimits := g.keyLimits
  freshFactor := g.freshFactor
  freeQuota := g.freeQuota

/- A slot just taken is given the quota of its own class and key; one that went to another key
   meanwhile gets the free slots' back. -/
def freshen (g : Guard) (cls key : UInt64) (now : Nat) (slot : KeyTable.Slot) :
    Option KeyTable.Slot := do
  let (quota, shadow) ← g.tables.freshQuota p.xxh3 cls key
  let gcra ← slot.gcra.setQuota quota now 0
  let shadow ← slot.shadow.set shadow now 0
  if slot.key = key then some { slot with gcra, shadow }
  else do
    let gcra ← gcra.setQuota g.freeQuota now 0
    let shadow ← shadow.set none now 0
    some { slot with gcra, shadow }

/- One request, for a key and its class already hashed. A key's slot is told its class on every check;
   the attempt is counted before it is decided. -/
def judge (g : Guard) (cls key : UInt64) (now : Nat) : Option (Verdict × Guard) := do
  let (slots, index, taken) := KeyTable.claim g.layout g.slots key
  let g := { g with slots }
  let slot := g.slotAt index
  let slot := if slot.cls ≠ cls ∧ index.isSome then { slot with cls } else slot
  let slot := slot.countAttempt
  let slot ← (if taken then g.freshen p cls key now slot else some slot)
  let (decided, shadow, slot) := slot.check now
  some (⟨index, decided, shadow⟩, g.putSlot index slot)

def share (g : Guard) (cls key : String) : Option ℚ := do
  let slot ← g.layout.find g.slots (g.hash p cls key)
  let quota ← Quota.unpack (g.slots slot).gcra.quota
  some (oneSec / quota.interval)

def stats (g : Guard) (now : Nat) : Stats := { g.report.stats with
  admitted := g.report.attempts - g.report.stats.denied
  sinceLastRound := g.report.lastRound.map (now - ·)
  running := g.running
  dryRun := g.dryRun
  gossipAuth := g.auth.mode }

def resolved (g : Guard) (slot : KeyTable.Slot) : Resolved :=
  g.classes.table.resolve p.xxh3 g.keyLimits.table slot.cls slot.key

/- A slot's counts go to the core, with its limit: of a key that has none only where the core holds
   another limit. -/
def recordSlot (g : Guard) (now : Nat) (slot : KeyTable.Slot) (s : Node × Counts) :
    Option (KeyTable.Slot × Node × Counts) := do
  let (node, counts) := s
  let (tally, slot) := slot.takeCounts
  let resolved := g.resolved p slot
  let node ← (if 0 < tally.attempts ∨
      (node.limiter.find slot.key).any (·.limit ≠ resolved.limit) then
    node.record slot.key tally resolved.limit now else some node)
  some (slot, node, { counts with
    attempts := counts.attempts + tally.attempts
    denied := counts.denied + tally.denials
    shadowDenied := counts.shadowDenied + tally.shadowDenials
    unknownClass := if resolved.known then counts.unknownClass
      else counts.unknownClass + tally.attempts })

/- A slot gets the quota the core says; where the core knows nothing of its key it is freed, or if it
   is kept for a debt or a check since, it gets a new key's. -/
def requoteSlot (g : Guard) (node : Node) (newKey : Quota) (now : Nat) (slot : KeyTable.Slot) :
    Option KeyTable.Slot :=
  match node.quota slot.key with
  | some quota => do
    let resolved := g.resolved p slot
    let gcra ← slot.gcra.setQuota quota now 0
    let shadow ← (if g.classes.table.hasShadows then
      shadowQuota quota resolved.limit resolved.shadow else some none)
    let shadow ← slot.shadow.set shadow now 0
    some { slot with gcra, shadow }
  | none =>
    if !slot.gcra.hasDebt now && !slot.hasCounts then some (slot.released slot.key newKey)
    else do
      let resolved := g.resolved p slot
      let quota ← node.newKeyQuotaIn resolved.limit
      let gcra ← slot.gcra.setQuota quota now 0
      let shadow ← shadowQuota quota resolved.limit resolved.shadow
      let shadow ← slot.shadow.set shadow now 0
      some { slot with gcra, shadow }

def sync (g : Guard) (now : Nat) : Option Guard := do
  let counts : Counts := ⟨0, 0, 0, 0, 0, g.rejected⟩
  let (slots, node, counts) ← g.layout.forEach (g.recordSlot p now) g.slots (g.node, counts)
  let (overflowed, overflow) := g.overflow.takeCounts
  let counts := { counts with
    attempts := counts.attempts + overflowed.attempts
    denied := counts.denied + overflowed.denials
    overflowed := overflowed.attempts }
  let node ← node.handle p.decay .tick now
  let report := g.report.updated p.decay node counts g.mostDenied
  let newKey ← node.newKeyQuotaIn g.classes.table.strictest
  let (slots, _) ← g.layout.forEach (σ := Unit)
    (fun slot _ => (g.requoteSlot p node newKey now slot).map (·, ())) slots ()
  let requote (slot : KeyTable.Slot) : Option KeyTable.Slot :=
    (slot.gcra.setQuota newKey now 0).map fun gcra => { slot with gcra }
  let slots ← g.layout.forEachFree requote slots
  let overflow ← requote overflow
  some { g with
    slots
    overflow
    node
    report
    rejected := .none
    freshFactor := node.newKeyFactor
    freeQuota := newKey
    clusterSize := node.members.clusterSize }

/- Every key to the floor, the part of its limit a cluster leaves to each member. -/
def holdAtFloor (g : Guard) (now : Nat) : Option Guard := do
  let n := max g.clusterSize 1
  let beta := g.node.limiter.config.floorFactor
  let floor (limit : Limit) : Option Quota := quotaFor (limit.rate * beta / n) limit.burst
  let strictest ← floor g.classes.table.strictest
  let requote (slot : KeyTable.Slot) : Option KeyTable.Slot :=
    (slot.gcra.setQuota strictest now 0).map fun gcra => { slot with gcra }
  let (slots, _) ← g.layout.forEach (σ := Unit) (fun slot _ => do
    let resolved := g.resolved p slot
    let quota ← floor resolved.limit
    let gcra ← slot.gcra.setQuota quota now 0
    let shadow ← shadowQuota quota resolved.limit resolved.shadow
    let shadow ← slot.shadow.set shadow now 0
    some ({ slot with gcra, shadow }, ())) g.slots ()
  let slots ← g.layout.forEachFree requote slots
  let overflow ← requote g.overflow
  some { g with slots, overflow, freshFactor := beta / n, freeQuota := strictest }

end
end Guard

def Settings.guard (s : Settings) (p : Primitives) (rehash : UInt64 → UInt64) (seed : UInt64) :
    Option Guard := do
  let (names, node) ← s.launch p.peerId seed
  let default ← s.defaultLimit.checked.toOption
  let classes := Classes.new p.xxh3 default s.classes s.maxClasses
  let freeQuota ← node.newKeyQuotaIn classes.table.strictest
  some {
    layout := .new s.core.maxTrackedKeys rehash
    slots := fun _ => .new freeQuota
    overflow := .new freeQuota
    clusterSize := node.members.clusterSize
    running := true
    mostDenied := s.mostDenied
    dryRun := s.dryRun
    report := .default
    classes
    keyLimits := .new s.maxKeyLimits
    freshFactor := node.newKeyFactor
    freeQuota
    auth := s.auth
    salt := s.salt
    rejected := .none
    names
    node }

inductive GuardCall where
  | check (cls key : String) (now : Nat)
  | setClasses (call : ClassesCall)
  | setKeyLimits (call : KeyLimitsCall)
  | setDryRun (on : Bool)
  | setGossipAuth (mode : GossipAuth) (secrets : List Secret)
  | tick (now : Nat)
  | receive (datagram : List UInt8) (now : Nat)
  | lookedUp (found : Found)
  | leave (now : Nat)
  | crash (now : Nat)

namespace GuardCall

def time (last : Nat) : GuardCall → Nat
  | check _ _ now | tick now | receive _ now | leave now | crash now => now
  | setClasses _ | setKeyLimits _ | setDryRun _ | setGossipAuth _ _ | lookedUp _ => last

/- What a call does, and what a check comes to. The background task acts as long as it
   runs: leaving and a crash of it hold every key at the floor, and end it. -/
def perform (p : Primitives) (g : Guard) : GuardCall → Option (Option Verdict × Guard)
  | check cls key now =>
    (g.judge p (classHash p.xxh3 cls) (g.hash p cls key) now).map fun (v, g) => (some v, g)
  | setClasses call => some (none, { g with classes := (call.perform p.xxh3 g.classes).2 })
  | setKeyLimits call => some (none, { g with keyLimits := (call.perform g.keyLimits).2 })
  | setDryRun on => some (none, { g with dryRun := on })
  | setGossipAuth mode secrets =>
    some (none, { g with auth := (Auth.new mode secrets).toOption.getD g.auth })
  | tick now => if g.running then (g.sync p now).map (none, ·) else none
  | receive datagram now => do
    if g.running then
      let (_, node, rejected) ←
        g.node.receiveDatagram p.peerId p.mac p.decay g.auth datagram now g.rejected
      some (none, { g with node, rejected })
    else none
  | lookedUp found => do
    if g.running then
      let (names, node) ← g.names.update p.peerId g.node found
      some (none, { g with names, node })
    else none
  | leave now => do
    if g.running then
      let g ← g.holdAtFloor p now
      let node ← g.node.leave now
      some (none, { g with node, running := false })
    else none
  | crash now => do
    if g.running then
      let g ← g.holdAtFloor p now
      some (none, { g with running := false })
    else none

end GuardCall

structure GuardStep where
  before : Guard
  call : GuardCall
  verdict : Option Verdict
  after : Guard
  time : Nat

def guardRun (p : Primitives) (g : Guard) (last : Nat) :
    List GuardCall → Option (List GuardStep)
  | [] => some []
  | call :: rest => do
    let (verdict, g') ← call.perform p g
    let steps ← guardRun p g' (call.time last) rest
    some (⟨g, call, verdict, g', call.time last⟩ :: steps)

end Rateguard
