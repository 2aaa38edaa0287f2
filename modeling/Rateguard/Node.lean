import Rateguard.Allocation
import Rateguard.Gossip
import Rateguard.Limiter
import Rateguard.Member
import Rateguard.Partition
import Rateguard.PeerDemand
import Rateguard.Rng

/- One cluster member: the limiter and the membership protocol behind one interface. Every
   function takes the state and gives the next one; none is a panic. Times are counts of
   nanoseconds, and rates are exact. -/
namespace Rateguard
open Std (ExtTreeMap ExtTreeSet)
open AscendingList (binarySearch)

inductive Event where
  | tick
  | messageReceived (sender : PeerId) (bytes : List UInt8)

inductive Action where
  | sendTo (peer : PeerId) (bytes : List UInt8)
  deriving DecidableEq, Repr

def defaultQuorumMemory : Nat := 3600000 * 1000000
def defaultMaxMembers : Nat := 8192

structure SwimConfig where
  protocolPeriod : Nat
  ackTimeout : Nat
  indirectProbes : Nat
  suspicionTimeout : Nat
  reconnectInterval : Nat
  tombstoneTtl : Nat
  deriving DecidableEq, Repr

def SwimConfig.Valid (swim : SwimConfig) : Prop :=
  0 < swim.protocolPeriod ∧ (0 < swim.ackTimeout ∧ swim.ackTimeout < swim.protocolPeriod) ∧
    swim.protocolPeriod ≤ swim.suspicionTimeout ∧ swim.protocolPeriod ≤ swim.reconnectInterval ∧
    swim.suspicionTimeout ≤ swim.tombstoneTtl

instance (swim : SwimConfig) : Decidable swim.Valid := by
  unfold SwimConfig.Valid
  infer_instance

structure Probe where
  target : PeerId
  seq : UInt32
  sentAt : Nat
  helpers : Option (List PeerId)
  deriving DecidableEq, Repr

structure Relay where
  requester : PeerId
  seq : UInt32
  target : PeerId
  expiresAt : Nat
  deriving DecidableEq, Repr

structure Held where
  joining : Bool
  learning : Bool
  withoutQuorum : Bool
  membersFull : Bool
  deriving DecidableEq, Repr

def Held.default : Held := ⟨false, false, false, false⟩

structure Node where
  limiter : Limiter
  members : MemberTable
  gossip : Gossip
  swim : SwimConfig
  rng : Rng
  seeds : List (PeerId × Address)
  order : List PeerId
  next : Nat
  seq : UInt32
  probe : Option Probe
  relays : ExtTreeMap UInt32 Relay
  nextRoundAt : Nat
  nextReconnectAt : Nat
  lastRound : Option Nat
  lastNow : Nat
  actions : List Action
  peerDemand : PeerDemand
  roundNumber : UInt16
  epoch : UInt32
  ownDemand : List KeyDemand
  policy : PartitionPolicy
  sizes : SizeHistory
  heldSize : Nat
  quorumSize : Nat
  quorumMemory : Nat
  withoutQuorumSince : Option Nat
  flooredUntil : Nat
  joinedAt : Option Nat
  expectsPeers : Bool
  lastHeard : ExtTreeMap PeerId Nat
  reported : List (Nat × List KeyDemand)
  behind : ExtTreeSet PeerId
  introducing : ExtTreeMap PeerId (Option PeerId)
  recentShares : ExtTreeMap UInt64 (ℚ × ℚ)
  left : Bool
  held : Held
  identityConflicts : Nat
  lastRefusedAt : Option Nat
  deriving DecidableEq

def Node.new (config : Config) (swim : SwimConfig) (localId : PeerId) (addr : Address)
    (seed : UInt64) : Option Node :=
  if swim.Valid then do
    let (first, apart) := (Rng.new (~~~seed)).nextU64
    let (second, _) := apart.nextU64
    let members ← (MemberTable.new localId addr).setMax defaultMaxMembers
    let limiter ← Limiter.new config
    some {
      limiter, members, gossip := .new, swim, rng := .new seed, seeds := [], order := [], next := 0
      seq := second.toUInt32, probe := none, relays := ∅, nextRoundAt := 0, nextReconnectAt := 0
      lastRound := none, lastNow := 0, actions := [], peerDemand := .new, roundNumber := 0
      epoch := first.toUInt32, ownDemand := [], policy := .default
      sizes := .new (holdOf .default), heldSize := 0, quorumSize := 1
      quorumMemory := defaultQuorumMemory, withoutQuorumSince := none, flooredUntil := 0
      joinedAt := none, expectsPeers := false, lastHeard := ∅, reported := [], behind := ∅
      introducing := ∅, recentShares := ∅, left := false, held := .default
      identityConflicts := 0, lastRefusedAt := none }
  else none

namespace Node

/- N as allocation sees it: the membership's, or under HoldDown the largest of the hold. -/
def allocationSize (n : Node) : Nat := max n.members.clusterSize n.heldSize

def isLive (n : Node) (peer : PeerId) : Bool :=
  n.members.status peer = some .alive || n.members.status peer = some .suspect

/- Whether a live newcomer was refused for a full table within the last tombstone_ttl. -/
def refusing (n : Node) (now : Nat) : Bool :=
  n.lastRefusedAt.any fun refusedAt => now < satAdd refusedAt n.swim.tombstoneTtl

def shareSize (n : Node) : Nat :=
  if n.refusing n.lastNow then max n.allocationSize n.members.max else n.allocationSize

/- How long what a peer said counts, in a cluster of this size. -/
def staleAfter (n : Node) (clusterSize : Nat) : Option Nat := do
  let stale ← staleAfterRounds clusterSize
  mulU64 stale n.swim.protocolPeriod

/- Whether every live peer has been heard since then, or the wait for it is over. -/
def informedSince (n : Node) (since now : Nat) : Option Bool := do
  let stale ← n.staleAfter n.allocationSize
  let due ← addU64 since stale
  some (due ≤ now || n.members.live.all fun peer => n.lastHeard[peer]?.any (since < ·))

/- The cap every key is held to, if any, and why. -/
def refreshCap (n : Node) (now : Nat) : Option Node := do
  let floor := fun known : Nat => n.limiter.config.floorFactor / known
  let waiting := n.joinedAt.isNone && (n.expectsPeers || !n.seeds.isEmpty)
  let learning ← (if waiting then some false
    else (n.informedSince (n.joinedAt.getD 0) now).map (!·))
  let held : Held := {
    joining := waiting && n.policy != .optimistic
    learning
    withoutQuorum := n.policy == .quorum && decide (now < n.flooredUntil)
    membersFull := n.refusing now }
  let caps := (if held.joining then [floor (1 + n.seeds.length)] else []) ++
    (if held.learning then [floor n.shareSize] else []) ++
    (if held.withoutQuorum then [floor n.quorumSize] else []) ++
    (if held.membersFull then [floor n.shareSize] else [])
  some { n with limiter := n.limiter.setCap caps.min?, held }

/- none is time running backwards. -/
def advance (n : Node) (now : Nat) : Option Node :=
  if n.lastNow ≤ now then some { n with lastNow := now } else none

def introduce (n : Node) (peer : PeerId) (addr : Address) : Option Node :=
  if peer = n.members.localId then none
  else do
    let now := n.lastNow
    let (applied, members) ← n.members.apply ⟨peer, addr, 0, .alive⟩ now
    let n := { n with members }
    if applied = .refused then refreshCap { n with lastRefusedAt := some now } now else some n

def addSeed (n : Node) (seed : PeerId) (addr : Address) : Option Node :=
  if seed = n.members.localId then none
  else
    let n := if n.seeds.any (·.1 == seed) then n
      else { n with seeds := n.seeds ++ [(seed, addr)] }
    n.refreshCap n.lastNow

def expectPeers (n : Node) (expected : Bool) : Option Node :=
  { n with expectsPeers := expected }.refreshCap n.lastNow

def removeSeed (n : Node) (seed : PeerId) : Option Node :=
  { n with seeds := n.seeds.filter (·.1 != seed) }.refreshCap n.lastNow

def record (n : Node) (key : UInt64) (tally : Tally) (limit : Limit) (now : Nat) :
    Option Node := do
  let n ← n.advance now
  let limiter ← n.limiter.record key tally limit now n.shareSize
  some { n with limiter }

def checkIn (n : Node) (key : UInt64) (limit : Limit) (now : Nat) : Option (Decision × Node) := do
  let n ← n.advance now
  let (decision, limiter) ← n.limiter.checkIn key limit now n.shareSize
  some (decision, { n with limiter })

def check (n : Node) (key : UInt64) (now : Nat) : Option (Decision × Node) :=
  n.checkIn key n.limiter.config.limit now

def checkInTraced (n : Node) (key : UInt64) (limit : Limit) (shadow : Option Limit) (now : Nat) :
    Option ((Decision × Option Decision) × Node) := do
  let n ← n.advance now
  let (decisions, limiter) ← n.limiter.checkInTraced key limit shadow now n.shareSize
  some (decisions, { n with limiter })

def setPartitionPolicy (n : Node) (policy : PartitionPolicy) : Option Node :=
  { n with policy, sizes := .new (holdOf policy), heldSize := 0 }.refreshCap n.lastNow

def setQuorumMemory (n : Node) (memory : Nat) : Node := { n with quorumMemory := memory }

def setMaxMembers (n : Node) (max : Nat) : Option Node := do
  let members ← n.members.setMax max
  some { n with members }

/- Sending. The expect on the encoding is the none of send. -/
def send (n : Node) (peer : PeerId) (message : Message) : Option Node :=
  match encode message with
  | .ok bytes => some { n with actions := n.actions ++ [.sendTo peer bytes] }
  | .error _ => none

def nextSeq (n : Node) : UInt32 × Node := (n.seq + 1, { n with seq := n.seq + 1 })

def outgoingDemand (n : Node) : List DemandReport :=
  [⟨n.members.localId, n.epoch, n.roundNumber, n.ownDemand⟩]

/- Tells a newcomer of the live members in the room the message has left, in the order of
   their IDs: the records so far, the last one told of, and whether that was all. -/
def tell (recipient : PeerId) : List Update → List Update → Option PeerId →
    List Update × Option PeerId × Bool
  | rest, updates, last =>
    if updates.length < maxUpdates then
      match rest with
      | [] => (updates, last, true)
      | update :: rest =>
        let updates := if update.member ≠ recipient ∧ updates.all (·.member ≠ update.member)
          then updates ++ [update] else updates
        tell recipient rest updates (some update.member)
    else (updates, last, false)

/- What a peer has to hear of itself: that it is held suspect or dead, or, of one behind its own
   incarnation, the Alive it is held at. -/
def accusation (n : Node) (recipient : PeerId) : Option Update :=
  (n.members.updateAbout recipient).filter fun update =>
    update.status != .alive || n.behind.contains recipient

/- The sender's own record, the gossip taken, and the accusation if it is not among it. -/
def opening (own : Update) (taken : List Update) (accusation : Option Update) : List Update :=
  let updates := own :: taken.filter (· ≠ own)
  match accusation with
  | some accusation => if updates.contains accusation then updates else updates ++ [accusation]
  | none => updates

/- The records a message to a peer carries: the opening, and who it has not been told of. -/
def outgoing (n : Node) (recipient : PeerId) : Option (List Update × Node) := do
  let own ← n.members.updateAbout n.members.localId
  let accusation := n.accusation recipient
  let room := maxUpdates - 1 - (if accusation.isSome then 1 else 0)
  let limit ← retransmitLimit n.members.clusterSize
  let (taken, gossip) ← n.gossip.take room limit
  let updates := opening own taken accusation
  match n.introducing[recipient]? with
  | none => some (updates, { n with gossip })
  | some start =>
    let (updates, last, allTold) := tell recipient (n.members.liveAfter start) updates start
    let introducing := if allTold then n.introducing.erase recipient
      else n.introducing.insert recipient last
    some (updates, { n with gossip, introducing })

def ping (n : Node) (target : PeerId) (now : Nat) : Option Node := do
  let (seq, n) := n.nextSeq
  let n := { n with probe := some ⟨target, seq, now, none⟩ }
  let (updates, n) ← n.outgoing target
  n.send target (.ping seq updates n.outgoingDemand)

def ack (n : Node) (recipient : PeerId) (seq : UInt32) : Option Node := do
  let (updates, n) ← n.outgoing recipient
  n.send recipient (.ack seq updates n.outgoingDemand)

/- One round. -/
def randomLost (n : Node) : Option (Option PeerId × Node) :=
  let lost := n.members.dead ++
    (n.seeds.map (·.1)).filter fun seed => (n.members.status seed).isNone
  if lost.isEmpty then some (none, n)
  else do
    let (pick, rng) := n.rng.upTo (lost.length - 1)
    let target ← lost[pick]?
    some (some target, { n with rng })

/- The first live peer of what is left of the order, and how far it is. -/
def takeFrom (live : List PeerId) : List PeerId → Nat → Option PeerId × Nat
  | [], next => (none, next)
  | peer :: rest, next =>
    match binarySearch live peer with
    | .ok _ => (some peer, next + 1)
    | .error _ => takeFrom live rest (next + 1)

def takeLive (n : Node) : Option PeerId × Node :=
  let (target, next) := takeFrom n.members.live (n.order.drop n.next) n.next
  (target, { n with next })

def nextTarget (n : Node) : Option (Option PeerId × Node) :=
  match n.takeLive with
  | (some target, n) => some (some target, n)
  | (none, n) => do
    let (order, rng) ← n.rng.shuffle n.members.live
    some { n with order, rng, next := 0 }.takeLive

/- One change of the membership; none is the probe order out of range. -/
def followChange (n : Node) (now : Nat) : Change → Option Node
  | .joined peer =>
    if n.next ≤ n.order.length then
      if (n.order.drop n.next).contains peer then some n
      else
        let (offset, rng) := n.rng.upTo (n.order.length - n.next)
        if n.next + offset ≤ n.order.length then
          some { n with order := n.order.insertIdx (n.next + offset) peer, rng }
        else none
    else none
  | .left peer =>
    let peerDemand := if n.members.hasDeparted peer then n.peerDemand.forget peer
      else n.peerDemand.leave peer now (holdOf n.policy)
    some { n with peerDemand }

def followChanges (n : Node) (now : Nat) : Option Node :=
  let (changes, members) := n.members.drainChanges
  changes.foldlM (fun n change => n.followChange now change) { n with members }

/- The members a majority is counted against: the live, and the dead that may yet be
   serving on the other side of a split. -/
def knownForQuorum (n : Node) : Nat :=
  n.members.clusterSize + (n.members.dead.filter fun peer => !n.members.hasDeparted peer).length

def aliveCount (n : Node) : Nat :=
  1 + (n.members.live.filter fun peer => n.members.status peer = some .alive).length

/- The size a majority is counted against, whether there is one, and since when there has
   not been. -/
def countQuorum (n : Node) (now : Nat) : Nat × Bool × Option Nat :=
  let alive := n.aliveCount
  let known := n.knownForQuorum
  let counted := max known n.quorumSize
  if hasQuorum alive counted then (counted, true, none)
  else
    let since := n.withoutQuorumSince.getD now
    if n.quorumMemory ≤ now - since then (known, hasQuorum alive known, some since)
    else (counted, false, some since)

def applyPolicy (n : Node) (now : Nat) : Option Node := do
  let size := n.members.clusterSize
  let (heldSize, sizes) ← n.sizes.record now size
  let joinedAt := if 1 < size ∧ n.joinedAt.isNone then some now else n.joinedAt
  let (counted, quorum, withoutQuorumSince) := n.countQuorum now
  let quorumSize := if quorum then n.knownForQuorum else counted
  let flooredUntil ← (if n.policy = .quorum ∧ !quorum then (n.staleAfter counted).bind (addU64 now)
    else some n.flooredUntil)
  let n := { n with heldSize, sizes, joinedAt, withoutQuorumSince, quorumSize, flooredUntil }
  n.refreshCap now

/- What the peers' demand dates from: the last message from the peer heard from longest
   ago. -/
def asOf (n : Node) : Option Nat := do
  let heard ← n.members.live.mapM fun peer => n.lastHeard[peer]?
  heard.min?

/- This node's demand for the key in its last report made by then, if the key was in it. -/
def reportedDemand (reported : List (Nat × List KeyDemand)) (key : UInt64) (asOf : Nat) :
    Option ℚ := do
  let (_, keys) ← reported.reverse.find? (·.1 ≤ asOf)
  let entry ← keys.find? (·.keyHash == key)
  some entry.demand.value

/- The hot keys whose demand the peers have had time to hear. -/
def informedKeys (n : Node) (now : Nat) : List UInt64 → Option (List UInt64)
  | [] => some []
  | key :: rest => do
    let since := max ((n.limiter.hotSet.hotSince key).getD now) (n.joinedAt.getD 0)
    let informed ← n.informedSince since now
    let others ← informedKeys n now rest
    some (if informed then key :: others else others)

/- A hot key's share as it comes out this round, before the delay on a rise. -/
def computedShare (n : Node) (clusterSize : Nat) (alone : Bool) (informed : List UInt64)
    (key : UInt64) (own limit : ℚ) : ℚ :=
  if !alone && !informed.contains key then limit * n.limiter.config.floorFactor / clusterSize
  else
    let past := n.asOf.bind (reportedDemand n.reported key)
    share { limit, clusterSize, floorFactor := n.limiter.config.floorFactor
            own := match past with | some past => min own past | none => own
            others := n.peerDemand.total key }

/- It falls at once, and rises once it has been as high for two more rounds. -/
def delayedShare (n : Node) (clusterSize : Nat) (alone : Bool) (informed : List UInt64)
    (recent : ExtTreeMap UInt64 (ℚ × ℚ)) (key : UInt64) (own limit : ℚ) :
    ℚ × ExtTreeMap UInt64 (ℚ × ℚ) :=
  let share := n.computedShare clusterSize alone informed key own limit
  let past := n.recentShares[key]?.getD (share, share)
  (min (min share past.1) past.2, recent.insert key (share, past.1))

/- The last reports, as far back as a peer's demand may date from. -/
def dropReported (kept now : Nat) : List (Nat × List KeyDemand) →
    Option (List (Nat × List KeyDemand))
  | [] => some []
  | first :: rest => do
    let due ← addU64 first.1 kept
    if due < now then dropReported kept now rest else some (first :: rest)

def reportDemand (n : Node) (now : Nat) : Option Node := do
  let ownDemand := n.limiter.hotDemand.map fun (key, rate, primary) =>
    (⟨key, F32.ofRat rate, primary⟩ : KeyDemand)
  let kept ← n.staleAfter n.allocationSize
  let reported ← dropReported kept now (n.reported ++ [(now, ownDemand)])
  some { n with roundNumber := n.roundNumber + 1, ownDemand, reported }

/- Pushes news to spread, whether or not the buffer takes it. -/
def spread (n : Node) (update : Update) : Option Node := do
  let (_, gossip) ← n.gossip.push update
  some { n with gossip }

section Demand
variable (decay : Nat → Nat → ℚ)

def applyShares (n : Node) (now : Nat) : Option Node := do
  let clusterSize := n.shareSize
  let informed ← n.informedKeys now (n.limiter.hotDemand.map (·.1))
  let alone ← n.informedSince now now
  let (limiter, recentShares) ← n.limiter.tickWithShares
    (n.delayedShare clusterSize alone informed) decay now clusterSize n.peerDemand.hotElsewhere ∅
  some { n with limiter, recentShares }

/- The peer whose probe went unanswered becomes a suspect. -/
def missProbe (n : Node) (now : Nat) : Option Node :=
  match n.probe with
  | none => some n
  | some missed => do
    let (suspicion, members) ← n.members.suspect missed.target now
    let n := { n with members, probe := none }
    match suspicion with
    | some suspicion => n.spread suspicion
    | none => some n

/- Whom to probe: a lost one once in a while, or whenever there is nobody else. -/
def chooseTarget (n : Node) (now : Nat) : Option (Option PeerId × Node) := do
  let (lost, n) ← (if n.nextReconnectAt ≤ now then n.randomLost else some (none, n))
  match lost with
  | some lost =>
    let nextReconnectAt ← addU64 now n.swim.reconnectInterval
    some (some lost, { n with nextReconnectAt })
  | none =>
    let (target, n) ← n.nextTarget
    match target with
    | some target => some (some target, n)
    | none => n.randomLost

/- A round up to the policy it applies. -/
def openRound (n : Node) (now : Nat) : Option Node := do
  let nextRoundAt ← addU64 now n.swim.protocolPeriod
  { n with nextRoundAt, lastRound := some now }.missProbe now

def round (n : Node) (now : Nat) : Option Node := do
  let n ← n.openRound now
  let n ← n.applyPolicy now
  let n ← n.applyShares decay now
  let n ← n.reportDemand now
  let n ← n.followChanges now
  let stale ← n.staleAfter n.allocationSize
  let n := { n with peerDemand := n.peerDemand.expire now (satAdd stale (holdOf n.policy)) }
  let (target, n) ← n.chooseTarget now
  match target with
  | some target => n.ping target now
  | none => some n

/- SWIM's indirect probe, once the direct one has gone unanswered for a while. -/
def askHelpers (target : PeerId) (seq : UInt32) : List PeerId → Node → Option Node
  | [], n => some n
  | helper :: rest, n => do
    let (updates, n) ← n.outgoing helper
    let n ← n.send helper (.pingReq seq target updates n.outgoingDemand)
    askHelpers target seq rest n

def escalate (n : Node) (now : Nat) : Option Node :=
  match n.probe with
  | none => some n
  | some probe =>
    if probe.helpers.isSome then some n
    else do
      let due ← addU64 probe.sentAt n.swim.ackTimeout
      if now < due then some n
      else
        let candidates := n.members.live.filter fun peer =>
          peer ≠ probe.target && n.members.status peer = some .alive
        let (shuffled, rng) ← n.rng.shuffle candidates
        let helpers := shuffled.take n.swim.indirectProbes
        let n ← askHelpers probe.target probe.seq helpers { n with rng }
        some { n with probe := n.probe.map fun probe => { probe with helpers := some helpers } }

def spreadAll (n : Node) (updates : List Update) : Option Node :=
  updates.foldlM (fun n update => n.spread update) n

/- What every tick does first: what has timed out goes. -/
def timeOut (n : Node) (now : Nat) : Option Node := do
  let (expired, members) ← n.members.expireSuspects now n.swim.suspicionTimeout
  let n ← { n with members }.spreadAll expired
  let n := { n with introducing := n.introducing.filter fun peer _ => n.isLive peer }
  let (forgotten, members) := n.members.forgetDead now n.swim.tombstoneTtl
  some { n with
    members
    lastHeard := if 0 < forgotten then n.lastHeard.filter fun peer _ => (members.status peer).isSome
      else n.lastHeard
    behind := if 0 < forgotten then n.behind.filter fun peer => (members.status peer).isSome
      else n.behind
    relays := n.relays.filter fun _ relay => now < relay.expiresAt }

def tick (n : Node) (now : Nat) : Option Node := do
  let n ← n.timeOut now
  let n ← (if n.nextRoundAt ≤ now then n.round decay now else some n)
  n.escalate now

/- One piece of news heard. -/
def learn (n : Node) (update : Update) (now : Nat) : Option Node := do
  let (applied, members) ← n.members.apply update now
  let n := { n with members }
  match applied with
  | .ignored => some n
  | .refused =>
    if update.status = .dead then some n
    else
      let n := { n with lastRefusedAt := some now }
      if n.held.membersFull then some n else n.refreshCap now
  | .accepted _ => n.spread update
  | .refuted alive => do
    let identityConflicts ← (if update.status = .alive then addU64 n.identityConflicts 1
      else some n.identityConflicts)
    { n with identityConflicts }.spread alive

def learnAll (n : Node) (updates : List Update) (now : Nat) : Option Node :=
  updates.foldlM (fun n update => n.learn update now) n

/- A peer that left on purpose admits nothing more: whatever is held for it is released. -/
def depart (n : Node) (peer : PeerId) : Node :=
  let (marked, members) := n.members.depart peer
  if !marked then n
  else
    let n := { n with
      members
      behind := n.behind.erase peer
      introducing := n.introducing.erase peer
      peerDemand := n.peerDemand.forget peer
      lastHeard := n.lastHeard.erase peer
      sizes := match members.joinedAt peer with
        | some since => n.sizes.forgetOne since
        | none => n.sizes }
    { n with quorumSize := max (n.quorumSize - 1) n.knownForQuorum }

/- Takes in a peer's report, if there is one. -/
def store (n : Node) (peer : PeerId) (report : Option DemandReport) (now : Nat) :
    Option PeerDemand :=
  match report with
  | some report => n.peerDemand.apply peer report now
  | none => some n.peerDemand

def acknowledged (n : Node) (sender : PeerId) (seq : UInt32) (demand : List DemandReport)
    (now : Nat) : Option Node :=
  let answers := n.probe.filter fun probe => probe.seq = seq &&
    (sender = probe.target || probe.helpers.any (·.contains sender))
  match answers with
  | some probe => do
    let byHelper := probe.helpers.any (·.contains sender)
    let report := if byHelper && !n.members.hasDeparted probe.target
      then demand.find? (·.origin == probe.target) else none
    let peerDemand ← n.store probe.target report now
    some { n with peerDemand, probe := none }
  | none =>
    match n.relays[seq]? with
    | some relay =>
      if relay.target = sender then do
        let n := { n with relays := n.relays.erase seq }
        let theirs := demand.filter (·.origin == sender)
        let (updates, n) ← n.outgoing relay.requester
        n.send relay.requester (.ack relay.seq updates theirs)
      else some n
    | none => some n

def relay (n : Node) (requester : PeerId) (seq : UInt32) (target : PeerId) (now : Nat) :
    Option Node :=
  if target = n.members.localId then n.ack requester seq
  else do
    let (own, n) := n.nextSeq
    let expiresAt ← addU64 now n.swim.protocolPeriod
    let n := { n with relays := n.relays.insert own ⟨requester, seq, target, expiresAt⟩ }
    let (updates, n) ← n.outgoing target
    n.send target (.ping own updates n.outgoingDemand)

/- A leave says one thing, about its own sender. -/
def wellFormedLeave (sender : PeerId) : Message → Bool
  | .leave updates =>
    match updates with
    | [own] => own.member = sender && own.status = .dead
    | _ => false
  | _ => true

/- Whether the sender opens with an Alive of itself older than the one held. -/
def opensBehind (n : Node) (sender : PeerId) (message : Message) : Bool :=
  match message.updates.head?, n.members.updateAbout sender with
  | some own, some held =>
    own.member = sender && own.status = .alive && held.status = .alive &&
      own.incarnation < held.incarnation
  | _, _ => false

/- What a message that is no leave does once its news is learned, before its answer. -/
def hear (n : Node) (sender : PeerId) (newcomer : Bool) (message : Message) (now : Nat) :
    Option Node := do
  let introducing := if newcomer && n.members.status sender = some .alive
    then n.introducing.insert sender none else n.introducing
  let known := (n.members.status sender).isSome
  let lastHeard := if known then n.lastHeard.insert sender now else n.lastHeard
  let report := if known && !n.members.hasDeparted sender
    then message.demand.find? (·.origin == sender) else none
  let peerDemand ← n.store sender report now
  some { n with introducing, lastHeard, peerDemand }

def answer (n : Node) (sender : PeerId) (message : Message) (now : Nat) : Option Node :=
  match message with
  | .ping seq _ _ => n.ack sender seq
  | .ack seq _ demand => n.acknowledged sender seq demand now
  | .pingReq seq target _ _ => n.relay sender seq target now
  | .leave _ => none

def receiveMessage (n : Node) (sender : PeerId) (message : Message) (now : Nat) :
    Option Node := do
  let n := { n with behind := if n.opensBehind sender message then n.behind.insert sender
    else n.behind.erase sender }
  let newcomer := !n.isLive sender
  let n ← n.learnAll message.updates now
  match message with
  | .leave _ => some (n.depart sender)
  | message => do
    let n ← n.hear sender newcomer message now
    n.answer sender message now

def receive (n : Node) (sender : PeerId) (bytes : List UInt8) (now : Nat) : Option Node :=
  if sender = n.members.localId then some n
  else match decode bytes with
    | .error _ => some n
    | .ok message =>
      if wellFormedLeave sender message then n.receiveMessage sender message now else some n

/- The datagrams to send are the actions of the state it gives. -/
def handle (n : Node) (event : Event) (now : Nat) : Option Node := do
  let n ← n.advance now
  let n := { n with actions := [] }
  if n.left then some n
  else match event with
    | .tick => n.tick decay now
    | .messageReceived sender bytes => n.receive sender bytes now

end Demand

def sendLeave (own : Update) : List PeerId → Node → Option Node
  | [], n => some n
  | peer :: rest, n => do
    let n ← n.send peer (.leave [own])
    let n ← n.send peer (.leave [own])
    sendLeave own rest n

def leave (n : Node) (now : Nat) : Option Node := do
  let n ← n.advance now
  let n := { n with actions := [] }
  if n.left then some n
  else do
    let n := { n with left := true }
    let own ← n.members.updateAbout n.members.localId
    sendLeave { own with status := .dead } n.members.live n

end Node
end Rateguard
