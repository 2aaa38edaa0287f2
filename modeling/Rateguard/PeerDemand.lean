import Rateguard.Wire

/- What the peers told of their demand: the latest snapshot of each, and whatever else they
   were heard to say within the stale window. -/
namespace Rateguard
open Std (ExtTreeMap)

structure Heard where
  demand : F32
  primary : Bool
  round : UInt16
  heardAt : Nat
  deriving DecidableEq, Repr

/- Rounds wrap: a is newer if it is less than half the circle ahead. -/
def roundIsNewer (a b : UInt16) : Bool := a != b && decide ((a - b).toNat < 0x8000)

/- none is an overflow. -/
def staleAfterRounds (clusterSize : Nat) : Option Nat := (mulU64 3 clusterSize).map (max · 10)

def pastEpochsKept : Nat := 4
def maxContested : Nat := 4 * maxMessageKeys
def implausibleJump : Nat := 0x4000

abbrev ReportedKeys := ExtTreeMap UInt64 (F32 × Bool)

structure Snapshot where
  epoch : UInt32
  pastEpochs : List UInt32
  round : UInt16
  heardAt : Nat
  keys : ReportedKeys
  deriving DecidableEq

structure Contested where
  demand : F32
  primary : Bool
  round : UInt16
  heardAt : Nat
  deriving DecidableEq, Repr

structure Peer where
  snapshot : Option Snapshot
  contested : ExtTreeMap UInt64 Contested
  heldUntil : Option Nat
  deriving DecidableEq

def Peer.default : Peer := ⟨none, ∅, none⟩

/- What one contested key becomes when a report repeats it. -/
def Contested.merge (entry : Contested) (demand : F32) (primary : Bool) (round : UInt16)
    (heardAt : Nat) : Contested :=
  let entry := if entry.demand.lt demand then { entry with demand, round } else entry
  { entry with primary := entry.primary || primary, heardAt := max entry.heardAt heardAt }

def heardEarlier (a b : UInt64 × Contested) : Bool :=
  a.2.heardAt < b.2.heardAt || a.2.heardAt = b.2.heardAt && a.1 < b.1

/- The contested key heard longest ago, the least among equals. -/
def oldestContested (contested : ExtTreeMap UInt64 Contested) : Option UInt64 :=
  match contested.toList with
  | [] => none
  | first :: rest =>
    some (rest.foldl (fun best entry => if heardEarlier entry best then entry else best) first).1

/- none is the failed expect. -/
def dropOldest : Nat → ExtTreeMap UInt64 Contested → Option (ExtTreeMap UInt64 Contested)
  | 0, contested => some contested
  | n + 1, contested => do
    let oldest ← oldestContested contested
    dropOldest n (contested.erase oldest)

def Peer.contest (peer : Peer) (keys : ReportedKeys) (round : UInt16) (heardAt : Nat) :
    Option Peer := do
  let contested := keys.toList.foldl (fun contested (key, demand, primary) =>
    match contested[key]? with
    | some entry => contested.insert key (entry.merge demand primary round heardAt)
    | none => contested.insert key ⟨demand, primary, round, heardAt⟩) peer.contested
  let contested ← dropOldest (contested.size - maxContested) contested
  some { peer with contested }

/- The snapshot's word on the key and the contested one, whichever is higher. -/
def Peer.heard (peer : Peer) (key : UInt64) : Option Heard :=
  let taken := peer.snapshot.bind fun snapshot =>
    snapshot.keys[key]?.map fun (demand, primary) =>
      (⟨demand, primary, snapshot.round, snapshot.heardAt⟩ : Heard)
  let contested := peer.contested[key]?.map fun entry =>
    (⟨entry.demand, entry.primary, entry.round, entry.heardAt⟩ : Heard)
  match taken, contested with
  | some taken, some contested =>
    let higher := if taken.demand.lt contested.demand then contested else taken
    some { higher with primary := taken.primary || contested.primary }
  | some taken, none => some taken
  | none, contested => contested

structure PeerDemand where
  peers : ExtTreeMap PeerId Peer
  deriving DecidableEq

def PeerDemand.new : PeerDemand := ⟨∅⟩

/- The keys of a report, the last of a key's entries counting. -/
def DemandReport.keyMap (report : DemandReport) : ReportedKeys :=
  report.keys.foldl (fun keys key => keys.insert key.keyHash (key.demand, key.primary)) ∅

/- Whether two reports name the same keys with equal demands, as floats compare. -/
def sameKeys (a b : ReportedKeys) : Bool :=
  a.size = b.size && a.toList.all fun (key, demand, primary) =>
    b[key]?.any fun other => demand.same other.1 && primary == other.2

def PeerDemand.apply (d : PeerDemand) (sender : PeerId) (report : DemandReport) (now : Nat) :
    Option PeerDemand :=
  if report.origin ≠ sender then some d
  else
    let keys := report.keyMap
    let peer := d.peers[sender]?.getD Peer.default
    match peer.snapshot with
    | none =>
      some ⟨d.peers.insert sender { peer with
        snapshot := some ⟨report.epoch, [], report.round, now, keys⟩, heldUntil := none }⟩
    | some old =>
      let sameEpoch : Bool := old.epoch = report.epoch
      let taken := !old.pastEpochs.contains report.epoch &&
        (!sameEpoch || roundIsNewer report.round old.round)
      if !taken then
        let duplicate := sameEpoch && old.round == report.round && sameKeys old.keys keys
        if duplicate then some ⟨d.peers.insert sender peer⟩
        else (peer.contest keys report.round now).map fun peer => ⟨d.peers.insert sender peer⟩
      else
        let pastEpochs := if sameEpoch then old.pastEpochs
          else old.epoch :: old.pastEpochs.take (pastEpochsKept - 1)
        let keepReplaced := if sameEpoch then decide (implausibleJump ≤ (report.round - old.round).toNat)
          else true
        let peer := { peer with snapshot := some ⟨report.epoch, pastEpochs, report.round, now, keys⟩ }
        (if keepReplaced then peer.contest old.keys old.round old.heardAt else some peer).map
          fun peer => ⟨d.peers.insert sender { peer with heldUntil := none }⟩

def PeerDemand.forget (d : PeerDemand) (peer : PeerId) : PeerDemand := ⟨d.peers.erase peer⟩

def PeerDemand.leave (d : PeerDemand) (peer : PeerId) (now hold : Nat) : PeerDemand :=
  if hold = 0 then d.forget peer
  else match d.peers[peer]? with
    | some heard => ⟨d.peers.insert peer { heard with heldUntil := some (satAdd now hold) }⟩
    | none => d

/- What is left of a peer after its stale entries go; none if nothing is. -/
def Peer.expire (peer : Peer) (now maxAge : Nat) : Option Peer :=
  let fresh := fun heardAt => decide (now < satAdd heardAt maxAge)
  match peer.heldUntil with
  | some til => if now < til then some peer else none
  | none =>
    let snapshot := peer.snapshot.filter fun snapshot => fresh snapshot.heardAt
    let contested := peer.contested.filter fun _ entry => fresh entry.heardAt
    if snapshot.isSome || !contested.isEmpty then some { peer with snapshot, contested } else none

def PeerDemand.expire (d : PeerDemand) (now maxAge : Nat) : PeerDemand :=
  ⟨d.peers.filterMap fun _ peer => peer.expire now maxAge⟩

def PeerDemand.get (d : PeerDemand) (peer : PeerId) (key : UInt64) : Option Heard :=
  d.peers[peer]?.bind (·.heard key)

/- The demand all peers reported for the key, in exact arithmetic. -/
def PeerDemand.total (d : PeerDemand) (key : UInt64) : ℚ :=
  ((d.peers.toList.filterMap fun entry => entry.2.heard key).map (·.demand.value)).sum

def PeerDemand.hotElsewhere (d : PeerDemand) (key : UInt64) : Bool :=
  d.peers.toList.any fun entry => (entry.2.heard key).any (·.primary)

end Rateguard
