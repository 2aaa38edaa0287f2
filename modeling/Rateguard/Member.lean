import Rateguard.Proto
import Rateguard.Ascending

/- The member table: who is in the cluster, in which state and incarnation. A result of none
   is a panic: a failed expect or assertion, or the count of refusals overflowing. -/
namespace Rateguard
open Std (ExtTreeMap)
open AscendingList (binarySearch)

/- A peer entering or leaving the live ones. -/
inductive Change where
  | joined (peer : PeerId)
  | left (peer : PeerId)
  deriving DecidableEq, Repr

inductive Applied where
  | ignored
  | accepted (previous : Option Status)
  | refuted (update : Update)
  | refused
  deriving DecidableEq, Repr

structure Member where
  addr : Address
  incarnation : UInt32
  status : Status
  since : Nat
  joined : Nat
  departed : Bool
  deriving DecidableEq, Repr

def Member.update (member : Member) (peer : PeerId) : Update :=
  ⟨peer, member.addr, member.incarnation, member.status⟩

/- The news of a member, with another status. -/
def Member.accused (member : Member) (peer : PeerId) (status : Status) : Update :=
  { member.update peer with status }

def Member.isLive (member : Member) : Bool := member.status != .dead

structure MemberTable where
  localId : PeerId
  addr : Address
  incarnation : UInt32
  members : ExtTreeMap PeerId Member
  live : List PeerId
  changes : List Change
  max : Nat
  refused : Nat
  deriving DecidableEq

def usizeMax : Nat := 2 ^ 64 - 1

def MemberTable.new (localId : PeerId) (addr : Address) : MemberTable :=
  { localId, addr, incarnation := 0, members := ∅, live := [], changes := [],
    max := usizeMax, refused := 0 }

def MemberTable.setMax (t : MemberTable) (max : Nat) : Option MemberTable :=
  if 1 ≤ max then some { t with max } else none

/- The members known, the dead not yet forgotten and this node included. -/
def MemberTable.known (t : MemberTable) : Nat := t.members.size + 1

def MemberTable.status (t : MemberTable) (peer : PeerId) : Option Status :=
  if peer = t.localId then some .alive else t.members[peer]?.map (·.status)

def MemberTable.address (t : MemberTable) (peer : PeerId) : Option Address :=
  if peer = t.localId then some t.addr else t.members[peer]?.map (·.addr)

def MemberTable.ownUpdate (t : MemberTable) : Update := ⟨t.localId, t.addr, t.incarnation, .alive⟩

def MemberTable.updateAbout (t : MemberTable) (peer : PeerId) : Option Update :=
  if peer = t.localId then some t.ownUpdate else t.members[peer]?.map (·.update peer)

/- News of this node itself: refuted at a higher incarnation where it wins, answered with
   the current one where it is a stale accusation. No incarnation is above the last. -/
def MemberTable.refute (t : MemberTable) (news : Update) : Option (Applied × MemberTable) := do
  let newer ← news.supersedes t.ownUpdate
  if !newer then
    match news.status with
    | .alive => some (.ignored, t)
    | .suspect | .dead => some (.refuted t.ownUpdate, t)
  else if news.incarnation.toNat + 1 < 2 ^ 32 then
    let t := { t with incarnation := news.incarnation + 1 }
    some (.refuted t.ownUpdate, t)
  else some (.ignored, t)

/- Keeps the live list, and the log of its changes, up with one member. -/
def MemberTable.follow (t : MemberTable) (peer : PeerId) (wasLive isLive : Bool) :
    Option MemberTable :=
  match wasLive, isLive with
  | false, true =>
    match binarySearch t.live peer with
    | .error index => some { t with
        live := t.live.insertIdx index peer, changes := t.changes ++ [.joined peer] }
    | .ok _ => none
  | true, false =>
    match binarySearch t.live peer with
    | .ok index => some { t with
        live := t.live.eraseIdx index, changes := t.changes ++ [.left peer] }
    | .error _ => none
  | _, _ => some t

/- The record news leaves of a member held as current before it. -/
def record (current : Option Member) (update : Update) (now : Nat) : Member :=
  let wasLive := current.any (·.isLive)
  let isLive := update.status != .dead
  { addr := update.addr
    incarnation := update.incarnation
    status := update.status
    since := now
    joined := match current with
      | some member => if wasLive || !isLive then member.joined else now
      | none => now
    departed := false }

def MemberTable.apply (t : MemberTable) (update : Update) (now : Nat) :
    Option (Applied × MemberTable) :=
  let peer := update.member
  if peer = t.localId then t.refute update
  else do
    let current := t.members[peer]?
    let newer ← match current with
      | some member => update.supersedes (member.update peer)
      | none => some true
    if !newer then some (.ignored, t)
    else if current.isNone && decide (t.max ≤ t.known) then do
      let refused ← addU64 t.refused 1
      some (.refused, { t with refused })
    else do
      let told : MemberTable :=
        { t with members := t.members.insert peer (record current update now) }
      let t ← told.follow peer (current.any (·.isLive)) (update.status != .dead)
      some (.accepted (current.map (·.status)), t)

def MemberTable.suspect (t : MemberTable) (peer : PeerId) (now : Nat) :
    Option (Option Update × MemberTable) :=
  if peer = t.localId then none
  else match t.members[peer]? with
    | none => some (none, t)
    | some member =>
      if member.status = .alive then do
        let update := member.accused peer .suspect
        let (_, t) ← t.apply update now
        some (some update, t)
      else some (none, t)

/- Whether it was dead and not departed already. -/
def MemberTable.depart (t : MemberTable) (peer : PeerId) : Bool × MemberTable :=
  match t.members[peer]? with
  | some member =>
    if member.status = .dead && !member.departed then
      (true, { t with members := t.members.insert peer { member with departed := true } })
    else (false, t)
  | none => (false, t)

def MemberTable.hasDeparted (t : MemberTable) (peer : PeerId) : Bool :=
  t.members[peer]?.any (·.departed)

def MemberTable.joinedAt (t : MemberTable) (peer : PeerId) : Option Nat :=
  t.members[peer]?.map (·.joined)

/- The records of the members after one, in the order of IDs, that are not dead; the source
   takes them one at a time, each after the last. -/
def MemberTable.liveAfter (t : MemberTable) (after : Option PeerId) : List Update :=
  (t.members.toList.filter fun entry => after.all (· < entry.1) && entry.2.isLive).map fun entry =>
    entry.2.update entry.1

def MemberTable.nextLiveAfter (t : MemberTable) (after : Option PeerId) : Option Update :=
  (t.liveAfter after).head?

def MemberTable.dead (t : MemberTable) : List PeerId :=
  (t.members.toList.filter (·.2.status = .dead)).map (·.1)

/- Whether a member dead for ttl is to be kept. -/
def Member.remembered (now ttl : Nat) (member : Member) : Bool :=
  member.status != .dead || decide (now - member.since < ttl)

def MemberTable.forgetDead (t : MemberTable) (now ttl : Nat) : Nat × MemberTable :=
  let members := t.members.filter fun _ member => member.remembered now ttl
  (t.members.size - members.size, { t with members })

def MemberTable.applyAll (t : MemberTable) (updates : List Update) (now : Nat) :
    Option MemberTable :=
  updates.foldlM (fun t update => (t.apply update now).map (·.2)) t

/- The deaths of the suspects suspected for timeout. -/
def MemberTable.expired (t : MemberTable) (now timeout : Nat) : List Update :=
  (t.members.toList.filter fun entry =>
    entry.2.status = .suspect && decide (timeout ≤ now - entry.2.since)).map fun entry =>
      entry.2.accused entry.1 .dead

def MemberTable.expireSuspects (t : MemberTable) (now timeout : Nat) :
    Option (List Update × MemberTable) :=
  if 0 < timeout then
    (t.applyAll (t.expired now timeout) now).map fun after => (t.expired now timeout, after)
  else none

def MemberTable.drainChanges (t : MemberTable) : List Change × MemberTable :=
  (t.changes, { t with changes := [] })

/- N, the number of nodes sharing the limit, this one included. -/
def MemberTable.clusterSize (t : MemberTable) : Nat := t.live.length + 1

end Rateguard
