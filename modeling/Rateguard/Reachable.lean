import Rateguard.Node

/- Runs of a node: its public operations in any order, and the order its map of keys is
   visited in, which may change between any two. -/
namespace Rateguard

inductive Op where
  | introduce (peer : PeerId) (addr : Address)
  | addSeed (seed : PeerId) (addr : Address)
  | removeSeed (seed : PeerId)
  | expectPeers (expected : Bool)
  | setPartitionPolicy (policy : PartitionPolicy)
  | setQuorumMemory (memory : Nat)
  | setMaxMembers (max : Nat)
  | record (key : UInt64) (tally : Tally) (limit : Limit) (now : Nat)
  | checkIn (key : UInt64) (limit : Limit) (now : Nat)
  | checkInTraced (key : UInt64) (limit : Limit) (shadow : Option Limit) (now : Nat)
  | handle (event : Event) (now : Nat)
  | leave (now : Nat)
  | rehash (keys : List (UInt64 × KeyState))

def Node.rehash (n : Node) (keys : List (UInt64 × KeyState)) : Option Node :=
  if keys.Perm n.limiter.keys then some { n with limiter := { n.limiter with keys } } else none

def Node.step (decay : Nat → Nat → ℚ) (n : Node) : Op → Option Node
  | .introduce peer addr => n.introduce peer addr
  | .addSeed seed addr => n.addSeed seed addr
  | .removeSeed seed => n.removeSeed seed
  | .expectPeers expected => n.expectPeers expected
  | .setPartitionPolicy policy => n.setPartitionPolicy policy
  | .setQuorumMemory memory => some (n.setQuorumMemory memory)
  | .setMaxMembers max => n.setMaxMembers max
  | .record key tally limit now => n.record key tally limit now
  | .checkIn key limit now => (n.checkIn key limit now).map (·.2)
  | .checkInTraced key limit shadow now => (n.checkInTraced key limit shadow now).map (·.2)
  | .handle event now => n.handle decay event now
  | .leave now => n.leave now
  | .rehash keys => n.rehash keys

def Node.run (decay : Nat → Nat → ℚ) (n : Node) (ops : List Op) : Option Node :=
  ops.foldlM (fun n op => n.step decay op) n

/- The states a node reaches through operations that return. -/
inductive Reachable (decay : Nat → Nat → ℚ) : Node → Prop
  | start (config : Config) (swim : SwimConfig) (localId : PeerId) (addr : Address)
      (seed : UInt64) (n : Node) : Node.new config swim localId addr seed = some n →
      Reachable decay n
  | step (n : Node) (op : Op) (n' : Node) : Reachable decay n → n.step decay op = some n' →
      Reachable decay n'

theorem Reachable.run {decay : Nat → Nat → ℚ} {n n' : Node} (reached : Reachable decay n)
    {ops : List Op} (h : n.run decay ops = some n') : Reachable decay n' := by
  induction ops generalizing n with
  | nil =>
    simp only [Node.run, List.foldlM_nil, Option.pure_def, Option.some.injEq] at h
    exact h ▸ reached
  | cons op rest ih =>
    simp only [Node.run, List.foldlM_cons, bind, Option.bind_eq_some_iff] at h
    obtain ⟨u, first, h⟩ := h
    exact ih (reached.step n op u first) h

/- Runs with a record kept beside the node: what a claim about a whole run speaks of, and what
   each step of the run is allowed to do. -/
section
variable {α : Type} (decay : Nat → Nat → ℚ) (note : Node → α → Op → α)

inductive Recorded (blank : α) (allowed : Node → α → Op → Prop) : Node → α → Prop
  | start (config : Config) (swim : SwimConfig) (localId : PeerId) (addr : Address)
      (seed : UInt64) (n : Node) : Node.new config swim localId addr seed = some n →
      Recorded blank allowed n blank
  | step (n : Node) (record : α) (op : Op) (n' : Node) : Recorded blank allowed n record →
      allowed n record op → n.step decay op = some n' →
      Recorded blank allowed n' (note n record op)

/- A run by its operations; none where a step is not allowed. -/
def Node.runRecorded (allowed : Node → α → Op → Prop)
    [∀ n record op, Decidable (allowed n record op)] (n : Node) (record : α) :
    List Op → Option (Node × α)
  | [] => some (n, record)
  | op :: rest =>
    if allowed n record op then do
      let n' ← n.step decay op
      runRecorded allowed n' (note n record op) rest
    else none

variable {decay note}

theorem Recorded.reachable {blank : α} {allowed : Node → α → Op → Prop} {n : Node} {record : α}
    (h : Recorded decay note blank allowed n record) : Reachable decay n := by
  induction h with
  | start config swim localId addr seed n h => exact .start config swim localId addr seed n h
  | step n record op n' _ _ h ih => exact .step n op n' ih h

theorem Recorded.run {blank : α} {allowed : Node → α → Op → Prop}
    [∀ n record op, Decidable (allowed n record op)] {n n' : Node} {record record' : α}
    {ops : List Op} (h : Recorded decay note blank allowed n record)
    (ran : Node.runRecorded decay note allowed n record ops = some (n', record')) :
    Recorded decay note blank allowed n' record' := by
  induction ops generalizing n record with
  | nil =>
    simp only [Node.runRecorded, Option.some.injEq, Prod.mk.injEq] at ran
    obtain ⟨rfl, rfl⟩ := ran
    exact h
  | cons op rest ih =>
    simp only [Node.runRecorded, bind, Option.ite_none_right_eq_some,
      Option.bind_eq_some_iff] at ran
    obtain ⟨proper, u, first, ran⟩ := ran
    exact ih (h.step n record op u proper first) ran

end

/- A node to run theorems on, with a protocol period of 200 ms, and its peers' addresses. -/
def sampleAddress (host : UInt8) : Address := .v4 #v[10, 0, 0, host] 7946

def sampleDecay : Nat → Nat → ℚ := fun _ _ => 1 / 2

def ms (n : Nat) : Nat := n * 1000000

def Node.sample (localId : PeerId) (host : UInt8) : Option Node :=
  Node.new ⟨⟨100, 10⟩, 1 / 2, 1 / 10, ms 5000, 64, 1024, ms 1000⟩
    ⟨ms 200, ms 100, 3, ms 6000, ms 2000, ms 600000⟩ localId (sampleAddress host) 7

/- A message from a peer, at its time. -/
def sampleOp (sender : PeerId) (message : Message) (now : Nat) : Op :=
  .handle (.messageReceived sender (messageCodec.enc message)) now

theorem Reachable.sample {localId : PeerId} {host : UInt8} {start n : Node} {ops : List Op}
    (fresh : Node.sample localId host = some start) (h : start.run sampleDecay ops = some n) :
    Reachable sampleDecay n :=
  Reachable.run (.start _ _ _ _ _ start fresh) h

end Rateguard
