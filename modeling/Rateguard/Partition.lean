import Rateguard.Words

/- What a node does when its cluster shrinks. -/
namespace Rateguard

inductive PartitionPolicy where
  | optimistic
  | holdDown (hold : Nat)
  | quorum
  deriving DecidableEq, Repr

def PartitionPolicy.default : PartitionPolicy := .holdDown (10 * 1000000000)

def holdOf : PartitionPolicy → Nat
  | .holdDown hold => hold
  | .optimistic | .quorum => 0

def hasQuorum (alive known : Nat) : Bool := known < 2 * alive

/- The sizes seen, each at its time, the oldest first. -/
structure SizeHistory where
  window : Nat
  samples : List (Nat × Nat)
  deriving DecidableEq, Repr

def SizeHistory.new (window : Nat) : SizeHistory := ⟨window, []⟩

/- Drops what has left the window, never the last sample. -/
def dropOld (window now : Nat) : List (Nat × Nat) → List (Nat × Nat)
  | first :: second :: rest =>
    if satAdd first.1 window ≤ now then dropOld window now (second :: rest)
    else first :: second :: rest
  | short => short

/- The largest size of the window that ends now; none is the failed expect of the maximum. -/
def SizeHistory.record (h : SizeHistory) (now size : Nat) : Option (Nat × SizeHistory) := do
  let samples := dropOld h.window now (h.samples ++ [(now, size)])
  let largest ← (samples.map (·.2)).max?
  some (largest, { h with samples })

def forgetIn (since : Nat) (sample : Nat × Nat) : Nat × Nat :=
  if since ≤ sample.1 then (sample.1, max (sample.2 - 1) 1) else sample

/- Takes one node out of every size recorded at since or later. -/
def SizeHistory.forgetOne (h : SizeHistory) (since : Nat) : SizeHistory :=
  { h with samples := h.samples.map (forgetIn since) }

end Rateguard
