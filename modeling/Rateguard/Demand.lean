import Rateguard.Words

/- A key's demand, in exact arithmetic. The weight of the past after some elapsed time, the
   exponential of minus that time over the time constant, is a parameter: decay elapsed
   timeConstant. -/
namespace Rateguard

structure Demand where
  currentRate : ℚ
  attemptsSinceTick : Nat
  lastTick : Option Nat
  since : Option Nat
  timeConstant : Nat
  deriving DecidableEq, Repr

def Demand.new (timeConstant : Nat) : Demand := ⟨0, 0, none, none, timeConstant⟩

def Demand.startingAt (timeConstant now : Nat) : Demand :=
  { Demand.new timeConstant with lastTick := some now, since := some now }

/- none is an overflow of the count. -/
def Demand.recordAttempts (d : Demand) (n : Nat) : Option Demand :=
  (addU64 d.attemptsSinceTick n).map fun attempts => { d with attemptsSinceTick := attempts }

def Demand.recordAttempt (d : Demand) : Option Demand := d.recordAttempts 1

def Demand.tick (decay : Nat → Nat → ℚ) (d : Demand) (now : Nat) : Demand :=
  match d.lastTick with
  | none => { d with lastTick := some now, since := some now }
  | some last =>
    let elapsed := now - last
    if elapsed = 0 then d
    else
      let elapsedSecs : ℚ := elapsed / 1000000000
      let instantaneousRate : ℚ := d.attemptsSinceTick / elapsedSecs
      let alpha := 1 - decay elapsed d.timeConstant
      { d with
        currentRate := alpha * instantaneousRate + (1 - alpha) * d.currentRate
        attemptsSinceTick := 0
        lastTick := some now }

def Demand.hasPending (d : Demand) : Bool := 0 < d.attemptsSinceTick

def Demand.rate (d : Demand) : ℚ := d.currentRate

def Demand.unbiasedRate (decay : Nat → Nat → ℚ) (d : Demand) : ℚ :=
  match d.since, d.lastTick with
  | some since, some last =>
    let measured := last - since
    if measured = 0 then 0 else d.currentRate / (1 - decay measured d.timeConstant)
  | _, _ => 0

end Rateguard
