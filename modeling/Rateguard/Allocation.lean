import Mathlib

/- One node's share of one hot key's limit, in exact arithmetic: the floor plus a slice of
   the rest in proportion to its part of the demand. -/
namespace Rateguard

structure View where
  limit : ℚ
  clusterSize : Nat
  floorFactor : ℚ
  own : ℚ
  others : ℚ

def share (view : View) : ℚ :=
  let n : ℚ := view.clusterSize
  let even := view.limit / n
  let total := view.own + view.others
  if 0 < total then
    view.limit * view.floorFactor / n + view.limit * (1 - view.floorFactor) * (view.own / total)
  else even

end Rateguard
