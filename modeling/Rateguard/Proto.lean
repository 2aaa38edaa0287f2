import Rateguard.Words

/- The messages of the protocol, as values. -/
namespace Rateguard

abbrev PeerId := UInt64

/- In the order of precedence within one incarnation. -/
inductive Status where
  | alive
  | suspect
  | dead
  deriving DecidableEq, Repr

def Status.rank : Status → Nat
  | .alive => 0
  | .suspect => 1
  | .dead => 2

inductive Address where
  | v4 (ip : Vector UInt8 4) (port : UInt16)
  | v6 (ip : Vector UInt8 16) (port : UInt16)
  deriving DecidableEq, Repr

structure Update where
  member : UInt64
  addr : Address
  incarnation : UInt32
  status : Status
  deriving DecidableEq, Repr

/- (incarnation, status), ordered as the pair is: a status is below 3. -/
def Update.rank (update : Update) : Nat := update.incarnation.toNat * 3 + update.status.rank

/- none is the failed assertion: the two are about different members. -/
def Update.supersedes (update other : Update) : Option Bool :=
  if update.member = other.member then
    some (decide (other.incarnation < update.incarnation) ||
      decide (other.incarnation = update.incarnation) &&
        decide (other.status.rank < update.status.rank))
  else none

theorem Status.rank_lt (status : Status) : status.rank < 3 := by cases status <;> decide

theorem Status.rank_inj {one two : Status} (h : one.rank = two.rank) : one = two := by
  cases one <;> cases two <;> first | rfl | exact absurd h (by decide)

/- supersedes is the strict order of the rank. -/
theorem Update.supersedes_eq {update other : Update} (same : update.member = other.member) :
    update.supersedes other = some (decide (other.rank < update.rank)) := by
  have lower := other.status.rank_lt
  have upper := update.status.rank_lt
  simp only [supersedes, same, ↓reduceIte, Option.some.injEq]
  rw [← Bool.decide_and, ← Bool.decide_or, decide_eq_decide]
  simp only [Update.rank, UInt32.lt_iff_toNat_lt, ← UInt32.toNat_inj]
  omega

theorem Update.eq_of_rank {one two : Update} (member : one.member = two.member)
    (addr : one.addr = two.addr) (rank : one.rank = two.rank) : one = two := by
  have first := one.status.rank_lt
  have second := two.status.rank_lt
  simp only [Update.rank] at rank
  have incarnation : one.incarnation = two.incarnation := by
    rw [← UInt32.toNat_inj]
    omega
  have status : one.status = two.status := Status.rank_inj (by omega)
  cases one
  cases two
  simp_all

end Rateguard
