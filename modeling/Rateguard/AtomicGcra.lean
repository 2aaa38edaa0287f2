import Rateguard.Gcra
import Rateguard.OptimisticUpdate

/- The bucket for many threads: the quota in one word, the TAT in another, 0 for never admitted.
   Each loop takes how often its compare-and-swap fails for no reason; none is a panic. -/
namespace Rateguard

def unitBits : Nat := 2
def unitShift : UInt64 := 22
def intervalShift : UInt64 := 24

/- The unreachable! of the encoding is not reached: every quota's interval has a code. -/
def Quota.code (q : Quota) : Nat × Nat :=
  (encodeInterval q.interval).get (encodeInterval_some q.interval_le)

def Quota.pack (q : Quota) : UInt64 :=
  (UInt64.ofNat q.code.1 <<< intervalShift) ||| (UInt64.ofNat q.code.2 <<< unitShift) |||
    UInt64.ofNat q.burst

def packedInterval (packed : UInt64) : Nat := (packed >>> intervalShift).toNat
def packedUnit (packed : UInt64) : Nat := ((packed >>> unitShift) &&& 3).toNat
def packedBurst (packed : UInt64) : Nat := (packed &&& UInt64.ofNat maxBurst).toNat

def Quota.unpack (packed : UInt64) : Option Quota := do
  let nanos ← unitNanos[packedUnit packed]?
  Quota.withInterval (satMul (packedInterval packed) nanos) (packedBurst packed)

/- The unused code is read as milliseconds. -/
def decodeUnitNanos : List Nat := [1, 1000, 1000000, 1000000]

/- At most 2^40 × 10^6: the product does not overflow. -/
def Quota.decode (packed : UInt64) : Nat × Nat :=
  let t := packedInterval packed * decodeUnitNanos.getD (packedUnit packed) 0
  (t, tau t (packedBurst packed))

/- One attempt on a TAT seen: denied at once, or the TAT to swap in. -/
def attempt (packed : UInt64) (now seen : Nat) : Except Decision (Decision × Nat) :=
  let (t, tau) := Quota.decode packed
  let earliest := seen - tau
  if now < earliest then .error (.deny earliest) else .ok (.allow, satAdd (max seen now) t)

namespace AtomicGcra

def step (packed : UInt64) (now tat : Nat) : Nat → Decision × Nat
  | 0 => match attempt packed now tat with
    | .error denied => (denied, tat)
    | .ok taken => taken
  | fails + 1 => match attempt packed now tat with
    | .error denied => (denied, tat)
    | .ok _ => step packed now tat fails

def rescaleFrom (old new : Quota) (now seen : Nat) : Nat → Nat
  | 0 => carryTat seen old new now
  | fails + 1 => rescaleFrom old new now seen fails

def rescale (tat : Nat) (old new : Quota) (now fails : Nat) : Nat :=
  if old = new then tat else rescaleFrom old new now tat fails

end AtomicGcra

structure AtomicGcra where
  quota : UInt64
  tat : Nat
  deriving DecidableEq

namespace AtomicGcra

def new (quota : Quota) : AtomicGcra := ⟨quota.pack, 0⟩

def check (a : AtomicGcra) (now fails : Nat) : Decision × AtomicGcra :=
  let (decision, tat) := step a.quota now a.tat fails
  (decision, { a with tat })

def setQuota (a : AtomicGcra) (quota : Quota) (now fails : Nat) : Option AtomicGcra :=
  if a.quota = quota.pack then some a
  else do
    let old ← Quota.unpack a.quota
    some ⟨quota.pack, rescale a.tat old quota now fails⟩

def hasDebt (a : AtomicGcra) (now : Nat) : Bool := decide (now < a.tat)

end AtomicGcra

/- One that only counts; its quota word is 0 when it is off. -/
structure ShadowGcra where
  quota : UInt64
  tat : Nat
  deriving DecidableEq

namespace ShadowGcra

def new : ShadowGcra := ⟨0, 0⟩

def set (s : ShadowGcra) (quota : Option Quota) (now fails : Nat) : Option ShadowGcra :=
  let packed := (quota.map Quota.pack).getD 0
  if s.quota = packed then some s
  else match quota with
    | some new =>
      if s.quota ≠ 0 then do
        let old ← Quota.unpack s.quota
        some ⟨packed, AtomicGcra.rescale s.tat old new now fails⟩
      else some ⟨packed, 0⟩
    | none => some ⟨packed, 0⟩

def check (s : ShadowGcra) (now fails : Nat) : Option Decision × ShadowGcra :=
  if s.quota = 0 then (none, s)
  else
    let (decision, tat) := AtomicGcra.step s.quota now s.tat fails
    (some decision, { s with tat })

def reset (_ : ShadowGcra) : ShadowGcra := ⟨0, 0⟩

end ShadowGcra

/- The word: what is packed is what is read. -/
theorem Quota.code_some (q : Quota) : encodeInterval q.interval = some q.code :=
  (Option.some_get _).symm

theorem Quota.code_spec (q : Quota) : q.code.1 < 2 ^ intervalBits ∧ q.code.2 < 3 ∧
    intervalOf q.code.1 q.code.2 = q.interval := by
  have coded : encodeIn q.interval unitNanos 0 = some (q.code.1, q.code.2) := q.code_some
  obtain ⟨_, mem, fits, _, _⟩ := encodeIn_code coded
  refine ⟨fits, ?_, ?_⟩
  · by_contra out
    have none : unitNanos.getD q.code.2 0 = 0 :=
      List.getD_eq_default unitNanos 0 (by simp [unitNanos]; omega)
    have pos := unitNanos_pos mem
    rw [Nat.sub_zero, none] at pos
    omega
  · obtain ⟨code, encoded, same⟩ := q.rounded
    rw [q.code_some] at encoded
    rw [Option.some.inj encoded]
    exact same

theorem Quota.pack_toNat (q : Quota) :
    q.pack.toNat = 2 ^ 24 * q.code.1 + 2 ^ 22 * q.code.2 + q.burst := by
  obtain ⟨value, unit, _⟩ := q.code_spec
  have burst := q.burst_le
  simp only [intervalBits] at value
  simp only [maxBurst, burstBits] at burst
  have high : (UInt64.ofNat q.code.1 <<< intervalShift).toNat = 2 ^ 24 * q.code.1 := by
    rw [UInt64.toNat_shiftLeft, UInt64.toNat_ofNat_of_lt' (by simp [UInt64.size]; omega)]
    have shift : intervalShift.toNat % 64 = 24 := by decide
    rw [shift, Nat.shiftLeft_eq, Nat.mod_eq_of_lt (by omega), Nat.mul_comm]
  have middle : (UInt64.ofNat q.code.2 <<< unitShift).toNat = 2 ^ 22 * q.code.2 := by
    rw [UInt64.toNat_shiftLeft, UInt64.toNat_ofNat_of_lt' (by simp [UInt64.size]; omega)]
    have shift : unitShift.toNat % 64 = 22 := by decide
    rw [shift, Nat.shiftLeft_eq, Nat.mod_eq_of_lt (by omega), Nat.mul_comm]
  have low : (UInt64.ofNat q.burst).toNat = q.burst :=
    UInt64.toNat_ofNat_of_lt' (by simp [UInt64.size]; omega)
  rw [Quota.pack, UInt64.toNat_or, UInt64.toNat_or, high, middle, low,
    ← Nat.two_pow_add_eq_or_of_lt (show 2 ^ 22 * q.code.2 < 2 ^ 24 by omega)]
  have both : 2 ^ 24 * q.code.1 + 2 ^ 22 * q.code.2 = 2 ^ 22 * (4 * q.code.1 + q.code.2) := by omega
  rw [both, ← Nat.two_pow_add_eq_or_of_lt (show q.burst < 2 ^ 22 by omega)]

theorem Quota.packedInterval_pack (q : Quota) : packedInterval q.pack = q.code.1 := by
  obtain ⟨_, unit, _⟩ := q.code_spec
  have burst := q.burst_le
  simp only [maxBurst, burstBits] at burst
  have shift : intervalShift.toNat % 64 = 24 := by decide
  rw [packedInterval, UInt64.toNat_shiftRight, shift, Nat.shiftRight_eq_div_pow, q.pack_toNat]
  omega

theorem Quota.packedUnit_pack (q : Quota) : packedUnit q.pack = q.code.2 := by
  obtain ⟨_, unit, _⟩ := q.code_spec
  have burst := q.burst_le
  simp only [maxBurst, burstBits] at burst
  have shift : unitShift.toNat % 64 = 22 := by decide
  have mask : (3 : UInt64).toNat = 2 ^ 2 - 1 := by decide
  rw [packedUnit, UInt64.toNat_and, UInt64.toNat_shiftRight, shift, Nat.shiftRight_eq_div_pow, mask,
    Nat.and_two_pow_sub_one_eq_mod, q.pack_toNat]
  omega

theorem Quota.packedBurst_pack (q : Quota) : packedBurst q.pack = q.burst := by
  have burst := q.burst_le
  simp only [maxBurst, burstBits] at burst
  have mask : (UInt64.ofNat maxBurst).toNat = 2 ^ 22 - 1 := by decide
  rw [packedBurst, UInt64.toNat_and, mask, Nat.and_two_pow_sub_one_eq_mod, q.pack_toNat]
  omega

theorem Quota.unpack_pack (q : Quota) : Quota.unpack q.pack = some q := by
  obtain ⟨_, unit, interval⟩ := q.code_spec
  have within : q.code.2 < unitNanos.length := unit
  have nanos : unitNanos[q.code.2]? = some (unitNanos.getD q.code.2 0) := by
    rw [List.getD_eq_getElem _ _ within, List.getElem?_eq_getElem within]
  have upper := q.interval_le
  have fits : satMul q.code.1 (unitNanos.getD q.code.2 0) = q.interval := by
    have whole : q.code.1 * unitNanos.getD q.code.2 0 = q.interval := interval
    have bound : maxInterval ≤ u64Max := by decide
    rw [satMul, whole]
    omega
  simp only [Quota.unpack, q.packedUnit_pack, q.packedInterval_pack, q.packedBurst_pack, nanos,
    bind, Option.bind_some, fits]
  exact q.withInterval_self

theorem Quota.decode_pack (q : Quota) : Quota.decode q.pack = (q.tNanos, q.tauNanos) := by
  obtain ⟨_, unit, interval⟩ := q.code_spec
  have nanos : decodeUnitNanos.getD q.code.2 0 = unitNanos.getD q.code.2 0 := by
    revert unit
    generalize q.code.2 = unit
    intro below
    interval_cases unit <;> rfl
  have whole : q.code.1 * unitNanos.getD q.code.2 0 = q.interval := interval
  rw [Quota.decode, q.packedUnit_pack, q.packedInterval_pack, q.packedBurst_pack, nanos, whole]
  rfl

theorem Quota.pack_inj {one two : Quota} (same : one.pack = two.pack) : one = two := by
  have unpacked := one.unpack_pack
  rw [same, two.unpack_pack] at unpacked
  exact (Option.some.inj unpacked).symm

/- 0 is no quota's word: the burst is in it. -/
theorem Quota.pack_ne_zero (q : Quota) : q.pack ≠ 0 := by
  intro zero
  have pos := q.burst_pos
  have word := q.pack_toNat
  rw [zero] at word
  simp at word
  omega

end Rateguard
