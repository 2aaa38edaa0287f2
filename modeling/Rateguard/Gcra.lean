import Rateguard.Words

/- The Generic Cell Rate Algorithm: quotas as the constructors make them, and one key's
   bucket kept as a single theoretical arrival time. -/
namespace Rateguard

def oneSec : Nat := 1000000000
def intervalBits : Nat := 40
def burstBits : Nat := 22

/- Nanoseconds in each unit an interval is counted in, by the unit's code. -/
def unitNanos : List Nat := [1, 1000, 1000000]

def maxInterval : Nat := (2 ^ intervalBits - 1) * 1000000
def maxBurst : Nat := 2 ^ burstBits - 1
def maxTau : Nat := u64Max / 2

/- The interval as a value and a unit code, in the finest unit that holds it; none is the
   unreachable! after the loop. -/
def encodeIn (interval : Nat) : List Nat → Nat → Option (Nat × Nat)
  | [], _ => none
  | nanos :: rest, unit =>
      let value := divCeil interval nanos
      if value < 2 ^ intervalBits then some (value, unit) else encodeIn interval rest (unit + 1)

def encodeInterval (interval : Nat) : Option (Nat × Nat) := encodeIn interval unitNanos 0

def intervalOf (value unit : Nat) : Nat := value * unitNanos.getD unit 0

theorem encodeIn_isSome {interval last : Nat} {units : List Nat} (unit : Nat)
    (mem : last ∈ units) (fits : divCeil interval last < 2 ^ intervalBits) :
    (encodeIn interval units unit).isSome := by
  induction units generalizing unit with
  | nil => simp at mem
  | cons nanos rest ih =>
    simp only [encodeIn]
    split
    · rfl
    · rename_i exceeds
      rcases List.mem_cons.mp mem with same | mem
      · subst last
        exact absurd fits exceeds
      · exact ih (unit + 1) mem

/- What a code stands for, and that a longer interval it holds exactly has the same code:
   the finer units that were too fine stay so. -/
theorem encodeIn_code {interval start value unit : Nat} {units : List Nat}
    (h : encodeIn interval units start = some (value, unit)) :
    start ≤ unit ∧ units.getD (unit - start) 0 ∈ units ∧ value < 2 ^ intervalBits ∧
      value = divCeil interval (units.getD (unit - start) 0) ∧
      ∀ longer, interval ≤ longer → divCeil longer (units.getD (unit - start) 0) = value →
        encodeIn longer units start = some (value, unit) := by
  induction units generalizing start with
  | nil => simp [encodeIn] at h
  | cons nanos rest ih =>
    simp only [encodeIn] at h
    split at h
    · rename_i fits
      simp only [Option.some.injEq, Prod.mk.injEq] at h
      obtain ⟨rfl, rfl⟩ := h
      rw [Nat.sub_self, List.getD_cons_zero]
      refine ⟨Nat.le_refl _, List.mem_cons_self, fits, rfl, ?_⟩
      intro longer _ same
      simp only [encodeIn, same, if_pos fits]
    · rename_i exceeds
      obtain ⟨later, mem, fits, code, kept⟩ := ih h
      have shift : unit - start = unit - (start + 1) + 1 := by omega
      rw [shift, List.getD_cons_succ]
      refine ⟨by omega, List.mem_cons_of_mem _ mem, fits, code, ?_⟩
      intro longer le same
      have larger := divCeil_mono nanos le
      simp only [encodeIn]
      rw [if_neg (by omega), kept longer le same]

theorem unitNanos_pos {nanos : Nat} (mem : nanos ∈ unitNanos) : 0 < nanos := by
  simp only [unitNanos, List.mem_cons, List.not_mem_nil, or_false] at mem
  omega

theorem unitNanos_le {nanos : Nat} (mem : nanos ∈ unitNanos) : nanos ≤ 1000000 := by
  simp only [unitNanos, List.mem_cons, List.not_mem_nil, or_false] at mem
  omega

theorem encodeInterval_some {interval : Nat} (h : interval ≤ maxInterval) :
    (encodeInterval interval).isSome := by
  refine encodeIn_isSome 0 (show 1000000 ∈ unitNanos by decide) ?_
  have upper := divCeil_mul_lt (show 0 < 1000000 by decide) interval
  have bound : interval ≤ 1099511627775000000 := h
  change divCeil interval 1000000 < 2 ^ 40
  omega

/- A coarser unit rounds up, by less than the unit. -/
theorem encodeInterval_rounds {interval value unit : Nat}
    (h : encodeInterval interval = some (value, unit)) :
    interval ≤ intervalOf value unit ∧
      intervalOf value unit < interval + unitNanos.getD unit 0 := by
  obtain ⟨_, mem, _, rfl, _⟩ := encodeIn_code h
  have pos := unitNanos_pos mem
  exact ⟨le_divCeil_mul pos interval, divCeil_mul_lt pos interval⟩

theorem encodeInterval_kept {interval value unit : Nat}
    (h : encodeInterval interval = some (value, unit)) :
    encodeInterval (intervalOf value unit) = some (value, unit) := by
  obtain ⟨_, mem, _, _, kept⟩ := encodeIn_code h
  exact kept _ (encodeInterval_rounds h).1 (divCeil_mul_self (unitNanos_pos mem) value)

theorem intervalOf_le_maxInterval {interval value unit : Nat}
    (h : encodeInterval interval = some (value, unit)) :
    intervalOf value unit ≤ maxInterval := by
  obtain ⟨_, mem, fits, _, _⟩ := encodeIn_code h
  exact Nat.mul_le_mul (Nat.le_sub_one_of_lt fits) (unitNanos_le mem)

/- An emission interval already rounded to its unit, and a burst. The fields hold what the
   constructors promise of every quota. -/
structure Quota where
  interval : Nat
  burst : Nat
  interval_pos : 0 < interval
  interval_le : interval ≤ maxInterval
  rounded : ∃ code, encodeInterval interval = some code ∧ intervalOf code.1 code.2 = interval
  burst_pos : 0 < burst
  burst_le : burst ≤ maxBurst
  deriving DecidableEq

/- none is a failed assertion: no burst, or one over the cap. -/
def Quota.withInterval (interval : Nat) (burst : Nat) : Option Quota :=
  let asked := max 1 (min interval maxInterval)
  if valid : 0 < burst ∧ burst ≤ maxBurst then
    match encoded : encodeInterval asked with
    | some (value, unit) => some {
        interval := intervalOf value unit
        burst := burst
        interval_pos := Nat.lt_of_lt_of_le (Nat.lt_of_lt_of_le Nat.one_pos (Nat.le_max_left _ _))
          (encodeInterval_rounds encoded).1
        interval_le := intervalOf_le_maxInterval encoded
        rounded := ⟨_, encodeInterval_kept encoded, rfl⟩
        burst_pos := valid.1
        burst_le := valid.2 }
    | none => none
  else none

def Quota.new (ratePerSec burst : Nat) : Option Quota :=
  if 0 < ratePerSec then Quota.withInterval (divCeil oneSec ratePerSec) burst else none

/- A rate as the source computes with it, in exact arithmetic where it is a number. -/
inductive Rate where
  | finite (perSec : ℚ)
  | infinite
  | nan
  deriving DecidableEq, Repr

/- A rate too slow to hold, zero, negative, infinite or not a number is held at the
   longest interval. -/
def Rate.interval : Rate → Nat
  | .finite perSec =>
    let interval := ⌈(oneSec : ℚ) / perSec⌉
    if 1 ≤ interval then min interval.toNat maxInterval
    else if 0 < interval then 1
    else maxInterval
  | .infinite | .nan => maxInterval

def Quota.perSecond (rate : Rate) (burst : Nat) : Option Quota :=
  Quota.withInterval rate.interval burst

/- A request a millisecond. -/
def Quota.perMilli (burst : Nat) (pos : 0 < burst) (le : burst ≤ maxBurst) : Quota where
  interval := 1000000
  burst := burst
  interval_pos := by decide
  interval_le := by decide
  rounded := ⟨(1000000, 0), by decide, by decide⟩
  burst_pos := pos
  burst_le := le

theorem Quota.withInterval_isSome {interval : Nat} {burst : Nat} (pos : 0 < burst)
    (le : burst ≤ maxBurst) : (Quota.withInterval interval burst).isSome := by
  have asked : max 1 (min interval maxInterval) ≤ maxInterval := by
    have : 1 ≤ maxInterval := by decide
    omega
  obtain ⟨⟨value, unit⟩, encoded⟩ := Option.isSome_iff_exists.mp (encodeInterval_some asked)
  unfold Quota.withInterval
  rw [dif_pos ⟨pos, le⟩]
  split
  · rfl
  · rename_i none
    rw [encoded] at none
    exact absurd none (by simp)

/-- Every value of the type is a constructor's: nothing else holds the invariants. -/
theorem Quota.withInterval_self (q : Quota) : Quota.withInterval q.interval q.burst = some q := by
  have asked : max 1 (min q.interval maxInterval) = q.interval := by
    have := q.interval_pos; have := q.interval_le
    omega
  obtain ⟨⟨value, unit⟩, encoded, kept⟩ := q.rounded
  unfold Quota.withInterval
  rw [dif_pos ⟨q.burst_pos, q.burst_le⟩]
  split
  · rename_i v u h
    rw [asked, encoded] at h
    simp only [Option.some.injEq, Prod.mk.injEq] at h
    obtain ⟨rfl, rfl⟩ := h
    cases q
    simpa using kept
  · rename_i h
    rw [asked, encoded] at h
    exact absurd h (by simp)

def tau (interval : Nat) (burst : Nat) : Nat := min (satMul interval (burst - 1)) maxTau

def Quota.tNanos (q : Quota) : Nat := q.interval
def Quota.tauNanos (q : Quota) : Nat := tau q.interval q.burst

theorem Quota.tauNanos_le (q : Quota) : q.tauNanos ≤ q.interval * (q.burst - 1) := by
  simp only [Quota.tauNanos, tau, satMul]
  omega

theorem Quota.tauNanos_le_maxTau (q : Quota) : q.tauNanos ≤ maxTau := Nat.min_le_right _ _

structure Gcra where
  quota : Quota
  tat : Option Nat
  deriving DecidableEq

inductive Decision where
  | allow
  | deny (retryAt : Nat)
  deriving DecidableEq, Repr

def Gcra.new (quota : Quota) : Gcra := ⟨quota, none⟩

def Gcra.check (g : Gcra) (now : Nat) : Decision × Gcra :=
  let tat := g.tat.getD now
  let earliest := tat - g.quota.tauNanos
  if now < earliest then (.deny earliest, g)
  else (.allow, { g with tat := some (satAdd (max tat now) g.quota.tNanos) })

/- The nearest whole number of nanoseconds, a half away from zero, as the cast to u64
   gives it. -/
def roundToU64 (x : ℚ) : Nat := min (round x).toNat u64Max

/- The debt of a saturated TAT is unknown: it counts as the largest of what it measures,
   the old burst and the new burst. -/
def carryTat (tat : Nat) (old new : Quota) (now : Nat) : Nat :=
  let computed : ℚ := ((tat - now : Nat) : ℚ) / old.tNanos
  let debtSlots : ℚ := if tat = u64Max then max (max computed old.burst) new.burst else computed
  satAdd now (roundToU64 (debtSlots * new.tNanos))

def Gcra.setQuota (g : Gcra) (quota : Quota) (now : Nat) : Gcra :=
  if quota = g.quota then g
  else match g.tat with
    | some oldTat => ⟨quota, some (carryTat oldTat g.quota quota now)⟩
    | none => ⟨quota, none⟩

def Gcra.hasDebt (g : Gcra) (now : Nat) : Bool := g.tat.any (now < ·)

def Gcra.retryAfter (g : Gcra) (now : Nat) : Option Nat :=
  g.tat.bind fun tat =>
    let earliest := tat - g.quota.tauNanos
    if now < earliest then some (earliest - now) else none

end Rateguard
