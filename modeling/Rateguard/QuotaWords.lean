import Rateguard.AtomicGcra

/- What one word keeps of a quota, and what its interval is rounded to. -/
namespace Rateguard

theorem encodeIn_rounds {interval start value unit : Nat} {units : List Nat}
    (positive : ∀ nanos ∈ units, 0 < nanos)
    (encoded : encodeIn interval units start = some (value, unit)) :
    interval ≤ value * units.getD (unit - start) 0 := by
  obtain ⟨_, mem, _, rfl, _⟩ := encodeIn_code encoded
  exact le_divCeil_mul (positive _ mem) interval

/- A longer interval is kept no shorter, the unit the same or a later one. -/
theorem encodeIn_mono {shorter longer start value value' unit unit' : Nat} {units : List Nat}
    (positive : ∀ nanos ∈ units, 0 < nanos) (le : shorter ≤ longer)
    (first : encodeIn shorter units start = some (value, unit))
    (second : encodeIn longer units start = some (value', unit')) :
    value * units.getD (unit - start) 0 ≤ value' * units.getD (unit' - start) 0 := by
  have kept := encodeIn_rounds positive second
  induction units generalizing start with
  | nil => simp [encodeIn] at first
  | cons nanos rest ih =>
    have unitPos := positive nanos List.mem_cons_self
    have mono := divCeil_mono nanos le
    simp only [encodeIn] at first second
    by_cases fits : divCeil shorter nanos < 2 ^ intervalBits
    · rw [if_pos fits, Option.some.injEq, Prod.mk.injEq] at first
      obtain ⟨rfl, rfl⟩ := first
      rw [Nat.sub_self, List.getD_cons_zero]
      by_cases fits' : divCeil longer nanos < 2 ^ intervalBits
      · rw [if_pos fits', Option.some.injEq, Prod.mk.injEq] at second
        obtain ⟨rfl, rfl⟩ := second
        rw [Nat.sub_self, List.getD_cons_zero]
        exact Nat.mul_le_mul_right nanos mono
      · -- What this unit cannot count is longer than whatever it counts.
        have counted : divCeil shorter nanos + 1 ≤ divCeil longer nanos := by omega
        have scaled := Nat.mul_le_mul_right nanos counted
        have above := divCeil_mul_lt unitPos longer
        rw [Nat.add_mul, Nat.one_mul] at scaled
        omega
    · rw [if_neg fits] at first
      rw [if_neg (by omega)] at second
      have later := (encodeIn_code first).1
      have later' := (encodeIn_code second).1
      have positive' : ∀ nanos ∈ rest, 0 < nanos := fun nanos mem =>
        positive nanos (List.mem_cons_of_mem _ mem)
      have shift : unit - start = unit - (start + 1) + 1 := by omega
      have shift' : unit' - start = unit' - (start + 1) + 1 := by omega
      rw [shift, shift', List.getD_cons_succ, List.getD_cons_succ]
      exact ih positive' first second (encodeIn_rounds positive' second)

theorem encodeIn_cons {interval nanos start value unit : Nat} {rest : List Nat}
    (encoded : encodeIn interval (nanos :: rest) start = some (value, unit)) :
    unit = start ∨ (2 ^ intervalBits ≤ divCeil interval nanos ∧
      encodeIn interval rest (start + 1) = some (value, unit)) := by
  simp only [encodeIn] at encoded
  by_cases fits : divCeil interval nanos < 2 ^ intervalBits
  · rw [if_pos fits, Option.some.injEq, Prod.mk.injEq] at encoded
    exact .inl encoded.2.symm
  · rw [if_neg fits] at encoded
    exact .inr ⟨Nat.le_of_not_lt fits, encoded⟩

/- A coarser unit is taken only for an interval so long that the unit is less than a part in 10^9
   of it. -/
theorem encodeInterval_close {interval value unit : Nat} (least : 0 < interval)
    (encoded : encodeInterval interval = some (value, unit)) :
    (intervalOf value unit - interval) * 1000000000 < interval := by
  obtain ⟨_, lt⟩ := encodeInterval_rounds encoded
  have bits : 2 ^ intervalBits = 1099511627776 := rfl
  rcases encodeIn_cons encoded with nano | ⟨micros, encoded⟩
  · have one : unitNanos.getD unit 0 = 1 := by rw [nano]; rfl
    omega
  rw [divCeil_one, bits] at micros
  rcases encodeIn_cons encoded with micro | ⟨millis, encoded⟩
  · have thousand : unitNanos.getD unit 0 = 1000 := by rw [micro]; rfl
    omega
  rw [bits] at millis
  have above := divCeil_mul_lt (show 0 < 1000 by decide) interval
  rcases encodeIn_cons encoded with milli | ⟨_, encoded⟩
  · have million : unitNanos.getD unit 0 = 1000000 := by rw [milli]; rfl
    have long : 1000000000000000 < interval := by omega
    have short : intervalOf value unit - interval ≤ 1000000 := by omega
    exact Nat.lt_of_le_of_lt (Nat.mul_le_mul_right _ short) long
  · simp [encodeIn] at encoded

theorem Quota.withInterval_interval {interval burst : Nat} {q : Quota}
    (made : Quota.withInterval interval burst = some q) :
    ∃ value unit, encodeInterval (max 1 (min interval maxInterval)) = some (value, unit) ∧
      q.interval = intervalOf value unit ∧ q.burst = burst := by
  unfold Quota.withInterval at made
  by_cases valid : 0 < burst ∧ burst ≤ maxBurst
  · rw [dif_pos valid] at made
    split at made
    · rename_i value unit encoded
      rw [← Option.some.inj made]
      exact ⟨value, unit, encoded, rfl, rfl⟩
    · exact absurd made (by simp)
  · rw [dif_neg valid] at made
    exact absurd made (by simp)

theorem Quota.interval_mono {shorter longer burst burst' : Nat} {q q' : Quota}
    (le : shorter ≤ longer) (made : Quota.withInterval shorter burst = some q)
    (made' : Quota.withInterval longer burst' = some q') : q.interval ≤ q'.interval := by
  obtain ⟨value, unit, encoded, same, _⟩ := Quota.withInterval_interval made
  obtain ⟨value', unit', encoded', same', _⟩ := Quota.withInterval_interval made'
  rw [same, same']
  have asked : max 1 (min shorter maxInterval) ≤ max 1 (min longer maxInterval) := by omega
  exact encodeIn_mono (fun _ => unitNanos_pos) asked encoded encoded'

structure Quota.Keeps (q : Quota) (interval burst : Nat) : Prop where
  burst : q.burst = burst
  word : q.pack ≠ 0
  unit : packedUnit q.pack < 3
  unpacked : Quota.unpack q.pack = some q
  decoded : Quota.decode q.pack = (q.tNanos, q.tauNanos)
  product : packedInterval q.pack * decodeUnitNanos.getD (packedUnit q.pack) 0 ≤ u64Max
  strict : interval ≤ q.interval
  close : (q.interval - interval) * 1000000000 < interval
  again : ∀ burst', 1 ≤ burst' → burst' ≤ maxBurst →
    (Quota.withInterval q.interval burst').map (·.interval) = some q.interval
  ordered : ∀ (longer burst' : Nat) (q' : Quota), interval ≤ longer →
    Quota.withInterval longer burst' = some q' → q.interval ≤ q'.interval

/-- Every interval and every burst a quota may be asked for is kept: in one word that says which, to
    the last bit of the quota, and the interval rounded to the strict side by less than a part in
    10^9, longer ones never below shorter ones. -/
theorem quota_words_keep {interval burst : Nat} (least : 1 ≤ interval) (most : interval ≤ maxInterval)
    (once : 1 ≤ burst) (fits : burst ≤ maxBurst) :
    ∃ q, Quota.withInterval interval burst = some q ∧ q.Keeps interval burst := by
  obtain ⟨q, made⟩ := Option.isSome_iff_exists.mp
    (@Quota.withInterval_isSome interval burst once fits)
  obtain ⟨value, unit, encoded, same, asked⟩ := Quota.withInterval_interval made
  rw [show max 1 (min interval maxInterval) = interval by omega] at encoded
  refine ⟨q, made, ?_⟩
  constructor
  case burst => exact asked
  case word => exact q.pack_ne_zero
  case unit =>
    rw [q.packedUnit_pack]
    exact q.code_spec.2.1
  case unpacked => exact q.unpack_pack
  case decoded => exact q.decode_pack
  case product =>
    have product : (Quota.decode q.pack).1 = q.interval := congrArg Prod.fst q.decode_pack
    have bound : maxInterval ≤ u64Max := by decide
    exact product.le.trans (q.interval_le.trans bound)
  case strict =>
    rw [same]
    exact (encodeInterval_rounds encoded).1
  case close =>
    rw [same]
    exact encodeInterval_close least encoded
  case again =>
    intro burst' once' fits'
    obtain ⟨q', made'⟩ := Option.isSome_iff_exists.mp
      (@Quota.withInterval_isSome q.interval burst' once' fits')
    obtain ⟨value', unit', encoded', same', _⟩ := Quota.withInterval_interval made'
    have held := q.interval_pos
    have upper := q.interval_le
    rw [show max 1 (min q.interval maxInterval) = q.interval by omega, same,
      encodeInterval_kept encoded] at encoded'
    obtain ⟨rfl, rfl⟩ := Prod.mk.inj (Option.some.inj encoded')
    rw [made', Option.map_some, same', same]
  case ordered => exact fun longer burst' q' le made' => Quota.interval_mono le made made'

/- Where the nanoseconds no longer fit. -/
theorem quota_words_keep_first_micro : ∃ q, Quota.withInterval (2 ^ 40) 1 = some q ∧
    q.Keeps (2 ^ 40) 1 :=
  quota_words_keep (by decide) (by decide) (by decide) (by decide)

end Rateguard
