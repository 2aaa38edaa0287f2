import Rateguard.Averages
import Rateguard.Demand
import Mathlib.Analysis.SpecialFunctions.Exp

/- A key's demand over any ordered field, so that the decay may be the exponential itself, and what
   a schedule of attempts and ticks leaves in it. -/
namespace Rateguard

structure DemandIn (K : Type*) where
  currentRate : K
  attemptsSinceTick : Nat
  lastTick : Option Nat
  since : Option Nat
  timeConstant : Nat

namespace DemandIn
variable {K : Type*} [Field K]

def new (timeConstant : Nat) : DemandIn K := ⟨0, 0, none, none, timeConstant⟩

def startingAt (timeConstant now : Nat) : DemandIn K :=
  { DemandIn.new timeConstant with lastTick := some now, since := some now }

/- none is an overflow of the count. -/
def recordAttempts (d : DemandIn K) (n : Nat) : Option (DemandIn K) :=
  (addU64 d.attemptsSinceTick n).map fun attempts => { d with attemptsSinceTick := attempts }

def tick (decay : Nat → Nat → K) (d : DemandIn K) (now : Nat) : DemandIn K :=
  match d.lastTick with
  | none => { d with lastTick := some now, since := some now }
  | some last =>
    let elapsed := now - last
    if elapsed = 0 then d
    else
      let elapsedSecs : K := elapsed / 1000000000
      let instantaneousRate : K := d.attemptsSinceTick / elapsedSecs
      let alpha := 1 - decay elapsed d.timeConstant
      { d with
        currentRate := alpha * instantaneousRate + (1 - alpha) * d.currentRate
        attemptsSinceTick := 0
        lastTick := some now }

def rate (d : DemandIn K) : K := d.currentRate

def unbiasedRate (decay : Nat → Nat → K) (d : DemandIn K) : K :=
  match d.since, d.lastTick with
  | some since, some last =>
    let measured := last - since
    if measured = 0 then 0 else d.currentRate / (1 - decay measured d.timeConstant)
  | _, _ => 0

/- Over the rationals it is the demand of the limiter. -/
def toDemand (d : DemandIn ℚ) : Demand :=
  ⟨d.currentRate, d.attemptsSinceTick, d.lastTick, d.since, d.timeConstant⟩

theorem startingAt_toDemand (timeConstant now : Nat) :
    (startingAt timeConstant now : DemandIn ℚ).toDemand = Demand.startingAt timeConstant now := rfl

theorem recordAttempts_toDemand (d : DemandIn ℚ) (n : Nat) :
    (d.recordAttempts n).map toDemand = d.toDemand.recordAttempts n := by
  simp only [recordAttempts, Demand.recordAttempts, Option.map_map]
  rfl

theorem tick_toDemand (decay : Nat → Nat → ℚ) (d : DemandIn ℚ) (now : Nat) :
    (d.tick decay now).toDemand = d.toDemand.tick decay now := by
  obtain ⟨currentRate, attempts, lastTick, since, timeConstant⟩ := d
  cases lastTick with
  | none => rfl
  | some last =>
    simp only [tick, toDemand, Demand.tick]
    split <;> rfl

theorem unbiasedRate_toDemand (decay : Nat → Nat → ℚ) (d : DemandIn ℚ) :
    d.toDemand.unbiasedRate decay = d.unbiasedRate decay := rfl

end DemandIn

/- What a key sees: requests, counted one or many at a time, and the ticks of its limiter. -/
inductive DemandEvent where
  | recordAttempts (n : Nat)
  | tick (now : Nat)

namespace DemandIn
variable {K : Type*} [Field K] (decay : Nat → Nat → K)

def step (d : DemandIn K) : DemandEvent → Option (DemandIn K)
  | .recordAttempts n => d.recordAttempts n
  | .tick now => some (d.tick decay now)

def run (d : DemandIn K) (schedule : List DemandEvent) : Option (DemandIn K) :=
  schedule.foldlM (step decay) d

end DemandIn

/- The same schedule as gaps between ticks: the attempts of each and its length, those still to be
   measured, and the last tick. -/
structure Gaps where
  measured : List (Nat × Nat)
  pending : Nat
  last : Nat

def Gaps.next (g : Gaps) : DemandEvent → Gaps
  | .recordAttempts n => { g with pending := g.pending + n }
  | .tick now =>
    if now ≤ g.last then g else ⟨g.measured ++ [(g.pending, now - g.last)], 0, now⟩

def gapsOf (start : Nat) (schedule : List DemandEvent) : Gaps :=
  schedule.foldl Gaps.next ⟨[], 0, start⟩

/- In attempts per second. -/
def gapRate (K : Type*) [Field K] (gap : Nat × Nat) : K := gap.1 / ((gap.2 : K) / 1000000000)

def attemptsOf (schedule : List DemandEvent) : Nat :=
  (schedule.map fun
    | .recordAttempts n => n
    | .tick _ => 0).sum

def ticksOf (schedule : List DemandEvent) : List Nat :=
  schedule.filterMap fun
    | .recordAttempts _ => none
    | .tick now => some now

def TicksInTime (start : Nat) (schedule : List DemandEvent) : Prop :=
  (start :: ticksOf schedule).Pairwise (· ≤ ·)

/- As many attempts in every gap as the rate says. -/
def SteadyAt {K : Type*} [Field K] (rate : K) (start : Nat) (schedule : List DemandEvent) : Prop :=
  ∀ gap ∈ (gapsOf start schedule).measured, gapRate K gap = rate

@[simp] theorem gapsOf_snoc (start : Nat) (schedule : List DemandEvent) (event : DemandEvent) :
    gapsOf start (schedule ++ [event]) = (gapsOf start schedule).next event := by
  simp [gapsOf]

@[simp] theorem attemptsOf_snoc (schedule : List DemandEvent) (event : DemandEvent) :
    attemptsOf (schedule ++ [event]) = attemptsOf schedule + attemptsOf [event] := by
  simp [attemptsOf]

/- The gaps are apart and leave no time and no attempt out. -/
structure Gaps.Splits (g : Gaps) (start : Nat) (schedule : List DemandEvent) : Prop where
  long : ∀ gap ∈ g.measured, 0 < gap.2
  covers : start + (g.measured.map (·.2)).sum = g.last
  counts : (g.measured.map (·.1)).sum + g.pending = attemptsOf schedule

theorem gapsOf_splits (start : Nat) (schedule : List DemandEvent) :
    (gapsOf start schedule).Splits start schedule := by
  induction schedule using List.reverseRecOn with
  | nil => exact ⟨by simp [gapsOf], by simp [gapsOf], by simp [gapsOf, attemptsOf]⟩
  | append_singleton schedule event ih =>
    obtain ⟨long, covers, counts⟩ := ih
    rw [gapsOf_snoc]
    cases event with
    | recordAttempts n =>
      refine ⟨long, covers, ?_⟩
      have one : attemptsOf [.recordAttempts n] = n := by simp [attemptsOf]
      simp only [Gaps.next, attemptsOf_snoc, one]
      omega
    | tick now =>
      have none : attemptsOf [.tick now] = 0 := by simp [attemptsOf]
      simp only [Gaps.next]
      by_cases same : now ≤ (gapsOf start schedule).last
      · rw [if_pos same]
        refine ⟨long, covers, ?_⟩
        rw [attemptsOf_snoc, none]
        exact counts
      · rw [if_neg same]
        constructor
        case long =>
          intro gap mem
          rcases List.mem_append.mp mem with mem | mem
          · exact long gap mem
          · rw [List.mem_singleton.mp mem]
            exact Nat.sub_pos_of_lt (Nat.lt_of_not_le same)
        case covers =>
          simp only [List.map_append, List.map_cons, List.map_nil, List.sum_append, List.sum_cons,
            List.sum_nil]
          omega
        case counts =>
          simp only [List.map_append, List.map_cons, List.map_nil, List.sum_append, List.sum_cons,
            List.sum_nil, attemptsOf_snoc, none]
          omega

/- The last tick that moved on, in time order, is the last tick. -/
theorem gapsOf_last_le {start now : Nat} {schedule : List DemandEvent}
    (later : ∀ tick ∈ start :: ticksOf schedule, tick ≤ now) :
    (gapsOf start schedule).last ≤ now := by
  induction schedule using List.reverseRecOn with
  | nil => exact later start (by simp)
  | append_singleton schedule event ih =>
    have before := ih fun tick mem => later tick (by
      simp only [ticksOf, List.filterMap_append] at mem ⊢
      exact List.mem_cons.mpr ((List.mem_cons.mp mem).imp_right (List.mem_append_left _)))
    rw [gapsOf_snoc]
    cases event with
    | recordAttempts n => exact before
    | tick moment =>
      simp only [Gaps.next]
      by_cases same : moment ≤ (gapsOf start schedule).last
      · rw [if_pos same]
        exact before
      · rw [if_neg same]
        exact later moment (by simp [ticksOf])

theorem gapsOf_tick_last {start now : Nat} {before : List DemandEvent}
    (order : TicksInTime start (before ++ [.tick now])) :
    (gapsOf start (before ++ [.tick now])).last = now := by
  have last : ticksOf (before ++ [.tick now]) = ticksOf before ++ [now] := by simp [ticksOf]
  rw [TicksInTime, last, ← List.cons_append, List.pairwise_append] at order
  have le := gapsOf_last_le fun tick mem => order.2.2 tick mem now (by simp)
  simp only [gapsOf_snoc, Gaps.next]
  by_cases same : now ≤ (gapsOf start before).last
  · rw [if_pos same]
    exact Nat.le_antisymm le same
  · rw [if_neg same]

section
variable {K : Type*} [Field K] {decay : Nat → Nat → K} {timeConstant start : Nat}

/- What a gap saw, for the average. -/
def seenIn (K : Type*) [Field K] (gap : Nat × Nat) : K × Nat := (gapRate K gap, gap.2)

/- What a demand holds after a schedule. -/
structure DemandIn.Measures (decay : Nat → Nat → K) (timeConstant start : Nat)
    (schedule : List DemandEvent) (d : DemandIn K) : Prop where
  currentRate : d.currentRate = Averages.fold (decay · timeConstant) 0
    ((gapsOf start schedule).measured.map (seenIn K))
  attempts : d.attemptsSinceTick = (gapsOf start schedule).pending
  lastTick : d.lastTick = some (gapsOf start schedule).last
  since : d.since = some start
  timeConstant : d.timeConstant = timeConstant

theorem DemandIn.Measures.tick {schedule : List DemandEvent} {d : DemandIn K}
    (measures : d.Measures decay timeConstant start schedule) (now : Nat) :
    (d.tick decay now).Measures decay timeConstant start (schedule ++ [.tick now]) := by
  obtain ⟨currentRate, attempts, lastTick, since, constant⟩ := measures
  simp only [DemandIn.tick, lastTick]
  by_cases same : now ≤ (gapsOf start schedule).last
  · have unchanged : gapsOf start (schedule ++ [.tick now]) = gapsOf start schedule := by
      simp only [gapsOf_snoc, Gaps.next, if_pos same]
    rw [if_pos (Nat.sub_eq_zero_of_le same)]
    exact ⟨by rw [unchanged]; exact currentRate, by rw [unchanged]; exact attempts,
      by rw [unchanged]; exact lastTick, since, constant⟩
  · have moved : gapsOf start (schedule ++ [.tick now]) =
        ⟨(gapsOf start schedule).measured ++
          [((gapsOf start schedule).pending, now - (gapsOf start schedule).last)], 0, now⟩ := by
      simp only [gapsOf_snoc, Gaps.next, if_neg same]
    rw [if_neg (by omega)]
    refine ⟨?_, by rw [moved], by rw [moved], since, constant⟩
    rw [moved, List.map_append, List.map_cons, List.map_nil, Averages.fold_snoc, ← currentRate]
    simp only [seenIn, gapRate, attempts, constant, sub_sub_cancel]

theorem DemandIn.Measures.recordAttempts {schedule : List DemandEvent} {d d' : DemandIn K} {n : Nat}
    (measures : d.Measures decay timeConstant start schedule)
    (recorded : d.recordAttempts n = some d') :
    d'.Measures decay timeConstant start (schedule ++ [.recordAttempts n]) := by
  obtain ⟨currentRate, attempts, lastTick, since, constant⟩ := measures
  obtain ⟨total, added, rfl⟩ := Option.map_eq_some_iff.mp recorded
  obtain ⟨_, rfl⟩ := addU64_eq_some.mp added
  constructor
  case attempts => simp only [gapsOf_snoc, Gaps.next, attempts]
  case currentRate => simpa only [gapsOf_snoc, Gaps.next] using currentRate
  case lastTick => simpa only [gapsOf_snoc, Gaps.next] using lastTick
  case since => exact since
  case timeConstant => exact constant

/- The count holds what is pending at every moment. -/
def CountFits (start : Nat) (schedule : List DemandEvent) : Prop :=
  ∀ before, before <+: schedule → (gapsOf start before).pending ≤ u64Max

theorem countFits_snoc {schedule : List DemandEvent} {event : DemandEvent} :
    CountFits start (schedule ++ [event]) ↔
      CountFits start schedule ∧ (gapsOf start (schedule ++ [event])).pending ≤ u64Max := by
  constructor
  · intro fits
    exact ⟨fun before part => fits before (part.trans (List.prefix_append _ _)),
      fits _ List.prefix_rfl⟩
  · rintro ⟨fits, last⟩ before part
    rcases List.prefix_concat_iff.mp part with rfl | part
    · exact last
    · exact fits before part

/- A run is the demand its schedule measures, or an overflow of the count. -/
theorem DemandIn.run_spec (schedule : List DemandEvent) :
    (CountFits start schedule ∧ ∃ d, (startingAt timeConstant start).run decay schedule = some d ∧
      d.Measures decay timeConstant start schedule) ∨
    (¬ CountFits start schedule ∧ (startingAt timeConstant start).run decay schedule = none) := by
  induction schedule using List.reverseRecOn with
  | nil =>
    refine .inl ⟨fun before part => ?_, _, rfl, ?_⟩
    · rw [List.prefix_nil.mp part]
      exact Nat.zero_le _
    · exact ⟨rfl, rfl, rfl, rfl, rfl⟩
  | append_singleton schedule event ih =>
    have split : (startingAt timeConstant start).run decay (schedule ++ [event]) =
        ((startingAt timeConstant start).run decay schedule).bind (step decay · event) := by
      simp [run, List.foldlM_append]
    rcases ih with ⟨fits, d, ran, measures⟩ | ⟨overflow, ran⟩
    · rw [split, ran, Option.bind_some, countFits_snoc]
      cases event with
      | tick now =>
        have measured := measures.tick now
        have short : (gapsOf start (schedule ++ [.tick now])).pending ≤ u64Max := by
          have pending := fits schedule List.prefix_rfl
          simp only [gapsOf_snoc, Gaps.next]
          by_cases same : now ≤ (gapsOf start schedule).last
          · rw [if_pos same]
            exact pending
          · rw [if_neg same]
            exact Nat.zero_le _
        exact .inl ⟨⟨fits, short⟩, _, rfl, measured⟩
      | recordAttempts n =>
        have total : (gapsOf start (schedule ++ [.recordAttempts n])).pending =
            d.attemptsSinceTick + n := by
          simp only [gapsOf_snoc, Gaps.next, measures.attempts]
        rw [total]
        simp only [step]
        by_cases room : d.attemptsSinceTick + n ≤ u64Max
        · have recorded : d.recordAttempts n =
              some { d with attemptsSinceTick := d.attemptsSinceTick + n } := by
            simp only [DemandIn.recordAttempts, addU64, if_pos room, Option.map_some]
          exact .inl ⟨⟨fits, room⟩, _, recorded, measures.recordAttempts recorded⟩
        · refine .inr ⟨fun fits' => room fits'.2, ?_⟩
          simp only [DemandIn.recordAttempts, addU64, if_neg room, Option.map_none]
    · rw [split, ran, countFits_snoc]
      exact .inr ⟨fun fits => overflow fits.1, rfl⟩

theorem span_seenIn (gaps : List (Nat × Nat)) :
    Averages.span (gaps.map (seenIn K)) = (gaps.map (·.2)).sum := by
  rw [Averages.span, List.map_map]
  rfl

variable [LinearOrder K] [IsStrictOrderedRing K]

theorem gapRate_nonneg (gap : Nat × Nat) : 0 ≤ gapRate K gap := by
  unfold gapRate
  positivity

/- What a demand measures of a schedule, however its ticks split the time. -/
structure DemandIn.Follows (decay : Nat → Nat → K) (timeConstant start : Nat)
    (schedule : List DemandEvent) (d : DemandIn K) : Prop where
  steady : ∀ rate before now, schedule = before ++ [.tick now] → TicksInTime start schedule →
    start < now → SteadyAt rate start schedule →
    d.rate = rate * (1 - decay (now - start) timeConstant) ∧ d.unbiasedRate decay = rate
  nonneg : 0 ≤ d.rate
  highest : ((gapsOf start schedule).measured = [] ∧ d.rate = 0) ∨
    ∃ gap ∈ (gapsOf start schedule).measured, d.rate ≤ gapRate K gap
  counted : ((gapsOf start schedule).measured.map (·.1)).sum + d.attemptsSinceTick =
    attemptsOf schedule
  unmoved : ∀ now, d.lastTick = some now → d.tick decay now = d

theorem DemandIn.Measures.follows {schedule : List DemandEvent} {d : DemandIn K}
    (decays : Averages.Decays (decay · timeConstant))
    (measures : d.Measures decay timeConstant start schedule) :
    d.Follows decay timeConstant start schedule := by
  obtain ⟨currentRate, attempts, lastTick, since, constant⟩ := measures
  obtain ⟨long, covers, counts⟩ := gapsOf_splits start schedule
  generalize gaps : gapsOf start schedule = g at currentRate attempts lastTick long covers counts
  have apart : ∀ gap ∈ g.measured.map (seenIn K), 0 < gap.2 ∧ 0 ≤ gap.1 := by
    intro gap mem
    obtain ⟨split, measured, rfl⟩ := List.mem_map.mp mem
    exact ⟨long split measured, gapRate_nonneg split⟩
  have highest : (g.measured = [] ∧ d.rate = 0) ∨ ∃ gap ∈ g.measured, d.rate ≤ gapRate K gap := by
    by_cases unmeasured : g.measured = []
    · refine .inl ⟨unmeasured, ?_⟩
      rw [DemandIn.rate, currentRate, unmeasured]
      exact Averages.fold_nil _ 0
    · obtain ⟨gap, mem, le⟩ := Averages.fold_le_highest decays (fun gap mem => (apart gap mem).1)
        (fun gap mem => (apart gap mem).2) (by simpa using unmeasured)
      obtain ⟨split, measured, rfl⟩ := List.mem_map.mp mem
      exact .inr ⟨split, measured, currentRate.trans_le le⟩
  constructor
  case highest => rwa [gaps]
  case counted => rwa [gaps, attempts]
  case nonneg =>
    rw [DemandIn.rate, currentRate]
    exact Averages.le_fold decays (fun gap mem => (apart gap mem).1)
      (fun gap mem => (apart gap mem).2) le_rfl
  case unmoved =>
    intro now last
    simp only [DemandIn.tick, last, Nat.sub_self, if_true]
  case steady =>
    intro rate before now ends order later constantRate
    have moment : g.last = now := by
      rw [← gaps, ends]
      exact gapsOf_tick_last (ends ▸ order)
    have spent : (g.measured.map (·.2)).sum = now - start := by omega
    have some : g.measured ≠ [] := by
      intro unmeasured
      rw [unmeasured, List.map_nil, List.sum_nil] at spent
      omega
    have folded : d.currentRate = rate * (1 - decay (now - start) timeConstant) := by
      have seen : ∀ gap ∈ g.measured.map (seenIn K), gap.1 = rate := by
        intro gap mem
        obtain ⟨split, measured, rfl⟩ := List.mem_map.mp mem
        exact constantRate split (gaps ▸ measured)
      rw [currentRate, Averages.fold_constant decays seen (by simpa using some), span_seenIn, spent]
      ring
    refine ⟨folded, ?_⟩
    have weight : 1 - decay (now - start) timeConstant ≠ 0 :=
      (sub_pos.mpr (decays.lt_one _ (Nat.sub_pos_of_lt later))).ne'
    simp only [DemandIn.unbiasedRate, since, lastTick, moment, constant]
    rw [if_neg (by omega), folded, mul_div_cancel_right₀ _ weight]

/-- A demand measures a schedule of attempts and ticks by the time that passes and not by how its
    ticks split it: a constant rate it has, less what the decay leaves of the zero it began at and
    without it exactly; any other stays between nothing and the highest of a gap; and every attempt
    is in one gap or waits for one. -/
theorem demand_follows_schedule (decays : Averages.Decays (decay · timeConstant))
    (schedule : List DemandEvent) :
    (((DemandIn.startingAt timeConstant start).run decay schedule).isSome ↔
      CountFits start schedule) ∧
    ∀ d, (DemandIn.startingAt timeConstant start).run decay schedule = some d →
      d.Follows decay timeConstant start schedule := by
  rcases @DemandIn.run_spec K _ decay timeConstant start schedule with ⟨fits, d, ran, measures⟩ | ⟨overflow, ran⟩
  · rw [ran]
    refine ⟨by simpa using fits, fun d' same => ?_⟩
    obtain rfl := Option.some.inj same
    exact measures.follows decays
  · rw [ran]
    exact ⟨by simpa using overflow, by simp⟩

end

/- The decay of the source. -/
noncomputable def expDecay (elapsed timeConstant : Nat) : ℝ :=
  Real.exp (-(elapsed : ℝ) / timeConstant)

theorem expDecay_decays {timeConstant : Nat} (positive : 0 < timeConstant) :
    Averages.Decays (expDecay · timeConstant) := by
  have constant : (0 : ℝ) < timeConstant := Nat.cast_pos.mpr positive
  constructor
  case add =>
    intro a b
    rw [expDecay, expDecay, expDecay, ← Real.exp_add]
    congr 1
    push_cast
    ring
  case pos => exact fun a _ => Real.exp_pos _
  case lt_one =>
    intro a later
    have elapsed : (0 : ℝ) < a := Nat.cast_pos.mpr later
    exact Real.exp_lt_one_iff.mpr (div_neg_of_neg_of_pos (neg_neg_of_pos elapsed) constant)

/- Five a second, ticked twice at one moment and then a second and two seconds on. -/
def fiveASecond : List DemandEvent :=
  [.tick 7, .recordAttempts 5, .tick 1000000007, .tick 1000000007, .recordAttempts 10]

theorem demand_follows_schedule_five : ∃ d,
    (DemandIn.startingAt 10000000000 7).run expDecay (fiveASecond ++ [.tick 3000000007]) = some d ∧
    d.rate = 5 * (1 - expDecay 3000000000 10000000000) ∧ d.unbiasedRate expDecay = 5 := by
  obtain ⟨_, follows⟩ := @demand_follows_schedule ℝ _ expDecay 10000000000 7 _ _
    (expDecay_decays (by decide)) (fiveASecond ++ [.tick 3000000007])
  refine ⟨_, rfl, (follows _ rfl).steady 5 _ 3000000007 rfl ?_ (by decide) ?_⟩
  · unfold TicksInTime
    decide
  · have gaps : (gapsOf 7 (fiveASecond ++ [.tick 3000000007])).measured =
        [(5, 1000000000), (10, 2000000000)] := by
      decide
    rw [SteadyAt, gaps]
    norm_num [gapRate]

end Rateguard
