import Rateguard.Least
import Rateguard.Limiter
import Rateguard.Wire

/- What holds of a limiter over any run: its keys are distinct and their limits valid, its hot
   set stays within its size, and every rate is one that a float holds. A tick cannot fail. -/
namespace Rateguard
open Std (ExtTreeMap)

/- The highest rate there is: the most attempts counted, all in one nanosecond. -/
def maxRate : ℚ := u64Max * 1000000000

structure Demand.Bounded (d : Demand) : Prop where
  nonneg : 0 ≤ d.currentRate
  le : d.currentRate ≤ maxRate
  attempts : d.attemptsSinceTick ≤ u64Max

theorem maxRate_nonneg : 0 ≤ maxRate := by
  unfold maxRate
  positivity

theorem Demand.startingAt_bounded (timeConstant now : Nat) :
    (Demand.startingAt timeConstant now).Bounded :=
  ⟨le_refl 0, maxRate_nonneg, Nat.zero_le _⟩

theorem Demand.recordAttempts_bounded {d d' : Demand} {n : Nat} (bounded : d.Bounded)
    (h : d.recordAttempts n = some d') : d'.Bounded := by
  simp only [recordAttempts, Option.map_eq_some_iff, addU64_eq_some] at h
  obtain ⟨attempts, ⟨fits, rfl⟩, rfl⟩ := h
  exact ⟨bounded.nonneg, bounded.le, fits⟩

def Decays (decay : Nat → Nat → ℚ) : Prop :=
  ∀ elapsed timeConstant, 0 ≤ decay elapsed timeConstant ∧ decay elapsed timeConstant ≤ 1

theorem Demand.tick_bounded {decay : Nat → Nat → ℚ} (decays : Decays decay) {d : Demand}
    (bounded : d.Bounded) (now : Nat) : (d.tick decay now).Bounded := by
  unfold tick
  split
  · exact ⟨bounded.nonneg, bounded.le, bounded.attempts⟩
  · rename_i last _
    dsimp only
    split
    · exact bounded
    · rename_i passed
      obtain ⟨weight, most⟩ := decays (now - last) d.timeConstant
      have attempts : (d.attemptsSinceTick : ℚ) ≤ u64Max := by exact_mod_cast bounded.attempts
      have elapsed : (1 : ℚ) ≤ (now - last : Nat) := by exact_mod_cast Nat.one_le_iff_ne_zero.mpr passed
      have rate : (d.attemptsSinceTick : ℚ) / ((now - last : Nat) / 1000000000) ≤ maxRate := by
        rw [div_div_eq_mul_div]
        refine (div_le_self (by positivity) elapsed).trans ?_
        exact mul_le_mul_of_nonneg_right attempts (by norm_num)
      have nonneg : 0 ≤ (d.attemptsSinceTick : ℚ) / ((now - last : Nat) / 1000000000) := by
        positivity
      have old := bounded.nonneg
      have most' := bounded.le
      -- between two rates that are bounded
      refine ⟨?_, ?_, Nat.zero_le _⟩
      · dsimp only
        have := mul_nonneg (sub_nonneg.mpr most) nonneg
        have := mul_nonneg weight old
        linarith
      · dsimp only
        have := mul_le_mul_of_nonneg_left rate (sub_nonneg.mpr most)
        have := mul_le_mul_of_nonneg_left most' weight
        linarith

namespace HotSet

/- Within its size, and no key hot since a time to come. -/
structure Sound (hs : HotSet) (now : Nat) : Prop where
  room : 0 < hs.maxSize
  fits : hs.hot.size ≤ hs.maxSize
  since : ∀ (key : UInt64) (entry : HotEntry), hs.hot[key]? = some entry → entry.since ≤ now

theorem Sound.later {hs : HotSet} {now later : Nat} (sound : hs.Sound now) (le : now ≤ later) :
    hs.Sound later :=
  ⟨sound.room, sound.fits, fun key entry found => (sound.since key entry found).trans le⟩

/- Writing an entry of a key that is hot, or for which there is room. -/
theorem Sound.insert {hs : HotSet} {now : Nat} {key : UInt64} {entry : HotEntry}
    (sound : hs.Sound now) (room : hs.hot.contains key = true ∨ hs.hot.size < hs.maxSize)
    (since : entry.since ≤ now) : ({ hs with hot := hs.hot.insert key entry } : HotSet).Sound now := by
  constructor
  · exact sound.room
  · rw [ExtTreeMap.size_insert]
    have := sound.fits
    split
    · exact this
    · rename_i absent
      rcases room with held | room
      · exact absurd held absent
      · exact room
  · intro other held found
    rw [ExtTreeMap.getElem?_insert] at found
    split at found
    · exact (Option.some.inj found) ▸ since
    · exact sound.since other held found

theorem Sound.erase {hs : HotSet} {now : Nat} (sound : hs.Sound now) (key : UInt64) :
    ({ hs with hot := hs.hot.erase key } : HotSet).Sound now := by
  constructor
  · exact sound.room
  · exact (ExtTreeMap.size_erase_le).trans sound.fits
  · intro other entry found
    rw [ExtTreeMap.getElem?_erase] at found
    split at found
    · simp at found
    · exact sound.since other entry found

theorem weakest_some {hs : HotSet} (full : hs.hot.size ≠ 0) :
    ∃ key demand, hs.weakest = some (key, demand) ∧ hs.hot.contains key = true := by
  unfold weakest
  split
  · rename_i empty
    rw [← ExtTreeMap.length_toList, empty] at full
    exact absurd rfl full
  · rename_i first rest listed
    have mem := LeastOfList.least_mem weaker first rest
    rw [← listed] at mem
    refine ⟨_, _, rfl, ?_⟩
    have found := ExtTreeMap.mem_toList_iff_getElem?_eq_some.mp mem
    rw [ExtTreeMap.contains_eq_isSome_getElem?]
    exact Option.isSome_of_eq_some found

theorem promote_total {hs : HotSet} {now latest : Nat} (sound : hs.Sound latest)
    (le : now ≤ latest) (key : UInt64) (demandRate : ℚ) (primary : Bool) : ∃ hot after,
      hs.promote key demandRate primary now = some (hot, after) ∧ after.Sound latest ∧
        after.maxSize = hs.maxSize := by
  unfold promote
  split
  · rename_i entry found
    refine ⟨_, _, rfl, ?_, rfl⟩
    refine sound.insert (.inl ?_) (sound.since key entry found)
    rw [ExtTreeMap.contains_eq_isSome_getElem?, found]
    rfl
  · split
    · rename_i room
      exact ⟨_, _, rfl, sound.insert (.inr room) le, rfl⟩
    · rename_i full
      have room := sound.room
      obtain ⟨weakestKey, weakestDemand, found, held⟩ := @weakest_some hs (by omega)
      rw [found]
      simp only [bind, Option.bind_some]
      split
      · refine ⟨_, _, rfl, ?_, rfl⟩
        refine (sound.erase weakestKey).insert (.inr ?_) le
        have fits := sound.fits
        rw [ExtTreeMap.size_erase, if_pos held]
        dsimp only
        omega
      · exact ⟨_, _, rfl, sound, rfl⟩

theorem cool_sound {hs : HotSet} {latest : Nat} (sound : hs.Sound latest) (key : UInt64)
    (demandRate : ℚ) (now : Nat) : (hs.cool key demandRate now).2.Sound latest ∧
      (hs.cool key demandRate now).2.maxSize = hs.maxSize := by
  unfold cool
  split
  · exact ⟨sound, rfl⟩
  · rename_i entry found
    have held : hs.hot.contains key = true := by
      rw [ExtTreeMap.contains_eq_isSome_getElem?, found]
      rfl
    have since := sound.since key entry found
    dsimp only
    split
    · exact ⟨sound.insert (.inl held) since, rfl⟩
    · refine ⟨sound.insert (.inl held) ?_, rfl⟩
      split <;> split <;> exact since

theorem updateWith_total {hs : HotSet} {now latest : Nat} (sound : hs.Sound latest)
    (le : now ≤ latest) (key : UInt64) (demandRate threshold : ℚ) (hotElsewhere : Bool) :
    ∃ hot after, hs.updateWith key demandRate threshold now hotElsewhere = some (hot, after) ∧
      after.Sound latest ∧ after.maxSize = hs.maxSize := by
  unfold updateWith
  split
  · exact promote_total sound le key demandRate true
  · obtain ⟨cooled, size⟩ := cool_sound sound key demandRate now
    generalize hs.cool key demandRate now = result at cooled size ⊢
    obtain ⟨done, after⟩ := result
    dsimp only at cooled size ⊢
    split
    · exact ⟨_, _, rfl, cooled, size⟩
    · split
      · split
        · exact ⟨_, _, rfl, cooled, size⟩
        · split
          · exact ⟨_, _, rfl, cooled, size⟩
          · exact ⟨_, _, rfl, cooled.erase key, size⟩
      · split
        · obtain ⟨hot, last, h, lastSound, lastSize⟩ := promote_total cooled le key demandRate false
          exact ⟨hot, last, h, lastSound, lastSize.trans size⟩
        · exact ⟨_, _, rfl, cooled, size⟩

end HotSet
namespace Limiter

structure Sound (l : Limiter) (now : Nat) : Prop where
  size : l.hotSet.maxSize ≤ maxDemandKeys
  hotSet : l.hotSet.Sound now
  distinct : (l.keys.map (·.1)).Nodup
  keys : ∀ entry ∈ l.keys, entry.2.limit.Valid ∧ entry.2.demand.Bounded

theorem Sound.later {l : Limiter} {now later : Nat} (sound : l.Sound now) (le : now ≤ later) :
    l.Sound later := ⟨sound.size, sound.hotSet.later le, sound.distinct, sound.keys⟩

theorem new_sound {config : Config} {l : Limiter} (h : Limiter.new config = some l) :
    l.Sound 0 := by
  simp only [new, HotSet.new, Option.ite_none_right_eq_some, Option.map_eq_some_iff,
    Option.some.injEq] at h
  obtain ⟨valid, hotSet, ⟨room, rfl⟩, rfl⟩ := h
  refine ⟨valid.2.2.2.2.2.2.1, ⟨room, ?_, ?_⟩, List.nodup_nil, by simp⟩
  · simp
  · intro key entry found
    simp at found

theorem Sound.put {l : Limiter} {now : Nat} {key : UInt64} {state : KeyState}
    (sound : l.Sound now) (limit : state.limit.Valid) (demand : state.demand.Bounded) :
    (l.put key state).Sound now := by
  have names : (l.put key state).keys.map (·.1) = l.keys.map (·.1) := by
    simp only [Limiter.put, List.map_map]
    refine List.map_congr_left fun entry _ => ?_
    simp only [Function.comp]
    split
    · exact Eq.symm ‹_›
    · rfl
  refine ⟨sound.size, sound.hotSet, by rw [names]; exact sound.distinct, ?_⟩
  intro entry mem
  obtain ⟨old, listed, rfl⟩ := List.mem_map.mp mem
  split
  · exact ⟨limit, demand⟩
  · exact sound.keys old listed

theorem find_mem {l : Limiter} {key : UInt64} {state : KeyState} (h : l.find key = some state) :
    (key, state) ∈ l.keys := by
  obtain ⟨before, after, listed, _⟩ := List.lookup_eq_some_iff.mp h
  rw [listed]
  simp

theorem entry_sound {l l' : Limiter} {key : UInt64} {limit : Limit} {state : KeyState}
    {now now' clusterSize : Nat} (sound : l.Sound now)
    (h : l.entry key limit now' clusterSize = some (state, l')) :
    l'.Sound now ∧ state.limit.Valid ∧ state.demand.Bounded := by
  simp only [Limiter.entry, bind, Option.ite_none_right_eq_some, Option.bind_eq_some_iff] at h
  obtain ⟨valid, cold, _, h⟩ := h
  split at h
  · rename_i old found
    simp only [Option.some.injEq, Prod.mk.injEq] at h
    obtain ⟨rfl, rfl⟩ := h
    have bounded := (sound.keys _ (find_mem found)).2
    exact ⟨sound.put valid bounded, valid, bounded⟩
  · rename_i untracked
    simp only [Option.some.injEq, Prod.mk.injEq] at h
    obtain ⟨rfl, rfl⟩ := h
    have bounded := Demand.startingAt_bounded l.config.demandTimeConstant (l.lastTick.getD now')
    refine ⟨⟨sound.size, sound.hotSet, ?_, ?_⟩, valid, bounded⟩
    · rw [List.map_append, List.nodup_append]
      refine ⟨sound.distinct, by simp, ?_⟩
      intro name mem other last same
      obtain ⟨old, listed, rfl⟩ := List.mem_map.mp mem
      simp only [List.map_cons, List.map_nil, List.mem_singleton] at last
      have absent := List.lookup_eq_none_iff.mp untracked old listed
      simp [same, last] at absent
    · intro entry mem
      rcases List.mem_append.mp mem with old | new
      · exact sound.keys entry old
      · rw [List.mem_singleton.mp new]
        exact ⟨valid, bounded⟩

theorem checkIn_sound {l l' : Limiter} {key : UInt64} {limit : Limit} {decision : Decision}
    {now now' clusterSize : Nat} (sound : l.Sound now)
    (h : l.checkIn key limit now' clusterSize = some (decision, l')) : l'.Sound now := by
  simp only [Limiter.checkIn, bind, Option.bind_eq_some_iff] at h
  obtain ⟨⟨state, u⟩, found, demand, recorded, requests, _, h⟩ := h
  obtain ⟨soundU, valid, bounded⟩ := entry_sound sound found
  have counted := Demand.recordAttempts_bounded bounded recorded
  split at h
  · simp only [Option.bind_some, Option.some.injEq, Prod.mk.injEq] at h
    obtain ⟨_, rfl⟩ := h
    exact soundU.put valid counted
  · simp only [Option.bind_eq_some_iff, Option.some.injEq, Prod.mk.injEq] at h
    obtain ⟨denials, _, _, rfl⟩ := h
    exact soundU.put valid counted

theorem record_sound {l l' : Limiter} {key : UInt64} {tally : Tally} {limit : Limit}
    {now now' clusterSize : Nat} (sound : l.Sound now)
    (h : l.record key tally limit now' clusterSize = some l') : l'.Sound now := by
  simp only [Limiter.record, bind, Option.bind_eq_some_iff, Option.some.injEq] at h
  obtain ⟨⟨state, u⟩, found, demand, recorded, requests, _, denials, _, shadows, _, rfl⟩ := h
  obtain ⟨soundU, valid, bounded⟩ := entry_sound sound found
  exact soundU.put valid (Demand.recordAttempts_bounded bounded recorded)

theorem checkInTraced_sound {l l' : Limiter} {key : UInt64} {limit : Limit}
    {shadow : Option Limit} {decisions : Decision × Option Decision} {now now' clusterSize : Nat}
    (sound : l.Sound now)
    (h : l.checkInTraced key limit shadow now' clusterSize = some (decisions, l')) :
    l'.Sound now := by
  simp only [Limiter.checkInTraced, bind, Option.bind_eq_some_iff] at h
  obtain ⟨⟨decision, u⟩, checked, h⟩ := h
  have soundU := checkIn_sound sound checked
  split at h
  · simp only [Option.some.injEq, Prod.mk.injEq] at h
    obtain ⟨_, rfl⟩ := h
    exact ⟨soundU.size, soundU.hotSet, soundU.distinct, soundU.keys⟩
  · simp only [Option.ite_none_right_eq_some, Option.bind_eq_some_iff] at h
    obtain ⟨_, state, found, wanted, _, h⟩ := h
    obtain ⟨valid, bounded⟩ := soundU.keys _ (find_mem found)
    have put (shadows : Demand) : (u.put key { state with shadowDenials := shadows }).Sound now :=
      soundU.put valid bounded
    generalize (if (u.shadows[key]?.getD (.new wanted)).quota = wanted
      then u.shadows[key]?.getD (.new wanted)
      else (u.shadows[key]?.getD (.new wanted)).setQuota wanted now').check now' = traced at h
    split at h
    · simp only [Option.bind_some, Option.some.injEq, Prod.mk.injEq] at h
      obtain ⟨_, rfl⟩ := h
      have last := put state.shadowDenials
      exact ⟨last.size, last.hotSet, last.distinct, last.keys⟩
    · simp only [Option.bind_eq_some_iff, Option.some.injEq, Prod.mk.injEq] at h
      obtain ⟨shadows, _, _, rfl⟩ := h
      have last := put shadows
      exact ⟨last.size, last.hotSet, last.distinct, last.keys⟩

def KeysSound (keys : List (UInt64 × KeyState)) : Prop :=
  ∀ entry ∈ keys, entry.2.limit.Valid ∧ entry.2.demand.Bounded

theorem settle_total {decay : Nat → Nat → ℚ} (decays : Decays decay) {now latest : Nat}
    (le : now ≤ latest) (n alpha : ℚ) (hotElsewhere : UInt64 → Bool)
    {keys : List (UInt64 × KeyState)} {hotSet : HotSet} (sound : KeysSound keys)
    (hot : hotSet.Sound latest) : ∃ keys' hotSet',
      settle decay now n alpha hotElsewhere keys hotSet = some (keys', hotSet') ∧
        (keys'.map (·.1)).Sublist (keys.map (·.1)) ∧ KeysSound keys' ∧ hotSet'.Sound latest ∧
        hotSet'.maxSize = hotSet.maxSize := by
  induction keys generalizing hotSet with
  | nil => exact ⟨[], hotSet, rfl, List.Sublist.refl _, sound, hot, rfl⟩
  | cons first rest ih =>
    obtain ⟨key, state⟩ := first
    obtain ⟨valid, bounded⟩ := sound _ List.mem_cons_self
    have ticked := Demand.tick_bounded decays bounded now
    obtain ⟨isHot, after, updated, hotA, sizeA⟩ := HotSet.updateWith_total hot le key
      (state.tick decay now).demand.rate ((state.tick decay now).limit.rate / n * alpha)
      (elsewhere hotElsewhere key (state.tick decay now))
    obtain ⟨others, last, settled, sub, soundO, hotL, sizeL⟩ :=
      ih (fun entry mem => sound entry (List.mem_cons_of_mem _ mem)) hotA
    simp only [settle, updated, settled, bind, Option.bind_some]
    refine ⟨_, _, rfl, ?_, ?_, hotL, sizeL.trans sizeA⟩
    · split
      · exact sub.cons_cons key
      · exact sub.cons key
    · split
      · intro entry mem
        rcases List.mem_cons.mp mem with rfl | mem
        · exact ⟨valid, ticked⟩
        · exact soundO entry mem
      · exact soundO

theorem quotaFor_total (rate : ℚ) {limit : Limit} (valid : limit.Valid) :
    ∃ quota, quotaFor rate limit.burst = some quota :=
  Option.isSome_iff_exists.mp (Quota.withInterval_isSome valid.2.1 valid.2.2)

section
variable {σ : Type} (share : σ → UInt64 → ℚ → ℚ → ℚ × σ)

theorem applyQuotas_total (config : Config) (cap : Option ℚ) (n : ℚ)
    (hotElsewhere : UInt64 → Bool) (hotSet : HotSet) (now : Nat)
    {keys : List (UInt64 × KeyState)} (sound : KeysSound keys) (s : σ) : ∃ keys' s',
      applyQuotas share config cap n hotElsewhere hotSet now keys s = some (keys', s') ∧
        keys'.map (·.1) = keys.map (·.1) ∧ KeysSound keys' := by
  induction keys generalizing s with
  | nil => exact ⟨[], s, rfl, rfl, sound⟩
  | cons first rest ih =>
    obtain ⟨key, state⟩ := first
    obtain ⟨valid, bounded⟩ := sound _ List.mem_cons_self
    simp only [applyQuotas]
    generalize (if hotSet.isHot key then share s key state.demand.rate state.limit.rate
      else (0, s)) = result
    obtain ⟨asked, s'⟩ := result
    obtain ⟨wanted, quota⟩ := quotaFor_total
      (appliedRate config cap n hotElsewhere hotSet asked key state) valid
    obtain ⟨others, last, applied, names, soundO⟩ :=
      ih (fun entry mem => sound entry (List.mem_cons_of_mem _ mem)) s'
    dsimp only
    simp only [quota, applied, bind, Option.bind_some]
    refine ⟨_, _, rfl, by simp [names], ?_⟩
    intro entry mem
    rcases List.mem_cons.mp mem with rfl | mem
    · unfold KeyState.apply
      split
      · exact ⟨valid, bounded⟩
      · exact ⟨valid, bounded⟩
    · exact soundO entry mem

theorem tickWithShares_total {decay : Nat → Nat → ℚ} (decays : Decays decay) {l : Limiter}
    {now latest clusterSize : Nat} (sound : l.Sound latest) (le : now ≤ latest)
    (nonempty : 0 < clusterSize) (hotElsewhere : UInt64 → Bool) (s : σ) : ∃ l' s',
      l.tickWithShares share decay now clusterSize hotElsewhere s = some (l', s') ∧
        l'.Sound latest := by
  obtain ⟨keys, hotSet, settled, sub, soundK, hot, size⟩ := settle_total decays le
    (clusterSize : ℚ) l.config.alpha hotElsewhere sound.keys sound.hotSet
  obtain ⟨applied, s', quotas, names, soundA⟩ := applyQuotas_total share l.config l.cap
    (clusterSize : ℚ) hotElsewhere hotSet now soundK s
  simp only [tickWithShares, if_pos nonempty, settled, quotas, bind, Option.bind_some]
  refine ⟨_, _, rfl, ?_⟩
  have distinct : (applied.map (·.1)).Nodup := names ▸ sound.distinct.sublist sub
  unfold enforceCap
  dsimp only
  split
  · exact ⟨size ▸ sound.size, hot, distinct, soundA⟩
  · refine ⟨size ▸ sound.size, hot, ?_, ?_⟩
    · exact distinct.sublist (List.filter_sublist.map _)
    · intro entry mem
      exact soundA entry (List.mem_of_mem_filter mem)

end

theorem hotDemand_length {l : Limiter} (distinct : (l.keys.map Prod.fst).Nodup) :
    l.hotDemand.length ≤ l.hotSet.hot.size := by
  have names : ((l.keys.filter fun entry => l.hotSet.isHot entry.1).map (·.1)).length ≤
      l.hotSet.hot.keys.length := by
    refine (List.subperm_of_subset ?_ ?_).length_le
    · exact distinct.sublist (List.filter_sublist.map _)
    · intro name mem
      obtain ⟨entry, listed, rfl⟩ := List.mem_map.mp mem
      rw [ExtTreeMap.mem_keys, ExtTreeMap.mem_iff_contains]
      exact (List.mem_filter.mp listed).2
  simp only [hotDemand, List.length_insertionSort, List.length_map] at names ⊢
  rw [ExtTreeMap.length_keys] at names
  exact names

theorem hotDemand_fits {l : Limiter} {now : Nat} (sound : l.Sound now) :
    l.hotDemand.length ≤ maxDemandKeys ∧
      ∀ entry ∈ l.hotDemand, 0 ≤ entry.2.1 ∧ entry.2.1 ≤ maxRate := by
  constructor
  · exact ((hotDemand_length sound.distinct).trans sound.hotSet.fits).trans sound.size
  · intro entry mem
    rw [hotDemand, List.mem_insertionSort] at mem
    obtain ⟨tracked, listed, rfl⟩ := List.mem_map.mp mem
    have bounded := (sound.keys tracked (List.mem_of_mem_filter listed)).2
    exact ⟨bounded.nonneg, bounded.le⟩

end Limiter
theorem roundHalfEven_le (x : ℚ) : roundHalfEven x ≤ ⌊x⌋.toNat + 1 := by
  unfold roundHalfEven
  dsimp only
  split_ifs <;> omega

/- A rate fits a float: it is finite, and not negative. -/
theorem F32.ofRat_fits {x : ℚ} (nonneg : 0 ≤ x) (le : x ≤ maxRate) :
    (F32.ofRat x).isFinite = true ∧ (F32.ofRat x).nonneg = true := by
  have bound : x < 2 ^ 94 := by
    refine lt_of_le_of_lt le ?_
    norm_num [maxRate, u64Max]
  have whole : (0 : ℤ) ≤ ⌊x * 2 ^ 149⌋ := Int.floor_nonneg.mpr (by positivity)
  set units := ⌊x * 2 ^ 149⌋.toNat with hunits
  have units_eq : ((units : ℤ) : ℚ) = ⌊x * 2 ^ 149⌋ := by
    rw [hunits, Int.toNat_of_nonneg whole]
  have above : x * 2 ^ 149 < (units : ℚ) + 1 := by
    have := Int.lt_floor_add_one (x * 2 ^ 149)
    rw [← units_eq] at this
    exact_mod_cast this
  have small : units < 2 ^ 243 := by
    have := Int.floor_le (x * 2 ^ 149)
    rw [← units_eq] at this
    have : (units : ℚ) < 2 ^ 243 := by
      have : ((units : ℤ) : ℚ) = (units : ℚ) := by norm_cast
      nlinarith
    exact_mod_cast this
  have scale : units.log2 - 23 ≤ 219 := by
    have : units.log2 < 243 := by
      by_cases zero : units = 0
      · simp [zero]
      · exact (Nat.log2_lt zero).mpr small
    omega
  have top : units + 1 ≤ 2 ^ (units.log2 - 23) * 2 ^ 24 := by
    rw [← pow_add]
    have := Nat.lt_log2_self (n := units)
    have grown : 2 ^ (units.log2 + 1) ≤ 2 ^ (units.log2 - 23 + 24) :=
      Nat.pow_le_pow_right (by omega) (by omega)
    omega
  have rounded : roundHalfEven (x * 2 ^ 149 / 2 ^ (units.log2 - 23)) ≤ 2 ^ 24 + 1 := by
    refine (roundHalfEven_le _).trans ?_
    have : x * 2 ^ 149 / 2 ^ (units.log2 - 23) < 2 ^ 24 := by
      rw [div_lt_iff₀ (by positivity)]
      have : ((units + 1 : Nat) : ℚ) ≤ ((2 ^ (units.log2 - 23) * 2 ^ 24 : Nat) : ℚ) := by
        exact_mod_cast top
      push_cast at this
      linarith
    have : ⌊x * 2 ^ 149 / 2 ^ (units.log2 - 23)⌋ < 2 ^ 24 := by
      rw [Int.floor_lt]
      exact_mod_cast this
    omega
  have bits : (F32.ofRat x).bits.toNat < F32.infinityBits := by
    simp only [F32.ofRat, ← hunits, F32.infinityBits] at rounded ⊢
    rw [UInt32.toNat_ofNat_of_lt' (by simp only [UInt32.size]; omega)]
    omega
  have magnitude : (F32.ofRat x).magnitude = (F32.ofRat x).bits.toNat := by
    simp only [F32.magnitude, F32.infinityBits] at bits ⊢
    omega
  have positive : (F32.ofRat x).negative = false := by
    simp only [F32.negative, F32.infinityBits, decide_eq_false_iff_not] at bits ⊢
    omega
  constructor
  · simp only [F32.isFinite, magnitude, bits, decide_true]
  · simp only [F32.nonneg, F32.order, magnitude, positive, bits.le, if_true, Bool.false_eq_true,
      if_false, Option.any_some, decide_eq_true_eq]
    omega

end Rateguard
