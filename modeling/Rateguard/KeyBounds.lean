import Rateguard.HotKeys

/- How many keys a limiter tracks, and which of them a tick drops: the silent ones, and over the
   cap the ones with the least demand. A hot key is neither. -/
namespace Rateguard
open Std (ExtTreeMap)

namespace Limiter

/- The limiters that calls of any kind lead to. Between two calls the map may come to list its
   keys in another order. -/
inductive Reached (decay : Nat → Nat → ℚ) (config : Config) : Limiter → Prop
  | new {l : Limiter} : Limiter.new config = some l → Reached decay config l
  | reordered {l : Limiter} (order : List (UInt64 × KeyState)) :
      Reached decay config l → order.Perm l.keys → Reached decay config { l with keys := order }
  | setCap {l : Limiter} (cap : Option ℚ) :
      Reached decay config l → Reached decay config (l.setCap cap)
  | checkIn {l l' : Limiter} {key : UInt64} {limit : Limit} {now clusterSize : Nat}
      {decision : Decision} : Reached decay config l →
      l.checkIn key limit now clusterSize = some (decision, l') → Reached decay config l'
  | checkInTraced {l l' : Limiter} {key : UInt64} {limit : Limit} {shadow : Option Limit}
      {now clusterSize : Nat} {decisions : Decision × Option Decision} : Reached decay config l →
      l.checkInTraced key limit shadow now clusterSize = some (decisions, l') →
      Reached decay config l'
  | record {l l' : Limiter} {key : UInt64} {tally : Tally} {limit : Limit}
      {now clusterSize : Nat} : Reached decay config l →
      l.record key tally limit now clusterSize = some l' → Reached decay config l'
  | tick {l l' : Limiter} {σ : Type} {share : σ → UInt64 → ℚ → ℚ → ℚ × σ}
      {now clusterSize : Nat} {hotElsewhere : UInt64 → Bool} {s s' : σ} : Reached decay config l →
      l.tickWithShares share decay now clusterSize hotElsewhere s = some (l', s') →
      Reached decay config l'

theorem Tidy.reordered {l : Limiter} {latest : Nat} {order : List (UInt64 × KeyState)}
    (tidy : l.Tidy latest) (perm : order.Perm l.keys) :
    ({ l with keys := order } : Limiter).Tidy latest := by
  have names := perm.map Prod.fst
  exact ⟨names.nodup_iff.mpr tidy.distinct,
    fun key hot => names.mem_iff.mpr (tidy.tracked key hot), tidy.size, tidy.hotSet⟩

/- A tidy limiter stays so at any time, before or after those it has seen. -/
theorem Reached.tidy {decay : Nat → Nat → ℚ} {config : Config} {l : Limiter}
    (reached : Reached decay config l) :
    config.Valid ∧ l.config = config ∧ ∃ latest, l.Tidy latest := by
  induction reached with
  | new h =>
    have tidy := new_tidy h
    simp only [Limiter.new, Option.ite_none_right_eq_some, Option.map_eq_some_iff] at h
    obtain ⟨valid, hotSet, _, rfl⟩ := h
    exact ⟨valid, rfl, 0, tidy⟩
  | reordered order _ perm ih =>
    obtain ⟨valid, same, latest, tidy⟩ := ih
    exact ⟨valid, same, latest, tidy.reordered perm⟩
  | setCap cap _ ih =>
    obtain ⟨valid, same, latest, tidy⟩ := ih
    exact ⟨valid, same, latest, tidy.distinct, tidy.tracked, tidy.size, tidy.hotSet⟩
  | checkIn _ h ih =>
    obtain ⟨valid, same, latest, tidy⟩ := ih
    have serves := checkIn_serves h
    exact ⟨valid, serves.config.trans same, latest, tidy.grows serves.toGrows⟩
  | checkInTraced _ h ih =>
    obtain ⟨valid, same, latest, tidy⟩ := ih
    have serves := checkInTraced_serves h
    exact ⟨valid, serves.config.trans same, latest, tidy.grows serves.toGrows⟩
  | record _ h ih =>
    obtain ⟨valid, same, latest, tidy⟩ := ih
    have serves := record_serves h
    exact ⟨valid, serves.config.trans same, latest, tidy.grows serves.toGrows⟩
  | @tick l l' σ share now _ _ _ _ _ h ih =>
    obtain ⟨valid, same, latest, tidy⟩ := ih
    obtain ⟨_, _, ticked⟩ := tickWithShares_spec h
    exact ⟨valid, ticked.config.trans same, max latest now,
      (tidy.later (Nat.le_max_left _ _)).tick (Nat.le_max_right _ _) ticked⟩

end Limiter

/- A key the first pass drops has nothing to remember. -/
structure KeyState.Silent (state : KeyState) (now : Nat) : Prop where
  debt : state.gcra.hasDebt now = false
  demand : state.demand.rate < silentDemand
  pending : state.demand.hasPending = false

theorem KeyState.apply_demand (state : KeyState) (wanted : Quota) (now : Nat) :
    (state.apply wanted now).demand = state.demand := by
  unfold KeyState.apply
  split <;> rfl

/- What the first pass keeps has its demand folded in, and what it does not is silent. -/
theorem settle_dropped {decay : Nat → Nat → ℚ} {now : Nat} {n alpha : ℚ}
    {hotElsewhere : UInt64 → Bool} {keys kept : List (UInt64 × KeyState)} {hotSet after : HotSet}
    (h : settle decay now n alpha hotElsewhere keys hotSet = some (kept, after)) {key : UInt64}
    {state : KeyState} (mem : (key, state) ∈ keys) :
    (key, state.tick decay now) ∈ kept ∨ (state.tick decay now).Silent now := by
  induction keys generalizing hotSet kept with
  | nil => simp at mem
  | cons first rest ih =>
    obtain ⟨own, held⟩ := first
    simp only [settle, bind, Option.bind_eq_some_iff] at h
    obtain ⟨⟨isHot, updated⟩, _, ⟨others, final⟩, later, h⟩ := h
    simp only [Option.some.injEq, Prod.mk.injEq] at h
    obtain ⟨rfl, rfl⟩ := h
    rcases List.mem_cons.mp mem with same | mem
    · obtain ⟨rfl, rfl⟩ := Prod.mk.inj same
      split
      · exact .inl List.mem_cons_self
      · rename_i dropped
        simp only [Bool.or_eq_true, not_or, Bool.not_eq_true, decide_eq_false_iff_not,
          not_le] at dropped
        obtain ⟨⟨⟨_, debt⟩, demand⟩, pending⟩ := dropped
        exact .inr ⟨debt, demand, pending⟩
    · rcases ih later mem with listed | silent
      · left
        split
        · exact List.mem_cons_of_mem _ listed
        · exact listed
      · exact .inr silent

theorem settle_mem {decay : Nat → Nat → ℚ} {now : Nat} {n alpha : ℚ}
    {hotElsewhere : UInt64 → Bool} {keys kept : List (UInt64 × KeyState)} {hotSet after : HotSet}
    (h : settle decay now n alpha hotElsewhere keys hotSet = some (kept, after))
    {entry : UInt64 × KeyState} (mem : entry ∈ kept) :
    ∃ state, (entry.1, state) ∈ keys ∧ entry.2 = state.tick decay now := by
  induction keys generalizing hotSet kept with
  | nil =>
    simp only [settle, Option.some.injEq, Prod.mk.injEq] at h
    obtain ⟨rfl, _⟩ := h
    simp at mem
  | cons first rest ih =>
    obtain ⟨own, held⟩ := first
    simp only [settle, bind, Option.bind_eq_some_iff] at h
    obtain ⟨⟨isHot, updated⟩, _, ⟨others, final⟩, later, h⟩ := h
    simp only [Option.some.injEq, Prod.mk.injEq] at h
    obtain ⟨rfl, rfl⟩ := h
    have cases : entry = (own, held.tick decay now) ∨ entry ∈ others := by
      split at mem
      · exact List.mem_cons.mp mem
      · exact .inr mem
    rcases cases with rfl | mem
    · exact ⟨held, List.mem_cons_self, rfl⟩
    · obtain ⟨state, listed, same⟩ := ih later mem
      exact ⟨state, List.mem_cons_of_mem _ listed, same⟩

namespace Limiter

theorem Tidy.hot_count {l : Limiter} {latest : Nat} (tidy : l.Tidy latest) :
    l.keys.countP (fun entry => l.hotSet.isHot entry.1) ≤ l.config.hotSetSize := by
  have listed := hotDemand_length tidy.distinct
  simp only [hotDemand, List.length_insertionSort, List.length_map] at listed
  rw [List.countP_eq_length_filter]
  exact listed.trans (tidy.size ▸ tidy.hotSet.fits)

section Cap
variable (decay : Nat → Nat → ℚ) (l : Limiter)

def victims : List (UInt64 × ℚ) :=
  ((l.keys.filter fun entry => !l.hotSet.isHot entry.1).map fun entry =>
    (entry.1, entry.2.demand.unbiasedRate decay)).insertionSort
      fun a b => a.2 < b.2 ∨ a.2 = b.2 ∧ a.1 ≤ b.1

def excess : List UInt64 :=
  ((l.victims decay).take (l.keys.length - l.config.maxTrackedKeys)).map (·.1)

variable {decay l}

theorem enforceCap_keys :
    (l.enforceCap decay).keys = l.keys.filter fun entry => !(l.excess decay).contains entry.1 := by
  unfold enforceCap excess victims
  split
  · rename_i fits
    rw [Nat.sub_eq_zero_of_le fits, List.take_zero, List.map_nil]
    exact (List.filter_eq_self.mpr fun _ _ => rfl).symm
  · rfl

theorem mem_victims {victim : UInt64 × ℚ} : victim ∈ l.victims decay ↔
    ∃ entry ∈ l.keys, l.hotSet.isHot entry.1 = false ∧
      (entry.1, entry.2.demand.unbiasedRate decay) = victim := by
  rw [victims, List.mem_insertionSort, List.mem_map]
  simp only [List.mem_filter, Bool.not_eq_true', and_assoc]

theorem victims_names :
    ((l.victims decay).map (·.1)).Perm
      ((l.keys.filter fun entry => !l.hotSet.isHot entry.1).map Prod.fst) := by
  have names := (List.perm_insertionSort (fun a b : UInt64 × ℚ => a.2 < b.2 ∨ a.2 = b.2 ∧ a.1 ≤ b.1)
    ((l.keys.filter fun entry => !l.hotSet.isHot entry.1).map fun entry =>
      (entry.1, entry.2.demand.unbiasedRate decay))).map Prod.fst
  rwa [List.map_map] at names

theorem excess_length
    (room : l.keys.countP (fun entry => l.hotSet.isHot entry.1) ≤ l.config.maxTrackedKeys) :
    (l.excess decay).length = l.keys.length - l.config.maxTrackedKeys := by
  have cold := (@victims_names decay l).length_eq
  have all := List.length_eq_countP_add_countP (fun entry => l.hotSet.isHot entry.1) (l := l.keys)
  rw [List.length_map, List.length_map, ← List.countP_eq_length_filter] at cold
  have same : l.keys.countP (fun entry => !l.hotSet.isHot entry.1) =
      l.keys.countP (fun entry => decide ¬l.hotSet.isHot entry.1 = true) := by
    congr 1
    funext entry
    simp
  rw [excess, List.length_map, List.length_take]
  omega

theorem enforceCap_length (distinct : (l.keys.map Prod.fst).Nodup)
    (room : l.keys.countP (fun entry => l.hotSet.isHot entry.1) ≤ l.config.maxTrackedKeys) :
    (l.enforceCap decay).keys.length = min l.keys.length l.config.maxTrackedKeys := by
  have coldNames := distinct.sublist
    ((List.filter_sublist (p := fun entry => !l.hotSet.isHot entry.1)).map Prod.fst)
  have gone : ((l.keys.filter fun entry => (l.excess decay).contains entry.1).map Prod.fst).Perm
      (l.excess decay) := by
    refine (List.perm_ext_iff_of_nodup ?_ ?_).mpr fun key => ?_
    · exact distinct.sublist (List.filter_sublist.map _)
    · rw [excess, List.map_take]
      exact (victims_names.nodup_iff.mpr coldNames).sublist (List.take_sublist _ _)
    · constructor
      · intro mem
        obtain ⟨entry, listed, rfl⟩ := List.mem_map.mp mem
        simpa using (List.mem_filter.mp listed).2
      · intro mem
        obtain ⟨victim, taken, rfl⟩ := List.mem_map.mp mem
        obtain ⟨entry, listed, _, rfl⟩ := mem_victims.mp (List.mem_of_mem_take taken)
        exact List.mem_map.mpr ⟨entry, List.mem_filter.mpr ⟨listed, by simpa using mem⟩, rfl⟩
  have number := gone.length_eq
  rw [List.length_map, excess_length room] at number
  have all := (List.filter_append_perm (fun entry => (l.excess decay).contains entry.1)
    l.keys).length_eq
  rw [List.length_append] at all
  rw [enforceCap_keys]
  omega

/- What the cap takes is not hot, and has no more demand than what it leaves. -/
theorem excess_least {key : UInt64} (gone : key ∈ l.excess decay)
    (distinct : (l.keys.map Prod.fst).Nodup) {state : KeyState} (mem : (key, state) ∈ l.keys) :
    l.hotSet.isHot key = false ∧ ∀ other held, (other, held) ∈ l.keys →
      other ∉ l.excess decay → l.hotSet.isHot other = false →
        state.demand.unbiasedRate decay ≤ held.demand.unbiasedRate decay := by
  obtain ⟨victim, taken, rfl⟩ := List.mem_map.mp gone
  obtain ⟨⟨_, state'⟩, listed, cold, rfl⟩ := mem_victims.mp (List.mem_of_mem_take taken)
  obtain rfl : state' = state := by
    have first := (Reordered.lookup_eq_some_iff distinct).mpr listed
    rw [(Reordered.lookup_eq_some_iff distinct).mpr mem] at first
    exact (Option.some.inj first).symm
  refine ⟨cold, fun other held tracked left coldOther => ?_⟩
  have := victims_total
  have := victims_trans
  have sorted : (l.victims decay).Pairwise fun a b => a.2 < b.2 ∨ a.2 = b.2 ∧ a.1 ≤ b.1 :=
    List.pairwise_insertionSort _ _
  have offered := (@mem_victims decay l _).mpr ⟨(other, held), tracked, coldOther, rfl⟩
  rw [← List.take_append_drop (l.keys.length - l.config.maxTrackedKeys) (l.victims decay)]
    at sorted offered
  rcases List.mem_append.mp offered with taken' | behind
  · exact absurd (List.mem_map.mpr ⟨_, taken', rfl⟩) left
  · rcases (List.pairwise_append.mp sorted).2.2 _ taken _ behind with less | ⟨same, _⟩
    · exact less.le
    · exact same.le

end Cap

def tracked (l : Limiter) (key : UInt64) : Bool := (l.find key).isSome

def trackedKeys (l : Limiter) : Nat := l.keys.length

def hotKeys (l : Limiter) : Nat := l.hotSet.len

theorem tracked_iff {l : Limiter} {key : UInt64} :
    l.tracked key = true ↔ key ∈ l.keys.map Prod.fst := by
  rw [← not_iff_not, ← find_none_iff, tracked]
  simp

/- What a tick leaves of the keys. First it keeps some of them, and then there is the cap. -/
structure Kept (decay : Nat → Nat → ℚ) (l : Limiter) (now : Nat) (kept : List (UInt64 × KeyState))
    (l' : Limiter) : Prop where
  tracked : ∀ key, l'.hotSet.isHot key = true → l'.tracked key = true
  hotKeys : l'.hotKeys ≤ l.config.hotSetSize
  trackedKeys : l'.trackedKeys ≤ l.config.maxTrackedKeys
  distinct : (l'.keys.map Prod.fst).Nodup ∧ (kept.map Prod.fst).Nodup
  known : ∀ key, l'.tracked key = true → key ∈ kept.map Prod.fst
  dropped : ∀ key state, l.find key = some state → key ∉ kept.map Prod.fst →
    l'.hotSet.isHot key = false ∧ (state.tick decay now).Silent now
  excess : l'.trackedKeys = min kept.length l.config.maxTrackedKeys
  least : ∀ key state, (key, state) ∈ kept → l'.tracked key = false →
    l'.hotSet.isHot key = false ∧ ∀ other held, (other, held) ∈ kept → l'.tracked other = true →
      l'.hotSet.isHot other = false →
        state.demand.unbiasedRate decay ≤ held.demand.unbiasedRate decay

section Tick
variable {σ : Type} {share : σ → UInt64 → ℚ → ℚ → ℚ × σ} {decay : Nat → Nat → ℚ}
  {l l' : Limiter} {now clusterSize : Nat} {hotElsewhere : UInt64 → Bool} {s s' : σ}
  {kept quoted : List (UInt64 × KeyState)}

/- A key goes through the second pass with the demand the first left it. -/
theorem Ticked.quoted_mem
    (ticked : Ticked share decay l now clusterSize hotElsewhere s l' s' kept quoted)
    {key : UInt64} {state : KeyState} (mem : (key, state) ∈ kept) :
    ∃ state', (key, state') ∈ quoted ∧ state'.demand = state.demand := by
  have keeps := applyQuotas_keeps (fun held wanted => held.apply_demand wanted now) ticked.quotas
  have listed : (key, state.demand) ∈ quoted.map fun entry => (entry.1, entry.2.demand) :=
    keeps ▸ List.mem_map.mpr ⟨_, mem, rfl⟩
  obtain ⟨⟨_, state'⟩, mem', same⟩ := List.mem_map.mp listed
  obtain ⟨rfl, demand⟩ := Prod.mk.inj same
  exact ⟨state', mem', demand⟩

theorem Ticked.keeps {latest : Nat} (tidy : l.Tidy latest) (le : now ≤ latest)
    (room : l.config.hotSetSize ≤ l.config.maxTrackedKeys)
    (ticked : Ticked share decay l now clusterSize hotElsewhere s l' s' kept quoted) :
    Kept decay l now kept l' := by
  have tidy' := tidy.tick le ticked
  have names := applyQuotas_names ticked.quotas
  have distinct : (kept.map Prod.fst).Nodup :=
    tidy.distinct.sublist (settle_spec tidy.distinct ticked.settled).1
  have distinctQuoted : (quoted.map Prod.fst).Nodup := names ▸ distinct
  have cut := ticked.cut
  set before : Limiter := { l with keys := quoted, hotSet := l'.hotSet, lastTick := some now }
  have tidyBefore : before.Tidy latest := by
    refine ⟨distinctQuoted, fun key hot => ?_, ticked.config ▸ tidy'.size, tidy'.hotSet⟩
    exact (ticked.keys.map Prod.fst).subset (tidy'.tracked key hot)
  have fits := tidyBefore.hot_count.trans room
  have length : l'.keys.length = min kept.length l.config.maxTrackedKeys := by
    have number := congrArg List.length names
    rw [List.length_map, List.length_map] at number
    rw [cut, enforceCap_length distinctQuoted fits, ← number]
  have tracked_iff' (key : UInt64) :
      l'.tracked key = true ↔ key ∈ quoted.map Prod.fst ∧ key ∉ before.excess decay := by
    rw [tracked_iff, cut, enforceCap_keys, show before.keys = quoted from rfl]
    simp [List.mem_map, List.mem_filter]
  constructor
  · exact fun key hot => tracked_iff.mpr (tidy'.tracked key hot)
  · have fits := tidy'.hotSet.fits
    rwa [tidy'.size, ticked.config] at fits
  · exact length.trans_le (Nat.min_le_right _ _)
  · exact ⟨tidy'.distinct, distinct⟩
  · exact fun key there => names ▸ ((tracked_iff' key).mp there).1
  · intro key state found absent
    have mem := find_mem found
    refine ⟨?_, ?_⟩
    · by_contra hot
      rw [Bool.not_eq_false] at hot
      rcases settle_tracked tidy.distinct ticked.settled hot with listed | ⟨unlisted, _⟩
      · exact absent listed
      · exact unlisted (List.mem_map.mpr ⟨_, mem, rfl⟩)
    · exact (settle_dropped ticked.settled mem).resolve_left fun listed =>
        absent (List.mem_map.mpr ⟨_, listed, rfl⟩)
  · exact length
  · intro key state mem untracked
    obtain ⟨state', mem', demand⟩ := ticked.quoted_mem mem
    have gone : key ∈ before.excess decay := by
      by_contra left
      have there := (tracked_iff' key).mpr ⟨List.mem_map.mpr ⟨_, mem', rfl⟩, left⟩
      rw [untracked] at there
      simp at there
    obtain ⟨cold, least⟩ := excess_least gone distinctQuoted mem'
    refine ⟨cold, fun other held listed there coldOther => ?_⟩
    obtain ⟨held', listed', demand'⟩ := ticked.quoted_mem listed
    rw [← demand, ← demand']
    exact least other held' listed' ((tracked_iff' other).mp there).2 coldOther

end Tick
end Limiter

/-- The keys of a limiter stay within bounds, over any calls in any order at any times. After
    every tick the hot keys are tracked and no more than the hot set holds, and no more keys are
    tracked than the cap allows. What the tick drops is silent or over the cap, and never hot;
    over the cap go exactly the keys that are too many, those with the least demand. -/
theorem keys_bounded (decay : Nat → Nat → ℚ) (config : Config) (l : Limiter)
    (reached : Limiter.Reached decay config l) {σ : Type}
    (share : σ → UInt64 → ℚ → ℚ → ℚ × σ) (now clusterSize : Nat) (hotElsewhere : UInt64 → Bool)
    (s s' : σ) (l' : Limiter)
    (ticked : l.tickWithShares share decay now clusterSize hotElsewhere s = some (l', s')) :
    l.config = config ∧ ∃ kept, settle decay now clusterSize config.alpha hotElsewhere l.keys
      l.hotSet = some (kept, l'.hotSet) ∧ Limiter.Kept decay l now kept l' := by
  obtain ⟨valid, rfl, latest, tidy⟩ := reached.tidy
  obtain ⟨kept, quoted, spec⟩ := Limiter.tickWithShares_spec ticked
  exact ⟨rfl, kept, spec.settled, spec.keeps (tidy.later (Nat.le_max_left latest now))
    (Nat.le_max_right _ _) valid.2.2.2.2.2.2.2⟩

/- Two keys that want to be hot, with room for one to be tracked. -/
def narrow : Config := ⟨⟨10, 5⟩, 1 / 2, 1 / 2, 10000000000, 1, 1, 10000000000⟩

def narrowTick (l : Limiter) : Option (Limiter × Unit) :=
  l.tickWithShares (stateless fun _ _ limit => limit) (fun _ _ => 9 / 10) 1000000000 1
    (fun _ => false) ()

theorem narrow_ticks : ((Limiter.new narrow).any fun a =>
    (a.record 1 ⟨100, 0, 0⟩ ⟨10, 5⟩ 0 1).any fun b =>
      (b.record 2 ⟨105, 0, 0⟩ ⟨10, 5⟩ 0 1).any fun l => (narrowTick l).any fun (l', _) =>
        l'.tracked 1 && !l'.tracked 2) = true := by
  decide +kernel

theorem keys_bounded_narrow : ∃ l l' kept, narrowTick l = some (l', ()) ∧ l'.tracked 1 = true ∧
    l'.tracked 2 = false ∧ settle (fun _ _ => 9 / 10) 1000000000 (1 : Nat) narrow.alpha
      (fun _ => false) l.keys l.hotSet = some (kept, l'.hotSet) ∧
    Limiter.Kept (fun _ _ => 9 / 10) l 1000000000 kept l' := by
  obtain ⟨a, made, ran⟩ := (Option.any_eq_true _ _).mp narrow_ticks
  obtain ⟨b, first, ran⟩ := (Option.any_eq_true _ _).mp ran
  obtain ⟨l, second, ran⟩ := (Option.any_eq_true _ _).mp ran
  obtain ⟨⟨l', s'⟩, ticked, ran⟩ := (Option.any_eq_true _ _).mp ran
  rw [Bool.and_eq_true, Bool.not_eq_true'] at ran
  have reached : Limiter.Reached (fun _ _ => 9 / 10) narrow l :=
    .record (.record (.new made) first) second
  obtain ⟨_, kept, settled, bounds⟩ := keys_bounded _ _ l reached _ _ _ _ _ _ l' ticked
  exact ⟨l, l', kept, ticked, ran.1, ran.2, settled, bounds⟩

end Rateguard
