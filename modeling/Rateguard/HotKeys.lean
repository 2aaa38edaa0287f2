import Rateguard.Reachable
import Rateguard.TrackedKeys
import Rateguard.VisitOrder

/- Which keys of a limiter are hot: ones it tracks, no more than its hot set has room for. What a
   tick makes of the quotas, and that nothing but a tick changes who is hot. -/
namespace Rateguard
open Std (ExtTreeMap)

namespace HotSet

theorem promote_isHot {hs after : HotSet} {key : UInt64} {demandRate : ℚ} {primary hot : Bool}
    {now : Nat} (h : hs.promote key demandRate primary now = some (hot, after)) :
    after.isHot key = hot := by
  unfold promote at h
  split at h
  · simp only [Option.some.injEq, Prod.mk.injEq] at h
    obtain ⟨rfl, rfl⟩ := h
    simp [isHot]
  · rename_i absent
    split at h
    · simp only [Option.some.injEq, Prod.mk.injEq] at h
      obtain ⟨rfl, rfl⟩ := h
      simp [isHot, insert]
    · simp only [bind, Option.bind_eq_some_iff] at h
      obtain ⟨⟨weakestKey, weakestDemand⟩, _, h⟩ := h
      split at h
      · simp only [Option.some.injEq, Prod.mk.injEq] at h
        obtain ⟨rfl, rfl⟩ := h
        simp [isHot, insert]
      · simp only [Option.some.injEq, Prod.mk.injEq] at h
        obtain ⟨rfl, rfl⟩ := h
        simp [isHot, ExtTreeMap.contains_eq_isSome_getElem?, absent]

/- What a visit returns is whether the key is hot after it. -/
theorem updateWith_isHot {hs after : HotSet} {key : UInt64} {demandRate threshold : ℚ} {now : Nat}
    {hotElsewhere hot : Bool}
    (h : hs.updateWith key demandRate threshold now hotElsewhere = some (hot, after)) :
    after.isHot key = hot := by
  unfold updateWith at h
  split at h
  · exact promote_isHot h
  · obtain ⟨cooled, _⟩ := hs.cool_spec key demandRate now
    generalize hs.cool key demandRate now = result at h cooled
    obtain ⟨done, cool⟩ := result
    simp only at cooled
    subst done
    simp only [Bool.not_true, Bool.false_eq_true, ↓reduceIte] at h
    split at h
    · rename_i entry found
      have held : cool.isHot key = true := (cool.isHot_iff key).mpr ⟨entry, found⟩
      split at h
      · simp only [Option.some.injEq, Prod.mk.injEq] at h
        obtain ⟨rfl, rfl⟩ := h
        exact held
      · split at h
        · simp only [Option.some.injEq, Prod.mk.injEq] at h
          obtain ⟨rfl, rfl⟩ := h
          exact held
        · simp only [Option.some.injEq, Prod.mk.injEq] at h
          obtain ⟨rfl, rfl⟩ := h
          simp [isHot]
    · rename_i absent
      split at h
      · exact promote_isHot h
      · simp only [Option.some.injEq, Prod.mk.injEq] at h
        obtain ⟨rfl, rfl⟩ := h
        simp [isHot, ExtTreeMap.contains_eq_isSome_getElem?, absent]

end HotSet

/-- A key that is hot once the first pass is over was kept by it, or was hot and not visited. By
    induction on the keys: a later visit can only evict the keys it is not about. -/
theorem settle_tracked {decay : Nat → Nat → ℚ} {now : Nat} {n alpha : ℚ}
    {hotElsewhere : UInt64 → Bool} {keys kept : List (UInt64 × KeyState)} {hotSet after : HotSet}
    (distinct : (keys.map Prod.fst).Nodup)
    (h : settle decay now n alpha hotElsewhere keys hotSet = some (kept, after)) {key : UInt64}
    (hot : after.isHot key = true) :
    key ∈ kept.map Prod.fst ∨ key ∉ keys.map Prod.fst ∧ hotSet.isHot key = true := by
  induction keys generalizing hotSet kept with
  | nil =>
    simp only [settle, Option.some.injEq, Prod.mk.injEq] at h
    obtain ⟨rfl, rfl⟩ := h
    exact .inr ⟨by simp, hot⟩
  | cons first rest ih =>
    obtain ⟨own, state⟩ := first
    obtain ⟨absent, distinctRest⟩ := List.nodup_cons.mp distinct
    simp only [settle, bind, Option.bind_eq_some_iff] at h
    obtain ⟨⟨isHot, updated⟩, update, ⟨others, final⟩, later, h⟩ := h
    simp only [Option.some.injEq, Prod.mk.injEq] at h
    obtain ⟨rfl, rfl⟩ := h
    have visited := HotSet.updateWith_isHot update
    have keeps := (HotSet.updateWith_spec update).1
    rcases ih distinctRest later with listed | ⟨unlisted, held⟩
    · left
      split
      · exact List.mem_cons_of_mem _ listed
      · exact listed
    · by_cases same : key = own
      · subst same
        left
        rw [visited] at held
        simp [held]
      · right
        refine ⟨by simpa [same] using unlisted, ?_⟩
        obtain ⟨entry, found⟩ := (updated.isHot_iff key).mp held
        rcases keeps key same with before | gone
        · exact (hotSet.isHot_iff key).mpr ⟨entry, before ▸ found⟩
        · simp [gone] at found

theorem settle_hotSet {decay : Nat → Nat → ℚ} {now latest : Nat} {n alpha : ℚ}
    {hotElsewhere : UInt64 → Bool} {keys kept : List (UInt64 × KeyState)} {hotSet after : HotSet}
    (sound : hotSet.Sound latest) (le : now ≤ latest)
    (h : settle decay now n alpha hotElsewhere keys hotSet = some (kept, after)) :
    after.Sound latest ∧ after.maxSize = hotSet.maxSize := by
  induction keys generalizing hotSet kept with
  | nil =>
    simp only [settle, Option.some.injEq, Prod.mk.injEq] at h
    obtain ⟨_, rfl⟩ := h
    exact ⟨sound, rfl⟩
  | cons first rest ih =>
    obtain ⟨own, state⟩ := first
    simp only [settle, bind, Option.bind_eq_some_iff] at h
    obtain ⟨⟨isHot, updated⟩, update, ⟨others, final⟩, later, h⟩ := h
    simp only [Option.some.injEq, Prod.mk.injEq] at h
    obtain ⟨_, rfl⟩ := h
    obtain ⟨isHot', updated', again, soundU, sizeU⟩ := HotSet.updateWith_total sound le own
      (state.tick decay now).demand.rate ((state.tick decay now).limit.rate / n * alpha)
      (elsewhere hotElsewhere own (state.tick decay now))
    rw [update, Option.some.injEq, Prod.mk.injEq] at again
    obtain ⟨_, rfl⟩ := again
    obtain ⟨soundF, sizeF⟩ := ih soundU later
    exact ⟨soundF, sizeF.trans sizeU⟩

section Quotas
variable {σ : Type} {share : σ → UInt64 → ℚ → ℚ → ℚ × σ} {pure : UInt64 → ℚ → ℚ → ℚ}
  {config : Config} {cap : Option ℚ} {n : ℚ} {hotElsewhere : UInt64 → Bool} {hotSet : HotSet}
  {now : Nat}

/- The second pass changes the quotas of the keys, and nothing else the first pass left. -/
theorem applyQuotas_keeps {β : Type} {f : KeyState → β}
    (keeps : ∀ (state : KeyState) wanted, f (state.apply wanted now) = f state)
    {keys quoted : List (UInt64 × KeyState)} {s s' : σ}
    (h : applyQuotas share config cap n hotElsewhere hotSet now keys s = some (quoted, s')) :
    quoted.map (fun entry => (entry.1, f entry.2)) =
      keys.map fun entry => (entry.1, f entry.2) := by
  induction keys generalizing quoted s s' with
  | nil =>
    simp only [applyQuotas, Option.some.injEq, Prod.mk.injEq] at h
    obtain ⟨rfl, _⟩ := h
    rfl
  | cons entry rest ih =>
    obtain ⟨key, state⟩ := entry
    simp only [applyQuotas] at h
    generalize (if hotSet.isHot key = true then share s key state.demand.rate state.limit.rate
      else (0, s)) = result at h
    obtain ⟨asked, next⟩ := result
    simp only [bind, Option.bind_eq_some_iff, Option.some.injEq, Prod.mk.injEq] at h
    obtain ⟨wanted, _, ⟨others, last⟩, later, rfl, _⟩ := h
    rw [List.map_cons, List.map_cons, ih later, keeps]

theorem applyQuotas_names {keys quoted : List (UInt64 × KeyState)} {s s' : σ}
    (h : applyQuotas share config cap n hotElsewhere hotSet now keys s = some (quoted, s')) :
    quoted.map Prod.fst = keys.map Prod.fst := by
  have names := congrArg (List.map Prod.fst) (@applyQuotas_keeps _ _ _ _ _ _ _ _ _ (fun _ => ())
    (fun _ _ => rfl) _ _ _ _ h)
  rwa [List.map_map, List.map_map] at names

/- The second pass is a map as well where the share asked for does not depend on what the caller
   keeps between the calls. -/
theorem applyQuotas_map (same : ∀ s key own limit, (share s key own limit).1 = pure key own limit)
    {keys quoted : List (UInt64 × KeyState)} {s s' : σ}
    (h : applyQuotas share config cap n hotElsewhere hotSet now keys s = some (quoted, s')) :
    keys.mapM (withQuota pure config cap n hotElsewhere hotSet now) = some quoted := by
  induction keys generalizing quoted s s' with
  | nil =>
    simp only [applyQuotas, Option.some.injEq, Prod.mk.injEq] at h
    obtain ⟨rfl, _⟩ := h
    rfl
  | cons entry rest ih =>
    obtain ⟨key, state⟩ := entry
    have asked : (if hotSet.isHot key = true then share s key state.demand.rate state.limit.rate
        else (0, s)).1 =
        if hotSet.isHot key = true then pure key state.demand.rate state.limit.rate else 0 := by
      split
      · exact same s key _ _
      · rfl
    simp only [applyQuotas] at h
    generalize (if hotSet.isHot key = true then share s key state.demand.rate state.limit.rate
      else (0, s)) = result at h asked
    obtain ⟨first, next⟩ := result
    dsimp only at h asked
    simp only [bind, Option.bind_eq_some_iff, Option.some.injEq, Prod.mk.injEq] at h
    obtain ⟨wanted, quota, ⟨others, last⟩, later, rfl, _⟩ := h
    rw [asked] at quota
    simp only [List.mapM_cons, withQuota, bind, quota, Option.bind_some, ih later]
    rfl

theorem withQuota_some {share : UInt64 → ℚ → ℚ → ℚ} {key : UInt64} {state : KeyState}
    {entry : UInt64 × KeyState}
    (h : withQuota share config cap n hotElsewhere hotSet now (key, state) = some entry) :
    entry.1 = key ∧ entry.2.limit = state.limit ∧ entry.2.demand = state.demand ∧
      quotaFor (appliedRate config cap n hotElsewhere hotSet
        (if hotSet.isHot key then share key state.demand.rate state.limit.rate else 0) key state)
        state.limit.burst = some entry.2.applied := by
  simp only [withQuota, bind, Option.bind_eq_some_iff, Option.some.injEq] at h
  obtain ⟨wanted, quota, rfl⟩ := h
  unfold KeyState.apply
  split
  · rename_i applied
    exact ⟨rfl, rfl, rfl, applied ▸ quota⟩
  · exact ⟨rfl, rfl, rfl, quota⟩

end Quotas

namespace Reordered
variable {β κ : Type}

theorem mem_mapM {α : Type} {f : α → Option β} {as : List α} {bs : List β}
    (mapped : as.mapM f = some bs) {b : β} (mem : b ∈ bs) : ∃ a ∈ as, f a = some b := by
  induction as generalizing bs with
  | nil =>
    obtain rfl := Option.some.inj mapped
    simp at mem
  | cons a as ih =>
    simp only [List.mapM_cons, bind, Option.bind_eq_some_iff] at mapped
    obtain ⟨first, found, others, rest, whole⟩ := mapped
    obtain rfl := Option.some.inj whole
    rcases List.mem_cons.mp mem with rfl | mem
    · exact ⟨a, List.mem_cons_self, found⟩
    · obtain ⟨a', mem', found'⟩ := ih rest mem
      exact ⟨a', List.mem_cons_of_mem _ mem', found'⟩

theorem lookup_mapM [DecidableEq κ] {f : κ × β → Option (κ × β)}
    (keeps : ∀ entry entry', f entry = some entry' → entry'.1 = entry.1)
    {entries entries' : List (κ × β)} (mapped : entries.mapM f = some entries') {key : κ} {b : β}
    (found : entries.lookup key = some b) :
    ∃ b', f (key, b) = some (key, b') ∧ entries'.lookup key = some b' := by
  induction entries generalizing entries' with
  | nil => simp at found
  | cons entry rest ih =>
    obtain ⟨other, value⟩ := entry
    simp only [List.mapM_cons, bind, Option.bind_eq_some_iff] at mapped
    obtain ⟨⟨other', value'⟩, first, others, later, whole⟩ := mapped
    obtain rfl := Option.some.inj whole
    obtain rfl := keeps _ _ first
    rw [List.lookup_cons] at found ⊢
    split at found
    · rename_i same
      obtain rfl := eq_of_beq same
      obtain rfl := Option.some.inj found
      exact ⟨value', first, by simp⟩
    · rename_i apart
      simpa [apart] using ih later found

theorem lookup_filter [DecidableEq κ] {p : κ × β → Bool} {entries : List (κ × β)} {key : κ}
    (passes : ∀ b, p (key, b) = true) : (entries.filter p).lookup key = entries.lookup key := by
  induction entries with
  | nil => rfl
  | cons entry rest ih =>
    obtain ⟨other, value⟩ := entry
    by_cases same : key = other
    · subst same
      rw [List.filter_cons_of_pos (passes value), List.lookup_cons_self, List.lookup_cons_self]
    · have apart : (key == other) = false := by simpa using same
      rw [List.lookup_cons, apart]
      by_cases pass : p (other, value) = true
      · rw [List.filter_cons_of_pos pass, List.lookup_cons, apart]
        exact ih
      · rw [List.filter_cons_of_neg pass]
        exact ih

end Reordered

namespace Limiter

/- No hot key goes over the cap on tracked keys. -/
theorem enforceCap_find (decay : Nat → Nat → ℚ) {l : Limiter} {key : UInt64}
    (hot : l.hotSet.isHot key = true) : (l.enforceCap decay).find key = l.find key := by
  unfold enforceCap find
  dsimp only
  split
  · rfl
  · refine Reordered.lookup_filter fun _ => ?_
    rw [Bool.not_eq_true', List.contains_eq_mem, decide_eq_false_iff_not]
    intro gone
    obtain ⟨victim, taken, same⟩ := List.mem_map.mp gone
    have sorted := List.mem_of_mem_take taken
    rw [List.mem_insertionSort] at sorted
    obtain ⟨entry, listed, rfl⟩ := List.mem_map.mp sorted
    have cold := (List.mem_filter.mp listed).2
    dsimp only at same
    rw [same, hot] at cold
    simp at cold

section
variable {σ : Type} {share : σ → UInt64 → ℚ → ℚ → ℚ × σ} {decay : Nat → Nat → ℚ}

/- A tick by its two passes. -/
structure Ticked (share : σ → UInt64 → ℚ → ℚ → ℚ × σ) (decay : Nat → Nat → ℚ) (l : Limiter)
    (now clusterSize : Nat) (hotElsewhere : UInt64 → Bool) (s : σ) (l' : Limiter) (s' : σ)
    (kept quoted : List (UInt64 × KeyState)) : Prop where
  settled : settle decay now clusterSize l.config.alpha hotElsewhere l.keys l.hotSet =
    some (kept, l'.hotSet)
  quotas : applyQuotas share l.config l.cap clusterSize hotElsewhere l'.hotSet now kept s =
    some (quoted, s')
  config : l'.config = l.config
  cap : l'.cap = l.cap
  keys : l'.keys.Sublist quoted
  hot : ∀ key, l'.hotSet.isHot key = true → l'.find key = quoted.lookup key
  cut : l'.keys = (enforceCap decay
    { l with keys := quoted, hotSet := l'.hotSet, lastTick := some now }).keys

theorem tickWithShares_spec {l l' : Limiter} {now clusterSize : Nat}
    {hotElsewhere : UInt64 → Bool} {s s' : σ}
    (h : l.tickWithShares share decay now clusterSize hotElsewhere s = some (l', s')) :
    ∃ kept quoted, Ticked share decay l now clusterSize hotElsewhere s l' s' kept quoted := by
  simp only [tickWithShares, bind, Option.ite_none_right_eq_some, Option.bind_eq_some_iff,
    Option.some.injEq, Prod.mk.injEq] at h
  obtain ⟨_, ⟨kept, hotSet⟩, settled, ⟨quoted, last⟩, quotas, rfl, rfl⟩ := h
  have capped := enforceCap_hotSet decay
    { l with keys := quoted, hotSet := hotSet, lastTick := some now }
  refine ⟨kept, quoted, ?_⟩
  dsimp only at capped
  refine ⟨?_, ?_, ?_, ?_, capped.2, fun key hot => ?_, ?_⟩
  · dsimp only
    rw [capped.1]
    exact settled
  · dsimp only
    rw [capped.1]
    exact quotas
  · unfold enforceCap
    dsimp only
    split <;> rfl
  · unfold enforceCap
    dsimp only
    split <;> rfl
  · dsimp only at hot
    rw [capped.1] at hot
    exact enforceCap_find decay hot
  · dsimp only
    rw [capped.1]

end

/- What holds of a limiter after any call. -/
structure Tidy (l : Limiter) (now : Nat) : Prop where
  distinct : (l.keys.map Prod.fst).Nodup
  tracked : ∀ key, l.hotSet.isHot key = true → key ∈ l.keys.map Prod.fst
  size : l.hotSet.maxSize = l.config.hotSetSize
  hotSet : l.hotSet.Sound now

theorem Tidy.later {l : Limiter} {now later : Nat} (tidy : l.Tidy now) (le : now ≤ later) :
    l.Tidy later := ⟨tidy.distinct, tidy.tracked, tidy.size, tidy.hotSet.later le⟩

theorem new_tidy {config : Config} {l : Limiter} (h : Limiter.new config = some l) :
    l.Tidy 0 := by
  have sound := new_sound h
  simp only [new, HotSet.new, Option.ite_none_right_eq_some, Option.map_eq_some_iff,
    Option.some.injEq] at h
  obtain ⟨_, hotSet, ⟨_, rfl⟩, rfl⟩ := h
  exact ⟨sound.distinct, fun key hot => by simp [HotSet.isHot] at hot, rfl, sound.hotSet⟩

theorem find_none_iff {l : Limiter} {key : UInt64} :
    l.find key = none ↔ key ∉ l.keys.map Prod.fst := by
  rw [find, List.lookup_eq_none_iff, List.mem_map]
  constructor
  · rintro apart ⟨entry, mem, rfl⟩
    simpa using apart entry mem
  · intro absent entry mem
    have apart : key ≠ entry.1 := fun same => absent ⟨entry, mem, same.symm⟩
    simpa using apart

/- What a call that is no tick does: it may track one more key, at the cold rate. -/
structure Grows (l l' : Limiter) : Prop where
  config : l'.config = l.config
  hotSet : l'.hotSet = l.hotSet
  names : (l'.keys.map Prod.fst).Perm (l.keys.map Prod.fst) ∨
    ∃ key, key ∉ l.keys.map Prod.fst ∧ (l'.keys.map Prod.fst).Perm (key :: l.keys.map Prod.fst)
  fresh : ∀ key state, l.find key = none → l'.find key = some state →
    state.limit.Valid ∧ ∃ size, l.coldQuota state.limit size = some state.applied

theorem Grows.of_perm {l l' : Limiter} (config : l'.config = l.config)
    (hotSet : l'.hotSet = l.hotSet)
    (names : (l'.keys.map Prod.fst).Perm (l.keys.map Prod.fst)) : Grows l l' := by
  refine ⟨config, hotSet, .inl names, fun key state untracked tracked => ?_⟩
  rw [find_none_iff, ← names.mem_iff, ← find_none_iff, tracked] at untracked
  simp at untracked

theorem Grows.of_keys {l l' : Limiter} (config : l'.config = l.config)
    (hotSet : l'.hotSet = l.hotSet) (keys : l'.keys = l.keys) : Grows l l' :=
  .of_perm config hotSet (keys ▸ .refl _)

theorem Tidy.grows {l l' : Limiter} {now : Nat} (tidy : l.Tidy now) (grows : Grows l l') :
    l'.Tidy now := by
  refine ⟨?_, fun key hot => ?_, ?_, grows.hotSet ▸ tidy.hotSet⟩
  · rcases grows.names with same | ⟨key, absent, more⟩
    · exact same.nodup_iff.mpr tidy.distinct
    · exact more.nodup_iff.mpr (List.nodup_cons.mpr ⟨absent, tidy.distinct⟩)
  · rw [grows.hotSet] at hot
    have listed := tidy.tracked key hot
    rcases grows.names with same | ⟨key, absent, more⟩
    · exact same.mem_iff.mpr listed
    · exact more.mem_iff.mpr (List.mem_cons_of_mem _ listed)
  · rw [grows.hotSet, grows.config]
    exact tidy.size

theorem put_names (l : Limiter) (key : UInt64) (state : KeyState) :
    (l.put key state).keys.map Prod.fst = l.keys.map Prod.fst := by
  simp only [put, List.map_map]
  refine List.map_congr_left fun entry _ => ?_
  simp only [Function.comp]
  split
  · exact Eq.symm ‹_›
  · rfl

theorem put_find (l : Limiter) (key : UInt64) (state : KeyState) (other : UInt64) :
    (l.put key state).find other =
      if other = key then (l.find key).map fun _ => state else l.find other := by
  unfold put find
  dsimp only
  induction l.keys with
  | nil => simp
  | cons entry rest ih =>
    obtain ⟨own, held⟩ := entry
    rw [List.map_cons]
    by_cases same : own = key
    · subst same
      by_cases asked : other = own
      · subst asked
        simp
      · have apart : (other == own) = false := by simpa using asked
        simpa [List.lookup_cons, apart, asked] using ih
    · by_cases asked : other = own
      · subst asked
        simp [same]
      · have apart : (other == own) = false := by simpa using asked
        have apart' : (key == own) = false := by simpa using Ne.symm same
        simpa [List.lookup_cons, apart, apart', same] using ih

/- A call about one key. -/
structure Serves (l : Limiter) (key : UInt64) (limit : Limit) (l' : Limiter) : Prop
    extends Grows l l' where
  cap : l'.cap = l.cap
  own : ∃ state, l'.find key = some state ∧ state.limit = limit

theorem Serves.put {l u : Limiter} {key : UInt64} {limit : Limit} {state state' : KeyState}
    (serves : Serves l key limit u) (found : u.find key = some state)
    (same : state'.limit = state.limit ∧ state'.applied = state.applied) :
    Serves l key limit (u.put key state') := by
  have put := put_find u key state'
  refine ⟨⟨serves.config, serves.hotSet, by rw [put_names]; exact serves.names, ?_⟩, serves.cap,
    state', by simp [put, found], ?_⟩
  · intro other last untracked tracked
    rw [put] at tracked
    split at tracked
    · rename_i own
      subst own
      rw [found] at tracked
      obtain rfl := Option.some.inj tracked
      rw [same.1, same.2]
      exact serves.fresh other state untracked found
    · exact serves.fresh other last untracked tracked
  · obtain ⟨held, again, limits⟩ := serves.own
    rw [found] at again
    obtain rfl := Option.some.inj again
    exact same.1.trans limits

theorem entry_serves {l l' : Limiter} {key : UInt64} {limit : Limit} {state : KeyState}
    {now clusterSize : Nat} (h : l.entry key limit now clusterSize = some (state, l')) :
    Serves l key limit l' ∧ l'.find key = some state := by
  simp only [entry, bind, Option.ite_none_right_eq_some, Option.bind_eq_some_iff] at h
  obtain ⟨valid, cold, quota, h⟩ := h
  split at h
  · rename_i held found
    simp only [Option.some.injEq, Prod.mk.injEq] at h
    obtain ⟨rfl, rfl⟩ := h
    have put : (l.put key { held with limit := limit }).find key =
        some { held with limit := limit } := by
      rw [put_find, if_pos rfl, found]
      rfl
    refine ⟨⟨.of_perm rfl rfl ?_, rfl, _, put, rfl⟩, put⟩
    rw [put_names]
  · rename_i untracked
    simp only [Option.some.injEq, Prod.mk.injEq] at h
    obtain ⟨rfl, rfl⟩ := h
    have find (other : UInt64) (state : KeyState) :
        ({ l with keys := l.keys ++ [(key, state)] } : Limiter).find other =
          if other = key then some state else l.find other := by
      unfold Limiter.find
      dsimp only
      rw [List.lookup_append]
      by_cases same : other = key
      · subst same
        rw [show l.keys.lookup other = none from untracked]
        simp
      · have apart : (other == key) = false := by simpa using same
        simp [List.lookup_cons, apart, same]
    refine ⟨⟨⟨rfl, rfl, .inr ⟨key, find_none_iff.mp untracked, ?_⟩, ?_⟩, rfl,
      ⟨_, (find key _).trans (if_pos rfl), rfl⟩⟩, (find key _).trans (if_pos rfl)⟩
    · simp only [List.map_append, List.map_cons, List.map_nil]
      exact List.perm_append_singleton _ _
    · intro other last before after
      rw [find] at after
      split at after
      · obtain rfl := Option.some.inj after
        exact ⟨valid, clusterSize, quota⟩
      · rw [before] at after
        simp at after

theorem checkIn_serves {l l' : Limiter} {key : UInt64} {limit : Limit} {decision : Decision}
    {now clusterSize : Nat} (h : l.checkIn key limit now clusterSize = some (decision, l')) :
    Serves l key limit l' := by
  simp only [checkIn, bind, Option.bind_eq_some_iff] at h
  obtain ⟨⟨state, u⟩, found, demand, _, requests, _, h⟩ := h
  obtain ⟨serves, held⟩ := entry_serves found
  split at h
  · simp only [Option.bind_some, Option.some.injEq, Prod.mk.injEq] at h
    obtain ⟨_, rfl⟩ := h
    exact serves.put held ⟨rfl, rfl⟩
  · simp only [Option.bind_eq_some_iff, Option.some.injEq, Prod.mk.injEq] at h
    obtain ⟨denials, _, _, rfl⟩ := h
    exact serves.put held ⟨rfl, rfl⟩

theorem record_serves {l l' : Limiter} {key : UInt64} {tally : Tally} {limit : Limit}
    {now clusterSize : Nat} (h : l.record key tally limit now clusterSize = some l') :
    Serves l key limit l' := by
  simp only [record, bind, Option.bind_eq_some_iff, Option.some.injEq] at h
  obtain ⟨⟨state, u⟩, found, demand, _, requests, _, denials, _, shadows, _, rfl⟩ := h
  obtain ⟨serves, held⟩ := entry_serves found
  exact serves.put held ⟨rfl, rfl⟩

theorem checkInTraced_serves {l l' : Limiter} {key : UInt64} {limit : Limit}
    {shadow : Option Limit} {decisions : Decision × Option Decision} {now clusterSize : Nat}
    (h : l.checkInTraced key limit shadow now clusterSize = some (decisions, l')) :
    Serves l key limit l' := by
  simp only [checkInTraced, bind, Option.bind_eq_some_iff] at h
  obtain ⟨⟨decision, u⟩, checked, h⟩ := h
  have serves := checkIn_serves checked
  have shadowed {v : Limiter} (shadows : ExtTreeMap UInt64 Gcra) (last : Serves l key limit v) :
      Serves l key limit { v with shadows := shadows } :=
    ⟨⟨last.config, last.hotSet, last.names, last.fresh⟩, last.cap, last.own⟩
  split at h
  · simp only [Option.some.injEq, Prod.mk.injEq] at h
    obtain ⟨_, rfl⟩ := h
    exact shadowed _ serves
  · simp only [Option.ite_none_right_eq_some, Option.bind_eq_some_iff] at h
    obtain ⟨_, state, held, wanted, _, h⟩ := h
    generalize (if (u.shadows[key]?.getD (.new wanted)).quota = wanted
      then u.shadows[key]?.getD (.new wanted)
      else (u.shadows[key]?.getD (.new wanted)).setQuota wanted now).check now = traced at h
    split at h
    · simp only [Option.bind_some, Option.some.injEq, Prod.mk.injEq] at h
      obtain ⟨_, rfl⟩ := h
      exact shadowed _ (serves.put held ⟨rfl, rfl⟩)
    · simp only [Option.bind_eq_some_iff, Option.some.injEq, Prod.mk.injEq] at h
      obtain ⟨shadows, _, _, rfl⟩ := h
      exact shadowed _ (serves.put held ⟨rfl, rfl⟩)

section
variable {σ : Type} {share : σ → UInt64 → ℚ → ℚ → ℚ × σ} {pure : UInt64 → ℚ → ℚ → ℚ}
  {decay : Nat → Nat → ℚ} {l l' : Limiter} {now clusterSize : Nat} {hotElsewhere : UInt64 → Bool}
  {s s' : σ} {kept quoted : List (UInt64 × KeyState)}

/-- A key that is hot after a tick came out of both passes, with the quota of the share asked for. -/
theorem Ticked.hot_quota
    (ticked : Ticked share decay l now clusterSize hotElsewhere s l' s' kept quoted)
    (same : ∀ s key own limit, (share s key own limit).1 = pure key own limit) (tidy : l.Tidy now)
    {key : UInt64} (hot : l'.hotSet.isHot key = true) :
    ∃ state state', kept.lookup key = some state ∧ l'.find key = some state' ∧
      state'.limit = state.limit ∧ state'.demand = state.demand ∧
      quotaFor (capped l.cap state.limit.rate (pure key state.demand.rate state.limit.rate))
        state.limit.burst = some state'.applied := by
  have listed : key ∈ kept.map Prod.fst := by
    rcases settle_tracked tidy.distinct ticked.settled hot with listed | ⟨unlisted, before⟩
    · exact listed
    · exact absurd (tidy.tracked key before) unlisted
  obtain ⟨⟨_, state⟩, mem, rfl⟩ := List.mem_map.mp listed
  have distinct := tidy.distinct.sublist (settle_spec tidy.distinct ticked.settled).1
  have found := (Reordered.lookup_eq_some_iff distinct).mpr mem
  obtain ⟨state', quota, found'⟩ := Reordered.lookup_mapM
    (fun _ _ applied => withQuota_key _ _ _ _ _ _ _ applied)
    (applyQuotas_map same ticked.quotas) found
  obtain ⟨_, limit, demand, applied⟩ := withQuota_some quota
  rw [appliedRate, if_pos hot, if_pos hot] at applied
  exact ⟨state, state', found, (ticked.hot _ hot).trans found', limit, demand, applied⟩

theorem Tidy.tick {latest : Nat} (tidy : l.Tidy latest) (le : now ≤ latest)
    (ticked : Ticked share decay l now clusterSize hotElsewhere s l' s' kept quoted) :
    l'.Tidy latest := by
  obtain ⟨sound, size⟩ := settle_hotSet tidy.hotSet le ticked.settled
  have names := applyQuotas_names ticked.quotas
  refine ⟨?_, fun key hot => ?_, ?_, sound⟩
  · have distinct := tidy.distinct.sublist (settle_spec tidy.distinct ticked.settled).1
    rw [← names] at distinct
    exact distinct.sublist (ticked.keys.map Prod.fst)
  · have listed : key ∈ quoted.map Prod.fst := by
      rw [names]
      rcases settle_tracked tidy.distinct ticked.settled hot with listed | ⟨unlisted, before⟩
      · exact listed
      · exact absurd (tidy.tracked key before) unlisted
    by_contra untracked
    rw [← find_none_iff, ticked.hot key hot, List.lookup_eq_none_iff] at untracked
    obtain ⟨entry, mem, rfl⟩ := List.mem_map.mp listed
    simpa using untracked entry mem
  · rw [size, ticked.config]
    exact tidy.size

end

end Limiter
end Rateguard
