import Rateguard.Allocation
import Rateguard.Limiter
import Rateguard.Proportion

/- The shares of one key over a fleet, each node computing its own from its own role. -/
namespace Rateguard
open Std (ExtTreeMap)

/- Every key the first pass keeps is there once, and hot by its own demand unless some peer
   holds it primary: no later call of the pass changes that, an eviction apart. -/
theorem settle_spec {decay : Nat → Nat → ℚ} {now : Nat} {n alpha : ℚ}
    {hotElsewhere : UInt64 → Bool} {keys kept : List (UInt64 × KeyState)} {hotSet after : HotSet}
    (distinct : (keys.map Prod.fst).Nodup)
    (h : settle decay now n alpha hotElsewhere keys hotSet = some (kept, after)) :
    (kept.map Prod.fst).Sublist (keys.map Prod.fst) ∧
      (∀ key, key ∉ keys.map Prod.fst →
        after.hot[key]? = hotSet.hot[key]? ∨ after.hot[key]? = none) ∧
      ∀ key state, (key, state) ∈ kept → ∀ entry, after.hot[key]? = some entry →
        entry.primary = true ∨ elsewhere hotElsewhere key state = true := by
  induction keys generalizing hotSet kept with
  | nil =>
    simp only [settle, Option.some.injEq, Prod.mk.injEq] at h
    obtain ⟨rfl, rfl⟩ := h
    exact ⟨List.Sublist.refl _, fun _ _ => Or.inl rfl, by simp⟩
  | cons first rest ih =>
    obtain ⟨key, state⟩ := first
    obtain ⟨absent, restDistinct⟩ := List.nodup_cons.mp distinct
    simp only [settle, bind, Option.bind_eq_some_iff] at h
    obtain ⟨⟨hot, updated⟩, update, ⟨others, final⟩, later, h⟩ := h
    simp only [Option.some.injEq, Prod.mk.injEq] at h
    obtain ⟨rfl, rfl⟩ := h
    obtain ⟨keepsOthers, own⟩ := HotSet.updateWith_spec update
    obtain ⟨sublist, untouched, roles⟩ := ih restDistinct later
    refine ⟨?_, ?_, ?_⟩
    · split
      · exact List.Sublist.cons_cons _ sublist
      · exact List.Sublist.cons _ sublist
    · intro other missing
      simp only [List.map_cons, List.mem_cons, not_or] at missing
      rcases untouched other missing.2 with same | gone
      · rw [same]
        exact keepsOthers other missing.1
      · exact Or.inr gone
    · intro k s mem entry found
      have member : (k, s) = (key, state.tick decay now) ∨ (k, s) ∈ others := by
        split at mem
        · exact List.mem_cons.mp mem
        · exact Or.inr mem
      rcases member with same | mem
      · obtain ⟨rfl, rfl⟩ := Prod.mk.inj same
        rcases untouched k absent with kept | gone
        · rw [kept] at found
          exact own entry found
        · rw [gone] at found
          exact absurd found (by simp)
      · exact roles k s mem entry found

/- One node of a fleet of n in the middle of its tick: the hot set settled, the quotas to
   be applied. -/
structure FleetNode (decay : Nat → Nat → ℚ) (n : Nat) where
  limiter : Limiter
  now : Nat
  hotElsewhere : UInt64 → Bool
  kept : List (UInt64 × KeyState)
  hotSet : HotSet
  distinct : (limiter.keys.map Prod.fst).Nodup
  settled : settle decay now n limiter.config.alpha hotElsewhere limiter.keys limiter.hotSet =
    some (kept, hotSet)

section Fleet
variable {decay : Nat → Nat → ℚ} {n : Nat}

def FleetNode.state (node : FleetNode decay n) (key : UInt64) : Option KeyState :=
  node.kept.lookup key

def FleetNode.holdsHot (node : FleetNode decay n) (key : UInt64) : Bool :=
  (node.state key).isSome && node.hotSet.isHot key

def FleetNode.holdsPrimary (node : FleetNode decay n) (key : UInt64) : Bool :=
  (node.state key).isSome && node.hotSet.isPrimary key

/- The rate the tick applies to a key the node holds hot or has non-silent demand for,
   given the share it would get if hot; nothing for any other key. -/
def FleetNode.rate (node : FleetNode decay n) (key : UInt64) (share : ℚ) : ℚ :=
  match node.state key with
  | none => 0
  | some state =>
    if node.hotSet.isHot key = true ∨ silentDemand ≤ state.demand.rate then
      appliedRate node.limiter.config node.limiter.cap n node.hotElsewhere node.hotSet share key
        state
    else 0

theorem lookup_mem {entries : List (UInt64 × KeyState)} {key : UInt64} {state : KeyState}
    (h : entries.lookup key = some state) : (key, state) ∈ entries := by
  obtain ⟨before, after, rfl, _⟩ := List.lookup_eq_some_iff.mp h
  simp

theorem FleetNode.hot_role (node : FleetNode decay n) {key : UInt64}
    (hot : node.holdsHot key = true) :
    node.holdsPrimary key = true ∨ node.hotElsewhere key = true := by
  simp only [FleetNode.holdsHot, FleetNode.holdsPrimary, Bool.and_eq_true] at hot ⊢
  obtain ⟨state, known⟩ := Option.isSome_iff_exists.mp hot.1
  obtain ⟨entry, found⟩ := (node.hotSet.isHot_iff key).mp hot.2
  have role := (settle_spec node.distinct node.settled).2.2 key state (lookup_mem known) entry found
  refine role.imp (fun primary => ⟨hot.1, ?_⟩) fun heard => ?_
  · simp [HotSet.isPrimary, found, primary]
  · simp only [elsewhere, Bool.and_eq_true] at heard
    exact heard.2

theorem capped_le (cap : Option ℚ) (limit rate : ℚ) : capped cap limit rate ≤ rate := by
  cases cap with
  | none => exact le_refl rate
  | some cap => exact min_le_left _ _

theorem primary_isHot {hotSet : HotSet} {key : UInt64} (h : hotSet.isPrimary key = true) :
    hotSet.isHot key = true := by
  rw [HotSet.isHot_iff]
  cases found : hotSet.hot[key]? with
  | none => simp [HotSet.isPrimary, found] at h
  | some entry => exact ⟨entry, rfl⟩

/- The node its limiter makes of a tick that does not panic. -/
def FleetNode.ofTick (limiter : Limiter) (now : Nat) (hotElsewhere : UInt64 → Bool)
    (distinct : (limiter.keys.map Prod.fst).Nodup)
    (settles : (settle decay now n limiter.config.alpha hotElsewhere limiter.keys
      limiter.hotSet).isSome) : FleetNode decay n where
  limiter := limiter
  now := now
  hotElsewhere := hotElsewhere
  kept := ((settle decay now n limiter.config.alpha hotElsewhere limiter.keys
    limiter.hotSet).get settles).1
  hotSet := ((settle decay now n limiter.config.alpha hotElsewhere limiter.keys
    limiter.hotSet).get settles).2
  distinct := distinct
  settled := by simp

/- A fleet of n + 1 nodes that agree on their number. Limits may differ from node to node.
   Each node counts against a hot key its own demand, or less, and what the others count for
   the other hot nodes. -/
structure Fleet (decay : Nat → Nat → ℚ) (n : Nat) (key : UInt64) where
  alpha : ℚ
  beta : ℚ
  alpha_range : 0 < alpha ∧ alpha ≤ 1
  beta_range : 0 ≤ beta ∧ beta ≤ 1
  limit : Fin (n + 1) → ℚ
  limit_pos : ∀ i, 0 < limit i
  node : Fin (n + 1) → FleetNode decay (n + 1)
  node_alpha : ∀ i, (node i).limiter.config.alpha = alpha
  node_beta : ∀ i, (node i).limiter.config.floorFactor = beta
  node_limit : ∀ i state, (node i).state key = some state → state.limit.rate = limit i
  heard : ∀ i, (node i).hotElsewhere key = true ↔ ∃ j, j ≠ i ∧ (node j).holdsPrimary key = true
  counted : Fin (n + 1) → ℚ
  own : Fin (n + 1) → ℚ
  own_range : ∀ i, 0 ≤ own i ∧ own i ≤ counted i

variable {key : UInt64} (fleet : Fleet decay n key)

def Fleet.hotNodes : Finset (Fin (n + 1)) :=
  Finset.univ.filter fun i => (fleet.node i).holdsHot key = true

def Fleet.view (i : Fin (n + 1)) : View where
  limit := fleet.limit i
  clusterSize := n + 1
  floorFactor := fleet.beta
  own := fleet.own i
  others := ∑ j ∈ fleet.hotNodes.erase i, fleet.counted j

def Fleet.rate (i : Fin (n + 1)) : ℚ := (fleet.node i).rate key (share (fleet.view i))

def Fleet.largestLimit : ℚ := Finset.univ.sup' Finset.univ_nonempty fleet.limit

theorem Fleet.limit_le (i : Fin (n + 1)) : fleet.limit i ≤ fleet.largestLimit :=
  Finset.le_sup' fleet.limit (Finset.mem_univ i)

theorem Fleet.largestLimit_pos : 0 < fleet.largestLimit :=
  lt_of_lt_of_le (fleet.limit_pos 0) (fleet.limit_le 0)

theorem Fleet.mem_hotNodes {i : Fin (n + 1)} :
    i ∈ fleet.hotNodes ↔ (fleet.node i).holdsHot key = true := by
  simp [Fleet.hotNodes]

theorem Fleet.scaled_split_le (i : Fin (n + 1)) {factor : ℚ} (range : 0 ≤ factor ∧ factor ≤ 1) :
    fleet.limit i * factor / ((n + 1 : Nat) : ℚ) ≤ fleet.largestLimit / ((n + 1 : Nat) : ℚ) := by
  have size : (0 : ℚ) < ((n + 1 : Nat) : ℚ) := by positivity
  have := fleet.limit_le i
  have := fleet.limit_pos i
  gcongr
  nlinarith [range.1, range.2]

/- What a node that does not hold the key hot applies to it: the cold rate, or the floor if
   some node holds it hot. -/
theorem Fleet.rate_not_hot {i : Fin (n + 1)} (cold : i ∉ fleet.hotNodes) :
    fleet.rate i ≤ fleet.largestLimit / ((n + 1 : Nat) : ℚ) ∧
      (fleet.hotNodes.Nonempty →
        fleet.rate i ≤ fleet.largestLimit * fleet.beta / ((n + 1 : Nat) : ℚ)) := by
  have size : (0 : ℚ) < ((n + 1 : Nat) : ℚ) := by positivity
  have largest := fleet.largestLimit_pos
  have nothing : (0 : ℚ) ≤ fleet.largestLimit * fleet.beta / ((n + 1 : Nat) : ℚ) :=
    div_nonneg (mul_nonneg largest.le fleet.beta_range.1) size.le
  rw [fleet.mem_hotNodes] at cold
  simp only [Fleet.rate, FleetNode.rate]
  cases known : (fleet.node i).state key with
  | none => exact ⟨by positivity, fun _ => nothing⟩
  | some state =>
    have notHot : ¬ (fleet.node i).hotSet.isHot key = true := by
      simpa [FleetNode.holdsHot, known] using cold
    have alphaSplit := fleet.scaled_split_le i ⟨fleet.alpha_range.1.le, fleet.alpha_range.2⟩
    rw [mul_div_right_comm] at alphaSplit
    simp only [notHot, false_or, appliedRate, Bool.false_eq_true, if_false,
      fleet.node_limit i state known, fleet.node_alpha, fleet.node_beta]
    split
    · rename_i loud
      split
      · refine ⟨(capped_le _ _ _).trans ((min_le_right _ _).trans alphaSplit), fun _ => ?_⟩
        refine (capped_le _ _ _).trans ((min_le_left _ _).trans ?_)
        have := fleet.limit_le i
        have := fleet.beta_range.1
        gcongr
      · rename_i unheard
        refine ⟨(capped_le _ _ _).trans alphaSplit, fun ⟨j, hot⟩ => absurd ?_ unheard⟩
        rw [fleet.mem_hotNodes] at hot
        have primary : ∃ k, k ≠ i ∧ (fleet.node k).holdsPrimary key = true := by
          rcases (fleet.node j).hot_role hot with primary | heard
          · refine ⟨j, fun same => cold (same ▸ hot), primary⟩
          · obtain ⟨k, _, primary⟩ := (fleet.heard j).mp heard
            refine ⟨k, fun same => cold ?_, primary⟩
            simp only [FleetNode.holdsPrimary, FleetNode.holdsHot, Bool.and_eq_true] at primary ⊢
            exact same ▸ ⟨primary.1, primary_isHot primary.2⟩
        simp [elsewhere, loud, (fleet.heard i).mpr primary]
    · exact ⟨by positivity, fun _ => nothing⟩

theorem Fleet.rate_hot {i : Fin (n + 1)} (hot : i ∈ fleet.hotNodes) :
    fleet.rate i ≤ share (fleet.view i) ∧
      ((fleet.node i).limiter.cap = none → fleet.rate i = share (fleet.view i)) := by
  rw [fleet.mem_hotNodes] at hot
  simp only [FleetNode.holdsHot, Bool.and_eq_true] at hot
  obtain ⟨state, known⟩ := Option.isSome_iff_exists.mp hot.1
  simp only [Fleet.rate, FleetNode.rate, known, hot.2, true_or, if_true, appliedRate]
  exact ⟨capped_le _ _ _, fun uncapped => by rw [uncapped]; rfl⟩

/- The four ways a share is computed come down to two: an even split, or the floor and a
   part of the rest. -/
theorem Fleet.share_eq (i : Fin (n + 1)) :
    share (fleet.view i) =
      if 0 < fleet.own i + ∑ j ∈ fleet.hotNodes.erase i, fleet.counted j then
        fleet.limit i * fleet.beta / ((n + 1 : Nat) : ℚ) + fleet.limit i * (1 - fleet.beta) *
          Proportion.part fleet.hotNodes fleet.own fleet.counted i
      else fleet.limit i / ((n + 1 : Nat) : ℚ) := rfl

theorem Fleet.claims : ∀ i ∈ fleet.hotNodes, 0 ≤ fleet.own i ∧ fleet.own i ≤ fleet.counted i :=
  fun i _ => fleet.own_range i

/- No node takes more than an even split once a hot node counts no demand at all. -/
theorem Fleet.rate_le_even {silent : Fin (n + 1)} (mem : silent ∈ fleet.hotNodes)
    (unknown : fleet.own silent + ∑ j ∈ fleet.hotNodes.erase silent, fleet.counted j ≤ 0)
    (i : Fin (n + 1)) : fleet.rate i ≤ fleet.largestLimit / ((n + 1 : Nat) : ℚ) := by
  by_cases hot : i ∈ fleet.hotNodes
  · refine (fleet.rate_hot hot).1.trans ?_
    rw [fleet.share_eq]
    split
    · rename_i counts
      have other : i ≠ silent := by
        rintro rfl
        exact absurd counts (not_lt.mpr unknown)
      have nothing := Proportion.others_nothing fleet.claims hot other unknown mem
      simpa [Proportion.part, nothing] using fleet.scaled_split_le i fleet.beta_range
    · simpa using fleet.scaled_split_le i ⟨zero_le_one, le_refl 1⟩
  · exact (fleet.rate_not_hot hot).1

theorem Fleet.sum_le_of_even
    (even : ∀ i, fleet.rate i ≤ fleet.largestLimit / ((n + 1 : Nat) : ℚ)) :
    ∑ i, fleet.rate i ≤ fleet.largestLimit := by
  have size : ((n + 1 : Nat) : ℚ) ≠ 0 := by positivity
  calc ∑ i, fleet.rate i
      ≤ ∑ _i : Fin (n + 1), fleet.largestLimit / ((n + 1 : Nat) : ℚ) :=
        Finset.sum_le_sum fun i _ => even i
    _ = fleet.largestLimit := by
        rw [Finset.sum_const, Finset.card_univ, Fintype.card_fin, nsmul_eq_mul]
        exact mul_div_cancel₀ _ size

/- The floors are all of beta, the parts at most all of the rest. -/
theorem Fleet.sum_le_of_parts (someHot : fleet.hotNodes.Nonempty)
    (counts : ∀ i ∈ fleet.hotNodes,
      0 < fleet.own i + ∑ j ∈ fleet.hotNodes.erase i, fleet.counted j) :
    ∑ i, fleet.rate i ≤ fleet.largestLimit := by
  have size : ((n + 1 : Nat) : ℚ) ≠ 0 := by positivity
  have largest := fleet.largestLimit_pos
  have rest : 0 ≤ 1 - fleet.beta := by linarith [fleet.beta_range.2]
  have each : ∀ i, fleet.rate i ≤ fleet.largestLimit * fleet.beta / ((n + 1 : Nat) : ℚ) +
      if i ∈ fleet.hotNodes then fleet.largestLimit * (1 - fleet.beta) *
        Proportion.part fleet.hotNodes fleet.own fleet.counted i else 0 := by
    intro i
    by_cases hot : i ∈ fleet.hotNodes
    · refine (fleet.rate_hot hot).1.trans ?_
      have part := Proportion.part_nonneg fleet.claims hot
      have := fleet.limit_le i
      have := fleet.beta_range.1
      rw [fleet.share_eq, if_pos (counts i hot), if_pos hot]
      gcongr
    · rw [if_neg hot, add_zero]
      exact (fleet.rate_not_hot hot).2 someHot
  calc ∑ i, fleet.rate i
      ≤ ∑ i, (fleet.largestLimit * fleet.beta / ((n + 1 : Nat) : ℚ) +
          if i ∈ fleet.hotNodes then fleet.largestLimit * (1 - fleet.beta) *
            Proportion.part fleet.hotNodes fleet.own fleet.counted i else 0) :=
        Finset.sum_le_sum fun i _ => each i
    _ = fleet.largestLimit * fleet.beta + fleet.largestLimit * (1 - fleet.beta) *
          ∑ i ∈ fleet.hotNodes, Proportion.part fleet.hotNodes fleet.own fleet.counted i := by
        rw [Finset.sum_add_distrib, Finset.sum_const, Finset.card_univ, Fintype.card_fin,
          nsmul_eq_mul, mul_div_cancel₀ _ size, Finset.sum_ite_mem, Finset.univ_inter,
          Finset.mul_sum]
    _ ≤ fleet.largestLimit * fleet.beta + fleet.largestLimit * (1 - fleet.beta) * 1 := by
        have := Proportion.parts_le_one fleet.claims
        gcongr
    _ = fleet.largestLimit := by ring

/-- The shares of one key add up to at most the largest limit any node has for it, and to
    exactly the limit when every node holds it hot on one consistent view. -/
theorem fleet_shares_within_limit :
    ∑ i, fleet.rate i ≤ fleet.largestLimit ∧
      ∀ limit, (∀ i, (fleet.node i).holdsHot key = true) → (∀ i, fleet.limit i = limit) →
        (∀ i, fleet.own i = fleet.counted i) →
        (∀ i, (fleet.node i).limiter.cap = none) → ∑ i, fleet.rate i = limit := by
  have size : ((n + 1 : Nat) : ℚ) ≠ 0 := by positivity
  constructor
  · by_cases someHot : fleet.hotNodes.Nonempty
    · by_cases counts : ∀ i ∈ fleet.hotNodes,
          0 < fleet.own i + ∑ j ∈ fleet.hotNodes.erase i, fleet.counted j
      · exact fleet.sum_le_of_parts someHot counts
      · push Not at counts
        obtain ⟨silent, mem, unknown⟩ := counts
        exact fleet.sum_le_of_even (fleet.rate_le_even mem unknown)
    · refine fleet.sum_le_of_even fun i => (fleet.rate_not_hot ?_).1
      exact fun hot => someHot ⟨i, hot⟩
  · intro limit allHot one same uncapped
    have everyone : fleet.hotNodes = Finset.univ := by
      ext i
      simp [fleet.mem_hotNodes, allHot]
    have owns : fleet.own = fleet.counted := funext same
    have rates : ∀ i, fleet.rate i = share (fleet.view i) := fun i =>
      (fleet.rate_hot (fleet.mem_hotNodes.mpr (allHot i))).2 (uncapped i)
    have total : ∀ i, fleet.own i + ∑ j ∈ fleet.hotNodes.erase i, fleet.counted j =
        ∑ j, fleet.counted j := by
      intro i
      rw [everyone, owns]
      exact Finset.add_sum_erase _ _ (Finset.mem_univ i)
    simp only [rates, fleet.share_eq, total, one]
    split
    · rename_i counts
      rw [Finset.sum_add_distrib, Finset.sum_const, Finset.card_univ, Fintype.card_fin,
        nsmul_eq_mul, mul_div_cancel₀ _ size, ← Finset.mul_sum, everyone, owns,
        Proportion.parts_eq_one counts]
      ring
    · rw [Finset.sum_const, Finset.card_univ, Fintype.card_fin, nsmul_eq_mul]
      exact mul_div_cancel₀ _ size

end Fleet

/- Two nodes, the first hot by its own demand, the second because it hears of the first. -/
def busyKey (rate : ℚ) : Limiter where
  config := ⟨⟨1000, 10⟩, 1 / 2, 1 / 10, 0, 4, 8, 1000000000⟩
  hotSet := ⟨0, 4, ∅⟩
  keys :=
    let quota : Quota := .perMilli 10 (by decide) (by decide)
    let demand : Demand := { Demand.startingAt 1000000000 0 with currentRate := rate }
    [(7, ⟨⟨1000, 10⟩, demand, demand, demand, demand, .new quota, quota⟩)]
  shadows := ∅
  cap := none
  lastTick := none

def pairNode : Fin 2 → FleetNode (fun _ _ => 1 / 2) 2
  | 0 => .ofTick (busyKey 600) 0 (fun _ => false) (by decide) (by decide +kernel)
  | 1 => .ofTick (busyKey 100) 0 (fun _ => true) (by decide) (by decide +kernel)

def pair : Fleet (fun _ _ => 1 / 2) 1 7 where
  alpha := 1 / 2
  beta := 1 / 10
  alpha_range := by norm_num
  beta_range := by norm_num
  limit := fun _ => 1000
  limit_pos := by norm_num
  node := pairNode
  node_alpha := by decide +kernel
  node_beta := by decide +kernel
  node_limit := by
    intro i state known
    have limits : ∀ i, ((pairNode i).state 7).all (fun s => s.limit.rate = 1000) = true := by
      decide +kernel
    simpa [known] using limits i
  heard := by decide +kernel
  counted := ![600, 100]
  own := ![600, 100]
  own_range := by decide +kernel

theorem fleet_shares_within_limit_pair :
    ∑ i, pair.rate i ≤ pair.largestLimit ∧ ∑ i, pair.rate i = 1000 :=
  ⟨(fleet_shares_within_limit pair).1, (fleet_shares_within_limit pair).2 1000 (by decide +kernel)
    (fun _ => rfl) (fun _ => rfl) (by decide +kernel)⟩

end Rateguard
