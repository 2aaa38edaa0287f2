import Rateguard.HotKeys

/- Histories of a hot set: when a key enters, how long it stays, and what makes it leave. -/
namespace Rateguard
open Std (ExtTreeMap)

structure HotCall where
  key : UInt64
  demand : ℚ
  threshold : ℚ
  now : Nat
  elsewhere : Bool
  deriving DecidableEq

def HotCall.above (c : HotCall) : Prop := c.threshold < c.demand

instance (c : HotCall) : Decidable c.above := inferInstanceAs (Decidable (_ < _))

namespace HotSet

def feed (hs : HotSet) (c : HotCall) : Option (Bool × HotSet) :=
  hs.updateWith c.key c.demand c.threshold c.now c.elsewhere

def feedAll (hs : HotSet) (calls : List HotCall) : Option HotSet :=
  calls.foldlM (fun hs c => (hs.feed c).map (·.2)) hs

/- What a call makes of the entry of its own key. -/
inductive Turned (cooldown : Nat) (c : HotCall) : Option HotEntry → Option HotEntry → Prop
  | raised (entry : HotEntry) : c.above →
      Turned cooldown c (some entry)
        (some { entry with demand := c.demand, coolingSince := none, primary := true })
  | entered : c.above ∨ c.elsewhere = true →
      Turned cooldown c none (some ⟨none, c.demand, decide c.above, c.now⟩)
  | refused : Turned cooldown c none none
  | stayed (entry : HotEntry) : ¬ c.above → entry.primary = false → c.elsewhere = true →
      Turned cooldown c (some entry) (some { entry with demand := c.demand })
  | left (entry : HotEntry) : ¬ c.above → entry.primary = false → c.elsewhere = false →
      Turned cooldown c (some entry) none
  | cooling (entry : HotEntry) : ¬ c.above → entry.primary = true →
      (∀ since, entry.coolingSince = some since → c.now - since < cooldown) →
      Turned cooldown c (some entry) (some { entry with
        demand := c.demand, coolingSince := some (entry.coolingSince.getD c.now) })
  | cooled (entry : HotEntry) (since : Nat) : ¬ c.above → entry.primary = true →
      entry.coolingSince = some since → cooldown ≤ c.now - since →
      Turned cooldown c (some entry) (if c.elsewhere then
        some { entry with demand := c.demand, primary := false, coolingSince := none } else none)

/- The key a call may evict: the weakest of a full set, beaten by a tenth. -/
structure Beaten (hs : HotSet) (c : HotCall) (victim : UInt64) (entry : HotEntry) : Prop where
  held : hs.hot[victim]? = some entry
  margin : entry.demand * evictionMargin < c.demand
  full : hs.maxSize ≤ hs.hot.size
  least : ∀ (other : UInt64) (held : HotEntry), hs.hot[other]? = some held →
    entry.demand ≤ held.demand

/- All a call does: its own key's entry turns, and where that enters a key may be evicted for it. -/
structure Fed (hs : HotSet) (c : HotCall) (hot : Bool) (after : HotSet) (next : Option HotEntry)
    (victim : Option UInt64) : Prop where
  turned : Turned hs.cooldown c hs.hot[c.key]? next
  hot : hot = next.isSome
  beaten : ∀ key, victim = some key → hs.hot[c.key]? = none ∧ ∃ entry, hs.Beaten c key entry
  lookup : ∀ key : UInt64, after.hot[key]? =
    if key = c.key then next else if victim = some key then none else hs.hot[key]?
  same : after.maxSize = hs.maxSize ∧ after.cooldown = hs.cooldown

theorem weakest_least {hs : HotSet} {key : UInt64} {demand : ℚ}
    (h : hs.weakest = some (key, demand)) : ∃ entry, hs.hot[key]? = some entry ∧
      entry.demand = demand ∧ ∀ (other : UInt64) (held : HotEntry), hs.hot[other]? = some held →
        entry.demand ≤ held.demand := by
  unfold weakest at h
  split at h
  · simp at h
  · rename_i first rest listed
    -- equal demands go by the ID, so the least is least by demand
    have ranks : ∀ x y : UInt64 × HotEntry, weaker x y = true ↔
        toLex (x.2.demand, x.1.toNat) < toLex (y.2.demand, y.1.toNat) := by
      intro x y
      simp only [weaker, Prod.Lex.toLex_lt_toLex, Bool.or_eq_true, Bool.and_eq_true,
        decide_eq_true_eq, UInt64.lt_iff_toNat_lt]
    have mem := LeastOfList.least_mem weaker first rest
    have least := LeastOfList.least_le ranks first rest
    rw [← listed] at mem least
    obtain ⟨rfl, rfl⟩ := Prod.mk.inj (Option.some.inj h)
    refine ⟨_, ExtTreeMap.mem_toList_iff_getElem?_eq_some.mp mem, rfl, fun other held found => ?_⟩
    have below := least (other, held) (ExtTreeMap.mem_toList_iff_getElem?_eq_some.mpr found)
    rw [Prod.Lex.toLex_le_toLex] at below
    rcases below with less | same
    · exact less.le
    · exact same.1.le

theorem promote_fed {hs after : HotSet} {c : HotCall} {hot : Bool}
    (h : hs.promote c.key c.demand (decide c.above) c.now = some (hot, after))
    (reason : c.above ∨ c.elsewhere = true ∧ hs.hot[c.key]? = none) :
    ∃ next victim, hs.Fed c hot after next victim := by
  unfold promote at h
  split at h
  · rename_i entry found
    have above : c.above := reason.resolve_right fun ⟨_, absent⟩ => by simp [found] at absent
    obtain ⟨rfl, rfl⟩ := Prod.mk.inj (Option.some.inj h)
    rw [decide_eq_true above]
    have raised : Turned hs.cooldown c hs.hot[c.key]? (some { entry with
        demand := c.demand, coolingSince := none, primary := true }) := by
      rw [found]
      exact .raised entry above
    refine ⟨_, none, raised, rfl, by simp, fun key => ?_, rfl, rfl⟩
    rw [hot_insert]
    simp
  · rename_i absent
    have enters : Turned hs.cooldown c hs.hot[c.key]?
        (some ⟨none, c.demand, decide c.above, c.now⟩) := by
      rw [absent]
      exact .entered (reason.imp_right And.left)
    split at h
    · obtain ⟨rfl, rfl⟩ := Prod.mk.inj (Option.some.inj h)
      refine ⟨_, none, enters, rfl, by simp, fun key => ?_, rfl, rfl⟩
      rw [insert, hot_insert]
      simp
    · rename_i full
      simp only [bind, Option.bind_eq_some_iff] at h
      obtain ⟨⟨weakestKey, weakestDemand⟩, weakest, h⟩ := h
      split at h
      · rename_i margin
        obtain ⟨rfl, rfl⟩ := Prod.mk.inj (Option.some.inj h)
        obtain ⟨entry, held, rfl, least⟩ := weakest_least weakest
        refine ⟨_, some weakestKey, enters, rfl, ?_, fun key => ?_, rfl, rfl⟩
        · rintro key same
          obtain rfl := Option.some.inj same
          exact ⟨absent, entry, held, margin, Nat.not_lt.mp full, least⟩
        · rw [insert, hot_insert, hot_erase]
          simp [eq_comm]
      · obtain ⟨rfl, rfl⟩ := Prod.mk.inj (Option.some.inj h)
        refine ⟨none, none, ?_, rfl, by simp, fun key => ?_, rfl, rfl⟩
        · rw [absent]
          exact .refused
        · split
          · rename_i same
            rw [same, absent]
          · simp

def cooled (cooldown : Nat) (c : HotCall) (entry : HotEntry) : HotEntry :=
  if entry.primary = false then { entry with demand := c.demand }
  else match entry.coolingSince with
    | none => { entry with demand := c.demand, coolingSince := some c.now }
    | some since =>
      if cooldown ≤ c.now - since then
        { entry with demand := c.demand, primary := false, coolingSince := none }
      else { entry with demand := c.demand }

theorem cool_entry {hs : HotSet} {c : HotCall} {entry : HotEntry}
    (found : hs.hot[c.key]? = some entry) : hs.cool c.key c.demand c.now =
      (true, { hs with hot := hs.hot.insert c.key (cooled hs.cooldown c entry) }) := by
  unfold cool cooled
  rw [found]
  cases primary : entry.primary with
  | false => simp [primary]
  | true =>
    cases cooling : entry.coolingSince with
    | none => simp [primary, cooling]
    | some since =>
      by_cases expired : hs.cooldown ≤ c.now - since <;> simp [primary, cooling, expired]

theorem cooled_turned (cooldown : Nat) {c : HotCall} (below : ¬ c.above) (entry : HotEntry) :
    Turned cooldown c (some entry) (if (cooled cooldown c entry).primary || c.elsewhere then
      some (cooled cooldown c entry) else none) := by
  unfold cooled
  cases primary : entry.primary with
  | false =>
    cases elsewhere : c.elsewhere with
    | false => simpa [primary, elsewhere] using Turned.left entry below primary elsewhere
    | true => simpa [primary, elsewhere] using Turned.stayed entry below primary elsewhere
  | true =>
    cases cooling : entry.coolingSince with
    | none =>
      have goes : Turned cooldown c (some entry) _ :=
        .cooling entry below primary (by simp [cooling])
      simpa [primary, cooling] using goes
    | some since =>
      by_cases expired : cooldown ≤ c.now - since
      · simpa [expired] using Turned.cooled entry since below primary cooling expired
      · have goes : Turned cooldown c (some entry) _ :=
          .cooling entry below primary (by simpa [cooling] using expired)
        simpa [primary, cooling, expired] using goes

theorem feed_fed {hs after : HotSet} {c : HotCall} {hot : Bool}
    (h : hs.feed c = some (hot, after)) : ∃ next victim, hs.Fed c hot after next victim := by
  unfold feed updateWith at h
  split at h
  · rename_i above
    have raised : c.above := above
    refine promote_fed ?_ (.inl raised)
    rw [decide_eq_true raised]
    exact h
  · rename_i below
    have below : ¬ c.above := below
    cases found : hs.hot[c.key]? with
    | none =>
      simp only [cool, found, Bool.not_true, Bool.false_eq_true, if_false] at h
      split at h
      · rename_i elsewhere
        refine promote_fed ?_ (.inr ⟨elsewhere, found⟩)
        rw [decide_eq_false below]
        exact h
      · obtain ⟨rfl, rfl⟩ := Prod.mk.inj (Option.some.inj h)
        refine ⟨none, none, ?_, rfl, by simp, fun key => ?_, rfl, rfl⟩
        · rw [found]
          exact .refused
        · split
          · rename_i same
            rw [same, found]
          · simp
    | some entry =>
      have turned := cooled_turned hs.cooldown below entry
      rw [← found] at turned
      rw [cool_entry found] at h
      simp only [Bool.not_true, Bool.false_eq_true, if_false, ExtTreeMap.getElem?_insert_self] at h
      by_cases stays : ((cooled hs.cooldown c entry).primary || c.elsewhere) = true
      · rw [if_pos stays] at turned
        have kept : some (true, ({ hs with
            hot := hs.hot.insert c.key (cooled hs.cooldown c entry) } : HotSet)) =
              some (hot, after) := by
          rw [← h]
          rcases Bool.or_eq_true_iff.mp stays with primary | elsewhere
          · rw [if_pos primary]
          · rw [if_pos elsewhere, ite_self]
        obtain ⟨rfl, rfl⟩ := Prod.mk.inj (Option.some.inj kept)
        refine ⟨_, none, turned, rfl, by simp, fun key => ?_, rfl, rfl⟩
        rw [hot_insert]
        simp
      · rw [if_neg stays] at turned
        simp only [Bool.or_eq_true, not_or] at stays
        rw [if_neg stays.1, if_neg stays.2] at h
        obtain ⟨rfl, rfl⟩ := Prod.mk.inj (Option.some.inj h)
        refine ⟨none, none, turned, rfl, by simp, fun key => ?_, rfl, rfl⟩
        dsimp only
        rw [hot_erase, hot_insert]
        by_cases same : key = c.key <;> simp [same]

/- The calls of a key since its last above the threshold. -/
def unbroken (key : UInt64) (calls : List HotCall) : List HotCall :=
  ((calls.filter (·.key == key)).reverse.takeWhile fun c => !decide c.above).reverse

def lastCall (key : UInt64) (calls : List HotCall) : Option HotCall :=
  (calls.filter (·.key == key)).getLast?

theorem unbroken_snoc (key : UInt64) (calls : List HotCall) (c : HotCall) :
    unbroken key (calls ++ [c]) = if c.key = key then
      (if c.above then [] else unbroken key calls ++ [c]) else unbroken key calls := by
  unfold unbroken
  by_cases own : c.key = key
  · by_cases above : c.above <;> simp [List.filter_append, own, above]
  · simp [List.filter_append, own]

theorem lastCall_snoc (key : UInt64) (calls : List HotCall) (c : HotCall) :
    lastCall key (calls ++ [c]) = if c.key = key then some c else lastCall key calls := by
  unfold lastCall
  by_cases own : c.key = key <;> simp [List.filter_append, own]

theorem mem_unbroken {key : UInt64} {calls : List HotCall} {c : HotCall}
    (mem : c ∈ unbroken key calls) : c ∈ calls := by
  have within := (List.takeWhile_sublist _).mem (List.mem_reverse.mp mem)
  exact List.mem_of_mem_filter (List.mem_reverse.mp within)

/- What the entries remember of the calls so far: the demand of a key's last one, and, of a key that
   is primary, when the run of those not above the threshold began. -/
structure Remembers (hs : HotSet) (calls : List HotCall) : Prop where
  demand : ∀ (key : UInt64) (entry : HotEntry), hs.hot[key]? = some entry →
    (lastCall key calls).map (·.demand) = some entry.demand
  cooling : ∀ (key : UInt64) (entry : HotEntry), hs.hot[key]? = some entry →
    entry.primary = true → entry.coolingSince = (unbroken key calls).head?.map (·.now)

theorem Turned.remembers {cooldown : Nat} {c : HotCall} {calls : List HotCall}
    {old next : Option HotEntry} {entry : HotEntry} (turned : Turned cooldown c old next)
    (before : ∀ entry, old = some entry → entry.primary = true →
      entry.coolingSince = (unbroken c.key calls).head?.map (·.now))
    (found : next = some entry) : entry.demand = c.demand ∧ (entry.primary = true →
      entry.coolingSince = (unbroken c.key (calls ++ [c])).head?.map (·.now)) := by
  rw [unbroken_snoc, if_pos rfl]
  cases turned with
  | raised held above =>
    obtain rfl := Option.some.inj found
    simp [above]
  | entered reason =>
    obtain rfl := Option.some.inj found
    refine ⟨rfl, fun primary => ?_⟩
    simp [of_decide_eq_true primary]
  | refused => simp at found
  | stayed held below secondary elsewhere =>
    obtain rfl := Option.some.inj found
    exact ⟨rfl, fun primary => by simp [secondary] at primary⟩
  | left => simp at found
  | cooling held below primary early =>
    obtain rfl := Option.some.inj found
    refine ⟨rfl, fun _ => ?_⟩
    have since := before held rfl primary
    rw [if_neg below]
    cases run : unbroken c.key calls with
    | nil => simp [since, run]
    | cons first rest => simp [since, run]
  | cooled held since below primary cooling expired =>
    split at found
    · obtain rfl := Option.some.inj found
      exact ⟨rfl, fun primary => by simp at primary⟩
    · simp at found

theorem Fed.remembers {hs after : HotSet} {c : HotCall} {hot : Bool} {next : Option HotEntry}
    {victim : Option UInt64} {calls : List HotCall} (fed : hs.Fed c hot after next victim)
    (remembers : hs.Remembers calls) : after.Remembers (calls ++ [c]) := by
  have own {entry : HotEntry} (found : next = some entry) :=
    fed.turned.remembers (remembers.cooling c.key) found
  have others {key : UInt64} {entry : HotEntry} (found : after.hot[key]? = some entry)
      (apart : key ≠ c.key) : hs.hot[key]? = some entry := by
    rw [fed.lookup, if_neg apart] at found
    split at found
    · simp at found
    · exact found
  constructor
  · intro key entry found
    rw [lastCall_snoc]
    by_cases same : key = c.key
    · subst same
      rw [fed.lookup, if_pos rfl] at found
      rw [if_pos rfl, (own found).1]
      rfl
    · rw [if_neg (Ne.symm same)]
      exact remembers.demand key entry (others found same)
  · intro key entry found primary
    by_cases same : key = c.key
    · subst same
      rw [fed.lookup, if_pos rfl] at found
      exact (own found).2 primary
    · rw [unbroken_snoc, if_neg (Ne.symm same)]
      exact remembers.cooling key entry (others found same) primary

/- What holds after any calls at times that do not go back. -/
structure History (cooldown maxSize : Nat) (calls : List HotCall) (hs : HotSet) : Prop where
  sound : ∀ now, (∀ c ∈ calls, c.now ≤ now) → hs.Sound now
  remembers : hs.Remembers calls
  cooldown : hs.cooldown = cooldown
  maxSize : hs.maxSize = maxSize

theorem feedAll_snoc (hs : HotSet) (calls : List HotCall) (c : HotCall) :
    hs.feedAll (calls ++ [c]) = (hs.feedAll calls).bind fun hs => (hs.feed c).map (·.2) := by
  rw [feedAll, List.foldlM_append]
  exact congrArg _ (funext fun u => by simp [List.foldlM_cons])

theorem new_history {cooldown maxSize : Nat} {start : HotSet}
    (fresh : HotSet.new cooldown maxSize = some start) : start.History cooldown maxSize [] := by
  unfold HotSet.new at fresh
  split at fresh
  · rename_i room
    obtain rfl := Option.some.inj fresh
    refine ⟨fun _ _ => ⟨room, ?_, ?_⟩, ⟨?_, ?_⟩, rfl, rfl⟩ <;> simp
  · simp at fresh

theorem History.fed {cooldown maxSize : Nat} {calls : List HotCall} {hs : HotSet} {c : HotCall}
    (history : hs.History cooldown maxSize calls) (later : ∀ earlier ∈ calls, earlier.now ≤ c.now) :
    ∃ hot after next victim, hs.feed c = some (hot, after) ∧ hs.Fed c hot after next victim ∧
      after.History cooldown maxSize (calls ++ [c]) := by
  obtain ⟨hot, after, h, sound, size⟩ := updateWith_total (history.sound c.now later) (Nat.le_refl _) c.key
    c.demand c.threshold c.elsewhere
  obtain ⟨next, victim, fed⟩ := feed_fed h
  refine ⟨hot, after, next, victim, h, fed, fun now all => ?_, fed.remembers history.remembers,
    fed.same.2.trans history.cooldown, fed.same.1.trans history.maxSize⟩
  exact sound.later (all c (List.mem_append_right _ (List.mem_singleton.mpr rfl)))

theorem feedAll_history {cooldown maxSize : Nat} {start : HotSet}
    (fresh : HotSet.new cooldown maxSize = some start) (calls : List HotCall)
    (ordered : calls.Pairwise (·.now ≤ ·.now)) :
    ∃ hs, start.feedAll calls = some hs ∧ hs.History cooldown maxSize calls := by
  induction calls using List.reverseRecOn with
  | nil => exact ⟨start, rfl, new_history fresh⟩
  | append_singleton calls c ih =>
    rw [List.pairwise_append] at ordered
    obtain ⟨hs, fedAll, history⟩ := ih ordered.1
    obtain ⟨hot, after, _, _, h, _, history'⟩ := history.fed fun earlier mem =>
      ordered.2.2 earlier mem c (List.mem_singleton.mpr rfl)
    refine ⟨after, ?_, history'⟩
    rw [feedAll_snoc, fedAll, Option.bind_some, h, Option.map_some]

def Evicted (hs : HotSet) (c : HotCall) (after : HotSet) (key : UInt64) : Prop :=
  key ≠ c.key ∧ hs.isHot key = true ∧ after.isHot key = false

/- What the set does at a call, given the calls before it. -/
structure Obeys (cooldown maxSize : Nat) (calls : List HotCall) (c : HotCall) (hs : HotSet)
    (hot : Bool) (after : HotSet) : Prop where
  size : after.len ≤ maxSize
  answer : hot = after.isHot c.key
  entry : ∀ key, hs.isHot key = false → after.isHot key = true →
    key = c.key ∧ (c.above ∨ c.elsewhere = true)
  primary : ∀ key, hs.isPrimary key = true → after.isPrimary key = false →
    Evicted hs c after key ∨ key = c.key ∧ ¬ c.above ∧ ∃ first,
      (unbroken key (calls ++ [c])).head? = some first ∧ first.now + cooldown ≤ c.now
  secondary : ∀ key, hs.isHot key = true → hs.isPrimary key = false →
    (after.isHot key = false ↔
      Evicted hs c after key ∨ key = c.key ∧ ¬ c.above ∧ c.elsewhere = false)
  evicted : ∀ key, Evicted hs c after key → ∃ last, lastCall key calls = some last ∧
    last.demand * evictionMargin < c.demand ∧ hs.len = maxSize ∧
    ∀ other, hs.isHot other = true →
      ∃ lastOther, lastCall other calls = some lastOther ∧ last.demand ≤ lastOther.demand

theorem isHot_isSome (hs : HotSet) (key : UInt64) : hs.isHot key = hs.hot[key]?.isSome := by
  rw [isHot, ExtTreeMap.contains_eq_isSome_getElem?]

theorem Turned.demoted {cooldown : Nat} {c : HotCall} {entry : HotEntry} {next : Option HotEntry}
    (turned : Turned cooldown c (some entry) next) (primary : entry.primary = true)
    (demoted : next.any (·.primary) = false) : ¬ c.above ∧ ∃ since,
      entry.coolingSince = some since ∧ cooldown ≤ c.now - since := by
  cases turned with
  | raised => simp at demoted
  | stayed _ _ secondary => simp [secondary] at primary
  | left _ _ secondary => simp [secondary] at primary
  | cooling => simp [primary] at demoted
  | cooled _ since below _ cooling expired => exact ⟨below, since, cooling, expired⟩

theorem Turned.leaves {cooldown : Nat} {c : HotCall} {entry : HotEntry} {next : Option HotEntry}
    (turned : Turned cooldown c (some entry) next) (secondary : entry.primary = false) :
    next.isSome = false ↔ ¬ c.above ∧ c.elsewhere = false := by
  cases turned with
  | raised _ above => simp [above]
  | stayed _ below _ elsewhere => simp [elsewhere]
  | left _ below _ alone => simp [below, alone]
  | cooling _ _ primary => simp [secondary] at primary
  | cooled _ _ _ primary => simp [secondary] at primary

theorem Turned.enters {cooldown : Nat} {c : HotCall} {next : Option HotEntry}
    (turned : Turned cooldown c none next) (entered : next.isSome = true) :
    c.above ∨ c.elsewhere = true := by
  cases turned with
  | entered reason => exact reason
  | refused => simp at entered

theorem Fed.obeys {cooldown maxSize : Nat} {calls : List HotCall} {c : HotCall} {hs after : HotSet}
    {hot : Bool} {next : Option HotEntry} {victim : Option UInt64}
    (fed : hs.Fed c hot after next victim) (history : hs.History cooldown maxSize calls)
    (history' : after.History cooldown maxSize (calls ++ [c]))
    (later : ∀ earlier ∈ calls, earlier.now ≤ c.now) :
    Obeys cooldown maxSize calls c hs hot after := by
  have own : after.hot[c.key]? = next := by rw [fed.lookup, if_pos rfl]
  constructor
  · have fits := (history'.sound c.now (by
      intro earlier mem
      rcases List.mem_append.mp mem with old | new
      · exact later earlier old
      · rw [List.mem_singleton.mp new])).fits
    rw [history'.maxSize] at fits
    exact fits
  · rw [isHot_isSome, own, fed.hot]
  · intro key cold hot
    rw [isHot_isSome] at cold hot
    have same : key = c.key := by
      by_contra apart
      rw [fed.lookup, if_neg apart] at hot
      split at hot
      · simp at hot
      · simp [cold] at hot
    subst same
    have turned := fed.turned
    have absent : hs.hot[c.key]? = none := Option.isSome_eq_false_iff.mp cold |> Option.isNone_iff_eq_none.mp
    rw [absent] at turned
    rw [own] at hot
    exact ⟨rfl, turned.enters hot⟩
  · intro key primary demoted
    by_cases same : key = c.key
    · subst same
      rw [isPrimary, own] at demoted
      obtain ⟨entry, found, primary⟩ := (Option.any_eq_true _ _).mp primary
      have turned := fed.turned
      rw [found] at turned
      obtain ⟨below, since, cooling, expired⟩ := turned.demoted primary demoted
      have began := history.remembers.cooling _ _ found primary
      rw [cooling, eq_comm, Option.map_eq_some_iff] at began
      obtain ⟨first, began, rfl⟩ := began
      refine .inr ⟨rfl, below, first, ?_, ?_⟩
      · rw [unbroken_snoc, if_pos rfl, if_neg below, List.head?_append, began]
        rfl
      · have before := later first (mem_unbroken (List.mem_of_head? began))
        rw [history.cooldown] at expired
        omega
    · refine .inl ⟨same, ?_, ?_⟩
      · obtain ⟨entry, found, _⟩ := (Option.any_eq_true _ _).mp primary
        exact (hs.isHot_iff key).mpr ⟨entry, found⟩
      · rw [isPrimary, fed.lookup, if_neg same] at demoted
        rw [isHot_isSome, fed.lookup, if_neg same]
        split at demoted
        · rename_i gone
          rw [if_pos gone]
          rfl
        · exact absurd primary (by rw [isPrimary, demoted]; simp)
  · intro key held secondary
    by_cases same : key = c.key
    · subst same
      obtain ⟨entry, found⟩ := (hs.isHot_iff _).mp held
      rw [isPrimary, found, Option.any_some] at secondary
      have turned := fed.turned
      rw [found] at turned
      rw [isHot_isSome, own, turned.leaves secondary]
      simp [Evicted]
    · exact ⟨fun gone => .inl ⟨same, held, gone⟩,
        fun reason => (reason.resolve_right fun own => same own.1).2.2⟩
  · rintro key ⟨apart, held, gone⟩
    rw [isHot_isSome, fed.lookup, if_neg apart] at gone
    rw [isHot_isSome] at held
    have beaten : victim = some key := by
      by_contra other
      rw [if_neg other, held] at gone
      simp at gone
    obtain ⟨_, entry, beaten⟩ := fed.beaten key beaten
    have last := history.remembers.demand key entry beaten.held
    obtain ⟨last, called, demand⟩ := Option.map_eq_some_iff.mp last
    refine ⟨last, called, demand ▸ beaten.margin, ?_, fun other there => ?_⟩
    · have fits := (history.sound c.now later).fits
      have full := beaten.full
      rw [history.maxSize] at fits full
      exact Nat.le_antisymm fits full
    · obtain ⟨held, found⟩ := (hs.isHot_iff other).mp there
      have lastOther := history.remembers.demand other held found
      obtain ⟨lastOther, called, demand'⟩ := Option.map_eq_some_iff.mp lastOther
      refine ⟨lastOther, called, ?_⟩
      rw [demand, demand']
      exact beaten.least other held found

end HotSet

/-- Entry, stay and exit of a hot set, at every call after any others at times that do not go back:
    see the fields of Obeys. Being at the threshold counts as being below it. -/
theorem hot_set_history (cooldown maxSize : Nat) (start : HotSet)
    (fresh : HotSet.new cooldown maxSize = some start) (calls : List HotCall) (c : HotCall)
    (ordered : (calls ++ [c]).Pairwise (·.now ≤ ·.now)) :
    ∃ hs hot after, start.feedAll calls = some hs ∧ hs.feed c = some (hot, after) ∧
      HotSet.Obeys cooldown maxSize calls c hs hot after := by
  rw [List.pairwise_append] at ordered
  have later : ∀ earlier ∈ calls, earlier.now ≤ c.now := fun earlier mem =>
    ordered.2.2 earlier mem c (List.mem_singleton.mpr rfl)
  obtain ⟨hs, fedAll, history⟩ := HotSet.feedAll_history fresh calls ordered.1
  obtain ⟨hot, after, next, victim, h, fed, history'⟩ := history.fed later
  exact ⟨hs, hot, after, fedAll, h, fed.obeys history history' later⟩

/- A key that falls to its threshold, and stays at it for its cooldown. -/
def atThreshold : List HotCall := [⟨1, 20, 10, 0, false⟩, ⟨1, 10, 10, 1, true⟩]

theorem demoted_at_threshold : ¬ ∀ (cooldown maxSize : Nat) (start : HotSet),
    HotSet.new cooldown maxSize = some start → ∀ (calls : List HotCall) (c : HotCall),
      (calls ++ [c]).Pairwise (·.now ≤ ·.now) → ∀ hs hot after, start.feedAll calls = some hs →
        hs.feed c = some (hot, after) → ∀ key, hs.isPrimary key = true →
          after.isPrimary key = false → HotSet.Evicted hs c after key ∨
            key = c.key ∧ c.demand < c.threshold := by
  intro claim
  have runs : ((HotSet.new 5 1).any fun start => (start.feedAll atThreshold).any fun hs =>
      hs.isPrimary 1 && (hs.feed ⟨1, 10, 10, 6, true⟩).any fun fed =>
        !fed.2.isPrimary 1) = true := by
    decide +kernel
  obtain ⟨start, fresh, checked⟩ := (Option.any_eq_true _ _).mp runs
  obtain ⟨hs, fedAll, checked⟩ := (Option.any_eq_true _ _).mp checked
  simp only [Bool.and_eq_true] at checked
  obtain ⟨primary, checked⟩ := checked
  obtain ⟨⟨hot, after⟩, fed, demoted⟩ := (Option.any_eq_true _ _).mp checked
  rcases claim 5 1 start fresh atThreshold _ (by decide) hs hot after fedAll fed 1 primary
    (by simpa using demoted) with evicted | ⟨_, below⟩
  · exact evicted.1 rfl
  · exact absurd below (by simp)

theorem hot_set_history_threshold : ∃ start, HotSet.new 5 1 = some start ∧ ∃ hs hot after,
    start.feedAll atThreshold = some hs ∧ hs.feed ⟨1, 10, 10, 6, true⟩ = some (hot, after) ∧
      HotSet.Obeys 5 1 atThreshold ⟨1, 10, 10, 6, true⟩ hs hot after :=
  ⟨_, rfl, hot_set_history 5 1 _ rfl atThreshold _ (by decide)⟩

end Rateguard
