import Rateguard.IdleBuckets
import Rateguard.QuotaChanges
import Rateguard.Shadows

/- Every key of a limiter is on a bucket of its own: what a call makes of it, whatever the other
   keys do. -/
namespace Rateguard
open Std (ExtTreeMap)

def Limiter.bucket (l : Limiter) (key : UInt64) : Option Gcra :=
  (l.find key).map fun state => state.gcra

namespace LimiterCall
variable {σ : Type}

def time (last : Nat) : LimiterCall σ → Nat
  | check _ _ _ now _ => now
  | record _ _ _ now _ => now
  | setCap _ => last
  | relist _ => last
  | tick now _ _ _ _ => now

def isTick : LimiterCall σ → Bool
  | tick _ _ _ _ _ => true
  | _ => false

def answer (key : UInt64) : LimiterCall σ → Served σ → Option Decision
  | check asked _ _ _ _, .decided decision => if asked = key then some decision else none
  | _, _ => none

end LimiterCall

structure LimiterStep (σ : Type) where
  before : Limiter
  call : LimiterCall σ
  served : Served σ
  after : Limiter
  time : Nat

def limiterRun {σ : Type} (decay : Nat → Nat → ℚ) (l : Limiter) (last : Nat) :
    List (LimiterCall σ) → Option (List (LimiterStep σ))
  | [] => some []
  | call :: rest => do
    let (served, l') ← call.serve decay l
    let steps ← limiterRun decay l' (call.time last) rest
    some (⟨l, call, served, l', call.time last⟩ :: steps)

namespace LimiterStep
variable {σ : Type} (key : UInt64) (step : LimiterStep σ)

/- A tick finds no more keys than the cap on them allows. -/
def Roomy : Prop :=
  step.call.isTick = true → step.before.trackedKeys ≤ step.before.config.maxTrackedKeys

instance : Decidable step.Roomy := inferInstanceAs (Decidable (_ → _))

end LimiterStep

/- What a call can make of a key's bucket: nothing; a fresh one, checked or not; a check; a change
   of quota; and it forgets a bucket without debt. -/
inductive Touches (now : Nat) : Option Gcra → Option Decision → Option Gcra → Prop
  | nothing (bucket : Option Gcra) : Touches now bucket none bucket
  | fresh (cold : Quota) : Touches now none none (some (.new cold))
  | first (cold : Quota) : Touches now none (some ((Gcra.new cold).check now).1)
      (some ((Gcra.new cold).check now).2)
  | check (g : Gcra) : Touches now (some g) (some (g.check now).1) (some (g.check now).2)
  | setQuota (g : Gcra) (quota : Quota) : Touches now (some g) none (some (g.setQuota quota now))
  | forget (g : Gcra) : g.hasDebt now = false → Touches now (some g) none none

/- One step as a key's bucket sees it, and as whoever asked for the key does. -/
structure BucketStep where
  time : Nat
  before : Option Gcra
  answer : Option Decision
  after : Option Gcra

namespace BucketStep
variable (step : BucketStep)

def answered : Option (Nat × Decision) := step.answer.map fun decision => (step.time, decision)

/- What the step comes to for a bucket that is never forgotten: it is put on the quota the key is
   now held to, and checked if the key was. -/
def calls : List BucketCall :=
  (step.after.toList.map fun g => .setQuota g.quota step.time) ++
    (step.answer.toList.map fun _ => .check step.time)

end BucketStep

inductive BucketRun : Nat → Option Gcra → List BucketStep → Prop
  | done (last : Nat) (bucket : Option Gcra) : BucketRun last bucket []
  | step {last : Nat} {step : BucketStep} {rest : List BucketStep} : last ≤ step.time →
      Touches step.time step.before step.answer step.after → BucketRun step.time step.after rest →
      BucketRun last step.before (step :: rest)

def LimiterStep.bucketStep {σ : Type} (key : UInt64) (step : LimiterStep σ) : BucketStep where
  time := step.time
  before := step.before.bucket key
  answer := step.call.answer key step.served
  after := step.after.bucket key

namespace Limiter
variable {l l' : Limiter} {key : UInt64}

def held (l : Limiter) (key : UInt64) : Option (Limit × Gcra) :=
  (l.find key).map fun state => (state.limit, state.gcra)

theorem bucket_eq (l : Limiter) (key : UInt64) : l.bucket key = (l.held key).map Prod.snd := by
  rw [bucket, held, Option.map_map]
  rfl

theorem held_none : l.held key = none ↔ l.find key = none := by rw [held, Option.map_eq_none_iff]

/- Every bucket is on the quota its key is held to. -/
def Tuned (l : Limiter) : Prop :=
  ∀ key state, l.find key = some state → state.gcra.quota = state.applied

theorem SameReal.held {a b : Limiter} (same : a.SameReal b) (key : UInt64) :
    a.held key = b.held key := by
  have related := find_same same key
  unfold Limiter.held
  generalize a.find key = x at related
  generalize b.find key = y at related
  cases related with
  | none => rfl
  | some related =>
    obtain ⟨_, rfl⟩ := related
    rfl

theorem SameReal.tuned {a b : Limiter} (same : a.SameReal b) (tuned : a.Tuned) : b.Tuned := by
  intro key state found
  have related := find_same same key
  rw [found] at related
  generalize before : a.find key = x at related
  cases related with
  | some related =>
    obtain ⟨_, rfl⟩ := related
    have before := tuned key _ before
    exact before

/- What a call about one key does: that key has its limit and a bucket, on the quota it had or the
   cold one, and the others have what they had. -/
structure Serving (l : Limiter) (key : UInt64) (limit : Limit) (now clusterSize : Nat)
    (answer : Option Decision) (l' : Limiter) : Prop where
  valid : limit.Valid
  touches : Touches now (l.bucket key) answer (l'.bucket key)
  others : ∀ other, other ≠ key → l'.held other = l.held other
  own : ∃ g, l'.held key = some (limit, g) ∧
    ((∃ old before, l.held key = some (old, before) ∧ g.quota = before.quota) ∨
      l.held key = none ∧ l.coldQuota limit clusterSize = some g.quota)
  tuned : l'.Tuned

theorem Serving.sameReal {limit : Limit} {now clusterSize : Nat} {answer : Option Decision}
    {u : Limiter} (serving : Serving l key limit now clusterSize answer u) (same : u.SameReal l') :
    Serving l key limit now clusterSize answer l' := by
  refine ⟨serving.valid, ?_, fun other apart => ?_, ?_, same.tuned serving.tuned⟩
  · rw [bucket_eq l', ← same.held, ← bucket_eq]
    exact serving.touches
  · rw [← same.held]
    exact serving.others other apart
  · rw [← same.held]
    exact serving.own

/- A call writes the bucket of a key it has looked up, and what it counts of it. -/
theorem entry_serving {limit : Limit} {now clusterSize : Nat} {state : KeyState} {u : Limiter}
    {answer : Option Decision} (tuned : l.Tuned)
    (h : l.entry key limit now clusterSize = some (state, u)) (demand requests denials
      shadowDenials : Demand) (gcra : Gcra) (quota : gcra.quota = state.gcra.quota)
    (known : Touches now (some state.gcra) answer (some gcra))
    (fresh : state.gcra = .new state.applied → Touches now none answer (some gcra)) :
    Serving l key limit now clusterSize answer
      (u.put key { state with demand, requests, denials, shadowDenials, gcra }) := by
  have serves := entry_serves h
  simp only [entry, bind, Option.ite_none_right_eq_some, Option.bind_eq_some_iff] at h
  obtain ⟨valid, cold, asked, h⟩ := h
  have before : (∀ other, other ≠ key → u.find other = l.find other) ∧ state.limit = limit ∧
      ((∃ kept, l.find key = some kept ∧ state = { kept with limit := limit }) ∨
        l.find key = none ∧ state.gcra = .new state.applied ∧
          l.coldQuota limit clusterSize = some state.applied) := by
    split at h
    · rename_i kept found
      simp only [Option.some.injEq, Prod.mk.injEq] at h
      obtain ⟨rfl, rfl⟩ := h
      exact ⟨fun other apart => by rw [put_find, if_neg apart], rfl, .inl ⟨kept, found, rfl⟩⟩
    · rename_i untracked
      simp only [Option.some.injEq, Prod.mk.injEq] at h
      obtain ⟨rfl, rfl⟩ := h
      refine ⟨fun other apart => ?_, rfl, .inr ⟨untracked, rfl, asked⟩⟩
      have unequal : (other == key) = false := by simpa using apart
      unfold find
      rw [List.lookup_append, List.lookup_cons, unequal]
      simp
  obtain ⟨others, limits, started⟩ := before
  have own : (u.put key { state with demand, requests, denials, shadowDenials, gcra }).find key =
      some { state with demand, requests, denials, shadowDenials, gcra } := by
    rw [put_find, if_pos rfl, serves.2]
    rfl
  have apart (other : UInt64) (unequal : other ≠ key) :
      (u.put key { state with demand, requests, denials, shadowDenials, gcra }).find other =
        l.find other := by
    rw [put_find, if_neg unequal, others other unequal]
  have on : state.gcra.quota = state.applied := by
    rcases started with ⟨kept, found, rfl⟩ | ⟨_, fresh, _⟩
    · have on := tuned key kept found
      exact on
    · rw [fresh]
      rfl
  refine ⟨valid, ?_, fun other unequal => by rw [held, held, apart other unequal], ⟨gcra, ?_, ?_⟩, ?_⟩
  · rw [bucket, bucket, own]
    rcases started with ⟨kept, found, rfl⟩ | ⟨untracked, new, _⟩
    · rw [found]
      exact known
    · rw [untracked]
      exact fresh new
  · rw [held, own, Option.map_some, limits]
  · rcases started with ⟨kept, found, rfl⟩ | ⟨untracked, _, cold⟩
    · exact .inl ⟨kept.limit, kept.gcra, by rw [held, found, Option.map_some], quota⟩
    · exact .inr ⟨held_none.mpr untracked, by rw [quota, on]; exact cold⟩
  · intro other state' found
    by_cases same : other = key
    · subst same
      rw [own] at found
      obtain rfl := Option.some.inj found
      exact quota.trans on
    · rw [apart other same] at found
      exact tuned other state' found

theorem checkIn_serving {limit : Limit} {now clusterSize : Nat} {decision : Decision}
    (tuned : l.Tuned) (h : l.checkIn key limit now clusterSize = some (decision, l')) :
    Serving l key limit now clusterSize (some decision) l' := by
  simp only [checkIn, bind, Option.bind_eq_some_iff] at h
  obtain ⟨⟨state, u⟩, entered, demand, _, requests, _, h⟩ := h
  have served : ∃ denials, decision = (state.gcra.check now).1 ∧
      l' = u.put key { state with demand, requests, denials, gcra := (state.gcra.check now).2 } := by
    generalize state.gcra.check now = checked at h
    obtain ⟨decided, gcra⟩ := checked
    dsimp only at h
    split at h
    · simp only [Option.bind_some, Option.some.injEq, Prod.mk.injEq] at h
      exact ⟨_, h.1.symm, h.2.symm⟩
    · simp only [Option.bind_eq_some_iff, Option.some.injEq, Prod.mk.injEq] at h
      obtain ⟨denials, _, rfl, rfl⟩ := h
      exact ⟨denials, rfl, rfl⟩
  obtain ⟨denials, rfl, rfl⟩ := served
  have quota : (state.gcra.check now).2.quota = state.gcra.quota := by
    unfold Gcra.check
    dsimp only
    split <;> rfl
  refine entry_serving tuned entered demand requests denials state.shadowDenials _ quota
    (.check _) fun fresh => ?_
  rw [fresh]
  exact .first state.applied

/- What a runtime counted touches no bucket, but may be the first that is heard of a key. -/
theorem record_serving {limit : Limit} {now clusterSize : Nat} {tally : Tally} (tuned : l.Tuned)
    (h : l.record key tally limit now clusterSize = some l') :
    Serving l key limit now clusterSize none l' := by
  simp only [record, bind, Option.bind_eq_some_iff, Option.some.injEq] at h
  obtain ⟨⟨state, u⟩, entered, demand, _, requests, _, denials, _, shadowDenials, _, rfl⟩ := h
  refine entry_serving tuned entered demand requests denials shadowDenials state.gcra rfl
    (.nothing _) fun fresh => ?_
  rw [fresh]
  exact .fresh state.applied

end Limiter

section Tick
variable {σ : Type} {share : σ → UInt64 → ℚ → ℚ → ℚ × σ} {decay : Nat → Nat → ℚ} {now : Nat}
  {config : Config} {cap : Option ℚ} {n : ℚ} {hotElsewhere : UInt64 → Bool} {hotSet : HotSet}
  {key : UInt64}

/- The second pass puts each key on the quota of its own rate. -/
theorem applyQuotas_find {keys quoted : List (UInt64 × KeyState)} {s s' : σ}
    (h : applyQuotas share config cap n hotElsewhere hotSet now keys s = some (quoted, s'))
    {state : KeyState} (found : keys.lookup key = some state) :
    ∃ asked wanted, quotaFor (appliedRate config cap n hotElsewhere hotSet asked key state)
        state.limit.burst = some wanted ∧ quoted.lookup key = some (state.apply wanted now) := by
  induction keys generalizing quoted s s' with
  | nil => simp at found
  | cons entry rest ih =>
    obtain ⟨own, first⟩ := entry
    simp only [applyQuotas] at h
    generalize (if hotSet.isHot own = true then share s own first.demand.rate first.limit.rate
      else (0, s)) = result at h
    obtain ⟨asked, next⟩ := result
    simp only [bind, Option.bind_eq_some_iff, Option.some.injEq, Prod.mk.injEq] at h
    obtain ⟨wanted, quota, ⟨others, last⟩, later, rfl, _⟩ := h
    rw [List.lookup_cons] at found ⊢
    split at found
    · rename_i same
      obtain rfl := eq_of_beq same
      obtain rfl := Option.some.inj found
      exact ⟨asked, wanted, quota, by simp⟩
    · rename_i apart
      simpa [apart] using ih later found

/- A change to the quota a bucket is on changes nothing, so every key may be said to be put on the
   quota it is given. -/
theorem KeyState.apply_gcra {state : KeyState} (tuned : state.gcra.quota = state.applied)
    (wanted : Quota) (now : Nat) : (state.apply wanted now).limit = state.limit ∧
      (state.apply wanted now).gcra = state.gcra.setQuota wanted now ∧
      (state.apply wanted now).gcra.quota = (state.apply wanted now).applied := by
  unfold KeyState.apply
  split
  · rename_i same
    refine ⟨rfl, ?_, tuned⟩
    rw [Gcra.setQuota, if_pos (same.symm.trans tuned.symm)]
  · exact ⟨rfl, rfl, Gcra.setQuota_quota _ _ _⟩

namespace Limiter
variable {l l' : Limiter} {clusterSize : Nat} {s s' : σ}

/- What a tick does to one key where there is room for all: it forgets it if it is out of debt, or
   puts it on a quota. -/
inductive Retuned (l : Limiter) (now clusterSize : Nat) (hotElsewhere : UInt64 → Bool)
    (l' : Limiter) (key : UInt64) : Prop
  | untracked : l.held key = none → l'.held key = none → Retuned l now clusterSize hotElsewhere l' key
  | forgotten {limit : Limit} {g : Gcra} : l.held key = some (limit, g) → g.hasDebt now = false →
      l'.held key = none → Retuned l now clusterSize hotElsewhere l' key
  | retuned {limit : Limit} {g : Gcra} {quota : Quota} (asked : ℚ) (state : KeyState) :
      l.held key = some (limit, g) → state.limit = limit →
      quotaFor (appliedRate l.config l.cap clusterSize hotElsewhere l'.hotSet asked key state)
        limit.burst = some quota → l'.held key = some (limit, g.setQuota quota now) →
      Retuned l now clusterSize hotElsewhere l' key

theorem tick_retuned (tuned : l.Tuned) (distinct : (l.keys.map Prod.fst).Nodup)
    (roomy : l.trackedKeys ≤ l.config.maxTrackedKeys)
    (h : l.tickWithShares share decay now clusterSize hotElsewhere s = some (l', s')) :
    l'.Tuned ∧ ∀ key, Retuned l now clusterSize hotElsewhere l' key := by
  obtain ⟨kept, quoted, ticked⟩ := tickWithShares_spec h
  have names := applyQuotas_names ticked.quotas
  have sublist := (settle_spec distinct ticked.settled).1
  have distinctKept := distinct.sublist sublist
  have all : l'.keys = quoted := by
    have fewer := sublist.length_le
    have same := congrArg List.length names
    rw [List.length_map, List.length_map] at fewer same
    have fits : quoted.length ≤ l.config.maxTrackedKeys := same ▸ fewer.trans roomy
    rw [ticked.cut, enforceCap, if_pos fits]
  have find (key : UInt64) : l'.find key = quoted.lookup key := by rw [Limiter.find, all]
  have absent {key : UInt64} (gone : kept.lookup key = none) : l'.find key = none := by
    rw [find, List.lookup_eq_none_iff] at *
    intro entry mem
    have listed : entry.1 ∈ kept.map Prod.fst := names ▸ List.mem_map.mpr ⟨entry, mem, rfl⟩
    obtain ⟨before, mem, same⟩ := List.mem_map.mp listed
    exact same ▸ gone before mem
  have settled {key : UInt64} {state : KeyState} (found : kept.lookup key = some state) :
      ∃ before, l.find key = some before ∧ state = before.tick decay now := by
    obtain ⟨before, mem, same⟩ := settle_mem ticked.settled (lookup_mem found)
    exact ⟨before, (Reordered.lookup_eq_some_iff distinct).mpr mem, same⟩
  refine ⟨fun key state found => ?_, fun key => ?_⟩
  · cases kept' : kept.lookup key with
    | none => rw [absent kept'] at found; simp at found
    | some held =>
      obtain ⟨_, wanted, _, after⟩ := applyQuotas_find ticked.quotas kept'
      obtain ⟨before, was, rfl⟩ := settled kept'
      rw [find, after] at found
      obtain rfl := Option.some.inj found
      have on := tuned key before was
      exact (@KeyState.apply_gcra (before.tick decay now) on wanted now).2.2
  · cases was : l.find key with
    | none =>
      refine .untracked (held_none.mpr was) (held_none.mpr (absent ?_))
      cases kept' : kept.lookup key with
      | none => rfl
      | some held =>
        obtain ⟨before, found, _⟩ := settled kept'
        rw [was] at found
        simp at found
    | some before =>
      have held : l.held key = some (before.limit, before.gcra) := by
        rw [Limiter.held, was, Option.map_some]
      cases kept' : kept.lookup key with
      | none =>
        refine .forgotten held ?_ (held_none.mpr (absent kept'))
        rcases settle_dropped ticked.settled (find_mem was) with listed | silent
        · rw [(Reordered.lookup_eq_some_iff distinctKept).mpr listed] at kept'
          simp at kept'
        · exact silent.debt
      | some state =>
        obtain ⟨asked, wanted, quota, after⟩ := applyQuotas_find ticked.quotas kept'
        obtain ⟨_, found, rfl⟩ := settled kept'
        rw [was] at found
        obtain rfl := Option.some.inj found
        have on := tuned key before was
        obtain ⟨limit, gcra, _⟩ := @KeyState.apply_gcra (before.tick decay now) on wanted now
        refine .retuned asked (before.tick decay now) held rfl quota ?_
        rw [Limiter.held, find, after, Option.map_some, limit, gcra]
        rfl

end Limiter

end Tick

namespace Limiter
variable {l l' : Limiter}

theorem relisted_lookup (find : UInt64 → Option KeyState) (key : UInt64) (order : List UInt64) :
    (order.filterMap fun key => (find key).map fun state => (key, state)).lookup key =
      if key ∈ order then find key else none := by
  induction order with
  | nil => simp
  | cons other rest ih =>
    rw [List.filterMap_cons]
    by_cases same : key = other
    · subst same
      cases found : find key with
      | none =>
        simp only [found, Option.map_none, ite_self] at ih ⊢
        exact ih
      | some state => simp
    · have apart : (key == other) = false := by simpa using same
      cases find other with
      | none => simp [same, ih]
      | some state => simp [List.lookup_cons, apart, same, ih]

/- The order keys are listed in is nobody's business. -/
theorem relisted_find {order : List UInt64} (h : l.relisted order = some l') (key : UInt64) :
    l'.find key = l.find key := by
  simp only [relisted, Option.ite_none_right_eq_some, Option.some.injEq] at h
  obtain ⟨perm, rfl⟩ := h
  refine (relisted_lookup l.find key order).trans ?_
  split
  · rfl
  · rename_i unlisted
    exact (find_none_iff.mpr fun mem => unlisted (perm.mem_iff.mpr mem)).symm

structure Orderly (l : Limiter) : Prop where
  tuned : l.Tuned
  distinct : (l.keys.map Prod.fst).Nodup

theorem new_held {config : Config} (h : Limiter.new config = some l) (key : UInt64) :
    l.held key = none := by
  simp only [Limiter.new, Option.ite_none_right_eq_some, Option.map_eq_some_iff] at h
  obtain ⟨_, hotSet, _, rfl⟩ := h
  rfl

theorem new_orderly {config : Config} (h : Limiter.new config = some l) : l.Orderly := by
  refine ⟨fun key state found => ?_, (new_tidy h).distinct⟩
  have untracked := held_none.mp (new_held h key)
  rw [untracked] at found
  simp at found

theorem Serving.touches_each {key asked : UInt64} {limit : Limit} {now clusterSize : Nat}
    {answer : Option Decision} (serving : Serving l asked limit now clusterSize answer l') :
    Touches now (l.bucket key) (if asked = key then answer else none) (l'.bucket key) := by
  split
  · rename_i same
    exact same ▸ serving.touches
  · rename_i apart
    rw [bucket_eq, bucket_eq, serving.others key (Ne.symm apart)]
    exact .nothing _

end Limiter

namespace LimiterCall
variable {σ : Type} {decay : Nat → Nat → ℚ} {l l' : Limiter} {served : Served σ}

theorem serve_orderly {call : LimiterCall σ} (orderly : l.Orderly)
    (h : call.serve decay l = some (served, l')) (key : UInt64) (last : Nat)
    (roomy : call.isTick = true → l.trackedKeys ≤ l.config.maxTrackedKeys) :
    l'.Orderly ∧ Touches (call.time last) (l.bucket key) (call.answer key served)
      (l'.bucket key) := by
  cases call with
  | check asked limit traced now clusterSize =>
    obtain ⟨decision, u, checked, rfl, same⟩ := serve_check orderly.distinct h
    have serving := (Limiter.checkIn_serving orderly.tuned checked).sameReal same
    have distinct := (Limiter.checkIn_serves checked).distinct orderly.distinct
    exact ⟨⟨serving.tuned, same_names same.keys ▸ distinct⟩, serving.touches_each⟩
  | record asked tally limit now clusterSize =>
    simp only [serve, Option.map_eq_some_iff, Prod.mk.injEq] at h
    obtain ⟨_, recorded, rfl, rfl⟩ := h
    have serving := Limiter.record_serving orderly.tuned recorded
    have touches := @Limiter.Serving.touches_each _ _ key _ _ _ _ _ serving
    rw [ite_self] at touches
    exact ⟨⟨serving.tuned, (Limiter.record_serves recorded).distinct orderly.distinct⟩, touches⟩
  | setCap cap =>
    simp only [serve, Option.some.injEq, Prod.mk.injEq] at h
    obtain ⟨rfl, rfl⟩ := h
    exact ⟨⟨orderly.tuned, orderly.distinct⟩, .nothing _⟩
  | relist order =>
    simp only [serve, Option.map_eq_some_iff, Prod.mk.injEq] at h
    obtain ⟨u, listed, rfl, rfl⟩ := h
    have same := Limiter.relisted_find listed
    refine ⟨⟨fun key state found => orderly.tuned key state (same key ▸ found), ?_⟩, ?_⟩
    · have related := Limiter.relisted_same (Limiter.SameReal.refl orderly.distinct) order
      rw [listed, Option.rel_some_some] at related
      exact related.distinct
    · have bucket : u.bucket key = l.bucket key := by rw [Limiter.bucket, Limiter.bucket, same]
      rw [bucket]
      exact .nothing _
  | tick now clusterSize hotElsewhere share s =>
    simp only [serve, Option.map_eq_some_iff, Prod.mk.injEq] at h
    obtain ⟨⟨u, s'⟩, ticked, rfl, rfl⟩ := h
    obtain ⟨tuned, each⟩ := Limiter.tick_retuned orderly.tuned orderly.distinct (roomy rfl) ticked
    have distinct : (u.keys.map Prod.fst).Nodup := by
      obtain ⟨kept, quoted, spec⟩ := Limiter.tickWithShares_spec ticked
      have names := applyQuotas_names spec.quotas
      have kept := (settle_spec orderly.distinct spec.settled).1
      exact orderly.distinct.sublist ((spec.keys.map Prod.fst).trans (names ▸ kept))
    refine ⟨⟨tuned, distinct⟩, ?_⟩
    rw [Limiter.bucket_eq, Limiter.bucket_eq]
    cases each key with
    | untracked before after => rw [before, after]; exact .nothing _
    | forgotten before debt after => rw [before, after]; exact .forget _ debt
    | retuned _ _ before _ _ after => rw [before, after]; exact .setQuota _ _

end LimiterCall

/- A bucket that is never forgotten, for one that may be: alike as long as the key is tracked, and
   out of debt while it is not. -/
inductive StandsFor (last : Nat) (g : Gcra) : Option Gcra → Prop
  | idle : g.hasDebt last = false → StandsFor last g none
  | alike {b : Gcra} : Gcra.Alike last b g → StandsFor last g (some b)

theorem Gcra.runAnswers_append (g : Gcra) (first rest : List BucketCall) :
    g.runAnswers (first ++ rest) =
      g.runAnswers first ++ (first.foldl Gcra.call g).runAnswers rest := by
  induction first generalizing g with
  | nil => rfl
  | cons call first ih =>
    cases call with
    | check now => simp [Gcra.runAnswers, Gcra.call, ih]
    | setQuota quota now => simp [Gcra.runAnswers, Gcra.call, ih]

theorem Gcra.Alike.debt {last now : Nat} {g h : Gcra} (alike : Gcra.Alike last g h)
    (later : last ≤ now) (idle : g.hasDebt now = false) : h.hasDebt now = false := by
  rcases alike.tat with same | ⟨_, idleH⟩
  · simpa [Gcra.hasDebt, same] using idle
  · exact Gcra.hasDebt_later idleH later

/- One step: the bucket that stands for the key's own gives the same answer, and still does. -/
theorem StandsFor.touches {last : Nat} {g : Gcra} {step : BucketStep}
    (stands : StandsFor last g step.before) (later : last ≤ step.time)
    (touches : Touches step.time step.before step.answer step.after) :
    g.runAnswers step.calls = step.answered.toList ∧
      StandsFor step.time (step.calls.foldl Gcra.call g) step.after := by
  obtain ⟨now, before, answer, after⟩ := step
  simp only [BucketStep.calls, BucketStep.answered] at *
  have checked {b h : Gcra} (alike : Gcra.Alike now b h) : (h.check now).1 = (b.check now).1 ∧
      StandsFor now (h.check now).2 (some (b.check now).2) := by
    obtain ⟨one, next⟩ := alike.reply (Nat.le_refl now) .check
    simp only [Gcra.reply, BucketReply.decided.injEq] at one next
    exact ⟨one.symm, .alike next⟩
  have fresh (cold : Quota) (idle : g.hasDebt now = false) :
      Gcra.Alike now (Gcra.new cold) (g.setQuota cold now) := by
    obtain ⟨on, stays⟩ := Gcra.setQuota_idle idle cold
    exact ⟨on.symm, .inr ⟨rfl, stays⟩⟩
  have kept {b : Gcra} (alike : Gcra.Alike last b g) : Gcra.Alike now b g ∧
      g.setQuota b.quota now = g := by
    refine ⟨⟨alike.quota, alike.tat.imp id fun idle => ?_⟩, ?_⟩
    · exact ⟨Gcra.hasDebt_later idle.1 later, Gcra.hasDebt_later idle.2 later⟩
    · rw [Gcra.setQuota, if_pos alike.quota]
  cases touches with
  | nothing =>
    cases stands with
    | idle debt => exact ⟨rfl, .idle (Gcra.hasDebt_later debt later)⟩
    | alike alike =>
      obtain ⟨now_alike, unchanged⟩ := kept alike
      refine ⟨rfl, ?_⟩
      simp only [Option.toList_some, Option.toList_none, List.map_cons, List.map_nil,
        List.append_nil, List.foldl_cons, List.foldl_nil, Gcra.call, unchanged]
      exact .alike now_alike
  | fresh cold =>
    cases stands with
    | idle debt => exact ⟨rfl, .alike (fresh cold (Gcra.hasDebt_later debt later))⟩
  | first cold =>
    cases stands with
    | idle debt =>
      obtain ⟨one, next⟩ := checked (fresh cold (Gcra.hasDebt_later debt later))
      have on : ((Gcra.new cold).check now).2.quota = cold := by rw [Gcra.check_idle rfl]; rfl
      simp only [Option.toList_some, List.map_cons, List.map_nil, List.cons_append,
        List.nil_append, List.foldl_cons, List.foldl_nil, Gcra.call, Gcra.runAnswers, on, one]
      exact ⟨rfl, next⟩
  | check b =>
    cases stands with
    | alike alike =>
      obtain ⟨now_alike, unchanged⟩ := kept alike
      obtain ⟨one, next⟩ := checked now_alike
      have on : (b.check now).2.quota = b.quota := by
        unfold Gcra.check
        dsimp only
        split <;> rfl
      simp only [Option.toList_some, List.map_cons, List.map_nil, List.cons_append,
        List.nil_append, List.foldl_cons, List.foldl_nil, Gcra.call, Gcra.runAnswers, on,
        unchanged, one]
      exact ⟨rfl, next⟩
  | setQuota b quota =>
    cases stands with
    | alike alike =>
      obtain ⟨_, next⟩ := alike.reply later (.setQuota quota)
      simp only [Gcra.reply] at next
      simp only [Option.toList_some, Option.toList_none, List.map_cons, List.map_nil,
        List.append_nil, List.foldl_cons, List.foldl_nil, Gcra.call, Gcra.runAnswers,
        Gcra.setQuota_quota]
      exact ⟨rfl, .alike next⟩
  | forget b debt =>
    cases stands with
    | alike alike => exact ⟨rfl, .idle (alike.debt later debt)⟩

theorem BucketRun.answers {last : Nat} {bucket : Option Gcra} {steps : List BucketStep} {g : Gcra}
    (run : BucketRun last bucket steps) (stands : StandsFor last g bucket) :
    steps.filterMap BucketStep.answered = g.runAnswers (steps.flatMap BucketStep.calls) := by
  induction run generalizing g with
  | done => rfl
  | @step last step rest later touches _ ih =>
    obtain ⟨told, next⟩ := stands.touches later touches
    rw [List.flatMap_cons, Gcra.runAnswers_append, told, ← ih next, List.filterMap_cons]
    cases step.answered <;> rfl

section Runs
variable {σ : Type} {decay : Nat → Nat → ℚ}

theorem limiterRun_cons {l : Limiter} {last : Nat} {call : LimiterCall σ}
    {calls : List (LimiterCall σ)} {steps : List (LimiterStep σ)}
    (h : limiterRun decay l last (call :: calls) = some steps) :
    ∃ served l' rest, call.serve decay l = some (served, l') ∧
      limiterRun decay l' (call.time last) calls = some rest ∧
      steps = ⟨l, call, served, l', call.time last⟩ :: rest := by
  simp only [limiterRun, bind, Option.bind_eq_some_iff, Option.some.injEq] at h
  obtain ⟨⟨served, l'⟩, stepped, rest, ran, rfl⟩ := h
  exact ⟨served, l', rest, stepped, ran, rfl⟩

theorem limiterRun_buckets {key : UInt64} {l : Limiter} {last : Nat}
    {calls : List (LimiterCall σ)} {steps : List (LimiterStep σ)} (orderly : l.Orderly)
    (ran : limiterRun decay l last calls = some steps)
    (ordered : (last :: steps.map fun step => step.time).Pairwise (· ≤ ·))
    (roomy : ∀ step ∈ steps, step.Roomy) :
    BucketRun last (l.bucket key) (steps.map fun step => step.bucketStep key) := by
  induction calls generalizing l last steps with
  | nil =>
    obtain rfl := Option.some.inj ran
    exact .done ..
  | cons call calls ih =>
    obtain ⟨served, l', rest, stepped, later, rfl⟩ := limiterRun_cons ran
    rw [List.map_cons] at ordered
    obtain ⟨late, ordered⟩ := List.pairwise_cons.mp ordered
    obtain ⟨orderly', touches⟩ := call.serve_orderly orderly stepped key last
      (roomy _ List.mem_cons_self)
    exact @BucketRun.step last (LimiterStep.bucketStep key ⟨l, call, served, l', call.time last⟩) _
      (late _ List.mem_cons_self) touches
      (ih orderly' later ordered fun step mem => roomy step (List.mem_cons_of_mem _ mem))

/-- In every run of a limiter whose ticks have room for the keys they find, a key gets the answers
    of one bucket of its own, never forgotten, put by each call on the quota the limiter then holds
    the key to: whatever the other keys do, and whenever it is itself forgotten and tracked again. -/
theorem limiter_keys_are_buckets (decay : Nat → Nat → ℚ) (config : Config) (l : Limiter)
    (key : UInt64) (calls : List (LimiterCall σ)) (steps : List (LimiterStep σ)) (quota : Quota)
    (new : Limiter.new config = some l) (ran : limiterRun decay l 0 calls = some steps)
    (ordered : (steps.map fun step => step.time).Pairwise (· ≤ ·))
    (roomy : ∀ step ∈ steps, step.Roomy) :
    (steps.map fun step => step.bucketStep key).filterMap BucketStep.answered =
      (Gcra.new quota).runAnswers
        ((steps.map fun step => step.bucketStep key).flatMap BucketStep.calls) := by
  have run := @limiterRun_buckets _ _ key _ _ _ _ (Limiter.new_orderly new) ran
    (List.pairwise_cons.mpr ⟨fun _ _ => Nat.zero_le _, ordered⟩) roomy
  refine run.answers ?_
  rw [Limiter.bucket_eq, Limiter.new_held new]
  exact .idle rfl

end Runs

/- A key is spent and denied, forgotten once it is silent and out of debt, and starts again. -/
def idleRun : List (LimiterCall Unit) :=
  let evenly (s : Unit) (_ : UInt64) (_ limit : ℚ) : ℚ × Unit := (limit / 2, s)
  [.check 7 ⟨100, 1⟩ none 5 2, .check 8 ⟨100, 1⟩ (some none) 5 2, .check 7 ⟨100, 1⟩ none 6 2,
    .tick 1000000000 2 (fun _ => false) evenly (), .tick 2000000000 2 (fun _ => false) evenly (),
    .tick 3000000000 2 (fun _ => false) evenly (), .check 7 ⟨100, 1⟩ none 3000000001 2]

def quickDecay (_ _ : Nat) : ℚ := 1 / 1000

theorem idleRun_forgets : (limiterRun quickDecay emptyLimiter 0 idleRun).any (fun steps =>
    decide ((steps.map fun step => step.time).Pairwise (· ≤ ·)) &&
      decide (∀ step ∈ steps, step.Roomy) && steps.any fun step =>
        (step.before.bucket 7).isSome && (step.after.bucket 7).isNone) = true := by
  decide +kernel

theorem limiter_keys_are_buckets_idle : ∃ steps quota,
    limiterRun quickDecay emptyLimiter 0 idleRun = some steps ∧
    (steps.any fun step => (step.before.bucket 7).isSome && (step.after.bucket 7).isNone) = true ∧
    (steps.map fun step => step.bucketStep 7).filterMap BucketStep.answered =
      (Gcra.new quota).runAnswers
        ((steps.map fun step => step.bucketStep 7).flatMap BucketStep.calls) := by
  obtain ⟨steps, ran, checked⟩ := (Option.any_eq_true _ _).mp idleRun_forgets
  simp only [Bool.and_eq_true, decide_eq_true_eq] at checked
  obtain ⟨⟨ordered, roomy⟩, forgets⟩ := checked
  have new : Limiter.new emptyLimiter.config = some emptyLimiter := by decide +kernel
  exact ⟨steps, onePerMilli, ran, forgets, limiter_keys_are_buckets quickDecay _ _ 7 idleRun steps
    onePerMilli new ran ordered roomy⟩

end Rateguard
