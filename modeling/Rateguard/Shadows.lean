import Rateguard.KeyBounds
import Rateguard.TwoRuns

/- Shadow limits beside the real ones: what is decided, tracked and applied is the same in two runs
   that differ in nothing but their shadows. -/
namespace Rateguard
open Std (ExtTreeMap)

theorem rel_bind {α β γ δ : Type} {R : α → β → Prop} {S : γ → δ → Prop} {x : Option α}
    {y : Option β} {f : α → Option γ} {g : β → Option δ} (same : Option.Rel R x y)
    (next : ∀ a b, x = some a → R a b → Option.Rel S (f a) (g b)) :
    Option.Rel S (x.bind f) (y.bind g) := by
  cases same with
  | none => exact .none
  | some related => exact next _ _ rfl related

theorem rel_eq {α : Type} (x : Option α) : Option.Rel Eq x x := by
  cases x with
  | none => exact .none
  | some _ => exact .some rfl

/- Two states of a key that differ at most in its shadow's denials. -/
def KeyState.SameReal (a b : KeyState) : Prop := ∃ d, b = { a with shadowDenials := d }

def SameEntry (x y : UInt64 × KeyState) : Prop := x.1 = y.1 ∧ x.2.SameReal y.2

/- Two limiters that differ at most in their shadows. -/
structure Limiter.SameReal (a b : Limiter) : Prop where
  config : a.config = b.config
  hotSet : a.hotSet = b.hotSet
  cap : a.cap = b.cap
  lastTick : a.lastTick = b.lastTick
  keys : List.Forall₂ SameEntry a.keys b.keys
  distinct : (a.keys.map Prod.fst).Nodup

theorem KeyState.SameReal.refl (a : KeyState) : a.SameReal a := ⟨a.shadowDenials, rfl⟩

theorem KeyState.SameReal.trans {a b c : KeyState} (one : a.SameReal b) (two : b.SameReal c) :
    a.SameReal c := by
  obtain ⟨_, rfl⟩ := one
  obtain ⟨d, rfl⟩ := two
  exact ⟨d, rfl⟩

theorem same_names {xs ys : List (UInt64 × KeyState)} (same : List.Forall₂ SameEntry xs ys) :
    xs.map Prod.fst = ys.map Prod.fst := by
  induction same with
  | nil => rfl
  | cons first _ ih => rw [List.map_cons, List.map_cons, first.1, ih]

theorem same_kept {p q : Prop} [Decidable p] [Decidable q] {x y : UInt64 × KeyState}
    {xs ys : List (UInt64 × KeyState)} (keeps : p ↔ q) (first : SameEntry x y)
    (rest : List.Forall₂ SameEntry xs ys) :
    List.Forall₂ SameEntry (if p then x :: xs else xs) (if q then y :: ys else ys) := by
  by_cases kept : p
  · rw [if_pos kept, if_pos (keeps.mp kept)]
    exact .cons first rest
  · rw [if_neg kept, if_neg (mt keeps.mpr kept)]
    exact rest

theorem KeyState.SameReal.symm {a b : KeyState} (same : a.SameReal b) : b.SameReal a := by
  obtain ⟨_, rfl⟩ := same
  exact ⟨a.shadowDenials, rfl⟩

theorem Limiter.SameReal.symm {a b : Limiter} (same : a.SameReal b) : b.SameReal a := by
  refine ⟨same.config.symm, same.hotSet.symm, same.cap.symm, same.lastTick.symm, ?_, ?_⟩
  · exact same.keys.flip.imp fun _ _ first => ⟨first.1.symm, first.2.symm⟩
  · exact same_names same.keys ▸ same.distinct

theorem Limiter.SameReal.trans {a b c : Limiter} (one : a.SameReal b) (two : b.SameReal c) :
    a.SameReal c := by
  refine ⟨one.config.trans two.config, one.hotSet.trans two.hotSet, one.cap.trans two.cap,
    one.lastTick.trans two.lastTick, ?_, one.distinct⟩
  have first := one.keys
  have second := two.keys
  generalize a.keys = xs at first
  generalize b.keys = ys at first second
  generalize c.keys = zs at second
  induction first generalizing zs with
  | nil => exact second
  | cons same _ ih =>
    cases second with
    | cons same' rest =>
      exact .cons ⟨same.1.trans same'.1, same.2.trans same'.2⟩ (ih _ rest)

section Passes
variable {decay : Nat → Nat → ℚ} {now : Nat} {n alpha : ℚ} {hotElsewhere : UInt64 → Bool}

theorem settle_same {xs ys : List (UInt64 × KeyState)} (same : List.Forall₂ SameEntry xs ys)
    (hotSet : HotSet) : Option.Rel (fun x y => List.Forall₂ SameEntry x.1 y.1 ∧ x.2 = y.2)
      (settle decay now n alpha hotElsewhere xs hotSet)
      (settle decay now n alpha hotElsewhere ys hotSet) := by
  induction same generalizing hotSet with
  | nil => exact .some ⟨.nil, rfl⟩
  | @cons x y _ _ first _ ih =>
    obtain ⟨key, state⟩ := x
    obtain ⟨_, _⟩ := y
    obtain ⟨rfl, d, rfl⟩ := first
    simp only [settle, bind, KeyState.tick, elsewhere]
    refine rel_bind (rel_eq _) fun visit _ _ same => ?_
    subst same
    exact rel_bind (ih visit.2) fun a b _ related =>
      .some ⟨same_kept Iff.rfl ⟨rfl, _, rfl⟩ related.1, related.2⟩

theorem applyQuotas_same {σ : Type} {share : σ → UInt64 → ℚ → ℚ → ℚ × σ} {config : Config}
    {cap : Option ℚ} {hotSet : HotSet} {xs ys : List (UInt64 × KeyState)}
    (same : List.Forall₂ SameEntry xs ys) (s : σ) :
    Option.Rel (fun x y => List.Forall₂ SameEntry x.1 y.1 ∧ x.2 = y.2)
      (applyQuotas share config cap n hotElsewhere hotSet now xs s)
      (applyQuotas share config cap n hotElsewhere hotSet now ys s) := by
  induction same generalizing s with
  | nil => exact .some ⟨.nil, rfl⟩
  | @cons x y _ _ first _ ih =>
    obtain ⟨key, state⟩ := x
    obtain ⟨_, _⟩ := y
    obtain ⟨rfl, d, rfl⟩ := first
    simp only [applyQuotas, bind, appliedRate, elsewhere]
    generalize (if hotSet.isHot key = true then share s key state.demand.rate state.limit.rate
      else (0, s)) = result
    obtain ⟨asked, next⟩ := result
    refine rel_bind (rel_eq _) fun wanted _ _ same => ?_
    subst same
    refine rel_bind (ih next) fun a b _ related => .some ⟨.cons ⟨rfl, ?_⟩ related.1, related.2⟩
    dsimp only [KeyState.apply]
    split
    · exact ⟨d, rfl⟩
    · exact ⟨d, rfl⟩

end Passes

namespace Limiter
variable {a b : Limiter}

theorem find_same (same : a.SameReal b) (key : UInt64) :
    Option.Rel KeyState.SameReal (a.find key) (b.find key) := by
  unfold find
  have keys := same.keys
  generalize a.keys = xs at keys
  generalize b.keys = ys at keys
  induction keys with
  | nil => exact .none
  | @cons x y _ _ first _ ih =>
    obtain ⟨own, state⟩ := x
    obtain ⟨_, held⟩ := y
    obtain ⟨rfl, related⟩ := first
    by_cases asked : key = own
    · subst asked
      simpa using related
    · have apart : (key == own) = false := by simpa using asked
      simpa [List.lookup_cons, apart] using ih

theorem put_same (same : a.SameReal b) (key : UInt64) {state held : KeyState}
    (related : state.SameReal held) : (a.put key state).SameReal (b.put key held) := by
  refine ⟨same.config, same.hotSet, same.cap, same.lastTick, ?_, ?_⟩
  · refine List.rel_map (fun x y first => ?_) same.keys
    rw [← first.1]
    split
    · exact ⟨rfl, related⟩
    · exact first
  · rw [put_names]
    exact same.distinct

theorem Grows.distinct {l l' : Limiter} (grows : Grows l l')
    (distinct : (l.keys.map Prod.fst).Nodup) : (l'.keys.map Prod.fst).Nodup := by
  rcases grows.names with same | ⟨key, absent, more⟩
  · exact same.nodup_iff.mpr distinct
  · exact more.nodup_iff.mpr (List.nodup_cons.mpr ⟨absent, distinct⟩)

theorem entry_same (same : a.SameReal b) (key : UInt64) (limit : Limit) (now clusterSize : Nat) :
    Option.Rel (fun x y => x.1.SameReal y.1 ∧ x.2.SameReal y.2)
      (a.entry key limit now clusterSize) (b.entry key limit now clusterSize) := by
  have cold : a.coldQuota limit clusterSize = b.coldQuota limit clusterSize := by
    simp only [coldQuota, newKeyFactor, same.config, same.cap]
  have distinct {state : KeyState} {l' : Limiter}
      (h : a.entry key limit now clusterSize = some (state, l')) : (l'.keys.map Prod.fst).Nodup :=
    (entry_serves h).1.distinct same.distinct
  unfold entry at distinct ⊢
  by_cases valid : limit.Valid
  · simp only [if_pos valid, bind, ← cold] at distinct ⊢
    cases quota : a.coldQuota limit clusterSize with
    | none => exact .none
    | some cold =>
      have found := find_same same key
      rw [quota] at distinct
      simp only [Option.bind_some] at distinct ⊢
      generalize a.find key = x at found distinct
      generalize b.find key = y at found
      cases found with
      | some related =>
        obtain ⟨d, rfl⟩ := related
        exact .some ⟨⟨d, rfl⟩, put_same same key ⟨d, rfl⟩⟩
      | none =>
        have fresh := distinct rfl
        simp only [same.config, same.lastTick] at fresh ⊢
        exact .some ⟨.refl _, rfl, same.hotSet, same.cap, rfl,
          List.rel_append same.keys (.cons ⟨rfl, .refl _⟩ .nil), fresh⟩
  · simp only [if_neg valid]
    exact .none

theorem checkIn_same (same : a.SameReal b) (key : UInt64) (limit : Limit)
    (now clusterSize : Nat) : Option.Rel (fun x y => x.1 = y.1 ∧ x.2.SameReal y.2)
      (a.checkIn key limit now clusterSize) (b.checkIn key limit now clusterSize) := by
  refine rel_bind (entry_same same key limit now clusterSize) fun x y _ related => ?_
  obtain ⟨state, u⟩ := x
  obtain ⟨_, v⟩ := y
  obtain ⟨⟨d, rfl⟩, sameU⟩ := related
  refine rel_bind (rel_eq _) fun demand _ _ same => ?_
  subst same
  refine rel_bind (rel_eq _) fun requests _ _ same => ?_
  subst same
  dsimp only
  generalize state.gcra.check now = checked
  obtain ⟨decision, gcra⟩ := checked
  have related (denials : Demand) : Option.Rel (fun x y => x.1 = y.1 ∧ x.2.SameReal y.2)
      (some (decision, u.put key { state with demand, requests, denials, gcra }))
      (some (decision, v.put key
        { state with demand, requests, denials, gcra, shadowDenials := d })) :=
    .some ⟨rfl, put_same sameU key ⟨d, rfl⟩⟩
  dsimp only
  split
  · exact related state.denials
  · refine rel_bind (rel_eq state.denials.recordAttempt) fun denials _ _ same => ?_
    subst same
    exact related denials

/- Nothing is written but what a key's shadow was denied. -/
theorem SameReal.shadowed {l u : Limiter} (same : l.SameReal u) {key : UInt64} {state : KeyState}
    (found : u.find key = some state) (distinct : (u.keys.map Prod.fst).Nodup) (d : Demand)
    (shadows : ExtTreeMap UInt64 Gcra) : l.SameReal
      { u.put key { state with shadowDenials := d } with shadows := shadows } := by
  refine ⟨same.config, same.hotSet, same.cap, same.lastTick, ?_, same.distinct⟩
  have keys := same.keys
  have mem (entry : UInt64 × KeyState) (listed : entry ∈ u.keys) (own : entry.1 = key) :
      entry.2 = state := by
    have first := (Reordered.lookup_eq_some_iff distinct).mpr (show (key, entry.2) ∈ u.keys from
      own ▸ listed)
    rw [find, first] at found
    exact Option.some.inj found
  dsimp only [Limiter.put]
  generalize l.keys = xs at keys
  generalize u.keys = ys at keys mem
  induction keys with
  | nil => exact .nil
  | @cons x y _ _ first _ ih =>
    refine .cons ?_ (ih fun entry listed => mem entry (List.mem_cons_of_mem _ listed))
    dsimp only
    by_cases own : y.1 = key
    · rw [if_pos own]
      have same := mem y List.mem_cons_self own
      refine ⟨first.1.trans own, first.2.trans ?_⟩
      rw [same]
      exact ⟨d, rfl⟩
    · rw [if_neg own]
      exact first

theorem SameReal.refl {l : Limiter} (distinct : (l.keys.map Prod.fst).Nodup) : l.SameReal l :=
  ⟨rfl, rfl, rfl, rfl, List.forall₂_same.mpr fun entry _ => ⟨rfl, .refl entry.2⟩, distinct⟩

/- A check with a shadow decides what a check without one does, and leaves the rest as it does. -/
theorem checkInTraced_real {l l' : Limiter} {key : UInt64} {limit : Limit} {shadow : Option Limit}
    {now clusterSize : Nat} {decision : Decision} {traced : Option Decision}
    (distinct : (l.keys.map Prod.fst).Nodup)
    (h : l.checkInTraced key limit shadow now clusterSize = some ((decision, traced), l')) :
    ∃ u, l.checkIn key limit now clusterSize = some (decision, u) ∧ u.SameReal l' := by
  simp only [checkInTraced, bind, Option.bind_eq_some_iff] at h
  obtain ⟨⟨decided, u⟩, checked, h⟩ := h
  have distinctU := (checkIn_serves checked).distinct distinct
  cases shadow with
  | none =>
    simp only [Option.some.injEq, Prod.mk.injEq] at h
    obtain ⟨⟨rfl, rfl⟩, rfl⟩ := h
    have same := SameReal.refl distinctU
    exact ⟨u, checked, same.config, same.hotSet, same.cap, same.lastTick, same.keys, distinctU⟩
  | some shadow =>
    simp only [Option.ite_none_right_eq_some, Option.bind_eq_some_iff] at h
    obtain ⟨_, state, found, wanted, _, h⟩ := h
    have written (d : Demand) (shadows : ExtTreeMap UInt64 Gcra) :=
      (SameReal.refl distinctU).shadowed found distinctU d shadows
    generalize (if (u.shadows[key]?.getD (.new wanted)).quota = wanted
      then u.shadows[key]?.getD (.new wanted)
      else (u.shadows[key]?.getD (.new wanted)).setQuota wanted now).check now = traced at h
    split at h
    · simp only [Option.bind_some, Option.some.injEq, Prod.mk.injEq] at h
      obtain ⟨⟨rfl, _⟩, rfl⟩ := h
      exact ⟨u, checked, written state.shadowDenials _⟩
    · simp only [Option.bind_eq_some_iff, Option.some.injEq, Prod.mk.injEq] at h
      obtain ⟨d, _, ⟨rfl, _⟩, rfl⟩ := h
      exact ⟨u, checked, written d _⟩

theorem record_same {a' b' : Limiter} (same : a.SameReal b) {key : UInt64} {tally tally' : Tally}
    {limit : Limit} {now clusterSize : Nat} (attempts : tally.attempts = tally'.attempts)
    (denials : tally.denials = tally'.denials)
    (h : a.record key tally limit now clusterSize = some a')
    (h' : b.record key tally' limit now clusterSize = some b') : a'.SameReal b' := by
  simp only [record, bind, Option.bind_eq_some_iff, Option.some.injEq] at h h'
  obtain ⟨⟨state, u⟩, entered, demand, one, requests, two, denied, three, shadows, _, rfl⟩ := h
  obtain ⟨⟨_, v⟩, entered', demand', one', requests', two', denied', three', shadows', _, rfl⟩ := h'
  have related := entry_same same key limit now clusterSize
  rw [entered, entered', Option.rel_some_some] at related
  obtain ⟨⟨d, rfl⟩, sameU⟩ := related
  rw [attempts, one', Option.some.injEq] at one
  rw [attempts, two', Option.some.injEq] at two
  rw [denials, three', Option.some.injEq] at three
  subst one two three
  exact put_same sameU key ⟨shadows', rfl⟩

theorem enforceCap_same (decay : Nat → Nat → ℚ) (same : a.SameReal b) :
    (a.enforceCap decay).SameReal (b.enforceCap decay) := by
  have left (l : Limiter) : (l.enforceCap decay).config = l.config ∧
      (l.enforceCap decay).cap = l.cap ∧ (l.enforceCap decay).lastTick = l.lastTick := by
    unfold enforceCap
    split
    · exact ⟨rfl, rfl, rfl⟩
    · exact ⟨rfl, rfl, rfl⟩
  have cold := List.rel_filter (R := SameEntry) (p := fun entry => !a.hotSet.isHot entry.1)
    (q := fun entry => !b.hotSet.isHot entry.1) (fun x y first => by simp only [same.hotSet, first.1])
    same.keys
  have victims : a.victims decay = b.victims decay := by
    unfold victims
    congr 1
    refine List.forall₂_eq_eq_eq ▸ List.rel_map (fun x y first => ?_) cold
    obtain ⟨name, d, states⟩ := first
    rw [name, states]
  have excess : a.excess decay = b.excess decay := by
    unfold excess
    rw [victims, same.keys.length_eq, same.config]
  refine ⟨?_, ?_, ?_, ?_, ?_, ?_⟩
  · rw [(left a).1, (left b).1, same.config]
  · rw [(enforceCap_hotSet decay a).1, (enforceCap_hotSet decay b).1, same.hotSet]
  · rw [(left a).2.1, (left b).2.1, same.cap]
  · rw [(left a).2.2, (left b).2.2, same.lastTick]
  · rw [enforceCap_keys, enforceCap_keys, excess]
    exact List.rel_filter (fun x y first => by simp only [first.1]) same.keys
  · exact same.distinct.sublist ((enforceCap_hotSet decay a).2.map Prod.fst)

theorem tickWithShares_same {σ : Type} (share : σ → UInt64 → ℚ → ℚ → ℚ × σ)
    (decay : Nat → Nat → ℚ) (same : a.SameReal b) (now clusterSize : Nat)
    (hotElsewhere : UInt64 → Bool) (s : σ) :
    Option.Rel (fun x y => x.1.SameReal y.1 ∧ x.2 = y.2)
      (a.tickWithShares share decay now clusterSize hotElsewhere s)
      (b.tickWithShares share decay now clusterSize hotElsewhere s) := by
  unfold tickWithShares
  by_cases nonempty : 0 < clusterSize
  · simp only [if_pos nonempty, bind, same.config, same.cap, same.hotSet]
    refine rel_bind (settle_same same.keys b.hotSet) fun x y settled related => ?_
    obtain ⟨kept, hotSet⟩ := x
    obtain ⟨kept', _⟩ := y
    obtain ⟨sameKept, rfl⟩ := related
    refine rel_bind (applyQuotas_same sameKept s) fun x y quotas related => ?_
    obtain ⟨quoted, last⟩ := x
    obtain ⟨quoted', _⟩ := y
    obtain ⟨sameQuoted, rfl⟩ := related
    have distinct : (quoted.map Prod.fst).Nodup := by
      rw [applyQuotas_names quotas]
      exact same.distinct.sublist (settle_spec same.distinct settled).1
    have before : SameReal
        { b with keys := quoted, hotSet := hotSet, lastTick := some now, shadows := a.shadows }
        { b with keys := quoted', hotSet := hotSet, lastTick := some now } :=
      ⟨rfl, rfl, rfl, rfl, sameQuoted, distinct⟩
    have after := enforceCap_same decay before
    exact .some ⟨⟨after.config, after.hotSet, after.cap, after.lastTick, after.keys,
      after.distinct⟩, rfl⟩
  · simp only [if_neg nonempty]
    exact .none

def relisted (l : Limiter) (order : List UInt64) : Option Limiter :=
  if order.Perm (l.keys.map Prod.fst) then
    some { l with keys := order.filterMap fun key => (l.find key).map fun state => (key, state) }
  else none

theorem relisted_names (find : UInt64 → Option KeyState) (order : List UInt64) :
    ((order.filterMap fun key => (find key).map fun state => (key, state)).map Prod.fst).Sublist
      order := by
  induction order with
  | nil => exact .refl _
  | cons key rest ih =>
    rw [List.filterMap_cons]
    cases find key with
    | none => exact ih.cons key
    | some state => exact ih.cons_cons key

theorem relisted_same (same : a.SameReal b) (order : List UInt64) :
    Option.Rel SameReal (a.relisted order) (b.relisted order) := by
  unfold relisted
  rw [← same_names same.keys]
  split
  · rename_i perm
    refine .some ⟨same.config, same.hotSet, same.cap, same.lastTick, ?_, ?_⟩
    · refine List.rel_filterMap (R := Eq) (fun key _ equal => ?_) (List.forall₂_refl order)
      subst equal
      have found := find_same same key
      generalize a.find key = x at found
      generalize b.find key = y at found
      cases found with
      | none => exact .none
      | some related => exact .some ⟨rfl, related⟩
    · exact (perm.nodup_iff.mpr same.distinct).sublist (relisted_names a.find order)
  · exact .none

end Limiter

inductive LimiterCall (σ : Type)
  | check (key : UInt64) (limit : Limit) (traced : Option (Option Limit)) (now clusterSize : Nat)
  | record (key : UInt64) (tally : Tally) (limit : Limit) (now clusterSize : Nat)
  | setCap (cap : Option ℚ)
  | relist (order : List UInt64)
  | tick (now clusterSize : Nat) (hotElsewhere : UInt64 → Bool)
      (share : σ → UInt64 → ℚ → ℚ → ℚ × σ) (s : σ)

/- The decision on a request, and what the shares of a tick leave of what they are computed from. -/
inductive Served (σ : Type)
  | decided (decision : Decision)
  | done
  | shared (s : σ)

namespace LimiterCall
variable {σ : Type}

def serve (decay : Nat → Nat → ℚ) (l : Limiter) : LimiterCall σ → Option (Served σ × Limiter)
  | check key limit none now clusterSize =>
    (l.checkIn key limit now clusterSize).map fun (decision, l) => (.decided decision, l)
  | check key limit (some shadow) now clusterSize =>
    (l.checkInTraced key limit shadow now clusterSize).map fun (decisions, l) =>
      (.decided decisions.1, l)
  | record key tally limit now clusterSize =>
    (l.record key tally limit now clusterSize).map fun l => (.done, l)
  | setCap cap => some (.done, l.setCap cap)
  | relist order => (l.relisted order).map fun l => (.done, l)
  | tick now clusterSize hotElsewhere share s =>
    (l.tickWithShares share decay now clusterSize hotElsewhere s).map fun (l, s) => (.shared s, l)

/- The same call but for its shadow side. -/
inductive Like : LimiterCall σ → LimiterCall σ → Prop
  | check (key : UInt64) (limit : Limit) (traced traced' : Option (Option Limit))
      (now clusterSize : Nat) :
      Like (check key limit traced now clusterSize) (check key limit traced' now clusterSize)
  | record (key : UInt64) (attempts denials shadowDenials shadowDenials' : Nat) (limit : Limit)
      (now clusterSize : Nat) :
      Like (record key ⟨attempts, denials, shadowDenials⟩ limit now clusterSize)
        (record key ⟨attempts, denials, shadowDenials'⟩ limit now clusterSize)
  | setCap (cap : Option ℚ) : Like (setCap cap) (setCap cap)
  | relist (order : List UInt64) : Like (relist order) (relist order)
  | tick (now clusterSize : Nat) (hotElsewhere : UInt64 → Bool)
      (share : σ → UInt64 → ℚ → ℚ → ℚ × σ) (s : σ) :
      Like (tick now clusterSize hotElsewhere share s) (tick now clusterSize hotElsewhere share s)

/- Traced or not, a check is one check of the real limit. -/
theorem serve_check {decay : Nat → Nat → ℚ} {l l' : Limiter} {key : UInt64} {limit : Limit}
    {traced : Option (Option Limit)} {now clusterSize : Nat} {served : Served σ}
    (distinct : (l.keys.map Prod.fst).Nodup)
    (h : serve decay l (check key limit traced now clusterSize) = some (served, l')) :
    ∃ decision u, l.checkIn key limit now clusterSize = some (decision, u) ∧
      served = .decided decision ∧ u.SameReal l' := by
  cases traced with
  | none =>
    simp only [serve, Option.map_eq_some_iff, Prod.mk.injEq] at h
    obtain ⟨⟨decision, u⟩, checked, rfl, rfl⟩ := h
    exact ⟨decision, u, checked, rfl, .refl ((Limiter.checkIn_serves checked).distinct distinct)⟩
  | some shadow =>
    simp only [serve, Option.map_eq_some_iff, Prod.mk.injEq] at h
    obtain ⟨⟨⟨decision, _⟩, u⟩, checked, rfl, rfl⟩ := h
    obtain ⟨v, real, same⟩ := Limiter.checkInTraced_real distinct checked
    exact ⟨decision, v, real, rfl, same⟩

theorem rel_map_eq {α β γ : Type} {R : α → β → Prop} {x : Option α} {y : Option β} {f : α → γ}
    {g : β → γ} {c d : γ} (same : Option.Rel R x y) (h : x.map f = some c) (h' : y.map g = some d) :
    ∃ a b, R a b ∧ f a = c ∧ g b = d := by
  cases same with
  | none => simp at h
  | some related => exact ⟨_, _, related, Option.some.inj h, Option.some.inj h'⟩

theorem serve_hides (decay : Nat → Nat → ℚ) :
    TwoRuns.Hides (serve decay) (Like (σ := σ)) Limiter.SameReal := by
  intro a b c d same like o a' p b' h h'
  cases like with
  | check key limit traced traced' now clusterSize =>
    have distinct' : (b.keys.map Prod.fst).Nodup := same_names same.keys ▸ same.distinct
    obtain ⟨decision, u, checked, rfl, sameU⟩ := serve_check same.distinct h
    obtain ⟨decision', v, checked', rfl, sameV⟩ := serve_check distinct' h'
    have related := Limiter.checkIn_same same key limit now clusterSize
    rw [checked, checked', Option.rel_some_some] at related
    exact ⟨congrArg Served.decided related.1, sameU.symm.trans (related.2.trans sameV)⟩
  | record key attempts denials _ _ limit now clusterSize =>
    simp only [serve, Option.map_eq_some_iff, Prod.mk.injEq] at h h'
    obtain ⟨_, recorded, rfl, rfl⟩ := h
    obtain ⟨_, recorded', rfl, rfl⟩ := h'
    refine ⟨rfl, Limiter.record_same same ?_ ?_ recorded recorded'⟩
    · rfl
    · rfl
  | setCap cap =>
    simp only [serve, Option.some.injEq, Prod.mk.injEq] at h h'
    obtain ⟨rfl, rfl⟩ := h
    obtain ⟨rfl, rfl⟩ := h'
    exact ⟨rfl, same.config, same.hotSet, rfl, same.lastTick, same.keys, same.distinct⟩
  | relist order =>
    obtain ⟨u, v, related, one, two⟩ := rel_map_eq (Limiter.relisted_same same order) h h'
    obtain ⟨rfl, rfl⟩ := Prod.mk.inj one
    obtain ⟨rfl, rfl⟩ := Prod.mk.inj two
    exact ⟨rfl, related⟩
  | tick now clusterSize hotElsewhere share s =>
    obtain ⟨u, v, related, one, two⟩ := rel_map_eq
      (Limiter.tickWithShares_same share decay same now clusterSize hotElsewhere s) h h'
    obtain ⟨rfl, rfl⟩ := Prod.mk.inj one
    obtain ⟨rfl, rfl⟩ := Prod.mk.inj two
    exact ⟨congrArg Served.shared related.2, related.1⟩

end LimiterCall

/- The attempts that a shadow denied are attempts, counted over the same time. -/
structure KeyState.Measured (state : KeyState) : Prop where
  within : state.shadowDenials.attemptsSinceTick ≤ state.requests.attemptsSinceTick
  fits : state.requests.attemptsSinceTick ≤ u64Max
  together : state.shadowDenials.lastTick = state.requests.lastTick

def Limiter.Measured (l : Limiter) : Prop := ∀ entry ∈ l.keys, entry.2.Measured

/- Counts since one moment are folded in at once, or not at all. -/
theorem Demand.tick_together {d e : Demand} (together : d.lastTick = e.lastTick)
    (decay : Nat → Nat → ℚ) (now : Nat) :
    (d.tick decay now).lastTick = (e.tick decay now).lastTick ∧
      ((d.tick decay now).attemptsSinceTick = 0 ∨
        (d.tick decay now).attemptsSinceTick = d.attemptsSinceTick ∧
        (e.tick decay now).attemptsSinceTick = e.attemptsSinceTick) ∧
      (e.tick decay now).attemptsSinceTick ≤ e.attemptsSinceTick := by
  unfold tick
  rw [together]
  cases later : e.lastTick with
  | none => exact ⟨rfl, .inr ⟨rfl, rfl⟩, Nat.le_refl _⟩
  | some last =>
    dsimp only
    by_cases passed : now - last = 0
    · rw [if_pos passed, if_pos passed]
      exact ⟨together, .inr ⟨rfl, rfl⟩, Nat.le_refl _⟩
    · rw [if_neg passed, if_neg passed]
      exact ⟨rfl, .inl rfl, Nat.zero_le _⟩

theorem KeyState.Measured.tick {state : KeyState} (measured : state.Measured)
    (decay : Nat → Nat → ℚ) (now : Nat) : (state.tick decay now).Measured := by
  obtain ⟨together, counts, fewer⟩ := Demand.tick_together measured.together decay now
  have within := measured.within
  have fits := measured.fits
  refine ⟨?_, fewer.trans fits, together⟩
  dsimp only [KeyState.tick]
  omega

theorem Demand.recordAttempts_iff {d d' : Demand} {n : Nat} : d.recordAttempts n = some d' ↔
    d.attemptsSinceTick + n ≤ u64Max ∧
      d' = { d with attemptsSinceTick := d.attemptsSinceTick + n } := by
  simp only [recordAttempts, Option.map_eq_some_iff, addU64_eq_some]
  constructor
  · rintro ⟨_, ⟨fits, rfl⟩, rfl⟩
    exact ⟨fits, rfl⟩
  · rintro ⟨fits, rfl⟩
    exact ⟨_, ⟨fits, rfl⟩, rfl⟩

namespace Limiter

theorem Measured.put {l : Limiter} (measured : l.Measured) {key : UInt64} {state : KeyState}
    (own : state.Measured) : (l.put key state).Measured := by
  intro entry mem
  obtain ⟨old, listed, rfl⟩ := List.mem_map.mp mem
  split
  · exact own
  · exact measured old listed

theorem Measured.entry {l l' : Limiter} (measured : l.Measured) {key : UInt64} {limit : Limit}
    {state : KeyState} {now clusterSize : Nat}
    (h : l.entry key limit now clusterSize = some (state, l')) : state.Measured ∧ l'.Measured := by
  simp only [Limiter.entry, bind, Option.ite_none_right_eq_some, Option.bind_eq_some_iff] at h
  obtain ⟨_, cold, _, h⟩ := h
  split at h
  · rename_i held found
    simp only [Option.some.injEq, Prod.mk.injEq] at h
    obtain ⟨rfl, rfl⟩ := h
    have own := measured _ (find_mem found)
    have own' : ({ held with limit := limit } : KeyState).Measured :=
      ⟨own.within, own.fits, own.together⟩
    exact ⟨own', measured.put own'⟩
  · simp only [Option.some.injEq, Prod.mk.injEq] at h
    obtain ⟨rfl, rfl⟩ := h
    refine ⟨⟨Nat.le_refl _, Nat.zero_le _, rfl⟩, fun entry mem => ?_⟩
    rcases List.mem_append.mp mem with old | new
    · exact measured entry old
    · rw [List.mem_singleton.mp new]
      exact ⟨Nat.le_refl _, Nat.zero_le _, rfl⟩

/- A request is counted before what its shadow makes of it. -/
theorem Measured.checkIn {l l' : Limiter} (measured : l.Measured) {key : UInt64} {limit : Limit}
    {decision : Decision} {now clusterSize : Nat}
    (h : l.checkIn key limit now clusterSize = some (decision, l')) : l'.Measured ∧
      ∃ state, l'.find key = some state ∧
        state.shadowDenials.attemptsSinceTick + 1 ≤ state.requests.attemptsSinceTick := by
  simp only [Limiter.checkIn, bind, Option.bind_eq_some_iff] at h
  obtain ⟨⟨state, u⟩, entered, demand, _, requests, counted, h⟩ := h
  obtain ⟨own, measuredU⟩ := measured.entry entered
  obtain ⟨_, found⟩ := entry_serves entered
  obtain ⟨fits, rfl⟩ := Demand.recordAttempts_iff.mp counted
  have written (denials : Demand) (gcra : Gcra) (state' : KeyState)
      (same : state' = { state with demand, denials, gcra, requests :=
        { state.requests with attemptsSinceTick := state.requests.attemptsSinceTick + 1 } }) :
      (u.put key state').Measured ∧ ∃ held, (u.put key state').find key = some held ∧
        held.shadowDenials.attemptsSinceTick + 1 ≤ held.requests.attemptsSinceTick := by
    subst same
    refine ⟨measuredU.put ⟨Nat.le_succ_of_le own.within, fits, own.together⟩, _,
      (put_find _ _ _ _).trans (by rw [if_pos rfl, found, Option.map_some]), ?_⟩
    exact Nat.succ_le_succ own.within
  dsimp only at h
  split at h
  · simp only [Option.bind_some, Option.some.injEq, Prod.mk.injEq] at h
    obtain ⟨_, rfl⟩ := h
    exact written _ _ _ rfl
  · simp only [Option.bind_eq_some_iff, Option.some.injEq, Prod.mk.injEq] at h
    obtain ⟨denials, _, _, rfl⟩ := h
    exact written _ _ _ rfl

/- A shadow within its bounds never makes a check fail. -/
theorem Measured.checkInTraced {l u : Limiter} (measured : l.Measured) {key : UInt64}
    {limit : Limit} {shadow : Option Limit} {decision : Decision} {now clusterSize : Nat}
    (checked : l.checkIn key limit now clusterSize = some (decision, u))
    (valid : ∀ limit, shadow = some limit → limit.Valid) : ∃ decisions l',
      l.checkInTraced key limit shadow now clusterSize = some (decisions, l') ∧ l'.Measured := by
  obtain ⟨measuredU, state, found, counted⟩ := measured.checkIn checked
  simp only [Limiter.checkInTraced, checked, bind, Option.bind_some]
  cases shadow with
  | none => exact ⟨_, _, rfl, measuredU⟩
  | some shadow =>
    have valid := valid shadow rfl
    have own := measuredU _ (find_mem found)
    have fits := own.fits
    dsimp only at fits
    obtain ⟨wanted, quota⟩ := quotaFor_total
      (oneSec / state.applied.interval * shadow.rate / limit.rate) valid
    simp only [if_pos valid, found, quota, Option.bind_some]
    generalize (if (u.shadows[key]?.getD (.new wanted)).quota = wanted
      then u.shadows[key]?.getD (.new wanted)
      else (u.shadows[key]?.getD (.new wanted)).setQuota wanted now).check now = traced
    by_cases allowed : traced.1 = .allow
    · simp only [if_pos allowed]
      exact ⟨_, _, rfl, measuredU.put ⟨own.within, own.fits, own.together⟩⟩
    · have recorded : state.shadowDenials.recordAttempt = some { state.shadowDenials with
          attemptsSinceTick := state.shadowDenials.attemptsSinceTick + 1 } :=
        Demand.recordAttempts_iff.mpr ⟨by omega, rfl⟩
      simp only [if_neg allowed, recorded, Option.bind_some]
      exact ⟨_, _, rfl, measuredU.put ⟨counted, own.fits, own.together⟩⟩

theorem Measured.record {l u : Limiter} (measured : l.Measured) {key : UInt64} {tally : Tally}
    {limit : Limit} {state : KeyState} {now clusterSize : Nat}
    (entered : l.entry key limit now clusterSize = some (state, u))
    (counts : (state.demand.recordAttempts tally.attempts).isSome ∧
      (state.requests.recordAttempts tally.attempts).isSome ∧
      (state.denials.recordAttempts tally.denials).isSome)
    (within : tally.shadowDenials ≤ tally.attempts) :
    ∃ l', l.record key tally limit now clusterSize = some l' ∧ l'.Measured := by
  obtain ⟨own, measuredU⟩ := measured.entry entered
  simp only [Option.isSome_iff_exists] at counts
  obtain ⟨⟨demand, one⟩, ⟨requests, two⟩, denials, three⟩ := counts
  obtain ⟨fits, rfl⟩ := Demand.recordAttempts_iff.mp two
  have before := own.within
  have shadowed : state.shadowDenials.recordAttempts tally.shadowDenials =
      some { state.shadowDenials with
        attemptsSinceTick := state.shadowDenials.attemptsSinceTick + tally.shadowDenials } :=
    Demand.recordAttempts_iff.mpr ⟨by omega, rfl⟩
  simp only [Limiter.record, bind, entered, one, two, three, shadowed, Option.bind_some]
  exact ⟨_, rfl, measuredU.put ⟨Nat.add_le_add before within, fits, own.together⟩⟩

theorem Measured.tick {l l' : Limiter} (measured : l.Measured) {σ : Type}
    {share : σ → UInt64 → ℚ → ℚ → ℚ × σ} {decay : Nat → Nat → ℚ} {now clusterSize : Nat}
    {hotElsewhere : UInt64 → Bool} {s s' : σ}
    (h : l.tickWithShares share decay now clusterSize hotElsewhere s = some (l', s')) :
    l'.Measured := by
  obtain ⟨kept, quoted, ticked⟩ := tickWithShares_spec h
  intro entry mem
  have counts := applyQuotas_keeps
    (f := fun state => (state.requests, state.shadowDenials))
    (fun state wanted => by unfold KeyState.apply; split <;> rfl) ticked.quotas
  have listed : (entry.1, entry.2.requests, entry.2.shadowDenials) ∈
      kept.map fun entry => (entry.1, entry.2.requests, entry.2.shadowDenials) :=
    counts ▸ List.mem_map.mpr ⟨_, ticked.keys.subset mem, rfl⟩
  obtain ⟨before, mem, same⟩ := List.mem_map.mp listed
  simp only [Prod.mk.injEq] at same
  obtain ⟨_, requests, shadows⟩ := same
  obtain ⟨state, held, ticks⟩ := settle_mem ticked.settled mem
  have own := (measured _ held).tick decay now
  rw [← ticks] at own
  exact ⟨by rw [← requests, ← shadows]; exact own.within, requests ▸ own.fits,
    by rw [← requests, ← shadows]; exact own.together⟩

end Limiter

namespace LimiterCall
variable {σ : Type}

/- A shadow that is a limit, and a tally of attempts some of which the shadow denied. -/
def Sane : LimiterCall σ → Prop
  | check _ _ (some (some shadow)) _ _ => shadow.Valid
  | record _ tally _ _ _ => tally.shadowDenials ≤ tally.attempts
  | _ => True

/- A sane call is served wherever one that differs in its shadow side is. -/
theorem serve_follows {decay : Nat → Nat → ℚ} {a b a' : Limiter} {c d : LimiterCall σ}
    {served : Served σ} (same : a.SameReal b) (measured : b.Measured) (like : Like c d)
    (sane : d.Sane) (h : serve decay a c = some (served, a')) :
    ∃ served' b', serve decay b d = some (served', b') ∧ b'.Measured := by
  cases like with
  | check key limit traced traced' now clusterSize =>
    obtain ⟨decision, u, checked, _, _⟩ := serve_check same.distinct h
    have related := Limiter.checkIn_same same key limit now clusterSize
    rw [checked] at related
    cases checked' : b.checkIn key limit now clusterSize with
    | none => simp [checked'] at related
    | some result =>
      obtain ⟨decision', v⟩ := result
      cases traced' with
      | none =>
        exact ⟨_, _, by rw [serve, checked', Option.map_some], (measured.checkIn checked').1⟩
      | some shadow =>
        have valid : ∀ limit, shadow = some limit → limit.Valid := by
          rintro limit rfl
          exact sane
        obtain ⟨decisions, b', traced, measured'⟩ := measured.checkInTraced checked' valid
        exact ⟨_, _, by rw [serve, traced, Option.map_some], measured'⟩
  | record key attempts denials _ _ limit now clusterSize =>
    simp only [serve, Option.map_eq_some_iff] at h
    obtain ⟨_, recorded, _⟩ := h
    simp only [Limiter.record, bind, Option.bind_eq_some_iff] at recorded
    obtain ⟨⟨state, u⟩, entered, demand, one, requests, two, denied, three, _⟩ := recorded
    have related := Limiter.entry_same same key limit now clusterSize
    rw [entered] at related
    cases entered' : b.entry key limit now clusterSize with
    | none => simp [entered'] at related
    | some result =>
      obtain ⟨_, v⟩ := result
      rw [entered', Option.rel_some_some] at related
      obtain ⟨⟨_, rfl⟩, _⟩ := related
      obtain ⟨b', recorded', measured'⟩ := measured.record entered'
        ⟨Option.isSome_of_eq_some one, Option.isSome_of_eq_some two,
          Option.isSome_of_eq_some three⟩ sane
      exact ⟨_, _, by rw [serve, recorded', Option.map_some], measured'⟩
  | setCap cap => exact ⟨_, _, rfl, measured⟩
  | relist order =>
    simp only [serve, Option.map_eq_some_iff] at h
    obtain ⟨_, relisted, _⟩ := h
    have related := Limiter.relisted_same same order
    rw [relisted] at related
    cases relisted' : b.relisted order with
    | none => simp [relisted'] at related
    | some b' =>
      refine ⟨_, _, by rw [serve, relisted', Option.map_some], fun entry mem => ?_⟩
      simp only [Limiter.relisted, Option.ite_none_right_eq_some, Option.some.injEq] at relisted'
      obtain ⟨_, rfl⟩ := relisted'
      obtain ⟨key, _, listed⟩ := List.mem_filterMap.mp mem
      obtain ⟨state, found, rfl⟩ := Option.map_eq_some_iff.mp listed
      exact measured _ (Limiter.find_mem found)
  | tick now clusterSize hotElsewhere share s =>
    simp only [serve, Option.map_eq_some_iff] at h
    obtain ⟨_, ticked, _⟩ := h
    have related := Limiter.tickWithShares_same share decay same now clusterSize hotElsewhere s
    rw [ticked] at related
    cases ticked' : b.tickWithShares share decay now clusterSize hotElsewhere s with
    | none => simp [ticked'] at related
    | some result =>
      exact ⟨_, _, by rw [serve, ticked', Option.map_some], measured.tick ticked'⟩

theorem Like.symm {c d : LimiterCall σ} (like : Like c d) : Like d c := by
  cases like with
  | check => exact .check _ _ _ _ _ _
  | record => exact .record _ _ _ _ _ _ _ _
  | setCap => exact .setCap _
  | relist => exact .relist _
  | tick => exact .tick _ _ _ _ _

end LimiterCall

/-- Two runs of a limiter that differ in nothing but their shadows: after every call the decision
    is the same, and so is all there is of every key, of the hot set and of the rest, but for the
    denials its shadow made. Nor does one of the runs fail where the other does not, as long as
    the shadows are limits and deny attempts that were made. -/
theorem shadows_hidden (decay : Nat → Nat → ℚ) (config : Config) (start : Limiter)
    (fresh : Limiter.new config = some start) {σ : Type} (one two : List (LimiterCall σ))
    (like : List.Forall₂ LimiterCall.Like one two) :
    (∀ a b, TwoRuns.run (LimiterCall.serve decay) start one = some a →
      TwoRuns.run (LimiterCall.serve decay) start two = some b →
      List.Forall₂ (fun x y => x.1 = y.1 ∧ x.2.SameReal y.2) a b) ∧
    ((∀ c ∈ one, c.Sane) → (∀ c ∈ two, c.Sane) →
      (TwoRuns.run (LimiterCall.serve decay) start one).isSome =
        (TwoRuns.run (LimiterCall.serve decay) start two).isSome) := by
  have tidy := Limiter.new_tidy fresh
  have same : start.SameReal start := .refl tidy.distinct
  have measured : start.Measured := by
    simp only [Limiter.new, Option.ite_none_right_eq_some, Option.map_eq_some_iff] at fresh
    obtain ⟨_, _, _, rfl⟩ := fresh
    intro entry mem
    simp at mem
  have hides := LimiterCall.serve_hides (σ := σ) decay
  have goes {one two : List (LimiterCall σ)} (like : List.Forall₂ LimiterCall.Like one two)
      (sane : ∀ c ∈ two, c.Sane) (ran : (TwoRuns.run (LimiterCall.serve decay) start one).isSome) :
      (TwoRuns.run (LimiterCall.serve decay) start two).isSome := by
    obtain ⟨a, ran⟩ := Option.isSome_iff_exists.mp ran
    obtain ⟨b, ran'⟩ := TwoRuns.run_follows hides
      (fun _ t _ d _ _ same (measured : t.Measured) like (sane : d.Sane) served =>
        LimiterCall.serve_follows same measured like sane served) like sane same measured ran
    exact Option.isSome_of_eq_some ran'
  refine ⟨fun a b first second => hides.run like same first second, fun saneOne saneTwo => ?_⟩
  have back : List.Forall₂ LimiterCall.Like two one := like.flip.imp fun _ _ like => like.symm
  exact Bool.eq_iff_iff.mpr ⟨goes like saneTwo, goes back saneOne⟩

/- Two requests and a tick, with a shadow that denies the second of them or with what is given. -/
def shadowedCalls (shadow : Option Limit) (shadowDenials : Nat) : List (LimiterCall Unit) :=
  [.check 1 ⟨10, 5⟩ (some shadow) 0 1, .check 1 ⟨10, 5⟩ (some shadow) 0 1,
    .record 2 ⟨30, 1, shadowDenials⟩ ⟨10, 5⟩ 0 1,
    .tick 1000000000 1 (fun _ => false) (stateless fun _ _ limit => limit) ()]

theorem shadowedCalls_ran : ((Limiter.new narrow).any fun start =>
    (TwoRuns.run (LimiterCall.serve fun _ _ => 9 / 10) start (shadowedCalls none 0)).any fun a =>
      (TwoRuns.run (LimiterCall.serve fun _ _ => 9 / 10) start
        (shadowedCalls (some ⟨1, 1⟩) 30)).any fun b =>
          decide (a.map (·.2) ≠ b.map (·.2))) = true := by
  decide +kernel

theorem shadows_hidden_denied : ∃ start a b, Limiter.new narrow = some start ∧
    TwoRuns.run (LimiterCall.serve fun _ _ => 9 / 10) start (shadowedCalls none 0) = some a ∧
    TwoRuns.run (LimiterCall.serve fun _ _ => 9 / 10) start
      (shadowedCalls (some ⟨1, 1⟩) 30) = some b ∧
    a.map (·.2) ≠ b.map (·.2) ∧ List.Forall₂ (fun x y => x.1 = y.1 ∧ x.2.SameReal y.2) a b := by
  obtain ⟨start, fresh, ran⟩ := (Option.any_eq_true _ _).mp shadowedCalls_ran
  obtain ⟨a, first, ran⟩ := (Option.any_eq_true _ _).mp ran
  obtain ⟨b, second, ran⟩ := (Option.any_eq_true _ _).mp ran
  have like : List.Forall₂ LimiterCall.Like (shadowedCalls none 0)
      (shadowedCalls (some ⟨1, 1⟩) 30) :=
    .cons (.check _ _ _ _ _ _) (.cons (.check _ _ _ _ _ _)
      (.cons (.record _ _ _ _ _ _ _ _) (.cons (.tick _ _ _ _ _) .nil)))
  have hidden := (shadows_hidden _ narrow start fresh _ _ like).1 a b first second
  exact ⟨start, a, b, fresh, first, second, of_decide_eq_true ran, hidden⟩

end Rateguard
