import Rateguard.GuardTable

/- What each call of a guard does to its key table, and what every run keeps of it. -/
namespace Rateguard
open KeyTable (Slots Layout RealKey emptyKey Placed)

namespace KeyTable.Slot
variable (s : Slot) (now : Nat)

def told (cls : UInt64) : Slot := { s with cls }
def given (key cls : UInt64) (gcra : AtomicGcra) (shadow : ShadowGcra) : Slot :=
  { s with key, cls, gcra, shadow }

@[simp] theorem countAttempt_key : s.countAttempt.key = s.key := rfl
@[simp] theorem countAttempt_gcra : s.countAttempt.gcra = s.gcra := rfl
@[simp] theorem takeCounts_key : s.takeCounts.2.key = s.key := rfl
@[simp] theorem takeCounts_gcra : s.takeCounts.2.gcra = s.gcra := rfl

/- A check moves the slot's bucket, and counts what it denies. -/
theorem check_eq : s.check now = ((s.gcra.check now 0).1, (s.shadow.check now 0).1,
    { s with
      gcra := (s.gcra.check now 0).2
      shadow := (s.shadow.check now 0).2
      counts := if (s.gcra.check now 0).1 = .allow then s.counts else s.counts + denial
      shadowDenials := if (s.shadow.check now 0).1.any (· ≠ .allow) then s.shadowDenials + 1
        else s.shadowDenials }) := by
  unfold check
  generalize s.gcra.check now 0 = checked
  generalize s.shadow.check now 0 = shadowed
  obtain ⟨decided, gcra⟩ := checked
  obtain ⟨traced, shadow⟩ := shadowed
  dsimp only [countDenial, countShadowDenial]
  split <;> split <;> rfl

/- What holds of a slot between two calls: a free one is fresh. -/
structure Sound (last : Nat) : Prop where
  word : ∃ q : Quota, s.gcra.quota = q.pack
  free : ¬ RealKey s.key → s.key = emptyKey ∧ s.counts = 0 ∧ s.shadowDenials = 0 ∧ s.gcra.tat ≤ last

theorem new_sound (quota : Quota) (last : Nat) : (Slot.new quota).Sound last :=
  ⟨⟨quota, rfl⟩, fun _ => ⟨rfl, rfl, rfl, Nat.zero_le _⟩⟩

variable {s now}

theorem Sound.later {last : Nat} (sound : s.Sound last) (le : last ≤ now) : s.Sound now :=
  ⟨sound.word, fun free => by
    obtain ⟨empty, counts, denials, past⟩ := sound.free free
    exact ⟨empty, counts, denials, past.trans le⟩⟩

end KeyTable.Slot

/- A slot free since before then is on a quota again, and still out of debt. -/
theorem AtomicGcra.setQuota_past {a a' : AtomicGcra} {q quota : Quota} {now : Nat}
    (word : a.quota = q.pack) (past : a.tat ≤ now) (set : a.setQuota quota now 0 = some a') :
    a'.tat ≤ now := by
  unfold setQuota at set
  split at set
  · exact Option.some.inj set ▸ past
  · rw [word, q.unpack_pack] at set
    obtain rfl := Option.some.inj set
    dsimp only
    rw [rescale]
    split
    · exact past
    · rw [rescaleFrom_eq]
      exact carryTat_fresh q quota past

namespace Guard
variable {p : Primitives} {g g' : Guard} {cls key : UInt64} {now last : Nat}

structure Sound (g : Guard) (last : Nat) : Prop where
  buckets : 0 < g.layout.buckets
  placed : Placed g.layout g.slots
  slots : ∀ i, (g.slots i).Sound last
  overflow : ∃ q : Quota, g.overflow.gcra.quota = q.pack

theorem Sound.inside (sound : g.Sound last) {i : Nat} (real : RealKey (g.slots i).key) :
    i < g.layout.capacity :=
  KeyTable.Layout.candidates_lt sound.buckets (sound.placed.candidate i real)

/- The slot a check finds, its attempt counted: the key's own, one it has just been given, or the
   overflow slot. -/
inductive Prepared (p : Primitives) (g : Guard) (cls key : UInt64) (now : Nat) :
    Option Nat → KeyTable.Slot → Prop
  | own (i : Nat) : (g.slots i).key = key →
      Prepared p g cls key now (some i) ((g.slots i).countAttempt.told cls)
  | fresh (i : Nat) (quota : Quota) (limit : Option Quota) (gcra : AtomicGcra)
      (shadow : ShadowGcra) : (∀ j, (g.slots j).key ≠ key) → i ∈ g.layout.candidates key →
      (g.slots i).key = emptyKey → g.tables.freshQuota p.xxh3 cls key = some (quota, limit) →
      (g.slots i).gcra.setQuota quota now 0 = some gcra →
      (g.slots i).shadow.set limit now 0 = some shadow →
      Prepared p g cls key now (some i) ((g.slots i).countAttempt.given key cls gcra shadow)
  | overflow : (∀ j, (g.slots j).key ≠ key) → Prepared p g cls key now none g.overflow.countAttempt

theorem judge_prepared {v : Verdict} (placed : Placed g.layout g.slots) (real : RealKey key)
    (h : g.judge p cls key now = some (v, g')) : ∃ slot, Prepared p g cls key now v.slot slot ∧
      v.decided = (slot.check now).1 ∧ v.shadow = (slot.check now).2.1 ∧
      g' = g.putSlot v.slot (slot.check now).2.2 := by
  unfold judge at h
  rcases KeyTable.claim_cases placed real with
    ⟨i, held, claimed⟩ | ⟨absent, ⟨i, mem, free, claimed⟩ | claimed⟩
  · simp only [claimed, slotAt, Option.elim_some, Bool.false_eq_true, if_false, bind,
      Option.bind_some, Option.isSome_some, and_true, Option.some.injEq, Prod.mk.injEq] at h
    obtain ⟨rfl, rfl⟩ := h
    have told : (if (g.slots i).cls ≠ cls then { g.slots i with cls } else g.slots i) =
        { g.slots i with cls } := by
      split
      · rfl
      · rename_i same
        rw [← not_not.mp same]
    rw [told]
    exact ⟨(g.slots i).countAttempt.told cls, .own i held, rfl, rfl, rfl⟩
  · simp only [claimed, slotAt, Option.elim_some, if_true, bind, freshen, tables,
      Option.isSome_some, and_true, Function.update_self, Option.bind_eq_some_iff,
      Option.some.injEq, Prod.mk.injEq] at h
    obtain ⟨slot, ⟨⟨quota, limit⟩, fresh, gcra, set, shadow, shadowed, whole⟩, rfl, rfl⟩ := h
    have told : (if (g.slots i).cls ≠ cls then { { g.slots i with key } with cls }
        else { g.slots i with key }) = { g.slots i with key, cls } := by
      split
      · rfl
      · rename_i same
        rw [← not_not.mp same]
    rw [told] at set shadowed whole
    simp only [KeyTable.Slot.countAttempt, if_true, Option.some.injEq] at whole
    subst whole
    refine ⟨(g.slots i).countAttempt.given key cls gcra shadow,
      .fresh i quota limit gcra shadow absent mem free fresh set shadowed, rfl, rfl, ?_⟩
    simp only [putSlot, Function.update_idem]
    rfl
  · simp only [claimed, slotAt, Option.elim_none, Bool.false_eq_true, if_false, bind,
      Option.bind_some, Option.isSome_none, and_false, Option.some.injEq, Prod.mk.injEq] at h
    obtain ⟨rfl, rfl⟩ := h
    exact ⟨_, .overflow absent, rfl, rfl, rfl⟩

/- What the quotas of a slot become: it is put on one, or it is freed out of debt. -/
inductive Requoted (newKey : Quota) (now : Nat) (slot : KeyTable.Slot) : KeyTable.Slot → Prop
  | put (quota : Quota) (gcra : AtomicGcra) (shadow : ShadowGcra) :
      slot.gcra.setQuota quota now 0 = some gcra → Requoted newKey now slot { slot with gcra, shadow }
  | freed : slot.gcra.hasDebt now = false → slot.counts = 0 → Requoted newKey now slot (.new newKey)

theorem requoteSlot_requoted {node : Node} {newKey : Quota} {slot slot' : KeyTable.Slot}
    (h : g.requoteSlot p node newKey now slot = some slot') : Requoted newKey now slot slot' ∧
      (RealKey slot'.key → ∃ quota, slot'.gcra.quota = quota.pack ∧
        (node.quota slot.key = some quota ∨ node.quota slot.key = none ∧
          node.newKeyQuotaIn (g.resolved p slot).limit = some quota)) := by
  unfold requoteSlot at h
  have word {quota : Quota} {gcra : AtomicGcra}
      (set : slot.gcra.setQuota quota now 0 = some gcra) : gcra.quota = quota.pack := by
    unfold AtomicGcra.setQuota at set
    split at set
    · rename_i same
      exact Option.some.inj set ▸ same
    · obtain ⟨old, _, rest⟩ := Option.bind_eq_some_iff.mp set
      rw [← Option.some.inj rest]
  split at h
  · rename_i quota told
    simp only [bind, Option.bind_eq_some_iff, Option.some.injEq] at h
    obtain ⟨gcra, set, _, _, shadow, _, rfl⟩ := h
    exact ⟨.put quota gcra shadow set, fun _ => ⟨quota, word set, .inl told⟩⟩
  · rename_i untold
    split at h
    · rename_i idle
      simp only [KeyTable.Slot.released, if_true, Option.some.injEq] at h
      subst h
      simp only [Bool.and_eq_true, Bool.not_eq_true', KeyTable.Slot.hasCounts, bne_eq_false_iff_eq]
        at idle
      exact ⟨.freed idle.1 idle.2, fun real => absurd real KeyTable.empty_not_real⟩
    · simp only [bind, Option.bind_eq_some_iff, Option.some.injEq] at h
      obtain ⟨quota, asked, gcra, set, _, _, shadow, _, rfl⟩ := h
      exact ⟨.put quota gcra shadow set, fun _ => ⟨quota, word set, .inr ⟨untold, asked⟩⟩⟩

structure Synced (p : Primitives) (g : Guard) (now : Nat) (g' : Guard) : Prop where
  node : ∃ slots node counts, g.layout.forEach (g.recordSlot p now) g.slots
      (g.node, ⟨0, 0, 0, 0, 0, g.rejected⟩) = some (slots, node, counts) ∧
    node.handle p.decay .tick now = some g'.node ∧
    g'.report = g.report.updated p.decay g'.node { counts with
      attempts := counts.attempts + g.overflow.takeCounts.1.attempts
      denied := counts.denied + g.overflow.takeCounts.1.denials
      overflowed := g.overflow.takeCounts.1.attempts } g.mostDenied
  held : ∀ i, i < g.layout.capacity → RealKey (g.slots i).key →
    g.requoteSlot p g'.node g'.freeQuota now (g.slots i).takeCounts.2 = some (g'.slots i)
  free : ∀ i, ¬ RealKey (g.slots i).key → g'.slots i = g.slots i ∨
    ∃ gcra, (g.slots i).gcra.setQuota g'.freeQuota now 0 = some gcra ∧
      g'.slots i = { g.slots i with gcra }
  overflow : ∃ gcra, g.overflow.gcra.setQuota g'.freeQuota now 0 = some gcra ∧
    g'.overflow = { g.overflow.takeCounts.2 with gcra }
  freeQuota : g'.node.newKeyQuotaIn g.classes.table.strictest = some g'.freeQuota
  freshFactor : g'.freshFactor = g'.node.newKeyFactor
  kept : g'.layout = g.layout ∧ g'.dryRun = g.dryRun ∧ g'.running = g.running ∧
    g'.classes = g.classes ∧ g'.keyLimits = g.keyLimits ∧ g'.salt = g.salt

theorem recordSlot_slot {slot slot' : KeyTable.Slot} {s s' : Node × Counts}
    (h : g.recordSlot p now slot s = some (slot', s')) : slot' = slot.takeCounts.2 := by
  simp only [recordSlot, bind, Option.bind_eq_some_iff, Option.some.injEq, Prod.mk.injEq] at h
  obtain ⟨_, _, rfl, _⟩ := h
  rfl

theorem sync_synced (h : g.sync p now = some g') : Synced p g now g' := by
  simp only [sync, bind, Option.bind_eq_some_iff, Option.some.injEq] at h
  obtain ⟨⟨slots₁, node, counts⟩, recorded, node', ticked, newKey, fresh, ⟨slots₂, _⟩, requoted, slots₃,
    freed, overflow, spare, rfl⟩ := h
  have first := KeyTable.forEach_at recorded
  have second := KeyTable.forEach_at requoted
  have third := KeyTable.forEachFree_at freed
  dsimp only at first second third
  obtain ⟨gcra, set, rfl⟩ := Option.map_eq_some_iff.mp spare
  refine ⟨⟨slots₁, node, counts, recorded, ticked, rfl⟩, fun i small real => ?_, fun i free => ?_,
    ⟨gcra, set, rfl⟩, fresh, rfl, rfl, rfl, rfl, rfl, rfl, rfl⟩
  · obtain ⟨s₁, s₂, taken⟩ := (first i).1 small real
    have cleared : slots₁ i = (g.slots i).takeCounts.2 := recordSlot_slot taken
    obtain ⟨_, _, edited⟩ := (second i).1 small (by rw [cleared]; exact real)
    obtain ⟨slot, done, same⟩ := Option.map_eq_some_iff.mp edited
    simp only [Prod.mk.injEq, and_true] at same
    subst same
    rw [cleared] at done
    dsimp only
    by_cases emptied : (slots₂ i).key = emptyKey
    · have again := (third i).1 small emptied
      have spec := (requoteSlot_requoted done).1
      generalize slots₂ i = slot at *
      cases spec with
      | put quota gcra shadow set => exact absurd (show RealKey emptyKey from emptied ▸ real) (by decide)
      | freed idle none =>
        rw [done, ← again]
        simp [AtomicGcra.setQuota, KeyTable.Slot.new, AtomicGcra.new]
    · rw [(third i).2 fun both => emptied both.2]
      exact done
  · have kept : slots₁ i = g.slots i := (first i).2 fun both => free both.2
    have still : slots₂ i = g.slots i := by
      rw [(second i).2 fun both => free (kept ▸ both.2), kept]
    dsimp only
    by_cases both : i < g.layout.capacity ∧ (slots₂ i).key = emptyKey
    · obtain ⟨gcra, set, whole⟩ := Option.map_eq_some_iff.mp ((third i).1 both.1 both.2)
      rw [still] at set whole
      exact .inr ⟨gcra, set, whole.symm⟩
    · rw [(third i).2 both, still]
      exact .inl rfl

structure Floored (p : Primitives) (g : Guard) (now : Nat) (g' : Guard) : Prop where
  held : ∀ i, i < g.layout.capacity → RealKey (g.slots i).key → ∃ quota gcra shadow,
    quotaFor ((g.resolved p (g.slots i)).limit.rate * g.node.limiter.config.floorFactor /
      (max g.clusterSize 1 : Nat)) (g.resolved p (g.slots i)).limit.burst = some quota ∧
    (g.slots i).gcra.setQuota quota now 0 = some gcra ∧
    g'.slots i = { g.slots i with gcra, shadow }
  free : ∀ i, ¬ RealKey (g.slots i).key → g'.slots i = g.slots i ∨
    ∃ gcra, (g.slots i).gcra.setQuota g'.freeQuota now 0 = some gcra ∧
      g'.slots i = { g.slots i with gcra }
  overflow : ∃ gcra, g.overflow.gcra.setQuota g'.freeQuota now 0 = some gcra ∧
    g'.overflow = { g.overflow with gcra }
  freeQuota : quotaFor (g.classes.table.strictest.rate * g.node.limiter.config.floorFactor /
    (max g.clusterSize 1 : Nat)) g.classes.table.strictest.burst = some g'.freeQuota
  freshFactor : g'.freshFactor = g.node.limiter.config.floorFactor / (max g.clusterSize 1 : Nat)
  kept : g'.layout = g.layout ∧ g'.dryRun = g.dryRun ∧ g'.running = g.running ∧
    g'.classes = g.classes ∧ g'.keyLimits = g.keyLimits ∧ g'.salt = g.salt ∧ g'.node = g.node ∧
    g'.report = g.report

theorem holdAtFloor_floored (h : g.holdAtFloor p now = some g') : Floored p g now g' := by
  simp only [holdAtFloor, bind, Option.bind_eq_some_iff, Option.some.injEq] at h
  obtain ⟨strictest, floor, ⟨slots₁, _⟩, held, slots₂, freed, overflow, spare, rfl⟩ := h
  have first := KeyTable.forEach_at held
  have second := KeyTable.forEachFree_at freed
  dsimp only at first second
  obtain ⟨gcra, set, rfl⟩ := Option.map_eq_some_iff.mp spare
  refine ⟨fun i small real => ?_, fun i free => ?_, ⟨gcra, set, rfl⟩, floor, rfl,
    rfl, rfl, rfl, rfl, rfl, rfl, rfl, rfl⟩
  · obtain ⟨_, _, edited⟩ := (first i).1 small real
    simp only [Option.bind_eq_some_iff, Option.some.injEq, Prod.mk.injEq, and_true] at edited
    obtain ⟨quota, asked, gcra, set, _, _, shadow, _, whole⟩ := edited
    have kept : (slots₁ i).key = (g.slots i).key := by rw [← whole]
    dsimp only
    rw [(second i).2 fun both => (kept ▸ real).1 both.2]
    exact ⟨quota, gcra, shadow, asked, set, whole.symm⟩
  · have still : slots₁ i = g.slots i := (first i).2 fun both => free both.2
    dsimp only
    by_cases both : i < g.layout.capacity ∧ (slots₁ i).key = emptyKey
    · obtain ⟨gcra, set, whole⟩ := Option.map_eq_some_iff.mp ((second i).1 both.1 both.2)
      rw [still] at set whole
      exact .inr ⟨gcra, set, whole.symm⟩
    · rw [(second i).2 both, still]
      exact .inl rfl

end Guard

theorem AtomicGcra.setQuota_word {a a' : AtomicGcra} {quota : Quota} {now fails : Nat}
    (set : a.setQuota quota now fails = some a') : a'.quota = quota.pack := by
  unfold setQuota at set
  split at set
  · rename_i same
    exact Option.some.inj set ▸ same
  · obtain ⟨old, _, rest⟩ := Option.bind_eq_some_iff.mp set
    rw [← Option.some.inj rest]

namespace KeyTable.Slot.Sound
variable {s : Slot} {quota : Quota} {gcra : AtomicGcra} {last now : Nat}

theorem put (sound : s.Sound last) (later : last ≤ now)
    (set : s.gcra.setQuota quota now 0 = some gcra) (shadow : ShadowGcra) :
    ({ s with gcra, shadow } : Slot).Sound now := by
  refine ⟨⟨quota, AtomicGcra.setQuota_word set⟩, fun free => ?_⟩
  obtain ⟨empty, counts, denials, past⟩ := sound.free free
  obtain ⟨q, word⟩ := sound.word
  exact ⟨empty, counts, denials, AtomicGcra.setQuota_past word (past.trans later) set⟩

theorem taken (sound : s.Sound last) : s.takeCounts.2.Sound last :=
  ⟨sound.word, fun free => ⟨(sound.free free).1, rfl, rfl, (sound.free free).2.2.2⟩⟩

end KeyTable.Slot.Sound

namespace Guard
variable {p : Primitives} {g g' : Guard} {cls key : UInt64} {now last : Nat}

theorem Requoted.sound {newKey : Quota} {slot slot' : KeyTable.Slot}
    (requoted : Requoted newKey now slot slot') (sound : slot.Sound last) (later : last ≤ now) :
    slot'.Sound now ∧ (RealKey slot'.key → slot'.key = slot.key) := by
  cases requoted with
  | put quota gcra shadow set => exact ⟨sound.put later set shadow, fun _ => rfl⟩
  | freed => exact ⟨KeyTable.Slot.new_sound newKey now, fun real => absurd real KeyTable.empty_not_real⟩

theorem Sound.requoted (sound : g.Sound last) (layout : g'.layout = g.layout)
    (overflow : ∃ q : Quota, g'.overflow.gcra.quota = q.pack)
    (each : ∀ i, (g'.slots i).Sound now ∧
      (RealKey (g'.slots i).key → (g'.slots i).key = (g.slots i).key)) : g'.Sound now :=
  ⟨layout ▸ sound.buckets, layout ▸ sound.placed.kept fun i real => (each i).2 real,
    fun i => (each i).1, overflow⟩

theorem Synced.sound (synced : Synced p g now g') (sound : g.Sound last) (later : last ≤ now) :
    g'.Sound now := by
  refine sound.requoted synced.kept.1 ?_ fun i => ?_
  · obtain ⟨gcra, set, whole⟩ := synced.overflow
    exact ⟨_, by rw [whole]; exact AtomicGcra.setQuota_word set⟩
  · by_cases real : RealKey (g.slots i).key
    · exact (requoteSlot_requoted (synced.held i (sound.inside real) real)).1.sound
        (sound.slots i).taken later
    · rcases synced.free i real with same | ⟨gcra, set, whole⟩
      · rw [same]
        exact ⟨(sound.slots i).later later, fun _ => rfl⟩
      · rw [whole]
        exact ⟨(sound.slots i).put later set _, fun _ => rfl⟩

theorem Floored.sound (floored : Floored p g now g') (sound : g.Sound last) (later : last ≤ now) :
    g'.Sound now := by
  refine sound.requoted floored.kept.1 ?_ fun i => ?_
  · obtain ⟨gcra, set, whole⟩ := floored.overflow
    exact ⟨_, by rw [whole]; exact AtomicGcra.setQuota_word set⟩
  · by_cases real : RealKey (g.slots i).key
    · obtain ⟨quota, gcra, shadow, _, set, whole⟩ := floored.held i (sound.inside real) real
      rw [whole]
      exact ⟨(sound.slots i).put later set shadow, fun _ => rfl⟩
    · rcases floored.free i real with same | ⟨gcra, set, whole⟩
      · rw [same]
        exact ⟨(sound.slots i).later later, fun _ => rfl⟩
      · rw [whole]
        exact ⟨(sound.slots i).put later set _, fun _ => rfl⟩

end Guard

namespace Guard
variable {p : Primitives} {g g' : Guard} {cls key : UInt64} {now last : Nat}

theorem Prepared.word {index : Option Nat} {slot : KeyTable.Slot} (sound : g.Sound last)
    (prepared : Prepared p g cls key now index slot) : ∃ q : Quota, slot.gcra.quota = q.pack := by
  cases prepared with
  | own i => exact (sound.slots i).word
  | fresh i quota limit gcra shadow absent mem free fresh set => exact ⟨quota, AtomicGcra.setQuota_word set⟩
  | overflow => exact sound.overflow

theorem judge_sound {v : Verdict} (sound : g.Sound last) (later : last ≤ now) (real : RealKey key)
    (h : g.judge p cls key now = some (v, g')) : g'.Sound now := by
  obtain ⟨slot, prepared, _, _, rfl⟩ := judge_prepared sound.placed real h
  have asked := prepared.word sound
  have checked : (slot.check now).2.2.key = slot.key ∧
      ∃ q : Quota, (slot.check now).2.2.gcra.quota = q.pack := by
    rw [KeyTable.Slot.check_eq]
    exact ⟨rfl, asked⟩
  generalize (slot.check now).2.2 = after at checked
  obtain ⟨own, word⟩ := checked
  generalize v.slot = index at prepared
  have written {i : Nat} {slot : KeyTable.Slot} (own : slot.key = key)
      (word : ∃ q : Quota, slot.gcra.quota = q.pack) (j : Nat) :
      (Function.update g.slots i slot j).Sound now := by
    by_cases same : j = i
    · subst same
      rw [Function.update_self]
      exact ⟨word, fun free => absurd (own.symm ▸ real) free⟩
    · rw [Function.update_of_ne same]
      exact (sound.slots j).later later
  cases prepared with
  | own i held =>
    have own : after.key = (g.slots i).key := own
    refine ⟨sound.buckets, sound.placed.kept fun j _ => ?_, written (own.trans held) word,
      sound.overflow⟩
    refine (KeyTable.update_key i j after).trans ?_
    split
    · rename_i same
      rw [same, own]
    · rfl
  | fresh i quota limit gcra traced absent mem =>
    exact ⟨sound.buckets, sound.placed.taken own mem absent, written own word, sound.overflow⟩
  | overflow => exact ⟨sound.buckets, sound.placed, fun j => (sound.slots j).later later, word⟩

end Guard

/-- What a call does, said once for each: all the proofs about runs go by these cases. -/
inductive GuardCall.Performs (p : Primitives) (g : Guard) :
    GuardCall → Option Verdict → Guard → Prop
  | check {cls key : String} {now : Nat} {v : Verdict} {g' : Guard} :
      g.judge p (classHash p.xxh3 cls) (g.hash p cls key) now = some (v, g') →
      Performs p g (.check cls key now) (some v) g'
  | setClasses (call : ClassesCall) :
      Performs p g (.setClasses call) none { g with classes := (call.perform p.xxh3 g.classes).2 }
  | setKeyLimits (call : KeyLimitsCall) :
      Performs p g (.setKeyLimits call) none { g with keyLimits := (call.perform g.keyLimits).2 }
  | setDryRun (on : Bool) : Performs p g (.setDryRun on) none { g with dryRun := on }
  | setGossipAuth (mode : GossipAuth) (secrets : List Secret) :
      Performs p g (.setGossipAuth mode secrets) none
        { g with auth := (Auth.new mode secrets).toOption.getD g.auth }
  | tick {now : Nat} {g' : Guard} : g.running = true → g.sync p now = some g' →
      Performs p g (.tick now) none g'
  | receive {datagram : List UInt8} {now : Nat} {actions : List Action} {node : Node}
      {rejected : RejectedDatagrams} : g.running = true →
      g.node.receiveDatagram p.peerId p.mac p.decay g.auth datagram now g.rejected =
        some (actions, node, rejected) →
      Performs p g (.receive datagram now) none { g with node, rejected }
  | lookedUp {found : Found} {names : Names} {node : Node} : g.running = true →
      g.names.update p.peerId g.node found = some (names, node) →
      Performs p g (.lookedUp found) none { g with names, node }
  | leave {now : Nat} {held : Guard} {node : Node} : g.running = true →
      g.holdAtFloor p now = some held → held.node.leave now = some node →
      Performs p g (.leave now) none { held with node, running := false }
  | crash {now : Nat} {held : Guard} : g.running = true → g.holdAtFloor p now = some held →
      Performs p g (.crash now) none { held with running := false }

theorem GuardCall.performs {p : Primitives} {g g' : Guard} {call : GuardCall} {v : Option Verdict}
    (h : call.perform p g = some (v, g')) : call.Performs p g v g' := by
  cases call with
  | check cls key now =>
    obtain ⟨⟨v, u⟩, judged, same⟩ := Option.map_eq_some_iff.mp h
    simp only [Prod.mk.injEq] at same
    obtain ⟨rfl, rfl⟩ := same
    exact .check judged
  | setClasses call =>
    obtain ⟨rfl, rfl⟩ := Prod.mk.inj (Option.some.inj h)
    exact .setClasses call
  | setKeyLimits call =>
    obtain ⟨rfl, rfl⟩ := Prod.mk.inj (Option.some.inj h)
    exact .setKeyLimits call
  | setDryRun on =>
    obtain ⟨rfl, rfl⟩ := Prod.mk.inj (Option.some.inj h)
    exact .setDryRun on
  | setGossipAuth mode secrets =>
    obtain ⟨rfl, rfl⟩ := Prod.mk.inj (Option.some.inj h)
    exact .setGossipAuth mode secrets
  | tick now =>
    simp only [perform, Option.ite_none_right_eq_some, Option.map_eq_some_iff, Prod.mk.injEq] at h
    obtain ⟨running, u, synced, rfl, rfl⟩ := h
    exact .tick running synced
  | receive datagram now =>
    simp only [perform, Option.ite_none_right_eq_some, bind, Option.bind_eq_some_iff,
      Option.some.injEq, Prod.mk.injEq] at h
    obtain ⟨running, ⟨actions, node, rejected⟩, heard, rfl, rfl⟩ := h
    exact .receive running heard
  | lookedUp found =>
    simp only [perform, Option.ite_none_right_eq_some, bind, Option.bind_eq_some_iff,
      Option.some.injEq, Prod.mk.injEq] at h
    obtain ⟨running, ⟨names, node⟩, told, rfl, rfl⟩ := h
    exact .lookedUp running told
  | leave now =>
    simp only [perform, Option.ite_none_right_eq_some, bind, Option.bind_eq_some_iff,
      Option.some.injEq, Prod.mk.injEq] at h
    obtain ⟨running, held, floored, node, left, rfl, rfl⟩ := h
    exact .leave running floored left
  | crash now =>
    simp only [perform, Option.ite_none_right_eq_some, bind, Option.bind_eq_some_iff,
      Option.some.injEq, Prod.mk.injEq] at h
    obtain ⟨running, held, floored, rfl, rfl⟩ := h
    exact .crash running floored

theorem GuardCall.perform_sound {p : Primitives} {g g' : Guard} {last : Nat} {call : GuardCall}
    {v : Option Verdict} (sound : g.Sound last) (later : last ≤ call.time last)
    (h : call.perform p g = some (v, g')) : g'.Sound (call.time last) := by
  cases GuardCall.performs h with
  | check judged => exact Guard.judge_sound sound later (offReserved_real _) judged
  | setClasses | setKeyLimits | setDryRun | setGossipAuth | lookedUp =>
    exact ⟨sound.buckets, sound.placed, sound.slots, sound.overflow⟩
  | tick _ synced => exact (Guard.sync_synced synced).sound sound later
  | receive =>
    exact ⟨sound.buckets, sound.placed, fun i => (sound.slots i).later later, sound.overflow⟩
  | leave _ floored | crash _ floored =>
    have kept := (Guard.holdAtFloor_floored floored).sound sound later
    exact ⟨kept.buckets, kept.placed, kept.slots, kept.overflow⟩

theorem guardRun_cons {p : Primitives} {g : Guard} {last : Nat} {call : GuardCall}
    {calls : List GuardCall} {steps : List GuardStep}
    (h : guardRun p g last (call :: calls) = some steps) :
    ∃ v g' rest, call.perform p g = some (v, g') ∧
      guardRun p g' (call.time last) calls = some rest ∧
      steps = ⟨g, call, v, g', call.time last⟩ :: rest := by
  simp only [guardRun, bind, Option.bind_eq_some_iff, Option.some.injEq] at h
  obtain ⟨⟨v, g'⟩, stepped, rest, ran, rfl⟩ := h
  exact ⟨v, g', rest, stepped, ran, rfl⟩

/- A node starts with a table that is all free. -/
theorem Settings.guard_sound {s : Settings} {p : Primitives} {rehash : UInt64 → UInt64}
    {seed : UInt64} {g : Guard} (h : s.guard p rehash seed = some g) : g.Sound 0 := by
  simp only [guard, Option.bind_eq_bind, Option.bind_eq_some_iff, Option.some.injEq] at h
  obtain ⟨⟨names, node⟩, _, default, _, quota, _, rfl⟩ := h
  have free (i : Nat) : ¬ RealKey (KeyTable.Slot.new quota).key := KeyTable.empty_not_real
  refine ⟨?_, ⟨fun i real => absurd real (free i), fun i _ real => absurd real (free i)⟩,
    fun _ => KeyTable.Slot.new_sound quota 0, quota, rfl⟩
  exact Nat.pos_of_isPowerOfTwo (Nat.isPowerOfTwo_nextPowerOfTwo _)

/- A node alone, with a table of eight slots. -/
def plainPrimitives : Primitives where
  xxh3 name := name.length.toUInt64
  xxh3Seeded cls key := cls + (key.toList.map Char.toNat).sum.toUInt64
  sipHash _ cls key := cls + key.length.toUInt64
  peerId address := address.port.toUInt64
  mac _ _ := .replicate tagLen 0
  decay _ _ := 1 / 1000

def smallSettings : Settings where
  bind := .v4 (.replicate 4 1) 7
  advertise := .v4 (.replicate 4 1) 7
  seeds := []
  names := []
  core := Builder.core ⟨10, 2⟩ 1 1
  swim := Builder.swim 200000000
  policy := .optimistic
  quorumMemory := defaultQuorumMemory
  dryRun := false
  classes := []
  maxClasses := 4
  maxKeyLimits := 4
  mostDenied := 2
  maxMembers := 4
  defaultLimit := (GivenLimit.new 10 .second).withBurst 2
  auth := .off
  salt := none

end Rateguard
