import Rateguard.GuardFleet

/- A node whose background task has ended, by leaving or by a crash, holds every key at the floor from
   then on: those it has a slot for, and those it sees later. -/
namespace Rateguard
open OnCredit
open KeyTable (RealKey emptyKey)

section
variable {p : Primitives} {g g' : Guard} {key c : UInt64} {last now : Nat}

theorem ClassesCall.perform_settled {call : ClassesCall} {xxh3 : String → UInt64}
    {limits : Classes × KeyLimits} (settled : Settled xxh3 limits) :
    Settled xxh3 ((call.perform xxh3 limits.1).2, limits.2) := by
  cases call with
  | set name limit => exact settled.change (.set name limit)
  | remove name => exact settled.change (.remove name)
  | setDefault limit => exact settled.change (.setDefault limit)
  | replace classes => exact settled.change (.replace classes)
  | setShadow name limit => exact settled.change (.setShadow name limit)
  | replaceShadows shadows => exact settled.change (.replaceShadows shadows)

theorem KeyLimitsCall.perform_settled {call : KeyLimitsCall} {xxh3 : String → UInt64}
    {limits : Classes × KeyLimits} (settled : Settled xxh3 limits) :
    Settled xxh3 (limits.1, (call.perform limits.2).2) := by
  cases call with
  | set hash entry => exact settled.change (.setKey hash entry)
  | remove hash => exact settled.change (.removeKey hash)
  | replace entries => exact settled.change (.replaceKeys entries)

def GuardCall.isChange : GuardCall → Bool
  | .setClasses _ | .setKeyLimits _ => true
  | _ => false

theorem GuardCall.perform_tables {call : GuardCall} {v : Option Verdict}
    (h : call.perform p g = some (v, g')) : g'.salt = g.salt ∧
      (Settled p.xxh3 (g.classes, g.keyLimits) → Settled p.xxh3 (g'.classes, g'.keyLimits)) ∧
      (call.isChange = false → g'.classes = g.classes ∧ g'.keyLimits = g.keyLimits) := by
  have same (salt : g'.salt = g.salt) (classes : g'.classes = g.classes)
      (keyLimits : g'.keyLimits = g.keyLimits) : g'.salt = g.salt ∧
      (Settled p.xxh3 (g.classes, g.keyLimits) → Settled p.xxh3 (g'.classes, g'.keyLimits)) ∧
      (call.isChange = false → g'.classes = g.classes ∧ g'.keyLimits = g.keyLimits) :=
    ⟨salt, fun settled => classes ▸ keyLimits ▸ settled, fun _ => ⟨classes, keyLimits⟩⟩
  cases GuardCall.performs h with
  | @check cls name _ _ _ judged =>
    unfold Guard.judge at judged
    simp only [bind, Option.bind_eq_some_iff, Option.some.injEq, Prod.mk.injEq] at judged
    obtain ⟨_, _, _, rfl⟩ := judged
    generalize (KeyTable.claim g.layout g.slots (g.hash p cls name)).2.1 = index at same
    cases index with
    | none => exact same rfl rfl rfl
    | some i => exact same rfl rfl rfl
  | setClasses call =>
    exact ⟨rfl, fun settled => ClassesCall.perform_settled settled, fun calm => Bool.noConfusion calm⟩
  | setKeyLimits call =>
    exact ⟨rfl, fun settled => KeyLimitsCall.perform_settled settled, fun calm => Bool.noConfusion calm⟩
  | setDryRun | setGossipAuth | receive | lookedUp => exact same rfl rfl rfl
  | tick _ synced =>
    obtain ⟨_, _, _, classes, keyLimits, salt⟩ := (Guard.sync_synced synced).kept
    exact same salt classes keyLimits
  | leave _ floored | crash _ floored =>
    obtain ⟨_, _, _, classes, keyLimits, salt, _⟩ := (Guard.holdAtFloor_floored floored).kept
    exact same salt classes keyLimits

def GuardCall.InClass (p : Primitives) (g : Guard) (key c : UInt64) : GuardCall → Prop
  | .check cls name _ => g.hash p cls name = key → classHash p.xxh3 cls = c
  | _ => True

instance (p : Primitives) (g : Guard) (key c : UInt64) (call : GuardCall) :
    Decidable (call.InClass p g key c) := by
  cases call with
  | check cls name now => exact inferInstanceAs (Decidable (_ → _))
  | setClasses | setKeyLimits | setDryRun | setGossipAuth | tick | receive | lookedUp | leave | crash =>
    exact isTrue trivial

def Guard.Told (g : Guard) (key c : UInt64) : Prop :=
  ∀ i, (g.slots i).key = key → (g.slots i).cls = c

theorem Guard.Synced.told (synced : Guard.Synced p g now g') (sound : g.Sound last)
    (real : RealKey key) (told : g.Told key c) : g'.Told key c := by
  intro i own
  by_cases held : RealKey (g.slots i).key
  · have requoted := (Guard.requoteSlot_requoted (synced.held i (sound.inside held) held)).1
    generalize g'.slots i = slot at own requoted
    cases requoted with
    | put => exact told i own
    | freed =>
      have empty : emptyKey = key := own
      exact absurd (empty ▸ real) KeyTable.empty_not_real
  · rcases synced.free i held with same | ⟨_, _, same⟩
    · rw [same] at own
      exact absurd (own ▸ real) held
    · rw [same] at own
      exact absurd (show RealKey (g.slots i).key from own ▸ real) held

theorem Guard.Floored.back (floored : Guard.Floored p g now g') (sound : g.Sound last)
    (real : RealKey key) {i : Nat} (own : (g'.slots i).key = key) :
    RealKey (g.slots i).key ∧ (g.slots i).key = key ∧ (g'.slots i).cls = (g.slots i).cls := by
  by_cases held : RealKey (g.slots i).key
  · obtain ⟨_, _, _, _, _, same⟩ := floored.held i (sound.inside held) held
    rw [same] at own ⊢
    exact ⟨held, own, rfl⟩
  · rcases floored.free i held with same | ⟨_, _, same⟩
    · rw [same] at own
      exact absurd (own ▸ real) held
    · rw [same] at own
      exact absurd (show RealKey (g.slots i).key from own ▸ real) held

theorem Guard.Floored.told (floored : Guard.Floored p g now g') (sound : g.Sound last)
    (real : RealKey key) (told : g.Told key c) : g'.Told key c := by
  intro i own
  obtain ⟨_, was, cls⟩ := floored.back sound real own
  rw [cls]
  exact told i was

theorem Guard.judge_told {cls asked : UInt64} {v : Verdict} (sound : g.Sound last)
    (realAsked : RealKey asked) (h : g.judge p cls asked now = some (v, g')) (told : g.Told key c)
    (inClass : asked = key → cls = c) : g'.Told key c := by
  obtain ⟨slot, prepared, _, _, rfl⟩ := Guard.judge_prepared sound.placed realAsked h
  have checked : (slot.check now).2.2.key = slot.key ∧ (slot.check now).2.2.cls = slot.cls := by
    rw [KeyTable.Slot.check_eq]
    exact ⟨rfl, rfl⟩
  generalize (slot.check now).2.2 = after at checked
  obtain ⟨keeps, class_⟩ := checked
  have written {i : Nat} (own : slot.key = asked) (cls' : slot.cls = cls) :
      (g.putSlot (some i) after).Told key c := by
    intro j held
    simp only [Guard.putSlot] at held ⊢
    by_cases same : j = i
    · subst same
      rw [Function.update_self] at held ⊢
      rw [class_, cls']
      exact inClass (own.symm.trans (keeps.symm.trans held))
    · rw [Function.update_of_ne same] at held ⊢
      exact told j held
  generalize v.slot = index at prepared
  cases prepared with
  | own i held => exact written held rfl
  | fresh i => exact written rfl rfl
  | overflow => exact told

theorem GuardCall.perform_told {call : GuardCall} {v : Option Verdict} (sound : g.Sound last)
    (real : RealKey key) (h : call.perform p g = some (v, g')) (told : g.Told key c)
    (inClass : call.InClass p g key c) : g'.Told key c := by
  cases GuardCall.performs h with
  | check judged => exact Guard.judge_told sound (offReserved_real _) judged told inClass
  | setClasses | setKeyLimits | setDryRun | setGossipAuth | receive | lookedUp => exact told
  | tick _ synced => exact (Guard.sync_synced synced).told sound real told
  | leave _ floored | crash _ floored =>
    have held := (Guard.holdAtFloor_floored floored).told sound real told
    exact held

/- A guard whose task has ended, and what it holds a key to. -/
structure Guard.AtFloor (p : Primitives) (g : Guard) (key c : UInt64) (limit : Limit)
    (factor : ℚ) : Prop where
  stopped : g.running = false
  settled : Settled p.xxh3 (g.classes, g.keyLimits)
  resolves : (g.classes.table.resolve p.xxh3 g.keyLimits.table c key).limit = limit
  scales : g.freshFactor = factor
  slots : ∀ i, (g.slots i).key = key → ∃ q, quotaFor (limit.rate * factor) limit.burst = some q ∧
    (g.slots i).gcra.quota = q.pack

variable {limit : Limit} {factor : ℚ}

theorem Guard.Floored.atFloor (floored : Guard.Floored p g now g') (sound : g.Sound last)
    (real : RealKey key) (told : g.Told key c) (settled : Settled p.xxh3 (g.classes, g.keyLimits)) :
    Guard.AtFloor p { g' with running := false } key c
      (g.classes.table.resolve p.xxh3 g.keyLimits.table c key).limit
      (g.node.limiter.config.floorFactor / (max g.clusterSize 1 : Nat)) := by
  obtain ⟨_, _, _, classes, keyLimits, _⟩ := floored.kept
  refine ⟨rfl, classes ▸ keyLimits ▸ settled, by rw [classes, keyLimits], floored.freshFactor, ?_⟩
  intro i own
  obtain ⟨held, was, _⟩ := floored.back sound real own
  obtain ⟨quota, gcra, _, asked, set, same⟩ := floored.held i (sound.inside held) held
  rw [Guard.resolved, told i was, was, mul_div_assoc] at asked
  refine ⟨quota, asked, ?_⟩
  dsimp only
  rw [same]
  exact AtomicGcra.setQuota_word set

theorem Guard.judge_atFloor {cls asked : UInt64} {v : Verdict} (sound : g.Sound last)
    (realAsked : RealKey asked) (h : g.judge p cls asked now = some (v, g'))
    (floor : Guard.AtFloor p g key c limit factor) (inClass : asked = key → cls = c) :
    Guard.AtFloor p g' key c limit factor := by
  obtain ⟨slot, prepared, _, _, rfl⟩ := Guard.judge_prepared sound.placed realAsked h
  have checked : (slot.check now).2.2.key = slot.key ∧
      (slot.check now).2.2.gcra.quota = slot.gcra.quota := by
    rw [KeyTable.Slot.check_eq]
    exact ⟨rfl, rfl⟩
  generalize (slot.check now).2.2 = after at checked
  obtain ⟨keeps, word⟩ := checked
  have written {i : Nat} (own : slot.key = key → ∃ q,
      quotaFor (limit.rate * factor) limit.burst = some q ∧ slot.gcra.quota = q.pack) :
      Guard.AtFloor p (g.putSlot (some i) after) key c limit factor := by
    refine ⟨floor.stopped, floor.settled, floor.resolves, floor.scales, fun j held => ?_⟩
    simp only [Guard.putSlot] at held ⊢
    by_cases same : j = i
    · subst same
      rw [Function.update_self] at held ⊢
      rw [word]
      exact own (keeps.symm.trans held)
    · rw [Function.update_of_ne same] at held ⊢
      exact floor.slots j held
  generalize v.slot = index at prepared
  cases prepared with
  | own i held => exact written fun own => floor.slots i own
  | fresh i quota shadowLimit gcra shadow absent mem free fresh set =>
    refine written fun own => ⟨quota, ?_, AtomicGcra.setQuota_word set⟩
    have same : asked = key := own
    obtain ⟨classes, keyLimits⟩ := floor.settled.mirrored
    simp only [Shared.freshQuota, Option.bind_eq_bind, Option.bind_eq_some_iff,
      Option.some.injEq, Prod.mk.injEq] at fresh
    obtain ⟨main, made, _, _, rfl, _⟩ := fresh
    rw [@Shared.freshLimit_resolve _ g.tables classes keyLimits, inClass same, same] at made
    simp only [Guard.tables, floor.resolves, floor.scales] at made
    exact made
  | overflow => exact ⟨floor.stopped, floor.settled, floor.resolves, floor.scales, floor.slots⟩

/- What is still asked of a node whose task has ended does not lift the floor. -/
theorem GuardCall.perform_atFloor {call : GuardCall} {v : Option Verdict} (sound : g.Sound last)
    (h : call.perform p g = some (v, g')) (calm : call.isChange = false)
    (floor : Guard.AtFloor p g key c limit factor) (inClass : call.InClass p g key c) :
    Guard.AtFloor p g' key c limit factor := by
  have stopped {α : Prop} (running : g.running = true) : α := by
    rw [floor.stopped] at running
    exact Bool.noConfusion running
  cases GuardCall.performs h with
  | check judged => exact Guard.judge_atFloor sound (offReserved_real _) judged floor inClass
  | setClasses | setKeyLimits => exact Bool.noConfusion calm
  | setDryRun | setGossipAuth =>
    exact ⟨floor.stopped, floor.settled, floor.resolves, floor.scales, floor.slots⟩
  | tick running | receive running | lookedUp running | leave running | crash running =>
    exact stopped running

/- A task only ends by putting every key on the floor. -/
theorem GuardCall.perform_ends {call : GuardCall} {v : Option Verdict} (sound : g.Sound last)
    (real : RealKey key) (h : call.perform p g = some (v, g')) (running : g.running = true)
    (stopped : g'.running = false) (told : g.Told key c)
    (settled : Settled p.xxh3 (g.classes, g.keyLimits)) : Guard.AtFloor p g' key c
      (g.classes.table.resolve p.xxh3 g.keyLimits.table c key).limit
      (g.node.limiter.config.floorFactor / (max g.clusterSize 1 : Nat)) := by
  have still {α : Prop} (same : g'.running = g.running) : α := by
    rw [same, running] at stopped
    exact Bool.noConfusion stopped
  cases GuardCall.performs h with
  | @check cls name _ _ _ judged =>
    unfold Guard.judge at judged
    simp only [bind, Option.bind_eq_some_iff, Option.some.injEq, Prod.mk.injEq] at judged
    obtain ⟨_, _, _, rfl⟩ := judged
    generalize (KeyTable.claim g.layout g.slots (g.hash p cls name)).2.1 = index at still
    cases index with
    | none => exact still rfl
    | some i => exact still rfl
  | setClasses | setKeyLimits | setDryRun | setGossipAuth | receive | lookedUp => exact still rfl
  | tick _ synced => exact still (Guard.sync_synced synced).kept.2.2.1
  | leave _ floored | crash _ floored =>
    have floor := (Guard.holdAtFloor_floored floored).atFloor sound real told settled
    exact ⟨rfl, floor.settled, floor.resolves, floor.scales, floor.slots⟩

theorem Guard.AtFloor.bucket (floor : Guard.AtFloor p g key c limit factor) (sound : g.Sound last)
    (real : RealKey key) {b : Gcra} (held : g.bucket key = some b) :
    quotaFor (limit.rate * factor) limit.burst = some b.quota := by
  by_cases has : ∃ i, (g.slots i).key = key
  · obtain ⟨i, own⟩ := has
    obtain ⟨q, made, word⟩ := floor.slots i own
    rw [Guard.bucket_at sound real own, AtomicGcra.bucket_of_pack word] at held
    obtain rfl := Option.some.inj held
    exact made
  · rw [Guard.bucket_absent fun i own => has ⟨i, own⟩] at held
    nomatch held

/- A step of a node at the floor: what it leaves the key is on the floor's quota, and it forgives
   nothing. -/
theorem GuardStep.entry_atFloor {step : GuardStep} {now : Nat}
    (before : Guard.AtFloor p step.before key c limit factor) (sound : step.before.Sound last)
    (after : Guard.AtFloor p step.after key c limit factor) (sound' : step.after.Sound now)
    (real : RealKey key) {most : ℚ} (le : limit.rate * factor ≤ most) (pos : 0 < most)
    (reach : oneSec / most ≤ maxInterval) :
    (step.entry p key).rate ≤ most / oneSec ∧ (step.entry p key).limit ≤ limit.burst ∧
      (step.entry p key).forgiven = 0 := by
  have quotas (b g : Gcra) (was : step.before.bucket key = some b)
      (left : step.after.bucket key = some g) : g.quota = b.quota :=
    Option.some.inj ((after.bucket sound' real left).symm.trans (before.bucket sound real was))
  have made (g : Gcra) (left : step.after.bucket key = some g) :=
    quotaFor_rate (after.bucket sound' real left) le pos reach
  simp only [entry, BucketStep.entry, bucketEntry, bucketStep]
  cases left : step.after.bucket key with
  | none =>
    have sec : (0 : ℚ) ≤ most / oneSec := by positivity
    refine ⟨sec, Nat.cast_nonneg _, ?_⟩
    cases step.before.bucket key with
    | none => rfl
    | some b => rfl
  | some g =>
    obtain ⟨rate, burst⟩ := made g left
    refine ⟨rate, by simp [burst], ?_⟩
    cases was : step.before.bucket key with
    | none => rfl
    | some b => simp [quotas b g was left]

end

section Runs
variable {p : Primitives} {g : Guard} {key c : UInt64} {last : Nat} {calls : List GuardCall}
  {steps past later : List GuardStep} {ended : GuardStep} {limit : Limit} {factor : ℚ}

structure Guard.Known (p : Primitives) (g : Guard) (key c : UInt64) (last : Nat) : Prop where
  sound : g.Sound last
  told : g.Told key c
  settled : Settled p.xxh3 (g.classes, g.keyLimits)

/- It is known all along a run, and what comes after any step of it is a run of its own. -/
theorem guardRun_known (real : RealKey key) (known : g.Known p key c last)
    (ran : guardRun p g last calls = some (past ++ ended :: later))
    (ordered : (last :: (past ++ ended :: later).map fun step => step.time).Pairwise (· ≤ ·))
    (inClass : ∀ step ∈ past ++ ended :: later, step.call.InClass p step.before key c) :
    ∃ last' rest, ended.before.Known p key c last' ∧ last' ≤ ended.time ∧
      ended.time = ended.call.time last' ∧
      ended.call.perform p ended.before = some (ended.verdict, ended.after) ∧
      guardRun p ended.after ended.time rest = some later ∧
      (ended.time :: later.map fun step => step.time).Pairwise (· ≤ ·) := by
  induction past generalizing g last calls with
  | nil =>
    cases calls with
    | nil => nomatch Option.some.inj ran
    | cons call rest =>
      obtain ⟨v, g', steps, performed, after, same⟩ := guardRun_cons ran
      obtain ⟨rfl, rfl⟩ := List.cons.inj same
      obtain ⟨late, ordered⟩ := List.pairwise_cons.mp ordered
      exact ⟨last, rest, known, late _ List.mem_cons_self, rfl, performed, after, ordered⟩
  | cons first past ih =>
    cases calls with
    | nil => nomatch Option.some.inj ran
    | cons call rest =>
      obtain ⟨v, g', steps, performed, after, same⟩ := guardRun_cons ran
      obtain ⟨rfl, rfl⟩ := List.cons.inj same
      obtain ⟨late, ordered⟩ := List.pairwise_cons.mp ordered
      have later := late _ List.mem_cons_self
      have told := GuardCall.perform_told known.sound real performed known.told
        (inClass _ List.mem_cons_self)
      exact ih ⟨GuardCall.perform_sound known.sound later performed, told,
        (GuardCall.perform_tables performed).2.1 known.settled⟩ after ordered
        fun step mem => inClass step (List.mem_cons_of_mem _ mem)

theorem guardRun_atFloor (floor : Guard.AtFloor p g key c limit factor) (sound : g.Sound last)
    (ran : guardRun p g last calls = some steps)
    (ordered : (last :: steps.map fun step => step.time).Pairwise (· ≤ ·))
    (inClass : ∀ step ∈ steps, step.call.InClass p step.before key c)
    (calm : ∀ step ∈ steps, step.call.isChange = false) : ∀ step ∈ steps, ∃ last,
      Guard.AtFloor p step.before key c limit factor ∧ step.before.Sound last ∧
      Guard.AtFloor p step.after key c limit factor ∧ step.after.Sound step.time := by
  induction calls generalizing g last steps with
  | nil =>
    obtain rfl := Option.some.inj ran
    exact fun step mem => nomatch mem
  | cons call calls ih =>
    obtain ⟨v, g', rest, performed, after, rfl⟩ := guardRun_cons ran
    rw [List.map_cons] at ordered
    obtain ⟨late, ordered⟩ := List.pairwise_cons.mp ordered
    have sound' := GuardCall.perform_sound sound (late _ List.mem_cons_self) performed
    have floor' := GuardCall.perform_atFloor sound performed (calm _ List.mem_cons_self) floor
      (inClass _ List.mem_cons_self)
    intro step mem
    rcases List.mem_cons.mp mem with rfl | mem
    · exact ⟨last, floor, sound, floor', sound'⟩
    · exact ih floor' sound' after ordered (fun step mem => inClass step (List.mem_cons_of_mem _ mem))
        (fun step mem => calm step (List.mem_cons_of_mem _ mem)) step mem

end Runs

theorem Builder.settings_classes {parse : String → Option Address} {xxh3 : String → UInt64}
    {b : Builder} {s : Settings} (taken : b.settings parse xxh3 = .ok s) :
    ∃ given, checked xxh3 given s.maxClasses = .ok s.classes := by
  unfold settings at taken
  obtain ⟨_, -, taken⟩ := bind_ok taken
  obtain ⟨_, -, taken⟩ := bind_ok taken
  obtain ⟨_, -, taken⟩ := bind_ok taken
  obtain ⟨_, -, taken⟩ := bind_ok taken
  obtain ⟨_, -, taken⟩ := bind_ok taken
  obtain ⟨_, -, taken⟩ := bind_ok taken
  obtain ⟨_, -, taken⟩ := bind_ok taken
  obtain ⟨_, -, taken⟩ := bind_ok taken
  obtain ⟨_, -, taken⟩ := bind_ok taken
  obtain ⟨_, -, taken⟩ := bind_ok taken
  obtain ⟨_, -, taken⟩ := bind_ok taken
  obtain ⟨_, -, taken⟩ := bind_ok taken
  obtain ⟨classes, named, taken⟩ := bind_ok taken
  obtain ⟨_, -, taken⟩ := bind_ok taken
  obtain ⟨_, -, taken⟩ := bind_ok taken
  obtain ⟨_, -, taken⟩ := bind_ok taken
  obtain ⟨_, -, taken⟩ := bind_ok taken
  obtain ⟨_, -, taken⟩ := bind_ok taken
  obtain ⟨_, -, taken⟩ := bind_ok taken
  obtain rfl := Except.ok.inj taken
  exact ⟨b.classes, mapError_ok named⟩

theorem Settings.guard_known {p : Primitives} {parse : String → Option Address} {b : Builder}
    {s : Settings} {rehash : UInt64 → UInt64} {seed : UInt64} {g : Guard} {key c : UInt64}
    (built : b.settings parse p.xxh3 = .ok s) (started : s.guard p rehash seed = some g)
    (real : RealKey key) : g.Known p key c 0 := by
  have sound := Settings.guard_sound started
  obtain ⟨given, named⟩ := Builder.settings_classes built
  simp only [guard, Option.bind_eq_bind, Option.bind_eq_some_iff, Option.some.injEq] at started
  obtain ⟨⟨names, node⟩, _, default, _, quota, _, rfl⟩ := started
  refine ⟨sound, fun i own => ?_, .start default given s.maxClasses s.maxKeyLimits s.classes named⟩
  have empty : emptyKey = key := own
  exact absurd (empty ▸ real) KeyTable.empty_not_real

/- The rate the node holds a limit to from the end of its task on: the cluster's floor, split between
   the members it had last counted. No rate is slower than the slowest a quota has. -/
def GuardStep.floorRate (ended : GuardStep) (limit : Limit) : ℚ :=
  max (limit.rate * (ended.before.node.limiter.config.floorFactor /
    (max ended.before.clusterSize 1 : Nat))) (oneSec / maxInterval)

theorem GuardStep.floorRate_spec (ended : GuardStep) (limit : Limit) :
    limit.rate * (ended.before.node.limiter.config.floorFactor /
      (max ended.before.clusterSize 1 : Nat)) ≤ ended.floorRate limit ∧
    0 < ended.floorRate limit ∧ oneSec / ended.floorRate limit ≤ maxInterval := by
  have longest : (0 : ℚ) < maxInterval := Nat.cast_pos.mpr (by decide)
  have sec : (0 : ℚ) < oneSec := by norm_num [oneSec]
  have slowest : (0 : ℚ) < oneSec / maxInterval := div_pos sec longest
  unfold floorRate
  generalize limit.rate * (ended.before.node.limiter.config.floorFactor /
    (max ended.before.clusterSize 1 : Nat)) = rate
  have pos := lt_max_of_lt_right (b := rate) slowest
  have reached := le_max_right rate (oneSec / maxInterval : ℚ)
  refine ⟨le_max_left _ _, pos, ?_⟩
  rw [div_le_iff₀ longest] at reached
  rw [div_le_iff₀ pos, mul_comm]
  exact reached

def GuardStep.limitOf (p : Primitives) (cls key : UInt64) (step : GuardStep) : Limit :=
  (step.before.classes.table.resolve p.xxh3 step.before.keyLimits.table cls key).limit

/- What goes on once the task has ended: the limits stay, and the key's checks have a slot, are
   enforced and leave no TAT at the end of time. -/
def GuardStep.Calm (p : Primitives) (key : UInt64) (step : GuardStep) : Prop :=
  step.call.isChange = false ∧ step.Seated p key ∧ Unsaturated (step.after.bucket key) ∧
    step.before.dryRun = false

instance (p : Primitives) (key : UInt64) (step : GuardStep) : Decidable (step.Calm p key) :=
  inferInstanceAs (Decidable (_ ∧ _ ∧ _ ∧ _))

/-- Once the background task of a node has ended, by leaving or by a crash and whatever came before,
    the node lets through of a key in any window no more than the floor of its limit is worth there
    and one burst, although its checks go on, and its slots and those it gives out later are never
    put right again. -/
theorem ended_node_holds_floor (p : Primitives) (parse : String → Option Address) (b : Builder)
    (s : Settings) (rehash : UInt64 → UInt64) (seed : UInt64) (g : Guard) (cls name : String)
    (calls : List GuardCall) (past later : List GuardStep) (ended : GuardStep) (opens closes : Nat)
    (built : b.settings parse p.xxh3 = .ok s) (started : s.guard p rehash seed = some g)
    (ran : guardRun p g 0 calls = some (past ++ ended :: later))
    (ordered : ((past ++ ended :: later).map fun step => step.time).Pairwise (· ≤ ·))
    (inClass : ∀ step ∈ past ++ ended :: later,
      step.call.InClass p step.before (g.hash p cls name) (classHash p.xxh3 cls))
    (running : ended.before.running = true) (stopped : ended.after.running = false)
    (free : Unsaturated (ended.after.bucket (g.hash p cls name)))
    (calm : ∀ step ∈ later, step.Calm p (g.hash p cls name)) (le : opens ≤ closes) :
    ((later.countP fun step => decide (opens ≤ step.time ∧ step.time ≤ closes ∧
        step.letThrough p (g.hash p cls name) = true) : Nat) : ℚ) ≤
      ended.floorRate (ended.limitOf p (classHash p.xxh3 cls) (g.hash p cls name)) / oneSec *
        (closes - opens) + (ended.limitOf p (classHash p.xxh3 cls) (g.hash p cls name)).burst := by
  have real : RealKey (g.hash p cls name) := offReserved_real _
  generalize g.hash p cls name = key at *
  obtain ⟨last, rest, known, ends, at_, performed, ran, ordered⟩ :=
    guardRun_known real (Settings.guard_known built started real) ran
      (List.pairwise_cons.mpr ⟨fun _ _ => Nat.zero_le _, ordered⟩) inClass
  have sound := GuardCall.perform_sound known.sound (at_ ▸ ends) performed
  rw [← at_] at sound
  have floor := GuardCall.perform_ends known.sound real performed running stopped known.told
    known.settled
  have run := guardRun_buckets sound real ran ordered fun step mem => (calm step mem).2.1
  have account := run.account free fun step mem => by
    obtain ⟨kept, listed, rfl⟩ := List.mem_map.mp mem
    exact (calm kept listed).2.2.1
  obtain ⟨within, pos, reach⟩ := ended.floorRate_spec (ended.limitOf p (classHash p.xxh3 cls) key)
  have slow : 0 ≤ ended.floorRate (ended.limitOf p (classHash p.xxh3 cls) key) / oneSec := by
    positivity
  have first : (ended.after.bucket key).elim 0 (fun g => 1 / (g.quota.interval : ℚ)) ≤
      ended.floorRate (ended.limitOf p (classHash p.xxh3 cls) key) / oneSec := by
    cases left : ended.after.bucket key with
    | none => exact slow
    | some b => exact (quotaFor_rate (floor.bucket sound real left) within pos reach).1
  have held : ∀ entry ∈ later.map fun step => step.entry p key,
      entry.rate ≤ ended.floorRate (ended.limitOf p (classHash p.xxh3 cls) key) / oneSec ∧
        entry.limit ≤ ((ended.limitOf p (classHash p.xxh3 cls) key).burst : ℚ) ∧
        entry.forgiven = 0 := by
    intro entry mem
    obtain ⟨step, listed, rfl⟩ := List.mem_map.mp mem
    obtain ⟨_, before, sound, after, sound'⟩ := guardRun_atFloor floor sound ran ordered
      (fun step mem => inClass step (List.mem_append_right _ (List.mem_cons_of_mem _ mem)))
      (fun step mem => (calm step mem).1) step listed
    exact GuardStep.entry_atFloor before sound after sound' real within pos reach
  have nonneg := bucketEntry_nonneg ended.time none none (ended.after.bucket key)
  rw [List.map_map] at account
  have bound := account.admitted_le_held nonneg.1 nonneg.2.1 first (Nat.cast_nonneg _) held le
  have counted : (later.countP fun step => decide (opens ≤ step.time ∧ step.time ≤ closes ∧
      step.letThrough p key = true)) =
        admittedIn opens closes (later.map fun step => step.entry p key) := by
    rw [admittedIn, List.countP_map]
    refine List.countP_congr fun step mem => ?_
    rw [step.letThrough_admitted p key (calm step mem).2.2.2]
    rfl
  rw [counted]
  exact bound

/- A node alone whose task crashes. Its limit of ten a second is held at a twentieth. -/
def soloBuilder : Builder :=
  { Builder.new with
    bind := some "10.0.0.1:7946", limit := some ((GivenLimit.new 10 .second).withBurst 2),
    hotKeys := some 1, trackedKeys := some 1 }

def parseSolo (text : String) : Option Address :=
  if text = "10.0.0.1:7946" then some (sampleAddress 1) else none

def crashedCalls : List GuardCall :=
  [.check "" "a" 5, .tick 200000000, .check "" "a" 200000001, .crash 200000002,
    .check "" "a" 300000000, .check "" "b" 300000001, .check "" "a" 4200000000]

theorem crashedCalls_run :
    ((soloBuilder.settings parseSolo plainPrimitives.xxh3).toOption.any fun s =>
      (s.guard plainPrimitives id 1).any fun g => (guardRun plainPrimitives g 0 crashedCalls).any
        fun steps => (steps.drop 3).head?.any fun ended =>
          let key := g.hash plainPrimitives "" "a"
          decide ((steps.map fun step => step.time).Pairwise (· ≤ ·)) &&
          decide (∀ step ∈ steps, step.call.InClass plainPrimitives step.before key
            (classHash plainPrimitives.xxh3 "")) &&
          (ended.before.running && !ended.after.running) &&
          decide (Unsaturated (ended.after.bucket key)) &&
          decide (∀ step ∈ (steps.drop 3).tail, step.Calm plainPrimitives key) &&
          decide (((steps.drop 3).tail.countP fun step => step.letThrough plainPrimitives key) = 2) &&
          decide (ended.floorRate (ended.limitOf plainPrimitives (classHash plainPrimitives.xxh3 "") key)
            = 1 / 2)) = true := by
  decide +kernel

theorem ended_node_holds_floor_crashed : ∃ s g past ended later,
    soloBuilder.settings parseSolo plainPrimitives.xxh3 = .ok s ∧
    s.guard plainPrimitives id 1 = some g ∧
    guardRun plainPrimitives g 0 crashedCalls = some (past ++ ended :: later) ∧
    (later.countP fun step => step.letThrough plainPrimitives (g.hash plainPrimitives "" "a")) = 2 ∧
    ((later.countP fun step => decide (300000000 ≤ step.time ∧ step.time ≤ 4200000000 ∧
        step.letThrough plainPrimitives (g.hash plainPrimitives "" "a") = true) : Nat) : ℚ) ≤
      1 / 2 / oneSec * ((4200000000 : Nat) - (300000000 : Nat)) +
        (ended.limitOf plainPrimitives (classHash plainPrimitives.xxh3 "")
          (g.hash plainPrimitives "" "a")).burst := by
  obtain ⟨s, built, ran⟩ := (Option.any_eq_true _ _).mp crashedCalls_run
  obtain ⟨g, started, ran⟩ := (Option.any_eq_true _ _).mp ran
  obtain ⟨steps, ran, checked⟩ := (Option.any_eq_true _ _).mp ran
  obtain ⟨ended, head, checked⟩ := (Option.any_eq_true _ _).mp checked
  obtain ⟨later, split⟩ := List.head?_eq_some_iff.mp head
  rw [split, List.tail_cons] at checked
  simp only [Bool.and_eq_true, decide_eq_true_eq, Bool.not_eq_true'] at checked
  obtain ⟨⟨⟨⟨⟨⟨ordered, inClass⟩, running, stopped⟩, free⟩, calm⟩, served⟩, floor⟩ := checked
  have whole : steps = steps.take 3 ++ ended :: later := by rw [← split, List.take_append_drop]
  rw [whole] at ran ordered inClass
  have bound := ended_node_holds_floor plainPrimitives parseSolo soloBuilder s id 1 g "" "a"
    crashedCalls _ later ended 300000000 4200000000 (ok_of_toOption built) started ran ordered inClass
    running stopped free calm (by decide)
  rw [floor] at bound
  exact ⟨s, g, _, ended, later, ok_of_toOption built, started, ran, served, bound⟩

end Rateguard
