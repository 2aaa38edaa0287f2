import Rateguard.FleetAdmission
import Rateguard.GuardRuns

/- A key with a slot of its own is on a bucket of its own: whatever else the node does, and although
   the slot is freed once the key is forgotten and may be taken by another. -/
namespace Rateguard
open KeyTable (Slots Layout RealKey emptyKey)

namespace Guard
variable {p : Primitives} {g g' : Guard} {key : UInt64} {now last : Nat}

def bucket (g : Guard) (key : UInt64) : Option Gcra :=
  (g.layout.find g.slots key).bind fun slot => (g.slots slot).gcra.bucket

theorem bucket_at (sound : g.Sound last) (real : RealKey key) {i : Nat}
    (held : (g.slots i).key = key) : g.bucket key = (g.slots i).gcra.bucket := by
  rw [bucket, (sound.placed.find_iff real).mpr held, Option.bind_some]

theorem bucket_absent (absent : ∀ i, (g.slots i).key ≠ key) : g.bucket key = none := by
  have none : g.layout.find g.slots key = none :=
    List.find?_eq_none.mpr fun i _ => by simpa using absent i
  rw [bucket, none, Option.bind_none]

theorem bucket_same (sound : g.Sound last) (sound' : g'.Sound now) (real : RealKey key)
    (same : ∀ i, (g.slots i).key = key ∨ (g'.slots i).key = key →
      (g'.slots i).key = (g.slots i).key ∧ (g'.slots i).gcra = (g.slots i).gcra) :
    g'.bucket key = g.bucket key := by
  by_cases held : ∃ i, (g.slots i).key = key
  · obtain ⟨i, held⟩ := held
    obtain ⟨own, gcra⟩ := same i (.inl held)
    rw [bucket_at sound real held, bucket_at sound' real (own.trans held), gcra]
  · have absent : ∀ i, (g.slots i).key ≠ key := fun i own => held ⟨i, own⟩
    rw [bucket_absent absent, bucket_absent fun i own => absent i ((same i (.inr own)).1 ▸ own)]

/- Slots put on a quota or freed each do so to the bucket of their key. -/
theorem bucket_requoted (newKey : Quota) (sound : g.Sound last) (sound' : g'.Sound now)
    (real : RealKey key)
    (held : ∀ i, RealKey (g.slots i).key → ∃ slot, slot.key = (g.slots i).key ∧
      slot.gcra = (g.slots i).gcra ∧ Requoted newKey now slot (g'.slots i))
    (free : ∀ i, ¬ RealKey (g.slots i).key → (g'.slots i).key = (g.slots i).key) :
    Touches now (g.bucket key) none (g'.bucket key) := by
  have back {i : Nat} (own : (g'.slots i).key = key) : (g.slots i).key = key := by
    by_cases unheld : RealKey (g.slots i).key
    · obtain ⟨slot, same, _, requoted⟩ := held i unheld
      generalize g'.slots i = slot' at *
      cases requoted with
      | put quota gcra shadow set => exact same.symm.trans own
      | freed =>
        have empty : emptyKey = key := own
        exact absurd (empty ▸ real) KeyTable.empty_not_real
    · exact (free i unheld).symm.trans own
  by_cases has : ∃ i, (g.slots i).key = key
  · obtain ⟨i, own⟩ := has
    obtain ⟨q, word⟩ := (sound.slots i).word
    have was : g.bucket key = some ⟨q, some (g.slots i).gcra.tat⟩ := by
      rw [bucket_at sound real own, AtomicGcra.bucket_of_pack word]
    obtain ⟨slot, same, gcras, requoted⟩ := held i (own.symm ▸ real)
    rw [was]
    generalize after : g'.slots i = slot' at requoted
    cases requoted with
    | put quota gcra shadow set =>
      rw [gcras] at set
      have still : (g'.slots i).key = key := by
        rw [after]
        exact same.trans own
      have left : g'.bucket key = gcra.bucket := by rw [bucket_at sound' real still, after]
      rw [left, (AtomicGcra.setQuota_bucket word set).2]
      exact .setQuota _ quota
    | freed idle =>
      rw [bucket_absent fun j found => ?_]
      · refine .forget _ ?_
        rw [gcras] at idle
        exact idle
      · have first : j = i := sound.placed.sole i j (own.symm ▸ real) ((back found).trans own.symm)
        rw [first, after] at found
        have empty : emptyKey = key := found
        exact KeyTable.empty_not_real (empty ▸ real)
  · have absent : ∀ i, (g.slots i).key ≠ key := fun i own => has ⟨i, own⟩
    rw [bucket_absent absent, bucket_absent fun i own => absent i (back own)]
    exact .nothing none

theorem sync_touches (sound : g.Sound last) (later : last ≤ now) (real : RealKey key)
    (h : g.sync p now = some g') : Touches now (g.bucket key) none (g'.bucket key) := by
  have synced := sync_synced h
  refine bucket_requoted g'.freeQuota sound (synced.sound sound later) real (fun i held => ?_) fun i free => ?_
  · exact ⟨(g.slots i).takeCounts.2, rfl, rfl,
      (requoteSlot_requoted (synced.held i (sound.inside held) held)).1⟩
  · rcases synced.free i free with same | ⟨_, _, same⟩
    · rw [same]
    · rw [same]

theorem holdAtFloor_touches (sound : g.Sound last) (later : last ≤ now) (real : RealKey key)
    (h : g.holdAtFloor p now = some g') : Touches now (g.bucket key) none (g'.bucket key) := by
  have floored := holdAtFloor_floored h
  refine bucket_requoted g'.freeQuota sound (floored.sound sound later) real
    (fun i held => ?_) fun i free => ?_
  · obtain ⟨quota, gcra, shadow, _, set, same⟩ := floored.held i (sound.inside held) held
    exact ⟨g.slots i, rfl, rfl, same ▸ .put quota gcra shadow set⟩
  · rcases floored.free i free with same | ⟨_, _, same⟩
    · rw [same]
    · rw [same]

/- A check touches the bucket of its key, which has a slot, and of no other. -/
theorem judge_touches {cls asked : UInt64} {v : Verdict} (sound : g.Sound last) (later : last ≤ now)
    (real : RealKey key) (realAsked : RealKey asked)
    (h : g.judge p cls asked now = some (v, g')) (seated : asked = key → v.slot.isSome) :
    Touches now (g.bucket key) (if asked = key then some v.decided else none) (g'.bucket key) := by
  have sound' := judge_sound sound later realAsked h
  obtain ⟨slot, prepared, decided, _, rfl⟩ := judge_prepared sound.placed realAsked h
  have written : (slot.check now).2.2.key = slot.key ∧
      (slot.check now).2.2.gcra = (slot.gcra.check now 0).2 ∧
      (slot.check now).1 = (slot.gcra.check now 0).1 := by
    rw [KeyTable.Slot.check_eq]
    exact ⟨rfl, rfl, rfl⟩
  obtain ⟨keeps, moves, decides⟩ := written
  rw [decides] at decided
  generalize (slot.check now).2.2 = after at keeps moves sound'
  have others {i : Nat} (unasked : asked ≠ key) (own : after.key = asked)
      (unheld : (g.slots i).key ≠ key) (sound' : (g.putSlot (some i) after).Sound now) :
      (g.putSlot (some i) after).bucket key = g.bucket key := by
    refine bucket_same sound sound' real fun j has => ?_
    have apart : j ≠ i := by
      rintro rfl
      rcases has with has | has
      · exact unheld has
      · simp only [putSlot, Function.update_self] at has
        exact unasked (own.symm.trans has)
    simp only [putSlot, Function.update_of_ne apart, and_self]
  generalize v.slot = index at prepared seated sound'
  cases prepared with
  | own i held =>
    have own : after.key = asked := keeps.trans held
    by_cases same : asked = key
    · subst same
      obtain ⟨q, word⟩ := (sound.slots i).word
      have still : ((g.putSlot (some i) after).slots i).key = asked := by
        simp only [putSlot, Function.update_self]
        exact own
      rw [if_pos rfl, bucket_at sound real held, bucket_at sound' real still, decided]
      simp only [putSlot, Function.update_self, moves]
      obtain ⟨answer, _, left⟩ := @AtomicGcra.check_bucket _ _ now 0 word
      rw [AtomicGcra.bucket_of_pack word]
      have checks : ((g.slots i).countAttempt.told cls).gcra = (g.slots i).gcra := rfl
      rw [checks, answer, left]
      exact .check _
    · rw [if_neg same, others same own (fun own => same (held.symm.trans own)) sound']
      exact .nothing _
  | fresh i quota limit gcra shadow absent mem free fresh set =>
    have own : after.key = asked := keeps
    by_cases same : asked = key
    · subst same
      obtain ⟨q, word⟩ := (sound.slots i).word
      have past := ((sound.slots i).free (free ▸ KeyTable.empty_not_real)).2.2.2.trans later
      have idle : (Gcra.mk quota (some gcra.tat)).hasDebt now = false := by
        have := AtomicGcra.setQuota_past word past set
        simp only [Gcra.hasDebt, Option.any_some, decide_eq_false_iff_not]
        omega
      have still : ((g.putSlot (some i) after).slots i).key = asked := by
        simp only [putSlot, Function.update_self]
        exact own
      obtain ⟨answer, _, left⟩ := @AtomicGcra.check_bucket _ _ now 0
        (AtomicGcra.setQuota_word set)
      have checks : ((g.slots i).countAttempt.given asked cls gcra shadow).gcra = gcra := rfl
      rw [if_pos rfl, bucket_absent absent, bucket_at sound' real still, decided]
      simp only [putSlot, Function.update_self, moves]
      rw [checks, answer, left, Gcra.check_idle idle]
      have first := @Touches.first now quota
      rw [Gcra.check_idle (show (Gcra.new quota).hasDebt now = false from rfl)] at first
      exact first
    · have unheld : (g.slots i).key ≠ key := fun own =>
        KeyTable.empty_not_real (free ▸ own ▸ real)
      rw [if_neg same, others same own unheld sound']
      exact .nothing _
  | overflow absent =>
    by_cases same : asked = key
    · exact Bool.noConfusion (seated same)
    · rw [if_neg same]
      exact .nothing _

end Guard

def GuardCall.asksFor (p : Primitives) (g : Guard) (key : UInt64) : GuardCall → Bool
  | .check cls name _ => g.hash p cls name == key
  | _ => false

namespace GuardStep
variable (p : Primitives) (key : UInt64) (step : GuardStep)

def answer : Option Decision :=
  if step.call.asksFor p step.before key then step.verdict.map (·.decided) else none

def Seated : Prop :=
  step.call.asksFor p step.before key = true → step.verdict.any (·.slot.isSome) = true

instance : Decidable (step.Seated p key) := inferInstanceAs (Decidable (_ → _))

def bucketStep : BucketStep where
  time := step.time
  before := step.before.bucket key
  answer := step.answer p key
  after := step.after.bucket key

end GuardStep

section Runs
variable {p : Primitives} {g g' : Guard} {key : UInt64} {last : Nat}

theorem GuardCall.perform_touches {call : GuardCall} {v : Option Verdict} {time : Nat}
    (sound : g.Sound last) (later : last ≤ call.time last) (real : RealKey key)
    (h : call.perform p g = some (v, g'))
    (seated : GuardStep.Seated p key ⟨g, call, v, g', time⟩) :
    Touches (call.time last) (g.bucket key) (GuardStep.answer p key ⟨g, call, v, g', time⟩)
      (g'.bucket key) := by
  have nothing (layout : g'.layout = g.layout) (slots : g'.slots = g.slots) :
      Touches (call.time last) (g.bucket key) none (g'.bucket key) := by
    rw [Guard.bucket, Guard.bucket, layout, slots]
    exact .nothing _
  cases GuardCall.performs h with
  | check judged =>
    have touches := Guard.judge_touches sound later real (offReserved_real _) judged fun asked => by
      have own := seated (beq_iff_eq.mpr asked)
      simpa using own
    simp only [GuardStep.answer, asksFor, beq_iff_eq, Option.map_some]
    exact touches
  | setClasses | setKeyLimits | setDryRun | setGossipAuth | receive | lookedUp =>
    exact nothing rfl rfl
  | tick _ synced => exact Guard.sync_touches sound later real synced
  | leave _ floored | crash _ floored =>
    have touches := Guard.holdAtFloor_touches sound later real floored
    exact touches

theorem guardRun_buckets {calls : List GuardCall} {steps : List GuardStep} (sound : g.Sound last)
    (real : RealKey key) (ran : guardRun p g last calls = some steps)
    (ordered : (last :: steps.map fun step => step.time).Pairwise (· ≤ ·))
    (seated : ∀ step ∈ steps, step.Seated p key) :
    BucketRun last (g.bucket key) (steps.map fun step => step.bucketStep p key) := by
  induction calls generalizing g last steps with
  | nil =>
    obtain rfl := Option.some.inj ran
    exact .done ..
  | cons call calls ih =>
    obtain ⟨v, g', rest, performed, after, rfl⟩ := guardRun_cons ran
    rw [List.map_cons] at ordered
    obtain ⟨late, ordered⟩ := List.pairwise_cons.mp ordered
    have later := late _ List.mem_cons_self
    have touches := GuardCall.perform_touches sound later real performed
      (seated _ List.mem_cons_self)
    exact @BucketRun.step last (GuardStep.bucketStep p key ⟨g, call, v, g', call.time last⟩) _ later
      touches (ih (GuardCall.perform_sound sound later performed) after ordered
        fun step mem => seated step (List.mem_cons_of_mem _ mem))

theorem Settings.guard_bucket {s : Settings} {rehash : UInt64 → UInt64} {seed : UInt64}
    (started : s.guard p rehash seed = some g) (real : RealKey key) : g.bucket key = none := by
  simp only [guard, Option.bind_eq_bind, Option.bind_eq_some_iff, Option.some.injEq] at started
  obtain ⟨⟨names, node⟩, _, default, _, quota, _, rfl⟩ := started
  refine Guard.bucket_absent fun i own => ?_
  have empty : emptyKey = key := own
  exact KeyTable.empty_not_real (empty ▸ real)

/-- A key whose every check finds it a slot gets, whatever else the node is asked and does, the
    answers of one bucket of its own, never freed, put by each call on the quota its slot then
    has. -/
theorem guard_keys_are_buckets (p : Primitives) (s : Settings) (rehash : UInt64 → UInt64)
    (seed : UInt64) (g : Guard) (key : UInt64) (calls : List GuardCall) (steps : List GuardStep)
    (quota : Quota) (real : RealKey key) (started : s.guard p rehash seed = some g)
    (ran : guardRun p g 0 calls = some steps)
    (ordered : (steps.map fun step => step.time).Pairwise (· ≤ ·))
    (seated : ∀ step ∈ steps, step.Seated p key) :
    (steps.map fun step => step.bucketStep p key).filterMap BucketStep.answered =
      (Gcra.new quota).runAnswers
        ((steps.map fun step => step.bucketStep p key).flatMap BucketStep.calls) := by
  have run := guardRun_buckets (Settings.guard_sound started) real ran
    (List.pairwise_cons.mpr ⟨fun time _ => Nat.zero_le time, ordered⟩) seated
  refine run.answers ?_
  rw [Settings.guard_bucket started real]
  exact .idle rfl

end Runs

/- A key is spent and denied, its slot is freed once it is forgotten and goes to another, and it
   starts again in another slot before the task crashes. -/
def freedCalls : List GuardCall :=
  [.check "" "a" 5, .check "" "a" 6, .check "" "a" 7, .tick 200000000, .tick 1000000000,
    .tick 2000000000, .tick 3000000000, .check "" "b" 3000000001, .check "" "a" 3000000002,
    .crash 3000000003, .check "" "a" 3000000004]

theorem freedCalls_run : ((smallSettings.guard plainPrimitives id 1).any fun g =>
    (guardRun plainPrimitives g 0 freedCalls).any fun steps =>
      decide ((steps.map fun step => step.time).Pairwise (· ≤ ·)) &&
        decide (∀ step ∈ steps, step.Seated plainPrimitives (g.hash plainPrimitives "" "a")) &&
        decide (∀ step ∈ steps, Unsaturated (step.after.bucket (g.hash plainPrimitives "" "a")) ∧
          step.before.dryRun = false) &&
        decide (∀ step ∈ steps,
          (step.bucketStep plainPrimitives (g.hash plainPrimitives "" "a")).entry.rate ≤
            1 / 200000000) &&
        steps.any fun step => (step.before.bucket (g.hash plainPrimitives "" "a")).isSome &&
          (step.after.bucket (g.hash plainPrimitives "" "a")).isNone) = true := by
  decide +kernel

theorem guard_keys_are_buckets_freed : ∃ g steps quota,
    smallSettings.guard plainPrimitives id 1 = some g ∧
    guardRun plainPrimitives g 0 freedCalls = some steps ∧
    (steps.any fun step => (step.before.bucket (g.hash plainPrimitives "" "a")).isSome &&
      (step.after.bucket (g.hash plainPrimitives "" "a")).isNone) = true ∧
    (steps.map fun step => step.bucketStep plainPrimitives (g.hash plainPrimitives "" "a")).filterMap
        BucketStep.answered =
      (Gcra.new quota).runAnswers ((steps.map fun step =>
        step.bucketStep plainPrimitives (g.hash plainPrimitives "" "a")).flatMap BucketStep.calls) := by
  obtain ⟨g, started, ran⟩ := (Option.any_eq_true _ _).mp freedCalls_run
  obtain ⟨steps, ran, checked⟩ := (Option.any_eq_true _ _).mp ran
  simp only [Bool.and_eq_true, decide_eq_true_eq] at checked
  obtain ⟨⟨⟨⟨ordered, seated⟩, _⟩, _⟩, freed⟩ := checked
  exact ⟨g, steps, onePerMilli, started, ran, freed, guard_keys_are_buckets plainPrimitives
    smallSettings id 1 g _ freedCalls steps onePerMilli (offReserved_real _) started ran ordered seated⟩

end Rateguard
