import Rateguard.AtomicGcra

/- The lock-free bucket, and the one that only counts, answer as the plain one does: used by one
   thread, and by any number of threads that only check. -/
namespace Rateguard
open OptimisticUpdate (Machine Step)

/- The two words stand for a plain bucket: its quota packed, and its TAT, or one not past by the
   last time it was used at if it has none. -/
structure Gcra.Packed (g : Gcra) (quota : UInt64) (tat last : Nat) : Prop where
  word : quota = g.quota.pack
  held : ∀ tat', g.tat = some tat' → tat = tat'
  fresh : g.tat = none → tat ≤ last

theorem Gcra.Packed.new (quota : Quota) (last : Nat) : (Gcra.new quota).Packed quota.pack 0 last :=
  ⟨rfl, by simp [Gcra.new], fun _ => Nat.zero_le _⟩

namespace AtomicGcra

/- However often the swap fails for no reason, the loop does what one attempt does. -/
theorem step_eq (packed : UInt64) (now tat fails : Nat) :
    step packed now tat fails = OptimisticUpdate.apply attempt packed now tat := by
  induction fails with
  | zero =>
    simp only [step, OptimisticUpdate.apply]
    cases attempt packed now tat <;> rfl
  | succ fails ih =>
    simp only [step, OptimisticUpdate.apply] at ih ⊢
    cases decided : attempt packed now tat with
    | error denied => rfl
    | ok taken =>
      rw [decided] at ih
      exact ih

theorem rescaleFrom_eq (old new : Quota) (now seen fails : Nat) :
    rescaleFrom old new now seen fails = carryTat seen old new now := by
  induction fails with
  | zero => rfl
  | succ fails ih => exact ih

end AtomicGcra

/- A bucket without debt stays so at another quota. -/
theorem carryTat_fresh {tat now : Nat} (old new : Quota) (past : tat ≤ now) :
    carryTat tat old new now ≤ now := by
  by_cases full : tat = u64Max
  · have upper := satAdd_le now (roundToU64 ((if tat = u64Max
      then max (max (((tat - now : Nat) : ℚ) / old.tNanos) old.burst) new.burst
      else ((tat - now : Nat) : ℚ) / old.tNanos) * new.tNanos))
    simp only [carryTat]
    omega
  · have none : tat - now = 0 := by omega
    simp [carryTat, full, none, roundToU64, satAdd]

theorem Gcra.Packed.check {g : Gcra} {quota : UInt64} {tat last now : Nat}
    (packed : g.Packed quota tat last) (later : last ≤ now) :
    (OptimisticUpdate.apply attempt quota now tat).1 = (g.check now).1 ∧
      (g.check now).2.Packed quota (OptimisticUpdate.apply attempt quota now tat).2 now := by
  obtain ⟨rfl, same, fresh⟩ := packed
  have decoded := g.quota.decode_pack
  cases held : g.tat with
  | some tat' =>
    obtain rfl := same tat' held
    simp only [OptimisticUpdate.apply, attempt, decoded, Gcra.check, held, Option.getD_some]
    by_cases early : now < tat - g.quota.tauNanos
    · rw [if_pos early, if_pos early]
      exact ⟨rfl, rfl, fun _ other => Option.some.inj (held.symm.trans other),
        fun none => by simp [held] at none⟩
    · rw [if_neg early, if_neg early]
      exact ⟨rfl, rfl, fun _ other => Option.some.inj other, by simp⟩
  | none =>
    have past := fresh held
    have first : ¬ now < tat - g.quota.tauNanos := by omega
    have second : ¬ now < now - g.quota.tauNanos := by omega
    simp only [OptimisticUpdate.apply, attempt, decoded, Gcra.check, held, Option.getD_none,
      if_neg first, if_neg second]
    refine ⟨trivial, rfl, fun _ other => ?_, by simp⟩
    rw [← Option.some.inj other, Nat.max_self, Nat.max_eq_right (by omega)]

theorem Gcra.Packed.rescale {g : Gcra} {quota : UInt64} {tat last now : Nat}
    (packed : g.Packed quota tat last) (later : last ≤ now) (new : Quota) (fails : Nat) :
    (g.setQuota new now).Packed new.pack (AtomicGcra.rescale tat g.quota new now fails) now := by
  obtain ⟨rfl, same, fresh⟩ := packed
  by_cases unchanged : g.quota = new
  · subst unchanged
    rw [AtomicGcra.rescale, if_pos rfl, Gcra.setQuota, if_pos rfl]
    exact ⟨rfl, same, fun none => (fresh none).trans later⟩
  · rw [AtomicGcra.rescale, if_neg unchanged, AtomicGcra.rescaleFrom_eq, Gcra.setQuota,
      if_neg (Ne.symm unchanged)]
    cases held : g.tat with
    | some tat' =>
      rw [same tat' held]
      exact ⟨rfl, fun _ other => Option.some.inj other, by simp⟩
    | none =>
      exact ⟨rfl, by simp, fun _ => carryTat_fresh g.quota new ((fresh held).trans later)⟩

theorem Gcra.Packed.hasDebt {g : Gcra} {quota : UInt64} {tat last now : Nat}
    (packed : g.Packed quota tat last) (later : last ≤ now) :
    decide (now < tat) = g.hasDebt now := by
  cases held : g.tat with
  | some tat' => simp [Gcra.hasDebt, held, packed.held tat' held]
  | none =>
    have past := packed.fresh held
    simp only [Gcra.hasDebt, held, Option.any_none, decide_eq_false_iff_not]
    omega

inductive GcraOp where
  | check
  | setQuota (quota : Quota)
  | hasDebt

inductive GcraAnswer where
  | decided (decision : Decision)
  | changed
  | owes (debt : Bool)
  deriving DecidableEq, Repr

def Gcra.answer (g : Gcra) (now : Nat) : GcraOp → GcraAnswer × Gcra
  | .check => (.decided (g.check now).1, (g.check now).2)
  | .setQuota quota => (.changed, g.setQuota quota now)
  | .hasDebt => (.owes (g.hasDebt now), g)

def AtomicGcra.answer (a : AtomicGcra) (now fails : Nat) : GcraOp → Option (GcraAnswer × AtomicGcra)
  | .check => some (.decided (a.check now fails).1, (a.check now fails).2)
  | .setQuota quota => (a.setQuota quota now fails).map (.changed, ·)
  | .hasDebt => some (.owes (a.hasDebt now), a)

/- An operation, its time, and how often its loop fails for no reason. -/
structure Timed (α : Type) where
  now : Nat
  fails : Nat
  op : α

def Gcra.replies (g : Gcra) : List (Timed GcraOp) → List GcraAnswer
  | [] => []
  | timed :: rest => (g.answer timed.now timed.op).1 :: (g.answer timed.now timed.op).2.replies rest

def AtomicGcra.replies (a : AtomicGcra) : List (Timed GcraOp) → Option (List GcraAnswer)
  | [] => some []
  | timed :: rest => do
    let (answer, a) ← a.answer timed.now timed.fails timed.op
    let answers ← a.replies rest
    some (answer :: answers)

/- One operation, at a time not before the last. -/
theorem AtomicGcra.answer_refines {g : Gcra} {a : AtomicGcra} {last now : Nat}
    (packed : g.Packed a.quota a.tat last) (later : last ≤ now) (fails : Nat) (op : GcraOp) :
    ∃ a', a.answer now fails op = some ((g.answer now op).1, a') ∧
      (g.answer now op).2.Packed a'.quota a'.tat now := by
  cases op with
  | check =>
    obtain ⟨same, after⟩ := packed.check later
    refine ⟨(a.check now fails).2, ?_, ?_⟩
    · simp only [answer, Gcra.answer, AtomicGcra.check, step_eq, same]
    · simp only [AtomicGcra.check, step_eq]
      exact after
  | setQuota quota =>
    by_cases unchanged : a.quota = quota.pack
    · have same : quota = g.quota := Quota.pack_inj (unchanged.symm.trans packed.word)
      refine ⟨a, ?_, ?_⟩
      · rw [answer, AtomicGcra.setQuota, if_pos unchanged]
        rfl
      · rw [Gcra.answer, Gcra.setQuota, if_pos same]
        exact ⟨packed.word, packed.held, fun none => (packed.fresh none).trans later⟩
    · refine ⟨⟨quota.pack, rescale a.tat g.quota quota now fails⟩, ?_, packed.rescale later quota fails⟩
      rw [answer, AtomicGcra.setQuota, if_neg unchanged, packed.word, Quota.unpack_pack]
      rfl
  | hasDebt =>
    refine ⟨a, ?_, packed.word, packed.held, fun none => (packed.fresh none).trans later⟩
    rw [answer, AtomicGcra.hasDebt, packed.hasDebt later]
    rfl

theorem AtomicGcra.replies_refine {g : Gcra} {a : AtomicGcra} {last : Nat} {ops : List (Timed GcraOp)}
    (packed : g.Packed a.quota a.tat last) (start : ∀ timed ∈ ops, last ≤ timed.now)
    (ordered : ops.Pairwise (·.now ≤ ·.now)) : a.replies ops = some (g.replies ops) := by
  induction ops generalizing g a last with
  | nil => rfl
  | cons timed rest ih =>
    obtain ⟨a', answered, after⟩ :=
      a.answer_refines packed (start timed List.mem_cons_self) timed.fails timed.op
    rw [List.pairwise_cons] at ordered
    have others := ih after ordered.1 ordered.2
    simp only [replies, answered, others, bind, Option.bind_some]
    rfl

inductive ShadowOp where
  | set (quota : Option Quota)
  | check
  | reset

def shadowAnswer (shadow : Option Gcra) (now : Nat) : ShadowOp → Option Decision × Option Gcra
  | .set none | .reset => (none, none)
  | .set (some quota) =>
    (none, some (match shadow with
      | some g => g.setQuota quota now
      | none => Gcra.new quota))
  | .check => (shadow.map fun g => (g.check now).1, shadow.map fun g => (g.check now).2)

def ShadowGcra.answer (s : ShadowGcra) (now fails : Nat) :
    ShadowOp → Option (Option Decision × ShadowGcra)
  | .set quota => (s.set quota now fails).map (none, ·)
  | .check => some (s.check now fails)
  | .reset => some (none, s.reset)

def shadowReplies (shadow : Option Gcra) : List (Timed ShadowOp) → List (Option Decision)
  | [] => []
  | timed :: rest => (shadowAnswer shadow timed.now timed.op).1 ::
      shadowReplies (shadowAnswer shadow timed.now timed.op).2 rest

def ShadowGcra.replies (s : ShadowGcra) : List (Timed ShadowOp) → Option (List (Option Decision))
  | [] => some []
  | timed :: rest => do
    let (answer, s) ← s.answer timed.now timed.fails timed.op
    let answers ← s.replies rest
    some (answer :: answers)

/- Off is 0 in both words. -/
def ShadowGcra.Packed (s : ShadowGcra) (last : Nat) : Option Gcra → Prop
  | some g => g.Packed s.quota s.tat last
  | none => s = ⟨0, 0⟩

theorem ShadowGcra.answer_refines {shadow : Option Gcra} {s : ShadowGcra} {last now : Nat}
    (packed : s.Packed last shadow) (later : last ≤ now) (fails : Nat) (op : ShadowOp) :
    ∃ s', s.answer now fails op = some ((shadowAnswer shadow now op).1, s') ∧
      s'.Packed now (shadowAnswer shadow now op).2 := by
  cases op with
  | reset => exact ⟨⟨0, 0⟩, rfl, rfl⟩
  | check =>
    cases shadow with
    | none =>
      obtain rfl : s = ⟨0, 0⟩ := packed
      exact ⟨⟨0, 0⟩, rfl, rfl⟩
    | some g =>
      have packed : g.Packed s.quota s.tat last := packed
      have on : s.quota ≠ 0 := packed.word ▸ g.quota.pack_ne_zero
      obtain ⟨same, after⟩ := packed.check later
      refine ⟨⟨s.quota, (OptimisticUpdate.apply attempt s.quota now s.tat).2⟩, ?_, after⟩
      simp only [answer, ShadowGcra.check, if_neg on, AtomicGcra.step_eq, same, shadowAnswer,
        Option.map_some]
  | set quota =>
    cases quota with
    | none =>
      refine ⟨⟨0, 0⟩, ?_, rfl⟩
      cases shadow with
      | none =>
        obtain rfl : s = ⟨0, 0⟩ := packed
        rfl
      | some g =>
        have packed : g.Packed s.quota s.tat last := packed
        have on : s.quota ≠ 0 := packed.word ▸ g.quota.pack_ne_zero
        simp only [answer, ShadowGcra.set, Option.map_none, Option.getD_none, if_neg on]
        rfl
    | some new =>
      cases shadow with
      | none =>
        obtain rfl : s = ⟨0, 0⟩ := packed
        refine ⟨⟨new.pack, 0⟩, ?_, Gcra.Packed.new new now⟩
        have apart : ¬ (0 : UInt64) = new.pack := Ne.symm new.pack_ne_zero
        simp only [answer, ShadowGcra.set, Option.map_some, Option.getD_some, if_neg apart]
        rfl
      | some g =>
        have packed : g.Packed s.quota s.tat last := packed
        have on : s.quota ≠ 0 := packed.word ▸ g.quota.pack_ne_zero
        by_cases unchanged : s.quota = new.pack
        · have same : new = g.quota := Quota.pack_inj (unchanged.symm.trans packed.word)
          refine ⟨s, ?_, ?_⟩
          · simp only [answer, ShadowGcra.set, Option.map_some, Option.getD_some, if_pos unchanged]
            rfl
          · simp only [shadowAnswer, Gcra.setQuota, if_pos same]
            exact ⟨packed.word, packed.held, fun none => (packed.fresh none).trans later⟩
        · refine ⟨⟨new.pack, AtomicGcra.rescale s.tat g.quota new now fails⟩, ?_,
            packed.rescale later new fails⟩
          have old : Quota.unpack s.quota = some g.quota := by rw [packed.word, Quota.unpack_pack]
          simp only [answer, ShadowGcra.set, Option.map_some, Option.getD_some, if_neg unchanged,
            if_pos on, old, bind, Option.bind_some]
          rfl

theorem ShadowGcra.replies_refine {shadow : Option Gcra} {s : ShadowGcra} {last : Nat}
    {ops : List (Timed ShadowOp)} (packed : s.Packed last shadow)
    (start : ∀ timed ∈ ops, last ≤ timed.now) (ordered : ops.Pairwise (·.now ≤ ·.now)) :
    s.replies ops = some (shadowReplies shadow ops) := by
  induction ops generalizing shadow s last with
  | nil => rfl
  | cons timed rest ih =>
    obtain ⟨s', answered, after⟩ :=
      s.answer_refines packed (start timed List.mem_cons_self) timed.fails timed.op
    rw [List.pairwise_cons] at ordered
    have others := ih after ordered.1 ordered.2
    simp only [replies, answered, others, bind, Option.bind_some]
    rfl

/- No time has passed for a bucket whose TAT is 0 while it has none. -/
theorem Gcra.packed_zero (g : Gcra) : g.Packed g.quota.pack (g.tat.getD 0) 0 :=
  ⟨rfl, fun _ held => by rw [held, Option.getD_some], fun none => by rw [none, Option.getD_none]⟩

theorem Gcra.check_tat (g : Gcra) (now : Nat) : (g.check now).2.tat.isSome := by
  unfold Gcra.check
  dsimp only
  split
  · rename_i early
    cases held : g.tat with
    | some tat => rfl
    | none =>
      rw [held, Option.getD_none] at early
      omega
  · rfl

/- Checks one after another, at any times. -/
def Gcra.checks (g : Gcra) : List Nat → List Decision
  | [] => []
  | now :: rest => (g.check now).1 :: (g.check now).2.checks rest

theorem Gcra.replay_checks (g : Gcra) (times : List Nat) :
    (OptimisticUpdate.replay attempt g.quota.pack times (g.tat.getD 0)).1 = g.checks times := by
  induction times generalizing g with
  | nil => rfl
  | cons now rest ih =>
    have quota : (g.check now).2.quota = g.quota := by
      unfold Gcra.check
      dsimp only
      split <;> rfl
    have once : OptimisticUpdate.apply attempt g.quota.pack now (g.tat.getD 0) =
        ((g.check now).1, (g.check now).2.tat.getD 0) := by
      obtain ⟨same, after⟩ := g.packed_zero.check (Nat.zero_le now)
      obtain ⟨tat, held⟩ := Option.isSome_iff_exists.mp (g.check_tat now)
      rw [Prod.ext_iff]
      exact ⟨same, by rw [held, after.held tat held, Option.getD_some]⟩
    have later := ih (g.check now).2
    rw [quota] at later
    simp only [OptimisticUpdate.replay, checks, once, later]

/-- The lock-free bucket used by one thread answers every check, change of quota and question
    for debt, at times that never go back, as the plain one; the shadow answers as a plain one
    made when it was last switched on; and any number of threads that check one bucket are
    answered as the plain one answers the same checks in the order they took effect, each
    thread with the answers its own checks took effect with. -/
theorem atomic_refines_plain :
    (∀ (quota : Quota) (ops : List (Timed GcraOp)), ops.Pairwise (·.now ≤ ·.now) →
      (AtomicGcra.new quota).replies ops = some ((Gcra.new quota).replies ops)) ∧
    (∀ ops : List (Timed ShadowOp), ops.Pairwise (·.now ≤ ·.now) →
      ShadowGcra.new.replies ops = some (shadowReplies none ops)) ∧
    ∀ (ι : Type) [DecidableEq ι] (g : Gcra) (m : Machine ι UInt64 Nat Nat Decision),
      Relation.ReflTransGen (Step attempt) (Machine.start g.quota.pack (g.tat.getD 0)) m →
      g.checks (m.effects.map (·.2.1)) = m.effects.map (·.2.2) ∧
        ∀ i, m.effects.filter (·.1 = i) =
          m.returns.filter (·.1 = i) ++ (m.threads i).pending i := by
  refine ⟨fun quota ops ordered => ?_, fun ops ordered => ?_, fun ι _ g m run => ?_⟩
  · exact AtomicGcra.replies_refine (Gcra.Packed.new quota 0) (fun _ _ => Nat.zero_le _) ordered
  · exact @ShadowGcra.replies_refine none _ 0 ops rfl (fun _ _ => Nat.zero_le _) ordered
  · have linear := OptimisticUpdate.linearizable run
    refine ⟨?_, linear.returned⟩
    rw [← g.replay_checks, linear.replayed]

/- Two threads read a bucket of one, the first swaps, and the second fails to and is refused. -/
theorem contended_run : ∃ m : Machine Bool UInt64 Nat Nat Decision,
    Relation.ReflTransGen (Step attempt)
      (Machine.start (Quota.perMilli 1 (by decide) (by decide)).pack 0) m ∧
    m.effects = [(true, 0, .allow), (false, 0, .deny 1000000)] ∧
    m.returns = [(false, 0, .deny 1000000)] := by
  have first := Relation.ReflTransGen.refl.tail
    (@Step.enter Bool UInt64 Nat Nat Decision attempt _
      (Machine.start (Quota.perMilli 1 (by decide) (by decide)).pack 0) true 0 rfl)
  have second := (first.tail (Step.load _ true 0 rfl)).tail (Step.read _ true 0 _ rfl)
  have third := (second.tail (Step.enter _ false 0 rfl)).tail (Step.load _ false 0 rfl)
  have fourth := (third.tail (Step.read _ false 0 _ rfl)).tail
    (Step.swap _ true 0 _ .allow 1000000 rfl rfl)
  have fifth := (fourth.tail (Step.fail _ false 0 _ _ rfl)).tail
    (Step.leave _ false 0 (.deny 1000000) rfl)
  exact ⟨_, fifth, rfl, rfl⟩

theorem atomic_refines_plain_burst : ∃ quota, Quota.new 1000 1 = some quota ∧
    (AtomicGcra.new quota).replies [⟨0, 1, .check⟩, ⟨5, 0, .check⟩, ⟨7, 2, .hasDebt⟩] =
      some ((Gcra.new quota).replies [⟨0, 1, .check⟩, ⟨5, 0, .check⟩, ⟨7, 2, .hasDebt⟩]) ∧
    ShadowGcra.new.replies [⟨0, 0, .check⟩, ⟨1, 0, .set (some quota)⟩, ⟨1, 3, .check⟩,
        ⟨2, 1, .check⟩, ⟨3, 0, .reset⟩, ⟨4, 0, .check⟩] =
      some (shadowReplies none [⟨0, 0, .check⟩, ⟨1, 0, .set (some quota)⟩, ⟨1, 3, .check⟩,
        ⟨2, 1, .check⟩, ⟨3, 0, .reset⟩, ⟨4, 0, .check⟩]) ∧
    ∃ m : Machine Bool UInt64 Nat Nat Decision,
      m.effects = [(true, 0, .allow), (false, 0, .deny 1000000)] ∧
      m.returns = [(false, 0, .deny 1000000)] ∧
      (Gcra.new quota).checks (m.effects.map (·.2.1)) = m.effects.map (·.2.2) ∧
      ∀ i, m.effects.filter (·.1 = i) = m.returns.filter (·.1 = i) ++ (m.threads i).pending i := by
  obtain ⟨m, run, effects, returns⟩ := contended_run
  refine ⟨.perMilli 1 (by decide) (by decide), by decide +kernel,
    atomic_refines_plain.1 _ _ (by simp), atomic_refines_plain.2.1 _ (by simp), m, effects,
    returns, ?_⟩
  exact atomic_refines_plain.2.2 Bool (Gcra.new (.perMilli 1 (by decide) (by decide))) m run

end Rateguard
