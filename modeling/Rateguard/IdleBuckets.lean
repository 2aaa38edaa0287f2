import Rateguard.Limiter
import Rateguard.AtomicRefines

/- A bucket without debt is as good as a fresh one: forgetting it loses nothing. -/
namespace Rateguard

inductive BucketQuery where
  | check
  | setQuota (quota : Quota)
  | hasDebt
  | retryAfter

inductive BucketReply where
  | decided (decision : Decision)
  | changed
  | owes (debt : Bool)
  | waits (time : Option Nat)
  deriving DecidableEq, Repr

def Gcra.reply (g : Gcra) (now : Nat) : BucketQuery → BucketReply × Gcra
  | .check => (.decided (g.check now).1, (g.check now).2)
  | .setQuota quota => (.changed, g.setQuota quota now)
  | .hasDebt => (.owes (g.hasDebt now), g)
  | .retryAfter => (.waits (g.retryAfter now), g)

def Gcra.tells (g : Gcra) : List (Nat × BucketQuery) → List BucketReply
  | [] => []
  | (now, query) :: rest => (g.reply now query).1 :: (g.reply now query).2.tells rest

/- Buckets that nothing asked from last on tells apart: on one quota, with one TAT unless
   neither has debt. -/
structure Gcra.Alike (last : Nat) (g h : Gcra) : Prop where
  quota : g.quota = h.quota
  tat : g.tat = h.tat ∨ g.hasDebt last = false ∧ h.hasDebt last = false

theorem Gcra.hasDebt_later {g : Gcra} {last now : Nat} (idle : g.hasDebt last = false)
    (later : last ≤ now) : g.hasDebt now = false := by
  unfold Gcra.hasDebt at idle ⊢
  cases held : g.tat with
  | none => rfl
  | some tat =>
    rw [held] at idle
    simp only [Option.any_some, decide_eq_false_iff_not] at idle ⊢
    omega

/- Without debt a check is admitted, and counts from its own time on. -/
theorem Gcra.check_idle {g : Gcra} {now : Nat} (idle : g.hasDebt now = false) :
    g.check now = (.allow, ⟨g.quota, some (satAdd now g.quota.tNanos)⟩) := by
  have past : g.tat.getD now ≤ now := by
    unfold Gcra.hasDebt at idle
    cases held : g.tat with
    | none => exact Nat.le_refl _
    | some tat =>
      rw [held] at idle
      simpa using idle
  unfold Gcra.check
  dsimp only
  rw [if_neg (by omega), Nat.max_eq_right past]

theorem Gcra.setQuota_idle {g : Gcra} {now : Nat} (idle : g.hasDebt now = false) (quota : Quota) :
    (g.setQuota quota now).quota = quota ∧ (g.setQuota quota now).hasDebt now = false := by
  unfold Gcra.setQuota
  split
  · rename_i same
    exact ⟨same.symm, idle⟩
  · split
    · rename_i tat held
      refine ⟨rfl, ?_⟩
      have past : tat ≤ now := by simpa [Gcra.hasDebt, held] using idle
      have fresh := carryTat_fresh g.quota quota past
      simpa [Gcra.hasDebt] using fresh
    · exact ⟨rfl, rfl⟩

theorem Gcra.retryAfter_idle {g : Gcra} {now : Nat} (idle : g.hasDebt now = false) :
    g.retryAfter now = none := by
  unfold Gcra.retryAfter
  cases held : g.tat with
  | none => rfl
  | some tat =>
    have past : tat ≤ now := by simpa [Gcra.hasDebt, held] using idle
    simp only [Option.bind_some]
    rw [if_neg (by omega)]

theorem Gcra.Alike.refl (last : Nat) (g : Gcra) : Gcra.Alike last g g := ⟨rfl, .inl rfl⟩

/- One query: one answer, and still alike. -/
theorem Gcra.Alike.reply {g h : Gcra} {last now : Nat} (alike : Gcra.Alike last g h)
    (later : last ≤ now) (query : BucketQuery) :
    (g.reply now query).1 = (h.reply now query).1 ∧
      Gcra.Alike now (g.reply now query).2 (h.reply now query).2 := by
  obtain ⟨quota, same | ⟨idleG, idleH⟩⟩ := alike
  · obtain rfl : g = h := by
      cases g
      cases h
      simp_all
    exact ⟨rfl, .refl now _⟩
  · have idleG := Gcra.hasDebt_later idleG later
    have idleH := Gcra.hasDebt_later idleH later
    cases query with
    | check =>
      simp only [Gcra.reply, Gcra.check_idle idleG, Gcra.check_idle idleH, quota]
      exact ⟨trivial, .refl now _⟩
    | setQuota next =>
      have leftG := Gcra.setQuota_idle idleG next
      have leftH := Gcra.setQuota_idle idleH next
      exact ⟨rfl, leftG.1.trans leftH.1.symm, .inr ⟨leftG.2, leftH.2⟩⟩
    | hasDebt => exact ⟨by simp only [Gcra.reply, idleG, idleH], quota, .inr ⟨idleG, idleH⟩⟩
    | retryAfter =>
      refine ⟨?_, quota, .inr ⟨idleG, idleH⟩⟩
      simp only [Gcra.reply, Gcra.retryAfter_idle idleG, Gcra.retryAfter_idle idleH]

theorem Gcra.Alike.tells {g h : Gcra} {last : Nat} {queries : List (Nat × BucketQuery)}
    (alike : Gcra.Alike last g h) (start : ∀ query ∈ queries, last ≤ query.1)
    (ordered : queries.Pairwise (·.1 ≤ ·.1)) : g.tells queries = h.tells queries := by
  induction queries generalizing g h last with
  | nil => rfl
  | cons query rest ih =>
    obtain ⟨now, query⟩ := query
    obtain ⟨answer, after⟩ := alike.reply (start (now, query) List.mem_cons_self) query
    rw [List.pairwise_cons] at ordered
    simp only [Gcra.tells, answer, ih after ordered.1 ordered.2]

theorem Gcra.alike_fresh {g : Gcra} {now : Nat} (idle : g.hasDebt now = false) :
    Gcra.Alike now g (Gcra.new g.quota) :=
  ⟨rfl, .inr ⟨idle, rfl⟩⟩

theorem Limiter.find_put_last {keys : List (UInt64 × KeyState)} {key : UInt64}
    (untracked : keys.lookup key = none) (old state : KeyState) :
    ((keys ++ [(key, old)]).map fun entry => if entry.1 = key then (key, state) else entry).lookup
      key = some state := by
  induction keys with
  | nil => simp
  | cons entry rest ih =>
    obtain ⟨other, otherState⟩ := entry
    have distinct : other ≠ key := by
      rintro rfl
      simp at untracked
    have apart : (key == other) = false := by simpa using Ne.symm distinct
    simp only [List.lookup_cons, apart] at untracked
    simp only [List.cons_append, List.map_cons, if_neg distinct, List.lookup_cons, apart]
    exact ih untracked

theorem Limiter.checkIn_untracked {l after : Limiter} {key : UInt64} {limit : Limit}
    {now clusterSize : Nat} {decision : Decision} (untracked : l.find key = none)
    (checked : l.checkIn key limit now clusterSize = some (decision, after)) :
    ∃ quota state, l.coldQuota limit clusterSize = some quota ∧
      decision = ((Gcra.new quota).check now).1 ∧ after.find key = some state ∧
      state.gcra = ((Gcra.new quota).check now).2 := by
  unfold Limiter.checkIn Limiter.entry at checked
  split at checked
  · simp only [bind, Option.bind_eq_some_iff, untracked] at checked
    obtain ⟨⟨_, _⟩, ⟨quota, cold, entered⟩, demand, _, requests, _, done⟩ := checked
    simp only [Option.some.injEq, Prod.mk.injEq] at entered
    obtain ⟨rfl, rfl⟩ := entered
    have first : (Gcra.new quota).check now = _ := Gcra.check_idle rfl
    simp only [first, ↓reduceIte, Option.bind_some, Option.some.injEq, Prod.mk.injEq] at done
    obtain ⟨rfl, rfl⟩ := done
    exact ⟨quota, _, cold, by rw [first], Limiter.find_put_last untracked _ _, by rw [first]⟩
  · simp at checked

/-- Forgetting an idle bucket loses nothing: the plain bucket answers for good as a fresh one;
    a key the limiter dropped gets, when it comes back, the answers of the bucket it left
    behind, put on the quota it comes back on; and a slot freed and taken again answers as the
    slot kept. -/
theorem forgetting_loses_nothing :
    (∀ (g : Gcra) (now : Nat), g.hasDebt now = false →
      ∀ queries : List (Nat × BucketQuery), (∀ query ∈ queries, now ≤ query.1) →
        queries.Pairwise (·.1 ≤ ·.1) → g.tells queries = (Gcra.new g.quota).tells queries) ∧
    (∀ (g : Gcra) (left : Nat), g.hasDebt left = false →
      ∀ (l after : Limiter) (key : UInt64) (limit : Limit) (now clusterSize : Nat)
        (decision : Decision), left ≤ now → l.find key = none →
        l.checkIn key limit now clusterSize = some (decision, after) →
        ∃ quota state, l.coldQuota limit clusterSize = some quota ∧
          after.find key = some state ∧ decision = ((g.setQuota quota now).check now).1 ∧
          ∀ queries : List (Nat × BucketQuery), (∀ query ∈ queries, now ≤ query.1) →
            queries.Pairwise (·.1 ≤ ·.1) →
            state.gcra.tells queries = ((g.setQuota quota now).check now).2.tells queries) ∧
    ∀ (a : AtomicGcra) (quota free : Quota) (now : Nat), a.quota = quota.pack →
      a.hasDebt now = false → ∀ ops : List (Timed GcraOp), (∀ timed ∈ ops, now ≤ timed.now) →
        ops.Pairwise (·.now ≤ ·.now) →
        a.replies ops = (AtomicGcra.new quota).replies ops ∧
        ∀ (next : Quota) (at' fails : Nat), now ≤ at' → (∀ timed ∈ ops, at' ≤ timed.now) →
          a.replies (⟨at', fails, .setQuota next⟩ :: ops) =
            (AtomicGcra.new free).replies (⟨at', fails, .setQuota next⟩ :: ops) := by
  refine ⟨?_, ?_, ?_⟩
  · intro g now idle queries start ordered
    exact (Gcra.alike_fresh idle).tells start ordered
  · intro g left idle l after key limit now clusterSize decision later untracked checked
    obtain ⟨quota, state, cold, decided, tracked, bucket⟩ :=
      Limiter.checkIn_untracked untracked checked
    obtain ⟨on, stays⟩ := Gcra.setQuota_idle (Gcra.hasDebt_later idle later) quota
    have alike : Gcra.Alike now (Gcra.new quota) (g.setQuota quota now) :=
      ⟨on.symm, .inr ⟨rfl, stays⟩⟩
    obtain ⟨answer, next⟩ := alike.reply (Nat.le_refl now) .check
    simp only [Gcra.reply, BucketReply.decided.injEq] at answer next
    refine ⟨quota, state, cold, tracked, decided.trans answer, ?_⟩
    intro queries start ordered
    rw [bucket]
    exact next.tells start ordered
  · intro a quota free now word idle ops start ordered
    have past : a.tat ≤ now := by simpa [AtomicGcra.hasDebt] using idle
    have kept : (Gcra.new quota).Packed a.quota a.tat now := ⟨word, by simp [Gcra.new], fun _ => past⟩
    have fresh (q : Quota) : (Gcra.new q).Packed (AtomicGcra.new q).quota (AtomicGcra.new q).tat now :=
      Gcra.Packed.new q now
    constructor
    · rw [AtomicGcra.replies_refine kept start ordered,
        AtomicGcra.replies_refine (fresh quota) start ordered]
    · intro next at' fails later after
      have starts : ∀ timed ∈ (⟨at', fails, .setQuota next⟩ : Timed GcraOp) :: ops,
          now ≤ timed.now := by
        intro timed mem
        rcases List.mem_cons.mp mem with rfl | mem
        · exact later
        · exact start timed mem
      have inOrder : ((⟨at', fails, .setQuota next⟩ : Timed GcraOp) :: ops).Pairwise
          (·.now ≤ ·.now) := List.pairwise_cons.mpr ⟨after, ordered⟩
      rw [AtomicGcra.replies_refine kept starts inOrder,
        AtomicGcra.replies_refine (fresh free) starts inOrder]
      have same (q : Quota) : (Gcra.new q).setQuota next at' = Gcra.new next := by
        unfold Gcra.setQuota
        split
        · rename_i unchanged
          rw [unchanged]
          rfl
        · rfl
      simp only [Gcra.replies, Gcra.answer, same]

/- A limiter that knows no key, and buckets whose TAT is past. -/
def emptyLimiter : Limiter := ⟨⟨⟨100, 1⟩, 1, 1 / 10, 10, 1, 4, 9⟩, ⟨10, 1, ∅⟩, [], ∅, none, none⟩

theorem emptyLimiter_checked : (emptyLimiter.checkIn 7 ⟨100, 1⟩ 6 2).isSome = true := by decide +kernel

theorem forgetting_loses_nothing_past : ∃ slow fast, Quota.new 100 1 = some slow ∧
    Quota.new 1000 3 = some fast ∧
    Gcra.tells ⟨slow, some 4⟩ [(5, .check), (5, .retryAfter), (6, .setQuota fast), (7, .check)] =
      (Gcra.new slow).tells [(5, .check), (5, .retryAfter), (6, .setQuota fast), (7, .check)] ∧
    (∃ decision after quota, emptyLimiter.checkIn 7 ⟨100, 1⟩ 6 2 = some (decision, after) ∧
      emptyLimiter.coldQuota ⟨100, 1⟩ 2 = some quota ∧
      decision = ((Gcra.setQuota ⟨slow, some 4⟩ quota 6).check 6).1) ∧
    AtomicGcra.replies ⟨slow.pack, 4⟩ [⟨6, 1, .check⟩, ⟨6, 0, .check⟩] =
      (AtomicGcra.new slow).replies [⟨6, 1, .check⟩, ⟨6, 0, .check⟩] := by
  obtain ⟨slow, madeSlow⟩ := Option.isSome_iff_exists.mp
    (@Quota.withInterval_isSome (divCeil oneSec 100) 1 (by decide) (by decide))
  obtain ⟨fast, madeFast⟩ := Option.isSome_iff_exists.mp
    (@Quota.withInterval_isSome (divCeil oneSec 1000) 3 (by decide) (by decide))
  obtain ⟨plain, limiter, atomic⟩ := forgetting_loses_nothing
  refine ⟨slow, fast, madeSlow, madeFast, ?_, ?_, ?_⟩
  · exact plain ⟨slow, some 4⟩ 5 rfl _ (by simp) (by simp)
  · obtain ⟨⟨decision, after⟩, checked⟩ := Option.isSome_iff_exists.mp emptyLimiter_checked
    obtain ⟨quota, _, cold, _, decided, _⟩ := limiter ⟨slow, some 4⟩ 5 rfl emptyLimiter after 7
      ⟨100, 1⟩ 6 2 decision (by decide) rfl checked
    exact ⟨decision, after, quota, checked, cold, decided⟩
  · exact (atomic ⟨slow.pack, 4⟩ slow fast 5 rfl rfl _ (by simp) (by simp)).1

end Rateguard
