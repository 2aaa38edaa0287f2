import Rateguard.RoundShares

/- The delay on a share that rises: what is applied in a round is the least that was computed in
   the last three, as far as the key has been hot. -/
namespace Rateguard
open Std (ExtTreeMap)

/- The rounds of a run, the latest first, each by the shares it makes of the keys hot after it. -/
def noteRound (decay : Nat → Nat → ℚ) (n : Node) (rounds : List (UInt64 → Option RoundShare))
    (op : Op) : List (UInt64 → Option RoundShare) :=
  match n.sharingIn op with
  | some (m, now) => m.roundShare decay now :: rounds
  | none => rounds

/- What was computed for a key in each round since the last that did not leave it hot. -/
def sinceHot (key : UInt64) : List (UInt64 → Option RoundShare) → List ℚ
  | [] => []
  | round :: earlier =>
    match round key with
    | some share => share.computed :: sinceHot key earlier
    | none => []

def lastTwo : List ℚ → Option (ℚ × ℚ)
  | [] => none
  | [only] => some (only, only)
  | last :: before :: _ => some (last, before)

theorem lastTwo_cons (computed : ℚ) (past : List ℚ) :
    lastTwo (computed :: past) =
      some (computed, ((lastTwo past).getD (computed, computed)).1) := by
  cases past with
  | nil => rfl
  | cons last rest =>
    cases rest with
    | nil => rfl
    | cons before rest => rfl

theorem least_of_three (computed : ℚ) (past : List ℚ) :
    ((computed :: past).take 3).min? =
      some (min (min computed ((lastTwo past).getD (computed, computed)).1)
        ((lastTwo past).getD (computed, computed)).2) := by
  cases past with
  | nil => simp [lastTwo]
  | cons last rest =>
    cases rest with
    | nil => simp [lastTwo]
    | cons before rest => simp [lastTwo, min_assoc]

/- What a node keeps of its rounds: who is hot, and of whom what was computed. -/
structure KeepsShares (n : Node) (rounds : List (UInt64 → Option RoundShare)) : Prop where
  hot : ∀ key, n.limiter.hotSet.isHot key = (rounds.head?.bind (· key)).isSome
  recent : ∀ key, n.recentShares[key]? = lastTwo (sinceHot key rounds)

theorem KeepsShares.step {decay : Nat → Nat → ℚ} {n n' : Node}
    {rounds : List (UInt64 → Option RoundShare)} {op : Op} (keeps : KeepsShares n rounds)
    (tidy : n.limiter.Tidy n.lastNow) (h : n.step decay op = some n') :
    KeepsShares n' (noteRound decay n rounds op) := by
  cases Node.step_shared h with
  | idle none idles =>
    simp only [noteRound, Node.sharingIn, none, bind, Option.bind_none]
    constructor
    · intro key
      rw [idles.grows.hotSet]
      exact keeps.hot key
    · intro key
      rw [idles.recentShares]
      exact keeps.recent key
  | round a m c d now found runs =>
    have shared := (Node.applyShares_shares (runs.begun.tidy runs.policy tidy) runs.shares).1
    simp only [noteRound, Node.sharingIn, found, runs.policy, bind, Option.bind_some]
    constructor
    · intro key
      rw [runs.limiter]
      exact shared.hot key
    · intro key
      rw [runs.recentShares]
      cases made : m.roundShare decay now key with
      | none =>
        rw [shared.gone key made]
        simp only [sinceHot, made]
        rfl
      | some share =>
        rw [shared.recent key share made, runs.begun.recent runs.policy, keeps.recent key]
        simp only [sinceHot, made]
        exact (lastTwo_cons share.computed _).symm

theorem Recorded.keepsShares {decay : Nat → Nat → ℚ} {n : Node}
    {rounds : List (UInt64 → Option RoundShare)}
    (h : Recorded decay (noteRound decay) [] (fun _ _ _ => True) n rounds) :
    KeepsShares n rounds := by
  induction h with
  | start config swim localId addr seed n h =>
    unfold Node.new at h
    split at h
    · simp only [bind, Option.bind_eq_some_iff, Option.some.injEq] at h
      obtain ⟨members, _, limiter, built, rfl⟩ := h
      simp only [Limiter.new, HotSet.new, Option.ite_none_right_eq_some, Option.map_eq_some_iff,
        Option.some.injEq] at built
      obtain ⟨_, hotSet, ⟨_, rfl⟩, rfl⟩ := built
      exact ⟨fun key => by simp [HotSet.isHot], fun key => by simp [sinceHot, lastTwo]⟩
    · simp at h
  | step n rounds op n' run _ h keeps => exact keeps.step run.reachable.tidy h

/-- A share rises slowly and falls at once. In every run, a key that is hot after a round has the
    quota of a share that is the least of those computed for it in this round and the two before
    it, as far as it has been hot since. So a share no higher than theirs is applied at once, none
    that was not reached in each of them is, and without word of the peers none above the floor. -/
theorem share_rises_slowly (decay : Nat → Nat → ℚ) (n : Node)
    (rounds : List (UInt64 → Option RoundShare))
    (run : Recorded decay (noteRound decay) [] (fun _ _ _ => True) n rounds) :
    (∀ key, n.limiter.hotSet.isHot key = (rounds.head?.bind (· key)).isSome) ∧
    ∀ op m now n', n.sharingIn op = some (m, now) → n.step decay op = some n' →
      ∀ key, n'.limiter.hotSet.isHot key = true →
        ∃ share state, m.roundShare decay now key = some share ∧
          n'.limiter.find key = some state ∧
          quotaFor (capped n'.limiter.cap state.limit.rate share.applied) state.limit.burst =
            some state.applied ∧
          ((share.computed :: sinceHot key rounds).take 3).min? = some share.applied ∧
          ((∀ past ∈ (sinceHot key rounds).take 2, share.computed ≤ past) →
            share.applied = share.computed) ∧
          (∀ past ∈ (share.computed :: sinceHot key rounds).take 3, share.applied ≤ past) ∧
          (share.informed = false → share.applied ≤ share.floor) := by
  have keeps := run.keepsShares
  refine ⟨keeps.hot, fun op m now n' sharing stepped key hot => ?_⟩
  cases Node.step_shared stepped with
  | idle none => simp [Node.sharingIn, none] at sharing
  | round a m' c d now' found runs =>
    obtain ⟨rfl, rfl⟩ : m' = m ∧ now' = now := by
      simpa [Node.sharingIn, found, runs.policy] using sharing
    have tidy := runs.begun.tidy runs.policy run.reachable.tidy
    have shared := (Node.applyShares_shares tidy runs.shares).1
    rw [runs.limiter, shared.hot] at hot
    obtain ⟨share, made⟩ := Option.isSome_iff_exists.mp hot
    obtain ⟨state, tracked, quota⟩ := shared.quota key share made
    have least : ((share.computed :: sinceHot key rounds).take 3).min? = some share.applied := by
      rw [least_of_three, ← keeps.recent key, ← runs.begun.recent runs.policy,
        ← shared.delayed key share made]
    obtain ⟨mem, lower⟩ := List.min?_eq_some_iff.mp least
    refine ⟨share, state, made, runs.limiter ▸ tracked, ?_, least, ?_, lower, ?_⟩
    · rw [runs.limiter, shared.cap]
      exact quota
    · intro low
      refine le_antisymm (lower _ (by simp)) ?_
      simp only [List.take_succ_cons, List.mem_cons] at mem
      rcases mem with same | past
      · exact same.ge
      · exact low _ past
    · intro uninformed
      rw [← shared.uninformed key share made uninformed]
      exact lower _ (by simp)

/- A key whose limit doubles once it is hot. -/
def risingRun : Option (Node × List (UInt64 → Option RoundShare) × Node × Node) := do
  let start ← Node.sample 1 1
  let (n, rounds) ← Node.runRecorded sampleDecay (noteRound sampleDecay) (fun _ _ _ => True) start []
    [.handle .tick 0, .record 7 ⟨40, 0, 0⟩ ⟨100, 10⟩ (ms 100), .handle .tick (ms 200),
      .record 7 ⟨80, 0, 0⟩ ⟨200, 10⟩ (ms 300)]
  let (m, _) ← n.sharingIn (.handle .tick (ms 400))
  let n' ← n.step sampleDecay (.handle .tick (ms 400))
  some (n, rounds, m, n')

theorem risingRun_computes : (risingRun.any fun (_, rounds, m, n') =>
    n'.limiter.hotSet.isHot 7 && decide (sinceHot 7 rounds = [100]) &&
      (m.roundShare sampleDecay (ms 400) 7).any (·.computed == 200)) = true := by
  decide +kernel

theorem share_rises_slowly_doubled : ∃ n rounds m n' share,
    risingRun = some (n, rounds, m, n') ∧ m.roundShare sampleDecay (ms 400) 7 = some share ∧
      share.computed = 200 ∧ share.applied = 100 := by
  obtain ⟨⟨n, rounds, m, n'⟩, ran, checked⟩ := (Option.any_eq_true _ _).mp risingRun_computes
  simp only [Bool.and_eq_true, decide_eq_true_eq] at checked
  obtain ⟨⟨hot, past⟩, made⟩ := checked
  have same := ran
  simp only [risingRun, bind, Option.bind_eq_some_iff, Option.some.injEq, Prod.mk.injEq] at ran
  obtain ⟨start, fresh, ⟨u, noted⟩, ran, ⟨v, now⟩, sharing, w, stepped, rfl, rfl, rfl, rfl⟩ := ran
  have run := Recorded.run (.start _ _ _ _ _ start fresh) ran
  have clock := sharing
  simp only [Node.sharingIn, Node.roundIn, bind, Option.bind_eq_some_iff, Option.map_eq_some_iff,
    Option.some.injEq, Prod.mk.injEq] at clock
  obtain ⟨_, ⟨_, _, rfl⟩, _, _, _, rfl⟩ := clock
  obtain ⟨share, _, computed, _, _, least, _⟩ :=
    (share_rises_slowly sampleDecay u noted run).2 _ v _ w sharing stepped 7 hot
  have doubled : share.computed = 200 := by simpa [computed] using made
  refine ⟨u, noted, v, w, share, same, computed, doubled, ?_⟩
  rw [past, doubled] at least
  norm_num at least
  exact least.symm

end Rateguard
