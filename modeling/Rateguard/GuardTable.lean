import Rateguard.AtomicRefines
import Rateguard.Guard

/- The key table between two calls: every key in one slot, each slot's words those of a quota, and a
   free slot fresh. -/
namespace Rateguard
open KeyTable (Slots Layout RealKey emptyKey busyKey)

theorem offReserved_real (hash : UInt64) : RealKey (offReserved hash) := by
  unfold offReserved
  split
  · decide
  · split
    · decide
    · rename_i used free
      exact ⟨used, free⟩

namespace KeyTable

theorem Layout.bucketsOf_lt (l : Layout) (some : 0 < l.buckets) (key : UInt64) :
    (l.bucketsOf key).1 < l.buckets ∧ (l.bucketsOf key).2 < l.buckets := by
  have masked (n : Nat) : n &&& (l.buckets - 1) < l.buckets := by
    have := @Nat.and_le_right n (l.buckets - 1)
    omega
  unfold bucketsOf
  refine ⟨masked _, ?_⟩
  dsimp only
  split
  · exact masked _
  · exact masked _

theorem Layout.candidates_lt {l : Layout} (some : 0 < l.buckets) {key : UInt64} {slot : Nat}
    (mem : slot ∈ l.candidates key) : slot < l.capacity := by
  obtain ⟨first, second⟩ := l.bucketsOf_lt some key
  have within {index : Nat} (small : index < l.buckets) (mem : slot ∈ bucket index) :
      slot < l.capacity := by
    rw [mem_bucket] at mem
    subst mem
    rw [capacity]
    exact (Nat.div_lt_iff_lt_mul (by decide)).mp small
  rcases l.mem_candidates.mp mem with mem | mem
  · exact within first mem
  · exact within second mem

/- Every key is in one slot, one of its candidates. -/
structure Placed (l : Layout) (slots : Slots) : Prop where
  candidate : ∀ i, RealKey (slots i).key → i ∈ l.candidates (slots i).key
  sole : ∀ i j, RealKey (slots i).key → (slots j).key = (slots i).key → j = i

namespace Placed
variable {l : Layout} {slots slots' : Slots} {key : UInt64}

theorem find_iff (placed : Placed l slots) (real : RealKey key) {slot : Nat} :
    l.find slots key = some slot ↔ (slots slot).key = key := by
  constructor
  · intro found
    simpa using List.find?_some found
  · intro held
    have mem := placed.candidate slot (held.symm ▸ real)
    rw [held] at mem
    cases found : l.find slots key with
    | none =>
      have absent := List.find?_eq_none.mp found slot mem
      simp [held] at absent
    | some other =>
      have same : (slots other).key = key := by simpa using List.find?_some found
      rw [placed.sole slot other (held.symm ▸ real) (same.trans held.symm)]

theorem find_none (placed : Placed l slots) (real : RealKey key)
    (absent : l.find slots key = none) (slot : Nat) : (slots slot).key ≠ key := fun held => by
  rw [(placed.find_iff real).mpr held] at absent
  nomatch absent

/- Slots that keep their keys or give them up keep their order. -/
theorem kept (placed : Placed l slots)
    (same : ∀ i, RealKey (slots' i).key → (slots' i).key = (slots i).key) : Placed l slots' := by
  refine ⟨fun i real => ?_, fun i j real held => ?_⟩
  · rw [same i real]
    exact placed.candidate i (same i real ▸ real)
  · refine placed.sole i j (same i real ▸ real) ?_
    rw [← same i real, ← held, same j (held.symm ▸ real)]

theorem taken (placed : Placed l slots) {slot : Nat} {written : Slot} (own : written.key = key)
    (mem : slot ∈ l.candidates key) (absent : ∀ i, (slots i).key ≠ key) :
    Placed l (Function.update slots slot written) := by
  refine ⟨fun i real => ?_, fun i j real held => ?_⟩
  · rw [update_key] at real ⊢
    split at real
    · rename_i same
      subst same
      rw [if_pos rfl, own]
      exact mem
    · rename_i apart
      rw [if_neg apart]
      exact placed.candidate i real
  · rw [update_key] at real
    rw [update_key, update_key] at held
    split at held
    · rename_i one
      split at held
      · rename_i two
        rw [one, two]
      · exact absurd (held.symm.trans own) (absent i)
    · split at held
      · exact absurd (held.trans own) (absent j)
      · rename_i apart
        rw [if_neg apart] at real
        exact placed.sole i j real held

end Placed

/-- What a claim finds: the key's slot, a free one among its candidates, or neither. -/
theorem claim_cases {l : Layout} {slots : Slots} {key : UInt64} (placed : Placed l slots)
    (real : RealKey key) :
    (∃ slot, (slots slot).key = key ∧ claim l slots key = (slots, some slot, false)) ∨
    (∀ slot, (slots slot).key ≠ key) ∧ ((∃ slot ∈ l.candidates key, (slots slot).key = emptyKey ∧
      claim l slots key =
        (Function.update slots slot { slots slot with key }, some slot, true)) ∨
      claim l slots key = (slots, none, false)) := by
  unfold claim
  cases found : (l.candidates key).find? fun slot => decide ((slots slot).key = key) with
  | some slot =>
    have held : (slots slot).key = key := by simpa using List.find?_some found
    exact .inl ⟨slot, held, rfl⟩
  | none =>
    refine .inr ⟨placed.find_none real found, ?_⟩
    cases free : (l.offered slots key).find? fun slot => decide ((slots slot).key = emptyKey) with
    | none => exact .inr rfl
    | some slot =>
      have empty : (slots slot).key = emptyKey := by simpa using List.find?_some free
      refine .inl ⟨slot, l.mem_candidates.mpr ?_, empty, rfl⟩
      have mem := List.mem_of_find?_eq_some free
      simp only [Layout.offered] at mem
      split at mem
      · exact (List.mem_append.mp mem).symm
      · exact List.mem_append.mp mem

section Visits
variable {σ : Type} {edit : Slot → σ → Option (Slot × σ)} {order : List Nat}
  {slots slots' : Slots} {s s' : σ}

/- Each slot that is listed and held is edited once, as it was, and no other. -/
theorem visit_at (nodup : order.Nodup) (visited : Layout.visit edit order slots s = some (slots', s'))
    (i : Nat) : (i ∈ order → RealKey (slots i).key → ∃ s₁ s₂, edit (slots i) s₁ = some (slots' i, s₂)) ∧
      (¬ (i ∈ order ∧ RealKey (slots i).key) → slots' i = slots i) := by
  induction order generalizing slots s with
  | nil =>
    simp only [Layout.visit, Option.some.injEq, Prod.mk.injEq] at visited
    obtain ⟨rfl, rfl⟩ := visited
    exact ⟨fun mem => absurd mem List.not_mem_nil, fun _ => rfl⟩
  | cons first rest ih =>
    obtain ⟨unlisted, nodup⟩ := List.nodup_cons.mp nodup
    rw [Layout.visit] at visited
    split at visited
    · rename_i held
      simp only [bind, Option.bind_eq_some_iff] at visited
      obtain ⟨⟨edited, s₂⟩, done, visited⟩ := visited
      have later := ih nodup visited
      by_cases same : i = first
      · subst same
        rw [Function.update_self] at later
        have left := later.2 fun again => unlisted again.1
        exact ⟨fun _ _ => ⟨s, s₂, left.symm ▸ done⟩, fun other => absurd ⟨List.mem_cons_self, held⟩ other⟩
      · rw [Function.update_of_ne same] at later
        refine ⟨fun mem real => later.1 ((List.mem_cons.mp mem).resolve_left same) real, fun other => ?_⟩
        exact later.2 fun again => other ⟨List.mem_cons_of_mem _ again.1, again.2⟩
    · rename_i free
      have later := ih nodup visited
      refine ⟨fun mem real => ?_, fun other => ?_⟩
      · rcases List.mem_cons.mp mem with rfl | mem
        · exact absurd real free
        · exact later.1 mem real
      · exact later.2 fun again => other ⟨List.mem_cons_of_mem _ again.1, again.2⟩

theorem forEach_at {l : Layout} (visited : l.forEach edit slots s = some (slots', s')) (i : Nat) :
    (i < l.capacity → RealKey (slots i).key → ∃ s₁ s₂, edit (slots i) s₁ = some (slots' i, s₂)) ∧
      (¬ (i < l.capacity ∧ RealKey (slots i).key) → slots' i = slots i) := by
  have each := visit_at List.nodup_range visited i
  rwa [List.mem_range] at each

/-- What each visit adds comes to a sum over the slots as they were. -/
theorem visit_sum (total : σ → Nat) (part : Slot → Nat) (nodup : order.Nodup)
    (adds : ∀ slot s edited s', RealKey slot.key → edit slot s = some (edited, s') →
      total s' = total s + part slot)
    (visited : Layout.visit edit order slots s = some (slots', s')) :
    total s' = total s +
      (order.map fun i => if RealKey (slots i).key then part (slots i) else 0).sum := by
  induction order generalizing slots s with
  | nil =>
    simp only [Layout.visit, Option.some.injEq, Prod.mk.injEq] at visited
    simp [visited.2]
  | cons first rest ih =>
    obtain ⟨unlisted, nodup⟩ := List.nodup_cons.mp nodup
    rw [List.map_cons, List.sum_cons]
    rw [Layout.visit] at visited
    split at visited
    · rename_i held
      simp only [bind, Option.bind_eq_some_iff] at visited
      obtain ⟨⟨edited, s₂⟩, done, visited⟩ := visited
      have others : (rest.map fun i => if RealKey (Function.update slots first edited i).key
          then part (Function.update slots first edited i) else 0) =
          rest.map fun i => if RealKey (slots i).key then part (slots i) else 0 := by
        refine List.map_congr_left fun i mem => ?_
        have apart : i ≠ first := by
          rintro rfl
          exact unlisted mem
        rw [Function.update_of_ne apart]
      have later := ih nodup visited
      rw [others, adds _ _ _ _ held done] at later
      rw [later, if_pos held, Nat.add_assoc]
    · rename_i free
      rw [ih nodup visited, if_neg free, Nat.zero_add]

theorem visitFree_at {edit : Slot → Option Slot} (nodup : order.Nodup)
    (visited : Layout.visitFree edit order slots = some slots') (i : Nat) :
    (i ∈ order → (slots i).key = emptyKey → edit (slots i) = some (slots' i)) ∧
      (¬ (i ∈ order ∧ (slots i).key = emptyKey) → slots' i = slots i) := by
  induction order generalizing slots with
  | nil =>
    obtain rfl := Option.some.inj visited
    exact ⟨fun mem => absurd mem List.not_mem_nil, fun _ => rfl⟩
  | cons first rest ih =>
    obtain ⟨unlisted, nodup⟩ := List.nodup_cons.mp nodup
    rw [Layout.visitFree] at visited
    split at visited
    · rename_i free
      obtain ⟨edited, done, visited⟩ := Option.bind_eq_some_iff.mp visited
      have later := ih nodup visited
      by_cases same : i = first
      · subst same
        rw [Function.update_self] at later
        have left := later.2 fun again => unlisted again.1
        exact ⟨fun _ _ => left.symm ▸ done, fun other => absurd ⟨List.mem_cons_self, free⟩ other⟩
      · rw [Function.update_of_ne same] at later
        refine ⟨fun mem empty => later.1 ((List.mem_cons.mp mem).resolve_left same) empty,
          fun other => ?_⟩
        exact later.2 fun again => other ⟨List.mem_cons_of_mem _ again.1, again.2⟩
    · rename_i held
      have later := ih nodup visited
      refine ⟨fun mem empty => ?_, fun other => ?_⟩
      · rcases List.mem_cons.mp mem with rfl | mem
        · exact absurd empty held
        · exact later.1 mem empty
      · exact later.2 fun again => other ⟨List.mem_cons_of_mem _ again.1, again.2⟩

theorem forEachFree_at {l : Layout} {edit : Slot → Option Slot}
    (visited : l.forEachFree edit slots = some slots') (i : Nat) :
    (i < l.capacity → (slots i).key = emptyKey → edit (slots i) = some (slots' i)) ∧
      (¬ (i < l.capacity ∧ (slots i).key = emptyKey) → slots' i = slots i) := by
  have each := visitFree_at List.nodup_range visited i
  rwa [List.mem_range] at each

end Visits
end KeyTable

namespace AtomicGcra
variable {a a' : AtomicGcra} {q quota : Quota} {now fails : Nat}

/- The plain bucket the two words stand for. -/
def bucket (a : AtomicGcra) : Option Gcra :=
  (Quota.unpack a.quota).map fun quota => ⟨quota, some a.tat⟩

theorem bucket_of_pack (word : a.quota = q.pack) : a.bucket = some ⟨q, some a.tat⟩ := by
  rw [bucket, word, q.unpack_pack, Option.map_some]

theorem setQuota_bucket (word : a.quota = q.pack) (set : a.setQuota quota now fails = some a') :
    a'.quota = quota.pack ∧ a'.bucket = some ((Gcra.mk q (some a.tat)).setQuota quota now) := by
  unfold setQuota at set
  split at set
  · rename_i same
    obtain rfl := Option.some.inj set
    obtain rfl := Quota.pack_inj (word.symm.trans same)
    refine ⟨word, ?_⟩
    rw [bucket_of_pack word, Gcra.setQuota, if_pos rfl]
  · rename_i other
    rw [word, q.unpack_pack] at set
    obtain rfl := Option.some.inj set
    refine ⟨rfl, ?_⟩
    have apart : quota ≠ q := by
      rintro rfl
      exact other word
    rw [bucket_of_pack rfl, Gcra.setQuota, if_neg apart, rescale, if_neg apart.symm, rescaleFrom_eq]

theorem check_bucket (word : a.quota = q.pack) :
    (a.check now fails).1 = ((Gcra.mk q (some a.tat)).check now).1 ∧
      (a.check now fails).2.quota = q.pack ∧
      (a.check now fails).2.bucket = some ((Gcra.mk q (some a.tat)).check now).2 := by
  have packed : (Gcra.mk q (some a.tat)).Packed a.quota a.tat now :=
    ⟨word, fun _ held => (Option.some.inj held), by simp⟩
  obtain ⟨decided, left⟩ := packed.check (Nat.le_refl now)
  have kept : ((Gcra.mk q (some a.tat)).check now).2.quota = q := by
    unfold Gcra.check
    dsimp only
    split <;> rfl
  have owes : ∃ tat, ((Gcra.mk q (some a.tat)).check now).2.tat = some tat := by
    unfold Gcra.check
    dsimp only
    split
    · exact ⟨_, rfl⟩
    · exact ⟨_, rfl⟩
  have whole : a.check now fails = ((OptimisticUpdate.apply attempt a.quota now a.tat).1,
      ⟨a.quota, (OptimisticUpdate.apply attempt a.quota now a.tat).2⟩) := by
    rw [check, step_eq]
  obtain ⟨tat, owes⟩ := owes
  have tats := left.held tat owes
  rw [whole]
  refine ⟨decided, word, ?_⟩
  rw [bucket_of_pack (a := ⟨a.quota, (OptimisticUpdate.apply attempt a.quota now a.tat).2⟩) word]
  dsimp only
  rw [tats, ← owes]
  generalize ((Gcra.mk q (some a.tat)).check now).2 = g at kept
  rw [← kept]

end AtomicGcra
end Rateguard
