import Mathlib.Data.List.Basic
import Mathlib.Order.WellFounded
import Rateguard.KeyTable

/- Claims and releases of a key table in any order of their steps: a key ends up in one slot. Of two
   slots that hold a key, some thread still owes giving back the later; a claim gives a slot back only
   for an earlier one that held the key, so that the earliest to hold it is never lost. -/
namespace Rateguard.KeyTable

def Before (order : List Nat) (a b : Nat) : Prop := order.idxOf a < order.idxOf b

theorem Before.asymm {order : List Nat} {a b : Nat} (before : Before order a b) :
    ¬ Before order b a := Nat.lt_asymm before

theorem Before.ne {order : List Nat} {a b : Nat} (before : Before order a b) : a ≠ b := by
  rintro rfl
  exact Nat.lt_irrefl _ before

theorem before_of_split {passed rest order : List Nat} {a b : Nat} (split : passed ++ rest = order)
    (nodup : order.Nodup) (mem : a ∈ passed) (left : b ∈ rest) : Before order a b := by
  subst split
  have apart : b ∉ passed := fun again =>
    (List.disjoint_of_nodup_append nodup) again left
  rw [Before, List.idxOf_append_of_mem mem, List.idxOf_append_of_notMem apart]
  have := List.idxOf_lt_length_of_mem mem
  omega

namespace Layout
variable (l : Layout)

theorem bucket_nodup (index : Nat) : (bucket index).Nodup :=
  List.nodup_range.map fun _ _ same => Nat.add_left_cancel same

theorem mem_bucket {index slot : Nat} : slot ∈ bucket index ↔ slot / bucketSize = index := by
  simp only [bucket, List.mem_map, List.mem_range, bucketSize]
  constructor
  · rintro ⟨offset, small, rfl⟩
    omega
  · rintro rfl
    exact ⟨slot % 8, Nat.mod_lt _ (by decide), by omega⟩

theorem candidates_nodup (key : UInt64) : (l.candidates key).Nodup := by
  unfold candidates
  obtain ⟨first, second⟩ := l.bucketsOf key
  dsimp only
  split
  · rw [List.append_nil]
    exact bucket_nodup first
  · rename_i apart
    refine List.nodup_append'.mpr ⟨bucket_nodup first, bucket_nodup second, ?_⟩
    intro slot one two
    exact apart ((mem_bucket.mp one).symm.trans (mem_bucket.mp two))

theorem mem_candidates {key : UInt64} {slot : Nat} : slot ∈ l.candidates key ↔
    slot ∈ bucket (l.bucketsOf key).1 ∨ slot ∈ bucket (l.bucketsOf key).2 := by
  unfold candidates
  obtain ⟨first, second⟩ := l.bucketsOf key
  dsimp only
  split
  · rename_i same
    rw [List.append_nil, same, or_self]
  · rw [List.mem_append]

end Layout

section
variable (l : Layout) (held : UInt64 → Nat → Prop)

/- The slot a claim is to return: its own, or an earlier one that held the key. -/
def Rival (key : UInt64) (mine winner : Nat) : Prop :=
  winner = mine ∨ held key winner ∧ Before (l.candidates key) winner mine

/- A claim gives a slot back for an earlier one that held the key. -/
def AfterSound (key : UInt64) (slot : Nat) : After → Prop
  | .background => True
  | .scanning mine rest winner => held key mine ∧ Before (l.candidates key) mine slot ∧
      (∃ passed, passed ++ rest = l.candidates key ∧ mine ∈ passed) ∧ Rival l held key mine winner
  | .returning winner => held key winner ∧ Before (l.candidates key) winner slot

def PhaseSound (slots : Slots) : Phase → Prop
  | .idle | .claimed .. | .released => True
  | .find key _ | .countSecond key .. | .countFirst key .. => RealKey key
  | .pick key rest => RealKey key ∧ rest ⊆ l.candidates key
  | .swap key slot rest => RealKey key ∧ slot ∈ l.candidates key ∧ rest ⊆ l.candidates key
  | .scan key mine rest winner mineSeen => RealKey key ∧ held key mine ∧
      (∃ passed, passed ++ rest = l.candidates key ∧ (mineSeen = true ↔ mine ∈ passed)) ∧
      Rival l held key mine winner
  | .ask key slot after | .release key slot _ after => RealKey key ∧ AfterSound l held key slot after
  | .reset key slot left after => RealKey key ∧ (slots slot).key = busyKey ∧
      (∀ store ∈ left, ∀ s, (store s).key = s.key) ∧ AfterSound l held key slot after

end

/- Of two slots, the one a call is still to give back is the later. -/
def OwesAfter (a b : Nat) : After → Prop
  | .scanning mine rest winner => mine = b ∧ winner ≠ mine ∨ mine = a ∧ b ∈ rest
  | .background | .returning _ => False

def Owes (key : UInt64) (a b : Nat) : Phase → Prop
  | .scan k mine rest winner _ => k = key ∧
      (mine = b ∧ (a ∈ rest ∨ winner ≠ mine) ∨ mine = a ∧ b ∈ rest)
  | .ask k slot after | .release k slot _ after => k = key ∧ (slot = b ∨ OwesAfter a b after)
  | .reset k _ _ after => k = key ∧ OwesAfter a b after
  | _ => False

def Phase.resetting : Phase → Option Nat
  | .reset _ slot _ _ => some slot
  | _ => none

/-- What holds of the table and its threads, given the slots that ever held each key. -/
structure Sound {ι : Type} (l : Layout) (held : UInt64 → Nat → Prop) (w : World ι) : Prop where
  holders : ∀ slot, RealKey (w.slots slot).key → held (w.slots slot).key slot
  candidates : ∀ key slot, held key slot → slot ∈ l.candidates key
  phases : ∀ i, PhaseSound l held w.slots (w.phase i)
  alone : ∀ i j slot, (w.phase i).resetting = some slot → (w.phase j).resetting = some slot → i = j
  covered : ∀ key a b, RealKey key → Before (l.candidates key) a b → (w.slots a).key = key →
    (w.slots b).key = key → ∃ i, Owes key a b (w.phase i)

section
variable {l : Layout} {slots slots' : Slots} {p p' : Phase} {held held' : UInt64 → Nat → Prop}

theorem update_key (slot other : Nat) (written : Slot) :
    (Function.update slots slot written other).key =
      if other = slot then written.key else (slots other).key := by
  rw [Function.update_apply]
  split <;> rfl

/- What a step does to the slots: it reads one, or it takes, blocks, resets or frees one. -/
inductive Wrote (l : Layout) (slots : Slots) : Phase → Slots → Phase → Prop
  | read {p p' : Phase} : p.resetting = none → p'.resetting = none → Wrote l slots p slots p'
  | take {key : UInt64} {slot : Nat} {rest : List Nat} : (slots slot).key = emptyKey →
      Wrote l slots (.swap key slot rest) (Function.update slots slot { slots slot with key })
        (.scan key slot (l.candidates key) slot false)
  | block {key : UInt64} {slot : Nat} {quota : Quota} {after : After} : (slots slot).key = key →
      Wrote l slots (.release key slot quota after)
        (Function.update slots slot { slots slot with key := busyKey })
        (.reset key slot (resets quota) after)
  | store {key : UInt64} {slot : Nat} {store : Slot → Slot} {left : List (Slot → Slot)}
      {after : After} : Wrote l slots (.reset key slot (store :: left) after)
        (Function.update slots slot (store (slots slot))) (.reset key slot left after)
  | free {key : UInt64} {slot : Nat} {after : After} : Wrote l slots (.reset key slot [] after)
      (Function.update slots slot { slots slot with key := emptyKey }) (after.resume key)

theorem resume_resetting (key : UInt64) (after : After) : (after.resume key).resetting = none := by
  cases after <;> rfl

theorem step_wrote (stepped : p.step l slots = some (slots', p')) : Wrote l slots p slots' p' := by
  cases p with
  | idle | claimed | released => nomatch stepped
  | find key rest | countSecond key rest | countFirst key rest | pick key rest =>
    cases rest with
    | nil =>
      cases stepped
      exact .read rfl rfl
    | cons slot rest =>
      simp only [Phase.step] at stepped
      split at stepped <;> cases stepped <;> exact .read rfl rfl
  | swap key slot rest =>
    simp only [Phase.step] at stepped
    split at stepped
    · rename_i empty
      cases stepped
      exact .take empty
    · cases stepped
      exact .read rfl rfl
  | scan key mine rest winner mineSeen =>
    cases rest with
    | nil =>
      simp only [Phase.step] at stepped
      split at stepped <;> cases stepped <;> exact .read rfl rfl
    | cons other rest =>
      simp only [Phase.step] at stepped
      split at stepped
      · cases stepped
        exact .read rfl rfl
      split at stepped
      · cases stepped
        exact .read rfl rfl
      split at stepped <;> cases stepped <;> exact .read rfl rfl
  | ask key slot after =>
    obtain ⟨quota, _, next⟩ := Option.bind_eq_some_iff.mp stepped
    cases next
    exact .read rfl rfl
  | release key slot quota after =>
    simp only [Phase.step] at stepped
    split at stepped
    · rename_i same
      cases stepped
      exact .block same
    · cases stepped
      exact .read rfl (resume_resetting key after)
  | reset key slot left after =>
    cases left with
    | nil =>
      cases stepped
      exact .free
    | cons store left =>
      cases stepped
      exact .store

theorem busy_not_real : ¬ RealKey busyKey := by decide

theorem empty_not_real : ¬ RealKey emptyKey := by decide

theorem resets_key (quota : Quota) : ∀ store ∈ resets quota, ∀ s, (store s).key = s.key := by
  intro store mem s
  simp only [resets, List.mem_cons, List.not_mem_nil, or_false] at mem
  rcases mem with rfl | rfl | rfl | rfl | rfl | rfl | rfl <;> rfl

theorem Wrote.keeps (wrote : Wrote l slots p slots' p') (sound : PhaseSound l held slots p)
    {slot : Nat} (real : RealKey (slots' slot).key) : (slots' slot).key = (slots slot).key ∨
      (∃ rest, p = .swap (slots' slot).key slot rest) ∧
        p' = .scan (slots' slot).key slot (l.candidates (slots' slot).key) slot false := by
  cases wrote with
  | read => exact .inl rfl
  | @take key at' rest empty =>
    by_cases same : slot = at'
    · subst same
      rw [Function.update_self]
      exact .inr ⟨⟨rest, rfl⟩, rfl⟩
    · rw [update_key, if_neg same]
      exact .inl rfl
  | @block key at' quota after holds =>
    rw [update_key] at real ⊢
    split at real
    · exact absurd real busy_not_real
    · rename_i other
      exact .inl (if_neg other)
  | @store key at' store left after =>
    rw [update_key]
    split
    · rename_i same
      subst same
      exact .inl (sound.2.2.1 store List.mem_cons_self _)
    · exact .inl rfl
  | @free key at' after =>
    rw [update_key] at real ⊢
    split at real
    · exact absurd real empty_not_real
    · rename_i other
      exact .inl (if_neg other)

/- A slot that holds a key is not touched but by a release of that key. -/
theorem Wrote.foreign (wrote : Wrote l slots p slots' p') (sound : PhaseSound l held slots p)
    {slot : Nat} (real : RealKey (slots slot).key) : slots' slot = slots slot ∨
      ∃ quota after, p = .release (slots slot).key slot quota after := by
  cases wrote with
  | read => exact .inl rfl
  | @take key at' rest empty =>
    refine .inl (Function.update_of_ne ?_ _ _)
    rintro rfl
    exact empty_not_real (empty ▸ real)
  | @block key at' quota after holds =>
    by_cases same : slot = at'
    · subst same
      exact .inr ⟨quota, after, by rw [holds]⟩
    · exact .inl (Function.update_of_ne same _ _)
  | @store key at' store left after =>
    refine .inl (Function.update_of_ne ?_ _ _)
    rintro rfl
    exact busy_not_real (sound.2.1 ▸ real)
  | @free key at' after =>
    refine .inl (Function.update_of_ne ?_ _ _)
    rintro rfl
    exact busy_not_real (sound.2.1 ▸ real)

/- A slot being reset stays so but for the thread that resets it. -/
theorem Wrote.busy (wrote : Wrote l slots p slots' p') (sound : PhaseSound l held slots p)
    {slot : Nat} (busy : (slots slot).key = busyKey) (other : p.resetting ≠ some slot) :
    (slots' slot).key = busyKey := by
  cases wrote with
  | read => exact busy
  | @take key at' rest empty =>
    rw [update_key, if_neg, busy]
    rintro rfl
    exact absurd (busy.symm.trans empty) (by decide)
  | @block key at' quota after holds =>
    rw [update_key]
    split
    · rfl
    · exact busy
  | @store key at' store left after | @free key at' after =>
    rw [update_key, if_neg, busy]
    rintro rfl
    exact other rfl

theorem Wrote.resetting (wrote : Wrote l slots p slots' p') (sound : PhaseSound l held slots p)
    {slot : Nat} (resets : p'.resetting = some slot) :
    p.resetting = some slot ∨ (slots slot).key ≠ busyKey := by
  cases wrote with
  | read before after =>
    rw [after] at resets
    nomatch resets
  | take => nomatch resets
  | @block key at' quota after holds =>
    obtain rfl := Option.some.inj resets
    rw [holds]
    exact .inr sound.1.2
  | store => exact .inl resets
  | @free key at' after =>
    rw [resume_resetting] at resets
    nomatch resets

theorem AfterSound.mono (more : ∀ key slot, held key slot → held' key slot) {key : UInt64}
    {slot : Nat} {after : After} (sound : AfterSound l held key slot after) :
    AfterSound l held' key slot after := by
  cases after with
  | background => trivial
  | scanning mine rest winner =>
    obtain ⟨own, before, split, rival⟩ := sound
    exact ⟨more _ _ own, before, split, rival.imp_right fun earlier => ⟨more _ _ earlier.1, earlier.2⟩⟩
  | returning winner => exact ⟨more _ _ sound.1, sound.2⟩

theorem PhaseSound.busy (sound : PhaseSound l held slots p) {slot : Nat}
    (resets : p.resetting = some slot) : (slots slot).key = busyKey := by
  cases p with
  | reset key at' left after => exact Option.some.inj resets ▸ sound.2.1
  | _ => nomatch resets

theorem PhaseSound.mono (more : ∀ key slot, held key slot → held' key slot)
    (busy : ∀ slot, p.resetting = some slot → (slots' slot).key = busyKey)
    (sound : PhaseSound l held slots p) : PhaseSound l held' slots' p := by
  cases p with
  | idle | claimed | released | find | countSecond | countFirst | pick | swap => exact sound
  | scan key mine rest winner mineSeen =>
    obtain ⟨real, own, split, rival⟩ := sound
    exact ⟨real, more _ _ own, split, rival.imp_right fun earlier => ⟨more _ _ earlier.1, earlier.2⟩⟩
  | ask key slot after | release key slot quota after => exact ⟨sound.1, sound.2.mono more⟩
  | reset key slot left after =>
    exact ⟨sound.1, busy slot rfl, sound.2.2.1, sound.2.2.2.mono more⟩

theorem resume_sound {key : UInt64} {slot : Nat} {after : After} (real : RealKey key)
    (sound : AfterSound l held key slot after) : PhaseSound l held slots (after.resume key) := by
  cases after with
  | background | returning winner => trivial
  | scanning mine rest winner =>
    obtain ⟨own, _, ⟨passed, split, mem⟩, rival⟩ := sound
    exact ⟨real, own, ⟨passed, split, iff_of_true rfl mem⟩, rival⟩

theorem PhaseSound.step (sound : PhaseSound l held slots p)
    (stepped : p.step l slots = some (slots', p'))
    (holders : ∀ slot, RealKey (slots slot).key → held (slots slot).key slot)
    (holders' : ∀ slot, RealKey (slots' slot).key → held (slots' slot).key slot)
    (candidates : ∀ key slot, held key slot → slot ∈ l.candidates key) :
    PhaseSound l held slots' p' := by
  cases p with
  | idle | claimed | released => nomatch stepped
  | find key rest =>
    cases rest with
    | nil =>
      cases stepped
      exact sound
    | cons slot rest =>
      simp only [Phase.step] at stepped
      split at stepped <;> cases stepped
      · trivial
      · exact sound
  | countSecond key rest second =>
    cases rest <;> cases stepped <;> exact sound
  | countFirst key rest second first =>
    cases rest with
    | nil =>
      cases stepped
      refine ⟨sound, fun slot mem => l.mem_candidates.mpr ?_⟩
      split at mem
      · exact (List.mem_append.mp mem).symm
      · exact List.mem_append.mp mem
    | cons slot rest =>
      cases stepped
      exact sound
  | pick key rest =>
    obtain ⟨real, sub⟩ := sound
    cases rest with
    | nil =>
      cases stepped
      trivial
    | cons slot rest =>
      obtain ⟨mem, sub⟩ := List.cons_subset.mp sub
      simp only [Phase.step] at stepped
      split at stepped <;> cases stepped
      · exact ⟨real, mem, sub⟩
      · exact ⟨real, sub⟩
  | swap key slot rest =>
    obtain ⟨real, mem, sub⟩ := sound
    simp only [Phase.step] at stepped
    split at stepped <;> cases stepped
    · have own := holders' slot
      rw [Function.update_self] at own
      exact ⟨real, own real, ⟨[], rfl, by simp⟩, .inl rfl⟩
    · exact ⟨real, sub⟩
  | scan key mine rest winner mineSeen =>
    obtain ⟨real, own, ⟨passed, split, seen⟩, rival⟩ := sound
    cases rest with
    | nil =>
      simp only [Phase.step] at stepped
      split at stepped <;> cases stepped
      · trivial
      · rename_i other
        exact ⟨real, rival.resolve_left other⟩
    | cons other rest =>
      have shifted : (passed ++ [other]) ++ rest = l.candidates key := by
        rw [List.append_assoc]
        exact split
      simp only [Phase.step] at stepped
      split at stepped
      · rename_i same
        cases stepped
        refine ⟨real, own, ⟨_, shifted, iff_of_true rfl ?_⟩, rival⟩
        exact List.mem_append_right _ (List.mem_singleton.mpr same.symm)
      · rename_i apart
        have still : mineSeen = true ↔ mine ∈ passed ++ [other] := by
          rw [seen, List.mem_append, List.mem_singleton, or_iff_left (Ne.symm apart)]
        split at stepped
        · cases stepped
          exact ⟨real, own, ⟨_, shifted, still⟩, rival⟩
        · rename_i holds
          have same : (slots other).key = key := not_not.mp holds
          split at stepped <;> cases stepped
          · rename_i later
            have mem : mine ∈ passed := seen.mp later
            exact ⟨real, own, before_of_split split (l.candidates_nodup key) mem List.mem_cons_self,
              ⟨_, shifted, still.mp later⟩, rival⟩
          · rename_i earlier
            refine ⟨real, own, ⟨_, shifted, still⟩, ?_⟩
            split
            · have heldOther : held key other := same ▸ holders other (same.symm ▸ real)
              have left : mine ∈ rest := by
                have mem := candidates key mine own
                rw [← shifted] at mem
                exact (List.mem_append.mp mem).resolve_left fun passed => earlier (still.mpr passed)
              exact .inr ⟨heldOther, before_of_split shifted (l.candidates_nodup key)
                (List.mem_append_right _ (List.mem_singleton.mpr rfl)) left⟩
            · exact rival
  | ask key slot after =>
    obtain ⟨quota, _, next⟩ := Option.bind_eq_some_iff.mp stepped
    cases next
    exact sound
  | release key slot quota after =>
    simp only [Phase.step] at stepped
    split at stepped <;> cases stepped
    · exact ⟨sound.1, by rw [Function.update_self], resets_key quota, sound.2⟩
    · exact resume_sound sound.1 sound.2
  | reset key slot left after =>
    obtain ⟨real, busy, keeps, sound⟩ := sound
    cases left with
    | nil =>
      cases stepped
      exact resume_sound real sound
    | cons store left =>
      cases stepped
      refine ⟨real, ?_, fun s mem => keeps s (List.mem_cons_of_mem _ mem), sound⟩
      rw [Function.update_self, keeps store List.mem_cons_self, busy]

theorem resume_owes {key : UInt64} {a b : Nat} {after : After} (owes : OwesAfter a b after) :
    Owes key a b (after.resume key) := by
  cases after with
  | background | returning winner => exact owes.elim
  | scanning mine rest winner => exact ⟨rfl, owes.imp_left fun own => ⟨own.1, .inr own.2⟩⟩

theorem resting_owes {key : UInt64} {a b : Nat} (resting : p.resting = true) :
    ¬ Owes key a b p := by
  cases p with
  | idle | claimed | released => exact id
  | _ => nomatch resting

/- While both slots hold the key, who owes the later one still does. -/
theorem Owes.step {key : UInt64} {a b : Nat} (owes : Owes key a b p)
    (sound : PhaseSound l held slots p) (stepped : p.step l slots = some (slots', p'))
    (candidates : ∀ key slot, held key slot → slot ∈ l.candidates key)
    (before : Before (l.candidates key) a b) (holdsA : (slots a).key = key)
    (holdsB : (slots b).key = key) (holdsB' : (slots' b).key = key) : Owes key a b p' := by
  cases p with
  | idle | claimed | released | find | countSecond | countFirst | pick | swap => exact owes.elim
  | scan k mine rest winner mineSeen =>
    obtain ⟨rfl, owes⟩ := owes
    obtain ⟨real, own, ⟨passed, split, seen⟩, rival⟩ := sound
    have nodup := l.candidates_nodup k
    cases rest with
    | nil =>
      obtain ⟨rfl, reason⟩ := owes.resolve_right fun none => List.not_mem_nil none.2
      have lost : winner ≠ mine := reason.resolve_left List.not_mem_nil
      rw [Phase.step, if_neg lost] at stepped
      cases stepped
      exact ⟨rfl, .inl rfl⟩
    | cons other rest =>
      have shifted : (passed ++ [other]) ++ rest = l.candidates k := by
        rw [List.append_assoc]
        exact split
      simp only [Phase.step] at stepped
      split at stepped
      · rename_i same
        cases stepped
        refine ⟨rfl, owes.imp ?_ ?_⟩
        · rintro ⟨rfl, ahead | lost⟩
          · exact ⟨rfl, .inl ((List.mem_cons.mp ahead).resolve_left (same ▸ before.ne))⟩
          · exact ⟨rfl, .inr lost⟩
        · rintro ⟨rfl, ahead⟩
          exact ⟨rfl, (List.mem_cons.mp ahead).resolve_left (same ▸ before.ne.symm)⟩
      · rename_i apart
        split at stepped
        · rename_i foreign
          cases stepped
          refine ⟨rfl, owes.imp ?_ ?_⟩
          · rintro ⟨rfl, ahead | lost⟩
            · refine ⟨rfl, .inl ((List.mem_cons.mp ahead).resolve_left ?_)⟩
              rintro rfl
              exact foreign holdsA
            · exact ⟨rfl, .inr lost⟩
          · rintro ⟨rfl, ahead⟩
            refine ⟨rfl, (List.mem_cons.mp ahead).resolve_left ?_⟩
            rintro rfl
            exact foreign holdsB
        · split at stepped <;> cases stepped
          · rename_i later
            rcases owes with ⟨rfl, ahead | lost⟩ | ⟨rfl, ahead⟩
            · exact absurd before (before_of_split split nodup (seen.mp later) ahead).asymm
            · exact ⟨rfl, .inr (.inl ⟨rfl, lost⟩)⟩
            · refine ⟨rfl, (List.mem_cons.mp ahead).imp Eq.symm fun ahead => .inr ⟨rfl, ahead⟩⟩
          · rename_i earlier
            rcases owes with ⟨rfl, owes⟩ | ⟨rfl, ahead⟩
            · refine ⟨rfl, .inl ⟨rfl, ?_⟩⟩
              split
              · exact .inr apart
              · rename_i lost
                exact .inr lost
            · have left : mine ∈ rest := by
                have mem := candidates k mine own
                rw [← split] at mem
                refine (List.mem_cons.mp ((List.mem_append.mp mem).resolve_left fun passed =>
                  earlier (seen.mpr passed))).resolve_left (Ne.symm apart)
              refine ⟨rfl, .inr ⟨rfl, (List.mem_cons.mp ahead).resolve_left ?_⟩⟩
              rintro rfl
              exact absurd before (before_of_split shifted nodup
                (List.mem_append_right _ (List.mem_singleton.mpr rfl)) left).asymm
  | ask k slot after =>
    obtain ⟨quota, _, next⟩ := Option.bind_eq_some_iff.mp stepped
    cases next
    exact owes
  | release k slot quota after =>
    obtain ⟨rfl, owes⟩ := owes
    simp only [Phase.step] at stepped
    split at stepped <;> cases stepped
    · refine ⟨rfl, owes.resolve_left ?_⟩
      rintro rfl
      rw [Function.update_self] at holdsB'
      have same : busyKey = k := holdsB'
      exact busy_not_real (same ▸ sound.1)
    · rename_i foreign
      refine resume_owes (owes.resolve_left ?_)
      rintro rfl
      exact foreign holdsB
  | reset k slot left after =>
    obtain ⟨rfl, owes⟩ := owes
    cases left with
    | nil =>
      cases stepped
      exact resume_owes owes
    | cons store left =>
      cases stepped
      exact ⟨rfl, owes⟩

end

section
variable {ι : Type} {l : Layout}

def HeldIn (seen : List (World ι)) (key : UInt64) (slot : Nat) : Prop :=
  RealKey key ∧ ∃ v ∈ seen, (v.slots slot).key = key

theorem HeldIn.mono {seen seen' : List (World ι)} (sub : seen ⊆ seen') {key : UInt64} {slot : Nat}
    (held : HeldIn seen key slot) : HeldIn seen' key slot := by
  obtain ⟨real, v, mem, holds⟩ := held
  exact ⟨real, v, sub mem, holds⟩

theorem sound_start (quota : Quota) :
    Sound l (HeldIn [(.start quota : World ι)]) (.start quota : World ι) := by
  have fresh : ∀ key, RealKey key → emptyKey ≠ key := by
    rintro key real rfl
    exact empty_not_real real
  refine ⟨fun _ real => absurd real empty_not_real, ?_, fun _ => trivial, ?_, ?_⟩
  · rintro key slot ⟨real, v, mem, holds⟩
    obtain rfl := List.mem_singleton.mp mem
    exact absurd holds (fresh key real)
  · intro i j slot resetting
    nomatch resetting
  · intro key a b real _ holds
    exact absurd holds (fresh key real)

variable {w w' : World ι} {past : List (World ι)}

/- Calls that begin, and writes that leave the keys: no call under way is lost. -/
theorem Sound.still (sound : Sound l (HeldIn (w :: past)) w)
    (keys : ∀ slot, (w'.slots slot).key = (w.slots slot).key)
    (phases : ∀ i, w'.phase i = w.phase i ∨ (w.phase i).resting = true ∧
      (w'.phase i).resetting = none ∧ PhaseSound l (HeldIn (w :: past)) w'.slots (w'.phase i)) :
    Sound l (HeldIn (w' :: w :: past)) w' := by
  have more : ∀ key slot, HeldIn (w :: past) key slot → HeldIn (w' :: w :: past) key slot :=
    fun key slot => HeldIn.mono (List.subset_cons_self _ _)
  have resetting : ∀ i slot, (w'.phase i).resetting = some slot →
      (w.phase i).resetting = some slot := by
    intro i slot resets
    rcases phases i with same | ⟨_, none, _⟩
    · rwa [← same]
    · rw [none] at resets
      nomatch resets
  refine ⟨fun slot real => ⟨real, w', List.mem_cons_self, rfl⟩, ?_, ?_, ?_, ?_⟩
  · rintro key slot ⟨real, v, mem, holds⟩
    rcases List.mem_cons.mp mem with rfl | mem
    · rw [keys] at holds
      exact sound.candidates key slot ⟨real, w, List.mem_cons_self, holds⟩
    · exact sound.candidates key slot ⟨real, v, mem, holds⟩
  · intro i
    have busy : ∀ slot, (w'.phase i).resetting = some slot → (w'.slots slot).key = busyKey := by
      intro slot resets
      rw [keys]
      exact (sound.phases i).busy (resetting i slot resets)
    rcases phases i with same | ⟨_, _, begun⟩
    · rw [same] at busy ⊢
      exact (sound.phases i).mono more busy
    · exact begun.mono more busy
  · intro i j slot one two
    exact sound.alone i j slot (resetting i slot one) (resetting j slot two)
  · intro key a b real before holdsA holdsB
    rw [keys] at holdsA holdsB
    obtain ⟨i, owes⟩ := sound.covered key a b real before holdsA holdsB
    rcases phases i with same | ⟨resting, _⟩
    · exact ⟨i, same ▸ owes⟩
    · exact absurd owes (resting_owes resting)

/-- At rest no slot is still to be given back. -/
theorem Sound.once (sound : Sound l (HeldIn (w :: past)) w)
    (rest : ∀ i, (w.phase i).resting = true) {key : UInt64} (real : RealKey key) {a b : Nat}
    (holdsA : (w.slots a).key = key) (holdsB : (w.slots b).key = key) : a = b := by
  have memA := sound.candidates key a ⟨real, w, List.mem_cons_self, holdsA⟩
  have apart : ∀ a b, (w.slots a).key = key → (w.slots b).key = key →
      ¬ Before (l.candidates key) a b := by
    intro a b holdsA holdsB before
    obtain ⟨i, owes⟩ := sound.covered key a b real before holdsA holdsB
    exact resting_owes (rest i) owes
  exact (List.idxOf_inj memA).mp
    (Nat.le_antisymm (Nat.le_of_not_lt (apart b a holdsB holdsA))
      (Nat.le_of_not_lt (apart a b holdsA holdsB)))

variable [DecidableEq ι]

theorem Sound.go {i : ι} {slots : Slots} {phase : Phase} (sound : Sound l (HeldIn (w :: past)) w)
    (stepped : (w.phase i).step l w.slots = some (slots, phase)) :
    Sound l (HeldIn (⟨slots, Function.update w.phase i phase⟩ :: w :: past))
      ⟨slots, Function.update w.phase i phase⟩ := by
  have wrote := step_wrote stepped
  have own := sound.phases i
  have more : ∀ key slot, HeldIn (w :: past) key slot →
      HeldIn (⟨slots, Function.update w.phase i phase⟩ :: w :: past) key slot :=
    fun key slot => HeldIn.mono (List.subset_cons_self _ _)
  have candidates : ∀ key slot,
      HeldIn (⟨slots, Function.update w.phase i phase⟩ :: w :: past) key slot →
      slot ∈ l.candidates key := by
    rintro key slot ⟨real, v, mem, holds⟩
    rcases List.mem_cons.mp mem with rfl | mem
    · dsimp only at holds
      subst holds
      rcases wrote.keeps own real with same | ⟨⟨rest, swap⟩, _⟩
      · exact sound.candidates _ slot ⟨real, w, List.mem_cons_self, same.symm⟩
      · rw [swap] at own
        exact own.2.1
    · exact sound.candidates key slot ⟨real, v, mem, holds⟩
  refine ⟨fun slot real => ⟨real, _, List.mem_cons_self, rfl⟩, candidates, ?_, ?_, ?_⟩
  · intro j
    dsimp only
    by_cases same : j = i
    · subst same
      rw [Function.update_self]
      refine PhaseSound.step (own.mono more fun slot resets => own.busy resets) stepped ?_ ?_ candidates
      · exact fun slot real => more _ _ (sound.holders slot real)
      · exact fun slot real => ⟨real, _, List.mem_cons_self, rfl⟩
    · rw [Function.update_of_ne same]
      refine (sound.phases j).mono more fun slot resets => ?_
      refine wrote.busy own ((sound.phases j).busy resets) fun mine => same ?_
      exact sound.alone j i slot resets mine
  · intro j k slot one two
    dsimp only at one two
    have mover : ∀ j, j ≠ i → phase.resetting = some slot →
        (w.phase j).resetting ≠ some slot := by
      intro j other mine its
      rcases wrote.resetting own mine with already | free
      · exact other (sound.alone j i slot its already)
      · exact free ((sound.phases j).busy its)
    by_cases isJ : j = i <;> by_cases isK : k = i
    · rw [isJ, isK]
    · subst isJ
      rw [Function.update_self] at one
      rw [Function.update_of_ne isK] at two
      exact absurd two (mover k isK one)
    · subst isK
      rw [Function.update_of_ne isJ] at one
      rw [Function.update_self] at two
      exact absurd one (mover j isJ two)
    · rw [Function.update_of_ne isJ] at one
      rw [Function.update_of_ne isK] at two
      exact sound.alone j k slot one two
  · intro key a b real before holdsA holdsB
    dsimp only at holdsA holdsB ⊢
    subst holdsA
    rcases wrote.keeps own real with sameA | ⟨_, took⟩
    · rw [← holdsB] at real
      rcases wrote.keeps own real with sameB | ⟨_, took⟩
      · obtain ⟨j, owes⟩ := sound.covered _ a b (holdsB ▸ real) before sameA.symm (sameB.symm.trans holdsB)
        refine ⟨j, ?_⟩
        by_cases same : j = i
        · subst same
          rw [Function.update_self]
          exact owes.step own stepped sound.candidates before sameA.symm (sameB.symm.trans holdsB) holdsB
        · rwa [Function.update_of_ne same]
      · refine ⟨i, ?_⟩
        rw [Function.update_self, took]
        exact ⟨holdsB, .inl ⟨rfl, .inl (holdsB ▸ candidates _ a ⟨holdsB ▸ real, _, List.mem_cons_self, rfl⟩)⟩⟩
    · refine ⟨i, ?_⟩
      rw [Function.update_self, took]
      exact ⟨rfl, .inr ⟨rfl, candidates _ b ⟨real, _, List.mem_cons_self, holdsB⟩⟩⟩

theorem Sound.begin {i : ι} {phase : Phase} (sound : Sound l (HeldIn (w :: past)) w)
    (resting : (w.phase i).resting = true) (none : phase.resetting = none)
    (begun : PhaseSound l (HeldIn (w :: past)) w.slots phase) :
    Sound l (HeldIn ({ w with phase := Function.update w.phase i phase } :: w :: past))
      { w with phase := Function.update w.phase i phase } := by
  refine sound.still (fun _ => rfl) fun j => ?_
  by_cases same : j = i
  · subst same
    dsimp only
    rw [Function.update_self]
    exact .inr ⟨resting, none, begun⟩
  · exact .inl (Function.update_of_ne same _ _)

theorem Sound.step (sound : Sound l (HeldIn (w :: past)) w) (step : Step l w w') :
    Sound l (HeldIn (w' :: w :: past)) w' := by
  cases step with
  | claim i key resting real => exact sound.begin resting rfl real
  | free i slot key quota resting real => exact sound.begin resting rfl ⟨real, trivial⟩
  | go i slots phase stepped => exact sound.go stepped
  | write slot written same =>
    refine sound.still (fun other => ?_) fun _ => .inl rfl
    dsimp only
    rw [update_key]
    split
    · rename_i here
      rw [same, here]
    · rfl

theorem Run.sound (run : Run l w past) : Sound l (HeldIn (w :: past)) w := by
  induction run with
  | start quota => exact sound_start quota
  | step _ step before => exact before.step step

end

end Rateguard.KeyTable
