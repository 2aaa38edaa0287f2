import Mathlib.Data.Fintype.Basic
import Rateguard.KeyClaims

/- What the threads of a key table bring about over a run, from a fresh table on. -/
namespace Rateguard.KeyTable
variable {ι : Type} [DecidableEq ι] {l : Layout} {w w' : World ι} {past : List (World ι)}

def Phase.frees (key : UInt64) : Phase → Bool
  | .release k _ _ .background => k = key
  | _ => false

/- A claim of the key that took a slot: it is past its swap. -/
def Phase.took (key : UInt64) : Phase → Bool
  | .scan k .. => k = key
  | _ => false

def Freed (seen : List (World ι)) (key : UInt64) : Prop :=
  ∃ v ∈ seen, ∃ i, (v.phase i).frees key = true

def Took (seen : List (World ι)) (key : UInt64) : Prop :=
  ∃ v ∈ seen, ∃ i, (v.phase i).took key = true

instance [Fintype ι] (seen : List (World ι)) (key : UInt64) : Decidable (Freed seen key) :=
  inferInstanceAs (Decidable (∃ v ∈ seen, ∃ i, (v.phase i).frees key = true))

instance [Fintype ι] (seen : List (World ι)) (key : UInt64) : Decidable (Took seen key) :=
  inferInstanceAs (Decidable (∃ v ∈ seen, ∃ i, (v.phase i).took key = true))

/- Nothing but the background takes the key from the earliest slot that ever held it. -/
theorem Run.earliest (run : Run l w past) {key : UInt64} {slot : Nat}
    (held : HeldIn (w :: past) key slot) (kept : ¬ Freed (w :: past) key)
    (first : ∀ other, HeldIn (w :: past) key other → ¬ Before (l.candidates key) other slot) :
    (w.slots slot).key = key := by
  induction run with
  | start quota =>
    obtain ⟨_, v, mem, holds⟩ := held
    exact List.mem_singleton.mp mem ▸ holds
  | @step w w' past run step earlier =>
    have more : ∀ other, HeldIn (w :: past) key other → HeldIn (w' :: w :: past) key other :=
      fun other => HeldIn.mono (List.subset_cons_self _ _)
    obtain ⟨real, v, mem, holds⟩ := held
    rcases List.mem_cons.mp mem with rfl | mem
    · exact holds
    have before : (w.slots slot).key = key := by
      refine earlier ⟨real, v, mem, holds⟩ ?_ fun other held => first other (more other held)
      rintro ⟨v, mem, freed⟩
      exact kept ⟨v, List.mem_cons_of_mem _ mem, freed⟩
    cases step with
    | claim | free => exact before
    | write at' written same =>
      dsimp only
      rw [update_key]
      split
      · rename_i here
        rw [same, ← here, before]
      · exact before
    | go i slots phase stepped =>
      have own := run.sound.phases i
      rcases (step_wrote stepped).foreign own (before.symm ▸ real) with same | ⟨quota, after, release⟩
      · exact (congrArg Slot.key same).trans before
      · rw [before] at release
        rw [release] at own
        cases after with
        | background =>
          refine absurd ⟨w, List.mem_cons_of_mem _ List.mem_cons_self, i, ?_⟩ kept
          rw [release]
          exact decide_eq_true rfl
        | scanning mine rest winner => exact absurd own.2.2.1 (first mine (more mine own.2.1))
        | returning winner => exact absurd own.2.2 (first winner (more winner own.2.1))

theorem took_held {held : UInt64 → Nat → Prop} {slots : Slots} {p : Phase} {key : UInt64}
    (sound : PhaseSound l held slots p) (took : p.took key = true) : ∃ mine, held key mine := by
  cases p with
  | scan k mine rest winner mineSeen => exact ⟨mine, of_decide_eq_true took ▸ sound.2.1⟩
  | _ => nomatch took

theorem Run.took (run : Run l w past) {key : UInt64} (took : Took (w :: past) key) :
    ∃ mine, HeldIn (w :: past) key mine := by
  induction run with
  | start quota =>
    obtain ⟨v, mem, i, scans⟩ := took
    rw [List.mem_singleton.mp mem] at scans
    nomatch scans
  | @step w w' past run step earlier =>
    obtain ⟨v, mem, i, scans⟩ := took
    rcases List.mem_cons.mp mem with rfl | mem
    · exact took_held ((run.step step).sound.phases i) scans
    · obtain ⟨mine, held⟩ := earlier ⟨v, mem, i, scans⟩
      exact ⟨mine, held.mono (List.subset_cons_self _ _)⟩

theorem Run.kept (run : Run l w past) {key : UInt64} (took : Took (w :: past) key)
    (kept : ¬ Freed (w :: past) key) : ∃ slot, (w.slots slot).key = key := by
  obtain ⟨slot, held, first⟩ := (measure (l.candidates key).idxOf).wf.has_min
    {slot | HeldIn (w :: past) key slot} (run.took took)
  exact ⟨slot, run.earliest held kept first⟩

def Phase.key : Phase → Option UInt64
  | .idle | .claimed .. | .released => none
  | .find key _ | .countSecond key .. | .countFirst key .. | .pick key _ | .swap key .. |
    .scan key .. | .ask key .. | .release key .. | .reset key .. => some key

/- The candidates that a claim is not still to read were not free. -/
def PassedOver (l : Layout) (full : Nat → Prop) : Phase → Prop
  | .pick key rest => ∀ slot ∈ l.candidates key, slot ∈ rest ∨ full slot
  | .swap key slot rest => ∀ other ∈ l.candidates key, other = slot ∨ other ∈ rest ∨ full other
  | .claimed key none _ => ∀ slot ∈ l.candidates key, full slot
  | _ => True

theorem PassedOver.mono {full full' : Nat → Prop} (more : ∀ slot, full slot → full' slot)
    {p : Phase} (passed : PassedOver l full p) : PassedOver l full' p := by
  cases p with
  | pick key rest => exact fun slot mem => (passed slot mem).imp_right (more slot)
  | swap key slot rest => exact fun other mem => (passed other mem).imp_right (Or.imp_right (more other))
  | claimed key slot took =>
    cases slot with
    | none => exact fun slot mem => more slot (passed slot mem)
    | some => trivial
  | _ => trivial

theorem resume_passedOver {full : Nat → Prop} (key : UInt64) (after : After) :
    PassedOver l full (after.resume key) := by
  cases after <;> trivial

theorem PassedOver.step {full : Nat → Prop} {slots slots' : Slots} {p p' : Phase}
    (passed : PassedOver l full p) (stepped : p.step l slots = some (slots', p'))
    (taken : ∀ slot, (slots slot).key ≠ emptyKey → full slot) : PassedOver l full p' := by
  cases p with
  | idle | claimed | released => nomatch stepped
  | find key rest =>
    cases rest with
    | nil =>
      cases stepped
      trivial
    | cons slot rest =>
      simp only [Phase.step] at stepped
      split at stepped <;> cases stepped <;> trivial
  | countSecond key rest second =>
    cases rest <;> cases stepped <;> trivial
  | countFirst key rest second first =>
    cases rest with
    | nil =>
      cases stepped
      refine fun slot mem => .inl ?_
      split
      · exact List.mem_append.mpr (l.mem_candidates.mp mem).symm
      · exact List.mem_append.mpr (l.mem_candidates.mp mem)
    | cons slot rest =>
      cases stepped
      trivial
  | pick key rest =>
    cases rest with
    | nil =>
      cases stepped
      exact fun slot mem => (passed slot mem).resolve_left List.not_mem_nil
    | cons slot rest =>
      simp only [Phase.step] at stepped
      split at stepped
      · cases stepped
        exact fun other mem => (passed other mem).elim (fun left => (List.mem_cons.mp left).imp_right .inl)
          fun full => .inr (.inr full)
      · rename_i full
        cases stepped
        intro other mem
        rcases passed other mem with left | before
        · refine (List.mem_cons.mp left).symm.imp_right ?_
          rintro rfl
          exact taken _ full
        · exact .inr before
  | swap key slot rest =>
    simp only [Phase.step] at stepped
    split at stepped
    · cases stepped
      trivial
    · rename_i full
      cases stepped
      intro other mem
      rcases passed other mem with rfl | before
      · exact .inr (taken _ full)
      · exact before
  | scan key mine rest winner mineSeen =>
    cases rest with
    | nil =>
      simp only [Phase.step] at stepped
      split at stepped <;> cases stepped <;> trivial
    | cons other rest =>
      simp only [Phase.step] at stepped
      split at stepped
      · cases stepped
        trivial
      split at stepped
      · cases stepped
        trivial
      split at stepped <;> cases stepped <;> trivial
  | ask key slot after =>
    obtain ⟨quota, _, next⟩ := Option.bind_eq_some_iff.mp stepped
    cases next
    trivial
  | release key slot quota after =>
    simp only [Phase.step] at stepped
    split at stepped <;> cases stepped
    · trivial
    · exact resume_passedOver key after
  | reset key slot left after =>
    cases left with
    | nil =>
      cases stepped
      exact resume_passedOver key after
    | cons store left =>
      cases stepped
      trivial

def FullIn (seen : List (World ι)) (slot : Nat) : Prop := ∃ v ∈ seen, (v.slots slot).key ≠ emptyKey

theorem passedOver_step {i : ι} {seen : List (World ι)} (step : Step l w w')
    (passed : PassedOver l (FullIn (w :: seen)) (w.phase i)) :
    PassedOver l (FullIn (w' :: w :: seen)) (w'.phase i) := by
  have more : ∀ slot, FullIn (w :: seen) slot → FullIn (w' :: w :: seen) slot :=
    fun slot ⟨v, mem, full⟩ => ⟨v, List.mem_cons_of_mem _ mem, full⟩
  cases step with
  | claim j key =>
    dsimp only
    by_cases same : i = j
    · rw [same, Function.update_self]
      trivial
    · rw [Function.update_of_ne same]
      exact passed.mono more
  | free j slot key quota =>
    dsimp only
    by_cases same : i = j
    · rw [same, Function.update_self]
      trivial
    · rw [Function.update_of_ne same]
      exact passed.mono more
  | write => exact passed.mono more
  | go j slots phase stepped =>
    dsimp only
    by_cases same : i = j
    · subst same
      rw [Function.update_self]
      exact (passed.mono more).step stepped fun slot full =>
        ⟨w, List.mem_cons_of_mem _ List.mem_cons_self, full⟩
    · rw [Function.update_of_ne same]
      exact passed.mono more

/- From the moment a claim looks its key up on. -/
theorem Run.passedOver {i : ι} {key : UInt64} {rest : List Nat} {during before : List (World ι)}
    {began : World ι} (run : Run l w (during ++ began :: before))
    (finds : began.phase i = .find key rest) :
    PassedOver l (FullIn (w :: during ++ [began])) (w.phase i) := by
  induction during generalizing w with
  | nil =>
    cases run with
    | step run step =>
      have found : PassedOver l (FullIn [began]) (began.phase i) := by
        rw [finds]
        trivial
      exact passedOver_step step found
  | cons v during earlier =>
    cases run with
    | step run step => exact passedOver_step step (earlier run)

/-- At rest a key is in one slot at most, one of its candidates, and in one for sure once a claim took
    a slot and the background never released the key. A claim or release leaves a slot alone that
    holds another key, and a claim that returns the overflow slot saw each candidate taken or being
    reset since it began. -/
theorem keys_held_once (run : Run l w past) :
    ((∀ i, (w.phase i).resting = true) → ∀ key, RealKey key →
      (∀ a b, (w.slots a).key = key → (w.slots b).key = key → a = b) ∧
      (∀ slot, (w.slots slot).key = key → slot ∈ l.candidates key) ∧
      (Took (w :: past) key → ¬ Freed (w :: past) key → ∃! slot, (w.slots slot).key = key)) ∧
    (∀ i key slots phase, (w.phase i).key = some key →
      (w.phase i).step l w.slots = some (slots, phase) → ∀ slot, RealKey (w.slots slot).key →
      (w.slots slot).key ≠ key → slots slot = w.slots slot) ∧
    (∀ i key rest took during began before, past = during ++ began :: before →
      began.phase i = .find key rest → w.phase i = .claimed key none took →
      ∀ slot ∈ l.candidates key, ∃ v ∈ w :: during ++ [began], (v.slots slot).key ≠ emptyKey) := by
  have sound := run.sound
  refine ⟨fun rest key real => ?_, ?_, ?_⟩
  · have once : ∀ a b, (w.slots a).key = key → (w.slots b).key = key → a = b :=
      fun a b holdsA holdsB => sound.once rest real holdsA holdsB
    refine ⟨once, fun slot holds => ?_, fun took kept => ?_⟩
    · exact sound.candidates key slot ⟨real, w, List.mem_cons_self, holds⟩
    · obtain ⟨slot, holds⟩ := run.kept took kept
      exact ⟨slot, holds, fun other also => once other slot also holds⟩
  · intro i key slots phase its stepped slot real other
    rcases (step_wrote stepped).foreign (sound.phases i) real with same | ⟨quota, after, release⟩
    · exact same
    · rw [release] at its
      exact absurd (Option.some.inj its) other
  · rintro i key rest took during began before rfl finds overflow slot mem
    have passed := run.passedOver finds
    rw [overflow] at passed
    exact passed slot mem

/- Threads take steps in a given order. -/
def plays (l : Layout) : List ι → World ι → List (World ι) → Option (World ι × List (World ι))
  | [], w, past => some (w, past)
  | i :: order, w, past => do
    let (slots, phase) ← (w.phase i).step l w.slots
    plays l order ⟨slots, Function.update w.phase i phase⟩ (w :: past)

theorem run_plays {order : List ι} {reached : World ι × List (World ι)} (run : Run l w past)
    (played : plays l order w past = some reached) : Run l reached.1 reached.2 := by
  induction order generalizing w past with
  | nil =>
    cases played
    exact run
  | cons i order rest =>
    obtain ⟨⟨slots, phase⟩, stepped, played⟩ := Option.bind_eq_some_iff.mp played
    exact rest (run.step (.go i slots phase stepped)) played

def single : Layout := ⟨1, fun _ => 0⟩

/- Two claims of one key in a table of one bucket: both see its first slot free, and the one that
   comes second takes the next slot, finds the first and gives its own back. -/
def race : Option (World Bool × List (World Bool)) :=
  let start := .start (.perMilli 8 (by decide) (by decide))
  let one := { start with phase := Function.update start.phase true (.find 7 (single.candidates 7)) }
  let two := { one with phase := Function.update one.phase false (.find 7 (single.candidates 7)) }
  plays single (List.replicate 28 false ++ List.replicate 29 true ++ List.replicate 22 false ++
    List.replicate 9 true) two [one, start]

theorem race_run {reached : World Bool × List (World Bool)} (raced : race = some reached) :
    Run single reached.1 reached.2 := by
  refine run_plays ?_ raced
  refine ((Run.start _).step (.claim true 7 rfl (by decide))).step (.claim false 7 rfl (by decide))

theorem keys_held_once_race : ∃ (w : World Bool) (past : List (World Bool)),
    (∃ v ∈ past, (v.slots 0).key = 7 ∧ (v.slots 1).key = 7) ∧
      (∀ i, (w.phase i).resting = true) ∧ ∃! slot, (w.slots slot).key = 7 := by
  have met : race.any (fun reached => decide ((∃ v ∈ reached.2, (v.slots 0).key = 7 ∧
      (v.slots 1).key = 7) ∧ (∀ i, (reached.1.phase i).resting = true) ∧
      Took (reached.1 :: reached.2) 7 ∧ ¬ Freed (reached.1 :: reached.2) 7)) = true := by
    decide +kernel
  obtain ⟨⟨w, past⟩, raced, facts⟩ := (Option.any_eq_true _ _).mp met
  obtain ⟨both, rest, took, kept⟩ := of_decide_eq_true facts
  exact ⟨w, past, both, rest, ((keys_held_once (race_run raced)).1 rest 7 (by decide)).2.2 took kept⟩

end Rateguard.KeyTable
