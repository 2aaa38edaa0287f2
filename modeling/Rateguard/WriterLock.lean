import Mathlib.Logic.Function.Basic

/- A table that is changed by copy and swap: a writer takes a lock, copies the table, edits its copy,
   stores what is read beside the table, swaps the edited copy in and lets the lock go. Readers take
   the table as it is at any moment and no lock. -/
namespace WriterLock
variable {ι σ τ χ ρ : Type}

/- What is shared, of which the table is a part: the stores before a swap leave the table alone. -/
structure Shared (σ τ : Type) where
  view : σ → τ
  stores : τ → List (σ → σ)
  swap : τ → σ → σ
  view_store : ∀ t store s, store ∈ stores t → view (store s) = view s

/- A change is refused before the lock is taken, or edits the table: it answers, and has a new table
   to publish or none. -/
inductive Prepared (τ ρ : Type)
  | refused (answer : ρ)
  | edit (run : τ → ρ × Option τ)

variable (shared : Shared σ τ) (prepare : χ → Prepared τ ρ)

def publish (t : τ) (s : σ) : σ := shared.swap t ((shared.stores t).foldl (fun s store => store s) s)

def perform (c : χ) (s : σ) : ρ × σ :=
  match prepare c with
  | .refused answer => (answer, s)
  | .edit run =>
    match run (shared.view s) with
    | (answer, none) => (answer, s)
    | (answer, some t) => (answer, publish shared t s)

def performAll (start : σ) (changes : List χ) : σ :=
  changes.foldl (fun s c => (perform shared prepare c s).2) start

def answersOf (start : σ) : List χ → List ρ
  | [] => []
  | c :: rest =>
    (perform shared prepare c start).1 :: answersOf (perform shared prepare c start).2 rest

inductive Phase (σ τ ρ : Type)
  | idle
  | locked (run : τ → ρ × Option τ)
  | copied (run : τ → ρ × Option τ) (copy : τ)
  | storing (answer : ρ) (left : List (σ → σ)) (edited : τ)
  | leaving (answer : ρ)

/- The threads and what they share. Beside it the changes in the order their writers took the lock,
   the answers of those that let it go, and the tables that readers took. -/
structure World (ι σ τ χ ρ : Type) where
  shared : σ
  holder : Option ι
  phase : ι → Phase σ τ ρ
  order : List χ
  answers : List ρ
  seen : List τ

def World.start (s : σ) : World ι σ τ χ ρ := ⟨s, none, fun _ => .idle, [], [], []⟩

variable [DecidableEq ι]

def World.move (w : World ι σ τ χ ρ) (i : ι) (phase : Phase σ τ ρ) : World ι σ τ χ ρ :=
  { w with phase := Function.update w.phase i phase }

inductive Step : World ι σ τ χ ρ → World ι σ τ χ ρ → Prop
  | refuse (w : World ι σ τ χ ρ) (i : ι) (c : χ) (answer : ρ) :
      w.phase i = .idle → prepare c = .refused answer → Step w w
  | lock (w : World ι σ τ χ ρ) (i : ι) (c : χ) (run : τ → ρ × Option τ) :
      w.phase i = .idle → prepare c = .edit run → w.holder = none →
      Step w { w.move i (.locked run) with holder := some i, order := w.order ++ [c] }
  | copy (w : World ι σ τ χ ρ) (i : ι) (run : τ → ρ × Option τ) :
      w.phase i = .locked run → Step w (w.move i (.copied run (shared.view w.shared)))
  | fail (w : World ι σ τ χ ρ) (i : ι) (run : τ → ρ × Option τ) (copy : τ) (answer : ρ) :
      w.phase i = .copied run copy → run copy = (answer, none) →
      Step w (w.move i (.leaving answer))
  | edit (w : World ι σ τ χ ρ) (i : ι) (run : τ → ρ × Option τ) (copy edited : τ) (answer : ρ) :
      w.phase i = .copied run copy → run copy = (answer, some edited) →
      Step w (w.move i (.storing answer (shared.stores edited) edited))
  | store (w : World ι σ τ χ ρ) (i : ι) (answer : ρ) (store : σ → σ) (left : List (σ → σ))
      (edited : τ) : w.phase i = .storing answer (store :: left) edited →
      Step w { w.move i (.storing answer left edited) with shared := store w.shared }
  | swap (w : World ι σ τ χ ρ) (i : ι) (answer : ρ) (edited : τ) :
      w.phase i = .storing answer [] edited →
      Step w { w.move i (.leaving answer) with shared := shared.swap edited w.shared }
  | unlock (w : World ι σ τ χ ρ) (i : ι) (answer : ρ) : w.phase i = .leaving answer →
      Step w { w.move i .idle with holder := none, answers := w.answers ++ [answer] }
  | read (w : World ι σ τ χ ρ) :
      Step w { w with seen := w.seen ++ [shared.view w.shared] }

inductive Reached (start : σ) : World ι σ τ χ ρ → Prop
  | start : Reached start (.start start)
  | step {w w' : World ι σ τ χ ρ} : Reached start w → Step shared prepare w w' → Reached start w'

/- How far the holder of the lock is with its change, the last in the order. -/
inductive Stage (start : σ) (before : List χ) (c : χ) (s : σ) : Phase σ τ ρ → Prop
  | locked (run : τ → ρ × Option τ) : prepare c = .edit run →
      s = performAll shared prepare start before → Stage start before c s (.locked run)
  | copied (run : τ → ρ × Option τ) : prepare c = .edit run →
      s = performAll shared prepare start before → Stage start before c s (.copied run (shared.view s))
  | storing (run : τ → ρ × Option τ) (answer : ρ) (left : List (σ → σ)) (edited : τ) :
      prepare c = .edit run →
      run (shared.view (performAll shared prepare start before)) = (answer, some edited) →
      shared.view s = shared.view (performAll shared prepare start before) →
      (∀ store ∈ left, store ∈ shared.stores edited) →
      shared.swap edited (left.foldl (fun s store => store s) s) =
        performAll shared prepare start (before ++ [c]) →
      Stage start before c s (.storing answer left edited)
  | leaving (answer : ρ) :
      answer = (perform shared prepare c (performAll shared prepare start before)).1 →
      s = performAll shared prepare start (before ++ [c]) → Stage start before c s (.leaving answer)

/- One writer at a time, and what it has done so far. -/
inductive Held (start : σ) (w : World ι σ τ χ ρ) : Prop
  | free : w.holder = none → (∀ i, w.phase i = .idle) →
      w.shared = performAll shared prepare start w.order →
      w.answers = answersOf shared prepare start w.order → Held start w
  | held (i : ι) (before : List χ) (c : χ) : w.holder = some i →
      (∀ j, j ≠ i → w.phase j = .idle) → w.order = before ++ [c] →
      w.answers = answersOf shared prepare start before →
      Stage shared prepare start before c w.shared (w.phase i) → Held start w

structure Sound (start : σ) (w : World ι σ τ χ ρ) : Prop where
  held : Held shared prepare start w
  seen : ∀ t ∈ w.seen, ∃ n ≤ w.order.length,
    t = shared.view (performAll shared prepare start (w.order.take n))

variable {shared prepare}

theorem performAll_snoc (start : σ) (before : List χ) (c : χ) :
    performAll shared prepare start (before ++ [c]) =
      (perform shared prepare c (performAll shared prepare start before)).2 := by
  rw [performAll, List.foldl_append]
  rfl

theorem answersOf_snoc (start : σ) (before : List χ) (c : χ) :
    answersOf shared prepare start (before ++ [c]) = answersOf shared prepare start before ++
      [(perform shared prepare c (performAll shared prepare start before)).1] := by
  induction before generalizing start with
  | nil => rfl
  | cons first rest ih =>
    rw [List.cons_append, answersOf, ih, answersOf, List.cons_append]
    rfl

/- Only the holder is at work. -/
theorem Held.of_phase {start : σ} {w : World ι σ τ χ ρ} {i : ι} (held : Held shared prepare start w)
    (busy : w.phase i ≠ .idle) : ∃ before c, w.holder = some i ∧ (∀ j, j ≠ i → w.phase j = .idle) ∧
      w.order = before ++ [c] ∧ w.answers = answersOf shared prepare start before ∧
      Stage shared prepare start before c w.shared (w.phase i) := by
  cases held with
  | free _ idle => exact absurd (idle i) busy
  | held j before c holder idle order answers stage =>
    by_cases same : i = j
    · subst same
      exact ⟨before, c, holder, idle, order, answers, stage⟩
    · exact absurd (idle i same) busy

omit [DecidableEq ι] in
/- A reader sees the table of all changes published, whoever holds the lock. -/
theorem Held.view {start : σ} {w : World ι σ τ χ ρ} (held : Held shared prepare start w) :
    ∃ n ≤ w.order.length,
      shared.view w.shared = shared.view (performAll shared prepare start (w.order.take n)) := by
  cases held with
  | free _ _ same => exact ⟨w.order.length, Nat.le_refl _, by rw [List.take_length, ← same]⟩
  | held i before c _ _ order _ stage =>
    have earlier : w.order.take before.length = before := by rw [order, List.take_left]
    have fits : before.length ≤ w.order.length := by
      rw [order, List.length_append]
      exact Nat.le_add_right _ _
    generalize w.phase i = phase at stage
    cases stage with
    | locked run _ same => exact ⟨before.length, fits, by rw [earlier, ← same]⟩
    | copied run _ same => exact ⟨before.length, fits, by rw [earlier, ← same]⟩
    | storing run answer left edited _ _ same => exact ⟨before.length, fits, by rw [earlier, same]⟩
    | leaving answer _ same =>
      exact ⟨w.order.length, Nat.le_refl _, by rw [List.take_length, order, ← same]⟩

theorem Held.advance {start : σ} {w w' : World ι σ τ χ ρ} {i : ι} {phase : Phase σ τ ρ}
    (held : Held shared prepare start w) (busy : w.phase i ≠ .idle)
    (moved : w'.phase = Function.update w.phase i phase) (holder : w'.holder = w.holder)
    (order : w'.order = w.order) (answers : w'.answers = w.answers)
    (stage : ∀ before c, Stage shared prepare start before c w.shared (w.phase i) →
      Stage shared prepare start before c w'.shared phase) : Held shared prepare start w' := by
  obtain ⟨before, c, holds, idle, orders, answered, now⟩ := held.of_phase busy
  refine .held i before c (holder.trans holds) (fun j apart => ?_) (order.trans orders)
    (answers.trans answered) ?_
  · rw [moved, Function.update_of_ne apart]
    exact idle j apart
  · rw [moved, Function.update_self]
    exact stage before c now

theorem Held.step {start : σ} {w w' : World ι σ τ χ ρ} (held : Held shared prepare start w)
    (step : Step shared prepare w w') : Held shared prepare start w' := by
  cases step with
  | refuse => exact held
  | read =>
    cases held with
    | free free idle same answers => exact .free free idle same answers
    | held i before c holder idle order answers stage =>
      exact .held i before c holder idle order answers stage
  | lock i c run _ prepared free =>
    cases held with
    | held j _ _ holder => simp [free] at holder
    | free _ idle same answers =>
      refine .held i w.order c rfl (fun j apart => ?_) rfl answers ?_
      · exact (Function.update_of_ne apart _ _).trans (idle j)
      · dsimp only [World.move]
        rw [Function.update_self]
        exact .locked run prepared same
  | copy i run at_ =>
    refine held.advance (by simp [at_]) rfl rfl rfl rfl fun before c now => ?_
    rw [at_] at now
    cases now with
    | locked _ prepared same => exact .copied run prepared same
  | fail i run copy answer at_ failed =>
    refine held.advance (by simp [at_]) rfl rfl rfl rfl fun before c now => ?_
    rw [at_] at now
    cases now with
    | copied _ prepared same =>
      rw [same] at failed
      refine .leaving answer ?_ ?_
      · rw [perform, prepared]
        simp only [failed]
      · rw [performAll_snoc, perform, prepared]
        simp only [failed]
        exact same
  | edit i run copy edited answer at_ succeeded =>
    refine held.advance (by simp [at_]) rfl rfl rfl rfl fun before c now => ?_
    rw [at_] at now
    cases now with
    | copied _ prepared same =>
      rw [same] at succeeded
      refine .storing run answer _ edited prepared succeeded (congrArg _ same) (fun _ mem => mem) ?_
      rw [performAll_snoc, perform, prepared]
      simp only [succeeded, publish]
      exact congrArg (fun s => shared.swap edited ((shared.stores edited).foldl _ s)) same
  | store i answer store left edited at_ =>
    refine held.advance (by simp [at_]) rfl rfl rfl rfl fun before c now => ?_
    rw [at_] at now
    cases now with
    | storing run _ _ _ prepared succeeded same stores ends =>
      refine .storing run answer left edited prepared succeeded ?_
        (fun other mem => stores other (List.mem_cons_of_mem _ mem)) ends
      exact (shared.view_store edited store w.shared (stores store List.mem_cons_self)).trans same
  | swap i answer edited at_ =>
    refine held.advance (by simp [at_]) rfl rfl rfl rfl fun before c now => ?_
    rw [at_] at now
    cases now with
    | storing run _ _ _ prepared succeeded same stores ends =>
      refine .leaving answer ?_ ends
      rw [perform, prepared]
      simp only [succeeded]
  | unlock i answer at_ =>
    obtain ⟨before, c, holds, idle, order, answers, stage⟩ := held.of_phase (i := i) (by simp [at_])
    rw [at_] at stage
    cases stage with
    | leaving _ same ends =>
      refine .free rfl (fun j => ?_) ?_ ?_
      · dsimp only [World.move]
        by_cases same : j = i
        · rw [same, Function.update_self]
        · rw [Function.update_of_ne same]
          exact idle j same
      · dsimp only [World.move]
        rw [order]
        exact ends
      · dsimp only [World.move]
        rw [order, answersOf_snoc, answers, same]

theorem Sound.step {start : σ} {w w' : World ι σ τ χ ρ} (sound : Sound shared prepare start w)
    (step : Step shared prepare w w') : Sound shared prepare start w' := by
  refine ⟨sound.held.step step, ?_⟩
  cases step with
  | read =>
    intro t mem
    rcases List.mem_append.mp mem with old | new
    · exact sound.seen t old
    · rw [List.mem_singleton.mp new]
      exact sound.held.view
  | lock i c run _ _ _ =>
    intro t mem
    obtain ⟨n, fits, same⟩ := sound.seen t mem
    refine ⟨n, ?_, ?_⟩
    · dsimp only [World.move]
      rw [List.length_append]
      omega
    · dsimp only [World.move]
      rw [List.take_append_of_le_length fits]
      exact same
  | _ => exact sound.seen

/-- However the writers are interleaved, with each other and with readers, once no one holds the
    lock what is shared is what the changes leave one after another, in the order their writers took
    the lock, and so are their answers. Every table a reader took is one of that order. -/
theorem Reached.sound {start : σ} {w : World ι σ τ χ ρ} (reached : Reached shared prepare start w) :
    Sound shared prepare start w := by
  induction reached with
  | start => exact ⟨.free rfl (fun _ => rfl) rfl rfl, fun t mem => by simp [World.start] at mem⟩
  | step _ step ih => exact ih.step step

omit [DecidableEq ι] in
theorem Sound.settled {start : σ} {w : World ι σ τ χ ρ} (sound : Sound shared prepare start w)
    (idle : ∀ i, w.phase i = .idle) : w.shared = performAll shared prepare start w.order ∧
      w.answers = answersOf shared prepare start w.order := by
  cases sound.held with
  | free _ _ same answers => exact ⟨same, answers⟩
  | held i before c _ _ _ _ stage =>
    rw [idle i] at stage
    cases stage

end WriterLock
