import Mathlib.Logic.Function.Basic
import Mathlib.Logic.Relation

/- Operations on one shared word, each of which reads it, decides, and swaps in what it wants if
   the word is still what it read, else reads again. Any number of threads run them, after each
   has loaded a setting that does not change; a swap may also fail for no reason. -/
namespace OptimisticUpdate
variable {ι κ σ α β : Type}

inductive Thread (κ σ α β : Type) where
  | idle
  | entered (op : α)
  | set (op : α) (setting : κ)
  | read (op : α) (setting : κ) (word : σ)
  | answered (op : α) (answer : β)

/- The operations that took effect, and those that returned, in order, with their threads. -/
structure Machine (ι κ σ α β : Type) where
  setting : κ
  word : σ
  threads : ι → Thread κ σ α β
  effects : List (ι × α × β)
  returns : List (ι × α × β)

def Machine.start (setting : κ) (word : σ) : Machine ι κ σ α β :=
  ⟨setting, word, fun _ => .idle, [], []⟩

section
variable (resolve : κ → α → σ → Except β (β × σ))

/- The operation at once: an answer alone, or an answer with the word that comes after. -/
def apply (setting : κ) (op : α) (word : σ) : β × σ :=
  match resolve setting op word with
  | .error answer => (answer, word)
  | .ok result => result

def replay (setting : κ) : List α → σ → List β × σ
  | [], word => ([], word)
  | op :: ops, word =>
    let (answer, word) := apply resolve setting op word
    let (answers, word) := replay setting ops word
    (answer :: answers, word)

/- What a thread does with the word it has read: it answers from it, or goes on to swap. -/
def afterRead (setting : κ) (op : α) (word : σ) : Thread κ σ α β :=
  match resolve setting op word with
  | .error answer => .answered op answer
  | .ok _ => .read op setting word

def effectOfRead (i : ι) (setting : κ) (op : α) (word : σ) : List (ι × α × β) :=
  match resolve setting op word with
  | .error answer => [(i, op, answer)]
  | .ok _ => []

variable [DecidableEq ι]

def Machine.move (m : Machine ι κ σ α β) (i : ι) (thread : Thread κ σ α β) :
    Machine ι κ σ α β :=
  { m with threads := Function.update m.threads i thread }

/- One access to what is shared, or a thread that begins or ends an operation. -/
inductive Step : Machine ι κ σ α β → Machine ι κ σ α β → Prop
  | enter (m : Machine ι κ σ α β) (i : ι) (op : α) : m.threads i = .idle →
      Step m (m.move i (.entered op))
  | load (m : Machine ι κ σ α β) (i : ι) (op : α) : m.threads i = .entered op →
      Step m (m.move i (.set op m.setting))
  | read (m : Machine ι κ σ α β) (i : ι) (op : α) (setting : κ) :
      m.threads i = .set op setting →
      Step m { m.move i (afterRead resolve setting op m.word) with
        effects := m.effects ++ effectOfRead resolve i setting op m.word }
  | swap (m : Machine ι κ σ α β) (i : ι) (op : α) (setting : κ) (answer : β) (next : σ) :
      m.threads i = .read op setting m.word → resolve setting op m.word = .ok (answer, next) →
      Step m { m.move i (.answered op answer) with
        word := next, effects := m.effects ++ [(i, op, answer)] }
  | fail (m : Machine ι κ σ α β) (i : ι) (op : α) (setting : κ) (word : σ) :
      m.threads i = .read op setting word →
      Step m { m.move i (afterRead resolve setting op m.word) with
        effects := m.effects ++ effectOfRead resolve i setting op m.word }
  | leave (m : Machine ι κ σ α β) (i : ι) (op : α) (answer : β) :
      m.threads i = .answered op answer →
      Step m { m.move i .idle with returns := m.returns ++ [(i, op, answer)] }

def Thread.pending (i : ι) : Thread κ σ α β → List (ι × α × β)
  | .answered op answer => [(i, op, answer)]
  | _ => []

def Thread.Loaded (setting : κ) : Thread κ σ α β → Prop
  | .set _ held | .read _ held _ => held = setting
  | _ => True

/- The effects are those of the operations one after another, and each thread has returned with
   its own, but for the answer it still holds. -/
structure Linear (setting : κ) (word : σ) (m : Machine ι κ σ α β) : Prop where
  same : m.setting = setting
  loaded : ∀ i, (m.threads i).Loaded setting
  replayed : replay resolve setting (m.effects.map (·.2.1)) word = (m.effects.map (·.2.2), m.word)
  returned : ∀ i, m.effects.filter (·.1 = i) = m.returns.filter (·.1 = i) ++ (m.threads i).pending i

end

section
variable {resolve : κ → α → σ → Except β (β × σ)}

theorem replay_append (setting : κ) (early late : List α) (word : σ) :
    replay resolve setting (early ++ late) word =
      ((replay resolve setting early word).1 ++
        (replay resolve setting late (replay resolve setting early word).2).1,
        (replay resolve setting late (replay resolve setting early word).2).2) := by
  induction early generalizing word with
  | nil => rfl
  | cons op ops ih =>
    simp only [List.cons_append, replay, ih]

theorem afterRead_pending (i : ι) (setting : κ) (op : α) (word : σ) :
    (afterRead resolve setting op word).pending i = effectOfRead resolve i setting op word := by
  unfold afterRead effectOfRead
  cases resolve setting op word <;> rfl

theorem afterRead_loaded (setting : κ) (op : α) (word : σ) :
    (afterRead resolve setting op word).Loaded setting := by
  unfold afterRead
  cases resolve setting op word with
  | error answer => trivial
  | ok result => rfl

theorem replay_effectOfRead (i : ι) (setting : κ) (op : α) (word : σ) :
    replay resolve setting ((effectOfRead resolve i setting op word).map (·.2.1)) word =
      ((effectOfRead resolve i setting op word).map (·.2.2), word) := by
  unfold effectOfRead
  cases decided : resolve setting op word with
  | error answer => simp [replay, apply, decided]
  | ok result => simp [replay]

variable [DecidableEq ι]

/- A step of one thread that adds to the effects what the thread then holds as its answer. -/
theorem Linear.took {setting : κ} {start : σ} {m : Machine ι κ σ α β}
    (linear : Linear resolve setting start m) (i : ι) (thread : Thread κ σ α β) (word : σ)
    (added : List (ι × α × β)) (held : (m.threads i).pending i = [])
    (loaded : thread.Loaded setting) (pending : thread.pending i = added)
    (replayed : replay resolve setting (added.map (·.2.1)) m.word = (added.map (·.2.2), word)) :
    Linear resolve setting start { m.move i thread with word, effects := m.effects ++ added } := by
  refine ⟨linear.same, fun j => ?_, ?_, fun j => ?_⟩
  · by_cases same : j = i
    · subst same
      simpa [Machine.move] using loaded
    · simpa [Machine.move, same] using linear.loaded j
  · rw [List.map_append, replay_append, linear.replayed, replayed, List.map_append]
  · have mine : ∀ entry ∈ added, entry.1 = i := by
      intro entry mem
      rw [← pending] at mem
      cases thread with
      | answered op answer => rw [List.mem_singleton.mp mem]
      | idle | entered | set | read => simp [Thread.pending] at mem
    rw [List.filter_append, linear.returned j]
    by_cases same : j = i
    · subst same
      have all : added.filter (·.1 = j) = added :=
        List.filter_eq_self.mpr fun entry mem => decide_eq_true (mine entry mem)
      simp only [Machine.move, Function.update_self]
      rw [held, all, pending, List.append_nil]
    · have none : added.filter (·.1 = j) = [] := by
        refine List.filter_eq_nil_iff.mpr fun entry mem its => same ?_
        rw [← mine entry mem]
        exact (of_decide_eq_true its).symm
      simp only [Machine.move, Function.update_of_ne same]
      rw [none, List.append_nil]

theorem Step.linear {setting : κ} {start : σ} {m m' : Machine ι κ σ α β}
    (linear : Linear resolve setting start m) (step : Step resolve m m') :
    Linear resolve setting start m' := by
  cases step with
  | enter i op idle =>
    have took := linear.took i (.entered op) m.word [] (by rw [idle]; rfl) trivial rfl rfl
    rw [List.append_nil] at took
    exact took
  | load i op entered =>
    have took := linear.took i (.set op m.setting) m.word [] (by rw [entered]; rfl)
      linear.same rfl rfl
    rw [List.append_nil] at took
    exact took
  | read i op held set =>
    have same := linear.loaded i
    rw [set] at same
    obtain rfl : held = setting := same
    exact linear.took i _ m.word _ (by rw [set]; rfl) (afterRead_loaded held op m.word)
      (afterRead_pending i held op m.word) (replay_effectOfRead i held op m.word)
  | swap i op held answer next read decided =>
    have same := linear.loaded i
    rw [read] at same
    obtain rfl : held = setting := same
    refine linear.took i (.answered op answer) next [(i, op, answer)] (by rw [read]; rfl) trivial
      rfl ?_
    simp [replay, apply, decided]
  | fail i op held word read =>
    have same := linear.loaded i
    rw [read] at same
    obtain rfl : held = setting := same
    exact linear.took i _ m.word _ (by rw [read]; rfl) (afterRead_loaded held op m.word)
      (afterRead_pending i held op m.word) (replay_effectOfRead i held op m.word)
  | leave i op answer answered =>
    refine ⟨linear.same, fun j => ?_, linear.replayed, fun j => ?_⟩
    · by_cases same : j = i
      · subst same
        simp [Machine.move, Thread.Loaded]
      · simpa [Machine.move, same] using linear.loaded j
    · have before := linear.returned j
      rw [List.filter_append]
      by_cases same : j = i
      · subst same
        rw [answered] at before
        simpa [Machine.move, Thread.pending] using before
      · have other : ¬ i = j := Ne.symm same
        simpa [Machine.move, same, other] using before

/-- Any interleaving: the answers are those of the operations one after another, in the order
    they took effect. -/
theorem linearizable {setting : κ} {word : σ} {m : Machine ι κ σ α β}
    (run : Relation.ReflTransGen (Step resolve) (Machine.start setting word) m) :
    Linear resolve setting word m := by
  induction run with
  | refl => exact ⟨rfl, fun _ => trivial, rfl, fun _ => rfl⟩
  | tail _ step ih => exact step.linear ih

end
end OptimisticUpdate
