import Mathlib.Order.Lattice
import Mathlib.Logic.Function.Basic
import Mathlib.Data.List.Basic

/- A register for each key that keeps the freshest of what it is told: news of a key
   replaces what is held of it only if it ranks above. What is held in the end depends on
   which news was told, not on its order or on repeats. -/
namespace Freshest
variable {K V R : Type} [DecidableEq K] [LinearOrder R] (key : V → K) (rank : V → R)

def tell (held : K → Option V) (news : V) : K → Option V :=
  match held (key news) with
  | none => Function.update held (key news) (some news)
  | some current =>
    if rank current < rank news then Function.update held (key news) (some news) else held

def tellAll (held : K → Option V) (news : List V) : K → Option V := news.foldl (tell key rank) held

/- v is about k, was told, and nothing told about k ranks above it. -/
structure IsFreshest (told : List V) (k : K) (v : V) : Prop where
  mem : v ∈ told
  about : key v = k
  above : ∀ w ∈ told, key w = k → rank w ≤ rank v

def Holds (told : List V) (held : K → Option V) : Prop :=
  ∀ k, (∀ v, held k = some v → IsFreshest key rank told k v) ∧
    (held k = none → ∀ v ∈ told, key v ≠ k)

variable {key rank}

omit [DecidableEq K] in
theorem holds_nil : Holds key rank [] (fun _ => none) := by
  intro k
  exact ⟨fun v h => by simp at h, fun _ v mem => by simp at mem⟩

omit [DecidableEq K] in
theorem IsFreshest.keep {told : List V} {k : K} {v : V} (fresh : IsFreshest key rank told k v)
    (news : V) (older : key news = k → rank news ≤ rank v) :
    IsFreshest key rank (told ++ [news]) k v := by
  refine ⟨List.mem_append_left _ fresh.mem, fresh.about, ?_⟩
  intro w mem about
  rcases List.mem_append.mp mem with mem | mem
  · exact fresh.above w mem about
  · rw [List.mem_singleton] at mem
    subst mem
    exact older about

/- One piece of news: what is held stays the freshest of what was told. -/
theorem Holds.tell {told : List V} {held : K → Option V} (holds : Holds key rank told held)
    (news : V) : Holds key rank (told ++ [news]) (Freshest.tell key rank held news) := by
  have replaced : (∀ v ∈ told, key v = key news → rank v ≤ rank news) →
      Holds key rank (told ++ [news]) (Function.update held (key news) (some news)) := by
    intro above k
    by_cases same : k = key news
    · subst same
      simp only [Function.update_self, Option.some.injEq, reduceCtorEq, false_implies, and_true]
      rintro v rfl
      refine ⟨by simp, rfl, ?_⟩
      intro w mem about
      rcases List.mem_append.mp mem with mem | mem
      · exact above w mem about
      · rw [List.mem_singleton.mp mem]
    · rw [Function.update_of_ne same]
      obtain ⟨some_fresh, none_told⟩ := holds k
      refine ⟨fun v found => (some_fresh v found).keep news fun about => absurd about.symm same,
        fun empty v mem => ?_⟩
      rcases List.mem_append.mp mem with mem | mem
      · exact none_told empty v mem
      · rw [List.mem_singleton.mp mem]
        exact fun about => same about.symm
  unfold Freshest.tell
  split
  · rename_i empty
    exact replaced fun v mem about => absurd about ((holds (key news)).2 empty v mem)
  · rename_i current found
    have fresh := (holds (key news)).1 current found
    split
    · rename_i newer
      exact replaced fun v mem about => le_trans (fresh.above v mem about) (le_of_lt newer)
    · rename_i older
      intro k
      obtain ⟨some_fresh, none_told⟩ := holds k
      refine ⟨fun v found' => (some_fresh v found').keep news ?_, fun empty v mem => ?_⟩
      · rintro rfl
        rw [found, Option.some.injEq] at found'
        exact found' ▸ not_lt.mp older
      · rcases List.mem_append.mp mem with mem | mem
        · exact none_told empty v mem
        · rw [List.mem_singleton.mp mem]
          rintro rfl
          rw [found] at empty
          simp at empty

theorem Holds.tellAll {told : List V} {held : K → Option V} (holds : Holds key rank told held)
    (news : List V) :
    Holds key rank (told ++ news) (Freshest.tellAll key rank held news) := by
  induction news generalizing told held with
  | nil => simpa [Freshest.tellAll] using holds
  | cons first rest ih =>
    have := ih (holds.tell first)
    rwa [List.append_assoc] at this

theorem tellAll_holds (news : List V) :
    Holds key rank news (tellAll key rank (fun _ => none) news) := by
  have held : Holds key rank [] (fun _ => none) := holds_nil
  simpa using held.tellAll news

/-- The same news told in any two orders, with any repeats, leaves the same held, where one
    rank is one piece of news. -/
theorem tellAll_eq_of_mem_iff {one two : List V} (same : ∀ v, v ∈ one ↔ v ∈ two)
    (distinct : ∀ v ∈ one, ∀ w ∈ one, key v = key w → rank v = rank w → v = w) :
    tellAll key rank (fun _ => none) one = tellAll key rank (fun _ => none) two := by
  funext k
  have heldOne : Holds key rank one _ := tellAll_holds one
  have heldTwo : Holds key rank two _ := tellAll_holds two
  obtain ⟨someOne, noneOne⟩ := heldOne k
  obtain ⟨someTwo, noneTwo⟩ := heldTwo k
  cases first : tellAll key rank (fun _ => none) one k with
  | none =>
    cases second : tellAll key rank (fun _ => none) two k with
    | none => rfl
    | some w =>
      have fresh := someTwo w second
      exact absurd fresh.about (noneOne first w ((same w).mpr fresh.mem))
  | some v =>
    have freshV := someOne v first
    cases second : tellAll key rank (fun _ => none) two k with
    | none => exact absurd freshV.about (noneTwo second v ((same v).mp freshV.mem))
    | some w =>
      have freshW := someTwo w second
      have told := (same w).mpr freshW.mem
      have upper := freshV.above w told freshW.about
      have lower := freshW.above v ((same v).mp freshV.mem) freshV.about
      have about := freshV.about.trans freshW.about.symm
      rw [distinct v freshV.mem w told about (le_antisymm lower upper)]

end Freshest
