import Mathlib.Data.Finset.Card
import Mathlib.Data.List.Perm.Basic

/- Passes over a changing set of members, each taken once in a pass: how often a pass can take
   before it comes to a member that stays. -/
namespace RoundRobin
variable {α : Type}

/- One turn: what was left of the pass, who joined it, who is live, who is taken, whether
   from a new pass, and what is left then. -/
structure Turn (α : Type) where
  rest : List α
  joined : List α
  live : List α
  target : Option α
  renewed : Bool
  left : List α
  deriving DecidableEq

/- What may be taken from what is left of a pass: nothing this turn, the first that is live,
   or, with none left that is, the first of a new pass over the live. -/
inductive Takes (live : List α) : List α → Option α → Bool → List α → Prop
  | waits (rest : List α) : Takes live rest none false rest
  | takes (skipped : List α) (member : α) (left : List α) : member ∈ live →
      (∀ other ∈ skipped, other ∉ live) →
      Takes live (skipped ++ member :: left) (some member) false left
  | renews (rest : List α) (member : α) (left : List α) : (∀ other ∈ rest, other ∉ live) →
      (member :: left).Perm live → Takes live rest (some member) true left
  | idles (rest : List α) : live = [] → Takes live rest none true []

theorem Takes.renewed {live rest order left : List α} {member : α}
    (dead : ∀ other ∈ rest, other ∉ live) (perm : order.Perm live)
    (took : Takes live order (some member) false left) :
    Takes live rest (some member) true left := by
  cases took with
  | takes skipped _ _ _ passed =>
    cases skipped with
    | nil => exact .renews rest member left dead perm
    | cons first others =>
      have alive : first ∈ live := perm.mem_iff.mp List.mem_cons_self
      exact absurd alive (passed first List.mem_cons_self)

structure Turn.Fair (turn : Turn α) : Prop where
  distinct : turn.live.Nodup
  taken : ∃ whole, whole.Nodup ∧ (∀ member, member ∈ whole ↔ member ∈ turn.rest ∨
      member ∈ turn.joined) ∧ Takes turn.live whole turn.target turn.renewed turn.left

def Linked : List α → List (Turn α) → List α → Prop
  | rest, [], last => rest = last
  | rest, turn :: turns, last => turn.rest = rest ∧ Linked turn.left turns last

def takes (turns : List (Turn α)) : Nat := (turns.filter (·.target.isSome)).length

section
variable [DecidableEq α]

/- Those taken in this pass that have gone from it and join it again. -/
def Turn.returning (turn : Turn α) (taken : Finset α) : Finset α :=
  taken.filter fun member => member ∈ turn.joined ∧ member ∉ turn.rest

def Turn.takenThen (turn : Turn α) (taken : Finset α) : Finset α :=
  match turn.target with
  | none => taken
  | some member => if turn.renewed then {member} else insert member taken

def returns : Finset α → List (Turn α) → Nat
  | _, [] => 0
  | taken, turn :: turns => (turn.returning taken).card + returns (turn.takenThen taken) turns

end

theorem Linked.append {rest last : List α} {early late : List (Turn α)}
    (h : Linked rest (early ++ late) last) :
    ∃ middle, Linked rest early middle ∧ Linked middle late last := by
  induction early generalizing rest with
  | nil => exact ⟨rest, rfl, h⟩
  | cons turn turns ih =>
    obtain ⟨middle, before, after⟩ := ih h.2
    exact ⟨middle, ⟨h.1, before⟩, after⟩

theorem Linked.snoc {rest last : List α} {turns : List (Turn α)} {turn : Turn α}
    (h : Linked rest turns last) (next : turn.rest = last) :
    Linked rest (turns ++ [turn]) turn.left := by
  induction turns generalizing rest with
  | nil => exact ⟨next.trans h.symm, rfl⟩
  | cons first turns ih => exact ⟨h.1, ih h.2⟩

theorem Turn.Fair.left_nodup {turn : Turn α} (fair : turn.Fair) : turn.left.Nodup := by
  obtain ⟨whole, nodup, _, took⟩ := fair.taken
  have distinct := fair.distinct
  generalize turn.live = live, turn.target = target, turn.renewed = renewed,
    turn.left = left at took distinct ⊢
  cases took with
  | waits => exact nodup
  | takes skipped member left =>
    exact (List.nodup_cons.mp (List.nodup_append.mp nodup).2.1).2
  | renews _ member left _ perm =>
    exact (List.nodup_cons.mp (perm.nodup_iff.mpr distinct)).2
  | idles => exact List.nodup_nil

theorem Linked.nodup {rest last : List α} {turns : List (Turn α)} (h : Linked rest turns last)
    (fair : ∀ turn ∈ turns, turn.Fair) (start : rest.Nodup) : last.Nodup := by
  induction turns generalizing rest with
  | nil =>
    have same : rest = last := h
    exact same ▸ start
  | cons turn turns ih =>
    refine ih h.2 (fun later mem => fair later (List.mem_cons_of_mem _ mem)) ?_
    exact (fair turn List.mem_cons_self).left_nodup

section
variable [DecidableEq α]

/- Of those taken, the ones the pass still holds: what joins adds the returning. -/
theorem Turn.held_card (turn : Turn α) (taken : Finset α) {whole : List α}
    (mem : ∀ member, member ∈ whole ↔ member ∈ turn.rest ∨ member ∈ turn.joined) :
    (taken.filter (· ∈ whole)).card =
      (taken.filter (· ∈ turn.rest)).card + (turn.returning taken).card := by
  have split : taken.filter (· ∈ whole) =
      taken.filter (· ∈ turn.rest) ∪ turn.returning taken := by
    ext member
    simp only [Turn.returning, Finset.mem_filter, Finset.mem_union, mem]
    tauto
  have apart : Disjoint (taken.filter (· ∈ turn.rest)) (turn.returning taken) := by
    rw [Finset.disjoint_left]
    intro member held returning
    simp only [Turn.returning, Finset.mem_filter] at held returning
    exact returning.2.2 held.2
  rw [split, Finset.card_union_of_disjoint apart]

theorem taken_card (taken : Finset α) {skipped left : List α} {member : α}
    (nodup : (skipped ++ member :: left).Nodup) :
    ((insert member taken).filter (· ∈ left)).card + 1 + taken.card ≤
      (insert member taken).card + (taken.filter (· ∈ skipped ++ member :: left)).card := by
  have gone : member ∉ left := (List.nodup_cons.mp (List.nodup_append.mp nodup).2.1).1
  have still : (insert member taken).filter (· ∈ left) = taken.filter (· ∈ left) := by
    rw [Finset.filter_insert, if_neg gone]
  rw [still]
  by_cases old : member ∈ taken
  · have fewer : taken.filter (· ∈ left) ⊂ taken.filter (· ∈ skipped ++ member :: left) := by
      rw [Finset.ssubset_iff_of_subset]
      · refine ⟨member, ?_, ?_⟩
        · simp [old]
        · simp [gone]
      · intro other mem
        simp only [Finset.mem_filter, List.mem_append, List.mem_cons] at mem ⊢
        exact ⟨mem.1, .inr (.inr mem.2)⟩
    have := Finset.card_lt_card fewer
    rw [Finset.insert_eq_of_mem old]
    omega
  · have within : taken.filter (· ∈ left) ⊆ taken.filter (· ∈ skipped ++ member :: left) := by
      intro other mem
      simp only [Finset.mem_filter, List.mem_append, List.mem_cons] at mem ⊢
      exact ⟨mem.1, .inr (.inr mem.2)⟩
    have := Finset.card_le_card within
    rw [Finset.card_insert_of_notMem old]
    omega

/- How often the turns take while one member stays live and is not taken: as long as the pass
   holds it there is no new pass, and after one new pass it does. -/
theorem takes_le {members : Finset α} {waiting : α} {turns : List (Turn α)}
    {rest last : List α} (linked : Linked rest turns last)
    (fair : ∀ turn ∈ turns, turn.Fair)
    (live : ∀ turn ∈ turns, waiting ∈ turn.live ∧ ∀ member ∈ turn.live, member ∈ members)
    (missed : ∀ turn ∈ turns, turn.target ≠ some waiting) (taken : Finset α)
    (others : taken ⊆ members.erase waiting) :
    (waiting ∈ rest → takes turns + taken.card ≤
      (members.erase waiting).card + (taken.filter (· ∈ rest)).card + returns taken turns) ∧
    takes turns + taken.card ≤
      2 * (members.erase waiting).card + (taken.filter (· ∈ rest)).card + returns taken turns := by
  induction turns generalizing rest taken with
  | nil =>
    have few := Finset.card_le_card others
    simp only [takes, returns, List.filter_nil, List.length_nil]
    omega
  | cons turn turns ih =>
    obtain ⟨rfl, linked⟩ := linked
    obtain ⟨waits, known⟩ := live turn List.mem_cons_self
    obtain ⟨whole, nodup, mem, took⟩ := (fair turn List.mem_cons_self).taken
    have distinct := (fair turn List.mem_cons_self).distinct
    have notIt := missed turn List.mem_cons_self
    have held := turn.held_card taken mem
    have few := Finset.card_le_card others
    have later := ih linked (fun t m => fair t (List.mem_cons_of_mem _ m))
      (fun t m => live t (List.mem_cons_of_mem _ m))
      fun t m => missed t (List.mem_cons_of_mem _ m)
    have there : waiting ∈ turn.rest → waiting ∈ whole := fun h => (mem waiting).mpr (.inl h)
    simp only [takes, returns, List.filter_cons, Turn.takenThen] at later ⊢
    generalize turn.target = target, turn.renewed = renewed, turn.left = left at took later notIt ⊢
    cases took with
    | waits =>
      obtain ⟨first, second⟩ := later taken others
      simp only [Option.isSome_none, Bool.false_eq_true, ↓reduceIte]
      refine ⟨fun h => ?_, ?_⟩
      · have := first (there h)
        omega
      · omega
    | takes skipped member left alive dead =>
      have counted := taken_card taken nodup
      have other : member ≠ waiting := fun same => notIt (by rw [same])
      have more : insert member taken ⊆ members.erase waiting :=
        Finset.insert_subset (Finset.mem_erase.mpr ⟨other, known member alive⟩) others
      obtain ⟨first, second⟩ := later (insert member taken) more
      simp only [Option.isSome_some, ↓reduceIte, List.length_cons, Bool.false_eq_true]
      refine ⟨fun h => ?_, ?_⟩
      · have inLeft : waiting ∈ left := by
          rcases List.mem_append.mp (there h) with passed | ahead
          · exact absurd waits (dead waiting passed)
          · exact (List.mem_cons.mp ahead).resolve_left (Ne.symm other)
        have := first inLeft
        omega
      · omega
    | renews _ member left dead perm =>
      have alive : member ∈ turn.live := perm.mem_iff.mp List.mem_cons_self
      have other : member ≠ waiting := fun same => notIt (by rw [same])
      have gone : member ∉ left := (List.nodup_cons.mp (perm.nodup_iff.mpr distinct)).1
      have inLeft : waiting ∈ left :=
        (List.mem_cons.mp (perm.mem_iff.mpr waits)).resolve_left (Ne.symm other)
      have one : ({member} : Finset α) ⊆ members.erase waiting :=
        Finset.singleton_subset_iff.mpr (Finset.mem_erase.mpr ⟨other, known member alive⟩)
      have none : ({member} : Finset α).filter (· ∈ left) = ∅ := by
        rw [Finset.filter_singleton, if_neg gone]
      have := (later {member} one).1 inLeft
      rw [none, Finset.card_empty, Finset.card_singleton] at this
      simp only [Option.isSome_some, ↓reduceIte, List.length_cons]
      refine ⟨fun h => absurd waits (dead waiting (there h)), ?_⟩
      omega
    | idles _ nobody =>
      rw [nobody] at waits
      simp at waits

/-- A member that stays live is taken, once the turns take twice as often as there are members,
    less one, and once more for every return of one taken already in the pass. -/
theorem taken_of_takes {members : Finset α} {waiting : α} {turns : List (Turn α)}
    {rest last : List α} (linked : Linked rest turns last) (fair : ∀ turn ∈ turns, turn.Fair)
    (waits : waiting ∈ members)
    (live : ∀ turn ∈ turns, waiting ∈ turn.live ∧ ∀ member ∈ turn.live, member ∈ members)
    (enough : 2 * members.card + returns ∅ turns ≤ takes turns + 1) :
    ∃ turn ∈ turns, turn.target = some waiting := by
  by_contra missed
  have missed : ∀ turn ∈ turns, turn.target ≠ some waiting := fun turn mem same =>
    missed ⟨turn, mem, same⟩
  have bound := (takes_le linked fair live missed ∅ (Finset.empty_subset _)).2
  have card := Finset.card_erase_of_mem waits
  have pos := Finset.card_pos.mpr ⟨waiting, waits⟩
  simp only [Finset.card_empty, Finset.filter_empty] at bound
  omega

end

/- A turn that goes on with a pass: a member it holds that is live is taken, or still held. -/
theorem Turn.Fair.taken_or_held {turn : Turn α} (fair : turn.Fair) (goes : turn.renewed = false)
    {member : α} (live : member ∈ turn.live) (held : member ∈ turn.rest ∨ member ∈ turn.joined) :
    turn.target = some member ∧ member ∉ turn.left ∨
      turn.target ≠ some member ∧ member ∈ turn.left := by
  obtain ⟨whole, nodup, mem, took⟩ := fair.taken
  have inWhole : member ∈ whole := (mem member).mpr held
  generalize turn.live = alive, turn.target = target, turn.renewed = renewed,
    turn.left = left at took live goes ⊢
  cases took with
  | waits => exact .inr ⟨by simp, inWhole⟩
  | takes skipped first left _ dead =>
    have apart := (List.nodup_cons.mp (List.nodup_append.mp nodup).2.1).1
    by_cases same : first = member
    · subst same
      exact .inl ⟨rfl, apart⟩
    · have passed : member ∉ skipped := fun there => dead member there live
      have behind : member ∈ first :: left :=
        (List.mem_append.mp inWhole).resolve_left passed
      exact .inr ⟨by simpa using same, (List.mem_cons.mp behind).resolve_left (Ne.symm same)⟩
  | renews => simp at goes
  | idles => simp at goes

/- A member that a pass has done with and that does not join it again is not taken by it. -/
theorem Turn.Fair.not_taken {turn : Turn α} (fair : turn.Fair) (goes : turn.renewed = false)
    {member : α} (gone : member ∉ turn.rest) (apart : member ∉ turn.joined) :
    turn.target ≠ some member ∧ member ∉ turn.left := by
  obtain ⟨whole, _, mem, took⟩ := fair.taken
  have notIn : member ∉ whole := fun there => ((mem member).mp there).elim gone apart
  generalize turn.live = alive, turn.target = target, turn.renewed = renewed,
    turn.left = left at took goes ⊢
  cases took with
  | waits => exact ⟨by simp, notIn⟩
  | takes skipped first left =>
    refine ⟨?_, fun there => notIn (List.mem_append_right _ (List.mem_cons_of_mem _ there))⟩
    intro same
    rw [← Option.some.inj same] at notIn
    exact notIn (List.mem_append_right _ List.mem_cons_self)
  | renews => simp at goes
  | idles => simp at goes

/- A turn that begins a pass holds nobody live of the pass before, and takes one of the live. -/
theorem Turn.Fair.renewal {turn : Turn α} (fair : turn.Fair) (begun : turn.renewed = true) {member : α}
    (live : member ∈ turn.live) :
    member ∉ turn.rest ∧ member ∉ turn.joined ∧
      (turn.target = some member ∧ member ∉ turn.left ∨
        turn.target ≠ some member ∧ member ∈ turn.left) := by
  have distinct := fair.distinct
  obtain ⟨whole, _, mem, took⟩ := fair.taken
  have split : member ∉ whole → member ∉ turn.rest ∧ member ∉ turn.joined := fun absent =>
    ⟨fun there => absent ((mem member).mpr (.inl there)),
      fun there => absent ((mem member).mpr (.inr there))⟩
  generalize turn.live = alive, turn.target = target, turn.renewed = renewed,
    turn.left = left at took live begun distinct ⊢
  cases took with
  | waits => simp at begun
  | takes => simp at begun
  | renews _ first left dead perm =>
    obtain ⟨rest, joined⟩ := split fun there => dead member there live
    refine ⟨rest, joined, ?_⟩
    have apart := (List.nodup_cons.mp (perm.nodup_iff.mpr distinct)).1
    by_cases same : first = member
    · subst same
      exact .inl ⟨rfl, apart⟩
    · exact .inr ⟨by simpa using same,
        (List.mem_cons.mp (perm.mem_iff.mpr live)).resolve_left (Ne.symm same)⟩
  | idles _ nobody =>
    rw [nobody] at live
    simp at live

theorem Turn.Fair.target_live {turn : Turn α} (fair : turn.Fair) {member : α}
    (target : turn.target = some member) : member ∈ turn.live := by
  obtain ⟨whole, _, _, took⟩ := fair.taken
  generalize turn.live = alive, turn.target = chosen, turn.renewed = renewed,
    turn.left = left at took target ⊢
  cases took with
  | waits => simp at target
  | takes skipped first left alive => exact Option.some.inj target ▸ alive
  | renews _ first left _ perm =>
    rw [← Option.some.inj target]
    exact perm.mem_iff.mp List.mem_cons_self
  | idles => simp at target

/- A member held that stays live is taken before it is no longer held. -/
theorem Linked.taken_or_held {rest last : List α} {turns : List (Turn α)} {member : α}
    (linked : Linked rest turns last)
    (going : ∀ turn ∈ turns, turn.Fair ∧ turn.renewed = false ∧ member ∈ turn.live)
    (held : member ∈ rest) : (∃ turn ∈ turns, turn.target = some member) ∨ member ∈ last := by
  induction turns generalizing rest with
  | nil =>
    obtain rfl : rest = last := linked
    exact .inr held
  | cons turn turns ih =>
    obtain ⟨same, linked⟩ := linked
    obtain ⟨fair, goes, live⟩ := going turn List.mem_cons_self
    rcases fair.taken_or_held goes live (.inl (same ▸ held)) with ⟨took, _⟩ | ⟨_, left⟩
    · exact .inl ⟨turn, List.mem_cons_self, took⟩
    · refine (ih linked (fun later mem => going later (List.mem_cons_of_mem _ mem)) left).imp_left ?_
      rintro ⟨later, mem, took⟩
      exact ⟨later, List.mem_cons_of_mem _ mem, took⟩

/-- A member that joins a pass and is live from then on is taken before the next begins. -/
theorem pass_takes_joined {rest last : List α} {turn next : Turn α} {turns : List (Turn α)}
    {member : α} (linked : Linked rest (turn :: turns ++ [next]) last)
    (fair : ∀ other ∈ turn :: turns ++ [next], other.Fair)
    (goes : ∀ other ∈ turn :: turns, other.renewed = false) (ended : next.renewed = true)
    (live : ∀ other ∈ turn :: turns ++ [next], member ∈ other.live) (joins : member ∈ turn.joined) :
    ∃ other ∈ turn :: turns, other.target = some member := by
  obtain ⟨middle, ⟨_, linked⟩, followed, _⟩ := Linked.append linked
  have gone : member ∉ middle := by
    rw [← followed]
    exact ((fair next (by simp)).renewal ended (live next (by simp))).1
  have now := (fair turn (by simp)).taken_or_held (goes turn (by simp)) (live turn (by simp))
    (.inr joins)
  rcases now with ⟨took, _⟩ | ⟨_, left⟩
  · exact ⟨turn, by simp, took⟩
  · have going : ∀ other ∈ turns, other.Fair ∧ other.renewed = false ∧ member ∈ other.live :=
      fun other mem => ⟨fair other (by simp [mem]), goes other (by simp [mem]), live other (by simp [mem])⟩
    obtain ⟨other, mem, took⟩ := (linked.taken_or_held going left).resolve_right gone
    exact ⟨other, List.mem_cons_of_mem _ mem, took⟩

section
variable [DecidableEq α]

def timesTaken (member : α) (turns : List (Turn α)) : Nat :=
  turns.countP fun turn => decide (turn.target = some member)

/- A pass, once begun, has taken a member that stays once, or still holds it. -/
theorem Linked.taken_once {rest last : List α} {turns : List (Turn α)} {member : α}
    (linked : Linked rest turns last)
    (going : ∀ turn ∈ turns, turn.Fair ∧ turn.renewed = false ∧ member ∈ turn.live ∧
      member ∉ turn.joined) :
    (member ∈ rest → timesTaken member turns + (if member ∈ last then 1 else 0) = 1) ∧
      (member ∉ rest → timesTaken member turns = 0 ∧ member ∉ last) := by
  induction turns generalizing rest with
  | nil =>
    obtain rfl : rest = last := linked
    simp [timesTaken]
  | cons turn turns ih =>
    obtain ⟨same, linked⟩ := linked
    obtain ⟨fair, goes, live, apart⟩ := going turn List.mem_cons_self
    obtain ⟨there, gone⟩ := ih linked fun later mem => going later (List.mem_cons_of_mem _ mem)
    simp only [timesTaken, List.countP_cons] at there gone ⊢
    constructor
    · intro held
      rw [← same] at held
      rcases fair.taken_or_held goes live (.inl held) with ⟨took, left⟩ | ⟨not, left⟩
      · obtain ⟨none, absent⟩ := gone left
        simp [took, none, absent]
      · have := there left
        simp only [not, decide_false, Bool.false_eq_true, if_false]
        omega
    · intro absent
      rw [← same] at absent
      obtain ⟨not, left⟩ := fair.not_taken goes absent apart
      obtain ⟨none, last⟩ := gone left
      simp [not, none, last]

/-- In a pass, from the turn that begins it to the one that begins the next, a member that is live
    and stays is taken once. -/
theorem pass_takes_once {rest last : List α} {first next : Turn α} {turns : List (Turn α)}
    {member : α} (linked : Linked rest (first :: turns ++ [next]) last)
    (fair : ∀ turn ∈ first :: turns ++ [next], turn.Fair) (begun : first.renewed = true)
    (goes : ∀ turn ∈ turns, turn.renewed = false) (ended : next.renewed = true)
    (live : ∀ turn ∈ first :: turns ++ [next], member ∈ turn.live)
    (apart : ∀ turn ∈ turns, member ∉ turn.joined) : timesTaken member (first :: turns) = 1 := by
  obtain ⟨middle, ⟨_, linked⟩, followed, _⟩ := Linked.append linked
  have gone : member ∉ middle := by
    rw [← followed]
    exact ((fair next (by simp)).renewal ended (live next (by simp))).1
  have going : ∀ turn ∈ turns, turn.Fair ∧ turn.renewed = false ∧ member ∈ turn.live ∧
      member ∉ turn.joined := fun turn mem =>
    ⟨fair turn (by simp [mem]), goes turn mem, live turn (by simp [mem]), apart turn mem⟩
  obtain ⟨there, absent⟩ := linked.taken_once going
  obtain ⟨_, _, first'⟩ := (fair first (by simp)).renewal begun (live first (by simp))
  simp only [timesTaken, List.countP_cons] at there absent ⊢
  rcases first' with ⟨took, left⟩ | ⟨not, left⟩
  · simp [took, (absent left).1]
  · have once := there left
    simpa [not, gone] using once

end
end RoundRobin
