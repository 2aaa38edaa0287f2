import Rateguard.Proto

/- The piggyback buffer: news waiting for a ride on outgoing messages. -/
namespace Rateguard
open Std (ExtTreeMap)

def retransmitMult : Nat := 4

/- How many times a piece of news is sent; none is the failed assertion on the size. -/
def retransmitLimit (clusterSize : Nat) : Option Nat :=
  if 0 < clusterSize then some (retransmitMult * max (Nat.clog 10 (clusterSize + 1)) 1) else none

structure Pending where
  update : Update
  transmits : Nat
  deriving DecidableEq, Repr

structure Gossip where
  queue : ExtTreeMap UInt64 Pending
  deriving DecidableEq

def Gossip.new : Gossip := ⟨∅⟩

/- Whether the news was taken; none is the failed assertion of supersedes. -/
def Gossip.push (g : Gossip) (update : Update) : Option (Bool × Gossip) := do
  let newer ← match g.queue[update.member]? with
    | some pending => update.supersedes pending.update
    | none => some true
  if newer then some (true, ⟨g.queue.insert update.member ⟨update, 0⟩⟩) else some (false, g)

def lessSent (a b : Nat × UInt64) : Prop := a.1 < b.1 ∨ a.1 = b.1 ∧ a.2 ≤ b.2

instance : DecidableRel lessSent := fun _ _ => inferInstanceAs (Decidable (_ ∨ _))

/- The members whose news goes next, the least sent first. -/
def Gossip.freshest (g : Gossip) (max : Nat) : List UInt64 :=
  let counts := g.queue.toList.map fun entry => (entry.2.transmits, entry.1)
  ((counts.insertionSort lessSent).take max).map (·.2)

/- Sends the news of the members listed once more, and drops what was sent limit times;
   none is a failed expect, or the overflow of a count. -/
def Gossip.sendEach (limit : Nat) : List UInt64 → Gossip → Option (List Update × Gossip)
  | [], g => some ([], g)
  | member :: rest, g => do
    let pending ← g.queue[member]?
    if pending.transmits + 1 < 2 ^ 32 then
      let queue := if limit ≤ pending.transmits + 1 then g.queue.erase member
        else g.queue.insert member { pending with transmits := pending.transmits + 1 }
      let (updates, g) ← sendEach limit rest ⟨queue⟩
      some (pending.update :: updates, g)
    else none

def Gossip.take (g : Gossip) (max limit : Nat) : Option (List Update × Gossip) :=
  if 0 < limit then Gossip.sendEach limit (g.freshest max) g else none

theorem freshest_length (g : Gossip) (max : Nat) : (g.freshest max).length ≤ max := by
  simp [Gossip.freshest, List.length_take]

/- Every entry is filed under its own member. -/
def Gossip.Filed (g : Gossip) : Prop :=
  ∀ (member : UInt64) (pending : Pending),
    g.queue[member]? = some pending → pending.update.member = member

theorem Gossip.push_spec {g : Gossip} (filed : g.Filed) (update : Update) :
    (g.push update = some (true, ⟨g.queue.insert update.member ⟨update, 0⟩⟩) ∧
      ∀ pending, g.queue[update.member]? = some pending → pending.update.rank < update.rank) ∨
    (g.push update = some (false, g) ∧
      ∃ pending, g.queue[update.member]? = some pending ∧ update.rank ≤ pending.update.rank) := by
  unfold push
  cases found : g.queue[update.member]? with
  | none => exact Or.inl ⟨rfl, by simp⟩
  | some pending =>
    simp only [bind, Option.bind, Update.supersedes_eq (filed _ _ found).symm]
    by_cases newer : pending.update.rank < update.rank
    · left
      simp [newer]
    · right
      simp only [newer, decide_false, Bool.false_eq_true, ↓reduceIte, Option.some.injEq,
        exists_eq_left', true_and]
      omega

/- What is left after some news was sent is what was there, sent at most once more. -/
def SentFrom (limit : Nat) (g g' : Gossip) : Prop :=
  ∀ (member : UInt64) (pending' : Pending), g'.queue[member]? = some pending' →
    ∃ pending : Pending, g.queue[member]? = some pending ∧ pending'.update = pending.update ∧
      (pending' = pending ∨ pending'.transmits < limit)

theorem SentFrom.trans {limit : Nat} {g g' g'' : Gossip} (first : SentFrom limit g g')
    (second : SentFrom limit g' g'') : SentFrom limit g g'' := by
  intro member last found
  obtain ⟨middle, foundMiddle, same, count⟩ := second member last found
  obtain ⟨start, foundStart, same', count'⟩ := first member middle foundMiddle
  refine ⟨start, foundStart, same.trans same', ?_⟩
  rcases count with rfl | few
  · exact count'
  · exact Or.inr few

theorem Gossip.sendEach_spec {limit : Nat} {members : List UInt64} {g g' : Gossip}
    {updates : List Update} (h : Gossip.sendEach limit members g = some (updates, g')) :
    SentFrom limit g g' ∧ updates.length = members.length ∧
      ∀ update ∈ updates, ∃ (member : UInt64) (pending : Pending), g.queue[member]? = some pending ∧
        pending.update = update := by
  induction members generalizing g updates with
  | nil =>
    simp only [sendEach, Option.some.injEq, Prod.mk.injEq] at h
    obtain ⟨rfl, rfl⟩ := h
    exact ⟨fun member pending found => ⟨pending, found, rfl, Or.inl rfl⟩, rfl, by simp⟩
  | cons member rest ih =>
    simp only [sendEach, bind, Option.bind_eq_some_iff] at h
    obtain ⟨pending, found, h⟩ := h
    split at h
    · simp only [Option.bind_eq_some_iff, Option.some.injEq, Prod.mk.injEq] at h
      obtain ⟨⟨others, last⟩, later, rfl, rfl⟩ := h
      obtain ⟨sent, length, from_queue⟩ := ih later
      have once : SentFrom limit g ⟨if limit ≤ pending.transmits + 1 then g.queue.erase member
          else g.queue.insert member { pending with transmits := pending.transmits + 1 }⟩ := by
        intro other pending' found'
        dsimp only at found'
        split at found'
        · rw [ExtTreeMap.getElem?_erase] at found'
          split at found'
          · simp at found'
          · exact ⟨pending', found', rfl, Or.inl rfl⟩
        · rw [ExtTreeMap.getElem?_insert] at found'
          split at found'
          · rename_i same
            have same : member = other := Std.LawfulEqCmp.eq_of_compare same
            subst same
            simp only [Option.some.injEq] at found'
            subst found'
            exact ⟨pending, found, rfl, Or.inr (Nat.not_le.mp ‹_›)⟩
          · exact ⟨pending', found', rfl, Or.inl rfl⟩
      refine ⟨once.trans sent, by simp [length], ?_⟩
      intro update mem
      rcases List.mem_cons.mp mem with rfl | mem
      · exact ⟨member, pending, found, rfl⟩
      · obtain ⟨source, held, foundHeld, same⟩ := from_queue update mem
        obtain ⟨original, foundOriginal, same', _⟩ := once source held foundHeld
        exact ⟨source, original, foundOriginal, same'.symm.trans same⟩
    · simp at h

theorem Gossip.take_spec {g g' : Gossip} {max limit : Nat} {updates : List Update}
    (h : g.take max limit = some (updates, g')) :
    SentFrom limit g g' ∧ updates.length ≤ max ∧
      ∀ update ∈ updates, ∃ (member : UInt64) (pending : Pending), g.queue[member]? = some pending ∧
        pending.update = update := by
  unfold take at h
  split at h
  · obtain ⟨sent, length, from_queue⟩ := Gossip.sendEach_spec h
    exact ⟨sent, length ▸ freshest_length g max, from_queue⟩
  · simp at h

end Rateguard
