import Rateguard.Builder
import Rateguard.RoundShares

/- The names among a node's seeds, looked up round after round: the seeds follow the last answer of
   each name, and a node that keeps finding only itself stops expecting peers. An ID is the hash of
   an address, a parameter; a socket's address is read only as the address it converts to. -/
namespace Rateguard
open Std (ExtTreeSet)

abbrev Found := List (Option (List Address))

/- The seeds that come from names, beside those that are kept. -/
structure Names where
  localId : PeerId
  last : List (List Address)
  kept : ExtTreeSet PeerId
  added : ExtTreeSet PeerId
  alone : Nat

def aloneAfter : Nat := 3

def u32Max : Nat := 2 ^ 32 - 1

namespace Names

def new (localId : PeerId) : Names := ⟨localId, [], ∅, ∅, 0⟩

def keep (names : Names) (seed : PeerId) : Names := { names with kept := names.kept.insert seed }

def refreshed (last : List (List Address)) (found : Found) : List (List Address) :=
  (last.take found.length ++ .replicate (found.length - last.length) []).zipWith
    (fun last found => found.getD last) found

section
variable (peerId : Address → PeerId)

def onlyMe (localId : PeerId) (found : Found) : Bool :=
  (found.all fun found => found.any fun found => found.all fun address =>
      peerId address == localId) &&
    found.any fun found => found.any fun found => !found.isEmpty

/- The IDs of the addresses, this node's own and those kept apart, the new ones added to the
   node. -/
def collect (names : Names) : List Address → ExtTreeSet PeerId → Node →
    Option (ExtTreeSet PeerId × Node)
  | [], current, node => some (current, node)
  | address :: rest, current, node =>
    let id := peerId address
    if id = names.localId ∨ names.kept.contains id then collect names rest current node
    else do
      let node ← (if !current.contains id && !names.added.contains id then node.addSeed id address
        else some node)
      collect names rest (current.insert id) node

def removeAll (node : Node) (gone : List PeerId) : Option Node :=
  gone.foldlM (fun node seed => node.removeSeed seed) node

def update (names : Names) (node : Node) (found : Found) : Option (Names × Node) := do
  let alone := if onlyMe peerId names.localId found then min (names.alone + 1) u32Max else 0
  let node ← (if alone = aloneAfter then node.expectPeers false else some node)
  let last := refreshed names.last found
  let (current, node) ← collect peerId names last.flatten ∅ node
  let node ← removeAll node (names.added.toList.filter fun seed => !current.contains seed)
  some ({ names with alone, last, added := current }, node)

end
end Names

/- The seeds given as addresses, this node's own apart. -/
def keepSeeds (peerId : Address → PeerId) :
    List Address → Names × Node → Option (Names × Node)
  | [], state => some state
  | address :: rest, (names, node) =>
    let id := peerId address
    if id = names.localId then keepSeeds peerId rest (names, node)
    else do
      let node ← node.addSeed id address
      keepSeeds peerId rest (names.keep id, node)

def Settings.launch (s : Settings) (peerId : Address → PeerId) (seed : UInt64) :
    Option (Names × Node) := do
  let localId := peerId s.advertise
  let node ← s.start localId s.advertise seed
  let (names, node) ← keepSeeds peerId s.seeds (.new localId, node)
  let node ← (if s.names.isEmpty then some node else node.expectPeers true)
  some (names, node)

/- What the background task does next: take in a round of lookups, or anything else it does with
   the node. -/
inductive Turn where
  | lookedUp (found : Found)
  | other (op : Op)

def Turn.take (decay : Nat → Nat → ℚ) (peerId : Address → PeerId) (state : Names × Node) :
    Turn → Option (Names × Node)
  | .lookedUp found => state.1.update peerId state.2 found
  | .other op => (state.2.step decay op).map fun node => (state.1, node)

/- A round answers for every name, and nothing but a round touches the seeds. -/
def Turn.Proper (names : Nat) : Turn → Prop
  | .lookedUp found => found.length = names
  | .other (.addSeed _ _) | .other (.removeSeed _) => False
  | .other _ => True

def Turn.rounds (turns : List Turn) : List Found :=
  turns.filterMap fun
    | .lookedUp found => some found
    | .other _ => none

def lastAnswer (rounds : List Found) (name : Nat) : List Address :=
  ((rounds.filterMap fun found => found[name]?.join).getLast?).getD []

/- No lookup failed, some address was found, and every one is this node's own. -/
def Alone (peerId : Address → PeerId) (localId : PeerId) (found : Found) : Prop :=
  none ∉ found ∧ (∃ answer, some answer ∈ found ∧ answer ≠ []) ∧
    ∀ answer, some answer ∈ found → ∀ address ∈ answer, peerId address = localId

/- The seeds of a node are these, each listed once. -/
def Node.Lists (n : Node) (ids : PeerId → Prop) : Prop :=
  (n.seeds.map (·.1)).Nodup ∧ ∀ id, id ∈ n.seeds.map (·.1) ↔ ids id

/- Every seed of a node is listed under its own ID, and is one of these addresses. -/
def Node.SeedsFrom (n : Node) (peerId : Address → PeerId) (known : Address → Prop) : Prop :=
  ∀ seed ∈ n.seeds, seed.1 = peerId seed.2 ∧ known seed.2

namespace Node
variable {n n' : Node} {ids ids' : PeerId → Prop} {peerId : Address → PeerId}
  {known known' : Address → Prop}

theorem Lists.congr (lists : n.Lists ids) (same : ∀ id, ids id ↔ ids' id) : n.Lists ids' :=
  ⟨lists.1, fun id => (lists.2 id).trans (same id)⟩

theorem Lists.same (lists : n.Lists ids) (same : n'.seeds = n.seeds) : n'.Lists ids := by
  unfold Lists
  rw [same]
  exact lists

theorem addSeed_some {seed : PeerId} {addr : Address} (h : n.addSeed seed addr = some n') :
    n'.expectsPeers = n.expectsPeers ∧
      n'.seeds = if n.seeds.any (·.1 == seed) then n.seeds else n.seeds ++ [(seed, addr)] := by
  simp only [addSeed, Option.ite_none_left_eq_some] at h
  rw [refreshCap_frame h.2]
  split <;> exact ⟨rfl, rfl⟩

theorem removeSeed_some {seed : PeerId} (h : n.removeSeed seed = some n') :
    n'.expectsPeers = n.expectsPeers ∧ n'.seeds = n.seeds.filter (·.1 != seed) := by
  rw [refreshCap_frame h]
  exact ⟨rfl, rfl⟩

theorem expectPeers_some {expected : Bool} (h : n.expectPeers expected = some n') :
    n'.expectsPeers = expected ∧ n'.seeds = n.seeds := by
  rw [refreshCap_frame h]
  exact ⟨rfl, rfl⟩

theorem Lists.addSeed (lists : n.Lists ids) {seed : PeerId} {addr : Address}
    (h : n.addSeed seed addr = some n') : n'.Lists fun id => ids id ∨ id = seed := by
  obtain ⟨_, seeds⟩ := addSeed_some h
  split at seeds
  · rename_i listed
    obtain ⟨entry, mem, same⟩ := List.any_eq_true.mp listed
    refine (lists.same seeds).congr fun id => ⟨.inl, ?_⟩
    rintro (already | rfl)
    · exact already
    · exact (lists.2 id).mp (List.mem_map.mpr ⟨entry, mem, beq_iff_eq.mp same⟩)
  · rename_i absent
    have new : seed ∉ n.seeds.map (·.1) := by
      intro mem
      obtain ⟨entry, mem, same⟩ := List.mem_map.mp mem
      exact absent (List.any_eq_true.mpr ⟨entry, mem, beq_iff_eq.mpr same⟩)
    unfold Lists
    rw [seeds, List.map_append, List.map_singleton]
    constructor
    · refine List.nodup_append'.mpr ⟨lists.1, List.nodup_singleton seed, ?_⟩
      exact List.disjoint_singleton.mpr new
    · intro id
      rw [List.mem_append, List.mem_singleton, lists.2]

theorem Lists.removeSeed (lists : n.Lists ids) {seed : PeerId} (h : n.removeSeed seed = some n') :
    n'.Lists fun id => ids id ∧ id ≠ seed := by
  obtain ⟨_, seeds⟩ := removeSeed_some h
  have ids_of : n'.seeds.map (·.1) = (n.seeds.map (·.1)).filter (· != seed) := by
    rw [seeds, List.filter_map]
    rfl
  unfold Lists
  rw [ids_of]
  constructor
  · exact lists.1.filter _
  · intro id
    rw [List.mem_filter, lists.2, bne_iff_ne]

theorem SeedsFrom.mono (seeds : n.SeedsFrom peerId known) (more : ∀ addr, known addr → known' addr) :
    n.SeedsFrom peerId known' :=
  fun seed mem => ⟨(seeds seed mem).1, more seed.2 (seeds seed mem).2⟩

theorem SeedsFrom.same (seeds : n.SeedsFrom peerId known) (same : n'.seeds = n.seeds) :
    n'.SeedsFrom peerId known := by
  unfold SeedsFrom
  rw [same]
  exact seeds

theorem SeedsFrom.addSeed (seeds : n.SeedsFrom peerId known) {addr : Address} (source : known addr)
    (h : n.addSeed (peerId addr) addr = some n') : n'.SeedsFrom peerId known := by
  obtain ⟨_, added⟩ := addSeed_some h
  split at added
  · exact seeds.same added
  · intro seed mem
    rw [added, List.mem_append, List.mem_singleton] at mem
    rcases mem with old | rfl
    · exact seeds seed old
    · exact ⟨rfl, source⟩

theorem SeedsFrom.removeSeed (seeds : n.SeedsFrom peerId known) {seed : PeerId}
    (h : n.removeSeed seed = some n') : n'.SeedsFrom peerId known := by
  obtain ⟨_, removed⟩ := removeSeed_some h
  intro entry mem
  rw [removed] at mem
  exact seeds entry (List.mem_filter.mp mem).1

end Node

namespace Names
section
variable {peerId : Address → PeerId} {names names' : Names} {node node' : Node}
  {ids : PeerId → Prop} {known : Address → Prop}

/- An ID behind one of the addresses, and neither this node's own nor kept. -/
def Wanted (peerId : Address → PeerId) (names : Names) (addresses : List Address) (id : PeerId) :
    Prop :=
  id ≠ names.localId ∧ id ∉ names.kept ∧ ∃ address ∈ addresses, peerId address = id

theorem wanted_cons {address : Address} {rest : List Address} {id : PeerId} :
    Wanted peerId names (address :: rest) id ↔
      (id = peerId address ∧ id ≠ names.localId ∧ id ∉ names.kept) ∨ Wanted peerId names rest id := by
  simp only [Wanted, List.mem_cons, exists_eq_or_imp]
  constructor
  · rintro ⟨other, unkept, same | there⟩
    · exact .inl ⟨same.symm, other, unkept⟩
    · exact .inr ⟨other, unkept, there⟩
  · rintro (⟨same, other, unkept⟩ | ⟨other, unkept, there⟩)
    · exact ⟨other, unkept, .inl same.symm⟩
    · exact ⟨other, unkept, .inr there⟩

theorem collect_spec {addresses : List Address} {current current' : ExtTreeSet PeerId}
    (h : collect peerId names addresses current node = some (current', node'))
    (lists : node.Lists ids) (had : ∀ id, id ∈ current ∨ id ∈ names.added → ids id)
    (seeds : node.SeedsFrom peerId known) (source : ∀ address ∈ addresses, known address) :
    (∀ id, id ∈ current' ↔ id ∈ current ∨ Wanted peerId names addresses id) ∧
      node'.Lists (fun id => ids id ∨ id ∈ current') ∧ node'.SeedsFrom peerId known ∧
      node'.expectsPeers = node.expectsPeers := by
  induction addresses generalizing current node ids with
  | nil =>
    obtain ⟨rfl, rfl⟩ := Prod.mk.inj (Option.some.inj h)
    refine ⟨fun id => by simp [Wanted], lists.congr fun id => ⟨.inl, ?_⟩, seeds, rfl⟩
    rintro (listed | mem)
    · exact listed
    · exact had id (.inl mem)
  | cons address rest ih =>
    have sourced : ∀ other ∈ rest, known other := fun other mem =>
      source other (List.mem_cons_of_mem _ mem)
    simp only [collect] at h
    split at h
    · rename_i skipped
      obtain ⟨collected, same⟩ := ih h lists had seeds sourced
      refine ⟨fun id => (collected id).trans (or_congr_right ?_), same⟩
      rw [wanted_cons, or_iff_right]
      rintro ⟨rfl, other, unkept⟩
      exact skipped.elim other unkept
    · rename_i taken
      obtain ⟨other, unkept⟩ := not_or.mp taken
      obtain ⟨u, first, h⟩ := Option.bind_eq_some_iff.mp h
      have listsU : u.Lists fun id => ids id ∨ id = peerId address := by
        split at first
        · exact lists.addSeed first
        · rename_i known'
          obtain rfl := Option.some.inj first
          refine lists.congr fun id => ⟨.inl, ?_⟩
          rintro (listed | rfl)
          · exact listed
          · refine had _ ?_
            simpa [← ExtTreeSet.contains_iff_mem, Decidable.or_iff_not_imp_left] using known'
      have seedsU : u.SeedsFrom peerId known ∧ u.expectsPeers = node.expectsPeers := by
        split at first
        · exact ⟨seeds.addSeed (source address List.mem_cons_self) first,
            (Node.addSeed_some first).1⟩
        · exact Option.some.inj first ▸ ⟨seeds, rfl⟩
      obtain ⟨collected, listed, from', expects⟩ := ih h listsU (by
        rintro id (mem | mem)
        · rcases ExtTreeSet.mem_insert.mp mem with same | old
          · exact .inr (Std.LawfulEqCmp.eq_of_compare same).symm
          · exact .inl (had id (.inl old))
        · exact .inl (had id (.inr mem))) seedsU.1 sourced
      have mem_current (id : PeerId) :
          id ∈ current.insert (peerId address) ↔ id = peerId address ∨ id ∈ current := by
        rw [ExtTreeSet.mem_insert, Std.LawfulEqCmp.compare_eq_iff_eq, eq_comm]
      have fresh (id : PeerId) : id = peerId address ↔
          id = peerId address ∧ id ≠ names.localId ∧ id ∉ names.kept := by
        refine ⟨?_, And.left⟩
        rintro rfl
        exact ⟨rfl, other, fun kept => unkept (ExtTreeSet.contains_iff_mem.mpr kept)⟩
      refine ⟨fun id => ?_, listed.congr fun id => ?_, from', expects.trans seedsU.2⟩
      · rw [collected, mem_current, wanted_cons, fresh id]
        tauto
      · have taken : id = peerId address → id ∈ current' := fun same =>
          (collected id).mpr (.inl ((mem_current id).mpr (.inl same)))
        tauto

theorem removeAll_spec {gone : List PeerId} (h : removeAll node gone = some node')
    (lists : node.Lists ids) (seeds : node.SeedsFrom peerId known) :
    node'.Lists (fun id => ids id ∧ id ∉ gone) ∧ node'.SeedsFrom peerId known ∧
      node'.expectsPeers = node.expectsPeers := by
  induction gone generalizing node ids with
  | nil =>
    obtain rfl := Option.some.inj h
    exact ⟨lists.congr fun id => by simp, seeds, rfl⟩
  | cons seed rest ih =>
    simp only [removeAll, List.foldlM_cons, Option.bind_eq_bind, Option.bind_eq_some_iff] at h
    obtain ⟨u, first, h⟩ := h
    obtain ⟨listed, seeds', expects⟩ := ih h (lists.removeSeed first) (seeds.removeSeed first)
    refine ⟨listed.congr fun id => ?_, seeds', expects.trans (Node.removeSeed_some first).1⟩
    rw [List.mem_cons]
    tauto

/- What the names hold of what they were told: who is kept, and whom the last addresses brought. -/
structure Holds (peerId : Address → PeerId) (names : Names) (node : Node) : Prop where
  added : ∀ id, id ∈ names.added ↔ Wanted peerId names names.last.flatten id
  lists : node.Lists fun id => id ∈ names.kept ∨ id ∈ names.added

/- After a round the seeds are those kept and those its last addresses bring. -/
theorem update_holds {found : Found} (holds : names.Holds peerId node)
    (seeds : node.SeedsFrom peerId known)
    (source : ∀ address ∈ (refreshed names.last found).flatten, known address)
    (h : names.update peerId node found = some (names', node')) :
    names' = { names with
        alone := if onlyMe peerId names.localId found then min (names.alone + 1) u32Max else 0
        last := refreshed names.last found, added := names'.added } ∧
      names'.Holds peerId node' ∧ node'.SeedsFrom peerId known ∧
      node'.expectsPeers = (node.expectsPeers && !decide (names'.alone = aloneAfter)) := by
  simp only [update, Option.bind_eq_bind, Option.bind_eq_some_iff, Option.some.injEq,
    Prod.mk.injEq] at h
  obtain ⟨a, told, ⟨current, b⟩, collected, c, removed, rfl, rfl⟩ := h
  have toldSeeds : a.seeds = node.seeds ∧ a.expectsPeers = (node.expectsPeers && !decide
      ((if onlyMe peerId names.localId found then min (names.alone + 1) u32Max else 0) =
        aloneAfter)) := by
    generalize (if onlyMe peerId names.localId found then min (names.alone + 1) u32Max else 0) =
      alone at told ⊢
    split at told
    · rename_i third
      obtain ⟨expects, same⟩ := Node.expectPeers_some told
      exact ⟨same, by rw [expects, decide_eq_true third]; simp⟩
    · rename_i early
      obtain rfl := Option.some.inj told
      exact ⟨rfl, by rw [decide_eq_false early]; simp⟩
  obtain ⟨wanted, lists, from', expects⟩ := collect_spec collected (holds.lists.same toldSeeds.1)
    (by rintro id (mem | mem)
        · exact absurd mem ExtTreeSet.not_mem_empty
        · exact .inr mem)
    (seeds.same toldSeeds.1) source
  obtain ⟨listed, from'', expects'⟩ := removeAll_spec removed lists from'
  have wanted (id : PeerId) : id ∈ current ↔ Wanted peerId names (refreshed names.last found).flatten id := by
    rw [wanted, or_iff_right ExtTreeSet.not_mem_empty]
  refine ⟨rfl, ⟨wanted, listed.congr fun id => ?_⟩, from'', ?_⟩
  · have unkept : id ∈ names.added → id ∉ names.kept := fun mem => ((holds.added id).mp mem).2.1
    simp only [List.mem_filter, ExtTreeSet.mem_toList, Bool.not_eq_eq_eq_not, Bool.not_true,
      ← Bool.not_eq_true, ExtTreeSet.contains_iff_mem]
    tauto
  · rw [expects', expects]
    exact toldSeeds.2

end
end Names

theorem onlyMe_iff {peerId : Address → PeerId} {localId : PeerId} {found : Found} :
    Names.onlyMe peerId localId found = true ↔ Alone peerId localId found := by
  unfold Names.onlyMe Alone
  simp only [Bool.and_eq_true, List.all_eq_true, List.any_eq_true, Option.any_eq_true, beq_iff_eq]
  constructor
  · rintro ⟨own, _, mem, answer, rfl, some⟩
    refine ⟨fun failed => ?_, ⟨answer, mem, by simpa using some⟩, fun answer there => ?_⟩
    · obtain ⟨_, none, _⟩ := own none failed
      exact absurd none (by simp)
    · obtain ⟨_, same, all⟩ := own _ there
      exact Option.some.inj same ▸ all
  · rintro ⟨answered, ⟨answer, mem, some⟩, own⟩
    refine ⟨fun looked there => ?_, _, mem, answer, rfl, by simpa using some⟩
    cases looked with
    | none => exact absurd there answered
    | some answer => exact ⟨answer, rfl, own answer there⟩

instance (peerId : Address → PeerId) (localId : PeerId) (found : Found) :
    Decidable (Alone peerId localId found) :=
  decidable_of_iff _ onlyMe_iff

/- How many of the last rounds, in a row, found nobody but this node. -/
def aloneRounds (peerId : Address → PeerId) (localId : PeerId) (rounds : List Found) : Nat :=
  (rounds.reverse.takeWhile fun found => decide (Alone peerId localId found)).length

theorem aloneRounds_snoc {peerId : Address → PeerId} {localId : PeerId} (rounds : List Found)
    (found : Found) : aloneRounds peerId localId (rounds ++ [found]) =
      if Alone peerId localId found then aloneRounds peerId localId rounds + 1 else 0 := by
  unfold aloneRounds
  rw [List.reverse_append, List.reverse_singleton, List.singleton_append, List.takeWhile_cons]
  by_cases alone : Alone peerId localId found
  · rw [if_pos (decide_eq_true alone), if_pos alone, List.length_cons]
  · rw [if_neg (by simpa using alone), if_neg alone, List.length_nil]

theorem lastAnswer_snoc (rounds : List Found) (found : Found) (name : Nat) :
    lastAnswer (rounds ++ [found]) name = found[name]?.join.getD (lastAnswer rounds name) := by
  unfold lastAnswer
  rw [List.filterMap_append]
  cases answered : found[name]?.join with
  | none => simp [answered]
  | some answer => simp [answered]

theorem mem_lastAnswer {rounds : List Found} {name : Nat} {address : Address}
    (mem : address ∈ lastAnswer rounds name) :
    ∃ found ∈ rounds, ∃ answer, some answer ∈ found ∧ address ∈ answer := by
  unfold lastAnswer at mem
  cases answered : (rounds.filterMap fun found => found[name]?.join).getLast? with
  | none =>
    rw [answered, Option.getD_none] at mem
    exact absurd mem List.not_mem_nil
  | some answer =>
    rw [answered, Option.getD_some] at mem
    obtain ⟨round, listed, got⟩ := List.mem_filterMap.mp (List.mem_of_getLast? answered)
    exact ⟨round, listed, answer, List.mem_of_getElem? (Option.join_eq_some_iff.mp got), mem⟩

namespace Names

theorem refreshed_length {last : List (List Address)} {found : Found}
    (short : last.length ≤ found.length) : (refreshed last found).length = found.length := by
  simp only [refreshed, List.length_zipWith, List.length_append, List.length_take,
    List.length_replicate]
  omega

theorem refreshed_getD {last : List (List Address)} {found : Found}
    (short : last.length ≤ found.length) (name : Nat) :
    (refreshed last found)[name]?.getD [] = found[name]?.join.getD (last[name]?.getD []) := by
  rw [refreshed, List.take_of_length_le short, List.getElem?_zipWith]
  cases looked : found[name]? with
  | none =>
    have past := List.getElem?_eq_none_iff.mp looked
    simp [List.getElem?_eq_none_iff.mpr (short.trans past)]
  | some answer =>
    have within : name < found.length := (List.getElem?_eq_some_iff.mp looked).1
    have held : (last ++ .replicate (found.length - last.length) [])[name]? =
        some (last[name]?.getD []) := by
      by_cases old : name < last.length
      · rw [List.getElem?_append_left old, List.getElem?_eq_getElem old, Option.getD_some]
      · rw [List.getElem?_append_right (Nat.not_lt.mp old), List.getElem?_replicate,
          if_pos (by omega), List.getElem?_eq_none (Nat.not_lt.mp old), Option.getD_none]
    rw [held]
    cases answer <;> rfl

end Names

theorem mem_flatten_getD {last : List (List Address)} {address : Address} :
    address ∈ last.flatten ↔ ∃ name < last.length, address ∈ last[name]?.getD [] := by
  rw [List.mem_flatten]
  constructor
  · rintro ⟨answer, mem, there⟩
    obtain ⟨name, within, rfl⟩ := List.getElem_of_mem mem
    exact ⟨name, within, by rw [List.getElem?_eq_getElem within]; exact there⟩
  · rintro ⟨name, within, there⟩
    rw [List.getElem?_eq_getElem within] at there
    exact ⟨_, List.getElem_mem within, there⟩

theorem Node.step_seeds {decay : Nat → Nat → ℚ} {n n' : Node} {op : Op} {names : Nat}
    (proper : (Turn.other op).Proper names) (h : n.step decay op = some n') :
    n'.seeds = n.seeds := by
  cases op with
  | introduce peer addr =>
    simp only [step, introduce, bind, Option.ite_none_left_eq_some,
      Option.bind_eq_some_iff] at h
    obtain ⟨_, ⟨applied, members⟩, _, h⟩ := h
    split at h
    · rw [refreshCap_frame h]
    · rw [← Option.some.inj h]
  | addSeed | removeSeed => exact proper.elim
  | expectPeers expected => rw [refreshCap_frame h]
  | setPartitionPolicy policy => rw [refreshCap_frame h]
  | setQuorumMemory memory =>
    rw [← Option.some.inj h]
    rfl
  | setMaxMembers max =>
    simp only [step, setMaxMembers, bind, Option.bind_eq_some_iff, Option.some.injEq] at h
    obtain ⟨members, _, rfl⟩ := h
    rfl
  | record key tally limit now =>
    simp only [step, Node.record, bind, Option.bind_eq_some_iff, Option.some.injEq] at h
    obtain ⟨a, advanced, limiter, _, rfl⟩ := h
    rw [(advance_some advanced).2]
  | checkIn key limit now =>
    simp only [step, checkIn, bind, Option.map_eq_some_iff, Option.bind_eq_some_iff,
      Option.some.injEq] at h
    obtain ⟨_, ⟨a, advanced, ⟨decision, limiter⟩, _, rfl⟩, rfl⟩ := h
    rw [(advance_some advanced).2]
  | checkInTraced key limit shadow now =>
    simp only [step, checkInTraced, bind, Option.map_eq_some_iff, Option.bind_eq_some_iff,
      Option.some.injEq] at h
    obtain ⟨_, ⟨a, advanced, ⟨decisions, limiter⟩, _, rfl⟩, rfl⟩ := h
    rw [(advance_some advanced).2]
  | handle event now =>
    obtain ⟨_, rfl | ⟨_, _, ticked⟩ | ⟨_, _, _, _, _, _, _, _, received⟩⟩ := handle_cases h
    · rfl
    · simp only [tick, bind, Option.bind_eq_some_iff] at ticked
      obtain ⟨a, timed, b, rounds, escalated⟩ := ticked
      have same : b.seeds = a.seeds := by
        split at rounds
        · obtain ⟨u, m, c, _, opened, policy, shares, _, _, frame⟩ := round_sharing rounds
          rw [frame, applyShares_frame shares, applyPolicy_frame policy, (openRound_frame opened).1]
        · rw [← Option.some.inj rounds]
      rw [escalate_frame escalated, same, timeOut_frame timed]
    · rw [receiveMessage_frame received]
  | leave now =>
    simp only [step, leave, bind, Option.bind_eq_some_iff] at h
    obtain ⟨a, advanced, h⟩ := h
    obtain ⟨_, rfl⟩ := advance_some advanced
    split at h
    · rw [← Option.some.inj h]
    · obtain ⟨own, _, h⟩ := Option.bind_eq_some_iff.mp h
      rw [sendLeave_frame h]
  | rehash keys =>
    obtain ⟨_, same⟩ := Option.ite_none_right_eq_some.mp h
    rw [← Option.some.inj same]

/- An address a node was ever told of: a seed given to it, or in some answer. -/
def Mentioned (s : Settings) (rounds : List Found) (address : Address) : Prop :=
  address ∈ s.seeds ∨ ∃ found ∈ rounds, ∃ answer, some answer ∈ found ∧ address ∈ answer

/- The names and the node after these rounds, whatever else the node did between them. -/
structure Recalls (peerId : Address → PeerId) (s : Settings) (rounds : List Found)
    (names : Names) (node : Node) : Prop where
  localId : names.localId = peerId s.advertise
  kept : ∀ id, id ∈ names.kept ↔
    id ≠ peerId s.advertise ∧ ∃ address ∈ s.seeds, peerId address = id
  short : names.last.length ≤ s.names.length
  last : ∀ name, names.last[name]?.getD [] = lastAnswer rounds name
  holds : names.Holds peerId node
  seeds : node.SeedsFrom peerId (Mentioned s rounds)
  alone : names.alone = min (aloneRounds peerId (peerId s.advertise) rounds) u32Max

section
variable {peerId : Address → PeerId} {s : Settings} {rounds : List Found} {names names' : Names}
  {node node' : Node}

theorem mem_refreshed_mentioned {found : Found} (recalls : Recalls peerId s rounds names node)
    (complete : found.length = s.names.length) {address : Address}
    (mem : address ∈ (Names.refreshed names.last found).flatten) :
    Mentioned s (rounds ++ [found]) address := by
  obtain ⟨name, _, there⟩ := mem_flatten_getD.mp mem
  rw [Names.refreshed_getD (complete ▸ recalls.short), recalls.last, ← lastAnswer_snoc] at there
  exact .inr (mem_lastAnswer there)

theorem Recalls.round {found : Found} (recalls : Recalls peerId s rounds names node)
    (complete : found.length = s.names.length)
    (h : names.update peerId node found = some (names', node')) :
    Recalls peerId s (rounds ++ [found]) names' node' ∧ node'.expectsPeers =
      (node.expectsPeers && !decide (aloneRounds peerId (peerId s.advertise) (rounds ++ [found]) = 3)) := by
  have short : names.last.length ≤ found.length := complete ▸ recalls.short
  obtain ⟨same, holds, seeds, expects⟩ := Names.update_holds recalls.holds
    (recalls.seeds.mono fun address told => (show Mentioned s (rounds ++ [found]) address from
      told.imp id fun ⟨round, mem, rest⟩ => ⟨round, List.mem_append_left _ mem, rest⟩))
    (fun address mem => mem_refreshed_mentioned recalls complete mem) h
  have alone : names'.alone = min (aloneRounds peerId (peerId s.advertise) (rounds ++ [found])) u32Max := by
    rw [same, aloneRounds_snoc]
    dsimp only
    rw [recalls.localId, recalls.alone]
    simp only [onlyMe_iff]
    split
    · omega
    · exact (Nat.zero_min u32Max).symm
  refine ⟨⟨?_, ?_, ?_, ?_, holds, seeds, alone⟩, ?_⟩
  · rw [same]
    exact recalls.localId
  · rw [same]
    exact recalls.kept
  · rw [same]
    exact Nat.le_of_eq ((Names.refreshed_length short).trans complete)
  · intro name
    rw [same, lastAnswer_snoc, ← recalls.last]
    exact Names.refreshed_getD short name
  · rw [expects, alone]
    have : (min (aloneRounds peerId (peerId s.advertise) (rounds ++ [found])) u32Max = aloneAfter) ↔
        aloneRounds peerId (peerId s.advertise) (rounds ++ [found]) = 3 := by
      unfold aloneAfter u32Max
      omega
    simp only [this]

theorem Recalls.same (recalls : Recalls peerId s rounds names node) (same : node'.seeds = node.seeds) :
    Recalls peerId s rounds names node' :=
  { recalls with
    holds := ⟨recalls.holds.added, recalls.holds.lists.same same⟩
    seeds := recalls.seeds.same same }

theorem Recalls.turns {decay : Nat → Nat → ℚ} {turns : List Turn}
    (recalls : Recalls peerId s rounds names node)
    (proper : ∀ turn ∈ turns, turn.Proper s.names.length)
    (h : turns.foldlM (Turn.take decay peerId) (names, node) = some (names', node')) :
    Recalls peerId s (rounds ++ Turn.rounds turns) names' node' := by
  induction turns generalizing rounds names node with
  | nil =>
    obtain ⟨rfl, rfl⟩ := Prod.mk.inj (Option.some.inj h)
    rw [Turn.rounds, List.filterMap_nil, List.append_nil]
    exact recalls
  | cons turn rest ih =>
    simp only [List.foldlM_cons, Option.bind_eq_bind, Option.bind_eq_some_iff] at h
    obtain ⟨⟨names₁, node₁⟩, first, h⟩ := h
    have others : ∀ turn ∈ rest, turn.Proper s.names.length := fun other mem =>
      proper other (List.mem_cons_of_mem _ mem)
    cases turn with
    | lookedUp found =>
      have complete : found.length = s.names.length := proper _ List.mem_cons_self
      have after := ih (recalls.round complete first).1 others h
      rw [List.append_assoc] at after
      exact after
    | other op =>
      obtain ⟨u, stepped, made⟩ := Option.map_eq_some_iff.mp first
      obtain ⟨rfl, rfl⟩ := Prod.mk.inj made
      exact ih (recalls.same (Node.step_seeds (proper _ List.mem_cons_self) stepped)) others h

theorem keepSeeds_spec {addresses : List Address} {ids : PeerId → Prop} {known : Address → Prop}
    (h : keepSeeds peerId addresses (names, node) = some (names', node'))
    (lists : node.Lists ids) (seeds : node.SeedsFrom peerId known)
    (source : ∀ address ∈ addresses, known address) :
    names' = { names with kept := names'.kept } ∧
      (∀ id, id ∈ names'.kept ↔ id ∈ names.kept ∨
        id ≠ names.localId ∧ ∃ address ∈ addresses, peerId address = id) ∧
      node'.Lists (fun id => ids id ∨
        id ≠ names.localId ∧ ∃ address ∈ addresses, peerId address = id) ∧
      node'.SeedsFrom peerId known := by
  induction addresses generalizing names node ids with
  | nil =>
    obtain ⟨rfl, rfl⟩ := Prod.mk.inj (Option.some.inj h)
    exact ⟨rfl, fun id => by simp, lists.congr fun id => by simp, seeds⟩
  | cons address rest ih =>
    have sourced : ∀ other ∈ rest, known other := fun other mem =>
      source other (List.mem_cons_of_mem _ mem)
    simp only [keepSeeds] at h
    split at h
    · rename_i own
      have skip (id : PeerId) :
          (id ≠ names.localId ∧ ∃ address ∈ rest, peerId address = id) ↔
            id ≠ names.localId ∧ ∃ other ∈ address :: rest, peerId other = id := by
        simp only [List.mem_cons, exists_eq_or_imp, own]
        tauto
      obtain ⟨same, kept, listed, from'⟩ := ih h lists seeds sourced
      exact ⟨same, fun id => (kept id).trans (or_congr_right (skip id)),
        listed.congr fun id => or_congr_right (skip id), from'⟩
    · rename_i other
      obtain ⟨u, added, h⟩ := Option.bind_eq_some_iff.mp h
      obtain ⟨same, kept, listed, from'⟩ := ih h (lists.addSeed added)
        (seeds.addSeed (source address List.mem_cons_self) added) sourced
      have given (id : PeerId) : (id = peerId address ∨
          id ≠ names.localId ∧ ∃ other ∈ rest, peerId other = id) ↔
            id ≠ names.localId ∧ ∃ other ∈ address :: rest, peerId other = id := by
        simp only [List.mem_cons, exists_eq_or_imp]
        constructor
        · rintro (rfl | ⟨apart, there⟩)
          · exact ⟨other, .inl rfl⟩
          · exact ⟨apart, .inr there⟩
        · rintro ⟨apart, same | there⟩
          · exact .inl same.symm
          · exact .inr ⟨apart, there⟩
      refine ⟨same, fun id => ?_, listed.congr fun id => ?_, from'⟩
      · rw [kept, Names.keep, ExtTreeSet.mem_insert, Std.LawfulEqCmp.compare_eq_iff_eq, eq_comm,
          or_comm (a := id = peerId address), or_assoc, ← given]
      · rw [or_assoc, ← given]
        rfl

theorem start_seeds {localId : PeerId} {addr : Address} {seed : UInt64}
    (h : s.start localId addr seed = some node) : node.seeds = [] := by
  simp only [Settings.start, Option.bind_eq_bind, Option.bind_eq_some_iff, Node.setMaxMembers,
    Option.some.injEq] at h
  obtain ⟨a, made, b, policed, members, _, rfl⟩ := h
  have none : a.seeds = [] := by
    unfold Node.new at made
    simp only [Option.bind_eq_bind, Option.ite_none_right_eq_some, Option.bind_eq_some_iff,
      Option.some.injEq] at made
    obtain ⟨_, _, _, limiter, _, rfl⟩ := made
    rfl
  rw [Node.setQuorumMemory, Node.refreshCap_frame policed]
  exact none

theorem launch_follows {seed : UInt64} (h : s.launch peerId seed = some (names, node)) :
    Recalls peerId s [] names node := by
  simp only [Settings.launch, Option.bind_eq_bind, Option.bind_eq_some_iff, Option.some.injEq,
    Prod.mk.injEq] at h
  obtain ⟨a, started, ⟨names', b⟩, given, c, expecting, rfl, rfl⟩ := h
  have none := start_seeds started
  have seeds : c.seeds = b.seeds := by
    split at expecting
    · rw [← Option.some.inj expecting]
    · exact (Node.expectPeers_some expecting).2
  have empty : a.Lists fun _ => False := by
    unfold Node.Lists
    rw [none]
    simp
  have nowhere : a.SeedsFrom peerId (Mentioned s []) := by
    unfold Node.SeedsFrom
    rw [none]
    simp
  obtain ⟨same, kept, listed, from'⟩ := keepSeeds_spec given empty nowhere fun address mem => .inl mem
  have kept (id : PeerId) : id ∈ names'.kept ↔
      id ≠ peerId s.advertise ∧ ∃ address ∈ s.seeds, peerId address = id := by
    exact (kept id).trans (or_iff_right ExtTreeSet.not_mem_empty)
  refine Recalls.same ?_ seeds
  constructor
  case localId => rw [same]; rfl
  case kept => exact kept
  case short => rw [same]; exact Nat.zero_le _
  case last => intro name; rw [same]; rfl
  case holds =>
    refine ⟨fun id => ?_, listed.congr fun id => ?_⟩
    · rw [same]
      simp [Names.new, Names.Wanted, ExtTreeSet.not_mem_empty]
    · have unadded : id ∉ names'.added := by
        rw [same]
        exact ExtTreeSet.not_mem_empty
      rw [kept, false_or, or_iff_left unadded]
      rfl
  case seeds => exact from'
  case alone => rw [same]; rfl

/- An address a node is to join through: given to it, or in the last answer of a name. -/
def Current (s : Settings) (rounds : List Found) (address : Address) : Prop :=
  address ∈ s.seeds ∨ ∃ name < s.names.length, address ∈ lastAnswer rounds name

theorem current_mentioned {address : Address} (current : Current s rounds address) :
    Mentioned s rounds address := by
  rcases current with given | ⟨name, _, there⟩
  · exact .inl given
  · exact .inr (mem_lastAnswer there)

/- The IDs a node lists are those of the addresses it is to join through, its own apart. -/
theorem Recalls.mem_ids (recalls : Recalls peerId s rounds names node) (id : PeerId) :
    id ∈ node.seeds.map (·.1) ↔
      id ≠ peerId s.advertise ∧ ∃ address, Current s rounds address ∧ peerId address = id := by
  have answers (address : Address) : address ∈ names.last.flatten ↔
      ∃ name < s.names.length, address ∈ lastAnswer rounds name := by
    rw [mem_flatten_getD]
    constructor
    · rintro ⟨name, within, there⟩
      exact ⟨name, within.trans_le recalls.short, recalls.last name ▸ there⟩
    · rintro ⟨name, _, there⟩
      rw [← recalls.last] at there
      refine ⟨name, ?_, there⟩
      by_contra past
      rw [List.getElem?_eq_none (Nat.not_lt.mp past), Option.getD_none] at there
      exact absurd there List.not_mem_nil
  have listed : id ∈ node.seeds.map (·.1) ↔ id ∈ names.kept ∨ id ∈ names.added :=
    recalls.holds.lists.2 id
  rw [listed, recalls.holds.added, Names.Wanted, recalls.localId, recalls.kept]
  simp only [answers, Current]
  constructor
  · rintro (⟨other, address, given, same⟩ | ⟨other, _, address, there, same⟩)
    · exact ⟨other, address, .inl given, same⟩
    · exact ⟨other, address, .inr there, same⟩
  · rintro ⟨other, address, given | there, same⟩
    · exact .inl ⟨other, address, given, same⟩
    · by_cases kept : ∃ address ∈ s.seeds, peerId address = id
      · exact .inl ⟨other, kept⟩
      · exact .inr ⟨other, fun both => kept both.2, address, there, same⟩

end

/-- However the lookups of a node's names went, and whatever else it did between them, its seeds are
    those given to it and those of each name's last answer, without its own, each listed once; and a
    round has it stop expecting peers exactly if it is the third in a row to find only itself. Two
    addresses of one ID count as one. -/
theorem seeds_follow_names (peerId : Address → PeerId) (s : Settings) (seed : UInt64)
    (decay : Nat → Nat → ℚ) (start : Names × Node) (launched : s.launch peerId seed = some start)
    (turns : List Turn) (proper : ∀ turn ∈ turns, turn.Proper s.names.length) (names : Names)
    (node : Node) (ran : turns.foldlM (Turn.take decay peerId) start = some (names, node)) :
    (node.seeds.map (·.1)).Nodup ∧
      (∀ id, id ∈ node.seeds.map (·.1) ↔ id ≠ peerId s.advertise ∧
        ∃ address, Current s (Turn.rounds turns) address ∧ peerId address = id) ∧
      (Set.InjOn peerId {address | address = s.advertise ∨ Mentioned s (Turn.rounds turns) address} →
        ∀ seed, seed ∈ node.seeds ↔ seed.1 = peerId seed.2 ∧ seed.2 ≠ s.advertise ∧
          Current s (Turn.rounds turns) seed.2) ∧
      ∀ found : Found, found.length = s.names.length → ∀ names' node',
        names.update peerId node found = some (names', node') →
        node'.expectsPeers = (node.expectsPeers && !decide
          (aloneRounds peerId (peerId s.advertise) (Turn.rounds turns ++ [found]) = 3)) := by
  obtain ⟨names₀, node₀⟩ := start
  have recalls : Recalls peerId s (Turn.rounds turns) names node :=
    (launch_follows launched).turns proper ran
  refine ⟨recalls.holds.lists.1, recalls.mem_ids, ?_, fun found complete names' node' updated =>
    (recalls.round complete updated).2⟩
  intro distinct seed
  constructor
  · intro mem
    obtain ⟨own, told⟩ := recalls.seeds seed mem
    obtain ⟨other, address, current, same⟩ :=
      (recalls.mem_ids seed.1).mp (List.mem_map.mpr ⟨seed, mem, rfl⟩)
    have one : address = seed.2 :=
      distinct (.inr (current_mentioned current)) (.inr told) (same.trans own)
    refine ⟨own, ?_, one ▸ current⟩
    rintro advertised
    exact other (own.trans (congrArg peerId advertised))
  · rintro ⟨own, other, current⟩
    have apart : seed.1 ≠ peerId s.advertise := by
      intro same
      exact other (distinct (.inr (current_mentioned current)) (.inl rfl) (own.symm.trans same))
    obtain ⟨listed, mem, same⟩ :=
      List.mem_map.mp ((recalls.mem_ids seed.1).mpr ⟨apart, seed.2, current, own.symm⟩)
    obtain ⟨ownListed, told⟩ := recalls.seeds listed mem
    have one : listed.2 = seed.2 := distinct (.inr told) (.inr (current_mentioned current))
      (ownListed.symm.trans (same.trans own))
    rwa [← Prod.ext same one]

def sampleId (address : Address) : PeerId :=
  if address = sampleAddress 1 then 0xaa89e8d5525abd11
  else if address = sampleAddress 2 then 0x61be59e7431cd22b
  else if address = sampleAddress 3 then 0x2750412fc0f6c378
  else if address = sampleAddress 4 then 0x9ff580392de301ff
  else if address = sampleAddress 9 then 0x88ead6c1bf0e355f
  else 0

def parseTen (text : String) : Option Address :=
  if text = "10.0.0.1:7946" then some (sampleAddress 1)
  else if text = "10.0.0.9:7946" then some (sampleAddress 9)
  else none

/- Two names: one comes to this node too, then changes, and the other's lookup fails. -/
def lookupTurns : List Turn :=
  [.lookedUp [some [sampleAddress 1, sampleAddress 2], some [sampleAddress 3]],
   .other (.handle .tick 0), .lookedUp [some [sampleAddress 4], none]]

def lookupRun : Option (Settings × (Names × Node) × Names × Node) := do
  let builder : Builder := { Builder.new with
    bind := some "10.0.0.1:7946", limit := some (.new 100 .second)
    seeds := ["10.0.0.9:7946", "fleet.svc:7946", "db.svc:7946"] }
  let s ← (builder.settings parseTen fun _ => 0).toOption
  let start ← s.launch sampleId 7
  let (names, node) ← lookupTurns.foldlM (Turn.take sampleDecay sampleId) start
  some (s, start, names, node)

theorem lookupRun_seeds : (lookupRun.any fun (s, _, _, node) =>
    decide (s.names.length = 2 ∧ node.seeds.map (·.2) =
      [sampleAddress 9, sampleAddress 3, sampleAddress 4])) = true := by
  decide +kernel

theorem seeds_follow_names_overlap : ∃ s start names node,
    lookupRun = some (s, start, names, node) ∧
      node.seeds.map (·.2) = [sampleAddress 9, sampleAddress 3, sampleAddress 4] ∧
      (node.seeds.map (·.1)).Nodup ∧ ∀ id, id ∈ node.seeds.map (·.1) ↔
        id ≠ sampleId s.advertise ∧
          ∃ address, Current s (Turn.rounds lookupTurns) address ∧ sampleId address = id := by
  obtain ⟨⟨s, start, names, node⟩, ran, checked⟩ := (Option.any_eq_true _ _).mp lookupRun_seeds
  obtain ⟨two, seeds⟩ := decide_eq_true_eq.mp checked
  have same := ran
  simp only [lookupRun, Option.bind_eq_bind, Option.bind_eq_some_iff, Option.some.injEq,
    Prod.mk.injEq] at ran
  obtain ⟨s', _, start', launched, ⟨names', node'⟩, turned, rfl, rfl, rfl, rfl⟩ := ran
  have proper : ∀ turn ∈ lookupTurns, turn.Proper s'.names.length := by
    rw [two]
    simp [lookupTurns, Turn.Proper]
  obtain ⟨once, ids, _⟩ := seeds_follow_names sampleId s' 7 sampleDecay start' launched lookupTurns
    proper names' node' turned
  exact ⟨s', start', names', node', same, seeds, once, ids⟩

end Rateguard
