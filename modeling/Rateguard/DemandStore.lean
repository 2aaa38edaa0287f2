import Rateguard.PeerDemand
import Rateguard.Least
import Mathlib.Data.Prod.Lex

/- What each operation of the store of peer demand does to what is looked up in it. -/
namespace Rateguard
open Std (ExtTreeMap)

/- Floats compare as their places do; what is not a number is below and above nothing. -/

def F32.IsNumber (x : F32) : Prop := x.order.isSome

instance (x : F32) : Decidable x.IsNumber := inferInstanceAs (Decidable (x.order.isSome = true))

theorem F32.lt_iff {x y : F32} :
    x.lt y = true ↔ ∃ i j, x.order = some i ∧ y.order = some j ∧ i < j := by
  unfold lt
  split
  · rename_i i j left right
    simp [left, right]
  · rename_i noOrder
    constructor
    · intro h
      simp at h
    · rintro ⟨i, j, left, right, _⟩
      exact absurd right (noOrder i j left)

theorem F32.not_lt_self (x : F32) : ¬ x.lt x = true := by
  intro less
  obtain ⟨i, j, left, right, lower⟩ := F32.lt_iff.mp less
  rw [left, Option.some.injEq] at right
  omega

theorem F32.not_lt_of_lt {x y : F32} (less : x.lt y = true) : ¬ y.lt x = true := by
  intro more
  obtain ⟨i, j, left, right, lower⟩ := F32.lt_iff.mp less
  obtain ⟨k, l, left', right', upper⟩ := F32.lt_iff.mp more
  rw [right, Option.some.injEq] at left'
  rw [left, Option.some.injEq] at right'
  omega

/- At least, through a number. -/
theorem F32.not_lt_trans {x y z : F32} (number : y.IsNumber) (upper : ¬ y.lt x = true)
    (lower : ¬ z.lt y = true) : ¬ z.lt x = true := by
  intro less
  obtain ⟨i, j, left, right, between⟩ := F32.lt_iff.mp less
  obtain ⟨k, middle⟩ := Option.isSome_iff_exists.mp number
  have first : ¬ k < j := fun h => upper (F32.lt_iff.mpr ⟨k, j, middle, right, h⟩)
  have second : ¬ i < k := fun h => lower (F32.lt_iff.mpr ⟨i, k, left, middle, h⟩)
  omega

theorem F32.same_self {x : F32} (number : x.IsNumber) : x.same x = true := by
  obtain ⟨i, order⟩ := Option.isSome_iff_exists.mp number
  simp [same, order]

/- A report's keys by their hash. -/

theorem keyMap_fold (keys : List KeyDemand) (said : ReportedKeys) (hash : UInt64) :
    (keys.foldl (fun said key => said.insert key.keyHash (key.demand, key.primary)) said)[hash]? =
      match keys.reverse.find? (·.keyHash = hash) with
      | some key => some (key.demand, key.primary)
      | none => said[hash]? := by
  induction keys generalizing said with
  | nil => rfl
  | cons key keys ih =>
    rw [List.foldl_cons, ih, List.reverse_cons, List.find?_append]
    cases found : keys.reverse.find? (·.keyHash = hash) with
    | some later => rfl
    | none =>
      rw [ExtTreeMap.getElem?_insert]
      by_cases same : key.keyHash = hash
      · simp [same]
      · simp [same, Std.LawfulEqCmp.compare_eq_iff_eq]

/- The word on a hash is that of the last of its keys. -/
theorem DemandReport.keyMap_get (report : DemandReport) (hash : UInt64) :
    report.keyMap[hash]? = (report.keys.reverse.find? (·.keyHash = hash)).map
      fun key => (key.demand, key.primary) := by
  unfold keyMap
  rw [keyMap_fold]
  cases report.keys.reverse.find? (·.keyHash = hash) <;> simp

theorem DemandReport.keyMap_said {report : DemandReport} {hash : UInt64} {demand : F32}
    {primary : Bool} (h : report.keyMap[hash]? = some (demand, primary)) :
    ∃ key ∈ report.keys, key.keyHash = hash ∧ key.demand = demand ∧ key.primary = primary := by
  rw [keyMap_get, Option.map_eq_some_iff] at h
  obtain ⟨key, found, words⟩ := h
  have mem := List.mem_reverse.mp (List.mem_of_find?_eq_some found)
  have named := List.find?_some found
  simp only [Prod.mk.injEq] at words
  exact ⟨key, mem, by simpa using named, words.1, words.2⟩

/- As a report decoded from the wire always is. -/
def DemandReport.Numbers (report : DemandReport) : Prop :=
  ∀ key ∈ report.keys, key.demand.IsNumber

instance (report : DemandReport) : Decidable report.Numbers :=
  inferInstanceAs (Decidable (∀ key ∈ report.keys, key.demand.IsNumber))

theorem DemandReport.keyMap_number {report : DemandReport} (numbers : report.Numbers)
    {hash : UInt64} {word : F32 × Bool} (h : report.keyMap[hash]? = some word) :
    word.1.IsNumber := by
  obtain ⟨key, mem, _, demand, _⟩ := keyMap_said h
  exact demand ▸ numbers key mem

/- Where no hash is repeated, each key of the report is the word on its hash. -/
theorem DemandReport.keyMap_of_mem {report : DemandReport} {key : KeyDemand}
    (distinct : (report.keys.map (·.keyHash)).Nodup) (mem : key ∈ report.keys) :
    report.keyMap[key.keyHash]? = some (key.demand, key.primary) := by
  cases word : report.keyMap[key.keyHash]? with
  | none =>
    rw [keyMap_get, Option.map_eq_none_iff, List.find?_eq_none] at word
    exact absurd (by simp) (word key (List.mem_reverse.mpr mem))
  | some said =>
    obtain ⟨other, otherMem, hash, demand, primary⟩ := keyMap_said word
    have same := List.inj_on_of_nodup_map distinct otherMem mem hash
    rw [same] at demand primary
    rw [demand, primary]

/- The table of contested keys, before the oldest go. -/

def mergeKeys (contested : ExtTreeMap UInt64 Contested) (keys : ReportedKeys) (round : UInt16)
    (heardAt : Nat) : ExtTreeMap UInt64 Contested :=
  keys.toList.foldl (fun contested (key, demand, primary) =>
    match contested[key]? with
    | some entry => contested.insert key (entry.merge demand primary round heardAt)
    | none => contested.insert key ⟨demand, primary, round, heardAt⟩) contested

theorem Peer.contest_eq (peer : Peer) (keys : ReportedKeys) (round : UInt16) (heardAt : Nat) :
    peer.contest keys round heardAt =
      (dropOldest ((mergeKeys peer.contested keys round heardAt).size - maxContested)
        (mergeKeys peer.contested keys round heardAt)).map
          fun contested => { peer with contested } := by
  simp only [contest, mergeKeys, Option.map_eq_bind]
  rfl

/- What a key contested with these words becomes. -/
def absorb (entry : Option Contested) (demand : F32) (primary : Bool) (round : UInt16)
    (heardAt : Nat) : Contested :=
  match entry with
  | some entry => entry.merge demand primary round heardAt
  | none => ⟨demand, primary, round, heardAt⟩

def mergeKey (round : UInt16) (heardAt : Nat) (contested : ExtTreeMap UInt64 Contested)
    (word : UInt64 × F32 × Bool) : ExtTreeMap UInt64 Contested :=
  contested.insert word.1 (absorb contested[word.1]? word.2.1 word.2.2 round heardAt)

theorem mergeKeys_eq (contested : ExtTreeMap UInt64 Contested) (keys : ReportedKeys)
    (round : UInt16) (heardAt : Nat) :
    mergeKeys contested keys round heardAt =
      keys.toList.foldl (mergeKey round heardAt) contested := by
  unfold mergeKeys
  congr 1
  funext contested word
  obtain ⟨key, demand, primary⟩ := word
  simp only [mergeKey]
  cases contested[key]? <;> rfl

theorem mergeKey_get (round : UInt16) (heardAt : Nat) (contested : ExtTreeMap UInt64 Contested)
    (word : UInt64 × F32 × Bool) (key : UInt64) :
    (mergeKey round heardAt contested word)[key]? =
      if word.1 = key then some (absorb contested[key]? word.2.1 word.2.2 round heardAt)
      else contested[key]? := by
  unfold mergeKey
  rw [ExtTreeMap.getElem?_insert]
  by_cases same : word.1 = key
  · simp [same]
  · simp [same, Std.LawfulEqCmp.compare_eq_iff_eq]

/- Words about other keys leave the key alone. -/
theorem mergeFold_other (round : UInt16) (heardAt : Nat) (words : List (UInt64 × F32 × Bool))
    (contested : ExtTreeMap UInt64 Contested) (key : UInt64)
    (other : ∀ word ∈ words, word.1 ≠ key) :
    (words.foldl (mergeKey round heardAt) contested)[key]? = contested[key]? := by
  induction words generalizing contested with
  | nil => rfl
  | cons word words ih =>
    have rest := ih (mergeKey round heardAt contested word)
      fun later mem => other later (List.mem_cons_of_mem _ mem)
    rw [List.foldl_cons, rest, mergeKey_get, if_neg (other word List.mem_cons_self)]

theorem mergeFold_get (round : UInt16) (heardAt : Nat) {words : List (UInt64 × F32 × Bool)}
    (contested : ExtTreeMap UInt64 Contested) {key : UInt64} {demand : F32} {primary : Bool}
    (distinct : (words.map Prod.fst).Nodup) (mem : (key, demand, primary) ∈ words) :
    (words.foldl (mergeKey round heardAt) contested)[key]? =
      some (absorb contested[key]? demand primary round heardAt) := by
  induction words generalizing contested with
  | nil => simp at mem
  | cons word words ih =>
    obtain ⟨absent, rest⟩ := List.nodup_cons.mp distinct
    rw [List.foldl_cons]
    rcases List.mem_cons.mp mem with rfl | mem
    · have other : ∀ word ∈ words, word.1 ≠ key := by
        intro word mem same
        exact absent (List.mem_map.mpr ⟨word, mem, same⟩)
      rw [mergeFold_other round heardAt words _ key other, mergeKey_get, if_pos rfl]
    · have differs : word.1 ≠ key := by
        intro same
        exact absent (List.mem_map.mpr ⟨_, mem, same.symm⟩)
      rw [ih _ rest mem, mergeKey_get, if_neg differs]

theorem ReportedKeys.distinct (keys : ReportedKeys) : (keys.toList.map Prod.fst).Nodup := by
  rw [List.nodup_iff_pairwise_ne, List.pairwise_map]
  refine keys.distinct_keys_toList.imp ?_
  intro a b differ same
  exact differ (by rw [same]; exact Std.ReflCmp.compare_self)

theorem mergeKeys_get (contested : ExtTreeMap UInt64 Contested) (keys : ReportedKeys)
    (round : UInt16) (heardAt : Nat) (key : UInt64) :
    (mergeKeys contested keys round heardAt)[key]? =
      match keys[key]? with
      | some (demand, primary) => some (absorb contested[key]? demand primary round heardAt)
      | none => contested[key]? := by
  rw [mergeKeys_eq]
  cases word : keys[key]? with
  | some said =>
    exact mergeFold_get round heardAt contested (ReportedKeys.distinct keys)
      (ExtTreeMap.mem_toList_iff_getElem?_eq_some.mpr word)
  | none =>
    refine mergeFold_other round heardAt _ contested key ?_
    intro said mem same
    rw [ExtTreeMap.mem_toList_iff_getElem?_eq_some, same, word] at mem
    simp at mem

/- The order the oldest go in. -/
def Contested.turn (entry : UInt64 × Contested) : ℕ ×ₗ ℕ := toLex (entry.2.heardAt, entry.1.toNat)

theorem heardEarlier_iff (a b : UInt64 × Contested) :
    heardEarlier a b = true ↔ Contested.turn a < Contested.turn b := by
  simp only [heardEarlier, Contested.turn, Prod.Lex.toLex_lt_toLex, Bool.or_eq_true,
    Bool.and_eq_true, decide_eq_true_eq, UInt64.lt_iff_toNat_lt]

theorem oldestContested_spec {contested : ExtTreeMap UInt64 Contested} {oldest : UInt64}
    (h : oldestContested contested = some oldest) : ∃ entry, contested[oldest]? = some entry ∧
      ∀ key other, contested[key]? = some other →
        Contested.turn (oldest, entry) ≤ Contested.turn (key, other) := by
  unfold oldestContested at h
  split at h
  · simp at h
  · rename_i first rest entries
    rw [Option.some.injEq] at h
    set found := LeastOfList.least heardEarlier first rest with least
    have mem : found ∈ contested.toList := entries ▸ LeastOfList.least_mem heardEarlier first rest
    have named : found.1 = oldest := h
    have entry : (oldest, found.2) = found := by rw [← named]
    refine ⟨found.2, ?_, ?_⟩
    · rw [← ExtTreeMap.mem_toList_iff_getElem?_eq_some, entry]
      exact mem
    · intro key other present
      have listed := ExtTreeMap.mem_toList_iff_getElem?_eq_some.mpr present
      rw [entry]
      exact LeastOfList.least_le heardEarlier_iff first rest (key, other) (entries ▸ listed)

theorem oldestContested_isSome {contested : ExtTreeMap UInt64 Contested}
    (nonempty : contested.size ≠ 0) : ∃ oldest, oldestContested contested = some oldest := by
  unfold oldestContested
  split
  · rename_i entries
    rw [← ExtTreeMap.length_toList, entries] at nonempty
    exact absurd rfl nonempty
  · exact ⟨_, rfl⟩

/- The expect in the loop never fails: there are at least as many entries as go. -/
theorem dropOldest_isSome {n : Nat} {contested : ExtTreeMap UInt64 Contested}
    (enough : n ≤ contested.size) : ∃ left, dropOldest n contested = some left := by
  induction n generalizing contested with
  | zero => exact ⟨contested, rfl⟩
  | succ n ih =>
    obtain ⟨oldest, found⟩ := @oldestContested_isSome contested (by omega)
    have less := ExtTreeMap.size_le_size_erase (t := contested) (k := oldest)
    obtain ⟨left, h⟩ := @ih (contested.erase oldest) (by omega)
    exact ⟨left, by simp only [dropOldest, found, Option.bind_eq_bind, Option.bind_some, h]⟩

theorem dropOldest_sub {n : Nat} {contested left : ExtTreeMap UInt64 Contested}
    (h : dropOldest n contested = some left) {key : UInt64} {entry : Contested}
    (kept : left[key]? = some entry) : contested[key]? = some entry := by
  induction n generalizing contested with
  | zero =>
    simp only [dropOldest, Option.some.injEq] at h
    rw [h, kept]
  | succ n ih =>
    simp only [dropOldest, bind, Option.bind_eq_some_iff] at h
    obtain ⟨oldest, _, h⟩ := h
    have still := ih h
    rw [ExtTreeMap.getElem?_erase] at still
    split at still
    · simp at still
    · exact still

/- An entry stays while every other that is not heard before it is among fewer rivals than
   the cap. -/
theorem dropOldest_spares {n : Nat} {contested left : ExtTreeMap UInt64 Contested}
    (h : dropOldest n contested = some left) (excess : n ≤ contested.size - maxContested)
    {key : UInt64} {entry : Contested} (present : contested[key]? = some entry)
    {rivals : Finset UInt64} (few : rivals.card < maxContested)
    (earlier : ∀ other word, contested[other]? = some word → other ≠ key → other ∉ rivals →
      Contested.turn (other, word) < Contested.turn (key, entry)) :
    left[key]? = some entry := by
  induction n generalizing contested with
  | zero =>
    simp only [dropOldest, Option.some.injEq] at h
    rw [← h, present]
  | succ n ih =>
    simp only [dropOldest, bind, Option.bind_eq_some_iff] at h
    obtain ⟨oldest, found, h⟩ := h
    obtain ⟨first, firstEntry, least⟩ := oldestContested_spec found
    have differs : oldest ≠ key := by
      intro same
      subst same
      rw [firstEntry, Option.some.injEq] at present
      -- then all the others are rivals, and the table was within the cap
      have all : contested.keys.toFinset ⊆ insert oldest rivals := by
        intro other mem
        rw [List.mem_toFinset, ExtTreeMap.mem_keys, ExtTreeMap.mem_iff_isSome_getElem?] at mem
        obtain ⟨word, there⟩ := Option.isSome_iff_exists.mp mem
        by_contra outside
        rw [Finset.mem_insert, not_or] at outside
        have below := earlier other word there outside.1 outside.2
        rw [← present] at below
        exact absurd (least other word there) (not_le.mpr below)
      have card := Finset.card_le_card all
      have size : contested.keys.toFinset.card = contested.size := by
        have nodup := contested.nodup_keys
        rw [List.toFinset_card_of_nodup nodup, ExtTreeMap.length_keys]
      have bound := Finset.card_insert_le oldest rivals
      omega
    have mem : oldest ∈ contested :=
      ExtTreeMap.mem_iff_isSome_getElem?.mpr (by rw [firstEntry]; rfl)
    have size : (contested.erase oldest).size = contested.size - 1 := by
      rw [ExtTreeMap.size_erase, if_pos (ExtTreeMap.mem_iff_contains.mp mem)]
    refine ih h (by omega) ?_ ?_
    · rw [ExtTreeMap.getElem?_erase, if_neg, present]
      simpa only [Std.LawfulEqCmp.compare_eq_iff_eq] using differs
    · intro other word there
      rw [ExtTreeMap.getElem?_erase] at there
      split at there
      · simp at there
      · exact earlier other word there

/- Contesting never fails, and changes nothing but the contested keys. -/
theorem Peer.contest_isSome (peer : Peer) (keys : ReportedKeys) (round : UInt16)
    (heardAt : Nat) : ∃ peer', peer.contest keys round heardAt = some peer' := by
  obtain ⟨left, h⟩ := @dropOldest_isSome
    ((mergeKeys peer.contested keys round heardAt).size - maxContested)
    (mergeKeys peer.contested keys round heardAt) (Nat.sub_le _ _)
  exact ⟨_, by rw [contest_eq, h, Option.map_some]⟩

theorem Peer.contest_some {peer peer' : Peer} {keys : ReportedKeys} {round : UInt16}
    {heardAt : Nat} (h : peer.contest keys round heardAt = some peer') :
    ∃ left, dropOldest ((mergeKeys peer.contested keys round heardAt).size - maxContested)
      (mergeKeys peer.contested keys round heardAt) = some left ∧
      peer' = { peer with contested := left } := by
  rw [contest_eq, Option.map_eq_some_iff] at h
  obtain ⟨left, dropped, rfl⟩ := h
  exact ⟨left, dropped, rfl⟩

/- Every contested entry afterwards was there before or was merged. -/
theorem Peer.contest_entry {peer peer' : Peer} {keys : ReportedKeys} {round : UInt16}
    {heardAt : Nat} (h : peer.contest keys round heardAt = some peer') {key : UInt64}
    {entry : Contested} (kept : peer'.contested[key]? = some entry) :
    (keys[key]? = none ∧ peer.contested[key]? = some entry) ∨
      ∃ demand primary, keys[key]? = some (demand, primary) ∧
        entry = absorb peer.contested[key]? demand primary round heardAt := by
  obtain ⟨left, dropped, rfl⟩ := contest_some h
  have merged := dropOldest_sub dropped kept
  rw [mergeKeys_get] at merged
  cases word : keys[key]? with
  | none =>
    rw [word] at merged
    exact .inl ⟨rfl, merged⟩
  | some said =>
    simp only [word, Option.some.injEq] at merged
    exact .inr ⟨said.1, said.2, rfl, merged.symm⟩

inductive Peer.Takes (peer : Peer) (report : DemandReport) (now : Nat) : Peer → Prop
  | first (none : peer.snapshot = none) :
    Takes peer report now { peer with
      snapshot := some ⟨report.epoch, [], report.round, now, report.keyMap⟩, heldUntil := .none }
  | duplicate {old : Snapshot} (snapshot : peer.snapshot = some old)
    (epoch : old.epoch = report.epoch) (round : old.round = report.round)
    (keys : sameKeys old.keys report.keyMap = true) : Takes peer report now peer
  | contested {old : Snapshot} {peer' : Peer} (snapshot : peer.snapshot = some old)
    (refused : report.epoch ∈ old.pastEpochs ∨
      old.epoch = report.epoch ∧ roundIsNewer report.round old.round = false)
    (differs : ¬ (old.epoch = report.epoch ∧ old.round = report.round ∧
      sameKeys old.keys report.keyMap = true))
    (contest : peer.contest report.keyMap report.round now = some peer') :
    Takes peer report now peer'
  | newer {old : Snapshot} (snapshot : peer.snapshot = some old)
    (epoch : old.epoch = report.epoch) (fresh : report.epoch ∉ old.pastEpochs)
    (later : roundIsNewer report.round old.round = true)
    (near : (report.round - old.round).toNat < implausibleJump) :
    Takes peer report now { peer with
      snapshot := some ⟨report.epoch, old.pastEpochs, report.round, now, report.keyMap⟩,
      heldUntil := none }
  | replaced {old : Snapshot} {peer' : Peer} (pastEpochs : List UInt32)
    (snapshot : peer.snapshot = some old) (fresh : report.epoch ∉ old.pastEpochs)
    (jump : old.epoch ≠ report.epoch ∨ roundIsNewer report.round old.round = true ∧
      implausibleJump ≤ (report.round - old.round).toNat)
    (past : pastEpochs = if old.epoch = report.epoch then old.pastEpochs
      else old.epoch :: old.pastEpochs.take (pastEpochsKept - 1))
    (contest : ({ peer with
      snapshot := some ⟨report.epoch, pastEpochs, report.round, now, report.keyMap⟩ } : Peer).contest
        old.keys old.round old.heardAt = some peer') :
    Takes peer report now { peer' with heldUntil := none }

/-- The one spec of apply: a report of someone else is ignored, one's own is taken in. -/
theorem PeerDemand.apply_takes {d d' : PeerDemand} {sender : PeerId} {report : DemandReport}
    {now : Nat} (h : d.apply sender report now = some d') (own : report.origin = sender) :
    ∃ peer', Peer.Takes (d.peers[sender]?.getD Peer.default) report now peer' ∧
      d' = ⟨d.peers.insert sender peer'⟩ := by
  unfold apply at h
  rw [if_neg (not_not.mpr own)] at h
  set peer := d.peers[sender]?.getD Peer.default
  cases snapshot : peer.snapshot with
  | none =>
    simp only [snapshot, Option.some.injEq] at h
    exact ⟨_, .first snapshot, h.symm⟩
  | some old =>
    simp only [snapshot] at h
    split at h
    · rename_i notTaken
      have refused : report.epoch ∈ old.pastEpochs ∨
          old.epoch = report.epoch ∧ roundIsNewer report.round old.round = false := by
        simp only [Bool.not_and, Bool.not_not, Bool.not_or, Bool.or_eq_true, Bool.and_eq_true,
          List.contains_iff_mem, decide_eq_true_eq, Bool.not_eq_true'] at notTaken
        exact notTaken
      split at h
      · rename_i same
        simp only [Bool.and_eq_true, decide_eq_true_eq, beq_iff_eq] at same
        rw [Option.some.injEq] at h
        exact ⟨peer, .duplicate snapshot same.1.1 same.1.2 same.2, h.symm⟩
      · rename_i differs
        simp only [Bool.and_eq_true, decide_eq_true_eq, beq_iff_eq, and_assoc] at differs
        rw [Option.map_eq_some_iff] at h
        obtain ⟨peer', contest, rfl⟩ := h
        exact ⟨peer', .contested snapshot refused differs contest, rfl⟩
    · rename_i taken
      simp only [Bool.not_and, Bool.not_not, Bool.not_or, Bool.or_eq_true, Bool.and_eq_true,
        List.contains_iff_mem, decide_eq_true_eq, Bool.not_eq_true', not_or, not_and] at taken
      obtain ⟨fresh, newer⟩ := taken
      rw [Option.map_eq_some_iff] at h
      obtain ⟨peer', kept, rfl⟩ := h
      by_cases epoch : old.epoch = report.epoch
      · have later : roundIsNewer report.round old.round = true := by
          simpa using newer epoch
        simp only [epoch, decide_true, ↓reduceIte, decide_eq_true_eq] at kept
        split at kept
        · rename_i jump
          refine ⟨_, .replaced _ snapshot fresh (.inr ⟨later, jump⟩) rfl ?_, rfl⟩
          simpa only [epoch, ↓reduceIte] using kept
        · rename_i near
          rw [Option.some.injEq] at kept
          subst kept
          exact ⟨_, .newer snapshot epoch fresh later (not_le.mp near), rfl⟩
      · simp only [epoch, decide_false, Bool.false_eq_true, ↓reduceIte] at kept
        refine ⟨_, .replaced _ snapshot fresh (.inl epoch) rfl ?_, rfl⟩
        simpa only [epoch, ↓reduceIte] using kept

theorem PeerDemand.apply_other {d d' : PeerDemand} {sender : PeerId} {report : DemandReport}
    {now : Nat} (h : d.apply sender report now = some d') (other : report.origin ≠ sender) :
    d' = d := by
  unfold apply at h
  rw [if_pos other, Option.some.injEq] at h
  exact h.symm

theorem exists_map {α β : Type} {x : Option α} {f : α → β} (h : ∃ a, x = some a) :
    ∃ b, x.map f = some b := by
  obtain ⟨a, rfl⟩ := h
  exact ⟨f a, rfl⟩

theorem exists_ite {α : Type} {c : Prop} [Decidable c] {x y : Option α} (left : ∃ a, x = some a)
    (right : ∃ a, y = some a) : ∃ a, (if c then x else y) = some a := by
  split
  · exact left
  · exact right

theorem PeerDemand.apply_isSome (d : PeerDemand) (sender : PeerId) (report : DemandReport)
    (now : Nat) : ∃ d', d.apply sender report now = some d' := by
  unfold apply
  dsimp only
  split
  · exact ⟨_, rfl⟩
  · split
    · exact ⟨_, rfl⟩
    · split
      · split
        · exact ⟨_, rfl⟩
        · obtain ⟨_, h⟩ := Peer.contest_isSome (d.peers[sender]?.getD Peer.default) report.keyMap
            report.round now
          exact ⟨_, by rw [h, Option.map_some]⟩
      · rename_i old snapshot taken
        exact exists_map (exists_ite (Peer.contest_isSome _ _ _ _) ⟨_, rfl⟩)

/- What is looked up for a peer after each operation. -/

theorem PeerDemand.expire_get (d : PeerDemand) (now maxAge : Nat) (peer : PeerId) :
    (d.expire now maxAge).peers[peer]? = d.peers[peer]?.bind (·.expire now maxAge) := by
  unfold expire
  rw [ExtTreeMap.getElem?_filterMap']

theorem PeerDemand.insert_get (peers : ExtTreeMap PeerId Peer) (sender peer : PeerId)
    (record : Peer) :
    (peers.insert sender record)[peer]? = if sender = peer then some record else peers[peer]? := by
  rw [ExtTreeMap.getElem?_insert]
  simp only [Std.LawfulEqCmp.compare_eq_iff_eq]

/- What survives expiring: all of a held peer, else what is still fresh. -/
theorem Peer.expire_some {peer peer' : Peer} {now maxAge : Nat}
    (h : peer.expire now maxAge = some peer') :
    (∃ til, peer.heldUntil = some til ∧ now < til ∧ peer' = peer) ∨
      peer.heldUntil = none ∧ peer'.heldUntil = none ∧
        peer'.snapshot = peer.snapshot.filter (fun snapshot => now < satAdd snapshot.heardAt maxAge) ∧
        ∀ key : UInt64, peer'.contested[key]? =
          peer.contested[key]?.filter fun entry => now < satAdd entry.heardAt maxAge := by
  unfold expire at h
  split at h
  · rename_i til held
    split at h
    · rename_i before
      rw [Option.some.injEq] at h
      exact .inl ⟨til, held, before, h.symm⟩
    · simp at h
  · rename_i held
    dsimp only at h
    split at h
    · rw [Option.some.injEq] at h
      subst h
      refine .inr ⟨held, held, rfl, fun key => ?_⟩
      rw [ExtTreeMap.getElem?_filter']
    · simp at h

/- A peer that is not held goes only once all it said is stale. -/
theorem Peer.expire_none {peer : Peer} {now maxAge : Nat} (held : peer.heldUntil = none)
    (h : peer.expire now maxAge = none) :
    (∀ snapshot, peer.snapshot = some snapshot → ¬ now < satAdd snapshot.heardAt maxAge) ∧
      ∀ (key : UInt64) (entry : Contested), peer.contested[key]? = some entry →
        ¬ now < satAdd entry.heardAt maxAge := by
  simp only [expire, held, ite_eq_right_iff, reduceCtorEq, imp_false, Bool.or_eq_true, not_or,
    Bool.not_eq_true, Option.isSome_eq_false_iff, Option.isNone_iff_eq_none, Bool.not_eq_true'] at h
  obtain ⟨noSnapshot, noneLeft⟩ := h
  constructor
  · intro snapshot taken fresh
    simp [taken, Option.filter_some, fresh] at noSnapshot
  · intro key entry present fresh
    have left : (peer.contested.filter fun _ entry =>
        decide (now < satAdd entry.heardAt maxAge))[key]? = some entry := by
      rw [ExtTreeMap.getElem?_filter', present, Option.filter_some, decide_eq_true fresh,
        if_pos rfl]
    rw [ExtTreeMap.isEmpty_iff.mp (eq_true_of_ne_false noneLeft)] at left
    simp at left

/- Where nothing is stale, nothing goes. -/
theorem Peer.expire_fresh {peer : Peer} {now maxAge : Nat} {snapshot : Snapshot}
    (taken : peer.snapshot = some snapshot) (held : peer.heldUntil = none)
    (fresh : now < satAdd snapshot.heardAt maxAge)
    (contested : ∀ (key : UInt64) (entry : Contested), peer.contested[key]? = some entry →
      now < satAdd entry.heardAt maxAge) : peer.expire now maxAge = some peer := by
  have all : peer.contested.filter (fun _ entry => decide (now < satAdd entry.heardAt maxAge)) =
      peer.contested := by
    refine ExtTreeMap.ext_getElem? fun key => ?_
    rw [ExtTreeMap.getElem?_filter']
    cases entry : peer.contested[key]? with
    | none => rfl
    | some entry' =>
      have := contested key entry' entry
      simp [this]
  simp only [expire, held, taken, all, Option.filter_some, fresh, decide_true, ↓reduceIte,
    Option.isSome_some, Bool.true_or]
  rw [← taken, ← held]

/- What the store says of a key: the word of the snapshot and the contested one, joined. -/

abbrev Word := F32 × Bool

def Heard.word (heard : Heard) : Word := (heard.demand, heard.primary)

def Peer.taken (peer : Peer) (key : UInt64) : Option Word :=
  peer.snapshot.bind fun snapshot => snapshot.keys[key]?

def Peer.disputed (peer : Peer) (key : UInt64) : Option Word :=
  peer.contested[key]?.map fun entry => (entry.demand, entry.primary)

def joined : Option Word → Option Word → Option Word
  | some taken, some disputed =>
    some (if taken.1.lt disputed.1 then disputed.1 else taken.1, taken.2 || disputed.2)
  | some taken, none => some taken
  | none, disputed => disputed

theorem Peer.heard_word (peer : Peer) (key : UInt64) :
    (peer.heard key).map Heard.word = joined (peer.taken key) (peer.disputed key) := by
  unfold Peer.heard taken disputed
  cases peer.snapshot with
  | none => cases peer.contested[key]? <;> rfl
  | some snapshot =>
    cases word : snapshot.keys[key]? with
    | none =>
      simp only [Option.bind_some, word]
      cases peer.contested[key]? <;> rfl
    | some said =>
      simp only [Option.bind_some, word]
      cases peer.contested[key]? with
      | none => rfl
      | some entry =>
        simp only [Option.map_some, joined, Heard.word]
        split <;> rfl

/- A joined demand was said by one of the two, and so was a primary mark. -/
theorem joined_demand {taken disputed : Option Word} {demand : F32} {primary : Bool}
    (h : joined taken disputed = some (demand, primary)) :
    (∃ mark, taken = some (demand, mark)) ∨ ∃ mark, disputed = some (demand, mark) := by
  cases taken with
  | none => exact .inr ⟨primary, h⟩
  | some first =>
    cases disputed with
    | none => exact .inl ⟨primary, h⟩
    | some second =>
      simp only [joined, Option.some.injEq, Prod.mk.injEq] at h
      obtain ⟨demand, _⟩ := h
      split at demand
      · exact .inr ⟨second.2, by rw [← demand]⟩
      · exact .inl ⟨first.2, by rw [← demand]⟩

theorem joined_primary {taken disputed : Option Word} {demand : F32}
    (h : joined taken disputed = some (demand, true)) :
    (∃ demand, taken = some (demand, true)) ∨ ∃ demand, disputed = some (demand, true) := by
  cases taken with
  | none => exact .inr ⟨demand, h⟩
  | some first =>
    cases disputed with
    | none => exact .inl ⟨demand, h⟩
    | some second =>
      simp only [joined, Option.some.injEq, Prod.mk.injEq, Bool.or_eq_true] at h
      rcases h.2 with mark | mark
      · exact .inl ⟨first.1, by rw [← mark]⟩
      · exact .inr ⟨second.1, by rw [← mark]⟩

/- The join is at least what either of the two says. -/
theorem joined_taken (demand : F32) (primary : Bool) (disputed : Option Word) :
    ∃ word, joined (some (demand, primary)) disputed = some word ∧
      ¬ word.1.lt demand = true ∧ (primary = true → word.2 = true) := by
  cases disputed with
  | none => exact ⟨_, rfl, F32.not_lt_self demand, id⟩
  | some second =>
    refine ⟨_, rfl, ?_, ?_⟩
    · dsimp only
      split
      · rename_i less
        exact F32.not_lt_of_lt less
      · exact F32.not_lt_self demand
    · intro mark
      simp [mark]

theorem joined_disputed (taken : Option Word) (demand : F32) (primary : Bool) :
    ∃ word, joined taken (some (demand, primary)) = some word ∧
      ¬ word.1.lt demand = true ∧ (primary = true → word.2 = true) := by
  cases taken with
  | none => exact ⟨_, rfl, F32.not_lt_self demand, id⟩
  | some first =>
    refine ⟨_, rfl, ?_, ?_⟩
    · dsimp only
      split
      · exact F32.not_lt_self demand
      · rename_i notLess
        exact notLess
    · intro mark
      simp [mark]

theorem PeerDemand.get_word (d : PeerDemand) (peer : PeerId) (key : UInt64) :
    (d.get peer key).map Heard.word =
      d.peers[peer]?.bind fun record => joined (record.taken key) (record.disputed key) := by
  unfold get
  cases d.peers[peer]? with
  | none => rfl
  | some record => exact record.heard_word key

/- The store over a sequence of reports and rounds of expiry. -/

inductive DemandOp where
  | apply (sender : PeerId) (report : DemandReport) (now : Nat)
  | expire (now maxAge : Nat)
  deriving DecidableEq, Repr

def PeerDemand.step (d : PeerDemand) : DemandOp → Option PeerDemand
  | .apply sender report now => d.apply sender report now
  | .expire now maxAge => some (d.expire now maxAge)

def PeerDemand.run (d : PeerDemand) (ops : List DemandOp) : Option PeerDemand :=
  ops.foldlM (fun d op => d.step op) d

/- Each step is taken in a state the condition admits it in. -/
def PeerDemand.Along (condition : PeerDemand → DemandOp → Prop) : PeerDemand → List DemandOp → Prop
  | _, [] => True
  | d, op :: ops => condition d op ∧ ∀ d', d.step op = some d' → Along condition d' ops

def DemandOp.report : DemandOp → Option DemandReport
  | .apply _ report _ => some report
  | .expire _ _ => none

theorem PeerDemand.run_isSome (d : PeerDemand) (ops : List DemandOp) :
    ∃ d', d.run ops = some d' := by
  induction ops generalizing d with
  | nil => exact ⟨d, rfl⟩
  | cons op ops ih =>
    have stepped : ∃ d', d.step op = some d' := by
      cases op with
      | apply sender report now => exact d.apply_isSome sender report now
      | expire now maxAge => exact ⟨_, rfl⟩
    obtain ⟨d', step⟩ := stepped
    obtain ⟨d'', rest⟩ := ih d'
    exact ⟨d'', by simpa only [run, List.foldlM_cons, step, Option.bind_eq_bind, Option.bind_some]
      using rest⟩

theorem PeerDemand.run_cons {d d' : PeerDemand} {op : DemandOp} {ops : List DemandOp}
    (h : d.run (op :: ops) = some d') : ∃ mid, d.step op = some mid ∧ mid.run ops = some d' := by
  simpa only [run, List.foldlM_cons, bind, Option.bind_eq_some_iff] using h

/- A report of peer 1 with one key, for examples. -/
def inEpoch (epoch : UInt32) (round : UInt16) (key : UInt64) (demand : F32) : DemandReport :=
  ⟨1, epoch, round, [⟨key, demand, true⟩]⟩

def ten : F32 := ⟨0x41200000⟩
def eighty : F32 := ⟨0x42a00000⟩
def hundredTwenty : F32 := ⟨0x42f00000⟩

end Rateguard
