import Mathlib.Data.List.Nodup

/- A table whose least recently used entry goes first, and the queue of stamps it is kept by: every
   entry holds the stamp of its last use, and a stamp another has followed stays in the queue, stale,
   until it comes up or the queue is cleared of such. -/
namespace Lru
variable {κ ν : Type} [DecidableEq κ]

def get (table : List (κ × ν)) (key : κ) : Option ν := (table.find? fun entry => entry.1 = key).map (·.2)

def remove (table : List (κ × ν)) (key : κ) : List (κ × ν) := table.filter fun entry => entry.1 ≠ key

def refresh (table : List (κ × ν)) (key : κ) : List (κ × ν) :=
  match get table key with
  | some value => remove table key ++ [(key, value)]
  | none => table

/- The oldest go until there is room. -/
def insert (capacity : Nat) (table : List (κ × ν)) (key : κ) (value : ν) : List (κ × ν) :=
  if capacity = 0 then table else table.drop (table.length + 1 - capacity) ++ [(key, value)]

/- What the queue holds of the table: the entries whose latest stamp stands in it. -/
def live (latest : κ → Option (ν × Nat)) (order : List (κ × Nat)) : List (κ × ν) :=
  order.filterMap fun stamped => (latest stamped.1).bind fun entry =>
    if entry.2 = stamped.2 then some (stamped.1, entry.1) else none

/-- Stamps are given in order, each once, and every entry's latest stands in the queue. -/
structure Queued (latest : κ → Option (ν × Nat)) (order : List (κ × Nat)) (next : Nat) : Prop where
  sorted : order.Pairwise fun one two => one.2 < two.2
  given : ∀ stamped ∈ order, stamped.2 < next
  held : ∀ key value stamp, latest key = some (value, stamp) → (key, stamp) ∈ order

theorem get_append (one two : List (κ × ν)) (key : κ) :
    get (one ++ two) key = (get one key).or (get two key) := by
  rw [get, List.find?_append, Option.map_or]
  rfl

theorem get_remove (table : List (κ × ν)) (gone key : κ) :
    get (remove table gone) key = if key = gone then none else get table key := by
  unfold get remove
  rw [List.find?_filter]
  by_cases same : key = gone
  · rw [if_pos same, Option.map_eq_none_iff, List.find?_eq_none]
    intro entry _
    simp only [ne_eq, decide_not, Bool.not_eq_true', decide_eq_false_iff_not, decide_eq_true_eq,
      not_and]
    exact fun apart is => apart (is.trans same)
  · rw [if_neg same]
    congr 2
    funext entry
    by_cases is : entry.1 = key
    · simp [is, same]
    · simp [is]

theorem remove_absent {table : List (κ × ν)} {key : κ} (absent : get table key = none) :
    remove table key = table := by
  refine List.filter_eq_self.mpr fun entry mem => ?_
  have apart := List.find?_eq_none.mp (Option.map_eq_none_iff.mp absent) entry mem
  simpa using apart

theorem get_refresh (table : List (κ × ν)) (key other : κ) :
    get (refresh table key) other = get table other := by
  unfold refresh
  cases found : get table key with
  | none => rfl
  | some value =>
    dsimp only
    rw [get_append, get_remove]
    by_cases same : other = key
    · rw [if_pos same, same, found]
      simp [get]
    · have alone : get [(key, value)] other = none := by simp [get, Ne.symm same]
      rw [if_neg same, alone, Option.or_none]

theorem get_insert_none {table : List (κ × ν)} {key other : κ} (capacity : Nat) (value : ν)
    (apart : other ≠ key) (absent : get table other = none) :
    get (insert capacity table key value) other = none := by
  unfold insert
  split
  · exact absent
  · have alone : get [(key, value)] other = none := by simp [get, Ne.symm apart]
    rw [get_append, alone, Option.or_none]
    refine Option.map_eq_none_iff.mpr (List.find?_eq_none.mpr fun entry mem => ?_)
    exact List.find?_eq_none.mp (Option.map_eq_none_iff.mp absent) entry (List.mem_of_mem_drop mem)

section
variable {latest latest' : κ → Option (ν × Nat)} {order : List (κ × Nat)} {next : Nat}

omit [DecidableEq κ] in
theorem live_append (one two : List (κ × Nat)) :
    live latest (one ++ two) = live latest one ++ live latest two :=
  List.filterMap_append

omit [DecidableEq κ] in
theorem mem_live {key : κ} {value : ν} : (key, value) ∈ live latest order ↔
    ∃ stamp, (key, stamp) ∈ order ∧ latest key = some (value, stamp) := by
  unfold live
  rw [List.mem_filterMap]
  constructor
  · rintro ⟨⟨other, stamp⟩, mem, found⟩
    simp only [Option.bind_eq_some_iff, Option.ite_none_right_eq_some, Option.some.injEq,
      Prod.mk.injEq] at found
    obtain ⟨⟨_, _⟩, held, rfl, rfl, rfl⟩ := found
    exact ⟨_, mem, held⟩
  · rintro ⟨stamp, mem, held⟩
    exact ⟨(key, stamp), mem, by simp [held]⟩

omit [DecidableEq κ] in
theorem Queued.nodup (queued : Queued latest order next) : ((live latest order).map (·.1)).Nodup := by
  have sorted := queued.sorted
  clear queued
  induction order with
  | nil => exact List.nodup_nil
  | cons first rest ih =>
    obtain ⟨below, sorted⟩ := List.pairwise_cons.mp sorted
    rw [← List.singleton_append, live_append, List.map_append]
    refine List.Nodup.append ?_ (ih sorted) ?_
    · cases found : live latest [first] with
      | nil => exact List.nodup_nil
      | cons entry others =>
        have short : (live latest [first]).length ≤ 1 := List.length_filterMap_le _ _
        rw [found] at short
        have none : others = [] := by simpa using short
        rw [none]
        exact List.nodup_singleton _
    · intro key here there
      obtain ⟨⟨_, value⟩, mem, rfl⟩ := List.mem_map.mp here
      obtain ⟨⟨other, value'⟩, mem', same⟩ := List.mem_map.mp there
      obtain ⟨stamp, is, held⟩ := mem_live.mp mem
      obtain ⟨stamp', later, held'⟩ := mem_live.mp mem'
      dsimp only at same
      rw [same, held, Option.some.injEq, Prod.mk.injEq] at held'
      have order := below _ later
      rw [← List.mem_singleton.mp is, ← held'.2] at order
      exact absurd order (Nat.lt_irrefl _)

theorem Queued.get_live (queued : Queued latest order next) (key : κ) :
    get (live latest order) key = (latest key).map (·.1) := by
  cases held : latest key with
  | none =>
    refine Option.map_eq_none_iff.mpr (List.find?_eq_none.mpr ?_)
    rintro ⟨other, value⟩ mem same
    obtain ⟨stamp, _, found⟩ := mem_live.mp mem
    have is : other = key := by simpa using same
    rw [is, held] at found
    cases found
  | some entry =>
    obtain ⟨value, stamp⟩ := entry
    have mem : (key, value) ∈ live latest order :=
      mem_live.mpr ⟨stamp, queued.held key value stamp held, held⟩
    cases found : (live latest order).find? fun entry => entry.1 = key with
    | none => simpa using List.find?_eq_none.mp found (key, value) mem
    | some entry =>
      obtain ⟨other, value'⟩ := entry
      have is : other = key := by simpa using List.find?_some found
      obtain ⟨stamp', _, held'⟩ := mem_live.mp (List.mem_of_find?_eq_some found)
      rw [is, held, Option.some.injEq, Prod.mk.injEq] at held'
      rw [get, found, held'.1]
      rfl

/- A key whose stamp no longer stands, or that is gone, is not found. -/
theorem live_stale {key : κ} (others : ∀ other, other ≠ key → latest' other = latest other)
    (stale : ∀ stamped ∈ order, stamped.1 = key → ∀ entry, latest' key = some entry →
      entry.2 ≠ stamped.2) : live latest' order = remove (live latest order) key := by
  induction order with
  | nil => rfl
  | cons first rest ih =>
    have later := ih fun stamped mem => stale stamped (List.mem_cons_of_mem _ mem)
    rw [← List.singleton_append, live_append, live_append, remove, List.filter_append, later]
    refine congrArg (· ++ _) ?_
    by_cases same : first.1 = key
    · have gone : live latest' [first] = [] := by
        refine List.eq_nil_iff_forall_not_mem.mpr ?_
        rintro ⟨other, value⟩ mem
        obtain ⟨stamp, is, held⟩ := mem_live.mp mem
        obtain rfl := List.mem_singleton.mp is
        obtain rfl : other = key := same
        exact stale _ List.mem_cons_self rfl _ held rfl
      rw [gone]
      refine (List.filter_eq_nil_iff.mpr ?_).symm
      rintro ⟨other, value⟩ mem
      obtain ⟨stamp, is, _⟩ := mem_live.mp mem
      obtain rfl := List.mem_singleton.mp is
      simpa using same
    · have kept : live latest' [first] = live latest [first] := by
        simp only [live, List.filterMap_cons, List.filterMap_nil, others first.1 same]
      rw [kept]
      refine (List.filter_eq_self.mpr ?_).symm
      rintro ⟨other, value⟩ mem
      obtain ⟨stamp, is, _⟩ := mem_live.mp mem
      obtain rfl := List.mem_singleton.mp is
      simpa using same

/- A use of the key: its new stamp goes to the end of the queue, and the old one goes stale. -/
theorem Queued.stamped (queued : Queued latest order next) {key : κ} {value : ν}
    (others : ∀ other, other ≠ key → latest' other = latest other)
    (here : latest' key = some (value, next)) :
    Queued latest' (order ++ [(key, next)]) (next + 1) ∧
      live latest' (order ++ [(key, next)]) = remove (live latest order) key ++ [(key, value)] := by
  refine ⟨⟨?_, ?_, ?_⟩, ?_⟩
  · refine List.pairwise_append.mpr ⟨queued.sorted, List.pairwise_singleton _ _, ?_⟩
    intro stamped mem last is
    rw [List.mem_singleton.mp is]
    exact queued.given stamped mem
  · intro stamped mem
    rcases List.mem_append.mp mem with old | new
    · exact Nat.lt_succ_of_lt (queued.given stamped old)
    · rw [List.mem_singleton.mp new]
      exact Nat.lt_succ_self next
  · intro other value' stamp held
    by_cases same : other = key
    · rw [same, here, Option.some.injEq, Prod.mk.injEq] at held
      rw [same, ← held.2]
      exact List.mem_append_right _ List.mem_cons_self
    · rw [others other same] at held
      exact List.mem_append_left _ (queued.held other value' stamp held)
  · rw [live_append, live_stale others]
    · simp [live, here]
    · intro stamped mem _ entry held
      rw [here] at held
      rw [← Option.some.inj held]
      exact (Nat.ne_of_lt (queued.given stamped mem)).symm

theorem Queued.removed (queued : Queued latest order next) {key : κ}
    (others : ∀ other, other ≠ key → latest' other = latest other) (gone : latest' key = none) :
    Queued latest' order next ∧ live latest' order = remove (live latest order) key := by
  refine ⟨⟨queued.sorted, queued.given, ?_⟩, live_stale others ?_⟩
  · intro other value stamp held
    by_cases same : other = key
    · rw [same, gone] at held
      cases held
    · rw [others other same] at held
      exact queued.held other value stamp held
  · intro _ _ _ entry held
    rw [gone] at held
    cases held

omit [DecidableEq κ] in
theorem Queued.skipped {key : κ} {stamp : Nat} (queued : Queued latest ((key, stamp) :: order) next)
    (stale : ∀ value, latest key ≠ some (value, stamp)) :
    Queued latest order next ∧ live latest ((key, stamp) :: order) = live latest order := by
  have nothing : live latest [(key, stamp)] = [] := by
    refine List.eq_nil_iff_forall_not_mem.mpr ?_
    rintro ⟨other, value⟩ mem
    obtain ⟨_, same, held⟩ := mem_live.mp mem
    obtain ⟨rfl, rfl⟩ := Prod.mk.inj (List.mem_singleton.mp same)
    exact stale value held
  refine ⟨⟨(List.pairwise_cons.mp queued.sorted).2, ?_, ?_⟩, ?_⟩
  · exact fun stamped mem => queued.given stamped (List.mem_cons_of_mem _ mem)
  · intro other value stamp' held
    rcases List.mem_cons.mp (queued.held other value stamp' held) with first | later
    · obtain ⟨rfl, rfl⟩ := Prod.mk.inj first
      exact absurd held (stale value)
    · exact later
  · rw [← List.singleton_append, live_append, nothing, List.nil_append]

theorem Queued.popped {key : κ} {stamp : Nat} {value : ν}
    (queued : Queued latest ((key, stamp) :: order) next) (held : latest key = some (value, stamp))
    (others : ∀ other, other ≠ key → latest' other = latest other) (gone : latest' key = none) :
    Queued latest' order next ∧
      live latest ((key, stamp) :: order) = (key, value) :: live latest' order := by
  have stands : live latest [(key, stamp)] = [(key, value)] := by simp [live, held]
  have once := queued.nodup
  rw [← List.singleton_append, live_append, stands, List.singleton_append, List.map_cons,
    List.nodup_cons] at once
  have absent : get (live latest order) key = none := by
    refine Option.map_eq_none_iff.mpr (List.find?_eq_none.mpr fun entry mem same => once.1 ?_)
    exact List.mem_map.mpr ⟨entry, mem, by simpa using same⟩
  obtain ⟨rest, same⟩ := (queued.removed others gone).1.skipped fun value => by simp [gone]
  refine ⟨rest, ?_⟩
  rw [← List.singleton_append, live_append, stands, List.singleton_append,
    live_stale others fun _ _ _ entry held => by simp [gone] at held, remove_absent absent]

theorem Queued.newest {key : κ} {stamp : Nat} {value : ν} (queued : Queued latest order next)
    (last : order.getLast? = some (key, stamp)) (held : latest key = some (value, stamp)) :
    live latest order = remove (live latest order) key ++ [(key, value)] := by
  obtain ⟨before, rfl⟩ := List.getLast?_eq_some_iff.mp last
  have stands : live latest [(key, stamp)] = [(key, value)] := by simp [live, held]
  have once := queued.nodup
  rw [live_append, stands, List.map_append, List.nodup_append] at once
  have absent : get (live latest before) key = none := by
    refine Option.map_eq_none_iff.mpr (List.find?_eq_none.mpr fun entry mem same => ?_)
    exact once.2.2 entry.1 (List.mem_map_of_mem mem) key List.mem_cons_self (by simpa using same)
  rw [live_append, stands, remove, List.filter_append]
  refine congrArg (· ++ _) ?_
  have gone : [(key, value)].filter (fun entry => entry.1 ≠ key) = [] := by simp
  rw [gone, List.append_nil]
  exact (remove_absent absent).symm

omit [DecidableEq κ] in
theorem live_filter {keep : κ × Nat → Bool}
    (is : ∀ stamped, keep stamped = true ↔ ∃ value, latest stamped.1 = some (value, stamped.2)) :
    live latest (order.filter keep) = live latest order ∧
      (order.filter keep).length = (live latest order).length := by
  induction order with
  | nil => exact ⟨rfl, rfl⟩
  | cons first rest ih =>
    rw [← List.singleton_append, List.filter_append, live_append, live_append, List.length_append,
      List.length_append, ih.1, ih.2]
    by_cases kept : keep first = true
    · obtain ⟨value, held⟩ := (is first).mp kept
      have stands : live latest [first] = [(first.1, value)] := by simp [live, held]
      rw [List.filter_cons_of_pos kept, List.filter_nil, stands]
      exact ⟨rfl, rfl⟩
    · have stale : live latest [first] = [] := by
        refine List.eq_nil_iff_forall_not_mem.mpr ?_
        rintro ⟨other, value⟩ mem
        obtain ⟨stamp, same, held⟩ := mem_live.mp mem
        obtain rfl := List.mem_singleton.mp same
        exact kept ((is _).mpr ⟨value, held⟩)
      rw [List.filter_cons_of_neg kept, List.filter_nil, stale]
      exact ⟨rfl, rfl⟩

omit [DecidableEq κ] in
theorem Queued.cleared (queued : Queued latest order next) {keep : κ × Nat → Bool}
    (is : ∀ stamped, keep stamped = true ↔ ∃ value, latest stamped.1 = some (value, stamped.2)) :
    Queued latest (order.filter keep) next := by
  refine ⟨queued.sorted.filter keep, ?_, ?_⟩
  · exact fun stamped mem => queued.given stamped (List.mem_of_mem_filter mem)
  · intro key value stamp held
    exact List.mem_filter.mpr ⟨queued.held key value stamp held, (is _).mpr ⟨value, held⟩⟩

end
end Lru
