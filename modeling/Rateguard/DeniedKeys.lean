import Rateguard.Lru
import Rateguard.Words

/- The keys behind the hashes denied most: a table of the keys really denied and one of the keys only
   a shadow denied, each refining one whose least recently used entry goes first. -/
namespace Rateguard
open Std (ExtTreeMap)

/- The longest key or class kept, in bytes. -/
def maxLen : Nat := 256

/- As many chars as fit. -/
def takeBytes : Nat → List Char → List Char
  | _, [] => []
  | room, c :: rest => if c.utf8Size ≤ room then c :: takeBytes (room - c.utf8Size) rest else []

/- Cut at the last char boundary within the bytes kept, and whether it was. -/
def cut (s : String) : String × Bool :=
  if s.utf8ByteSize ≤ maxLen then (s, false)
  else (String.ofList (takeBytes maxLen s.toList), true)

structure Named where
  className : String
  key : String
  truncated : Bool
  deriving DecidableEq, Repr

def Named.new (className key : String) : Named :=
  let (key, truncated) := cut key
  ⟨(cut className).1, key, truncated⟩

/- The stamps in the order given, oldest first, each with its hash. -/
structure Recent where
  capacity : Nat
  named : ExtTreeMap UInt64 (Named × Nat)
  order : List (UInt64 × Nat)
  next : Nat

/- The oldest stamp goes until there is room, and a name with its latest. -/
def evict (capacity : Nat) : List (UInt64 × Nat) → ExtTreeMap UInt64 (Named × Nat) →
    List (UInt64 × Nat) × ExtTreeMap UInt64 (Named × Nat)
  | [], named => ([], named)
  | (oldest, stamp) :: rest, named =>
    if capacity ≤ named.size then
      evict capacity rest
        (if named[oldest]?.any (·.2 == stamp) then named.erase oldest else named)
    else ((oldest, stamp) :: rest, named)

namespace Recent

def new (capacity : Nat) : Recent := ⟨capacity, ∅, [], 0⟩

def contains (r : Recent) (hash : UInt64) : Bool := r.named.contains hash

def get (r : Recent) (hash : UInt64) : Option Named := r.named[hash]?.map (·.1)

/- Drops the stale stamps once they are as many as the live ones. -/
def compact (r : Recent) : Recent :=
  if 2 * r.capacity < r.order.length then
    { r with order := r.order.filter fun stamped => r.named[stamped.1]?.any (·.2 == stamped.2) }
  else r

/- The hash under a new stamp. -/
def stamp (r : Recent) (hash : UInt64) (named : Named) : Recent :=
  { r with
    named := r.named.insert hash (named, r.next)
    order := r.order ++ [(hash, r.next)]
    next := r.next + 1 }

/- Makes the hash the newest, if it is here; nothing moves when it is already. -/
def refresh (r : Recent) (hash : UInt64) : Bool × Recent :=
  match r.named[hash]? with
  | none => (false, r)
  | some (named, stamp) =>
    if r.order.getLast? = some (hash, stamp) then (true, r) else (true, (r.stamp hash named).compact)

def insert (r : Recent) (hash : UInt64) (named : Named) : Recent :=
  if r.capacity = 0 then r
  else
    let (order, held) := evict r.capacity r.order r.named
    ({ r with order, named := held }.stamp hash named).compact

def remove (r : Recent) (hash : UInt64) : Option Named × Recent :=
  match r.named[hash]? with
  | none => (none, r)
  | some (named, _) => (some named, { r with named := r.named.erase hash }.compact)

end Recent

structure DeniedKeys where
  real : Recent
  shadow : Recent

inductive DeniedCall where
  | record (hash : UInt64) (className key : String)
  | recordShadow (hash : UInt64) (className key : String)

namespace DeniedKeys

def new (capacity : Nat) : DeniedKeys := ⟨.new capacity, .new capacity⟩

def record (d : DeniedKeys) (hash : UInt64) (className key : String) : DeniedKeys :=
  let (known, real) := d.real.refresh hash
  if known then { d with real }
  else
    let (named, shadow) := d.shadow.remove hash
    { real := real.insert hash (named.getD (.new className key)), shadow }

def recordShadow (d : DeniedKeys) (hash : UInt64) (className key : String) : DeniedKeys :=
  if d.real.contains hash then d
  else
    let (known, shadow) := d.shadow.refresh hash
    if known then { d with shadow }
    else { d with shadow := shadow.insert hash (.new className key) }

def get (d : DeniedKeys) (hash : UInt64) : Option Named := (d.real.get hash).or (d.shadow.get hash)

def len (d : DeniedKeys) : Nat := d.real.named.size + d.shadow.named.size

def call (d : DeniedKeys) : DeniedCall → DeniedKeys
  | .record hash className key => d.record hash className key
  | .recordShadow hash className key => d.recordShadow hash className key

def run (capacity : Nat) (calls : List DeniedCall) : DeniedKeys := calls.foldl call (.new capacity)

end DeniedKeys

/- What the keys are for: two tables, in each the least recently used entry going first. A real
   denial moves a key, with its name, from the second to the first. -/
structure DeniedTables where
  real : List (UInt64 × Named)
  shadow : List (UInt64 × Named)

namespace DeniedTables

def record (t : DeniedTables) (capacity : Nat) (hash : UInt64) (className key : String) :
    DeniedTables :=
  if (Lru.get t.real hash).isSome then { t with real := Lru.refresh t.real hash }
  else
    { real := Lru.insert capacity t.real hash ((Lru.get t.shadow hash).getD (.new className key))
      shadow := Lru.remove t.shadow hash }

def recordShadow (t : DeniedTables) (capacity : Nat) (hash : UInt64) (className key : String) :
    DeniedTables :=
  if (Lru.get t.real hash).isSome then t
  else if (Lru.get t.shadow hash).isSome then { t with shadow := Lru.refresh t.shadow hash }
  else { t with shadow := Lru.insert capacity t.shadow hash (.new className key) }

def call (capacity : Nat) (t : DeniedTables) : DeniedCall → DeniedTables
  | .record hash className key => t.record capacity hash className key
  | .recordShadow hash className key => t.recordShadow capacity hash className key

def run (capacity : Nat) (calls : List DeniedCall) : DeniedTables :=
  calls.foldl (call capacity) ⟨[], []⟩

def get (t : DeniedTables) (hash : UInt64) : Option Named :=
  (Lru.get t.real hash).or (Lru.get t.shadow hash)

def len (t : DeniedTables) : Nat := t.real.length + t.shadow.length

end DeniedTables

/- What a map finds. -/
abbrev latestIn (named : ExtTreeMap UInt64 (Named × Nat)) : UInt64 → Option (Named × Nat) :=
  fun hash => named[hash]?

theorem latestIn_insert (named : ExtTreeMap UInt64 (Named × Nat)) (hash : UInt64)
    (entry : Named × Nat) : latestIn (named.insert hash entry) hash = some entry ∧
      ∀ other, other ≠ hash → latestIn (named.insert hash entry) other = latestIn named other := by
  refine ⟨by simp [latestIn], fun other apart => ?_⟩
  simp only [latestIn, ExtTreeMap.getElem?_insert]
  rw [if_neg]
  exact fun equal => apart (Std.LawfulEqCmp.eq_of_compare equal).symm

theorem latestIn_erase (named : ExtTreeMap UInt64 (Named × Nat)) (hash : UInt64) :
    latestIn (named.erase hash) hash = none ∧
      ∀ other, other ≠ hash → latestIn (named.erase hash) other = latestIn named other := by
  refine ⟨by simp [latestIn], fun other apart => ?_⟩
  simp only [latestIn, ExtTreeMap.getElem?_erase]
  rw [if_neg]
  exact fun equal => apart (Std.LawfulEqCmp.eq_of_compare equal).symm

/- Every name stands once in the queue with its latest stamp. -/
theorem live_length {named : ExtTreeMap UInt64 (Named × Nat)} {order : List (UInt64 × Nat)}
    {next : Nat} (queued : Lru.Queued (latestIn named) order next) :
    (Lru.live (latestIn named) order).length = named.size := by
  have perm : ((Lru.live (latestIn named) order).map (·.1)).Perm named.keys := by
    refine (List.perm_ext_iff_of_nodup queued.nodup named.nodup_keys).mpr fun hash => ?_
    rw [ExtTreeMap.mem_keys, ExtTreeMap.mem_iff_isSome_getElem?, List.mem_map]
    constructor
    · rintro ⟨⟨_, name⟩, mem, rfl⟩
      obtain ⟨stamp, _, held⟩ := Lru.mem_live.mp mem
      exact Option.isSome_of_eq_some held
    · intro held
      obtain ⟨⟨name, stamp⟩, held⟩ := Option.isSome_iff_exists.mp held
      exact ⟨(hash, name), Lru.mem_live.mpr ⟨stamp, queued.held hash name stamp held, held⟩, rfl⟩
  rw [← ExtTreeMap.length_keys, ← perm.length_eq, List.length_map]

/- The stamps that stand: what compacting keeps. -/
theorem stands_iff {named : ExtTreeMap UInt64 (Named × Nat)} (stamped : UInt64 × Nat) :
    (named[stamped.1]?.any fun entry : Named × Nat => entry.2 == stamped.2) = true ↔
      ∃ name, latestIn named stamped.1 = some (name, stamped.2) := by
  simp only [Option.any_eq_true, beq_iff_eq, Prod.exists, latestIn]
  constructor
  · rintro ⟨name, stamp, held, rfl⟩
    exact ⟨name, held⟩
  · rintro ⟨name, held⟩
    exact ⟨name, stamped.2, held, rfl⟩

/- What a table of names counts on. -/
structure Recent.Sound (r : Recent) : Prop where
  queued : Lru.Queued (latestIn r.named) r.order r.next
  size : r.named.size ≤ r.capacity
  short : r.order.length ≤ 2 * r.capacity

def Recent.table (r : Recent) : List (UInt64 × Named) := Lru.live (latestIn r.named) r.order

/- Evicting makes room, and takes the oldest. -/
theorem evict_spec {capacity next : Nat} {order : List (UInt64 × Nat)}
    {named : ExtTreeMap UInt64 (Named × Nat)} (bounded : capacity ≠ 0)
    (fits : named.size ≤ capacity) (queued : Lru.Queued (latestIn named) order next) :
    (evict capacity order named).2.size < capacity ∧
      Lru.Queued (latestIn (evict capacity order named).2) (evict capacity order named).1 next ∧
      Lru.live (latestIn (evict capacity order named).2) (evict capacity order named).1 =
        (Lru.live (latestIn named) order).drop (named.size + 1 - capacity) ∧
      ∀ hash : UInt64, named[hash]? = none → (evict capacity order named).2[hash]? = none := by
  induction order generalizing named with
  | nil =>
    have empty : named.size = 0 := (live_length queued).symm
    rw [evict]
    refine ⟨empty.trans_lt (Nat.pos_of_ne_zero bounded), queued, ?_, fun _ absent => absent⟩
    rw [show named.size + 1 - capacity = 0 by omega, List.drop_zero]
  | cons first rest ih =>
    obtain ⟨oldest, stamp⟩ := first
    rw [evict]
    by_cases full : capacity ≤ named.size
    · rw [if_pos full]
      by_cases stands : named[oldest]?.any (·.2 == stamp) = true
      · rw [if_pos stands]
        obtain ⟨name, held⟩ := (stands_iff (oldest, stamp)).mp stands
        obtain ⟨gone, others⟩ := latestIn_erase named oldest
        obtain ⟨rest', popped⟩ := queued.popped held others gone
        have lost : (named.erase oldest).size + 1 = named.size := by
          rw [← live_length queued, ← live_length rest', popped, List.length_cons]
        obtain ⟨room, queued', table, absent⟩ := ih (by omega) rest'
        refine ⟨room, queued', ?_, fun hash missing => absent hash ?_⟩
        · rw [table, popped, show named.size + 1 - capacity = 1 by omega,
            show (named.erase oldest).size + 1 - capacity = 0 by omega]
          rfl
        · by_cases same : hash = oldest
          · rw [same]
            exact gone
          · exact (others hash same).trans missing
      · rw [if_neg stands]
        obtain ⟨rest', same⟩ := queued.skipped fun name held =>
          stands ((stands_iff (oldest, stamp)).mpr ⟨name, held⟩)
        rw [same]
        exact ih fits rest'
    · rw [if_neg full]
      refine ⟨Nat.not_le.mp full, queued, ?_, fun _ absent => absent⟩
      rw [show named.size + 1 - capacity = 0 by omega, List.drop_zero]

namespace Recent
variable {r : Recent}

theorem new_sound (capacity : Nat) : (new capacity).Sound :=
  ⟨⟨List.Pairwise.nil, fun _ mem => absurd mem List.not_mem_nil, fun hash name stamp held => by
    simp [new, latestIn] at held⟩, Nat.zero_le _, Nat.zero_le _⟩

theorem table_length (queued : Lru.Queued (latestIn r.named) r.order r.next) :
    r.table.length = r.named.size :=
  live_length queued

theorem table_get (queued : Lru.Queued (latestIn r.named) r.order r.next) (hash : UInt64) :
    Lru.get r.table hash = r.get hash :=
  queued.get_live hash

/- Compacting changes no name, and leaves the queue within twice the capacity. -/
theorem compact_spec (queued : Lru.Queued (latestIn r.named) r.order r.next)
    (fits : r.named.size ≤ r.capacity) : r.compact.Sound ∧ r.compact.table = r.table ∧
      r.compact.capacity = r.capacity := by
  unfold compact
  split
  · obtain ⟨same, length⟩ := @Lru.live_filter _ _ (latestIn r.named) r.order _ stands_iff
    refine ⟨⟨queued.cleared stands_iff, fits, ?_⟩, same, rfl⟩
    dsimp only
    rw [length, live_length queued]
    omega
  · rename_i short
    exact ⟨⟨queued, fits, Nat.not_lt.mp short⟩, rfl, rfl⟩

/- A new stamp for a hash there is room for. -/
theorem stamp_spec (queued : Lru.Queued (latestIn r.named) r.order r.next)
    (hash : UInt64) (named : Named) (fits : (r.named.insert hash (named, r.next)).size ≤ r.capacity) :
    (r.stamp hash named).compact.Sound ∧
      (r.stamp hash named).compact.table = Lru.remove r.table hash ++ [(hash, named)] ∧
      (r.stamp hash named).compact.capacity = r.capacity := by
  obtain ⟨here, others⟩ := latestIn_insert r.named hash (named, r.next)
  obtain ⟨queued', same⟩ := queued.stamped others here
  obtain ⟨sound, table, capacity⟩ := @compact_spec (r.stamp hash named) queued' fits
  exact ⟨sound, table.trans same, capacity⟩

theorem refresh_known (r : Recent) (hash : UInt64) : (r.refresh hash).1 = r.contains hash := by
  unfold refresh contains
  rw [ExtTreeMap.contains_eq_isSome_getElem?]
  split
  · rename_i absent
    rw [absent]
    rfl
  · rename_i held
    rw [held]
    split
    · rfl
    · rfl

theorem refresh_absent {hash : UInt64} (absent : r.named[hash]? = none) :
    r.refresh hash = (false, r) := by
  rw [refresh, absent]

theorem contains_iff (r : Recent) (hash : UInt64) :
    r.contains hash = true ↔ (r.get hash).isSome = true := by
  rw [contains, get, ExtTreeMap.contains_eq_isSome_getElem?, Option.isSome_map]

theorem refresh_spec (sound : r.Sound) (hash : UInt64) : (r.refresh hash).2.Sound ∧
    (r.refresh hash).2.table = Lru.refresh r.table hash ∧
    (r.refresh hash).2.capacity = r.capacity := by
  have found := table_get sound.queued hash
  unfold refresh Lru.refresh
  cases held : r.named[hash]? with
  | none =>
    rw [get, held, Option.map_none] at found
    rw [found]
    exact ⟨sound, rfl, rfl⟩
  | some entry =>
    obtain ⟨named, stamp⟩ := entry
    rw [get, held, Option.map_some] at found
    rw [found]
    dsimp only
    split
    · rename_i newest
      exact ⟨sound, sound.queued.newest newest held, rfl⟩
    · refine stamp_spec sound.queued hash named ?_
      rw [ExtTreeMap.size_insert, if_pos]
      · exact sound.size
      · rw [ExtTreeMap.contains_eq_isSome_getElem?, held]
        rfl

theorem insert_spec (sound : r.Sound) {hash : UInt64} (absent : r.named[hash]? = none)
    (named : Named) : (r.insert hash named).Sound ∧
      (r.insert hash named).table = Lru.insert r.capacity r.table hash named ∧
      (r.insert hash named).capacity = r.capacity := by
  unfold insert Lru.insert
  by_cases none : r.capacity = 0
  · rw [if_pos none, if_pos none]
    exact ⟨sound, rfl, rfl⟩
  · rw [if_neg none, if_neg none]
    obtain ⟨room, queued, table, missing⟩ := evict_spec none sound.size sound.queued
    have gone := missing hash absent
    have fits : ((evict r.capacity r.order r.named).2.insert hash (named, r.next)).size ≤
        r.capacity := by
      rw [ExtTreeMap.size_insert]
      split
      · exact Nat.le_of_lt room
      · exact room
    obtain ⟨sound', same, capacity⟩ := @stamp_spec { r with
      order := (evict r.capacity r.order r.named).1
      named := (evict r.capacity r.order r.named).2 } queued hash named fits
    refine ⟨sound', same.trans ?_, capacity⟩
    rw [table_length sound.queued, Lru.remove_absent]
    · exact congrArg (· ++ _) table
    · refine (table_get queued hash).trans ?_
      rw [get, gone]
      rfl

theorem remove_spec (sound : r.Sound) (hash : UInt64) :
    (r.remove hash).1 = Lru.get r.table hash ∧ (r.remove hash).2.Sound ∧
      (r.remove hash).2.table = Lru.remove r.table hash ∧
      (r.remove hash).2.capacity = r.capacity := by
  have found := table_get sound.queued hash
  unfold remove
  cases held : r.named[hash]? with
  | none =>
    rw [get, held, Option.map_none] at found
    exact ⟨found.symm, sound, (Lru.remove_absent found).symm, rfl⟩
  | some entry =>
    rw [get, held, Option.map_some] at found
    obtain ⟨gone, others⟩ := latestIn_erase r.named hash
    obtain ⟨queued, same⟩ := sound.queued.removed others gone
    obtain ⟨sound', table, capacity⟩ := @compact_spec { r with named := r.named.erase hash } queued
      (ExtTreeMap.size_erase_le.trans sound.size)
    exact ⟨found.symm, sound', table.trans same, capacity⟩

end Recent

/- Both tables refine the ideal ones, and no hash is in both. -/
structure DeniedKeys.Refines (capacity : Nat) (d : DeniedKeys) (t : DeniedTables) : Prop where
  real : d.real.Sound
  shadow : d.shadow.Sound
  realCapacity : d.real.capacity = capacity
  shadowCapacity : d.shadow.capacity = capacity
  realTable : d.real.table = t.real
  shadowTable : d.shadow.table = t.shadow
  apart : ∀ hash, Lru.get t.real hash = none ∨ Lru.get t.shadow hash = none

namespace DeniedKeys
variable {capacity : Nat} {d : DeniedKeys} {t : DeniedTables}

theorem Refines.new (capacity : Nat) : Refines capacity (.new capacity) ⟨[], []⟩ :=
  ⟨Recent.new_sound capacity, Recent.new_sound capacity, rfl, rfl, rfl, rfl, fun _ => .inl rfl⟩

theorem Refines.get_real (refines : Refines capacity d t) (hash : UInt64) :
    Lru.get t.real hash = d.real.get hash := by
  rw [← refines.realTable]
  exact Recent.table_get refines.real.queued hash

theorem Refines.get_shadow (refines : Refines capacity d t) (hash : UInt64) :
    Lru.get t.shadow hash = d.shadow.get hash := by
  rw [← refines.shadowTable]
  exact Recent.table_get refines.shadow.queued hash

theorem Refines.record (refines : Refines capacity d t) (hash : UInt64) (className key : String) :
    Refines capacity (d.record hash className key) (t.record capacity hash className key) := by
  have known := d.real.refresh_known hash
  have found := refines.get_real hash
  unfold DeniedKeys.record DeniedTables.record
  dsimp only
  rw [known, found]
  by_cases held : (d.real.get hash).isSome = true
  · have contains : d.real.contains hash = true := by
      rwa [Recent.contains_iff]
    rw [if_pos contains, if_pos held]
    obtain ⟨sound, table, same⟩ := Recent.refresh_spec refines.real hash
    refine ⟨sound, refines.shadow, same.trans refines.realCapacity, refines.shadowCapacity,
      table.trans (congrArg (Lru.refresh · hash) refines.realTable), refines.shadowTable, ?_⟩
    intro other
    rw [Lru.get_refresh]
    exact refines.apart other
  · have missing : d.real.contains hash = false := by
      rwa [← Bool.not_eq_true, Recent.contains_iff]
    have absent : d.real.named[hash]? = none := by
      simpa [Recent.get] using held
    rw [if_neg (Bool.eq_false_iff.mp missing), if_neg held, Recent.refresh_absent absent]
    obtain ⟨name, shadow, shadowTable, shadowCapacity⟩ := Recent.remove_spec refines.shadow hash
    rw [refines.shadowTable] at name shadowTable
    obtain ⟨real, realTable, realCapacity⟩ := Recent.insert_spec refines.real absent
      ((Lru.get t.shadow hash).getD (.new className key))
    rw [refines.realTable, refines.realCapacity] at realTable
    refine ⟨?_, shadow, ?_, shadowCapacity.trans refines.shadowCapacity, ?_, shadowTable, ?_⟩
    · rw [name]
      exact real
    · rw [name]
      exact realCapacity.trans refines.realCapacity
    · rw [name]
      exact realTable
    · intro other
      dsimp only
      rw [Lru.get_remove]
      by_cases same : other = hash
      · exact .inr (if_pos same)
      · rw [if_neg same]
        exact (refines.apart other).imp_left (Lru.get_insert_none capacity _ same)

theorem Refines.recordShadow (refines : Refines capacity d t) (hash : UInt64)
    (className key : String) : Refines capacity (d.recordShadow hash className key)
      (t.recordShadow capacity hash className key) := by
  have found := refines.get_real hash
  unfold DeniedKeys.recordShadow DeniedTables.recordShadow
  dsimp only
  by_cases real : (Lru.get t.real hash).isSome = true
  · have contains : d.real.contains hash = true := by
      rwa [Recent.contains_iff, ← found]
    rw [if_pos contains, if_pos real]
    exact refines
  · have missing : d.real.contains hash = false := by
      rwa [← Bool.not_eq_true, Recent.contains_iff, ← found]
    rw [if_neg (Bool.eq_false_iff.mp missing), if_neg real]
    have known := d.shadow.refresh_known hash
    by_cases held : (Lru.get t.shadow hash).isSome = true
    · have contains : d.shadow.contains hash = true := by
        rwa [Recent.contains_iff, ← refines.get_shadow]
      rw [known, if_pos contains, if_pos held]
      obtain ⟨sound, table, same⟩ := Recent.refresh_spec refines.shadow hash
      refine ⟨refines.real, sound, refines.realCapacity, same.trans refines.shadowCapacity,
        refines.realTable, table.trans (congrArg (Lru.refresh · hash) refines.shadowTable), ?_⟩
      intro other
      rw [Lru.get_refresh]
      exact refines.apart other
    · have missing : d.shadow.contains hash = false := by
        rwa [← Bool.not_eq_true, Recent.contains_iff, ← refines.get_shadow]
      have absent : d.shadow.named[hash]? = none := by
        rw [refines.get_shadow] at held
        simpa [Recent.get] using held
      rw [known, if_neg (Bool.eq_false_iff.mp missing), if_neg held, Recent.refresh_absent absent]
      obtain ⟨sound, table, same⟩ := Recent.insert_spec refines.shadow absent (.new className key)
      rw [refines.shadowTable, refines.shadowCapacity] at table
      refine ⟨refines.real, sound, refines.realCapacity, same.trans refines.shadowCapacity,
        refines.realTable, table, ?_⟩
      intro other
      by_cases same : other = hash
      · rw [same]
        exact .inl (by simpa using real)
      · exact (refines.apart other).imp_right (Lru.get_insert_none capacity _ same)

theorem Refines.run (capacity : Nat) (calls : List DeniedCall) :
    Refines capacity (.run capacity calls) (.run capacity calls) := by
  have all (d : DeniedKeys) (t : DeniedTables) (refines : Refines capacity d t) :
      Refines capacity (calls.foldl call d) (calls.foldl (DeniedTables.call capacity) t) := by
    induction calls generalizing d t with
    | nil => exact refines
    | cons call rest ih =>
      rw [List.foldl_cons, List.foldl_cons]
      cases call with
      | record hash className key => exact ih _ _ (refines.record hash className key)
      | recordShadow hash className key => exact ih _ _ (refines.recordShadow hash className key)
  exact all _ _ (Refines.new capacity)

/-- After any calls the keys answer as the two ideal tables do, no hash is in both, each queue of
    stamps is within twice the capacity, and evicting makes room. -/
theorem denied_keys_are_lru (capacity : Nat) (calls : List DeniedCall) :
    (∀ hash, (run capacity calls).get hash = (DeniedTables.run capacity calls).get hash) ∧
      (run capacity calls).len = (DeniedTables.run capacity calls).len ∧
      (∀ hash, (run capacity calls).real.get hash = none ∨
        (run capacity calls).shadow.get hash = none) ∧
      ∀ r, r = (run capacity calls).real ∨ r = (run capacity calls).shadow →
        r.named.size ≤ capacity ∧ r.order.length ≤ 2 * capacity ∧
          (capacity ≠ 0 → (evict capacity r.order r.named).2.size < capacity) := by
  have refines := Refines.run capacity calls
  refine ⟨fun hash => ?_, ?_, fun hash => ?_, ?_⟩
  · rw [get, DeniedTables.get, refines.get_real, refines.get_shadow]
  · rw [len, DeniedTables.len, ← refines.realTable, ← refines.shadowTable,
      Recent.table_length refines.real.queued, Recent.table_length refines.shadow.queued]
  · rw [← refines.get_real, ← refines.get_shadow]
    exact refines.apart hash
  · have bounds {r : Recent} (sound : r.Sound) (same : r.capacity = capacity) :
        r.named.size ≤ capacity ∧ r.order.length ≤ 2 * capacity ∧
          (capacity ≠ 0 → (evict capacity r.order r.named).2.size < capacity) := by
      rw [← same]
      exact ⟨sound.size, sound.short, fun bounded => (evict_spec bounded sound.size sound.queued).1⟩
    rintro r (rfl | rfl)
    · exact bounds refines.real refines.realCapacity
    · exact bounds refines.shadow refines.shadowCapacity

end DeniedKeys

end Rateguard
