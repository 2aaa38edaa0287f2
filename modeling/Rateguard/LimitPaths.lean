import Rateguard.Driver
import Rateguard.HotKeys

/- The classes and the key limits after any changes, and that every path to a key's limit finds the
   same: the request path through the atomics, the tables, what is read back, and a tick. -/
namespace Rateguard
open Std (ExtTreeMap)

section
variable (xxh3 : String → UInt64)

/- No class but the default's is held under 0, and every shadow is of a class there is. -/
structure Table.Sound (t : Table) : Prop where
  named : (0 : UInt64) ∉ t.named
  shadows : ∀ cls ∈ t.shadows, cls = 0 ∨ cls ∈ t.named

/- What is read without a lock is what the table says. -/
structure Classes.Mirrored (c : Classes) : Prop where
  sound : c.table.Sound
  defaultRate : c.defaultRate = c.table.default.core.rate
  defaultBurst : c.defaultBurst = c.table.default.core.burst
  hasShadows : c.hasShadows = c.table.hasShadows

def KeyLimits.Mirrored (k : KeyLimits) : Prop := k.count = k.table.size

variable {xxh3}

theorem Table.classNamed_known {t : Table} {name : String} {cls : UInt64}
    (found : t.classNamed xxh3 name = .ok cls) : cls = 0 ∨ cls ∈ t.named := by
  unfold classNamed at found
  split at found
  · exact .inl (Except.ok.inj found).symm
  · split at found
    · rename_i known
      rw [← Except.ok.inj found]
      exact .inr (ExtTreeMap.mem_iff_contains.mpr known)
    · cases found

def HoldNames (named : ExtTreeMap UInt64 (String × CheckedLimit)) : Prop :=
  ∀ (cls : UInt64) (entry : String × CheckedLimit),
    named[cls]? = some entry → entry.1.isEmpty = false

/- A list that was checked has no class without a name. -/
theorem checkedFrom_named {max : Nat} {classes : List (String × GivenLimit)}
    {named all : ExtTreeMap UInt64 (String × CheckedLimit)}
    (before : HoldNames named) (taken : checkedFrom xxh3 max classes named = .ok all) :
    HoldNames all := by
  induction classes generalizing named with
  | nil =>
    obtain rfl := Except.ok.inj taken
    exact before
  | cons head rest ih =>
    obtain ⟨name, limit⟩ := head
    rw [checkedFrom] at taken
    split at taken
    · cases taken
    · rename_i named'
      cases core : limit.checked with
      | error e => simp [core, bind, Except.bind] at taken
      | ok core' =>
        simp only [core, bind, Except.bind] at taken
        split at taken
        · cases taken
        · refine ih ?_ taken
          intro cls entry held
          rw [ExtTreeMap.getElem?_insert] at held
          split at held
          · rw [← Option.some.inj held]
            simpa using named'
          · exact before cls entry held

theorem checked_named {classes : List (String × GivenLimit)} {max : Nat}
    {named : List (String × CheckedLimit)} (taken : checked xxh3 classes max = .ok named) :
    ∀ entry ∈ named, entry.1.isEmpty = false := by
  intro entry member
  unfold checked at taken
  cases all : checkedFrom xxh3 max classes ∅ with
  | error e => simp [all, Except.map] at taken
  | ok all' =>
    simp only [all, Except.map, Except.ok.injEq] at taken
    subst taken
    obtain ⟨⟨cls, held⟩, listed, rfl⟩ := List.mem_map.mp member
    exact checkedFrom_named (by simp [HoldNames]) all cls held (ExtTreeMap.mem_toList_iff_getElem?_eq_some.mp listed)

/- Classes with names are held under hashes other than 0. -/
theorem byHash_zero {classes : List (String × CheckedLimit)}
    (names : ∀ entry ∈ classes, entry.1.isEmpty = false) : (0 : UInt64) ∉ byHash xxh3 classes := by
  have all (named : ExtTreeMap UInt64 (String × CheckedLimit)) (before : (0 : UInt64) ∉ named) :
      (0 : UInt64) ∉ classes.foldl
        (fun named entry => named.insert (classHash xxh3 entry.1) entry) named := by
    induction classes generalizing named with
    | nil => exact before
    | cons entry rest ih =>
      refine ih (fun entry member => names entry (List.mem_cons_of_mem _ member)) _ ?_
      have hashed := classHash_ne_zero xxh3 (names entry List.mem_cons_self)
      simpa [ExtTreeMap.mem_insert, hashed] using before
  exact all ∅ (by simp)

namespace Classes

theorem new_mirrored {default : CheckedLimit} {classes : List (String × GivenLimit)}
    {named : List (String × CheckedLimit)} {max : Nat}
    (taken : checked xxh3 classes max = .ok named) : (new xxh3 default named max).Mirrored where
  sound := ⟨byHash_zero (checked_named taken), by simp [new]⟩
  defaultRate := rfl
  defaultBurst := rfl
  hasShadows := by simp [new, Table.hasShadows]

/- Whatever the change, the atomics follow the table swapped in. -/
theorem change_mirrored {c : Classes} {edit : Table → Except Error Table}
    (keeps : ∀ table, edit c.table = .ok table → table.Sound) (mirrored : c.Mirrored) :
    (c.change edit).2.Mirrored := by
  unfold change
  cases edited : edit c.table with
  | error e => exact mirrored
  | ok table => exact ⟨keeps table edited, rfl, rfl, rfl⟩

theorem set_mirrored {c : Classes} {name : String} {limit : GivenLimit} (mirrored : c.Mirrored) :
    (c.set xxh3 name limit).2.Mirrored := by
  unfold set
  split
  · exact mirrored
  · rename_i some
    split
    · exact mirrored
    · refine change_mirrored ?_ mirrored
      intro table edited
      split at edited
      · cases edited
      · obtain rfl := Except.ok.inj edited
        have hashed := classHash_ne_zero xxh3 (Bool.eq_false_of_not_eq_true some)
        constructor
        · simpa [ExtTreeMap.mem_insert, hashed] using mirrored.sound.named
        · intro cls shadow
          exact (mirrored.sound.shadows cls shadow).imp_right fun known => by
            simp [ExtTreeMap.mem_insert, known]

theorem remove_mirrored {c : Classes} {name : String} (mirrored : c.Mirrored) :
    (c.remove xxh3 name).2.Mirrored := by
  refine change_mirrored ?_ mirrored
  intro table edited
  obtain rfl := Except.ok.inj edited
  constructor
  · intro zero
    exact mirrored.sound.named (ExtTreeMap.mem_of_mem_erase zero)
  · intro cls shadow
    -- Only the shadow of a class that was there goes with it.
    by_cases removed : c.table.named.contains (classHash xxh3 name)
    · simp only [removed, if_true, ExtTreeMap.mem_erase] at shadow
      exact (mirrored.sound.shadows cls shadow.2).imp_right fun known =>
        ExtTreeMap.mem_erase.mpr ⟨shadow.1, known⟩
    · simp only [removed, Bool.false_eq_true, if_false] at shadow
      refine (mirrored.sound.shadows cls shadow).imp_right fun known =>
        ExtTreeMap.mem_erase.mpr ⟨?_, known⟩
      intro same
      rw [Std.LawfulEqCmp.eq_of_compare same] at removed
      exact removed (ExtTreeMap.mem_iff_contains.mp known)

theorem setDefault_mirrored {c : Classes} {limit : GivenLimit} (mirrored : c.Mirrored) :
    (c.setDefault limit).2.Mirrored := by
  unfold setDefault
  split
  · exact mirrored
  · refine change_mirrored ?_ mirrored
    intro table edited
    obtain rfl := Except.ok.inj edited
    exact ⟨mirrored.sound.named, mirrored.sound.shadows⟩

theorem replace_mirrored {c : Classes} {classes : List (String × GivenLimit)}
    (mirrored : c.Mirrored) : (c.replace xxh3 classes).2.Mirrored := by
  unfold replace
  split
  · exact mirrored
  · rename_i named taken
    refine change_mirrored ?_ mirrored
    intro table edited
    obtain rfl := Except.ok.inj edited
    constructor
    · exact byHash_zero (checked_named taken)
    · intro cls shadow
      obtain ⟨_, kept⟩ := ExtTreeMap.mem_filter.mp shadow
      simpa only [ExtTreeMap.getKey_eq, Bool.or_eq_true, beq_iff_eq,
        ← ExtTreeMap.mem_iff_contains] using kept

theorem setShadow_mirrored {c : Classes} {name : String} {limit : Option GivenLimit}
    (mirrored : c.Mirrored) : (c.setShadow xxh3 name limit).2.Mirrored := by
  unfold setShadow
  split
  · exact mirrored
  · rename_i limit _
    refine change_mirrored ?_ mirrored
    intro table edited
    cases found : c.table.classNamed xxh3 name with
    | error e => simp [found, bind, Except.bind] at edited
    | ok cls =>
      cases limit with
      | none =>
        simp only [found, bind, Except.bind, Except.ok.injEq] at edited
        subst edited
        exact ⟨mirrored.sound.named, fun cls shadow =>
          mirrored.sound.shadows cls (ExtTreeMap.mem_of_mem_erase shadow)⟩
      | some limit =>
        simp only [found, bind, Except.bind, Except.ok.injEq] at edited
        subst edited
        refine ⟨mirrored.sound.named, ?_⟩
        intro other shadow
        rcases ExtTreeMap.mem_insert.mp shadow with same | held
        · rw [← Std.LawfulEqCmp.eq_of_compare same]
          exact Table.classNamed_known found
        · exact mirrored.sound.shadows other held

/- Shadows named one by one are of classes there are. -/
theorem shadows_known {t : Table} {shadows : List (String × CheckedLimit)}
    {before all : ExtTreeMap UInt64 CheckedLimit}
    (known : ∀ cls ∈ before, cls = 0 ∨ cls ∈ t.named)
    (named : shadows.foldlM (fun all entry => do
      let cls ← t.classNamed xxh3 entry.1
      .ok (all.insert cls entry.2)) before = .ok all) :
    ∀ cls ∈ all, cls = 0 ∨ cls ∈ t.named := by
  induction shadows generalizing before with
  | nil =>
    obtain rfl := Except.ok.inj named
    exact known
  | cons entry rest ih =>
    rw [List.foldlM_cons] at named
    cases found : t.classNamed xxh3 entry.1 with
    | error e => simp [found, bind, Except.bind] at named
    | ok cls =>
      simp only [found, bind, Except.bind] at named
      refine ih ?_ named
      intro other shadow
      rcases ExtTreeMap.mem_insert.mp shadow with same | held
      · rw [← Std.LawfulEqCmp.eq_of_compare same]
        exact Table.classNamed_known found
      · exact known other held

theorem replaceShadows_mirrored {c : Classes} {shadows : List (String × GivenLimit)}
    (mirrored : c.Mirrored) : (c.replaceShadows xxh3 shadows).2.Mirrored := by
  unfold replaceShadows
  split
  · exact mirrored
  · rename_i shadows _
    refine change_mirrored ?_ mirrored
    intro table edited
    simp only [bind, Except.bind] at edited
    split at edited
    · cases edited
    · rename_i all named
      obtain rfl := Except.ok.inj edited
      exact ⟨mirrored.sound.named, shadows_known (by simp) named⟩

end Classes

namespace KeyLimits

theorem swap_mirrored (k : KeyLimits) (table : ExtTreeMap UInt64 KeyEntry) :
    (k.swap table).Mirrored := rfl

theorem set_mirrored {k : KeyLimits} {hash : UInt64} {entry : KeyEntry} (mirrored : k.Mirrored) :
    (k.set hash entry).2.Mirrored := by
  unfold set
  split
  · exact mirrored
  · split
    · exact mirrored
    · exact swap_mirrored _ _

theorem remove_mirrored {k : KeyLimits} {hash : UInt64} (mirrored : k.Mirrored) :
    (k.remove hash).2.Mirrored := by
  unfold remove
  split
  · exact swap_mirrored _ _
  · exact mirrored

theorem replace_mirrored {k : KeyLimits} {entries : List (UInt64 × KeyEntry)}
    (mirrored : k.Mirrored) : (k.replace entries).2.Mirrored := by
  unfold replace
  split
  · exact mirrored
  · exact swap_mirrored _ _

end KeyLimits

inductive LimitChange where
  | set (name : String) (limit : GivenLimit)
  | remove (name : String)
  | setDefault (limit : GivenLimit)
  | replace (classes : List (String × GivenLimit))
  | setShadow (name : String) (limit : Option GivenLimit)
  | replaceShadows (shadows : List (String × GivenLimit))
  | setKey (hash : UInt64) (entry : KeyEntry)
  | removeKey (hash : UInt64)
  | replaceKeys (entries : List (UInt64 × KeyEntry))

variable (xxh3) in
def LimitChange.apply : LimitChange → Classes × KeyLimits → Classes × KeyLimits
  | .set name limit, (c, k) => ((c.set xxh3 name limit).2, k)
  | .remove name, (c, k) => ((c.remove xxh3 name).2, k)
  | .setDefault limit, (c, k) => ((c.setDefault limit).2, k)
  | .replace classes, (c, k) => ((c.replace xxh3 classes).2, k)
  | .setShadow name limit, (c, k) => ((c.setShadow xxh3 name limit).2, k)
  | .replaceShadows shadows, (c, k) => ((c.replaceShadows xxh3 shadows).2, k)
  | .setKey hash entry, (c, k) => (c, (k.set hash entry).2)
  | .removeKey hash, (c, k) => (c, (k.remove hash).2)
  | .replaceKeys entries, (c, k) => (c, (k.replace entries).2)

variable (xxh3) in
/- The classes and key limits a node may have: as its builder checked them, and any changes since. -/
inductive Settled : Classes × KeyLimits → Prop
  | start (default : CheckedLimit) (classes : List (String × GivenLimit)) (max maxKeys : Nat)
      (named : List (String × CheckedLimit)) (taken : checked xxh3 classes max = .ok named) :
      Settled (.new xxh3 default named max, .new maxKeys)
  | change (change : LimitChange) {limits : Classes × KeyLimits} (settled : Settled limits) :
      Settled (change.apply xxh3 limits)

theorem LimitChange.apply_mirrored (change : LimitChange) {limits : Classes × KeyLimits}
    (classes : limits.1.Mirrored) (keyLimits : limits.2.Mirrored) :
    (change.apply xxh3 limits).1.Mirrored ∧ (change.apply xxh3 limits).2.Mirrored := by
  cases change with
  | set name limit => exact ⟨Classes.set_mirrored classes, keyLimits⟩
  | remove name => exact ⟨Classes.remove_mirrored classes, keyLimits⟩
  | setDefault limit => exact ⟨Classes.setDefault_mirrored classes, keyLimits⟩
  | replace all => exact ⟨Classes.replace_mirrored classes, keyLimits⟩
  | setShadow name limit => exact ⟨Classes.setShadow_mirrored classes, keyLimits⟩
  | replaceShadows shadows => exact ⟨Classes.replaceShadows_mirrored classes, keyLimits⟩
  | setKey hash entry => exact ⟨classes, KeyLimits.set_mirrored keyLimits⟩
  | removeKey hash => exact ⟨classes, KeyLimits.remove_mirrored keyLimits⟩
  | replaceKeys entries => exact ⟨classes, KeyLimits.replace_mirrored keyLimits⟩

theorem Settled.mirrored {limits : Classes × KeyLimits} (settled : Settled xxh3 limits) :
    limits.1.Mirrored ∧ limits.2.Mirrored := by
  induction settled with
  | start default classes max maxKeys named taken =>
    exact ⟨Classes.new_mirrored taken, ExtTreeMap.size_empty.symm⟩
  | change change settled ih => exact change.apply_mirrored ih.1 ih.2

namespace Table

theorem resolveClass_limit (t : Table) (cls : UInt64) :
    (t.resolveClass cls).limit = (t.lookup cls).1 := rfl

theorem no_shadow {t : Table} (none : t.hasShadows = false) (cls : UInt64) :
    (t.resolveClass cls).shadow = .none := by
  have empty : t.shadows = ∅ := by simpa [hasShadows, ExtTreeMap.isEmpty_iff] using none
  simp [resolveClass, empty]

/- The class read back is the one resolved, its numbers as given. -/
theorem Sound.givenClass {t : Table} (sound : t.Sound) (cls : UInt64) :
    (t.givenClass cls).1.toCore = .ok (t.resolveClass cls).limit ∧
      (t.givenClass cls).2.map GivenLimit.toCore = (t.resolveClass cls).shadow.map .ok := by
  have shadow (of : UInt64) :
      (t.shadows[of]?.map (·.given)).map GivenLimit.toCore =
        (t.shadows[of]?.map (·.core)).map .ok := by
    cases t.shadows[of]? with
    | none => rfl
    | some shadow => exact congrArg some shadow.taken
  cases held : t.named[cls]? with
  | some entry =>
    have other : cls ≠ 0 := by
      rintro rfl
      exact sound.named (ExtTreeMap.mem_iff_isSome_getElem?.mpr (by simp [held]))
    simp only [Table.givenClass, resolveClass, lookup, held, other, if_false, if_true]
    exact ⟨entry.2.taken, shadow cls⟩
  | none =>
    by_cases main : cls = 0
    · subst main
      simp only [Table.givenClass, resolveClass, lookup, held, if_true]
      exact ⟨t.default.taken, shadow 0⟩
    · simp only [Table.givenClass, resolveClass, lookup, held, main, if_false, Bool.false_eq_true]
      exact ⟨t.default.taken, shadow 0⟩

theorem Sound.resolveGiven {t : Table} (sound : t.Sound)
    (overrides : ExtTreeMap UInt64 KeyEntry) (cls key : UInt64) :
    (t.resolveGiven xxh3 overrides cls key).1.toCore =
        .ok (t.resolve xxh3 overrides cls key).limit ∧
      (t.resolveGiven xxh3 overrides cls key).2.map GivenLimit.toCore =
        (t.resolve xxh3 overrides cls key).shadow.map .ok := by
  unfold Table.resolveGiven resolve
  split
  · rename_i limit held
    cases core : limit.toCore with
    | ok limit => simp [core, Except.isOk, Except.toBool]
    | error e => exact sound.givenClass cls
  · exact sound.givenClass _
  · exact sound.givenClass cls

end Table

namespace Classes

theorem Mirrored.limitOf {c : Classes} (mirrored : c.Mirrored) (cls : UInt64) :
    c.limitOf cls = (c.table.resolveClass cls).limit := by
  rw [Table.resolveClass_limit]
  unfold Classes.limitOf
  split
  · rename_i main
    simp [Table.lookup, main, mirrored.defaultRate, mirrored.defaultBurst]
  · rfl

/- Without a shadow anywhere and without a limit of its own, a key's limit is its class's alone. -/
theorem Mirrored.limitFor {c : Classes} (mirrored : c.Mirrored)
    (overrides : ExtTreeMap UInt64 KeyEntry) (cls key : UInt64) :
    c.limitFor xxh3 overrides cls key =
      ((c.table.resolve xxh3 overrides cls key).limit,
        (c.table.resolve xxh3 overrides cls key).shadow) := by
  unfold Classes.limitFor
  split
  · rfl
  · rename_i short
    simp only [Bool.or_eq_true, not_or, Bool.not_eq_true] at short
    have own : overrides[key]? = none := ExtTreeMap.getElem?_eq_none_of_contains_eq_false short.2
    have none := Table.no_shadow (mirrored.hasShadows.symm.trans short.1) cls
    simp only [Table.resolve, own, none, mirrored.limitOf]

end Classes

/- The short cuts of the request path find what the tables say. -/
theorem Shared.freshLimit_resolve {s : Shared} (classes : s.classes.Mirrored)
    (keyLimits : s.keyLimits.Mirrored) (cls key : UInt64) :
    s.freshLimit xxh3 cls key =
      ((s.classes.table.resolve xxh3 s.keyLimits.table cls key).limit,
        (s.classes.table.resolve xxh3 s.keyLimits.table cls key).shadow) := by
  unfold freshLimit
  split
  · rename_i short
    simp only [Bool.and_eq_true, Bool.not_eq_true'] at short
    have empty : s.keyLimits.table = ∅ := by
      have count : s.keyLimits.table.size = 0 := by
        rw [← keyLimits]
        simpa [KeyLimits.isEmpty] using short.1
      exact ExtTreeMap.eq_empty_iff_size_eq_zero.mpr count
    have none := Table.no_shadow (classes.hasShadows.symm.trans short.2) cls
    simp only [Table.resolve, empty, ExtTreeMap.getElem?_empty, none, classes.limitOf]
  · exact classes.limitFor _ cls key

variable {decay : Nat → Nat → ℚ}

namespace Shared

/- A slot the driver keeps though the node does not track its key takes a new key's quota. -/
theorem syncSlot_untracked {s : Shared} {n : Node} {old slot : Slot}
    (kept : s.syncSlot xxh3 n old = some (some slot)) (untracked : n.quota slot.key = none) :
    n.newKeyQuotaIn (s.resolved xxh3 slot).limit = some slot.quota ∧
      shadowQuota slot.quota (s.resolved xxh3 slot).limit (s.resolved xxh3 slot).shadow =
        some slot.shadow := by
  unfold syncSlot at kept
  cases tracked : n.quota old.key with
  | some quota =>
    simp only [tracked, Option.bind_eq_bind, Option.bind_eq_some_iff, Option.some.injEq] at kept
    obtain ⟨shadow, -, rfl⟩ := kept
    simp [tracked] at untracked
  | none =>
    simp only [tracked] at kept
    split at kept
    · simp only [Option.bind_eq_bind, Option.bind_eq_some_iff, Option.some.injEq] at kept
      obtain ⟨quota, main, shadow, beside, rfl⟩ := kept
      exact ⟨main, beside⟩
    · cases kept

variable (xxh3) in
/- What a tick leaves: the limits as they are, the factor of the node it leaves, and every slot the
   node does not track at the quotas of a new key. -/
structure Synced (s s' : Shared) (n' : Node) : Prop where
  classes : s'.classes = s.classes
  keyLimits : s'.keyLimits = s.keyLimits
  freshFactor : s'.freshFactor = n'.newKeyFactor
  untracked : ∀ slot ∈ s'.slots, n'.quota slot.key = none →
    n'.newKeyQuotaIn (s.resolved xxh3 slot).limit = some slot.quota ∧
      shadowQuota slot.quota (s.resolved xxh3 slot).limit (s.resolved xxh3 slot).shadow =
        some slot.shadow

theorem sync_synced {s s' : Shared} {n n' : Node} {now : Nat}
    (ran : s.sync xxh3 decay n now = some (s', n')) : Synced xxh3 s s' n' := by
  unfold sync at ran
  simp only [Option.bind_eq_bind, Option.bind_eq_some_iff, Option.some.injEq, Prod.mk.injEq] at ran
  obtain ⟨recorded, -, ticked, -, newKey, -, slots, mapped, rfl, rfl⟩ := ran
  refine ⟨rfl, rfl, rfl, ?_⟩
  intro slot kept untracked
  obtain ⟨old, -, synced⟩ := Reordered.mem_mapM mapped (List.reduceOption_mem_iff.mp kept)
  exact syncSlot_untracked synced untracked

/- On the same limits and factor, a first check and a tick give an untracked key the same quotas. -/
theorem freshQuota_newKey {s : Shared} {n : Node} (classes : s.classes.Mirrored)
    (keyLimits : s.keyLimits.Mirrored) (factor : s.freshFactor = n.newKeyFactor) {slot : Slot}
    (main : n.newKeyQuotaIn (s.resolved xxh3 slot).limit = some slot.quota)
    (beside : shadowQuota slot.quota (s.resolved xxh3 slot).limit (s.resolved xxh3 slot).shadow =
      some slot.shadow) :
    s.freshQuota xxh3 slot.cls slot.key = some (slot.quota, slot.shadow) := by
  unfold Node.newKeyQuotaIn Limiter.coldQuota at main
  split at main
  · unfold freshQuota
    rw [freshLimit_resolve classes keyLimits, factor]
    simp only [resolved] at main beside
    simp only [Node.newKeyFactor, main, beside, Option.bind_eq_bind, Option.bind_some]
  · cases main

end Shared

/-- Whatever the changes, the atomics say what the tables hold, every shadow is of a class there is,
    and every path to a key's limit and shadow finds what the tables resolve; a tick gives the slots
    it keeps of untracked keys what a first check gives on the factor it stores, and what one before
    it gave if the factor was the same. -/
theorem limit_paths_agree {c : Classes} {k : KeyLimits} (settled : Settled xxh3 (c, k)) :
    (c.defaultRate = c.table.default.core.rate ∧ c.defaultBurst = c.table.default.core.burst ∧
      c.hasShadows = c.table.hasShadows ∧ k.count = k.table.size) ∧
    (∀ cls ∈ c.table.shadows, cls = 0 ∨ cls ∈ c.table.named) ∧
    (∀ cls key,
      c.limitFor xxh3 k.table cls key =
        ((c.table.resolve xxh3 k.table cls key).limit,
          (c.table.resolve xxh3 k.table cls key).shadow) ∧
      (c.table.resolveGiven xxh3 k.table cls key).1.toCore =
        .ok (c.table.resolve xxh3 k.table cls key).limit ∧
      (c.table.resolveGiven xxh3 k.table cls key).2.map GivenLimit.toCore =
        (c.table.resolve xxh3 k.table cls key).shadow.map .ok) ∧
    ∀ s : Shared, s.classes = c → s.keyLimits = k →
      (∀ cls key, s.freshLimit xxh3 cls key =
        ((c.table.resolve xxh3 k.table cls key).limit,
          (c.table.resolve xxh3 k.table cls key).shadow)) ∧
      ∀ (decay : Nat → Nat → ℚ) (n : Node) (now : Nat) (s' : Shared) (n' : Node),
        s.sync xxh3 decay n now = some (s', n') →
        s'.freshFactor = n'.newKeyFactor ∧
        ∀ slot ∈ s'.slots, n'.quota slot.key = none →
          s'.freshQuota xxh3 slot.cls slot.key = some (slot.quota, slot.shadow) ∧
          (s.freshFactor = n'.newKeyFactor →
            s.freshQuota xxh3 slot.cls slot.key = some (slot.quota, slot.shadow)) := by
  obtain ⟨classes, keyLimits⟩ := settled.mirrored
  refine ⟨⟨classes.defaultRate, classes.defaultBurst, classes.hasShadows, keyLimits⟩,
    classes.sound.shadows, ?_, ?_⟩
  · intro cls key
    exact ⟨classes.limitFor _ cls key, classes.sound.resolveGiven _ cls key⟩
  · rintro s rfl rfl
    refine ⟨Shared.freshLimit_resolve classes keyLimits, ?_⟩
    intro decay n now s' n' ran
    have synced := Shared.sync_synced ran
    refine ⟨synced.freshFactor, ?_⟩
    intro slot kept untracked
    obtain ⟨main, beside⟩ := synced.untracked slot kept untracked
    refine ⟨?_, fun factor => Shared.freshQuota_newKey classes keyLimits factor main beside⟩
    refine Shared.freshQuota_newKey (by rwa [synced.classes]) (by rwa [synced.keyLimits])
      synced.freshFactor ?_ ?_
    · simpa only [Shared.resolved, synced.classes, synced.keyLimits] using main
    · simpa only [Shared.resolved, synced.classes, synced.keyLimits] using beside

end

/- What the hash of the one class named here is. -/
def sampleXxh3 (name : String) : UInt64 := if name = "pro" then 0x352ff63b0ea8f3fb else 0

/- A class with a shadow, and a key that follows the class. -/
def proChanges : List LimitChange :=
  [.setShadow "pro" (some (.new 5 .second)), .setKey 7 ("", "tenant", .cls "pro")]

/- A tick, the first check of a key, and the next tick, the node having seen the given in between. -/
def firstCheckRun (ops : List Op) : Option (Node × Shared × Slot × Shared × Node × Slot) := do
  let named ← (checked sampleXxh3 [("pro", .new 600 .minute)] 4096).toOption
  let default ← (GivenLimit.new 100 .second).checked.toOption
  let limits := proChanges.foldl (fun limits change => change.apply sampleXxh3 limits)
    (Classes.new sampleXxh3 default named 4096, KeyLimits.new 16)
  let start ← Node.sample 0 0
  let free ← start.newKeyQuotaIn limits.1.table.strictest
  let (s, n) ← Shared.sync sampleXxh3 sampleDecay
    ⟨[], limits.1, limits.2, start.newKeyFactor, free⟩ start 0
  let heard ← n.run sampleDecay ops
  let (quota, shadow) ← s.freshQuota sampleXxh3 0 7
  let slot : Slot := ⟨7, 0, ⟨0, 0, 0⟩, true, quota, shadow⟩
  let (s', n') ←
    Shared.sync sampleXxh3 sampleDecay { s with slots := slot :: s.slots } heard (ms 200)
  let kept ← s'.slots.head?
  some (heard, s, slot, s', n', kept)

theorem firstCheckRun_same : ((firstCheckRun []).any fun (_, s, _, _, n', kept) =>
    decide (n'.quota kept.key = none) && decide (s.freshFactor = n'.newKeyFactor)) = true := by
  decide +kernel

/- A peer heard of between the first check and the tick makes the node's part smaller. -/
def peerHeard : List Op := [sampleOp 1 (.ack 0 [⟨1, sampleAddress 1, 0, .alive⟩] []) (ms 100)]

theorem firstCheckRun_differs : ((firstCheckRun peerHeard).any fun (_, _, slot, _, n', kept) =>
    decide (kept.key = slot.key) && decide (n'.quota kept.key = none) &&
      decide (kept.quota ≠ slot.quota)) = true := by
  decide +kernel

theorem Settled.changes {xxh3 : String → UInt64} {limits : Classes × KeyLimits}
    (settled : Settled xxh3 limits) (changes : List LimitChange) :
    Settled xxh3 (changes.foldl (fun limits change => change.apply xxh3 limits) limits) := by
  induction changes generalizing limits with
  | nil => exact settled
  | cons change rest ih => exact ih (.change change settled)

/- What the sample run went through, step by step. -/
structure FirstCheck (ops : List Op) (n : Node) (s : Shared) (slot : Slot) (s' : Shared)
    (n' : Node) (kept : Slot) (before : Shared) (start ticked : Node) : Prop where
  settled : Settled sampleXxh3 (before.classes, before.keyLimits)
  reachable : Reachable sampleDecay start
  first : before.sync sampleXxh3 sampleDecay start 0 = some (s, ticked)
  heard : ticked.run sampleDecay ops = some n
  check : s.freshQuota sampleXxh3 slot.cls slot.key = some (slot.quota, slot.shadow)
  next : Shared.sync sampleXxh3 sampleDecay { s with slots := slot :: s.slots } n (ms 200) =
    some (s', n')
  kept : kept ∈ s'.slots

theorem firstCheckRun_steps {ops : List Op} {n n' : Node} {s s' : Shared} {slot kept : Slot}
    (ran : firstCheckRun ops = some (n, s, slot, s', n', kept)) :
    ∃ before start ticked, FirstCheck ops n s slot s' n' kept before start ticked := by
  simp only [firstCheckRun, bind, Option.bind_eq_some_iff, Option.some.injEq, Prod.mk.injEq,
    Prod.exists] at ran
  obtain ⟨named, taken, default, -, start, fresh, free, -, s, ticked, first, n, heard, quota, shadow,
    check, s', n', next, kept, head, rfl, rfl, rfl, rfl, rfl, rfl⟩ := ran
  have checked : checked sampleXxh3 [("pro", .new 600 .minute)] 4096 = .ok named := by
    cases all : checked sampleXxh3 [("pro", .new 600 .minute)] 4096 <;> simp_all [Except.toOption]
  exact ⟨_, start, ticked, (Settled.start default _ 4096 16 named checked).changes proChanges,
    .start _ _ _ _ _ start fresh, first, heard, check, next, List.mem_of_mem_head? head⟩

theorem limit_paths_agree_first_check :
    ∃ (n n' : Node) (s s' : Shared) (kept : Slot),
      Settled sampleXxh3 (s.classes, s.keyLimits) ∧
      s.sync sampleXxh3 sampleDecay n (ms 200) = some (s', n') ∧ kept ∈ s'.slots ∧
      n'.quota kept.key = none ∧
      s.freshQuota sampleXxh3 kept.cls kept.key = some (kept.quota, kept.shadow) := by
  obtain ⟨⟨n, s, slot, s', n', kept⟩, ran, same⟩ := (Option.any_eq_true _ _).mp firstCheckRun_same
  simp only [Bool.and_eq_true, decide_eq_true_eq] at same
  obtain ⟨before, start, ticked, steps⟩ := firstCheckRun_steps ran
  have synced := Shared.sync_synced steps.first
  have settled : Settled sampleXxh3 (s.classes, s.keyLimits) := by
    rw [synced.classes, synced.keyLimits]
    exact steps.settled
  have agree := (limit_paths_agree settled).2.2.2 { s with slots := slot :: s.slots } rfl rfl
  exact ⟨n, n', { s with slots := slot :: s.slots }, s', kept, settled, steps.next, steps.kept, same.1,
    ((agree.2 _ _ _ _ _ steps.next).2 kept steps.kept same.1).2 same.2⟩

/- What the node hears between two ticks changes what a new key gets. -/
theorem first_quota_outdated :
    ¬ ∀ (xxh3 : String → UInt64) (decay : Nat → Nat → ℚ) (before s s' : Shared)
      (start ticked n n' : Node) (ops : List Op) (now next : Nat) (slot kept : Slot),
      Settled xxh3 (before.classes, before.keyLimits) → Reachable decay start →
      before.sync xxh3 decay start now = some (s, ticked) → ticked.run decay ops = some n →
      s.freshQuota xxh3 slot.cls slot.key = some (slot.quota, slot.shadow) →
      Shared.sync xxh3 decay { s with slots := slot :: s.slots } n next = some (s', n') →
      kept ∈ s'.slots → kept.key = slot.key → n'.quota kept.key = none →
      kept.quota = slot.quota ∧ kept.shadow = slot.shadow := by
  intro claim
  obtain ⟨⟨n, s, slot, s', n', kept⟩, ran, differs⟩ :=
    (Option.any_eq_true _ _).mp firstCheckRun_differs
  simp only [Bool.and_eq_true, decide_eq_true_eq] at differs
  obtain ⟨⟨key, untracked⟩, changed⟩ := differs
  obtain ⟨before, start, ticked, steps⟩ := firstCheckRun_steps ran
  exact changed (claim _ _ _ _ _ _ _ _ _ _ _ _ _ _ steps.settled steps.reachable steps.first
    steps.heard steps.check steps.next steps.kept key untracked).1

end Rateguard
