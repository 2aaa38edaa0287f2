import Rateguard.LimitPaths
import Rateguard.WriterLock

/- Changes of the classes and the key limits: each takes effect whole or not at all, and by however
   many threads they are made none is lost. -/
namespace Rateguard
open Std (ExtTreeMap)

inductive ClassesCall where
  | set (name : String) (limit : GivenLimit)
  | remove (name : String)
  | setDefault (limit : GivenLimit)
  | replace (classes : List (String × GivenLimit))
  | setShadow (name : String) (limit : Option GivenLimit)
  | replaceShadows (shadows : List (String × GivenLimit))

inductive KeyLimitsCall where
  | set (hash : UInt64) (entry : KeyEntry)
  | remove (hash : UInt64)
  | replace (entries : List (UInt64 × KeyEntry))

abbrev ChangeAnswer := Except Error Bool

def done (result : Except Error Unit) : ChangeAnswer := result.map fun _ => true

section
variable (xxh3 : String → UInt64)

def ClassesCall.perform (c : Classes) : ClassesCall → ChangeAnswer × Classes
  | .set name limit => (c.set xxh3 name limit).map done id
  | .remove name => (c.remove xxh3 name).map .ok id
  | .setDefault limit => (c.setDefault limit).map done id
  | .replace classes => (c.replace xxh3 classes).map done id
  | .setShadow name limit => (c.setShadow xxh3 name limit).map done id
  | .replaceShadows shadows => (c.replaceShadows xxh3 shadows).map done id

def KeyLimitsCall.perform (k : KeyLimits) : KeyLimitsCall → ChangeAnswer × KeyLimits
  | .set hash entry => (k.set hash entry).map done id
  | .remove hash => (k.remove hash).map .ok id
  | .replace entries => (k.replace entries).map done id

def edits {τ : Type} (edit : τ → Except Error τ) : WriterLock.Prepared τ ChangeAnswer :=
  .edit fun table => match edit table with
    | .error e => (.error e, none)
    | .ok edited => (.ok true, some edited)

/- What a call checks before it takes the writer's lock, and what it does to its copy of the table
   while it holds it. -/
def ClassesCall.prepare (max : Nat) : ClassesCall → WriterLock.Prepared Table ChangeAnswer
  | .set name limit =>
    if name.isEmpty then .refused (.error .emptyClassName)
    else match limit.checked with
      | .error e => .refused (.error e)
      | .ok core => edits fun table =>
        if !table.named.contains (classHash xxh3 name) && table.named.size == max
          then .error (.tooManyClasses max)
          else .ok { table with named := table.named.insert (classHash xxh3 name) (name, core) }
  | .remove name => .edit fun table =>
    let removed := table.named.contains (classHash xxh3 name)
    (.ok removed, some { table with
      named := table.named.erase (classHash xxh3 name)
      shadows := if removed then table.shadows.erase (classHash xxh3 name) else table.shadows })
  | .setDefault limit =>
    match limit.checked with
    | .error e => .refused (.error e)
    | .ok core => edits fun table => .ok { table with default := core }
  | .replace classes =>
    match checked xxh3 classes max with
    | .error e => .refused (.error e)
    | .ok classes => edits fun table =>
      let named := byHash xxh3 classes
      .ok { table with
        named
        shadows := table.shadows.filter fun cls _ => cls == 0 || named.contains cls }
  | .setShadow name limit =>
    match limit.mapM GivenLimit.checked with
    | .error e => .refused (.error e)
    | .ok limit => edits fun table => do
      let cls ← table.classNamed xxh3 name
      match limit with
      | some limit => .ok { table with shadows := table.shadows.insert cls limit }
      | none => .ok { table with shadows := table.shadows.erase cls }
  | .replaceShadows shadows =>
    match shadows.mapM fun entry => entry.2.checked.map (entry.1, ·) with
    | .error e => .refused (.error e)
    | .ok shadows => edits fun table => do
      let all ← shadows.foldlM (fun all entry => do
        let cls ← table.classNamed xxh3 entry.1
        .ok (all.insert cls entry.2)) ∅
      .ok { table with shadows := all }

def KeyLimitsCall.prepare (max : Nat) :
    KeyLimitsCall → WriterLock.Prepared (ExtTreeMap UInt64 KeyEntry) ChangeAnswer
  | .set hash entry =>
    match checkKeyLimit entry.2.2 with
    | .error e => .refused (.error e)
    | .ok _ => edits fun table =>
      if !table.contains hash && table.size == max then .error (.tooManyKeyLimits max)
      else .ok (table.insert hash entry)
  | .remove hash => .edit fun table =>
    if table.contains hash then (.ok true, some (table.erase hash)) else (.ok false, none)
  | .replace entries =>
    match KeyLimits.checkedFrom max entries ∅ with
    | .error e => .refused (.error e)
    | .ok named => edits fun _ => .ok named

/- The atomics of the default class and of the shadows are stored one by one, then the table is
   swapped in. -/
def Classes.shared : WriterLock.Shared Classes Table where
  view c := c.table
  stores table := [
    fun c => { c with defaultRate := table.default.core.rate },
    fun c => { c with defaultBurst := table.default.core.burst },
    fun c => { c with hasShadows := table.hasShadows }]
  swap table c := { c with table }
  view_store table store c mem := by
    simp only [List.mem_cons, List.not_mem_nil, or_false] at mem
    rcases mem with rfl | rfl | rfl
    · rfl
    · rfl
    · rfl

/- The count is stored first. -/
def KeyLimits.shared : WriterLock.Shared KeyLimits (ExtTreeMap UInt64 KeyEntry) where
  view k := k.table
  stores table := [fun k => { k with count := table.size }]
  swap table k := { k with table }
  view_store table store k mem := by
    rw [List.mem_singleton.mp mem]

section Alone
variable {χ : Type} {call : χ}

end Alone

variable {xxh3}

theorem Classes.change_error {c : Classes} {edit : Table → Except Error Table} {e : Error}
    (failed : done (c.change edit).1 = .error e) : (c.change edit).2 = c := by
  unfold Classes.change at failed ⊢
  cases edited : edit c.table with
  | error _ => rfl
  | ok _ => simp [edited, done, Except.map] at failed

theorem ClassesCall.perform_cases (c : Classes) (call : ClassesCall) :
    (∃ e, call.perform xxh3 c = (.error e, c)) ∨ ∃ answer edit,
      call.perform xxh3 c = (answer, (c.change edit).2) ∧
        ∀ e, answer = .error e → done (c.change edit).1 = .error e := by
  have changed (edit : Table → Except Error Table) : ∃ answer edit',
      (c.change edit).map done id = (answer, (c.change edit').2) ∧
        ∀ e, answer = .error e → done (c.change edit').1 = .error e :=
    ⟨_, edit, rfl, fun _ failed => failed⟩
  cases call with
  | set name limit =>
    simp only [perform, Classes.set]
    split
    · exact .inl ⟨_, rfl⟩
    · split
      · exact .inl ⟨_, rfl⟩
      · exact .inr (changed _)
  | remove name => exact .inr ⟨_, _, rfl, fun e failed => by simp at failed⟩
  | setDefault limit =>
    simp only [perform, Classes.setDefault]
    split
    · exact .inl ⟨_, rfl⟩
    · exact .inr (changed _)
  | replace classes =>
    simp only [perform, Classes.replace]
    split
    · exact .inl ⟨_, rfl⟩
    · exact .inr (changed _)
  | setShadow name limit =>
    simp only [perform, Classes.setShadow]
    split
    · exact .inl ⟨_, rfl⟩
    · exact .inr (changed _)
  | replaceShadows shadows =>
    simp only [perform, Classes.replaceShadows]
    split
    · exact .inl ⟨_, rfl⟩
    · exact .inr (changed _)

theorem ClassesCall.failed {c : Classes} {call : ClassesCall} {e : Error}
    (failed : (call.perform xxh3 c).1 = .error e) : (call.perform xxh3 c).2 = c := by
  rcases @perform_cases xxh3 c call with ⟨_, refused⟩ | ⟨answer, edit, performed, error⟩
  · rw [refused]
  · rw [performed] at failed ⊢
    exact Classes.change_error (error e failed)

theorem KeyLimitsCall.failed {k : KeyLimits} {call : KeyLimitsCall} {e : Error}
    (failed : (call.perform k).1 = .error e) : (call.perform k).2 = k := by
  cases call with
  | set hash entry =>
    simp only [perform, Prod.map_fst, Prod.map_snd, id, KeyLimits.set] at failed ⊢
    split at failed
    · rfl
    · split at failed
      · rename_i full
        rw [if_pos full]
      · simp [done, Except.map] at failed
  | remove hash => simp [perform] at failed
  | replace entries =>
    simp only [perform, Prod.map_fst, Prod.map_snd, id, KeyLimits.replace] at failed ⊢
    split at failed
    · rfl
    · simp [done, Except.map] at failed

/- What a map holds once entries are inserted one after another: of a key the last. -/
theorem inserted_get {α β : Type} (hash : α → UInt64) (value : α → β) (entries : List α)
    (before : ExtTreeMap UInt64 β) (key : UInt64) :
    (entries.foldl (fun all entry => all.insert (hash entry) (value entry)) before)[key]? =
      ((entries.reverse.find? fun entry => hash entry == key).map value).or before[key]? := by
  induction entries generalizing before with
  | nil => rfl
  | cons entry rest ih =>
    rw [List.foldl_cons, ih, List.reverse_cons, List.find?_append, Option.map_or, Option.or_assoc]
    congr 1
    by_cases same : hash entry = key
    · simp [same]
    · have apart : (hash entry == key) = false := by simpa using same
      rw [ExtTreeMap.getElem?_insert, if_neg]
      · simp [apart]
      · exact fun equal => same (Std.LawfulEqCmp.eq_of_compare equal)

theorem byHash_get (classes : List (String × CheckedLimit)) (key : UInt64) :
    (byHash xxh3 classes)[key]? =
      classes.reverse.find? fun entry => classHash xxh3 entry.1 == key := by
  have get := inserted_get (fun entry : String × CheckedLimit => classHash xxh3 entry.1)
    (fun entry => entry) classes ∅ key
  rw [byHash, get]
  simp

/- A list of classes that is accepted: every limit of it is taken, and no more names than allowed. -/
theorem checkedFrom_spec {max : Nat} {classes : List (String × GivenLimit)}
    {named all : ExtTreeMap UInt64 (String × CheckedLimit)} (fits : named.size ≤ max)
    (taken : checkedFrom xxh3 max classes named = .ok all) : all.size ≤ max ∧
      ∃ cores : List (String × CheckedLimit),
        classes = cores.map (fun entry => (entry.1, entry.2.given)) ∧
        all = cores.foldl (fun all entry => all.insert (classHash xxh3 entry.1) entry) named := by
  induction classes generalizing named with
  | nil =>
    obtain rfl := Except.ok.inj taken
    exact ⟨fits, [], rfl, rfl⟩
  | cons head rest ih =>
    obtain ⟨name, limit⟩ := head
    rw [checkedFrom] at taken
    split at taken
    · cases taken
    · cases core : limit.checked with
      | error e => simp [core, bind, Except.bind] at taken
      | ok core' =>
        simp only [core, bind, Except.bind] at taken
        split at taken
        · cases taken
        · rename_i room
          obtain ⟨fits, cores, rfl, rfl⟩ := ih (Nat.not_lt.mp room) taken
          refine ⟨fits, (name, core') :: cores, ?_, rfl⟩
          rw [List.map_cons, GivenLimit.checked_given core]

/- Taken alone the map is that of the classes by the hash of their names. -/
theorem checkedFrom_byHash {max : Nat} {classes : List (String × GivenLimit)}
    {all : ExtTreeMap UInt64 (String × CheckedLimit)}
    (taken : checkedFrom xxh3 max classes ∅ = .ok all) : all.size ≤ max ∧
      ∃ cores, classes = cores.map (fun entry => (entry.1, entry.2.given)) ∧
        all = byHash xxh3 cores :=
  checkedFrom_spec (Nat.zero_le max) taken

theorem byHash_keyed {classes : List (String × CheckedLimit)} {key : UInt64}
    {entry : String × CheckedLimit} (held : (byHash xxh3 classes)[key]? = some entry) :
    classHash xxh3 entry.1 = key := by
  rw [byHash_get] at held
  simpa using List.find?_some held

/- Taken out of their map and put in one again, classes are where they were. -/
theorem byHash_values (classes : List (String × CheckedLimit)) :
    byHash xxh3 ((byHash xxh3 classes).toList.map (·.2)) = byHash xxh3 classes := by
  refine ExtTreeMap.ext_getElem? fun key => ?_
  rw [byHash_get ((byHash xxh3 classes).toList.map (·.2))]
  cases found : ((byHash xxh3 classes).toList.map (·.2)).reverse.find?
      fun entry => classHash xxh3 entry.1 == key with
  | some entry =>
    have hashed : classHash xxh3 entry.1 = key := by simpa using List.find?_some found
    have mem := List.mem_reverse.mp (List.mem_of_find?_eq_some found)
    obtain ⟨⟨own, _⟩, listed, rfl⟩ := List.mem_map.mp mem
    have held := ExtTreeMap.mem_toList_iff_getElem?_eq_some.mp listed
    rw [← hashed, byHash_keyed held]
    exact held.symm
  | none =>
    cases held : (byHash xxh3 classes)[key]? with
    | none => rfl
    | some entry =>
      have absent := List.find?_eq_none.mp found entry (List.mem_reverse.mpr
        (List.mem_map.mpr ⟨(key, entry), ExtTreeMap.mem_toList_iff_getElem?_eq_some.mpr held, rfl⟩))
      simp [byHash_keyed held] at absent

/- Of a name given twice the last limit is taken, and of as many names as there may be. -/
theorem checked_byHash {max : Nat} {classes : List (String × GivenLimit)}
    {named : List (String × CheckedLimit)} (taken : checked xxh3 classes max = .ok named) :
    (byHash xxh3 named).size ≤ max ∧ ∀ key : UInt64,
      ((byHash xxh3 named)[key]?.map fun entry => (entry.1, entry.2.given)) =
        classes.reverse.find? fun entry => classHash xxh3 entry.1 == key := by
  unfold checked at taken
  cases all : checkedFrom xxh3 max classes ∅ with
  | error e => simp [all, Except.map] at taken
  | ok all' =>
    simp only [all, Except.map, Except.ok.injEq] at taken
    subst taken
    obtain ⟨fits, cores, rfl, rfl⟩ := checkedFrom_byHash all
    rw [byHash_values]
    refine ⟨fits, fun key => ?_⟩
    rw [byHash_get, ← List.map_reverse, List.find?_map]
    rfl

theorem KeyLimits.checkedFrom_spec {max : Nat} {entries : List (UInt64 × KeyEntry)}
    {named all : ExtTreeMap UInt64 KeyEntry} (fits : named.size ≤ max)
    (taken : KeyLimits.checkedFrom max entries named = .ok all) : all.size ≤ max ∧
      all = entries.foldl (fun all entry => all.insert entry.1 entry.2) named := by
  induction entries generalizing named with
  | nil =>
    obtain rfl := Except.ok.inj taken
    exact ⟨fits, rfl⟩
  | cons head rest ih =>
    obtain ⟨hash, entry⟩ := head
    rw [KeyLimits.checkedFrom] at taken
    cases checked : checkKeyLimit entry.2.2 with
    | error e => simp [checked, bind, Except.bind] at taken
    | ok _ =>
      simp only [checked, bind, Except.bind] at taken
      split at taken
      · cases taken
      · rename_i room
        exact ih (Nat.not_lt.mp room) taken

theorem shadows_spec {t : Table} {shadows : List (String × GivenLimit)}
    {cores : List (String × CheckedLimit)} {all : ExtTreeMap UInt64 CheckedLimit}
    (taken : (shadows.mapM fun entry => entry.2.checked.map (entry.1, ·)) = .ok cores)
    (named : cores.foldlM (fun all entry => do
      let cls ← t.classNamed xxh3 entry.1
      .ok (all.insert cls entry.2)) (∅ : ExtTreeMap UInt64 CheckedLimit) = .ok all) :
    shadows = cores.map (fun entry => (entry.1, entry.2.given)) ∧
      all = cores.foldl (fun all entry => all.insert (classHash xxh3 entry.1) entry.2) ∅ := by
  constructor
  · clear named
    induction shadows generalizing cores with
    | nil =>
      obtain rfl := Except.ok.inj taken
      rfl
    | cons head rest ih =>
      rw [List.mapM_cons] at taken
      cases core : head.2.checked with
      | error e => simp [core, bind, Except.bind, Except.map] at taken
      | ok core' =>
        cases others : rest.mapM fun entry => entry.2.checked.map (entry.1, ·) with
        | error e =>
          rw [core, others] at taken
          cases taken
        | ok cores' =>
          rw [core, others] at taken
          obtain rfl := Except.ok.inj taken
          rw [List.map_cons, ← ih others, GivenLimit.checked_given core]
  · clear taken
    generalize (∅ : ExtTreeMap UInt64 CheckedLimit) = before at named ⊢
    induction cores generalizing before with
    | nil => exact (Except.ok.inj named).symm
    | cons head rest ih =>
      rw [List.foldlM_cons] at named
      cases found : t.classNamed xxh3 head.1 with
      | error e => simp [found, bind, Except.bind] at named
      | ok cls =>
        simp only [found, bind, Except.bind] at named
        have hash : cls = classHash xxh3 head.1 := by
          unfold Table.classNamed at found
          split at found
          · rename_i empty
            rw [classHash, if_pos empty, ← Except.ok.inj found]
          · split at found
            · exact (Except.ok.inj found).symm
            · cases found
        rw [List.foldl_cons, ← hash]
        exact ih _ named

/- No more classes and no more key limits than there may be. -/
def Classes.Fits (c : Classes) : Prop := c.table.named.size ≤ c.max

def KeyLimits.Fits (k : KeyLimits) : Prop := k.table.size ≤ k.max

theorem size_insert_fits {β : Type} {held : ExtTreeMap UInt64 β} {max : Nat} {key : UInt64}
    {value : β} (fits : held.size ≤ max)
    (room : ¬(!held.contains key && held.size == max) = true) :
    (held.insert key value).size ≤ max := by
  rw [ExtTreeMap.size_insert]
  split
  · exact fits
  · rename_i absent
    have full : held.size ≠ max := by simpa [absent] using room
    omega

theorem Classes.Fits.change {c : Classes} {edit : Table → Except Error Table} (fits : c.Fits)
    (keeps : ∀ table, edit c.table = .ok table → table.named.size ≤ c.max) :
    (c.change edit).2.Fits := by
  unfold Classes.change
  cases edited : edit c.table with
  | error e => exact fits
  | ok table => exact keeps table edited

theorem ClassesCall.fits {c : Classes} (fits : c.Fits) (call : ClassesCall) :
    (call.perform xxh3 c).2.Fits := by
  cases call with
  | set name limit =>
    simp only [perform, Prod.map_snd, id, Classes.set]
    split
    · exact fits
    · split
      · exact fits
      · refine fits.change fun table edited => ?_
        split at edited
        · cases edited
        · rename_i room
          obtain rfl := Except.ok.inj edited
          exact size_insert_fits fits room
  | remove name =>
    refine fits.change fun table edited => ?_
    obtain rfl := Except.ok.inj edited
    exact ExtTreeMap.size_erase_le.trans fits
  | setDefault limit =>
    simp only [perform, Prod.map_snd, id, Classes.setDefault]
    split
    · exact fits
    · refine fits.change fun table edited => ?_
      obtain rfl := Except.ok.inj edited
      exact fits
  | replace classes =>
    simp only [perform, Prod.map_snd, id, Classes.replace]
    split
    · exact fits
    · rename_i taken
      refine fits.change fun table edited => ?_
      obtain rfl := Except.ok.inj edited
      exact (checked_byHash taken).1
  | setShadow name limit =>
    simp only [perform, Prod.map_snd, id, Classes.setShadow]
    split
    · exact fits
    · rename_i limit _
      refine fits.change fun table edited => ?_
      cases found : c.table.classNamed xxh3 name with
      | error e => simp [found, bind, Except.bind] at edited
      | ok cls =>
        simp only [found, bind, Except.bind] at edited
        cases limit with
        | none =>
          obtain rfl := Except.ok.inj edited
          exact fits
        | some limit =>
          obtain rfl := Except.ok.inj edited
          exact fits
  | replaceShadows shadows =>
    simp only [perform, Prod.map_snd, id, Classes.replaceShadows]
    split
    · exact fits
    · refine fits.change fun table edited => ?_
      simp only [bind, Except.bind] at edited
      split at edited
      · cases edited
      · obtain rfl := Except.ok.inj edited
        exact fits

theorem KeyLimitsCall.fits {k : KeyLimits} (fits : k.Fits) (call : KeyLimitsCall) :
    (call.perform k).2.Fits := by
  cases call with
  | set hash entry =>
    simp only [perform, Prod.map_snd, id, KeyLimits.set]
    split
    · exact fits
    · split
      · exact fits
      · rename_i room
        exact size_insert_fits fits room
  | remove hash =>
    simp only [perform, Prod.map_snd, id, KeyLimits.remove]
    split
    · exact ExtTreeMap.size_erase_le.trans fits
    · exact fits
  | replace entries =>
    simp only [perform, Prod.map_snd, id, KeyLimits.replace]
    split
    · exact fits
    · rename_i taken
      exact (KeyLimits.checkedFrom_spec (Nat.zero_le _) taken).1

theorem Settled.fits {limits : Classes × KeyLimits} (settled : Settled xxh3 limits) :
    limits.1.Fits ∧ limits.2.Fits := by
  induction settled with
  | start default classes max maxKeys named taken =>
    exact ⟨(checked_byHash taken).1, Nat.zero_le _⟩
  | @change change limits _ ih =>
    obtain ⟨c, k⟩ := limits
    obtain ⟨fits, fitsKeys⟩ := ih
    cases change with
    | set name limit => exact ⟨ClassesCall.fits fits (.set name limit), fitsKeys⟩
    | remove name => exact ⟨ClassesCall.fits fits (.remove name), fitsKeys⟩
    | setDefault limit => exact ⟨@ClassesCall.fits xxh3 _ fits (.setDefault limit), fitsKeys⟩
    | replace classes => exact ⟨ClassesCall.fits fits (.replace classes), fitsKeys⟩
    | setShadow name limit => exact ⟨ClassesCall.fits fits (.setShadow name limit), fitsKeys⟩
    | replaceShadows shadows => exact ⟨ClassesCall.fits fits (.replaceShadows shadows), fitsKeys⟩
    | setKey hash entry => exact ⟨fits, KeyLimitsCall.fits fitsKeys (.set hash entry)⟩
    | removeKey hash => exact ⟨fits, KeyLimitsCall.fits fitsKeys (.remove hash)⟩
    | replaceKeys entries => exact ⟨fits, KeyLimitsCall.fits fitsKeys (.replace entries)⟩

/- Every named class at once: each has the last limit its name is given, and where it was there
   before the shadow it had. -/
structure ReplacedBy (xxh3 : String → UInt64) (classes : List (String × GivenLimit))
    (c c' : Classes) : Prop where
  named : ∀ cls : UInt64, (c'.table.named[cls]?.map fun entry => (entry.1, entry.2.given)) =
    classes.reverse.find? fun entry => classHash xxh3 entry.1 == cls
  shadows : ∀ cls : UInt64, c'.table.shadows[cls]? =
    if cls = 0 ∨ cls ∈ c'.table.named then c.table.shadows[cls]? else none
  default : c'.table.default = c.table.default

structure ShadowedBy (xxh3 : String → UInt64) (shadows : List (String × GivenLimit))
    (c c' : Classes) : Prop where
  shadows : ∀ cls : UInt64, c'.table.shadows[cls]?.map (·.given) =
    (shadows.reverse.find? fun entry => classHash xxh3 entry.1 == cls).map (·.2)
  named : c'.table.named = c.table.named
  default : c'.table.default = c.table.default

theorem kept_get (shadows : ExtTreeMap UInt64 CheckedLimit)
    (named : ExtTreeMap UInt64 (String × CheckedLimit)) (cls : UInt64) :
    (shadows.filter fun cls _ => cls == 0 || named.contains cls)[cls]? =
      if cls = 0 ∨ cls ∈ named then shadows[cls]? else none := by
  have kept : (cls == 0 || named.contains cls) = true ↔ cls = 0 ∨ cls ∈ named := by
    rw [Bool.or_eq_true, beq_iff_eq, ← ExtTreeMap.mem_iff_contains]
  rw [ExtTreeMap.getElem?_filter']
  by_cases there : cls = 0 ∨ cls ∈ named
  · rw [if_pos there, kept.mpr there]
    cases shadows[cls]? with
    | none => rfl
    | some _ => rfl
  · rw [if_neg there, Bool.eq_false_of_not_eq_true (mt kept.mp there)]
    cases shadows[cls]? with
    | none => rfl
    | some _ => rfl

theorem Classes.replaced {c : Classes} {classes : List (String × GivenLimit)}
    (replaced : (c.replace xxh3 classes).1 = .ok ()) :
    ReplacedBy xxh3 classes c (c.replace xxh3 classes).2 := by
  unfold Classes.replace at replaced ⊢
  split at replaced
  · cases replaced
  · rename_i named taken
    exact ⟨(checked_byHash taken).2, kept_get c.table.shadows (byHash xxh3 named), rfl⟩

theorem Classes.shadowed {c : Classes} {shadows : List (String × GivenLimit)}
    (replaced : (c.replaceShadows xxh3 shadows).1 = .ok ()) :
    ShadowedBy xxh3 shadows c (c.replaceShadows xxh3 shadows).2 := by
  unfold Classes.replaceShadows at replaced ⊢
  cases taken : shadows.mapM fun entry => entry.2.checked.map (entry.1, ·) with
  | error e => simp [taken] at replaced
  | ok cores =>
    simp only [taken, Classes.change, bind, Except.bind] at replaced ⊢
    split at replaced
    · cases replaced
    · rename_i table edited
      split at edited
      · cases edited
      · rename_i all named
        obtain rfl := Except.ok.inj edited
        obtain ⟨rfl, rfl⟩ := shadows_spec taken named
        refine ⟨fun cls => ?_, rfl, rfl⟩
        dsimp only
        rw [inserted_get (fun entry : String × CheckedLimit => classHash xxh3 entry.1),
          ← List.map_reverse, List.find?_map, Option.map_map]
        simp [Function.comp_def]

theorem KeyLimits.replaced {k : KeyLimits} {entries : List (UInt64 × KeyEntry)}
    (replaced : (k.replace entries).1 = .ok ()) (hash : UInt64) :
    (k.replace entries).2.table[hash]? =
      (entries.reverse.find? fun entry => entry.1 == hash).map (·.2) := by
  unfold KeyLimits.replace at replaced ⊢
  split at replaced
  · cases replaced
  · rename_i named taken
    obtain ⟨_, rfl⟩ := KeyLimits.checkedFrom_spec (Nat.zero_le _) taken
    refine (inserted_get (fun entry : UInt64 × KeyEntry => entry.1) (·.2) entries ∅ hash).trans ?_
    simp

variable (xxh3)

def ClassesCall.performAll (start : Classes) (calls : List ClassesCall) : Classes :=
  calls.foldl (fun c call => (call.perform xxh3 c).2) start

def KeyLimitsCall.performAll (start : KeyLimits) (calls : List KeyLimitsCall) : KeyLimits :=
  calls.foldl (fun k call => (call.perform k).2) start

variable {xxh3}

end

end Rateguard
