import Rateguard.Limiter

/- The classes of limits of a node, the limits of single keys over them, and what changes them.
   The hash of a class's name is a parameter. A change that fails leaves everything as it was. -/
namespace Rateguard
open Std (ExtTreeMap)

inductive Period where
  | second
  | minute
  | hour
  deriving DecidableEq, Repr

def Period.seconds : Period → Nat
  | .second => 1
  | .minute => 60
  | .hour => 3600

structure GivenLimit where
  count : Nat
  period : Period
  burst : Nat
  burst_pos : 0 < burst

instance : DecidableEq GivenLimit := fun a b =>
  decidable_of_iff (a.count = b.count ∧ a.period = b.period ∧ a.burst = b.burst) (by
    cases a
    cases b
    simp)

def GivenLimit.new (count : Nat) (period : Period) : GivenLimit where
  count
  period
  burst := min (max (count / 20) 1) maxBurst
  burst_pos := lt_min (lt_of_lt_of_le Nat.one_pos (le_max_right _ _)) (by decide)

def GivenLimit.withBurst (limit : GivenLimit) (burst : Nat) : GivenLimit :=
  { limit with burst := max burst 1, burst_pos := lt_of_lt_of_le Nat.one_pos (le_max_right _ _) }

def GivenLimit.ratePerSec (limit : GivenLimit) : ℚ := limit.count / limit.period.seconds

inductive Error where
  | zeroLimit
  | tooLargeBurst (burst : Nat)
  | emptyClassName
  | tooManyClasses (max : Nat)
  | tooManyKeyLimits (max : Nat)
  | unknownClass (name : String)
  deriving DecidableEq, Repr

/- The limit as the core takes it. -/
def GivenLimit.toCore (limit : GivenLimit) : Except Error Limit :=
  if limit.count = 0 then .error .zeroLimit
  else if maxBurst < limit.burst then .error (.tooLargeBurst limit.burst)
  else .ok ⟨limit.ratePerSec, limit.burst⟩

structure CheckedLimit where
  given : GivenLimit
  core : Limit
  taken : given.toCore = .ok core
  deriving DecidableEq

def GivenLimit.checked (limit : GivenLimit) : Except Error CheckedLimit :=
  match taken : limit.toCore with
  | .ok core => .ok ⟨limit, core, taken⟩
  | .error e => .error e

theorem GivenLimit.checked_given {limit : GivenLimit} {taken : CheckedLimit}
    (h : limit.checked = .ok taken) : taken.given = limit := by
  unfold checked at h
  split at h
  · rw [← Except.ok.inj h]
  · simp at h

/- What the core is handed it accepts. -/
theorem CheckedLimit.valid (limit : CheckedLimit) : limit.core.Valid := by
  obtain ⟨given, core, taken⟩ := limit
  unfold GivenLimit.toCore at taken
  split at taken
  · simp at taken
  · rename_i some
    split at taken
    · simp at taken
    · rename_i fits
      obtain rfl := Except.ok.inj taken
      refine ⟨?_, given.burst_pos, Nat.not_lt.mp fits⟩
      have count : (0 : ℚ) < given.count := by exact_mod_cast Nat.pos_of_ne_zero some
      have period : (0 : ℚ) < given.period.seconds := by
        cases given.period <;> simp [Period.seconds]
      exact div_pos count period

/- The limit of one key: its own numbers, or those of a class. -/
inductive KeyLimit where
  | limit (limit : GivenLimit)
  | cls (name : String)
  deriving DecidableEq

/- The class and the key as given, and the limit. -/
abbrev KeyEntry := String × String × KeyLimit

structure Resolved where
  limit : Limit
  known : Bool
  shadow : Option Limit
  deriving DecidableEq

/- The classes as of one moment, the shadows by the hash of their class. -/
structure Table where
  default : CheckedLimit
  named : ExtTreeMap UInt64 (String × CheckedLimit)
  shadows : ExtTreeMap UInt64 CheckedLimit

section
variable (xxh3 : String → UInt64)

/- 0 for the default class, never 0 for another. -/
def classHash (name : String) : UInt64 := if name.isEmpty then 0 else max (xxh3 name) 1

theorem classHash_ne_zero {name : String} (named : name.isEmpty = false) :
    classHash xxh3 name ≠ 0 := by
  intro zero
  simp only [classHash, named, Bool.false_eq_true, if_false, Max.max] at zero
  split at zero <;> simp_all

namespace Table

def lookup (t : Table) (cls : UInt64) : Limit × Bool :=
  if cls = 0 then (t.default.core, true)
  else match t.named[cls]? with
    | some (_, limit) => (limit.core, true)
    | none => (t.default.core, false)

/- A class's limit and the shadow of the class it came from. -/
def resolveClass (t : Table) (cls : UInt64) : Resolved :=
  let (limit, known) := t.lookup cls
  let shadowOf := if known then cls else 0
  ⟨limit, known, t.shadows[shadowOf]?.map (·.core)⟩

def resolve (t : Table) (overrides : ExtTreeMap UInt64 KeyEntry) (cls key : UInt64) : Resolved :=
  match overrides[key]? with
  | some (_, _, .limit limit) =>
    match limit.toCore with
    | .ok limit => ⟨limit, true, none⟩
    | .error _ => t.resolveClass cls
  | some (_, _, .cls name) => t.resolveClass (classHash xxh3 name)
  | none => t.resolveClass cls

def givenClass (t : Table) (cls : UInt64) : GivenLimit × Option GivenLimit :=
  let (limit, shadowOf) := match t.named[cls]? with
    | some (_, limit) => (limit.given, cls)
    | none => (t.default.given, 0)
  (limit, t.shadows[shadowOf]?.map (·.given))

/- What resolve says, with the limits as given. -/
def resolveGiven (t : Table) (overrides : ExtTreeMap UInt64 KeyEntry) (cls key : UInt64) :
    GivenLimit × Option GivenLimit :=
  match overrides[key]? with
  | some (_, _, .limit limit) => if limit.toCore.isOk then (limit, none) else t.givenClass cls
  | some (_, _, .cls name) => t.givenClass (classHash xxh3 name)
  | none => t.givenClass cls

def hasShadows (t : Table) : Bool := !t.shadows.isEmpty

def classNamed (t : Table) (name : String) : Except Error UInt64 :=
  if name.isEmpty then .ok 0
  else if t.named.contains (classHash xxh3 name) then .ok (classHash xxh3 name)
  else .error (.unknownClass name)

def strictest (t : Table) : Limit :=
  t.named.foldl (fun strictest _ entry =>
    ⟨min strictest.rate entry.2.core.rate, min strictest.burst entry.2.core.burst⟩) t.default.core

end Table

def checkedFrom (max : Nat) : List (String × GivenLimit) →
    ExtTreeMap UInt64 (String × CheckedLimit) →
    Except Error (ExtTreeMap UInt64 (String × CheckedLimit))
  | [], named => .ok named
  | (name, limit) :: rest, named =>
    if name.isEmpty then .error .emptyClassName
    else do
      let core ← limit.checked
      let named := named.insert (classHash xxh3 name) (name, core)
      if max < named.size then .error (.tooManyClasses max) else checkedFrom max rest named

def checked (classes : List (String × GivenLimit)) (max : Nat) :
    Except Error (List (String × CheckedLimit)) :=
  (checkedFrom xxh3 max classes ∅).map fun named => named.toList.map (·.2)

def byHash (classes : List (String × CheckedLimit)) : ExtTreeMap UInt64 (String × CheckedLimit) :=
  classes.foldl (fun named entry => named.insert (classHash xxh3 entry.1) entry) ∅

structure Classes where
  max : Nat
  defaultRate : ℚ
  defaultBurst : Nat
  hasShadows : Bool
  table : Table

namespace Classes

def new (default : CheckedLimit) (named : List (String × CheckedLimit)) (max : Nat) : Classes where
  max
  defaultRate := default.core.rate
  defaultBurst := default.core.burst
  hasShadows := false
  table := ⟨default, byHash xxh3 named, ∅⟩

def limitOf (c : Classes) (cls : UInt64) : Limit :=
  if cls = 0 then ⟨c.defaultRate, c.defaultBurst⟩ else (c.table.lookup cls).1

def limitFor (c : Classes) (overrides : ExtTreeMap UInt64 KeyEntry) (cls key : UInt64) :
    Limit × Option Limit :=
  if c.hasShadows || overrides.contains key then
    let resolved := c.table.resolve xxh3 overrides cls key
    (resolved.limit, resolved.shadow)
  else (c.limitOf cls, none)

/- A new table, swapped in whole, and the atomics with it. -/
def change (c : Classes) (edit : Table → Except Error Table) : Except Error Unit × Classes :=
  match edit c.table with
  | .error e => (.error e, c)
  | .ok table => (.ok (), { c with
      defaultRate := table.default.core.rate
      defaultBurst := table.default.core.burst
      hasShadows := table.hasShadows
      table })

def set (c : Classes) (name : String) (limit : GivenLimit) : Except Error Unit × Classes :=
  if name.isEmpty then (.error .emptyClassName, c)
  else match limit.checked with
    | .error e => (.error e, c)
    | .ok core => c.change fun table =>
      if !table.named.contains (classHash xxh3 name) && table.named.size == c.max
        then .error (.tooManyClasses c.max)
        else .ok { table with named := table.named.insert (classHash xxh3 name) (name, core) }

/- Removes a class, and its shadow with it. -/
def remove (c : Classes) (name : String) : Bool × Classes :=
  let removed := c.table.named.contains (classHash xxh3 name)
  (removed, (c.change fun table => .ok { table with
    named := table.named.erase (classHash xxh3 name)
    shadows := if removed then table.shadows.erase (classHash xxh3 name) else table.shadows }).2)

def setDefault (c : Classes) (limit : GivenLimit) : Except Error Unit × Classes :=
  match limit.checked with
  | .error e => (.error e, c)
  | .ok core => c.change fun table => .ok { table with default := core }

/- Every named class at once: those left out are removed, with their shadows. -/
def replace (c : Classes) (classes : List (String × GivenLimit)) : Except Error Unit × Classes :=
  match checked xxh3 classes c.max with
  | .error e => (.error e, c)
  | .ok classes => c.change fun table =>
    let named := byHash xxh3 classes
    .ok { table with
      named
      shadows := table.shadows.filter fun cls _ => cls == 0 || named.contains cls }

def setShadow (c : Classes) (name : String) (limit : Option GivenLimit) :
    Except Error Unit × Classes :=
  match limit.mapM GivenLimit.checked with
  | .error e => (.error e, c)
  | .ok limit => c.change fun table => do
    let cls ← table.classNamed xxh3 name
    match limit with
    | some limit => .ok { table with shadows := table.shadows.insert cls limit }
    | none => .ok { table with shadows := table.shadows.erase cls }

/- Every shadow at once: those left out are removed; a class given twice takes its last. -/
def replaceShadows (c : Classes) (shadows : List (String × GivenLimit)) :
    Except Error Unit × Classes :=
  match shadows.mapM fun entry => entry.2.checked.map (entry.1, ·) with
  | .error e => (.error e, c)
  | .ok shadows => c.change fun table => do
    let all ← shadows.foldlM (fun all entry => do
      let cls ← table.classNamed xxh3 entry.1
      .ok (all.insert cls entry.2)) ∅
    .ok { table with shadows := all }

end Classes
end

/- The limits of single keys by the hash of the key, and how many there are. -/
structure KeyLimits where
  max : Nat
  count : Nat
  table : ExtTreeMap UInt64 KeyEntry

def checkKeyLimit : KeyLimit → Except Error Unit
  | .limit limit => limit.toCore.map fun _ => ()
  | .cls _ => .ok ()

namespace KeyLimits

def new (max : Nat) : KeyLimits := ⟨max, 0, ∅⟩

def isEmpty (k : KeyLimits) : Bool := k.count == 0

def swap (k : KeyLimits) (table : ExtTreeMap UInt64 KeyEntry) : KeyLimits :=
  { k with count := table.size, table }

def set (k : KeyLimits) (hash : UInt64) (entry : KeyEntry) : Except Error Unit × KeyLimits :=
  match checkKeyLimit entry.2.2 with
  | .error e => (.error e, k)
  | .ok _ =>
    if !k.table.contains hash && k.table.size == k.max then (.error (.tooManyKeyLimits k.max), k)
    else (.ok (), k.swap (k.table.insert hash entry))

def remove (k : KeyLimits) (hash : UInt64) : Bool × KeyLimits :=
  if k.table.contains hash then (true, k.swap (k.table.erase hash)) else (false, k)

def checkedFrom (max : Nat) : List (UInt64 × KeyEntry) → ExtTreeMap UInt64 KeyEntry →
    Except Error (ExtTreeMap UInt64 KeyEntry)
  | [], named => .ok named
  | (hash, entry) :: rest, named => do
    checkKeyLimit entry.2.2
    let named := named.insert hash entry
    if max < named.size then .error (.tooManyKeyLimits max) else checkedFrom max rest named

/- Every key limit at once: those left out are removed; a key given twice takes its last. -/
def replace (k : KeyLimits) (entries : List (UInt64 × KeyEntry)) :
    Except Error Unit × KeyLimits :=
  match checkedFrom k.max entries ∅ with
  | .error e => (.error e, k)
  | .ok named => (.ok (), k.swap named)

end KeyLimits
end Rateguard
