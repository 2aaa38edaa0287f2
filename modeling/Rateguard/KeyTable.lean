import Mathlib.Logic.Function.Basic
import Rateguard.AtomicGcra

/- The key table of the hot path: slots of atomic words, a key in one slot of its two buckets. Each
   call of claim and release is a thread that takes one atomic step at a time; the rehash that picks
   the buckets is a parameter. -/
namespace Rateguard.KeyTable

def bucketSize : Nat := 8

def emptyKey : UInt64 := 0

/- A slot being reset: neither a key nor free. -/
def busyKey : UInt64 := 0xffffffffffffffff

def RealKey (key : UInt64) : Prop := key ≠ emptyKey ∧ key ≠ busyKey

instance (key : UInt64) : Decidable (RealKey key) := by
  unfold RealKey
  infer_instance

structure Slot where
  key : UInt64
  gcra : AtomicGcra
  counts : UInt64
  cls : UInt64
  shadow : ShadowGcra
  shadowDenials : UInt64
  deriving DecidableEq

def Slot.new (quota : Quota) : Slot := ⟨emptyKey, .new quota, 0, 0, .new, 0⟩

structure Layout where
  buckets : Nat
  rehash : UInt64 → UInt64

namespace Layout
variable (l : Layout)

def bucket (index : Nat) : List Nat := (List.range bucketSize).map (index * bucketSize + ·)

def bucketsOf (key : UInt64) : Nat × Nat :=
  let mask := l.buckets - 1
  let mixed := l.rehash key
  let first := mixed.toNat &&& mask
  let second := (mixed >>> 32).toNat &&& mask
  (first, if second = first then (first + 1) &&& mask else second)

/- The key's candidate slots in their canonical order. -/
def candidates (key : UInt64) : List Nat :=
  let (first, second) := l.bucketsOf key
  bucket first ++ if first = second then [] else bucket second

end Layout

/- What is stored in a slot being reset, one word after another. -/
def resets (quota : Quota) : List (Slot → Slot) :=
  [fun slot => { slot with gcra := { slot.gcra with quota := quota.pack } },
   fun slot => { slot with gcra := { slot.gcra with tat := 0 } },
   fun slot => { slot with shadow := { slot.shadow with quota := 0 } },
   fun slot => { slot with shadow := { slot.shadow with tat := 0 } },
   fun slot => { slot with counts := 0 }, fun slot => { slot with shadowDenials := 0 },
   fun slot => { slot with cls := 0 }]

/- What a release goes on to: a claim's scan, a claim's return, or nothing. -/
inductive After
  | background
  | scanning (mine : Nat) (rest : List Nat) (winner : Nat)
  | returning (winner : Nat)
  deriving DecidableEq

/- Where a thread is in its call. The lists are the slots still to be read. -/
inductive Phase
  | idle
  | find (key : UInt64) (rest : List Nat)
  | countSecond (key : UInt64) (rest : List Nat) (second : Nat)
  | countFirst (key : UInt64) (rest : List Nat) (second first : Nat)
  | pick (key : UInt64) (rest : List Nat)
  | swap (key : UInt64) (slot : Nat) (rest : List Nat)
  | scan (key : UInt64) (mine : Nat) (rest : List Nat) (winner : Nat) (mineSeen : Bool)
  | ask (key : UInt64) (slot : Nat) (after : After)
  | release (key : UInt64) (slot : Nat) (quota : Quota) (after : After)
  | reset (key : UInt64) (slot : Nat) (left : List (Slot → Slot)) (after : After)
  | claimed (key : UInt64) (slot : Option Nat) (took : Bool)
  | released

abbrev Slots := Nat → Slot

def After.resume (key : UInt64) : After → Phase
  | .background => .released
  | .scanning mine rest winner => .scan key mine rest winner true
  | .returning winner => .claimed key (some winner) false

/-- The next atomic step of a call, up to the return of its result: none is the overflow slot. -/
def Phase.step (l : Layout) (slots : Slots) : Phase → Option (Slots × Phase)
  | .idle | .claimed .. | .released => none
  | .find key [] => some (slots, .countSecond key (Layout.bucket (l.bucketsOf key).2) 0)
  | .find key (slot :: rest) =>
    if (slots slot).key = key then some (slots, .claimed key (some slot) false)
    else some (slots, .find key rest)
  | .countSecond key [] second =>
    some (slots, .countFirst key (Layout.bucket (l.bucketsOf key).1) second 0)
  | .countSecond key (slot :: rest) second =>
    some (slots, .countSecond key rest
      (if (slots slot).key = emptyKey then second else second + 1))
  | .countFirst key [] second first =>
    let (one, two) := l.bucketsOf key
    some (slots, .pick key (if second < first then Layout.bucket two ++ Layout.bucket one
      else Layout.bucket one ++ Layout.bucket two))
  | .countFirst key (slot :: rest) second first =>
    some (slots, .countFirst key rest second
      (if (slots slot).key = emptyKey then first else first + 1))
  | .pick key [] => some (slots, .claimed key none false)
  | .pick key (slot :: rest) =>
    if (slots slot).key = emptyKey then some (slots, .swap key slot rest)
    else some (slots, .pick key rest)
  | .swap key slot rest =>
    if (slots slot).key = emptyKey then
      some (Function.update slots slot { slots slot with key },
        .scan key slot (l.candidates key) slot false)
    else some (slots, .pick key rest)
  | .scan key mine [] winner _ =>
    if winner = mine then some (slots, .claimed key (some winner) true)
    else some (slots, .ask key mine (.returning winner))
  | .scan key mine (other :: rest) winner mineSeen =>
    if other = mine then some (slots, .scan key mine rest winner true)
    else if (slots other).key ≠ key then some (slots, .scan key mine rest winner mineSeen)
    else if mineSeen then some (slots, .ask key other (.scanning mine rest winner))
    else some (slots, .scan key mine rest (if winner = mine then other else winner) mineSeen)
  | .ask key slot after => do
    -- The unpack is of a quota once packed: none is its panic.
    let quota ← Quota.unpack (slots slot).gcra.quota
    some (slots, .release key slot quota after)
  | .release key slot quota after =>
    if (slots slot).key = key then
      some (Function.update slots slot { slots slot with key := busyKey },
        .reset key slot (resets quota) after)
    else some (slots, after.resume key)
  | .reset key slot (store :: left) after =>
    some (Function.update slots slot (store (slots slot)), .reset key slot left after)
  | .reset key slot [] after =>
    some (Function.update slots slot { slots slot with key := emptyKey }, after.resume key)

def Phase.resting : Phase → Bool
  | .idle | .claimed .. | .released => true
  | _ => false

structure World (ι : Type) where
  slots : Slots
  phase : ι → Phase

variable {ι : Type}

def World.start (quota : Quota) : World ι := ⟨fun _ => .new quota, fun _ => .idle⟩

variable [DecidableEq ι]

/- Threads call claim and the background task release, on any key; all else that is done to a slot
   leaves its key alone. -/
inductive Step (l : Layout) (w : World ι) : World ι → Prop
  | claim (i : ι) (key : UInt64) : (w.phase i).resting = true → RealKey key →
      Step l w { w with phase := Function.update w.phase i (.find key (l.candidates key)) }
  | free (i : ι) (slot : Nat) (key : UInt64) (quota : Quota) : (w.phase i).resting = true →
      RealKey key →
      Step l w { w with phase := Function.update w.phase i (.release key slot quota .background) }
  | go (i : ι) (slots : Slots) (phase : Phase) : (w.phase i).step l w.slots = some (slots, phase) →
      Step l w ⟨slots, Function.update w.phase i phase⟩
  | write (slot : Nat) (written : Slot) : written.key = (w.slots slot).key →
      Step l w { w with slots := Function.update w.slots slot written }

inductive Run (l : Layout) : World ι → List (World ι) → Prop
  | start (quota : Quota) : Run l (.start quota) []
  | step {w w' : World ι} {past : List (World ι)} : Run l w past → Step l w w' →
      Run l w' (w :: past)

end Rateguard.KeyTable
