import Rateguard.Auth
import Rateguard.Classes
import Rateguard.Node

/- What a node is told, checked before anything starts. The parser of an ip:port and the hash of a
   class's name are parameters. -/
namespace Rateguard

/- A duration, in whole nanoseconds. -/
structure Duration where
  asNanos : Nat
  fits : asNanos < 2 ^ 64 * 1000000000

def Duration.longest : Duration := ⟨2 ^ 64 * 1000000000 - 1, by decide⟩

/- The longest durations are held at the largest 64-bit number. -/
def nanos (duration : Duration) : Nat := min duration.asNanos u64Max

inductive GivenPolicy where
  | optimistic
  | holdDown (hold : Duration)
  | quorum

def GivenPolicy.toCore : GivenPolicy → PartitionPolicy
  | .optimistic => .optimistic
  | .holdDown hold => .holdDown (nanos hold)
  | .quorum => .quorum

abbrev KeySalt := Vector UInt8 16

/- A salt too short is only its length. -/
structure Builder where
  bind : Option String
  advertise : Option String
  seeds : List String
  limit : Option GivenLimit
  burst : Option Nat
  policy : Option GivenPolicy
  quorumMemory : Option Duration
  period : Option Duration
  hotKeys : Option Nat
  trackedKeys : Option Nat
  dryRun : Bool
  classes : List (String × GivenLimit)
  maxClasses : Option Nat
  maxKeyLimits : Option Nat
  mostDenied : Option Nat
  maxMembers : Option Nat
  gossipAuth : GossipAuth
  secrets : List Secret
  salt : Option (Except Nat KeySalt)

def Builder.new : Builder :=
  ⟨none, none, [], none, none, none, none, none, none, none, false, [], none, none, none, none, .off,
    [], none⟩

/- Why a node could not start. -/
inductive BuilderError where
  | missingBind
  | badAddress (text : String)
  | missingLimit
  | limit (e : Error)
  | zeroPeriod
  | missingAdvertise
  | unspecifiedAdvertise
  | badSeed (text : String)
  | tooManyHotKeys (n : Nat)
  | tooFewTrackedKeys
  | tooManyTrackedKeys (n : Nat)
  | advertisePortZero
  | tooManyClasses (n : Nat)
  | tooLargeMaxKeyLimits (n : Nat)
  | tooManyMostDenied (n : Nat)
  | tooLargeMaxMembers (n : Nat)
  | gossipAuth (e : AuthError)
  | shortSalt (n : Nat)

structure Settings where
  bind : Address
  advertise : Address
  seeds : List Address
  names : List (String × UInt16)
  core : Config
  swim : SwimConfig
  policy : PartitionPolicy
  quorumMemory : Nat
  dryRun : Bool
  classes : List (String × CheckedLimit)
  maxClasses : Nat
  maxKeyLimits : Nat
  mostDenied : Nat
  maxMembers : Nat
  defaultLimit : GivenLimit
  auth : Auth
  salt : Option KeySalt

/- α and β. -/
def alpha : ℚ := 1 / 2
def beta : ℚ := 1 / 20

def maxTrackedKeys : Nat := 2 ^ 20
def maxMostDenied : Nat := 1024
def maxMaxMembers : Nat := 65536
def maxClasses : Nat := 4096
def maxKeyLimits : Nat := 2 ^ 20

def SwimConfig.default : SwimConfig where
  protocolPeriod := 200 * 1000000
  ackTimeout := 100 * 1000000
  indirectProbes := 3
  suspicionTimeout := 6000 * 1000000
  reconnectInterval := 2000 * 1000000
  tombstoneTtl := 600000 * 1000000

def Address.isUnspecified : Address → Bool
  | .v4 ip _ => ip.all (· == 0)
  | .v6 ip _ => ip.all (· == 0)

def Address.port : Address → UInt16
  | .v4 _ port => port
  | .v6 _ port => port

inductive Seed where
  | address (addr : Address)
  | name (host : String) (port : UInt16)

/- What stands before and after the last of a character. -/
def rsplitOnce (c : Char) (text : List Char) : Option (List Char × List Char) :=
  match text.reverse.dropWhile (· ≠ c) with
  | [] => none
  | _ :: before => some (before.reverse, (text.reverse.takeWhile (· ≠ c)).reverse)

/- Digits, which a plus may open. -/
def parsePort (text : List Char) : Option UInt16 :=
  let digits := if text.head? = some '+' then text.tail else text
  let value := digits.foldl (fun value c => 10 * value + (c.toNat - '0'.toNat)) 0
  if !digits.isEmpty && digits.all Char.isDigit && value < 2 ^ 16 then some value.toUInt16 else none

/- Labels of letters, digits, - and _, the last not all digits. -/
def isName (labels : List (List Char)) : Bool :=
  labels.all (fun label =>
      !label.isEmpty && label.all fun c => c.isAlphanum || c == '-' || c == '_') &&
    !labels.getLast?.any (·.all Char.isDigit)

section
variable (parse : String → Option Address) (xxh3 : String → UInt64)

def seed (text : String) : Option Seed :=
  match parse text with
  | some addr => some (.address addr)
  | none => do
    let (host, port) ← rsplitOnce ':' text.toList
    let port ← parsePort port
    let labels := if host.getLast? = some '.' then host.dropLast else host
    if !labels.isEmpty && isName (labels.splitOn '.') then some (.name (String.ofList host) port)
    else none

def address (text : String) : Except BuilderError Address :=
  match parse text with
  | some addr => .ok addr
  | none => .error (.badAddress text)

def readSeeds : List String → Except BuilderError (List Address × List (String × UInt16))
  | [] => .ok ([], [])
  | text :: rest =>
    match seed parse text with
    | some (.address addr) => do
      let (seeds, names) ← readSeeds rest
      .ok (addr :: seeds, names)
    | some (.name host port) => do
      let (seeds, names) ← readSeeds rest
      .ok (seeds, (host, port) :: names)
    | none => .error (.badSeed text)

/- One check of a setting. -/
def refuse (bad : Prop) [Decidable bad] (e : BuilderError) : Except BuilderError Unit :=
  if bad then .error e else .ok ()

def orMissing {α : Type} (e : BuilderError) : Option α → Except BuilderError α
  | some value => .ok value
  | none => .error e

namespace Builder

def readAdvertise (b : Builder) (bind : Address) : Except BuilderError Address :=
  match b.advertise with
  | some text => address parse text
  | none => if bind.isUnspecified then .error .missingAdvertise else .ok bind

def readSalt (b : Builder) : Except BuilderError (Option KeySalt) :=
  match b.salt with
  | none => .ok none
  | some (.ok salt) => .ok (some salt)
  | some (.error n) => .error (.shortSalt n)

def readPeriod (b : Builder) : Nat := (b.period.map nanos).getD (200 * 1000000)

/- Whatever must outlast a period is stretched to one if the period is longer. -/
def swim (period : Nat) : SwimConfig where
  protocolPeriod := period
  ackTimeout := period / 2
  indirectProbes := SwimConfig.default.indirectProbes
  suspicionTimeout := max SwimConfig.default.suspicionTimeout period
  reconnectInterval := max SwimConfig.default.reconnectInterval period
  tombstoneTtl := max SwimConfig.default.tombstoneTtl period

def core (limit : Limit) (hotKeys trackedKeys : Nat) : Config where
  limit
  alpha
  floorFactor := beta
  cooldown := 5 * oneSec
  hotSetSize := hotKeys
  maxTrackedKeys := trackedKeys
  demandTimeConstant := oneSec

def settings (b : Builder) : Except BuilderError Settings := do
  let bind ← orMissing .missingBind b.bind
  let bind ← address parse bind
  let advertise ← b.readAdvertise parse bind
  refuse advertise.isUnspecified .unspecifiedAdvertise
  refuse (b.advertise.isSome ∧ (advertise.port = 0 ∨ bind.port = 0)) .advertisePortZero
  let (seeds, names) ← readSeeds parse b.seeds
  let given ← orMissing .missingLimit b.limit
  let defaultLimit := (b.burst.map given.withBurst).getD given
  let limit ← defaultLimit.toCore.mapError .limit
  let hotKeys := b.hotKeys.getD maxDemandKeys
  refuse (hotKeys = 0 ∨ maxDemandKeys < hotKeys) (.tooManyHotKeys hotKeys)
  let trackedKeys := b.trackedKeys.getD 4096
  refuse (trackedKeys < hotKeys) .tooFewTrackedKeys
  refuse (maxTrackedKeys < trackedKeys) (.tooManyTrackedKeys trackedKeys)
  let maxNamed := b.maxClasses.getD 64
  refuse (Rateguard.maxClasses < maxNamed) (.tooManyClasses maxNamed)
  let classes ← (checked xxh3 b.classes maxNamed).mapError .limit
  let maxKeys := b.maxKeyLimits.getD 4096
  refuse (Rateguard.maxKeyLimits < maxKeys) (.tooLargeMaxKeyLimits maxKeys)
  let mostDenied := b.mostDenied.getD 10
  refuse (maxMostDenied < mostDenied) (.tooManyMostDenied mostDenied)
  let maxMembers := b.maxMembers.getD defaultMaxMembers
  refuse (¬(1 ≤ maxMembers ∧ maxMembers ≤ maxMaxMembers)) (.tooLargeMaxMembers maxMembers)
  refuse (b.readPeriod / 4 = 0) .zeroPeriod
  let auth ← (Auth.new b.gossipAuth b.secrets).mapError .gossipAuth
  let salt ← b.readSalt
  .ok {
    bind, advertise, seeds, names, core := core limit hotKeys trackedKeys
    swim := swim b.readPeriod, policy := (b.policy.map GivenPolicy.toCore).getD .default
    quorumMemory := (b.quorumMemory.map nanos).getD defaultQuorumMemory, dryRun := b.dryRun
    classes, maxClasses := maxNamed, maxKeyLimits := maxKeys, mostDenied, maxMembers, defaultLimit
    auth, salt }

end Builder
end

/-- A node as it is started, before it is told of any seed. -/
def Settings.start (s : Settings) (localId : PeerId) (addr : Address) (seed : UInt64) :
    Option Node := do
  let node ← Node.new s.core s.swim localId addr seed
  let node ← node.setPartitionPolicy s.policy
  (node.setQuorumMemory s.quorumMemory).setMaxMembers s.maxMembers

theorem refuse_ok {bad : Prop} [Decidable bad] {e : BuilderError} {done : Unit}
    (passed : refuse bad e = .ok done) : ¬bad := by
  intro failed
  rw [refuse, if_pos failed] at passed
  cases passed

theorem bind_ok {ε α β : Type} {first : Except ε α} {next : α → Except ε β} {result : β}
    (h : first >>= next = .ok result) : ∃ value, first = .ok value ∧ next value = .ok result := by
  cases first with
  | error e => cases h
  | ok value => exact ⟨value, rfl, h⟩

theorem mapError_ok {ε ε' α : Type} {result : Except ε α} {wrap : ε → ε'} {value : α}
    (h : result.mapError wrap = .ok value) : result = .ok value := by
  cases result with
  | error e => cases h
  | ok taken => exact congrArg _ (Except.ok.inj h)

theorem ok_of_toOption {ε α : Type} {result : Except ε α} {value : α}
    (h : result.toOption = some value) : result = .ok value := by
  cases result with
  | error e => cases h
  | ok taken => exact congrArg _ (Option.some.inj h)

theorem GivenLimit.toCore_valid {limit : GivenLimit} {core : Limit}
    (taken : limit.toCore = .ok core) : core.Valid :=
  CheckedLimit.valid ⟨limit, core, taken⟩

theorem nanos_le (duration : Duration) : nanos duration ≤ u64Max := Nat.min_le_right _ _

theorem Builder.readPeriod_le (b : Builder) : b.readPeriod ≤ u64Max := by
  unfold readPeriod
  cases b.period with
  | none => decide
  | some period => exact nanos_le period

/- What the builder makes of a period of 4 ns or more a node accepts. -/
theorem Builder.swim_valid {period : Nat} (long : period / 4 ≠ 0) : (swim period).Valid := by
  have four : 4 ≤ period := by omega
  have halves : 0 < period / 2 ∧ period / 2 < period := by omega
  refine ⟨by simp only [swim]; omega, halves, Nat.le_max_right _ _, Nat.le_max_right _ _, ?_⟩
  exact max_le_max (by decide) le_rfl

/- What is known of settings that were accepted. -/
structure Settings.Accepted (s : Settings) : Prop where
  core : s.core.Valid
  period : s.swim = Builder.swim s.swim.protocolPeriod
  long : s.swim.protocolPeriod / 4 ≠ 0
  short : s.swim.protocolPeriod ≤ u64Max
  members : 1 ≤ s.maxMembers ∧ s.maxMembers ≤ maxMaxMembers

theorem Builder.settings_accepted {parse : String → Option Address} {xxh3 : String → UInt64}
    {b : Builder} {s : Settings} (taken : b.settings parse xxh3 = .ok s) : s.Accepted := by
  unfold settings at taken
  obtain ⟨_, -, taken⟩ := bind_ok taken
  obtain ⟨_, -, taken⟩ := bind_ok taken
  obtain ⟨_, -, taken⟩ := bind_ok taken
  obtain ⟨_, -, taken⟩ := bind_ok taken
  obtain ⟨_, -, taken⟩ := bind_ok taken
  obtain ⟨_, -, taken⟩ := bind_ok taken
  obtain ⟨_, -, taken⟩ := bind_ok taken
  obtain ⟨limit, toCore, taken⟩ := bind_ok taken
  obtain ⟨_, hot, taken⟩ := bind_ok taken
  obtain ⟨_, tracked, taken⟩ := bind_ok taken
  obtain ⟨_, -, taken⟩ := bind_ok taken
  obtain ⟨_, -, taken⟩ := bind_ok taken
  obtain ⟨_, -, taken⟩ := bind_ok taken
  obtain ⟨_, -, taken⟩ := bind_ok taken
  obtain ⟨_, -, taken⟩ := bind_ok taken
  obtain ⟨_, members, taken⟩ := bind_ok taken
  obtain ⟨_, long, taken⟩ := bind_ok taken
  obtain ⟨_, -, taken⟩ := bind_ok taken
  obtain ⟨_, -, taken⟩ := bind_ok taken
  obtain rfl := Except.ok.inj taken
  have hot := refuse_ok hot
  have tracked := refuse_ok tracked
  constructor
  case core =>
    obtain ⟨rate, burst, burstFits⟩ := GivenLimit.toCore_valid (mapError_ok toCore)
    have alphaFits : 0 < alpha ∧ alpha ≤ 1 := by norm_num [alpha]
    have betaFits : 0 ≤ beta ∧ beta ≤ 1 := by norm_num [beta]
    have size : 0 < b.hotKeys.getD maxDemandKeys ∧ b.hotKeys.getD maxDemandKeys ≤ maxDemandKeys := by
      omega
    exact ⟨rate, burst, burstFits, alphaFits, betaFits, size.1, size.2, Nat.not_lt.mp tracked⟩
  case period => rfl
  case long => exact refuse_ok long
  case short => exact b.readPeriod_le
  case members => exact not_not.mp (refuse_ok members)

end Rateguard
