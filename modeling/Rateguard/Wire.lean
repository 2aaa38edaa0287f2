import Rateguard.Proto
import Rateguard.Postcard

/- The wire format: what a message carries, its encoding, and the limits both ends check. -/
namespace Rateguard
open Postcard (Codec)

def maxDatagram : Nat := 1400
def maxUpdates : Nat := 12
def maxReports : Nat := 1
def maxMessageKeys : Nat := 64

/- A 32-bit float, by its bits. -/
structure F32 where
  bits : UInt32
  deriving DecidableEq, Repr

def F32.magnitude (x : F32) : Nat := x.bits.toNat % 2 ^ 31
def F32.negative (x : F32) : Bool := 2 ^ 31 ≤ x.bits.toNat
def F32.infinityBits : Nat := 255 * 2 ^ 23

def F32.isFinite (x : F32) : Bool := x.magnitude < F32.infinityBits

/- Where the float stands among the others; none for what is not a number. -/
def F32.order (x : F32) : Option Int :=
  if x.magnitude ≤ F32.infinityBits then
    some (if x.negative then -(x.magnitude : Int) else x.magnitude)
  else none

def F32.lt (x y : F32) : Bool :=
  match x.order, y.order with
  | some i, some j => i < j
  | _, _ => false

/- Equality as floats compare, both zeros alike. -/
def F32.same (x y : F32) : Bool :=
  match x.order, y.order with
  | some i, some j => i == j
  | _, _ => false

def F32.nonneg (x : F32) : Bool := x.order.any (0 ≤ ·)

/- The number a finite float stands for. -/
def F32.value (x : F32) : ℚ :=
  let exponent : Nat := x.magnitude / 2 ^ 23
  let mantissa : Nat := x.magnitude % 2 ^ 23
  let size : ℚ := if exponent = 0 then mantissa / 2 ^ 149
    else (2 ^ 23 + mantissa) * 2 ^ (exponent - 1) / 2 ^ 149
  if x.negative then -size else size

/- The nearest whole number, a half to the even one. -/
def roundHalfEven (x : ℚ) : Nat :=
  let low := ⌊x⌋.toNat
  let rest := x - low
  if rest < 1 / 2 then low
  else if 1 / 2 < rest then low + 1
  else if low % 2 = 0 then low else low + 1

/- The nearest float to a number that is not negative: k is how far its units are above the
   smallest ones. -/
def F32.ofRat (x : ℚ) : F32 :=
  let units := ⌊x * 2 ^ 149⌋.toNat
  let k := units.log2 - 23
  let rounded := roundHalfEven (x * 2 ^ 149 / 2 ^ k)
  ⟨UInt32.ofNat (min (k * 2 ^ 23 + rounded) F32.infinityBits)⟩

structure KeyDemand where
  keyHash : UInt64
  demand : F32
  primary : Bool
  deriving DecidableEq, Repr

structure DemandReport where
  origin : UInt64
  epoch : UInt32
  round : UInt16
  keys : List KeyDemand
  deriving DecidableEq, Repr

/- In the order of the wire format. -/
inductive Message where
  | ping (seq : UInt32) (updates : List Update) (demand : List DemandReport)
  | ack (seq : UInt32) (updates : List Update) (demand : List DemandReport)
  | pingReq (seq : UInt32) (target : UInt64) (updates : List Update) (demand : List DemandReport)
  | leave (updates : List Update)
  deriving DecidableEq, Repr

def Message.updates : Message → List Update
  | .ping _ updates _ | .ack _ updates _ | .pingReq _ _ updates _ | .leave updates => updates

def Message.demand : Message → List DemandReport
  | .ping _ _ demand | .ack _ _ demand | .pingReq _ _ _ demand => demand
  | .leave _ => []

inductive ProtoError where
  | tooManyUpdates (n : Nat)
  | tooManyReports (n : Nat)
  | tooManyDemandKeys (n : Nat)
  | invalidDemand
  | tooLarge (n : Nat)
  | malformed
  | trailingBytes (n : Nat)
  deriving DecidableEq, Repr

def statusCodec : Codec Status :=
  (Codec.tagged (n := 3) (by decide) (fun _ => Unit) (fun _ => Codec.unit)).map
    (fun x => match x.1 with | 0 => .alive | 1 => .suspect | 2 => .dead)
    (fun | .alive => ⟨0, ()⟩ | .suspect => ⟨1, ()⟩ | .dead => ⟨2, ()⟩)
    (fun s => by cases s <;> rfl) (fun ⟨i, _⟩ _ => by fin_cases i <;> rfl)

def AddressParts : Fin 2 → Type
  | 0 => Vector UInt8 4 × UInt16
  | 1 => Vector UInt8 16 × UInt16

def addressParts : ∀ i, Codec (AddressParts i)
  | 0 => (Codec.byte.array 4).pair Codec.u16
  | 1 => (Codec.byte.array 16).pair Codec.u16

def addressCodec : Codec Address :=
  (Codec.tagged (by decide) AddressParts addressParts).map
    (fun | ⟨0, (ip, port)⟩ => .v4 ip port | ⟨1, (ip, port)⟩ => .v6 ip port)
    (fun | .v4 ip port => ⟨0, (ip, port)⟩ | .v6 ip port => ⟨1, (ip, port)⟩)
    (fun a => by cases a <;> rfl) (fun ⟨i, _⟩ _ => by fin_cases i <;> rfl)

def updateCodec : Codec Update :=
  (Codec.u64.pair (addressCodec.pair (Codec.u32.pair statusCodec))).map
    (fun (member, addr, incarnation, status) => ⟨member, addr, incarnation, status⟩)
    (fun u => (u.member, u.addr, u.incarnation, u.status)) (fun _ => rfl) (fun _ _ => rfl)

def f32Codec : Codec F32 :=
  Codec.fixed32.map F32.mk F32.bits (fun _ => rfl) (fun _ _ => rfl)

def keyDemandCodec : Codec KeyDemand :=
  (Codec.fixed64.pair (f32Codec.pair Codec.bool)).map
    (fun (keyHash, demand, primary) => ⟨keyHash, demand, primary⟩)
    (fun k => (k.keyHash, k.demand, k.primary)) (fun _ => rfl) (fun _ _ => rfl)

def demandReportCodec : Codec DemandReport :=
  (Codec.u64.pair (Codec.u32.pair (Codec.u16.pair keyDemandCodec.seq))).map
    (fun (origin, epoch, round, keys) => ⟨origin, epoch, round, keys⟩)
    (fun r => (r.origin, r.epoch, r.round, r.keys)) (fun _ => rfl) (fun _ _ => rfl)

def MessageParts : Fin 4 → Type
  | 0 => UInt32 × List Update × List DemandReport
  | 1 => UInt32 × List Update × List DemandReport
  | 2 => UInt32 × UInt64 × List Update × List DemandReport
  | 3 => List Update

def messageParts : ∀ i, Codec (MessageParts i)
  | 0 => Codec.u32.pair (updateCodec.seq.pair demandReportCodec.seq)
  | 1 => Codec.u32.pair (updateCodec.seq.pair demandReportCodec.seq)
  | 2 => Codec.u32.pair (Codec.u64.pair (updateCodec.seq.pair demandReportCodec.seq))
  | 3 => updateCodec.seq

def messageCodec : Codec Message :=
  (Codec.tagged (by decide) MessageParts messageParts).map
    (fun
      | ⟨0, (seq, updates, demand)⟩ => .ping seq updates demand
      | ⟨1, (seq, updates, demand)⟩ => .ack seq updates demand
      | ⟨2, (seq, target, updates, demand)⟩ => .pingReq seq target updates demand
      | ⟨3, updates⟩ => .leave updates)
    (fun
      | .ping seq updates demand => ⟨0, (seq, updates, demand)⟩
      | .ack seq updates demand => ⟨1, (seq, updates, demand)⟩
      | .pingReq seq target updates demand => ⟨2, (seq, target, updates, demand)⟩
      | .leave updates => ⟨3, updates⟩)
    (fun m => by cases m <;> rfl) (fun ⟨i, _⟩ _ => by fin_cases i <;> rfl)

def checkLimits (message : Message) : Except ProtoError Unit :=
  let n := message.updates.length
  if maxUpdates < n then .error (.tooManyUpdates n)
  else
    let reports := message.demand
    if maxReports < reports.length then .error (.tooManyReports reports.length)
    else
      let keys := (reports.map (·.keys.length)).sum
      if maxMessageKeys < keys then .error (.tooManyDemandKeys keys)
      else if (reports.flatMap (·.keys)).all fun key => key.demand.isFinite && key.demand.nonneg then
        .ok ()
      else .error .invalidDemand

def encode (message : Message) : Except ProtoError (List UInt8) := do
  checkLimits message
  let bytes := messageCodec.enc message
  if maxDatagram < bytes.length then .error (.tooLarge bytes.length) else .ok bytes

def decode (bytes : List UInt8) : Except ProtoError Message :=
  if maxDatagram < bytes.length then .error (.tooLarge bytes.length)
  else match messageCodec.dec bytes with
    | none => .error .malformed
    | some (message, rest) =>
      if !rest.isEmpty then .error (.trailingBytes rest.length)
      else do
        checkLimits message
        .ok message

/- What check_limits lets through. -/
structure Message.WithinLimits (message : Message) : Prop where
  updates : message.updates.length ≤ maxUpdates
  reports : message.demand.length ≤ maxReports
  keys : ∀ report ∈ message.demand, report.keys.length ≤ maxMessageKeys
  rates : ∀ report ∈ message.demand, ∀ key ∈ report.keys,
    key.demand.isFinite = true ∧ key.demand.nonneg = true

theorem checkLimits_ok_iff (message : Message) :
    checkLimits message = .ok () ↔ message.WithinLimits := by
  have keys_iff : message.demand.length ≤ maxReports →
      ((message.demand.map (·.keys.length)).sum ≤ maxMessageKeys ↔
        ∀ report ∈ message.demand, report.keys.length ≤ maxMessageKeys) := by
    intro few
    match message.demand, few with
    | [], _ => simp [maxMessageKeys]
    | [report], _ => simp
    | _ :: _ :: _, few => simp [maxReports] at few
  unfold checkLimits
  constructor
  · intro h
    simp only at h
    split at h
    · simp at h
    · split at h
      · simp at h
      · split at h
        · simp at h
        · split at h
          · rename_i updates reports keys rates
            refine ⟨by omega, by omega, (keys_iff (by omega)).mp (by omega), ?_⟩
            simpa [List.all_eq_true] using rates
          · simp at h
  · rintro ⟨updates, reports, keys, rates⟩
    have total := (keys_iff reports).mpr keys
    simp only
    rw [if_neg (by omega), if_neg (by omega), if_neg (by omega), if_pos]
    simpa [List.all_eq_true] using rates

/- Every value of the record types can be written: only the length of a sequence is bounded. -/
theorem statusCodec_valid (s : Status) : statusCodec.Valid s := by
  cases s <;> trivial

theorem addressCodec_valid (a : Address) : addressCodec.Valid a := by
  cases a with
  | v4 ip port => exact ⟨fun _ _ => trivial, port.toNat_lt⟩
  | v6 ip port => exact ⟨fun _ _ => trivial, port.toNat_lt⟩

theorem updateCodec_valid (u : Update) : updateCodec.Valid u :=
  ⟨u.member.toNat_lt, addressCodec_valid u.addr, u.incarnation.toNat_lt,
    statusCodec_valid u.status⟩

theorem keyDemandCodec_valid (k : KeyDemand) : keyDemandCodec.Valid k :=
  ⟨k.keyHash.toNat_lt, k.demand.bits.toNat_lt, trivial⟩

theorem demandReportCodec_valid {r : DemandReport} (keys : r.keys.length < 2 ^ 64) :
    demandReportCodec.Valid r :=
  ⟨r.origin.toNat_lt, r.epoch.toNat_lt, r.round.toNat_lt, keys, fun k _ => keyDemandCodec_valid k⟩

theorem messageCodec_valid {m : Message} (limits : m.WithinLimits) : messageCodec.Valid m := by
  obtain ⟨updates, reports, keys, _⟩ := limits
  have updatesValid : updateCodec.seq.Valid m.updates :=
    ⟨Nat.lt_of_le_of_lt updates (by decide), fun u _ => updateCodec_valid u⟩
  have demandValid : demandReportCodec.seq.Valid m.demand :=
    ⟨Nat.lt_of_le_of_lt reports (by decide), fun r mem =>
      demandReportCodec_valid (Nat.lt_of_le_of_lt (keys r mem) (by decide))⟩
  cases m with
  | ping seq _ _ => exact ⟨seq.toNat_lt, updatesValid, demandValid⟩
  | ack seq _ _ => exact ⟨seq.toNat_lt, updatesValid, demandValid⟩
  | pingReq seq target _ _ => exact ⟨seq.toNat_lt, target.toNat_lt, updatesValid, demandValid⟩
  | leave _ => exact updatesValid

/- The sizes, in bytes, at their largest. -/
theorem statusCodec_length (s : Status) : (statusCodec.enc s).length = 1 := by
  cases s <;> rfl

theorem addressCodec_length (a : Address) : (addressCodec.enc a).length ≤ 20 := by
  have each (n : Nat) (ip : Vector UInt8 n) : ((Codec.byte.array n).enc ip).length ≤ n * 1 :=
    Codec.array_length ip fun _ _ => Nat.le_refl 1
  cases a with
  | v4 ip port =>
    have tag : (addressCodec.enc (.v4 ip port)).length =
        1 + (((Codec.byte.array 4).pair Codec.u16).enc (ip, port)).length :=
      Codec.tagged_length (by decide) AddressParts addressParts (by decide) ⟨0, (ip, port)⟩
    rw [tag, Codec.pair_length]
    have ipLength := each 4 ip
    have portLength := Codec.u16_length port
    dsimp only
    omega
  | v6 ip port =>
    have tag : (addressCodec.enc (.v6 ip port)).length =
        1 + (((Codec.byte.array 16).pair Codec.u16).enc (ip, port)).length :=
      Codec.tagged_length (by decide) AddressParts addressParts (by decide) ⟨1, (ip, port)⟩
    rw [tag, Codec.pair_length]
    have ipLength := each 16 ip
    have portLength := Codec.u16_length port
    dsimp only
    omega

theorem updateCodec_length (u : Update) : (updateCodec.enc u).length ≤ 36 := by
  change (Codec.enc (Codec.u64.pair (addressCodec.pair (Codec.u32.pair statusCodec))) _).length ≤ _
  simp only [Codec.pair_length, statusCodec_length]
  have := Codec.u64_length u.member
  have := addressCodec_length u.addr
  have := Codec.u32_length u.incarnation
  omega

theorem keyDemandCodec_length (k : KeyDemand) : (keyDemandCodec.enc k).length = 13 := by
  change (Codec.enc (Codec.fixed64.pair (f32Codec.pair Codec.bool)) _).length = _
  simp only [Codec.pair_length]
  have hash : (Codec.fixed64.enc k.keyHash).length = 8 := Codec.encLittle_length 8 _
  have demand : (f32Codec.enc k.demand).length = 4 := Codec.encLittle_length 4 _
  have primary : (Codec.bool.enc k.primary).length = 1 := rfl
  omega

theorem demandReportCodec_length {r : DemandReport} (keys : r.keys.length ≤ maxMessageKeys) :
    (demandReportCodec.enc r).length ≤ 851 := by
  change (Codec.enc (Codec.u64.pair (Codec.u32.pair (Codec.u16.pair keyDemandCodec.seq))) _).length
    ≤ _
  simp only [Codec.pair_length]
  have := Codec.u64_length r.origin
  have := Codec.u32_length r.epoch
  have := Codec.u16_length r.round
  have keysLength := Codec.seq_length (c := keyDemandCodec) (k := 13)
    (Nat.lt_of_le_of_lt keys (by decide)) fun k _ => Nat.le_of_eq (keyDemandCodec_length k)
  simp only [maxMessageKeys] at keys
  omega

def maxMessage : Nat := 1301

theorem messageCodec_length {m : Message} (limits : m.WithinLimits) :
    (messageCodec.enc m).length ≤ maxMessage := by
  obtain ⟨updates, reports, keys, _⟩ := limits
  have updatesLength := Codec.seq_length (c := updateCodec) (k := 36)
    (Nat.lt_of_le_of_lt updates (by decide)) fun u _ => updateCodec_length u
  have demandLength := Codec.seq_length (c := demandReportCodec) (k := 851)
    (Nat.lt_of_le_of_lt reports (by decide)) fun r mem => demandReportCodec_length (keys r mem)
  simp only [maxUpdates, maxReports, maxMessage] at *
  cases m with
  | ping seq us ds =>
    have tag : (messageCodec.enc (.ping seq us ds)).length =
        1 + ((Codec.u32.pair (updateCodec.seq.pair demandReportCodec.seq)).enc (seq, us, ds)).length :=
      Codec.tagged_length (by decide) MessageParts messageParts (by decide) ⟨0, (seq, us, ds)⟩
    rw [tag, Codec.pair_length, Codec.pair_length]
    have := Codec.u32_length seq
    simp only [Message.updates, Message.demand] at *
    omega
  | ack seq us ds =>
    have tag : (messageCodec.enc (.ack seq us ds)).length =
        1 + ((Codec.u32.pair (updateCodec.seq.pair demandReportCodec.seq)).enc (seq, us, ds)).length :=
      Codec.tagged_length (by decide) MessageParts messageParts (by decide) ⟨1, (seq, us, ds)⟩
    rw [tag, Codec.pair_length, Codec.pair_length]
    have := Codec.u32_length seq
    simp only [Message.updates, Message.demand] at *
    omega
  | pingReq seq target us ds =>
    have tag : (messageCodec.enc (.pingReq seq target us ds)).length =
        1 + ((Codec.u32.pair (Codec.u64.pair (updateCodec.seq.pair demandReportCodec.seq))).enc
          (seq, target, us, ds)).length :=
      Codec.tagged_length (by decide) MessageParts messageParts (by decide)
        ⟨2, (seq, target, us, ds)⟩
    rw [tag, Codec.pair_length, Codec.pair_length, Codec.pair_length]
    have := Codec.u32_length seq
    have := Codec.u64_length target
    simp only [Message.updates, Message.demand] at *
    omega
  | leave us =>
    have tag : (messageCodec.enc (.leave us)).length = 1 + (updateCodec.seq.enc us).length :=
      Codec.tagged_length (by decide) MessageParts messageParts (by decide) ⟨3, us⟩
    rw [tag]
    simp only [Message.updates] at *
    omega

/-- encode refuses a message only for its limits, and decode gives back what was encoded. -/
theorem encode_of_limits {m : Message} (limits : m.WithinLimits) :
    encode m = .ok (messageCodec.enc m) := by
  have fits := messageCodec_length limits
  have ok := (checkLimits_ok_iff m).mpr limits
  simp only [encode, ok, bind, Except.bind]
  rw [if_neg]
  simp only [maxMessage, maxDatagram] at *
  omega

theorem encode_limits {m : Message} {bytes : List UInt8} (h : encode m = .ok bytes) :
    m.WithinLimits ∧ bytes = messageCodec.enc m := by
  cases limits : checkLimits m with
  | error e => simp [encode, limits, bind, Except.bind] at h
  | ok _ =>
    have within := (checkLimits_ok_iff m).mp limits
    rw [encode_of_limits within, Except.ok.injEq] at h
    exact ⟨within, h.symm⟩

theorem decode_encode {m : Message} {bytes : List UInt8} (h : encode m = .ok bytes) :
    decode bytes = .ok m := by
  obtain ⟨limits, rfl⟩ := encode_limits h
  have fits := messageCodec_length limits
  have read := messageCodec.round m [] (messageCodec_valid limits)
  rw [List.append_nil] at read
  have ok := (checkLimits_ok_iff m).mpr limits
  unfold decode
  rw [if_neg (by simp only [maxMessage, maxDatagram] at *; omega)]
  simp [read, ok, bind, Except.bind]

theorem decode_limits {m : Message} {bytes : List UInt8} (h : decode bytes = .ok m) :
    m.WithinLimits := by
  unfold decode at h
  split at h
  · simp at h
  · split at h
    · simp at h
    · split at h
      · simp at h
      · rename_i message rest _ _
        cases limits : checkLimits message with
        | error e => simp [limits, bind, Except.bind] at h
        | ok _ =>
          simp only [limits, bind, Except.bind, Except.ok.injEq] at h
          exact (checkLimits_ok_iff m).mp (h ▸ limits)

/-- A message encoded leaves room for the frame of a signed one. -/
theorem encode_length {m : Message} {bytes : List UInt8} (h : encode m = .ok bytes) :
    bytes.length ≤ maxMessage := by
  obtain ⟨limits, rfl⟩ := encode_limits h
  exact messageCodec_length limits

end Rateguard
