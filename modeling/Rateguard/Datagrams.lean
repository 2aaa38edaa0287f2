import Rateguard.UnfailingRuns

/- What a node sends: whatever it is told, it goes on, and its datagrams are well formed, as long as
   the times it derives from its configuration fit. -/
namespace Rateguard

/- A datagram that reads as the message it was made of, within every limit of the protocol, and
   that fits even once it is sealed. -/
def Action.WellFormed (action : Action) : Prop :=
  ∃ peer bytes message, action = .sendTo peer bytes ∧ encode message = .ok bytes ∧
    decode bytes = .ok message ∧ message.updates.length ≤ 12 ∧ message.demand.length ≤ 1 ∧
    (∀ report ∈ message.demand, report.keys.length ≤ 64 ∧
      ∀ key ∈ report.keys, key.demand.isFinite = true ∧ key.demand.nonneg = true) ∧
    ∀ (mac : Secret → List UInt8 → Vector UInt8 tagLen) (auth : Auth),
      (auth.sealFrame mac bytes).length ≤ maxDatagram

theorem Action.Sends.wellFormed {action : Action} {message : Message}
    (sends : action.Sends message) : action.WellFormed := by
  obtain ⟨peer, bytes, same, encoded⟩ := sends
  obtain ⟨limits, _⟩ := encode_limits encoded
  refine ⟨peer, bytes, message, same, encoded, decode_encode encoded, limits.updates,
    limits.reports, fun report mem => ⟨limits.keys report mem, limits.rates report mem⟩, ?_⟩
  intro mac auth
  have short := encode_length encoded
  have framed := auth.sealFrame_length mac bytes
  simp only [maxMessage, maxDatagram, frameOverhead, tagLen] at *
  omega

def Answered (result : Option Node) : Prop :=
  ∃ n, result = some n ∧ ∀ action ∈ n.actions, action.WellFormed

theorem Node.Fit.answered {n : Node} {now peak news : Nat} (fit : n.Fit now peak news) :
    ∀ action ∈ n.actions, action.WellFormed := by
  intro action mem
  obtain ⟨message, sends⟩ := fit.sent action mem
  exact sends.wellFormed

/-- However a node came to be as it is, it answers any event and any leaving, while there is room
    above the time for what it adds to it, and for a count of the updates it was told. -/
theorem node_answers (decay : Nat → Nat → ℚ) (decays : Decays decay) (n : Node) (used : Used)
    (run : Recorded decay noteUse ⟨defaultMaxMembers, 0⟩ (fun _ _ _ => True) n used)
    (now : Nat) (later : n.lastNow ≤ now) (room : n.swim.Room now used.peak) :
    (∀ event : Event, used.news + event.news ≤ u64Max → Answered (n.handle decay event now)) ∧
      Answered (n.leave now) := by
  have fit := run.fit decays (room.of_le later (Nat.le_refl used.peak))
  constructor
  · intro event counted
    obtain ⟨n', h, fit'⟩ := (fit.handle_passes decays later room event).total counted
    exact ⟨n', h, fit'.answered⟩
  · obtain ⟨n', h, fit'⟩ := fit.leave_total later room
    exact ⟨n', h, fit'.answered⟩

def Node.TimesFit (n : Node) (now : Nat) : Prop :=
  ∀ time ∈ [n.swim.protocolPeriod, n.swim.ackTimeout, n.swim.suspicionTimeout,
    n.swim.reconnectInterval, n.swim.tombstoneTtl, holdOf n.policy, n.quorumMemory,
    n.limiter.config.cooldown, n.limiter.config.demandTimeConstant], now + time ≤ u64Max

instance (n : Node) (now : Nat) : Decidable (n.TimesFit now) := by
  unfold Node.TimesFit
  infer_instance

theorem sampleDecay_decays : Decays sampleDecay := by
  intro elapsed timeConstant
  unfold sampleDecay
  constructor <;> norm_num

/- A cluster of two, one of which pings the other. -/
def pingRun : Option (Node × Used) := do
  let start ← Node.sample 0 0
  Node.runRecorded sampleDecay noteUse (fun _ _ _ => True) start ⟨defaultMaxMembers, 0⟩
    [.introduce 1 (sampleAddress 1), .handle .tick 0]

theorem pingRun_room : (pingRun.any fun (n, used) =>
    decide (n.lastNow ≤ ms 200 ∧ used.news = 1 ∧ used.peak = defaultMaxMembers ∧
      n.swim.protocolPeriod = ms 200 ∧ n.swim.reconnectInterval = ms 2000)) = true := by
  decide +kernel

theorem node_answers_ping : ∃ n used, pingRun = some (n, used) ∧
    Answered (n.handle sampleDecay .tick (ms 200)) ∧ Answered (n.leave (ms 200)) := by
  obtain ⟨⟨n, used⟩, ran, checked⟩ := (Option.any_eq_true _ _).mp pingRun_room
  obtain ⟨later, news, peak, period, reconnect⟩ := decide_eq_true_eq.mp checked
  have same := ran
  simp only [pingRun, bind, Option.bind_eq_some_iff] at ran
  obtain ⟨start, fresh, ran⟩ := ran
  have run := Recorded.run (.start _ _ _ _ _ start fresh) ran
  have room : n.swim.Room (ms 200) used.peak :=
    ⟨by rw [peak, period]; decide, by rw [reconnect]; decide⟩
  obtain ⟨events, left⟩ :=
    node_answers sampleDecay sampleDecay_decays n used run (ms 200) later room
  exact ⟨n, used, same, events .tick (by rw [news]; decide), left⟩

/- A protocol period of more than a century. -/
def Node.slow : Option Node :=
  Node.new ⟨⟨100, 10⟩, 1 / 2, 1 / 10, ms 5000, 64, 1024, ms 1000⟩
    ⟨4611686018427387904, 1, 3, 4611686018427387904, 4611686018427387904, 4611686018427387904⟩
    0 (sampleAddress 0) 7

theorem slow_overflows : (Node.slow.any fun n =>
    decide (n.lastNow = 0 ∧ n.TimesFit 0) && (n.handle sampleDecay .tick 0).isNone) = true := by
  decide +kernel

theorem slow_node_silent : ¬ ∀ (decay : Nat → Nat → ℚ), Decays decay → ∀ (n : Node) (used : Used),
    Recorded decay noteUse ⟨defaultMaxMembers, 0⟩ (fun _ _ _ => True) n used →
    ∀ now, n.lastNow ≤ now → n.TimesFit now →
    (∀ event : Event, used.news + event.news ≤ u64Max → Answered (n.handle decay event now)) ∧
      Answered (n.leave now) := by
  intro claim
  obtain ⟨n, fresh, checked⟩ := (Option.any_eq_true _ _).mp slow_overflows
  simp only [Bool.and_eq_true, decide_eq_true_eq, Option.isNone_iff_eq_none] at checked
  obtain ⟨⟨start, fits⟩, fails⟩ := checked
  have run : Recorded sampleDecay noteUse ⟨defaultMaxMembers, 0⟩ (fun _ _ _ => True) n
      ⟨defaultMaxMembers, 0⟩ := .start _ _ _ _ _ n fresh
  obtain ⟨events, _⟩ := claim sampleDecay sampleDecay_decays n _ run 0 (Nat.le_of_eq start) fits
  obtain ⟨n', h, _⟩ := events .tick (Nat.zero_le u64Max)
  rw [fails] at h
  exact absurd h (by simp)

end Rateguard
