import Rateguard.UnfailingNews
import Rateguard.Rounds

/- Runs of a node: it is fit in every state it reaches, while there is room for the times it adds. -/
namespace Rateguard
open Std (ExtTreeMap)

/- Room above a time for the times a node adds to it, in a cluster that large. -/
structure SwimConfig.Room (swim : SwimConfig) (now peak : Nat) : Prop where
  stale : now + max (3 * peak) 10 * swim.protocolPeriod ≤ u64Max
  reconnect : now + swim.reconnectInterval ≤ u64Max

theorem SwimConfig.Room.of_le {swim : SwimConfig} {now later peak larger : Nat}
    (room : swim.Room later larger) (le : now ≤ later) (fewer : peak ≤ larger) :
    swim.Room now peak := by
  have scaled : max (3 * peak) 10 * swim.protocolPeriod ≤ max (3 * larger) 10 * swim.protocolPeriod :=
    Nat.mul_le_mul_right _ (by omega)
  exact ⟨(Nat.add_le_add le scaled).trans room.stale,
    (Nat.add_le_add_right le _).trans room.reconnect⟩

def Event.news : Event → Nat
  | .tick => 0
  | .messageReceived _ bytes => match decode bytes with
    | .ok message => message.updates.length
    | .error _ => 0

def Op.news : Op → Nat
  | .introduce _ _ => 1
  | .handle event _ => event.news
  | _ => 0

def Op.peak (peak : Nat) : Op → Nat
  | .setMaxMembers max => Max.max peak max
  | _ => peak

def Op.time (n : Node) : Op → Nat
  | .record _ _ _ now | .checkIn _ _ now | .checkInTraced _ _ _ now => now
  | .handle _ now | .leave now => now
  | _ => n.lastNow

namespace Node

section
variable {n : Node} {before now peak news : Nat}

theorem Fit.later (fit : Fit n before peak news) (le : before ≤ now) (room : n.swim.Room now peak) :
    Fit { n with lastNow := now } now peak news :=
  { fit with
    sound := fit.sound.same rfl rfl
    clock := rfl
    probe := fun probe pending => ⟨(fit.probe probe pending).1, (fit.probe probe pending).2.trans le⟩
    joined := fun since joined => (fit.joined since joined).trans le
    reported := fun report mem => (fit.reported report mem).trans le
    limiter := fit.limiter.later le
    stale := room.stale
    reconnect := room.reconnect }

theorem Fit.silent (fit : Fit n now peak news) : Fit { n with actions := [] } now peak news :=
  { fit with sound := fit.sound.same rfl rfl, sent := by simp }

theorem Fit.wider (fit : Fit n now peak news) {larger : Nat} (le : peak ≤ larger)
    (room : n.swim.Room now larger) : Fit n now larger news :=
  { fit with
    within := ⟨fit.within.known.trans le, fit.within.max.trans le, fit.within.refused⟩
    transmits := fun member pending found =>
      (fit.transmits member pending found).trans_le (mostSent_mono le)
    held := fit.held.trans le
    sizes := fun sample mem => (fit.sizes sample mem).trans le
    quorum := fit.quorum.trans le
    stale := room.stale
    reconnect := room.reconnect }

theorem Fit.advance_total (fit : Fit n before peak news) (le : n.lastNow ≤ now)
    (room : n.swim.Room now peak) : n.advance now = some { n with lastNow := now } ∧
      Fit { n with lastNow := now } now peak news := by
  refine ⟨by rw [advance, if_pos le], fit.later ?_ room⟩
  rw [← fit.clock]
  exact le

theorem Fit.handle_passes {decay : Nat → Nat → ℚ} (decays : Decays decay)
    (fit : Fit n before peak news) (le : n.lastNow ≤ now) (room : n.swim.Room now peak)
    (event : Event) : Passes (n.handle decay event now) now peak (news + event.news) := by
  obtain ⟨advanced, fitA⟩ := fit.advance_total le room
  have fitB := fitA.silent
  have idle : Fit { n with lastNow := now, actions := [] } now peak (news + event.news) :=
    fitB.more (Nat.le_add_right _ _)
  simp only [handle, advanced, Option.bind_eq_bind, Option.bind_some]
  split
  · exact .of_some ⟨_, rfl, idle⟩
  · cases event with
    | tick => exact .of_some (fitB.tick_total decays)
    | messageReceived sender bytes =>
      simp only [receive]
      split
      · exact .of_some ⟨_, rfl, idle⟩
      · simp only [Event.news] at idle ⊢
        cases decoded : decode bytes with
        | error e => exact .of_some ⟨_, rfl, fitB⟩
        | ok message =>
          rw [decoded] at idle
          dsimp only at idle ⊢
          split
          · exact fitB.receiveMessage_passes sender (decode_limits decoded)
          · exact .of_some ⟨_, rfl, idle⟩

theorem Fit.sendLeave_total (fit : Fit n now peak news) (own : Update) (peers : List PeerId) :
    ∃ n', sendLeave own peers n = some n' ∧ Fit n' now peak news := by
  have limits : (Message.leave [own]).WithinLimits :=
    ⟨show 1 ≤ maxUpdates by decide, Nat.zero_le _, by simp [Message.demand],
      by simp [Message.demand]⟩
  induction peers generalizing n with
  | nil => exact ⟨n, rfl, fit⟩
  | cons peer rest ih =>
    obtain ⟨u, first, fitU⟩ := fit.send_total peer limits
    obtain ⟨v, second, fitV⟩ := fitU.send_total peer limits
    obtain ⟨n', others, fit'⟩ := ih fitV
    exact ⟨n', by simp only [sendLeave, first, second, others, Option.bind_eq_bind,
      Option.bind_some], fit'⟩

theorem Fit.leave_total (fit : Fit n before peak news) (le : n.lastNow ≤ now)
    (room : n.swim.Room now peak) : ∃ n', n.leave now = some n' ∧ Fit n' now peak news := by
  obtain ⟨advanced, fitA⟩ := fit.advance_total le room
  have own : n.members.updateAbout n.members.localId = some n.members.ownUpdate := by
    simp [MemberTable.updateAbout]
  simp only [leave, advanced, Option.bind_eq_bind, Option.bind_some]
  split
  · exact ⟨_, rfl, fitA.silent⟩
  · simp only [own, Option.bind_some]
    have leaving : Fit { n with lastNow := now, actions := [], left := true } now peak news :=
      { fitA.silent with sound := fit.sound.same rfl rfl }
    exact leaving.sendLeave_total _ _

theorem Fit.introduce_passes (fit : Fit n now peak news) {peer : PeerId} (addr : Address)
    (other : peer ≠ n.members.localId) : Passes (n.introduce peer addr) now peak (news + 1) := by
  obtain rfl := fit.clock
  simp only [introduce, if_neg other]
  rcases n.members.apply_outcome fit.sound.members ⟨peer, addr, 0, .alive⟩ n.lastNow with
    ⟨applied, members, told, outcome⟩ | ⟨failed, _, _, _, full⟩
  · have soundU := fit.sound.outcome outcome
    have fitU : Fit { n with members } n.lastNow peak (news + 1) :=
      fit.withMembers soundU (outcome.within_more fit.within) outcome.localId (Nat.le_succ news)
    have refusing : Fit { n with members, lastRefusedAt := some n.lastNow } n.lastNow peak
        (news + 1) := { fitU with sound := soundU.same rfl rfl }
    simp only [told, Option.bind_eq_bind, Option.bind_some]
    split
    · exact .of_some (refusing.refreshCap_total _)
    · exact .of_some ⟨_, rfl, fitU⟩
  · refine .inr ⟨by rw [failed]; rfl, ?_⟩
    have refused := fit.within.refused
    omega

theorem Fit.addSeed_total (fit : Fit n now peak news) {seed : PeerId} (addr : Address)
    (other : seed ≠ n.members.localId) : ∃ n', n.addSeed seed addr = some n' ∧ Fit n' now peak news := by
  simp only [addSeed, if_neg other]
  refine Fit.refreshCap_total ?_ _
  split
  · exact fit
  · exact { fit with sound := fit.sound.same rfl rfl }

theorem Fit.removeSeed_total (fit : Fit n now peak news) (seed : PeerId) :
    ∃ n', n.removeSeed seed = some n' ∧ Fit n' now peak news := by
  have fewer : Fit { n with seeds := n.seeds.filter (·.1 != seed) } now peak news :=
    { fit with sound := fit.sound.same rfl rfl }
  exact fewer.refreshCap_total _

theorem Fit.expectPeers_total (fit : Fit n now peak news) (expected : Bool) :
    ∃ n', n.expectPeers expected = some n' ∧ Fit n' now peak news := by
  have expecting : Fit { n with expectsPeers := expected } now peak news :=
    { fit with sound := fit.sound.same rfl rfl }
  exact expecting.refreshCap_total _

theorem Fit.setPartitionPolicy_total (fit : Fit n now peak news) (policy : PartitionPolicy) :
    ∃ n', n.setPartitionPolicy policy = some n' ∧ Fit n' now peak news := by
  have started : Fit { n with policy, sizes := .new (holdOf policy), heldSize := 0 } now peak news :=
    { fit with
      sound := fit.sound.same rfl rfl
      held := Nat.zero_le peak
      sizes := by simp [SizeHistory.new] }
  exact started.refreshCap_total _

theorem Fit.setMaxMembers (fit : Fit n now peak news) {max : Nat} {n' : Node}
    (room : n.swim.Room now (Max.max peak max)) (h : n.setMaxMembers max = some n') :
    Fit n' now (Max.max peak max) news := by
  have wide := fit.wider (Nat.le_max_left peak max) room
  simp only [Node.setMaxMembers, MemberTable.setMax, bind, Option.bind_eq_some_iff,
    Option.ite_none_right_eq_some, Option.some.injEq] at h
  obtain ⟨members, ⟨_, rfl⟩, rfl⟩ := h
  exact wide.withMembers ⟨⟨fit.sound.members.ascending, fit.sound.members.live_iff,
      fit.sound.members.stranger⟩, fit.sound.gossip.follows ⟨rfl, rfl, UInt32.le_refl _⟩⟩
    ⟨wide.within.known, Nat.le_max_right peak max, wide.within.refused⟩ rfl (Nat.le_refl news)

theorem Fit.withLimiter (fit : Fit n now peak news) {limiter : Limiter} (sound : limiter.Sound now) :
    Fit { n with limiter } now peak news :=
  { fit with sound := fit.sound.same rfl rfl, limiter := sound }

theorem rehash_sound {l : Limiter} {keys : List (UInt64 × KeyState)} (sound : l.Sound now)
    (order : keys.Perm l.keys) : ({ l with keys } : Limiter).Sound now :=
  ⟨sound.size, sound.hotSet, (order.map _).nodup_iff.mpr sound.distinct, fun entry mem =>
    sound.keys entry (order.subset mem)⟩

theorem Fit.step {decay : Nat → Nat → ℚ} (decays : Decays decay) {n' : Node}
    (fit : Fit n n.lastNow peak news) (op : Op) (h : n.step decay op = some n')
    (later : n.lastNow ≤ op.time n) (room : n.swim.Room (op.time n) (op.peak peak)) :
    Fit n' (op.time n) (op.peak peak) (news + op.news) := by
  have total {result : Option Node} {now peak news : Nat} (same : result = some n')
      (total : ∃ m, result = some m ∧ Fit m now peak news) : Fit n' now peak news :=
    (Passes.of_some total).fit same
  cases op with
  | introduce peer addr =>
    by_cases own : peer = n.members.localId
    · simp [Node.step, introduce, own] at h
    · exact (fit.introduce_passes addr own).fit h
  | addSeed seed addr =>
    by_cases own : seed = n.members.localId
    · simp [Node.step, addSeed, own] at h
    · exact total h (fit.addSeed_total addr own)
  | removeSeed seed => exact total h (fit.removeSeed_total seed)
  | expectPeers expected => exact total h (fit.expectPeers_total expected)
  | setPartitionPolicy policy => exact total h (fit.setPartitionPolicy_total policy)
  | setQuorumMemory memory =>
    rw [← Option.some.inj h]
    exact { fit with sound := fit.sound.same rfl rfl }
  | setMaxMembers max => exact fit.setMaxMembers room h
  | record key tally limit now =>
    simp only [Node.step, record, bind, Option.bind_eq_some_iff, Option.some.injEq] at h
    obtain ⟨a, advanced, limiter, recorded, rfl⟩ := h
    obtain ⟨_, rfl⟩ := advance_some advanced
    have fitA : Fit { n with lastNow := now } now peak news := fit.later later room
    exact fitA.withLimiter (Limiter.record_sound fitA.limiter recorded)
  | checkIn key limit now =>
    simp only [Node.step, checkIn, bind, Option.map_eq_some_iff, Option.bind_eq_some_iff,
      Option.some.injEq] at h
    obtain ⟨_, ⟨a, advanced, ⟨decision, limiter⟩, checked, rfl⟩, rfl⟩ := h
    obtain ⟨_, rfl⟩ := advance_some advanced
    have fitA : Fit { n with lastNow := now } now peak news := fit.later later room
    exact fitA.withLimiter (Limiter.checkIn_sound fitA.limiter checked)
  | checkInTraced key limit shadow now =>
    simp only [Node.step, checkInTraced, bind, Option.map_eq_some_iff, Option.bind_eq_some_iff,
      Option.some.injEq] at h
    obtain ⟨_, ⟨a, advanced, ⟨decisions, limiter⟩, checked, rfl⟩, rfl⟩ := h
    obtain ⟨_, rfl⟩ := advance_some advanced
    have fitA : Fit { n with lastNow := now } now peak news := fit.later later room
    exact fitA.withLimiter (Limiter.checkInTraced_sound fitA.limiter checked)
  | handle event now => exact (fit.handle_passes decays later room event).fit h
  | leave now => exact total h (fit.leave_total later room)
  | rehash keys =>
    simp only [Node.step, rehash, Option.ite_none_right_eq_some, Option.some.injEq] at h
    obtain ⟨order, rfl⟩ := h
    exact fit.withLimiter (rehash_sound fit.limiter order)

theorem new_fit {config : Config} {swim : SwimConfig} {localId : PeerId} {addr : Address}
    {seed : UInt64} (h : Node.new config swim localId addr seed = some n) {max : Nat}
    (pos : 0 < max) (room : n.swim.Room 0 max) :
    Fit { n with members := { n.members with max } } 0 max 0 := by
  have sound := new_sound h
  unfold Node.new at h
  by_cases valid : swim.Valid
  · rw [if_pos valid] at h
    simp only [MemberTable.setMax, bind, Option.bind_eq_some_iff, Option.ite_none_right_eq_some,
      Option.some.injEq] at h
    obtain ⟨_, ⟨_, rfl⟩, limiter, made, rfl⟩ := h
    exact {
      sound := ⟨⟨sound.members.ascending, sound.members.live_iff, sound.members.stranger⟩,
        sound.gossip.follows ⟨rfl, rfl, UInt32.le_refl _⟩⟩
      clock := rfl
      within := ⟨by simpa [MemberTable.known, MemberTable.new] using Nat.succ_le_of_lt pos,
        Nat.le_refl max, Nat.le_refl 0⟩
      conflicts := Nat.le_refl 0
      transmits := by simp [Gossip.new]
      probe := by simp
      order := Nat.le_refl 0
      held := Nat.zero_le max
      sizes := by simp [SizeHistory.new]
      quorum := pos
      joined := by simp
      reported := by simp
      ownDemand := ⟨Nat.zero_le _, by simp⟩
      limiter := Limiter.new_sound made
      swim := valid
      stale := room.stale
      reconnect := room.reconnect
      sent := by simp }
  · rw [if_neg valid] at h
    exact absurd h (by simp)

theorem new_default {config : Config} {swim : SwimConfig} {localId : PeerId} {addr : Address}
    {seed : UInt64} (h : Node.new config swim localId addr seed = some n) :
    n.lastNow = 0 ∧ { n with members := { n.members with max := defaultMaxMembers } } = n := by
  unfold Node.new at h
  by_cases valid : swim.Valid
  · rw [if_pos valid] at h
    simp only [MemberTable.setMax, bind, Option.bind_eq_some_iff, Option.ite_none_right_eq_some,
      Option.some.injEq] at h
    obtain ⟨_, ⟨_, rfl⟩, limiter, _, rfl⟩ := h
    exact ⟨rfl, rfl⟩
  · rw [if_neg valid] at h
    exact absurd h (by simp)

theorem step_clock {decay : Nat → Nat → ℚ} {n' : Node} {op : Op} (h : n.step decay op = some n') :
    n.lastNow ≤ op.time n ∧ n'.lastNow = op.time n := by
  cases op with
  | introduce peer addr =>
    refine ⟨Nat.le_refl _, ?_⟩
    simp only [Node.step, introduce, bind, Option.ite_none_left_eq_some,
      Option.bind_eq_some_iff] at h
    obtain ⟨_, ⟨applied, members⟩, _, h⟩ := h
    split at h
    · rw [refreshCap_frame h]
      rfl
    · rw [← Option.some.inj h]
      rfl
  | addSeed seed addr =>
    simp only [Node.step, addSeed, Option.ite_none_left_eq_some] at h
    refine ⟨Nat.le_refl _, ?_⟩
    rw [refreshCap_frame h.2]
    split <;> rfl
  | removeSeed seed =>
    refine ⟨Nat.le_refl _, ?_⟩
    rw [refreshCap_frame h]
    rfl
  | expectPeers expected =>
    refine ⟨Nat.le_refl _, ?_⟩
    rw [refreshCap_frame h]
    rfl
  | setPartitionPolicy policy =>
    refine ⟨Nat.le_refl _, ?_⟩
    rw [refreshCap_frame h]
    rfl
  | setQuorumMemory memory =>
    rw [← Option.some.inj h]
    exact ⟨Nat.le_refl _, rfl⟩
  | setMaxMembers max =>
    simp only [Node.step, Node.setMaxMembers, bind, Option.bind_eq_some_iff,
      Option.some.injEq] at h
    obtain ⟨members, _, rfl⟩ := h
    exact ⟨Nat.le_refl _, rfl⟩
  | record key tally limit now =>
    simp only [Node.step, record, bind, Option.bind_eq_some_iff, Option.some.injEq] at h
    obtain ⟨a, advanced, limiter, _, rfl⟩ := h
    obtain ⟨later, rfl⟩ := advance_some advanced
    exact ⟨later, rfl⟩
  | checkIn key limit now =>
    simp only [Node.step, checkIn, bind, Option.map_eq_some_iff, Option.bind_eq_some_iff,
      Option.some.injEq] at h
    obtain ⟨_, ⟨a, advanced, ⟨decision, limiter⟩, _, rfl⟩, rfl⟩ := h
    obtain ⟨later, rfl⟩ := advance_some advanced
    exact ⟨later, rfl⟩
  | checkInTraced key limit shadow now =>
    simp only [Node.step, checkInTraced, bind, Option.map_eq_some_iff, Option.bind_eq_some_iff,
      Option.some.injEq] at h
    obtain ⟨_, ⟨a, advanced, ⟨decisions, limiter⟩, _, rfl⟩, rfl⟩ := h
    obtain ⟨later, rfl⟩ := advance_some advanced
    exact ⟨later, rfl⟩
  | handle event now =>
    obtain ⟨later, rfl | ⟨present, rfl, _⟩ | ⟨_, _, _, _, _, _, _, _, received⟩⟩ := handle_cases h
    · exact ⟨later, rfl⟩
    · refine ⟨later, ?_⟩
      rcases tick_applied later present h with ⟨m, _, _, clock, _, applied⟩ | ⟨_, _, clock⟩
      · exact applied.lastNow.trans clock
      · exact clock
    · rw [receiveMessage_frame received]
      exact ⟨later, rfl⟩
  | leave now =>
    simp only [Node.step, leave, bind, Option.bind_eq_some_iff] at h
    obtain ⟨a, advanced, h⟩ := h
    obtain ⟨later, rfl⟩ := advance_some advanced
    refine ⟨later, ?_⟩
    split at h
    · rw [← Option.some.inj h]
      rfl
    · obtain ⟨own, _, h⟩ := Option.bind_eq_some_iff.mp h
      rw [sendLeave_frame h]
      rfl
  | rehash keys =>
    obtain ⟨_, same⟩ := Option.ite_none_right_eq_some.mp h
    rw [← Option.some.inj same]
    exact ⟨Nat.le_refl _, rfl⟩

end
end Node

/- What was used of a node: the most members its table was ever allowed, and the updates it was
   told of. -/
structure Used where
  peak : Nat
  news : Nat

def noteUse (_ : Node) (used : Used) (op : Op) : Used := ⟨op.peak used.peak, used.news + op.news⟩

theorem Op.le_peak (op : Op) (peak : Nat) : peak ≤ op.peak peak := by
  cases op with
  | setMaxMembers max => exact Nat.le_max_left peak max
  | _ => exact Nat.le_refl peak

/-- A node that returned from all it was asked is fit, if there is room above its time. -/
theorem Recorded.fit {decay : Nat → Nat → ℚ} (decays : Decays decay)
    {allowed : Node → Used → Op → Prop} {n : Node} {used : Used}
    (run : Recorded decay noteUse ⟨defaultMaxMembers, 0⟩ allowed n used)
    (room : n.swim.Room n.lastNow used.peak) : n.Fit n.lastNow used.peak used.news := by
  induction run with
  | start config swim localId addr seed n made =>
    obtain ⟨clock, same⟩ := Node.new_default made
    have fit := Node.new_fit made (show 0 < defaultMaxMembers by decide) (clock ▸ room)
    rw [same] at fit
    rw [clock]
    exact fit
  | step n used op n' run _ stepped ih =>
    obtain ⟨later, clock⟩ := Node.step_clock stepped
    have steady := Node.step_policy run.reachable.sound op stepped
    have roomy : n.swim.Room (op.time n) (op.peak used.peak) := by
      rw [← clock, ← steady.swim]
      exact room
    have fit := ih (roomy.of_le later (op.le_peak used.peak))
    rw [clock]
    exact fit.step decays op stepped later roomy

end Rateguard
