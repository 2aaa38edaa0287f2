import Rateguard.Auth
import Rateguard.GossipRuns
import Rateguard.Outgoing
import Rateguard.Passes
import Rateguard.QuorumSize
import Rateguard.TrackedKeys

/- What keeps a node from failing: the invariant behind every expect, every index and every
   sum, and that no send fails under it. -/
namespace Rateguard
open Std (ExtTreeMap)

/- The most times a piece of news is sent in a cluster of that size. -/
def mostSent (size : Nat) : Nat := retransmitMult * max (Nat.clog 10 (size + 1)) 1

theorem mostSent_mono {size larger : Nat} (le : size ≤ larger) : mostSent size ≤ mostSent larger := by
  have := Nat.clog_mono_right 10 (show size + 1 ≤ larger + 1 by omega)
  unfold mostSent retransmitMult
  omega

theorem mostSent_le {size : Nat} (fits : size ≤ u64Max) : mostSent size ≤ 80 := by
  have : Nat.clog 10 (size + 1) ≤ 20 := by
    refine Nat.clog_le_of_le_pow ?_
    simp only [u64Max] at fits
    omega
  unfold mostSent retransmitMult
  omega

theorem mostSent_pos (size : Nat) : 0 < mostSent size := by
  unfold mostSent retransmitMult
  omega

namespace Gossip

theorem sendEach_total {limit : Nat} {members : List UInt64} {g : Gossip} (nodup : members.Nodup)
    (queued : ∀ member ∈ members, ∃ pending, g.queue[member]? = some pending ∧
      pending.transmits + 1 < 2 ^ 32) : ∃ sent, Gossip.sendEach limit members g = some sent := by
  induction members generalizing g with
  | nil => exact ⟨_, rfl⟩
  | cons member rest ih =>
    obtain ⟨absent, nodup⟩ := List.nodup_cons.mp nodup
    obtain ⟨pending, found, few⟩ := queued member List.mem_cons_self
    simp only [sendEach, found, bind, Option.bind_some, if_pos few]
    obtain ⟨sent, h⟩ := @ih ⟨if limit ≤ pending.transmits + 1 then g.queue.erase member
        else g.queue.insert member { pending with transmits := pending.transmits + 1 }⟩ nodup (by
      intro other mem
      have apart : member ≠ other := fun same => absent (same ▸ mem)
      obtain ⟨held, foundHeld, low⟩ := queued other (List.mem_cons_of_mem _ mem)
      refine ⟨held, ?_, low⟩
      dsimp only
      split
      · rw [ExtTreeMap.getElem?_erase]
        simp [apart, foundHeld]
      · rw [ExtTreeMap.getElem?_insert]
        simp [apart, foundHeld])
    rw [h]
    exact ⟨_, rfl⟩

theorem take_total {g : Gossip} {max limit : Nat} (pos : 0 < limit)
    (low : ∀ (member : UInt64) (pending : Pending), g.queue[member]? = some pending →
      pending.transmits + 1 < 2 ^ 32) : ∃ taken g', g.take max limit = some (taken, g') := by
  rw [take, if_pos pos]
  obtain ⟨⟨taken, g'⟩, h⟩ := @sendEach_total limit (g.freshest max) g (g.freshest_nodup max)
    fun member mem => by
      obtain ⟨pending, found⟩ := mem_freshest mem
      exact ⟨pending, found, low member pending found⟩
  exact ⟨taken, g', h⟩

end Gossip
def Action.Sends (action : Action) (message : Message) : Prop :=
  ∃ peer bytes, action = .sendTo peer bytes ∧ encode message = .ok bytes

def FitsReport (keys : List KeyDemand) : Prop :=
  keys.length ≤ maxMessageKeys ∧
    ∀ key ∈ keys, key.demand.isFinite = true ∧ key.demand.nonneg = true

def FitsDemand (demand : List DemandReport) : Prop :=
  demand.length ≤ maxReports ∧ ∀ report ∈ demand, FitsReport report.keys

theorem FitsDemand.limits {message : Message} (demand : FitsDemand message.demand)
    (updates : message.updates.length ≤ maxUpdates) : message.WithinLimits :=
  ⟨updates, demand.1, fun report mem => (demand.2 report mem).1,
    fun report mem => (demand.2 report mem).2⟩

/- A table of no more members than the most it was ever allowed, that refused no more news than
   there was. -/
structure MemberTable.Within (t : MemberTable) (peak news : Nat) : Prop where
  known : t.known ≤ peak
  max : t.max ≤ peak
  refused : t.refused ≤ news

/-- What every function of a node counts on: sizes within the most members there ever were, times no
    later than the last one seen, and room above it for the configured ones. -/
structure Node.Fit (n : Node) (now peak news : Nat) : Prop where
  sound : n.Sound
  clock : n.lastNow = now
  within : n.members.Within peak news
  conflicts : n.identityConflicts ≤ news
  transmits : ∀ (member : UInt64) (pending : Pending),
    n.gossip.queue[member]? = some pending → pending.transmits < mostSent peak
  probe : ∀ probe, n.probe = some probe →
    probe.target ≠ n.members.localId ∧ probe.sentAt ≤ now
  order : n.InRange
  held : n.heldSize ≤ peak
  sizes : ∀ sample ∈ n.sizes.samples, sample.2 ≤ peak
  quorum : n.quorumSize ≤ peak
  joined : ∀ since, n.joinedAt = some since → since ≤ now
  reported : ∀ report ∈ n.reported, report.1 ≤ now
  ownDemand : FitsReport n.ownDemand
  limiter : n.limiter.Sound now
  swim : n.swim.Valid
  stale : now + Max.max (3 * peak) 10 * n.swim.protocolPeriod ≤ u64Max
  reconnect : now + n.swim.reconnectInterval ≤ u64Max
  sent : ∀ action ∈ n.actions, ∃ message, action.Sends message

namespace Node

theorem quorumMembers_card_le {n : Node} (sound : n.Sound) :
    n.knownForQuorum ≤ n.members.known := by
  rw [knownForQuorum_eq sound]
  have sub : n.quorumMembers ⊆ insert n.members.localId n.members.members.keys.toFinset := by
    intro peer mem
    rcases (mem_quorumMembers sound peer).mp mem with rfl | ⟨member, found, _⟩
    · exact Finset.mem_insert_self _ _
    · refine Finset.mem_insert_of_mem (List.mem_toFinset.mpr ?_)
      rw [ExtTreeMap.mem_keys, ExtTreeMap.mem_iff_isSome_getElem?, found]
      rfl
  have card := Finset.card_le_card sub
  have inserted := Finset.card_insert_le n.members.localId n.members.members.keys.toFinset
  have keys := List.toFinset_card_le n.members.members.keys
  rw [ExtTreeMap.length_keys] at keys
  unfold MemberTable.known
  omega

section
variable {n : Node} {now peak news : Nat}

theorem Fit.clusterSize_le (fit : Fit n now peak news) : n.members.clusterSize ≤ peak := by
  have counted := quorumMembers_card_le fit.sound
  have known := fit.within.known
  unfold knownForQuorum at counted
  omega

theorem Fit.knownForQuorum_le (fit : Fit n now peak news) : n.knownForQuorum ≤ peak :=
  (quorumMembers_card_le fit.sound).trans fit.within.known

theorem Fit.allocationSize_le (fit : Fit n now peak news) : n.allocationSize ≤ peak :=
  Nat.max_le.mpr ⟨fit.clusterSize_le, fit.held⟩

theorem Fit.period_pos (fit : Fit n now peak news) : 0 < n.swim.protocolPeriod := fit.swim.1

theorem Fit.peak_le (fit : Fit n now peak news) : 3 * peak ≤ u64Max := by
  have room := fit.stale
  have := Nat.le_mul_of_pos_right (Max.max (3 * peak) 10) fit.period_pos
  omega

theorem Fit.period (fit : Fit n now peak news) : now + n.swim.protocolPeriod ≤ u64Max := by
  have room := fit.stale
  have := Nat.le_mul_of_pos_left n.swim.protocolPeriod
    (show 0 < Max.max (3 * peak) 10 by omega)
  omega

theorem Fit.staleAfter_total (fit : Fit n now peak news) {size : Nat} (le : size ≤ peak) :
    ∃ stale, n.staleAfter size = some stale ∧ now + stale ≤ u64Max := by
  have peak' := fit.peak_le
  have room := fit.stale
  have rounds : staleAfterRounds size = some (Max.max (3 * size) 10) := by
    rw [staleAfterRounds, mulU64, if_pos (by omega), Option.map_some]
  have scaled : Max.max (3 * size) 10 * n.swim.protocolPeriod ≤
      Max.max (3 * peak) 10 * n.swim.protocolPeriod :=
    Nat.mul_le_mul_right _ (by omega)
  refine ⟨Max.max (3 * size) 10 * n.swim.protocolPeriod, ?_, by omega⟩
  simp only [staleAfter, rounds, bind, Option.bind_some]
  rw [mulU64, if_pos (by omega)]

theorem Fit.informedSince_total (fit : Fit n now peak news) {since : Nat} (le : since ≤ now)
    (at' : Nat) : ∃ informed, n.informedSince since at' = some informed := by
  obtain ⟨stale, h, room⟩ := fit.staleAfter_total fit.allocationSize_le
  simp only [informedSince, h, addU64, bind, Option.bind_some]
  rw [if_pos (by omega), Option.bind_some]
  exact ⟨_, rfl⟩

theorem Fit.joined_le (fit : Fit n now peak news) : n.joinedAt.getD 0 ≤ now := by
  cases joined : n.joinedAt with
  | none => exact Nat.zero_le _
  | some since => exact fit.joined since joined

theorem refreshCap_of_informed {n : Node} {now : Nat} {informed : Bool}
    (h : n.informedSince (n.joinedAt.getD 0) now = some informed) :
    ∃ n', n.refreshCap now = some n' := by
  simp only [refreshCap, h, Option.map_some, bind]
  split <;> exact ⟨_, rfl⟩

/- The cap and what it is held for are of no concern. -/
theorem Fit.capped (fit : Fit n now peak news) (cap : Option ℚ) (held : Held) :
    Fit { n with limiter := { n.limiter with cap := cap }, held := held } now peak news :=
  { fit with
    sound := fit.sound.same rfl rfl
    limiter := ⟨fit.limiter.size, fit.limiter.hotSet, fit.limiter.distinct, fit.limiter.keys⟩ }

theorem Fit.refreshCap_total (fit : Fit n now peak news) (at' : Nat) :
    ∃ n', n.refreshCap at' = some n' ∧ Fit n' now peak news := by
  obtain ⟨informed, h⟩ := fit.informedSince_total fit.joined_le at'
  obtain ⟨n', refreshed⟩ := refreshCap_of_informed h
  refine ⟨n', refreshed, ?_⟩
  rw [refreshCap_frame refreshed]
  exact fit.capped _ _

theorem Fit.spread_total (fit : Fit n now peak news) {update : Update}
    (sayable : Sayable n.members update) : ∃ n', n.spread update = some n' ∧ Fit n' now peak news := by
  have total : ∃ n', n.spread update = some n' := by
    rcases Gossip.push_spec fit.sound.gossip.filed update with ⟨pushed, _⟩ | ⟨pushed, _⟩
    · simp only [spread, pushed, bind, Option.bind_some]
      exact ⟨_, rfl⟩
    · simp only [spread, pushed, bind, Option.bind_some]
      exact ⟨_, rfl⟩
  obtain ⟨n', h⟩ := total
  have sound := spread_sound fit.sound sayable h
  refine ⟨n', h, ?_⟩
  simp only [spread, bind, Option.bind_eq_some_iff, Option.some.injEq] at h
  obtain ⟨⟨taken, gossip⟩, pushed, rfl⟩ := h
  refine { fit with sound, transmits := ?_ }
  intro member pending found
  rcases Gossip.push_spec fit.sound.gossip.filed update with ⟨same, _⟩ | ⟨same, _⟩
  · rw [same, Option.some.injEq, Prod.mk.injEq] at pushed
    obtain ⟨_, rfl⟩ := pushed
    rw [ExtTreeMap.getElem?_insert] at found
    split at found
    · rw [← Option.some.inj found]
      exact mostSent_pos peak
    · exact fit.transmits member pending found
  · rw [same, Option.some.injEq, Prod.mk.injEq] at pushed
    obtain ⟨_, rfl⟩ := pushed
    exact fit.transmits member pending found

theorem Fit.outgoing_total (fit : Fit n now peak news) (recipient : PeerId) :
    ∃ updates n', n.outgoing recipient = some (updates, n') ∧ Fit n' now peak news ∧
      updates.length ≤ maxUpdates := by
  have limit : retransmitLimit n.members.clusterSize = some (mostSent n.members.clusterSize) := by
    have nonempty : 0 < n.members.clusterSize := Nat.succ_pos _
    rw [retransmitLimit, if_pos nonempty]
    rfl
  have low : ∀ (member : UInt64) (pending : Pending), n.gossip.queue[member]? = some pending →
      pending.transmits + 1 < 2 ^ 32 := by
    intro member pending found
    have few := fit.transmits member pending found
    have := @mostSent_le peak (by have := fit.peak_le; omega)
    omega
  have total : ∃ updates n', n.outgoing recipient = some (updates, n') := by
    obtain ⟨taken, gossip, took⟩ := @Gossip.take_total n.gossip
      (maxUpdates - 1 - (if (n.accusation recipient).isSome then 1 else 0))
      _ (mostSent_pos n.members.clusterSize) low
    have own : n.members.updateAbout n.members.localId = some n.members.ownUpdate := by
      simp [MemberTable.updateAbout]
    simp only [outgoing, own, limit, took, bind, Option.bind_some]
    split
    · exact ⟨_, _, rfl⟩
    · exact ⟨_, _, rfl⟩
  obtain ⟨updates, n', h⟩ := total
  refine ⟨updates, n', h, ?_, (outgoing_carries fit.sound h).fits⟩
  have sound := outgoing_sound fit.sound h
  obtain ⟨limit', limited, sentFrom⟩ := outgoing_sent h
  rw [limit, Option.some.injEq] at limited
  have transmits : ∀ (member : UInt64) (pending : Pending),
      n'.gossip.queue[member]? = some pending → pending.transmits < mostSent peak := by
    intro member pending' found
    obtain ⟨pending, original, _, rfl | few⟩ := sentFrom member pending' found
    · exact fit.transmits member _ original
    · have := mostSent_mono fit.clusterSize_le
      omega
  have frame := outgoing_frame h
  rw [frame] at sound ⊢
  exact { fit with sound, transmits }

theorem Fit.send_total (fit : Fit n now peak news) (peer : PeerId) {message : Message}
    (limits : message.WithinLimits) : ∃ n', n.send peer message = some n' ∧ Fit n' now peak news := by
  have encoded := encode_of_limits limits
  refine ⟨_, by rw [send, encoded], ?_⟩
  refine { fit with sound := fit.sound.same rfl rfl, sent := ?_ }
  intro action mem
  rcases List.mem_append.mp mem with old | new
  · exact fit.sent action old
  · rw [List.mem_singleton.mp new]
    exact ⟨message, peer, _, rfl, encoded⟩

theorem Fit.outgoingDemand (fit : Fit n now peak news) : FitsDemand n.outgoingDemand := by
  refine ⟨Nat.le_refl 1, fun report mem => ?_⟩
  rw [List.mem_singleton.mp mem]
  exact fit.ownDemand

theorem Fit.tell_total (fit : Fit n now peak news) (recipient : PeerId)
    (message : List Update → Node → Message)
    (demand : ∀ updates u, Fit u now peak news → FitsDemand (message updates u).demand)
    (carried : ∀ updates u, (message updates u).updates = updates) :
    ∃ updates u n', n.outgoing recipient = some (updates, u) ∧
      u.send recipient (message updates u) = some n' ∧ Fit n' now peak news := by
  obtain ⟨updates, u, out, fitU, few⟩ := fit.outgoing_total recipient
  obtain ⟨n', sent, fit'⟩ := fitU.send_total recipient
    ((demand updates u fitU).limits (by rw [carried]; exact few))
  exact ⟨updates, u, n', out, sent, fit'⟩

theorem Fit.ack_total (fit : Fit n now peak news) (recipient : PeerId) (seq : UInt32) :
    ∃ n', n.ack recipient seq = some n' ∧ Fit n' now peak news := by
  obtain ⟨updates, u, n', out, sent, fit'⟩ := fit.tell_total recipient
    (fun updates u => .ack seq updates u.outgoingDemand) (fun _ _ fitU => fitU.outgoingDemand)
    fun _ _ => rfl
  exact ⟨n', by simp only [ack, out, bind, Option.bind_some, sent], fit'⟩

theorem Fit.ping_total (fit : Fit n now peak news) {target : PeerId}
    (other : target ≠ n.members.localId) :
    ∃ n', n.ping target now = some n' ∧ Fit n' now peak news := by
  have probing : Fit { n with seq := n.seq + 1, probe := some ⟨target, n.seq + 1, now, none⟩ }
      now peak news := by
    refine { fit with sound := fit.sound.same rfl rfl, probe := ?_ }
    intro probe same
    rw [← Option.some.inj same]
    exact ⟨other, Nat.le_refl now⟩
  obtain ⟨updates, u, n', out, sent, fit'⟩ := probing.tell_total target
    (fun updates u => .ping (n.seq + 1) updates u.outgoingDemand)
    (fun _ _ fitU => fitU.outgoingDemand) fun _ _ => rfl
  exact ⟨n', by simp only [ping, nextSeq, out, bind, Option.bind_some, sent], fit'⟩

theorem Fit.askHelpers_total (fit : Fit n now peak news) (target : PeerId) (seq : UInt32)
    (helpers : List PeerId) :
    ∃ n', askHelpers target seq helpers n = some n' ∧ Fit n' now peak news := by
  induction helpers generalizing n with
  | nil => exact ⟨n, rfl, fit⟩
  | cons helper rest ih =>
    obtain ⟨updates, u, v, out, sent, fitV⟩ := fit.tell_total helper
      (fun updates u => .pingReq seq target updates u.outgoingDemand)
      (fun _ _ fitU => fitU.outgoingDemand) fun _ _ => rfl
    obtain ⟨n', asked, fit'⟩ := ih fitV
    exact ⟨n', by simp only [askHelpers, out, bind, Option.bind_some, sent, asked], fit'⟩

end
end Node
end Rateguard
