import Rateguard.DemandStore

/- What the store says right after expiring was said within the max age, unless an older word
   was renewed by a lower one. -/
namespace Rateguard
open Std (ExtTreeMap)

def DemandOp.time : DemandOp → Nat
  | .apply _ _ now => now
  | .expire now _ => now

def InTime (ops : List DemandOp) : Prop := (ops.map DemandOp.time).Pairwise (· ≤ ·)

/- One of the peer's own reports, applied at this time, has such a word on the key. -/
def Told (ops : List DemandOp) (peer : PeerId) (hash : UInt64) (time : Nat)
    (word : KeyDemand → Prop) : Prop :=
  ∃ report key, .apply peer report time ∈ ops ∧ report.origin = peer ∧ key ∈ report.keys ∧
    key.keyHash = hash ∧ word key

/- What a report merges into the contested keys of the peer, and when that was heard. -/
def Peer.merges (peer : Peer) (report : DemandReport) (now : Nat) : Option (ReportedKeys × Nat) :=
  peer.snapshot.bind fun old =>
    if report.epoch ∈ old.pastEpochs ∨
        old.epoch = report.epoch ∧ roundIsNewer report.round old.round = false then
      if old.epoch = report.epoch ∧ old.round = report.round ∧
          sameKeys old.keys report.keyMap = true then none
      else some (report.keyMap, now)
    else if old.epoch ≠ report.epoch ∨ implausibleJump ≤ (report.round - old.round).toNat then
      some (old.keys, old.heardAt)
    else none

/- Of two words merged, the one heard earlier adds nothing to the one heard later. -/
def Contested.Renewable (entry : Contested) (word : Word) (heardAt : Nat) : Prop :=
  (entry.heardAt < heardAt →
    ¬ word.1.lt entry.demand = true ∧ (entry.primary = true → word.2 = true)) ∧
  (heardAt < entry.heardAt →
    ¬ entry.demand.lt word.1 = true ∧ (word.2 = true → entry.primary = true))

/-- Whatever the report merges renews nothing old. -/
def Peer.RenewsNothingOld (peer : Peer) (report : DemandReport) (now : Nat) : Prop :=
  ∀ keys heardAt, peer.merges report now = some (keys, heardAt) →
    ∀ (hash : UInt64) word entry, keys[hash]? = some word → peer.contested[hash]? = some entry →
      entry.Renewable word heardAt

def RenewsNothingOld (d : PeerDemand) : DemandOp → Prop
  | .apply sender report now => report.origin = sender →
    (d.peers[sender]?.getD Peer.default).RenewsNothingOld report now
  | .expire _ _ => True

section
variable {ops : List DemandOp} {peer : PeerId}

theorem Told.mono {hash : UInt64} {time : Nat} {word word' : KeyDemand → Prop}
    (told : Told ops peer hash time word) (weaker : ∀ key, word key → word' key)
    (more : List DemandOp) : Told (ops ++ more) peer hash time word' := by
  obtain ⟨report, key, mem, own, keyMem, named, said⟩ := told
  exact ⟨report, key, List.mem_append_left _ mem, own, keyMem, named, weaker key said⟩

/- Every word the store holds of the peer was said when its window began. -/
structure Peer.Accounted (ops : List DemandOp) (peer : PeerId) (record : Peer) : Prop where
  snapshot : ∀ snapshot, record.snapshot = some snapshot → ∃ report,
    .apply peer report snapshot.heardAt ∈ ops ∧ report.origin = peer ∧
      snapshot.keys = report.keyMap
  demand : ∀ (hash : UInt64) (entry : Contested), record.contested[hash]? = some entry →
    Told ops peer hash entry.heardAt fun key => ¬ key.demand.lt entry.demand = true
  primary : ∀ (hash : UInt64) (entry : Contested), record.contested[hash]? = some entry →
    entry.primary = true → Told ops peer hash entry.heardAt fun key => key.primary = true
  held : record.heldUntil = none

/- A word that was said when heardAt says may be merged where it renews nothing old. -/
theorem absorb_demand {before : Option Contested} {demand : F32} {primary : Bool}
    {round : UInt16} {heardAt : Nat} {hash : UInt64}
    (word : Told ops peer hash heardAt fun key => key.demand = demand)
    (entry : ∀ entry, before = some entry →
      Told ops peer hash entry.heardAt fun key => ¬ key.demand.lt entry.demand = true)
    (renewable : ∀ entry, before = some entry → entry.Renewable (demand, primary) heardAt) :
    Told ops peer hash (absorb before demand primary round heardAt).heardAt
      fun key => ¬ key.demand.lt (absorb before demand primary round heardAt).demand = true := by
  have ownWord : Told ops peer hash heardAt fun key => ¬ key.demand.lt demand = true := by
    obtain ⟨report, key, mem, own, keyMem, named, rfl⟩ := word
    exact ⟨report, key, mem, own, keyMem, named, F32.not_lt_self _⟩
  cases before with
  | none => exact ownWord
  | some old =>
    have oldWord := entry old rfl
    obtain ⟨later, earlier⟩ := renewable old rfl
    simp only [absorb, Contested.merge]
    by_cases less : old.demand.lt demand = true
    · simp only [less, ↓reduceIte]
      have order : old.heardAt ≤ heardAt := not_lt.mp fun before => (earlier before).1 less
      rw [max_eq_right order]
      exact ownWord
    · simp only [less, Bool.false_eq_true, ↓reduceIte]
      rcases lt_or_ge old.heardAt heardAt with before | after
      · rw [max_eq_right before.le]
        obtain ⟨report, key, mem, own, keyMem, named, rfl⟩ := word
        exact ⟨report, key, mem, own, keyMem, named, (later before).1⟩
      · rw [max_eq_left after]
        exact oldWord

theorem absorb_primary {before : Option Contested} {demand : F32} {primary : Bool}
    {round : UInt16} {heardAt : Nat} {hash : UInt64}
    (word : primary = true → Told ops peer hash heardAt fun key => key.primary = true)
    (entry : ∀ entry, before = some entry → entry.primary = true →
      Told ops peer hash entry.heardAt fun key => key.primary = true)
    (renewable : ∀ entry, before = some entry → entry.Renewable (demand, primary) heardAt)
    (marked : (absorb before demand primary round heardAt).primary = true) :
    Told ops peer hash (absorb before demand primary round heardAt).heardAt
      fun key => key.primary = true := by
  cases before with
  | none => exact word marked
  | some old =>
    obtain ⟨later, earlier⟩ := renewable old rfl
    have marks : old.primary = true ∨ primary = true := by
      simp only [absorb, Contested.merge] at marked
      split at marked <;> simpa using marked
    have time : (absorb (some old) demand primary round heardAt).heardAt =
        max old.heardAt heardAt := by
      simp only [absorb, Contested.merge]
      split <;> rfl
    rw [time]
    rcases lt_trichotomy old.heardAt heardAt with before | same | after
    · rw [max_eq_right before.le]
      exact word (marks.elim (later before).2 id)
    · rcases marks with mark | mark
      · rw [max_eq_left same.ge]
        exact entry old rfl mark
      · rw [max_eq_right same.le]
        exact word mark
    · rw [max_eq_left after.le]
      exact entry old rfl (marks.elim id (earlier after).2)

theorem told_report {report : DemandReport} {heardAt : Nat}
    (applied : .apply peer report heardAt ∈ ops) (own : report.origin = peer) {hash : UInt64}
    {demand : F32} {primary : Bool} (word : report.keyMap[hash]? = some (demand, primary)) :
    (Told ops peer hash heardAt fun key => key.demand = demand) ∧
      Told ops peer hash heardAt fun key => key.primary = primary := by
  obtain ⟨key, mem, named, said, mark⟩ := DemandReport.keyMap_said word
  exact ⟨⟨report, key, applied, own, mem, named, said⟩,
    ⟨report, key, applied, own, mem, named, mark⟩⟩

theorem Peer.Accounted.append {record : Peer} (accounted : record.Accounted ops peer)
    (more : List DemandOp) : record.Accounted (ops ++ more) peer where
  snapshot := by
    intro snapshot taken
    obtain ⟨report, mem, own, keys⟩ := accounted.snapshot snapshot taken
    exact ⟨report, List.mem_append_left _ mem, own, keys⟩
  demand hash entry present := (accounted.demand hash entry present).mono (fun _ => id) more
  primary hash entry present mark :=
    (accounted.primary hash entry present mark).mono (fun _ => id) more
  held := accounted.held

theorem Peer.Accounted.contest {record record' : Peer} {report : DemandReport} {round : UInt16}
    {heardAt : Nat} (accounted : record.Accounted ops peer)
    (applied : .apply peer report heardAt ∈ ops) (own : report.origin = peer)
    (renewable : ∀ (hash : UInt64) word entry, report.keyMap[hash]? = some word →
      record.contested[hash]? = some entry → entry.Renewable word heardAt)
    (contest : record.contest report.keyMap round heardAt = some record') :
    record'.Accounted ops peer where
  snapshot := by
    obtain ⟨left, _, rfl⟩ := contest_some contest
    exact accounted.snapshot
  held := by
    obtain ⟨left, _, rfl⟩ := contest_some contest
    exact accounted.held
  demand := by
    intro hash entry present
    rcases contest_entry contest present with ⟨_, before⟩ | ⟨demand, primary, word, rfl⟩
    · exact accounted.demand hash entry before
    · exact absorb_demand (told_report applied own word).1 (fun entry => accounted.demand hash entry)
        fun entry => renewable hash _ entry word
  primary := by
    intro hash entry present
    rcases contest_entry contest present with ⟨_, before⟩ | ⟨demand, primary, word, rfl⟩
    · exact accounted.primary hash entry before
    · refine absorb_primary ?_ (fun entry => accounted.primary hash entry)
        fun entry => renewable hash _ entry word
      intro mark
      exact mark ▸ (told_report applied own word).2

theorem Peer.Accounted.expire {record record' : Peer} {now maxAge : Nat}
    (accounted : record.Accounted ops peer) (h : record.expire now maxAge = some record') :
    record'.Accounted ops peer ∧
      (∀ snapshot, record'.snapshot = some snapshot → now < satAdd snapshot.heardAt maxAge) ∧
      ∀ (hash : UInt64) (entry : Contested), record'.contested[hash]? = some entry →
        now < satAdd entry.heardAt maxAge := by
  rcases expire_some h with ⟨til, held, _⟩ | ⟨_, held', snapshot', contested'⟩
  · rw [accounted.held] at held
    simp at held
  · have entries : ∀ (hash : UInt64) (entry : Contested), record'.contested[hash]? = some entry →
        record.contested[hash]? = some entry ∧ now < satAdd entry.heardAt maxAge := by
      intro hash entry present
      rw [contested', Option.filter_eq_some_iff] at present
      exact ⟨present.1, of_decide_eq_true present.2⟩
    have taken : ∀ snapshot, record'.snapshot = some snapshot →
        record.snapshot = some snapshot ∧ now < satAdd snapshot.heardAt maxAge := by
      intro snapshot present
      rw [snapshot', Option.filter_eq_some_iff] at present
      exact ⟨present.1, of_decide_eq_true present.2⟩
    refine ⟨⟨?_, ?_, ?_, held'⟩, fun snapshot present => (taken snapshot present).2,
      fun hash entry present => (entries hash entry present).2⟩
    · intro snapshot present
      exact accounted.snapshot snapshot (taken snapshot present).1
    · intro hash entry present
      exact accounted.demand hash entry (entries hash entry present).1
    · intro hash entry present
      exact accounted.primary hash entry (entries hash entry present).1

theorem Peer.Accounted.takes {record record' : Peer} {report : DemandReport} {now : Nat}
    (accounted : record.Accounted ops peer) (own : report.origin = peer)
    (renews : record.RenewsNothingOld report now) (takes : record.Takes report now record') :
    record'.Accounted (ops ++ [.apply peer report now]) peer := by
  have still := accounted.append [.apply peer report now]
  have applied : .apply peer report now ∈ ops ++ [.apply peer report now] :=
    List.mem_append_right _ (List.mem_singleton.mpr rfl)
  -- the report is accounted for as the new snapshot
  have taken : ∀ (pastEpochs : List UInt32) (snapshot : Snapshot),
      some ⟨report.epoch, pastEpochs, report.round, now, report.keyMap⟩ = some snapshot →
        ∃ told, .apply peer told snapshot.heardAt ∈ ops ++ [.apply peer report now] ∧
          told.origin = peer ∧ snapshot.keys = told.keyMap := by
    intro pastEpochs snapshot same
    rw [Option.some.injEq] at same
    subst same
    exact ⟨report, applied, own, rfl⟩
  cases takes with
  | first => exact ⟨taken [], still.demand, still.primary, rfl⟩
  | duplicate => exact still
  | @contested old _ snapshot refused differs contest =>
    refine still.contest applied own ?_ contest
    intro hash word entry
    refine renews report.keyMap now ?_ hash word entry
    rw [merges, snapshot, Option.bind_some, if_pos refused, if_neg differs]
  | newer => exact ⟨taken _, still.demand, still.primary, rfl⟩
  | @replaced old kept pastEpochs snapshot fresh jump past contest =>
    obtain ⟨replaced, mem, replacedOwn, keys⟩ := still.snapshot old snapshot
    have merged : record.merges report now = some (old.keys, old.heardAt) := by
      have notRefused : ¬ (report.epoch ∈ old.pastEpochs ∨
          old.epoch = report.epoch ∧ roundIsNewer report.round old.round = false) := by
        rintro (past | ⟨same, notNewer⟩)
        · exact fresh past
        · rcases jump with other | ⟨newer, _⟩
          · exact other same
          · rw [newer] at notNewer
            simp at notNewer
      rw [merges, snapshot, Option.bind_some, if_neg notRefused, if_pos]
      exact jump.imp id And.right
    have before : ({ record with
        snapshot := some ⟨report.epoch, pastEpochs, report.round, now, report.keyMap⟩ } :
          Peer).Accounted (ops ++ [.apply peer report now]) peer :=
      ⟨taken pastEpochs, still.demand, still.primary, still.held⟩
    rw [keys] at contest merged
    have after := before.contest mem replacedOwn (renews _ _ merged) contest
    exact ⟨after.snapshot, after.demand, after.primary, rfl⟩

def PeerDemand.Accounted (d : PeerDemand) (ops : List DemandOp) : Prop :=
  ∀ (peer : PeerId) (record : Peer), d.peers[peer]? = some record → record.Accounted ops peer

theorem PeerDemand.Accounted.step {d d' : PeerDemand} {op : DemandOp}
    (accounted : d.Accounted ops) (renews : RenewsNothingOld d op) (h : d.step op = some d') :
    d'.Accounted (ops ++ [op]) := by
  intro peer record there
  cases op with
  | expire now maxAge =>
    simp only [PeerDemand.step, Option.some.injEq] at h
    subst h
    rw [expire_get, Option.bind_eq_some_iff] at there
    obtain ⟨before, present, expired⟩ := there
    exact ((accounted peer before present).expire expired).1.append _
  | apply sender report now =>
    by_cases own : report.origin = sender
    · obtain ⟨record', takes, rfl⟩ := apply_takes h own
      rw [insert_get] at there
      split at there
      · rename_i same
        subst same
        rw [Option.some.injEq] at there
        subst there
        have before : (d.peers[sender]?.getD Peer.default).Accounted ops sender := by
          cases present : d.peers[sender]? with
          | some old => exact accounted sender old present
          | none => exact ⟨by simp [Peer.default], by simp [Peer.default], by simp [Peer.default], rfl⟩
        exact before.takes own (renews own) takes
      · exact (accounted peer record there).append _
    · rw [apply_other h own] at there
      exact (accounted peer record there).append _

theorem PeerDemand.Accounted.run {d d' : PeerDemand} {more : List DemandOp}
    (accounted : d.Accounted ops) (renews : d.Along RenewsNothingOld more)
    (h : d.run more = some d') : d'.Accounted (ops ++ more) := by
  induction more generalizing d ops with
  | nil =>
    simp only [PeerDemand.run, List.foldlM_nil, Option.pure_def, Option.some.injEq] at h
    subst h
    simpa using accounted
  | cons op more ih =>
    obtain ⟨mid, step, rest⟩ := run_cons h
    obtain ⟨first, later⟩ := renews
    have after := ih (accounted.step first step) (later mid step) rest
    simpa using after

theorem Peer.Accounted.recent {record record' : Peer} {now maxAge : Nat}
    (accounted : record.Accounted ops peer) (h : record.expire now maxAge = some record')
    {hash : UInt64} {demand : F32} {primary : Bool}
    (word : joined (record'.taken hash) (record'.disputed hash) = some (demand, primary)) :
    (∃ time, now < time + maxAge ∧
      Told ops peer hash time fun key => ¬ key.demand.lt demand = true) ∧
    (primary = true → ∃ time, now < time + maxAge ∧
      Told ops peer hash time fun key => key.primary = true) := by
  obtain ⟨left, snapshots, entries⟩ := accounted.expire h
  have within : ∀ heardAt, now < satAdd heardAt maxAge → now < heardAt + maxAge := by
    intro heardAt fresh
    unfold satAdd at fresh
    omega
  have taken : ∀ demand mark, record'.taken hash = some (demand, mark) → ∃ time,
      now < time + maxAge ∧ (Told ops peer hash time fun key => key.demand = demand) ∧
        Told ops peer hash time fun key => key.primary = mark := by
    intro demand mark said
    rw [taken, Option.bind_eq_some_iff] at said
    obtain ⟨snapshot, present, said⟩ := said
    obtain ⟨report, mem, own, keys⟩ := left.snapshot snapshot present
    rw [keys] at said
    exact ⟨snapshot.heardAt, within _ (snapshots snapshot present), told_report mem own said⟩
  have disputed : ∀ demand mark, record'.disputed hash = some (demand, mark) →
      ∃ entry, record'.contested[hash]? = some entry ∧ entry.demand = demand ∧
        entry.primary = mark := by
    intro demand mark said
    rw [disputed, Option.map_eq_some_iff] at said
    obtain ⟨entry, present, same⟩ := said
    exact ⟨entry, present, (Prod.ext_iff.mp same).1, (Prod.ext_iff.mp same).2⟩
  constructor
  · rcases joined_demand word with ⟨mark, said⟩ | ⟨mark, said⟩
    · obtain ⟨time, fresh, told, _⟩ := taken demand mark said
      obtain ⟨report, key, mem, own, keyMem, named, rfl⟩ := told
      exact ⟨time, fresh, report, key, mem, own, keyMem, named, F32.not_lt_self _⟩
    · obtain ⟨entry, present, rfl, _⟩ := disputed demand mark said
      exact ⟨entry.heardAt, within _ (entries hash entry present), left.demand hash entry present⟩
  · rintro rfl
    rcases joined_primary word with ⟨demand, said⟩ | ⟨demand, said⟩
    · obtain ⟨time, fresh, _, told⟩ := taken demand true said
      exact ⟨time, fresh, told⟩
    · obtain ⟨entry, present, _, mark⟩ := disputed demand true said
      exact ⟨entry.heardAt, within _ (entries hash entry present),
        left.primary hash entry present mark⟩

end

/-- Where no step renews a word with a lower one, what the store says right after expiring is
    at most what a report applied within the max age says, and it holds a key primary only if
    such a report does. -/
theorem demand_forgotten_in_time {ops : List DemandOp} {d : PeerDemand} (now maxAge : Nat)
    (h : PeerDemand.new.run ops = some d)
    (renews : PeerDemand.new.Along RenewsNothingOld ops) :
    (∀ peer hash heard, (d.expire now maxAge).get peer hash = some heard →
      ∃ time, now < time + maxAge ∧
        Told ops peer hash time fun key => ¬ key.demand.lt heard.demand = true) ∧
    ∀ hash, (d.expire now maxAge).hotElsewhere hash = true →
      ∃ peer time, now < time + maxAge ∧ Told ops peer hash time fun key => key.primary = true := by
  have accounted : d.Accounted ops := by
    have empty : PeerDemand.new.Accounted [] := by
      intro peer record there
      simp [PeerDemand.new] at there
    simpa using empty.run renews h
  have recent : ∀ peer record hash heard, (d.expire now maxAge).peers[peer]? = some record →
      record.heard hash = some heard →
        (∃ time, now < time + maxAge ∧
          Told ops peer hash time fun key => ¬ key.demand.lt heard.demand = true) ∧
        (heard.primary = true → ∃ time, now < time + maxAge ∧
          Told ops peer hash time fun key => key.primary = true) := by
    intro peer record hash heard there said
    rw [PeerDemand.expire_get, Option.bind_eq_some_iff] at there
    obtain ⟨before, present, expired⟩ := there
    have word := record.heard_word hash
    rw [said, Option.map_some] at word
    exact (accounted peer before present).recent expired word.symm
  constructor
  · intro peer hash heard got
    rw [PeerDemand.get, Option.bind_eq_some_iff] at got
    obtain ⟨record, there, said⟩ := got
    exact (recent peer record hash heard there said).1
  · intro hash hot
    simp only [PeerDemand.hotElsewhere, List.any_eq_true, Prod.exists] at hot
    obtain ⟨peer, record, mem, marked⟩ := hot
    obtain ⟨heard, said, primary⟩ := (Option.any_eq_true _ _).mp marked
    have there := ExtTreeMap.mem_toList_iff_getElem?_eq_some.mp mem
    obtain ⟨time, fresh, told⟩ := (recent peer record hash heard there said).2 primary
    exact ⟨peer, time, fresh, told⟩

/- Three reports come in reverse: the one of round 3 is the highest, and that of round 2
   renews it just before it would be stale. -/
def spikeOps : List DemandOp :=
  [.apply 1 ⟨1, 7, 4, [⟨42, eighty, false⟩]⟩ 0, .apply 1 ⟨1, 7, 3, [⟨42, hundredTwenty, true⟩]⟩ 1,
    .apply 1 ⟨1, 7, 2, [⟨42, ten, false⟩]⟩ 9]

theorem spikeOps_hears : ((PeerDemand.new.run spikeOps).any fun d =>
    (d.expire 12 10).get 1 42 == some ⟨hundredTwenty, true, 3, 9⟩ &&
      (d.expire 12 10).hotElsewhere 42) = true := by
  decide +kernel

/- What was told of key 42 less than 10 before 12 is a demand of ten, not primary. -/
theorem spikeOps_told {peer : PeerId} {time : Nat} {word : KeyDemand → Prop}
    (fresh : 12 < time + 10) (told : Told spikeOps peer 42 time word) : word ⟨42, ten, false⟩ := by
  obtain ⟨report, key, mem, _, keyMem, _, said⟩ := told
  simp only [spikeOps, List.mem_cons, DemandOp.apply.injEq, List.not_mem_nil, or_false] at mem
  rcases mem with ⟨_, _, rfl⟩ | ⟨_, _, rfl⟩ | ⟨_, rfl, _⟩
  · omega
  · omega
  · rw [List.mem_singleton] at keyMem
    exact keyMem ▸ said

theorem spike_outlives_window : InTime spikeOps ∧ ∃ d, PeerDemand.new.run spikeOps = some d ∧
    (∃ heard, (d.expire 12 10).get 1 42 = some heard ∧
      ¬ ∃ time, 12 < time + 10 ∧
        Told spikeOps 1 42 time fun key => ¬ key.demand.lt heard.demand = true) ∧
    (d.expire 12 10).hotElsewhere 42 = true ∧
      ¬ ∃ peer time, 12 < time + 10 ∧
        Told spikeOps peer 42 time fun key => key.primary = true := by
  obtain ⟨d, ran, heard⟩ := (Option.any_eq_true _ _).mp spikeOps_hears
  simp only [Bool.and_eq_true, beq_iff_eq] at heard
  refine ⟨by simp [InTime, spikeOps, DemandOp.time], d, ran, ⟨_, heard.1, ?_⟩, heard.2, ?_⟩
  · rintro ⟨time, fresh, told⟩
    exact spikeOps_told fresh told (by decide)
  · rintro ⟨peer, time, fresh, told⟩
    exact absurd (spikeOps_told fresh told) Bool.false_ne_true

/- With the last report left out the spike is never renewed. -/
theorem demand_forgotten_in_time_spike : ∃ d,
    PeerDemand.new.run (spikeOps.take 2) = some d ∧
      ∀ heard, (d.expire 10 10).get 1 42 = some heard → ∃ time, 10 < time + 10 ∧
        Told (spikeOps.take 2) 1 42 time fun key => ¬ key.demand.lt heard.demand = true := by
  obtain ⟨d, ran⟩ := PeerDemand.new.run_isSome (spikeOps.take 2)
  have renews : PeerDemand.new.Along RenewsNothingOld (spikeOps.take 2) := by
    refine ⟨?_, fun mid step => ⟨?_, fun _ _ => trivial⟩⟩
    · intro _ keys heardAt merged
      simp [PeerDemand.new, Peer.merges, Peer.default] at merged
    · intro _ keys heardAt _ hash word entry _ present
      obtain ⟨record, takes, rfl⟩ := PeerDemand.apply_takes step rfl
      cases takes with
      | first => simp [PeerDemand.new, Peer.default] at present
      | duplicate taken => simp [PeerDemand.new, Peer.default] at taken
      | contested taken => simp [PeerDemand.new, Peer.default] at taken
      | newer taken => simp [PeerDemand.new, Peer.default] at taken
      | replaced _ taken => simp [PeerDemand.new, Peer.default] at taken
  exact ⟨d, ran, fun heard got => (demand_forgotten_in_time 10 10 ran renews).1 1 42 heard got⟩

end Rateguard
