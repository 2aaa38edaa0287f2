import Rateguard.DemandStore

/- What a genuine report said outlasts every replay, as long as fewer keys than the contested
   table holds press on it. -/
namespace Rateguard
open Std (ExtTreeMap)

def DemandReport.Says (report : DemandReport) (hash : UInt64) : Prop :=
  ∃ key ∈ report.keys, key.keyHash = hash

/- What the store heard of the key from the peer at that time or later. -/
def Peer.HeardSince (peer : Peer) (time : Nat) (hash : UInt64) : Prop :=
  (∃ entry, peer.contested[hash]? = some entry ∧ time ≤ entry.heardAt) ∨
    ∃ snapshot word, peer.snapshot = some snapshot ∧ time ≤ snapshot.heardAt ∧
      snapshot.keys[hash]? = some word

structure Peer.Numbers (peer : Peer) : Prop where
  contested : ∀ (key : UInt64) (entry : Contested), peer.contested[key]? = some entry →
    entry.demand.IsNumber
  snapshot : ∀ snapshot, peer.snapshot = some snapshot → ∀ (key : UInt64) (word : Word),
    snapshot.keys[key]? = some word → word.1.IsNumber

/- The keys that may outlast the one in question: all others heard from then on. -/
structure Peer.Bounded (time : Nat) (hash : UInt64) (rivals : Finset UInt64) (peer : Peer) :
    Prop extends Peer.Numbers peer where
  held : peer.heldUntil = none
  rival : ∀ other, peer.HeardSince time other → other ≠ hash → other ∈ rivals

/- The word on the key still counts: in the snapshot of the report it comes from, or
   contested. -/
def Peer.StillCounts (time : Nat) (genuine : DemandReport) (hash : UInt64) (word : Word)
    (peer : Peer) : Prop :=
  (∃ snapshot, peer.snapshot = some snapshot ∧ snapshot.epoch = genuine.epoch ∧
    snapshot.round = genuine.round ∧ snapshot.heardAt = time ∧
    snapshot.keys[hash]? = some word) ∨
  ∃ entry, peer.contested[hash]? = some entry ∧ time ≤ entry.heardAt ∧
    ¬ entry.demand.lt word.1 = true ∧ (word.2 = true → entry.primary = true)

/-- A report that is sent again: of any epoch, round and keys, but not of a round of the
    genuine one's epoch less than a quarter circle ahead of it. -/
structure DemandReport.Replays (report genuine : DemandReport) : Prop where
  numbers : report.Numbers
  round : ¬ (report.epoch = genuine.epoch ∧ roundIsNewer report.round genuine.round = true ∧
    (report.round - genuine.round).toNat < implausibleJump)

section
variable {time now heardAt maxAge : Nat} {hash : UInt64} {rivals : Finset UInt64}
  {peer peer' : Peer} {genuine report : DemandReport} {word : Word} {keys : ReportedKeys}
  {round : UInt16}

theorem absorb_number {before : Option Contested} {demand : F32} {primary : Bool}
    (old : ∀ entry, before = some entry → entry.demand.IsNumber) (new : demand.IsNumber) :
    (absorb before demand primary round heardAt).demand.IsNumber := by
  cases before with
  | none => exact new
  | some entry =>
    simp only [absorb, Contested.merge]
    split
    · exact new
    · exact old entry rfl

theorem absorb_heardAt (before : Option Contested) (demand : F32) (primary : Bool) :
    (absorb before demand primary round heardAt).heardAt =
      max (before.elim heardAt (·.heardAt)) heardAt := by
  cases before with
  | none => simp [absorb]
  | some entry =>
    simp only [absorb, Contested.merge, Option.elim_some]
    split <;> rfl

theorem absorb_old (entry : Contested) (demand : F32) (primary : Bool) {word : Word}
    (lower : ¬ entry.demand.lt word.1 = true) (mark : word.2 = true → entry.primary = true) :
    ¬ (absorb (some entry) demand primary round heardAt).demand.lt word.1 = true ∧
      (word.2 = true → (absorb (some entry) demand primary round heardAt).primary = true) := by
  simp only [absorb, Contested.merge]
  constructor
  · split
    · rename_i less
      have number : entry.demand.IsNumber := by
        obtain ⟨i, _, order, _, _⟩ := F32.lt_iff.mp less
        simp [F32.IsNumber, order]
      exact F32.not_lt_trans number lower (F32.not_lt_of_lt less)
    · exact lower
  · intro marked
    split <;> simp [mark marked]

theorem absorb_new (before : Option Contested) (word : Word) :
    ¬ (absorb before word.1 word.2 round heardAt).demand.lt word.1 = true ∧
      (word.2 = true → (absorb before word.1 word.2 round heardAt).primary = true) := by
  cases before with
  | none => exact ⟨F32.not_lt_self _, id⟩
  | some entry =>
    simp only [absorb, Contested.merge]
    constructor
    · split
      · exact F32.not_lt_self _
      · rename_i notLess
        exact notLess
    · intro marked
      split <;> simp [marked]

theorem Peer.Bounded.contest (bounded : peer.Bounded time hash rivals)
    (numbers : ∀ (key : UInt64) (word : Word), keys[key]? = some word → word.1.IsNumber)
    (rival : time ≤ heardAt → ∀ (other : UInt64) (word : Word), keys[other]? = some word →
      other ≠ hash → other ∈ rivals)
    (contest : peer.contest keys round heardAt = some peer') :
    peer'.Bounded time hash rivals := by
  have entries := fun (key : UInt64) (entry : Contested) =>
    @Peer.contest_entry _ _ _ _ _ contest key entry
  obtain ⟨left, _, rfl⟩ := contest_some contest
  refine ⟨⟨?_, bounded.snapshot⟩, bounded.held, ?_⟩
  · intro key entry present
    rcases entries key entry present with ⟨_, before⟩ | ⟨demand, primary, said, rfl⟩
    · exact bounded.contested key entry before
    · exact absorb_number (bounded.contested key) (numbers key _ said)
  · intro other heard differs
    rcases heard with ⟨entry, present, later⟩ | taken
    · rcases entries other entry present with ⟨_, before⟩ | ⟨demand, primary, said, rfl⟩
      · exact bounded.rival other (.inl ⟨entry, before, later⟩) differs
      · rw [absorb_heardAt] at later
        rcases le_max_iff.mp later with old | new
        · cases before : peer.contested[other]? with
          | none =>
            rw [before] at old
            exact rival old other _ said differs
          | some entry =>
            rw [before] at old
            exact bounded.rival other (.inl ⟨entry, before, old⟩) differs
        · exact rival new other _ said differs
    · exact bounded.rival other (.inr taken) differs

/- The entry of the key is spared, as only rivals are heard as late. -/
theorem Peer.Bounded.spares (bounded : peer.Bounded time hash rivals)
    (few : rivals.card < maxContested)
    (rival : time ≤ heardAt → ∀ (other : UInt64) (word : Word), keys[other]? = some word →
      other ≠ hash → other ∈ rivals)
    (contest : peer.contest keys round heardAt = some peer') {entry : Contested}
    (merged : (mergeKeys peer.contested keys round heardAt)[hash]? = some entry)
    (late : time ≤ entry.heardAt) : peer'.contested[hash]? = some entry := by
  obtain ⟨left, dropped, rfl⟩ := contest_some contest
  refine dropOldest_spares dropped le_rfl merged few ?_
  intro other word present differs outside
  have early : ¬ time ≤ word.heardAt := by
    intro late
    rw [mergeKeys_get] at present
    cases said : keys[other]? with
    | none =>
      rw [said] at present
      exact outside (bounded.rival other (.inl ⟨word, present, late⟩) differs)
    | some new =>
      simp only [said, Option.some.injEq] at present
      rw [← present, absorb_heardAt] at late
      rcases le_max_iff.mp late with old | late
      · cases before : peer.contested[other]? with
        | none =>
          rw [before] at old
          exact outside (rival old other new said differs)
        | some entry =>
          rw [before] at old
          exact outside (bounded.rival other (.inl ⟨entry, before, old⟩) differs)
      · exact outside (rival late other new said differs)
  rw [Contested.turn, Contested.turn, Prod.Lex.toLex_lt_toLex]
  exact .inl (lt_of_lt_of_le (not_le.mp early) late)

theorem Peer.Bounded.entry_counts (bounded : peer.Bounded time hash rivals)
    (few : rivals.card < maxContested)
    (rival : time ≤ heardAt → ∀ (other : UInt64) (word : Word), keys[other]? = some word →
      other ≠ hash → other ∈ rivals)
    (contest : peer.contest keys round heardAt = some peer') {entry : Contested}
    (present : peer.contested[hash]? = some entry) (late : time ≤ entry.heardAt)
    (lower : ¬ entry.demand.lt word.1 = true) (mark : word.2 = true → entry.primary = true) :
    peer'.StillCounts time genuine hash word := by
  cases said : keys[hash]? with
  | none =>
    refine .inr ⟨entry, ?_, late, lower, mark⟩
    refine bounded.spares few rival contest ?_ late
    rw [mergeKeys_get, said]
    exact present
  | some new =>
    have after := @absorb_old heardAt round entry new.1 new.2 word lower mark
    have later : time ≤ (absorb (some entry) new.1 new.2 round heardAt).heardAt := by
      rw [absorb_heardAt]
      exact late.trans (le_max_left _ _)
    refine .inr ⟨_, bounded.spares few rival contest ?_ later, later, after.1, after.2⟩
    rw [mergeKeys_get, said, present]

theorem Peer.Bounded.word_counts (bounded : peer.Bounded time hash rivals)
    (few : rivals.card < maxContested)
    (rival : time ≤ heardAt → ∀ (other : UInt64) (word : Word), keys[other]? = some word →
      other ≠ hash → other ∈ rivals)
    (contest : peer.contest keys round heardAt = some peer') (late : time ≤ heardAt)
    (said : keys[hash]? = some word) : peer'.StillCounts time genuine hash word := by
  have after := @absorb_new heardAt round peer.contested[hash]? word
  have later : time ≤ (absorb peer.contested[hash]? word.1 word.2 round heardAt).heardAt := by
    rw [absorb_heardAt]
    exact late.trans (le_max_right _ _)
  refine .inr ⟨_, bounded.spares few rival contest ?_ later, later, after.1, after.2⟩
  rw [mergeKeys_get, said]

theorem Peer.Bounded.snapshot_rival (bounded : peer.Bounded time hash rivals)
    {snapshot : Snapshot} (taken : peer.snapshot = some snapshot)
    (late : time ≤ snapshot.heardAt) (other : UInt64) (word : Word)
    (said : snapshot.keys[other]? = some word) (differs : other ≠ hash) : other ∈ rivals :=
  bounded.rival other (.inr ⟨snapshot, word, taken, late, said⟩) differs

theorem Peer.Bounded.renew (bounded : peer.Bounded time hash rivals)
    (numbers : ∀ (key : UInt64) (word : Word), keys[key]? = some word → word.1.IsNumber)
    (rival : ∀ (other : UInt64) (word : Word), keys[other]? = some word →
      other ≠ hash → other ∈ rivals) (snapshot : Snapshot) (same : snapshot.keys = keys)
    {heldUntil : Option Nat} (held : heldUntil = none) :
    ({ peer with snapshot := some snapshot, heldUntil } : Peer).Bounded time hash rivals := by
  refine ⟨⟨bounded.contested, ?_⟩, held, ?_⟩
  · intro taken is key word said
    rw [Option.some.injEq] at is
    rw [← is, same] at said
    exact numbers key word said
  · intro other heard differs
    rcases heard with contested | ⟨taken, word, is, _, said⟩
    · exact bounded.rival other (.inl contested) differs
    · rw [Option.some.injEq] at is
      rw [← is, same] at said
      exact rival other word said differs

theorem Peer.Bounded.takes (bounded : peer.Bounded time hash rivals) (numbers : report.Numbers)
    (rival : ∀ other, report.Says other → other ≠ hash → other ∈ rivals)
    (takes : peer.Takes report now peer') : peer'.Bounded time hash rivals := by
  have words := fun (key : UInt64) (word : Word) =>
    @DemandReport.keyMap_number _ numbers key word
  have others : ∀ (other : UInt64) (word : Word), report.keyMap[other]? = some word →
      other ≠ hash → other ∈ rivals := by
    intro other word said
    obtain ⟨key, mem, named, _⟩ := DemandReport.keyMap_said said
    exact rival other ⟨key, mem, named⟩
  cases takes with
  | first => exact bounded.renew words others _ rfl rfl
  | duplicate => exact bounded
  | contested _ _ _ contest => exact bounded.contest words (fun _ => others) contest
  | newer => exact bounded.renew words others _ rfl rfl
  | @replaced old kept pastEpochs snapshot _ _ _ contest =>
    have renewed := bounded.renew words others
      ⟨report.epoch, pastEpochs, report.round, now, report.keyMap⟩ rfl bounded.held
    have after := renewed.contest (bounded.snapshot old snapshot)
      (bounded.snapshot_rival snapshot) contest
    exact ⟨⟨after.contested, after.snapshot⟩, rfl, after.rival⟩

/- No replay, whichever way it is taken in, does away with a word that counts. -/
theorem Peer.Bounded.still_counts (bounded : peer.Bounded time hash rivals)
    (few : rivals.card < maxContested) (replays : report.Replays genuine)
    (rival : ∀ other, report.Says other → other ≠ hash → other ∈ rivals)
    (counts : peer.StillCounts time genuine hash word) (takes : peer.Takes report now peer') :
    peer'.StillCounts time genuine hash word := by
  have words := fun (key : UInt64) (word : Word) =>
    @DemandReport.keyMap_number _ replays.numbers key word
  have others : ∀ (other : UInt64) (word : Word), report.keyMap[other]? = some word →
      other ≠ hash → other ∈ rivals := by
    intro other word said
    obtain ⟨key, mem, named, _⟩ := DemandReport.keyMap_said said
    exact rival other ⟨key, mem, named⟩
  cases takes with
  | first absent =>
    rcases counts with ⟨snapshot, taken, _⟩ | entry
    · rw [absent] at taken
      simp at taken
    · exact .inr entry
  | duplicate => exact counts
  | contested _ _ _ contest =>
    rcases counts with ⟨snapshot, taken⟩ | ⟨entry, present, late, lower, mark⟩
    · obtain ⟨left, _, rfl⟩ := contest_some contest
      exact .inl ⟨snapshot, taken⟩
    · exact bounded.entry_counts few (fun _ => others) contest present late lower mark
  | newer snapshot epoch fresh later near =>
    rcases counts with ⟨taken, is, genuineEpoch, genuineRound, _⟩ | entry
    · -- a round so little ahead of the genuine one is excluded
      rw [snapshot, Option.some.injEq] at is
      subst is
      rw [genuineRound] at later near
      exact absurd ⟨epoch.symm.trans genuineEpoch, later, near⟩ replays.round
    · exact .inr entry
  | @replaced old kept pastEpochs snapshot _ _ _ contest =>
    have renewed := bounded.renew words others
      ⟨report.epoch, pastEpochs, report.round, now, report.keyMap⟩ rfl bounded.held
    have after : kept.StillCounts time genuine hash word := by
      rcases counts with ⟨taken, is, _, _, heard, said⟩ | ⟨entry, present, late, lower, mark⟩
      · rw [snapshot, Option.some.injEq] at is
        subst is
        exact renewed.word_counts few (bounded.snapshot_rival snapshot) contest heard.ge said
      · exact renewed.entry_counts few (bounded.snapshot_rival snapshot) contest present late
          lower mark
    exact after

/- The genuine report counts from when it is applied, unless it only repeats the snapshot. -/
theorem Peer.Bounded.counts (bounded : peer.Bounded time hash rivals)
    (few : rivals.card < maxContested)
    (rival : ∀ other, genuine.Says other → other ≠ hash → other ∈ rivals)
    (said : genuine.keyMap[hash]? = some word)
    (differs : ¬ ∃ snapshot, peer.snapshot = some snapshot ∧ snapshot.epoch = genuine.epoch ∧
      snapshot.round = genuine.round ∧ sameKeys snapshot.keys genuine.keyMap = true)
    (takes : peer.Takes genuine time peer') : peer'.StillCounts time genuine hash word := by
  have others : ∀ (other : UInt64) (word : Word), genuine.keyMap[other]? = some word →
      other ≠ hash → other ∈ rivals := by
    intro other word said
    obtain ⟨key, mem, named, _⟩ := DemandReport.keyMap_said said
    exact rival other ⟨key, mem, named⟩
  cases takes with
  | first => exact .inl ⟨_, rfl, rfl, rfl, rfl, said⟩
  | duplicate snapshot epoch round keys => exact absurd ⟨_, snapshot, epoch, round, keys⟩ differs
  | contested _ _ _ contest =>
    exact bounded.word_counts few (fun _ => others) contest le_rfl said
  | newer => exact .inl ⟨_, rfl, rfl, rfl, rfl, said⟩
  | replaced _ _ _ _ _ contest =>
    obtain ⟨left, _, rfl⟩ := contest_some contest
    exact .inl ⟨_, rfl, rfl, rfl, rfl, said⟩

/- Until the max age has passed the word is not dropped as stale. -/
theorem Peer.Bounded.expire (bounded : peer.Bounded time hash rivals)
    (counts : peer.StillCounts time genuine hash word) (fresh : now < satAdd time maxAge) :
    ∃ peer', peer.expire now maxAge = some peer' ∧ peer'.Bounded time hash rivals ∧
      peer'.StillCounts time genuine hash word := by
  have later : ∀ heardAt, time ≤ heardAt → now < satAdd heardAt maxAge := by
    intro heardAt late
    unfold satAdd at fresh ⊢
    omega
  cases expired : peer.expire now maxAge with
  | none =>
    obtain ⟨noSnapshot, noEntry⟩ := expire_none bounded.held expired
    rcases counts with ⟨snapshot, is, _, _, heard, _⟩ | ⟨entry, present, late, _⟩
    · exact absurd (later _ heard.ge) (noSnapshot snapshot is)
    · exact absurd (later _ late) (noEntry hash entry present)
  | some left =>
    refine ⟨left, rfl, ?_⟩
    rcases expire_some expired with ⟨til, held, _⟩ | ⟨_, held, snapshots, entries⟩
    · rw [bounded.held] at held
      simp at held
    · have oldEntry : ∀ (key : UInt64) (entry : Contested), left.contested[key]? = some entry →
          peer.contested[key]? = some entry := by
        intro key entry present
        rw [entries, Option.filter_eq_some_iff] at present
        exact present.1
      have oldSnapshot : ∀ snapshot, left.snapshot = some snapshot →
          peer.snapshot = some snapshot := by
        intro snapshot present
        rw [snapshots, Option.filter_eq_some_iff] at present
        exact present.1
      refine ⟨⟨⟨?_, ?_⟩, held, ?_⟩, ?_⟩
      · intro key entry present
        exact bounded.contested key entry (oldEntry key entry present)
      · intro snapshot present
        exact bounded.snapshot snapshot (oldSnapshot snapshot present)
      · intro other heard differs
        rcases heard with ⟨entry, present, late⟩ | ⟨snapshot, word, is, rest⟩
        · exact bounded.rival other (.inl ⟨entry, oldEntry other entry present, late⟩) differs
        · exact bounded.rival other (.inr ⟨snapshot, word, oldSnapshot snapshot is, rest⟩) differs
      · rcases counts with ⟨snapshot, is, epoch, round, heard, said⟩ | ⟨entry, present, rest⟩
        · refine .inl ⟨snapshot, ?_, epoch, round, heard, said⟩
          rw [snapshots, Option.filter_eq_some_iff]
          exact ⟨is, decide_eq_true (later _ heard.ge)⟩
        · refine .inr ⟨entry, ?_, rest⟩
          rw [entries, Option.filter_eq_some_iff]
          exact ⟨present, decide_eq_true (later _ rest.1)⟩

theorem Peer.StillCounts.heard (bounded : peer.Bounded time hash rivals)
    (counts : peer.StillCounts time genuine hash word) :
    ∃ heard, peer.heard hash = some heard ∧ ¬ heard.demand.lt word.1 = true ∧
      (word.2 = true → heard.primary = true) := by
  have words := peer.heard_word hash
  rcases counts with ⟨snapshot, is, _, _, _, said⟩ | ⟨entry, present, _, lower, mark⟩
  · rw [taken, is, Option.bind_some, said] at words
    obtain ⟨join, joins, demand, primary⟩ := joined_taken word.1 word.2 (peer.disputed hash)
    rw [joins, Option.map_eq_some_iff] at words
    obtain ⟨heard, got, rfl⟩ := words
    exact ⟨heard, got, demand, primary⟩
  · rw [disputed, present, Option.map_some] at words
    obtain ⟨join, joins, demand, primary⟩ :=
      joined_disputed (peer.taken hash) entry.demand entry.primary
    rw [joins, Option.map_eq_some_iff] at words
    obtain ⟨heard, got, rfl⟩ := words
    exact ⟨heard, got, F32.not_lt_trans (bounded.contested hash entry present) lower demand,
      fun marked => primary (mark marked)⟩

end

/-- A report of a live peer that does not just repeat the snapshot the store has of it. -/
structure PeerDemand.Genuine (d : PeerDemand) (sender : PeerId) (genuine : DemandReport) :
    Prop where
  own : genuine.origin = sender
  numbers : genuine.Numbers
  live : (d.peers[sender]?.getD Peer.default).heldUntil = none
  stored : (d.peers[sender]?.getD Peer.default).Numbers
  differs : ¬ ∃ snapshot, (d.peers[sender]?.getD Peer.default).snapshot = some snapshot ∧
    snapshot.epoch = genuine.epoch ∧ snapshot.round = genuine.round ∧
    sameKeys snapshot.keys genuine.keyMap = true

/- After the genuine report: replays of the same peer whose other keys are rivals, any reports
   of other peers, and expiry before the genuine report is stale. -/
def Pressing (sender : PeerId) (genuine : DemandReport) (time : Nat) (hash : UInt64)
    (rivals : Finset UInt64) : DemandOp → Prop
  | .apply other report _ => other = sender → report.Replays genuine ∧
    ∀ other, report.Says other → other ≠ hash → other ∈ rivals
  | .expire now maxAge => now < satAdd time maxAge

section
variable {sender : PeerId} {genuine : DemandReport} {time : Nat} {hash : UInt64} {word : Word}
  {rivals : Finset UInt64} {d d' : PeerDemand}

def PeerDemand.Keeps (d : PeerDemand) (sender : PeerId) (genuine : DemandReport) (time : Nat)
    (hash : UInt64) (word : Word) (rivals : Finset UInt64) : Prop :=
  ∃ peer, d.peers[sender]? = some peer ∧ peer.Bounded time hash rivals ∧
    peer.StillCounts time genuine hash word

theorem PeerDemand.Keeps.step {op : DemandOp} (few : rivals.card < maxContested)
    (keeps : d.Keeps sender genuine time hash word rivals)
    (pressing : Pressing sender genuine time hash rivals op) (h : d.step op = some d') :
    d'.Keeps sender genuine time hash word rivals := by
  obtain ⟨peer, there, bounded, counts⟩ := keeps
  cases op with
  | expire now maxAge =>
    simp only [PeerDemand.step, Option.some.injEq] at h
    subst h
    obtain ⟨left, expired, still⟩ := bounded.expire counts pressing
    refine ⟨left, ?_, still⟩
    rw [expire_get, there, Option.bind_some, expired]
  | apply other report now =>
    by_cases own : report.origin = other
    · obtain ⟨record, takes, rfl⟩ := apply_takes h own
      by_cases same : other = sender
      · subst same
        obtain ⟨replays, rival⟩ := pressing rfl
        rw [there, Option.getD_some] at takes
        refine ⟨record, ?_, bounded.takes replays.numbers rival takes,
          bounded.still_counts few replays rival counts takes⟩
        rw [insert_get, if_pos rfl]
      · refine ⟨peer, ?_, bounded, counts⟩
        rw [insert_get, if_neg same, there]
    · rw [apply_other h own]
      exact ⟨peer, there, bounded, counts⟩

theorem PeerDemand.Keeps.run {ops : List DemandOp} (few : rivals.card < maxContested)
    (keeps : d.Keeps sender genuine time hash word rivals)
    (pressing : ∀ op ∈ ops, Pressing sender genuine time hash rivals op)
    (h : d.run ops = some d') : d'.Keeps sender genuine time hash word rivals := by
  induction ops generalizing d with
  | nil =>
    simp only [PeerDemand.run, List.foldlM_nil, Option.pure_def, Option.some.injEq] at h
    exact h ▸ keeps
  | cons op ops ih =>
    obtain ⟨mid, step, rest⟩ := run_cons h
    have first := keeps.step few (pressing op List.mem_cons_self) step
    exact ih first (fun op mem => pressing op (List.mem_cons_of_mem _ mem)) rest

end

/-- Once a genuine report is applied, and until it is stale, what the store says of each of its
    keys is no less than the report did, whatever replays follow: as long as all other keys
    heard of the peer since then are fewer than the contested table holds. -/
theorem replays_only_stricter {sender : PeerId} {genuine : DemandReport} {time : Nat}
    {hash : UInt64} {word : Word} {rivals : Finset UInt64} {d applied d' : PeerDemand}
    {ops : List DemandOp} (reported : d.Genuine sender genuine)
    (said : genuine.keyMap[hash]? = some word) (few : rivals.card < maxContested)
    (before : ∀ other, (d.peers[sender]?.getD Peer.default).HeardSince time other →
      other ≠ hash → other ∈ rivals)
    (alongside : ∀ other, genuine.Says other → other ≠ hash → other ∈ rivals)
    (after : ∀ op ∈ ops, Pressing sender genuine time hash rivals op)
    (h : d.apply sender genuine time = some applied) (ran : applied.run ops = some d') :
    ∃ heard, d'.get sender hash = some heard ∧ ¬ heard.demand.lt word.1 = true ∧
      (word.2 = true → heard.primary = true) := by
  obtain ⟨record, takes, rfl⟩ := PeerDemand.apply_takes h reported.own
  have bounded : (d.peers[sender]?.getD Peer.default).Bounded time hash rivals :=
    ⟨reported.stored, reported.live, before⟩
  have first : PeerDemand.Keeps ⟨d.peers.insert sender record⟩ sender genuine time hash word
      rivals := by
    refine ⟨record, ?_, bounded.takes reported.numbers alongside takes,
      bounded.counts few alongside said reported.differs takes⟩
    rw [PeerDemand.insert_get, if_pos rfl]
  obtain ⟨peer, there, bounded, counts⟩ := first.run few after ran
  obtain ⟨heard, got, demand, primary⟩ := counts.heard bounded
  refine ⟨heard, ?_, demand, primary⟩
  rw [PeerDemand.get, there, Option.bind_some, got]

/- A report of an epoch never seen moves the genuine one to the contested keys, and four more
   replays fill them with other keys. -/
def genuineReport : DemandReport := inEpoch 7 100 0 eighty

def floodKeys (part : Nat) : List KeyDemand :=
  (List.range maxMessageKeys).map fun i => ⟨UInt64.ofNat (maxMessageKeys * part + i + 1), ten, false⟩

def floodReports : List DemandReport :=
  ⟨1, 8, 0, []⟩ :: (List.range 4).map fun part => ⟨1, 7, 90, floodKeys part⟩

def floodOps : List DemandOp := floodReports.map fun report => .apply 1 report 2

def floodRun : Option PeerDemand := do
  let reported ← PeerDemand.new.apply 1 genuineReport 0
  reported.run floodOps

theorem floodRun_forgets : (floodRun.any fun d => d.get 1 0 = none) = true := by
  decide +kernel

theorem floodReports_replay : ∀ report ∈ floodReports, report.Replays genuineReport ∧
    report.keys.length ≤ maxMessageKeys := by
  have numbers : ∀ report ∈ floodReports, ∀ key ∈ report.keys, key.demand.IsNumber := by
    decide +kernel
  have rounds : ∀ report ∈ floodReports, ¬ (report.epoch = genuineReport.epoch ∧
      roundIsNewer report.round genuineReport.round = true ∧
        (report.round - genuineReport.round).toNat < implausibleJump) := by
    decide +kernel
  have lengths : ∀ report ∈ floodReports, report.keys.length ≤ maxMessageKeys := by
    decide +kernel
  intro report mem
  exact ⟨⟨numbers report mem, rounds report mem⟩, lengths report mem⟩

/- A report that repeats the snapshot does not count from when it is applied. -/
def repeatRun : Option (PeerDemand × PeerDemand) := do
  let reported ← PeerDemand.new.apply 1 genuineReport 0
  let repeated ← reported.apply 1 genuineReport 5
  some (reported, repeated)

theorem repeatRun_forgets :
    (repeatRun.any fun run => (run.2.expire 10 10).get 1 0 = none) = true := by
  decide +kernel

/- The store forgets the genuine report 2 after it was applied to the flood, and 5 after it was
   repeated to no replay at all. -/
theorem flood_evicts : (∃ reported d, PeerDemand.new.apply 1 genuineReport 0 = some reported ∧
      (∀ report ∈ floodReports, report.Replays genuineReport ∧
        report.keys.length ≤ maxMessageKeys) ∧
      reported.run (floodReports.map fun report => .apply 1 report 2) = some d ∧
      d.get 1 0 = none) ∧
    ∃ reported repeated, PeerDemand.new.apply 1 genuineReport 0 = some reported ∧
      reported.apply 1 genuineReport 5 = some repeated ∧
      (repeated.expire 10 10).get 1 0 = none := by
  constructor
  · obtain ⟨d, ran, forgotten⟩ := (Option.any_eq_true _ _).mp floodRun_forgets
    simp only [floodRun, bind, Option.bind_eq_some_iff] at ran
    obtain ⟨reported, first, rest⟩ := ran
    exact ⟨reported, d, first, floodReports_replay, rest, by simpa using forgotten⟩
  · obtain ⟨⟨reported, repeated⟩, ran, forgotten⟩ := (Option.any_eq_true _ _).mp repeatRun_forgets
    simp only [repeatRun, bind, Option.bind_eq_some_iff, Option.some.injEq, Prod.mk.injEq] at ran
    obtain ⟨first, applied, second, again, rfl, rfl⟩ := ran
    exact ⟨_, _, applied, again, by simpa using forgotten⟩

/- A replay of another epoch with another key, and an expiry. -/
def strictOps : List DemandOp := [.apply 1 (inEpoch 8 3 5 hundredTwenty) 1, .expire 9 10]

theorem replays_only_stricter_strict : ∃ applied d',
    PeerDemand.new.apply 1 genuineReport 0 = some applied ∧ applied.run strictOps = some d' ∧
      ∃ heard, d'.get 1 0 = some heard ∧ ¬ heard.demand.lt eighty = true := by
  obtain ⟨applied, h⟩ := PeerDemand.new.apply_isSome 1 genuineReport 0
  obtain ⟨d', ran⟩ := applied.run_isSome strictOps
  have empty : PeerDemand.new.peers[(1 : PeerId)]?.getD Peer.default = Peer.default := by
    simp [PeerDemand.new]
  have reported : PeerDemand.new.Genuine 1 genuineReport := by
    refine ⟨rfl, by decide, ?_, ?_, ?_⟩ <;> rw [empty]
    · rfl
    · exact ⟨by simp [Peer.default], by simp [Peer.default]⟩
    · simp [Peer.default]
  have pressing : ∀ op ∈ strictOps, Pressing 1 genuineReport 0 0 {5} op := by
    have replays : (inEpoch 8 3 5 hundredTwenty).Replays genuineReport := ⟨by decide, by decide⟩
    simpa [strictOps, Pressing, DemandReport.Says, inEpoch, satAdd, u64Max] using replays
  have first : ∀ other, genuineReport.Says other → other ≠ 0 → other ∈ ({5} : Finset UInt64) := by
    rintro other ⟨key, mem, rfl⟩ differs
    simp only [genuineReport, inEpoch, List.mem_singleton] at mem
    exact absurd (congrArg KeyDemand.keyHash mem) differs
  have word : genuineReport.keyMap[(0 : UInt64)]? = some (eighty, true) := by
    decide +kernel
  have before : ∀ other, (PeerDemand.new.peers[(1 : PeerId)]?.getD Peer.default).HeardSince 0 other →
      other ≠ 0 → other ∈ ({5} : Finset UInt64) := by
    intro other heard
    rw [empty] at heard
    simp [Peer.HeardSince, Peer.default] at heard
  obtain ⟨heard, got, demand, _⟩ := replays_only_stricter reported word
    (by decide) before first pressing h ran
  exact ⟨applied, d', h, ran, heard, got, demand⟩

end Rateguard
