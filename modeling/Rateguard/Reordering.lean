import Rateguard.DemandStore

/- The reports of one run of a peer, delivered in any order, lost or repeated: the store
   keeps the newest, and nothing it says is lower than that. -/
namespace Rateguard
open Std (ExtTreeMap)

/- How far into the arc that starts at base a round lies. -/
def offset (base round : UInt16) : Nat := (round - base).toNat

def halfCircle : Nat := 0x8000

theorem offset_inj {base one two : UInt16} (h : offset base one = offset base two) :
    one = two := by
  have same := UInt16.toNat_inj.mp h
  simpa using same

theorem ahead_eq {base one two : UInt16} (ahead : offset base two ≤ offset base one) :
    (one - two).toNat = offset base one - offset base two := by
  have first := one.toNat_lt
  have second := two.toNat_lt
  have third := base.toNat_lt
  simp only [offset, UInt16.toNat_sub] at *
  omega

/- Within half the circle rounds compare as they lie in it. -/
theorem roundIsNewer_iff {base one two : UInt16} (first : offset base one < halfCircle)
    (second : offset base two < halfCircle) :
    roundIsNewer one two = true ↔ offset base two < offset base one := by
  have upper := one.toNat_lt
  have upper' := two.toNat_lt
  have upper'' := base.toNat_lt
  have distinct : one = two ↔ one.toNat = two.toNat := UInt16.toNat_inj.symm
  simp only [roundIsNewer, Bool.and_eq_true, bne_iff_ne, ne_eq, decide_eq_true_eq, distinct]
  simp only [offset, halfCircle, UInt16.toNat_sub] at *
  omega

/-- The reports of one peer in one epoch: one a round, the rounds in an arc shorter than half
    the circle, and no key twice in a report. -/
structure OneRun (peer : PeerId) (epoch : UInt32) (base : UInt16)
    (said : DemandReport → Prop) : Prop where
  origin : ∀ report, said report → report.origin = peer
  epoch : ∀ report, said report → report.epoch = epoch
  arc : ∀ report, said report → offset base report.round < halfCircle
  rounds : ∀ one two, said one → said two → one.round = two.round → one = two
  distinct : ∀ report, said report → (report.keys.map (·.keyHash)).Nodup

/- A report of the run is delivered, or what is stale goes, no earlier than start; at each
   expiry less than its max age passed since then, as the code adds times. -/
def Delivers (peer : PeerId) (said : DemandReport → Prop) (start : Nat) : DemandOp → Prop
  | .apply sender report now => sender = peer ∧ said report ∧ start ≤ now
  | .expire now maxAge => start ≤ now ∧ now < satAdd start maxAge

/- One report follows another, or repeats it, less than a quarter circle of rounds later. -/
def Follows (base : UInt16) (earlier later : DemandReport) : Prop :=
  offset base earlier.round ≤ offset base later.round ∧
    offset base later.round - offset base earlier.round < implausibleJump

def InOrder (base : UInt16) (delivered : List DemandReport) : Prop :=
  delivered.IsChain (Follows base)

/- Every contested entry is a word of one of these reports, heard from start on. -/
def AllSaid (start : Nat) (delivered : List DemandReport)
    (contested : ExtTreeMap UInt64 Contested) : Prop :=
  ∀ (key : UInt64) (entry : Contested), contested[key]? = some entry → start ≤ entry.heardAt ∧
    ∃ report ∈ delivered, ∃ mark, report.keyMap[key]? = some (entry.demand, mark)

theorem AllSaid.append {start : Nat} {delivered : List DemandReport}
    {contested : ExtTreeMap UInt64 Contested} (said : AllSaid start delivered contested)
    (more : List DemandReport) : AllSaid start (delivered ++ more) contested := by
  intro key entry present
  obtain ⟨fresh, report, mem, mark, word⟩ := said key entry present
  exact ⟨fresh, report, List.mem_append_left _ mem, mark, word⟩

theorem AllSaid.contest {start heardAt : Nat} {delivered : List DemandReport}
    {record record' : Peer} {report : DemandReport}
    (said : AllSaid start delivered record.contested) (mem : report ∈ delivered)
    (later : start ≤ heardAt)
    (contest : record.contest report.keyMap report.round heardAt = some record') :
    AllSaid start delivered record'.contested := by
  intro key entry present
  rcases Peer.contest_entry contest present with ⟨_, before⟩ | ⟨demand, primary, word, rfl⟩
  · exact said key entry before
  · cases before : record.contested[key]? with
    | none => exact ⟨later, report, mem, primary, word⟩
    | some old =>
      obtain ⟨fresh, other, otherMem, mark, otherWord⟩ := said key old before
      simp only [absorb, Contested.merge]
      refine ⟨by split <;> omega, ?_⟩
      split
      · exact ⟨report, mem, primary, word⟩
      · exact ⟨other, otherMem, mark, otherWord⟩

/- What the store holds of the peer once these reports were delivered. -/
structure TellsNewest (base : UInt16) (start : Nat) (delivered : List DemandReport)
    (newest : DemandReport) (record : Peer) : Prop where
  mem : newest ∈ delivered
  last : ∀ report ∈ delivered, offset base report.round ≤ offset base newest.round
  held : record.heldUntil = none
  snapshot : ∃ heardAt, start ≤ heardAt ∧
    record.snapshot = some ⟨newest.epoch, [], newest.round, heardAt, newest.keyMap⟩
  contested : AllSaid start delivered record.contested
  calm : InOrder base delivered → (∀ report ∈ delivered, report.Numbers) →
    ∀ key : UInt64, record.contested[key]? = none

def Tells (base : UInt16) (start : Nat) (peer : PeerId) (delivered : List DemandReport)
    (d : PeerDemand) : Prop :=
  match d.peers[peer]? with
  | none => delivered = []
  | some record => ∃ newest, TellsNewest base start delivered newest record

theorem sameKeys_self {report : DemandReport} (numbers : report.Numbers) :
    sameKeys report.keyMap report.keyMap = true := by
  simp only [sameKeys, decide_true, Bool.true_and, List.all_eq_true, Prod.forall]
  intro key demand primary mem
  have word := ExtTreeMap.mem_toList_iff_getElem?_eq_some.mp mem
  obtain ⟨said, present, _, named, _⟩ := DemandReport.keyMap_said word
  have number : demand.IsNumber := named ▸ numbers said present
  simp [word, F32.same_self number]

theorem InOrder.last_max {base : UInt16} {delivered : List DemandReport} {last : DemandReport}
    (order : InOrder base (delivered ++ [last])) :
    ∀ report ∈ delivered, offset base report.round ≤ offset base last.round := by
  have chain : (delivered ++ [last]).IsChain
      fun a b => offset base a.round ≤ offset base b.round := order.imp fun _ _ h => h.1
  have trans : ∀ a b c : DemandReport, offset base a.round ≤ offset base b.round →
      offset base b.round ≤ offset base c.round → offset base a.round ≤ offset base c.round :=
    fun _ _ _ => Nat.le_trans
  have pairs := List.isChain_iff_pairwise.mp chain
  intro report mem
  exact (List.pairwise_append.mp pairs).2.2 report mem last (List.mem_singleton.mpr rfl)

theorem InOrder.front {base : UInt16} {delivered more : List DemandReport}
    (order : InOrder base (delivered ++ more)) : InOrder base delivered :=
  List.IsChain.left_of_append order

theorem InOrder.step {base : UInt16} {delivered : List DemandReport} {one two : DemandReport}
    (order : InOrder base (delivered ++ [one] ++ [two])) : Follows base one two := by
  rw [InOrder, List.append_assoc] at order
  have pair : List.IsChain (Follows base) [one, two] := order.right_of_append
  exact List.isChain_pair.mp pair

section
variable {peer : PeerId} {epoch : UInt32} {base : UInt16} {said : DemandReport → Prop}
  {start : Nat} {delivered : List DemandReport} {newest report : DemandReport}
  {record record' : Peer}

theorem TellsNewest.follows (run : OneRun peer epoch base said)
    (all : ∀ report ∈ delivered, said report)
    (tells : TellsNewest base start delivered newest record)
    (order : InOrder base (delivered ++ [report])) : Follows base newest report := by
  rcases List.eq_nil_or_concat' delivered with empty | ⟨front, last, split⟩
  · exact absurd (empty ▸ tells.mem) List.not_mem_nil
  · subst split
    have lastMem : last ∈ front ++ [last] := List.mem_append_right _ List.mem_cons_self
    have upper : offset base newest.round ≤ offset base last.round := by
      rcases List.mem_append.mp tells.mem with mem | mem
      · exact order.front.last_max newest mem
      · rw [List.mem_singleton.mp mem]
    have round := offset_inj (Nat.le_antisymm upper (tells.last last lastMem))
    have same := run.rounds newest last (all newest tells.mem) (all last lastMem) round
    exact same ▸ order.step

theorem tellsNewest_first (later : start ≤ now) :
    TellsNewest base start [report] report { Peer.default with
      snapshot := some ⟨report.epoch, [], report.round, now, report.keyMap⟩ } where
  mem := List.mem_singleton.mpr rfl
  last := by
    intro other mem
    rw [List.mem_singleton.mp mem]
  held := rfl
  snapshot := ⟨now, later, rfl⟩
  contested := by
    intro key entry present
    simp [Peer.default] at present
  calm := by
    intro _ _ key
    simp [Peer.default]

theorem TellsNewest.step (run : OneRun peer epoch base said)
    (all : ∀ report ∈ delivered, said report) (new : said report) (later : start ≤ now)
    (tells : TellsNewest base start delivered newest record)
    (takes : record.Takes report now record') :
    ∃ newest, TellsNewest base start (delivered ++ [report]) newest record' := by
  have inArc := run.arc report new
  have newestSaid := all newest tells.mem
  have newestArc := run.arc newest newestSaid
  have epochs : newest.epoch = report.epoch := by
    rw [run.epoch newest newestSaid, run.epoch report new]
  have here : report ∈ delivered ++ [report] :=
    List.mem_append_right _ (List.mem_singleton.mpr rfl)
  obtain ⟨heardAt, fresh, current⟩ := tells.snapshot
  -- a newer report is the newest of all; one that is not leaves the newest as it was
  have lastNewer : offset base newest.round < offset base report.round →
      ∀ other ∈ delivered ++ [report], offset base other.round ≤ offset base report.round := by
    intro ahead other mem
    rcases List.mem_append.mp mem with mem | mem
    · have := tells.last other mem
      omega
    · rw [List.mem_singleton.mp mem]
  have lastOlder : ¬ offset base newest.round < offset base report.round →
      ∀ other ∈ delivered ++ [report], offset base other.round ≤ offset base newest.round := by
    intro behind other mem
    rcases List.mem_append.mp mem with mem | mem
    · exact tells.last other mem
    · rw [List.mem_singleton.mp mem]
      omega
  have entries := tells.contested.append [report]
  have stillCalm : InOrder base (delivered ++ [report]) →
      (∀ other ∈ delivered ++ [report], other.Numbers) →
        ∀ key : UInt64, record.contested[key]? = none :=
    fun order numbers => tells.calm order.front
      fun other mem => numbers other (List.mem_append_left _ mem)
  cases takes with
  | first absent =>
    rw [current] at absent
    simp at absent
  | duplicate snapshot _ round _ =>
    rw [current, Option.some.injEq] at snapshot
    subst snapshot
    have same := run.rounds newest report newestSaid new round
    have behind : ¬ offset base newest.round < offset base report.round := by
      rw [same]
      exact lt_irrefl _
    exact ⟨newest, List.mem_append_left _ tells.mem, lastOlder behind, tells.held,
      ⟨heardAt, fresh, current⟩, entries, stillCalm⟩
  | contested snapshot refused differs contest =>
    rw [current, Option.some.injEq] at snapshot
    subst snapshot
    have notNewer : roundIsNewer report.round newest.round = false := by
      simpa [epochs] using refused
    have behind : ¬ offset base newest.round < offset base report.round := by
      rw [← roundIsNewer_iff inArc newestArc, notNewer]
      exact Bool.false_ne_true
    obtain ⟨left, _, rfl⟩ := Peer.contest_some contest
    refine ⟨newest, List.mem_append_left _ tells.mem, lastOlder behind, tells.held,
      ⟨heardAt, fresh, current⟩, entries.contest here later contest, ?_⟩
    intro order numbers
    -- in order it would be the newest again, an exact duplicate
    have next := tells.follows run all order
    have round : newest.round = report.round :=
      offset_inj (Nat.le_antisymm next.1 (not_lt.mp behind))
    have same := run.rounds newest report newestSaid new round
    refine absurd ⟨epochs, round, ?_⟩ differs
    rw [same]
    exact sameKeys_self (numbers report here)
  | newer snapshot _ _ ahead _ =>
    rw [current, Option.some.injEq] at snapshot
    subst snapshot
    rw [roundIsNewer_iff inArc newestArc] at ahead
    exact ⟨report, here, lastNewer ahead, rfl, ⟨now, later, rfl⟩, entries, stillCalm⟩
  | @replaced old kept pastEpochs snapshot _ jump past contest =>
    rw [current, Option.some.injEq] at snapshot
    subst snapshot
    obtain ⟨ahead, far⟩ := jump.resolve_left (not_not.mpr epochs)
    rw [roundIsNewer_iff inArc newestArc] at ahead
    have past : pastEpochs = [] := by simpa [epochs] using past
    have words : AllSaid start (delivered ++ [report]) kept.contested := by
      refine AllSaid.contest ?_ (List.mem_append_left [report] tells.mem) fresh contest
      exact entries
    obtain ⟨left, _, rfl⟩ := Peer.contest_some contest
    refine ⟨report, here, lastNewer ahead, rfl, ⟨now, later, by rw [past]⟩, words, ?_⟩
    · intro order numbers
      have next := tells.follows run all order
      rw [ahead_eq ahead.le] at far
      have := next.2
      omega

/- Less than the max age after start, nothing of the peer is stale. -/
theorem TellsNewest.expire {maxAge : Nat} (tells : TellsNewest base start delivered newest record)
    (fresh : now < satAdd start maxAge) : record.expire now maxAge = some record := by
  have mono : ∀ heardAt, start ≤ heardAt → now < satAdd heardAt maxAge := by
    intro heardAt later
    unfold satAdd at fresh ⊢
    omega
  obtain ⟨heardAt, later, snapshot⟩ := tells.snapshot
  refine Peer.expire_fresh snapshot tells.held (mono heardAt later) ?_
  intro key entry present
  exact mono entry.heardAt (tells.contested key entry present).1

theorem Tells.step {d d' : PeerDemand} {op : DemandOp} (run : OneRun peer epoch base said)
    (all : ∀ report ∈ delivered, said report) (delivers : Delivers peer said start op)
    (tells : Tells base start peer delivered d) (h : d.step op = some d') :
    Tells base start peer (delivered ++ op.report.toList) d' := by
  cases op with
  | expire now maxAge =>
    simp only [PeerDemand.step, Option.some.injEq] at h
    subst h
    simp only [Tells, PeerDemand.expire_get, DemandOp.report, Option.toList_none, List.append_nil]
    cases there : d.peers[peer]? with
    | none => simpa only [Tells, there, Option.bind_none] using tells
    | some record =>
      simp only [Tells, there] at tells
      obtain ⟨newest, tells⟩ := tells
      rw [Option.bind_some, tells.expire delivers.2]
      exact ⟨newest, tells⟩
  | apply sender report now =>
    obtain ⟨rfl, new, later⟩ := delivers
    obtain ⟨record', takes, rfl⟩ := PeerDemand.apply_takes h (run.origin report new)
    simp only [Tells, PeerDemand.insert_get, ↓reduceIte, DemandOp.report, Option.toList_some]
    cases there : d.peers[sender]? with
    | none =>
      simp only [Tells, there] at tells
      subst tells
      rw [there, Option.getD_none] at takes
      cases takes with
      | first => exact ⟨report, tellsNewest_first later⟩
      | duplicate snapshot => simp [Peer.default] at snapshot
      | contested snapshot => simp [Peer.default] at snapshot
      | newer snapshot => simp [Peer.default] at snapshot
      | replaced _ snapshot => simp [Peer.default] at snapshot
    | some record =>
      simp only [Tells, there] at tells
      obtain ⟨newest, tells⟩ := tells
      rw [there, Option.getD_some] at takes
      exact tells.step run all new later takes

theorem Tells.run {d d' : PeerDemand} {ops : List DemandOp} (run : OneRun peer epoch base said)
    (all : ∀ report ∈ delivered, said report) (delivers : ∀ op ∈ ops, Delivers peer said start op)
    (tells : Tells base start peer delivered d) (h : d.run ops = some d') :
    Tells base start peer (delivered ++ ops.filterMap DemandOp.report) d' := by
  induction ops generalizing d delivered with
  | nil =>
    simp only [PeerDemand.run, List.foldlM_nil, Option.pure_def, Option.some.injEq] at h
    simpa [h] using tells
  | cons op ops ih =>
    obtain ⟨mid, step, rest⟩ := PeerDemand.run_cons h
    have first := delivers op List.mem_cons_self
    have told := tells.step run all first step
    have still : ∀ report ∈ delivered ++ op.report.toList, said report := by
      intro report mem
      rcases List.mem_append.mp mem with mem | mem
      · exact all report mem
      · cases op with
        | expire => simp [DemandOp.report] at mem
        | apply sender other now =>
          simp only [DemandOp.report, Option.toList_some, List.mem_singleton] at mem
          exact mem ▸ first.2.1
    have split : (op :: ops).filterMap DemandOp.report =
        op.report.toList ++ ops.filterMap DemandOp.report := by
      cases op <;> rfl
    rw [split, ← List.append_assoc]
    exact ih still (fun op mem => delivers op (List.mem_cons_of_mem _ mem)) told rest

end

theorem delivered_said {peer : PeerId} {said : DemandReport → Prop} {start : Nat}
    {ops : List DemandOp} (delivers : ∀ op ∈ ops, Delivers peer said start op) :
    ∀ report ∈ ops.filterMap DemandOp.report, said report := by
  intro report mem
  obtain ⟨op, opMem, told⟩ := List.mem_filterMap.mp mem
  cases op with
  | expire => simp [DemandOp.report] at told
  | apply sender other now =>
    rw [DemandOp.report, Option.some.injEq] at told
    exact told ▸ (delivers _ opMem).2.1

theorem DemandReport.keyMap_find {report : DemandReport}
    (distinct : (report.keys.map (·.keyHash)).Nodup) (hash : UInt64) :
    report.keyMap[hash]? = (report.keys.find? (·.keyHash = hash)).map
      fun key => (key.demand, key.primary) := by
  cases found : report.keys.find? (·.keyHash = hash) with
  | some key =>
    have named : key.keyHash = hash := by simpa using List.find?_some found
    rw [← named]
    exact keyMap_of_mem distinct (List.mem_of_find?_eq_some found)
  | none =>
    cases word : report.keyMap[hash]? with
    | none => rfl
    | some said =>
      obtain ⟨key, mem, named, _⟩ := keyMap_said word
      have absent := List.find?_eq_none.mp found key mem
      exact absurd (by simpa using named) absent

/-- The reports of one run of a peer, delivered from an empty store in any order, each any
    number of times or never, with expiry in between: the store takes the newest, says of each
    of its keys no less than it does and of no key more than some delivered report does; and
    where the reports come in order it says exactly what the newest does. -/
theorem reordered_never_looser {peer : PeerId} {epoch : UInt32} {base : UInt16}
    {said : DemandReport → Prop} {start : Nat} {ops : List DemandOp}
    (run : OneRun peer epoch base said) (delivers : ∀ op ∈ ops, Delivers peer said start op) :
    ∃ d, PeerDemand.new.run ops = some d ∧
      ∀ newest ∈ ops.filterMap DemandOp.report,
        (∀ report ∈ ops.filterMap DemandOp.report,
          offset base report.round ≤ offset base newest.round) →
        (∃ record snapshot, d.peers[peer]? = some record ∧ record.snapshot = some snapshot ∧
          snapshot.epoch = newest.epoch ∧ snapshot.round = newest.round ∧
          snapshot.keys = newest.keyMap) ∧
        (∀ key ∈ newest.keys, ∃ heard, d.get peer key.keyHash = some heard ∧
          ¬ heard.demand.lt key.demand = true ∧
          (key.primary = true → heard.primary = true)) ∧
        (∀ hash heard, d.get peer hash = some heard →
          ∃ report ∈ ops.filterMap DemandOp.report, ∃ key ∈ report.keys,
            key.keyHash = hash ∧ key.demand = heard.demand) ∧
        (InOrder base (ops.filterMap DemandOp.report) →
          (∀ report ∈ ops.filterMap DemandOp.report, report.Numbers) →
          ∀ hash, (d.get peer hash).map Heard.word =
            (newest.keys.find? (·.keyHash = hash)).map fun key => (key.demand, key.primary)) := by
  obtain ⟨d, ran⟩ := PeerDemand.new.run_isSome ops
  refine ⟨d, ran, ?_⟩
  intro newest mem last
  have saidAll := delivered_said delivers
  have empty : Tells base start peer [] PeerDemand.new := by
    simp [Tells, PeerDemand.new]
  have tells := empty.run run (by simp) delivers ran
  rw [List.nil_append] at tells
  cases there : d.peers[peer]? with
  | none =>
    simp only [Tells, there] at tells
    rw [tells] at mem
    exact absurd mem List.not_mem_nil
  | some record =>
    simp only [Tells, there] at tells
    obtain ⟨taken, tells⟩ := tells
    have round : taken.round = newest.round :=
      offset_inj (Nat.le_antisymm (last taken tells.mem) (tells.last newest mem))
    have same := run.rounds taken newest (saidAll taken tells.mem) (saidAll newest mem) round
    subst same
    obtain ⟨heardAt, _, snapshot⟩ := tells.snapshot
    have word : ∀ hash : UInt64, (d.get peer hash).map Heard.word =
        joined taken.keyMap[hash]? (record.disputed hash) := by
      intro hash
      rw [PeerDemand.get_word, there, Option.bind_some, Peer.taken, snapshot, Option.bind_some]
    refine ⟨⟨record, _, rfl, snapshot, rfl, rfl, rfl⟩, ?_, ?_, ?_⟩
    · intro key keyMem
      have own := DemandReport.keyMap_of_mem (run.distinct taken (saidAll taken tells.mem)) keyMem
      obtain ⟨joinedWord, is, demand, primary⟩ :=
        joined_taken key.demand key.primary (record.disputed key.keyHash)
      have heard := word key.keyHash
      rw [own, is, Option.map_eq_some_iff] at heard
      obtain ⟨heard, got, rfl⟩ := heard
      exact ⟨heard, got, demand, primary⟩
    · intro hash heard got
      have words := word hash
      rw [got, Option.map_some] at words
      rcases joined_demand words.symm with ⟨mark, own⟩ | ⟨mark, disputed⟩
      · obtain ⟨key, keyMem, named, demand, _⟩ := DemandReport.keyMap_said own
        exact ⟨taken, tells.mem, key, keyMem, named, demand⟩
      · rw [Peer.disputed, Option.map_eq_some_iff] at disputed
        obtain ⟨entry, present, entryWord⟩ := disputed
        obtain ⟨_, report, reportMem, mark', said⟩ := tells.contested hash entry present
        obtain ⟨key, keyMem, named, demand, _⟩ := DemandReport.keyMap_said said
        exact ⟨report, reportMem, key, keyMem, named, demand.trans (Prod.ext_iff.mp entryWord).1⟩
    · intro order numbers hash
      have calm := tells.calm order numbers hash
      rw [word, Peer.disputed, calm, Option.map_none,
        ← DemandReport.keyMap_find (run.distinct taken (saidAll taken tells.mem))]
      cases taken.keyMap[hash]? <;> rfl

/- A late report across the wrap of the rounds, a repeat and an expiry. -/
def wrapReports : List DemandReport := [inEpoch 7 65535 42 hundredTwenty, inEpoch 7 0 42 eighty]

def wrapDeliveries : List DemandOp :=
  [.apply 1 (inEpoch 7 0 42 eighty) 5, .apply 1 (inEpoch 7 65535 42 hundredTwenty) 6,
    .expire 14 10, .apply 1 (inEpoch 7 0 42 eighty) 7]

theorem reordered_never_looser_wrap : ∃ d, PeerDemand.new.run wrapDeliveries = some d ∧
    ∃ heard, d.get 1 42 = some heard ∧ ¬ heard.demand.lt eighty = true := by
  have rounds : ∀ one ∈ wrapReports, ∀ two ∈ wrapReports, one.round = two.round → one = two := by
    decide
  have run : OneRun 1 7 65535 (· ∈ wrapReports) :=
    ⟨by decide, by decide, by decide, fun one two mem mem' => rounds one mem two mem', by decide⟩
  have delivers : ∀ op ∈ wrapDeliveries, Delivers 1 (· ∈ wrapReports) 5 op := by
    simp [wrapDeliveries, Delivers, wrapReports, satAdd, u64Max]
  obtain ⟨d, ran, told⟩ := reordered_never_looser run delivers
  obtain ⟨_, lower, _, _⟩ := told (inEpoch 7 0 42 eighty) (by decide) (by decide)
  obtain ⟨heard, got, demand, _⟩ := lower ⟨42, eighty, true⟩ (by decide)
  exact ⟨d, ran, heard, got, demand⟩

end Rateguard
