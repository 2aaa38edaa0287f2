import Rateguard.DatagramNetwork
import Rateguard.Probing

/- A fleet: nodes that follow the code, each run once under its own ID, over a network that may
   lose, repeat and reorder what they send. A probe is cleared only by word of its target. -/
namespace Rateguard
open DatagramNetwork Node

def fleet (decay : Nat → Nat → ℚ) : Parties PeerId Node Op (List UInt8) :=
  ⟨Node.step decay, Op.datagram, Op.emits⟩

abbrev Happening := Occurrence PeerId Node Op

def NewFleet (start : PeerId → Option Node) : Prop :=
  ∀ localId n, start localId = some n →
    ∃ config swim addr seed, Node.new config swim localId addr seed = some n

/- One step sends a datagram, and a later one takes it in. -/
structure Link (log : List Happening) (j : Nat) (sent : Happening) (k : Nat) (o : Happening)
    (header : Header) : Prop where
  sent_at : log[j]? = some sent
  taken_at : log[k]? = some o
  earlier : j < k
  origin : o.origin = some j
  told : sent.action.Tells sent.after o.party header
  heard : o.action.Hears sent.party header

/- A datagram is taken in, and the probe that was pending no longer is. -/
structure Clears (o : Happening) (probe : Probe) : Prop where
  takes : o.action.datagram.isSome
  pending : o.before.probe = some probe
  cleared : o.after.probe = none

/-- How the target of a probe vouched for itself. After the tick that sent the probe, it took
    in a Ping sent for it, the probe's own or the one a helper sent on a PingReq of this very
    probe; and what is taken in is the Ack to that Ping, from the target or passed on by the
    helper. -/
inductive Vouched (log : List Happening) (k : Nat) (o : Happening) (probe : Probe) : Prop
  | directly (s h : Nat) (sent heard : Happening) : sent.party = o.party →
      SendsProbe sent.action sent.before sent.after (probe.target, probe.seq) →
      Link log s sent h heard (.ping probe.seq) → heard.party = probe.target →
      Link log h heard k o (.ack probe.seq) → Vouched log k o probe
  | byHelper (s q r h f : Nat) (own : UInt32) (sent asked relayed heard passed : Happening) :
      log[s]? = some sent → sent.party = o.party →
      SendsProbe sent.action sent.before sent.after (probe.target, probe.seq) → s ≤ q →
      asked.party = o.party → Link log q asked r relayed (.pingReq probe.seq probe.target) →
      Link log r relayed h heard (.ping own) → heard.party = probe.target →
      Link log h heard f passed (.ack own) → passed.party = relayed.party →
      Link log f passed k o (.ack probe.seq) → Vouched log k o probe

/- One step takes in a PingReq, and a later one of the same node takes in an Ack to the number
   taken for it and sends something. -/
structure PassesOn (log : List Happening) (r : Nat) (asked : Happening) (requester : PeerId)
    (seq : UInt32) (f : Nat) (o : Happening) : Prop where
  asked_at : log[r]? = some asked
  answered_at : log[f]? = some o
  later : r < f
  party : o.party = asked.party
  asks : ∃ target, asked.action.Hears requester (.pingReq seq target)
  taken : asked.after.seq = asked.before.seq + 1
  hears : ∃ sender, o.action.Hears sender (.ack asked.after.seq)
  sends : o.action.emits o.after ≠ []

/-- An Ack is only passed on for a PingReq taken in; at most one is for each, and it is the one
    datagram then sent, to the requester and with the requester's number. -/
structure RelaysOnce (log : List Happening) : Prop where
  asked : ∀ f o sender own, log[f]? = some o → o.action.Hears sender (.ack own) →
    o.action.emits o.after ≠ [] → ∃ r asked requester seq, PassesOn log r asked requester seq f o
  once : ∀ r asked requester seq f o f' o', PassesOn log r asked requester seq f o →
    PassesOn log r asked requester seq f' o' → f = f'
  requester : ∀ r asked requester seq f o, PassesOn log r asked requester seq f o →
    ∃ datagram, o.action.emits o.after = [(requester, datagram)] ∧
      o.action.Tells o.after requester (.ack seq)

def Proper (localId : PeerId) (n : Node) : Prop := n.Sound ∧ n.members.localId = localId

theorem seq_comes_round (m : Nat) (seq : UInt32) (pos : 0 < m) (few : m < 2 ^ 32) :
    (fun seq : UInt32 => seq + 1)^[m] seq ≠ seq := by
  have count : ∀ (m : Nat) (seq : UInt32),
      ((fun seq : UInt32 => seq + 1)^[m] seq).toNat = (seq.toNat + m) % 2 ^ 32 := by
    intro m
    induction m with
    | zero =>
      intro seq
      have := seq.toNat_lt
      simp only [Function.iterate_zero, id_eq]
      omega
    | succ m ih =>
      intro seq
      rw [Function.iterate_succ_apply', UInt32.toNat_add, ih, UInt32.toNat_one]
      omega
  intro same
  have := count m seq
  rw [same] at this
  have := seq.toNat_lt
  omega

section
variable {decay : Nat → Nat → ℚ} {start : PeerId → Option Node} {net : Net PeerId Node Op}

theorem NewFleet.proper (fresh : NewFleet start) (localId : PeerId) (n : Node)
    (h : start localId = some n) : Proper localId n := by
  obtain ⟨config, swim, addr, seed, new⟩ := fresh localId n h
  exact ⟨new_sound new, (new_blank new).1⟩

theorem NewFleet.blank (fresh : NewFleet start) {localId : PeerId} {n : Node}
    (h : start localId = some n) : n.probe = none ∧ n.relays = ∅ := by
  obtain ⟨config, swim, addr, seed, new⟩ := fresh localId n h
  exact (new_blank new).2

theorem Proper.step (localId : PeerId) (n : Node) (op : Op) (n' : Node)
    (proper : Proper localId n) (h : (fleet decay).step n op = some n') : Proper localId n' :=
  ⟨step_sound proper.1 op h, (step_localId proper.1 h).trans proper.2⟩

variable (fresh : NewFleet start) (run : Run (fleet decay) start net)

theorem linked (run : Run (fleet decay) start net) {k : Nat} {o : Happening} {sender : PeerId}
    {header : Header} (found : net.log[k]? = some o) (hears : o.action.Hears sender header) :
    ∃ j sent, Link net.log j sent k o header ∧ sent.party = sender := by
  obtain ⟨bytes, message, brings, decoded, rfl⟩ := hears
  obtain ⟨j, sent, origin, earlier, sentAt, rfl, mem⟩ := run.sent found brings
  exact ⟨j, sent, ⟨sentAt, found, earlier, origin, ⟨bytes, message, mem, decoded, rfl⟩,
    ⟨bytes, message, brings, decoded, rfl⟩⟩, rfl⟩

include fresh run

theorem conducts {k : Nat} {o : Happening} (found : net.log[k]? = some o) :
    Conducts o.before o.action o.after := by
  obtain ⟨_, _, _, _, stepped, _⟩ := run.occurred found
  exact step_conducts (run.keeps_before fresh.proper Proper.step found).1 stepped

theorem probe_sent {k : Nat} {o : Happening} {probe : PeerId × UInt32}
    (found : net.log[k]? = some o) (pending : o.before.Probes probe) :
    ∃ s sent, s < k ∧ net.log[s]? = some sent ∧ sent.party = o.party ∧
      SendsProbe sent.action sent.before sent.after probe := by
  obtain ⟨s, sent, earlier, logged, party, sends, _⟩ :=
    run.caused_before fresh.proper Proper.step Probes SendsProbe
      (fun _ _ _ began probes => by simp [Probes, (fresh.blank began).1] at probes)
      (fun _ _ _ _ _ proper stepped probes =>
        (step_conducts proper.1 stepped).probes probes) probe found pending
  exact ⟨s, sent, earlier, logged, party, sends⟩

theorem probe_sent_by {k : Nat} {o : Happening} {probe : PeerId × UInt32}
    (found : net.log[k]? = some o) (pending : o.after.Probes probe) :
    ∃ s sent, s ≤ k ∧ net.log[s]? = some sent ∧ sent.party = o.party ∧
      SendsProbe sent.action sent.before sent.after probe := by
  rcases (conducts fresh run found).probes pending with before | sends
  · obtain ⟨s, sent, earlier, rest⟩ := probe_sent fresh run found before
    exact ⟨s, sent, earlier.le, rest⟩
  · exact ⟨k, o, le_rfl, found, rfl, sends⟩

theorem relay_taken {k : Nat} {o : Happening} {own : UInt32} {relay : Relay}
    (found : net.log[k]? = some o) (held : o.before.relays[own]? = some relay) :
    ∃ r taken, r < k ∧ net.log[r]? = some taken ∧ taken.party = o.party ∧
      TakesRelay taken.action taken.before taken.after own relay ∧
      ∀ l later, r ≤ l → l < k → net.log[l]? = some later → later.party = o.party →
        later.after.relays[own]? = some relay :=
  run.caused_before fresh.proper Proper.step
    (fun n (fact : UInt32 × Relay) => n.relays[fact.1]? = some fact.2)
    (fun op n n' fact => TakesRelay op n n' fact.1 fact.2)
    (fun _ _ _ began held => by simp [(fresh.blank began).2] at held)
    (fun _ _ _ _ _ proper stepped held => (step_conducts proper.1 stepped).takesRelay held)
    (own, relay) found held

/- Who asks about a target has a probe of it pending, and does not ask the target itself. -/
theorem asked_about {q k : Nat} {asked o : Happening} {seq : UInt32} {target : PeerId}
    (link : Link net.log q asked k o (.pingReq seq target)) : o.party ≠ target ∧
      ∃ s sent, s ≤ q ∧ net.log[s]? = some sent ∧ sent.party = asked.party ∧
        SendsProbe sent.action sent.before sent.after (target, seq) := by
  cases (conducts fresh run link.sent_at).accounts link.told with
  | asks _ _ pending other => exact ⟨other, probe_sent_by fresh run link.sent_at pending⟩

/- An Ack is to a Ping from the one it is sent to, or passed on for a relay. -/
theorem acked {h k : Nat} {heard o : Happening} {seq : UInt32}
    (link : Link net.log h heard k o (.ack seq)) :
    (∃ s sent, Link net.log s sent h heard (.ping seq) ∧ sent.party = o.party) ∨
      ∃ own target expiresAt, heard.before.relays[own]? = some ⟨o.party, seq, target, expiresAt⟩ ∧
        heard.action.Hears target (.ack own) := by
  cases (conducts fresh run link.sent_at).accounts link.told with
  | acks _ hears => exact .inl (linked run link.sent_at hears)
  | answers _ hears =>
    obtain ⟨q, asked, first, _⟩ := linked run link.sent_at hears
    have own := (run.keeps_before fresh.proper Proper.step link.sent_at).2
    exact absurd own.symm (asked_about fresh run first).1
  | passesOn own _ target expiresAt held hears => exact .inr ⟨own, target, expiresAt, held, hears⟩

variable (few : ∀ localId, taken Node.seq net.log localId < 2 ^ 32)
include few

theorem taken_once {j k : Nat} {o p : Happening} (atO : net.log[j]? = some o)
    (atP : net.log[k]? = some p) (party : p.party = o.party)
    (takenO : o.after.seq = o.before.seq + 1) (takenP : p.after.seq = p.before.seq + 1)
    (same : p.after.seq = o.after.seq) : j = k := by
  have takes {u : Happening} (taken : u.after.seq = u.before.seq + 1) :
      u.takes Node.seq = true := by
    simp [Occurrence.takes, taken]
  exact run.takes_once fresh.proper Proper.step
    (fun _ _ _ _ proper stepped => (step_conducts proper.1 stepped).seq) seq_comes_round
    (few o.party) atO atP party (takes takenO) (takes takenP) same

theorem probe_apart {s r : Nat} {sent relayed : Happening} {target : PeerId} {own : UInt32}
    {relay : Relay} (atS : net.log[s]? = some sent) (atR : net.log[r]? = some relayed)
    (party : relayed.party = sent.party)
    (sends : SendsProbe sent.action sent.before sent.after (target, own)) :
    ¬ TakesRelay relayed.action relayed.before relayed.after own relay := by
  intro takes
  have same := taken_once fresh run few atS atR party sends.taken takes.taken
    (takes.number.trans sends.number.symm)
  subst same
  rw [atS, Option.some.injEq] at atR
  subst atR
  obtain ⟨now, ticks⟩ := sends.ticks
  obtain ⟨_, _, brings, _⟩ := takes.asked
  simp [ticks, Op.datagram] at brings

theorem relay_pinged {r j h : Nat} {relayed sent heard : Happening} {own : UInt32} {relay : Relay}
    (atR : net.log[r]? = some relayed)
    (takes : TakesRelay relayed.action relayed.before relayed.after own relay)
    (party : sent.party = relayed.party) (link : Link net.log j sent h heard (.ping own)) :
    j = r := by
  cases (conducts fresh run link.sent_at).accounts link.told with
  | probe _ sends =>
    exact absurd takes (probe_apart fresh run few link.sent_at atR party.symm sends)
  | relay _ _ _ taken number _ =>
    exact taken_once fresh run few link.sent_at atR party.symm taken takes.taken
      (takes.number.trans number.symm)

theorem probe_pinged {s j h : Nat} {probing sent heard : Happening} {probe : PeerId × UInt32}
    (atS : net.log[s]? = some probing)
    (sends : SendsProbe probing.action probing.before probing.after probe)
    (party : sent.party = probing.party) (link : Link net.log j sent h heard (.ping probe.2)) :
    j = s ∧ heard.party = probe.1 := by
  cases (conducts fresh run link.sent_at).accounts link.told with
  | probe _ again =>
    obtain rfl := taken_once fresh run few atS link.sent_at party sends.taken again.taken
      (again.number.trans sends.number.symm)
    have same := link.sent_at
    rw [atS, Option.some.injEq] at same
    subst same
    have pending := again.pending
    rw [Probes, sends.pending, Option.some.injEq] at pending
    exact ⟨rfl, (congrArg Prod.fst pending).symm⟩
  | relay requester _ asked taken number hears =>
    have takes : TakesRelay sent.action sent.before sent.after probe.2
        ⟨requester, asked, heard.party, 0⟩ := ⟨taken, number, hears⟩
    exact absurd takes (probe_apart fresh run few atS link.sent_at party sends)

/- An Ack that answers a relay was sent by the target of the relay, on the Ping of the relay. -/
theorem relay_answered {r h f : Nat} {relayed heard passed : Happening} {own : UInt32}
    {relay : Relay} (atR : net.log[r]? = some relayed)
    (takes : TakesRelay relayed.action relayed.before relayed.after own relay)
    (party : passed.party = relayed.party) (link : Link net.log h heard f passed (.ack own)) :
    Link net.log r relayed h heard (.ping own) := by
  rcases acked fresh run link with ⟨j, sent, pinged, own⟩ | ⟨other, target, expiresAt, held, _⟩
  · obtain rfl := relay_pinged fresh run few atR takes (own.trans party) pinged
    have same := pinged.sent_at
    rw [atR, Option.some.injEq] at same
    exact same ▸ pinged
  -- no node asks about a target with the number of a relay
  · obtain ⟨_, again, _, atAgain, _, asks, _⟩ := relay_taken fresh run link.sent_at held
    obtain ⟨q, asked, asking, asker⟩ := linked run atAgain asks.asked
    obtain ⟨_, s, sent, _, atS, prober, sends⟩ := asked_about fresh run asking
    have same : relayed.party = sent.party := by
      rw [prober, asker]
      exact party.symm
    exact absurd takes (probe_apart fresh run few atS atR same sends)

theorem cleared_vouched {k : Nat} {o : Happening} {probe : Probe} (found : net.log[k]? = some o)
    (clears : Clears o probe) : Vouched net.log k o probe := by
  obtain ⟨⟨sender, bytes⟩, takes⟩ := Option.isSome_iff_exists.mp clears.takes
  have hears := (conducts fresh run found).clears takes clears.pending clears.cleared
  have pending : o.before.Probes (probe.target, probe.seq) :=
    Option.map_eq_some_iff.mpr ⟨probe, clears.pending, rfl⟩
  obtain ⟨s, sent, _, atS, prober, sends⟩ := probe_sent fresh run found pending
  obtain ⟨h, heard, last, _⟩ := linked run found hears
  rcases acked fresh run last with ⟨j, pinging, pinged, own⟩ | ⟨own, target, expiresAt, held, answered⟩
  · obtain ⟨rfl, target⟩ :=
      probe_pinged fresh run few atS sends (own.trans prober.symm) pinged
    have same := pinged.sent_at
    rw [atS, Option.some.injEq] at same
    subst same
    exact .directly j h sent heard prober sends pinged target last
  -- passed on by a helper: its relay was taken on a PingReq of this very probe
  · obtain ⟨r, relayed, _, atR, helper, takes, _⟩ := relay_taken fresh run last.sent_at held
    obtain ⟨q, asked, asking, asker⟩ := linked run atR takes.asked
    obtain ⟨_, s', again, before, atS', prober', sends'⟩ := asked_about fresh run asking
    dsimp only at asker sends'
    have party : again.party = sent.party := by
      rw [prober', asker, prober]
    obtain rfl := taken_once fresh run few atS atS' party sends.taken sends'.taken
      (sends'.number.trans sends.number.symm)
    rw [atS, Option.some.injEq] at atS'
    subst atS'
    have about := sends'.pending
    rw [Probes, sends.pending, Option.some.injEq, Prod.mk.injEq] at about
    rw [← about.1] at asking answered
    obtain ⟨x, answering, passing, responder⟩ := linked run last.sent_at answered
    have pinged := relay_answered fresh run few atR takes helper.symm passing
    exact .byHelper s q r x h own sent asked relayed answering heard atS prober sends before asker
      asking pinged responder passing helper.symm last

/- What passes an Ack on had the relay since the PingReq, and no longer has it. -/
theorem passed_on {r f : Nat} {asked o : Happening} {requester : PeerId} {seq : UInt32}
    (passes : PassesOn net.log r asked requester seq f o) :
    o.after.relays[asked.after.seq]? = none ∧
      (∀ l later, r ≤ l → l < f → net.log[l]? = some later → later.party = o.party →
        later.after.relays[asked.after.seq]? ≠ none) ∧
      ∃ datagram, o.action.emits o.after = [(requester, datagram)] ∧
        o.action.Tells o.after requester (.ack seq) := by
  obtain ⟨sender, hears⟩ := passes.hears
  obtain ⟨relay, held, _, erased, datagram, emits, told⟩ :=
    (conducts fresh run passes.answered_at).passes_on hears passes.sends
  obtain ⟨r', relayed, _, atR, helper, takes, since⟩ :=
    relay_taken fresh run passes.answered_at held
  obtain rfl := taken_once fresh run few passes.asked_at atR (helper.trans passes.party)
    passes.taken takes.taken takes.number
  have same := passes.asked_at
  rw [atR, Option.some.injEq] at same
  subst same
  obtain ⟨target, asks⟩ := passes.asks
  have unique := takes.asked.unique asks
  simp only [Header.pingReq.injEq] at unique
  obtain ⟨rfl, rfl, _⟩ := unique
  refine ⟨erased, ?_, datagram, emits, told⟩
  intro l later from_ to_ logged own
  rw [since l later from_ to_ logged own]
  exact Option.some_ne_none relay

theorem relays_once : RelaysOnce net.log := by
  constructor
  · intro f o sender own found hears sends
    obtain ⟨relay, held, _, _, _⟩ := (conducts fresh run found).passes_on hears sends
    obtain ⟨r, asked, later, atR, helper, takes, _⟩ := relay_taken fresh run found held
    exact ⟨r, asked, relay.requester, relay.seq, atR, found, later, helper.symm,
      ⟨relay.target, takes.asked⟩, takes.taken, ⟨sender, takes.number ▸ hears⟩, sends⟩
  · have ordered : ∀ r asked requester seq f o f' o', PassesOn net.log r asked requester seq f o →
        PassesOn net.log r asked requester seq f' o' → ¬ f < f' := by
      intro r asked requester seq f o f' o' first second earlier
      have gone := (passed_on fresh run few first).1
      have kept := (passed_on fresh run few second).2.1
      exact kept f o first.later.le earlier first.answered_at
        (first.party.trans second.party.symm) gone
    intro r asked requester seq f o f' o' first second
    have forward := ordered r asked requester seq f o f' o' first second
    have backward := ordered r asked requester seq f' o' f o second first
    omega
  · intro r asked requester seq f o passes
    exact (passed_on fresh run few passes).2.2

end

/-- In every run of a fleet that takes fewer than 2^32 numbers at each node: a datagram clears a
    pending probe only if the target vouched for itself after the probe was sent, and a helper
    passes on at most one Ack for each PingReq it takes in, to its requester and with its
    number. -/
theorem indirect_probes_vouch (decay : Nat → Nat → ℚ) (start : PeerId → Option Node)
    (net : Net PeerId Node Op) (fresh : NewFleet start) (run : Run (fleet decay) start net)
    (few : ∀ localId, taken Node.seq net.log localId < 2 ^ 32) :
    (∀ k o probe, net.log[k]? = some o → Clears o probe → Vouched net.log k o probe) ∧
      RelaysOnce net.log :=
  ⟨fun _ _ _ found clears => cleared_vouched fresh run few found clears,
    relays_once fresh run few⟩

/- A fleet driven: an operation of a node, or one of the datagrams a step sent taken in. -/
inductive Stimulus where
  | act (party : PeerId) (op : Op)
  | deliver (origin index now : Nat)

def Stimulus.apply (decay : Nat → Nat → ℚ) (net : Net PeerId Node Op) :
    Stimulus → Option (Net PeerId Node Op)
  | .act party op => net.move (fleet decay) ⟨party, op, none⟩
  | .deliver origin index now => do
    let sent ← net.log[origin]?
    let (recipient, bytes) ← (sent.action.emits sent.after)[index]?
    net.move (fleet decay)
      ⟨recipient, .handle (.messageReceived sent.party bytes) now, some origin⟩

def drive (decay : Nat → Nat → ℚ) (net : Net PeerId Node Op) (stimuli : List Stimulus) :
    Option (Net PeerId Node Op) :=
  stimuli.foldlM (fun net stimulus => stimulus.apply decay net) net

theorem drive_run {decay : Nat → Nat → ℚ} {start : PeerId → Option Node}
    {net net' : Net PeerId Node Op} {stimuli : List Stimulus}
    (run : Run (fleet decay) start net) (h : drive decay net stimuli = some net') :
    Run (fleet decay) start net' := by
  induction stimuli generalizing net with
  | nil =>
    simp only [drive, List.foldlM_nil, Option.pure_def, Option.some.injEq] at h
    exact h ▸ run
  | cons stimulus rest ih =>
    simp only [drive, List.foldlM_cons, bind, Option.bind_eq_some_iff] at h
    obtain ⟨u, first, h⟩ := h
    refine ih ?_ h
    cases stimulus with
    | act party op => exact .move net _ u run first
    | deliver origin index now =>
      simp only [Stimulus.apply, bind, Option.bind_eq_some_iff] at first
      obtain ⟨sent, _, ⟨recipient, bytes⟩, _, first⟩ := first
      exact .move net _ u run first

def sampleFleet (localId : PeerId) : Option Node :=
  if localId = 1 ∨ localId = 2 ∨ localId = 3 then Node.sample localId localId.toUInt8 else none

/- Node 1 probes node 3, the Ping is lost, and node 2 asks for it. -/
def sampleIndirect : Option (Net PeerId Node Op) :=
  drive sampleDecay ⟨sampleFleet, []⟩ [
    .act 1 (.introduce 2 (sampleAddress 2)), .act 1 (.introduce 3 (sampleAddress 3)),
    .act 1 (.handle .tick (ms 1)), .act 1 (.handle .tick (ms 101)), .deliver 3 0 (ms 150),
    .deliver 4 0 (ms 150), .deliver 5 0 (ms 160), .deliver 6 0 (ms 170)]

theorem sampleIndirect_clears : (sampleIndirect.any fun net => net.log.length = 8 &&
    net.log[7]?.any fun o => o.action.datagram.any (·.1 = 2) &&
      o.before.probe.any (·.target = 3) && o.after.probe.isNone) = true := by
  decide +kernel

theorem indirect_probes_vouch_by_helper : ∃ (net : Net PeerId Node Op) (o : Happening)
    (probe : Probe), net.log[7]? = some o ∧ probe.target = 3 ∧
      (∃ bytes, o.action.datagram = some (2, bytes)) ∧ Vouched net.log 7 o probe ∧
      RelaysOnce net.log := by
  obtain ⟨net, ran, checked⟩ := (Option.any_eq_true _ _).mp sampleIndirect_clears
  simp only [Bool.and_eq_true, decide_eq_true_eq, Option.any_eq_true, Option.isNone_iff_eq_none]
    at checked
  obtain ⟨length, o, found, ⟨⟨⟨sender, bytes⟩, takes, helper⟩, probe, pending, target⟩, cleared⟩ :=
    checked
  dsimp only at helper
  subst helper
  have fresh : NewFleet sampleFleet := by
    intro localId n h
    simp only [sampleFleet, Option.ite_none_right_eq_some] at h
    exact ⟨_, _, _, _, h.2⟩
  have few : ∀ localId, taken Node.seq net.log localId < 2 ^ 32 := by
    intro localId
    have := net.log.countP_le_length (p := fun o => o.party = localId && o.takes Node.seq)
    simp only [taken]
    omega
  obtain ⟨vouched, once⟩ := indirect_probes_vouch sampleDecay sampleFleet net fresh
    (drive_run .start ran) few
  have clears : Clears o probe := ⟨by simp [takes], pending, cleared⟩
  exact ⟨net, o, probe, found, target, ⟨bytes, takes⟩, vouched 7 o probe found clears, once⟩

end Rateguard
