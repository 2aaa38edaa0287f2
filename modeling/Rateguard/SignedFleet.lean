import Rateguard.AuthMatrix
import Rateguard.GuardNodes
import Rateguard.Introductions
import Rateguard.Provenance

/- Guards that sign what they send, on a network that anyone may write to. Whatever outsiders send
   them, what the guards do is a run of the fleet of their cores alone. -/
namespace Rateguard
open DatagramNetwork Node

/- Bytes that bear no tag of these secrets. -/
def Forged (mac : Secret → List UInt8 → Vector UInt8 tagLen) (secrets : List Secret)
    (datagram : List UInt8) : Prop :=
  ∀ secret ∈ secrets, (mac secret (datagram.take (datagram.length - tagLen))).toList ≠
    datagram.drop (datagram.length - tagLen)

instance (mac : Secret → List UInt8 → Vector UInt8 tagLen) (secrets : List Secret)
    (datagram : List UInt8) : Decidable (Forged mac secrets datagram) :=
  inferInstanceAs (Decidable (∀ secret ∈ secrets, _))

def Action.framed (p : Primitives) (auth : Auth) : Action → PeerId × List UInt8
  | .sendTo peer bytes => (peer, auth.sealFrame p.mac bytes)

def GuardCall.actions (p : Primitives) (g g' : Guard) : GuardCall → List Action
  | .tick _ | .leave _ => g'.node.actions
  | .receive datagram now =>
    ((g.node.receiveDatagram p.peerId p.mac p.decay g.auth datagram now g.rejected).map
      (·.1)).getD []
  | _ => []

/- The guards of a fleet, and every datagram they sent so far, with the member it was sent to. -/
structure SignedFleet where
  guards : PeerId → Option Guard
  sent : List (PeerId × List UInt8)

inductive SignedMove where
  | start (i : PeerId) (s : Settings) (rehash : UInt64 → UInt64) (seed : UInt64)
  | call (i : PeerId) (call : GuardCall)

def Auth.Within (secrets : List Secret) (auth : Auth) : Prop :=
  auth.mode = .required ∧ auth.secrets ≠ [] ∧ auth.secrets ⊆ secrets

instance (secrets : List Secret) (auth : Auth) : Decidable (auth.Within secrets) :=
  inferInstanceAs (Decidable (_ ∧ _ ∧ ∀ secret ∈ auth.secrets, secret ∈ secrets))

/- What a member takes in was sent to it before, and may be lost, late and repeated, or is written by
   somebody who has none of the secrets. -/
def GuardCall.Allowed (p : Primitives) (secrets : List Secret) (sent : List (PeerId × List UInt8))
    (i : PeerId) : GuardCall → Prop
  | .receive datagram _ => (i, datagram) ∈ sent ∨ Forged p.mac secrets datagram
  | .setGossipAuth mode given => mode = .required ∧ ∀ secret ∈ given, secret ∈ secrets
  | _ => True

instance (p : Primitives) (secrets : List Secret) (sent : List (PeerId × List UInt8)) (i : PeerId) :
    (call : GuardCall) → Decidable (call.Allowed p secrets sent i)
  | .receive _ _ => instDecidableOr
  | .setGossipAuth _ _ => instDecidableAnd
  | .check _ _ _ | .setClasses _ | .setKeyLimits _ | .setDryRun _ | .tick _ | .lookedUp _
  | .leave _ | .crash _ => isTrue trivial

namespace SignedFleet

/- Each member starts once, at any time, under the ID of its own address. -/
def move (p : Primitives) (secrets : List Secret) (w : SignedFleet) : SignedMove → Option SignedFleet
  | .start i s rehash seed =>
    if (w.guards i).isNone ∧ p.peerId s.advertise = i ∧ s.auth.Within secrets then do
      let g ← s.guard p rehash seed
      some { w with guards := Function.update w.guards i (some g) }
    else none
  | .call i call =>
    if call.Allowed p secrets w.sent i then do
      let g ← w.guards i
      let (_, g') ← call.perform p g
      some {
        guards := Function.update w.guards i (some g')
        sent := w.sent ++ (call.actions p g g').map (·.framed p g'.auth) }
    else none

inductive Reached (p : Primitives) (secrets : List Secret) : SignedFleet → Prop
  | nobody : Reached p secrets ⟨fun _ => none, []⟩
  | move (w : SignedFleet) (move : SignedMove) (w' : SignedFleet) : Reached p secrets w →
      w.move p secrets move = some w' → Reached p secrets w'

end SignedFleet

namespace Auth
variable {mac : Secret → List UInt8 → Vector UInt8 tagLen} {secrets : List Secret} {a b : Auth}
  {message datagram : List UInt8}

theorem Within.refuses (within : a.Within secrets) (forged : Forged mac secrets datagram) :
    a.openFrame mac datagram ≠ .ok message := by
  obtain ⟨required, _, known⟩ := within
  intro opened
  by_cases marked : datagram.head? = some marker
  · have signs : a.mode ≠ .off := by rw [required]; decide
    obtain ⟨secret, own, whole⟩ := openFrame_forged signs marked opened
    have length : datagram.length - tagLen = (covered message).length := by
      rw [whole, List.length_append, Vector.length_toList, Nat.add_sub_cancel]
    refine forged secret (known own) ?_
    rw [length, whole, List.take_left, List.drop_left]
  · rw [openFrame_unsigned marked, if_pos required] at opened
    simp at opened

theorem Within.recovers (signs : b.secrets ≠ []) {bytes : List UInt8}
    (opened : a.openFrame mac (b.sealFrame mac bytes) = .ok message) : message = bytes := by
  obtain ⟨first, others, own⟩ := List.exists_cons_of_ne_nil signs
  have head : b.secrets.head? = some first := by rw [own, List.head?_cons]
  rw [sealFrame_signed head, openFrame_signed] at opened
  split at opened
  · exact (Except.ok.inj opened).symm
  · simp at opened

end Auth

theorem receiveDatagram_cases {p : Primitives} {n n' : Node} {auth : Auth} {datagram : List UInt8}
    {now : Nat} {rejected rejected' : RejectedDatagrams} {actions : List Action}
    (h : n.receiveDatagram p.peerId p.mac p.decay auth datagram now rejected =
      some (actions, n', rejected')) : (actions = [] ∧ n' = n) ∨ ∃ message screened,
      auth.openFrame p.mac datagram = .ok message ∧ screen p.peerId message = some screened ∧
      n.handle p.decay (.messageReceived screened.sender screened.bytes) now = some n' ∧
      actions = n'.actions := by
  have refused {counted : RejectedDatagrams}
      (h : some (([] : List Action), n, counted) = some (actions, n', rejected')) :
      actions = [] ∧ n' = n := by
    simp only [Option.some.injEq, Prod.mk.injEq] at h
    exact ⟨h.1.symm, h.2.1.symm⟩
  unfold Node.receiveDatagram at h
  split at h
  · exact .inl (refused h)
  · exact .inl (refused h)
  · exact .inl (refused h)
  · rename_i message opened
    split at h
    · exact .inl (refused h)
    · rename_i screened let_
      simp only [bind, Option.bind_eq_some_iff, Option.some.injEq, Prod.mk.injEq] at h
      obtain ⟨u, handled, rfl, rfl, _⟩ := h
      exact .inr ⟨message, screened, opened, let_, handled, rfl⟩

/- Whatever a member of a fleet sends opens with its own record. -/
theorem emits_opened {decay : Nat → Nat → ℚ} {i recipient : PeerId} {n n' : Node} {op : Op}
    {bytes : List UInt8} (proper : Proper i n) (stepped : n.step decay op = some n')
    (mem : (recipient, bytes) ∈ op.emits n') : Opened i (.sendTo recipient bytes) := by
  have itself : n'.members.localId = i := (Proper.step i n op n' proper stepped).2
  have given (listed : (recipient, bytes) ∈ n'.actions.map fun | .sendTo peer bytes => (peer, bytes)) :
      Action.sendTo recipient bytes ∈ n'.actions := by
    obtain ⟨⟨peer, sent⟩, inside, same⟩ := List.mem_map.mp listed
    obtain ⟨rfl, rfl⟩ := Prod.mk.inj same
    exact inside
  cases op with
  | handle event now => exact itself ▸ (handle_opened proper.1 stepped).2 _ (given mem)
  | leave now => exact itself ▸ leave_opened stepped _ (given mem)
  | introduce | addSeed | removeSeed | expectPeers | setPartitionPolicy | setQuorumMemory
  | setMaxMembers | record | checkIn | checkInTraced | rehash => simp [Op.emits] at mem

theorem new_names {config : Config} {swim : SwimConfig} {localId : PeerId} {addr : Address}
    {seed : UInt64} {n : Node} (h : Node.new config swim localId addr seed = some n) :
    n.members.localId = localId ∧ n.members.addr = addr := by
  unfold Node.new at h
  split at h
  · simp only [MemberTable.setMax, bind, Option.bind_eq_some_iff, Option.ite_none_right_eq_some,
      Option.some.injEq] at h
    obtain ⟨members, ⟨_, rfl⟩, limiter, _, rfl⟩ := h
    exact ⟨rfl, rfl⟩
  · simp at h

section
variable {p : Primitives} {secrets : List Secret} {start : PeerId → Option Node}
  {net : Net PeerId Node Op}

/- A run of the cores that a fleet of guards comes to. -/
structure Mirrors (p : Primitives) (secrets : List Secret) (w : SignedFleet)
    (start : PeerId → Option Node) (net : Net PeerId Node Op) : Prop where
  fresh : NewFleet start
  run : Run (fleet p.decay) start net
  states : ∀ i, net.states i = (w.guards i).map (·.node)
  unstarted : ∀ i, w.guards i = none → start i = none
  own : ∀ i n, start i = some n → n.members.ownUpdate.matches p.peerId = true
  inward : ∀ o ∈ net.log, ∀ peer addr, o.action ≠ .introduce peer addr
  within : ∀ i g, w.guards i = some g → g.auth.Within secrets
  sent : ∀ recipient frame, (recipient, frame) ∈ w.sent →
    ∃ (k : Nat) (o : Happening) (bytes : List UInt8) (auth : Auth), net.log[k]? = some o ∧ (recipient, bytes) ∈ o.action.emits o.after ∧
      auth.Within secrets ∧ frame = auth.sealFrame p.mac bytes

namespace Mirrors
variable {w : SignedFleet}

/- What holds of the ID and the address of every node that starts holds of all that is known or said:
   nobody is introduced, and the rest of a record is all that the cores ever change. -/
theorem kind (mirrors : Mirrors p secrets w start net) {K : PeerId → Address → Prop}
    (begins : ∀ i n, start i = some n → K n.members.localId n.members.addr) :
    (∀ i n update, net.states i = some n → n.Knows update → K update.member update.addr) ∧
      ∀ o ∈ net.log, ∀ recipient bytes update, (recipient, bytes) ∈ o.action.emits o.after →
        BytesCarry bytes update → K update.member update.addr := by
  refine mirrors.run.closed (K := fun update => K update.member update.addr) fleet_faithful
    mirrors.fresh.proper Proper.step ?_ ?_
  · intro i n update began knows
    obtain ⟨config, swim, addr, seed, new⟩ := mirrors.fresh i n began
    rw [(new_knows new knows).1]
    exact begins i n began
  · intro o mem knew update source
    cases source with
    | refutes incarnation =>
      have own := knew _ .own
      exact own
    | introduces peer addr is => exact absurd is (mirrors.inward o mem peer addr)
    | misses now probe member _ _ _ _ held =>
      have known := knew _ (.held probe.target member held)
      exact known
    | expires now peer member _ _ held =>
      have known := knew _ (.held peer member held)
      exact known
    | leaves =>
      have own := knew _ .own
      exact own

theorem started (mirrors : Mirrors p secrets w start net) {i : PeerId} {n : Node}
    (began : start i = some n) : ∃ g, w.guards i = some g ∧ SameSelf n.members g.node.members := by
  cases there : w.guards i with
  | none =>
    rw [mirrors.unstarted i there] at began
    simp at began
  | some g =>
    have has : net.states i = some g.node := by rw [mirrors.states, there, Option.map_some]
    refine ⟨g, rfl, (mirrors.run.keeps (P := fun i m => Proper i m ∧
      ∀ n, start i = some n → SameSelf n.members m.members) ?_ ?_ has).2 n began⟩
    · intro i m first
      refine ⟨mirrors.fresh.proper i m first, fun n began => ?_⟩
      rw [first, Option.some.injEq] at began
      exact began ▸ .refl _
    · intro i m op m' ⟨proper, same⟩ stepped
      exact ⟨Proper.step i m op m' proper stepped,
        fun n began => (same n began).trans (step_sameSelf proper.1 stepped)⟩

/- Whatever is sent opens with its sender's own record, so the driver lets all of it through. -/
theorem screened (mirrors : Mirrors p secrets w start net) {k : Nat} {o : Happening}
    (found : net.log[k]? = some o) {recipient : PeerId} {bytes : List UInt8}
    (mem : (recipient, bytes) ∈ o.action.emits o.after) :
    screen p.peerId bytes = some ⟨o.party, bytes, 0⟩ := by
  obtain ⟨earlier, before, _, held, stepped, _⟩ := mirrors.run.occurred found
  have opened : Opened o.party (.sendTo recipient bytes) :=
    emits_opened (before.keeps mirrors.fresh.proper Proper.step held) stepped mem
  obtain ⟨_, _, message, own, rest, same, decoded, whole, party, _⟩ := opened
  obtain ⟨rfl, rfl⟩ := Action.sendTo.inj same
  have all : ∀ update ∈ message.updates, update.matches p.peerId = true := fun update inside =>
    (mirrors.kind (K := fun member addr => (member == p.peerId addr) = true) mirrors.own).2 o
      (List.mem_of_getElem? found) recipient _ update mem ⟨message, decoded, inside⟩
  have first : own.matches p.peerId = true := all own (whole ▸ List.mem_cons_self)
  simp only [screen, decoded, Except.toOption, Option.bind_eq_bind, Option.bind_some, whole,
    List.head?_cons, first, Bool.not_true, Bool.false_eq_true, if_false]
  rw [if_pos (List.all_eq_true.mpr (whole ▸ all)), party]

theorem advance (mirrors : Mirrors p secrets w start net) {i : PeerId} {g' : Guard}
    {net' : Net PeerId Node Op} (more : List Happening) (frames : List (PeerId × List UInt8))
    (run : Run (fleet p.decay) start net')
    (states : net'.states = Function.update net.states i (some g'.node))
    (log : net'.log = net.log ++ more)
    (inward : ∀ o ∈ more, ∀ peer addr, o.action ≠ .introduce peer addr)
    (within : g'.auth.Within secrets)
    (sent : ∀ recipient frame, (recipient, frame) ∈ frames → ∃ o bytes,
      net'.log[net.log.length + more.length - 1]? = some o ∧
        (recipient, bytes) ∈ o.action.emits o.after ∧ frame = g'.auth.sealFrame p.mac bytes) :
    Mirrors p secrets ⟨Function.update w.guards i (some g'), w.sent ++ frames⟩ start net' where
  fresh := mirrors.fresh
  run := run
  states j := by
    rw [states]
    dsimp only
    by_cases same : j = i
    · subst same
      rw [Function.update_self, Function.update_self, Option.map_some]
    · rw [Function.update_of_ne same, Function.update_of_ne same, mirrors.states]
  unstarted j absent := by
    dsimp only at absent
    by_cases same : j = i
    · subst same
      simp at absent
    · rw [Function.update_of_ne same] at absent
      exact mirrors.unstarted j absent
  own := mirrors.own
  inward o mem := by
    rw [log] at mem
    exact (List.mem_append.mp mem).elim (mirrors.inward o) (inward o)
  within j h has := by
    dsimp only at has
    by_cases same : j = i
    · subst same
      rw [Function.update_self, Option.some.injEq] at has
      exact has ▸ within
    · rw [Function.update_of_ne same] at has
      exact mirrors.within j h has
  sent recipient frame mem := by
    rcases List.mem_append.mp mem with old | new
    · obtain ⟨k, o, bytes, auth, found, emitted, signed, whole⟩ := mirrors.sent recipient frame old
      refine ⟨k, o, bytes, auth, ?_, emitted, signed, whole⟩
      rw [log, List.getElem?_append_left (length_of_logged found), found]
    · obtain ⟨o, bytes, found, emitted, whole⟩ := sent recipient frame new
      exact ⟨_, o, bytes, g'.auth, found, emitted, within, whole⟩

theorem worked (mirrors : Mirrors p secrets w start net) {i : PeerId} {g g' : Guard}
    (held : w.guards i = some g) (works : g.node.Works p.decay g'.node)
    (within : g'.auth.Within secrets) : ∃ net',
      Mirrors p secrets ⟨Function.update w.guards i (some g'), w.sent⟩ start net' := by
  obtain ⟨ops, ran, inward⟩ := works
  have has : net.states i = some g.node := by rw [mirrors.states, held, Option.map_some]
  obtain ⟨net', run, states, more, log, among⟩ :=
    mirrors.run.acts has (fun op mem => (inward op mem).quiet) ran
  have advanced := mirrors.advance more [] run states log
    (fun o mem peer addr is => (is ▸ inward _ (among o mem) : Op.Inward (.introduce peer addr)))
    within (fun _ _ mem => absurd mem List.not_mem_nil)
  rw [List.append_nil] at advanced
  exact ⟨net', advanced⟩

theorem acted (mirrors : Mirrors p secrets w start net) {i : PeerId} {g g' : Guard} (op : Op)
    (origin : Option Nat) (held : w.guards i = some g)
    (delivers : DatagramNetwork.Delivers (fleet p.decay) net.log ⟨i, op, origin⟩)
    (stepped : g.node.step p.decay op = some g'.node)
    (apart : ∀ peer addr, op ≠ .introduce peer addr)
    (emits : op.emits g'.node = g'.node.actions.map fun | .sendTo peer bytes => (peer, bytes))
    (within : g'.auth.Within secrets) : ∃ net', Mirrors p secrets
      ⟨Function.update w.guards i (some g'), w.sent ++ g'.node.actions.map (·.framed p g'.auth)⟩
      start net' := by
  have has : net.states i = some g.node := by rw [mirrors.states, held, Option.map_some]
  have moved := move_of delivers has stepped
  refine ⟨_, mirrors.advance [⟨i, op, origin, g.node, g'.node⟩] _
    (mirrors.run.move _ _ _ moved) rfl rfl ?_ within ?_⟩
  · intro o mem
    exact List.mem_singleton.mp mem ▸ apart
  · intro recipient frame mem
    obtain ⟨⟨peer, bytes⟩, inside, same⟩ := List.mem_map.mp mem
    obtain ⟨rfl, rfl⟩ := Prod.mk.inj same
    refine ⟨⟨i, op, origin, g.node, g'.node⟩, bytes, ?_, ?_, rfl⟩
    · simp
    · rw [emits]
      exact List.mem_map.mpr ⟨_, inside, rfl⟩

theorem starts (mirrors : Mirrors p secrets w start net) {i : PeerId} {s : Settings} {g : Guard}
    {rehash : UInt64 → UInt64} {seed : UInt64} (absent : w.guards i = none)
    (itself : p.peerId s.advertise = i) (within : s.auth.Within secrets)
    (started : s.guard p rehash seed = some g) : ∃ start' net',
      Mirrors p secrets { w with guards := Function.update w.guards i (some g) } start' net' := by
  obtain ⟨base, new, ⟨ops, ran, inward⟩, auth⟩ := Settings.guard_works started
  subst itself
  obtain ⟨joined, _⟩ := mirrors.run.join (mirrors.unstarted _ absent) base
  obtain ⟨net', run, states, more, log, among⟩ := joined.acts (Function.update_self ..)
    (fun op mem => (inward op mem).quiet) ran
  rw [Function.update_idem] at states
  refine ⟨_, net', ?_, run, fun j => ?_, fun j unheld => ?_, fun j n began => ?_, fun o mem => ?_,
    fun j h has => ?_, fun recipient frame mem => ?_⟩
  · intro j n began
    by_cases same : j = p.peerId s.advertise
    · subst same
      rw [Function.update_self, Option.some.injEq] at began
      exact ⟨s.core, s.swim, s.advertise, seed, began ▸ new⟩
    · rw [Function.update_of_ne same] at began
      exact mirrors.fresh j n began
  · rw [states]
    dsimp only
    by_cases same : j = p.peerId s.advertise
    · subst same
      rw [Function.update_self, Function.update_self, Option.map_some]
    · rw [Function.update_of_ne same, Function.update_of_ne same, mirrors.states]
  · dsimp only at unheld
    by_cases same : j = p.peerId s.advertise
    · subst same
      simp at unheld
    · rw [Function.update_of_ne same] at unheld ⊢
      exact mirrors.unstarted j unheld
  · by_cases same : j = p.peerId s.advertise
    · subst same
      rw [Function.update_self, Option.some.injEq] at began
      subst began
      obtain ⟨id, addr⟩ := new_names new
      rw [Update.matches, beq_iff_eq]
      exact id.trans (congrArg p.peerId addr.symm)
    · rw [Function.update_of_ne same] at began
      exact mirrors.own j n began
  · rw [log] at mem
    rcases List.mem_append.mp mem with old | new
    · exact mirrors.inward o old
    · exact fun peer addr is => (is ▸ inward _ (among o new) : Op.Inward (.introduce peer addr))
  · dsimp only at has
    by_cases same : j = p.peerId s.advertise
    · subst same
      rw [Function.update_self, Option.some.injEq] at has
      rw [← has, auth]
      exact within
    · rw [Function.update_of_ne same] at has
      exact mirrors.within j h has
  · obtain ⟨k, o, bytes, auth, found, emitted, signed, whole⟩ := mirrors.sent recipient frame mem
    refine ⟨k, o, bytes, auth, ?_, emitted, signed, whole⟩
    rw [log, List.getElem?_append_left (length_of_logged found), found]

/- A guard takes a datagram in: what an outsider wrote is refused, and what a member sent reaches the
   core as it was sent. -/
theorem receives (mirrors : Mirrors p secrets w start net) {i : PeerId} {g : Guard} {now : Nat}
    {datagram : List UInt8} {actions : List Action} {node : Node} {rejected : RejectedDatagrams}
    (held : w.guards i = some g) (allowed : (i, datagram) ∈ w.sent ∨ Forged p.mac secrets datagram)
    (heard : g.node.receiveDatagram p.peerId p.mac p.decay g.auth datagram now g.rejected =
      some (actions, node, rejected)) : ∃ net', Mirrors p secrets
        ⟨Function.update w.guards i (some { g with node, rejected }),
          w.sent ++ actions.map (·.framed p g.auth)⟩ start net' := by
  have within := mirrors.within i g held
  rcases receiveDatagram_cases heard with ⟨rfl, rfl⟩ | ⟨message, screened, opened, let_, handled, rfl⟩
  · rw [List.map_nil, List.append_nil]
    exact mirrors.worked held (.refl g.node) within
  · rcases allowed with was | forged
    · obtain ⟨k, o, bytes, auth, found, emitted, signed, rfl⟩ := mirrors.sent i datagram was
      obtain rfl := Auth.Within.recovers signed.2.1 opened
      rw [mirrors.screened found emitted] at let_
      obtain rfl := Option.some.inj let_
      exact mirrors.acted (.handle (.messageReceived o.party message) now) (some k) held
        (delivers_of rfl rfl found emitted) handled (fun _ _ is => nomatch is) rfl within
    · exact absurd opened (within.refuses forged)

theorem calls (mirrors : Mirrors p secrets w start net) {i : PeerId} {g g' : Guard}
    {call : GuardCall} {v : Option Verdict} (held : w.guards i = some g)
    (allowed : call.Allowed p secrets w.sent i) (performed : call.perform p g = some (v, g')) :
    ∃ net', Mirrors p secrets ⟨Function.update w.guards i (some g'),
      w.sent ++ (call.actions p g g').map (·.framed p g'.auth)⟩ start net' := by
  have within := mirrors.within i g held
  have silent {g' : Guard} (works : g.node.Works p.decay g'.node) (within : g'.auth.Within secrets) :
      ∃ net', Mirrors p secrets ⟨Function.update w.guards i (some g'), w.sent ++ [].map
        fun action : Action => action.framed p g'.auth⟩ start net' := by
    rw [List.map_nil, List.append_nil]
    exact mirrors.worked held works within
  cases GuardCall.performs performed with
  | check judged =>
    obtain ⟨node, auth⟩ := Guard.judge_core judged
    exact silent (node ▸ .refl _) (auth ▸ within)
  | setClasses | setKeyLimits | setDryRun => exact silent (.refl g.node) within
  | setGossipAuth mode given =>
    obtain ⟨rfl, known⟩ := allowed
    refine silent (.refl g.node) ?_
    cases made : Auth.new .required given with
    | error e => exact within
    | ok auth =>
      rcases Auth.new_cases made with ⟨off, _⟩ | ⟨_, first, others, rfl, rfl⟩
      · simp at off
      · exact ⟨rfl, List.cons_ne_nil _ _, known⟩
  | @tick now _ running synced =>
    obtain ⟨node, works, ticked⟩ := (Guard.sync_synced synced).works
    obtain ⟨net', mirrors'⟩ := @worked p secrets start net w mirrors i g { g with node } held works within
    obtain ⟨net'', mirrors''⟩ := mirrors'.acted (.handle .tick now) none
      (Function.update_self ..) rfl ticked (fun _ _ is => nomatch is) rfl
      ((Guard.sync_auth synced).symm ▸ within)
    rw [Function.update_idem] at mirrors''
    exact ⟨net'', mirrors''⟩
  | receive running heard =>
    simp only [GuardCall.actions, heard, Option.map_some, Option.getD_some]
    exact mirrors.receives held allowed heard
  | lookedUp running told => exact silent (Names.update_works told) within
  | @leave now floored node running hold left =>
    have core := (Guard.holdAtFloor_floored hold).kept.2.2.2.2.2.2.1
    rw [core] at left
    exact mirrors.acted (.leave now) none held rfl left (fun _ _ is => nomatch is)
      rfl ((Guard.holdAtFloor_auth hold).symm ▸ within)
  | @crash now floored running hold =>
    have works : g.node.Works p.decay floored.node := by
      rw [(Guard.holdAtFloor_floored hold).kept.2.2.2.2.2.2.1]
      exact .refl g.node
    exact silent works ((Guard.holdAtFloor_auth hold).symm ▸ within)

end Mirrors

theorem reached_mirrors {w : SignedFleet} (reached : w.Reached p secrets) :
    ∃ start net, Mirrors p secrets w start net := by
  induction reached with
  | nobody =>
    exact ⟨fun _ => none, ⟨fun _ => none, []⟩, fun _ _ h => by simp at h, .start, fun _ => rfl,
      fun _ _ => rfl, fun _ _ h => by simp at h, by simp, fun _ _ h => by simp at h, by simp⟩
  | move w move w' _ moved ih =>
    obtain ⟨start, net, mirrors⟩ := ih
    cases move with
    | start i s rehash seed =>
      simp only [SignedFleet.move, bind, Option.ite_none_right_eq_some, Option.bind_eq_some_iff,
        Option.some.injEq] at moved
      obtain ⟨⟨absent, itself, within⟩, g, started, rfl⟩ := moved
      exact mirrors.starts (Option.isNone_iff_eq_none.mp absent) itself within started
    | call i call =>
      simp only [SignedFleet.move, bind, Option.ite_none_right_eq_some, Option.bind_eq_some_iff,
        Option.some.injEq] at moved
      obtain ⟨allowed, g, held, ⟨v, g'⟩, performed, rfl⟩ := moved
      exact ⟨start, mirrors.calls held allowed performed⟩

end

/-- A fleet that signs its gossip, on a network that loses, repeats and reorders what is sent and where
    anybody without the secrets may write anything: its cores are those of a run in which nothing but
    the members' own messages is ever taken in. -/
theorem signed_fleet_hears_members (p : Primitives) (secrets : List Secret) (w : SignedFleet)
    (reached : w.Reached p secrets) : ∃ start net, NewFleet start ∧ Run (fleet p.decay) start net ∧
      (∀ i, net.states i = (w.guards i).map (·.node)) ∧
      ∀ o ∈ net.log, ∀ peer addr, o.action ≠ .introduce peer addr := by
  obtain ⟨start, net, mirrors⟩ := reached_mirrors reached
  exact ⟨start, net, mirrors.fresh, mirrors.run, mirrors.states, mirrors.inward⟩

/-- Nor does any of it bring a member that is not there, take one away or speak for one: whom a guard
    knows has started, at no lower incarnation; whom it holds departed has left, at that one; and no
    guard ever sees another under its own ID. -/
theorem outsiders_change_no_member (p : Primitives) (secrets : List Secret) (w : SignedFleet)
    (i : PeerId) (g : Guard) (reached : w.Reached p secrets) (held : w.guards i = some g) :
    g.node.identityConflicts = 0 ∧
      ∀ peer member, g.node.members.members[peer]? = some member → ∃ other,
        w.guards peer = some other ∧ member.addr = other.node.members.addr ∧
        member.incarnation ≤ other.node.members.incarnation ∧
        (member.departed = true → other.node.left = true ∧
          member.incarnation = other.node.members.incarnation) := by
  obtain ⟨start, net, mirrors⟩ := reached_mirrors reached
  have has : net.states i = some g.node := by rw [mirrors.states, held, Option.map_some]
  refine ⟨conflicts_none mirrors.fresh mirrors.run has, fun peer member found => ?_⟩
  obtain ⟨m, began, addr⟩ : ∃ m, start peer = some m ∧ member.addr = m.members.addr :=
    (mirrors.kind (K := fun member addr => ∃ m, start member = some m ∧ addr = m.members.addr)
      fun i n began => ⟨n, (mirrors.fresh.proper i n began).2.symm ▸ began, rfl⟩).1 i g.node _ has
        (.held peer member found)
  obtain ⟨other, there, same⟩ := mirrors.started began
  have now : net.states peer = some other.node := by rw [mirrors.states, there, Option.map_some]
  refine ⟨other, there, addr.trans same.addr.symm, ?_, fun departed => ?_⟩
  · have bounded := sourced_bounded mirrors.fresh mirrors.run
      (abroad_sourced mirrors.fresh mirrors.run (.inl ⟨i, g.node, has, .held peer member found⟩))
    rw [ownIncarnation] at bounded
    simp only [Member.update, now, Option.map_some, Option.getD_some] at bounded
    exact bounded
  · obtain ⟨n, known, left, equal⟩ := departed_left mirrors.fresh mirrors.run has found departed
    rw [now, Option.some.injEq] at known
    exact known ▸ ⟨left, equal⟩

/- Two guards with a secret and a checksum for a tag. One knows the other as a seed, and an outsider
   writes to both. -/
def tagged : Primitives :=
  { plainPrimitives with mac := fun secret bytes => .replicate tagLen ((secret.bytes ++ bytes).sum + 1) }

def shared : Secret := ⟨List.replicate minSecret 7, by decide⟩

def tenAt (port : UInt16) : Address := .v4 (.replicate 4 10) port

def signedSettings (port : UInt16) (seeds : List Address) : Settings :=
  { smallSettings with
    bind := tenAt port, advertise := tenAt port, seeds, auth := ⟨.required, [shared]⟩ }

def SignedFleet.moves (w : SignedFleet) (moves : List SignedMove) : Option SignedFleet :=
  moves.foldlM (fun w move => w.move tagged [shared] move) w

theorem SignedFleet.moves_reached {w w' : SignedFleet} {moves : List SignedMove}
    (reached : w.Reached tagged [shared]) (moved : w.moves moves = some w') :
    w'.Reached tagged [shared] := by
  induction moves generalizing w with
  | nil => exact Option.some.inj moved ▸ reached
  | cons move rest ih =>
    simp only [SignedFleet.moves, List.foldlM_cons, bind, Option.bind_eq_some_iff] at moved
    obtain ⟨u, first, moved⟩ := moved
    exact ih (.move w move u reached first) moved

/- The one that joins is heard by the other, which has refused two datagrams of an outsider: one that
   is not signed, and one with a tag that does not fit. -/
def signedPair : Option SignedFleet := do
  let w ← SignedFleet.moves ⟨fun _ => none, []⟩
    [.start 7 (signedSettings 7 [tenAt 8]) id 1, .start 8 (signedSettings 8 []) id 2, .call 7 (.tick 1)]
  let (_, frame) ← w.sent.head?
  w.moves [.call 8 (.receive [0, 1, 2] 2),
    .call 8 (.receive (marker :: frameVersion :: List.replicate tagLen 0) 3), .call 8 (.receive frame 4)]

theorem signedPair_joins : (signedPair.any fun w => (w.guards 8).any fun g =>
    (g.node.members.members[(7 : PeerId)]?).isSome && decide (g.rejected = ⟨1, 1, 0, 0⟩)) = true := by
  decide +kernel

theorem signedPair_reached {w : SignedFleet} (h : signedPair = some w) :
    w.Reached tagged [shared] := by
  simp only [signedPair, bind, Option.bind_eq_some_iff] at h
  obtain ⟨u, first, ⟨peer, frame⟩, _, last⟩ := h
  exact SignedFleet.moves_reached (SignedFleet.moves_reached .nobody first) last

theorem signed_fleet_hears_members_pair : ∃ w g, signedPair = some w ∧ w.guards 8 = some g ∧
    g.rejected = ⟨1, 1, 0, 0⟩ ∧ ∃ start net, NewFleet start ∧ Run (fleet tagged.decay) start net ∧
      (∀ i, net.states i = (w.guards i).map (·.node)) ∧
      ∀ o ∈ net.log, ∀ peer addr, o.action ≠ .introduce peer addr := by
  obtain ⟨w, paired, checked⟩ := (Option.any_eq_true _ _).mp signedPair_joins
  obtain ⟨g, held, checked⟩ := (Option.any_eq_true _ _).mp checked
  simp only [Bool.and_eq_true, decide_eq_true_eq] at checked
  exact ⟨w, g, paired, held, checked.2,
    signed_fleet_hears_members tagged [shared] w (signedPair_reached paired)⟩

theorem outsiders_change_no_member_pair : ∃ w g member, signedPair = some w ∧ w.guards 8 = some g ∧
    g.rejected = ⟨1, 1, 0, 0⟩ ∧ g.node.members.members[(7 : PeerId)]? = some member ∧
    g.node.identityConflicts = 0 ∧ ∃ other, w.guards 7 = some other ∧
      member.addr = other.node.members.addr ∧
      member.incarnation ≤ other.node.members.incarnation ∧
      (member.departed = true → other.node.left = true ∧
        member.incarnation = other.node.members.incarnation) := by
  obtain ⟨w, paired, checked⟩ := (Option.any_eq_true _ _).mp signedPair_joins
  obtain ⟨g, held, checked⟩ := (Option.any_eq_true _ _).mp checked
  simp only [Bool.and_eq_true, decide_eq_true_eq] at checked
  obtain ⟨member, found⟩ := Option.isSome_iff_exists.mp checked.1
  obtain ⟨none, known⟩ := outsiders_change_no_member tagged [shared] w 8 g (signedPair_reached paired)
    held
  exact ⟨w, g, member, paired, held, checked.2, found, none, known 7 member found⟩

end Rateguard
