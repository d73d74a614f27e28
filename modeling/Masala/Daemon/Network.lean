import Masala.Daemon.Handling
import Masala.Daemon.Reception

/-!
# Networks of nodes

Any number of nodes, each with its own configuration and address. They start,
receive what any of them has sent before, do their housekeeping and look things
up, in any order. The datagrams of a node come from its address; the network
may lose, repeat, delay and reorder them, and bring them to anyone.
-/
namespace Masala.Daemon
open Library Container Bencode Routing Session

/-- A node of the network: what it starts with, and the address it sends from. -/
structure Site where
  conf : Conf
  udp : Udp
  time_now : ℤ
  urandom : ℕ → Option Id
  random : ℕ → ℕ
  addr : Ip

/-- How a node appears in the tables and messages of the others. -/
def Site.contact (s : Site) : Contact := ⟨s.conf.node_id, s.addr.addr, s.addr.port⟩

def Site.start (s : Site) : Exec Main := mainInit s.conf s.udp s.time_now s.urandom s.random

/-- What happens to a node of the network. -/
inductive Happening (ι : Type)
  | deliver (source : ι) (now : ℤ) (d : Ip × Bytes)
  | cron (now : ℤ) (env : Env)
  | lookup (callback ctx : ℕ) (id : Id)
  | search (id : Id)

section Run
variable {ι : Type} (sites : ι → Site)

def Happening.event : Happening ι → Event
  | .deliver source now d => .packet now d.2 (sites source).addr
  | .cron now env => .cron now env
  | .lookup callback ctx id => .lookup callback ctx id
  | .search id => .search id

/-- The datagram that arrives, and who has sent it. -/
def Happening.arrival : Happening ι → Option (ι × Ip × Bytes)
  | .deliver source _ d => some (source, d)
  | _ => none

def p2pNetwork : Network ι Main (Happening ι) (Ip × Bytes) where
  step _ m h m' := m.step (h.event sites) = .ok m'
  sent m := { d | d ∈ m.out }
  received := Happening.arrival

/-- The nodes are in these states after they have started and these things have happened. -/
def Reached [DecidableEq ι] (hs : List (ι × Happening ι)) (net : ι → Main) : Prop :=
  ∃ net₀, (∀ i, (sites i).start = .ok (net₀ i)) ∧ Trace (p2pNetwork sites).Moves net₀ hs net

end Run

/-! ## Playing a run -/

section Play
variable {ι : Type} [DecidableEq ι] (sites : ι → Site)

/-- One thing happens, unless it would bring a datagram that nobody has sent. -/
def play (net : ι → Main) (x : ι × Happening ι) : Option (ι → Main) :=
  if ∀ a ∈ x.2.arrival, a.2 ∈ (net a.1).out then
    ((net x.1).step (x.2.event sites)).toOption.map (Function.update net x.1)
  else none

theorem toOption_eq_some {α : Type} {x : Exec α} {a : α} (h : x.toOption = some a) : x = .ok a := by
  cases x with
  | error err => cases h
  | ok b => exact congrArg Except.ok (Option.some.inj h)

theorem play_moves {net net' : ι → Main} {x : ι × Happening ι} (h : play sites net x = some net') :
    (p2pNetwork sites).Moves net x net' := by
  rw [play] at h
  split at h
  · rename_i hsent
    obtain ⟨m, hm, rfl⟩ := Option.map_eq_some_iff.mp h
    exact .intro (toOption_eq_some hm) fun j d ha => hsent (j, d) ha
  · cases h

theorem play_trace {net net' : ι → Main} {hs : List (ι × Happening ι)}
    (h : hs.foldlM (play sites) net = some net') :
    Trace (p2pNetwork sites).Moves net hs net' := by
  induction hs generalizing net with
  | nil =>
    obtain rfl := Option.some.inj h
    exact .nil net
  | cons x hs ih =>
    obtain ⟨net₁, hplay, hrest⟩ := Option.bind_eq_some_iff.mp h
    exact .cons (play_moves sites hplay) (ih hrest)

end Play

/-- A node that can be found, `true`, and one that has no name. -/
def duo (b : Bool) : Site where
  conf := ⟨headId (if b then 0x01 else 0x81), headId (if b then 0x02 else 0x82),
    if b then some "a.p2p" else none, none⟩
  udp := ⟨3, true⟩
  time_now := 0
  urandom k := if k < 16 then some (headId ((if b then 0x10 else 0x20) + k.toUInt8)) else none
  random _ := 0
  addr := ⟨AF_INET6, Octets.replicate 2 (if b then 1 else 2), 0,
    Octets.replicate 16 (if b then 1 else 2), 0⟩

/-- The two after they have started and these things have happened. -/
def duoAfter (hs : List (Bool × Happening Bool)) : Option (Bool → Main) := do
  let m ← (duo true).start.toOption
  let m' ← (duo false).start.toOption
  hs.foldlM (play duo) fun b => if b then m else m'

/-- The node `true` asks the other one, which is its bootstrap server. -/
def duoAsks : List (Bool × Happening Bool) :=
  [(true, .cron 1 ⟨.ok [(duo false).addr], true, fun _ => 1, true⟩),
    (false, .deliver true 1 ((duo false).addr, Message.datagram ⟨headId 0x01, headId 0x10, .ping⟩))]

/-- The answer to this. -/
def duoPong : Message := ⟨headId 0x81, headId 0x10, .pong⟩

theorem duo_reached {hs : List (Bool × Happening Bool)} {net : Bool → Main}
    (h : duoAfter hs = some net) : Reached duo hs net := by
  simp only [duoAfter, bind, Option.bind_eq_some_iff] at h
  obtain ⟨m, hm, m', hm', hplay⟩ := h
  refine ⟨_, fun b => ?_, play_trace duo hplay⟩
  cases b with
  | true => exact toOption_eq_some hm
  | false => exact toOption_eq_some hm'

/-! ## Nobody is invented -/

section Contacts
variable {ι : Type} (sites : ι → Site)

/-- The contact of some node of the network. -/
def Genuine (c : Contact) : Prop := ∃ i, c = (sites i).contact

/-- The datagram carries a message of the node `i` that only lists nodes of the network. -/
def SaysGenuine (i : ι) (datagram : Bytes) : Prop :=
  ∃ msg : Message, datagram = msg.datagram ∧ msg.node_id = (sites i).conf.node_id ∧
    ∀ c ∈ msg.body.contacts, Genuine sites c

/-- The table of the node and all that it has said are about nodes of the network. -/
structure Truthful (i : ι) (m : Main) : Prop where
  conf : m.conf = (sites i).conf
  inOrder : InOrder m
  known : ∀ id sa, Known m.nbhd id sa → Genuine sites ⟨id, sa.addr, sa.port⟩
  out : ∀ d ∈ m.out, SaysGenuine sites i d.2

variable {sites} {i : ι} {m₀ m m' : Main} {e : Event} {eff : Effect}

theorem wants_contacts {body : Body} (h : m.Wants body) : body.contacts = [] := by
  cases body with
  | nodesFind nodes => exact h.elim
  | nodesAnnounce lkp_id nodes => exact h.elim
  | nodesLookup lkp_id nodes => exact h.elim
  | _ => rfl

theorem answers_contacts {packet : ObjBen} {body : Body} (h : m.Answers packet body) :
    ∀ c ∈ body.contacts, ∃ n ∈ allNodes m.nbhd, c = contactOf n := by
  have hlist : ∀ nodes, m.Lists nodes → ∀ c ∈ nodes, ∃ n ∈ allNodes m.nbhd, c = contactOf n := by
    rintro _ ⟨ns, hns, rfl⟩ c hc
    obtain ⟨n, hn, rfl⟩ := List.mem_map.mp hc
    exact ⟨n, hns n (List.mem_of_mem_filter hn), rfl⟩
  cases body with
  | nodesFind nodes => exact hlist nodes h.2
  | nodesAnnounce lkp_id nodes => exact hlist nodes h.2.2
  | nodesLookup lkp_id nodes => exact hlist nodes h.2.2
  | _ => exact fun c hc => nomatch hc

/-- Every effect keeps this, if the event only names nodes of the network. -/
theorem Truthful.work (h : Truthful sites i m) (hw : Work m₀ e m eff m')
    (hnames : ∀ id sa, Names m₀ e id sa → Genuine sites ⟨id, sa.addr, sa.port⟩) :
    Truthful sites i m' := by
  refine ⟨hw.moved.conf.trans h.conf, hw.moved.inOrder h.inOrder, fun id sa hknown => ?_, ?_⟩
  · rcases hw.known hknown with hold | hnew
    · exact h.known id sa hold
    · exact hnames id sa hnew
  · intro d hd
    rcases hw.out_cases hd with hd | ⟨x, hx, -, hbytes⟩
    · exact h.out d hd
    · obtain ⟨hid, hsaid⟩ := hw.message hx
      refine ⟨x.2, hbytes, by rw [hid, h.conf], fun c hc => ?_⟩
      rcases hsaid with ⟨hwants, -⟩ | ⟨packet, id, m₁, -, hanswers⟩
      · rw [wants_contacts hwants] at hc
        cases hc
      · obtain ⟨n, hn, rfl⟩ := answers_contacts hanswers c hc
        exact h.known n.id n.c_addr ⟨n, hn, rfl, rfl⟩

theorem Site.start_truthful (h : (sites i).start = .ok m) : Truthful sites i m := by
  obtain ⟨hconf, hm, -⟩ := mainInit_ensures _ _ _ _ _ m h
  have hempty := mainInit_empty _ _ _ _ _ m h
  have hout : m.out = [] := by
    obtain ⟨t, -, h⟩ := exec_bind_eq_ok.mp h
    rw [← Except.ok.inj h]
  refine ⟨hconf, hm, ?_, by simp [hout]⟩
  rintro id sa ⟨n, hn, -⟩
  rw [hempty] at hn
  cases hn

/-- A datagram of a truthful node only names nodes of the network. -/
theorem SaysGenuine.names {j : ι} {datagram : Bytes} (h : SaysGenuine sites j datagram) {now : ℤ}
    {id : Id} {sa : Ip} (hn : Names m (.packet now datagram (sites j).addr) id sa) :
    Genuine sites ⟨id, sa.addr, sa.port⟩ := by
  obtain ⟨msg, rfl, hid, hcontacts⟩ := h
  rcases hn.message with ⟨rfl, rfl⟩ | ⟨c, hc, rfl, rfl⟩
  · exact ⟨j, by rw [hid]; rfl⟩
  · exact hcontacts c hc

theorem Truthful.step (h : Truthful sites i m) {hap : Happening ι}
    (hgood : ∀ j d, hap.arrival = some (j, d) → SaysGenuine sites j d.2)
    (hstep : m.step (hap.event sites) = .ok m') : Truthful sites i m' := by
  refine (step_works h.inOrder _ m' hstep).keeps (fun m₁ eff m₂ hw h₁ => h₁.work hw ?_) h
  intro id sa hn
  cases hap with
  | deliver source now d => exact (hgood source d rfl).names hn
  | cron now env =>
    obtain ⟨now', datagram, sender, he⟩ := hn.packet
    cases he
  | lookup callback ctx find_id =>
    obtain ⟨now', datagram, sender, he⟩ := hn.packet
    cases he
  | search find_id =>
    obtain ⟨now', datagram, sender, he⟩ := hn.packet
    cases he

end Contacts

/-- In every run of the network every table entry is the id and the address of a node, and every
datagram is a message of its sender that only lists such nodes. -/
theorem network_contacts {ι : Type} [DecidableEq ι] (sites : ι → Site)
    (hs : List (ι × Happening ι)) (net : ι → Main) (h : Reached sites hs net) (i : ι) :
    (∀ n ∈ allNodes (net i).nbhd, Genuine sites (contactOf n)) ∧
      ∀ d ∈ (net i).out, SaysGenuine sites i d.2 := by
  obtain ⟨net₀, hstart, htrace⟩ := h
  have hgood : ∀ i m, Truthful sites i m → ∀ d ∈ (p2pNetwork sites).sent m,
      SaysGenuine sites i d.2 := fun i m hm => hm.out
  have hstep : ∀ i m hap m', (p2pNetwork sites).step i m hap m' → (∀ j d,
      (p2pNetwork sites).received hap = some (j, d) → SaysGenuine sites j d.2) →
      Truthful sites i m → Truthful sites i m' :=
    fun i m hap m' hstep hreceived hm => hm.step hreceived hstep
  have htruthful := Network.keeps hstep hgood htrace (fun i => Site.start_truthful (hstart i)) i
  exact ⟨fun n hn => htruthful.known n.id n.c_addr ⟨n, hn, rfl, rfl⟩, htruthful.out⟩

/-- Two nodes, of which one has heard from the other. -/
theorem network_contacts_duo : ∃ net, duoAfter duoAsks = some net ∧
    (allNodes (net false).nbhd).map contactOf = [(duo true).contact] ∧
    ∀ i, (∀ n ∈ allNodes (net i).nbhd, Genuine duo (contactOf n)) ∧
      ∀ d ∈ (net i).out, SaysGenuine duo i d.2 := by
  have hcalc : (duoAfter duoAsks).map (fun net => (allNodes (net false).nbhd).map contactOf) =
      some [(duo true).contact] := by decide +kernel
  obtain ⟨net, hnet, hcontacts⟩ := Option.map_eq_some_iff.mp hcalc
  exact ⟨net, hnet, hcontacts, fun i => network_contacts duo duoAsks net (duo_reached hnet) i⟩

end Masala.Daemon
