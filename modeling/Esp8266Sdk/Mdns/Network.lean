import Esp8266Sdk.Lts.Contention
import Esp8266Sdk.Lts.Run
import Esp8266Sdk.Mdns.Mangle
import Esp8266Sdk.Mdns.Probe

/-! Hosts that claim their names on one network with address records. Packets are
delayed, lost, repeated and delivered in any order. A host that hears of a greater
address under its own name while it probes takes its next name. -/

namespace Esp8266Sdk.Mdns

section Source

/-- The four bytes of an IPv4 address in network order. -/
abbrev Ip := {bytes : List UInt8 // bytes.length = 4}

/-- `_mdns_check_a_collision`: -1 when we win, 1 when they win, 0 for the same address, 2
for that of our other interface. The addresses of our interfaces are none when they are
not there or not active. -/
def checkACollision (ifIp otherIp : Option Ip) (ip : Ip) : ℤ :=
  if ip.val = [0, 0, 0, 0] then 1 else
    match ifIp with
    | none => 1
    | some ifIp =>
      let ret := memcmp ifIp.val ip.val
      if 0 < ret then -1
      else if ret < 0 then
        match otherIp with
        | none => 1
        | some otherIp => if ip ≠ otherIp then 1 else 2
      else 0

/-- A host with one interface: its address, its name and `probe_running`. -/
structure Host where
  ip : Ip
  hostname : CString
  probeRunning : Bool
  deriving DecidableEq

/-- A packet with an address record: the record's name, class without the flush bit and
address, and the packet's kind: a probe, an authoritative answer, or with questions. -/
structure Packet where
  name : CString
  clas : UInt16
  ip : Ip
  probe : Bool
  authoritative : Bool
  questions : Bool
  deriving DecidableEq

/-- `_mdns_name_is_ours` on a host name of the default domain. A label of more than 63 bytes is not read. -/
def nameIsOurs (h : Host) (name : CString) : Bool :=
  strlen name ≤ 63 && name.val ≠ [] && h.hostname.val ≠ [] && SameName name h.hostname

/-- `mdns_parse_packet` on an address record -/
def Host.receive (h : Host) (p : Packet) : Host :=
  if ¬ nameIsOurs h p.name then h
  else if p.questions ∧ ¬ p.probe then h
  else
    let col := if 1 < p.clas then 1 else if p.clas = 0 then -1 else checkACollision (some h.ip) none p.ip
    if col = 1 then
      if h.probeRunning then
        if p.probe ∨ p.authoritative then { h with hostname := mangleName h.hostname } else h
      else { h with probeRunning := true }
    else h

/-- The address record of a host, `_mdns_append_a_record`. -/
def Host.record (h : Host) (probe authoritative questions : Bool) : Packet :=
  ⟨h.hostname, classIn, h.ip, probe, authoritative, questions⟩

end Source

variable {ι : Type*} [DecidableEq ι]

/-- The hosts, and the packets sent so far. -/
structure Network (ι : Type*) where
  hosts : ι → Host
  sent : Set Packet

/-- A host sends its record, receives a packet that was sent at some time, or starts or ends a probe. -/
inductive Action (ι : Type*) where
  | send (a : ι) (probe authoritative questions : Bool)
  | receive (a : ι) (p : Packet)
  | probe (a : ι) (running : Bool)

/-- Another state of the host `a`. -/
def Network.set (s : Network ι) (a : ι) (h : Host) : Network ι := { s with hosts := Function.update s.hosts a h }

@[simp] theorem Network.hosts_set (s : Network ι) (a : ι) (h : Host) : (s.set a h).hosts a = h := Function.update_self ..

theorem Network.hosts_set_of_ne (s : Network ι) {a b : ι} (h : Host) (hb : b ≠ a) : (s.set a h).hosts b = s.hosts b :=
  Function.update_of_ne hb ..

inductive Step : Network ι → Action ι → Network ι → Prop
  | send (s : Network ι) (a : ι) (probe authoritative questions : Bool) :
      Step s (.send a probe authoritative questions)
        { s with sent := insert ((s.hosts a).record probe authoritative questions) s.sent }
  | receive (s : Network ι) (a : ι) (p : Packet) (hp : p ∈ s.sent) :
      Step s (.receive a p) (s.set a ((s.hosts a).receive p))
  | probe (s : Network ι) (a : ι) (running : Bool) :
      Step s (.probe a running) (s.set a { s.hosts a with probeRunning := running })

/-- A state that the network comes to, from hosts none of which has sent anything. -/
def Reaches (start : ι → Host) (s : Network ι) : Prop := Lts.Run Step (fun _ _ => True) ⟨start, ∅⟩ s

section Receive

variable {h : Host} {p : Packet}

/-- Addresses in the order of `memcmp`. -/
def Ip.key (ip : Ip) : List ℕ := ip.val.map UInt8.toNat

theorem Ip.key_injective : Function.Injective Ip.key := fun _ _ h =>
  Subtype.ext (List.map_injective_iff.2 (fun _ _ => UInt8.toNat_inj.1) h)

@[simp] theorem Host.receive_ip : (h.receive p).ip = h.ip := by
  unfold Host.receive
  simp only
  split_ifs <;> rfl

/-- A host gives up its name only to a greater address under the same name, when the
packet is of class IN and has an address. -/
theorem Host.receive_hostname (hc : p.clas = classIn) (h0 : p.ip.val ≠ [0, 0, 0, 0]) :
    (h.receive p).hostname = h.hostname ∨
      ((h.receive p).hostname = mangleName h.hostname ∧ SameName p.name h.hostname ∧ Ip.key h.ip < Ip.key p.ip) := by
  have h1 : ¬ 1 < p.clas := hc ▸ by decide
  have h2 : p.clas ≠ 0 := hc ▸ by decide
  unfold Host.receive
  simp only [if_neg h1, if_neg h2]
  split_ifs with hours hquery hcol hrun hprobe
  · exact Or.inl rfl
  · refine Or.inr ⟨rfl, ?_, ?_⟩
    · rw [nameIsOurs, Bool.and_eq_true, decide_eq_true_iff] at hours
      exact hours.2
    · by_contra hle
      rw [checkACollision, if_neg h0] at hcol
      simp only [memcmp_eq (h.ip.2.trans p.ip.2.symm)] at hcol
      rw [if_neg (show ¬ h.ip.val.map UInt8.toNat < p.ip.val.map UInt8.toNat from hle)] at hcol
      split_ifs at hcol <;> simp_all
  · exact Or.inl rfl
  · exact Or.inl rfl
  · exact Or.inl rfl
  · exact Or.inl rfl

/-- A probing host gives up its name to the probe of a greater address. -/
theorem Host.receive_greater {g : Host} (hrun : h.probeRunning = true) (hn : SameName g.hostname h.hostname)
    (hl : strlen g.hostname ≤ 63) (hg : g.hostname.val ≠ []) (hh : h.hostname.val ≠ []) (hlt : Ip.key h.ip < Ip.key g.ip) :
    (h.receive (g.record true false false)).hostname = mangleName h.hostname := by
  have hours : nameIsOurs h g.hostname = true := by simp [nameIsOurs, hl, hg, hh, hn]
  have hcol : checkACollision (some h.ip) none g.ip = 1 := by
    rw [checkACollision]
    split
    · rfl
    · simp only [memcmp_eq (h.ip.2.trans g.ip.2.symm)]
      rw [if_pos (show h.ip.val.map UInt8.toNat < g.ip.val.map UInt8.toNat from hlt)]
      rfl
  unfold Host.receive Host.record
  simp [hours, hcol, hrun, classIn]

end Receive

section Run

variable {start : ι → Host} {s s' : Network ι} {c : ι → ℕ}

/-- The `k`-th name of a host. -/
def nameOf (start : ι → Host) (a : ι) (k : ℕ) : CString := mangleName^[k] (start a).hostname

/-- `c` counts the names a host has left. Every name left was held by a greater address, and
every packet bears a name its sender has held. -/
structure Names (start : ι → Host) (s : Network ι) (c : ι → ℕ) : Prop where
  ip : ∀ a, (s.hosts a).ip = (start a).ip
  hostname : ∀ a, (s.hosts a).hostname = nameOf start a (c a)
  sent : ∀ p ∈ s.sent, p.clas = classIn ∧ ∃ b, p.ip = (start b).ip ∧ ∃ j ≤ c b, p.name = nameOf start b j
  cause : ∀ a, ∀ i < c a, ∃ b, Ip.key (start a).ip < Ip.key (start b).ip ∧ ∃ j ≤ c b, SameName (nameOf start b j) (nameOf start a i)

omit [DecidableEq ι] in
theorem names_start (start : ι → Host) : Names start ⟨start, ∅⟩ fun _ => 0 :=
  ⟨fun _ => rfl, fun _ => rfl, fun p hp => absurd hp (Set.notMem_empty p), fun _ i hi => absurd hi (Nat.not_lt_zero i)⟩

theorem Names.ip_set (hs : Names start s c) (a : ι) {h : Host} (hip : h.ip = (s.hosts a).ip) (b : ι) :
    ((s.set a h).hosts b).ip = (start b).ip := by
  by_cases hb : b = a
  · subst hb
    rw [Network.hosts_set, hip, hs.ip]
  · rw [s.hosts_set_of_ne h hb, hs.ip]

/-- What a host does without changing its name. -/
theorem Names.update (hs : Names start s c) (a : ι) {h : Host} (hip : h.ip = (s.hosts a).ip) (hn : h.hostname = (s.hosts a).hostname) :
    Names start (s.set a h) c where
  ip := hs.ip_set a hip
  hostname b := by
    by_cases hb : b = a
    · subst hb
      rw [Network.hosts_set, hn, hs.hostname]
    · rw [s.hosts_set_of_ne h hb, hs.hostname]
  sent := hs.sent
  cause := hs.cause

/-- A host that takes its next name. -/
theorem Names.rename (hs : Names start s c) {a : ι} {p : Packet} {h : Host} (hp : p ∈ s.sent) (hip : h.ip = (s.hosts a).ip)
    (hn : h.hostname = mangleName (s.hosts a).hostname) (hsame : SameName p.name (s.hosts a).hostname)
    (hlt : Ip.key (s.hosts a).ip < Ip.key p.ip) :
    Names start (s.set a h) (Function.update c a (c a + 1)) := by
  have hle (b : ι) : c b ≤ Function.update c a (c a + 1) b := by
    by_cases hb : b = a
    · subst hb
      rw [Function.update_self]
      exact Nat.le_succ _
    · rw [Function.update_of_ne hb]
  constructor
  case ip => exact hs.ip_set a hip
  case hostname =>
    intro b
    by_cases hb : b = a
    · subst hb
      rw [Network.hosts_set, Function.update_self, hn, hs.hostname, nameOf, nameOf, Function.iterate_succ_apply']
    · rw [s.hosts_set_of_ne h hb, Function.update_of_ne hb, hs.hostname]
  case sent =>
    intro q hq
    obtain ⟨hcl, b, hb, j, hj, he⟩ := hs.sent q hq
    exact ⟨hcl, b, hb, j, hj.trans (hle b), he⟩
  case cause =>
    intro b i hi
    by_cases hold : i < c b
    · obtain ⟨d, hd, j, hj, he⟩ := hs.cause b i hold
      exact ⟨d, hd, j, hj.trans (hle d), he⟩
    · -- the name just left: the packet's sender has held it
      obtain rfl : b = a := by
        by_contra hb
        rw [Function.update_of_ne hb] at hi
        exact hold hi
      rw [Function.update_self] at hi
      obtain rfl : i = c b := by omega
      obtain ⟨-, d, hd, j, hj, he⟩ := hs.sent p hp
      rw [hs.ip, hd] at hlt
      rw [he, hs.hostname] at hsame
      exact ⟨d, hlt, j, hj.trans (hle d), hsame⟩

theorem Names.step {act : Action ι} (h0 : ∀ a, (start a).ip.val ≠ [0, 0, 0, 0]) (hs : Names start s c) (h : Step s act s') :
    ∃ c', Names start s' c' := by
  cases h with
  | send a probe authoritative questions =>
    refine ⟨c, hs.ip, hs.hostname, fun p hp => ?_, hs.cause⟩
    rcases hp with rfl | hp
    · exact ⟨rfl, a, hs.ip a, c a, le_refl _, hs.hostname a⟩
    · exact hs.sent p hp
  | receive a p hp =>
    obtain ⟨hcl, b, hb, -⟩ := hs.sent p hp
    rcases Host.receive_hostname (h := s.hosts a) hcl (hb ▸ h0 b) with hn | ⟨hn, hsame, hlt⟩
    · exact ⟨c, hs.update a Host.receive_ip hn⟩
    · exact ⟨_, hs.rename hp Host.receive_ip hn hsame hlt⟩
  | probe a running => exact ⟨c, hs.update a rfl rfl⟩

theorem exists_names (h0 : ∀ a, (start a).ip.val ≠ [0, 0, 0, 0]) (h : Reaches start s) : ∃ c, Names start s c :=
  Lts.Run.invariant (I := fun s => ∃ c, Names start s c) (fun ⟨_, hs⟩ _ hstep => hs.step h0 hstep) h ⟨_, names_start start⟩

end Run

variable [Fintype ι]

/-- The number of hosts with a greater address. -/
def rankOf (start : ι → Host) (a : ι) : ℕ := Lts.rank (fun b => Ip.key (start b).ip) a

/-- A state in which no host would give up its name to a probe of another. -/
def Settled (s : Network ι) : Prop :=
  ∀ a b, ({ s.hosts a with probeRunning := true }.receive ((s.hosts b).record true false false)).hostname = (s.hosts a).hostname

end Esp8266Sdk.Mdns
