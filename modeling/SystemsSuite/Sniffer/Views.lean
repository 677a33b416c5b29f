import SystemsSuite.Sniffer.Captured

set_option autoImplicit false

namespace SystemsSuite.Sniffer

open Lib

variable {packet : Packet} {caplen : UInt32}

def Protocol.shared (protocol : Protocol) : Bool := protocol ∈ [.http, .https, .dns, .dhcp]

theorem find?_filter_of_kept {α : Type} {p q : α → Bool} {l : List α} {x : α}
    (found : l.find? q = some x) (kept : p x = true) : (l.filter p).find? q = some x := by
  induction l with
  | nil => contradiction
  | cons a l ih =>
    by_cases matching : q a = true
    · rw [List.find?_cons_of_pos matching, Option.some.injEq] at found
      rw [List.filter_cons_of_pos (found ▸ kept), List.find?_cons_of_pos matching, found]
    · rw [List.find?_cons_of_neg matching] at found
      rw [List.filter_cons]
      split
      next => rw [List.find?_cons_of_neg matching, ih found]
      next => exact ih found

theorem protocolOf_filter {ports : List (Nat × Protocol)} {port dport : Nat}
    (named : (protocolOf ports .unknown port dport).shared = true) (other : Protocol) :
    protocolOf (ports.filter (·.2.shared)) other port dport
      = protocolOf ports .unknown port dport := by
  rw [protocolOf] at named ⊢
  cases found : ports.find? fun p => port = p.1 ∨ dport = p.1 with
  | none =>
    rw [found] at named
    contradiction
  | some p =>
    rw [found] at named
    rw [protocolOf, found, find?_filter_of_kept found named]
    rfl

theorem summary_ports : summaryTcpPorts = tcpPorts.filter (·.2.shared) ∧
    summaryUdpPorts = udpPorts.filter (·.2.shared) := by
  decide

theorem summarize_shared (packet : Packet) {caplen : Int} {l4 : Nat} {ports : List (Nat × Protocol)}
    (captured : l4 + 4 ≤ caplen) (other : Protocol)
    (named : (protocolOf ports .unknown (ntohs packet l4).value (ntohs packet (l4 + 2)).value).shared
      = true) :
    (summarize packet caplen l4 (ports.filter (·.2.shared)) other).value =
      protocolOf ports .unknown (ntohs packet l4).value (ntohs packet (l4 + 2)).value := by
  rw [summarize, if_pos captured]
  exact protocolOf_filter named other

-- What the network layer hands on when the transport header behind it can be decoded.
inductive Carries (packet : Packet) (caplen : UInt32) (proto : UInt8) : Nat → Prop
  | ipv4 : etherType packet = ethertypeIp → 34 ≤ caplen.toNat → packet 23 = proto →
      Carries packet caplen proto ((packet 14).toNat % 16 * 4)
  | ipv6 : etherType packet = ethertypeIpv6 → 54 ≤ caplen.toNat → packet 20 = proto →
      Carries packet caplen proto 40

theorem decodeNetwork_carries {ethType : Nat} {proto : UInt8}
    (read : 14 ≤ caplen.toNat → ethType = etherType packet)
    (next : (decodeNetwork packet caplen ethType).value.l4Proto = some proto) :
    Carries packet caplen proto (decodeNetwork packet caplen ethType).value.l4Offset := by
  rw [decodeNetwork_eq] at next ⊢
  split at next
  next ip =>
    rw [if_pos ip]
    exact .ipv4 ((read (by omega)).symm.trans ip.2.1) ip.2.2 (Option.some.inj next)
  next other =>
    rw [if_neg other]
    split at next
    next ip6 =>
      rw [if_pos ip6]
      exact .ipv6 ((read (by omega)).symm.trans ip6.2.1) ip6.2.2 (Option.some.inj next)
    next =>
      split at next
      next => contradiction
      next => contradiction

theorem toInt_short (short : caplen.toNat ≤ snaplen) : toInt caplen = caplen.toNat := by
  rw [snaplen] at short
  rw [toInt_eq, if_pos (by omega)]

theorem measured_short (short : caplen.toNat ≤ snaplen) : Measured caplen := by
  rw [snaplen] at short
  rw [Measured]
  omega

theorem getProtocolInfo_carries {proto : UInt8} {l4Offset : Nat}
    (carried : Carries packet caplen proto l4Offset) (short : caplen.toNat ≤ snaplen) :
    (proto = 6 → (getProtocolInfo packet (toInt caplen)).value =
      (summarize packet caplen.toNat (14 + l4Offset) summaryTcpPorts .tcp).value) ∧
    (proto = 17 → (getProtocolInfo packet (toInt caplen)).value =
      (summarize packet caplen.toNat (14 + l4Offset) summaryUdpPorts .udp).value) := by
  have type : (ntohs packet 12).value = etherType packet := ntohs_value packet 12
  rw [getProtocolInfo, toInt_short short]
  cases carried with
  | ipv4 ip long same =>
    rw [if_neg (by omega)]
    simp only [Logged.value_bind, Logged.value_ite, type, ip, byteAt_value, same, summarizeIPv4]
    rw [if_neg (by decide), if_pos ⟨trivial, by omega⟩]
    constructor
    · rintro rfl
      rfl
    · rintro rfl
      rfl
  | ipv6 ip6 long same =>
    rw [if_neg (by omega)]
    simp only [Logged.value_bind, Logged.value_ite, type, ip6, byteAt_value, same]
    rw [if_neg (by decide), if_neg (by intro ip; exact absurd ip.1 (by decide)),
      if_pos ⟨trivial, by omega⟩]
    constructor
    · rintro rfl
      rfl
    · rintro rfl
      rfl

theorem decodeTransport_ports {l3 : Layer3}
    (positive : 0 < (decodeTransport packet caplen l3).value.l7Len) :
    ∃ ports, ((l3.l4Proto = some 6 ∧ ports = tcpPorts ∧ 20 ≤ l3.l4Len) ∨
        (l3.l4Proto = some 17 ∧ ports = udpPorts ∧ 8 ≤ l3.l4Len)) ∧
      (decodeTransport packet caplen l3).value.protocol =
        protocolOf ports .unknown (ntohs packet (14 + l3.l4Offset)).value
          (ntohs packet (14 + l3.l4Offset + 2)).value := by
  simp only [decodeTransport, Logged.value_ite] at positive ⊢
  split at positive
  next tcp =>
    rw [if_pos tcp]
    exact ⟨tcpPorts, .inl ⟨tcp.1, rfl, tcp.2⟩, rfl⟩
  next other =>
    rw [if_neg other]
    split at positive
    next udp =>
      rw [if_pos udp]
      exact ⟨udpPorts, .inr ⟨udp.1, rfl, udp.2⟩, rfl⟩
    next => exact absurd positive (Int.lt_irrefl 0)

theorem application_transport {application : Application}
    (printed : (processPacket packet caplen).value.application = some application) :
    ∃ ethType, (14 ≤ caplen.toNat → ethType = etherType packet) ∧
      let l3 := (decodeNetwork packet caplen ethType).value
      let l4 := (decodeTransport packet caplen l3).value
      (0 < l4.l7Len ∧ l4.l7Offset < toInt caplen) ∧
        (decodeApplication packet caplen l4).value = some application ∧
        application.protocol = l4.protocol := by
  refine ⟨_, decodeEthernet_etherType packet, ?_⟩
  simp only [processPacket, Logged.value_bind, Logged.value_pure] at printed
  refine ⟨?_, printed, ?_⟩
  · by_contra silent
    rw [decodeApplication, if_neg silent] at printed
    contradiction
  · simp only [decodeApplication, Logged.value_ite] at printed
    split at printed
    next => exact congrArg Application.protocol (Option.some.inj printed).symm
    next => contradiction

theorem application_summary {application : Application} (short : caplen.toNat ≤ snaplen)
    (printed : (processPacket packet caplen).value.application = some application)
    (shared : application.protocol.shared = true) :
    (getProtocolInfo packet (toInt caplen)).value = application.protocol := by
  obtain ⟨ethType, read, shown, _, same⟩ := application_transport printed
  obtain ⟨ports, next, told⟩ := decodeTransport_ports shown.1
  have fits := decodeNetwork_fits packet caplen ethType
  rw [same, told] at shared ⊢
  rcases next with ⟨tcp, rfl, long⟩ | ⟨udp, rfl, long⟩
  · have carried := decodeNetwork_carries read tcp
    have captured := fits.rest (by omega)
    rw [(getProtocolInfo_carries carried short).1 rfl, summary_ports.1]
    exact summarize_shared packet (by omega) .tcp shared
  · have carried := decodeNetwork_carries read udp
    have captured := fits.rest (by omega)
    rw [(getProtocolInfo_carries carried short).2 rfl, summary_ports.2]
    exact summarize_shared packet (by omega) .udp shared

-- The addresses that `process_packet` prints of a network header.
def Network.addresses : Network → Option (Address × Address)
  | .ipv4 src dst .. => some (src, dst)
  | .ipv6 src dst .. => some (src, dst)
  | .arp .. => none

theorem addresses_agree (packet : Packet) (short : caplen.toNat ≤ snaplen) :
    (processPacket packet caplen).value.network.bind Network.addresses =
      (getSrcDstIps packet (toInt caplen)).value := by
  have measured := measured_short short
  have type : (ntohs packet 12).value = etherType packet := ntohs_value packet 12
  simp only [processPacket, Logged.value_bind, Logged.value_pure]
  by_cases whole : 14 ≤ caplen.toNat
  · have long (k : Nat) : ((k : Int) ≤ caplen.toNat) ↔ k ≤ caplen.toNat := by omega
    have enough := long 34
    have enough6 := long 54
    simp only [Nat.cast_ofNat] at enough enough6
    rw [decodeEthernet_etherType packet whole, decodeNetwork_eq, getSrcDstIps, toInt_short short]
    simp only [measured, true_and, Logged.value_ite, Logged.value_bind, type, enough, enough6]
    rw [if_neg (by omega : ¬ (caplen.toNat : Int) < 14)]
    split
    next => rfl
    next =>
      split
      next => rfl
      next => split <;> rfl
  · rw [decodeNetwork_eq, if_neg (by omega), if_neg (by omega), if_neg (by omega), getSrcDstIps,
      toInt_short short, if_pos (by omega)]
    rfl

theorem views_agree (packet : Packet) (caplen : UInt32) (short : caplen.toNat ≤ snaplen) :
    (∀ application, (processPacket packet caplen).value.application = some application →
      application.protocol.shared = true →
        (getProtocolInfo packet (toInt caplen)).value = application.protocol) ∧
    (processPacket packet caplen).value.network.bind Network.addresses =
      (getSrcDstIps packet (toInt caplen)).value :=
  ⟨fun _ printed shared => application_summary short printed shared, addresses_agree packet short⟩

-- A segment to port 80 with one byte of payload.
theorem views_agree_http : ∃ packet : Packet, ∃ application,
    (processPacket packet 55).value.application = some application ∧
      application.protocol = .http ∧ (getProtocolInfo packet (toInt 55)).value = .http ∧
      (processPacket packet 55).value.network.bind Network.addresses =
        (getSrcDstIps packet (toInt 55)).value := by
  let packet : Packet := fun i =>
    if i = 12 then 0x08 else if i = 14 then 0x45 else if i = 23 then 6 else if i = 37 then 80
    else if i = 46 then 0x50 else 0
  let application : Application := ⟨.http, 54, [0], ['.']⟩
  have printed : (processPacket packet 55).value.application = some application := by decide +kernel
  obtain ⟨labels, addresses⟩ := views_agree packet 55 (by decide)
  exact ⟨packet, application, printed, rfl, labels application printed (by decide), addresses⟩

end SystemsSuite.Sniffer
