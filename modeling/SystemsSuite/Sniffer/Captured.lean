import SystemsSuite.Sniffer.Decoders

set_option autoImplicit false

namespace SystemsSuite.Sniffer

open Lib

variable {packet : Packet} {caplen : UInt32}

@[simp] theorem byteAt_value (packet : Packet) (i : Nat) : (byteAt packet i).value = packet i := rfl

@[simp] theorem byteAt_within (packet : Packet) (i limit : Nat) :
    (byteAt packet i).Within (· < limit) ↔ i < limit := by
  simp [byteAt]

theorem bytesAt_value (packet : Packet) (offset n : Nat) :
    (bytesAt packet offset n).value = (List.range' offset n).map packet := by
  induction n generalizing offset with
  | zero => rfl
  | succ n ih => simp [bytesAt, ih, List.range'_succ]

@[simp] theorem bytesAt_within (packet : Packet) (offset n limit : Nat) :
    (bytesAt packet offset n).Within (· < limit) ↔ n = 0 ∨ offset + n ≤ limit := by
  induction n generalizing offset with
  | zero => simp [bytesAt]
  | succ n ih =>
    simp only [bytesAt, Logged.within_bind, byteAt_within, ih, Logged.within_pure, and_true]
    omega

theorem ntohs_value (packet : Packet) (offset : Nat) :
    (ntohs packet offset).value = bigEndian [packet offset, packet (offset + 1)] := by
  simp [ntohs, bytesAt_value, List.range'_succ]

@[simp] theorem ntohs_within (packet : Packet) (offset limit : Nat) :
    (ntohs packet offset).Within (· < limit) ↔ offset + 2 ≤ limit := by
  simp [ntohs]

@[simp] theorem ntohl_within (packet : Packet) (offset limit : Nat) :
    (ntohl packet offset).Within (· < limit) ↔ offset + 4 ≤ limit := by
  simp [ntohl]

def etherType (packet : Packet) : Nat := bigEndian [packet 12, packet 13]

theorem toInt_eq (n : UInt32) :
    toInt n = if n.toNat < 2 ^ 31 then (n.toNat : Int) else n.toNat - 2 ^ 32 := by
  rw [toInt, BitVec.toInt_eq_toNat_cond]
  simp only [UInt32.toNat_toBitVec]
  split <;> split <;> omega

theorem toInt_nonneg {n : UInt32} (nonneg : 0 ≤ toInt n) : toInt n = n.toNat := by
  have bound := n.toNat_lt
  rw [toInt_eq] at nonneg ⊢
  split at nonneg
  next small => rw [if_pos small]
  next => omega

theorem toNat_sub {k : Nat} (within : k ≤ caplen.toNat) :
    (caplen - UInt32.ofNat k).toNat = caplen.toNat - k := by
  have bound := caplen.toNat_lt
  have size : UInt32.size = 2 ^ 32 := rfl
  have small : (UInt32.ofNat k).toNat = k := UInt32.toNat_ofNat_of_lt' (by omega)
  rw [UInt32.toNat_sub_of_le, small]
  rw [UInt32.le_iff_toNat_le, small]
  exact within

theorem rest_nonneg {k : Nat} (within : k ≤ caplen.toNat)
    (nonneg : 0 ≤ toInt (caplen - UInt32.ofNat k)) :
    toInt (caplen - UInt32.ofNat k) = caplen.toNat - k := by
  rw [toInt_nonneg nonneg, toNat_sub within]
  omega

theorem decodeEthernet_within (packet : Packet) (caplen : UInt32) :
    (decodeEthernet packet caplen).Within (· < caplen.toNat) := by
  simp only [decodeEthernet, Logged.within_ite, Logged.within_bind, bytesAt_within, ntohs_within,
    Logged.within_pure, UInt32.le_iff_toNat_le, UInt32.reduceToNat, implies_true, and_true]
  omega

theorem decodeEthernet_etherType (packet : Packet) {caplen : UInt32} (whole : 14 ≤ caplen.toNat) :
    (((decodeEthernet packet caplen).value.map Ethernet.etherType).getD 0) = etherType packet := by
  have long : 14 ≤ caplen := UInt32.le_iff_toNat_le.mpr whole
  simp [decodeEthernet, long, ntohs_value, etherType]

-- A capture whose length behind the Ethernet header is a positive `int`.
def Measured (caplen : UInt32) : Prop := caplen.toNat < 14 + 2 ^ 31

instance (caplen : UInt32) : Decidable (Measured caplen) := inferInstanceAs (Decidable (_ < _))

theorem l3Len_eq (whole : 14 ≤ caplen.toNat) : toInt (caplen - 14) =
    if Measured caplen then (caplen.toNat : Int) - 14 else caplen.toNat - 14 - 2 ^ 32 := by
  have behind : (caplen - 14).toNat = caplen.toNat - 14 := toNat_sub whole
  by_cases measured : Measured caplen
  · rw [if_pos measured, toInt_eq, behind, if_pos (by rw [Measured] at measured; omega)]
    omega
  · rw [if_neg measured, toInt_eq, behind, if_neg (by rw [Measured] at measured; omega)]
    omega

theorem decodeNetwork_eq (packet : Packet) (caplen : UInt32) (ethType : Nat) :
    decodeNetwork packet caplen ethType =
      if Measured caplen ∧ ethType = ethertypeIp ∧ 34 ≤ caplen.toNat then
        decodeIPv4 packet (caplen.toNat - 14)
      else if Measured caplen ∧ ethType = ethertypeIpv6 ∧ 54 ≤ caplen.toNat then
        decodeIPv6 packet (caplen.toNat - 14)
      else if Measured caplen ∧ ethType = ethertypeArp ∧ 22 ≤ caplen.toNat then decodeARP packet
      else return ⟨none, none, 0, 0⟩ := by
  have bound := caplen.toNat_lt
  simp only [decodeNetwork, UInt32.le_iff_toNat_le, UInt32.reduceToNat]
  by_cases whole : 14 ≤ caplen.toNat
  · rw [if_pos whole, l3Len_eq whole]
    by_cases measured : Measured caplen
    · have enough (k : Nat) : ((k : Int) ≤ (caplen.toNat : Int) - 14) ↔ 14 + k ≤ caplen.toNat := by omega
      have ip := enough 20
      have ip6 := enough 40
      have arp := enough 8
      simp only [Nat.cast_ofNat, Nat.reduceAdd] at ip ip6 arp
      simp only [measured, if_true, true_and, ip, ip6, arp]
    · have negative (k : Nat) : ¬ ((k : Int) ≤ (caplen.toNat : Int) - 14 - 2 ^ 32) := by omega
      have ip := negative 20
      have ip6 := negative 40
      have arp := negative 8
      simp only [Nat.cast_ofNat] at ip ip6 arp
      simp only [measured, if_false, false_and, and_false, ip, ip6, arp]
  · have ip : ¬ 34 ≤ caplen.toNat := by omega
    have ip6 : ¬ 54 ≤ caplen.toNat := by omega
    have arp : ¬ 22 ≤ caplen.toNat := by omega
    simp only [whole, ip, ip6, arp, and_false, if_false]

-- What the network layer hands on is a header that was captured with the length of what follows it.
structure Layer3.Fits (l3 : Layer3) (caplen : UInt32) : Prop where
  offset : l3.l4Offset ≤ 60
  rest : 0 < l3.l4Len → 14 + l3.l4Offset + l3.l4Len = caplen.toNat

theorem decodeNetwork_fits (packet : Packet) (caplen : UInt32) (ethType : Nat) :
    (decodeNetwork packet caplen ethType).value.Fits caplen := by
  rw [decodeNetwork_eq]
  split
  next =>
    simp only [decodeIPv4, Logged.value_bind, Logged.value_pure]
    exact ⟨by dsimp only; omega, fun _ => by dsimp only; omega⟩
  next =>
    split
    next =>
      simp only [decodeIPv6, Logged.value_bind, Logged.value_pure]
      exact ⟨by dsimp only; omega, fun _ => by dsimp only; omega⟩
    next =>
      split
      next => exact ⟨Nat.zero_le _, fun positive => absurd positive (Int.lt_irrefl 0)⟩
      next => exact ⟨Nat.zero_le _, fun positive => absurd positive (Int.lt_irrefl 0)⟩

-- The ARP header is tested for eight bytes and read for twenty-eight.
def ShortARP (packet : Packet) (caplen : UInt32) : Prop :=
  etherType packet = ethertypeArp ∧ 22 ≤ caplen.toNat ∧ caplen.toNat < 42

theorem decodeNetwork_within (packet : Packet) {caplen : UInt32} :
    (decodeNetwork packet caplen (etherType packet)).Within (· < caplen.toNat) ↔
      ¬ ShortARP packet caplen := by
  have apart : ethertypeArp ≠ ethertypeIp ∧ ethertypeArp ≠ ethertypeIpv6 := by decide
  rw [decodeNetwork_eq, ShortARP]
  split
  next ip =>
    refine iff_of_true ?_ fun short => apart.1 (short.1.symm.trans ip.2.1)
    simp only [decodeIPv4, Logged.within_bind, Logged.within_pure, bytesAt_within, byteAt_within,
      ntohs_within, and_true]
    omega
  next =>
    split
    next ip6 =>
      refine iff_of_true ?_ fun short => apart.2 (short.1.symm.trans ip6.2.1)
      simp only [decodeIPv6, Logged.within_bind, Logged.within_pure, bytesAt_within, byteAt_within,
        ntohs_within, ntohl_within, and_true]
      omega
    next =>
      split
      next arp =>
        simp only [decodeARP, Logged.within_bind, Logged.within_pure, bytesAt_within, byteAt_within,
          ntohs_within, and_true, arp.2.1, true_and]
        omega
      next other =>
        refine iff_of_true ((Logged.within_pure _).mpr trivial) ?_
        rw [Measured] at other
        rintro ⟨arp, enough, few⟩
        exact other ⟨by omega, arp, enough⟩

-- What the application layer is handed: nothing, or what is left of the packet.
def Layer4.Follows (l4 : Layer4) (caplen : UInt32) : Prop :=
  l4.l7Len = 0 ∨ l4.l7Len = toInt (caplen - UInt32.ofNat l4.l7Offset)

theorem decodeTransport_within (packet : Packet) {caplen : UInt32} {l3 : Layer3}
    (fits : l3.Fits caplen) : (decodeTransport packet caplen l3).Within (· < caplen.toNat) := by
  have rest := fits.rest
  simp only [decodeTransport, Logged.within_ite, Logged.within_pure, implies_true, and_true]
  refine ⟨fun tcp => ?_, fun _ udp => ?_⟩
  · simp only [decodeTCP, Logged.within_bind, Logged.within_pure, byteAt_within, ntohs_within,
      ntohl_within, and_true]
    omega
  · simp only [decodeUDP, Logged.within_bind, Logged.within_pure, ntohs_within, and_true]
    omega

theorem decodeTransport_follows (packet : Packet) (caplen : UInt32) (l3 : Layer3) :
    (decodeTransport packet caplen l3).value.Follows caplen := by
  simp only [decodeTransport, Logged.value_ite]
  split
  next => exact .inr rfl
  next =>
    split
    next => exact .inr rfl
    next => exact .inl rfl

theorem Layer4.Follows.rest {l4 : Layer4} (follows : l4.Follows caplen)
    (shown : 0 < l4.l7Len ∧ l4.l7Offset < toInt caplen) :
    l4.l7Offset + l4.l7Len = caplen.toNat := by
  have positive := toInt_nonneg (n := caplen) (by omega)
  rcases follows with none | left
  · omega
  · have exactly : toInt (caplen - UInt32.ofNat l4.l7Offset) = caplen.toNat - l4.l7Offset :=
      rest_nonneg (by omega) (by omega)
    omega

theorem decodeApplication_within (packet : Packet) {l4 : Layer4} (follows : l4.Follows caplen) :
    (decodeApplication packet caplen l4).Within (· < caplen.toNat) := by
  simp only [decodeApplication, Logged.within_ite, Logged.within_bind, Logged.within_pure,
    bytesAt_within, implies_true, and_true, and_self]
  intro shown
  have whole := follows.rest shown
  right
  split <;> omega

theorem processPacket_within (packet : Packet) (caplen : UInt32) :
    (processPacket packet caplen).Within (· < caplen.toNat) ↔ ¬ ShortARP packet caplen := by
  have first : (bytesAt packet 0 (if caplen < 16 then caplen.toNat else 16)).Within
      (· < caplen.toNat) := by
    have sixteen : (16 : UInt32).toNat = 16 := rfl
    rw [bytesAt_within]
    split
    next => omega
    next many =>
      rw [UInt32.lt_iff_toNat_lt] at many
      omega
  simp only [processPacket, Logged.within_bind, Logged.within_pure, and_true,
    decodeEthernet_within, true_and, first, decodeTransport_within packet (decodeNetwork_fits ..),
    decodeApplication_within packet (decodeTransport_follows ..)]
  by_cases whole : 14 ≤ caplen.toNat
  · rw [decodeEthernet_etherType packet whole, decodeNetwork_within]
  · refine iff_of_true ?_ fun short => by have enough := short.2.1; omega
    rw [decodeNetwork_eq, if_neg (by omega), if_neg (by omega), if_neg (by omega)]
    exact (Logged.within_pure _).mpr trivial

theorem summarize_within (packet : Packet) (caplen : Int) (l4 : Nat) (ports : List (Nat × Protocol))
    (other : Protocol) : (summarize packet caplen l4 ports other).Within (· < caplen.toNat) := by
  simp only [summarize, Logged.within_ite, Logged.within_bind, Logged.within_pure, ntohs_within,
    implies_true, and_true]
  omega

theorem getProtocolInfo_within (packet : Packet) (caplen : Int) :
    (getProtocolInfo packet caplen).Within (· < caplen.toNat) := by
  simp only [getProtocolInfo, summarizeIPv4, Logged.within_ite, Logged.within_bind,
    Logged.within_pure, ntohs_within, byteAt_within, summarize_within, implies_true, and_true,
    true_and]
  refine fun whole => ⟨by omega, fun _ => ⟨fun ip => ⟨?_, ?_, ?_⟩, fun _ ip6 => ?_⟩⟩ <;> omega

theorem getSrcDstIps_within (packet : Packet) (caplen : Int) :
    (getSrcDstIps packet caplen).Within (· < caplen.toNat) := by
  simp only [getSrcDstIps, Logged.within_ite, Logged.within_bind, Logged.within_pure, ntohs_within,
    bytesAt_within, implies_true, and_true, true_and]
  refine fun whole => ⟨by omega, fun ip => ?_, fun _ ip6 => ?_⟩ <;> omega

-- The two decoders of the summary get the length as an `int`.
theorem toInt_toNat (caplen : UInt32) : (toInt caplen).toNat ≤ caplen.toNat := by
  rcases lt_or_ge (toInt caplen) 0 with negative | nonneg
  · omega
  · have same := toInt_nonneg nonneg
    omega

theorem decoded_bytes_captured (packet : Packet) (caplen : UInt32) :
    (∀ i ∈ (processPacket packet caplen).log ++ (getProtocolInfo packet (toInt caplen)).log
        ++ (getSrcDstIps packet (toInt caplen)).log, i < caplen.toNat) ↔
      ¬ ShortARP packet caplen := by
  have shorter (i : Nat) (within : i < (toInt caplen).toNat) : i < caplen.toNat :=
    Nat.lt_of_lt_of_le within (toInt_toNat caplen)
  have info := (getProtocolInfo_within packet (toInt caplen)).mono shorter
  have ips := (getSrcDstIps_within packet (toInt caplen)).mono shorter
  rw [← processPacket_within]
  constructor
  · intro captured i read
    exact captured i (List.mem_append_left _ (List.mem_append_left _ read))
  · intro captured i read
    rcases List.mem_append.mp read with either | read
    · rcases List.mem_append.mp either with read | read
      · exact captured i read
      · exact info i read
    · exact ips i read

-- An ARP packet that was cut after eight bytes of its header.
theorem short_arp_overread : ¬ ∀ (packet : Packet) (caplen : UInt32),
    ∀ i ∈ (processPacket packet caplen).log ++ (getProtocolInfo packet (toInt caplen)).log
        ++ (getSrcDstIps packet (toInt caplen)).log, i < caplen.toNat := by
  intro captured
  let packet : Packet := fun i => if i = 12 then 0x08 else if i = 13 then 0x06 else 0
  exact absurd (captured packet 22 41) (by decide +kernel)

end SystemsSuite.Sniffer
