import SystemsSuite.Sniffer.Views

set_option autoImplicit false

namespace SystemsSuite.Sniffer

open Lib

variable {packet : Packet} {caplen : UInt32}

-- An IP datagram by its own header: where its transport header starts, how far its IP header goes at
-- least, and where it ends by its length field.
structure Datagram where
  proto : UInt8
  l4 : Nat
  body : Nat
  finish : Nat
  deriving DecidableEq, Repr

def datagramOf (packet : Packet) (caplen : UInt32) : Option Datagram :=
  if etherType packet = ethertypeIp ∧ 34 ≤ caplen.toNat then
    some ⟨packet 23, 14 + (packet 14).toNat % 16 * 4, 34, 14 + bigEndian [packet 16, packet 17]⟩
  else if etherType packet = ethertypeIpv6 ∧ 54 ≤ caplen.toNat then
    some ⟨packet 20, 54, 54, 54 + bigEndian [packet 18, packet 19]⟩
  else none

namespace Datagram

-- A TCP header gives its length in words, a UDP header has eight bytes.
def headerLength (datagram : Datagram) (packet : Packet) : Nat :=
  if datagram.proto = 6 then (packet (datagram.l4 + 12)).toNat / 16 * 4 else 8

def leastLength (datagram : Datagram) : Nat := if datagram.proto = 6 then 20 else 8

def payload (datagram : Datagram) (packet : Packet) : Nat :=
  max datagram.body (datagram.l4 + max datagram.leastLength (datagram.headerLength packet))

def Decoded (datagram : Datagram) (caplen : UInt32) : Prop :=
  (datagram.proto = 6 ∨ datagram.proto = 17) ∧ datagram.l4 + datagram.leastLength ≤ caplen.toNat

-- Where the header length puts the end of the transport header.
def headerEnd (datagram : Datagram) (packet : Packet) : Nat :=
  datagram.l4 + datagram.headerLength packet

end Datagram

-- What is printed as payload lies in the datagram, behind its headers, and is no longer than its payload.
def PayloadInside (packet : Packet) (caplen : UInt32) (datagram : Datagram) : Prop :=
  ∀ application, (processPacket packet caplen).value.application = some application →
    (∀ i, application.offset ≤ i → i < application.offset + application.hex.length →
      datagram.payload packet ≤ i ∧ i < datagram.finish) ∧
    application.hex.length ≤ datagram.finish - datagram.payload packet

-- Bytes are left behind a transport header, which is no shorter than it may be; and nothing follows the
-- datagram in the packet or its payload fills the sixty-four bytes that are shown.
def Unpadded (packet : Packet) (caplen : UInt32) (datagram : Datagram) : Prop :=
  datagram.Decoded caplen → datagram.headerEnd packet < caplen.toNat → caplen.toNat < 2 ^ 31 →
    datagram.payload packet ≤ datagram.headerEnd packet ∧
      (datagram.finish = caplen.toNat ∨ datagram.headerEnd packet + 64 ≤ datagram.finish)

theorem decodeNetwork_datagram {ethType : Nat} (small : caplen.toNat < 2 ^ 31)
    (read : 14 ≤ caplen.toNat → ethType = etherType packet) {datagram : Datagram}
    (found : datagramOf packet caplen = some datagram) :
    let l3 := (decodeNetwork packet caplen ethType).value
    l3.l4Proto = some datagram.proto ∧ 14 + l3.l4Offset = datagram.l4 ∧
      l3.l4Len = caplen.toNat - datagram.l4 := by
  have measured : Measured caplen := by
    rw [Measured]
    omega
  rw [datagramOf] at found
  rw [decodeNetwork_eq]
  split at found
  next ip =>
    obtain rfl := Option.some.inj found
    rw [read (by omega), if_pos ⟨measured, ip⟩]
    refine ⟨rfl, rfl, ?_⟩
    simp only [decodeIPv4, Logged.value_bind, Logged.value_pure, byteAt_value]
    omega
  next =>
    split at found
    next other ip6 =>
      obtain rfl := Option.some.inj found
      rw [read (by omega), if_neg (fun ip => other ip.2), if_pos ⟨measured, ip6⟩]
      refine ⟨rfl, rfl, ?_⟩
      simp only [decodeIPv6, Logged.value_bind, Logged.value_pure]
      omega
    next => contradiction

theorem rest_small {k : Nat} (small : caplen.toNat < 2 ^ 31) (within : k ≤ caplen.toNat) :
    toInt (caplen - UInt32.ofNat k) = caplen.toNat - k := by
  rw [toInt_eq, toNat_sub within, if_pos (by omega)]
  omega

theorem bytesAt_length (packet : Packet) (offset n : Nat) :
    (bytesAt packet offset n).value.length = n := by
  simp [bytesAt_value]

theorem decodeTransport_datagram (packet : Packet) {l3 : Layer3} {datagram : Datagram}
    (handed : l3.l4Proto = some datagram.proto ∧ 14 + l3.l4Offset = datagram.l4 ∧
      l3.l4Len = caplen.toNat - datagram.l4) (decoded : datagram.Decoded caplen) :
    let l4 := (decodeTransport packet caplen l3).value
    l4.l7Offset = datagram.headerEnd packet ∧
      l4.l7Len = toInt (caplen - UInt32.ofNat (datagram.headerEnd packet)) := by
  obtain ⟨proto, start, length⟩ := handed
  obtain ⟨either, long⟩ := decoded
  rw [Datagram.headerEnd, Datagram.headerLength, ← start]
  rw [Datagram.leastLength] at long
  rcases either with tcp | udp
  · rw [if_pos tcp] at long ⊢
    have captured : l3.l4Proto = some 6 ∧ 20 ≤ l3.l4Len := ⟨by rw [proto, tcp], by omega⟩
    rw [decodeTransport, if_pos captured]
    exact ⟨rfl, rfl⟩
  · have other : datagram.proto ≠ 6 := by rw [udp]; decide
    rw [if_neg other] at long ⊢
    have captured : l3.l4Proto = some 17 ∧ 8 ≤ l3.l4Len := ⟨by rw [proto, udp], by omega⟩
    have apart : ¬ (l3.l4Proto = some 6 ∧ 20 ≤ l3.l4Len) := by
      rw [captured.1]
      exact fun tcp => absurd tcp.1 (by decide)
    rw [decodeTransport, if_neg apart, if_pos captured]
    exact ⟨rfl, rfl⟩

theorem decodeTransport_silent (packet : Packet) {l3 : Layer3} {datagram : Datagram}
    (handed : l3.l4Proto = some datagram.proto ∧ 14 + l3.l4Offset = datagram.l4 ∧
      l3.l4Len = caplen.toNat - datagram.l4) (silent : ¬ datagram.Decoded caplen) :
    (decodeTransport packet caplen l3).value.l7Len = 0 := by
  obtain ⟨proto, start, length⟩ := handed
  rw [Datagram.Decoded, Datagram.leastLength] at silent
  have tcp : ¬ (l3.l4Proto = some 6 ∧ 20 ≤ l3.l4Len) := by
    rintro ⟨tcp, long⟩
    have same : datagram.proto = 6 := Option.some.inj (proto.symm.trans tcp)
    rw [if_pos same] at silent
    exact silent ⟨.inl same, by omega⟩
  have udp : ¬ (l3.l4Proto = some 17 ∧ 8 ≤ l3.l4Len) := by
    rintro ⟨udp, long⟩
    have same : datagram.proto = 17 := Option.some.inj (proto.symm.trans udp)
    rw [if_neg (by rw [same]; decide)] at silent
    exact silent ⟨.inr same, by omega⟩
  rw [decodeTransport, if_neg tcp, if_neg udp]
  rfl

theorem application_datagram (small : caplen.toNat < 2 ^ 31) {datagram : Datagram}
    (found : datagramOf packet caplen = some datagram) :
    ((processPacket packet caplen).value.application ≠ none ↔
      datagram.Decoded caplen ∧ datagram.headerEnd packet < caplen.toNat) ∧
    ∀ application, (processPacket packet caplen).value.application = some application →
      application.offset = datagram.headerEnd packet ∧
        application.hex.length = min 64 (caplen.toNat - datagram.headerEnd packet) := by
  have handed := decodeNetwork_datagram small (decodeEthernet_etherType packet) found
  have whole : toInt caplen = caplen.toNat := by rw [toInt_eq, if_pos small]
  simp only [processPacket, Logged.value_bind, Logged.value_pure]
  generalize (decodeNetwork packet caplen
    (((decodeEthernet packet caplen).value.map Ethernet.etherType).getD 0)).value = l3 at handed
  simp only [decodeApplication, Logged.value_ite, Logged.value_bind, Logged.value_pure]
  by_cases decoded : datagram.Decoded caplen
  · obtain ⟨offset, length⟩ := decodeTransport_datagram packet handed decoded
    rw [offset, length, whole]
    by_cases some : datagram.headerEnd packet < caplen.toNat
    · rw [rest_small small some.le, if_pos ⟨by omega, by omega⟩]
      refine ⟨iff_of_true (by simp) ⟨decoded, some⟩, fun application printed => ?_⟩
      obtain rfl := Option.some.inj printed
      refine ⟨rfl, ?_⟩
      rw [bytesAt_length]
      split <;> omega
    · rw [if_neg (fun shown => some (by omega))]
      exact ⟨iff_of_false (by simp) fun shown => some shown.2, fun _ printed => by contradiction⟩
  · have silent := decodeTransport_silent packet handed decoded
    rw [if_neg (by rw [silent]; exact fun shown => absurd shown.1 (Int.lt_irrefl 0))]
    exact ⟨iff_of_false (by simp) fun shown => decoded shown.1, fun _ printed => by contradiction⟩

-- Nothing is printed of a packet whose length is no `int`.
theorem application_small {application : Application}
    (printed : (processPacket packet caplen).value.application = some application) :
    caplen.toNat < 2 ^ 31 := by
  obtain ⟨_, _, shown, _, _⟩ := application_transport printed
  have positive : 0 ≤ toInt caplen := by omega
  rw [toInt_eq] at positive
  split at positive
  next small => exact small
  next =>
    have bound := caplen.toNat_lt
    omega

theorem payloadInside_iff {datagram : Datagram} (found : datagramOf packet caplen = some datagram)
    (contained : datagram.finish ≤ caplen.toNat) :
    PayloadInside packet caplen datagram ↔ Unpadded packet caplen datagram := by
  constructor
  · intro inside decoded behind small
    obtain ⟨shown, exactly⟩ := application_datagram small found
    obtain ⟨application, printed⟩ := Option.ne_none_iff_exists'.mp (shown.mpr ⟨decoded, behind⟩)
    obtain ⟨start, length⟩ := exactly application printed
    obtain ⟨bytes, _⟩ := inside application printed
    have first := bytes application.offset (by omega) (by omega)
    have last := bytes (application.offset + application.hex.length - 1) (by omega) (by omega)
    omega
  · intro unpadded application printed
    have small := application_small printed
    obtain ⟨shown, exactly⟩ := application_datagram small found
    obtain ⟨decoded, behind⟩ := shown.mp (by rw [printed]; simp)
    obtain ⟨start, length⟩ := exactly application printed
    obtain ⟨after, ends⟩ := unpadded decoded behind small
    exact ⟨fun i here before => by omega, by omega⟩

theorem payload_inside (packet : Packet) (caplen : UInt32) :
    (∀ datagram, datagramOf packet caplen = some datagram → datagram.finish ≤ caplen.toNat →
      PayloadInside packet caplen datagram) ↔
    ∀ datagram, datagramOf packet caplen = some datagram → datagram.finish ≤ caplen.toNat →
      Unpadded packet caplen datagram :=
  forall₃_congr fun _ found contained => payloadInside_iff found contained

-- A segment without payload in a frame that is padded to sixty bytes.
theorem padding_shown : ¬ ∀ packet caplen datagram, datagramOf packet caplen = some datagram →
    datagram.finish ≤ caplen.toNat → PayloadInside packet caplen datagram := by
  intro inside
  let packet : Packet := fun i =>
    if i = 12 then 0x08 else if i = 14 then 0x45 else if i = 17 then 40 else if i = 23 then 6
    else if i = 46 then 0x50 else 0
  let application : Application := ⟨.unknown, 54, List.replicate 6 0, List.replicate 6 '.'⟩
  have found : datagramOf packet 60 = some ⟨6, 34, 34, 54⟩ := by decide +kernel
  have printed : (processPacket packet 60).value.application = some application := by decide +kernel
  obtain ⟨bytes, _⟩ := inside packet 60 ⟨6, 34, 34, 54⟩ found (by decide) application printed
  exact absurd (bytes 54 (by decide) (by decide)).2 (by decide)

end SystemsSuite.Sniffer
