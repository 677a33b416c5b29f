import SystemsSuite.Lib.Logged

set_option autoImplicit false

namespace SystemsSuite.Sniffer

open Lib

-- The bytes at and after `packet`, of which `caplen` were captured.
abbrev Packet := Nat → UInt8

abbrev Decoder := Logged Nat

def byteAt (packet : Packet) (i : Nat) : Decoder UInt8 := do
  Logged.event i
  return packet i

def bytesAt (packet : Packet) (offset : Nat) : Nat → Decoder (List UInt8)
  | 0 => return []
  | n + 1 => do
    let byte ← byteAt packet offset
    let rest ← bytesAt packet (offset + 1) n
    return byte :: rest

def bigEndian (bytes : List UInt8) : Nat := bytes.foldl (fun n byte => 256 * n + byte.toNat) 0

def ntohs (packet : Packet) (offset : Nat) : Decoder Nat := do
  return bigEndian (← bytesAt packet offset 2)

def ntohl (packet : Packet) (offset : Nat) : Decoder Nat := do
  return bigEndian (← bytesAt packet offset 4)

-- A conversion to `int`.
def toInt (n : UInt32) : Int := n.toBitVec.toInt

def ethertypeIp : Nat := 0x0800
def ethertypeArp : Nat := 0x0806
def ethertypeIpv6 : Nat := 0x86DD

def snaplen : Nat := 65535

inductive Protocol
  | http | https | ssh | smtp | pop3 | imap | ftp | telnet | dns
  | dhcp | ntp | tftp
  | tcp | udp | ipv4 | ipv6 | arp | unknown
  deriving DecidableEq, Repr

-- What `inet_ntop` is given to print.
inductive Address
  | inet (bytes : List UInt8)
  | inet6 (bytes : List UInt8)
  deriving DecidableEq, Repr

structure Ethernet where
  dhost : List UInt8
  shost : List UInt8
  etherType : Nat
  deriving DecidableEq, Repr

inductive Network
  | ipv4 (src dst : Address) (protocol ttl : UInt8) (id totLen headerLength flags : Nat)
  | ipv6 (src dst : Address) (nextHeader hopLimit : UInt8) (trafficClass flowLabel payloadLength : Nat)
  | arp (operation hwType protoType : Nat) (hwLen protoLen : UInt8)
      (senderMac senderIp targetMac targetIp : List UInt8)
  deriving DecidableEq, Repr

inductive Transport
  | tcp (srcPort dstPort : Nat) (srcName dstName : Option Protocol) (seq ack : Nat) (flags : UInt8)
      (window checksum dataOffset : Nat)
  | udp (srcPort dstPort : Nat) (srcName dstName : Option Protocol) (len checksum : Nat)
  deriving DecidableEq, Repr

-- The bytes that are printed start at `offset`.
structure Application where
  protocol : Protocol
  offset : Nat
  hex : List UInt8
  ascii : List Char
  deriving DecidableEq, Repr

structure Report where
  ethernet : Option Ethernet
  network : Option Network
  transport : Option Transport
  application : Option Application
  firstBytes : List UInt8
  deriving DecidableEq, Repr

def decodeEthernet (packet : Packet) (caplen : UInt32) : Decoder (Option Ethernet) :=
  if 14 ≤ caplen then do
    let dhost ← bytesAt packet 0 6
    let shost ← bytesAt packet 6 6
    let etherType ← ntohs packet 12
    return some ⟨dhost, shost, etherType⟩
  else return none

-- The network header, and what the next layer gets of it.
structure Layer3 where
  network : Option Network
  l4Proto : Option UInt8
  l4Offset : Nat
  l4Len : Int

def decodeIPv4 (packet : Packet) (l3Len : Int) : Decoder Layer3 := do
  let saddr ← bytesAt packet (14 + 12) 4
  let daddr ← bytesAt packet (14 + 16) 4
  let protocol ← byteAt packet (14 + 9)
  let ttl ← byteAt packet (14 + 8)
  let id ← ntohs packet (14 + 4)
  let totLen ← ntohs packet (14 + 2)
  let version ← byteAt packet 14
  let fragOff ← ntohs packet (14 + 6)
  -- `ihl` is the low half of the first byte.
  let headerLength := version.toNat % 16 * 4
  return {
    network := some (.ipv4 (.inet saddr) (.inet daddr) protocol ttl id totLen headerLength
      (fragOff &&& 0xE000))
    l4Proto := some protocol
    l4Offset := headerLength
    l4Len := l3Len - headerLength }

def decodeIPv6 (packet : Packet) (l3Len : Int) : Decoder Layer3 := do
  let src ← bytesAt packet (14 + 8) 16
  let dst ← bytesAt packet (14 + 24) 16
  let nextHeader ← byteAt packet (14 + 6)
  let hopLimit ← byteAt packet (14 + 7)
  let word ← ntohl packet 14
  let payloadLength ← ntohs packet (14 + 4)
  return {
    network := some (.ipv6 (.inet6 src) (.inet6 dst) nextHeader hopLimit
      ((word &&& 0x0FF00000) >>> 20) (word &&& 0x000FFFFF) payloadLength)
    l4Proto := some nextHeader
    l4Offset := 40
    l4Len := l3Len - 40 }

def decodeARP (packet : Packet) : Decoder Layer3 := do
  let operation ← ntohs packet (14 + 6)
  let hwType ← ntohs packet 14
  let protoType ← ntohs packet (14 + 2)
  let hwLen ← byteAt packet (14 + 4)
  let protoLen ← byteAt packet (14 + 5)
  let senderMac ← bytesAt packet (14 + 8) 6
  let senderIp ← bytesAt packet (14 + 8 + 6) 4
  let targetMac ← bytesAt packet (14 + 8 + 10) 6
  let targetIp ← bytesAt packet (14 + 8 + 16) 4
  return {
    network := some (.arp operation hwType protoType hwLen protoLen senderMac senderIp targetMac targetIp)
    l4Proto := none
    l4Offset := 0
    l4Len := 0 }

def decodeNetwork (packet : Packet) (caplen : UInt32) (ethType : Nat) : Decoder Layer3 :=
  if 14 ≤ caplen then
    let l3Len := toInt (caplen - 14)
    if ethType = ethertypeIp ∧ 20 ≤ l3Len then decodeIPv4 packet l3Len
    else if ethType = ethertypeIpv6 ∧ 40 ≤ l3Len then decodeIPv6 packet l3Len
    else if ethType = ethertypeArp ∧ 8 ≤ l3Len then decodeARP packet
    else return ⟨none, none, 0, 0⟩
  else return ⟨none, none, 0, 0⟩

-- The ports by which an application protocol is told, in the order in which they are tried.
def tcpPorts : List (Nat × Protocol) :=
  [(80, .http), (443, .https), (22, .ssh), (25, .smtp), (110, .pop3), (143, .imap), (21, .ftp),
    (23, .telnet), (53, .dns)]

def udpPorts : List (Nat × Protocol) :=
  [(53, .dns), (67, .dhcp), (68, .dhcp), (123, .ntp), (69, .tftp)]

def portName (ports : List (Nat × Protocol)) (port : Nat) : Option Protocol :=
  (ports.find? fun p => port = p.1).map (·.2)

def protocolOf (ports : List (Nat × Protocol)) (other : Protocol) (port dport : Nat) : Protocol :=
  ((ports.find? fun p => port = p.1 ∨ dport = p.1).map (·.2)).getD other

-- The transport header, and what the application layer gets of it.
structure Layer4 where
  transport : Option Transport
  l7Offset : Nat
  l7Len : Int
  protocol : Protocol

def decodeTCP (packet : Packet) (caplen : UInt32) (l4Offset : Nat) : Decoder Layer4 := do
  let l4 := 14 + l4Offset
  let srcPort ← ntohs packet l4
  let dstPort ← ntohs packet (l4 + 2)
  let seq ← ntohl packet (l4 + 4)
  let ack ← ntohl packet (l4 + 8)
  let offsetByte ← byteAt packet (l4 + 12)
  let flags ← byteAt packet (l4 + 13)
  let checksum ← ntohs packet (l4 + 16)
  let window ← ntohs packet (l4 + 14)
  -- `((l4[12] & 0xF0) >> 4) * 4`
  let dataOffset := offsetByte.toNat / 16 * 4
  let l7Offset := 14 + l4Offset + dataOffset
  return {
    transport := some (.tcp srcPort dstPort (portName tcpPorts srcPort) (portName tcpPorts dstPort)
      seq ack flags window checksum dataOffset)
    l7Offset
    l7Len := toInt (caplen - UInt32.ofNat l7Offset)
    protocol := protocolOf tcpPorts .unknown srcPort dstPort }

def decodeUDP (packet : Packet) (caplen : UInt32) (l4Offset : Nat) : Decoder Layer4 := do
  let l4 := 14 + l4Offset
  let srcPort ← ntohs packet l4
  let dstPort ← ntohs packet (l4 + 2)
  let len ← ntohs packet (l4 + 4)
  let checksum ← ntohs packet (l4 + 6)
  let l7Offset := 14 + l4Offset + 8
  return {
    transport := some (.udp srcPort dstPort (portName udpPorts srcPort) (portName udpPorts dstPort)
      len checksum)
    l7Offset
    l7Len := toInt (caplen - UInt32.ofNat l7Offset)
    protocol := protocolOf udpPorts .unknown srcPort dstPort }

def decodeTransport (packet : Packet) (caplen : UInt32) (l3 : Layer3) : Decoder Layer4 :=
  if l3.l4Proto = some 6 ∧ 20 ≤ l3.l4Len then decodeTCP packet caplen l3.l4Offset
  else if l3.l4Proto = some 17 ∧ 8 ≤ l3.l4Len then decodeUDP packet caplen l3.l4Offset
  else return ⟨none, 0, 0, .unknown⟩

def printable (byte : UInt8) : Char :=
  if 32 ≤ byte ∧ byte ≤ 126 then Char.ofNat byte.toNat else '.'

def decodeApplication (packet : Packet) (caplen : UInt32) (l4 : Layer4) :
    Decoder (Option Application) :=
  if 0 < l4.l7Len ∧ l4.l7Offset < toInt caplen then do
    let shown := (if 64 < l4.l7Len then 64 else l4.l7Len).toNat
    let hex ← bytesAt packet l4.l7Offset shown
    let ascii ← bytesAt packet l4.l7Offset shown
    return some ⟨l4.protocol, l4.l7Offset, hex, ascii.map printable⟩
  else return none

def processPacket (packet : Packet) (caplen : UInt32) : Decoder Report := do
  let ethernet ← decodeEthernet packet caplen
  let l3 ← decodeNetwork packet caplen ((ethernet.map Ethernet.etherType).getD 0)
  let l4 ← decodeTransport packet caplen l3
  let application ← decodeApplication packet caplen l4
  let firstBytes ← bytesAt packet 0 (if caplen < 16 then caplen.toNat else 16)
  return ⟨ethernet, l3.network, l4.transport, application, firstBytes⟩

-- The protocol by the ports at `l4`, when they were captured.
def summarize (packet : Packet) (caplen : Int) (l4 : Nat) (ports : List (Nat × Protocol))
    (other : Protocol) : Decoder Protocol :=
  if l4 + 4 ≤ caplen then do
    let sport ← ntohs packet l4
    let dport ← ntohs packet (l4 + 2)
    return protocolOf ports other sport dport
  else return other

def summaryTcpPorts : List (Nat × Protocol) := [(80, .http), (443, .https), (53, .dns)]

def summaryUdpPorts : List (Nat × Protocol) := [(53, .dns), (67, .dhcp), (68, .dhcp)]

def summarizeIPv4 (packet : Packet) (caplen : Int) (ports : List (Nat × Protocol)) (other : Protocol) :
    Decoder Protocol := do
  let version ← byteAt packet 14
  summarize packet caplen (14 + version.toNat % 16 * 4) ports other

def getProtocolInfo (packet : Packet) (caplen : Int) : Decoder Protocol :=
  if caplen < 14 then return .unknown
  else do
    let ethType ← ntohs packet 12
    if ethType = ethertypeArp then return .arp
    else if ethType = ethertypeIp ∧ 34 ≤ caplen then do
      let protocol ← byteAt packet (14 + 9)
      if protocol = 6 then summarizeIPv4 packet caplen summaryTcpPorts .tcp
      else if protocol = 17 then summarizeIPv4 packet caplen summaryUdpPorts .udp
      else return .ipv4
    else if ethType = ethertypeIpv6 ∧ 54 ≤ caplen then do
      let nextHeader ← byteAt packet (14 + 6)
      if nextHeader = 6 then summarize packet caplen (14 + 40) summaryTcpPorts .tcp
      else if nextHeader = 17 then summarize packet caplen (14 + 40) summaryUdpPorts .udp
      else return .ipv6
    else return .unknown

-- The two addresses; nothing when both strings stay empty.
def getSrcDstIps (packet : Packet) (caplen : Int) : Decoder (Option (Address × Address)) :=
  if caplen < 14 then return none
  else do
    let ethType ← ntohs packet 12
    if ethType = ethertypeIp ∧ 34 ≤ caplen then do
      let saddr ← bytesAt packet (14 + 12) 4
      let daddr ← bytesAt packet (14 + 16) 4
      return some (.inet saddr, .inet daddr)
    else if ethType = ethertypeIpv6 ∧ 54 ≤ caplen then do
      let src ← bytesAt packet (14 + 8) 16
      let dst ← bytesAt packet (14 + 24) 16
      return some (.inet6 src, .inet6 dst)
    else return none

end SystemsSuite.Sniffer
