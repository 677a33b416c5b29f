import SystemsSuite.Lib.Transition
import SystemsSuite.Lib.Words

set_option autoImplicit false

namespace SystemsSuite.Sham

open Lib

def shamSyn : Nat := 0x1
def shamAck : Nat := 0x2
def shamFin : Nat := 0x4
def shamDataSize : Nat := 1024
def congestionWindowSize : Nat := 10
def maxBufferedPackets : Nat := 50
def receiverBufferSize : Nat := 20480

abbrev Bytes := List UInt8

structure ShamHeader where
  seqNum : Nat
  ackNum : Nat
  flags : Nat
  windowSize : Nat
  deriving DecidableEq, Repr

-- One datagram: a whole header and the payload bytes sent after it.
structure ShamPacket where
  header : ShamHeader
  data : Bytes
  deriving DecidableEq, Repr

def ShamPacket.has (packet : ShamPacket) (flag : Nat) : Bool :=
  packet.header.flags &&& flag != 0

-- Header fields the code leaves unset hold whatever the stack held; `junk` supplies them.
structure Junk where
  seqNum : Nat
  ackNum : Nat
  windowSize : Nat

namespace Client

structure InFlightPacket where
  isValid : Bool
  packet : ShamPacket
  deriving DecidableEq, Repr

inductive Pc
  | start
  | awaitSynAck
  | awaitFilenameAck
  | loopHead
  | sending
  | receiving
  | scanning (i : Nat)
  | finalWait (waitCount : Nat)
  | awaitFinAck (tries : Nat)
  | awaitServerFin (tries : Nat)
  | exited
  deriving DecidableEq, Repr

structure State where
  pc : Pc
  base : Nat
  nextSeqNum : Nat
  fileReadComplete : Bool
  windowBuffer : Nat → InFlightPacket
  serverWindow : Nat
  lastAcked : Nat
  unacknowledgedBytes : Nat
  filePos : Nat

def emptySlot : InFlightPacket := ⟨false, ⟨⟨0, 0, 0, 0⟩, []⟩⟩

def initial (pc : Pc) : State where
  pc := pc
  base := 1
  nextSeqNum := 1
  fileReadComplete := false
  windowBuffer := fun _ => emptySlot
  serverWindow := 65535
  lastAcked := 0
  unacknowledgedBytes := 0
  filePos := 0

-- What the environment decides in one step of the client: the datagram `recvfrom` returns
-- (`none` for an empty socket or a timeout), whether the scanned slot timed out, and unset bytes.
structure Input where
  received : Option ShamPacket
  timedOut : Bool
  junk : Junk

def synPacket (junk : Junk) : ShamPacket :=
  ⟨⟨1000, junk.ackNum, shamSyn, junk.windowSize⟩, []⟩

def handshakeAck (junk : Junk) (synAck : ShamPacket) : ShamPacket :=
  ⟨⟨junk.seqNum, u32 (synAck.header.seqNum + 1), shamAck, junk.windowSize⟩, []⟩

def filenamePacket (junk : Junk) (outputFilename : Bytes) : ShamPacket :=
  ⟨⟨0, junk.ackNum, 0, junk.windowSize⟩, outputFilename ++ [0]⟩

def finPacket (junk : Junk) (c : State) : ShamPacket :=
  ⟨⟨c.nextSeqNum, junk.ackNum, shamFin, junk.windowSize⟩, []⟩

def finalAck (junk : Junk) (ackNum : Nat) : ShamPacket :=
  ⟨⟨junk.seqNum, ackNum, shamAck, junk.windowSize⟩, []⟩

def fread (file : Bytes) (pos : Nat) : Bytes := (file.drop pos).take shamDataSize

def bufferIndex (nextSeqNum : Nat) : Nat :=
  ((nextSeqNum - 1) / shamDataSize) % congestionWindowSize

def mayRead (c : State) : Bool :=
  decide (c.nextSeqNum < u32 (c.base + congestionWindowSize * shamDataSize)) &&
    decide (c.unacknowledgedBytes < c.serverWindow) && !c.fileReadComplete

def segment (nextSeqNum : Nat) (data : Bytes) : ShamPacket := ⟨⟨nextSeqNum, 0, 0, 0⟩, data⟩

def sendRound (file : Bytes) (c : State) : State × List ShamPacket :=
  if mayRead c then
    let data := fread file c.filePos
    if 0 < data.length then
      let packet := segment c.nextSeqNum data
      let next := u32 (c.nextSeqNum + data.length)
      ({ c with
          windowBuffer := Function.update c.windowBuffer (bufferIndex c.nextSeqNum) ⟨true, packet⟩
          nextSeqNum := next
          unacknowledgedBytes := u32 (next + (2 ^ 32 - c.base))
          filePos := c.filePos + data.length }, [packet])
    else ({ c with fileReadComplete := true, pc := .receiving }, [])
  else ({ c with pc := .receiving }, [])

def processAck (c : State) (packet : ShamPacket) : State :=
  if packet.has shamAck ∧ packet.header.ackNum > c.base ∧ packet.header.ackNum > c.lastAcked then
    { c with
      base := packet.header.ackNum
      serverWindow := packet.header.windowSize
      lastAcked := packet.header.ackNum }
  else c

-- One slot of the timeout scan: acknowledged slots are invalidated, late ones sent again.
def scanSlot (c : State) (i : Nat) (timedOut : Bool) : State × List ShamPacket :=
  let slot := c.windowBuffer i
  if slot.isValid && decide (slot.packet.header.seqNum < c.base) then
    ({ c with windowBuffer := Function.update c.windowBuffer i { slot with isValid := false } }, [])
  else if slot.isValid && timedOut then (c, [slot.packet])
  else (c, [])

def loopTest (c : State) : Bool := !c.fileReadComplete || decide (c.base < c.nextSeqNum)

def finalWaitRound (c : State) (waitCount : Nat) (received : Option ShamPacket) : State :=
  match received with
  | some packet =>
    if packet.has shamAck then
      { c with base := if packet.header.ackNum > c.base then packet.header.ackNum else c.base }
    else { c with pc := .finalWait (waitCount + 1) }
  | none => { c with pc := .finalWait (waitCount + 1) }

def step (file outputFilename : Bytes) (c : State) (input : Input) : State × List ShamPacket :=
  match c.pc with
  | .start => ({ c with pc := .awaitSynAck }, [synPacket input.junk])
  | .awaitSynAck =>
    match input.received with
    | none => ({ c with pc := .exited }, [])
    | some synAck =>
      if synAck.has (shamSyn ||| shamAck) ∧ synAck.header.ackNum = 1000 + 1 then
        ({ c with pc := .awaitFilenameAck },
          [handshakeAck input.junk synAck, filenamePacket input.junk outputFilename])
      else ({ c with pc := .exited }, [])
  | .awaitFilenameAck =>
    match input.received with
    | none => ({ c with pc := .exited }, [])
    | some _ => ({ c with pc := .loopHead }, [])
  | .loopHead =>
    if loopTest c then
      ({ c with pc := .sending, unacknowledgedBytes := u32 (c.nextSeqNum + (2 ^ 32 - c.base)) }, [])
    else ({ c with pc := .finalWait 0 }, [])
  | .sending => sendRound file c
  | .receiving =>
    match input.received with
    | some packet => ({ processAck c packet with pc := .scanning 0 }, [])
    | none => ({ c with pc := .scanning 0 }, [])
  | .scanning i =>
    if i < congestionWindowSize then
      let (c', sent) := scanSlot c i input.timedOut
      ({ c' with pc := .scanning (i + 1) }, sent)
    else ({ c with pc := .loopHead }, [])
  | .finalWait waitCount =>
    if c.base < c.nextSeqNum ∧ waitCount < 5000 then (finalWaitRound c waitCount input.received, [])
    else ({ c with pc := .awaitFinAck 0 }, [finPacket input.junk c])
  | .awaitFinAck tries =>
    if tries < 10 then
      if (input.received.map (·.has shamAck)).getD false then ({ c with pc := .awaitServerFin 0 }, [])
      else ({ c with pc := .awaitFinAck (tries + 1) }, [])
    else ({ c with pc := .awaitServerFin 0 }, [])
  | .awaitServerFin tries =>
    if tries < 10 then
      match input.received with
      | some packet =>
        if packet.has shamFin then
          ({ c with pc := .exited }, [finalAck input.junk (u32 (packet.header.seqNum + 1))])
        else ({ c with pc := .awaitServerFin (tries + 1) }, [])
      | none => ({ c with pc := .awaitServerFin (tries + 1) }, [])
    else ({ c with pc := .exited }, [finalAck input.junk 9001])
  | .exited => (c, [])

end Client

namespace Server

structure BufferedPacket where
  isValid : Bool
  packet : ShamPacket
  deriving DecidableEq, Repr

inductive Pc
  | listen
  | awaitAck
  | awaitFilename
  | receiving
  | sendFinAck (clientFinSeq : Nat)
  | sendFin
  | awaitFinalAck (tries : Nat)
  | exited
  deriving DecidableEq, Repr

structure State where
  pc : Pc
  expectedSeqNum : Nat
  packetBuffer : List BufferedPacket
  bytesInBuffer : Nat
  output : Bytes

def emptySlot : BufferedPacket := ⟨false, ⟨⟨0, 0, 0, 0⟩, []⟩⟩

def initial (pc : Pc) : State where
  pc := pc
  expectedSeqNum := 1
  packetBuffer := List.replicate maxBufferedPackets emptySlot
  bytesInBuffer := 0
  output := []

-- The environment's part of one server step: the datagram received (`none` is a receive
-- timeout), the draw of the simulated loss, and unset bytes.
structure Input where
  received : Option ShamPacket
  drop : Bool
  junk : Junk

abbrev sizeT (n : Nat) : Nat := n % 2 ^ 64

-- `fwrite` of one in-order payload.
def deliver (s : State) (data : Bytes) : State :=
  { s with
    output := s.output ++ data
    expectedSeqNum := u32 (s.expectedSeqNum + data.length) }

def nextBuffered (s : State) : Option Nat :=
  s.packetBuffer.findIdx? fun slot =>
    slot.isValid && decide (slot.packet.header.seqNum = s.expectedSeqNum)

def slotAt (s : State) (i : Nat) : BufferedPacket := s.packetBuffer.getD i emptySlot

-- One round of the drain loop at slot `i`.
def drainSlot (s : State) (i : Nat) : State :=
  let slot := slotAt s i
  let s' := deliver s slot.packet.data
  { s' with
    bytesInBuffer := sizeT (s.bytesInBuffer + (2 ^ 64 - slot.packet.data.length))
    packetBuffer := s.packetBuffer.set i { slot with isValid := false } }

def drain : Nat → State → State
  | 0, s => s
  | fuel + 1, s =>
    match nextBuffered s with
    | some i => drain fuel (drainSlot s i)
    | none => s

def freeSlot (s : State) : Option Nat := s.packetBuffer.findIdx? fun slot => !slot.isValid

-- The out-of-order branch: the counter grows even when the buffer is full.
def store (s : State) (packet : ShamPacket) : State :=
  let s' := { s with bytesInBuffer := sizeT (s.bytesInBuffer + packet.data.length) }
  match freeSlot s with
  | some i => { s' with packetBuffer := s.packetBuffer.set i ⟨true, packet⟩ }
  | none => s'

def processData (s : State) (packet : ShamPacket) : State :=
  if packet.header.seqNum = s.expectedSeqNum then
    drain (s.packetBuffer.length + 1) (deliver s packet.data)
  else if packet.header.seqNum > s.expectedSeqNum then store s packet
  else s

def advertisedWindow (s : State) : Nat :=
  if receiverBufferSize > s.bytesInBuffer then receiverBufferSize - s.bytesInBuffer else 0

def ackPacket (junk : Junk) (s : State) : ShamPacket :=
  ⟨⟨junk.seqNum, s.expectedSeqNum, shamAck, advertisedWindow s⟩, []⟩

def synAckPacket (junk : Junk) (syn : ShamPacket) : ShamPacket :=
  ⟨⟨5000, u32 (syn.header.seqNum + 1), shamSyn ||| shamAck, junk.windowSize⟩, []⟩

def filenameAck (junk : Junk) : ShamPacket := ⟨⟨junk.seqNum, 1, shamAck, junk.windowSize⟩, []⟩

def finAck (junk : Junk) (clientFinSeq : Nat) : ShamPacket :=
  ⟨⟨junk.seqNum, u32 (clientFinSeq + 1), shamAck, junk.windowSize⟩, []⟩

def serverFin (junk : Junk) : ShamPacket := ⟨⟨9000, junk.ackNum, shamFin, junk.windowSize⟩, []⟩

-- One pass of the receive loop over a received datagram.
def receiveRound (s : State) (packet : ShamPacket) (drop : Bool) (junk : Junk) :
    State × List ShamPacket :=
  if packet.has shamFin then ({ s with pc := .sendFinAck packet.header.seqNum }, [])
  else if drop then (s, [])
  else
    let s' := processData s packet
    (s', [ackPacket junk s'])

def step (s : State) (input : Input) : State × List ShamPacket :=
  match s.pc, input.received with
  | .listen, some packet =>
    if packet.has shamSyn then ({ s with pc := .awaitAck }, [synAckPacket input.junk packet])
    else ({ s with pc := .exited }, [])
  | .awaitAck, some packet =>
    if packet.has shamAck ∧ packet.header.ackNum = 5001 then ({ s with pc := .awaitFilename }, [])
    else ({ s with pc := .exited }, [])
  | .awaitFilename, some packet =>
    if packet.header.seqNum = 0 then ({ s with pc := .receiving }, [filenameAck input.junk])
    else ({ s with pc := .receiving }, [])
  | .awaitFilename, none => ({ s with pc := .receiving }, [])
  | .receiving, some packet => receiveRound s packet input.drop input.junk
  | .sendFinAck clientFinSeq, _ => ({ s with pc := .sendFin }, [finAck input.junk clientFinSeq])
  | .sendFin, _ => ({ s with pc := .awaitFinalAck 0 }, [serverFin input.junk])
  | .awaitFinalAck tries, received =>
    if tries < 10 then
      match received with
      | some packet =>
        if packet.has shamAck ∧ packet.header.ackNum = 9000 + 1 then ({ s with pc := .exited }, [])
        else ({ s with pc := .awaitFinalAck (tries + 1) }, [])
      | none => ({ s with pc := .awaitFinalAck (tries + 1) }, [])
    else ({ s with pc := .exited }, [])
  | .exited, _ => (s, [])
  -- The receive timeout set for the filename stays on the socket, so silence kills the server.
  | _, none => ({ s with pc := .exited }, [])

def State.LeftOnFin (s : State) : Prop :=
  match s.pc with
  | .sendFinAck _ | .sendFin | .awaitFinalAck _ => True
  | _ => False

end Server

-- Both ends and every datagram ever sent; delivering any of them at any time, again or never, covers delay,
-- reordering, duplication and loss.
structure Net where
  client : Client.State
  server : Server.State
  toServer : List ShamPacket
  toClient : List ShamPacket

inductive Label
  | client (input : Client.Input)
  | server (input : Server.Input)

namespace Net

variable (file outputFilename : Bytes)

def clientStep (n : Net) (input : Client.Input) : Net :=
  let (client, sent) := Client.step file outputFilename n.client input
  { n with client := client, toServer := sent ++ n.toServer }

def serverStep (n : Net) (input : Server.Input) : Net :=
  let (server, sent) := Server.step n.server input
  { n with server := server, toClient := sent ++ n.toClient }

-- One step of either end; a datagram can be received only if it was sent before.
def next (n : Net) : Label → Option Net
  | .client input =>
    if ∀ packet ∈ input.received, packet ∈ n.toClient then some (clientStep file outputFilename n input)
    else none
  | .server input =>
    if ∀ packet ∈ input.received, packet ∈ n.toServer then some (serverStep n input) else none

theorem next_client {file outputFilename : Bytes} {n m : Net} {input : Client.Input}
    (taken : next file outputFilename n (.client input) = some m) :
    (∀ packet ∈ input.received, packet ∈ n.toClient) ∧ m = clientStep file outputFilename n input := by
  obtain ⟨delivered, same⟩ := Option.ite_none_right_eq_some.mp taken
  exact ⟨delivered, (Option.some.inj same).symm⟩

theorem next_server {file outputFilename : Bytes} {n m : Net} {input : Server.Input}
    (taken : next file outputFilename n (.server input) = some m) :
    (∀ packet ∈ input.received, packet ∈ n.toServer) ∧ m = serverStep n input := by
  obtain ⟨delivered, same⟩ := Option.ite_none_right_eq_some.mp taken
  exact ⟨delivered, (Option.some.inj same).symm⟩

def atTransfer : Net := ⟨Client.initial .loopHead, Server.initial .receiving, [], []⟩

def atHandshake : Net := ⟨Client.initial .start, Server.initial .listen, [], []⟩

-- The transfer loops alone, started over an empty network.
def transfer : Lib.System Net Label := .ofNext (· = atTransfer) (next file outputFilename)

def connection : Lib.System Net Label := .ofNext (· = atHandshake) (next file outputFilename)

end Net

end SystemsSuite.Sham
