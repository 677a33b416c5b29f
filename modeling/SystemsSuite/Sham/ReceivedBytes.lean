import SystemsSuite.Lib.Logged
import SystemsSuite.Sham.Protocol

set_option autoImplicit false

namespace SystemsSuite.Sham

open Lib

def headerSize : Nat := 12

-- How a round uses a payload size, given the payload bytes that the datagram brought, and which byte of
-- a header it tests, given the bytes that it brought.
inductive Use
  | size (bytes received : Nat)
  | header (byte received : Nat)
  deriving DecidableEq, Repr

def Use.Sound : Use → Prop
  | .size bytes received => bytes ≤ shamDataSize ∧ bytes ≤ received
  | .header byte received => byte < received

-- The bytes at and after a `struct sham_packet`.
abbrev RawPacket := Nat → UInt8

def littleEndian (bytes : List UInt8) : Nat := bytes.foldr (fun byte n => byte.toNat + 256 * n) 0

def fieldOf (packet : RawPacket) (offset n : Nat) : Nat :=
  littleEndian ((List.range' offset n).map packet)

def seqNumOf (packet : RawPacket) : Nat := fieldOf packet 0 4
def flagsOf (packet : RawPacket) : Nat := fieldOf packet 8 2

def headerOf (packet : RawPacket) : ShamHeader :=
  ⟨seqNumOf packet, fieldOf packet 4 4, flagsOf packet, fieldOf packet 10 2⟩

def dataOf (packet : RawPacket) (size : Nat) : Bytes := (List.range' headerSize size).map packet

namespace Server.Raw

open Server (sizeT)

structure BufferedPacket where
  isValid : Bool
  packet : RawPacket
  packetSize : Nat

structure State where
  packet : RawPacket
  expectedSeqNum : Nat
  packetBuffer : List BufferedPacket
  bytesInBuffer : Nat
  output : Bytes
  clientFinSeq : Option Nat

def emptySlot : BufferedPacket := ⟨false, fun _ => 0, 0⟩

-- `packet` holds what the last datagram before the loop left in it.
def initial (packet : RawPacket) : State where
  packet
  expectedSeqNum := 1
  packetBuffer := List.replicate maxBufferedPackets emptySlot
  bytesInBuffer := 0
  output := []
  clientFinSeq := none

-- A datagram, which `recvfrom` cuts to the size of the packet, and the draw of the simulated loss.
structure Arrival where
  datagram : Bytes
  drop : Bool
  fits : datagram.length ≤ headerSize + shamDataSize

-- `recvfrom` writes the bytes of the datagram and leaves the others.
def recvfrom (packet : RawPacket) (datagram : Bytes) : RawPacket :=
  fun i => datagram.getD i (packet i)

-- `bytes_received - sizeof(struct sham_header)` as a `size_t`
def payloadSize (bytesReceived : Nat) : Nat :=
  (UInt64.ofNat bytesReceived - UInt64.ofNat headerSize).toNat

-- A use of the payload size of a datagram of so many bytes.
def useSize (bytesReceived : Nat) : Logged Use Nat := do
  Logged.event (.size (payloadSize bytesReceived) (bytesReceived - headerSize))
  return payloadSize bytesReceived

def testField (packet : RawPacket) (bytesReceived offset n : Nat) : Logged Use Nat :=
  ⟨fieldOf packet offset n, (List.range' offset n).map (.header · bytesReceived)⟩

def deliver (s : State) (packet : RawPacket) (bytesReceived : Nat) : Logged Use State := do
  let written ← useSize bytesReceived
  let advanced ← useSize bytesReceived
  return { s with
    output := s.output ++ dataOf packet written
    expectedSeqNum := u32 (s.expectedSeqNum + advanced) }

def nextBuffered (expectedSeqNum : Nat) : List BufferedPacket → Logged Use (Option Nat)
  | [] => return none
  | slot :: rest =>
    if slot.isValid then do
      let seqNum ← testField slot.packet slot.packetSize 0 4
      if seqNum = expectedSeqNum then return some 0
      else do
        let found ← nextBuffered expectedSeqNum rest
        return found.map (· + 1)
    else do
      let found ← nextBuffered expectedSeqNum rest
      return found.map (· + 1)

def drainSlot (s : State) (i : Nat) : Logged Use State := do
  let slot := s.packetBuffer.getD i emptySlot
  let s' ← deliver s slot.packet slot.packetSize
  let left ← useSize slot.packetSize
  return { s' with
    bytesInBuffer := sizeT (s.bytesInBuffer + (2 ^ 64 - left))
    packetBuffer := s.packetBuffer.set i { slot with isValid := false } }

def drain : Nat → State → Logged Use State
  | 0, s => return s
  | fuel + 1, s => do
    let found ← nextBuffered s.expectedSeqNum s.packetBuffer
    match found with
    | some i => do
      let s' ← drainSlot s i
      drain fuel s'
    | none => return s

def store (s : State) (bytesReceived : Nat) : Logged Use State := do
  let counted ← useSize bytesReceived
  let s' := { s with bytesInBuffer := sizeT (s.bytesInBuffer + counted) }
  match s.packetBuffer.findIdx? fun slot => !slot.isValid with
  | some i => do
    let _ ← useSize bytesReceived
    return { s' with packetBuffer := s.packetBuffer.set i ⟨true, s.packet, bytesReceived⟩ }
  | none => return s'

def processData (s : State) (bytesReceived : Nat) : Logged Use State := do
  let seqNum ← testField s.packet bytesReceived 0 4
  if seqNum = s.expectedSeqNum then do
    let s' ← deliver s s.packet bytesReceived
    drain (s.packetBuffer.length + 1) s'
  else if seqNum > s.expectedSeqNum then store s bytesReceived
  else return s

def finish (s : State) (bytesReceived : Nat) : Logged Use State := do
  let seqNum ← testField s.packet bytesReceived 0 4
  return { s with clientFinSeq := some seqNum }

def receiveRound (s : State) (arrival : Arrival) : Logged Use State := do
  let n := arrival.datagram.length
  let s' := { s with packet := recvfrom s.packet arrival.datagram }
  let flags ← testField s'.packet n 8 2
  if flags &&& shamFin ≠ 0 then finish s' n
  else if arrival.drop then return s'
  else processData s' n

def receiveLoop : State → List Arrival → Logged Use State
  | s, [] => return s
  | s, arrival :: rest => do
    let s' ← receiveRound s arrival
    if s'.clientFinSeq.isSome then return s' else receiveLoop s' rest

@[simp] theorem testField_value (packet : RawPacket) (received offset n : Nat) :
    (testField packet received offset n).value = fieldOf packet offset n := rfl

theorem testField_within (packet : RawPacket) (received offset : Nat) {n : Nat} (some : 0 < n) :
    (testField packet received offset n).Within Use.Sound ↔ offset + n ≤ received := by
  simp only [Logged.Within, testField, List.forall_mem_map, List.mem_range'_1, Use.Sound]
  constructor
  · intro inside
    have last := inside (offset + n - 1) (by omega)
    omega
  · intro whole byte here
    omega

theorem payloadSize_whole {n : Nat} (whole : headerSize ≤ n) (fits : n ≤ headerSize + shamDataSize) :
    payloadSize n = n - headerSize := by
  have header : headerSize = 12 := rfl
  have data : shamDataSize = 1024 := rfl
  rw [payloadSize, header, UInt64.toNat_sub, UInt64.toNat_ofNat', UInt64.toNat_ofNat']
  omega

theorem payloadSize_short {n : Nat} (short : n < headerSize) : shamDataSize < payloadSize n := by
  have header : headerSize = 12 := rfl
  have data : shamDataSize = 1024 := rfl
  rw [payloadSize, header, UInt64.toNat_sub, UInt64.toNat_ofNat', UInt64.toNat_ofNat']
  omega

@[simp] theorem useSize_value (n : Nat) : (useSize n).value = payloadSize n := rfl

theorem useSize_within {n : Nat} (fits : n ≤ headerSize + shamDataSize) :
    (useSize n).Within Use.Sound ↔ headerSize ≤ n := by
  simp only [useSize, Logged.within_bind, Logged.within_event, Logged.within_pure, and_true, Use.Sound]
  constructor
  · intro sound
    by_contra short
    have large := payloadSize_short (Nat.lt_of_not_le short)
    omega
  · intro whole
    have same := payloadSize_whole whole fits
    omega

def Sized (packetBuffer : List BufferedPacket) : Prop :=
  ∀ slot ∈ packetBuffer, slot.isValid = true →
    headerSize ≤ slot.packetSize ∧ slot.packetSize ≤ headerSize + shamDataSize

theorem Sized.set {packetBuffer : List BufferedPacket} (sized : Sized packetBuffer) (i : Nat)
    {slot : BufferedPacket} (whole : slot.isValid = true →
      headerSize ≤ slot.packetSize ∧ slot.packetSize ≤ headerSize + shamDataSize) :
    Sized (packetBuffer.set i slot) := by
  intro other here valid
  rcases List.mem_or_eq_of_mem_set here with old | rfl
  · exact sized other old valid
  · exact whole valid

theorem deliver_within (s : State) (packet : RawPacket) {n : Nat}
    (fits : n ≤ headerSize + shamDataSize) :
    (deliver s packet n).Within Use.Sound ↔ headerSize ≤ n := by
  simp only [deliver, Logged.within_bind, Logged.within_pure, useSize_within fits, and_true, and_self]

@[simp] theorem deliver_packetBuffer (s : State) (packet : RawPacket) (n : Nat) :
    (deliver s packet n).value.packetBuffer = s.packetBuffer := rfl

theorem nextBuffered_within (expectedSeqNum : Nat) {packetBuffer : List BufferedPacket}
    (sized : Sized packetBuffer) :
    (nextBuffered expectedSeqNum packetBuffer).Within Use.Sound := by
  induction packetBuffer with
  | nil => exact (Logged.within_pure _).mpr trivial
  | cons slot rest ih =>
    have later := ih fun other here => sized other (List.mem_cons_of_mem _ here)
    simp only [nextBuffered, Logged.within_ite, Logged.within_bind, Logged.within_pure, later,
      testField_within _ _ _ (by decide : 0 < 4), implies_true, and_true]
    intro valid
    have whole := (sized slot List.mem_cons_self valid).1
    have header : headerSize = 12 := rfl
    omega

theorem nextBuffered_value (expectedSeqNum : Nat) (packetBuffer : List BufferedPacket) :
    (nextBuffered expectedSeqNum packetBuffer).value =
      packetBuffer.findIdx? fun slot =>
        slot.isValid && decide (seqNumOf slot.packet = expectedSeqNum) := by
  induction packetBuffer with
  | nil => rfl
  | cons slot rest ih =>
    rw [List.findIdx?_cons, ← ih, seqNumOf]
    cases valid : slot.isValid with
    | false => simp [nextBuffered, valid]
    | true =>
      by_cases next : fieldOf slot.packet 0 4 = expectedSeqNum
      · simp [nextBuffered, valid, next]
      · simp [nextBuffered, valid, next]

theorem nextBuffered_valid {expectedSeqNum i : Nat} {packetBuffer : List BufferedPacket}
    (found : (nextBuffered expectedSeqNum packetBuffer).value = some i) :
    packetBuffer.getD i emptySlot ∈ packetBuffer ∧ (packetBuffer.getD i emptySlot).isValid = true := by
  rw [nextBuffered_value] at found
  obtain ⟨inside, matching, _⟩ := List.findIdx?_eq_some_iff_getElem.mp found
  rw [List.getD_eq_getElem _ _ inside]
  exact ⟨List.getElem_mem inside, (Bool.and_eq_true_iff.mp matching).1⟩

theorem drain_sound (fuel : Nat) {s : State} (sized : Sized s.packetBuffer) :
    (drain fuel s).Within Use.Sound ∧ Sized (drain fuel s).value.packetBuffer := by
  induction fuel generalizing s with
  | zero => exact ⟨(Logged.within_pure _).mpr trivial, sized⟩
  | succ fuel ih =>
    have scanned := nextBuffered_within s.expectedSeqNum sized
    simp only [drain, Logged.within_bind, Logged.value_bind, scanned, true_and]
    cases found : (nextBuffered s.expectedSeqNum s.packetBuffer).value with
    | none => exact ⟨(Logged.within_pure _).mpr trivial, sized⟩
    | some i =>
      obtain ⟨inside, valid⟩ := nextBuffered_valid found
      obtain ⟨whole, fits⟩ := sized _ inside valid
      have kept : Sized (drainSlot s i).value.packetBuffer := by
        refine sized.set i fun still => ?_
        contradiction
      have used : (drainSlot s i).Within Use.Sound := by
        simp only [drainSlot, Logged.within_bind, Logged.within_pure, deliver_within _ _ fits,
          useSize_within fits, whole, and_self]
      simp only [Logged.within_bind, Logged.value_bind, used, true_and]
      exact ih kept

theorem store_within (s : State) {n : Nat} (fits : n ≤ headerSize + shamDataSize) :
    (store s n).Within Use.Sound ↔ headerSize ≤ n := by
  simp only [store, Logged.within_bind, useSize_within fits]
  cases s.packetBuffer.findIdx? fun slot => !slot.isValid with
  | none => simp only [Logged.within_pure, and_true]
  | some i =>
    simp only [Logged.within_bind, Logged.within_pure, useSize_within fits, and_true, and_self]

theorem store_sized {s : State} {n : Nat} (sized : Sized s.packetBuffer)
    (whole : headerSize ≤ n) (fits : n ≤ headerSize + shamDataSize) :
    Sized (store s n).value.packetBuffer := by
  simp only [store, Logged.value_bind]
  cases s.packetBuffer.findIdx? fun slot => !slot.isValid with
  | none => exact sized
  | some i => exact sized.set i fun _ => ⟨whole, fits⟩

def bytesOf (datagram : Bytes) : RawPacket := fun i => datagram.getD i 0

-- The datagram has a whole header; or its flags at least, and the round stops at them or at its number.
def Harmless (s : State) (arrival : Arrival) : Prop :=
  headerSize ≤ arrival.datagram.length ∨
    (10 ≤ arrival.datagram.length ∧
      (flagsOf (bytesOf arrival.datagram) &&& shamFin ≠ 0 ∨ arrival.drop = true ∨
        seqNumOf (bytesOf arrival.datagram) < s.expectedSeqNum))

theorem fieldOf_recvfrom (packet : RawPacket) {datagram : Bytes} (offset n : Nat)
    (inside : offset + n ≤ datagram.length) :
    fieldOf (recvfrom packet datagram) offset n = fieldOf (bytesOf datagram) offset n := by
  rw [fieldOf, fieldOf]
  congr 1
  refine List.map_congr_left fun i here => ?_
  have before := (List.mem_range'_1.mp here).2
  rw [recvfrom, bytesOf, List.getD_eq_getElem _ _ (by omega), List.getD_eq_getElem _ _ (by omega)]

theorem finish_within (s : State) (n : Nat) : (finish s n).Within Use.Sound ↔ 4 ≤ n := by
  simp only [finish, Logged.within_bind, Logged.within_pure, and_true,
    testField_within _ _ _ (by decide : 0 < 4), Nat.zero_add]

theorem processData_sound {s : State} (sized : Sized s.packetBuffer) {n : Nat} (four : 4 ≤ n)
    (fits : n ≤ headerSize + shamDataSize) :
    ((processData s n).Within Use.Sound ↔ headerSize ≤ n ∨ seqNumOf s.packet < s.expectedSeqNum) ∧
      (headerSize ≤ n ∨ seqNumOf s.packet < s.expectedSeqNum →
        Sized (processData s n).value.packetBuffer) := by
  have same : (testField s.packet n 0 4).value = seqNumOf s.packet := rfl
  simp only [processData, Logged.within_bind, Logged.value_bind,
    testField_within _ _ _ (by decide : 0 < 4), Nat.zero_add, four, true_and]
  rcases lt_trichotomy (seqNumOf s.packet) s.expectedSeqNum with past | next | future
  · rw [if_neg (by omega), if_neg (by omega)]
    exact ⟨iff_of_true ((Logged.within_pure _).mpr trivial) (.inr past), fun _ => sized⟩
  · rw [if_pos (same.trans next)]
    have drained := drain_sound (s.packetBuffer.length + 1) (s := (deliver s s.packet n).value) sized
    simp only [Logged.within_bind, Logged.value_bind, deliver_within s s.packet fits]
    refine ⟨⟨fun whole => .inl whole.1, fun whole => ⟨?_, drained.1⟩⟩, fun _ => drained.2⟩
    exact whole.resolve_right (by omega)
  · rw [if_neg (by omega), if_pos (by omega), store_within s fits]
    have only : headerSize ≤ n ∨ seqNumOf s.packet < s.expectedSeqNum ↔ headerSize ≤ n :=
      or_iff_left (by omega)
    rw [only]
    exact ⟨Iff.rfl, fun whole => store_sized sized whole fits⟩

theorem receiveRound_sound {s : State} (sized : Sized s.packetBuffer) (arrival : Arrival) :
    ((receiveRound s arrival).Within Use.Sound ↔ Harmless s arrival) ∧
      (Harmless s arrival → Sized (receiveRound s arrival).value.packetBuffer) := by
  have header : headerSize = 12 := rfl
  have fits := arrival.fits
  let n := arrival.datagram.length
  let s' := { s with packet := recvfrom s.packet arrival.datagram }
  simp only [receiveRound, Harmless, Logged.within_bind, Logged.value_bind,
    testField_within _ _ _ (by decide : 0 < 2)]
  by_cases tested : 10 ≤ n
  · have flags : (testField s'.packet n 8 2).value = flagsOf (bytesOf arrival.datagram) :=
      fieldOf_recvfrom s.packet 8 2 tested
    have seqNum : seqNumOf s'.packet = seqNumOf (bytesOf arrival.datagram) :=
      fieldOf_recvfrom s.packet 0 4 (by omega)
    by_cases fin : flagsOf (bytesOf arrival.datagram) &&& shamFin ≠ 0
    · rw [if_pos (by rwa [flags])]
      exact ⟨iff_of_true ⟨tested, (finish_within s' n).mpr (by omega)⟩ (.inr ⟨tested, .inl fin⟩),
        fun _ => sized⟩
    · rw [if_neg (by rwa [flags])]
      by_cases dropped : arrival.drop = true
      · rw [if_pos dropped]
        exact ⟨iff_of_true ⟨tested, (Logged.within_pure _).mpr trivial⟩ (.inr ⟨tested, .inr (.inl dropped)⟩),
          fun _ => sized⟩
      · rw [if_neg dropped]
        obtain ⟨within, kept⟩ := processData_sound (s := s') sized (by omega : 4 ≤ n) fits
        rw [seqNum] at within kept
        have only : (headerSize ≤ n ∨ (10 ≤ n ∧ (flagsOf (bytesOf arrival.datagram) &&& shamFin ≠ 0 ∨
              arrival.drop = true ∨ seqNumOf (bytesOf arrival.datagram) < s.expectedSeqNum))) ↔
            headerSize ≤ n ∨ seqNumOf (bytesOf arrival.datagram) < s.expectedSeqNum := by
          simp only [tested, fin, dropped, true_and, false_or, Bool.false_eq_true]
        exact ⟨(and_iff_right tested).trans (within.trans only.symm), fun harmless => kept (only.mp harmless)⟩
  · have short : ¬ headerSize ≤ n := by omega
    have harmful : ¬ (headerSize ≤ n ∨ (10 ≤ n ∧ (flagsOf (bytesOf arrival.datagram) &&& shamFin ≠ 0 ∨
        arrival.drop = true ∨ seqNumOf (bytesOf arrival.datagram) < s.expectedSeqNum))) :=
      not_or.mpr ⟨short, fun long => tested long.1⟩
    exact ⟨iff_of_false (fun within => tested within.1) harmful, fun harmless => absurd harmless harmful⟩

-- Every datagram of the loop is harmless in the state that it meets.
def AllHarmless : State → List Arrival → Prop
  | _, [] => True
  | s, arrival :: rest => Harmless s arrival ∧
      ((receiveRound s arrival).value.clientFinSeq = none →
        AllHarmless (receiveRound s arrival).value rest)

theorem receiveLoop_sound {s : State} (sized : Sized s.packetBuffer) (arrivals : List Arrival) :
    (receiveLoop s arrivals).Within Use.Sound ↔ AllHarmless s arrivals := by
  induction arrivals generalizing s with
  | nil => exact iff_of_true ((Logged.within_pure _).mpr trivial) trivial
  | cons arrival rest ih =>
    obtain ⟨within, kept⟩ := receiveRound_sound sized arrival
    simp only [receiveLoop, AllHarmless, Logged.within_bind, within]
    refine and_congr_right fun harmless => ?_
    cases left : (receiveRound s arrival).value.clientFinSeq with
    | none =>
      rw [if_neg (by rw [Option.isSome_none]; exact Bool.false_ne_true), ih (kept harmless)]
      exact ⟨fun all _ => all, fun all => all rfl⟩
    | some seqNum =>
      rw [if_pos Option.isSome_some]
      exact iff_of_true ((Logged.within_pure _).mpr trivial) fun still => by contradiction

theorem initial_sized (packet : RawPacket) : Sized (initial packet).packetBuffer := by
  intro slot here valid
  obtain rfl := List.eq_of_mem_replicate here
  contradiction

-- Whatever the handshake left in `packet`, and whatever arrives.
theorem payload_sizes_sound (packet : RawPacket) (arrivals : List Arrival) :
    (receiveLoop (initial packet) arrivals).Within Use.Sound ↔ AllHarmless (initial packet) arrivals :=
  receiveLoop_sound (initial_sized packet) arrivals

-- An empty datagram, while the packet of the handshake still has the number that is expected.
theorem empty_datagram_wraps : ¬ ∀ packet arrivals,
    (receiveLoop (initial packet) arrivals).Within Use.Sound := by
  intro sound
  let packet : RawPacket := fun i => if i = 0 then 1 else 0
  have used : Use.size (payloadSize 0) 0 ∈
      (receiveLoop (initial packet) [⟨[], false, by decide⟩]).log := by decide +kernel
  have bounded := (sound packet _ _ used).1
  exact absurd bounded (Nat.not_le.mpr (payloadSize_short (by decide)))

def packetOf (packet : RawPacket) (size : Nat) : ShamPacket :=
  ⟨headerOf packet, dataOf packet (size - headerSize)⟩

def parse (datagram : Bytes) : ShamPacket := ⟨headerOf (bytesOf datagram), datagram.drop headerSize⟩

def BufferedPacket.parsed (slot : BufferedPacket) : Server.BufferedPacket :=
  ⟨slot.isValid, packetOf slot.packet slot.packetSize⟩

-- The state of the loop, as the model of the protocol has it.
def State.parsed (s : State) : Server.State where
  pc := (s.clientFinSeq.map Server.Pc.sendFinAck).getD .receiving
  expectedSeqNum := s.expectedSeqNum
  packetBuffer := s.packetBuffer.map BufferedPacket.parsed
  bytesInBuffer := s.bytesInBuffer
  output := s.output

theorem dataOf_length (packet : RawPacket) (size : Nat) : (dataOf packet size).length = size := by
  simp [dataOf]

theorem packetOf_recvfrom (packet : RawPacket) {datagram : Bytes} (whole : headerSize ≤ datagram.length) :
    packetOf (recvfrom packet datagram) datagram.length = parse datagram := by
  have header : headerSize = 12 := rfl
  have field (offset n : Nat) (inside : offset + n ≤ 12) :
      fieldOf (recvfrom packet datagram) offset n = fieldOf (bytesOf datagram) offset n :=
    fieldOf_recvfrom packet offset n (by omega)
  have fields : headerOf (recvfrom packet datagram) = headerOf (bytesOf datagram) := by
    simp only [headerOf, seqNumOf, flagsOf, field 0 4 (by omega), field 4 4 (by omega),
      field 8 2 (by omega), field 10 2 (by omega)]
  have data : dataOf (recvfrom packet datagram) (datagram.length - headerSize)
      = datagram.drop headerSize := by
    refine List.ext_getElem (by rw [dataOf_length, List.length_drop]) fun i before _ => ?_
    rw [dataOf_length] at before
    simp only [dataOf, List.getElem_map, List.getElem_range', recvfrom, List.getElem_drop, one_mul]
    exact List.getD_eq_getElem _ _ (by omega)
  rw [packetOf, parse, fields, data]

theorem deliver_parsed (s : State) (packet : RawPacket) {n : Nat} (whole : headerSize ≤ n)
    (fits : n ≤ headerSize + shamDataSize) :
    (deliver s packet n).value.parsed = Server.deliver s.parsed (packetOf packet n).data := by
  simp only [deliver, Logged.value_bind, Logged.value_pure, useSize_value,
    payloadSize_whole whole fits, Server.deliver, State.parsed, packetOf, dataOf_length]

theorem nextBuffered_parsed (s : State) : Server.nextBuffered s.parsed =
    (nextBuffered s.expectedSeqNum s.packetBuffer).value := by
  rw [nextBuffered_value, Server.nextBuffered, State.parsed, List.findIdx?_map]
  rfl

theorem slotAt_parsed (s : State) (i : Nat) :
    Server.slotAt s.parsed i = (s.packetBuffer.getD i emptySlot).parsed := by
  rw [Server.slotAt, State.parsed, show Server.emptySlot = emptySlot.parsed from rfl, List.getD_map]

theorem drainSlot_parsed {s : State} {i : Nat} (sized : Sized s.packetBuffer)
    (found : (nextBuffered s.expectedSeqNum s.packetBuffer).value = some i) :
    (drainSlot s i).value.parsed = Server.drainSlot s.parsed i := by
  obtain ⟨inside, valid⟩ := nextBuffered_valid found
  obtain ⟨whole, fits⟩ := sized _ inside valid
  have delivered := deliver_parsed s (s.packetBuffer.getD i emptySlot).packet whole fits
  have same := slotAt_parsed s i
  simp only [Server.drainSlot, same, BufferedPacket.parsed, ← delivered]
  simp only [drainSlot, Logged.value_bind, Logged.value_pure, State.parsed, useSize_value,
    payloadSize_whole whole fits, packetOf, dataOf_length, List.map_set]
  rfl

theorem drain_parsed (fuel : Nat) {s : State} (sized : Sized s.packetBuffer) :
    (drain fuel s).value.parsed = Server.drain fuel s.parsed := by
  induction fuel generalizing s with
  | zero => rfl
  | succ fuel ih =>
    simp only [drain, Server.drain, Logged.value_bind, nextBuffered_parsed]
    cases found : (nextBuffered s.expectedSeqNum s.packetBuffer).value with
    | none => rfl
    | some i =>
      have kept : Sized (drainSlot s i).value.packetBuffer := by
        refine sized.set i fun still => ?_
        contradiction
      simp only [Logged.value_bind, ← drainSlot_parsed sized found, ih kept]

theorem store_parsed (s : State) {n : Nat} (whole : headerSize ≤ n)
    (fits : n ≤ headerSize + shamDataSize) :
    (store s n).value.parsed = Server.store s.parsed (packetOf s.packet n) := by
  have free : Server.freeSlot s.parsed = s.packetBuffer.findIdx? fun slot => !slot.isValid := by
    rw [Server.freeSlot, State.parsed, List.findIdx?_map]
    rfl
  simp only [store, Server.store, free, Logged.value_bind, useSize_value, payloadSize_whole whole fits]
  cases s.packetBuffer.findIdx? fun slot => !slot.isValid with
  | none => simp only [Logged.value_pure, State.parsed, packetOf, dataOf_length]
  | some i =>
    simp only [Logged.value_bind, Logged.value_pure, State.parsed, packetOf, dataOf_length, List.map_set]
    rfl

theorem processData_parsed {s : State} (sized : Sized s.packetBuffer) {n : Nat} (whole : headerSize ≤ n)
    (fits : n ≤ headerSize + shamDataSize) :
    (processData s n).value.parsed = Server.processData s.parsed (packetOf s.packet n) := by
  have number : (testField s.packet n 0 4).value = (packetOf s.packet n).header.seqNum := rfl
  have expected : s.parsed.expectedSeqNum = s.expectedSeqNum := rfl
  have buffer : s.parsed.packetBuffer.length = s.packetBuffer.length := List.length_map _
  simp only [processData, Server.processData, Logged.value_bind, expected, buffer]
  rcases lt_trichotomy (packetOf s.packet n).header.seqNum s.expectedSeqNum with past | next | future
  · rw [if_neg (by omega), if_neg (by omega), if_neg (by omega), if_neg (by omega)]
    rfl
  · rw [if_pos (by omega), if_pos next]
    simp only [Logged.value_bind, ← deliver_parsed s s.packet whole fits]
    exact drain_parsed _ sized
  · rw [if_neg (by omega), if_pos (by omega), if_neg (by omega), if_pos future]
    exact store_parsed s whole fits

theorem receiveRound_parsed {s : State} (sized : Sized s.packetBuffer) (arrival : Arrival)
    (whole : headerSize ≤ arrival.datagram.length) (junk : Junk) :
    (receiveRound s arrival).value.parsed =
      (Server.receiveRound s.parsed (parse arrival.datagram) arrival.drop junk).1 := by
  let n := arrival.datagram.length
  let s' := { s with packet := recvfrom s.packet arrival.datagram }
  have same : s'.parsed = s.parsed := rfl
  have parsed : packetOf s'.packet n = parse arrival.datagram := packetOf_recvfrom s.packet whole
  have flags : (testField s'.packet n 8 2).value = (parse arrival.datagram).header.flags := by
    rw [← parsed]
    rfl
  simp only [receiveRound, Server.receiveRound, Logged.value_bind, ShamPacket.has, bne_iff_ne]
  by_cases fin : (parse arrival.datagram).header.flags &&& shamFin ≠ 0
  · rw [if_pos (by rwa [flags]), if_pos fin, ← parsed]
    rfl
  · rw [if_neg (by rwa [flags]), if_neg fin]
    by_cases dropped : arrival.drop = true
    · rw [if_pos dropped, if_pos dropped]
      exact same
    · rw [if_neg dropped, if_neg dropped, processData_parsed (s := s') sized whole arrival.fits, parsed,
        same]

end Server.Raw

end SystemsSuite.Sham
