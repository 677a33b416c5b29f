import SystemsSuite.Sham.Protocol

set_option autoImplicit false

namespace SystemsSuite.Sham

open Lib Lib.System

variable {file outputFilename : Bytes}

def SegmentStart (file : Bytes) (n : Nat) : Prop := (n - 1) % 1024 = 0 ∨ n = file.length + 1

def IsSegment (file : Bytes) (packet : ShamPacket) : Prop :=
  packet.header.flags = 0 ∧ 1 ≤ packet.header.seqNum ∧ packet.header.seqNum ≤ file.length ∧
    (packet.header.seqNum - 1) % 1024 = 0 ∧ packet.data = Client.fread file (packet.header.seqNum - 1)

-- Handshake leftovers: they carry no byte, or a sequence number the receiver is always past.
def Harmless (packet : ShamPacket) : Prop := packet.data = [] ∨ packet.header.seqNum = 0

def Acceptable (file : Bytes) (limit : Nat) (packet : ShamPacket) : Prop :=
  (IsSegment file packet ∧ packet.header.seqNum + packet.data.length ≤ limit) ∨ Harmless packet

def Client.State.Closing (c : Client.State) : Prop :=
  match c.pc with
  | .awaitFinAck _ | .awaitServerFin _ | .exited => True
  | _ => False

def Client.State.Finished (c : Client.State) : Prop :=
  c.Closing ∧ c.fileReadComplete = true ∧ c.base = c.nextSeqNum

-- The joint invariant of both ends and of everything in flight.
structure Inv (file : Bytes) (n : Net) : Prop where
  basePositive : 1 ≤ n.client.base
  baseStart : SegmentStart file n.client.base ∨ n.client.base = 1001
  baseAcked : n.client.base ≤ n.server.expectedSeqNum
  expectedSent : n.server.expectedSeqNum ≤ n.client.nextSeqNum
  expectedStart : SegmentStart file n.server.expectedSeqNum
  nextStart : SegmentStart file n.client.nextSeqNum
  nextInFile : n.client.nextSeqNum ≤ file.length + 1
  nextSmall : n.client.nextSeqNum ≤ 2 ^ 32 - 1023
  position : n.client.filePos + 1 = n.client.nextSeqNum
  complete : n.client.fileReadComplete = true → n.client.nextSeqNum = file.length + 1
  written : n.server.output = file.take (n.server.expectedSeqNum - 1)
  slots : ∀ i, (n.client.windowBuffer i).isValid = true →
    Acceptable file n.client.nextSeqNum (n.client.windowBuffer i).packet ∧
      (n.client.windowBuffer i).packet.has shamFin = false ∧
      (n.client.windowBuffer i).packet.has shamSyn = false
  buffered : ∀ slot ∈ n.server.packetBuffer, slot.isValid = true →
    Acceptable file n.client.nextSeqNum slot.packet
  segments : ∀ packet ∈ n.toServer, Acceptable file n.client.nextSeqNum packet
  syns : ∀ packet ∈ n.toServer, packet.has shamSyn = true → packet.header.seqNum = 1000
  fins : ∀ packet ∈ n.toServer, packet.has shamFin = true → n.client.Finished
  left : n.server.LeftOnFin → n.client.Finished
  waiting : ∀ k, n.client.pc = .finalWait k →
    n.client.fileReadComplete = true ∧ n.client.base = n.client.nextSeqNum
  acks : ∀ packet ∈ n.toClient, packet.has shamAck = true → packet.has shamSyn = false →
    (packet.header.ackNum ≤ n.server.expectedSeqNum ∧ SegmentStart file packet.header.ackNum) ∨
      n.client.Closing
  synAcks : ∀ packet ∈ n.toClient, packet.has shamSyn = true → packet.header.ackNum = 1001

theorem Inv.baseSent {n : Net} (inv : Inv file n) : n.client.base ≤ n.client.nextSeqNum :=
  le_trans inv.baseAcked inv.expectedSent

theorem Acceptable.mono {limit limit' : Nat} {packet : ShamPacket} (le : limit ≤ limit')
    (ok : Acceptable file limit packet) : Acceptable file limit' packet := by
  rcases ok with ⟨segment, within⟩ | harmless
  · exact .inl ⟨segment, le_trans within le⟩
  · exact .inr harmless

theorem fread_length (file : Bytes) (pos : Nat) :
    (Client.fread file pos).length = min 1024 (file.length - pos) := by
  simp [Client.fread, shamDataSize]

theorem take_append_fread (file : Bytes) (pos : Nat) :
    file.take pos ++ Client.fread file pos = file.take (pos + (Client.fread file pos).length) := by
  rw [fread_length, Client.fread, shamDataSize, List.take_add, List.append_cancel_left_eq]
  by_cases short : file.length - pos ≤ 1024
  · rw [Nat.min_eq_right short, List.take_of_length_le (by simpa using short),
      List.take_of_length_le (by simp)]
  · rw [Nat.min_eq_left (by omega)]

-- What the receive loop keeps about the output file and the buffered segments.
structure Received (file : Bytes) (limit : Nat) (s : Server.State) : Prop where
  positive : 1 ≤ s.expectedSeqNum
  sent : s.expectedSeqNum ≤ limit
  start : SegmentStart file s.expectedSeqNum
  written : s.output = file.take (s.expectedSeqNum - 1)
  buffered : ∀ slot ∈ s.packetBuffer, slot.isValid = true → Acceptable file limit slot.packet

variable {limit : Nat} {s : Server.State}

theorem Received.deliver (ok : Received file limit s) (small : limit < 2 ^ 32)
    (inFile : limit ≤ file.length + 1) {packet : ShamPacket}
    (acceptable : Acceptable file limit packet)
    (expected : packet.header.seqNum = s.expectedSeqNum) :
    Received file limit (Server.deliver s packet.data) ∧
      s.expectedSeqNum ≤ (Server.deliver s packet.data).expectedSeqNum := by
  have positive := ok.positive
  have sent := ok.sent
  rcases acceptable with ⟨⟨_, _, inside, aligned, data⟩, within⟩ | empty | zero
  · have size : packet.data.length = min 1024 (file.length - (s.expectedSeqNum - 1)) := by
      rw [data, fread_length, expected]
    have next : u32 (s.expectedSeqNum + packet.data.length) =
        s.expectedSeqNum + packet.data.length := Nat.mod_eq_of_lt (by omega)
    refine ⟨⟨?_, ?_, ?_, ?_, ok.buffered⟩, ?_⟩
    · simp only [Server.deliver, next]; omega
    · simp only [Server.deliver, next]; omega
    · simp only [Server.deliver, next, SegmentStart]; omega
    · simp only [Server.deliver, next, ok.written]
      rw [data, expected, take_append_fread]
      congr 1
      omega
    · simp only [Server.deliver, next]; omega
  · have same : Server.deliver s packet.data = s := by
      have kept : u32 s.expectedSeqNum = s.expectedSeqNum := Nat.mod_eq_of_lt (by omega)
      simp only [Server.deliver, empty, List.append_nil, List.length_nil, Nat.add_zero, kept]
    rw [same]
    exact ⟨ok, le_refl _⟩
  · omega

theorem Received.invalidate (ok : Received file limit s) (i count : Nat)
    (slot : Server.BufferedPacket) :
    Received file limit { s with
      bytesInBuffer := count
      packetBuffer := s.packetBuffer.set i { slot with isValid := false } } := by
  refine ⟨ok.positive, ok.sent, ok.start, ok.written, ?_⟩
  intro other member valid
  rcases List.mem_or_eq_of_mem_set member with old | rfl
  · exact ok.buffered other old valid
  · simp at valid

theorem nextBuffered_spec {i : Nat} (found : Server.nextBuffered s = some i) :
    Server.slotAt s i ∈ s.packetBuffer ∧ (Server.slotAt s i).isValid = true ∧
      (Server.slotAt s i).packet.header.seqNum = s.expectedSeqNum := by
  obtain ⟨bound, holds, -⟩ := List.findIdx?_eq_some_iff_getElem.mp found
  have here : Server.slotAt s i = s.packetBuffer[i] := by
    simp [Server.slotAt, List.getD_eq_getElem?_getD, List.getElem?_eq_getElem bound]
  rw [here]
  simp only [Bool.and_eq_true, decide_eq_true_eq] at holds
  exact ⟨List.getElem_mem bound, holds⟩

theorem Received.drainSlot (ok : Received file limit s) (small : limit < 2 ^ 32)
    (inFile : limit ≤ file.length + 1) {i : Nat} (found : Server.nextBuffered s = some i) :
    Received file limit (Server.drainSlot s i) ∧
      s.expectedSeqNum ≤ (Server.drainSlot s i).expectedSeqNum := by
  obtain ⟨member, valid, expected⟩ := nextBuffered_spec found
  have delivered := ok.deliver small inFile (ok.buffered _ member valid) expected
  exact ⟨delivered.1.invalidate i _ _, delivered.2⟩

theorem Received.drain (small : limit < 2 ^ 32) (inFile : limit ≤ file.length + 1) (fuel : Nat)
    (ok : Received file limit s) :
    Received file limit (Server.drain fuel s) ∧
      s.expectedSeqNum ≤ (Server.drain fuel s).expectedSeqNum := by
  induction fuel generalizing s with
  | zero => exact ⟨ok, le_refl _⟩
  | succ fuel ih =>
    cases found : Server.nextBuffered s with
    | none => simpa [Server.drain, found] using ok
    | some i =>
      have one := ok.drainSlot small inFile found
      have rest := ih one.1
      simp only [Server.drain, found]
      exact ⟨rest.1, le_trans one.2 rest.2⟩

theorem Received.store (ok : Received file limit s) {packet : ShamPacket}
    (acceptable : Acceptable file limit packet) : Received file limit (Server.store s packet) := by
  cases free : Server.freeSlot s with
  | none => simpa [Server.store, free] using ⟨ok.positive, ok.sent, ok.start, ok.written, ok.buffered⟩
  | some i =>
    simp only [Server.store, free]
    refine ⟨ok.positive, ok.sent, ok.start, ok.written, ?_⟩
    intro slot member valid
    rcases List.mem_or_eq_of_mem_set member with old | rfl
    · exact ok.buffered slot old valid
    · exact acceptable

theorem store_expected (packet : ShamPacket) :
    (Server.store s packet).expectedSeqNum = s.expectedSeqNum := by
  cases free : Server.freeSlot s <;> simp [Server.store, free]

theorem Received.processData (ok : Received file limit s) (small : limit < 2 ^ 32)
    (inFile : limit ≤ file.length + 1) {packet : ShamPacket}
    (acceptable : Acceptable file limit packet) :
    Received file limit (Server.processData s packet) ∧
      s.expectedSeqNum ≤ (Server.processData s packet).expectedSeqNum := by
  simp only [Server.processData]
  split_ifs with expected later
  · have delivered := ok.deliver small inFile acceptable expected
    have drained := delivered.1.drain small inFile (s.packetBuffer.length + 1)
    exact ⟨drained.1, le_trans delivered.2 drained.2⟩
  · exact ⟨ok.store acceptable, (store_expected packet).ge⟩
  · exact ⟨ok, le_refl _⟩

def validCount (s : Server.State) : Nat := s.packetBuffer.countP (·.isValid)

theorem drainSlot_validCount {i : Nat} (found : Server.nextBuffered s = some i) :
    validCount (Server.drainSlot s i) + 1 = validCount s := by
  obtain ⟨bound, -, -⟩ := List.findIdx?_eq_some_iff_getElem.mp found
  obtain ⟨-, valid, -⟩ := nextBuffered_spec found
  have here : Server.slotAt s i = s.packetBuffer[i] := by
    simp [Server.slotAt, List.getD_eq_getElem?_getD, List.getElem?_eq_getElem bound]
  rw [here] at valid
  have occupied : 0 < s.packetBuffer.countP (·.isValid) :=
    List.countP_pos_iff.mpr ⟨_, List.getElem_mem bound, valid⟩
  simp only [validCount, Server.drainSlot, Server.deliver, List.countP_set bound, valid]
  simp only [if_true, Bool.false_eq_true, if_false]
  omega

-- Each round frees a slot, so the fuel the receive loop is given never runs out.
theorem drain_complete (fuel : Nat) (enough : validCount s < fuel) :
    Server.nextBuffered (Server.drain fuel s) = none := by
  induction fuel generalizing s with
  | zero => omega
  | succ fuel ih =>
    cases found : Server.nextBuffered s with
    | none => simp [Server.drain, found]
    | some i =>
      have fewer := drainSlot_validCount found
      simp only [Server.drain, found]
      exact ih (by omega)

theorem drain_pc (fuel : Nat) : (Server.drain fuel s).pc = s.pc := by
  induction fuel generalizing s with
  | zero => rfl
  | succ fuel ih =>
    cases found : Server.nextBuffered s with
    | none => simp [Server.drain, found]
    | some i => simp [Server.drain, found, ih, Server.drainSlot, Server.deliver]

theorem processData_pc (packet : ShamPacket) : (Server.processData s packet).pc = s.pc := by
  simp only [Server.processData]
  split_ifs
  · simp [drain_pc, Server.deliver]
  · cases free : Server.freeSlot s <;> simp [Server.store, free]
  · rfl

def AckSound (file : Bytes) (n : Net) (expected : Nat) (packet : ShamPacket) : Prop :=
  (packet.has shamAck = true → packet.has shamSyn = false →
    (packet.header.ackNum ≤ expected ∧ SegmentStart file packet.header.ackNum) ∨ n.client.Closing) ∧
  (packet.has shamSyn = true → packet.header.ackNum = 1001)

variable {n : Net}

theorem Inv.received (inv : Inv file n) : Received file n.client.nextSeqNum n.server where
  positive := le_trans inv.basePositive inv.baseAcked
  sent := inv.expectedSent
  start := inv.expectedStart
  written := inv.written
  buffered := inv.buffered

theorem Inv.limitSmall (inv : Inv file n) : n.client.nextSeqNum < 2 ^ 32 := by
  have := inv.nextSmall
  omega

theorem Inv.server (inv : Inv file n) (after : Server.State) (sent : List ShamPacket)
    (received : Received file n.client.nextSeqNum after)
    (grown : n.server.expectedSeqNum ≤ after.expectedSeqNum)
    (left : after.LeftOnFin → n.client.Finished)
    (sound : ∀ packet ∈ sent, AckSound file n after.expectedSeqNum packet) :
    Inv file { n with server := after, toClient := sent ++ n.toClient } where
  basePositive := inv.basePositive
  baseStart := inv.baseStart
  baseAcked := le_trans inv.baseAcked grown
  expectedSent := received.sent
  expectedStart := received.start
  nextStart := inv.nextStart
  nextInFile := inv.nextInFile
  nextSmall := inv.nextSmall
  position := inv.position
  complete := inv.complete
  written := received.written
  slots := inv.slots
  buffered := received.buffered
  segments := inv.segments
  syns := inv.syns
  fins := inv.fins
  left := left
  waiting := inv.waiting
  acks := by
    intro packet member isAck noSyn
    rcases List.mem_append.mp member with new | old
    · exact (sound packet new).1 isAck noSyn
    · rcases inv.acks packet old isAck noSyn with ⟨le, start⟩ | closing
      · exact .inl ⟨le_trans le grown, start⟩
      · exact .inr closing
  synAcks := by
    intro packet member isSyn
    rcases List.mem_append.mp member with new | old
    · exact (sound packet new).2 isSyn
    · exact inv.synAcks packet old isSyn

theorem Inv.serverPc (inv : Inv file n) (pc : Server.Pc) (sent : List ShamPacket)
    (left : ({ n.server with pc := pc } : Server.State).LeftOnFin → n.client.Finished)
    (sound : ∀ packet ∈ sent, AckSound file n n.server.expectedSeqNum packet) :
    Inv file { n with server := { n.server with pc := pc }, toClient := sent ++ n.toClient } :=
  inv.server _ sent ⟨inv.received.positive, inv.received.sent, inv.received.start,
    inv.received.written, inv.received.buffered⟩ (le_refl _) left sound

theorem receiveRound_inv (inv : Inv file n) (packet : ShamPacket) (drop : Bool) (junk : Junk)
    (receiving : n.server.pc = .receiving) (member : packet ∈ n.toServer) :
    Inv file { n with
      server := (Server.receiveRound n.server packet drop junk).1
      toClient := (Server.receiveRound n.server packet drop junk).2 ++ n.toClient } := by
  simp only [Server.receiveRound]
  split_ifs with isFin dropped
  · exact inv.serverPc _ [] (fun _ => inv.fins packet member isFin) (by simp)
  · exact inv
  · have processed := inv.received.processData inv.limitSmall inv.nextInFile
      (inv.segments packet member)
    refine inv.server _ _ processed.1 processed.2 ?_ ?_
    · intro left
      simp [Server.State.LeftOnFin, processData_pc, receiving] at left
    · intro sent isAck
      obtain rfl := List.mem_singleton.mp isAck
      refine ⟨fun _ _ => .inl ⟨le_refl _, processed.1.start⟩, ?_⟩
      intro isSyn
      simp [Server.ackPacket, ShamPacket.has, shamAck, shamSyn] at isSyn

theorem serverStep_inv (inv : Inv file n) (input : Server.Input)
    (delivered : ∀ packet, input.received = some packet → packet ∈ n.toServer) :
    Inv file (Net.serverStep n input) := by
  obtain ⟨received, drop, junk⟩ := input
  have gone : Inv file { n with server := { n.server with pc := .exited } } :=
    inv.serverPc .exited [] (fun left => left.elim) (by simp)
  have leaving (left : n.server.LeftOnFin) : n.client.Finished := inv.left left
  unfold Net.serverStep
  cases at_ : n.server.pc with
  | listen =>
    cases received with
    | none => simpa [Server.step, at_] using gone
    | some packet =>
      by_cases isSyn : packet.has shamSyn = true
      · have seq := inv.syns packet (delivered packet rfl) isSyn
        simp only [Server.step, at_, isSyn, if_true]
        refine inv.serverPc .awaitAck _ (fun left => left.elim) ?_
        intro sent new
        obtain rfl := List.mem_singleton.mp new
        have next : u32 1001 = 1001 := by decide
        refine ⟨fun _ noSyn => ?_, fun _ => by simp [Server.synAckPacket, seq, next]⟩
        simp [Server.synAckPacket, ShamPacket.has, shamAck, shamSyn] at noSyn
      · simpa [Server.step, at_, isSyn] using gone
  | awaitAck =>
    cases received with
    | none => simpa [Server.step, at_] using gone
    | some packet =>
      simp only [Server.step, at_]
      split_ifs
      · exact inv.serverPc .awaitFilename [] (fun left => left.elim) (by simp)
      · exact gone
  | awaitFilename =>
    cases received with
    | none =>
      simp only [Server.step, at_]
      exact inv.serverPc .receiving [] (fun left => left.elim) (by simp)
    | some packet =>
      simp only [Server.step, at_]
      split_ifs
      · refine inv.serverPc .receiving _ (fun left => left.elim) ?_
        intro sent new
        obtain rfl := List.mem_singleton.mp new
        refine ⟨fun _ _ => .inl ⟨inv.received.positive, by simp [SegmentStart, Server.filenameAck]⟩, ?_⟩
        intro isSyn
        simp [Server.filenameAck, ShamPacket.has, shamAck, shamSyn] at isSyn
      · exact inv.serverPc .receiving [] (fun left => left.elim) (by simp)
  | receiving =>
    cases received with
    | none => simpa [Server.step, at_] using gone
    | some packet =>
      simp only [Server.step, at_]
      exact receiveRound_inv inv packet drop junk at_ (delivered packet rfl)
  | sendFinAck clientFinSeq =>
    have finished := leaving (by simp [Server.State.LeftOnFin, at_])
    simp only [Server.step, at_]
    refine inv.serverPc .sendFin _ (fun _ => finished) ?_
    intro sent new
    obtain rfl := List.mem_singleton.mp new
    refine ⟨fun _ _ => .inr finished.1, ?_⟩
    intro isSyn
    simp [Server.finAck, ShamPacket.has, shamAck, shamSyn] at isSyn
  | sendFin =>
    have finished := leaving (by simp [Server.State.LeftOnFin, at_])
    simp only [Server.step, at_]
    refine inv.serverPc (.awaitFinalAck 0) _ (fun _ => finished) ?_
    intro sent new
    obtain rfl := List.mem_singleton.mp new
    refine ⟨fun _ _ => .inr finished.1, ?_⟩
    intro isSyn
    simp [Server.serverFin, ShamPacket.has, shamFin, shamSyn] at isSyn
  | awaitFinalAck tries =>
    have finished := leaving (by simp [Server.State.LeftOnFin, at_])
    have again : Inv file { n with server := { n.server with pc := .awaitFinalAck (tries + 1) } } :=
      inv.serverPc _ [] (fun _ => finished) (by simp)
    cases received with
    | none => simp only [Server.step, at_]; split_ifs <;> assumption
    | some packet => simp only [Server.step, at_]; split_ifs <;> assumption
  | exited => simpa [Server.step, at_] using inv

structure Sent (file : Bytes) (after : Client.State) (packet : ShamPacket) : Prop where
  acceptable : Acceptable file after.nextSeqNum packet
  syn : packet.has shamSyn = true → packet.header.seqNum = 1000
  fin : packet.has shamFin = true → after.Finished

theorem Inv.client (inv : Inv file n) (after : Client.State) (sent : List ShamPacket)
    (basePositive : 1 ≤ after.base) (baseStart : SegmentStart file after.base ∨ after.base = 1001)
    (baseAcked : after.base ≤ n.server.expectedSeqNum)
    (grown : n.client.nextSeqNum ≤ after.nextSeqNum)
    (nextStart : SegmentStart file after.nextSeqNum)
    (nextInFile : after.nextSeqNum ≤ file.length + 1)
    (nextSmall : after.nextSeqNum ≤ 2 ^ 32 - 1023)
    (position : after.filePos + 1 = after.nextSeqNum)
    (complete : after.fileReadComplete = true → after.nextSeqNum = file.length + 1)
    (slots : ∀ i, (after.windowBuffer i).isValid = true →
      Acceptable file after.nextSeqNum (after.windowBuffer i).packet ∧
        (after.windowBuffer i).packet.has shamFin = false ∧
        (after.windowBuffer i).packet.has shamSyn = false)
    (closing : n.client.Closing → after.Closing)
    (finished : n.client.Finished → after.Finished)
    (waiting : ∀ k, after.pc = .finalWait k →
      after.fileReadComplete = true ∧ after.base = after.nextSeqNum)
    (sound : ∀ packet ∈ sent, Sent file after packet) :
    Inv file { n with client := after, toServer := sent ++ n.toServer } where
  basePositive := basePositive
  baseStart := baseStart
  baseAcked := baseAcked
  expectedSent := le_trans inv.expectedSent grown
  expectedStart := inv.expectedStart
  nextStart := nextStart
  nextInFile := nextInFile
  nextSmall := nextSmall
  position := position
  complete := complete
  written := inv.written
  slots := slots
  buffered := fun slot member valid => (inv.buffered slot member valid).mono grown
  segments := by
    intro packet member
    rcases List.mem_append.mp member with new | old
    · exact (sound packet new).acceptable
    · exact (inv.segments packet old).mono grown
  syns := by
    intro packet member isSyn
    rcases List.mem_append.mp member with new | old
    · exact (sound packet new).syn isSyn
    · exact inv.syns packet old isSyn
  fins := by
    intro packet member isFin
    rcases List.mem_append.mp member with new | old
    · exact (sound packet new).fin isFin
    · exact finished (inv.fins packet old isFin)
  left := fun left => finished (inv.left left)
  waiting := waiting
  acks := by
    intro packet member isAck noSyn
    rcases inv.acks packet member isAck noSyn with held | wasClosing
    · exact .inl held
    · exact .inr (closing wasClosing)
  synAcks := inv.synAcks

theorem Inv.clientPc (inv : Inv file n) (pc : Client.Pc) (budget : Nat) (sent : List ShamPacket)
    (closing : n.client.Closing →
      ({ n.client with pc := pc, unacknowledgedBytes := budget } : Client.State).Closing)
    (waiting : ∀ k, pc = .finalWait k →
      n.client.fileReadComplete = true ∧ n.client.base = n.client.nextSeqNum)
    (sound : ∀ packet ∈ sent,
      Sent file { n.client with pc := pc, unacknowledgedBytes := budget } packet) :
    Inv file { n with
      client := { n.client with pc := pc, unacknowledgedBytes := budget }
      toServer := sent ++ n.toServer } :=
  inv.client _ sent inv.basePositive inv.baseStart inv.baseAcked (le_refl _) inv.nextStart
    inv.nextInFile inv.nextSmall inv.position inv.complete inv.slots closing
    (fun finished => ⟨closing finished.1, finished.2⟩) waiting sound

theorem sent_leftover {after : Client.State} {packet : ShamPacket} (empty : packet.data = [])
    (syn : packet.has shamSyn = true → packet.header.seqNum = 1000)
    (fin : packet.has shamFin = true → after.Finished) : Sent file after packet :=
  ⟨.inr (.inl empty), syn, fin⟩

-- The 32-bit window guard stops the sender before `nextSeqNum` could wrap.
theorem window_guard_stops (base next length : Nat) (positive : 1 ≤ base) (behind : base ≤ next)
    (start : (base - 1) % 1024 = 0 ∨ base = length + 1 ∨ base = 1001)
    (more : next ≤ length) (aligned : (next - 1) % 1024 = 0) (small : next < 2 ^ 32)
    (guard : next < u32 (base + 10 * 1024)) : next + 1024 ≤ 2 ^ 32 - 1023 := by
  unfold u32 at guard
  omega

@[simp] theorem segment_has (seqNum flag : Nat) (data : Bytes) :
    (Client.segment seqNum data).has flag = false := by
  simp [ShamPacket.has, Client.segment]

theorem sendRound_inv (inv : Inv file n) (sending : n.client.pc = .sending) :
    Inv file { n with
      client := (Client.sendRound file n.client).1
      toServer := (Client.sendRound file n.client).2 ++ n.toServer } := by
  have open_ (after : Client.State) (closing : n.client.Closing) : after.Closing := by
    simp [Client.State.Closing, sending] at closing
  have position := inv.position
  simp only [Client.sendRound]
  split_ifs with allowed more
  · have aligned : (n.client.nextSeqNum - 1) % 1024 = 0 ∧ n.client.nextSeqNum ≤ file.length := by
      have start := inv.nextStart
      rw [fread_length] at more
      simp only [SegmentStart] at start
      omega
    have guard : n.client.nextSeqNum < u32 (n.client.base + 10 * 1024) := by
      simp only [Client.mayRead, Bool.and_eq_true, decide_eq_true_eq] at allowed
      exact allowed.1.1
    have bound := window_guard_stops n.client.base n.client.nextSeqNum file.length
      inv.basePositive inv.baseSent (by simpa [SegmentStart, or_assoc] using inv.baseStart)
      aligned.2 aligned.1 inv.limitSmall guard
    have size := fread_length file n.client.filePos
    have next : u32 (n.client.nextSeqNum + (Client.fread file n.client.filePos).length) =
        n.client.nextSeqNum + (Client.fread file n.client.filePos).length :=
      Nat.mod_eq_of_lt (by omega)
    have incomplete : n.client.fileReadComplete = false := by
      simp only [Client.mayRead, Bool.and_eq_true] at allowed
      simpa using allowed.2
    have segment : Acceptable file
        (n.client.nextSeqNum + (Client.fread file n.client.filePos).length)
        (Client.segment n.client.nextSeqNum (Client.fread file n.client.filePos)) := by
      refine .inl ⟨⟨rfl, by simp [Client.segment]; omega, aligned.2, aligned.1, ?_⟩, le_refl _⟩
      exact congrArg (Client.fread file) (by simp only [Client.segment]; omega)
    rw [next]
    refine inv.client _ _ inv.basePositive inv.baseStart inv.baseAcked (Nat.le_add_right _ _)
      ?_ ?_ ?_ ?_ ?_ ?_ (open_ _) (fun finished => ⟨open_ _ finished.1, ?_⟩) ?_ ?_
    · simp only [SegmentStart]; omega
    · simp only; omega
    · simp only; omega
    · simp only; omega
    · simp [incomplete]
    · intro i valid
      by_cases here : i = Client.bufferIndex n.client.nextSeqNum
      · subst here
        simp only [Function.update_self] at valid ⊢
        exact ⟨segment, segment_has .., segment_has ..⟩
      · simp only [Function.update_of_ne here] at valid ⊢
        obtain ⟨acceptable, noFin, noSyn⟩ := inv.slots i valid
        exact ⟨acceptable.mono (Nat.le_add_right _ _), noFin, noSyn⟩
    · exact absurd finished.1 (by simp [Client.State.Closing, sending])
    · intro k waits
      simp [sending] at waits
    · intro packet new
      obtain rfl := List.mem_singleton.mp new
      exact ⟨segment, fun isSyn => by simp at isSyn, fun isFin => by simp at isFin⟩
  · have finish : n.client.nextSeqNum = file.length + 1 := by
      have inFile := inv.nextInFile
      rw [fread_length] at more
      omega
    refine inv.client _ [] inv.basePositive inv.baseStart inv.baseAcked (le_refl _) inv.nextStart
      inv.nextInFile inv.nextSmall inv.position (fun _ => finish) inv.slots (open_ _)
      (fun finished => absurd finished.1 (by simp [Client.State.Closing, sending])) ?_ (by simp)
    intro k waits
    simp at waits
  · exact inv.clientPc .receiving n.client.unacknowledgedBytes [] (open_ _) (by simp) (by simp)

-- No SYN-ACK reaches the transfer loop while it would acknowledge more than was received.
def SynAckHarmless (n : Net) : Label → Prop
  | .client input => n.client.pc = .receiving → ∀ packet, input.received = some packet →
      packet.has shamSyn = true → packet.header.ackNum ≤ n.server.expectedSeqNum
  | .server _ => True

theorem receiving_inv (inv : Inv file n) (receiving : n.client.pc = .receiving)
    (packet : ShamPacket) (member : packet ∈ n.toClient)
    (harmless : packet.has shamSyn = true → packet.header.ackNum ≤ n.server.expectedSeqNum) :
    Inv file { n with client := { Client.processAck n.client packet with pc := .scanning 0 } } := by
  have open_ (after : Client.State) (closing : n.client.Closing) : after.Closing := by
    simp [Client.State.Closing, receiving] at closing
  simp only [Client.processAck]
  split_ifs with accepted
  · obtain ⟨isAck, newer, -⟩ := accepted
    have sound : packet.header.ackNum ≤ n.server.expectedSeqNum ∧
        (SegmentStart file packet.header.ackNum ∨ packet.header.ackNum = 1001) := by
      cases isSyn : packet.has shamSyn with
      | true => exact ⟨harmless isSyn, .inr (inv.synAcks packet member isSyn)⟩
      | false =>
        rcases inv.acks packet member isAck isSyn with ⟨le, start⟩ | closing
        · exact ⟨le, .inl start⟩
        · simp [Client.State.Closing, receiving] at closing
    have positive := inv.basePositive
    exact inv.client _ [] (by simp only; omega) sound.2 sound.1 (le_refl _) inv.nextStart
      inv.nextInFile inv.nextSmall inv.position inv.complete inv.slots (open_ _)
      (fun finished => absurd finished.1 (by simp [Client.State.Closing, receiving]))
      (by simp) (by simp)
  · exact inv.clientPc (.scanning 0) n.client.unacknowledgedBytes [] (open_ _) (by simp) (by simp)

theorem scanSlot_inv (inv : Inv file n) (i : Nat) (scanning : n.client.pc = .scanning i)
    (timedOut : Bool) :
    Inv file { n with
      client := { (Client.scanSlot n.client i timedOut).1 with pc := .scanning (i + 1) }
      toServer := (Client.scanSlot n.client i timedOut).2 ++ n.toServer } := by
  have open_ (after : Client.State) (closing : n.client.Closing) : after.Closing := by
    simp [Client.State.Closing, scanning] at closing
  simp only [Client.scanSlot]
  split_ifs with acknowledged late
  · refine inv.client _ [] inv.basePositive inv.baseStart inv.baseAcked (le_refl _) inv.nextStart
      inv.nextInFile inv.nextSmall inv.position inv.complete ?_ (open_ _)
      (fun finished => absurd finished.1 (by simp [Client.State.Closing, scanning])) (by simp) (by simp)
    intro j valid
    by_cases here : j = i
    · simp [here] at valid
    · simp only [Function.update_of_ne here] at valid ⊢
      exact inv.slots j valid
  · refine inv.clientPc (.scanning (i + 1)) n.client.unacknowledgedBytes _ (open_ _) (by simp) ?_
    intro packet new
    obtain rfl := List.mem_singleton.mp new
    simp only [Bool.and_eq_true] at late
    obtain ⟨acceptable, noFin, noSyn⟩ := inv.slots i late.1
    exact ⟨acceptable, fun isSyn => by simp [noSyn] at isSyn, fun isFin => by simp [noFin] at isFin⟩
  · exact inv.clientPc (.scanning (i + 1)) n.client.unacknowledgedBytes [] (open_ _) (by simp) (by simp)

theorem handshake_sent (after : Client.State) (junk : Junk) (synAck : ShamPacket) :
    ∀ packet ∈ [Client.handshakeAck junk synAck, Client.filenamePacket junk outputFilename],
      Sent file after packet := by
  intro packet member
  rcases List.mem_cons.mp member with rfl | last
  · exact sent_leftover rfl (fun isSyn => by simp [Client.handshakeAck, ShamPacket.has, shamAck, shamSyn] at isSyn)
      (fun isFin => by simp [Client.handshakeAck, ShamPacket.has, shamAck, shamFin] at isFin)
  · obtain rfl := List.mem_singleton.mp last
    exact ⟨.inr (.inr rfl), fun isSyn => by simp [Client.filenamePacket, ShamPacket.has] at isSyn,
      fun isFin => by simp [Client.filenamePacket, ShamPacket.has] at isFin⟩

theorem finalAck_sent (after : Client.State) (junk : Junk) (ackNum : Nat) :
    ∀ packet ∈ [Client.finalAck junk ackNum], Sent file after packet := by
  intro packet member
  obtain rfl := List.mem_singleton.mp member
  exact sent_leftover rfl (fun isSyn => by simp [Client.finalAck, ShamPacket.has, shamAck, shamSyn] at isSyn)
    (fun isFin => by simp [Client.finalAck, ShamPacket.has, shamAck, shamFin] at isFin)

theorem clientStep_inv (inv : Inv file n) (input : Client.Input)
    (delivered : ∀ packet, input.received = some packet → packet ∈ n.toClient)
    (harmless : SynAckHarmless n (.client input)) :
    Inv file (Net.clientStep file outputFilename n input) := by
  obtain ⟨received, timedOut, junk⟩ := input
  -- Every step but reading, acknowledging and scanning moves only the program counter.
  have move (pc : Client.Pc) (sent : List ShamPacket) (budget : Nat)
      (closing : n.client.Closing →
        ({ n.client with pc := pc, unacknowledgedBytes := budget } : Client.State).Closing)
      (waiting : ∀ k, pc ≠ .finalWait k)
      (sound : ∀ packet ∈ sent,
        Sent file { n.client with pc := pc, unacknowledgedBytes := budget } packet) :
      Inv file { n with
        client := { n.client with pc := pc, unacknowledgedBytes := budget }
        toServer := sent ++ n.toServer } :=
    inv.clientPc pc budget sent closing (fun k here => absurd here (waiting k)) sound
  have gone : Inv file { n with client := { n.client with pc := .exited } } :=
    move .exited [] n.client.unacknowledgedBytes (fun _ => trivial) (by simp) (by simp)
  unfold Net.clientStep
  cases at_ : n.client.pc with
  | start =>
    simp only [Client.step, at_]
    refine move .awaitSynAck _ n.client.unacknowledgedBytes
      (fun closing => by simp [Client.State.Closing, at_] at closing) (by simp) ?_
    intro packet member
    obtain rfl := List.mem_singleton.mp member
    exact sent_leftover rfl (fun _ => rfl)
      (fun isFin => by simp [Client.synPacket, ShamPacket.has, shamSyn, shamFin] at isFin)
  | awaitSynAck =>
    cases received with
    | none => simpa [Client.step, at_] using gone
    | some synAck =>
      simp only [Client.step, at_]
      split_ifs
      · exact move .awaitFilenameAck _ n.client.unacknowledgedBytes
          (fun closing => by simp [Client.State.Closing, at_] at closing) (by simp)
          (handshake_sent _ junk synAck)
      · exact gone
  | awaitFilenameAck =>
    cases received with
    | none => simpa [Client.step, at_] using gone
    | some _ =>
      simp only [Client.step, at_]
      exact move .loopHead [] n.client.unacknowledgedBytes
        (fun closing => by simp [Client.State.Closing, at_] at closing) (by simp) (by simp)
  | loopHead =>
    simp only [Client.step, at_]
    split_ifs with again
    · exact move .sending [] _ (fun closing => by simp [Client.State.Closing, at_] at closing)
        (by simp) (by simp)
    · refine inv.clientPc (.finalWait 0) n.client.unacknowledgedBytes []
        (fun closing => by simp [Client.State.Closing, at_] at closing) (fun _ _ => ?_) (by simp)
      have behind := inv.baseSent
      simp only [Client.loopTest, Bool.or_eq_true, Bool.not_eq_true', decide_eq_true_eq, not_or] at again
      exact ⟨by simpa using again.1, by omega⟩
  | sending =>
    simp only [Client.step, at_]
    exact sendRound_inv inv at_
  | receiving =>
    cases received with
    | none =>
      simp only [Client.step, at_]
      exact move (.scanning 0) [] n.client.unacknowledgedBytes
        (fun closing => by simp [Client.State.Closing, at_] at closing) (by simp) (by simp)
    | some packet =>
      simp only [Client.step, at_]
      exact receiving_inv inv at_ packet (delivered packet rfl) (harmless at_ packet rfl)
  | scanning i =>
    simp only [Client.step, at_]
    split_ifs
    · exact scanSlot_inv inv i at_ timedOut
    · exact move .loopHead [] n.client.unacknowledgedBytes
        (fun closing => by simp [Client.State.Closing, at_] at closing) (by simp) (by simp)
  | finalWait k =>
    have waited := inv.waiting k at_
    have done : ¬ (n.client.base < n.client.nextSeqNum ∧ k < 5000) := by omega
    simp only [Client.step, at_, done, if_false]
    refine move (.awaitFinAck 0) _ n.client.unacknowledgedBytes
      (fun _ => trivial) (by simp) ?_
    intro packet member
    obtain rfl := List.mem_singleton.mp member
    exact sent_leftover rfl (fun isSyn => by simp [Client.finPacket, ShamPacket.has, shamSyn, shamFin] at isSyn)
      (fun _ => ⟨trivial, waited⟩)
  | awaitFinAck tries =>
    have next (pc : Client.Pc)
        (closing : ({ n.client with pc := pc } : Client.State).Closing) (waiting : ∀ k, pc ≠ .finalWait k) :
        Inv file { n with client := { n.client with pc := pc } } :=
      move pc [] n.client.unacknowledgedBytes (fun _ => closing) waiting (by simp)
    simp only [Client.step, at_]
    split_ifs
    · exact next (.awaitServerFin 0) trivial (by simp)
    · exact next (.awaitFinAck (tries + 1)) trivial (by simp)
    · exact next (.awaitServerFin 0) trivial (by simp)
  | awaitServerFin tries =>
    have again : Inv file { n with client := { n.client with pc := .awaitServerFin (tries + 1) } } :=
      move _ [] n.client.unacknowledgedBytes (fun _ => trivial) (by simp) (by simp)
    have leave (ackNum : Nat) : Inv file { n with
        client := { n.client with pc := .exited }
        toServer := [Client.finalAck junk ackNum] ++ n.toServer } :=
      move .exited _ n.client.unacknowledgedBytes (fun _ => trivial) (by simp)
        (finalAck_sent _ junk ackNum)
    cases received with
    | none =>
      simp only [Client.step, at_]
      split_ifs
      · exact again
      · exact leave _
    | some packet =>
      simp only [Client.step, at_]
      split_ifs
      · exact leave _
      · exact again
      · exact leave _
  | exited => simpa [Client.step, at_] using inv

theorem step_inv {m : Net} {l : Label} (inv : Inv file n) (harmless : SynAckHarmless n l)
    (taken : Net.next file outputFilename n l = some m) : Inv file m := by
  cases l with
  | client input =>
    obtain ⟨delivered, rfl⟩ := Net.next_client taken
    exact clientStep_inv inv input delivered harmless
  | server input =>
    obtain ⟨delivered, rfl⟩ := Net.next_server taken
    exact serverStep_inv inv input delivered

theorem initial_inv (file : Bytes) (clientPc : Client.Pc) (serverPc : Server.Pc)
    (waiting : ∀ k, clientPc ≠ .finalWait k)
    (staying : ¬ (Server.initial serverPc).LeftOnFin) :
    Inv file ⟨Client.initial clientPc, Server.initial serverPc, [], []⟩ where
  basePositive := le_refl _
  baseStart := .inl (.inl rfl)
  baseAcked := le_refl _
  expectedSent := le_refl _
  expectedStart := .inl rfl
  nextStart := .inl rfl
  nextInFile := by simp [Client.initial]
  nextSmall := by simp [Client.initial]
  position := rfl
  complete := by simp [Client.initial]
  written := by simp [Server.initial]
  slots := by simp [Client.initial, Client.emptySlot]
  buffered := by
    intro slot member valid
    obtain rfl := List.eq_of_mem_replicate member
    simp [Server.emptySlot] at valid
  segments := by simp
  syns := by simp
  fins := by simp
  left := fun left => absurd left staying
  waiting := fun k here => absurd here (waiting k)
  acks := by simp
  synAcks := by simp

-- Once both ends are past the handshake no SYN-ACK is in flight.
def PastHandshake (n : Net) : Prop :=
  (∀ packet ∈ n.toClient, packet.has shamSyn = false) ∧
    n.server.pc ≠ .listen

theorem step_noSyn (s : Server.State) (input : Server.Input) (serving : s.pc ≠ .listen) :
    (Server.step s input).1.pc ≠ .listen ∧
      ∀ packet ∈ (Server.step s input).2, packet.has shamSyn = false := by
  fun_cases Server.step s input <;>
    simp_all [Server.receiveRound, Server.filenameAck, Server.finAck, Server.serverFin,
      ShamPacket.has, shamAck, shamSyn, shamFin]
  split_ifs <;> simp_all [Server.ackPacket, processData_pc, shamAck]

theorem PastHandshake.harmless (past : PastHandshake n) {l : Label} {m : Net}
    (taken : Net.next file outputFilename n l = some m) : SynAckHarmless n l := by
  cases l with
  | server => trivial
  | client input =>
    obtain ⟨delivered, -⟩ := Net.next_client taken
    intro _ packet here isSyn
    simp [past.1 packet (delivered packet here)] at isSyn

theorem PastHandshake.step {l : Label} {m : Net} (past : PastHandshake n)
    (taken : Net.next file outputFilename n l = some m) : PastHandshake m := by
  cases l with
  | client input =>
    obtain ⟨-, rfl⟩ := Net.next_client taken
    exact past
  | server input =>
    obtain ⟨-, rfl⟩ := Net.next_server taken
    have quiet := step_noSyn n.server input past.2
    refine ⟨?_, quiet.1⟩
    intro packet member
    rcases List.mem_append.mp member with new | old
    · exact quiet.2 packet new
    · exact past.1 packet old

theorem transfer_inv {n : Net} (reached : (Net.transfer file outputFilename).Reachable n) :
    Inv file n ∧ PastHandshake n := by
  refine reached.invariant (I := fun n => Inv file n ∧ PastHandshake n) ?_ ?_
  · rintro n rfl
    refine ⟨initial_inv file _ _ (by simp) (fun left => left), ?_⟩
    exact ⟨by simp [Net.atTransfer], by simp [Net.atTransfer, Server.initial]⟩
  · rintro n l m ⟨inv, past⟩ taken
    exact ⟨step_inv inv (past.harmless taken) taken, past.step taken⟩

theorem Inv.outputComplete (inv : Inv file n) (left : n.server.LeftOnFin) :
    n.server.output = file := by
  obtain ⟨-, complete, acked⟩ := inv.left left
  have length := inv.complete complete
  have sent := inv.expectedSent
  have behind := inv.baseAcked
  rw [inv.written]
  exact List.take_of_length_le (by omega)

def unset : Junk := ⟨0, 0, 0⟩

def clientRuns : Label := .client ⟨none, false, unset⟩
def clientGets (packet : ShamPacket) : Label := .client ⟨some packet, false, unset⟩
def serverGets (packet : ShamPacket) : Label := .server ⟨some packet, false, unset⟩

def syn : ShamPacket := Client.synPacket unset
def synAck : ShamPacket := Server.synAckPacket unset syn
def acked (expected : Nat) : ShamPacket := ⟨⟨0, expected, shamAck, receiverBufferSize⟩, []⟩

-- SYN, SYN-ACK, ACK, filename and filename ACK, each delivered once, up to the transfer loops.
def openConnection : List Label :=
  [clientRuns, serverGets syn, clientGets synAck, serverGets (Client.handshakeAck unset synAck),
    serverGets (Client.filenamePacket unset []), clientGets (Server.filenameAck unset)]

-- The client sends the one-byte file, the server acknowledges it, the client reads the ACK.
def transferByte (byte : UInt8) : List Label :=
  [clientRuns, clientRuns, clientRuns, serverGets (Client.segment 1 [byte]), clientGets (acked 2)]

-- The timeout scan, the loop exit, the final wait and the FIN.
def closeTransfer : List Label :=
  List.replicate 13 clientRuns ++ [serverGets ⟨⟨2, 0, shamFin, 0⟩, []⟩]

def runTransfer : Option Net :=
  execute (Net.next [7] []) (fun _ _ => true) Net.atTransfer (transferByte 7 ++ closeTransfer)

-- Every byte written is the next byte of the input file, and a receiver that leaves on the client's FIN has
-- written the whole file.
theorem transfer_safe (file outputFilename : Bytes) (n : Net)
    (reached : (Net.transfer file outputFilename).Reachable n) :
    n.server.output = file.take (n.server.expectedSeqNum - 1) ∧
      n.server.output.length = n.server.expectedSeqNum - 1 ∧ 1 ≤ n.server.expectedSeqNum ∧
      (n.server.LeftOnFin → n.server.output = file) := by
  obtain ⟨inv, -⟩ := transfer_inv reached
  have sent := inv.expectedSent
  have inFile := inv.nextInFile
  refine ⟨inv.written, ?_, inv.received.positive, inv.outputComplete⟩
  rw [inv.written, List.length_take]
  omega

theorem transfer_safe_one_byte : ∃ n : Net, (Net.transfer [7] []).Reachable n ∧
    n.server.LeftOnFin ∧ n.server.output = [7] := by
  obtain ⟨n, ran, pc⟩ : ∃ n, runTransfer = some n ∧ decide (n.server.pc = .sendFinAck 2) = true :=
    (Option.any_eq_true ..).mp (by decide)
  have reached : (Net.transfer [7] []).Reachable n :=
    execute_reachableVia (fun _ _ _ => trivial) (.initial rfl) ran
  have left : n.server.LeftOnFin := by simp [Server.State.LeftOnFin, of_decide_eq_true pc]
  exact ⟨n, reached, left, (transfer_safe [7] [] n reached).2.2.2 left⟩

end SystemsSuite.Sham
