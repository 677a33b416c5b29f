import SystemsSuite.Sham.Window

set_option autoImplicit false

namespace SystemsSuite.Sham

open Lib Lib.System

variable {file outputFilename : Bytes} {s : Server.State}

def slotPackets (slot : Server.BufferedPacket) : List ShamPacket :=
  if slot.isValid then [slot.packet] else []

def buffered (s : Server.State) : List ShamPacket := s.packetBuffer.flatMap slotPackets

def payload (packets : List ShamPacket) : Nat := (packets.map fun packet => packet.data.length).sum

def seqNums (packets : List ShamPacket) : List Nat := packets.map fun packet => packet.header.seqNum

theorem slotPackets_set (slots : List Server.BufferedPacket) {i : Nat} (inside : i < slots.length)
    (slot : Server.BufferedPacket) :
    (slotPackets slots[i] ++ (slots.set i slot).flatMap slotPackets).Perm
      (slotPackets slot ++ slots.flatMap slotPackets) := by
  induction slots generalizing i with
  | nil => simp at inside
  | cons first rest ih =>
    cases i with
    | zero =>
      simp only [List.getElem_cons_zero, List.set_cons_zero, List.flatMap_cons]
      rw [← List.append_assoc, ← List.append_assoc]
      exact (List.perm_append_comm).append_right _
    | succ i =>
      have later := ih (Nat.lt_of_succ_lt_succ inside)
      simp only [List.getElem_cons_succ, List.set_cons_succ, List.flatMap_cons]
      have moved := later.append_left (slotPackets first)
      refine List.Perm.trans ?_ (moved.trans ?_)
      · exact List.perm_append_comm_assoc _ _ _
      · exact List.perm_append_comm_assoc _ _ _

theorem buffered_drainSlot {i : Nat} (found : Server.nextBuffered s = some i) :
    (buffered s).Perm ((Server.slotAt s i).packet :: buffered (Server.drainSlot s i)) := by
  obtain ⟨inside, -, -⟩ := List.findIdx?_eq_some_iff_getElem.mp found
  obtain ⟨-, valid, -⟩ := nextBuffered_spec found
  have here : Server.slotAt s i = s.packetBuffer[i] := by
    simp [Server.slotAt, List.getD_eq_getElem?_getD, List.getElem?_eq_getElem inside]
  rw [here] at valid ⊢
  have moved := slotPackets_set s.packetBuffer inside { s.packetBuffer[i] with isValid := false }
  simp only [slotPackets, valid, if_true, Bool.false_eq_true, if_false, List.nil_append,
    List.cons_append] at moved
  unfold buffered Server.drainSlot
  rw [here]
  exact moved.symm

theorem buffered_store {i : Nat} (free : Server.freeSlot s = some i) (packet : ShamPacket) :
    (buffered (Server.store s packet)).Perm (packet :: buffered s) := by
  obtain ⟨inside, invalid, -⟩ := List.findIdx?_eq_some_iff_getElem.mp free
  have empty : s.packetBuffer[i].isValid = false := by simpa using invalid
  have moved := slotPackets_set s.packetBuffer inside ⟨true, packet⟩
  simp only [slotPackets, empty, if_true, Bool.false_eq_true, if_false, List.nil_append,
    List.cons_append] at moved
  simp only [Server.store, free, buffered]
  exact moved

theorem mem_buffered {packet : ShamPacket} (member : packet ∈ buffered s) :
    ∃ slot ∈ s.packetBuffer, slot.isValid = true ∧ slot.packet = packet := by
  obtain ⟨slot, inside, here⟩ := List.mem_flatMap.mp member
  unfold slotPackets at here
  split_ifs at here with valid
  · exact ⟨slot, inside, valid, (List.mem_singleton.mp here).symm⟩
  · simp at here

theorem length_buffered_le (s : Server.State) : (buffered s).length ≤ s.packetBuffer.length := by
  unfold buffered
  induction s.packetBuffer with
  | nil => exact le_rfl
  | cons slot rest ih =>
    simp only [List.flatMap_cons, List.length_append, List.length_cons]
    have one : (slotPackets slot).length ≤ 1 := by
      unfold slotPackets
      split_ifs <;> simp
    omega

theorem payload_perm {left right : List ShamPacket} (perm : left.Perm right) :
    payload left = payload right :=
  (perm.map _).sum_eq

theorem seqNums_perm {left right : List ShamPacket} (perm : left.Perm right) :
    (seqNums left).Perm (seqNums right) :=
  perm.map _

theorem mem_seqNums {packet : ShamPacket} {packets : List ShamPacket} (member : packet ∈ packets) :
    packet.header.seqNum ∈ seqNums packets :=
  List.mem_map.mpr ⟨packet, member, rfl⟩

-- The segments of a file, each whole and with sequence numbers that fit 32 bits.
def DataSegment (file : Bytes) (packet : ShamPacket) : Prop :=
  IsSegment file packet ∧ packet.header.seqNum + packet.data.length < 2 ^ 32

instance (file : Bytes) (packet : ShamPacket) : Decidable (DataSegment file packet) :=
  inferInstanceAs (Decidable ((_ ∧ _ ∧ _ ∧ _ ∧ _) ∧ _))

-- The books of the receiver, at any point of an iteration.
structure Ledger (file : Bytes) (s : Server.State) : Prop where
  room : s.packetBuffer.length = maxBufferedPackets
  counted : s.bytesInBuffer = payload (buffered s)
  ahead : ∀ packet ∈ buffered s, s.expectedSeqNum ≤ packet.header.seqNum
  distinct : (seqNums (buffered s)).Nodup
  segments : ∀ packet ∈ buffered s, DataSegment file packet
  positive : 1 ≤ s.expectedSeqNum
  start : SegmentStart file s.expectedSeqNum

-- And at the end of an iteration, when what could be drained has been.
structure Balanced (file : Bytes) (s : Server.State) : Prop extends Ledger file s where
  later : ∀ packet ∈ buffered s, s.expectedSeqNum < packet.header.seqNum

theorem DataSegment.size {packet : ShamPacket} (segment : DataSegment file packet) :
    packet.data.length = min 1024 (file.length - (packet.header.seqNum - 1)) := by
  rw [segment.1.2.2.2.2, fread_length]

theorem payload_le {packets : List ShamPacket}
    (segments : ∀ packet ∈ packets, DataSegment file packet) : payload packets ≤ packets.length * 1024 := by
  induction packets with
  | nil => exact le_rfl
  | cons packet rest ih =>
    have size := (segments packet (List.mem_cons_self ..)).size
    have fewer := ih fun other member => segments other (List.mem_cons_of_mem _ member)
    simp only [payload, List.map_cons, List.sum_cons, List.length_cons] at fewer ⊢
    omega

theorem Ledger.deliver (ledger : Ledger file s)
    (later : ∀ packet ∈ buffered s, s.expectedSeqNum < packet.header.seqNum) {packet : ShamPacket}
    (segment : DataSegment file packet) (expected : packet.header.seqNum = s.expectedSeqNum) :
    Ledger file (Server.deliver s packet.data) := by
  have size := segment.size
  have positive := ledger.positive
  obtain ⟨⟨_, _, inside, aligned, _⟩, small⟩ := segment
  have next : u32 (s.expectedSeqNum + packet.data.length) = s.expectedSeqNum + packet.data.length :=
    Nat.mod_eq_of_lt (by omega)
  refine ⟨ledger.room, ledger.counted, ?_, ledger.distinct, ledger.segments, ?_, ?_⟩
  · intro other member
    obtain ⟨⟨_, _, inside', aligned', _⟩, _⟩ := ledger.segments other member
    have ahead := later other member
    simp only [Server.deliver, next]
    omega
  · simp only [Server.deliver, next]
    omega
  · simp only [Server.deliver, next, SegmentStart]
    omega

theorem Ledger.drainSlot (ledger : Ledger file s) {i : Nat} (found : Server.nextBuffered s = some i) :
    Ledger file (Server.drainSlot s i) := by
  have perm := buffered_drainSlot found
  obtain ⟨-, -, expected⟩ := nextBuffered_spec found
  have distinct := (seqNums_perm perm).nodup_iff.mp ledger.distinct
  obtain ⟨apart, distinct'⟩ := List.nodup_cons.mp distinct
  have segment := ledger.segments _ (perm.mem_iff.mpr (List.mem_cons_self ..))
  have stays {packet : ShamPacket} (member : packet ∈ buffered (Server.drainSlot s i)) :
      packet ∈ buffered s := perm.mem_iff.mpr (List.mem_cons_of_mem _ member)
  have sum : payload (buffered s) =
      (Server.slotAt s i).packet.data.length + payload (buffered (Server.drainSlot s i)) :=
    payload_perm perm
  -- The slot first leaves the buffer, then its payload is delivered.
  let removed : Server.State := { Server.drainSlot s i with
    expectedSeqNum := s.expectedSeqNum
    output := s.output }
  have left : Ledger file removed := by
    refine ⟨?_, ?_, fun packet member => ledger.ahead packet (stays member), distinct',
      fun packet member => ledger.segments packet (stays member), ledger.positive, ledger.start⟩
    · have room := ledger.room
      simpa [removed, Server.drainSlot] using room
    · have bound := payload_le ledger.segments
      have length := length_buffered_le s
      have room := ledger.room
      have counted := ledger.counted
      have here : removed.bytesInBuffer = Server.sizeT (s.bytesInBuffer +
        (2 ^ 64 - (Server.slotAt s i).packet.data.length)) := rfl
      have same : payload (buffered removed) = payload (buffered (Server.drainSlot s i)) := rfl
      unfold maxBufferedPackets at room
      rw [here, same]
      unfold Server.sizeT
      omega
  refine left.deliver ?_ segment expected
  intro packet member
  have ahead := ledger.ahead packet (stays member)
  have other : packet.header.seqNum ≠ (Server.slotAt s i).packet.header.seqNum := by
    intro same
    have there : packet.header.seqNum ∈ seqNums (buffered (Server.drainSlot s i)) := mem_seqNums member
    rw [same] at there
    exact apart there
  have expectedSame : removed.expectedSeqNum = s.expectedSeqNum := rfl
  omega

theorem Ledger.drain (ledger : Ledger file s) (fuel : Nat) : Ledger file (Server.drain fuel s) := by
  induction fuel generalizing s with
  | zero => exact ledger
  | succ fuel ih =>
    cases found : Server.nextBuffered s with
    | none => simpa [Server.drain, found] using ledger
    | some i =>
      simp only [Server.drain, found]
      exact ih (ledger.drainSlot found)

theorem Ledger.balanced (ledger : Ledger file s) (drained : Server.nextBuffered s = none) :
    Balanced file s where
  toLedger := ledger
  later := by
    intro packet member
    have ahead := ledger.ahead packet member
    obtain ⟨slot, inside, valid, rfl⟩ := mem_buffered member
    have other := List.findIdx?_eq_none_iff.mp drained slot inside
    simp only [valid, Bool.true_and, decide_eq_false_iff_not] at other
    omega

theorem Balanced.store (balanced : Balanced file s) {packet : ShamPacket}
    (segment : DataSegment file packet) (later : s.expectedSeqNum < packet.header.seqNum)
    (fresh : packet.header.seqNum ∉ seqNums (buffered s)) {i : Nat}
    (free : Server.freeSlot s = some i) : Balanced file (Server.store s packet) := by
  have perm := buffered_store free packet
  have from_ {other : ShamPacket} (member : other ∈ buffered (Server.store s packet)) :
      other = packet ∨ other ∈ buffered s := List.mem_cons.mp (perm.mem_iff.mp member)
  have expected := store_expected (s := s) packet
  have segments : ∀ other ∈ buffered (Server.store s packet), DataSegment file other := by
    intro other member
    rcases from_ member with rfl | old
    · exact segment
    · exact balanced.segments other old
  have later' : ∀ other ∈ buffered (Server.store s packet),
      (Server.store s packet).expectedSeqNum < other.header.seqNum := by
    intro other member
    rw [expected]
    rcases from_ member with rfl | old
    · exact later
    · exact balanced.later other old
  refine ⟨⟨?_, ?_, fun other member => (later' other member).le, ?_, segments, ?_, ?_⟩, later'⟩
  · have room := balanced.room
    simpa [Server.store, free] using room
  · have sum : payload (buffered (Server.store s packet)) = packet.data.length + payload (buffered s) :=
      payload_perm perm
    have bound := payload_le segments
    have length := length_buffered_le (Server.store s packet)
    have room : (Server.store s packet).packetBuffer.length = 50 := by
      have before := balanced.room
      unfold maxBufferedPackets at before
      simpa [Server.store, free] using before
    have counted := balanced.counted
    have here : (Server.store s packet).bytesInBuffer =
        Server.sizeT (s.bytesInBuffer + packet.data.length) := by
      simp only [Server.store, free]
    rw [here, sum]
    unfold Server.sizeT
    omega
  · apply (seqNums_perm perm).nodup_iff.mpr
    exact List.nodup_cons.mpr ⟨fresh, balanced.distinct⟩
  · rw [expected]
    exact balanced.positive
  · rw [expected]
    exact balanced.start

-- A segment that has to be buffered is not there yet and finds a free slot.
def Storable (s : Server.State) (packet : ShamPacket) : Prop :=
  s.expectedSeqNum < packet.header.seqNum →
    packet.header.seqNum ∉ seqNums (buffered s) ∧ (Server.freeSlot s).isSome = true

instance (s : Server.State) (packet : ShamPacket) : Decidable (Storable s packet) :=
  inferInstanceAs (Decidable (_ → _ ∧ _))

theorem Balanced.processData (balanced : Balanced file s) {packet : ShamPacket}
    (segment : DataSegment file packet) (storable : Storable s packet) :
    Balanced file (Server.processData s packet) := by
  simp only [Server.processData]
  split_ifs with expected later
  · have delivered := balanced.toLedger.deliver balanced.later segment expected
    apply (delivered.drain _).balanced
    apply drain_complete
    have valid : validCount (Server.deliver s packet.data) ≤ s.packetBuffer.length :=
      List.countP_le_length
    omega
  · obtain ⟨fresh, free⟩ := storable later
    obtain ⟨i, free⟩ := Option.isSome_iff_exists.mp free
    exact balanced.store segment later fresh free
  · exact balanced

structure Feed where
  server : Server.State
  received : List ShamPacket

-- One datagram: a data segment, whether the simulated loss drops it, and unset bytes.
structure Arrival where
  packet : ShamPacket
  drop : Bool
  junk : Junk

namespace Feed

def start : Feed := ⟨Server.initial .receiving, []⟩

def receive (f : Feed) (a : Arrival) : Feed where
  server := (Server.receiveRound f.server a.packet a.drop a.junk).1
  received := if a.drop then f.received else a.packet :: f.received

def next (file : Bytes) (f : Feed) (a : Arrival) : Option Feed :=
  if DataSegment file a.packet then some (f.receive a) else none

def system (file : Bytes) : Lib.System Feed Arrival := .ofNext (· = start) (next file)

-- The arrival is lost, or a segment that can be stored if it has to be.
def Fresh (f : Feed) (a : Arrival) : Prop := a.drop = true ∨ Storable f.server a.packet

end Feed

theorem DataSegment.noFin {packet : ShamPacket} (segment : DataSegment file packet) :
    packet.has shamFin = false := by
  simp [ShamPacket.has, segment.1.1]

theorem Balanced.receiveRound (balanced : Balanced file s) {packet : ShamPacket} {drop : Bool}
    (junk : Junk) (segment : DataSegment file packet) (fresh : drop = true ∨ Storable s packet) :
    Balanced file (Server.receiveRound s packet drop junk).1 := by
  simp only [Server.receiveRound, segment.noFin, Bool.false_eq_true, if_false]
  split_ifs with dropped
  · exact balanced
  · exact balanced.processData segment (fresh.resolve_left dropped)

theorem buffered_initial (pc : Server.Pc) : buffered (Server.initial pc) = [] := by
  apply List.flatMap_eq_nil_iff.mpr
  intro slot member
  rw [List.eq_of_mem_replicate member]
  rfl

theorem Balanced.initial (file : Bytes) (pc : Server.Pc) : Balanced file (Server.initial pc) where
  room := List.length_replicate
  counted := by
    rw [buffered_initial]
    rfl
  ahead := by simp [buffered_initial]
  distinct := by simp [buffered_initial, seqNums]
  segments := by simp [buffered_initial]
  positive := le_rfl
  start := .inl rfl
  later := by simp [buffered_initial]

theorem buffered_received {file : Bytes} {f : Feed} {a : Arrival}
    (known : ∀ packet ∈ buffered f.server, packet ∈ f.received) (segment : DataSegment file a.packet) :
    ∀ packet ∈ buffered (f.receive a).server, packet ∈ (f.receive a).received := by
  have drained (fuel : Nat) (s : Server.State) (known : ∀ packet ∈ buffered s, packet ∈ f.received) :
      ∀ packet ∈ buffered (Server.drain fuel s), packet ∈ f.received := by
    induction fuel generalizing s with
    | zero => exact known
    | succ fuel ih =>
      cases found : Server.nextBuffered s with
      | none => simpa [Server.drain, found] using known
      | some i =>
        simp only [Server.drain, found]
        apply ih
        intro packet member
        exact known packet ((buffered_drainSlot found).mem_iff.mpr (List.mem_cons_of_mem _ member))
  intro packet member
  simp only [Feed.receive, Server.receiveRound, segment.noFin, Bool.false_eq_true, if_false] at member ⊢
  split_ifs at member ⊢ with dropped
  · exact known packet member
  · simp only [Server.processData] at member
    split_ifs at member with expected later
    · exact List.mem_cons_of_mem _ (drained _ (Server.deliver f.server a.packet.data) known packet member)
    · cases free : Server.freeSlot f.server with
      | none =>
        have same : packet ∈ buffered f.server := by simpa [Server.store, free, buffered] using member
        exact List.mem_cons_of_mem _ (known packet same)
      | some i =>
        rcases List.mem_cons.mp ((buffered_store free a.packet).mem_iff.mp member) with rfl | old
        · exact List.mem_cons_self ..
        · exact List.mem_cons_of_mem _ (known packet old)
    · exact List.mem_cons_of_mem _ (known packet member)

-- While no segment arrives that is already buffered, nor one that finds the buffer full, the counter is the
-- payload held, everything held is ahead and held once, and without a gap in what was received the whole buffer is
-- offered.
theorem buffer_balanced (file : Bytes) (f : Feed)
    (reached : (Feed.system file).ReachableVia Feed.Fresh f) :
    f.server.bytesInBuffer = payload (buffered f.server) ∧
      (∀ packet ∈ buffered f.server, f.server.expectedSeqNum < packet.header.seqNum) ∧
      (seqNums (buffered f.server)).Nodup ∧
      ((∀ packet ∈ f.received, packet.header.seqNum < f.server.expectedSeqNum) →
        Server.advertisedWindow f.server = receiverBufferSize) := by
  obtain ⟨balanced, known⟩ : Balanced file f.server ∧
      ∀ packet ∈ buffered f.server, packet ∈ f.received := by
    refine reached.invariant (I := fun f => Balanced file f.server ∧
      ∀ packet ∈ buffered f.server, packet ∈ f.received) ?_ ?_
    · rintro f rfl
      exact ⟨.initial file _, by simp [Feed.start, buffered_initial]⟩
    · rintro f a g ⟨balanced, known⟩ fresh taken
      obtain ⟨segment, same⟩ := Option.ite_none_right_eq_some.mp taken
      obtain rfl := Option.some.inj same
      exact ⟨balanced.receiveRound a.junk segment fresh, buffered_received known segment⟩
  refine ⟨balanced.counted, balanced.later, balanced.distinct, ?_⟩
  intro noGap
  have nothing : buffered f.server = [] := by
    apply List.eq_nil_iff_forall_not_mem.mpr
    intro packet member
    have ahead := balanced.later packet member
    have behind := noGap packet (known packet member)
    omega
  have empty : f.server.bytesInBuffer = 0 := by
    rw [balanced.counted, nothing]
    rfl
  rw [Server.advertisedWindow, empty]
  rfl

def twoSegments : Bytes := List.replicate 1025 7

def arrives (seq : Nat) : Arrival := ⟨original twoSegments seq, false, unset⟩

theorem buffer_balanced_reordered : ∃ f : Feed,
    (Feed.system twoSegments).ReachableVia Feed.Fresh f ∧ (seqNums (buffered f.server)).Nodup ∧
      f.server.bytesInBuffer = payload (buffered f.server) ∧ f.server.bytesInBuffer = 1 := by
  obtain ⟨f, ran, held⟩ : ∃ f, execute (Feed.next twoSegments)
      (fun f a => a.drop || decide (Storable f.server a.packet)) Feed.start [arrives 1025] = some f ∧
      decide (f.server.bytesInBuffer = 1) = true :=
    (Option.any_eq_true ..).mp (by decide +kernel)
  have reached : (Feed.system twoSegments).ReachableVia Feed.Fresh f := by
    refine execute_reachableVia ?_ (.initial rfl) ran
    intro f a checked
    rw [Bool.or_eq_true, decide_eq_true_eq] at checked
    exact checked
  have balanced := buffer_balanced twoSegments f reached
  exact ⟨f, reached, balanced.2.2.1, balanced.1, of_decide_eq_true held⟩

-- The second segment arrives twice before the first: a copy stays in the buffer for good.
theorem duplicate_stays_buffered : ∃ f : Feed, (Feed.system twoSegments).Reachable f ∧
    ¬ (∀ packet ∈ buffered f.server, f.server.expectedSeqNum < packet.header.seqNum) ∧
      (∀ packet ∈ f.received, packet.header.seqNum < f.server.expectedSeqNum) ∧
      Server.advertisedWindow f.server ≠ receiverBufferSize := by
  obtain ⟨f, ran, stale⟩ : ∃ f, execute (Feed.next twoSegments) (fun _ _ => true) Feed.start
      [arrives 1025, arrives 1025, arrives 1] = some f ∧
      decide (¬ (∀ packet ∈ buffered f.server, f.server.expectedSeqNum < packet.header.seqNum) ∧
        (∀ packet ∈ f.received, packet.header.seqNum < f.server.expectedSeqNum) ∧
        Server.advertisedWindow f.server ≠ receiverBufferSize) = true :=
    (Option.any_eq_true ..).mp (by decide +kernel)
  have reached : (Feed.system twoSegments).Reachable f :=
    execute_reachableVia (fun _ _ _ => trivial) (.initial rfl) ran
  exact ⟨f, reached, of_decide_eq_true stale⟩

end SystemsSuite.Sham
