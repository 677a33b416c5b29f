import SystemsSuite.Sham.Accounting

set_option autoImplicit false

namespace SystemsSuite.Sham

open Lib Lib.System

variable {file outputFilename : Bytes} {n : Net} {s : Server.State}

-- The guard of the inner send loop, with `unacknowledged_bytes` as it is set before each test.
def sendGuard (c : Client.State) : Bool :=
  decide (c.nextSeqNum < u32 (c.base + congestionWindowSize * shamDataSize)) &&
    decide (u32 (c.nextSeqNum + (2 ^ 32 - c.base)) < c.serverWindow)

-- An acknowledgement that the transfer loop would act on.
def Changes (c : Client.State) (packet : ShamPacket) : Prop :=
  packet.has shamAck = true ∧ packet.header.ackNum > c.base ∧ packet.header.ackNum > c.lastAcked

-- Everything sent is acknowledged, there is more to send, and nothing will ever let it be sent.
def Wedged (n : Net) : Prop :=
  n.client.base = n.client.nextSeqNum ∧ n.client.fileReadComplete = false ∧
    (∀ packet ∈ n.toClient, ¬ Changes n.client packet) ∧ sendGuard n.client = false

instance (c : Client.State) (packet : ShamPacket) : Decidable (Changes c packet) :=
  inferInstanceAs (Decidable (_ ∧ _ ∧ _))

instance (n : Net) : Decidable (Wedged n) := inferInstanceAs (Decidable (_ ∧ _ ∧ _ ∧ _))

theorem buffered_length_le (balanced : Balanced file s) {base next : Nat} (behind : base ≤ s.expectedSeqNum)
    (span : next ≤ base + 10240) (sent : ∀ packet ∈ buffered s, packet.header.seqNum < next) :
    (buffered s).length ≤ 10 := by
  let index (seq : Nat) : Nat := (seq - 1) / 1024
  have aligned {seq : Nat} (member : seq ∈ seqNums (buffered s)) :
      (seq - 1) % 1024 = 0 ∧ s.expectedSeqNum < seq ∧ seq < next := by
    obtain ⟨packet, inside, rfl⟩ := List.mem_map.mp member
    exact ⟨(balanced.segments packet inside).1.2.2.2.1, balanced.later packet inside, sent packet inside⟩
  have distinct : ((seqNums (buffered s)).map index).Nodup := by
    apply List.Nodup.map_on _ balanced.distinct
    intro left leftIn right rightIn same
    have l := aligned leftIn
    have r := aligned rightIn
    simp only [index] at same
    omega
  have inside : (seqNums (buffered s)).map index ⊆
      List.range' ((s.expectedSeqNum - 1) / 1024 + 1) 10 := by
    intro k member
    obtain ⟨seq, isSeq, rfl⟩ := List.mem_map.mp member
    obtain ⟨start, later, before⟩ := aligned isSeq
    have positive := balanced.positive
    rw [List.mem_range'_1]
    simp only [index]
    omega
  have fewer := (List.subperm_of_subset distinct inside).length_le
  simpa [seqNums] using fewer

theorem freeSlot_isSome (fewer : (buffered s).length < s.packetBuffer.length) :
    (Server.freeSlot s).isSome = true := by
  by_contra none
  have full := List.findIdx?_eq_none_iff.mp (Option.not_isSome_iff_eq_none.mp none)
  have all (slots : List Server.BufferedPacket) (valid : ∀ slot ∈ slots, (!slot.isValid) = false) :
      (slots.flatMap slotPackets).length = slots.length := by
    induction slots with
    | nil => rfl
    | cons slot rest ih =>
      have here := valid slot (List.mem_cons_self ..)
      have rest := ih fun other member => valid other (List.mem_cons_of_mem _ member)
      simp only [Bool.not_eq_false'] at here
      simp [slotPackets, here, rest]
  have length : (buffered s).length = s.packetBuffer.length := all s.packetBuffer full
  omega

theorem advertisedWindow_ge (balanced : Balanced file s) (fewer : (buffered s).length ≤ 10) :
    10240 ≤ Server.advertisedWindow s := by
  have held := payload_le balanced.segments
  have counted := balanced.counted
  unfold Server.advertisedWindow receiverBufferSize
  split_ifs <;> omega

-- No segment that is already in the out-of-order buffer is taken again.
def NoDuplicate (n : Net) : Label → Prop
  | .server input => n.server.pc = .receiving → input.drop = false →
      ∀ packet, input.received = some packet → n.server.expectedSeqNum < packet.header.seqNum →
        packet.header.seqNum ∉ seqNums (buffered n.server)
  | .client _ => True

def noDuplicateCheck (n : Net) : Label → Bool
  | .server input => input.drop || input.received.all fun packet =>
      decide (packet.header.seqNum ≤ n.server.expectedSeqNum ∨
        packet.header.seqNum ∉ seqNums (buffered n.server))
  | .client _ => true

theorem noDuplicateCheck_sound (n : Net) (l : Label) (checked : noDuplicateCheck n l = true) :
    NoDuplicate n l := by
  cases l with
  | client input => trivial
  | server input =>
    intro _ kept packet arrived later
    simp only [noDuplicateCheck, kept, arrived, Bool.false_or, Option.all_some, decide_eq_true_eq] at checked
    exact checked.resolve_left (Nat.not_le.mpr later)

-- The books of the receiver and the window sizes in flight, until the file has been sent.
structure Flow (file : Bytes) (n : Net) : Prop where
  balanced : Balanced file n.server
  sent : ∀ packet ∈ buffered n.server, packet.header.seqNum < n.client.nextSeqNum
  arriving : ∀ packet ∈ n.toServer, IsSegment file packet
  offered : ∀ packet ∈ n.toClient, packet.has shamAck = true → 10240 ≤ packet.header.windowSize
  granted : 10240 ≤ n.client.serverWindow
  open_ : ¬ n.server.LeftOnFin

-- While the client has not left its transfer loop; afterwards the file has been read.
def Flowing (file : Bytes) (n : Net) : Prop :=
  (¬ n.client.Closing ∧ Flow file n) ∨ (n.client.Closing ∧ n.client.fileReadComplete = true)

theorem Transferring.segment (before : Transferring file n) (flow : Flow file n) {packet : ShamPacket}
    (member : packet ∈ n.toServer) :
    DataSegment file packet ∧ packet.header.seqNum < n.client.nextSeqNum := by
  have segment := flow.arriving packet member
  have small := before.inv.limitSmall
  rcases before.inv.segments packet member with ⟨_, within⟩ | empty | zero
  · have size := fread_length file (packet.header.seqNum - 1)
    obtain ⟨_, one, inside, _, data⟩ := id segment
    rw [← data] at size
    exact ⟨⟨segment, by omega⟩, by omega⟩
  · have size := fread_length file (packet.header.seqNum - 1)
    obtain ⟨_, one, inside, _, data⟩ := segment
    rw [← data, empty] at size
    simp only [List.length_nil] at size
    omega
  · have one := segment.2.1
    omega

theorem sent_processData {limit : Nat} {packet : ShamPacket} (here : packet.header.seqNum < limit)
    (sent : ∀ other ∈ buffered s, other.header.seqNum < limit) :
    ∀ other ∈ buffered (Server.processData s packet), other.header.seqNum < limit := by
  have drained (fuel : Nat) (s : Server.State) (sent : ∀ other ∈ buffered s, other.header.seqNum < limit) :
      ∀ other ∈ buffered (Server.drain fuel s), other.header.seqNum < limit := by
    induction fuel generalizing s with
    | zero => exact sent
    | succ fuel ih =>
      cases found : Server.nextBuffered s with
      | none => simpa [Server.drain, found] using sent
      | some i =>
        simp only [Server.drain, found]
        apply ih
        intro other member
        exact sent other ((buffered_drainSlot found).mem_iff.mpr (List.mem_cons_of_mem _ member))
  simp only [Server.processData]
  split_ifs
  · exact drained _ (Server.deliver s packet.data) sent
  · cases free : Server.freeSlot s with
    | none => simpa [Server.store, free, buffered] using sent
    | some i =>
      intro other member
      rcases List.mem_cons.mp ((buffered_store free packet).mem_iff.mp member) with rfl | old
      · exact here
      · exact sent other old
  · exact sent

theorem serverStep_flow (before : Transferring file n) (flow : Flow file n) (input : Server.Input)
    (fresh : NoDuplicate n (.server input))
    (delivered : ∀ packet, input.received = some packet → packet ∈ n.toServer) :
    Flow file (Net.serverStep n input) := by
  have staying := flow.open_
  have same (pc : Server.Pc) (open_ : ¬ ({ n.server with pc := pc } : Server.State).LeftOnFin)
      (stepped : Server.step n.server input = ({ n.server with pc := pc }, [])) :
      Flow file (Net.serverStep n input) := by
    unfold Net.serverStep
    rw [stepped]
    exact ⟨⟨⟨flow.balanced.room, flow.balanced.counted, flow.balanced.ahead, flow.balanced.distinct,
      flow.balanced.segments, flow.balanced.positive, flow.balanced.start⟩, flow.balanced.later⟩,
      flow.sent, flow.arriving, flow.offered, flow.granted, open_⟩
  have past := before.inside.2
  cases at_ : n.server.pc with
  | listen => simp [at_, Server.Pc.pastHandshake] at past
  | awaitAck => simp [at_, Server.Pc.pastHandshake] at past
  | awaitFilename => simp [at_, Server.Pc.pastHandshake] at past
  | sendFinAck seq => simp [at_, Server.State.LeftOnFin] at staying
  | sendFin => simp [at_, Server.State.LeftOnFin] at staying
  | awaitFinalAck tries => simp [at_, Server.State.LeftOnFin] at staying
  | exited =>
    refine same .exited (fun left => left) ?_
    simp only [Server.step, at_]
    rw [← at_]
  | receiving =>
    cases arrived : input.received with
    | none =>
      refine same .exited (fun left => left) ?_
      simp only [Server.step, at_, arrived]
    | some packet =>
      obtain ⟨segment, below⟩ := before.segment flow (delivered packet arrived)
      have stepped : Server.step n.server input =
          Server.receiveRound n.server packet input.drop input.junk := by
        simp [Server.step, at_, arrived]
      unfold Net.serverStep
      rw [stepped]
      simp only [Server.receiveRound, segment.noFin, Bool.false_eq_true, if_false]
      split_ifs with dropped
      · exact flow
      · have behind := before.inv.baseAcked
        have span := before.windowed.span
        have few := buffered_length_le flow.balanced behind span flow.sent
        have room := flow.balanced.room
        have storable : Storable n.server packet := fun later =>
          ⟨fresh at_ (by simpa using dropped) packet arrived later,
            freeSlot_isSome (by unfold maxBufferedPackets at room; omega)⟩
        have balanced := flow.balanced.processData segment storable
        have sent := sent_processData below flow.sent
        have grown := before.inv.received.processData before.inv.limitSmall before.inv.nextInFile
          (before.inv.segments packet (delivered packet arrived))
        have few' := buffered_length_le balanced (behind.trans grown.2) span sent
        refine ⟨balanced, sent, flow.arriving, ?_, flow.granted, ?_⟩
        · intro ack member isAck
          rcases List.mem_append.mp member with new | old
          · obtain rfl := List.mem_singleton.mp new
            exact advertisedWindow_ge balanced few'
          · exact flow.offered ack old isAck
        · intro left
          simp [Server.State.LeftOnFin, processData_pc, at_] at left

theorem Flow.client (flow : Flow file n) {after : Client.State} {sent : List ShamPacket}
    (grown : n.client.nextSeqNum ≤ after.nextSeqNum) (segments : ∀ packet ∈ sent, IsSegment file packet)
    (granted : 10240 ≤ after.serverWindow) :
    Flow file { n with client := after, toServer := sent ++ n.toServer } where
  balanced := flow.balanced
  sent packet member := (flow.sent packet member).trans_le grown
  arriving := by
    intro packet member
    rcases List.mem_append.mp member with new | old
    · exact segments packet new
    · exact flow.arriving packet old
  offered := flow.offered
  granted := granted
  open_ := flow.open_

theorem Flow.quiet (flow : Flow file n) {after : Client.State}
    (grown : n.client.nextSeqNum ≤ after.nextSeqNum) (granted : 10240 ≤ after.serverWindow) :
    Flow file { n with client := after } where
  balanced := flow.balanced
  sent packet member := (flow.sent packet member).trans_le grown
  arriving := flow.arriving
  offered := flow.offered
  granted := granted
  open_ := flow.open_

theorem sendRound_flow (before : Transferring file n) (flow : Flow file n) :
    Flow file { n with
      client := (Client.sendRound file n.client).1
      toServer := (Client.sendRound file n.client).2 ++ n.toServer } := by
  simp only [Client.sendRound]
  split_ifs with allowed more
  · have facts := before.inv.sending before.windowed.start allowed more
    have behind := before.inv.baseSent
    have positive := before.inv.basePositive
    rw [facts.next]
    refine flow.client (Nat.le_add_right _ _) ?_ flow.granted
    intro packet new
    obtain rfl := List.mem_singleton.mp new
    exact ⟨rfl, positive.trans behind, facts.more, facts.aligned, facts.read⟩
  · exact flow.quiet le_rfl flow.granted
  · exact flow.quiet le_rfl flow.granted

theorem scanSlot_flow (before : Transferring file n) (flow : Flow file n) (i : Nat) (timedOut : Bool)
    (pc : Client.Pc) :
    Flow file { n with
      client := { (Client.scanSlot n.client i timedOut).1 with pc := pc }
      toServer := (Client.scanSlot n.client i timedOut).2 ++ n.toServer } := by
  simp only [Client.scanSlot]
  split_ifs with acknowledged late
  · exact flow.quiet le_rfl flow.granted
  · refine flow.client le_rfl ?_ flow.granted
    intro packet new
    obtain rfl := List.mem_singleton.mp new
    simp only [Bool.and_eq_true] at late
    obtain ⟨seq, one, sent, aligned, -, same⟩ := before.windowed.originals i late.1
    have start := before.inv.nextStart
    have inFile := before.inv.nextInFile
    rw [same]
    exact ⟨rfl, one, by simp only [original, Client.segment]; omega, aligned, rfl⟩
  · exact flow.quiet le_rfl flow.granted

theorem receiving_flow (flow : Flow file n) (packet : ShamPacket) (member : packet ∈ n.toClient) :
    Flow file { n with client := { Client.processAck n.client packet with pc := .scanning 0 } } := by
  simp only [Client.processAck]
  split_ifs with accepted
  · exact flow.quiet le_rfl (flow.offered packet member accepted.1)
  · exact flow.quiet le_rfl flow.granted

theorem Flow.flowing {after : Client.State} {toServer : List ShamPacket}
    (flow : Flow file { n with client := after, toServer := toServer }) (staying : ¬ after.Closing) :
    Flowing file { n with client := after, toServer := toServer } :=
  .inl ⟨staying, flow⟩

theorem sendRound_staying (file : Bytes) (c : Client.State) (sending : c.pc = .sending) :
    ¬ (Client.sendRound file c).1.Closing := by
  simp only [Client.sendRound]
  split_ifs <;> simp [Client.State.Closing, sending]

theorem clientStep_flowing (before : Transferring file n) (flow : Flow file n) (input : Client.Input)
    (staying : ¬ n.client.Closing)
    (delivered : ∀ packet, input.received = some packet → packet ∈ n.toClient) :
    Flowing file (Net.clientStep file outputFilename n input) := by
  obtain ⟨received, timedOut, junk⟩ := input
  have handshake := before.inside.1
  have move (pc : Client.Pc) (budget : Nat)
      (staying : ¬ ({ n.client with pc := pc, unacknowledgedBytes := budget } : Client.State).Closing) :
      Flowing file { n with client := { n.client with pc := pc, unacknowledgedBytes := budget } } :=
    .inl ⟨staying, flow.quiet le_rfl flow.granted⟩
  have stepped : Net.clientStep file outputFilename n ⟨received, timedOut, junk⟩ = { n with
      client := (Client.step file outputFilename n.client ⟨received, timedOut, junk⟩).1
      toServer := (Client.step file outputFilename n.client ⟨received, timedOut, junk⟩).2 ++ n.toServer } :=
    rfl
  rw [stepped]
  cases at_ : n.client.pc with
  | start => simp [at_, Client.Pc.pastHandshake] at handshake
  | awaitSynAck => simp [at_, Client.Pc.pastHandshake] at handshake
  | awaitFilenameAck => simp [at_, Client.Pc.pastHandshake] at handshake
  | loopHead =>
    simp only [Client.step, at_]
    split_ifs
    · refine move .sending (u32 (n.client.nextSeqNum + (2 ^ 32 - n.client.base))) ?_
      simp [Client.State.Closing]
    · exact move (.finalWait 0) n.client.unacknowledgedBytes (by simp [Client.State.Closing])
  | sending =>
    simp only [Client.step, at_]
    exact (sendRound_flow before flow).flowing (sendRound_staying file n.client at_)
  | receiving =>
    cases received with
    | none =>
      simp only [Client.step, at_]
      exact move (.scanning 0) n.client.unacknowledgedBytes (by simp [Client.State.Closing])
    | some packet =>
      simp only [Client.step, at_]
      exact (receiving_flow flow packet (delivered packet rfl)).flowing (by simp [Client.State.Closing])
  | scanning i =>
    simp only [Client.step, at_]
    split_ifs
    · exact (scanSlot_flow before flow i timedOut _).flowing (by simp [Client.State.Closing])
    · exact move .loopHead n.client.unacknowledgedBytes (by simp [Client.State.Closing])
  | finalWait k =>
    have waited := before.inv.waiting k at_
    have done : ¬ (n.client.base < n.client.nextSeqNum ∧ k < 5000) := by omega
    simp only [Client.step, at_, done, if_false]
    exact .inr ⟨trivial, waited.1⟩
  | awaitFinAck tries => simp [Client.State.Closing, at_] at staying
  | awaitServerFin tries => simp [Client.State.Closing, at_] at staying
  | exited => simp [Client.State.Closing, at_] at staying

theorem clientStep_closing (file outputFilename : Bytes) (c : Client.State) (input : Client.Input) (closing : c.Closing) :
    (Client.step file outputFilename c input).1.Closing ∧
      (Client.step file outputFilename c input).1.fileReadComplete = c.fileReadComplete := by
  cases at_ : c.pc with
  | awaitFinAck tries =>
    simp only [Client.step, at_]
    split_ifs <;> exact ⟨trivial, rfl⟩
  | awaitServerFin tries =>
    simp only [Client.step, at_]
    split_ifs
    · cases input.received with
      | none => exact ⟨trivial, rfl⟩
      | some packet =>
        simp only
        split_ifs <;> exact ⟨trivial, rfl⟩
    · exact ⟨trivial, rfl⟩
  | exited => simpa [Client.step, at_] using closing
  | _ => simp [Client.State.Closing, at_] at closing

theorem Flowing.step {m : Net} {l : Label} (before : Transferring file n) (flowing : Flowing file n)
    (fresh : NoDuplicate n l) (taken : Net.next file outputFilename n l = some m) : Flowing file m := by
  cases l with
  | client input =>
    obtain ⟨delivered, rfl⟩ := Net.next_client taken
    rcases flowing with ⟨staying, flow⟩ | ⟨closing, complete⟩
    · exact clientStep_flowing before flow input staying delivered
    · have moved := clientStep_closing file outputFilename n.client input closing
      exact .inr ⟨moved.1, moved.2.trans complete⟩
  | server input =>
    obtain ⟨delivered, rfl⟩ := Net.next_server taken
    rcases flowing with ⟨staying, flow⟩ | closed
    · exact .inl ⟨staying, serverStep_flow before flow input fresh delivered⟩
    · exact .inr closed

theorem Flowing.start (file : Bytes) : Flowing file Net.atTransfer := by
  refine .inl ⟨by simp [Client.State.Closing, Net.atTransfer, Client.initial], ?_⟩
  exact ⟨.initial file _, by simp [Net.atTransfer, buffered_initial], by simp [Net.atTransfer],
    by simp [Net.atTransfer], by simp [Net.atTransfer, Client.initial],
    by simp [Net.atTransfer, Server.initial, Server.State.LeftOnFin]⟩

-- The transfer never wedges on a file whose sequence numbers leave room for a window below 2^32, as long as the
-- receiver takes no segment again that it already holds out of order.
theorem never_wedged (file outputFilename : Bytes) (small : file.length + 10241 < 2 ^ 32) (n : Net)
    (reached : (Net.transfer file outputFilename).ReachableVia NoDuplicate n) : ¬ Wedged n := by
  obtain ⟨before, flowing⟩ : Transferring file n ∧ Flowing file n := by
    refine reached.invariant (I := fun n => Transferring file n ∧ Flowing file n) ?_ ?_
    · rintro n rfl
      exact ⟨.start file, .start file⟩
    · exact fun n l m before fresh taken =>
        ⟨before.1.step taken, before.2.step before.1 fresh taken⟩
  rintro ⟨acked, more, -, blocked⟩
  rcases flowing with ⟨-, flow⟩ | ⟨-, complete⟩
  · have granted := flow.granted
    have inFile := before.inv.nextInFile
    have open_ : sendGuard n.client = true := by
      rw [sendGuard, Bool.and_eq_true, decide_eq_true_eq, decide_eq_true_eq]
      simp only [congestionWindowSize, shamDataSize, u32]
      constructor <;> omega
    rw [open_] at blocked
    contradiction
  · rw [complete] at more
    contradiction

def tenSegments : Bytes := List.replicate 10241 7

def sendsAll : List Label := List.replicate 12 clientRuns

def serverGetsSegment (file : Bytes) (seq : Nat) : Label := serverGets (original file seq)

theorem never_wedged_reordered : ∃ n : Net,
    (Net.transfer twoSegments []).ReachableVia NoDuplicate n ∧ ¬ Wedged n ∧
      n.server.bytesInBuffer = 1 := by
  obtain ⟨n, ran, held⟩ : ∃ n, execute (Net.next twoSegments []) noDuplicateCheck Net.atTransfer
      [clientRuns, clientRuns, clientRuns, serverGetsSegment twoSegments 1025] = some n ∧
      decide (n.server.bytesInBuffer = 1) = true :=
    (Option.any_eq_true ..).mp (by decide +kernel)
  have reached : (Net.transfer twoSegments []).ReachableVia NoDuplicate n :=
    execute_reachableVia noDuplicateCheck_sound (.initial rfl) ran
  have small : twoSegments.length + 10241 < 2 ^ 32 := by
    rw [twoSegments, List.length_replicate]
    decide
  exact ⟨n, reached, never_wedged twoSegments [] small n reached, of_decide_eq_true held⟩

-- The second of eleven segments arrives 21 times before the first: the buffer looks full for good.
theorem duplicates_wedge : ∃ n : Net, (Net.transfer tenSegments []).Reachable n ∧ Wedged n := by
  obtain ⟨n, ran, stuck⟩ : ∃ n, execute (Net.next tenSegments []) (fun _ _ => true) Net.atTransfer
      (sendsAll ++ List.replicate 21 (serverGetsSegment tenSegments 1025) ++
        [serverGetsSegment tenSegments 1] ++
        ((List.range 8).map fun i => serverGetsSegment tenSegments (2049 + i * 1024)) ++
        [clientGets ⟨⟨0, 10241, shamAck, 0⟩, []⟩]) = some n ∧
      decide (Wedged n) = true :=
    (Option.any_eq_true ..).mp (by decide +kernel)
  have reached : (Net.transfer tenSegments []).Reachable n :=
    execute_reachableVia (fun _ _ _ => trivial) (.initial rfl) ran
  exact ⟨n, reached, of_decide_eq_true stuck⟩

end SystemsSuite.Sham
