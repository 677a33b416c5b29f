import SystemsSuite.Sham.TransferSafety

set_option autoImplicit false

namespace SystemsSuite.Sham

open Lib Lib.System

variable {file outputFilename : Bytes} {n : Net}

-- The segment the client first sent with this sequence number.
def original (file : Bytes) (seqNum : Nat) : ShamPacket :=
  Client.segment seqNum (Client.fread file (seqNum - 1))

def Client.State.AllSent (file : Bytes) (c : Client.State) : Prop := c.nextSeqNum = file.length + 1

-- A number of bytes that counts whole segments, as long as there is data left to send.
def Whole (file : Bytes) (n : Net) (bytes : Nat) : Prop :=
  bytes % 1024 = 0 ∨ n.client.AllSent file

-- The slots of the sender, and the window sizes that limit it.
structure Windowed (file : Bytes) (n : Net) : Prop where
  start : SegmentStart file n.client.base
  held : ∀ seq, n.client.base ≤ seq → seq < n.client.nextSeqNum → (seq - 1) % 1024 = 0 →
    n.client.windowBuffer (Client.bufferIndex seq) = ⟨true, original file seq⟩
  span : n.client.nextSeqNum ≤ n.client.base + 10240
  originals : ∀ i, (n.client.windowBuffer i).isValid = true → ∃ seq, 1 ≤ seq ∧
    seq < n.client.nextSeqNum ∧ (seq - 1) % 1024 = 0 ∧ Client.bufferIndex seq = i ∧
      (n.client.windowBuffer i).packet = original file seq
  budget : n.client.pc = .sending → n.client.unacknowledgedBytes = n.client.nextSeqNum - n.client.base
  granted : n.client.serverWindow = 65535 ∨ Whole file n n.client.serverWindow
  counted : Whole file n n.server.bytesInBuffer
  slots : ∀ slot ∈ n.server.packetBuffer, slot.isValid = true → Whole file n slot.packet.data.length
  arriving : ∀ packet ∈ n.toServer, Whole file n packet.data.length
  offered : ∀ packet ∈ n.toClient, packet.has shamAck = true → Whole file n packet.header.windowSize

theorem advertisedWindow_whole {s : Server.State} (counted : Whole file n s.bytesInBuffer) :
    Whole file n (Server.advertisedWindow s) := by
  rcases counted with aligned | done
  · left
    unfold Server.advertisedWindow receiverBufferSize
    split_ifs <;> omega
  · exact .inr done

structure SizesWhole (file : Bytes) (n : Net) (s : Server.State) : Prop where
  counted : Whole file n s.bytesInBuffer
  slots : ∀ slot ∈ s.packetBuffer, slot.isValid = true → Whole file n slot.packet.data.length

variable {s : Server.State}

theorem SizesWhole.deliver (sizes : SizesWhole file n s) (data : Bytes) :
    SizesWhole file n (Server.deliver s data) :=
  ⟨sizes.counted, sizes.slots⟩

theorem Whole.add {x y : Nat} (left : Whole file n x) (right : Whole file n y) :
    Whole file n (Server.sizeT (x + y)) := by
  rcases left with aligned | done
  · rcases right with aligned' | done
    · left
      simp only [Server.sizeT]
      omega
    · exact .inr done
  · exact .inr done

theorem Whole.neg {x : Nat} (whole : Whole file n x) : Whole file n (2 ^ 64 - x) := by
  refine whole.imp_left fun aligned => ?_
  omega

theorem SizesWhole.drainSlot (sizes : SizesWhole file n s) {i : Nat}
    (found : Server.nextBuffered s = some i) : SizesWhole file n (Server.drainSlot s i) := by
  obtain ⟨member, valid, -⟩ := nextBuffered_spec found
  have size := sizes.slots _ member valid
  refine ⟨sizes.counted.add size.neg, ?_⟩
  intro slot inside isValid
  rcases List.mem_or_eq_of_mem_set inside with old | rfl
  · exact sizes.slots slot old isValid
  · simp at isValid

theorem SizesWhole.drain (sizes : SizesWhole file n s) (fuel : Nat) :
    SizesWhole file n (Server.drain fuel s) := by
  induction fuel generalizing s with
  | zero => exact sizes
  | succ fuel ih =>
    cases found : Server.nextBuffered s with
    | none => simpa [Server.drain, found] using sizes
    | some i =>
      simp only [Server.drain, found]
      exact ih (sizes.drainSlot found)

theorem SizesWhole.store (sizes : SizesWhole file n s) {packet : ShamPacket}
    (size : Whole file n packet.data.length) : SizesWhole file n (Server.store s packet) := by
  have counted := sizes.counted.add size
  cases free : Server.freeSlot s with
  | none => simpa [Server.store, free] using (⟨counted, sizes.slots⟩ : SizesWhole file n { s with
      bytesInBuffer := Server.sizeT (s.bytesInBuffer + packet.data.length) })
  | some i =>
    simp only [Server.store, free]
    refine ⟨counted, ?_⟩
    intro slot inside isValid
    rcases List.mem_or_eq_of_mem_set inside with old | rfl
    · exact sizes.slots slot old isValid
    · exact size

theorem SizesWhole.processData (sizes : SizesWhole file n s) {packet : ShamPacket}
    (size : Whole file n packet.data.length) : SizesWhole file n (Server.processData s packet) := by
  simp only [Server.processData]
  split_ifs
  · exact (sizes.deliver packet.data).drain _
  · exact sizes.store size
  · exact sizes

theorem receiveRound_whole (sizes : SizesWhole file n s) (drop : Bool) (junk : Junk)
    {packet : ShamPacket} (size : Whole file n packet.data.length) :
    SizesWhole file n (Server.receiveRound s packet drop junk).1 ∧
      ∀ ack ∈ (Server.receiveRound s packet drop junk).2, ack.has shamAck = true →
        Whole file n ack.header.windowSize := by
  have processed := sizes.processData size
  simp only [Server.receiveRound]
  split_ifs
  · exact ⟨⟨sizes.counted, sizes.slots⟩, by simp⟩
  · exact ⟨sizes, by simp⟩
  · refine ⟨processed, ?_⟩
    intro ack new _
    obtain rfl := List.mem_singleton.mp new
    exact advertisedWindow_whole processed.counted

theorem Windowed.server (windowed : Windowed file n) {after : Server.State} {sent : List ShamPacket}
    (sizes : SizesWhole file n after)
    (offered : ∀ packet ∈ sent, packet.has shamAck = true → Whole file n packet.header.windowSize) :
    Windowed file { n with server := after, toClient := sent ++ n.toClient } where
  start := windowed.start
  held := windowed.held
  span := windowed.span
  originals := windowed.originals
  budget := windowed.budget
  granted := windowed.granted
  counted := sizes.counted
  slots := sizes.slots
  arriving := windowed.arriving
  offered := by
    intro packet member isAck
    rcases List.mem_append.mp member with new | old
    · exact offered packet new isAck
    · exact windowed.offered packet old isAck

def Client.Pc.pastHandshake : Client.Pc → Bool
  | .start | .awaitSynAck | .awaitFilenameAck => false
  | _ => true

def Server.Pc.pastHandshake : Server.Pc → Bool
  | .listen | .awaitAck | .awaitFilename => false
  | _ => true

def Net.InTransfer (n : Net) : Prop :=
  n.client.pc.pastHandshake = true ∧ n.server.pc.pastHandshake = true

theorem sendRound_pastHandshake (c : Client.State) (past : c.pc.pastHandshake = true) :
    (Client.sendRound file c).1.pc.pastHandshake = true := by
  unfold Client.sendRound
  by_cases allowed : Client.mayRead c = true
  · rw [if_pos allowed]
    by_cases more : 0 < (Client.fread file c.filePos).length
    · simpa [more] using past
    · simp [more, Client.Pc.pastHandshake]
  · rw [if_neg allowed]
    rfl

theorem finalWaitRound_pastHandshake (c : Client.State) (waitCount : Nat) (received : Option ShamPacket)
    (past : c.pc.pastHandshake = true) :
    (Client.finalWaitRound c waitCount received).pc.pastHandshake = true := by
  cases received with
  | none => rfl
  | some packet =>
    by_cases isAck : packet.has shamAck = true
    · simpa [Client.finalWaitRound, isAck] using past
    · simp [Client.finalWaitRound, isAck, Client.Pc.pastHandshake]

theorem clientStep_pastHandshake (c : Client.State) (input : Client.Input)
    (past : c.pc.pastHandshake = true) :
    (Client.step file outputFilename c input).1.pc.pastHandshake = true := by
  cases at_ : c.pc with
  | start => simp [at_, Client.Pc.pastHandshake] at past
  | awaitSynAck => simp [at_, Client.Pc.pastHandshake] at past
  | awaitFilenameAck => simp [at_, Client.Pc.pastHandshake] at past
  | loopHead =>
    simp only [Client.step, at_]
    split_ifs <;> rfl
  | sending =>
    simp only [Client.step, at_]
    exact sendRound_pastHandshake c past
  | receiving =>
    simp only [Client.step, at_]
    cases input.received <;> rfl
  | scanning i =>
    simp only [Client.step, at_]
    split_ifs <;> rfl
  | finalWait waitCount =>
    simp only [Client.step, at_]
    split_ifs
    · exact finalWaitRound_pastHandshake c waitCount input.received past
    · rfl
  | awaitFinAck tries =>
    simp only [Client.step, at_]
    split_ifs <;> rfl
  | awaitServerFin tries =>
    simp only [Client.step, at_]
    split_ifs
    · cases input.received with
      | none => rfl
      | some packet =>
        simp only
        split_ifs <;> rfl
    · rfl
  | exited => simpa [Client.step, at_] using past

theorem receiveRound_pastHandshake (past : s.pc.pastHandshake = true) (packet : ShamPacket) (drop : Bool)
    (junk : Junk) : (Server.receiveRound s packet drop junk).1.pc.pastHandshake = true := by
  simp only [Server.receiveRound]
  split_ifs
  · rfl
  · exact past
  · rw [processData_pc]
    exact past

theorem serverStep_pastHandshake (s : Server.State) (input : Server.Input)
    (past : s.pc.pastHandshake = true) : (Server.step s input).1.pc.pastHandshake = true := by
  fun_cases Server.step s input <;>
    first
      | simp_all [Server.Pc.pastHandshake]; done
      | exact receiveRound_pastHandshake past _ _ _

theorem Net.InTransfer.step {m : Net} {l : Label} (inside : n.InTransfer)
    (taken : Net.next file outputFilename n l = some m) : m.InTransfer := by
  cases l with
  | client input =>
    obtain ⟨-, rfl⟩ := Net.next_client taken
    exact ⟨clientStep_pastHandshake n.client input inside.1, inside.2⟩
  | server input =>
    obtain ⟨-, rfl⟩ := Net.next_server taken
    exact ⟨inside.1, serverStep_pastHandshake n.server input inside.2⟩

theorem serverStep_sizes (input : Server.Input) (away : s.pc ≠ .receiving)
    (sizes : SizesWhole file n s) : SizesWhole file n (Server.step s input).1 := by
  fun_cases Server.step s input <;> first | exact absurd ‹_› away | exact ⟨sizes.counted, sizes.slots⟩

theorem serverStep_quiet (input : Server.Input) (past : s.pc.pastHandshake = true)
    (away : s.pc ≠ .receiving) (staying : ¬ s.LeftOnFin) : (Server.step s input).2 = [] := by
  fun_cases Server.step s input <;> simp_all [Server.Pc.pastHandshake, Server.State.LeftOnFin]

theorem serverStep_windowed (windowed : Windowed file n) (inv : Inv file n) (inside : n.InTransfer)
    (input : Server.Input) (delivered : ∀ packet, input.received = some packet → packet ∈ n.toServer) :
    Windowed file (Net.serverStep n input) := by
  have sizes : SizesWhole file n n.server := ⟨windowed.counted, windowed.slots⟩
  have built (sizes : SizesWhole file n (Server.step n.server input).1)
      (offered : ∀ packet ∈ (Server.step n.server input).2, packet.has shamAck = true →
        Whole file n packet.header.windowSize) : Windowed file (Net.serverStep n input) :=
    windowed.server sizes offered
  by_cases receiving : n.server.pc = .receiving
  · cases arrived : input.received with
    | none =>
      have stepped : Server.step n.server input = ({ n.server with pc := .exited }, []) := by
        simp [Server.step, receiving, arrived]
      rw [stepped] at built
      exact built ⟨sizes.counted, sizes.slots⟩ (by simp)
    | some packet =>
      have stepped : Server.step n.server input =
          Server.receiveRound n.server packet input.drop input.junk := by
        simp [Server.step, receiving, arrived]
      have round := receiveRound_whole sizes input.drop input.junk
        (windowed.arriving packet (delivered packet arrived))
      rw [stepped] at built
      exact built round.1 round.2
  · refine built (serverStep_sizes input receiving sizes) ?_
    intro packet member _
    by_cases left : n.server.LeftOnFin
    · obtain ⟨-, complete, -⟩ := inv.left left
      exact .inr (inv.complete complete)
    · rw [serverStep_quiet input inside.2 receiving left] at member
      contradiction

theorem Whole.grow {after : Client.State} {bytes : Nat} (whole : Whole file n bytes)
    (allSent : n.client.AllSent file → after.AllSent file) (toServer : List ShamPacket) :
    Whole file { n with client := after, toServer := toServer } bytes :=
  whole.imp_right allSent

theorem Windowed.client (windowed : Windowed file n) {after : Client.State} (sent : List ShamPacket)
    (start : SegmentStart file after.base)
    (held : ∀ seq, after.base ≤ seq → seq < after.nextSeqNum → (seq - 1) % 1024 = 0 →
      after.windowBuffer (Client.bufferIndex seq) = ⟨true, original file seq⟩)
    (span : after.nextSeqNum ≤ after.base + 10240)
    (originals : ∀ i, (after.windowBuffer i).isValid = true → ∃ seq, 1 ≤ seq ∧
      seq < after.nextSeqNum ∧ (seq - 1) % 1024 = 0 ∧ Client.bufferIndex seq = i ∧
        (after.windowBuffer i).packet = original file seq)
    (budget : after.pc = .sending → after.unacknowledgedBytes = after.nextSeqNum - after.base)
    (granted : after.serverWindow = 65535 ∨ after.serverWindow % 1024 = 0 ∨ after.AllSent file)
    (allSent : n.client.AllSent file → after.AllSent file)
    (sizes : ∀ packet ∈ sent, packet.data.length % 1024 = 0 ∨ after.AllSent file) :
    Windowed file { n with client := after, toServer := sent ++ n.toServer } where
  start := start
  held := held
  span := span
  originals := originals
  budget := budget
  granted := granted
  counted := windowed.counted.grow allSent _
  slots slot member valid := (windowed.slots slot member valid).grow allSent _
  arriving := by
    intro packet member
    rcases List.mem_append.mp member with new | old
    · exact sizes packet new
    · exact (windowed.arriving packet old).grow allSent _
  offered packet member isAck := (windowed.offered packet member isAck).grow allSent _

theorem Windowed.clientPc (windowed : Windowed file n) (pc : Client.Pc) (budget : Nat)
    (sent : List ShamPacket)
    (exact_ : pc = .sending → budget = n.client.nextSeqNum - n.client.base)
    (sizes : ∀ packet ∈ sent, Whole file n packet.data.length) :
    Windowed file { n with
      client := { n.client with pc := pc, unacknowledgedBytes := budget }
      toServer := sent ++ n.toServer } :=
  windowed.client sent windowed.start windowed.held windowed.span windowed.originals exact_ windowed.granted
    (fun done => done) sizes

-- Two segments of one window never share a slot.
theorem bufferIndex_inj {base seq seq' : Nat} (positive : 1 ≤ base) (low : base ≤ seq) (low' : base ≤ seq')
    (high : seq < base + 10240) (high' : seq' < base + 10240) (aligned : (seq - 1) % 1024 = 0)
    (aligned' : (seq' - 1) % 1024 = 0)
    (same : Client.bufferIndex seq = Client.bufferIndex seq') : seq = seq' := by
  unfold Client.bufferIndex shamDataSize congestionWindowSize at same
  omega

-- What the guard of the inner loop guarantees when there is data to send.
structure Sending (file : Bytes) (c : Client.State) : Prop where
  aligned : (c.nextSeqNum - 1) % 1024 = 0
  more : c.nextSeqNum ≤ file.length
  baseAligned : (c.base - 1) % 1024 = 0
  room : c.nextSeqNum < c.base + 10240
  read : Client.fread file c.filePos = Client.fread file (c.nextSeqNum - 1)
  next : u32 (c.nextSeqNum + (Client.fread file c.filePos).length) =
    c.nextSeqNum + (Client.fread file c.filePos).length
  small : c.nextSeqNum + (Client.fread file c.filePos).length < 2 ^ 32

theorem Inv.sending (inv : Inv file n) (start : SegmentStart file n.client.base)
    (allowed : Client.mayRead n.client = true)
    (more : 0 < (Client.fread file n.client.filePos).length) : Sending file n.client := by
  have position := inv.position
  have size := fread_length file n.client.filePos
  have behind := inv.baseSent
  have positive := inv.basePositive
  have aligned : (n.client.nextSeqNum - 1) % 1024 = 0 ∧ n.client.nextSeqNum ≤ file.length := by
    have nextStart := inv.nextStart
    simp only [SegmentStart] at nextStart
    omega
  have baseAligned : (n.client.base - 1) % 1024 = 0 := by
    simp only [SegmentStart] at start
    omega
  have guard : n.client.nextSeqNum < u32 (n.client.base + 10 * 1024) := by
    simp only [Client.mayRead, Bool.and_eq_true, decide_eq_true_eq] at allowed
    exact allowed.1.1
  have bound := window_guard_stops n.client.base n.client.nextSeqNum file.length positive behind
    (.inl baseAligned) aligned.2 aligned.1 inv.limitSmall guard
  refine ⟨aligned.1, aligned.2, baseAligned, ?_, ?_, Nat.mod_eq_of_lt (by omega), by omega⟩
  · unfold u32 at guard
    omega
  · exact congrArg (Client.fread file) (by omega)

theorem sendRound_windowed (windowed : Windowed file n) (inv : Inv file n) :
    Windowed file { n with
      client := (Client.sendRound file n.client).1
      toServer := (Client.sendRound file n.client).2 ++ n.toServer } := by
  have positive := inv.basePositive
  have behind := inv.baseSent
  simp only [Client.sendRound]
  split_ifs with allowed more
  · have facts := inv.sending windowed.start allowed more
    have size := fread_length file n.client.filePos
    have position := inv.position
    have room := facts.room
    have aligned := facts.aligned
    have baseAligned := facts.baseAligned
    have inFile := facts.more
    have small := facts.small
    rw [facts.next]
    refine windowed.client _ windowed.start ?_ ?_ ?_ ?_ ?_ ?_ ?_
    · intro seq low high start
      simp only at low high
      by_cases new : seq = n.client.nextSeqNum
      · subst new
        simp only [Function.update_self, original, facts.read]
      · have apart : Client.bufferIndex seq ≠ Client.bufferIndex n.client.nextSeqNum := fun same =>
          new (bufferIndex_inj positive low behind (by omega) room start aligned same)
        simp only [Function.update_of_ne apart]
        exact windowed.held seq low (by omega) start
    · simp only
      omega
    · intro i valid
      by_cases here : i = Client.bufferIndex n.client.nextSeqNum
      · subst here
        simp only [Function.update_self]
        exact ⟨n.client.nextSeqNum, by omega, by omega, aligned, rfl, by rw [original, facts.read]⟩
      · simp only [Function.update_of_ne here] at valid ⊢
        obtain ⟨seq, one, sent, start, index, same⟩ := windowed.originals i valid
        exact ⟨seq, one, by omega, start, index, same⟩
    · intro _
      simp only [u32]
      omega
    · exact windowed.granted.imp_right fun whole => whole.imp_right fun done => by
        unfold Client.State.AllSent at done
        omega
    · intro done
      unfold Client.State.AllSent at done
      omega
    · intro packet new
      obtain rfl := List.mem_singleton.mp new
      simp only [Client.segment, Client.State.AllSent]
      omega
  · exact windowed.client [] windowed.start windowed.held windowed.span windowed.originals (by simp)
      windowed.granted (fun done => done) (by simp)
  · exact windowed.clientPc .receiving n.client.unacknowledgedBytes [] (by simp) (by simp)

theorem receiving_windowed (windowed : Windowed file n) (inv : Inv file n) (past : PastHandshake n)
    (receiving : n.client.pc = .receiving) (packet : ShamPacket) (member : packet ∈ n.toClient) :
    Windowed file { n with client := { Client.processAck n.client packet with pc := .scanning 0 } } := by
  simp only [Client.processAck]
  split_ifs with accepted
  · obtain ⟨isAck, newer, -⟩ := accepted
    have start : SegmentStart file packet.header.ackNum := by
      rcases inv.acks packet member isAck (past.1 packet member) with ⟨_, start⟩ | closing
      · exact start
      · simp [Client.State.Closing, receiving] at closing
    have span := windowed.span
    refine windowed.client [] start ?_ ?_ windowed.originals (by simp) ?_
      (fun done => done) (by simp)
    · intro seq low high aligned
      exact windowed.held seq (by simp only at low; omega) high aligned
    · simp only
      omega
    · exact .inr (windowed.offered packet member isAck)
  · exact windowed.clientPc (.scanning 0) n.client.unacknowledgedBytes [] (by simp) (by simp)

theorem original_whole (inv : Inv file n) {seq : Nat} (one : 1 ≤ seq) (sent : seq < n.client.nextSeqNum)
    (aligned : (seq - 1) % 1024 = 0) : Whole file n (original file seq).data.length := by
  have size := fread_length file (seq - 1)
  have start := inv.nextStart
  have inFile := inv.nextInFile
  simp only [SegmentStart] at start
  simp only [Whole, original, Client.segment, Client.State.AllSent]
  omega

theorem scanSlot_windowed (windowed : Windowed file n) (inv : Inv file n) (i : Nat) (timedOut : Bool) :
    Windowed file { n with
      client := { (Client.scanSlot n.client i timedOut).1 with pc := .scanning (i + 1) }
      toServer := (Client.scanSlot n.client i timedOut).2 ++ n.toServer } := by
  simp only [Client.scanSlot]
  split_ifs with acknowledged late
  · simp only [Bool.and_eq_true, decide_eq_true_eq] at acknowledged
    refine windowed.client [] windowed.start ?_ windowed.span ?_ (by simp) windowed.granted
      (fun done => done) (by simp)
    · intro seq low high aligned
      have slot := windowed.held seq low high aligned
      have apart : Client.bufferIndex seq ≠ i := by
        rintro rfl
        rw [slot] at acknowledged
        have old : seq < n.client.base := acknowledged.2
        simp only at low
        omega
      simp only [Function.update_of_ne apart]
      exact slot
    · intro j valid
      by_cases here : j = i
      · simp [here] at valid
      · simp only [Function.update_of_ne here] at valid ⊢
        exact windowed.originals j valid
  · refine windowed.clientPc (.scanning (i + 1)) n.client.unacknowledgedBytes _ (by simp) ?_
    intro packet new
    obtain rfl := List.mem_singleton.mp new
    simp only [Bool.and_eq_true] at late
    obtain ⟨seq, one, sent, aligned, -, same⟩ := windowed.originals i late.1
    rw [same]
    exact original_whole inv one sent aligned
  · exact windowed.clientPc (.scanning (i + 1)) n.client.unacknowledgedBytes [] (by simp) (by simp)

theorem clientStep_windowed (windowed : Windowed file n) (inv : Inv file n) (past : PastHandshake n)
    (inside : n.InTransfer) (input : Client.Input)
    (delivered : ∀ packet, input.received = some packet → packet ∈ n.toClient) :
    Windowed file (Net.clientStep file outputFilename n input) := by
  obtain ⟨received, timedOut, junk⟩ := input
  have handshake := inside.1
  -- Outside the loop only the program counter moves, and what is sent carries no data.
  have move (pc : Client.Pc) (notSending : pc ≠ .sending) (sent : List ShamPacket)
      (sizes : ∀ packet ∈ sent, packet.data = []) :
      Windowed file { n with
        client := { n.client with pc := pc }
        toServer := sent ++ n.toServer } := by
    refine windowed.clientPc pc n.client.unacknowledgedBytes sent (fun here => absurd here notSending) ?_
    intro packet member
    rw [sizes packet member]
    exact .inl rfl
  unfold Net.clientStep
  cases at_ : n.client.pc with
  | start => simp [at_, Client.Pc.pastHandshake] at handshake
  | awaitSynAck => simp [at_, Client.Pc.pastHandshake] at handshake
  | awaitFilenameAck => simp [at_, Client.Pc.pastHandshake] at handshake
  | loopHead =>
    simp only [Client.step, at_]
    split_ifs
    · refine windowed.clientPc .sending _ [] (fun _ => ?_) (by simp)
      have behind := inv.baseSent
      have positive := inv.basePositive
      have small := inv.limitSmall
      simp only [u32]
      omega
    · exact move (.finalWait 0) (by simp) [] (by simp)
  | sending =>
    simp only [Client.step, at_]
    exact sendRound_windowed windowed inv
  | receiving =>
    cases received with
    | none =>
      simp only [Client.step, at_]
      exact move (.scanning 0) (by simp) [] (by simp)
    | some packet =>
      simp only [Client.step, at_]
      exact receiving_windowed windowed inv past at_ packet (delivered packet rfl)
  | scanning i =>
    simp only [Client.step, at_]
    split_ifs
    · exact scanSlot_windowed windowed inv i timedOut
    · exact move .loopHead (by simp) [] (by simp)
  | finalWait k =>
    have waited := inv.waiting k at_
    have done : ¬ (n.client.base < n.client.nextSeqNum ∧ k < 5000) := by omega
    simp only [Client.step, at_, done, if_false]
    exact move (.awaitFinAck 0) (by simp) _ (by simp [Client.finPacket])
  | awaitFinAck tries =>
    simp only [Client.step, at_]
    split_ifs
    · exact move (.awaitServerFin 0) (by simp) [] (by simp)
    · exact move (.awaitFinAck (tries + 1)) (by simp) [] (by simp)
    · exact move (.awaitServerFin 0) (by simp) [] (by simp)
  | awaitServerFin tries =>
    have again := move (.awaitServerFin (tries + 1)) (by simp) [] (by simp)
    have leave (ackNum : Nat) := move .exited (by simp) [Client.finalAck junk ackNum]
      (by simp [Client.finalAck])
    cases received with
    | none =>
      simp only [Client.step, at_]
      split_ifs
      · exact again
      · exact leave _
    | some packet =>
      simp only [Client.step, at_]
      split_ifs
      · exact leave _
      · exact again
      · exact leave _
  | exited => simpa [Client.step, at_] using windowed

structure Transferring (file : Bytes) (n : Net) : Prop where
  inv : Inv file n
  past : PastHandshake n
  inside : n.InTransfer
  windowed : Windowed file n

theorem Transferring.step {m : Net} {l : Label} (before : Transferring file n)
    (taken : Net.next file outputFilename n l = some m) : Transferring file m := by
  refine ⟨step_inv before.inv (before.past.harmless taken) taken, before.past.step taken,
    before.inside.step taken, ?_⟩
  cases l with
  | client input =>
    obtain ⟨delivered, rfl⟩ := Net.next_client taken
    exact clientStep_windowed before.windowed before.inv before.past before.inside input delivered
  | server input =>
    obtain ⟨delivered, rfl⟩ := Net.next_server taken
    exact serverStep_windowed before.windowed before.inv before.inside input delivered

theorem Transferring.start (file : Bytes) : Transferring file Net.atTransfer where
  inv := initial_inv file _ _ (by simp) (fun left => left)
  past := ⟨by simp [Net.atTransfer], by simp [Net.atTransfer, Server.initial]⟩
  inside := ⟨rfl, rfl⟩
  windowed := {
    start := .inl rfl
    held := by
      intro seq low high
      simp only [Net.atTransfer, Client.initial] at low high
      omega
    span := by decide
    originals := by simp [Net.atTransfer, Client.initial, Client.emptySlot]
    budget := by simp [Net.atTransfer, Client.initial]
    granted := .inl rfl
    counted := .inl rfl
    slots := by
      intro slot member valid
      obtain rfl := List.eq_of_mem_replicate member
      simp [Server.emptySlot] at valid
    arriving := by simp [Net.atTransfer]
    offered := by simp [Net.atTransfer] }

theorem transferring {n : Net} (reached : (Net.transfer file outputFilename).Reachable n) :
    Transferring file n := by
  refine reached.invariant (I := Transferring file) ?_ ?_
  · rintro n rfl
    exact .start file
  · exact fun _ _ _ before taken => before.step taken

theorem Windowed.reuse (windowed : Windowed file n) (positive : 1 ≤ n.client.base)
    (facts : Sending file n.client) (behind : n.client.base ≤ n.client.nextSeqNum)
    (valid : (n.client.windowBuffer (Client.bufferIndex n.client.nextSeqNum)).isValid = true) :
    (n.client.windowBuffer (Client.bufferIndex n.client.nextSeqNum)).packet.header.seqNum <
      n.client.base := by
  obtain ⟨seq, one, sent, aligned, index, same⟩ := windowed.originals _ valid
  rw [same]
  by_contra unacked
  have low : n.client.base ≤ seq := Nat.le_of_not_lt unacked
  have room := facts.room
  have equal := bufferIndex_inj positive low behind (by omega) room aligned facts.aligned index
  omega

-- Every unacknowledged segment is held as it was first sent, in a slot that is not reused before the segment is
-- acknowledged; the window never exceeds ten segments, nor does a new segment make it exceed what the receiver
-- last offered.
theorem window_held (file outputFilename : Bytes) (n : Net)
    (reached : (Net.transfer file outputFilename).Reachable n) :
    (∀ seq, n.client.base ≤ seq → seq < n.client.nextSeqNum → (seq - 1) % shamDataSize = 0 →
      n.client.windowBuffer (((seq - 1) / 1024) % 10) = ⟨true, original file seq⟩) ∧
    n.client.nextSeqNum - n.client.base ≤ congestionWindowSize * shamDataSize ∧
    (∀ i timedOut, n.client.pc = .scanning i → ∀ packet ∈ (Client.scanSlot n.client i timedOut).2,
      ∃ seq, n.client.base ≤ seq ∧ seq < n.client.nextSeqNum ∧ packet = original file seq) ∧
    (n.client.pc = .sending → (Client.sendRound file n.client).2 ≠ [] →
      (Client.sendRound file n.client).1.nextSeqNum - n.client.base ≤ n.client.serverWindow ∧
      ((n.client.windowBuffer (Client.bufferIndex n.client.nextSeqNum)).isValid = true →
        (n.client.windowBuffer (Client.bufferIndex n.client.nextSeqNum)).packet.header.seqNum <
          n.client.base)) := by
  obtain ⟨inv, -, -, windowed⟩ := transferring reached
  have span := windowed.span
  have positive := inv.basePositive
  have behind := inv.baseSent
  refine ⟨windowed.held, ?_, ?_, ?_⟩
  · unfold congestionWindowSize shamDataSize
    omega
  · intro i timedOut _ packet member
    simp only [Client.scanSlot] at member
    split_ifs at member with acknowledged late
    · contradiction
    · obtain rfl := List.mem_singleton.mp member
      simp only [Bool.and_eq_true] at late
      obtain ⟨seq, one, sent, aligned, -, same⟩ := windowed.originals i late.1
      rw [same] at acknowledged ⊢
      rw [late.1, Bool.true_and] at acknowledged
      exact ⟨seq, Nat.le_of_not_lt fun old => acknowledged (decide_eq_true old), sent, rfl⟩
    · contradiction
  · intro sending sends
    simp only [Client.sendRound] at sends ⊢
    split_ifs at sends ⊢ with allowed more
    · have facts := inv.sending windowed.start allowed more
      refine ⟨?_, windowed.reuse positive facts behind⟩
      have budget := windowed.budget sending
      have size := fread_length file n.client.filePos
      have open_ : n.client.unacknowledgedBytes < n.client.serverWindow := by
        simp only [Client.mayRead, Bool.and_eq_true, decide_eq_true_eq] at allowed
        exact allowed.1.2
      have aligned := facts.aligned
      have baseAligned := facts.baseAligned
      have room := facts.room
      have inFile := facts.more
      simp only [facts.next]
      rcases windowed.granted with unlimited | whole | done
      · omega
      · omega
      · unfold Client.State.AllSent at done
        omega
    · exact absurd rfl sends
    · exact absurd rfl sends

theorem window_held_one_byte : ∃ n : Net, (Net.transfer [7] []).Reachable n ∧
    n.client.nextSeqNum = 2 ∧ n.client.windowBuffer 0 = ⟨true, original [7] 1⟩ := by
  obtain ⟨n, ran, sent⟩ : ∃ n, execute (Net.next [7] []) (fun _ _ => true) Net.atTransfer
      [clientRuns, clientRuns] = some n ∧
      decide (n.client.nextSeqNum = 2 ∧ n.client.base = 1) = true :=
    (Option.any_eq_true ..).mp (by decide)
  have reached : (Net.transfer [7] []).Reachable n :=
    execute_reachableVia (fun _ _ _ => trivial) (.initial rfl) ran
  obtain ⟨next, base⟩ := of_decide_eq_true sent
  exact ⟨n, reached, next, (window_held [7] [] n reached).1 1 (by omega) (by omega) rfl⟩

end SystemsSuite.Sham
