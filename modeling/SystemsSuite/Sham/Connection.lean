import SystemsSuite.Sham.TransferSafety

set_option autoImplicit false

namespace SystemsSuite.Sham

open Lib.System

-- Every run in which no SYN-ACK is read by the transfer loop ahead of the receiver.
theorem base_le_expected (file outputFilename : Bytes) (n : Net)
    (reached : (Net.connection file outputFilename).ReachableVia SynAckHarmless n) :
    n.client.base ≤ n.server.expectedSeqNum := by
  have inv : Inv file n := by
    refine reached.invariant (I := Inv file) ?_ ?_
    · rintro n rfl
      exact initial_inv file _ _ (by simp) (fun left => left)
    · intro n l m inv harmless taken
      exact step_inv inv harmless taken
  exact inv.baseAcked

def synAckCheck (n : Net) : Label → Bool
  | .client input => (input.received.map fun packet =>
      !packet.has shamSyn || decide (n.client.pc ≠ .receiving)).getD true
  | .server _ => true

theorem synAckCheck_sound (n : Net) (l : Label) (checked : synAckCheck n l = true) :
    SynAckHarmless n l := by
  cases l with
  | server => trivial
  | client input =>
    intro receiving packet here isSyn
    simp [synAckCheck, here, isSyn, receiving] at checked

def runConnection : Option Net :=
  execute (Net.next [7] []) synAckCheck Net.atHandshake (openConnection ++ transferByte 7)

theorem base_le_expected_one_byte : ∃ n : Net,
    (Net.connection [7] []).ReachableVia SynAckHarmless n ∧ n.client.base = 2 ∧
      n.client.base ≤ n.server.expectedSeqNum := by
  obtain ⟨n, ran, base⟩ : ∃ n, runConnection = some n ∧ decide (n.client.base = 2) = true :=
    (Option.any_eq_true ..).mp (by decide)
  have reached : (Net.connection [7] []).ReachableVia SynAckHarmless n :=
    execute_reachableVia synAckCheck_sound (.initial rfl) ran
  exact ⟨n, reached, of_decide_eq_true base, base_le_expected [7] [] n reached⟩

-- The second copy of the SYN-ACK arrives in the first pass of the transfer loop.
def runDuplicate : Option Net :=
  execute (Net.next [7] []) (fun _ _ => true) Net.atHandshake
    (openConnection ++ [clientRuns, clientRuns, clientRuns, clientGets synAck])

theorem duplicate_synAck_counted : ¬ ∀ (file outputFilename : Bytes) (n : Net),
    (Net.connection file outputFilename).Reachable n →
      n.client.base ≤ n.server.expectedSeqNum := by
  intro claimed
  obtain ⟨n, ran, ahead⟩ : ∃ n, runDuplicate = some n ∧
      decide (n.client.base = 1001 ∧ n.server.expectedSeqNum = 1) = true :=
    (Option.any_eq_true ..).mp (by decide)
  have reached : (Net.connection [7] []).Reachable n :=
    execute_reachableVia (fun _ _ _ => trivial) (.initial rfl) ran
  have behind := claimed [7] [] n reached
  have values := of_decide_eq_true ahead
  omega

end SystemsSuite.Sham
