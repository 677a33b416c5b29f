import SystemsSuite.Files.CrashRecovery

set_option autoImplicit false

namespace SystemsSuite.Files

open Lib

variable {start : Nat} {s s' : Fs} {g : Store}

-- A system call writes blocks between its `begin_op` and its `end_op`, and at most MAXOPBLOCKS of them.
def Disciplined (start : Nat) (t : Fs × Store) (l : Step) : Prop :=
  Allowed start t l ∧
    match l with
    | .logWrite op _ _ => ∃ n < maxOpBlocks, t.2.uses[op]? = some n
    | .endOp op => op < t.2.uses.length
    | _ => True

def Store.reserved (g : Store) : Nat := (g.uses.map fun n => maxOpBlocks - n).sum

structure Spaced (start : Nat) (s : Fs) (g : Store) : Prop where
  stores : Stores start s g
  counted : s.outstanding = g.uses.length
  room : s.header.length + g.reserved ≤ logBlocks

theorem reserved_le (uses : List Nat) : (uses.map fun n => maxOpBlocks - n).sum ≤ uses.length * maxOpBlocks := by
  induction uses with
  | nil => exact Nat.zero_le _
  | cons n rest ih =>
    rw [List.map_cons, List.sum_cons, List.length_cons, Nat.succ_mul]
    omega

theorem reserved_eraseIdx (uses : List Nat) (op : Nat) :
    ((uses.eraseIdx op).map fun n => maxOpBlocks - n).sum ≤ (uses.map fun n => maxOpBlocks - n).sum := by
  induction uses generalizing op with
  | nil => exact le_rfl
  | cons n rest ih =>
    cases op with
    | zero =>
      rw [List.eraseIdx_cons_zero, List.map_cons, List.sum_cons]
      omega
    | succ op =>
      have later := ih op
      rw [List.eraseIdx_cons_succ, List.map_cons, List.map_cons, List.sum_cons, List.sum_cons]
      omega

theorem reserved_modify {uses : List Nat} {op n : Nat} (here : uses[op]? = some n) (left : n < maxOpBlocks) :
    ((uses.modify op (· + 1)).map fun n => maxOpBlocks - n).sum + 1 = (uses.map fun n => maxOpBlocks - n).sum := by
  induction uses generalizing op with
  | nil => simp at here
  | cons first rest ih =>
    cases op with
    | zero =>
      obtain rfl : first = n := by simpa using here
      rw [List.modify_zero_cons, List.map_cons, List.map_cons, List.sum_cons, List.sum_cons]
      omega
    | succ op =>
      have there : rest[op]? = some n := by simpa using here
      have later := ih there
      rw [List.modify_succ_cons, List.map_cons, List.map_cons, List.sum_cons, List.sum_cons]
      omega

theorem Fs.advance_header (taken : s.advance start = some s') :
    s'.outstanding = s.outstanding ∧ (s'.header = s.header ∨ s'.header = [] ∨ s.stage = .boot) := by
  unfold Fs.advance at taken
  cases stage : s.stage with
  | idle =>
    rw [stage] at taken
    contradiction
  | writeLog tail =>
    rw [stage] at taken
    cases here : s.header[tail]? <;> simp only [here, Option.some.injEq] at taken <;> subst taken
    · exact ⟨rfl, .inl rfl⟩
    · exact ⟨rfl, .inl rfl⟩
  | writeHead =>
    rw [stage, Option.some.injEq] at taken
    subst taken
    exact ⟨rfl, .inl rfl⟩
  | install tail =>
    rw [stage] at taken
    cases here : s.header[tail]? <;> simp only [here, Option.some.injEq] at taken <;> subst taken
    · exact ⟨rfl, .inr (.inl rfl)⟩
    · exact ⟨rfl, .inl rfl⟩
  | eraseHead =>
    rw [stage, Option.some.injEq] at taken
    subst taken
    exact ⟨rfl, .inl rfl⟩
  | finish =>
    rw [stage, Option.some.injEq] at taken
    subst taken
    exact ⟨rfl, .inl rfl⟩
  | boot =>
    rw [stage, Option.some.injEq] at taken
    subst taken
    exact ⟨rfl, .inr (.inr rfl)⟩
  | recover tail =>
    rw [stage] at taken
    cases here : s.header[tail]? <;> simp only [here, Option.some.injEq] at taken <;> subst taken
    · exact ⟨rfl, .inr (.inl rfl)⟩
    · exact ⟨rfl, .inl rfl⟩
  | clearHead =>
    rw [stage, Option.some.injEq] at taken
    subst taken
    exact ⟨rfl, .inl rfl⟩

theorem Fs.logWrite_header (s : Fs) (blockno : Nat) (data : Block) :
    (s.logWrite blockno data).outstanding = s.outstanding ∧
      (s.logWrite blockno data).header.length ≤ s.header.length + 1 := by
  unfold Fs.logWrite
  split_ifs
  · exact ⟨rfl, Nat.le_succ _⟩
  · exact ⟨rfl, le_of_eq List.length_append⟩

theorem Fs.endOp_header (s : Fs) : s.endOp.outstanding = s.outstanding - 1 ∧ s.endOp.header = s.header := by
  unfold Fs.endOp
  by_cases last : s.outstanding = 1
  · rw [if_pos last, last]
    exact ⟨rfl, rfl⟩
  · rw [if_neg last]
    exact ⟨rfl, rfl⟩

theorem Spaced.next {l : Step} (spaced : Spaced start s g) (disciplined : Disciplined start (s, g) l)
    (taken : s.next start l = some s') : Spaced start s' (g.note s l s') := by
  have stores := spaced.stores.next disciplined.1 taken
  have counted := spaced.counted
  have room := spaced.room
  unfold Store.reserved at room
  unfold Fs.next at taken
  by_cases panics : s.panics l = true
  · rw [if_pos panics] at taken
    contradiction
  rw [if_neg panics] at taken
  cases l with
  | beginOp =>
    simp only at taken
    split_ifs at taken with waits
    simp only [Bool.or_eq_true, not_or, Bool.not_eq_true] at waits
    obtain rfl := Option.some.inj taken
    have enough : ¬ logBlocks < s.header.length + (s.outstanding + 1) * maxOpBlocks := by
      simpa [Fs.full] using waits.2
    have before := reserved_le g.uses
    refine ⟨stores, ?_, ?_⟩
    · change s.outstanding + 1 = (g.uses ++ [0]).length
      rw [List.length_append, counted]
      rfl
    · change s.header.length + ((g.uses ++ [0]).map fun n => maxOpBlocks - n).sum ≤ logBlocks
      rw [List.map_append, List.sum_append]
      rw [counted, Nat.succ_mul] at enough
      simp only [List.map_cons, List.map_nil, List.sum_cons, List.sum_nil]
      omega
  | logWrite op blockno data =>
    obtain rfl := Option.some.inj taken
    obtain ⟨n, left, here⟩ := disciplined.2
    obtain ⟨outstanding, longer⟩ := s.logWrite_header blockno data
    have used := reserved_modify (show g.uses[op]? = some n from here) left
    refine ⟨stores, ?_, ?_⟩
    · rw [outstanding, counted]
      exact (List.length_modify ..).symm
    · change (s.logWrite blockno data).header.length +
        ((g.uses.modify op (· + 1)).map fun n => maxOpBlocks - n).sum ≤ logBlocks
      omega
  | read blockno =>
    obtain rfl := Option.some.inj taken
    exact ⟨stores, counted, room⟩
  | recycle blockno =>
    simp only at taken
    split_ifs at taken
    obtain rfl := Option.some.inj taken
    exact ⟨stores, counted, room⟩
  | endOp op =>
    simp only at taken
    split_ifs at taken with none_
    obtain rfl := Option.some.inj taken
    have inside : op < g.uses.length := disciplined.2
    obtain ⟨outstanding, header⟩ := s.endOp_header
    have fewer := reserved_eraseIdx g.uses op
    refine ⟨stores, ?_, ?_⟩
    · rw [outstanding, counted]
      exact (List.length_eraseIdx_of_lt inside).symm
    · rw [header]
      change s.header.length + ((g.uses.eraseIdx op).map fun n => maxOpBlocks - n).sum ≤ logBlocks
      omega
  | advance =>
    obtain ⟨outstanding, header⟩ := Fs.advance_header taken
    have uses : (g.note s .advance s').uses = g.uses := by
      unfold Store.note
      simp only
      split_ifs <;> rfl
    refine ⟨stores, ?_, ?_⟩
    · rw [outstanding, uses, counted]
    · unfold Store.reserved
      rw [uses]
      rcases header with same | empty | boot
      · rw [same]
        exact room
      · rw [empty]
        exact le_trans (Nat.add_le_add_right (Nat.zero_le _) _) room
      · have staged := spaced.stores.sound.staged
        unfold Fs.Staged at staged
        rw [boot] at staged
        have nobody : g.uses = [] := List.length_eq_zero_iff.mp (counted.symm.trans staged.2.1)
        rw [nobody]
        exact stores.sound.logged.short
  | crash =>
    obtain rfl := Option.some.inj taken
    exact ⟨stores, rfl, Nat.zero_le _⟩

-- How many steps are left of the commit or the recovery.
def Fs.left (start : Nat) (s : Fs) : Nat :=
  match s.stage with
  | .idle => 0
  | .finish => 1
  | .eraseHead => 2
  | .install tail => 3 + (s.header.length - tail)
  | .writeHead => 4 + s.header.length
  | .writeLog tail => 5 + s.header.length + (s.header.length - tail)
  | .clearHead => 1
  | .recover tail => 2 + (s.header.length - tail)
  | .boot => 3 + (readHead (s.block start)).length

end SystemsSuite.Files
