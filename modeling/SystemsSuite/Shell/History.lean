import SystemsSuite.Shell.Parser

set_option autoImplicit false

namespace SystemsSuite.Shell

open Lib

def maxHistorySize : Nat := 15

-- The first line of a text with its newline, and what is left. At the end of the file the line is empty.
def getline : List Char → List Char × List Char
  | [] => ([], [])
  | c :: rest => if c = '\n' then ([c], rest) else (c :: (getline rest).1, (getline rest).2)

-- `line[strcspn(line, "\n")] = 0`, and the line read as a string.
def cutLine (line : List Char) : List Char := line.takeWhile fun c => c ≠ '\n' && c ≠ '\x00'

-- The loop that fills `history`, with room for so many lines more.
def readLines : Nat → List Char → List (List Char)
  | 0, _ => []
  | _ + 1, [] => []
  | room + 1, c :: rest =>
    cutLine (getline (c :: rest)).1 :: readLines room (getline (c :: rest)).2

-- The `history` that is read from the file, which may not exist.
def readHistory (file : Option (List Char)) : List (List Char) :=
  readLines maxHistorySize (file.getD [])

-- `fprintf(fp, "%s\n", ...)` for each line.
def printLines (lines : List (List Char)) : List Char := lines.flatMap (· ++ ['\n'])

def addToHistory (command : List Char) (file : Option (List Char)) : Option (List Char) :=
  let history := readHistory file
  if history.getLast? = some command then file
  else
    let startIndex := if history.length = maxHistorySize then 1 else 0
    some (printLines (history.drop startIndex ++ [command]))

-- `(int) strtol(str, NULL, 10)`, with a 64-bit `long`.
def atoi (str : List Char) : Int :=
  let visible := str.dropWhile isspace
  let unsigned := if visible.head? = some '-' ∨ visible.head? = some '+' then visible.tail else visible
  let magnitude : Nat :=
    (unsigned.takeWhile Char.isDigit).foldl (fun n c => 10 * n + (c.toNat - '0'.toNat)) 0
  let value : Int := if visible.head? = some '-' then -magnitude else magnitude
  (max (-2 ^ 63) (min (2 ^ 63 - 1) value)).bmod (2 ^ 32)

-- What `execute_log` does: it empties the file, prints, complains, or has a line processed.
inductive LogAction
  | purge
  | print (lines : List (List Char))
  | complain (message : String)
  | replay (command : List Char)
  deriving DecidableEq, Repr

def executeLog (args : List (List Char)) (file : Option (List Char)) : LogAction :=
  if args[1]? = some "purge".toList then .purge
  else if file = none then .print []
  else
    let history := readHistory file
    if args[1]? = some "execute".toList then
      match args[2]? with
      | none => .complain "log: expected index for execute\n"
      | some text =>
        let index := atoi text
        if 0 < index ∧ index ≤ history.length then
          .replay (history.getD (history.length - index.toNat) [])
        else .complain s!"log: invalid index {index}\n"
    else .print history

def OneLine (line : List Char) : Prop := '\n' ∉ line ∧ '\x00' ∉ line

theorem getline_append {line : List Char} (single : '\n' ∉ line) (rest : List Char) :
    getline (line ++ '\n' :: rest) = (line ++ ['\n'], rest) := by
  induction line with
  | nil => simp [getline]
  | cons c line ih =>
    simp only [List.mem_cons, not_or] at single
    rw [List.cons_append, getline, if_neg (Ne.symm single.1), ih single.2]
    rfl

theorem cutLine_newline {line : List Char} (single : OneLine line) : cutLine (line ++ ['\n']) = line := by
  have inside : ∀ c ∈ line, (c ≠ '\n' && c ≠ '\x00') = true := by
    intro c here
    have newline : c ≠ '\n' := fun same => single.1 (same ▸ here)
    have nul : c ≠ '\x00' := fun same => single.2 (same ▸ here)
    simp [newline, nul]
  rw [cutLine, List.takeWhile_append_of_pos inside]
  simp

theorem readLines_printLines (room : Nat) {lines : List (List Char)}
    (single : ∀ line ∈ lines, OneLine line) : readLines room (printLines lines) = lines.take room := by
  induction lines generalizing room with
  | nil => cases room <;> rfl
  | cons line rest ih =>
    cases room with
    | zero => rfl
    | succ room =>
      have here := single line List.mem_cons_self
      have text : printLines (line :: rest) = line ++ '\n' :: printLines rest := by
        simp [printLines]
      have some : ∃ c later, line ++ '\n' :: printLines rest = c :: later := by
        cases line <;> exact ⟨_, _, rfl⟩
      obtain ⟨c, later, split⟩ := some
      rw [text, split, readLines, ← split, getline_append here.1, cutLine_newline here,
        ih room fun l inside => single l (List.mem_cons_of_mem _ inside)]
      rfl

theorem readLines_length (room : Nat) (text : List Char) : (readLines room text).length ≤ room := by
  induction room generalizing text with
  | zero => exact Nat.le_refl 0
  | succ room ih =>
    cases text with
    | nil => exact Nat.zero_le _
    | cons c rest =>
      rw [readLines, List.length_cons]
      exact Nat.succ_le_succ (ih _)

theorem readHistory_length (file : Option (List Char)) : (readHistory file).length ≤ maxHistorySize := readLines_length _ _

-- A list without the elements that repeat the one right before them.
def withoutRepeats {α : Type} [DecidableEq α] (previous : Option α) : List α → List α
  | [] => []
  | x :: rest =>
    if previous = some x then withoutRepeats (some x) rest else x :: withoutRepeats (some x) rest

variable {α : Type} [DecidableEq α]

theorem withoutRepeats_concat (previous : Option α) (l : List α) (x : α) :
    withoutRepeats previous (l ++ [x]) =
      if (l.getLast?.or previous) = some x then withoutRepeats previous l
      else withoutRepeats previous l ++ [x] := by
  induction l generalizing previous with
  | nil => rfl
  | cons y l ih =>
    have last : ((y :: l).getLast?.or previous) = l.getLast?.or (some y) := by
      cases h : l.getLast? <;> simp [List.getLast?_cons, h]
    rw [List.cons_append, withoutRepeats, withoutRepeats, ih, last]
    split <;> split <;> simp

theorem withoutRepeats_getLast? (l : List α) : (withoutRepeats none l).getLast? = l.getLast? := by
  induction l using List.reverseRecOn with
  | nil => rfl
  | append_singleton l x ih =>
    rw [withoutRepeats_concat, Option.or_none]
    split
    next same => rw [ih, same, List.getLast?_concat]
    next => rw [List.getLast?_concat, List.getLast?_concat]

theorem withoutRepeats_subset (previous : Option α) (l : List α) : withoutRepeats previous l ⊆ l := by
  induction l generalizing previous with
  | nil => simp [withoutRepeats]
  | cons x l ih =>
    rw [withoutRepeats]
    split
    next => exact List.subset_cons_of_subset _ (ih _)
    next => exact List.cons_subset_cons _ (ih _)

omit [DecidableEq α] in
theorem rtake_getLast? {n : Nat} (some : 0 < n) (l : List α) : (l.rtake n).getLast? = l.getLast? := by
  rw [List.rtake]
  rcases eq_or_ne l [] with rfl | filled
  · simp
  · have visible := List.length_pos_iff.mpr filled
    rw [List.getLast?_drop, if_neg (by omega)]

omit [DecidableEq α] in
theorem rtake_concat {n : Nat} (some : 0 < n) (l : List α) (x : α) :
    (l.rtake n).drop (if (l.rtake n).length = n then 1 else 0) ++ [x] = (l ++ [x]).rtake n := by
  rw [List.rtake, List.rtake, List.drop_drop, List.length_drop, List.length_append,
    List.length_singleton, List.drop_append_of_le_length (by omega)]
  congr 2
  split <;> omega

theorem addToHistory_concat {file : Option (List Char)} {commands : List (List Char)}
    {command : List Char}
    (read : readHistory file = (withoutRepeats none commands).rtake maxHistorySize)
    (single : ∀ line ∈ commands ++ [command], OneLine line) :
    readHistory (addToHistory command file)
      = (withoutRepeats none (commands ++ [command])).rtake maxHistorySize := by
  have last : (readHistory file).getLast? = commands.getLast? := by
    rw [read, rtake_getLast? (by decide), withoutRepeats_getLast?]
  have shorter := rtake_concat (n := maxHistorySize) (by decide) (withoutRepeats none commands) command
  rw [addToHistory, last, withoutRepeats_concat, Option.or_none]
  split
  next => exact read
  next =>
    rw [← shorter, ← read, readHistory, Option.getD_some, readLines_printLines]
    · refine List.take_of_length_le ?_
      rw [read, shorter, List.rtake, List.length_drop]
      omega
    · intro line inside
      rw [read, shorter] at inside
      have kept := List.drop_subset _ _ inside
      rcases List.mem_append.mp kept with old | new
      · exact single line (List.mem_append_left _ (withoutRepeats_subset _ _ old))
      · exact single line (List.mem_append_right _ new)

-- The file after `add_to_history` of each command.
def addAll (commands : List (List Char)) (file : Option (List Char)) : Option (List Char) :=
  commands.foldl (fun file command => addToHistory command file) file

theorem addAll_read {commands : List (List Char)} (single : ∀ line ∈ commands, OneLine line) :
    readHistory (addAll commands (some []))
      = (withoutRepeats none commands).rtake maxHistorySize := by
  induction commands using List.reverseRecOn with
  | nil => rfl
  | append_singleton commands command ih =>
    rw [addAll, List.foldl_append]
    exact addToHistory_concat (ih fun line here => single line (List.mem_append_left _ here)) single

theorem addAll_some {commands : List (List Char)} {file : Option (List Char)} (there : file ≠ none) :
    addAll commands file ≠ none := by
  induction commands generalizing file with
  | nil => exact there
  | cons command rest ih =>
    refine ih ?_
    simp only [addToHistory]
    split
    next => exact there
    next => simp

theorem executeLog_replay {file : Option (List Char)} (there : file ≠ none) {text : List Char} {k : Nat}
    (index : atoi text = k) (some : 1 ≤ k) (within : k ≤ (readHistory file).length) :
    executeLog ["log".toList, "execute".toList, text] file
      = .replay ((readHistory file).reverse.getD (k - 1) []) := by
  have reversed : (readHistory file).reverse.getD (k - 1) []
      = (readHistory file).getD ((readHistory file).length - k) [] := by
    have position : (readHistory file).length - 1 - (k - 1) = (readHistory file).length - k := by omega
    rw [List.getD_eq_getElem?_getD, List.getD_eq_getElem?_getD, List.getElem?_reverse (by omega),
      position]
  have purge : "execute".toList ≠ "purge".toList := by decide
  simp only [executeLog, List.getElem?_cons_succ, List.getElem?_cons_zero, Option.some.injEq, purge,
    there, if_false, if_true, index]
  rw [if_pos (by omega), reversed, Int.toNat_natCast]

theorem history_contents {commands : List (List Char)} (single : ∀ line ∈ commands, OneLine line) :
    let file := addAll commands (some [])
    let kept := (withoutRepeats none commands).rtake maxHistorySize
    readHistory file = kept ∧
      ∀ (text : List Char) (k : Nat), atoi text = k → 1 ≤ k → k ≤ kept.length →
        ∃ command, kept.reverse[k - 1]? = some command ∧
          executeLog ["log".toList, "execute".toList, text] file = .replay command := by
  refine ⟨addAll_read single, fun text k index some within => ?_⟩
  have read := addAll_read single
  have there : addAll commands (Option.some []) ≠ none := addAll_some (by simp)
  have replayed := executeLog_replay there index some (by rwa [read])
  rw [read] at replayed
  refine ⟨_, ?_, replayed⟩
  rw [List.getD_eq_getElem?_getD, List.getElem?_eq_getElem (by rw [List.length_reverse]; omega)]
  rfl

-- A repeated line is kept once, and the second most recent one is replayed.
theorem history_contents_second :
    ∃ command, (withoutRepeats none ["ls".toList, "pwd".toList, "pwd".toList]).reverse[1]? = some command ∧
      executeLog ["log".toList, "execute".toList, "2".toList]
        (addAll ["ls".toList, "pwd".toList, "pwd".toList] (some [])) = .replay command := by
  have single : ∀ line ∈ ["ls".toList, "pwd".toList, "pwd".toList], OneLine line := by
    simp [OneLine]
  exact (history_contents single).2 "2".toList 2 (by decide +kernel) (by decide) (by decide +kernel)

end SystemsSuite.Shell
