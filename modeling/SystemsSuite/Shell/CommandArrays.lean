import SystemsSuite.Shell.Jobs
import SystemsSuite.Shell.Tokenisation

set_option autoImplicit false

namespace SystemsSuite.Shell

open Lib

-- The words of a piece that are no file names. An operator takes the next token as its file.
def plainWords : List Token → List (List Char)
  | [] => []
  | .word w :: rest => w :: plainWords rest
  | [_] => []
  | _ :: _ :: rest => plainWords rest

-- The words of each stage of a group. A piece that has none is no command.
def stageWords (text : List Char) : List (List (List Char)) :=
  ((pieces text).map fun piece => plainWords (lex piece)).filter (· ≠ [])

-- What `process_command_line` runs itself when it is alone and in the foreground.
def builtins : List (List Char) :=
  ["hop", "reveal", "echo", "log", "activities", "ping", "fg", "bg"].map String.toList

-- Whether `execute_pipeline` runs the commands of these names.
def runsPipeline (isBackground : Bool) : List (List Char) → Bool
  | [] => false
  | [name] => isBackground || !builtins.contains name
  | _ => true

-- With its NUL.
def NameFits (isBackground : Bool) (names : List (List Char)) : Prop :=
  runsPipeline isBackground names = true → (fullCmd names).length + 1 ≤ maxCmdName

-- The group and its background flag when the token loops get it. What the spaced copy writes behind its
-- buffer comes before the validation, so nothing keeps such a group from the loops.
def accepted (raw : List Char) : Option (List Char × Bool) :=
  if isTestLine raw then none
  else
    match splitBackground raw with
    | (group, isBackground) =>
      if isEmpty group then none
      else if bytesAllocated group < bytesWritten group ∨ parseInput (addSpacesAroundRedirects group) = true then
        some (group, isBackground)
      else none

def reaching (line : List Char) : List (List Char × Bool) :=
  if isEmpty line then [] else (strtok (· == ';') line).filterMap accepted

-- The buffer holds the spaced copy, no write leaves the arrays, every `args` keeps a NULL, every stage has
-- its command, and the name of the pipeline fits.
def ArraysKept (text : List Char) (isBackground : Bool) : Prop :=
  bytesWritten text ≤ bytesAllocated text ∧
  ∃ cmds, readPipeline [] (strtok (· == '|') (addSpacesAroundRedirects text)) = some cmds ∧
    cmds.length ≤ maxPipedCmds ∧ (∀ cmd ∈ cmds, cmd.args.length < maxArgs) ∧
    cmds.map Command.args = stageWords text ∧
    NameFits isBackground (cmds.map fun cmd => cmd.args.headD [])

structure Short (text : List Char) (isBackground : Bool) : Prop where
  spaced : 2 * operators text ≤ text.length
  stages : (stageWords text).length ≤ maxPipedCmds
  words : ∀ words ∈ stageWords text, words.length < maxArgs
  name : NameFits isBackground ((stageWords text).map (·.headD []))

theorem accepted_filled {raw text : List Char} {isBackground : Bool}
    (reached : accepted raw = some (text, isBackground)) : text ≠ [] := by
  rintro rfl
  simp only [accepted] at reached
  split at reached
  next => contradiction
  next =>
    obtain ⟨visible, passed⟩ := Option.ite_none_left_eq_some.mp reached
    obtain ⟨_, same⟩ := Option.ite_none_right_eq_some.mp passed
    rw [(Prod.mk.inj (Option.some.inj same)).1] at visible
    exact visible rfl

namespace Command

theorem read_plainWords (cmd : Command) {read : List Token} (pipeless : .pipe ∉ read)
    (plain : ∀ w, Token.word w ∈ read → '<' ∉ w ∧ '>' ∉ w)
    (room : cmd.args.length + (plainWords read).length ≤ maxArgs) :
    ∃ cmd', cmd.read (read.map Token.text) = some cmd' ∧ cmd'.args = cmd.args ++ plainWords read := by
  induction read using plainWords.induct generalizing cmd with
  | case1 => exact ⟨cmd, rfl, by simp [plainWords]⟩
  | case2 w rest ih =>
    rw [plainWords, List.length_cons] at room
    have longer : (cmd.take (.word w)).args = cmd.args ++ [w] := rfl
    obtain ⟨cmd', ran, args⟩ := ih (cmd.take (.word w))
      (fun inside => pipeless (List.mem_cons_of_mem _ inside))
      (fun w' inside => plain w' (List.mem_cons_of_mem _ inside))
      (by rw [longer, List.length_append, List.length_singleton]; omega)
    refine ⟨cmd', ?_, by rw [args, longer, plainWords, List.append_assoc]; rfl⟩
    show cmd.read (w :: rest.map Token.text) = some cmd'
    rw [read_word cmd (plain w List.mem_cons_self), if_pos (by omega), ran]
  | case3 op single =>
    refine ⟨cmd, ?_, by simp [plainWords]⟩
    cases op with
    | pipe => simp at pipeless
    | redirect kind => cases kind <;> rfl
    | word w => exact absurd rfl (single w)
  | case4 op file rest single ih =>
    cases op with
    | pipe => simp at pipeless
    | word w => exact absurd rfl (single w)
    | redirect kind =>
      have same : (cmd.take (.redirect kind file.text)).args = cmd.args := by cases kind <;> rfl
      have dropped : plainWords (.redirect kind :: file :: rest) = plainWords rest := rfl
      rw [dropped] at room ⊢
      obtain ⟨cmd', ran, args⟩ := ih (cmd.take (.redirect kind file.text))
        (fun inside => pipeless (List.mem_cons_of_mem _ (List.mem_cons_of_mem _ inside)))
        (fun w' inside => plain w' (List.mem_cons_of_mem _ (List.mem_cons_of_mem _ inside)))
        (by rwa [same])
      refine ⟨cmd', ?_, by rw [args, same]⟩
      show cmd.read ((Token.redirect kind).text :: file.text :: rest.map Token.text) = some cmd'
      rw [read_redirect, ran]

end Command

theorem readPipeline_words (cmds : List Command) {texts : List (List Char)} {read : List (List Token)}
    (split : texts.map (strtok argDelimiter) = read.map (·.map Token.text))
    (pipeless : ∀ piece ∈ read, .pipe ∉ piece)
    (plain : ∀ piece ∈ read, ∀ w, Token.word w ∈ piece → '<' ∉ w ∧ '>' ∉ w)
    (few : cmds.length + ((read.map plainWords).filter (· ≠ [])).length ≤ maxPipedCmds)
    (short : ∀ piece ∈ read, (plainWords piece).length ≤ maxArgs) :
    ∃ later, readPipeline cmds texts = some (cmds ++ later) ∧
      later.map Command.args = (read.map plainWords).filter (· ≠ []) := by
  induction texts generalizing cmds read with
  | nil =>
    obtain rfl := List.map_eq_nil_iff.mp split.symm
    exact ⟨[], by simp [readPipeline], rfl⟩
  | cons text rest ih =>
    cases read with
    | nil => contradiction
    | cons piece others =>
      simp only [List.map_cons, List.cons.injEq] at split
      obtain ⟨first, split⟩ := split
      rw [List.map_cons] at few ⊢
      have rested (cmds' : List Command)
          (few : cmds'.length + ((others.map plainWords).filter (· ≠ [])).length ≤ maxPipedCmds) :=
        ih cmds' split (fun p inside => pipeless p (List.mem_cons_of_mem _ inside))
          (fun p inside => plain p (List.mem_cons_of_mem _ inside)) few
          (fun p inside => short p (List.mem_cons_of_mem _ inside))
      obtain ⟨cmd, ran, args⟩ := Command.read_plainWords .empty
        (pipeless piece List.mem_cons_self) (plain piece List.mem_cons_self)
        (by simpa [Command.empty] using short piece List.mem_cons_self)
      have args' : cmd.args = plainWords piece := args
      by_cases silent : plainWords piece = []
      · rw [List.filter_cons_of_neg (by simpa using silent)] at few ⊢
        by_cases space : cmds.length < maxPipedCmds
        · have none : ¬ 0 < cmd.args.length := by simp [args', silent]
          rw [readPipeline, if_pos space, first, ran]
          simp only [none, if_false]
          exact rested cmds few
        · -- The arrays are full, so no piece that is left has a word.
          rw [readPipeline, if_neg space]
          refine ⟨[], by rw [List.append_nil], (List.eq_nil_of_length_eq_zero ?_).symm⟩
          omega
      · rw [List.filter_cons_of_pos (by simpa using silent), List.length_cons] at few
        rw [List.filter_cons_of_pos (by simpa using silent)]
        have filled : 0 < cmd.args.length := by
          rw [args']
          exact List.length_pos_iff.mpr silent
        rw [readPipeline, if_pos (by omega), first, ran]
        simp only [filled, if_true]
        obtain ⟨later, ran', same⟩ := rested (cmds ++ [cmd])
          (by rw [List.length_append, List.length_singleton]; omega)
        exact ⟨cmd :: later, by rw [ran', List.append_assoc]; rfl, by rw [List.map_cons, args', same]⟩

theorem arraysKept_iff {text : List Char} (filled : text ≠ []) (isBackground : Bool) :
    ArraysKept text isBackground ↔ Short text isBackground := by
  have spaced : bytesWritten text ≤ bytesAllocated text ↔ 2 * operators text ≤ text.length := by
    rw [bytesWritten_eq, bytesAllocated]
    omega
  have heads (cmds : List Command) :
      (cmds.map fun cmd => cmd.args.headD []) = (cmds.map Command.args).map (·.headD []) := by
    rw [List.map_map]
    rfl
  constructor
  · rintro ⟨buffer, cmds, ran, few, terminated, same, fits⟩
    rw [heads, same] at fits
    refine ⟨spaced.mp buffer, by rwa [← same, List.length_map], ?_, fits⟩
    intro words inside
    rw [← same] at inside
    obtain ⟨cmd, here, rfl⟩ := List.mem_map.mp inside
    exact terminated cmd here
  · rintro ⟨buffer, few, short, fits⟩
    have split : (pieces (addSpacesAroundRedirects text)).map (strtok argDelimiter)
        = ((pieces text).map lex).map (·.map Token.text) := by
      rw [strtok_pieces, List.map_map]
      rfl
    have inside {piece : List Token} (here : piece ∈ (pieces text).map lex) :
        .pipe ∉ piece ∧ (∀ w, Token.word w ∈ piece → '<' ∉ w ∧ '>' ∉ w) ∧
          (plainWords piece).length < maxArgs := by
      obtain ⟨piece, present, rfl⟩ := List.mem_map.mp here
      refine ⟨fun pipe => ?_, fun w read => lex_words read, ?_⟩
      · have apart := (mem_splitOnP present '|' ((lexed [] piece).from pipe)).2
        contradiction
      · by_cases silent : plainWords (lex piece) = []
        · rw [silent]
          decide
        · exact short _ (List.mem_filter.mpr ⟨List.mem_map_of_mem present, by simpa using silent⟩)
    have counted : (((pieces text).map lex).map plainWords).filter (· ≠ []) = stageWords text := by
      rw [List.map_map]
      rfl
    obtain ⟨cmds, ran, same⟩ := readPipeline_words [] split
      (fun piece here => (inside here).1) (fun piece here => (inside here).2.1)
      (by rw [counted, List.length_nil, Nat.zero_add]; exact few)
      (fun piece here => (inside here).2.2.le)
    rw [counted] at same
    refine ⟨spaced.mpr buffer, cmds, ?_, ?_, ?_, same, ?_⟩
    · rw [strtok_pipes filled, ran]
      rfl
    · rwa [← same, List.length_map] at few
    · intro cmd here
      exact short _ (same ▸ List.mem_map_of_mem here)
    · rwa [heads, same]

theorem command_arrays (line : List Char) :
    (∀ group ∈ reaching line, ArraysKept group.1 group.2) ↔
      ∀ group ∈ reaching line, Short group.1 group.2 := by
  refine forall₂_congr fun group inside => arraysKept_iff ?_ group.2
  rw [reaching] at inside
  split at inside
  next => contradiction
  next =>
    obtain ⟨raw, _, reached⟩ := List.mem_filterMap.mp inside
    exact accepted_filled reached

-- The sixty-fourth word takes the place of the last NULL.
theorem full_args_unterminated : ¬ ∀ line, ∀ group ∈ reaching line, ArraysKept group.1 group.2 := by
  intro kept
  let line := (List.replicate maxArgs ['a', ' ']).flatten
  obtain ⟨_, cmds, ran, _, terminated, _⟩ := kept line (line, false) (by decide +kernel)
  have read : readPipeline [] (strtok (· == '|') (addSpacesAroundRedirects line))
      = some [⟨List.replicate maxArgs ['a'], none, none, false⟩] := by decide +kernel
  rw [read, Option.some.injEq] at ran
  have full := terminated ⟨List.replicate maxArgs ['a'], none, none, false⟩ (ran ▸ List.mem_singleton_self _)
  simp at full

end SystemsSuite.Shell
