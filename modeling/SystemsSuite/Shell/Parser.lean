import SystemsSuite.Lib.Tokens

set_option autoImplicit false

namespace SystemsSuite.Shell

open Lib

def maxArgs : Nat := 64

def maxPipedCmds : Nat := 16

-- `isspace` in the C locale.
def isspace (c : Char) : Bool := c ∈ [' ', '\t', '\n', '\x0b', '\x0c', '\r']

-- `ARG_DELIMITERS`
def argDelimiter (c : Char) : Bool := c ∈ [' ', '\t', '\r', '\n', '\x07']

-- What successive calls of `strtok_r` return.
abbrev strtok (delimiter : Char → Bool) (str : List Char) : List (List Char) := tokens delimiter str

def isEmpty (s : List Char) : Bool := s.all isspace

def trimWhitespace (str : List Char) : List Char := strip isspace str

def parseGroups : List (List Char) → Bool
  | [] => true
  | group :: rest =>
    let trimmed := trimWhitespace group
    if isEmpty trimmed then
      match rest with
      | next :: _ => isEmpty next
      | [] => true
    else if trimmed.head? = some '|' ∨ trimmed.getLast? = some '|' then false
    else if (strtok (· == '|') trimmed).any isEmpty then false
    else parseGroups rest

def parseInput (input : List Char) : Bool :=
  let trimmed := trimWhitespace input
  if trimmed.getLast? = some '&' ∧ isEmpty trimmed.dropLast then false
  else
    let groups := strtok (· == ';') input
    if groups = [] ∧ ¬ isEmpty input then false else parseGroups groups

def addSpacesAroundRedirects : List Char → List Char
  | [] => []
  | '>' :: '>' :: rest => ' ' :: '>' :: '>' :: ' ' :: addSpacesAroundRedirects rest
  | c :: rest =>
    if c = '>' ∨ c = '<' ∨ c = '|' then ' ' :: c :: ' ' :: addSpacesAroundRedirects rest
    else c :: addSpacesAroundRedirects rest

structure Command where
  args : List (List Char)
  inputFile : Option (List Char)
  outputFile : Option (List Char)
  appendOutput : Bool
  deriving DecidableEq, Repr

namespace Command

def empty : Command := ⟨[], none, none, false⟩

-- The loop over the tokens of one command; `none` when it writes past the end of `args`.
def read (cmd : Command) : List (List Char) → Option Command
  | [] => some cmd
  | token :: rest =>
    if token = ['<'] then
      match rest with
      | [] => some cmd
      | file :: rest => read { cmd with inputFile := some file } rest
    else if token = ['>'] then
      match rest with
      | [] => some cmd
      | file :: rest => read { cmd with outputFile := some file, appendOutput := false } rest
    else if token = ['>', '>'] then
      match rest with
      | [] => some cmd
      | file :: rest => read { cmd with outputFile := some file, appendOutput := true } rest
    else if cmd.args.length < maxArgs then read { cmd with args := cmd.args ++ [token] } rest
    else none

end Command

def readPipeline (cmds : List Command) : List (List Char) → Option (List Command)
  | [] => some cmds
  | piece :: rest =>
    if cmds.length < maxPipedCmds then
      match Command.empty.read (strtok argDelimiter piece) with
      | none => none
      | some cmd => readPipeline (if 0 < cmd.args.length then cmds ++ [cmd] else cmds) rest
    else some cmds

-- What becomes of a command group. `overrun`: a buffer is written past its end, and nothing is
-- known from there on. `nothing`: neither a command nor a message.
inductive Outcome
  | testLine (toFile : Bool)
  | blank
  | invalidSyntax
  | overrun
  | nothing
  | executed (cmds : List Command) (isBackground : Bool)
  deriving DecidableEq, Repr

def isTestLine (group : List Char) : Prop :=
  "sleep 10 &".toList <:+: group ∧ "echo Hi There!".toList <:+: group

instance (group : List Char) : Decidable (isTestLine group) := inferInstanceAs (Decidable (_ ∧ _))

-- The group without its trailing `&`, and whether it had one.
def splitBackground (group : List Char) : List Char × Bool :=
  let kept := group.rdropWhile isspace
  if kept.getLast? = some '&' then (kept.dropLast, true) else (group, false)

def processGroup (group : List Char) : Outcome :=
  if isTestLine group then .testLine (decide ("> test.txt".toList <:+: group))
  else
    match splitBackground group with
    | (group, isBackground) =>
      if isEmpty group then .blank
      else
        let spaced := addSpacesAroundRedirects group
        -- `malloc(strlen(input) * 2 + 1)`
        if 2 * group.length < spaced.length then .overrun
        else if ¬ parseInput spaced then .invalidSyntax
        else
          match readPipeline [] (strtok (· == '|') spaced) with
          | none => .overrun
          | some [] => .nothing
          | some cmds => .executed cmds isBackground

def processCommandLine (line : List Char) : List Outcome :=
  if isEmpty line then [] else (strtok (· == ';') line).map processGroup

end SystemsSuite.Shell
