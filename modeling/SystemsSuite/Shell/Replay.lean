import SystemsSuite.Lib.Transition
import SystemsSuite.Shell.History

set_option autoImplicit false

namespace SystemsSuite.Shell

open Lib

-- The line is stored unless its first word is `log`, `activities` or `ping`.
def isStored (line : List Char) : Bool :=
  match (strtok argDelimiter line).head? with
  | none => false
  | some word => word ∉ ["log".toList, "activities".toList, "ping".toList]

-- What `add_to_history` writes after it has read the history.
def appended (history : List (List Char)) (command : List Char) : List Char :=
  let startIndex := if history.length = maxHistorySize then 1 else 0
  printLines (history.drop startIndex ++ [command])

def Command.isLog (cmd : Command) : Bool := decide (cmd.args.head? = some "log".toList)

def Outcome.commands : Outcome → List Command
  | .executed cmds _ => cmds
  | _ => []

-- What a process has yet to do: a call of `process_command_line`, the second half of `add_to_history`, a command
-- group, a call of `execute_log`.
inductive Task
  | process (line : List Char)
  | append (history : List (List Char)) (line : List Char)
  | group (outcome : Outcome)
  | log (args : List (List Char))

-- What comes in the place of a task, what the processes that it forks have to do, and the history file after it.
structure Progress where
  next : List Task
  forked : List (List Task)
  file : Option (List Char)

-- `starts` says which processes of a pipeline are forked and get past their redirections. Commands other than
-- `log` return, and leave the history file as it is.
def Task.run (starts : Nat → Bool) (file : Option (List Char)) : Task → Progress
  | .process line =>
    if isEmpty line then ⟨[], [], file⟩
    else
      let groups := (processCommandLine line).map Task.group
      if isStored line then
        let history := readHistory file
        if history.getLast? = some line then ⟨groups, [], file⟩ else ⟨.append history line :: groups, [], file⟩
      else ⟨groups, [], file⟩
  | .append history line => ⟨[], [], some (appended history line)⟩
  | .group (.executed [cmd] false) => if cmd.isLog then ⟨[.log cmd.args], [], file⟩ else ⟨[], [], file⟩
  | .group (.executed cmds _) =>
    let stages := cmds.zipIdx.filter fun stage => starts stage.2 && stage.1.isLog
    ⟨[], stages.map fun stage => [.log stage.1.args], file⟩
  | .group _ => ⟨[], [], file⟩
  | .log args =>
    match executeLog args file with
    | .purge => ⟨[], [], some []⟩
    | .print _ => ⟨[], [], file⟩
    | .complain _ => ⟨[], [], file⟩
    | .replay command => ⟨[.process command], [], file⟩

-- The shell, and the processes that it and they have forked.
structure Session where
  file : Option (List Char)
  todo : List (List Task)

def Session.start (line : List Char) (file : Option (List Char)) : Session := ⟨file, [[.process line]]⟩

-- One of the processes does its next task. No process waits for another: `waitpid` comes back from a pipeline
-- that is stopped, and from any other when there is a signal.
def Session.Turn (allows : Option (List Char) → Task → Prop) (s t : Session) : Prop :=
  ∃ front task rest back starts, s.todo = front ++ (task :: rest) :: back ∧ allows s.file task ∧
    t = ⟨(task.run starts s.file).file,
      front ++ ((task.run starts s.file).next ++ rest) :: back ++ (task.run starts s.file).forked⟩

def Session.Alone : Session → Session → Prop := Session.Turn fun _ _ => True

-- A call of `execute_log` that may replay a line.
def asks (args : List (List Char)) : Bool :=
  decide (args[1]? = some "execute".toList) &&
    (args[2]?).any fun text => decide (0 < atoi text ∧ atoi text ≤ maxHistorySize)

def Command.replays (cmd : Command) : Bool := cmd.isLog && asks cmd.args

def replaysOf (line : List Char) : List Command :=
  (processCommandLine line).flatMap fun outcome => outcome.commands.filter Command.replays

-- The line that is replayed, if one is, has no `log execute` of its own.
def Task.Plain (file : Option (List Char)) : Task → Prop
  | .log args => ∀ command, executeLog args file = .replay command → replaysOf command = []
  | _ => True

-- Before each turn the history file can have been changed, by other programs and shells and by what processes
-- have written of it.
def Session.PlainTurn (s t : Session) : Prop :=
  ∃ file, ({ s with file := file } : Session).Turn Task.Plain t

def Task.replays : Task → Nat
  | .process line => (replaysOf line).length
  | .append _ _ => 0
  | .group outcome => (outcome.commands.filter Command.replays).length
  | .log args => if asks args then 1 else 0

def Task.size : Task → Nat
  | .process line => (((processCommandLine line).map fun outcome => outcome.commands.length + 1).sum) + 2
  | .append _ _ => 1
  | .group outcome => outcome.commands.length + 1
  | .log _ => 1

def total (weight : Task → Nat) (todo : List (List Task)) : Nat := (todo.flatten.map weight).sum

def Session.rank (s : Session) : ℕ ×ₗ ℕ := toLex (total Task.replays s.todo, total Task.size s.todo)

theorem executeLog_replayed {args : List (List Char)} {file : Option (List Char)} {command : List Char}
    (replayed : executeLog args file = .replay command) : args[1]? = some "execute".toList ∧
      (∃ text, args[2]? = some text ∧ 0 < atoi text ∧ atoi text ≤ (readHistory file).length) ∧
      command ∈ readHistory file := by
  simp only [executeLog] at replayed
  split at replayed
  next => contradiction
  next =>
    split at replayed
    next => contradiction
    next =>
      split at replayed
      next execute =>
        split at replayed
        next => contradiction
        next text given =>
          split at replayed
          next within =>
            have position : (readHistory file).length - (atoi text).toNat < (readHistory file).length := by
              omega
            rw [List.getD_eq_getElem?_getD, List.getElem?_eq_getElem position] at replayed
            obtain rfl := LogAction.replay.inj replayed
            exact ⟨execute, ⟨text, given, within⟩, List.getElem_mem position⟩
          next => contradiction
      next => contradiction

def Holds (lines : List (List Char)) (first file : Option (List Char)) : Prop :=
  file = first ∨ ∃ kept : List (List Char), kept.length ≤ maxHistorySize ∧ kept ⊆ lines ∧ file = some (printLines kept)

section Lines

variable {lines : List (List Char)} {first file : Option (List Char)}

theorem Holds.read (single : ∀ line ∈ lines, OneLine line) (read : readHistory first ⊆ lines)
    (holds : Holds lines first file) : readHistory file ⊆ lines := by
  rcases holds with rfl | ⟨kept, _, inside, rfl⟩
  · exact read
  · rw [readHistory, Option.getD_some, readLines_printLines _ fun line here => single line (inside here)]
    exact List.Subset.trans (List.take_subset _ _) inside

theorem appended_holds {history : List (List Char)} {line : List Char} (short : history.length ≤ maxHistorySize)
    (known : history ⊆ lines) (own : line ∈ lines) : Holds lines first (some (appended history line)) := by
  have room : 0 < maxHistorySize := by decide
  refine .inr ⟨_, ?_, ?_, rfl⟩
  · rw [List.length_append, List.length_drop, List.length_singleton]
    split <;> omega
  · intro other inside
    rcases List.mem_append.mp inside with old | new
    · exact known (List.drop_subset _ _ old)
    · rwa [List.mem_singleton.mp new]

-- A line that is stored when it is processed is one of the lines.
def Task.Known (lines : List (List Char)) : Task → Prop
  | .process line => isStored line = true → line ∈ lines
  | .append history line => history.length ≤ maxHistorySize ∧ history ⊆ lines ∧ line ∈ lines
  | .group _ => True
  | .log _ => True

def Session.Listed (lines : List (List Char)) (first : Option (List Char)) (s : Session) : Prop :=
  Holds lines first s.file ∧ ∀ tasks ∈ s.todo, ∀ task ∈ tasks, task.Known lines

theorem groups_known {outcomes : List Outcome} : ∀ task ∈ outcomes.map Task.group, task.Known lines := by
  intro task inside
  obtain ⟨outcome, -, rfl⟩ := List.mem_map.mp inside
  trivial

theorem Task.run_known (starts : Nat → Bool) (single : ∀ line ∈ lines, OneLine line) (read : readHistory first ⊆ lines)
    (holds : Holds lines first file) {task : Task} (known : task.Known lines) :
    Holds lines first (task.run starts file).file ∧ (∀ after ∈ (task.run starts file).next, after.Known lines) ∧
      ∀ tasks ∈ (task.run starts file).forked, ∀ after ∈ tasks, after.Known lines := by
  have history := holds.read single read
  have ends : ∀ after ∈ ([] : List Task), after.Known lines := fun _ inside => absurd inside List.not_mem_nil
  have alone : ∀ tasks ∈ ([] : List (List Task)), ∀ after ∈ tasks, after.Known lines :=
    fun _ inside => absurd inside List.not_mem_nil
  cases task with
  | process line =>
    simp only [Task.run]
    split_ifs with empty stored last
    · exact ⟨holds, ends, alone⟩
    · exact ⟨holds, groups_known, alone⟩
    · refine ⟨holds, fun after inside => ?_, alone⟩
      obtain rfl | later := List.mem_cons.mp inside
      · exact ⟨readHistory_length file, history, known stored⟩
      · exact groups_known after later
    · exact ⟨holds, groups_known, alone⟩
  | append before line =>
    exact ⟨appended_holds known.1 known.2.1 known.2.2, ends, alone⟩
  | group outcome =>
    unfold Task.run
    split
    next => contradiction
    next => contradiction
    next cmd _ =>
      split
      · refine ⟨holds, fun after inside => ?_, alone⟩
        rw [List.mem_singleton.mp inside]
        trivial
      · exact ⟨holds, ends, alone⟩
    next cmds isBackground _ _ =>
      refine ⟨holds, ends, fun tasks inside after task => ?_⟩
      obtain ⟨stage, -, rfl⟩ := List.mem_map.mp inside
      rw [List.mem_singleton.mp task]
      trivial
    next => exact ⟨holds, ends, alone⟩
    next => contradiction
  | log args =>
    simp only [Task.run]
    split
    next => exact ⟨.inr ⟨[], by simp, by simp, rfl⟩, ends, alone⟩
    next => exact ⟨holds, ends, alone⟩
    next => exact ⟨holds, ends, alone⟩
    next command replayed =>
      refine ⟨holds, fun after inside => ?_, alone⟩
      rw [List.mem_singleton.mp inside]
      exact fun _ => history (executeLog_replayed replayed).2.2

-- Among lines without `log execute`, each turn is one that may be taken.
theorem Session.Listed.turn (single : ∀ line ∈ lines, OneLine line) (read : readHistory first ⊆ lines)
    (harmless : ∀ line ∈ lines, replaysOf line = []) {s t : Session} (listed : s.Listed lines first) (turn : s.Alone t) :
    s.PlainTurn t ∧ t.Listed lines first := by
  obtain ⟨front, task, rest, back, starts, todo, -, rfl⟩ := turn
  obtain ⟨holds, known⟩ := listed
  have here : task :: rest ∈ s.todo := by
    rw [todo]
    exact List.mem_append_right front List.mem_cons_self
  have plain : task.Plain s.file := by
    cases task with
    | log args =>
      intro command replayed
      exact harmless command (holds.read single read (executeLog_replayed replayed).2.2)
    | process line => trivial
    | append history line => trivial
    | group outcome => trivial
  obtain ⟨file, next, forked⟩ := Task.run_known starts single read holds (known _ here task List.mem_cons_self)
  refine ⟨⟨s.file, front, task, rest, back, starts, todo, plain, rfl⟩, file, fun tasks inside => ?_⟩
  rcases List.mem_append.mp inside with old | new
  · rcases List.mem_append.mp old with before | own
    · exact known tasks (by rw [todo]; exact List.mem_append_left _ before)
    · obtain rfl | after := List.mem_cons.mp own
      · intro after member
        rcases List.mem_append.mp member with here' | later
        · exact next after here'
        · exact known _ here after (List.mem_cons_of_mem task later)
      · exact known tasks (by rw [todo]; exact List.mem_append_right front (List.mem_cons_of_mem _ after))
  · exact forked tasks new

end Lines

section Repeats

variable {line : List Char} {file : Option (List Char)} {rest : List Task}

end Repeats

end SystemsSuite.Shell
