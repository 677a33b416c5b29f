import SystemsSuite.Shell.Parser

set_option autoImplicit false

namespace SystemsSuite.Shell

open Lib

inductive Redirection
  | input
  | output
  | append
  deriving DecidableEq, Repr

inductive Token
  | pipe
  | redirect (kind : Redirection)
  | word (text : List Char)
  deriving DecidableEq, Repr

def wordChar (c : Char) : Bool := !argDelimiter c && c ≠ '<' && c ≠ '>' && c ≠ '|'

def endWord (word : List Char) : List Token := if word = [] then [] else [.word word]

-- The tokens of a text, of which `word` has been read of a word.
def lexFrom (word : List Char) : List Char → List Token
  | [] => endWord word
  | '>' :: '>' :: rest => endWord word ++ .redirect .append :: lexFrom [] rest
  | c :: rest =>
    if c = '>' then endWord word ++ .redirect .output :: lexFrom [] rest
    else if c = '<' then endWord word ++ .redirect .input :: lexFrom [] rest
    else if c = '|' then endWord word ++ .pipe :: lexFrom [] rest
    else if argDelimiter c then endWord word ++ lexFrom [] rest
    else lexFrom (word ++ [c]) rest

def lex (text : List Char) : List Token := lexFrom [] text

inductive Item
  | word (text : List Char)
  | redirect (kind : Redirection) (file : List Char)
  deriving DecidableEq, Repr

def Item.tokens : Item → List Token
  | .word text => [.word text]
  | .redirect kind file => [.redirect kind, .word file]

def Item.plain : Item → Option (List Char)
  | .word text => some text
  | .redirect _ _ => none

def Item.inputFile : Item → Option (List Char)
  | .redirect .input file => some file
  | _ => none

def Item.outputFile : Item → Option (List Char × Bool)
  | .redirect .output file => some (file, false)
  | .redirect .append file => some (file, true)
  | _ => none

-- stage := one or more items with at least one plain word
structure Stage where
  items : List Item
  plain : items.filterMap Item.plain ≠ []

namespace Stage

def tokens (stage : Stage) : List Token := stage.items.flatMap Item.tokens

def words (stage : Stage) : List (List Char) := stage.items.filterMap Item.plain

def command (stage : Stage) : Command where
  args := stage.words
  inputFile := (stage.items.filterMap Item.inputFile).getLast?
  outputFile := (stage.items.filterMap Item.outputFile).getLast?.map (·.1)
  appendOutput := ((stage.items.filterMap Item.outputFile).getLast?.map (·.2)).getD false

end Stage

structure Group where
  stages : List Stage
  nonempty : stages ≠ []

namespace Group

def tokens (group : Group) : List Token := [.pipe].intercalate (group.stages.map Stage.tokens)

def commands (group : Group) : List Command := group.stages.map Stage.command

end Group

def WellFormed (text : List Char) : Prop := ∃ group : Group, lex text = group.tokens

theorem items_tokens_injective {items items' : List Item}
    (same : items.flatMap Item.tokens = items'.flatMap Item.tokens) : items = items' := by
  induction items generalizing items' with
  | nil =>
    cases items' with
    | nil => rfl
    | cons item rest => cases item <;> simp [Item.tokens] at same
  | cons item rest ih =>
    cases items' with
    | nil => cases item <;> simp [Item.tokens] at same
    | cons item' rest' =>
      cases item <;> cases item' <;> simp only [List.flatMap_cons, Item.tokens, List.cons_append,
        List.nil_append, List.cons.injEq, Token.word.injEq, Token.redirect.injEq, reduceCtorEq,
        false_and] at same
      case word.word => rw [same.1, ih same.2]
      case redirect.redirect => rw [same.1, same.2.1, ih same.2.2]

theorem Stage.tokens_injective {stage stage' : Stage} (same : stage.tokens = stage'.tokens) :
    stage = stage' := by
  cases stage
  cases stage'
  simp only [Stage.mk.injEq]
  exact items_tokens_injective same

theorem Stage.pipe_not_mem (stage : Stage) : Token.pipe ∉ stage.tokens := by
  intro here
  obtain ⟨item, _, inside⟩ := List.mem_flatMap.mp here
  cases item <;> simp [Item.tokens] at inside

theorem Group.splitOn_tokens (group : Group) :
    group.tokens.splitOn .pipe = group.stages.map Stage.tokens := by
  refine List.splitOn_intercalate _ ?_ (by simpa using group.nonempty)
  intro piece here
  obtain ⟨stage, _, rfl⟩ := List.mem_map.mp here
  exact stage.pipe_not_mem

theorem Group.tokens_injective {group group' : Group} (same : group.tokens = group'.tokens) :
    group = group' := by
  have stages : group.stages.map Stage.tokens = group'.stages.map Stage.tokens := by
    rw [← group.splitOn_tokens, ← group'.splitOn_tokens, same]
  cases group
  cases group'
  simp only [Group.mk.injEq]
  exact List.map_injective_iff.mpr (fun _ _ => Stage.tokens_injective) stages

end SystemsSuite.Shell
