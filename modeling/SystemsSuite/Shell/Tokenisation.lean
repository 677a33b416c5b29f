import SystemsSuite.Shell.Pipelines

set_option autoImplicit false

namespace SystemsSuite.Shell

open Lib

-- How the loop over the tokens of a command tells the operators.
def Token.classify (token : List Char) : Token :=
  if token = ['<'] then .redirect .input
  else if token = ['>'] then .redirect .output
  else if token = ['>', '>'] then .redirect .append
  else .word token

-- The tokens of the two loops over a spaced group, with a `|` between its pieces.
def splitTokens (spaced : List Char) : List Token :=
  [.pipe].intercalate
    ((strtok (· == '|') spaced).map fun piece => (strtok argDelimiter piece).map Token.classify)

theorem Token.classify_text {token : Token} (other : token ≠ .pipe)
    (plain : ∀ w, token = .word w → '<' ∉ w ∧ '>' ∉ w) : Token.classify token.text = token := by
  cases token with
  | pipe => contradiction
  | redirect kind => cases kind <;> rfl
  | word w =>
    obtain ⟨input, output⟩ := plain w rfl
    have notInput : w ≠ ['<'] := by rintro rfl; simp at input
    have notOutput : w ≠ ['>'] := by rintro rfl; simp at output
    have notAppend : w ≠ ['>', '>'] := by rintro rfl; simp at output
    simp [Token.classify, Token.text, notInput, notOutput, notAppend]

-- A piece of a group has no `|`, and what the loop tells of its tokens is what they are.
theorem classify_piece {group piece : List Char} (inside : piece ∈ pieces group) :
    ((lex piece).map Token.text).map Token.classify = lex piece := by
  rw [List.map_map, List.map_congr_left, List.map_id]
  intro token read
  refine Token.classify_text ?_ ?_
  · rintro rfl
    have apart := (mem_splitOnP inside '|' ((lexed [] piece).from read)).2
    contradiction
  · rintro w rfl
    exact lex_words read

theorem splitTokens_addSpaces (text : List Char) :
    splitTokens (addSpacesAroundRedirects text) = lex text := by
  rcases eq_or_ne text [] with rfl | filled
  · rfl
  · have pieced := congrArg (List.map (List.map Token.classify)) (strtok_pieces text)
    rw [List.map_map, List.map_map] at pieced
    have classified : (pieces text).map (fun piece => ((lex piece).map Token.text).map Token.classify)
        = (pieces text).map lex := List.map_congr_left fun piece inside => classify_piece inside
    rw [splitTokens, strtok_pipes filled, lex_pieces, ← classified]
    exact congrArg _ pieced

theorem lexFrom_delimiter {c : Char} (delimiter : argDelimiter c = true) (word rest : List Char) :
    lexFrom word (c :: rest) = endWord word ++ lexFrom [] rest := by
  have output : c ≠ '>' := by rintro rfl; contradiction
  have input : c ≠ '<' := by rintro rfl; contradiction
  have pipe : c ≠ '|' := by rintro rfl; contradiction
  rw [lexFrom_cons fun _ redirects => absurd redirects output, if_neg output, if_neg input,
    if_neg pipe, if_pos delimiter]

theorem lexFrom_wordChar {c : Char} (character : wordChar c = true) (word rest : List Char) :
    lexFrom word (c :: rest) = lexFrom (word ++ [c]) rest := by
  simp only [wordChar, Bool.and_eq_true, Bool.not_eq_true', decide_eq_true_eq] at character
  obtain ⟨⟨⟨solid, input⟩, output⟩, pipe⟩ := character
  rw [lexFrom_cons fun _ redirects => absurd redirects output, if_neg output, if_neg input,
    if_neg pipe, if_neg (by simp [solid])]

theorem lexFrom_operator {op : Token} (isOperator : op.isOperator = true) (rest : List Char) :
    lexFrom [] (op.text ++ ' ' :: rest) = op :: lexFrom [] rest := by
  have blank := lexFrom_delimiter (c := ' ') (by decide) [] rest
  have single {c : Char} : ∀ r, c = '>' → ' ' :: rest = '>' :: r → False := by
    intro r _ followed
    simp at followed
  cases op with
  | pipe =>
    rw [Token.text, List.singleton_append, lexFrom_cons single, blank]
    rfl
  | redirect kind =>
    cases kind with
    | input =>
      rw [Token.text, List.singleton_append, lexFrom_cons single, blank]
      rfl
    | output =>
      rw [Token.text, List.singleton_append, lexFrom_cons single, blank]
      rfl
    | append =>
      rw [Token.text, List.cons_append, List.singleton_append, lexFrom, blank]
      rfl
  | word => contradiction

theorem Lexed.lex_spaced {word text spaced : List Char} {tokens : List Token}
    (run : Lexed word text spaced tokens) : lexFrom word spaced = tokens := by
  induction run with
  | done word => rfl
  | operator op isOperator _ ih =>
    rw [lexFrom_delimiter (by decide), lexFrom_operator isOperator, ih]
  | blank delimiter _ ih => rw [lexFrom_delimiter delimiter, ih]
  | char character _ ih => rw [lexFrom_wordChar character, ih]

theorem lex_addSpaces (text : List Char) : lex (addSpacesAroundRedirects text) = lex text :=
  (lexed [] text).lex_spaced

-- The loops see the tokens of the text, and spacing it a second time changes none of them.
theorem maximal_munch (text : List Char) :
    splitTokens (addSpacesAroundRedirects text) = lex text ∧
      splitTokens (addSpacesAroundRedirects (addSpacesAroundRedirects text))
        = splitTokens (addSpacesAroundRedirects text) := by
  refine ⟨splitTokens_addSpaces text, ?_⟩
  rw [splitTokens_addSpaces, splitTokens_addSpaces, lex_addSpaces]

example : splitTokens (addSpacesAroundRedirects "a>>>b|<c|".toList) =
    [.word ['a'], .redirect .append, .redirect .output, .word ['b'], .pipe, .redirect .input,
      .word ['c'], .pipe] := by
  decide +kernel

-- The bytes written to `result`, with the NUL.
def bytesWritten (input : List Char) : Nat := (addSpacesAroundRedirects input).length + 1

-- `malloc(strlen(input) * 2 + 1)`
def bytesAllocated (input : List Char) : Nat := input.length * 2 + 1

def operators (text : List Char) : Nat := (lex text).countP Token.isOperator

theorem bytesWritten_eq (input : List Char) :
    bytesWritten input = input.length + 2 * operators input + 1 := by
  rw [bytesWritten, (lexed [] input).length.2]
  rfl

theorem spacing_fits (input : List Char) :
    bytesWritten input ≤ bytesAllocated input ↔ 2 * operators input ≤ input.length := by
  rw [bytesWritten_eq, bytesAllocated]
  omega

-- A lone operator takes four bytes of three.
theorem lone_operator_overruns : ¬ ∀ input, bytesWritten input ≤ bytesAllocated input := by
  intro fits
  exact absurd (fits "<".toList) (by decide +kernel)

end SystemsSuite.Shell
