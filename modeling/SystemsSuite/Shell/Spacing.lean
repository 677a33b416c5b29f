import SystemsSuite.Shell.Grammar

set_option autoImplicit false

namespace SystemsSuite.Shell

open Lib

theorem addSpaces_cons {c : Char} {rest : List Char}
    (single : ∀ r, c = '>' → rest = '>' :: r → False) : addSpacesAroundRedirects (c :: rest) =
      if c = '>' ∨ c = '<' ∨ c = '|' then ' ' :: c :: ' ' :: addSpacesAroundRedirects rest
      else c :: addSpacesAroundRedirects rest := by
  rw [addSpacesAroundRedirects]
  exact single

theorem lexFrom_cons {word : List Char} {c : Char} {rest : List Char}
    (single : ∀ r, c = '>' → rest = '>' :: r → False) : lexFrom word (c :: rest) =
      if c = '>' then endWord word ++ .redirect .output :: lexFrom [] rest
      else if c = '<' then endWord word ++ .redirect .input :: lexFrom [] rest
      else if c = '|' then endWord word ++ .pipe :: lexFrom [] rest
      else if argDelimiter c then endWord word ++ lexFrom [] rest
      else lexFrom (word ++ [c]) rest := by
  rw [lexFrom]
  exact single

-- A `>` that no second one follows has none when a `|` and more text come after.
theorem single_append {c : Char} {rest : List Char} (text : List Char)
    (single : ∀ r, c = '>' → rest = '>' :: r → False) :
    ∀ r, c = '>' → rest ++ '|' :: text = '>' :: r → False := by
  intro r redirects followed
  cases rest with
  | nil => simp at followed
  | cons d rest =>
    simp only [List.cons_append, List.cons.injEq] at followed
    exact single rest redirects (by rw [followed.1])

theorem addSpaces_append_pipe (xs ys : List Char) : addSpacesAroundRedirects (xs ++ '|' :: ys) =
    addSpacesAroundRedirects xs ++ ' ' :: '|' :: ' ' :: addSpacesAroundRedirects ys := by
  induction xs using addSpacesAroundRedirects.induct with
  | case1 => simp [addSpacesAroundRedirects]
  | case2 rest ih => simp only [List.cons_append, addSpacesAroundRedirects, ih]
  | case3 c rest single special ih =>
    rw [List.cons_append, addSpaces_cons single, addSpaces_cons (single_append ys single),
      if_pos special, if_pos special, ih]
    simp only [List.cons_append]
  | case4 c rest single plain ih =>
    rw [List.cons_append, addSpaces_cons single, addSpaces_cons (single_append ys single),
      if_neg plain, if_neg plain, ih, List.cons_append]

theorem lexFrom_append_pipe (word xs ys : List Char) :
    lexFrom word (xs ++ '|' :: ys) = lexFrom word xs ++ .pipe :: lexFrom [] ys := by
  induction word, xs using lexFrom.induct with
  | case1 word => simp [lexFrom]
  | case2 word rest ih => simp only [List.cons_append, lexFrom, ih, List.append_assoc]
  | case3 word rest single ih =>
    rw [List.cons_append, lexFrom_cons single, lexFrom_cons (single_append ys single), ih]
    simp
  | case4 word rest single other ih =>
    rw [List.cons_append, lexFrom_cons single, lexFrom_cons (single_append ys single), ih]
    simp
  | case5 word rest single other other' ih =>
    rw [List.cons_append, lexFrom_cons single, lexFrom_cons (single_append ys single), ih]
    simp
  | case6 word c rest single other other' other'' blank ih =>
    rw [List.cons_append, lexFrom_cons single, lexFrom_cons (single_append ys single), ih]
    simp [other, other', other'', blank]
  | case7 word c rest single other other' other'' solid ih =>
    rw [List.cons_append, lexFrom_cons single, lexFrom_cons (single_append ys single), ih]
    simp [other, other', other'', solid]

def Token.text : Token → List Char
  | .pipe => ['|']
  | .redirect .input => ['<']
  | .redirect .output => ['>']
  | .redirect .append => ['>', '>']
  | .word text => text

theorem strtok_endWord {word : List Char} (plain : ∀ c ∈ word, argDelimiter c = false) :
    strtok argDelimiter word = (endWord word).map Token.text := by
  by_cases empty : word = []
  · simp [empty, endWord]
  · simp [tokens_plain empty plain, endWord, empty, Token.text]

theorem strtok_operator (word rest : List Char) (operator : List Char) (some : operator ≠ [])
    (plain : ∀ c ∈ operator, argDelimiter c = false) :
    strtok argDelimiter (word ++ ' ' :: (operator ++ ' ' :: rest))
      = strtok argDelimiter word ++ operator :: strtok argDelimiter rest := by
  have blank : argDelimiter ' ' = true := by decide
  rw [strtok, tokens_append_cons _ _ blank, tokens_append_cons _ _ blank, tokens_plain some plain]
  rfl

def Token.isOperator : Token → Bool
  | .word _ => false
  | _ => true

-- How a text, of which `word` has been read of a word, is spaced and is lexed side by side.
inductive Lexed : List Char → List Char → List Char → List Token → Prop
  | done (word : List Char) : Lexed word [] [] (endWord word)
  | operator {word rest spaced : List Char} {tokens : List Token} (op : Token) :
      op.isOperator = true → Lexed [] rest spaced tokens →
      Lexed word (op.text ++ rest) (' ' :: (op.text ++ ' ' :: spaced)) (endWord word ++ op :: tokens)
  | blank {word rest spaced : List Char} {tokens : List Token} {c : Char} :
      argDelimiter c = true → Lexed [] rest spaced tokens →
      Lexed word (c :: rest) (c :: spaced) (endWord word ++ tokens)
  | char {word rest spaced : List Char} {tokens : List Token} {c : Char} :
      wordChar c = true → Lexed (word ++ [c]) rest spaced tokens →
      Lexed word (c :: rest) (c :: spaced) tokens

theorem lexed (word text : List Char) :
    Lexed word text (addSpacesAroundRedirects text) (lexFrom word text) := by
  induction word, text using lexFrom.induct with
  | case1 word => exact .done word
  | case2 word rest ih => exact .operator (.redirect .append) rfl ih
  | case3 word rest single ih =>
    rw [addSpaces_cons single, lexFrom_cons single, if_pos (.inl rfl), if_pos rfl]
    exact .operator (.redirect .output) rfl ih
  | case4 word rest single other ih =>
    rw [addSpaces_cons single, lexFrom_cons single, if_pos (by simp), if_neg other, if_pos rfl]
    exact .operator (.redirect .input) rfl ih
  | case5 word rest single other other' ih =>
    rw [addSpaces_cons single, lexFrom_cons single, if_pos (by simp), if_neg other, if_neg other',
      if_pos rfl]
    exact .operator .pipe rfl ih
  | case6 word c rest single other other' other'' blank ih =>
    rw [addSpaces_cons single, lexFrom_cons single, if_neg (by simp [other, other', other'']),
      if_neg other, if_neg other', if_neg other'', if_pos blank]
    exact .blank blank ih
  | case7 word c rest single other other' other'' solid ih =>
    rw [addSpaces_cons single, lexFrom_cons single, if_neg (by simp [other, other', other'']),
      if_neg other, if_neg other', if_neg other'', if_neg solid]
    exact .char (by simp [wordChar, other, other', other'', solid]) ih

theorem Token.text_plain {op : Token} (isOperator : op.isOperator = true) :
    op.text ≠ [] ∧ ∀ c ∈ op.text, argDelimiter c = false := by
  cases op with
  | pipe => simp [Token.text, argDelimiter]
  | redirect kind => cases kind <;> simp [Token.text, argDelimiter]
  | word => contradiction

theorem Lexed.strtok {word text spaced : List Char} {tokens : List Token}
    (run : Lexed word text spaced tokens) (plain : ∀ c ∈ word, argDelimiter c = false) :
    strtok argDelimiter (word ++ spaced) = tokens.map Token.text := by
  induction run with
  | done word => simpa using strtok_endWord plain
  | operator op isOperator _ ih =>
    obtain ⟨filled, plain'⟩ := Token.text_plain isOperator
    rw [strtok_operator _ _ _ filled plain', List.map_append, strtok_endWord plain, List.map_cons,
      ← ih (by simp)]
    rfl
  | blank blank _ ih =>
    rw [List.map_append, ← strtok_endWord plain, ← ih (by simp)]
    exact tokens_append_cons _ _ blank
  | char character _ ih =>
    rw [List.append_cons]
    refine ih fun d here => ?_
    rcases List.mem_append.mp here with old | last
    · exact plain d old
    · rw [List.mem_singleton.mp last]
      simp only [wordChar, Bool.and_eq_true] at character
      simpa using character.1.1.1

theorem strtok_lex (text : List Char) :
    strtok argDelimiter (addSpacesAroundRedirects text) = (lex text).map Token.text :=
  (lexed [] text).strtok (by simp)

-- Where a token of a text comes from, of which `word` has been read of a word.
def Token.From (word text : List Char) : Token → Prop
  | .pipe => '|' ∈ text
  | .redirect _ => '<' ∈ text ∨ '>' ∈ text
  | .word w => ∀ c ∈ w, c ∈ word ∨ wordChar c = true

theorem endWord_from {word text : List Char} {token : Token} (read : token ∈ endWord word) :
    token.From word text := by
  by_cases none : word = []
  · simp [endWord, none] at read
  · obtain rfl : token = .word word := by simpa [endWord, none] using read
    exact fun c here => .inl here

theorem Token.From.later {token : Token} {word rest text : List Char} (read : token.From [] rest)
    (inside : rest ⊆ text) : token.From word text := by
  cases token with
  | pipe => exact inside read
  | redirect => exact read.imp (inside ·) (inside ·)
  | word w => exact fun c here => .inr ((read c here).resolve_left List.not_mem_nil)

theorem Lexed.from {word text spaced : List Char} {tokens : List Token}
    (run : Lexed word text spaced tokens) {token : Token} (read : token ∈ tokens) :
    token.From word text := by
  induction run with
  | done word => exact endWord_from read
  | operator op isOperator _ ih =>
    rcases List.mem_append.mp read with before | after
    · exact endWord_from before
    · rcases List.mem_cons.mp after with rfl | later
      · cases token with
        | pipe => exact List.mem_cons_self
        | redirect kind => cases kind <;> simp [Token.From, Token.text]
        | word => contradiction
      · exact (ih later).later (List.subset_append_right _ _)
  | blank _ _ ih =>
    rcases List.mem_append.mp read with before | later
    · exact endWord_from before
    · exact (ih later).later (List.subset_cons_self _ _)
  | char character _ ih =>
    cases token with
    | pipe => exact List.mem_cons_of_mem _ (ih read)
    | redirect => exact (ih read).imp (List.mem_cons_of_mem _) (List.mem_cons_of_mem _)
    | word w =>
      intro d here
      rcases ih read d here with old | new
      · rcases List.mem_append.mp old with older | last
        · exact .inl older
        · exact .inr (List.mem_singleton.mp last ▸ character)
      · exact .inr new

theorem lex_words {text w : List Char} (token : Token.word w ∈ lex text) : '<' ∉ w ∧ '>' ∉ w := by
  have character {c : Char} (here : c ∈ w) : wordChar c = true :=
    ((lexed [] text).from token c here).resolve_left List.not_mem_nil
  exact ⟨fun here => absurd (character here) (by decide), fun here => absurd (character here) (by decide)⟩

theorem Lexed.visible {word text spaced : List Char} {tokens : List Token}
    (run : Lexed word text spaced tokens)
    (solid : word ≠ [] ∨ ∃ c ∈ text, argDelimiter c = false) : tokens ≠ [] := by
  induction run with
  | done word =>
    rcases solid with read | ⟨c, here, _⟩
    · simp [endWord, read]
    · simp at here
  | operator => simp
  | @blank word rest _ _ d blank _ ih =>
    by_cases read : word = []
    · obtain ⟨c, here, other⟩ := solid.resolve_left (not_not_intro read)
      have later : c ∈ rest := by
        refine (List.mem_cons.mp here).resolve_left ?_
        rintro rfl
        rw [blank] at other
        contradiction
      simp [ih (.inr ⟨c, later, other⟩)]
    · simp [endWord, read]
  | char _ _ ih => exact ih (.inl (by simp))

theorem endWord_length (word : List Char) : (endWord word).length ≤ word.length ∧
    (endWord word).countP Token.isOperator = 0 := by
  cases word with
  | nil => simp [endWord]
  | cons c rest => simp [endWord, Token.isOperator]

theorem Lexed.length {word text spaced : List Char} {tokens : List Token}
    (run : Lexed word text spaced tokens) : tokens.length ≤ word.length + text.length ∧
      spaced.length = text.length + 2 * tokens.countP Token.isOperator := by
  induction run with
  | done word => simp [endWord_length]
  | @operator word rest spaced tokens op isOperator _ ih =>
    have ended := endWord_length word
    have visible := List.length_pos_iff.mpr (Token.text_plain isOperator).1
    simp only [List.length_append, List.length_cons, List.length_nil, List.countP_append,
      List.countP_cons, isOperator, if_true] at ih ⊢
    omega
  | @blank word _ _ _ _ _ _ ih =>
    have ended := endWord_length word
    simp only [List.length_append, List.length_cons, List.length_nil, List.countP_append] at ih ⊢
    omega
  | char _ _ ih =>
    simp only [List.length_append, List.length_cons, List.length_nil] at ih ⊢
    omega

-- The commands of a group, as they stand between its `|`.
def pieces (group : List Char) : List (List Char) := group.splitOnP (· == '|')

theorem pieces_append (xs ys : List Char) : pieces (xs ++ '|' :: ys) = pieces xs ++ pieces ys :=
  List.splitOnP_append_cons xs ys (p := (· == '|')) (by decide)

theorem pieces_plain {text : List Char} (plain : ∀ x ∈ text, (x == '|') = false) :
    pieces text = [text] := List.splitOnP_eq_singleton plain

theorem addSpaces_mem {x : Char} (other : x ≠ ' ') (text : List Char) :
    x ∈ addSpacesAroundRedirects text ↔ x ∈ text := by
  induction text using addSpacesAroundRedirects.induct with
  | case1 => simp [addSpacesAroundRedirects]
  | case2 rest ih => simp [addSpacesAroundRedirects, other, ih]
  | case3 c rest single special ih => simp [addSpaces_cons single, special, other, ih]
  | case4 c rest single plain ih => simp [addSpaces_cons single, plain, ih]

theorem addSpaces_pipeless {text : List Char} (plain : ∀ x ∈ text, (x == '|') = false) :
    ∀ x ∈ addSpacesAroundRedirects text, (x == '|') = false := by
  intro x here
  by_contra pipe
  have same : x = '|' := by simpa using pipe
  have inside := plain x ((addSpaces_mem (by rw [same]; decide) text).mp here)
  exact pipe inside

theorem map_pieces_addSpaces {β : Type} {f : List Char → β} (front : ∀ l, f (' ' :: l) = f l)
    (back : ∀ l, f (l ++ [' ']) = f l) (group : List Char) :
    (pieces (addSpacesAroundRedirects group)).map f
      = (pieces group).map fun piece => f (addSpacesAroundRedirects piece) := by
  have blank : (· == '|') ' ' = false := by decide
  induction group using splitOnP_induction (p := (· == '|')) with
  | single l plain => rw [pieces_plain plain, pieces_plain (addSpaces_pipeless plain)]; rfl
  | cons l x r plain separates ih =>
    obtain rfl : x = '|' := by simpa using separates
    have first : (pieces (addSpacesAroundRedirects l ++ [' '])).map f
        = [f (addSpacesAroundRedirects l)] := by
      rw [pieces, map_splitOnP_concat (p := (· == '|')) blank back, ← pieces, pieces_plain (addSpaces_pipeless plain)]
      rfl
    have later : (pieces (' ' :: addSpacesAroundRedirects r)).map f
        = (pieces r).map fun piece => f (addSpacesAroundRedirects piece) := by
      rw [pieces, map_splitOnP_cons (p := (· == '|')) blank front]
      exact ih
    rw [addSpaces_append_pipe, List.append_cons, pieces_append, pieces_append, pieces_plain plain,
      List.map_append, first, later]
    rfl

theorem strtok_pieces (group : List Char) :
    (pieces (addSpacesAroundRedirects group)).map (strtok argDelimiter)
      = (pieces group).map fun piece => (lex piece).map Token.text := by
  have blank : argDelimiter ' ' = true := by decide
  rw [map_pieces_addSpaces (fun l => tokens_cons l blank) (fun l => tokens_concat l blank)]
  exact List.map_congr_left fun piece _ => strtok_lex piece

theorem isEmpty_iff (text : List Char) : isEmpty text = true ↔ text.filter (!isspace ·) = [] := by
  simp [isEmpty, List.filter_eq_nil_iff]

theorem addSpaces_solid (text : List Char) :
    (addSpacesAroundRedirects text).filter (!isspace ·) = text.filter (!isspace ·) := by
  have blank : isspace ' ' = true := by decide
  induction text using addSpacesAroundRedirects.induct with
  | case1 => rfl
  | case2 rest ih => simp [addSpacesAroundRedirects, List.filter_cons, blank, ih]
  | case3 c rest single special ih => simp [addSpaces_cons single, special, List.filter_cons, blank, ih]
  | case4 c rest single plain ih => simp [addSpaces_cons single, plain, List.filter_cons, ih]

theorem addSpaces_isEmpty (text : List Char) :
    isEmpty (addSpacesAroundRedirects text) = isEmpty text := by
  rw [Bool.eq_iff_iff, isEmpty_iff, isEmpty_iff, addSpaces_solid]

theorem isEmpty_cons {x : Char} (blank : isspace x = true) (l : List Char) :
    isEmpty (x :: l) = isEmpty l := by
  simp [isEmpty, blank]

theorem isEmpty_concat {x : Char} (blank : isspace x = true) (l : List Char) :
    isEmpty (l ++ [x]) = isEmpty l := by
  simp [isEmpty, blank]

theorem isEmpty_pieces (group : List Char) :
    (pieces (addSpacesAroundRedirects group)).map isEmpty = (pieces group).map isEmpty := by
  have blank : isspace ' ' = true := by decide
  rw [map_pieces_addSpaces (isEmpty_cons blank) (isEmpty_concat blank)]
  exact List.map_congr_left fun piece _ => addSpaces_isEmpty piece

-- Every `|` of a spaced group stands between two blanks.
theorem addSpaces_apart (text : List Char) : (addSpacesAroundRedirects text).IsChain
    fun a b => ¬ ((a == '|') = true ∧ (b == '|') = true) := by
  induction text using addSpacesAroundRedirects.induct with
  | case1 => exact .nil
  | case2 rest ih => simpa [addSpacesAroundRedirects, List.isChain_cons] using ih
  | case3 c rest single special ih => simpa [addSpaces_cons single, special, List.isChain_cons] using ih
  | case4 c rest single plain ih =>
    rw [not_or, not_or] at plain
    simpa [addSpaces_cons single, plain, List.isChain_cons] using ih

theorem addSpaces_head (text : List Char) : (addSpacesAroundRedirects text).head? ≠ some '|' := by
  induction text using addSpacesAroundRedirects.induct with
  | case1 => simp [addSpacesAroundRedirects]
  | case2 rest ih => simp [addSpacesAroundRedirects]
  | case3 c rest single special ih => simp [addSpaces_cons single, special]
  | case4 c rest single plain ih =>
    rw [not_or, not_or] at plain
    simp [addSpaces_cons single, plain]

theorem addSpaces_last (text : List Char) : (addSpacesAroundRedirects text).getLast? ≠ some '|' := by
  have later {c : Char} {rest : List Char} (other : c ≠ '|') (ih : rest.getLast? ≠ some '|') :
      (c :: rest).getLast? ≠ some '|' := by
    cases rest with
    | nil => simpa using other
    | cons d rest => simpa [List.getLast?_cons_cons] using ih
  induction text using addSpacesAroundRedirects.induct with
  | case1 => simp [addSpacesAroundRedirects]
  | case2 rest ih =>
    rw [addSpacesAroundRedirects]
    exact later (by decide) (later (by decide) (later (by decide) (later (by decide) ih)))
  | case3 c rest single special ih =>
    rw [addSpaces_cons single, if_pos special]
    have ends := later (c := ' ') (by decide) ih
    simpa [List.getLast?_cons_cons] using ends
  | case4 c rest single plain ih =>
    rw [addSpaces_cons single, if_neg plain]
    rw [not_or, not_or] at plain
    exact later plain.2.2 ih

theorem pieces_full {group : List Char} (some : group ≠ []) :
    [] ∉ pieces (addSpacesAroundRedirects group) := by
  intro empty
  rcases nil_mem_splitOnP (addSpaces_apart group) empty with none | ⟨a, first, pipe⟩ | ⟨a, last, pipe⟩
  · cases group with
    | nil => exact some rfl
    | cons c rest =>
      rcases eq_or_ne c ' ' with rfl | other
      · simp [addSpacesAroundRedirects] at none
      · have inside := (addSpaces_mem other (c :: rest)).mpr List.mem_cons_self
        simp [none] at inside
  · obtain rfl : a = '|' := by simpa using pipe
    exact addSpaces_head group first
  · obtain rfl : a = '|' := by simpa using pipe
    exact addSpaces_last group last

theorem strtok_pipes {group : List Char} (some : group ≠ []) :
    strtok (· == '|') (addSpacesAroundRedirects group) = pieces (addSpacesAroundRedirects group) :=
  tokens_eq_splitOnP (pieces_full some)

end SystemsSuite.Shell
