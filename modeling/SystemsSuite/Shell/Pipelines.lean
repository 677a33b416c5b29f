import SystemsSuite.Shell.Validation

set_option autoImplicit false

namespace SystemsSuite.Shell

open Lib

namespace Command

def take (cmd : Command) : Item → Command
  | .word text => { cmd with args := cmd.args ++ [text] }
  | .redirect .input file => { cmd with inputFile := some file }
  | .redirect .output file => { cmd with outputFile := some file, appendOutput := false }
  | .redirect .append file => { cmd with outputFile := some file, appendOutput := true }

theorem read_word (cmd : Command) {text : List Char} (plain : '<' ∉ text ∧ '>' ∉ text)
    (rest : List (List Char)) : cmd.read (text :: rest) =
      if cmd.args.length < maxArgs then (cmd.take (.word text)).read rest else none := by
  have input : text ≠ ['<'] := by rintro rfl; simp at plain
  have output : text ≠ ['>'] := by rintro rfl; simp at plain
  have append : text ≠ ['>', '>'] := by rintro rfl; simp at plain
  rw [read.eq_def]
  simp only [input, output, append, if_false, take]

theorem read_redirect (cmd : Command) (kind : Redirection) (file : List Char) (rest : List (List Char)) :
    cmd.read ((Token.redirect kind).text :: file :: rest)
      = (cmd.take (.redirect kind file)).read rest := by
  cases kind <;> rw [read.eq_def] <;> simp [Token.text, take]

theorem read_items {cmd : Command} {items : List Item} (room : cmd.args.length ≤ maxArgs)
    (words : ∀ w, Token.word w ∈ items.flatMap Item.tokens → '<' ∉ w ∧ '>' ∉ w) :
    cmd.read ((items.flatMap Item.tokens).map Token.text) =
      if cmd.args.length + (items.filterMap Item.plain).length ≤ maxArgs then some (items.foldl take cmd)
      else none := by
  induction items generalizing cmd with
  | nil => simp [read, room]
  | cons item rest ih =>
    have words' : ∀ w, Token.word w ∈ rest.flatMap Item.tokens → '<' ∉ w ∧ '>' ∉ w := by
      intro w token
      obtain ⟨item', here, inside⟩ := List.mem_flatMap.mp token
      exact words w (List.mem_flatMap.mpr ⟨item', List.mem_cons_of_mem _ here, inside⟩)
    cases item with
    | word text =>
      have plain := words text (by simp [Item.tokens])
      have longer : (cmd.take (.word text)).args.length = cmd.args.length + 1 := by simp [take]
      have counted : ((Item.word text :: rest).filterMap Item.plain).length
          = (rest.filterMap Item.plain).length + 1 := by simp [Item.plain]
      show cmd.read (text :: (rest.flatMap Item.tokens).map Token.text) = _
      rw [read_word cmd plain, counted, List.foldl_cons]
      by_cases space : cmd.args.length < maxArgs
      · rw [if_pos space, ih (by omega) words', longer]
        congr 2
        omega
      · rw [if_neg space, if_neg (by omega)]
    | redirect kind file =>
      have same : (cmd.take (.redirect kind file)).args = cmd.args := by cases kind <;> rfl
      have counted : ((Item.redirect kind file :: rest).filterMap Item.plain).length
          = (rest.filterMap Item.plain).length := congrArg List.length (List.filterMap_cons_none rfl)
      show cmd.read ((Token.redirect kind).text :: file :: (rest.flatMap Item.tokens).map Token.text) = _
      rw [read_redirect, ih (by rwa [same]) words', same, counted, List.foldl_cons]

theorem foldl_take (items : List Item) : items.foldl take empty =
    { args := items.filterMap Item.plain
      inputFile := (items.filterMap Item.inputFile).getLast?
      outputFile := (items.filterMap Item.outputFile).getLast?.map (·.1)
      appendOutput := ((items.filterMap Item.outputFile).getLast?.map (·.2)).getD false } := by
  induction items using List.reverseRecOn with
  | nil => rfl
  | append_singleton items item ih =>
    rw [List.foldl_append, ih]
    cases item with
    | word text => simp [take, Item.plain, Item.inputFile, Item.outputFile]
    | redirect kind file => cases kind <;> simp [take, Item.plain, Item.inputFile, Item.outputFile]

theorem read_stage (stage : Stage)
    (words : ∀ w, Token.word w ∈ stage.tokens → '<' ∉ w ∧ '>' ∉ w) :
    empty.read (stage.tokens.map Token.text) =
      if stage.words.length ≤ maxArgs then some stage.command else none := by
  have room : empty.args.length ≤ maxArgs := Nat.zero_le _
  have items := read_items room words
  have counted : empty.args.length + (stage.items.filterMap Item.plain).length = stage.words.length :=
    Nat.zero_add _
  rw [foldl_take, counted] at items
  exact items

end Command

theorem readPipeline_stages {cmds : List Command} {texts : List (List Char)} {stages : List Stage}
    (split : texts.map (strtok argDelimiter) = stages.map fun stage => stage.tokens.map Token.text)
    (words : ∀ stage ∈ stages, ∀ w, Token.word w ∈ stage.tokens → '<' ∉ w ∧ '>' ∉ w)
    (room : cmds.length + stages.length ≤ maxPipedCmds) :
    readPipeline cmds texts =
      if ∀ stage ∈ stages, stage.words.length ≤ maxArgs then some (cmds ++ stages.map Stage.command)
      else none := by
  induction texts generalizing cmds stages with
  | nil =>
    obtain rfl := List.map_eq_nil_iff.mp split.symm
    simp [readPipeline]
  | cons text rest ih =>
    cases stages with
    | nil => contradiction
    | cons stage later =>
      simp only [List.map_cons, List.cons.injEq] at split
      rw [List.length_cons] at room
      have first := Command.read_stage stage (words stage List.mem_cons_self)
      have filled : 0 < stage.command.args.length := List.length_pos_iff.mpr stage.plain
      rw [readPipeline, if_pos (by omega), split.1, first]
      by_cases short : stage.words.length ≤ maxArgs
      · rw [if_pos short]
        simp only [filled, if_true]
        rw [ih split.2 (fun stage here => words stage (List.mem_cons_of_mem _ here))
          (by simp only [List.length_append, List.length_singleton]; omega)]
        simp [short]
      · rw [if_neg short]
        simp [short]

theorem readPipeline_length {cmds cmds' : List Command} {texts : List (List Char)}
    (room : cmds.length ≤ maxPipedCmds) (read : readPipeline cmds texts = some cmds') :
    cmds'.length ≤ maxPipedCmds := by
  induction texts generalizing cmds with
  | nil =>
    obtain rfl := Option.some.inj read
    exact room
  | cons text rest ih =>
    rw [readPipeline] at read
    split at read
    next space =>
      split at read
      next => contradiction
      next cmd _ =>
        refine ih ?_ read
        split
        next => rw [List.length_append, List.length_singleton]; omega
        next => exact room
    next =>
      obtain rfl := Option.some.inj read
      exact room

theorem lex_append_pipe (xs ys : List Char) : lex (xs ++ '|' :: ys) = lex xs ++ .pipe :: lex ys :=
  lexFrom_append_pipe [] xs ys

theorem pieces_ne_nil (text : List Char) : pieces text ≠ [] := List.splitOnP_ne_nil _ text

theorem lex_pieces (group : List Char) : lex group = [.pipe].intercalate ((pieces group).map lex) := by
  induction group using splitOnP_induction (p := (· == '|')) with
  | single l plain => simp [pieces_plain plain]
  | cons l x r plain separates ih =>
    obtain rfl : x = '|' := by simpa using separates
    have later : (pieces r).map lex ≠ [] := mt List.map_eq_nil_iff.mp (pieces_ne_nil r)
    rw [lex_append_pipe, pieces_append, pieces_plain plain, List.singleton_append, List.map_cons,
      List.intercalate_cons_of_ne_nil later, ← ih]
    simp

theorem lex_splitOn (group : List Char) : (lex group).splitOn .pipe = (pieces group).map lex := by
  rw [lex_pieces]
  refine List.splitOn_intercalate _ ?_ (mt List.map_eq_nil_iff.mp (pieces_ne_nil group))
  intro tokens here pipe
  obtain ⟨piece, inside, rfl⟩ := List.mem_map.mp here
  have other := (mem_splitOnP inside '|' ((lexed [] piece).from pipe)).2
  contradiction

theorem lex_eq_tokens {text : List Char} {group : Group} :
    lex text = group.tokens ↔ (pieces text).map lex = group.stages.map Stage.tokens := by
  constructor
  · intro same
    rw [← lex_splitOn, same, group.splitOn_tokens]
  · intro same
    rw [lex_pieces, same]
    rfl

def IsStage (text : List Char) : Prop := ∃ stage : Stage, lex text = stage.tokens

theorem wellFormed_iff {text : List Char} : WellFormed text ↔ ∀ piece ∈ pieces text, IsStage piece := by
  constructor
  · intro ⟨group, same⟩ piece here
    have inside : lex piece ∈ group.stages.map Stage.tokens :=
      lex_eq_tokens.mp same ▸ List.mem_map_of_mem here
    obtain ⟨stage, _, tokens⟩ := List.mem_map.mp inside
    exact ⟨stage, tokens.symm⟩
  · intro all
    have inRange : (pieces text).map lex ∈ Set.range (List.map Stage.tokens) := by
      rw [Set.range_list_map]
      intro tokens here
      obtain ⟨piece, inside, rfl⟩ := List.mem_map.mp here
      obtain ⟨stage, same⟩ := all piece inside
      exact ⟨stage, same.symm⟩
    obtain ⟨stages, same⟩ := inRange
    have nonempty : stages ≠ [] := by
      rintro rfl
      exact pieces_ne_nil text (List.map_eq_nil_iff.mp same.symm)
    exact ⟨⟨stages, nonempty⟩, lex_eq_tokens.mpr same.symm⟩

theorem Stage.tokens_length (stage : Stage) :
    stage.tokens.length = 2 * stage.tokens.countP Token.isOperator + stage.words.length := by
  rw [tokens, words]
  induction stage.items with
  | nil => rfl
  | cons item rest ih =>
    cases item with
    | word text =>
      simp only [List.flatMap_cons, Item.tokens, List.singleton_append, List.length_cons,
        List.countP_cons, Token.isOperator, Bool.false_eq_true, if_false, List.filterMap_cons,
        Item.plain, ih]
      omega
    | redirect kind file =>
      simp only [List.flatMap_cons, Item.tokens, List.cons_append, List.nil_append, List.length_cons,
        List.countP_cons, Token.isOperator, Bool.false_eq_true, if_false, if_true,
        List.filterMap_cons, Item.plain, ih]
      omega

theorem Group.tokens_length (group : Group) :
    2 * group.tokens.countP Token.isOperator + 1 ≤ group.tokens.length := by
  have stage (stage : Stage) : 2 * stage.tokens.countP Token.isOperator + 1 ≤ stage.tokens.length := by
    have visible := List.length_pos_iff.mpr stage.plain
    have exactly := stage.tokens_length
    rw [Stage.words] at exactly
    omega
  obtain ⟨stages, nonempty⟩ := group
  simp only [tokens]
  induction stages with
  | nil => contradiction
  | cons first rest ih =>
    have here := stage first
    cases rest with
    | nil => simpa using here
    | cons second rest =>
      have later := ih (List.cons_ne_nil _ _)
      rw [List.map_cons, List.intercalate_cons_of_ne_nil (by simp)]
      simp only [List.length_append, List.length_singleton, List.countP_append, List.countP_singleton,
        Token.isOperator, if_true]
      omega

-- A well-formed group has more words than operators, so the buffer holds it with its blanks.
theorem WellFormed.fits {text : List Char} (formed : WellFormed text) :
    (addSpacesAroundRedirects text).length ≤ 2 * text.length := by
  obtain ⟨group, same⟩ := formed
  obtain ⟨read, spaced⟩ := (lexed [] text).length
  have words := group.tokens_length
  rw [← same] at words
  rw [← lex] at read spaced
  simp only [List.length_nil, Nat.zero_add] at read
  omega

def Outcome.Executes (outcome : Outcome) : Prop :=
  ∃ cmds isBackground, outcome = .executed cmds isBackground

-- The shell runs just the well-formed groups, rejects the others and runs what they say.
structure Meets (text : List Char) (outcome : Outcome) : Prop where
  runs : outcome.Executes ↔ WellFormed text
  rejects : ¬ outcome.Executes → outcome = .invalidSyntax
  commands : ∀ cmds isBackground, outcome = .executed cmds isBackground →
    ∀ group : Group, lex text = group.tokens → cmds = group.commands

-- The group is not a lone `&`. If a piece is blank, a piece is no stage and the buffer holds the
-- spaced group. If none is, every piece is a stage and the arrays hold the commands and their words.
def Judged (text : List Char) : Prop :=
  trimWhitespace text ≠ ['&'] ∧
    if (pieces text).any isEmpty then
      (∃ piece ∈ pieces text, ¬ IsStage piece) ∧
        (addSpacesAroundRedirects text).length ≤ 2 * text.length
    else
      (pieces text).length ≤ maxPipedCmds ∧
        ∀ piece ∈ pieces text, ∃ stage : Stage, lex piece = stage.tokens ∧ stage.words.length ≤ maxArgs

theorem Meets.formed {text : List Char} {outcome : Outcome} (meets : Meets text outcome)
    (other : outcome ≠ .invalidSyntax) : outcome.Executes ∧ WellFormed text := by
  have executes : outcome.Executes := by
    by_contra idle
    exact other (meets.rejects idle)
  exact ⟨executes, meets.runs.mp executes⟩

theorem invalidSyntax_meets {text : List Char} :
    Meets text .invalidSyntax ↔ ¬ WellFormed text := by
  have idle : ¬ Outcome.invalidSyntax.Executes := by
    intro ⟨_, _, executed⟩
    contradiction
  constructor
  · intro meets formed
    exact idle (meets.runs.mpr formed)
  · intro malformed
    exact
      { runs := iff_of_false idle malformed
        rejects := fun _ => rfl
        commands := fun _ _ executed => by contradiction }

theorem overrun_not_meets {text : List Char} : ¬ Meets text .overrun := by
  intro meets
  obtain ⟨_, _, executed⟩ := (meets.formed (by simp)).1
  contradiction

theorem plain_wellFormed {text : List Char} (solid : ∃ c ∈ text, argDelimiter c = false)
    (plain : '|' ∉ text ∧ '<' ∉ text ∧ '>' ∉ text) : WellFormed text := by
  have run := lexed [] text
  have words : lex text ∈ Set.range (List.map Token.word) := by
    rw [Set.range_list_map]
    intro token here
    have origin := run.from here
    cases token with
    | pipe => exact absurd origin plain.1
    | redirect => exact absurd origin (not_or.mpr plain.2)
    | word w => exact ⟨w, rfl⟩
  obtain ⟨ws, same⟩ := words
  have filled : ws ≠ [] := by
    rintro rfl
    exact run.visible (.inr solid) same.symm
  have items : (ws.map Item.word).filterMap Item.plain = ws := by
    rw [List.filterMap_map]
    exact List.filterMap_some
  have stage : IsStage text := by
    refine ⟨⟨ws.map Item.word, by rwa [items]⟩, ?_⟩
    rw [← same, Stage.tokens, List.flatMap_map]
    exact List.map_eq_flatMap
  have single : pieces text = [text] := pieces_plain fun x here => by
    simpa using fun pipe : x = '|' => plain.1 (pipe ▸ here)
  refine wellFormed_iff.mpr fun piece here => ?_
  rw [single, List.mem_singleton] at here
  rwa [here]

-- A lone `&` is a word.
theorem lone_amp_wellFormed {text : List Char} (alone : trimWhitespace text = ['&']) : WellFormed text := by
  obtain ⟨before, after, whole, leading, trailing⟩ := strip_infix isspace text
  rw [show strip isspace text = ['&'] from alone] at whole
  have other {c : Char} (here : c ∈ text) : isspace c = true ∨ c = '&' := by
    rw [whole] at here
    rcases List.mem_append.mp here with front | back
    · rcases List.mem_append.mp front with lead | amp
      · exact .inl (leading c lead)
      · exact .inr (List.mem_singleton.mp amp)
    · exact .inl (trailing c back)
  have amp : '&' ∈ text := by rw [whole]; simp
  exact plain_wellFormed ⟨'&', amp, by decide⟩
    ⟨fun here => absurd (other here) (by decide), fun here => absurd (other here) (by decide),
      fun here => absurd (other here) (by decide)⟩

theorem readPipeline_group {text : List Char} (filled : text ≠ []) {group : Group}
    (same : lex text = group.tokens) (room : group.stages.length ≤ maxPipedCmds) :
    readPipeline [] (strtok (· == '|') (addSpacesAroundRedirects text)) =
      if ∀ stage ∈ group.stages, stage.words.length ≤ maxArgs then some group.commands else none := by
  have stages := lex_eq_tokens.mp same
  have split : (pieces (addSpacesAroundRedirects text)).map (strtok argDelimiter)
      = group.stages.map fun stage => stage.tokens.map Token.text := by
    have both := congrArg (List.map (List.map Token.text)) stages
    rw [List.map_map, List.map_map] at both
    rw [strtok_pieces]
    exact both
  have words : ∀ stage ∈ group.stages, ∀ w, Token.word w ∈ stage.tokens → '<' ∉ w ∧ '>' ∉ w := by
    intro stage here w token
    have inside : stage.tokens ∈ (pieces text).map lex := stages ▸ List.mem_map_of_mem here
    obtain ⟨piece, _, tokens⟩ := List.mem_map.mp inside
    exact lex_words (tokens ▸ token)
  rw [strtok_pipes filled, readPipeline_stages split words (by simpa using room)]
  rfl

theorem processGroup_eq {raw text : List Char} {isBackground : Bool} (ordinary : ¬ isTestLine raw)
    (split : splitBackground raw = (text, isBackground)) (nonblank : isEmpty text = false) :
    processGroup raw =
      if 2 * text.length < (addSpacesAroundRedirects text).length then .overrun
      else if ¬ parseInput (addSpacesAroundRedirects text) = true then .invalidSyntax
      else
        match readPipeline [] (strtok (· == '|') (addSpacesAroundRedirects text)) with
        | none => .overrun
        | some [] => .nothing
        | some cmds => .executed cmds isBackground := by
  rw [processGroup, if_neg ordinary, split]
  exact if_neg (by rw [nonblank]; exact Bool.false_ne_true)

theorem splitBackground_subset (raw : List Char) : (splitBackground raw).1 ⊆ raw := by
  rw [splitBackground]
  split
  next => exact fun c here => (List.rdropWhile_prefix isspace raw).subset (List.dropLast_subset _ here)
  next => exact fun c here => here

theorem stages_length {text : List Char} {group : Group} (same : lex text = group.tokens) :
    (pieces text).length = group.stages.length := by
  simpa using congrArg List.length (lex_eq_tokens.mp same)

theorem Judged.wellFormed {text : List Char} (judged : Judged text)
    (filled : (pieces text).any isEmpty = false) : WellFormed text := by
  obtain ⟨_, judged⟩ := judged
  rw [if_neg (by simp [filled])] at judged
  refine wellFormed_iff.mpr fun piece here => ?_
  obtain ⟨stage, same, _⟩ := judged.2 piece here
  exact ⟨stage, same⟩

theorem accepted_meets {text : List Char} {isBackground : Bool} (nonblank : isEmpty text = false)
    (alone : trimWhitespace text ≠ ['&']) (full : (pieces text).any isEmpty = false)
    {outcome : Outcome} (read : outcome =
      match readPipeline [] (strtok (· == '|') (addSpacesAroundRedirects text)) with
      | none => .overrun
      | some [] => .nothing
      | some cmds => .executed cmds isBackground) : Meets text outcome ↔ Judged text := by
  have filled : text ≠ [] := by
    rintro rfl
    contradiction
  constructor
  · intro meets
    have accepted : outcome ≠ .invalidSyntax := by
      rw [read]
      split <;> simp
    obtain ⟨⟨cmds, inBackground, executed⟩, group, same⟩ := meets.formed accepted
    have commands := meets.commands cmds inBackground executed group same
    have ran : readPipeline [] (strtok (· == '|') (addSpacesAroundRedirects text)) = some cmds := by
      rw [read] at executed
      split at executed
      next => contradiction
      next => contradiction
      next ran =>
        cases executed
        exact ran
    have room : group.stages.length ≤ maxPipedCmds := by
      have short := readPipeline_length (Nat.zero_le _) ran
      rwa [commands, Group.commands, List.length_map] at short
    rw [readPipeline_group filled same room] at ran
    obtain ⟨short, _⟩ := Option.ite_none_right_eq_some.mp ran
    refine ⟨alone, ?_⟩
    rw [if_neg (by simp [full])]
    refine ⟨(stages_length same).trans_le room, fun piece here => ?_⟩
    have inside : lex piece ∈ group.stages.map Stage.tokens :=
      lex_eq_tokens.mp same ▸ List.mem_map_of_mem here
    obtain ⟨stage, present, tokens⟩ := List.mem_map.mp inside
    exact ⟨stage, tokens.symm, short stage present⟩
  · intro judged
    have formed := judged.wellFormed full
    obtain ⟨group, same⟩ := formed
    obtain ⟨_, judged⟩ := judged
    rw [if_neg (by simp [full]), stages_length same] at judged
    have short : ∀ stage ∈ group.stages, stage.words.length ≤ maxArgs := by
      intro stage present
      have inside : stage.tokens ∈ (pieces text).map lex :=
        lex_eq_tokens.mp same ▸ List.mem_map_of_mem present
      obtain ⟨piece, here, tokens⟩ := List.mem_map.mp inside
      obtain ⟨stage', tokens', few⟩ := judged.2 piece here
      obtain rfl := Stage.tokens_injective (tokens.symm.trans tokens')
      exact few
    have executed : outcome = .executed group.commands isBackground := by
      rw [read, readPipeline_group filled same judged.1, if_pos short]
      cases stages : group.commands with
      | nil => exact absurd (List.map_eq_nil_iff.mp stages) group.nonempty
      | cons => rfl
    have executes : outcome.Executes := ⟨_, _, executed⟩
    refine ⟨iff_of_true executes ⟨group, same⟩, fun idle => absurd executes idle, ?_⟩
    intro cmds inBackground executed' group' same'
    rw [executed] at executed'
    cases executed'
    rw [Group.tokens_injective (same.symm.trans same')]

theorem processGroup_judged {line raw : List Char} (group : raw ∈ strtok (· == ';') line)
    (ordinary : ¬ isTestLine raw) (nonblank : isEmpty (splitBackground raw).1 = false) :
    Meets (splitBackground raw).1 (processGroup raw) ↔ Judged (splitBackground raw).1 := by
  have single : ∀ x ∈ (splitBackground raw).1, (x == ';') = false := fun x here =>
    (mem_tokens group x (splitBackground_subset raw here)).2
  cases split : splitBackground raw with | mk text isBackground
  rw [split] at nonblank single
  have outcome := processGroup_eq ordinary split nonblank
  have parsed := parseInput_iff nonblank single
  show Meets text (processGroup raw) ↔ Judged text
  by_cases large : 2 * text.length < (addSpacesAroundRedirects text).length
  · rw [outcome, if_pos large]
    refine iff_of_false overrun_not_meets fun judged => ?_
    cases blank : (pieces text).any isEmpty with
    | true =>
      have fits := judged.2
      rw [if_pos blank] at fits
      omega
    | false =>
      have fits := (judged.wellFormed blank).fits
      omega
  · rw [if_neg large] at outcome
    cases valid : parseInput (addSpacesAroundRedirects text) with
    | true =>
      obtain ⟨alone, full⟩ := parsed.mp valid
      rw [valid, if_neg (not_not_intro rfl)] at outcome
      exact accepted_meets nonblank alone full outcome
    | false =>
      rw [outcome, valid, if_pos Bool.false_ne_true, invalidSyntax_meets, Judged]
      by_cases alone : trimWhitespace text = ['&']
      · exact iff_of_false (not_not_intro (lone_amp_wellFormed alone)) fun judged => judged.1 alone
      · have blank : (pieces text).any isEmpty = true := by
          by_contra full
          rw [parsed.mpr ⟨alone, by simpa using full⟩] at valid
          contradiction
        rw [if_pos blank, wellFormed_iff]
        simp only [not_forall, exists_prop]
        exact ⟨fun found => ⟨alone, found, by omega⟩, fun judged => judged.2.1⟩

theorem processCommandLine_getElem? {line raw : List Char} {i : Nat}
    (group : (strtok (· == ';') line)[i]? = some raw) (nonblank : isEmpty (splitBackground raw).1 = false) :
    (processCommandLine line)[i]? = some (processGroup raw) := by
  have visible : isEmpty line = false := by
    obtain ⟨c, here, solid⟩ := List.all_eq_false.mp nonblank
    have inside := (mem_tokens (List.mem_of_getElem? group) c (splitBackground_subset raw here)).1
    exact List.all_eq_false.mpr ⟨c, inside, solid⟩
  rw [processCommandLine, if_neg (by simp [visible]), List.getElem?_map, group]
  rfl

theorem well_formed_pipelines {line raw : List Char} {i : Nat}
    (group : (strtok (· == ';') line)[i]? = some raw) (ordinary : ¬ isTestLine raw)
    (nonblank : isEmpty (splitBackground raw).1 = false) :
    ∃ outcome, (processCommandLine line)[i]? = some outcome ∧
      (Meets (splitBackground raw).1 outcome ↔ Judged (splitBackground raw).1) :=
  ⟨processGroup raw, processCommandLine_getElem? group nonblank,
    processGroup_judged (List.mem_of_getElem? group) ordinary nonblank⟩

-- The second group of a line, that reads from one file and appends to another.
theorem well_formed_pipelines_append :
    ∃ outcome, (processCommandLine "ls; cat <in|wc -l>> out &".toList)[1]? = some outcome ∧
      Meets " cat <in|wc -l>> out ".toList outcome := by
  have group : (strtok (· == ';') "ls; cat <in|wc -l>> out &".toList)[1]?
      = some " cat <in|wc -l>> out &".toList := by decide +kernel
  have text : (splitBackground " cat <in|wc -l>> out &".toList).1 = " cat <in|wc -l>> out ".toList := by
    decide +kernel
  have split : pieces " cat <in|wc -l>> out ".toList = [" cat <in".toList, "wc -l>> out ".toList] := by
    decide +kernel
  obtain ⟨outcome, ran, judged⟩ := well_formed_pipelines group (by decide +kernel) (by decide +kernel)
  rw [text] at judged
  refine ⟨outcome, ran, judged.mpr ⟨by decide +kernel, ?_⟩⟩
  rw [split, if_neg (by decide +kernel)]
  refine ⟨by decide, fun piece here => ?_⟩
  simp only [List.mem_cons, List.not_mem_nil, or_false] at here
  rcases here with rfl | rfl
  · let stage : Stage := ⟨[.word "cat".toList, .redirect .input "in".toList], by decide +kernel⟩
    exact ⟨stage, by decide +kernel, by decide +kernel⟩
  · let stage : Stage :=
      ⟨[.word "wc".toList, .word "-l".toList, .redirect .append "out".toList], by decide +kernel⟩
    exact ⟨stage, by decide +kernel, by decide +kernel⟩

-- A redirection without a file is dropped, and the command runs.
theorem missing_file_runs :
    ∃ line raw : List Char, (strtok (· == ';') line)[0]? = some raw ∧ ¬ isTestLine raw ∧
      isEmpty (splitBackground raw).1 = false ∧ (processCommandLine line)[0]? = some (processGroup raw) ∧
      ¬ Meets (splitBackground raw).1 (processGroup raw) := by
  have executed : processGroup "cat <".toList = .executed [⟨["cat".toList], none, none, false⟩] false := by
    decide +kernel
  have text : (splitBackground "cat <".toList).1 = "cat <".toList := by decide +kernel
  have malformed : ¬ WellFormed "cat <".toList := by
    intro ⟨group, same⟩
    have words := group.tokens_length
    rw [← same] at words
    exact absurd words (by decide +kernel)
  refine ⟨"cat <".toList, "cat <".toList, by decide +kernel, by decide +kernel, by decide +kernel,
    by decide +kernel, fun meets => malformed ?_⟩
  rw [← text]
  exact meets.runs.mp ⟨_, _, executed⟩

end SystemsSuite.Shell
