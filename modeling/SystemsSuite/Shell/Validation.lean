import SystemsSuite.Shell.Spacing

set_option autoImplicit false

namespace SystemsSuite.Shell

open Lib

theorem any_congr {l l' : List (List Char)} {f : List Char → Bool} (same : l.map f = l'.map f) :
    l.any f = l'.any f := by
  have mapped (l : List (List Char)) : (l.map f).any id = l.any f := by
    rw [List.any_map, Function.id_comp]
  rw [← mapped l, same, mapped l']

theorem isspace_pipe {x : Char} (blank : isspace x = true) : (x == '|') = false := by
  by_contra pipe
  have same : x = '|' := by simpa using pipe
  rw [same] at blank
  exact absurd blank (by decide)

theorem trimWhitespace_pieces (text : List Char) :
    (pieces (trimWhitespace text)).map isEmpty = (pieces text).map isEmpty :=
  map_splitOnP_strip (fun _ => isspace_pipe) (fun _ l blank => isEmpty_cons blank l)
    (fun _ l blank => isEmpty_concat blank l) text

theorem trimWhitespace_cons {text : List Char} (nonblank : isEmpty text = false) :
    ∃ a r, trimWhitespace text = a :: r ∧ isspace a = false := by
  cases trimmed : trimWhitespace text with
  | nil =>
    obtain ⟨before, after, whole, leading, trailing⟩ := strip_infix isspace text
    rw [show strip isspace text = [] from trimmed, List.append_nil] at whole
    have blank : isEmpty text = true := by
      refine List.all_eq_true.mpr fun x here => ?_
      rw [whole] at here
      rcases List.mem_append.mp here with front | back
      · exact leading x front
      · exact trailing x back
    rw [blank] at nonblank
    contradiction
  | cons a r => exact ⟨a, r, rfl, strip_cons trimmed⟩

theorem lone_amp {a : Char} {r : List Char} (solid : isspace a = false) :
    (a :: r).getLast? = some '&' ∧ isEmpty (a :: r).dropLast = true ↔ a :: r = ['&'] := by
  cases r with
  | nil => simp [isEmpty]
  | cons b r => simp [isEmpty, solid]

-- In a trimmed text whose `|` are apart, an empty piece is the first or the last one.
theorem blank_piece {text : List Char} (filled : text ≠ [])
    (apart : text.IsChain fun a b => ¬ ((a == '|') = true ∧ (b == '|') = true)) :
    (text.head? = some '|' ∨ text.getLast? = some '|') ∨ (strtok (· == '|') text).any isEmpty = true ↔
      (pieces text).any isEmpty = true := by
  constructor
  · intro found
    rcases found with (first | last) | blank
    · obtain ⟨r, rfl⟩ := List.head?_eq_some_iff.mp first
      have split : pieces ('|' :: r) = [[]] ++ pieces r := pieces_append [] r
      simp [split, isEmpty]
    · obtain ⟨l, rfl⟩ := List.getLast?_eq_some_iff.mp last
      have split : pieces (l ++ ['|']) = pieces l ++ [[]] := pieces_append l []
      simp [split, isEmpty]
    · obtain ⟨w, token, blank⟩ := List.any_eq_true.mp blank
      exact List.any_eq_true.mpr ⟨w, (List.mem_filter.mp token).1, blank⟩
  · intro found
    obtain ⟨w, piece, blank⟩ := List.any_eq_true.mp found
    cases w with
    | nil =>
      rcases nil_mem_splitOnP apart piece with none | ⟨a, first, pipe⟩ | ⟨a, last, pipe⟩
      · exact absurd none filled
      · exact .inl (.inl (eq_of_beq pipe ▸ first))
      · exact .inl (.inr (eq_of_beq pipe ▸ last))
    | cons c w => exact .inr (List.any_eq_true.mpr ⟨c :: w, List.mem_filter.mpr ⟨piece, rfl⟩, blank⟩)

theorem parseInput_iff {group : List Char} (nonblank : isEmpty group = false)
    (single : ∀ x ∈ group, (x == ';') = false) :
    parseInput (addSpacesAroundRedirects group) = true ↔
      trimWhitespace group ≠ ['&'] ∧ (pieces group).any isEmpty = false := by
  have nonblank' : isEmpty (addSpacesAroundRedirects group) = false := by rwa [addSpaces_isEmpty]
  obtain ⟨a, r, trimmed, solid⟩ := trimWhitespace_cons nonblank'
  have filled : addSpacesAroundRedirects group ≠ [] := by
    intro none
    rw [none] at nonblank'
    contradiction
  have single' : ∀ x ∈ addSpacesAroundRedirects group, (x == ';') = false := by
    intro x here
    by_contra separates
    have same : x = ';' := by simpa using separates
    exact separates (single x ((addSpaces_mem (by rw [same]; decide) group).mp here))
  have whole : strtok (· == ';') (addSpacesAroundRedirects group) = [addSpacesAroundRedirects group] :=
    tokens_plain filled single'
  have amp : (a :: r) = ['&'] ↔ trimWhitespace group = ['&'] := by
    rw [← trimmed, trimWhitespace, strip_eq_singleton (by decide), trimWhitespace,
      strip_eq_singleton (by decide), addSpaces_solid]
  have visible : isEmpty (a :: r) = false := by simp [isEmpty, solid]
  have apart : (a :: r).IsChain fun a b => ¬ ((a == '|') = true ∧ (b == '|') = true) := by
    obtain ⟨before, after, around, _⟩ := strip_infix isspace (addSpacesAroundRedirects group)
    rw [show strip isspace (addSpacesAroundRedirects group) = a :: r from trimmed] at around
    have chain := addSpaces_apart group
    rw [around] at chain
    exact chain.left_of_append.right_of_append
  have blanks : (pieces (a :: r)).any isEmpty = (pieces group).any isEmpty := by
    rw [← trimmed, any_congr (trimWhitespace_pieces _), any_congr (isEmpty_pieces group)]
  have edges := blank_piece (List.cons_ne_nil a r) apart
  have groups : parseGroups [addSpacesAroundRedirects group] = true ↔
      (pieces group).any isEmpty = false := by
    rw [← blanks, ← Bool.not_eq_true, ← edges]
    simp only [parseGroups, trimmed, visible, Bool.false_eq_true, if_false]
    by_cases ends : (a :: r).head? = some '|' ∨ (a :: r).getLast? = some '|'
    · rw [if_pos ends]
      exact iff_of_false Bool.false_ne_true (not_not_intro (.inl ends))
    · rw [if_neg ends]
      by_cases blank : (strtok (· == '|') (a :: r)).any isEmpty = true
      · rw [if_pos blank]
        exact iff_of_false Bool.false_ne_true (not_not_intro (.inr blank))
      · rw [if_neg blank]
        exact iff_of_true rfl (not_or.mpr ⟨ends, blank⟩)
  rw [parseInput, trimmed, whole]
  by_cases alone : trimWhitespace group = ['&']
  · simp [lone_amp solid, amp, alone]
  · simp [lone_amp solid, amp, alone, groups]

end SystemsSuite.Shell
