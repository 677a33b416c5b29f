import Mathlib

set_option autoImplicit false

namespace SystemsSuite.Lib

universe u v

variable {α : Type u} {β : Type v} {p q : α → Bool}

theorem mem_splitOnP {l w : List α} (piece : w ∈ l.splitOnP p) : ∀ x ∈ w, x ∈ l ∧ p x = false := by
  induction l generalizing w with
  | nil =>
    obtain rfl := List.mem_singleton.mp piece
    simp
  | cons a l ih =>
    have later {w : List α} (piece : w ∈ l.splitOnP p) : ∀ x ∈ w, x ∈ a :: l ∧ p x = false :=
      fun x here => (ih piece x here).imp_left (List.mem_cons_of_mem a)
    rw [List.splitOnP_cons_eq_if_modifyHead] at piece
    split at piece
    next =>
      rcases List.mem_cons.mp piece with rfl | rest
      · simp
      · exact later rest
    next apart =>
      obtain ⟨first, rest, pieces⟩ := List.exists_cons_of_ne_nil (List.splitOnP_ne_nil p l)
      rw [pieces] at piece
      rcases List.mem_cons.mp piece with rfl | other
      · intro x here
        rcases List.mem_cons.mp here with rfl | inside
        · exact ⟨List.mem_cons_self, by simpa using apart⟩
        · exact later (pieces ▸ List.mem_cons_self) x inside
      · exact later (pieces ▸ List.mem_cons_of_mem _ other)

theorem splitOnP_induction {motive : List α → Prop}
    (single : ∀ l, (∀ x ∈ l, p x = false) → motive l)
    (cons : ∀ l x r, (∀ y ∈ l, p y = false) → p x = true → motive r → motive (l ++ x :: r))
    (l : List α) : motive l := by
  have step : ∀ l first : List α, (∀ x ∈ first, p x = false) → motive (first ++ l) := by
    intro l
    induction l with
    | nil => exact fun first plain => single _ (by simpa using plain)
    | cons a l ih =>
      intro first plain
      by_cases separates : p a = true
      · exact cons first a l plain separates (ih [] (by simp))
      · have longer : ∀ x ∈ first ++ [a], p x = false := by
          intro x here
          rcases List.mem_append.mp here with old | last
          · exact plain x old
          · simpa [List.mem_singleton.mp last] using separates
        simpa using ih (first ++ [a]) longer
  exact step l [] (by simp)

theorem map_modifyHead {f : α → β} {g : α → α} (unchanged : ∀ x, f (g x) = f x) (l : List α) :
    (l.modifyHead g).map f = l.map f := by
  cases l with
  | nil => rfl
  | cons x rest => simp [unchanged]

theorem map_splitOnP_cons {f : List α → β} {x : α} (inside : p x = false)
    (unseen : ∀ l, f (x :: l) = f l) (l : List α) :
    ((x :: l).splitOnP p).map f = (l.splitOnP p).map f := by
  rw [List.splitOnP_cons_eq_if_modifyHead, if_neg (by simp [inside])]
  exact map_modifyHead unseen _

theorem map_splitOnP_concat {f : List α → β} {x : α} (inside : p x = false)
    (unseen : ∀ l, f (l ++ [x]) = f l) (l : List α) :
    ((l ++ [x]).splitOnP p).map f = (l.splitOnP p).map f := by
  induction l using splitOnP_induction (p := p) with
  | single l plain =>
    have longer : ∀ y ∈ l ++ [x], p y = false := by
      intro y here
      rcases List.mem_append.mp here with old | last
      · exact plain y old
      · rwa [List.mem_singleton.mp last]
    rw [List.splitOnP_eq_singleton plain, List.splitOnP_eq_singleton longer]
    simp [unseen]
  | cons l c r plain separates ih =>
    rw [List.append_assoc, List.cons_append, List.splitOnP_append_cons _ _ separates,
      List.splitOnP_append_cons _ _ separates, List.map_append, List.map_append, ih]

theorem nil_mem_splitOnP {l : List α} (apart : l.IsChain fun a b => ¬ (p a = true ∧ p b = true))
    (empty : [] ∈ l.splitOnP p) :
    l = [] ∨ (∃ a, l.head? = some a ∧ p a = true) ∨ ∃ a, l.getLast? = some a ∧ p a = true := by
  have later : ∀ l : List α, l.IsChain (fun a b => ¬ (p a = true ∧ p b = true)) →
      [] ∈ (l.splitOnP p).tail → ∃ a, l.getLast? = some a ∧ p a = true := by
    intro l
    induction l with
    | nil => simp
    | cons a l ih =>
      intro apart empty
      have inside : [] ∈ (l.splitOnP p).tail → ∃ b, (a :: l).getLast? = some b ∧ p b = true := by
        intro empty
        obtain ⟨b, last, separates⟩ := ih apart.tail empty
        exact ⟨b, by simp [List.getLast?_cons, last], separates⟩
      rw [List.splitOnP_cons_eq_if_modifyHead] at empty
      split at empty
      next separates =>
        cases l with
        | nil => exact ⟨a, rfl, separates⟩
        | cons b l =>
          have other : p b = false := by
            simpa [separates] using (List.isChain_cons_cons.mp apart).1
          rw [List.tail_cons] at empty
          refine inside ?_
          rw [List.splitOnP_cons_eq_if_modifyHead, if_neg (by simp [other])] at empty ⊢
          obtain ⟨first, rest, pieces⟩ := List.exists_cons_of_ne_nil (List.splitOnP_ne_nil p l)
          simpa [pieces] using empty
      next =>
        obtain ⟨first, rest, pieces⟩ := List.exists_cons_of_ne_nil (List.splitOnP_ne_nil p l)
        refine inside ?_
        simpa [pieces] using empty
  cases l with
  | nil => exact .inl rfl
  | cons a l =>
    by_cases separates : p a = true
    · exact .inr (.inl ⟨a, rfl, separates⟩)
    · refine .inr (.inr (later _ apart ?_))
      rw [List.splitOnP_cons_eq_if_modifyHead, if_neg separates] at empty ⊢
      obtain ⟨first, rest, pieces⟩ := List.exists_cons_of_ne_nil (List.splitOnP_ne_nil p l)
      simpa [pieces] using empty

-- The longest stretches of a list that have no separator.
def tokens (p : α → Bool) (l : List α) : List (List α) := (l.splitOnP p).filter (!·.isEmpty)

theorem tokens_append_cons (xs ys : List α) {c : α} (separates : p c = true) :
    tokens p (xs ++ c :: ys) = tokens p xs ++ tokens p ys := by
  rw [tokens, List.splitOnP_append_cons xs ys separates, List.filter_append, tokens, tokens]

@[simp] theorem tokens_nil : tokens p [] = [] := by simp [tokens]

theorem tokens_cons (ys : List α) {c : α} (separates : p c = true) : tokens p (c :: ys) = tokens p ys := by
  simpa using tokens_append_cons [] ys separates

theorem tokens_concat (xs : List α) {c : α} (separates : p c = true) :
    tokens p (xs ++ [c]) = tokens p xs := by
  simpa using tokens_append_cons xs [] separates

theorem tokens_plain {w : List α} (some : w ≠ []) (plain : ∀ x ∈ w, p x = false) : tokens p w = [w] := by
  rw [tokens, List.splitOnP_eq_singleton plain]
  simp [some]

theorem tokens_eq_splitOnP {l : List α} (full : [] ∉ l.splitOnP p) : tokens p l = l.splitOnP p := by
  refine List.filter_eq_self.mpr fun w piece => ?_
  cases w with
  | nil => exact absurd piece full
  | cons => rfl

theorem mem_tokens {l w : List α} (token : w ∈ tokens p l) : ∀ x ∈ w, x ∈ l ∧ p x = false :=
  mem_splitOnP (List.mem_filter.mp token).1

def strip (q : α → Bool) (l : List α) : List α := (l.dropWhile q).rdropWhile q

theorem rdropWhile_append_rtakeWhile (q : α → Bool) (l : List α) :
    l.rdropWhile q ++ l.rtakeWhile q = l := by
  rw [List.rdropWhile, List.rtakeWhile, ← List.reverse_append, List.takeWhile_append_dropWhile,
    List.reverse_reverse]

theorem strip_infix (q : α → Bool) (l : List α) : ∃ before after,
    l = before ++ strip q l ++ after ∧ (∀ x ∈ before, q x = true) ∧ ∀ x ∈ after, q x = true := by
  refine ⟨l.takeWhile q, (l.dropWhile q).rtakeWhile q, ?_, ?_, ?_⟩
  · rw [strip, List.append_assoc, rdropWhile_append_rtakeWhile, List.takeWhile_append_dropWhile]
  · exact fun x => List.mem_takeWhile_imp
  · exact fun x => List.mem_rtakeWhile_imp

theorem strip_cons {l r : List α} {a : α} (stripped : strip q l = a :: r) : q a = false := by
  have first : (l.dropWhile q).head? = some a := by
    obtain ⟨after, rest⟩ := List.rdropWhile_prefix q (l := l.dropWhile q)
    rw [← rest]
    simp [show (l.dropWhile q).rdropWhile q = a :: r from stripped]
  have outside := List.head?_dropWhile_not q l
  simpa [first] using outside

theorem map_splitOnP_strip {f : List α → β} (inside : ∀ x, q x = true → p x = false)
    (front : ∀ x l, q x = true → f (x :: l) = f l) (back : ∀ x l, q x = true → f (l ++ [x]) = f l)
    (l : List α) : ((strip q l).splitOnP p).map f = (l.splitOnP p).map f := by
  have leading (before l : List α) (all : ∀ x ∈ before, q x = true) :
      ((before ++ l).splitOnP p).map f = (l.splitOnP p).map f := by
    induction before with
    | nil => rfl
    | cons x before ih =>
      have space := all x List.mem_cons_self
      rw [List.cons_append, map_splitOnP_cons (inside x space) (fun l => front x l space)]
      exact ih fun y here => all y (List.mem_cons_of_mem x here)
  have trailing (l after : List α) (all : ∀ x ∈ after, q x = true) :
      ((l ++ after).splitOnP p).map f = (l.splitOnP p).map f := by
    induction after generalizing l with
    | nil => rw [List.append_nil]
    | cons x after ih =>
      have space := all x List.mem_cons_self
      rw [List.append_cons, ih (l ++ [x]) fun y here => all y (List.mem_cons_of_mem x here)]
      exact map_splitOnP_concat (inside x space) (fun l => back x l space) l
  obtain ⟨before, after, whole, spaces, spaces'⟩ := strip_infix q l
  conv_rhs => rw [whole]
  rw [List.append_assoc, leading _ _ spaces, trailing _ _ spaces']

theorem strip_eq_singleton {l : List α} {c : α} (solid : q c = false) :
    strip q l = [c] ↔ l.filter (!q ·) = [c] := by
  constructor
  · intro alone
    obtain ⟨before, after, whole, leading, trailing⟩ := strip_infix q l
    have none (l : List α) (all : ∀ x ∈ l, q x = true) : l.filter (!q ·) = [] := by
      simpa [List.filter_eq_nil_iff] using all
    rw [whole, alone]
    simp [none before leading, none after trailing, solid]
  · intro alone
    obtain ⟨before, after, rfl, leading, _, trailing⟩ := List.filter_eq_cons_iff.mp alone
    have skipped : ∀ x ∈ before, q x = true := by simpa using leading
    have dropped : ∀ x ∈ after.reverse, q x = true := by simpa using trailing
    rw [strip, List.dropWhile_append_of_pos skipped, List.dropWhile_cons_of_neg (by simp [solid]),
      List.rdropWhile, List.reverse_cons, List.dropWhile_append_of_pos dropped]
    simp [solid]

end SystemsSuite.Lib
