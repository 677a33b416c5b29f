import SystemsSuite.Paging.Images

set_option autoImplicit false

namespace SystemsSuite.Paging

open Lib Prog

variable {b : Build} {m : Machine}

namespace Books

variable {v v' w : Books} {im : Proc}

theorem Evict.removes {ok : Bool} (evict : v.Evict ok v') {vpn : Nat} {flags : Flags}
    (here : v'.pte vpn = some flags) : v.pte vpn = some flags := by
  have untouched {key : Nat} (here : Function.update v.pte key none vpn = some flags) :
      v.pte vpn = some flags := by
    by_cases same : vpn = key
    · rw [same, Function.update_self] at here
      contradiction
    · rwa [Function.update_of_ne same] at here
  cases evict with
  | nothing => exact here
  | stale => exact here
  | discarded => exact untouched here
  | saved => exact untouched here

theorem Evictions.removes (evictions : v.Evictions v') {vpn : Nat} {flags : Flags}
    (here : v'.pte vpn = some flags) : v.pte vpn = some flags := by
  induction evictions with
  | refl => exact here
  | evict _ _ _ _ evict ih => exact ih (evict.removes here)
  | spare _ _ _ ih => exact ih here

theorem Evictions.image (evictions : v.Evictions v') : v'.image = v.image := by
  induction evictions with
  | refl => rfl
  | evict _ _ _ _ evict ih => exact evict.image.trans ih
  | spare _ _ _ ih => exact ih

theorem Evictions.preserves {I : Books → Prop} (evictions : v.Evictions v')
    (evicted : ∀ w w' ok, I w → w.Evict ok w' → I w')
    (spare : ∀ w ptes, I w → I (w.withSpare ptes)) (holds : I v) : I v' := by
  induction evictions with
  | refl => exact holds
  | evict _ _ _ _ evict ih => exact evicted _ _ _ ih evict
  | spare _ _ _ ih => exact spare _ _ ih

def withImage (v : Books) (image : Proc) : Books := { v with image := image }

theorem installed_congr (v : Books) (image : Proc) (va : Nat) (perm : Flags) :
    (v.withImage image).installed .own va perm = (v.installed .own va perm).withImage image := by
  have notedSame (w : Books) : (w.withImage image).noted va = (w.noted va).withImage image := by
    simp only [noted, find, withImage]
    split <;> rfl
  have madeSame (w : Books) :
      (w.withImage image).madeResident va perm = (w.madeResident va perm).withImage image := by
    simp only [madeResident, find, withImage]
    split <;> rfl
  unfold installed
  rw [← madeSame, ← notedSame]
  rfl

theorem Born.of_image (born : Born v im w) (image' : Proc) : Born v image' (w.withImage image') := by
  induction born with
  | blank => exact .blank
  | copied w i flags _ aligned here absent ih =>
    rw [← installed_congr]
    exact .copied _ i flags ih aligned here absent

-- What copying never touches.
theorem Born.rest (born : Born v im w) : w.spare = (fun _ => none) ∧
    w.bitmap = List.replicate 128 0#8 ∧ w.swapPages = 0 ∧ w.image = im := by
  induction born with
  | blank => exact ⟨rfl, rfl, rfl, rfl⟩
  | copied w i flags _ _ _ _ ih =>
    rw [installed_eq]
    exact ih

end Books

theorem entries_record (c : Copied) (w : Books) (i : Nat) (flags : Flags)
    (entries : w.entries = c.pgmeta.map PageMeta.entry) :
    (w.installed .own i flags).entries = (c.record i flags).pgmeta.map PageMeta.entry := by
  -- The books of the child so far as those of a machine.
  let child : Machine := ⟨[], fun _ _ => 0, { Proc.unused with pgmeta := c.pgmeta }, .empty 0, [], false⟩
  have same : w.entries = child.books.entries := entries
  have transfer : (w.installed .own i flags).entries =
      ((child.books.noted i).madeResident i flags).entries := by
    have find (va : Nat) : w.find va = child.books.find va := by
      unfold Books.find
      rw [same]
    have noted : ((w.mapped .own i flags).noted i).entries = (child.books.noted i).entries := by
      have here : (w.mapped .own i flags).find i = child.books.find i := find i
      have free : (w.mapped .own i flags).find 0 = child.books.find 0 := find 0
      have entries : (w.mapped .own i flags).entries = child.books.entries := same
      simp only [Books.noted, here, free, entries]
      cases child.books.find i with
      | some _ => exact same
      | none =>
        cases child.books.find 0 with
        | some _ => rfl
        | none => exact same
    simp only [Books.installed, Books.madeResident, Books.find, Books.modify, noted]
    split
    · exact noted
    · rfl
  rw [transfer, ← child.books_alloc i]
  have found := pgmetaFind_alloc c.pgmeta i
  simp only [Copied.record]
  split
  next made =>
    rw [made] at found
    exact congrArg Books.entries (books_notMade (m := child.setMeta (pgmetaAlloc c.pgmeta i).1) flags found)
  next midx made =>
    rw [made] at found
    exact (congrArg Books.entries (books_madeResident (m := child.setMeta (pgmetaAlloc c.pgmeta i).1)
      flags _ (fun _ => rfl) found)).symm

-- The child so far: its table is the spare one, its entries are in `c`.
structure Copying (v : Books) (im : Proc) (c : Copied) (m : Machine) : Prop where
  parent : v.Evictions m.books
  child : ∃ w, Books.Born v im w ∧ w.pte = m.books.spare ∧ w.entries = c.pgmeta.map PageMeta.entry

theorem Copying.of_books {v : Books} {im : Proc} {c : Copied} {m' : Machine} (copying : Copying v im c m)
    (books : m'.books = m.books) : Copying v im c m' := by
  refine ⟨?_, ?_⟩
  · rw [books]
    exact copying.parent
  · rw [books]
    exact copying.child

theorem Copying.obtain {v : Books} {im : Proc} {c : Copied} {m' : Machine} {ok : Bool}
    (copying : Copying v im c m) (obtained : m.books.Obtain ok m'.books) : Copying v im c m' := by
  refine ⟨copying.parent.trans obtained.evictions, ?_⟩
  rw [obtained.spare]
  exact copying.child

theorem Copying.copied {v : Books} {im : Proc} {c : Copied} {m' : Machine} {i : Nat} {flags : Flags}
    (copying : Copying v im c m) (aligned : i % 4096 = 0) (here : v.pte (i / 4096) = some flags)
    (absent : m.books.spare (i / 4096) = none) (books : m'.books = m.books.mapped .spare i flags) :
    Copying v im (c.record i flags) m' := by
  obtain ⟨w, born, pte, entries⟩ := copying.child
  refine ⟨?_, w.installed .own i flags, .copied w i flags born aligned here (by rw [pte]; exact absent),
    ?_, entries_record c w i flags entries⟩
  · rw [books]
    exact .spare _ _ copying.parent
  · rw [books, Books.installed_eq]
    change Function.update w.pte (i / 4096) (some flags) = Function.update m.books.spare _ _
    rw [pte]

theorem copyFailed_books (i : Nat) :
    wp (copyFailed b i) (fun r m' => r = none ∧ m.books.Evictions m'.books) (fun _ => True) m := by
  apply wp_seq (uvmunmap_spare 0 (i / 4096) true)
  rintro _ m₁ ⟨ptes, books⟩
  rw [wp_pure, books]
  exact ⟨rfl, .spare _ _ .refl⟩

theorem copyLoop_books {v : Books} {im : Proc} (n i : Nat) (c : Copied) (aligned : i % 4096 = 0)
    (copying : Copying v im c m) :
    wp (copyLoop b n i c) (fun r m' => v.Evictions m'.books ∧
      ∀ c', r = some c' → Copying v im c' m') (fun _ => True) m := by
  induction n generalizing i c m with
  | zero =>
    refine ⟨copying.parent, ?_⟩
    rintro c' ⟨⟩
    exact copying
  | succ n ih =>
    have failed {m' : Machine} (parent : v.Evictions m'.books) : wp (copyFailed b i)
        (fun r m' => v.Evictions m'.books ∧ ∀ c', r = some c' → Copying v im c' m') (fun _ => True) m' := by
      apply wp_mono (copyFailed_books i) _ fun _ panics => panics
      rintro r m'' ⟨rfl, evictions⟩
      exact ⟨parent.trans evictions, nofun⟩
    have skip := ih (i + 4096) c (by omega) copying
    rw [copyLoop, wp_bind, wp_walk]
    refine ⟨fun _ => trivial, fun below => ?_⟩
    cases found : (m.table .own).walk i with
    | none => exact skip
    | some node =>
      cases node with
      | empty => exact skip
      | leaf leaf =>
        have here : v.pte (i / 4096) = some leaf.flags := by
          apply copying.parent.removes
          refine (PageTable.ptes_leaf _ below).trans ?_
          rw [show m.proc.pagetable.leaf i = some leaf from PageTable.leaf_of_walk found]
          rfl
        apply wp_seq kallocOrEvict_books
        intro r m₁ obtained
        have copying₁ := copying.obtain obtained
        cases r with
        | none => exact failed copying₁.parent
        | some mem =>
          simp only
          rw [wp_bind, copyPage, wp_update]
          apply wp_seq (mappages_books .spare i mem leaf.flags)
          rintro ok m₂ ⟨absent, books₂⟩
          have copying₂ : Copying v im c { m₁ with mem := Function.update m₁.mem mem (m₁.mem leaf.pa) } :=
            copying₁.of_books rfl
          cases ok with
          | true =>
            exact ih (i + 4096) _ (by omega)
              (copying₂.copied aligned here (absent rfl).1 books₂)
          | false =>
            apply wp_seq (kfree_core mem)
            intro _ m₃ core₃
            exact failed (copying₂.of_books ((Machine.books_of_core core₃).trans books₂)).parent

theorem allocproc_books :
    wp (allocproc b) (fun r m' =>
      if r.isSome then m'.books = m.books.withSpare framePtes else ∃ ptes, m'.books = m.books.withSpare ptes)
      (fun _ => True) m := by
  unfold allocproc
  apply wp_seq kalloc_outcome
  intro r m₁ allocated
  have books₁ := Machine.books_of_core allocated.core
  cases r with
  | none => exact ⟨_, books₁⟩
  | some trapframe =>
    apply wp_seq (procPagetable_books trapframe)
    intro ok m₂ table
    rw [books₁] at table
    cases ok with
    | true => exact table
    | false =>
      apply wp_seq (kfree_core trapframe)
      intro _ m₃ core₃
      rw [Machine.books_of_core core₃.symm] at table
      exact table

-- What a child has of its parent: sizes, stack pointer and regions.
structure Kin (p q : Proc) : Prop where
  sz : q.sz = p.sz
  heapBrk : q.heapBrk = p.heapBrk
  sp : q.trapframe.sp = p.trapframe.sp
  execip : q.execip = p.execip
  segs : ∃ k, q.activeSegs = p.activeSegs ++ List.replicate k noSeg

theorem childOf_kin (p : Proc) (pagetable : PageTable) (trapframe : Nat) (copied : Copied)
    (created : Option Nat) : Kin p (childOf p pagetable trapframe copied created) := by
  refine ⟨rfl, rfl, rfl, rfl, min (p.nsegs - p.activeSegs.length) (16 - p.nsegs), ?_⟩
  have short : p.activeSegs.length ≤ p.nsegs := by
    unfold Proc.activeSegs
    rw [List.length_take]
    exact min_le_left _ _
  change (p.activeSegs ++ List.replicate (16 - p.nsegs) noSeg).take p.nsegs = _
  rw [List.take_append, List.take_of_length_le short, List.take_replicate]

theorem noSeg_covers (vaPg : Nat) : noSeg.covers vaPg = false := by
  simp [Seg.covers, noSeg, Seg.stop]

theorem Kin.segOf {p q : Proc} (kin : Kin p q) (vaPg : Nat) : q.segOf vaPg = p.segOf vaPg := by
  obtain ⟨k, segs⟩ := kin.segs
  have none_ : (List.replicate k noSeg).find? (fun s => s.covers vaPg) = none := by
    apply List.find?_eq_none.mpr
    intro seg member
    rw [List.eq_of_mem_replicate member, noSeg_covers]
    exact Bool.false_ne_true
  unfold Proc.segOf
  rw [segs, List.find?_append, none_, Option.or_none]

theorem kfork_books (created : Option Nat) :
    wp (kfork b created) (fun r m' => m.books.Evictions m'.books ∧
      ∀ child, r = some child → Kin m.books.image child ∧
        ∃ im, Books.Born m.books im (m'.setProc child).books) (fun _ => True) m := by
  unfold kfork
  apply wp_seq allocproc_books
  intro r m₁ table
  cases r with
  | none =>
    obtain ⟨ptes, books₁⟩ := table
    refine ⟨?_, nofun⟩
    rw [books₁]
    exact .spare _ _ .refl
  | some trapframe =>
    rw [if_pos (by rfl)] at table
    have copying : Copying m.books m.books.image .initial m₁ := by
      refine ⟨?_, .blank m.books.image, .blank, ?_, List.map_replicate.symm⟩
      · rw [table]
        exact .spare _ _ .refl
      · rw [table]
        rfl
    simp only
    rw [wp_bind, wp_read]
    apply wp_seq (copyLoop_books _ 0 .initial rfl copying)
    rintro copied m₂ ⟨parent, done⟩
    cases copied with
    | none =>
      apply wp_seq (kfree_core trapframe)
      intro _ m₃ core₃
      apply wp_seq (procFreepagetable_spare 0)
      rintro _ m₄ ⟨ptes, books₄⟩
      refine ⟨?_, nofun⟩
      rw [books₄, Machine.books_of_core core₃]
      exact .spare _ _ parent
    | some copied =>
      obtain ⟨w, born, pte, entries⟩ := (done copied rfl).child
      have rest := born.rest
      simp only
      rw [wp_bind, wp_read, wp_bind, wp_update]
      refine ⟨.spare _ _ parent, ?_⟩
      rintro child ⟨⟩
      have kin := childOf_kin m₂.proc m₂.spare trapframe copied created
      have same : Kin m₂.books.image (childOf m₂.proc m₂.spare trapframe copied created) :=
        ⟨kin.sz, kin.heapBrk, kin.sp, kin.execip, kin.segs⟩
      rw [parent.image] at same
      let after : Machine := Machine.setProc { m₂ with spare := .empty 0 }
        (childOf m₂.proc m₂.spare trapframe copied created)
      refine ⟨same, after.books.image, ?_⟩
      have books : after.books = w.withImage after.books.image :=
        Books.ext pte.symm (empty_ptes.trans rest.1.symm) entries.symm rest.2.1.symm rest.2.2.1.symm rfl
      change Books.Born m.books _ after.books
      rw [books]
      exact born.of_image _

end SystemsSuite.Paging
