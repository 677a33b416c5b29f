import SystemsSuite.Paging.Books

set_option autoImplicit false

namespace SystemsSuite.Paging

open Lib Prog

variable {b : Build} {m m' : Machine}

theorem entry_metaAt (metas : List PageMeta) (i : Nat) :
    (metaAt metas i).entry = (metas.map PageMeta.entry).getD i .cleared := by
  simp only [metaAt, List.getD_eq_getElem?_getD, List.getElem?_map]
  cases metas[i]? <;> rfl

theorem getD_modify {α : Type} (l : List α) (i j : Nat) (f : α → α) (d : α) :
    (l.modify i f).getD j d = if i = j ∧ j < l.length then f (l.getD j d) else l.getD j d := by
  rw [List.getD_eq_getElem?_getD, List.getD_eq_getElem?_getD, List.getElem?_modify]
  by_cases inside : j < l.length
  · by_cases hit : i = j <;> simp [hit, inside]
  · simp [inside]

theorem set_getD {α : Type} (l : List α) (i : Nat) (a : α) : l.set i (l.getD i a) = l := by
  apply List.ext_getElem?
  intro j
  rw [List.getElem?_set]
  split_ifs with hit inside
  · subst hit
    simp [List.getD_eq_getElem?_getD, inside]
  · subst hit
    rw [List.getElem?_eq_none (Nat.le_of_not_lt inside)]
  · rfl

theorem entries_clockScan (metas : List PageMeta) (left idx : Nat) :
    (clockScan left metas idx).2.map PageMeta.entry = metas.map PageMeta.entry := by
  induction left generalizing metas idx with
  | zero => rfl
  | succ left ih =>
    simp only [clockScan]
    split
    · rfl
    · rw [ih]
      split
      · rw [List.map_set]
        refine Eq.trans ?_ (set_getD (metas.map PageMeta.entry) idx .cleared)
        rw [← entry_metaAt]
        rfl
      · rfl

theorem entries_victim (m : Machine) :
    (m.victim b).2.map PageMeta.entry = m.proc.pgmeta.map PageMeta.entry := by
  unfold Machine.victim selectVictim
  cases b.policy with
  | fifo => rfl
  | clock => exact entries_clockScan _ _ _

theorem find_books (m : Machine) (va : Nat) : m.books.find va = pgmetaFind m.proc.pgmeta va := by
  unfold Books.find pgmetaFind
  exact List.findIdx?_map

theorem entryAt_books (m : Machine) (i : Nat) :
    m.books.entryAt i = (metaAt m.proc.pgmeta i).entry := (entry_metaAt _ i).symm

theorem entries_alloc (m : Machine) (va : Nat) :
    (pgmetaAlloc m.proc.pgmeta va).1.map PageMeta.entry = (m.books.noted va).entries := by
  unfold pgmetaAlloc Books.noted
  rw [find_books, find_books]
  cases pgmetaFind m.proc.pgmeta va with
  | some i => rfl
  | none =>
    cases pgmetaFind m.proc.pgmeta 0 with
    | none => rfl
    | some i => exact List.map_set

-- The entry that `pgmeta_alloc` returns is the one that is found afterwards.
theorem pgmetaFind_alloc (metas : List PageMeta) (va : Nat) :
    pgmetaFind (pgmetaAlloc metas va).1 va = (pgmetaAlloc metas va).2 := by
  unfold pgmetaAlloc
  cases found : pgmetaFind metas va with
  | some i => exact found
  | none =>
    cases free : pgmetaFind metas 0 with
    | none => exact found
    | some i =>
      obtain ⟨inside, _, _⟩ := List.findIdx?_eq_some_iff_getElem.mp free
      refine List.findIdx?_eq_some_iff_getElem.mpr ⟨by simpa using inside, by simp, fun j before => ?_⟩
      have absent := List.findIdx?_eq_none_iff.mp found (metas.get ⟨j, by omega⟩) (List.getElem_mem _)
      rw [List.getElem_set_ne (by omega)]
      simpa using absent

theorem slotBit_restored {x : BitVec 8} (slot : Nat) (free : x &&& slotBit slot = 0#8) :
    (x ||| slotBit slot) &&& ~~~slotBit slot = x := by
  ext i inside
  have clear := congrArg (fun y => y.getLsbD i) free
  simp only [BitVec.getLsbD_and, BitVec.getLsbD_zero] at clear
  simp only [BitVec.getElem_and, BitVec.getElem_or, BitVec.getElem_not]
  simp only [BitVec.getLsbD_eq_getElem inside] at clear
  revert clear
  cases x[i] <;> cases (slotBit slot)[i] <;> simp

theorem swapAllocSlot_spec {bitmap bitmap' : Bitmap} {slot : Nat}
    (found : swapAllocSlot bitmap = some (slot, bitmap')) :
    slot < swapSlots ∧ slotUsed bitmap slot = false ∧
      bitmap' = bitmap.modify (slot / 8) (· ||| slotBit slot) := by
  obtain ⟨i, picked, same⟩ := Option.map_eq_some_iff.mp found
  obtain ⟨rfl, rfl⟩ := Prod.mk.inj same
  have free := List.find?_some picked
  exact ⟨List.mem_range.mp (List.mem_of_find?_eq_some picked), by simpa using free, rfl⟩

theorem swapFreeSlot_alloc {bitmap bitmap' : Bitmap} {slot : Nat}
    (found : swapAllocSlot bitmap = some (slot, bitmap')) : swapFreeSlot bitmap' slot = bitmap := by
  obtain ⟨small, free, rfl⟩ := swapAllocSlot_spec found
  unfold swapFreeSlot
  rw [if_pos small]
  apply List.ext_getElem?
  intro j
  rw [List.getElem?_modify, List.getElem?_modify]
  cases here : bitmap[j]? with
  | none => rfl
  | some x =>
    by_cases hit : slot / 8 = j
    · subst hit
      unfold slotUsed at free
      rw [List.getD_eq_getElem?_getD, here] at free
      simp only [if_true, Option.map_eq_map, Option.map_some]
      rw [slotBit_restored slot (by simpa using free)]
    · simp [hit]

theorem Evicted.books {ok : Bool} (evicted : Evicted b m ok m') : m.books.Evict ok m'.books := by
  have chosen : (m.chosen b).books = m.books := Books.ext rfl rfl (entries_victim m) rfl rfl rfl
  have entry (best : Nat) : m.books.entryAt best = (metaAt (m.victim b).2 best).entry := by
    rw [entry_metaAt, entries_victim]
    rfl
  have victim {best : Nat} (picked : (m.victim b).1 = some best) : m.books.Victim best := by
    unfold Books.Victim
    rw [entry]
    exact selectVictim_evictable picked
  have pte {best : Nat} {leaf : Leaf} (below : (metaAt (m.victim b).2 best).va < maxva)
      (here : m.proc.pagetable.leaf (metaAt (m.victim b).2 best).va = some leaf) :
      m.books.pte ((m.books.entryAt best).va / 4096) = some leaf.flags := by
    rw [entry]
    refine (PageTable.ptes_leaf _ below).trans ?_
    rw [here]
    rfl
  -- The victim leaves a machine whose books are those of `m₁` without it.
  have gone (m₁ : Machine) {best : Nat} {leaf : Leaf} (table : m₁.proc.pagetable = m.proc.pagetable)
      (key : (m₁.books.entryAt best).va = (metaAt (m.victim b).2 best).va)
      (below : (metaAt (m.victim b).2 best).va < maxva)
      (here : m.proc.pagetable.leaf (metaAt (m.victim b).2 best).va = some leaf) :
      (m₁.dropped best (metaAt (m.victim b).2 best).va leaf.pa).books = m₁.books.dropped best := by
    have reached : (m₁.proc.pagetable.walk (metaAt (m.victim b).2 best).va).isSome = true := by
      rw [table, PageTable.walk, Radix.find_of_value here]
      rfl
    have leaves (va' : Nat) (low : va' < maxva) := PageTable.leaf_store _ .empty below low reached
    have ptes := @PageTable.ptes_update _ _ _ none below leaves
    refine Books.ext ?_ rfl (map_modify PageMeta.entry m₁.proc.pgmeta best fun _ => rfl) rfl rfl rfl
    change _ = Function.update m₁.books.pte ((m₁.books.entryAt best).va / 4096) none
    rw [key]
    exact ptes
  cases evicted with
  | noVictim => rw [chosen]; exact .nothing
  | stale best picked absent =>
    have cleared := Books.Evict.stale best (victim picked) (by
      rw [entry]
      unfold Machine.books PageTable.ptes
      change (if _ then (m.proc.pagetable.leaf (metaAt (m.victim b).2 best).va).map _ else none) = none
      rw [absent]
      exact ite_self none)
    have same : ((m.chosen b).setProc { (m.chosen b).proc with
        pgmeta := pgmetaClear (m.victim b).2 best }).books =
        { m.books with entries := m.books.entries.set best .cleared } := by
      refine Books.ext rfl rfl (List.map_set.trans ?_) rfl rfl rfl
      rw [entries_victim]
      rfl
    rw [same]
    exact cleared
  | unsaved best leaf m' picked here failed =>
    have same : m'.books = m.books := by
      rw [← chosen]
      cases failed with
      | noFile => rfl
      | full => rfl
      | short ip ip' slot bitmap r file found written short =>
        exact Books.ext rfl rfl rfl (swapFreeSlot_alloc found) rfl rfl
    rw [same]
    exact .nothing
  | discarded best leaf picked below here clean noWrite =>
    have dropped := gone (m.chosen b) rfl (by rw [chosen, entry]; rfl) below here
    rw [dropped, chosen]
    exact .discarded best leaf.flags (victim picked) (pte below here) noWrite
  | saved best leaf m₁ picked below here saved =>
    cases saved with
    | saved ip ip' slot bitmap file found written =>
      have swapped : ((m.chosen b).swapped best slot bitmap ip').books =
          m.books.saved best slot bitmap := by
        rw [← chosen]
        exact Books.ext rfl rfl (map_modify PageMeta.entry (m.chosen b).proc.pgmeta best fun _ => rfl) rfl rfl rfl
      have key : ((m.books.saved best slot bitmap).entryAt best).va = (metaAt (m.victim b).2 best).va := by
        have kept := getD_modify m.books.entries best best
          (fun e => { e with inSwap := true, slot := slot }) .cleared
        have same := congrArg Entry.va (entry best)
        change ((m.books.entries.modify best fun e => { e with inSwap := true, slot := slot }).getD
          best .cleared).va = _
        rw [kept]
        split_ifs
        · exact same
        · exact same
      rw [gone ((m.chosen b).swapped best slot bitmap ip') rfl (by rw [swapped]; exact key) below here,
        swapped]
      exact .saved best leaf.flags slot bitmap (victim picked) (pte below here) found

theorem Obtained.books {r : Option Nat} (obtained : Obtained b m r m') :
    m.books.Obtain r.isSome m'.books := by
  cases obtained with
  | free pa m' allocated =>
    rw [Machine.books_of_core allocated.core]
    exact .free true
  | evicted r m₁ m' _ evicted allocated =>
    rw [Machine.books_of_core allocated.core]
    exact .evicted _ _ evicted.books
  | failed m' _ evicted => exact .failed _ evicted.books

theorem kallocOrEvict_books :
    wp (kallocOrEvict b) (fun r m' => m.books.Obtain r.isSome m'.books) (fun _ => True) m :=
  wp_mono kallocOrEvict_outcome_of (fun _ _ obtained => obtained.books) fun _ _ => trivial

theorem tryEvictOne_books :
    wp (tryEvictOne b) (fun ok m' => m.books.Evict ok m'.books) (fun _ => True) m :=
  wp_mono tryEvictOne_outcome_of (fun _ _ evicted => evicted.books) fun _ _ => trivial

namespace Books

variable {v v' : Books}

theorem find_modify (v : Books) (va i : Nat) (f : Entry → Entry) (keeps : ∀ e, (f e).va = e.va) :
    (v.modify i f).find va = v.find va := by
  have keys : (v.entries.modify i f).map Entry.va = v.entries.map Entry.va :=
    map_modify_self Entry.va v.entries i keeps
  have byKey (w : Books) : w.find va = (w.entries.map Entry.va).findIdx? fun key => decide (key = va) := by
    rw [List.findIdx?_map]
    rfl
  rw [byKey, byKey]
  exact congrArg _ keys

theorem Evict.find (evict : v.Evict true v') (va : Nat) : v'.find va = v.find va := by
  cases evict with
  | discarded best => exact v.find_modify va best _ fun _ => rfl
  | saved best _ slot =>
    refine Eq.trans ?_ (v.find_modify va best (fun e => { e with inSwap := true, slot := slot }) fun _ => rfl)
    exact Books.find_modify (v.saved best slot _) va best _ fun _ => rfl

theorem Obtain.find (obtain_ : v.Obtain true v') (va : Nat) : v'.find va = v.find va := by
  cases obtain_ with
  | free => rfl
  | evicted _ _ evict => exact evict.find va

theorem Evict.image {ok : Bool} (evict : v.Evict ok v') : v'.image = v.image := by
  cases evict <;> rfl

theorem Obtain.image {ok : Bool} (obtain_ : v.Obtain ok v') : v'.image = v.image := by
  cases obtain_ with
  | free => rfl
  | evicted _ _ evict => exact evict.image
  | failed _ evict => exact evict.image

theorem Evict.spare {ok : Bool} (evict : v.Evict ok v') : v'.spare = v.spare := by
  cases evict <;> rfl

theorem Obtain.spare {ok : Bool} (obtain_ : v.Obtain ok v') : v'.spare = v.spare := by
  cases obtain_ with
  | free => rfl
  | evicted _ _ evict => exact evict.spare
  | failed _ evict => exact evict.spare

theorem noted_setPtes (v : Books) (t : Target) (ptes : Nat → Option Flags) (va : Nat) :
    (v.setPtes t ptes).noted va = (v.noted va).setPtes t ptes := by
  cases t <;> simp only [noted, find, setPtes] <;> split <;> rfl

theorem find_spec {va i : Nat} (found : v.find va = some i) :
    ∃ e, v.entries[i]? = some e ∧ e.va = va := by
  obtain ⟨inside, here, _⟩ := List.findIdx?_eq_some_iff_getElem.mp found
  exact ⟨_, List.getElem?_eq_getElem inside, of_decide_eq_true here⟩

theorem find_none {va : Nat} (absent : v.find va = none) : ∀ e ∈ v.entries, e.va ≠ va := by
  intro e member
  simpa using List.findIdx?_eq_none_iff.mp absent e member

theorem mem_modify {i : Nat} {f : Entry → Entry} {e : Entry} (member : e ∈ (v.modify i f).entries) :
    e ∈ v.entries ∨ ∃ old ∈ v.entries, v.entries[i]? = some old ∧ e = f old := by
  obtain ⟨j, here⟩ := List.mem_iff_getElem?.mp member
  change (v.entries.modify i f)[j]? = some e at here
  rw [List.getElem?_modify] at here
  cases found : v.entries[j]? with
  | none => simp [found] at here
  | some old =>
    have before := List.mem_iff_getElem?.mpr ⟨j, found⟩
    by_cases hit : i = j
    · subst hit
      simp only [found, if_true, Option.map_eq_map, Option.map_some, Option.some.injEq] at here
      exact .inr ⟨old, before, found, here.symm⟩
    · simp only [found, hit, if_false, Option.map_eq_map, Option.map_some, Option.some.injEq] at here
      subst here
      exact .inl before

theorem Evict.mem {ok : Bool} {e : Entry} (evict : v.Evict ok v') (member : e ∈ v'.entries) :
    e = .cleared ∨ ∃ old ∈ v.entries, e.va = old.va ∧ e.perm = old.perm ∧
      (e.resident = true → old.resident = true) := by
  have kept {w : Books} {i : Nat} {f : Entry → Entry} {e : Entry} (member : e ∈ (w.modify i f).entries)
      (same : ∀ e, (f e).va = e.va ∧ (f e).perm = e.perm ∧ ((f e).resident = true → e.resident = true)) :
      ∃ old ∈ w.entries, e.va = old.va ∧ e.perm = old.perm ∧ (e.resident = true → old.resident = true) := by
    rcases mem_modify member with old | ⟨old, before, _, rfl⟩
    · exact ⟨e, old, rfl, rfl, id⟩
    · exact ⟨old, before, same old⟩
  cases evict with
  | nothing => exact .inr ⟨e, member, rfl, rfl, id⟩
  | stale best =>
    rcases List.mem_or_eq_of_mem_set member with old | cleared
    · exact .inr ⟨e, old, rfl, rfl, id⟩
    · exact .inl cleared
  | discarded best => exact .inr (kept (w := v) member fun _ => ⟨rfl, rfl, nofun⟩)
  | saved best _ slot bitmap =>
    obtain ⟨old, before, va, perm, resident⟩ :=
      kept (w := v.saved best slot bitmap) member fun _ => ⟨rfl, rfl, nofun⟩
    obtain ⟨older, found, va', perm', resident'⟩ := kept (w := v) before fun _ => ⟨rfl, rfl, id⟩
    exact .inr ⟨older, found, va.trans va', perm.trans perm', fun here => resident' (resident here)⟩

theorem Obtain.mem {ok : Bool} {e : Entry} (obtained : v.Obtain ok v') (member : e ∈ v'.entries) :
    e = .cleared ∨ ∃ old ∈ v.entries, e.va = old.va ∧ e.perm = old.perm ∧
      (e.resident = true → old.resident = true) := by
  cases obtained with
  | free => exact .inr ⟨e, member, rfl, rfl, id⟩
  | evicted _ _ evict => exact evict.mem member
  | failed _ evict => exact evict.mem member

theorem Evict.obtained {ok : Bool} (evict : v.Evict ok v') : v.Obtain false v' := by
  cases ok with
  | true => exact .evicted false v' evict
  | false => exact .failed v' evict

theorem mem_noted {va : Nat} {e : Entry} (member : e ∈ (v.noted va).entries) :
    e ∈ v.entries ∨ e = { Entry.cleared with va := va } := by
  unfold noted at member
  split at member
  · exact (List.mem_or_eq_of_mem_set member).imp id fun same => same
  · exact .inl member

theorem mem_madeResident {va : Nat} {perm : Flags} {e : Entry}
    (member : e ∈ (v.madeResident va perm).entries) :
    e ∈ v.entries ∨ ∃ old ∈ v.entries, old.va = va ∧ e = { old with resident := true, perm := perm } := by
  unfold madeResident at member
  split at member
  · exact .inl member
  next i found =>
    rcases mem_modify member with old | ⟨old, before, here, same⟩
    · exact .inl old
    · obtain ⟨e', here', key⟩ := find_spec found
      rw [here] at here'
      obtain rfl := Option.some.inj here'
      exact .inr ⟨old, before, key, same⟩

theorem noted_of_find (v : Books) {va i : Nat} (found : v.find va = some i) : v.noted va = v := by
  unfold noted
  rw [found]

end Books

theorem Machine.books_setPte (t : Target) {va : Nat} {leaf : Leaf} (below : va < maxva)
    (reached : ((m.table t).walk va).isSome = true) :
    (m.setTable t ((m.table t).store va (.leaf leaf))).books = m.books.mapped t va leaf.flags := by
  refine (Machine.books_table (t := t) (m.rest_setTable t ((m.table t).store va (.leaf leaf)) rfl) rfl
    ?_).trans ?_
  · intro t' other
    rw [m.table_setTable_other _ other]
  · rw [Machine.table_setTable, Books.mapped, Machine.ptes_books]
    congr 1
    exact PageTable.ptes_update below fun va' low => PageTable.leaf_store _ _ below low reached

theorem Machine.books_alloc (m : Machine) (va : Nat) :
    (m.setMeta (pgmetaAlloc m.proc.pgmeta va).1).books = m.books.noted va := by
  refine Books.ext ?_ ?_ (entries_alloc m va) ?_ ?_ ?_ <;> unfold Books.noted <;> split <;> rfl

theorem Machine.books_modifyMeta (m : Machine) (i : Nat) (f : PageMeta → PageMeta) (g : Entry → Entry)
    (follows : ∀ e, (f e).entry = g e.entry) :
    (m.setMeta (m.proc.pgmeta.modify i f)).books = m.books.modify i g :=
  Books.ext rfl rfl (map_modify PageMeta.entry m.proc.pgmeta i follows) rfl rfl rfl

theorem upgrade_books {vaPg : Nat} {leaf : Leaf} (acc : Access) (below : vaPg < maxva)
    (here : m.proc.pagetable.leaf vaPg = some leaf) :
    wp (upgrade .own vaPg leaf acc) (fun r m' => m.books.Faulted vaPg acc r.isSome m'.books)
      (fun _ => True) m := by
  have reached : ((m.table .own).walk vaPg).isSome = true := by
    change (m.proc.pagetable.walk vaPg).isSome = true
    rw [PageTable.walk, Radix.find_of_value here]
    rfl
  have pte : m.books.pte (vaPg / 4096) = some leaf.flags := by
    refine (PageTable.ptes_leaf _ below).trans ?_
    rw [here]
    rfl
  unfold upgrade
  rw [wp_bind, wp_read]
  cases acc with
  | read => exact .refused
  | exec =>
    simp only
    split_ifs with allowed
    · rw [wp_bind, wp_setPte]
      simp only [Bool.and_eq_true, Bool.not_eq_true'] at allowed
      let executable : Leaf := { leaf with flags := { leaf.flags with x := true } }
      have books := @Machine.books_setPte m .own vaPg executable below reached
      cases region : m.proc.segOf vaPg with
      | none => simp [region] at allowed
      | some seg =>
        rw [wp_pure, books]
        exact .madeExec leaf.flags seg pte rfl region (by simpa [region] using allowed.2)
    · exact .refused
  | write =>
    simp only
    split_ifs with allowed
    · simp only [Bool.and_eq_true, Bool.not_eq_true'] at allowed
      let writable : Leaf := { leaf with flags := { leaf.flags with w := true } }
      have books := @Machine.books_setPte m .own vaPg writable below reached
      have widened : m.books.Faulted vaPg .write true _ := .widened leaf.flags pte rfl allowed.1 allowed.2
      rw [← books] at widened
      have noted := (m.setTable .own ((m.table .own).store vaPg
        (.leaf { leaf with flags := { leaf.flags with w := true } }))).books_alloc vaPg
      rw [← noted] at widened
      rw [wp_bind, wp_setPte, wp_bind, wp_modifyProc]
      cases (pgmetaAlloc m.proc.pgmeta vaPg).2 with
      | none => exact widened
      | some i =>
        simp only
        rw [wp_bind, modifyMeta, wp_modifyProc, wp_pure]
        have kept := Machine.books_modifyMeta (Machine.setMeta (m.setTable .own ((m.table .own).store vaPg
          (.leaf { leaf with flags := { leaf.flags with w := true } })))
          (pgmetaAlloc m.proc.pgmeta vaPg).1) i
          (fun e => { e with dirty := true, referenced := true }) id fun _ => rfl
        rw [Books.modify, modify_id] at kept
        refine Eq.subst (motive := fun w => m.books.Faulted vaPg .write true w) kept.symm widened
    · exact .refused

theorem kfree_effect (pa : Nat) :
    wp (kfree b pa) (fun _ m' => m'.core = m.core) (fun e => e = .kfree) m := by
  unfold kfree
  split_ifs <;> exact rfl

theorem kfree_core (pa : Nat) : wp (kfree b pa) (fun _ m' => m'.core = m.core) (fun _ => True) m :=
  wp_mono (kfree_effect pa) (fun _ _ core => core) fun _ _ => trivial

theorem mapOrFree_books (t : Target) (vaPg pa : Nat) (perm : Flags) :
    wp (mapOrFree b t vaPg pa perm) (fun ok m' =>
      m'.books = if ok then m.books.mapped t vaPg perm else m.books) (fun _ => True) m := by
  apply wp_seq (mappages_books t vaPg pa perm)
  rintro ok m₁ ⟨_, books⟩
  cases ok with
  | true => exact books
  | false =>
    apply wp_seq (kfree_core pa)
    intro _ m₂ core
    exact (Machine.books_of_core core).trans books

theorem readInto_core (ip : Inode) (pa off n : Nat) :
    wp (readInto ip pa off n) (fun _ m' => m'.core = m.core) (fun _ => True) m := rfl

theorem giveUp_books (pa : Nat) :
    wp (giveUp b pa) (fun r m' => r = none ∧ m'.books = m.books) (fun _ => True) m :=
  wp_seq (kfree_core pa) fun _ _ core => ⟨rfl, Machine.books_of_core core⟩

theorem Books.Obtain.weaken {v v' : Books} (obtained : v.Obtain true v') : v.Obtain false v' := by
  cases obtained with
  | free => exact .free false
  | evicted _ _ evict => exact .evicted false _ evict

theorem books_madeResident {va i : Nat} (perm : Flags) (f : PageMeta → PageMeta)
    (follows : ∀ e, (f e).entry = { e.entry with resident := true, perm := perm })
    (found : pgmetaFind m.proc.pgmeta va = some i) :
    (m.setMeta (m.proc.pgmeta.modify i f)).books = m.books.madeResident va perm := by
  have modified := m.books_modifyMeta i f (fun e => { e with resident := true, perm := perm }) follows
  unfold Books.madeResident
  rw [find_books, found]
  exact modified

theorem books_notMade {va : Nat} (perm : Flags) (absent : pgmetaFind m.proc.pgmeta va = none) :
    m.books.madeResident va perm = m.books := by
  unfold Books.madeResident
  rw [find_books, absent]

theorem recordResident_books {va : Nat} {midx : Option Nat} (perm : Flags)
    (found : pgmetaFind m.proc.pgmeta va = midx) :
    wp (recordResident midx perm) (fun _ m' => m'.books = m.books.madeResident va perm)
      (fun _ => True) m := by
  unfold recordResident
  cases midx with
  | none =>
    rw [books_notMade perm found]
    exact rfl
  | some i => exact books_madeResident perm _ (fun _ => rfl) found

theorem recordLoaded_books {va : Nat} {midx : Option Nat} (perm : Flags)
    (found : pgmetaFind m.proc.pgmeta va = midx) :
    wp (recordLoaded va midx perm)
      (fun _ m' => m'.books = (m.books.noted va).madeResident va perm) (fun _ => True) m := by
  unfold recordLoaded
  cases midx with
  | some i =>
    rw [Books.noted_of_find _ (by rw [find_books]; exact found)]
    exact recordResident_books perm found
  | none =>
    rw [wp_bind, wp_read, wp_bind, wp_modifyProc, ← m.books_alloc va]
    exact recordResident_books perm (pgmetaFind_alloc _ _)

theorem pgmetaFind_of_books {va : Nat} (entries : m'.books.entries = m.books.entries) :
    pgmetaFind m'.proc.pgmeta va = pgmetaFind m.proc.pgmeta va := by
  rw [← find_books, ← find_books, Books.find, entries]
  rfl

theorem Books.entries_mapped (v : Books) (t : Target) (va : Nat) (flags : Flags) :
    (v.mapped t va flags).entries = v.entries := by
  cases t <;> rfl

theorem swapIn_books {vaPg midx : Nat} {seg : Seg} {acc : Access}
    (below : vaPg < maxva) (absent : m.books.pte (vaPg / 4096) = none)
    (region : m.books.image.segOf vaPg = some seg)
    (found : m.books.find vaPg = some midx) (inSwap : (m.books.entryAt midx).inSwap = true) :
    wp (swapIn b .own vaPg seg midx) (fun r m' => m.books.Faulted vaPg acc r.isSome m'.books)
      (fun _ => True) m := by
  unfold swapIn
  apply wp_seq kallocOrEvict_books
  intro r m₁ obtained
  cases r with
  | none => exact .starved _ absent obtained
  | some pa =>
    have starved {m' : Machine} (books : m'.books = m₁.books) :
        m.books.Faulted vaPg acc false m'.books := by
      rw [books]
      exact .starved _ absent obtained.weaken
    simp only
    rw [wp_bind, wp_read]
    cases m₁.proc.swapip with
    | none => trivial
    | some ip =>
      apply wp_seq (readInto_core ip pa _ _)
      intro got m₂ core₂
      have books₂ := Machine.books_of_core core₂
      split_ifs
      · apply wp_mono (giveUp_books pa) _ fun _ panics => panics
        rintro r m₃ ⟨rfl, books₃⟩
        exact starved (books₃.trans books₂)
      · apply wp_seq (mapOrFree_books .own vaPg pa _)
        intro ok m₃ books₃
        cases ok with
        | false => exact starved (books₃.trans books₂)
        | true =>
          have served : m.books.Faulted vaPg acc true _ :=
            .swappedIn seg midx _ absent region found inSwap obtained below
          have perm : (metaAt m₁.proc.pgmeta midx).swapPerm seg =
              Books.swapPerm (m₁.books.entryAt midx) seg := by
            rw [entryAt_books]
            rfl
          rw [if_pos rfl, books₂, perm] at books₃
          have modified := m₃.books_modifyMeta midx (fun e => { e with
            resident := true, inSwap := false, slot := 0xffff, seq := m₁.proc.pageSeqCtr,
            referenced := true }) (fun e => { e with resident := true, inSwap := false, slot := 0xffff })
            fun _ => rfl
          have slot : (metaAt m₁.proc.pgmeta midx).slot = (m₁.books.entryAt midx).slot := by
            rw [entryAt_books]
            rfl
          rw [if_pos rfl, wp_bind, modifyMeta, wp_modifyProc, wp_bind, wp_modifyProc, wp_pure]
          refine Eq.subst (motive := fun w => m.books.Faulted vaPg acc true w) (Books.ext ?_ ?_ ?_ ?_ ?_ ?_)
            served
          · exact (congrArg Books.pte books₃).symm
          · exact (congrArg Books.spare books₃).symm
          · refine Eq.trans ?_ (congrArg Books.entries modified).symm
            rw [Books.modify, books₃]
            rfl
          · have bitmap := congrArg Books.bitmap books₃
            change swapFreeSlot m₁.books.bitmap (m₁.books.entryAt midx).slot =
              swapFreeSlot m₃.books.bitmap (metaAt m₁.proc.pgmeta midx).slot
            rw [slot, bitmap]
            rfl
          · have pages := congrArg Books.swapPages books₃
            change m₁.books.swapPages - 1 = m₃.books.swapPages - 1
            rw [pages]
            rfl
          · exact (congrArg Books.image books₃).symm

theorem readSegment_core (seg : Seg) (execip : Inode) (pa pageOff : Nat) :
    wp (readSegment seg execip pa pageOff) (fun _ m' => m'.core = m.core) (fun _ => True) m := by
  unfold readSegment
  split_ifs
  · exact wp_seq (readInto_core execip pa _ _) fun _ _ core => core
  · exact rfl

theorem installPage_books {vaPg pa : Nat} {seg : Seg} {midx : Option Nat}
    (found : pgmetaFind m.proc.pgmeta vaPg = midx) :
    wp (installPage b .own vaPg seg midx pa) (fun r m' =>
      m'.books = if r.isSome then m.books.installed .own vaPg seg.flags else m.books) (fun _ => True) m := by
  unfold installPage
  apply wp_seq (mapOrFree_books .own vaPg pa _)
  intro ok m₁ books₁
  cases ok with
  | false => exact books₁
  | true =>
    rw [if_pos rfl] at books₁
    have same : pgmetaFind m₁.proc.pgmeta vaPg = midx := by
      rw [pgmetaFind_of_books (m := m) (by rw [books₁, Books.entries_mapped]), found]
    apply wp_seq (recordLoaded_books seg.flags same)
    intro _ m₂ books₂
    rw [books₁] at books₂
    exact books₂

theorem loadPage_books {vaPg : Nat} {seg : Seg} {execip : Inode} {midx : Option Nat} {acc : Access}
    (below : vaPg < maxva) (absent : m.books.pte (vaPg / 4096) = none)
    (region : m.books.image.segOf vaPg = some seg)
    (found : m.books.find vaPg = midx)
    (notInSwap : ∀ i, m.books.find vaPg = some i → (m.books.entryAt i).inSwap = false) :
    wp (loadPage b .own vaPg seg execip midx acc)
      (fun r m' => m.books.Faulted vaPg acc r.isSome m'.books) (fun _ => True) m := by
  unfold loadPage
  apply wp_seq kallocOrEvict_books
  intro r m₁ obtained
  cases r with
  | none => exact .starved _ absent obtained
  | some pa =>
    have starved {m' : Machine} (books : m'.books = m₁.books) :
        m.books.Faulted vaPg acc false m'.books := by
      rw [books]
      exact .starved _ absent obtained.weaken
    simp only
    rw [wp_bind, wp_memset]
    apply wp_seq (readSegment_core seg execip pa _)
    intro ok m₂ core₂
    have books₂ : m₂.books = m₁.books := Machine.books_of_core core₂
    have failed : wp (giveUp b pa) (fun r m' => m.books.Faulted vaPg acc r.isSome m'.books)
        (fun _ => True) m₂ := by
      apply wp_mono (giveUp_books pa) _ fun _ panics => panics
      rintro r m₃ ⟨rfl, books₃⟩
      exact starved (books₃.trans books₂)
    cases ok with
    | false => exact failed
    | true =>
      simp only [if_true]
      split_ifs
      · exact failed
      · have same : pgmetaFind m₂.proc.pgmeta vaPg = midx := by
          rw [← find_books, books₂, obtained.find, found]
        apply wp_mono (installPage_books same) _ fun _ panics => panics
        intro r m₃ books₃
        rw [books₂] at books₃
        cases r with
        | none => exact starved books₃
        | some pa =>
          rw [books₃]
          exact .loaded seg _ absent region notInSwap obtained below

theorem pgmetaAlloc_none {metas : List PageMeta} {va : Nat} (full : (pgmetaAlloc metas va).2 = none) :
    (pgmetaAlloc metas va).1 = metas ∧ pgmetaFind metas 0 = none := by
  unfold pgmetaAlloc at *
  cases found : pgmetaFind metas va with
  | some i =>
    rw [found] at full
    contradiction
  | none =>
    rw [found] at full
    cases free : pgmetaFind metas 0 with
    | some i =>
      rw [free] at full
      contradiction
    | none => exact ⟨rfl, rfl⟩

theorem noted_again (m : Machine) (va : Nat) {v : Books}
    (same : ∀ va', v.find va' = (m.books.noted va).find va') : v.noted va = v := by
  have noted (va' : Nat) :
      (m.books.noted va).find va' = pgmetaFind (pgmetaAlloc m.proc.pgmeta va).1 va' := by
    rw [← m.books_alloc va, find_books]
    rfl
  have here := (same va).trans ((noted va).trans (pgmetaFind_alloc _ _))
  cases made : (pgmetaAlloc m.proc.pgmeta va).2 with
  | some i =>
    rw [made] at here
    exact v.noted_of_find here
  | none =>
    rw [made] at here
    obtain ⟨unchanged, noRoom⟩ := pgmetaAlloc_none made
    have free := (same 0).trans (noted 0)
    rw [unchanged, noRoom] at free
    unfold Books.noted
    rw [here, free]

theorem Books.noted_pte (v : Books) (va : Nat) : (v.noted va).pte = v.pte := by
  unfold noted
  split <;> rfl

theorem zeroPage_books {vaPg : Nat} {acc : Access} (below : vaPg < maxva)
    (absent : m.books.pte (vaPg / 4096) = none)
    (region : m.books.image.segOf vaPg = none)
    (anonymous : (m.books.image.isHeap vaPg || m.books.image.isStack vaPg) = true) :
    wp (zeroPage b .own vaPg) (fun r m' => m.books.Faulted vaPg acc r.isSome m'.books)
      (fun _ => True) m := by
  unfold zeroPage
  rw [wp_bind, wp_read, wp_bind, wp_modifyProc]
  have noted := m.books_alloc vaPg
  have found : (m.books.noted vaPg).find vaPg = (pgmetaAlloc m.proc.pgmeta vaPg).2 := by
    rw [← noted, find_books]
    exact pgmetaFind_alloc _ _
  apply wp_seq kallocOrEvict_books
  intro r m₁ obtained
  change Books.Obtain (m.setMeta (pgmetaAlloc m.proc.pgmeta vaPg).1).books r.isSome m₁.books at obtained
  rw [noted] at obtained
  cases r with
  | none => exact .zeroStarved _ absent region obtained below
  | some pa =>
    simp only
    rw [wp_bind, wp_memset]
    apply wp_seq (mapOrFree_books .own vaPg pa _)
    intro ok m₂ books₂
    change m₂.books = if ok = true then m₁.books.mapped .own vaPg zeroFlags else m₁.books at books₂
    cases ok with
    | false =>
      change m.books.Faulted vaPg acc false m₂.books
      rw [show m₂.books = m₁.books from books₂]
      exact .zeroStarved _ absent region obtained.weaken below
    | true =>
      rw [if_pos rfl] at books₂
      have same : pgmetaFind m₂.proc.pgmeta vaPg = (pgmetaAlloc m.proc.pgmeta vaPg).2 := by
        rw [pgmetaFind_of_books (m := m₁) (by rw [books₂, Books.entries_mapped]), ← find_books,
          obtained.find, found]
      apply wp_seq (recordResident_books zeroFlags same)
      intro _ m₃ books₃
      have again : (m₁.books.mapped .own vaPg zeroFlags).noted vaPg = m₁.books.mapped .own vaPg zeroFlags := by
        refine noted_again m vaPg fun va' => ?_
        rw [← obtained.find va']
        rfl
      have served : m.books.Faulted vaPg acc true _ :=
        .zeroed _ absent region anonymous obtained below
      unfold Books.installed at served
      rw [again, ← books₂, ← books₃] at served
      exact served

theorem vmfault_books (va : Nat) (acc : Access) :
    wp (vmfault b .own va acc)
      (fun r m' => m.books.Faulted (pgrounddown va) acc r.isSome m'.books) (fun _ => True) m := by
  unfold vmfault
  split_ifs with high
  · exact .refused
  · have below : pgrounddown va < maxva := by
      unfold pgrounddown
      omega
    rw [wp_bind, wp_read, wp_bind, wp_read]
    cases mapped : (m.table .own).leaf (pgrounddown va) with
    | some leaf => exact upgrade_books acc below mapped
    | none =>
      have absent : m.books.pte (pgrounddown va / 4096) = none := by
        refine (PageTable.ptes_leaf _ below).trans ?_
        rw [show m.proc.pagetable.leaf (pgrounddown va) = none from mapped]
        rfl
      cases region : m.proc.segOf (pgrounddown va) with
      | some seg =>
        cases m.proc.execip with
        | none => exact .refused
        | some execip =>
          cases found : pgmetaFind m.proc.pgmeta (pgrounddown va) with
          | none =>
            refine loadPage_books below absent region ((find_books _ _).trans found) fun i here => ?_
            rw [find_books, found] at here
            contradiction
          | some midx =>
            simp only
            split_ifs with inSwap
            · refine swapIn_books below absent region ((find_books _ _).trans found) ?_
              rw [entryAt_books]
              exact inSwap
            · refine loadPage_books below absent region ((find_books _ _).trans found) fun i here => ?_
              rw [find_books, found] at here
              obtain rfl := Option.some.inj here
              rw [entryAt_books]
              exact Bool.eq_false_iff.mpr inSwap
      | none =>
        simp only
        split_ifs with anonymous
        · exact zeroPage_books below absent region anonymous
        · exact .refused

-- A page of no region is refused, mapped or not.
theorem vmfault_outside {va : Nat} {acc : Access}
    (outside : ((m.proc.segOf (pgrounddown va)).isSome || m.proc.isHeap (pgrounddown va) ||
      m.proc.isStack (pgrounddown va)) = false) :
    vmfault b .own va acc m = .ok (none, m) := by
  simp only [Bool.or_eq_false_iff] at outside
  have region : m.proc.segOf (pgrounddown va) = none := by
    simpa using outside.1.1
  have refused : wp (vmfault b .own va acc) (fun r m' => r = none ∧ m' = m) (fun _ => False) m := by
    unfold vmfault
    split_ifs with high
    · exact ⟨rfl, rfl⟩
    · rw [wp_bind, wp_read, wp_bind, wp_read]
      cases (m.table .own).leaf (pgrounddown va) with
      | none =>
        simp only [region, outside.1.2, outside.2, Bool.or_self, Bool.false_eq_true, if_false, wp_pure,
          and_self]
      | some leaf =>
        simp only [upgrade]
        rw [wp_bind, wp_read]
        cases acc with
        | read => exact ⟨rfl, rfl⟩
        | write => simp [region, outside.1.2, outside.2]
        | exec => simp [region]
  obtain ⟨r, m', ran, rfl, rfl⟩ := wp_total refused
  exact ran

end SystemsSuite.Paging
