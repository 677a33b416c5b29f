import SystemsSuite.Paging.Contents

set_option autoImplicit false

namespace SystemsSuite.Paging

open Lib Prog

theorem writeLoop_stored (src : Nat → UInt8) (n blocks : Nat) (ip : Inode) (off tot : Nat) {k : Nat}
    (low : tot ≤ k) (high : k < (writeLoop src n blocks ip off tot).1) :
    (writeLoop src n blocks ip off tot).2.data (off + (k - tot)) = src k := by
  induction blocks generalizing ip off tot with
  | zero =>
    change k < tot at high
    omega
  | succ blocks ih =>
    rw [writeLoop] at high ⊢
    split_ifs at high ⊢ with more
    · simp only at high ⊢
      generalize min (n - tot) (bsize - off % bsize) = piece at high ⊢
      by_cases here : k < tot + piece
      · rw [writeLoop_data _ _ _ _ _ _ (by omega)]
        change (if off ≤ off + (k - tot) ∧ off + (k - tot) < off + piece then _ else _) = _
        rw [if_pos (by omega)]
        congr 1
        omega
      · have later := ih (ip.overwrite off piece fun k => src (tot + k)) (off + piece) (tot + piece)
          (by omega) high
        rwa [show off + piece + (k - (tot + piece)) = off + (k - tot) by omega] at later
    · change k < tot at high
      omega

theorem writei_stored {ip ip' : Inode} {src : Nat → UInt8} {off n blocks done : Nat}
    (written : writei ip src off n blocks = (some done, ip')) {k : Nat} (short : k < done) :
    ip'.data (off + k) = src k := by
  unfold writei at written
  split_ifs at written
  · simp at written
  · simp at written
  · obtain ⟨rfl, rfl⟩ : (writeLoop src n blocks ip off 0).1 = done ∧ (writeLoop src n blocks ip off 0).2 = ip' := by
      simpa using written
    exact writeLoop_stored src n blocks ip off 0 (Nat.zero_le k) short

-- The watched pages hold the bytes `want`, and those that are mapped without PTE_W, which an eviction may throw
-- away, hold what they would be loaded with.
structure Intact (want : Nat → UInt8) (watch : Nat → Prop) (m : Machine) : Prop where
  content : ∀ va, watch (pgrounddown va) → m.content va = want va
  clean : ∀ va, watch (pgrounddown va) → ∀ leaf, m.proc.pagetable.leaf va = some leaf →
    leaf.flags.w = false → m.proc.backing va = want va

-- The pages in `watch` are user pages.
def Low (watch : Nat → Prop) : Prop := ∀ vaPg, watch vaPg → vaPg < trapframeVa

theorem Low.below {watch : Nat → Prop} (low : Low watch) {va : Nat} (watched : watch (pgrounddown va)) :
    va < trapframeVa := by
  have page := low _ watched
  unfold pgrounddown trapframeVa trampolineVa maxva at *
  omega

theorem Books.Filed.low {watch : Nat → Prop} {v : Books} (filed : v.Filed watch) : Low watch :=
  fun vaPg watched => (filed.watched vaPg watched).2.1

variable {b : Build} {held : Nat → Nat} {want : Nat → UInt8} {watch : Nat → Prop} {m m' : Machine}

namespace Intact

theorem of_same (intact : Intact want watch m) (low : Low watch)
    (leaf : ∀ va < trapframeVa, m'.proc.pagetable.leaf va = m.proc.pagetable.leaf va)
    (mem : ∀ va < trapframeVa, ∀ leaf, m.proc.pagetable.leaf va = some leaf → m'.mem leaf.pa = m.mem leaf.pa)
    (stored : ∀ va, watch (pgrounddown va) → m.proc.pagetable.leaf va = none → m'.proc.stored va = m.proc.stored va)
    (program : m'.proc.program = m.proc.program) : Intact want watch m' := by
  constructor
  · intro va watched
    rw [← intact.content va watched]
    unfold Machine.content
    rw [leaf va (low.below watched)]
    cases here : m.proc.pagetable.leaf va with
    | none => exact stored va watched here
    | some l => exact congrFun (mem va (low.below watched) l here) _
  · intro va watched l here readOnly
    rw [leaf va (low.below watched)] at here
    rw [Proc.backing_congr program]
    exact intact.clean va watched l here readOnly

theorem of_entries (intact : Intact want watch m) (low : Low watch) (mem : m'.mem = m.mem)
    (table : m'.proc.pagetable = m.proc.pagetable) (program : m'.proc.program = m.proc.program)
    (swapip : m'.proc.swapip = m.proc.swapip)
    (slots : ∀ va, watch (pgrounddown va) → m.proc.pagetable.leaf va = none →
      m'.proc.slotOf (pgrounddown va) = m.proc.slotOf (pgrounddown va)) : Intact want watch m' := by
  apply intact.of_same low
  · intro va _
    rw [table]
  · intro va _ leaf _
    rw [mem]
  · intro va watched absent
    exact Proc.stored_congr (slots va watched absent)
      (fun slot _ off _ => Proc.slotByte_congr swapip slot off) program
  · exact program

theorem of_frames (intact : Intact want watch m) (low : Low watch) (proc : m'.proc = m.proc)
    (mem : ∀ va < trapframeVa, ∀ leaf, m.proc.pagetable.leaf va = some leaf → m'.mem leaf.pa = m.mem leaf.pa) :
    Intact want watch m' := by
  apply intact.of_same low
  · intro va _
    rw [proc]
  · exact mem
  · intro va _ _
    rw [proc]
  · rw [proc]

theorem fill {pa : Nat} (intact : Intact want watch m) (low : Low watch)
    (owned : Owned b (holding (some pa) held) m) (page : Page) : Intact want watch (m.fill pa page) :=
  intact.of_frames low rfl fun _ below _ here => Function.update_of_ne (owned.unheld below here) _ _

theorem freed {pa : Nat} (intact : Intact want watch m) (low : Low watch)
    (owned : Owned b (holding (some pa) held) m) : Intact want watch (m.freed pa) :=
  intact.of_frames low rfl fun _ below _ here => Function.update_of_ne (owned.unheld below here) _ _

theorem allocated {r : Option Nat} (intact : Intact want watch m) (low : Low watch) (owned : Owned b held m)
    (allocated : Allocated m r m') : Intact want watch m' := by
  cases allocated with
  | none => exact intact
  | some pa rest free =>
    refine intact.of_frames low rfl fun va below leaf here => Function.update_of_ne ?_ _ _
    rintro rfl
    apply (owned.mapped below here).1
    rw [free]
    exact List.mem_cons_self

end Intact

section Evictions

variable {best slot : Nat} {bitmap : Bitmap} {ip ip' : Inode}

theorem Machine.books_chosen (b : Build) (m : Machine) : (m.chosen b).books = m.books :=
  Books.ext rfl rfl (entries_victim m) rfl rfl rfl

theorem Machine.victim_at (picked : (m.victim b).1 = some best) :
    ∃ e, (m.victim b).2[best]? = some e ∧ metaAt (m.victim b).2 best = e ∧ e.entry ∈ m.books.entries ∧
      m.books.entries[best]? = some e.entry ∧ e.resident = true ∧ e.va ≠ 0 := by
  have victim := selectVictim_evictable picked
  change (metaAt (m.victim b).2 best).resident = true ∧ (metaAt (m.victim b).2 best).va ≠ 0 at victim
  have entry (i : Nat) : m.books.entries[i]? = ((m.victim b).2[i]?).map PageMeta.entry := by
    rw [← List.getElem?_map, entries_victim]
    rfl
  unfold metaAt at victim ⊢
  rw [List.getD_eq_getElem?_getD] at victim ⊢
  cases here : (m.victim b).2[best]? with
  | none =>
    rw [here] at victim
    exact nomatch victim.1
  | some e =>
    rw [here] at victim
    have there : m.books.entries[best]? = some e.entry := by rw [entry, here, Option.map_some]
    exact ⟨e, rfl, rfl, List.mem_iff_getElem?.mpr ⟨best, there⟩, there, victim.1, victim.2⟩

theorem Intact.chosen (intact : Intact want watch m) (low : Low watch) (b : Build) :
    Intact want watch (m.chosen b) :=
  intact.of_entries low rfl rfl rfl rfl fun _ _ _ => Proc.slotOf_congr (entries_victim m) _

theorem Intact.stored_same (intact : Intact want watch m) (low : Low watch) (apart : m.books.SlotsApart)
    (found : swapAllocSlot m.proc.swapBitmap = some (slot, bitmap)) (file : m.proc.swapip = some ip)
    {src : Page} {blocks : Nat} {r : Option Nat} (written : writei ip src (slot * 4096) 4096 blocks = (r, ip'))
    (mem : m'.mem = m.mem) (table : m'.proc.pagetable = m.proc.pagetable)
    (program : m'.proc.program = m.proc.program) (swapip : m'.proc.swapip = some ip')
    (slots : ∀ va, watch (pgrounddown va) → m.proc.pagetable.leaf va = none →
      m'.proc.slotOf (pgrounddown va) = m.proc.slotOf (pgrounddown va)) : Intact want watch m' := by
  apply intact.of_same low
  · intro va _
    rw [table]
  · intro va _ leaf _
    rw [mem]
  · intro va watched absent
    refine Proc.stored_congr (slots va watched absent) (fun other held => ?_) program
    obtain ⟨e, member, _, inSwap, same⟩ := Proc.slotOf_some held
    have different : other ≠ slot := same ▸ apart.unheld found e member inSwap
    refine Proc.slotByte_same ?_ file
    rw [file, swapip]
    exact writei_sameSlot written different
  · exact program

theorem Intact.dropped {va : Nat} {leaf : Leaf} (intact : Intact want watch m) (low : Low watch)
    (owned : Owned b held m) (below : va < trapframeVa)
    (here : m.proc.pagetable.leaf va = some leaf)
    (kept : ∀ va', va' / 4096 = va / 4096 → watch (pgrounddown va') → m.proc.stored va' = want va') :
    Intact want watch (m.dropped best va leaf.pa) := by
  have reached : (m.proc.pagetable.walk va).isSome = true := by
    rw [PageTable.walk, Radix.find_of_value here]
    rfl
  have leaves (va' : Nat) (below' : va' < trapframeVa) :
      (m.dropped best va leaf.pa).proc.pagetable.leaf va' =
        if va' / 4096 = va / 4096 then none else m.proc.pagetable.leaf va' :=
    PageTable.leaf_store m.proc.pagetable .empty (below.trans (by decide)) (below'.trans (by decide)) reached
  have stored (va' : Nat) : (m.dropped best va leaf.pa).proc.stored va' = m.proc.stored va' := by
    apply Proc.stored_congr
    · exact Proc.slotOf_modify (i := best) (f := fun e => { e with resident := false, dirty := false }) rfl
        fun _ _ => rfl
    · exact fun slot _ off _ => Proc.slotByte_congr rfl slot off
    · rfl
  constructor
  · intro va' watched
    have below' := low.below watched
    unfold Machine.content
    rw [leaves va' below']
    by_cases page : va' / 4096 = va / 4096
    · rw [if_pos page]
      exact (stored va').trans (kept va' page watched)
    · rw [if_neg page, ← intact.content va' watched]
      unfold Machine.content
      cases there : m.proc.pagetable.leaf va' with
      | none => exact stored va'
      | some leaf' =>
        have frame : (m.dropped best va leaf.pa).mem leaf'.pa = m.mem leaf'.pa :=
          Function.update_of_ne (owned.apart below below' page here there) _ _
        exact congrFun frame _
  · intro va' watched leaf' there readOnly
    rw [leaves va' (low.below watched)] at there
    split_ifs at there with page
    exact intact.clean va' watched leaf' there readOnly

theorem PageMeta.cleared_slotFor (vaPg : Nat) : PageMeta.cleared.slotFor vaPg = none := by
  unfold slotFor
  exact ite_self none

theorem SwapSaved.keeps_content {va : Nat} {e : PageMeta} {leaf : Leaf} (saved : SwapSaved m best leaf.pa m')
    (intact : Intact want watch m) (low : Low watch) (owned : Owned b held m) (keyed : m.books.Keyed)
    (apart : m.books.SlotsApart) (entry : m.proc.pgmeta[best]? = some e) (key : e.va = va) (notZero : va ≠ 0)
    (below : va < trapframeVa) (here : m.proc.pagetable.leaf va = some leaf) :
    Intact want watch (m'.dropped best va leaf.pa) := by
  cases saved with
  | saved ip ip' slot bitmap file found written =>
    have marked : Intact want watch (m.swapped best slot bitmap ip') := by
      refine intact.stored_same low apart found file written rfl rfl rfl rfl fun va' watched absent => ?_
      refine Proc.slotOf_modify (i := best) (f := fun e => { e with inSwap := true, slot := slot }) rfl
        fun e' there => ?_
      obtain rfl := Option.some.inj (entry.symm.trans there)
      have elsewhere : e.va ≠ pgrounddown va' := by
        intro same
        have page : va' / 4096 = va / 4096 := by
          rw [← key, same]
          unfold pgrounddown
          omega
        rw [PageTable.leaf_page _ page, here] at absent
        exact nomatch absent
      exact (if_neg elsewhere).trans (if_neg elsewhere).symm
    have owned₁ : Owned b held (m.swapped best slot bitmap ip') := owned.mono (fun _ => le_rfl) rfl
    refine marked.dropped low owned₁ below here fun va' page watched => ?_
    have aligned : va % 4096 = 0 := by
      apply keyed.aligned
      rw [← key]
      exact List.mem_map_of_mem (List.mem_map_of_mem (List.mem_iff_getElem?.mpr ⟨best, entry⟩))
    have rounded : pgrounddown va' = va := by
      unfold pgrounddown
      omega
    have slotOf : (m.swapped best slot bitmap ip').proc.slotOf va = some slot := by
      have placed : (m.swapped best slot bitmap ip').proc.pgmeta[best]? =
          some { e with inSwap := true, slot := slot } := by
        change (m.proc.pgmeta.modify best _)[best]? = _
        rw [List.getElem?_modify, entry]
        simp
      refine findSome?_unique (List.mem_iff_getElem?.mpr ⟨best, placed⟩) (if_pos key) ?_
      intro e' member slot' holds
      obtain ⟨j, there⟩ := List.mem_iff_getElem?.mp member
      obtain ⟨key', held⟩ := Option.ite_none_right_eq_some.mp holds
      have keys : (m.books.entries.map Entry.va)[j]? = some va := by
        change ((m.proc.pgmeta.map PageMeta.entry).map Entry.va)[j]? = some va
        have old := map_modify_self PageMeta.va m.proc.pgmeta best (f := fun e =>
          { e with inSwap := true, slot := slot }) fun _ => rfl
        rw [List.map_map]
        change (m.proc.pgmeta.map PageMeta.va)[j]? = some va
        rw [← old, List.getElem?_map]
        exact (congrArg (Option.map PageMeta.va) there).trans (congrArg some key')
      have same : j = best := by
        apply keyed.unique j best va notZero keys
        change ((m.proc.pgmeta.map PageMeta.entry).map Entry.va)[best]? = some va
        rw [List.map_map, List.getElem?_map, entry]
        exact congrArg some key
      rw [same, placed] at there
      rw [← Option.some.inj there] at held
      exact (Option.some.inj held).symm
    unfold Proc.stored
    rw [rounded, slotOf]
    change ip'.data (slot * 4096 + va' % 4096) = _
    rw [← intact.content va' watched, writei_stored written (Nat.mod_lt _ (by decide))]
    unfold Machine.content
    rw [PageTable.leaf_page _ page, here]

theorem Evicted.keeps_content {ok : Bool} (evicted : Evicted b m ok m') (intact : Intact want watch m)
    (filed : m.books.Filed watch) (owned : Owned b held m) (tracked : Tracked m.proc.pgmeta) :
    Intact want watch m' := by
  have low := filed.low
  have chosen := intact.chosen low b
  have owned₁ : Owned b held (m.chosen b) := owned.mono (fun _ => le_rfl) rfl
  have apart : (m.chosen b).books.SlotsApart := by
    rw [m.books_chosen b]
    exact filed.apart
  have keyed : (m.chosen b).books.Keyed := by
    rw [m.books_chosen b]
    exact filed.keyed
  have placed := (tracked.selectVictim b.policy m.proc.pageSeqCtr m.proc.clockHand).metaAt
  cases evicted with
  | noVictim => exact chosen
  | stale best picked absent =>
    obtain ⟨e, there, _, member, _, resident, _⟩ := m.victim_at picked
    refine chosen.of_entries low rfl rfl rfl rfl fun va watched _ => ?_
    refine Proc.slotOf_set (i := best) rfl (PageMeta.cleared_slotFor _) fun e' here => ?_
    obtain rfl := Option.some.inj (there.symm.trans here)
    unfold PageMeta.slotFor
    split_ifs with key
    · have unsaved : e.inSwap = false := by
        by_contra saved
        rw [Bool.not_eq_false] at saved
        have key' : e.entry.va = pgrounddown va := key
        have known := (filed.settled e.entry member (key' ▸ watched) saved).1
        exact Bool.noConfusion (resident.symm.trans known)
      exact if_neg (by rw [PageMeta.entry, unsaved]; exact Bool.false_ne_true)
    · rfl
  | unsaved best leaf m' picked here failed =>
    cases failed with
    | noFile => exact chosen.of_entries low rfl rfl rfl rfl fun _ _ _ => rfl
    | full => exact chosen.of_entries low rfl rfl rfl rfl fun _ _ _ => rfl
    | short ip ip' slot bitmap r file found written =>
      exact chosen.stored_same low apart found file written rfl rfl rfl rfl fun _ _ _ => rfl
  | discarded best leaf picked _ here clean readOnly =>
    obtain ⟨e, there, entry, member, _, resident, _⟩ := m.victim_at picked
    have place := placed best
    change (metaAt (m.victim b).2 best).Placed at place
    rw [entry] at place here ⊢
    have below := place.2.2 resident
    have aligned := place.2.1
    refine chosen.dropped low owned₁ below here fun va page watched => ?_
    have rounded : pgrounddown va = e.va := by
      unfold pgrounddown
      omega
    have mapped : m.books.pte (e.va / 4096) = some leaf.flags := by
      refine (PageTable.ptes_leaf _ (below.trans (by decide))).trans ?_
      rw [here]
      rfl
    have unsaved : (m.chosen b).proc.slotOf (pgrounddown va) = none := by
      refine Proc.slotOf_none fun e' member' key' => ?_
      have old : e'.entry ∈ m.books.entries := by
        rw [← m.books_chosen b]
        exact List.mem_map_of_mem member'
      have page' : e'.entry.va = e.va := key'.trans rounded
      refine filed.mapped_unsaved mapped (rounded ▸ watched) e'.entry old page'
    unfold Proc.stored
    rw [unsaved]
    exact chosen.clean va watched leaf ((PageTable.leaf_page _ page).trans here) readOnly
  | saved best leaf m₁ picked _ here saved =>
    obtain ⟨e, there, entry, _, _, resident, notZero⟩ := m.victim_at picked
    have place := placed best
    change (metaAt (m.victim b).2 best).Placed at place
    rw [entry] at place here ⊢
    exact saved.keeps_content chosen low owned₁ keyed apart there rfl notZero (place.2.2 resident) here

end Evictions

variable {m₀ : Machine}

theorem kallocOrEvict_intact (kept : Kept b held m₀ m) (filed : m.books.Filed watch)
    (intact : Intact want watch m) :
    wp (kallocOrEvict b) (fun _ m' => Intact want watch m' ∧ m'.proc.program = m.proc.program)
      (fun _ => True) m := by
  have low := filed.low
  have evicts : wp (tryEvictOne b) (Evicted b m) (fun _ => True) m :=
    wp_mono tryEvictOne_outcome_of (fun _ _ evicted => evicted) fun _ _ => trivial
  have bytes : wp (kallocOrEvict b) (fun _ m' => Intact want watch m') (fun _ => True) m := by
    unfold kallocOrEvict
    apply wp_seq_and (kalloc_outcome (E := fun _ => True)) (kalloc_kept kept)
    intro r m₁ allocated _
    cases allocated with
    | some pa rest free => exact intact.allocated low kept.owned (.some pa rest free)
    | none =>
      apply wp_seq_and evicts (tryEvictOne_kept kept)
      intro ok m₂ evicted kept₂
      have intact₂ := evicted.keeps_content intact filed kept.owned kept.tracked
      cases ok with
      | false => exact intact₂
      | true =>
        exact wp_mono (kalloc_outcome (E := fun _ => True))
          (fun _ _ allocated => intact₂.allocated low kept₂.owned allocated) fun _ panics => panics
  apply wp_mono (wp_and bytes (kallocOrEvict_kept kept.rebase)) _ fun _ _ => trivial
  rintro r m' ⟨intact', kept'⟩
  have program := congrArg Proc.program kept'.image
  exact ⟨intact', program⟩

theorem stored_of_rest (rest : m'.rest = m.rest) : m'.proc.stored = m.proc.stored :=
  congrArg (fun c : Core => c.proc.stored) rest

theorem program_of_rest (rest : m'.rest = m.rest) : m'.proc.program = m.proc.program :=
  congrArg (fun c : Core => c.proc.program) rest

section Installing

variable {vaPg pa : Nat} {flags : Flags}

theorem Intact.step (intact : Intact want watch m) (low : Low watch) (owned : Owned b held m)
    (step : TableStep .own m.proc.pagetable.leaf m m') : Intact want watch m' :=
  intact.of_same low (fun va below => step.leaf va (below.trans (by decide)))
    (fun _ below leaf here => step.mem leaf.pa (owned.mapped below here).1)
    (fun va _ _ => congrFun (stored_of_rest step.rest) va) (program_of_rest step.rest)

theorem Intact.mapped (intact : Intact want watch m) (low : Low watch)
    (owned : Owned b (holding (some pa) held) m)
    (step : TableStep .own (setLeaf m.proc.pagetable.leaf vaPg (some ⟨pa, flags⟩)) m m')
    (bytes : ∀ va, va / 4096 = vaPg / 4096 → watch (pgrounddown va) →
      m.mem pa (va % 4096) = want va ∧ (flags.w = false → m.proc.backing va = want va)) :
    Intact want watch m' := by
  have backing := Proc.backing_congr (program_of_rest step.rest)
  have leaves (va : Nat) (below : va < trapframeVa) : m'.proc.pagetable.leaf va =
      setLeaf m.proc.pagetable.leaf vaPg (some ⟨pa, flags⟩) va := step.leaf va (below.trans (by decide))
  constructor
  · intro va watched
    have below := low.below watched
    unfold Machine.content
    rw [leaves va below]
    unfold setLeaf
    split_ifs with page
    · rw [← (bytes va page watched).1]
      exact congrFun (step.mem pa (held_not_free owned)) _
    · rw [← intact.content va watched]
      unfold Machine.content
      cases here : m.proc.pagetable.leaf va with
      | none => exact congrFun (stored_of_rest step.rest) va
      | some leaf => exact congrFun (step.mem leaf.pa (owned.mapped below here).1) _
  · intro va watched leaf here readOnly
    rw [leaves va (low.below watched)] at here
    rw [backing]
    unfold setLeaf at here
    split_ifs at here with page
    · obtain rfl := Option.some.inj here
      exact (bytes va page watched).2 readOnly
    · exact intact.clean va watched leaf here readOnly

theorem kfree_intact (intact : Intact want watch m) (low : Low watch)
    (owned : Owned b (holding (some pa) held) m) :
    wp (kfree b pa) (fun _ m' => Intact want watch m' ∧ m'.core = m.core) (fun _ => True) m := by
  unfold kfree
  split_ifs
  · exact ⟨intact.freed low owned, rfl⟩
  · trivial

theorem giveUp_intact (intact : Intact want watch m) (low : Low watch)
    (owned : Owned b (holding (some pa) held) m) :
    wp (giveUp b pa) (fun _ m' => Intact want watch m') (fun _ => True) m :=
  wp_seq (kfree_intact intact low owned) fun _ _ freed => freed.1

theorem mapOrFree_intact (intact : Intact want watch m) (low : Low watch)
    (kept : Kept b (holding (some pa) held) m₀ m)
    (bytes : ∀ va, va / 4096 = vaPg / 4096 → watch (pgrounddown va) →
      m.mem pa (va % 4096) = want va ∧ (flags.w = false → m.proc.backing va = want va)) :
    wp (mapOrFree b .own vaPg pa flags) (fun ok m' => Intact want watch m' ∧ m'.rest = m.rest ∧
      (ok = true → m'.proc.pagetable.leaf vaPg = some ⟨pa, flags⟩)) (fun _ => True) m := by
  have effect : wp (mappages .own vaPg pa flags) _ (fun _ => True) m :=
    wp_mono (mappages_effect .own vaPg pa flags) (fun _ _ result => result) fun _ _ => trivial
  unfold mapOrFree
  apply wp_seq_and effect (mappages_kept .own kept)
  rintro ok m₁ ⟨_, below, step⟩ kept₁
  cases ok with
  | true =>
    refine ⟨intact.mapped low kept.owned step bytes, step.rest, fun _ => ?_⟩
    have here := step.leaf vaPg below
    rw [if_pos rfl, setLeaf, if_pos rfl] at here
    exact here
  | false =>
    apply wp_seq (kfree_intact (intact.step low kept.owned step) low kept₁.owned)
    rintro _ m₂ ⟨intact₂, core⟩
    exact ⟨intact₂, (congrArg Core.rest core).trans step.rest, fun failed => absurd failed Bool.false_ne_true⟩

end Installing

def FreeUnsaved (metas : List PageMeta) : Prop := ∀ e ∈ metas, e.va = 0 → e.inSwap = false

theorem Books.Filed.free {m : Machine} (filed : m.books.Filed watch) : FreeUnsaved m.proc.pgmeta :=
  fun e member key => filed.zero e.entry (List.mem_map_of_mem member) key

theorem Proc.slotOf_alloc {p p' : Proc} (free : FreeUnsaved p.pgmeta) {vaPg : Nat}
    (metas : p'.pgmeta = (pgmetaAlloc p.pgmeta vaPg).1) (page : Nat) : p'.slotOf page = p.slotOf page := by
  unfold pgmetaAlloc at metas
  cases found : pgmetaFind p.pgmeta vaPg with
  | some i =>
    rw [found] at metas
    exact Proc.slotOf_congr (congrArg _ metas) page
  | none =>
    rw [found] at metas
    cases empty : pgmetaFind p.pgmeta 0 with
    | none =>
      rw [empty] at metas
      exact Proc.slotOf_congr (congrArg _ metas) page
    | some i =>
      rw [empty] at metas
      refine Proc.slotOf_set metas (ite_self none) fun e here => ?_
      obtain ⟨inside, key, _⟩ := List.findIdx?_eq_some_iff_getElem.mp empty
      rw [List.getElem?_eq_getElem inside, Option.some.injEq] at here
      rw [here] at key
      have unsaved := free e (here ▸ List.getElem_mem inside) (of_decide_eq_true key)
      unfold PageMeta.slotFor
      split_ifs
      · exact if_neg (by rw [PageMeta.entry, unsaved]; exact Bool.false_ne_true)
      · rfl

theorem recordResident_intact (midx : Option Nat) (perm : Flags) (intact : Intact want watch m) (low : Low watch) :
    wp (recordResident midx perm) (fun _ m' => Intact want watch m') (fun _ => True) m := by
  unfold recordResident
  cases midx with
  | none => exact intact.of_entries low rfl rfl rfl rfl fun _ _ _ => rfl
  | some i =>
    refine intact.of_entries low rfl rfl rfl rfl fun va _ _ => ?_
    exact Proc.slotOf_modify (i := i) (f := fun e => { e with
      resident := true, perm := perm, dirty := false, referenced := true, seq := m.proc.pageSeqCtr }) rfl
      fun _ _ => rfl

theorem recordLoaded_intact (vaPg : Nat) (midx : Option Nat) (perm : Flags) (intact : Intact want watch m)
    (low : Low watch) (free : FreeUnsaved m.proc.pgmeta) :
    wp (recordLoaded vaPg midx perm) (fun _ m' => Intact want watch m') (fun _ => True) m := by
  unfold recordLoaded
  cases midx with
  | some i => exact recordResident_intact (some i) perm intact low
  | none =>
    rw [wp_bind, wp_read, wp_bind, wp_modifyProc]
    apply recordResident_intact _ perm _ low
    exact intact.of_entries low rfl rfl rfl rfl fun va _ _ => Proc.slotOf_alloc free rfl _

section Faults

variable {vaPg pa : Nat} {seg : Seg} {ip : Inode}

theorem readi_whole {ip : Inode} {off n : Nat} (some_ : 0 < n) (read : (readi ip off n).1 = n) (k : Nat) :
    (readi ip off n).2 k = ip.data (off + k) := by
  unfold readi at *
  split_ifs at * <;> simp_all

-- The part of the segment that the file has can be counted in 32 bits.
def Seg.Short (s : Seg) : Prop := s.off + s.filesz < 2 ^ 32

theorem readSegment_bytes {pageOff : Nat} (short : seg.Short) (zeroed : m.mem pa = fun _ => 0) :
    wp (readSegment seg ip pa pageOff) (fun ok m' => ok = true → ∀ k < 4096, m'.mem pa k =
      if pageOff + k < seg.filesz then ip.data (seg.off + (pageOff + k)) else 0) (fun _ => True) m := by
  unfold Seg.Short at short
  unfold readSegment
  split_ifs with inFile
  · have bytes : seg.fileBytes pageOff = min (seg.filesz - pageOff) 4096 := by
      unfold Seg.fileBytes
      rw [if_pos inFile]
      unfold u32
      omega
    have offset : u32 (seg.fileOff pageOff) = seg.off + pageOff := by
      unfold Seg.fileOff u32 u64
      omega
    unfold readInto
    rw [wp_bind, wp_bind, wp_update, wp_pure, wp_pure, bytes, offset]
    intro whole k below
    rw [beq_iff_eq] at whole
    simp only [Machine.fill, Function.update_self, zeroed, whole]
    rw [readi_whole (by omega) whole]
    by_cases more : pageOff + k < seg.filesz
    · rw [if_pos more, if_pos (by omega), Nat.add_assoc]
    · rw [if_neg more, if_neg (by omega)]
  · intro _ k _
    rw [if_neg (by omega)]
    exact congrFun zeroed k

theorem readInto_intact (intact : Intact want watch m) (low : Low watch)
    (owned : Owned b (holding (some pa) held) m) (off n : Nat) :
    wp (readInto ip pa off n) (fun _ m' => Intact want watch m' ∧ m'.core = m.core) (fun _ => True) m := by
  unfold readInto
  rw [wp_bind, wp_update]
  exact ⟨intact.fill low owned _, rfl⟩

theorem readSegment_intact (intact : Intact want watch m) (low : Low watch)
    (owned : Owned b (holding (some pa) held) m) (pageOff : Nat) :
    wp (readSegment seg ip pa pageOff) (fun _ m' => Intact want watch m' ∧ m'.core = m.core)
      (fun _ => True) m := by
  unfold readSegment
  split_ifs
  · exact wp_seq (readInto_intact intact low owned _ _) fun _ _ result => result
  · exact ⟨intact, rfl⟩

-- What the page at `vaPg` holds while it is neither mapped nor in swap.
def Machine.Backs (want : Nat → UInt8) (watch : Nat → Prop) (vaPg : Nat) (m : Machine) : Prop :=
  ∀ va, va / 4096 = vaPg / 4096 → watch (pgrounddown va) → m.proc.backing va = want va

theorem Intact.backs (intact : Intact want watch m) (absent : m.proc.pagetable.leaf vaPg = none)
    (aligned : vaPg % 4096 = 0) (unsaved : watch vaPg → m.books.Unsaved vaPg) : m.Backs want watch vaPg := by
  intro va page watched
  have rounded : pgrounddown va = vaPg := by
    unfold pgrounddown
    omega
  rw [← intact.content va watched]
  unfold Machine.content
  rw [PageTable.leaf_page _ page, absent]
  have noSlot : m.proc.slotOf (pgrounddown va) = none := by
    rw [rounded]
    exact Proc.slotOf_none fun e member key =>
      unsaved (rounded ▸ watched) e.entry (List.mem_map_of_mem member) key
  simp only
  unfold Proc.stored
  rw [noSlot]

theorem Machine.Backs.of_program (backs : m.Backs want watch vaPg) (program : m'.proc.program = m.proc.program) :
    m'.Backs want watch vaPg := by
  intro va page watched
  rw [Proc.backing_congr program]
  exact backs va page watched

theorem loadPage_intact (midx : Option Nat) (acc : Access) (aligned : vaPg % 4096 = 0)
    (region : m.proc.segOf vaPg = some seg) (file : m.proc.execip = some ip)
    (short : watch vaPg → seg.Short) (backs : m.Backs want watch vaPg) (kept : Kept b held m₀ m)
    (filed : m.books.Filed watch) (intact : Intact want watch m) :
    wp (loadPage b .own vaPg seg ip midx acc) (fun _ m' => Intact want watch m') (fun _ => True) m := by
  have low := filed.low
  have start : seg.va ≤ vaPg := (of_decide_eq_true (Proc.segOf_covers region).2).1
  unfold loadPage
  apply wp_seq_and (kallocOrEvict_intact kept filed intact) (wp_and (kallocOrEvict_kept kept)
    (kallocOrEvict_books (b := b)))
  rintro r m₁ ⟨intact₁, program₁⟩ ⟨kept₁, obtained⟩
  have filed₁ := filed.obtain_ obtained
  cases r with
  | none => exact intact₁
  | some pa =>
    simp only
    rw [wp_bind, wp_memset]
    have kept₂ : Kept b (holding (some pa) held) m₀ (m₁.fill pa fun _ => 0) := fill_kept (fun _ _ => 0) kept₁
    have intact₂ := intact₁.fill low kept₁.owned fun _ => 0
    have bytes : wp (readSegment seg ip pa (vaPg - seg.va)) (fun ok m' => watch vaPg → ok = true →
        ∀ k < 4096, m'.mem pa k = if vaPg - seg.va + k < seg.filesz then
          ip.data (seg.off + (vaPg - seg.va + k)) else 0) (fun _ => True) (m₁.fill pa fun _ => 0) := by
      by_cases watched : watch vaPg
      · exact wp_mono (readSegment_bytes (short watched) (Function.update_self ..))
          (fun _ _ read _ => read) fun _ panics => panics
      · exact wp_mono wp_trivial (fun _ _ _ here => absurd here watched) fun _ panics => panics
    apply wp_seq_and (readSegment_intact intact₂ low kept₂.owned (vaPg - seg.va))
      (wp_and bytes (readSegment_kept seg ip pa (vaPg - seg.va) kept₂))
    rintro ok m₃ ⟨intact₃, core⟩ ⟨read, kept₃, _⟩
    have failed := giveUp_intact intact₃ low kept₃.owned
    cases ok with
    | false => exact failed
    | true =>
      rw [if_pos rfl]
      split_ifs
      · exact failed
      · have program₃ : m₃.proc.program = m.proc.program :=
          (congrArg (fun c : Core => c.proc.program) core).trans program₁
        have metas : m₃.proc.pgmeta = m₁.proc.pgmeta := congrArg (fun c : Core => c.proc.pgmeta) core
        unfold installPage
        apply wp_seq (mapOrFree_intact intact₃ low kept₃ fun va page watched => ?_)
        · rintro ok m₄ ⟨intact₄, rest, _⟩
          cases ok with
          | false => exact intact₄
          | true =>
            have same : m₄.proc.pgmeta = m₃.proc.pgmeta := congrArg (fun c : Core => c.proc.pgmeta) rest
            refine wp_seq (recordLoaded_intact vaPg midx seg.flags intact₄ low ?_) fun _ _ intact => intact
            rw [same, metas]
            exact filed₁.free
        have rounded : pgrounddown va = vaPg := by
          unfold pgrounddown
          omega
        have backing := backs va page watched
        refine ⟨?_, fun _ => ((backs.of_program program₃) va page watched)⟩
        rw [read (rounded ▸ watched) rfl _ (Nat.mod_lt _ (by decide)), ← backing]
        unfold Proc.backing
        rw [rounded, region, file]
        unfold Seg.byteAt
        rw [show vaPg - seg.va + va % 4096 = va - seg.va by unfold pgrounddown at rounded; omega]

theorem swapIn_intact {midx : Nat} (aligned : vaPg % 4096 = 0) (region : m.proc.segOf vaPg = some seg)
    (absent : m.proc.pagetable.leaf vaPg = none) (below : vaPg < maxva)
    (found : pgmetaFind m.proc.pgmeta vaPg = some midx) (inSwap : (metaAt m.proc.pgmeta midx).inSwap = true)
    (kept : Kept b held m₀ m) (filed : m.books.Filed watch) (intact : Intact want watch m) :
    wp (swapIn b .own vaPg seg midx) (fun _ m' => Intact want watch m') (fun _ => True) m := by
  have low := filed.low
  unfold swapIn
  apply wp_seq_and (kallocOrEvict_intact kept filed intact) (wp_and (kallocOrEvict_kept kept)
    (kallocOrEvict_books (b := b)))
  rintro r m₁ ⟨intact₁, program₁⟩ ⟨kept₁, obtained⟩
  have filed₁ := filed.obtain_ obtained
  cases r with
  | none => exact intact₁
  | some pa =>
    have unmapped : m.books.pte (vaPg / 4096) = none := by
      refine (PageTable.ptes_leaf _ below).trans ?_
      rw [absent]
      rfl
    have absent₁ : m₁.proc.pagetable.leaf vaPg = none := by
      have gone := (PageTable.ptes_leaf m₁.proc.pagetable below).symm.trans (obtained.unmapped unmapped)
      simpa using gone
    have found₁ : pgmetaFind m₁.proc.pgmeta vaPg = some midx := by
      rw [← find_books, obtained.find, find_books, found]
    have inSwap₁ : (metaAt m₁.proc.pgmeta midx).inSwap = true := by
      have before : (m.books.entryAt midx).inSwap = true := by
        rw [entryAt_books]
        exact inSwap
      have after := Books.SlotsApart.inSwap_obtained obtained before
      rwa [entryAt_books] at after
    obtain ⟨e, here, key⟩ : ∃ e, m₁.proc.pgmeta[midx]? = some e ∧ e.va = vaPg := by
      obtain ⟨inside, key, _⟩ := List.findIdx?_eq_some_iff_getElem.mp found₁
      exact ⟨_, List.getElem?_eq_getElem inside, of_decide_eq_true key⟩
    have entry : metaAt m₁.proc.pgmeta midx = e := by
      unfold metaAt
      rw [List.getD_eq_getElem?_getD, here]
      rfl
    have member := List.mem_iff_getElem?.mpr ⟨midx, here⟩
    rw [entry] at inSwap₁
    have slot : e.slot < swapSlots := (filed₁.apart.used midx e.slot (Machine.held_slot here inSwap₁)).1
    have exact_ : u32 (e.slot * 4096) = e.slot * 4096 := by
      unfold u32
      unfold swapSlots at slot
      omega
    simp only
    rw [wp_bind, wp_read, entry]
    cases file : m₁.proc.swapip with
    | none => trivial
    | some ip =>
      have read : wp (readInto ip pa (e.slot * 4096) 4096) (fun got m' => got = 4096 →
          ∀ k < 4096, m'.mem pa k = ip.data (e.slot * 4096 + k)) (fun _ => True) m₁ := by
        unfold readInto
        rw [wp_bind, wp_update, wp_pure, exact_]
        intro whole k short
        simp only [Machine.fill, Function.update_self, whole]
        rw [if_pos short, readi_whole (by decide) whole]
      apply wp_seq_and (readInto_intact intact₁ low kept₁.owned _ _)
        (wp_and read (readInto_kept ip pa (e.slot * 4096) 4096 kept₁))
      rintro got m₂ ⟨intact₂, core⟩ ⟨bytes, kept₂, _⟩
      split_ifs with whole
      · exact giveUp_intact intact₂ low kept₂.owned
      · have whole : got = 4096 := not_not.mp whole
        apply wp_seq (mapOrFree_intact intact₂ low kept₂ fun va page watched => ?_)
        · rintro ok m₃ ⟨intact₃, rest, mapped⟩
          cases ok with
          | false => exact intact₃
          | true =>
            have metas : m₃.proc.pgmeta = m₁.proc.pgmeta := (congrArg (fun c : Core => c.proc.pgmeta) rest).trans
              (congrArg (fun c : Core => c.proc.pgmeta) core)
            rw [if_pos rfl, wp_bind, modifyMeta, wp_modifyProc, wp_bind, wp_modifyProc, wp_pure]
            refine intact₃.of_entries low rfl rfl rfl rfl fun va _ elsewhere => ?_
            refine Proc.slotOf_modify (i := midx) (f := fun e => { e with
              resident := true, inSwap := false, slot := 0xffff, seq := m₁.proc.pageSeqCtr,
              referenced := true }) rfl fun e' there => ?_
            rw [metas] at there
            obtain rfl := Option.some.inj (here.symm.trans there)
            have other : e.va ≠ pgrounddown va := by
              intro same
              have page : va / 4096 = vaPg / 4096 := by
                unfold pgrounddown at same
                omega
              rw [PageTable.leaf_page _ page, mapped rfl] at elsewhere
              contradiction
            exact (if_neg other).trans (if_neg other).symm
        have rounded : pgrounddown va = vaPg := by
          unfold pgrounddown
          omega
        constructor
        · rw [bytes whole _ (Nat.mod_lt _ (by decide)), ← intact₁.content va watched]
          unfold Machine.content
          rw [PageTable.leaf_page _ page, absent₁]
          simp only
          unfold Proc.stored Proc.slotByte
          rw [rounded, Proc.slotOf_find found₁ (entry.symm ▸ inSwap₁), entry]
          simp only
          rw [file]
        · intro readOnly
          have region₁ : m₁.books.image.segOf e.va = some seg := by
            rw [obtained.image, key]
            exact region
          have watched' : watch e.va := by
            rw [key, ← rounded]
            exact watched
          have writable := (filed₁.watched e.va watched').2.2 seg region₁
          have perm : e.swapPerm seg = seg.flags := by
            unfold PageMeta.swapPerm
            split_ifs with none_
            · rfl
            · exact (filed₁.perms e.entry (List.mem_map_of_mem member) watched' seg region₁).resolve_left none_
          rw [perm] at readOnly
          exact absurd (readOnly.symm.trans writable) Bool.false_ne_true

theorem zeroPage_intact (aligned : vaPg % 4096 = 0) (absent : m.proc.pagetable.leaf vaPg = none)
    (below : vaPg < trapframeVa) (region : m.proc.segOf vaPg = none)
    (keeps : watch vaPg → m.books.Unsaved vaPg) (kept : Kept b held m₀ m) (filed : m.books.Filed watch)
    (intact : Intact want watch m) :
    wp (zeroPage b .own vaPg) (fun _ m' => Intact want watch m') (fun _ => True) m := by
  have low := filed.low
  have backs := intact.backs absent aligned keeps
  unfold zeroPage
  rw [wp_bind, wp_read, wp_bind, wp_modifyProc]
  have intact₁ : Intact want watch (m.setMeta (pgmetaAlloc m.proc.pgmeta vaPg).1) :=
    intact.of_entries low rfl rfl rfl rfl fun va _ _ => Proc.slotOf_alloc filed.free rfl _
  have filed₁ : (m.setMeta (pgmetaAlloc m.proc.pgmeta vaPg).1).books.Filed watch := by
    rw [m.books_alloc vaPg]
    exact filed.noted aligned
  have kept₁ : Kept b held m₀ (m.setMeta (pgmetaAlloc m.proc.pgmeta vaPg).1) :=
    recordMeta_kept (below.trans (by decide)) aligned kept _ kept.tracked
  apply wp_seq_and (kallocOrEvict_intact kept₁ filed₁ intact₁) (kallocOrEvict_kept kept₁)
  rintro r m₂ ⟨intact₂, program₂⟩ kept₂
  cases r with
  | none => exact intact₂
  | some pa =>
    simp only
    rw [wp_bind, wp_memset]
    have kept₃ : Kept b (holding (some pa) held) m₀ (m₂.fill pa fun _ => 0) := fill_kept (fun _ _ => 0) kept₂
    have intact₃ := intact₂.fill low kept₂.owned fun _ => 0
    have program₃ : (m₂.fill pa fun _ => 0).proc.program = m.proc.program := program₂
    have zero (va : Nat) (page : va / 4096 = vaPg / 4096) : m.proc.backing va = 0 := by
      have rounded : pgrounddown va = vaPg := by
        unfold pgrounddown
        omega
      unfold Proc.backing
      rw [rounded, region]
    apply wp_seq (mapOrFree_intact intact₃ low kept₃ fun va page watched => ?_)
    · rintro ok m₄ ⟨intact₄, _, _⟩
      cases ok with
      | false => exact intact₄
      | true => exact wp_seq (recordResident_intact _ _ intact₄ low) fun _ _ intact => intact
    · refine ⟨?_, fun _ => (backs.of_program program₃) va page watched⟩
      rw [← backs va page watched, zero va page]
      have filled : (m₂.fill pa fun _ => 0).mem pa = fun _ => 0 := Function.update_self ..
      rw [filled]

theorem Intact.regranted {leaf : Leaf} {flags : Flags} (intact : Intact want watch m) (low : Low watch)
    (below : vaPg < maxva) (here : m.proc.pagetable.leaf vaPg = some leaf)
    (wider : leaf.flags.w = true → flags.w = true) :
    Intact want watch (m.setTable .own (m.proc.pagetable.store vaPg (.leaf ⟨leaf.pa, flags⟩))) := by
  have reached : (m.proc.pagetable.walk vaPg).isSome = true := by
    rw [PageTable.walk, Radix.find_of_value here]
    rfl
  have leaves (va : Nat) (watched : watch (pgrounddown va)) :
      (m.proc.pagetable.store vaPg (.leaf ⟨leaf.pa, flags⟩)).leaf va =
        if va / 4096 = vaPg / 4096 then some ⟨leaf.pa, flags⟩ else m.proc.pagetable.leaf va :=
    PageTable.leaf_store m.proc.pagetable (.leaf ⟨leaf.pa, flags⟩) below
      ((low.below watched).trans (by decide)) reached
  constructor
  · intro va watched
    rw [← intact.content va watched]
    by_cases page : va / 4096 = vaPg / 4096
    · have image : (m.setTable .own (m.proc.pagetable.store vaPg (.leaf ⟨leaf.pa, flags⟩))).proc.pagetable.leaf va =
          some ⟨leaf.pa, flags⟩ := (leaves va watched).trans (if_pos page)
      rw [Machine.content_mapped image, Machine.content_mapped ((PageTable.leaf_page _ page).trans here)]
      rfl
    · unfold Machine.content
      rw [show (m.setTable .own (m.proc.pagetable.store vaPg (.leaf ⟨leaf.pa, flags⟩))).proc.pagetable.leaf va =
        m.proc.pagetable.leaf va from (leaves va watched).trans (if_neg page)]
      rfl
  · intro va watched leaf' there readOnly
    change (m.proc.pagetable.store vaPg (.leaf ⟨leaf.pa, flags⟩)).leaf va = some leaf' at there
    rw [leaves va watched] at there
    split_ifs at there with page
    · obtain rfl := Option.some.inj there
      refine intact.clean va watched leaf ((PageTable.leaf_page _ page).trans here) ?_
      by_contra writable
      rw [wider (Bool.not_eq_false _ ▸ writable)] at readOnly
      contradiction
    · exact intact.clean va watched leaf' there readOnly

theorem upgrade_intact {leaf : Leaf} (acc : Access) (below : vaPg < maxva)
    (here : m.proc.pagetable.leaf vaPg = some leaf) (filed : m.books.Filed watch)
    (intact : Intact want watch m) :
    wp (upgrade .own vaPg leaf acc) (fun _ m' => Intact want watch m') (fun _ => True) m := by
  have low := filed.low
  unfold upgrade
  rw [wp_bind, wp_read]
  cases acc with
  | read => exact intact
  | exec =>
    simp only
    split_ifs
    · rw [wp_bind, wp_setPte]
      exact intact.regranted low below here fun writable => writable
    · exact intact
  | write =>
    simp only
    split_ifs
    · have wider : Intact want watch (m.setTable .own (m.proc.pagetable.store vaPg
          (.leaf ⟨leaf.pa, { leaf.flags with w := true }⟩))) :=
        intact.regranted low below here fun _ => rfl
      rw [wp_bind, wp_setPte, wp_bind, wp_modifyProc]
      have noted : Intact want watch (Machine.setMeta (m.setTable .own (m.proc.pagetable.store vaPg
          (.leaf ⟨leaf.pa, { leaf.flags with w := true }⟩))) (pgmetaAlloc m.proc.pgmeta vaPg).1) :=
        wider.of_entries low rfl rfl rfl rfl fun va _ _ =>
          Proc.slotOf_alloc (p := m.proc) filed.free rfl _
      cases (pgmetaAlloc m.proc.pgmeta vaPg).2 with
      | none => exact noted
      | some i =>
        simp only
        rw [wp_bind, modifyMeta, wp_modifyProc, wp_pure]
        refine noted.of_entries low rfl rfl rfl rfl fun va _ _ => ?_
        exact Proc.slotOf_modify (i := i) (f := fun e => { e with dirty := true, referenced := true }) rfl
          fun _ _ => rfl
    · exact intact

theorem vmfault_intact (va : Nat) (acc : Access) (framed : m.proc.pagetable.Framed)
    (short : ∀ vaPg, watch vaPg → ∀ seg, m.proc.segOf vaPg = some seg → seg.Short)
    (keeps : watch (pgrounddown va) → m.proc.pagetable.leaf (pgrounddown va) = none →
      m.proc.segOf (pgrounddown va) = none → m.books.Unsaved (pgrounddown va))
    (kept : Kept b held m₀ m) (filed : m.books.Filed watch) (intact : Intact want watch m) :
    wp (vmfault b .own va acc) (fun _ m' => Intact want watch m') (fun _ => True) m := by
  unfold vmfault
  split_ifs with high
  · exact intact
  · have aligned : pgrounddown va % 4096 = 0 := Nat.mul_mod_left _ _
    have below : pgrounddown va < maxva := by
      unfold pgrounddown
      omega
    rw [wp_bind, wp_read, wp_bind, wp_read]
    cases mapped : (m.table .own).leaf (pgrounddown va) with
    | some leaf => exact upgrade_intact acc below mapped filed intact
    | none =>
      have absent : m.proc.pagetable.leaf (pgrounddown va) = none := mapped
      cases region : m.proc.segOf (pgrounddown va) with
      | some seg =>
        cases file : m.proc.execip with
        | none => exact intact
        | some execip =>
          have loads {midx : Option Nat}
              (notInSwap : ∀ i, m.books.find (pgrounddown va) = some i → (m.books.entryAt i).inSwap = false) :
              wp (loadPage b .own (pgrounddown va) seg execip midx acc) (fun _ m' => Intact want watch m')
                (fun _ => True) m :=
            loadPage_intact midx acc aligned region file (fun watched => short _ watched seg region)
              (intact.backs absent aligned fun _ => filed.unsaved notInSwap) kept filed intact
          cases found : pgmetaFind m.proc.pgmeta (pgrounddown va) with
          | none =>
            refine loads fun i here => ?_
            rw [find_books, found] at here
            contradiction
          | some midx =>
            simp only
            split_ifs with inSwap
            · exact swapIn_intact aligned region absent below found inSwap kept filed intact
            · refine loads fun i here => ?_
              rw [find_books, found] at here
              obtain rfl := Option.some.inj here
              rw [entryAt_books]
              exact Bool.eq_false_iff.mpr inSwap
      | none =>
        simp only
        split_ifs
        · exact zeroPage_intact aligned absent (framed.below below absent) region
            (fun watched => keeps watched absent region) kept filed intact
        · exact intact

end Faults

end SystemsSuite.Paging
