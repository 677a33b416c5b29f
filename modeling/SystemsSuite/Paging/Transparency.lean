import SystemsSuite.Paging.Intact
import SystemsSuite.Paging.FrameOwnership
import SystemsSuite.Paging.SwapNames

set_option autoImplicit false

namespace SystemsSuite.Paging

open Lib Prog

-- What happens to the memory of a process: its own stores, the events of its life, and what the process
-- `pid` does to its swap file, truncating it or writing a page.
inductive Use
  | store (va : Nat) (byte : UInt8)
  | event (e : Event)
  | swapFile (pid : Nat) (touch : Inode → Inode)

-- `self` is the pid of the process. Processes with one directory entry have one swap file.
def Use.next (b : Build) (self : Nat) (m : Machine) : Use → Option Machine
  | .store va byte => m.store va byte
  | .event e => m.after b e
  | .swapFile pid touch =>
    if namecmp (swapEntry pid) (swapEntry self) = 0 then
      some { m with proc := { m.proc with swapip := m.proc.swapip.map touch } }
    else some m

def Use.plain (u : Use) (memory : Nat → UInt8) : Nat → UInt8 :=
  match u with
  | .store va byte => Function.update memory va byte
  | .event _ | .swapFile _ _ => memory

namespace Machine

-- What the others do leaves the frames of the process alone.
def Undisturbed (b : Build) (m : Machine) (freelist : List Nat) (mem : Nat → Page) : Prop :=
  Owned b (fun _ => 0) { m with freelist := freelist, mem := mem } ∧
    ∀ va < trapframeVa, ∀ leaf, m.proc.pagetable.leaf va = some leaf → mem leaf.pa = m.mem leaf.pa

-- A fault at `va` would fill a page of zeros that is still in a slot.
def forgets (m : Machine) (va : Nat) : Bool :=
  decide (m.proc.pagetable.leaf (pgrounddown va) = none ∧ m.proc.segOf (pgrounddown va) = none) &&
    m.proc.pgmeta.any fun e => decide (e.va = pgrounddown va) && e.inSwap

-- The process runs on with the image it has: it does not `fork` or `exec`, it grows lazily, the others leave its
-- frames alone and have swap files of other names, and no fault fills a page with zeros that is in a slot.
def Continues (b : Build) (self : Nat) (m : Machine) : Use → Prop
  | .store _ _ => True
  | .swapFile pid _ => namecmp (swapEntry pid) (swapEntry self) ≠ 0
  | .event (.other freelist mem _) => m.Undisturbed b freelist mem
  | .event (.setSp _) => True
  | .event (.fault va _) => m.forgets va = false
  | .event .evict => True
  | .event (.sbrk n t) => u32 t ≠ sbrkEager ∧ ¬ isNegative n
  | .event (.fork _ _) => False
  | .event (.exec _ _ _) => False

end Machine

variable {b : Build} {self : Nat} {held : Nat → Nat} {want : Nat → UInt8} {watch : Nat → Prop} {m m' : Machine}

namespace Books

variable {v v' : Books}

-- The pages from the trapframe on are not for the user.
def Hidden (v : Books) : Prop :=
  ∀ vpn, trapframeVa / 4096 ≤ vpn → ∀ flags, v.pte vpn = some flags → flags.u = false

theorem Hidden.removes (hidden : v.Hidden)
    (removes : ∀ vpn flags, v'.pte vpn = some flags → v.pte vpn = some flags) : v'.Hidden :=
  fun vpn high flags here => hidden vpn high flags (removes vpn flags here)

theorem Hidden.fault {vaPg : Nat} {acc : Access} {ok : Bool} (hidden : v.Hidden)
    (low : vaPg < maxva → v.pte (vaPg / 4096) = none → vaPg < trapframeVa)
    (faulted : Faulted vaPg acc v ok v') : v'.Hidden := by
  have other (below : vaPg < trapframeVa) : v'.Hidden := by
    intro vpn high flags here
    refine hidden vpn high flags (faulted.elsewhere ?_ here)
    unfold trapframeVa trampolineVa maxva at *
    omega
  cases faulted with
  | refused => exact hidden
  | widened old here =>
    intro vpn high flags there
    rw [noted_pte] at there
    change Function.update v.pte (vaPg / 4096) _ vpn = some flags at there
    by_cases page : vpn = vaPg / 4096
    · rw [page, Function.update_self] at there
      obtain rfl := Option.some.inj there
      exact hidden vpn high old (page ▸ here)
    · rw [Function.update_of_ne page] at there
      exact hidden vpn high flags there
  | madeExec old _ here =>
    intro vpn high flags there
    change Function.update v.pte (vaPg / 4096) _ vpn = some flags at there
    by_cases page : vpn = vaPg / 4096
    · rw [page, Function.update_self] at there
      obtain rfl := Option.some.inj there
      exact hidden vpn high old (page ▸ here)
    · rw [Function.update_of_ne page] at there
      exact hidden vpn high flags there
  | starved _ _ obtained => exact hidden.removes fun _ _ here => obtained.removes here
  | zeroStarved _ absent _ _ below => exact other (low below absent)
  | swappedIn _ _ _ absent _ _ _ _ below => exact other (low below absent)
  | loaded _ _ absent _ _ _ below => exact other (low below absent)
  | zeroed _ absent _ _ _ below => exact other (low below absent)

theorem Fresh.hidden (fresh : v.Fresh) : v.Hidden := by
  intro vpn high flags here
  have size := fresh.size
  have below := fresh.below
  rw [fresh.pte] at here
  unfold stackPtes at here
  have pages : vpn ≠ v.image.heapBrk / 4096 + 1 ∧ vpn ≠ v.image.heapBrk / 4096 := by
    unfold trapframeVa trampolineVa maxva at *
    omega
  rw [Function.update_of_ne pages.1, Function.update_of_ne pages.2] at here
  rcases framePtes_eq here with rfl | rfl <;> rfl

theorem Filed.congr (filed : v.Filed watch) (entries : v'.entries = v.entries) (bitmap : v'.bitmap = v.bitmap)
    (pte : v'.pte = v.pte) (segOf : v'.image.segOf = v.image.segOf) : v'.Filed watch := by
  have apart : v'.SlotsApart := by
    have same := filed.apart
    unfold SlotsApart at same ⊢
    rwa [entries, bitmap]
  refine ⟨filed.keyed.congr (congrArg _ entries), apart, ?_, ?_, ?_, ?_, ?_⟩
  · rw [entries]
    exact filed.zero
  · rw [segOf]
    exact filed.watched
  · rw [entries, pte]
    exact filed.settled
  · rw [entries, segOf]
    exact filed.perms
  · rw [pte, segOf]
    exact filed.pages

end Books

theorem segOf_program {p p' : Proc} (program : p'.program = p.program) : p'.segOf = p.segOf := by
  have segs : p'.activeSegs = p.activeSegs := congrArg Prod.snd program
  funext vaPg
  unfold Proc.segOf
  rw [segs]

-- What a run keeps: the bytes `want` of the watched pages, and all that the pager relies on.
structure Machine.Remembers (b : Build) (want : Nat → UInt8) (watch : Nat → Prop) (m : Machine) : Prop where
  owned : Owned b (fun _ => 0) m
  tracked : Tracked m.proc.pgmeta
  framed : m.proc.pagetable.Framed
  hidden : m.books.Hidden
  filed : m.books.Filed watch
  short : ∀ vaPg, watch vaPg → ∀ seg, m.proc.segOf vaPg = some seg → seg.Short
  intact : Intact want watch m

theorem sysSbrk_lazily {n t : Nat} (deferred : u32 t ≠ sbrkEager) (positive : ¬ isNegative n) :
    wp (sysSbrk b n t) (fun _ m' => ∃ sz heapBrk,
      m' = { m with proc := { m.proc with sz := sz, heapBrk := heapBrk } }) (fun _ => True) m := by
  have moved : wp (moveSize b n t) (fun _ m' => ∃ sz, m' = { m with proc := { m.proc with sz := sz } })
      (fun _ => True) m := by
    unfold moveSize
    rw [wp_bind, wp_read, if_neg (by simp [deferred, positive])]
    split_ifs
    · exact ⟨m.proc.sz, rfl⟩
    · rw [wp_bind, wp_modifyProc]
      exact ⟨_, rfl⟩
  unfold sysSbrk
  rw [wp_bind, wp_read]
  apply wp_seq moved
  rintro ok m₁ ⟨sz, rfl⟩
  cases ok with
  | false => exact ⟨sz, m.proc.heapBrk, rfl⟩
  | true =>
    rw [if_pos rfl, wp_bind, wp_modifyProc]
    split_ifs
    · exact ⟨sz, m.proc.heapBrk, rfl⟩
    · exact ⟨sz, _, rfl⟩

namespace Machine

theorem forgets_false {va : Nat} (remembered : m.forgets va = false)
    (absent : m.proc.pagetable.leaf (pgrounddown va) = none) (region : m.proc.segOf (pgrounddown va) = none) :
    m.books.Unsaved (pgrounddown va) := by
  unfold forgets at remembered
  rw [decide_eq_true ⟨absent, region⟩, Bool.true_and, List.any_eq_false] at remembered
  intro e member key
  obtain ⟨old, before, rfl⟩ := List.mem_map.mp member
  have none_ := remembered old before
  have key' : old.va = pgrounddown va := key
  rw [decide_eq_true key', Bool.true_and, Bool.not_eq_true] at none_
  exact none_

namespace Remembers

theorem kept (remembers : m.Remembers b want watch) : Kept b (fun _ => 0) m m :=
  ⟨remembers.owned, remembers.tracked, rfl, rfl, fun _ framed => framed⟩

theorem of_kept (remembers : m.Remembers b want watch) (kept : Kept b (fun _ => 0) m m')
    (hidden : m'.books.Hidden) (filed : m'.books.Filed watch) (intact : Intact want watch m') :
    m'.Remembers b want watch where
  owned := kept.owned
  tracked := kept.tracked
  framed := kept.framed .own remembers.framed
  hidden := hidden
  filed := filed
  short := by
    have image := congrArg Proc.program kept.image
    have program : m'.proc.program = m.proc.program := image
    rw [segOf_program program]
    exact remembers.short
  intact := intact

theorem of_proc {p : Proc} (remembers : m.Remembers b want watch) (pgmeta : p.pgmeta = m.proc.pgmeta)
    (table : p.pagetable = m.proc.pagetable) (trapframe : p.trapframe.pa = m.proc.trapframe.pa)
    (program : p.program = m.proc.program) (swapip : p.swapip = m.proc.swapip)
    (bitmap : p.swapBitmap = m.proc.swapBitmap) :
    Machine.Remembers b want watch { m with proc := p } where
  owned := by
    refine remembers.owned.mono (fun f => ?_) rfl
    unfold Machine.owners Proc.owners
    simp only
    rw [table, trapframe]
  tracked := by
    change Tracked p.pgmeta
    rw [pgmeta]
    exact remembers.tracked
  framed := by
    change p.pagetable.Framed
    rw [table]
    exact remembers.framed
  hidden := by
    refine remembers.hidden.removes fun vpn flags here => ?_
    change p.pagetable.ptes vpn = some flags at here
    rwa [table] at here
  filed := by
    refine remembers.filed.congr ?_ bitmap ?_ (segOf_program program)
    · exact congrArg (List.map PageMeta.entry) pgmeta
    · exact congrArg PageTable.ptes table
  short := by
    change ∀ vaPg, watch vaPg → ∀ seg, p.segOf vaPg = some seg → seg.Short
    rw [segOf_program program]
    exact remembers.short
  intact := by
    refine remembers.intact.of_entries remembers.filed.low rfl table program swapip fun va _ _ => ?_
    exact Proc.slotOf_congr (congrArg (List.map PageMeta.entry) pgmeta) _

theorem evict (remembers : m.Remembers b want watch) :
    wp (tryEvictOne b) (fun _ m' => m'.Remembers b want watch) (fun _ => True) m := by
  apply wp_mono (wp_and tryEvictOne_outcome_of (tryEvictOne_kept remembers.kept)) _ fun _ _ => trivial
  rintro ok m' ⟨evicted, kept⟩
  have books : m.books.Evict ok m'.books := evicted.books
  exact remembers.of_kept kept (remembers.hidden.removes fun _ _ here => books.removes here)
    (remembers.filed.obtain_ books.obtained)
    (evicted.keeps_content remembers.intact remembers.filed remembers.owned remembers.tracked)

theorem fault {va : Nat} {acc : Access} (remembers : m.Remembers b want watch)
    (remembered : m.forgets va = false) :
    wp (vmfault b .own va acc) (fun _ m' => m'.Remembers b want watch) (fun _ => True) m := by
  have keeps := forgets_false remembered
  apply wp_mono (wp_and (wp_and (vmfault_kept .own va acc remembers.framed remembers.kept)
    (vmfault_books va acc)) (vmfault_intact va acc remembers.framed remembers.short (fun _ => keeps)
    remembers.kept remembers.filed remembers.intact)) _ fun _ _ => trivial
  rintro r m' ⟨⟨kept, books⟩, intact⟩
  have leaf (below : pgrounddown va < maxva) (absent : m.books.pte (pgrounddown va / 4096) = none) :
      m.proc.pagetable.leaf (pgrounddown va) = none := by
    have here := (PageTable.ptes_leaf m.proc.pagetable below).symm.trans absent
    simpa using here
  refine remembers.of_kept kept ?_ ?_ intact
  · exact remembers.hidden.fault (fun below absent => remembers.framed.below below (leaf below absent)) books
  · refine remembers.filed.fault (Nat.mul_mod_left _ _) (fun watched absent region => ?_) books
    have below : pgrounddown va < maxva := (remembers.filed.low _ watched).trans (by decide)
    exact keeps (leaf below absent) region

theorem store {va : Nat} {byte : UInt8} (remembers : m.Remembers b want watch)
    (stored : m.store va byte = some m') : m'.Remembers b (Function.update want va byte) watch := by
  obtain ⟨pa, reached, rfl⟩ := Option.map_eq_some_iff.mp stored
  unfold translate at reached
  split_ifs at reached with high
  obtain ⟨leaf, allowed, rfl⟩ := Option.map_eq_some_iff.mp reached
  obtain ⟨here, user⟩ := Option.filter_eq_some_iff.mp allowed
  unfold Leaf.allows at user
  rw [Bool.and_eq_true] at user
  have below : va < trapframeVa := by
    by_contra above
    have flags : m.books.pte (va / 4096) = some leaf.flags := by
      refine (PageTable.ptes_leaf _ (by omega)).trans ?_
      rw [here]
      rfl
    have hidden := remembers.hidden (va / 4096)
      (by unfold trapframeVa trampolineVa maxva at *; omega) leaf.flags flags
    exact Bool.false_ne_true (hidden.symm.trans user.1)
  have low := remembers.filed.low
  refine ⟨remembers.owned.mono (fun _ => le_rfl) rfl, remembers.tracked, remembers.framed, remembers.hidden,
    remembers.filed, remembers.short, ?_, ?_⟩
  · intro va' watched
    have below' := low.below watched
    by_cases same : va' = va
    · subst same
      rw [content_mapped (show (m.storeByte leaf.pa (va' % 4096) byte).proc.pagetable.leaf va' = some leaf from here),
        Function.update_self]
      simp [storeByte, fill]
    · rw [Function.update_of_ne same, ← remembers.intact.content va' watched]
      cases there : m.proc.pagetable.leaf va' with
      | none =>
        rw [content_unmapped there]
        exact content_unmapped there
      | some leaf' =>
        rw [content_mapped there,
          content_mapped (show (m.storeByte leaf.pa (va % 4096) byte).proc.pagetable.leaf va' = some leaf' from there)]
        by_cases page : va' / 4096 = va / 4096
        · have frame : leaf' = leaf := by
            rw [PageTable.leaf_page _ page, here] at there
            exact (Option.some.inj there).symm
          have other : va' % 4096 ≠ va % 4096 := by omega
          subst frame
          unfold storeByte fill
          simp only
          rw [Function.update_self, Function.update_of_ne other]
        · have frame : leaf'.pa ≠ leaf.pa := remembers.owned.apart below below' page here there
          unfold storeByte fill
          simp only
          rw [Function.update_of_ne frame]
  · intro va' watched leaf' there readOnly
    by_cases page : va' / 4096 = va / 4096
    · have there' : m.proc.pagetable.leaf va' = some leaf' := there
      rw [PageTable.leaf_page _ page, here] at there'
      obtain rfl := Option.some.inj there'
      exact absurd (readOnly.symm.trans user.2) Bool.false_ne_true
    · have other : va' ≠ va := fun same => page (congrArg (· / 4096) same)
      rw [Function.update_of_ne other]
      exact remembers.intact.clean va' watched leaf' there readOnly

theorem others {freelist : List Nat} {mem : Nat → Page} {writeBlocks : List Nat}
    (remembers : m.Remembers b want watch) (undisturbed : m.Undisturbed b freelist mem) :
    Machine.Remembers b want watch { m with freelist := freelist, mem := mem, writeBlocks := writeBlocks } :=
  ⟨undisturbed.1.mono (fun _ => le_rfl) rfl, remembers.tracked, remembers.framed, remembers.hidden,
    remembers.filed, remembers.short,
    remembers.intact.of_frames remembers.filed.low rfl undisturbed.2⟩

theorem event {e : Event} (remembers : m.Remembers b want watch) (continues : m.Continues b self (.event e)) :
    wp (e.run b) (fun _ m' => m'.Remembers b want watch) (fun _ => True) m := by
  cases e with
  | other freelist mem writeBlocks => exact remembers.others continues
  | setSp sp => exact remembers.of_proc rfl rfl rfl rfl rfl rfl
  | fault va acc => exact wp_seq (remembers.fault continues) fun _ _ after => wp_pure _ |>.mpr after
  | evict => exact wp_seq remembers.evict fun _ _ after => wp_pure _ |>.mpr after
  | sbrk n t =>
    apply wp_seq (sysSbrk_lazily continues.1 continues.2)
    rintro _ _ ⟨sz, heapBrk, rfl⟩
    exact remembers.of_proc rfl rfl rfl rfl rfl rfl
  | fork created follow => exact continues.elim
  | exec file argv created => exact continues.elim

theorem next {u : Use} (remembers : m.Remembers b want watch) (continues : m.Continues b self u)
    (taken : u.next b self m = some m') : m'.Remembers b (u.plain want) watch := by
  cases u with
  | store va byte => exact remembers.store taken
  | swapFile pid touch =>
    obtain rfl : m = m' := Option.some.inj ((if_neg continues).symm.trans taken)
    exact remembers
  | event e =>
    exact wp_ok (Q := fun _ m' => m'.Remembers b want watch) (remembers.event continues) (after_ran taken)

end Remembers

end Machine

theorem Books.Fresh.filed {v : Books} (fresh : v.Fresh) {watch : Nat → Prop}
    (watched : ∀ vaPg, watch vaPg → vaPg % 4096 = 0 ∧ vaPg < trapframeVa ∧
      ∀ seg, v.image.segOf vaPg = some seg → seg.permW = true)
    (unmapped : ∀ vaPg, watch vaPg → ∀ seg, v.image.segOf vaPg = some seg → v.pte (vaPg / 4096) = none) :
    v.Filed watch := by
  have cleared {e : Entry} (member : e ∈ v.entries) : e = PageMeta.cleared.entry := by
    rw [fresh.entries] at member
    exact List.eq_of_mem_replicate member
  refine ⟨.cleared fresh.entries, .cleared fresh.noneInSwap fresh.bitmap, ?_, watched, ?_, ?_, ?_⟩
  · exact fun e member _ => fresh.noneInSwap e member
  · intro e member _ saved
    rw [fresh.noneInSwap e member] at saved
    contradiction
  · intro e member _ _ _
    rw [cleared member]
    exact .inl rfl
  · intro vaPg here flags seg mapped region
    rw [unmapped vaPg here seg region] at mapped
    contradiction

-- The pages that are mapped after a `kexec` can be written.
theorem Books.Fresh.writable {v : Books} (fresh : v.Fresh) {vpn : Nat} (low : vpn < trapframeVa / 4096)
    {flags : Flags} (here : v.pte vpn = some flags) : flags.w = true := by
  rw [fresh.pte] at here
  unfold stackPtes at here
  by_cases stack : vpn = v.image.heapBrk / 4096 + 1
  · rw [stack, Function.update_self] at here
    obtain rfl := Option.some.inj here
    rfl
  · rw [Function.update_of_ne stack] at here
    by_cases guard : vpn = v.image.heapBrk / 4096
    · rw [guard, Function.update_self] at here
      obtain rfl := Option.some.inj here
      rfl
    · rw [Function.update_of_ne guard, framePtes_below low] at here
      contradiction

theorem Path.remembers {m₀ : Machine} {uses : List Use}
    (path : Path (fun m u m' => m.Continues b self u ∧ u.next b self m = some m') m₀ uses m)
    (remembers : m₀.Remembers b want watch) :
    m.Remembers b (uses.foldl (fun memory u => u.plain memory) want) watch := by
  induction path generalizing want with
  | nil => exact remembers
  | cons m₀ mid m u rest taken _ ih => exact ih (remembers.next taken.1 taken.2)

end SystemsSuite.Paging
