import SystemsSuite.Paging.Growth
import SystemsSuite.Paging.OwnedExec

set_option autoImplicit false

namespace SystemsSuite.Paging

open Lib Prog

variable {b : Build} {m : Machine}

def trampolineFlags : Flags := ⟨true, false, true, false⟩
def trapframeFlags : Flags := ⟨true, true, false, false⟩
def guardFlags : Flags := ⟨true, true, false, false⟩

def framePtes : Nat → Option Flags :=
  Function.update (Function.update (fun _ => none) (trampolineVa / 4096) (some trampolineFlags))
    (trapframeVa / 4096) (some trapframeFlags)

-- With the guard page at `guard` and the stack page above it.
def stackPtes (guard : Nat) : Nat → Option Flags :=
  Function.update (Function.update framePtes (guard / 4096) (some guardFlags))
    (guard / 4096 + 1) (some growFlags)

namespace Books

def withSpare (v : Books) (spare : Nat → Option Flags) : Books := { v with spare := spare }

-- The books right after a successful `kexec`: its guard page is at `heapBrk`, above all segments unless rounding
-- the size up wrapped around.
structure Fresh (v : Books) : Prop where
  pte : v.pte = stackPtes v.image.heapBrk
  entries : v.entries = List.replicate pgmetaSize .cleared
  bitmap : v.bitmap = List.replicate 128 0#8
  swapPages : v.swapPages = 0
  aligned : v.image.heapBrk % 4096 = 0
  size : v.image.sz = v.image.heapBrk + 8192
  below : v.image.sz ≤ trapframeVa
  segments : ∃ top, v.image.heapBrk = pgroundup top ∧ ∀ seg ∈ v.image.activeSegs, seg.stop ≤ top

-- Evictions that make room for something else, here for the spare table.
inductive Evictions (v : Books) : Books → Prop
  | refl : Evictions v v
  | evict (v' v'' : Books) (ok : Bool) : Evictions v v' → v'.Evict ok v'' → Evictions v v''
  | spare (v' : Books) (ptes : Nat → Option Flags) : Evictions v v' → Evictions v (v'.withSpare ptes)

-- Before anything is copied to a child with this image.
def blank (image : Proc) : Books where
  pte := framePtes
  spare := fun _ => none
  entries := List.replicate pgmetaSize .cleared
  bitmap := List.replicate 128 0#8
  swapPages := 0
  image := image

-- The books of a child: pages of the parent `v` are copied one by one.
inductive Born (v : Books) (image : Proc) : Books → Prop
  | blank : Born v image (Books.blank image)
  | copied (w : Books) (i : Nat) (flags : Flags) : Born v image w → i % 4096 = 0 →
      v.pte (i / 4096) = some flags → w.pte (i / 4096) = none →
      Born v image (w.installed .own i flags)

-- What a failed `kexec` can leave different apart from the books: segments, the spare table.
structure Alike (v v' : Books) : Prop where
  pte : v'.pte = v.pte
  entries : v'.entries = v.entries
  bitmap : v'.bitmap = v.bitmap
  swapPages : v'.swapPages = v.swapPages
  size : v'.image.sz = v.image.sz

-- Where a new image has its guard page, if the headers of its file are good.
def stackAt (v : Books) (file : Option Inode) : Option Nat :=
  file.bind fun ip => (readElfhdr ip).bind fun elf =>
    let scan := elf.scan ip v.image.segs
    if scan.1 then some (pgroundup scan.2.sz) else none

-- What a failed `kexec` does.
inductive ExecFailed (file : Option Inode) (v v' : Books) : Prop
  | early : v.Alike v' → ExecFailed file v v'
  | late (guard stop : Nat) (ok : Bool) (w w' : Books) : v.stackAt file = some guard → v.Alike w →
      w.spare = framePtes → Grow .spare growFlags 2 guard w ok stop w' → w'.Alike v' → ExecFailed file v v'

theorem stackAt_aligned {v : Books} {file : Option Inode} {guard : Nat} (stack : v.stackAt file = some guard) :
    guard % 4096 = 0 := by
  obtain ⟨ip, _, rest⟩ := Option.bind_eq_some_iff.mp stack
  obtain ⟨elf, _, scanned⟩ := Option.bind_eq_some_iff.mp rest
  obtain ⟨_, top⟩ := Option.ite_none_right_eq_some.mp scanned
  rw [← Option.some.inj top]
  exact pgroundup_aligned _

theorem withSpare_self (v : Books) : v.withSpare v.spare = v := rfl

theorem Obtain.evictions {v v' : Books} {ok : Bool} (obtained : v.Obtain ok v') : v.Evictions v' := by
  cases obtained with
  | free => exact .refl
  | evicted _ _ evict => exact .evict v v' true .refl evict
  | failed _ evict => exact .evict v v' false .refl evict

theorem Evictions.trans {v v' v'' : Books} (first : v.Evictions v') (second : v'.Evictions v'') :
    v.Evictions v'' := by
  induction second with
  | refl => exact first
  | evict w w' ok _ evict ih => exact .evict w w' ok ih evict
  | spare w ptes _ ih => exact .spare w ptes ih

end Books

theorem empty_ptes {pa : Nat} : (PageTable.empty pa).ptes = fun _ => none := by
  funext vpn
  unfold PageTable.ptes PageTable.empty
  rw [Radix.value_empty]
  exact ite_self none

theorem uvmcreate_books :
    wp uvmcreate (fun ok m' => m'.books = if ok then m.books.withSpare fun _ => none else m.books)
      (fun _ => True) m := by
  unfold uvmcreate
  apply wp_seq kalloc_outcome
  intro r m₁ allocated
  have books₁ := Machine.books_of_core allocated.core
  cases r with
  | none => exact books₁
  | some pa =>
    change ({ m₁.books with spare := (PageTable.empty pa).ptes } : Books) = m.books.withSpare fun _ => none
    rw [books₁, empty_ptes]
    rfl

theorem uvmunmap_spare (va npages : Nat) (doFree : Bool) :
    wp (uvmunmap b .spare va npages doFree) (fun _ m' => ∃ ptes, m'.books = m.books.withSpare ptes)
      (fun _ => True) m := by
  unfold uvmunmap
  split_ifs with odd
  · trivial
  · exact wp_mono (unmapLoop_effect .spare doFree _ va (by omega))
      (fun _ _ unmapped => ⟨_, unmapped.books⟩) fun _ _ => trivial

theorem freeList_core (frames : List Nat) :
    wp (freeList b frames) (fun _ m' => m'.core = m.core) (fun _ => True) m := by
  induction frames generalizing m with
  | nil => exact rfl
  | cons pa rest ih =>
    apply wp_seq (kfree_core pa)
    intro _ m₁ core
    apply wp_mono ih _ fun _ panics => panics
    exact fun _ _ core₁ => core₁.trans core

theorem uvmfree_spare (sz : Nat) :
    wp (uvmfree b .spare sz) (fun _ m' => ∃ ptes, m'.books = m.books.withSpare ptes) (fun _ => True) m := by
  have freed {m₁ : Machine} {ptes₁ : Nat → Option Flags} (books₁ : m₁.books = m.books.withSpare ptes₁) :
      wp (freewalk b .spare) (fun _ m' => ∃ ptes, m'.books = m.books.withSpare ptes)
        (fun _ => True) m₁ := by
    unfold freewalk
    rw [wp_bind, wp_read, wp_bind, wp_update]
    apply wp_mono (freeList_core _) _ fun _ panics => panics
    intro _ m₂ core₂
    refine ⟨(PageTable.empty 0).ptes, (Machine.books_of_core core₂).trans ?_⟩
    change m₁.books.withSpare _ = _
    rw [books₁]
    rfl
  unfold uvmfree
  split_ifs
  · apply wp_seq (uvmunmap_spare 0 _ true)
    rintro _ m₁ ⟨ptes₁, books₁⟩
    exact freed books₁
  · exact freed m.books.withSpare_self.symm

theorem procFreepagetable_spare (sz : Nat) :
    wp (procFreepagetable b .spare sz) (fun _ m' => ∃ ptes, m'.books = m.books.withSpare ptes)
      (fun _ => True) m := by
  unfold procFreepagetable
  apply wp_seq (uvmunmap_spare trampolineVa 1 false)
  rintro _ m₁ ⟨ptes₁, books₁⟩
  apply wp_seq (uvmunmap_spare trapframeVa 1 false)
  rintro _ m₂ ⟨ptes₂, books₂⟩
  apply wp_mono (uvmfree_spare sz) _ fun _ panics => panics
  rintro _ m₃ ⟨ptes₃, books₃⟩
  refine ⟨ptes₃, ?_⟩
  rw [books₃, books₂, books₁]
  rfl

theorem procPagetable_books (trapframe : Nat) :
    wp (procPagetable b trapframe) (fun ok m' =>
      if ok then m'.books = m.books.withSpare framePtes else ∃ ptes, m'.books = m.books.withSpare ptes)
      (fun _ => True) m := by
  unfold procPagetable
  apply wp_seq uvmcreate_books
  intro created m₁ books₁
  cases created with
  | false => exact ⟨_, books₁⟩
  | true =>
    rw [if_pos rfl] at books₁
    have freed {m' : Machine} {ptes : Nat → Option Flags} (books : m'.books = m.books.withSpare ptes) :
        wp (do uvmfree b .spare 0; pure false) (fun ok m' =>
          if ok then m'.books = m.books.withSpare framePtes
          else ∃ ptes, m'.books = m.books.withSpare ptes) (fun _ => True) m' := by
      apply wp_seq (uvmfree_spare 0)
      rintro _ m'' ⟨ptes'', books''⟩
      rw [books] at books''
      exact ⟨ptes'', books''⟩
    simp only [if_true]
    apply wp_seq (mappages_books .spare trampolineVa b.trampoline _)
    rintro ok m₂ ⟨_, books₂⟩
    rw [books₁] at books₂
    cases ok with
    | false => exact freed books₂
    | true =>
      simp only [if_true] at books₂ ⊢
      apply wp_seq (mappages_books .spare trapframeVa trapframe _)
      rintro ok m₃ ⟨_, books₃⟩
      rw [books₂] at books₃
      cases ok with
      | true => exact books₃
      | false =>
        apply wp_seq (uvmunmap_spare trampolineVa 1 false)
        rintro _ m₄ ⟨ptes₄, books₄⟩
        rw [books₃] at books₄
        exact freed books₄

theorem copyoutLoop_nil (t : Target) (rounds dstva : Nat) :
    wp (copyoutLoop b t rounds dstva []) (fun _ m' => m'.core = m.core) (fun _ => True) m := by
  cases rounds <;> exact rfl

theorem copyoutLoop_inside (t : Target) {page dstva : Nat} {src : List UInt8} {flags : Flags}
    (rounds : Nat) (aligned : page % 4096 = 0) (below : page < maxva)
    (here : m.books.ptes t (page / 4096) = some flags) (user : flags.u = true) (writable : flags.w = true)
    (low : page ≤ dstva) (high : dstva + src.length ≤ page + 4096) :
    wp (copyoutLoop b t rounds dstva src) (fun _ m' => m'.core = m.core) (fun _ => True) m := by
  rw [Machine.ptes_books, PageTable.ptes_leaf _ below] at here
  obtain ⟨leaf, mapped, rfl⟩ := Option.map_eq_some_iff.mp here
  cases rounds with
  | zero => exact rfl
  | succ rounds =>
    rw [copyoutLoop]
    by_cases empty : src = []
    · rw [if_pos empty]
      exact rfl
    · have some_ := List.length_pos_of_ne_nil empty
      have rounded : pgrounddown dstva = page := by
        unfold pgrounddown
        omega
      have whole : min (4096 - (dstva - page)) src.length = src.length := by omega
      simp only [rounded]
      rw [if_neg empty, if_neg (by omega), wp_bind]
      unfold walkaddrOrFault walkaddr
      rw [wp_bind, if_neg (by omega), wp_bind, wp_read, mapped, Option.filter_some, if_pos user]
      simp only [Option.map_some, wp_pure, wp_bind, wp_read, mapped, whole]
      rw [if_neg (by simp [writable]), wp_bind, List.drop_length]
      exact copyoutLoop_nil t rounds _

theorem align16_le (sp : Nat) : align16 sp ≤ sp := Nat.sub_le _ _

theorem pushed_inside {sp len stackbase : Nat} (low : stackbase ≤ sp) (room : len ≤ stackbase)
    (small : sp < 2 ^ 63) (fits : ¬ align16 (sub64 sp len) < stackbase) :
    align16 (sub64 sp len) + len ≤ sp := by
  have exact_ : sub64 sp len = sp - len := by
    rw [sub64_eq]
    omega
  have down := align16_le (sub64 sp len)
  omega

-- The stack page of the spare table is in place, and `sp` points into it or to its end.
structure StackReady (stackbase : Nat) (m : Machine) : Prop where
  aligned : stackbase % 4096 = 0
  positive : 4096 ≤ stackbase
  below : stackbase < maxva
  mapped : m.books.spare (stackbase / 4096) = some growFlags

theorem StackReady.of_core {stackbase : Nat} {m' : Machine} (ready : StackReady stackbase m)
    (core : m'.core = m.core) : StackReady stackbase m' where
  aligned := ready.aligned
  positive := ready.positive
  below := ready.below
  mapped := by
    rw [Machine.books_of_core core]
    exact ready.mapped

theorem pushArgs_core {stackbase : Nat} (argv : List (List UInt8)) (argc sp : Nat) (ustack : List Nat)
    (short : ∀ arg ∈ argv, arg.length < 4096) (ready : StackReady stackbase m)
    (low : stackbase ≤ sp) (high : sp ≤ stackbase + 4096) :
    wp (pushArgs b .spare stackbase argv argc sp ustack) (fun r m' => m'.core = m.core ∧
      ∀ pushed, r = some pushed → stackbase ≤ pushed.1 ∧ pushed.1 ≤ stackbase + 4096 ∧
        pushed.2.length = ustack.length + argv.length) (fun _ => True) m := by
  induction argv generalizing argc sp ustack m with
  | nil =>
    refine ⟨rfl, ?_⟩
    rintro pushed ⟨⟩
    exact ⟨low, high, rfl⟩
  | cons arg rest ih =>
    have length := short arg List.mem_cons_self
    have small := ready.below
    have positive := ready.positive
    rw [pushArgs]
    split_ifs with many
    · exact ⟨rfl, by simp⟩
    · simp only
      split_ifs with overflow
      · exact ⟨rfl, by simp⟩
      · have inside := pushed_inside low (by omega) (by unfold maxva at small; omega) overflow
        have bytes : (arg ++ [0]).length = arg.length + 1 := List.length_append
        apply wp_seq (copyoutLoop_inside .spare _ ready.aligned ready.below ready.mapped rfl rfl
          (Nat.le_of_not_lt overflow) (by rw [bytes]; omega))
        intro ok m₁ core₁
        cases ok with
        | false => exact ⟨core₁, by simp⟩
        | true =>
          apply wp_mono (ih (argc + 1) _ _ (fun arg member => short arg (List.mem_cons_of_mem _ member))
            (ready.of_core core₁) (Nat.le_of_not_lt overflow) (by omega)) _ fun _ panics => panics
          rintro r m₂ ⟨core₂, result⟩
          refine ⟨core₂.trans core₁, fun pushed done => ?_⟩
          have placed := result pushed done
          rw [List.length_append, List.length_singleton] at placed
          rw [List.length_cons]
          omega

theorem length_bytesOf (n width : Nat) : (bytesOf n width).length = width := by
  induction width generalizing n with
  | zero => rfl
  | succ width ih => rw [bytesOf, List.length_cons, ih]

theorem length_words (ps : List Nat) : (ps.flatMap fun p => bytesOf p 8).length = ps.length * 8 := by
  induction ps with
  | nil => rfl
  | cons p rest ih =>
    rw [List.flatMap_cons, List.length_append, ih, length_bytesOf, List.length_cons]
    omega

theorem pushStack_core {stackbase : Nat} (argv : Argv) (ready : StackReady stackbase m) :
    wp (pushStack b .spare (stackbase + 4096) stackbase argv.args) (fun _ m' => m'.core = m.core)
      (fun _ => True) m := by
  have small := ready.below
  have positive := ready.positive
  have few := argv.few
  unfold maxarg at few
  unfold pushStack
  apply wp_seq (pushArgs_core argv.args 0 (stackbase + 4096) [] argv.short ready (by omega) le_rfl)
  rintro pushed m₁ ⟨core₁, placed⟩
  cases pushed with
  | none => exact core₁
  | some pushed =>
    obtain ⟨low, high, count⟩ := placed pushed rfl
    rw [List.length_nil, Nat.zero_add] at count
    simp only
    split_ifs with overflow
    · exact core₁
    · have ready₁ := ready.of_core core₁
      have inside := pushed_inside low (by omega) (by unfold maxva at small; omega) overflow
      have words : ((pushed.2 ++ [0]).flatMap fun p => bytesOf p 8).length = (argv.args.length + 1) * 8 := by
        rw [length_words, List.length_append, count]
        rfl
      apply wp_seq (copyoutLoop_inside .spare _ ready₁.aligned ready₁.below ready₁.mapped rfl rfl
        (Nat.le_of_not_lt overflow) (by rw [words]; omega))
      intro ok m₂ core₂
      cases ok with
      | true => exact core₂.trans core₁
      | false => exact core₂.trans core₁

namespace Books

theorem Alike.refl (v : Books) : v.Alike v := ⟨rfl, rfl, rfl, rfl, rfl⟩

theorem Alike.withSpare (v : Books) (ptes : Nat → Option Flags) : v.Alike (v.withSpare ptes) :=
  ⟨rfl, rfl, rfl, rfl, rfl⟩

theorem Alike.trans {v v' v'' : Books} (first : v.Alike v') (second : v'.Alike v'') : v.Alike v'' :=
  ⟨second.pte.trans first.pte, second.entries.trans first.entries, second.bitmap.trans first.bitmap,
    second.swapPages.trans first.swapPages, second.size.trans first.size⟩

theorem noted_eq (v : Books) (va : Nat) :
    v.noted va = { v with entries := (v.noted va).entries } := by
  unfold noted
  split <;> rfl

theorem madeResident_eq (v : Books) (va : Nat) (perm : Flags) :
    v.madeResident va perm = { v with entries := (v.madeResident va perm).entries } := by
  unfold madeResident
  split <;> rfl

theorem installed_eq (v : Books) (t : Target) (va : Nat) (perm : Flags) :
    v.installed t va perm =
      { v.mapped t va perm with entries := (v.installed t va perm).entries } := by
  unfold installed
  rw [madeResident_eq, noted_eq]

theorem Grow.stack {guard stop : Nat} {v v' : Books} (aligned : guard % 4096 = 0)
    (grown : Grow .spare growFlags 2 guard v true stop v') :
    v.spare (guard / 4096) = none ∧ v.spare (guard / 4096 + 1) = none ∧ guard + 4096 < maxva ∧
      v'.spare = Function.update (Function.update v.spare (guard / 4096) (some growFlags))
        (guard / 4096 + 1) (some growFlags) ∧ v'.image = v.image := by
  have next : (guard + 4096) / 4096 = guard / 4096 + 1 := by omega
  cases grown with
  | page _ _ _ _ _ v₁ _ first absent₁ below₁ rest =>
    cases rest with
    | page _ _ _ _ _ v₂ _ second absent₂ below₂ rest =>
      cases rest with
      | done =>
        have spare₁ : v₁.spare = v.spare := first.spare
        have spare₂ : v₂.spare = Function.update v.spare (guard / 4096) (some growFlags) := by
          rw [second.spare, installed_eq, ← spare₁]
          rfl
        change v₁.spare (guard / 4096) = none at absent₁
        change v₂.spare ((guard + 4096) / 4096) = none at absent₂
        rw [spare₁] at absent₁
        rw [spare₂, next, Function.update_of_ne (by omega)] at absent₂
        refine ⟨absent₁, absent₂, below₂, ?_, ?_⟩
        · rw [installed_eq, ← spare₂, ← next]
          rfl
        · rw [installed_eq]
          refine Eq.trans second.image ?_
          rw [installed_eq]
          exact first.image

end Books

theorem uvmclear_books {va : Nat} {flags : Flags} (below : va < maxva)
    (here : m.books.spare (va / 4096) = some flags) :
    wp (uvmclear .spare va)
      (fun _ m' => m'.books = m.books.mapped .spare va { flags with u := false }) (fun _ => True) m := by
  change m.spare.ptes (va / 4096) = some flags at here
  rw [PageTable.ptes_leaf _ below] at here
  obtain ⟨leaf, mapped, rfl⟩ := Option.map_eq_some_iff.mp here
  have found : (m.table .spare).walk va = some (.leaf leaf) := Radix.find_of_value mapped
  unfold uvmclear
  rw [wp_bind, wp_walk]
  refine ⟨fun _ => trivial, fun _ => ?_⟩
  rw [found]
  exact Machine.books_setPte .spare below (by rw [found]; rfl)

theorem uvmclear_high {t : Target} {va : Nat} {Q : Unit → Machine → Prop} (high : ¬ va < maxva) :
    wp (uvmclear t va) Q (fun _ => True) m := by
  unfold uvmclear
  rw [wp_bind, wp_walk]
  exact ⟨fun _ => trivial, fun below => absurd below high⟩

-- What `vmfault` loads pages from.
def Proc.program (p : Proc) : Option Inode × List Seg := (p.execip, p.activeSegs)

theorem commitImage_books (elf : Elfhdr) (sz sp oldsz : Nat) (created : Option Nat) :
    wp (commitImage b elf sz sp oldsz created) (fun _ m' => m'.books.pte = m.books.spare ∧
      m'.books.entries = List.replicate pgmetaSize .cleared ∧
      m'.books.bitmap = List.replicate 128 0#8 ∧ m'.books.swapPages = 0 ∧ m'.books.image.sz = sz ∧
      m'.books.image.heapBrk = sub64 sz 8192 ∧
      m'.books.image.program = m.books.image.program) (fun _ => True) m := by
  unfold commitImage
  rw [wp_bind, wp_update]
  apply wp_seq (procFreepagetable_spare oldsz)
  rintro _ m₁ ⟨ptes, books₁⟩
  refine ⟨?_, List.map_replicate, rfl, rfl, ?_, ?_, ?_⟩
  · exact congrArg Books.pte books₁
  · exact congrArg (fun v : Books => v.image.sz) books₁
  · exact congrArg (fun v : Books => v.image.heapBrk) books₁
  · have same := congrArg (fun v : Books => v.image.program) books₁
    exact same

theorem execBad_books (sz : Nat) :
    wp (execBad b sz) (fun r m' => r = none ∧ m.books.Alike m'.books) (fun _ => True) m := by
  apply wp_seq (procFreepagetable_spare sz)
  rintro _ m₁ ⟨ptes, books₁⟩
  rw [wp_pure, books₁]
  exact ⟨rfl, .withSpare _ _⟩

theorem framePtes_none {vpn : Nat} (absent : framePtes vpn = none) :
    vpn ≠ trampolineVa / 4096 ∧ vpn ≠ trapframeVa / 4096 := by
  constructor
  · rintro rfl
    exact absurd absent (by decide)
  · rintro rfl
    exact absurd absent (by decide)

theorem framePtes_below {vpn : Nat} (low : vpn < trapframeVa / 4096) : framePtes vpn = none := by
  have high : trapframeVa / 4096 < trampolineVa / 4096 := by decide
  unfold framePtes
  rw [Function.update_of_ne (by omega), Function.update_of_ne (by omega)]

theorem framePtes_eq {vpn : Nat} {flags : Flags} (here : framePtes vpn = some flags) :
    flags = trampolineFlags ∨ flags = trapframeFlags := by
  unfold framePtes at here
  rw [Function.update_apply, Function.update_apply] at here
  split_ifs at here
  · exact .inr (Option.some.inj here).symm
  · exact .inl (Option.some.inj here).symm

theorem sub64_add (x y : Nat) (small : x < 2 ^ 63) (small' : y < 2 ^ 63) : sub64 (x + y) y = x := by
  rw [sub64_eq]
  omega

-- From the two pages of the stack on, `kexec` either fails or commits a fresh image.
theorem stackBuilt_books (elf : Elfhdr) (argv : Argv) (created : Option Nat) (oldsz : Nat) {guard top : Nat}
    (aligned : guard % 4096 = 0) (below : guard + 4096 < maxva)
    (spare : m.books.spare = Function.update (Function.update framePtes (guard / 4096) (some growFlags))
      (guard / 4096 + 1) (some growFlags))
    (absent : framePtes (guard / 4096 + 1) = none) (isTop : guard = pgroundup top)
    (covered : ∀ seg ∈ m.books.image.activeSegs, seg.stop ≤ top) :
    wp (do
      uvmclear .spare (sub64 (guard + 8192) 8192)
      match ← pushStack b .spare (guard + 8192) (sub64 (guard + 8192) 4096) argv.args with
      | none => execBad b (guard + 8192)
      | some sp =>
        commitImage b elf (guard + 8192) sp oldsz created
        pure (some argv.args.length))
      (fun r m' => if r.isSome then m'.books.Fresh ∧ m'.books.image.program = m.books.image.program
        else m.books.Alike m'.books) (fun _ => True) m := by
  have lower : sub64 (guard + 8192) 8192 = guard := by
    apply sub64_add <;> unfold maxva at below <;> omega
  have base : sub64 (guard + 8192) 4096 = guard + 4096 := by
    apply sub64_add (guard + 4096) 4096 <;> unfold maxva at below <;> omega
  have guardPte : m.books.spare (guard / 4096) = some growFlags := by
    rw [spare, Function.update_of_ne (by omega), Function.update_self]
  rw [lower, base]
  apply wp_seq (uvmclear_books (by omega) guardPte)
  intro _ m₁ books₁
  have ptes : m₁.books.spare = stackPtes guard := by
    rw [books₁]
    change Function.update m.books.spare (guard / 4096) _ = _
    rw [spare, Function.update_comm (by omega), Function.update_idem]
    rfl
  have alike₁ : m.books.Alike m₁.books := by
    rw [books₁]
    exact .withSpare _ _
  have ready : StackReady (guard + 4096) m₁ := by
    refine ⟨by omega, by omega, below, ?_⟩
    rw [ptes, show (guard + 4096) / 4096 = guard / 4096 + 1 by omega]
    exact Function.update_self ..
  apply wp_seq (pushStack_core argv ready)
  intro pushed m₂ core₂
  have books₂ := Machine.books_of_core core₂
  cases pushed with
  | none =>
    apply wp_mono (execBad_books _) _ fun _ panics => panics
    rintro r m₃ ⟨rfl, alike⟩
    rw [books₂] at alike
    exact alike₁.trans alike
  | some sp =>
    apply wp_seq (commitImage_books elf _ sp oldsz created)
    rintro _ m₃ ⟨pte, entries, bitmap, swapPages, sz, heapBrk, program⟩
    have brk : m₃.books.image.heapBrk = guard := by
      rw [heapBrk, lower]
    rw [books₂] at pte program
    have same : m₁.books.image = m.books.image := by
      rw [books₁]
      rfl
    rw [same] at program
    refine ⟨⟨?_, entries, bitmap, swapPages, ?_, ?_, ?_, top, brk.trans isTop, ?_⟩, program⟩
    · rw [pte, ptes, brk]
    · rw [brk]
      exact aligned
    · rw [sz, brk]
    · have apart := framePtes_none absent
      rw [sz]
      unfold trapframeVa trampolineVa maxva at *
      omega
    · have segs : m₃.books.image.activeSegs = m.books.image.activeSegs := congrArg Prod.snd program
      rw [segs]
      exact covered

theorem buildStack_books (elf : Elfhdr) (argv : Argv) (created : Option Nat) {guard top : Nat}
    (rounded : pgroundup guard = guard) (isTop : guard = pgroundup top)
    (frames : m.books.spare = framePtes) (covered : ∀ seg ∈ m.books.image.activeSegs, seg.stop ≤ top) :
    wp (buildStack b elf argv.args created guard) (fun r m' =>
      if r.isSome then m'.books.Fresh ∧ m'.books.image.program = m.books.image.program
      else ∃ ok stop w, Books.Grow .spare growFlags 2 guard m.books ok stop w ∧
        w.Alike m'.books) (fun _ => True) m := by
  have aligned : guard % 4096 = 0 := by
    rw [← rounded]
    exact pgroundup_aligned guard
  have small : guard < 2 ^ 64 := by
    rw [← rounded]
    unfold pgroundup u64
    omega
  have stack : (userstack + 1) * 4096 = 8192 := rfl
  have page : userstack * 4096 = 4096 := rfl
  unfold buildStack
  rw [wp_bind, wp_read, stack, page]
  apply wp_seq (uvmalloc_books .spare _ _ _)
  intro sz1 m₁ outcome
  rcases outcome with wrapped | unwrapped
  · -- The end of the stack wraps around: `uvmclear` walks too high.
    have high : ¬ sub64 guard 8192 < maxva := by
      have smaller := wrapped.1
      rw [sub64_eq]
      unfold u64 at smaller
      unfold maxva
      omega
    have positive : guard ≠ 0 := by
      have smaller := wrapped.1
      omega
    rw [wrapped.2.1, if_neg positive]
    exact wp_seq (Q := fun _ _ => False) (uvmclear_high high) fun _ _ none => none.elim
  · have larger := unwrapped.1
    have size : u64 (guard + 8192) = guard + 8192 := by
      unfold u64 at *
      omega
    have pages : (guard + 8192 - guard + 4095) / 4096 = 2 := by omega
    obtain ⟨ok, stop, v, grown, result⟩ := unwrapped.2
    rw [size, rounded, pages] at grown
    rw [size, rounded] at result
    cases ok with
    | false =>
      obtain ⟨rfl, books₁⟩ := result
      rw [if_pos rfl]
      apply wp_mono (execBad_books _) _ fun _ panics => panics
      rintro r m₂ ⟨rfl, alike⟩
      rw [books₁] at alike
      exact ⟨false, stop, v, grown, (Books.Alike.withSpare v _).trans alike⟩
    | true =>
      rw [if_pos rfl] at result
      have stacked := Books.Grow.stack aligned grown
      have spare : m₁.books.spare = Function.update (Function.update framePtes (guard / 4096)
          (some growFlags)) (guard / 4096 + 1) (some growFlags) := by
        rw [result.2, ← frames]
        exact stacked.2.2.2.1
      have absent : framePtes (guard / 4096 + 1) = none := by
        rw [← frames]
        exact stacked.2.1
      have segs : ∀ seg ∈ m₁.books.image.activeSegs, seg.stop ≤ top := by
        rw [result.2, stacked.2.2.2.2]
        exact covered
      rw [result.1, if_neg (by omega)]
      apply wp_mono (stackBuilt_books elf argv created m.proc.sz aligned stacked.2.2.1 spare absent isTop segs)
        _ fun _ panics => panics
      intro r m₂ built
      cases r with
      | some argc =>
        have same : m₁.books.image = m.books.image := by
          rw [result.2]
          exact stacked.2.2.2.2
        rw [same] at built
        exact built
      | none =>
        change m₁.books.Alike m₂.books at built
        rw [result.2] at built
        exact ⟨true, stop, v, grown, built⟩

theorem kexec_books (file : Option Inode) (argv : Argv) (created : Option Nat) :
    wp (kexec b file argv.args created) (fun r m' =>
      if r.isSome then m'.books.Fresh else m.books.ExecFailed file m'.books) (fun _ => True) m := by
  unfold kexec
  cases file with
  | none => exact .early (.refl _)
  | some ip =>
    cases header : readElfhdr ip with
    | none =>
      simp only
      rw [header]
      exact .early (.refl _)
    | some elf =>
      simp only
      rw [header]
      simp only
      rw [wp_bind, wp_read]
      apply wp_seq (procPagetable_books _)
      intro ok m₁ table
      cases ok with
      | false =>
        obtain ⟨ptes, books₁⟩ := table
        change m.books.ExecFailed _ m₁.books
        rw [books₁]
        exact .early (.withSpare _ _)
      | true =>
        rw [if_pos rfl] at table
        rw [if_pos rfl, wp_bind, wp_read, wp_bind, wp_modifyProc]
        have segs : m₁.proc.segs = m.proc.segs := congrArg (fun v : Books => v.image.segs) table
        let m₂ : Machine := { m₁ with proc := { m₁.proc with
          execip := some ip
          nsegs := (elf.scan ip m₁.proc.segs).2.nsegs
          segs := (elf.scan ip m₁.proc.segs).2.segs } }
        have alike : m.books.Alike m₂.books := by
          have pte := congrArg Books.pte table
          have entries := congrArg Books.entries table
          have bitmap := congrArg Books.bitmap table
          have swapPages := congrArg Books.swapPages table
          have size := congrArg (fun v : Books => v.image.sz) table
          exact ⟨pte, entries, bitmap, swapPages, size⟩
        have frames : m₂.books.spare = framePtes := congrArg Books.spare table
        change wp _ _ _ m₂
        by_cases good : (elf.scan ip m₁.proc.segs).1 = true
        · rw [if_pos good]
          apply wp_mono (buildStack_books elf argv created (pgroundup_idem _) rfl frames
            (elf.scan_covered ip m₁.proc.segs)) _
            fun _ panics => panics
          intro r m₃ built
          cases r with
          | some argc => exact built.1
          | none =>
            obtain ⟨ok, stop, w, grown, later⟩ := built
            refine .late _ stop ok m₂.books w ?_ alike frames grown later
            have same : m.books.image.segs = m₁.proc.segs := segs.symm
            simp only [Books.stackAt, Option.bind_some, header, same]
            rw [if_pos good]
        · rw [if_neg good]
          apply wp_mono (execBad_books _) _ fun _ panics => panics
          rintro r m₃ ⟨rfl, later⟩
          exact .early (alike.trans later)

end SystemsSuite.Paging
