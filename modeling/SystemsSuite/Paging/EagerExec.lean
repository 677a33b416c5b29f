import SystemsSuite.Paging.FrameOwnership
import SystemsSuite.Paging.ImageCourses

set_option autoImplicit false

namespace SystemsSuite.Paging.Eager

open Lib Prog

-- `kerneltrap` is what a null pointer ends in.
inductive Panic
  | shared (e : Paging.Panic)
  | freewalk
  | loadseg
  | kerneltrap
  deriving DecidableEq, Repr

-- The two kernels share `walk`, `mappages`, `kalloc` and what else deals with tables and frames.
abbrev Kern := Prog Panic Machine

def shared {α : Type} (program : Paging.Kern α) : Kern α := fun m =>
  match program m with
  | .ok r => .ok r
  | .error e => .error (.shared e)

instance : MonadLift Paging.Kern Kern := ⟨shared⟩

variable (b : Build)

def leafBelow : (l : Nat) → Radix.Slots 512 Nat Leaf l → Bool
  | 0, slots => (List.finRange 512).any fun i =>
    match slots i with
    | .leaf _ => true
    | .empty => false
  | l + 1, slots => (List.finRange 512).any fun i =>
    match slots i with
    | .table _ children => leafBelow l children
    | .empty => false

-- Whether `freewalk` comes to a leaf.
@[irreducible] def hasLeaf (pt : PageTable) : Bool := leafBelow 2 pt.entries

def freewalk (t : Target) : Kern Unit := do
  if hasLeaf ((← read).table t) then panic .freewalk
  else Paging.freewalk b t

def uvmfree (t : Target) (sz : Nat) : Kern Unit := do
  if sz > 0 then uvmunmap b t 0 (pgroundup sz / 4096) true else pure ()
  freewalk b t

def procFreepagetable (t : Target) (sz : Nat) : Kern Unit := do
  uvmunmap b t trampolineVa 1 false
  uvmunmap b t trapframeVa 1 false
  uvmfree b t sz

def allocLoop (t : Target) (start newsz : Nat) (perm : Flags) : Nat → Nat → Kern Nat
  | 0, _ => pure newsz
  | n + 1, a => do
    match ← kalloc with
    | none =>
      let _ ← uvmdealloc b t a start
      pure 0
    | some pa =>
      memset pa 0
      if ← mappages t a pa perm then allocLoop t start newsz perm n (a + 4096)
      else
        kfree b pa
        let _ ← uvmdealloc b t a start
        pure 0

def uvmalloc (t : Target) (oldsz newsz : Nat) (xperm : Flags) : Kern Nat :=
  if newsz < oldsz then pure oldsz
  else
    let start := pgroundup oldsz
    allocLoop b t start newsz (Flags.or ⟨true, false, false, true⟩ xperm)
      ((newsz - start + 4095) / 4096) start

-- From the page at `i` on; there are too few frames for `i` to wrap around.
def loadLoop (t : Target) (va : Nat) (ip : Inode) (offset sz : Nat) : Nat → Nat → Kern Bool
  | 0, _ => pure true
  | n + 1, i => do
    match ← walkaddr t (u64 (va + i)) with
    | none => panic .loadseg
    | some pa =>
      let len := min (sz - i) 4096
      if (← readInto ip pa (offset + i) len) = len then loadLoop t va ip offset sz n (i + 4096)
      else pure false

def loadseg (t : Target) (va : Nat) (ip : Inode) (offset sz : Nat) : Kern Bool :=
  loadLoop t va ip (u32 offset) (u32 sz) ((u32 sz + 4095) / 4096) 0

-- `flags2perm`
def perm (ph : Proghdr) : Flags := ⟨false, ph.flags.testBit 1, ph.flags.testBit 0, false⟩

-- The loop over the program headers: whether it ends without `goto bad`, and `sz`.
def loadHeaders (ip : Inode) : Nat → Nat → Nat → Kern (Bool × Nat)
  | 0, _, sz => pure (true, sz)
  | n + 1, off, sz =>
    match readProghdr ip off with
    | none => pure (false, sz)
    | some ph =>
      if ph.type ≠ elfProgLoad then loadHeaders ip n (u32 (off + proghdrSize)) sz
      else if ph.valid then do
        let sz1 ← uvmalloc b .spare sz ph.stop (perm ph)
        if sz1 = 0 then pure (false, sz)
        else if ← loadseg .spare ph.vaddr ip ph.off ph.filesz then
          loadHeaders ip n (u32 (off + proghdrSize)) sz1
        else pure (false, sz1)
      else pure (false, sz)

def ismapped (t : Target) (va : Nat) : Kern Bool := do
  match ← walk t va with
  | some (.leaf _) => pure true
  | _ => pure false

-- The new page goes to the table of the process, whichever table the fault is in.
def vmfault (t : Target) (va : Nat) : Kern (Option Nat) := do
  if va ≥ (← read).proc.sz then pure none
  else if ← ismapped t (pgrounddown va) then pure none
  else
    match ← kalloc with
    | none => pure none
    | some mem =>
      memset mem 0
      if ← mappages .own (pgrounddown va) mem ⟨true, true, false, true⟩ then pure (some mem)
      else
        kfree b mem
        pure none

def walkaddrOrFault (t : Target) (va0 : Nat) : Kern (Option Nat) := do
  match ← walkaddr t va0 with
  | some pa0 => pure (some pa0)
  | none => vmfault b t va0

-- Each round copies at least one byte, so the length bounds the rounds.
def copyoutLoop (t : Target) : Nat → Nat → List UInt8 → Kern Bool
  | 0, _, _ => pure true
  | rounds + 1, dstva, src => do
    if src = [] then pure true
    else
      let va0 := pgrounddown dstva
      if va0 ≥ maxva then pure false
      else
        match ← walkaddrOrFault b t va0 with
        | none => pure false
        | some pa0 =>
          match ← walk t va0 with
          | none => panic .kerneltrap
          | some .empty => pure false
          | some (.leaf leaf) =>
            if leaf.flags.w = false then pure false
            else
              let n := min (4096 - (dstva - va0)) src.length
              memmove pa0 (dstva - va0) (src.take n)
              copyoutLoop t rounds (va0 + 4096) (src.drop n)

def copyout (t : Target) (dstva : Nat) (src : List UInt8) : Kern Bool :=
  copyoutLoop b t src.length dstva src

def pushArgs (t : Target) (stackbase : Nat) :
    List (List UInt8) → Nat → Nat → List Nat → Kern (Option (Nat × List Nat))
  | [], _, sp, ustack => pure (some (sp, ustack))
  | arg :: rest, argc, sp, ustack => do
    if argc ≥ maxarg then pure none
    else
      let sp' := align16 (sub64 sp (arg.length + 1))
      if sp' < stackbase then pure none
      else if ← copyout b t sp' (arg ++ [0]) then
        pushArgs t stackbase rest (argc + 1) sp' (ustack ++ [sp'])
      else pure none

def pushStack (t : Target) (sp stackbase : Nat) (argv : List (List UInt8)) : Kern (Option Nat) := do
  match ← pushArgs b t stackbase argv 0 sp [] with
  | none => pure none
  | some pushed =>
    let sp' := align16 (sub64 pushed.1 ((argv.length + 1) * 8))
    if sp' < stackbase then pure none
    else if ← copyout b t sp' ((pushed.2 ++ [0]).flatMap fun p => bytesOf p 8) then pure (some sp')
    else pure none

def commitImage (elf : Elfhdr) (sz sp oldsz : Nat) : Kern Unit := do
  update fun m => { m with
    spare := m.proc.pagetable
    proc := { m.proc with
      pagetable := m.spare
      sz := sz
      trapframe := { m.proc.trapframe with a1 := sp, epc := elf.entry, sp := sp } } }
  procFreepagetable b .spare oldsz

def execBad (sz : Nat) : Kern (Option Nat) := do
  procFreepagetable b .spare sz
  pure none

def buildStack (elf : Elfhdr) (argv : List (List UInt8)) (sz : Nat) : Kern (Option Nat) := do
  let oldsz := (← read).proc.sz
  let sz1 ← uvmalloc b .spare sz (u64 (sz + (userstack + 1) * 4096)) ⟨false, true, false, false⟩
  if sz1 = 0 then execBad b sz
  else
    uvmclear .spare (sub64 sz1 ((userstack + 1) * 4096))
    match ← pushStack b .spare sz1 (sub64 sz1 (userstack * 4096)) argv with
    | none => execBad b sz1
    | some sp =>
      commitImage b elf sz1 sp oldsz
      pure (some argv.length)

def kexec (file : Option Inode) (argv : List (List UInt8)) : Kern (Option Nat) := do
  match file with
  | none => pure none
  | some ip =>
    match readElfhdr ip with
    | none => pure none
    | some elf =>
      -- When `proc_pagetable` fails it frees a table without leaves.
      if ← procPagetable b (← read).proc.trapframe.pa then
        let loaded ← loadHeaders b ip elf.phnum (u32 elf.phoff) 0
        if loaded.1 then buildStack b elf argv (pgroundup loaded.2)
        else execBad b loaded.2
      else pure none

section Shared

variable {b : Build} {m : Machine}

@[simp] theorem wp_shared {α : Type} {program : Paging.Kern α} {Q : α → Machine → Prop} {E : Panic → Prop} :
    wp (liftM program : Kern α) Q E m ↔ wp program Q (fun e => E (.shared e)) m := by
  change wp (shared program) Q E m ↔ _
  unfold wp shared
  cases program m <;> rfl

theorem walkAlloc_suffix (t : Target) (va : Nat) :
    wp (walkAlloc t va) (fun _ m' => m'.freelist <:+ m.freelist) (fun _ => True) m := by
  unfold walkAlloc
  split_ifs
  · trivial
  · exact Radix.suffix_grow 2 _ _ _

theorem mappages_suffix (t : Target) (va pa : Nat) (perm : Flags) :
    wp (mappages t va pa perm) (fun _ m' => m'.freelist <:+ m.freelist) (fun _ => True) m := by
  unfold mappages
  split_ifs
  · trivial
  · apply wp_seq (walkAlloc_suffix t va)
    intro ok m₁ left
    split_ifs
    · rw [wp_bind, wp_read]
      cases (m₁.table t).leaf va with
      | some leaf => trivial
      | none =>
        change (m₁.setTable t _).freelist <:+ _
        rwa [m₁.freelist_setTable]
    · exact left

end Shared

section Freeing

variable {b : Build} {m : Machine} {t : Target} {f : Nat}

-- Table `t` has nothing to do with the frame `f`, which still has the contents `page`.
structure Untouched (t : Target) (f : Nat) (page : Page) (m : Machine) : Prop where
  unowned : (m.table t).owners f = 0
  page : m.mem f = page

theorem kfree_mem {pa : Nat} (other : pa ≠ f) :
    wp (kfree b pa) (fun _ m' => m'.mem f = m.mem f ∧ m'.core = m.core) (fun _ => True) m := by
  unfold kfree
  split_ifs
  · exact ⟨Function.update_of_ne other.symm _ _, rfl⟩
  · trivial

theorem unmapPage_untouched {page : Page} (doFree : Bool) (a : Nat) (so : Untouched t f page m)
    (plain : doFree = true → (m.table t).Plain) :
    wp (unmapPage b t doFree a) (fun _ m' => Untouched t f page m') (fun _ => True) m := by
  unfold unmapPage
  rw [wp_bind, wp_walk]
  refine ⟨fun _ => trivial, fun below => ?_⟩
  cases found : (m.table t).walk a with
  | none => exact so
  | some node =>
    cases node with
    | empty => exact so
    | leaf leaf =>
      have here : (m.table t).leaf a = some leaf := PageTable.leaf_of_walk found
      have reached : ((m.table t).walk a).isSome = true := by rw [found]; rfl
      have wide : a < 2 ^ 39 := Nat.lt_trans below (by decide)
      have tables := (m.table t).tables_store a .empty f
      have leaves := (m.table t).leaves_store .empty f wide reached
      have none_ : (m.table t).owners f = 0 := so.unowned
      have gone : leafWeight f (a / 4096) (Radix.value? (some (.empty : PteSlot))) = 0 := by
        simp [leafWeight, Radix.value?]
      have cleared {m₁ : Machine} (same : m₁.mem f = m.mem f) (core : m₁.core = m.core) :
          Untouched t f page (m₁.setTable t ((m₁.table t).store a .empty)) := by
        refine ⟨?_, ?_⟩
        · rw [Machine.table_setTable, Machine.table_of_core core]
          unfold PageTable.owners at none_ ⊢
          omega
        · rw [Machine.mem_setTable, same, so.page]
      cases doFree with
      | false => exact cleared rfl rfl
      | true =>
        have other : leaf.pa ≠ f := by
          rintro rfl
          have weight : leafWeight leaf.pa (a / 4096) ((m.table t).leaf a) = 1 := by
            rw [here]
            exact if_pos ⟨(plain rfl).ordinary here, rfl⟩
          unfold PageTable.owners at none_
          omega
        simp only [if_true]
        exact wp_seq (kfree_mem other) fun _ m₁ kept => cleared kept.1 kept.2

theorem uvmunmap_untouched {page : Page} (va npages : Nat) (doFree : Bool) (so : Untouched t f page m)
    (plain : doFree = true → (m.table t).Plain) :
    wp (uvmunmap b t va npages doFree) (fun _ m' => Untouched t f page m' ∧
      (m'.table t).pa = (m.table t).pa ∧ ((m.table t).Plain → (m'.table t).Plain)) (fun _ => True) m := by
  have loop (n a : Nat) {m : Machine} (so : Untouched t f page m)
      (plain : doFree = true → (m.table t).Plain) :
      wp (unmapLoop b t doFree n a) (fun _ m' => Untouched t f page m' ∧
        (m'.table t).pa = (m.table t).pa ∧ ((m.table t).Plain → (m'.table t).Plain)) (fun _ => True) m := by
    induction n generalizing a m with
    | zero => exact ⟨so, rfl, fun plain => plain⟩
    | succ n ih =>
      have steps := wp_and (unmapPage_untouched doFree a so plain) (unmapPage_effect (b := b) t doFree a)
      rw [unmapLoop]
      apply wp_bind.mpr (wp_mono steps _ fun _ _ => trivial)
      rintro _ m₁ ⟨so₁, _, unmapped⟩
      apply wp_mono (ih (a + 4096) so₁ fun freeing => unmapped.plain (plain freeing)) _ fun _ _ => trivial
      rintro _ m₂ ⟨so₂, root, later⟩
      exact ⟨so₂, root.trans (Machine.root_of_rest unmapped.rest t), fun plain => later (unmapped.plain plain)⟩
  unfold uvmunmap
  split_ifs
  · trivial
  · exact loop _ _ so plain

theorem freeList_mem {frames : List Nat} (absent : f ∉ frames) :
    wp (freeList b frames) (fun _ m' => m'.mem f = m.mem f) (fun _ => True) m := by
  induction frames generalizing m with
  | nil => exact rfl
  | cons pa rest ih =>
    rw [List.mem_cons, not_or] at absent
    apply wp_seq (kfree_mem (Ne.symm absent.1))
    rintro _ m₁ ⟨same, _⟩
    apply wp_mono (ih absent.2) _ fun _ _ => trivial
    exact fun _ _ same' => same'.trans same

theorem freewalk_mem {page : Page} (so : Untouched t f page m) (root : (m.table t).pa ≠ 0)
    (plain : (m.table t).Plain) :
    wp (freewalk b t) (fun _ m' => m'.mem f = page) (fun _ => True) m := by
  have absent : f ∉ (m.table t).freewalkOrder := by
    have fewer := (m.table t).userLeaves_le f
    have none_ : (m.table t).owners f = 0 := so.unowned
    unfold PageTable.owners at none_
    rw [← List.count_eq_zero, PageTable.count_freewalkOrder _ f root plain]
    omega
  unfold freewalk
  rw [wp_bind, wp_read]
  split_ifs
  · trivial
  · rw [wp_shared]
    unfold Paging.freewalk
    rw [wp_bind, wp_read, wp_bind, wp_update]
    apply wp_mono (freeList_mem absent) _ fun _ _ => trivial
    intro _ m' same
    rw [same, Machine.mem_setTable, so.page]

theorem procFreepagetable_mem {page : Page} (sz : Nat) (so : Untouched t f page m)
    (root : (m.table t).pa ≠ 0) :
    wp (procFreepagetable b t sz) (fun _ m' => m'.mem f = page) (fun _ => True) m := by
  have once {va : Nat} (low : va + 1 * 4096 ≤ maxva) (aligned : va % 4096 = 0) {m : Machine} :=
    uvmunmap_effect (b := b) (m := m) t false aligned low
  unfold procFreepagetable
  apply wp_seq (wp_shared.mpr (wp_mono (wp_and (uvmunmap_untouched trampolineVa 1 false so (by simp))
    (once (by decide) (by decide))) (fun _ _ result => result) fun _ _ => trivial))
  rintro _ m₁ ⟨⟨so₁, _⟩, unmapped₁⟩
  apply wp_seq (wp_shared.mpr (wp_mono (wp_and (uvmunmap_untouched trapframeVa 1 false so₁ (by simp))
    (once (by decide) (by decide))) (fun _ _ result => result) fun _ _ => trivial))
  rintro _ m₂ ⟨⟨so₂, _⟩, unmapped₂⟩
  have plain : (m₂.table t).Plain := by
    constructor
    · rw [unmapped₂.kept _ (by decide) (by unfold within; decide)]
      exact unmapped₁.gone _ (by decide) (by unfold within; decide)
    · exact unmapped₂.gone _ (by decide) (by unfold within; decide)
  have root₂ : (m₂.table t).pa ≠ 0 := by
    rwa [Machine.root_of_rest (unmapped₂.rest.trans unmapped₁.rest) t]
  unfold uvmfree
  split_ifs
  · apply wp_seq (wp_shared.mpr (uvmunmap_untouched 0 _ true so₂ fun _ => plain))
    rintro _ m₃ ⟨so₃, root₃, plain₃⟩
    exact freewalk_mem so₃ (root₃ ▸ root₂) (plain₃ plain)
  · exact freewalk_mem so₂ root₂ plain

theorem procFreepagetable_proc (sz : Nat) :
    wp (procFreepagetable b .spare sz) (fun _ m' => m'.proc = m.proc) (fun _ => True) m := by
  have walked {m₁ : Machine} (same : m₁.proc = m.proc) :
      wp (freewalk b .spare) (fun _ m' => m'.proc = m.proc) (fun _ => True) m₁ := by
    unfold freewalk
    rw [wp_bind, wp_read]
    split_ifs
    · trivial
    · rw [wp_shared]
      unfold Paging.freewalk
      rw [wp_bind, wp_read, wp_bind, wp_update]
      apply wp_mono (freeList_core _) _ fun _ _ => trivial
      exact fun _ m₂ core => (congrArg Core.proc core).trans same
  unfold procFreepagetable
  apply wp_seq (wp_shared.mpr (uvmunmap_spare_proc trampolineVa 1 false))
  intro _ m₁ same₁
  apply wp_seq (wp_shared.mpr (uvmunmap_spare_proc trapframeVa 1 false))
  intro _ m₂ same₂
  unfold uvmfree
  split_ifs
  · apply wp_seq (wp_shared.mpr (uvmunmap_spare_proc 0 _ true))
    exact fun _ m₃ same₃ => walked (same₃.trans (same₂.trans same₁))
  · exact walked (same₂.trans same₁)

end Freeing

end SystemsSuite.Paging.Eager
