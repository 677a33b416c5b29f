import SystemsSuite.Lib.Program
import SystemsSuite.Paging.Metadata

set_option autoImplicit false

namespace SystemsSuite.Paging

open Lib

structure Seg where
  va : Nat
  memsz : Nat
  filesz : Nat
  off : Nat
  permW : Bool
  permX : Bool
  deriving DecidableEq, Repr

-- The saved registers that the modelled code reads or sets, and the frame that holds them.
structure Trapframe where
  pa : Nat
  sp : Nat
  a1 : Nat
  epc : Nat
  deriving DecidableEq, Repr

structure Proc where
  killed : Bool
  sz : Nat
  pagetable : PageTable
  trapframe : Trapframe
  heapBrk : Nat
  execip : Option Inode
  nsegs : Nat
  segs : List Seg
  pageSeqCtr : Nat
  swapip : Option Inode
  swapPages : Nat
  swapBitmap : Bitmap
  pgmeta : List PageMeta
  clockHand : Nat

-- What the build and the linker fix: `end`, `trampoline` and USE_CLOCK. The kernel is linked at
-- KERNBASE.
structure Build where
  kernelEnd : Nat
  trampoline : Nat
  policy : Policy
  linkedAtBase : 0x80000000 ≤ kernelEnd

-- The kernel while `proc` (`myproc()`) runs. `spare` is the table that `kexec` or `kfork` is building, null when
-- its root is at 0. Two fields stand for no data of the kernel: `writeBlocks` says how many blocks `bmap` finds in
-- each coming `writei`, and `refreed` records that a frame was freed while it was already free.
structure Machine where
  freelist : List Nat
  mem : Nat → Page
  proc : Proc
  spare : PageTable
  writeBlocks : List Nat
  refreed : Bool

inductive Panic
  | walk
  | mappagesNotAligned
  | remap
  | uvmunmapNotAligned
  | uvmclear
  | ilock
  | kfree
  deriving DecidableEq, Repr

abbrev Kern := Prog Panic Machine

open Prog

-- Which of the two tables a `pagetable` argument is.
inductive Target
  | own
  | spare
  deriving DecidableEq, Repr

namespace Machine

def table (m : Machine) : Target → PageTable
  | .own => m.proc.pagetable
  | .spare => m.spare

def setTable (m : Machine) (t : Target) (pt : PageTable) : Machine :=
  match t with
  | .own => { m with proc := { m.proc with pagetable := pt } }
  | .spare => { m with spare := pt }

def fill (m : Machine) (pa : Nat) (page : Page) : Machine :=
  { m with mem := Function.update m.mem pa page }

def setMeta (m : Machine) (metas : List PageMeta) : Machine :=
  { m with proc := { m.proc with pgmeta := metas } }

end Machine

def modifyProc (f : Proc → Proc) : Kern Unit := update fun m => { m with proc := f m.proc }

def modifyMeta (i : Nat) (f : PageMeta → PageMeta) : Kern Unit :=
  modifyProc fun p => { p with pgmeta := p.pgmeta.modify i f }

def setkilled : Kern Unit := modifyProc fun p => { p with killed := true }

def kalloc : Kern (Option Nat) := do
  match (← read).freelist with
  | [] => pure none
  | pa :: rest =>
    update fun m => { m.fill pa fun _ => 5 with freelist := rest }
    pure (some pa)

def Build.isFrame (b : Build) (pa : Nat) : Bool :=
  decide (pa % 4096 = 0 ∧ b.kernelEnd ≤ pa ∧ pa < phystop)

variable (b : Build)

def kfree (pa : Nat) : Kern Unit :=
  if b.isFrame pa then
    update fun m => { m.fill pa fun _ => 1 with
      freelist := pa :: m.freelist
      refreed := m.refreed || m.freelist.contains pa }
  else panic .kfree

def memset (pa : Nat) (c : UInt8) : Kern Unit := update fun m => m.fill pa fun _ => c

def walk (t : Target) (va : Nat) : Kern (Option PteSlot) := do
  if va ≥ maxva then panic .walk
  else pure (((← read).table t).walk va)

-- `walk(pagetable, va, 1)`: whether the slot is there, after adding the tables above it.
def walkAlloc (t : Target) (va : Nat) : Kern Bool := do
  if va ≥ maxva then panic .walk
  else
    let m ← read
    let grown := Radix.grow 2 (m.table t).entries (va / 4096) m.freelist
    let taken := m.freelist.take (m.freelist.length - grown.2.1.length)
    update fun m => { m.setTable t { m.table t with entries := grown.1 } with
      freelist := grown.2.1
      mem := fun pa => if pa ∈ taken then fun _ => 0 else m.mem pa }
    pure grown.2.2

def setPte (t : Target) (va : Nat) (node : PteSlot) : Kern Unit :=
  update fun m => m.setTable t ((m.table t).store va node)

def mappages (t : Target) (va pa : Nat) (perm : Flags) : Kern Bool := do
  if va % 4096 ≠ 0 then panic .mappagesNotAligned
  else
    if ← walkAlloc t va then
      match ((← read).table t).leaf va with
      | some _ => panic .remap
      | none =>
        setPte t va (.leaf ⟨pa, perm⟩)
        pure true
    else pure false

def uvmcreate : Kern Bool := do
  match ← kalloc with
  | none => pure false
  | some pa =>
    memset pa 0
    update fun m => { m with spare := .empty pa }
    pure true

def unmapPage (t : Target) (doFree : Bool) (a : Nat) : Kern Unit := do
  match ← walk t a with
  | some (.leaf leaf) =>
    if doFree then kfree b leaf.pa else pure ()
    setPte t a .empty
  | _ => pure ()

def unmapLoop (t : Target) (doFree : Bool) : Nat → Nat → Kern Unit
  | 0, _ => pure ()
  | n + 1, a => do
    unmapPage b t doFree a
    unmapLoop t doFree n (a + 4096)

-- `va` and the end of the range are aligned, so the loop stops exactly there.
def uvmunmap (t : Target) (va npages : Nat) (doFree : Bool) : Kern Unit :=
  if va % 4096 ≠ 0 then panic .uvmunmapNotAligned
  else unmapLoop b t doFree ((u64 (va + u64 (npages * 4096)) - va) / 4096) va

-- A uint64 put into an int and passed on as a uint64.
def throughInt (n : Nat) : Nat :=
  if u32 n < 2 ^ 31 then u32 n else u32 n + (2 ^ 64 - 2 ^ 32)

def uvmdealloc (t : Target) (oldsz newsz : Nat) : Kern Nat := do
  if newsz ≥ oldsz then pure oldsz
  else
    if pgroundup newsz < pgroundup oldsz then
      uvmunmap b t (pgroundup newsz) (throughInt ((pgroundup oldsz - pgroundup newsz) / 4096)) true
    else pure ()
    pure newsz

def freeList : List Nat → Kern Unit
  | [] => pure ()
  | pa :: rest => do
    kfree b pa
    freeList rest

-- Afterwards the pointer to the table dangles; the model makes it null.
def freewalk (t : Target) : Kern Unit := do
  let pt := (← read).table t
  update fun m => m.setTable t (.empty 0)
  freeList b pt.freewalkOrder

def uvmfree (t : Target) (sz : Nat) : Kern Unit := do
  if sz > 0 then uvmunmap b t 0 (pgroundup sz / 4096) true else pure ()
  freewalk b t

def uvmclear (t : Target) (va : Nat) : Kern Unit := do
  match ← walk t va with
  | none => panic .uvmclear
  | some (.leaf leaf) => setPte t va (.leaf { leaf with flags := { leaf.flags with u := false } })
  | some .empty => pure ()

def procPagetable (trapframe : Nat) : Kern Bool := do
  if ← uvmcreate then
    if ← mappages .spare trampolineVa b.trampoline ⟨true, false, true, false⟩ then
      if ← mappages .spare trapframeVa trapframe ⟨true, true, false, false⟩ then pure true
      else
        uvmunmap b .spare trampolineVa 1 false
        uvmfree b .spare 0
        pure false
    else
      uvmfree b .spare 0
      pure false
  else pure false

def procFreepagetable (t : Target) (sz : Nat) : Kern Unit := do
  uvmunmap b t trampolineVa 1 false
  uvmunmap b t trapframeVa 1 false
  uvmfree b t sz

-- With an empty `writeBlocks` the disk has enough blocks for a page.
def writeSwap (ip : Inode) (src : Page) (off : Nat) : Kern (Option Nat) := do
  let m ← read
  let done := writei ip src off 4096 (m.writeBlocks.headD 5)
  update fun m => { m with
    proc := { m.proc with swapip := some done.2 }
    writeBlocks := m.writeBlocks.tail }
  pure done.1

-- The dirty branch of `try_evict_one`.
def swapOut (best pa : Nat) : Kern Bool := do
  let m ← read
  match m.proc.swapip with
  | none =>
    setkilled
    pure false
  | some ip =>
    match swapAllocSlot m.proc.swapBitmap with
    | none =>
      setkilled
      pure false
    | some (slot, bitmap) =>
      modifyProc fun p => { p with swapBitmap := bitmap }
      if (← writeSwap ip (m.mem pa) (slot * 4096)) = some 4096 then
        modifyProc fun p => { p with swapPages := p.swapPages + 1 }
        modifyMeta best fun e => { e with inSwap := true, slot := slot }
        pure true
      else
        modifyProc fun p => { p with swapBitmap := swapFreeSlot p.swapBitmap slot }
        pure false

-- The end of `try_evict_one`: unmap, free and keep the entry for a later swap-in.
def dropPage (best vaPg : Nat) : Kern Unit := do
  uvmunmap b .own vaPg 1 true
  modifyMeta best fun e => { e with resident := false, dirty := false }
  modifyProc fun p => { p with clockHand := (best + 1) % pgmetaSize }

def tryEvictOne : Kern Bool := do
  let p := (← read).proc
  let picked := selectVictim b.policy p.pgmeta p.pageSeqCtr p.clockHand
  modifyProc fun p => { p with pgmeta := picked.2 }
  match picked.1 with
  | none => pure false
  | some best =>
    let e := metaAt picked.2 best
    match ← walk .own e.va with
    | some (.leaf leaf) =>
      let saved ← if e.dirty || leaf.flags.w then swapOut best leaf.pa else pure true
      if saved then
        dropPage b best e.va
        pure true
      else pure false
    | _ =>
      modifyProc fun p => { p with pgmeta := pgmetaClear p.pgmeta best }
      pure false

def kallocOrEvict : Kern (Option Nat) := do
  match ← kalloc with
  | some pa => pure (some pa)
  | none => if ← tryEvictOne b then kalloc else pure none

-- What `uvmalloc` notes about a page it mapped.
def recordAlloc (a : Nat) (perm : Flags) : Kern Unit := do
  let made := pgmetaAlloc (← read).proc.pgmeta a
  modifyProc fun p => { p with pgmeta := made.1 }
  match made.2 with
  | none => pure ()
  | some i =>
    modifyProc fun p => { p with
      pgmeta := p.pgmeta.modify i fun e =>
        { e with resident := true, perm := perm, dirty := false, seq := p.pageSeqCtr }
      pageSeqCtr := u64 (p.pageSeqCtr + 1) }

-- From MAXVA on `mappages` panics, so `a` never wraps.
def allocLoop (t : Target) (start newsz : Nat) (perm : Flags) : Nat → Nat → Kern Nat
  | 0, _ => pure newsz
  | n + 1, a => do
    match ← kallocOrEvict b with
    | none =>
      let _ ← uvmdealloc b t a start
      pure 0
    | some pa =>
      memset pa 0
      if ← mappages t a pa perm then
        recordAlloc a perm
        allocLoop t start newsz perm n (a + 4096)
      else
        kfree b pa
        let _ ← uvmdealloc b t a start
        pure 0

def uvmalloc (t : Target) (oldsz newsz : Nat) (xperm : Flags) : Kern Nat :=
  if newsz < oldsz then pure oldsz
  else
    let start := pgroundup oldsz
    allocLoop b t start newsz (Flags.or ⟨true, false, false, true⟩ xperm)
      ((newsz - start + 4095) / 4096) start

end SystemsSuite.Paging
