import SystemsSuite.Paging.Exec

set_option autoImplicit false

namespace SystemsSuite.Paging

open Lib Prog

variable (b : Build)

-- The fields of the child that `uvmcopy` writes.
structure Copied where
  pgmeta : List PageMeta
  pageSeqCtr : Nat

def Copied.record (c : Copied) (i : Nat) (flags : Flags) : Copied :=
  let made := pgmetaAlloc c.pgmeta i
  match made.2 with
  | none => ⟨made.1, c.pageSeqCtr⟩
  | some midx =>
    ⟨made.1.modify midx fun e =>
        { e with resident := true, perm := flags, dirty := false, referenced := true, seq := c.pageSeqCtr },
      u64 (c.pageSeqCtr + 1)⟩

-- `memmove(mem, pa, PGSIZE)`; the two may be the same frame.
def copyPage (mem pa : Nat) : Kern Unit := update fun m => m.fill mem (m.mem pa)

def copyFailed (i : Nat) : Kern (Option Copied) := do
  uvmunmap b .spare 0 (i / 4096) true
  pure none

def copyLoop : Nat → Nat → Copied → Kern (Option Copied)
  | 0, _, c => pure (some c)
  | n + 1, i, c => do
    match ← walk .own i with
    | some (.leaf leaf) =>
      match ← kallocOrEvict b with
      | none => copyFailed b i
      | some mem =>
        copyPage mem leaf.pa
        if ← mappages .spare i mem leaf.flags then
          copyLoop n (i + 4096) (c.record i leaf.flags)
        else
          kfree b mem
          copyFailed b i
    | _ => copyLoop n (i + 4096) c

def uvmcopy (sz : Nat) (child : Copied) : Kern (Option Copied) :=
  copyLoop b ((sz + 4095) / 4096) 0 child

-- A free process slot gets a trapframe, a page table and the demand paging defaults.
def allocproc : Kern (Option Nat) := do
  match ← kalloc with
  | none => pure none
  | some trapframe =>
    if ← procPagetable b trapframe then pure (some trapframe)
    else
      kfree b trapframe
      pure none

def Copied.initial : Copied := ⟨List.replicate pgmetaSize .cleared, 1⟩

def noSeg : Seg := ⟨0, 0, 0, 0, false, false⟩

-- The child of a successful copy; entries of its segment array from `nsegs` on are never read.
def childOf (p : Proc) (pagetable : PageTable) (trapframe : Nat) (copied : Copied)
    (created : Option Nat) : Proc where
  killed := false
  sz := p.sz
  pagetable := pagetable
  trapframe := { p.trapframe with pa := trapframe }
  heapBrk := p.heapBrk
  execip := p.execip
  nsegs := p.nsegs
  segs := p.activeSegs ++ List.replicate (16 - p.nsegs) noSeg
  pageSeqCtr := 1
  swapip := created.map fun inum => ⟨inum, 0, fun _ => 0⟩
  swapPages := 0
  swapBitmap := List.replicate 128 0#8
  pgmeta := copied.pgmeta
  clockHand := 0

-- The child, or none for the result -1; `created` is as in `procSwapon`.
def kfork (created : Option Nat) : Kern (Option Proc) := do
  match ← allocproc b with
  | none => pure none
  | some trapframe =>
    match ← uvmcopy b (← read).proc.sz .initial with
    | none =>
      kfree b trapframe
      procFreepagetable b .spare 0
      pure none
    | some copied =>
      let m ← read
      update fun m => { m with spare := .empty 0 }
      pure (some (childOf m.proc m.spare trapframe copied created))

-- `freeproc` of a process that has exited, run by its parent or by a failed `kfork`.
def freeproc : Kern Unit := do
  let p := (← read).proc
  kfree b p.trapframe.pa
  modifyProc fun p => { p with trapframe := { p.trapframe with pa := 0 } }
  procFreepagetable b .own p.sz

end SystemsSuite.Paging
