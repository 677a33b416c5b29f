import SystemsSuite.Paging.Machine

set_option autoImplicit false

namespace SystemsSuite.Paging

open Lib Prog

-- `is_write`: 0 for a load, 1 for a store, -1 for an instruction fetch.
inductive Access
  | read
  | write
  | exec
  deriving DecidableEq, Repr

def Seg.stop (s : Seg) : Nat := u64 (s.va + s.memsz)

def Seg.covers (s : Seg) (vaPg : Nat) : Bool := decide (s.va ≤ vaPg ∧ vaPg < s.stop)

def Seg.flags (s : Seg) : Flags := ⟨true, s.permW, s.permX, true⟩

namespace Proc

def activeSegs (p : Proc) : List Seg := p.segs.take p.nsegs

def progEnd (p : Proc) : Nat := (p.activeSegs.map Seg.stop).foldl max 0

def segOf (p : Proc) (vaPg : Nat) : Option Seg := p.activeSegs.find? fun s => s.covers vaPg

def isStack (p : Proc) (vaPg : Nat) : Bool :=
  decide (vaPg = u64 (pgrounddown p.trapframe.sp + (2 ^ 64 - 4096)) ∧ vaPg < p.sz)

def isHeap (p : Proc) (vaPg : Nat) : Bool :=
  decide (p.progEnd ≤ vaPg ∧ vaPg < p.heapBrk ∧ vaPg < p.sz)

end Proc

variable (b : Build)

-- The page is mapped: the fault is about its permissions.
def upgrade (t : Target) (vaPg : Nat) (leaf : Leaf) (acc : Access) : Kern (Option Nat) := do
  let p := (← read).proc
  let seg := p.segOf vaPg
  let allowW := p.isHeap vaPg || p.isStack vaPg || (seg.map Seg.permW).getD false
  let allowX := (seg.map Seg.permX).getD false
  match acc with
  | .write =>
    if !leaf.flags.w && allowW then
      setPte t vaPg (.leaf { leaf with flags := { leaf.flags with w := true } })
      let made := pgmetaAlloc p.pgmeta vaPg
      modifyProc fun p => { p with pgmeta := made.1 }
      match made.2 with
      | none => pure (some leaf.pa)
      | some i =>
        modifyMeta i fun e => { e with dirty := true, referenced := true }
        pure (some leaf.pa)
    else pure none
  | .exec =>
    if !leaf.flags.x && allowX then
      setPte t vaPg (.leaf { leaf with flags := { leaf.flags with x := true } })
      pure (some leaf.pa)
    else pure none
  | .read => pure none

-- `readi` into the frame `pa`.
def readInto (ip : Inode) (pa off n : Nat) : Kern Nat := do
  let got := readi ip (u32 off) n
  update fun m => m.fill pa fun k => if k < got.1 then got.2 k else m.mem pa k
  pure got.1

def mapOrFree (t : Target) (vaPg pa : Nat) (perm : Flags) : Kern Bool := do
  if ← mappages t vaPg pa perm then pure true
  else
    kfree b pa
    pure false

def giveUp (pa : Nat) : Kern (Option Nat) := do
  kfree b pa
  pure none

def PageMeta.swapPerm (e : PageMeta) (seg : Seg) : Flags :=
  if e.perm = .none then seg.flags else e.perm

def swapIn (t : Target) (vaPg : Nat) (seg : Seg) (midx : Nat) : Kern (Option Nat) := do
  match ← kallocOrEvict b with
  | none => pure none
  | some pa =>
    let p := (← read).proc
    let e := metaAt p.pgmeta midx
    match p.swapip with
    | none => panic .ilock
    | some ip =>
      if (← readInto ip pa (e.slot * 4096) 4096) ≠ 4096 then giveUp b pa
      else
        if ← mapOrFree b t vaPg pa (e.swapPerm seg) then
          modifyMeta midx fun e => { e with
            resident := true, inSwap := false, slot := 0xffff, seq := p.pageSeqCtr, referenced := true }
          modifyProc fun p => { p with
            swapBitmap := swapFreeSlot p.swapBitmap e.slot
            swapPages := p.swapPages - 1
            pageSeqCtr := u64 (p.pageSeqCtr + 1) }
          pure (some pa)
        else pure none

-- A page that became resident and clean: its entry, if there is one, and the sequence counter.
def recordResident (midx : Option Nat) (perm : Flags) : Kern Unit := do
  match midx with
  | none => pure ()
  | some i =>
    let seq := (← read).proc.pageSeqCtr
    modifyMeta i fun e => { e with
      resident := true, perm := perm, dirty := false, referenced := true, seq := seq }
  modifyProc fun p => { p with pageSeqCtr := u64 (p.pageSeqCtr + 1) }

-- How many bytes of the page at `pageOff` in the segment come from the file.
def Seg.fileBytes (s : Seg) (pageOff : Nat) : Nat :=
  if pageOff < s.filesz then min (u32 (s.filesz - pageOff)) 4096 else 0

def Seg.fileOff (s : Seg) (pageOff : Nat) : Nat := u64 (s.off + pageOff)

-- Whether the file part of the page could be read in full.
def readSegment (seg : Seg) (execip : Inode) (pa pageOff : Nat) : Kern Bool := do
  if pageOff < seg.filesz then
    pure ((← readInto execip pa (seg.fileOff pageOff) (seg.fileBytes pageOff)) == seg.fileBytes pageOff)
  else pure true

def recordLoaded (vaPg : Nat) (midx : Option Nat) (perm : Flags) : Kern Unit := do
  match midx with
  | some i => recordResident (some i) perm
  | none =>
    let made := pgmetaAlloc (← read).proc.pgmeta vaPg
    modifyProc fun p => { p with pgmeta := made.1 }
    recordResident made.2 perm

def installPage (t : Target) (vaPg : Nat) (seg : Seg) (midx : Option Nat) (pa : Nat) :
    Kern (Option Nat) := do
  if ← mapOrFree b t vaPg pa seg.flags then
    recordLoaded vaPg midx seg.flags
    pure (some pa)
  else pure none

def loadPage (t : Target) (vaPg : Nat) (seg : Seg) (execip : Inode) (midx : Option Nat)
    (acc : Access) : Kern (Option Nat) := do
  match ← kallocOrEvict b with
  | none => pure none
  | some pa =>
    memset pa 0
    if ← readSegment seg execip pa (vaPg - seg.va) then
      if acc = .exec ∧ seg.permX = false then giveUp b pa
      else installPage b t vaPg seg midx pa
    else giveUp b pa

def zeroPage (t : Target) (vaPg : Nat) : Kern (Option Nat) := do
  let made := pgmetaAlloc (← read).proc.pgmeta vaPg
  modifyProc fun p => { p with pgmeta := made.1 }
  match ← kallocOrEvict b with
  | none => pure none
  | some pa =>
    memset pa 0
    if ← mapOrFree b t vaPg pa ⟨true, false, false, true⟩ then
      recordResident made.2 ⟨true, false, false, true⟩
      pure (some pa)
    else pure none

def vmfault (t : Target) (va : Nat) (acc : Access) : Kern (Option Nat) := do
  if va ≥ maxva then pure none
  else
    let vaPg := pgrounddown va
    let p := (← read).proc
    match ((← read).table t).leaf vaPg with
    | some leaf => upgrade t vaPg leaf acc
    | none =>
      match p.segOf vaPg with
      | some seg =>
        match p.execip with
        | none => pure none
        | some execip =>
          match pgmetaFind p.pgmeta vaPg with
          | some midx =>
            if (metaAt p.pgmeta midx).inSwap then swapIn b t vaPg seg midx
            else loadPage b t vaPg seg execip (some midx) acc
          | none => loadPage b t vaPg seg execip none acc
      | none =>
        if p.isHeap vaPg || p.isStack vaPg then zeroPage b t vaPg
        else pure none

-- The page-fault part of `usertrap`; a process marked killed exits before it returns to user mode.
def usertrapFault (va : Nat) (acc : Access) : Kern Unit := do
  match ← vmfault b .own va acc with
  | some _ => pure ()
  | none => setkilled

def Leaf.allows (leaf : Leaf) : Access → Bool
  | .read => leaf.flags.u && leaf.flags.r
  | .write => leaf.flags.u && leaf.flags.w
  | .exec => leaf.flags.u && leaf.flags.x

def Machine.translate (m : Machine) (va : Nat) (acc : Access) : Option Nat :=
  if va ≥ maxva then none
  else ((m.proc.pagetable.leaf va).filter fun leaf => leaf.allows acc).map Leaf.pa

def Machine.load (m : Machine) (va : Nat) : Option UInt8 :=
  (m.translate va .read).map fun pa => m.mem pa (va % 4096)

def Machine.storeByte (m : Machine) (pa off : Nat) (byte : UInt8) : Machine :=
  m.fill pa (Function.update (m.mem pa) off byte)

def Machine.store (m : Machine) (va : Nat) (byte : UInt8) : Option Machine :=
  (m.translate va .write).map fun pa => m.storeByte pa (va % 4096) byte

def walkaddr (t : Target) (va : Nat) : Kern (Option Nat) := do
  if va ≥ maxva then pure none
  else pure (((((← read).table t).leaf va).filter fun leaf => leaf.flags.u).map Leaf.pa)

def memmove (pa off : Nat) (src : List UInt8) : Kern Unit :=
  update fun m => m.fill pa fun k =>
    if off ≤ k ∧ k < off + src.length then src.getD (k - off) 0 else m.mem pa k

def walkaddrOrFault (t : Target) (va0 : Nat) : Kern (Option Nat) := do
  match ← walkaddr t va0 with
  | some pa0 => pure (some pa0)
  | none =>
    let _ ← vmfault b t va0 .write
    walkaddr t va0

-- Each round copies at least one byte, so the length bounds the rounds.
def copyoutLoop (t : Target) : Nat → Nat → List UInt8 → Kern Bool
  | 0, _, _ => pure true
  | rounds + 1, dstva, src => do
    if src = [] then pure true
    else
      let va0 := pgrounddown dstva
      if va0 ≥ maxva then pure false
      else
        match ← walkaddrOrFault b t va0 with
        | none => pure false
        | some pa0 =>
          match ((← read).table t).leaf va0 with
          | none => pure false
          | some leaf =>
            if leaf.flags.w = false then pure false
            else
              let n := min (4096 - (dstva - va0)) src.length
              memmove pa0 (dstva - va0) (src.take n)
              copyoutLoop t rounds (va0 + 4096) (src.drop n)

def copyout (t : Target) (dstva : Nat) (src : List UInt8) : Kern Bool :=
  copyoutLoop b t src.length dstva src

end SystemsSuite.Paging
