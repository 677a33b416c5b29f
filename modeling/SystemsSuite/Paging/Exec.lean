import SystemsSuite.Paging.Fault

set_option autoImplicit false

namespace SystemsSuite.Paging

open Lib Prog

-- Little-endian number of `width` bytes.
def littleEndian (bytes : Nat → UInt8) (start : Nat) : Nat → Nat
  | 0 => 0
  | width + 1 => (bytes start).toNat + 256 * littleEndian bytes (start + 1) width

def elfMagic : Nat := 0x464C457F

structure Elfhdr where
  magic : Nat
  entry : Nat
  phoff : Nat
  phnum : Nat
  deriving DecidableEq, Repr

def elfhdrSize : Nat := 64

def Elfhdr.decode (bytes : Nat → UInt8) : Elfhdr where
  magic := littleEndian bytes 0 4
  entry := littleEndian bytes 24 8
  phoff := littleEndian bytes 32 8
  phnum := littleEndian bytes 56 2

structure Proghdr where
  type : Nat
  flags : Nat
  off : Nat
  vaddr : Nat
  filesz : Nat
  memsz : Nat
  deriving DecidableEq, Repr

def proghdrSize : Nat := 56

def Proghdr.decode (bytes : Nat → UInt8) : Proghdr where
  type := littleEndian bytes 0 4
  flags := littleEndian bytes 4 4
  off := littleEndian bytes 8 8
  vaddr := littleEndian bytes 16 8
  filesz := littleEndian bytes 32 8
  memsz := littleEndian bytes 40 8

def elfProgLoad : Nat := 1

def Proghdr.stop (ph : Proghdr) : Nat := u64 (ph.vaddr + ph.memsz)

def Proghdr.valid (ph : Proghdr) : Bool :=
  decide (ph.filesz ≤ ph.memsz ∧ ph.vaddr ≤ ph.stop ∧ ph.vaddr % 4096 = 0)

-- `p->segs[i].off` is 32 bits wide; the permissions are those of `flags2perm`.
def Proghdr.seg (ph : Proghdr) : Seg where
  va := ph.vaddr
  memsz := ph.memsz
  filesz := ph.filesz
  off := u32 ph.off
  permW := ph.flags.testBit 1
  permX := ph.flags.testBit 0

-- The header at `off` of the file, if the file has all of it.
def readProghdr (ip : Inode) (off : Nat) : Option Proghdr :=
  let got := readi ip off proghdrSize
  if got.1 = proghdrSize then some (.decode got.2) else none

def readElfhdr (ip : Inode) : Option Elfhdr :=
  let got := readi ip 0 elfhdrSize
  if got.1 = elfhdrSize ∧ (Elfhdr.decode got.2).magic = elfMagic then some (.decode got.2) else none

-- What the loop over the program headers changes: `p->nsegs`, `p->segs` and `sz`.
structure Scan where
  nsegs : Nat
  segs : List Seg
  sz : Nat

def Scan.record (s : Scan) (ph : Proghdr) : Scan where
  nsegs := if s.nsegs < 16 then s.nsegs + 1 else s.nsegs
  segs := if s.nsegs < 16 then s.segs.set s.nsegs ph.seg else s.segs
  sz := max s.sz ph.stop

-- The loop, and whether it ends without `goto bad`. `off` is an int read as a uint.
def scanHeaders (ip : Inode) : Nat → Nat → Scan → Bool × Scan
  | 0, _, s => (true, s)
  | n + 1, off, s =>
    match readProghdr ip off with
    | none => (false, s)
    | some ph =>
      if ph.type ≠ elfProgLoad then scanHeaders ip n (u32 (off + proghdrSize)) s
      else if ph.valid then scanHeaders ip n (u32 (off + proghdrSize)) (s.record ph)
      else (false, s)

def Elfhdr.scan (elf : Elfhdr) (ip : Inode) (segs : List Seg) : Bool × Scan :=
  scanHeaders ip elf.phnum (u32 elf.phoff) ⟨0, segs, 0⟩

@[irreducible] def sub64 (x y : Nat) : Nat := u64 (x + (2 ^ 64 - y))

def bytesOf (n : Nat) : Nat → List UInt8
  | 0 => []
  | width + 1 => UInt8.ofNat (n % 256) :: bytesOf (n / 256) width

def align16 (sp : Nat) : Nat := sp - sp % 16

variable (b : Build)

-- The argument loop from argument `argc` on: the new `sp` and `ustack`, or none at `goto bad`.
def pushArgs (t : Target) (stackbase : Nat) :
    List (List UInt8) → Nat → Nat → List Nat → Kern (Option (Nat × List Nat))
  | [], _, sp, ustack => pure (some (sp, ustack))
  | arg :: rest, argc, sp, ustack => do
    if argc ≥ maxarg then pure none
    else
      let sp' := align16 (sub64 sp (arg.length + 1))
      if sp' < stackbase then pure none
      else if ← copyout b t sp' (arg ++ [0]) then
        pushArgs t stackbase rest (argc + 1) sp' (ustack ++ [sp'])
      else pure none

-- Strings, then the array of pointers to them with its null.
def pushStack (t : Target) (sp stackbase : Nat) (argv : List (List UInt8)) : Kern (Option Nat) := do
  match ← pushArgs b t stackbase argv 0 sp [] with
  | none => pure none
  | some pushed =>
    let sp' := align16 (sub64 pushed.1 ((argv.length + 1) * 8))
    if sp' < stackbase then pure none
    else if ← copyout b t sp' ((pushed.2 ++ [0]).flatMap fun p => bytesOf p 8) then pure (some sp')
    else pure none

-- A created or truncated swap file is empty; `created` is its inode number, none if that failed.
def procSwapon (created : Option Nat) : Kern Unit :=
  modifyProc fun p => { p with
    swapip := p.swapip.or (created.map fun inum => ⟨inum, 0, fun _ => 0⟩) }

def resetSwapMeta : Kern Unit :=
  modifyProc fun p => { p with
    swapBitmap := List.replicate 128 0#8
    swapPages := 0
    pgmeta := List.replicate pgmetaSize .cleared
    clockHand := 0 }

def commitImage (elf : Elfhdr) (sz sp oldsz : Nat) (created : Option Nat) : Kern Unit := do
  update fun m => { m with
    spare := m.proc.pagetable
    proc := { m.proc with
      pagetable := m.spare
      sz := sz
      trapframe := { m.proc.trapframe with a1 := sp, epc := elf.entry, sp := sp }
      heapBrk := sub64 sz 8192
      pageSeqCtr := 1 } }
  procFreepagetable b .spare oldsz
  resetSwapMeta
  procSwapon created

def execBad (sz : Nat) : Kern (Option Nat) := do
  procFreepagetable b .spare sz
  pure none

-- Guard and stack page, arguments and commit; `sz` covers the segments.
def buildStack (elf : Elfhdr) (argv : List (List UInt8)) (created : Option Nat) (sz : Nat) :
    Kern (Option Nat) := do
  let oldsz := (← read).proc.sz
  let sz1 ← uvmalloc b .spare sz (u64 (sz + (userstack + 1) * 4096)) ⟨false, true, false, false⟩
  if sz1 = 0 then execBad b sz
  else
    uvmclear .spare (sub64 sz1 ((userstack + 1) * 4096))
    match ← pushStack b .spare sz1 (sub64 sz1 (userstack * 4096)) argv with
    | none => execBad b sz1
    | some sp =>
      commitImage b elf sz1 sp oldsz created
      pure (some argv.length)

-- `file` is what `namei(path)` finds; the result is argc, or none for -1.
def kexec (file : Option Inode) (argv : List (List UInt8)) (created : Option Nat) :
    Kern (Option Nat) := do
  match file with
  | none => pure none
  | some ip =>
    match readElfhdr ip with
    | none => pure none
    | some elf =>
      if ← procPagetable b (← read).proc.trapframe.pa then
        let scan := elf.scan ip (← read).proc.segs
        modifyProc fun p => { p with execip := some ip, nsegs := scan.2.nsegs, segs := scan.2.segs }
        if scan.1 then buildStack b elf argv created (pgroundup scan.2.sz)
        else execBad b scan.2.sz
      else pure none

end SystemsSuite.Paging
