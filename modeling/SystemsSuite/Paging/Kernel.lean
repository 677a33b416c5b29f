import SystemsSuite.Lib.Transition
import SystemsSuite.Paging.Fork

set_option autoImplicit false

namespace SystemsSuite.Paging

open Lib Prog

-- All processes and the memory they share; the label of a step says who runs.
structure Kernel where
  freelist : List Nat
  mem : Nat → Page
  procs : List Proc
  refreed : Bool

def Proc.unused : Proc where
  killed := false
  sz := 0
  pagetable := .empty 0
  trapframe := ⟨0, 0, 0, 0⟩
  heapBrk := 0
  execip := none
  nsegs := 0
  segs := List.replicate 16 noSeg
  pageSeqCtr := 1
  swapip := none
  swapPages := 0
  swapBitmap := List.replicate 128 0#8
  pgmeta := List.replicate pgmetaSize .cleared
  clockHand := 0

-- What a process can have the kernel do to its own memory. `setSize` and `setBrk` are the
-- assignments to `p->sz` in `growproc` and `sys_sbrk` and to `p->heap_brk` in `sys_sbrk`, and `setSp`
-- is a change of the user stack pointer.
inductive Call
  | uvmalloc (oldsz newsz : Nat) (xperm : Flags)
  | uvmdealloc (oldsz newsz : Nat)
  | setSize (sz : Nat)
  | setBrk (heapBrk : Nat)
  | setSp (sp : Nat)
  | vmfault (va : Nat) (acc : Access)
  | tryEvictOne
  | kexec (file : Option Inode) (argv : List (List UInt8)) (created : Option Nat)

inductive Step
  | call (call : Call)
  | kfork (created : Option Nat)
  | freeproc

inductive Label
  | userinit
  | run (i : Nat) (writeBlocks : List Nat) (step : Step)

variable (b : Build)

def Call.run : Call → Kern Unit
  | .uvmalloc oldsz newsz xperm => do
    let _ ← Paging.uvmalloc b .own oldsz newsz xperm
    pure ()
  | .uvmdealloc oldsz newsz => do
    let _ ← Paging.uvmdealloc b .own oldsz newsz
    pure ()
  | .setSize sz => modifyProc fun p => { p with sz := sz }
  | .setBrk heapBrk => modifyProc fun p => { p with heapBrk := heapBrk }
  | .setSp sp => modifyProc fun p => { p with trapframe := { p.trapframe with sp := sp } }
  | .vmfault va acc => usertrapFault b va acc
  | .tryEvictOne => do
    let _ ← Paging.tryEvictOne b
    pure ()
  | .kexec file argv created => do
    let _ ← Paging.kexec b file argv created
    pure ()

namespace Kernel

def machine (k : Kernel) (p : Proc) (writeBlocks : List Nat) : Machine :=
  ⟨k.freelist, k.mem, p, .empty 0, writeBlocks, k.refreed⟩

def after (m : Machine) (procs : List Proc) : Kernel := ⟨m.freelist, m.mem, procs, m.refreed⟩

-- A panic stops the machine: the step has no successor.
def finish {α : Type} (result : Except Panic (α × Machine)) (procs : α → Machine → List Proc) :
    Option Kernel :=
  match result with
  | .ok (a, m) => some (after m (procs a m))
  | .error _ => none

theorem finish_holds {α : Type} {prog : Kern α} {m : Machine} {procs : α → Machine → List Proc}
    {I : Kernel → Prop} {k' : Kernel}
    (holds : wp prog (fun a m' => I (after m' (procs a m'))) (fun _ => True) m) (ran : finish (prog m) procs = some k') :
    I k' := by
  unfold finish at ran
  split at ran
  · next result =>
    obtain rfl := Option.some.inj ran
    exact wp_ok (Q := fun a m' => I (after m' (procs a m'))) holds result
  · contradiction

-- `allocproc` for the first process; its memory comes from the `kexec` it starts with.
def userinit (k : Kernel) : Option Kernel :=
  finish (allocproc b (k.machine .unused [])) fun r m =>
    k.procs ++ r.toList.map fun trapframe =>
      { Proc.unused with pagetable := m.spare, trapframe := ⟨trapframe, 0, 0, 0⟩ }

def runStep (k : Kernel) (i : Nat) (m : Machine) : Step → Option Kernel
  | .call call => finish (call.run b m) fun _ m => k.procs.set i m.proc
  | .kfork created => finish (Paging.kfork b created m) fun child m =>
      k.procs.set i m.proc ++ child.toList
  | .freeproc => finish (Paging.freeproc b m) fun _ _ => k.procs.eraseIdx i

def next (k : Kernel) : Label → Option Kernel
  | .userinit => k.userinit b
  | .run i writeBlocks step =>
    match k.procs[i]? with
    | none => none
    | some p => k.runStep b i (k.machine p writeBlocks) step

-- After `kinit`: no processes yet, every frame on the free list at most once.
def AtBoot (k : Kernel) : Prop :=
  k.procs = [] ∧ k.freelist.Nodup ∧ (∀ f ∈ k.freelist, b.isFrame f = true) ∧ k.refreed = false

def system : System Kernel Label := System.ofNext (AtBoot b) (next b)

end Kernel

def Proghdr.encode (ph : Proghdr) : List UInt8 :=
  bytesOf ph.type 4 ++ bytesOf ph.flags 4 ++ bytesOf ph.off 8 ++ bytesOf ph.vaddr 8 ++ bytesOf 0 8 ++
    bytesOf ph.filesz 8 ++ bytesOf ph.memsz 8 ++ bytesOf 0 8

def Elfhdr.encode (elf : Elfhdr) : List UInt8 :=
  bytesOf elf.magic 4 ++ List.replicate 20 0 ++ bytesOf elf.entry 8 ++ bytesOf elf.phoff 8 ++
    List.replicate 16 0 ++ bytesOf elf.phnum 2 ++ List.replicate 6 0

def bytesAt (bytes : List UInt8) (k : Nat) : UInt8 := bytes.getD k 0

-- A file with the given program headers right after the ELF header, then `body`.
def elfFile (inum : Nat) (headers : List Proghdr) (body : List UInt8) : Inode :=
  let bytes := (Elfhdr.mk elfMagic 0 elfhdrSize headers.length).encode ++
    headers.flatMap Proghdr.encode ++ body
  ⟨inum, bytes.length, bytesAt bytes⟩

def Build.small : Build := ⟨0x80100000, 0x80001000, .fifo, by decide⟩

def frames (n : Nat) : List Nat := (List.range n).map fun i => 0x80100000 + i * 4096

def Kernel.boot (n : Nat) : Kernel := ⟨frames n, fun _ _ => 0, [], false⟩

end SystemsSuite.Paging
