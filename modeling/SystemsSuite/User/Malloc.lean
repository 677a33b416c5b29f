import SystemsSuite.Lib.Chains
import SystemsSuite.Lib.Transition
import SystemsSuite.Lib.Words

set_option autoImplicit false

namespace SystemsSuite.User

open Lib

-- `sizeof(Header)`; the size of a block is in headers, its own included.
def headerSize : Nat := 16

structure Header where
  ptr : Nat
  size : Nat

-- The headers in the memory of the process, the free list's `freep`, and the end of the memory.
structure Heap where
  mem : Nat → Header
  freep : Nat
  brk : Nat

namespace Heap

def setPtr (h : Heap) (p ptr : Nat) : Heap :=
  { h with mem := Function.update h.mem p { h.mem p with ptr := ptr } }

def setSize (h : Heap) (p size : Nat) : Heap :=
  { h with mem := Function.update h.mem p { h.mem p with size := size } }

-- The loop of `free`; each loop here ends without a result when it is out of fuel.
def findPlace (h : Heap) (bp : Nat) : Nat → Nat → Option Nat
  | 0, _ => none
  | fuel + 1, p =>
    let q := (h.mem p).ptr
    if p < bp ∧ bp < q then some p
    else if q ≤ p ∧ (p < bp ∨ bp < q) then some p
    else findPlace h bp fuel q

def joinUp (h : Heap) (p bp : Nat) : Heap :=
  let q := (h.mem p).ptr
  if bp + headerSize * (h.mem bp).size = q then
    let h := h.setSize bp (u32 ((h.mem bp).size + (h.mem q).size))
    h.setPtr bp (h.mem q).ptr
  else h.setPtr bp q

def joinDown (h : Heap) (p bp : Nat) : Heap :=
  if p + headerSize * (h.mem p).size = bp then
    let h := h.setSize p (u32 ((h.mem p).size + (h.mem bp).size))
    h.setPtr p (h.mem bp).ptr
  else h.setPtr p bp

def free (fuel : Nat) (h : Heap) (ap : Nat) : Option Heap :=
  let bp := ap - headerSize
  (h.findPlace bp fuel h.freep).map fun p => { (h.joinUp p bp).joinDown p bp with freep := p }

-- The argument of `sbrk` is an `int`.
def sbrkArg (n : Nat) : Int := (BitVec.ofNat 32 n).toInt

-- `grants` says for each end of the memory whether the kernel moves it.
def morecore (grants : Nat → Bool) (fuel : Nat) (h : Heap) (nu : Nat) : Option (Heap × Nat) :=
  let nu := if nu < 4096 then 4096 else nu
  if grants h.brk then
    let hp := h.brk
    let h := { h with brk := (h.brk + sbrkArg (nu * headerSize)).toNat }
    ((h.setSize hp nu).free fuel (hp + headerSize)).map fun h => (h, h.freep)
  else some (h, 0)

-- What is done with the block at `p`, which `prevp` points to.
def take (h : Heap) (nunits prevp p : Nat) : Heap × Nat :=
  if (h.mem p).size = nunits then ({ h.setPtr prevp (h.mem p).ptr with freep := prevp }, p + headerSize)
  else
    let h := h.setSize p ((h.mem p).size - nunits)
    let p := p + headerSize * (h.mem p).size
    ({ h.setSize p nunits with freep := prevp }, p + headerSize)

def mallocLoop (grants : Nat → Bool) (nunits : Nat) : Nat → Heap → Nat → Nat → Option (Heap × Nat)
  | 0, _, _, _ => none
  | fuel + 1, h, prevp, p =>
    if nunits ≤ (h.mem p).size then some (h.take nunits prevp p)
    else if p = h.freep then
      (h.morecore grants fuel nunits).bind fun got =>
        if got.2 = 0 then some (got.1, 0)
        else mallocLoop grants nunits fuel got.1 got.2 (got.1.mem got.2).ptr
    else mallocLoop grants nunits fuel h p (h.mem p).ptr

def nunitsOf (nbytes : Nat) : Nat := (nbytes + headerSize - 1) / headerSize + 1

-- `base` is the address of the static header.
def malloc (base : Nat) (grants : Nat → Bool) (fuel : Nat) (h : Heap) (nbytes : Nat) : Option (Heap × Nat) :=
  if h.freep = 0 then
    let h := { (h.setPtr base base).setSize base 0 with freep := base }
    mallocLoop grants (nunitsOf nbytes) fuel h base (h.mem base).ptr
  else mallocLoop grants (nunitsOf nbytes) fuel h h.freep (h.mem h.freep).ptr

end Heap

-- What a process can do: also move the end of its memory up itself, and write to what it has.
inductive HeapStep
  | malloc (nbytes : Nat) (grants : Nat → Bool) (ap : Nat)
  | free (ap : Nat)
  | sbrk (n : Nat)
  | store (a : Nat) (value : Header)

def HeapStep.Does (base : Nat) (h : Heap) : HeapStep → Heap → Prop
  | .malloc nbytes grants ap, h' => ∃ fuel, h.malloc base grants fuel nbytes = some (h', ap)
  | .free ap, h' => ∃ fuel, h.free fuel ap = some h'
  | .sbrk n, h' => h' = { h with brk := h.brk + n }
  | .store a value, h' => h' = { h with mem := Function.update h.mem a value }

def heapSystem (base : Nat) : System Heap HeapStep where
  initial h := h.freep = 0 ∧ 0 < base ∧ base + headerSize ≤ h.brk
  step h l h' := l.Does base h h'

abbrev Extent := Nat × Nat

def Extent.stop (b : Extent) : Nat := b.1 + headerSize * b.2

-- The blocks the process has, and how many headers' worth of memory `morecore` has got.
structure Holding where
  live : List Extent
  obtained : Nat

def Holding.note (g : Holding) (h : Heap) (l : HeapStep) (h' : Heap) : Holding :=
  match l with
  | .malloc nbytes _ ap =>
    let obtained := g.obtained + (h'.brk - h.brk) / headerSize
    if ap = 0 then ⟨g.live, obtained⟩ else ⟨(ap - headerSize, Heap.nunitsOf nbytes) :: g.live, obtained⟩
  | .free ap => { g with live := g.live.eraseP fun b => decide (b.1 = ap - headerSize) }
  | .sbrk _ | .store _ _ => g

def heapRuns (base : Nat) : System (Heap × Holding) HeapStep :=
  (heapSystem base).recorded (fun _ => ⟨[], 0⟩) Holding.note

-- Requests whose size `sbrk` can be told, in a memory that a `uint` of headers can measure; `free` of what
-- `malloc` returned; writes inside the blocks.
def Proper (h : Heap) (g : Holding) : HeapStep → Prop
  | .malloc nbytes _ _ => nbytes + 32 ≤ 2 ^ 31 ∧ h.brk + 2 ^ 31 ≤ 2 ^ 36
  | .free ap => ∃ b ∈ g.live, ap = b.1 + headerSize
  | .sbrk _ => True
  | .store a _ => ∃ b ∈ g.live, b.1 + headerSize ≤ a ∧ a + headerSize ≤ Extent.stop b

end SystemsSuite.User
