import SystemsSuite.Lib.RadixTree
import SystemsSuite.Lib.Words

set_option autoImplicit false

namespace SystemsSuite.Paging

open Lib

abbrev u64 (n : Nat) : Nat := n % 2 ^ 64

def pgroundup (sz : Nat) : Nat := u64 (sz + 4095) / 4096 * 4096
def pgrounddown (a : Nat) : Nat := a / 4096 * 4096

def maxva : Nat := 2 ^ 38
def trampolineVa : Nat := maxva - 4096
def trapframeVa : Nat := trampolineVa - 4096
def phystop : Nat := 0x80000000 + 128 * 1024 * 1024
def bsize : Nat := 1024
def maxfile : Nat := 12 + 1024 / 4
def userstack : Nat := 1
def maxarg : Nat := 32
def pgmetaSize : Nat := 1024
def swapSlots : Nat := 1024

-- A page holds one byte per offset; offsets from 4096 on are never looked at.
abbrev Page := Nat → UInt8

structure Flags where
  r : Bool
  w : Bool
  x : Bool
  u : Bool
  deriving DecidableEq, Repr

def Flags.none : Flags := ⟨false, false, false, false⟩

def Flags.or (a b : Flags) : Flags := ⟨a.r || b.r, a.w || b.w, a.x || b.x, a.u || b.u⟩

structure Leaf where
  pa : Nat
  flags : Flags
  deriving DecidableEq, Repr

instance pteCount_ne_zero : NeZero 512 := ⟨by decide⟩

abbrev Slots := Radix.Slots 512 Nat Leaf
abbrev PteSlot := Radix.Node 512 Nat Leaf 0

-- A page table: the frame of its root page and the tree below it. An interior PTE is empty or points to a table,
-- so the defensive checks for interior leaves have nothing to catch.
structure PageTable where
  pa : Nat
  entries : Slots 2

namespace PageTable

def empty (pa : Nat) : PageTable := ⟨pa, fun _ => .empty⟩

-- `walk(pagetable, va, 0)`: the digits of the page number are the indices PX(2), PX(1), PX(0).
def walk (pt : PageTable) (va : Nat) : Option PteSlot := Radix.find 2 pt.entries (va / 4096)

def leaf (pt : PageTable) (va : Nat) : Option Leaf := Radix.value 2 pt.entries (va / 4096)

def store (pt : PageTable) (va : Nat) (node : PteSlot) : PageTable :=
  { pt with entries := Radix.put 2 pt.entries (va / 4096) node }

-- The frames `freewalk` hands to `kfree`, in its order: stray user leaves, then the tables.
@[irreducible] def freewalkOrder (pt : PageTable) : List Nat :=
  Radix.release (fun leaf : Leaf => if leaf.flags.u then [leaf.pa] else []) 2 pt.entries ++ [pt.pa]

end PageTable

structure PageMeta where
  va : Nat
  seq : Nat
  resident : Bool
  dirty : Bool
  referenced : Bool
  inSwap : Bool
  slot : Nat
  perm : Flags
  deriving DecidableEq, Repr

def PageMeta.cleared : PageMeta := ⟨0, 0, false, false, false, false, 0xffff, .none⟩

def pgmetaFind (metas : List PageMeta) (vaPg : Nat) : Option Nat :=
  metas.findIdx? fun e => decide (e.va = vaPg)

-- The entry of `vaPg`, made in the first entry with va 0 if there is none.
def pgmetaAlloc (metas : List PageMeta) (vaPg : Nat) : List PageMeta × Option Nat :=
  match pgmetaFind metas vaPg with
  | some i => (metas, some i)
  | none =>
    match pgmetaFind metas 0 with
    | some i => (metas.set i { PageMeta.cleared with va := vaPg }, some i)
    | none => (metas, none)

def pgmetaClear (metas : List PageMeta) (i : Nat) : List PageMeta := metas.set i .cleared

def metaAt (metas : List PageMeta) (i : Nat) : PageMeta := metas.getD i .cleared

abbrev Bitmap := List (BitVec 8)

def slotBit (slot : Nat) : BitVec 8 := 1#8 <<< (slot % 8)

def slotUsed (bitmap : Bitmap) (slot : Nat) : Bool :=
  bitmap.getD (slot / 8) 0#8 &&& slotBit slot != 0#8

def swapAllocSlot (bitmap : Bitmap) : Option (Nat × Bitmap) :=
  ((List.range swapSlots).find? fun i => !slotUsed bitmap i).map fun i =>
    (i, bitmap.modify (i / 8) (· ||| slotBit i))

def swapFreeSlot (bitmap : Bitmap) (slot : Nat) : Bitmap :=
  if slot < swapSlots then bitmap.modify (slot / 8) (· &&& ~~~slotBit slot) else bitmap

structure Inode where
  inum : Nat
  size : Nat
  data : Nat → UInt8

-- The bytes read and how many there are; offsets and lengths are 32-bit.
def readi (ip : Inode) (off n : Nat) : Nat × (Nat → UInt8) :=
  if off > ip.size ∨ u32 (off + n) < off then (0, fun _ => 0)
  else (if off + n > ip.size then ip.size - off else n, fun k => ip.data (off + k))

def Inode.overwrite (ip : Inode) (off m : Nat) (src : Nat → UInt8) : Inode :=
  { ip with data := fun k => if off ≤ k ∧ k < off + m then src (k - off) else ip.data k }

-- The block loop of `writei`; `blocks` is how many more blocks `bmap` can provide.
def writeLoop (src : Nat → UInt8) (n : Nat) : Nat → Inode → Nat → Nat → Nat × Inode
  | 0, ip, off, tot => (tot, { ip with size := max ip.size off })
  | blocks + 1, ip, off, tot =>
    if tot < n then
      let m := min (n - tot) (bsize - off % bsize)
      writeLoop src n blocks (ip.overwrite off m fun k => src (tot + k)) (off + m) (tot + m)
    else (tot, { ip with size := max ip.size off })

def writei (ip : Inode) (src : Nat → UInt8) (off n blocks : Nat) : Option Nat × Inode :=
  if off > ip.size ∨ u32 (off + n) < off then (none, ip)
  else if off + n > maxfile * bsize then (none, ip)
  else
    let done := writeLoop src n blocks ip off 0
    (some done.1, done.2)

inductive Policy
  | fifo
  | clock
  deriving DecidableEq, Repr

def evictable (e : PageMeta) : Bool := e.va != 0 && e.resident

-- FIFO keeps the entry of the largest age `now - seq`, the first of equals.
def fifoScan (now : Nat) : Nat → List PageMeta → Option (Nat × Nat) → Option (Nat × Nat)
  | _, [], best => best
  | i, e :: rest, best =>
    let age := u64 (now + (2 ^ 64 - e.seq))
    let best' :=
      if evictable e && (best.map fun b => decide (age > b.2)).getD true then some (i, age) else best
    fifoScan now (i + 1) rest best'

-- CLOCK clears the referenced bits it passes; `left` entries remain until it is back at its start.
def clockScan : Nat → List PageMeta → Nat → Option Nat × List PageMeta
  | 0, metas, _ => (none, metas)
  | left + 1, metas, idx =>
    let e := metaAt metas idx
    if evictable e && !e.referenced then (some idx, metas)
    else
      let metas' := if evictable e then metas.set idx { e with referenced := false } else metas
      clockScan left metas' ((idx + 1) % pgmetaSize)

def selectVictim (policy : Policy) (metas : List PageMeta) (now hand : Nat) :
    Option Nat × List PageMeta :=
  match policy with
  | .fifo => ((fifoScan now 0 metas none).map Prod.fst, metas)
  | .clock => clockScan pgmetaSize metas (hand % pgmetaSize)

end SystemsSuite.Paging
