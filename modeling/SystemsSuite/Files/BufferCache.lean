import SystemsSuite.Files.Log

set_option autoImplicit false

namespace SystemsSuite.Files

open Lib

def nbuf : Nat := maxOpBlocks * 3

structure Buf where
  valid : Bool
  dev : Nat
  blockno : Nat
  locked : Bool
  refcnt : Nat
  data : Block

-- A call of `bread`, up to the end of its `brelse`; each has a reference to its buffer.
inductive Use
  | waiting (b : Nat)
  | locked (b : Nat)
  | holding (b : Nat)
  | leaving (b : Nat)
  deriving DecidableEq

namespace Use

def buf : Use → Nat
  | .waiting b | .locked b | .holding b | .leaving b => b

def locks : Use → Bool
  | .locked _ | .holding _ => true
  | .waiting _ | .leaving _ => false

end Use

def putBlock (blocks : Nat → Nat → Block) (dev blockno : Nat) (data : Block) : Nat → Nat → Block :=
  Function.update blocks dev (Function.update (blocks dev) blockno data)

-- `order` is the list from `head.next` to `head.prev`.
structure Cache where
  buf : Nat → Buf
  order : List Nat
  uses : List Use
  disk : Nat → Nat → Block

namespace Cache

def setBuf (c : Cache) (b : Nat) (x : Buf) : Cache := { c with buf := Function.update c.buf b x }

def setUse (c : Cache) (u : Nat) (use : Use) : Cache := { c with uses := c.uses.set u use }

def binit (disk : Nat → Nat → Block) : Cache where
  buf := fun _ => ⟨false, 0, 0, false, 0, fun _ => 0⟩
  order := (List.range nbuf).reverse
  uses := []
  disk := disk

def cached (c : Cache) (dev blockno : Nat) : Option Nat :=
  c.order.find? fun b => decide ((c.buf b).dev = dev ∧ (c.buf b).blockno = blockno)

def unused (c : Cache) : Option Nat := c.order.reverse.find? fun b => decide ((c.buf b).refcnt = 0)

-- What `bget` does with a buffer that it has found, up to its `acquiresleep`.
def share (c : Cache) (b : Nat) : Cache :=
  { c.setBuf b { c.buf b with refcnt := (c.buf b).refcnt + 1 } with uses := c.uses ++ [.waiting b] }

def recycle (c : Cache) (dev blockno b : Nat) : Cache :=
  { c.setBuf b { c.buf b with dev := dev, blockno := blockno, valid := false, refcnt := 1 } with
    uses := c.uses ++ [.waiting b] }

-- `none` is the panic.
def bget (c : Cache) (dev blockno : Nat) : Option Cache :=
  match c.cached dev blockno with
  | some b => some (c.share b)
  | none => (c.unused).map (c.recycle dev blockno)

-- `none` while the buffer is locked: the call sleeps.
def acquiresleep (c : Cache) (u b : Nat) : Option Cache :=
  if (c.buf b).locked then none else some ((c.setBuf b { c.buf b with locked := true }).setUse u (.locked b))

-- The rest of `bread`.
def fill (c : Cache) (u b : Nat) : Cache :=
  if (c.buf b).valid then c.setUse u (.holding b)
  else
    (c.setBuf b { c.buf b with data := c.disk (c.buf b).dev (c.buf b).blockno, valid := true }).setUse u (.holding b)

def modify (c : Cache) (b : Nat) (data : Block) : Cache := c.setBuf b { c.buf b with data := data }

def bwrite (c : Cache) (b : Nat) : Cache :=
  { c with disk := putBlock c.disk (c.buf b).dev (c.buf b).blockno (c.buf b).data }

-- The two parts of `brelse`.
def releasesleep (c : Cache) (u b : Nat) : Cache :=
  (c.setBuf b { c.buf b with locked := false }).setUse u (.leaving b)

def drop (c : Cache) (u b : Nat) : Cache :=
  { c.setBuf b { c.buf b with refcnt := (c.buf b).refcnt - 1 } with
    order := if (c.buf b).refcnt = 1 then b :: c.order.erase b else c.order
    uses := c.uses.eraseIdx u }

def bpin (c : Cache) (b : Nat) : Cache := c.setBuf b { c.buf b with refcnt := (c.buf b).refcnt + 1 }

def bunpin (c : Cache) (b : Nat) : Cache := c.setBuf b { c.buf b with refcnt := (c.buf b).refcnt - 1 }

end Cache

-- `u` names the call: its place among those that are under way.
inductive CacheStep
  | bget (dev blockno : Nat)
  | acquiresleep (u : Nat)
  | fill (u : Nat)
  | modify (u : Nat) (data : Block)
  | bwrite (u : Nat)
  | releasesleep (u : Nat)
  | drop (u : Nat)
  | bpin (u : Nat)
  | bunpin (u : Nat)

namespace Cache

-- The buffer of a call that has been returned by `bread`.
def held (c : Cache) (u : Nat) : Option Nat :=
  match c.uses[u]? with
  | some (.holding b) => some b
  | _ => none

def next (c : Cache) : CacheStep → Option Cache
  | .bget dev blockno => c.bget dev blockno
  | .acquiresleep u =>
    match c.uses[u]? with
    | some (.waiting b) => c.acquiresleep u b
    | _ => none
  | .fill u =>
    match c.uses[u]? with
    | some (.locked b) => some (c.fill u b)
    | _ => none
  | .modify u data => (c.held u).map fun b => c.modify b data
  | .bwrite u => (c.held u).map fun b => c.bwrite b
  | .releasesleep u => (c.held u).map fun b => c.releasesleep u b
  | .drop u =>
    match c.uses[u]? with
    | some (.leaving b) => some (c.drop u b)
    | _ => none
  | .bpin u => (c.held u).map fun b => c.bpin b
  | .bunpin u => (c.held u).map fun b => c.bunpin b

end Cache

def cacheSystem : System Cache CacheStep := System.ofNext (fun c => ∃ disk, c = .binit disk) Cache.next

-- `latest` has every block as it was last changed, and `asked` the blocks that the calls under way are for. Of
-- each buffer: whether it has been changed and not written, the references that `bpin` holds, and when a `brelse`
-- last left it without references.
structure Versions where
  latest : Nat → Nat → Block
  asked : List (Nat × Nat)
  dirty : Nat → Bool
  pins : Nat → Nat
  freed : Nat → Nat
  now : Nat

namespace Versions

def start (c : Cache) : Versions := ⟨c.disk, [], fun _ => false, fun _ => 0, fun _ => 0, 0⟩

def asks (g : Versions) (dev blockno : Nat) : Versions := { g with asked := g.asked ++ [(dev, blockno)] }

def changed (g : Versions) (x : Buf) (b : Nat) (data : Block) : Versions :=
  { g with latest := putBlock g.latest x.dev x.blockno data, dirty := Function.update g.dirty b true }

def written (g : Versions) (b : Nat) : Versions := { g with dirty := Function.update g.dirty b false }

def pinned (g : Versions) (b : Nat) : Versions := { g with pins := Function.update g.pins b (g.pins b + 1) }

def unpinned (g : Versions) (b : Nat) : Versions := { g with pins := Function.update g.pins b (g.pins b - 1) }

def dropped (g : Versions) (x : Buf) (u b : Nat) : Versions :=
  { g with
    asked := g.asked.eraseIdx u
    freed := if x.refcnt = 1 then Function.update g.freed b (g.now + 1) else g.freed
    now := if x.refcnt = 1 then g.now + 1 else g.now }

def note (g : Versions) (c : Cache) (l : CacheStep) (_ : Cache) : Versions :=
  match l with
  | .modify u data => (c.held u).elim g fun b => g.changed (c.buf b) b data
  | .bwrite u => (c.held u).elim g g.written
  | .bpin u => (c.held u).elim g g.pinned
  | .bunpin u => (c.held u).elim g g.unpinned
  | .drop u =>
    match c.uses[u]? with
    | some (.leaving b) => g.dropped (c.buf b) u b
    | _ => g
  | .bget dev blockno => g.asks dev blockno
  | .acquiresleep _ | .fill _ | .releasesleep _ => g

end Versions

-- Devices have numbers from 1 on; a buffer that has been changed is written or pinned before it is released;
-- a pin is given back once.
def Disciplines (c : Cache) (g : Versions) : CacheStep → Prop
  | .bget dev _ => dev ≠ 0
  | .releasesleep u => ∀ b, c.held u = some b → g.dirty b = true → 0 < g.pins b
  | .bunpin u => ∀ b, c.held u = some b → 0 < g.pins b
  | _ => True

def cacheRuns : System (Cache × Versions) CacheStep := cacheSystem.recorded Versions.start Versions.note

end SystemsSuite.Files
