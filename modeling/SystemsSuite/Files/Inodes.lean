import SystemsSuite.Lib.Fields
import SystemsSuite.Lib.Transition
import SystemsSuite.Files.Log
import SystemsSuite.Paging.Metadata

set_option autoImplicit false

namespace SystemsSuite.Files

open Lib
open Paging (bsize maxfile)

structure Superblock where
  size : Nat
  ninodes : Nat
  inodestart : Nat
  bmapstart : Nat

-- Every block as `bread` returns it.
abbrev Volume := Nat → Block

-- `m` bytes from `start` on.
def Block.fill (data : Block) (start m : Nat) (src : Nat → UInt8) : Block := fun k =>
  if start ≤ k ∧ k < start + m then src (k - start) else data k

def bpb : Nat := bsize * 8

def mask (bi : Nat) : UInt8 := UInt8.ofNat (1 <<< (bi % 8))

def bitOf (data : Block) (bi : Nat) : Bool := data (bi / 8) &&& mask bi != 0

def setBit (data : Block) (bi : Nat) : Block := Function.update data (bi / 8) (data (bi / 8) ||| mask bi)

def clearBit (data : Block) (bi : Nat) : Block := Function.update data (bi / 8) (data (bi / 8) &&& ~~~mask bi)

def ndirect : Nat := 12

def nindirect : Nat := bsize / 4

-- `struct dinode`; the numbers of its blocks are `addrs 0` to `addrs 12`.
structure Dinode where
  type : Nat
  major : Nat
  minor : Nat
  nlink : Nat
  size : Nat
  addrs : Nat → Nat

namespace Dinode

def zero : Dinode := ⟨0, 0, 0, 0, 0, fun _ => 0⟩

def setAddr (ip : Dinode) (i addr : Nat) : Dinode := { ip with addrs := Function.update ip.addrs i addr }

def bytes : Nat := 64

def decode (data : Block) (start : Nat) : Dinode where
  type := field data start 2
  major := field data (start + 2) 2
  minor := field data (start + 4) 2
  nlink := field data (start + 6) 2
  size := field data (start + 8) 4
  addrs i := if i < ndirect + 1 then field data (start + 12 + 4 * i) 4 else 0

def encode (ip : Dinode) (data : Block) (start : Nat) : Block :=
  let data := setField data start 2 ip.type
  let data := setField data (start + 2) 2 ip.major
  let data := setField data (start + 4) 2 ip.minor
  let data := setField data (start + 6) 2 ip.nlink
  let data := setField data (start + 8) 4 ip.size
  setFields data (start + 12) 4 ip.addrs (ndirect + 1)

end Dinode

def ipb : Nat := bsize / Dinode.bytes

-- What a call of `bmap` leaves.
structure Mapped where
  addr : Nat
  ip : Dinode
  volume : Volume

-- What the loop of `readi` leaves: how many bytes, or that a `copyout` failed, and the bytes.
structure Reading where
  count : Option Nat
  bytes : List UInt8
  ip : Dinode
  volume : Volume

-- What the loop of `writei` leaves; `stray` bytes of a `copyin` that failed are in the last buffer.
structure Writing where
  off : Nat
  tot : Nat
  stray : Nat
  ip : Dinode
  volume : Volume

namespace Superblock

variable (sb : Superblock)

def iblock (inum : Nat) : Nat := inum / ipb + sb.inodestart

def bblock (b : Nat) : Nat := b / bpb + sb.bmapstart

def marked (v : Volume) (b : Nat) : Bool := bitOf (v (sb.bblock b)) (b % bpb)

-- What `ilock` reads.
def dinode (v : Volume) (inum : Nat) : Dinode := .decode (v (sb.iblock inum)) (inum % ipb * Dinode.bytes)

def iupdate (v : Volume) (inum : Nat) (ip : Dinode) : Volume :=
  Function.update v (sb.iblock inum) (ip.encode (v (sb.iblock inum)) (inum % ipb * Dinode.bytes))

def balloc (v : Volume) : Nat × Volume :=
  match (List.range sb.size).find? fun b => !sb.marked v b with
  | some b =>
    let v := Function.update v (sb.bblock b) (setBit (v (sb.bblock b)) (b % bpb))
    (b, Function.update v b fun _ => 0)
  | none => (0, v)

-- `none` is the panic.
def bfree (v : Volume) (b : Nat) : Option Volume :=
  if sb.marked v b then some (Function.update v (sb.bblock b) (clearBit (v (sb.bblock b)) (b % bpb))) else none

-- An address in the inode, allocated when there is none.
def bmapAddr (v : Volume) (ip : Dinode) (i : Nat) : Mapped :=
  if ip.addrs i = 0 then
    let got := sb.balloc v
    if got.1 = 0 then ⟨0, ip, got.2⟩ else ⟨got.1, ip.setAddr i got.1, got.2⟩
  else ⟨ip.addrs i, ip, v⟩

def bmapEntry (v : Volume) (ip : Dinode) (top j : Nat) : Mapped :=
  if field (v top) (4 * j) 4 = 0 then
    let got := sb.balloc v
    if got.1 = 0 then ⟨0, ip, got.2⟩
    else ⟨got.1, ip, Function.update got.2 top (setField (got.2 top) (4 * j) 4 got.1)⟩
  else ⟨field (v top) (4 * j) 4, ip, v⟩

-- The address is 0 when there is no space; `none` is the panic.
def bmap (v : Volume) (ip : Dinode) (bn : Nat) : Option Mapped :=
  if bn < ndirect then some (sb.bmapAddr v ip bn)
  else if bn - ndirect < nindirect then
    let top := sb.bmapAddr v ip ndirect
    if top.addr = 0 then some top else some (sb.bmapEntry top.volume top.ip top.addr (bn - ndirect))
  else none

-- `copies` tells for each round whether its `copyout` succeeds; there are at most `fuel` rounds.
def readLoop (copies : Nat → Bool) (n : Nat) : Nat → Volume → Dinode → Nat → Nat → List UInt8 → Option Reading
  | 0, v, ip, _, tot, got => some ⟨some tot, got, ip, v⟩
  | fuel + 1, v, ip, off, tot, got =>
    if tot < n then
      (sb.bmap v ip (off / bsize)).bind fun place =>
        if place.addr = 0 then some ⟨some tot, got, place.ip, place.volume⟩
        else
          let m := min (n - tot) (bsize - off % bsize)
          if copies tot then
            readLoop copies n fuel place.volume place.ip (off + m) (tot + m)
              (got ++ (List.range m).map fun k => place.volume place.addr (off % bsize + k))
          else some ⟨none, got, place.ip, place.volume⟩
    else some ⟨some tot, got, ip, v⟩

def readi (v : Volume) (inum : Nat) (copies : Nat → Bool) (off n : Nat) : Option Reading :=
  let ip := sb.dinode v inum
  if off > ip.size ∨ u32 (off + n) < off then some ⟨some 0, [], ip, v⟩
  else
    let n := if off + n > ip.size then ip.size - off else n
    sb.readLoop copies n n v ip off 0 []

-- `fails` tells for each round whether its `copyin` fails, and then after how many bytes.
def writeLoop (src : Nat → UInt8) (fails : Nat → Option Nat) (n : Nat) :
    Nat → Volume → Dinode → Nat → Nat → Option Writing
  | 0, v, ip, off, tot => some ⟨off, tot, 0, ip, v⟩
  | fuel + 1, v, ip, off, tot =>
    if tot < n then
      (sb.bmap v ip (off / bsize)).bind fun place =>
        if place.addr = 0 then some ⟨off, tot, 0, place.ip, place.volume⟩
        else
          let m := min (n - tot) (bsize - off % bsize)
          let copied := fun m => Function.update place.volume place.addr
            ((place.volume place.addr).fill (off % bsize) m fun k => src (tot + k))
          match fails tot with
          | some some_ => some ⟨off, tot, min some_ m, place.ip, copied (min some_ m)⟩
          | none => writeLoop src fails n fuel (copied m) place.ip (off + m) (tot + m)
    else some ⟨off, tot, 0, ip, v⟩

-- The count is `none` for -1.
def writei (v : Volume) (inum : Nat) (src : Nat → UInt8) (fails : Nat → Option Nat) (off n : Nat) :
    Option (Option Nat × Nat × Volume) :=
  let ip := sb.dinode v inum
  if off > ip.size ∨ u32 (off + n) < off then some (none, 0, v)
  else if off + n > maxfile * bsize then some (none, 0, v)
  else
    (sb.writeLoop src fails n n v ip off 0).map fun got =>
      let ip := if got.off > got.ip.size then { got.ip with size := got.off } else got.ip
      (some got.tot, got.stray, sb.iupdate got.volume inum ip)

-- One round of the first loop of `itrunc`.
def freeAddr (i : Nat) (v : Volume) (ip : Dinode) : Option (Volume × Dinode) :=
  if ip.addrs i = 0 then some (v, ip) else (sb.bfree v (ip.addrs i)).map fun v => (v, ip.setAddr i 0)

def freeEntry (top j : Nat) (v : Volume) : Option Volume :=
  if field (v top) (4 * j) 4 = 0 then some v else sb.bfree v (field (v top) (4 * j) 4)

def itrunc (v : Volume) (inum : Nat) : Option (Volume × Dinode) :=
  ((List.range ndirect).foldlM (fun s i => sb.freeAddr i s.1 s.2) (v, sb.dinode v inum)).bind fun direct =>
    let top := direct.2.addrs ndirect
    let rest :=
      if top = 0 then some direct
      else
        (((List.range nindirect).foldlM (fun v j => sb.freeEntry top j v) direct.1).bind fun v => sb.bfree v top).map
          fun v => (v, direct.2.setAddr ndirect 0)
    rest.map fun left =>
      let ip := { left.2 with size := 0 }
      (sb.iupdate left.1 inum ip, ip)

-- What `iput` does with the last reference to an inode without links.
def ifree (v : Volume) (inum : Nat) : Option Volume :=
  (sb.itrunc v inum).map fun left => sb.iupdate left.1 inum { left.2 with type := 0 }

def ialloc (v : Volume) (type : Nat) : Nat × Volume :=
  match (List.range sb.ninodes).find? fun inum => decide (0 < inum ∧ (sb.dinode v inum).type = 0) with
  | some inum => (inum, sb.iupdate v inum { Dinode.zero with type := type })
  | none => (0, v)

end Superblock

-- A call on an inode, from its `ilock` to its `iunlock`.
inductive FileStep
  | create (type : Nat)
  | read (inum off n : Nat) (copies : Nat → Bool)
  | write (inum off n : Nat) (src : Nat → UInt8) (fails : Nat → Option Nat)
  | trunc (inum : Nat)
  | free (inum : Nat)

namespace FileStep

def inum : FileStep → Option Nat
  | .create _ => none
  | .read inum _ _ _ | .write inum _ _ _ _ | .trunc inum | .free inum => some inum

-- `none` is a panic.
def run (sb : Superblock) (v : Volume) : FileStep → Option Volume
  | .create type => some (sb.ialloc v type).2
  | .read inum off n copies => (sb.readi v inum copies off n).map fun got => got.volume
  | .write inum off n src fails => (sb.writei v inum src fails off n).map fun got => got.2.2
  | .trunc inum => (sb.itrunc v inum).map fun left => left.1
  | .free inum => sb.ifree v inum

end FileStep

end SystemsSuite.Files
