import SystemsSuite.Lib.Fields
import SystemsSuite.Lib.Transition

set_option autoImplicit false

namespace SystemsSuite.Files

open Lib

abbrev Block := Nat → UInt8

def maxOpBlocks : Nat := 10

def logBlocks : Nat := maxOpBlocks * 3

-- `n` and `block[0..n)` of a `struct logheader`; a loop up to a negative `n` has no rounds.
def headerCount (data : Block) : Nat := if field data 0 4 < 2 ^ 31 then field data 0 4 else 0

def readHead (data : Block) : List Nat := (List.range (headerCount data)).map fun i => field data (4 + 4 * i) 4

def putEntries (data : Block) : Nat → List Nat → Block
  | _, [] => data
  | i, blockno :: rest => putEntries (setField data (4 + 4 * i) 4 blockno) (i + 1) rest

-- The entries behind the last one stay what they were.
def writeHead (data : Block) (header : List Nat) : Block := putEntries (setField data 0 4 header.length) 0 header

-- Where the kernel is in `commit`, and after a restart in `recover_from_log`.
inductive Stage
  | idle
  | writeLog (tail : Nat)
  | writeHead
  | install (tail : Nat)
  | eraseHead
  | finish
  | boot
  | recover (tail : Nat)
  | clearHead
  deriving DecidableEq

-- The disk, the buffer cache and `struct log`. `pins` are the references that `bpin` holds, and `header` is
-- `lh.block[0..lh.n)`; a buffer without a reference can be recycled at any time.
structure Fs where
  disk : Nat → Block
  cached : Nat → Option Block
  pins : Nat → Nat
  outstanding : Nat
  committing : Bool
  header : List Nat
  stage : Stage

namespace Fs

-- What `bread` returns.
def block (s : Fs) (blockno : Nat) : Block := (s.cached blockno).getD (s.disk blockno)

def bread (s : Fs) (blockno : Nat) : Fs :=
  { s with cached := Function.update s.cached blockno (some (s.block blockno)) }

def modify (s : Fs) (blockno : Nat) (data : Block) : Fs :=
  { s with cached := Function.update s.cached blockno (some data) }

def bwrite (s : Fs) (blockno : Nat) (data : Block) : Fs :=
  { s.modify blockno data with disk := Function.update s.disk blockno data }

def bpin (s : Fs) (blockno : Nat) : Fs :=
  { s with pins := Function.update s.pins blockno (s.pins blockno + 1) }

def bunpin (s : Fs) (blockno : Nat) : Fs :=
  { s with pins := Function.update s.pins blockno (s.pins blockno - 1) }

-- `log_write` of a buffer whose new contents are `data`.
def logWrite (s : Fs) (blockno : Nat) (data : Block) : Fs :=
  if s.header.contains blockno then s.modify blockno data
  else { (s.modify blockno data).bpin blockno with header := s.header ++ [blockno] }

-- Whether one more operation may need more than the log has.
def full (s : Fs) : Bool := decide (logBlocks < s.header.length + (s.outstanding + 1) * maxOpBlocks)

variable (start : Nat)

-- One round of `write_log`.
def writeLogBlock (s : Fs) (tail blockno : Nat) : Fs :=
  (s.bread blockno).bwrite (start + tail + 1) (s.block blockno)

def writeHeader (s : Fs) : Fs := s.bwrite start (writeHead (s.block start) s.header)

-- One round of `install_trans`.
def installBlock (s : Fs) (recovering : Bool) (tail blockno : Nat) : Fs :=
  let copied := (s.bread (start + tail + 1)).bwrite blockno (s.block (start + tail + 1))
  if recovering then copied else copied.bunpin blockno

-- The next disk write of a commit or a recovery, or a turn between two of its loops.
def advance (s : Fs) : Option Fs :=
  match s.stage with
  | .idle => none
  | .writeLog tail =>
    match s.header[tail]? with
    | some blockno => some { s.writeLogBlock start tail blockno with stage := .writeLog (tail + 1) }
    | none => some { s with stage := .writeHead }
  | .writeHead => some { s.writeHeader start with stage := .install 0 }
  | .install tail =>
    match s.header[tail]? with
    | some blockno => some { s.installBlock start false tail blockno with stage := .install (tail + 1) }
    | none => some { s with header := [], stage := .eraseHead }
  | .eraseHead => some { s.writeHeader start with stage := .finish }
  | .finish => some { s with committing := false, stage := .idle }
  | .boot => some { s.bread start with header := readHead (s.block start), stage := .recover 0 }
  | .recover tail =>
    match s.header[tail]? with
    | some blockno => some { s.installBlock start true tail blockno with stage := .recover (tail + 1) }
    | none => some { s with header := [], stage := .clearHead }
  | .clearHead => some { s.writeHeader start with stage := .idle }

def powerOn (disk : Nat → Block) : Fs where
  disk := disk
  cached := fun _ => none
  pins := fun _ => 0
  outstanding := 0
  committing := false
  header := []
  stage := .boot

def crash (s : Fs) : Fs := powerOn s.disk

def recovering (s : Fs) : Bool :=
  match s.stage with
  | .boot | .recover _ | .clearHead => true
  | _ => false

end Fs

-- `op` names the system call: its place among those that are between `begin_op` and `end_op`.
inductive Step
  | beginOp
  | logWrite (op blockno : Nat) (data : Block)
  | read (blockno : Nat)
  | recycle (blockno : Nat)
  | endOp (op : Nat)
  | advance
  | crash

namespace Fs

-- Whether the step would end in a panic of `log_write` or `end_op`.
def panics (s : Fs) : Step → Bool
  | .logWrite _ _ _ => decide (logBlocks ≤ s.header.length ∨ s.outstanding < 1)
  | .endOp _ => s.committing
  | _ => false

def endOp (s : Fs) : Fs :=
  if s.outstanding = 1 then
    { s with outstanding := 0, committing := true, stage := if s.header = [] then .finish else .writeLog 0 }
  else { s with outstanding := s.outstanding - 1 }

-- No step of a `begin_op` that has to sleep, of a panic, or of an operation that has not begun.
def next (start : Nat) (s : Fs) (l : Step) : Option Fs :=
  if s.panics l then none
  else
    match l with
    | .beginOp =>
      if s.recovering || s.committing || s.full then none
      else some { s with outstanding := s.outstanding + 1 }
    | .logWrite _ blockno data => some (s.logWrite blockno data)
    | .read blockno => some (s.bread blockno)
    | .recycle blockno =>
      if s.pins blockno = 0 then some { s with cached := Function.update s.cached blockno none } else none
    | .endOp _ => if s.outstanding = 0 then none else some s.endOp
    | .advance => s.advance start
    | .crash => some s.crash

end Fs

def Home (start blockno : Nat) : Prop := blockno < start ∨ start + logBlocks < blockno

instance (start blockno : Nat) : Decidable (Home start blockno) := inferInstanceAs (Decidable (_ ∨ _))

structure Headed (start : Nat) (header : List Nat) : Prop where
  short : header.length ≤ logBlocks
  distinct : header.Nodup
  homes : ∀ blockno ∈ header, Home start blockno ∧ blockno < 2 ^ 32

def Fs.PowersOn (start : Nat) (s : Fs) : Prop :=
  ∃ disk, Headed start (readHead (disk start)) ∧ s = .powerOn disk

def logSystem (start : Nat) : System Fs Step := System.ofNext (Fs.PowersOn start) (Fs.next start)

-- Plain block storage with a write-back buffer: `current` is what the system calls see, `durable` is what is left
-- of it after a crash, and `uses` counts the writes of the operations under way.
structure Store where
  durable : Nat → Block
  current : Nat → Block
  uses : List Nat

namespace Store

-- What a step is to the plain storage: the write of the header block commits all writes at once.
def note (g : Store) (s : Fs) (l : Step) (_ : Fs) : Store :=
  match l with
  | .beginOp => { g with uses := g.uses ++ [0] }
  | .logWrite op blockno data =>
    { g with current := Function.update g.current blockno data, uses := g.uses.modify op (· + 1) }
  | .endOp op => { g with uses := g.uses.eraseIdx op }
  | .advance => if s.stage = .writeHead then { g with durable := g.current } else g
  | .crash => { g with current := g.durable, uses := [] }
  | .read _ | .recycle _ => g

end Store

end SystemsSuite.Files
