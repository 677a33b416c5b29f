import SystemsSuite.Lib.Transition
import SystemsSuite.Lib.Words

set_option autoImplicit false

namespace SystemsSuite.Files

open Lib

def pipeSize : Nat := 512

structure Pipe where
  data : Nat → UInt8
  nread : Nat
  nwrite : Nat
  readopen : Bool
  writeopen : Bool

namespace Pipe

def opened : Pipe := ⟨fun _ => 0, 0, 0, true, true⟩

def empty (pi : Pipe) : Bool := decide (pi.nread = pi.nwrite)

def full (pi : Pipe) : Bool := decide (pi.nwrite = u32 (pi.nread + pipeSize))

def put (pi : Pipe) (ch : UInt8) : Pipe :=
  { pi with data := Function.update pi.data (pi.nwrite % pipeSize) ch, nwrite := u32 (pi.nwrite + 1) }

def next (pi : Pipe) : UInt8 := pi.data (pi.nread % pipeSize)

def take (pi : Pipe) : Pipe := { pi with nread := u32 (pi.nread + 1) }

end Pipe

-- A call between its first `acquire` and its return. `todo` are the bytes that are left to write, each
-- the result of its `copyin`; `room` tells for each byte that is asked for whether its `copyout` succeeds.
inductive Call
  | write (todo : List (Option UInt8)) (i : Nat)
  | read (room : List Bool)
  | copy (room : List Bool) (i : Nat)
  deriving DecidableEq

-- A process that is not in a call has what its latest call returned. One that is `dozing` has the lock and
-- is on its way into `sleep`: a `kill` that comes now does not wake it.
inductive Thread
  | away (returned : Int)
  | ready (call : Call)
  | inside (call : Call)
  | dozing (call : Call)
  | asleep (call : Call)
  deriving DecidableEq

structure PipeState where
  pipe : Pipe
  holder : Option Nat
  threads : Nat → Thread
  killed : Nat → Bool

inductive Channel
  | nread
  | nwrite
  deriving DecidableEq

def Call.channel : Call → Channel
  | .write _ _ => .nwrite
  | .read _ | .copy _ _ => .nread

namespace PipeState

def setThread (s : PipeState) (p : Nat) (t : Thread) : PipeState :=
  { s with threads := Function.update s.threads p t }

def wakeup (s : PipeState) (chan : Channel) : PipeState :=
  { s with threads := fun p =>
      match s.threads p with
      | .asleep call => if call.channel = chan then .ready call else .asleep call
      | t => t }

def release (s : PipeState) : PipeState := { s with holder := none }

-- The call of `p` returns.
def leave (s : PipeState) (p : Nat) (returned : Int) : PipeState := (s.setThread p (.away returned)).release

def sleep (s : PipeState) (p : Nat) (call : Call) : PipeState := (s.setThread p (.asleep call)).release

-- The `else` branch of the loop of `pipewrite`, with the result of `copyin`.
def writeByte (s : PipeState) (p : Nat) (rest : List (Option UInt8)) (i : Nat) : Option UInt8 → PipeState
  | none => (s.wakeup .nread).leave p i
  | some ch => { s with pipe := s.pipe.put ch }.setThread p (.inside (.write rest (i + 1)))

-- One turn of a loop of `pipewrite` or `piperead` of the holder of the lock.
def turn (s : PipeState) (p : Nat) : Call → PipeState
  | .write [] i => (s.wakeup .nread).leave p i
  | .write (src :: rest) i =>
    if s.pipe.readopen = false ∨ s.killed p = true then s.leave p (-1)
    else if s.pipe.full then (s.wakeup .nread).setThread p (.dozing (.write (src :: rest) i))
    else s.writeByte p rest i src
  | .read room =>
    if s.pipe.empty ∧ s.pipe.writeopen = true then
      if s.killed p then s.leave p (-1) else s.setThread p (.dozing (.read room))
    else s.setThread p (.inside (.copy room 0))
  | .copy [] i => (s.wakeup .nwrite).leave p i
  | .copy (ok :: rest) i =>
    if s.pipe.empty then (s.wakeup .nwrite).leave p i
    else if ok then { s with pipe := s.pipe.take }.setThread p (.inside (.copy rest (i + 1)))
    else ({ s with pipe := s.pipe.take }.wakeup .nwrite).leave p i

def pipeclose (s : PipeState) (writable : Bool) : PipeState :=
  if writable then { s with pipe := { s.pipe with writeopen := false } }.wakeup .nread
  else { s with pipe := { s.pipe with readopen := false } }.wakeup .nwrite

end PipeState

inductive PipeStep
  | write (p : Nat) (src : List (Option UInt8))
  | read (p : Nat) (room : List Bool)
  | acquire (p : Nat)
  | turn (p : Nat)
  | kill (p : Nat)
  | close (writable : Bool)

namespace PipeState

-- A process that is not in a call on the pipe begins one.
def call (s : PipeState) (p : Nat) (c : Call) : Option PipeState :=
  match s.threads p with
  | .away _ => some (s.setThread p (.ready c))
  | _ => none

def next (s : PipeState) : PipeStep → Option PipeState
  | .write p src => s.call p (.write src 0)
  | .read p room => s.call p (.read room)
  | .acquire p =>
    match s.holder, s.threads p with
    | none, .ready c => some { s.setThread p (.inside c) with holder := some p }
    | _, _ => none
  | .turn p =>
    match s.threads p with
    | .inside c => some (s.turn p c)
    | .dozing c => some (s.sleep p c)
    | _ => none
  | .kill p =>
    let s := { s with killed := Function.update s.killed p true }
    match s.threads p with
    | .asleep c => some (s.setThread p (.ready c))
    | _ => some s
  | .close writable => if s.holder = none then some (s.pipeclose writable) else none

-- After `pipealloc`.
def Fresh (s : PipeState) : Prop :=
  s.pipe = .opened ∧ s.holder = none ∧ ∀ p, ∃ returned, s.threads p = .away returned

end PipeState

def pipeSystem : System PipeState PipeStep := System.ofNext PipeState.Fresh PipeState.next

-- The bytes that were put in and taken out, each with the process that did it; what the latest call of a
-- process writes, when it is a `pipewrite`, and the bytes that this call has put in.
structure Traffic where
  sent : List (Nat × UInt8)
  received : List (Nat × UInt8)
  source : Nat → Option (List (Option UInt8))
  latest : Nat → List UInt8

namespace Traffic

def none : Traffic := ⟨[], [], fun _ => .none, fun _ => []⟩

def begin (g : Traffic) (p : Nat) (src : Option (List (Option UInt8))) : Traffic :=
  { g with source := Function.update g.source p src, latest := Function.update g.latest p [] }

def send (g : Traffic) (p : Nat) (ch : UInt8) : Traffic :=
  { g with sent := g.sent ++ [(p, ch)], latest := Function.update g.latest p (g.latest p ++ [ch]) }

def receive (g : Traffic) (p : Nat) (ch : UInt8) : Traffic := { g with received := g.received ++ [(p, ch)] }

def turn (g : Traffic) (s : PipeState) (p : Nat) (s' : PipeState) : Call → Traffic
  | .write (some ch :: _) _ => if s'.pipe.nwrite = s.pipe.nwrite then g else g.send p ch
  | .copy _ _ => if s'.pipe.nread = s.pipe.nread then g else g.receive p s.pipe.next
  | _ => g

def note (g : Traffic) (s : PipeState) (l : PipeStep) (s' : PipeState) : Traffic :=
  match l with
  | .write p src => g.begin p (some src)
  | .read p _ => g.begin p .none
  | .turn p =>
    match s.threads p with
    | .inside c => g.turn s p s' c
    | _ => g
  | _ => g

end Traffic

end SystemsSuite.Files
