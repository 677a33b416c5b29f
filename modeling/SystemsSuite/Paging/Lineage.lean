import SystemsSuite.Paging.Kernel
import SystemsSuite.Paging.Sbrk

set_option autoImplicit false

namespace SystemsSuite.Paging

open Lib Prog

-- The arguments `sys_exec` hands to `kexec`: fewer than MAXARG strings, each shorter than a page.
structure Argv where
  args : List (List UInt8)
  few : args.length < maxarg
  short : ∀ arg ∈ args, arg.length < 4096

-- What can happen to a process and its memory. `other` is what all others do to the frames, and what the
-- process itself does to its bytes; the swap file is taken to be the process's own. `fork` goes on with the
-- child when `follow` is set.
inductive Event
  | other (freelist : List Nat) (mem : Nat → Page) (writeBlocks : List Nat)
  | setSp (sp : Nat)
  | fault (va : Nat) (acc : Access)
  | evict
  | sbrk (n t : Nat)
  | fork (created : Option Nat) (follow : Bool)
  | exec (file : Option Inode) (argv : Argv) (created : Option Nat)

def Event.resizes : Event → Bool
  | .sbrk _ _ | .exec _ _ _ => true
  | _ => false

variable (b : Build)

def Event.run : Event → Kern Unit
  | .other freelist mem writeBlocks => update fun m =>
      { m with freelist := freelist, mem := mem, writeBlocks := writeBlocks }
  | .setSp sp => modifyProc fun p => { p with trapframe := { p.trapframe with sp := sp } }
  | .fault va acc => do
    let _ ← vmfault b .own va acc
    pure ()
  | .evict => do
    let _ ← tryEvictOne b
    pure ()
  | .sbrk n t => do
    let _ ← sysSbrk b n t
    pure ()
  | .fork created follow => do
    match ← kfork b created with
    | some child => if follow then update fun m => { m with proc := child } else pure ()
    | none => pure ()
  | .exec file argv created => do
    let _ ← kexec b file argv.args created
    pure ()

namespace Machine

def after (m : Machine) (e : Event) : Option Machine := (e.run b m).toOption.map Prod.snd

-- Whether a program would end with `true`.
def yields (m : Machine) (program : Kern Bool) : Bool := (program m).toOption.map Prod.fst == some true

theorem wp_refused {m : Machine} {program : Kern Bool} (refused : m.yields program = false) :
    wp program (fun ok _ => ok = false) (fun _ => True) m := by
  unfold yields at refused
  unfold wp
  cases ran : program m with
  | error panic => trivial
  | ok r =>
    rw [ran] at refused
    simpa [Except.toOption] using refused

theorem wp_yields {m : Machine} {program : Kern Bool} (granted : m.yields program = true) :
    wp program (fun ok _ => ok = true) (fun _ => False) m := by
  unfold yields at granted
  unfold wp
  cases ran : program m with
  | error panic =>
    rw [ran] at granted
    contradiction
  | ok r =>
    rw [ran] at granted
    simpa [Except.toOption] using granted

-- Whether a `kexec` would return -1.
def execFails (m : Machine) (file : Option Inode) (argv : Argv) (created : Option Nat) : Bool :=
  (kexec b file argv.args created m).toOption.map Prod.fst == some none

-- Whether a `sys_sbrk` would return -1.
def sbrkFails (m : Machine) (n t : Nat) : Bool := (sysSbrk b n t m).toOption.map Prod.fst == some none

-- The runs of a process that starts as `m`, and of the descendants followed.
def lineage (m : Machine) : System Machine Event := System.ofNext (· = m) (after b)

-- A process right after a successful `kexec`.
def Execed (m : Machine) : Prop := ∃ m₀ : Machine, ∃ (file : Option Inode) (argv : Argv)
  (created : Option Nat) (argc : Nat), kexec b file argv.args created m₀ = .ok (some argc, m)

-- The first process, and what it is after a `kexec`, for concrete runs.
def first (n : Nat) : Option Machine :=
  ((Kernel.boot n).userinit b).bind fun k => k.procs.head?.map fun p => k.machine p []

def execed (m : Machine) (file : Inode) (argv : Argv) (created : Option Nat) : Option Machine :=
  match kexec b (some file) argv.args created m with
  | .ok (some _, m') => some m'
  | _ => none

theorem execed_sound {b : Build} {m m' : Machine} {file : Inode} {argv : Argv} {created : Option Nat}
    (ran : m.execed b file argv created = some m') : m'.Execed b := by
  unfold execed at ran
  split at ran
  next argc m'' result =>
    obtain rfl := Option.some.inj ran
    exact ⟨m, some file, argv, created, argc, result⟩
  next => contradiction

-- The first process with the program of `file`.
def program (n : Nat) (file : Inode) (argv : Argv) : Option Machine :=
  (first b n).bind fun m => m.execed b file argv (some 9)

theorem run_shows {b : Build} (n : Nat) (file : Inode) (argv : Argv) (events : List Event)
    (check : Machine → Event → Bool) (shows : Machine → Machine → Bool) {guard : Machine → Event → Prop}
    (sound : ∀ m e, check m e = true → guard m e)
    (ran : (program b n file argv).any (fun m₀ =>
      (System.execute (after b) check m₀ events).any (shows m₀)) = true) :
    ∃ m₀ m : Machine, m₀.Execed b ∧ (m₀.lineage b).ReachableVia guard m ∧ shows m₀ m = true := by
  obtain ⟨m₀, started, rest⟩ := (Option.any_eq_true ..).mp ran
  obtain ⟨m, executed, holds⟩ := (Option.any_eq_true ..).mp rest
  obtain ⟨first, _, replaced⟩ := Option.bind_eq_some_iff.mp started
  exact ⟨m₀, m, execed_sound replaced,
    System.execute_reachableVia sound (.initial rfl) executed, holds⟩

end Machine

-- A program with one segment at 0x1000, its guard page at 0x2000 and its stack at 0x3000.
def oneSegment (flags : Nat) : Inode := elfFile 7 [⟨elfProgLoad, flags, 0, 0x1000, 64, 64⟩] []

def shortArgv : Argv := ⟨[[65]], by decide, by decide⟩

end SystemsSuite.Paging
