import SystemsSuite.Lib.Transition

set_option autoImplicit false

namespace SystemsSuite.Procs

open Lib

inductive ProcState
  | unused
  | used
  | sleeping
  | runnable
  | running
  | zombie
  deriving DecidableEq, Repr

-- What a process sleeps on: the address of a process, or any other address.
inductive Chan (n : Nat)
  | proc (i : Fin n)
  | other (addr : Nat)
  deriving DecidableEq, Repr

-- How far the `kfork` of a process is: its child is allocated, then has its parent set.
inductive Fork (n : Nat)
  | idle
  | allocated (np : Fin n)
  | adopted (np : Fin n)
  deriving DecidableEq, Repr

structure Proc (n : Nat) where
  state : ProcState
  pid : Nat
  parent : Option (Fin n)
  chan : Option (Chan n)
  killed : Bool
  xstate : Int
  creationTime : Nat
  weight : Nat
  vruntime : Nat
  timeSlice : Nat
  fork : Fork n

structure Table (n : Nat) where
  procs : Fin n → Proc n
  nextpid : Nat
  nextCreationTime : Nat
  initproc : Option (Fin n)

-- The two kernels that share the process table's code.
inductive Kernel
  | scheduling
  | memory
  deriving DecidableEq, Repr

inductive Build
  | roundRobin
  | fcfs
  | cfs
  deriving DecidableEq, Repr

def nproc : Nat := 64

def targetLatency : Nat := 48

def minTimeSlice : Nat := 3

def niceToWeight : List Nat := [
  88761, 71755, 56364, 46273, 36421, 29156, 23257, 18705, 14949,
  11916, 9548, 7620, 6100, 4875, 3904, 3121, 2501, 1991, 1586,
  1277, 1024, 820, 655, 526, 423, 335, 272, 215, 172, 137, 110,
  87, 70, 56, 45, 36, 29, 23, 18, 15]

def defaultWeight : Nat := niceToWeight.getD (0 + 20) 0

-- A `uint64` set to -1.
def maxUint64 : Nat := 2 ^ 64 - 1

variable {n : Nat}

def Proc.isUser (p : Proc n) : Prop := p.state = .runnable ∧ 2 < p.pid

instance (p : Proc n) : Decidable p.isUser := inferInstanceAs (Decidable (_ ∧ _))

namespace Table

def boot : Table n where
  procs := fun _ => ⟨.unused, 0, none, none, false, 0, 0, 0, 0, 0, .idle⟩
  nextpid := 1
  nextCreationTime := 1
  initproc := none

def update (t : Table n) (i : Fin n) (f : Proc n → Proc n) : Table n :=
  { t with procs := Function.update t.procs i (f (t.procs i)) }

def first (t : Table n) (wanted : Proc n → Bool) : Option (Fin n) :=
  (List.finRange n).find? fun i => wanted (t.procs i)

def userSlots (t : Table n) : List (Fin n) :=
  (List.finRange n).filter fun i => (t.procs i).isUser

-- The runnable user process with the least key, the first of them in a tie.
def best (t : Table n) (key : Proc n → Nat) : Option (Fin n) :=
  t.userSlots.argmin fun i => key (t.procs i)

def minVruntime (t : Table n) : Option Nat :=
  (t.best Proc.vruntime).map fun i => (t.procs i).vruntime

def allocproc (t : Table n) : Option (Fin n × Table n) :=
  let least := t.minVruntime.getD 0
  let minVruntime := if least = maxUint64 then 0 else least
  (t.first fun p => p.state = .unused).map fun i =>
    (i, { t.update i fun p =>
            { p with
              pid := t.nextpid
              state := .used
              weight := defaultWeight
              vruntime := minVruntime
              timeSlice := 0
              creationTime := t.nextCreationTime }
          with
          nextpid := t.nextpid + 1
          nextCreationTime := t.nextCreationTime + 1 })

def freeproc (t : Table n) (i : Fin n) : Table n :=
  t.update i fun p =>
    { p with
      pid := 0
      parent := none
      chan := none
      killed := false
      xstate := 0
      creationTime := 0
      state := .unused }

def userinit (t : Table n) : Option (Table n) :=
  t.allocproc.map fun (i, t) =>
    { t.update i fun p => { p with state := .runnable } with initproc := some i }

def wakeup (t : Table n) (me : Option (Fin n)) (chan : Chan n) : Table n :=
  { t with
    procs := fun i =>
      if some i ≠ me ∧ (t.procs i).state = .sleeping ∧ (t.procs i).chan = some chan then
        { t.procs i with state := .runnable }
      else t.procs i }

-- The scheduler charges the time slice when the process comes back from `swtch`.
def sched (build : Build) (t : Table n) (i : Fin n) : Table n :=
  match build with
  | .cfs => t.update i fun p =>
      { p with vruntime := (p.vruntime + p.timeSlice * 1024 / p.weight) % 2 ^ 64 }
  | .roundRobin | .fcfs => t

-- What one pass of `scheduler` does: `again` is the round robin's pass that found a process earlier.
inductive Choice (n : Nat)
  | dispatch (i : Fin n)
  | again
  | wfi
  deriving DecidableEq

def slice (t : Table n) : Nat :=
  let numRunnable := t.userSlots.length
  max (if 0 < numRunnable then targetLatency / numRunnable else targetLatency) minTimeSlice

def orWfi : Option (Fin n) → Choice n
  | some i => .dispatch i
  | none => .wfi

def systemProcess (t : Table n) : Option (Fin n) := t.first fun p => p.state = .runnable

-- `start` and `found` say where the round robin's loop stands.
def choose (kernel : Kernel) (build : Build) (t : Table n) (start : Nat) (found : Bool) : Choice n :=
  match build with
  | .cfs => orWfi ((t.best Proc.vruntime).or t.systemProcess)
  | .fcfs =>
    match kernel with
    | .scheduling => orWfi (t.best Proc.creationTime)
    | .memory => orWfi ((t.best Proc.creationTime).or t.systemProcess)
  | .roundRobin =>
    match t.userSlots.find? fun i => start ≤ i.val with
    | some i => .dispatch i
    | none =>
      if found then .again
      else
        match kernel with
        | .scheduling => .wfi
        | .memory => orWfi t.systemProcess

-- A process that was asleep clears its channel before it lets go of its lock.
def dispatch (build : Build) (t : Table n) (i : Fin n) : Table n :=
  t.update i fun p =>
    { p with
      timeSlice := if build = .cfs then t.slice else p.timeSlice
      state := .running
      chan := none }

def pass (kernel : Kernel) (build : Build) (t : Table n) (start : Nat) (found : Bool) : Table n :=
  match t.choose kernel build start found with
  | .dispatch i => t.dispatch build i
  | .again | .wfi => t

def yield (build : Build) (t : Table n) (i : Fin n) : Table n :=
  (t.update i fun p => { p with state := .runnable }).sched build i

def sleep (build : Build) (t : Table n) (i : Fin n) (chan : Chan n) : Table n :=
  (t.update i fun p => { p with chan := some chan, state := .sleeping }).sched build i

-- `kfork` up to `release(&np->lock)`. Without memory the child is given back.
def kforkAlloc (t : Table n) (i : Fin n) (memory : Bool) : Table n :=
  match t.allocproc with
  | none => t
  | some (np, t) =>
    if memory then
      let vruntime :=
        match t.minVruntime with
        | some least => if least = maxUint64 then (t.procs i).vruntime else least
        | none => (t.procs i).vruntime
      let weight := (t.procs i).weight
      (t.update np fun p => { p with weight := weight, vruntime := vruntime }).update i
        fun p => { p with fork := .allocated np }
    else t.freeproc np

def kforkParent (t : Table n) (i np : Fin n) : Table n :=
  (t.update np fun p => { p with parent := some i }).update i fun p => { p with fork := .adopted np }

def kforkReady (t : Table n) (i np : Fin n) : Table n :=
  (t.update np fun p => { p with state := .runnable }).update i fun p => { p with fork := .idle }

-- The slots that a loop over the table reparents, one after the other.
def reparentFrom (kernel : Kernel) (i initproc : Fin n) (t : Table n) : List (Fin n) → Table n
  | [] => t
  | pp :: rest =>
    if (t.procs pp).parent = some i then
      let t := t.update pp fun p => { p with parent := some initproc }
      if kernel = .scheduling ∨ (t.procs pp).state = .zombie then
        reparentFrom kernel i initproc (t.wakeup (some i) (.proc initproc)) rest
      else reparentFrom kernel i initproc t rest
    else reparentFrom kernel i initproc t rest

def reparent (kernel : Kernel) (t : Table n) (i initproc : Fin n) : Table n :=
  t.reparentFrom kernel i initproc (List.finRange n)

def wakeupParent (t : Table n) (i : Fin n) : Table n :=
  match (t.procs i).parent with
  | some parent => t.wakeup (some i) (.proc parent)
  | none => t

def kexit (kernel : Kernel) (build : Build) (t : Table n) (i initproc : Fin n) (status : Int) : Table n :=
  (((t.reparent kernel i initproc).wakeupParent i).update i fun p =>
    { p with xstate := status, state := .zombie }).sched build i

def exitedChild (t : Table n) (i : Fin n) : Option (Fin n) :=
  t.first fun pp => pp.parent = some i ∧ pp.state = .zombie

-- One round of `kwait`, while it holds `wait_lock`. `copied` is whether the exit status can be
-- copied out.
def kwait (build : Build) (t : Table n) (i : Fin n) (copied : Bool) : Table n :=
  match t.exitedChild i with
  | some pp => if copied then t.freeproc pp else t
  | none =>
    if (t.first fun pp => pp.parent = some i).isNone ∨ (t.procs i).killed = true then t
    else t.sleep build i (.proc i)

def setkilled (t : Table n) (i : Fin n) : Table n := t.update i fun p => { p with killed := true }

def kkill (t : Table n) (pid : Nat) : Table n :=
  match t.first fun p => p.pid = pid with
  | some i => t.update i fun p =>
      { p with killed := true, state := if p.state = .sleeping then .runnable else p.state }
  | none => t

end Table

inductive TableStep (n : Nat)
  | pass (start : Nat) (found : Bool)
  | interrupt (addr : Nat)
  | yield (i : Fin n)
  | sleep (i : Fin n) (addr : Nat)
  | wakeup (i : Fin n) (addr : Nat)
  | setkilled (i : Fin n)
  | kkill (i : Fin n) (pid : Nat)
  | kforkAlloc (i : Fin n) (memory : Bool)
  | kforkParent (i : Fin n)
  | kforkReady (i : Fin n)
  | kexit (i : Fin n) (status : Int)
  | kwait (i : Fin n) (copied : Bool)

namespace Table

def running (t : Table n) : List (Fin n) :=
  (List.finRange n).filter fun i => (t.procs i).state = .running

def isRunning (t : Table n) (i : Fin n) : Prop := (t.procs i).state = .running

-- A running process that is not in the middle of a `kfork`.
def isFree (t : Table n) (i : Fin n) : Prop := t.isRunning i ∧ (t.procs i).fork = .idle

instance (t : Table n) (i : Fin n) : Decidable (t.isRunning i) := inferInstanceAs (Decidable (_ = _))

instance (t : Table n) (i : Fin n) : Decidable (t.isFree i) := inferInstanceAs (Decidable (_ ∧ _))

def next (kernel : Kernel) (build : Build) (cpus : Nat) (t : Table n) : TableStep n → Option (Table n)
  | .pass start found =>
    if t.running.length < cpus then some (t.pass kernel build start found) else none
  | .interrupt addr => some (t.wakeup none (.other addr))
  | .yield i => if t.isRunning i then some (t.yield build i) else none
  | .sleep i addr => if t.isRunning i then some (t.sleep build i (.other addr)) else none
  | .wakeup i addr => if t.isRunning i then some (t.wakeup (some i) (.other addr)) else none
  | .setkilled i => if t.isRunning i then some (t.setkilled i) else none
  | .kkill i pid => if t.isRunning i then some (t.kkill pid) else none
  | .kforkAlloc i memory => if t.isFree i then some (t.kforkAlloc i memory) else none
  | .kforkParent i =>
    match (t.procs i).fork with
    | .allocated np => if t.isRunning i then some (t.kforkParent i np) else none
    | .idle | .adopted _ => none
  | .kforkReady i =>
    match (t.procs i).fork with
    | .adopted np => if t.isRunning i then some (t.kforkReady i np) else none
    | .idle | .allocated _ => none
  | .kexit i status =>
    match t.initproc with
    | some initproc =>
      if t.isFree i ∧ i ≠ initproc then some (t.kexit kernel build i initproc status) else none
    | none => none
  | .kwait i copied => if t.isFree i then some (t.kwait build i copied) else none

def AfterUserinit (t : Table n) : Prop := boot.userinit = some t

def system (n : Nat) (kernel : Kernel) (build : Build) (cpus : Nat) : System (Table n) (TableStep n) :=
  System.ofNext AfterUserinit (next kernel build cpus)

variable {t t' : Table n}

@[simp] theorem update_procs (t : Table n) (i j : Fin n) (f : Proc n → Proc n) :
    (t.update i f).procs j = if j = i then f (t.procs i) else t.procs j := by
  simp [update, Function.update_apply]

theorem update_update_procs {i np : Fin n} (apart : i ≠ np) (f g : Proc n → Proc n) (j : Fin n) :
    ((t.update np f).update i g).procs j
      = if j = np then f (t.procs np) else if j = i then g (t.procs i) else t.procs j := by
  by_cases child : j = np <;> by_cases same : j = i <;> simp_all

@[simp] theorem update_initproc (t : Table n) (i : Fin n) (f : Proc n → Proc n) :
    (t.update i f).initproc = t.initproc := rfl

@[simp] theorem wakeup_initproc (t : Table n) (me : Option (Fin n)) (chan : Chan n) :
    (t.wakeup me chan).initproc = t.initproc := rfl

theorem first_some {wanted : Proc n → Bool} {i : Fin n} (found : t.first wanted = some i) :
    wanted (t.procs i) = true :=
  List.find?_some (p := fun i => wanted (t.procs i)) found

theorem first_none {wanted : Proc n → Bool} (missing : t.first wanted = none) (i : Fin n) :
    wanted (t.procs i) = false := by
  simpa using List.find?_eq_none.mp missing i (List.mem_finRange i)

theorem exitedChild_some {i pp : Fin n} (found : t.exitedChild i = some pp) :
    (t.procs pp).parent = some i ∧ (t.procs pp).state = .zombie := by
  have both := first_some found
  simpa only [decide_eq_true_eq] using both

theorem exitedChild_none {i : Fin n} (missing : t.exitedChild i = none) (j : Fin n)
    (child : (t.procs j).parent = some i) : (t.procs j).state ≠ .zombie := by
  have neither := first_none missing j
  simpa [child] using neither

theorem mem_userSlots {i : Fin n} : i ∈ t.userSlots ↔ (t.procs i).isUser := by
  simp [userSlots]

theorem best_user {key : Proc n → Nat} {i : Fin n} (chosen : t.best key = some i) :
    (t.procs i).isUser :=
  mem_userSlots.mp (List.argmin_mem chosen)

theorem best_least {key : Proc n → Nat} {i j : Fin n} (chosen : t.best key = some i)
    (eligible : (t.procs j).isUser) : key (t.procs i) ≤ key (t.procs j) :=
  List.le_of_mem_argmin (f := fun i => key (t.procs i)) (mem_userSlots.mpr eligible) chosen

theorem best_none {key : Proc n → Nat} (missing : t.best key = none) (i : Fin n) :
    ¬ (t.procs i).isUser := by
  have empty : t.userSlots = [] := List.argmin_eq_none.mp missing
  intro eligible
  have member := mem_userSlots.mpr eligible
  simp [empty] at member

theorem choose_runnable {kernel : Kernel} {build : Build} {i : Fin n} {start : Nat} {found : Bool}
    (chosen : t.choose kernel build start found = .dispatch i) : (t.procs i).state = .runnable := by
  have user {key : Proc n → Nat} (best : t.best key = some i) : (t.procs i).state = .runnable :=
    (best_user best).1
  have system (first : t.systemProcess = some i) : (t.procs i).state = .runnable := by
    simpa using first_some first
  have wfi {o : Option (Fin n)} (same : orWfi o = .dispatch i) : o = some i := by
    cases o <;> simp_all [orWfi]
  cases build with
  | cfs =>
    rcases Option.or_eq_some_iff.mp (wfi chosen) with best | ⟨_, first⟩
    · exact user best
    · exact system first
  | fcfs =>
    cases kernel with
    | scheduling => exact user (wfi chosen)
    | memory =>
      rcases Option.or_eq_some_iff.mp (wfi chosen) with best | ⟨_, first⟩
      · exact user best
      · exact system first
  | roundRobin =>
    simp only [choose] at chosen
    split at chosen
    next j ahead =>
      obtain rfl := Choice.dispatch.inj chosen
      exact (mem_userSlots.mp (List.mem_of_find?_eq_some ahead)).1
    next =>
      split at chosen
      next => contradiction
      next =>
        cases kernel with
        | scheduling => contradiction
        | memory => exact system (wfi chosen)

theorem slice_le : t.slice ≤ targetLatency := by
  have shared : targetLatency / t.userSlots.length ≤ targetLatency := Nat.div_le_self _ _
  have least : minTimeSlice ≤ targetLatency := by decide
  simp only [slice]
  split <;> omega

-- The new process of `allocproc` takes the place of an unused one.
theorem allocproc_some {np : Fin n} (found : t.allocproc = some (np, t')) :
    (t.procs np).state = .unused ∧ (t'.procs np).state = .used ∧
      (t'.procs np).weight = defaultWeight ∧ (t'.procs np).parent = (t.procs np).parent ∧
      (t'.procs np).chan = (t.procs np).chan ∧ (t'.procs np).fork = (t.procs np).fork ∧
      (∀ j, j ≠ np → t'.procs j = t.procs j) ∧ t'.initproc = t.initproc := by
  simp only [allocproc, Option.map_eq_some_iff, Prod.mk.injEq] at found
  obtain ⟨i, unused, rfl, rfl⟩ := found
  have vacant := first_some unused
  refine ⟨by simpa using vacant, ?_⟩
  simp [update, Function.update_apply]
  intro j other same
  exact absurd same other

end Table

end SystemsSuite.Procs
