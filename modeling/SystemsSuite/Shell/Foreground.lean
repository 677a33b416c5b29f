import SystemsSuite.Shell.JobLifetime

set_option autoImplicit false

namespace SystemsSuite.Shell

open Lib

-- The `waitpid` that the shell has come to: the one for the last process, with WUNTRACED, or the
-- one for process `i` in the loop that follows it.
inductive Waiting
  | last
  | other (i : Nat)
  | returned
  deriving DecidableEq, Repr

-- The shell and the processes of its foreground pipeline. `g_foreground_pid` is `pgid` until `execute_pipeline`
-- has returned; `blocked` says that the shell is inside `waitpid`.
structure Foreground where
  jobs : Jobs
  pgid : Nat
  names : List (List Char)
  processes : List ProcessState
  waiting : Waiting
  blocked : Bool

inductive ForegroundStep
  | exit (i : Nat)
  | stop (i : Nat)
  -- Ctrl-Z. SA_RESTART is not set, so it ends a `waitpid` that blocks; `status` says how
  -- WIFSTOPPED reads the variable that this `waitpid` has not set.
  | sigtstp (status : Bool)
  | shell

def ProcessState.isStopped : ProcessState → Bool
  | .stopping | .stopped => true
  | .running | .exited => false

def ProcessState.stop : ProcessState → ProcessState
  | .running => .stopping
  | state => state

namespace Foreground

def start (jobs : Jobs) (names : List (List Char)) (pids : List Nat) : Foreground where
  jobs := jobs
  pgid := pids.headD 0
  names := names
  processes := pids.map fun _ => .running
  waiting := .last
  blocked := false

def suspend (w : Foreground) : Jobs :=
  match w.jobs.addJob w.pgid (fullCmd w.names) .stopped with
  | (some i, jobs) =>
    let job := jobs.jobList i
    (jobs.print "Suspended").print s!"[{job.jobId}] Stopped {String.ofList job.commandName}"
  | (none, jobs) => jobs

-- `waitpid` for the last process has returned.
def waited (w : Foreground) (stopped : Bool) : Foreground :=
  { w with
    jobs := if stopped then w.suspend else w.jobs
    waiting := .other 0
    blocked := false }

def waitOther (w : Foreground) (i : Nat) : Foreground := { w with waiting := .other i, blocked := false }

def block (w : Foreground) : Option Foreground :=
  if w.blocked then none else some { w with blocked := true }

def lastIndex (w : Foreground) : Nat := w.processes.length - 1

def runShell (w : Foreground) : Option Foreground :=
  match w.waiting with
  | .last => match w.processes[w.lastIndex]? with
    | some .exited => some (w.waited false)
    | some .stopping =>
      some ({ w with processes := w.processes.set w.lastIndex .stopped }.waited true)
    | _ => w.block
  | .other i =>
    if i < w.lastIndex then
      if w.processes[i]? = some .exited then some (w.waitOther (i + 1)) else w.block
    else some { w with waiting := .returned, blocked := false }
  | .returned => none

-- Whether `waitpid` has something to report.
def ready (w : Foreground) : Bool :=
  match w.waiting with
  | .last => w.processes[w.lastIndex]? == some .exited || w.processes[w.lastIndex]? == some .stopping
  | .other i => w.processes[i]? == some .exited
  | .returned => false

-- Every running process of the group stops; a `waitpid` that blocks returns -1.
def sigtstp (w : Foreground) (status : Bool) : Foreground :=
  let stopped := { w with processes := w.processes.map .stop }
  if w.blocked && !w.ready then
    match w.waiting with
    | .last => stopped.waited status
    | .other i => stopped.waitOther (i + 1)
    | .returned => stopped
  else stopped

def next (w : Foreground) : ForegroundStep → Option Foreground
  | .exit i => match w.processes[i]? with
    | some .exited | none => none
    | some _ => some { w with processes := w.processes.set i .exited }
  | .stop i => match w.processes[i]? with
    | some .running => some { w with processes := w.processes.set i .stopping }
    | _ => none
  | .sigtstp status =>
    if w.waiting = .returned then some w else some (w.sigtstp status)
  | .shell => w.runShell

def system (jobs : Jobs) (names : List (List Char)) (pids : List Nat) :
    System Foreground ForegroundStep :=
  System.ofNext (· = start jobs names pids) next

def BlockedOnStopped (w : Foreground) : Prop :=
  w.blocked = true ∧ ∃ i < w.lastIndex, w.waiting = .other i ∧
    ∃ p, w.processes[i]? = some p ∧ p.isStopped = true

def GroupStopped (w : Foreground) : Prop :=
  (∃ p ∈ w.processes, p.isStopped = true) ∧ ∀ p ∈ w.processes, p.isStopped = true ∨ p = .exited

-- One STOPPED job has been added to what `jobs` lists.
def Recorded (jobs : Jobs) (w : Foreground) : Prop :=
  ∃ i, (jobs.jobList i).pgid = none ∧ w.jobs.jobList = Function.update jobs.jobList i
    ⟨some w.pgid, (fullCmd w.names).take (maxCmdName - 1), .stopped, jobs.nextJobId⟩

-- The shell on its own comes from one state to the other.
def Runs : Foreground → Foreground → Prop := Relation.ReflTransGen fun w w' => w.runShell = some w'

-- The shell waits for no stopped process without WUNTRACED, and once the group is stopped it records one STOPPED
-- job and returns.
def Suspends (jobs : Jobs) (w : Foreground) : Prop :=
  ¬ w.BlockedOnStopped ∧
    (w.GroupStopped → ∃ w', Runs w w' ∧ w'.waiting = .returned ∧ w'.Recorded jobs)

def HasFree (jobs : Jobs) : Prop := ∃ i, (jobs.jobList i).pgid = none

instance (jobs : Jobs) : Decidable (HasFree jobs) := inferInstanceAs (Decidable (∃ _, _))

-- Only the last process is stopped, the job list then has a free entry, and Ctrl-Z ends no
-- `waitpid` for it, or one whose unset status reads as a stop.
def Suspendable (w : Foreground) : ForegroundStep → Prop
  | .stop i => i = w.lastIndex ∧ HasFree w.jobs
  | .sigtstp status => w.waiting ≠ .returned → (∀ i < w.lastIndex, w.processes[i]? ≠ some .running) ∧
    (w.processes[w.lastIndex]? = some .running → HasFree w.jobs ∧
      (w.blocked = true → w.waiting = .last → status = true))
  | _ => True

instance (w : Foreground) (l : ForegroundStep) : Decidable (w.Suspendable l) :=
  match l with
  | .stop _ => inferInstanceAs (Decidable (_ ∧ _))
  | .sigtstp _ => inferInstanceAs (Decidable (_ → _))
  | .exit _ | .shell => inferInstanceAs (Decidable True)

structure Kept (jobs : Jobs) (w : Foreground) : Prop where
  others : ∀ i < w.lastIndex, ∀ p, w.processes[i]? = some p → p.isStopped = false
  nonempty : 0 < w.processes.length
  waiting : w.waiting = .last → w.jobs = jobs ∧ w.processes[w.lastIndex]? ≠ some .stopped ∧
    (w.processes[w.lastIndex]? = some .stopping → HasFree jobs)
  waited : w.waiting ≠ .last → w.processes[w.lastIndex]? = some .exited ∨ w.Recorded jobs

variable {jobs : Jobs} {w w' : Foreground}

theorem suspend_recorded (same : w.jobs = jobs) (free : HasFree jobs) (processes : List ProcessState) :
    Recorded jobs ({ w with processes := processes }.waited true) := by
  subst same
  obtain ⟨i, unused⟩ := free
  obtain ⟨j, found⟩ := w.jobs.find_isSome (i := i) (·.pgid.isNone) (by simp [unused])
  obtain ⟨entry, _, entries⟩ := Jobs.addJob_some found w.pgid (fullCmd w.names) .stopped
  have same : w.suspend.jobList = (w.jobs.addJob w.pgid (fullCmd w.names) .stopped).2.jobList := by
    unfold suspend
    generalize w.jobs.addJob w.pgid (fullCmd w.names) .stopped = added at entry
    obtain ⟨_, _⟩ := added
    subst entry
    rfl
  exact ⟨j, by simpa using Jobs.find_some found, same.trans entries⟩

theorem Kept.last (kept : w.Kept jobs) : ∃ p, w.processes[w.lastIndex]? = some p := by
  have inside : w.lastIndex < w.processes.length := Nat.sub_lt kept.nonempty Nat.one_pos
  exact ⟨_, List.getElem?_eq_getElem inside⟩

theorem Kept.set (kept : w.Kept jobs) {i : Nat} {p : ProcessState}
    (others : i < w.lastIndex → p.isStopped = false)
    (waiting : i = w.lastIndex → w.waiting = .last → p ≠ .stopped ∧ (p = .stopping → HasFree jobs))
    (waited : i = w.lastIndex → w.waiting ≠ .last → p = .exited ∨ w.Recorded jobs) :
    Kept jobs { w with processes := w.processes.set i p } := by
  have index : Foreground.lastIndex { w with processes := w.processes.set i p } = w.lastIndex := by
    simp [lastIndex]
  obtain ⟨old, last⟩ := kept.last
  have inside : w.lastIndex < w.processes.length := (List.getElem?_eq_some_iff.mp last).1
  have lastly : (w.processes.set i p)[w.lastIndex]? =
      if i = w.lastIndex then some p else w.processes[w.lastIndex]? := by
    by_cases same : i = w.lastIndex
    · subst same
      simp [inside]
    · simp [same]
  constructor
  · intro j below q here
    rw [index] at below
    rw [List.getElem?_set] at here
    split_ifs at here with same bound
    · obtain rfl := Option.some.inj here
      exact others (same ▸ below)
    · exact kept.others j below q here
  · simpa using kept.nonempty
  · intro first
    obtain ⟨same, running, free⟩ := kept.waiting first
    rw [index, lastly]
    by_cases here : i = w.lastIndex
    · obtain ⟨open_, listed⟩ := waiting here first
      rw [if_pos here]
      exact ⟨same, by simpa using open_, by simpa using listed⟩
    · rw [if_neg here]
      exact ⟨same, running, free⟩
  · intro later
    rw [index, lastly]
    by_cases here : i = w.lastIndex
    · rw [if_pos here]
      exact (waited here later).imp (congrArg some) id
    · rw [if_neg here]
      exact kept.waited later

-- The shell goes on after a `waitpid`, with the job list it has by then.
theorem Kept.moved (kept : w.Kept jobs) {waiting : Waiting} (later : w.waiting ≠ .last)
    (after : waiting ≠ .last) (blocked : Bool) :
    Kept jobs { w with waiting := waiting, blocked := blocked } :=
  ⟨kept.others, kept.nonempty, fun first => absurd first after, fun _ => kept.waited later⟩

theorem Kept.block (kept : w.Kept jobs) (blocked : w.block = some w') : w'.Kept jobs := by
  unfold Foreground.block at blocked
  split_ifs at blocked
  obtain rfl := Option.some.inj blocked
  exact ⟨kept.others, kept.nonempty, kept.waiting, kept.waited⟩

theorem Kept.exit (kept : w.Kept jobs) {i : Nat} (ended : w.next (.exit i) = some w') : w'.Kept jobs := by
  simp only [Foreground.next] at ended
  split at ended
  · contradiction
  · contradiction
  · obtain rfl := Option.some.inj ended
    exact kept.set (fun _ => rfl) (fun _ _ => by simp) (fun _ _ => .inl rfl)

theorem Kept.stop (kept : w.Kept jobs) {i : Nat} (suspendable : w.Suspendable (.stop i))
    (stopped : w.next (.stop i) = some w') : w'.Kept jobs := by
  obtain ⟨rfl, free⟩ := suspendable
  simp only [Foreground.next] at stopped
  split at stopped
  · next running =>
    obtain rfl := Option.some.inj stopped
    refine kept.set (fun below => absurd below (Nat.lt_irrefl _)) ?_ ?_
    · intro _ first
      rw [(kept.waiting first).1] at free
      exact ⟨by simp, fun _ => free⟩
    · intro _ later
      rcases kept.waited later with exited | recorded
      · rw [running] at exited
        contradiction
      · exact .inr recorded
  · contradiction

theorem Kept.shell (kept : w.Kept jobs) (ran : w.next .shell = some w') : w'.Kept jobs := by
  have inside : w.lastIndex < w.processes.length := Nat.sub_lt kept.nonempty Nat.one_pos
  change w.runShell = some w' at ran
  unfold runShell at ran
  cases place : w.waiting with
  | last =>
    obtain ⟨same, running, free⟩ := kept.waiting place
    rw [place] at ran
    simp only at ran
    split at ran
    · next exited =>
      obtain rfl := Option.some.inj ran
      exact ⟨kept.others, kept.nonempty, nofun, fun _ => .inl exited⟩
    · next stopping =>
      obtain rfl := Option.some.inj ran
      have index : Foreground.lastIndex { w with processes := w.processes.set w.lastIndex .stopped } =
          w.lastIndex := by
        simp [lastIndex]
      have recorded := suspend_recorded same (free stopping) (w.processes.set w.lastIndex .stopped)
      refine ⟨?_, by simpa [Foreground.waited] using kept.nonempty, nofun, fun _ => .inr recorded⟩
      intro i below p here
      change i < Foreground.lastIndex { w with processes := w.processes.set w.lastIndex .stopped } at below
      rw [index] at below
      refine kept.others i below p ?_
      rwa [← List.getElem?_set_ne (Nat.ne_of_gt below)]
    · exact kept.block ran
  | other i =>
    have later : w.waiting ≠ .last := by simp [place]
    rw [place] at ran
    simp only at ran
    split_ifs at ran
    · obtain rfl := Option.some.inj ran
      exact kept.moved later (by simp) false
    · exact kept.block ran
    · obtain rfl := Option.some.inj ran
      exact kept.moved later (by simp) false
  | returned =>
    rw [place] at ran
    contradiction

theorem stop_isStopped {p : ProcessState} (idle : p ≠ .running) : p.stop = p := by
  cases p <;> first | rfl | contradiction

theorem Kept.sigtstp (kept : w.Kept jobs) {status : Bool} (suspendable : w.Suspendable (.sigtstp status))
    (sent : w.next (.sigtstp status) = some w') : w'.Kept jobs := by
  simp only [Foreground.next] at sent
  split_ifs at sent with gone
  · obtain rfl := Option.some.inj sent
    exact kept
  obtain rfl := Option.some.inj sent
  obtain ⟨idle, listed⟩ := suspendable gone
  have index : Foreground.lastIndex { w with processes := w.processes.map .stop } = w.lastIndex := by
    simp [lastIndex]
  obtain ⟨last, here⟩ := kept.last
  have stopped : Kept jobs { w with processes := w.processes.map .stop } := by
    constructor
    · intro i below p after
      rw [index] at below
      rw [List.getElem?_map] at after
      obtain ⟨old, before, rfl⟩ := Option.map_eq_some_iff.mp after
      have resting : old ≠ .running := fun running => idle i below (running ▸ before)
      rw [stop_isStopped resting]
      exact kept.others i below old before
    · simpa using kept.nonempty
    · intro first
      obtain ⟨same, running, free⟩ := kept.waiting first
      rw [index, List.getElem?_map, here]
      rw [here] at running free listed
      rw [same] at listed
      cases last <;> simp_all [ProcessState.stop]
    · intro later
      rw [index, List.getElem?_map, here]
      refine (kept.waited later).imp ?_ id
      intro exited
      rw [here] at exited
      obtain rfl := Option.some.inj exited
      rfl
  unfold Foreground.sigtstp
  split_ifs with ends
  · rw [Bool.and_eq_true, Bool.not_eq_true'] at ends
    obtain ⟨blocked, waits⟩ := ends
    cases place : w.waiting with
    | last =>
      -- Only a running last process lets the shell wait for it.
      obtain ⟨same, running, _⟩ := kept.waiting place
      have alive : w.processes[w.lastIndex]? = some .running := by
        unfold ready at waits
        rw [here] at waits running ⊢
        cases last <;> simp_all
      obtain ⟨free, read⟩ := listed alive
      obtain rfl := read blocked place
      have recorded := suspend_recorded same (same ▸ free) (w.processes.map .stop)
      exact ⟨stopped.others, stopped.nonempty, nofun, fun _ => .inr recorded⟩
    | other i =>
      have later : Foreground.waiting { w with processes := w.processes.map .stop } ≠ .last := by
        simp [place]
      exact stopped.moved later (by simp) false
    | returned => exact absurd place gone
  · exact stopped

theorem reachable_kept {names : List (List Char)} {pids : List Nat} (started : pids ≠ [])
    (reached : (system jobs names pids).ReachableVia Suspendable w) : w.Kept jobs := by
  induction reached with
  | initial first =>
    obtain rfl := first
    have running (i : Nat) (p : ProcessState)
        (here : (pids.map fun _ => ProcessState.running)[i]? = some p) : p = .running := by
      rw [List.getElem?_map] at here
      obtain ⟨_, _, rfl⟩ := Option.map_eq_some_iff.mp here
      rfl
    constructor
    · intro i _ p here
      rw [running i p here]
      rfl
    · simpa [start] using List.length_pos_iff.mpr started
    · intro _
      refine ⟨rfl, fun here => ?_, fun here => ?_⟩
      · have := running _ _ here
        contradiction
      · have := running _ _ here
        contradiction
    · intro later
      exact absurd rfl later
  | @step w w' l _ suspendable taken ih =>
    cases l with
    | exit i => exact ih.exit taken
    | stop i => exact ih.stop suspendable taken
    | sigtstp status => exact ih.sigtstp suspendable taken
    | shell => exact ih.shell taken

theorem cleanUp_returns (exited : ∀ i < w.lastIndex, w.processes[i]? = some .exited) {i : Nat}
    (place : w.waiting = .other i) : Runs w { w with waiting := .returned, blocked := false } := by
  induction remaining : w.lastIndex - i generalizing w i with
  | zero =>
    apply Relation.ReflTransGen.single
    unfold runShell
    rw [place]
    exact if_neg (by omega)
  | succ n ih =>
    have below : i < w.lastIndex := by omega
    have step : w.runShell = some (w.waitOther (i + 1)) := by
      unfold runShell
      rw [place]
      exact (if_pos below).trans (if_pos (exited i below))
    have rest := ih (w := w.waitOther (i + 1)) exited rfl (by
      change w.lastIndex - (i + 1) = n
      omega)
    exact Relation.ReflTransGen.head step rest

theorem Kept.suspends (kept : w.Kept jobs) : w.Suspends jobs := by
  constructor
  · intro ⟨_, i, below, _, p, here, stopped⟩
    rw [kept.others i below p here] at stopped
    contradiction
  · intro ⟨⟨p, member, stopped⟩, whole⟩
    have exited (i : Nat) (below : i < w.lastIndex) : w.processes[i]? = some .exited := by
      have inside : i < w.processes.length := by
        unfold lastIndex at below
        omega
      have here := List.getElem?_eq_getElem inside
      rcases whole _ (List.mem_of_getElem? here) with held | gone
      · rw [kept.others i below _ here] at held
        contradiction
      · rw [here, gone]
    obtain ⟨j, there⟩ := List.mem_iff_getElem?.mp member
    have last : w.processes[w.lastIndex]? = some p := by
      have inside := (List.getElem?_eq_some_iff.mp there).1
      rcases Nat.lt_or_ge j w.lastIndex with below | above
      · rw [kept.others j below p there] at stopped
        contradiction
      · have same : j = w.lastIndex := by
          unfold lastIndex at *
          omega
        rw [← same]
        exact there
    have remains (later : w.waiting ≠ .last) : w.Recorded jobs := by
      rcases kept.waited later with gone | recorded
      · rw [last] at gone
        obtain rfl := Option.some.inj gone
        contradiction
      · exact recorded
    cases place : w.waiting with
    | last =>
      obtain ⟨same, reported, free⟩ := kept.waiting place
      have stopping : w.processes[w.lastIndex]? = some .stopping := by
        rw [last] at reported ⊢
        cases p <;> simp_all [ProcessState.isStopped]
      have step : w.runShell =
          some ({ w with processes := w.processes.set w.lastIndex .stopped }.waited true) := by
        unfold runShell
        rw [place]
        simp only [stopping]
      have recorded := suspend_recorded same (free stopping) (w.processes.set w.lastIndex .stopped)
      have rest := cleanUp_returns (i := 0)
        (w := { w with processes := w.processes.set w.lastIndex .stopped }.waited true) (by
          intro i below
          have index : i < w.lastIndex := by simpa [lastIndex, Foreground.waited] using below
          change (w.processes.set w.lastIndex .stopped)[i]? = some .exited
          rw [List.getElem?_set_ne (Nat.ne_of_gt index)]
          exact exited i index) rfl
      exact ⟨_, Relation.ReflTransGen.head step rest, rfl, recorded⟩
    | other i =>
      exact ⟨_, cleanUp_returns exited place, rfl, remains (by simp [place])⟩
    | returned => exact ⟨w, .refl, place, remains (by simp [place])⟩

theorem foreground_suspends (jobs : Jobs) {names : List (List Char)} {pids : List Nat}
    (started : names ≠ []) (forked : pids.length = names.length)
    (reached : (system jobs names pids).ReachableVia Suspendable w) : w.Suspends jobs := by
  have some : pids ≠ [] := by
    intro none
    rw [none] at forked
    exact started (List.length_eq_zero_iff.mp forked.symm)
  exact (reachable_kept some reached).suspends

def noJobs : Jobs := ⟨fun _ => ⟨none, [], .running, 0⟩, 1, []⟩

-- `ls | sleep`: Ctrl-Z comes when `ls` has exited.
theorem foreground_suspends_sleep : ∃ w : Foreground, w.GroupStopped ∧ w.waiting = .returned ∧
    w.Suspends noJobs := by
  obtain ⟨w, ran, shown⟩ : ∃ w, System.execute next (fun w l => decide (w.Suspendable l))
      (start noJobs [['l', 's'], ['s', 'l', 'e', 'e', 'p']] [7, 8])
      [.exit 0, .sigtstp false, .shell, .shell, .shell] = some w ∧
      decide (w.processes = [.exited, .stopped] ∧ w.waiting = .returned) = true :=
    (Option.any_eq_true ..).mp (by decide +kernel)
  obtain ⟨processes, returned⟩ := of_decide_eq_true shown
  refine ⟨w, ?_, returned, foreground_suspends noJobs (by simp) rfl
    (System.execute_reachableVia (fun _ _ => of_decide_eq_true) (.initial rfl) ran)⟩
  unfold GroupStopped
  rw [processes]
  decide

-- Ctrl-Z on two sleeping processes: the job is recorded, but then the shell waits for the first of
-- them, which is stopped.
theorem stopped_pipeline_blocks : ∃ jobs names pids w, names ≠ [] ∧ pids.length = names.length ∧
    (system jobs names pids).Reachable w ∧ w.BlockedOnStopped ∧ ¬ w.Suspends jobs := by
  obtain ⟨w, ran, shown⟩ : ∃ w, System.execute next (fun _ _ => true)
      (start noJobs [['s', 'l', 'e', 'e', 'p'], ['s', 'l', 'e', 'e', 'p']] [7, 8])
      [.sigtstp true, .shell, .shell] = some w ∧
      decide (w.processes = [.stopping, .stopped] ∧ w.waiting = .other 0 ∧ w.blocked = true) = true :=
    (Option.any_eq_true ..).mp (by decide +kernel)
  obtain ⟨processes, waits, blocked⟩ := of_decide_eq_true shown
  have stuck : w.BlockedOnStopped := by
    refine ⟨blocked, 0, ?_, waits, .stopping, ?_, rfl⟩
    · unfold lastIndex
      rw [processes]
      decide
    · rw [processes]
      rfl
  refine ⟨noJobs, [['s', 'l', 'e', 'e', 'p'], ['s', 'l', 'e', 'e', 'p']], [7, 8], w, by simp, rfl, ?_,
    stuck, fun suspends => suspends.1 stuck⟩
  exact System.execute_reachable (s := start noJobs _ _) rfl _ ran

end Foreground

end SystemsSuite.Shell
