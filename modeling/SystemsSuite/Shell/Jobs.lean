import SystemsSuite.Lib.Transition

set_option autoImplicit false

namespace SystemsSuite.Shell

open Lib

def maxJobs : Nat := 64

def maxCmdName : Nat := 1024

-- The loop that builds `full_cmd`.
def fullCmd : List (List Char) → List Char
  | [] => []
  | [name] => name
  | name :: rest => name ++ " | ".toList ++ fullCmd rest

inductive JobState
  | running
  | stopped
  deriving DecidableEq, Repr

-- A free entry of the job list has no `pgid` (the source's -1).
structure Job where
  pgid : Option Nat
  commandName : List Char
  state : JobState
  jobId : Nat
  deriving DecidableEq, Repr

structure Jobs where
  jobList : Fin maxJobs → Job
  nextJobId : Nat
  output : List String

namespace Jobs

def initializeJobs (jobs : Jobs) : Jobs :=
  { jobs with
    jobList := fun i => { jobs.jobList i with pgid := none }
    nextJobId := 1 }

-- The first entry that a loop over the job list stops at.
def find (jobs : Jobs) (wanted : Job → Bool) : Option (Fin maxJobs) :=
  (List.finRange maxJobs).find? fun i => wanted (jobs.jobList i)

def set (jobs : Jobs) (i : Fin maxJobs) (job : Job) : Jobs :=
  { jobs with jobList := Function.update jobs.jobList i job }

def print (jobs : Jobs) (line : String) : Jobs := { jobs with output := jobs.output ++ [line] }

def addJob (jobs : Jobs) (pgid : Nat) (commandName : List Char) (state : JobState) :
    Option (Fin maxJobs) × Jobs :=
  match jobs.find (·.pgid.isNone) with
  | some i =>
    let job := ⟨some pgid, commandName.take (maxCmdName - 1), state, jobs.nextJobId⟩
    let added := { jobs.set i job with nextJobId := jobs.nextJobId + 1 }
    (some i, if state = .running then added.print s!"[{job.jobId}] {pgid}" else added)
  | none => (none, jobs.print "shell: too many background jobs")

def removeJobByPgid (jobs : Jobs) (pgid : Nat) : Jobs :=
  match jobs.find (·.pgid == some pgid) with
  | some i => jobs.set i { jobs.jobList i with pgid := none }
  | none => jobs

def getJobByJid (jobs : Jobs) (jid : Nat) : Option Job :=
  (jobs.find fun job => job.pgid.isSome && job.jobId == jid).map jobs.jobList

-- The loop of `get_most_recent_job` over the entries that are left.
def mostRecentLoop (jobs : Jobs) : List (Fin maxJobs) → Int → Option (Fin maxJobs) →
    Option (Fin maxJobs)
  | [], _, recentJob => recentJob
  | i :: rest, maxJid, recentJob =>
    let job := jobs.jobList i
    if job.pgid.isSome ∧ (job.jobId : Int) > maxJid then
      mostRecentLoop jobs rest job.jobId (some i)
    else mostRecentLoop jobs rest maxJid recentJob

def getMostRecentJob (jobs : Jobs) : Option Job :=
  (jobs.mostRecentLoop (List.finRange maxJobs) (-1) none).map jobs.jobList

def printJobs (jobs : Jobs) : List Job :=
  ((List.finRange maxJobs).map jobs.jobList).filter (·.pgid.isSome)

def killAllJobs (jobs : Jobs) : List Nat :=
  ((List.finRange maxJobs).map jobs.jobList).filterMap (·.pgid)

-- The two branches of `reap_background_jobs` for what `waitpid` returns: `pid` has exited or was
-- killed, or it was stopped.
def reapExited (jobs : Jobs) (pid : Nat) : Jobs :=
  let reported := match jobs.find (·.pgid == some pid) with
    | some i =>
      let name := String.ofList (jobs.jobList i).commandName
      jobs.print s!"{name} with pid {pid} exited normally"
    | none => jobs
  reported.removeJobByPgid pid

def reapStopped (jobs : Jobs) (pid : Nat) : Jobs :=
  match jobs.find (·.pgid == some pid) with
  | some i => jobs.set i { jobs.jobList i with state := .stopped }
  | none => jobs

variable {jobs : Jobs}

theorem find_some {wanted : Job → Bool} {i : Fin maxJobs} (found : jobs.find wanted = some i) :
    wanted (jobs.jobList i) = true := by
  simpa using List.find?_some found

theorem find_none {wanted : Job → Bool} (missing : jobs.find wanted = none) (i : Fin maxJobs) :
    wanted (jobs.jobList i) = false := by
  have all := List.find?_eq_none.mp missing i (List.mem_finRange i)
  simpa using all

theorem find_isSome (wanted : Job → Bool) {i : Fin maxJobs} (holds : wanted (jobs.jobList i) = true) :
    ∃ j, jobs.find wanted = some j := by
  cases found : jobs.find wanted with
  | some j => exact ⟨j, rfl⟩
  | none => rw [find_none found i] at holds; contradiction

@[simp] theorem print_jobList (line : String) : (jobs.print line).jobList = jobs.jobList := rfl

@[simp] theorem print_nextJobId (line : String) : (jobs.print line).nextJobId = jobs.nextJobId := rfl

theorem addJob_some {i : Fin maxJobs} (free : jobs.find (·.pgid.isNone) = some i) (pgid : Nat)
    (commandName : List Char) (state : JobState) :
    (jobs.addJob pgid commandName state).1 = some i ∧
      (jobs.addJob pgid commandName state).2.nextJobId = jobs.nextJobId + 1 ∧
      (jobs.addJob pgid commandName state).2.jobList = Function.update jobs.jobList i
        ⟨some pgid, commandName.take (maxCmdName - 1), state, jobs.nextJobId⟩ := by
  cases state <;> simp [addJob, free, set]

theorem addJob_none (full : jobs.find (·.pgid.isNone) = none) (pgid : Nat) (commandName : List Char)
    (state : JobState) :
    (jobs.addJob pgid commandName state).1 = none ∧
      (jobs.addJob pgid commandName state).2.nextJobId = jobs.nextJobId ∧
      (jobs.addJob pgid commandName state).2.jobList = jobs.jobList := by
  simp [addJob, full]

def Distinct (jobs : Jobs) : Prop :=
  ∀ i j p, (jobs.jobList i).pgid = some p → (jobs.jobList j).pgid = some p → i = j

theorem removeJobByPgid_pgid (distinct : jobs.Distinct) (pid : Nat) (i : Fin maxJobs) :
    ((jobs.removeJobByPgid pid).jobList i).pgid
      = if (jobs.jobList i).pgid = some pid then none else (jobs.jobList i).pgid := by
  cases found : jobs.find (·.pgid == some pid) with
  | none =>
    have other := find_none found i
    simp only [removeJobByPgid, found]
    rw [if_neg (by simpa using other)]
  | some j =>
    have holds : (jobs.jobList j).pgid = some pid := by simpa using find_some found
    simp only [removeJobByPgid, found, set]
    by_cases same : i = j
    · subst same
      simp [holds]
    · have other : (jobs.jobList i).pgid ≠ some pid := fun here => same (distinct i j pid here holds)
      simp [same, other]

theorem removeJobByPgid_jobId (pid : Nat) (i : Fin maxJobs) :
    ((jobs.removeJobByPgid pid).jobList i).jobId = (jobs.jobList i).jobId := by
  cases found : jobs.find (·.pgid == some pid) with
  | none => simp only [removeJobByPgid, found]
  | some j =>
    simp only [removeJobByPgid, found, set]
    by_cases same : i = j
    · subst same
      simp
    · simp [same]

theorem removeJobByPgid_nextJobId (pid : Nat) :
    (jobs.removeJobByPgid pid).nextJobId = jobs.nextJobId := by
  cases found : jobs.find (·.pgid == some pid) <;> simp only [removeJobByPgid, found, set]

theorem reapExited_entries (pid : Nat) :
    (jobs.reapExited pid).jobList = (jobs.removeJobByPgid pid).jobList ∧
      (jobs.reapExited pid).nextJobId = jobs.nextJobId := by
  cases found : jobs.find (·.pgid == some pid) with
  | none => simp [reapExited, found, removeJobByPgid_nextJobId]
  | some j =>
    have again (line : String) : (jobs.print line).find (·.pgid == some pid) = some j := found
    simp [reapExited, removeJobByPgid, found, again, set]

theorem reapStopped_entries (pid : Nat) (i : Fin maxJobs) :
    ((jobs.reapStopped pid).jobList i).pgid = (jobs.jobList i).pgid ∧
      ((jobs.reapStopped pid).jobList i).commandName = (jobs.jobList i).commandName ∧
      ((jobs.reapStopped pid).jobList i).jobId = (jobs.jobList i).jobId := by
  cases found : jobs.find (·.pgid == some pid) with
  | none => simp only [reapStopped, found, and_self]
  | some j =>
    simp only [reapStopped, found, set]
    by_cases same : i = j
    · subst same
      simp
    · simp [same]

theorem removeJobByPgid_other {pid : Nat} {i : Fin maxJobs} (other : (jobs.jobList i).pgid ≠ some pid) :
    (jobs.removeJobByPgid pid).jobList i = jobs.jobList i := by
  cases found : jobs.find (·.pgid == some pid) with
  | none => simp only [removeJobByPgid, found]
  | some j =>
    have holds : (jobs.jobList j).pgid = some pid := by simpa using find_some found
    have apart : i ≠ j := by
      rintro rfl
      exact other holds
    simp only [removeJobByPgid, found, set, Function.update_of_ne apart]

theorem reapStopped_nextJobId (pid : Nat) : (jobs.reapStopped pid).nextJobId = jobs.nextJobId := by
  cases found : jobs.find (·.pgid == some pid) <;> simp only [reapStopped, found, set]

theorem getJobByJid_some {jid : Nat} {job : Job} (found : jobs.getJobByJid jid = some job) :
    ∃ i, jobs.jobList i = job ∧ job.pgid.isSome ∧ job.jobId = jid := by
  obtain ⟨i, first, rfl⟩ := Option.map_eq_some_iff.mp found
  have holds := find_some first
  simp only [Bool.and_eq_true, beq_iff_eq] at holds
  exact ⟨i, rfl, holds⟩

theorem getJobByJid_isSome {jid : Nat} {i : Fin maxJobs} (taken : (jobs.jobList i).pgid.isSome)
    (numbered : (jobs.jobList i).jobId = jid) : ∃ job, jobs.getJobByJid jid = some job := by
  obtain ⟨j, found⟩ := jobs.find_isSome (i := i)
    (fun job => job.pgid.isSome && job.jobId == jid) (by simp [taken, numbered])
  exact ⟨jobs.jobList j, Option.map_eq_some_iff.mpr ⟨j, found, rfl⟩⟩

theorem mostRecentLoop_greatest (entries : List (Fin maxJobs)) (maxJid : Int)
    (recentJob : Option (Fin maxJobs)) :
    (jobs.mostRecentLoop entries maxJid recentJob = recentJob ∧
      ∀ i ∈ entries, (jobs.jobList i).pgid.isSome → ((jobs.jobList i).jobId : Int) ≤ maxJid) ∨
    ∃ i ∈ entries, jobs.mostRecentLoop entries maxJid recentJob = some i ∧
      (jobs.jobList i).pgid.isSome ∧ maxJid < (jobs.jobList i).jobId ∧
      ∀ j ∈ entries, (jobs.jobList j).pgid.isSome → (jobs.jobList j).jobId ≤ (jobs.jobList i).jobId := by
  induction entries generalizing maxJid recentJob with
  | nil => exact .inl ⟨rfl, by simp⟩
  | cons i rest ih =>
    rw [mostRecentLoop]
    by_cases newer : (jobs.jobList i).pgid.isSome ∧ ((jobs.jobList i).jobId : Int) > maxJid
    · simp only [if_pos newer]
      right
      rcases ih (jobs.jobList i).jobId (some i) with ⟨same, smaller⟩ | ⟨k, member, found, taken, greater, all⟩
      · refine ⟨i, List.mem_cons_self, same, newer.1, newer.2, fun j here taken => ?_⟩
        rcases List.mem_cons.mp here with rfl | later
        · exact le_rfl
        · exact Int.ofNat_le.mp (smaller j later taken)
      · refine ⟨k, List.mem_cons_of_mem _ member, found, taken, by omega, fun j here taken => ?_⟩
        rcases List.mem_cons.mp here with rfl | later
        · omega
        · exact all j later taken
    · simp only [if_neg newer]
      have passed (taken : (jobs.jobList i).pgid.isSome) : ((jobs.jobList i).jobId : Int) ≤ maxJid :=
        not_lt.mp fun greater => newer ⟨taken, greater⟩
      rcases ih maxJid recentJob with ⟨same, smaller⟩ | ⟨k, member, found, taken, greater, all⟩
      · refine .inl ⟨same, fun j here taken => ?_⟩
        rcases List.mem_cons.mp here with rfl | later
        · exact passed taken
        · exact smaller j later taken
      · refine .inr ⟨k, List.mem_cons_of_mem _ member, found, taken, greater, fun j here taken => ?_⟩
        rcases List.mem_cons.mp here with rfl | later
        · have before := passed taken
          omega
        · exact all j later taken

theorem getMostRecentJob_none (recent : jobs.getMostRecentJob = none) (i : Fin maxJobs) :
    (jobs.jobList i).pgid = none := by
  rcases jobs.mostRecentLoop_greatest (List.finRange maxJobs) (-1) none with
    ⟨_, smaller⟩ | ⟨k, _, found, _⟩
  · by_contra taken
    have negative := smaller i (List.mem_finRange i) (Option.isSome_iff_ne_none.mpr taken)
    omega
  · rw [getMostRecentJob, found] at recent
    contradiction

theorem getMostRecentJob_some {job : Job} (recent : jobs.getMostRecentJob = some job) :
    ∃ i, jobs.jobList i = job ∧ job.pgid.isSome ∧
      ∀ j, (jobs.jobList j).pgid.isSome → (jobs.jobList j).jobId ≤ job.jobId := by
  rcases jobs.mostRecentLoop_greatest (List.finRange maxJobs) (-1) none with
    ⟨none_, _⟩ | ⟨k, _, found, taken, _, greatest⟩
  · rw [getMostRecentJob, none_] at recent
    contradiction
  · rw [getMostRecentJob, found] at recent
    obtain rfl := Option.some.inj recent
    exact ⟨k, rfl, taken, fun j => greatest j (List.mem_finRange j)⟩

end Jobs

end SystemsSuite.Shell
