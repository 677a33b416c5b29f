import SystemsSuite.Lib.Numbered
import SystemsSuite.Shell.Jobs

set_option autoImplicit false

namespace SystemsSuite.Shell

open Lib

-- A job that `add_job` made: the entry it returned, and what it put there.
structure AddedJob where
  entry : Fin maxJobs
  jobId : Nat
  pgid : Nat
  commandName : List Char
  removed : Bool
  deriving DecidableEq, Repr

namespace AddedJob

def remove (pid : Nat) (job : AddedJob) : AddedJob :=
  if job.pgid = pid then { job with removed := true } else job

-- The entry `e` is the one of the job.
structure Shown (job : AddedJob) (e : Job) : Prop where
  pgid : e.pgid = some job.pgid
  commandName : e.commandName = job.commandName
  jobId : e.jobId = job.jobId

@[simp] theorem remove_jobId (pid : Nat) (job : AddedJob) : (job.remove pid).jobId = job.jobId := by
  unfold remove
  split_ifs <;> rfl

theorem remove_live {pid : Nat} {job : AddedJob} (live : (job.remove pid).removed = false) :
    job.remove pid = job ∧ job.pgid ≠ pid := by
  unfold remove at live ⊢
  split_ifs at live ⊢ with same
  exact ⟨rfl, same⟩

end AddedJob

-- The job list, and all jobs so far in the order in which they were added.
structure JobLog where
  jobs : Jobs
  added : List AddedJob

inductive JobCall
  | addJob (pgid : Nat) (commandName : List Char) (state : JobState)
  | removeJobByPgid (pgid : Nat)
  -- The two branches of `reap_background_jobs`.
  | reapExited (pid : Nat)
  | reapStopped (pid : Nat)
  deriving DecidableEq, Repr

namespace JobLog

def addJob (w : JobLog) (pgid : Nat) (commandName : List Char) (state : JobState) : JobLog :=
  match w.jobs.addJob pgid commandName state with
  | (some i, jobs) =>
    let job := jobs.jobList i
    ⟨jobs, w.added ++ [⟨i, job.jobId, pgid, job.commandName, false⟩]⟩
  | (none, jobs) => ⟨jobs, w.added⟩

-- The process group of a new job is not the one of a job in the list.
def next (w : JobLog) : JobCall → Option JobLog
  | .addJob pgid commandName state =>
    if ∀ i, (w.jobs.jobList i).pgid ≠ some pgid then some (w.addJob pgid commandName state) else none
  | .removeJobByPgid pgid => some ⟨w.jobs.removeJobByPgid pgid, w.added.map (AddedJob.remove pgid)⟩
  | .reapExited pid => some ⟨w.jobs.reapExited pid, w.added.map (AddedJob.remove pid)⟩
  | .reapStopped pid => some ⟨w.jobs.reapStopped pid, w.added⟩

def AtStart (w : JobLog) : Prop := (∃ jobs : Jobs, w.jobs = jobs.initializeJobs) ∧ w.added = []

def system : System JobLog JobCall := System.ofNext AtStart next

def live (w : JobLog) : List AddedJob := w.added.filter fun job => !job.removed

-- The entries in use are those of the jobs that were added and not removed.
structure Agrees (w : JobLog) : Prop where
  numbered : Numbered AddedJob.jobId w.added w.jobs.nextJobId
  count : w.jobs.nextJobId = w.added.length + 1
  shown : ∀ job ∈ w.added, job.removed = false → job.Shown (w.jobs.jobList job.entry)
  backed : ∀ i, (w.jobs.jobList i).pgid.isSome → ∃ job ∈ w.added, job.removed = false ∧ job.entry = i
  distinct : w.jobs.Distinct

variable {w w' : JobLog}

theorem AtStart.agrees (start : w.AtStart) : w.Agrees := by
  obtain ⟨⟨jobs, same⟩, none_⟩ := start
  constructor
  next =>
    rw [none_]
    exact .nil _ _
  next =>
    rw [same, none_]
    rfl
  next => simp [none_]
  next =>
    intro i taken
    rw [same] at taken
    contradiction
  next =>
    intro i j p here
    rw [same] at here
    contradiction

theorem Agrees.congr (agrees : w.Agrees) {jobs : Jobs} (nextJobId : jobs.nextJobId = w.jobs.nextJobId)
    (same : ∀ i, (jobs.jobList i).pgid = (w.jobs.jobList i).pgid ∧
      (jobs.jobList i).commandName = (w.jobs.jobList i).commandName ∧
      (jobs.jobList i).jobId = (w.jobs.jobList i).jobId) : (JobLog.mk jobs w.added).Agrees := by
  constructor
  next => exact nextJobId ▸ agrees.numbered
  next => exact nextJobId.trans agrees.count
  next =>
    intro job member live
    have shown := agrees.shown job member live
    have entry := same job.entry
    exact ⟨entry.1.trans shown.pgid, entry.2.1.trans shown.commandName, entry.2.2.trans shown.jobId⟩
  next =>
    intro i taken
    apply agrees.backed i
    rwa [← (same i).1]
  next =>
    intro i j p here there
    exact agrees.distinct i j p ((same i).1 ▸ here) ((same j).1 ▸ there)

theorem addJob_full (full : w.jobs.find (·.pgid.isNone) = none) (pgid : Nat) (commandName : List Char)
    (state : JobState) :
    w.addJob pgid commandName state = ⟨(w.jobs.addJob pgid commandName state).2, w.added⟩ := by
  have result := (Jobs.addJob_none full pgid commandName state).1
  unfold JobLog.addJob
  split
  next same => rw [same] at result; contradiction
  next same => rw [same]

theorem addJob_free {i : Fin maxJobs} (free : w.jobs.find (·.pgid.isNone) = some i) (pgid : Nat)
    (commandName : List Char) (state : JobState) :
    w.addJob pgid commandName state = ⟨(w.jobs.addJob pgid commandName state).2,
      w.added ++ [⟨i, w.jobs.nextJobId, pgid, commandName.take (maxCmdName - 1), false⟩]⟩ := by
  obtain ⟨result, _, jobList⟩ := Jobs.addJob_some free pgid commandName state
  unfold JobLog.addJob
  split
  next j jobs same =>
    rw [same] at result jobList
    obtain rfl := Option.some.inj result
    change jobs.jobList = _ at jobList
    rw [same, jobList, Function.update_self]
  next same => rw [same] at result; contradiction

theorem Agrees.addJob (agrees : w.Agrees) (pgid : Nat) (commandName : List Char) (state : JobState)
    (fresh : ∀ i, (w.jobs.jobList i).pgid ≠ some pgid) : (w.addJob pgid commandName state).Agrees := by
  cases free : w.jobs.find (·.pgid.isNone) with
  | none =>
    obtain ⟨_, nextJobId, jobList⟩ := Jobs.addJob_none free pgid commandName state
    rw [addJob_full free]
    exact agrees.congr nextJobId fun i => by rw [jobList]; exact ⟨rfl, rfl, rfl⟩
  | some i =>
    obtain ⟨_, nextJobId, jobList⟩ := Jobs.addJob_some free pgid commandName state
    have unused : (w.jobs.jobList i).pgid = none := by simpa using Jobs.find_some free
    rw [addJob_free free]
    constructor
    next =>
      change Numbered _ _ (w.jobs.addJob pgid commandName state).2.nextJobId
      rw [nextJobId]
      exact agrees.numbered.add rfl
    next =>
      change (w.jobs.addJob pgid commandName state).2.nextJobId = _
      rw [nextJobId, agrees.count, List.length_append]
      rfl
    next =>
      intro job member live
      change job.Shown ((w.jobs.addJob pgid commandName state).2.jobList job.entry)
      rw [jobList]
      rcases List.mem_append.mp member with earlier | new
      · have shown := agrees.shown job earlier live
        have other : job.entry ≠ i := by
          rintro rfl
          rw [shown.pgid] at unused
          contradiction
        rw [Function.update_of_ne other]
        exact shown
      · obtain rfl := List.mem_singleton.mp new
        rw [Function.update_self]
        exact ⟨rfl, rfl, rfl⟩
    next =>
      intro j taken
      change ((w.jobs.addJob pgid commandName state).2.jobList j).pgid.isSome at taken
      rw [jobList] at taken
      by_cases same : j = i
      · exact ⟨_, List.mem_append_right _ (List.mem_singleton_self _), rfl, same.symm⟩
      · rw [Function.update_of_ne same] at taken
        obtain ⟨job, member, live, entry⟩ := agrees.backed j taken
        exact ⟨job, List.mem_append_left _ member, live, entry⟩
    next =>
      intro j k p here there
      change ((w.jobs.addJob pgid commandName state).2.jobList j).pgid = some p at here
      change ((w.jobs.addJob pgid commandName state).2.jobList k).pgid = some p at there
      rw [jobList] at here there
      by_cases atJ : j = i <;> by_cases atK : k = i
      · exact atJ.trans atK.symm
      · subst atJ
        rw [Function.update_self] at here
        rw [Function.update_of_ne atK] at there
        obtain rfl := Option.some.inj here
        exact absurd there (fresh k)
      · subst atK
        rw [Function.update_self] at there
        rw [Function.update_of_ne atJ] at here
        obtain rfl := Option.some.inj there
        exact absurd here (fresh j)
      · rw [Function.update_of_ne atJ] at here
        rw [Function.update_of_ne atK] at there
        exact agrees.distinct j k p here there

theorem Agrees.remove (agrees : w.Agrees) (pid : Nat) :
    (JobLog.mk (w.jobs.removeJobByPgid pid) (w.added.map (AddedJob.remove pid))).Agrees := by
  have pgids (i : Fin maxJobs) := Jobs.removeJobByPgid_pgid agrees.distinct pid i
  have nextJobId := w.jobs.removeJobByPgid_nextJobId pid
  have remaining {i : Fin maxJobs} {p : Nat}
      (here : ((w.jobs.removeJobByPgid pid).jobList i).pgid = some p) :
      (w.jobs.jobList i).pgid = some p ∧ p ≠ pid := by
    rw [pgids] at here
    split_ifs at here with gone
    refine ⟨here, ?_⟩
    rintro rfl
    exact gone here
  constructor
  next =>
    change Numbered _ _ (w.jobs.removeJobByPgid pid).nextJobId
    rw [nextJobId]
    exact agrees.numbered.map fun job => job.remove_jobId pid
  next =>
    change (w.jobs.removeJobByPgid pid).nextJobId = _
    rw [nextJobId, agrees.count, List.length_map]
  next =>
    intro job member live
    obtain ⟨before, earlier, rfl⟩ := List.mem_map.mp member
    obtain ⟨same, other⟩ := AddedJob.remove_live live
    rw [same] at live ⊢
    have shown := agrees.shown before earlier live
    have kept : (w.jobs.jobList before.entry).pgid ≠ some pid := by
      rw [shown.pgid]
      exact fun here => other (Option.some.inj here)
    change before.Shown ((w.jobs.removeJobByPgid pid).jobList before.entry)
    rw [Jobs.removeJobByPgid_other kept]
    exact shown
  next =>
    intro i taken
    obtain ⟨p, here⟩ := Option.isSome_iff_exists.mp taken
    obtain ⟨before, other⟩ := remaining here
    obtain ⟨job, member, live, rfl⟩ := agrees.backed i (Option.isSome_iff_exists.mpr ⟨p, before⟩)
    have apart : job.pgid ≠ pid := by
      have shown := agrees.shown job member live
      rw [shown.pgid] at before
      obtain rfl := Option.some.inj before
      exact other
    have same : job.remove pid = job := if_neg apart
    exact ⟨job, List.mem_map.mpr ⟨job, member, same⟩, live, rfl⟩
  next =>
    intro i j p here there
    exact agrees.distinct i j p (remaining here).1 (remaining there).1

theorem Agrees.step {l : JobCall} (agrees : w.Agrees) (taken : w.next l = some w') : w'.Agrees := by
  cases l with
  | addJob pgid commandName state =>
    rw [next] at taken
    split_ifs at taken with fresh
    obtain rfl := Option.some.inj taken
    exact agrees.addJob pgid commandName state fresh
  | removeJobByPgid pgid =>
    obtain rfl := Option.some.inj taken
    exact agrees.remove pgid
  | reapExited pid =>
    obtain rfl := Option.some.inj taken
    obtain ⟨jobList, nextJobId⟩ := w.jobs.reapExited_entries pid
    exact (agrees.remove pid).congr (nextJobId.trans (w.jobs.removeJobByPgid_nextJobId pid).symm)
      fun i => by rw [jobList]; exact ⟨rfl, rfl, rfl⟩
  | reapStopped pid =>
    obtain rfl := Option.some.inj taken
    exact agrees.congr (w.jobs.reapStopped_nextJobId pid) (w.jobs.reapStopped_entries pid)

theorem reachable_agrees (reached : system.Reachable w) : w.Agrees :=
  System.Reachable.invariant (fun _ => AtStart.agrees) (fun _ _ _ agrees taken => agrees.step taken) reached

theorem Agrees.entry_unique (agrees : w.Agrees) {i j : Fin maxJobs} (here : (w.jobs.jobList i).pgid.isSome)
    (there : (w.jobs.jobList j).pgid.isSome) (same : (w.jobs.jobList i).jobId = (w.jobs.jobList j).jobId) :
    i = j := by
  obtain ⟨job, member, live, rfl⟩ := agrees.backed i here
  obtain ⟨job', member', live', rfl⟩ := agrees.backed j there
  have shown := agrees.shown job member live
  have shown' := agrees.shown job' member' live'
  rw [shown.jobId, shown'.jobId] at same
  rw [agrees.numbered.unique member member' same]

theorem Agrees.found {jid : Nat} {e : Job} (agrees : w.Agrees) (lookup : w.jobs.getJobByJid jid = some e) :
    ∃ job ∈ w.added, job.removed = false ∧ job.jobId = jid ∧ w.jobs.jobList job.entry = e := by
  obtain ⟨i, rfl, taken, numbered⟩ := Jobs.getJobByJid_some lookup
  obtain ⟨job, member, live, rfl⟩ := agrees.backed i taken
  exact ⟨job, member, live, (agrees.shown job member live).jobId.symm.trans numbered, rfl⟩

theorem Agrees.getJobByJid_live (agrees : w.Agrees) {job : AddedJob} (member : job ∈ w.added)
    (live : job.removed = false) : w.jobs.getJobByJid job.jobId = some (w.jobs.jobList job.entry) := by
  have shown := agrees.shown job member live
  obtain ⟨e, lookup⟩ := Jobs.getJobByJid_isSome (Option.isSome_iff_exists.mpr ⟨_, shown.pgid⟩) shown.jobId
  obtain ⟨job', member', _, same, rfl⟩ := agrees.found lookup
  rw [lookup, agrees.numbered.unique member' member same]

theorem Agrees.getMostRecentJob (agrees : w.Agrees) :
    w.jobs.getMostRecentJob = w.live.getLast?.map fun job => w.jobs.jobList job.entry := by
  have numbered : Numbered AddedJob.jobId w.live w.jobs.nextJobId := agrees.numbered.filter _
  have member_live (job : AddedJob) : job ∈ w.live ↔ job ∈ w.added ∧ job.removed = false := by
    simp [live]
  have taken {job : AddedJob} (member : job ∈ w.live) : (w.jobs.jobList job.entry).pgid.isSome := by
    obtain ⟨added, live⟩ := (member_live job).mp member
    exact Option.isSome_iff_exists.mpr ⟨_, (agrees.shown job added live).pgid⟩
  cases recent : w.jobs.getMostRecentJob with
  | none =>
    have unused := Jobs.getMostRecentJob_none recent
    have empty : w.live = [] := by
      apply List.eq_nil_iff_forall_not_mem.mpr
      intro job member
      have used := taken member
      rw [unused] at used
      contradiction
    rw [empty]
    rfl
  | some e =>
    obtain ⟨i, rfl, used, greatest⟩ := Jobs.getMostRecentJob_some recent
    obtain ⟨job, added, live, rfl⟩ := agrees.backed i used
    have member := (member_live job).mpr ⟨added, live⟩
    have isLast := List.getLast?_eq_some_getLast (List.ne_nil_of_mem member)
    generalize w.live.getLast (List.ne_nil_of_mem member) = last at isLast
    have lastMember := List.mem_of_getLast? isLast
    obtain ⟨lastAdded, lastLive⟩ := (member_live last).mp lastMember
    have above := numbered.last_greatest isLast member
    have below := greatest last.entry (taken lastMember)
    rw [(agrees.shown last lastAdded lastLive).jobId, (agrees.shown job added live).jobId] at below
    rw [isLast, numbered.unique lastMember member (Nat.le_antisymm below above)]
    rfl

-- `add_job` without a free entry prints a message and leaves the rest as it is.
theorem addJob_failed (jobs : Jobs) (pgid : Nat) (commandName : List Char) (state : JobState)
    (failed : (jobs.addJob pgid commandName state).1 = none) :
    (∀ i, (jobs.jobList i).pgid.isSome) ∧
      (jobs.addJob pgid commandName state).2 = jobs.print "shell: too many background jobs" := by
  cases free : jobs.find (·.pgid.isNone) with
  | some i =>
    rw [(Jobs.addJob_some free pgid commandName state).1] at failed
    contradiction
  | none =>
    refine ⟨fun i => ?_, by simp only [Jobs.addJob, free]⟩
    simpa [Option.isSome_iff_ne_none] using Jobs.find_none free i

theorem job_identifiers (w : JobLog) (reached : system.Reachable w) :
    (∀ i j, (w.jobs.jobList i).pgid.isSome → (w.jobs.jobList j).pgid.isSome →
      (w.jobs.jobList i).jobId = (w.jobs.jobList j).jobId → i = j) ∧
    (∀ jid e, w.jobs.getJobByJid jid = some e ↔
      ∃ job ∈ w.added, job.removed = false ∧ job.jobId = jid ∧ w.jobs.jobList job.entry = e) ∧
    (∀ job ∈ w.added, job.jobId ≤ w.added.length ∧
      (job.removed = false → job.Shown (w.jobs.jobList job.entry))) ∧
    w.jobs.getMostRecentJob = w.live.getLast?.map (fun job => w.jobs.jobList job.entry) ∧
    (∀ pgid commandName state, (w.jobs.addJob pgid commandName state).1 = none →
      (∀ i, (w.jobs.jobList i).pgid.isSome) ∧
      (w.jobs.addJob pgid commandName state).2.jobList = w.jobs.jobList ∧
      (w.jobs.addJob pgid commandName state).2.nextJobId = w.jobs.nextJobId) := by
  have agrees := reachable_agrees reached
  refine ⟨fun i j => agrees.entry_unique, fun jid e => ⟨agrees.found, ?_⟩, fun job member => ⟨?_, ?_⟩,
    agrees.getMostRecentJob, fun pgid commandName state failed => ?_⟩
  · rintro ⟨job, member, live, rfl, rfl⟩
    exact agrees.getJobByJid_live member live
  · have below := agrees.numbered.below job member
    rw [agrees.count] at below
    exact Nat.le_of_lt_succ below
  · exact agrees.shown job member
  · obtain ⟨full, unchanged⟩ := addJob_failed w.jobs pgid commandName state failed
    rw [unchanged]
    exact ⟨full, rfl, rfl⟩

def started : JobLog := ⟨(Jobs.mk (fun _ => ⟨none, [], .running, 0⟩) 0 []).initializeJobs, []⟩

-- The third job gets the entry of the first one, before the entry of the second.
theorem reused_entry_most_recent :
    ∃ w : JobLog, w.added.map (fun job => (job.jobId, job.entry.val)) = [(1, 0), (2, 1), (3, 0)] ∧
      w.jobs.getMostRecentJob = w.live.getLast?.map fun job => w.jobs.jobList job.entry := by
  let calls : List JobCall := [.addJob 10 "yes".toList .running, .addJob 11 "cat".toList .stopped,
    .reapExited 10, .addJob 12 "sleep".toList .running, .removeJobByPgid 11]
  have runs : (System.execute next (fun _ _ => true) started calls).any (fun w =>
      w.added.map (fun job => (job.jobId, job.entry.val)) == [(1, 0), (2, 1), (3, 0)]) = true := by
    decide +kernel
  obtain ⟨w, ran, entries⟩ := (Option.any_eq_true _ _).mp runs
  have reached : system.Reachable w := System.execute_reachable ⟨⟨_, rfl⟩, rfl⟩ calls ran
  exact ⟨w, eq_of_beq entries, (job_identifiers w reached).2.2.2.1⟩

end JobLog

end SystemsSuite.Shell
