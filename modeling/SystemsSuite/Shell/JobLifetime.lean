import SystemsSuite.Shell.Jobs

set_option autoImplicit false

namespace SystemsSuite.Shell

open Lib

-- A stopped process is `stopping` until `waitpid` has reported the stop.
inductive ProcessState
  | running
  | stopping
  | stopped
  | exited
  deriving DecidableEq, Repr

-- A new process is in the shell's group until its `setpgid`, and stays there when that fails.
inductive Membership
  | forked
  | joined
  | outside
  deriving DecidableEq, Repr

-- `leader` is `pids[0]` and `pipeline` the number of the background pipeline that the process belongs to.
structure Process where
  pid : Nat
  leader : Nat
  pipeline : Nat
  group : Membership
  state : ProcessState
  deriving DecidableEq, Repr

-- The job list and the processes of the background pipelines that are not reaped yet. `pipelines` has, for every
-- background pipeline so far, the number of the job added for it.
structure World where
  jobs : Jobs
  processes : List Process
  pipelines : List (Option Nat)

inductive JobStep
  -- `execute_pipeline` in the background: the words `cmds[i].args[0]`, and what `fork` returns up to
  -- the first that fails.
  | executePipeline (names : List (List Char)) (pids : List Nat)
  -- The new process calls `setpgid`.
  | setpgid (pid : Nat)
  | exit (pid : Nat)
  | stop (pid : Nat)
  | cont (pid : Nat)
  -- A turn of the loop of `reap_background_jobs`, for the process that `waitpid` picks.
  | reap (pid : Nat)

namespace World

-- The kernel gives a new process neither the id of a process nor that of a process group.
def Fresh (w : World) (pids : List Nat) : Prop :=
  pids.Nodup ∧ ∀ pid ∈ pids, ∀ c ∈ w.processes, c.pid ≠ pid ∧ (c.group = .joined → c.leader ≠ pid)

instance (w : World) (pids : List Nat) : Decidable (w.Fresh pids) :=
  inferInstanceAs (Decidable (_ ∧ _))

def fork (w : World) (pids : List Nat) : List Process :=
  w.processes ++ pids.map fun pid => ⟨pid, pids.headD 0, w.pipelines.length, .forked, .running⟩

def GroupExists (w : World) (pgid : Nat) : Prop := ∃ c ∈ w.processes, c.group = .joined ∧ c.leader = pgid

instance (w : World) (pgid : Nat) : Decidable (w.GroupExists pgid) := inferInstanceAs (Decidable (∃ _ ∈ _, _))

-- The first process makes the group, the others can enter it while it exists. The result is not looked at.
def setpgid (w : World) (pid : Nat) : World :=
  { w with processes := w.processes.map fun c =>
      if c.pid = pid then { c with group := if c.leader = pid ∨ w.GroupExists c.leader then .joined else .outside }
      else c }

def executePipeline (w : World) (names : List (List Char)) (pids : List Nat) : World :=
  if pids.length < names.length then
    -- `fork` failed: nothing is added for the processes that have been started.
    { w with processes := w.fork pids, pipelines := w.pipelines ++ [none] }
  else
    match w.jobs.addJob (pids.headD 0) (fullCmd names) .running with
    | (entry, jobs) =>
      { jobs := jobs
        processes := w.fork pids
        pipelines := w.pipelines ++ [entry.map fun i => (jobs.jobList i).jobId] }

def setState (w : World) (pid : Nat) (state : ProcessState) : World :=
  { w with processes := w.processes.map fun c => if c.pid = pid then { c with state := state } else c }

def stateOf (w : World) (pid : Nat) : Option ProcessState :=
  (w.processes.find? (·.pid == pid)).map (·.state)

def groupOf (w : World) (pid : Nat) : Option Membership :=
  (w.processes.find? (·.pid == pid)).map (·.group)

-- `waitpid` has reported the exit of `pid`.
def reaped (w : World) (pid : Nat) : World :=
  { w with
    jobs := w.jobs.reapExited pid
    processes := w.processes.filter (·.pid ≠ pid) }

-- `waitpid` has reported that `pid` was stopped.
def reportedStop (w : World) (pid : Nat) : World :=
  { w.setState pid .stopped with jobs := w.jobs.reapStopped pid }

def next (w : World) : JobStep → Option World
  | .executePipeline names pids =>
    if names ≠ [] ∧ pids.length ≤ names.length ∧ w.Fresh pids then some (w.executePipeline names pids)
    else none
  | .setpgid pid =>
    if w.stateOf pid = some .running ∧ w.groupOf pid = some .forked then some (w.setpgid pid) else none
  | .exit pid => match w.stateOf pid with
    | some .running | some .stopping | some .stopped => some (w.setState pid .exited)
    | _ => none
  | .stop pid => match w.stateOf pid with
    | some .running => some (w.setState pid .stopping)
    | _ => none
  | .cont pid => match w.stateOf pid with
    | some .stopping | some .stopped => some (w.setState pid .running)
    | _ => none
  | .reap pid => match w.stateOf pid with
    | some .exited => some (w.reaped pid)
    | some .stopping => some (w.reportedStop pid)
    | _ => none

def AtStart (w : World) : Prop :=
  (∃ jobs : Jobs, w.jobs = jobs.initializeJobs) ∧ w.processes = [] ∧ w.pipelines = []

def system : System World JobStep := System.ofNext AtStart next

def HasJob (w : World) (k : Nat) : Prop :=
  ∃ jid job, w.pipelines[k]? = some (some jid) ∧ w.jobs.getJobByJid jid = some job

def Unreaped (w : World) (k : Nat) : Prop := ∃ c ∈ w.processes, c.pipeline = k

-- A job is in the table as long as a process of its pipeline is.
def Tracks (w : World) : Prop := ∀ k < w.pipelines.length, w.HasJob k ↔ w.Unreaped k

-- The commands for jobs find the job of every process that has called `setpgid`, and the process is in the
-- group that they signal.
def Reaches (w : World) : Prop :=
  ∀ c ∈ w.processes, c.group ≠ .forked → c.group = .joined ∧
    ∃ jid job, w.pipelines[c.pipeline]? = some (some jid) ∧
      w.jobs.getJobByJid jid = some job ∧ job.pgid = some c.leader ∧
      job ∈ w.jobs.printJobs ∧ c.leader ∈ w.jobs.killAllJobs

-- A pipeline is started whole and finds a free entry, its first process is reaped last, and the others call
-- `setpgid` when the group exists.
def Orderly (w : World) : JobStep → Prop
  | .executePipeline names pids =>
    pids = [] ∨ (pids.length = names.length ∧ ∃ i, (w.jobs.jobList i).pgid = none)
  | .reap pid => w.stateOf pid = some .exited → ∀ c ∈ w.processes, c.pid = pid → c.leader = pid →
    ∀ d ∈ w.processes, d.pipeline = c.pipeline → d.pid = pid
  | .setpgid pid => ∀ c ∈ w.processes, c.pid = pid → c.leader = pid ∨ w.GroupExists c.leader
  | _ => True

instance (w : World) (l : JobStep) : Decidable (w.Orderly l) :=
  match l with
  | .executePipeline _ _ => inferInstanceAs (Decidable (_ ∨ _))
  | .reap _ => inferInstanceAs (Decidable (_ → _))
  | .setpgid _ => inferInstanceAs (Decidable (∀ _ ∈ _, _))
  | .exit _ | .stop _ | .cont _ => inferInstanceAs (Decidable True)

structure Kept (w : World) : Prop where
  pids : (w.processes.map (·.pid)).Nodup
  inside : ∀ c ∈ w.processes, c.group ≠ .outside
  grouped : ∀ c ∈ w.processes, ∀ d ∈ w.processes, c.leader = d.leader ↔ c.pipeline = d.pipeline
  led : ∀ c ∈ w.processes, ∃ d ∈ w.processes, d.pid = c.leader ∧ d.leader = c.leader
  entered : ∀ c ∈ w.processes, ∃ i, (w.jobs.jobList i).pgid = some c.leader
  backed : ∀ i p, (w.jobs.jobList i).pgid = some p → ∃ c ∈ w.processes, c.pid = p ∧ c.leader = p ∧
    w.pipelines[c.pipeline]? = some (some (w.jobs.jobList i).jobId)
  distinct : w.jobs.Distinct
  recorded : ∀ k k' jid : Nat, w.pipelines[k]? = some (some jid) → w.pipelines[k']? = some (some jid) → k = k'
  below : ∀ k jid : Nat, w.pipelines[k]? = some (some jid) → jid < w.jobs.nextJobId

variable {w w' : World}

theorem Kept.led_job (kept : w.Kept) {c : Process} (here : c ∈ w.processes) :
    ∃ i, (w.jobs.jobList i).pgid = some c.leader ∧
      w.pipelines[c.pipeline]? = some (some (w.jobs.jobList i).jobId) := by
  obtain ⟨i, entry⟩ := kept.entered c here
  obtain ⟨d, present, _, group, job⟩ := kept.backed i c.leader entry
  have same : d.pipeline = c.pipeline := (kept.grouped d present c here).mp group
  exact ⟨i, entry, same ▸ job⟩

theorem Kept.unreaped (kept : w.Kept) {k : Nat} (job : w.HasJob k) : w.Unreaped k := by
  obtain ⟨jid, job, added, found⟩ := job
  obtain ⟨i, rfl, taken, numbered⟩ := Jobs.getJobByJid_some found
  obtain ⟨p, entry⟩ := Option.isSome_iff_exists.mp taken
  obtain ⟨c, here, _, _, backing⟩ := kept.backed i p entry
  exact ⟨c, here, kept.recorded _ _ jid (numbered ▸ backing) added⟩

theorem Kept.same_entry (kept : w.Kept) {i j : Fin maxJobs} {p : Nat}
    (first : (w.jobs.jobList i).pgid = some p) (second : (w.jobs.jobList j).pgid.isSome)
    (numbered : (w.jobs.jobList j).jobId = (w.jobs.jobList i).jobId) : j = i := by
  obtain ⟨q, other⟩ := Option.isSome_iff_exists.mp second
  obtain ⟨c, here, _, group, job⟩ := kept.backed i p first
  obtain ⟨d, there, _, group', job'⟩ := kept.backed j q other
  have one : c.pipeline = d.pipeline := kept.recorded _ _ _ job (numbered ▸ job')
  have together : p = q := group ▸ group' ▸ (kept.grouped c here d there).mpr one
  exact kept.distinct j i p (together ▸ other) first

theorem Kept.job_of (kept : w.Kept) {c : Process} (here : c ∈ w.processes) :
    ∃ jid job, w.pipelines[c.pipeline]? = some (some jid) ∧ w.jobs.getJobByJid jid = some job ∧
      job.pgid = some c.leader ∧ job ∈ w.jobs.printJobs ∧ c.leader ∈ w.jobs.killAllJobs := by
  obtain ⟨i, entry, job⟩ := kept.led_job here
  have taken : (w.jobs.jobList i).pgid.isSome := by simp [entry]
  obtain ⟨found, lookup⟩ := Jobs.getJobByJid_isSome taken rfl
  obtain ⟨j, rfl, other, numbered⟩ := Jobs.getJobByJid_some lookup
  obtain rfl := kept.same_entry entry other numbered
  refine ⟨_, _, job, lookup, entry, ?_, ?_⟩
  · simp [Jobs.printJobs, taken]
  · exact List.mem_filterMap.mpr ⟨_, List.mem_map_of_mem (List.mem_finRange j), entry⟩

theorem Kept.reaches (kept : w.Kept) : w.Reaches := by
  intro c here called
  obtain ⟨jid, job, found⟩ := kept.job_of here
  refine ⟨?_, jid, job, found⟩
  have inside := kept.inside c here
  cases group : c.group with
  | joined => rfl
  | forked => exact absurd group called
  | outside => exact absurd group inside

theorem Kept.tracks (kept : w.Kept) : w.Tracks := by
  intro k _
  constructor
  · exact kept.unreaped
  · intro ⟨c, here, belongs⟩
    obtain ⟨jid, job, added, found, _⟩ := kept.job_of here
    exact ⟨jid, job, belongs ▸ added, found⟩

theorem mem_fork {pids : List Nat} {c : Process} :
    c ∈ w.fork pids ↔ c ∈ w.processes ∨
      ∃ pid ∈ pids, c = ⟨pid, pids.headD 0, w.pipelines.length, .forked, .running⟩ := by
  simp only [fork, List.mem_append, List.mem_map, eq_comm]

theorem fork_pids {pids : List Nat} (kept : w.Kept) (fresh : w.Fresh pids) :
    ((w.fork pids).map (·.pid)).Nodup := by
  have named : (w.fork pids).map (·.pid) = w.processes.map (·.pid) ++ pids := by
    simp only [fork, List.map_append, List.map_map, Function.comp_def, List.map_id']
  rw [named]
  refine List.nodup_append.mpr ⟨kept.pids, fresh.1, ?_⟩
  intro a old b new same
  obtain ⟨c, here, rfl⟩ := List.mem_map.mp old
  exact (fresh.2 b new c here).1 same

theorem Kept.placed (kept : w.Kept) {c : Process} (here : c ∈ w.processes) :
    c.pipeline < w.pipelines.length := by
  obtain ⟨i, _, job⟩ := kept.led_job here
  exact (List.getElem?_eq_some_iff.mp job).choose

theorem getElem?_append_old {added : Option Nat} {k : Nat} (old : k < w.pipelines.length) :
    (w.pipelines ++ [added])[k]? = w.pipelines[k]? := List.getElem?_append_left old

theorem getElem?_append_some {added : Option Nat} {k jid : Nat}
    (job : (w.pipelines ++ [added])[k]? = some (some jid)) :
    w.pipelines[k]? = some (some jid) ∨ (k = w.pipelines.length ∧ added = some jid) := by
  by_cases old : k < w.pipelines.length
  · rw [getElem?_append_old old] at job
    exact .inl job
  · obtain ⟨inside, _⟩ := List.getElem?_eq_some_iff.mp job
    simp only [List.length_append, List.length_singleton] at inside
    have last : k = w.pipelines.length := by omega
    subst last
    rw [List.getElem?_concat_length] at job
    exact .inr ⟨rfl, Option.some.inj job⟩

theorem Kept.fresh_leader (kept : w.Kept) {pids : List Nat} (fresh : w.Fresh pids) {pid : Nat} (new : pid ∈ pids)
    {c : Process} (here : c ∈ w.processes) : c.leader ≠ pid := by
  obtain ⟨d, there, leads, _⟩ := kept.led c here
  exact leads ▸ (fresh.2 pid new d there).1

theorem fork_inside {pids : List Nat} (kept : w.Kept) : ∀ c ∈ w.fork pids, c.group ≠ .outside := by
  intro c here
  rcases mem_fork.mp here with old | ⟨pid, _, rfl⟩
  · exact kept.inside c old
  · exact nofun

theorem fork_grouped {pids : List Nat} (kept : w.Kept) (fresh : w.Fresh pids) :
    ∀ c ∈ w.fork pids, ∀ d ∈ w.fork pids, c.leader = d.leader ↔ c.pipeline = d.pipeline := by
  have apart (pid : Nat) (new : pid ∈ pids) (c : Process) (here : c ∈ w.processes) :
      c.leader ≠ pids.headD 0 ∧ c.pipeline ≠ w.pipelines.length := by
    cases pids with
    | nil => contradiction
    | cons leader rest =>
      exact ⟨kept.fresh_leader fresh List.mem_cons_self here, (kept.placed here).ne⟩
  intro c here d there
  rcases mem_fork.mp here with old | ⟨pid, new, rfl⟩
  · rcases mem_fork.mp there with old' | ⟨pid', new', rfl⟩
    · exact kept.grouped c old d old'
    · obtain ⟨group, pipeline⟩ := apart pid' new' c old
      exact iff_of_false group pipeline
  · rcases mem_fork.mp there with old' | ⟨pid', new', rfl⟩
    · obtain ⟨group, pipeline⟩ := apart pid new d old'
      exact iff_of_false (Ne.symm group) (Ne.symm pipeline)
    · exact iff_of_true rfl rfl

theorem executePipeline_failed {names : List (List Char)} {pids : List Nat}
    (failed : pids.length < names.length) : w.executePipeline names pids =
      { w with processes := w.fork pids, pipelines := w.pipelines ++ [none] } := by
  simp only [executePipeline, if_pos failed]

theorem executePipeline_unforked (kept : w.Kept) :
    Kept { w with processes := w.fork [], pipelines := w.pipelines ++ [none] } := by
  have same : w.fork [] = w.processes := by simp [fork]
  have earlier {k jid : Nat} (job : (w.pipelines ++ [none])[k]? = some (some jid)) :
      w.pipelines[k]? = some (some jid) := by
    rcases getElem?_append_some job with old | ⟨_, none⟩
    · exact old
    · contradiction
  rw [same]
  exact
    { pids := kept.pids
      inside := kept.inside
      grouped := kept.grouped
      led := kept.led
      entered := kept.entered
      backed := by
        intro i p entry
        obtain ⟨c, here, pid, group, job⟩ := kept.backed i p entry
        exact ⟨c, here, pid, group, (getElem?_append_old (kept.placed here)).trans job⟩
      distinct := kept.distinct
      recorded := fun k k' jid job job' => kept.recorded k k' jid (earlier job) (earlier job')
      below := fun k jid job => kept.below k jid (earlier job) }

theorem executePipeline_added {names : List (List Char)} {pids : List Nat} {i : Fin maxJobs}
    (whole : ¬ pids.length < names.length) (free : w.jobs.find (·.pgid.isNone) = some i) :
    w.executePipeline names pids =
      { jobs := (w.jobs.addJob (pids.headD 0) (fullCmd names) .running).2
        processes := w.fork pids
        pipelines := w.pipelines ++ [some w.jobs.nextJobId] } := by
  obtain ⟨entry, _, entries⟩ := Jobs.addJob_some free (pids.headD 0) (fullCmd names) .running
  simp only [executePipeline, if_neg whole, entry, entries, Option.map_some, Function.update_self]

theorem executePipeline_kept (kept : w.Kept) {names : List (List Char)} {leader : Nat} {rest : List Nat}
    (fresh : w.Fresh (leader :: rest)) {i : Fin maxJobs} (free : w.jobs.find (·.pgid.isNone) = some i) :
    Kept
      { jobs := (w.jobs.addJob leader (fullCmd names) .running).2
        processes := w.fork (leader :: rest)
        pipelines := w.pipelines ++ [some w.jobs.nextJobId] } := by
  obtain ⟨_, counted, entries⟩ := Jobs.addJob_some free leader (fullCmd names) .running
  have unused : (w.jobs.jobList i).pgid = none := by simpa using Jobs.find_some free
  have new (c : Process) (here : c ∈ w.processes) : c.leader ≠ leader :=
    kept.fresh_leader fresh List.mem_cons_self here
  have first : ⟨leader, leader, w.pipelines.length, .forked, .running⟩ ∈ w.fork (leader :: rest) :=
    mem_fork.mpr (.inr ⟨leader, List.mem_cons_self, rfl⟩)
  -- The group of an entry that was there before has a process, so it is not the new one.
  have other (j : Fin maxJobs) (entry : (w.jobs.jobList j).pgid = some leader) : False := by
    obtain ⟨c, here, _, group, _⟩ := kept.backed j leader entry
    exact new c here group
  constructor
  · exact fork_pids kept fresh
  · exact fork_inside kept
  · exact fork_grouped kept fresh
  · intro c here
    rcases mem_fork.mp here with old | ⟨pid, _, rfl⟩
    · obtain ⟨d, there, led⟩ := kept.led c old
      exact ⟨d, mem_fork.mpr (.inl there), led⟩
    · exact ⟨_, first, rfl, rfl⟩
  · intro c here
    rcases mem_fork.mp here with old | ⟨pid, _, rfl⟩
    · obtain ⟨j, entry⟩ := kept.entered c old
      have apart : j ≠ i := by
        rintro rfl
        rw [unused] at entry
        contradiction
      exact ⟨j, by rw [entries, Function.update_of_ne apart, entry]⟩
    · exact ⟨i, by rw [entries, Function.update_self]; rfl⟩
  · intro j p entry
    simp only [entries] at entry ⊢
    by_cases same : j = i
    · subst same
      simp only [Function.update_self, Option.some.injEq] at entry ⊢
      subst entry
      exact ⟨_, first, rfl, rfl, List.getElem?_concat_length⟩
    · simp only [Function.update_of_ne same] at entry ⊢
      obtain ⟨c, here, pid, group, job⟩ := kept.backed j p entry
      exact ⟨c, mem_fork.mpr (.inl here), pid, group,
        (getElem?_append_old (kept.placed here)).trans job⟩
  · intro j j' p entry entry'
    simp only [entries] at entry entry'
    by_cases same : j = i <;> by_cases same' : j' = i
    · rw [same, same']
    · subst same
      simp only [Function.update_self, Function.update_of_ne same', Option.some.injEq] at entry entry'
      exact (other j' (entry ▸ entry')).elim
    · subst same'
      simp only [Function.update_self, Function.update_of_ne same, Option.some.injEq] at entry entry'
      exact (other j (entry' ▸ entry)).elim
    · simp only [Function.update_of_ne same, Function.update_of_ne same'] at entry entry'
      exact kept.distinct j j' p entry entry'
  · intro k k' jid job job'
    rcases getElem?_append_some job with old | ⟨last, next⟩
    · rcases getElem?_append_some job' with old' | ⟨_, next'⟩
      · exact kept.recorded k k' jid old old'
      · have lower := kept.below k jid old
        simp only [Option.some.injEq] at next'
        omega
    · rcases getElem?_append_some job' with old' | ⟨last', _⟩
      · have lower := kept.below k' jid old'
        simp only [Option.some.injEq] at next
        omega
      · rw [last, last']
  · intro k jid job
    show jid < (w.jobs.addJob leader (fullCmd names) .running).2.nextJobId
    rcases getElem?_append_some job with old | ⟨_, next⟩
    · have lower := kept.below k jid old
      omega
    · simp only [Option.some.injEq] at next
      omega

theorem Kept.map (kept : w.Kept) {change : Process → Process} (pids : ∀ c, (change c).pid = c.pid)
    (leaders : ∀ c, (change c).leader = c.leader) (pipelines : ∀ c, (change c).pipeline = c.pipeline)
    (inside : ∀ c ∈ w.processes, (change c).group ≠ .outside) :
    Kept { w with processes := w.processes.map change } := by
  constructor
  · have same : (w.processes.map change).map (·.pid) = w.processes.map (·.pid) := by
      rw [List.map_map]
      exact List.map_congr_left fun c _ => pids c
    rw [same]
    exact kept.pids
  · intro c here
    obtain ⟨c, old, rfl⟩ := List.mem_map.mp here
    exact inside c old
  · intro c here d there
    obtain ⟨c, old, rfl⟩ := List.mem_map.mp here
    obtain ⟨d, old', rfl⟩ := List.mem_map.mp there
    rw [leaders, leaders, pipelines, pipelines]
    exact kept.grouped c old d old'
  · intro c here
    obtain ⟨c, old, rfl⟩ := List.mem_map.mp here
    obtain ⟨d, there, leads⟩ := kept.led c old
    refine ⟨change d, List.mem_map_of_mem there, ?_⟩
    rwa [pids, leaders, leaders]
  · intro c here
    obtain ⟨c, old, rfl⟩ := List.mem_map.mp here
    rw [leaders]
    exact kept.entered c old
  · intro i p entry
    obtain ⟨c, here, backs⟩ := kept.backed i p entry
    refine ⟨change c, List.mem_map_of_mem here, ?_⟩
    rwa [pids, leaders, pipelines]
  · exact kept.distinct
  · exact kept.recorded
  · exact kept.below

theorem setState_kept (kept : w.Kept) (pid : Nat) (state : ProcessState) :
    (w.setState pid state).Kept := by
  refine kept.map (fun c => ?_) (fun c => ?_) (fun c => ?_) fun c here => ?_
  · by_cases same : c.pid = pid <;> simp [same]
  · by_cases same : c.pid = pid <;> simp [same]
  · by_cases same : c.pid = pid <;> simp [same]
  · have inside := kept.inside c here
    by_cases same : c.pid = pid <;> simp [same, inside]

theorem setpgid_kept (kept : w.Kept) {pid : Nat} (orderly : w.Orderly (.setpgid pid)) : (w.setpgid pid).Kept := by
  refine kept.map (fun c => ?_) (fun c => ?_) (fun c => ?_) fun c here => ?_
  · by_cases same : c.pid = pid <;> simp [same]
  · by_cases same : c.pid = pid <;> simp [same]
  · by_cases same : c.pid = pid <;> simp [same]
  · by_cases same : c.pid = pid
    · simp [same, orderly c here same]
    · simp [same, kept.inside c here]

-- A `setpgid` that fails leaves its process where no command for jobs reaches it.
theorem setpgid_unreached {pid : Nat} (disorderly : ¬ w.Orderly (.setpgid pid)) : ¬ (w.setpgid pid).Reaches := by
  intro reaches
  refine disorderly fun c here same => ?_
  by_contra fails
  obtain ⟨joined, _⟩ := reaches { c with group := .outside } (List.mem_map.mpr ⟨c, here, by simp [same, fails]⟩) nofun
  contradiction

theorem reapStopped_kept (kept : w.Kept) (pid : Nat) :
    Kept { w with jobs := w.jobs.reapStopped pid } := by
  have pgids (i : Fin maxJobs) := (w.jobs.reapStopped_entries pid i).1
  have jobIds (i : Fin maxJobs) := (w.jobs.reapStopped_entries pid i).2.2
  constructor
  · exact kept.pids
  · exact kept.inside
  · exact kept.grouped
  · exact kept.led
  · intro c here
    obtain ⟨i, entry⟩ := kept.entered c here
    exact ⟨i, (pgids i).trans entry⟩
  · intro i p entry
    simp only [pgids, jobIds] at entry ⊢
    exact kept.backed i p entry
  · intro i j p entry entry'
    rw [pgids] at entry entry'
    exact kept.distinct i j p entry entry'
  · exact kept.recorded
  · intro k jid job
    show jid < (w.jobs.reapStopped pid).nextJobId
    rw [Jobs.reapStopped_nextJobId]
    exact kept.below k jid job

theorem mem_reaped {pid : Nat} {c : Process} :
    c ∈ (w.reaped pid).processes ↔ c ∈ w.processes ∧ c.pid ≠ pid := by
  simp [reaped]

theorem reaped_pgid (kept : w.Kept) (pid : Nat) (i : Fin maxJobs) :
    ((w.reaped pid).jobs.jobList i).pgid
      = if (w.jobs.jobList i).pgid = some pid then none else (w.jobs.jobList i).pgid := by
  show ((w.jobs.reapExited pid).jobList i).pgid = _
  rw [(Jobs.reapExited_entries pid).1, Jobs.removeJobByPgid_pgid kept.distinct]

theorem reaped_jobId (pid : Nat) (i : Fin maxJobs) :
    ((w.reaped pid).jobs.jobList i).jobId = (w.jobs.jobList i).jobId := by
  show ((w.jobs.reapExited pid).jobList i).jobId = _
  rw [(Jobs.reapExited_entries pid).1, Jobs.removeJobByPgid_jobId]

theorem reaped_entry (kept : w.Kept) {pid p : Nat} {i : Fin maxJobs}
    (entry : ((w.reaped pid).jobs.jobList i).pgid = some p) :
    (w.jobs.jobList i).pgid = some p ∧ p ≠ pid := by
  rw [reaped_pgid kept] at entry
  split at entry
  next => contradiction
  next other =>
    refine ⟨entry, ?_⟩
    rintro rfl
    exact other entry

theorem reaped_kept (kept : w.Kept) {pid : Nat}
    (orderly : ∀ c ∈ w.processes, c.pid = pid → c.leader = pid →
      ∀ d ∈ w.processes, d.pipeline = c.pipeline → d.pid = pid) : (w.reaped pid).Kept := by
  have led : ∀ c ∈ (w.reaped pid).processes, ∃ d ∈ (w.reaped pid).processes,
      d.pid = c.leader ∧ d.leader = c.leader := by
    intro c here
    obtain ⟨old, stays⟩ := mem_reaped.mp here
    obtain ⟨d, there, leader, group⟩ := kept.led c old
    have stays' : d.pid ≠ pid := by
      intro goes
      have one : c.pipeline = d.pipeline := (kept.grouped c old d there).mp (by omega)
      exact stays (orderly d there goes (by omega) c old one)
    exact ⟨d, mem_reaped.mpr ⟨there, stays'⟩, leader, group⟩
  constructor
  · exact kept.pids.sublist (List.filter_sublist.map _)
  · intro c here
    exact kept.inside c (mem_reaped.mp here).1
  · intro c here d there
    exact kept.grouped c (mem_reaped.mp here).1 d (mem_reaped.mp there).1
  · exact led
  · intro c here
    obtain ⟨d, there, leader, _⟩ := led c here
    have other : c.leader ≠ pid := leader ▸ (mem_reaped.mp there).2
    obtain ⟨i, entry⟩ := kept.entered c (mem_reaped.mp here).1
    refine ⟨i, ?_⟩
    rw [reaped_pgid kept, entry, if_neg (by simpa using other)]
  · intro i p entry
    obtain ⟨before, other⟩ := reaped_entry kept entry
    obtain ⟨c, here, leader, backs⟩ := kept.backed i p before
    rw [reaped_jobId]
    exact ⟨c, mem_reaped.mpr ⟨here, leader ▸ other⟩, leader, backs⟩
  · intro i j p entry entry'
    exact kept.distinct i j p (reaped_entry kept entry).1 (reaped_entry kept entry').1
  · exact kept.recorded
  · intro k jid job
    show jid < (w.jobs.reapExited pid).nextJobId
    rw [(Jobs.reapExited_entries pid).2]
    exact kept.below k jid job

theorem reaped_untracked (kept : w.Kept) {pid : Nat} {d : Process} (there : d ∈ w.processes)
    (group : d.leader = pid) (alive : d.pid ≠ pid) : ¬ (w.reaped pid).Tracks := by
  intro tracks
  obtain ⟨i, entry, numbered⟩ := kept.led_job there
  obtain ⟨jid, job, added, found⟩ :=
    (tracks d.pipeline (kept.placed there)).mpr ⟨d, mem_reaped.mpr ⟨there, alive⟩, rfl⟩
  obtain ⟨j, rfl, taken, same⟩ := Jobs.getJobByJid_some found
  obtain ⟨p, left⟩ := Option.isSome_iff_exists.mp taken
  obtain ⟨before, other⟩ := reaped_entry kept left
  have number : (w.jobs.jobList i).jobId = jid :=
    Option.some.inj (Option.some.inj (numbered.symm.trans added))
  have one : j = i :=
    kept.same_entry entry (by simp [before]) (by rw [number, ← same, reaped_jobId])
  rw [one, entry] at before
  exact other (by rw [← Option.some.inj before, group])

theorem executePipeline_untracked {names : List (List Char)} {leader : Nat}
    {rest : List Nat} (disorderly : ¬ w.Orderly (.executePipeline names (leader :: rest)))
    (short : (leader :: rest).length ≤ names.length) :
    ¬ (w.executePipeline names (leader :: rest)).Tracks := by
  intro tracks
  -- Nothing is recorded for the new pipeline, whose first process is there.
  have unrecorded : (w.executePipeline names (leader :: rest)).pipelines = w.pipelines ++ [none] ∧
      (w.executePipeline names (leader :: rest)).processes = w.fork (leader :: rest) := by
    by_cases failed : (leader :: rest).length < names.length
    · simp only [executePipeline_failed failed, and_self]
    · cases free : w.jobs.find (·.pgid.isNone) with
      | some i =>
        have unused : (w.jobs.jobList i).pgid = none := by simpa using Jobs.find_some free
        exact absurd (.inr ⟨by omega, i, unused⟩) disorderly
      | none =>
        obtain ⟨entry, _, _⟩ := Jobs.addJob_none free leader (fullCmd names) .running
        simp only [executePipeline, if_neg failed, List.headD_cons, entry, Option.map_none, and_self]
  obtain ⟨pipelines, processes⟩ := unrecorded
  have started : (w.executePipeline names (leader :: rest)).Unreaped w.pipelines.length := by
    refine ⟨⟨leader, leader, w.pipelines.length, .forked, .running⟩, ?_, rfl⟩
    rw [processes]
    exact mem_fork.mpr (.inr ⟨leader, List.mem_cons_self, rfl⟩)
  obtain ⟨jid, _, added, _⟩ := (tracks _ (by simp [pipelines])).mpr started
  rw [pipelines, List.getElem?_concat_length] at added
  cases added

theorem executePipeline_step (kept : w.Kept) {names : List (List Char)} {pids : List Nat}
    (named : names ≠ []) (short : pids.length ≤ names.length) (fresh : w.Fresh pids)
    (orderly : w.Orderly (.executePipeline names pids)) : (w.executePipeline names pids).Kept := by
  cases pids with
  | nil =>
    have failed : ([] : List Nat).length < names.length := List.length_pos_iff.mpr named
    rw [executePipeline_failed failed]
    exact executePipeline_unforked kept
  | cons leader rest =>
    rcases orderly with none | ⟨whole, i, unused⟩
    · contradiction
    · obtain ⟨j, free⟩ := w.jobs.find_isSome (i := i) (·.pgid.isNone) (by simp [unused])
      rw [executePipeline_added (by omega) free]
      exact executePipeline_kept kept fresh free

theorem next_settled {l : JobStep} (kept : w.Kept) (taken : w.next l = some w') :
    (∃ names pids, l = .executePipeline names pids) ∨ (∃ pid, l = .setpgid pid ∧ w' = w.setpgid pid) ∨
      (∃ pid, l = .reap pid ∧ w.stateOf pid = some .exited ∧ w' = w.reaped pid) ∨
      (w.Orderly l ∧ w'.Kept) := by
  cases l with
  | executePipeline names pids => exact .inl ⟨names, pids, rfl⟩
  | setpgid pid =>
    obtain ⟨_, happens⟩ := Option.ite_none_right_eq_some.mp taken
    cases happens
    exact .inr (.inl ⟨pid, rfl, rfl⟩)
  | exit pid =>
    simp only [next] at taken
    split at taken
    case h_4 => contradiction
    all_goals
      cases taken
      exact .inr (.inr (.inr ⟨trivial, setState_kept kept pid .exited⟩))
  | stop pid =>
    simp only [next] at taken
    split at taken
    case h_2 => contradiction
    cases taken
    exact .inr (.inr (.inr ⟨trivial, setState_kept kept pid .stopping⟩))
  | cont pid =>
    simp only [next] at taken
    split at taken
    case h_3 => contradiction
    all_goals
      cases taken
      exact .inr (.inr (.inr ⟨trivial, setState_kept kept pid .running⟩))
  | reap pid =>
    simp only [next] at taken
    split at taken
    next exited =>
      cases taken
      exact .inr (.inr (.inl ⟨pid, rfl, exited, rfl⟩))
    next stopping =>
      cases taken
      have orderly : w.Orderly (.reap pid) := by
        intro exited
        rw [stopping] at exited
        contradiction
      exact .inr (.inr (.inr ⟨orderly, reapStopped_kept (setState_kept kept pid .stopped) pid⟩))
    next => contradiction

theorem next_kept {l : JobStep} (kept : w.Kept) (orderly : w.Orderly l) (taken : w.next l = some w') :
    w'.Kept := by
  rcases next_settled kept taken with
    ⟨names, pids, rfl⟩ | ⟨pid, rfl, rfl⟩ | ⟨pid, rfl, exited, rfl⟩ | ⟨_, kept'⟩
  · obtain ⟨⟨named, short, fresh⟩, happens⟩ := Option.ite_none_right_eq_some.mp taken
    cases happens
    exact executePipeline_step kept named short fresh orderly
  · exact setpgid_kept kept orderly
  · exact reaped_kept kept (orderly exited)
  · exact kept'

theorem next_tracks {l : JobStep} (kept : w.Kept) (taken : w.next l = some w') :
    w'.Tracks ∧ w'.Reaches ↔ w.Orderly l := by
  constructor
  · rintro ⟨tracks, reaches⟩
    by_contra disorderly
    rcases next_settled kept taken with
      ⟨names, pids, rfl⟩ | ⟨pid, rfl, rfl⟩ | ⟨pid, rfl, exited, rfl⟩ | ⟨orderly, _⟩
    · obtain ⟨⟨_, short, _⟩, happens⟩ := Option.ite_none_right_eq_some.mp taken
      cases happens
      cases pids with
      | nil => exact disorderly (.inl rfl)
      | cons leader rest => exact executePipeline_untracked disorderly short tracks
    · exact setpgid_unreached disorderly reaches
    · refine disorderly fun _ c here _ leads d there one => ?_
      by_contra alive
      have group : d.leader = pid := ((kept.grouped d there c here).mpr one).trans leads
      exact reaped_untracked kept there group alive tracks
    · exact disorderly orderly
  · intro orderly
    have kept' := next_kept kept orderly taken
    exact ⟨kept'.tracks, kept'.reaches⟩

theorem atStart_kept (start : w.AtStart) : w.Kept := by
  obtain ⟨⟨jobs, entries⟩, processes, pipelines⟩ := start
  have free (i : Fin maxJobs) : (w.jobs.jobList i).pgid = none := by rw [entries]; rfl
  constructor
  · simp [processes]
  · simp [processes]
  · simp [processes]
  · simp [processes]
  · simp [processes]
  · simp [free]
  · intro i j p entry
    simp [free] at entry
  · simp [pipelines]
  · simp [pipelines]

theorem background_jobs_live (reached : system.ReachableVia Orderly w) :
    w.Tracks ∧ w.Reaches ∧ ∀ l w', w.next l = some w' → (w'.Tracks ∧ w'.Reaches ↔ w.Orderly l) := by
  have kept : w.Kept :=
    reached.invariant (fun _ => atStart_kept) fun _ _ _ kept orderly taken => next_kept kept orderly taken
  exact ⟨kept.tracks, kept.reaches, fun _ _ => next_tracks kept⟩

def started : World where
  jobs := (Jobs.mk (fun _ => ⟨none, [], .running, 0⟩) 0 []).initializeJobs
  processes := []
  pipelines := []

theorem started_atStart : started.AtStart := ⟨⟨_, rfl⟩, rfl, rfl⟩

theorem run_orderly (labels : List JobStep)
    (ran : System.execute next (fun w l => decide (w.Orderly l)) started labels = some w) :
    system.ReachableVia Orderly w :=
  System.execute_reachableVia (fun _ _ => of_decide_eq_true) (.initial started_atStart) ran

-- `yes | cat &` is reaped from its last process to its first, and `sleep &` in between.
theorem background_jobs_live_backwards :
    ∃ w : World, w.processes.map (·.pid) = [7] ∧ w.Tracks ∧ w.Reaches := by
  let labels : List JobStep :=
    [.executePipeline ["yes".toList, "cat".toList] [7, 8], .setpgid 7, .setpgid 8, .stop 8, .reap 8,
      .executePipeline ["sleep".toList] [9], .setpgid 9, .exit 9, .reap 9, .cont 8, .exit 8, .reap 8]
  have runs : (System.execute next (fun w l => decide (w.Orderly l)) started labels).any
      (fun w => w.processes.map (·.pid) == [7]) = true := by decide +kernel
  obtain ⟨w, ran, left⟩ := (Option.any_eq_true _ _).mp runs
  have live := background_jobs_live (run_orderly labels ran)
  exact ⟨w, eq_of_beq left, live.1, live.2.1⟩

-- `yes | cat &` loses its job with its first process.
theorem first_process_takes_job :
    ∃ w, system.Reachable w ∧ w.Unreaped 0 ∧ ¬ w.HasJob 0 ∧ w.jobs.killAllJobs = [] ∧ ¬ w.Tracks := by
  let begun := (started.executePipeline ["yes".toList, "cat".toList] [7, 8]).setpgid 7
  let w := ((begun.setpgid 8).setState 7 .exited).reaped 7
  have reached : system.Reachable w := System.execute_reachable started_atStart
    [.executePipeline ["yes".toList, "cat".toList] [7, 8], .setpgid 7, .setpgid 8, .exit 7, .reap 7] rfl
  have unreaped : w.Unreaped 0 := ⟨⟨8, 7, 0, .joined, .running⟩, by decide, rfl⟩
  have jobless : ¬ w.HasJob 0 := by
    rintro ⟨jid, job, added, found⟩
    cases added
    cases found
  have untracked : ¬ w.Tracks := fun tracks => jobless ((tracks 0 (by decide)).mpr unreaped)
  exact ⟨w, reached, unreaped, jobless, rfl, untracked⟩

end World

end SystemsSuite.Shell
