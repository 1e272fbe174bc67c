import Dowse.Seccrond
import Mathlib.Data.List.Nodup

/-!
# The job list and the children of seccrond

As long as `waitpid` reports only children that are gone, the job list mirrors the
children of the daemon, zombies included, and no command has two of them. A report of
a stop removes the entry of a child that lives, and the command can be started again
beside it.
-/
namespace Dowse.Seccrond
open CStrings Crontab GuardedRuns

def Child.job (c : Child) : Job := ⟨c.cmd, c.pid⟩

/-- No two living children run one command, and each of them has its entry. -/
structure OnePerCommand (s : State) : Prop where
  distinct : s.children.Pairwise fun c d => c.living → d.living → c.cmd ≠ d.cmd
  listed : ∀ c ∈ s.children, c.living → c.job ∈ s.jobs

/-- The job list is the list of the children, by distinct pids and commands. -/
structure Mirrored (s : State) : Prop where
  jobs : s.jobs = s.children.map Child.job
  pids : (s.jobs.map Job.pid).Nodup
  cmds : (s.jobs.map Job.cmd).Nodup

/-- The step is not a report of a stop by `waitpid`. -/
def NoStopReported (s : State) : Event → Prop
  | .run i => s.pc = .waiting → ∀ c, waitpid s.children i.prefer = some c → c.life = .zombie
  | _ => True

theorem Mirrored.onePerCommand {s : State} (h : Mirrored s) : OnePerCommand s where
  distinct := by
    have hcmds := h.cmds
    rw [h.jobs, List.map_map] at hcmds
    exact (List.pairwise_map.mp hcmds).imp fun hne _ _ => hne
  listed _ hc _ := h.jobs ▸ List.mem_map_of_mem hc

theorem map_job_updateChild (f : Life → Life) (pid : ℕ) (children : List Child) :
    (updateChild f pid children).map Child.job = children.map Child.job := by
  simp only [updateChild, List.map_map]
  refine List.map_congr_left fun c _ => ?_
  simp only [Function.comp_apply]
  split_ifs <;> rfl

theorem eraseP_pid_eq_filter {jobs : List Job} (h : (jobs.map Job.pid).Nodup) (pid : ℕ) :
    jobs.eraseP (·.pid = pid) = jobs.filter (·.pid ≠ pid) := by
  induction jobs with
  | nil => rfl
  | cons j jobs ih =>
      rw [List.map_cons, List.nodup_cons] at h
      by_cases hj : j.pid = pid
      · have hall : jobs.filter (·.pid ≠ pid) = jobs := by
          rw [List.filter_eq_self]
          intro k hk
          have : k.pid ≠ j.pid := fun heq => h.1 (heq ▸ List.mem_map_of_mem hk)
          simpa [← hj] using this
        rw [List.eraseP_cons_of_pos (by simpa using hj),
          List.filter_cons_of_neg (by simpa using hj), hall]
      · rw [List.eraseP_cons_of_neg (by simpa using hj),
          List.filter_cons_of_pos (by simpa using hj), ih h.2]

theorem waitpid_mem {children : List Child} {prefer : ℕ} {c : Child}
    (h : waitpid children prefer = some c) : c ∈ children := by
  unfold waitpid at h
  cases hfind : children.find? fun c => c.reportable && c.pid = prefer with
  | some d =>
      rw [hfind] at h
      obtain rfl : d = c := by simpa using h
      exact List.mem_of_find?_eq_some hfind
  | none =>
      rw [hfind] at h
      exact List.mem_of_find?_eq_some (by simpa using h)

theorem Mirrored.of_eq {s t : State} (h : Mirrored s) (hjobs : t.jobs = s.jobs)
    (hchildren : t.children.map Child.job = s.children.map Child.job) : Mirrored t where
  jobs := by rw [hjobs, hchildren, h.jobs]
  pids := hjobs ▸ h.pids
  cmds := hjobs ▸ h.cmds

theorem Mirrored.runjob {s : State} (h : Mirrored s) (cmd : Text) (fork : Option ℕ) :
    Mirrored (runjob s cmd fork) := by
  rcases runjob_cases s cmd fork with heq | ⟨pid, hcmd, hpid, heq⟩
  · rw [heq]
    exact h.of_eq rfl rfl
  · rw [heq]
    have hpid' : ∀ j ∈ s.jobs, j.pid ≠ pid := by
      rw [h.jobs]
      intro j hj
      obtain ⟨c, hc, rfl⟩ := List.mem_map.mp hj
      exact hpid c hc
    constructor
    · simp [h.jobs, Child.job]
    · simp only [List.map_append, List.map_cons, List.map_nil]
      rw [List.nodup_append]
      refine ⟨h.pids, List.nodup_singleton _, ?_⟩
      simpa using hpid'
    · simp only [List.map_append, List.map_cons, List.map_nil]
      rw [List.nodup_append]
      refine ⟨h.cmds, List.nodup_singleton _, ?_⟩
      simpa using hcmd

/-- A report of a zombie takes the child and its entry away. -/
theorem Mirrored.reaped {s : State} (h : Mirrored s) {c : Child} (hc : c.life = .zombie) :
    Mirrored { s with jobs := s.jobs.eraseP (·.pid = c.pid),
                      children := reported c s.children } := by
  have hjobs := eraseP_pid_eq_filter h.pids c.pid
  constructor
  · simp only [hjobs, reported, hc]
    rw [h.jobs, List.filter_map]
    rfl
  · exact h.pids.sublist ((List.eraseP_sublist).map _)
  · exact h.cmds.sublist ((List.eraseP_sublist).map _)

theorem Mirrored.advance {s : State} (h : Mirrored s) {i : Input}
    (hok : NoStopReported s (.run i)) : Mirrored (advance s i) := by
  cases hpc : s.pc with
  | waiting =>
      simp only [Seccrond.advance, hpc, waitjob]
      cases hw : waitpid s.children i.prefer with
      | none => exact h.of_eq rfl rfl
      | some c => exact (h.reaped (hok hpc c hw)).of_eq rfl rfl
  | matching rest =>
      cases rest with
      | nil => exact h.of_eq (by simp [Seccrond.advance, hpc]) (by simp [Seccrond.advance, hpc])
      | cons e rest =>
          have hs : Mirrored { s with pc := .matching rest } := h.of_eq rfl rfl
          simp only [Seccrond.advance, hpc]
          split_ifs
          · exact hs.runjob e.cmd i.fork
          · exact hs
  | _ =>
      simp only [Seccrond.advance, hpc]
      repeat' split
      all_goals exact h.of_eq rfl rfl

theorem Mirrored.step {s : State} (h : Mirrored s) {ev : Event} (hok : NoStopReported s ev) :
    Mirrored (step s ev) := by
  cases ev with
  | run i => exact h.advance hok
  | exit pid => exact h.of_eq rfl (map_job_updateChild (fun _ => .zombie) pid s.children)
  | stop pid => exact h.of_eq rfl (map_job_updateChild Life.stop pid s.children)
  | cont pid => exact h.of_eq rfl (map_job_updateChild Life.cont pid s.children)
  | _ => exact h.of_eq rfl rfl

theorem reported_of_living {c : Child} (hc : c.life ≠ .zombie) (children : List Child) :
    reported c children = updateChild (fun _ => .stopped true) c.pid children := by
  unfold reported
  cases hlife : c.life with
  | zombie => exact absurd hlife hc
  | _ => rfl

/-- A report of a stop leaves a living child without an entry. -/
theorem not_onePerCommand_of_stop {s : State} (h : Mirrored s) {i : Input} {c : Child}
    (hpc : s.pc = .waiting) (hw : waitpid s.children i.prefer = some c) (hc : c.life ≠ .zombie) :
    ¬ OnePerCommand (advance s i) := by
  intro hone
  have hchildren : (Seccrond.advance s i).children =
      updateChild (fun _ => .stopped true) c.pid s.children := by
    simp only [Seccrond.advance, hpc, waitjob, hw, reported_of_living hc]
  have hjobs : (Seccrond.advance s i).jobs = s.jobs.filter (·.pid ≠ c.pid) := by
    simp only [Seccrond.advance, hpc, waitjob, hw]
    exact eraseP_pid_eq_filter h.pids c.pid
  have hmem : { c with life := .stopped true } ∈ (Seccrond.advance s i).children := by
    rw [hchildren]
    exact List.mem_map.mpr ⟨c, waitpid_mem hw, by simp⟩
  have hlisted := hone.listed _ hmem (by simp [Child.living])
  rw [hjobs] at hlisted
  simpa [Child.job] using List.of_mem_filter hlisted

/-- From the start of the daemon, no two living children run one command and each has its
entry, in every state of a run, if and only if `waitpid` never reports a stop. -/
theorem onePerCommand_iff {config : Config} {s : State} (hs : start config = some s)
    (evs : List Event) :
    Throughout step OnePerCommand s evs ↔ Along step NoStopReported s evs := by
  have hstart : Mirrored s := by
    obtain ⟨l, -, rfl⟩ := Option.map_eq_some_iff.mp hs
    exact ⟨rfl, List.nodup_nil, List.nodup_nil⟩
  refine throughout_iff_along (I := Mirrored) (A := fun _ _ => True)
    (fun _ h => h.onePerCommand) ?_ (fun _ _ h _ hok => h.step hok) hstart
    (along_of_forall (fun _ _ => trivial) s evs)
  intro t ev ht _
  constructor
  · intro hone
    cases ev with
    | run i =>
        intro hpc c hw
        by_contra hc
        exact not_onePerCommand_of_stop ht hpc hw hc hone
    | _ => trivial
  · exact fun hok => (ht.step hok).onePerCommand

theorem onePerCommand_iff_every_second :
    ∃ s, start everySecond = some s ∧
      (Throughout step OnePerCommand s exitBetweenWakeups ↔
        Along step NoStopReported s exitBetweenWakeups) :=
  ⟨(start everySecond).get (by decide), (Option.some_get _).symm,
    onePerCommand_iff (Option.some_get _).symm exitBetweenWakeups⟩

/-- The job is started, stopped, reported and started again while it can go on. -/
def stopBetweenWakeups : List Event :=
  let run := Event.run ⟨noon, some 7, 7⟩
  let again := Event.run ⟨noon, some 8, 8⟩
  [run, run, run, .stop 7, .sigchld, run, run, run, run, run, run, again, again, .cont 7]

theorem stopped_job_starts_twice :
    (start everySecond).map (fun s => (stopBetweenWakeups.foldl step s).children) =
      some [⟨7, "nextcmd".toList, .running⟩, ⟨8, "nextcmd".toList, .running⟩] := by
  decide

end Dowse.Seccrond
