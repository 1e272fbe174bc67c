import Dowse.Crontab
import Dowse.GuardedRuns

/-!
# The main loop of seccrond

The daemon is cut into steps between which signals, changes of the children and edits
of the crontab file may fall in any order. A step of the daemon takes from outside
the time it reads, the result of `fork` and the child that `waitpid` prefers to report.

Each wake-up makes one of two passes. If a signal was noted it reloads the table and
reaps children, and sleeps again; otherwise it walks over the table and starts the
jobs that are due.
-/
namespace Dowse.Seccrond
open CStrings Crontab GuardedRuns

/-- A stop is reported once by `waitpid`. -/
inductive Life
  | running
  | stopped (reported : Bool)
  | zombie
  deriving DecidableEq, Repr

/-- A process forked by `runjob` that the kernel still has for the daemon. -/
structure Child where
  pid : ℕ
  cmd : Text
  life : Life
  deriving DecidableEq, Repr

structure Job where
  cmd : Text
  pid : ℕ
  deriving DecidableEq, Repr

/-- Where the daemon is in its loop. `matching` holds the entries still to visit. -/
inductive Pc
  | sleeping
  | reloading
  | reaping
  | waiting
  | clearing
  | matching (rest : List CtabEntry)
  | exited
  | faulted
  deriving DecidableEq, Repr

/-- The variables of the daemon and the kernel's side of it. The last field records
the commands that were passed to `runjob`. -/
structure State where
  config : Config
  table : List CtabEntry
  chldreap : Bool
  reload : Bool
  quit : Bool
  jobs : List Job
  children : List Child
  pc : Pc
  calls : List Text

structure Input where
  tm : Tm
  fork : Option ℕ
  prefer : ℕ

inductive Event
  | sigchld
  | sighup
  | sigterm
  | edit (config : Config)
  | exit (pid : ℕ)
  | stop (pid : ℕ)
  | cont (pid : ℕ)
  | run (input : Input)

/-- Whether `waitpid` with `WNOHANG | WUNTRACED` may return the child. -/
def Child.reportable (c : Child) : Bool :=
  match c.life with
  | .zombie => true
  | .stopped reported => ! reported
  | .running => false

def Child.living (c : Child) : Prop := c.life ≠ .zombie

def waitpid (children : List Child) (prefer : ℕ) : Option Child :=
  (children.find? fun c => c.reportable && c.pid = prefer) <|> children.find? Child.reportable

def updateChild (f : Life → Life) (pid : ℕ) (children : List Child) : List Child :=
  children.map fun c => if c.pid = pid then { c with life := f c.life } else c

def Life.stop : Life → Life
  | .running => .stopped false
  | l => l

def Life.cont : Life → Life
  | .stopped _ => .running
  | l => l

/-- What a report leaves of the children: a zombie goes, a stop counts as reported. -/
def reported (c : Child) (children : List Child) : List Child :=
  match c.life with
  | .zombie => children.filter (·.pid ≠ c.pid)
  | _ => updateChild (fun _ => .stopped true) c.pid children

/-- `runjob`; a pid that is in use is not returned by the kernel. -/
def runjob (s : State) (cmd : Text) (fork : Option ℕ) : State :=
  let s := { s with calls := s.calls ++ [cmd] }
  if s.jobs.any (·.cmd = cmd) then s
  else
    match fork with
    | none => s
    | some pid =>
        if s.children.any (·.pid = pid) then s
        else { s with jobs := s.jobs ++ [⟨cmd, pid⟩],
                      children := s.children ++ [⟨pid, cmd, .running⟩] }

def waitjob (s : State) (prefer : ℕ) : State :=
  match waitpid s.children prefer with
  | none => { s with pc := .clearing }
  | some c =>
      { s with jobs := s.jobs.eraseP (·.pid = c.pid), children := reported c s.children }

def advance (s : State) (i : Input) : State :=
  match s.pc with
  | .sleeping =>
      if s.quit then { s with pc := .exited, table := [] }
      else if s.reload || s.chldreap then { s with pc := .reloading }
      else { s with pc := .matching s.table }
  | .reloading =>
      if s.reload then
        match reloadentries s.config with
        | some l => { s with table := l.entries, reload := false, pc := .reaping }
        | none => { s with pc := .faulted }
      else { s with pc := .reaping }
  | .reaping => if s.chldreap then { s with pc := .waiting } else { s with pc := .sleeping }
  | .waiting => waitjob s i.prefer
  | .clearing => { s with chldreap := false, pc := .sleeping }
  | .matching [] => { s with pc := .sleeping }
  | .matching (e :: rest) =>
      let s := { s with pc := .matching rest }
      if matchentry e i.tm = 1 then runjob s e.cmd i.fork else s
  | .exited => s
  | .faulted => s

def step (s : State) : Event → State
  | .sigchld => { s with chldreap := true }
  | .sighup => { s with reload := true }
  | .sigterm => { s with quit := true }
  | .edit config => { s with config := config }
  | .exit pid => { s with children := updateChild (fun _ => .zombie) pid s.children }
  | .stop pid => { s with children := updateChild Life.stop pid s.children }
  | .cont pid => { s with children := updateChild Life.cont pid s.children }
  | .run i => advance s i

def start (config : Config) : Option State :=
  (loadentries config).map fun l => ⟨config, l.entries, false, false, false, [], [], .sleeping, []⟩

/-- The entries that the wake-up is done with after the next step of the daemon: the one
that is visited, or the whole table when the daemon goes back to sleep without a visit. -/
def settled (s : State) : List CtabEntry :=
  match s.pc with
  | .matching (e :: _) => [e]
  | .reaping => if s.chldreap then [] else s.table
  | .clearing => s.table
  | _ => []

/-- The entries that the current wake-up is not done with. -/
def remaining (s : State) : List CtabEntry :=
  match s.pc with
  | .reloading | .reaping | .waiting | .clearing => s.table
  | .matching rest => rest
  | .sleeping | .exited | .faulted => []

/-- What `runjob` can do: note the call, or also start a child of a fresh pid for a
command that no job has. -/
theorem runjob_cases (s : State) (cmd : Text) (fork : Option ℕ) :
    runjob s cmd fork = { s with calls := s.calls ++ [cmd] } ∨
    ∃ pid, (∀ j ∈ s.jobs, j.cmd ≠ cmd) ∧ (∀ c ∈ s.children, c.pid ≠ pid) ∧
      runjob s cmd fork = { s with calls := s.calls ++ [cmd], jobs := s.jobs ++ [⟨cmd, pid⟩],
                                   children := s.children ++ [⟨pid, cmd, .running⟩] } := by
  simp only [runjob]
  split_ifs with hjob
  · exact Or.inl rfl
  · cases fork with
    | none => exact Or.inl rfl
    | some pid =>
        dsimp only
        split_ifs with hpid
        · exact Or.inl rfl
        · exact Or.inr ⟨pid, by simpa using hjob, by simpa using hpid, rfl⟩

@[simp] theorem runjob_pc (s : State) (cmd : Text) (fork : Option ℕ) :
    (runjob s cmd fork).pc = s.pc := by
  rcases runjob_cases s cmd fork with h | ⟨_, _, _, h⟩ <;> rw [h]

@[simp] theorem runjob_calls (s : State) (cmd : Text) (fork : Option ℕ) :
    (runjob s cmd fork).calls = s.calls ++ [cmd] := by
  rcases runjob_cases s cmd fork with h | ⟨_, _, _, h⟩ <;> rw [h]

/-- The step stays inside a wake-up and keeps the table. -/
def Within (s : State) : Event → Prop
  | .run _ => s.pc ≠ .sleeping ∧ (s.pc = .reloading → s.reload = false)
  | _ => True

/-- An entry that a wake-up is not done with stays so until a step settles it. -/
theorem remaining_step {s : State} {ev : Event} (h : Within s ev) {e : CtabEntry}
    (he : e ∈ remaining s) (hns : ∀ i, ev = .run i → e ∉ settled s) :
    e ∈ remaining (step s ev) := by
  cases ev with
  | run i =>
      have hns := hns i rfl
      cases hpc : s.pc with
      | sleeping => exact absurd hpc h.1
      | reloading =>
          simp only [remaining, hpc] at he
          simpa [step, advance, hpc, h.2 hpc, remaining] using he
      | reaping =>
          cases hc : s.chldreap with
          | true =>
              simp only [remaining, hpc] at he
              simpa [step, advance, hpc, hc, remaining] using he
          | false =>
              simp only [remaining, settled, hpc, hc] at he hns
              exact absurd he hns
      | waiting =>
          simp only [remaining, hpc] at he
          simp only [step, advance, hpc, waitjob]
          split <;> simpa [remaining, hpc] using he
      | clearing =>
          simp only [remaining, settled, hpc] at he hns
          exact absurd he hns
      | matching rest =>
          cases rest with
          | nil => simp [remaining, hpc] at he
          | cons f rest =>
              have hrest : e ∈ rest := by
                simp only [remaining, settled, hpc, List.mem_cons, List.not_mem_nil,
                  or_false] at he hns
                exact he.resolve_left hns
              simp only [step, advance, hpc]
              split_ifs <;> simpa [remaining] using hrest
      | exited => simp [remaining, hpc] at he
      | faulted => simp [remaining, hpc] at he
  | _ => exact he

theorem settled_before_sleep {s : State} {evs : List Event} (hw : Along step Within s evs)
    {e : CtabEntry} (he : e ∈ remaining s) (hsleep : (evs.foldl step s).pc = .sleeping) :
    ¬ Along step (fun s ev => ∀ i, ev = .run i → e ∉ settled s) s evs := by
  intro hns
  induction evs generalizing s with
  | nil =>
      have hpc : s.pc = .sleeping := hsleep
      simp [remaining, hpc] at he
  | cons ev evs ih => exact ih hw.2 (remaining_step hw.1 he hns.1) hsleep hns.2

/-- Each entry that the wake-up is done with is passed to `runjob`, if it is accepted
for the time that the daemon then reads. -/
def Serves (s : State) : Event → Prop
  | .run i => ∀ e ∈ settled s, matchentry e i.tm = 1 → (advance s i).calls = s.calls ++ [e.cmd]
  | _ => True

/-- The daemon goes back to sleep without a visit to the table. -/
def Unvisited (s : State) : Prop := (s.pc = .reaping ∧ s.chldreap = false) ∨ s.pc = .clearing

/-- The daemon leaves the table unvisited only when nothing in it is due. -/
def NothingDue (s : State) : Event → Prop
  | .run i => Unvisited s → ∀ e ∈ s.table, matchentry e i.tm ≠ 1
  | _ => True

theorem serves_iff_nothingDue (s : State) (ev : Event) : Serves s ev ↔ NothingDue s ev := by
  cases ev with
  | run i =>
      cases hpc : s.pc with
      | reaping =>
          cases hc : s.chldreap <;>
            simp [Serves, NothingDue, Unvisited, settled, advance, hpc, hc]
      | clearing => simp [Serves, NothingDue, Unvisited, settled, advance, hpc]
      | matching rest =>
          cases rest with
          | nil => simp [Serves, NothingDue, Unvisited, settled, hpc]
          | cons e rest =>
              simp only [Serves, NothingDue, Unvisited, settled, hpc, advance, List.mem_singleton]
              refine iff_of_true ?_ (by simp)
              rintro f rfl hf
              rw [if_pos hf, runjob_calls]
      | _ => simp [Serves, NothingDue, Unvisited, settled, hpc]
  | _ => exact Iff.rfl

/-- In a run of any signals, child events and daemon steps, every wake-up passes every
due entry to `runjob` if and only if no wake-up that handles signals finds one due. No
entry escapes this: before the daemon sleeps again it is done with the whole table. -/
theorem runs_serve_iff (s : State) (evs : List Event) :
    (Along step Serves s evs ↔ Along step NothingDue s evs) ∧
    (Along step Within s evs → (evs.foldl step s).pc = .sleeping → ∀ e ∈ remaining s,
      ¬ Along step (fun s ev => ∀ i, ev = .run i → e ∉ settled s) s evs) :=
  ⟨along_congr serves_iff_nothingDue s evs,
    fun hw hsleep _ he => settled_before_sleep hw he hsleep⟩

instance (s : State) (ev : Event) : Decidable (Serves s ev) :=
  match ev with
  | .run i => inferInstanceAs (Decidable (∀ e ∈ settled s, matchentry e i.tm = 1 →
      (advance s i).calls = s.calls ++ [e.cmd]))
  | .sigchld | .sighup | .sigterm | .edit _ | .exit _ | .stop _ | .cont _ =>
      inferInstanceAs (Decidable True)

/-- A table with a job for every second. -/
def everySecond : Config := ⟨"crontab".toList, .ok ["*/1 * * * * * nextcmd\n".toList]⟩

def noon : Tm := { newYear with hour := 12, hour_lt := by decide }

/-- The first wake-up starts the job. Its exit before the second one makes that wake-up
reap the child and sleep again. -/
def exitBetweenWakeups : List Event :=
  let run := Event.run ⟨noon, some 7, 7⟩
  [run, run, run, .exit 7, .sigchld, run, run, run, run, run, run]

theorem wakeup_skips_due_entry :
    (start everySecond).isSome ∧
    ∀ s, start everySecond = some s → ¬ Along step Serves s exitBetweenWakeups := by
  refine ⟨by decide, ?_⟩
  intro s hs
  obtain rfl := Option.some.inj (hs.symm.trans rfl)
  decide

end Dowse.Seccrond
