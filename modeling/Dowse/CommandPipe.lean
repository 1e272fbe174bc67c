import Mathlib.Data.List.DropRight
import Dowse.GuardedRuns
import Dowse.Splitting
import Dowse.WebUi

/-!
# The pipe of commands

The web server publishes commands on a channel of redis, and cycles of `pendulum nextcmd`
execute them: a cycle takes the lock, subscribes, takes one message, executes it and gives
the lock back. Redis delivers a message to the clients that are subscribed at that moment
and keeps nothing. A cycle reads one message and hangs up, so what arrives behind it is
gone, as is everything that is published between two subscriptions.

What was executed together with what the current cycle is due to execute is changed by
publications only. That makes it possible to say for a state, without looking at what
comes after, whether everything published so far can still be executed.
-/
namespace Dowse.CommandPipe
open CStrings GuardedRuns Splitting

/-- What the shell gets of a message: `printf` stops at a NUL, and line ends are dropped from
the end of a substitution. -/
def captured (msg : Text) : Text := (msg.takeWhile (· ≠ '\x00')).rdropWhile (· = '\n')

/-- A word between separators as the shell counts them, which skips empty ones but for one at the
end. -/
def shellWord (sep : Char) (n : ℕ) (text : Text) : Text :=
  ordinal (words sep text ++ if text.getLast? = some sep then [[]] else []) n

def word (n : ℕ) (line : Text) : Text := shellWord ',' n line

/-- The line that reaches the actions of `exec_next_cmd`, if it passes the checks. -/
def execNextCmd (msg : Text) : Option Text :=
  if captured msg = [] then none
  else if (captured msg).take 4 ≠ "CMD,".toList then none
  else if word 3 (captured msg) = [] then none
  else some (captured msg)

/-- Where a cycle of `pendulum nextcmd` is. A subscribed client has an inbox at the server. -/
inductive Phase
  | idle
  | locked
  | subscribed (inbox : List Text)
  | received (msg : Text)
  | executed
  deriving DecidableEq, Repr

structure State (P : Type) where
  lock : Option P
  phase : P → Phase
  published : List Text
  done : List Text

inductive Event (P : Type)
  | publish (msg : Text)
  | lock (p : P)
  | subscribe (p : P)
  | take (p : P)
  | execute (p : P)
  | unlock (p : P)

def Phase.deliver (msg : Text) : Phase → Phase
  | .subscribed inbox => .subscribed (inbox ++ [msg])
  | phase => phase

variable {P : Type}

def initial : State P := ⟨none, fun _ => .idle, [], []⟩

/-- What a cycle in this phase will execute. -/
def Phase.due : Phase → List Text
  | .subscribed (msg :: _) => (execNextCmd msg).toList
  | .received msg => (execNextCmd msg).toList
  | _ => []

def State.due (s : State P) : List Text := s.lock.elim [] fun p => (s.phase p).due

/-- The cycle that is under way is the one with the lock. -/
def Guarded (s : State P) : Prop := ∀ p, s.phase p ≠ .idle ↔ s.lock = some p

theorem Guarded.lock_of_phase {s : State P} (h : Guarded s) {p : P} {phase : Phase}
    (hp : s.phase p = phase) (hne : phase ≠ .idle) : s.lock = some p :=
  (h p).mp (hp ▸ hne)

theorem Guarded.due_eq {s : State P} (h : Guarded s) {p : P} {phase : Phase}
    (hp : s.phase p = phase) (hne : phase ≠ .idle) : s.due = phase.due := by
  rw [State.due, h.lock_of_phase hp hne, Option.elim_some, hp]

theorem guarded_initial : Guarded (initial : State P) := fun _ => iff_of_false (· rfl) nofun

variable [DecidableEq P]

def State.setPhase (s : State P) (p : P) (phase : Phase) : State P :=
  { s with phase := Function.update s.phase p phase }

/-- One event. A cycle that finds the lock taken ends at once, and one without a message
waits. The lock has no expiry time. -/
def step (s : State P) : Event P → State P
  | .publish msg =>
      { s with phase := fun p => (s.phase p).deliver msg, published := s.published ++ [msg] }
  | .lock p =>
      match s.phase p, s.lock with
      | .idle, none => { s.setPhase p .locked with lock := some p }
      | _, _ => s
  | .subscribe p =>
      match s.phase p with
      | .locked => s.setPhase p (.subscribed [])
      | _ => s
  | .take p =>
      match s.phase p with
      | .subscribed (msg :: _) => s.setPhase p (.received msg)
      | _ => s
  | .execute p =>
      match s.phase p with
      | .received msg =>
          { s.setPhase p .executed with done := s.done ++ (execNextCmd msg).toList }
      | _ => s
  | .unlock p =>
      match s.phase p with
      | .executed => { s.setPhase p .idle with lock := none }
      | _ => s

/-- A step of a cycle. -/
def Event.Cyclic : Event P → Prop
  | .publish _ => False
  | _ => True

/-- The commands were executed in the order of their publication, and cycles can complete
this without another publication. -/
structure Delivered (s : State P) : Prop where
  order : s.done <+: s.published
  complete : ∃ evs : List (Event P), (∀ ev ∈ evs, ev.Cyclic) ∧
    (evs.foldl step s).done = s.published

/-- A message is published while a cycle is subscribed and has not got one yet, and it is a
command that reaches the actions unchanged. -/
def Prompt (s : State P) : Event P → Prop
  | .publish msg => (∃ p, s.phase p = .subscribed []) ∧ execNextCmd msg = some msg
  | _ => True

/-- A cycle that goes on keeps the lock. -/
theorem Guarded.setPhase {s : State P} (h : Guarded s) {p : P} {phase phase' : Phase}
    (hp : s.phase p = phase) (hne : phase ≠ .idle) (hne' : phase' ≠ .idle) :
    Guarded (s.setPhase p phase') := by
  intro q
  change Function.update s.phase p phase' q ≠ .idle ↔ s.lock = some q
  by_cases hq : q = p
  · subst hq
    rw [Function.update_self]
    exact iff_of_true hne' (h.lock_of_phase hp hne)
  · rw [Function.update_of_ne hq]
    exact h q

theorem deliver_ne_idle (msg : Text) (phase : Phase) :
    phase.deliver msg ≠ .idle ↔ phase ≠ .idle := by
  cases phase <;> simp [Phase.deliver]

theorem guarded_step {s : State P} (h : Guarded s) (ev : Event P) : Guarded (step s ev) := by
  cases ev with
  | publish msg => exact fun p => (deliver_ne_idle msg (s.phase p)).trans (h p)
  | lock p =>
      simp only [step]
      split
      · rename_i hp hlock
        intro q
        change Function.update s.phase p .locked q ≠ .idle ↔ some p = some q
        by_cases hq : q = p
        · subst hq
          simp
        · have hnot : ¬ s.phase q ≠ .idle := fun hne => by
            rw [h q, hlock] at hne
            cases hne
          rw [Function.update_of_ne hq]
          exact iff_of_false hnot fun heq => hq (Option.some.inj heq).symm
      · exact h
  | subscribe p =>
      simp only [step]
      split
      · rename_i hp
        exact h.setPhase hp nofun nofun
      · exact h
  | take p =>
      simp only [step]
      split
      · rename_i hp
        exact h.setPhase hp nofun nofun
      · exact h
  | execute p =>
      simp only [step]
      split
      · rename_i hp
        exact h.setPhase hp nofun nofun
      · exact h
  | unlock p =>
      simp only [step]
      split
      · rename_i hp
        intro q
        change Function.update s.phase p .idle q ≠ .idle ↔ none = some q
        by_cases hq : q = p
        · subst hq
          simp
        · rw [Function.update_of_ne hq, h q, h.lock_of_phase hp nofun]
          exact iff_of_false (fun heq => hq (Option.some.inj heq).symm) nofun
      · exact h

/-- The due command of a cycle that goes on. -/
theorem Guarded.due_setPhase {s : State P} (h : Guarded s) {p : P} {phase : Phase}
    (hp : s.phase p = phase) (hne : phase ≠ .idle) (phase' : Phase) :
    (s.setPhase p phase').due = phase'.due := by
  change (s.lock.elim [] fun q => (Function.update s.phase p phase' q).due) = _
  rw [h.lock_of_phase hp hne, Option.elim_some, Function.update_self]

/-- The steps of a cycle neither add to nor take from what was executed or is due. -/
theorem done_due_step {s : State P} (h : Guarded s) {ev : Event P} (hev : ev.Cyclic) :
    (step s ev).done ++ (step s ev).due = s.done ++ s.due := by
  cases ev with
  | publish msg => exact hev.elim
  | lock p =>
      simp only [step]
      split
      · rename_i hp hlock
        change s.done ++ (Function.update s.phase p .locked p).due = _
        rw [Function.update_self, State.due, hlock]
        rfl
      · rfl
  | subscribe p =>
      simp only [step]
      split
      · rename_i hp
        rw [h.due_setPhase hp nofun, h.due_eq hp nofun]
        rfl
      · rfl
  | take p =>
      simp only [step]
      split
      · rename_i msg _ hp
        rw [h.due_setPhase hp nofun, h.due_eq hp nofun]
        rfl
      · rfl
  | execute p =>
      simp only [step]
      split
      · rename_i msg hp
        change (s.done ++ (execNextCmd msg).toList) ++ (s.setPhase p .executed).due = _
        rw [h.due_setPhase hp nofun, h.due_eq hp nofun]
        exact List.append_nil _
      · rfl
  | unlock p =>
      simp only [step]
      split
      · rename_i hp
        rw [h.due_eq hp nofun]
        rfl
      · rfl

theorem done_due_foldl {s : State P} (h : Guarded s) {evs : List (Event P)}
    (hevs : ∀ ev ∈ evs, ev.Cyclic) :
    (evs.foldl step s).done ++ (evs.foldl step s).due = s.done ++ s.due := by
  induction evs generalizing s with
  | nil => rfl
  | cons ev evs ih =>
      rw [List.foldl_cons, ih (guarded_step h ev) fun e he => hevs e (List.mem_cons_of_mem ev he),
        done_due_step h (hevs ev List.mem_cons_self)]

/-- Cycles execute nothing beyond what is due. -/
theorem Delivered.published_le {s : State P} (h : Guarded s) (hs : Delivered s) :
    s.published <+: s.done ++ s.due := by
  obtain ⟨evs, hevs, hdone⟩ := hs.complete
  rw [← done_due_foldl h hevs, hdone]
  exact List.prefix_append _ _

theorem execute_done {s : State P} {p : P} {msg : Text} (hp : s.phase p = .received msg) :
    (step s (.execute p)).done = s.done ++ (execNextCmd msg).toList := by
  simp only [step, hp]

/-- The cycle that has the lock can execute what is due. -/
theorem exists_cyclic {s : State P} : ∃ evs : List (Event P), (∀ ev ∈ evs, ev.Cyclic) ∧
    (evs.foldl step s).done = s.done ++ s.due := by
  have hnone : s.due = [] → ∃ evs : List (Event P), (∀ ev ∈ evs, ev.Cyclic) ∧
      (evs.foldl step s).done = s.done ++ s.due := by
    intro hdue
    exact ⟨[], nofun, by rw [hdue, List.append_nil]; rfl⟩
  cases hlock : s.lock with
  | none => exact hnone (by rw [State.due, hlock]; rfl)
  | some p =>
      have hdue : s.due = (s.phase p).due := by rw [State.due, hlock]; rfl
      cases hp : s.phase p with
      | received msg =>
          refine ⟨[.execute p], List.forall_mem_singleton.mpr trivial, ?_⟩
          rw [hdue, hp]
          exact execute_done hp
      | subscribed inbox =>
          cases inbox with
          | nil => exact hnone (by rw [hdue, hp]; rfl)
          | cons msg rest =>
              have htake : step s (.take p) = s.setPhase p (.received msg) := by
                simp only [step, hp]
              refine ⟨[.take p, .execute p],
                List.forall_mem_cons.mpr ⟨trivial, List.forall_mem_singleton.mpr trivial⟩, ?_⟩
              rw [hdue, hp, List.foldl_cons, htake]
              exact execute_done (Function.update_self ..)
      | idle => exact hnone (by rw [hdue, hp]; rfl)
      | locked => exact hnone (by rw [hdue, hp]; rfl)
      | executed => exact hnone (by rw [hdue, hp]; rfl)

/-- Everything that was published was executed or is due. -/
structure Accounted (s : State P) : Prop where
  guarded : Guarded s
  all : s.done ++ s.due = s.published

theorem Accounted.delivered {s : State P} (h : Accounted s) : Delivered s := by
  refine ⟨h.all ▸ List.prefix_append _ _, ?_⟩
  rw [← h.all]
  exact exists_cyclic

section Publish
variable {s : State P} (h : Guarded s) (msg : Text)
include h

/-- A message is due after its publication if a cycle waits for its first one. -/
theorem due_publish_of_waiting {p : P} (hp : s.phase p = .subscribed []) :
    (step s (.publish msg)).due = (execNextCmd msg).toList := by
  change (s.lock.elim [] fun q => ((s.phase q).deliver msg).due) = _
  rw [h.lock_of_phase hp nofun, Option.elim_some, hp]
  rfl

omit h in
theorem due_publish_of_not (hnot : ¬ ∃ p, s.phase p = .subscribed []) :
    (step s (.publish msg)).due = s.due := by
  change (s.lock.elim [] fun q => ((s.phase q).deliver msg).due) = _
  rw [State.due]
  cases s.lock with
  | none => rfl
  | some p =>
      rw [Option.elim_some, Option.elim_some]
      cases hp : s.phase p with
      | subscribed inbox =>
          cases inbox with
          | nil => exact absurd ⟨p, hp⟩ hnot
          | cons first rest => rfl
      | _ => rfl

end Publish

/-- With everything accounted for, a publication is accounted for if and only if it is
prompt; a message that is not due cannot be executed any more. -/
theorem Accounted.publish_iff {s : State P} (h : Accounted s) (msg : Text) :
    s.published ++ [msg] <+: s.done ++ (step s (.publish msg)).due ↔ Prompt s (.publish msg) := by
  by_cases hwaiting : ∃ p, s.phase p = .subscribed []
  · obtain ⟨p, hp⟩ := hwaiting
    have hdone : s.done = s.published := by
      rw [← h.all, h.guarded.due_eq hp nofun]
      exact (List.append_nil _).symm
    rw [due_publish_of_waiting h.guarded msg hp, hdone, List.prefix_append_right_inj, Prompt,
      and_iff_right ⟨p, hp⟩]
    cases execNextCmd msg <;> simp [eq_comm]
  · rw [due_publish_of_not msg hwaiting, h.all]
    refine iff_of_false (fun hbegins => ?_) fun hprompt => hwaiting hprompt.1
    have hlength := hbegins.length_le
    rw [List.length_append, List.length_singleton] at hlength
    omega

theorem published_step_of_cyclic (s : State P) {ev : Event P} (hev : ev.Cyclic) :
    (step s ev).published = s.published := by
  cases ev with
  | publish msg => exact hev.elim
  | _ =>
      simp only [step]
      split <;> rfl

theorem Accounted.cyclic {s : State P} (h : Accounted s) {ev : Event P} (hev : ev.Cyclic) :
    Accounted (step s ev) :=
  ⟨guarded_step h.guarded ev, by
    rw [done_due_step h.guarded hev, h.all, published_step_of_cyclic s hev]⟩

theorem accounted_step {s : State P} (h : Accounted s) {ev : Event P} (hev : Prompt s ev) :
    Accounted (step s ev) := by
  cases ev with
  | publish msg =>
      obtain ⟨⟨p, hp⟩, hmsg⟩ := hev
      refine ⟨guarded_step h.guarded _, ?_⟩
      change s.done ++ _ = s.published ++ [msg]
      rw [due_publish_of_waiting h.guarded msg hp, hmsg, ← h.all, h.guarded.due_eq hp nofun]
      exact congrArg (· ++ [msg]) (List.append_nil s.done).symm
  | _ => exact h.cyclic trivial

theorem delivered_step_iff {s : State P} (h : Accounted s) (ev : Event P) :
    Delivered (step s ev) ↔ Prompt s ev := by
  refine ⟨fun hs => ?_, fun hev => (accounted_step h hev).delivered⟩
  cases ev with
  | publish msg =>
      exact (h.publish_iff msg).mp (hs.published_le (guarded_step h.guarded _))
  | _ => trivial

/-- For any number of cycles and any interleaving with publications, the published commands
are executed once and in order in every state reached if and only if every one of them is
published while a subscribed cycle still waits for its message. -/
theorem delivered_iff_prompt (evs : List (Event P)) :
    Throughout step Delivered initial evs ↔ Along step Prompt initial evs :=
  throughout_iff_along (I := Accounted) (A := fun _ _ => True) (fun _ hs => hs.delivered)
    (fun _ ev hs _ => delivered_step_iff hs ev) (fun _ _ hs _ hev => accounted_step hs hev)
    ⟨guarded_initial, rfl⟩ (along_of_forall (fun _ _ => trivial) _ _)

section CommandLine
variable {ip oper mac ipb : Text} {now : ℕ}

theorem commandLine_eq : WebUi.commandLine ip oper now mac ipb =
    "CMD".toList ++ ',' :: (ip ++ ',' :: (oper ++ ',' :: (Nat.toDigits 10 now ++
      ',' :: (mac ++ ',' :: ipb)))) := by
  have hcmd : "CMD,".toList = "CMD".toList ++ [','] := by decide
  unfold WebUi.commandLine
  rw [hcmd]
  simp only [List.append_assoc, List.cons_append, List.nil_append]

theorem captured_eq_self {msg : Text} (hnul : '\x00' ∉ msg) (hend : msg.getLast? ≠ some '\n') :
    captured msg = msg := by
  have htake : msg.takeWhile (· ≠ '\x00') = msg := by
    refine List.takeWhile_eq_self_iff.mpr fun c hc => decide_eq_true ?_
    rintro rfl
    exact hnul hc
  rw [captured, htake, List.rdropWhile_eq_self_iff]
  intro hne hlast
  refine hend ?_
  rw [List.getLast?_eq_some_getLast hne]
  exact congrArg some (of_decide_eq_true hlast)

/-- A line of the web server reaches the actions as it is, unless a field has a NUL or the last
one ends in a line end. -/
theorem execNextCmd_commandLine (hip : '\x00' ∉ ip) (hmac : '\x00' ∉ mac) (hipb : '\x00' ∉ ipb)
    (hend : ipb.getLast? ≠ some '\n') (hoper : oper ≠ []) (hword : ',' ∉ oper ∧ '\x00' ∉ oper) :
    execNextCmd (WebUi.commandLine ip oper now mac ipb) =
      some (WebUi.commandLine ip oper now mac ipb) := by
  have hdigits : ∀ c, c.isDigit = false → c ∉ Nat.toDigits 10 now := by
    intro c hc hmem
    have hdigit := Nat.isDigit_of_mem_toDigits (by decide) (by decide) hmem
    rw [hc] at hdigit
    cases hdigit
  have hnul : '\x00' ∉ WebUi.commandLine ip oper now mac ipb := by
    have hcmd : '\x00' ∉ "CMD".toList := by decide
    rw [commandLine_eq]
    simp only [List.mem_append, List.mem_cons, not_or]
    exact ⟨hcmd, by decide, hip, by decide, hword.2, by decide, hdigits _ (by decide), by decide,
      hmac, by decide, hipb⟩
  have hlast : (WebUi.commandLine ip oper now mac ipb).getLast? ≠ some '\n' := by
    unfold WebUi.commandLine
    rw [List.getLast?_append, List.getLast?_append]
    cases hlast : ipb.getLast? with
    | none => exact fun h => absurd (Option.some.inj h) (by decide)
    | some c =>
        rw [hlast] at hend
        exact hend
  have hwords : words ',' (WebUi.commandLine ip oper now mac ipb) =
      ["CMD".toList] ++ (words ',' ip ++
        ([oper] ++ ([Nat.toDigits 10 now] ++ (words ',' mac ++ words ',' ipb)))) := by
    rw [commandLine_eq, words_append, words_append, words_append, words_append, words_append,
      words_singleton (by decide) (by decide), words_singleton hoper hword.1,
      words_singleton Nat.toDigits_ne_nil (hdigits _ (by decide))]
  have hlength : 3 ≤ (words ',' (WebUi.commandLine ip oper now mac ipb)).length := by
    rw [hwords]
    simp only [List.length_append, List.length_singleton]
    omega
  have hthird : word 3 (WebUi.commandLine ip oper now mac ipb) ≠ [] := by
    rw [word, shellWord, ordinal_append (by decide) hlength]
    exact (of_mem_words (ordinal_mem (List.ne_nil_of_length_pos (by omega)) 3)).1
  have hcmd : (WebUi.commandLine ip oper now mac ipb).take 4 = "CMD,".toList := by
    unfold WebUi.commandLine
    simp only [List.append_assoc]
    exact List.take_left' (by decide)
  have hne : WebUi.commandLine ip oper now mac ipb ≠ [] := by
    rw [commandLine_eq]
    exact List.append_ne_nil_of_left_ne_nil (by decide) _
  unfold execNextCmd
  rw [captured_eq_self hnul hlast, if_neg hne, if_neg (not_not_intro hcmd), if_neg hthird]

end CommandLine

def operations : List Text :=
  ["THING_OFF".toList, "THING_ON".toList, "ALL_THINGS_OFF".toList, "ALL_THINGS_ON".toList]

/-- The line for a device that is switched on. -/
def thingOn : Text :=
  WebUi.commandLine "10.0.0.2".toList "THING_ON".toList 1500000000 "bb".toList "10.0.0.7".toList

/-- A command that is published before the first cycle subscribes is executed by none. -/
theorem published_too_early :
    ¬ Throughout step Delivered (initial : State Unit) [.publish thingOn] ∧
      ∀ evs : List (Event Unit), (∀ ev ∈ evs, ev.Cyclic) →
        (evs.foldl step (step initial (.publish thingOn))).done = [] := by
  constructor
  · rw [throughout_cons, throughout_nil, not_and]
    intro _ h
    obtain ⟨p, hp⟩ := ((delivered_step_iff ⟨guarded_initial, rfl⟩ _).mp h).1
    cases hp
  · intro evs hevs
    have hkept := done_due_foldl (guarded_step guarded_initial (.publish thingOn)) hevs
    exact (List.append_eq_nil_iff.mp hkept).1

end Dowse.CommandPipe
