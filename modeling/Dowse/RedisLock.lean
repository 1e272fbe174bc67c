import Dowse.Strtol
import Dowse.GuardedRuns

/-!
# The lock that processes share through redis

Any number of processes run `hiredis-lock on` and `hiredis-lock off` on one name.
Each of them is cut where it talks to the server: `SET NX`, `GET` and `DEL` are atomic,
and time passes or other processes act in between. Turning the lock off is a `GET` that
compares the key and a `DEL` that does not.

The key is the first `random()` after seeding with the current second, so it is
a function of that second, given here as a parameter.
-/
namespace Dowse.RedisLock
open CStrings Strtol GuardedRuns

variable {P : Type}

/-- The value of the key `lock_<name>` with its expiry time. The process that set it is
recorded beside it; the server does not know it. -/
structure Entry (P : Type) where
  key : ℕ
  owner : P
  deadline : Option ℕ

/-- Where a process is in `main`: before its `SET`, its `GET` or its `DEL`. -/
inductive Phase
  | idle
  | setting (key : ℕ) (timeout : Text)
  | getting (key : Text)
  | deleting
  deriving DecidableEq, Repr

/-- `held` is the expiry time of the last `SET` that was acknowledged to the process, from
then until its `off` completes. -/
structure State (P : Type) where
  now : ℕ
  entry : Option (Entry P)
  held : P → Option (Option ℕ)
  phase : P → Phase

def live (deadline : Option ℕ) (now : ℕ) : Bool :=
  match deadline with
  | some d => now < d
  | none => true

/-- The entry that a command sees; an expired one is gone. -/
def State.visible (s : State P) : Option (Entry P) := s.entry.filter fun e => live e.deadline s.now

def State.Holds (s : State P) (p : P) : Prop := (s.held p).any (live · s.now)

instance (s : State P) (p : P) : Decidable (s.Holds p) := inferInstanceAs (Decidable (_ = true))

theorem State.holds_iff {s : State P} {p : P} :
    s.Holds p ↔ ∃ d, s.held p = some d ∧ live d s.now := by
  simp [State.Holds, Option.any_eq_true]

/-- The expiry that a `SET` with this argument gets; the server refuses other texts. -/
def expiry (timeout : Text) (now : ℕ) : Option (Option ℕ) :=
  if timeout.head? = some '0' then some none
  else if timeout ≠ [] ∧ timeout.all Char.isDigit then some (some (now + decimal timeout))
  else none

/-- What `printf` makes of a key. -/
def keyText (key : ℕ) : Text := Nat.toDigits 10 key

inductive Event (P : Type)
  | tick (ms : ℕ)
  | start (p : P) (action arg : Text)
  | command (p : P)
  | fail (p : P)

/-- At most one process holds the lock. -/
def Exclusive (s : State P) : Prop := ∀ p q, s.Holds p → s.Holds q → p = q

/-- A `DEL` deletes no entry that another process has set. -/
def DeletesOwn (s : State P) : Event P → Prop
  | .command p => s.phase p = .deleting → ∀ e, s.visible = some e → e.owner = p
  | _ => True

/-- A `DEL` is executed only while its process holds the lock. -/
def DeletesInTime (s : State P) : Event P → Prop
  | .command p => s.phase p = .deleting → s.Holds p
  | _ => True

/-- What a process holds is the entry that everyone sees. -/
def Backed (s : State P) : Prop :=
  ∀ p d, s.held p = some d → live d s.now → ∃ e, s.entry = some e ∧ e.owner = p ∧ e.deadline = d

theorem Backed.visible {s : State P} (h : Backed s) {p : P} (hp : s.Holds p) :
    ∃ e, s.visible = some e ∧ e.owner = p := by
  obtain ⟨d, hd, hlive⟩ := State.holds_iff.mp hp
  obtain ⟨e, he, howner, hdead⟩ := h p d hd hlive
  exact ⟨e, by simp [State.visible, he, Option.filter, hdead, hlive], howner⟩

theorem Backed.exclusive {s : State P} (h : Backed s) : Exclusive s := by
  intro p q hp hq
  obtain ⟨e, he, rfl⟩ := h.visible hp
  obtain ⟨f, hf, rfl⟩ := h.visible hq
  obtain rfl := Option.some.inj (he.symm.trans hf)
  rfl

theorem DeletesInTime.deletesOwn {s : State P} (h : Backed s) {ev : Event P}
    (hok : DeletesInTime s ev) : DeletesOwn s ev := by
  cases ev with
  | command p =>
      intro hph e he
      obtain ⟨f, hf, hp⟩ := h.visible (hok hph)
      exact Option.some.inj (he.symm.trans hf) ▸ hp
  | _ => trivial

variable [DecidableEq P]

def State.setPhase (s : State P) (p : P) (ph : Phase) : State P :=
  { s with phase := Function.update s.phase p ph }

/-- The `off` of the process completes. -/
def State.complete (s : State P) (p : P) : State P :=
  { s.setPhase p .idle with held := Function.update s.held p none }

/-- The reply to `SET NX` is `OK` only where no entry is visible. -/
def setNx (s : State P) (p : P) (key : ℕ) (timeout : Text) : State P :=
  match expiry timeout s.now, s.visible with
  | some d, none =>
      { s.setPhase p .idle with
        entry := some ⟨key, p, d⟩, held := Function.update s.held p (some d) }
  | _, _ => s.setPhase p .idle

/-- A missing entry counts as success, a key that differs as an error; both end `off`. -/
def get (s : State P) (p : P) (key : Text) : State P :=
  match s.visible with
  | none => s.complete p
  | some e => if keyText e.key = key then s.setPhase p .deleting else s.complete p

def del (s : State P) (p : P) : State P := { s.complete p with entry := none }

def startAction (random : ℕ → ℕ) (s : State P) (p : P) (action arg : Text) : State P :=
  if action.take 2 = ['o', 'n'] then s.setPhase p (.setting (random (s.now / 1000)) arg)
  else if action.take 3 = ['o', 'f', 'f'] then s.setPhase p (.getting arg)
  else s

/-- One event; a process starts anew only when it is idle. -/
def step (random : ℕ → ℕ) (s : State P) : Event P → State P
  | .tick ms => { s with now := s.now + ms }
  | .start p action arg =>
      match s.phase p with
      | .idle => startAction random s p action arg
      | _ => s
  | .command p =>
      match s.phase p with
      | .idle => s
      | .setting key timeout => setNx s p key timeout
      | .getting key => get s p key
      | .deleting => del s p
  | .fail p => s.setPhase p .idle

def initial (now : ℕ) : State P := ⟨now, none, fun _ => none, fun _ => .idle⟩

theorem live_mono {d : Option ℕ} {now ms : ℕ} (h : live d (now + ms)) : live d now := by
  cases d with
  | none => rfl
  | some d =>
      simp only [live, decide_eq_true_eq] at h ⊢
      omega

theorem Backed.setPhase {s : State P} (h : Backed s) (p : P) (ph : Phase) :
    Backed (s.setPhase p ph) := h

theorem Backed.complete {s : State P} (h : Backed s) (p : P) : Backed (s.complete p) := by
  intro q d hq hlive
  by_cases hqp : q = p
  · simp [State.complete, hqp] at hq
  · exact h q d (by simpa [State.complete, hqp] using hq) hlive

/-- Where no entry is visible nobody holds the lock, so the new entry backs the only holder. -/
theorem Backed.setNx {s : State P} (h : Backed s) (p : P) (key : ℕ) (timeout : Text) :
    Backed (setNx s p key timeout) := by
  unfold RedisLock.setNx
  split
  · rename_i d hexp hvis
    intro q d' hq hlive
    by_cases hqp : q = p
    · subst hqp
      obtain rfl : d = d' := by simpa using hq
      exact ⟨_, rfl, rfl, rfl⟩
    · have hold : s.Holds q := State.holds_iff.mpr ⟨d', by simpa [hqp] using hq, hlive⟩
      obtain ⟨e, he, -⟩ := h.visible hold
      simp [hvis] at he
  · exact h.setPhase p .idle

theorem Backed.get {s : State P} (h : Backed s) (p : P) (key : Text) : Backed (get s p key) := by
  unfold RedisLock.get
  split
  · exact h.complete p
  · split_ifs
    · exact h.setPhase p .deleting
    · exact h.complete p

/-- A holder's `DEL` removes its own entry, which no other process can hold. -/
theorem Backed.del {s : State P} (h : Backed s) {p : P} (hp : s.Holds p) : Backed (del s p) := by
  intro q d hq hlive
  exfalso
  have hqp : q ≠ p := by
    rintro rfl
    simp [RedisLock.del, State.complete] at hq
  have hold : s.Holds q :=
    State.holds_iff.mpr ⟨d, by simpa [RedisLock.del, State.complete, hqp] using hq, hlive⟩
  exact hqp (h.exclusive q p hold hp)

theorem Backed.step {random : ℕ → ℕ} {s : State P} (h : Backed s) {ev : Event P}
    (hok : DeletesInTime s ev) : Backed (step random s ev) := by
  cases ev with
  | tick ms => exact fun p d hd hlive => h p d hd (live_mono hlive)
  | start p action arg =>
      simp only [RedisLock.step]
      split
      · unfold startAction
        split_ifs
        · exact h.setPhase p _
        · exact h.setPhase p _
        · exact h
      · exact h
  | command p =>
      simp only [RedisLock.step]
      split
      · exact h
      · exact h.setNx p _ _
      · exact h.get p _
      · rename_i hph
        exact h.del (hok hph)
  | fail p => exact h.setPhase p .idle

/-- In every run in which each `DEL` is executed while its process still holds the lock, at
most one process ever holds it and no entry of another process is deleted. -/
theorem lock_exclusive (random : ℕ → ℕ) (now : ℕ) (evs : List (Event P))
    (h : Along (step random) DeletesInTime (initial now) evs) :
    Throughout (step random) Exclusive (initial now) evs ∧
      Along (step random) DeletesOwn (initial now) evs := by
  have hstart : Backed (initial now : State P) := fun p d hd => by simp [initial] at hd
  exact ⟨(throughout_of_along (fun _ _ h hok => h.step hok) hstart h).mono
      fun _ hs => hs.exclusive,
    h.imp (fun _ _ hs hok => hs.step hok) (fun _ _ hs hok => hok.deletesOwn hs) hstart⟩

/-- The condition is exact up to one more process: a `DEL` that comes while another process
holds the lock lets a third one take it too. -/
theorem late_del_admits_second_holder {random : ℕ → ℕ} {s : State P} {p q r : P} {key : ℕ}
    {timeout : Text} {d : Option ℕ} (hp : s.phase p = .deleting) (hq : s.Holds q) (hqp : q ≠ p)
    (hr : s.phase r = .setting key timeout) (hd : expiry timeout s.now = some d)
    (hlive : live d s.now) (hrq : r ≠ q) :
    ¬ Exclusive (step random (step random s (.command p)) (.command r)) := by
  have hrp : r ≠ p := by
    rintro rfl
    simp [hp] at hr
  have hdel : step random s (.command p) = del s p := by simp [step, hp]
  have hset : step random (del s p) (.command r) =
      { (del s p).setPhase r .idle with
        entry := some ⟨key, r, d⟩, held := Function.update (del s p).held r (some d) } := by
    have hphase : (del s p).phase r = .setting key timeout := by
      simp [del, State.complete, State.setPhase, hrp, hr]
    have hnow : (del s p).now = s.now := rfl
    have hvis : (del s p).visible = none := rfl
    simp [step, hphase, setNx, hnow, hd, hvis]
  rw [hdel, hset]
  intro hex
  refine hrq (hex r q ?_ ?_)
  · simpa [State.Holds, del, State.complete, State.setPhase] using hlive
  · simpa [State.Holds, del, State.complete, State.setPhase, hrq.symm, hqp] using hq

instance (s : State P) (ev : Event P) : Decidable (DeletesInTime s ev) :=
  match ev with
  | .command p => inferInstanceAs (Decidable (s.phase p = .deleting → s.Holds p))
  | .tick _ | .start _ _ _ | .fail _ => inferInstanceAs (Decidable True)

/-- Process 0 takes the lock. Process 1 is refused, and cannot unlock it with a key of its own;
when process 0 has given the lock back in time, process 1 takes it. -/
def onAndOff : List (Event ℕ) :=
  [.start 0 "on".toList "1000".toList, .command 0, .tick 5,
   .start 1 "on".toList "5000".toList, .command 1, .start 1 "off".toList "5".toList, .command 1,
   .start 0 "off".toList "0".toList, .command 0, .command 0,
   .start 1 "on".toList "5000".toList, .command 1]

theorem lock_exclusive_onAndOff :
    (((onAndOff.take 7).foldl (step id) (initial 0)).Holds 0 ∧
      (onAndOff.foldl (step id) (initial 0)).Holds 1) ∧
    Along (step id) DeletesInTime (initial 0) onAndOff ∧
      Throughout (step id) Exclusive (initial 0) onAndOff := by
  have h : Along (step id) DeletesInTime (initial 0) onAndOff := by decide
  exact ⟨by decide, h, (lock_exclusive id 0 onAndOff h).1⟩

/-- The lock of process 0 expires between its `GET` and its `DEL`, which then removes the
entry of process 1. -/
def expiredBeforeDel : List (Event ℕ) :=
  [.start 0 "on".toList "1000".toList, .command 0, .start 0 "off".toList "0".toList, .command 0,
   .tick 1000, .start 1 "on".toList "5000".toList, .command 1, .command 0,
   .start 2 "on".toList "5000".toList, .command 2]

theorem late_del_two_holders :
    (expiredBeforeDel.foldl (step id) (initial 0)).Holds 1 ∧
      (expiredBeforeDel.foldl (step id) (initial 0)).Holds 2 := by
  decide

end Dowse.RedisLock
