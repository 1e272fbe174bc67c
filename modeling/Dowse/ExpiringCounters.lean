import Mathlib.Data.List.Basic
import Mathlib.Logic.Function.Basic

/-!
# Counters with a time limit

A store has counters by key. Counting up starts at one when there is no counter or its limit
has passed, and leaves the limit of an existing counter alone. Setting a limit needs a counter
that is still there.

A key that gets a new limit with every count has a counter for its streak: the counts that
follow each other within the limit, from the latest one back. `summary` says what the store
holds for a key after any history of counts, and `touch_summary` is the step.
-/
namespace Dowse.ExpiringCounters

structure Counter where
  value : ℕ
  limit : Option ℕ
  deriving DecidableEq, Repr

/-- The limit has not passed. -/
def Counter.alive (now : ℕ) (c : Counter) : Bool := c.limit.all (now ≤ ·)

abbrev Store (κ : Type*) := κ → Option Counter

variable {κ : Type*} [DecidableEq κ]

def lookup (s : Store κ) (now : ℕ) (k : κ) : Option Counter := (s k).filter (Counter.alive now)

/-- The number of a key, zero if it has no counter. -/
def count (s : Store κ) (now : ℕ) (k : κ) : ℕ := (lookup s now k).elim 0 Counter.value

def incr (s : Store κ) (now : ℕ) (k : κ) : Store κ :=
  Function.update s k (some ⟨count s now k + 1, (lookup s now k).bind Counter.limit⟩)

def expire (s : Store κ) (now ttl : ℕ) (k : κ) : Store κ :=
  Function.update s k ((lookup s now k).map fun c => { c with limit := some (now + ttl) })

/-- A count that gives the counter a new limit. -/
def touch (ttl : ℕ) (s : Store κ) (now : ℕ) (k : κ) : Store κ := expire (incr s now k) now ttl k

/-- The length of the streak of a key at a time, for counts with their times from the latest
one back. -/
def streak (ttl : ℕ) (k : κ) : ℕ → List (κ × ℕ) → ℕ
  | _, [] => 0
  | now, count :: earlier =>
      if count.1 = k then
        if now ≤ count.2 + ttl then streak ttl k count.2 earlier + 1 else 0
      else streak ttl k now earlier

/-- What is stored for a key after a history of counts. -/
def summary (ttl : ℕ) (history : List (κ × ℕ)) (k : κ) : Option Counter :=
  match history with
  | [] => none
  | count :: earlier =>
      if count.1 = k then some ⟨streak ttl k count.2 earlier + 1, some (count.2 + ttl)⟩
      else summary ttl earlier k

variable {ttl now : ℕ} {history : List (κ × ℕ)} {s : Store κ} {k k' : κ}

/-- The number of a key is its streak. -/
theorem count_summary (ttl now : ℕ) (history : List (κ × ℕ)) (k : κ) :
    count (summary ttl history) now k = streak ttl k now history := by
  induction history with
  | nil => rfl
  | cons query earlier ih =>
      unfold count lookup at ih ⊢
      rw [summary, streak]
      split
      · rw [Option.filter_some]
        by_cases hnow : now ≤ query.2 + ttl <;> simp [Counter.alive, hnow]
      · exact ih

theorem lookup_incr (s : Store κ) (now : ℕ) (k : κ) :
    lookup (incr s now k) now k =
      some ⟨count s now k + 1, (lookup s now k).bind Counter.limit⟩ := by
  rw [lookup, incr, Function.update_self, Option.filter_eq_some_iff]
  refine ⟨rfl, ?_⟩
  -- The limit of a counter that was found has not passed.
  unfold Counter.alive
  cases hfound : lookup s now k with
  | none => rfl
  | some c => exact (Option.filter_eq_some_iff.mp hfound).2

theorem touch_apply_self (ttl : ℕ) (s : Store κ) (now : ℕ) (k : κ) :
    touch ttl s now k k = some ⟨count s now k + 1, some (now + ttl)⟩ := by
  unfold touch expire
  rw [Function.update_self, lookup_incr]
  rfl

theorem touch_apply_of_ne (h : k' ≠ k) : touch ttl s now k k' = s k' := by
  unfold touch expire incr
  rw [Function.update_of_ne h, Function.update_of_ne h]

/-- One more count. -/
theorem touch_summary (ttl : ℕ) (history : List (κ × ℕ)) (now : ℕ) (k : κ) :
    touch ttl (summary ttl history) now k = summary ttl ((k, now) :: history) := by
  funext k'
  by_cases h : k' = k
  · subst h
    rw [touch_apply_self, count_summary, summary, if_pos rfl]
  · rw [touch_apply_of_ne h, summary, if_neg (Ne.symm h)]

/-- Other names for the keys make no difference to a streak. -/
theorem streak_map {κ' : Type*} [DecidableEq κ'] {f : κ → κ'} (hf : Function.Injective f)
    (ttl : ℕ) (k : κ) (now : ℕ) (history : List (κ × ℕ)) :
    streak ttl (f k) now (history.map fun count => (f count.1, count.2)) =
      streak ttl k now history := by
  induction history generalizing now with
  | nil => rfl
  | cons count earlier ih =>
      rw [List.map_cons]
      unfold streak
      dsimp only
      rw [ih count.2, ih now]
      by_cases h : count.1 = k
      · rw [if_pos h, if_pos (congrArg f h)]
      · rw [if_neg h, if_neg (hf.ne h)]

end Dowse.ExpiringCounters
