import Dowse.CrontabGrammar

/-!
# Matching a loaded entry

`matchentry` trusts the table: it takes a remainder by a stored value, indexes the values of a
field by its type, and compares fields of all types but one. Here it works on the memory of an
entry and on a broken-down time whose members are arbitrary integers; a remainder by zero, a
read outside the values, an index into the month table outside it, and a field of type `ERROR`
are faults. None of them happens for an entry that `loadentries` has put into the table.
-/
namespace Dowse.CrontabMemory
open CStrings Strtol Crontab

/-- `struct tm` with any values in it. -/
structure BrokenDown where
  sec : ℤ
  min : ℤ
  hour : ℤ
  mday : ℤ
  mon : ℤ
  wday : ℤ
  year : ℤ
  deriving DecidableEq, Repr

structure EntryMem where
  sec : FieldMem
  min : FieldMem
  hour : FieldMem
  mday : FieldMem
  mon : FieldMem
  wday : FieldMem
  deriving DecidableEq, Repr

/-- A read of `f->val[i]`, which has to be one of the first `f->len` values. -/
def valueAt (f : FieldMem) (i : ℕ) : Except Fault ℤ :=
  match f.val, f.len with
  | some block, some len => if i < len then (block[i]?).elim (.error .outside) .ok
      else .error .outside
  | _, _ => .error .unassigned

def remainder (a b : ℤ) : Except Fault ℤ :=
  if b = 0 then .error .divisionByZero else .ok (a.tmod b)

/-- The loop over a list, with the values that are left. -/
def listMatch (f : FieldMem) (tm : ℤ) : ℕ → ℕ → Except Fault Bool
  | 0, _ => .ok false
  | left + 1, j => do
      if (← valueAt f j) = tm then return true
      listMatch f tm left (j + 1)

/-- One turn of the loop: whether it goes on to the next column. -/
def goesOn (f : FieldMem) (tm len : ℤ) : Except Fault Bool :=
  match f.type with
  | .wildcard => return true
  | .number => do return (← valueAt f 0) = tm
  | .range => do
      if (← valueAt f 0) ≤ tm then return (← valueAt f 1) ≥ tm
      return false
  | .repeated => do
      if tm > 0 then return (← remainder tm (← valueAt f 0)) = 0
      return (← remainder len (← valueAt f 0)) = 0
  | .list =>
      match f.len with
      | some n => listMatch f tm n 0
      | none => .error .unassigned
  | .error => .error .errorType

def matchRows : List (FieldMem × ℤ × ℤ) → Except Fault ℤ
  | [] => return 1
  | (f, tm, len) :: rows => do
      if ← goesOn f tm len then matchRows rows else return 0

/-- The table of days has an element for each of twelve months. -/
def daysinmon (mon year : ℤ) : Except Fault ℤ :=
  if 0 ≤ mon ∧ mon < 12 then .ok (Crontab.daysinmon mon.toNat year) else .error .outside

def matchentry (cte : EntryMem) (tm : BrokenDown) : Except Fault ℤ := do
  let days ← daysinmon tm.mon tm.year
  matchRows [(cte.sec, tm.sec, 60), (cte.min, tm.min, 60), (cte.hour, tm.hour, 24),
    (cte.mday, tm.mday, days), (cte.mon, tm.mon, 12), (cte.wday, tm.wday, 7)]

def entryMem (e : CtabEntry) : EntryMem :=
  ⟨image e.sec, image e.min, image e.hour, image e.mday, image e.mon, image e.wday⟩

/-- What a loaded field has: the values of its length, all within the limits of the column, and
as many as its type calls for. -/
structure Stored (low high : ℤ) (f : FieldMem) (vals : List ℤ) : Prop where
  val : f.val = some vals
  len : f.len = some vals.length
  inside : ∀ v ∈ vals, low ≤ v ∧ v ≤ high
  count : match f.type with
    | .error => False
    | .wildcard => vals.length = 0
    | .number => vals.length = 1
    | .repeated => vals.length = 1
    | .range => vals.length = 2
    | .list => 2 ≤ vals.length

section Fields
variable {text : Text} {low high : ℤ} {f : Field}

theorem stored_of_accept (h : Crontab.parsefield text low high = .accept f) :
    Stored low high (image f) f.vals := by
  have hinside := (parsefield_accept_inv h).1
  cases parsefield_shape h with
  | wildcard => exact ⟨rfl, rfl, hinside, rfl⟩
  | repeated => exact ⟨rfl, rfl, hinside, rfl⟩
  | number => exact ⟨rfl, rfl, hinside, rfl⟩
  | range => exact ⟨rfl, rfl, hinside, rfl⟩
  | list hns hlen => exact ⟨rfl, rfl, hinside, by rw [hns.length_eq] at hlen; exact hlen⟩

theorem valueAt_image {block : List ℤ} {type : FieldType} {i : ℕ} (h : i < block.length) :
    valueAt ⟨type, some block, some block.length⟩ i = .ok block[i] := by
  simp [valueAt, h]

theorem listMatch_image {block : List ℤ} {type : FieldType} (tm : ℤ) {left j : ℕ}
    (h : j + left = block.length) :
    listMatch ⟨type, some block, some block.length⟩ tm left j =
      .ok (decide (tm ∈ block.drop j)) := by
  induction left generalizing j with
  | zero => simp [listMatch, List.drop_eq_nil_of_le (show block.length ≤ j by omega)]
  | succ left ih =>
      have hj : j < block.length := by omega
      rw [listMatch, valueAt_image hj, ok_bind, ih (by omega), List.drop_eq_getElem_cons hj]
      by_cases heq : block[j] = tm
      · rw [if_pos heq, heq]
        simp only [List.mem_cons, true_or, decide_true]
        rfl
      · simp only [if_neg heq, List.mem_cons, Ne.symm heq, false_or]

/-- On an accepted field, a turn of the loop meets no fault and does what `continues` says. -/
theorem goesOn_image (h : Crontab.parsefield text low high = .accept f) (tm len : ℤ) :
    goesOn (image f) tm len = .ok (f.continues tm len) := by
  cases parsefield_shape h with
  | wildcard => rfl
  | @repeated s n hn hzero =>
      have hrem : ∀ a, remainder a n = .ok (a.tmod n) := fun a => if_neg hzero
      change (if tm > 0 then remainder tm n >>= fun r => pure (decide (r = 0))
        else remainder len n >>= fun r => pure (decide (r = 0)) : Except Fault Bool) = _
      rw [hrem, hrem, Field.continues]
      split_ifs <;> rfl
  | number => rfl
  | @range s t a b =>
      change (if a ≤ tm then pure (decide (b ≥ tm)) else pure false : Except Fault Bool) = _
      rw [Field.continues]
      by_cases ha : a ≤ tm
      · simp only [ha, if_true, true_and]
        rfl
      · simp only [ha, if_false, false_and, decide_false]
        rfl
  | list => exact listMatch_image tm (Nat.zero_add _)

end Fields

theorem matchRows_image {rows : List (Field × ℤ × ℤ)}
    (h : ∀ row ∈ rows, ∃ text low high, Crontab.parsefield text low high = .accept row.1) :
    matchRows (rows.map fun row => (image row.1, row.2)) =
      .ok (if rows.all fun row => row.1.continues row.2.1 row.2.2 then 1 else 0) := by
  induction rows with
  | nil => rfl
  | cons row rows ih =>
      obtain ⟨⟨text, low, high, hrow⟩, hrows⟩ := List.forall_mem_cons.mp h
      rw [List.map_cons, matchRows, goesOn_image hrow, ok_bind, ih hrows, List.all_cons]
      cases hcont : row.1.continues row.2.1 row.2.2 with
      | true => rw [Bool.true_and, if_pos rfl]
      | false => rfl

def rows (e : CtabEntry) (tm : BrokenDown) : List (Field × ℤ × ℤ) :=
  [(e.sec, tm.sec, 60), (e.min, tm.min, 60), (e.hour, tm.hour, 24),
    (e.mday, tm.mday, Crontab.daysinmon tm.mon.toNat tm.year), (e.mon, tm.mon, 12),
    (e.wday, tm.wday, 7)]

theorem matchentry_run {c : Columns} {e : CtabEntry} (h : Accepted c e) {tm : BrokenDown}
    (hmon : 0 ≤ tm.mon ∧ tm.mon < 12) : matchentry (entryMem e) tm =
      .ok (if (rows e tm).all fun row => row.1.continues row.2.1 row.2.2 then 1 else 0) := by
  have hrows : ∀ row ∈ rows e tm, ∃ text low high,
      Crontab.parsefield text low high = .accept row.1 := by
    simp only [rows, List.forall_mem_cons, List.not_mem_nil, false_implies, implies_true,
      and_true]
    exact ⟨⟨_, _, _, h.sec⟩, ⟨_, _, _, h.min⟩, ⟨_, _, _, h.hour⟩, ⟨_, _, _, h.mday⟩,
      ⟨_, _, _, h.mon⟩, ⟨_, _, _, h.wday⟩⟩
  rw [← matchRows_image hrows, matchentry, daysinmon, if_pos hmon]
  rfl

/-- A time as `localtime` fills it. -/
def ofTm (tm : Tm) : BrokenDown := ⟨tm.sec, tm.min, tm.hour, tm.mday, tm.mon, tm.wday, tm.year⟩

/-- On such times the run returns what `Crontab.matchentry` says. -/
theorem matchentry_ofTm {c : Columns} {e : CtabEntry} (h : Accepted c e) (tm : Tm) :
    matchentry (entryMem e) (ofTm tm) = .ok (Crontab.matchentry e tm) := by
  have hmon : 0 ≤ (ofTm tm).mon ∧ (ofTm tm).mon < 12 :=
    ⟨Int.natCast_nonneg _, Int.ofNat_lt.mpr tm.mon_lt⟩
  have hcast : ∀ b : Bool, (if b then 1 else 0 : ℤ) = (if b then 1 else 0 : ℕ) := by decide
  rw [matchentry_run h hmon, hcast]
  rfl

/-- The memory that the six calls of `parsefield` leave for the columns of a line. -/
structure Leaves (c : Columns) (m : EntryMem) : Prop where
  sec : ∀ junk type, (parsefield junk c.sec 0 59).run (unset type) = .ok (0, m.sec)
  min : ∀ junk type, (parsefield junk c.min 0 59).run (unset type) = .ok (0, m.min)
  hour : ∀ junk type, (parsefield junk c.hour 0 23).run (unset type) = .ok (0, m.hour)
  mday : ∀ junk type, (parsefield junk c.mday 1 31).run (unset type) = .ok (0, m.mday)
  mon : ∀ junk type, (parsefield junk c.mon 1 12).run (unset type) = .ok (0, m.mon)
  wday : ∀ junk type, (parsefield junk c.wday 0 6).run (unset type) = .ok (0, m.wday)

theorem leaves_entryMem {c : Columns} {e : CtabEntry} (h : Accepted c e) :
    Leaves c (entryMem e) := by
  have hrun : ∀ {text : Text} {low high : ℤ} {f : Field},
      Crontab.parsefield text low high = .accept f → ∀ junk type,
        (parsefield junk text low high).run (unset type) = .ok (0, image f) := by
    intro text low high f hf junk type
    have hagrees := parsefield_agrees junk text low high type
    rw [hf] at hagrees
    exact hagrees
  exact ⟨hrun h.sec, hrun h.min, hrun h.hour, hrun h.mday, hrun h.mon, hrun h.wday⟩

/-- For every entry of a loaded table, in the memory that its columns were parsed to, matching
returns for every time with a month of the year, it returns the same as the match of the entry on
times as `localtime` fills them, and each field is stored as its type demands. -/
theorem matchentry_total {config : Config} {l : Loaded} (h : loadentries config = some l)
    {e : CtabEntry} (he : e ∈ l.entries) {tm : BrokenDown} (hmon : 0 ≤ tm.mon ∧ tm.mon < 12) :
    (∃ c, Leaves c (entryMem e)) ∧ (∃ r, matchentry (entryMem e) tm = .ok r) ∧
      (∀ t, matchentry (entryMem e) (ofTm t) = .ok (Crontab.matchentry e t)) ∧
      Stored 0 59 (entryMem e).sec e.sec.vals ∧ Stored 0 59 (entryMem e).min e.min.vals ∧
      Stored 0 23 (entryMem e).hour e.hour.vals ∧ Stored 1 31 (entryMem e).mday e.mday.vals ∧
      Stored 1 12 (entryMem e).mon e.mon.vals ∧ Stored 0 6 (entryMem e).wday e.wday.vals := by
  obtain ⟨c, hc⟩ := loadentries_accepted h e he
  exact ⟨⟨c, leaves_entryMem hc⟩, ⟨_, matchentry_run hc hmon⟩, matchentry_ofTm hc,
    stored_of_accept hc.sec, stored_of_accept hc.min, stored_of_accept hc.hour,
    stored_of_accept hc.mday, stored_of_accept hc.mon, stored_of_accept hc.wday⟩

/-- A line with a field of every type, and a time that no calendar has. -/
theorem matchentry_total_all_types :
    loadentries ⟨[], .ok ["0 0-5 1,2 */2 * * date\n".toList]⟩ =
        some ⟨[⟨.number 0, .range 0 5, .list [1, 2], .repeated 2, .wildcard, .wildcard,
          "date".toList⟩], 0, []⟩ ∧
      ∃ r, matchentry (entryMem ⟨.number 0, .range 0 5, .list [1, 2], .repeated 2, .wildcard,
        .wildcard, "date".toList⟩) ⟨0, 3, -7, -1, 11, 99, 3000⟩ = .ok r := by
  have hload : loadentries ⟨[], .ok ["0 0-5 1,2 */2 * * date\n".toList]⟩ =
      some ⟨[⟨.number 0, .range 0 5, .list [1, 2], .repeated 2, .wildcard, .wildcard,
        "date".toList⟩], 0, []⟩ := by
    decide
  exact ⟨hload, (matchentry_total hload List.mem_cons_self ⟨by decide, by decide⟩).2.1⟩

end Dowse.CrontabMemory
