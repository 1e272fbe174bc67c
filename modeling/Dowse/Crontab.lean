import Dowse.Strtol

/-!
# The crontab of seccrond

A line has six columns of times, from seconds to weekdays, and a command. Each
column is parsed by `parsefield` with the limits of its kind and later compared
with a broken-down time by `matchentry`. A bad line discards the whole table.

Two inputs make the parser touch memory it does not own: a column with a star that is
neither `*` nor starts with `*/` leaves the field unset and then frees it, and
a list with a sign or a blank before its last comma is written past its array. Both
are the outcome `fault`.
-/
namespace Dowse.Crontab
open CStrings Strtol

/-- `struct field`: the type with the values that `val` and `len` hold for it. -/
inductive Field
  | error
  | wildcard
  | number (n : ℤ)
  | range (a b : ℤ)
  | repeated (n : ℤ)
  | list (vals : List ℤ)
  deriving DecidableEq, Repr

def Field.vals : Field → List ℤ
  | .error => []
  | .wildcard => []
  | .number n => [n]
  | .range a b => [a, b]
  | .repeated n => [n]
  | .list vals => vals

inductive Parsed
  | accept (f : Field)
  | reject
  | fault
  deriving DecidableEq, Repr

def withinLimits (low high : ℤ) (f : Field) : Parsed :=
  if f.vals.all fun v => low ≤ v ∧ v ≤ high then .accept f else .reject

/-- The elements behind the first one of a list, written into an array of `len`;
`none` is a write past its end. -/
def readList (len : ℕ) : ℕ → Text → Bool → List ℤ → Option (List ℤ × Text × Bool)
  | fuel + 1, ',' :: e1, false, vals =>
      if vals.length < len then
        let c := strtol e1
        readList len fuel c.rest c.erange (vals ++ [c.value])
      else none
  | _, e1, errno, vals => some (vals, e1, errno)

/-- The array for a list has room for one more than the commas in the first run of
digits and commas. -/
def listLength (p : Text) : ℕ :=
  1 + (p.takeWhile fun c => c.isDigit || c = ',').count ','

def parsefield (field : Text) (low high : ℤ) : Parsed :=
  match field.dropWhile Char.isDigit with
  | '*' :: _ =>
      if field = ['*'] then .accept .wildcard
      else if field.take 2 = ['*', '/'] then
        let c := strtol (field.drop 2)
        if c.rest ≠ [] ∨ c.erange ∨ c.value = 0 then .reject
        else withinLimits low high (.repeated c.value)
      else .fault
  | [] =>
      let c := strtol field
      if c.rest ≠ [] ∨ c.erange then .reject else withinLimits low high (.number c.value)
  | '-' :: _ =>
      let c := strtol field
      match c.rest, c.erange with
      | '-' :: e1, false =>
          let d := strtol e1
          if d.rest ≠ [] ∨ d.erange then .reject
          else withinLimits low high (.range c.value d.value)
      | _, _ => .reject
  | ',' :: p =>
      let c := strtol field
      if c.value < low ∨ c.value > high then .reject
      else
        match readList (listLength (',' :: p)) field.length c.rest c.erange [c.value] with
        | none => .fault
        | some (vals, e1, errno) =>
            if e1 ≠ [] ∨ errno then .reject else withinLimits low high (.list vals)
  | _ => .reject

structure CtabEntry where
  sec : Field
  min : Field
  hour : Field
  mday : Field
  mon : Field
  wday : Field
  cmd : Text
  deriving DecidableEq, Repr

/-- `struct tm` as `localtime` fills it. Months count from zero, and years from 1900. -/
structure Tm where
  sec : ℕ
  min : ℕ
  hour : ℕ
  mday : ℕ
  mon : ℕ
  wday : ℕ
  year : ℤ
  sec_lt : sec < 60
  min_lt : min < 60
  hour_lt : hour < 24
  mday_pos : 0 < mday
  mday_le : mday ≤ 31
  mon_lt : mon < 12
  wday_lt : wday < 7
  deriving DecidableEq, Repr

/-- New Year 2026, a Thursday. -/
def newYear : Tm :=
  ⟨0, 0, 0, 1, 0, 4, 126, by decide, by decide, by decide, by decide, by decide, by decide,
    by decide⟩

def isleap (year : ℤ) : Bool :=
  if year.tmod 400 = 0 then true
  else if year.tmod 100 = 0 then false
  else year.tmod 4 = 0

def daysinmon (mon : ℕ) (year : ℤ) : ℕ :=
  let year := if year < 1900 then year + 1900 else year
  let february := if isleap year then 29 else 28
  [31, february, 31, 30, 31, 30, 31, 31, 30, 31, 30, 31].getD mon 0

/-- One turn of the loop of `matchentry`: whether it goes on to the next column. -/
def Field.continues (f : Field) (tm len : ℤ) : Bool :=
  match f with
  | .wildcard => true
  | .number n => n = tm
  | .range a b => a ≤ tm ∧ tm ≤ b
  | .repeated n => if tm > 0 then tm.tmod n = 0 else len.tmod n = 0
  | .list vals => tm ∈ vals
  | .error => false

def matchtbl (cte : CtabEntry) (tm : Tm) : List (Field × ℕ × ℕ) :=
  [(cte.sec, tm.sec, 60), (cte.min, tm.min, 60), (cte.hour, tm.hour, 24),
   (cte.mday, tm.mday, daysinmon tm.mon tm.year), (cte.mon, tm.mon, 12), (cte.wday, tm.wday, 7)]

def matchentry (cte : CtabEntry) (tm : Tm) : ℕ :=
  if (matchtbl cte tm).all fun (f, value, len) => f.continues value len then 1 else 0

/-- A row of `flim`: the name that errors print, and the limits. -/
structure FieldLimits where
  name : Text
  min : ℤ
  max : ℤ
  deriving DecidableEq, Repr

def flim : List FieldLimits :=
  [⟨"sec".toList, 0, 59⟩, ⟨"min".toList, 0, 59⟩, ⟨"hour".toList, 0, 23⟩,
   ⟨"mday".toList, 1, 31⟩, ⟨"mon".toList, 1, 12⟩, ⟨"wday".toList, 0, 6⟩]

/-- The token up to the next delimiter, and the pointer behind it. -/
def strsep (delims : Text) : Option Text → Option Text × Option Text
  | none => (none, none)
  | some s =>
      let token := s.takeWhile (· ∉ delims)
      match s.dropWhile (· ∉ delims) with
      | [] => (some token, none)
      | _ :: rest => (some token, some rest)

/-- The next column that is not empty. -/
def nextColumn : ℕ → Option Text → Option Text × Option Text
  | 0, p => (none, p)
  | fuel + 1, p =>
      match strsep ['\t', '\n', ' '] p with
      | (some [], p') => nextColumn fuel p'
      | r => r

def parseError (name : Text) (line : ℕ) : Text :=
  "error: failed to parse ".toList ++ ['\x60'] ++ name ++ "' field on line ".toList ++
    (Nat.toDigits 10 line) ++ ['\n']

def missingError (line : ℕ) : Text :=
  "error: missing ".toList ++ ['\x60'] ++ "cmd' field on line ".toList ++
    (Nat.toDigits 10 line) ++ ['\n']

/-- What a line is worth: an entry, a message for the log, or a fault of the parser. -/
inductive Line (α : Type)
  | entry (a : α)
  | failed (message : Text)
  | fault
  deriving DecidableEq, Repr

/-- The columns of one line, in the order of the limits. -/
def parseColumns (line : ℕ) : List FieldLimits → Option Text → Line (List Field × Option Text)
  | [], p => .entry ([], p)
  | l :: ls, p =>
      match nextColumn ((p.getD []).length + 1) p with
      | (none, _) => .failed (parseError l.name line)
      | (some col, p') =>
          match parsefield col l.min l.max with
          | .reject => .failed (parseError l.name line)
          | .fault => .fault
          | .accept f =>
              match parseColumns line ls p' with
              | .entry (fs, rest) => .entry (f :: fs, rest)
              | .failed message => .failed message
              | .fault => .fault

def parseLine (line : ℕ) (text : Text) : Line CtabEntry :=
  match parseColumns line flim (some text) with
  | .failed message => .failed message
  | .fault => .fault
  | .entry (fields, p) =>
      match fields, (strsep ['\n'] p).1.map (·.dropWhile fun c => c = '\t' ∨ c = ' ') with
      | [sec, min, hour, mday, mon, wday], some (c :: cmd) =>
          .entry ⟨sec, min, hour, mday, mon, wday, c :: cmd⟩
      | _, _ => .failed (missingError line)

/-- The lines from number `y` on, in front of the entries read so far. -/
def readLines : ℕ → List Text → List CtabEntry → Line (List CtabEntry)
  | _, [], entries => .entry entries
  | y, text :: lines, entries =>
      match text with
      | [] => readLines (y + 1) lines entries
      | '#' :: _ => readLines (y + 1) lines entries
      | '\n' :: _ => readLines (y + 1) lines entries
      | _ =>
          match parseLine (y + 1) text with
          | .entry e => readLines (y + 1) lines (entries ++ [e])
          | .failed message => .failed message
          | .fault => .fault

/-- The file that `config` names: its lines, or the reason why it cannot be opened. -/
structure Config where
  path : Text
  lines : Except Text (List Text)

/-- The table, the result and the messages of `loadentries`. -/
structure Loaded where
  entries : List CtabEntry
  result : ℤ
  log : List Text
  deriving DecidableEq, Repr

/-- Loads into an empty table; `none` is a fault of the parser. -/
def loadentries (config : Config) : Option Loaded :=
  match config.lines with
  | .error reason =>
      some ⟨[], -1, ["error: can't open ".toList ++ config.path ++ ": ".toList ++ reason ++ ['\n']]⟩
  | .ok lines =>
      match readLines 0 lines [] with
      | .entry entries => some ⟨entries, 0, []⟩
      | .failed message => some ⟨[], -1, [message]⟩
      | .fault => none

def reloadentries (config : Config) : Option Loaded :=
  (loadentries config).map fun l =>
    if l.result < 0 then
      { l with log := l.log ++ ["warning: discarding old crontab entries\n".toList] }
    else l

end Dowse.Crontab
