import Dowse.CrontabFaults

/-!
# Loading a crontab from a file

The file is read line by line with `getline`, which keeps the newline and does not stop at a NUL.
Everything after that works on C strings. A line is cut at tabs, blanks and its newline; six
columns are parsed in order, and what is left is the command.

Loading is all or nothing for every file on which it returns in a defined way. It does not where
a column that is reached makes `parsefield` misuse memory, and the command is not the rest of
the line where the line has a NUL in it.
-/
namespace Dowse.CrontabFile
open CStrings Strtol Crontab CrontabMemory

/-- The lines that `getline` returns one after the other, each with its newline. -/
def getlines : Text → List Text
  | [] => []
  | c :: fp =>
      if c = '\n' then [c] :: getlines fp
      else
        match getlines fp with
        | [] => [[c]]
        | line :: lines => (c :: line) :: lines

example : getlines "a b\n\nc".toList = ["a b\n".toList, "\n".toList, "c".toList] := by decide

/-- The file as `loadentries` gets to see it. -/
def configOf (path content : Text) : Config := ⟨path, .ok ((getlines content).map cstr)⟩

abbrev delims : Text := ['\t', '\n', ' ']

def column (s : Text) : Text := (s.dropWhile (· ∈ delims)).takeWhile (· ∉ delims)

/-- What is left behind the column, from the delimiter on. -/
def behind (s : Text) : Text := (s.dropWhile (· ∈ delims)).dropWhile (· ∉ delims)

/-- The rest of a line without the newline and without leading blanks. -/
def command (rest : Text) : Text :=
  (rest.takeWhile (· ≠ '\n')).dropWhile fun c => c = '\t' ∨ c = ' '

/-- The columns of a text are parsed to these fields, with this rest behind them. -/
inductive Reads : List FieldLimits → Text → List Field → Text → Prop
  | done (s : Text) : Reads [] s [] s
  | column {l : FieldLimits} {ls : List FieldLimits} {s rest : Text} {f : Field} {fs : List Field} :
      column s ≠ [] → parsefield (column s) l.min l.max = .accept f → Reads ls (behind s) fs rest →
      Reads (l :: ls) s (f :: fs) rest

/-- Behind columns that are accepted comes one that makes the parser misuse memory. -/
inductive Misuses : List FieldLimits → Text → Prop
  | here {l : FieldLimits} {s : Text} (ls : List FieldLimits) :
      StrayStar (column s) ∨ Overrun l.min l.max (column s) → Misuses (l :: ls) s
  | later {l : FieldLimits} {ls : List FieldLimits} {s : Text} {f : Field} : column s ≠ [] →
      parsefield (column s) l.min l.max = .accept f → Misuses ls (behind s) → Misuses (l :: ls) s

def CtabEntry.fields (e : CtabEntry) : List Field :=
  [e.sec, e.min, e.hour, e.mday, e.mon, e.wday]

/-- The entry is what the line says: its six columns and the rest as the command. -/
def Holds (line : Text) (e : CtabEntry) : Prop :=
  ∃ rest, Reads flim line (CtabEntry.fields e) rest ∧ e.cmd = command rest

/-- The C string is read as this entry, and has a command. -/
def Loads (text : Text) (e : CtabEntry) : Prop :=
  ∃ rest, Reads flim text (CtabEntry.fields e) rest ∧ e.cmd = command rest ∧ command rest ≠ []

/-- A line that does not start with a number sign, a newline or a NUL. -/
def counts (line : Text) : Bool :=
  match line with
  | [] => false
  | c :: _ => c ≠ '#' ∧ c ≠ '\n' ∧ c ≠ '\x00'

def entryLines (content : Text) : List Text := (getlines content).filter counts

/-- The line is reached: all lines before it are read as entries. -/
def Reached (lines : List Text) (line : Text) : Prop :=
  ∃ before after, lines = before ++ line :: after ∧ ∀ b ∈ before, ∃ e, Loads (cstr b) e

/-- The newline of a text is its last character. -/
def NewlineLast (text : Text) : Prop := ∀ pre post, text = pre ++ '\n' :: post → post = []

section Lines

theorem newlineLast_of_mem {content line : Text} (h : line ∈ getlines content) :
    NewlineLast line := by
  induction content generalizing line with
  | nil => cases h
  | cons c fp ih =>
      rw [getlines] at h
      split_ifs at h with hc
      · rcases List.mem_cons.mp h with rfl | hmem
        · intro pre post heq
          have hlen := congrArg List.length heq
          simp only [List.length_append, List.length_cons, List.length_nil] at hlen
          exact List.length_eq_zero_iff.mp (by omega)
        · exact ih hmem
      · have hcons : ∀ {line : Text}, NewlineLast line → NewlineLast (c :: line) := by
          intro line hline pre post heq
          cases pre with
          | nil => exact absurd (List.cons.inj heq).1 hc
          | cons d pre => exact hline pre post (List.cons.inj heq).2
        split at h
        · obtain rfl := List.mem_singleton.mp h
          exact hcons fun pre post heq => by simp at heq
        · rename_i first lines hlines
          rcases List.mem_cons.mp h with rfl | hmem
          · exact hcons (ih (hlines ▸ List.mem_cons_self))
          · exact ih (hlines ▸ List.mem_cons_of_mem _ hmem)

theorem NewlineLast.part {text part : Text} (h : NewlineLast text) (hpart : part <:+: text) :
    NewlineLast part := by
  obtain ⟨a, b, rfl⟩ := hpart
  rintro pre post rfl
  have hpost := h (a ++ pre) (post ++ b) (by simp)
  exact (List.append_eq_nil_iff.mp hpost).1

theorem NewlineLast.cstr {line : Text} (h : NewlineLast line) : NewlineLast (cstr line) :=
  h.part ⟨[], _, List.takeWhile_append_dropWhile⟩

end Lines

section Columns

/-- The pointer that `strsep` leaves: behind the delimiter, or null at the end. -/
def pointer : Text → Option Text
  | [] => none
  | _ :: rest => some rest

/-- The text is at its end or at a delimiter. -/
def AtDelim (s : Text) : Prop := ∀ c ∈ s.head?, c ∈ delims

theorem atDelim_behind (s : Text) : AtDelim (behind s) := by
  intro c hc
  have := List.head?_dropWhile_not (fun c : Char => decide (c ∉ delims)) (s.dropWhile (· ∈ delims))
  rw [← behind, Option.mem_def.mp hc] at this
  exact not_not.mp (of_decide_eq_false this)

theorem column_cons {c : Char} (hc : c ∈ delims) (s : Text) : column (c :: s) = column s := by
  rw [column, List.dropWhile_cons, if_pos (by simpa using hc), column]

theorem behind_cons {c : Char} (hc : c ∈ delims) (s : Text) : behind (c :: s) = behind s := by
  rw [behind, List.dropWhile_cons, if_pos (by simpa using hc), behind]

theorem strsep_some (ds s : Text) :
    strsep ds (some s) = (some (s.takeWhile (· ∉ ds)), pointer (s.dropWhile (· ∉ ds))) := by
  simp only [strsep]
  cases s.dropWhile (· ∉ ds) <;> rfl

theorem nextColumn_some (s : Text) : nextColumn (s.length + 1) (some s) =
    if column s = [] then (none, none) else (some (column s), pointer (behind s)) := by
  induction s with
  | nil => rfl
  | cons c s ih =>
      rw [nextColumn, strsep_some]
      by_cases hc : c ∈ delims
      · have hstop : ¬ decide (c ∉ delims) = true := fun h => of_decide_eq_true h hc
        rw [column_cons hc, behind_cons hc, List.takeWhile_cons, List.dropWhile_cons,
          if_neg hstop, if_neg hstop]
        exact ih
      · have hskip : (c :: s).dropWhile (· ∈ delims) = c :: s := by
          rw [List.dropWhile_cons, if_neg (by simpa using hc)]
        have htoken : (c :: s).takeWhile (· ∉ delims) = c :: s.takeWhile (· ∉ delims) := by
          rw [List.takeWhile_cons, if_pos (by simpa using hc)]
        rw [column, behind, hskip, htoken, if_neg (by simp)]

theorem nextColumn_pointer {s : Text} (h : AtDelim s) :
    nextColumn (((pointer s).getD []).length + 1) (pointer s) =
      if column s = [] then (none, none) else (some (column s), pointer (behind s)) := by
  cases s with
  | nil => rfl
  | cons c s =>
      have hc : c ∈ delims := h c rfl
      rw [column_cons hc, behind_cons hc]
      exact nextColumn_some s

variable {y : ℕ} {ls : List FieldLimits} {s : Text}

theorem Reads.unique {fs fs' : List Field} {rest rest' : Text} (h : Reads ls s fs rest)
    (h' : Reads ls s fs' rest') : fs = fs' ∧ rest = rest' := by
  induction h generalizing fs' rest' with
  | done s =>
      cases h'
      exact ⟨rfl, rfl⟩
  | column _ hf _ ih =>
      cases h' with
      | column _ hf' htail =>
          obtain ⟨rfl, rfl⟩ := ih htail
          rw [hf] at hf'
          exact ⟨by rw [Parsed.accept.inj hf'], rfl⟩

theorem Reads.not_misuses {fs : List Field} {rest : Text} (h : Reads ls s fs rest) :
    ¬ Misuses ls s := by
  induction h with
  | done s => nofun
  | column _ hf _ ih =>
      intro hmisuses
      cases hmisuses with
      | here _ hbad => cases hf.symm.trans ((parsefield_fault_iff _ _ _).mpr hbad)
      | later _ _ hlater => exact ih hlater

/-- The columns are read, or one of them is not accepted, or one misuses memory. -/
theorem parseColumns_spec (hs : AtDelim s) :
    match parseColumns y ls (pointer s) with
    | .entry (fs, p) => ∃ rest, Reads ls s fs rest ∧ p = pointer rest ∧ AtDelim rest
    | .failed _ => (∀ fs rest, ¬ Reads ls s fs rest) ∧ ¬ Misuses ls s
    | .fault => Misuses ls s := by
  induction ls generalizing s with
  | nil => exact ⟨s, .done s, rfl, hs⟩
  | cons l ls ih =>
      simp only [parseColumns, nextColumn_pointer hs]
      by_cases hcol : column s = []
      · rw [if_pos hcol]
        refine ⟨fun fs rest h => ?_, fun h => ?_⟩
        · cases h with
          | column hne => exact hne hcol
        · cases h with
          | here _ hbad =>
              have hfault := (parsefield_fault_iff _ _ _).mpr hbad
              rw [hcol] at hfault
              exact withinLimits_ne_fault (.number 0) hfault
          | later hne => exact hne hcol
      · rw [if_neg hcol]
        have hfault := parsefield_fault_iff (column s) l.min l.max
        dsimp only
        cases hf : parsefield (column s) l.min l.max with
        | reject =>
            rw [hf] at hfault
            refine ⟨fun fs rest h => ?_, fun h => ?_⟩
            · cases h with
              | column _ hf' => cases hf.symm.trans hf'
            · cases h with
              | here _ hbad => cases hfault.mpr hbad
              | later _ hf' => cases hf.symm.trans hf'
        | fault =>
            rw [hf] at hfault
            exact .here ls (hfault.mp rfl)
        | accept f =>
            rw [hf] at hfault
            have hrest := ih (atDelim_behind s)
            dsimp only
            cases hparse : parseColumns y ls (pointer (behind s)) with
            | entry r =>
                obtain ⟨fs, p⟩ := r
                rw [hparse] at hrest
                obtain ⟨rest, hreads, hp, hdelim⟩ := hrest
                exact ⟨rest, .column hcol hf hreads, hp, hdelim⟩
            | failed message =>
                rw [hparse] at hrest
                refine ⟨fun fs rest h => ?_, fun h => ?_⟩
                · cases h with
                  | column _ _ htail => exact hrest.1 _ _ htail
                · cases h with
                  | here _ hbad => cases hfault.mpr hbad
                  | later _ _ hlater => exact hrest.2 hlater
            | fault =>
                rw [hparse] at hrest
                exact .later hcol hf hrest

theorem reads_cons {l : FieldLimits} {c : Char} (hc : c ∈ delims) {fs : List Field}
    {rest : Text} : Reads (l :: ls) (c :: s) fs rest ↔ Reads (l :: ls) s fs rest := by
  constructor
  · intro h
    cases h with
    | column hne hf htail =>
        rw [column_cons hc] at hne hf
        rw [behind_cons hc] at htail
        exact .column hne hf htail
  · intro h
    cases h with
    | column hne hf htail =>
        rw [← column_cons hc] at hne hf
        rw [← behind_cons hc] at htail
        exact .column hne hf htail

theorem misuses_cons {l : FieldLimits} {c : Char} (hc : c ∈ delims) :
    Misuses (l :: ls) (c :: s) ↔ Misuses (l :: ls) s := by
  constructor
  · intro h
    cases h with
    | here _ hbad =>
        rw [column_cons hc] at hbad
        exact .here ls hbad
    | later hne hf hlater =>
        rw [column_cons hc] at hne hf
        rw [behind_cons hc] at hlater
        exact .later hne hf hlater
  · intro h
    cases h with
    | here _ hbad =>
        rw [← column_cons hc] at hbad
        exact .here ls hbad
    | later hne hf hlater =>
        rw [← column_cons hc] at hne hf
        rw [← behind_cons hc] at hlater
        exact .later hne hf hlater

theorem Reads.suffix {fs : List Field} {rest : Text} (h : Reads ls s fs rest) : rest <:+ s := by
  induction h with
  | done s => exact List.suffix_refl s
  | column _ _ _ ih =>
      exact ih.trans ((List.dropWhile_suffix _).trans (List.dropWhile_suffix _))

theorem Reads.length_eq {fs : List Field} {rest : Text} (h : Reads ls s fs rest) :
    fs.length = ls.length := by
  induction h with
  | done s => rfl
  | column _ _ _ ih => rw [List.length_cons, List.length_cons, ih]

end Columns

section Entries
variable {text : Text} {e : CtabEntry}

/-- What the code takes for the command. -/
theorem strsep_command {rest : Text} (hdelim : AtDelim rest) (hlast : NewlineLast rest) :
    ((strsep ['\n'] (pointer rest)).1.map
      (·.dropWhile fun c => c = '\t' ∨ c = ' ')).getD [] = command rest := by
  cases rest with
  | nil => rfl
  | cons d r =>
      have hd : d ∈ delims := hdelim d rfl
      have hnewline : (r.takeWhile (· ∉ ['\n'])) = r.takeWhile (· ≠ '\n') := by simp
      rw [pointer, strsep_some, command, List.takeWhile_cons]
      by_cases hn : d = '\n'
      · obtain rfl : r = [] := hlast [] r (by rw [hn]; rfl)
        subst hn
        rfl
      · have hblank : d = '\t' ∨ d = ' ' := by
          simp only [delims, List.mem_cons, List.not_mem_nil, or_false] at hd
          tauto
        rw [if_pos (by simpa using hn), List.dropWhile_cons, if_pos (by simpa using hblank),
          ← hnewline]
        rfl

theorem exists_six_of_length {α : Type*} {l : List α} (h : l.length = 6) :
    ∃ a b c d e f, l = [a, b, c, d, e, f] := by
  obtain ⟨a, b, c, hfront⟩ := List.length_eq_three.mp (show (l.take 3).length = 3 by simp [h])
  obtain ⟨d, e, f, hback⟩ := List.length_eq_three.mp (show (l.drop 3).length = 3 by simp [h])
  exact ⟨a, b, c, d, e, f, by rw [← List.take_append_drop 3 l, hfront, hback]; rfl⟩

/-- A line is read as an entry, or its columns or its command are not there, or memory is
misused. -/
theorem parseLine_spec (y : ℕ) (hlast : NewlineLast text) :
    match parseLine y text with
    | .entry e => Loads text e
    | .failed _ => (∀ e, ¬ Loads text e) ∧ ¬ Misuses flim text
    | .fault => Misuses flim text := by
  have hreads : ∀ {fs rest}, Reads flim ('\n' :: text) fs rest ↔ Reads flim text fs rest :=
    reads_cons (by decide)
  have hmisuses : Misuses flim ('\n' :: text) ↔ Misuses flim text := misuses_cons (by decide)
  have hdelim : AtDelim ('\n' :: text) := by
    intro c hc
    obtain rfl := Option.some.inj hc
    decide
  have hcolumns := @parseColumns_spec y flim _ hdelim
  rw [show pointer ('\n' :: text) = some text from rfl] at hcolumns
  simp only [parseLine]
  cases hparse : parseColumns y flim (some text) with
  | failed message =>
      rw [hparse] at hcolumns
      refine ⟨fun e he => ?_, fun h => hcolumns.2 (hmisuses.mpr h)⟩
      obtain ⟨rest, h, -⟩ := he
      exact hcolumns.1 _ _ (hreads.mpr h)
  | fault =>
      rw [hparse] at hcolumns
      exact hmisuses.mp hcolumns
  | entry r =>
      obtain ⟨fs, p⟩ := r
      rw [hparse] at hcolumns
      obtain ⟨rest, h, rfl, hrest⟩ := hcolumns
      replace h := hreads.mp h
      have hcommand := strsep_command hrest (hlast.part h.suffix.isInfix)
      obtain ⟨sec, min, hour, mday, mon, wday, rfl⟩ := exists_six_of_length h.length_eq
      dsimp only
      generalize (strsep ['\n'] (pointer rest)).1.map _ = cmd at hcommand ⊢
      have hmissing : command rest = [] →
          (∀ e, ¬ Loads text e) ∧ ¬ Misuses flim text := by
        refine fun hnil => ⟨fun e he => ?_, h.not_misuses⟩
        obtain ⟨rest', h', -, hne⟩ := he
        obtain ⟨-, rfl⟩ := h.unique h'
        exact hne hnil
      rcases cmd with _ | _ | ⟨c, cmd⟩
      · exact hmissing hcommand.symm
      · exact hmissing hcommand.symm
      · exact ⟨rest, h, hcommand, by rw [← hcommand]; simp⟩

theorem Loads.not_misuses (h : Loads text e) : ¬ Misuses flim text := by
  obtain ⟨rest, hreads, -⟩ := h
  exact hreads.not_misuses

end Entries

section Files
variable {raws : List Text} {line : Text}

theorem cstr_cons {c : Char} (hc : c ≠ '\x00') (s : Text) : cstr (c :: s) = c :: cstr s := by
  simp [cstr, hc]

theorem readLines_skip (h : counts line = false) (y : ℕ) (lines : List Text)
    (entries : List CtabEntry) :
    readLines y (cstr line :: lines) entries = readLines (y + 1) lines entries := by
  cases line with
  | nil => rfl
  | cons c l =>
      by_cases hnul : c = '\x00'
      · have hempty : cstr (c :: l) = [] := by simp [cstr, hnul]
        rw [hempty]
        rfl
      · rw [cstr_cons hnul]
        have hc : c = '#' ∨ c = '\n' := by
          by_contra hnot
          rw [not_or] at hnot
          exact absurd h (by simp [counts, hnot, hnul])
        rcases hc with rfl | rfl <;> rfl

theorem readLines_counts (h : counts line = true) (y : ℕ) (lines : List Text)
    (entries : List CtabEntry) :
    readLines y (cstr line :: lines) entries =
      match parseLine (y + 1) (cstr line) with
      | .entry e => readLines (y + 1) lines (entries ++ [e])
      | .failed message => .failed message
      | .fault => .fault := by
  cases line with
  | nil => cases h
  | cons c l =>
      simp only [counts, decide_eq_true_eq] at h
      obtain ⟨hhash, hnewline, hnul⟩ := h
      have hnil : c :: cstr l = [] → False := nofun
      have hhash' : ∀ t, c :: cstr l = '#' :: t → False := fun _ h => hhash (List.cons.inj h).1
      have hnewline' : ∀ t, c :: cstr l = '\n' :: t → False :=
        fun _ h => hnewline (List.cons.inj h).1
      rw [cstr_cons hnul]
      cases hline : parseLine (y + 1) (c :: cstr l) with
      | entry e => rw [readLines, hline] <;> assumption
      | failed message => rw [readLines, hline] <;> assumption
      | fault => rw [readLines, hline] <;> assumption

theorem Reached.cons {lines : List Text} (h : Reached lines line) {b : Text} {e : CtabEntry}
    (hb : Loads (cstr b) e) : Reached (b :: lines) line := by
  obtain ⟨before, after, rfl, hbefore⟩ := h
  exact ⟨b :: before, after, rfl, List.forall_mem_cons.mpr ⟨⟨e, hb⟩, hbefore⟩⟩

/-- The lines are all read as entries, or the first one that is not is reached. -/
theorem readLines_spec (hlast : ∀ line ∈ raws, NewlineLast line) (y : ℕ)
    (entries : List CtabEntry) :
    match readLines y (raws.map cstr) entries with
    | .entry table => ∃ new, table = entries ++ new ∧
        List.Forall₂ (fun line e => Loads (cstr line) e) (raws.filter counts) new
    | .failed _ => ∃ line, Reached (raws.filter counts) line ∧ (∀ e, ¬ Loads (cstr line) e) ∧
        ¬ Misuses flim (cstr line)
    | .fault => ∃ line, Reached (raws.filter counts) line ∧ Misuses flim (cstr line) := by
  induction raws generalizing y entries with
  | nil => exact ⟨[], (List.append_nil _).symm, .nil⟩
  | cons line raws ih =>
      obtain ⟨hline, hraws⟩ := List.forall_mem_cons.mp hlast
      rw [List.map_cons]
      cases hcounts : counts line with
      | false =>
          rw [readLines_skip hcounts, List.filter_cons_of_neg (by simp [hcounts])]
          exact ih hraws _ _
      | true =>
          have hspec := parseLine_spec (y + 1) hline.cstr
          rw [readLines_counts hcounts, List.filter_cons_of_pos hcounts]
          cases hparse : parseLine (y + 1) (cstr line) with
          | failed message =>
              rw [hparse] at hspec
              exact ⟨line, ⟨[], _, rfl, by simp⟩, hspec⟩
          | fault =>
              rw [hparse] at hspec
              exact ⟨line, ⟨[], _, rfl, by simp⟩, hspec⟩
          | entry e =>
              rw [hparse] at hspec
              have hrest := ih hraws (y + 1) (entries ++ [e])
              dsimp only
              cases hread : readLines (y + 1) (raws.map cstr) (entries ++ [e]) with
              | entry table =>
                  rw [hread] at hrest
                  obtain ⟨new, rfl, hnew⟩ := hrest
                  exact ⟨e :: new, by simp, .cons hspec hnew⟩
              | failed message =>
                  rw [hread] at hrest
                  obtain ⟨bad, hreached, hbad⟩ := hrest
                  exact ⟨bad, hreached.cons hspec, hbad⟩
              | fault =>
                  rw [hread] at hrest
                  obtain ⟨bad, hreached, hbad⟩ := hrest
                  exact ⟨bad, hreached.cons hspec, hbad⟩

/-- Of two places in a list one is not after the other. -/
theorem mem_of_cuts {before after before' after' : List Text} {a b : Text}
    (h : before ++ a :: after = before' ++ b :: after') : b ∈ before ∨ a = b ∨ a ∈ before' := by
  rcases List.append_eq_append_iff.mp h with ⟨mid, rfl, hmid⟩ | ⟨mid, rfl, hmid⟩
  · cases mid with
    | nil => exact .inr (.inl (List.cons.inj hmid).1)
    | cons c mid =>
        obtain ⟨rfl, -⟩ := List.cons.inj hmid
        exact .inr (.inr (by simp))
  · cases mid with
    | nil => exact .inr (.inl (List.cons.inj hmid).1.symm)
    | cons c mid =>
        obtain ⟨rfl, -⟩ := List.cons.inj hmid
        exact .inl (by simp)

theorem column_append {s : Text} (h : behind s ≠ []) (u : Text) :
    column (s ++ u) = column s ∧ behind (s ++ u) = behind s ++ u := by
  have hskip : s.dropWhile (· ∈ delims) ≠ [] := by
    intro hnil
    rw [behind, hnil] at h
    exact h rfl
  have hdrop : (s ++ u).dropWhile (· ∈ delims) = s.dropWhile (· ∈ delims) ++ u := by
    rw [List.dropWhile_append, if_neg (by simpa using hskip)]
  unfold behind at h
  have hlen : ((s.dropWhile (· ∈ delims)).takeWhile (· ∉ delims)).length ≠
      (s.dropWhile (· ∈ delims)).length := by
    have hsplit := congrArg List.length (List.takeWhile_append_dropWhile (p := (· ∉ delims))
      (l := s.dropWhile (· ∈ delims)))
    have hpos := List.length_pos_iff.mpr h
    rw [List.length_append] at hsplit
    omega
  rw [column, behind, column, behind, hdrop, List.dropWhile_append, if_neg (by simpa using h),
    List.takeWhile_append, if_neg hlen]
  exact ⟨rfl, rfl⟩

/-- What stands behind a C string does not change its columns. -/
theorem Reads.append {ls : List FieldLimits} {s rest : Text} {fs : List Field}
    (h : Reads ls s fs rest) (hrest : rest ≠ []) (u : Text) :
    Reads ls (s ++ u) fs (rest ++ u) := by
  induction h with
  | done s => exact .done _
  | @column l ls s rest f fs hne hf htail ih =>
      have hbehind : behind s ≠ [] := by
        intro hnil
        have hsuffix := htail.suffix
        rw [hnil] at hsuffix
        exact hrest (List.suffix_nil.mp hsuffix)
      obtain ⟨hcolumn, hrest'⟩ := column_append hbehind u
      refine .column (by rwa [hcolumn]) (by rwa [hcolumn]) ?_
      rw [hrest']
      exact ih hrest

/-- An entry that was read from the C string holds for the line if and only if the line has no
NUL: behind one the command goes on, but the C string does not. -/
theorem Loads.holds_iff {e : CtabEntry} (hlast : NewlineLast line) (h : Loads (cstr line) e) :
    Holds line e ↔ '\x00' ∉ line := by
  obtain ⟨rest, hreads, hcmd, hne⟩ := h
  constructor
  · rintro ⟨rest', hreads', hcmd'⟩ hnul
    obtain ⟨more, hmore⟩ := cstr_append hnul
    have hrest : rest ≠ [] := by
      rintro rfl
      exact hne rfl
    have hline := hreads.append hrest ('\x00' :: more)
    rw [← hmore] at hline
    obtain ⟨-, rfl⟩ := hline.unique hreads'
    obtain ⟨pre, hpre⟩ := hreads.suffix
    have hnewline : ∀ c ∈ rest, decide (c ≠ '\n') = true := by
      intro c hc
      refine decide_eq_true ?_
      rintro rfl
      obtain ⟨a, b, rfl⟩ := List.append_of_mem hc
      have hpost := hlast (pre ++ a) (b ++ '\x00' :: more) (by rw [hmore, ← hpre]; simp)
      simp at hpost
    have hcommand : command rest = rest.dropWhile fun c => c = '\t' ∨ c = ' ' := by
      rw [command, List.takeWhile_eq_self_iff.mpr hnewline]
    have hnotin : '\x00' ∉ command rest := by
      intro hmem
      rw [hcommand] at hmem
      have hmem' : '\x00' ∈ cstr line := by
        rw [← hpre]
        exact List.mem_append_right _ ((List.dropWhile_suffix _).subset hmem)
      exact nul_notMem_cstr line hmem'
    have hin : '\x00' ∈ command (rest ++ '\x00' :: more) := by
      rw [command, List.takeWhile_append_of_pos hnewline, List.dropWhile_append,
        if_neg (by rw [← hcommand]; simpa using hne)]
      exact List.mem_append_right _ (by simp)
    rw [← hcmd', hcmd] at hin
    exact hnotin hin
  · intro hnul
    rw [cstr_eq_self hnul] at hreads
    exact ⟨rest, hreads, hcmd⟩

theorem forall₂_holds_iff {lines : List Text} {table : List CtabEntry}
    (hlast : ∀ line ∈ lines, NewlineLast line)
    (h : List.Forall₂ (fun line e => Loads (cstr line) e) lines table) :
    List.Forall₂ Holds lines table ↔ ∀ line ∈ lines, '\x00' ∉ line := by
  induction h with
  | nil => simp
  | cons hload _ ih =>
      obtain ⟨hline, hlines⟩ := List.forall_mem_cons.mp hlast
      rw [List.forall₂_cons, hload.holds_iff hline, ih hlines, List.forall_mem_cons]

end Files

/-- The call returns zero with one entry for each line that counts, or minus one with an empty
table. -/
def AllOrNothing (path content : Text) : Prop :=
  ∃ l, loadentries (configOf path content) = some l ∧
    ((l.result = 0 ∧ List.Forall₂ Holds (entryLines content) l.entries) ∨
      (l.result = -1 ∧ l.entries = []))

/-- Loading is all or nothing if and only if no line that is reached misuses memory and, where
every line is read as an entry, none has a NUL. -/
theorem loadentries_all_or_nothing_iff (path content : Text) : AllOrNothing path content ↔
    (∀ line, Reached (entryLines content) line → ¬ Misuses flim (cstr line)) ∧
      ((∀ line ∈ entryLines content, ∃ e, Loads (cstr line) e) →
        ∀ line ∈ entryLines content, '\x00' ∉ line) := by
  have hlast : ∀ line ∈ getlines content, NewlineLast line := fun line h => newlineLast_of_mem h
  have hspec := readLines_spec hlast 0 []
  have hload : loadentries (configOf path content) =
      match readLines 0 ((getlines content).map cstr) [] with
      | .entry entries => some ⟨entries, 0, []⟩
      | .failed message => some ⟨[], -1, [message]⟩
      | .fault => none := rfl
  rw [← entryLines] at hspec
  unfold AllOrNothing
  cases hread : readLines 0 ((getlines content).map cstr) [] with
  | entry table =>
      rw [hread] at hspec hload
      obtain ⟨new, rfl, hnew⟩ := hspec
      have hloads : ∀ line ∈ entryLines content, ∃ e, Loads (cstr line) e := by
        intro line hline
        obtain ⟨i, hi, rfl⟩ := List.mem_iff_getElem.mp hline
        exact ⟨_, hnew.get hi (hnew.length_eq ▸ hi)⟩
      have hsafe : ∀ line, Reached (entryLines content) line → ¬ Misuses flim (cstr line) := by
        rintro line ⟨before, after, hlines, -⟩
        obtain ⟨e, he⟩ := hloads line (hlines ▸ by simp)
        exact he.not_misuses
      have hholds := forall₂_holds_iff
        (fun line hline => hlast line (List.mem_filter.mp hline).1) hnew
      constructor
      · rintro ⟨l, hl, ⟨-, hall⟩ | ⟨hminus, -⟩⟩
        · obtain rfl := Option.some.inj (hload.symm.trans hl)
          exact ⟨hsafe, fun _ => hholds.mp hall⟩
        · obtain rfl := Option.some.inj (hload.symm.trans hl)
          cases hminus
      · rintro ⟨-, hnul⟩
        exact ⟨_, hload, .inl ⟨rfl, hholds.mpr (hnul hloads)⟩⟩
  | failed message =>
      rw [hread] at hspec hload
      obtain ⟨bad, ⟨before, after, hlines, hbefore⟩, hnot, hsafe⟩ := hspec
      refine iff_of_true ⟨_, hload, .inr ⟨rfl, rfl⟩⟩ ⟨?_, ?_⟩
      · rintro line ⟨before', after', hlines', hbefore'⟩
        rcases mem_of_cuts (hlines.symm.trans hlines') with hmem | rfl | hmem
        · obtain ⟨e, he⟩ := hbefore line hmem
          exact he.not_misuses
        · exact hsafe
        · obtain ⟨e, he⟩ := hbefore' bad hmem
          exact absurd he (hnot e)
      · intro hall
        obtain ⟨e, he⟩ := hall bad (hlines ▸ by simp)
        exact absurd he (hnot e)
  | fault =>
      rw [hread] at hspec hload
      obtain ⟨bad, hreached, hmisuses⟩ := hspec
      refine iff_of_false ?_ fun h => h.1 bad hreached hmisuses
      rintro ⟨l, hl, -⟩
      cases hload.symm.trans hl

/-- A star behind a digit in the first column: the call does not return in a defined way. And
a NUL in a command: the entry that is loaded has only what is before it. -/
theorem loadentries_neither :
    ¬ AllOrNothing "crontab".toList "1* * * * * * date\n".toList ∧
      loadentries (configOf "crontab".toList "* * * * * * date\x00 -u\n".toList) =
        some ⟨[⟨.wildcard, .wildcard, .wildcard, .wildcard, .wildcard, .wildcard,
          "date".toList⟩], 0, []⟩ := by
  have hnone : loadentries (configOf "crontab".toList "1* * * * * * date\n".toList) = none := by
    decide
  refine ⟨?_, by decide⟩
  rintro ⟨l, hl, -⟩
  cases hnone.symm.trans hl

end Dowse.CrontabFile
