import Dowse.DomainList

/-!
# What is read from the files of the domain list

Every line of a file that is neither a comment nor blank is to become a key, without the white
space around it. `load_domainlist` gives `trim` the length of the raw line for the size of the
output, and one of these bytes is for the terminator. A newline or any other white space at an
end of the line makes up for it. The last line of a file may have none, and then loses its last
character, or is skipped when it has only one. A NUL in a line ends it for the C functions.

The loop over the directory reads the next entry at its end. When a file cannot be opened it
goes back to its test without reading on, and meets the same entry for ever.
-/
namespace Dowse.DnsPlugin
open CStrings Stdio Strtol Hashmap

/-- A line without the white space around it. -/
def stripped (line : Text) : Text := (line.dropWhile isSpace).rdropWhile isSpace

/-- The key that a line is to become, if it is neither a comment nor blank. -/
def lineKey (line : Text) : Option Key :=
  if line.head? = some '#' ∨ line.all isSpace then none else some (stripped line)

def wantedKeys (content : Text) : List Key := (content.splitOn '\n').filterMap lineKey

/-- A line that is not a comment has no NUL. -/
def NulFree (line : Text) : Prop := line.head? ≠ some '#' → '\x00' ∉ line

/-- There is white space at an end of the line. -/
def Padded (line : Text) : Prop := line.head?.any isSpace ∨ line.getLast?.any isSpace

/-- No line that counts has a NUL, and if the last line counts, there is white space at one of
its ends. -/
structure Complete (content : Text) : Prop where
  nul : ∀ line ∈ content.splitOn '\n', NulFree line
  last : ∀ line ∈ (content.splitOn '\n').getLast?, lineKey line ≠ none → Padded line

instance : DecidablePred NulFree := fun line =>
  inferInstanceAs (Decidable (line.head? ≠ some '#' → '\x00' ∉ line))

instance : DecidablePred Padded := fun line =>
  inferInstanceAs (Decidable (line.head?.any isSpace ∨ line.getLast?.any isSpace))

instance : DecidablePred Complete := fun content =>
  decidable_of_iff ((∀ line ∈ content.splitOn '\n', NulFree line) ∧
    ∀ line ∈ (content.splitOn '\n').getLast?, lineKey line ≠ none → Padded line)
    ⟨fun h => ⟨h.1, h.2⟩, fun h => ⟨h.nul, h.last⟩⟩

section Stripping
variable {line : Text}

theorem mem_dropWhile {c : Char} (hc : isSpace c = false) (h : c ∈ line) :
    c ∈ line.dropWhile isSpace := by
  rw [← @List.takeWhile_append_dropWhile _ isSpace line, List.mem_append] at h
  refine h.resolve_left fun hmem => ?_
  rw [List.mem_takeWhile_imp hmem] at hc
  cases hc

theorem mem_stripped {c : Char} (hc : isSpace c = false) (h : c ∈ line) : c ∈ stripped line := by
  have hreversed : c ∈ (line.dropWhile isSpace).reverse.dropWhile isSpace :=
    mem_dropWhile hc (List.mem_reverse.mpr (mem_dropWhile hc h))
  exact List.mem_reverse.mpr hreversed

theorem sublist_stripped (line : Text) : (stripped line).Sublist line :=
  (List.rdropWhile_prefix isSpace _).sublist.trans (List.dropWhile_sublist isSpace)

theorem stripped_eq_nil_iff : stripped line = [] ↔ line.all isSpace := by
  constructor
  · intro h
    rw [List.all_eq_true]
    intro c hc
    by_contra hspace
    have hmem := mem_stripped (Bool.eq_false_iff.mpr hspace) hc
    rw [h] at hmem
    cases hmem
  · intro h
    have hnone : line.dropWhile isSpace = [] :=
      List.dropWhile_eq_nil_iff.mpr (List.all_eq_true.mp h)
    rw [stripped, hnone]
    rfl

/-- A newline behind the line is stripped as well. -/
theorem stripped_newline (line : Text) : stripped (line ++ ['\n']) = stripped line := by
  have hspace : isSpace '\n' = true := by decide
  unfold stripped
  rw [List.dropWhile_append]
  split_ifs with hnone
  · rw [List.isEmpty_iff.mp hnone]
    rfl
  · exact List.rdropWhile_concat_pos isSpace _ _ hspace

theorem dropWhile_eq_self : line.dropWhile isSpace = line ↔ ¬ line.head?.any isSpace := by
  rw [List.dropWhile_eq_self_iff]
  cases line <;> simp

theorem rdropWhile_eq_self : line.rdropWhile isSpace = line ↔ ¬ line.getLast?.any isSpace := by
  rw [List.rdropWhile_eq_self_iff]
  by_cases hnil : line = []
  · simp [hnil]
  · simp [List.getLast?_eq_some_getLast hnil, hnil]

theorem stripped_eq_self_iff : stripped line = line ↔ ¬ Padded line := by
  unfold Padded
  rw [not_or, ← dropWhile_eq_self, ← rdropWhile_eq_self]
  constructor
  · intro h
    have hdrop : line.dropWhile isSpace = line := by
      refine (List.dropWhile_sublist isSpace).eq_of_length_le ?_
      have hle := (List.rdropWhile_prefix isSpace (line.dropWhile isSpace)).length_le
      rwa [← stripped, h] at hle
    refine ⟨hdrop, ?_⟩
    rwa [stripped, hdrop] at h
  · rintro ⟨hdrop, hrdrop⟩
    rw [stripped, hdrop, hrdrop]

/-- A line with white space at an end has room for a terminator when it is stripped. -/
theorem length_stripped_lt_iff : (stripped line).length < line.length ↔ Padded line := by
  have hle := (sublist_stripped line).length_le
  rw [← not_iff_not, ← stripped_eq_self_iff]
  constructor
  · intro h
    exact (sublist_stripped line).eq_of_length_le (by omega)
  · intro h
    rw [h]
    exact lt_irrefl _

end Stripping

/-- There are not more keys than wanted, and they are the wanted ones exactly under the
condition. -/
structure KeysIf {α : Type*} (keys wanted : List α) (condition : Prop) : Prop where
  length_le : keys.length ≤ wanted.length
  eq_iff : keys = wanted ↔ condition

theorem KeysIf.append {α : Type*} {keys wanted keys' wanted' : List α} {p q : Prop}
    (h : KeysIf keys wanted p) (h' : KeysIf keys' wanted' q) :
    KeysIf (keys ++ keys') (wanted ++ wanted') (p ∧ q) where
  length_le := by
    rw [List.length_append, List.length_append]
    exact Nat.add_le_add h.length_le h'.length_le
  eq_iff := by
    rw [← h.eq_iff, ← h'.eq_iff]
    constructor
    · intro heq
      have hlen := congrArg List.length heq
      rw [List.length_append, List.length_append] at hlen
      have hle := h.length_le
      have hle' := h'.length_le
      exact List.append_inj heq (by omega)
    · rintro ⟨rfl, rfl⟩
      rfl

theorem KeysIf.map {α β : Type*} {keys wanted : List α} {p : Prop} (h : KeysIf keys wanted p)
    (f : α → β) (hf : Function.Injective f) : KeysIf (keys.map f) (wanted.map f) p where
  length_le := by
    rw [List.length_map, List.length_map]
    exact h.length_le
  eq_iff := (List.map_injective_iff.mpr hf).eq_iff.trans h.eq_iff

section Lines

theorem trim_eq {piece : Text} (hne : piece ≠ []) (out : Text) :
    trim out piece.length piece = (stripped piece).take (piece.length - 1) := by
  unfold trim
  rw [if_neg (fun h => hne (List.length_eq_zero_iff.mp h))]
  split_ifs with hnone
  · rw [stripped, hnone]
    exact List.take_nil.symm
  · rfl

theorem lineKeys_cons (trimmed buffer : Text) (buffers : List Text) :
    lineKeys trimmed (buffer :: buffers) =
      ((lineKeys trimmed [buffer]).1 ++ (lineKeys (lineKeys trimmed [buffer]).2 buffers).1,
        (lineKeys (lineKeys trimmed [buffer]).2 buffers).2) := by
  simp only [lineKeys]
  split_ifs <;> rfl

theorem nul_notMem_trim {out str : Text} (hout : '\x00' ∉ out) (hstr : '\x00' ∉ str) (len : ℕ) :
    '\x00' ∉ trim out len str := by
  unfold trim
  split_ifs
  · exact hout
  · exact List.not_mem_nil
  · exact fun h => hstr ((sublist_stripped str).mem (List.mem_of_mem_take h))

/-- Neither the buffer nor the key has a NUL. -/
theorem nul_notMem_lineKeys {trimmed : Text} (h : '\x00' ∉ trimmed) (buffer : Text) :
    '\x00' ∉ (lineKeys trimmed [buffer]).2 ∧
      ∀ key ∈ (lineKeys trimmed [buffer]).1, '\x00' ∉ key := by
  have htrim := nul_notMem_trim h (nul_notMem_cstr buffer) (cstr buffer).length
  simp only [lineKeys]
  split_ifs
  · exact ⟨h, fun key hkey => absurd hkey List.not_mem_nil⟩
  · exact ⟨htrim, fun key hkey => absurd hkey List.not_mem_nil⟩
  · refine ⟨htrim, fun key hkey => ?_⟩
    rw [List.mem_singleton] at hkey
    rwa [hkey]

/-- What `fgets` reads of a line: the line with its newline, or the last line without one. -/
structure PieceOf (piece line : Text) : Prop where
  ne_nil : piece ≠ []
  head : piece.head? = some '#' ↔ line.head? = some '#'
  nul : '\x00' ∈ piece ↔ '\x00' ∈ line
  stripped_eq : stripped piece = stripped line

theorem pieceOf_newline (line : Text) : PieceOf (line ++ ['\n']) line where
  ne_nil := by simp
  head := by cases line <;> simp
  nul := by simp
  stripped_eq := stripped_newline line

theorem pieceOf_self {line : Text} (h : line ≠ []) : PieceOf line line where
  ne_nil := h
  head := Iff.rfl
  nul := Iff.rfl
  stripped_eq := rfl

theorem lineKey_comment {line : Text} (h : line.head? = some '#') : lineKey line = none :=
  if_pos (Or.inl h)

theorem lineKey_eq {line : Text} (h : line.head? ≠ some '#') :
    lineKey line = if stripped line = [] then none else some (stripped line) := by
  unfold lineKey
  simp only [h, false_or, stripped_eq_nil_iff]

theorem lineKey_nul {line : Text} (hcomment : line.head? ≠ some '#') (hnul : '\x00' ∈ line) :
    lineKey line = some (stripped line) ∧ '\x00' ∈ stripped line := by
  have hmem := mem_stripped (by decide) hnul
  exact ⟨(lineKey_eq hcomment).trans (if_neg (List.ne_nil_of_mem hmem)), hmem⟩

namespace PieceOf
variable {piece line trimmed : Text} (h : PieceOf piece line)
include h

theorem lineKeys_comment (hcomment : line.head? = some '#') :
    (lineKeys trimmed [piece]).1 = [] := by
  have hhead : (cstr piece).head? = some '#' := by
    obtain ⟨c, rest, rfl⟩ := List.exists_cons_of_ne_nil h.ne_nil
    obtain rfl : c = '#' := Option.some.inj (h.head.mpr hcomment)
    rfl
  simp only [lineKeys, hhead, if_true]

theorem lineKeys_eq (hcomment : line.head? ≠ some '#') (hnul : '\x00' ∉ line) :
    (lineKeys trimmed [piece]).1 =
      let key := (stripped line).take (piece.length - 1)
      if key = [] then [] else [key] := by
  have hcstr : cstr piece = piece := cstr_eq_self (fun hmem => hnul (h.nul.mp hmem))
  have hhead : piece.head? ≠ some '#' := fun hmem => hcomment (h.head.mp hmem)
  simp only [lineKeys, hcstr, trim_eq h.ne_nil, h.stripped_eq, hhead, if_false]
  split_ifs <;> rfl

theorem keysIf (htrimmed : '\x00' ∉ trimmed) :
    KeysIf (lineKeys trimmed [piece]).1 (lineKey line).toList
      (NulFree line ∧ (lineKey line ≠ none → (stripped line).length < piece.length)) := by
  by_cases hcomment : line.head? = some '#'
  · rw [h.lineKeys_comment hcomment, lineKey_comment hcomment]
    exact ⟨le_rfl, by simp [NulFree, hcomment]⟩
  by_cases hnul : '\x00' ∈ line
  · obtain ⟨hkey, hmem⟩ := lineKey_nul hcomment hnul
    obtain ⟨-, hfree⟩ := nul_notMem_lineKeys htrimmed piece
    rw [hkey]
    refine ⟨?_, iff_of_false ?_ fun hnulFree => hnulFree.1 hcomment hnul⟩
    · simp only [lineKeys]
      split_ifs <;> simp
    · intro heq
      exact hfree (stripped line) (by simp [heq]) hmem
  have hpos := List.length_pos_iff.mpr h.ne_nil
  rw [h.lineKeys_eq hcomment hnul, lineKey_eq hcomment]
  by_cases hblank : stripped line = []
  · simp only [hblank, List.take_nil, if_true]
    exact ⟨le_rfl, by simp [NulFree, hnul]⟩
  · simp only [hblank, if_false]
    refine ⟨by split_ifs <;> simp, ?_⟩
    have htake : (stripped line).take (piece.length - 1) = stripped line ↔
        (stripped line).length < piece.length := by
      rw [List.take_eq_self_iff]
      omega
    rw [← htake]
    split_ifs with hcut
    · simp [hcut, Ne.symm hblank]
    · simp [NulFree, hnul]

end PieceOf

theorem nul_notMem_buffer {trimmed : Text} (h : '\x00' ∉ trimmed) (buffers : List Text) :
    '\x00' ∉ (lineKeys trimmed buffers).2 := by
  induction buffers generalizing trimmed with
  | nil => exact h
  | cons buffer buffers ih =>
      rw [lineKeys_cons]
      exact ih (nul_notMem_lineKeys h buffer).1

theorem keysIf_lines {trimmed : Text} (h : '\x00' ∉ trimmed) (front : List Text) (last : Text) :
    KeysIf (lineKeys trimmed (front.map (· ++ ['\n']) ++ if last = [] then [] else [last])).1
      ((front ++ [last]).filterMap lineKey)
      ((∀ line ∈ front ++ [last], NulFree line) ∧ (lineKey last ≠ none → Padded last)) := by
  rw [List.filterMap_eq_flatMap_toList]
  induction front generalizing trimmed with
  | nil =>
      by_cases hnil : last = []
      · subst hnil
        exact ⟨le_rfl, by simp [lineKeys, lineKey, NulFree]⟩
      · have hlast := (pieceOf_self hnil).keysIf h
        rw [length_stripped_lt_iff] at hlast
        simpa [hnil] using hlast
  | cons line front ih =>
      have hroom : (stripped line).length < (line ++ ['\n']).length := by
        have hle := (sublist_stripped line).length_le
        simp only [List.length_append, List.length_singleton]
        omega
      have hline := (pieceOf_newline line).keysIf h
      have hrest := ih (nul_notMem_lineKeys h (line ++ ['\n'])).1
      have happend := hline.append hrest
      rw [List.map_cons, List.cons_append, lineKeys_cons, List.cons_append, List.flatMap_cons]
      refine ⟨happend.length_le, happend.eq_iff.trans ?_⟩
      simp only [hroom, implies_true, and_true, List.forall_mem_cons, and_assoc]

/-- What becomes of one file. -/
theorem keysIf_file {trimmed content : Text} (h : '\x00' ∉ trimmed)
    (hshort : ∀ line ∈ content.splitOn '\n', line.length < maxLine - 1) :
    KeysIf (lineKeys trimmed (fileLines content.length content)).1 (wantedKeys content)
      (Complete content) := by
  obtain ⟨front, last, hsplit, hlines⟩ := lines_eq le_rfl hshort
  have hkeys := keysIf_lines h front last
  rw [fileLines, hlines]
  rw [← hsplit] at hkeys
  refine ⟨hkeys.length_le, hkeys.eq_iff.trans ?_⟩
  constructor
  · rintro ⟨hnul, hlast⟩
    refine ⟨hnul, fun line hline => ?_⟩
    rw [hsplit, List.getLast?_concat] at hline
    cases hline
    exact hlast
  · rintro ⟨hnul, hlast⟩
    refine ⟨hnul, hlast last ?_⟩
    rw [hsplit, List.getLast?_concat]
    rfl

end Lines

/-- The puts that the files are to give. -/
def wantedEntries (contents : Text → Text) (names : List Text) : List (Key × Text) :=
  names.flatMap fun name => (wantedKeys (contents name)).map fun key => (key, name)

/-- The path of an entry of the directory, as far as it fits. -/
def fullpath (listpath name : Text) : Text := snprintf maxLine (listpath ++ ['/'] ++ name)

theorem keysIf_dirEntries {files : Files} {listpath trimmed : Text} {names : List Text}
    {contents : Text → Text} (h : '\x00' ∉ trimmed)
    (hopen : ∀ name ∈ names, files.fopen (fullpath listpath name) = some (contents name))
    (hshort : ∀ name ∈ names, ∀ line ∈ (contents name).splitOn '\n', line.length < maxLine - 1) :
    ∃ entries, dirEntries files listpath trimmed names = some entries ∧
      KeysIf entries (wantedEntries contents names) (∀ name ∈ names, Complete (contents name)) := by
  induction names generalizing trimmed with
  | nil => exact ⟨[], rfl, le_rfl, by simp [wantedEntries]⟩
  | cons name names ih =>
      obtain ⟨hname, hnames⟩ := List.forall_mem_cons.mp hopen
      obtain ⟨hshortName, hshortNames⟩ := List.forall_mem_cons.mp hshort
      have hfile := (keysIf_file h hshortName).map (fun key => (key, name))
        (Prod.mk_left_injective name)
      obtain ⟨entries, hentries, hrest⟩ := ih
        (nul_notMem_buffer h (fileLines (contents name).length (contents name))) hnames hshortNames
      have happend := hfile.append hrest
      unfold fullpath at hname
      refine ⟨_, ?_, happend.length_le, happend.eq_iff.trans ?_⟩
      · simp only [dirEntries, hname, hentries, Option.map_some]
      · rw [List.forall_mem_cons]

/-- For readable files with short lines the puts are the wanted ones exactly when every file is
complete. The buffer may hold any C string before the first line. -/
theorem dirEntries_wanted_iff (files : Files) (listpath trimmed : Text) (names : List Text)
    (contents : Text → Text)
    (hopen : ∀ name ∈ names, files.fopen (fullpath listpath name) = some (contents name))
    (hshort : ∀ name ∈ names, ∀ line ∈ (contents name).splitOn '\n', line.length < 511) :
    dirEntries files listpath (cstr trimmed) names = some (wantedEntries contents names) ↔
      ∀ name ∈ names, Complete (contents name) := by
  obtain ⟨entries, hentries, hkeys⟩ :=
    keysIf_dirEntries (nul_notMem_cstr trimmed) hopen hshort
  rw [hentries, Option.some.injEq]
  exact hkeys.eq_iff

/-- The files of `listFiles`. -/
def listContents (name : Text) : Text :=
  if name = "ads".toList then "# ads\n dyne.org \ntracker.net\n".toList else "dyne.org\n".toList

theorem dirEntries_wanted_lists :
    dirEntries listFiles "lists".toList (cstr "stack".toList) ["ads".toList, "social".toList] =
      some (wantedEntries listContents ["ads".toList, "social".toList]) := by
  exact (dirEntries_wanted_iff _ _ _ _ listContents (by decide +kernel) (by decide +kernel)).mpr
    (by decide +kernel)

/-- A directory with a file whose only line has no newline. -/
def openEndedFiles : Files where
  readdir path := if path = "lists".toList then some ["ads".toList] else none
  fopen path := if path = "lists/ads".toList then some "dyne.org".toList else none

/-- The last character of the domain is lost. -/
theorem last_line_cut :
    openEndedFiles.fopen (fullpath "lists".toList "ads".toList) = some "dyne.org".toList ∧
      dirEntries openEndedFiles "lists".toList (cstr []) ["ads".toList] =
        some [("dyne.or".toList, "ads".toList)] ∧
      wantedEntries (fun _ => "dyne.org".toList) ["ads".toList] =
        [("dyne.org".toList, "ads".toList)] := by
  decide +kernel

/-- The loop over a directory: the current entry, what `readdir` has still to give, the buffer,
the puts so far and the entries that the body was run for. -/
structure DirLoop where
  dp : Option Text
  rest : List Text
  trimmed : Text
  puts : List (Key × Text)
  visited : List Text

namespace DirLoop

/-- The state after a `readdir` with these entries left. -/
def readdir (names : List Text) (s : DirLoop) : DirLoop :=
  { s with dp := names.head?, rest := names.tail }

def start (trimmed : Text) (names : List Text) : DirLoop :=
  readdir names { dp := none, rest := [], trimmed, puts := [], visited := [] }

/-- The body of the loop, if its test succeeds. -/
def step (files : Files) (listpath : Text) (s : DirLoop) : DirLoop :=
  match s.dp with
  | none => s
  | some name =>
      let s := { s with visited := s.visited ++ [name] }
      match files.fopen (fullpath listpath name) with
      -- `continue` goes back to the test, with `dp` as it was
      | none => s
      | some content =>
          let r := lineKeys s.trimmed (fileLines content.length content)
          let puts := s.puts ++ r.1.map fun key => (key, name)
          readdir s.rest { s with trimmed := r.2, puts }

/-- The loop ends, and its body was run once for each of the entries, in order. -/
def VisitsOnce (files : Files) (listpath trimmed : Text) (names : List Text) : Prop :=
  ∃ n, ((step files listpath)^[n] (start trimmed names)).dp = none ∧
    ((step files listpath)^[n] (start trimmed names)).visited = names

section Runs
variable {files : Files} {listpath : Text}

/-- The entry at hand, or one behind it, cannot be opened. -/
structure Blocked (files : Files) (listpath : Text) (s : DirLoop) : Prop where
  dp : s.dp ≠ none
  closed : ∃ name ∈ s.dp.toList ++ s.rest, files.fopen (fullpath listpath name) = none

theorem blocked_readdir {names : List Text} {name : Text} (s : DirLoop) (h : name ∈ names)
    (hclosed : files.fopen (fullpath listpath name) = none) :
    Blocked files listpath (readdir names s) := by
  obtain ⟨first, names, rfl⟩ := List.exists_cons_of_ne_nil (List.ne_nil_of_mem h)
  exact ⟨Option.some_ne_none _, name, h, hclosed⟩

theorem Blocked.step {s : DirLoop} (h : Blocked files listpath s) :
    Blocked files listpath (s.step files listpath) := by
  obtain ⟨hdp, name, hmem, hclosed⟩ := h
  obtain ⟨current, hcurrent⟩ := Option.ne_none_iff_exists'.mp hdp
  rw [hcurrent, Option.toList_some, List.singleton_append] at hmem
  unfold DirLoop.step
  rw [hcurrent]
  dsimp only
  cases hopen : files.fopen (fullpath listpath current) with
  | none => exact ⟨Option.some_ne_none _, current, List.mem_cons_self, hopen⟩
  | some content =>
      rcases List.mem_cons.mp hmem with rfl | hrest
      · rw [hclosed] at hopen
        cases hopen
      · exact blocked_readdir _ hrest hclosed

theorem Blocked.iterate {s : DirLoop} (h : Blocked files listpath s) (n : ℕ) :
    Blocked files listpath ((DirLoop.step files listpath)^[n] s) := by
  induction n with
  | zero => exact h
  | succ n ih =>
      rw [Function.iterate_succ_apply']
      exact ih.step

theorem step_open {name content : Text} {names : List Text} (s : DirLoop)
    (h : files.fopen (fullpath listpath name) = some content) :
    step files listpath (readdir (name :: names) s) =
      let r := lineKeys s.trimmed (fileLines content.length content)
      readdir names { s with
        trimmed := r.2
        puts := s.puts ++ r.1.map fun key => (key, name)
        visited := s.visited ++ [name] } := by
  simp only [step, readdir, List.head?_cons, h, List.tail_cons]

/-- When all entries can be opened, one round for each is enough. -/
theorem iterate_of_open {names : List Text} {s : DirLoop}
    (h : ∀ name ∈ names, (files.fopen (fullpath listpath name)).isSome) :
    ∃ entries, dirEntries files listpath s.trimmed names = some entries ∧
      ∃ trimmed, (step files listpath)^[names.length] (readdir names s) =
        { dp := none, rest := [], trimmed, puts := s.puts ++ entries,
          visited := s.visited ++ names } := by
  induction names generalizing s with
  | nil => exact ⟨[], rfl, s.trimmed, by simp [readdir]⟩
  | cons name names ih =>
      obtain ⟨hname, hnames⟩ := List.forall_mem_cons.mp h
      obtain ⟨content, hopen⟩ := Option.isSome_iff_exists.mp hname
      rw [List.length_cons, Function.iterate_succ_apply, step_open s hopen]
      obtain ⟨entries, hentries, trimmed, hrun⟩ := ih hnames
      rw [hrun]
      unfold fullpath at hopen
      refine ⟨(lineKeys s.trimmed (fileLines content.length content)).1.map
        (fun key => (key, name)) ++ entries, ?_, trimmed, ?_⟩
      · simp only [dirEntries, hopen, hentries, Option.map_some]
      · simp only [List.append_assoc, List.singleton_append]

theorem dirEntries_of_closed {names : List Text} {name : Text} (h : name ∈ names)
    (hclosed : files.fopen (fullpath listpath name) = none) (trimmed : Text) :
    dirEntries files listpath trimmed names = none := by
  induction names generalizing trimmed with
  | nil => cases h
  | cons first names ih =>
      rw [dirEntries, ← fullpath]
      cases hopen : files.fopen (fullpath listpath first) with
      | none => rfl
      | some content =>
          rcases List.mem_cons.mp h with rfl | hrest
          · rw [hclosed] at hopen
            cases hopen
          · dsimp only
            rw [ih hrest]
            rfl

theorem end_unique {s : DirLoop} {m n : ℕ} (hm : ((step files listpath)^[m] s).dp = none)
    (hn : ((step files listpath)^[n] s).dp = none) :
    (step files listpath)^[m] s = (step files listpath)^[n] s := by
  have hlater : ∀ {m : ℕ}, ((step files listpath)^[m] s).dp = none → ∀ k,
      (step files listpath)^[k + m] s = (step files listpath)^[m] s := by
    intro m hend k
    rw [Function.iterate_add_apply]
    refine Function.iterate_fixed ?_ k
    rw [step.eq_def, hend]
  rw [← hlater hm n, ← hlater hn m, Nat.add_comm]

end Runs

/-- The puts of a directory are those of its loop, and there are none when it does not end. -/
theorem dirEntries_eq_some_iff (files : Files) (listpath trimmed : Text) (names : List Text)
    (entries : List (Key × Text)) :
    dirEntries files listpath trimmed names = some entries ↔
      ∃ n, ((step files listpath)^[n] (start trimmed names)).dp = none ∧
        ((step files listpath)^[n] (start trimmed names)).puts = entries := by
  by_cases hopen : ∀ name ∈ names, (files.fopen (fullpath listpath name)).isSome
  · obtain ⟨entries', hentries, trimmed', hrun⟩ := iterate_of_open hopen
    rw [← start] at hrun
    have hend : ((step files listpath)^[names.length] (start trimmed names)).dp = none := by
      rw [hrun]
    have hputs : ((step files listpath)^[names.length] (start trimmed names)).puts = entries' := by
      rw [hrun]
      rfl
    rw [show dirEntries files listpath trimmed names = some entries' from hentries,
      Option.some.injEq]
    constructor
    · rintro rfl
      exact ⟨names.length, hend, hputs⟩
    · rintro ⟨n, hn, rfl⟩
      rw [end_unique hn hend, hputs]
  · push Not at hopen
    obtain ⟨name, hmem, hclosed⟩ := hopen
    have hclosed := Option.not_isSome_iff_eq_none.mp hclosed
    rw [dirEntries_of_closed hmem hclosed]
    constructor
    · intro h
      cases h
    · rintro ⟨n, hend, -⟩
      exact absurd hend ((blocked_readdir _ hmem hclosed).iterate n).dp

/-- The loop over a directory ends, with one visit to each entry, exactly when every entry can be
opened. -/
theorem visitsOnce_iff (files : Files) (listpath trimmed : Text) (names : List Text) :
    VisitsOnce files listpath trimmed names ↔
      ∀ name ∈ names, (files.fopen (fullpath listpath name)).isSome := by
  constructor
  · rintro ⟨n, hend, -⟩ name hmem
    by_contra hclosed
    have hclosed := Option.not_isSome_iff_eq_none.mp hclosed
    exact ((blocked_readdir _ hmem hclosed).iterate n).dp hend
  · intro h
    obtain ⟨entries, -, trimmed', hrun⟩ := iterate_of_open h
    refine ⟨names.length, ?_⟩
    rw [start, hrun]
    exact ⟨rfl, rfl⟩

/-- The first of two entries cannot be opened: the loop neither ends nor comes to the second. -/
theorem closed_entry_for_ever :
    listFiles.fopen (fullpath "lists".toList "private".toList) = none ∧
      ∀ n, ((step listFiles "lists".toList)^[n]
        (start [] ["private".toList, "ads".toList])).dp ≠ none := by
  have hclosed : listFiles.fopen (fullpath "lists".toList "private".toList) = none := by
    decide +kernel
  exact ⟨hclosed, fun n => ((blocked_readdir _ List.mem_cons_self hclosed).iterate n).dp⟩

end DirLoop

end Dowse.DnsPlugin
