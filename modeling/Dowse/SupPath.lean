import Dowse.Splitting
import Dowse.SupAuthorisation

/-!
# The search for a command in PATH

A search tries the components of `PATH` that are not empty, one after the other, and leaves
`PATH` as it is. `getpath` looks at a component when it comes to the colon behind it, so the
part behind the last colon is not tried. A colon that opens a component does not end it, so an
empty component becomes part of the next one, with its colon. When the file is found the
terminator stays in the place of the colon, and the environment has lost the rest of `PATH`.
-/
namespace Dowse.Sup
open CStrings Splitting

/-- The first component that is not empty and has the name. -/
def searchPath (present : Text → Bool) (path str : Text) : Option Text :=
  ((words ':' path).map (· ++ '/' :: str)).find? present

/-- The components that are tried, from the parts between the colons. -/
def attempts : List Text → List Text
  | [] => []
  | [_] => []
  | part :: next :: parts =>
      if part = [] then attempts ((':' :: next) :: parts) else part :: attempts (next :: parts)
termination_by parts => parts.length

/-- The file name for a component, as far as it fits. -/
def candidate (str component : Text) : Text :=
  snprintf (maxFilePath - 1) (component ++ '/' :: str)

/-- The name is in none of the components, and in none of those that are tried. -/
structure Absent (present : Text → Bool) (path str : Text) : Prop where
  components : ∀ component ∈ words ':' path, present (component ++ '/' :: str) = false
  attempts : ∀ component ∈ attempts (path.splitOn ':'), present (candidate str component) = false

section Scan
variable {present : Text → Bool} {str : Text}

theorem getpathLoop_open (scanned rest : Text) :
    getpathLoop present str scanned [] (':' :: rest) =
      getpathLoop present str (scanned ++ [':']) [':'] rest := by
  simp [getpathLoop]

theorem getpathLoop_end {component : Text} (hnil : component ≠ []) (h : '\\' ∉ component)
    (scanned rest : Text) :
    getpathLoop present str scanned component (':' :: rest) =
      if present (candidate str component) then some (candidate str component, scanned)
      else getpathLoop present str (scanned ++ [':']) [] rest := by
  have hlast : component.getLast? ≠ some '\\' := fun hlast => h (List.mem_of_getLast? hlast)
  rw [getpathLoop, if_pos ⟨rfl, hnil, hlast⟩]
  rfl

theorem getpathLoop_char {c : Char} (h : c ≠ ':') (scanned component rest : Text) :
    getpathLoop present str scanned component (c :: rest) =
      getpathLoop present str (scanned ++ [c]) (component ++ [c]) rest := by
  simp [getpathLoop, h]

/-- The scan with a component begun finds what is first in the components that are tried. -/
theorem getpathLoop_fst {scanned component rest : Text} (hcomponent : '\\' ∉ component)
    (hrest : '\\' ∉ rest) :
    (getpathLoop present str scanned component rest).map Prod.fst =
      ((attempts ((rest.splitOn ':').modifyHead (component ++ ·))).map (candidate str)).find?
        present := by
  induction rest generalizing scanned component with
  | nil => simp [getpathLoop, attempts]
  | cons c rest ih =>
      rw [List.mem_cons, not_or] at hrest
      obtain ⟨hc, hrest⟩ := hrest
      obtain ⟨first, parts, hsplit⟩ := List.exists_cons_of_ne_nil (List.splitOn_ne_nil ':' rest)
      rw [List.splitOn_cons_eq_if_modifyHead]
      by_cases hcolon : c = ':'
      · subst hcolon
        rw [if_pos (beq_self_eq_true ':'), List.modifyHead_cons, List.append_nil, hsplit, attempts]
        by_cases hnil : component = []
        · subst hnil
          rw [getpathLoop_open, ih (by decide) hrest, hsplit, if_pos rfl]
          rfl
        · rw [getpathLoop_end hnil hcomponent, if_neg hnil, List.map_cons, List.find?_cons]
          split_ifs with hpresent
          · simp [hpresent]
          · rw [ih List.not_mem_nil hrest, hsplit]
            simp [hpresent]
      · have hnext : '\\' ∉ component ++ [c] := by simp [hcomponent, hc]
        rw [getpathLoop_char hcolon, ih hnext hrest, if_neg (by simpa using hcolon), hsplit]
        simp

theorem length_scanned_lt {scanned component rest : Text} {found : Text × Text}
    (h : getpathLoop present str scanned component rest = some found) :
    found.2.length < (scanned ++ rest).length := by
  induction rest generalizing scanned component with
  | nil => cases h
  | cons c rest ih =>
      rw [getpathLoop] at h
      dsimp only at h
      split_ifs at h
      · cases h
        simp
      · simpa using ih h
      · simpa using ih h

theorem absent_iff {path : Text} : Absent present path str ↔
    searchPath present path str = none ∧
      ((attempts (path.splitOn ':')).map (candidate str)).find? present = none := by
  simp only [searchPath, List.find?_eq_none, List.forall_mem_map, Bool.not_eq_true]
  exact ⟨fun h => ⟨h.components, h.attempts⟩, fun h => ⟨h.1, h.2⟩⟩

end Scan

theorem getpath_run {sys : System} {str path : Text} {process : Process}
    (hpath : process.path = some path) :
    (getpath sys str).run process =
      match getpathLoop (fun file => (sys.files.entry process.cwd file).isSome) str [] [] path with
      | none => (none, process)
      | some (file, scanned) => (some file, { process with path := some scanned }) := by
  obtain ⟨creds, cwd, _⟩ := process
  obtain rfl := hpath
  cases hloop : getpathLoop (fun file => (sys.files.entry cwd file).isSome) str [] [] path <;>
    simp only [getpath, bind_pure_comp, StateT.run_bind, StateT.run_get, pure_bind, hloop] <;> rfl

/-- For a `PATH` without backslashes `getpath` makes the search and leaves `PATH` as it is exactly
when there is nothing to be found. -/
theorem getpath_searchPath_iff (sys : System) (str path : Text) (process : Process)
    (hpath : process.path = some path) (hescape : '\\' ∉ path) :
    let present := fun file => (sys.files.entry process.cwd file).isSome
    (getpath sys str).run process = (searchPath present path str, process) ↔
      Absent present path str := by
  intro present
  have htried := @getpathLoop_fst present str [] [] path List.not_mem_nil hescape
  have hsame : (path.splitOn ':').modifyHead ([] ++ ·) = path.splitOn ':' := by
    cases path.splitOn ':' <;> rfl
  rw [hsame] at htried
  rw [absent_iff, ← htried, getpath_run hpath]
  cases hloop : getpathLoop present str [] [] path with
  | none =>
      constructor
      · intro h
        exact ⟨(congrArg Prod.fst h).symm, rfl⟩
      · rintro ⟨hsearch, -⟩
        rw [hsearch]
  | some found =>
      have hlt : found.2.length < path.length := length_scanned_lt hloop
      refine iff_of_false (fun h => ?_) (by simp)
      have hcut : some found.2 = process.path := congrArg (fun r => r.2.path) h
      rw [hpath, Option.some.injEq] at hcut
      rw [hcut] at hlt
      exact lt_irrefl _ hlt

/-- A system with the two programs `/bin/ls` and `/usr/bin/id`. -/
def binFiles : FileSystem where
  entry _ path :=
    if path = "/bin/ls".toList ∨ path = "/usr/bin/id".toList then
      some ⟨493, 1, [0], true, false⟩
    else none
  absolute _ _ _ _ := rfl

def binSystem : System := { homeSystem with files := binFiles }

def binProcess : Process := { homeProcess with path := some "/bin:/usr/bin".toList }

theorem getpath_searchPath_missing :
    (getpath binSystem "cc".toList).run binProcess =
      (searchPath (fun file => (binSystem.files.entry binProcess.cwd file).isSome)
        "/bin:/usr/bin".toList "cc".toList, binProcess) := by
  exact (getpath_searchPath_iff binSystem "cc".toList "/bin:/usr/bin".toList binProcess rfl
    (by decide)).mpr ⟨by decide +kernel, by decide +kernel⟩

/-- The command in the last component is not found, and the one in the first is found at the
price of the rest of `PATH`. -/
theorem last_component_skipped :
    searchPath (fun file => (binSystem.files.entry binProcess.cwd file).isSome)
        "/bin:/usr/bin".toList "id".toList = some "/usr/bin/id".toList ∧
      ((getpath binSystem "id".toList).run binProcess).1 = none ∧
      ((getpath binSystem "ls".toList).run binProcess).1 = some "/bin/ls".toList ∧
      ((getpath binSystem "ls".toList).run binProcess).2.path = some "/bin".toList := by
  decide +kernel

end Dowse.Sup
