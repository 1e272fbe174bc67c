import Dowse.DnsGate
import Dowse.HashmapGrowth
import Dowse.Stdio
import Dowse.Strtol
import Mathlib.Data.List.DropRight

/-!
# The domain list of the DNS plugin

`load_domainlist` reads every file of a directory and puts each of its lines into the hash map,
with the name of the file as the group. Nothing is ever removed, so the lookup that
`publish_query` makes finds the group of the last line with the domain.

A line is read in pieces of 511 characters and trimmed into a buffer that lives as long as
the call; a line that begins with a NUL leaves the buffer as it was. When a file cannot be
opened the loop does not go on to the next one, and the call does not return.
-/
namespace Dowse.DnsPlugin
open CStrings Stdio Strtol Hashmap HashmapRefinement HashmapInvariant CyclicProbing

def maxLine : ℕ := 512

/-- The content of `out` after trimming `str` into its first `len` bytes. -/
def trim (out : Text) (len : ℕ) (str : Text) : Text :=
  if len = 0 then out
  else if str.dropWhile isSpace = [] then []
  else ((str.dropWhile isSpace).rdropWhile isSpace).take (len - 1)

def fileLines : ℕ → Text → List Text := lines (maxLine - 1)

/-- The keys that the lines of a file are put under, and the buffer afterwards. -/
def lineKeys : Text → List Text → List Key × Text
  | trimmed, [] => ([], trimmed)
  | trimmed, buffer :: lines =>
      let line := cstr buffer
      if line.head? = some '#' then lineKeys trimmed lines
      else
        let trimmed := trim trimmed line.length line
        let r := lineKeys trimmed lines
        if trimmed = [] then r else (trimmed :: r.1, r.2)

/-- The directories with the names in the order of `readdir`, and the contents of the files. -/
structure Files where
  readdir : Text → Option (List Text)
  fopen : Text → Option Text

def dirEntries (files : Files) (listpath : Text) : Text → List Text → Option (List (Key × Text))
  | _, [] => some []
  | trimmed, name :: names =>
      match files.fopen (snprintf maxLine (listpath ++ ['/'] ++ name)) with
      | none => none
      | some content =>
          let r := lineKeys trimmed (fileLines content.length content)
          (dirEntries files listpath r.2 names).map ((r.1.map fun key => (key, name)) ++ ·)

/-- The puts one after the other, whatever their status. -/
def putAll (calloc : ℕ → Bool) (fuel : ℕ) : List (Key × Text) → Map Text → ℕ → Option (Map Text)
  | [], m, _ => some m
  | (key, group) :: entries, m, n =>
      match hashmapPut calloc fuel m n key group with
      | none => none
      | some (_, m', n') => putAll calloc fuel entries m' n'

/-- The loaded map; `none` when the directory cannot be opened, or the call does not return.
The stack has left `trimmed` in the buffer. -/
def loadDomainlist (files : Files) (trimmed : Text) (calloc : ℕ → Bool) (fuel : ℕ)
    (listpath : Text) : Option (Map Text) :=
  (files.readdir listpath).bind fun names =>
    (dirEntries files listpath trimmed names).bind fun entries =>
      putAll calloc fuel entries hashmapNew 0

theorem calls_of_putAll {fuel n : ℕ} {entries : List (Key × Text)} {m m' : Map Text}
    (h : putAll (fun _ => true) fuel entries m n = some m') :
    Calls (fun _ _ => True) m (entries.map fun e => .put e.1 e.2) m' := by
  induction entries generalizing m n with
  | nil =>
      cases h
      exact .done _
  | cons e entries ih =>
      obtain ⟨key, group⟩ := e
      cases hput : hashmapPut (fun _ => true) fuel m n key group with
      | none => simp [putAll, hput] at h
      | some out =>
          obtain ⟨status, u, k⟩ := out
          simp only [putAll, hput] at h
          exact .call trivial ⟨fuel, n, status, k, hput⟩ (ih h)

theorem puts_of_loadDomainlist {files : Files} {trimmed listpath : Text} {fuel : ℕ}
    {m : Map Text} (h : loadDomainlist files trimmed (fun _ => true) fuel listpath = some m) :
    ∃ names entries, files.readdir listpath = some names ∧
      dirEntries files listpath trimmed names = some entries ∧ Puts entries m := by
  obtain ⟨names, hnames, h⟩ := Option.bind_eq_some_iff.mp h
  obtain ⟨entries, hentries, h⟩ := Option.bind_eq_some_iff.mp h
  exact ⟨names, entries, hnames, hentries, calls_of_putAll h⟩

/-- What `publish_query` finds for a domain, and what it appends. -/
structure Grouped (data : PluginData) (entries : List (Key × Text)) (domain : Text) : Prop where
  last : ∀ group, LastEntry entries domain group →
    hashmapGet data.domainlist domain = (.ok, some group)
  never : domain ∉ entries.map Prod.fst → hashmapGet data.domainlist domain = (.missing, none) ∧
    ∀ outnew, addGroup data (some domain) outnew = some outnew

theorem grouped_of_puts {data : PluginData} {entries : List (Key × Text)}
    (h : Puts entries data.domainlist) (domain : Text) : Grouped data entries domain where
  last group hgroup := by
    rw [hashmapGet_rep h.rep.1, hgroup.foldl_record]
  never hdomain := by
    have hmissing : hashmapGet data.domainlist domain = (.missing, none) := by
      rw [hashmapGet_rep h.rep.1, foldl_record_of_notMem hdomain]
    refine ⟨hmissing, fun outnew => ?_⟩
    unfold addGroup
    split_ifs
    · dsimp only
      rw [hmissing]
    · rfl

/-- After any sequence of puts from `hashmap_new` the table is contiguous, every growth of the
next put keeps what lookups find, and a plugin that looks domains up in the table finds the
group of the last put. -/
theorem insert_only_grouped {entries : List (Key × Text)} {m : Map Text} (h : Puts entries m) :
    Contiguous m ∧
      (∀ key group n before after, Grows (.put key group) m n before after →
        ∀ k, hashmapGet after k = hashmapGet before k) ∧
      ∀ data : PluginData, data.domainlist = m → ∀ domain, Grouped data entries domain := by
  obtain ⟨hr, hg⟩ := h.rep
  refine ⟨contiguous_of_gapless hr hg, ?_, ?_⟩
  · intro key group n before after hgrows
    exact hgrows.get hr hg
  · rintro data rfl domain
    exact grouped_of_puts h domain

def listFiles : Files where
  readdir path := if path = "lists".toList then some ["ads".toList, "social".toList] else none
  fopen path :=
    if path = "lists/ads".toList then some "# ads\n dyne.org \ntracker.net\n".toList
    else if path = "lists/social".toList then some "dyne.org\n".toList
    else none

theorem insert_only_grouped_lists : ∃ m : Map Text,
    loadDomainlist listFiles [] (fun _ => true) 1 "lists".toList = some m ∧
      Contiguous m ∧ hashmapGet m "dyne.org".toList = (.ok, some "social".toList) ∧
      hashmapGet m "example.com".toList = (.missing, none) := by
  have hloads : (loadDomainlist listFiles [] (fun _ => true) 1 "lists".toList).isSome := by
    decide +kernel
  obtain ⟨m, hm⟩ := Option.isSome_iff_exists.mp hloads
  obtain ⟨names, entries, hnames, hentries, hputs⟩ := puts_of_loadDomainlist hm
  have hlist : dirEntries listFiles "lists".toList [] ["ads".toList, "social".toList] =
      some [("dyne.org".toList, "ads".toList), ("tracker.net".toList, "ads".toList),
        ("dyne.org".toList, "social".toList)] := by
    decide +kernel
  obtain rfl := Option.some.inj hnames
  obtain rfl := Option.some.inj (hlist.symm.trans hentries)
  obtain ⟨hcontiguous, -, hgrouped⟩ := insert_only_grouped hputs
  obtain ⟨hlast, -⟩ := hgrouped { lanData with domainlist := m } rfl "dyne.org".toList
  obtain ⟨-, hnever⟩ := hgrouped { lanData with domainlist := m } rfl "example.com".toList
  have hsocial : LastEntry [("dyne.org".toList, "ads".toList), ("tracker.net".toList, "ads".toList),
      ("dyne.org".toList, "social".toList)] "dyne.org".toList "social".toList :=
    ⟨[("dyne.org".toList, "ads".toList), ("tracker.net".toList, "ads".toList)], [], rfl,
      List.not_mem_nil⟩
  refine ⟨m, hm, hcontiguous, hlast _ hsocial, (hnever ?_).1⟩
  decide +kernel

end Dowse.DnsPlugin
