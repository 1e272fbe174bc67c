import Dowse.CStrings
import Dowse.SortedSearch

/-!
# The address blocklist of pgld

A list of ranges of 32-bit addresses is filled by `blocklist_append`, sorted by its
lower ends, merged in place and then searched. A range whose lower end exceeds its
upper end lists no address. The sort of the C library is a parameter: `qsort` is not
stable, so any permutation ordered by lower end is a possible result.

Merging blanks every absorbed entry to the top address, sorts again so that the
blanks reach the end of the array, cuts as many entries as it blanked and calls
itself. Without `LOWMEM` an entry also has a name, which blanking frees and sets to
null; each pass takes the length of every name, so a kept blank faults.
-/
namespace Dowse.Blocklist
open CStrings SortedSearch

/-- 255.255.255.255, the address that absorbed entries are blanked to. -/
def top : UInt32 := 4294967295

structure Entry where
  ipMin : UInt32
  ipMax : UInt32
  name : Option Text
  hits : ℕ
  deriving DecidableEq, Repr

/-- `blocklist_t`; its `count` is the length of `entries`, and `allocated` counts the
elements that the array really has room for, which a merge shrinks behind `size`. -/
structure Table where
  entries : List Entry
  size : ℕ
  allocated : ℕ
  numips : UInt32
  deriving DecidableEq, Repr

def allocChunk : ℕ := 16384

def maxLabelLength : ℕ := 300

def maxInmemlabelLength : ℕ := 64

def blocklistInit : Table := ⟨[], 0, 0, 0⟩

/-- The label as `iconv` leaves it in its buffer, or the text for a failure. -/
def convertName (iconv : Text → Option Text) (name : Text) : Text :=
  match iconv name with
  | some converted =>
      if converted.length ≤ maxLabelLength - 1 then cstr converted
      else "(conversion error)".toList
  | none => "(conversion error)".toList

def blocklistAppend (lowmem : Bool) (iconv : Text → Option Text) (b : Table)
    (ipMin ipMax : UInt32) (name : Text) : Table :=
  let full := b.size = b.entries.length
  { b with
    entries := b.entries ++
      [⟨ipMin, ipMax, if lowmem then none else some (convertName iconv name), 0⟩]
    size := if full then b.size + allocChunk else b.size
    allocated := if full then b.size + allocChunk else b.allocated }

/-- `blocklist_clear`, for a start that is not behind the entries. -/
def blocklistClear (b : Table) (start : ℕ) : Table :=
  if start = 0 then blocklistInit
  else { b with entries := b.entries.take start, size := start, allocated := start }

def blockKeyCompare (ip : UInt32) (entry : Entry) : Ordering :=
  if ip < entry.ipMin then .lt else if ip > entry.ipMax then .gt else .eq

/-- What the C library promises of a sort with `block_entry_compare`. -/
structure SortsByMin (qsort : List Entry → List Entry) : Prop where
  perm : ∀ es, (qsort es).Perm es
  sorted : ∀ es, (qsort es).Pairwise fun e f => e.ipMin ≤ f.ipMin

def blocklistSort (qsort : List Entry → List Entry) (b : Table) : Table :=
  { b with entries := qsort b.entries }

/-- The inner loop of `blocklist_merge`: how many of the following entries the
current one absorbs, and the upper end they reach together. -/
def reach (ipMax : UInt32) : List Entry → ℕ × UInt32
  | [] => (0, ipMax)
  | e :: es =>
      if ipMax = top then (es.length + 1, ipMax)
      else if e.ipMin > ipMax + 1 then (0, ipMax)
      else
        let r := reach (if e.ipMax > ipMax then e.ipMax else ipMax) es
        (r.1 + 1, r.2)

/-- The name of the absorbing entry, cut before and after the others are added. -/
def mergedName (name : Text) (absorbed : List Text) : Text :=
  let cut (s : Text) : Text :=
    if s.length > maxInmemlabelLength then s.take (maxInmemlabelLength - 1) else s
  let add (s k : Text) : Text :=
    if s.length + k.length < maxInmemlabelLength ∧ ¬ k <:+: s then s ++ " | ".toList ++ k else s
  if absorbed = [] then cut name else cut (absorbed.foldl add (cut name))

def Entry.label (e : Entry) : Text := e.name.getD []

def headName (lowmem : Bool) (e : Entry) (absorbed : List Entry) : Option Text :=
  if lowmem then e.name else some (mergedName e.label (absorbed.map Entry.label))

def blank (lowmem : Bool) (e : Entry) : Entry :=
  ⟨top, top, if lowmem then e.name else none, 0⟩

/-- The array, the number of blanked entries and the address counter of one pass. -/
structure Pass where
  entries : List Entry
  merged : ℕ
  numips : UInt32
  deriving DecidableEq, Repr

/-- `numips += ip_max - ip_min`, then one more unless the counter is at its top. -/
def countRange (numips : UInt32) (e : Entry) : UInt32 :=
  let n := numips + (e.ipMax - e.ipMin)
  if n < top then n + 1 else n

/-- The outer loop of `blocklist_merge`. After absorbing, its index stands on the
last blanked entry, and that entry is the one counted. -/
def mergeFrom (lowmem : Bool) : ℕ → UInt32 → List Entry → Pass
  | 0, numips, es => ⟨es, 0, numips⟩
  | _, numips, [] => ⟨[], 0, numips⟩
  | fuel + 1, numips, e :: es =>
      let r := reach e.ipMax es
      let absorbed := es.take r.1
      let blanks := absorbed.map (blank lowmem)
      let head : Entry :=
        { e with ipMax := if r.1 = 0 then e.ipMax else r.2, name := headName lowmem e absorbed }
      let counted := (blanks.getLast?).getD head
      let p := mergeFrom lowmem fuel (countRange numips counted) (es.drop r.1)
      ⟨head :: (blanks ++ p.entries), r.1 + p.merged, p.numips⟩

/-- `blocklist_merge`; `none` is a null name given to `strlen`. In each pass every
entry is measured, as a head or as an absorbed one. -/
def mergeLoop (lowmem : Bool) (qsort : List Entry → List Entry) :
    ℕ → Table → Option Table
  | 0, b => some b
  | fuel + 1, b =>
      if b.entries = [] then some { b with numips := 0 }
      else if lowmem = false ∧ b.entries.any (·.name.isNone) then none
      else
        let p := mergeFrom lowmem b.entries.length 0 b.entries
        if p.merged = 0 then some { b with entries := p.entries, numips := p.numips }
        else
          let count := b.entries.length - p.merged
          mergeLoop lowmem qsort fuel
            { b with entries := (qsort p.entries).take count, allocated := count,
                     numips := p.numips }

def blocklistMerge (lowmem : Bool) (qsort : List Entry → List Entry) (b : Table) :
    Option Table :=
  mergeLoop lowmem qsort (b.entries.length + 1) b

def blocklistFind (b : Table) (ip : UInt32) : Option Entry :=
  bsearch (blockKeyCompare ip) b.entries

end Dowse.Blocklist
