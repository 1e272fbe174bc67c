import Dowse.BlocklistLoading
import Dowse.NetworkAddresses
import Dowse.Scanf
import Dowse.Stdio
import Mathlib.Algebra.Group.Int.Defs

/-!
# The list files of pgld

`load_list` reads a file as text and, when that fails, as a binary P2B list. Both parsers append
as they go. A list that is neither leaves the table as it was.

A text line is tried in three formats. Each `sscanf` is compared with the number of its
conversions and each format ends with one, so only the lines that match a whole format matter.
The arithmetic of `int` wraps and the host has 64-bit pointers. A conversion that cannot be opened
is not noticed, since its descriptor is compared with zero as a pointer: it is a conversion that
fails for every label.

The binary parser reads labels into a fixed buffer and fetches them by an index from the file.
`Fault` records a write outside the buffer, a label without its terminator and a label that was
never read.
-/
namespace Dowse.Pgld
open CStrings Strtol Stdio Blocklist Scanf

def maxLineLength : ℕ := 350

section Text

def stripCrlf (str : Text) : Text := (cstr str).takeWhile fun c => c ≠ '\r' && c ≠ '\n'

/-- The texts that `%d.%d.%d.%d` converts. -/
structure Quad where
  a : Text
  b : Text
  c : Text
  d : Text
  deriving DecidableEq, Repr

def quad (s : Text) : Option (Quad × Text) := do
  let (a, s) ← int s
  let s ← char '.' s
  let (b, s) ← int s
  let s ← char '.' s
  let (c, s) ← int s
  let s ← char '.' s
  let (d, s) ← int s
  return (⟨a, b, c, d⟩, s)

def ip2int (i : Quad) : UInt32 :=
  UInt32.ofInt (intValue i.a * 2 ^ 24 + intValue i.b * 2 ^ 16 + intValue i.c * 2 ^ 8 +
    intValue i.d)

/-- `"%299[^:]:%d.%d.%d.%d-%d.%d.%d.%d"` -/
def p2pLine (buf : Text) : Option (Text × Quad × Quad) := do
  let (name, s) ← scanset (maxLabelLength - 1) (· ≠ ':') buf
  let s ← char ':' s
  let (ip1, s) ← quad s
  let s ← char '-' s
  let (ip2, _) ← quad s
  return (name, ip1, ip2)

/-- `"%d.%d.%d.%d %*[-,] %d.%d.%d.%d , %d , %299[^:]"` -/
def datLine (buf : Text) : Option (Quad × Quad × Text × Text) := do
  let (ip1, s) ← quad buf
  let s := space s
  let (_, s) ← scanset s.length (· ∈ ['-', ',']) s
  let (ip2, s) ← quad (space s)
  let s ← char ',' (space s)
  let (filterLevel, s) ← int (space s)
  let s ← char ',' (space s)
  let (name, _) ← scanset (maxLabelLength - 1) (· ≠ ':') (space s)
  return (ip1, ip2, filterLevel, name)

/-- `"%d.%d.%d.%d-%d.%d.%d.%d"` -/
def rangeLine (buf : Text) : Option (Quad × Quad) := do
  let (ip1, s) ← quad buf
  let s ← char '-' s
  let (ip2, _) ← quad s
  return (ip1, ip2)

/-- What the loop of `loadlist_ascii` appends for a line. -/
def lineEntry (buf : Text) : Option Range :=
  match p2pLine buf with
  | some (name, ip1, ip2) => some ⟨ip2int ip1, ip2int ip2, name⟩
  | none =>
      match datLine buf with
      | some (ip1, ip2, filterLevel, name) =>
          if intValue filterLevel ≤ 127 then some ⟨ip2int ip1, ip2int ip2, name⟩ else none
      | none => (rangeLine buf).map fun (ip1, ip2) => ⟨ip2int ip1, ip2int ip2, []⟩

def appendRange (lowmem : Bool) (iconv : Text → Option Text) (b : Table) (r : Range) : Table :=
  blocklistAppend lowmem iconv b r.ipMin r.ipMax r.name

/-- The loop of `loadlist_ascii`, with its counters of lines and of appended ranges. -/
def asciiLoop (lowmem : Bool) (iconv : Text → Option Text) :
    List Text → ℕ → ℕ → Table → ℤ × Table
  | [], _, ok, b => (if ok = 0 then -1 else 0, b)
  | buf :: bufs, total, ok, b =>
      if ok = 0 ∧ total + 1 > 100 then (-1, b)
      else
        match lineEntry (stripCrlf buf) with
        | some r => asciiLoop lowmem iconv bufs (total + 1) (ok + 1) (appendRange lowmem iconv b r)
        | none => asciiLoop lowmem iconv bufs (total + 1) ok b

def loadlistAscii (lowmem : Bool) (iconv : Text → Option Text) (file : Option Text)
    (b : Table) : ℤ × Table :=
  match file with
  | none => (-2, b)
  | some content => asciiLoop lowmem iconv (lines (maxLineLength - 1) content.length content) 0 0 b

end Text

section Binary

inductive Fault
  | write (index : ℕ)
  | unterminated
  | label (index : ℕ)
  deriving DecidableEq, Repr

/-- What the host provides: its byte order, which sizes can be allocated, and for a charset the
conversion to UTF-8. -/
structure Host where
  little : Bool
  malloc : ℕ → Bool
  malloc_max : ∀ size, 2 ^ 63 ≤ size → malloc size = false
  iconvOpen : Text → Text → Option Text

def byteText (bytes : List UInt8) : Text := bytes.map fun b => Char.ofNat b.toNat

/-- The returned length, the bytes written into a buffer of this size so far, and the rest of the
file. -/
def readCstr (size maxsize : ℕ) : List UInt8 → List UInt8 →
    Except Fault (ℤ × List UInt8 × List UInt8)
  | buf, [] =>
      if buf.length < size then .ok (-1, buf ++ [0], []) else .error (.write buf.length)
  | buf, c :: f =>
      if buf.length < size then
        if c = 0 then .ok (buf.length + 1, buf ++ [c], f)
        else if buf.length + 1 = maxsize then .ok (buf.length + 2, buf ++ [c], f)
        else readCstr size maxsize (buf ++ [c]) f
      else .error (.write buf.length)

/-- A label as a C string, where the build has names. -/
def useLabel (lowmem : Bool) (buf : List UInt8) : Except Fault Text :=
  if lowmem then .ok []
  else if 0 ∈ buf then .ok (cstr (byteText buf))
  else .error .unterminated

/-- `fread` of four bytes into a word. -/
def freadWord (little : Bool) : List UInt8 → Option (UInt32 × List UInt8)
  | a :: b :: c :: d :: f => some (loadWord little [a, b, c, d] 0, f)
  | _ => none

/-- `n < 0 || n > MAX_LINE_LENGTH` -/
def badLabel (n : ℤ) : Bool := n < 0 || n > maxLineLength

/-- The loop over the records of versions 1 and 2. -/
def recordLoop (lowmem little : Bool) (iconv : Text → Option Text) :
    ℕ → List UInt8 → Table → Except Fault Table
  | 0, _, b => .ok b
  | fuel + 1, f, b => do
      let (n, buf, f) ← readCstr maxLineLength maxLineLength [] f
      if badLabel n then pure b
      else
        match freadWord little f with
        | none => pure b
        | some (ip1, f) =>
            match freadWord little f with
            | none => pure b
            | some (ip2, f) => do
                let name ← useLabel lowmem buf
                recordLoop lowmem little iconv fuel f
                  (appendRange lowmem iconv b ⟨ntohl little ip1, ntohl little ip2, name⟩)

/-- The number of turns of `for (i = 0; i < nlabels; i++)`. -/
def labelTurns (nlabels : UInt32) : ℕ := if nlabels.toNat < 2 ^ 31 then nlabels.toNat else 0

/-- `sizeof(char*) * nlabels`, where a count from 2^31 on is a negative `int` and the product
wraps. -/
def labelSize (nlabels : UInt32) : ℕ :=
  if nlabels.toNat < 2 ^ 31 then 8 * nlabels.toNat else 2 ^ 64 - 8 * (2 ^ 32 - nlabels.toNat)

def readLabels (lowmem : Bool) : ℕ → List UInt8 →
    Except Fault (Option (List Text × List UInt8))
  | 0, f => .ok (some ([], f))
  | turns + 1, f => do
      let (n, buf, f) ← readCstr maxLineLength maxLineLength [] f
      if badLabel n then pure none
      else do
        let label ← useLabel lowmem buf
        let more ← readLabels lowmem turns f
        pure (more.map fun (labels, f) => (label :: labels, f))

/-- `labels[ntohl(idx)]`, where the build has names. -/
def fetchLabel (lowmem : Bool) (labels : List Text) (idx : UInt32) : Except Fault Text :=
  if lowmem then .ok []
  else
    match labels[idx.toNat]? with
    | some label => .ok label
    | none => .error (.label idx.toNat)

/-- The loop over the records of version 3. -/
def indexedLoop (lowmem little : Bool) (iconv : Text → Option Text) (nlabels : UInt32)
    (labels : List Text) : ℕ → List UInt8 → Table → Except Fault (ℤ × Table)
  | 0, _, b => .ok (0, b)
  | cnt + 1, f, b =>
      match freadWord little f with
      | none => .ok (-1, b)
      | some (idx, f) =>
          if ntohl little idx > nlabels then .ok (-1, b)
          else
            match freadWord little f with
            | none => .ok (-1, b)
            | some (ip1, f) =>
                match freadWord little f with
                | none => .ok (-1, b)
                | some (ip2, f) => do
                    let name ← fetchLabel lowmem labels (ntohl little idx)
                    indexedLoop lowmem little iconv nlabels labels cnt f
                      (appendRange lowmem iconv b ⟨ntohl little ip1, ntohl little ip2, name⟩)

/-- The case of version 3. -/
def loadVersion3 (host : Host) (lowmem : Bool) (f : List UInt8) (b : Table) :
    Except Fault (ℤ × Table) :=
  match freadWord host.little f with
  | none => .ok (-1, b)
  | some (cnt, f) =>
      let nlabels := ntohl host.little cnt
      if lowmem = false ∧ host.malloc (labelSize nlabels) = false then .ok (-1, b)
      else do
        let read ← readLabels lowmem (labelTurns nlabels) f
        match read with
        | none => pure (-1, b)
        | some (labels, f) =>
            match freadWord host.little f with
            | none => pure (0, b)
            | some (cnt, f) =>
                indexedLoop lowmem host.little (host.iconvOpen "UTF-8".toList) nlabels labels
                  (ntohl host.little cnt).toNat f b

/-- The first seven bytes of a P2B file. -/
def p2bHeader : List UInt8 := [255, 255, 255, 255, 80, 50, 66]

def loadlistBinary (host : Host) (lowmem : Bool) (file : Option (List UInt8)) (b : Table) :
    Except Fault (ℤ × Table) :=
  match file with
  | none => .ok (-1, b)
  | some content =>
      if content.take 7 = p2bHeader then
        match content.drop 7 with
        | [] => .ok (-1, b)
        | version :: f =>
            if version = 1 then do
              let b ← recordLoop lowmem host.little (host.iconvOpen "ISO8859-1".toList)
                f.length f b
              pure (0, b)
            else if version = 2 then do
              let b ← recordLoop lowmem host.little (host.iconvOpen "UTF-8".toList) f.length f b
              pure (0, b)
            else if version = 3 then loadVersion3 host lowmem f b
            else .ok (-1, b)
      else .ok (-1, b)

end Binary

/-- `load_list`. The file is opened for each parser; `none` is a file that cannot be opened, and
standard input is not found again as a file. -/
def loadList (host : Host) (lowmem : Bool) (first second : Option (List UInt8))
    (charset : Option Text) (b : Table) : Except Fault (ℤ × Table) :=
  let prevcount := b.entries.length
  let (ret, b) := loadlistAscii lowmem (host.iconvOpen (charset.getD "ISO8859-1".toList))
    (first.map byteText) b
  if ret = 0 then .ok (0, b)
  else if ret = -2 then .ok (ret, b)
  else
    let b := blocklistClear b prevcount
    let prevcount := b.entries.length
    do
      let (ret, b) ← loadlistBinary host lowmem second b
      if ret = 0 then pure (0, b)
      else pure (-1, blocklistClear b prevcount)

theorem bind_eq_ok_iff {ε α β : Type} {x : Except ε α} {f : α → Except ε β} {r : β} :
    (x >>= f) = .ok r ↔ ∃ a, x = .ok a ∧ f a = .ok r := by
  cases x with
  | error e => exact ⟨nofun, nofun⟩
  | ok a =>
      constructor
      · exact fun h => ⟨a, rfl, h⟩
      · rintro ⟨a', ha, h⟩
        cases ha
        exact h

theorem bind_eq_error_iff {ε α β : Type} {x : Except ε α} {f : α → Except ε β} {e : ε} :
    (x >>= f) = .error e ↔ x = .error e ∨ ∃ a, x = .ok a ∧ f a = .error e := by
  cases x with
  | error e' =>
      constructor
      · intro h
        cases h
        exact Or.inl rfl
      · rintro (h | ⟨a, ha, -⟩)
        · cases h
          rfl
        · cases ha
  | ok a =>
      constructor
      · exact fun h => Or.inr ⟨a, rfl, h⟩
      · rintro (h | ⟨a', ha, h⟩)
        · cases h
        · cases ha
          exact h

/-- The entries stay and others may follow. -/
def Grows (b b' : Table) : Prop := b.entries <+: b'.entries

theorem Grows.refl (b : Table) : Grows b b := List.prefix_rfl

theorem Grows.trans {b b' b'' : Table} (h : Grows b b') (h' : Grows b' b'') : Grows b b'' :=
  List.IsPrefix.trans h h'

section Growth

variable {lowmem little : Bool} {iconv : Text → Option Text} {b b' : Table} {f : List UInt8}

theorem grows_appendRange (r : Range) : Grows b (appendRange lowmem iconv b r) :=
  List.prefix_append _ _

theorem grows_asciiLoop (bufs : List Text) (total ok : ℕ) :
    Grows b (asciiLoop lowmem iconv bufs total ok b).2 := by
  induction bufs generalizing total ok b with
  | nil => exact Grows.refl b
  | cons buf bufs ih =>
      simp only [asciiLoop]
      split_ifs
      · exact Grows.refl b
      · cases lineEntry (stripCrlf buf) with
        | none => exact ih _ _
        | some r => exact (grows_appendRange r).trans (ih _ _)

theorem grows_loadlistAscii (file : Option Text) :
    Grows b (loadlistAscii lowmem iconv file b).2 := by
  cases file with
  | none => exact Grows.refl b
  | some content => exact grows_asciiLoop _ _ _

/-- Only a file that cannot be opened gives -2, and nothing is appended then. -/
theorem asciiLoop_ne (bufs : List Text) (total ok : ℕ) :
    (asciiLoop lowmem iconv bufs total ok b).1 ≠ -2 := by
  induction bufs generalizing total ok b with
  | nil =>
      simp only [asciiLoop]
      split_ifs <;> simp
  | cons buf bufs ih =>
      simp only [asciiLoop]
      split_ifs
      · simp
      · cases lineEntry (stripCrlf buf) with
        | none => exact ih _ _
        | some r => exact ih _ _

theorem loadlistAscii_missing {file : Option Text}
    (h : (loadlistAscii lowmem iconv file b).1 = -2) :
    (loadlistAscii lowmem iconv file b).2 = b := by
  cases file with
  | none => rfl
  | some content => exact absurd h (asciiLoop_ne _ _ _)

theorem grows_recordLoop {fuel : ℕ} (h : recordLoop lowmem little iconv fuel f b = .ok b') :
    Grows b b' := by
  induction fuel generalizing f b with
  | zero =>
      cases h
      exact Grows.refl _
  | succ fuel ih =>
      rw [recordLoop, bind_eq_ok_iff] at h
      obtain ⟨⟨n, buf, f⟩, -, h⟩ := h
      dsimp only at h
      split at h
      · cases h
        exact Grows.refl _
      · split at h
        · cases h
          exact Grows.refl _
        · split at h
          · cases h
            exact Grows.refl _
          · obtain ⟨name, -, h⟩ := bind_eq_ok_iff.mp h
            exact (grows_appendRange _).trans (ih h)

theorem grows_indexedLoop {nlabels : UInt32} {labels : List Text} {cnt : ℕ} {ret : ℤ}
    (h : indexedLoop lowmem little iconv nlabels labels cnt f b = .ok (ret, b')) :
    Grows b b' := by
  induction cnt generalizing f b with
  | zero =>
      cases h
      exact Grows.refl _
  | succ cnt ih =>
      rw [indexedLoop] at h
      split at h
      · cases h
        exact Grows.refl _
      · split_ifs at h
        · cases h
          exact Grows.refl _
        · split at h
          · cases h
            exact Grows.refl _
          · split at h
            · cases h
              exact Grows.refl _
            · obtain ⟨name, -, h⟩ := bind_eq_ok_iff.mp h
              exact (grows_appendRange _).trans (ih h)

theorem grows_loadVersion3 {host : Host} {ret : ℤ}
    (h : loadVersion3 host lowmem f b = .ok (ret, b')) : Grows b b' := by
  rw [loadVersion3] at h
  split at h
  · cases h
    exact Grows.refl _
  · dsimp only at h
    split_ifs at h
    · cases h
      exact Grows.refl _
    · obtain ⟨read, -, h⟩ := bind_eq_ok_iff.mp h
      cases read with
      | none =>
          cases h
          exact Grows.refl _
      | some read =>
          dsimp only at h
          split at h
          · cases h
            exact Grows.refl _
          · exact grows_indexedLoop h

theorem grows_loadlistBinary {host : Host} {file : Option (List UInt8)} {ret : ℤ}
    (h : loadlistBinary host lowmem file b = .ok (ret, b')) : Grows b b' := by
  cases file with
  | none =>
      cases h
      exact Grows.refl _
  | some content =>
      simp only [loadlistBinary] at h
      split_ifs at h with hheader
      · cases hdrop : content.drop 7 with
        | nil =>
            rw [hdrop] at h
            cases h
            exact Grows.refl _
        | cons version f =>
            rw [hdrop] at h
            dsimp only at h
            split_ifs at h
            · obtain ⟨b'', hloop, h⟩ := bind_eq_ok_iff.mp h
              cases h
              exact grows_recordLoop hloop
            · obtain ⟨b'', hloop, h⟩ := bind_eq_ok_iff.mp h
              cases h
              exact grows_recordLoop hloop
            · exact grows_loadVersion3 h
            · cases h
              exact Grows.refl _
      · cases h
        exact Grows.refl _

/-- Clearing from the old count undoes what was appended. -/
theorem Grows.clear (h : Grows b b') :
    (blocklistClear b' b.entries.length).entries = b.entries := by
  rw [blocklistClear]
  split_ifs with hzero
  · rw [List.length_eq_zero_iff.mp hzero]
    rfl
  · exact (List.prefix_iff_eq_take.mp h).symm

end Growth

/-- A list that fails to load leaves the entries of the table as they were. -/
theorem loadList_failed {host : Host} {lowmem : Bool} {first second : Option (List UInt8)}
    {charset : Option Text} {b b' : Table} {ret : ℤ}
    (h : loadList host lowmem first second charset b = .ok (ret, b')) (hret : ret ≠ 0) :
    b'.entries = b.entries := by
  simp only [loadList] at h
  split_ifs at h with hzero hmissing
  · cases h
    exact absurd rfl hret
  · cases h
    rw [loadlistAscii_missing hmissing]
  · -- the first clear restores the entries, so the second one starts from the same count
    have hclear := (@grows_loadlistAscii lowmem
      (host.iconvOpen (charset.getD "ISO8859-1".toList)) b (first.map byteText)).clear
    obtain ⟨⟨ret', b''⟩, hbinary, h⟩ := bind_eq_ok_iff.mp h
    dsimp only at h
    split_ifs at h with hret'
    · cases h
      exact absurd rfl hret
    · cases h
      exact (grows_loadlistBinary hbinary).clear.trans hclear

/-- A P2B list of version 3 that ends behind the first of its two records: the appended range is
taken back. -/
theorem loadList_failed_truncated :
    let host : Host := ⟨true, (· < 2 ^ 63), by simp, fun _ => some⟩
    let file := p2bHeader ++ [3, 0, 0, 0, 1, 97, 0, 0, 0, 0, 2, 0, 0, 0, 0, 1, 2, 3, 4, 1, 2, 3, 9]
    let b := blocklistAppend false some blocklistInit 5 9 ['x']
    ∃ ret b', loadList host false (some file) (some file) none b = .ok (ret, b') ∧ ret ≠ 0 ∧
      b'.entries = b.entries := by
  intro host file b
  have h : loadList host false (some file) (some file) none b =
      .ok (-1, ⟨[⟨5, 9, some ['x'], 0⟩], 1, 1, 0⟩) := by decide +kernel
  exact ⟨-1, _, h, by decide, loadList_failed h (by decide)⟩

end Dowse.Pgld
