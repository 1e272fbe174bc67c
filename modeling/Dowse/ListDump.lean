import Dowse.BlocklistCanonical
import Dowse.ListGrammar
import Dowse.ListText
import Dowse.Splitting
import Mathlib.Data.Nat.Digits.Defs

/-!
# Dumping a merged list and loading it again

With the option `-m` the merged list is printed, one line for each entry. Without names a line is
a bare range, which the text parser reads back. With names it is a name, a colon and the range.
That line is read back if the name is not empty and has no colon and no end of line in it. A bare
range has the empty name, and its line is not accepted in any form.
-/
namespace Dowse.Pgld
open CStrings Strtol Stdio Blocklist Scanf Splitting

section Dump

/-- A printed line without its newline. -/
def entryText (lowmem : Bool) (e : Entry) : Text :=
  (if lowmem then [] else printed e.name ++ [':']) ++ (int2ip e.ipMin ++ '-' :: int2ip e.ipMax)

def blocklistDump (lowmem : Bool) (b : Table) : Text :=
  b.entries.flatMap fun e => entryText lowmem e ++ ['\n']

/-- The lines of the dump. A name may have newlines of its own. -/
def dumpLines (lowmem : Bool) (b : Table) : List Text :=
  b.entries.flatMap fun e => (entryText lowmem e).splitOn '\n'

theorem splitOn_flatMap (es : List Entry) (text : Entry → Text) :
    (es.flatMap fun e => text e ++ ['\n']).splitOn '\n' =
      (es.flatMap fun e => (text e).splitOn '\n') ++ [[]] := by
  induction es with
  | nil => rfl
  | cons e es ih =>
      rw [List.flatMap_cons, List.flatMap_cons, List.append_assoc, List.singleton_append,
        List.splitOn_append_cons_self, ih, List.append_assoc]

theorem splitOn_blocklistDump (lowmem : Bool) (b : Table) :
    (blocklistDump lowmem b).splitOn '\n' = dumpLines lowmem b ++ [[]] :=
  splitOn_flatMap _ _

theorem fileRanges_blocklistDump (lowmem : Bool) (b : Table) :
    fileRanges (blocklistDump lowmem b) = (dumpLines lowmem b).filterMap lineRange := by
  rw [fileRanges, splitOn_blocklistDump, List.filterMap_append]
  simp [lineRange_nil]

theorem earlyMatch_blocklistDump (lowmem : Bool) (b : Table) :
    EarlyMatch (blocklistDump lowmem b) ↔
      ∃ line ∈ (dumpLines lowmem b).take 100, (lineRange line).isSome := by
  rw [EarlyMatch, splitOn_blocklistDump, List.take_append]
  constructor
  · rintro ⟨line, hline, hsome⟩
    rcases List.mem_append.mp hline with hline | hline
    · exact ⟨line, hline, hsome⟩
    · rw [List.mem_singleton.mp (List.mem_of_mem_take hline), lineRange_nil] at hsome
      cases hsome
  · rintro ⟨line, hline, hsome⟩
    exact ⟨line, List.mem_append_left _ hline, hsome⟩

end Dump

section Addresses

/-- The decimal octets of an address. -/
def octets (ip : UInt32) : Quad :=
  ⟨Nat.toDigits 10 (ip >>> 24).toUInt8.toNat, Nat.toDigits 10 (ip >>> 16).toUInt8.toNat,
    Nat.toDigits 10 (ip >>> 8).toUInt8.toNat, Nat.toDigits 10 ip.toUInt8.toNat⟩

theorem int2ip_eq (ip : UInt32) : int2ip ip = (octets ip).text := by
  simp [int2ip, dotted, octets, Quad.text, List.intercalate]

theorem decimal_toDigits (n : ℕ) : decimal (Nat.toDigits 10 n) = n :=
  Nat.ofDigitChars_toDigits (by decide) (by decide)

theorem octet_toDigits (x : UInt8) : Octet (Nat.toDigits 10 x.toNat) where
  digits _ hc := Nat.isDigit_of_mem_toDigits (by decide) (by decide) hc
  ne_nil := Nat.toDigits_ne_nil
  le := by
    rw [decimal_toDigits]
    have := x.toNat_lt
    omega

theorem octets_plain (ip : UInt32) : (octets ip).Plain :=
  ⟨octet_toDigits _, octet_toDigits _, octet_toDigits _, octet_toDigits _⟩

theorem Octet.isInt {t : Text} (h : Octet t) : IsInt t :=
  ⟨[], [], t, rfl, by simp, Or.inl rfl, h.digits, h.ne_nil⟩

theorem Quad.Plain.isInts {q : Quad} (h : q.Plain) : q.IsInts :=
  ⟨h.1.isInt, h.2.1.isInt, h.2.2.1.isInt, h.2.2.2.isInt⟩

/-- A printed address is read as itself. -/
theorem ip2int_octets (ip : UInt32) : ip2int (octets ip) = ip := by
  apply UInt32.toNat_inj.mp
  rw [(octets_plain ip).ip2int]
  simp only [Quad.value, octets, decimal_toDigits, UInt32.toNat_toUInt8, UInt32.toNat_shiftRight,
    Nat.shiftRight_eq_div_pow]
  have h8 : UInt32.toNat 8 % 32 = 8 := rfl
  have h16 : UInt32.toNat 16 % 32 = 16 := rfl
  have h24 : UInt32.toNat 24 % 32 = 24 := rfl
  have hlt := ip.toNat_lt
  rw [h8, h16, h24]
  omega

/-- The characters of a printed address. -/
theorem mem_int2ip {ip : UInt32} {c : Char} (h : c ∈ int2ip ip) : c.isDigit ∨ c = '.' := by
  obtain ⟨ha, hb, hc, hd⟩ := octets_plain ip
  rw [int2ip_eq, Quad.text] at h
  simp only [List.mem_append, List.mem_cons] at h
  rcases h with h | h | h | h | h | h | h
  · exact Or.inl (ha.digits c h)
  · exact Or.inr h
  · exact Or.inl (hb.digits c h)
  · exact Or.inr h
  · exact Or.inl (hc.digits c h)
  · exact Or.inr h
  · exact Or.inl (hd.digits c h)

theorem length_int2ip (ip : UInt32) : (int2ip ip).length ≤ 15 := by
  have hlen : ∀ x : UInt8, (Nat.toDigits 10 x.toNat).length ≤ 3 := by
    intro x
    exact Nat.toDigits_length 10 x.toNat 3 (by decide) (Nat.lt_of_lt_of_le x.toNat_lt (by decide))
  have h1 := hlen (ip >>> 24).toUInt8
  have h2 := hlen (ip >>> 16).toUInt8
  have h3 := hlen (ip >>> 8).toUInt8
  have h4 := hlen ip.toUInt8
  rw [int2ip_eq, Quad.text]
  simp only [octets, List.length_append, List.length_cons]
  omega

end Addresses

section Lines

theorem stripCrlf_eq_self {line : Text} (h : ∀ c ∈ line, c ≠ '\x00' ∧ c ≠ '\r' ∧ c ≠ '\n') :
    stripCrlf line = line := by
  rw [stripCrlf, cstr_eq_self fun hmem => (h _ hmem).1 rfl, List.takeWhile_eq_self_iff]
  intro c hc
  simp [(h c hc).2]

theorem nul_notMem_printed (name : Option Text) : '\x00' ∉ printed name := by
  cases name with
  | none => decide
  | some s => exact nul_notMem_cstr s

/-- A printed range has digits, dots and a dash. -/
theorem mem_range {e : Entry} {c : Char} (h : c ∈ int2ip e.ipMin ++ '-' :: int2ip e.ipMax) :
    c.isDigit ∨ c = '.' ∨ c = '-' := by
  rcases List.mem_append.mp h with h | h
  · exact (mem_int2ip h).imp_right Or.inl
  · rcases List.mem_cons.mp h with rfl | h
    · exact Or.inr (Or.inr rfl)
    · exact (mem_int2ip h).imp_right Or.inl

theorem range_plain {e : Entry} {c : Char} (h : c ∈ int2ip e.ipMin ++ '-' :: int2ip e.ipMax) :
    c ≠ '\x00' ∧ c ≠ '\r' ∧ c ≠ '\n' ∧ c ≠ ':' ∧ c ≠ ',' := by
  rcases mem_range h with hdigit | rfl | rfl
  · refine ⟨?_, ?_, ?_, ?_, ?_⟩ <;>
    · rintro rfl
      exact absurd hdigit (by decide)
  · decide
  · decide

theorem startsQuad_octets (ip : UInt32) : StartsQuad (int2ip ip) (octets ip) [] := by
  refine ⟨(octets_plain ip).isInts, ?_, noDigit_nil⟩
  rw [List.append_nil, int2ip_eq]

theorem P2pForm.colon_mem {line name : Text} {ip1 ip2 : Quad} (h : P2pForm line name ip1 ip2) :
    ':' ∈ line := by
  obtain ⟨s, rest, rfl, -⟩ := h
  simp

theorem DatForm.comma_mem {line level name : Text} {ip1 ip2 : Quad}
    (h : DatForm line ip1 ip2 level name) : ',' ∈ line := by
  obtain ⟨s₁, s₂, s₃, s₄, s₅, s₆, s₇, s₈, s₉, s₁₀, sep, rest, ⟨-, rfl, -⟩, ⟨w₁, rfl, -⟩,
    ⟨-, rfl, -⟩, ⟨w₂, rfl, -⟩, ⟨-, rfl, -⟩, ⟨w₃, rfl, -⟩, -⟩ := h
  simp

/-- A line of the build without names is read as its range. -/
theorem readAs_range (e : Entry) :
    ReadAs (stripCrlf (entryText true e)) [] (octets e.ipMin) (octets e.ipMax) := by
  have hchars : ∀ c ∈ entryText true e, c ≠ '\x00' ∧ c ≠ '\r' ∧ c ≠ '\n' ∧ c ≠ ':' ∧ c ≠ ',' :=
    fun c hc => range_plain hc
  rw [stripCrlf_eq_self fun c hc => ⟨(hchars c hc).1, (hchars c hc).2.1, (hchars c hc).2.2.1⟩]
  apply ReadAs.range
  · exact fun name ip1 ip2 h => (hchars _ h.colon_mem).2.2.2.1 rfl
  · exact fun ip1 ip2 level name h => (hchars _ h.comma_mem).2.2.2.2 rfl
  · exact ⟨int2ip e.ipMax, [], by rw [← int2ip_eq]; rfl, (octets_plain _).isInts,
      startsQuad_octets _⟩

/-- A name that is read back: it is not empty and has no colon and no end of line. -/
def PlainName (e : Entry) : Prop :=
  printed e.name ≠ [] ∧ ∀ c ∈ printed e.name, c ≠ ':' ∧ c ≠ '\r' ∧ c ≠ '\n'

instance (e : Entry) : Decidable (PlainName e) := inferInstanceAs (Decidable (_ ∧ _))

theorem PlainName.chars {e : Entry} (h : PlainName e) {c : Char} (hc : c ∈ entryText false e) :
    c ≠ '\x00' ∧ c ≠ '\r' ∧ c ≠ '\n' := by
  rcases List.mem_append.mp hc with hc | hc
  · rcases List.mem_append.mp hc with hc | hc
    · refine ⟨?_, (h.2 c hc).2⟩
      rintro rfl
      exact nul_notMem_printed _ hc
    · rw [List.mem_singleton.mp hc]
      decide
  · exact ⟨(range_plain hc).1, (range_plain hc).2.1, (range_plain hc).2.2.1⟩

/-- A line with such a name is read as its range. -/
theorem readAs_plain {e : Entry} (h : PlainName e)
    (hlen : (printed e.name).length < maxLabelLength) :
    ReadAs (stripCrlf (entryText false e)) (printed e.name) (octets e.ipMin) (octets e.ipMax) := by
  rw [stripCrlf_eq_self fun c hc => h.chars hc]
  apply ReadAs.p2p
  refine ⟨int2ip e.ipMax, [], ?_, h.1, fun hmem => (h.2 _ hmem).1 rfl, hlen,
    (octets_plain _).isInts, startsQuad_octets _⟩
  rw [← int2ip_eq]
  simp [entryText]

theorem lineRange_eq_some_iff {line : Text} {r : Range} : lineRange line = some r ↔
    ∃ name ip1 ip2, ReadAs (stripCrlf line) name ip1 ip2 ∧
      r = ⟨ip2int ip1, ip2int ip2, name⟩ :=
  lineEntry_eq_some_iff

theorem lineRange_range (e : Entry) :
    lineRange (entryText true e) = some ⟨e.ipMin, e.ipMax, []⟩ :=
  lineRange_eq_some_iff.mpr ⟨_, _, _, readAs_range e, by rw [ip2int_octets, ip2int_octets]⟩

theorem dumpLines_lowmem (b : Table) : dumpLines true b = b.entries.map (entryText true) := by
  have hline : ∀ e : Entry, (entryText true e).splitOn '\n' = [entryText true e] := by
    intro e
    exact List.splitOn_eq_singleton fun hmem => (range_plain hmem).2.2.1 rfl
  simp only [dumpLines, hline]
  exact List.map_eq_flatMap.symm

/-- Without names the lines of the dump are its ranges. -/
theorem filterMap_dumpLines_lowmem (b : Table) :
    (dumpLines true b).filterMap lineRange = b.entries.map fun e => ⟨e.ipMin, e.ipMax, []⟩ := by
  have hfun : lineRange ∘ entryText true =
      some ∘ fun e : Entry => (⟨e.ipMin, e.ipMax, []⟩ : Range) := funext lineRange_range
  rw [dumpLines_lowmem, List.filterMap_map, hfun, List.filterMap_eq_map]

end Lines

section Loading

/-- A list file as its two openings find it, and its charset. -/
structure BlockFile where
  first : Option (List UInt8)
  second : Option (List UInt8)
  charset : Option Text

/-- The files one after the other, whatever `load_list` returns. -/
def loadFiles (host : Host) (lowmem : Bool) : List BlockFile → Table → Except Fault Table
  | [], b => .ok b
  | file :: files, b => do
      let (_, b) ← loadList host lowmem file.first file.second file.charset b
      loadFiles host lowmem files b

/-- `load_all_lists` from its files; `none` is a null name read by the merge. -/
def mergeFiles (host : Host) (lowmem : Bool) (qsort : List Entry → List Entry)
    (files : List BlockFile) : Except Fault (Option Table) := do
  let b ← loadFiles host lowmem files blocklistInit
  pure (blocklistMerge lowmem qsort (blocklistSort qsort b))

/-- Loading the dump as text into an empty list, then sorting and merging, blocks the same
addresses, whatever the sort does with equal lower ends. -/
def Reloads (lowmem : Bool) (iconv : Text → Option Text) (b : Table) : Prop :=
  ∀ qsort, SortsByMin qsort → ∃ b', blocklistMerge lowmem qsort (blocklistSort qsort
      (loadlistAscii lowmem iconv (some (blocklistDump lowmem b)) blocklistInit).2) = some b' ∧
    ∀ ip, (blocklistFind b' ip).isSome ↔ (blocklistFind b ip).isSome

/-- A line has one of the forms, with these ends of its range. -/
def Spells (line : Text) (lo hi : UInt32) : Prop :=
  ∃ name ip1 ip2, ReadAs (stripCrlf line) name ip1 ip2 ∧ ip2int ip1 = lo ∧ ip2int ip2 = hi

/-- A line that is printed for the entry spells a range with this address. -/
def Spelled (e : Entry) (ip : UInt32) : Prop :=
  ∃ line ∈ (entryText false e).splitOn '\n', ∃ lo hi, Spells line lo hi ∧ lo ≤ ip ∧ ip ≤ hi

/-- The ranges that lines spell, in order. -/
inductive Rereads : List Text → List (UInt32 × UInt32) → Prop
  | nil : Rereads [] []
  | spelled {line : Text} {lines : List Text} {lo hi : UInt32} {ranges : List (UInt32 × UInt32)} :
      Spells line lo hi → Rereads lines ranges → Rereads (line :: lines) ((lo, hi) :: ranges)
  | skipped {line : Text} {lines : List Text} {ranges : List (UInt32 × UInt32)} :
      (∀ lo hi, ¬ Spells line lo hi) → Rereads lines ranges → Rereads (line :: lines) ranges

/-- One of the first hundred lines of the dump spells a range. -/
def Early (b : Table) : Prop :=
  ∃ line ∈ (dumpLines false b).take 100, ∃ lo hi, Spells line lo hi

/-- The names that are not read back as names do no harm: the addresses of their entries are
spelled by some line, their lines spell no other addresses, and the ranges that all lines spell
are harmless for a merge. -/
structure Respells (b : Table) : Prop where
  kept : ∀ e ∈ b.entries, ¬ PlainName e → ∀ ip, e.Has ip → ∃ f ∈ b.entries, Spelled f ip
  added : ∀ e ∈ b.entries, ¬ PlainName e → ∀ ip, Spelled e ip → Listed b.entries ip
  harmless : ∃ ranges, Rereads (dumpLines false b) ranges ∧
    NameSafe (ranges.map fun r => ⟨r.1, r.2, none, 0⟩)

/-- When a dump can be loaded again. -/
def Reloadable (lowmem : Bool) (b : Table) : Prop :=
  match lowmem with
  | true => Safe true b.entries
  | false => (Early b ∧ Respells b) ∨ (¬ Early b ∧ ∀ ip, ¬ Listed b.entries ip)

end Loading

section Reload

variable {lowmem : Bool} {iconv : Text → Option Text} {b : Table}

theorem spells_iff {line : Text} {lo hi : UInt32} :
    Spells line lo hi ↔ ∃ r, lineRange line = some r ∧ r.ipMin = lo ∧ r.ipMax = hi := by
  simp only [lineRange_eq_some_iff]
  constructor
  · rintro ⟨name, ip1, ip2, hread, hlo, hhi⟩
    exact ⟨_, ⟨name, ip1, ip2, hread, rfl⟩, hlo, hhi⟩
  · rintro ⟨_, ⟨name, ip1, ip2, hread, rfl⟩, hlo, hhi⟩
    exact ⟨name, ip1, ip2, hread, hlo, hhi⟩

theorem exists_spells_iff {line : Text} :
    (∃ lo hi, Spells line lo hi) ↔ (lineRange line).isSome := by
  simp only [spells_iff, Option.isSome_iff_exists]
  constructor
  · rintro ⟨lo, hi, r, hr, -⟩
    exact ⟨r, hr⟩
  · rintro ⟨r, hr⟩
    exact ⟨_, _, r, hr, rfl, rfl⟩

theorem early_iff : Early b ↔ EarlyMatch (blocklistDump false b) := by
  simp only [Early, earlyMatch_blocklistDump, exists_spells_iff]

/-- The ranges that lines spell are those that the parser appends. -/
theorem rereads_iff {lines : List Text} {ranges : List (UInt32 × UInt32)} :
    Rereads lines ranges ↔
      ranges = (lines.filterMap lineRange).map fun r => (r.ipMin, r.ipMax) := by
  constructor
  · intro h
    induction h with
    | nil => rfl
    | spelled hline _ ih =>
        obtain ⟨r, hr, rfl, rfl⟩ := spells_iff.mp hline
        rw [List.filterMap_cons_some hr, List.map_cons, ih]
    | skipped hline _ ih =>
        have hnone : ¬ (lineRange _).isSome := fun h =>
          (exists_spells_iff.mpr h).elim fun lo hlo => hlo.elim fun hi => hline lo hi
        rw [List.filterMap_cons_none (Option.not_isSome_iff_eq_none.mp hnone), ih]
  · rintro rfl
    induction lines with
    | nil => exact .nil
    | cons line lines ih =>
        cases hline : lineRange line with
        | none =>
            rw [List.filterMap_cons_none hline]
            refine .skipped (fun lo hi h => ?_) ih
            have hsome := exists_spells_iff.mp ⟨lo, hi, h⟩
            rw [hline] at hsome
            cases hsome
        | some r =>
            rw [List.filterMap_cons_some hline, List.map_cons]
            exact .spelled (spells_iff.mpr ⟨r, hline, rfl, rfl⟩) ih

/-- What is listed by the ranges of the lines. -/
theorem listed_dumpLines_iff (ip : UInt32) :
    Listed (((dumpLines false b).filterMap lineRange).map Range.entry) ip ↔
      ∃ e ∈ b.entries, Spelled e ip := by
  rw [listed_map_entry]
  simp only [List.mem_filterMap, dumpLines, List.mem_flatMap, Spelled, spells_iff]
  constructor
  · rintro ⟨r, ⟨line, ⟨e, he, hline⟩, hr⟩, hhas⟩
    exact ⟨e, he, line, hline, _, _, ⟨r, hr, rfl, rfl⟩, hhas⟩
  · rintro ⟨e, he, line, hline, lo, hi, ⟨r, hr, rfl, rfl⟩, hhas⟩
    exact ⟨r, ⟨line, ⟨e, he, hline⟩, hr⟩, hhas⟩

/-- The lookups after a reload see what the merged ranges list. -/
theorem reloads_iff (hapart : b.entries.Pairwise Apart) {ranges : List Range}
    (hload : (loadlistAscii lowmem iconv (some (blocklistDump lowmem b)) blocklistInit).2 =
      appendRanges lowmem iconv ranges) :
    Reloads lowmem iconv b ↔ ∀ qsort, SortsByMin qsort → ∃ b',
      loadAllLists lowmem qsort iconv ranges = some b' ∧
        ∀ ip, Listed b'.entries ip ↔ Listed b.entries ip := by
  rw [Reloads, hload]
  refine forall₂_congr fun qsort hq => exists_congr fun b' => and_congr_right fun hb' => ?_
  have hapart' := (mergeLoop_covers hq (hq.sorted _) (Nat.lt_succ_self _) hb').1
  simp only [blocklistFind_isSome_iff hapart, blocklistFind_isSome_iff hapart']

theorem exists_merged_named_iff {ranges : List Range} (S : UInt32 → Prop) :
    (∀ qsort, SortsByMin qsort → ∃ b', loadAllLists false qsort iconv ranges = some b' ∧
      ∀ ip, Listed b'.entries ip ↔ S ip) ↔
    NameSafe (ranges.map Range.entry) ∧ ∀ ip, Listed (ranges.map Range.entry) ip ↔ S ip := by
  constructor
  · intro h
    have hsafe : NameSafe (ranges.map Range.entry) := by
      by_contra hharmful
      obtain ⟨b', hb', -⟩ := h sortBlankFirst (sortsByMin_sortBy WiderBlank)
      cases (loadAllLists_null hharmful).symm.trans hb'
    obtain ⟨b', hb', hlisted⟩ := h sortWidestFirst (sortsByMin_sortBy Wider)
    obtain ⟨c, hc, hm, -⟩ := @loadAllLists_safe false _ (sortsByMin_sortBy Wider) iconv ranges
      (Or.inr hsafe)
    obtain rfl : c = b' := Option.some.inj (hc.symm.trans hb')
    exact ⟨hsafe, fun ip => (hm.listed ip).symm.trans (hlisted ip)⟩
  · rintro ⟨hsafe, hlisted⟩ qsort hq
    obtain ⟨b', hb', hm, -⟩ := @loadAllLists_safe false _ hq iconv ranges (Or.inr hsafe)
    exact ⟨b', hb', fun ip => (hm.listed ip).trans (hlisted ip)⟩

theorem exists_merged_lowmem_iff {ranges : List Range} {es : List Entry}
    (hends : ends (ranges.map Range.entry) = ends es) :
    (∀ qsort, SortsByMin qsort → ∃ b', loadAllLists true qsort iconv ranges = some b' ∧
      ∀ ip, Listed b'.entries ip ↔ Listed es ip) ↔ Safe true es := by
  have hlisted : ∀ ip, Listed (ranges.map Range.entry) ip ↔ Listed es ip := by
    intro ip
    rw [listed_iff_ends, hends, ← listed_iff_ends]
  rw [← safe_congr hends]
  constructor
  · intro h
    by_contra hharmful
    rw [safe_true_iff] at hharmful
    obtain ⟨c, hc, hcovered, hnot⟩ := @unlisted_top_of_harmful iconv ranges hharmful
    obtain ⟨b', hb', hsame⟩ := h sortWidestFirst (sortsByMin_sortBy Wider)
    obtain rfl : c = b' := Option.some.inj (hc.symm.trans hb')
    obtain ⟨ip, hip, hip'⟩ := mem_covered_nonemptyRanges.mp hcovered
    exact hnot (mem_addresses.mpr ⟨ip, hip, (hlisted ip).mpr ((hsame ip).mp hip')⟩)
  · intro hsafe qsort hq
    obtain ⟨b', hb', hm, -⟩ := @loadAllLists_safe true _ hq iconv ranges hsafe
    exact ⟨b', hb', fun ip => (hm.listed ip).trans (hlisted ip)⟩

/-- A merged name has at most 64 characters. -/
theorem length_printed (h : Settled false b) {e : Entry} (he : e ∈ b.entries) :
    (printed e.name).length ≤ maxInmemlabelLength := by
  have hself : relabel false e = e :=
    List.map_inj_left.mp (h.names.trans (List.map_id b.entries).symm) e he
  have hname : e.name = some (mergedName e.label []) := by
    conv_lhs => rw [← hself]
    rfl
  have hcut : (mergedName e.label []).length ≤ maxInmemlabelLength := by
    simp only [mergedName, if_true]
    split_ifs with hlong
    · rw [List.length_take]
      omega
    · omega
  rw [hname]
  exact (List.takeWhile_prefix _).length_le.trans hcut

/-- The lines of a dump are short. -/
theorem dump_short (h : Settled lowmem b) :
    ∀ line ∈ (blocklistDump lowmem b).splitOn '\n', line.length < maxLineLength - 1 := by
  intro line hline
  rw [splitOn_blocklistDump] at hline
  rcases List.mem_append.mp hline with hline | hline
  · obtain ⟨e, he, hline⟩ := List.mem_flatMap.mp hline
    have hle := (sublist_of_mem_splitOn hline).length_le
    have hmin := length_int2ip e.ipMin
    have hmax := length_int2ip e.ipMax
    have hname : (if lowmem then [] else printed e.name ++ [':']).length ≤ 65 := by
      cases lowmem with
      | true => exact Nat.zero_le _
      | false =>
          have hprinted := length_printed h he
          rw [maxInmemlabelLength] at hprinted
          simp only [Bool.false_eq_true, if_false, List.length_append, List.length_singleton]
          omega
    simp only [entryText, List.length_append, List.length_cons] at hle
    unfold maxLineLength
    omega
  · rw [List.mem_singleton.mp hline]
    decide

/-- An entry with a plain name is spelled as its range. -/
theorem spelled_plain_iff {e : Entry} (h : PlainName e)
    (hlen : (printed e.name).length < maxLabelLength) (ip : UInt32) : Spelled e ip ↔ e.Has ip := by
  have hsplit : (entryText false e).splitOn '\n' = [entryText false e] :=
    List.splitOn_eq_singleton fun hmem => (h.chars hmem).2.2 rfl
  have hrange : lineRange (entryText false e) = some ⟨e.ipMin, e.ipMax, printed e.name⟩ :=
    lineRange_eq_some_iff.mpr ⟨_, _, _, readAs_plain h hlen, by rw [ip2int_octets, ip2int_octets]⟩
  simp only [Spelled, hsplit, List.mem_singleton, exists_eq_left, spells_iff, hrange,
    Option.some.injEq]
  constructor
  · rintro ⟨lo, hi, ⟨r, rfl, rfl, rfl⟩, hhas⟩
    exact hhas
  · intro hhas
    exact ⟨_, _, ⟨_, rfl, rfl, rfl⟩, hhas⟩

/-- Without names the ranges are read back as they are. -/
theorem reloads_lowmem_iff (hapart : b.entries.Pairwise Apart) (hsettled : Settled true b) :
    Reloads true iconv b ↔ Safe true b.entries := by
  have hranges := (fileRanges_blocklistDump true b).trans (filterMap_dumpLines_lowmem b)
  have hload : (loadlistAscii true iconv (some (blocklistDump true b)) blocklistInit).2 =
      appendRanges true iconv (b.entries.map fun e => ⟨e.ipMin, e.ipMax, []⟩) := by
    by_cases hearly : EarlyMatch (blocklistDump true b)
    · rw [loadlistAscii_early (dump_short hsettled) true iconv blocklistInit hearly, hranges]
      rfl
    · -- every line is accepted, so there is none
      have hnil : b.entries = [] := by
        by_contra hne
        apply hearly
        obtain ⟨e, es, hes⟩ := List.exists_cons_of_ne_nil hne
        rw [earlyMatch_blocklistDump, dumpLines_lowmem, hes, List.map_cons]
        exact ⟨_, List.mem_cons_self, by rw [lineRange_range]; rfl⟩
      rw [loadlistAscii_late (dump_short hsettled) true iconv blocklistInit hearly, hnil]
      rfl
  rw [reloads_iff hapart hload, exists_merged_lowmem_iff]
  simp [ends, Range.entry]

/-- With names it depends on them. -/
theorem reloads_named_iff (hapart : b.entries.Pairwise Apart) (hsettled : Settled false b) :
    Reloads false iconv b ↔
      (Early b ∧ Respells b) ∨ (¬ Early b ∧ ∀ ip, ¬ Listed b.entries ip) := by
  by_cases hearly : Early b
  · have hload : (loadlistAscii false iconv (some (blocklistDump false b)) blocklistInit).2 =
        appendRanges false iconv ((dumpLines false b).filterMap lineRange) := by
      rw [loadlistAscii_early (dump_short hsettled) false iconv blocklistInit (early_iff.mp hearly),
        fileRanges_blocklistDump]
      rfl
    rw [reloads_iff hapart hload, exists_merged_named_iff]
    simp only [listed_dumpLines_iff, hearly, true_and, not_true_eq_false, false_and, or_false]
    have hplain : ∀ e ∈ b.entries, PlainName e → ∀ ip, Spelled e ip ↔ e.Has ip := by
      intro e he hname
      apply spelled_plain_iff hname
      exact Nat.lt_of_le_of_lt (length_printed hsettled he) (by decide)
    have hentries : ∀ rs : List Range, (rs.map fun r => (r.ipMin, r.ipMax)).map
        (fun r => (⟨r.1, r.2, none, 0⟩ : Entry)) = rs.map Range.entry := by
      intro rs
      rw [List.map_map]
      rfl
    constructor
    · rintro ⟨hsafe, hlisted⟩
      refine ⟨?_, ?_, _, rereads_iff.mpr rfl, by rwa [hentries]⟩
      · intro e he _ ip hhas
        exact (hlisted ip).mpr ⟨e, he, hhas⟩
      · intro e he _ ip hspelled
        exact (hlisted ip).mp ⟨e, he, hspelled⟩
    · rintro ⟨hkept, hadded, ranges, hranges, hsafe⟩
      rw [rereads_iff] at hranges
      rw [hranges, hentries] at hsafe
      refine ⟨hsafe, fun ip => ⟨?_, ?_⟩⟩
      · rintro ⟨e, he, hspelled⟩
        by_cases hname : PlainName e
        · exact ⟨e, he, (hplain e he hname ip).mp hspelled⟩
        · exact hadded e he hname ip hspelled
      · rintro ⟨e, he, hhas⟩
        by_cases hname : PlainName e
        · exact ⟨e, he, (hplain e he hname ip).mpr hhas⟩
        · exact hkept e he hname ip hhas
  · have hload : (loadlistAscii false iconv (some (blocklistDump false b)) blocklistInit).2 =
        appendRanges false iconv [] := by
      rw [loadlistAscii_late (dump_short hsettled) false iconv blocklistInit
        fun h => hearly (early_iff.mpr h)]
      rfl
    rw [reloads_iff hapart hload, exists_merged_named_iff]
    simp [hearly, NameSafe, Listed]

end Reload

/-- For a list that was loaded from any files, sorted and merged: loading its dump again blocks
the same addresses, whatever the sort does with equal lower ends, if and only if the dump can be
loaded again. -/
theorem dump_reloads_iff {host : Host} {lowmem : Bool} {qsort : List Entry → List Entry}
    {files : List BlockFile} {b : Table} (hq : SortsByMin qsort)
    (h : mergeFiles host lowmem qsort files = .ok (some b)) (iconv : Text → Option Text) :
    Reloads lowmem iconv b ↔ Reloadable lowmem b := by
  obtain ⟨t, -, hmerge⟩ := bind_eq_ok_iff.mp h
  have hmerge := Except.ok.inj hmerge
  have hapart := (mergeLoop_covers hq (hq.sorted _) (Nat.lt_succ_self _) hmerge).1
  have hsettled := mergeLoop_settled hq (hq.sorted _) (Nat.lt_succ_self _) hmerge
  cases lowmem with
  | true => exact reloads_lowmem_iff hapart hsettled
  | false => exact reloads_named_iff hapart hsettled

/-- Two named ranges that merge are dumped under their joined name and loaded again. -/
theorem dump_reloads_joined :
    let host : Host := ⟨true, (· < 2 ^ 63), by simp, fun _ => some⟩
    let content := "a:1.2.3.4-1.2.3.9\nb:1.2.3.8-1.2.3.20\n".toList.map
      fun c => UInt8.ofNat c.toNat
    let b : Table := ⟨[⟨16909060, 16909076, some "a | b".toList, 0⟩], 16384, 1, 17⟩
    mergeFiles host false sortWidestFirst [⟨some content, some content, none⟩] = .ok (some b) ∧
      blocklistDump false b = "a | b:1.2.3.4-1.2.3.20\n".toList ∧ Reloads false some b := by
  intro host content b
  have h : mergeFiles host false sortWidestFirst [⟨some content, some content, none⟩] =
      .ok (some b) := by decide +kernel
  have hlines : dumpLines false b = ["a | b:1.2.3.4-1.2.3.20".toList] := by decide +kernel
  have hspells : Spells "a | b:1.2.3.4-1.2.3.20".toList 16909060 16909076 :=
    spells_iff.mpr ⟨⟨16909060, 16909076, "a | b".toList⟩, by decide +kernel, rfl, rfl⟩
  have hname : ∀ e ∈ b.entries, PlainName e := by simp [b, PlainName, printed, cstr]
  refine ⟨h, by decide +kernel, (dump_reloads_iff (sortsByMin_sortBy Wider) h some).mpr ?_⟩
  refine .inl ⟨⟨_, by rw [hlines]; exact List.mem_singleton_self _, _, _, hspells⟩, ?_⟩
  refine ⟨fun e he hnot => absurd (hname e he) hnot, fun e he hnot => absurd (hname e he) hnot, ?_⟩
  exact ⟨[(16909060, 16909076)], hlines ▸ .spelled hspells .nil, .inr (.inl (by decide))⟩

/-- The line of a bare range starts with the colon behind the empty name. The dump is refused, and
its addresses are no longer blocked. -/
theorem bare_range_lost :
    let host : Host := ⟨true, (· < 2 ^ 63), by simp, fun _ => some⟩
    let content := "1.2.3.4-1.2.3.9\n".toList.map fun c => UInt8.ofNat c.toNat
    let b : Table := ⟨[⟨16909060, 16909065, some [], 0⟩], 16384, 16384, 6⟩
    mergeFiles host false sortWidestFirst [⟨some content, some content, none⟩] = .ok (some b) ∧
      blocklistDump false b = ":1.2.3.4-1.2.3.9\n".toList ∧
      loadlistAscii false some (some (blocklistDump false b)) blocklistInit = (-1, blocklistInit) ∧
      (blocklistFind b 16909060).isSome = true ∧
      (blocklistFind blocklistInit 16909060).isSome = false := by
  decide +kernel

end Dowse.Pgld
