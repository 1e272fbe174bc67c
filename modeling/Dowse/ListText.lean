import Dowse.ListParser

/-!
# Text lists

In a file with short lines the text parser sees exactly the lines of the file. It appends the
ranges of all lines that match a format, but gives the file up when none of the first hundred
lines does. The file is then tried as a binary list, and nothing of it is loaded.
-/
namespace Dowse.Pgld
open CStrings Stdio Blocklist

/-- The range of a line of the file. -/
def lineRange (line : Text) : Option Range := lineEntry (stripCrlf line)

/-- The ranges of all lines that match a format, in order. -/
def fileRanges (content : Text) : List Range := (content.splitOn '\n').filterMap lineRange

/-- One of the first hundred lines matches a format. -/
def EarlyMatch (content : Text) : Prop :=
  ∃ line ∈ (content.splitOn '\n').take 100, (lineRange line).isSome

/-- The entry that an append stores. -/
def stored (lowmem : Bool) (iconv : Text → Option Text) (r : Range) : Entry :=
  ⟨r.ipMin, r.ipMax, if lowmem then none else some (convertName iconv r.name), 0⟩

section Loop

variable {lowmem : Bool} {iconv : Text → Option Text}

theorem entries_foldl_appendRange (ranges : List Range) (b : Table) :
    (ranges.foldl (appendRange lowmem iconv) b).entries =
      b.entries ++ ranges.map (stored lowmem iconv) := by
  induction ranges generalizing b with
  | nil => simp
  | cons r ranges ih =>
      rw [List.foldl_cons, ih, List.map_cons]
      simp [appendRange, blocklistAppend, stored]

/-- After a first match every line is looked at. -/
theorem asciiLoop_matched (bufs : List Text) (total : ℕ) {ok : ℕ} (hok : ok ≠ 0) (b : Table) :
    asciiLoop lowmem iconv bufs total ok b =
      (0, (bufs.filterMap lineRange).foldl (appendRange lowmem iconv) b) := by
  induction bufs generalizing total ok b with
  | nil => simp [asciiLoop, hok]
  | cons buf bufs ih =>
      rw [asciiLoop, if_neg fun h => hok h.1, List.filterMap_cons, ← lineRange]
      cases lineRange buf with
      | none => exact ih _ hok b
      | some r => exact ih _ (Nat.succ_ne_zero ok) _

theorem asciiLoop_early {bufs : List Text} {total : ℕ} (b : Table)
    (h : ∃ buf ∈ bufs.take (100 - total), (lineRange buf).isSome) :
    asciiLoop lowmem iconv bufs total 0 b =
      (0, (bufs.filterMap lineRange).foldl (appendRange lowmem iconv) b) := by
  induction bufs generalizing total with
  | nil => simp at h
  | cons buf bufs ih =>
      have hlt : total < 100 := by
        by_contra hge
        rw [Nat.sub_eq_zero_of_le (by omega), List.take_zero] at h
        simp at h
      rw [asciiLoop, if_neg (by omega), List.filterMap_cons, ← lineRange]
      cases hbuf : lineRange buf with
      | some r => exact asciiLoop_matched bufs _ (Nat.succ_ne_zero 0) _
      | none =>
          apply ih
          obtain ⟨line, hline, hsome⟩ := h
          rw [show 100 - total = (100 - (total + 1)) + 1 by omega, List.take_succ_cons,
            List.mem_cons] at hline
          rcases hline with rfl | hline
          · rw [hbuf] at hsome
            cases hsome
          · exact ⟨line, hline, hsome⟩

theorem asciiLoop_late {bufs : List Text} {total : ℕ} (b : Table)
    (h : ∀ buf ∈ bufs.take (100 - total), lineRange buf = none) :
    asciiLoop lowmem iconv bufs total 0 b = (-1, b) := by
  induction bufs generalizing total with
  | nil => rfl
  | cons buf bufs ih =>
      by_cases hlt : total < 100
      · rw [show 100 - total = (100 - (total + 1)) + 1 by omega, List.take_succ_cons] at h
        rw [asciiLoop, if_neg (by omega), ← lineRange, h buf List.mem_cons_self]
        exact ih fun line hline => h line (List.mem_cons_of_mem buf hline)
      · rw [asciiLoop, if_pos ⟨rfl, by omega⟩]

end Loop

section Lines

theorem stripCrlf_chomp (line : Text) : stripCrlf (chomp line) = stripCrlf line := by
  simp only [stripCrlf, cstr, chomp, List.takeWhile_takeWhile]
  congr 1
  funext c
  grind

theorem lineRange_chomp (line : Text) : lineRange (chomp line) = lineRange line := by
  rw [lineRange, stripCrlf_chomp, lineRange]

theorem lineRange_nil : lineRange [] = none := rfl

variable {content : Text}
  (hshort : ∀ line ∈ content.splitOn '\n', line.length < maxLineLength - 1)

include hshort

/-- The pieces that are read have the ranges of the lines of the file. -/
theorem filterMap_lines :
    (lines (maxLineLength - 1) content.length content).filterMap lineRange =
      fileRanges content := by
  obtain ⟨last, hlast, heq⟩ := chomp_lines (Nat.le_refl _) hshort
  have hnone : last.filterMap lineRange = [] := by
    rcases hlast with rfl | rfl
    · rfl
    · simp [lineRange_nil]
  rw [fileRanges, heq, List.filterMap_append, hnone, List.append_nil, List.filterMap_map]
  congr 1
  funext line
  exact (lineRange_chomp line).symm

/-- So have the first hundred. -/
theorem early_lines_iff :
    (∃ buf ∈ (lines (maxLineLength - 1) content.length content).take 100,
      (lineRange buf).isSome) ↔ EarlyMatch content := by
  obtain ⟨last, hlast, heq⟩ := chomp_lines (Nat.le_refl _) hshort
  rw [EarlyMatch, heq, List.take_append, ← List.map_take]
  constructor
  · rintro ⟨buf, hbuf, hsome⟩
    refine ⟨chomp buf, List.mem_append_left _ (List.mem_map_of_mem hbuf), ?_⟩
    rwa [lineRange_chomp]
  · rintro ⟨line, hline, hsome⟩
    rcases List.mem_append.mp hline with hline | hline
    · obtain ⟨buf, hbuf, rfl⟩ := List.mem_map.mp hline
      exact ⟨buf, hbuf, by rwa [lineRange_chomp] at hsome⟩
    · have hnil : line = [] := by
        have hmem := List.mem_of_mem_take hline
        rcases hlast with rfl | rfl
        · cases hmem
        · exact List.mem_singleton.mp hmem
      rw [hnil, lineRange_nil] at hsome
      cases hsome

variable (lowmem : Bool) (iconv : Text → Option Text) (b : Table)

theorem loadlistAscii_early (h : EarlyMatch content) :
    loadlistAscii lowmem iconv (some content) b =
      (0, (fileRanges content).foldl (appendRange lowmem iconv) b) := by
  rw [← filterMap_lines hshort]
  exact asciiLoop_early b ((early_lines_iff hshort).mpr h)

theorem loadlistAscii_late (h : ¬ EarlyMatch content) :
    loadlistAscii lowmem iconv (some content) b = (-1, b) := by
  apply asciiLoop_late
  intro buf hbuf
  by_contra hsome
  exact h ((early_lines_iff hshort).mp ⟨buf, hbuf, Option.isSome_iff_ne_none.mpr hsome⟩)

end Lines

/-- A text list with short lines is loaded completely if and only if one of its first hundred
lines matches a format. -/
theorem loadList_text_iff {content : List UInt8} (htext : content.take 7 ≠ p2bHeader)
    (hshort : ∀ line ∈ (byteText content).splitOn '\n', line.length < maxLineLength - 1)
    (host : Host) (lowmem : Bool) (charset : Option Text) (b : Table) :
    (∃ b', loadList host lowmem (some content) (some content) charset b = .ok (0, b') ∧
      b'.entries = b.entries ++ (fileRanges (byteText content)).map
        (stored lowmem (host.iconvOpen (charset.getD "ISO8859-1".toList)))) ↔
    EarlyMatch (byteText content) := by
  constructor
  · rintro ⟨b', hload, -⟩
    by_contra hlate
    simp only [loadList, Option.map_some, loadlistAscii_late hshort _ _ b hlate, loadlistBinary,
      if_neg htext] at hload
    rw [if_neg (by decide), if_neg (by decide)] at hload
    obtain ⟨r, hr, hload⟩ := bind_eq_ok_iff.mp hload
    cases hr
    cases hload
  · intro hearly
    refine ⟨_, ?_, entries_foldl_appendRange _ b⟩
    simp only [loadList, Option.map_some, loadlistAscii_early hshort _ _ b hearly, if_true]

/-- A comment line in front of a range. -/
theorem loadList_text_comment :
    let host : Host := ⟨true, (· < 2 ^ 63), by simp, fun _ => some⟩
    let content := "#\na:1.2.3.4-1.2.3.9\n".toList.map fun c => UInt8.ofNat c.toNat
    EarlyMatch (byteText content) ∧
    ∃ b', loadList host false (some content) (some content) none blocklistInit = .ok (0, b') ∧
      b'.entries = [⟨16909060, 16909065, some ['a'], 0⟩] := by
  intro host content
  have hearly : EarlyMatch (byteText content) := ⟨"a:1.2.3.4-1.2.3.9".toList, by decide, by decide⟩
  have hload := (loadList_text_iff (by decide) (by decide) host false none blocklistInit).mpr hearly
  exact ⟨hearly, hload⟩

/-- A hundred comment lines in front of the only range: the file is refused. -/
theorem late_range_refused :
    let host : Host := ⟨true, (· < 2 ^ 63), by simp, fun _ => some⟩
    let comments : List UInt8 := (List.replicate 100 [35, 10]).flatten
    let content := comments ++ "a:1.2.3.4-1.2.3.9\n".toList.map fun c => UInt8.ofNat c.toNat
    loadList host false (some content) (some content) none blocklistInit =
      .ok (-1, blocklistInit) := by
  decide +kernel

end Dowse.Pgld
