import Dowse.BlocklistFind

/-!
# Loading the lists of pgld

The ranges of all files are appended to an empty list, which is then sorted and merged. Both
builds are covered: with `LOWMEM` the entries have no names.
-/
namespace Dowse.Pgld
open CStrings Blocklist

/-- The ends of the ranges, without names and counters. -/
def spans (b : Table) : List (UInt32 × UInt32) := b.entries.map fun e => (e.ipMin, e.ipMax)

theorem listed_iff_spans (b : Table) (ip : UInt32) :
    Listed b.entries ip ↔ ∃ p ∈ spans b, p.1 ≤ ip ∧ ip ≤ p.2 :=
  listed_iff_ends b.entries ip

/-- The address lies in one of the loaded ranges. -/
def Covered (ranges : List Range) (ip : UInt32) : Prop :=
  ∃ r ∈ ranges, r.ipMin ≤ ip ∧ ip ≤ r.ipMax

theorem appendRanges_spans (lowmem : Bool) (iconv : Text → Option Text) (ranges : List Range) :
    spans (appendRanges lowmem iconv ranges) = ranges.map fun r => (r.ipMin, r.ipMax) := by
  suffices h : ∀ b : Table, spans (ranges.foldl
      (fun b r => blocklistAppend lowmem iconv b r.ipMin r.ipMax r.name) b) =
        spans b ++ ranges.map fun r => (r.ipMin, r.ipMax) from h blocklistInit
  induction ranges with
  | nil => simp
  | cons r ranges ih =>
      intro b
      rw [List.foldl_cons, ih, List.map_cons]
      simp [spans, blocklistAppend]

theorem listed_appendRanges {lowmem : Bool} {iconv : Text → Option Text} {ranges : List Range}
    {ip : UInt32} (h : Covered ranges ip) :
    Listed (appendRanges lowmem iconv ranges).entries ip := by
  rw [listed_iff_spans, appendRanges_spans]
  obtain ⟨r, hr, hends⟩ := h
  exact ⟨_, List.mem_map_of_mem hr, hends⟩

end Dowse.Pgld
