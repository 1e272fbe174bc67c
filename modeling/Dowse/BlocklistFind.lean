import Dowse.BlocklistCoverage
import Mathlib.Data.List.Sort

/-!
# The lookup after loading, sorting and merging

The lookup blocks exactly the appended addresses, and returns a range that contains
the address, for every sort that the C library may use, if and only if the appended
ranges satisfy `TopSafe`. On any other list the sort may prefer a blank to a range that
starts at the top address and ends below it. The blank then survives the cut and blocks
255.255.255.255, which no range lists.
-/
namespace Dowse.Blocklist
open CStrings SortedSearch

attribute [local grind =] top

/-- The arguments of one `blocklist_append`. -/
structure Range where
  ipMin : UInt32
  ipMax : UInt32
  name : Text
  deriving DecidableEq, Repr

/-- The entry that an append stores in the build without names. -/
def Range.entry (r : Range) : Entry := ⟨r.ipMin, r.ipMax, none, 0⟩

def appendRanges (lowmem : Bool) (iconv : Text → Option Text) (ranges : List Range) : Table :=
  ranges.foldl (fun b r => blocklistAppend lowmem iconv b r.ipMin r.ipMax r.name) blocklistInit

/-- The ranges of all files, appended to an empty list, sorted and merged. -/
def loadAllLists (lowmem : Bool) (qsort : List Entry → List Entry) (iconv : Text → Option Text)
    (ranges : List Range) : Option Table :=
  blocklistMerge lowmem qsort (blocklistSort qsort (appendRanges lowmem iconv ranges))

theorem appendRanges_entries (iconv : Text → Option Text) (ranges : List Range) :
    (appendRanges true iconv ranges).entries = ranges.map Range.entry := by
  suffices h : ∀ b : Table,
      (ranges.foldl (fun b r => blocklistAppend true iconv b r.ipMin r.ipMax r.name) b).entries =
        b.entries ++ ranges.map Range.entry from h blocklistInit
  induction ranges with
  | nil => simp
  | cons r ranges ih =>
      intro b
      rw [List.foldl_cons, ih, List.map_cons]
      simp [blocklistAppend, Range.entry]

theorem listed_map_entry (ranges : List Range) (ip : UInt32) :
    Listed (ranges.map Range.entry) ip ↔ ∃ r ∈ ranges, r.ipMin ≤ ip ∧ ip ≤ r.ipMax := by
  simp [Listed, Range.entry]

theorem blockKeyCompare_eq_iff (ip : UInt32) (e : Entry) :
    blockKeyCompare ip e = .eq ↔ e.Has ip := by
  grind [blockKeyCompare]

theorem directed_of_apart {es : List Entry} (h : es.Pairwise Apart) (ip : UInt32) :
    Directed (blockKeyCompare ip) es := by
  refine h.imp ?_
  rintro e f ⟨hle, hne, hlt⟩
  grind [blockKeyCompare]

theorem blocklistFind_isSome_iff {b : Table} (h : b.entries.Pairwise Apart) (ip : UInt32) :
    (blocklistFind b ip).isSome ↔ Listed b.entries ip := by
  rw [blocklistFind, bsearch_isSome_iff (directed_of_apart h ip)]
  simp only [blockKeyCompare_eq_iff, Listed]

section Sorts
variable (tie : Entry → Entry → Prop)

/-- Order by lower end, and among equal ones by another relation. -/
def ByMin (e f : Entry) : Prop := e.ipMin < f.ipMin ∨ (e.ipMin = f.ipMin ∧ tie e f)

instance [DecidableRel tie] : DecidableRel (ByMin tie) := fun e f =>
  inferInstanceAs (Decidable (e.ipMin < f.ipMin ∨ (e.ipMin = f.ipMin ∧ tie e f)))

instance [IsTrans Entry tie] : IsTrans Entry (ByMin tie) where
  trans e f g hef hfg := by
    have htie : tie e f → tie f g → tie e g := IsTrans.trans e f g
    grind [ByMin]

instance [Std.Total tie] : Std.Total (ByMin tie) where
  total e f := by
    have htie := Std.Total.total (r := tie) e f
    grind [ByMin]

variable {tie} in
theorem ByMin.min_le {e f : Entry} (h : ByMin tie e f) : e.ipMin ≤ f.ipMin := by
  grind [ByMin]

/-- A sort by lower ends that treats equal ones by the relation. -/
def sortBy [DecidableRel tie] (es : List Entry) : List Entry := es.insertionSort (ByMin tie)

variable [DecidableRel tie] [IsTrans Entry tie] [Std.Total tie]

theorem sortBy_pairwise (es : List Entry) : (sortBy tie es).Pairwise (ByMin tie) :=
  List.pairwise_insertionSort (ByMin tie) es

theorem sortsByMin_sortBy : SortsByMin (sortBy tie) where
  perm es := List.perm_insertionSort (ByMin tie) es
  sorted es := (sortBy_pairwise tie es).imp ByMin.min_le

end Sorts

/-- The higher upper end first. -/
def Wider (e f : Entry) : Prop := f.ipMax ≤ e.ipMax

instance : DecidableRel Wider := fun e f => inferInstanceAs (Decidable (f.ipMax ≤ e.ipMax))

instance : IsTrans Entry Wider := ⟨fun e f g => by grind [Wider]⟩

instance : Std.Total Wider := ⟨fun e f => by grind [Wider]⟩

abbrev WidestFirst : Entry → Entry → Prop := ByMin Wider

abbrev sortWidestFirst : List Entry → List Entry := sortBy Wider

theorem not_mergeable_of_apart {f g : Entry} (h : Apart f g) (hw : WidestFirst f g) :
    ¬ Mergeable f g ∧ ¬ Mergeable g f := by
  obtain ⟨hle, hne, hlt⟩ := h
  have hmono : g.ipMax ≤ f.ipMax → g.ipMax + 1 ≤ f.ipMax + 1 := by grind
  grind [Mergeable, ByMin, Wider]

/-- Of the entries that start at the top address this sort puts a blank first. -/
theorem head_top_of_blank {t : Entry} {T : List Entry} (hlow : ∀ e ∈ t :: T, e.low = false)
    (hs : (t :: T).Pairwise WidestFirst) (hb : ∃ b ∈ t :: T, b.ipMax = top) :
    t.Has top := by
  have hmin := Entry.low_eq_false.mp (hlow t List.mem_cons_self)
  obtain ⟨b, hb, hbtop⟩ := hb
  rcases List.mem_cons.mp hb with rfl | hmem
  · grind
  · have hw := (List.pairwise_cons.mp hs).1 b hmem
    have hbmin := Entry.low_eq_false.mp (hlow b hb)
    clear hs hlow
    grind [ByMin, Wider]

/-- Where the address below the top is not listed, a range that starts at the top is not
absorbed by one that starts below. -/
theorem PassSpec.head_high {es heads blanks : List Entry} {p : Pass}
    (h : PassSpec es p heads blanks) (hbelow : ¬ Listed es (top - 1))
    {e : Entry} (he : e ∈ es) (hetop : e.ipMin = top) : ∃ f ∈ heads, f.low = false := by
  obtain ⟨f, hf, hor⟩ := h.origin e he
  refine ⟨f, hf, Entry.low_eq_false.mpr ?_⟩
  have hfbelow : ¬ f.Has (top - 1) := fun hhas => hbelow ((h.listed _).mp ⟨f, hf, hhas⟩)
  grind

/-- If a head starts at the top address, the cut keeps the first of the entries that do, in
the order of the sort, and the blanks are among these. -/
theorem PassSpec.first_high {es heads blanks : List Entry} {p : Pass}
    (h : PassSpec es p heads blanks) {qsort : List Entry → List Entry} (hq : SortsByMin qsort)
    {f : Entry} (hf : f ∈ heads) (hhigh : f.low = false) :
    ∃ t T, (qsort p.entries).filter (! Entry.low ·) = t :: T ∧ t ∈ kept qsort es p ∧
      ∀ b ∈ blanks, b ∈ t :: T := by
  have hperm := (hq.perm p.entries).trans h.perm
  have hT := (low_perm hperm h.blank).2
  have hfilter : f ∈ heads.filter (! Entry.low ·) := List.mem_filter.mpr ⟨hf, by simp [hhigh]⟩
  have hpos := List.length_pos_of_mem hfilter
  rw [h.kept_eq, take_heads (hq.sorted _) hperm h.blank]
  generalize (qsort p.entries).filter (! Entry.low ·) = high at hT
  cases high with
  | nil => exact absurd (hT.mem_iff.mpr (List.mem_append_left _ hfilter)) List.not_mem_nil
  | cons t T =>
      refine ⟨t, T, rfl, List.mem_append_right _ ?_, ?_⟩
      · rw [List.take_cons hpos]
        exact List.mem_cons_self
      · intro b hb
        exact hT.mem_iff.mpr (List.mem_append_right _ hb)

/-- A pass over a list with two entries that can merge blanks one, if wider ranges come first. -/
theorem PassSpec.blanks_ne_nil {es heads blanks : List Entry} {p : Pass}
    (h : PassSpec es p heads blanks) (hs : es.Pairwise WidestFirst)
    (hpair : ¬ es.Pairwise fun e f => ¬ Mergeable e f ∧ ¬ Mergeable f e) : blanks ≠ [] := by
  intro hnil
  refine hpair (((h.unmerged hnil).2.and hs).imp ?_)
  exact fun hfg => not_mergeable_of_apart hfg.1 hfg.2

/-- On a list that is not harmless, one pass with this sort keeps a blank. -/
theorem PassSpec.blank_kept {es heads blanks : List Entry} {p : Pass}
    (h : PassSpec es p heads blanks) (hs : es.Pairwise WidestFirst)
    (hwrap : ¬ TopSafe es) :
    blanks ≠ [] ∧ Listed (kept sortWidestFirst es p) top := by
  simp only [TopSafe, not_or, not_forall] at hwrap
  obtain ⟨-, hbelow, ⟨e, he, hetop⟩, hpair⟩ := hwrap
  have hne := h.blanks_ne_nil hs hpair
  obtain ⟨f, hf, hhigh⟩ := h.head_high hbelow he (not_not.mp hetop)
  obtain ⟨t, T, hfilter, ht, hblanks⟩ := h.first_high (sortsByMin_sortBy Wider) hf hhigh
  obtain ⟨b, hb⟩ := List.exists_mem_of_ne_nil blanks hne
  have hsort := (sortBy_pairwise Wider p.entries).filter (! Entry.low ·)
  have hlow : ∀ g ∈ (sortWidestFirst p.entries).filter (! Entry.low ·), g.low = false :=
    fun g hg => by simpa using List.of_mem_filter hg
  rw [hfilter] at hsort hlow
  exact ⟨hne, t, ht, head_top_of_blank hlow hsort ⟨b, hblanks b hb, (h.blank b hb).2⟩⟩

/-- On a list that is not harmless the merged table blocks the top address. -/
theorem mergeLoop_blank (b : Table) (hs : b.entries.Pairwise WidestFirst)
    (hwrap : ¬ TopSafe b.entries) :
    ∃ b', blocklistMerge true sortWidestFirst b = some b' ∧ b'.entries.Pairwise Apart ∧
      Listed b'.entries top := by
  have hmin : SortedByMin b.entries := hs.imp ByMin.min_le
  obtain ⟨heads, blanks, h⟩ := mergeFrom_spec true _ 0 b.entries hmin (Nat.le_refl _)
  obtain ⟨hne, hkept⟩ := h.blank_kept hs hwrap
  simp only [blocklistMerge, mergeLoop]
  split_ifs with hnil hnull hmerged
  · exact absurd (by simp [TopSafe, hnil]) hwrap
  · exact absurd hnull.1 (by decide)
  · exact absurd (h.merged_eq_zero_iff.mp hmerged) hne
  · obtain ⟨b', heq, hm⟩ := @mergeLoop_safe true _ (sortsByMin_sortBy Wider)
      b.entries.length ⟨kept sortWidestFirst b.entries _, b.size, _, _⟩
      (kept_sorted (sortsByMin_sortBy Wider)) (Or.inl ⟨rfl, hkept⟩) (absurd · (by decide))
      (h.kept_length_lt sortWidestFirst hne)
    exact ⟨b', heq, hm.apart, (hm.listed top).mpr hkept⟩

/-- For every sort, the lookup after loading finds a range exactly for the appended
addresses, and one that contains the address, if and only if the ranges are harmless. -/
theorem blocklistFind_iff_topSafe (iconv : Text → Option Text) (ranges : List Range) :
    (∀ qsort, SortsByMin qsort → ∃ b, loadAllLists true qsort iconv ranges = some b ∧ ∀ ip,
      ((blocklistFind b ip).isSome ↔ ∃ r ∈ ranges, r.ipMin ≤ ip ∧ ip ≤ r.ipMax) ∧
      ∀ e, blocklistFind b ip = some e → e.ipMin ≤ ip ∧ ip ≤ e.ipMax) ↔
    TopSafe (ranges.map Range.entry) := by
  have hentries := appendRanges_entries iconv ranges
  constructor
  · intro h
    by_contra hwrap
    obtain ⟨b, hb, hfind⟩ := h sortWidestFirst (sortsByMin_sortBy Wider)
    have hperm := (sortsByMin_sortBy Wider).perm (appendRanges true iconv ranges).entries
    obtain ⟨b', hb', hapart, hlisted⟩ :=
      mergeLoop_blank (blocklistSort sortWidestFirst (appendRanges true iconv ranges))
        (sortBy_pairwise Wider _)
        (by rwa [blocklistSort, ← safe_true_iff, safe_perm hperm, hentries, safe_true_iff])
    obtain rfl : b' = b := Option.some.inj (hb'.symm.trans hb)
    have hmem := (hfind top).1.mp ((blocklistFind_isSome_iff hapart top).mpr hlisted)
    exact hwrap (Or.inl ((listed_map_entry ranges top).mpr hmem))
  · intro hsafe qsort hq
    rw [← safe_true_iff, ← hentries] at hsafe
    obtain ⟨b, hb, hm⟩ := sortMerge_safe hq hsafe nofun
    refine ⟨b, hb, fun ip => ⟨?_, ?_⟩⟩
    · rw [blocklistFind_isSome_iff hm.apart, hm.listed, hentries, listed_map_entry]
    · intro e he
      exact (blockKeyCompare_eq_iff ip e).mp (bsearch_sound he).2

/-- Two ranges that merge and one that starts at the top address but lists nothing: with
a sort that breaks ties by the wider range, 255.255.255.255 is found. -/
theorem blocklistFind_unlisted_top :
    SortsByMin sortWidestFirst ∧
    (¬ ∃ r ∈ [Range.mk 1 5 [], Range.mk 3 8 [], Range.mk top 5 []],
      r.ipMin ≤ top ∧ top ≤ r.ipMax) ∧
    ((loadAllLists true sortWidestFirst some [⟨1, 5, []⟩, ⟨3, 8, []⟩, ⟨top, 5, []⟩]).map
      fun b => (blocklistFind b top).isSome) = some true := by
  refine ⟨sortsByMin_sortBy Wider, by decide, ?_⟩
  decide

end Dowse.Blocklist
