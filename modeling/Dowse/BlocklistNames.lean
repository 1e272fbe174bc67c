import Dowse.BlocklistLoading

/-!
# What the cut of a merge keeps

In the build with names, blanking an absorbed entry sets its name to null. A pass of
`blocklist_merge` sorts the array by lower ends and cuts as many entries as it blanked. Where an
entry that was not absorbed also starts at the top address, the sort decides which of them are cut:
an entry may be lost, and the next pass then takes the length of a null name.
-/
namespace Dowse.Blocklist
open CStrings Pgld

attribute [local grind =] top

/-- The loop of `blocklist_merge` over its array. -/
def pass (es : List Entry) : Pass := mergeFrom false es.length 0 es

theorem pass_named {es : List Entry} (hs : SortedByMin es) :
    ∃ heads blanks, PassSpec es (pass es) heads blanks ∧ (∀ h ∈ heads, h.name.isSome) ∧
      ∀ b ∈ blanks, b.name = none := by
  obtain ⟨heads, blanks, h, hnames⟩ := mergeFrom_named false _ 0 es hs (Nat.le_refl _)
  exact ⟨heads, blanks, h, hnames rfl⟩

/-- The arrays that the passes of a merge go through, as long as no null name stops it. -/
def mergePasses (lowmem : Bool) (qsort : List Entry → List Entry) :
    ℕ → List Entry → List (List Entry)
  | 0, _ => []
  | fuel + 1, es =>
      let p := mergeFrom lowmem es.length 0 es
      es :: if p.merged = 0 then [] else mergePasses lowmem qsort fuel (kept qsort es p)

/-- Every entry has a name, and if entries are absorbed the cut leaves the others. -/
def KeepsNamed (qsort : List Entry → List Entry) (es : List Entry) : Prop :=
  (∀ e ∈ es, e.name.isSome) ∧ ((pass es).merged ≠ 0 →
    (kept qsort es (pass es)).Perm ((pass es).entries.filter (·.name.isSome)))

/-- A merge that reads no null name and keeps none, and each of whose cuts leaves the entries that
the pass did not absorb. -/
structure KeepsRight (qsort : List Entry → List Entry) (b : Table) : Prop where
  returns : ∃ b', blocklistMerge false qsort b = some b' ∧ ∀ e ∈ b'.entries, e.name.isSome
  passes : ∀ es ∈ mergePasses false qsort (b.entries.length + 1) b.entries, KeepsNamed qsort es

theorem appendRanges_named (iconv : Text → Option Text) (ranges : List Range) :
    Named false (appendRanges false iconv ranges).entries := by
  suffices h : ∀ b : Table, Named false b.entries → Named false (ranges.foldl
      (fun b r => blocklistAppend false iconv b r.ipMin r.ipMax r.name) b).entries from
    h blocklistInit (by simp [Named, blocklistInit])
  induction ranges with
  | nil => exact fun b hb => hb
  | cons r ranges ih =>
      intro b hb
      apply ih
      intro _ e he
      rcases List.mem_append.mp he with he | he
      · exact hb rfl e he
      · rw [List.mem_singleton.mp he]
        rfl

theorem ends_appendRanges (lowmem : Bool) (iconv : Text → Option Text) (ranges : List Range) :
    ends (appendRanges lowmem iconv ranges).entries = ends (ranges.map Range.entry) := by
  refine (appendRanges_spans lowmem iconv ranges).trans ?_
  simp [ends, Range.entry]

/-- The entries that a pass does not absorb are those that still have a name. -/
theorem PassSpec.filter_named {es heads blanks : List Entry} {p : Pass}
    (h : PassSpec es p heads blanks) (hheads : ∀ f ∈ heads, f.name.isSome)
    (hblanks : ∀ b ∈ blanks, b.name = none) :
    (p.entries.filter (·.name.isSome)).Perm heads := by
  have hperm := h.perm.filter (·.name.isSome)
  have hnone : blanks.filter (·.name.isSome) = [] := by
    rw [List.filter_eq_nil_iff]
    intro b hb
    simp [hblanks b hb]
  rwa [List.filter_append, List.filter_eq_self.mpr hheads, hnone, List.append_nil] at hperm

/-- On a harmless list every pass meets named entries and cuts exactly the blanks. -/
theorem mergePasses_safe {qsort : List Entry → List Entry} (hq : SortsByMin qsort) (fuel : ℕ)
    (es : List Entry) (hs : SortedByMin es) (hsafe : NameSafe es) (hnamed : Named false es) :
    ∀ fs ∈ mergePasses false qsort fuel es, KeepsNamed qsort fs := by
  induction fuel generalizing es with
  | zero => simp [mergePasses]
  | succ fuel ih =>
      obtain ⟨heads, blanks, h, hheads, hblanks⟩ := pass_named hs
      have hpass : (pass es).merged ≠ 0 →
          Safe false (kept qsort es (pass es)) ∧ (kept qsort es (pass es)).Perm heads := by
        intro hmerged
        obtain ⟨-, hsafe', hperm⟩ := h.kept_safe hq ((safe_false_iff _).mpr hsafe)
          (mt h.merged_eq_zero_iff.mpr hmerged)
        exact ⟨hsafe', hperm rfl⟩
      rw [mergePasses]
      refine List.forall_mem_cons.mpr ⟨⟨hnamed rfl, fun hmerged => ?_⟩, ?_⟩
      · exact (hpass hmerged).2.trans (h.filter_named hheads hblanks).symm
      · split_ifs with hmerged
        · simp
        · obtain ⟨hsafe', hperm⟩ := hpass hmerged
          exact ih _ (kept_sorted hq) ((safe_false_iff _).mp hsafe')
            fun _ e he => hheads e (hperm.mem_iff.mp he)

/-- The higher upper end first, then the null name. -/
def WiderBlank (e f : Entry) : Prop :=
  f.ipMax < e.ipMax ∨ (e.ipMax = f.ipMax ∧ (f.name.isNone → e.name.isNone))

instance : DecidableRel WiderBlank := fun e f => inferInstanceAs
  (Decidable (f.ipMax < e.ipMax ∨ (e.ipMax = f.ipMax ∧ (f.name.isNone → e.name.isNone))))

instance : IsTrans Entry WiderBlank := ⟨fun e f g => by grind [WiderBlank]⟩

instance : Std.Total WiderBlank := ⟨fun e f => by grind [WiderBlank]⟩

abbrev BlankFirst : Entry → Entry → Prop := ByMin WiderBlank

abbrev sortBlankFirst : List Entry → List Entry := sortBy WiderBlank

theorem BlankFirst.widestFirst {e f : Entry} (h : BlankFirst e f) : WidestFirst e f := by
  grind [ByMin, WiderBlank, Wider]

/-- Of the entries that start at the top address this sort puts a null name first. -/
theorem head_null_of_blank {t : Entry} {T : List Entry} (hlow : ∀ e ∈ t :: T, e.low = false)
    (hs : (t :: T).Pairwise BlankFirst)
    (hb : ∃ b ∈ t :: T, b.ipMax = top ∧ b.name = none) : t.name.isNone := by
  have hmin := Entry.low_eq_false.mp (hlow t List.mem_cons_self)
  obtain ⟨b, hb, hbtop, hnone⟩ := hb
  rcases List.mem_cons.mp hb with rfl | hmem
  · rw [hnone]
    rfl
  · have hfirst := (List.pairwise_cons.mp hs).1 b hmem
    have hbmin := Entry.low_eq_false.mp (hlow b hb)
    clear hs hlow
    grind [ByMin, WiderBlank]

/-- On a list that is not harmless, one pass with this sort keeps a null name. -/
theorem null_kept {es : List Entry} (hs : es.Pairwise BlankFirst) (hharmful : ¬ NameSafe es) :
    (pass es).merged ≠ 0 ∧
      ∃ t ∈ kept sortBlankFirst es (pass es), t.name.isNone := by
  have hwide : es.Pairwise WidestFirst := hs.imp BlankFirst.widestFirst
  obtain ⟨heads, blanks, h, -, hnull⟩ := pass_named (hwide.imp ByMin.min_le)
  simp only [NameSafe, not_or, not_forall] at hharmful
  obtain ⟨hbelow, ⟨e, he, hetop⟩, hpair⟩ := hharmful
  have hne := h.blanks_ne_nil hwide hpair
  obtain ⟨f, hf, hhigh⟩ := h.head_high hbelow he (not_not.mp hetop)
  obtain ⟨t, T, hfilter, ht, hblanks⟩ := h.first_high (sortsByMin_sortBy WiderBlank) hf hhigh
  obtain ⟨b, hb⟩ := List.exists_mem_of_ne_nil blanks hne
  have hsort := (sortBy_pairwise WiderBlank (pass es).entries).filter
    (! Entry.low ·)
  have hlow : ∀ g ∈ (sortBlankFirst (pass es).entries).filter
      (! Entry.low ·), g.low = false := fun g hg => by simpa using List.of_mem_filter hg
  rw [hfilter] at hsort hlow
  refine ⟨?_, t, ht, head_null_of_blank hlow hsort
    ⟨b, hblanks b hb, (h.blank b hb).2, hnull b hb⟩⟩
  rw [h.merged]
  exact fun hzero => hne (List.length_eq_zero_iff.mp hzero)

/-- A merge whose first cut keeps a null name does not return. -/
theorem blocklistMerge_null {qsort : List Entry → List Entry} {b : Table}
    (hnamed : Named false b.entries) (hmerged : (pass b.entries).merged ≠ 0)
    (hnull : ∃ t ∈ kept qsort b.entries (pass b.entries), t.name.isNone) :
    blocklistMerge false qsort b = none := by
  obtain ⟨t, ht, hnone⟩ := hnull
  have hfirst : ¬ (b.entries.any (·.name.isNone)) := by
    simp only [List.any_eq_true, not_exists, not_and]
    intro e he hnone
    have hsome := hnamed rfl e he
    rw [Option.isNone_iff_eq_none.mp hnone] at hsome
    cases hsome
  have hne : b.entries ≠ [] := by
    intro hnil
    rw [hnil] at hmerged
    exact hmerged rfl
  obtain ⟨n, hn⟩ := Nat.exists_eq_succ_of_ne_zero fun h => hne (List.length_eq_zero_iff.mp h)
  have hkept : kept qsort b.entries (pass b.entries) ≠ [] := List.ne_nil_of_mem ht
  rw [blocklistMerge, mergeLoop, if_neg hne, if_neg fun h => hfirst h.2]
  -- the second call starts from the cut array
  dsimp only
  rw [if_neg (show ¬ (mergeFrom false b.entries.length 0 b.entries).merged = 0 from hmerged)]
  nth_rewrite 1 [hn]
  rw [mergeLoop]
  change (if kept qsort b.entries (pass b.entries) = [] then _ else
    if false = false ∧ (kept qsort b.entries (pass b.entries)).any (·.name.isNone) then none
    else _) = none
  rw [if_neg hkept, if_pos ⟨rfl, List.any_eq_true.mpr ⟨t, ht, hnone⟩⟩]

/-- On ranges that are not harmless this sort makes loading read a null name. -/
theorem loadAllLists_null {iconv : Text → Option Text} {ranges : List Range}
    (hharmful : ¬ NameSafe (ranges.map Range.entry)) :
    loadAllLists false sortBlankFirst iconv ranges = none := by
  have hperm := (sortsByMin_sortBy WiderBlank).perm (appendRanges false iconv ranges).entries
  have hharmful' : ¬ NameSafe (sortBlankFirst (appendRanges false iconv ranges).entries) := by
    rw [nameSafe_perm hperm, nameSafe_congr (ends_appendRanges false iconv ranges)]
    exact hharmful
  obtain ⟨hmerged, hnull⟩ := null_kept (sortBy_pairwise WiderBlank _) hharmful'
  refine blocklistMerge_null ?_ hmerged hnull
  exact fun _ e he => appendRanges_named iconv ranges rfl e (hperm.mem_iff.mp he)

/-- Whatever the sort does with equal lower ends, merging appended named ranges reads and keeps no
null name and cuts only absorbed entries, if and only if the ranges are harmless. -/
theorem keepsRight_iff_nameSafe (iconv : Text → Option Text) (ranges : List Range) :
    (∀ qsort, SortsByMin qsort →
      KeepsRight qsort (blocklistSort qsort (appendRanges false iconv ranges))) ↔
    NameSafe (ranges.map Range.entry) := by
  constructor
  · intro h
    by_contra hharmful
    obtain ⟨b', hb', -⟩ := (h sortBlankFirst (sortsByMin_sortBy WiderBlank)).returns
    cases (loadAllLists_null hharmful).symm.trans hb'
  · intro hsafe qsort hq
    have hperm := hq.perm (appendRanges false iconv ranges).entries
    have hnamed := appendRanges_named iconv ranges
    rw [← nameSafe_congr (ends_appendRanges false iconv ranges)] at hsafe
    obtain ⟨b', hb', hm⟩ := sortMerge_safe hq ((safe_false_iff _).mpr hsafe) hnamed
    refine ⟨⟨b', hb', hm.named rfl⟩, ?_⟩
    apply mergePasses_safe hq _ _ (hq.sorted _)
    · exact (nameSafe_perm hperm).mpr hsafe
    · exact fun _ e he => hnamed rfl e (hperm.mem_iff.mp he)

/-- 255.255.255.255 on two lines: the sort may put the freed entry first, the cut then drops the
merged one, and the recursive call takes the length of a null name. -/
theorem top_twice_null_name :
    SortsByMin sortBlankFirst ∧
    blocklistMerge false sortBlankFirst (blocklistSort sortBlankFirst
      (appendRanges false some [⟨top, top, ['a']⟩, ⟨top, top, ['b']⟩])) = none :=
  ⟨sortsByMin_sortBy WiderBlank, by decide⟩

end Dowse.Blocklist
