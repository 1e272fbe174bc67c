import Dowse.BlocklistNames
import Dowse.SeparatedIntervals
import Mathlib.Data.Nat.SuccPred

/-!
# The merged list as a normal form

The non-empty ranges of a merged list are the maximal intervals of the listed addresses, so they
depend on these addresses only and merging again leaves them. This holds in both builds for
harmless lists. On any other list there is a sort for which the build without names blocks an
address that is not listed, and the build with names does not return.
-/
namespace Dowse.Blocklist
open CStrings Pgld SeparatedIntervals

/-- The ranges of a table that list an address, as numbers. -/
def nonemptyRanges (b : Table) : List (ℕ × ℕ) :=
  (b.entries.filter fun e => e.ipMin ≤ e.ipMax).map fun e => (e.ipMin.toNat, e.ipMax.toNat)

/-- The addresses that appended ranges list. -/
def addresses (ranges : List Range) : Set ℕ :=
  {n | ∃ r ∈ ranges, r.ipMin.toNat ≤ n ∧ n ≤ r.ipMax.toNat}

/-- A table that depends on the listed addresses only, up to its empty ranges. -/
structure Canonical (lowmem : Bool) (S : Set ℕ) (b : Table) : Prop where
  maximal : MaximalIntervals S (nonemptyRanges b)
  determined : ∀ {qsort iconv ranges b'}, SortsByMin qsort → Safe lowmem (ranges.map Range.entry) →
    addresses ranges = S → loadAllLists lowmem qsort iconv ranges = some b' →
    nonemptyRanges b' = nonemptyRanges b
  again : ∀ {qsort}, SortsByMin qsort →
    ∃ b', blocklistMerge lowmem qsort (blocklistSort qsort b) = some b' ∧
      nonemptyRanges b' = nonemptyRanges b ∧ ((∀ e ∈ b.entries, e.ipMin ≤ e.ipMax) → b' = b)

section Ranges

theorem Apart.separated {e f : Entry} (h : Apart e f) :
    Separated (e.ipMin.toNat, e.ipMax.toNat) (f.ipMin.toNat, f.ipMax.toNat) := by
  obtain ⟨-, hne, hlt⟩ := h
  have htop : e.ipMax.toNat ≠ 4294967295 := fun heq => hne (UInt32.toNat_inj.mp heq)
  have hmax := e.ipMax.toNat_lt
  rw [UInt32.lt_iff_toNat_lt, UInt32.toNat_add, UInt32.toNat_one] at hlt
  refine ⟨e.ipMax.toNat + 1, Order.covBy_add_one _, ?_⟩
  change e.ipMax.toNat + 1 < f.ipMin.toNat
  omega

/-- A number between two addresses is an address. -/
theorem between_iff {lo hi : UInt32} {n : ℕ} :
    (lo.toNat ≤ n ∧ n ≤ hi.toNat) ↔ ∃ ip : UInt32, ip.toNat = n ∧ lo ≤ ip ∧ ip ≤ hi := by
  constructor
  · intro ⟨hlo, hhi⟩
    have hn : (UInt32.ofNat n).toNat = n := by
      rw [UInt32.toNat_ofNat']
      exact Nat.mod_eq_of_lt (Nat.lt_of_le_of_lt hhi hi.toNat_lt)
    rw [← hn] at hlo hhi
    exact ⟨_, hn, UInt32.le_iff_toNat_le.mpr hlo, UInt32.le_iff_toNat_le.mpr hhi⟩
  · rintro ⟨ip, rfl, hlo, hhi⟩
    exact ⟨UInt32.le_iff_toNat_le.mp hlo, UInt32.le_iff_toNat_le.mp hhi⟩

theorem mem_covered_nonemptyRanges {b : Table} {n : ℕ} :
    n ∈ covered (nonemptyRanges b) ↔ ∃ ip : UInt32, ip.toNat = n ∧ Listed b.entries ip := by
  constructor
  · intro ⟨p, hp, hends⟩
    obtain ⟨e, he, rfl⟩ := List.mem_map.mp hp
    obtain ⟨ip, hip, hhas⟩ := between_iff.mp hends
    exact ⟨ip, hip, e, (List.mem_filter.mp he).1, hhas⟩
  · intro ⟨ip, hip, e, he, hhas⟩
    have hmem : e ∈ b.entries.filter fun e => e.ipMin ≤ e.ipMax :=
      List.mem_filter.mpr ⟨he, decide_eq_true (UInt32.le_trans hhas.1 hhas.2)⟩
    exact ⟨_, List.mem_map_of_mem hmem, between_iff.mpr ⟨ip, hip, hhas⟩⟩

theorem mem_addresses {ranges : List Range} {n : ℕ} :
    n ∈ addresses ranges ↔
      ∃ ip : UInt32, ip.toNat = n ∧ Listed (ranges.map Range.entry) ip := by
  constructor
  · intro ⟨r, hr, hends⟩
    obtain ⟨ip, hip, hhas⟩ := between_iff.mp hends
    exact ⟨ip, hip, (listed_map_entry ranges ip).mpr ⟨r, hr, hhas⟩⟩
  · intro ⟨ip, hip, hlisted⟩
    obtain ⟨r, hr, hhas⟩ := (listed_map_entry ranges ip).mp hlisted
    exact ⟨r, hr, between_iff.mpr ⟨ip, hip, hhas⟩⟩

/-- Ranges with gaps between them are the maximal intervals of the listed addresses. -/
theorem maximalIntervals_of_apart {b : Table} (h : b.entries.Pairwise Apart) :
    MaximalIntervals (covered (nonemptyRanges b)) (nonemptyRanges b) := by
  apply maximalIntervals_covered
  · intro p hp
    obtain ⟨e, he, rfl⟩ := List.mem_map.mp hp
    exact UInt32.le_iff_toNat_le.mp (by simpa using (List.mem_filter.mp he).2)
  · exact (h.filter _).map _ fun e f hef => hef.separated

end Ranges

section Again

theorem relabel_relabel (lowmem : Bool) (e : Entry) :
    relabel lowmem (relabel lowmem e) = relabel lowmem e := by
  cases lowmem with
  | true => rfl
  | false =>
      have hcut : ∀ s : Text, mergedName (mergedName s []) [] = mergedName s [] := by
        intro s
        simp only [mergedName, if_true]
        split_ifs with hlong hagain
        · rw [List.take_take, Nat.min_self]
        · rfl
        · rfl
      simp only [relabel, headName, Entry.label, Bool.false_eq_true, if_false, Option.getD_some,
        List.map_nil, hcut]

theorem foldl_countRange_relabel (lowmem : Bool) (es : List Entry) (numips : UInt32) :
    (es.map (relabel lowmem)).foldl countRange numips = es.foldl countRange numips := by
  rw [List.foldl_map]
  rfl

/-- The table as a pass that merges nothing leaves it. -/
structure Settled (lowmem : Bool) (b : Table) : Prop where
  names : b.entries.map (relabel lowmem) = b.entries
  count : b.entries.foldl countRange 0 = b.numips

theorem mergeLoop_settled {lowmem : Bool} {qsort : List Entry → List Entry} (hq : SortsByMin qsort)
    {fuel : ℕ} {b b' : Table} (hs : SortedByMin b.entries) (hfuel : b.entries.length < fuel)
    (h : mergeLoop lowmem qsort fuel b = some b') : Settled lowmem b' := by
  obtain ⟨es, heads, -, hlast⟩ :=
    mergeLoop_last hq (P := fun _ => True) (fun _ _ _ => trivial) hs hfuel trivial h
  have hpass := mergeFrom_unmerged (Nat.le_refl _) hlast.pass.merged
  constructor
  · rw [hlast.entries, hpass, List.map_map]
    exact List.map_congr_left fun e _ => relabel_relabel lowmem e
  · rw [hlast.entries, hlast.numips, hpass]
    exact foldl_countRange_relabel lowmem es 0

/-- Ranges that are not empty and have gaps between them are in the only order that a sort can
give them. -/
theorem qsort_of_apart {qsort : List Entry → List Entry} (hq : SortsByMin qsort)
    {es : List Entry} (hapart : es.Pairwise Apart) (hle : ∀ e ∈ es, e.ipMin ≤ e.ipMax) :
    qsort es = es := by
  have hlt : ∀ {e f}, e ∈ es → Apart e f → e.ipMin < f.ipMin := by
    rintro e f he ⟨-, hne, hlt⟩
    have hends := hle e he
    clear hapart hle he
    grind [top]
  have : Std.Symm fun e f => Apart e f ∨ Apart f e := ⟨fun _ _ => Or.symm⟩
  have hor : es.Pairwise fun e f => Apart e f ∨ Apart f e := hapart.imp Or.inl
  apply List.Perm.eq_of_pairwise _ (hq.sorted es) (hapart.imp And.left) (hq.perm es)
  intro e f he hf hef hfe
  by_contra hne
  have he := (hq.perm es).mem_iff.mp he
  rcases hor.forall he hf hne with h | h
  · exact absurd (hlt he h) (UInt32.not_lt.mpr hfe)
  · exact absurd (hlt hf h) (UInt32.not_lt.mpr hef)

/-- Merging a merged table again is the identity, where no range is empty. -/
theorem blocklistMerge_settled {lowmem : Bool} {qsort : List Entry → List Entry}
    (hq : SortsByMin qsort) {b : Table} (hapart : b.entries.Pairwise Apart)
    (hnamed : Named lowmem b.entries) (hsettled : Settled lowmem b)
    (hle : ∀ e ∈ b.entries, e.ipMin ≤ e.ipMax) :
    blocklistMerge lowmem qsort (blocklistSort qsort b) = some b := by
  have hsort : blocklistSort qsort b = b := by
    rw [blocklistSort, qsort_of_apart hq hapart hle]
  obtain ⟨heads, blanks, h⟩ := mergeFrom_spec lowmem _ 0 b.entries
    (hapart.imp And.left) (Nat.le_refl _)
  have hmerged : (mergeFrom lowmem b.entries.length 0 b.entries).merged = 0 := by
    by_contra hne
    apply h.mergeable
    · exact mt h.merged_eq_zero_iff.mpr hne
    · refine hapart.imp ?_
      rintro e f ⟨-, hne, hlt⟩ ⟨-, hor⟩
      exact hor.elim hne (UInt32.not_le.mpr hlt)
  rw [hsort, blocklistMerge, mergeLoop]
  split_ifs with hnil hnull
  · have hzero : b.numips = 0 := by
      rw [← hsettled.count, hnil]
      rfl
    rw [← hzero]
  · exact absurd hnull hnamed.not_null
  · dsimp only
    rw [if_pos hmerged, mergeFrom_unmerged (Nat.le_refl _) hmerged, hsettled.names,
      hsettled.count]

end Again

section Loaded

variable {lowmem : Bool} {qsort : List Entry → List Entry} (hq : SortsByMin qsort)
  {iconv : Text → Option Text} {ranges : List Range}

theorem named_appendRanges (lowmem : Bool) (iconv : Text → Option Text) (ranges : List Range) :
    Named lowmem (appendRanges lowmem iconv ranges).entries := by
  rintro rfl
  exact appendRanges_named iconv ranges rfl

theorem listed_appendRanges_iff (lowmem : Bool) (iconv : Text → Option Text)
    (ranges : List Range) (ip : UInt32) :
    Listed (appendRanges lowmem iconv ranges).entries ip ↔ Listed (ranges.map Range.entry) ip := by
  rw [listed_iff_ends, ends_appendRanges, ← listed_iff_ends]

include hq in
/-- Loading harmless ranges gives a table that lists their addresses. -/
theorem loadAllLists_safe (hsafe : Safe lowmem (ranges.map Range.entry)) :
    ∃ b, loadAllLists lowmem qsort iconv ranges = some b ∧
      Merged lowmem (ranges.map Range.entry) b ∧ Settled lowmem b := by
  obtain ⟨b, hb, hm⟩ := sortMerge_safe hq
    ((safe_congr (ends_appendRanges lowmem iconv ranges)).mpr hsafe)
    (named_appendRanges lowmem iconv ranges)
  refine ⟨b, hb, ?_, mergeLoop_settled hq (hq.sorted _) (Nat.lt_succ_self _) hb⟩
  refine ⟨hm.apart, fun ip => ?_, hm.safe, hm.named⟩
  rw [hm.listed, listed_appendRanges_iff]

theorem Merged.maximal {b : Table} (h : Merged lowmem (ranges.map Range.entry) b) :
    MaximalIntervals (addresses ranges) (nonemptyRanges b) := by
  have hcovered : covered (nonemptyRanges b) = addresses ranges := by
    ext n
    simp only [mem_covered_nonemptyRanges, mem_addresses, h.listed]
  exact hcovered ▸ maximalIntervals_of_apart h.apart

theorem Merged.canonical {b : Table} (h : Merged lowmem (ranges.map Range.entry) b)
    (hsettled : Settled lowmem b) : Canonical lowmem (addresses ranges) b where
  maximal := h.maximal
  determined := by
    intro qsort' iconv' ranges' b' hq' hsafe' haddresses hb'
    obtain ⟨c, hc, hm, -⟩ := @loadAllLists_safe _ _ hq' iconv' _ hsafe'
    obtain rfl : c = b' := Option.some.inj (hc.symm.trans hb')
    exact MaximalIntervals.unique (haddresses ▸ hm.maximal) h.maximal
  again := by
    intro qsort' hq'
    obtain ⟨b', hb', hm⟩ := sortMerge_safe hq' h.safe h.named
    refine ⟨b', hb', ?_, fun hle => ?_⟩
    · have hm' : Merged lowmem (ranges.map Range.entry) b' :=
        ⟨hm.apart, fun ip => (hm.listed ip).trans (h.listed ip), hm.safe, hm.named⟩
      exact hm'.maximal.unique h.maximal
    · have hsame := blocklistMerge_settled hq' h.apart h.named hsettled hle
      exact Option.some.inj (hb'.symm.trans hsame)

end Loaded

/-- On a list that is not harmless the build without names may list the top address. -/
theorem unlisted_top_of_harmful {iconv : Text → Option Text} {ranges : List Range}
    (hharmful : ¬ TopSafe (ranges.map Range.entry)) :
    ∃ b, loadAllLists true sortWidestFirst iconv ranges = some b ∧
      top.toNat ∈ covered (nonemptyRanges b) ∧ top.toNat ∉ addresses ranges := by
  have hperm := (sortsByMin_sortBy Wider).perm (appendRanges true iconv ranges).entries
  have hsafe : TopSafe (sortWidestFirst (appendRanges true iconv ranges).entries) ↔
      TopSafe (ranges.map Range.entry) := by
    rw [← safe_true_iff, ← safe_true_iff, safe_perm hperm,
      safe_congr (ends_appendRanges true iconv ranges)]
  obtain ⟨b, hb, -, hlisted⟩ :=
    mergeLoop_blank (blocklistSort sortWidestFirst (appendRanges true iconv ranges))
      (sortBy_pairwise Wider _) fun h => hharmful (hsafe.mp h)
  refine ⟨b, hb, mem_covered_nonemptyRanges.mpr ⟨top, rfl, hlisted⟩, fun hmem => ?_⟩
  obtain ⟨ip, hip, hlisted⟩ := mem_addresses.mp hmem
  obtain rfl := UInt32.toNat_inj.mp hip
  exact hharmful (Or.inl hlisted)

/-- Whatever the sort does with equal lower ends, loading returns a table whose non-empty ranges
are the maximal intervals of the listed addresses, the same for any other harmless ranges that
list these, and unchanged by sorting and merging again, if and only if the ranges are harmless. -/
theorem canonical_iff_safe (lowmem : Bool) (iconv : Text → Option Text) (ranges : List Range) :
    (∀ qsort, SortsByMin qsort → ∃ b, loadAllLists lowmem qsort iconv ranges = some b ∧
      Canonical lowmem (addresses ranges) b) ↔ Safe lowmem (ranges.map Range.entry) := by
  constructor
  · intro h
    by_contra hharmful
    cases lowmem with
    | false =>
        rw [safe_false_iff] at hharmful
        obtain ⟨b, hb, -⟩ := h sortBlankFirst (sortsByMin_sortBy WiderBlank)
        cases (loadAllLists_null hharmful).symm.trans hb
    | true =>
        rw [safe_true_iff] at hharmful
        obtain ⟨b', hb', hcovered, hnot⟩ := unlisted_top_of_harmful hharmful
        obtain ⟨b, hb, hcanonical⟩ := h sortWidestFirst (sortsByMin_sortBy Wider)
        obtain rfl : b' = b := Option.some.inj (hb'.symm.trans hb)
        obtain ⟨p, hp, hends⟩ := hcovered
        exact hnot (((hcanonical.maximal.mem_iff p).mp hp).subset hends)
  · intro hsafe qsort hq
    obtain ⟨b, hb, hm, hsettled⟩ := loadAllLists_safe hq hsafe
    exact ⟨b, hb, hm.canonical hsettled⟩

/-- Without names, two ranges that merge and one that starts at the top address but lists nothing:
the loaded list has a range for 255.255.255.255. With names, that address on two lines: loading
does not return. -/
theorem merged_not_canonical :
    SortsByMin sortWidestFirst ∧ SortsByMin sortBlankFirst ∧
    (loadAllLists true sortWidestFirst some
      [⟨1, 5, []⟩, ⟨3, 8, []⟩, ⟨top, 5, []⟩]).map nonemptyRanges =
        some [(1, 8), (4294967295, 4294967295)] ∧
    loadAllLists false sortBlankFirst some [⟨top, top, ['a']⟩, ⟨top, top, ['b']⟩] = none := by
  refine ⟨sortsByMin_sortBy Wider, sortsByMin_sortBy WiderBlank, ?_, ?_⟩ <;> decide

end Dowse.Blocklist
