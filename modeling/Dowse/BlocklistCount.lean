import Dowse.BlocklistCanonical
import Mathlib.Order.Interval.Finset.Nat

/-!
# How many addresses a merged blocklist counts

Each pass of `blocklist_merge` adds up the sizes of the ranges in 32 bits. A pass that merges
counts one address for a range that has absorbed others, and the last pass corrects this. The sum
up to a range is never above its lower end, so it does not wrap around as long as no range is
inverted where it is counted. An inverted range is not counted when another range reaches up to
it, or when it ends right below its own start and another range starts there.
-/
namespace Dowse.Blocklist
open CStrings Pgld SeparatedIntervals

/-- The entries whose sizes a pass adds. For an entry that has absorbed others it is the last of
the blanks. -/
def counted : ℕ → List Entry → List Entry
  | 0, _ => []
  | _, [] => []
  | fuel + 1, e :: es =>
      let r := reach e.ipMax es
      (if r.1 = 0 then e else ⟨top, top, none, 0⟩) :: counted fuel (es.drop r.1)

/-- Neither a difference of two ends nor a sum with it wraps around. -/
def NoWrap : UInt32 → List Entry → Prop
  | _, [] => True
  | numips, e :: es =>
      e.ipMin ≤ e.ipMax ∧ numips.toNat + (e.ipMax - e.ipMin).toNat < 2 ^ 32 ∧
        NoWrap (countRange numips e) es

/-- Each inverted range has the address below its start listed, or ends there and has its start
listed. -/
def Tame (es : List Entry) : Prop :=
  ∀ e ∈ es, e.ipMax < e.ipMin → Listed es (e.ipMin - 1) ∨
    (e.ipMax + 1 = e.ipMin ∧ Listed es e.ipMin)

theorem toNat_add_one {a : UInt32} (h : a ≠ top) : (a + 1).toNat = a.toNat + 1 := by
  have hlt := a.toNat_lt
  have hne : a.toNat ≠ 4294967295 := fun heq => h (UInt32.toNat_inj.mp heq)
  rw [UInt32.toNat_add, UInt32.toNat_one]
  omega

theorem ne_top_of_lt {a b : UInt32} (h : a < b) : a ≠ top := by
  rintro rfl
  have hlt := b.toNat_lt
  rw [UInt32.lt_iff_toNat_lt] at h
  change 4294967295 < _ at h
  omega

theorem toNat_sub_one {a b : UInt32} (h : a < b) : (b - 1).toNat = b.toNat - 1 := by
  have hlt := UInt32.lt_iff_toNat_lt.mp h
  refine UInt32.toNat_sub_of_le b 1 (UInt32.le_iff_toNat_le.mpr ?_)
  rw [UInt32.toNat_one]
  omega

section Pass

theorem numips_mergeFrom (lowmem : Bool) (fuel : ℕ) (numips : UInt32) (es : List Entry) :
    (mergeFrom lowmem fuel numips es).numips = (counted fuel es).foldl countRange numips := by
  induction fuel generalizing numips es with
  | zero => rfl
  | succ fuel ih =>
      cases es with
      | nil => rfl
      | cons e es =>
          simp only [mergeFrom, counted, List.foldl_cons, ih]
          congr 1
          split_ifs with hzero
          · rw [hzero]
            rfl
          · have hne : es.take (reach e.ipMax es).1 ≠ [] := by
              intro hnil
              have hlen := congrArg List.length hnil
              have hle := reach_le e.ipMax es
              rw [List.length_take, List.length_nil] at hlen
              omega
            rw [List.getLast?_map, List.getLast?_eq_some_getLast hne]
            rfl

theorem Reach.gap {lo ipMax : UInt32} {es : List Entry} {r : ℕ × UInt32}
    (hr : Reach lo ipMax es r) {f : Entry} (hf : f ∈ es.drop r.1) :
    r.2.toNat + 1 < f.ipMin.toNat := by
  obtain ⟨hne, hlt⟩ := hr.rest f hf
  rwa [UInt32.lt_iff_toNat_lt, toNat_add_one hne] at hlt

/-- What a list lists is what its first entry reaches, and what the rest lists. -/
theorem Reach.listed_iff {e : Entry} {es : List Entry} {r : ℕ × UInt32}
    (hr : Reach e.ipMin e.ipMax es r) (ip : UInt32) :
    Listed (e :: es) ip ↔ (e.ipMin ≤ ip ∧ ip ≤ r.2) ∨ Listed (es.drop r.1) ip := by
  rw [listed_cons, hr.has, or_assoc, ← listed_append, List.take_append_drop]

/-- One turn of the outer loop on a tame list: what is left is tame, and the range that is formed
is not empty. -/
theorem Tame.turn {e : Entry} {es : List Entry} (h : Tame (e :: es)) (hs : SortedByMin (e :: es))
    (hr : Reach e.ipMin e.ipMax es (reach e.ipMax es)) :
    Tame (es.drop (reach e.ipMax es).1) ∧ e.ipMin ≤ (reach e.ipMax es).2 := by
  obtain ⟨hmin, -⟩ := List.pairwise_cons.mp hs
  constructor
  · intro f hf hinverted
    have hgap := hr.gap hf
    -- the addresses at the start of `f` lie behind what `e` reaches
    have hbehind : ∀ {ip : UInt32}, f.ipMin.toNat ≤ ip.toNat + 1 → Listed (e :: es) ip →
        Listed (es.drop (reach e.ipMax es).1) ip := by
      intro ip hip hlisted
      refine ((hr.listed_iff ip).mp hlisted).resolve_left fun hreach => ?_
      have hle := UInt32.le_iff_toNat_le.mp hreach.2
      omega
    refine (h f (List.mem_cons_of_mem e (List.mem_of_mem_drop hf)) hinverted).imp ?_ ?_
    · apply hbehind
      rw [toNat_sub_one hinverted]
      omega
    · exact And.imp_right (hbehind (Nat.le_succ _))
  · by_contra hempty
    rw [UInt32.not_le] at hempty
    have hinverted : e.ipMax < e.ipMin := UInt32.lt_of_le_of_lt hr.ge hempty
    rcases h e List.mem_cons_self hinverted with ⟨f, hf, hle, -⟩ | ⟨hadjacent, hlisted⟩
    · have hstart : e.ipMin ≤ f.ipMin := by
        rcases List.mem_cons.mp hf with rfl | hf
        · exact UInt32.le_refl _
        · exact hmin f hf
      have hpos := UInt32.lt_iff_toNat_lt.mp hinverted
      rw [UInt32.le_iff_toNat_le] at hstart hle
      rw [toNat_sub_one hinverted] at hle
      omega
    · rcases (hr.listed_iff e.ipMin).mp hlisted with ⟨-, hle⟩ | ⟨f, hf, hle, -⟩
      · exact absurd hempty (UInt32.not_lt.mpr hle)
      · have hgap := hr.gap hf
        have hge := UInt32.le_iff_toNat_le.mp hr.ge
        rw [UInt32.le_iff_toNat_le, ← hadjacent, toNat_add_one (ne_top_of_lt hinverted)] at hle
        omega

theorem toNat_countRange {numips : UInt32} {e : Entry} (hle : e.ipMin ≤ e.ipMax)
    (hfits : numips.toNat + (e.ipMax - e.ipMin).toNat < 2 ^ 32) :
    (countRange numips e).toNat =
      min (numips.toNat + (e.ipMax.toNat - e.ipMin.toNat) + 1) 4294967295 := by
  rw [UInt32.toNat_sub_of_le _ _ hle] at hfits
  have hsum : (numips + (e.ipMax - e.ipMin)).toNat =
      numips.toNat + (e.ipMax.toNat - e.ipMin.toNat) := by
    rw [UInt32.toNat_add, UInt32.toNat_sub_of_le _ _ hle, Nat.mod_eq_of_lt hfits]
  unfold countRange
  dsimp only
  split_ifs with hlt
  · rw [toNat_add_one (UInt32.ne_of_lt hlt), hsum]
    have hbelow := UInt32.lt_iff_toNat_lt.mp hlt
    change _ < 4294967295 at hbelow
    omega
  · have htop := UInt32.le_iff_toNat_le.mp (UInt32.not_lt.mp hlt)
    change 4294967295 ≤ _ at htop
    omega

/-- As long as the counter has not passed the start of the list, nothing wraps around. -/
theorem Tame.noWrap {fuel : ℕ} {numips : UInt32} {es : List Entry} (h : Tame es)
    (hs : SortedByMin es) (hnumips : ∀ e ∈ es, numips.toNat ≤ e.ipMin.toNat) :
    NoWrap numips (counted fuel es) := by
  induction fuel generalizing numips es with
  | zero => trivial
  | succ fuel ih =>
      cases es with
      | nil => trivial
      | cons e es =>
          obtain ⟨hmin, hs'⟩ := List.pairwise_cons.mp hs
          have hr := reach_spec e.ipMin e.ipMax es hs' hmin
          obtain ⟨hrest, hformed⟩ := h.turn hs hr
          have hstart := hnumips e List.mem_cons_self
          have hformed' := UInt32.le_iff_toNat_le.mp hformed
          -- the counter stays below the end of what is formed
          have hnext : ∀ {numips' : UInt32}, numips'.toNat ≤ (reach e.ipMax es).2.toNat + 1 →
              NoWrap numips' (counted fuel (es.drop (reach e.ipMax es).1)) := by
            intro numips' hle
            refine ih hrest (hs'.sublist (List.drop_sublist _ _)) fun f hf => ?_
            have hgap := hr.gap hf
            omega
          rw [counted]
          split_ifs with hzero
          · rw [hr.none_absorbed hzero] at hformed hformed' hnext
            have hfits : numips.toNat + (e.ipMax - e.ipMin).toNat < 2 ^ 32 := by
              have hlt := e.ipMax.toNat_lt
              rw [UInt32.toNat_sub_of_le _ _ hformed]
              omega
            refine ⟨hformed, hfits, hnext ?_⟩
            rw [toNat_countRange hformed hfits]
            omega
          · have hfits : numips.toNat + (top - top).toNat < 2 ^ 32 := numips.toNat_lt
            have hone := @toNat_countRange numips ⟨top, top, none, 0⟩ (UInt32.le_refl top) hfits
            dsimp only at hone
            refine ⟨UInt32.le_refl top, hfits, hnext ?_⟩
            omega

/-- The entries of a pass over a tame list are not inverted. -/
theorem Tame.entries_le {lowmem : Bool} {fuel : ℕ} {numips : UInt32} {es : List Entry}
    (h : Tame es) (hs : SortedByMin es) (hfuel : es.length ≤ fuel) :
    ∀ e ∈ (mergeFrom lowmem fuel numips es).entries, e.ipMin ≤ e.ipMax := by
  induction fuel generalizing numips es with
  | zero =>
      obtain rfl : es = [] := List.length_eq_zero_iff.mp (Nat.le_zero.mp hfuel)
      simp [mergeFrom]
  | succ fuel ih =>
      cases es with
      | nil => simp [mergeFrom]
      | cons e es =>
          obtain ⟨hmin, hs'⟩ := List.pairwise_cons.mp hs
          have hr := reach_spec e.ipMin e.ipMax es hs' hmin
          obtain ⟨hrest, hformed⟩ := h.turn hs hr
          simp only [mergeFrom, List.forall_mem_cons, List.forall_mem_append]
          refine ⟨?_, ?_, ih hrest (hs'.sublist (List.drop_sublist _ _)) (length_drop_le _ hfuel)⟩
          · split_ifs with hzero
            · rwa [hr.none_absorbed hzero] at hformed
            · exact hformed
          · intro b hb
            obtain ⟨q, -, rfl⟩ := List.mem_map.mp hb
            exact UInt32.le_refl _

theorem tame_of_le {es : List Entry} (h : ∀ e ∈ es, e.ipMin ≤ e.ipMax) : Tame es :=
  fun e he hinverted => absurd hinverted (UInt32.not_lt.mpr (h e he))

theorem tame_perm {es fs : List Entry} (h : es.Perm fs) : Tame es ↔ Tame fs := by
  simp only [Tame, h.mem_iff, listed_perm h]

theorem tame_congr {es fs : List Entry} (h : ends es = ends fs) : Tame es ↔ Tame fs := by
  have hends : ∀ es : List Entry, Tame es ↔ ∀ p ∈ ends es, p.2 < p.1 →
      Listed es (p.1 - 1) ∨ (p.2 + 1 = p.1 ∧ Listed es p.1) := by
    intro es
    simp [Tame, ends]
  simp only [hends, listed_iff_ends, h]

end Pass

section Passes

variable {lowmem : Bool} {qsort : List Entry → List Entry} (hq : SortsByMin qsort)

include hq

theorem Tame.kept_le {es : List Entry} (h : Tame es) (hs : SortedByMin es) :
    ∀ e ∈ kept qsort es (mergeFrom lowmem es.length 0 es), e.ipMin ≤ e.ipMax :=
  fun e he => h.entries_le hs (Nat.le_refl _) e
    ((hq.perm _).mem_iff.mp (List.mem_of_mem_take he))

theorem mergePasses_noWrap {fuel : ℕ} {es : List Entry} (h : Tame es) (hs : SortedByMin es) :
    ∀ fs ∈ mergePasses lowmem qsort fuel es, NoWrap 0 (counted fs.length fs) := by
  induction fuel generalizing es with
  | zero => simp [mergePasses]
  | succ fuel ih =>
      rw [mergePasses]
      refine List.forall_mem_cons.mpr ⟨h.noWrap hs fun _ _ => Nat.zero_le _, ?_⟩
      split_ifs with hmerged
      · simp
      · exact ih (tame_of_le (h.kept_le hq hs)) (kept_sorted hq)

theorem mergeLoop_entries_le {fuel : ℕ} {b b' : Table} (h : Tame b.entries)
    (hs : SortedByMin b.entries) (hfuel : b.entries.length < fuel)
    (hmerge : mergeLoop lowmem qsort fuel b = some b') :
    ∀ e ∈ b'.entries, e.ipMin ≤ e.ipMax := by
  obtain ⟨es, heads, htame, hlast⟩ := mergeLoop_last hq (P := Tame)
    (fun hs _ hes => tame_of_le (hes.kept_le hq hs)) hs hfuel h hmerge
  rw [hlast.entries]
  exact htame.entries_le hlast.sorted (Nat.le_refl _)

end Passes

section Total

def Entry.span (e : Entry) : ℕ := e.ipMax.toNat - e.ipMin.toNat + 1

/-- For ranges with gaps between them the count is the sum of their sizes, up to the top of the
counter. -/
theorem foldl_countRange {numips : UInt32} {es : List Entry} (hapart : es.Pairwise Apart)
    (hle : ∀ e ∈ es, e.ipMin ≤ e.ipMax) (hnumips : ∀ e ∈ es, numips.toNat ≤ e.ipMin.toNat) :
    (es.foldl countRange numips).toNat =
      min (numips.toNat + (es.map Entry.span).sum) 4294967295 := by
  induction es generalizing numips with
  | nil =>
      have hlt := numips.toNat_lt
      simp only [List.foldl_nil, List.map_nil, List.sum_nil, Nat.add_zero]
      omega
  | cons e es ih =>
      obtain ⟨hgap, hapart⟩ := List.pairwise_cons.mp hapart
      obtain ⟨hle, hles⟩ := List.forall_mem_cons.mp hle
      have hstart := hnumips e List.mem_cons_self
      have hends := UInt32.le_iff_toNat_le.mp hle
      have hlt := e.ipMax.toNat_lt
      have hfits : numips.toNat + (e.ipMax - e.ipMin).toNat < 2 ^ 32 := by
        rw [UInt32.toNat_sub_of_le _ _ hle]
        omega
      have hcount := toNat_countRange hle hfits
      rw [List.foldl_cons, List.map_cons, List.sum_cons, Entry.span]
      cases es with
      | nil =>
          rw [List.foldl_nil, hcount, List.map_nil, List.sum_nil]
          omega
      | cons f fs =>
          -- a range behind this one leaves room below the top
          have hroom : ∀ g ∈ f :: fs, e.ipMax.toNat + 1 < g.ipMin.toNat := by
            intro g hg
            obtain ⟨-, hne, hgap⟩ := hgap g hg
            rwa [UInt32.lt_iff_toNat_lt, toNat_add_one hne] at hgap
          have hf := hroom f List.mem_cons_self
          have hfmax := f.ipMin.toNat_lt
          rw [ih hapart hles fun g hg => ?_]
          · omega
          · have hg := hroom g hg
            omega

/-- The sizes of the ranges of a merged table without inverted ones add up to the number of the
addresses it lists. -/
theorem sum_span {b : Table} (hapart : b.entries.Pairwise Apart)
    (hle : ∀ e ∈ b.entries, e.ipMin ≤ e.ipMax) :
    (b.entries.map Entry.span).sum = (covered (nonemptyRanges b)).ncard := by
  have hfilter : b.entries.filter (fun e => e.ipMin ≤ e.ipMax) = b.entries :=
    List.filter_eq_self.mpr fun e he => decide_eq_true (hle e he)
  have hincreasing : (nonemptyRanges b).Pairwise fun p q => p.2 < q.1 :=
    (maximalIntervals_of_apart hapart).increasing
  rw [ncard_covered hincreasing, nonemptyRanges, hfilter, List.map_map]
  refine congrArg List.sum (List.map_congr_left fun e he => ?_)
  have hends := UInt32.le_iff_toNat_le.mp (hle e he)
  rw [Function.comp_apply, Nat.card_Icc, Entry.span]
  omega

end Total

/-- The counter of a pass is the sum over the counted entries, and no sum wraps around. -/
structure PassCounts (lowmem : Bool) (es : List Entry) : Prop where
  sum : (mergeFrom lowmem es.length 0 es).numips = (counted es.length es).foldl countRange 0
  noWrap : NoWrap 0 (counted es.length es)

/-- Loading gives a table whose counter is the number of the listed addresses, or at its top when
these are all addresses, and no sum wraps around on the way. -/
structure CountsExactly (lowmem : Bool) (qsort : List Entry → List Entry)
    (iconv : Text → Option Text) (ranges : List Range) : Prop where
  total : ∃ b, loadAllLists lowmem qsort iconv ranges = some b ∧
    b.numips.toNat = min (addresses ranges).ncard 4294967295
  passes : let es := qsort (appendRanges lowmem iconv ranges).entries
    ∀ fs ∈ mergePasses lowmem qsort (es.length + 1) es, PassCounts lowmem fs

/-- An inverted range that is tame does no harm at the top address. -/
theorem Tame.safe_lowmem {es : List Entry} (h : Tame es) : Safe true es := by
  by_cases hstarts : ∀ e ∈ es, e.ipMin ≠ top
  · exact .inr (.inr (.inl hstarts))
  · push Not at hstarts
    obtain ⟨e, he, hmin⟩ := hstarts
    by_cases hmax : e.ipMax = top
    · exact .inl ⟨rfl, e, he, UInt32.le_of_eq hmin, UInt32.le_of_eq hmax.symm⟩
    · have hinverted : e.ipMax < e.ipMin := by
        rw [hmin]
        grind [top]
      rcases h e he hinverted with hbelow | ⟨-, hlisted⟩
      · exact .inr (.inl (hmin ▸ hbelow))
      · exact .inl ⟨rfl, hmin ▸ hlisted⟩

theorem countsExactly_of_tame {lowmem : Bool} {qsort : List Entry → List Entry}
    (hq : SortsByMin qsort) {iconv : Text → Option Text} {ranges : List Range}
    (hnames : lowmem = false → NameSafe (ranges.map Range.entry))
    (htame : Tame (ranges.map Range.entry)) : CountsExactly lowmem qsort iconv ranges := by
  have hsafe : Safe lowmem (ranges.map Range.entry) := by
    cases lowmem with
    | false => exact (safe_false_iff _).mpr (hnames rfl)
    | true => exact htame.safe_lowmem
  have hperm := hq.perm (appendRanges lowmem iconv ranges).entries
  have htame' : Tame (qsort (appendRanges lowmem iconv ranges).entries) :=
    (tame_perm hperm).mpr ((tame_congr (ends_appendRanges lowmem iconv ranges)).mpr htame)
  obtain ⟨b, hb, hmerged, hsettled⟩ := @loadAllLists_safe _ _ hq iconv _ hsafe
  refine ⟨⟨b, hb, ?_⟩, fun fs hfs => ⟨numips_mergeFrom lowmem _ 0 fs, ?_⟩⟩
  swap
  · exact mergePasses_noWrap hq htame' (hq.sorted _) fs hfs
  have hle := mergeLoop_entries_le hq htame' (hq.sorted _) (Nat.lt_succ_self _) hb
  have hlisted : covered (nonemptyRanges b) = addresses ranges := by
    ext n
    simp only [mem_covered_nonemptyRanges, mem_addresses, hmerged.listed]
  rw [← hsettled.count, foldl_countRange hmerged.apart hle fun _ _ => Nat.zero_le _,
    sum_span hmerged.apart hle, hlisted]
  rw [UInt32.toNat_zero, Nat.zero_add]

def Narrower (e f : Entry) : Prop := e.ipMax ≤ f.ipMax

instance : DecidableRel Narrower := fun e f => inferInstanceAs (Decidable (e.ipMax ≤ f.ipMax))

instance : IsTrans Entry Narrower := ⟨fun e f g => by grind [Narrower]⟩

instance : Std.Total Narrower := ⟨fun e f => by grind [Narrower]⟩

abbrev NarrowFirst : Entry → Entry → Prop := ByMin Narrower

abbrev sortNarrowFirst : List Entry → List Entry := sortBy Narrower

section Strays

/-- An entry is not absorbed by one that starts below it, where the address below its start is not
listed. -/
theorem Reach.mem_drop {e q : Entry} {es : List Entry} {r : ℕ × UInt32}
    (hr : Reach e.ipMin e.ipMax es r) (hq : q ∈ e :: es) (hlt : e.ipMin < q.ipMin)
    (hbelow : ¬ Listed (e :: es) (q.ipMin - 1)) : q ∈ es.drop r.1 := by
  have hmem : q ∈ es := by
    refine (List.mem_cons.mp hq).resolve_left ?_
    rintro rfl
    exact UInt32.lt_irrefl _ hlt
  rw [← List.take_append_drop r.1 es] at hmem
  refine (List.mem_append.mp hmem).resolve_left fun habsorbed => hbelow ?_
  have hstart := UInt32.lt_iff_toNat_lt.mp hlt
  have hlast := q.ipMin.toNat_lt
  refine (hr.listed_iff _).mpr (.inl ⟨?_, ?_⟩) <;>
    rw [UInt32.le_iff_toNat_le, toNat_sub_one hlt]
  · omega
  · by_cases htop : r.2 = top
    · rw [htop]
      change _ ≤ 4294967295
      omega
    · have hreach := (hr.absorbed q habsorbed).resolve_left htop
      rw [UInt32.le_iff_toNat_le, toNat_add_one htop] at hreach
      omega

theorem not_listed_drop {e : Entry} {es : List Entry} {ip : UInt32} (n : ℕ)
    (h : ¬ Listed (e :: es) ip) : ¬ Listed (es.drop n) ip := by
  rintro ⟨f, hf, hhas⟩
  exact h ⟨f, List.mem_cons_of_mem e (List.mem_of_mem_drop hf), hhas⟩

/-- With this sort an inverted range that leaves a gap below its start is counted. -/
theorem wraps_of_gap {fuel : ℕ} {numips : UInt32} {es : List Entry}
    (hs : es.Pairwise NarrowFirst) (hfuel : es.length ≤ fuel) {q : Entry} (hq : q ∈ es)
    (hgap : q.ipMax.toNat + 1 < q.ipMin.toNat) (hbelow : ¬ Listed es (q.ipMin - 1)) :
    ¬ NoWrap numips (counted fuel es) := by
  induction fuel generalizing numips es with
  | zero =>
      obtain rfl : es = [] := List.length_eq_zero_iff.mp (Nat.le_zero.mp hfuel)
      cases hq
  | succ fuel ih =>
      cases es with
      | nil => cases hq
      | cons e es =>
          obtain ⟨hfirst, hs'⟩ := List.pairwise_cons.mp hs
          have hr := reach_spec e.ipMin e.ipMax es (hs'.imp ByMin.min_le)
            fun f hf => (hfirst f hf).min_le
          rw [counted]
          rintro ⟨hle, -, hnoWrap⟩
          by_cases hstart : e.ipMin < q.ipMin
          · exact ih (hs'.sublist (List.drop_sublist _ _)) (length_drop_le _ hfuel)
              (hr.mem_drop hq hstart hbelow) (not_listed_drop _ hbelow) hnoWrap
          · -- the first of the ranges that start here ends no higher, and absorbs nothing
            have hnarrow : e.ipMin = q.ipMin ∧ e.ipMax ≤ q.ipMax := by
              rcases List.mem_cons.mp hq with rfl | hmem
              · exact ⟨rfl, UInt32.le_refl _⟩
              · exact (hfirst q hmem).resolve_left hstart
            obtain ⟨hmin, hmax⟩ := hnarrow
            rw [UInt32.le_iff_toNat_le] at hmax
            have hinverted : e.ipMax < e.ipMin := by
              rw [UInt32.lt_iff_toNat_lt, hmin]
              omega
            have hzero : (reach e.ipMax es).1 = 0 := by
              by_contra habsorbs
              obtain ⟨g, hg, hreach⟩ := hr.first habsorbs
              have hgmin := UInt32.le_iff_toNat_le.mp (hfirst g hg).min_le
              rw [hmin] at hgmin
              have htop := ne_top_of_lt hinverted
              have hadjacent := hreach.resolve_left htop
              rw [UInt32.le_iff_toNat_le, toNat_add_one htop] at hadjacent
              omega
            rw [if_pos hzero] at hle
            exact absurd hinverted (UInt32.not_lt.mpr hle)

/-- A start that is listed as little as the address below it, with an inverted range there. -/
structure Stray (lo : UInt32) (es : List Entry) : Prop where
  entry : ∃ q ∈ es, q.ipMin = lo ∧ q.ipMax < lo
  below : ¬ Listed es (lo - 1)
  start : ¬ Listed es lo

/-- A pass leaves an inverted range at this start. -/
theorem Stray.entries {lowmem : Bool} {fuel : ℕ} {numips lo : UInt32} {es : List Entry}
    (h : Stray lo es) (hs : SortedByMin es) (hfuel : es.length ≤ fuel) :
    ∃ q ∈ (mergeFrom lowmem fuel numips es).entries, q.ipMin = lo ∧ q.ipMax < lo := by
  induction fuel generalizing numips es with
  | zero =>
      obtain rfl : es = [] := List.length_eq_zero_iff.mp (Nat.le_zero.mp hfuel)
      obtain ⟨q, hq, -⟩ := h.entry
      cases hq
  | succ fuel ih =>
      obtain ⟨⟨q, hq, hmin, hmax⟩, hbelow, hstart⟩ := h
      cases es with
      | nil => cases hq
      | cons e es =>
          obtain ⟨hle, hs'⟩ := List.pairwise_cons.mp hs
          have hr := reach_spec e.ipMin e.ipMax es hs' hle
          simp only [mergeFrom, List.mem_cons, List.mem_append]
          by_cases hlt : e.ipMin < q.ipMin
          · have hdrop := hr.mem_drop hq hlt (hmin ▸ hbelow)
            have hrest : Stray lo (es.drop (reach e.ipMax es).1) :=
              ⟨⟨q, hdrop, hmin, hmax⟩, not_listed_drop _ hbelow, not_listed_drop _ hstart⟩
            obtain ⟨f, hf, hends⟩ :=
              ih hrest (hs'.sublist (List.drop_sublist _ _)) (length_drop_le _ hfuel)
            exact ⟨f, .inr (.inr hf), hends⟩
          · have hlo : e.ipMin = lo := by
              rw [← hmin]
              rcases List.mem_cons.mp hq with rfl | hmem
              · rfl
              · exact UInt32.le_antisymm (hle q hmem) (UInt32.not_lt.mp hlt)
            refine ⟨_, .inl rfl, hlo, UInt32.not_le.mp fun hreach => hstart ?_⟩
            refine (hr.listed_iff lo).mpr (.inl ⟨UInt32.le_of_eq hlo, ?_⟩)
            dsimp only at hreach
            split_ifs at hreach with hzero
            · rwa [hr.none_absorbed hzero]
            · exact hreach

/-- Lists something else than the top address, unlike a blank. -/
def Entry.notTop (e : Entry) : Bool := decide (¬ (e.ipMin = top ∧ e.ipMax = top))

/-- With this sort blanks stand behind everything else. -/
theorem PassSpec.kept_narrow {es heads blanks : List Entry} {p : Pass}
    (h : PassSpec es p heads blanks) :
    kept sortNarrowFirst es p = (sortNarrowFirst p.entries).filter Entry.notTop ++
      ((sortNarrowFirst p.entries).filter (! Entry.notTop ·)).take
        (heads.filter (! Entry.notTop ·)).length := by
  rw [h.kept_eq]
  refine SortedSearch.take_length_of_perm ((sortBy_pairwise Narrower p.entries).imp ?_)
    (((sortsByMin_sortBy Narrower).perm _).trans h.perm) ?_
  · intro e f hef hf
    simp only [Entry.notTop, decide_eq_true_eq] at hf ⊢
    grind [ByMin, Narrower, top]
  · intro b hb
    simp [Entry.notTop, h.blank b hb]

theorem Entry.notTop_eq_false {e : Entry} : e.notTop = false ↔ e.ipMin = top ∧ e.ipMax = top := by
  simp [Entry.notTop]

/-- So a blank is kept only where a head is like it, and the cut adds no listed address. -/
theorem PassSpec.listed_of_kept_narrow {es heads blanks : List Entry} {p : Pass}
    (h : PassSpec es p heads blanks) {ip : UInt32}
    (hlisted : Listed (kept sortNarrowFirst es p) ip) : Listed es ip := by
  have hperm := ((sortsByMin_sortBy Narrower).perm p.entries).trans h.perm
  rw [h.kept_narrow, listed_append] at hlisted
  rw [← h.listed]
  rcases hlisted with ⟨e, he, hhas⟩ | ⟨e, he, hhas⟩
  · obtain ⟨hmem, hnotTop⟩ := List.mem_filter.mp he
    rcases List.mem_append.mp (hperm.mem_iff.mp hmem) with hhead | hblank
    · exact ⟨e, hhead, hhas⟩
    · rw [Entry.notTop_eq_false.mpr (h.blank e hblank)] at hnotTop
      cases hnotTop
  · have hne : heads.filter (! Entry.notTop ·) ≠ [] := by
      intro hnil
      rw [hnil, List.length_nil, List.take_zero] at he
      cases he
    obtain ⟨f, hf⟩ := List.exists_mem_of_ne_nil _ hne
    obtain ⟨hhead, hftop⟩ := List.mem_filter.mp hf
    obtain ⟨hfmin, hfmax⟩ := Entry.notTop_eq_false.mp (by simpa using hftop)
    obtain ⟨hmin, hmax⟩ := Entry.notTop_eq_false.mp
      (by simpa using List.of_mem_filter (List.mem_of_mem_take he))
    rw [Entry.Has, hmin, hmax] at hhas
    refine ⟨f, hhead, ?_⟩
    rwa [Entry.Has, hfmin, hfmax]

/-- An inverted range at such a start stays there until the last pass. -/
theorem Stray.kept {lo : UInt32} {es heads blanks : List Entry} {p : Pass} (h : Stray lo es)
    (hpass : PassSpec es p heads blanks)
    (hentry : ∃ q ∈ p.entries, q.ipMin = lo ∧ q.ipMax < lo) :
    Stray lo (kept sortNarrowFirst es p) := by
  obtain ⟨q, hq, hmin, hmax⟩ := hentry
  refine ⟨⟨q, ?_, hmin, hmax⟩, mt hpass.listed_of_kept_narrow h.below,
    mt hpass.listed_of_kept_narrow h.start⟩
  rw [hpass.kept_narrow]
  refine List.mem_append_left _ (List.mem_filter.mpr ⟨?_, ?_⟩)
  · exact ((sortsByMin_sortBy Narrower).perm _).mem_iff.mpr hq
  · rw [Entry.notTop, decide_eq_true_eq]
    grind [top]

theorem counted_unmerged {lowmem : Bool} {fuel : ℕ} {numips : UInt32} {es : List Entry}
    (hfuel : es.length ≤ fuel) (h : (mergeFrom lowmem fuel numips es).merged = 0) :
    counted fuel es = es := by
  induction fuel generalizing numips es with
  | zero =>
      obtain rfl : es = [] := List.length_eq_zero_iff.mp (Nat.le_zero.mp hfuel)
      rfl
  | succ fuel ih =>
      cases es with
      | nil => rfl
      | cons e es =>
          simp only [mergeFrom, Nat.add_eq_zero_iff] at h
          obtain ⟨hzero, hrest⟩ := h
          rw [counted, hzero, if_pos rfl, List.drop_zero]
          rw [hzero, List.drop_zero] at hrest
          rw [ih (Nat.le_of_succ_le_succ hfuel) hrest]

theorem NoWrap.le {numips : UInt32} {es : List Entry} (h : NoWrap numips es) :
    ∀ e ∈ es, e.ipMin ≤ e.ipMax := by
  induction es generalizing numips with
  | nil => simp
  | cons e es ih =>
      obtain ⟨hle, -, hrest⟩ := h
      exact List.forall_mem_cons.mpr ⟨hle, ih hrest⟩

/-- The last pass counts it. -/
theorem Stray.wraps {lowmem : Bool} {lo : UInt32} {fuel : ℕ} {es : List Entry} (h : Stray lo es)
    (hs : SortedByMin es) (hfuel : es.length < fuel) :
    ∃ fs ∈ mergePasses lowmem sortNarrowFirst fuel es, ¬ NoWrap 0 (counted fs.length fs) := by
  induction fuel generalizing es with
  | zero => omega
  | succ fuel ih =>
      obtain ⟨heads, blanks, hpass⟩ := mergeFrom_spec lowmem _ 0 es hs (Nat.le_refl _)
      rw [mergePasses]
      by_cases hmerged : (mergeFrom lowmem es.length 0 es).merged = 0
      · refine ⟨es, List.mem_cons_self, fun hnoWrap => ?_⟩
        rw [counted_unmerged (Nat.le_refl _) hmerged] at hnoWrap
        obtain ⟨q, hq, rfl, hmax⟩ := h.entry
        exact absurd hmax (UInt32.not_lt.mpr (hnoWrap.le q hq))
      · obtain ⟨fs, hfs, hwraps⟩ := ih (h.kept hpass (h.entries hs (Nat.le_refl _)))
          (kept_sorted (sortsByMin_sortBy Narrower))
          (hpass.kept_fuel _ (mt hpass.merged_eq_zero_iff.mpr hmerged) hfuel)
        refine ⟨fs, List.mem_cons_of_mem _ ?_, hwraps⟩
        rwa [if_neg hmerged]

/-- If no pass with this sort wraps around, the list was tame. -/
theorem tame_of_noWrap {lowmem : Bool} {es : List Entry} (hs : es.Pairwise NarrowFirst)
    (h : ∀ fs ∈ mergePasses lowmem sortNarrowFirst (es.length + 1) es,
      NoWrap 0 (counted fs.length fs)) : Tame es := by
  intro e he hinverted
  by_contra hwild
  rw [not_or, not_and] at hwild
  obtain ⟨hbelow, hstart⟩ := hwild
  have hlt := UInt32.lt_iff_toNat_lt.mp hinverted
  by_cases hadjacent : e.ipMax.toNat + 1 = e.ipMin.toNat
  · have hsucc : e.ipMax + 1 = e.ipMin := by
      rw [← UInt32.toNat_inj, toNat_add_one (ne_top_of_lt hinverted), hadjacent]
    have hstray : Stray e.ipMin es := ⟨⟨e, he, rfl, hinverted⟩, hbelow, hstart hsucc⟩
    obtain ⟨fs, hfs, hwraps⟩ := hstray.wraps (hs.imp ByMin.min_le) (Nat.lt_succ_self _)
    exact hwraps (h fs hfs)
  · refine wraps_of_gap hs (Nat.le_refl _) he (by omega) hbelow (h es ?_)
    rw [mergePasses]
    exact List.mem_cons_self

end Strays

/-- Whatever the sort does with equal lower ends, loading counts the listed addresses exactly and
without wrapping around, if and only if the inverted ranges are tame and, in the build with names,
the list is harmless. -/
theorem countsExactly_iff (lowmem : Bool) (iconv : Text → Option Text) (ranges : List Range) :
    (∀ qsort, SortsByMin qsort → CountsExactly lowmem qsort iconv ranges) ↔
      (lowmem = false → NameSafe (ranges.map Range.entry)) ∧ Tame (ranges.map Range.entry) := by
  constructor
  · intro h
    constructor
    · rintro rfl
      by_contra hharmful
      obtain ⟨b, hb, -⟩ := (h sortBlankFirst (sortsByMin_sortBy WiderBlank)).total
      cases (loadAllLists_null hharmful).symm.trans hb
    · have hpasses := (h sortNarrowFirst (sortsByMin_sortBy Narrower)).passes
      have htame := tame_of_noWrap (sortBy_pairwise Narrower _) fun fs hfs =>
        (hpasses fs hfs).noWrap
      rw [tame_perm ((sortsByMin_sortBy Narrower).perm _)] at htame
      exact (tame_congr (ends_appendRanges lowmem iconv ranges)).mp htame
  · rintro ⟨hnames, htame⟩ qsort hq
    exact countsExactly_of_tame hq hnames htame

/-- A list with one inverted range lists no address, and the counter is at its top. -/
theorem inverted_range_counted :
    addresses [⟨5, 3, []⟩] = ∅ ∧
      (loadAllLists true sortNarrowFirst some [⟨5, 3, []⟩]).map (·.numips) = some 4294967295 ∧
      (loadAllLists false sortNarrowFirst some [⟨5, 3, []⟩]).map (·.numips) = some 4294967295 := by
  refine ⟨?_, by decide +kernel, by decide +kernel⟩
  ext n
  simp [addresses]
  omega

end Dowse.Blocklist
