import Dowse.Blocklist
import Mathlib.Data.List.Pairwise

/-!
# Which addresses a merged blocklist blocks

One pass of `blocklist_merge` turns a list sorted by lower ends into heads, which
list the same addresses and keep a gap between each other, and blanks, which all
list the top address. Cutting the sorted result is harmless exactly when no head that
lists nothing competes with a blank for a place at the end of the array.
-/
namespace Dowse.Blocklist
open SortedSearch

attribute [local grind =] top

abbrev Entry.Has (e : Entry) (ip : UInt32) : Prop := e.ipMin ≤ ip ∧ ip ≤ e.ipMax

/-- The addresses that a list of entries blocks. -/
def Listed (es : List Entry) (ip : UInt32) : Prop := ∃ e ∈ es, e.Has ip

abbrev SortedByMin (es : List Entry) : Prop := es.Pairwise fun e f => e.ipMin ≤ f.ipMin

/-- The second range starts inside the first or right behind it. -/
def Mergeable (p q : Entry) : Prop :=
  p.ipMin ≤ q.ipMin ∧ (p.ipMax = top ∨ q.ipMin ≤ p.ipMax + 1)

/-- The first range ends below the second and leaves an address between them. -/
def Apart (e f : Entry) : Prop :=
  e.ipMin ≤ f.ipMin ∧ e.ipMax ≠ top ∧ e.ipMax + 1 < f.ipMin

theorem listed_append (es fs : List Entry) (ip : UInt32) :
    Listed (es ++ fs) ip ↔ Listed es ip ∨ Listed fs ip := by
  simp only [Listed, List.mem_append, or_and_right, exists_or]

theorem listed_cons (e : Entry) (es : List Entry) (ip : UInt32) :
    Listed (e :: es) ip ↔ e.Has ip ∨ Listed es ip := by
  simp only [Listed, List.mem_cons, or_and_right, exists_or, exists_eq_left]

theorem listed_perm {es fs : List Entry} (h : es.Perm fs) (ip : UInt32) :
    Listed es ip ↔ Listed fs ip := by
  simp only [Listed, h.mem_iff]

/-- What the inner loop finds for an entry that starts at `lo`, in front of entries that
start no lower. -/
structure Reach (lo ipMax : UInt32) (es : List Entry) (r : ℕ × UInt32) : Prop where
  le : r.1 ≤ es.length
  ge : ipMax ≤ r.2
  none_absorbed : r.1 = 0 → r.2 = ipMax
  has : ∀ ip, (lo ≤ ip ∧ ip ≤ r.2) ↔ (lo ≤ ip ∧ ip ≤ ipMax) ∨ Listed (es.take r.1) ip
  absorbed : ∀ q ∈ es.take r.1, r.2 = top ∨ q.ipMin ≤ r.2 + 1
  rest : ∀ f ∈ es.drop r.1, r.2 ≠ top ∧ r.2 + 1 < f.ipMin
  first : r.1 ≠ 0 → ∃ q ∈ es, ipMax = top ∨ q.ipMin ≤ ipMax + 1

theorem reach_le (ipMax : UInt32) (es : List Entry) : (reach ipMax es).1 ≤ es.length := by
  induction es generalizing ipMax with
  | nil => exact Nat.le_refl 0
  | cons e es ih =>
      simp only [reach]
      split_ifs
      · exact Nat.le_refl _
      · exact Nat.zero_le _
      · exact Nat.succ_le_succ (ih _)
      · exact Nat.succ_le_succ (ih _)

theorem reach_top (e : Entry) (es : List Entry) : reach top (e :: es) = (es.length + 1, top) := by
  simp [reach]

theorem reach_gap {ipMax : UInt32} {e : Entry} (es : List Entry) (ht : ipMax ≠ top)
    (hgap : e.ipMin > ipMax + 1) : reach ipMax (e :: es) = (0, ipMax) := by
  simp [reach, ht, hgap]

theorem reach_absorb {ipMax : UInt32} {e : Entry} (es : List Entry) (ht : ipMax ≠ top)
    (hgap : ¬ e.ipMin > ipMax + 1) :
    ∃ ipMax' : UInt32, reach ipMax (e :: es) = ((reach ipMax' es).1 + 1, (reach ipMax' es).2) ∧
      ipMax ≤ ipMax' ∧ ∀ lo ip : UInt32, lo ≤ e.ipMin →
        ((lo ≤ ip ∧ ip ≤ ipMax') ↔ (lo ≤ ip ∧ ip ≤ ipMax) ∨ e.Has ip) := by
  refine ⟨if e.ipMax > ipMax then e.ipMax else ipMax, ?_, ?_, ?_⟩
  · simp only [reach, ht, hgap, if_false]
  · grind
  · intro lo ip hlo
    split_ifs <;> grind

theorem reach_spec (lo ipMax : UInt32) (es : List Entry) (hs : SortedByMin es)
    (hlo : ∀ e ∈ es, lo ≤ e.ipMin) : Reach lo ipMax es (reach ipMax es) := by
  induction es generalizing ipMax with
  | nil => constructor <;> simp [reach, Listed]
  | cons e es ih =>
      obtain ⟨hmin, hs⟩ := List.pairwise_cons.mp hs
      have he : lo ≤ e.ipMin := hlo e List.mem_cons_self
      by_cases ht : ipMax = top
      · -- at the top address everything that follows is absorbed
        rw [ht, reach_top]
        have hhas : ∀ ip, (lo ≤ ip ∧ ip ≤ top) ↔
            (lo ≤ ip ∧ ip ≤ top) ∨ Listed (e :: es) ip := by
          intro ip
          refine ⟨Or.inl, ?_⟩
          rintro (h | ⟨f, hf, hle, -⟩)
          · exact h
          · have := hlo f hf
            grind
        constructor <;> simp [← hhas]
      · by_cases hgap : e.ipMin > ipMax + 1
        · rw [reach_gap es ht hgap]
          have hrest : ∀ f ∈ e :: es, ipMax ≠ top ∧ ipMax + 1 < f.ipMin := by
            intro f hf
            rcases List.mem_cons.mp hf with rfl | hf
            · exact ⟨ht, hgap⟩
            · have := hmin f hf
              grind
          constructor <;> simp [Listed]
          grind
        · obtain ⟨ipMax', heq, hle, hhas⟩ := reach_absorb es ht hgap
          have h := ih ipMax' hs fun f hf => hlo f (List.mem_cons_of_mem e hf)
          have hge : ipMax ≤ (reach ipMax' es).2 := UInt32.le_trans hle h.ge
          rw [heq]
          constructor
          · simpa using h.le
          · exact hge
          · simp
          · intro ip
            rw [h.has, hhas lo ip he, List.take_succ_cons, listed_cons, or_assoc]
          · intro q hq
            rcases List.mem_cons.mp (List.take_succ_cons ▸ hq) with rfl | hq
            · clear hhas ih h heq
              grind
            · exact h.absorbed q hq
          · intro f hf
            exact h.rest f (by simpa using hf)
          · intro _
            exact ⟨e, List.mem_cons_self, Or.inr (UInt32.not_lt.mp hgap)⟩

/-- What one pass makes of the entries `es`: heads that list the same addresses, and
blanks. -/
structure PassSpec (es : List Entry) (p : Pass) (heads blanks : List Entry) : Prop where
  perm : p.entries.Perm (heads ++ blanks)
  merged : p.merged = blanks.length
  length : es.length = heads.length + blanks.length
  blank : ∀ b ∈ blanks, b.ipMin = top ∧ b.ipMax = top
  listed : ∀ ip, Listed heads ip ↔ Listed es ip
  apart : heads.Pairwise Apart
  starts : ∀ h ∈ heads, ∃ e ∈ es, e.ipMin = h.ipMin
  origin : ∀ q ∈ es, ∃ h ∈ heads, q.ipMin = h.ipMin ∨ h.ipMax = top ∨ q.ipMin ≤ h.ipMax + 1
  unmerged : blanks = [] → p.entries = heads ∧ es.Pairwise Apart
  mergeable : blanks ≠ [] → ¬ es.Pairwise fun e f => ¬ Mergeable e f

theorem passSpec_nil (numips : UInt32) : PassSpec [] ⟨[], 0, numips⟩ [] [] := by
  constructor <;> simp

/-- One turn of the outer loop: a head and its blanks in front of the rest of the pass. -/
theorem PassSpec.cons {e head : Entry} {es heads blanks absorbedBlanks : List Entry} {p : Pass}
    {r : ℕ × UInt32} (hs : SortedByMin (e :: es)) (hr : Reach e.ipMin e.ipMax es r)
    (hmin : head.ipMin = e.ipMin) (hmax : head.ipMax = r.2)
    (hlen : absorbedBlanks.length = r.1)
    (hblank : ∀ b ∈ absorbedBlanks, b.ipMin = top ∧ b.ipMax = top)
    (h : PassSpec (es.drop r.1) p heads blanks) (numips : UInt32) :
    PassSpec (e :: es) ⟨head :: (absorbedBlanks ++ p.entries), r.1 + p.merged, numips⟩
      (head :: heads) (absorbedBlanks ++ blanks) := by
  obtain ⟨hle, hs⟩ := List.pairwise_cons.mp hs
  have hsplit : es.take r.1 ++ es.drop r.1 = es := List.take_append_drop r.1 es
  have hzero : absorbedBlanks ++ blanks = [] → r.1 = 0 ∧ absorbedBlanks = [] ∧ blanks = [] := by
    intro hnil
    obtain ⟨h₁, h₂⟩ := List.append_eq_nil_iff.mp hnil
    exact ⟨by rw [← hlen, h₁, List.length_nil], h₁, h₂⟩
  constructor
  · have hmove : (absorbedBlanks ++ p.entries).Perm (heads ++ (absorbedBlanks ++ blanks)) := by
      refine (h.perm.append_left absorbedBlanks).trans ?_
      rw [← List.append_assoc, ← List.append_assoc]
      exact List.perm_append_comm.append_right blanks
    exact hmove.cons head
  · simp [hlen, h.merged]
  · have := hr.le
    have hdrop := h.length
    rw [List.length_drop] at hdrop
    simp only [List.length_cons, List.length_append, hlen]
    omega
  · intro b hb
    exact (List.mem_append.mp hb).elim (hblank b) (h.blank b)
  · intro ip
    rw [listed_cons, h.listed, ← hsplit, List.take_append_drop, listed_cons]
    nth_rewrite 2 [← hsplit]
    rw [listed_append, ← or_assoc, Entry.Has, hmin, hmax, hr.has]
  · refine List.pairwise_cons.mpr ⟨?_, h.apart⟩
    intro f hf
    obtain ⟨g, hg, hgf⟩ := h.starts f hf
    obtain ⟨hne, hlt⟩ := hr.rest g hg
    refine ⟨?_, hmax ▸ hne, by rw [hmax, ← hgf]; exact hlt⟩
    rw [hmin, ← hgf]
    exact hle g (List.mem_of_mem_drop hg)
  · intro f hf
    rcases List.mem_cons.mp hf with rfl | hf
    · exact ⟨e, List.mem_cons_self, hmin.symm⟩
    · obtain ⟨g, hg, hgf⟩ := h.starts f hf
      exact ⟨g, List.mem_cons_of_mem e (List.mem_of_mem_drop hg), hgf⟩
  · intro q hq
    rcases List.mem_cons.mp hq with rfl | hq
    · exact ⟨head, List.mem_cons_self, Or.inl hmin.symm⟩
    · rcases List.mem_append.mp (hsplit ▸ hq) with hq | hq
      · exact ⟨head, List.mem_cons_self, Or.inr (hmax ▸ hr.absorbed q hq)⟩
      · obtain ⟨f, hf, hqf⟩ := h.origin q hq
        exact ⟨f, List.mem_cons_of_mem head hf, hqf⟩
  · intro hnil
    obtain ⟨hr0, hab, hbl⟩ := hzero hnil
    obtain ⟨hp, hap⟩ := h.unmerged hbl
    refine ⟨by rw [hab, hp, List.nil_append], List.pairwise_cons.mpr ⟨?_, ?_⟩⟩
    · intro f hf
      obtain ⟨hne, hlt⟩ := hr.rest f (by simpa [hr0] using hf)
      rw [hr.none_absorbed hr0] at hne hlt
      exact ⟨hle f hf, hne, hlt⟩
    · simpa [hr0] using hap
  · intro hne hpair
    obtain ⟨hhead, htail⟩ := List.pairwise_cons.mp hpair
    by_cases hr0 : r.1 = 0
    · have hbl : blanks ≠ [] := by
        rintro rfl
        exact hne (by simpa [hr0] using hlen)
      exact h.mergeable hbl (htail.sublist (List.drop_sublist _ _))
    · obtain ⟨q, hq, hqe⟩ := hr.first hr0
      exact hhead q hq ⟨hle q hq, hqe⟩

theorem length_drop_le {α : Type*} {a : α} {l : List α} {fuel : ℕ} (n : ℕ)
    (h : (a :: l).length ≤ fuel + 1) : (l.drop n).length ≤ fuel :=
  (List.drop_sublist n l).length_le.trans (Nat.le_of_succ_le_succ h)

/-- One pass, with what it does to the names: in the build that has them every head has one and
no blank does. -/
theorem mergeFrom_named (lowmem : Bool) (fuel : ℕ) (numips : UInt32) (es : List Entry)
    (hs : SortedByMin es) (hfuel : es.length ≤ fuel) :
    ∃ heads blanks, PassSpec es (mergeFrom lowmem fuel numips es) heads blanks ∧
      (lowmem = false → (∀ h ∈ heads, h.name.isSome) ∧ ∀ b ∈ blanks, b.name = none) := by
  induction fuel generalizing numips es with
  | zero =>
      obtain rfl : es = [] := List.length_eq_zero_iff.mp (Nat.le_zero.mp hfuel)
      exact ⟨[], [], passSpec_nil numips, fun _ => ⟨by simp, by simp⟩⟩
  | succ fuel ih =>
      cases es with
      | nil => exact ⟨[], [], passSpec_nil numips, fun _ => ⟨by simp, by simp⟩⟩
      | cons e es =>
          obtain ⟨hle, hs'⟩ := List.pairwise_cons.mp hs
          have hr := reach_spec e.ipMin e.ipMax es hs' hle
          have hdrop := length_drop_le (reach e.ipMax es).1 hfuel
          simp only [mergeFrom]
          generalize countRange numips _ = counted
          obtain ⟨heads, blanks, h, hnames⟩ := ih counted (es.drop (reach e.ipMax es).1)
            (hs'.sublist (List.drop_sublist _ _)) hdrop
          refine ⟨_, _, PassSpec.cons hs hr ?_ ?_ ?_ ?_ h _, ?_⟩
          · rfl
          · split_ifs with h0
            · exact (hr.none_absorbed h0).symm
            · rfl
          · rw [List.length_map, List.length_take]
            exact Nat.min_eq_left hr.le
          · intro b hb
            obtain ⟨q, -, rfl⟩ := List.mem_map.mp hb
            exact ⟨rfl, rfl⟩
          · intro hlowmem
            subst hlowmem
            obtain ⟨hheads, hblanks⟩ := hnames rfl
            refine ⟨List.forall_mem_cons.mpr ⟨rfl, hheads⟩,
              List.forall_mem_append.mpr ⟨?_, hblanks⟩⟩
            intro b hb
            obtain ⟨q, -, rfl⟩ := List.mem_map.mp hb
            rfl

theorem mergeFrom_spec (lowmem : Bool) (fuel : ℕ) (numips : UInt32) (es : List Entry)
    (hs : SortedByMin es) (hfuel : es.length ≤ fuel) :
    ∃ heads blanks, PassSpec es (mergeFrom lowmem fuel numips es) heads blanks := by
  obtain ⟨heads, blanks, h, -⟩ := mergeFrom_named lowmem fuel numips es hs hfuel
  exact ⟨heads, blanks, h⟩

/-- Starts below the address that blanks are moved to. -/
def Entry.low (e : Entry) : Bool := decide (e.ipMin < top)

theorem Entry.low_eq_false {e : Entry} : e.low = false ↔ e.ipMin = top := by
  simp only [Entry.low, decide_eq_false_iff_not]
  grind

theorem listed_filter_low (es : List Entry) (ip : UInt32) :
    Listed es ip ↔ Listed (es.filter Entry.low) ip ∨ Listed (es.filter (! Entry.low ·)) ip := by
  rw [← listed_append]
  exact listed_perm (List.filter_append_perm Entry.low es).symm ip

/-- Only the top address can be listed by an entry that starts there. -/
theorem listed_high_iff {es : List Entry} (h : ∀ e ∈ es, e.low = false) (ip : UInt32) :
    Listed es ip ↔ ip = top ∧ ∃ e ∈ es, e.ipMax = top := by
  constructor
  · rintro ⟨e, he, hle, hge⟩
    have := Entry.low_eq_false.mp (h e he)
    exact ⟨by grind, e, he, by grind⟩
  · rintro ⟨rfl, e, he, hmax⟩
    have := Entry.low_eq_false.mp (h e he)
    exact ⟨e, he, by grind⟩

section Cut

variable {L heads blanks : List Entry}

theorem low_perm (hp : L.Perm (heads ++ blanks))
    (hb : ∀ b ∈ blanks, b.ipMin = top ∧ b.ipMax = top) :
    (L.filter Entry.low).Perm (heads.filter Entry.low) ∧
      (L.filter (! Entry.low ·)).Perm (heads.filter (! Entry.low ·) ++ blanks) := by
  have hlow : ∀ b ∈ blanks, b.low = false := fun b h => Entry.low_eq_false.mpr (hb b h).1
  have hnone : blanks.filter Entry.low = [] := by
    rw [List.filter_eq_nil_iff]
    intro b hmem
    simp [hlow b hmem]
  have hall : blanks.filter (! Entry.low ·) = blanks := by
    rw [List.filter_eq_self]
    intro b hmem
    simp [hlow b hmem]
  constructor
  · simpa [List.filter_append, hnone] using hp.filter Entry.low
  · simpa [List.filter_append, hall] using hp.filter (! Entry.low ·)

/-- Cutting the sorted array keeps every entry that starts below the top, and of the
others as many as there are heads among them. -/
theorem take_heads (hs : SortedByMin L) (hp : L.Perm (heads ++ blanks))
    (hb : ∀ b ∈ blanks, b.ipMin = top ∧ b.ipMax = top) :
    L.take heads.length = L.filter Entry.low ++
      (L.filter (! Entry.low ·)).take (heads.filter (! Entry.low ·)).length := by
  refine take_length_of_perm (hs.imp ?_) hp fun b hmem => Entry.low_eq_false.mpr (hb b hmem).1
  intro e f hef hf
  simp only [Entry.low, decide_eq_true_eq] at hf ⊢
  exact UInt32.lt_of_le_of_lt hef hf

/-- As many places as there are heads cannot all be taken by entries that end below
the top, when one of the heads and every blank end there. -/
theorem exists_top_of_take {T : List Entry} (hp : T.Perm (heads ++ blanks))
    (hb : ∀ b ∈ blanks, b.ipMin = top ∧ b.ipMax = top) (hh : ∃ h ∈ heads, h.ipMax = top) :
    ∃ e ∈ T.take heads.length, e.ipMax = top := by
  by_contra hno
  have hall : (T.take heads.length).countP (·.ipMax ≠ top) = heads.length := by
    have hlen : (T.take heads.length).length = heads.length := by
      have := hp.length_eq
      rw [List.length_append] at this
      rw [List.length_take]
      omega
    refine (List.countP_eq_length.mpr ?_).trans hlen
    intro e he
    simpa using fun h => hno ⟨e, he, h⟩
  have hblanks : blanks.countP (·.ipMax ≠ top) = 0 := by
    rw [List.countP_eq_zero]
    intro b hmem
    simp [(hb b hmem).2]
  have hle : (T.take heads.length).countP (·.ipMax ≠ top) ≤ T.countP (·.ipMax ≠ top) :=
    (List.take_sublist heads.length T).countP_le
  rw [hall, hp.countP_eq, List.countP_append, hblanks, Nat.add_zero] at hle
  obtain ⟨h, hmem, htop⟩ := hh
  have heq := List.countP_eq_length.mp (Nat.le_antisymm List.countP_le_length hle) h hmem
  simp [htop] at heq

/-- The cut loses no listed address. -/
theorem listed_of_heads (hs : SortedByMin L) (hp : L.Perm (heads ++ blanks))
    (hb : ∀ b ∈ blanks, b.ipMin = top ∧ b.ipMax = top) {ip : UInt32} (h : Listed heads ip) :
    Listed (L.take heads.length) ip := by
  obtain ⟨hlow, hhigh⟩ := low_perm hp hb
  have hheads : ∀ e ∈ heads.filter (! Entry.low ·), e.low = false := by simp
  have htake : ∀ e ∈ (L.filter (! Entry.low ·)).take (heads.filter (! Entry.low ·)).length,
      e.low = false := fun e he => by simpa using List.of_mem_filter (List.mem_of_mem_take he)
  rw [listed_filter_low] at h
  rw [take_heads hs hp hb, listed_append, listed_perm hlow]
  refine h.imp_right fun hlisted => ?_
  obtain ⟨hip, hex⟩ := (listed_high_iff hheads ip).mp hlisted
  exact (listed_high_iff htake ip).mpr ⟨hip, exists_top_of_take hhigh hb hex⟩

/-- It adds none where the heads list the top address or do not start there. -/
theorem listed_take_heads (hs : SortedByMin L) (hp : L.Perm (heads ++ blanks))
    (hb : ∀ b ∈ blanks, b.ipMin = top ∧ b.ipMax = top)
    (hsafe : Listed heads top ∨ ∀ h ∈ heads, h.low) (ip : UInt32) :
    Listed (L.take heads.length) ip ↔ Listed heads ip := by
  refine ⟨fun h => ?_, listed_of_heads hs hp hb⟩
  have htake : ∀ e ∈ (L.filter (! Entry.low ·)).take (heads.filter (! Entry.low ·)).length,
      e.low = false := fun e he => by simpa using List.of_mem_filter (List.mem_of_mem_take he)
  rw [take_heads hs hp hb, listed_append, listed_perm (low_perm hp hb).1] at h
  rcases h with hlow | hhigh
  · exact (listed_filter_low heads ip).mpr (.inl hlow)
  · rcases hsafe with hsafe | hsafe
    · rw [((listed_high_iff htake ip).mp hhigh).1]
      exact hsafe
    · have hnil : heads.filter (! Entry.low ·) = [] := by
        rw [List.filter_eq_nil_iff]
        intro h hmem
        simp [hsafe h hmem]
      rw [hnil, List.length_nil, List.take_zero] at hhigh
      obtain ⟨e, he, -⟩ := hhigh
      cases he

end Cut

/-- Where the address below the top is listed, or no range starts at the top, no head does. -/
theorem PassSpec.heads_low {es heads blanks : List Entry} {p : Pass}
    (h : PassSpec es p heads blanks)
    (hsafe : Listed es (top - 1) ∨ ∀ e ∈ es, e.ipMin ≠ top) : ∀ f ∈ heads, f.low := by
  intro f hf
  rw [Entry.low, decide_eq_true_eq]
  rcases hsafe with hsafe | hsafe
  · -- the head that reaches the address below the top has nothing behind it
    rw [← h.listed] at hsafe
    obtain ⟨g, hg, hmin, hmax⟩ := hsafe
    by_cases hfg : f = g
    · subst hfg
      grind
    · have hapart : heads.Pairwise fun e f => Apart e f ∨ Apart f e := h.apart.imp Or.inl
      have : Std.Symm fun e f => Apart e f ∨ Apart f e := ⟨fun _ _ => Or.symm⟩
      rcases hapart.forall hf hg hfg with ⟨hle, -, -⟩ | ⟨-, hne, hlt⟩ <;> grind
  · obtain ⟨e, he, hef⟩ := h.starts f hf
    have := hsafe e he
    grind

/-- The lists on which blanks do no harm: no range starts at the top address, or it is
listed, or the address below it is listed, or there is nothing to merge. -/
def TopSafe (es : List Entry) : Prop :=
  Listed es top ∨ Listed es (top - 1) ∨ (∀ e ∈ es, e.ipMin ≠ top) ∨
    es.Pairwise fun e f => ¬ Mergeable e f ∧ ¬ Mergeable f e

/-- The lists on which no blank can take the place of an entry: the address below the top is
listed, or no range starts at the top, or there is nothing to merge. -/
def NameSafe (es : List Entry) : Prop :=
  Listed es (top - 1) ∨ (∀ e ∈ es, e.ipMin ≠ top) ∨
    es.Pairwise fun e f => ¬ Mergeable e f ∧ ¬ Mergeable f e

/-- In the build without names a blank is as good as an entry for the top address. -/
def Safe (lowmem : Bool) (es : List Entry) : Prop := (lowmem = true ∧ Listed es top) ∨ NameSafe es

/-- In the build with names, every entry has one. -/
def Named (lowmem : Bool) (es : List Entry) : Prop := lowmem = false → ∀ e ∈ es, e.name.isSome

/-- So no pass reads a null name. -/
theorem Named.not_null {lowmem : Bool} {es : List Entry} (h : Named lowmem es) :
    ¬ (lowmem = false ∧ es.any (·.name.isNone)) := by
  rintro ⟨hlowmem, hany⟩
  obtain ⟨e, he, hnone⟩ := List.any_eq_true.mp hany
  have hsome := h hlowmem e he
  rw [Option.isNone_iff_eq_none.mp hnone] at hsome
  cases hsome

theorem safe_true_iff (es : List Entry) : Safe true es ↔ TopSafe es := by
  simp only [Safe, NameSafe, TopSafe, true_and]

theorem safe_false_iff (es : List Entry) : Safe false es ↔ NameSafe es := by
  simp only [Safe, Bool.false_eq_true, false_and, false_or]

theorem nameSafe_perm {es fs : List Entry} (h : es.Perm fs) : NameSafe es ↔ NameSafe fs := by
  simp only [NameSafe, listed_perm h, h.mem_iff, h.pairwise_iff And.symm]

theorem safe_perm {lowmem : Bool} {es fs : List Entry} (h : es.Perm fs) :
    Safe lowmem es ↔ Safe lowmem fs := by
  rw [Safe, Safe, listed_perm h, nameSafe_perm h]

/-- The two ends of each entry. -/
def ends (es : List Entry) : List (UInt32 × UInt32) := es.map fun e => (e.ipMin, e.ipMax)

theorem listed_iff_ends (es : List Entry) (ip : UInt32) :
    Listed es ip ↔ ∃ p ∈ ends es, p.1 ≤ ip ∧ ip ≤ p.2 := by
  simp [Listed, ends]

/-- Whether a list is harmless depends on the ends of its entries only. -/
theorem nameSafe_congr {es fs : List Entry} (h : ends es = ends fs) :
    NameSafe es ↔ NameSafe fs := by
  let R (p q : UInt32 × UInt32) : Prop :=
    ¬ (p.1 ≤ q.1 ∧ (p.2 = top ∨ q.1 ≤ p.2 + 1)) ∧ ¬ (q.1 ≤ p.1 ∧ (q.2 = top ∨ p.1 ≤ q.2 + 1))
  have hpair : ∀ es : List Entry, (es.Pairwise fun e f => ¬ Mergeable e f ∧ ¬ Mergeable f e) ↔
      (ends es).Pairwise R := fun es =>
    (List.pairwise_map (f := fun e : Entry => (e.ipMin, e.ipMax)) (R := R)).symm
  have hmin : ∀ es : List Entry, (∀ e ∈ es, e.ipMin ≠ top) ↔ ∀ p ∈ ends es, p.1 ≠ top := by
    intro es
    simp [ends]
  simp only [NameSafe, listed_iff_ends, hpair, hmin, h]

theorem safe_congr {lowmem : Bool} {es fs : List Entry} (h : ends es = ends fs) :
    Safe lowmem es ↔ Safe lowmem fs := by
  rw [Safe, Safe, nameSafe_congr h, listed_iff_ends, h, ← listed_iff_ends]

/-- The array that the next pass starts from. -/
def kept (qsort : List Entry → List Entry) (es : List Entry) (p : Pass) : List Entry :=
  (qsort p.entries).take (es.length - p.merged)

section Passes

variable {es heads blanks : List Entry} {p : Pass}

theorem PassSpec.kept_eq (h : PassSpec es p heads blanks) (qsort : List Entry → List Entry) :
    kept qsort es p = (qsort p.entries).take heads.length := by
  rw [kept, h.length, h.merged, Nat.add_sub_cancel]

theorem PassSpec.merged_eq_zero_iff (h : PassSpec es p heads blanks) :
    p.merged = 0 ↔ blanks = [] := by
  rw [h.merged, List.length_eq_zero_iff]

theorem PassSpec.kept_length_lt (h : PassSpec es p heads blanks)
    (qsort : List Entry → List Entry) (hne : blanks ≠ []) :
    (kept qsort es p).length < es.length := by
  have hpos := List.length_pos_iff.mpr hne
  rw [h.kept_eq, List.length_take, h.length]
  omega

/-- A pass that merges shortens the array, so that the fuel is enough for the next one. -/
theorem PassSpec.kept_fuel (h : PassSpec es p heads blanks) (qsort : List Entry → List Entry)
    (hne : blanks ≠ []) {fuel : ℕ} (hfuel : es.length < fuel + 1) :
    (kept qsort es p).length < fuel :=
  Nat.lt_of_lt_of_le (h.kept_length_lt qsort hne) (Nat.lt_succ_iff.mp hfuel)

variable {qsort : List Entry → List Entry} (hq : SortsByMin qsort)

include hq

theorem kept_sorted : SortedByMin (kept qsort es p) :=
  (hq.sorted p.entries).sublist (List.take_sublist _ _)

/-- Where no head starts at the top address, cutting the array leaves exactly the heads. -/
theorem PassSpec.kept_perm (h : PassSpec es p heads blanks) (hlow : ∀ f ∈ heads, f.low) :
    (kept qsort es p).Perm heads := by
  have hperm := (hq.perm p.entries).trans h.perm
  have hnil : heads.filter (! Entry.low ·) = [] := by
    rw [List.filter_eq_nil_iff]
    intro f hf
    simp [hlow f hf]
  rw [h.kept_eq, take_heads (hq.sorted p.entries) hperm h.blank, hnil, List.length_nil,
    List.take_zero, List.append_nil]
  refine (low_perm hperm h.blank).1.trans ?_
  rw [List.filter_eq_self.mpr hlow]

/-- A pass that merges something on a harmless list keeps the listed addresses, and leaves a
harmless list. In the build with names it keeps the heads. -/
theorem PassSpec.kept_safe {lowmem : Bool} (h : PassSpec es p heads blanks)
    (hsafe : Safe lowmem es) (hne : blanks ≠ []) :
    (∀ ip, Listed (kept qsort es p) ip ↔ Listed es ip) ∧ Safe lowmem (kept qsort es p) ∧
      (lowmem = false → (kept qsort es p).Perm heads) := by
  rcases hsafe with ⟨rfl, htop⟩ | hsafe
  · have hperm := (hq.perm p.entries).trans h.perm
    have hiff := listed_take_heads (hq.sorted p.entries) hperm h.blank
      (Or.inl ((h.listed top).mpr htop))
    rw [h.kept_eq]
    exact ⟨fun ip => (hiff ip).trans (h.listed ip),
      Or.inl ⟨rfl, (hiff top).mpr ((h.listed top).mpr htop)⟩, nofun⟩
  · have hlow : ∀ f ∈ heads, f.low := by
      apply h.heads_low
      rcases hsafe with hs | hs | hs
      · exact Or.inl hs
      · exact Or.inr hs
      · exact absurd (hs.imp And.left) (h.mergeable hne)
    have hkept := h.kept_perm hq hlow
    refine ⟨fun ip => (listed_perm hkept ip).trans (h.listed ip), ?_, fun _ => hkept⟩
    refine Or.inr (Or.inr (Or.inl ?_))
    intro e he heq
    have helow := hlow e (hkept.mem_iff.mp he)
    rw [Entry.low_eq_false.mpr heq] at helow
    cases helow

end Passes

/-- What a pass does to an entry that absorbs nothing: its name is cut. -/
def relabel (lowmem : Bool) (e : Entry) : Entry := { e with name := headName lowmem e [] }

/-- A pass that merges nothing cuts the names and counts the addresses. -/
theorem mergeFrom_unmerged {lowmem : Bool} {fuel : ℕ} {numips : UInt32} {es : List Entry}
    (hfuel : es.length ≤ fuel) (h : (mergeFrom lowmem fuel numips es).merged = 0) :
    mergeFrom lowmem fuel numips es =
      ⟨es.map (relabel lowmem), 0, es.foldl countRange numips⟩ := by
  induction fuel generalizing numips es with
  | zero =>
      obtain rfl : es = [] := List.length_eq_zero_iff.mp (Nat.le_zero.mp hfuel)
      rfl
  | succ fuel ih =>
      cases es with
      | nil => rfl
      | cons e es =>
          have hzero : (reach e.ipMax es).1 = 0 := by
            simp only [mergeFrom, Nat.add_eq_zero_iff] at h
            exact h.1
          simp only [mergeFrom, hzero, Nat.zero_add, List.take_zero, List.map_nil, List.nil_append,
            List.drop_zero, if_true, List.getLast?_nil, Option.getD_none] at h ⊢
          rw [ih (Nat.le_of_succ_le_succ hfuel) h]
          rfl

/-- It leaves the ends of the entries alone. -/
theorem ends_mergeFrom {lowmem : Bool} {fuel : ℕ} {numips : UInt32} {es : List Entry}
    (hfuel : es.length ≤ fuel) (h : (mergeFrom lowmem fuel numips es).merged = 0) :
    ends (mergeFrom lowmem fuel numips es).entries = ends es := by
  rw [mergeFrom_unmerged hfuel h, ends, List.map_map]
  rfl

/-- What merging a list comes to: ranges that keep a gap and list the same addresses, harmless
again, with their names. -/
structure Merged (lowmem : Bool) (es : List Entry) (b : Table) : Prop where
  apart : b.entries.Pairwise Apart
  listed : ∀ ip, Listed b.entries ip ↔ Listed es ip
  safe : Safe lowmem b.entries
  named : Named lowmem b.entries

/-- Merging a harmless list ends, in either build. -/
theorem mergeLoop_safe {lowmem : Bool} {qsort : List Entry → List Entry} (hq : SortsByMin qsort)
    (fuel : ℕ) (b : Table) (hs : SortedByMin b.entries) (hsafe : Safe lowmem b.entries)
    (hnamed : Named lowmem b.entries) (hfuel : b.entries.length < fuel) :
    ∃ b', mergeLoop lowmem qsort fuel b = some b' ∧ Merged lowmem b.entries b' := by
  induction fuel generalizing b with
  | zero => omega
  | succ fuel ih =>
      obtain ⟨heads, blanks, h, hnames⟩ :=
        mergeFrom_named lowmem _ 0 b.entries hs (Nat.le_refl _)
      simp only [mergeLoop]
      split_ifs with hnil hnull hmerged
      · refine ⟨_, rfl, ?_, fun ip => Iff.rfl, hsafe, hnamed⟩
        simp [hnil]
      · exact absurd hnull hnamed.not_null
      · obtain ⟨hp, -⟩ := h.unmerged (h.merged_eq_zero_iff.mp hmerged)
        refine ⟨_, rfl, hp ▸ h.apart, ?_, ?_, ?_⟩
        · intro ip
          rw [← h.listed ip, ← hp]
        · exact (safe_congr (ends_mergeFrom (Nat.le_refl _) hmerged)).mpr hsafe
        · intro hlowmem
          exact hp ▸ (hnames hlowmem).1
      · have hne : blanks ≠ [] := mt h.merged_eq_zero_iff.mpr hmerged
        obtain ⟨hlisted, hsafe', hperm⟩ := h.kept_safe hq hsafe hne
        have hnamed' : Named lowmem (kept qsort b.entries
            (mergeFrom lowmem b.entries.length 0 b.entries)) := by
          intro hlowmem e he
          exact (hnames hlowmem).1 e ((hperm hlowmem).mem_iff.mp he)
        obtain ⟨b', heq, hm⟩ := ih
          ⟨kept qsort b.entries _, b.size, _, _⟩ (kept_sorted hq) hsafe' hnamed'
          (h.kept_fuel qsort hne hfuel)
        exact ⟨b', heq, hm.apart, fun ip => (hm.listed ip).trans (hlisted ip), hm.safe, hm.named⟩

/-- Sorting and merging a harmless list. -/
theorem sortMerge_safe {lowmem : Bool} {qsort : List Entry → List Entry} (hq : SortsByMin qsort)
    {b : Table} (hsafe : Safe lowmem b.entries) (hnamed : Named lowmem b.entries) :
    ∃ b', blocklistMerge lowmem qsort (blocklistSort qsort b) = some b' ∧
      Merged lowmem b.entries b' := by
  have hperm := hq.perm b.entries
  obtain ⟨b', hb', hm⟩ := mergeLoop_safe hq _ (blocklistSort qsort b) (hq.sorted _)
    ((safe_perm hperm).mpr hsafe) (fun hlowmem e he => hnamed hlowmem e (hperm.mem_iff.mp he))
    (Nat.lt_succ_self _)
  refine ⟨b', hb', hm.apart, fun ip => ?_, hm.safe, hm.named⟩
  exact (hm.listed ip).trans (listed_perm hperm ip)

/-- The table of a merge comes out of a pass over this array that finds nothing to merge. -/
structure LastPass (lowmem : Bool) (es heads : List Entry) (b : Table) : Prop where
  sorted : SortedByMin es
  pass : PassSpec es (mergeFrom lowmem es.length 0 es) heads []
  entries : b.entries = (mergeFrom lowmem es.length 0 es).entries
  numips : b.numips = (mergeFrom lowmem es.length 0 es).numips

theorem LastPass.heads_eq {lowmem : Bool} {es heads : List Entry} {b : Table}
    (h : LastPass lowmem es heads b) : b.entries = heads :=
  h.entries.trans (h.pass.unmerged rfl).1

/-- What every pass keeps still holds before the last one. -/
theorem mergeLoop_last {lowmem : Bool} {qsort : List Entry → List Entry} (hq : SortsByMin qsort)
    {P : List Entry → Prop}
    (hkeep : ∀ {es heads blanks}, SortedByMin es →
      PassSpec es (mergeFrom lowmem es.length 0 es) heads blanks → P es →
      P (kept qsort es (mergeFrom lowmem es.length 0 es)))
    {fuel : ℕ} {b b' : Table} (hs : SortedByMin b.entries) (hfuel : b.entries.length < fuel)
    (hstart : P b.entries) (h : mergeLoop lowmem qsort fuel b = some b') :
    ∃ es heads, P es ∧ LastPass lowmem es heads b' := by
  induction fuel generalizing b with
  | zero => omega
  | succ fuel ih =>
      obtain ⟨heads, blanks, hpass⟩ := mergeFrom_spec lowmem _ 0 b.entries hs (Nat.le_refl _)
      simp only [mergeLoop] at h
      split_ifs at h with hnil hnull hmerged
      · obtain rfl := Option.some.inj h
        obtain rfl := hpass.merged_eq_zero_iff.mp (by rw [hnil]; rfl)
        exact ⟨b.entries, heads, hstart, hs, hpass, by simp [hnil, mergeFrom],
          by simp [hnil, mergeFrom]⟩
      · obtain rfl := Option.some.inj h
        obtain rfl := hpass.merged_eq_zero_iff.mp hmerged
        exact ⟨b.entries, heads, hstart, hs, hpass, rfl, rfl⟩
      · exact @ih ⟨kept qsort b.entries _, b.size, _, _⟩ (kept_sorted hq)
          (hpass.kept_fuel qsort (mt hpass.merged_eq_zero_iff.mpr hmerged) hfuel)
          (hkeep hs hpass hstart) h

/-- Whatever the list, a merge that returns leaves ranges that keep a gap, and loses no listed
address. -/
theorem mergeLoop_covers {lowmem : Bool} {qsort : List Entry → List Entry} (hq : SortsByMin qsort)
    {fuel : ℕ} {b b' : Table} (hs : SortedByMin b.entries) (hfuel : b.entries.length < fuel)
    (h : mergeLoop lowmem qsort fuel b = some b') :
    b'.entries.Pairwise Apart ∧ ∀ ip, Listed b.entries ip → Listed b'.entries ip := by
  have hkeep : ∀ {es heads blanks}, SortedByMin es →
      PassSpec es (mergeFrom lowmem es.length 0 es) heads blanks →
      (∀ ip, Listed b.entries ip → Listed es ip) → ∀ ip, Listed b.entries ip →
        Listed (kept qsort es (mergeFrom lowmem es.length 0 es)) ip := by
    intro es heads blanks _ hpass hes ip hip
    rw [hpass.kept_eq]
    exact listed_of_heads (hq.sorted _) ((hq.perm _).trans hpass.perm) hpass.blank
      ((hpass.listed ip).mpr (hes ip hip))
  obtain ⟨es, heads, hcovers, hlast⟩ := mergeLoop_last hq hkeep hs hfuel (fun _ hip => hip) h
  rw [hlast.heads_eq]
  exact ⟨hlast.pass.apart, fun ip hip => (hlast.pass.listed ip).mpr (hcovers ip hip)⟩

end Dowse.Blocklist
