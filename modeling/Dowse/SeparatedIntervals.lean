import Mathlib.Data.List.Pairwise
import Mathlib.Data.List.Sort
import Mathlib.Data.Set.Card
import Mathlib.Order.Cover
import Mathlib.Order.Interval.Finset.Basic
import Mathlib.Order.Interval.Set.Basic

/-!
# Lists of intervals with a point between neighbours

A set of points of a linear order may be given by many lists of closed intervals. A list whose
intervals are not empty, and between any two of which the point right behind the first is left
out, is the list of the maximal intervals of the set that it covers. Such a list is therefore
determined by the set, and the sizes of its intervals add up to the size of the set.
-/
namespace Dowse.SeparatedIntervals

variable {α : Type*} [LinearOrder α]

def covered (l : List (α × α)) : Set α := {x | ∃ p ∈ l, p.1 ≤ x ∧ x ≤ p.2}

/-- A point of a set and the points up to another, such that no longer stretch is in the set. -/
structure IsMaximal (S : Set α) (p : α × α) : Prop where
  le : p.1 ≤ p.2
  subset : Set.Icc p.1 p.2 ⊆ S
  maximal : ∀ a b, a ≤ p.1 → p.2 ≤ b → Set.Icc a b ⊆ S → a = p.1 ∧ b = p.2

/-- The list of the maximal intervals of a set, in increasing order. -/
structure MaximalIntervals (S : Set α) (l : List (α × α)) : Prop where
  increasing : l.Pairwise fun p q => p.2 < q.1
  mem_iff : ∀ p, p ∈ l ↔ IsMaximal S p

/-- The point right behind the first interval is in front of the second. -/
def Separated (p q : α × α) : Prop := ∃ x, p.2 ⋖ x ∧ x < q.1

theorem Separated.lt {p q : α × α} (h : Separated p q) : p.2 < q.1 := by
  obtain ⟨x, hx, hlt⟩ := h
  exact hx.lt.trans hlt

theorem MaximalIntervals.unique {S : Set α} {l l' : List (α × α)} (h : MaximalIntervals S l)
    (h' : MaximalIntervals S l') : l = l' := by
  -- Both lists are increasing in their lower ends and have the same members.
  have hlower : ∀ {l : List (α × α)}, MaximalIntervals S l → l.Pairwise fun p q => p.1 < q.1 := by
    intro l hl
    refine hl.increasing.imp_of_mem ?_
    intro p q hp _ hlt
    exact lt_of_le_of_lt ((hl.mem_iff p).mp hp).le hlt
  have : Std.Antisymm fun p q : α × α => p.1 < q.1 :=
    ⟨fun p q hpq hqp => absurd hpq (not_lt.mpr hqp.le)⟩
  have : Std.Irrefl fun p q : α × α => p.1 < q.1 := ⟨fun p => lt_irrefl p.1⟩
  apply (hlower h).eq_of_mem_iff (hlower h')
  intro p
  rw [h.mem_iff, h'.mem_iff]

section Separated

variable {l : List (α × α)} (hle : ∀ p ∈ l, p.1 ≤ p.2) (hsep : l.Pairwise Separated)

include hsep in
theorem separated_or {p q : α × α} (hp : p ∈ l) (hq : q ∈ l) (hne : p ≠ q) :
    Separated p q ∨ Separated q p := by
  have hor : l.Pairwise fun p q => Separated p q ∨ Separated q p := hsep.imp Or.inl
  have : Std.Symm fun p q : α × α => Separated p q ∨ Separated q p := ⟨fun _ _ => Or.symm⟩
  exact hor.forall hp hq hne

include hle hsep in
theorem covBy_notMem_covered {p : α × α} (hp : p ∈ l) {x : α} (hx : p.2 ⋖ x) :
    x ∉ covered l := by
  intro hmem
  obtain ⟨q, hq, hqx, hxq⟩ := hmem
  by_cases hpq : p = q
  · subst hpq
    exact absurd hx.lt (not_lt.mpr hxq)
  · rcases separated_or hsep hp hq hpq with hbehind | hbefore
    · obtain ⟨y, hy, hyq⟩ := hbehind
      rw [hx.unique_right hy] at hqx
      exact absurd hyq (not_lt.mpr hqx)
    · have hlt := hbefore.lt.trans_le ((hle p hp).trans hx.le)
      exact absurd hlt (not_lt.mpr hxq)

include hle hsep in
/-- A stretch of covered points that meets an interval ends in it. -/
theorem le_of_meets {p : α × α} (hp : p ∈ l) {a b : α} (hab : Set.Icc a b ⊆ covered l)
    (hap : a ≤ p.2) (hpb : p.1 ≤ b) : b ≤ p.2 := by
  by_contra hnot
  rw [not_le] at hnot
  obtain ⟨q, hq, hqb, hbq⟩ := hab ⟨hap.trans hnot.le, le_refl b⟩
  have hpq : p ≠ q := by
    intro heq
    subst heq
    exact absurd hnot (not_lt.mpr hbq)
  rcases separated_or hsep hp hq hpq with hbehind | hbefore
  · obtain ⟨x, hx, hxq⟩ := hbehind
    exact covBy_notMem_covered hle hsep hp hx
      (hab ⟨hap.trans hx.le, (hxq.trans_le hqb).le⟩)
  · exact absurd (hbefore.lt.trans_le hpb) (not_lt.mpr hbq)

include hle hsep in
theorem ge_of_meets {p : α × α} (hp : p ∈ l) {a b : α} (hab : Set.Icc a b ⊆ covered l)
    (hap : a ≤ p.2) (hpb : p.1 ≤ b) : p.1 ≤ a := by
  by_contra hnot
  rw [not_le] at hnot
  obtain ⟨q, hq, hqa, haq⟩ := hab ⟨le_refl a, hnot.le.trans hpb⟩
  have hpq : p ≠ q := by
    intro heq
    subst heq
    exact absurd hnot (not_lt.mpr hqa)
  rcases separated_or hsep hp hq hpq with hbehind | hbefore
  · exact absurd (hbehind.lt.trans_le hqa) (not_lt.mpr hap)
  · obtain ⟨x, hx, hxp⟩ := hbefore
    exact covBy_notMem_covered hle hsep hq hx
      (hab ⟨haq.trans hx.le, (hxp.trans_le hpb).le⟩)

include hle hsep in
/-- A separated list of intervals that are not empty lists the maximal intervals of what it
covers. -/
theorem maximalIntervals_covered : MaximalIntervals (covered l) l where
  increasing := hsep.imp Separated.lt
  mem_iff p := by
    constructor
    · intro hp
      refine ⟨hle p hp, fun x hx => ⟨p, hp, hx⟩, ?_⟩
      intro a b hap hpb hab
      have hge := ge_of_meets hle hsep hp hab (hap.trans (hle p hp)) ((hle p hp).trans hpb)
      have hle' := le_of_meets hle hsep hp hab (hap.trans (hle p hp)) ((hle p hp).trans hpb)
      exact ⟨le_antisymm hap hge, le_antisymm hle' hpb⟩
    · intro hp
      obtain ⟨q, hq, hqp, hpq⟩ := hp.subset ⟨le_refl p.1, hp.le⟩
      have hle' := le_of_meets hle hsep hq hp.subset hpq (hqp.trans hp.le)
      obtain ⟨hfst, hsnd⟩ := hp.maximal q.1 q.2 hqp hle' fun x hx => ⟨q, hq, hx⟩
      rwa [← Prod.ext hfst hsnd]

end Separated

section Count

theorem covered_cons (p : α × α) (l : List (α × α)) :
    covered (p :: l) = Set.Icc p.1 p.2 ∪ covered l := by
  ext x
  simp [covered]

variable [LocallyFiniteOrder α]

theorem finite_covered (l : List (α × α)) : (covered l).Finite := by
  induction l with
  | nil => simp [covered]
  | cons p l ih =>
      rw [covered_cons]
      exact (Set.finite_Icc p.1 p.2).union ih

/-- Intervals in increasing order cover as many points as they have together. -/
theorem ncard_covered {l : List (α × α)} (h : l.Pairwise fun p q => p.2 < q.1) :
    (covered l).ncard = (l.map fun p => (Finset.Icc p.1 p.2).card).sum := by
  induction l with
  | nil => simp [covered]
  | cons p l ih =>
      obtain ⟨hp, hl⟩ := List.pairwise_cons.mp h
      have hdisjoint : Disjoint (Set.Icc p.1 p.2) (covered l) := by
        rw [Set.disjoint_left]
        rintro x hx ⟨q, hq, hqx, -⟩
        exact absurd ((hp q hq).trans_le hqx) (not_lt.mpr hx.2)
      rw [covered_cons, Set.ncard_union_eq hdisjoint (Set.finite_Icc p.1 p.2) (finite_covered l),
        ih hl, ← Finset.coe_Icc, Set.ncard_coe_finset, List.map_cons, List.sum_cons]

end Count

end Dowse.SeparatedIntervals
