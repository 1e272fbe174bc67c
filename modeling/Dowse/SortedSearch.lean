import Mathlib.Data.List.Basic

/-!
# Binary search with a three-way test

The test compares the sought key with an element: `lt` sends the search to the
left half, `gt` to the right half, `eq` ends it. Nothing is assumed about the
elements. What the search needs is that, of any two positions, the left one sends
the key to the right or the right one sends it to the left.
-/
namespace Dowse.SortedSearch

variable {α : Type*}

/-- The loop on the half-open range `[lo, hi)`; the fuel bounds its length. -/
def search (cmp : α → Ordering) (l : List α) : ℕ → ℕ → ℕ → Option α
  | 0, _, _ => none
  | fuel + 1, lo, hi =>
      if lo < hi then
        match l[(lo + hi) / 2]? with
        | none => none
        | some a =>
            match cmp a with
            | .lt => search cmp l fuel lo ((lo + hi) / 2)
            | .gt => search cmp l fuel ((lo + hi) / 2 + 1) hi
            | .eq => some a
      else none

def bsearch (cmp : α → Ordering) (l : List α) : Option α :=
  search cmp l l.length 0 l.length

/-- The same loop, with the position that it stops at. -/
def searchAt (cmp : α → Ordering) (l : List α) : ℕ → ℕ → ℕ → Option ℕ
  | 0, _, _ => none
  | fuel + 1, lo, hi =>
      if lo < hi then
        match l[(lo + hi) / 2]? with
        | none => none
        | some a =>
            match cmp a with
            | .lt => searchAt cmp l fuel lo ((lo + hi) / 2)
            | .gt => searchAt cmp l fuel ((lo + hi) / 2 + 1) hi
            | .eq => some ((lo + hi) / 2)
      else none

def bsearchAt (cmp : α → Ordering) (l : List α) : Option ℕ :=
  searchAt cmp l l.length 0 l.length

/-- Of two positions, the left one sends the key right or the right one left. -/
def Directed (cmp : α → Ordering) (l : List α) : Prop :=
  l.Pairwise fun a b => cmp a = .gt ∨ cmp b = .lt

variable {cmp : α → Ordering} {l : List α}

theorem search_sound {fuel lo hi : ℕ} {a : α} (h : search cmp l fuel lo hi = some a) :
    a ∈ l ∧ cmp a = .eq := by
  induction fuel generalizing lo hi with
  | zero => simp [search] at h
  | succ fuel ih =>
      simp only [search] at h
      split_ifs at h with hlt
      cases hm : l[(lo + hi) / 2]? with
      | none => simp [hm] at h
      | some b =>
          cases hc : cmp b with
          | lt => exact ih (by simpa [hm, hc] using h)
          | gt => exact ih (by simpa [hm, hc] using h)
          | eq =>
              have hb : b = a := by simpa [hm, hc] using h
              exact ⟨hb ▸ List.mem_of_getElem? hm, hb ▸ hc⟩

theorem searchAt_getElem (fuel lo hi : ℕ) :
    (searchAt cmp l fuel lo hi).bind (l[·]?) = search cmp l fuel lo hi := by
  induction fuel generalizing lo hi with
  | zero => rfl
  | succ fuel ih =>
      rw [search, searchAt]
      split_ifs with hlt
      · cases hm : l[(lo + hi) / 2]? with
        | none => rfl
        | some a =>
            dsimp only
            cases cmp a with
            | lt => exact ih _ _
            | gt => exact ih _ _
            | eq => exact hm
      · rfl

/-- The position is that of the element that the search finds. -/
theorem bsearchAt_getElem : (bsearchAt cmp l).bind (l[·]?) = bsearch cmp l :=
  searchAt_getElem _ _ _

theorem searchAt_lt {fuel lo hi i : ℕ} (h : searchAt cmp l fuel lo hi = some i) :
    i < l.length := by
  induction fuel generalizing lo hi with
  | zero => simp [searchAt] at h
  | succ fuel ih =>
      simp only [searchAt] at h
      split_ifs at h with hlt
      cases hm : l[(lo + hi) / 2]? with
      | none => simp [hm] at h
      | some b =>
          cases hc : cmp b with
          | lt => exact ih (by simpa [hm, hc] using h)
          | gt => exact ih (by simpa [hm, hc] using h)
          | eq =>
              have hi : (lo + hi) / 2 = i := by simpa [hm, hc] using h
              exact hi ▸ (List.getElem?_eq_some_iff.mp hm).choose

theorem bsearchAt_isSome : (bsearchAt cmp l).isSome = (bsearch cmp l).isSome := by
  rw [← bsearchAt_getElem]
  cases h : bsearchAt cmp l with
  | none => rfl
  | some i => simp [searchAt_lt h]

theorem search_complete (hd : Directed cmp l) {fuel lo hi t : ℕ} {a : α}
    (ha : l[t]? = some a) (heq : cmp a = .eq) (hlo : lo ≤ t) (hhi : t < hi)
    (hlen : hi ≤ l.length) (hfuel : hi - lo ≤ fuel) : (search cmp l fuel lo hi).isSome := by
  induction fuel generalizing lo hi with
  | zero => omega
  | succ fuel ih =>
      have hlt : lo < hi := by omega
      have hm : l[(lo + hi) / 2]? = some l[(lo + hi) / 2] :=
        List.getElem?_eq_getElem (by omega)
      obtain ⟨ht, hat⟩ := List.getElem?_eq_some_iff.mp ha
      simp only [search, hlt, if_true, hm]
      have hpair := List.pairwise_iff_getElem.mp hd
      rcases Nat.lt_trichotomy ((lo + hi) / 2) t with hmt | hmt | hmt
      · have hgt : cmp l[(lo + hi) / 2] = .gt := by
          rcases hpair _ t (by omega) ht hmt with h | h
          · exact h
          · rw [hat, heq] at h
            simp at h
        simp only [hgt]
        exact ih (by omega) (by omega) hlen (by omega)
      · subst hmt
        simp only [hat, heq, Option.isSome_some]
      · have hl : cmp l[(lo + hi) / 2] = .lt := by
          rcases hpair t _ ht (by omega) hmt with h | h
          · rw [hat, heq] at h
            simp at h
          · exact h
        simp only [hl]
        exact ih hlo hmt (by omega) (by omega)

theorem bsearch_sound {a : α} (h : bsearch cmp l = some a) : a ∈ l ∧ cmp a = .eq :=
  search_sound h

/-- On a directed list the search finds an equal element exactly when there is one. -/
theorem bsearch_isSome_iff (hd : Directed cmp l) :
    (bsearch cmp l).isSome ↔ ∃ a ∈ l, cmp a = .eq := by
  constructor
  · intro h
    obtain ⟨a, ha⟩ := Option.isSome_iff_exists.mp h
    exact ⟨a, bsearch_sound ha⟩
  · rintro ⟨a, ha, heq⟩
    obtain ⟨t, ht⟩ := List.mem_iff_getElem?.mp ha
    have hlt : t < l.length := (List.getElem?_eq_some_iff.mp ht).choose
    exact search_complete hd ht heq (Nat.zero_le t) hlt (Nat.le_refl _) (by omega)

/-- A list in which everything behind a failure of `p` also fails it starts with all
the elements that pass. -/
theorem eq_filter_append_filter {p : α → Bool} (h : l.Pairwise fun a b => p b → p a) :
    l = l.filter p ++ l.filter (! p ·) := by
  induction l with
  | nil => rfl
  | cons a l ih =>
      obtain ⟨ha, hl⟩ := List.pairwise_cons.mp h
      by_cases hp : p a
      · simpa [hp] using ih hl
      · have hnone : l.filter p = [] := by
          rw [List.filter_eq_nil_iff]
          exact fun b hb hpb => hp (ha b hb hpb)
        simpa [hp, hnone] using ih hl

/-- Cutting such a list, made of some elements and of others without the property, to the number
of the former keeps all that have the property. -/
theorem take_length_of_perm {p : α → Bool} {front back : List α}
    (h : l.Pairwise fun a b => p b → p a) (hperm : l.Perm (front ++ back))
    (hback : ∀ b ∈ back, p b = false) :
    l.take front.length =
      l.filter p ++ (l.filter (! p ·)).take (front.filter (! p ·)).length := by
  have hnone : back.filter p = [] := by
    rw [List.filter_eq_nil_iff]
    intro b hb
    simp [hback b hb]
  have hlen : (l.filter p).length = (front.filter p).length := by
    have hfilter := (hperm.filter p).length_eq
    rwa [List.filter_append, hnone, List.append_nil] at hfilter
  have hsum := (List.filter_append_perm p front).length_eq
  rw [List.length_append] at hsum
  nth_rewrite 1 [eq_filter_append_filter h]
  rw [List.take_append, hlen, List.take_of_length_le (by omega)]
  congr 2
  omega

end Dowse.SortedSearch
