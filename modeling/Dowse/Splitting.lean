import Mathlib.Data.List.Basic
import Mathlib.Data.List.GetD

/-!
# Lists cut at a separator

`splitOn` keeps the empty parts between two separators, and the words are what is left
without them. Both can be taken apart at any separator, so that a list put together from
parts is read back part by part, whatever the parts have in them.
-/
namespace Dowse.Splitting

variable {α : Type}

/-- The `n`-th of some parts, counted from one. A number behind the last stands for the last,
as it does for a subscript of words in the shell. -/
def ordinal (parts : List (List α)) (n : ℕ) : List α := parts.getD (min n parts.length - 1) []

theorem ordinal_mem {parts : List (List α)} (h : parts ≠ []) (n : ℕ) : ordinal parts n ∈ parts := by
  have hlength := List.length_pos_iff.mpr h
  have hlt : min n parts.length - 1 < parts.length := by omega
  rw [ordinal, List.getD_eq_getElem _ _ hlt]
  exact List.getElem_mem hlt

theorem ordinal_append {parts : List (List α)} {n : ℕ} (hpos : 0 < n) (h : n ≤ parts.length)
    (more : List (List α)) : ordinal (parts ++ more) n = ordinal parts n := by
  have hleft : min n (parts ++ more).length - 1 = n - 1 := by
    rw [List.length_append]
    omega
  have hright : min n parts.length - 1 = n - 1 := by omega
  rw [ordinal, ordinal, hleft, hright, List.getD_append _ _ _ _ (by omega)]

/-- Two joined texts with the separator between them. -/
theorem intercalate_append {sep : α} {front back : List (List α)} (hfront : front ≠ [])
    (hback : back ≠ []) :
    [sep].intercalate (front ++ back) =
      [sep].intercalate front ++ sep :: [sep].intercalate back := by
  induction front with
  | nil => exact absurd rfl hfront
  | cons first rest ih =>
      cases rest with
      | nil =>
          obtain ⟨second, back, rfl⟩ := List.exists_cons_of_ne_nil hback
          rw [List.cons_append, List.nil_append, List.intercalate_cons_cons,
            List.intercalate_singleton, List.append_assoc]
          rfl
      | cons second rest =>
          have hrest := ih (List.cons_ne_nil second rest)
          rw [List.cons_append] at hrest
          rw [List.cons_append, List.cons_append, List.intercalate_cons_cons, hrest,
            List.intercalate_cons_cons]
          simp

/-- The last parts make up the end of the joined text. -/
theorem intercalate_suffix {sep : α} {parts back : List (List α)} (h : back <:+ parts) :
    [sep].intercalate back <:+ [sep].intercalate parts := by
  obtain ⟨front, rfl⟩ := h
  by_cases hfront : front = []
  · subst hfront
    exact List.suffix_refl _
  by_cases hback : back = []
  · rw [hback]
    exact List.nil_suffix
  rw [intercalate_append hfront hback]
  exact (List.suffix_cons sep _).trans (List.suffix_append _ _)

variable [DecidableEq α] {sep : α}

theorem notMem_of_mem_splitOn {l part : List α} (h : part ∈ l.splitOn sep) : sep ∉ part := by
  induction l generalizing part with
  | nil =>
      rw [List.splitOn_nil, List.mem_singleton] at h
      rw [h]
      exact List.not_mem_nil
  | cons a l ih =>
      rw [List.splitOn_cons_eq_if_modifyHead] at h
      split_ifs at h with ha
      · obtain rfl | h := List.mem_cons.mp h
        · exact List.not_mem_nil
        · exact ih h
      · obtain ⟨first, rest, hsplit⟩ := List.exists_cons_of_ne_nil (List.splitOn_ne_nil sep l)
        rw [hsplit, List.modifyHead_cons, List.mem_cons] at h
        obtain rfl | h := h
        · rw [List.mem_cons, not_or]
          exact ⟨fun heq => ha (by simp [heq]), ih (hsplit ▸ List.mem_cons_self)⟩
        · exact ih (hsplit ▸ List.mem_cons_of_mem first h)

theorem sublist_of_mem_splitOn {l part : List α} (h : part ∈ l.splitOn sep) : part.Sublist l := by
  induction l generalizing part with
  | nil =>
      rw [List.splitOn_nil, List.mem_singleton] at h
      rw [h]
  | cons a l ih =>
      rw [List.splitOn_cons_eq_if_modifyHead] at h
      split_ifs at h
      · obtain rfl | h := List.mem_cons.mp h
        · exact List.nil_sublist _
        · exact (ih h).cons a
      · obtain ⟨first, rest, hsplit⟩ := List.exists_cons_of_ne_nil (List.splitOn_ne_nil sep l)
        rw [hsplit, List.modifyHead_cons, List.mem_cons] at h
        obtain rfl | h := h
        · exact (ih (hsplit ▸ List.mem_cons_self)).cons_cons a
        · exact (ih (hsplit ▸ List.mem_cons_of_mem first h)).cons a

theorem mem_of_mem_splitOn {l part : List α} (h : part ∈ l.splitOn sep) : ∀ a ∈ part, a ∈ l :=
  fun _ ha => (sublist_of_mem_splitOn h).subset ha

theorem eq_of_splitOn_eq_singleton {l part : List α} (h : l.splitOn sep = [part]) : l = part := by
  have hjoin : [sep].intercalate (l.splitOn sep) = l := List.intercalate_splitOn sep
  rw [← hjoin, h, List.intercalate_singleton]

/-- The parts that are not empty. -/
def words (sep : α) (l : List α) : List (List α) := (l.splitOn sep).filter (· ≠ [])

theorem words_append (l rest : List α) :
    words sep (l ++ sep :: rest) = words sep l ++ words sep rest := by
  rw [words, List.splitOn_append_cons_self, List.filter_append]
  rfl

theorem words_singleton {word : List α} (hne : word ≠ []) (hsep : sep ∉ word) :
    words sep word = [word] := by
  rw [words, List.splitOn_eq_singleton hsep]
  simp [hne]

theorem of_mem_words {l word : List α} (h : word ∈ words sep l) : word ≠ [] ∧ sep ∉ word := by
  obtain ⟨hmem, hne⟩ := List.mem_filter.mp h
  exact ⟨of_decide_eq_true hne, notMem_of_mem_splitOn hmem⟩

end Dowse.Splitting
