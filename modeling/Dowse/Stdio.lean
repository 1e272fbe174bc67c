import Dowse.CStrings
import Dowse.Splitting
import Mathlib.Data.List.Basic

/-!
# Reading a file line by line

`fgets` stops behind a newline or when its buffer is full, so a long line is read in several
pieces. In a file with short lines each piece is one line of the file. A newline at the end of
the file does not start another line.
-/
namespace Dowse.Stdio
open CStrings

/-- What `fgets` stores for a buffer with room for `n` characters, and what is left. -/
def fgets : ℕ → Text → Text × Text
  | 0, content => ([], content)
  | _, [] => ([], [])
  | n + 1, c :: content =>
      if c = '\n' then ([c], content)
      else
        let r := fgets n content
        (c :: r.1, r.2)

/-- The pieces that repeated calls store. -/
def lines (n : ℕ) : ℕ → Text → List Text
  | 0, _ => []
  | fuel + 1, content =>
      if content = [] then []
      else
        let r := fgets n content
        r.1 :: lines n fuel r.2

/-- A line without its newline. -/
def chomp (line : Text) : Text := line.takeWhile (· ≠ '\n')

theorem chomp_append {line : Text} (h : '\n' ∉ line) (rest : Text) :
    chomp (line ++ '\n' :: rest) = line := by
  have hall : ∀ c ∈ line, decide (c ≠ '\n') = true := by
    intro c hc
    exact decide_eq_true fun heq => h (heq ▸ hc)
  rw [chomp, List.takeWhile_append_of_pos hall]
  simp

theorem chomp_eq_self {line : Text} (h : '\n' ∉ line) : chomp line = line := by
  refine List.takeWhile_eq_self_iff.mpr fun c hc => decide_eq_true ?_
  rintro rfl
  exact h hc

/-- The piece ends behind the first newline, or where the buffer is full. -/
theorem fgets_eq (n : ℕ) (content : Text) :
    fgets n content = (content.take (min n (content.findIdx (· = '\n') + 1)),
      content.drop (min n (content.findIdx (· = '\n') + 1))) := by
  induction content generalizing n with
  | nil => cases n <;> simp [fgets]
  | cons c content ih =>
      cases n with
      | zero => simp [fgets]
      | succ n =>
          rw [fgets, List.findIdx_cons]
          by_cases hc : c = '\n'
          · simp [hc]
          · rw [if_neg hc, ih]
            simp [hc, Nat.succ_min_succ]

theorem findIdx_newline {line : Text} (h : '\n' ∉ line) :
    line.findIdx (· = '\n') = line.length := by
  apply List.findIdx_eq_length_of_false
  intro c hc
  exact decide_eq_false fun heq => h (heq ▸ hc)

theorem fgets_newline {n : ℕ} {line : Text} (h : '\n' ∉ line) (hlen : line.length < n)
    (rest : Text) : fgets n (line ++ '\n' :: rest) = (line ++ ['\n'], rest) := by
  have hindex : (line ++ '\n' :: rest).findIdx (· = '\n') = line.length := by
    rw [List.findIdx_append, findIdx_newline h, if_neg (Nat.lt_irrefl _), List.findIdx_cons]
    simp
  rw [fgets_eq, hindex, Nat.min_eq_right (show line.length + 1 ≤ n from hlen),
    List.take_length_add_append, List.drop_length_add_append]
  rfl

theorem fgets_last {n : ℕ} {line : Text} (h : '\n' ∉ line) (hlen : line.length < n) :
    fgets n line = (line, []) := by
  rw [fgets_eq, findIdx_newline h, Nat.min_eq_right hlen, List.take_of_length_le (by omega),
    List.drop_of_length_le (by omega)]

/-- In a file with short lines the pieces are its lines with their newlines, apart from an empty
last one. -/
theorem lines_eq {n fuel : ℕ} {content : Text} (hfuel : content.length ≤ fuel)
    (h : ∀ line ∈ content.splitOn '\n', line.length < n) :
    ∃ front last, content.splitOn '\n' = front ++ [last] ∧
      lines n fuel content = front.map (· ++ ['\n']) ++ if last = [] then [] else [last] := by
  induction fuel generalizing content with
  | zero =>
      obtain rfl := List.length_eq_zero_iff.mp (Nat.le_zero.mp hfuel)
      exact ⟨[], [], rfl, rfl⟩
  | succ fuel ih =>
      by_cases hnil : content = []
      · subst hnil
        exact ⟨[], [], rfl, rfl⟩
      · rw [lines, if_neg hnil]
        by_cases hmem : '\n' ∈ content
        · obtain ⟨line, rest, rfl, hline⟩ := List.eq_append_cons_of_mem hmem
          rw [List.splitOn_append_cons_self, List.splitOn_eq_singleton hline] at h ⊢
          have hshort := h line (by simp)
          obtain ⟨front, last, hsplit, hlines⟩ := @ih rest
            (by simp only [List.length_append, List.length_cons] at hfuel; omega)
            (fun l hl => h l (List.mem_append_right _ hl))
          refine ⟨line :: front, last, by rw [hsplit]; rfl, ?_⟩
          rw [fgets_newline hline hshort]
          dsimp only
          rw [hlines]
          rfl
        · rw [List.splitOn_eq_singleton hmem] at h ⊢
          have hshort := h content (by simp)
          refine ⟨[], content, rfl, ?_⟩
          rw [fgets_last hmem hshort, if_neg hnil]
          cases fuel <;> simp [lines]

theorem chomp_lines {n fuel : ℕ} {content : Text} (hfuel : content.length ≤ fuel)
    (h : ∀ line ∈ content.splitOn '\n', line.length < n) :
    ∃ last, (last = [] ∨ last = [[]]) ∧
      content.splitOn '\n' = (lines n fuel content).map chomp ++ last := by
  obtain ⟨front, last, hsplit, hlines⟩ := lines_eq hfuel h
  have hline : ∀ line ∈ front ++ [last], '\n' ∉ line :=
    fun line hmem => Splitting.notMem_of_mem_splitOn (hsplit ▸ hmem)
  have hfront : (front.map (· ++ ['\n'])).map chomp = front := by
    rw [List.map_map]
    refine List.map_congr_left (fun line hmem => ?_) |>.trans (List.map_id front)
    exact chomp_append (hline line (List.mem_append_left _ hmem)) []
  rw [hsplit, hlines, List.map_append, hfront]
  split_ifs with hnil
  · exact ⟨[[]], .inr rfl, by simp [hnil]⟩
  · refine ⟨[], .inl rfl, ?_⟩
    rw [List.map_singleton, chomp_eq_self (hline last (by simp)), List.append_nil]

end Dowse.Stdio
