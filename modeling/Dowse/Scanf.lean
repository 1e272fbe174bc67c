import Dowse.Strtol
import Mathlib.Algebra.Group.Nat.Defs

/-!
# Conversions of `sscanf`

A conversion takes the longest part of the input that it matches and leaves the rest. White space
in a format matches any amount of white space, and `%d` skips it too. The part that `%d` takes is
kept here as text; the value that is stored is that of `strtol`, cut to 32 bits.
-/
namespace Dowse.Scanf
open CStrings Strtol

/-- `%d`: the text that is converted, and the rest. -/
def int (s : Text) : Option (Text × Text) :=
  let u := sign (s.dropWhile isSpace)
  let rest := u.2.dropWhile Char.isDigit
  if u.2.takeWhile Char.isDigit = [] then none
  else some (s.take (s.length - rest.length), rest)

/-- The value that `%d` stores for a text that it took. -/
def intValue (token : Text) : ℤ := (strtol token).value.bmod (2 ^ 32)

/-- A character of the format that is no white space. -/
def char (c : Char) : Text → Option Text
  | [] => none
  | d :: s => if d = c then some s else none

def space (s : Text) : Text := s.dropWhile isSpace

/-- `%[` with a field width. -/
def scanset (width : ℕ) (allowed : Char → Bool) (s : Text) : Option (Text × Text) :=
  let field := (s.take width).takeWhile allowed
  if field = [] then none else some (field, s.drop field.length)

/-- What follows a conversion does not go on with a digit. -/
def NoDigit (s : Text) : Prop := s.takeWhile Char.isDigit = []

instance (s : Text) : Decidable (NoDigit s) := inferInstanceAs (Decidable (_ = _))

/-- White space, a sign and digits. -/
structure IntToken (blanks sgn digits : Text) : Prop where
  blank : ∀ c ∈ blanks, isSpace c
  signed : sgn = [] ∨ sgn = ['-'] ∨ sgn = ['+']
  digit : ∀ c ∈ digits, c.isDigit
  ne_nil : digits ≠ []

def IsInt (token : Text) : Prop :=
  ∃ blanks sgn digits, token = blanks ++ (sgn ++ digits) ∧ IntToken blanks sgn digits

/-- An integer is next, and all its digits are taken. -/
def StartsInt (s token rest : Text) : Prop := IsInt token ∧ s = token ++ rest ∧ NoDigit rest

/-- White space is next, possibly none, and all of it is skipped. -/
def SkipsSpace (s rest : Text) : Prop :=
  ∃ blanks, s = blanks ++ rest ∧ (∀ c ∈ blanks, isSpace c) ∧ rest.takeWhile isSpace = []

/-- Allowed characters are next, and as many are taken as the width permits. -/
def StartsField (width : ℕ) (allowed : Char → Bool) (s field rest : Text) : Prop :=
  field ≠ [] ∧ s = field ++ rest ∧ (∀ c ∈ field, allowed c) ∧ field.length ≤ width ∧
    (field.length = width ∨ rest.takeWhile allowed = [])

theorem noDigit_nil : NoDigit [] := rfl

theorem noDigit_cons {c : Char} (h : c.isDigit = false) (s : Text) : NoDigit (c :: s) := by
  simp [NoDigit, h]

theorem takeWhile_digits {digits rest : Text} (hd : ∀ c ∈ digits, c.isDigit) (hr : NoDigit rest) :
    (digits ++ rest).takeWhile Char.isDigit = digits := by
  rw [List.takeWhile_append_of_pos hd, hr, List.append_nil]

theorem dropWhile_digits {digits rest : Text} (hd : ∀ c ∈ digits, c.isDigit) (hr : NoDigit rest) :
    (digits ++ rest).dropWhile Char.isDigit = rest := by
  have hsplit := List.takeWhile_append_dropWhile (p := Char.isDigit) (l := digits ++ rest)
  rw [takeWhile_digits hd hr] at hsplit
  exact List.append_cancel_left hsplit

section Token

variable {blanks sgn digits : Text} (h : IntToken blanks sgn digits)

include h

theorem IntToken.sign_eq (rest : Text) :
    sign ((blanks ++ (sgn ++ digits) ++ rest).dropWhile isSpace) =
      (decide (sgn = ['-']), digits ++ rest) := by
  obtain ⟨c, digits, rfl⟩ := List.exists_cons_of_ne_nil h.ne_nil
  have hc := h.digit c List.mem_cons_self
  rw [List.append_assoc, List.dropWhile_append_of_pos h.blank]
  rcases h.signed with rfl | rfl | rfl
  · rw [List.nil_append, List.cons_append, List.dropWhile_cons, not_isSpace_of_isDigit hc]
    exact sign_of_isDigit _ hc
  · rfl
  · rfl

theorem IntToken.int_eq {rest : Text} (hr : NoDigit rest) :
    int (blanks ++ (sgn ++ digits) ++ rest) = some (blanks ++ (sgn ++ digits), rest) := by
  simp only [int, h.sign_eq, takeWhile_digits h.digit hr, dropWhile_digits h.digit hr,
    if_neg h.ne_nil]
  rw [List.length_append, Nat.add_sub_cancel, List.take_left]

end Token

theorem sign_parts (s : Text) :
    ∃ sgn, (sgn = [] ∨ sgn = ['-'] ∨ sgn = ['+']) ∧ s = sgn ++ (sign s).2 := by
  unfold sign
  split
  · exact ⟨['-'], by simp, rfl⟩
  · exact ⟨['+'], by simp, rfl⟩
  · exact ⟨[], by simp, rfl⟩

/-- `%d` succeeds exactly on a text that starts with an integer, and takes all its digits. -/
theorem int_eq_some_iff {s token rest : Text} :
    int s = some (token, rest) ↔ StartsInt s token rest := by
  constructor
  · intro h
    obtain ⟨sgn, hsgn, hsplit⟩ := sign_parts (s.dropWhile isSpace)
    have hnil : (sign (s.dropWhile isSpace)).2.takeWhile Char.isDigit ≠ [] := by
      intro hnil
      simp [int, hnil] at h
    have htoken : IntToken (s.takeWhile isSpace) sgn
        ((sign (s.dropWhile isSpace)).2.takeWhile Char.isDigit) :=
      ⟨fun c hc => List.mem_takeWhile_imp hc, hsgn, fun c hc => List.mem_takeWhile_imp hc, hnil⟩
    have hs : s.takeWhile isSpace ++
        (sgn ++ (sign (s.dropWhile isSpace)).2.takeWhile Char.isDigit) ++
        (sign (s.dropWhile isSpace)).2.dropWhile Char.isDigit = s := by
      rw [List.append_assoc, List.append_assoc, List.takeWhile_append_dropWhile, ← hsplit,
        List.takeWhile_append_dropWhile]
    have hr : NoDigit ((sign (s.dropWhile isSpace)).2.dropWhile Char.isDigit) := by
      rw [NoDigit, List.takeWhile_eq_nil_iff]
      exact fun hpos => List.dropWhile_get_zero_not _ _ hpos
    have heq := htoken.int_eq hr
    rw [hs, h] at heq
    obtain ⟨rfl, rfl⟩ := Prod.mk.inj (Option.some.inj heq)
    exact ⟨⟨_, _, _, rfl, htoken⟩, hs.symm, hr⟩
  · rintro ⟨⟨blanks, sgn, digits, rfl, htoken⟩, rfl, hr⟩
    exact htoken.int_eq hr

theorem char_eq_some_iff {c : Char} {s rest : Text} : char c s = some rest ↔ s = c :: rest := by
  cases s with
  | nil => simp [char]
  | cons d s =>
      by_cases hd : d = c
      · simp [char, hd]
      · simp [char, hd]

theorem space_eq_iff {s rest : Text} : space s = rest ↔ SkipsSpace s rest := by
  constructor
  · rintro rfl
    refine ⟨s.takeWhile isSpace, List.takeWhile_append_dropWhile.symm,
      fun c hc => List.mem_takeWhile_imp hc, ?_⟩
    rw [space, List.takeWhile_eq_nil_iff]
    intro hpos
    exact List.dropWhile_get_zero_not _ _ hpos
  · rintro ⟨blanks, rfl, hblanks, hrest⟩
    have hsplit := List.takeWhile_append_dropWhile (p := isSpace) (l := rest)
    rw [hrest, List.nil_append] at hsplit
    rw [space, List.dropWhile_append_of_pos hblanks, hsplit]

theorem scanset_eq_some_iff {width : ℕ} {allowed : Char → Bool} {s field rest : Text} :
    scanset width allowed s = some (field, rest) ↔ StartsField width allowed s field rest := by
  constructor
  · intro h
    simp only [scanset] at h
    split_ifs at h with hnil
    obtain ⟨rfl, hrest⟩ := Prod.mk.inj (Option.some.inj h)
    have htake := List.takeWhile_append_dropWhile (p := allowed) (l := s.take width)
    have hs : s = (s.take width).takeWhile allowed ++
        ((s.take width).dropWhile allowed ++ s.drop width) := by
      rw [← List.append_assoc, htake, List.take_append_drop]
    have hrest' : rest = (s.take width).dropWhile allowed ++ s.drop width := by
      rw [← hrest]
      nth_rewrite 2 [hs]
      exact List.drop_left
    refine ⟨hnil, by rw [hrest']; exact hs, fun c hc => List.mem_takeWhile_imp hc, ?_, ?_⟩
    · exact (List.takeWhile_prefix _).length_le.trans (List.length_take_le _ _)
    · cases hdrop : (s.take width).dropWhile allowed with
      | nil =>
          rw [hdrop, List.append_nil] at htake
          rw [hdrop, List.nil_append] at hrest'
          by_cases hlen : width ≤ s.length
          · left
            rw [htake, List.length_take, Nat.min_eq_left hlen]
          · right
            rw [hrest', List.drop_eq_nil_of_le (by omega), List.takeWhile_nil]
      | cons d rest' =>
          right
          have hd : allowed d = false := by
            have := List.head_dropWhile_not allowed (l := s.take width) (by simp [hdrop])
            simpa [hdrop] using this
          rw [hrest', hdrop, List.cons_append, List.takeWhile_cons, hd]
          rfl
  · rintro ⟨hnil, rfl, hallowed, hlen, hend⟩
    have hnone : (rest.take (width - field.length)).takeWhile allowed = [] := by
      rcases hend with hend | hend
      · rw [hend, Nat.sub_self, List.take_zero, List.takeWhile_nil]
      · cases rest with
        | nil => rw [List.take_nil, List.takeWhile_nil]
        | cons d rest =>
            have hd : allowed d = false := by
              by_contra hd
              rw [Bool.not_eq_false] at hd
              simp [hd] at hend
            cases width - field.length <;> simp [hd]
    have hfield : ((field ++ rest).take width).takeWhile allowed = field := by
      rw [List.take_append, List.take_of_length_le hlen, List.takeWhile_append_of_pos hallowed,
        hnone, List.append_nil]
    simp only [scanset, hfield, if_neg hnil, List.drop_left]

end Dowse.Scanf
