import Dowse.CStrings
import Mathlib.Data.List.TakeWhile

/-!
# Decimal conversion of the C library

`strtol` in base ten skips white space, takes an optional sign and the digits that
follow. Without a digit it converts nothing: the value is zero, the rest is the
whole text and `errno` is untouched. Outside the 64-bit range the value is clamped and
`errno` is set.

A numeral is a text that the conversion uses up without an error. The empty text
is one, and reads as zero. `Spelled` says without the conversion what a number is; it has
a digit at least.
-/
namespace Dowse.Strtol
open CStrings

def isSpace (c : Char) : Bool := c ∈ [' ', '\t', '\n', '\x0b', '\x0c', '\r']

def longMax : ℤ := 9223372036854775807

def longMin : ℤ := -9223372036854775808

def decimal (digits : Text) : ℕ := digits.foldl (fun n c => 10 * n + (c.toNat - '0'.toNat)) 0

/-- Takes a sign off; true is a minus. -/
def sign : Text → Bool × Text
  | '-' :: s => (true, s)
  | '+' :: s => (false, s)
  | s => (false, s)

/-- The returned value, the text behind the end pointer, and whether `errno` was set. -/
structure Converted where
  value : ℤ
  rest : Text
  erange : Bool
  deriving DecidableEq, Repr

def clamp (v : ℤ) (rest : Text) : Converted :=
  if v > longMax then ⟨longMax, rest, true⟩
  else if v < longMin then ⟨longMin, rest, true⟩
  else ⟨v, rest, false⟩

def strtol (s : Text) : Converted :=
  let u := sign (s.dropWhile isSpace)
  let digits := u.2.takeWhile Char.isDigit
  if digits = [] then ⟨0, s, false⟩
  else clamp (bif u.1 then - decimal digits else decimal digits) (u.2.dropWhile Char.isDigit)

def Numeral (s : Text) (n : ℤ) : Prop := strtol s = ⟨n, [], false⟩

instance (s : Text) (n : ℤ) : Decidable (Numeral s n) := inferInstanceAs (Decidable (_ = _))

/-- An integer as it is written: digits, at least one, behind a sign and white space that may
be left out. -/
inductive Spelled : Text → ℤ → Prop
  | digits {s : Text} : s ≠ [] → (∀ c ∈ s, c.isDigit) → Spelled s (decimal s)
  | plus {s : Text} : s ≠ [] → (∀ c ∈ s, c.isDigit) → Spelled ('+' :: s) (decimal s)
  | minus {s : Text} : s ≠ [] → (∀ c ∈ s, c.isDigit) → Spelled ('-' :: s) (- decimal s)
  | blank {c : Char} {s : Text} {n : ℤ} : isSpace c → Spelled s n → Spelled (c :: s) n

/-- The characters that a conversion can use up. -/
def numeralChar (c : Char) : Bool := isSpace c || c = '-' || c = '+' || c.isDigit

theorem Numeral.unique {s : Text} {m n : ℤ} (hm : Numeral s m) (hn : Numeral s n) : m = n :=
  congrArg Converted.value (hm.symm.trans hn)

theorem clamp_rest (v : ℤ) (rest : Text) : (clamp v rest).rest = rest := by
  unfold clamp
  split_ifs <;> rfl

theorem clamp_eq_with (v : ℤ) (s t : Text) : clamp v t = { clamp v s with rest := t } := by
  unfold clamp
  split_ifs <;> rfl

theorem clamp_exact {v n : ℤ} {s : Text} (h : clamp v s = ⟨n, s, false⟩) (t : Text) :
    clamp v t = ⟨n, t, false⟩ := by
  rw [clamp_eq_with v s t, h]

/-- Without an error the value is not clamped. -/
theorem clamp_value {v n : ℤ} {s t : Text} (h : clamp v s = ⟨n, t, false⟩) : v = n ∧ s = t := by
  unfold clamp at h
  split_ifs at h <;> simp_all

theorem sign_append {s : Text} (t : Text) (hs : s ≠ []) :
    sign (s ++ t) = ((sign s).1, (sign s).2 ++ t) := by
  cases s with
  | nil => exact absurd rfl hs
  | cons c s =>
      rw [List.cons_append]
      unfold sign
      split <;> split <;> simp_all

theorem sign_split (s : Text) :
    ∃ pre : Text, s = pre ++ (sign s).2 ∧ ∀ c ∈ pre, numeralChar c := by
  unfold sign
  split
  · exact ⟨['-'], rfl, by simp [numeralChar]⟩
  · exact ⟨['+'], rfl, by simp [numeralChar]⟩
  · exact ⟨[], rfl, by simp⟩

/-- What a conversion uses up is made of blanks, signs and digits. -/
theorem strtol_split (s : Text) :
    ∃ pre : Text, s = pre ++ (strtol s).rest ∧ ∀ c ∈ pre, numeralChar c := by
  obtain ⟨signs, hsigns, hchars⟩ := sign_split (s.dropWhile isSpace)
  have hs : s = (s.takeWhile isSpace ++ signs ++
      (sign (s.dropWhile isSpace)).2.takeWhile Char.isDigit) ++
        (sign (s.dropWhile isSpace)).2.dropWhile Char.isDigit := by
    rw [List.append_assoc, List.takeWhile_append_dropWhile, List.append_assoc, ← hsigns,
      List.takeWhile_append_dropWhile]
  have hall : ∀ c ∈ s.takeWhile isSpace ++ signs ++
      (sign (s.dropWhile isSpace)).2.takeWhile Char.isDigit, numeralChar c := by
    intro c hc
    simp only [List.mem_append] at hc
    rcases hc with (hc | hc) | hc
    · simp [numeralChar, List.mem_takeWhile_imp hc]
    · exact hchars c hc
    · simp [numeralChar, List.mem_takeWhile_imp hc]
  simp only [strtol]
  split_ifs
  · exact ⟨[], rfl, by simp⟩
  · rw [clamp_rest]
    exact ⟨_, hs, hall⟩

theorem numeral_nil : Numeral [] 0 := rfl

theorem Numeral.rest {s : Text} {n : ℤ} (h : Numeral s n) : (strtol s).rest = [] :=
  congrArg Converted.rest h

section UsedUp

variable {s t : Text} (h : (strtol s).rest = [])
include h

theorem numeralChar_of_rest : ∀ c ∈ s, numeralChar c := by
  obtain ⟨pre, hs, hpre⟩ := strtol_split s
  rw [h, List.append_nil] at hs
  rwa [hs]

/-- A text that is used up has digits up to its end, unless it is empty. -/
theorem digits_of_rest (hs : s ≠ []) : (sign (s.dropWhile isSpace)).2 ≠ [] ∧
    ∀ c ∈ (sign (s.dropWhile isSpace)).2, c.isDigit := by
  simp only [strtol] at h
  split_ifs at h with hd
  · exact absurd h hs
  · rw [clamp_rest] at h
    exact ⟨fun hnil => hd (by rw [hnil, List.takeWhile_nil]), List.dropWhile_eq_nil_iff.mp h⟩

/-- Such a text is converted alike in front of anything but a digit. -/
theorem strtol_append_of_rest (hs : s ≠ []) (ht : t.takeWhile Char.isDigit = []) :
    strtol (s ++ t) = { strtol s with rest := t } := by
  obtain ⟨hne, hdigits⟩ := digits_of_rest h hs
  have hspace : s.dropWhile isSpace ≠ [] := by
    intro hnil
    rw [hnil] at hne
    exact hne rfl
  have hdrop : (s ++ t).dropWhile isSpace = s.dropWhile isSpace ++ t := by
    rw [List.dropWhile_append, if_neg (by simpa using hspace)]
  have htake : ((sign (s.dropWhile isSpace)).2 ++ t).takeWhile Char.isDigit =
      (sign (s.dropWhile isSpace)).2 := by
    rw [List.takeWhile_append_of_pos hdigits, ht, List.append_nil]
  have htrest : t.dropWhile Char.isDigit = t := by
    have := List.takeWhile_append_dropWhile (p := Char.isDigit) (l := t)
    rwa [ht, List.nil_append] at this
  have hrest : ((sign (s.dropWhile isSpace)).2 ++ t).dropWhile Char.isDigit = t := by
    rw [List.dropWhile_append_of_pos hdigits, htrest]
  have hself : (sign (s.dropWhile isSpace)).2.takeWhile Char.isDigit =
      (sign (s.dropWhile isSpace)).2 := List.takeWhile_eq_self_iff.mpr hdigits
  simp only [strtol, hdrop, sign_append t hspace, htake, hrest, hself, if_neg hne]
  exact clamp_eq_with _ _ t

end UsedUp

theorem Numeral.strtol_append {s t : Text} {n : ℤ} (h : Numeral s n) (hs : s ≠ [])
    (ht : t.takeWhile Char.isDigit = []) : strtol (s ++ t) = ⟨n, t, false⟩ := by
  rw [strtol_append_of_rest h.rest hs ht, h]

theorem not_isSpace_of_isDigit {c : Char} (h : c.isDigit) : isSpace c = false := by
  rw [Bool.eq_false_iff]
  intro hs
  simp only [isSpace, List.mem_cons, List.not_mem_nil, or_false, decide_eq_true_eq] at hs
  rcases hs with rfl | rfl | rfl | rfl | rfl | rfl <;> exact absurd h (by decide)

theorem sign_of_isDigit {c : Char} (s : Text) (h : c.isDigit) :
    sign (c :: s) = (false, c :: s) := by
  unfold sign
  split
  · rename_i heq
    obtain ⟨rfl, -⟩ := List.cons.inj heq
    exact absurd h (by decide)
  · rename_i heq
    obtain ⟨rfl, -⟩ := List.cons.inj heq
    exact absurd h (by decide)
  · rfl

/-- Digits are converted to their value, whatever stops them. -/
theorem strtol_digits {s t : Text} (hs : ∀ c ∈ s, c.isDigit) (hne : s ≠ [])
    (ht : t.takeWhile Char.isDigit = []) : strtol (s ++ t) = clamp (decimal s) t := by
  obtain ⟨c, s, rfl⟩ := List.exists_cons_of_ne_nil hne
  have hc := hs c List.mem_cons_self
  have hdrop : (c :: s ++ t).dropWhile isSpace = c :: s ++ t := by
    rw [List.cons_append, List.dropWhile_cons, not_isSpace_of_isDigit hc]
    rfl
  have hsign : sign (c :: s ++ t) = (false, c :: s ++ t) := sign_of_isDigit _ hc
  have htake : (c :: s ++ t).takeWhile Char.isDigit = c :: s := by
    rw [List.takeWhile_append_of_pos hs, ht, List.append_nil]
  have hrest : (c :: s ++ t).dropWhile Char.isDigit = t := by
    have hsplit := List.takeWhile_append_dropWhile (p := Char.isDigit) (l := c :: s ++ t)
    rw [htake] at hsplit
    exact List.append_cancel_left hsplit
  simp only [strtol, hdrop, hsign, htake, hrest, if_neg hne, cond_false]

theorem clamp_eq_iff {v n : ℤ} {t : Text} (hv : 0 ≤ v) :
    clamp v t = ⟨n, t, false⟩ ↔ n = v ∧ v ≤ longMax := by
  unfold clamp
  have hmin : ¬ v < longMin := by unfold longMin; omega
  split_ifs with hmax
  · exact iff_of_false (by simp) (by omega)
  · simp only [Converted.mk.injEq, and_true]
    omega

/-- Digits are a numeral of their value as long as that is in range. -/
theorem numeral_digits_iff {s : Text} (hs : ∀ c ∈ s, c.isDigit) (n : ℤ) :
    Numeral s n ↔ n = decimal s ∧ (decimal s : ℤ) ≤ longMax := by
  by_cases hne : s = []
  · subst hne
    constructor
    · exact fun h => ⟨h.unique numeral_nil, by decide⟩
    · rintro ⟨rfl, -⟩
      exact numeral_nil
  · have hself := strtol_digits hs hne (t := []) rfl
    rw [List.append_nil] at hself
    rw [Numeral, hself, clamp_eq_iff (Int.natCast_nonneg _)]

/-- A text that is used up and starts with a digit has nothing else. -/
theorem all_digits_of_rest {c : Char} {s : Text} (h : (strtol (c :: s)).rest = [])
    (hc : c.isDigit) : ∀ d ∈ c :: s, d.isDigit := by
  have hdigits := (digits_of_rest h (by simp)).2
  rwa [List.dropWhile_cons, not_isSpace_of_isDigit hc, if_neg (by simp),
    sign_of_isDigit s hc] at hdigits

/-- A character that no numeral has stops the conversion, also when there is nothing to
convert. -/
theorem Numeral.strtol_cons {s : Text} {n : ℤ} (h : Numeral s n) {c : Char}
    (hc : numeralChar c = false) (t : Text) : strtol (s ++ c :: t) = ⟨n, c :: t, false⟩ := by
  simp only [numeralChar, Bool.or_eq_false_iff, decide_eq_false_iff_not] at hc
  obtain ⟨⟨⟨hspace, hminus⟩, hplus⟩, hdigit⟩ := hc
  have htake : (c :: t).takeWhile Char.isDigit = [] := by simp [hdigit]
  by_cases hs : s = []
  · subst hs
    have hsign : sign (c :: t) = (false, c :: t) := by
      unfold sign
      split <;> simp_all
    obtain rfl := h.unique numeral_nil
    simp only [List.nil_append, strtol, List.dropWhile_cons, hspace, Bool.false_eq_true, if_false,
      hsign, htake, if_true]
  · exact h.strtol_append hs htake

/-- A sign can be put in front of other digits. -/
theorem sign_replace (s : Text) :
    ∃ pre : Text, s = pre ++ (sign s).2 ∧ ∀ c digits, c.isDigit →
      sign (pre ++ c :: digits) = ((sign s).1, c :: digits) ∧
      (pre ++ c :: digits).dropWhile isSpace = pre ++ c :: digits := by
  unfold sign
  split
  · exact ⟨['-'], rfl, fun c digits _ => ⟨rfl, rfl⟩⟩
  · exact ⟨['+'], rfl, fun c digits _ => ⟨rfl, rfl⟩⟩
  · refine ⟨[], rfl, fun c digits hc => ⟨sign_of_isDigit digits hc, ?_⟩⟩
    rw [List.nil_append, List.dropWhile_cons, not_isSpace_of_isDigit hc]
    rfl

/-- A conversion without an error uses up a numeral of its value. -/
theorem numeral_of_strtol {s rest : Text} {n : ℤ} (h : strtol s = ⟨n, rest, false⟩) :
    ∃ t, s = t ++ rest ∧ Numeral t n := by
  obtain ⟨pre, hpre, hsign⟩ := sign_replace (s.dropWhile isSpace)
  simp only [strtol] at h
  split_ifs at h with hd
  · simp only [Converted.mk.injEq] at h
    exact ⟨[], by rw [h.2.1, List.nil_append], h.1 ▸ numeral_nil⟩
  · have hrest : (sign (s.dropWhile isSpace)).2.dropWhile Char.isDigit = rest :=
      (clamp_rest _ _).symm.trans (congrArg Converted.rest h)
    have hall : ∀ c ∈ (sign (s.dropWhile isSpace)).2.takeWhile Char.isDigit, c.isDigit :=
      fun c hc => List.mem_takeWhile_imp hc
    have hsplit := List.takeWhile_append_dropWhile (p := Char.isDigit)
      (l := (sign (s.dropWhile isSpace)).2)
    rw [hrest] at h hsplit
    generalize (sign (s.dropWhile isSpace)).2.takeWhile Char.isDigit = digits at h hd hall hsplit
    obtain ⟨c, digits, rfl⟩ := List.exists_cons_of_ne_nil hd
    obtain ⟨hs, hdrop⟩ := hsign c digits (hall c List.mem_cons_self)
    refine ⟨s.takeWhile isSpace ++ (pre ++ c :: digits), ?_, ?_⟩
    · rw [List.append_assoc, List.append_assoc, hsplit, ← hpre,
        List.takeWhile_append_dropWhile]
    · have hspace : (s.takeWhile isSpace ++ (pre ++ c :: digits)).dropWhile isSpace =
          pre ++ c :: digits := by
        rw [List.dropWhile_append_of_pos fun a ha => List.mem_takeWhile_imp ha, hdrop]
      simp only [Numeral, strtol, hspace, hs, List.takeWhile_eq_self_iff.mpr hall,
        List.dropWhile_eq_nil_iff.mpr hall, if_neg hd]
      exact clamp_exact h []

theorem numeral_used_up {s : Text} (h : (strtol s).erange = false) :
    ∃ t, s = t ++ (strtol s).rest ∧ Numeral t (strtol s).value :=
  numeral_of_strtol (by rw [← h])

/-- Behind a minus sign a text that is used up alone is used up too, or begins with something
that stops the conversion. -/
theorem strtol_minus_of_rest {s rest : Text} {m : ℤ} (h : (strtol s).rest = [])
    (hm : strtol ('-' :: s) = ⟨m, rest, false⟩) (hrest : rest ≠ []) :
    m = 0 ∧ rest = '-' :: s := by
  have hdash : ('-' :: s).dropWhile isSpace = '-' :: s := rfl
  simp only [strtol, hdash, sign] at hm
  split_ifs at hm with hd
  · simp only [Converted.mk.injEq] at hm
    exact ⟨hm.1.symm, hm.2.1.symm⟩
  · -- here the numeral starts with a digit, so the conversion reaches its end
    have hall : ∀ c ∈ s, c.isDigit := by
      cases s with
      | nil => simp
      | cons c s =>
          have hc : c.isDigit := by
            by_contra hnot
            exact hd (by simp [hnot])
          exact all_digits_of_rest h hc
    have := congrArg Converted.rest hm
    rw [clamp_rest, List.dropWhile_eq_nil_iff.mpr hall] at this
    exact absurd this.symm hrest

/-- A dash that stops the conversion has no digit behind it. -/
theorem takeWhile_of_strtol_minus {t : Text} {n : ℤ}
    (h : strtol ('-' :: t) = ⟨n, '-' :: t, false⟩) : t.takeWhile Char.isDigit = [] := by
  have hdash : ('-' :: t).dropWhile isSpace = '-' :: t := rfl
  simp only [strtol, hdash, sign] at h
  split_ifs at h with hd
  · exact hd
  · have hrest := congrArg Converted.rest h
    rw [clamp_rest] at hrest
    have hlen := (List.dropWhile_sublist Char.isDigit (l := t)).length_le
    rw [hrest, List.length_cons] at hlen
    omega

/-- The sign and the digits of a number, whatever follows it. -/
theorem Spelled.parts {s : Text} {n : ℤ} (h : Spelled s n) : ∃ minus digits,
    digits ≠ [] ∧ (∀ c ∈ digits, c.isDigit) ∧
      n = (bif minus then - (decimal digits : ℤ) else decimal digits) ∧
      ∀ t, sign ((s ++ t).dropWhile isSpace) = (minus, digits ++ t) := by
  induction h with
  | @digits s hne hs =>
      obtain ⟨c, s, rfl⟩ := List.exists_cons_of_ne_nil hne
      have hc := hs c List.mem_cons_self
      refine ⟨false, c :: s, hne, hs, rfl, fun t => ?_⟩
      rw [List.cons_append, List.dropWhile_cons, not_isSpace_of_isDigit hc, if_neg (by simp),
        sign_of_isDigit _ hc]
  | plus hne hs => exact ⟨false, _, hne, hs, rfl, fun t => rfl⟩
  | minus hne hs => exact ⟨true, _, hne, hs, rfl, fun t => rfl⟩
  | blank hc _ ih =>
      obtain ⟨minus, digits, hne, hdigits, hn, hsign⟩ := ih
      refine ⟨minus, digits, hne, hdigits, hn, fun t => ?_⟩
      rw [List.cons_append, List.dropWhile_cons, if_pos hc, hsign]

/-- A number is converted to its value as far as the range allows. -/
theorem Spelled.strtol_eq {s : Text} {n : ℤ} (h : Spelled s n) : strtol s = clamp n [] := by
  obtain ⟨minus, digits, hne, hdigits, rfl, hsign⟩ := h.parts
  have hs := hsign []
  rw [List.append_nil, List.append_nil] at hs
  simp only [strtol, hs, List.takeWhile_eq_self_iff.mpr hdigits, if_neg hne,
    List.dropWhile_eq_nil_iff.mpr hdigits]

theorem Spelled.ne_nil {s : Text} {n : ℤ} (h : Spelled s n) : s ≠ [] := by
  cases h <;> simp_all

theorem spelled_blanks {blanks s : Text} {n : ℤ} (hblanks : ∀ c ∈ blanks, isSpace c)
    (h : Spelled s n) : Spelled (blanks ++ s) n := by
  induction blanks with
  | nil => exact h
  | cons c blanks ih =>
      obtain ⟨hc, hrest⟩ := List.forall_mem_cons.mp hblanks
      exact .blank hc (ih hrest)

/-- The sign of a text in front of digits. -/
theorem spelled_sign {s : Text} (hne : (sign s).2 ≠ []) (hdigits : ∀ c ∈ (sign s).2, c.isDigit) :
    Spelled s (bif (sign s).1 then - (decimal (sign s).2 : ℤ) else decimal (sign s).2) := by
  revert hne hdigits
  unfold sign
  split
  · exact .minus
  · exact .plus
  · exact .digits

/-- The empty text is the only numeral that is not a number. -/
theorem Numeral.spelled {s : Text} {n : ℤ} (h : Numeral s n) (hs : s ≠ []) : Spelled s n := by
  obtain ⟨hne, hdigits⟩ := digits_of_rest h.rest hs
  have hblanks : ∀ c ∈ s.takeWhile isSpace, isSpace c := fun c hc => List.mem_takeWhile_imp hc
  have hspelled := spelled_blanks hblanks (spelled_sign hne hdigits)
  rw [List.takeWhile_append_dropWhile] at hspelled
  exact (clamp_value (hspelled.strtol_eq.symm.trans h)).1 ▸ hspelled

end Dowse.Strtol
