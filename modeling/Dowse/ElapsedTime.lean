import Dowse.CStrings
import Dowse.TrueDivision

/-!
# How long ago a thing was seen

The web interface has two functions that print an elapsed time, one in C and one in Python. They
go through the same buckets, C with integer division and Python with true division and a cut. In
Python the parentheses of the months are in the wrong place: `int` is given the plural as its base
and raises. For times of hundreds of millions of years the division by sixty may be rounded up to a
whole year, and from `2 ^ 31` years on the cast in C is undefined.

Both functions are modelled from the elapsed seconds on.
-/
namespace Dowse.ElapsedTime
open CStrings TrueDivision

inductive TimeUnit
  | second
  | minute
  | hour
  | day
  | week
  | month
  | year
  deriving DecidableEq, Repr

def TimeUnit.word : TimeUnit → Text
  | .second => "second".toList
  | .minute => "minute".toList
  | .hour => "hour".toList
  | .day => "day".toList
  | .week => "week".toList
  | .month => "month".toList
  | .year => "year".toList

structure Reading where
  number : ℕ
  unit : TimeUnit
  deriving DecidableEq, Repr

/-- The number, the unit, the plural and how it goes on. -/
def Reading.print (r : Reading) (plural : Bool) : Text :=
  Nat.toDigits 10 r.number ++
    ' ' :: (r.unit.word ++ (if plural then ['s'] else []) ++ " ago".toList)

/-- What Python raises when `int` is given a base that is a string. -/
inductive Raised
  | typeError
  deriving DecidableEq, Repr

/-- The bucket that `parsetime` chooses, with the number it prints. -/
def pythonReading (ds : ℕ) : Except Raised Reading :=
  let dm := intDiv ds 60
  if ds < 60 then .ok ⟨ds, .second⟩
  else if dm < 60 then .ok ⟨dm, .minute⟩
  else if dm < 24 * 60 then .ok ⟨intDiv dm 60, .hour⟩
  else if dm < 24 * 60 * 7 then .ok ⟨intDiv dm (60 * 24), .day⟩
  else if dm < 24 * 60 * 31 then .ok ⟨intDiv dm (60 * 24 * 7), .week⟩
  -- 24 * 60 * 365.25 is a whole number
  else if dm < 525960 then .error .typeError
  else .ok ⟨intDiv dm (60 * 24 * 365), .year⟩

/-- The plural is printed for numbers above one. -/
def parsetime (ds : ℕ) : Except Raised Text :=
  (pythonReading ds).map fun r => r.print (decide (1 < r.number))

/-- The cast of a `double` that is a whole number; `none` is undefined. -/
def castInt (n : ℕ) : Option ℕ := if n < 2 ^ 31 then some n else none

def cReading (deltaSeconds : ℕ) : Option Reading :=
  let deltaMinutes := deltaSeconds / 60
  if deltaSeconds < 60 then some ⟨deltaSeconds, .second⟩
  else if deltaMinutes < 60 then some ⟨deltaMinutes, .minute⟩
  else if deltaMinutes < 24 * 60 then (castInt (deltaMinutes / 60)).map (⟨·, .hour⟩)
  else if deltaMinutes < 24 * 60 * 7 then (castInt (deltaMinutes / (60 * 24))).map (⟨·, .day⟩)
  else if deltaMinutes < 24 * 60 * 31 then
    (castInt (deltaMinutes / (60 * 24 * 7))).map (⟨·, .week⟩)
  else if deltaMinutes < 525960 then (castInt (deltaMinutes / (60 * 24 * 30))).map (⟨·, .month⟩)
  else (castInt (deltaMinutes / (60 * 24 * 365))).map (⟨·, .year⟩)

/-- All units are printed in the plural. -/
def relativeTime (deltaSeconds : ℕ) : Option Text := (cReading deltaSeconds).map (·.print true)

/-- Both functions print the same number and the same unit, up to the plural. -/
def Agree (ds : ℕ) : Prop :=
  ∃ (r : Reading) (plural : Bool), parsetime ds = .ok (r.print plural) ∧
    relativeTime ds = some (r.print true)

/-- The elapsed times that are not counted in months or in `2 ^ 31` years or more, and whose
distance to the next whole year is more than half a unit in the last place of the minutes. -/
structure Regular (ds : ℕ) : Prop where
  months : ds / 60 < 44640 ∨ 525960 ≤ ds / 60
  years : ds / 31536000 < 2 ^ 31
  carry : 60 < 2 ^ (53 - Nat.log 2 (ds / 60)) * (31536000 * (ds / 31536000 + 1) - ds)

section Printing

theorem digits_ne_space {n : ℕ} {c : Char} (h : c ∈ Nat.toDigits 10 n) :
    decide (c ≠ ' ') = true := by
  have hdigit := Nat.isDigit_of_mem_toDigits (by decide) (by decide) h
  refine decide_eq_true ?_
  rintro rfl
  exact absurd hdigit (by decide)

theorem takeWhile_print (r : Reading) (plural : Bool) :
    (r.print plural).takeWhile (· ≠ ' ') = Nat.toDigits 10 r.number := by
  rw [Reading.print, List.takeWhile_append_of_pos fun c hc => digits_ne_space hc]
  simp

/-- Two letters tell the units apart. -/
theorem unit_eq_of_take {u u' : TimeUnit} (h : u.word.take 2 = u'.word.take 2) : u = u' := by
  cases u <;> cases u' <;> first | rfl | exact absurd h (by decide)

theorem print_injective {r r' : Reading} {plural plural' : Bool}
    (h : r.print plural = r'.print plural') : r = r' := by
  have hdigits : Nat.toDigits 10 r.number = Nat.toDigits 10 r'.number := by
    rw [← takeWhile_print r plural, h, takeWhile_print]
  have hnumber : r.number = r'.number := by
    have hvalue := congrArg (Nat.ofDigitChars 10 · 0) hdigits
    rwa [Nat.ofDigitChars_toDigits (by decide) (by decide),
      Nat.ofDigitChars_toDigits (by decide) (by decide)] at hvalue
  have hunit : r.unit = r'.unit := by
    rw [Reading.print, Reading.print, hdigits, List.append_cancel_left_eq, List.cons_inj_right]
      at h
    have hlen : ∀ u : TimeUnit, 2 ≤ u.word.length := fun u => by cases u <;> decide
    have htake := congrArg (List.take 2) h
    rw [List.append_assoc, List.append_assoc, List.take_append_of_le_length (hlen _),
      List.take_append_of_le_length (hlen _)] at htake
    exact unit_eq_of_take htake
  cases r
  cases r'
  simp_all

/-- So the functions agree when their readings do. -/
theorem agree_iff_readings (ds : ℕ) :
    Agree ds ↔ ∃ r, pythonReading ds = .ok r ∧ cReading ds = some r := by
  constructor
  · rintro ⟨r, plural, hpython, hc⟩
    obtain ⟨r₁, h₁, hprint₁⟩ : ∃ r₁, pythonReading ds = .ok r₁ ∧
        r₁.print (decide (1 < r₁.number)) = r.print plural := by
      rw [parsetime] at hpython
      cases hreading : pythonReading ds with
      | error e =>
          rw [hreading] at hpython
          cases hpython
      | ok r₁ =>
          rw [hreading] at hpython
          exact ⟨r₁, rfl, Except.ok.inj hpython⟩
    obtain ⟨r₂, h₂, hprint₂⟩ := Option.map_eq_some_iff.mp hc
    exact ⟨r, by rw [h₁, print_injective hprint₁], by rw [h₂, print_injective hprint₂]⟩
  · rintro ⟨r, hpython, hc⟩
    exact ⟨r, decide (1 < r.number), by rw [parsetime, hpython]; rfl, by rw [relativeTime, hc]; rfl⟩

end Printing

section Buckets

/-- Up to the months the cut quotients are the integer ones. -/
theorem readings_of_lt_month {ds : ℕ} (h : ds / 60 < 44640) :
    ∃ r, pythonReading ds = .ok r ∧ cReading ds = some r := by
  by_cases hseconds : ds < 60
  · exact ⟨⟨ds, .second⟩, if_pos hseconds, if_pos hseconds⟩
  have hminutes : intDiv ds 60 = ds / 60 := intDiv_eq (by decide) (by omega) (by omega)
  have hdiv : ∀ {b}, 0 < b → b ≤ ds / 60 → intDiv (ds / 60) b = ds / 60 / b :=
    fun hb hle => intDiv_eq hb hle (by omega)
  have hcast : ∀ b, castInt (ds / 60 / b) = some (ds / 60 / b) := by
    intro b
    have hle := Nat.div_le_self (ds / 60) b
    exact if_pos (by omega)
  simp only [pythonReading, cReading, hseconds, if_false, hminutes, hcast, Option.map_some]
  split_ifs with hminute hhour hday
  · exact ⟨_, rfl, rfl⟩
  · exact ⟨_, rfl, by rw [hdiv (by decide) (by omega)]⟩
  · exact ⟨_, rfl, by rw [hdiv (by decide) (by omega)]⟩
  · exact ⟨_, rfl, by rw [hdiv (by decide) (by omega)]⟩

theorem python_month {ds : ℕ} (hle : 44640 ≤ ds / 60) (hlt : ds / 60 < 525960) :
    pythonReading ds = .error .typeError := by
  have hminutes : intDiv ds 60 = ds / 60 := intDiv_eq (by decide) (by omega) (by omega)
  simp only [pythonReading, hminutes]
  split_ifs <;> first | rfl | omega

theorem c_year {ds : ℕ} (h : 525960 ≤ ds / 60) :
    cReading ds = (castInt (ds / 31536000)).map (⟨·, .year⟩) := by
  have hyear : ds / 60 / (60 * 24 * 365) = ds / 31536000 := Nat.div_div_eq_div_mul ds 60 525600
  simp only [cReading, hyear]
  split_ifs <;> first | rfl | omega

section Years
variable {ds : ℕ} (h : 525960 ≤ ds / 60) (hyears : ds / 31536000 < 2 ^ 31)
include h hyears

/-- Which numbers of minutes Python reaches. -/
theorem le_minutes_iff (n : ℕ) : n ≤ intDiv ds 60 ↔ 2 ^ (53 - Nat.log 2 (ds / 60)) * (60 * n) ≤
    2 ^ (53 - Nat.log 2 (ds / 60)) * ds + 60 :=
  le_intDiv_iff (by decide) (by omega) (by omega) n

theorem minutes_bounds : ds / 60 ≤ intDiv ds 60 ∧ intDiv ds 60 < 2 ^ 51 := by
  constructor
  · rw [le_minutes_iff h hyears]
    exact (Nat.mul_le_mul_left _ (Nat.mul_div_le ds 60)).trans (Nat.le_add_right _ _)
  · by_contra hlarge
    rw [not_lt, le_minutes_iff h hyears] at hlarge
    have hscale : 60 ≤ 2 ^ (53 - Nat.log 2 (ds / 60)) * 60 :=
      Nat.le_mul_of_pos_left 60 (Nat.two_pow_pos _)
    have hfactor : 60 * 2 ^ 51 ≤ ds + 60 := by
      refine Nat.le_of_mul_le_mul_left ?_ (Nat.two_pow_pos (53 - Nat.log 2 (ds / 60)))
      rw [Nat.mul_add]
      omega
    omega

/-- The years of Python are counted from its minutes without further rounding. -/
theorem python_year : pythonReading ds = .ok ⟨intDiv ds 60 / 525600, .year⟩ := by
  obtain ⟨hle, hlt⟩ := minutes_bounds h hyears
  have hdiv : intDiv (intDiv ds 60) (60 * 24 * 365) = intDiv ds 60 / 525600 :=
    intDiv_eq (by decide) (by omega) (by omega)
  simp only [pythonReading, hdiv]
  split_ifs <;> first | rfl | omega

/-- They are those of C unless the minutes are rounded up to the next year. -/
theorem years_eq_iff : intDiv ds 60 / 525600 = ds / 31536000 ↔
    60 < 2 ^ (53 - Nat.log 2 (ds / 60)) * (31536000 * (ds / 31536000 + 1) - ds) := by
  obtain ⟨hle, -⟩ := minutes_bounds h hyears
  have hnext : ds < 31536000 * (ds / 31536000 + 1) := Nat.lt_mul_div_succ ds (by decide)
  have hsame : intDiv ds 60 / 525600 = ds / 31536000 ↔
      ¬ 525600 * (ds / 31536000 + 1) ≤ intDiv ds 60 := by
    omega
  have hseconds : 60 * (525600 * (ds / 31536000 + 1)) = 31536000 * (ds / 31536000 + 1) := by omega
  rw [hsame, le_minutes_iff h hyears, hseconds, Nat.mul_sub, not_le]
  have hscaled := Nat.mul_lt_mul_of_pos_left hnext (Nat.two_pow_pos (53 - Nat.log 2 (ds / 60)))
  constructor <;> intro hlt <;> omega

end Years

end Buckets

theorem regular_of_small {ds : ℕ} (h : ds / 60 < 525960) :
    ds / 31536000 < 2 ^ 31 ∧
      60 < 2 ^ (53 - Nat.log 2 (ds / 60)) * (31536000 * (ds / 31536000 + 1) - ds) := by
  refine ⟨by omega, ?_⟩
  have hnext : ds < 31536000 * (ds / 31536000 + 1) := Nat.lt_mul_div_succ ds (by decide)
  have hlog : Nat.log 2 (ds / 60) < 20 := Nat.log_lt_of_lt_pow' (by decide) (by omega)
  have hpow : 2 ^ 6 ≤ 2 ^ (53 - Nat.log 2 (ds / 60)) := Nat.pow_le_pow_right (by decide) (by omega)
  calc 60 < 2 ^ 6 := by decide
    _ ≤ 2 ^ (53 - Nat.log 2 (ds / 60)) := hpow
    _ ≤ _ := Nat.le_mul_of_pos_right _ (by omega)

/-- The two functions print the same number and unit exactly at the regular elapsed times. -/
theorem agree_iff_regular (ds : ℕ) : Agree ds ↔ Regular ds := by
  rw [agree_iff_readings]
  by_cases hsmall : ds / 60 < 44640
  · obtain ⟨hyears, hcarry⟩ := @regular_of_small ds (by omega)
    exact iff_of_true (readings_of_lt_month hsmall) ⟨.inl hsmall, hyears, hcarry⟩
  by_cases hmonth : ds / 60 < 525960
  · refine iff_of_false ?_ fun hregular => ?_
    · rintro ⟨r, hpython, -⟩
      rw [python_month (not_lt.mp hsmall) hmonth] at hpython
      cases hpython
    · have := hregular.months
      omega
  · have hyear : 525960 ≤ ds / 60 := not_lt.mp hmonth
    rw [c_year hyear]
    by_cases hyears : ds / 31536000 < 2 ^ 31
    · rw [python_year hyear hyears, castInt, if_pos hyears]
      have hcarry := years_eq_iff hyear hyears
      constructor
      · rintro ⟨r, hpython, hc⟩
        cases hpython
        exact ⟨.inr hyear, hyears, hcarry.mp (by simpa using hc.symm)⟩
      · intro hregular
        exact ⟨_, rfl, by rw [hcarry.mpr hregular.carry]; rfl⟩
    · refine iff_of_false ?_ fun hregular => hyears hregular.years
      rintro ⟨r, -, hc⟩
      rw [castInt, if_neg hyears] at hc
      cases hc

/-- After 31 days C prints a month and Python raises. -/
theorem month_raises : parsetime 2678400 = .error .typeError ∧
    relativeTime 2678400 = some "1 months ago".toList := by
  have hmonth : pythonReading 2678400 = .error .typeError :=
    python_month (by decide) (by decide)
  refine ⟨by rw [parsetime, hmonth]; rfl, by decide⟩

end Dowse.ElapsedTime
