import Mathlib.Algebra.Order.Floor.Semifield
import Mathlib.Data.Int.Log
import Mathlib.Data.Rat.Floor
import Mathlib.Tactic.FieldSimp
import Mathlib.Tactic.Linarith
import Mathlib.Tactic.Ring

/-!
# Division of integers in binary floating point

The quotient of two integers is rounded to 53 significant bits, to the nearest and at a tie to the
even one, and then cut to an integer. Where a unit in the last place is a fraction, an integer is
reached exactly from half a unit below it. So the result is the integer quotient for numerators
below `2 ^ 52`, and may be larger by rounding above.

Quotients are positive and in the range of the normal numbers.
-/
namespace Dowse.TrueDivision

def roundHalfEven (x : ℚ) : ℤ :=
  if x - ⌊x⌋ < 1 / 2 then ⌊x⌋
  else if 1 / 2 < x - ⌊x⌋ then ⌊x⌋ + 1
  else if Even ⌊x⌋ then ⌊x⌋ else ⌊x⌋ + 1

/-- The distance of neighbouring numbers around a positive one. -/
def ulp (q : ℚ) : ℚ := 2 ^ (Int.log 2 q - 52)

def toBinary64 (q : ℚ) : ℚ := roundHalfEven (q / ulp q) * ulp q

/-- The quotient, cut to an integer. -/
def intDiv (a b : ℕ) : ℕ := ⌊toBinary64 (a / b)⌋₊

/-- An even number is reached from half below it on. -/
theorem le_roundHalfEven_iff {n : ℤ} (hn : Even n) (x : ℚ) :
    n ≤ roundHalfEven x ↔ (n : ℚ) - 1 / 2 ≤ x := by
  have hfloor := Int.floor_le x
  have hceil := Int.lt_floor_add_one x
  rw [sub_le_iff_le_add, ← Int.le_floor]
  unfold roundHalfEven
  by_cases hlow : x - ⌊x⌋ < 1 / 2
  · have hsame : ⌊x + 1 / 2⌋ = ⌊x⌋ := Int.floor_eq_iff.mpr ⟨by linarith, by linarith⟩
    rw [if_pos hlow, hsame]
  · have hnext : ⌊x + 1 / 2⌋ = ⌊x⌋ + 1 := by
      rw [Int.floor_eq_iff]
      push_cast
      exact ⟨by linarith, by linarith⟩
    rw [if_neg hlow, hnext]
    split_ifs with hhigh heven
    · rfl
    · -- at a tie below an odd number no even one is in between
      obtain ⟨k, rfl⟩ := hn
      obtain ⟨m, hm⟩ := heven
      omega
    · rfl

section Quotient
variable {a b : ℕ} (hb : 0 < b) (hle : b ≤ a)
include hb hle

theorem ulp_quotient (hsmall : a / b < 2 ^ 52) :
    ulp (a / b) = ((2 : ℚ) ^ (52 - Nat.log 2 (a / b)))⁻¹ := by
  have hone : (1 : ℚ) ≤ a / b := by
    rw [le_div_iff₀ (by exact_mod_cast hb), one_mul]
    exact_mod_cast hle
  have hlog : Nat.log 2 (a / b) < 52 := Nat.log_lt_of_lt_pow (Nat.div_pos hle hb).ne' hsmall
  rw [ulp, Int.log_of_one_le_right 2 hone, Nat.floor_div_eq_div, ← zpow_natCast, ← zpow_neg]
  congr 1
  omega

/-- Which integers the quotient reaches: half a unit in the last place is enough. -/
theorem le_intDiv_iff (hsmall : a / b < 2 ^ 52) (n : ℕ) :
    n ≤ intDiv a b ↔ 2 ^ (53 - Nat.log 2 (a / b)) * (b * n) ≤
      2 ^ (53 - Nat.log 2 (a / b)) * a + b := by
  have hlog : Nat.log 2 (a / b) < 52 := Nat.log_lt_of_lt_pow (Nat.div_pos hle hb).ne' hsmall
  obtain ⟨k, hk⟩ : ∃ k, 52 - Nat.log 2 (a / b) = k + 1 := ⟨51 - Nat.log 2 (a / b), by omega⟩
  have hk' : 53 - Nat.log 2 (a / b) = k + 2 := by omega
  have hb' : (0 : ℚ) < b := by exact_mod_cast hb
  rcases Nat.eq_zero_or_pos n with rfl | hn
  · simp
  have heven : Even ((n : ℤ) * 2 ^ (k + 1)) := by
    rw [pow_succ, ← mul_assoc]
    exact even_two.mul_left _
  have hunits : (n : ℚ) * 2 ^ (k + 1) = (((n : ℤ) * 2 ^ (k + 1) : ℤ) : ℚ) := by
    push_cast
    rfl
  rw [intDiv, toBinary64, ulp_quotient hb hle hsmall, hk, hk', Nat.le_floor_iff' hn.ne',
    le_mul_inv_iff₀ (by positivity), hunits, Int.cast_le, le_roundHalfEven_iff heven, ← hunits,
    div_inv_eq_mul, div_mul_eq_mul_div, le_div_iff₀ hb', ← @Nat.cast_le ℚ]
  push_cast
  rw [pow_succ 2 (k + 1)]
  constructor <;> intro h <;> linarith

/-- Below `2 ^ 52` the quotient does not reach an integer that it should not. -/
theorem intDiv_eq (ha : a < 2 ^ 52) : intDiv a b = a / b := by
  have hsmall : a / b < 2 ^ 52 := (Nat.div_le_self a b).trans_lt ha
  have hlog : Nat.log 2 (a / b) < 52 := Nat.log_lt_of_lt_pow (Nat.div_pos hle hb).ne' hsmall
  have hscale : 2 ^ Nat.log 2 (a / b) * b ≤ a :=
    (Nat.le_div_iff_mul_le hb).mp (Nat.pow_log_le_self 2 (Nat.div_pos hle hb).ne')
  refine eq_of_forall_le_iff fun n => ?_
  rw [le_intDiv_iff hb hle hsmall, Nat.le_div_iff_mul_le hb, Nat.mul_comm b n]
  constructor
  · intro h
    by_contra hlt
    have hnext := Nat.mul_le_mul_left (2 ^ (53 - Nat.log 2 (a / b)))
      (Nat.succ_le_of_lt (not_le.mp hlt))
    have hunit : 2 ^ (53 - Nat.log 2 (a / b)) ≤ b := by
      rw [Nat.mul_succ] at hnext
      omega
    have htop : 2 ^ 53 = 2 ^ Nat.log 2 (a / b) * 2 ^ (53 - Nat.log 2 (a / b)) := by
      rw [← pow_add]
      congr 1
      omega
    have hge := (Nat.mul_le_mul_left (2 ^ Nat.log 2 (a / b)) hunit).trans hscale
    omega
  · intro h
    exact (Nat.mul_le_mul_left _ h).trans (Nat.le_add_right _ _)

end Quotient

end Dowse.TrueDivision
