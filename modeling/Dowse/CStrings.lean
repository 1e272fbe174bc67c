import Mathlib.Data.List.Infix
import Mathlib.Data.List.TakeWhile

/-!
# C strings as lists of characters

A `Text` is the bytes of a C string before its terminator, one character for each
byte. A buffer that may hold a terminator inside is read through `cstr`. Output
into a buffer of `n` bytes keeps `n - 1` characters, whatever the format produced.
-/
namespace Dowse.CStrings

abbrev Text := List Char

/-- What `%s`, `strlen` and the comparison functions see of a buffer. -/
def cstr (buffer : Text) : Text := buffer.takeWhile (· ≠ '\x00')

theorem nul_notMem_cstr (buffer : Text) : '\x00' ∉ cstr buffer :=
  fun hmem => absurd (List.mem_takeWhile_imp hmem) (by decide)

theorem cstr_eq_self {buffer : Text} (h : '\x00' ∉ buffer) : cstr buffer = buffer := by
  refine List.takeWhile_eq_self_iff.mpr fun c hc => decide_eq_true ?_
  rintro rfl
  exact h hc

/-- The rest of a buffer behind the first terminator inside it. -/
theorem cstr_append {buffer : Text} (h : '\x00' ∈ buffer) :
    ∃ more, buffer = cstr buffer ++ '\x00' :: more := by
  induction buffer with
  | nil => cases h
  | cons c buffer ih =>
      by_cases hc : c = '\x00'
      · exact ⟨buffer, by simp [cstr, hc]⟩
      · obtain ⟨more, hmore⟩ := ih ((List.mem_cons.mp h).resolve_left (Ne.symm hc))
        have hcons : cstr (c :: buffer) = c :: cstr buffer := by simp [cstr, hc]
        exact ⟨more, by rw [hcons, List.cons_append, ← hmore]⟩

/-- The content of an `n`-byte buffer after `snprintf` of the formatted text. -/
def snprintf (n : ℕ) (formatted : Text) : Text := formatted.take (n - 1)

theorem snprintf_of_length_lt {n : ℕ} {s : Text} (h : s.length < n) : snprintf n s = s :=
  List.take_of_length_le (Nat.le_sub_one_of_lt h)

/-- How `%02x` prints a byte. -/
def hexByte (b : UInt8) : Text :=
  [Nat.digitChar (b.toNat / 16), Nat.digitChar (b.toNat % 16)]

/-- How `%s` prints a pointer that may be null. -/
def printed : Option Text → Text
  | some s => cstr s
  | none => "(null)".toList

end Dowse.CStrings
