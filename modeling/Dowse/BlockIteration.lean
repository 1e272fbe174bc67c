import Mathlib.Data.List.Basic
import Mathlib.Algebra.Group.Nat.Defs

/-!
# Messages that are consumed in blocks

An iterated function consumes a message block by block and never looks at an incomplete
block. `absorb` is its state after the complete blocks of a message and `rest` is
what is left over. Feeding a message in pieces, with the incomplete block kept between two
pieces, is the same as feeding it at once.
-/
namespace Dowse.BlockIteration

variable {σ α : Type*}

/-- The state after `k` blocks of length `n`. -/
def iterate (n : ℕ) (f : σ → List α → σ) : ℕ → σ → List α → σ
  | 0, s, _ => s
  | k + 1, s, msg => iterate n f k (f s (msg.take n)) (msg.drop n)

/-- The state after all complete blocks. -/
def absorb (n : ℕ) (f : σ → List α → σ) (s : σ) (msg : List α) : σ :=
  iterate n f (msg.length / n) s msg

/-- What comes after the complete blocks. -/
def rest (n : ℕ) (msg : List α) : List α := msg.drop (msg.length / n * n)

section
variable {n : ℕ} {f : σ → List α → σ}

@[simp] theorem length_rest (n : ℕ) (msg : List α) : (rest n msg).length = msg.length % n := by
  rw [rest, List.length_drop, Nat.mod_eq_sub_div_mul]

theorem absorb_of_lt {msg : List α} (h : msg.length < n) (s : σ) : absorb n f s msg = s := by
  rw [absorb, Nat.div_eq_of_lt h, iterate]

theorem rest_of_lt {msg : List α} (h : msg.length < n) : rest n msg = msg := by
  rw [rest, Nat.div_eq_of_lt h, Nat.zero_mul, List.drop_zero]

theorem absorb_of_le (hn : 0 < n) {msg : List α} (h : n ≤ msg.length) (s : σ) :
    absorb n f s msg = absorb n f (f s (msg.take n)) (msg.drop n) := by
  rw [absorb, Nat.div_eq_sub_div hn h, iterate, absorb, List.length_drop]

theorem rest_of_le (hn : 0 < n) {msg : List α} (h : n ≤ msg.length) :
    rest n msg = rest n (msg.drop n) := by
  rw [rest, Nat.div_eq_sub_div hn h, rest, List.length_drop, List.drop_drop, Nat.add_mul,
    Nat.one_mul, Nat.add_comm]

/-- A message is shorter than a block, or its first block comes before a message of which the
property is known. -/
theorem block_induction (hn : 0 < n) {motive : List α → Prop}
    (short : ∀ msg, msg.length < n → motive msg)
    (block : ∀ msg, n ≤ msg.length → motive (msg.drop n) → motive msg) (msg : List α) :
    motive msg := by
  induction hk : msg.length using Nat.strongRecOn generalizing msg with
  | ind k ih =>
      rcases Nat.lt_or_ge msg.length n with hlt | hle
      · exact short msg hlt
      · refine block msg hle (ih (msg.drop n).length ?_ _ rfl)
        rw [List.length_drop]
        omega

/-- What maps one block function to another maps the states after a message. -/
theorem absorb_map {τ : Type*} {f' : τ → List α → τ} (hn : 0 < n) {g : σ → τ}
    (hf : ∀ s block, g (f s block) = f' (g s) block) (s : σ) (msg : List α) :
    g (absorb n f s msg) = absorb n f' (g s) msg := by
  induction msg using block_induction hn generalizing s with
  | short msg hlt => rw [absorb_of_lt hlt, absorb_of_lt hlt]
  | block msg hle ih => rw [absorb_of_le hn hle, ih, hf, absorb_of_le hn hle]

/-- The pieces of a message may be absorbed one after the other, with the rest of the first
put before the second. -/
theorem absorb_append (hn : 0 < n) (s : σ) (a b : List α) :
    absorb n f s (a ++ b) = absorb n f (absorb n f s a) (rest n a ++ b) := by
  induction a using block_induction hn generalizing s with
  | short a hlt => rw [absorb_of_lt hlt, rest_of_lt hlt]
  | block a hle ih =>
      have hle' : n ≤ (a ++ b).length := List.length_append ▸ Nat.le_add_right_of_le hle
      rw [absorb_of_le hn hle', List.take_append_of_le_length hle,
        List.drop_append_of_le_length hle, ih, absorb_of_le hn hle, rest_of_le hn hle]

theorem rest_append (hn : 0 < n) (a b : List α) :
    rest n (a ++ b) = rest n (rest n a ++ b) := by
  induction a using block_induction hn with
  | short a hlt => rw [rest_of_lt hlt]
  | block a hle ih =>
      have hle' : n ≤ (a ++ b).length := List.length_append ▸ Nat.le_add_right_of_le hle
      rw [rest_of_le hn hle', List.drop_append_of_le_length hle, ih, rest_of_le hn hle]

end

end Dowse.BlockIteration
