import Mathlib.Data.Finset.Card
import Mathlib.Data.Set.Basic
import Mathlib.Order.Interval.Finset.Nat

/-!
# Keys that crowd a probe window

Keys are placed on a line of slots. A key has a home, is at or behind it, and every slot
between the two is taken. Whether a window of `w` slots behind the home of a key fills up does
not depend on the order of the placements but on the homes alone: a set of other keys crowds
the window when, from some slot on, each slot up to the end of the window has at least as many
of their homes at or before it as there are slots.

The two results are the two directions. A full window has such a set among the keys that
were placed, and such a set fills the window wherever it is placed, also in a cyclic table.
-/
namespace Dowse.Crowding

variable {κ : Type*}

/-- The other keys of `T` leave no place in the window of `k`. -/
def Crowds (home : κ → ℕ) (w : ℕ) (T : Finset κ) (k : κ) : Prop :=
  k ∉ T ∧ ∃ a ≤ home k, ∀ s, a ≤ s → s < home k + w →
    s + 1 - a ≤ (T.filter fun x => a ≤ home x ∧ home x ≤ s).card

/-- No key of the set is crowded by others. -/
def Sparse (home : κ → ℕ) (w : ℕ) (S : Set κ) : Prop :=
  ∀ k ∈ S, ∀ T : Finset κ, ↑T ⊆ S → ¬ Crowds home w T k

theorem crowds_of_home {home : κ → ℕ} {w : ℕ} {T : Finset κ} {k : κ} (hk : k ∉ T)
    (hT : ∀ x ∈ T, home x = home k) (hcard : T.card = w) : Crowds home w T k := by
  refine ⟨hk, home k, Nat.le_refl _, fun s hs hsw => ?_⟩
  have hall : T.filter (fun x => home k ≤ home x ∧ home x ≤ s) = T :=
    Finset.filter_true_of_mem fun x hx => by rw [hT x hx]; exact ⟨Nat.le_refl _, hs⟩
  rw [hall]
  omega

section Line
variable [DecidableEq κ] {home : κ → ℕ} {w : ℕ} {slot : ℕ → Option κ}

def occupants (slot : ℕ → Option κ) (a b : ℕ) : Finset κ :=
  (Finset.Ico a b).biUnion fun c => (slot c).toFinset

theorem mem_occupants {a b : ℕ} {x : κ} :
    x ∈ occupants slot a b ↔ ∃ c, a ≤ c ∧ c < b ∧ slot c = some x := by
  simp [occupants, and_assoc]

omit [DecidableEq κ] in
theorem card_le_of_taken (hinj : ∀ c d x, slot c = some x → slot d = some x → c = d) {a b : ℕ}
    {U : Finset κ} (htaken : ∀ c, a ≤ c → c < b → ∃ x ∈ U, slot c = some x) : b - a ≤ U.card := by
  rw [← Nat.card_Ico, ← Finset.card_map Function.Embedding.some (s := U)]
  refine Finset.card_le_card_of_injOn slot (fun c hc => ?_) ?_
  · obtain ⟨x, hx, hc⟩ := htaken c (Finset.mem_Ico.mp hc).1 (Finset.mem_Ico.mp hc).2
    exact Finset.mem_coe.mpr (Finset.mem_map.mpr ⟨x, hx, hc.symm⟩)
  · intro c hc d hd heq
    obtain ⟨x, -, hx⟩ := htaken c (Finset.mem_Ico.mp hc).1 (Finset.mem_Ico.mp hc).2
    exact hinj c d x hx (heq.symm.trans hx)

theorem crowds_of_full (hinj : ∀ c d x, slot c = some x → slot d = some x → c = d)
    (hhome : ∀ c x, slot c = some x → home x ≤ c ∧ ∀ j, home x ≤ j → j < c → (slot j).isSome)
    {k : κ} (hk : ∀ c, slot c ≠ some k)
    (hfull : ∀ c, home k ≤ c → c < home k + w → (slot c).isSome) :
    ∃ T : Finset κ, Crowds home w T k ∧ ∀ x ∈ T, ∃ c, slot c = some x := by
  classical
  -- the first slot from which on everything up to the end of the window is taken
  have hstart : ∃ a, a ≤ home k ∧ ∀ c, a ≤ c → c < home k + w → (slot c).isSome :=
    ⟨home k, Nat.le_refl _, hfull⟩
  obtain ⟨hle, htaken⟩ := Nat.find_spec hstart
  have hmin : ∀ a, a < Nat.find hstart →
      ¬ (a ≤ home k ∧ ∀ c, a ≤ c → c < home k + w → (slot c).isSome) :=
    fun a ha => Nat.find_min hstart ha
  generalize Nat.find hstart = a at hle htaken hmin
  have hback : ∀ c x, a ≤ c → c < home k + w → slot c = some x → a ≤ home x := by
    intro c x hac hcw hx
    by_contra hlt
    obtain ⟨-, hbetween⟩ := hhome c x hx
    refine hmin (home x) (by omega) ⟨by omega, fun d hd hdw => ?_⟩
    by_cases hdc : d < c
    · exact hbetween d hd hdc
    · exact htaken d (by omega) hdw
  refine ⟨occupants slot a (home k + w), ⟨?_, a, hle, ?_⟩, ?_⟩
  · intro hmem
    obtain ⟨c, -, -, hc⟩ := mem_occupants.mp hmem
    exact hk c hc
  · intro s has hsw
    refine card_le_of_taken hinj fun c hac hcs => ?_
    obtain ⟨x, hx⟩ := Option.isSome_iff_exists.mp (htaken c hac (by omega))
    refine ⟨x, Finset.mem_filter.mpr ⟨mem_occupants.mpr ⟨c, hac, by omega, hx⟩,
      hback c x hac (by omega) hx, ?_⟩, hx⟩
    have := (hhome c x hx).1
    omega
  · intro x hx
    obtain ⟨c, -, -, hc⟩ := mem_occupants.mp hx
    exact ⟨c, hc⟩

end Line

/-- Keys that crowd a window take all of it, in a table of any size: a free slot would bound
the keys with a home at or before it. -/
theorem full_of_crowds {home : κ → ℕ} {w N : ℕ} {T : Finset κ} {k : κ} (h : Crowds home w T k)
    {taken : ℕ → Prop} {shift : κ → ℕ}
    (hplaced : ∀ x ∈ T, ∀ j ≤ shift x, taken ((home x + j) % N))
    (hinj : ∀ x ∈ T, ∀ y ∈ T, (home x + shift x) % N = (home y + shift y) % N → x = y) :
    ∀ i < w, taken ((home k + i) % N) := by
  obtain ⟨-, a, hle, hcount⟩ := h
  intro i hi
  by_contra hfree
  have hbefore : ∀ x ∈ T.filter (fun x => a ≤ home x ∧ home x ≤ home k + i),
      home x + shift x ∈ Finset.Ico a (home k + i) := by
    intro x hx
    obtain ⟨hxT, hax, hxs⟩ := Finset.mem_filter.mp hx
    refine Finset.mem_Ico.mpr ⟨by omega, ?_⟩
    by_contra hge
    refine hfree ?_
    have htaken := hplaced x hxT (home k + i - home x) (by omega)
    rwa [Nat.add_sub_cancel' hxs] at htaken
  have hcard := Finset.card_le_card_of_injOn (fun x => home x + shift x) hbefore
    fun x hx y hy heq => hinj x (Finset.mem_filter.mp hx).1 y (Finset.mem_filter.mp hy).1
      (congrArg (· % N) heq)
  have hcount := hcount (home k + i) (by omega) (by omega)
  rw [Nat.card_Ico] at hcard
  omega

end Dowse.Crowding
