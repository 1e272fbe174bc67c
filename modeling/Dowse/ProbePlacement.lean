import Mathlib.Algebra.Group.Nat.Defs
import Mathlib.Data.List.Induction
import Mathlib.Data.List.Nodup
import Mathlib.Data.List.Sort
import Mathlib.Logic.Function.Basic

/-!
# Which keys fit the windows of a table, and of the tables it is doubled to

Keys are put into an empty cyclic table one after the other. Each has a home, and takes the
first slot at or behind it that none of the keys before has, if one of the first `w` is free.
Where every key of a list ends is determined by the homes and the order, so that "the keys fit a
table of this size" is a statement about them alone.

`Doubled` is the order in which the keys reach a table that is doubled whenever one of them does
not fit: those in front of it are taken up in the order of their slots, then come the key itself
and the ones behind it.
-/
namespace Dowse.ProbePlacement

variable {κ : Type*}

/-- The slot of `x` is the first one of its window that none of the keys before it has. -/
def Takes (home : κ → ℕ) (w N : ℕ) (slot : κ → ℕ) (before : List κ) (x : κ) : Prop :=
  ∃ i < w, slot x = (home x + i) % N ∧ slot x ∉ before.map slot ∧
    ∀ j < i, (home x + j) % N ∈ before.map slot

/-- The slots of keys that are put one after the other. A key that comes again stays. -/
def Placement (home : κ → ℕ) (w N : ℕ) (slot : κ → ℕ) (keys : List κ) : Prop :=
  ∀ before x after, keys = before ++ x :: after → x ∉ before → Takes home w N slot before x

def Fits (home : κ → ℕ) (w N : ℕ) (keys : List κ) : Prop :=
  ∃ slot, Placement home w N slot keys

/-- The keys of a list by their slots. -/
def BySlot (slot : κ → ℕ) (keys sorted : List κ) : Prop :=
  sorted.Pairwise (fun x y => slot x < slot y) ∧ ∀ x, x ∈ sorted ↔ x ∈ keys

/-- The order in which keys are put after `j` doublings of a table of `N` slots, the first of
which starts with the given order. -/
inductive Doubled (home : κ → ℕ) (w N : ℕ) (keys : List κ) : ℕ → List κ → Prop
  | first : Doubled home w N keys 1 keys
  | next {j : ℕ} {before sorted after : List κ} {x : κ} {slot : κ → ℕ} :
      Doubled home w N keys j (before ++ x :: after) →
      Placement home w (N * 2 ^ j) slot before → ¬ Fits home w (N * 2 ^ j) (before ++ [x]) →
      BySlot slot before sorted → Doubled home w N keys (j + 1) (sorted ++ x :: after)

variable {home : κ → ℕ} {w N : ℕ} {slot slot' : κ → ℕ} {keys keys' : List κ} {x : κ}

theorem placement_nil : Placement home w N slot [] := by
  intro before x after h
  simp at h

theorem placement_snoc : Placement home w N slot (keys ++ [x]) ↔
    Placement home w N slot keys ∧ (x ∉ keys → Takes home w N slot keys x) := by
  constructor
  · intro h
    refine ⟨?_, h keys x [] rfl⟩
    rintro before y after rfl
    exact h before y (after ++ [x]) (by simp)
  · rintro ⟨h, hx⟩ before y after heq hy
    rcases List.eq_nil_or_concat after with rfl | ⟨after, z, rfl⟩
    · obtain ⟨rfl, hxy⟩ := List.append_inj' heq rfl
      obtain rfl := (List.cons.inj hxy).1
      exact hx hy
    · rw [List.concat_eq_append, ← List.cons_append, ← List.append_assoc] at heq
      exact h before y after (List.append_inj' heq rfl).1 hy

theorem Placement.left (h : Placement home w N slot (keys ++ keys')) :
    Placement home w N slot keys := by
  rintro before y after rfl
  exact h before y (after ++ keys') (by simp)

theorem Fits.left (h : Fits home w N (keys ++ keys')) : Fits home w N keys := by
  obtain ⟨slot, h⟩ := h
  exact ⟨slot, h.left⟩

/-- The homes and the order determine the slots. -/
theorem Placement.eq (h : Placement home w N slot keys) (h' : Placement home w N slot' keys) :
    ∀ x ∈ keys, slot x = slot' x := by
  induction keys using List.reverseRecOn with
  | nil => simp
  | append_singleton keys x ih =>
      obtain ⟨hkeys, hx⟩ := placement_snoc.mp h
      obtain ⟨hkeys', hx'⟩ := placement_snoc.mp h'
      have hsame := ih hkeys hkeys'
      intro y hy
      rcases List.mem_append.mp hy with hy | hy
      · exact hsame y hy
      · obtain rfl := List.mem_singleton.mp hy
        by_cases hmem : y ∈ keys
        · exact hsame y hmem
        · obtain ⟨i, -, hi, hfree, hbefore⟩ := hx hmem
          obtain ⟨j, -, hj, hfree', hbefore'⟩ := hx' hmem
          rw [← List.map_congr_left hsame] at hfree' hbefore'
          rcases Nat.lt_trichotomy i j with hlt | rfl | hlt
          · exact absurd (hi ▸ hbefore' i hlt) hfree
          · rw [hi, hj]
          · exact absurd (hj ▸ hbefore j hlt) hfree'

theorem Placement.congr (h : Placement home w N slot keys) (hsame : ∀ x ∈ keys, slot x = slot' x) :
    Placement home w N slot' keys := by
  rintro before y after rfl hy
  obtain ⟨i, hi, heq, hfree, hbefore⟩ := h before y after rfl hy
  have hmap : before.map slot = before.map slot' :=
    List.map_congr_left fun z hz => hsame z (List.mem_append_left _ hz)
  have hslot := hsame y (by simp)
  rw [hmap, hslot] at hfree
  rw [hmap] at hbefore
  exact ⟨i, hi, hslot ▸ heq, hfree, hbefore⟩

/-- A key that is not there yet takes a slot of its window when all in front of it are taken. -/
theorem Placement.put [DecidableEq κ] (h : Placement home w N slot keys) (hx : x ∉ keys) {i : ℕ}
    (hi : i < w) (hfree : (home x + i) % N ∉ keys.map slot)
    (hbefore : ∀ j < i, (home x + j) % N ∈ keys.map slot) :
    Placement home w N (Function.update slot x ((home x + i) % N)) (keys ++ [x]) := by
  have hsame : ∀ y ∈ keys, slot y = Function.update slot x ((home x + i) % N) y :=
    fun y hy => (Function.update_of_ne (fun heq : y = x => hx (heq ▸ hy)) _ _).symm
  refine placement_snoc.mpr ⟨h.congr hsame, fun _ => ?_⟩
  rw [List.map_congr_left hsame] at hfree hbefore
  refine ⟨i, hi, Function.update_self .., ?_, hbefore⟩
  rwa [Function.update_self]

theorem Placement.not_fits_of_full (h : Placement home w N slot keys) (hx : x ∉ keys)
    (hfull : ∀ i < w, (home x + i) % N ∈ keys.map slot) : ¬ Fits home w N (keys ++ [x]) := by
  rintro ⟨slot', h'⟩
  obtain ⟨hkeys', hx'⟩ := placement_snoc.mp h'
  obtain ⟨i, hi, heq, hfree, -⟩ := hx' hx
  rw [← List.map_congr_left (h.eq hkeys'), heq] at hfree
  exact hfree (hfull i hi)

theorem BySlot.unique {sorted sorted' : List κ} (h : BySlot slot keys sorted)
    (h' : BySlot slot' keys sorted') (hsame : ∀ x ∈ keys, slot x = slot' x) :
    sorted = sorted' := by
  have hnodup : ∀ {f : κ → ℕ} {l : List κ}, l.Pairwise (fun x y => f x < f y) → l.Nodup :=
    fun hl => hl.imp fun hlt heq => by rw [heq] at hlt; exact lt_irrefl _ hlt
  have hpairwise : sorted'.Pairwise fun x y => slot x < slot y := by
    refine h'.1.imp_of_mem fun {a b} ha hb hlt => ?_
    rwa [hsame a ((h'.2 a).mp ha), hsame b ((h'.2 b).mp hb)]
  have hperm : sorted.Perm sorted' := (List.perm_ext_iff_of_nodup (hnodup h.1) (hnodup h'.1)).mpr
    fun x => (h.2 x).trans (h'.2 x).symm
  refine hperm.eq_of_pairwise (fun a b _ _ hab hba => ?_) h.1 hpairwise
  omega

theorem Doubled.pos {j : ℕ} {order : List κ} (h : Doubled home w N keys j order) : 0 < j := by
  cases h <;> omega

theorem length_le_of_split {before before' after after' : List κ} {x' : κ}
    (hsplit : before ++ x :: after = before' ++ x' :: after')
    (hnot : ¬ Fits home w N (before ++ [x])) (hfits' : Fits home w N before') :
    before'.length ≤ before.length := by
  by_contra hlt
  have hleft : before ++ [x] <+: before' ++ x' :: after' := ⟨after, by simp [hsplit]⟩
  obtain ⟨mid, rfl⟩ : before ++ [x] <+: before' := by
    refine List.prefix_of_prefix_length_le hleft (List.prefix_append _ _) ?_
    rw [List.length_append, List.length_singleton]
    omega
  exact hnot hfits'.left

/-- The keys that fit are a part of the order that nothing can be added to. -/
theorem split_unique {before before' after after' : List κ} {x' : κ}
    (hsplit : before ++ x :: after = before' ++ x' :: after') (hfits : Fits home w N before)
    (hnot : ¬ Fits home w N (before ++ [x])) (hfits' : Fits home w N before')
    (hnot' : ¬ Fits home w N (before' ++ [x'])) : before = before' ∧ x = x' ∧ after = after' := by
  have hlength : before.length = before'.length :=
    le_antisymm (length_le_of_split hsplit.symm hnot' hfits) (length_le_of_split hsplit hnot hfits')
  obtain ⟨hbefore, hrest⟩ := List.append_inj hsplit hlength
  exact ⟨hbefore, List.cons.inj hrest⟩

theorem Doubled.unique {j : ℕ} {order order' : List κ} (h : Doubled home w N keys j order)
    (h' : Doubled home w N keys j order') : order = order' := by
  induction h generalizing order' with
  | first =>
      cases h' with
      | first => rfl
      | next h' => exact absurd h'.pos (by omega)
  | next h hplace hnot hsorted ih =>
      cases h' with
      | first => exact absurd h.pos (by omega)
      | next h' hplace' hnot' hsorted' =>
          obtain ⟨rfl, rfl, rfl⟩ := split_unique (ih h') ⟨_, hplace⟩ hnot ⟨_, hplace'⟩ hnot'
          rw [hsorted.unique hsorted' (hplace.eq hplace')]

end Dowse.ProbePlacement
