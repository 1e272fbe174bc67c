import Mathlib.Data.List.Basic
import Mathlib.Data.List.ReduceOption
import Mathlib.Logic.Function.Basic
import Mathlib.Data.Nat.ModEq

/-!
# Keyed tables probed through a bounded cyclic window

A slot array is read by one loop: start at a position, test a slot, move to the
next position modulo the length, give up after a fixed number of tests. Lookup,
insertion and deletion of a linearly probed table differ only in the test.

`Represents` is the abstraction relation between a slot array and a partial
function. It asks for no tombstones and no contiguity: a free slot may lie in the
middle of a window. `GapFree` is the extra contiguity that makes the first free
slot of a window a sound place for its key. Insertion keeps it; clearing a slot
does not.
-/
namespace Dowse.CyclicProbing

section Scan
variable {β : Type*}

/-- The first of `w` cyclically consecutive positions whose slot passes the test. -/
def scan (hit : β → Bool) (data : List β) : ℕ → ℕ → Option ℕ
  | 0, _ => none
  | w + 1, curr =>
      match data[curr]? with
      | none => none
      | some b => if hit b then some curr else scan hit data w ((curr + 1) % data.length)

def Hit (hit : β → Bool) (data : List β) (c : ℕ) : Prop :=
  ∃ b, data[c]? = some b ∧ hit b = true

variable {hit : β → Bool} {data : List β}

theorem scan_eq_some {w curr c : ℕ} (hc : curr < data.length)
    (h : scan hit data w curr = some c) :
    ∃ i < w, c = (curr + i) % data.length ∧ Hit hit data c ∧
      ∀ j < i, ¬ Hit hit data ((curr + j) % data.length) := by
  induction w generalizing curr with
  | zero => simp [scan] at h
  | succ w ih =>
      have hb : data[curr]? = some data[curr] := List.getElem?_eq_getElem hc
      simp only [scan, hb] at h
      split_ifs at h with ht
      · refine ⟨0, Nat.succ_pos w, ?_, ?_, ?_⟩
        · simpa [Nat.mod_eq_of_lt hc] using h.symm
        · rw [← Option.some.inj h]
          exact ⟨_, hb, ht⟩
        · intro j hj
          omega
      · have hn : (curr + 1) % data.length < data.length := Nat.mod_lt _ (by omega)
        obtain ⟨i, hi, hce, hhit, hmiss⟩ := ih hn h
        refine ⟨i + 1, by omega, ?_, hhit, ?_⟩
        · rw [hce, Nat.mod_add_mod]
          congr 1
          omega
        · intro j hj
          cases j with
          | zero =>
              rintro ⟨b, hb', ht'⟩
              rw [Nat.add_zero, Nat.mod_eq_of_lt hc, hb] at hb'
              exact ht (by rw [Option.some.inj hb']; exact ht')
          | succ j =>
              have hm := hmiss j (by omega)
              rw [Nat.mod_add_mod] at hm
              rwa [show curr + (j + 1) = curr + 1 + j by omega]

theorem scan_eq_none {w curr : ℕ} (hc : curr < data.length)
    (h : scan hit data w curr = none) :
    ∀ i < w, ¬ Hit hit data ((curr + i) % data.length) := by
  induction w generalizing curr with
  | zero =>
      intro i hi
      omega
  | succ w ih =>
      have hb : data[curr]? = some data[curr] := List.getElem?_eq_getElem hc
      simp only [scan, hb] at h
      split_ifs at h with ht
      have hn : (curr + 1) % data.length < data.length := Nat.mod_lt _ (by omega)
      intro i hi
      cases i with
      | zero =>
          rintro ⟨b, hb', ht'⟩
          rw [Nat.add_zero, Nat.mod_eq_of_lt hc, hb] at hb'
          exact ht (by rw [Option.some.inj hb']; exact ht')
      | succ i =>
          have hm := ih hn h i (by omega)
          rw [Nat.mod_add_mod] at hm
          rwa [show curr + (i + 1) = curr + 1 + i by omega]

/-- The scan stops at the first hit of its window. -/
theorem scan_of_first_hit {w curr i : ℕ} (hc : curr < data.length) (hi : i < w)
    (hhit : Hit hit data ((curr + i) % data.length))
    (hmiss : ∀ j < i, ¬ Hit hit data ((curr + j) % data.length)) :
    scan hit data w curr = some ((curr + i) % data.length) := by
  cases hs : scan hit data w curr with
  | none => exact absurd hhit (scan_eq_none hc hs i hi)
  | some c =>
      obtain ⟨i', _, hci, hhit', hmiss'⟩ := scan_eq_some hc hs
      rcases Nat.lt_trichotomy i i' with hlt | rfl | hgt
      · exact absurd hhit (hmiss' i hlt)
      · rw [hci]
      · exact absurd (hci ▸ hhit') (hmiss i' hgt)

/-- A window no longer than the array visits no position twice. -/
theorem window_injective {n h i j : ℕ} (hi : i < n) (hj : j < n)
    (he : (h + i) % n = (h + j) % n) : i = j := by
  have hmod : i % n = j % n := Nat.ModEq.add_left_cancel' h he
  rwa [Nat.mod_eq_of_lt hi, Nat.mod_eq_of_lt hj] at hmod

end Scan

section Table
variable {κ α : Type*} [DecidableEq κ]

def keyed (k : κ) : Option (κ × α) → Bool
  | none => false
  | some e => e.1 = k

/-- The test of an insertion: a free slot, or the one that has the key. -/
def freeOrKeyed (k : κ) : Option (κ × α) → Bool
  | none => true
  | some e => e.1 = k

theorem hit_keyed_iff {data : List (Option (κ × α))} {k : κ} {c : ℕ} :
    Hit (keyed k) data c ↔ ∃ v, data[c]? = some (some (k, v)) := by
  constructor
  · rintro ⟨b, hb, ht⟩
    cases b with
    | none => simp [keyed] at ht
    | some e =>
        have he : e.1 = k := by simpa [keyed] using ht
        exact ⟨e.2, by rw [hb, ← he]⟩
  · rintro ⟨v, hv⟩
    exact ⟨_, hv, by simp [keyed]⟩

theorem hit_freeOrKeyed_iff {data : List (Option (κ × α))} {k : κ} {c : ℕ} :
    Hit (freeOrKeyed k) data c ↔
      data[c]? = some none ∨ ∃ v, data[c]? = some (some (k, v)) := by
  constructor
  · rintro ⟨b, hb, ht⟩
    cases b with
    | none => exact .inl hb
    | some e =>
        have he : e.1 = k := by simpa [freeOrKeyed] using ht
        exact .inr ⟨e.2, by rw [hb, ← he]⟩
  · rintro (hn | ⟨v, hv⟩)
    · exact ⟨_, hn, rfl⟩
    · exact ⟨_, hv, by simp [freeOrKeyed]⟩

/-- The slots hold exactly the graph of `σ`, every key once and inside its window. -/
structure Represents (hash : ℕ → κ → ℕ) (w : ℕ) (data : List (Option (κ × α)))
    (σ : κ → Option α) : Prop where
  window : ∀ (c : ℕ) (k : κ) (v : α), data[c]? = some (some (k, v)) →
    ∃ i < w, c = (hash data.length k + i) % data.length
  unique : ∀ (c d : ℕ) (k : κ) (u v : α),
    data[c]? = some (some (k, u)) → data[d]? = some (some (k, v)) → c = d
  content : ∀ (k : κ) (v : α), σ k = some v ↔ ∃ c : ℕ, data[c]? = some (some (k, v))

/-- Between the hash position of a stored key and its slot no slot is free. -/
def GapFree (hash : ℕ → κ → ℕ) (w : ℕ) (data : List (Option (κ × α))) : Prop :=
  ∀ k v i, i < w → data[(hash data.length k + i) % data.length]? = some (some (k, v)) →
    ∀ j < i, data[(hash data.length k + j) % data.length]? ≠ some none

variable {hash : ℕ → κ → ℕ} {w : ℕ} {data : List (Option (κ × α))} {σ : κ → Option α}

omit [DecidableEq κ] in
theorem slot_replicate {n c : ℕ} {b : Option (κ × α)}
    (h : (List.replicate n (none : Option (κ × α)))[c]? = some b) : b = none := by
  have hm := List.mem_of_getElem? h
  exact List.eq_of_mem_replicate hm

omit [DecidableEq κ] in
theorem represents_replicate (n : ℕ) :
    Represents hash w (List.replicate n (none : Option (κ × α))) (fun _ => none) where
  window c k v h := by simpa using slot_replicate h
  unique c d k u v h _ := by simpa using slot_replicate h
  content k v := by
    constructor
    · intro h
      exact absurd h (by simp)
    · rintro ⟨c, hc⟩
      simpa using slot_replicate hc

omit [DecidableEq κ] in
theorem gapFree_replicate (n : ℕ) :
    GapFree hash w (List.replicate n (none : Option (κ × α))) := by
  intro k v i _ h
  simpa using slot_replicate h

/-- Lookup reads `σ`: the scan for the key stops exactly where `σ` has a value. -/
theorem Represents.scan_keyed (hr : Represents hash w data σ) {k : κ}
    (hk : hash data.length k < data.length) :
    (∀ c, scan (keyed k) data w (hash data.length k) = some c →
      ∃ v, data[c]? = some (some (k, v)) ∧ σ k = some v) ∧
    (scan (keyed k) data w (hash data.length k) = none → σ k = none) := by
  constructor
  · intro c h
    obtain ⟨i, _, _, hhit, _⟩ := scan_eq_some hk h
    obtain ⟨v, hv⟩ := hit_keyed_iff.mp hhit
    exact ⟨v, hv, (hr.content k v).mpr ⟨c, hv⟩⟩
  · intro h
    cases hσ : σ k with
    | none => rfl
    | some v =>
        obtain ⟨c, hc⟩ := (hr.content k v).mp hσ
        obtain ⟨i, hi, hci⟩ := hr.window c k v hc
        refine absurd (hit_keyed_iff.mpr ⟨v, ?_⟩) (scan_eq_none hk h i hi)
        rwa [← hci]

omit [DecidableEq κ] in
theorem getElem?_set_some {c d : ℕ} {b e : Option (κ × α)}
    (h : (data.set c b)[d]? = some e) : (c = d ∧ b = e) ∨ (c ≠ d ∧ data[d]? = some e) := by
  rw [List.getElem?_set] at h
  split_ifs at h with hcd hlt
  · exact .inl ⟨hcd, Option.some.inj h⟩
  · exact .inr ⟨hcd, h⟩

/-- Writing a key into its window is sound when the slot is free and the key is
nowhere else, or when the slot already has the key. -/
theorem Represents.store (hr : Represents hash w data σ) {c : ℕ} {k : κ}
    (hc : c < data.length) (hw : ∃ i < w, c = (hash data.length k + i) % data.length)
    (hslot : (data[c]? = some none ∧ σ k = none) ∨ ∃ u, data[c]? = some (some (k, u))) (v : α) :
    Represents hash w (data.set c (some (k, v))) (Function.update σ k (some v)) := by
  -- no slot but `c` can hold `k`, and `c` held no other key
  have honly : ∀ d u, d ≠ c → data[d]? ≠ some (some (k, u)) := by
    intro d u hd h
    rcases hslot with ⟨_, hσ⟩ | ⟨u', hu⟩
    · have := (hr.content k u).mpr ⟨d, h⟩
      rw [hσ] at this
      exact absurd this (by simp)
    · exact hd (hr.unique d c k u u' h hu)
  have hother : ∀ k' u, k' ≠ k → data[c]? ≠ some (some (k', u)) := by
    intro k' u hk h
    rcases hslot with ⟨hn, _⟩ | ⟨u', hu⟩
    · rw [hn] at h
      simp at h
    · rw [hu] at h
      simp only [Option.some.injEq, Prod.mk.injEq] at h
      exact hk h.1.symm
  refine ⟨?_, ?_, ?_⟩
  · intro d k' u h
    rw [List.length_set]
    rcases getElem?_set_some h with ⟨rfl, he⟩ | ⟨_, he⟩
    · simp only [Option.some.injEq, Prod.mk.injEq] at he
      rw [← he.1]
      exact hw
    · exact hr.window d k' u he
  · intro d d' k' u u' h h'
    rcases getElem?_set_some h with ⟨rfl, he⟩ | ⟨hne, he⟩ <;>
      rcases getElem?_set_some h' with ⟨rfl, he'⟩ | ⟨hne', he'⟩
    · rfl
    · simp only [Option.some.injEq, Prod.mk.injEq] at he
      rw [← he.1] at he'
      exact absurd he' (honly d' u' hne'.symm)
    · simp only [Option.some.injEq, Prod.mk.injEq] at he'
      rw [← he'.1] at he
      exact absurd he (honly d u hne.symm)
    · exact hr.unique d d' k' u u' he he'
  · intro k' u
    by_cases hk : k' = k
    · subst hk
      simp only [Function.update_self, Option.some.injEq]
      constructor
      · rintro rfl
        exact ⟨c, by simp [hc]⟩
      · rintro ⟨d, hd⟩
        rcases getElem?_set_some hd with ⟨rfl, he⟩ | ⟨hne, he⟩
        · simpa using he
        · exact absurd he (honly d u hne.symm)
    · rw [Function.update_of_ne hk, hr.content k' u]
      constructor
      · rintro ⟨d, hd⟩
        have hne : c ≠ d := by
          rintro rfl
          exact hother k' u hk hd
        exact ⟨d, by rw [List.getElem?_set_ne hne]; exact hd⟩
      · rintro ⟨d, hd⟩
        rcases getElem?_set_some hd with ⟨rfl, he⟩ | ⟨_, he⟩
        · simp only [Option.some.injEq, Prod.mk.injEq] at he
          exact absurd he.1.symm hk
        · exact ⟨d, he⟩

theorem Represents.clear (hr : Represents hash w data σ) {c : ℕ} {k : κ} {u : α}
    (hslot : data[c]? = some (some (k, u))) :
    Represents hash w (data.set c none) (Function.update σ k none) := by
  refine ⟨?_, ?_, ?_⟩
  · intro d k' v h
    rw [List.length_set]
    rcases getElem?_set_some h with ⟨_, he⟩ | ⟨_, he⟩
    · simp at he
    · exact hr.window d k' v he
  · intro d d' k' v v' h h'
    rcases getElem?_set_some h with ⟨_, he⟩ | ⟨_, he⟩
    · simp at he
    · rcases getElem?_set_some h' with ⟨_, he'⟩ | ⟨_, he'⟩
      · simp at he'
      · exact hr.unique d d' k' v v' he he'
  · intro k' v
    by_cases hk : k' = k
    · subst hk
      simp only [Function.update_self, reduceCtorEq, false_iff, not_exists]
      intro d hd
      rcases getElem?_set_some hd with ⟨_, he⟩ | ⟨hne, he⟩
      · simp at he
      · exact hne (hr.unique c d k' u v hslot he)
    · rw [Function.update_of_ne hk, hr.content k' v]
      constructor
      · rintro ⟨d, hd⟩
        have hne : c ≠ d := by
          rintro rfl
          rw [hslot] at hd
          simp only [Option.some.injEq, Prod.mk.injEq] at hd
          exact hk hd.1.symm
        exact ⟨d, by rw [List.getElem?_set_ne hne]; exact hd⟩
      · rintro ⟨d, hd⟩
        rcases getElem?_set_some hd with ⟨_, he⟩ | ⟨_, he⟩
        · simp at he
        · exact ⟨d, he⟩

/-- The slot an insertion picks is inside the window of its key. -/
theorem scan_freeOrKeyed_window {k : κ} {c : ℕ} (hk : hash data.length k < data.length)
    (h : scan (freeOrKeyed k) data w (hash data.length k) = some c) :
    c < data.length ∧ ∃ i < w, c = (hash data.length k + i) % data.length := by
  obtain ⟨i, hi, hc, _, _⟩ := scan_eq_some hk h
  exact ⟨by rw [hc]; exact Nat.mod_lt _ (by omega), i, hi, hc⟩

/-- Without gaps, the first free slot of a window proves its key absent. -/
theorem GapFree.slot (hg : GapFree hash w data) (hr : Represents hash w data σ) {k : κ} {c : ℕ}
    (hk : hash data.length k < data.length)
    (h : scan (freeOrKeyed k) data w (hash data.length k) = some c) :
    (data[c]? = some none ∧ σ k = none) ∨ ∃ u, data[c]? = some (some (k, u)) := by
  obtain ⟨i, hi, hc, hhit, hmiss⟩ := scan_eq_some hk h
  rcases hit_freeOrKeyed_iff.mp hhit with hn | hu
  · refine .inl ⟨hn, ?_⟩
    cases hσ : σ k with
    | none => rfl
    | some v =>
        obtain ⟨d, hd⟩ := (hr.content k v).mp hσ
        obtain ⟨i', hi', hdi⟩ := hr.window d k v hd
        subst hdi
        rcases Nat.lt_trichotomy i' i with hlt | rfl | hgt
        · exact absurd (hit_freeOrKeyed_iff.mpr (.inr ⟨v, hd⟩)) (hmiss i' hlt)
        · rw [← hc, hn] at hd
          simp at hd
        · exact absurd (hc ▸ hn) (hg k v i' hi' hd i hgt)
  · exact .inr hu

/-- Insertion at the scanned slot keeps every window contiguous. -/
theorem GapFree.store (hg : GapFree hash w data) (hwn : w ≤ data.length) {k : κ} {c : ℕ}
    (hk : hash data.length k < data.length)
    (h : scan (freeOrKeyed k) data w (hash data.length k) = some c) (v : α) :
    GapFree hash w (data.set c (some (k, v))) := by
  obtain ⟨i, hi, hc, _, hmiss⟩ := scan_eq_some hk h
  -- a filled slot never becomes free again
  have hfill : ∀ d : ℕ, data[d]? ≠ some none → (data.set c (some (k, v)))[d]? ≠ some none := by
    intro d hd hs
    rcases getElem?_set_some hs with ⟨_, he⟩ | ⟨_, he⟩
    · simp at he
    · exact hd he
  intro k' u i' hi' hs j hj
  rw [List.length_set] at hs ⊢
  apply hfill
  rcases getElem?_set_some hs with ⟨hce, he⟩ | ⟨_, he⟩
  · simp only [Option.some.injEq, Prod.mk.injEq] at he
    obtain ⟨rfl, _⟩ := he
    have hii : i = i' := window_injective (by omega) (by omega) (hc.symm.trans hce)
    subst hii
    intro hn
    exact hmiss j hj (hit_freeOrKeyed_iff.mpr (.inl hn))
  · exact hg k' u i' hi' he j hj

/-- The number of slots in use. -/
def used (data : List (Option (κ × α))) : ℕ := data.countP Option.isSome

omit [DecidableEq κ] in
@[simp] theorem used_replicate (n : ℕ) : used (List.replicate n (none : Option (κ × α))) = 0 := by
  simp [used, List.countP_replicate]

omit [DecidableEq κ] in
theorem used_fill {c : ℕ} (h : data[c]? = some none) (e : κ × α) :
    used (data.set c (some e)) = used data + 1 := by
  obtain ⟨hc, hslot⟩ := List.getElem?_eq_some_iff.mp h
  simp [used, List.countP_set hc, hslot]

omit [DecidableEq κ] in
theorem used_pos {c : ℕ} {e : κ × α} (h : data[c]? = some (some e)) : 0 < used data :=
  List.countP_pos_iff.mpr ⟨some e, List.mem_of_getElem? h, rfl⟩

omit [DecidableEq κ] in
theorem used_overwrite {c : ℕ} {e : κ × α} (h : data[c]? = some (some e)) (e' : κ × α) :
    used (data.set c (some e')) = used data := by
  have hpos := used_pos h
  obtain ⟨hc, hslot⟩ := List.getElem?_eq_some_iff.mp h
  simp only [used] at hpos
  simp only [used, List.countP_set hc, hslot, Option.isSome_some, if_true]
  omega

omit [DecidableEq κ] in
theorem used_clear {c : ℕ} {e : κ × α} (h : data[c]? = some (some e)) :
    used (data.set c none) = used data - 1 := by
  obtain ⟨hc, hslot⟩ := List.getElem?_eq_some_iff.mp h
  simp [used, List.countP_set hc, hslot]

omit [DecidableEq κ] in
theorem length_reduceOption : data.reduceOption.length = used data := by
  rw [used, List.countP_eq_length_filter, List.reduceOption_length_eq]

/-- No key is stored twice. -/
def Distinct (data : List (Option (κ × α))) : Prop :=
  ∀ (c d : ℕ) (k : κ) (u v : α),
    data[c]? = some (some (k, u)) → data[d]? = some (some (k, v)) → c = d

omit [DecidableEq κ] in
theorem Distinct.tail {b : Option (κ × α)} (h : Distinct (b :: data)) : Distinct data := by
  intro c d k u v hc hd
  have := h (c + 1) (d + 1) k u v (by simpa using hc) (by simpa using hd)
  omega

omit [DecidableEq κ] in
theorem Distinct.nodup (h : Distinct data) : (data.reduceOption.map Prod.fst).Nodup := by
  induction data with
  | nil => exact List.nodup_nil
  | cons b slots ih =>
      cases b with
      | none => exact ih h.tail
      | some e =>
          rw [List.reduceOption_cons_of_some, List.map_cons, List.nodup_cons]
          refine ⟨fun hmem => ?_, ih h.tail⟩
          obtain ⟨e', he', hk⟩ := List.mem_map.mp hmem
          obtain ⟨c, hc⟩ := List.mem_iff_getElem?.mp (List.reduceOption_mem_iff.mp he')
          have := h 0 (c + 1) e.1 e.2 e'.2 (by simp) (by simpa [← hk] using hc)
          omega

omit [DecidableEq κ] in
theorem Represents.mem_reduceOption (hr : Represents hash w data σ) {e : κ × α} :
    e ∈ data.reduceOption ↔ σ e.1 = some e.2 := by
  rw [List.reduceOption_mem_iff, List.mem_iff_getElem?, hr.content]

omit [DecidableEq κ] in
theorem Represents.mem_keys (hr : Represents hash w data σ) {k : κ} :
    k ∈ data.reduceOption.map Prod.fst ↔ (σ k).isSome := by
  rw [List.mem_map, Option.isSome_iff_exists]
  constructor
  · rintro ⟨e, he, rfl⟩
    exact ⟨e.2, hr.mem_reduceOption.mp he⟩
  · rintro ⟨v, hv⟩
    exact ⟨(k, v), hr.mem_reduceOption.mpr hv, rfl⟩

omit [DecidableEq κ] in
/-- Two tables with the same keys have as many slots in use. -/
theorem Represents.used_congr {hash' : ℕ → κ → ℕ} {w' : ℕ} {data' : List (Option (κ × α))}
    {σ' : κ → Option α} (hr : Represents hash w data σ) (hr' : Represents hash' w' data' σ')
    (h : ∀ k, (σ k).isSome ↔ (σ' k).isSome) : used data = used data' := by
  have hperm : (data.reduceOption.map Prod.fst).Perm (data'.reduceOption.map Prod.fst) := by
    rw [List.perm_ext_iff_of_nodup (Distinct.nodup hr.unique) (Distinct.nodup hr'.unique)]
    intro k
    rw [hr.mem_keys, hr'.mem_keys, h]
  have hlen := hperm.length_eq
  rwa [List.length_map, List.length_map, length_reduceOption, length_reduceOption] at hlen

/-- A new key takes one more slot. -/
theorem Represents.used_succ {hash' : ℕ → κ → ℕ} {w' : ℕ} {data' : List (Option (κ × α))} {k : κ}
    {v : α} (hr : Represents hash w data σ)
    (hr' : Represents hash' w' data' (Function.update σ k (some v))) (h : σ k = none) :
    used data' = used data + 1 := by
  have hfresh : k ∉ data.reduceOption.map Prod.fst := by
    rw [hr.mem_keys, h]
    exact Bool.false_ne_true
  have hperm : (data'.reduceOption.map Prod.fst).Perm (k :: data.reduceOption.map Prod.fst) := by
    rw [List.perm_ext_iff_of_nodup (Distinct.nodup hr'.unique)
      (List.nodup_cons.mpr ⟨hfresh, Distinct.nodup hr.unique⟩)]
    intro k'
    rw [hr'.mem_keys, List.mem_cons, hr.mem_keys]
    by_cases hk : k' = k
    · subst hk
      simp
    · rw [Function.update_of_ne hk]
      simp [hk]
  have hlen := hperm.length_eq
  rwa [List.length_cons, List.length_map, List.length_map, length_reduceOption,
    length_reduceOption] at hlen

/-- What a slot array adds to a partial function when its entries are inserted in
slot order: a later entry overrides an earlier one. -/
def overlay (τ : κ → Option α) : List (Option (κ × α)) → κ → Option α
  | [] => τ
  | none :: slots => overlay τ slots
  | some e :: slots => overlay (Function.update τ e.1 (some e.2)) slots

theorem overlay_of_not_stored {k : κ} {τ : κ → Option α}
    (h : ∀ (c : ℕ) (v : α), data[c]? ≠ some (some (k, v))) : overlay τ data k = τ k := by
  induction data generalizing τ with
  | nil => rfl
  | cons b slots ih =>
      have htail : ∀ (c : ℕ) (v : α), slots[c]? ≠ some (some (k, v)) := by
        intro c v hc
        exact h (c + 1) v (by simpa using hc)
      cases b with
      | none => exact ih htail
      | some e =>
          have hne : k ≠ e.1 := by
            rintro rfl
            exact h 0 e.2 (by simp)
          rw [overlay, ih htail, Function.update_of_ne hne]

theorem overlay_of_stored {k : κ} {v : α} {τ : κ → Option α} {c : ℕ} (hu : Distinct data)
    (h : data[c]? = some (some (k, v))) : overlay τ data k = some v := by
  induction data generalizing τ c with
  | nil => simp at h
  | cons b slots ih =>
      cases c with
      | zero =>
          simp only [List.getElem?_cons_zero, Option.some.injEq] at h
          subst h
          rw [overlay, overlay_of_not_stored, Function.update_self]
          intro d u hd
          have := hu 0 (d + 1) k v u (by simp) (by simpa using hd)
          omega
      | succ c =>
          have hc : slots[c]? = some (some (k, v)) := by simpa using h
          cases b with
          | none => exact ih hu.tail hc
          | some e => exact ih hu.tail hc

/-- Inserting all entries of a table into the empty function gives back `σ`. -/
theorem Represents.overlay_eq (hr : Represents hash w data σ) :
    overlay (fun _ => none) data = σ := by
  funext k
  cases hσ : σ k with
  | none =>
      apply overlay_of_not_stored
      intro c v hc
      rw [(hr.content k v).mpr ⟨c, hc⟩] at hσ
      simp at hσ
  | some v =>
      obtain ⟨c, hc⟩ := (hr.content k v).mp hσ
      exact overlay_of_stored hr.unique hc

end Table

end Dowse.CyclicProbing
