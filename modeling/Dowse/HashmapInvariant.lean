import Dowse.HashmapRefinement

/-!
# What every reachable hash map satisfies

The states here are those of any sequence of calls in which allocations may fail anywhere, so
a map may be the half moved one that a failed growth leaves, and it may have two copies of a
key. Four things survive all of that: the table is a power of two, every key is inside the
window of its hash position, the counter is at least the number of slots in use, and it
does not exceed half of the table. A put that succeeds is always seen by the lookup after it.
-/
namespace Dowse.HashmapInvariant
open CyclicProbing Hashmap HashmapRefinement

variable {α : Type}

/-- A call that returns, with its status; the allocations may fail or not. -/
def Answers (m : Map α) : Op α → Status → Map α → Prop
  | .put key value, status, m' => ∃ calloc fuel n n',
      hashmapPut calloc fuel m n key value = some (status, m', n')
  | .get key, status, m' => status = (hashmapGet m key).1 ∧ m' = m
  | .remove key, status, m' => hashmapRemove m key = (status, m')

/-- The maps that calls lead to from `hashmap_new`. -/
inductive Reachable : Map α → Prop
  | new : Reachable hashmapNew
  | call {m m' : Map α} {op : Op α} {status : Status} :
      Reachable m → Answers m op status m' → Reachable m'

structure Invariant (m : Map α) : Prop where
  tableSize : ∃ e, m.tableSize = 16 * 2 ^ e
  window : ∀ (c : ℕ) (key : Key) (value : α), m.data[c]? = some (some (key, value)) →
    ∃ i < 8, c = (hashmapHashInt m.tableSize key + i) % m.tableSize
  used : used m.data ≤ m.size
  size : m.size ≤ m.tableSize / 2

theorem invariant_new : Invariant (hashmapNew : Map α) where
  tableSize := ⟨0, rfl⟩
  window _ _ _ h := nomatch slot_replicate h
  used := (used_replicate _).le
  size := Nat.zero_le _

theorem Invariant.grown {m : Map α} (h : Invariant m) : Invariant m.grown where
  tableSize := by
    obtain ⟨e, he⟩ := h.tableSize
    refine ⟨e + 1, ?_⟩
    rw [pow_succ, Map.grown_tableSize, he]
    omega
  window _ _ _ hc := nomatch slot_replicate hc
  used := (used_replicate _).le
  size := Nat.zero_le _

theorem Invariant.store {m : Map α} (h : Invariant m) {key : Key} {index : ℕ}
    (hh : hashmapHash m key = some index) (value : α) : Invariant (m.store index key value) where
  tableSize := h.tableSize
  window c key' value' hc := by
    rcases getElem?_set_some hc with ⟨rfl, he⟩ | ⟨-, he⟩
    · obtain ⟨rfl, -⟩ := Prod.mk.inj (Option.some.inj he)
      have hw := (scan_freeOrKeyed_window (m.hash_lt key) (scan_of_hashmapHash hh)).2
      rwa [m.length_data] at hw
    · exact h.window c key' value' he
  used := by
    have hle := h.used
    rcases slot_of_hashmapHash hh with hfree | ⟨u, hu⟩
    · rw [Map.store_data, Map.store_size, used_fill hfree]
      omega
    · rw [Map.store_data, Map.store_size, used_overwrite hu]
      omega
  size := by
    -- `hashmap_hash` has compared the counter before it looked for a slot
    unfold hashmapHash at hh
    split_ifs at hh with hfull
    rw [Map.store_size, Map.store_tableSize]
    omega

/-- A put adds at most one to the counter, and never shrinks the table. -/
def SizePut : PutProp α := fun m _ _ _ _ m' _ =>
  Invariant m → Invariant m' ∧ m'.size ≤ m.size + 1 ∧ m.tableSize ≤ m'.tableSize

def SizeMove : MoveProp α := fun curr m _ _ m' _ =>
  Invariant m → Invariant m' ∧ m'.size ≤ m.size + CyclicProbing.used curr ∧
    m.tableSize ≤ m'.tableSize

theorem used_some (key : Key) (value : α) (curr : List (Option (Key × α))) :
    CyclicProbing.used (some (key, value) :: curr) = CyclicProbing.used curr + 1 := by
  simp [CyclicProbing.used]

/-- Every put keeps the invariant, and so does the moving loop wherever it stops. A growth
starts from zero and counts the slots, which are at most as many as the old counter said. -/
theorem putCases_size (calloc : ℕ → Bool) : PutCases (α := α) calloc SizePut SizeMove where
  stored hh value h := ⟨h.store hh value, Nat.le_refl _, Nat.le_refl _⟩
  refused _ _ _ h := ⟨h, Nat.le_succ _, Nat.le_refl _⟩
  stopped _ _ hmove _ h := by
    obtain ⟨h', hsize, htable⟩ := hmove h.grown
    have hused := h.used
    rw [Map.grown_size] at hsize
    rw [Map.grown_tableSize] at htable
    exact ⟨h', by omega, by omega⟩
  grown _ _ hmove hput h := by
    obtain ⟨hu, hsize, htable⟩ := hmove h.grown
    obtain ⟨h', hsize', htable'⟩ := hput hu
    have hused := h.used
    rw [Map.grown_size] at hsize
    rw [Map.grown_tableSize] at htable
    exact ⟨h', by omega, by omega⟩
  moved _ _ h := ⟨h, Nat.le_add_right _ _, Nat.le_refl _⟩
  free hmove h := hmove h
  put hput hmove h := by
    obtain ⟨hu, hsize, htable⟩ := hput h
    obtain ⟨h', hsize', htable'⟩ := hmove hu
    rw [used_some]
    exact ⟨h', by omega, by omega⟩
  failed hput curr h := by
    obtain ⟨h', hsize, htable⟩ := hput h
    rw [used_some]
    exact ⟨h', by omega, by omega⟩

theorem slot_of_find {m : Map α} {key : Key} {c : ℕ} (hfind : m.find key = some c) :
    ∃ v, m.data[c]? = some (some (key, v)) := by
  rw [find_eq] at hfind
  obtain ⟨_, _, _, hhit, _⟩ := scan_eq_some (m.hash_lt key) hfind
  exact hit_keyed_iff.mp hhit

theorem Invariant.remove {m : Map α} (h : Invariant m) (key : Key) :
    Invariant (hashmapRemove m key).2 := by
  unfold hashmapRemove
  cases hfind : m.find key with
  | none => exact h
  | some c =>
      obtain ⟨v, hv⟩ := slot_of_find hfind
      refine ⟨h.tableSize, ?_, ?_, ?_⟩
      · intro d key' value' hd
        rcases getElem?_set_some hd with ⟨-, he⟩ | ⟨-, he⟩
        · cases he
        · exact h.window d key' value' he
      · have hle := h.used
        change CyclicProbing.used (m.data.set c none) ≤ m.size - 1
        rw [used_clear hv]
        omega
      · have hle := h.size
        change m.size - 1 ≤ m.tableSize / 2
        omega

theorem Answers.invariant {m m' : Map α} {op : Op α} {status : Status} (h : Invariant m)
    (hcall : Answers m op status m') : Invariant m' := by
  cases op with
  | put key value =>
      obtain ⟨calloc, fuel, n, n', hput⟩ := hcall
      exact ((put_cases (putCases_size calloc) fuel m n key value status m' n' hput).2 h).1
  | get key =>
      obtain ⟨-, rfl⟩ := hcall
      exact h
  | remove key =>
      have hkept := h.remove key
      rw [hcall] at hkept
      exact hkept

theorem hashmapGet_store {m : Map α} {key : Key} {index : ℕ} (hh : hashmapHash m key = some index)
    (value : α) : hashmapGet (m.store index key value) key = (.ok, some value) := by
  have hslot : (m.store index key value).data[index]? = some (some (key, value)) := by
    rw [Map.store_data, List.getElem?_set_self (index_lt_of_hashmapHash hh)]
  rw [hashmapGet, find_store hh value]
  simp only [hslot, Option.join_some, Option.map_some]

/-- A put that succeeds ends with a store, whatever it did before. -/
theorem putCases_get (calloc : ℕ → Bool) : PutCases (α := α) calloc
    (fun _ _ key value status m' _ => status = .ok → hashmapGet m' key = (.ok, some value))
    (fun _ _ _ _ _ _ => True) where
  stored hh value _ := hashmapGet_store hh value
  refused _ _ _ h := nomatch h
  stopped _ _ _ _ h := nomatch h
  grown _ _ _ hput := hput
  moved _ _ := trivial
  free _ := trivial
  put _ _ := trivial
  failed _ _ := trivial

/-- A lookup succeeds for the keys that some slot has. -/
theorem Invariant.get_ok_iff {m : Map α} (h : Invariant m) (key : Key) :
    (hashmapGet m key).1 = .ok ↔ ∃ (c : ℕ) (v : α), m.data[c]? = some (some (key, v)) := by
  unfold hashmapGet
  cases hfind : m.find key with
  | some c => exact iff_of_true rfl ⟨c, slot_of_find hfind⟩
  | none =>
      refine iff_of_false nofun ?_
      rintro ⟨c, v, hc⟩
      obtain ⟨i, hi, hci⟩ := h.window c key v hc
      rw [find_eq] at hfind
      refine scan_eq_none (m.hash_lt key) hfind i hi (hit_keyed_iff.mpr ⟨v, ?_⟩)
      rwa [m.length_data, ← hci]

section Keys

def Has (slots : List (Option (Key × α))) (key : Key) : Prop := ∃ value, some (key, value) ∈ slots

theorem has_iff {slots : List (Option (Key × α))} {key : Key} :
    Has slots key ↔ ∃ (c : ℕ) (v : α), slots[c]? = some (some (key, v)) := by
  constructor
  · rintro ⟨v, hmem⟩
    obtain ⟨c, hc⟩ := List.mem_iff_getElem?.mp hmem
    exact ⟨c, v, hc⟩
  · rintro ⟨c, v, hc⟩
    exact ⟨v, List.mem_of_getElem? hc⟩

theorem not_has_grown (m : Map α) (key : Key) : ¬ Has m.grown.data key := by
  rintro ⟨v, hmem⟩
  exact nomatch List.eq_of_mem_replicate hmem

theorem Invariant.get_ok_iff_has {m : Map α} (h : Invariant m) (key : Key) :
    (hashmapGet m key).1 = .ok ↔ Has m.data key := (h.get_ok_iff key).trans has_iff.symm

/-- Only the key of a put that succeeds is new. -/
def KeysPut : PutProp α := fun m _ key _ status m' _ =>
  ∀ k, Has m'.data k → Has m.data k ∨ (status = .ok ∧ k = key)

def KeysMove : MoveProp α := fun curr m _ _ m' _ =>
  ∀ k, Has m'.data k → Has m.data k ∨ Has curr k

theorem has_cons_some {key : Key} (value : α) {curr : List (Option (Key × α))} {k : Key} :
    Has (some (key, value) :: curr) k ↔ k = key ∨ Has curr k := by
  constructor
  · rintro ⟨v, hmem⟩
    rcases List.mem_cons.mp hmem with he | hmem
    · exact .inl (Prod.mk.inj (Option.some.inj he)).1
    · exact .inr ⟨v, hmem⟩
  · rintro (rfl | ⟨v, hmem⟩)
    · exact ⟨value, List.mem_cons_self⟩
    · exact ⟨v, List.mem_cons_of_mem _ hmem⟩

theorem has_cons_none {curr : List (Option (Key × α))} {k : Key} :
    Has (none :: curr) k ↔ Has curr k := by
  simp [Has]

theorem putCases_keys (calloc : ℕ → Bool) : PutCases (α := α) calloc KeysPut KeysMove where
  stored hh value k hk := by
    obtain ⟨c, v, hc⟩ := has_iff.mp hk
    rcases getElem?_set_some hc with ⟨-, he⟩ | ⟨-, he⟩
    · exact .inr ⟨rfl, (Prod.mk.inj (Option.some.inj he)).1.symm⟩
    · exact .inl (has_iff.mpr ⟨c, v, he⟩)
  refused _ _ _ k hk := .inl hk
  stopped _ _ hmove _ k hk := (hmove k hk).elim (fun h => absurd h (not_has_grown _ k)) .inl
  grown _ _ hmove hput k hk := by
    rcases hput k hk with hu | hnew
    · exact (hmove k hu).elim (fun h => absurd h (not_has_grown _ k)) .inl
    · exact .inr hnew
  moved _ _ k hk := .inl hk
  free hmove k hk := (hmove k hk).imp_right has_cons_none.mpr
  put {key value curr m n u i status m' n'} hput hmove k hk := by
    rcases hmove k hk with hu | hcurr
    · exact (hput k hu).imp_right fun h => (has_cons_some value).mpr (.inl h.2)
    · exact .inr ((has_cons_some value).mpr (.inr hcurr))
  failed hput _ k hk := (hput k hk).imp_right fun h => nomatch h.1

/-- With room in the table, a key that finds no place is not stored. -/
theorem not_has_of_hash {m : Map α} {key : Key} (hm : Invariant m)
    (hroom : m.size < m.tableSize / 2) (hh : hashmapHash m key = none) : ¬ Has m.data key := by
  intro hkey
  obtain ⟨c, v, hc⟩ := has_iff.mp hkey
  obtain ⟨i, hi, hci⟩ := hm.window c key v hc
  unfold hashmapHash at hh
  rw [if_neg (by omega), ← m.length_data] at hh
  refine scan_eq_none (m.hash_lt key) hh i hi (hit_freeOrKeyed_iff.mpr (.inr ⟨v, ?_⟩))
  rwa [m.length_data, ← hci]

end Keys

theorem answers_of_call {m m' : Map α} {op : Op α} (h : Call m op m') :
    ∃ status, Answers m op status m' := by
  cases op with
  | put key value =>
      obtain ⟨fuel, n, status, n', hput⟩ := h
      exact ⟨status, _, fuel, n, n', hput⟩
  | get key => exact ⟨_, rfl, h⟩
  | remove key => exact ⟨(hashmapRemove m key).1, Prod.ext rfl h.symm⟩

theorem Reachable.calls {ok : Map α → Op α → Prop} {m m' : Map α} {ops : List (Op α)}
    (hm : Reachable m) (h : Calls ok m ops m') : Reachable m' := by
  induction h with
  | done m => exact hm
  | call _ hcall _ ih =>
      obtain ⟨status, hanswer⟩ := answers_of_call hcall
      exact ih (hm.call hanswer)

theorem Reachable.invariant {m : Map α} (h : Reachable m) : Invariant m := by
  induction h with
  | new => exact invariant_new
  | call _ hcall ih => exact hcall.invariant ih

/-- The representation invariant of every reachable map, and a lookup right after any put
that has returned `MAP_OK`. -/
theorem reachable_invariant {m : Map α} (h : Reachable m) :
    Invariant m ∧ ∀ key value m', Answers m (.put key value) .ok m' →
      hashmapGet m' key = (.ok, some value) := by
  refine ⟨h.invariant, ?_⟩
  rintro key value m' ⟨calloc, fuel, n, n', hput⟩
  exact (put_cases (putCases_get calloc) fuel m n key value .ok m' n' hput).2 rfl

/-- Overwriting a key leaves the counter ahead of the slots, and the invariant holds. -/
theorem reachable_invariant_overwritten :
    Reachable ((hashmapNew.store 0 ['c'] 1).store 0 ['c'] 2 : Map ℕ) ∧
      ((hashmapNew.store 0 ['c'] 1).store 0 ['c'] 2 : Map ℕ).size = 2 ∧
      Invariant ((hashmapNew.store 0 ['c'] 1).store 0 ['c'] 2 : Map ℕ) := by
  have hreach : Reachable ((hashmapNew.store 0 ['c'] 1).store 0 ['c'] 2 : Map ℕ) :=
    @Reachable.call _ _ _ (.put ['c'] 2) .ok
      (@Reachable.call _ _ _ (.put ['c'] 1) .ok .new ⟨fun _ => true, 1, 0, 0, rfl⟩)
      ⟨fun _ => true, 1, 0, 0, rfl⟩
  exact ⟨hreach, rfl, (reachable_invariant hreach).1⟩

end Dowse.HashmapInvariant
