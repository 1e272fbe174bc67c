import Dowse.HashmapTermination
import Dowse.ProbePlacement

/-!
# The order in which a growth moves the elements

Every allocation that succeeds doubles the table, whichever put has asked for it. When a put
inside a growth needs a growth of its own, the keys that are already in the table are moved
again, in slot order, before that put and the rest of the outer loop go on. So the nested calls
put one sequence of keys into each of the doubled tables, and the key of the outermost put is
the last one of it: `Doubled` on the hashes of the keys.

A run that asks for an allocation it does not get has therefore failed at the first key of the
sequence that does not fit the table it has reached.
-/
namespace Dowse.HashmapInvariant
open CyclicProbing Hashmap HashmapRefinement ProbePlacement

variable {α : Type}

/-- The keys of the slots in use, in slot order. -/
def keysOf (slots : List (Option (Key × α))) : List Key := slots.filterMap (Option.map Prod.fst)

@[simp] theorem keysOf_nil : keysOf ([] : List (Option (Key × α))) = [] := rfl

@[simp] theorem keysOf_none (slots : List (Option (Key × α))) :
    keysOf (none :: slots) = keysOf slots := rfl

@[simp] theorem keysOf_some (key : Key) (value : α) (slots : List (Option (Key × α))) :
    keysOf (some (key, value) :: slots) = key :: keysOf slots := rfl

/-- The order in which the elements and the key are put after `j` doublings of the table. -/
def MoveOrder (m : Map α) (key : Key) (j : ℕ) (order : List Key) : Prop :=
  Doubled fullHash maxChainLength m.tableSize (keysOf m.data ++ [key]) j order

/-- The keys have a place in a table of this size, put in the order of the list. -/
def FitsTable (tableSize : ℕ) (keys : List Key) : Prop :=
  Fits fullHash maxChainLength tableSize keys

/-- The allocations from number `n` on succeed, and number `n + j` is the first that fails. -/
def FailsAt (calloc : ℕ → Bool) (n j : ℕ) : Prop :=
  (∀ i < j, calloc (n + i) = true) ∧ calloc (n + j) = false

theorem FailsAt.unique {calloc : ℕ → Bool} {n i j : ℕ} (h : FailsAt calloc n i)
    (h' : FailsAt calloc n j) : i = j := by
  rcases Nat.lt_trichotomy i j with hlt | rfl | hlt
  · exact nomatch (h'.1 i hlt).symm.trans h.2
  · rfl
  · exact nomatch (h.1 j hlt).symm.trans h'.2

section Arrangement

/-- The map has these keys, each in its slot. -/
structure Arranged (m : Map α) (keys : List Key) (slot : Key → ℕ) : Prop where
  placement : Placement fullHash maxChainLength m.tableSize slot keys
  slots : ∀ (c : ℕ) (k : Key), (∃ v, m.data[c]? = some (some (k, v))) ↔ k ∈ keys ∧ slot k = c

variable {m : Map α} {keys : List Key} {slot : Key → ℕ} {key : Key}

theorem arranged_grown (m : Map α) (slot : Key → ℕ) : Arranged m.grown [] slot where
  placement := placement_nil
  slots c k := by
    refine iff_of_false ?_ (by simp)
    rintro ⟨v, hv⟩
    cases slot_replicate hv

theorem Arranged.mem_of_taken (h : Arranged m keys slot) {c : ℕ} (hc : c < m.tableSize)
    (htaken : m.data[c]? ≠ some none) : c ∈ keys.map slot := by
  obtain ⟨k, v, hkv⟩ := slot_of_taken hc htaken
  obtain ⟨hk, rfl⟩ := (h.slots c k).mp ⟨v, hkv⟩
  exact List.mem_map_of_mem hk

theorem Arranged.not_mem_of_free (h : Arranged m keys slot) {c : ℕ}
    (hfree : m.data[c]? = some none) : c ∉ keys.map slot := by
  intro hmem
  obtain ⟨k, hk, hc⟩ := List.mem_map.mp hmem
  obtain ⟨v, hv⟩ := (h.slots c k).mpr ⟨hk, hc⟩
  rw [hfree] at hv
  cases hv

/-- Overwriting leaves the keys where they are. -/
theorem Arranged.overwrite (h : Arranged m keys slot) {index : ℕ} {u : α}
    (hslot : m.data[index]? = some (some (key, u))) (value : α) :
    Arranged (m.store index key value) (keys ++ [key]) slot := by
  obtain ⟨hkey, hindex⟩ := (h.slots index key).mp ⟨u, hslot⟩
  refine ⟨placement_snoc.mpr ⟨h.placement, fun hnot => absurd hkey hnot⟩, fun c k => ?_⟩
  have hmem : k ∈ keys ++ [key] ↔ k ∈ keys := by
    rw [List.mem_append, List.mem_singleton, or_iff_left_of_imp]
    rintro rfl
    exact hkey
  rw [hmem, ← h.slots c k, Map.store_data]
  obtain ⟨hlt, -⟩ := List.getElem?_eq_some_iff.mp hslot
  by_cases hc : index = c
  · subst hc
    rw [List.getElem?_set_self hlt, hslot]
    simp
  · rw [List.getElem?_set_ne hc]

theorem Arranged.fill (h : Arranged m keys slot) (hkey : key ∉ keys) {i : ℕ}
    (hi : i < maxChainLength)
    (hfree : m.data[(fullHash key + i) % m.tableSize]? = some none)
    (hbefore : ∀ j < i, m.data[(fullHash key + j) % m.tableSize]? ≠ some none) (value : α) :
    Arranged (m.store ((fullHash key + i) % m.tableSize) key value) (keys ++ [key])
      (Function.update slot key ((fullHash key + i) % m.tableSize)) := by
  have hpos := tableSize_pos m
  refine ⟨h.placement.put hkey hi (h.not_mem_of_free hfree) fun j hj =>
    h.mem_of_taken (Nat.mod_lt _ hpos) (hbefore j hj), fun c k => ?_⟩
  obtain ⟨hlt, -⟩ := List.getElem?_eq_some_iff.mp hfree
  rw [Map.store_data, List.mem_append, List.mem_singleton]
  by_cases hk : k = key
  · subst hk
    rw [Function.update_self]
    by_cases hc : (fullHash k + i) % m.tableSize = c
    · rw [hc] at hlt ⊢
      simp [List.getElem?_set_self hlt]
    · have hnone : ¬ ∃ v, m.data[c]? = some (some (k, v)) :=
        fun hv => hkey ((h.slots c k).mp hv).1
      simpa [List.getElem?_set_ne hc, hc] using hnone
  · rw [Function.update_of_ne hk, or_iff_left hk, ← h.slots c k]
    by_cases hc : (fullHash key + i) % m.tableSize = c
    · rw [hc] at hlt hfree ⊢
      rw [List.getElem?_set_self hlt, hfree]
      simp [Ne.symm hk]
    · rw [List.getElem?_set_ne hc]

/-- A store puts its key behind the others. -/
theorem Arranged.store (h : Arranged m keys slot) {σ : Key → Option α} (hr : Rep m σ)
    (hg : Gapless m) {index : ℕ} (hh : hashmapHash m key = some index) (value : α) :
    ∃ slot', Arranged (m.store index key value) (keys ++ [key]) slot' := by
  rcases hg.slot hr (m.hash_lt key) (scan_of_hashmapHash hh) with ⟨hfree, hnone⟩ | ⟨u, hu⟩
  · have hkey : key ∉ keys := by
      intro hmem
      obtain ⟨v, hv⟩ := (h.slots (slot key) key).mpr ⟨hmem, rfl⟩
      rw [(hr.content key v).mpr ⟨_, hv⟩] at hnone
      cases hnone
    obtain ⟨i, hi, hindex, -, hmiss⟩ := scan_eq_some (m.hash_lt key) (scan_of_hashmapHash hh)
    rw [position_eq] at hindex
    subst hindex
    refine ⟨_, h.fill hkey hi hfree (fun j hj hfree' => ?_) value⟩
    refine hmiss j hj (hit_freeOrKeyed_iff.mpr (.inl ?_))
    rwa [position_eq]
  · exact ⟨slot, h.overwrite hu value⟩

/-- With room in the table, a key without a place does not fit behind the others. -/
theorem Arranged.full (h : Arranged m keys slot) (hm : Invariant m)
    (hroom : m.size < m.tableSize / 2) (hh : hashmapHash m key = none) :
    ¬ FitsTable m.tableSize (keys ++ [key]) := by
  refine h.placement.not_fits_of_full (fun hmem => ?_) fun i hi => ?_
  · obtain ⟨v, hv⟩ := (h.slots (slot key) key).mpr ⟨hmem, rfl⟩
    exact not_has_of_hash hm hroom hh (has_iff.mpr ⟨_, v, hv⟩)
  · exact h.mem_of_taken (Nat.mod_lt _ (tableSize_pos m)) (taken_of_hash hroom hh hi)

theorem mem_keysOf {slots : List (Option (Key × α))} {k : Key} :
    k ∈ keysOf slots ↔ ∃ (c : ℕ) (v : α), slots[c]? = some (some (k, v)) := by
  rw [← has_iff]
  simp [keysOf, Has]

/-- The slots give the keys in their order. -/
theorem Arranged.bySlot (h : Arranged m keys slot) : BySlot slot keys (keysOf m.data) := by
  refine ⟨?_, fun k => ?_⟩
  · refine List.pairwise_filterMap.mpr (List.pairwise_iff_getElem.mpr ?_)
    intro c d hc hd hlt k hk l hl
    have hslot : ∀ {c : ℕ} {k : Key} (hc : c < m.data.length),
        m.data[c].map Prod.fst = some k → slot k = c := by
      intro c k hc hk
      obtain ⟨⟨k', v⟩, he, rfl⟩ := Option.map_eq_some_iff.mp hk
      exact ((h.slots c k').mp ⟨v, List.getElem?_eq_some_iff.mpr ⟨hc, he⟩⟩).2
    rw [hslot hc hk, hslot hd hl]
    exact hlt
  · rw [mem_keysOf]
    constructor
    · rintro ⟨c, hv⟩
      exact ((h.slots c k).mp hv).1
    · intro hk
      exact ⟨_, (h.slots _ k).mpr ⟨hk, rfl⟩⟩

end Arrangement

section Order

/-- The put of `key₀` into `root`, whose first allocation has the number `n₀`, has come to a map
with the keys `before`, and the keys `after` are still to be put. -/
structure Reached (calloc : ℕ → Bool) (root : Map α) (n₀ : ℕ) (key₀ : Key) (m : Map α) (n : ℕ)
    (before after : List Key) : Prop where
  doubled : ∃ j, n = n₀ + j ∧ m.tableSize = root.tableSize * 2 ^ j ∧
    (∀ i < j, calloc (n₀ + i) = true) ∧ MoveOrder root key₀ j (before ++ after)
  arranged : ∃ slot, Arranged m before slot

/-- An allocation has failed for a key that does not fit, with the keys `after` and perhaps others
behind it. -/
def Stuck (calloc : ℕ → Bool) (root : Map α) (n₀ : ℕ) (key₀ : Key) (after : List Key) : Prop :=
  ∃ j before x between, FailsAt calloc n₀ j ∧
    MoveOrder root key₀ j (before ++ x :: (between ++ after)) ∧
    ¬ FitsTable (root.tableSize * 2 ^ j) (before ++ [x])

variable {calloc : ℕ → Bool} {root m : Map α} {n₀ n : ℕ} {key₀ key : Key}
  {before after : List Key}

theorem Stuck.append {between : List Key} (h : Stuck calloc root n₀ key₀ (between ++ after)) :
    Stuck calloc root n₀ key₀ after := by
  obtain ⟨j, before, x, between', hfails, horder, hnot⟩ := h
  exact ⟨j, before, x, between' ++ between, hfails, by rwa [List.append_assoc], hnot⟩

/-- The first growth of the outermost put. -/
theorem reached_root (hcalloc : calloc n = true) :
    Reached calloc root n key root.grown (n + 1) [] (keysOf root.data ++ [key]) where
  doubled := by
    refine ⟨1, rfl, by rw [Map.grown_tableSize]; omega, fun i hi => ?_, .first⟩
    obtain rfl : i = 0 := by omega
    exact hcalloc
  arranged := ⟨fun _ => 0, arranged_grown root _⟩

theorem Reached.store (h : Reached calloc root n₀ key₀ m n before (key :: after))
    {σ : Key → Option α} (hr : Rep m σ) (hg : Gapless m) {index : ℕ}
    (hh : hashmapHash m key = some index) (value : α) :
    Reached calloc root n₀ key₀ (m.store index key value) n (before ++ [key]) after := by
  obtain ⟨⟨j, hn, hsize, hgranted, horder⟩, slot, harranged⟩ := h
  rw [List.append_cons] at horder
  exact ⟨⟨j, hn, hsize, hgranted, horder⟩, harranged.store hr hg hh value⟩

/-- A further growth takes up the keys of the table in front of the key that asked for it. -/
theorem Reached.grow (h : Reached calloc root n₀ key₀ m n before (key :: after))
    (hm : Invariant m) (hroom : m.size < m.tableSize / 2) (hh : hashmapHash m key = none)
    (hcalloc : calloc n = true) :
    Reached calloc root n₀ key₀ m.grown (n + 1) [] (keysOf m.data ++ (key :: after)) := by
  obtain ⟨⟨j, rfl, hsize, hgranted, horder⟩, slot, harranged⟩ := h
  refine ⟨⟨j + 1, rfl, ?_, fun i hi => ?_, ?_⟩, slot, arranged_grown m slot⟩
  · rw [Map.grown_tableSize, hsize, pow_succ, Nat.mul_comm 2, Nat.mul_assoc]
  · rcases Nat.lt_succ_iff_lt_or_eq.mp hi with hlt | rfl
    · exact hgranted i hlt
    · exact hcalloc
  · refine .next horder ?_ ?_ harranged.bySlot
    · exact hsize ▸ harranged.placement
    · exact hsize ▸ harranged.full hm hroom hh

theorem Reached.refused (h : Reached calloc root n₀ key₀ m n before (key :: after))
    (hcalloc : calloc n = false) : ∃ j, FailsAt calloc n₀ j ∧
      m.tableSize = root.tableSize * 2 ^ j ∧ MoveOrder root key₀ j (before ++ key :: after) := by
  obtain ⟨⟨j, rfl, hsize, hgranted, horder⟩, -⟩ := h
  exact ⟨j, ⟨hgranted, hcalloc⟩, hsize, horder⟩

theorem Reached.stuck (h : Reached calloc root n₀ key₀ m n before (key :: after))
    (hm : Invariant m) (hroom : m.size < m.tableSize / 2) (hh : hashmapHash m key = none)
    (hcalloc : calloc n = false) : Stuck calloc root n₀ key₀ after := by
  obtain ⟨j, hfails, hsize, horder⟩ := h.refused hcalloc
  obtain ⟨slot, harranged⟩ := h.arranged
  exact ⟨j, before, key, [], hfails, horder, hsize ▸ harranged.full hm hroom hh⟩

end Order

section Runs

/-- A put inside a growth puts its key behind the others, or is stuck. -/
def OrderPut (calloc : ℕ → Bool) : PutProp α := fun m n key _ status m' n' =>
  Settled Set.univ m → ∀ root n₀ key₀ before after,
    Reached calloc root n₀ key₀ m n before (key :: after) →
      (status = .ok → ∃ before', Reached calloc root n₀ key₀ m' n' before' after) ∧
      (status = .omem → Stuck calloc root n₀ key₀ after)

def OrderMove (calloc : ℕ → Bool) : MoveProp α := fun curr m n status m' n' =>
  Settled Set.univ m → m.size + used curr < m.tableSize / 2 → ∀ root n₀ key₀ before after,
    Reached calloc root n₀ key₀ m n before (keysOf curr ++ after) →
      (status = .ok → ∃ before', Reached calloc root n₀ key₀ m' n' before' after) ∧
      (status = .omem → Stuck calloc root n₀ key₀ after)

/-- What a put does to the map and to its counter. -/
def StepPut : PutProp α := RepPut.and SizePut

def StepMove : MoveProp α := RepMove.and SizeMove

theorem putCases_step (calloc : ℕ → Bool) : PutCases (α := α) calloc StepPut StepMove :=
  (putCases_rep calloc).and (putCases_size calloc)

theorem StepPut.settled {m m' : Map α} {n n' : ℕ} {key : Key} {value : α}
    (h : StepPut m n key value .ok m' n') (hm : Settled Set.univ m)
    (hroom : m.size + 1 < m.tableSize / 2) :
    Settled Set.univ m' ∧ m'.size ≤ m.size + 1 ∧ m.tableSize ≤ m'.tableSize := by
  obtain ⟨σ, hr⟩ := hm.rep
  obtain ⟨hr', hg'⟩ := h.1 σ hr (not_shadowed_of_gapless hr hm.gapless) rfl
  obtain ⟨hinv, hsize, htable⟩ := h.2 hm.invariant
  exact ⟨⟨hinv, ⟨_, hr'⟩, hg' hm.gapless, fun _ _ => trivial, by omega⟩, hsize, htable⟩

/-- The moving loop of a growth has room for all elements, and leaves room for the key. -/
theorem room_grown {m : Map α} (hm : Invariant m) :
    m.grown.size + used m.data < m.grown.tableSize / 2 := by
  have hused := hm.used
  have hsize := hm.size
  have hpos := tableSize_pos m
  rw [Map.grown_size, Map.grown_tableSize]
  omega

theorem StepMove.settled {m u : Map α} {n k : ℕ} (h : StepMove m.data m.grown n .ok u k)
    (hm : Invariant m) : Settled Set.univ u := by
  obtain ⟨hr, hg⟩ := h.1 _ (rep_grown m) (gapless_grown m) rfl
  obtain ⟨hinv, hsize, htable⟩ := h.2 hm.grown
  have hroom := room_grown hm
  exact ⟨hinv, ⟨_, hr⟩, hg, fun _ _ => trivial, by omega⟩

/-- The cases follow the calls: a growth hands the keys of the table, the key and the rest of
the outer loops on to the larger table. -/
theorem putCases_order (calloc : ℕ → Bool) : PutCases (α := α) calloc
    (StepPut.and (OrderPut calloc)) (StepMove.and (OrderMove calloc)) where
  stored {m n key index} hh value := by
    refine ⟨(putCases_step calloc).stored hh value, fun hm root n₀ key₀ before after h => ?_⟩
    obtain ⟨σ, hr⟩ := hm.rep
    exact ⟨fun _ => ⟨before ++ [key], h.store hr hm.gapless hh value⟩, nofun⟩
  refused hh hcalloc value :=
    ⟨(putCases_step calloc).refused hh hcalloc value, fun hm _ _ _ _ _ h =>
      ⟨nofun, fun _ => h.stuck hm.invariant hm.room hh hcalloc⟩⟩
  stopped {m n key m' n'} hh hcalloc hmove value := by
    refine ⟨(putCases_step calloc).stopped hh hcalloc hmove.1 value,
      fun hm root n₀ key₀ before after h => ⟨nofun, fun hstatus => ?_⟩⟩
    have hgrown := h.grow hm.invariant hm.room hh hcalloc
    have hstuck : Stuck calloc root n₀ key₀ ([key] ++ after) :=
      (hmove.2 (.grown hm.invariant) (room_grown hm.invariant) root n₀ key₀ [] (key :: after)
        hgrown).2 hstatus
    exact hstuck.append
  grown {m n key value u k status m' n'} hh hcalloc hmove hput := by
    refine ⟨(putCases_step calloc).grown hh hcalloc hmove.1 hput.1,
      fun hm root n₀ key₀ before after h => ?_⟩
    have hgrown := h.grow hm.invariant hm.room hh hcalloc
    obtain ⟨before', hu⟩ := (hmove.2 (.grown hm.invariant) (room_grown hm.invariant)
      root n₀ key₀ [] (key :: after) hgrown).1 rfl
    exact hput.2 (hmove.1.settled hm.invariant) root n₀ key₀ before' after hu
  moved m n :=
    ⟨(putCases_step calloc).moved m n, fun _ _ _ _ _ before _ h => ⟨fun _ => ⟨before, h⟩, nofun⟩⟩
  free {curr m n status m' n'} hmove := by
    refine ⟨(putCases_step calloc).free hmove.1, fun hm hroom => ?_⟩
    have hused : used (none :: curr) = used curr := by simp [used]
    rw [hused] at hroom
    exact hmove.2 hm hroom
  put {key value curr m n u k status m' n'} hput hmove := by
    refine ⟨(putCases_step calloc).put hput.1 hmove.1,
      fun hm hroom root n₀ key₀ before after h => ?_⟩
    rw [used_some] at hroom
    obtain ⟨before', h'⟩ := (hput.2 hm root n₀ key₀ before (keysOf curr ++ after) h).1 rfl
    obtain ⟨hu, hsize, htable⟩ := hput.1.settled hm (by omega)
    exact hmove.2 hu (by omega) root n₀ key₀ before' after h'
  failed {key value m n m' n'} hput curr :=
    ⟨(putCases_step calloc).failed hput.1 curr, fun hm _ root n₀ key₀ before after h =>
      ⟨nofun, fun hstatus =>
        ((hput.2 hm root n₀ key₀ before (keysOf curr ++ after) h).2 hstatus).append⟩⟩

end Runs

end Dowse.HashmapInvariant
