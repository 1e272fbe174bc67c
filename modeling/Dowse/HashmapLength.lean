import Dowse.GuardedRuns
import Dowse.HashmapInvariant

/-!
# The counter of the hash map

`hashmap_put` adds one to the counter whether it has filled a slot or overwritten one, and
`hashmap_rehash` counts the slots it moves. The counter is therefore the number of keys only
as long as no put has met its own key. From the first put of a key that is in the map on, the
length is one too many, until a growth counts again.
-/
namespace Dowse.HashmapInvariant
open CyclicProbing Hashmap HashmapRefinement GuardedRuns

variable {α : Type}

/-- The length is the number of keys, and the callback of an iteration that is never stopped
is called once for each of them, with its value. -/
def Counts (m : Map α) : Prop :=
  ∃ entries : List (Key × α), (entries.map Prod.fst).Nodup ∧
    (∀ key value, (key, value) ∈ entries ↔ hashmapGet m key = (.ok, some value)) ∧
    hashmapLength m = entries.length ∧
    ∀ (σ : Type) (f : σ → α → Status × σ) (item : σ), (∀ i d, (f i d).1 = .ok) →
      (hashmapIterate m f item).2 = entries.foldl (fun i e => (f i e.2).2) item

/-- A call with the map that it leaves. -/
def next (_ : Map α) (c : Op α × Map α) : Map α := c.2

def Succeeds (m : Map α) (c : Op α × Map α) : Prop := Answers m c.1 .ok c.2

/-- A put of a key that the map does not have. -/
def Fresh (m : Map α) (c : Op α × Map α) : Prop :=
  match c.1 with
  | .put key _ => (hashmapGet m key).1 = .missing
  | .get _ => True
  | .remove _ => True

/-- The counter is the number of slots in use, and no key has two of them. -/
structure Exact (m : Map α) (σ : Key → Option α) : Prop where
  invariant : Invariant m
  rep : Rep m σ
  size : m.size = used m.data

theorem exact_new : Exact (hashmapNew : Map α) (fun _ => none) :=
  ⟨invariant_new, rep_new, (used_replicate _).symm⟩

theorem visitFrom_ok {σ : Type} {f : σ → Key → α → Status × σ}
    (hf : ∀ i key d, (f i key d).1 = .ok) (slots : List (Option (Key × α))) (item : σ) :
    visitFrom f slots item =
      (.ok, slots.reduceOption.foldl (fun i e => (f i e.1 e.2).2) item) := by
  induction slots generalizing item with
  | nil => rfl
  | cons slot slots ih =>
      cases slot with
      | none => exact ih item
      | some e =>
          have hcall : f item e.1 e.2 = (.ok, (f item e.1 e.2).2) := by rw [← hf item e.1 e.2]
          rw [visitFrom, hcall, List.reduceOption_cons_of_some, List.foldl_cons]
          exact ih _

theorem hashmapGet_eq_iff {m : Map α} {σ : Key → Option α} (hr : Rep m σ) (key : Key) (value : α) :
    hashmapGet m key = (.ok, some value) ↔ σ key = some value := by
  rw [hashmapGet_rep hr]
  cases σ key with
  | none => simp
  | some v => simp

theorem Exact.counts {m : Map α} {σ : Key → Option α} (h : Exact m σ) : Counts m := by
  refine ⟨m.data.reduceOption, Distinct.nodup h.rep.unique, ?_, ?_, ?_⟩
  · intro key value
    rw [hashmapGet_eq_iff h.rep]
    exact h.rep.mem_reduceOption
  · rw [length_reduceOption]
    exact h.size
  · intro τ f item hf
    unfold hashmapIterate hashmapForeach hashmapLength
    split_ifs with hempty
    · have hnil : m.data.reduceOption = [] := by
        rw [← List.length_eq_zero_iff, length_reduceOption, ← h.size]
        omega
      rw [hnil]
      rfl
    · rw [visitFrom_ok fun i _ d => hf i d]

/-- A growth that completes counts exactly. -/
theorem Exact.grown {m u : Map α} {σ : Key → Option α} (h : Exact m σ) (hinv : Invariant u)
    (hsize : u.size ≤ used m.data) (hrep : Rep u σ) : Exact u σ ∧ u.size = m.size := by
  have hused : used u.data = used m.data := Represents.used_congr hrep h.rep fun _ => Iff.rfl
  have hle := hinv.used
  have hexact := h.size
  exact ⟨⟨hinv, hrep, by omega⟩, by omega⟩

/-- A put of a key that is there counts it again. -/
def Recounts : PutProp α := fun m _ key _ status m' _ =>
  ∀ σ, Exact m σ → (σ key).isSome → status = .ok →
    m'.size = m.size + 1 ∧ ∀ k, (hashmapGet m' k).1 = .ok ↔ (σ k).isSome

theorem putCases_recounts (calloc : ℕ → Bool) : PutCases (α := α) calloc
    ((RepPut.and SizePut).and Recounts) (RepMove.and SizeMove) := by
  refine ((putCases_rep calloc).and (putCases_size calloc)).extend ?_ ?_ ?_ ?_
  · intro m n key index hh value σ h hkey _
    refine ⟨rfl, fun k => ?_⟩
    rw [(h.invariant.store hh value).get_ok_iff, Option.isSome_iff_exists]
    constructor
    · rintro ⟨c, v, hc⟩
      rcases getElem?_set_some hc with ⟨-, he⟩ | ⟨-, he⟩
      · obtain ⟨rfl, -⟩ := Prod.mk.inj (Option.some.inj he)
        exact Option.isSome_iff_exists.mp hkey
      · exact ⟨v, (h.rep.content k v).mpr ⟨c, he⟩⟩
    · rintro ⟨v, hv⟩
      obtain ⟨c, hc⟩ := (h.rep.content k v).mp hv
      by_cases hindex : index = c
      · -- the slot that is written was free or had the key
        have hk : k = key := by
          rcases slot_of_hashmapHash hh with hfree | ⟨u, hu⟩
          · rw [hindex, hc] at hfree
            cases hfree
          · rw [hindex, hc] at hu
            exact (Prod.mk.inj (Option.some.inj (Option.some.inj hu))).1
        refine ⟨index, value, ?_⟩
        rw [hk, Map.store_data, List.getElem?_set_self (index_lt_of_hashmapHash hh)]
      · exact ⟨c, v, by rw [Map.store_data, List.getElem?_set_ne hindex]; exact hc⟩
  · intro m n key _ _ value σ _ _ hok
    cases hok
  · intro m n key m' n' _ _ _ value σ _ _ hok
    cases hok
  · intro m n key value u k status m' n' _ _ hmove hput σ h hkey hok
    obtain ⟨hrep, -⟩ := hmove.1 (fun _ => none) (rep_grown m) (gapless_grown m) rfl
    obtain ⟨hinv, hsize, -⟩ := hmove.2 h.invariant.grown
    rw [Represents.overlay_eq h.rep] at hrep
    rw [Map.grown_size, Nat.zero_add] at hsize
    obtain ⟨hu, heq⟩ := h.grown hinv hsize hrep
    rw [← heq]
    exact hput σ hu hkey hok

section Calls
variable {m : Map α} {σ : Key → Option α} {c : Op α × Map α}

theorem get_missing_iff (hr : Rep m σ) (key : Key) :
    (hashmapGet m key).1 = .missing ↔ σ key = none := by
  rw [hashmapGet_rep hr]
  cases σ key with
  | none => simp
  | some v => simp

theorem Exact.put_fresh (h : Exact m σ) {key : Key} {value : α} {m' : Map α}
    (hcall : Answers m (.put key value) .ok m') (hfresh : σ key = none) :
    Exact m' (Function.update σ key (some value)) := by
  have hinv := hcall.invariant h.invariant
  obtain ⟨calloc, fuel, n, n', hput⟩ := hcall
  have hrep := hashmapPut_unshadowed h.rep (not_shadowed_of_absent h.rep hfresh) hput
  obtain ⟨-, hsize, -⟩ := (put_cases (putCases_size calloc) fuel m n key value .ok m' n' hput).2
    h.invariant
  have hused := Represents.used_succ h.rep hrep hfresh
  have hle := hinv.used
  have hexact := h.size
  exact ⟨hinv, hrep, by omega⟩

theorem Exact.remove (h : Exact m σ) {key : Key} {m' : Map α}
    (hcall : Answers m (.remove key) .ok m') : Exact m' (Function.update σ key none) := by
  have hinv := hcall.invariant h.invariant
  have hrep := hashmapRemove_rep h.rep key
  change hashmapRemove m key = (.ok, m') at hcall
  rw [hcall] at hrep
  refine ⟨hinv, hrep, ?_⟩
  unfold hashmapRemove at hcall
  cases hfind : m.find key with
  | none => simp [hfind] at hcall
  | some c =>
      obtain ⟨v, hv⟩ := slot_of_find hfind
      simp only [hfind, Prod.mk.injEq, true_and] at hcall
      rw [← hcall]
      change m.size - 1 = used (m.data.set c none)
      rw [used_clear hv, h.size]

/-- A put of a key that is in the map makes the length wrong. -/
theorem Exact.not_counts (h : Exact m σ) {key : Key} {value : α} {m' : Map α}
    (hcall : Answers m (.put key value) .ok m') (hkey : (σ key).isSome) : ¬ Counts m' := by
  obtain ⟨calloc, fuel, n, n', hput⟩ := hcall
  obtain ⟨hsize, hkeys⟩ := (put_cases (putCases_recounts calloc) fuel m n key value .ok m' n'
    hput).2.2 σ h hkey rfl
  rintro ⟨entries, hnodup, hmem, hlength, -⟩
  have hperm : (entries.map Prod.fst).Perm (m.data.reduceOption.map Prod.fst) := by
    rw [List.perm_ext_iff_of_nodup hnodup (Distinct.nodup h.rep.unique)]
    intro k
    rw [h.rep.mem_keys, ← hkeys, List.mem_map]
    constructor
    · rintro ⟨e, he, rfl⟩
      rw [(hmem e.1 e.2).mp he]
    · intro hok
      have hvalue : ∃ v, hashmapGet m' k = (.ok, some v) := by
        unfold hashmapGet at hok ⊢
        cases hfind : m'.find k with
        | none => simp [hfind] at hok
        | some d =>
            obtain ⟨v, hv⟩ := slot_of_find hfind
            exact ⟨v, by simp [hv]⟩
      obtain ⟨v, hv⟩ := hvalue
      exact ⟨(k, v), (hmem k v).mpr hv, rfl⟩
  have hlen := hperm.length_eq
  rw [List.length_map, List.length_map, length_reduceOption, ← hlength, ← h.size] at hlen
  change m'.size = m.size at hlen
  omega

theorem Exact.counts_iff_fresh (h : Exact m σ) (hcall : Succeeds m c) :
    Counts (next m c) ↔ Fresh m c := by
  obtain ⟨op, m'⟩ := c
  cases op with
  | put key value =>
      change Counts m' ↔ (hashmapGet m key).1 = .missing
      rw [get_missing_iff h.rep]
      cases hkey : σ key with
      | none => exact iff_of_true (h.put_fresh hcall hkey).counts rfl
      | some v => exact iff_of_false (h.not_counts hcall (by simp [hkey])) nofun
  | get key =>
      obtain ⟨-, rfl⟩ := hcall
      exact iff_of_true h.counts trivial
  | remove key => exact iff_of_true (h.remove hcall).counts trivial

theorem Exact.next (h : Exact m σ) (hcall : Succeeds m c) (hfresh : Fresh m c) :
    ∃ σ', Exact (next m c) σ' := by
  obtain ⟨op, m'⟩ := c
  cases op with
  | put key value => exact ⟨_, h.put_fresh hcall ((get_missing_iff h.rep key).mp hfresh)⟩
  | get key =>
      obtain ⟨-, rfl⟩ := hcall
      exact ⟨σ, h⟩
  | remove key => exact ⟨_, h.remove hcall⟩

end Calls

/-- In a run of successful calls from `hashmap_new`, the length is the number of keys and an
iteration visits each of them once, in every state, if and only if every put is of a key
that the map does not have. -/
theorem counts_throughout_iff {calls : List (Op α × Map α)}
    (h : Along next Succeeds hashmapNew calls) :
    Throughout next Counts hashmapNew calls ↔ Along next Fresh hashmapNew calls :=
  throughout_iff_along (I := fun m => ∃ σ, Exact m σ) (fun _ ⟨_, hm⟩ => hm.counts)
    (fun _ _ ⟨_, hm⟩ hcall => hm.counts_iff_fresh hcall)
    (fun _ _ ⟨_, hm⟩ hcall hfresh => hm.next hcall hfresh) ⟨_, exact_new⟩ h

def oneKey : Map ℕ := hashmapNew.store 0 ['c'] 1

theorem hashmapPut_oneKey : Answers (hashmapNew : Map ℕ) (.put ['c'] 1) .ok oneKey :=
  ⟨fun _ => true, 1, 0, 0, rfl⟩

/-- Two keys come and one goes. -/
theorem counts_throughout_iff_two_keys :
    let calls : List (Op ℕ × Map ℕ) := [(.put ['c'] 1, oneKey),
      (.put ['d'] 2, oneKey.store 1 ['d'] 2),
      (.remove ['c'], (hashmapRemove (oneKey.store 1 ['d'] 2) ['c']).2)]
    Along next Succeeds hashmapNew calls ∧ Throughout next Counts hashmapNew calls := by
  intro calls
  have hput : hashmapPut (fun _ => true) 1 oneKey 0 ['d'] 2 =
      some (.ok, oneKey.store 1 ['d'] 2, 0) := rfl
  have hremove : hashmapRemove (oneKey.store 1 ['d'] 2) ['c'] =
      (.ok, (hashmapRemove (oneKey.store 1 ['d'] 2) ['c']).2) := rfl
  have hcalls : Along next Succeeds hashmapNew calls :=
    ⟨hashmapPut_oneKey, ⟨fun _ => true, 1, 0, 0, hput⟩, hremove, trivial⟩
  exact ⟨hcalls, (counts_throughout_iff hcalls).mpr ⟨rfl, rfl, trivial, trivial⟩⟩

/-- One key that was put twice counts as two. -/
theorem length_counts_overwrite :
    Along next Succeeds hashmapNew
        [(.put ['c'] 1, oneKey), (.put ['c'] 2, oneKey.store 0 ['c'] 2)] ∧
      hashmapLength (oneKey.store 0 ['c'] 2) = 2 ∧
      (∀ key, (hashmapGet (oneKey.store 0 ['c'] 2) key).1 = .ok ↔ key = ['c']) ∧
      ¬ Counts (oneKey.store 0 ['c'] 2) := by
  have hput : hashmapPut (fun _ => true) 1 oneKey 0 ['c'] 2 =
      some (.ok, oneKey.store 0 ['c'] 2, 0) := rfl
  have hone : Exact oneKey (Function.update (fun _ => none) ['c'] (some 1)) :=
    exact_new.put_fresh hashmapPut_oneKey rfl
  have hslot : hashmapHash oneKey ['c'] = some 0 ∧ oneKey.data[0]? = some (some (['c'], 1)) :=
    ⟨rfl, rfl⟩
  have hrep : Rep (oneKey.store 0 ['c'] 2)
      (Function.update (Function.update (fun _ => none) ['c'] (some 1)) ['c'] (some 2)) :=
    rep_store hone.rep hslot.1 (.inr ⟨1, hslot.2⟩) 2
  refine ⟨⟨hashmapPut_oneKey, ⟨fun _ => true, 1, 0, 0, hput⟩, trivial⟩, rfl, fun key => ?_,
    hone.not_counts ⟨fun _ => true, 1, 0, 0, hput⟩ (by simp)⟩
  rw [hashmapGet_rep hrep]
  by_cases hkey : key = ['c']
  · simp [hkey]
  · simp [hkey]

end Dowse.HashmapInvariant
