import Dowse.HashmapRuns

/-!
# When the hash map is a finite map

`hashmap_put` stops at the first free slot of the window of its key. Removal leaves
plain free slots, so a key can sit behind one; a put of that key then stores a
second copy in front of the first. The first copy comes back when the second one
is removed, or when a growth reinserts the slots in order. That is the only way in
which the map departs from a finite map: as long as no put meets a stored key
behind a free slot, every lookup answers the last put not followed by a remove.

Growth is never at fault. It starts from an empty array, and puts alone leave no
gap between the hash position of a key and its slot.
-/
namespace Dowse.HashmapRefinement
open CyclicProbing Hashmap

variable {α : Type}

inductive Op (α : Type) where
  | put (key : Key) (value : α)
  | get (key : Key)
  | remove (key : Key)

/-- A call that returns, every allocation succeeding. -/
def Call (m : Map α) : Op α → Map α → Prop
  | .put key value, m' => ∃ fuel n status n',
      hashmapPut (fun _ => true) fuel m n key value = some (status, m', n')
  | .get _, m' => m' = m
  | .remove key, m' => m' = (hashmapRemove m key).2

/-- Finite sequences of returning calls, each admitted by `ok` in the map it meets. -/
inductive Calls (ok : Map α → Op α → Prop) : Map α → List (Op α) → Map α → Prop
  | done (m : Map α) : Calls ok m [] m
  | call {m u t : Map α} {op : Op α} {ops : List (Op α)} :
      ok m op → Call m op u → Calls ok u ops t → Calls ok m (op :: ops) t

theorem Calls.append {ok : Map α → Op α → Prop} {m u t : Map α} {ops ops' : List (Op α)}
    (h : Calls ok m ops u) (h' : Calls ok u ops' t) : Calls ok m (ops ++ ops') t := by
  induction h with
  | done m => exact h'
  | call hok hcall _ ih => exact .call hok hcall (ih h')

/-- One operation of the finite map that the code is meant to be. -/
def Op.apply (σ : Key → Option α) : Op α → Key → Option α
  | .put key value => Function.update σ key (some value)
  | .get _ => σ
  | .remove key => Function.update σ key none

/-- The value of the last put of `key` that no remove of `key` follows. -/
def lastPut (ops : List (Op α)) (key : Key) : Option α :=
  ops.foldl Op.apply (fun _ => none) key

/-- The put would stop at a free slot although its key is stored further on. -/
def Shadowed (m : Map α) (key : Key) : Prop :=
  (∃ index, hashmapHash m key = some index ∧ m.data[index]? = some none) ∧
    ∃ (c : ℕ) (v : α), m.data[c]? = some (some (key, v))

def Unshadowed (m : Map α) : Op α → Prop
  | .put key _ => ¬ Shadowed m key
  | .get _ => True
  | .remove _ => True

def Rep (m : Map α) (σ : Key → Option α) : Prop :=
  Represents hashmapHashInt maxChainLength m.data σ

def Gapless (m : Map α) : Prop := GapFree hashmapHashInt maxChainLength m.data

theorem rep_new : Rep (hashmapNew : Map α) (fun _ => none) := represents_replicate _

theorem rep_grown (m : Map α) : Rep m.grown (fun _ => none) := represents_replicate _

theorem gapless_grown (m : Map α) : Gapless m.grown := gapFree_replicate _

theorem scan_of_hashmapHash {m : Map α} {key : Key} {index : ℕ}
    (h : hashmapHash m key = some index) :
    scan (freeOrKeyed key) m.data maxChainLength (hashmapHashInt m.data.length key) =
      some index := by
  unfold hashmapHash at h
  split_ifs at h
  rwa [m.length_data]

/-- The slot that `hashmap_hash` picks is free or has the key. -/
theorem slot_of_hashmapHash {m : Map α} {key : Key} {index : ℕ}
    (h : hashmapHash m key = some index) :
    m.data[index]? = some none ∨ ∃ u, m.data[index]? = some (some (key, u)) := by
  obtain ⟨_, _, _, hhit, _⟩ := scan_eq_some (m.hash_lt key) (scan_of_hashmapHash h)
  exact hit_freeOrKeyed_iff.mp hhit

theorem index_lt_of_hashmapHash {m : Map α} {key : Key} {index : ℕ}
    (h : hashmapHash m key = some index) : index < m.data.length :=
  (scan_freeOrKeyed_window (m.hash_lt key) (scan_of_hashmapHash h)).1

theorem rep_store {m : Map α} {σ : Key → Option α} {key : Key} {index : ℕ} (hr : Rep m σ)
    (h : hashmapHash m key = some index)
    (hslot : (m.data[index]? = some none ∧ σ key = none) ∨
      ∃ u, m.data[index]? = some (some (key, u))) (value : α) :
    Rep (m.store index key value) (Function.update σ key (some value)) := by
  obtain ⟨hlt, hw⟩ := scan_freeOrKeyed_window (m.hash_lt key) (scan_of_hashmapHash h)
  exact Represents.store hr hlt hw hslot value

/-- A free slot of a window without gaps is not in front of its key. -/
theorem not_shadowed_of_gapless {m : Map α} {σ : Key → Option α} {key : Key} (hr : Rep m σ)
    (hg : Gapless m) : ¬ Shadowed m key := by
  rintro ⟨⟨index, hh, hfree⟩, c, v, hc⟩
  rcases hg.slot hr (m.hash_lt key) (scan_of_hashmapHash hh) with ⟨-, hnone⟩ | ⟨u, hu⟩
  · rw [(hr.content key v).mpr ⟨c, hc⟩] at hnone
    cases hnone
  · rw [hfree] at hu
    cases hu

theorem rep_store_unshadowed {m : Map α} {σ : Key → Option α} {key : Key} {index : ℕ}
    (hr : Rep m σ) (hs : ¬ Shadowed m key) (hh : hashmapHash m key = some index) (value : α) :
    Rep (m.store index key value) (Function.update σ key (some value)) := by
  refine rep_store hr hh ?_ value
  rcases slot_of_hashmapHash hh with hn | hu
  · refine .inl ⟨hn, ?_⟩
    cases hσ : σ key with
    | none => rfl
    | some v =>
        obtain ⟨c, hc⟩ := (hr.content key v).mp hσ
        exact absurd ⟨⟨index, hh, hn⟩, c, v, hc⟩ hs
  · exact .inr hu

theorem gapless_store {m : Map α} {key : Key} {index : ℕ} (hg : Gapless m)
    (hh : hashmapHash m key = some index) (value : α) : Gapless (m.store index key value) := by
  have hwl : maxChainLength ≤ m.data.length := m.length_data ▸ m.window_le
  exact GapFree.store hg hwl (m.hash_lt key) (scan_of_hashmapHash hh) value

/-- A put that is not shadowed and succeeds puts. -/
def RepPut : PutProp α := fun m _ key value status m' _ =>
  ∀ σ, Rep m σ → ¬ Shadowed m key → status = .ok →
    Rep m' (Function.update σ key (some value)) ∧ (Gapless m → Gapless m')

/-- The moving loop overlays the slots that it reads. -/
def RepMove : MoveProp α := fun curr m _ status m' _ =>
  ∀ τ, Rep m τ → Gapless m → status = .ok → Rep m' (overlay τ curr) ∧ Gapless m'

/-- A growth leaves no gaps, so nothing is shadowed behind it. -/
theorem putCases_rep (calloc : ℕ → Bool) : PutCases (α := α) calloc RepPut RepMove where
  stored hh value σ hr hs _ :=
    ⟨rep_store_unshadowed hr hs hh value, fun hg => gapless_store hg hh value⟩
  refused _ _ _ _ _ _ h := nomatch h
  stopped _ _ _ _ _ _ _ h := nomatch h
  grown {m n key value u k status m' n'} _ _ hmove hput σ hr _ hok := by
    obtain ⟨hru, hgu⟩ := hmove (fun _ => none) (rep_grown m) (gapless_grown m) rfl
    rw [Represents.overlay_eq hr] at hru
    obtain ⟨hr', hg'⟩ := hput σ hru (not_shadowed_of_gapless hru hgu) hok
    exact ⟨hr', fun _ => hg' hgu⟩
  moved _ _ _ hr hg _ := ⟨hr, hg⟩
  free h := h
  put {key value curr m n u k status m' n'} hput hmove τ hr hg hok := by
    obtain ⟨hru, hgu⟩ := hput τ hr (not_shadowed_of_gapless hr hg) rfl
    exact hmove _ hru (hgu hg) hok
  failed _ _ _ _ _ h := nomatch h

/-- A put that is not shadowed is right on any map that represents `σ`: either it
writes one slot, or it grows first and then works on a map without gaps. -/
theorem hashmapPut_unshadowed {calloc : ℕ → Bool} {fuel n n' : ℕ} {m m' : Map α} {key : Key}
    {value : α} {σ : Key → Option α} (hr : Rep m σ) (hs : ¬ Shadowed m key)
    (h : hashmapPut calloc fuel m n key value = some (.ok, m', n')) :
    Rep m' (Function.update σ key (some value)) :=
  ((put_cases (putCases_rep calloc) fuel m n key value _ m' n' h).2 σ hr hs rfl).1

theorem hashmapPut_gapless {calloc : ℕ → Bool} {fuel n n' : ℕ} {m m' : Map α} {key : Key}
    {value : α} {σ : Key → Option α} (hr : Rep m σ) (hg : Gapless m)
    (h : hashmapPut calloc fuel m n key value = some (.ok, m', n')) : Gapless m' :=
  ((put_cases (putCases_rep calloc) fuel m n key value _ m' n' h).2 σ hr
    (not_shadowed_of_gapless hr hg) rfl).2 hg

/-- A growth that completes represents the old slots, later ones over earlier ones. -/
theorem hashmapRehash_rep {calloc : ℕ → Bool} {fuel n k : ℕ} {m u : Map α}
    (h : hashmapRehash calloc (hashmapPut calloc fuel) m n = some (.ok, u, k)) :
    Rep u (overlay (fun _ => none) m.data) ∧ Gapless u := by
  unfold hashmapRehash at h
  split_ifs at h
  · exact (rehashFrom_cases (putCases_rep calloc).toMoveCases
      (put_cases (putCases_rep calloc) fuel) h).2 _ (rep_grown m) (gapless_grown m) rfl
  · cases h

/-- Without a failed allocation the status is `MAP_OK`. -/
theorem putCases_ok : PutCases (α := α) (fun _ => true) (fun _ _ _ _ status _ _ => status = .ok)
    (fun _ _ _ status _ _ => status = .ok) where
  stored _ _ := rfl
  refused _ h := nomatch h
  stopped _ _ h := nomatch h
  grown _ _ _ h := h
  moved _ _ := rfl
  free h := h
  put _ h := h
  failed h := nomatch h

theorem hashmapPut_ok {fuel n n' : ℕ} {m m' : Map α} {key : Key} {value : α} {status : Status}
    (h : hashmapPut (fun _ => true) fuel m n key value = some (status, m', n')) : status = .ok :=
  (put_cases putCases_ok fuel m n key value status m' n' h).2

theorem find_eq (m : Map α) (key : Key) :
    m.find key =
      scan (keyed key) m.data maxChainLength (hashmapHashInt m.data.length key) := by
  rw [Map.find, m.length_data]

/-- A lookup stops at the slot that a put has just written. -/
theorem find_store {m : Map α} {key : Key} {index : ℕ} (hh : hashmapHash m key = some index)
    (value : α) : (m.store index key value).find key = some index := by
  obtain ⟨i, hi, hci, -, hmiss⟩ := scan_eq_some (m.hash_lt key) (scan_of_hashmapHash hh)
  have hlt := index_lt_of_hashmapHash hh
  have hlen : (m.store index key value).data.length = m.data.length := List.length_set
  have hscan := @scan_of_first_hit _ (keyed key) _ _ _ _
    ((m.store index key value).hash_lt key) hi
  rw [hlen, ← hci] at hscan
  rw [find_eq, hlen]
  refine hscan (hit_keyed_iff.mpr ⟨value, by simp [Map.store, hlt]⟩) ?_
  -- the slots in front of it have another key
  intro j hj hhit
  obtain ⟨u, hu⟩ := hit_keyed_iff.mp hhit
  rcases getElem?_set_some hu with ⟨he, -⟩ | ⟨-, he⟩
  · rw [he] at hci
    have hmod := window_injective (lt_of_lt_of_le hi (m.length_data ▸ m.window_le))
      (lt_of_lt_of_le (hj.trans hi) (m.length_data ▸ m.window_le)) hci.symm
    omega
  · exact hmiss j hj (hit_freeOrKeyed_iff.mpr (.inr ⟨u, he⟩))

theorem hashmapRemove_rep {m : Map α} {σ : Key → Option α} (hr : Rep m σ) (key : Key) :
    Rep (hashmapRemove m key).2 (Function.update σ key none) := by
  have hscan := Represents.scan_keyed hr (m.hash_lt key)
  rw [← find_eq] at hscan
  unfold hashmapRemove
  cases hf : m.find key with
  | some c =>
      obtain ⟨v, hv, _⟩ := hscan.1 c hf
      exact Represents.clear hr hv
  | none =>
      have hσ : Function.update σ key none = σ := by
        rw [← hscan.2 hf, Function.update_eq_self]
      rw [hσ]
      exact hr

theorem hashmapGet_rep {m : Map α} {σ : Key → Option α} (hr : Rep m σ) (key : Key) :
    hashmapGet m key = match σ key with
      | some value => (.ok, some value)
      | none => (.missing, none) := by
  have hscan := Represents.scan_keyed hr (m.hash_lt key)
  rw [← find_eq] at hscan
  unfold hashmapGet
  cases hf : m.find key with
  | some c =>
      obtain ⟨v, hv, hσ⟩ := hscan.1 c hf
      simp [hv, hσ]
  | none => rw [hscan.2 hf]

theorem Call.rep {m m' : Map α} {op : Op α} {σ : Key → Option α} (hr : Rep m σ)
    (hok : Unshadowed m op) (h : Call m op m') : Rep m' (op.apply σ) := by
  cases op with
  | put key value =>
      obtain ⟨fuel, n, status, n', hp⟩ := h
      obtain rfl := hashmapPut_ok hp
      exact hashmapPut_unshadowed hr hok hp
  | get key =>
      cases h
      exact hr
  | remove key =>
      cases h
      exact hashmapRemove_rep hr key

theorem Calls.rep {m m' : Map α} {ops : List (Op α)} {σ : Key → Option α} (hr : Rep m σ)
    (h : Calls Unshadowed m ops m') : Rep m' (ops.foldl Op.apply σ) := by
  induction h generalizing σ with
  | done m => exact hr
  | call hok hc _ ih => exact ih (hc.rep hr hok)

theorem not_shadowed_of_absent {m : Map α} {σ : Key → Option α} {key : Key} (hr : Rep m σ)
    (h : σ key = none) : ¬ Shadowed m key := by
  rintro ⟨_, c, v, hc⟩
  rw [(hr.content key v).mpr ⟨c, hc⟩] at h
  simp at h

/-- From `hashmap_new`, after any returning calls none of which puts a key that is
stored behind a free slot, lookup is the last put not followed by a remove. -/
theorem hashmapGet_refines {m : Map α} {ops : List (Op α)}
    (h : Calls Unshadowed hashmapNew ops m) (key : Key) :
    hashmapGet m key = match lastPut ops key with
      | some value => (.ok, some value)
      | none => (.missing, none) :=
  hashmapGet_rep (h.rep rep_new) key

/-- Two keys of one hash position, and a hole left in front of the second. -/
theorem hashmapGet_refines_behind_hole :
    Calls Unshadowed (hashmapNew : Map ℕ) [.put ['c'] 1, .put ['d'] 2, .remove ['c']]
      (hashmapRemove ((hashmapNew.store 0 ['c'] 1).store 1 ['d'] 2) ['c']).2 ∧
    hashmapGet (hashmapRemove ((hashmapNew.store 0 ['c'] 1).store 1 ['d'] 2) ['c']).2 ['d'] =
      (.ok, some 2) := by
  have hc : ¬ Shadowed (hashmapNew : Map ℕ) ['c'] := not_shadowed_of_absent rep_new rfl
  have hput : hashmapPut (fun _ => true) 1 hashmapNew 0 ['c'] 1 =
      some (.ok, hashmapNew.store 0 ['c'] 1, 0) := rfl
  have hr : Rep (hashmapNew.store 0 ['c'] 1) (Function.update (fun _ => none) ['c'] (some 1)) :=
    hashmapPut_unshadowed rep_new hc hput
  have hd : ¬ Shadowed (hashmapNew.store 0 ['c'] 1) ['d'] := not_shadowed_of_absent hr rfl
  have hrun : Calls Unshadowed (hashmapNew : Map ℕ)
      [.put ['c'] 1, .put ['d'] 2, .remove ['c']]
      (hashmapRemove ((hashmapNew.store 0 ['c'] 1).store 1 ['d'] 2) ['c']).2 :=
    .call hc ⟨1, 0, .ok, 0, rfl⟩ (.call hd ⟨1, 0, .ok, 0, rfl⟩ (.call trivial rfl (.done _)))
  exact ⟨hrun, hashmapGet_refines hrun ['d']⟩

/-- The same two keys: putting `d` again fills the hole, and removing `d` once
brings its first value back. -/
theorem hashmapGet_stale_after_remove :
    ∃ m : Map ℕ, Calls (fun _ _ => True) hashmapNew
        [.put ['c'] 1, .put ['d'] 2, .remove ['c'], .put ['d'] 3, .remove ['d']] m ∧
      lastPut ([.put ['c'] 1, .put ['d'] 2, .remove ['c'], .put ['d'] 3, .remove ['d']] :
        List (Op ℕ)) ['d'] = none ∧
      hashmapGet m ['d'] = (.ok, some 2) := by
  refine ⟨_, .call trivial ⟨1, 0, .ok, 0, rfl⟩ (.call trivial ⟨1, 0, .ok, 0, rfl⟩
    (.call trivial rfl (.call trivial ⟨1, 0, .ok, 0, rfl⟩ (.call trivial rfl (.done _))))),
    rfl, ?_⟩
  decide

/-- The condition is exact: every shadowed put is one remove away from a wrong
answer. The old copy survives the put and resurfaces when the new one goes. -/
theorem shadowed_put_resurfaces {m m' : Map α} {σ : Key → Option α} {key : Key} {value : α}
    {fuel n n' : ℕ} {status : Status} (hr : Rep m σ) (hs : Shadowed m key)
    (h : hashmapPut (fun _ => true) fuel m n key value = some (status, m', n')) :
    ∃ old, σ key = some old ∧
      hashmapGet (hashmapRemove m' key).2 key = (.ok, some old) := by
  obtain ⟨⟨index, hh, hfree⟩, c, old, hc⟩ := hs
  have hσ : σ key = some old := (hr.content key old).mpr ⟨c, hc⟩
  refine ⟨old, hσ, ?_⟩
  have hm' : m' = m.store index key value := by
    cases fuel with
    | zero => simp [hashmapPut] at h
    | succ fuel =>
        simp only [hashmapPut, hh, Option.some.injEq, Prod.mk.injEq] at h
        exact h.2.1.symm
  subst hm'
  have hfind := find_store hh value
  have hlt := index_lt_of_hashmapHash hh
  have hdata : (hashmapRemove (m.store index key value) key).2.data = m.data := by
    simp only [hashmapRemove, hfind]
    change (m.data.set index (some (key, value))).set index none = m.data
    rw [List.set_set]
    apply List.ext_getElem?
    intro d
    rw [List.getElem?_set]
    split_ifs with hd
    · rw [← hd, hfree]
    · rfl
  have hr' : Rep (hashmapRemove (m.store index key value) key).2 σ := by
    unfold Rep
    rw [hdata]
    exact hr
  rw [hashmapGet_rep hr', hσ]

end Dowse.HashmapRefinement
