import Dowse.HashmapInvariant

/-!
# Tables that are only inserted into

Without removals every window stays contiguous, so a put never stops in front of the key it
looks for. A growth walks the old array in slot order, which is not the order of insertion,
and one of its puts can find a window full and grow the table again while the walk goes on.
`Grows` lists the growths that a put goes through, the nested ones included; each of them
keeps what every lookup finds.
-/
namespace Dowse.HashmapInvariant
open CyclicProbing Hashmap HashmapRefinement

variable {α : Type}

/-- What a growth can happen in: a put, or the loop that moves slots. -/
inductive Work (α : Type) where
  | put (key : Key) (value : α)
  | move (slots : List (Option (Key × α)))

/-- The growths of a put or of a moving loop, each with the map before and after it. The loop
of a growth runs on the grown table, and its puts grow in turn. -/
inductive Grows : Work α → Map α → ℕ → Map α → Map α → Prop
  | own {m u : Map α} {n k fuel : ℕ} {key : Key} {value : α} : hashmapHash m key = none →
      hashmapRehash (fun _ => true) (hashmapPut (fun _ => true) fuel) m n = some (.ok, u, k) →
      Grows (.put key value) m n m u
  | inside {m before after : Map α} {n : ℕ} {key : Key} {value : α} : hashmapHash m key = none →
      Grows (.move m.data) m.grown (n + 1) before after → Grows (.put key value) m n before after
  | again {m u before after : Map α} {n k fuel : ℕ} {key : Key} {value : α} :
      hashmapHash m key = none →
      hashmapRehash (fun _ => true) (hashmapPut (fun _ => true) fuel) m n = some (.ok, u, k) →
      Grows (.put key value) u k before after → Grows (.put key value) m n before after
  | free {m before after : Map α} {n : ℕ} {slots : List (Option (Key × α))} :
      Grows (.move slots) m n before after → Grows (.move (none :: slots)) m n before after
  | moving {m before after : Map α} {n : ℕ} {key : Key} {value : α}
      {slots : List (Option (Key × α))} : Grows (.put key value) m n before after →
      Grows (.move (some (key, value) :: slots)) m n before after
  | moved {m u before after : Map α} {n k fuel : ℕ} {key : Key} {value : α}
      {slots : List (Option (Key × α))} :
      hashmapPut (fun _ => true) fuel m n key value = some (.ok, u, k) →
      Grows (.move slots) u k before after →
      Grows (.move (some (key, value) :: slots)) m n before after

/-- Every growth on the way, however deep, is between maps that represent the same function. -/
theorem Grows.rep {work : Work α} {m before after : Map α} {n : ℕ}
    (h : Grows work m n before after) {σ : Key → Option α} (hr : Rep m σ) (hg : Gapless m) :
    ∃ τ, Rep before τ ∧ Rep after τ := by
  induction h generalizing σ with
  | own _ hrehash =>
      obtain ⟨hru, -⟩ := hashmapRehash_rep hrehash
      rw [Represents.overlay_eq hr] at hru
      exact ⟨σ, hr, hru⟩
  | @inside m _ _ _ _ _ _ _ ih => exact ih (rep_grown m) (gapless_grown m)
  | again _ hrehash _ ih =>
      obtain ⟨hru, hgu⟩ := hashmapRehash_rep hrehash
      exact ih hru hgu
  | free _ ih => exact ih hr hg
  | moving _ ih => exact ih hr hg
  | moved hput _ ih =>
      exact ih (hashmapPut_unshadowed hr (not_shadowed_of_gapless hr hg) hput)
        (hashmapPut_gapless hr hg hput)

theorem Grows.get {work : Work α} {m before after : Map α} {n : ℕ}
    (h : Grows work m n before after) {σ : Key → Option α} (hr : Rep m σ) (hg : Gapless m)
    (key : Key) : hashmapGet after key = hashmapGet before key := by
  obtain ⟨τ, hbefore, hafter⟩ := h.rep hr hg
  rw [hashmapGet_rep hbefore, hashmapGet_rep hafter]

/-- The puts of these entries from `hashmap_new`, with every allocation succeeding. -/
def Puts (entries : List (Key × α)) (m : Map α) : Prop :=
  Calls (fun _ _ => True) hashmapNew (entries.map fun e => .put e.1 e.2) m

/-- The map that these puts give, when none of them needs more than two growths. -/
def filled (entries : List (Key × ℕ)) : Option (Map ℕ) :=
  entries.foldlM (fun m e => (hashmapPut (fun _ => true) 3 m 0 e.1 e.2).map (·.2.1)) hashmapNew

theorem puts_of_filled {entries : List (Key × ℕ)} {m : Map ℕ} (h : filled entries = some m) :
    Puts entries m := by
  unfold filled at h
  unfold Puts
  generalize hashmapNew = u at h ⊢
  induction entries generalizing u with
  | nil =>
      cases h
      exact .done m
  | cons e entries ih =>
      rw [List.foldlM_cons] at h
      obtain ⟨v, hv, hrest⟩ := Option.bind_eq_some_iff.mp h
      obtain ⟨⟨status, v', k⟩, hput, rfl⟩ := Option.map_eq_some_iff.mp hv
      exact .call trivial ⟨3, 0, status, k, hput⟩ (ih v' hrest)

def record (σ : Key → Option α) (e : Key × α) : Key → Option α :=
  Function.update σ e.1 (some e.2)

theorem gapless_new : Gapless (hashmapNew : Map α) := gapFree_replicate _

theorem calls_puts_rep {ok : Map α → Op α → Prop} {entries : List (Key × α)} {m m' : Map α}
    {σ : Key → Option α} (hr : Rep m σ) (hg : Gapless m)
    (h : Calls ok m (entries.map fun e => .put e.1 e.2) m') :
    Rep m' (entries.foldl record σ) ∧ Gapless m' := by
  induction entries generalizing m σ with
  | nil =>
      cases h
      exact ⟨hr, hg⟩
  | cons e entries ih =>
      cases h with
      | call _ hcall hrest =>
          obtain ⟨fuel, n, status, n', hput⟩ := hcall
          obtain rfl := hashmapPut_ok hput
          exact ih (hashmapPut_unshadowed hr (not_shadowed_of_gapless hr hg) hput)
            (hashmapPut_gapless hr hg hput) hrest

theorem Puts.rep {entries : List (Key × α)} {m : Map α} (h : Puts entries m) :
    Rep m (entries.foldl record fun _ => none) ∧
      Gapless m := calls_puts_rep rep_new gapless_new h

/-- The last entry with the key has the value. -/
def LastEntry (entries : List (Key × α)) (key : Key) (value : α) : Prop :=
  ∃ earlier later, entries = earlier ++ (key, value) :: later ∧ key ∉ later.map Prod.fst

theorem foldl_record_of_notMem {entries : List (Key × α)} {key : Key} {σ : Key → Option α}
    (h : key ∉ entries.map Prod.fst) :
    entries.foldl record σ key = σ key := by
  induction entries generalizing σ with
  | nil => rfl
  | cons e entries ih =>
      rw [List.map_cons, List.mem_cons, not_or] at h
      rw [List.foldl_cons, ih h.2, record, Function.update_of_ne h.1]

theorem LastEntry.foldl_record {entries : List (Key × α)} {key : Key} {value : α}
    (h : LastEntry entries key value) (σ : Key → Option α) :
    entries.foldl record σ key = some value := by
  obtain ⟨earlier, later, rfl, hlater⟩ := h
  rw [List.foldl_append, List.foldl_cons, foldl_record_of_notMem hlater, record,
    Function.update_self]

theorem isSome_foldl_record {entries : List (Key × α)} {key : Key} (σ : Key → Option α)
    (h : key ∈ entries.map Prod.fst) : (entries.foldl record σ key).isSome := by
  induction entries generalizing σ with
  | nil => cases h
  | cons e entries ih =>
      by_cases hlater : key ∈ entries.map Prod.fst
      · exact ih _ hlater
      · obtain rfl : key = e.1 := (List.mem_cons.mp h).resolve_right hlater
        rw [List.foldl_cons, foldl_record_of_notMem hlater, record, Function.update_self]
        rfl

/-- No key is stored twice, and no slot between the hash position of a key and the slot of the
key is free. -/
structure Contiguous (m : Map α) : Prop where
  once : Distinct m.data
  filled : ∀ (c : ℕ) (key : Key) (value : α), m.data[c]? = some (some (key, value)) →
    ∃ i, c = (hashmapHashInt m.tableSize key + i) % m.tableSize ∧
      ∀ j < i, m.data[(hashmapHashInt m.tableSize key + j) % m.tableSize]? ≠ some none

theorem contiguous_of_gapless {m : Map α} {σ : Key → Option α} (hr : Rep m σ) (hg : Gapless m) :
    Contiguous m where
  once := hr.unique
  filled c key value hc := by
    obtain ⟨i, hi, hci⟩ := hr.window c key value hc
    have hfull := hg key value i hi (by rw [← hci]; exact hc)
    rw [m.length_data] at hci hfull
    exact ⟨i, hci, hfull⟩

end Dowse.HashmapInvariant
