import Dowse.BlocklistFind
import Dowse.GuardedRuns

/-!
# The room of the blocklist array

`blocklist_append` compares the count with the recorded size and enlarges the array when they
are equal. `blocklist_clear` shrinks the array and records it. `blocklist_merge` shrinks the
array to the entries that are left and keeps the recorded size, so that a later append finds
room that is no longer there. A merge that absorbs nothing does not touch the array.
-/
namespace Dowse.Blocklist
open CStrings GuardedRuns

/-- The operations on the list. The conversion may differ from file to file, and the C library
may sort equal lower ends differently each time. -/
inductive Op
  | append (iconv : Text → Option Text) (ipMin ipMax : UInt32) (name : Text)
  | clear (start : ℕ)
  | sort (qsort : List Entry → List Entry)
  | merge (qsort : List Entry → List Entry)

def next (lowmem : Bool) (b : Table) : Op → Table
  | .append iconv ipMin ipMax name => blocklistAppend lowmem iconv b ipMin ipMax name
  | .clear start => blocklistClear b start
  | .sort qsort => blocklistSort qsort b
  | .merge qsort => (blocklistMerge lowmem qsort b).getD b

/-- The calls that are made and return: a start inside the list, a sort as the C library
promises it, and a merge that reads no null name. -/
def Returns (lowmem : Bool) (b : Table) : Op → Prop
  | .append _ _ _ _ => True
  | .clear start => start ≤ b.entries.length
  | .sort qsort => SortsByMin qsort
  | .merge qsort => SortsByMin qsort ∧ (blocklistMerge lowmem qsort b).isSome

/-- The recorded size is at least the count, and the array has that many elements. -/
def Capacity (b : Table) : Prop := b.entries.length ≤ b.size ∧ b.size ≤ b.allocated

/-- An append from here writes to an element of the array. -/
def AppendsInside (lowmem : Bool) (b : Table) : Prop := ∀ iconv ipMin ipMax name,
  b.entries.length < (blocklistAppend lowmem iconv b ipMin ipMax name).allocated

/-- The entry ends below the next one and leaves an address between them. -/
def Gap (e f : Entry) : Prop := e.ipMax ≠ top ∧ e.ipMax + 1 < f.ipMin

/-- A merge is called where it finds nothing to merge. -/
def NothingToMerge (b : Table) : Op → Prop
  | .merge _ => b.entries.IsChain Gap
  | _ => True

section Pass

theorem reach_eq_zero_iff (e f : Entry) (es : List Entry) :
    (reach e.ipMax (f :: es)).1 = 0 ↔ Gap e f := by
  simp only [reach, Gap]
  split_ifs with htop hgap <;> simp_all

theorem mergeFrom_length (lowmem : Bool) (fuel : ℕ) (numips : UInt32) (es : List Entry) :
    (mergeFrom lowmem fuel numips es).entries.length = es.length := by
  induction fuel generalizing numips es with
  | zero => rfl
  | succ fuel ih =>
      cases es with
      | nil => rfl
      | cons e es =>
          have hle := reach_le e.ipMax es
          simp only [mergeFrom, List.length_cons, List.length_append, List.length_map,
            List.length_take, ih, List.length_drop]
          omega

/-- The first entry is never absorbed. -/
theorem mergeFrom_merged_lt (lowmem : Bool) (fuel : ℕ) (numips : UInt32) {es : List Entry}
    (hne : es ≠ []) : (mergeFrom lowmem fuel numips es).merged < es.length := by
  induction fuel generalizing numips es with
  | zero => exact List.length_pos_iff.mpr hne
  | succ fuel ih =>
      cases es with
      | nil => exact absurd rfl hne
      | cons e es =>
          have hle := reach_le e.ipMax es
          simp only [mergeFrom, List.length_cons]
          generalize countRange numips _ = counted
          by_cases hrest : es.drop (reach e.ipMax es).1 = []
          · rw [hrest]
            have hzero : (mergeFrom lowmem fuel counted []).merged = 0 := by cases fuel <;> rfl
            omega
          · have hlt := ih counted hrest
            rw [List.length_drop] at hlt
            omega

theorem mergeFrom_merged_eq_zero_iff (lowmem : Bool) (fuel : ℕ) (numips : UInt32)
    (es : List Entry) (hfuel : es.length ≤ fuel) :
    (mergeFrom lowmem fuel numips es).merged = 0 ↔ es.IsChain Gap := by
  induction fuel generalizing numips es with
  | zero =>
      rw [List.length_eq_zero_iff.mp (Nat.le_zero.mp hfuel)]
      exact iff_of_true rfl .nil
  | succ fuel ih =>
      cases es with
      | nil => exact iff_of_true rfl .nil
      | cons e es =>
          simp only [mergeFrom, Nat.add_eq_zero_iff]
          generalize countRange numips _ = counted
          cases es with
          | nil =>
              refine iff_of_true ⟨rfl, ?_⟩ (.singleton e)
              cases fuel <;> rfl
          | cons f es =>
              rw [reach_eq_zero_iff, List.isChain_cons_cons]
              refine and_congr_right fun hgap => ?_
              rw [(reach_eq_zero_iff e f es).mpr hgap, List.drop_zero]
              exact ih _ _ (Nat.le_of_succ_le_succ hfuel)

end Pass

/-- Where nothing merges, the array stays as it is. -/
theorem mergeLoop_room_of_chain {lowmem : Bool} {qsort : List Entry → List Entry} {fuel : ℕ}
    {b b' : Table} (hchain : b.entries.IsChain Gap)
    (h : mergeLoop lowmem qsort (fuel + 1) b = some b') :
    b'.entries.length = b.entries.length ∧ b'.size = b.size ∧ b'.allocated = b.allocated := by
  have hmerged := (mergeFrom_merged_eq_zero_iff lowmem _ 0 b.entries (Nat.le_refl _)).mpr hchain
  simp only [mergeLoop, hmerged, if_true] at h
  split_ifs at h
  · cases h
    exact ⟨rfl, rfl, rfl⟩
  · cases h
    exact ⟨mergeFrom_length _ _ _ _, rfl, rfl⟩

/-- A call keeps the recorded size, does not lengthen the list, and leaves the array as it was
or with no more elements than there were entries. -/
theorem mergeLoop_room {lowmem : Bool} {qsort : List Entry → List Entry} {fuel : ℕ}
    {b b' : Table} (h : mergeLoop lowmem qsort fuel b = some b') :
    b'.size = b.size ∧ (b'.allocated = b.allocated ∨ b'.allocated ≤ b.entries.length) := by
  induction fuel generalizing b with
  | zero =>
      cases h
      exact ⟨rfl, .inl rfl⟩
  | succ fuel ih =>
      simp only [mergeLoop] at h
      split_ifs at h with hnil hnull hmerged
      · cases h
        exact ⟨rfl, .inl rfl⟩
      · cases h
        exact ⟨rfl, .inl rfl⟩
      · obtain ⟨hsize, halloc⟩ := ih h
        refine ⟨hsize, .inr ?_⟩
        rcases halloc with halloc | halloc
        · exact halloc ▸ Nat.sub_le _ _
        · exact halloc.trans ((List.length_take_le _ _).trans (Nat.sub_le _ _))

/-- Where something merges, the array is left with fewer elements than there were entries. -/
theorem mergeLoop_room_of_not_chain {lowmem : Bool} {qsort : List Entry → List Entry} {fuel : ℕ}
    {b b' : Table} (hchain : ¬ b.entries.IsChain Gap)
    (h : mergeLoop lowmem qsort (fuel + 1) b = some b') :
    b'.size = b.size ∧ b'.allocated < b.entries.length := by
  have hne : b.entries ≠ [] := by
    intro hnil
    exact hchain (hnil ▸ .nil)
  have hmerged := (mergeFrom_merged_eq_zero_iff lowmem _ 0 b.entries (Nat.le_refl _)).not.mpr hchain
  have hlt := mergeFrom_merged_lt lowmem b.entries.length 0 hne
  simp only [mergeLoop, if_neg hne, if_neg hmerged] at h
  split_ifs at h
  obtain ⟨hsize, halloc⟩ := mergeLoop_room h
  dsimp only at hsize halloc
  refine ⟨hsize, ?_⟩
  rcases halloc with halloc | halloc
  · rw [halloc]
    omega
  · have hlength := List.length_take_le
      (b.entries.length - (mergeFrom lowmem b.entries.length 0 b.entries).merged)
      (qsort (mergeFrom lowmem b.entries.length 0 b.entries).entries)
    omega

section Operations
variable {lowmem : Bool} {b : Table}

theorem capacity_append (h : Capacity b) (iconv : Text → Option Text) (ipMin ipMax : UInt32)
    (name : Text) : Capacity (blocklistAppend lowmem iconv b ipMin ipMax name) := by
  obtain ⟨hcount, hsize⟩ := h
  simp only [Capacity, blocklistAppend, List.length_append, List.length_singleton]
  split_ifs with hfull
  · exact ⟨by rw [hfull]; exact Nat.add_le_add_left (by decide) _, Nat.le_refl _⟩
  · exact ⟨Nat.lt_of_le_of_ne hcount (Ne.symm hfull), hsize⟩

theorem capacity_clear {start : ℕ} : Capacity (blocklistClear b start) := by
  simp only [blocklistClear]
  split_ifs
  · exact ⟨Nat.le_refl _, Nat.le_refl _⟩
  · exact ⟨List.length_take_le _ _, Nat.le_refl _⟩

theorem capacity_sort (h : Capacity b) {qsort : List Entry → List Entry}
    (hq : SortsByMin qsort) : Capacity (blocklistSort qsort b) := by
  obtain ⟨hcount, hsize⟩ := h
  exact ⟨by rwa [blocklistSort, (hq.perm _).length_eq], hsize⟩

theorem capacity_merge_iff (h : Capacity b) {qsort : List Entry → List Entry}
    (hsome : (blocklistMerge lowmem qsort b).isSome) :
    Capacity ((blocklistMerge lowmem qsort b).getD b) ↔ b.entries.IsChain Gap := by
  obtain ⟨b', hb'⟩ := Option.isSome_iff_exists.mp hsome
  rw [hb', Option.getD_some]
  obtain ⟨hcount, hsize⟩ := h
  by_cases hchain : b.entries.IsChain Gap
  · obtain ⟨hlength, hsize', halloc⟩ := mergeLoop_room_of_chain hchain hb'
    refine iff_of_true ?_ hchain
    rw [Capacity, hlength, hsize', halloc]
    exact ⟨hcount, hsize⟩
  · obtain ⟨hsize', halloc⟩ := mergeLoop_room_of_not_chain hchain hb'
    refine iff_of_false ?_ hchain
    intro hcapacity
    have hroom := hcapacity.2
    omega

theorem capacity_next_iff (h : Capacity b) {op : Op} (hop : Returns lowmem b op) :
    Capacity (next lowmem b op) ↔ NothingToMerge b op := by
  cases op with
  | append iconv ipMin ipMax name =>
      exact iff_of_true (capacity_append h iconv ipMin ipMax name) trivial
  | clear start => exact iff_of_true capacity_clear trivial
  | sort qsort => exact iff_of_true (capacity_sort h hop) trivial
  | merge qsort => exact capacity_merge_iff h hop.2

theorem appendsInside_of_capacity (h : Capacity b) : AppendsInside lowmem b := by
  intro iconv ipMin ipMax name
  have happend := @capacity_append lowmem _ h iconv ipMin ipMax name
  refine Nat.lt_of_lt_of_le ?_ (happend.1.trans happend.2)
  simp [blocklistAppend]

end Operations

/-- In a run from the empty list whose calls all return, the array has room for the recorded
size in every state, and an append from there stays inside it, if and only if every merge is
called where it finds nothing to merge. -/
theorem capacity_throughout_iff {lowmem : Bool} {ops : List Op}
    (h : Along (next lowmem) (Returns lowmem) blocklistInit ops) :
    Throughout (next lowmem) (fun b => Capacity b ∧ AppendsInside lowmem b) blocklistInit ops ↔
      Along (next lowmem) NothingToMerge blocklistInit ops := by
  have hcapacity : Throughout (next lowmem) Capacity blocklistInit ops ↔
      Along (next lowmem) NothingToMerge blocklistInit ops :=
    throughout_iff_along (fun _ hb => hb) (fun _ _ hb hop => capacity_next_iff hb hop)
      (fun _ _ hb hop hgap => (capacity_next_iff hb hop).mpr hgap)
      ⟨Nat.le_refl _, Nat.le_refl _⟩ h
  rw [← hcapacity]
  exact ⟨fun hall => hall.mono fun _ hb => hb.1,
    fun hall => hall.mono fun _ hb => ⟨hb, appendsInside_of_capacity hb⟩⟩

/-- Two ranges with a gap, merged, and a third one behind them. -/
theorem capacity_throughout_apart :
    Throughout (next false) (fun b => Capacity b ∧ AppendsInside false b) blocklistInit
      [.append some 1 5 ['a'], .append some 9 12 ['b'], .sort sortWidestFirst,
        .merge sortWidestFirst, .append some 20 30 ['c']] := by
  refine (capacity_throughout_iff ?_).mpr ⟨trivial, trivial, trivial, ?_, trivial, trivial⟩
  · exact ⟨trivial, trivial, sortsByMin_sortBy Wider,
      ⟨sortsByMin_sortBy Wider, by decide⟩, trivial, trivial⟩
  · exact .cons_cons ⟨by decide, by decide⟩ (.singleton _)

/-- After a merge of two ranges the array has one element and the recorded size is that of a
chunk, so that the next append writes behind the array. -/
theorem append_behind_array :
    let b := blocklistSort sortWidestFirst (blocklistAppend false some
      (blocklistAppend false some blocklistInit 1 5 ['a']) 3 8 ['b'])
    ∃ b', blocklistMerge false sortWidestFirst b = some b' ∧ b'.entries.length = 1 ∧
      b'.size = 16384 ∧ b'.allocated = 1 ∧
      (blocklistAppend false some b' 20 30 ['c']).allocated = 1 :=
  ⟨_, rfl, by decide, by decide, by decide, by decide⟩

end Dowse.Blocklist
