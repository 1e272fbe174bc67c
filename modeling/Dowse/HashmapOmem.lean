import Dowse.HashmapMoves

/-!
# A put that runs out of memory

`hashmap_rehash` installs the empty table of twice the size before it moves the elements. When
the table cannot be allocated nothing has happened. But moving an element is a put, which may
ask for a growth of its own, and when that one fails the elements that were not yet moved are
gone. Which put asks for the allocation that fails is decided by the map, the key and the number
of the allocation: after `j` doublings it is the first key in `MoveOrder` that does not fit. A put
that returns `MAP_OMEM` leaves all lookups as they were exactly if the first allocation has failed,
or if all elements fit the table of the failure, from a map where the copies of a key do not
disagree.
-/
namespace Dowse.HashmapInvariant
open CyclicProbing Hashmap HashmapRefinement ProbePlacement

variable {α : Type}

/-- All elements of the map have a place in the table that the put has reached when the first of
its allocations fails. -/
def AllMoved (calloc : ℕ → Bool) (m : Map α) (n : ℕ) (key : Key) : Prop :=
  ∃ j keys, FailsAt calloc n j ∧ MoveOrder m key j (keys ++ [key]) ∧
    FitsTable (m.tableSize * 2 ^ j) keys

/-- For every key, the copy that a lookup finds has the value of the last copy in slot order. -/
def Unambiguous (m : Map α) : Prop :=
  ∀ key, (hashmapGet m key).2 = overlay (fun _ => none) m.data key

section Lost

def HashPut : PutProp α := fun m _ key _ status _ _ => status = .omem → hashmapHash m key = none

theorem putCases_hash (calloc : ℕ → Bool) :
    PutCases (α := α) calloc HashPut (fun _ _ _ _ _ _ => True) where
  stored _ _ h := nomatch h
  refused hh _ _ _ := hh
  stopped hh _ _ _ _ := hh
  grown hh _ _ _ _ := hh
  moved _ _ := trivial
  free _ := trivial
  put _ _ := trivial
  failed _ _ := trivial

/-- A moving loop that is stopped loses the key it was stopped at. -/
def LostMove : MoveProp α := fun curr m _ status m' _ =>
  status = .omem → ∀ τ, Rep m τ → Gapless m → Invariant m →
    m.size + used curr < m.tableSize / 2 → ∃ k, Has curr k ∧ ¬ Has m'.data k

theorem moveCases_lost : MoveCases (α := α)
    (((RepPut.and SizePut).and KeysPut).and HashPut) LostMove where
  moved _ _ h := nomatch h
  free {curr m n status m' n'} hmove hstatus τ hr hg hm hroom := by
    obtain ⟨k, hk, hlost⟩ := hmove hstatus τ hr hg hm hroom
    exact ⟨k, has_cons_none.mpr hk, hlost⟩
  put {key value curr m n u i status m' n'} hput hmove hstatus τ hr hg hm hroom := by
    obtain ⟨⟨⟨hrep, hsize⟩, -⟩, -⟩ := hput
    obtain ⟨hru, hgu⟩ := hrep τ hr (not_shadowed_of_gapless hr hg) rfl
    obtain ⟨hu, hle, htable⟩ := hsize hm
    rw [used_some] at hroom
    obtain ⟨k, hk, hlost⟩ := hmove hstatus _ hru (hgu hg) hu (by omega)
    exact ⟨k, (has_cons_some value).mpr (.inr hk), hlost⟩
  failed {key value m n m' n'} hput curr hstatus τ hr hg hm hroom := by
    obtain ⟨⟨-, hkeys⟩, hhash⟩ := hput
    rw [used_some] at hroom
    refine ⟨key, (has_cons_some value).mpr (.inl rfl), fun hkey => ?_⟩
    rcases hkeys key hkey with hold | hnew
    · exact not_has_of_hash hm (by omega) (hhash hstatus) hold
    · exact nomatch hnew.1

/-- A put that looks for a place behind all elements fails for itself, and the map is kept, or
while it moves them, and a key is lost. -/
def LastPut (calloc : ℕ → Bool) : PutProp α := fun m n key _ status m' _ =>
  status = .omem → Settled Set.univ m → ∀ root n₀ before,
    Reached calloc root n₀ key m n before [key] →
      (AllMoved calloc root n₀ key ∧ ∀ σ, Rep m σ → Rep m' σ) ∨
      (Stuck calloc root n₀ key [key] ∧ ∃ k, Has m.data k ∧ ¬ Has m'.data k)

/-- The same for a put on any map, whose first allocation may fail. -/
def FirstPut (calloc : ℕ → Bool) : PutProp α := fun m n key _ status m' _ =>
  status = .omem → Invariant m →
    (calloc n = false ∧ m' = m) ∨
    (AllMoved calloc m n key ∧ Rep m' (overlay (fun _ => none) m.data)) ∨
    (Stuck calloc m n key [key] ∧ ∃ k, Has m.data k ∧ ¬ Has m'.data k)

theorem Reached.allMoved {calloc : ℕ → Bool} {root m : Map α} {n₀ n : ℕ} {key : Key}
    {before : List Key} (h : Reached calloc root n₀ key m n before [key])
    (hcalloc : calloc n = false) : AllMoved calloc root n₀ key := by
  obtain ⟨j, hfails, hsize, horder⟩ := h.refused hcalloc
  obtain ⟨slot, harranged⟩ := h.arranged
  exact ⟨j, before, hfails, horder, slot, hsize ▸ harranged.placement⟩

theorem putCases_omem (calloc : ℕ → Bool) : ∃ (P : PutProp α) (M : MoveProp α),
    PutCases calloc (P.and ((LastPut calloc).and (FirstPut calloc))) M := by
  have hlost := (((putCases_step (α := α) calloc).and (putCases_keys calloc)).and
    (putCases_hash calloc)).withMove moveCases_lost
  refine ⟨_, _, (hlost.and (putCases_order calloc)).extend ?_ ?_ ?_ ?_⟩
  · intro m n key index _ value
    exact ⟨nofun, nofun⟩
  · intro m n key hh hcalloc value
    exact ⟨fun _ _ root n₀ before h => .inl ⟨h.allMoved hcalloc, fun _ hr => hr⟩,
      fun _ _ => .inl ⟨hcalloc, rfl⟩⟩
  · rintro m n key m' n' hh hcalloc ⟨⟨-, hlost⟩, -, horder⟩ value
    have hkey : Invariant m → ∃ k, Has m.data k ∧ ¬ Has m'.data k := fun hm =>
      hlost rfl _ (rep_grown m) (gapless_grown m) hm.grown (room_grown hm)
    refine ⟨fun _ hm root n₀ before h => .inr ⟨?_, hkey hm.invariant⟩,
      fun _ hm => .inr (.inr ⟨?_, hkey hm⟩)⟩
    · exact (horder (.grown hm.invariant) (room_grown hm.invariant) root n₀ key [] [key]
        (h.grow hm.invariant hm.room hh hcalloc)).2 rfl
    · exact (horder (.grown hm) (room_grown hm) m n key [] [key] (reached_root hcalloc)).2 rfl
  · rintro m n key value u k status m' n' hh hcalloc ⟨⟨⟨⟨-, hkeys⟩, -⟩, -⟩, hstep, horder⟩
      ⟨hlast, -⟩
    have hback : (∃ x, Has u.data x ∧ ¬ Has m'.data x) → ∃ x, Has m.data x ∧ ¬ Has m'.data x :=
      fun ⟨x, hx, hlost⟩ => ⟨x, (hkeys x hx).resolve_left (not_has_grown m x), hlost⟩
    obtain ⟨hru, -⟩ := hstep.1 _ (rep_grown m) (gapless_grown m) rfl
    refine ⟨fun hstatus hm root n₀ before h => ?_, fun hstatus hm => .inr ?_⟩
    · obtain ⟨before', hu⟩ := (horder (.grown hm.invariant) (room_grown hm.invariant) root n₀ key
        [] [key] (h.grow hm.invariant hm.room hh hcalloc)).1 rfl
      refine (hlast hstatus (hstep.settled hm.invariant) root n₀ before' hu).imp
        (fun ⟨hall, hkept⟩ => ⟨hall, fun σ hr => hkept σ ?_⟩) (And.imp_right hback)
      rwa [Represents.overlay_eq hr] at hru
    · obtain ⟨before', hu⟩ := (horder (.grown hm) (room_grown hm) m n key [] [key]
        (reached_root hcalloc)).1 rfl
      exact (hlast hstatus (hstep.settled hm) m n before' hu).imp
        (And.imp_right fun hkept => hkept _ hru) (And.imp_right hback)

end Lost

theorem AllMoved.not_stuck {calloc : ℕ → Bool} {m : Map α} {n : ℕ} {key : Key}
    (h : AllMoved calloc m n key) : ¬ Stuck calloc m n key [key] := by
  rintro ⟨i, before, x, between, hfails', horder', hnot⟩
  obtain ⟨j, keys, hfails, horder, hfits⟩ := h
  obtain rfl := hfails.unique hfails'
  have hsplit := horder.unique horder'
  rw [← List.cons_append, ← List.append_assoc] at hsplit
  obtain rfl := (List.append_inj' hsplit rfl).1
  rw [List.append_cons] at hfits
  exact hnot hfits.left

theorem hashmapGet_eq (m : Map α) (key : Key) : hashmapGet m key =
    match (hashmapGet m key).2 with
    | some value => (.ok, some value)
    | none => (.missing, none) := by
  unfold hashmapGet
  cases hfind : m.find key with
  | none => rfl
  | some c =>
      obtain ⟨v, hv⟩ := slot_of_find hfind
      simp [hv]

theorem hashmapGet_snd {m : Map α} {σ : Key → Option α} (hr : Rep m σ) (key : Key) :
    (hashmapGet m key).2 = σ key := by
  rw [hashmapGet_rep hr]
  cases σ key <;> rfl

/-- On a reachable map, a put that returns `MAP_OMEM` leaves every lookup as it was if and only
if its first allocation fails, or all elements fit the table in which an allocation first fails
and the copies of each key agree. -/
theorem omem_intact_iff {m m' : Map α} (hm : Reachable m) {calloc : ℕ → Bool} {fuel n n' : ℕ}
    {key : Key} {value : α}
    (h : hashmapPut calloc fuel m n key value = some (.omem, m', n')) :
    (∀ k, hashmapGet m' k = hashmapGet m k) ↔
      calloc n = false ∨ (AllMoved calloc m n key ∧ Unambiguous m) := by
  have hinv := hm.invariant
  have hinv' := @Answers.invariant _ _ _ (.put key value) _ hinv ⟨calloc, fuel, n, n', h⟩
  obtain ⟨P, M, hcases⟩ := putCases_omem (α := α) calloc
  rcases (put_cases hcases fuel m n key value _ m' n' h).2.2.2 rfl hinv with
    ⟨hcalloc, rfl⟩ | ⟨hall, hr⟩ | ⟨hstuck, k, hk, hlost⟩
  · exact iff_of_true (fun _ => rfl) (.inl hcalloc)
  · constructor
    · intro hsame
      refine .inr ⟨hall, fun k => ?_⟩
      rw [← hsame k]
      exact hashmapGet_snd hr k
    · rintro (hcalloc | ⟨-, hagree⟩) k
      · obtain ⟨j, keys, hfails, horder, -⟩ := hall
        exact nomatch (hfails.1 0 horder.pos).symm.trans hcalloc
      · rw [hashmapGet_eq m', hashmapGet_eq m, hashmapGet_snd hr, hagree]
  · refine iff_of_false (fun hsame => hlost ?_) ?_
    · rwa [← hinv'.get_ok_iff_has, hsame, hinv.get_ok_iff_has]
    · rintro (hcalloc | ⟨hall, -⟩)
      · obtain ⟨j, before, x, between, hfails, horder, -⟩ := hstuck
        exact nomatch (hfails.1 0 horder.pos).symm.trans hcalloc
      · exact hall.not_stuck hstuck

/-- Eight keys of one hash position in the tables of 16, 32 and 64 slots. -/
def eightKeys : List (Key × ℕ) := [("e".toList, 1), ("ey".toList, 2), ("fw".toList, 3),
  ("ia".toList, 4), ("kk".toList, 5), ("uc".toList, 6), ("uz".toList, 7), ("zp".toList, 8)]

theorem omem_intact_iff_half_full : ∃ m m' : Map ℕ, filled eightKeys = some m ∧
    hashmapPut (fun _ => false) 1 m 0 "az".toList 9 = some (.omem, m', 1) ∧
    ∀ k, hashmapGet m' k = hashmapGet m k := by
  have hrun : ((filled eightKeys).bind fun m =>
      (hashmapPut (fun _ => false) 1 m 0 "az".toList 9).map fun r => (r.1, r.2.2)) =
        some (.omem, 1) := by
    decide +kernel
  obtain ⟨m, hm, hput⟩ := Option.bind_eq_some_iff.mp hrun
  obtain ⟨⟨status, m', n⟩, hput, heq⟩ := Option.map_eq_some_iff.mp hput
  cases heq
  exact ⟨m, m', hm, hput,
    (omem_intact_iff (Reachable.new.calls (puts_of_filled hm)) hput).mpr (.inl rfl)⟩

/-- With `az` behind them the table has grown to 32 slots. A put of `h` makes it grow to 64, where
`az` comes first and takes the last place of the window of the others; the growth that `zp`
then needs fails, and `zp` is lost. -/
theorem omem_loses_key : ∃ m m' : Map ℕ, filled (eightKeys ++ [("az".toList, 9)]) = some m ∧
    Reachable m ∧
    hashmapPut (fun n => n = 0) 2 m 0 "h".toList 10 = some (.omem, m', 2) ∧
    hashmapGet m "zp".toList = (.ok, some 8) ∧ hashmapGet m' "zp".toList = (.missing, none) := by
  have hrun : ((filled (eightKeys ++ [("az".toList, 9)])).bind fun m =>
      (hashmapPut (fun n => n = 0) 2 m 0 "h".toList 10).map fun r =>
        (r.1, r.2.2, hashmapGet m "zp".toList, hashmapGet r.2.1 "zp".toList)) =
      some (.omem, 2, (.ok, some 8), (.missing, none)) := by
    decide +kernel
  obtain ⟨m, hm, hput⟩ := Option.bind_eq_some_iff.mp hrun
  obtain ⟨⟨status, m', n⟩, hput, heq⟩ := Option.map_eq_some_iff.mp hput
  simp only [Prod.mk.injEq] at heq
  obtain ⟨rfl, rfl, hbefore, hafter⟩ := heq
  exact ⟨m, m', hm, Reachable.new.calls (puts_of_filled hm), hput, hbefore, hafter⟩

end Dowse.HashmapInvariant
