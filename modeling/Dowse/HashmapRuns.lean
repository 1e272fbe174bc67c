import Dowse.Hashmap

/-!
# What a call of `hashmap_put` can do

`hashmap_put` and `hashmap_rehash` call each other, and a failed allocation can stop them at
any depth. A returning call is one of four things: it stores, its own allocation fails, the
growth it asked for is stopped while the elements are moved, or that growth completes and it
looks for a place again. Moving is a loop of puts. `put_cases` is the induction over both, for
every outcome of the allocations.
-/
namespace Dowse.Hashmap
open CyclicProbing

variable {α : Type}

/-- What is shown of a put: the map, the allocations made before it, the key and the value, and
the status, the map and the allocations afterwards. -/
abbrev PutProp (α : Type) := Map α → ℕ → Key → α → Status → Map α → ℕ → Prop

/-- What is shown of the loop that moves slots into a map. -/
abbrev MoveProp (α : Type) := List (Option (Key × α)) → Map α → ℕ → Status → Map α → ℕ → Prop

def PutProp.and (P Q : PutProp α) : PutProp α := fun m n key value status m' n' =>
  P m n key value status m' n' ∧ Q m n key value status m' n'

def MoveProp.and (M N : MoveProp α) : MoveProp α := fun curr m n status m' n' =>
  M curr m n status m' n' ∧ N curr m n status m' n'

/-- The cases of the moving loop, with what is known of the puts it makes. -/
structure MoveCases (P : PutProp α) (M : MoveProp α) : Prop where
  moved : ∀ m n, M [] m n .ok m n
  free : ∀ {curr m n status m' n'}, M curr m n status m' n' → M (none :: curr) m n status m' n'
  put : ∀ {key value curr m n u k status m' n'}, P m n key value .ok u k →
    M curr u k status m' n' → M (some (key, value) :: curr) m n status m' n'
  failed : ∀ {key value m n m' n'}, P m n key value .omem m' n' → ∀ curr,
    M (some (key, value) :: curr) m n .omem m' n'

/-- The cases of a put, with what is known of the moving loop and of the next try. -/
structure PutCases (calloc : ℕ → Bool) (P : PutProp α) (M : MoveProp α) : Prop
    extends MoveCases P M where
  stored : ∀ {m n key index}, hashmapHash m key = some index → ∀ value,
    P m n key value .ok (m.store index key value) n
  refused : ∀ {m n key}, hashmapHash m key = none → calloc n = false → ∀ value,
    P m n key value .omem m (n + 1)
  stopped : ∀ {m n key m' n'}, hashmapHash m key = none → calloc n = true →
    M m.data m.grown (n + 1) .omem m' n' → ∀ value, P m n key value .omem m' n'
  grown : ∀ {m n key value u k status m' n'}, hashmapHash m key = none → calloc n = true →
    M m.data m.grown (n + 1) .ok u k → P u k key value status m' n' →
    P m n key value status m' n'

namespace PutCases
variable {calloc : ℕ → Bool} {P Q : PutProp α} {M N : MoveProp α}

theorem and (h : PutCases calloc P M) (h' : PutCases calloc Q N) :
    PutCases calloc (P.and Q) (M.and N) where
  stored hh value := ⟨h.stored hh value, h'.stored hh value⟩
  refused hh hc value := ⟨h.refused hh hc value, h'.refused hh hc value⟩
  stopped hh hc hm value := ⟨h.stopped hh hc hm.1 value, h'.stopped hh hc hm.2 value⟩
  grown hh hc hm hp := ⟨h.grown hh hc hm.1 hp.1, h'.grown hh hc hm.2 hp.2⟩
  moved m n := ⟨h.moved m n, h'.moved m n⟩
  free hm := ⟨h.free hm.1, h'.free hm.2⟩
  put hp hm := ⟨h.put hp.1 hm.1, h'.put hp.2 hm.2⟩
  failed hp curr := ⟨h.failed hp.1 curr, h'.failed hp.2 curr⟩

/-- What is shown of a put may use what is already known of the moving loop. -/
theorem extend (h : PutCases calloc P M)
    (stored : ∀ {m n key index}, hashmapHash m key = some index → ∀ value,
      Q m n key value .ok (m.store index key value) n)
    (refused : ∀ {m n key}, hashmapHash m key = none → calloc n = false → ∀ value,
      Q m n key value .omem m (n + 1))
    (stopped : ∀ {m n key m' n'}, hashmapHash m key = none → calloc n = true →
      M m.data m.grown (n + 1) .omem m' n' → ∀ value, Q m n key value .omem m' n')
    (grown : ∀ {m n key value u k status m' n'}, hashmapHash m key = none → calloc n = true →
      M m.data m.grown (n + 1) .ok u k → Q u k key value status m' n' →
      Q m n key value status m' n') : PutCases calloc (P.and Q) M where
  stored hh value := ⟨h.stored hh value, stored hh value⟩
  refused hh hc value := ⟨h.refused hh hc value, refused hh hc value⟩
  stopped hh hc hm value := ⟨h.stopped hh hc hm value, stopped hh hc hm value⟩
  grown hh hc hm hp := ⟨h.grown hh hc hm hp.1, grown hh hc hm hp.2⟩
  moved := h.moved
  free := h.free
  put hp := h.put hp.1
  failed hp := h.failed hp.1

/-- What is shown of the moving loop may use what is already known of the puts. -/
theorem withMove (h : PutCases calloc P M) (hN : MoveCases P N) :
    PutCases calloc P (M.and N) where
  stored := h.stored
  refused := h.refused
  stopped hh hc hm := h.stopped hh hc hm.1
  grown hh hc hm := h.grown hh hc hm.1
  moved m n := ⟨h.moved m n, hN.moved m n⟩
  free hm := ⟨h.free hm.1, hN.free hm.2⟩
  put hp hm := ⟨h.put hp hm.1, hN.put hp hm.2⟩
  failed hp curr := ⟨h.failed hp curr, hN.failed hp curr⟩

end PutCases

section Induction
variable {calloc : ℕ → Bool} {P : PutProp α} {M : MoveProp α}

/-- A put that satisfies `P` and returns no status but these two. -/
def PutOk (P : PutProp α) (put : Map α → ℕ → Key → α → Outcome α) : Prop :=
  ∀ m n key value status m' n', put m n key value = some (status, m', n') →
    (status = .ok ∨ status = .omem) ∧ P m n key value status m' n'

theorem rehashFrom_cases (h : MoveCases P M) {put : Map α → ℕ → Key → α → Outcome α}
    (hput : PutOk P put) {curr : List (Option (Key × α))} {m m' : Map α} {n n' : ℕ}
    {status : Status} (hrun : rehashFrom put curr m n = some (status, m', n')) :
    (status = .ok ∨ status = .omem) ∧ M curr m n status m' n' := by
  induction curr generalizing m n with
  | nil =>
      cases hrun
      exact ⟨.inl rfl, h.moved _ _⟩
  | cons slot curr ih =>
      cases slot with
      | none =>
          obtain ⟨hstatus, hmove⟩ := ih hrun
          exact ⟨hstatus, h.free hmove⟩
      | some e =>
          obtain ⟨key, value⟩ := e
          cases hp : put m n key value with
          | none => simp [rehashFrom, hp] at hrun
          | some out =>
              obtain ⟨status₁, u, k⟩ := out
              obtain ⟨rfl | rfl, hP⟩ := hput m n key value status₁ u k hp
              · simp only [rehashFrom, hp] at hrun
                obtain ⟨hstatus, hmove⟩ := ih hrun
                exact ⟨hstatus, h.put hP hmove⟩
              · simp only [rehashFrom, hp] at hrun
                cases hrun
                exact ⟨.inr rfl, h.failed hP curr⟩

/-- The induction is on the fuel, which bounds the depth of the mutual recursion. -/
theorem put_cases (h : PutCases calloc P M) (fuel : ℕ) : PutOk P (hashmapPut calloc fuel) := by
  induction fuel with
  | zero =>
      intro m n key value status m' n' hrun
      cases hrun
  | succ fuel ih =>
      intro m n key value status m' n' hrun
      cases hhash : hashmapHash m key with
      | some index =>
          simp only [hashmapPut, hhash] at hrun
          cases hrun
          exact ⟨.inl rfl, h.stored hhash value⟩
      | none =>
          simp only [hashmapPut, hhash, hashmapRehash] at hrun
          cases hcalloc : calloc n with
          | false =>
              simp only [hcalloc, Bool.false_eq_true, if_false] at hrun
              cases hrun
              exact ⟨.inr rfl, h.refused hhash hcalloc value⟩
          | true =>
              simp only [hcalloc, if_true] at hrun
              cases hmove : rehashFrom (hashmapPut calloc fuel) m.data m.grown (n + 1) with
              | none => simp [hmove] at hrun
              | some out =>
                  obtain ⟨status₁, u, k⟩ := out
                  obtain ⟨rfl | rfl, hM⟩ := rehashFrom_cases h.toMoveCases ih hmove
                  · simp only [hmove] at hrun
                    obtain ⟨hstatus, hP⟩ := ih u k key value status m' n' hrun
                    exact ⟨hstatus, h.grown hhash hcalloc hM hP⟩
                  · simp only [hmove] at hrun
                    cases hrun
                    exact ⟨.inr rfl, h.stopped hhash hcalloc hM value⟩

end Induction

section Fuel
variable {calloc : ℕ → Bool}

theorem rehashFrom_mono {put put' : Map α → ℕ → Key → α → Outcome α}
    (hput : ∀ m n key value r, put m n key value = some r → put' m n key value = some r)
    {curr : List (Option (Key × α))} {m : Map α} {n : ℕ} {r : Status × Map α × ℕ}
    (h : rehashFrom put curr m n = some r) : rehashFrom put' curr m n = some r := by
  induction curr generalizing m n with
  | nil => exact h
  | cons slot curr ih =>
      cases slot with
      | none => exact ih h
      | some e =>
          obtain ⟨key, value⟩ := e
          cases hp : put m n key value with
          | none => simp [rehashFrom, hp] at h
          | some out =>
              obtain ⟨status, u, k⟩ := out
              have hp' := hput m n key value _ hp
              cases status with
              | ok =>
                  simp only [rehashFrom, hp, hp'] at h ⊢
                  exact ih h
              | omem => simpa only [rehashFrom, hp, hp'] using h
              | full => simpa only [rehashFrom, hp, hp'] using h
              | missing => simpa only [rehashFrom, hp, hp'] using h

theorem hashmapRehash_mono {put put' : Map α → ℕ → Key → α → Outcome α}
    (hput : ∀ m n key value r, put m n key value = some r → put' m n key value = some r)
    {m : Map α} {n : ℕ} {r : Status × Map α × ℕ} (h : hashmapRehash calloc put m n = some r) :
    hashmapRehash calloc put' m n = some r := by
  unfold hashmapRehash at h ⊢
  split_ifs at h ⊢
  · exact rehashFrom_mono hput h
  · exact h

theorem hashmapPut_succ (fuel : ℕ) (m : Map α) (n : ℕ) (key : Key) (value : α)
    (r : Status × Map α × ℕ) (h : hashmapPut calloc fuel m n key value = some r) :
    hashmapPut calloc (fuel + 1) m n key value = some r := by
  induction fuel generalizing m n key value r with
  | zero => cases h
  | succ fuel ih =>
      cases hhash : hashmapHash m key with
      | some index =>
          simp only [hashmapPut, hhash] at h ⊢
          exact h
      | none =>
          cases hrehash : hashmapRehash calloc (hashmapPut calloc fuel) m n with
          | none => simp [hashmapPut, hhash, hrehash] at h
          | some out =>
              obtain ⟨status, u, k⟩ := out
              have hrehash' := hashmapRehash_mono ih hrehash
              rw [hashmapPut] at h ⊢
              simp only [hhash, hrehash, hrehash'] at h ⊢
              cases status with
              | omem => exact h
              | ok => exact ih _ _ _ _ _ h
              | full => exact ih _ _ _ _ _ h
              | missing => exact ih _ _ _ _ _ h

/-- More fuel does not change an answer. -/
theorem hashmapPut_mono {fuel fuel' : ℕ} (hle : fuel ≤ fuel') (m : Map α) (n : ℕ) (key : Key)
    (value : α) (r : Status × Map α × ℕ) (h : hashmapPut calloc fuel m n key value = some r) :
    hashmapPut calloc fuel' m n key value = some r := by
  induction fuel', hle using Nat.le_induction with
  | base => exact h
  | succ fuel' _ ih => exact hashmapPut_succ fuel' m n key value r ih

/-- The put returns this, for some fuel. -/
def RunPut (calloc : ℕ → Bool) : PutProp α := fun m n key value status m' n' =>
  ∃ fuel, hashmapPut calloc fuel m n key value = some (status, m', n')

def RunMove (calloc : ℕ → Bool) : MoveProp α := fun curr m n status m' n' =>
  ∃ fuel, rehashFrom (hashmapPut calloc fuel) curr m n = some (status, m', n')

theorem RunMove.rehash {m u : Map α} {n k : ℕ} {status : Status} (hcalloc : calloc n = true)
    (h : RunMove calloc m.data m.grown (n + 1) status u k) :
    ∃ fuel, hashmapRehash calloc (hashmapPut calloc fuel) m n = some (status, u, k) := by
  obtain ⟨fuel, hrun⟩ := h
  exact ⟨fuel, by rw [hashmapRehash, hcalloc]; exact hrun⟩

/-- The cases of `PutCases` are the ways to build a run. -/
theorem putCases_run : PutCases (α := α) calloc (RunPut calloc) (RunMove calloc) where
  stored hhash value := ⟨1, by rw [hashmapPut, hhash]⟩
  refused hhash hcalloc value := by
    refine ⟨1, ?_⟩
    rw [hashmapPut, hhash, hashmapRehash, hcalloc]
    rfl
  stopped hhash hcalloc hmove value := by
    obtain ⟨fuel, hrehash⟩ := hmove.rehash hcalloc
    refine ⟨fuel + 1, ?_⟩
    rw [hashmapPut, hhash]
    simp only [hrehash]
  grown hhash hcalloc hmove hput := by
    obtain ⟨fuel, hrehash⟩ := hmove.rehash hcalloc
    obtain ⟨fuel', hrun⟩ := hput
    have hrehash' := hashmapRehash_mono (hashmapPut_mono (le_max_left fuel fuel')) hrehash
    refine ⟨max fuel fuel' + 1, ?_⟩
    rw [hashmapPut, hhash]
    simp only [hrehash']
    exact hashmapPut_mono (le_max_right fuel fuel') _ _ _ _ _ hrun
  moved m n := ⟨0, rfl⟩
  free hmove := hmove
  put hput hmove := by
    obtain ⟨fuel, hrun⟩ := hput
    obtain ⟨fuel', hmoves⟩ := hmove
    refine ⟨max fuel fuel', ?_⟩
    rw [rehashFrom, hashmapPut_mono (le_max_left fuel fuel') _ _ _ _ _ hrun]
    exact rehashFrom_mono (hashmapPut_mono (le_max_right fuel fuel')) hmoves
  failed hput curr := by
    obtain ⟨fuel, hrun⟩ := hput
    exact ⟨fuel, by rw [rehashFrom, hrun]⟩

end Fuel

end Dowse.Hashmap
