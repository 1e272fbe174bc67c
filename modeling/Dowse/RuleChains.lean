import Mathlib.Data.List.Basic

/-!
# Chains of filter rules

A rule has tests that must all hold and a target: a verdict, the end of the chain it
stands in, or another chain. A chain is read in order until a verdict is found. `none`
says that the end was reached, or a rule that leaves the chain, and the caller goes on
behind the rule that jumped.

The tests are read by a Boolean function, so one traversal is about one packet. What the
called chains say is a parameter as well.
-/
namespace Dowse.RuleChains

inductive Verdict
  | accept
  | drop
  | reject
  deriving DecidableEq, Repr

inductive Target (χ : Type*)
  | verdict (v : Verdict)
  | back
  | jump (chain : χ)
  deriving DecidableEq, Repr

structure Rule (τ χ : Type*) where
  tests : List τ
  target : Target χ
  deriving DecidableEq, Repr

variable {τ χ : Type*}

def Rule.hit (holds : τ → Bool) (r : Rule τ χ) : Bool := r.tests.all holds

def walk (holds : τ → Bool) (call : χ → Option Verdict) : List (Rule τ χ) → Option Verdict
  | [] => none
  | r :: rs =>
      if r.hit holds then
        match r.target with
        | .verdict v => some v
        | .back => none
        | .jump c => (call c).or (walk holds call rs)
      else walk holds call rs

section
variable {holds : τ → Bool} {call : χ → Option Verdict} {r : Rule τ χ} {rs rs' : List (Rule τ χ)}

@[simp] theorem walk_nil : walk holds call ([] : List (Rule τ χ)) = none := rfl

theorem walk_cons_of_not (h : r.hit holds = false) :
    walk holds call (r :: rs) = walk holds call rs := by
  rw [walk, h]
  rfl

theorem walk_verdict (tests : List τ) (v : Verdict) :
    walk holds call (⟨tests, .verdict v⟩ :: rs) =
      if tests.all holds then some v else walk holds call rs := rfl

theorem walk_jump (tests : List τ) (c : χ) :
    walk holds call (⟨tests, .jump c⟩ :: rs) =
      if tests.all holds then (call c).or (walk holds call rs)
      else walk holds call rs := rfl

/-- A chain that no rule leaves may be cut anywhere. -/
theorem walk_append (h : ∀ r ∈ rs, r.target ≠ .back) :
    walk holds call (rs ++ rs') =
      (walk holds call rs).or (walk holds call rs') := by
  induction rs with
  | nil => rfl
  | cons r rs ih =>
      obtain ⟨hr, hrs⟩ := List.forall_mem_cons.mp h
      obtain ⟨tests, target⟩ := r
      cases target with
      | verdict v =>
          rw [List.cons_append, walk_verdict, walk_verdict, ih hrs]
          split_ifs <;> rfl
      | back => exact absurd rfl hr
      | jump c =>
          rw [List.cons_append, walk_jump, walk_jump, ih hrs]
          split_ifs
          · exact Option.or_assoc.symm
          · rfl

/-- A chain with one verdict only gives it to the packets that some rule describes. -/
theorem walk_uniform {v : Verdict} (h : ∀ r ∈ rs, r.target = .verdict v) :
    walk holds call rs = if ∃ r ∈ rs, r.hit holds then some v else none := by
  induction rs with
  | nil => simp
  | cons r rs ih =>
      obtain ⟨hr, hrs⟩ := List.forall_mem_cons.mp h
      rw [walk, hr, ih hrs]
      by_cases hhit : r.hit holds <;> simp [hhit]

/-- A chain of verdicts is left at its end by the packets that no rule describes. -/
theorem walk_eq_none_iff (h : ∀ r ∈ rs, ∃ v, r.target = .verdict v) :
    walk holds call rs = none ↔ ∀ r ∈ rs, r.hit holds = false := by
  induction rs with
  | nil => simp
  | cons r rs ih =>
      obtain ⟨⟨v, hv⟩, hrs⟩ := List.forall_mem_cons.mp h
      rw [walk, hv, List.forall_mem_cons, ← ih hrs]
      by_cases hhit : r.hit holds <;> simp [hhit]

/-- A verdict comes from a rule of the chain or from a chain that it calls. -/
theorem exists_of_walk {v : Verdict} (h : walk holds call rs = some v) :
    ∃ r ∈ rs, r.hit holds = true ∧
      (r.target = .verdict v ∨ ∃ c, r.target = .jump c ∧ call c = some v) := by
  induction rs with
  | nil => cases h
  | cons r rs ih =>
      by_cases hhit : r.hit holds = true
      · rw [walk, if_pos hhit] at h
        cases htarget : r.target with
        | verdict v' =>
            rw [htarget] at h
            obtain rfl := Option.some.inj h
            exact ⟨r, List.mem_cons_self, hhit, .inl htarget⟩
        | back =>
            rw [htarget] at h
            cases h
        | jump c =>
            rw [htarget] at h
            rcases Option.or_eq_some_iff.mp h with hcall | ⟨-, hrest⟩
            · exact ⟨r, List.mem_cons_self, hhit, .inr ⟨c, htarget, hcall⟩⟩
            · obtain ⟨r', hmem, hr'⟩ := ih hrest
              exact ⟨r', List.mem_cons_of_mem _ hmem, hr'⟩
      · rw [walk_cons_of_not (Bool.eq_false_iff.mpr hhit)] at h
        obtain ⟨r', hmem, hr'⟩ := ih h
        exact ⟨r', List.mem_cons_of_mem _ hmem, hr'⟩

/-- Where all rules that describe the packet agree, and the called chains have no opinion,
the order of the chain does not matter. -/
theorem walk_of_agree {v : Verdict}
    (hall : ∀ r ∈ rs, r.hit holds = true →
      r.target = .verdict v ∨ ∃ c, r.target = .jump c ∧ call c = none)
    (hex : ∃ r ∈ rs, r.hit holds = true ∧ r.target = .verdict v) :
    walk holds call rs = some v := by
  induction rs with
  | nil =>
      obtain ⟨r, hr, -⟩ := hex
      cases hr
  | cons r rs ih =>
      obtain ⟨hr, hrs⟩ := List.forall_mem_cons.mp hall
      obtain ⟨r', hmem, hhit', htarget'⟩ := hex
      by_cases hhit : r.hit holds = true
      · rw [walk, if_pos hhit]
        rcases hr hhit with htarget | ⟨c, htarget, hcall⟩
        · rw [htarget]
        · rw [htarget]
          dsimp only
          rw [hcall, Option.none_or]
          refine ih hrs ⟨r', (List.mem_cons.mp hmem).resolve_left ?_, hhit', htarget'⟩
          rintro rfl
          rw [htarget] at htarget'
          cases htarget'
      · rw [walk_cons_of_not (Bool.eq_false_iff.mpr hhit)]
        refine ih hrs ⟨r', (List.mem_cons.mp hmem).resolve_left ?_, hhit', htarget'⟩
        rintro rfl
        exact hhit hhit'

end

end Dowse.RuleChains
