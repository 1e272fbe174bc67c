import Mathlib.Data.List.Basic

/-!
# Runs of a machine whose steps are judged one at a time

A machine is a total function from a state and a label to the next state; a
disabled label leaves the state alone. Two predicates read a finite run: one
judges every step in the state it is taken from, the other every state that is
reached, the first one included. The transfer rules below are the only
inductions over runs in this development. Each safety result supplies one step
lemma and, when the judgement is exact, its converse.
-/
namespace Dowse.GuardedRuns

variable {σ ε : Type*}

/-- Every step of the run satisfies `P` in the state it is taken from. -/
def Along (f : σ → ε → σ) (P : σ → ε → Prop) : σ → List ε → Prop
  | _, [] => True
  | s, e :: es => P s e ∧ Along f P (f s e) es

/-- Every state of the run satisfies `Q`, the first and the last included. -/
def Throughout (f : σ → ε → σ) (Q : σ → Prop) : σ → List ε → Prop
  | s, [] => Q s
  | s, e :: es => Q s ∧ Throughout f Q (f s e) es

section
variable {f : σ → ε → σ} {P A : σ → ε → Prop} {I Q : σ → Prop}

@[simp] theorem along_nil (s : σ) : Along f P s [] := trivial

@[simp] theorem along_cons (s : σ) (e : ε) (es : List ε) :
    Along f P s (e :: es) ↔ P s e ∧ Along f P (f s e) es := Iff.rfl

@[simp] theorem throughout_nil (s : σ) : Throughout f Q s [] ↔ Q s := Iff.rfl

@[simp] theorem throughout_cons (s : σ) (e : ε) (es : List ε) :
    Throughout f Q s (e :: es) ↔ Q s ∧ Throughout f Q (f s e) es := Iff.rfl

instance [∀ s e, Decidable (P s e)] : ∀ (s : σ) (es : List ε), Decidable (Along f P s es)
  | _, [] => inferInstanceAs (Decidable True)
  | s, e :: es =>
      have : Decidable (Along f P (f s e) es) := instDecidableAlong (f s e) es
      inferInstanceAs (Decidable (P s e ∧ Along f P (f s e) es))

theorem along_of_forall (h : ∀ s e, P s e) (s : σ) (es : List ε) : Along f P s es := by
  induction es generalizing s with
  | nil => trivial
  | cons e es ih => exact ⟨h s e, ih (f s e)⟩

theorem along_congr {P' : σ → ε → Prop} (h : ∀ s e, P s e ↔ P' s e) (s : σ) (es : List ε) :
    Along f P s es ↔ Along f P' s es := by
  induction es generalizing s with
  | nil => exact Iff.rfl
  | cons e es ih => rw [along_cons, along_cons, h, ih]

theorem Throughout.start {s : σ} {es : List ε} (h : Throughout f Q s es) : Q s := by
  cases es with
  | nil => exact h
  | cons e es => exact h.1

/-- One step lemma under a guard gives the invariant in every state reached. -/
theorem throughout_of_along (hstep : ∀ s e, I s → P s e → I (f s e)) {s : σ}
    {es : List ε} (hs : I s) (h : Along f P s es) : Throughout f I s es := by
  induction es generalizing s with
  | nil => exact hs
  | cons e es ih => exact ⟨hs, ih (hstep s e hs h.1) h.2⟩

/-- Under the invariant, one judgement of the steps may imply another. -/
theorem Along.imp {P' : σ → ε → Prop} (hstep : ∀ s e, I s → P s e → I (f s e))
    (himp : ∀ s e, I s → P s e → P' s e) {s : σ} {es : List ε} (hs : I s)
    (h : Along f P s es) : Along f P' s es := by
  induction es generalizing s with
  | nil => trivial
  | cons e es ih => exact ⟨himp s e hs h.1, ih (hstep s e hs h.1) h.2⟩

theorem Throughout.mono (hIQ : ∀ s, I s → Q s) {s : σ} {es : List ε}
    (h : Throughout f I s es) : Throughout f Q s es := by
  induction es generalizing s with
  | nil => exact hIQ s h
  | cons e es ih => exact ⟨hIQ s h.1, ih h.2⟩

/-- The exact form. Under the standing assumption `A` on the steps, `Q` survives
a step taken inside the invariant exactly when the step meets `P`; then `Q` holds
in every state of the run exactly when every step meets `P`. -/
theorem throughout_iff_along (hIQ : ∀ s, I s → Q s)
    (hexact : ∀ s e, I s → A s e → (Q (f s e) ↔ P s e))
    (hstep : ∀ s e, I s → A s e → P s e → I (f s e)) {s : σ} {es : List ε}
    (hs : I s) (ha : Along f A s es) : Throughout f Q s es ↔ Along f P s es := by
  induction es generalizing s with
  | nil => simpa using hIQ s hs
  | cons e es ih =>
      constructor
      · intro h
        have hp : P s e := (hexact s e hs ha.1).mp h.2.start
        exact ⟨hp, (ih (hstep s e hs ha.1 hp) ha.2).mp h.2⟩
      · intro h
        exact ⟨hIQ s hs, (ih (hstep s e hs ha.1 h.1) ha.2).mpr h.2⟩

end

end Dowse.GuardedRuns
