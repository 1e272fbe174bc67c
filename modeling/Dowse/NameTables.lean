import Mathlib.Data.Set.Basic
import Mathlib.Logic.ExistsUnique
import Mathlib.Logic.Function.Basic

/-!
# Named records and their entries

Records carry a name and an address, and a second table maps a name to an address. The two
agree on a name when the entry is there exactly for a name with one holder, and has the
address of that holder. Renaming and removing a record write both tables, one name at
a time, so what they do to the agreement is said name by name.
-/
namespace Dowse.NameTables

variable {κ ν α : Type} [DecidableEq κ] [DecidableEq ν]

structure Table (κ ν α : Type) where
  name : κ → Option ν
  addr : κ → Option α
  entry : ν → Option α

def ConsistentAt (t : Table κ ν α) (n : ν) : Prop :=
  ((t.entry n).isSome ↔ ∃! k, t.name k = some n) ∧
    ∀ k a, t.name k = some n → t.entry n = some a → t.addr k = some a

/-- The tables agree on every name of a set. -/
def Consistent (names : Set ν) (t : Table κ ν α) : Prop := ∀ n ∈ names, ConsistentAt t n

/-- Gives a record a name, with an entry. The entry of its old name stays. -/
def Table.rename (t : Table κ ν α) (k : κ) (n : ν) (a : α) : Table κ ν α :=
  ⟨Function.update t.name k (some n), t.addr, Function.update t.entry n (some a)⟩

/-- Removes a record and the entry of a name. -/
def Table.remove (t : Table κ ν α) (k : κ) (n : ν) : Table κ ν α :=
  ⟨Function.update t.name k none, Function.update t.addr k none, Function.update t.entry n none⟩

/-- Nobody else has the name. -/
def Alone (t : Table κ ν α) (k : κ) (n : ν) : Prop := ∀ j, t.name j = some n → j = k

/-- Exactly one of the other records has the name. -/
def OneOther (t : Table κ ν α) (k : κ) (n : ν) : Prop := ∃! j, j ≠ k ∧ t.name j = some n

variable {t : Table κ ν α} {k : κ} {n o : ν} {a : α}

theorem rename_name_iff (h : o ≠ n) (j : κ) :
    (t.rename k n a).name j = some o ↔ j ≠ k ∧ t.name j = some o := by
  by_cases hj : j = k
  · subst hj
    simp [Table.rename, h.symm]
  · simp [Table.rename, hj]

theorem remove_name_iff (j : κ) :
    (t.remove k n).name j = some o ↔ j ≠ k ∧ t.name j = some o := by
  by_cases hj : j = k
  · subst hj
    simp [Table.remove]
  · simp [Table.remove, hj]

/-- The new name has to be free, and the entry has to be the address of the record. -/
theorem consistentAt_rename_self :
    ConsistentAt (t.rename k n a) n ↔ Alone t k n ∧ t.addr k = some a := by
  have hentry : (t.rename k n a).entry n = some a := Function.update_self ..
  have hname : (t.rename k n a).name k = some n := Function.update_self ..
  constructor
  · rintro ⟨hexists, haddr⟩
    have hunique := hexists.mp (by rw [hentry]; rfl)
    refine ⟨fun j hj => ?_, haddr k a hname hentry⟩
    by_contra hne
    have hj' : (t.rename k n a).name j = some n := (Function.update_of_ne hne ..).trans hj
    exact hne (hunique.unique hj' hname)
  · rintro ⟨halone, haddr⟩
    have honly : ∀ j, (t.rename k n a).name j = some n → j = k := by
      intro j hj
      by_contra hne
      exact hne (halone j ((Function.update_of_ne hne ..).symm.trans hj))
    refine ⟨iff_of_true (by rw [hentry]; rfl) ⟨k, hname, honly⟩, fun j b hj hb => ?_⟩
    rw [hentry] at hb
    rw [honly j hj, ← hb]
    exact haddr

theorem consistentAt_rename_of_ne (hne : o ≠ n) (hname : t.name k ≠ some o) :
    ConsistentAt (t.rename k n a) o ↔ ConsistentAt t o := by
  have hentry : (t.rename k n a).entry o = t.entry o := Function.update_of_ne hne ..
  have hholder : ∀ j, (t.rename k n a).name j = some o ↔ t.name j = some o := by
    intro j
    rw [rename_name_iff hne]
    refine and_iff_right_of_imp ?_
    rintro hj rfl
    exact hname hj
  simp only [ConsistentAt, hentry, hholder]
  rfl

/-- The entry of the old name stays, so the name must have neither none nor one holder left. -/
theorem consistentAt_rename_old (hne : o ≠ n) (hname : t.name k = some o)
    (h : ConsistentAt t o) :
    ConsistentAt (t.rename k n a) o ↔ ¬ Alone t k o ∧ ¬ OneOther t k o := by
  have hentry : (t.rename k n a).entry o = t.entry o := Function.update_of_ne hne ..
  have halone : (∃! j, t.name j = some o) ↔ Alone t k o :=
    ⟨fun hunique j hj => hunique.unique hj hname, fun halone => ⟨k, hname, halone⟩⟩
  have hother : Alone t k o → ¬ OneOther t k o :=
    fun halone hone => hone.exists.elim fun j hj => hj.1 (halone j hj.2)
  have hiff : ConsistentAt (t.rename k n a) o ↔
      (Alone t k o ↔ OneOther t k o) ∧ ∀ j b, (j ≠ k ∧ t.name j = some o) → t.entry o = some b →
        t.addr j = some b := by
    simp only [ConsistentAt, rename_name_iff hne, hentry, h.1, halone]
    rfl
  rw [hiff]
  constructor
  · rintro ⟨hsame, -⟩
    have hnot : ¬ Alone t k o := fun hk => hother hk (hsame.mp hk)
    exact ⟨hnot, fun hone => hnot (hsame.mpr hone)⟩
  · rintro ⟨hnot, hone⟩
    exact ⟨iff_of_false hnot hone, fun j b hj hb => h.2 j b hj.2 hb⟩

theorem consistentAt_remove_self : ConsistentAt (t.remove k n) n ↔ ¬ OneOther t k n := by
  have hentry : (t.remove k n).entry n = none := Function.update_self ..
  simp only [ConsistentAt, hentry, remove_name_iff]
  simp [OneOther]

theorem consistentAt_remove_of_ne (hne : o ≠ n) (hname : t.name k ≠ some o) :
    ConsistentAt (t.remove k n) o ↔ ConsistentAt t o := by
  have hentry : (t.remove k n).entry o = t.entry o := Function.update_of_ne hne ..
  have hkey : ∀ j, t.name j = some o → j ≠ k := by
    rintro j hj rfl
    exact hname hj
  have hholder : ∀ j, (t.remove k n).name j = some o ↔ t.name j = some o :=
    fun j => (remove_name_iff j).trans (and_iff_right_of_imp (hkey j))
  have haddr : ∀ j, t.name j = some o → (t.remove k n).addr j = t.addr j :=
    fun j hj => Function.update_of_ne (hkey j hj) ..
  simp only [ConsistentAt, hentry, hholder]
  refine and_congr_right fun _ => forall₂_congr fun j b => imp_congr_right fun hj => ?_
  rw [haddr j hj]

variable {names : Set ν}

/-- What a renaming asks for: the new name is free, its entry is the address of the record,
and the entry of the old name is in nobody's way. -/
structure MayRename (names : Set ν) (t : Table κ ν α) (k : κ) (n : ν) (a : α) : Prop where
  free : n ∈ names → Alone t k n ∧ t.addr k = some a
  old : ∀ o ∈ names, t.name k = some o → o ≠ n → ¬ Alone t k o ∧ ¬ OneOther t k o

theorem consistent_rename_iff (h : Consistent names t) :
    Consistent names (t.rename k n a) ↔ MayRename names t k n a := by
  constructor
  · intro h'
    exact ⟨fun hn => consistentAt_rename_self.mp (h' n hn), fun o ho hname hne =>
      (consistentAt_rename_old hne hname (h o ho)).mp (h' o ho)⟩
  · intro hmay o ho
    by_cases hne : o = n
    · subst hne
      exact consistentAt_rename_self.mpr (hmay.free ho)
    · by_cases hname : t.name k = some o
      · exact (consistentAt_rename_old hne hname (h o ho)).mpr (hmay.old o ho hname hne)
      · exact (consistentAt_rename_of_ne hne hname).mpr (h o ho)

/-- Removing a record together with the entry of its name is harmless unless that leaves one
holder of the name without an entry. -/
theorem consistent_remove_iff (hname : ∀ o, t.name k = some o → o = n) (h : Consistent names t) :
    Consistent names (t.remove k n) ↔ (n ∈ names → ¬ OneOther t k n) := by
  constructor
  · exact fun h' hn => consistentAt_remove_self.mp (h' n hn)
  · intro hone o ho
    by_cases hne : o = n
    · subst hne
      exact consistentAt_remove_self.mpr (hone ho)
    · exact (consistentAt_remove_of_ne hne fun hk => hne (hname o hk)).mpr (h o ho)

end Dowse.NameTables
