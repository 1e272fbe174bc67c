import Mathlib.Data.List.AList

/-!
# A store of hashes

The keys of the store have hashes as values, as with the hash commands of a key-value
server. Setting a field of a missing key creates it, and reading one yields
nothing. The server lists its keys in an order of its own, so no result may depend on
the order that the representation has.
-/
namespace Dowse.KeyedHashes

variable {κ φ ν : Type} [DecidableEq κ]

abbrev Store (κ φ ν : Type) := AList fun _ : κ => (φ → Option ν)

def hgetall (s : Store κ φ ν) (k : κ) : φ → Option ν := (s.lookup k).getD fun _ => none

def hget (s : Store κ φ ν) (k : κ) (f : φ) : Option ν := hgetall s k f

theorem hgetall_insert (s : Store κ φ ν) (k k' : κ) (h : φ → Option ν) :
    hgetall (s.insert k h) k' = if k' = k then h else hgetall s k' := by
  unfold hgetall
  split_ifs with hk
  · rw [hk, AList.lookup_insert, Option.getD_some]
  · rw [AList.lookup_insert_ne hk]

theorem hget_of_notMem {s : Store κ φ ν} {k : κ} (h : k ∉ s) (f : φ) : hget s k f = none := by
  simp [hget, hgetall, AList.lookup_eq_none.mpr h]

theorem mem_of_hget {s : Store κ φ ν} {k : κ} {f : φ} {v : ν} (h : hget s k f = some v) :
    k ∈ s := by
  by_contra hk
  simp [hget_of_notMem hk] at h

theorem hget_erase (s : Store κ φ ν) (k k' : κ) (f : φ) :
    hget (s.erase k) k' f = if k' = k then none else hget s k' f := by
  unfold hget hgetall
  split_ifs with hk
  · rw [hk, AList.lookup_erase]
    rfl
  · rw [AList.lookup_erase_ne hk]

variable [DecidableEq φ]

def hset (s : Store κ φ ν) (k : κ) (f : φ) (v : ν) : Store κ φ ν :=
  s.insert k (Function.update (hgetall s k) f (some v))

def hmset (s : Store κ φ ν) (k : κ) (vals : List (φ × ν)) : Store κ φ ν :=
  vals.foldl (fun s p => hset s k p.1 p.2) s

theorem hget_hset (s : Store κ φ ν) (k k' : κ) (f f' : φ) (v : ν) :
    hget (hset s k f v) k' f' = if k' = k ∧ f' = f then some v else hget s k' f' := by
  rw [hget, hset, hgetall_insert]
  by_cases hk : k' = k
  · subst hk
    by_cases hf : f' = f
    · simp [hf]
    · simp [hf, hget]
  · simp [hk, hget]

theorem hget_hset_same (s : Store κ φ ν) (k : κ) (f : φ) (v : ν) :
    hget (hset s k f v) k f = some v := by
  simp [hget_hset]

theorem hget_hset_of_key_ne {k k' : κ} (h : k' ≠ k) (s : Store κ φ ν) (f f' : φ) (v : ν) :
    hget (hset s k f v) k' f' = hget s k' f' := by
  simp [hget_hset, h]

theorem hget_hset_of_field_ne {f f' : φ} (h : f' ≠ f) (s : Store κ φ ν) (k k' : κ) (v : ν) :
    hget (hset s k f v) k' f' = hget s k' f' := by
  simp [hget_hset, h]

theorem hget_hmset_of_key_ne {k k' : κ} (h : k' ≠ k) (s : Store κ φ ν) (vals : List (φ × ν))
    (f : φ) : hget (hmset s k vals) k' f = hget s k' f := by
  induction vals generalizing s with
  | nil => rfl
  | cons p vals ih => exact (ih _).trans (hget_hset_of_key_ne h s p.1 f p.2)

end Dowse.KeyedHashes
