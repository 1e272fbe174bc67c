import Dowse.Crowding
import Dowse.HashmapGrowth

/-!
# When `hashmap_put` comes to an end

The loop of `hashmap_put` doubles the table until the key finds a place, and the growth inside
it puts every element again. Doubling separates two keys only as long as their hashes differ
above the table size. Nine keys with one hash, which the 32 bits of the checksum leave room
for, are never separated, and neither are keys whose hashes lie so close that they fill the
window of another one.

What decides is the set of keys that a program uses. If no key of the set is crowded by others,
every put returns at the latest when the table exceeds the range of the hash. If one is, the
puts of the keys that crowd it may return, and then its own put never does.
-/
namespace Dowse.HashmapInvariant
open CyclicProbing Hashmap HashmapRefinement Crowding

variable {α : Type}

/-- The hash before it is reduced to the table. -/
def fullHash (key : Key) : ℕ := (mixedKey key).toNat

theorem fullHash_lt (key : Key) : fullHash key < 2 ^ 64 := (mixedKey key).toNat_lt

theorem position_eq (m : Map α) (key : Key) (i : ℕ) :
    (hashmapHashInt m.data.length key + i) % m.data.length =
      (fullHash key + i) % m.tableSize := by
  rw [m.length_data]
  exact Nat.mod_add_mod _ _ _

/-- The table exceeds every hash, and the window behind it. -/
def Wide (m : Map α) : Prop := 2 ^ 64 + maxChainLength ≤ m.tableSize

theorem Wide.position {m : Map α} (h : Wide m) {key : Key} {i : ℕ} (hi : i ≤ maxChainLength) :
    (fullHash key + i) % m.tableSize = fullHash key + i := by
  have hlt := fullHash_lt key
  unfold Wide at h
  exact Nat.mod_eq_of_lt (by omega)

/-- A gapless map with keys of the set and room by its counter. -/
structure Settled (S : Set Key) (m : Map α) : Prop where
  invariant : Invariant m
  rep : ∃ σ, Rep m σ
  gapless : Gapless m
  keys : ∀ k, Has m.data k → k ∈ S
  room : m.size < m.tableSize / 2

section Places
variable {S : Set Key} {m : Map α} {key : Key}

theorem slot_of_taken {c : ℕ} (hc : c < m.tableSize) (h : m.data[c]? ≠ some none) :
    ∃ k v, m.data[c]? = some (some (k, v)) := by
  rw [← m.length_data] at hc
  cases hslot : m.data[c] with
  | none => exact absurd (List.getElem?_eq_some_iff.mpr ⟨hc, hslot⟩) h
  | some e => exact ⟨e.1, e.2, List.getElem?_eq_some_iff.mpr ⟨hc, hslot⟩⟩

theorem tableSize_pos (m : Map α) : 0 < m.tableSize := by
  have h := m.window_le
  unfold maxChainLength at h
  omega

theorem taken_of_hash (hroom : m.size < m.tableSize / 2) (hh : hashmapHash m key = none) {i : ℕ}
    (hi : i < maxChainLength) : m.data[(fullHash key + i) % m.tableSize]? ≠ some none := by
  intro hfree
  unfold hashmapHash at hh
  rw [if_neg (by omega), ← m.length_data] at hh
  refine scan_eq_none (m.hash_lt key) hh i hi (hit_freeOrKeyed_iff.mpr (.inl ?_))
  rwa [position_eq]

/-- In a table that is wide enough, a key that is not crowded finds a place. -/
theorem Settled.place (h : Settled S m) (hwide : Wide m) (hS : Sparse fullHash maxChainLength S)
    (hkey : key ∈ S) : hashmapHash m key ≠ none := by
  intro hh
  obtain ⟨σ, hr⟩ := h.rep
  have hslot : ∀ (c : ℕ) (x : Key), (m.data[c]?).join.map Prod.fst = some x →
      ∃ v, m.data[c]? = some (some (x, v)) := by
    intro c x hc
    obtain ⟨⟨k, v⟩, he, rfl⟩ := Option.map_eq_some_iff.mp hc
    exact ⟨v, Option.join_eq_some_iff.mp he⟩
  have htaken : ∀ c : ℕ, c < m.tableSize → m.data[c]? ≠ some none →
      ((m.data[c]?).join.map Prod.fst).isSome := by
    intro c hc hne
    obtain ⟨k, v, hkv⟩ := slot_of_taken hc hne
    rw [hkv]
    rfl
  have hlt := fullHash_lt key
  have hbig : 2 ^ 64 + maxChainLength ≤ m.tableSize := hwide
  have hcrowded : ∃ T : Finset Key, Crowds fullHash maxChainLength T key ∧
      ∀ x ∈ T, ∃ c : ℕ, (m.data[c]?).join.map Prod.fst = some x := by
    refine crowds_of_full ?_ ?_ ?_ ?_
    · intro c d x hc hd
      obtain ⟨u, hu⟩ := hslot c x hc
      obtain ⟨v, hv⟩ := hslot d x hd
      exact hr.unique c d x u v hu hv
    · intro c x hc
      obtain ⟨v, hv⟩ := hslot c x hc
      obtain ⟨i, hi, hci⟩ := hr.window c x v hv
      have hfree := h.gapless x v i hi (by rw [← hci]; exact hv)
      rw [position_eq, hwide.position hi.le] at hci
      refine ⟨by omega, fun j hj hjc => ?_⟩
      have hne := hfree (j - fullHash x) (by omega)
      rw [position_eq, hwide.position (by omega), Nat.add_sub_cancel' hj] at hne
      have hx := fullHash_lt x
      exact htaken j (by omega) hne
    · intro c hc
      obtain ⟨v, hv⟩ := hslot c key hc
      exact not_has_of_hash h.invariant h.room hh (has_iff.mpr ⟨c, v, hv⟩)
    · intro c hc hcw
      have hne := taken_of_hash h.room hh (i := c - fullHash key) (by omega)
      rw [hwide.position (by omega), Nat.add_sub_cancel' hc] at hne
      exact htaken c (by omega) hne
  obtain ⟨T, hcrowds, hT⟩ := hcrowded
  refine hS key hkey T (fun x hx => ?_) hcrowds
  obtain ⟨c, hc⟩ := hT x hx
  obtain ⟨v, hv⟩ := hslot c x hc
  exact h.keys x (has_iff.mpr ⟨c, v, hv⟩)

/-- A key that is crowded by stored keys finds none, in a table of any size. -/
theorem hash_of_crowds {σ : Key → Option α} (hr : Rep m σ) (hg : Gapless m) {T : Finset Key}
    (h : Crowds fullHash maxChainLength T key) (hT : ∀ x ∈ T, (σ x).isSome)
    (hkey : σ key = none) : hashmapHash m key = none := by
  have hplace : ∀ x ∈ T, ∃ i, i < maxChainLength ∧
      ∃ v, m.data[(fullHash x + i) % m.tableSize]? = some (some (x, v)) := by
    intro x hx
    obtain ⟨v, hv⟩ := Option.isSome_iff_exists.mp (hT x hx)
    obtain ⟨c, hc⟩ := (hr.content x v).mp hv
    obtain ⟨i, hi, hci⟩ := hr.window c x v hc
    rw [position_eq] at hci
    exact ⟨i, hi, v, by rw [← hci]; exact hc⟩
  choose! shift hshift hslot using hplace
  have hfull : ∀ i < maxChainLength, m.data[(fullHash key + i) % m.tableSize]? ≠ some none := by
    refine @full_of_crowds _ _ _ m.tableSize _ _ h (fun p => m.data[p]? ≠ some none) shift ?_ ?_
    · intro x hx j hj
      obtain ⟨v, hv⟩ := hslot x hx
      rcases Nat.lt_or_eq_of_le hj with hlt | rfl
      · have hfree := hg x v (shift x) (hshift x hx) (by rw [position_eq]; exact hv) j hlt
        rwa [position_eq] at hfree
      · rw [hv]
        nofun
    · intro x hx y hy heq
      obtain ⟨u, hu⟩ := hslot x hx
      obtain ⟨v, hv⟩ := hslot y hy
      rw [heq, hv] at hu
      exact (Prod.mk.inj (Option.some.inj (Option.some.inj hu))).1.symm
  unfold hashmapHash
  split_ifs with hhalf
  · rfl
  · rw [← m.length_data]
    refine Option.eq_none_iff_forall_ne_some.mpr fun c hc => ?_
    obtain ⟨i, hi, hci, hhit, -⟩ := scan_eq_some (m.hash_lt key) hc
    rw [position_eq] at hci
    rcases hit_freeOrKeyed_iff.mp hhit with hfree | ⟨v, hv⟩
    · exact hfull i hi (by rw [← hci]; exact hfree)
    · rw [(hr.content key v).mpr ⟨c, hv⟩] at hkey
      cases hkey

end Places

section Growth
variable {S : Set Key}

theorem Settled.grown {m : Map α} (h : Invariant m) : Settled S m.grown where
  invariant := h.grown
  rep := ⟨_, rep_grown m⟩
  gapless := gapless_grown m
  keys k hk := absurd hk (not_has_grown m k)
  room := by
    have hpos := tableSize_pos m
    rw [Map.grown_size, Map.grown_tableSize]
    omega

theorem Settled.put {m m' : Map α} {key : Key} {value : α} {fuel n n' : ℕ} (h : Settled S m)
    (hkey : key ∈ S) (hroom : m.size + 1 < m.tableSize / 2)
    (hrun : hashmapPut (fun _ => true) fuel m n key value = some (.ok, m', n')) :
    Settled S m' ∧ m'.size ≤ m.size + 1 ∧ m.tableSize ≤ m'.tableSize := by
  obtain ⟨σ, hr⟩ := h.rep
  obtain ⟨hinv, hsize, htable⟩ :=
    (put_cases (putCases_size _) fuel m n key value .ok m' n' hrun).2 h.invariant
  have hkeys := (put_cases (putCases_keys _) fuel m n key value .ok m' n' hrun).2
  refine ⟨⟨hinv, ⟨_, hashmapPut_unshadowed hr (not_shadowed_of_gapless hr h.gapless) hrun⟩,
    hashmapPut_gapless hr h.gapless hrun, ?_, by omega⟩, hsize, htable⟩
  intro k hk
  rcases hkeys k hk with hold | ⟨-, rfl⟩
  · exact h.keys k hold
  · exact hkey

/-- Every put of a key of the set into a settled map of at least this table size returns. -/
def Places (α : Type) (S : Set Key) (b : ℕ) : Prop :=
  ∀ (m : Map α) (n : ℕ) (key : Key) (value : α), Settled S m → b ≤ m.tableSize → key ∈ S →
    ∃ m' n', RunPut (fun _ => true) m n key value .ok m' n'

/-- The loop returns if its puts do. What is still to be moved fits beside what is there. -/
theorem Places.move {b : ℕ} (hput : Places α S b) {curr : List (Option (Key × α))}
    (hcurr : ∀ k, Has curr k → k ∈ S) {m : Map α} (h : Settled S m) (hb : b ≤ m.tableSize)
    (hroom : m.size + used curr < m.tableSize / 2) (n : ℕ) :
    ∃ u k, RunMove (fun _ => true) curr m n .ok u k ∧ Settled S u ∧ b ≤ u.tableSize := by
  induction curr generalizing m n with
  | nil => exact ⟨m, n, putCases_run.moved m n, h, hb⟩
  | cons slot curr ih =>
      cases slot with
      | none =>
          have hused : used (none :: curr) = used curr := by simp [used]
          rw [hused] at hroom
          obtain ⟨u, k, hrun, hu⟩ := ih (fun k hk => hcurr k (has_cons_none.mpr hk)) h hb hroom n
          exact ⟨u, k, putCases_run.free hrun, hu⟩
      | some e =>
          obtain ⟨key, value⟩ := e
          rw [used_some] at hroom
          have hkey : key ∈ S := hcurr key ((has_cons_some value).mpr (.inl rfl))
          obtain ⟨v, i, fuel, hrun⟩ := hput m n key value h hb hkey
          obtain ⟨hv, hsize, htable⟩ := h.put hkey (by omega) hrun
          obtain ⟨u, k, hmoves, hu⟩ :=
            ih (fun k hk => hcurr k ((has_cons_some value).mpr (.inr hk))) hv (by omega)
              (by omega) i
          exact ⟨u, k, putCases_run.put ⟨fuel, hrun⟩ hmoves, hu⟩

theorem Places.grow {b : ℕ} (hput : Places α S b) {m : Map α} (h : Invariant m)
    (hkeys : ∀ k, Has m.data k → k ∈ S) (hb : b ≤ 2 * m.tableSize) {key : Key} (hkey : key ∈ S)
    (value : α) (n : ℕ) : ∃ m' n', RunPut (fun _ => true) m n key value .ok m' n' := by
  cases hh : hashmapHash m key with
  | some index => exact ⟨_, _, putCases_run.stored hh value⟩
  | none =>
      have hpos := tableSize_pos m
      have hused := h.used
      have hsize := h.size
      obtain ⟨u, k, hmove, hu, hbu⟩ := hput.move hkeys (.grown h) hb
        (by rw [Map.grown_size, Map.grown_tableSize]; omega) (n + 1)
      obtain ⟨m', n', hrun⟩ := hput u k key value hu hbu hkey
      exact ⟨m', n', putCases_run.grown hh rfl hmove hrun⟩

/-- The induction is on the number of doublings after which the table is wide enough. -/
theorem places_of_doublings (hS : Sparse fullHash maxChainLength S) (d b : ℕ)
    (hd : 2 ^ 64 + maxChainLength ≤ b * 2 ^ d) : Places α S b := by
  induction d generalizing b with
  | zero =>
      intro m n key value h hb hkey
      obtain ⟨index, hh⟩ := Option.ne_none_iff_exists'.mp
        (h.place (by unfold Wide; omega) hS hkey)
      exact ⟨_, _, putCases_run.stored hh value⟩
  | succ d ih =>
      intro m n key value h hb hkey
      refine Places.grow (ih (2 * b) ?_) h.invariant h.keys (by omega) hkey value n
      calc 2 ^ 64 + maxChainLength ≤ b * 2 ^ (d + 1) := hd
        _ = 2 * b * 2 ^ d := by rw [pow_succ', Nat.mul_comm 2 b, Nat.mul_assoc]

/-- If no key of the set is crowded, a put returns on every map that satisfies the
representation invariant, also on one that removals have left gaps in. -/
theorem put_returns (hS : Sparse fullHash maxChainLength S) {m : Map α} (h : Invariant m)
    (hkeys : ∀ k, Has m.data k → k ∈ S) {key : Key} (hkey : key ∈ S) (value : α) (n : ℕ) :
    ∃ m' n', RunPut (fun _ => true) m n key value .ok m' n' := by
  refine Places.grow (places_of_doublings hS 61 16 (by decide)) h hkeys ?_ hkey value n
  have hw := m.window_le
  unfold maxChainLength at hw
  omega

end Growth

section Crowded
variable {T : Finset Key} {key : Key}

/-- Every growth stores the same keys again, and the crowded one finds no place in any. -/
theorem putCases_crowded (hcrowds : Crowds fullHash maxChainLength T key) :
    PutCases (α := α) (fun _ => true)
      ((RepPut.and fun _ _ _ _ status _ _ => status = .ok).and fun m _ k _ _ _ _ =>
        k = key → ∀ σ, Rep m σ → Gapless m → (∀ x ∈ T, (σ x).isSome) → σ key = none → False)
      (RepMove.and fun _ _ _ status _ _ => status = .ok) := by
  refine ((putCases_rep _).and putCases_ok).extend ?_ ?_ ?_ ?_
  · rintro m n k index hh value rfl σ hr hg hT hkey
    rw [hash_of_crowds hr hg hcrowds hT hkey] at hh
    cases hh
  · rintro m n k - hcalloc
    cases hcalloc
  · rintro m n k m' n' - - ⟨-, hok⟩
    cases hok
  · rintro m n k value u i status m' n' - - ⟨hmove, -⟩ hput rfl σ hr hg hT hkey
    obtain ⟨hru, hgu⟩ := hmove _ (rep_grown m) (gapless_grown m) rfl
    rw [Represents.overlay_eq hr] at hru
    exact hput rfl σ hru hgu hT hkey

theorem put_never_returns (hcrowds : Crowds fullHash maxChainLength T key) {m : Map α}
    {σ : Key → Option α} (hr : Rep m σ) (hg : Gapless m) (hT : ∀ x ∈ T, (σ x).isSome)
    (hkey : σ key = none) (fuel n : ℕ) (value : α) :
    hashmapPut (fun _ => true) fuel m n key value = none := by
  cases hrun : hashmapPut (fun _ => true) fuel m n key value with
  | none => rfl
  | some out =>
      exact ((put_cases (putCases_crowded hcrowds) fuel m n key value _ _ _ hrun).2.2 rfl σ hr hg
        hT hkey).elim

end Crowded

section KeySets
variable {S : Set Key}

def Within (S : Set Key) (_ : Map α) : Op α → Prop
  | .put key _ => key ∈ S
  | .get _ => True
  | .remove _ => True

theorem has_of_hashmapRemove {m : Map α} {key k : Key} (h : Has (hashmapRemove m key).2.data k) :
    Has m.data k := by
  unfold hashmapRemove at h
  cases hfind : m.find key with
  | none => simpa only [hfind] using h
  | some c =>
      simp only [hfind] at h
      obtain ⟨d, v, hd⟩ := has_iff.mp h
      rcases getElem?_set_some hd with ⟨-, he⟩ | ⟨-, he⟩
      · cases he
      · exact has_iff.mpr ⟨d, v, he⟩

theorem keys_of_call {m m' : Map α} {op : Op α} (hop : Within S m op) (hcall : Call m op m')
    (hkeys : ∀ k, Has m.data k → k ∈ S) : ∀ k, Has m'.data k → k ∈ S := by
  intro k hk
  cases op with
  | put key value =>
      obtain ⟨fuel, n, status, n', hput⟩ := hcall
      rcases (put_cases (putCases_keys _) fuel m n key value status m' n' hput).2 k hk with
        hold | ⟨-, rfl⟩
      · exact hkeys k hold
      · exact hop
  | get key =>
      obtain rfl := hcall
      exact hkeys k hk
  | remove key =>
      obtain rfl := hcall
      exact hkeys k (has_of_hashmapRemove hk)

theorem keys_of_calls {m m' : Map α} {ops : List (Op α)} (hcalls : Calls (Within S) m ops m')
    (hkeys : ∀ k, Has m.data k → k ∈ S) : ∀ k, Has m'.data k → k ∈ S := by
  induction hcalls with
  | done m => exact hkeys
  | call hop hcall _ ih => exact ih (keys_of_call hop hcall hkeys)

/-- Every put of a key of the set returns, whatever calls over the set came before it. -/
def Terminates (α : Type) (S : Set Key) : Prop :=
  ∀ (ops : List (Op α)) (m : Map α), Calls (Within S) hashmapNew ops m →
    ∀ key ∈ S, ∀ (value : α) (n : ℕ),
      ∃ fuel, (hashmapPut (fun _ => true) fuel m n key value).isSome

/-- If every put returns, any keys of the set can be stored together. -/
theorem Terminates.puts (h : Terminates α S) (value : α) (keys : List Key)
    (hkeys : ∀ k ∈ keys, k ∈ S) :
    ∃ m, Calls (Within S) hashmapNew
      ((keys.map fun k => (k, value)).map fun e => .put e.1 e.2) m := by
  induction keys using List.reverseRecOn with
  | nil => exact ⟨_, .done _⟩
  | append_singleton keys key ih =>
      obtain ⟨m, hm⟩ := ih fun k hk => hkeys k (List.mem_append_left _ hk)
      have hkey : key ∈ S := hkeys key (List.mem_append_right _ List.mem_cons_self)
      obtain ⟨fuel, hsome⟩ := h _ m hm key hkey value 0
      obtain ⟨⟨status, m', n'⟩, hput⟩ := Option.isSome_iff_exists.mp hsome
      refine ⟨m', ?_⟩
      rw [List.map_append, List.map_append]
      exact hm.append (.call hkey ⟨fuel, 0, status, n', hput⟩ (.done m'))

/-- Puts end for a set of keys if and only if none of the keys is crowded by others. -/
theorem hashmapPut_terminates_iff [Inhabited α] (S : Set Key) :
    Terminates α S ↔ Sparse fullHash maxChainLength S := by
  constructor
  · intro h key hkey T hT hcrowds
    obtain ⟨m, hm⟩ := h.puts default T.toList fun k hk => hT (Finset.mem_toList.mp hk)
    obtain ⟨hr, hg⟩ := calls_puts_rep rep_new gapless_new hm
    have hstored : ∀ x, x ∈ (T.toList.map fun k => (k, (default : α))).map Prod.fst ↔ x ∈ T := by
      simp
    obtain ⟨fuel, hsome⟩ := h _ m hm key hkey default 0
    rw [put_never_returns hcrowds hr hg (fun x hx => isSome_foldl_record _ ((hstored x).mpr hx))
      (foldl_record_of_notMem fun hx => hcrowds.1 ((hstored key).mp hx))] at hsome
    cases hsome
  · intro hS ops m hm key hkey value n
    have hkeys := keys_of_calls hm fun k ⟨v, hv⟩ => nomatch List.eq_of_mem_replicate hv
    obtain ⟨m', n', fuel, hrun⟩ := put_returns hS (Reachable.new.calls hm).invariant hkeys hkey
      value n
    exact ⟨fuel, by rw [hrun]; rfl⟩

/-- Eight names of eight letters with one hash. -/
def sameHash : List Key :=
  ["aeitzruh", "afgcjdcw", "auzastax", "avtvcbwg", "azhpocya", "bdlupsrq", "bxcfuthg",
    "cldlegok"].map String.toList

/-- The eight fill the window of a ninth, in the sixteen slots of a new map and in every table
that the put of the ninth doubles it to. -/
theorem hashmapPut_doubles_forever :
    ∃ m : Map ℕ, Puts (sameHash.map fun key => (key, 0)) m ∧
      ∀ fuel, hashmapPut (fun _ => true) fuel m 0 "csehpvcb".toList 0 = none := by
  have hhash : ∀ key ∈ sameHash, fullHash key = fullHash "csehpvcb".toList := by decide +kernel
  have hcrowds : Crowds fullHash maxChainLength sameHash.toFinset "csehpvcb".toList :=
    crowds_of_home (by decide +kernel) (fun x hx => hhash x (List.mem_toFinset.mp hx))
      (by decide +kernel)
  have hrun : (filled (sameHash.map fun key => (key, 0))).isSome := by decide +kernel
  obtain ⟨m, hm⟩ := Option.isSome_iff_exists.mp hrun
  have hputs := puts_of_filled hm
  refine ⟨m, hputs, fun fuel => put_never_returns hcrowds hputs.rep.1 hputs.rep.2 ?_ ?_ fuel 0 0⟩
  · intro x hx
    exact isSome_foldl_record _ (by simpa using hx)
  · exact foldl_record_of_notMem (by decide +kernel)

end KeySets

end Dowse.HashmapInvariant
