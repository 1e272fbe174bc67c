import Dowse.GuardedRuns
import Dowse.Nfqueue
import Mathlib.Algebra.BigOperators.Group.List.Lemmas

/-!
# The statistics of pgld

Every dropped packet raises the counter of one range, announces itself once and gets
one verdict. A counter is an unsigned integer and wraps. The daemon prints the
counters on a signal and may reset them; loading the lists again starts with new ones.

What the counters say is measured against the addresses that decided about the packets
since the counters were last zero.
-/
namespace Dowse.Pgld
open CStrings SortedSearch Blocklist GuardedRuns

section Counting
variable {α β : Type*}

theorem sum_countP_cons (kinds : List α) (r : α → β → Bool) (b : β) (l : List β) :
    (kinds.map fun a => (b :: l).countP (r a)).sum =
      (kinds.map fun a => l.countP (r a)).sum + kinds.countP (r · b) := by
  induction kinds with
  | nil => rfl
  | cons a kinds ih =>
      rw [List.map_cons, List.sum_cons, ih, List.map_cons, List.sum_cons, List.countP_cons,
        List.countP_cons]
      omega

/-- If everything in a list is of exactly one kind, the numbers of each kind add up. -/
theorem sum_countP_kinds {kinds : List α} {r : α → β → Bool} {l : List β}
    (h : ∀ b ∈ l, kinds.countP (r · b) = 1) :
    (kinds.map fun a => l.countP (r a)).sum = l.length := by
  induction l with
  | nil => simp
  | cons b l ih =>
      obtain ⟨hb, hl⟩ := List.forall_mem_cons.mp h
      rw [sum_countP_cons, ih hl, hb, List.length_cons]

end Counting

/-- The daemon, the addresses for which packets were dropped since the counters were last zero, and
the number of packets dropped before. -/
structure Daemon where
  state : State
  dropped : List UInt32
  earlier : ℕ

inductive Event
  | packet (tvSec : ℕ) (nfa : NfqData)
  | stats (clearhits : Bool)
  | reload (ranges : List Range) (lines : List (Priority × Text))

/-- The first of the checked addresses that is found. -/
def deciding (b : Table) (nfa : NfqData) : Option UInt32 :=
  nfa.msgPacketHdr.bind fun ph =>
    (checked nfa (hookOf ph.hook)).find? fun ip => (blocklistFindAt b ip).isSome

def Daemon.reset (d : Daemon) (s : State) : Daemon := ⟨s, [], d.earlier + d.dropped.length⟩

/-- One packet or signal. A reload that faults ends the daemon in the state it was in. -/
def step (c : Setup) (d : Daemon) : Event → Daemon
  | .packet tvSec nfa =>
      { d with state := (nfqueueCb c.little tvSec nfa d.state).2
               dropped := d.dropped ++ (deciding d.state.blocklist nfa).toList }
  | .stats clearhits =>
      let s := blocklistStats c.lowmem clearhits d.state
      if clearhits then d.reset s else { d with state := s }
  | .reload ranges lines =>
      match loadAllLists c.lowmem c.qsort c.iconv ranges with
      | some b => d.reset { d.state with blocklist := b, log := d.state.log ++ lines }
      | none => d

/-- What a callback does, by the address that decided. -/
inductive Effect (s : State) : Option UInt32 → State → Prop
  | passed {s' : State} : s'.blocklist = s.blocklist → s'.verdicts = s.verdicts →
      s'.published = s.published → Effect s none s'
  | dropped {s' : State} {ip : UInt32} {i : ℕ} : blocklistFindAt s.blocklist ip = some i →
      s'.blocklist = hit s.blocklist i → s'.verdicts.length = s.verdicts.length + 1 →
      s'.published.length = s.published.length + 1 → Effect s (some ip) s'

theorem effect_block {s t : State} (hb : t.blocklist = s.blocklist) (hv : t.verdicts = s.verdicts)
    (hp : t.published = s.published) (id : UInt32) {ip : UInt32} {i : ℕ}
    (hfind : blocklistFindAt s.blocklist ip = some i) (command : Text) :
    Effect s (some ip) (t.block id i command) := by
  refine .dropped hfind ?_ ?_ ?_
  · simp only [State.block, hb]
  · simp only [State.block, hv, List.length_append, List.length_singleton]
  · simp only [State.block, hp, List.length_append, List.length_singleton]

/-- The callback drops a packet exactly if one of the checked addresses is found, for the first
of them. -/
theorem nfqueueCb_effect (little : Bool) (tvSec : ℕ) (nfa : NfqData) (s : State) :
    Effect s (deciding s.blocklist nfa) (nfqueueCb little tvSec nfa s).2 := by
  unfold deciding
  cases hph : nfa.msgPacketHdr with
  | none =>
      simp only [nfqueueCb, hph]
      exact .passed rfl rfl rfl
  | some ph =>
      simp only [nfqueueCb, hph, ntohl_loadWord, Option.bind_some]
      cases hookOf ph.hook with
      | localIn =>
          simp only [checked, List.find?_cons, List.find?_nil, State.doLog]
          cases hfind : blocklistFindAt s.blocklist (addressAt nfa.payload saddrOffset) with
          | none => exact .passed rfl rfl rfl
          | some i => refine effect_block ?_ ?_ ?_ _ hfind _ <;> rfl
      | localOut =>
          simp only [checked, List.find?_cons, List.find?_nil, State.doLog]
          cases hfind : blocklistFindAt s.blocklist (addressAt nfa.payload daddrOffset) with
          | none => exact .passed rfl rfl rfl
          | some i => refine effect_block ?_ ?_ ?_ _ hfind _ <;> rfl
      | forward =>
          simp only [checked, List.find?_cons, List.find?_nil, State.doLog]
          cases hdest : blocklistFindAt s.blocklist (addressAt nfa.payload daddrOffset) with
          | some i => refine effect_block ?_ ?_ ?_ _ hdest _ <;> rfl
          | none =>
              cases hsource : blocklistFindAt s.blocklist (addressAt nfa.payload saddrOffset) with
              | none => exact .passed rfl rfl rfl
              | some i => refine effect_block ?_ ?_ ?_ _ hsource _ <;> rfl
      | other => exact .passed rfl rfl rfl

section Entries
variable {b : Table}

theorem has_of_findAt {ip : UInt32} {i : ℕ} (h : blocklistFindAt b ip = some i) :
    ∃ e, b.entries[i]? = some e ∧ e.Has ip := by
  have hget : (bsearchAt (blockKeyCompare ip) b.entries).bind (b.entries[·]?) =
      bsearch (blockKeyCompare ip) b.entries := bsearchAt_getElem
  rw [show bsearchAt (blockKeyCompare ip) b.entries = some i from h, Option.bind_some] at hget
  have hlt : i < b.entries.length := searchAt_lt h
  rw [List.getElem?_eq_getElem hlt] at hget ⊢
  exact ⟨_, rfl, (blockKeyCompare_eq_iff ip _).mp (bsearch_sound hget.symm).2⟩

theorem apart_hit (h : b.entries.Pairwise Apart) (i : ℕ) : (hit b i).entries.Pairwise Apart := by
  have hserves : Serves [] b := ⟨h, by rintro ip ⟨r, hr, -⟩; cases hr⟩
  exact (hserves.congr (spans_hit b i)).apart

theorem not_has_of_apart {e f : Entry} (h : Apart e f) {ip : UInt32} (he : e.Has ip) :
    ¬ f.Has ip := by
  grind [Apart, top]

/-- No two ranges have an address in common. -/
theorem index_eq_of_has (h : b.entries.Pairwise Apart) {ip : UInt32} {i j : ℕ} {e f : Entry}
    (hi : b.entries[i]? = some e) (hj : b.entries[j]? = some f) (he : e.Has ip) (hf : f.Has ip) :
    i = j := by
  obtain ⟨hilt, rfl⟩ := List.getElem?_eq_some_iff.mp hi
  obtain ⟨hjlt, rfl⟩ := List.getElem?_eq_some_iff.mp hj
  have hpair := List.pairwise_iff_getElem.mp h
  rcases Nat.lt_trichotomy i j with hlt | heq | hgt
  · exact absurd hf (not_has_of_apart (hpair i j hilt hjlt hlt) he)
  · exact heq
  · exact absurd he (not_has_of_apart (hpair j i hjlt hilt hgt) hf)

theorem countP_has (h : b.entries.Pairwise Apart) {ip : UInt32} (hip : Listed b.entries ip) :
    b.entries.countP (fun e => decide (e.Has ip)) = 1 := by
  obtain ⟨e, he, hhas⟩ := hip
  obtain ⟨front, back, heq⟩ := List.append_of_mem he
  rw [heq] at h ⊢
  obtain ⟨-, hback, hfront⟩ := List.pairwise_append.mp h
  have hnone : ∀ f ∈ front, ¬ f.Has ip := fun f hf hfip =>
    not_has_of_apart (hfront f hf e List.mem_cons_self) hfip hhas
  have hnone' : ∀ f ∈ back, ¬ f.Has ip := fun f hf =>
    not_has_of_apart ((List.pairwise_cons.mp hback).1 f hf) hhas
  rw [List.countP_append, List.countP_cons_of_pos (by simpa using hhas),
    List.countP_eq_zero.mpr (by simpa using hnone),
    List.countP_eq_zero.mpr (by simpa using hnone')]

end Entries

section Zero
variable {lowmem : Bool}

def Zero (es : List Entry) : Prop := ∀ e ∈ es, e.hits = 0

theorem zero_appendRanges (iconv : Text → Option Text) (ranges : List Range) :
    Zero (appendRanges lowmem iconv ranges).entries := by
  suffices h : ∀ b : Table, Zero b.entries → Zero (ranges.foldl
      (fun b r => blocklistAppend lowmem iconv b r.ipMin r.ipMax r.name) b).entries from
    h blocklistInit fun e he => by cases he
  induction ranges with
  | nil => exact fun b hb => hb
  | cons r ranges ih =>
      intro b hb
      refine ih _ fun e he => ?_
      rcases List.mem_append.mp he with hold | hnew
      · exact hb e hold
      · rw [List.mem_singleton.mp hnew]

/-- The absorbing entry keeps its counter, and the blanks have none. -/
theorem zero_mergeFrom {fuel : ℕ} {numips : UInt32} {es : List Entry} (h : Zero es) :
    Zero (mergeFrom lowmem fuel numips es).entries := by
  induction fuel generalizing numips es with
  | zero => exact h
  | succ fuel ih =>
      cases es with
      | nil => exact h
      | cons e es =>
          obtain ⟨he, hes⟩ := List.forall_mem_cons.mp h
          intro f hf
          rcases List.mem_cons.mp hf with rfl | hf
          · exact he
          rcases List.mem_append.mp hf with hblank | hrest
          · obtain ⟨g, -, rfl⟩ := List.mem_map.mp hblank
            rfl
          · exact ih (fun g hg => hes g (List.mem_of_mem_drop hg)) f hrest

theorem zero_mergeLoop {qsort : List Entry → List Entry} (hq : SortsByMin qsort) {fuel : ℕ}
    {b b' : Table} (hb : Zero b.entries) (h : mergeLoop lowmem qsort fuel b = some b') :
    Zero b'.entries := by
  induction fuel generalizing b with
  | zero =>
      obtain rfl := Option.some.inj h
      exact hb
  | succ fuel ih =>
      simp only [mergeLoop] at h
      split_ifs at h
      · obtain rfl := Option.some.inj h
        exact hb
      · obtain rfl := Option.some.inj h
        exact zero_mergeFrom hb
      · refine ih (fun e he => ?_) h
        exact zero_mergeFrom hb e ((hq.perm _).mem_iff.mp (List.mem_of_mem_take he))

theorem zero_loadAllLists {c : Setup} (hq : SortsByMin c.qsort) {ranges : List Range} {b : Table}
    (h : loadAllLists c.lowmem c.qsort c.iconv ranges = some b) : Zero b.entries :=
  zero_mergeLoop hq
    (fun e he => zero_appendRanges c.iconv ranges e ((hq.perm _).mem_iff.mp he)) h

end Zero

/-- Each counter says how many of the addresses lie in its range, and every verdict has been
announced. -/
structure Exact (d : Daemon) : Prop where
  apart : d.state.blocklist.entries.Pairwise Apart
  listed : ∀ ip ∈ d.dropped, Listed d.state.blocklist.entries ip
  hits : ∀ e ∈ d.state.blocklist.entries,
    e.hits = d.dropped.countP (fun ip => decide (e.Has ip)) % 2 ^ 32
  verdicts : d.state.verdicts.length = d.earlier + d.dropped.length
  published : d.state.published.length = d.state.verdicts.length

/-- Counters at zero are exact for what comes after them. -/
theorem Exact.reset {d : Daemon} (h : Exact d) {s : State}
    (hapart : s.blocklist.entries.Pairwise Apart) (hzero : Zero s.blocklist.entries)
    (hv : s.verdicts = d.state.verdicts) (hp : s.published = d.state.published) :
    Exact (d.reset s) where
  apart := hapart
  listed := by rintro ip ⟨⟩
  hits e he := hzero e he
  verdicts := by rw [Daemon.reset, hv, h.verdicts]; rfl
  published := by rw [Daemon.reset, hv, hp, h.published]

/-- The range of the address has counted it, and no other. -/
theorem Exact.hits_hit {d : Daemon} (h : Exact d) {ip : UInt32} {i : ℕ} {e f : Entry}
    (hget : d.state.blocklist.entries[i]? = some e) (hhas : e.Has ip)
    (hf : f ∈ (hit d.state.blocklist i).entries) :
    f.hits = (d.dropped ++ [ip]).countP (fun ip => decide (f.Has ip)) % 2 ^ 32 := by
  obtain ⟨j, hj⟩ := List.mem_iff_getElem?.mp hf
  rw [hit, List.getElem?_modify] at hj
  obtain ⟨g, hg, rfl⟩ := Option.map_eq_some_iff.mp hj
  have hcount := h.hits g (List.mem_of_getElem? hg)
  by_cases hij : i = j
  · subst hij
    obtain rfl : e = g := Option.some.inj (hget.symm.trans hg)
    simp only [if_true]
    change (e.hits + 1) % 2 ^ 32 =
      (d.dropped ++ [ip]).countP (fun ip => decide (e.Has ip)) % 2 ^ 32
    rw [List.countP_append, List.countP_singleton, if_pos (by simpa using hhas), hcount]
    omega
  · have hnot : ¬ g.Has ip := fun hghas => hij (index_eq_of_has h.apart hget hg hhas hghas)
    simp [if_neg hij, List.countP_append, hnot, hcount]

theorem Exact.packet {c : Setup} {d : Daemon} (h : Exact d) (tvSec : ℕ) (nfa : NfqData) :
    Exact (step c d (.packet tvSec nfa)) := by
  have heffect := nfqueueCb_effect c.little tvSec nfa d.state
  simp only [step]
  generalize (nfqueueCb c.little tvSec nfa d.state).2 = s' at heffect ⊢
  generalize deciding d.state.blocklist nfa = o at heffect ⊢
  cases heffect with
  | passed hb hv hp =>
      simp only [Option.toList_none, List.append_nil]
      exact ⟨hb ▸ h.apart, hb ▸ h.listed, hb ▸ h.hits, hv ▸ h.verdicts, by
        rw [hp, hv]
        exact h.published⟩
  | @dropped _ ip i hfind hb hv hp =>
      obtain ⟨e, hget, hhas⟩ := has_of_findAt hfind
      have hlisted : Listed d.state.blocklist.entries ip := ⟨e, List.mem_of_getElem? hget, hhas⟩
      refine ⟨hb ▸ apart_hit h.apart i, ?_, ?_, ?_, by rw [hp, hv, h.published]⟩
      · intro ip' hip'
        rw [hb, listed_iff_spans, spans_hit, ← listed_iff_spans]
        rcases List.mem_append.mp hip' with hold | hnew
        · exact h.listed ip' hold
        · rwa [List.mem_singleton.mp hnew]
      · intro f hf
        rw [hb] at hf
        exact h.hits_hit hget hhas hf
      · simp only [hv, h.verdicts, Option.toList_some, List.length_append, List.length_singleton]
        omega

theorem Exact.stats {c : Setup} {d : Daemon} (h : Exact d) (clearhits : Bool) :
    Exact (step c d (.stats clearhits)) := by
  cases clearhits with
  | false => exact ⟨h.apart, h.listed, h.hits, h.verdicts, h.published⟩
  | true =>
      have hserves : Serves [] d.state.blocklist :=
        ⟨h.apart, by rintro ip ⟨r, hr, -⟩; cases hr⟩
      refine h.reset (hserves.congr (spans_blocklistStats c.lowmem true d.state)).apart ?_ rfl rfl
      intro e he
      obtain ⟨f, -, rfl⟩ := List.mem_map.mp he
      rfl

theorem Exact.step {c : Setup} (hq : SortsByMin c.qsort) {d : Daemon} (h : Exact d) (ev : Event) :
    Exact (step c d ev) := by
  cases ev with
  | packet tvSec nfa => exact h.packet tvSec nfa
  | stats clearhits => exact h.stats clearhits
  | reload ranges lines =>
      simp only [Pgld.step]
      cases hload : loadAllLists c.lowmem c.qsort c.iconv ranges with
      | none => exact h
      | some b =>
          exact h.reset (serves_loadAllLists hq hload).apart (zero_loadAllLists hq hload) rfl rfl

/-- The counters add up to the number of addresses, as far as the counter of the sum goes. -/
theorem Exact.total {d : Daemon} (h : Exact d) :
    (d.state.blocklist.entries.map Entry.hits).sum % 2 ^ 32 = d.dropped.length % 2 ^ 32 := by
  have hcounts : d.state.blocklist.entries.map Entry.hits =
      (d.state.blocklist.entries.map fun e =>
        d.dropped.countP (fun ip => decide (e.Has ip))).map (· % 2 ^ 32) := by
    rw [List.map_map]
    exact List.map_congr_left h.hits
  rw [hcounts, ← List.sum_nat_mod,
    sum_countP_kinds fun ip hip => countP_has h.apart (h.listed ip hip)]

/-- The last line of the statistics. -/
theorem getLast_blocklistStats (lowmem clearhits : Bool) (s : State) :
    (blocklistStats lowmem clearhits s).log.getLast? = some (.info, "STATS: ".toList ++
      Nat.toDigits 10 ((s.blocklist.entries.map Entry.hits).sum % 2 ^ 32) ++
      " hits total".toList) := by
  have hsum : ∀ es : List Entry,
      ((es.filter (·.hits ≥ 1)).map Entry.hits).sum = (es.map Entry.hits).sum := by
    intro es
    induction es with
    | nil => rfl
    | cons e es ih =>
        by_cases he : e.hits ≥ 1
        · rw [List.filter_cons_of_pos (by simpa using he), List.map_cons, List.sum_cons, ih,
            List.map_cons, List.sum_cons]
        · rw [List.filter_cons_of_neg (by simpa using he), ih, List.map_cons, List.sum_cons]
          omega
  simp only [blocklistStats, hsum, List.map_append, List.map_cons, List.map_nil,
    ← List.append_assoc, List.getLast?_concat]

/-- The state in which the daemon starts. -/
def start (c : Setup) (b : Table) (lines : List (Priority × Text)) : Daemon :=
  ⟨⟨b, c.acceptMark, c.rejectMark, [], [], lines⟩, [], 0⟩

theorem exact_start {c : Setup} (hq : SortsByMin c.qsort) {ranges : List Range} {b : Table}
    (h : loadAllLists c.lowmem c.qsort c.iconv ranges = some b) (lines : List (Priority × Text)) :
    Exact (start c b lines) where
  apart := (serves_loadAllLists hq h).apart
  listed := by rintro ip ⟨⟩
  hits e he := zero_loadAllLists hq h e he
  verdicts := rfl
  published := rfl

/-- Throughout every run of packets and signals, each range has counted the packets that were
dropped for an address in it since the counters were last zero, the sum that the daemon prints
is the number of all of them, and every dropped packet has one verdict and one announcement. -/
theorem statistics_exact {c : Setup} (hq : SortsByMin c.qsort) {ranges : List Range} {b : Table}
    (hload : loadAllLists c.lowmem c.qsort c.iconv ranges = some b)
    (lines : List (Priority × Text)) (evs : List Event) :
    Throughout (step c) (fun d =>
      (∀ e ∈ d.state.blocklist.entries,
        e.hits = d.dropped.countP (fun ip => decide (e.Has ip)) % 2 ^ 32) ∧
      d.state.verdicts.length = d.earlier + d.dropped.length ∧
      d.state.published.length = d.state.verdicts.length ∧
      ∀ clearhits, (blocklistStats c.lowmem clearhits d.state).log.getLast? =
        some (.info, "STATS: ".toList ++ Nat.toDigits 10 (d.dropped.length % 2 ^ 32) ++
          " hits total".toList))
      (start c b lines) evs := by
  refine (throughout_of_along (I := Exact) (P := fun _ _ => True) (fun d ev h _ => h.step hq ev)
    (exact_start hq hload lines) (along_of_forall (fun _ _ => trivial) _ evs)).mono ?_
  intro d h
  refine ⟨h.hits, h.verdicts, h.published, fun clearhits => ?_⟩
  rw [getLast_blocklistStats, h.total]

/-- A packet from 10.0.0.1 comes in and one from 8.0.0.1, and the statistics are asked for. -/
theorem statistics_exact_ten :
    Throughout (step tenSetup) (fun d =>
      (∀ e ∈ d.state.blocklist.entries,
        e.hits = d.dropped.countP (fun ip => decide (e.Has ip)) % 2 ^ 32) ∧
      d.state.verdicts.length = d.earlier + d.dropped.length ∧
      d.state.published.length = d.state.verdicts.length ∧
      ∀ clearhits, (blocklistStats false clearhits d.state).log.getLast? =
        some (.info, "STATS: ".toList ++ Nat.toDigits 10 (d.dropped.length % 2 ^ 32) ++
          " hits total".toList))
      (start tenSetup tenTable [])
      [.packet 0 (packetFrom 10 1), .packet 0 (packetFrom 8 1), .stats true] :=
  statistics_exact (c := tenSetup) (sortsByMin_sortBy Wider) tenTable_loaded [] _

end Dowse.Pgld
