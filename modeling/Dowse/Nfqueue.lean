import Dowse.BlocklistLoading
import Dowse.NetworkAddresses
import Mathlib.Algebra.GroupWithZero.Nat

/-!
# The packet queue of pgld

The kernel hands packets to `nfqueue_cb` and keeps each one until a verdict is set for its id.
The callback looks the source or the destination address up in the blocklist, depending on
the hook, and drops what it finds. The branch that would let the other packets pass, with the
mark for accepted ones, is commented out at all three hooks.

Signals are taken between packets: the daemon prints its statistics, which can reset the hit
counters, or loads the lists again. The host is little or big endian; addresses and packet ids
arrive in network order.
-/
namespace Dowse.Pgld
open CStrings SortedSearch Blocklist

inductive Hook
  | localIn
  | forward
  | localOut
  | other
  deriving DecidableEq, Repr

/-- The hook numbers of `netfilter_ipv4.h` that the callback tells apart. -/
def hookOf (n : UInt8) : Hook :=
  if n = 1 then .localIn else if n = 2 then .forward else if n = 3 then .localOut else .other

/-- `struct nfqnl_msg_packet_hdr`, with the packet id as it is loaded from the message. -/
structure PacketHdr where
  packetId : UInt32
  hook : UInt8
  deriving DecidableEq, Repr

/-- What the queue hands over. The copy mode that the daemon sets delivers the first 24 bytes of
a packet, so at least the fixed part of its IP header. -/
structure NfqData where
  msgPacketHdr : Option PacketHdr
  payload : List UInt8
  header_le : 20 ≤ payload.length
  deriving DecidableEq, Repr

inductive NfVerdict
  | drop
  | accept
  | stolen
  | queue
  | repeated
  | stop
  deriving DecidableEq, Repr

/-- The arguments of `nfq_set_verdict2`; the packet is never replaced. -/
structure SetVerdict where
  id : UInt32
  verdict : NfVerdict
  mark : UInt32
  deriving DecidableEq, Repr

inductive Priority
  | err
  | notice
  | info
  deriving DecidableEq, Repr

structure State where
  blocklist : Table
  acceptMark : UInt32
  rejectMark : UInt32
  verdicts : List SetVerdict
  published : List Text
  log : List (Priority × Text)
  deriving DecidableEq, Repr

def State.doLog (s : State) (priority : Priority) (message : Text) : State :=
  { s with log := s.log ++ [(priority, message)] }

/-- `NIPQUAD`: the bytes of an address in the packet. -/
def nipquad (bytes : List UInt8) (i : ℕ) : Text :=
  dotted (bytes.getD i 0) (bytes.getD (i + 1) 0) (bytes.getD (i + 2) 0) (bytes.getD (i + 3) 0)

def saddrOffset : ℕ := 12

def daddrOffset : ℕ := 16

def channel : Text := "pgl-info-channel".toList

/-- The command that announces a blocked packet, as `cmd_redis` formats it. -/
def publishCommand (first second : Text) (tvSec : ℕ) : Text :=
  snprintf 511 ("publish ".toList ++ channel ++ " PGL,".toList ++ first ++ ",BLOCK,".toList ++
    Nat.toDigits 10 tvSec ++ [','] ++ second)

/-- `found_range->hits++` for the entry at this position. -/
def hit (b : Table) (i : ℕ) : Table :=
  { b with entries := b.entries.modify i fun e => { e with hits := (e.hits + 1) % 2 ^ 32 } }

def blocklistFindAt (b : Table) (ip : UInt32) : Option ℕ :=
  bsearchAt (blockKeyCompare ip) b.entries

/-- What all three hooks do for a range that was found. -/
def State.block (s : State) (id : UInt32) (foundRange : ℕ) (command : Text) : State :=
  { s with verdicts := s.verdicts ++ [⟨id, .drop, s.rejectMark⟩]
           blocklist := hit s.blocklist foundRange
           published := s.published ++ [command] }

def nfqueueCb (little : Bool) (tvSec : ℕ) (nfa : NfqData) (s : State) : ℤ × State :=
  let s := s.doLog .info " called nfqueue_cb".toList
  match nfa.msgPacketHdr with
  | none => (1, s.doLog .err "ERROR: NFQUEUE: can't get msg packet header.".toList)
  | some ph =>
      let id := ntohl little ph.packetId
      let saddr := ntohl little (loadWord little nfa.payload saddrOffset)
      let daddr := ntohl little (loadWord little nfa.payload daddrOffset)
      let source := nipquad nfa.payload saddrOffset
      let dest := nipquad nfa.payload daddrOffset
      match hookOf ph.hook with
      | .localIn =>
          match blocklistFindAt s.blocklist saddr with
          | some foundRange => (0, s.block id foundRange (publishCommand dest source tvSec))
          | none => (0, s)
      | .localOut =>
          match blocklistFindAt s.blocklist daddr with
          | some foundRange => (0, s.block id foundRange (publishCommand source dest tvSec))
          | none => (0, s)
      | .forward =>
          let s := s.doLog .info ("Looking for ".toList ++ Nat.toDigits 16 daddr.toNat)
          match (blocklistFindAt s.blocklist daddr).orElse
              fun _ => blocklistFindAt s.blocklist saddr with
          | some foundRange => (0, s.block id foundRange (publishCommand source dest tvSec))
          | none => (0, s)
      | .other => (0, s.doLog .notice "WARN: Not NF_LOCAL_IN/OUT/FORWARD packet!".toList)

def statsLine (lowmem : Bool) (e : Entry) : Text :=
  "STATS: ".toList ++ int2ip e.ipMin ++ ['-'] ++ int2ip e.ipMax ++ ": ".toList ++
    (if lowmem then [] else printed e.name ++ " - ".toList) ++ Nat.toDigits 10 e.hits ++
    " hit(s)".toList

def blocklistStats (lowmem clearhits : Bool) (s : State) : State :=
  let hits := s.blocklist.entries.filter (·.hits ≥ 1)
  let total := (hits.map Entry.hits).sum % 2 ^ 32
  let lines := ["STATS: Blocked hit statistics:".toList] ++ hits.map (statsLine lowmem) ++
    ["STATS: ".toList ++ Nat.toDigits 10 total ++ " hits total".toList]
  let entries := if clearhits then s.blocklist.entries.map ({ · with hits := 0 })
    else s.blocklist.entries
  { s with log := s.log ++ lines.map (Priority.info, ·)
           blocklist := { s.blocklist with entries := entries } }

/-- How the daemon was built and started. -/
structure Setup where
  lowmem : Bool
  little : Bool
  qsort : List Entry → List Entry
  iconv : Text → Option Text
  acceptMark : UInt32
  rejectMark : UInt32

/-- The states of the daemon, each with the ranges that were loaded last. What loading logs
depends on the conversions and merges it makes, and may be any lines here. -/
inductive Reachable (c : Setup) : List Range → State → Prop
  | start {ranges : List Range} {b : Table} (lines : List (Priority × Text)) :
      loadAllLists c.lowmem c.qsort c.iconv ranges = some b →
      Reachable c ranges ⟨b, c.acceptMark, c.rejectMark, [], [], lines⟩
  | packet {ranges : List Range} {s : State} (tvSec : ℕ) (nfa : NfqData) :
      Reachable c ranges s → Reachable c ranges (nfqueueCb c.little tvSec nfa s).2
  | stats {ranges : List Range} {s : State} (clearhits : Bool) :
      Reachable c ranges s → Reachable c ranges (blocklistStats c.lowmem clearhits s)
  | reload {ranges ranges' : List Range} {s : State} {b : Table}
      (lines : List (Priority × Text)) : Reachable c ranges s →
      loadAllLists c.lowmem c.qsort c.iconv ranges' = some b →
      Reachable c ranges' { s with blocklist := b, log := s.log ++ lines }

/-- The addresses that are looked up for a packet, in the order of the lookups. -/
def checked (nfa : NfqData) : Hook → List UInt32
  | .localIn => [addressAt nfa.payload saddrOffset]
  | .localOut => [addressAt nfa.payload daddrOffset]
  | .forward => [addressAt nfa.payload daddrOffset, addressAt nfa.payload saddrOffset]
  | .other => []

/-- The lookups of the callback find something. -/
def found (b : Table) (ips : List UInt32) : Bool := ips.any fun ip => (blocklistFind b ip).isSome

theorem blocklistFindAt_isSome (b : Table) (ip : UInt32) :
    (blocklistFindAt b ip).isSome = (blocklistFind b ip).isSome :=
  bsearchAt_isSome

/-- What a callback does to the verdicts and the list, for the range that it found. -/
inductive Outcome (s : State) (id : UInt32) : Option ℕ → State → Prop
  | passed {s' : State} : s'.verdicts = s.verdicts → s'.blocklist = s.blocklist →
      Outcome s id none s'
  | blocked {s' : State} {i : ℕ} : s'.verdicts = s.verdicts ++ [⟨id, .drop, s.rejectMark⟩] →
      s'.blocklist = hit s.blocklist i → Outcome s id (some i) s'

/-- The common end of the three hooks, after log lines. -/
theorem outcome_block {s t : State} {id : UInt32} (hv : t.verdicts = s.verdicts)
    (hb : t.blocklist = s.blocklist) (hm : t.rejectMark = s.rejectMark) (r : Option ℕ)
    (command : Text) :
    Outcome s id r (match r with
      | some foundRange => ((0 : ℤ), t.block id foundRange command)
      | none => (0, t)).2 := by
  cases r with
  | none => exact .passed hv hb
  | some foundRange => exact .blocked (by simp [State.block, hv, hm]) (by simp [State.block, hb])

/-- With a header the callback blocks the packet when one of its lookups succeeds, and does
nothing about it otherwise. -/
theorem nfqueueCb_outcome (little : Bool) (tvSec : ℕ) {nfa : NfqData} {ph : PacketHdr}
    (hph : nfa.msgPacketHdr = some ph) (s : State) :
    ∃ r, r.isSome = found s.blocklist (checked nfa (hookOf ph.hook)) ∧
      Outcome s (ntohl little ph.packetId) r (nfqueueCb little tvSec nfa s).2 := by
  simp only [nfqueueCb, hph, ntohl_loadWord]
  cases hookOf ph.hook with
  | localIn =>
      refine ⟨blocklistFindAt s.blocklist (addressAt nfa.payload saddrOffset), ?_, ?_⟩
      · simp [found, checked, blocklistFindAt_isSome]
      · refine outcome_block ?_ ?_ ?_ _ _ <;> rfl
  | localOut =>
      refine ⟨blocklistFindAt s.blocklist (addressAt nfa.payload daddrOffset), ?_, ?_⟩
      · simp [found, checked, blocklistFindAt_isSome]
      · refine outcome_block ?_ ?_ ?_ _ _ <;> rfl
  | forward =>
      refine ⟨(blocklistFindAt s.blocklist (addressAt nfa.payload daddrOffset)).orElse
        fun _ => blocklistFindAt s.blocklist (addressAt nfa.payload saddrOffset), ?_, ?_⟩
      · simp [found, checked, ← blocklistFindAt_isSome]
      · refine outcome_block ?_ ?_ ?_ _ _ <;> rfl
  | other => exact ⟨none, rfl, .passed rfl rfl⟩

theorem spans_hit (b : Table) (i : ℕ) : spans (hit b i) = spans b := by
  simp only [spans, hit]
  apply List.ext_getElem?
  intro j
  simp only [List.getElem?_map, List.getElem?_modify]
  cases b.entries[j]? with
  | none => rfl
  | some e => by_cases hij : i = j <;> simp [hij]

theorem spans_nfqueueCb (little : Bool) (tvSec : ℕ) (nfa : NfqData) (s : State) :
    spans (nfqueueCb little tvSec nfa s).2.blocklist = spans s.blocklist := by
  cases hph : nfa.msgPacketHdr with
  | none => simp [nfqueueCb, hph, State.doLog]
  | some ph =>
      obtain ⟨r, -, hr⟩ := nfqueueCb_outcome little tvSec hph s
      cases hr with
      | passed _ hb => rw [hb]
      | blocked _ hb => rw [hb, spans_hit]

theorem spans_blocklistStats (lowmem clearhits : Bool) (s : State) :
    spans (blocklistStats lowmem clearhits s).blocklist = spans s.blocklist := by
  cases clearhits <;> simp [blocklistStats, spans]

/-- The table can be searched and lists every address of the ranges. -/
structure Serves (ranges : List Range) (b : Table) : Prop where
  apart : b.entries.Pairwise Apart
  covers : ∀ ip, Covered ranges ip → Listed b.entries ip

theorem Serves.congr {ranges : List Range} {b b' : Table} (h : Serves ranges b)
    (heq : spans b' = spans b) : Serves ranges b' where
  apart := by
    let R (p q : UInt32 × UInt32) : Prop := p.1 ≤ q.1 ∧ p.2 ≠ top ∧ p.2 + 1 < q.1
    have hb : (spans b).Pairwise R := List.pairwise_map.mpr h.apart
    have hb' : (spans b').Pairwise R := heq ▸ hb
    exact (List.pairwise_map (f := fun e : Entry => (e.ipMin, e.ipMax)) (R := R)).mp hb'
  covers ip hip := by
    rw [listed_iff_spans, heq, ← listed_iff_spans]
    exact h.covers ip hip

theorem serves_loadAllLists {c : Setup} (hq : SortsByMin c.qsort) {ranges : List Range} {b : Table}
    (h : loadAllLists c.lowmem c.qsort c.iconv ranges = some b) : Serves ranges b := by
  obtain ⟨hapart, hcovers⟩ := mergeLoop_covers hq (hq.sorted _) (Nat.lt_succ_self _) h
  refine ⟨hapart, fun ip hip => hcovers ip ?_⟩
  exact (listed_perm (hq.perm _) ip).mpr (listed_appendRanges hip)

theorem Reachable.serves {c : Setup} (hq : SortsByMin c.qsort) {ranges : List Range} {s : State}
    (h : Reachable c ranges s) : Serves ranges s.blocklist := by
  induction h with
  | start _ hb => exact serves_loadAllLists hq hb
  | packet tvSec nfa _ ih => exact ih.congr (spans_nfqueueCb c.little tvSec nfa _)
  | stats clearhits _ ih => exact ih.congr (spans_blocklistStats c.lowmem clearhits _)
  | reload _ _ hb _ => exact serves_loadAllLists hq hb

/-- One of the addresses that are checked for the packet lies in a loaded range. -/
def Blocked (ranges : List Range) (nfa : NfqData) (ph : PacketHdr) : Prop :=
  ∃ ip ∈ checked nfa (hookOf ph.hook), Covered ranges ip

theorem found_of_blocked {ranges : List Range} {b : Table} (hserves : Serves ranges b)
    {nfa : NfqData} {ph : PacketHdr} (h : Blocked ranges nfa ph) :
    found b (checked nfa (hookOf ph.hook)) = true := by
  obtain ⟨ip, hip, hcov⟩ := h
  refine List.any_eq_true.mpr ⟨ip, hip, ?_⟩
  exact (blocklistFind_isSome_iff hserves.apart ip).mpr (hserves.covers ip hcov)

/-- Exactly one verdict is set, for this packet: to drop it with the mark for rejected packets
exactly if it is blocked, and otherwise to let it pass with the mark for accepted ones. -/
def RightVerdict (ranges : List Range) (nfa : NfqData) (ph : PacketHdr) (id : UInt32)
    (s s' : State) : Prop :=
  ∃ v, s'.verdicts = s.verdicts ++ [v] ∧ v.id = id ∧
    (v.verdict = .drop ∧ v.mark = s.rejectMark ↔ Blocked ranges nfa ph) ∧
    (¬ Blocked ranges nfa ph →
      (v.verdict = .accept ∨ v.verdict = .repeated) ∧ v.mark = s.acceptMark)

/-- In every state of the daemon, a packet with a header gets the right verdict if and only if
an address checked for it lies in a loaded range. At a hook other than the three, none is
checked and no verdict is set. -/
theorem nfqueueCb_rightVerdict_iff {c : Setup} (hq : SortsByMin c.qsort) {ranges : List Range}
    {s : State} (hs : Reachable c ranges s) {nfa : NfqData} {ph : PacketHdr}
    (hph : nfa.msgPacketHdr = some ph) (tvSec : ℕ) :
    RightVerdict ranges nfa ph (ntohl c.little ph.packetId) s
      (nfqueueCb c.little tvSec nfa s).2 ↔ Blocked ranges nfa ph := by
  obtain ⟨r, hfound, hr⟩ := nfqueueCb_outcome c.little tvSec hph s
  constructor
  · rintro ⟨v, hv, -, -, hpass⟩
    by_contra hnot
    obtain ⟨haccept, -⟩ := hpass hnot
    cases hr with
    | passed hsame _ => simp [hsame] at hv
    | blocked hdrop _ =>
        obtain rfl := List.singleton_inj.mp (List.append_cancel_left (hdrop.symm.trans hv))
        simp at haccept
  · intro hblocked
    rw [found_of_blocked (hs.serves hq) hblocked] at hfound
    cases hr with
    | passed _ _ => simp at hfound
    | blocked hdrop _ =>
        exact ⟨_, hdrop, rfl, ⟨fun _ => hblocked, fun _ => ⟨rfl, rfl⟩⟩, fun h => absurd hblocked h⟩

/-- The network 10.0.0.0/8. -/
def tenRange : Range := ⟨167772160, 184549375, "ten".toList⟩

def tenSetup : Setup := ⟨false, true, sortWidestFirst, some, 20, 10⟩

def tenTable : Table := ⟨[⟨167772160, 184549375, some "ten".toList, 0⟩], 16384, 16384, 16777216⟩

theorem tenTable_loaded : loadAllLists false sortWidestFirst some [tenRange] = some tenTable := by
  decide +kernel

/-- A packet to 192.168.0.1 from an address that starts with this byte and ends in 0.0.1. -/
def packetFrom (byte : UInt8) (hook : UInt8) : NfqData :=
  ⟨some ⟨16777216, hook⟩, List.replicate 12 0 ++ [byte, 0, 0, 1] ++ [192, 168, 0, 1], by simp⟩

theorem nfqueueCb_rightVerdict_listed :
    RightVerdict [tenRange] (packetFrom 10 1) ⟨16777216, 1⟩ 1 ⟨tenTable, 20, 10, [], [], []⟩
      (nfqueueCb true 0 (packetFrom 10 1) ⟨tenTable, 20, 10, [], [], []⟩).2 :=
  (nfqueueCb_rightVerdict_iff (c := tenSetup) (sortsByMin_sortBy Wider)
    (.start [] tenTable_loaded) rfl 0).mpr
    ⟨167772161, by decide +kernel, tenRange, List.mem_singleton_self _, by decide, by decide⟩

/-- A packet from 8.0.0.1, which no range lists, gets no verdict at any of the three hooks. -/
theorem nfqueueCb_leaves_packet :
    Reachable tenSetup [tenRange] ⟨tenTable, 20, 10, [], [], []⟩ ∧
    ∀ hook ∈ [1, 2, 3], (nfqueueCb true 0 (packetFrom 8 hook)
      ⟨tenTable, 20, 10, [], [], []⟩).2.verdicts = [] :=
  ⟨.start [] tenTable_loaded, by decide +kernel⟩

end Dowse.Pgld
