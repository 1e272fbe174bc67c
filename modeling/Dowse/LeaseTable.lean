import Dowse.DnsGate
import Dowse.Splitting

/-!
# Loading the leases into redis

`dnscrypt-proxy-conf` writes three entries for each lease, two for each line of the
network file, and those of the host itself. They are lines for `redis-cli`, which sends them
to the volatile redis in this order, and the last one for a key is what stays there. How
`redis-cli` splits a line is a parameter, and only its treatment of plain words is assumed.

All names of all leases have the address of their lease if and only if no host name is that
of another lease under `dowse.it`, and no local entry has taken a name away.
-/
namespace Dowse.Leases
open CStrings Splitting DnsPlugin

/-- The words of a line, which blanks and tabs separate. -/
def lineWords (line : Text) : List Text := words ' ' (line.map fun c => if c = '\t' then ' ' else c)

/-- `${i[(w)n]}` for a positive `n`. -/
def word (line : Text) (n : ℕ) : Text := ordinal (lineWords line) n

inductive Stem
  | lease
  | reverse
  deriving DecidableEq, Repr

def Stem.text : Stem → Text
  | .lease => "dns-lease-".toList
  | .reverse => "dns-reverse-".toList

/-- A line of the configuration, with the number of blanks before its value. -/
structure SetLine where
  stem : Stem
  name : Text
  gap : ℕ
  value : Text
  deriving DecidableEq, Repr

def SetLine.key (l : SetLine) : Text := l.stem.text ++ l.name

def SetLine.text (l : SetLine) : Text :=
  "SET ".toList ++ l.key ++ List.replicate l.gap ' ' ++ l.value

def dowseIt : Text := ".dowse.it".toList

/-- The entries for a lease: the name, the name under `dowse.it`, and the reverse. -/
def leaseLines (line : Text) : List SetLine :=
  [⟨.lease, word line 4, 1, word line 3⟩,
    ⟨.lease, word line 4 ++ dowseIt, 1, word line 3⟩,
    ⟨.reverse, word line 3 ++ ['.'], 1, word line 4⟩]

/-- The pattern `^..:..:..:..:..:..`. -/
def beginsWithMac (text : Text) : Bool :=
  17 ≤ text.length && [2, 5, 8, 11, 14].all fun i => text.getD i ' ' = ':'

/-- The host name and the address of a line in the network file. -/
def networkEntry (line : Text) : Option (Text × Text) :=
  if line.head? = some '#' then none
  else if beginsWithMac (word line 1) then some (word line 2, word line 3)
  else some (word line 1, word line 2)

/-- A character that stands for itself in a line. -/
def plainChar (c : Char) : Bool := c ∉ [' ', '\t', '\'', '"', '\\', '\n', '\r', '\x00']

def Plain (text : Text) : Prop := ∀ c ∈ text, plainChar c

/-- The variables of the host and the lines of `/etc/dowse/network`. -/
structure Config where
  hostname : Text
  address : Text
  wan : Text
  gateway : Text
  network : List Text
  plain_hostname : Plain hostname
  plain_address : Plain address
  plain_wan : Plain wan
  plain_network : ∀ line ∈ network, ∀ c ∈ line, plainChar c ∨ c = ' ' ∨ c = '\t'

namespace Config
variable (config : Config)

def entries : List (Text × Text) := config.network.filterMap networkEntry

/-- The loop over the network file leaves its last name in the variable. -/
def lastHostname : Text := (config.entries.getLast?.map Prod.fst).getD config.hostname

def networkLines : List SetLine :=
  config.entries.flatMap fun entry =>
    [⟨.lease, entry.1, 1, entry.2⟩, ⟨.lease, entry.1 ++ dowseIt, 1, entry.2⟩]

/-- The entries that do not depend on a lease. -/
def localLines : List SetLine :=
  config.networkLines ++
    [⟨.lease, config.lastHostname, 10, config.address⟩,
      ⟨.lease, config.lastHostname ++ dowseIt, 1, config.address⟩,
      ⟨.lease, "www.dowse.it".toList, 9, config.address⟩,
      ⟨.lease, "dowse.it".toList, 13, config.address⟩,
      ⟨.lease, "gateway".toList, 4, config.wan⟩,
      ⟨.reverse, config.address ++ ['.'], 1, config.lastHostname ++ dowseIt⟩] ++
    if config.address = config.gateway then []
    else [⟨.reverse, config.wan ++ ['.'], 1, "gateway".toList⟩]

/-- The names that the local entries are about. -/
def localNames : List Text := (config.localLines.filter (·.stem = .lease)).map SetLine.name

end Config

/-- The lines of `rconf` in their order. -/
def rconf (config : Config) (leases : List Text) : List SetLine :=
  leases.flatMap leaseLines ++ config.localLines

/-- What the server does with the arguments of a line. -/
def execute (db : Text → Option Text) : Option (List Text) → Text → Option Text
  | some [cmd, key, value] =>
      if cmd = "SET".toList then Function.update db key (some value) else db
  | _ => db

def load (cli : Text → Option (List Text)) (db : Text → Option Text) (lines : List SetLine) :
    Text → Option Text :=
  lines.foldl (fun db l => execute db (cli l.text)) db

/-- The strings of the volatile redis after `dnscrypt-proxy-conf`. -/
def dnscryptProxyConf (cli : Text → Option (List Text)) (config : Config) (leases : List Text)
    (before : Text → Option Text) : Text → Option Text :=
  load cli before (rconf config leases)

/-- `redis-cli` takes a line of plain characters and blanks for its words. -/
def Reads (cli : Text → Option (List Text)) : Prop :=
  ∀ line, (∀ c ∈ line, plainChar c ∨ c = ' ') → cli line = some (words ' ' line)

/-- A name that ldns prints as it is. -/
structure HostName (text : Text) : Prop where
  ne_nil : text ≠ []
  length : text.length ≤ 253
  chars : ∀ c ∈ text, c.isAlphanum ∨ c ∈ ['-', '_', '.']

/-- A line with an IPv4 address as its third word and a host name as its fourth. -/
structure Lease where
  line : Text
  addr : InAddr
  four : 4 ≤ (lineWords line).length
  address_eq : inetNtoa addr = some (word line 3)
  hostName : HostName (word line 4)

namespace Lease

def address (l : Lease) : Text := word l.line 3

def host (l : Lease) : Text := word l.line 4

end Lease

/-- Leases of different addresses, with different host names that are not local ones. -/
structure Table (config : Config) where
  leases : List Lease
  addrs : (leases.map Lease.addr).Nodup
  hosts : (leases.map Lease.host).Nodup
  notLocal : ∀ l ∈ leases, l.host ∉ config.localNames

section Reading

theorem Plain.append {s t : Text} (hs : Plain s) (ht : Plain t) : Plain (s ++ t) :=
  fun c hc => (List.mem_append.mp hc).elim (hs c) (ht c)

theorem Plain.notMem {s : Text} (h : Plain s) {c : Char} (hc : plainChar c = false) : c ∉ s :=
  fun hmem => Bool.false_ne_true (hc.symm.trans (h c hmem))

theorem words_blank_append (n : ℕ) (text : Text) :
    words ' ' (List.replicate n ' ' ++ text) = words ' ' text := by
  induction n with
  | zero => rfl
  | succ n ih =>
      have hblank : words ' ' ([] ++ ' ' :: (List.replicate n ' ' ++ text)) =
          words ' ' [] ++ words ' ' (List.replicate n ' ' ++ text) := words_append _ _
      exact hblank.trans ih

theorem words_of_plain {text : Text} (h : Plain text) :
    words ' ' text = if text = [] then [] else [text] := by
  split_ifs with hne
  · rw [hne]
    rfl
  · exact words_singleton hne (h.notMem (by decide))

/-- A line whose parts are plain. -/
structure SetLine.Regular (l : SetLine) : Prop where
  name : Plain l.name
  value : Plain l.value
  gap : l.gap ≠ 0

theorem plain_key {l : SetLine} (h : l.Regular) : Plain l.key := by
  have hstem : ∀ stem : Stem, stem.text.all plainChar := by
    intro stem
    cases stem <;> decide
  exact Plain.append (List.all_eq_true.mp (hstem l.stem)) h.name

theorem key_ne_nil (l : SetLine) : l.key ≠ [] := by
  have hstem : ∀ stem : Stem, stem.text ≠ [] := by
    intro stem
    cases stem <;> decide
  exact List.append_ne_nil_of_left_ne_nil (hstem l.stem) _

/-- A line without a value lacks an argument. -/
theorem read_setLine {cli : Text → Option (List Text)} (hcli : Reads cli) {l : SetLine}
    (h : l.Regular) :
    cli l.text = some ("SET".toList :: l.key :: if l.value = [] then [] else [l.value]) := by
  have hverb : "SET ".toList = "SET".toList ++ [' '] := by decide
  have hgap : List.replicate l.gap ' ' = ' ' :: List.replicate (l.gap - 1) ' ' := by
    rw [← List.replicate_succ, Nat.sub_add_cancel (Nat.one_le_iff_ne_zero.mpr h.gap)]
  have htext : l.text = "SET".toList ++ ' ' ::
      (l.key ++ ' ' :: (List.replicate (l.gap - 1) ' ' ++ l.value)) := by
    unfold SetLine.text
    rw [hverb, hgap]
    simp only [List.append_assoc, List.cons_append, List.nil_append]
  have hchars : ∀ c ∈ l.text, plainChar c ∨ c = ' ' := by
    have hset : ∀ c ∈ "SET ".toList, plainChar c ∨ c = ' ' := by simp [plainChar]
    intro c hc
    unfold SetLine.text at hc
    simp only [List.mem_append, List.mem_replicate] at hc
    rcases hc with ((hc | hc) | hc) | hc
    · exact hset c hc
    · exact .inl (plain_key h c hc)
    · exact .inr hc.2
    · exact .inl (h.value c hc)
  have hword : words ' ' "SET".toList = ["SET".toList] := words_singleton (by decide) (by decide)
  rw [hcli _ hchars, htext, words_append, words_append, words_blank_append, hword,
    words_of_plain (plain_key h), if_neg (key_ne_nil l), words_of_plain h.value]
  rfl

/-- What a line assigns to a name. -/
def SetLine.assigns (l : SetLine) (stem : Stem) (name : Text) : Option Text :=
  if l.stem = stem ∧ l.name = name ∧ l.value ≠ [] then some l.value else none

/-- What is assigned to a name in the end. -/
def assigned (lines : List SetLine) (stem : Stem) (name : Text) : Option Text :=
  lines.reverse.findSome? (·.assigns stem name)

theorem key_inj {stem stem' : Stem} {name name' : Text} :
    stem.text ++ name = stem'.text ++ name' ↔ stem = stem' ∧ name = name' := by
  constructor
  · intro h
    have htake : ∀ (stem : Stem) (name : Text),
        (stem.text ++ name).take 5 = stem.text.take 5 := by
      intro stem name
      refine List.take_append_of_le_length ?_
      cases stem <;> decide
    have hstem : stem = stem' := by
      have hfive := congrArg (List.take 5) h
      rw [htake, htake] at hfive
      revert hfive
      cases stem <;> cases stem' <;> decide
    subst hstem
    exact ⟨rfl, List.append_cancel_left h⟩
  · rintro ⟨rfl, rfl⟩
    rfl

theorem execute_regular {cli : Text → Option (List Text)} (hcli : Reads cli) {l : SetLine}
    (h : l.Regular) (db : Text → Option Text) (stem : Stem) (name : Text) :
    execute db (cli l.text) (stem.text ++ name) =
      (l.assigns stem name).or (db (stem.text ++ name)) := by
  rw [read_setLine hcli h]
  unfold SetLine.assigns
  by_cases hvalue : l.value = []
  · rw [if_pos hvalue, if_neg (fun hall => hall.2.2 hvalue)]
    rfl
  · rw [if_neg hvalue]
    change Function.update db l.key (some l.value) (stem.text ++ name) = _
    by_cases hkey : l.stem = stem ∧ l.name = name
    · rw [if_pos ⟨hkey.1, hkey.2, hvalue⟩, ← hkey.1, ← hkey.2]
      exact Function.update_self _ _ _
    · rw [if_neg (fun hall => hkey ⟨hall.1, hall.2.1⟩), Option.none_or]
      refine Function.update_of_ne (fun heq => hkey ?_) _ _
      obtain ⟨hstem, hname⟩ := key_inj.mp heq
      exact ⟨hstem.symm, hname.symm⟩

/-- The last assignment stays, and without one what was there before. -/
theorem load_get {cli : Text → Option (List Text)} (hcli : Reads cli) {lines : List SetLine}
    (h : ∀ l ∈ lines, l.Regular) (db : Text → Option Text) (stem : Stem) (name : Text) :
    load cli db lines (stem.text ++ name) =
      (assigned lines stem name).or (db (stem.text ++ name)) := by
  induction lines using List.reverseRecOn with
  | nil => rfl
  | append_singleton lines l ih =>
      have hinit := ih fun l' hl' => h l' (List.mem_append_left _ hl')
      unfold load assigned at *
      rw [List.foldl_append, List.foldl_cons, List.foldl_nil,
        execute_regular hcli (h l List.mem_concat_self), hinit, List.reverse_append,
        List.reverse_singleton, List.singleton_append, List.findSome?_cons]
      cases l.assigns stem name with
      | none => rfl
      | some value => rfl

theorem assigned_append (lines more : List SetLine) (stem : Stem) (name : Text) :
    assigned (lines ++ more) stem name =
      (assigned more stem name).or (assigned lines stem name) := by
  unfold assigned
  rw [List.reverse_append, List.findSome?_append]

theorem assigned_eq_none {lines : List SetLine} {stem : Stem} {name : Text}
    (h : ∀ l ∈ lines, l.stem = stem → l.name ≠ name) : assigned lines stem name = none := by
  refine List.findSome?_eq_none_iff.mpr fun l hl => ?_
  exact if_neg fun hall => h l (List.mem_reverse.mp hl) hall.1 hall.2.1

/-- A name that is assigned has the value of one of its lines. -/
theorem exists_assigned {lines : List SetLine} {stem : Stem} {name : Text}
    (h : ∃ l ∈ lines, l.stem = stem ∧ l.name = name ∧ l.value ≠ []) :
    ∃ l ∈ lines, l.stem = stem ∧ l.name = name ∧ assigned lines stem name = some l.value := by
  obtain ⟨l, hl, hall⟩ := h
  cases hfind : assigned lines stem name with
  | none =>
      have hnone := List.findSome?_eq_none_iff.mp hfind l (List.mem_reverse.mpr hl)
      rw [SetLine.assigns, if_pos hall] at hnone
      cases hnone
  | some value =>
      obtain ⟨l', hl', hvalue⟩ := List.exists_of_findSome?_eq_some hfind
      unfold SetLine.assigns at hvalue
      split_ifs at hvalue with hall'
      exact ⟨l', List.mem_reverse.mp hl', hall'.1, hall'.2.1, hvalue.symm⟩

/-- A name that is assigned, and always to the same value. -/
theorem assigned_eq_some {lines : List SetLine} {stem : Stem} {name value : Text}
    (hsome : ∃ l ∈ lines, l.stem = stem ∧ l.name = name ∧ l.value ≠ [])
    (h : ∀ l ∈ lines, l.stem = stem → l.name = name → l.value = value) :
    assigned lines stem name = some value := by
  obtain ⟨l, hl, hstem, hname, hassigned⟩ := exists_assigned hsome
  rw [hassigned, h l hl hstem hname]

end Reading

section Regularity

theorem plainChar_of_isAlphanum {c : Char} (h : c.isAlphanum) : plainChar c := by
  refine decide_eq_true fun hmem => ?_
  simp only [List.mem_cons, List.not_mem_nil, or_false] at hmem
  rcases hmem with rfl | rfl | rfl | rfl | rfl | rfl | rfl | rfl <;> exact absurd h (by decide)

theorem HostName.plain {text : Text} (h : HostName text) : Plain text := by
  intro c hc
  obtain halnum | hmark := h.chars c hc
  · exact plainChar_of_isAlphanum halnum
  · simp only [List.mem_cons, List.not_mem_nil, or_false] at hmark
    rcases hmark with rfl | rfl | rfl <;> decide

theorem plain_inetNtoa {addr : InAddr} {text : Text} (h : inetNtoa addr = some text) :
    Plain text := by
  intro c hc
  obtain rfl | hdigit := mem_inetNtoa h hc
  · decide
  · refine plainChar_of_isAlphanum ?_
    simp [Char.isAlphanum, hdigit]

theorem plain_dowseIt : Plain dowseIt := List.all_eq_true.mp (by decide)

theorem plain_dot : Plain ['.'] := List.all_eq_true.mp (by decide)

/-- The words of a plain line are plain. -/
theorem plain_word {line : Text} (h : ∀ c ∈ line, plainChar c ∨ c = ' ' ∨ c = '\t') (n : ℕ) :
    Plain (word line n) := by
  have hall : ∀ w ∈ lineWords line, Plain w := by
    intro w hw c hc
    have hblank := (of_mem_words hw).2
    have hmem := mem_of_mem_splitOn (List.mem_filter.mp hw).1 c hc
    obtain ⟨a, ha, rfl⟩ := List.mem_map.mp hmem
    split_ifs at hc with htab
    · exact absurd hc hblank
    · rw [if_neg htab]
      obtain hplain | rfl | rfl := h a ha
      · exact hplain
      · exact absurd hc hblank
      · exact absurd rfl htab
  unfold word
  by_cases hnil : lineWords line = []
  · rw [hnil]
    exact nofun
  · exact hall _ (ordinal_mem hnil n)

namespace Lease
variable (l : Lease)

theorem plain_address : Plain l.address := plain_inetNtoa l.address_eq

theorem address_ne_nil : l.address ≠ [] := by
  have haddress := Option.some.inj l.address_eq
  unfold address
  rw [← haddress]
  exact List.append_ne_nil_of_right_ne_nil _ (List.cons_ne_nil _ _)

theorem regular : ∀ s ∈ leaseLines l.line, s.Regular := by
  have hhost : Plain (word l.line 4) := l.hostName.plain
  have haddress : Plain (word l.line 3) := l.plain_address
  unfold leaseLines
  simp only [List.forall_mem_cons]
  exact ⟨⟨hhost, haddress, Nat.one_ne_zero⟩,
    ⟨hhost.append plain_dowseIt, haddress, Nat.one_ne_zero⟩,
    ⟨haddress.append plain_dot, hhost, Nat.one_ne_zero⟩, nofun⟩

end Lease

namespace Config
variable (config : Config)

theorem plain_entries : ∀ entry ∈ config.entries, Plain entry.1 ∧ Plain entry.2 := by
  intro entry hentry
  obtain ⟨line, hline, hsome⟩ := List.mem_filterMap.mp hentry
  have hword := plain_word (config.plain_network line hline)
  unfold networkEntry at hsome
  split_ifs at hsome
  · rw [← Option.some.inj hsome]
    exact ⟨hword 2, hword 3⟩
  · rw [← Option.some.inj hsome]
    exact ⟨hword 1, hword 2⟩

theorem plain_lastHostname : Plain config.lastHostname := by
  unfold lastHostname
  cases hlast : config.entries.getLast? with
  | none => exact config.plain_hostname
  | some entry => exact (config.plain_entries entry (List.mem_of_getLast? hlast)).1

theorem regular : ∀ s ∈ config.localLines, s.Regular := by
  have hname := config.plain_lastHostname
  have hname' := hname.append plain_dowseIt
  have hwww : Plain "www.dowse.it".toList := List.all_eq_true.mp (by decide)
  have hdowse : Plain "dowse.it".toList := List.all_eq_true.mp (by decide)
  have hgateway : Plain "gateway".toList := List.all_eq_true.mp (by decide)
  have haddress := config.plain_address
  intro s hs
  unfold localLines networkLines at hs
  rw [List.mem_append, List.mem_append] at hs
  rcases hs with (hs | hs) | hs
  · obtain ⟨entry, hentry, hs⟩ := List.mem_flatMap.mp hs
    obtain ⟨hhost, hip⟩ := config.plain_entries entry hentry
    rcases List.mem_pair.mp hs with rfl | rfl
    · exact ⟨hhost, hip, Nat.one_ne_zero⟩
    · exact ⟨hhost.append plain_dowseIt, hip, Nat.one_ne_zero⟩
  · simp only [List.mem_cons, List.not_mem_nil, or_false] at hs
    rcases hs with rfl | rfl | rfl | rfl | rfl | rfl
    · exact ⟨hname, haddress, Nat.succ_ne_zero _⟩
    · exact ⟨hname', haddress, Nat.succ_ne_zero _⟩
    · exact ⟨hwww, haddress, Nat.succ_ne_zero _⟩
    · exact ⟨hdowse, haddress, Nat.succ_ne_zero _⟩
    · exact ⟨hgateway, config.plain_wan, Nat.succ_ne_zero _⟩
    · exact ⟨haddress.append plain_dot, hname', Nat.succ_ne_zero _⟩
  · split_ifs at hs
    · cases hs
    · rw [List.mem_singleton.mp hs]
      exact ⟨config.plain_wan.append plain_dot, hgateway, Nat.succ_ne_zero _⟩

end Config

end Regularity

section Names
variable {config : Config} (table : Table config)

/-- The volatile redis after the configuration for the leases of the table. -/
def Table.loaded (cli : Text → Option (List Text)) (before : Text → Option Text) :
    Text → Option Text :=
  dnscryptProxyConf cli config (table.leases.map Lease.line) before

theorem Table.regular : ∀ s ∈ rconf config (table.leases.map Lease.line), s.Regular := by
  intro s hs
  rw [rconf, List.mem_append] at hs
  rcases hs with hs | hs
  · obtain ⟨line, hline, hs⟩ := List.mem_flatMap.mp hs
    obtain ⟨l, -, rfl⟩ := List.mem_map.mp hline
    exact l.regular s hs
  · exact config.regular s hs

/-- The lines for the leases assign the address of a lease to its two names. -/
theorem mem_leaseLines {s : SetLine} (hstem : s.stem = .lease)
    (hs : s ∈ (table.leases.map Lease.line).flatMap leaseLines) :
    ∃ m ∈ table.leases, (s.name = m.host ∨ s.name = m.host ++ dowseIt) ∧ s.value = m.address := by
  obtain ⟨line, hline, hs⟩ := List.mem_flatMap.mp hs
  obtain ⟨m, hm, rfl⟩ := List.mem_map.mp hline
  refine ⟨m, hm, ?_⟩
  unfold leaseLines at hs
  simp only [List.mem_cons, List.not_mem_nil, or_false] at hs
  rcases hs with rfl | rfl | rfl
  · exact ⟨.inl rfl, rfl⟩
  · exact ⟨.inr rfl, rfl⟩
  · cases hstem

/-- No host name is the name of another lease under `dowse.it`. -/
def Table.Apart : Prop := ∀ l ∈ table.leases, ∀ m ∈ table.leases, l.host ≠ m.host ++ dowseIt

/-- The local entries leave the names under `dowse.it` to the leases, or agree with them. -/
def Table.Unclaimed : Prop := ∀ l ∈ table.leases, ∀ value,
  assigned config.localLines .lease (l.host ++ dowseIt) = some value → value = l.address

theorem Table.host_inj {l m : Lease} (hl : l ∈ table.leases) (hm : m ∈ table.leases)
    (h : l.host = m.host) : l = m := List.inj_on_of_nodup_map table.hosts hl hm h

theorem Table.address_inj {l m : Lease} (hl : l ∈ table.leases) (hm : m ∈ table.leases)
    (h : l.address = m.address) : l = m := by
  refine List.inj_on_of_nodup_map table.addrs hl hm (inetNtoa_injective ?_)
  rw [l.address_eq, m.address_eq]
  exact congrArg some h

/-- The lines of a lease that assign one of its names. -/
theorem exists_leaseLine {l : Lease} (hl : l ∈ table.leases) {name : Text}
    (hname : name = l.host ∨ name = l.host ++ dowseIt) :
    ∃ s ∈ (table.leases.map Lease.line).flatMap leaseLines,
      s.stem = .lease ∧ s.name = name ∧ s.value ≠ [] := by
  have hline : ∀ s ∈ leaseLines l.line, s ∈ (table.leases.map Lease.line).flatMap leaseLines :=
    fun s hs => List.mem_flatMap.mpr ⟨l.line, List.mem_map_of_mem hl, hs⟩
  rcases hname with rfl | rfl
  · exact ⟨_, hline _ List.mem_cons_self, rfl, rfl, l.address_ne_nil⟩
  · exact ⟨_, hline _ (List.mem_cons_of_mem _ List.mem_cons_self), rfl, rfl, l.address_ne_nil⟩

/-- Both names of a lease, among the lines for the leases. -/
theorem assigned_leaseLines (h : table.Apart) {l : Lease} (hl : l ∈ table.leases) {name : Text}
    (hname : name = l.host ∨ name = l.host ++ dowseIt) :
    assigned ((table.leases.map Lease.line).flatMap leaseLines) .lease name = some l.address := by
  refine assigned_eq_some (exists_leaseLine table hl hname) fun s hs hstem hs' => ?_
  obtain ⟨m, hm, hnames, hvalue⟩ := mem_leaseLines table hstem hs
  rw [hs'] at hnames
  rcases hname with rfl | rfl <;> rcases hnames with hsame | hsame
  · rw [hvalue, table.host_inj hl hm hsame]
  · exact absurd hsame (h l hl m hm)
  · exact absurd hsame.symm (h m hm l hl)
  · rw [hvalue, table.host_inj hl hm (List.append_cancel_right hsame)]

theorem Table.loaded_eq {cli : Text → Option (List Text)} (hcli : Reads cli)
    (before : Text → Option Text) (name : Text) :
    table.loaded cli before (Stem.lease.text ++ name) =
      ((assigned config.localLines .lease name).or
        (assigned ((table.leases.map Lease.line).flatMap leaseLines) .lease name)).or
        (before (Stem.lease.text ++ name)) := by
  unfold Table.loaded dnscryptProxyConf
  rw [load_get hcli table.regular, rconf, assigned_append]

/-- Every name of a lease has a plain value after the configuration. -/
theorem Table.loaded_plain {cli : Text → Option (List Text)} (hcli : Reads cli)
    (before : Text → Option Text) {l : Lease} (hl : l ∈ table.leases) {name : Text}
    (hname : name = l.host ∨ name = l.host ++ dowseIt) :
    ∃ value, table.loaded cli before (Stem.lease.text ++ name) = some value ∧ Plain value := by
  obtain ⟨s, hs, hall⟩ := exists_leaseLine table hl hname
  have hmem : s ∈ rconf config (table.leases.map Lease.line) := List.mem_append_left _ hs
  obtain ⟨s', hs', -, -, hassigned⟩ := exists_assigned ⟨s, hmem, hall⟩
  refine ⟨s'.value, ?_, (table.regular s' hs').value⟩
  unfold Table.loaded dnscryptProxyConf
  rw [load_get hcli table.regular, hassigned, Option.some_or]

theorem assigned_localLines_host {l : Lease} (hl : l ∈ table.leases) :
    assigned config.localLines .lease l.host = none := by
  refine assigned_eq_none fun s hs hstem hname => table.notLocal l hl ?_
  unfold Config.localNames
  refine List.mem_map.mpr ⟨s, List.mem_filter.mpr ⟨hs, decide_eq_true hstem⟩, hname⟩

/-- Both names of every lease have its address after the configuration, if and only if the
names are apart and no local entry claims one of them. -/
theorem loaded_iff {cli : Text → Option (List Text)} (hcli : Reads cli)
    (before : Text → Option Text) :
    (∀ l ∈ table.leases, ∀ name, name = l.host ∨ name = l.host ++ dowseIt →
      table.loaded cli before (Stem.lease.text ++ name) = some l.address) ↔
    table.Apart ∧ table.Unclaimed := by
  have hload := table.loaded_eq hcli before
  constructor
  · intro h
    refine ⟨fun l hl m hm hsame => ?_, fun l hl value hvalue => ?_⟩
    · have haddr := h l hl l.host (.inl rfl)
      rw [hsame, h m hm _ (.inr rfl), Option.some_inj] at haddr
      obtain rfl := table.address_inj hm hl haddr
      have hlength := congrArg List.length hsame
      have hdowse : dowseIt.length = 9 := by decide
      rw [List.length_append, hdowse] at hlength
      omega
    · have hname := h l hl _ (.inr rfl)
      rw [hload, hvalue, Option.some_or, Option.some_or, Option.some_inj] at hname
      exact hname
  · rintro ⟨hapart, hunclaimed⟩ l hl name hname
    rw [hload, assigned_leaseLines table hapart hl hname]
    rcases hname with rfl | rfl
    · rw [assigned_localLines_host table hl]
      rfl
    · cases hlocal : assigned config.localLines .lease (l.host ++ dowseIt) with
      | none => rfl
      | some value =>
          rw [hunclaimed l hl value hlocal]
          rfl

end Names

end Dowse.Leases
