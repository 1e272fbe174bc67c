import Dowse.DnsAnswers
import Dowse.DnsDomains

/-!
# The buffers of the publish path

Between the question and the event, the filter looks for `.arpa` at the end of the question,
`extract_domain` copies the query into `domain` and its last label into `tld`, and
`publish_query` composes the event in `outnew`. None of the five limits is checked by the
source: the test for `.arpa` looks five characters back in a question of any length, `domain`
is shorter than a query, `tld` gets no terminator when a label fills it, the group is added
behind an event that may fill the buffer, and a name of one or two characters has no domain.

The accesses of the three functions are listed here, those of `extract_domain` together with
what it computes, which is what it computes in the model. The path stays inside its buffers if
and only if the question, the state of the plugin and the replies of the storage meet the
conditions below.
-/
namespace Dowse.DnsPlugin
open CStrings Hashmap

/-- An index that is read in the question or written in a buffer, or a pointer that is read as
a string. -/
inductive Access
  | question (index : ℤ)
  | domain (index : ℕ)
  | outnew (index : ℕ)
  | string (pointer : Option Text)
  deriving DecidableEq

/-- The access is inside its buffer, for a question of the given length. -/
def Access.Inside (length : ℕ) : Access → Prop
  | .question index => 0 ≤ index ∧ index ≤ length
  | .domain index => index < maxDomain
  | .outnew index => index < maxOutput
  | .string pointer => pointer.isSome

/-- There is a terminator in the array `tld`. -/
def Terminated (names : Names) : Prop := ∃ i < maxTld, names (tldOffset + i) = '\x00'

section Traces

/-- A character of the question is compared, and the rest of the test is made if it is the
one that is looked for. -/
def compareAt (env : Env) (question : Text) (back : ℕ) (c : Char) (rest : List Access) :
    List Access :=
  .question (question.length - back) :: if questionAt env question back = c then rest else []

def arpaTrace (env : Env) (question : Text) : List Access :=
  compareAt env question 1 '.' (compareAt env question 5 'a' (compareAt env question 4 'r'
    (compareAt env question 3 'p' (compareAt env question 2 'a' []))))

def extractTrace (x : Extraction) : ℕ → List Access × Option (ℕ × Names)
  | 0 => ([], some (0, x.names))
  | c + 1 =>
      let last := x.address.getD c '\x00'
      let dots := if last = '.' then x.dots + 1 else x.dots
      let names := if last = '.' ∧ x.first then
        x.names.strncpy tldOffset maxTld (cstr (x.address.drop c)) else x.names
      let first := x.first && last ≠ '.'
      if dots ≥ x.positions then
        match strtok x.address (c + 1) with
        | none => ([.string none], none)
        | some (test, address) =>
            if test.length > 3 then ([.string (some test)], some (c + 1, names))
            else
              let rest := extractTrace ⟨address, dots, first, x.positions + 1, names.poke c last⟩ c
              (.string (some test) :: .domain c :: rest.1, rest.2)
      else
        let rest := extractTrace ⟨x.address, dots, first, x.positions, names.poke c last⟩ c
        (.domain c :: rest.1, rest.2)

def domainTrace (data : PluginData) : List Access × Extracted :=
  let address := data.query
  let len := address.length
  if len < 3 then ([], .null)
  else
    let trace := extractTrace ⟨address, 0, true, 2, data.names.poke (len + 1) '\x00'⟩ (len + 1)
    (.domain (len + 1) :: trace.1, match trace.2 with
      | some (position, names) => .found position names
      | none => .crash)

/-- What `strncat` writes: the characters it appends, and a terminator. -/
def strncatWrites (dest : Text) (n : ℕ) (src : Text) : List Access :=
  (List.range' dest.length (min n src.length + 1)).map .outnew

def groupTrace (data : PluginData) (extracted : Option Text) (outnew : Text) : List Access :=
  if data.listpath.isSome then
    .string extracted :: match extracted with
      | none => []
      | some key =>
          match hashmapGet data.domainlist key with
          | (.ok, some sval) => strncatWrites outnew 2 [','] ++
              strncatWrites (outnew ++ [',']) (maxOutput - 128) (cstr sval)
          | _ => []
  else []

/-- The event is printed into `outnew` if the storage could be asked for the name. -/
def eventWrites (named : Option Reply) (outnew : Text) : List Access :=
  if named.isSome then (List.range (outnew.length + 1)).map .outnew else []

/-- The accesses after the extraction of a domain. -/
def eventTrace (env : Env) (c : Call) (extracted : Option Text) (names : Names) : List Access :=
  let outnew := outnewFor env c extracted names
  .string extracted :: (eventWrites (nameReply env c.data.mac) outnew ++
    groupTrace { c.data with names } extracted outnew)

def publishTrace (env : Env) (c : Call) : List Access :=
  let trace := domainTrace c.data
  match trace.2 with
  | .crash => trace.1
  | .null => trace.1 ++ eventTrace env c none c.data.names
  | .found position names => trace.1 ++ eventTrace env c (some (names.stringAt position)) names

theorem extractTrace_snd (x : Extraction) (c : ℕ) : (extractTrace x c).2 = extractLoop x c := by
  induction c generalizing x with
  | zero => rfl
  | succ c ih =>
      unfold extractTrace extractLoop
      extract_lets last dots names first
      by_cases hdots : dots ≥ x.positions
      · simp only [if_pos hdots]
        generalize strtok x.address (c + 1) = token
        rcases token with _ | ⟨test, address⟩
        · rfl
        · by_cases hlong : test.length > 3
          · simp only [if_pos hlong]
          · simp only [if_neg hlong]
            exact ih _
      · simp only [if_neg hdots]
        exact ih _

theorem domainTrace_snd (data : PluginData) : (domainTrace data).2 = extractDomain data := by
  unfold domainTrace extractDomain
  have hloop := extractTrace_snd ⟨data.query, 0, true, 2,
    data.names.poke (data.query.length + 1) '\x00'⟩ (data.query.length + 1)
  dsimp only
  split_ifs
  · rfl
  · generalize extractTrace _ _ = trace at hloop ⊢
    generalize extractLoop _ _ = result at hloop ⊢
    subst hloop
    rcases trace with ⟨accesses, _ | ⟨position, names⟩⟩ <;> rfl

theorem length_eventText (who : Text) (val : ℤ) (epoch : ℕ) (domain tld : Text) :
    (eventText who val epoch domain tld).length = min (maxOutput - 1) (8 + who.length +
      (intText val).length + (Nat.toDigits 10 epoch).length + domain.length + tld.length) := by
  have hverb : "DNS,".toList.length = 4 := by decide
  unfold eventText snprintf
  simp only [List.length_take, List.length_append, List.length_singleton, hverb]
  omega

end Traces

/-- All accesses of a part of the path are inside. -/
def AllInside (length : ℕ) (accesses : List Access) : Prop := ∀ a ∈ accesses, a.Inside length

section Inside
variable {length : ℕ}

@[simp] theorem allInside_nil : AllInside length [] := List.forall_mem_nil _

@[simp] theorem allInside_cons {a : Access} {accesses : List Access} :
    AllInside length (a :: accesses) ↔ a.Inside length ∧ AllInside length accesses :=
  List.forall_mem_cons

@[simp] theorem allInside_append {accesses accesses' : List Access} :
    AllInside length (accesses ++ accesses') ↔
      AllInside length accesses ∧ AllInside length accesses' :=
  List.forall_mem_append

theorem compareAt_inside {env : Env} {question : Text} {back : ℕ} {c : Char}
    {rest : List Access} :
    AllInside question.length (compareAt env question back c rest) ↔ back ≤ question.length ∧
      (questionAt env question back = c → AllInside question.length rest) := by
  have hindex : (Access.question (question.length - back)).Inside question.length ↔
      back ≤ question.length := by
    unfold Access.Inside
    omega
  unfold compareAt
  split_ifs with hc
  · simp [hindex, hc]
  · simp [hindex, hc]

theorem questionAt_one {env : Env} {question : Text} (hne : question ≠ []) :
    questionAt env question 1 = '.' ↔ question.getLast? = some '.' := by
  have hlength := List.length_pos_iff.mpr hne
  rw [questionAt, if_pos (by omega), List.getLast?_eq_getElem?, List.getD_eq_getElem _ _ (by omega),
    List.getElem?_eq_getElem (by omega), Option.some.injEq]

/-- The test for `.arpa` reads inside a question that does not end with a dot, and inside one
of at least five characters. -/
theorem arpaTrace_inside_iff {env : Env} {question : Text} (hne : question ≠ []) :
    AllInside question.length (arpaTrace env question) ↔
      (question.getLast? = some '.' → 5 ≤ question.length) := by
  have hlength := List.length_pos_iff.mpr hne
  unfold arpaTrace
  rw [compareAt_inside, compareAt_inside, compareAt_inside, compareAt_inside, compareAt_inside,
    questionAt_one hne]
  constructor
  · rintro ⟨-, h⟩ hdot
    exact (h hdot).1
  · intro h
    refine ⟨hlength, fun hdot => ?_⟩
    have hfive := h hdot
    refine ⟨hfive, fun _ => ⟨by omega, fun _ => ⟨by omega, fun _ => ⟨by omega, fun _ => ?_⟩⟩⟩⟩
    exact allInside_nil

/-- The rounds below the end of the array write inside it. -/
theorem extractTrace_inside_iff {x : Extraction} {c : ℕ} (hc : c ≤ maxDomain) :
    AllInside length (extractTrace x c).1 ↔ extractLoop x c ≠ none := by
  induction c generalizing x with
  | zero => simp [extractTrace, extractLoop]
  | succ c ih =>
      unfold extractTrace extractLoop
      extract_lets last dots names first
      by_cases hdots : dots ≥ x.positions
      · simp only [if_pos hdots]
        generalize strtok x.address (c + 1) = token
        rcases token with _ | ⟨test, address⟩
        · simp [Access.Inside]
        · by_cases hlong : test.length > 3
          · simp [if_pos hlong, Access.Inside]
          · simp only [if_neg hlong, allInside_cons, ih (Nat.le_of_succ_le hc)]
            simp [Access.Inside, Nat.lt_of_succ_le hc]
      · simp only [if_neg hdots, allInside_cons]
        rw [ih (Nat.le_of_succ_le hc)]
        simp [Access.Inside, Nat.lt_of_succ_le hc]

theorem domainTrace_inside_iff {data : PluginData} (hmin : 3 ≤ data.query.length) :
    AllInside length (domainTrace data).1 ↔
      data.query.length ≤ 254 ∧ extractDomain data ≠ .crash := by
  have hbound : data.query.length + 1 < maxDomain ↔ data.query.length ≤ 254 := by
    unfold maxDomain
    omega
  unfold domainTrace extractDomain
  dsimp only
  rw [if_neg (by omega), if_neg (by omega), allInside_cons, Access.Inside, hbound]
  refine and_congr_right fun hmax => ?_
  rw [extractTrace_inside_iff (by unfold maxDomain; omega)]
  generalize extractLoop _ _ = result
  rcases result with _ | ⟨position, names⟩
  · simp
  · simp

theorem strncatWrites_inside_iff {dest src : Text} {n : ℕ} :
    AllInside length (strncatWrites dest n src) ↔ dest.length + min n src.length < maxOutput := by
  unfold strncatWrites AllInside
  constructor
  · intro h
    refine h (.outnew (dest.length + min n src.length)) (List.mem_map_of_mem ?_)
    rw [List.mem_range'_1]
    omega
  · intro h a ha
    obtain ⟨index, hindex, rfl⟩ := List.mem_map.mp ha
    rw [List.mem_range'_1] at hindex
    unfold Access.Inside
    omega

/-- Whether the group of a domain fits behind an event. -/
theorem groupTrace_inside_iff {data : PluginData} {key outnew : Text} :
    AllInside length (groupTrace data (some key) outnew) ↔
      ∀ group, groupOf data (some key) = some group →
        outnew.length + 1 + min (maxOutput - 128) group.length < maxOutput := by
  unfold groupTrace groupOf
  split_ifs
  · rw [Option.bind_some]
    dsimp only
    generalize hashmapGet data.domainlist key = found
    rw [allInside_cons, Access.Inside]
    obtain ⟨status, _ | sval⟩ := found
    · simp
    · cases status with
      | ok =>
          simp only [allInside_append, strncatWrites_inside_iff, List.length_append,
            List.length_singleton, Option.isSome_some, true_and, Option.some.injEq, forall_eq']
          omega
      | _ => simp
  · simp

/-- The group is added if and only if it is written inside the buffer. -/
theorem addGroup_isSome_iff {data : PluginData} {extracted : Option Text} {outnew : Text} :
    (addGroup data extracted outnew).isSome ↔
      AllInside length (groupTrace data extracted outnew) := by
  cases extracted with
  | none =>
      unfold addGroup groupTrace
      split_ifs
      · simp [Access.Inside]
      · simp
  | some key =>
      rw [groupTrace_inside_iff]
      unfold addGroup groupOf
      split_ifs
      · rw [Option.bind_some]
        dsimp only
        generalize hashmapGet data.domainlist key = found
        obtain ⟨status, _ | sval⟩ := found
        · simp
        · cases status with
          | ok =>
              simp only [List.length_append, List.length_singleton, List.length_take,
                Option.some.injEq, forall_eq']
              split_ifs with hfits
              · simp [hfits]
              · simp [hfits]
          | _ => simp
      · simp

theorem eventWrites_inside {env : Env} {extracted : Option Text} {names : Names}
    {incr named : Option Reply} :
    AllInside length (eventWrites named (eventBuffer env extracted names incr named)) := by
  have hevent : ∀ who, (eventText who (hitCount incr) env.time (printed extracted)
      (names.stringAt tldOffset)).length < maxOutput := by
    intro who
    rw [length_eventText]
    unfold maxOutput
    omega
  have hprinted : ∀ outnew : Text, outnew.length < maxOutput →
      AllInside length ((List.range (outnew.length + 1)).map .outnew) := by
    intro outnew hshort a ha
    obtain ⟨index, hindex, rfl⟩ := List.mem_map.mp ha
    rw [List.mem_range] at hindex
    unfold Access.Inside
    omega
  cases named with
  | none => exact allInside_nil
  | some reply =>
      unfold eventWrites eventBuffer
      dsimp only
      cases reply.str with
      | none => exact hprinted _ (hevent _)
      | some name => exact hprinted _ (hevent _)

end Inside

section Conditions

/-- The domain that is extracted from a query. -/
def queryDomain (query : Text) : Option Text :=
  (scannedLabels (query.splitOn '.')).map ['.'].intercalate

/-- The array `tld` after the extraction, when it is terminated. -/
def tldText (data : PluginData) : Text := (topLevel data.query).getD (data.names.stringAt tldOffset)

/-- The length of the event before it is cut, or of what `outnew` has when the storage gives no
reply. -/
def eventLength (env : Env) (c : Call) (domain : Text) : ℕ :=
  match nameReply env c.data.mac with
  | some reply => 8 + (identity reply c.data.names).length +
      (intText (hitCount (incrReply env (some domain)))).length +
      (Nat.toDigits 10 env.time).length + domain.length + (tldText c.data).length
  | none => env.outnewBuffer.length

/-- The query, the state before the publication and the replies keep the publication inside
its buffers. -/
structure Fits (env : Env) (c : Call) : Prop where
  long : 3 ≤ c.data.query.length
  short : c.data.query.length ≤ 254
  dots : ¬ ['.', '.'] <:+ c.data.query
  tld : match topLevel c.data.query with
    | some tld => tld.length < maxTld
    | none => Terminated c.data.names
  group : ∀ domain group, queryDomain c.data.query = some domain →
    groupOf c.data (some domain) = some group →
      eventLength env c domain + 1 + min (maxOutput - 128) group.length < maxOutput

theorem upToLong_eq_none_iff {token : Text} {left : List Text} : upToLong token left = none ↔
    token = [] ∧ ∃ next more, left = [] :: next :: more := by
  match left with
  | [] => simp [upToLong]
  | [label] => simp [upToLong]
  | label :: next :: more =>
      by_cases hlabel : label = []
      · subst hlabel
        by_cases htoken : token = []
        · simp [upToLong, htoken]
        · obtain ⟨kept, hkept⟩ := exists_upToLong htoken ([] :: next :: more)
          simp [hkept, htoken]
      · obtain ⟨kept, hkept⟩ := exists_upToLong hlabel (next :: more)
        rw [upToLong_cons hlabel, hkept]
        split_ifs <;> simp [hlabel]

/-- The scan reads through a null token if and only if the name ends with two dots. -/
theorem scannedLabels_eq_none_iff (query : Text) :
    scannedLabels (query.splitOn '.') = none ↔ ['.', '.'] <:+ query := by
  constructor
  · intro h
    obtain ⟨tld, left, hpieces⟩ := List.exists_cons_of_ne_nil
      (List.reverse_ne_nil_iff.mpr (List.splitOn_ne_nil '.' query))
    rw [scannedLabels_of_reverse hpieces, Option.map_eq_none_iff, upToLong_eq_none_iff] at h
    obtain ⟨rfl, next, more, rfl⟩ := h
    have hquery : ['.'].intercalate (query.splitOn '.').reverse.reverse = query := by
      rw [List.reverse_reverse]
      exact List.intercalate_splitOn '.'
    rw [hpieces, intercalate_reverse_cons _ (List.cons_ne_nil _ _),
      intercalate_reverse_cons _ (List.cons_ne_nil _ _), List.append_assoc] at hquery
    exact ⟨_, hquery⟩
  · rintro ⟨front, rfl⟩
    have hpieces : (front ++ ['.', '.']).splitOn '.' = front.splitOn '.' ++ [[], []] := by
      rw [List.splitOn_append_cons_self]
      rfl
    obtain ⟨next, more, hfront⟩ := List.exists_cons_of_ne_nil
      (List.reverse_ne_nil_iff.mpr (List.splitOn_ne_nil '.' front))
    rw [hpieces, scannedLabels_of_reverse (List.reverse_append.trans (congrArg _ hfront)),
      Option.map_eq_none_iff, upToLong_eq_none_iff]
    exact ⟨rfl, next, more, rfl⟩

/-- The array is terminated if and only if the last label and its dot leave room for it. -/
theorem terminated_withTld_iff {names : Names} {tld : Text} (hnul : '\x00' ∉ tld) :
    Terminated (names.withTld (some tld)) ↔ tld.length < maxTld := by
  have hcopied : ∀ i < maxTld, names.withTld (some tld) (tldOffset + i) = tld.getD i '\x00' := by
    intro i hi
    rw [Names.withTld, Names.strncpy, if_pos ⟨by omega, by omega⟩, Nat.add_sub_cancel_left]
  constructor
  · rintro ⟨i, hi, hzero⟩
    rw [hcopied i hi] at hzero
    by_contra hlong
    rw [List.getD_eq_getElem _ _ (by omega)] at hzero
    exact hnul (hzero ▸ List.getElem_mem _)
  · intro h
    exact ⟨tld.length, h, (hcopied _ h).trans (List.getD_eq_default _ _ (Nat.le_refl _))⟩

theorem nul_notMem_topLevel {query tld : Text} (hnul : '\x00' ∉ query)
    (h : topLevel query = some tld) : '\x00' ∉ tld := by
  obtain ⟨before, label, rfl, rfl, -⟩ := exists_of_topLevel h
  exact fun hmem => hnul (List.mem_append_right before hmem)

section Publication
variable {env : Env} {c : Call} {position : ℕ} {names : Names}

theorem terminated_iff (hnul : '\x00' ∉ c.data.query)
    (hnames : ∀ j, tldOffset ≤ j → names j = c.data.names.withTld (topLevel c.data.query) j) :
    Terminated names ↔ match topLevel c.data.query with
      | some tld => tld.length < maxTld
      | none => Terminated c.data.names := by
  have hsame : Terminated names ↔ Terminated (c.data.names.withTld (topLevel c.data.query)) := by
    unfold Terminated
    simp only [hnames _ (Nat.le_add_right tldOffset _)]
  rw [hsame]
  cases htop : topLevel c.data.query with
  | none => exact Iff.rfl
  | some tld => exact terminated_withTld_iff (nul_notMem_topLevel hnul htop)

theorem stringAt_tld (hnul : '\x00' ∉ c.data.query)
    (htld : ∀ tld, topLevel c.data.query = some tld → tld.length < maxTld)
    (hnames : ∀ j, tldOffset ≤ j → names j = c.data.names.withTld (topLevel c.data.query) j) :
    names.stringAt tldOffset = tldText c.data := by
  unfold tldText
  cases htop : topLevel c.data.query with
  | none =>
      rw [htop] at hnames
      exact stringAt_congr hnames
  | some tld =>
      rw [htop] at hnames
      have hlength := htld tld htop
      refine stringAt_eq (nul_notMem_topLevel hnul htop) ?_ fun k hk => ?_
      · rw [Option.getD_some]
        unfold tldOffset namesEnd
        omega
      · rw [Option.getD_some] at hk ⊢
        rw [hnames _ (Nat.le_add_right _ _), Names.withTld, Names.strncpy,
          if_pos ⟨by omega, by omega⟩, Nat.add_sub_cancel_left]

theorem stringAt_from
    (hnames : ∀ j, tldOffset ≤ j → names j = c.data.names.withTld (topLevel c.data.query) j) :
    names.stringAt fromOffset = c.data.names.stringAt fromOffset := by
  refine stringAt_congr fun j hj => ?_
  have hbehind : tldOffset + maxTld ≤ j := hj
  rw [hnames j (by omega)]
  cases topLevel c.data.query with
  | none => rfl
  | some tld => exact if_neg (by omega)

/-- There is room for a number of characters behind the event if and only if there is room
behind what it would be without a limit. -/
theorem room_iff {domain : Text} (hdomain : '\x00' ∉ domain)
    (htld : names.stringAt tldOffset = tldText c.data)
    (hfrom : names.stringAt fromOffset = c.data.names.stringAt fromOffset) (n : ℕ) :
    (outnewFor env c (some domain) names).length + 1 + n < maxOutput ↔
      eventLength env c domain + 1 + n < maxOutput := by
  have hprinted : printed (some domain) = domain := cstr_eq_self hdomain
  unfold outnewFor eventLength eventBuffer
  cases nameReply env c.data.mac with
  | none => exact Iff.rfl
  | some reply =>
      unfold identity
      dsimp only
      cases reply.str with
      | none =>
          dsimp only
          rw [length_eventText, hprinted, htld, hfrom]
          omega
      | some name =>
          dsimp only
          rw [length_eventText, hprinted, htld]
          omega

theorem publishQuery_names (h : extractDomain c.data = .found position names) :
    ((publishQuery env).run c).2.data.names = names := by
  have hrun : PublishRun env c ((publishQuery env).run c).1 ((publishQuery env).run c).2 :=
    publishQuery_run env c c rfl
  have hextraction := extraction_of_found h
  generalize ((publishQuery env).run c) = result at hrun
  obtain ⟨returned, s⟩ := result
  cases hrun with
  | crash hnone =>
      rw [hextraction] at hnone
      cases hnone
  | full hsome _ hdata _ =>
      rw [hextraction] at hsome
      cases hsome
      exact congrArg PluginData.names hdata
  | done hsome _ hdata _ =>
      rw [hextraction] at hsome
      cases hsome
      exact congrArg PluginData.names hdata

end Publication

end Conditions

/-- The publication makes no access outside its buffers, and leaves a terminator in `tld`. -/
structure PublishInside (env : Env) (length : ℕ) (c : Call) : Prop where
  accesses : AllInside length (publishTrace env c)
  tld : Terminated ((publishQuery env).run c).2.data.names

theorem publishTrace_domain {env : Env} {length : ℕ} {c : Call}
    (h : AllInside length (publishTrace env c)) : AllInside length (domainTrace c.data).1 := by
  unfold publishTrace at h
  dsimp only at h
  split at h
  · exact h
  · exact (allInside_append.mp h).1
  · exact (allInside_append.mp h).1

/-- A query of one or two characters has no domain. -/
theorem not_inside_of_short {env : Env} {length : ℕ} {c : Call} (h : c.data.query.length < 3) :
    ¬ AllInside length (publishTrace env c) := by
  have hnull : domainTrace c.data = ([], .null) := if_pos h
  unfold publishTrace
  rw [hnull]
  simp [eventTrace, Access.Inside]

theorem publishTrace_found_iff {env : Env} {length position : ℕ} {names : Names} {c : Call}
    (h : extractDomain c.data = .found position names)
    (hdomain : AllInside length (domainTrace c.data).1) :
    AllInside length (publishTrace env c) ↔
      ∀ group, groupOf c.data (some (names.stringAt position)) = some group →
        (outnewFor env c (some (names.stringAt position)) names).length + 1 +
          min (maxOutput - 128) group.length < maxOutput := by
  have hfound := (domainTrace_snd c.data).trans h
  unfold publishTrace
  dsimp only
  rw [hfound]
  dsimp only
  rw [allInside_append, eventTrace]
  dsimp only
  rw [allInside_cons, allInside_append, groupTrace_inside_iff]
  exact ⟨fun h => h.2.2.2, fun h => ⟨hdomain, rfl, eventWrites_inside, h⟩⟩

/-- A publication that stays inside its buffers returns. -/
theorem PublishInside.returns {env : Env} {length : ℕ} {c : Call} (h : PublishInside env length c) :
    ((publishQuery env).run c).1 = true := by
  refine (PublishRun.publishable (publishQuery_run env c c rfl)).mpr ?_
  have hlong : 3 ≤ c.data.query.length := by
    by_contra hshort
    exact not_inside_of_short (by omega) h.accesses
  cases hdomain : extractDomain c.data with
  | crash =>
      exact absurd hdomain ((domainTrace_inside_iff hlong).mp (publishTrace_domain h.accesses)).2
  | null =>
      unfold extractDomain at hdomain
      dsimp only at hdomain
      rw [if_neg (by omega)] at hdomain
      split at hdomain <;> cases hdomain
  | found position names =>
      rw [publishable_iff (extraction_of_found hdomain), @addGroup_isSome_iff length,
        groupTrace_inside_iff]
      exact (publishTrace_found_iff hdomain (publishTrace_domain h.accesses)).mp h.accesses

/-- The publication stays inside its buffers exactly under the conditions. -/
theorem publishInside_iff {env : Env} {length : ℕ} {c : Call} (hnul : '\x00' ∉ c.data.query) :
    PublishInside env length c ↔ Fits env c := by
  by_cases hlong : 3 ≤ c.data.query.length
  swap
  · exact iff_of_false (fun h => not_inside_of_short (by omega) h.accesses) fun h => hlong h.long
  by_cases hshort : c.data.query.length ≤ 254
  swap
  · exact iff_of_false (fun h => hshort ((domainTrace_inside_iff hlong).mp
      (publishTrace_domain h.accesses)).1) fun h => hshort h.short
  have hscan := extracts_scanned hnul hlong hshort
  cases hlabels : scannedLabels (c.data.query.splitOn '.') with
  | none =>
      rw [hlabels] at hscan
      exact iff_of_false (fun h => ((domainTrace_inside_iff hlong).mp
        (publishTrace_domain h.accesses)).2 hscan)
        fun h => h.dots ((scannedLabels_eq_none_iff _).mp hlabels)
  | some labels =>
      rw [hlabels] at hscan
      obtain ⟨position, names, hfound, hstring, hnames⟩ := hscan
      have hdomain : AllInside length (domainTrace c.data).1 := by
        refine (domainTrace_inside_iff hlong).mpr ⟨hshort, ?_⟩
        rw [hfound]
        nofun
      have hdots : ¬ ['.', '.'] <:+ c.data.query := by
        rw [← scannedLabels_eq_none_iff, hlabels]
        nofun
      have hquery : queryDomain c.data.query = some (names.stringAt position) := by
        rw [queryDomain, hlabels, hstring]
        rfl
      have htld := terminated_iff hnul hnames
      have hroom : Terminated names → ∀ n,
          (outnewFor env c (some (names.stringAt position)) names).length + 1 + n < maxOutput ↔
            eventLength env c (names.stringAt position) + 1 + n < maxOutput := by
        intro hterminated n
        refine room_iff (nul_notMem_cstr _) (stringAt_tld hnul (fun tld htop => ?_) hnames)
          (stringAt_from hnames) n
        have hlength := htld.mp hterminated
        rw [htop] at hlength
        exact hlength
      constructor
      · rintro ⟨haccesses, hterminated⟩
        rw [publishQuery_names hfound] at hterminated
        refine ⟨hlong, hshort, hdots, htld.mp hterminated, fun domain group hq hgroup => ?_⟩
        obtain rfl := Option.some.inj (hquery.symm.trans hq)
        have hwritten := (publishTrace_found_iff hfound hdomain).mp haccesses _ hgroup
        exact (hroom hterminated _).mp hwritten
      · intro h
        have hterminated := htld.mpr h.tld
        refine ⟨(publishTrace_found_iff hfound hdomain).mpr fun group hgroup => ?_, ?_⟩
        · exact (hroom hterminated _).mpr (h.group _ _ hquery hgroup)
        · rw [publishQuery_names hfound]
          exact hterminated

/-- The path from an accepted question to its publication stays inside the buffers. -/
def PathInside (env : Env) (packet : Packet) (data : PluginData) : Prop :=
  ∀ pkt question ip4, acceptedQuestion env packet = some (pkt, question) →
    inetNtoa packet.client = some ip4 →
      let text := questionText env question
      AllInside text.length (arpaTrace env text) ∧
        (reverseOutcome env pkt.id question text = none →
          PublishInside env text.length (savedCall env packet text ip4 data))

/-- An accepted question that ends with a dot has at least five characters, and unless the
storage answers a reverse query, the publication fits. -/
def PathFits (env : Env) (packet : Packet) (data : PluginData) : Prop :=
  ∀ pkt question ip4, acceptedQuestion env packet = some (pkt, question) →
    inetNtoa packet.client = some ip4 →
      let text := questionText env question
      (text.getLast? = some '.' → 5 ≤ text.length) ∧
        (reverseOutcome env pkt.id question text = none →
          Fits env (savedCall env packet text ip4 data))

theorem nul_notMem_questionText (env : Env) (question : Question) :
    '\x00' ∉ questionText env question := by
  unfold questionText
  split
  · exact fun h => nul_notMem_cstr _ (List.mem_of_mem_take h)
  · exact nul_notMem_cstr _

theorem nul_notMem_savedCall (env : Env) (packet : Packet) (question : Question) (ip4 : Text)
    (data : PluginData) :
    '\x00' ∉ (savedCall env packet (questionText env question) ip4 data).data.query := by
  intro h
  exact nul_notMem_questionText env question (List.mem_of_mem_take (List.mem_of_mem_dropLast h))

/-- For every packet, the test for `.arpa`, the extraction and the publication stay inside
their buffers if and only if the question fits. -/
theorem pathInside_iff (env : Env) (packet : Packet) (data : PluginData) :
    PathInside env packet data ↔ PathFits env packet data := by
  unfold PathInside PathFits
  refine forall₃_congr fun pkt question ip4 => ?_
  refine forall_congr' fun haccepted => ?_
  refine forall_congr' fun hip => ?_
  refine and_congr (arpaTrace_inside_iff (acceptedQuestion_ne_nil haccepted)) ?_
  exact imp_congr_right fun _ => publishInside_iff (nul_notMem_savedCall env packet question _ data)

/-- A question for the name servers of the root. -/
def rootEnv : Env := { lanEnv with wire2pkt := fun _ => some ⟨1, some ⟨some ".".toList, 2, 1⟩⟩ }

/-- The test for `.arpa` looks four characters before the question for the root, which has no
domain either. -/
theorem root_question_outside :
    acceptedQuestion rootEnv ⟨[], ⟨192, 168, 0, 7⟩⟩ =
      some (⟨1, some ⟨some ".".toList, 2, 1⟩⟩, ⟨some ".".toList, 2, 1⟩) ∧
    .question (-4) ∈ arpaTrace rootEnv ".".toList ∧
    .string none ∈ publishTrace rootEnv
      (savedCall rootEnv ⟨[], ⟨192, 168, 0, 7⟩⟩ ".".toList "192.168.0.7".toList lanData) ∧
    ¬ PathInside rootEnv ⟨[], ⟨192, 168, 0, 7⟩⟩ lanData := by
  have haccepted : acceptedQuestion rootEnv ⟨[], ⟨192, 168, 0, 7⟩⟩ =
      some (⟨1, some ⟨some ".".toList, 2, 1⟩⟩, ⟨some ".".toList, 2, 1⟩) := by decide
  have hread : .question (-4) ∈ arpaTrace rootEnv ".".toList := by decide
  refine ⟨haccepted, hread, by decide, fun h => ?_⟩
  have hbelow := (h _ _ "192.168.0.7".toList haccepted (by decide)).1 _ hread
  exact absurd hbelow.1 (by decide)

end Dowse.DnsPlugin
