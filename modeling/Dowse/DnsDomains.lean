import Dowse.DnsAttribution
import Dowse.Splitting
import Mathlib.Data.List.DropRight

/-!
# The domain of a query

`extract_domain` is to take the last two labels of a name, and three where the second-level
label is short, as in `example.co.uk`. It scans the name from the right, and at each dot
behind the first it asks whether the label after the dot has more than three characters. The
same question is asked of every further label, so a name with two short labels before the
last is cut later than intended, or not at all.

The labels of a name are listed from the right here, as the scan meets them. An empty label
is no token, and the question is then asked of the one that `strtok` found before. The arrays
`domain`, `tld` and `from` lie next to each other, and what an extraction leaves in them is
given for names of every length.

However far the scan goes, it stops for the same reason when it is made again: what was
extracted ends, from the right, with a long label or with the whole name.
-/
namespace Dowse.DnsPlugin
open CStrings

/-- The labels that the scan takes, after the last one. The first argument is the token that
an empty label leads to, and the result is `none` when there is none. -/
def upToLong (token : Text) : List Text → Option (List Text)
  | [] => some []
  | [label] => some [label]
  | label :: next :: left =>
      let test := if label = [] then token else label
      if test = [] then none
      else if test.length > 3 then some [label]
      else (upToLong test (next :: left)).map (label :: ·)

/-- The labels that the scan takes from a name. -/
def scannedLabels (labels : List Text) : Option (List Text) :=
  match labels.reverse with
  | [] => some []
  | tld :: left => (upToLong tld left).map fun kept => (tld :: kept).reverse

/-- What is taken for the top-level domain, with its dot. -/
def topLevel (query : Text) : Option Text :=
  match (query.splitOn '.').reverse with
  | tld :: _ :: _ => some ('.' :: tld)
  | _ => none

/-- The array `tld` keeps what it has when a name has no dot. -/
def Names.withTld (names : Names) : Option Text → Names
  | none => names
  | some tld => names.strncpy tldOffset maxTld tld

theorem scannedLabels_of_reverse {labels left : List Text} {tld : Text}
    (h : labels.reverse = tld :: left) :
    scannedLabels labels = (upToLong tld left).map fun kept => (tld :: kept).reverse := by
  unfold scannedLabels
  rw [h]

theorem exists_upToLong {token : Text} (h : token ≠ []) (left : List Text) :
    ∃ kept, upToLong token left = some kept := by
  fun_induction upToLong token left with
  | case1 => exact ⟨_, rfl⟩
  | case2 => exact ⟨_, rfl⟩
  | case3 token label next left test hnil =>
      unfold test at hnil
      split_ifs at hnil <;> contradiction
  | case4 => exact ⟨_, rfl⟩
  | case5 token label next left test hne _ ih =>
      obtain ⟨kept, hkept⟩ := ih hne
      exact ⟨label :: kept, by rw [hkept]; rfl⟩

theorem upToLong_ne_nil {token : Text} {left kept : List Text} (h : left ≠ [])
    (hkept : upToLong token left = some kept) : kept ≠ [] := by
  match left with
  | [] => exact absurd rfl h
  | [label] =>
      cases hkept
      exact List.cons_ne_nil _ _
  | label :: next :: left =>
      rw [upToLong] at hkept
      generalize (if label = [] then token else label) = test at hkept
      split_ifs at hkept
      · cases hkept
        exact List.cons_ne_nil _ _
      · obtain ⟨kept, -, rfl⟩ := Option.map_eq_some_iff.mp hkept
        exact List.cons_ne_nil _ _

theorem prefix_of_upToLong {token : Text} {left kept : List Text}
    (h : upToLong token left = some kept) : kept <+: left := by
  induction left generalizing token kept with
  | nil =>
      cases h
      exact List.prefix_refl _
  | cons label left ih =>
      cases left with
      | nil =>
          cases h
          exact List.prefix_refl _
      | cons next left =>
          rw [upToLong] at h
          generalize (if label = [] then token else label) = test at h
          split_ifs at h
          · cases h
            exact List.prefix_append [label] (next :: left)
          · obtain ⟨kept, hkept, rfl⟩ := Option.map_eq_some_iff.mp h
            exact (List.prefix_cons_inj label).mpr (ih hkept)

/-- A second scan of the labels that were taken goes as far as the first, since they end with
the first long label or with the leftmost one. -/
theorem upToLong_idem {token : Text} {left kept : List Text}
    (h : upToLong token left = some kept) : upToLong token kept = some kept := by
  induction left generalizing token kept with
  | nil =>
      cases h
      rfl
  | cons label left ih =>
      cases left with
      | nil =>
          cases h
          rfl
      | cons next left =>
          rw [upToLong] at h
          generalize htest : (if label = [] then token else label) = test at h
          split_ifs at h with hnil hlong
          · cases h
            rfl
          · obtain ⟨kept, hkept, rfl⟩ := Option.map_eq_some_iff.mp h
            obtain ⟨first, rest, rfl⟩ :=
              List.exists_cons_of_ne_nil (upToLong_ne_nil (List.cons_ne_nil next left) hkept)
            rw [upToLong, htest, if_neg hnil, if_neg hlong, ih hkept]
            rfl

section Scan

theorem intercalate_reverse_cons (label : Text) {left : List Text} (h : left ≠ []) :
    ['.'].intercalate (label :: left).reverse =
      ['.'].intercalate left.reverse ++ '.' :: label := by
  rw [List.reverse_cons, Splitting.intercalate_append (List.reverse_ne_nil_iff.mpr h)
    (List.cons_ne_nil label []), List.intercalate_singleton]

theorem getD_ne_dot {s : Text} (hdot : '.' ∉ s) (k : ℕ) : s.getD k '\x00' ≠ '.' := by
  by_cases hk : k < s.length
  · rw [List.getD_eq_getElem _ _ hk]
    exact fun h => hdot (h ▸ List.getElem_mem hk)
  · rw [List.getD_eq_default _ _ (Nat.le_of_not_lt hk)]
    decide

theorem getD_dot (before after : Text) :
    (before ++ '.' :: after).getD before.length '\x00' = '.' := by
  rw [List.getD_append_right _ _ _ _ (Nat.le_refl _), Nat.sub_self]
  rfl

theorem length_dot (before after : Text) :
    (before ++ '.' :: after).length = before.length + 1 + after.length := by
  rw [List.length_append, List.length_cons]
  omega

theorem poke_strncpy (names : Names) (i n : ℕ) (s : Text) :
    (names.poke (i + n) (s.getD n '\x00')).strncpy i n s = names.strncpy i (n + 1) s := by
  funext j
  unfold Names.strncpy Names.poke
  by_cases hj : j = i + n
  · subst hj
    rw [if_neg (by omega), if_pos rfl, if_pos (by omega), Nat.add_sub_cancel_left]
  · by_cases hin : i ≤ j ∧ j < i + n
    · rw [if_pos hin, if_pos (by omega)]
    · rw [if_neg hin, if_neg hj, if_neg (by omega)]

/-- The names after the copy of a part of the address. -/
def Extraction.copied (x : Extraction) (start n : ℕ) : Names :=
  x.names.strncpy start n (x.address.drop start)

theorem Extraction.copied_apply (x : Extraction) (start n j : ℕ) :
    x.copied start n j =
      if start ≤ j ∧ j < start + n then x.address.getD j '\x00' else x.names j := by
  unfold copied Names.strncpy
  split_ifs with hj
  · rw [List.getD_eq_getElem?_getD, List.getElem?_drop, Nat.add_sub_cancel' hj.1,
      ← List.getD_eq_getElem?_getD]
  · rfl

/-- Characters other than dots are copied. -/
theorem extractLoop_copies {x : Extraction} (hdots : x.dots < x.positions) (start n : ℕ)
    (h : ∀ k < n, (x.address.drop start).getD k '\x00' ≠ '.') :
    extractLoop x (start + n) = extractLoop { x with names := x.copied start n } start := by
  induction n generalizing x with
  | zero =>
      have hnone : x.copied start 0 = x.names := by
        funext j
        exact if_neg (by omega)
      rw [hnone, Nat.add_zero]
  | succ n ih =>
      have hlast : x.address.getD (start + n) '\x00' = (x.address.drop start).getD n '\x00' := by
        simp [List.getD_eq_getElem?_getD]
      have hdot : x.address.getD (start + n) '\x00' ≠ '.' := by
        rw [hlast]
        exact h n (Nat.lt_succ_self n)
      have hstep := @ih
        ⟨x.address, x.dots, x.first, x.positions, x.names.poke (start + n)
          (x.address.getD (start + n) '\x00')⟩ hdots fun k hk => h k (Nat.lt_succ_of_lt hk)
      rw [← Nat.add_assoc, extractLoop]
      simp only [hdot, false_and, if_false, ge_iff_le, Nat.not_le.mpr hdots, ne_eq,
        not_false_eq_true, decide_true, Bool.and_true]
      rw [hstep, hlast]
      unfold Extraction.copied
      rw [poke_strncpy]

/-- The next token in a part of the buffer, which is empty when only dots are left. -/
structure Leads (buffer token : Text) : Prop where
  split : ∃ dots rest, buffer = dots ++ token ++ rest ∧ (∀ c ∈ dots, c = '.') ∧
    (rest.getD 0 '\x00' = '\x00' ∨ token ≠ [] ∧ rest.getD 0 '\x00' = '.')
  dot : '.' ∉ token
  nul : '\x00' ∉ token

theorem Leads.self {token : Text} (hdot : '.' ∉ token) (hnul : '\x00' ∉ token) :
    Leads token token :=
  ⟨⟨[], [], by simp, by simp, .inl rfl⟩, hdot, hnul⟩

/-- An empty label leads to the token behind it. -/
theorem Leads.label {label buffer token : Text} (h : Leads buffer token) (hdot : '.' ∉ label)
    (hnul : '\x00' ∉ label) :
    Leads (label ++ '.' :: buffer) (if label = [] then token else label) := by
  split_ifs with hlabel
  · obtain ⟨dots, rest, hbuffer, hdots, hrest⟩ := h.split
    refine ⟨⟨'.' :: dots, rest, by simp [hlabel, hbuffer], ?_, hrest⟩, h.dot, h.nul⟩
    intro c hc
    obtain rfl | hc := List.mem_cons.mp hc
    · rfl
    · exact hdots c hc
  · exact ⟨⟨[], '.' :: buffer, by simp, by simp, .inr ⟨hlabel, rfl⟩⟩, hdot, hnul⟩

section Token
variable {before buffer token : Text}

/-- Reading a token of a string: the dots before it, the token, and the dot behind it. -/
theorem takeWhile_leads {dots rest : Text} (hdots : ∀ c ∈ dots, c = '.') (hdot : '.' ∉ token)
    (hrest : rest = [] ∨ token ≠ [] ∧ rest.getD 0 '\x00' = '.') :
    (dots ++ (token ++ rest)).takeWhile (· = '.') = dots ∧
      (token ++ rest).takeWhile (· ≠ '.') = token := by
  have hpos : ∀ c ∈ token, decide (c ≠ '.') = true := by
    intro c hc
    exact decide_eq_true fun h => hdot (h ▸ hc)
  rw [List.takeWhile_append_of_pos fun c hc => decide_eq_true (hdots c hc),
    List.takeWhile_append_of_pos hpos]
  obtain rfl | ⟨hne, hrest⟩ := hrest
  · cases token with
    | nil => simp
    | cons c token =>
        have hc := hpos c List.mem_cons_self
        simp [List.takeWhile_cons_of_neg, by simpa using hc]
  · obtain ⟨c, token, rfl⟩ := List.exists_cons_of_ne_nil hne
    have hc := hpos c List.mem_cons_self
    cases rest with
    | nil => cases hrest
    | cons d rest =>
        obtain rfl : d = '.' := hrest
        simp [List.takeWhile_cons_of_neg, by simpa using hc]

theorem cstr_leads {dots rest : Text} (hdots : ∀ c ∈ dots, c = '.') (hnul : '\x00' ∉ token) :
    cstr (dots ++ token ++ rest) = dots ++ token ++ cstr rest := by
  unfold cstr
  refine List.takeWhile_append_of_pos fun c hc => decide_eq_true ?_
  obtain hc | hc := List.mem_append.mp hc
  · rw [hdots c hc]
    decide
  · rintro rfl
    exact hnul hc

theorem strtok_leads (h : Leads buffer token) : ∃ cut,
    strtok (before ++ buffer) before.length =
      (if token = [] then none else some (token, before ++ cut)) ∧ Leads cut token := by
  obtain ⟨dots, rest, rfl, hdots, hrest⟩ := h.split
  have hstring : cstr ((before ++ (dots ++ token ++ rest)).drop before.length) =
      dots ++ (token ++ cstr rest) := by
    rw [List.drop_left, cstr_leads hdots h.nul, List.append_assoc]
  have hbehind : cstr rest = [] ∨ token ≠ [] ∧ (cstr rest).getD 0 '\x00' = '.' := by
    cases rest with
    | nil => exact .inl rfl
    | cons c rest =>
        obtain hc | ⟨hne, hc⟩ := hrest
        · obtain rfl : c = '\x00' := hc
          exact .inl rfl
        · obtain rfl : c = '.' := hc
          exact .inr ⟨hne, rfl⟩
  obtain ⟨hleading, htoken⟩ := takeWhile_leads hdots h.dot hbehind
  refine ⟨dots ++ token ++ rest.set 0 '\x00', ?_, ⟨dots, rest.set 0 '\x00', rfl, hdots, .inl ?_⟩,
    h.dot, h.nul⟩
  · unfold strtok
    dsimp only
    rw [hstring, hleading, List.drop_left, htoken, Nat.add_assoc, ← List.length_append,
      List.set_append_right _ _ (Nat.le_add_right _ _), Nat.add_sub_cancel_left,
      List.set_append_right _ _ (Nat.le_refl _), Nat.sub_self]
  · cases rest <;> rfl

end Token

/-- The label at a position is copied. -/
theorem extractLoop_label {x : Extraction} {before label after : Text}
    (hpositions : x.dots < x.positions) (haddress : x.address = before ++ label ++ after)
    (hdot : '.' ∉ label) :
    extractLoop x (before ++ label).length =
      extractLoop { x with names := x.copied before.length label.length } before.length := by
  rw [List.length_append]
  refine extractLoop_copies hpositions _ _ fun k hk => ?_
  rw [haddress, List.append_assoc, List.drop_left, List.getD_append _ _ _ _ hk]
  exact getD_ne_dot hdot k

/-- The round for a dot at which the token behind it is looked at. -/
theorem extractLoop_dot {x : Extraction} {before buffer token : Text}
    (hpositions : x.dots + 1 = x.positions) (hfirst : x.first = false)
    (haddress : x.address = before ++ '.' :: buffer) (htoken : Leads buffer token) :
    ∃ cut, Leads cut token ∧ extractLoop x (before.length + 1) =
      if token = [] then none
      else if token.length > 3 then some (before.length + 1, x.names)
      else extractLoop ⟨before ++ '.' :: cut, x.dots + 1, false, x.positions + 1,
        x.names.poke before.length '.'⟩ before.length := by
  have hlast : x.address.getD before.length '\x00' = '.' := haddress ▸ getD_dot before buffer
  obtain ⟨cut, htok, hcut⟩ := @strtok_leads (before ++ ['.']) buffer token htoken
  rw [List.length_append, List.length_singleton, List.append_assoc, List.append_assoc,
    List.singleton_append, List.singleton_append, ← haddress] at htok
  refine ⟨cut, hcut, ?_⟩
  rw [extractLoop]
  simp only [hlast, hfirst, Bool.false_eq_true, and_false, if_true, if_false, ge_iff_le, hpositions,
    Nat.le_refl, htok, Bool.false_and]
  by_cases hnil : token = []
  · simp only [hnil, if_true]
  · simp only [hnil, if_false]

/-- The rounds for one label that is neither the last nor the first, and for the dot before
it. -/
theorem extractLoop_round {x : Extraction} {before label post token : Text}
    (hpositions : x.dots + 1 = x.positions) (hfirst : x.first = false)
    (haddress : x.address = before ++ '.' :: label ++ '.' :: post) (htoken : Leads post token)
    (hdot : '.' ∉ label) (hnul : '\x00' ∉ label) {test : Text}
    (htest : test = if label = [] then token else label) :
    ∃ cut, Leads cut test ∧ extractLoop x (before ++ '.' :: label).length =
      if test = [] then none
      else if test.length > 3 then
        some (before.length + 1, x.copied (before.length + 1) label.length)
      else extractLoop ⟨before ++ '.' :: cut, x.dots + 1, false, x.positions + 1,
        (x.copied (before.length + 1) label.length).poke before.length '.'⟩ before.length := by
  have hcopy := @extractLoop_label x (before ++ ['.']) label ('.' :: post) (by omega)
    (by simp [haddress]) hdot
  have hlength : (before ++ ['.']).length = before.length + 1 := List.length_append
  rw [hlength, List.append_assoc, List.singleton_append] at hcopy
  have hleads := htoken.label hdot hnul
  rw [← htest] at hleads
  rw [hcopy]
  exact extractLoop_dot hpositions hfirst (haddress.trans (by simp)) hleads

/-- What a scan that ends with the given labels has copied, down to the first of them. -/
structure Scanned (x : Extraction) (scanned : Text) (kept : List Text) (position : ℕ)
    (names : Names) : Prop where
  text : scanned.drop position = ['.'].intercalate kept.reverse
  position_le : position ≤ scanned.length
  names : ∀ j, position ≤ j →
    names j = if j < scanned.length then x.address.getD j '\x00' else x.names j

section Label
variable {x : Extraction} {before label post : Text}

/-- Behind the dot before a label, the names are those after the label was copied. -/
theorem copied_label {j : ℕ} (hj : before.length < j) :
    x.copied (before.length + 1) label.length j =
      if j < (before ++ '.' :: label).length then x.address.getD j '\x00' else x.names j := by
  rw [x.copied_apply, length_dot]
  simp only [Nat.succ_le_iff.mpr hj, true_and]

theorem Scanned.long : Scanned x (before ++ '.' :: label) [label] (before.length + 1)
    (x.copied (before.length + 1) label.length) := by
  refine ⟨?_, ?_, fun j hj => copied_label hj⟩
  · simp [List.drop_append]
  · rw [length_dot]
    omega

/-- A scan that goes on in front of a label ends with that label as well. -/
theorem Scanned.cons {cut : Text} {dots positions position : ℕ} {first : Bool} {kept : List Text}
    {names : Names} (haddress : x.address = before ++ '.' :: label ++ '.' :: post)
    (hkept : kept ≠ []) (h : Scanned ⟨before ++ '.' :: cut, dots, first, positions,
      (x.copied (before.length + 1) label.length).poke before.length '.'⟩ before kept position
      names) :
    Scanned x (before ++ '.' :: label) (label :: kept) position names := by
  have hle := h.position_le
  refine ⟨?_, ?_, fun j hj => ?_⟩
  · rw [intercalate_reverse_cons label hkept, ← h.text, List.drop_append_of_le_length hle]
  · rw [List.length_append]
    omega
  · have hbefore : before.length < (before ++ '.' :: label).length := by
      rw [length_dot]
      omega
    rw [h.names j hj]
    dsimp only
    obtain hlt | rfl | hgt := Nat.lt_trichotomy j before.length
    · rw [if_pos hlt, if_pos (by omega), haddress, List.append_assoc, List.getD_append _ _ _ _ hlt,
        List.getD_append _ _ _ _ hlt]
    · rw [if_neg (Nat.lt_irrefl _), if_pos hbefore, Names.poke, if_pos rfl, haddress,
        List.append_assoc, List.cons_append, getD_dot]
    · rw [if_neg (by omega), Names.poke, if_neg (by omega), copied_label hgt]

end Label

/-- The scan over the labels before the last. The first dot is behind the position, and the
number of dots that is looked for is one more than that of the dots so far. -/
theorem extractLoop_labels {left : List Text} (hdot : ∀ label ∈ left, '.' ∉ label)
    (hnul : ∀ label ∈ left, '\x00' ∉ label) {x : Extraction} {post token : Text}
    (hpositions : x.dots + 1 = x.positions) (hfirst : x.first = false)
    (haddress : x.address = ['.'].intercalate left.reverse ++ '.' :: post)
    (htoken : Leads post token) :
    match upToLong token left with
    | none => extractLoop x (['.'].intercalate left.reverse).length = none
    | some kept => ∃ position names,
        extractLoop x (['.'].intercalate left.reverse).length = some (position, names) ∧
        Scanned x (['.'].intercalate left.reverse) kept position names := by
  induction left generalizing x post token with
  | nil => exact ⟨0, x.names, rfl, rfl, Nat.le_refl _, fun j _ => rfl⟩
  | cons label left ih =>
      have hlabel := hdot label List.mem_cons_self
      by_cases hleft : left = []
      · subst hleft
        rw [List.reverse_singleton, List.intercalate_singleton] at haddress ⊢
        have hcopy := @extractLoop_label x [] label _ (by omega) haddress hlabel
        refine ⟨0, _, hcopy, by simp, Nat.zero_le _, fun j _ => ?_⟩
        dsimp only
        rw [x.copied_apply]
        simp
      -- There is a dot before the label, and the buffer behind it leads to the token that is
      -- tested. Cut behind that token, it leads to it again from the next dot.
      obtain ⟨next, more, hmore⟩ := List.exists_cons_of_ne_nil hleft
      rw [intercalate_reverse_cons label hleft] at haddress ⊢
      generalize ['.'].intercalate left.reverse = before at *
      obtain ⟨test, htest⟩ : ∃ test, test = if label = [] then token else label := ⟨_, rfl⟩
      obtain ⟨cut, hcut, hround⟩ := extractLoop_round hpositions hfirst haddress htoken hlabel
        (hnul label List.mem_cons_self) htest
      have hscan : upToLong token (label :: left) = if test = [] then none
          else if test.length > 3 then some [label] else (upToLong test left).map (label :: ·) := by
        rw [htest, hmore, upToLong]
      rw [hround, hscan]
      by_cases hnil : test = []
      · simp only [hnil, if_true]
      by_cases hlong : test.length > 3
      · simp only [hnil, hlong, if_true, if_false]
        exact ⟨_, _, rfl, .long⟩
      have hrest := @ih (fun l hl => hdot l (List.mem_cons_of_mem _ hl))
        (fun l hl => hnul l (List.mem_cons_of_mem _ hl))
        ⟨before ++ '.' :: cut, x.dots + 1, false, x.positions + 1,
          (x.copied (before.length + 1) label.length).poke before.length '.'⟩
        cut test (congrArg (· + 1) hpositions) rfl rfl hcut
      simp only [hnil, hlong, if_false]
      cases hkept : upToLong test left with
      | none =>
          rw [hkept] at hrest
          exact hrest
      | some kept =>
          rw [hkept] at hrest
          obtain ⟨position, names, hloop, hscanned⟩ := hrest
          exact ⟨position, names, hloop, hscanned.cons haddress (upToLong_ne_nil hleft hkept)⟩

theorem extractLoop_firstDot {x : Extraction} {c : ℕ} (hdots : x.dots = 0)
    (hpositions : x.positions = 2) (hfirst : x.first = true)
    (hlast : x.address.getD c '\x00' = '.') :
    extractLoop x (c + 1) = extractLoop ⟨x.address, 1, false, 2,
      (x.names.strncpy tldOffset maxTld (cstr (x.address.drop c))).poke c '.'⟩ c := by
  rw [extractLoop]
  simp only [hlast, hdots, hfirst, hpositions, and_self, if_true, not_true_eq_false, decide_false,
    Bool.and_false, ge_iff_le, Nat.zero_add, Nat.reduceLeDiff, if_false, ne_eq]

/-- The names after the last label was copied, once to its place and once over `tld`. -/
def Names.lastCopied (names : Names) (before tld : Text) : Names :=
  ((names.strncpy (before.length + 1) (tld.length + 1) tld).strncpy tldOffset maxTld
    ('.' :: tld)).poke before.length '.'

/-- The rounds for the last label and the dot before it. -/
theorem extractLoop_last {before tld : Text} {names : Names} (hdot : '.' ∉ tld)
    (hnul : '\x00' ∉ tld) :
    extractLoop ⟨before ++ '.' :: tld, 0, true, 2, names⟩ ((before ++ '.' :: tld).length + 1) =
      extractLoop ⟨before ++ '.' :: tld, 1, false, 2, names.lastCopied before tld⟩
        before.length := by
  have hdrop : (before ++ '.' :: tld).drop (before.length + 1) = tld := by
    simp [List.drop_append]
  have hcopy := @extractLoop_copies ⟨before ++ '.' :: tld, 0, true, 2, names⟩ (Nat.zero_lt_two)
    (before.length + 1) (tld.length + 1) fun k _ => hdrop.symm ▸ getD_ne_dot hdot k
  have htld : cstr ((before ++ '.' :: tld).drop before.length) = '.' :: tld := by
    rw [List.drop_left, cstr_eq_self]
    simpa using hnul
  unfold Extraction.copied at hcopy
  dsimp only at hcopy
  rw [extractLoop_firstDot rfl rfl rfl (getD_dot before tld), htld, hdrop] at hcopy
  rw [length_dot, Nat.add_assoc, hcopy]
  rfl

theorem position_le_of_extractLoop {x : Extraction} {c position : ℕ} {names : Names}
    (h : extractLoop x c = some (position, names)) : position ≤ c := by
  induction c generalizing x with
  | zero =>
      cases h
      exact Nat.le_refl 0
  | succ c ih =>
      obtain ⟨before, -, ⟨rfl, -⟩ | ⟨y, -, -, hloop⟩⟩ := extractLoop_step h
      · exact Nat.le_refl _
      · exact Nat.le_succ_of_le (ih hloop)

/-- Behind the first dot, nothing is written below the position at which the loop stops. -/
theorem extractLoop_below {x : Extraction} {c position : ℕ} {names : Names}
    (hfirst : x.first = false) (h : extractLoop x c = some (position, names)) {j : ℕ}
    (hj : j < position) : names j = x.names j := by
  induction c generalizing x with
  | zero =>
      cases h
      rfl
  | succ c ih =>
      obtain ⟨before, hbefore, hround⟩ := extractLoop_step h
      obtain rfl : before = x.names := by
        obtain hsame | ⟨hx, -⟩ := hbefore
        · exact hsame
        · exact absurd (hfirst.symm.trans hx) nofun
      obtain ⟨-, rfl⟩ | ⟨y, hy, hy', hloop⟩ := hround
      · rfl
      · have hle := position_le_of_extractLoop hloop
        rw [ih (hy' hfirst) hloop, hy, Names.poke, if_neg (by omega)]

end Scan

section Domain
variable {data : PluginData}

/-- The arrays after an extraction that stops behind a position: the query is copied from its
end, and when the scan meets the first dot, the last label goes over what `tld` has. -/
def Names.extracted (old : Names) (query : Text) (position : ℕ) : Names :=
  let cleared := old.poke (query.length + 1) '\x00'
  match topLevel query with
  | none => cleared.strncpy 0 (query.length + 1) query
  | some tld =>
      let dot := query.length - tld.length
      ((cleared.strncpy (dot + 1) tld.length (query.drop (dot + 1))).strncpy tldOffset maxTld
        tld).strncpy position (dot + 1 - position) (query.drop position)

theorem topLevel_of_notMem {query : Text} (hdot : '.' ∉ query) : topLevel query = none := by
  unfold topLevel
  rw [List.splitOn_eq_singleton hdot]
  rfl

theorem topLevel_dot {before tld : Text} (hdot : '.' ∉ tld) :
    topLevel (before ++ '.' :: tld) = some ('.' :: tld) := by
  obtain ⟨last, left, hpieces⟩ := List.exists_cons_of_ne_nil
    (List.reverse_ne_nil_iff.mpr (List.splitOn_ne_nil '.' before))
  unfold topLevel
  rw [List.splitOn_append_cons_self, List.splitOn_eq_singleton hdot, List.reverse_append, hpieces]
  rfl

/-- The top-level domain is what follows the last dot, with the dot. -/
theorem exists_of_topLevel {query tld : Text} (h : topLevel query = some tld) :
    ∃ before label, query = before ++ '.' :: label ∧ tld = '.' :: label ∧ '.' ∉ label := by
  have hquery : ['.'].intercalate (query.splitOn '.').reverse.reverse = query := by
    rw [List.reverse_reverse]
    exact List.intercalate_splitOn '.'
  unfold topLevel at h
  split at h
  · rename_i label next left hpieces
    cases h
    rw [hpieces, intercalate_reverse_cons label (List.cons_ne_nil next left)] at hquery
    refine ⟨_, label, hquery.symm, rfl, Splitting.notMem_of_mem_splitOn (l := query) ?_⟩
    rw [← List.mem_reverse, hpieces]
    exact List.mem_cons_self
  · cases h

theorem getD_drop (s : Text) (n k : ℕ) : (s.drop n).getD k '\x00' = s.getD (n + k) '\x00' := by
  rw [List.getD_eq_getElem?_getD, List.getElem?_drop, ← List.getD_eq_getElem?_getD]

theorem extracted_none (old : Names) {query : Text} (h : topLevel query = none) (position j : ℕ) :
    old.extracted query position j =
      if j ≤ query.length then query.getD j '\x00'
      else if j = query.length + 1 then '\x00' else old j := by
  unfold Names.extracted
  rw [h]
  dsimp only
  unfold Names.strncpy Names.poke
  simp only [Nat.zero_le, true_and, Nat.zero_add, Nat.lt_succ_iff, Nat.sub_zero]

/-- What is read at an index of the arrays when the name has a dot. -/
theorem extracted_some (old : Names) {query tld : Text} (h : topLevel query = some tld)
    (position j : ℕ) :
    old.extracted query position j =
      if position ≤ j ∧ j ≤ query.length - tld.length then query.getD j '\x00'
      else if tldOffset ≤ j ∧ j < fromOffset then tld.getD (j - tldOffset) '\x00'
      else if query.length - tld.length < j ∧ j ≤ query.length then query.getD j '\x00'
      else if j = query.length + 1 then '\x00' else old j := by
  have hlength : tld.length ≤ query.length := by
    obtain ⟨before, label, rfl, rfl, -⟩ := exists_of_topLevel h
    rw [List.length_append]
    omega
  unfold Names.extracted
  rw [h]
  dsimp only
  unfold Names.strncpy Names.poke
  rw [getD_drop, getD_drop]
  have hfrom : tldOffset + maxTld = fromOffset := rfl
  rw [hfrom]
  by_cases hkept : position ≤ j ∧ j ≤ query.length - tld.length
  · rw [if_pos (by omega), if_pos hkept, Nat.add_sub_cancel' hkept.1]
  rw [if_neg (by omega), if_neg hkept]
  by_cases htld : tldOffset ≤ j ∧ j < fromOffset
  · rw [if_pos htld, if_pos htld]
  rw [if_neg htld, if_neg htld]
  by_cases hlast : query.length - tld.length < j ∧ j ≤ query.length
  · rw [if_pos (by omega), if_pos hlast, Nat.add_sub_cancel' hlast.1]
  · rw [if_neg (by omega), if_neg hlast]

theorem extractDomain_of_loop {position : ℕ} {names : Names} (hmin : 3 ≤ data.query.length)
    (h : extractLoop ⟨data.query, 0, true, 2, data.names.poke (data.query.length + 1) '\x00'⟩
      (data.query.length + 1) = some (position, names)) :
    extractDomain data = .found position names := by
  unfold extractDomain
  dsimp only
  rw [if_neg (by omega), h]

/-- Where the domain that is made up of some labels begins in a query. -/
def domainStart (query : Text) (labels : List Text) : ℕ :=
  query.length - (['.'].intercalate labels).length

theorem lastCopied_apply (old : Names) {query before tld : Text}
    (hquery : before ++ '.' :: tld = query) (j : ℕ) :
    (old.poke (query.length + 1) '\x00').lastCopied before tld j =
      if j = before.length then '.'
      else if tldOffset ≤ j ∧ j < fromOffset then ('.' :: tld).getD (j - tldOffset) '\x00'
      else if before.length < j ∧ j ≤ query.length then query.getD j '\x00'
      else if j = query.length + 1 then '\x00' else old j := by
  have hlength : query.length = before.length + 1 + tld.length := hquery ▸ length_dot before tld
  have hdrop : query.drop (before.length + 1) = tld := by
    rw [← hquery]
    simp [List.drop_append]
  have hregion : tldOffset + maxTld = fromOffset := rfl
  unfold Names.lastCopied Names.strncpy Names.poke
  dsimp only
  rw [hregion]
  by_cases hlast : before.length < j ∧ j ≤ query.length
  · have hcopied : before.length + 1 ≤ j ∧ j < before.length + 1 + (tld.length + 1) := by omega
    rw [if_pos hlast, if_pos hcopied, ← hdrop, getD_drop, Nat.add_sub_cancel' hlast.1]
  · have hcopied : ¬ (before.length + 1 ≤ j ∧ j < before.length + 1 + (tld.length + 1)) := by omega
    rw [if_neg hlast, if_neg hcopied]

/-- What the scan of the labels before the last leaves in the arrays. -/
theorem Scanned.names_eq {query before tld : Text} {old names : Names} {kept : List Text}
    {position dots positions : ℕ} {first : Bool} (hquery : before ++ '.' :: tld = query)
    (hdot : '.' ∉ tld) (h : Scanned ⟨query, dots, first, positions,
      (old.poke (query.length + 1) '\x00').lastCopied before tld⟩ before kept position names)
    (hbelow : ∀ j < position,
      names j = (old.poke (query.length + 1) '\x00').lastCopied before tld j) :
    names = old.extracted query position := by
  have hindex : query.length - ('.' :: tld).length = before.length := by
    rw [← hquery, length_dot, List.length_cons]
    omega
  have hle := h.position_le
  funext j
  rw [extracted_some old (hquery ▸ topLevel_dot hdot), hindex]
  obtain hlt | hge := Nat.lt_or_ge j position
  · have hbefore : ¬ (position ≤ j ∧ j ≤ before.length) := by omega
    rw [hbelow j hlt, lastCopied_apply old hquery, if_neg (by omega), if_neg hbefore]
  · rw [h.names j hge]
    dsimp only
    obtain hlt | rfl | hgt := Nat.lt_trichotomy j before.length
    · rw [if_pos hlt, if_pos (by omega)]
    · rw [if_neg (Nat.lt_irrefl _), if_pos (by omega), lastCopied_apply old hquery, if_pos rfl,
        ← hquery, getD_dot]
    · have hbehind : ¬ (position ≤ j ∧ j ≤ before.length) := by omega
      rw [if_neg (by omega), if_neg hbehind, lastCopied_apply old hquery, if_neg (by omega)]

/-- The extraction from a name of any length. The arrays are taken as one region, so that a
name that does not fit into `domain` runs over into the others. -/
theorem extractDomain_eq (hnul : '\x00' ∉ data.query) (hmin : 3 ≤ data.query.length) :
    extractDomain data = match scannedLabels (data.query.splitOn '.') with
      | none => .crash
      | some labels => .found (domainStart data.query labels)
          (data.names.extracted data.query (domainStart data.query labels)) := by
  have hquery : ['.'].intercalate (data.query.splitOn '.').reverse.reverse = data.query := by
    rw [List.reverse_reverse]
    exact List.intercalate_splitOn '.'
  have hdots : ∀ label ∈ (data.query.splitOn '.').reverse, '.' ∉ label := by
    intro label hlabel
    exact Splitting.notMem_of_mem_splitOn (List.mem_reverse.mp hlabel)
  have hnuls : ∀ label ∈ (data.query.splitOn '.').reverse, '\x00' ∉ label := by
    intro label hlabel h
    exact hnul (Splitting.mem_of_mem_splitOn (List.mem_reverse.mp hlabel) _ h)
  match hpieces : (data.query.splitOn '.').reverse with
  | [] => exact absurd (List.reverse_eq_nil_iff.mp hpieces) (List.splitOn_ne_nil _ _)
  | [tld] =>
      rw [hpieces, List.reverse_singleton, List.intercalate_singleton] at hquery
      have hdot : '.' ∉ data.query := hquery ▸ hdots tld (by simp [hpieces])
      have hcopy := @extractLoop_copies ⟨data.query, 0, true, 2,
        data.names.poke (data.query.length + 1) '\x00'⟩ Nat.zero_lt_two 0 (data.query.length + 1)
          fun k _ => getD_ne_dot hdot k
      rw [Nat.zero_add] at hcopy
      have hstart : domainStart data.query [data.query] = 0 := by
        rw [domainStart, List.intercalate_singleton, Nat.sub_self]
      have hnames : data.names.extracted data.query 0 = (data.names.poke (data.query.length + 1)
          '\x00').strncpy 0 (data.query.length + 1) data.query := by
        unfold Names.extracted
        rw [topLevel_of_notMem hdot]
      have hscan : scannedLabels (data.query.splitOn '.') = some [data.query] := by
        rw [scannedLabels_of_reverse hpieces, hquery]
        rfl
      rw [hscan]
      dsimp only
      rw [hstart, hnames]
      exact extractDomain_of_loop hmin hcopy
  | tld :: next :: left =>
      have hdot : '.' ∉ tld := hdots tld (by simp [hpieces])
      have htld : '\x00' ∉ tld := hnuls tld (by simp [hpieces])
      rw [hpieces, intercalate_reverse_cons tld (List.cons_ne_nil next left)] at hquery
      have hlast := @extractLoop_last (['.'].intercalate (next :: left).reverse) tld
        (data.names.poke (data.query.length + 1) '\x00') hdot htld
      rw [hquery] at hlast
      have hscan := @extractLoop_labels (next :: left)
        (fun label hlabel => hdots label (by simp [hpieces, hlabel]))
        (fun label hlabel => hnuls label (by simp [hpieces, hlabel]))
        ⟨data.query, 1, false, 2, (data.names.poke (data.query.length + 1) '\x00').lastCopied
          (['.'].intercalate (next :: left).reverse) tld⟩ tld tld rfl rfl hquery.symm
        (.self hdot htld)
      rw [scannedLabels_of_reverse hpieces]
      cases hkept : upToLong tld (next :: left) with
      | none =>
          rw [hkept] at hscan
          rw [extractDomain, if_neg (by omega), hlast.trans hscan]
          rfl
      | some kept =>
          rw [hkept] at hscan
          obtain ⟨position, names', hloop, hscanned⟩ := hscan
          have hstart : domainStart data.query (tld :: kept).reverse = position := by
            have hlength := congrArg List.length hscanned.text
            have hle := hscanned.position_le
            rw [List.length_drop] at hlength
            rw [domainStart, intercalate_reverse_cons tld
              (upToLong_ne_nil (List.cons_ne_nil next left) hkept), ← hquery, length_dot,
              length_dot]
            omega
          rw [Option.map_some]
          dsimp only
          rw [hstart, ← hscanned.names_eq hquery hdot fun j hj => extractLoop_below rfl hloop hj]
          exact extractDomain_of_loop hmin (hlast.trans hloop)

/-- The names of the plugin data after the extraction of a name that has been copied. -/
theorem stringAt_scanned {query : Text} {labels : List Text} {names : Names} {position : ℕ}
    (hnul : '\x00' ∉ query) (hmax : query.length < maxDomain) (hposition : position ≤ query.length)
    (htext : query.drop position = ['.'].intercalate labels)
    (hnames : ∀ j, position ≤ j → j ≤ query.length → names j = query.getD j '\x00') :
    names.stringAt position = ['.'].intercalate labels := by
  have hlength : (query.drop position).length = query.length - position := List.length_drop
  rw [← htext]
  refine stringAt_eq (fun h => hnul (List.mem_of_mem_drop h)) ?_ fun k hk => ?_
  · unfold namesEnd
    omega
  · rw [hnames _ (by omega) (by omega), getD_drop]

/-- The end of an extraction that takes some labels, or reads through a null token. -/
def Extracts (data : PluginData) : Option (List Text) → Prop
  | none => extractDomain data = .crash
  | some labels => ∃ position names, extractDomain data = .found position names ∧
      names.stringAt position = ['.'].intercalate labels ∧
      ∀ j, tldOffset ≤ j → names j = data.names.withTld (topLevel data.query) j

theorem suffix_of_scannedLabels {labels kept : List Text} (h : scannedLabels labels = some kept) :
    kept <:+ labels := by
  unfold scannedLabels at h
  cases hlabels : labels.reverse with
  | nil =>
      rw [hlabels] at h
      cases h
      exact List.nil_suffix
  | cons tld left =>
      rw [hlabels] at h
      obtain ⟨taken, htaken, rfl⟩ := Option.map_eq_some_iff.mp h
      rw [← List.reverse_prefix, hlabels, List.reverse_reverse]
      exact (List.prefix_cons_inj tld).mpr (prefix_of_upToLong htaken)

theorem drop_domainStart {query : Text} {labels : List Text}
    (h : scannedLabels (query.splitOn '.') = some labels) :
    query.drop (domainStart query labels) = ['.'].intercalate labels := by
  have hsuffix := @Splitting.intercalate_suffix _ '.' _ _ (suffix_of_scannedLabels h)
  have hquery : ['.'].intercalate (query.splitOn '.') = query := List.intercalate_splitOn '.'
  rw [hquery] at hsuffix
  exact (List.suffix_iff_eq_drop.mp hsuffix).symm

/-- The extraction from a name that fits into the array `domain`. -/
theorem extracts_scanned (hnul : '\x00' ∉ data.query) (hmin : 3 ≤ data.query.length)
    (hmax : data.query.length ≤ 254) : Extracts data (scannedLabels (data.query.splitOn '.')) := by
  have heq := extractDomain_eq hnul hmin
  cases hlabels : scannedLabels (data.query.splitOn '.') with
  | none =>
      rw [hlabels] at heq
      exact heq
  | some labels =>
      rw [hlabels] at heq
      have hstart : domainStart data.query labels ≤ data.query.length := Nat.sub_le _ _
      refine ⟨_, _, heq, stringAt_scanned hnul (by unfold maxDomain; omega) hstart
        (drop_domainStart hlabels) ?_, ?_⟩
      · intro j hj hlen
        cases htop : topLevel data.query with
        | none => rw [extracted_none _ htop, if_pos hlen]
        | some tld =>
            rw [extracted_some _ htop]
            by_cases hkept : j ≤ data.query.length - tld.length
            · rw [if_pos ⟨hj, hkept⟩]
            · rw [if_neg (by omega), if_neg (by unfold tldOffset maxDomain; omega),
                if_pos (by omega)]
      · intro j hj
        have hdomain : data.query.length + 1 < j := by
          unfold tldOffset maxDomain at hj
          omega
        cases htop : topLevel data.query with
        | none => rw [extracted_none _ htop, if_neg (by omega), if_neg (by omega), Names.withTld]
        | some tld =>
            rw [extracted_some _ htop, if_neg (by omega), Names.withTld, Names.strncpy,
              if_neg (by omega : ¬ (data.query.length - tld.length < j ∧ j ≤ data.query.length)),
              if_neg (by omega : ¬ j = data.query.length + 1)]
            rfl

end Domain

/-- A dotted name without empty labels, as a C string can hold it. -/
structure DottedName where
  labels : List Text
  ne_nil : ∀ label ∈ labels, label ≠ []
  dot : ∀ label ∈ labels, '.' ∉ label
  nul : ∀ label ∈ labels, '\x00' ∉ label

def DottedName.text (name : DottedName) : Text := ['.'].intercalate name.labels

/-- The number of labels that the comments in the source ask for. -/
def wantedLabels (labels : List Text) : ℕ :=
  match labels.reverse with
  | _ :: sld :: _ => if sld.length > 3 then 2 else 3
  | _ => 2

/-- The labels that `extract_domain` is to take. -/
def documentedLabels (labels : List Text) : List Text := labels.rtake (wantedLabels labels)

/-- The second-level label and the one before it are short, and there is a further label. -/
def ShortThird (labels : List Text) : Prop :=
  ∃ front third sld tld, labels = front ++ [third, sld, tld] ∧ front ≠ [] ∧
    third.length ≤ 3 ∧ sld.length ≤ 3

section Documented

theorem shortThird_reverse {r : List Text} : ShortThird r.reverse ↔
    ∃ tld sld third fourth left, r = tld :: sld :: third :: fourth :: left ∧
      third.length ≤ 3 ∧ sld.length ≤ 3 := by
  constructor
  · rintro ⟨front, third, sld, tld, hr, hfront, hthird, hsld⟩
    obtain ⟨fourth, left, hleft⟩ := List.exists_cons_of_ne_nil (List.reverse_ne_nil_iff.mpr hfront)
    refine ⟨tld, sld, third, fourth, left, ?_, hthird, hsld⟩
    rw [← List.reverse_reverse r, hr, List.reverse_append, hleft]
    rfl
  · rintro ⟨tld, sld, third, fourth, left, rfl, hthird, hsld⟩
    exact ⟨(fourth :: left).reverse, third, sld, tld, by simp, by simp, hthird, hsld⟩

theorem upToLong_cons {token label next : Text} {left : List Text} (h : label ≠ []) :
    upToLong token (label :: next :: left) = if label.length > 3 then some [label]
      else (upToLong label (next :: left)).map (label :: ·) := by
  rw [upToLong, if_neg h, if_neg h]

/-- The scan stops where it should unless two short labels come before the last. -/
theorem scannedLabels_eq_iff {labels : List Text} (hne : ∀ label ∈ labels, label ≠ []) :
    scannedLabels labels = some (documentedLabels labels) ↔ ¬ ShortThird labels := by
  obtain ⟨r, rfl⟩ : ∃ r : List Text, r.reverse = labels := ⟨_, List.reverse_reverse labels⟩
  unfold scannedLabels documentedLabels wantedLabels
  rw [List.rtake_eq_reverse_take_reverse, List.reverse_reverse, shortThird_reverse]
  match r with
  | [] => simp
  | [tld] => simp [upToLong]
  | [tld, sld] =>
      refine iff_of_true ?_ (by simp)
      dsimp only
      split_ifs <;> rfl
  | tld :: sld :: third :: left =>
      dsimp only
      rw [upToLong_cons (hne sld (by simp))]
      by_cases hsld : sld.length > 3
      · rw [if_pos hsld, if_pos hsld]
        refine iff_of_true rfl ?_
        rintro ⟨_, _, _, _, _, h, -, hshort⟩
        cases h
        omega
      rw [if_neg hsld, if_neg hsld]
      cases left with
      | nil => exact iff_of_true rfl (by simp)
      | cons fourth left =>
          rw [upToLong_cons (hne third (by simp))]
          by_cases hthird : third.length > 3
          · rw [if_pos hthird]
            refine iff_of_true rfl ?_
            rintro ⟨_, _, _, _, _, h, hshort, -⟩
            cases h
            omega
          · rw [if_neg hthird]
            obtain ⟨kept, hkept⟩ := exists_upToLong (hne third (by simp)) (fourth :: left)
            have hlonger := upToLong_ne_nil (List.cons_ne_nil fourth left) hkept
            refine iff_of_false ?_
              (not_not_intro ⟨tld, sld, third, fourth, left, rfl, by omega, by omega⟩)
            rw [hkept]
            simpa using hlonger

theorem documentedLabels_ne_nil {labels : List Text} (h : labels ≠ []) :
    documentedLabels labels ≠ [] := by
  have hlength := List.length_pos_iff.mpr h
  have hwanted : 2 ≤ wantedLabels labels := by
    unfold wantedLabels
    split
    · split_ifs <;> omega
    · exact Nat.le_refl 2
  refine List.ne_nil_of_length_pos ?_
  rw [documentedLabels, List.rtake, List.length_drop]
  omega

theorem scannedLabels_spec {labels kept : List Text} (hne : labels ≠ [])
    (h : scannedLabels labels = some kept) : kept ≠ [] ∧ ∀ label ∈ kept, label ∈ labels := by
  refine ⟨?_, fun label hlabel => (suffix_of_scannedLabels h).subset hlabel⟩
  obtain ⟨tld, left, hlabels⟩ := List.exists_cons_of_ne_nil (List.reverse_ne_nil_iff.mpr hne)
  rw [scannedLabels_of_reverse hlabels] at h
  obtain ⟨taken, -, rfl⟩ := Option.map_eq_some_iff.mp h
  simp

theorem scannedLabels_idem {labels kept : List Text} (h : scannedLabels labels = some kept) :
    scannedLabels kept = some kept := by
  unfold scannedLabels at h
  cases hlabels : labels.reverse with
  | nil =>
      rw [hlabels] at h
      cases h
      rfl
  | cons tld left =>
      rw [hlabels] at h
      obtain ⟨taken, htaken, rfl⟩ := Option.map_eq_some_iff.mp h
      rw [scannedLabels_of_reverse (List.reverse_reverse _), upToLong_idem htaken]
      rfl

/-- Of a name with two labels or more, two or more are taken. -/
theorem two_le_length_scannedLabels {labels kept : List Text} (hlength : 2 ≤ labels.length)
    (h : scannedLabels labels = some kept) : 2 ≤ kept.length := by
  obtain ⟨tld, next, left, hlabels⟩ : ∃ tld next left, labels.reverse = tld :: next :: left := by
    rw [← List.length_reverse] at hlength
    match labels.reverse, hlength with
    | tld :: next :: left, _ => exact ⟨tld, next, left, rfl⟩
  rw [scannedLabels_of_reverse hlabels] at h
  obtain ⟨taken, htaken, rfl⟩ := Option.map_eq_some_iff.mp h
  have hpos := List.length_pos_iff.mpr (upToLong_ne_nil (List.cons_ne_nil next left) htaken)
  rw [List.length_reverse, List.length_cons]
  omega

theorem DottedName.labels_ne_nil {name : DottedName} (h : name.text ≠ []) : name.labels ≠ [] := by
  intro hnil
  rw [DottedName.text, hnil] at h
  exact h rfl

theorem DottedName.nul_notMem (name : DottedName) : '\x00' ∉ name.text := by
  intro h
  obtain h | ⟨label, hlabel, h⟩ := mem_of_mem_intercalate h
  · exact absurd h (by decide)
  · exact name.nul label hlabel h

/-- Names with the same text have the same labels. -/
theorem intercalate_inj {labels labels' : List Text} (hne : labels ≠ []) (hne' : labels' ≠ [])
    (hdot : ∀ label ∈ labels, '.' ∉ label) (hdot' : ∀ label ∈ labels', '.' ∉ label) :
    ['.'].intercalate labels = ['.'].intercalate labels' ↔ labels = labels' := by
  refine ⟨fun h => ?_, congrArg _⟩
  rw [← List.splitOn_intercalate '.' hdot hne, h, List.splitOn_intercalate '.' hdot' hne']

/-- What is extracted from a name are its scanned labels, whatever the buffer held. -/
theorem extractDomain_name {data : PluginData} {name : DottedName} (hquery : data.query = name.text)
    (hmin : 3 ≤ name.text.length) (hmax : name.text.length ≤ 254) :
    Extracts data (scannedLabels name.labels) := by
  have hscan := @extracts_scanned data (hquery ▸ name.nul_notMem) (hquery ▸ hmin) (hquery ▸ hmax)
  rwa [hquery, DottedName.text, List.splitOn_intercalate '.' name.dot
    (name.labels_ne_nil (List.ne_nil_of_length_pos (by omega)))] at hscan

end Documented

/-- The documented labels are taken from a name if and only if the second-level label and the
one before it are not both short with a further label before them. -/
theorem extractDomain_documented_iff {data : PluginData} {name : DottedName}
    (hquery : data.query = name.text) (hmin : 3 ≤ name.text.length)
    (hmax : name.text.length ≤ 254) :
    (∃ position names, extractDomain data = .found position names ∧
      names.stringAt position = ['.'].intercalate (documentedLabels name.labels)) ↔
    ¬ ShortThird name.labels := by
  have hne : name.labels ≠ [] := name.labels_ne_nil (List.ne_nil_of_length_pos (by omega))
  have hscan := extractDomain_name hquery hmin hmax
  rw [← scannedLabels_eq_iff name.ne_nil]
  cases hkept : scannedLabels name.labels with
  | none =>
      rw [hkept] at hscan
      refine iff_of_false ?_ (by simp)
      rintro ⟨position, names, hfound, -⟩
      cases hscan.symm.trans hfound
  | some kept =>
      rw [hkept] at hscan
      obtain ⟨position, names, hfound, hstring, -⟩ := hscan
      obtain ⟨hkept, hsubset⟩ := scannedLabels_spec hne hkept
      have hsame := intercalate_inj hkept (documentedLabels_ne_nil hne)
        (fun label hlabel => name.dot label (hsubset label hlabel))
        (fun label hlabel => name.dot label (List.mem_of_mem_drop hlabel))
      rw [Option.some.injEq, ← hsame, ← hstring]
      constructor
      · rintro ⟨position', names', hfound', hstring'⟩
        cases hfound.symm.trans hfound'
        exact hstring'
      · exact fun h => ⟨position, names, hfound, h⟩

theorem documented_example_co_uk :
    3 ≤ "www.example.co.uk".toList.length ∧ "www.example.co.uk".toList.length ≤ 254 ∧
    ∃ position names, extractDomain { lanData with query := "www.example.co.uk".toList } =
      .found position names ∧ names.stringAt position = "example.co.uk".toList := by
  refine ⟨by decide, by decide, ?_⟩
  refine (@extractDomain_documented_iff { lanData with query := "www.example.co.uk".toList }
    ⟨["www".toList, "example".toList, "co".toList, "uk".toList], by decide, by decide, by decide⟩
    (by decide) (by decide) (by decide)).mpr ?_
  rintro ⟨front, third, sld, tld, hlabels, -, hthird, -⟩
  obtain ⟨-, h⟩ := List.append_inj' (show ["www".toList] ++ ["example".toList, "co".toList,
    "uk".toList] = front ++ [third, sld, tld] from hlabels) rfl
  cases h
  exact absurd hthird (by decide)

/-- With two short labels before the last, the whole name is taken. -/
theorem www_foo_co_uk_whole :
    documentedLabels ["www".toList, "foo".toList, "co".toList, "uk".toList] =
      ["foo".toList, "co".toList, "uk".toList] ∧
    ∃ position names, extractDomain { lanData with query := "www.foo.co.uk".toList } =
      .found position names ∧ names.stringAt position = "www.foo.co.uk".toList := by
  refine ⟨by decide, ?_⟩
  have hscan := @extracts_scanned { lanData with query := "www.foo.co.uk".toList } (by decide)
    (by decide) (by decide)
  have hlabels : scannedLabels ("www.foo.co.uk".toList.splitOn '.') =
      some ["www".toList, "foo".toList, "co".toList, "uk".toList] := by decide
  dsimp only at hscan
  rw [hlabels] at hscan
  obtain ⟨position, names, hfound, hstring, -⟩ := hscan
  exact ⟨position, names, hfound, hstring⟩

/-- The labels at the end of a name, as a name. -/
def DottedName.suffix (name : DottedName) {labels : List Text} (h : labels <:+ name.labels) :
    DottedName where
  labels := labels
  ne_nil label hlabel := name.ne_nil label (h.subset hlabel)
  dot label hlabel := name.dot label (h.subset hlabel)
  nul label hlabel := name.nul label (h.subset hlabel)

section Stable

theorem DottedName.text_suffix (name : DottedName) {labels : List Text} (hne : labels ≠ [])
    (h : labels <:+ name.labels) :
    (name.suffix h).text = name.text ∨
      ∃ front, name.text = front ++ '.' :: (name.suffix h).text := by
  obtain ⟨front, hfront⟩ := id h
  have hsuffix : (name.suffix h).text = ['.'].intercalate labels := rfl
  rw [hsuffix, DottedName.text, ← hfront]
  by_cases hnil : front = []
  · left
    rw [hnil, List.nil_append]
  · right
    exact ⟨['.'].intercalate front, Splitting.intercalate_append hnil hne⟩

theorem DottedName.two_le_length_iff (name : DottedName) :
    2 ≤ name.labels.length ↔ '.' ∈ name.text := by
  unfold DottedName.text
  match hlabels : name.labels with
  | [] => simp
  | [label] => simpa using name.dot label (by simp [hlabels])
  | label :: next :: left => simp [List.intercalate_cons_cons]

/-- A name with two labels has at least three characters. -/
theorem DottedName.three_le_length (name : DottedName) (h : '.' ∈ name.text) :
    3 ≤ name.text.length := by
  have hlength := name.two_le_length_iff.mpr h
  unfold DottedName.text
  match hlabels : name.labels with
  | [] | [_] => simp [hlabels] at hlength
  | label :: next :: left =>
      have hlabel := List.length_pos_iff.mpr (name.ne_nil label (by simp [hlabels]))
      have hnext := List.length_pos_iff.mpr (name.ne_nil next (by simp [hlabels]))
      have hjoined : next.length ≤ (['.'].intercalate (next :: left)).length := by
        cases left with
        | nil => simp
        | cons _ _ => simp [List.intercalate_cons_cons]
      rw [List.intercalate_cons_cons]
      simp only [List.length_append, List.length_singleton]
      omega

theorem exists_scannedLabels {labels : List Text} (hne : ∀ label ∈ labels, label ≠ []) :
    ∃ kept, scannedLabels labels = some kept := by
  cases hlabels : labels.reverse with
  | nil =>
      rw [List.reverse_eq_nil_iff.mp hlabels]
      exact ⟨[], rfl⟩
  | cons tld left =>
      have htld : tld ≠ [] := hne tld (by rw [← List.mem_reverse, hlabels]; simp)
      obtain ⟨kept, hkept⟩ := exists_upToLong htld left
      refine ⟨(tld :: kept).reverse, ?_⟩
      rw [scannedLabels_of_reverse hlabels, hkept]
      rfl

end Stable

/-- Extraction returns the end of the name from its beginning or from behind a dot, with a dot
when the name has one, and extracting from what was returned returns it again. -/
theorem extractDomain_stable {data : PluginData} {name : DottedName}
    (hquery : data.query = name.text) (hmin : 3 ≤ name.text.length)
    (hmax : name.text.length ≤ 254) :
    ∃ position names domain, extractDomain data = .found position names ∧
      names.stringAt position = domain ∧
      (domain = name.text ∨ ∃ front, name.text = front ++ '.' :: domain) ∧
      ('.' ∈ name.text → '.' ∈ domain) ∧
      ∀ data' : PluginData, data'.query = domain → ∃ position' names',
        extractDomain data' = .found position' names' ∧ names'.stringAt position' = domain := by
  obtain ⟨kept, hkept⟩ := exists_scannedLabels name.ne_nil
  have hne : name.labels ≠ [] := name.labels_ne_nil (List.ne_nil_of_length_pos (by omega))
  have hsuffix := suffix_of_scannedLabels hkept
  have htext := name.text_suffix (scannedLabels_spec hne hkept).1 hsuffix
  have hdot : '.' ∈ name.text → '.' ∈ (name.suffix hsuffix).text := by
    intro h
    rw [← DottedName.two_le_length_iff] at h ⊢
    exact two_le_length_scannedLabels h hkept
  have hscan := extractDomain_name hquery hmin hmax
  rw [hkept] at hscan
  obtain ⟨position, names, hfound, hstring, -⟩ := hscan
  refine ⟨position, names, (name.suffix hsuffix).text, hfound, hstring, htext, hdot, ?_⟩
  intro data' hquery'
  have hshort : 3 ≤ (name.suffix hsuffix).text.length ∧
      (name.suffix hsuffix).text.length ≤ 254 := by
    obtain h | ⟨front, h⟩ := htext
    · rw [h]
      exact ⟨hmin, hmax⟩
    · have hlength := congrArg List.length h
      rw [List.length_append, List.length_cons] at hlength
      exact ⟨(name.suffix hsuffix).three_le_length (hdot (by simp [h])), by omega⟩
  have hagain := extractDomain_name hquery' hshort.1 hshort.2
  rw [show (name.suffix hsuffix).labels = kept from rfl, scannedLabels_idem hkept] at hagain
  obtain ⟨position', names', hfound', hstring', -⟩ := hagain
  exact ⟨position', names', hfound', hstring'⟩

theorem stable_www_example_org :
    3 ≤ "www.example.org".toList.length ∧ "www.example.org".toList.length ≤ 254 ∧
    ∃ position names domain, extractDomain { lanData with query := "www.example.org".toList } =
        .found position names ∧ names.stringAt position = domain ∧ '.' ∈ domain := by
  refine ⟨by decide, by decide, ?_⟩
  obtain ⟨position, names, domain, hfound, hstring, -, hdot, -⟩ :=
    @extractDomain_stable { lanData with query := "www.example.org".toList }
      ⟨["www".toList, "example".toList, "org".toList], by decide, by decide, by decide⟩
      (by decide) (by decide) (by decide)
  exact ⟨position, names, domain, hfound, hstring, hdot (by decide)⟩

end Dowse.DnsPlugin
