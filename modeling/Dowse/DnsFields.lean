import Dowse.DnsBuffers

/-!
# What an event says about the name

The domain, the TLD and the group of an event are to come from the query alone. The plugin data
is one structure for all packets, and `extract_domain` writes the array `tld` only when it meets
a dot. The event for a name without a dot, or with less than three characters, therefore has
the TLD of the last name with a dot.

A name that is longer than the array `domain` runs over into `tld`, before or after the last
label was copied there, and a label of 32 characters leaves `tld` without a terminator, so that
the address of the client in `from` is read as part of it. What is read in `tld` is settled here
for names of every length, and when it is the last label for two states of the plugin, then the
two events agree on all three fields.
-/
namespace Dowse.DnsPlugin
open CStrings Hashmap

section Region
variable {m m' : Names} {i : ℕ}

/-- Strings are equal that have the same characters up to a terminator. -/
theorem stringAt_congr_upTo {e : ℕ} (hi : i ≤ e) (he : e < namesEnd)
    (h : ∀ j, i ≤ j → j ≤ e → m j = m' j) (hnul : m e = '\x00') :
    m.stringAt i = m'.stringAt i := by
  have hsize : namesEnd - i = (e - i) + ((namesEnd - e - 1) + 1) := by omega
  have hbefore : (List.range' i (e - i)).map m = (List.range' i (e - i)).map m' := by
    refine List.map_congr_left fun j hj => ?_
    rw [List.mem_range'_1] at hj
    exact h j hj.1 (by omega)
  have hend : m' e = '\x00' := (h e hi (Nat.le_refl e)).symm.trans hnul
  have hcut : ∀ l rest : Text, cstr (l ++ '\x00' :: rest) = cstr l := by
    intro l rest
    unfold cstr
    rw [List.takeWhile_append]
    split_ifs with hall
    · rw [(List.takeWhile_prefix _).eq_of_length hall]
      simp
    · rfl
  unfold Names.stringAt
  rw [hsize, ← List.range'_append_1, Nat.add_sub_cancel' hi, List.range'_succ, List.map_append,
    List.map_append, List.map_cons, List.map_cons, hnul, hend, hcut, hcut, hbefore]

theorem stringAt_getElem? {n : ℕ} (hn : i + n < namesEnd) (h : ∀ k ≤ n, m (i + k) ≠ '\x00') :
    (m.stringAt i)[n]? = some (m (i + n)) := by
  have hsize : namesEnd - i = (n + 1) + (namesEnd - i - n - 1) := by omega
  have hplain : ∀ c ∈ (List.range' i (n + 1)).map m, decide (c ≠ '\x00') = true := by
    intro c hc
    obtain ⟨j, hj, rfl⟩ := List.mem_map.mp hc
    rw [List.mem_range'_1] at hj
    have hne := h (j - i) (by omega)
    rw [Nat.add_sub_cancel' hj.1] at hne
    exact decide_eq_true hne
  unfold Names.stringAt cstr
  rw [hsize, ← List.range'_append_1, List.map_append, List.takeWhile_append_of_pos hplain,
    List.getElem?_append_left (by simp)]
  simp

theorem stringAt_eq_nil_iff (hi : i < namesEnd) : m.stringAt i = [] ↔ m i = '\x00' := by
  constructor
  · intro h
    by_contra hne
    have hfirst := @stringAt_getElem? m i 0 hi fun k hk => by
      rw [Nat.le_zero.mp hk]
      exact hne
    rw [h] at hfirst
    cases hfirst
  · intro h
    refine stringAt_eq List.not_mem_nil (Nat.lt_of_le_of_lt (Nat.le_refl _) hi) fun k hk => ?_
    rw [Nat.le_zero.mp hk]
    exact h

end Region

structure Address (ip4 : Text) : Prop where
  dot : '.' ∈ ip4
  nul : '\x00' ∉ ip4
  length : ip4.length ≤ 15

theorem address_of_inetNtoa {addr : InAddr} {ip4 : Text} (h : inetNtoa addr = some ip4) :
    Address ip4 := by
  refine ⟨?_, (fieldable_inetNtoa h).nul, length_inetNtoa_le h⟩
  unfold inetNtoa at h
  cases h
  simp

def HasFrom (names : Names) : Prop :=
  ∃ ip4, Address ip4 ∧ ∀ k ≤ ip4.length, names (fromOffset + k) = ip4.getD k '\x00'

theorem hasFrom_write (names : Names) {ip4 : Text} (h : Address ip4) :
    HasFrom (names.write fromOffset ip4) := by
  refine ⟨ip4, h, fun k hk => ?_⟩
  rw [Names.write, Names.strncpy, if_pos ⟨by omega, by omega⟩, Nat.add_sub_cancel_left]

/-- What is read in `tld` after the extraction depends on the query alone. Of the names with a
dot behind the array `domain`, only those do whose domain begins behind the copied label. -/
def TldFresh (query : Text) (old : Names) : Prop :=
  if query.length < 3 then old.stringAt tldOffset = (topLevel query).getD []
  else
    match topLevel query with
    | none => query.length = 255 ∨ query.length = 256 ∨
        query.length < 255 ∧ old.stringAt tldOffset = []
    | some tld =>
        let dot := query.length - tld.length
        dot = 256 ∨ dot = 255 ∧ tld.length = 32 ∨
          tld.length < 32 ∧ (dot < 256 ∨ ∀ labels, scannedLabels (query.splitOn '.') = some labels →
            256 + tld.length < domainStart query labels)

section Tld
variable {old : Names} {query tld : Text} {position : ℕ}

theorem getD_ne_nul {s : Text} (hnul : '\x00' ∉ s) {k : ℕ} (hk : k < s.length) :
    s.getD k '\x00' ≠ '\x00' := by
  rw [List.getD_eq_getElem _ _ hk]
  exact fun h => hnul (h ▸ List.getElem_mem hk)

theorem getD_topLevel (h : topLevel query = some tld) (k : ℕ) :
    query.getD (query.length - tld.length + k) '\x00' = tld.getD k '\x00' := by
  obtain ⟨before, label, rfl, rfl, -⟩ := exists_of_topLevel h
  rw [List.length_append, Nat.add_sub_cancel, ← getD_drop, List.drop_left]

theorem length_topLevel_le (h : topLevel query = some tld) :
    0 < tld.length ∧ tld.length ≤ query.length := by
  obtain ⟨before, label, rfl, rfl, -⟩ := exists_of_topLevel h
  rw [List.length_append, List.length_cons]
  omega

/-- The last label has no dot but the one before it. -/
theorem ne_dot_of_topLevel (h : topLevel query = some tld) {n : ℕ} (hn : 0 < n) :
    tld[n]? ≠ some '.' := by
  obtain ⟨before, label, -, rfl, hdot⟩ := exists_of_topLevel h
  obtain ⟨n, rfl⟩ := Nat.exists_eq_succ_of_ne_zero (Nat.ne_of_gt hn)
  rw [List.getElem?_cons_succ]
  exact fun hmem => hdot (List.mem_of_getElem? hmem)

/-- A text that has a dot further on is not the last label. -/
theorem stringAt_ne_topLevel {names : Names} (h : topLevel query = some tld) {n : ℕ} (hn : 0 < n)
    (hend : tldOffset + n < namesEnd) (hplain : ∀ k ≤ n, names (tldOffset + k) ≠ '\x00')
    (hdot : names (tldOffset + n) = '.') : names.stringAt tldOffset ≠ tld := by
  intro heq
  have hat := stringAt_getElem? hend hplain
  rw [heq, hdot] at hat
  exact ne_dot_of_topLevel h hn hat

/-- The last label ends up in `tld`, and its terminator as well. -/
theorem stringAt_extracted (htop : topLevel query = some tld) (hnul : '\x00' ∉ query)
    (hlength : query.length ≤ 511)
    (h : query.length - tld.length = 256 ∨ query.length - tld.length = 255 ∧ tld.length = 32 ∨
      tld.length < 32 ∧ (query.length - tld.length < 256 ∨ 256 + tld.length < position)) :
    (old.extracted query position).stringAt tldOffset = tld := by
  have hle := length_topLevel_le htop
  have hchar := getD_topLevel htop
  have hoffset : tldOffset = 256 := rfl
  have hregion : fromOffset = 288 := rfl
  refine stringAt_eq (nul_notMem_topLevel hnul htop) ?_ fun k hk => ?_
  · have hend : namesEnd = 1313 := rfl
    omega
  rw [extracted_some old htop]
  split_ifs with hkept hcopied hlast hafter
  · rw [← hchar, show tldOffset + k = query.length - tld.length + k by omega]
  · rw [Nat.add_sub_cancel_left]
  · rw [← hchar, show tldOffset + k = query.length - tld.length + k by omega]
  · rw [List.getD_eq_default _ _ (by omega)]
  · omega

/-- The characters of `from` are those of the address where the name does not reach. -/
theorem stringAt_ne_of_from (htop : topLevel query = some tld) (hnul : '\x00' ∉ query)
    (hfrom : HasFrom old) (hlong : 32 ≤ tld.length)
    (hfree : ∀ ip4, Address ip4 → (∀ k ≤ ip4.length, old (fromOffset + k) = ip4.getD k '\x00') →
      ∀ k < ip4.length, old.extracted query position (fromOffset + k) = old (fromOffset + k))
    (htld : ∀ k < 32, old.extracted query position (tldOffset + k) = tld.getD k '\x00') :
    (old.extracted query position).stringAt tldOffset ≠ tld := by
  obtain ⟨ip4, hip, hold⟩ := hfrom
  obtain ⟨n, hn, hdot⟩ := List.getElem_of_mem hip.dot
  have hread : ∀ k < ip4.length, old.extracted query position (fromOffset + k) =
      ip4.getD k '\x00' := by
    intro k hk
    rw [hfree ip4 hip hold k hk, hold k (by omega)]
  have hoffset : ∀ k, tldOffset + (32 + k) = fromOffset + k := by
    intro k
    unfold fromOffset tldOffset maxTld
    omega
  have hshort := hip.length
  refine @stringAt_ne_topLevel _ _ _ htop (32 + n) (by omega) ?_ ?_ ?_
  · rw [hoffset]
    unfold fromOffset namesEnd niMaxhost
    omega
  · intro k hk
    by_cases hlow : k < 32
    · rw [htld k hlow]
      exact getD_ne_nul (nul_notMem_topLevel hnul htop) (by omega)
    · obtain ⟨k, rfl⟩ := Nat.exists_eq_add_of_le (Nat.le_of_not_lt hlow)
      rw [hoffset, hread k (by omega)]
      exact getD_ne_nul hip.nul (by omega)
  · rw [hoffset, hread n hn, List.getD_eq_getElem _ _ hn, hdot]

/-- In all other cases another text is read. Either the label runs on into the address, or the
dot before it is reached again in the copy of the name, or the name lacks its beginning. -/
theorem stringAt_extracted_ne (htop : topLevel query = some tld) (hnul : '\x00' ∉ query)
    (hlength : query.length ≤ 511) (hfrom : HasFrom old)
    (hposition : position ≤ query.length - tld.length)
    (h : ¬ (query.length - tld.length = 256 ∨
      query.length - tld.length = 255 ∧ tld.length = 32 ∨
      tld.length < 32 ∧ (query.length - tld.length < 256 ∨ 256 + tld.length < position))) :
    (old.extracted query position).stringAt tldOffset ≠ tld := by
  have hle := length_topLevel_le htop
  have hoffset : tldOffset = 256 := rfl
  have hregion : fromOffset = 288 := rfl
  have htld := nul_notMem_topLevel hnul htop
  obtain hlow | hhigh := Nat.lt_or_ge (query.length - tld.length) 256
  · have hcopied : ∀ k < 32, old.extracted query position (tldOffset + k) =
        tld.getD k '\x00' := by
      intro k hk
      rw [extracted_some old htop, if_neg (by omega), if_pos (by omega), Nat.add_sub_cancel_left]
    by_cases hover : 287 ≤ query.length
    · -- The name goes on behind the copied label, which is read without its middle part.
      have hread : (old.extracted query position).stringAt tldOffset =
          tld.take 32 ++ query.drop 288 := by
        have htake : (tld.take 32).length = 32 := by
          rw [List.length_take]
          omega
        refine stringAt_eq ?_ ?_ fun k hk => ?_
        · rw [List.mem_append, not_or]
          exact ⟨fun hmem => htld (List.mem_of_mem_take hmem),
            fun hmem => hnul (List.mem_of_mem_drop hmem)⟩
        · have hend : namesEnd = 1313 := rfl
          rw [List.length_append, htake, List.length_drop]
          omega
        · rw [List.length_append, htake, List.length_drop] at hk
          by_cases hfirst : k < 32
          · rw [hcopied k hfirst, List.getD_append _ _ _ _ (by omega),
              List.getD_eq_getElem?_getD, List.getD_eq_getElem?_getD, List.getElem?_take,
              if_pos hfirst]
          · rw [List.getD_append_right _ _ _ _ (by omega), htake, getD_drop,
              extracted_some old htop, if_neg (by omega), if_neg (by omega)]
            have hindex : 288 + (k - 32) = tldOffset + k := by omega
            rw [hindex]
            split_ifs with hlast hafter
            · rfl
            · rw [List.getD_eq_default _ _ (by omega)]
            · omega
      intro heq
      have hsame := congrArg List.length (hread.symm.trans heq)
      rw [List.length_append, List.length_take, List.length_drop] at hsame
      omega
    · refine stringAt_ne_of_from htop hnul hfrom (by omega) (fun ip4 hip _ k hk => ?_) hcopied
      rw [extracted_some old htop, if_neg (by omega), if_neg (by omega), if_neg (by omega),
        if_neg (by omega)]
  · by_cases hreach : ∀ j, 256 ≤ j → j ≤ query.length - tld.length →
        old.extracted query position j ≠ '\x00'
    · refine @stringAt_ne_topLevel _ _ _ htop (query.length - tld.length - 256) (by omega) ?_ ?_ ?_
      · have hend : namesEnd = 1313 := rfl
        omega
      · intro k hk
        exact hreach _ (by omega) (by omega)
      · have hdot := getD_topLevel htop 0
        obtain ⟨before, label, -, rfl, -⟩ := exists_of_topLevel htop
        rw [extracted_some old htop, if_pos (by omega)]
        rw [Nat.add_zero] at hdot
        rw [hoffset, Nat.add_sub_cancel' hhigh, hdot]
        rfl
    · -- A terminator before the dot stands below the domain, behind the address.
      push Not at hreach
      obtain ⟨j, hj, hjdot, hzero⟩ := hreach
      rw [extracted_some old htop] at hzero
      have hbelow : j < position := by
        by_contra hkept
        rw [if_pos (by omega)] at hzero
        exact getD_ne_nul hnul (by omega) hzero
      have hbehind : 288 ≤ j := by
        by_contra hinside
        rw [if_neg (by omega), if_pos (by omega)] at hzero
        exact getD_ne_nul htld (by omega) hzero
      rw [if_neg (by omega), if_neg (by omega), if_neg (by omega), if_neg (by omega)] at hzero
      refine stringAt_ne_of_from htop hnul hfrom (by omega) (fun ip4 hip hold k hk => ?_)
        fun k hk => ?_
      · have hpast : fromOffset + ip4.length ≤ j := by
          by_contra hshort
          have hchar := hold (j - fromOffset) (by omega)
          rw [Nat.add_sub_cancel' (by omega), hzero] at hchar
          exact getD_ne_nul hip.nul (by omega) hchar.symm
        rw [extracted_some old htop, if_neg (by omega), if_neg (by omega), if_neg (by omega),
          if_neg (by omega)]
      · rw [extracted_some old htop, if_neg (by omega), if_pos (by omega), Nat.add_sub_cancel_left]

theorem domainStart_le {labels : List Text} (htop : topLevel query = some tld)
    (h : scannedLabels (query.splitOn '.') = some labels) :
    domainStart query labels ≤ query.length - tld.length := by
  have hdrop := drop_domainStart h
  have htwo : 2 ≤ labels.length := by
    refine two_le_length_scannedLabels ?_ h
    unfold topLevel at htop
    split at htop
    · rename_i last next left hpieces
      rw [← List.length_reverse, hpieces]
      simp
    · cases htop
  have hmem : '.' ∈ ['.'].intercalate labels := by
    match labels, htwo with
    | first :: second :: rest, _ => simp [List.intercalate_cons_cons]
  obtain ⟨before, label, rfl, rfl, hdot⟩ := exists_of_topLevel htop
  by_contra hbehind
  rw [List.length_append, Nat.add_sub_cancel, Nat.not_le] at hbehind
  obtain ⟨k, hk⟩ := Nat.exists_eq_add_of_lt hbehind
  rw [← hdrop, hk, List.drop_append, Nat.add_assoc, Nat.add_sub_cancel_left, List.drop_succ_cons,
    List.drop_of_length_le (by omega)] at hmem
  exact hdot (List.mem_of_mem_drop hmem)

end Tld

section Extraction
variable {data data' : PluginData} {extracted extracted' : Option Text} {names names' : Names}

theorem extraction_of_short (hmin : data.query.length < 3) :
    extraction data = some (none, data.names) := extraction_of_null (if_pos hmin)

theorem exists_of_extraction (hnul : '\x00' ∉ data.query) (hmin : 3 ≤ data.query.length)
    (h : extraction data = some (extracted, names)) :
    ∃ labels, scannedLabels (data.query.splitOn '.') = some labels ∧
      names = data.names.extracted data.query (domainStart data.query labels) ∧
      extracted = some (names.stringAt (domainStart data.query labels)) := by
  have heq := extractDomain_eq hnul hmin
  unfold extraction at h
  cases hlabels : scannedLabels (data.query.splitOn '.') with
  | none =>
      rw [heq, hlabels] at h
      cases h
  | some labels =>
      rw [heq, hlabels] at h
      cases h
      exact ⟨labels, rfl, rfl, rfl⟩

/-- The TLD of an event is the last label of the name if and only if it is fresh. -/
theorem stringAt_tld_iff (hnul : '\x00' ∉ data.query) (hlength : data.query.length ≤ 511)
    (hfrom : HasFrom data.names) (h : extraction data = some (extracted, names)) :
    names.stringAt tldOffset = (topLevel data.query).getD [] ↔
      TldFresh data.query data.names := by
  unfold TldFresh
  by_cases hmin : data.query.length < 3
  · rw [extraction_of_short hmin] at h
    cases h
    rw [if_pos hmin]
  rw [if_neg hmin]
  obtain ⟨labels, hlabels, rfl, -⟩ := exists_of_extraction hnul (by omega) h
  cases htop : topLevel data.query with
  | none =>
      have hoffset : tldOffset = 256 := rfl
      have hend : tldOffset < namesEnd := by
        unfold tldOffset namesEnd maxTld
        omega
      dsimp only
      rw [Option.getD_none, stringAt_eq_nil_iff hend, stringAt_eq_nil_iff hend,
        extracted_none _ htop]
      split_ifs with hinside hnext
      · by_cases hequal : data.query.length = 256
        · rw [List.getD_eq_default _ _ (by omega)]
          exact iff_of_true rfl (.inr (.inl hequal))
        · exact iff_of_false (getD_ne_nul hnul (by omega)) (by omega)
      · exact iff_of_true rfl (by omega)
      · have hbelow : data.query.length < 255 := by omega
        constructor
        · exact fun hzero => .inr (.inr ⟨hbelow, hzero⟩)
        · rintro (hequal | hequal | ⟨-, hzero⟩)
          · omega
          · omega
          · exact hzero
  | some tld =>
      dsimp only
      rw [Option.getD_some]
      have hall : (∀ other, scannedLabels (data.query.splitOn '.') = some other →
          256 + tld.length < domainStart data.query other) ↔
            256 + tld.length < domainStart data.query labels := by
        rw [hlabels]
        simp
      rw [hall]
      constructor
      · intro heq
        by_contra hstale
        exact stringAt_extracted_ne htop hnul hlength hfrom (domainStart_le htop hlabels) hstale heq
      · exact stringAt_extracted htop hnul hlength

/-- With a fresh TLD, the domain is the same whatever the arrays held before. -/
theorem extracted_eq (hquery : data'.query = data.query) (hnul : '\x00' ∉ data.query)
    (hlength : data.query.length ≤ 511) (hfresh : TldFresh data.query data.names)
    (h : extraction data = some (extracted, names))
    (h' : extraction data' = some (extracted', names')) : extracted = extracted' := by
  by_cases hmin : data.query.length < 3
  · rw [extraction_of_short hmin] at h
    rw [extraction_of_short (hquery ▸ hmin)] at h'
    cases h
    cases h'
    rfl
  obtain ⟨labels, hlabels, rfl, rfl⟩ := exists_of_extraction hnul (by omega) h
  obtain ⟨labels', hlabels', rfl, rfl⟩ :=
    exists_of_extraction (hquery ▸ hnul) (by rw [hquery]; omega) h'
  rw [hquery] at hlabels' ⊢
  obtain rfl := Option.some.inj (hlabels.symm.trans hlabels')
  have hstart : domainStart data.query labels ≤ data.query.length := Nat.sub_le _ _
  have hend : namesEnd = 1313 := rfl
  have hoffset : tldOffset = 256 := rfl
  have hregion : fromOffset = 288 := rfl
  refine congrArg some ?_
  cases htop : topLevel data.query with
  | none =>
      refine @stringAt_congr_upTo _ _ _ data.query.length hstart (by omega) (fun j hj hle => ?_) ?_
      · rw [extracted_none _ htop, extracted_none _ htop, if_pos hle, if_pos hle]
      · rw [extracted_none _ htop, if_pos (Nat.le_refl _), List.getD_eq_default _ _ (Nat.le_refl _)]
  | some tld =>
      have hdot := domainStart_le htop hlabels
      have hle := length_topLevel_le htop
      unfold TldFresh at hfresh
      rw [if_neg hmin, htop] at hfresh
      dsimp only at hfresh
      -- The domain is terminated behind the query, or behind the copy of the last label when
      -- the end of the query was overwritten by it.
      by_cases hover : tldOffset ≤ data.query.length + 1 ∧ data.query.length + 1 < fromOffset ∧
          data.query.length - tld.length < 255
      · have hshort : tld.length < 32 := by omega
        refine @stringAt_congr_upTo _ _ _ (256 + tld.length) (by omega) (by omega)
          (fun j hj hle => ?_) ?_
        · rw [extracted_some _ htop, extracted_some _ htop]
          split_ifs
          · rfl
          · rfl
          · rfl
          · rfl
          · omega
        · rw [extracted_some _ htop, if_neg (by omega), if_pos (by omega),
            List.getD_eq_default _ _ (by omega)]
      · refine @stringAt_congr_upTo _ _ _ (data.query.length + 1) (by omega) (by omega)
          (fun j hj hle => ?_) ?_
        · rw [extracted_some _ htop, extracted_some _ htop]
          split_ifs
          · rfl
          · rfl
          · rfl
          · rfl
          · omega
        · rw [extracted_some _ htop, if_neg (by omega)]
          split_ifs
          · rw [List.getD_eq_default _ _ (by omega)]
          · omega
          · rfl
          · omega

end Extraction

end Dowse.DnsPlugin
