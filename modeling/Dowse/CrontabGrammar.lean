import Dowse.CrontabFaults

/-!
# The grammar of a column, and what the parser takes beyond it

A column is a star, a star with a step, a number, a range or a list, and every number in it is
written with digits, at least one. `parsefield` accepts all of that. It looks only at the first
character that is not a digit and leaves the numbers to `strtol`, so it also accepts a number
that is missing, which reads as zero, and one with a sign or white space in front.

`Loose` lists these texts. Of the items of a list only the last one can have a sign: in front of
another comma it would be a write past the array.
-/
namespace Dowse.CrontabMemory
open CStrings Strtol Crontab

/-- Digits, at least one. -/
def Plain (t : Text) : Prop := t ≠ [] ∧ ∀ c ∈ t, c.isDigit

/-- A decimal number with its value, inside the limits. -/
def Number (low high : ℤ) (t : Text) (n : ℤ) : Prop :=
  Plain t ∧ n = decimal t ∧ low ≤ n ∧ n ≤ high

/-- The grammar of a column, with the field that a text stands for. -/
inductive Grammar (low high : ℤ) : Text → Field → Prop
  | wildcard : Grammar low high ['*'] .wildcard
  | repeated {s : Text} {n : ℤ} : Number low high s n → n ≠ 0 →
      Grammar low high ('*' :: '/' :: s) (.repeated n)
  | number {s : Text} {n : ℤ} : Number low high s n → Grammar low high s (.number n)
  | range {s t : Text} {a b : ℤ} : Number low high s a → Number low high t b →
      Grammar low high (s ++ '-' :: t) (.range a b)
  | list {ts : List Text} {ns : List ℤ} : List.Forall₂ (Number low high) ts ns →
      1 < ts.length → Grammar low high ([','].intercalate ts) (.list ns)

/-- What `strtol` reads as a number inside the limits. -/
def Read (low high : ℤ) (t : Text) (n : ℤ) : Prop := Numeral t n ∧ low ≤ n ∧ n ≤ high

/-- What may stand before the dash of a range: digits, a negative number, or nothing if no digit
follows the dash. -/
inductive Lead : Text → Text → Prop
  | digits {s t : Text} : Plain s → Lead s t
  | negative {s t : Text} : Plain s → Lead ('-' :: s) t
  | nothing {t : Text} : t.takeWhile Char.isDigit = [] → Lead [] t

/-- The texts that are accepted although one of their numbers is missing, has a sign or has
white space in front. -/
inductive Loose (low high : ℤ) : Text → Prop
  | repeated {s : Text} {n : ℤ} : Read low high s n → n ≠ 0 → ¬ Plain s →
      Loose low high ('*' :: '/' :: s)
  | range {s t : Text} {a b : ℤ} : Lead s t → Read low high s a → Read low high t b →
      ¬ (Plain s ∧ Plain t) → Loose low high (s ++ '-' :: t)
  | list {ts : List Text} {ns : List ℤ} : List.Forall₂ (Read low high) ts ns → 1 < ts.length →
      (∀ t ∈ ts.dropLast, ∀ c ∈ t, c.isDigit) → (∃ t ∈ ts, ¬ Plain t) →
      Loose low high ([','].intercalate ts)

section Numbers
variable {low high : ℤ} {t : Text} {n : ℤ}

theorem Number.read (h : Number low high t n) (hhigh : high ≤ longMax) : Read low high t n := by
  obtain ⟨⟨-, hdigits⟩, rfl, hlow, hle⟩ := h
  exact ⟨(numeral_digits_iff hdigits _).mpr ⟨rfl, by omega⟩, hlow, hle⟩

theorem Read.number (h : Read low high t n) (hplain : Plain t) : Number low high t n :=
  ⟨hplain, ((numeral_digits_iff hplain.2 n).mp h.1).1, h.2⟩

theorem withinLimits_accept {f : Field} (h : ∀ v ∈ f.vals, low ≤ v ∧ v ≤ high) :
    withinLimits low high f = .accept f := by
  unfold withinLimits
  rw [if_pos (by simpa using h)]

end Numbers

section Accepted
variable {low high : ℤ}

theorem accept_repeated {s : Text} {n : ℤ} (h : Read low high s n) (hn : n ≠ 0) :
    Crontab.parsefield ('*' :: '/' :: s) low high = .accept (.repeated n) := by
  have hnumeral : strtol s = ⟨n, [], false⟩ := h.1
  have hp : ('*' :: '/' :: s).dropWhile Char.isDigit = '*' :: '/' :: s := rfl
  simp only [Crontab.parsefield, hp]
  rw [if_neg (by simp), if_pos (by simp)]
  simp only [List.drop_succ_cons, List.drop_zero, hnumeral]
  rw [if_neg (by simpa using hn)]
  exact withinLimits_accept (by simpa [Field.vals] using h.2)

theorem accept_number {s : Text} {n : ℤ} (hdigits : ∀ c ∈ s, c.isDigit) (h : Read low high s n) :
    Crontab.parsefield s low high = .accept (.number n) := by
  have hnumeral : strtol s = ⟨n, [], false⟩ := h.1
  simp only [Crontab.parsefield, List.dropWhile_eq_nil_iff.mpr hdigits, hnumeral]
  rw [if_neg (by simp)]
  exact withinLimits_accept (by simpa [Field.vals] using h.2)

theorem Lead.dropWhile {s t : Text} (h : Lead s t) :
    ∃ p, (s ++ '-' :: t).dropWhile Char.isDigit = '-' :: p := by
  cases h with
  | digits hs => exact ⟨t, by rw [List.dropWhile_append_of_pos hs.2]; rfl⟩
  | negative => exact ⟨_, rfl⟩
  | nothing => exact ⟨_, rfl⟩

theorem Lead.strtol {s t : Text} {a : ℤ} (h : Lead s t) (ha : Numeral s a) :
    strtol (s ++ '-' :: t) = ⟨a, '-' :: t, false⟩ := by
  cases h with
  | digits hs => exact ha.strtol_append hs.1 rfl
  | negative => exact ha.strtol_append (by simp) rfl
  | nothing ht =>
      have hdash : ('-' :: t).dropWhile isSpace = '-' :: t := rfl
      obtain rfl := ha.unique numeral_nil
      simp only [List.nil_append, Strtol.strtol, hdash, sign, ht, if_true]

theorem accept_range {s t : Text} {a b : ℤ} (h : Lead s t) (ha : Read low high s a)
    (hb : Read low high t b) :
    Crontab.parsefield (s ++ '-' :: t) low high = .accept (.range a b) := by
  obtain ⟨p, hp⟩ := h.dropWhile
  have hnumeral : strtol t = ⟨b, [], false⟩ := hb.1
  simp only [Crontab.parsefield, hp, h.strtol ha.1, hnumeral]
  rw [if_neg (by simp)]
  exact withinLimits_accept (by simpa [Field.vals] using ⟨ha.2, hb.2⟩)

/-- The loop reads to the end if no item but the last one cuts the count short. -/
theorem readList_items {ts : List Text} {ns : List ℤ} (h : List.Forall₂ Numeral ts ns)
    (hdigits : ∀ t ∈ ts.dropLast, ∀ c ∈ t, c.isDigit) {size fuel : ℕ} {vals : List ℤ}
    (hfuel : (ts.map (',' :: ·)).flatten.length ≤ fuel)
    (hsize : size = vals.length + commas (ts.map (',' :: ·)).flatten) :
    readList size fuel (ts.map (',' :: ·)).flatten false vals = some (vals ++ ns, [], false) := by
  induction h generalizing fuel vals with
  | nil => rw [List.map_nil, List.flatten_nil, readList_stop (by simp), List.append_nil]
  | @cons t n ts ns hn hns ih =>
      rw [List.map_cons, List.flatten_cons, List.cons_append] at hfuel hsize ⊢
      obtain ⟨fuel, rfl⟩ : ∃ k, fuel = k + 1 := ⟨fuel - 1, by simp at hfuel; omega⟩
      rw [commas_cons] at hsize
      rw [readList_step (by omega)]
      cases ts with
      | nil =>
          cases hns
          rw [List.map_nil, List.flatten_nil, List.append_nil, hn, readList_stop (by simp)]
      | cons u ts =>
          have ht : ∀ c ∈ t, c.isDigit := hdigits t (by simp)
          rw [commas_digits ht] at hsize
          rw [List.map_cons, List.flatten_cons, List.cons_append] at ih hfuel hsize ⊢
          rw [hn.strtol_cons (by decide), ih (fun v hv => hdigits v (by simp_all))
            (by simp at hfuel ⊢; omega) (by simp; omega)]
          simp

theorem inside_of_read {ts : List Text} {ns : List ℤ} (h : List.Forall₂ (Read low high) ts ns) :
    ∀ n ∈ ns, low ≤ n ∧ n ≤ high := by
  induction h with
  | nil => simp
  | cons hn _ ih => exact List.forall_mem_cons.mpr ⟨hn.2, ih⟩

theorem accept_list {ts : List Text} {ns : List ℤ} (h : List.Forall₂ (Read low high) ts ns)
    (hlen : 1 < ts.length) (hdigits : ∀ t ∈ ts.dropLast, ∀ c ∈ t, c.isDigit) :
    Crontab.parsefield ([','].intercalate ts) low high = .accept (.list ns) := by
  have hinside := inside_of_read h
  cases h with
  | nil => simp at hlen
  | @cons t n ts ns hn hns =>
      cases ts with
      | nil => simp at hlen
      | cons u ts =>
          have ht : ∀ c ∈ t, c.isDigit := hdigits t (by simp)
          have hitems : ((u :: ts).map (',' :: ·)).flatten =
              ',' :: (u ++ (ts.map (',' :: ·)).flatten) := rfl
          have hread := @readList_items _ _ (hns.imp fun _ _ h => h.1)
            (fun v hv => hdigits v (by simp_all))
          rw [intercalate_comma]
          rw [hitems] at hread ⊢
          generalize u ++ (ts.map (',' :: ·)).flatten = p at hread ⊢
          have hp : (t ++ ',' :: p).dropWhile Char.isDigit = ',' :: p := by
            rw [List.dropWhile_append_of_pos ht]
            rfl
          have hlimit : ¬ (n < low ∨ n > high) := by
            have := hn.2
            omega
          simp only [Crontab.parsefield, hp, hn.1.strtol_cons (c := ',') (by decide) p]
          rw [if_neg hlimit, hread (by simp) (by rw [listLength, ← commas]; rfl)]
          exact withinLimits_accept hinside

theorem plain_of_numbers {ts : List Text} {ns : List ℤ} (h : List.Forall₂ (Number low high) ts ns) :
    ∀ t ∈ ts, Plain t := by
  induction h with
  | nil => simp
  | cons hn _ ih => exact List.forall_mem_cons.mpr ⟨hn.1, ih⟩

/-- Every text of the grammar is accepted, as the field it stands for. -/
theorem Grammar.accept {text : Text} {f : Field} (h : Grammar low high text f)
    (hhigh : high ≤ longMax) : Crontab.parsefield text low high = .accept f := by
  cases h with
  | wildcard => rfl
  | repeated hn hzero => exact accept_repeated (hn.read hhigh) hzero
  | number hn => exact accept_number hn.1.2 (hn.read hhigh)
  | range ha hb => exact accept_range (.digits ha.1) (ha.read hhigh) (hb.read hhigh)
  | list hns hlen =>
      exact accept_list (hns.imp fun _ _ hn => hn.read hhigh) hlen
        fun t ht => (plain_of_numbers hns t (List.mem_of_mem_dropLast ht)).2

theorem Loose.accept {text : Text} (h : Loose low high text) :
    ∃ f, Crontab.parsefield text low high = .accept f := by
  cases h with
  | repeated hn hzero => exact ⟨_, accept_repeated hn hzero⟩
  | range hlead ha hb => exact ⟨_, accept_range hlead ha hb⟩
  | list hns hlen hdigits => exact ⟨_, accept_list hns hlen hdigits⟩

end Accepted

section Disjoint
variable {low high : ℤ} {text : Text} {f : Field}

theorem Plain.not_mem {t : Text} (h : Plain t) {c : Char} (hc : c.isDigit = false) : c ∉ t :=
  fun hmem => by simp [h.2 c hmem] at hc

/-- The numbers of a text with a comma are what the commas separate. -/
theorem Grammar.list_inv {ts : List Text} {ns : List ℤ} (h : Grammar low high text f)
    (hhigh : high ≤ longMax) (hns : List.Forall₂ Numeral ts ns) (hlen : 1 < ts.length)
    (htext : text = [','].intercalate ts) : ∀ t ∈ ts, Plain t := by
  have hcomma : ',' ∈ text := htext ▸ comma_mem_intercalate hlen
  cases h with
  | wildcard => simp at hcomma
  | repeated hn => exact absurd (by simpa using hcomma) (hn.1.not_mem (c := ',') (by decide))
  | number hn => exact absurd hcomma (hn.1.not_mem (by decide))
  | range ha hb =>
      rcases List.mem_append.mp hcomma with hmem | hmem
      · exact absurd hmem (ha.1.not_mem (by decide))
      · exact absurd (by simpa using hmem) (hb.1.not_mem (c := ',') (by decide))
  | @list us ms hms hus =>
      have hread : List.Forall₂ Numeral us ms := hms.imp fun _ _ hn => (hn.read hhigh).1
      obtain rfl := (numeral_reading.splitOn_list hread hus).symm.trans
        (htext ▸ numeral_reading.splitOn_list hns hlen)
      exact plain_of_numbers hms

theorem Grammar.range_inv {s t : Text} {a b : ℤ} (h : Grammar low high text f)
    (hlead : Lead s t) (ha : Numeral s a) (hb : Numeral t b) (htext : text = s ++ '-' :: t) :
    Plain s ∧ Plain t := by
  have hchar : ∀ c, numeralChar c = false → c ∉ text :=
    fun c hc => htext ▸ numeral_reading.not_mem_range ha hb hc
  have hdash : '-' ∈ text := htext ▸ by simp
  cases h with
  | wildcard => exact absurd (by simp) (hchar '*' (by decide))
  | repeated => exact absurd (by simp) (hchar '*' (by decide))
  | number hn => exact absurd hdash (hn.1.not_mem (by decide))
  | @range s' t' a' b' ha' hb' =>
      obtain ⟨c, u, rfl⟩ := List.exists_cons_of_ne_nil ha'.1.1
      have hc : c.isDigit := ha'.1.2 c List.mem_cons_self
      cases hlead with
      | digits hs =>
          have htake := congrArg (List.takeWhile Char.isDigit) htext
          rw [List.takeWhile_append_of_pos ha'.1.2, List.takeWhile_append_of_pos hs.2] at htake
          have hs' : c :: u = s := by simpa using htake
          subst hs'
          obtain rfl := (List.cons.inj (List.append_cancel_left htext)).2
          exact ⟨ha'.1, hb'.1⟩
      | negative =>
          obtain ⟨rfl, -⟩ := List.cons.inj htext
          exact absurd hc (by decide)
      | nothing =>
          obtain ⟨rfl, -⟩ := List.cons.inj htext
          exact absurd hc (by decide)
  | list hns hlen => exact absurd (comma_mem_intercalate hlen) (hchar ',' (by decide))

theorem Grammar.repeated_inv {s : Text} (h : Grammar low high text f) (hhigh : high ≤ longMax)
    (htext : text = '*' :: '/' :: s) : Plain s := by
  have hstar : '*' ∈ text := htext ▸ List.mem_cons_self
  cases h with
  | wildcard => cases htext
  | repeated hn =>
      cases htext
      exact hn.1
  | number hn => exact absurd hstar (hn.1.not_mem (by decide))
  | range ha hb =>
      exact absurd hstar
        (numeral_reading.not_mem_range (ha.read hhigh).1 (hb.read hhigh).1 (by decide))
  | list hns =>
      exact absurd hstar (numeral_reading.not_mem_list
        (hns.imp fun _ _ hn => (hn.read hhigh).1) (by decide) (by decide))

theorem Loose.not_grammar (h : Loose low high text) (hhigh : high ≤ longMax) :
    ¬ Grammar low high text f := by
  intro hg
  cases h with
  | repeated _ _ hplain => exact hplain (hg.repeated_inv hhigh rfl)
  | range hlead ha hb hplain => exact hplain (hg.range_inv hlead ha.1 hb.1 rfl)
  | list hns hlen _ hbad =>
      obtain ⟨t, ht, hplain⟩ := hbad
      exact hplain (hg.list_inv hhigh (hns.imp fun _ _ h => h.1) hlen rfl t ht)

end Disjoint

section Exact
variable {low high : ℤ} {text : Text} {f : Field}

/-- An accepted field is within the limits, and the first character that is not a digit chose
its kind. -/
theorem parsefield_accept_inv (h : Crontab.parsefield text low high = .accept f) :
    (∀ v ∈ f.vals, low ≤ v ∧ v ≤ high) ∧
      (∀ a b, f = .range a b → ∃ p, text.dropWhile Char.isDigit = '-' :: p) ∧
      ∀ vals, f = .list vals → ∃ p, text.dropWhile Char.isDigit = ',' :: p := by
  have hinside : ∀ {g : Field}, withinLimits low high g = .accept f →
      g = f ∧ ∀ v ∈ f.vals, low ≤ v ∧ v ≤ high := by
    intro g hg
    obtain rfl := withinLimits_eq_accept hg
    refine ⟨rfl, ?_⟩
    unfold withinLimits at hg
    split_ifs at hg with hall
    simpa using hall
  simp only [Crontab.parsefield] at h
  split at h
  · split_ifs at h
    · obtain rfl := Parsed.accept.inj h
      exact ⟨by simp [Field.vals], by simp, by simp⟩
    · obtain ⟨rfl, hv⟩ := hinside h
      exact ⟨hv, by simp, by simp⟩
  · split_ifs at h
    obtain ⟨rfl, hv⟩ := hinside h
    exact ⟨hv, by simp, by simp⟩
  · rename_i hp
    split at h
    · split_ifs at h
      obtain ⟨rfl, hv⟩ := hinside h
      exact ⟨hv, fun _ _ _ => ⟨_, hp⟩, by simp⟩
    · cases h
  · rename_i hp
    split_ifs at h
    split at h
    · cases h
    · split_ifs at h
      obtain ⟨rfl, hv⟩ := hinside h
      exact ⟨hv, by simp, fun _ _ => ⟨_, hp⟩⟩
  · cases h

/-- What stands in front of the dash where the first conversion stops. -/
theorem lead_of_strtol {p t : Text} {a : ℤ} (hp : text.dropWhile Char.isDigit = '-' :: p)
    (h : strtol text = ⟨a, '-' :: t, false⟩) :
    ∃ s, text = s ++ '-' :: t ∧ Numeral s a ∧ Lead s t := by
  obtain ⟨s, hs, ha⟩ := numeral_of_strtol h
  refine ⟨s, hs, ha, ?_⟩
  cases s with
  | nil =>
      -- with a digit behind it the dash is the sign of a number
      rw [hs, List.nil_append] at h
      exact .nothing (takeWhile_of_strtol_minus h)
  | cons c s =>
      by_cases hc : c.isDigit
      · exact .digits ⟨by simp, all_digits_of_rest ha.rest hc⟩
      · rw [hs, List.cons_append, List.dropWhile_cons, if_neg hc] at hp
        obtain ⟨rfl, -⟩ := List.cons.inj hp
        exact .negative (digits_of_rest ha.rest (by simp))

/-- Items that are read one after the other run over the array, unless all but the last one
are digits. -/
theorem overruns_of_items {ts : List Text} {ns : List ℤ} (h : List.Forall₂ Numeral ts ns) :
    (∀ t ∈ ts.dropLast, ∀ c ∈ t, c.isDigit) ∨ Overruns (ts.map (',' :: ·)).flatten := by
  induction h with
  | nil => simp
  | @cons t n ts ns hn hns ih =>
      cases ts with
      | nil => simp
      | cons u ts =>
          by_cases hdigits : ∀ c ∈ t, c.isDigit
          · refine ih.imp (fun h => ?_) fun h => .plain hdigits hn h
            rw [List.dropLast_cons_cons]
            exact List.forall_mem_cons.mpr ⟨hdigits, h⟩
          · refine .inr ?_
            cases t with
            | nil => simp at hdigits
            | cons c t =>
                have hc : c.isDigit = false := by
                  rw [Bool.eq_false_iff]
                  exact fun hc => hdigits (all_digits_of_rest hn.rest hc)
                exact .signed hc hn

/-- In an accepted list only the last item can have a sign or white space. -/
theorem digits_of_accept {ts : List Text} {ns : List ℤ} (hns : List.Forall₂ (Read low high) ts ns)
    (hlen : 1 < ts.length) {p : Text}
    (hp : ([','].intercalate ts).dropWhile Char.isDigit = ',' :: p)
    (h : Crontab.parsefield ([','].intercalate ts) low high ≠ .fault) :
    ∀ t ∈ ts.dropLast, ∀ c ∈ t, c.isDigit := by
  have hover : ¬ Overrun low high ([','].intercalate ts) :=
    fun hover => h ((parsefield_fault_iff _ _ _).mpr (.inr hover))
  cases hns with
  | nil => simp
  | @cons t n ts ns hn hns =>
      rw [intercalate_comma] at hp hover
      -- the first character that is not a digit is a comma, which no number has
      have ht : ∀ c ∈ t, c.isDigit := by
        by_contra hnot
        have hne : t.dropWhile Char.isDigit ≠ [] := fun hnil =>
          hnot (List.dropWhile_eq_nil_iff.mp hnil)
        rw [List.dropWhile_append, if_neg (by simpa using hne)] at hp
        obtain ⟨c, u, hu⟩ := List.exists_cons_of_ne_nil hne
        rw [hu, List.cons_append] at hp
        obtain ⟨rfl, -⟩ := List.cons.inj hp
        have hmem : ',' ∈ t := (List.dropWhile_sublist _).subset (hu ▸ List.mem_cons_self)
        exact numeral_reading.not_mem hn.1 (by decide) hmem
      cases ts with
      | nil => simp
      | cons u ts =>
          rcases overruns_of_items (hns.imp fun _ _ h => h.1) with hdigits | hruns
          · rw [List.dropLast_cons_cons]
            exact List.forall_mem_cons.mpr ⟨ht, hdigits⟩
          · exact absurd ⟨t, _, n, rfl, ht, hn.1, hn.2.1, hn.2.2, hruns⟩ hover

theorem read_of_inside {ts : List Text} {ns : List ℤ} (h : List.Forall₂ Numeral ts ns)
    (hinside : ∀ n ∈ ns, low ≤ n ∧ n ≤ high) : List.Forall₂ (Read low high) ts ns := by
  induction h with
  | nil => exact .nil
  | cons hn _ ih =>
      obtain ⟨hhead, htail⟩ := List.forall_mem_cons.mp hinside
      exact .cons ⟨hn, hhead⟩ (ih htail)

theorem numbers_of_plain {ts : List Text} {ns : List ℤ} (h : List.Forall₂ (Read low high) ts ns)
    (hplain : ∀ t ∈ ts, Plain t) : List.Forall₂ (Number low high) ts ns := by
  induction h with
  | nil => exact .nil
  | cons hn _ ih =>
      obtain ⟨hhead, htail⟩ := List.forall_mem_cons.mp hplain
      exact .cons (hn.number hhead) (ih htail)

/-- Nothing is accepted but the grammar and the loose texts. -/
theorem grammar_or_loose (h : Crontab.parsefield text low high = .accept f) (hne : text ≠ []) :
    Grammar low high text f ∨ Loose low high text := by
  obtain ⟨hinside, hdash, hcomma⟩ := parsefield_accept_inv h
  have hsafe : Crontab.parsefield text low high ≠ .fault := by simp [h]
  cases parsefield_shape h with
  | wildcard => exact .inl .wildcard
  | @repeated s n hn hzero =>
      have hread : Read low high s n := ⟨hn, hinside n (by simp [Field.vals])⟩
      by_cases hplain : Plain s
      · exact .inl (.repeated (hread.number hplain) hzero)
      · exact .inr (.repeated hread hzero hplain)
  | @number s n hdigits hn =>
      have hread : Read low high text n := ⟨hn, hinside n (by simp [Field.vals])⟩
      exact .inl (.number (hread.number ⟨hne, hdigits⟩))
  | @range s t a b hs hb =>
      obtain ⟨p, hp⟩ := hdash a b rfl
      obtain ⟨s, rfl, ha, hlead⟩ := lead_of_strtol hp hs
      have hreada : Read low high s a := ⟨ha, hinside a (by simp [Field.vals])⟩
      have hreadb : Read low high t b := ⟨hb, hinside b (by simp [Field.vals])⟩
      by_cases hplain : Plain s ∧ Plain t
      · exact .inl (.range (hreada.number hplain.1) (hreadb.number hplain.2))
      · exact .inr (.range hlead hreada hreadb hplain)
  | @list ts ns hns hlen =>
      obtain ⟨p, hp⟩ := hcomma ns rfl
      have hread := read_of_inside hns hinside
      by_cases hplain : ∀ t ∈ ts, Plain t
      · exact .inl (.list (numbers_of_plain hread hplain) hlen)
      · push Not at hplain
        exact .inr (.list hread hlen (digits_of_accept hread hlen hp hsafe) hplain)

end Exact

/-- The call returns zero on the texts of the grammar, with the field of the text in memory, and
minus one on all others. -/
def FollowsGrammar (low high : ℤ) (text : Text) : Prop :=
  ∀ junk type, ∃ r mem, (parsefield junk text low high).run (unset type) = .ok (r, mem) ∧
    ((r = 0 ∧ ∃ f, Grammar low high text f ∧ mem = image f) ∨
      (r = -1 ∧ ∀ f, ¬ Grammar low high text f))

/-- The parser follows the grammar on a text that is not empty, exactly if the text does not
make it misuse memory and is not accepted loosely. -/
theorem parsefield_grammar_iff {text : Text} {low high : ℤ} (hne : text ≠ [])
    (hhigh : high ≤ longMax) : FollowsGrammar low high text ↔
      ¬ StrayStar text ∧ ¬ Overrun low high text ∧ ¬ Loose low high text := by
  have hfault := parsefield_fault_iff text low high
  have hagrees := fun junk type => parsefield_agrees junk text low high type
  cases hparsed : Crontab.parsefield text low high with
  | accept f =>
      rw [hparsed] at hfault hagrees
      have hsafe : ¬ (StrayStar text ∨ Overrun low high text) := fun h => nomatch hfault.mpr h
      rw [not_or] at hsafe
      constructor
      · intro h
        refine ⟨hsafe.1, hsafe.2, fun hloose => ?_⟩
        obtain ⟨r, mem, hrun, ⟨-, g, hg, -⟩ | ⟨rfl, -⟩⟩ := h (fun _ => 0) .error
        · exact hloose.not_grammar hhigh hg
        · cases (hagrees _ _).symm.trans hrun
      · rintro ⟨-, -, hloose⟩ junk type
        have hg := (grammar_or_loose hparsed hne).resolve_right hloose
        exact ⟨0, image f, hagrees junk type, .inl ⟨rfl, f, hg, rfl⟩⟩
  | reject =>
      rw [hparsed] at hfault hagrees
      have hsafe : ¬ (StrayStar text ∨ Overrun low high text) := fun h => nomatch hfault.mpr h
      rw [not_or] at hsafe
      refine iff_of_true (fun junk type => ?_) ⟨hsafe.1, hsafe.2, fun hloose => ?_⟩
      · obtain ⟨mem, hrun⟩ := hagrees junk type
        refine ⟨-1, mem, hrun, .inr ⟨rfl, fun g hg => ?_⟩⟩
        cases hparsed.symm.trans (hg.accept hhigh)
      · obtain ⟨g, hg⟩ := hloose.accept
        cases hparsed.symm.trans hg
  | fault =>
      rw [hparsed] at hfault hagrees
      refine iff_of_false (fun h => ?_) fun ⟨hstar, hover, _⟩ => (hfault.mp rfl).elim hstar hover
      obtain ⟨fault, hrun⟩ := hagrees (fun _ => 0) .error
      obtain ⟨r, mem, hok, -⟩ := h (fun _ => 0) .error
      cases hrun.symm.trans hok

theorem grammar_one_two : Grammar 0 59 "1,2".toList (.list [1, 2]) := by
  have hone : Number 0 59 ['1'] 1 :=
    ⟨⟨by simp, List.forall_mem_singleton.mpr rfl⟩, rfl, by omega, by omega⟩
  have htwo : Number 0 59 ['2'] 2 :=
    ⟨⟨by simp, List.forall_mem_singleton.mpr rfl⟩, rfl, by omega, by omega⟩
  exact @Grammar.list _ _ [['1'], ['2']] _ (.cons hone (.cons htwo .nil)) (by decide)

/-- A list of two numbers. -/
theorem parsefield_grammar_iff_list : FollowsGrammar 0 59 "1,2".toList := by
  have hfault : Crontab.parsefield "1,2".toList 0 59 ≠ .fault := by decide
  rw [ne_eq, parsefield_fault_iff, not_or] at hfault
  exact (parsefield_grammar_iff (by simp) (by decide)).mpr
    ⟨hfault.1, hfault.2, fun h => h.not_grammar (by decide) grammar_one_two⟩

/-- The empty item of a list is accepted and stored as a zero. -/
theorem parsefield_accepts_empty_item :
    (∀ junk type, (parsefield junk "1,,2".toList 0 59).run (unset type) =
      .ok (0, ⟨.list, some [1, 0, 2], some 3⟩)) ∧ ∀ f, ¬ Grammar 0 59 "1,,2".toList f := by
  have hloose : Loose 0 59 "1,,2".toList := by
    refine @Loose.list _ _ [['1'], [], ['2']] [1, 0, 2] ?_ (by decide) (by simp) ?_
    · exact .cons ⟨by decide, by decide⟩ (.cons ⟨by decide, by decide⟩
        (.cons ⟨by decide, by decide⟩ .nil))
    · exact ⟨[], by simp, by simp [Plain]⟩
  have haccept : Crontab.parsefield "1,,2".toList 0 59 = .accept (.list [1, 0, 2]) := by decide
  refine ⟨fun junk type => ?_, fun f => hloose.not_grammar (by decide)⟩
  have hagrees := parsefield_agrees junk "1,,2".toList 0 59 type
  rw [haccept] at hagrees
  exact hagrees

end Dowse.CrontabMemory
