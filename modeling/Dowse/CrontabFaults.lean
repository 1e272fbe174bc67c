import Dowse.CrontabMemory

/-!
# Which columns make the parser misuse memory

There are two ways. A star that is not the whole text and does not start `*/` leaves the
pointer and the length of the field unset, and both are then used. And the array of a list is
counted over digits and commas, but filled by conversions that also take a sign or white space:
the count ends at such an item, the loop goes on behind it, and the comma that follows it
writes past the end.
-/
namespace Dowse.CrontabMemory
open CStrings Strtol Crontab

/-- A star behind digits, or in front of something else than a slash. -/
inductive StrayStar : Text → Prop
  | behind {d : Char} {digits rest : Text} : d.isDigit → (∀ c ∈ digits, c.isDigit) →
      StrayStar (d :: digits ++ '*' :: rest)
  | before {c : Char} {rest : Text} : c ≠ '/' → StrayStar ('*' :: c :: rest)

/-- Items of digits only, or of nothing, and then one that starts with a sign or with white
space and is followed by another comma. -/
inductive Overruns : Text → Prop
  | signed {c : Char} {t rest : Text} {n : ℤ} : c.isDigit = false → Numeral (c :: t) n →
      Overruns (',' :: (c :: t ++ ',' :: rest))
  | plain {t e : Text} {n : ℤ} : (∀ c ∈ t, c.isDigit) → Numeral t n → Overruns e →
      Overruns (',' :: (t ++ e))

/-- A list whose first number is within the limits, so that the others are read. -/
def Overrun (low high : ℤ) (text : Text) : Prop :=
  ∃ t e n, text = t ++ e ∧ (∀ c ∈ t, c.isDigit) ∧ Numeral t n ∧ low ≤ n ∧ n ≤ high ∧ Overruns e

/-- The commas that the array of a list is sized by. -/
def commas (e : Text) : ℕ := (e.takeWhile fun c => c.isDigit || c = ',').count ','

theorem commas_cons (e : Text) : commas (',' :: e) = 1 + commas e := by
  simp [commas, Nat.add_comm]

theorem commas_digits {t : Text} (ht : ∀ c ∈ t, c.isDigit) (e : Text) :
    commas (t ++ e) = commas e := by
  have hzero : t.count ',' = 0 :=
    List.count_eq_zero.mpr fun hmem => absurd (ht ',' hmem) (by decide)
  rw [commas, List.takeWhile_append_of_pos fun c hc => by simp [ht c hc], List.count_append,
    hzero, Nat.zero_add, commas]

theorem commas_signed {c : Char} {t : Text} {n : ℤ} (hc : c.isDigit = false)
    (hn : Numeral (c :: t) n) (e : Text) : commas (c :: t ++ e) = 0 := by
  have hne : c ≠ ',' := by
    rintro rfl
    exact numeral_reading.not_mem hn (c := ',') (by decide) List.mem_cons_self
  simp [commas, hc, hne]

section Loop
variable {size fuel : ℕ} {e1 : Text} {vals : List ℤ}

theorem readList_errno : readList size fuel e1 true vals = some (vals, e1, true) := by
  rw [readList]
  rintro _ _ _ _ ⟨⟩

theorem readList_step (hlt : vals.length < size) (e1 : Text) :
    readList size (fuel + 1) (',' :: e1) false vals =
      readList size fuel (strtol e1).rest (strtol e1).erange (vals ++ [(strtol e1).value]) := by
  rw [readList, if_pos hlt]

theorem readList_full (hge : size ≤ vals.length) (e1 : Text) :
    readList size (fuel + 1) (',' :: e1) false vals = none := by
  rw [readList, if_neg (Nat.not_lt.mpr hge)]

theorem readList_stop (h : e1.head? ≠ some ',') :
    readList size fuel e1 false vals = some (vals, e1, false) := by
  rw [readList]
  rintro _ e rfl rfl
  exact absurd rfl h

theorem Overruns.cons {e : Text} (h : Overruns e) : ∃ e', e = ',' :: e' := by
  cases h with
  | signed => exact ⟨_, rfl⟩
  | plain => exact ⟨_, rfl⟩

/-- The array has room for what is read while the items are plain, and for one more. -/
theorem Overruns.readList (h : Overruns e1) (hfuel : e1.length ≤ fuel)
    (hsize : size = vals.length + commas e1) : readList size fuel e1 false vals = none := by
  induction h generalizing fuel vals with
  | @signed c t rest n hc hn =>
      rw [commas_cons, commas_signed hc hn] at hsize
      obtain ⟨fuel, rfl⟩ : ∃ k, fuel = k + 2 := ⟨fuel - 2, by simp at hfuel; omega⟩
      rw [readList_step (by omega), hn.strtol_cons (by decide)]
      exact readList_full (by simp; omega) _
  | @plain t e n ht hn he ih =>
      obtain ⟨e, rfl⟩ := he.cons
      rw [commas_cons, commas_digits ht] at hsize
      obtain ⟨fuel, rfl⟩ : ∃ k, fuel = k + 1 := ⟨fuel - 1, by simp at hfuel; omega⟩
      rw [readList_step (by omega), hn.strtol_cons (by decide)]
      exact ih (by simp at hfuel ⊢; omega) (by simp; omega)

/-- Nothing else writes past the end. The induction is on the number of conversions. -/
theorem overruns_of_readList (h : readList size fuel e1 false vals = none)
    (hsize : size = vals.length + commas e1) : Overruns e1 := by
  induction fuel generalizing e1 vals with
  | zero => cases h
  | succ fuel ih =>
      by_cases hcomma : e1.head? = some ','
      · obtain ⟨e, rfl⟩ := List.head?_eq_some_iff.mp hcomma
        rw [commas_cons] at hsize
        rw [readList_step (by omega)] at h
        cases herr : (strtol e).erange with
        | true =>
            rw [herr, readList_errno] at h
            cases h
        | false =>
            rw [herr] at h
            obtain ⟨t, ht, hn⟩ := numeral_used_up herr
            rw [ht] at hsize ⊢
            by_cases hdigits : ∀ c ∈ t, c.isDigit
            · rw [commas_digits hdigits] at hsize
              exact .plain hdigits hn (ih h (by simp; omega))
            · -- the count ended at this item, so there is room for no other
              obtain ⟨c, t, rfl⟩ : ∃ c u, t = c :: u := by
                refine List.exists_cons_of_ne_nil ?_
                rintro rfl
                exact hdigits (by simp)
              have hc : c.isDigit = false := by
                rw [Bool.eq_false_iff]
                exact fun hc => hdigits (all_digits_of_rest hn.rest hc)
              by_cases hnext : (strtol e).rest.head? = some ','
              · obtain ⟨rest, hrest⟩ := List.head?_eq_some_iff.mp hnext
                rw [hrest]
                exact .signed hc hn
              · rw [readList_stop hnext] at h
                cases h
      · rw [readList_stop hcomma] at h
        cases h

end Loop

section Faults
variable {text : Text} {low high : ℤ}

theorem withinLimits_ne_fault (f : Field) : withinLimits low high f ≠ .fault := by
  unfold withinLimits
  split_ifs <;> simp

theorem strayStar_iff {rest : Text} (hp : text.dropWhile Char.isDigit = '*' :: rest) :
    StrayStar text ↔ text ≠ ['*'] ∧ text.take 2 ≠ ['*', '/'] := by
  constructor
  · intro h
    cases h with
    | @behind d digits rest hd _ =>
        have hne : d ≠ '*' := by
          rintro rfl
          exact absurd hd (by decide)
        exact ⟨by simp [hne], by cases digits <;> simp [hne]⟩
    | before hc => exact ⟨by simp, by simpa using hc⟩
  · rintro ⟨hne, htake⟩
    have hsplit := List.takeWhile_append_dropWhile (p := Char.isDigit) (l := text)
    rw [hp] at hsplit
    cases hdigits : text.takeWhile Char.isDigit with
    | cons d digits =>
        rw [hdigits] at hsplit
        have hall : ∀ c ∈ d :: digits, c.isDigit :=
          hdigits ▸ fun c hc => List.mem_takeWhile_imp hc
        rw [← hsplit]
        exact .behind (hall d List.mem_cons_self) fun c hc => hall c (List.mem_cons_of_mem _ hc)
    | nil =>
        rw [hdigits, List.nil_append] at hsplit
        subst hsplit
        cases rest with
        | nil => exact absurd rfl hne
        | cons c rest => exact .before (by rintro rfl; exact htake rfl)

theorem StrayStar.dropWhile (h : StrayStar text) :
    ∃ rest, text.dropWhile Char.isDigit = '*' :: rest := by
  cases h with
  | @behind d digits rest hd hdigits =>
      refine ⟨rest, ?_⟩
      rw [List.dropWhile_append_of_pos (by simpa using ⟨hd, hdigits⟩)]
      rfl
  | @before c rest => exact ⟨c :: rest, rfl⟩

/-- In front of a comma the digits are converted, and nothing else. -/
theorem strtol_first {t p : Text} (ht : ∀ c ∈ t, c.isDigit) :
    (strtol (t ++ ',' :: p)).rest = ',' :: p ∧ ((strtol (t ++ ',' :: p)).erange = false →
      Numeral t (strtol (t ++ ',' :: p)).value) := by
  by_cases hne : t = []
  · subst hne
    exact ⟨rfl, fun _ => numeral_nil⟩
  · rw [strtol_digits ht hne rfl]
    refine ⟨clamp_rest _ _, fun herr => ?_⟩
    have hclamp : clamp (decimal t) (',' :: p) = ⟨(clamp (decimal t) (',' :: p)).value,
      (clamp (decimal t) (',' :: p)).rest, (clamp (decimal t) (',' :: p)).erange⟩ := rfl
    rw [clamp_rest, herr] at hclamp
    have hself := strtol_digits ht hne (t := []) rfl
    rw [List.append_nil] at hself
    exact hself.trans (clamp_exact hclamp [])

theorem Overrun.dropWhile (h : Overrun low high text) :
    ∃ rest, text.dropWhile Char.isDigit = ',' :: rest := by
  obtain ⟨t, e, n, rfl, ht, -, -, -, he⟩ := h
  obtain ⟨e, rfl⟩ := he.cons
  refine ⟨e, ?_⟩
  rw [List.dropWhile_append_of_pos ht]
  rfl

theorem fault_star_iff {rest : Text} (hp : text.dropWhile Char.isDigit = '*' :: rest) :
    Crontab.parsefield text low high = .fault ↔ StrayStar text := by
  rw [strayStar_iff hp]
  simp only [Crontab.parsefield, hp]
  split_ifs with hstar hslash hbad
  · simp [hstar]
  · simp [hslash]
  · simp [hslash, withinLimits_ne_fault]
  · simp [hstar, hslash]

theorem fault_list_iff {p : Text} (hp : text.dropWhile Char.isDigit = ',' :: p) :
    Crontab.parsefield text low high = .fault ↔ Overrun low high text := by
  have hdigits : ∀ c ∈ text.takeWhile Char.isDigit, c.isDigit :=
    fun c hc => List.mem_takeWhile_imp hc
  have hsplit := List.takeWhile_append_dropWhile (p := Char.isDigit) (l := text)
  rw [hp] at hsplit
  obtain ⟨hrest, hnumeral⟩ := strtol_first hdigits (p := p)
  rw [hsplit] at hrest hnumeral
  have hlen : (',' :: p).length ≤ text.length := by
    rw [← hsplit, List.length_append]
    omega
  constructor
  · intro h
    simp only [Crontab.parsefield, hp] at h
    split_ifs at h with hlimit
    split at h
    · rename_i hread
      rw [hrest] at hread
      cases herr : (strtol text).erange with
      | true =>
          rw [herr, readList_errno] at hread
          cases hread
      | false =>
          rw [herr] at hread
          exact ⟨_, _, _, hsplit.symm, hdigits, hnumeral herr, by omega, by omega,
            overruns_of_readList hread (by rw [listLength, ← commas]; simp)⟩
    · split_ifs at h
      exact absurd h (withinLimits_ne_fault _)
  · rintro ⟨t, e, n, htext, ht, hn, hlow, hhigh, hover⟩
    obtain ⟨e, rfl⟩ := hover.cons
    have hp' : ',' :: e = ',' :: p := by
      rw [← hp, htext, List.dropWhile_append_of_pos ht]
      rfl
    have hstrtol := hn.strtol_cons (c := ',') (by decide) e
    rw [← htext] at hstrtol
    have hlimit : ¬ (n < low ∨ n > high) := by omega
    simp only [Crontab.parsefield, hp]
    rw [hstrtol, if_neg hlimit]
    rw [hp'] at hover ⊢
    rw [hover.readList hlen (by rw [listLength, ← commas]; simp)]

/-- The parser misuses memory on these texts and on no other. -/
theorem parsefield_fault_iff (text : Text) (low high : ℤ) :
    Crontab.parsefield text low high = .fault ↔ StrayStar text ∨ Overrun low high text := by
  by_cases hstar : ∃ rest, text.dropWhile Char.isDigit = '*' :: rest
  · obtain ⟨rest, hp⟩ := hstar
    have hnot : ¬ Overrun low high text := by
      intro h
      obtain ⟨_, hp'⟩ := h.dropWhile
      rw [hp] at hp'
      cases hp'
    rw [fault_star_iff hp, or_iff_left hnot]
  · have hnot : ¬ StrayStar text := fun h => hstar h.dropWhile
    rw [or_iff_right hnot]
    by_cases hcomma : ∃ p, text.dropWhile Char.isDigit = ',' :: p
    · obtain ⟨p, hp⟩ := hcomma
      exact fault_list_iff hp
    · refine iff_of_false (fun h => ?_) fun h => hcomma h.dropWhile
      simp only [Crontab.parsefield] at h
      split at h
      · rename_i hp
        exact hstar ⟨_, hp⟩
      · split_ifs at h
        exact withinLimits_ne_fault _ h
      · split at h
        · split_ifs at h
          exact withinLimits_ne_fault _ h
        · cases h
      · rename_i hp
        exact hcomma ⟨_, hp⟩
      · cases h

/-- Every access of a call is inside its array and to something the call has assigned, if and
only if the text is neither of the two kinds. -/
theorem parsefield_safe_iff (text : Text) (low high : ℤ) :
    (∀ junk type, ∃ r, (parsefield junk text low high).run (unset type) = .ok r) ↔
      ¬ StrayStar text ∧ ¬ Overrun low high text := by
  rw [← not_or, ← parsefield_fault_iff]
  constructor
  · intro h hfault
    have hagrees := parsefield_agrees (fun _ => 0) text low high .error
    rw [hfault] at hagrees
    obtain ⟨fault, hrun⟩ := hagrees
    obtain ⟨r, hok⟩ := h (fun _ => 0) .error
    rw [hrun] at hok
    cases hok
  · intro h junk type
    have hagrees := parsefield_agrees junk text low high type
    cases hparsed : Crontab.parsefield text low high with
    | accept f =>
        rw [hparsed] at hagrees
        exact ⟨_, hagrees⟩
    | reject =>
        rw [hparsed] at hagrees
        obtain ⟨mem, hrun⟩ := hagrees
        exact ⟨_, hrun⟩
    | fault => exact absurd hparsed h

/-- A star behind a digit: the length is read before anything is assigned. A list with a plus
sign in the middle: the array has two elements and a third is written. -/
theorem parsefield_misuses_memory :
    (parsefield (fun _ => 0) "1*".toList 0 59).run (unset .error) = .error .unassigned ∧
      (parsefield (fun _ => 0) "1,+2,3".toList 0 59).run (unset .error) = .error .outside :=
  ⟨rfl, rfl⟩

end Faults

end Dowse.CrontabMemory
