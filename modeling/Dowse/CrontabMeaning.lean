import Dowse.Crontab
import Mathlib.Data.List.Forall2

/-!
# What a crontab column says, and what it is compared with

The meaning of a column is given by the shape of its text alone, and a number in it has a
digit at least. For every text that `parsefield` accepts and that has all its numbers, a parsed
field goes on exactly on the values that the text admits; where a number is missing, the parser
has read a zero. The columns are then compared with the right calendar values, except the
month: the column counts from January = 1 and `tm_mon` from zero.
-/
namespace Dowse.Crontab
open CStrings Strtol

/-- The values that the text of a column admits in a field of length `len`, where `num` says
which texts are numbers. -/
inductive Admits (num : Text → ℤ → Prop) (len : ℤ) : Text → ℤ → Prop
  | any (v : ℤ) : Admits num len ['*'] v
  | number {s : Text} {n : ℤ} : num s n → Admits num len s n
  | range {s t : Text} {a b v : ℤ} : num s a → num t b → a ≤ v → v ≤ b →
      Admits num len (s ++ '-' :: t) v
  | list {ts : List Text} {ns : List ℤ} {v : ℤ} : List.Forall₂ num ts ns → 1 < ts.length →
      v ∈ ns → Admits num len ([','].intercalate ts) v
  | every {s : Text} {n v : ℤ} : num s n → n ∣ (if v = 0 then len else v) →
      Admits num len ('*' :: '/' :: s) v

/-- A column in which a number is missing: nothing stands in front of, behind or between the
commas, or a dash is the last character, or it is the first one and no digit follows. -/
def Missing (text : Text) : Prop :=
  [] ∈ text.splitOn ',' ∨ text.getLast? = some '-' ∨
    (text.head? = some '-' ∧ text.tail.takeWhile Char.isDigit = [])

instance (text : Text) : Decidable (Missing text) := inferInstanceAs (Decidable (_ ∨ _ ∨ _))

theorem withinLimits_eq_accept {low high : ℤ} {f g : Field}
    (h : withinLimits low high f = .accept g) : g = f := by
  unfold withinLimits at h
  split_ifs at h
  exact (Parsed.accept.inj h).symm

/-- Numbers that the conversion of the C library takes for what they are. -/
def Reading (num : Text → ℤ → Prop) : Prop := ∀ s n, num s n → strtol s = clamp n []

theorem spelled_reading : Reading Spelled := fun _ _ h => h.strtol_eq

theorem numeral_reading : Reading Numeral := by
  intro s n h
  by_cases hs : s = []
  · subst hs
    obtain rfl := h.unique numeral_nil
    rfl
  · exact (h.spelled hs).strtol_eq

theorem comma_mem_intercalate {ts : List Text} (h : 1 < ts.length) :
    ',' ∈ [','].intercalate ts := by
  match ts, h with
  | s :: t :: ts, _ =>
      rw [List.intercalate_cons_cons]
      simp

namespace Reading

variable {num : Text → ℤ → Prop} (hnum : Reading num) {s t : Text} {a b n v len : ℤ} {c : Char}
include hnum

theorem rest (h : num s n) : (strtol s).rest = [] := by rw [hnum s n h, clamp_rest]

theorem eq_of_numeral {m : ℤ} (h : num s n) (hm : Numeral s m) : n = m :=
  (clamp_value ((hnum s n h).symm.trans hm)).1

theorem values_eq {ts : List Text} {ms ns : List ℤ} (h : List.Forall₂ num ts ms)
    (hns : List.Forall₂ Numeral ts ns) : ms = ns := by
  induction h generalizing ns with
  | nil => exact (List.forall₂_nil_left_iff.mp hns).symm
  | cons hn _ ih =>
      cases hns with
      | cons hm hns => rw [hnum.eq_of_numeral hn hm, ih hns]

theorem not_mem (h : num s n) (hc : numeralChar c = false) : c ∉ s :=
  fun hmem => by simp [numeralChar_of_rest (hnum.rest h) c hmem] at hc

theorem not_mem_range (ha : num s a) (hb : num t b) (hc : numeralChar c = false) :
    c ∉ s ++ '-' :: t := by
  rw [List.mem_append, List.mem_cons]
  rintro (hmem | rfl | hmem)
  · exact hnum.not_mem ha hc hmem
  · exact absurd hc (by decide)
  · exact hnum.not_mem hb hc hmem

theorem not_mem_list {ts : List Text} {ns : List ℤ} (h : List.Forall₂ num ts ns)
    (hc : numeralChar c = false) (hne : c ≠ ',') : c ∉ [','].intercalate ts := by
  induction h with
  | nil => simp [List.intercalate]
  | @cons s n ts ns hs hts ih =>
      cases ts with
      | nil => simpa [List.intercalate] using hnum.not_mem hs hc
      | cons t ts =>
          rw [List.intercalate_cons_cons, List.mem_append, List.mem_append]
          rintro ((hmem | hmem) | hmem)
          · exact hnum.not_mem hs hc hmem
          · exact hne (List.mem_singleton.mp hmem)
          · exact ih hmem

/-- The items of a list are what its commas separate. -/
theorem splitOn_list {ts : List Text} {ns : List ℤ} (hns : List.Forall₂ num ts ns)
    (hlen : 1 < ts.length) : ([','].intercalate ts).splitOn ',' = ts := by
  refine List.splitOn_intercalate ',' ?_ (by rintro rfl; simp at hlen)
  intro t ht
  obtain ⟨i, hi, rfl⟩ := List.mem_iff_getElem.mp ht
  exact hnum.not_mem (hns.get hi (hns.length_eq ▸ hi)) (by decide)

/-- The first number of a range is what the conversion of the range uses up. -/
theorem strtol_range (ha : num s a) (hb : num t b) {m : ℤ} {rest : Text}
    (h : strtol (s ++ '-' :: t) = ⟨m, '-' :: rest, false⟩) : m = a ∧ rest = t := by
  by_cases hs : s = []
  · subst hs
    obtain ⟨rfl, hrest⟩ := strtol_minus_of_rest (hnum.rest hb) h (by simp)
    exact ⟨(hnum.eq_of_numeral ha numeral_nil).symm, (List.cons.inj hrest).2⟩
  · rw [strtol_append_of_rest (hnum.rest ha) hs rfl, hnum s a ha, ← clamp_eq_with] at h
    obtain ⟨rfl, hrest⟩ := clamp_value h
    exact ⟨rfl, (List.cons.inj hrest).2.symm⟩

theorem admits_number {text : Text} (hdigits : ∀ c ∈ text, c.isDigit) (hn : Numeral text n)
    (h : Admits num len text v) : v = n := by
  cases h with
  | any => exact absurd (hdigits '*' (by simp)) (by decide)
  | number hv => exact hnum.eq_of_numeral hv hn
  | range => exact absurd (hdigits '-' (by simp)) (by decide)
  | list _ hlen => exact absurd (hdigits ',' (comma_mem_intercalate hlen)) (by decide)
  | every => exact absurd (hdigits '*' (by simp)) (by decide)

theorem admits_range {text : Text} (hc : strtol text = ⟨a, '-' :: t, false⟩) (ht : Numeral t b)
    (h : Admits num len text v) : a ≤ v ∧ v ≤ b := by
  obtain ⟨s, hs, ha⟩ := numeral_of_strtol hc
  have hchar : ∀ c, numeralChar c = false → c ∉ text :=
    fun c hc => hs ▸ numeral_reading.not_mem_range ha ht hc
  cases h with
  | any => exact absurd (by simp) (hchar '*' (by decide))
  | number hv =>
      have hrest := hnum.rest hv
      rw [hc] at hrest
      cases hrest
  | range ha' hb' hle hge =>
      obtain ⟨rfl, rfl⟩ := hnum.strtol_range ha' hb' hc
      exact ⟨hle, hnum.eq_of_numeral hb' ht ▸ hge⟩
  | list _ hlen => exact absurd (comma_mem_intercalate hlen) (hchar ',' (by decide))
  | every => exact absurd (by simp) (hchar '*' (by decide))

theorem admits_list {ts : List Text} {ns : List ℤ} (hns : List.Forall₂ Numeral ts ns)
    (hlen : 1 < ts.length) (h : Admits num len ([','].intercalate ts) v) : v ∈ ns := by
  have hcomma := comma_mem_intercalate hlen
  generalize htext : [','].intercalate ts = text at h hcomma
  cases h with
  | any => simp at hcomma
  | number hv => exact absurd hcomma (hnum.not_mem hv (by decide))
  | range ha hb => exact absurd hcomma (hnum.not_mem_range ha hb (by decide))
  | list hms hus hv =>
      obtain rfl := (numeral_reading.splitOn_list hns hlen).symm.trans
        (htext ▸ hnum.splitOn_list hms hus)
      exact hnum.values_eq hms hns ▸ hv
  | every hn => exact absurd (by simpa using hcomma) (hnum.not_mem hn (by decide))

theorem admits_every (hn : Numeral s n) (h : Admits num len ('*' :: '/' :: s) v) :
    n ∣ (if v = 0 then len else v) := by
  generalize htext : '*' :: '/' :: s = text at h
  have hstar : '*' ∈ text := htext ▸ List.mem_cons_self
  cases h with
  | any => simp at htext
  | number hv => exact absurd hstar (hnum.not_mem hv (by decide))
  | range ha hb => exact absurd hstar (hnum.not_mem_range ha hb (by decide))
  | list hns => exact absurd hstar (hnum.not_mem_list hns (by decide) (by decide))
  | every hm hdvd =>
      simp only [List.cons.injEq, true_and] at htext
      subst htext
      exact hnum.eq_of_numeral hm hn ▸ hdvd

end Reading

section Complete

variable {s t text : Text} {n len v : ℤ}

/-- The last character is a digit, and a dash at the beginning is a sign. -/
structure Closed (text : Text) : Prop where
  last : ∃ c, text.getLast? = some c ∧ c.isDigit
  sign : text.head? = some '-' → ∃ c, text.tail.head? = some c ∧ c.isDigit

theorem last_cons (c : Char) (h : ∃ d, t.getLast? = some d ∧ d.isDigit) :
    ∃ d, (c :: t).getLast? = some d ∧ d.isDigit := by
  obtain ⟨d, ht, hd⟩ := h
  exact ⟨d, by rw [List.getLast?_cons, ht]; rfl, hd⟩

theorem spelled_closed (h : Spelled s n) : Closed s := by
  have hlast : ∀ {t : Text}, t ≠ [] → (∀ c ∈ t, c.isDigit) →
      ∃ c, t.getLast? = some c ∧ c.isDigit := fun hne ht =>
    ⟨_, List.getLast?_eq_some_getLast hne, ht _ (List.getLast_mem hne)⟩
  induction h with
  | digits hne hs =>
      refine ⟨hlast hne hs, fun hhead => ?_⟩
      exact absurd (hs '-' (List.mem_of_mem_head? hhead)) (by decide)
  | plus hne hs => exact ⟨last_cons '+' (hlast hne hs), fun hhead => by simp at hhead⟩
  | @minus s hne hs =>
      obtain ⟨c, s, rfl⟩ := List.exists_cons_of_ne_nil hne
      exact ⟨last_cons '-' (hlast hne hs), fun _ => ⟨c, rfl, hs c List.mem_cons_self⟩⟩
  | @blank c _ _ hc _ ih =>
      refine ⟨last_cons c ih.last, fun hhead => ?_⟩
      obtain rfl : c = '-' := by simpa using hhead
      exact absurd hc (by decide)

theorem Closed.append (h : Closed s) (ht : ∃ d, t.getLast? = some d ∧ d.isDigit) (c : Char) :
    Closed (s ++ c :: t) := by
  refine ⟨?_, fun hhead => ?_⟩
  · obtain ⟨d, hd, hdigit⟩ := last_cons c ht
    exact ⟨d, by rw [List.getLast?_append, hd]; rfl, hdigit⟩
  · match s, h with
    | [], h => exact absurd h.last (by simp)
    | [d], h =>
        obtain ⟨e, he, -⟩ := h.sign hhead
        cases he
    | d :: e :: s, h => exact h.sign hhead

theorem closed_list {ts : List Text} {ns : List ℤ} (h : List.Forall₂ Spelled ts ns)
    (hne : ts ≠ []) : Closed ([','].intercalate ts) := by
  induction h with
  | nil => exact absurd rfl hne
  | @cons s n ts ns hs _ ih =>
      cases ts with
      | nil => simpa [List.intercalate] using spelled_closed hs
      | cons t ts =>
          rw [List.intercalate_cons_cons, List.append_assoc]
          exact (spelled_closed hs).append (ih (by simp)).last ','

theorem not_missing_of_closed (h : Closed text) (hitems : [] ∉ text.splitOn ',') :
    ¬ Missing text := by
  rintro (hitem | hlast | ⟨hhead, htail⟩)
  · exact hitems hitem
  · obtain ⟨c, hc, hdigit⟩ := h.last
    obtain rfl := Option.some.inj (hlast.symm.trans hc)
    exact absurd hdigit (by decide)
  · obtain ⟨c, hc, hdigit⟩ := h.sign hhead
    obtain ⟨u, hu⟩ := List.head?_eq_some_iff.mp hc
    rw [hu, List.takeWhile_cons, if_pos hdigit] at htail
    cases htail

theorem not_missing_of_not_mem (h : Closed text) (hcomma : ',' ∉ text) : ¬ Missing text := by
  refine not_missing_of_closed h ?_
  rw [List.splitOn_eq_singleton hcomma, List.mem_singleton]
  rintro rfl
  exact absurd h.last (by simp)

/-- A column that admits a value has all its numbers. -/
theorem not_missing_of_admits (h : Admits Spelled len text v) : ¬ Missing text := by
  cases h with
  | any => decide
  | number hn =>
      exact not_missing_of_not_mem (spelled_closed hn) (spelled_reading.not_mem hn (by decide))
  | range ha hb =>
      exact not_missing_of_not_mem ((spelled_closed ha).append (spelled_closed hb).last '-')
        (spelled_reading.not_mem_range ha hb (by decide))
  | list hns hlen =>
      refine not_missing_of_closed (closed_list hns (by rintro rfl; simp at hlen)) ?_
      rw [spelled_reading.splitOn_list hns hlen]
      intro hmem
      obtain ⟨i, hi, heq⟩ := List.mem_iff_getElem.mp hmem
      exact (hns.get hi (hns.length_eq ▸ hi)).ne_nil heq
  | @every s n _ hn =>
      refine not_missing_of_not_mem ⟨last_cons '*' (last_cons '/' (spelled_closed hn).last), ?_⟩ ?_
      · simp
      · simpa using spelled_reading.not_mem hn (by decide)

end Complete

/-- The loop over a list ends well only behind a numeral for each comma. -/
theorem readList_spec {size fuel : ℕ} {e1 rest : Text} {errno : Bool} {vals vals' : List ℤ}
    (h : readList size fuel e1 errno vals = some (vals', rest, false)) (hrest : rest = []) :
    errno = false ∧ ∃ ts ns, e1 = (ts.map (',' :: ·)).flatten ∧
      List.Forall₂ Numeral ts ns ∧ vals' = vals ++ ns := by
  fun_induction readList size fuel e1 errno vals with
  | case1 fuel e1 vals hlt c ih =>
      obtain ⟨herr, ts, ns, hts, hns, hvals⟩ := ih h
      obtain ⟨t, ht, hn⟩ := numeral_used_up herr
      refine ⟨rfl, t :: ts, c.value :: ns, ?_, .cons hn hns, ?_⟩
      · rw [ht, hts]
        simp
      · simpa using hvals
  | case2 => simp at h
  | case3 =>
      simp only [Option.some.injEq, Prod.mk.injEq] at h
      exact ⟨h.2.2, [], [], by simp [h.2.1, hrest], .nil, by simp [h.1]⟩

theorem intercalate_comma (t : Text) (ts : List Text) :
    [','].intercalate (t :: ts) = t ++ (ts.map (',' :: ·)).flatten := by
  induction ts generalizing t with
  | nil => simp [List.intercalate]
  | cons u ts ih => simp [List.intercalate_cons_cons, ih]

theorem spelled_items {ts : List Text} {ns : List ℤ} (h : List.Forall₂ Numeral ts ns)
    (hne : [] ∉ ts) : List.Forall₂ Spelled ts ns := by
  induction h with
  | nil => exact .nil
  | cons hn _ ih =>
      simp only [List.mem_cons, not_or] at hne
      exact .cons (hn.spelled (Ne.symm hne.1)) (ih hne.2)

/-- The texts that are accepted, each with the field it is parsed to. -/
inductive Shape : Text → Field → Prop
  | wildcard : Shape ['*'] .wildcard
  | repeated {s : Text} {n : ℤ} : Numeral s n → n ≠ 0 → Shape ('*' :: '/' :: s) (.repeated n)
  | number {s : Text} {n : ℤ} : (∀ c ∈ s, c.isDigit) → Numeral s n → Shape s (.number n)
  | range {s t : Text} {a b : ℤ} : strtol s = ⟨a, '-' :: t, false⟩ → Numeral t b →
      Shape s (.range a b)
  | list {ts : List Text} {ns : List ℤ} : List.Forall₂ Numeral ts ns → 1 < ts.length →
      Shape ([','].intercalate ts) (.list ns)

theorem numeral_of_clean {s : Text} (hrest : (strtol s).rest = [])
    (herr : (strtol s).erange = false) : Numeral s (strtol s).value := by
  rw [Numeral, ← hrest, ← herr]

section Columns

variable {text : Text} {low high v len : ℤ} {f : Field}

/-- The list branch of the parser. -/
theorem shape_list {p : Text} {size fuel : ℕ} {vals : List ℤ}
    (hp : text.dropWhile Char.isDigit = ',' :: p)
    (h : readList size fuel (strtol text).rest (strtol text).erange [(strtol text).value] =
      some (vals, [], false)) : Shape text (.list vals) := by
  obtain ⟨herr, ts, ns, hts, hns, rfl⟩ := readList_spec h rfl
  obtain ⟨t, ht, hn⟩ := numeral_used_up herr
  have htext : text = [','].intercalate (t :: ts) := by rw [intercalate_comma, ← hts, ← ht]
  have hne : ts ≠ [] := by
    rintro rfl
    have hcomma : ',' ∈ text := by
      rw [← List.takeWhile_append_dropWhile (p := Char.isDigit) (l := text), hp]
      simp
    rw [ht, hts] at hcomma
    have hmem : ',' ∈ t := by simpa using hcomma
    exact numeral_reading.not_mem hn (by decide) hmem
  have hlen : 1 < (t :: ts).length := by
    have := List.length_pos_iff.mpr hne
    rw [List.length_cons]
    omega
  have hshape := Shape.list (.cons hn hns) hlen
  rwa [← htext] at hshape

theorem parsefield_shape (h : parsefield text low high = .accept f) : Shape text f := by
  simp only [parsefield] at h
  split at h
  · split_ifs at h with hstar hslash hbad
    · obtain rfl := Parsed.accept.inj h
      exact hstar ▸ .wildcard
    · obtain rfl := withinLimits_eq_accept h
      simp only [not_or, not_not, Bool.not_eq_true] at hbad
      rw [← List.take_append_drop 2 text, hslash]
      exact .repeated (numeral_of_clean hbad.1 hbad.2.1) hbad.2.2
  · rename_i hp
    split_ifs at h with hbad
    obtain rfl := withinLimits_eq_accept h
    simp only [not_or, not_not, Bool.not_eq_true] at hbad
    exact .number (List.dropWhile_eq_nil_iff.mp hp) (numeral_of_clean hbad.1 hbad.2)
  · split at h
    · rename_i t hrest herr
      split_ifs at h with hbad
      obtain rfl := withinLimits_eq_accept h
      simp only [not_or, not_not, Bool.not_eq_true] at hbad
      exact .range (by rw [← hrest, ← herr]) (numeral_of_clean hbad.1 hbad.2)
    · simp at h
  · rename_i p hp
    split_ifs at h with hlimit
    split at h
    · simp at h
    · rename_i vals e1 errno hread
      split_ifs at h with hbad
      obtain rfl := withinLimits_eq_accept h
      simp only [not_or, not_not, Bool.not_eq_true] at hbad
      rw [hbad.1, hbad.2] at hread
      exact shape_list hp hread
  · simp at h

theorem repeated_continues_iff (n : ℤ) (hv : 0 ≤ v) :
    (Field.repeated n).continues v len ↔ n ∣ (if v = 0 then len else v) := by
  simp only [Field.continues, Int.dvd_iff_tmod_eq_zero]
  by_cases h : v = 0
  · simp [h]
  · have : v > 0 := by omega
    simp [h, this]

theorem Reading.continues {num : Text → ℤ → Prop} (hnum : Reading num) (hshape : Shape text f)
    (hv : 0 ≤ v) (h : Admits num len text v) : f.continues v len := by
  cases hshape with
  | wildcard => rfl
  | repeated hn => exact (repeated_continues_iff _ hv).mpr (hnum.admits_every hn h)
  | number hdigits hn => simp [Field.continues, hnum.admits_number hdigits hn h]
  | range hs ht => simpa [Field.continues] using hnum.admits_range hs ht h
  | list hns hlen => simpa [Field.continues] using hnum.admits_list hns hlen h

/-- On a calendar value, a parsed field goes on exactly if the text admits the value, with zero
for every number that is missing. -/
theorem continues_iff_numeral (hshape : Shape text f) (hv : 0 ≤ v) :
    f.continues v len ↔ Admits Numeral len text v := by
  refine ⟨fun h => ?_, numeral_reading.continues hshape hv⟩
  cases hshape with
  | wildcard => exact .any v
  | repeated hn => exact .every hn ((repeated_continues_iff _ hv).mp h)
  | number hdigits hn =>
      simp only [Field.continues, decide_eq_true_eq] at h
      exact h ▸ .number hn
  | range hs ht =>
      obtain ⟨s, rfl, ha⟩ := numeral_of_strtol hs
      simp only [Field.continues, decide_eq_true_eq] at h
      exact .range ha ht h.1 h.2
  | list hns hlen =>
      simp only [Field.continues, decide_eq_true_eq] at h
      exact .list hns hlen h

/-- Both numbers of a range stand there, unless one is missing. -/
theorem spelled_range {a b : ℤ} {t : Text} (h : strtol text = ⟨a, '-' :: t, false⟩)
    (ht : Numeral t b) (hmissing : ¬ Missing text) :
    ∃ s, text = s ++ '-' :: t ∧ Spelled s a ∧ Spelled t b := by
  obtain ⟨s, hs, ha⟩ := numeral_of_strtol h
  refine ⟨s, hs, ha.spelled ?_, ht.spelled ?_⟩
  · rintro rfl
    refine hmissing (.inr (.inr ⟨by rw [hs]; rfl, ?_⟩))
    rw [hs] at h ⊢
    exact takeWhile_of_strtol_minus h
  · rintro rfl
    exact hmissing (.inr (.inl (by rw [hs, List.getLast?_append]; rfl)))

/-- In a column that has all its numbers the meaning of the text is what the parser reads. -/
theorem continues_iff_spelled (hshape : Shape text f) (hv : 0 ≤ v) (hmissing : ¬ Missing text) :
    f.continues v len ↔ Admits Spelled len text v := by
  refine ⟨fun h => ?_, spelled_reading.continues hshape hv⟩
  cases hshape with
  | wildcard => exact .any v
  | @repeated s n hn hzero =>
      refine .every (hn.spelled ?_) ((repeated_continues_iff _ hv).mp h)
      rintro rfl
      exact hzero (hn.unique numeral_nil)
  | number hdigits hn =>
      simp only [Field.continues, decide_eq_true_eq] at h
      refine h ▸ .number (hn.spelled ?_)
      rintro rfl
      exact hmissing (.inl (by decide))
  | range hs ht =>
      obtain ⟨s, rfl, ha, hb⟩ := spelled_range hs ht hmissing
      simp only [Field.continues, decide_eq_true_eq] at h
      exact .range ha hb h.1 h.2
  | @list ts ns hns hlen =>
      simp only [Field.continues, decide_eq_true_eq] at h
      refine .list (spelled_items hns fun hmem => hmissing (.inl ?_)) hlen h
      rwa [numeral_reading.splitOn_list hns hlen]

end Columns

/-- The texts of the six columns of a line. -/
structure Columns where
  sec : Text
  min : Text
  hour : Text
  mday : Text
  mon : Text
  wday : Text

/-- The entry that the columns are parsed to. -/
structure Accepted (c : Columns) (e : CtabEntry) : Prop where
  sec : parsefield c.sec 0 59 = .accept e.sec
  min : parsefield c.min 0 59 = .accept e.min
  hour : parsefield c.hour 0 23 = .accept e.hour
  mday : parsefield c.mday 1 31 = .accept e.mday
  mon : parsefield c.mon 1 12 = .accept e.mon
  wday : parsefield c.wday 0 6 = .accept e.wday

/-- The columns of a line are parsed with the limits in their order. -/
theorem parseColumns_accept {line : ℕ} {ls : List FieldLimits} {p rest : Option Text}
    {fs : List Field} (h : parseColumns line ls p = .entry (fs, rest)) :
    List.Forall₂ (fun l f => ∃ col, parsefield col l.min l.max = .accept f) ls fs := by
  induction ls generalizing p fs with
  | nil =>
      simp only [parseColumns, Line.entry.injEq, Prod.mk.injEq] at h
      exact h.1 ▸ .nil
  | cons l ls ih =>
      simp only [parseColumns] at h
      split at h
      · simp at h
      · rename_i col p' hcol
        split at h
        · simp at h
        · simp at h
        · rename_i f hf
          split at h
          · rename_i gs rest' hgs
            simp only [Line.entry.injEq, Prod.mk.injEq] at h
            obtain ⟨rfl, rfl⟩ := h
            exact .cons ⟨col, hf⟩ (ih hgs)
          · simp at h
          · simp at h

theorem parseLine_accepted {line : ℕ} {text : Text} {e : CtabEntry}
    (h : parseLine line text = .entry e) : ∃ c, Accepted c e := by
  simp only [parseLine] at h
  split at h
  · simp at h
  · simp at h
  · rename_i fields p hcols
    split at h
    · obtain rfl := Line.entry.inj h
      have hfields := parseColumns_accept hcols
      simp only [flim, List.forall₂_cons] at hfields
      obtain ⟨⟨sec, h₁⟩, ⟨min, h₂⟩, ⟨hour, h₃⟩, ⟨mday, h₄⟩, ⟨mon, h₅⟩, ⟨wday, h₆⟩, -⟩ := hfields
      exact ⟨⟨sec, min, hour, mday, mon, wday⟩, h₁, h₂, h₃, h₄, h₅, h₆⟩
    · simp at h

theorem readLines_accepted {y : ℕ} {lines : List Text} {entries table : List CtabEntry}
    (hold : ∀ e ∈ entries, ∃ c, Accepted c e) (h : readLines y lines entries = .entry table) :
    ∀ e ∈ table, ∃ c, Accepted c e := by
  fun_induction readLines y lines entries with
  | case1 => exact Line.entry.inj h ▸ hold
  | case2 _ _ _ ih => exact ih hold h
  | case3 _ _ _ _ ih => exact ih hold h
  | case4 _ _ _ _ ih => exact ih hold h
  | case5 _ _ _ _ e he _ _ _ ih =>
      rw [he] at h
      refine ih ?_ h
      intro f hf
      rcases List.mem_append.mp hf with hf | hf
      · exact hold f hf
      · exact List.mem_singleton.mp hf ▸ parseLine_accepted he
  | case6 _ _ _ _ _ he => simp [he] at h
  | case7 _ _ _ _ he => simp [he] at h

/-- Every entry of a loaded table is parsed from columns that the limits accept. -/
theorem loadentries_accepted {config : Config} {l : Loaded} (h : loadentries config = some l) :
    ∀ e ∈ l.entries, ∃ c, Accepted c e := by
  unfold loadentries at h
  split at h
  · obtain rfl := Option.some.inj h
    simp
  · split at h
    · rename_i hlines
      obtain rfl := Option.some.inj h
      exact readLines_accepted (by simp) hlines
    · obtain rfl := Option.some.inj h
      simp
    · simp at h

/-- The columns other than the month admit the time. -/
def OtherColumns (num : Text → ℤ → Prop) (c : Columns) (tm : Tm) : Prop :=
  Admits num 60 c.sec tm.sec ∧ Admits num 60 c.min tm.min ∧ Admits num 24 c.hour tm.hour ∧
    Admits num (daysinmon tm.mon tm.year) c.mday tm.mday ∧ Admits num 7 c.wday tm.wday

/-- The columns admit the time, with January = 1. -/
def Scheduled (c : Columns) (tm : Tm) : Prop :=
  OtherColumns Spelled c tm ∧ Admits Spelled 12 c.mon (tm.mon + 1)

/-- No column lacks a number. -/
def Columns.Complete (c : Columns) : Prop :=
  ∀ text ∈ [c.sec, c.min, c.hour, c.mday, c.mon, c.wday], ¬ Missing text

theorem matchentry_eq_one_iff_all (e : CtabEntry) (tm : Tm) : matchentry e tm = 1 ↔
    (matchtbl e tm).all fun row => row.1.continues row.2.1 row.2.2 := by
  unfold matchentry
  split_ifs with hif <;> simp [hif]

/-- An entry matches where its columns admit the values, with `tm_mon` for the month. -/
theorem matchentry_eq_one_iff {num : Text → ℤ → Prop} {c : Columns} {e : CtabEntry}
    (h : Accepted c e)
    (hnum : ∀ {text f v len}, text ∈ [c.sec, c.min, c.hour, c.mday, c.mon, c.wday] →
      Shape text f → 0 ≤ v → (f.continues v len ↔ Admits num len text v)) (tm : Tm) :
    matchentry e tm = 1 ↔ OtherColumns num c tm ∧ Admits num 12 c.mon tm.mon := by
  have hpos : ∀ n : ℕ, (0 : ℤ) ≤ n := fun n => Int.natCast_nonneg n
  rw [matchentry_eq_one_iff_all]
  simp only [matchtbl, List.all_cons, List.all_nil, Bool.and_true, Bool.and_eq_true, OtherColumns]
  rw [← hnum (by simp) (parsefield_shape h.sec) (hpos _),
    ← hnum (by simp) (parsefield_shape h.min) (hpos _),
    ← hnum (by simp) (parsefield_shape h.hour) (hpos _),
    ← hnum (by simp) (parsefield_shape h.mday) (hpos _),
    ← hnum (by simp) (parsefield_shape h.mon) (hpos _),
    ← hnum (by simp) (parsefield_shape h.wday) (hpos _)]
  tauto

theorem complete_of_scheduled {c : Columns} {tm : Tm} (h : Scheduled c tm) : c.Complete := by
  obtain ⟨⟨hsec, hmin, hhour, hmday, hwday⟩, hmon⟩ := h
  simp only [Columns.Complete, List.forall_mem_cons, List.not_mem_nil, false_implies, implies_true,
    and_true]
  exact ⟨not_missing_of_admits hsec, not_missing_of_admits hmin, not_missing_of_admits hhour,
    not_missing_of_admits hmday, not_missing_of_admits hmon, not_missing_of_admits hwday⟩

/-- An accepted entry matches exactly at its scheduled times if and only if, where all numbers
are there, another column rules the time out or the month column does not tell `tm_mon` from the
month; and, where one is missing, a column rules the time out also with zero in its place. -/
theorem matchentry_scheduled_iff {c : Columns} {e : CtabEntry} (h : Accepted c e) (tm : Tm) :
    (matchentry e tm = 1 ↔ Scheduled c tm) ↔
      (c.Complete → ¬ OtherColumns Spelled c tm ∨
        (Admits Spelled 12 c.mon tm.mon ↔ Admits Spelled 12 c.mon (tm.mon + 1))) ∧
      (¬ c.Complete → ¬ (OtherColumns Numeral c tm ∧ Admits Numeral 12 c.mon tm.mon)) := by
  by_cases hcomplete : c.Complete
  · rw [matchentry_eq_one_iff h fun hc hs hv => continues_iff_spelled hs hv (hcomplete _ hc),
      Scheduled]
    tauto
  · have hnot : ¬ Scheduled c tm := fun hs => hcomplete (complete_of_scheduled hs)
    rw [matchentry_eq_one_iff h fun _ hs hv => continues_iff_numeral hs hv]
    tauto

theorem matchentry_scheduled_every_month :
    Accepted ⟨['0'], ['0'], ['0'], ['1'], ['*'], ['*']⟩
      ⟨.number 0, .number 0, .number 0, .number 1, .wildcard, .wildcard, "date".toList⟩ ∧
    (matchentry ⟨.number 0, .number 0, .number 0, .number 1, .wildcard, .wildcard, "date".toList⟩
        newYear = 1 ↔
      Scheduled ⟨['0'], ['0'], ['0'], ['1'], ['*'], ['*']⟩ newYear) := by
  have h : Accepted ⟨['0'], ['0'], ['0'], ['1'], ['*'], ['*']⟩
      ⟨.number 0, .number 0, .number 0, .number 1, .wildcard, .wildcard, "date".toList⟩ := by
    constructor <;> decide
  have hcomplete : Columns.Complete ⟨['0'], ['0'], ['0'], ['1'], ['*'], ['*']⟩ := by
    unfold Columns.Complete
    decide
  exact ⟨h, (matchentry_scheduled_iff h newYear).mpr
    ⟨fun _ => Or.inr (iff_of_true (.any _) (.any _)), fun hnot => absurd hcomplete hnot⟩⟩

/-- A job for the first of January does not start then. -/
theorem matchentry_misses_january :
    Accepted ⟨['0'], ['0'], ['0'], ['1'], ['1'], ['*']⟩
      ⟨.number 0, .number 0, .number 0, .number 1, .number 1, .wildcard, "date".toList⟩ ∧
    Scheduled ⟨['0'], ['0'], ['0'], ['1'], ['1'], ['*']⟩ newYear ∧
    matchentry ⟨.number 0, .number 0, .number 0, .number 1, .number 1, .wildcard, "date".toList⟩
      newYear = 0 := by
  refine ⟨by constructor <;> decide, ⟨⟨?_, ?_, ?_, ?_, .any _⟩, ?_⟩, by decide⟩
  all_goals exact .number (Numeral.spelled (by decide) (by simp))

/-- An entry for the seconds one and two with an empty item between them also starts at zero. -/
example : Accepted ⟨"1,,2".toList, ['*'], ['*'], ['*'], ['*'], ['*']⟩
      ⟨.list [1, 0, 2], .wildcard, .wildcard, .wildcard, .wildcard, .wildcard, "date".toList⟩ ∧
    ¬ Scheduled ⟨"1,,2".toList, ['*'], ['*'], ['*'], ['*'], ['*']⟩ newYear ∧
    matchentry ⟨.list [1, 0, 2], .wildcard, .wildcard, .wildcard, .wildcard, .wildcard,
      "date".toList⟩ newYear = 1 := by
  refine ⟨by constructor <;> decide, fun h => ?_, by decide⟩
  exact complete_of_scheduled h "1,,2".toList List.mem_cons_self (by decide)

end Dowse.Crontab
