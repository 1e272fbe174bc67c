import Dowse.CStrings

/-!
# Command formats of hiredis

A command is given to hiredis as a format. Spaces separate the arguments, two percent
signs stand for one, and any other percent sign that is not the last character starts a
conversion. The formats here come without further parameters, so that a conversion reads
one that was not passed. What is sent then is not defined, and the model has no arguments for it.

A text that was put together from words and then cut to a buffer is read back as these
words only when nothing was cut and no percent sign has been interpreted. The argument is
a count of characters: the arguments never have more than the format has outside
its spaces, and have less when a percent sign is consumed.
-/
namespace Dowse.RedisFormat
open CStrings

/-- The argument that is complete when a space or the end is reached. -/
def closed (argument : Text) : List Text := if argument = [] then [] else [argument]

/-- The loop over the format, with the argument that has been read so far. -/
def formatLoop (argument : Text) : Text → Option (List Text)
  | [] => some (closed argument)
  | c :: rest =>
      if c = ' ' then (formatLoop [] rest).map (closed argument ++ ·)
      else if c = '%' then
        match rest with
        | [] => formatLoop (argument ++ [c]) []
        | '%' :: rest' => formatLoop (argument ++ [c]) rest'
        | _ => none
      else formatLoop (argument ++ [c]) rest

/-- The arguments of a command that is given without parameters, `none` if it has a conversion. -/
def format (text : Text) : Option (List Text) := formatLoop [] text

@[simp] theorem formatLoop_nil (argument : Text) :
    formatLoop argument [] = some (closed argument) := rfl

theorem formatLoop_space (argument rest : Text) :
    formatLoop argument (' ' :: rest) = (formatLoop [] rest).map (closed argument ++ ·) := by
  rw [formatLoop.eq_def]
  simp only [if_true]

theorem formatLoop_cons {c : Char} (hspace : c ≠ ' ') (hpercent : c ≠ '%')
    (argument rest : Text) :
    formatLoop argument (c :: rest) = formatLoop (argument ++ [c]) rest := by
  rw [formatLoop.eq_def]
  simp only [hspace, hpercent, if_false]

theorem formatLoop_singleton {c : Char} (hspace : c ≠ ' ') (argument : Text) :
    formatLoop argument [c] = some (closed (argument ++ [c])) := by
  rw [formatLoop.eq_def]
  simp only [hspace, if_false]
  split <;> rfl

/-- The number of characters outside the spaces. -/
def ink (text : Text) : ℕ := (text.filter (· ≠ ' ')).length

@[simp] theorem ink_nil : ink [] = 0 := rfl

@[simp] theorem ink_append (s t : Text) : ink (s ++ t) = ink s + ink t := by simp [ink]

@[simp] theorem ink_cons (c : Char) (text : Text) :
    ink (c :: text) = (if c = ' ' then 0 else 1) + ink text := by
  by_cases h : c = ' ' <;> simp [ink, h, Nat.add_comm]

theorem ink_of_notMem {text : Text} (h : ' ' ∉ text) : ink text = text.length := by
  rw [ink, List.filter_eq_self.mpr]
  intro c hc
  simp only [decide_eq_true_eq]
  rintro rfl
  exact h hc

theorem ink_le_length (text : Text) : ink text ≤ text.length := List.length_filter_le _ _

theorem notMem_of_ink_eq {text : Text} (h : ink text = text.length) : ' ' ∉ text := by
  intro hmem
  have hall := List.length_filter_eq_length_iff.mp h ' ' hmem
  simp at hall

theorem ink_pos {text : Text} {c : Char} (hc : c ∈ text) (hspace : c ≠ ' ') : 0 < ink text :=
  List.length_pos_of_mem (List.mem_filter.mpr ⟨hc, by simpa using hspace⟩)

theorem length_closed (argument : Text) : (closed argument).flatten.length = argument.length := by
  by_cases h : argument = [] <;> simp [closed, h]

theorem notMem_dropLast_cons {a c : Char} {text : Text} (hc : a ≠ c) (h : a ∉ text.dropLast) :
    a ∉ (c :: text).dropLast := by
  cases text with
  | nil => simp
  | cons d text =>
      rw [List.dropLast_cons_of_ne_nil (List.cons_ne_nil d text)]
      exact List.not_mem_cons_of_ne_of_not_mem hc h

/-- The arguments have at most the characters of the format outside its spaces, and if they
have all of them then no percent sign was interpreted. -/
theorem formatLoop_length {argument text : Text} {args : List Text}
    (h : formatLoop argument text = some args) :
    args.flatten.length ≤ argument.length + ink text ∧
      (args.flatten.length = argument.length + ink text → '%' ∉ text.dropLast) := by
  fun_induction formatLoop argument text generalizing args with
  | case1 argument =>
      cases h
      rw [length_closed]
      exact ⟨Nat.le_refl _, fun _ => List.not_mem_nil⟩
  | case2 argument rest ih =>
      obtain ⟨args', hargs', rfl⟩ := Option.map_eq_some_iff.mp h
      obtain ⟨hle, heq⟩ := ih hargs'
      rw [List.flatten_append, List.length_append, length_closed]
      simp only [ink_cons, if_true, List.length_nil] at *
      exact ⟨by omega, fun hall => notMem_dropLast_cons (by decide) (heq (by omega))⟩
  | case3 argument hspace ih =>
      obtain ⟨hle, -⟩ := ih h
      rw [List.length_append] at hle
      exact ⟨hle, fun _ => List.not_mem_nil⟩
  | case4 argument rest' hspace ih =>
      -- Two percent signs have become one, so the count cannot be the full one.
      obtain ⟨hle, -⟩ := ih h
      simp only [List.length_append, List.length_singleton, ink_cons, hspace, if_false] at *
      exact ⟨by omega, fun hall => by omega⟩
  | case5 => cases h
  | case6 argument c rest hspace hpercent ih =>
      obtain ⟨hle, heq⟩ := ih h
      simp only [List.length_append, List.length_singleton, ink_cons, hspace, if_false] at *
      exact ⟨by omega, fun hall => notMem_dropLast_cons (Ne.symm hpercent) (heq (by omega))⟩

/-- What has been read of an argument stays at its beginning. -/
theorem formatLoop_argument {argument text : Text} {args : List Text} (hne : argument ≠ [])
    (h : formatLoop argument text = some args) :
    ∃ more rest, args = (argument ++ more) :: rest := by
  fun_induction formatLoop argument text generalizing args with
  | case1 argument =>
      cases h
      exact ⟨[], [], by simp [closed, hne]⟩
  | case2 argument rest ih =>
      obtain ⟨args', -, rfl⟩ := Option.map_eq_some_iff.mp h
      exact ⟨[], args', by simp [closed, hne]⟩
  | case3 argument hspace ih =>
      obtain ⟨more, rest, rfl⟩ := ih (by simp) h
      exact ⟨'%' :: more, rest, by simp⟩
  | case4 argument rest' hspace ih =>
      obtain ⟨more, rest, rfl⟩ := ih (by simp) h
      exact ⟨'%' :: more, rest, by simp⟩
  | case5 => cases h
  | case6 argument c rest hspace hpercent ih =>
      obtain ⟨more, others, rfl⟩ := ih (by simp) h
      exact ⟨c :: more, others, by simp⟩

/-- A text without spaces and conversions becomes part of the argument. -/
theorem formatLoop_append {text : Text} (hspace : ' ' ∉ text) (hpercent : '%' ∉ text)
    (argument rest : Text) :
    formatLoop argument (text ++ rest) = formatLoop (argument ++ text) rest := by
  induction text generalizing argument with
  | nil => simp
  | cons c text ih =>
      rw [List.mem_cons, not_or] at hspace hpercent
      rw [List.cons_append, formatLoop_cons (Ne.symm hspace.1) (Ne.symm hpercent.1),
        ih hspace.2 hpercent.2, List.append_assoc]
      rfl

/-- At the end of the format a percent sign is an ordinary character. -/
theorem formatLoop_last {text : Text} (hspace : ' ' ∉ text) (hpercent : '%' ∉ text.dropLast)
    (argument : Text) : formatLoop argument text = some (closed (argument ++ text)) := by
  rcases List.eq_nil_or_concat text with rfl | ⟨before, c, rfl⟩
  · rw [List.append_nil, formatLoop_nil]
  · rw [List.concat_eq_append] at *
    rw [List.dropLast_concat] at hpercent
    rw [List.mem_append, not_or, List.mem_singleton] at hspace
    rw [formatLoop_append hspace.1 hpercent, formatLoop_singleton (Ne.symm hspace.2),
      List.append_assoc]

/-- The words of a command: at least one, and each has characters but no space. -/
structure Words (ws : List Text) : Prop where
  ne_nil : ws ≠ []
  word : ∀ w ∈ ws, w ≠ [] ∧ ' ' ∉ w

theorem Words.tail {w w' : Text} {ws : List Text} (h : Words (w :: w' :: ws)) :
    Words (w' :: ws) :=
  ⟨List.cons_ne_nil w' ws, fun v hv => h.word v (List.mem_cons_of_mem w hv)⟩

theorem ink_intercalate {ws : List Text} (h : Words ws) :
    ink ([' '].intercalate ws) = ws.flatten.length := by
  induction ws with
  | nil => rfl
  | cons w ws ih =>
      have hw := ink_of_notMem (h.word w List.mem_cons_self).2
      cases ws with
      | nil => rw [List.intercalate_singleton, hw, List.flatten_singleton]
      | cons w' ws =>
          rw [List.intercalate_cons_cons, List.append_assoc, List.singleton_append, ink_append,
            ink_cons, if_pos rfl, ih h.tail, hw, Nat.zero_add, List.flatten_cons (l := w),
            List.length_append]

/-- Words without conversions are read back. -/
theorem formatLoop_intercalate {ws : List Text} (h : Words ws)
    (hpercent : '%' ∉ ([' '].intercalate ws).dropLast) :
    format ([' '].intercalate ws) = some ws := by
  unfold format
  induction ws with
  | nil => exact absurd rfl h.ne_nil
  | cons w ws ih =>
      obtain ⟨hne, hspace⟩ := h.word w List.mem_cons_self
      cases ws with
      | nil =>
          rw [List.intercalate_singleton] at hpercent ⊢
          rw [formatLoop_last hspace hpercent, List.nil_append, closed, if_neg hne]
      | cons w' ws =>
          rw [List.intercalate_cons_cons, List.append_assoc, List.singleton_append,
            List.dropLast_append_of_ne_nil (List.cons_ne_nil _ _), List.mem_append,
            not_or] at hpercent
          have hrest : '%' ∉ ([' '].intercalate (w' :: ws)).dropLast := by
            intro hmem
            refine hpercent.2 ?_
            cases htext : [' '].intercalate (w' :: ws) with
            | nil => simp [htext] at hmem
            | cons d text =>
                rw [htext] at hmem
                rw [List.dropLast_cons_of_ne_nil (List.cons_ne_nil d text)]
                exact List.mem_cons_of_mem _ hmem
          rw [List.intercalate_cons_cons, List.append_assoc, List.singleton_append,
            formatLoop_append hspace hpercent.1, formatLoop_space, ih h.tail hrest,
            List.nil_append, closed, if_neg hne]
          rfl

/-- The last character of a command is not a space. -/
theorem getLast_intercalate {ws : List Text} (h : Words ws) {c : Char}
    (hlast : ([' '].intercalate ws).getLast? = some c) : c ≠ ' ' := by
  induction ws with
  | nil => exact absurd rfl h.ne_nil
  | cons w ws ih =>
      obtain ⟨hne, hspace⟩ := h.word w List.mem_cons_self
      cases ws with
      | nil =>
          rw [List.intercalate_singleton] at hlast
          rintro rfl
          exact hspace (List.mem_of_getLast? hlast)
      | cons w' ws =>
          refine ih h.tail ?_
          have hrest : [' '].intercalate (w' :: ws) ≠ [] := by
            have hw' := (h.tail.word w' List.mem_cons_self).1
            cases ws <;> simp [List.intercalate, hw']
          rw [List.intercalate_cons_cons, List.append_assoc, List.singleton_append,
            List.getLast?_append_of_ne_nil _ (List.cons_ne_nil _ _),
            List.getLast?_cons_of_ne_nil hrest] at hlast
          exact hlast

/-- A command that was cut to `n` characters is read as its words if and only if nothing was
cut, and a percent sign stands at most at the end. -/
theorem format_take_eq_iff {ws : List Text} (h : Words ws) (n : ℕ) :
    format (([' '].intercalate ws).take n) = some ws ↔
      ([' '].intercalate ws).length ≤ n ∧ '%' ∉ ([' '].intercalate ws).dropLast := by
  constructor
  · intro hformat
    obtain ⟨hle, heq⟩ := formatLoop_length hformat
    rw [List.length_nil, Nat.zero_add, ← ink_intercalate h] at hle heq
    have hsplit := congrArg ink (List.take_append_drop n ([' '].intercalate ws))
    rw [ink_append] at hsplit
    have hcut : ([' '].intercalate ws).drop n = [] := by
      by_contra hne
      have hlast := List.getLast?_eq_getLast_of_ne_nil hne
      have hspace : (([' '].intercalate ws).drop n).getLast hne ≠ ' ' := by
        refine getLast_intercalate h ?_
        rw [← hlast, List.getLast?_drop, if_neg (fun hall => hne (List.drop_eq_nil_iff.mpr hall))]
      have hpos := ink_pos (List.getLast_mem hne) hspace
      omega
    have hfull : ([' '].intercalate ws).length ≤ n := List.drop_eq_nil_iff.mp hcut
    refine ⟨hfull, ?_⟩
    rw [List.take_of_length_le hfull] at heq
    exact heq rfl
  · rintro ⟨hfull, hpercent⟩
    rw [List.take_of_length_le hfull]
    exact formatLoop_intercalate h hpercent

end Dowse.RedisFormat
