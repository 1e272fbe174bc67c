import Dowse.DnsEvents
import Dowse.Splitting
import Dowse.Strtol

/-!
# The readers of the DNS events

Three programs subscribe to the events of the plugin and split them at the commas. Two of
them use `strtok`, which skips empty fields, so that the event of a name without a dot
has one field too few. One of the two never looks for the group. The third is written in
Python and splits the text of a bytes object, with the quotes around it, so that a
quote stands behind the last field.

What each reader gets out of an event that arrives is compared with what was written into
it.
-/
namespace Dowse.EventReaders
open CStrings DnsPlugin Splitting Strtol

/-- The fields of a message as texts. -/
structure Fields where
  who : Text
  hits : Text
  epoch : Text
  domain : Text
  tld : Text
  group : Option Text
  deriving DecidableEq, Repr

/-- The tokens of `strtok` with a comma. -/
def tokens (msg : Text) : List Text := words ',' (cstr msg)

/-- The fields that the C programs read; a missing one drops the event. The programs differ
in what they take from the tokens behind them. -/
def strtokFields (group : List Text → Option Text) (msg : Text) : Option Fields :=
  match tokens msg with
  | _ :: ip :: action :: epoch :: domain :: tld :: rest =>
      some ⟨ip, action, epoch, domain, tld, group rest⟩
  | _ => none

def dowseToGource : Text → Option Fields := strtokFields List.head?

def dowseToOsc : Text → Option Fields := strtokFields fun _ => none

/-- The quote that the repr of a bytes object uses. -/
def pyQuote (bytes : Text) : Char := if '\'' ∈ bytes ∧ '"' ∉ bytes then '"' else '\''

def pyEscape (quote c : Char) : Text :=
  if c = quote ∨ c = '\\' then ['\\', c]
  else if c = '\t' then ['\\', 't']
  else if c = '\n' then ['\\', 'n']
  else if c = '\r' then ['\\', 'r']
  else if c < ' ' ∨ '~' < c then '\\' :: 'x' :: hexByte (UInt8.ofNat c.toNat)
  else [c]

/-- `str` of a bytes object. -/
def pyRepr (bytes : Text) : Text :=
  'b' :: pyQuote bytes :: (bytes.flatMap (pyEscape (pyQuote bytes)) ++ [pyQuote bytes])

/-- `getData` of the netdata plugin. -/
def getData (msg : Text) : Option Fields :=
  match (pyRepr msg).splitOn ',' with
  | [_, who, hits, epoch, domain, tld, group] =>
      some ⟨who, hits, epoch, domain, tld.drop 1, some group⟩
  | [_, who, hits, epoch, domain, tld] => some ⟨who, hits, epoch, domain, tld.drop 1, none⟩
  | _ => none

inductive Reader
  | gource
  | osc
  | netdata
  deriving DecidableEq, Repr

def Reader.read : Reader → Text → Option Fields
  | .gource => dowseToGource
  | .osc => dowseToOsc
  | .netdata => getData

/-- The number that a reader takes the hits for. One has an unsigned integer for them, and
one does not use them. -/
def Reader.count : Reader → Text → ℤ
  | .osc, hits => (strtol hits).value % 2 ^ 32
  | _, hits => (strtol hits).value

/-- What a reader wants of a TLD, which is written with its dot. -/
def Reader.tld : Reader → Text → Text
  | .netdata, tld => tld.drop 1
  | _, tld => tld

def Reader.expected (reader : Reader) (w : Written) : Fields :=
  ⟨w.who, intText w.hits, Nat.toDigits 10 w.epoch, w.domain, reader.tld w.tld, w.group⟩

/-- The event arrives as it was written, and the reader gets every field of it. -/
structure Recovers (reader : Reader) (w : Written) : Prop where
  arrives : w.delivered = some w.line
  fields : reader.read w.line = some (reader.expected w)
  hits : reader.count (intText w.hits) = w.hits

def IsField (text : Text) : Prop := text ≠ [] ∧ ',' ∉ text

/-- What the repr leaves as it is: printable characters without a backslash, and at most one
kind of quotes. -/
structure Plain (text : Text) : Prop where
  printable : ∀ c ∈ text, ' ' ≤ c ∧ c ≤ '~' ∧ c ≠ '\\'
  quotes : ¬ ('\'' ∈ text ∧ '"' ∈ text)

def Readable : Reader → Written → Prop
  | .gource, w => w.Arrives ∧ IsField w.who ∧ IsField w.domain ∧ IsField w.tld ∧
      ∀ group, w.group = some group → IsField group
  | .osc, w => w.Arrives ∧ IsField w.who ∧ IsField w.domain ∧ IsField w.tld ∧ w.group = none ∧
      0 ≤ w.hits
  | .netdata, w => w.Arrives ∧ ',' ∉ w.who ∧ ',' ∉ w.domain ∧ w.tld = [] ∧ w.group = none ∧
      Plain (w.who ++ w.domain)

/-- The values are C strings, and the hits are an `int`. -/
structure CValues (w : Written) : Prop where
  nul : '\x00' ∉ w.line
  int : -2 ^ 31 ≤ w.hits ∧ w.hits < 2 ^ 31

theorem isDigit_toDigits {n : ℕ} {c : Char} (h : c ∈ Nat.toDigits 10 n) : c.isDigit :=
  Nat.isDigit_of_mem_toDigits (by decide) (by decide) h

theorem isField_toDigits (n : ℕ) : IsField (Nat.toDigits 10 n) :=
  ⟨Nat.toDigits_ne_nil, fun h => absurd (isDigit_toDigits h) (by decide)⟩

theorem isField_intText (n : ℤ) : IsField (intText n) := by
  obtain ⟨hne, hcomma⟩ := isField_toDigits n.natAbs
  unfold intText
  split_ifs
  · exact ⟨List.cons_ne_nil _ _, List.not_mem_cons_of_ne_of_not_mem (by decide) hcomma⟩
  · exact ⟨hne, hcomma⟩

/-- A printed `int` is read back. -/
theorem strtol_digits {n : ℕ} (minus : Bool) {text : Text} (htext : text.dropWhile isSpace = text)
    (hsign : sign text = (minus, Nat.toDigits 10 n)) (hn : n ≤ 2 ^ 31) :
    (strtol text).value = bif minus then -(n : ℤ) else n := by
  have hdigits : (Nat.toDigits 10 n).takeWhile Char.isDigit = Nat.toDigits 10 n :=
    List.takeWhile_eq_self_iff.mpr fun _ => isDigit_toDigits
  have hvalue : decimal (Nat.toDigits 10 n) = n :=
    Nat.ofDigitChars_toDigits (by decide) (by decide)
  rw [strtol]
  simp only [htext, hsign, hdigits, hvalue, if_neg Nat.toDigits_ne_nil]
  have hmax : ((n : ℤ) ≤ 2 ^ 31) := by exact_mod_cast hn
  unfold clamp longMax longMin
  cases minus with
  | false => rw [if_neg (by rw [cond_false]; omega), if_neg (by rw [cond_false]; omega)]
  | true => rw [if_neg (by rw [cond_true]; omega), if_neg (by rw [cond_true]; omega)]

theorem strtol_intText {n : ℤ} (h : -2 ^ 31 ≤ n ∧ n < 2 ^ 31) : (strtol (intText n)).value = n := by
  have hsize : n.natAbs ≤ 2 ^ 31 := by omega
  by_cases hneg : n < 0
  · have htext : intText n = '-' :: Nat.toDigits 10 n.natAbs := if_pos hneg
    rw [htext, strtol_digits true rfl rfl hsize]
    simp only [cond_true]
    omega
  · have htext : intText n = Nat.toDigits 10 n.natAbs := if_neg hneg
    obtain ⟨c, rest, hcons⟩ := List.exists_cons_of_ne_nil (isField_toDigits n.natAbs).1
    have hdigit : c.isDigit := isDigit_toDigits (hcons ▸ List.mem_cons_self)
    have hspace : (Nat.toDigits 10 n.natAbs).dropWhile isSpace = Nat.toDigits 10 n.natAbs := by
      rw [hcons, List.dropWhile_cons_of_neg (by simp [not_isSpace_of_isDigit hdigit])]
    have hsign : sign (Nat.toDigits 10 n.natAbs) = (false, Nat.toDigits 10 n.natAbs) := by
      rw [hcons]
      exact sign_of_isDigit rest hdigit
    rw [htext, strtol_digits false hspace hsign hsize]
    simp only [cond_false]
    omega

theorem count_iff {w : Written} (h : CValues w) (reader : Reader) :
    reader.count (intText w.hits) = w.hits ↔ (reader = .osc → 0 ≤ w.hits) := by
  have hint := h.int
  cases reader with
  | osc =>
      simp only [Reader.count, strtol_intText hint, true_implies]
      omega
  | gource => simp [Reader.count, strtol_intText hint]
  | netdata => simp [Reader.count, strtol_intText hint]

/-- The line with its commas. -/
theorem line_eq (w : Written) : w.line = "DNS".toList ++ ',' :: (w.who ++ ',' :: (intText w.hits ++
    ',' :: (Nat.toDigits 10 w.epoch ++ ',' :: (w.domain ++ ',' :: (w.tld ++
      w.group.elim [] (',' :: ·)))))) := by
  have hdns : "DNS,".toList = "DNS".toList ++ [','] := by decide
  unfold Written.line Written.ungrouped
  rw [hdns]
  simp only [List.append_assoc, List.cons_append, List.nil_append]

section Strtok
variable {w : Written}

theorem strtokFields_eq_some {group : List Text → Option Text} {msg : Text} {f : Fields} :
    strtokFields group msg = some f ↔ ∃ dns rest, f.group = group rest ∧
      tokens msg = dns :: f.who :: f.hits :: f.epoch :: f.domain :: f.tld :: rest := by
  unfold strtokFields
  constructor
  · intro h
    split at h
    · rename_i dns ip action epoch domain tld rest htokens
      rw [← Option.some.inj h, htokens]
      exact ⟨dns, rest, rfl, rfl⟩
    · cases h
  · rintro ⟨dns, rest, hgroup, htokens⟩
    simp only [htokens, ← hgroup]

theorem tokens_line (h : CValues w) : tokens w.line = "DNS".toList :: (words ',' w.who ++
    (intText w.hits :: Nat.toDigits 10 w.epoch :: (words ',' w.domain ++ (words ',' w.tld ++
      w.group.elim [] (words ','))))) := by
  have hgroup : words ',' (w.tld ++ w.group.elim [] (',' :: ·)) =
      words ',' w.tld ++ w.group.elim [] (words ',') := by
    cases w.group with
    | none => simp
    | some group => exact words_append w.tld group
  have hhits := isField_intText w.hits
  have hepoch := isField_toDigits w.epoch
  rw [tokens, cstr_eq_self h.nul, line_eq, words_append, words_append, words_append,
    words_append, words_append, hgroup, words_singleton (by decide) (by decide),
    words_singleton hhits.1 hhits.2, words_singleton hepoch.1 hepoch.2]
  rfl

/-- The tokens are fields, so what was recovered from them had to be one. -/
theorem isField_of_mem_tokens (msg : Text) {text : Text} (h : text ∈ tokens msg) : IsField text :=
  of_mem_words h

/-- A C program gets the fields if and only if none of them is empty or has a comma, and it
finds the group behind them. -/
theorem strtokFields_line_iff (h : CValues w) (group : List Text → Option Text) :
    strtokFields group w.line = some ⟨w.who, intText w.hits, Nat.toDigits 10 w.epoch, w.domain,
        w.tld, w.group⟩ ↔
      IsField w.who ∧ IsField w.domain ∧ IsField w.tld ∧
        w.group = group (w.group.elim [] (words ',')) := by
  have hline : IsField w.who → IsField w.domain → IsField w.tld → tokens w.line =
      "DNS".toList :: w.who :: intText w.hits :: Nat.toDigits 10 w.epoch :: w.domain :: w.tld ::
        w.group.elim [] (words ',') := by
    intro hwho hdomain htld
    rw [tokens_line h, words_singleton hwho.1 hwho.2, words_singleton hdomain.1 hdomain.2,
      words_singleton htld.1 htld.2]
    rfl
  rw [strtokFields_eq_some]
  constructor
  · rintro ⟨dns, rest, hgroup, htokens⟩
    have hwho : IsField w.who := isField_of_mem_tokens w.line (by simp [htokens])
    have hdomain : IsField w.domain := isField_of_mem_tokens w.line (by simp [htokens])
    have htld : IsField w.tld := isField_of_mem_tokens w.line (by simp [htokens])
    refine ⟨hwho, hdomain, htld, ?_⟩
    rw [hline hwho hdomain htld] at htokens
    simp only [List.cons.injEq, true_and] at htokens
    rw [htokens.2]
    exact hgroup
  · rintro ⟨hwho, hdomain, htld, hgroup⟩
    exact ⟨_, _, hgroup, hline hwho hdomain htld⟩

theorem head_words_iff (group : Option Text) :
    group = (group.elim [] (words ',')).head? ↔ ∀ text, group = some text → IsField text := by
  cases group with
  | none => simp
  | some text =>
      simp only [Option.elim_some, Option.some.injEq, forall_eq']
      constructor
      · intro h
        exact of_mem_words (List.mem_of_head? h.symm)
      · rintro ⟨hne, hcomma⟩
        rw [words_singleton hne hcomma]
        rfl

end Strtok

section Repr
variable {quote : Char}

/-- A character is kept or becomes longer. -/
theorem pyEscape_eq_or (quote c : Char) :
    pyEscape quote c = [c] ∨ 2 ≤ (pyEscape quote c).length := by
  unfold pyEscape
  split_ifs <;> simp

theorem pyEscape_eq_iff {c : Char} :
    pyEscape quote c = [c] ↔ c ≠ quote ∧ ' ' ≤ c ∧ c ≤ '~' ∧ c ≠ '\\' := by
  constructor
  · intro h
    unfold pyEscape at h
    split_ifs at h with hquote htab hnewline hreturn hrange
    · simp at h
    · simp at h
    · simp at h
    · simp at h
    · simp at h
    · rw [not_or] at hquote hrange
      exact ⟨hquote.1, not_lt.mp hrange.1, not_lt.mp hrange.2, hquote.2⟩
  · rintro ⟨hquote, hlow, hhigh, hbackslash⟩
    have hctrl : ∀ d : Char, d < ' ' → c ≠ d := by
      rintro d hd rfl
      exact absurd hd (not_lt.mpr hlow)
    unfold pyEscape
    rw [if_neg (not_or.mpr ⟨hquote, hbackslash⟩), if_neg (hctrl _ (by decide)),
      if_neg (hctrl _ (by decide)), if_neg (hctrl _ (by decide)),
      if_neg (not_or.mpr ⟨not_lt.mpr hlow, not_lt.mpr hhigh⟩)]

/-- The escapes have no commas of their own. -/
theorem comma_notMem_pyEscape {c : Char} (hc : c ≠ ',') : ',' ∉ pyEscape quote c := by
  have hdigit : ∀ n < 16, Nat.digitChar n ≠ ',' := by decide
  have hhex : ∀ b : UInt8, ',' ∉ hexByte b := by
    intro b hmem
    have hlt := b.toNat_lt
    rw [hexByte, List.mem_pair] at hmem
    rcases hmem with hmem | hmem
    · exact hdigit _ (by omega) hmem.symm
    · exact hdigit _ (by omega) hmem.symm
  unfold pyEscape
  split_ifs
  · simp [Ne.symm hc]
  · decide
  · decide
  · decide
  · simp [hhex]
  · simp [Ne.symm hc]

def escaped (quote : Char) (text : Text) : Text := text.flatMap (pyEscape quote)

theorem comma_notMem_escaped {text : Text} (h : ',' ∉ text) : ',' ∉ escaped quote text := by
  intro hmem
  obtain ⟨c, hc, hmem⟩ := List.mem_flatMap.mp hmem
  refine comma_notMem_pyEscape ?_ hmem
  rintro rfl
  exact h hc

theorem length_le_escaped (quote : Char) (text : Text) :
    text.length ≤ (escaped quote text).length := by
  induction text with
  | nil => exact Nat.le_refl 0
  | cons c text ih =>
      rw [escaped, List.flatMap_cons, List.length_append, List.length_cons]
      change text.length ≤ (text.flatMap (pyEscape quote)).length at ih
      obtain hkept | hlong := pyEscape_eq_or quote c
      · rw [hkept, List.length_singleton]
        omega
      · omega

theorem escaped_eq_self_iff {text : Text} :
    escaped quote text = text ↔ ∀ c ∈ text, pyEscape quote c = [c] := by
  induction text with
  | nil => simp [escaped]
  | cons c text ih =>
      have hcons : escaped quote (c :: text) = pyEscape quote c ++ escaped quote text :=
        List.flatMap_cons
      rw [hcons, List.forall_mem_cons, ← ih]
      constructor
      · intro h
        obtain hkept | hlong := pyEscape_eq_or quote c
        · rw [hkept, List.singleton_append, List.cons_inj_right] at h
          exact ⟨hkept, h⟩
        · have hlength := congrArg List.length h
          have hle := length_le_escaped quote text
          rw [List.length_append, List.length_cons] at hlength
          omega
      · rintro ⟨hkept, hrest⟩
        rw [hkept, hrest]
        rfl

theorem pyQuote_cases (bytes : Text) : pyQuote bytes = '\'' ∨ pyQuote bytes = '"' := by
  unfold pyQuote
  split_ifs
  · exact .inr rfl
  · exact .inl rfl

theorem bounds_of_isDigit {c : Char} (h : c.isDigit) : '0' ≤ c ∧ c ≤ '9' := by
  simpa [Char.isDigit, Char.le_def] using h

/-- A number is kept with either quote. -/
theorem pyEscape_of_number {c : Char} (hquote : quote = '\'' ∨ quote = '"')
    (h : c.isDigit ∨ c = '-') : pyEscape quote c = [c] := by
  rw [pyEscape_eq_iff]
  obtain hdigit | rfl := h
  · obtain ⟨hlow, hhigh⟩ := bounds_of_isDigit hdigit
    have habove : ∀ d : Char, d < '0' → c ≠ d := fun d hd => (hd.trans_le hlow).ne'
    have hbelow : ∀ d : Char, '9' < d → c ≠ d := fun d hd => (hhigh.trans_lt hd).ne
    refine ⟨?_, le_trans (by decide) hlow, hhigh.trans (by decide), hbelow _ (by decide)⟩
    obtain rfl | rfl := hquote
    · exact habove _ (by decide)
    · exact habove _ (by decide)
  · obtain rfl | rfl := hquote <;> decide

theorem escaped_intText (hquote : quote = '\'' ∨ quote = '"') (n : ℤ) :
    escaped quote (intText n) = intText n := by
  refine escaped_eq_self_iff.mpr fun c hc => pyEscape_of_number hquote ?_
  unfold intText at hc
  split_ifs at hc
  · obtain rfl | hc := List.mem_cons.mp hc
    · exact .inr rfl
    · exact .inl (isDigit_toDigits hc)
  · exact .inl (isDigit_toDigits hc)

theorem escaped_toDigits (hquote : quote = '\'' ∨ quote = '"') (n : ℕ) :
    escaped quote (Nat.toDigits 10 n) = Nat.toDigits 10 n :=
  escaped_eq_self_iff.mpr fun _ hc => pyEscape_of_number hquote (.inl (isDigit_toDigits hc))

/-- An escaped text is escaped part by part. -/
theorem escaped_append_comma (hquote : quote = '\'' ∨ quote = '"') (text rest : Text) :
    escaped quote (text ++ ',' :: rest) = escaped quote text ++ ',' :: escaped quote rest := by
  have hcomma : pyEscape quote ',' = [','] := by
    obtain rfl | rfl := hquote <;> decide
  rw [escaped, List.flatMap_append, List.flatMap_cons, hcomma]
  rfl

theorem getData_eq_some {msg : Text} {f : Fields} : getData msg = some f ↔
    ∃ dns tld, f.tld = tld.drop 1 ∧ (pyRepr msg).splitOn ',' =
      dns :: f.who :: f.hits :: f.epoch :: f.domain :: tld :: f.group.toList := by
  unfold getData
  constructor
  · intro h
    split at h
    · rename_i dns who hits epoch domain tld group hsplit
      rw [← Option.some.inj h, hsplit]
      exact ⟨dns, tld, rfl, rfl⟩
    · rename_i dns who hits epoch domain tld hsplit
      rw [← Option.some.inj h, hsplit]
      exact ⟨dns, tld, rfl, rfl⟩
    · cases h
  · rintro ⟨dns, tld, htld, hsplit⟩
    obtain ⟨who, hits, epoch, domain, _, group⟩ := f
    subst htld
    rw [hsplit]
    cases group <;> rfl

variable {w : Written}

theorem escaped_line (hquote : quote = '\'' ∨ quote = '"') : escaped quote w.line =
    "DNS".toList ++ ',' :: (escaped quote w.who ++ ',' :: (intText w.hits ++ ',' ::
      (Nat.toDigits 10 w.epoch ++ ',' :: (escaped quote w.domain ++ ',' ::
        escaped quote (w.tld ++ w.group.elim [] (',' :: ·)))))) := by
  have hdns : escaped quote "DNS".toList = "DNS".toList := by
    obtain rfl | rfl := hquote <;> decide
  rw [line_eq w, escaped_append_comma hquote, escaped_append_comma hquote,
    escaped_append_comma hquote, escaped_append_comma hquote, escaped_append_comma hquote, hdns,
    escaped_intText hquote, escaped_toDigits hquote]

/-- What stands behind the last comma of the six fields. -/
def remainder (w : Written) : Text :=
  escaped (pyQuote w.line) (w.tld ++ w.group.elim [] (',' :: ·)) ++ [pyQuote w.line]

/-- The entries of the text of an event, before it is known that a field has no comma. -/
theorem splitOn_pyRepr (w : Written) : (pyRepr w.line).splitOn ',' =
    ('b' :: pyQuote w.line :: "DNS".toList) ::
      ((escaped (pyQuote w.line) w.who).splitOn ',' ++ (intText w.hits ::
        Nat.toDigits 10 w.epoch :: ((escaped (pyQuote w.line) w.domain).splitOn ',' ++
          (remainder w).splitOn ','))) := by
  have hquote := pyQuote_cases w.line
  have hhits := (isField_intText w.hits).2
  have hepoch := (isField_toDigits w.epoch).2
  have hdns : ',' ∉ 'b' :: pyQuote w.line :: "DNS".toList := by
    obtain h | h := hquote <;> rw [h] <;> decide
  have hrepr : pyRepr w.line = ('b' :: pyQuote w.line :: "DNS".toList) ++ ',' ::
      (escaped (pyQuote w.line) w.who ++ ',' :: (intText w.hits ++ ',' ::
        (Nat.toDigits 10 w.epoch ++ ',' :: (escaped (pyQuote w.line) w.domain ++ ',' ::
          remainder w)))) := by
    have hdef : pyRepr w.line =
      'b' :: pyQuote w.line :: (escaped (pyQuote w.line) w.line ++ [pyQuote w.line]) := rfl
    rw [hdef, escaped_line hquote, remainder]
    simp only [List.append_assoc, List.cons_append]
  rw [hrepr, List.splitOn_append_cons_self, List.splitOn_append_cons_self,
    List.splitOn_append_cons_self, List.splitOn_append_cons_self, List.splitOn_append_cons_self,
    List.splitOn_eq_singleton hdns, List.splitOn_eq_singleton hhits,
    List.splitOn_eq_singleton hepoch]
  rfl

/-- With a quote behind it, only an empty TLD is left when the first character is dropped, and
no group is itself. -/
theorem splitOn_remainder_iff (w : Written) :
    (∃ tld, w.tld.drop 1 = tld.drop 1 ∧ (remainder w).splitOn ',' = tld :: w.group.toList) ↔
      w.tld = [] ∧ w.group = none := by
  have hquote := pyQuote_cases w.line
  have hne : ',' ≠ pyQuote w.line := by
    obtain h | h := hquote <;> rw [h] <;> decide
  constructor
  · rintro ⟨tld, htld, hsplit⟩
    cases hgroup : w.group with
    | none =>
        rw [hgroup] at hsplit
        have heq := congrArg List.length (eq_of_splitOn_eq_singleton hsplit)
        have hlength := congrArg List.length htld
        have hle := length_le_escaped (pyQuote w.line) w.tld
        rw [remainder, hgroup, Option.elim_none, List.append_nil, List.length_append,
          List.length_singleton] at heq
        rw [List.length_drop, List.length_drop] at hlength
        exact ⟨List.eq_nil_of_length_eq_zero (by omega), rfl⟩
    | some group =>
        exfalso
        rw [hgroup, remainder, hgroup, Option.elim_some, escaped_append_comma hquote,
          List.append_assoc, List.cons_append, List.splitOn_append_cons_self] at hsplit
        obtain ⟨first, more, hfirst⟩ :=
          List.exists_cons_of_ne_nil (List.splitOn_ne_nil ',' (escaped (pyQuote w.line) w.tld))
        obtain ⟨last, others, hlast⟩ := List.exists_cons_of_ne_nil
          (List.splitOn_ne_nil ',' (escaped (pyQuote w.line) group ++ [pyQuote w.line]))
        have hcount := congrArg List.length hsplit
        simp only [hfirst, hlast, List.length_append, List.length_cons, Option.toList_some,
          List.length_nil] at hcount
        have hmore : more = [] := List.eq_nil_of_length_eq_zero (by omega)
        have hothers : others = [] := List.eq_nil_of_length_eq_zero (by omega)
        rw [hfirst, hlast, hmore, hothers] at hsplit
        have hgroup' : last = group := by simpa using (List.cons.inj hsplit).2
        rw [hothers] at hlast
        have heq := congrArg List.length (eq_of_splitOn_eq_singleton hlast)
        have hle := length_le_escaped (pyQuote w.line) group
        rw [hgroup', List.length_append, List.length_singleton] at heq
        omega
  · rintro ⟨htld, hgroup⟩
    refine ⟨[pyQuote w.line], by rw [htld]; rfl, ?_⟩
    rw [remainder, htld, hgroup]
    exact List.splitOn_eq_singleton (fun hmem => hne (List.mem_singleton.mp hmem))

theorem mem_line_of_quote {c : Char} (hc : c = '\'' ∨ c = '"') (htld : w.tld = [])
    (hgroup : w.group = none) : c ∈ w.line ↔ c ∈ w.who ++ w.domain := by
  have hdns : c ∉ "DNS".toList ∧ c ≠ ',' := by obtain rfl | rfl := hc <;> decide
  have hdigits : ∀ n, c ∉ Nat.toDigits 10 n := by
    intro n hmem
    have hdigit := isDigit_toDigits hmem
    obtain rfl | rfl := hc <;> exact absurd hdigit (by decide)
  have hhits : c ∉ intText w.hits := by
    unfold intText
    split_ifs
    · rw [List.mem_cons, not_or]
      exact ⟨by obtain rfl | rfl := hc <;> decide, hdigits _⟩
    · exact hdigits _
  rw [line_eq w, htld, hgroup]
  simp only [List.mem_append, List.mem_cons, hdns.1, hdns.2, hhits, hdigits, false_or, or_false,
    Option.elim_none, List.not_mem_nil, List.append_nil]

/-- The repr of such an event changes nothing in the two free fields if and only if they are
plain. -/
theorem escaped_iff_plain (htld : w.tld = []) (hgroup : w.group = none) :
    escaped (pyQuote w.line) (w.who ++ w.domain) = w.who ++ w.domain ↔
      Plain (w.who ++ w.domain) := by
  have hsingle := mem_line_of_quote (.inl rfl) htld hgroup
  have hdouble := mem_line_of_quote (.inr rfl) htld hgroup
  rw [escaped_eq_self_iff]
  constructor
  · intro h
    refine ⟨fun c hc => (pyEscape_eq_iff.mp (h c hc)).2, ?_⟩
    rintro ⟨hs, hd⟩
    have hquote : pyQuote w.line = '\'' := if_neg fun hboth => hboth.2 (hdouble.mpr hd)
    exact (pyEscape_eq_iff.mp (h _ hs)).1 hquote.symm
  · intro h c hc
    refine pyEscape_eq_iff.mpr ⟨?_, h.printable c hc⟩
    rintro rfl
    unfold pyQuote at hc
    split_ifs at hc with hboth
    · exact hboth.2 (hdouble.mpr hc)
    · rw [not_and_not_right] at hboth
      exact h.quotes ⟨hc, hdouble.mp (hboth (hsingle.mpr hc))⟩

theorem escaped_append_iff {text rest : Text} : escaped quote (text ++ rest) = text ++ rest ↔
    escaped quote text = text ∧ escaped quote rest = rest := by
  rw [escaped_eq_self_iff, escaped_eq_self_iff, escaped_eq_self_iff, List.forall_mem_append]

theorem getData_line_iff (w : Written) :
    getData w.line = some ⟨w.who, intText w.hits, Nat.toDigits 10 w.epoch, w.domain,
        w.tld.drop 1, w.group⟩ ↔
      ',' ∉ w.who ∧ ',' ∉ w.domain ∧ w.tld = [] ∧ w.group = none ∧ Plain (w.who ++ w.domain) := by
  have hentries : ',' ∉ w.who → ',' ∉ w.domain → (pyRepr w.line).splitOn ',' =
      ('b' :: pyQuote w.line :: "DNS".toList) :: escaped (pyQuote w.line) w.who ::
        intText w.hits :: Nat.toDigits 10 w.epoch :: escaped (pyQuote w.line) w.domain ::
          (remainder w).splitOn ',' := by
    intro hwho hdomain
    rw [splitOn_pyRepr, List.splitOn_eq_singleton (comma_notMem_escaped hwho),
      List.splitOn_eq_singleton (comma_notMem_escaped hdomain)]
    rfl
  rw [getData_eq_some]
  constructor
  · rintro ⟨dns, tld, htld, hsplit⟩
    have hpart : ∀ text ∈ [w.who, w.domain], ',' ∉ text := by
      intro text htext
      refine notMem_of_mem_splitOn (l := pyRepr w.line) ?_
      rw [hsplit]
      rcases List.mem_pair.mp htext with rfl | rfl <;> simp
    obtain ⟨hwho, hdomain⟩ : ',' ∉ w.who ∧ ',' ∉ w.domain :=
      ⟨hpart _ (by simp), hpart _ (by simp)⟩
    rw [hentries hwho hdomain] at hsplit
    simp only [List.cons.injEq, true_and] at hsplit
    obtain ⟨-, hwho', hdomain', hrest⟩ := hsplit
    obtain ⟨hempty, hnone⟩ := (splitOn_remainder_iff w).mp ⟨tld, htld, hrest⟩
    exact ⟨hwho, hdomain, hempty, hnone,
      (escaped_iff_plain hempty hnone).mp (escaped_append_iff.mpr ⟨hwho', hdomain'⟩)⟩
  · rintro ⟨hwho, hdomain, htld, hgroup, hplain⟩
    obtain ⟨hwho', hdomain'⟩ := escaped_append_iff.mp ((escaped_iff_plain htld hgroup).mpr hplain)
    obtain ⟨tld, hdrop, hrest⟩ := (splitOn_remainder_iff w).mpr ⟨htld, hgroup⟩
    refine ⟨'b' :: pyQuote w.line :: "DNS".toList, tld, hdrop, ?_⟩
    rw [hentries hwho hdomain, hwho', hdomain', hrest]

end Repr

/-- Each reader recovers an event if and only if it is readable for it. -/
theorem recovers_iff (reader : Reader) {w : Written} (h : CValues w) :
    Recovers reader w ↔ Readable reader w := by
  have hrecovers : Recovers reader w ↔ w.Arrives ∧
      reader.read w.line = some (reader.expected w) ∧ (reader = .osc → 0 ≤ w.hits) := by
    rw [← count_iff h reader, ← w.delivered_eq_line_iff]
    exact ⟨fun hr => ⟨hr.arrives, hr.fields, hr.hits⟩, fun hr => ⟨hr.1, hr.2.1, hr.2.2⟩⟩
  rw [hrecovers]
  cases reader with
  | gource =>
      have hread := strtokFields_line_iff h List.head?
      rw [head_words_iff] at hread
      refine and_congr_right fun _ => ?_
      rw [and_iff_left (nofun : Reader.gource = .osc → 0 ≤ w.hits)]
      exact hread
  | osc =>
      have hread := strtokFields_line_iff h fun _ => none
      refine and_congr_right fun _ => (and_congr_left' hread).trans ?_
      simp only [true_implies, and_assoc]
  | netdata =>
      refine and_congr_right fun _ => ?_
      rw [and_iff_left (nofun : Reader.netdata = .osc → 0 ≤ w.hits)]
      exact getData_line_iff w

/-- What the plugin writes are C strings and an `int`. -/
theorem cValues_writtenFor (env : Env) (data : PluginData) (extracted : Option Text)
    (incr : Option Reply) (named : Reply) : CValues (writtenFor env data extracted incr named) := by
  have hwho : '\x00' ∉ identity named data.names := by
    unfold identity
    split
    · exact nul_notMem_cstr _
    · exact nul_notMem_cstr _
  have hdomain : '\x00' ∉ printed extracted := by
    cases extracted with
    | none => exact fun hmem => absurd hmem (by decide)
    | some text => exact nul_notMem_cstr text
  have hgroup : ∀ text, groupOf data extracted = some text → '\x00' ∉ text := by
    intro text htext
    unfold groupOf at htext
    split_ifs at htext
    obtain ⟨key, -, hkey⟩ := Option.bind_eq_some_iff.mp htext
    split at hkey
    · rw [← Option.some.inj hkey]
      exact nul_notMem_cstr _
    · cases hkey
  have hnumber : '\x00' ∉ intText (hitCount incr) ∧ '\x00' ∉ Nat.toDigits 10 env.time := by
    have hdigits : ∀ n, '\x00' ∉ Nat.toDigits 10 n :=
      fun n hmem => absurd (isDigit_toDigits hmem) (by decide)
    refine ⟨?_, hdigits _⟩
    unfold intText
    split_ifs
    · exact List.not_mem_cons_of_ne_of_not_mem (by decide) (hdigits _)
    · exact hdigits _
  constructor
  · have hdns : '\x00' ∉ "DNS".toList := by decide
    rw [line_eq]
    simp only [writtenFor, List.mem_append, List.mem_cons, not_or]
    refine ⟨hdns, by decide, hwho, by decide, hnumber.1, by decide, hnumber.2, by decide, hdomain,
      by decide, nul_notMem_cstr _, ?_⟩
    cases hsome : groupOf data extracted with
    | none => exact List.not_mem_nil
    | some text => exact List.not_mem_cons_of_ne_of_not_mem (by decide) (hgroup text hsome)
  · change -2 ^ 31 ≤ hitCount incr ∧ hitCount incr < 2 ^ 31
    cases incr with
    | none => decide
    | some reply =>
        have hlow := Int.le_bmod (x := reply.integer) (m := 2 ^ 32) (by decide)
        have hhigh := Int.bmod_lt (x := reply.integer) (m := 2 ^ 32) (by decide)
        exact ⟨by simpa [hitCount] using hlow, by simpa [hitCount] using hhigh⟩

/-- The event of a phone that asks for a name. -/
def phoneEvent (domain tld : Text) : Written :=
  ⟨"phone".toList, 1, 1500000000, domain, tld, none⟩

theorem recovers_iff_dotted :
    CValues (phoneEvent "dyne.org".toList ".org".toList) ∧
      Recovers .gource (phoneEvent "dyne.org".toList ".org".toList) := by
  have hvalues : CValues (phoneEvent "dyne.org".toList ".org".toList) :=
    ⟨by decide +kernel, by decide, by decide⟩
  refine ⟨hvalues, (recovers_iff .gource hvalues).mpr ⟨⟨?_, nofun, ?_, ?_⟩, ?_, ?_, ?_, nofun⟩⟩
  all_goals first | decide +kernel | exact ⟨by decide, by decide⟩

/-- A name without a dot has an empty TLD, and two readers drop its event. For a name with a
dot the third one takes the closing quote of the bytes object as part of the TLD. -/
theorem dotless_event_dropped :
    CValues (phoneEvent "printer".toList []) ∧
      (phoneEvent "printer".toList []).delivered = some "DNS,phone,1,1500000000,printer,".toList ∧
      Reader.gource.read "DNS,phone,1,1500000000,printer,".toList = none ∧
      Reader.osc.read "DNS,phone,1,1500000000,printer,".toList = none ∧
      ¬ Recovers .gource (phoneEvent "printer".toList []) ∧
      Reader.netdata.read "DNS,phone,1,1500000000,dyne.org,.org".toList = some ⟨"phone".toList,
        "1".toList, "1500000000".toList, "dyne.org".toList, "org'".toList, none⟩ := by
  have hread : Reader.gource.read (phoneEvent "printer".toList []).line = none := by
    decide +kernel
  exact ⟨⟨by decide +kernel, by decide, by decide⟩, by decide +kernel, by decide +kernel,
    by decide +kernel, fun h => absurd (hread.symm.trans h.fields) nofun, by decide +kernel⟩

end Dowse.EventReaders
