import Dowse.ListParser

/-!
# Bounds of the binary list parser

`read_cstr` writes inside its buffer whatever the file has, and a label that it accepts is
terminated. The label index of a version 3 record is compared with the number of labels by `>`, so
that an index equal to that number passes and a label behind the last is fetched.
-/
namespace Dowse.Pgld
open CStrings Blocklist

/-- Four bytes that hold this number in network order. -/
def Word (bytes : List UInt8) (w : UInt32) : Prop :=
  ∃ a b c d, bytes = [a, b, c, d] ∧ bigEndian a b c d = w

/-- The file goes on with this many terminated labels that fit the buffer. -/
inductive Labels : ℕ → List UInt8 → List UInt8 → Prop
  | done (f : List UInt8) : Labels 0 f f
  | label {n : ℕ} {label f rest : List UInt8} : 0 ∉ label → label.length < maxLineLength →
      Labels n f rest → Labels (n + 1) (label ++ 0 :: f) rest

/-- One of the next records has the number of labels as its index, and those before it have
smaller ones. -/
inductive ReachesPast (nlabels : UInt32) : ℕ → List UInt8 → Prop
  | here {cnt : ℕ} {i p q : List UInt8} {lo hi : UInt32} (rest : List UInt8) :
      Word i nlabels → Word p lo → Word q hi →
      ReachesPast nlabels (cnt + 1) (i ++ (p ++ (q ++ rest)))
  | later {cnt : ℕ} {i p q rest : List UInt8} {idx lo hi : UInt32} :
      Word i idx → idx < nlabels → Word p lo → Word q hi → ReachesPast nlabels cnt rest →
      ReachesPast nlabels (cnt + 1) (i ++ (p ++ (q ++ rest)))

/-- A version 3 file whose label table can be allocated and read, and that has a complete record
with the number of labels as its index. -/
def IndexPastLabels (host : Host) (content : List UInt8) : Prop :=
  ∃ (n c f rest : List UInt8) (nlabels cnt : UInt32),
    content = p2bHeader ++ 3 :: (n ++ f) ∧ Word n nlabels ∧ nlabels.toNat < 2 ^ 31 ∧
    host.malloc (8 * nlabels.toNat) ∧ Labels nlabels.toNat f (c ++ rest) ∧ Word c cnt ∧
    ReachesPast nlabels cnt.toNat rest

section Reading

theorem readCstr_label {m : ℕ} {label : List UInt8} (h0 : 0 ∉ label) (buf rest : List UInt8)
    (hlen : buf.length + label.length < m) :
    readCstr m m buf (label ++ 0 :: rest) =
      .ok (((buf ++ (label ++ [0])).length : ℤ), buf ++ (label ++ [0]), rest) := by
  induction label generalizing buf with
  | nil =>
      rw [List.length_nil, Nat.add_zero] at hlen
      simp [readCstr, hlen]
  | cons c label ih =>
      rw [List.mem_cons, not_or] at h0
      rw [List.length_cons] at hlen
      have hih := ih h0.2 (buf ++ [c]) (by rw [List.length_append, List.length_singleton]; omega)
      rw [List.append_assoc] at hih
      rw [List.cons_append, readCstr, if_pos (by omega), if_neg (Ne.symm h0.1),
        if_neg (by omega), hih]
      rfl

/-- Either a terminated label is next or the returned length is refused. No write is out of
bounds. -/
theorem readCstr_cases {m : ℕ} (buf f : List UInt8) (hbuf : buf.length < m) :
    (∃ label rest, f = label ++ 0 :: rest ∧ 0 ∉ label ∧ buf.length + label.length < m) ∨
    ∃ n buf' rest, readCstr m m buf f = .ok (n, buf', rest) ∧ (n < 0 ∨ n > m) := by
  induction f generalizing buf with
  | nil =>
      right
      rw [readCstr, if_pos hbuf]
      exact ⟨-1, _, _, rfl, Or.inl (by decide)⟩
  | cons c f ih =>
      by_cases hc : c = 0
      · exact Or.inl ⟨[], f, by rw [hc, List.nil_append], List.not_mem_nil, hbuf⟩
      · rw [readCstr, if_pos hbuf, if_neg hc]
        by_cases hfull : buf.length + 1 = m
        · rw [if_pos hfull]
          exact Or.inr ⟨_, _, _, rfl, Or.inr (by omega)⟩
        · rw [if_neg hfull]
          have hbuf' : (buf ++ [c]).length < m := by
            rw [List.length_append, List.length_singleton]
            omega
          rcases ih (buf ++ [c]) hbuf' with ⟨label, rest, rfl, h0, hlen⟩ | hbad
          · rw [List.length_append, List.length_singleton] at hlen
            refine Or.inl ⟨c :: label, rest, rfl, ?_, by rw [List.length_cons]; omega⟩
            rw [List.mem_cons, not_or]
            exact ⟨Ne.symm hc, h0⟩
          · exact Or.inr hbad

theorem badLabel_of {n : ℤ} (h : n < 0 ∨ n > maxLineLength) : badLabel n = true := by
  simpa [badLabel] using h

theorem badLabel_label {label : List UInt8} (h : label.length < maxLineLength) :
    badLabel ((([] ++ (label ++ [0])).length : ℕ) : ℤ) = false := by
  simp only [badLabel, List.nil_append, List.length_append, List.length_singleton,
    Bool.or_eq_false_iff, decide_eq_false_iff_not]
  omega

/-- An accepted label is terminated. -/
theorem exists_useLabel (lowmem : Bool) (label : List UInt8) :
    ∃ name, useLabel lowmem ([] ++ (label ++ [0])) = .ok name := by
  cases lowmem with
  | true => exact ⟨[], rfl⟩
  | false => exact ⟨_, by rw [useLabel, if_neg (by decide), if_pos (by simp)]⟩

theorem freadWord_word (little : Bool) {bytes : List UInt8} {w : UInt32} (h : Word bytes w)
    (rest : List UInt8) :
    ∃ x, freadWord little (bytes ++ rest) = some (x, rest) ∧ ntohl little x = w := by
  obtain ⟨a, b, c, d, rfl, rfl⟩ := h
  exact ⟨_, rfl, ntohl_loadWord little [a, b, c, d] 0⟩

theorem freadWord_cases (little : Bool) (f : List UInt8) :
    freadWord little f = none ∨ ∃ bytes w rest, f = bytes ++ rest ∧ Word bytes w := by
  match f with
  | [] => exact Or.inl rfl
  | [_] => exact Or.inl rfl
  | [_, _] => exact Or.inl rfl
  | [_, _, _] => exact Or.inl rfl
  | a :: b :: c :: d :: rest => exact Or.inr ⟨[a, b, c, d], _, rest, rfl, a, b, c, d, rfl, rfl⟩

/-- One label is read and the others follow. -/
theorem readLabels_step {lowmem : Bool} {n : ℕ} {label f : List UInt8} (h0 : 0 ∉ label)
    (hlen : label.length < maxLineLength) {more : Option (List Text × List UInt8)}
    (hmore : readLabels lowmem n f = .ok more) :
    ∃ name, readLabels lowmem (n + 1) (label ++ 0 :: f) =
      .ok (more.map fun r => (name :: r.1, r.2)) := by
  obtain ⟨name, hname⟩ := exists_useLabel lowmem label
  refine ⟨name, ?_⟩
  rw [readLabels]
  refine bind_eq_ok_iff.mpr ⟨_, readCstr_label h0 [] f (by simpa using hlen), ?_⟩
  dsimp only
  rw [if_neg (by rw [badLabel_label hlen]; decide)]
  exact bind_eq_ok_iff.mpr ⟨name, hname, bind_eq_ok_iff.mpr ⟨_, hmore, rfl⟩⟩

theorem readLabels_labels (lowmem : Bool) {n : ℕ} {f rest : List UInt8} (h : Labels n f rest) :
    ∃ labels, readLabels lowmem n f = .ok (some (labels, rest)) ∧ labels.length = n := by
  induction h with
  | done f => exact ⟨[], rfl, rfl⟩
  | label h0 hlen _ ih =>
      obtain ⟨labels, hlabels, hcount⟩ := ih
      obtain ⟨name, hstep⟩ := readLabels_step h0 hlen hlabels
      exact ⟨name :: labels, hstep, by rw [List.length_cons, hcount]⟩

/-- Reading the labels never faults, and succeeds only on terminated ones. -/
theorem readLabels_cases (lowmem : Bool) (n : ℕ) (f : List UInt8) :
    readLabels lowmem n f = .ok none ∨
    ∃ labels rest, readLabels lowmem n f = .ok (some (labels, rest)) ∧ labels.length = n ∧
      Labels n f rest := by
  induction n generalizing f with
  | zero => exact Or.inr ⟨[], f, rfl, rfl, .done f⟩
  | succ n ih =>
      rcases readCstr_cases [] f (by decide : ([] : List UInt8).length < maxLineLength) with
        ⟨label, rest, rfl, h0, hlen⟩ | ⟨k, buf, rest, hread, hbad⟩
      · rw [List.length_nil, Nat.zero_add] at hlen
        rcases ih rest with hnone | ⟨labels, rest', hsome, hcount, hlabels⟩
        · obtain ⟨name, hstep⟩ := readLabels_step h0 hlen hnone
          exact Or.inl hstep
        · obtain ⟨name, hstep⟩ := readLabels_step h0 hlen hsome
          exact Or.inr ⟨name :: labels, rest', hstep, by rw [List.length_cons, hcount],
            .label h0 hlen hlabels⟩
      · left
        rw [readLabels]
        refine bind_eq_ok_iff.mpr ⟨_, hread, ?_⟩
        dsimp only
        rw [if_pos (badLabel_of hbad)]
        rfl

end Reading

section Records

variable {lowmem little : Bool} {iconv : Text → Option Text}

theorem freadWord_length {f rest : List UInt8} {x : UInt32}
    (h : freadWord little f = some (x, rest)) : rest.length < f.length := by
  rcases freadWord_cases little f with hf | ⟨bytes, w, rest', rfl, hw⟩
  · cases hf.symm.trans h
  · obtain ⟨y, hy, -⟩ := freadWord_word little hw rest'
    obtain ⟨a, b, c, d, rfl, -⟩ := hw
    obtain ⟨-, rfl⟩ := Prod.mk.inj (Option.some.inj (hy.symm.trans h))
    rw [List.length_append]
    exact Nat.lt_add_of_pos_left (List.length_pos_of_mem List.mem_cons_self)

/-- One turn of the loop of versions 1 and 2 ends it, or uses up a record and appends its range.
It does not fault. -/
theorem recordLoop_turn (f : List UInt8) (b : Table) :
    (∀ fuel, recordLoop lowmem little iconv (fuel + 1) f b = .ok b) ∨
    ∃ rest b', rest.length < f.length ∧ ∀ fuel,
      recordLoop lowmem little iconv (fuel + 1) f b =
        recordLoop lowmem little iconv fuel rest b' := by
  rcases readCstr_cases [] f (by decide : ([] : List UInt8).length < maxLineLength) with
    ⟨label, rest, rfl, h0, hlen⟩ | ⟨k, buf, rest, hread, hbad⟩
  · rw [List.length_nil, Nat.zero_add] at hlen
    have hread := readCstr_label h0 [] rest (by simpa using hlen)
    have hgood : ¬ badLabel ((([] ++ (label ++ [0])).length : ℕ) : ℤ) = true := by
      rw [badLabel_label hlen]
      decide
    cases hip1 : freadWord little rest with
    | none =>
        refine Or.inl fun fuel => ?_
        rw [recordLoop, hread]
        change (if _ then _ else _) = _
        rw [if_neg hgood, hip1]
        rfl
    | some r1 =>
        cases hip2 : freadWord little r1.2 with
        | none =>
            refine Or.inl fun fuel => ?_
            rw [recordLoop, hread]
            change (if _ then _ else _) = _
            rw [if_neg hgood, hip1]
            dsimp only
            rw [hip2]
            rfl
        | some r2 =>
            obtain ⟨name, hname⟩ := exists_useLabel lowmem label
            refine Or.inr ⟨r2.2,
              appendRange lowmem iconv b ⟨ntohl little r1.1, ntohl little r2.1, name⟩, ?_, ?_⟩
            · have hlt1 := freadWord_length hip1
              have hlt2 := freadWord_length hip2
              rw [List.length_append, List.length_cons]
              omega
            · intro fuel
              rw [recordLoop, hread]
              change (if _ then _ else _) = _
              rw [if_neg hgood, hip1]
              dsimp only
              rw [hip2]
              dsimp only
              rw [hname]
              rfl
  · refine Or.inl fun fuel => ?_
    rw [recordLoop, hread]
    change (if _ then _ else _) = _
    rw [if_pos (badLabel_of hbad)]
    rfl

/-- The records of versions 1 and 2 are read without a fault. -/
theorem exists_recordLoop (fuel : ℕ) (f : List UInt8) (b : Table) :
    ∃ b', recordLoop lowmem little iconv fuel f b = .ok b' := by
  induction fuel generalizing f b with
  | zero => exact ⟨b, rfl⟩
  | succ fuel ih =>
      rcases @recordLoop_turn lowmem little iconv f b with hstop | ⟨rest, b', -, hturn⟩
      · exact ⟨b, hstop fuel⟩
      · rw [hturn]
        exact ih rest b'

variable {nlabels : UInt32} {labels : List Text}

/-- A complete record of version 3. -/
theorem indexedLoop_record {i p q : List UInt8} {idx lo hi : UInt32} (hi' : Word i idx)
    (hp : Word p lo) (hq : Word q hi) (cnt : ℕ) (rest : List UInt8) (b : Table) :
    indexedLoop lowmem little iconv nlabels labels (cnt + 1) (i ++ (p ++ (q ++ rest))) b =
      if idx > nlabels then .ok (-1, b)
      else fetchLabel lowmem labels idx >>= fun name =>
        indexedLoop lowmem little iconv nlabels labels cnt rest
          (appendRange lowmem iconv b ⟨lo, hi, name⟩) := by
  obtain ⟨x, hx, rfl⟩ := freadWord_word little hi' (p ++ (q ++ rest))
  obtain ⟨y, hy, rfl⟩ := freadWord_word little hp (q ++ rest)
  obtain ⟨z, hz, rfl⟩ := freadWord_word little hq rest
  simp only [indexedLoop, hx, hy, hz]

/-- An incomplete record ends the loop. -/
theorem indexedLoop_short {f : List UInt8} (cnt : ℕ) (b : Table)
    (h : ∀ i p q rest idx lo hi, Word i idx → Word p lo → Word q hi →
      f ≠ i ++ (p ++ (q ++ rest))) :
    indexedLoop lowmem little iconv nlabels labels (cnt + 1) f b = .ok (-1, b) := by
  rw [indexedLoop]
  rcases freadWord_cases little f with hf | ⟨i, idx, f, rfl, hi⟩
  · rw [hf]
  obtain ⟨x, hx, rfl⟩ := freadWord_word little hi f
  rw [hx]
  dsimp only
  split_ifs
  · rfl
  rcases freadWord_cases little f with hf | ⟨p, lo, f, rfl, hp⟩
  · rw [hf]
  obtain ⟨y, hy, rfl⟩ := freadWord_word little hp f
  rw [hy]
  dsimp only
  rcases freadWord_cases little f with hf | ⟨q, hi', f, rfl, hq⟩
  · rw [hf]
  exact absurd rfl (h i p q f _ _ _ hi hp hq)

theorem exists_fetchLabel (hlabels : lowmem = false → labels.length = nlabels.toNat)
    {idx : UInt32} (h : lowmem = true ∨ idx < nlabels) :
    ∃ name, fetchLabel lowmem labels idx = .ok name := by
  cases lowmem with
  | true => exact ⟨[], rfl⟩
  | false =>
      have hlt : idx.toNat < labels.length := by
        rw [hlabels rfl]
        exact UInt32.lt_iff_toNat_lt.mp (h.resolve_left (by decide))
      refine ⟨labels[idx.toNat], ?_⟩
      rw [fetchLabel, if_neg (by decide), List.getElem?_eq_getElem hlt]

theorem fetchLabel_past (hlabels : labels.length = nlabels.toNat) :
    fetchLabel false labels nlabels = .error (.label nlabels.toNat) := by
  rw [fetchLabel, if_neg (by decide), List.getElem?_eq_none (by rw [hlabels])]

/-- With as many labels as announced, the only fault is an index equal to their number. -/
theorem indexedLoop_cases (hlabels : lowmem = false → labels.length = nlabels.toNat) (cnt : ℕ)
    (f : List UInt8) (b : Table) :
    (∃ r, indexedLoop lowmem little iconv nlabels labels cnt f b = .ok r) ∨
    (lowmem = false ∧ ReachesPast nlabels cnt f ∧
      ∃ i, indexedLoop lowmem little iconv nlabels labels cnt f b = .error (.label i)) := by
  induction cnt generalizing f b with
  | zero => exact Or.inl ⟨_, rfl⟩
  | succ cnt ih =>
      by_cases hrecord : ∃ i p q rest idx lo hi, Word i idx ∧ Word p lo ∧ Word q hi ∧
          f = i ++ (p ++ (q ++ rest))
      · obtain ⟨i, p, q, rest, idx, lo, hi, hi', hp, hq, rfl⟩ := hrecord
        rw [indexedLoop_record hi' hp hq]
        by_cases hgt : idx > nlabels
        · exact Or.inl ⟨_, if_pos hgt⟩
        rw [if_neg hgt]
        by_cases hfetch : lowmem = true ∨ idx < nlabels
        · obtain ⟨name, hname⟩ := exists_fetchLabel hlabels hfetch
          rcases ih rest (appendRange lowmem iconv b ⟨lo, hi, name⟩) with
            ⟨r, hr⟩ | ⟨hlowmem, hreach, j, hj⟩
          · exact Or.inl ⟨r, bind_eq_ok_iff.mpr ⟨name, hname, hr⟩⟩
          · have hlt : idx < nlabels := hfetch.resolve_left (by simp [hlowmem])
            exact Or.inr ⟨hlowmem, .later hi' hlt hp hq hreach, j,
              bind_eq_error_iff.mpr (Or.inr ⟨name, hname, hj⟩)⟩
        · rw [not_or, Bool.not_eq_true] at hfetch
          obtain ⟨rfl, hnot⟩ := hfetch
          obtain rfl : idx = nlabels :=
            UInt32.le_antisymm (UInt32.not_lt.mp hgt) (UInt32.not_lt.mp hnot)
          exact Or.inr ⟨rfl, .here rest hi' hp hq, _,
            bind_eq_error_iff.mpr (Or.inl (fetchLabel_past (hlabels rfl)))⟩
      · refine Or.inl ⟨_, indexedLoop_short cnt b ?_⟩
        intro i p q rest idx lo hi hi' hp hq heq
        exact hrecord ⟨i, p, q, rest, idx, lo, hi, hi', hp, hq, heq⟩

theorem indexedLoop_past {cnt : ℕ} {f : List UInt8} (h : ReachesPast nlabels cnt f)
    (hlabels : labels.length = nlabels.toNat) (b : Table) :
    ∃ i, indexedLoop false little iconv nlabels labels cnt f b = .error (.label i) := by
  induction h generalizing b with
  | here rest hi hp hq =>
      rw [indexedLoop_record hi hp hq, if_neg (UInt32.lt_irrefl _)]
      exact ⟨_, bind_eq_error_iff.mpr (Or.inl (fetchLabel_past hlabels))⟩
  | @later cnt i p q rest idx lo hi hi' hlt hp hq _ ih =>
      obtain ⟨name, hname⟩ := exists_fetchLabel (fun _ => hlabels) (Or.inr hlt : false = true ∨ _)
      obtain ⟨j, hj⟩ := ih (appendRange false iconv b ⟨lo, hi, name⟩)
      rw [indexedLoop_record hi' hp hq, if_neg (UInt32.not_lt.mpr (UInt32.le_of_lt hlt))]
      exact ⟨j, bind_eq_error_iff.mpr (Or.inr ⟨name, hname, hj⟩)⟩

end Records

section Version3

variable {host : Host}

/-- A negative number of labels cannot be allocated. -/
theorem malloc_labels {nlabels : UInt32} (h : host.malloc (labelSize nlabels) = true) :
    nlabels.toNat < 2 ^ 31 := by
  by_contra hlarge
  have hsize : 2 ^ 63 ≤ labelSize nlabels := by
    rw [labelSize, if_neg hlarge]
    omega
  rw [host.malloc_max _ hsize] at h
  cases h

theorem loadVersion3_cases (lowmem : Bool) (f : List UInt8) (b : Table) :
    (∃ r, loadVersion3 host lowmem f b = .ok r) ∨
    (lowmem = false ∧ IndexPastLabels host (p2bHeader ++ 3 :: f) ∧
      ∃ i, loadVersion3 host lowmem f b = .error (.label i)) := by
  rw [loadVersion3]
  rcases freadWord_cases host.little f with hf | ⟨n, nlabels, f, rfl, hn⟩
  · rw [hf]
    exact Or.inl ⟨_, rfl⟩
  obtain ⟨x, hx, rfl⟩ := freadWord_word host.little hn f
  rw [hx]
  dsimp only
  by_cases hmalloc : lowmem = false ∧ host.malloc (labelSize (ntohl host.little x)) = false
  · rw [if_pos hmalloc]
    exact Or.inl ⟨_, rfl⟩
  rw [if_neg hmalloc]
  rcases readLabels_cases lowmem (labelTurns (ntohl host.little x)) f with
    hnone | ⟨labels, rest, hsome, hcount, hlabels⟩
  · exact Or.inl ⟨_, bind_eq_ok_iff.mpr ⟨_, hnone, rfl⟩⟩
  rcases freadWord_cases host.little rest with hrest | ⟨c, cnt, rest, rfl, hc⟩
  · exact Or.inl ⟨_, bind_eq_ok_iff.mpr ⟨_, hsome, by dsimp only; rw [hrest]; rfl⟩⟩
  obtain ⟨y, hy, rfl⟩ := freadWord_word host.little hc rest
  have hturns : lowmem = false → (ntohl host.little x).toNat < 2 ^ 31 := by
    rintro rfl
    exact malloc_labels (by simpa using hmalloc)
  have hlength : lowmem = false → labels.length = (ntohl host.little x).toNat := by
    intro hlowmem
    rw [hcount, labelTurns, if_pos (hturns hlowmem)]
  rcases @indexedLoop_cases lowmem host.little (host.iconvOpen "UTF-8".toList) _ labels hlength
    (ntohl host.little y).toNat rest b with ⟨r, hr⟩ | ⟨rfl, hreach, i, hi⟩
  · exact Or.inl ⟨r, bind_eq_ok_iff.mpr ⟨_, hsome, by dsimp only; rw [hy]; exact hr⟩⟩
  · have hsmall := hturns rfl
    rw [labelTurns, if_pos hsmall] at hlabels
    have hsize : host.malloc (8 * (ntohl host.little x).toNat) := by
      rw [labelSize, if_pos hsmall] at hmalloc
      simpa using hmalloc
    refine Or.inr ⟨rfl, ⟨n, c, f, rest, _, _, rfl, hn, hsmall, hsize, hlabels, hc, hreach⟩, i, ?_⟩
    exact bind_eq_error_iff.mpr (Or.inr ⟨_, hsome, by dsimp only; rw [hy]; exact hi⟩)

theorem loadVersion3_past {f : List UInt8} (h : IndexPastLabels host (p2bHeader ++ 3 :: f))
    (b : Table) : ∃ i, loadVersion3 host false f b = .error (.label i) := by
  obtain ⟨n, c, f', rest, nlabels, cnt, hf, hn, hsmall, hsize, hlabels, hc, hreach⟩ := h
  obtain rfl : f = n ++ f' := by simpa using hf
  obtain ⟨x, hx, rfl⟩ := freadWord_word host.little hn f'
  obtain ⟨labels, hread, hcount⟩ := readLabels_labels false hlabels
  obtain ⟨y, hy, rfl⟩ := freadWord_word host.little hc rest
  obtain ⟨i, hi⟩ := @indexedLoop_past host.little (host.iconvOpen "UTF-8".toList) _ labels _ _
    hreach hcount b
  have hmalloc : ¬ (false = false ∧ host.malloc (labelSize (ntohl host.little x)) = false) := by
    rw [labelSize, if_pos hsmall, hsize]
    simp
  refine ⟨i, ?_⟩
  rw [loadVersion3, hx]
  dsimp only
  rw [if_neg hmalloc, labelTurns, if_pos hsmall]
  exact bind_eq_error_iff.mpr (Or.inr ⟨_, hread, by dsimp only; rw [hy]; exact hi⟩)

theorem loadlistBinary_version3 (lowmem : Bool) (f : List UInt8) (b : Table) :
    loadlistBinary host lowmem (some (p2bHeader ++ 3 :: f)) b = loadVersion3 host lowmem f b := by
  simp [loadlistBinary, p2bHeader]

theorem loadlistBinary_cases (lowmem : Bool) (content : List UInt8) (b : Table) :
    (∃ r, loadlistBinary host lowmem (some content) b = .ok r) ∨
    (lowmem = false ∧ IndexPastLabels host content ∧
      ∃ i, loadlistBinary host lowmem (some content) b = .error (.label i)) := by
  by_cases hheader : content.take 7 = p2bHeader
  · have hcontent := List.take_append_drop 7 content
    rw [hheader] at hcontent
    cases hdrop : content.drop 7 with
    | nil => exact Or.inl ⟨(-1, b), by simp only [loadlistBinary, if_pos hheader, hdrop]⟩
    | cons version f =>
        rw [hdrop] at hcontent
        by_cases h3 : version = 3
        · subst h3
          rw [← hcontent, loadlistBinary_version3]
          exact loadVersion3_cases lowmem f b
        · left
          simp only [loadlistBinary, if_pos hheader, hdrop, if_neg h3]
          split_ifs
          · obtain ⟨b', hb'⟩ := @exists_recordLoop lowmem host.little
              (host.iconvOpen "ISO8859-1".toList) f.length f b
            exact ⟨_, bind_eq_ok_iff.mpr ⟨b', hb', rfl⟩⟩
          · obtain ⟨b', hb'⟩ := @exists_recordLoop lowmem host.little
              (host.iconvOpen "UTF-8".toList) f.length f b
            exact ⟨_, bind_eq_ok_iff.mpr ⟨b', hb', rfl⟩⟩
          · exact ⟨_, rfl⟩
  · exact Or.inl ⟨(-1, b), by simp only [loadlistBinary, if_neg hheader]⟩

end Version3

/-- Whatever the bytes are, writes into the label buffer stay inside and used labels are
terminated. A label behind the last is fetched if and only if the build has names, the file is of
version 3 and one of its records has the number of labels as its index. -/
theorem loadlistBinary_bounds (host : Host) (lowmem : Bool) (content : List UInt8) (b : Table) :
    (∀ fault, loadlistBinary host lowmem (some content) b = .error fault →
      ∃ i, fault = .label i) ∧
    ((∃ r, loadlistBinary host lowmem (some content) b = .ok r) ↔
      lowmem = true ∨ ¬ IndexPastLabels host content) := by
  constructor
  · intro fault hfault
    rcases loadlistBinary_cases lowmem content b with ⟨r, hr⟩ | ⟨-, -, i, hi⟩
    · cases hr.symm.trans hfault
    · exact ⟨i, (Except.error.inj (hi.symm.trans hfault)).symm⟩
  · constructor
    · rintro ⟨r, hr⟩
      by_contra hnot
      rw [not_or, Bool.not_eq_true, not_not] at hnot
      obtain ⟨rfl, hpast⟩ := hnot
      obtain ⟨n, c, f, rest, nlabels, cnt, rfl, -⟩ := id hpast
      obtain ⟨i, hi⟩ := loadVersion3_past hpast b
      rw [loadlistBinary_version3, hi] at hr
      cases hr
    · intro hsafe
      rcases loadlistBinary_cases lowmem content b with hr | ⟨hlowmem, hpast, -⟩
      · exact hr
      · rcases hsafe with hlow | hnot
        · rw [hlowmem] at hlow
          cases hlow
        · exact absurd hpast hnot

/-- One label and one record with the index 1: the second label is fetched. -/
theorem index_equal_to_labels :
    loadlistBinary ⟨true, (· < 2 ^ 63), by simp, fun _ => some⟩ false (some (p2bHeader ++
      [3, 0, 0, 0, 1, 97, 0, 0, 0, 0, 1, 0, 0, 0, 1, 1, 2, 3, 4, 1, 2, 3, 9])) blocklistInit =
    .error (.label 1) := by
  decide +kernel

end Dowse.Pgld
