import Dowse.ListBinary
import Dowse.ListText

/-!
# Binary lists and what they are read as

The three versions of the P2B format, written out: a header, and then either records
of a label and two addresses, or a table of labels followed by records that name a label
by its index. Labels are bytes that end with a zero, and the words are in network order.

A file in one of these formats is read back as the ranges that it was written from. It
is first tried as text, so this needs that none of its first hundred lines happens to be a
text range.
-/
namespace Dowse.Pgld
open CStrings Stdio Blocklist

/-- The bytes of a word in network order. -/
def wordBytes (w : UInt32) : List UInt8 :=
  [(w >>> 24).toUInt8, (w >>> 16).toUInt8, (w >>> 8).toUInt8, w.toUInt8]

theorem word_wordBytes (w : UInt32) : Word (wordBytes w) w := by
  refine ⟨_, _, _, _, rfl, UInt32.toNat_inj.mp ?_⟩
  have hw := w.toNat_lt
  have h8 : UInt32.toNat 8 % 32 = 8 := rfl
  have h16 : UInt32.toNat 16 % 32 = 16 := rfl
  have h24 : UInt32.toNat 24 % 32 = 24 := rfl
  simp only [bigEndian_toNat, UInt32.toNat_toUInt8, UInt32.toNat_shiftRight,
    Nat.shiftRight_eq_div_pow, h8, h16, h24]
  omega

/-- A label that fits the buffer of the reader. -/
structure Label where
  bytes : List UInt8
  nonzero : 0 ∉ bytes
  fits : bytes.length < maxLineLength
  deriving DecidableEq, Repr

structure Record where
  label : Label
  ipMin : UInt32
  ipMax : UInt32
  deriving DecidableEq, Repr

/-- A label table and records that refer to it, with counts that fit their words. -/
structure Indexed where
  labels : List Label
  records : List (Fin labels.length × UInt32 × UInt32)
  labels_lt : labels.length < 2 ^ 31
  records_lt : records.length < 2 ^ 32

inductive P2b
  | version1 (records : List Record)
  | version2 (records : List Record)
  | version3 (table : Indexed)

def Label.encode (l : Label) : List UInt8 := l.bytes ++ [0]

def Record.encode (r : Record) : List UInt8 :=
  r.label.encode ++ (wordBytes r.ipMin ++ wordBytes r.ipMax)

/-- The bytes of a record of version 3. -/
def recordBytes {m : ℕ} (r : Fin m × UInt32 × UInt32) : List UInt8 :=
  wordBytes (UInt32.ofNat r.1) ++ (wordBytes r.2.1 ++ wordBytes r.2.2)

def Indexed.encode (t : Indexed) : List UInt8 :=
  wordBytes (UInt32.ofNat t.labels.length) ++ (t.labels.flatMap Label.encode ++
    (wordBytes (UInt32.ofNat t.records.length) ++ t.records.flatMap recordBytes))

def P2b.encode : P2b → List UInt8
  | .version1 records => p2bHeader ++ 1 :: records.flatMap Record.encode
  | .version2 records => p2bHeader ++ 2 :: records.flatMap Record.encode
  | .version3 table => p2bHeader ++ 3 :: table.encode

/-- The name that a range gets in this build. -/
def Label.text (lowmem : Bool) (l : Label) : Text := if lowmem then [] else byteText l.bytes

def P2b.ranges (lowmem : Bool) : P2b → List Range
  | .version1 records | .version2 records =>
      records.map fun r => ⟨r.ipMin, r.ipMax, r.label.text lowmem⟩
  | .version3 table => table.records.map fun r =>
      ⟨r.2.1, r.2.2, (table.labels.get r.1).text lowmem⟩

def P2b.charset : P2b → Text
  | .version1 _ => "ISO8859-1".toList
  | _ => "UTF-8".toList

/-- The table of labels can be allocated, where the build has one. -/
def P2b.Allocates (host : Host) (lowmem : Bool) : P2b → Prop
  | .version3 table => lowmem = true ∨ host.malloc (8 * table.labels.length) = true
  | _ => True

section Reading
variable {lowmem little : Bool} {iconv : Text → Option Text}

theorem nul_notMem_byteText {bytes : List UInt8} (h : 0 ∉ bytes) : '\x00' ∉ byteText bytes := by
  intro hc
  obtain ⟨byte, hbyte, hzero⟩ := List.mem_map.mp hc
  have hlt := byte.toNat_lt
  have hvalid : byte.toNat.isValidChar := .inl (by omega)
  have hnat : byte.toNat = (0 : UInt8).toNat := by
    have htoNat := congrArg Char.toNat hzero
    rw [Char.ofNat, dif_pos hvalid] at htoNat
    exact htoNat
  exact h (UInt8.toNat_inj.mp hnat ▸ hbyte)

theorem useLabel_text (l : Label) :
    useLabel lowmem ([] ++ (l.bytes ++ [0])) = .ok (l.text lowmem) := by
  cases lowmem with
  | true => rfl
  | false =>
      have hcstr : cstr (byteText (l.bytes ++ [0])) = byteText l.bytes := by
        have htext : byteText (l.bytes ++ [0]) = byteText l.bytes ++ ['\x00'] := List.map_append
        rw [htext, cstr, List.takeWhile_append_of_pos, List.takeWhile_cons_of_neg (by decide),
          List.append_nil]
        intro c hc
        have hne : c ≠ '\x00' := fun hzero => nul_notMem_byteText l.nonzero (hzero ▸ hc)
        simpa using hne
      rw [useLabel, if_neg (by decide), if_pos (by simp), List.nil_append, hcstr]
      rfl

theorem readCstr_encode (l : Label) (rest : List UInt8) :
    readCstr maxLineLength maxLineLength [] (l.encode ++ rest) =
      .ok (((([] ++ (l.bytes ++ [0])).length : ℕ) : ℤ), [] ++ (l.bytes ++ [0]), rest) := by
  have hread := readCstr_label l.nonzero [] rest (by simpa using l.fits)
  rwa [Label.encode, List.append_assoc]

/-- One turn of the loop of versions 1 and 2 on a record. -/
theorem recordLoop_record (l : Label) {p q : List UInt8} {lo hi : UInt32} (hp : Word p lo)
    (hq : Word q hi) (fuel : ℕ) (rest : List UInt8) (b : Table) :
    recordLoop lowmem little iconv (fuel + 1) (l.encode ++ (p ++ (q ++ rest))) b =
      recordLoop lowmem little iconv fuel rest
        (appendRange lowmem iconv b ⟨lo, hi, l.text lowmem⟩) := by
  obtain ⟨x, hx, hxw⟩ := freadWord_word little hp (q ++ rest)
  obtain ⟨y, hy, hyw⟩ := freadWord_word little hq rest
  have hgood : ¬ badLabel ((([] ++ (l.bytes ++ [0])).length : ℕ) : ℤ) = true := by
    rw [badLabel_label l.fits]
    decide
  rw [recordLoop, readCstr_encode]
  change (if _ then _ else _) = _
  rw [if_neg hgood, hx]
  dsimp only
  rw [hy]
  dsimp only
  rw [useLabel_text, hxw, hyw]
  rfl

theorem readLabels_encode (labels : List Label) (rest : List UInt8) :
    readLabels lowmem labels.length (labels.flatMap Label.encode ++ rest) =
      .ok (some (labels.map (Label.text lowmem), rest)) := by
  induction labels with
  | nil => rfl
  | cons l labels ih =>
      have hgood : ¬ badLabel ((([] ++ (l.bytes ++ [0])).length : ℕ) : ℤ) = true := by
        rw [badLabel_label l.fits]
        decide
      rw [List.length_cons, readLabels, List.flatMap_cons, List.append_assoc, readCstr_encode]
      change (if _ then _ else _) = _
      rw [if_neg hgood, useLabel_text, ih]
      rfl

/-- One turn of the loop of version 3 on a record. -/
theorem indexedLoop_recordBytes {t : Indexed} {nlabels : UInt32}
    (hnlabels : nlabels.toNat = t.labels.length) (r : Fin t.labels.length × UInt32 × UInt32)
    (cnt : ℕ) (rest : List UInt8) (b : Table) :
    indexedLoop lowmem little iconv nlabels (t.labels.map (Label.text lowmem)) (cnt + 1)
        (recordBytes r ++ rest) b =
      indexedLoop lowmem little iconv nlabels (t.labels.map (Label.text lowmem)) cnt rest
        (appendRange lowmem iconv b ⟨r.2.1, r.2.2, (t.labels.get r.1).text lowmem⟩) := by
  have hidx : (UInt32.ofNat r.1).toNat = r.1 := by
    have hlt := r.1.isLt
    have hsize := t.labels_lt
    rw [UInt32.toNat_ofNat']
    exact Nat.mod_eq_of_lt (by omega)
  have hle : ¬ UInt32.ofNat r.1 > nlabels := by
    rw [gt_iff_lt, UInt32.lt_iff_toNat_lt, hidx, hnlabels]
    exact Nat.not_lt_of_lt r.1.isLt
  have hfetch : fetchLabel lowmem (t.labels.map (Label.text lowmem)) (UInt32.ofNat r.1) =
      .ok ((t.labels.get r.1).text lowmem) := by
    cases lowmem with
    | true => rfl
    | false => simp [fetchLabel, hidx]
  rw [recordBytes, List.append_assoc, List.append_assoc,
    indexedLoop_record (word_wordBytes _) (word_wordBytes _) (word_wordBytes _), if_neg hle, hfetch]
  rfl

theorem indexedLoop_encode {t : Indexed} {nlabels : UInt32}
    (hnlabels : nlabels.toNat = t.labels.length)
    (records : List (Fin t.labels.length × UInt32 × UInt32)) (b : Table) :
    indexedLoop lowmem little iconv nlabels (t.labels.map (Label.text lowmem)) records.length
        (records.flatMap recordBytes) b =
      .ok (0, (records.map fun r => ⟨r.2.1, r.2.2, (t.labels.get r.1).text lowmem⟩).foldl
        (appendRange lowmem iconv) b) := by
  induction records generalizing b with
  | nil => rfl
  | cons r records ih =>
      rw [List.length_cons, List.flatMap_cons, indexedLoop_recordBytes hnlabels]
      exact ih _

/-- The counts of a table fit their words. -/
theorem Indexed.counts (t : Indexed) :
    (UInt32.ofNat t.labels.length).toNat = t.labels.length ∧
      (UInt32.ofNat t.records.length).toNat = t.records.length := by
  have hlt := t.labels_lt
  rw [UInt32.toNat_ofNat', UInt32.toNat_ofNat']
  exact ⟨Nat.mod_eq_of_lt (by omega), Nat.mod_eq_of_lt t.records_lt⟩

/-- The file behind the number of labels. -/
theorem loadVersion3_labels {host : Host} {t : Indexed}
    (h : lowmem = true ∨ host.malloc (8 * t.labels.length) = true) (f : List UInt8) (b : Table) :
    loadVersion3 host lowmem (wordBytes (UInt32.ofNat t.labels.length) ++ f) b =
      (readLabels lowmem t.labels.length f >>= fun read =>
        read.elim (pure (-1, b)) fun labels =>
          (freadWord host.little labels.2).elim (pure (0, b)) fun cnt =>
            indexedLoop lowmem host.little (host.iconvOpen "UTF-8".toList)
              (UInt32.ofNat t.labels.length) labels.1 (ntohl host.little cnt.1).toNat cnt.2 b) := by
  have hmalloc : ¬ (lowmem = false ∧
      host.malloc (labelSize (UInt32.ofNat t.labels.length)) = false) := by
    rw [labelSize, t.counts.1, if_pos t.labels_lt]
    rcases h with rfl | h
    · simp
    · simp [h]
  obtain ⟨x, hx, hxw⟩ :=
    freadWord_word host.little (word_wordBytes (UInt32.ofNat t.labels.length)) f
  rw [loadVersion3, hx]
  dsimp only
  rw [hxw, if_neg hmalloc, labelTurns, t.counts.1, if_pos t.labels_lt]
  refine congrArg (readLabels lowmem t.labels.length f >>= ·) (funext fun read => ?_)
  rcases read with _ | labels
  · rfl
  · dsimp only [Option.elim_some]
    cases freadWord host.little labels.2 <;> rfl

theorem loadVersion3_encode {host : Host} {t : Indexed}
    (h : lowmem = true ∨ host.malloc (8 * t.labels.length) = true) (b : Table) :
    loadVersion3 host lowmem t.encode b =
      .ok (0, ((P2b.version3 t).ranges lowmem).foldl
        (appendRange lowmem (host.iconvOpen "UTF-8".toList)) b) := by
  obtain ⟨y, hy, hyw⟩ := freadWord_word host.little
    (word_wordBytes (UInt32.ofNat t.records.length)) (t.records.flatMap recordBytes)
  rw [Indexed.encode, loadVersion3_labels h]
  refine bind_eq_ok_iff.mpr ⟨_, readLabels_encode t.labels _, ?_⟩
  rw [Option.elim_some, hy, Option.elim_some, hyw, t.counts.2]
  exact indexedLoop_encode t.counts.1 t.records b

end Reading

section Cut
variable {lowmem little : Bool} {iconv : Text → Option Text}

theorem freadWord_short {f : List UInt8} (h : f.length < 4) : freadWord little f = none := by
  rcases freadWord_cases little f with hf | ⟨bytes, w, rest, rfl, a, b, c, d, rfl, -⟩
  · exact hf
  · simp only [List.cons_append, List.nil_append, List.length_cons] at h
    omega

theorem length_wordBytes (w : UInt32) : (wordBytes w).length = 4 := rfl

theorem length_label_encode (l : Label) : l.encode.length = l.bytes.length + 1 := by
  simp [Label.encode]

/-- In front of its end a label has no terminator. -/
theorem readCstr_cut (l : Label) {k : ℕ} (hk : k < l.encode.length) :
    ∃ n buf rest, readCstr maxLineLength maxLineLength [] (l.encode.take k) = .ok (n, buf, rest) ∧
      badLabel n = true := by
  have hzero : 0 ∉ l.encode.take k := by
    rw [length_label_encode] at hk
    rw [Label.encode, List.take_append_of_le_length (by omega)]
    exact fun hmem => l.nonzero (List.mem_of_mem_take hmem)
  rcases readCstr_cases [] (l.encode.take k)
      (by decide : ([] : List UInt8).length < maxLineLength) with
    ⟨label, rest, heq, -⟩ | ⟨n, buf, rest, hread, hbad⟩
  · rw [heq] at hzero
    simp at hzero
  · exact ⟨n, buf, rest, hread, badLabel_of hbad⟩

/-- How many of the records end within this number of bytes. -/
def complete : ℕ → List Record → ℕ
  | _, [] => 0
  | n, r :: records =>
      if r.encode.length ≤ n then complete (n - r.encode.length) records + 1 else 0

/-- A record that is cut short ends the loop. -/
theorem recordLoop_cut_record (r : Record) {n : ℕ} (hn : n < r.encode.length) (fuel : ℕ)
    (b : Table) : recordLoop lowmem little iconv fuel (r.encode.take n) b = .ok b := by
  cases fuel with
  | zero => rfl
  | succ fuel =>
      by_cases hlabel : n < r.label.encode.length
      · obtain ⟨k, buf, rest, hread, hbad⟩ := readCstr_cut r.label hlabel
        rw [Record.encode, List.take_append_of_le_length (Nat.le_of_lt hlabel), recordLoop, hread]
        change (if _ then _ else _) = _
        rw [if_pos hbad]
        rfl
      · have hgood : ¬ badLabel ((([] ++ (r.label.bytes ++ [0])).length : ℕ) : ℤ) = true := by
          rw [badLabel_label r.label.fits]
          decide
        rw [Record.encode, List.take_append, List.take_of_length_le (Nat.not_lt.mp hlabel),
          recordLoop, readCstr_encode]
        change (if _ then _ else _) = _
        rw [if_neg hgood]
        have hshort : ((wordBytes r.ipMin ++ wordBytes r.ipMax).take
            (n - r.label.encode.length)).length < 8 := by
          rw [Record.encode] at hn
          simp only [List.length_append, length_wordBytes, List.length_take] at hn ⊢
          omega
        generalize (wordBytes r.ipMin ++ wordBytes r.ipMax).take _ = f at hshort ⊢
        rcases freadWord_cases little f with hf | ⟨bytes, w, rest, rfl, hw⟩
        · rw [hf]
          rfl
        · obtain ⟨x, hx, -⟩ := freadWord_word little hw rest
          obtain ⟨_, _, _, _, rfl, -⟩ := hw
          rw [hx]
          dsimp only
          have hrest : rest.length < 4 := by
            simp only [List.cons_append, List.nil_append, List.length_cons] at hshort
            omega
          rw [freadWord_short hrest]
          rfl

/-- The loop reads the complete records in front of the cut. -/
theorem recordLoop_cut (records : List Record) {n fuel : ℕ} (hfuel : complete n records ≤ fuel)
    (b : Table) :
    recordLoop lowmem little iconv fuel ((records.flatMap Record.encode).take n) b =
      .ok (((records.take (complete n records)).map
        fun r => ⟨r.ipMin, r.ipMax, r.label.text lowmem⟩).foldl (appendRange lowmem iconv) b) := by
  induction records generalizing n fuel b with
  | nil =>
      rw [List.flatMap_nil, List.take_nil]
      cases fuel <;> rfl
  | cons r records ih =>
      rw [complete] at hfuel
      rw [List.flatMap_cons, complete]
      split_ifs at hfuel ⊢ with hfits
      · obtain ⟨fuel, rfl⟩ := Nat.exists_eq_add_of_le' (Nat.le_of_add_left_le hfuel)
        rw [List.take_append, List.take_of_length_le hfits, Record.encode, List.append_assoc,
          List.append_assoc, recordLoop_record r.label (word_wordBytes _) (word_wordBytes _),
          ← Record.encode, ih (Nat.le_of_succ_le_succ hfuel)]
        rfl
      · rw [List.take_append_of_le_length (Nat.le_of_not_le hfits)]
        exact recordLoop_cut_record r (Nat.not_le.mp hfits) _ b

theorem length_record_encode_pos (r : Record) : 0 < r.encode.length := by
  simp [Record.encode, Label.encode, length_wordBytes]

theorem complete_le_length (n : ℕ) (records : List Record) :
    complete n records ≤ ((records.flatMap Record.encode).take n).length := by
  induction records generalizing n with
  | nil => exact Nat.zero_le _
  | cons r records ih =>
      rw [complete]
      split_ifs with hfits
      · have hpos := length_record_encode_pos r
        have hrest := ih (n - r.encode.length)
        rw [List.flatMap_cons, List.take_append, List.take_of_length_le hfits, List.length_append]
        omega
      · exact Nat.zero_le _

theorem complete_length (records : List Record) :
    complete (records.flatMap Record.encode).length records = records.length := by
  induction records with
  | nil => rfl
  | cons r records ih =>
      rw [complete, List.flatMap_cons, List.length_append, if_pos (Nat.le_add_right _ _),
        Nat.add_sub_cancel_left, ih, List.length_cons]

/-- The files of versions 1 and 2 behind their header. -/
theorem recordLoop_file (records : List Record) (n : ℕ) (b : Table) :
    (recordLoop lowmem little iconv ((records.flatMap Record.encode).take n).length
        ((records.flatMap Record.encode).take n) b >>= fun b => pure ((0 : ℤ), b)) =
      .ok (0, ((records.take (complete n records)).map
        fun r => ⟨r.ipMin, r.ipMax, r.label.text lowmem⟩).foldl (appendRange lowmem iconv) b) := by
  rw [recordLoop_cut records (complete_le_length n records)]
  rfl

theorem readLabels_cut (labels : List Label) {k : ℕ}
    (hk : k < (labels.flatMap Label.encode).length) :
    readLabels lowmem labels.length ((labels.flatMap Label.encode).take k) = .ok none := by
  induction labels generalizing k with
  | nil => simp at hk
  | cons l labels ih =>
      rw [List.flatMap_cons, List.length_append] at hk
      rw [List.flatMap_cons, List.length_cons, readLabels]
      by_cases hlabel : k < l.encode.length
      · obtain ⟨n, buf, rest, hread, hbad⟩ := readCstr_cut l hlabel
        rw [List.take_append_of_le_length (Nat.le_of_lt hlabel), hread]
        change (if _ then _ else _) = _
        rw [if_pos hbad]
        rfl
      · have hgood : ¬ badLabel ((([] ++ (l.bytes ++ [0])).length : ℕ) : ℤ) = true := by
          rw [badLabel_label l.fits]
          decide
        rw [List.take_append, List.take_of_length_le (Nat.not_lt.mp hlabel), readCstr_encode]
        change (if _ then _ else _) = _
        rw [if_neg hgood, useLabel_text, ih (by omega)]
        rfl

theorem length_recordBytes {m : ℕ} (r : Fin m × UInt32 × UInt32) :
    (recordBytes r).length = 12 := rfl

theorem indexedLoop_cut {t : Indexed} {nlabels : UInt32}
    (hnlabels : nlabels.toNat = t.labels.length)
    (records : List (Fin t.labels.length × UInt32 × UInt32)) {k : ℕ}
    (hk : k < (records.flatMap recordBytes).length) (b : Table) :
    ∃ b', indexedLoop lowmem little iconv nlabels (t.labels.map (Label.text lowmem)) records.length
      ((records.flatMap recordBytes).take k) b = .ok (-1, b') := by
  induction records generalizing k b with
  | nil => simp at hk
  | cons r records ih =>
      rw [List.flatMap_cons, List.length_append, length_recordBytes] at hk
      rw [List.flatMap_cons, List.length_cons]
      by_cases hrecord : k < 12
      · refine ⟨b, indexedLoop_short _ _ ?_⟩
        rintro i p q rest idx lo hi ⟨_, _, _, _, rfl, -⟩ ⟨_, _, _, _, rfl, -⟩
          ⟨_, _, _, _, rfl, -⟩ heq
        have hlength := congrArg List.length heq
        rw [List.take_append_of_le_length (by rw [length_recordBytes]; omega), List.length_take,
          length_recordBytes] at hlength
        simp only [List.length_append, List.length_cons, List.length_nil] at hlength
        omega
      · rw [List.take_append, List.take_of_length_le (by rw [length_recordBytes]; omega),
          indexedLoop_recordBytes hnlabels]
        exact ih (by rw [length_recordBytes]; omega) _

/-- A cut file of version 3 is refused, or has no records left to load. -/
theorem loadVersion3_cut {host : Host} {t : Indexed}
    (h : lowmem = true ∨ host.malloc (8 * t.labels.length) = true) {k : ℕ}
    (hk : k < t.encode.length) (b : Table) :
    ∃ ret b', loadVersion3 host lowmem (t.encode.take k) b = .ok (ret, b') ∧
      (ret = 0 → b' = b) := by
  simp only [Indexed.encode, List.length_append, length_wordBytes] at hk
  by_cases hcount : k < 4
  · refine ⟨-1, b, ?_, fun _ => rfl⟩
    rw [loadVersion3, freadWord_short]
    rw [List.length_take]
    omega
  rw [Indexed.encode, List.take_append, List.take_of_length_le (by rw [length_wordBytes]; omega),
    loadVersion3_labels h, length_wordBytes]
  by_cases hlabels : k - 4 < (t.labels.flatMap Label.encode).length
  · refine ⟨-1, b, ?_, fun _ => rfl⟩
    rw [List.take_append_of_le_length (Nat.le_of_lt hlabels), readLabels_cut _ hlabels]
    rfl
  rw [List.take_append, List.take_of_length_le (Nat.not_lt.mp hlabels)]
  generalize hm : k - 4 - (t.labels.flatMap Label.encode).length = m
  by_cases hword : m < 4
  · refine ⟨0, b, bind_eq_ok_iff.mpr ⟨_, readLabels_encode t.labels _, ?_⟩, fun _ => rfl⟩
    rw [Option.elim_some, freadWord_short]
    · rfl
    · rw [List.length_take]
      omega
  · rw [List.take_append, List.take_of_length_le (by rw [length_wordBytes]; omega),
      length_wordBytes]
    have hleft : m - 4 < (t.records.flatMap recordBytes).length := by omega
    obtain ⟨y, hy, hyw⟩ := freadWord_word host.little
      (word_wordBytes (UInt32.ofNat t.records.length))
      ((t.records.flatMap recordBytes).take (m - 4))
    obtain ⟨b', hb'⟩ := @indexedLoop_cut lowmem host.little (host.iconvOpen "UTF-8".toList) t _
      t.counts.1 t.records _ hleft b
    refine ⟨-1, b', bind_eq_ok_iff.mpr ⟨_, readLabels_encode t.labels _, ?_⟩, fun h => by cases h⟩
    rw [Option.elim_some, hy, Option.elim_some, hyw, t.counts.2]
    exact hb'

end Cut

/-- A binary list is read back as the ranges that it was written from. -/
theorem loadlistBinary_encode {host : Host} {lowmem : Bool} {p : P2b}
    (h : p.Allocates host lowmem) (b : Table) :
    loadlistBinary host lowmem (some p.encode) b =
      .ok (0, (p.ranges lowmem).foldl (appendRange lowmem (host.iconvOpen p.charset)) b) := by
  cases p with
  | version1 records =>
      have hfile := @recordLoop_file lowmem host.little (host.iconvOpen "ISO8859-1".toList) records
        (records.flatMap Record.encode).length b
      rw [complete_length, List.take_length, List.take_length] at hfile
      exact hfile
  | version2 records =>
      have hfile := @recordLoop_file lowmem host.little (host.iconvOpen "UTF-8".toList) records
        (records.flatMap Record.encode).length b
      rw [complete_length, List.take_length, List.take_length] at hfile
      exact hfile
  | version3 table => exact (loadlistBinary_version3 lowmem _ b).trans (loadVersion3_encode h b)

/-- None of the pieces that the text parser looks at before it gives up is a text range. -/
def NoText (content : List UInt8) : Prop :=
  ∀ buf ∈ (lines (maxLineLength - 1) (byteText content).length (byteText content)).take 100,
    lineRange buf = none

/-- A binary list that does not look like a text list is loaded as the ranges that it was written
from, whatever was loaded before. -/
theorem loadList_p2b {host : Host} {lowmem : Bool} {p : P2b} (halloc : p.Allocates host lowmem)
    (hbinary : NoText p.encode) (charset : Option Text) (b : Table) :
    ∃ b', loadList host lowmem (some p.encode) (some p.encode) charset b = .ok (0, b') ∧
      b'.entries = b.entries ++
        (p.ranges lowmem).map (stored lowmem (host.iconvOpen p.charset)) := by
  have hascii : loadlistAscii lowmem (host.iconvOpen (charset.getD "ISO8859-1".toList))
      (some (byteText p.encode)) b = (-1, b) := asciiLoop_late b hbinary
  have hclear := (Grows.refl b).clear
  refine ⟨_, ?_, (entries_foldl_appendRange _ _).trans (congrArg (· ++ _) hclear)⟩
  simp only [loadList, Option.map_some, hascii]
  rw [if_neg (by decide), if_neg (by decide), loadlistBinary_encode halloc]
  rfl

instance (content : List UInt8) : Decidable (NoText content) :=
  inferInstanceAs (Decidable (∀ buf ∈ _, _))

def plainHost : Host := ⟨true, (· < 2 ^ 63), by simp, fun _ => some⟩

/-- One label for two ranges. -/
def sharedLabel : P2b :=
  .version3 ⟨[⟨[97], by decide, by decide⟩], [(0, 16909060, 16909065), (0, 5, 9)], by decide,
    by decide⟩

theorem loadList_p2b_shared :
    ∃ b', loadList plainHost false (some sharedLabel.encode) (some sharedLabel.encode) none
        blocklistInit = .ok (0, b') ∧
      b'.entries = [⟨16909060, 16909065, some ['a'], 0⟩, ⟨5, 9, some ['a'], 0⟩] :=
  @loadList_p2b plainHost false sharedLabel (.inr (by decide)) (by decide +kernel) none
    blocklistInit

/-- How many ranges of a file that ends after this number of bytes are loaded. -/
def P2b.kept (n : ℕ) : P2b → ℕ
  | .version1 records | .version2 records => complete (n - 8) records
  | .version3 _ => 0

/-- What the binary parser makes of a file that ends too early. -/
theorem loadlistBinary_cut {host : Host} {lowmem : Bool} {p : P2b} (h : p.Allocates host lowmem)
    {n : ℕ} (hheader : 8 ≤ n) (hcut : n < p.encode.length) (b : Table) :
    ∃ ret b', loadlistBinary host lowmem (some (p.encode.take n)) b = .ok (ret, b') ∧
      (ret = 0 → b' = ((p.ranges lowmem).take (p.kept n)).foldl
        (appendRange lowmem (host.iconvOpen p.charset)) b) ∧ (ret ≠ 0 → p.kept n = 0) := by
  obtain ⟨n, rfl⟩ := Nat.exists_eq_add_of_le' hheader
  cases p with
  | version1 records =>
      refine ⟨0, _, recordLoop_file records n b, fun _ => ?_, fun h => absurd rfl h⟩
      rw [P2b.ranges, ← List.map_take]
      rfl
  | version2 records =>
      refine ⟨0, _, recordLoop_file records n b, fun _ => ?_, fun h => absurd rfl h⟩
      rw [P2b.ranges, ← List.map_take]
      rfl
  | version3 table =>
      have hlt : n < table.encode.length := by
        simpa [P2b.encode, p2bHeader] using hcut
      obtain ⟨ret, b', hload, hret⟩ := loadVersion3_cut h hlt b
      exact ⟨ret, b', (loadlistBinary_version3 lowmem _ b).trans hload, hret, fun _ => rfl⟩

/-- A binary list that ends too early is loaded up to its last complete record in versions 1 and
2, and not at all in version 3. -/
theorem loadList_cut {host : Host} {lowmem : Bool} {p : P2b} (halloc : p.Allocates host lowmem)
    {n : ℕ} (hheader : 8 ≤ n) (hcut : n < p.encode.length) (hbinary : NoText (p.encode.take n))
    (charset : Option Text) (b : Table) :
    ∃ ret b', loadList host lowmem (some (p.encode.take n)) (some (p.encode.take n)) charset b =
        .ok (ret, b') ∧
      b'.entries = b.entries ++ ((p.ranges lowmem).take (p.kept n)).map
        (stored lowmem (host.iconvOpen p.charset)) := by
  have hascii : loadlistAscii lowmem (host.iconvOpen (charset.getD "ISO8859-1".toList))
      (some (byteText (p.encode.take n))) b = (-1, b) := asciiLoop_late b hbinary
  have hclear := (Grows.refl b).clear
  obtain ⟨ret, b', hload, hzero, hnone⟩ :=
    loadlistBinary_cut halloc hheader hcut (blocklistClear b b.entries.length)
  simp only [loadList, Option.map_some, hascii]
  rw [if_neg (by decide), if_neg (by decide), hload]
  by_cases hret : ret = 0
  · refine ⟨0, b', by rw [hret]; rfl, ?_⟩
    rw [hzero hret, entries_foldl_appendRange, hclear]
  · refine ⟨-1, _, if_neg hret, ?_⟩
    rw [(grows_loadlistBinary hload).clear, hclear, hnone hret]
    simp

/-- Two records with an empty label. -/
def twoRecords : P2b :=
  .version1 [⟨⟨[], by decide, by decide⟩, 1, 2⟩, ⟨⟨[], by decide, by decide⟩, 5, 9⟩]

/-- The second record has lost its last byte. -/
theorem loadList_cut_twoRecords :
    ∃ ret b', loadList plainHost false (some (twoRecords.encode.take 25))
        (some (twoRecords.encode.take 25)) none blocklistInit = .ok (ret, b') ∧
      b'.entries = [⟨1, 2, some [], 0⟩] :=
  @loadList_cut plainHost false twoRecords trivial 25 (by decide) (by decide) (by decide +kernel)
    none blocklistInit

end Dowse.Pgld
