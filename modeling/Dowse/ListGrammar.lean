import Dowse.ListParser

/-!
# The lines of a text list

A line is read in the first of three forms that it has: a name, a colon and a range; a line of
`ipfilter.dat` with a level and a name; or a bare range. Each number is read by `%d`, so an octet
may have white space in front and a sign, and may be any number. The parser appends a range for
every line that has one of the forms, with the octets cut to 32 bits together.
-/
namespace Dowse.Pgld
open CStrings Strtol Blocklist Scanf

/-- Digits of a number up to 255. -/
structure Octet (t : Text) : Prop where
  digits : ∀ c ∈ t, c.isDigit
  ne_nil : t ≠ []
  le : decimal t ≤ 255

namespace Quad

def text (q : Quad) : Text := q.a ++ '.' :: (q.b ++ '.' :: (q.c ++ '.' :: q.d))

/-- Each part can be converted by `%d`. -/
def IsInts (q : Quad) : Prop := IsInt q.a ∧ IsInt q.b ∧ IsInt q.c ∧ IsInt q.d

def Plain (q : Quad) : Prop := Octet q.a ∧ Octet q.b ∧ Octet q.c ∧ Octet q.d

def value (q : Quad) : ℕ :=
  decimal q.a * 2 ^ 24 + decimal q.b * 2 ^ 16 + decimal q.c * 2 ^ 8 + decimal q.d

end Quad

/-- The text starts with an address, and its last number is not cut. -/
def StartsQuad (s : Text) (q : Quad) (rest : Text) : Prop :=
  q.IsInts ∧ s = q.text ++ rest ∧ NoDigit rest

/-- `name:a.b.c.d-a.b.c.d` -/
def P2pForm (line name : Text) (ip1 ip2 : Quad) : Prop :=
  ∃ s rest, line = name ++ ':' :: (ip1.text ++ '-' :: s) ∧ name ≠ [] ∧ ':' ∉ name ∧
    name.length < maxLabelLength ∧ ip1.IsInts ∧ StartsQuad s ip2 rest

/-- `a.b.c.d-a.b.c.d` -/
def RangeForm (line : Text) (ip1 ip2 : Quad) : Prop :=
  ∃ s rest, line = ip1.text ++ '-' :: s ∧ ip1.IsInts ∧ StartsQuad s ip2 rest

/-- `a.b.c.d - a.b.c.d , level , name`, where white space may also be missing and the range may have
several dashes and commas in its middle. -/
def DatForm (line : Text) (ip1 ip2 : Quad) (level name : Text) : Prop :=
  ∃ s₁ s₂ s₃ s₄ s₅ s₆ s₇ s₈ s₉ s₁₀ sep rest : Text,
    StartsQuad line ip1 s₁ ∧ SkipsSpace s₁ s₂ ∧
    StartsField s₂.length (· ∈ ['-', ',']) s₂ sep s₃ ∧ SkipsSpace s₃ s₄ ∧
    StartsQuad s₄ ip2 s₅ ∧ SkipsSpace s₅ (',' :: s₆) ∧ SkipsSpace s₆ s₇ ∧
    StartsInt s₇ level s₈ ∧ SkipsSpace s₈ (',' :: s₉) ∧ SkipsSpace s₉ s₁₀ ∧
    StartsField (maxLabelLength - 1) (· ≠ ':') s₁₀ name rest

/-- The name and the addresses of a line, in the first form that it has. A line of
`ipfilter.dat` blocks up to the level 127. -/
inductive ReadAs (line : Text) : Text → Quad → Quad → Prop
  | p2p {name : Text} {ip1 ip2 : Quad} : P2pForm line name ip1 ip2 → ReadAs line name ip1 ip2
  | dat {level name : Text} {ip1 ip2 : Quad} : (∀ name ip1 ip2, ¬ P2pForm line name ip1 ip2) →
      DatForm line ip1 ip2 level name → intValue level ≤ 127 → ReadAs line name ip1 ip2
  | range {ip1 ip2 : Quad} : (∀ name ip1 ip2, ¬ P2pForm line name ip1 ip2) →
      (∀ ip1 ip2 level name, ¬ DatForm line ip1 ip2 level name) → RangeForm line ip1 ip2 →
      ReadAs line [] ip1 ip2

section Forms

theorem quad_eq_some_iff {s rest : Text} {q : Quad} :
    quad s = some (q, rest) ↔ StartsQuad s q rest := by
  simp only [quad, Option.bind_eq_bind, Option.bind_eq_some_iff, Prod.exists, Option.pure_def,
    Option.some.injEq, Prod.mk.injEq, int_eq_some_iff, char_eq_some_iff]
  constructor
  · rintro ⟨a, s, ⟨ha, rfl, -⟩, s, rfl, b, s, ⟨hb, rfl, -⟩, s, rfl, c, s, ⟨hc, rfl, -⟩, s, rfl, d,
      rest, ⟨hd, rfl, hrest⟩, rfl, rfl⟩
    exact ⟨⟨ha, hb, hc, hd⟩, by simp [Quad.text], hrest⟩
  · rintro ⟨⟨ha, hb, hc, hd⟩, rfl, hrest⟩
    have hdot : ∀ s, NoDigit ('.' :: s) := noDigit_cons rfl
    refine ⟨q.a, _, ⟨ha, ?_, hdot _⟩, _, rfl, q.b, _, ⟨hb, rfl, hdot _⟩, _, rfl, q.c, _,
      ⟨hc, rfl, hdot _⟩, _, rfl, q.d, rest, ⟨hd, rfl, hrest⟩, rfl, rfl⟩
    simp [Quad.text]

theorem p2pLine_eq_some_iff {line name : Text} {ip1 ip2 : Quad} :
    p2pLine line = some (name, ip1, ip2) ↔ P2pForm line name ip1 ip2 := by
  simp only [p2pLine, Option.bind_eq_bind, Option.bind_eq_some_iff, Prod.exists, Option.pure_def,
    Option.some.injEq, Prod.mk.injEq, scanset_eq_some_iff, char_eq_some_iff, quad_eq_some_iff]
  constructor
  · rintro ⟨name, s, ⟨hne, rfl, hname, hlen, -⟩, s, rfl, ip1, s, ⟨h1, rfl, -⟩, s, rfl, ip2, rest,
      h2, rfl, rfl, rfl⟩
    refine ⟨s, rest, rfl, hne, fun hmem => ?_, Nat.lt_of_le_pred (by decide) hlen, h1, h2⟩
    exact absurd (hname _ hmem) (by decide)
  · rintro ⟨s, rest, rfl, hne, hname, hlen, h1, h2⟩
    refine ⟨name, _, ⟨hne, rfl, fun c hc => ?_, Nat.le_pred_of_lt hlen, Or.inr rfl⟩, _, rfl, ip1, _,
      ⟨h1, rfl, noDigit_cons rfl s⟩, s, rfl, ip2, rest, h2, rfl, rfl, rfl⟩
    exact decide_eq_true fun heq => hname (heq ▸ hc)

theorem rangeLine_eq_some_iff {line : Text} {ip1 ip2 : Quad} :
    rangeLine line = some (ip1, ip2) ↔ RangeForm line ip1 ip2 := by
  simp only [rangeLine, Option.bind_eq_bind, Option.bind_eq_some_iff, Prod.exists, Option.pure_def,
    Option.some.injEq, Prod.mk.injEq, char_eq_some_iff, quad_eq_some_iff]
  constructor
  · rintro ⟨ip1, s, ⟨h1, rfl, -⟩, s, rfl, ip2, rest, h2, rfl, rfl⟩
    exact ⟨s, rest, rfl, h1, h2⟩
  · rintro ⟨s, rest, rfl, h1, h2⟩
    exact ⟨ip1, _, ⟨h1, rfl, noDigit_cons rfl s⟩, s, rfl, ip2, rest, h2, rfl, rfl⟩

theorem datLine_eq_some_iff {line level name : Text} {ip1 ip2 : Quad} :
    datLine line = some (ip1, ip2, level, name) ↔ DatForm line ip1 ip2 level name := by
  simp only [datLine, Option.bind_eq_bind, Option.bind_eq_some_iff, Prod.exists, Option.pure_def,
    Option.some.injEq, Prod.mk.injEq, scanset_eq_some_iff, char_eq_some_iff, int_eq_some_iff,
    quad_eq_some_iff]
  constructor
  · rintro ⟨ip1, s₁, h1, sep, s₃, hsep, ip2, s₅, h2, s₆, hcomma, level, s₈, hlevel, s₉, hcomma',
      name, rest, hname, rfl, rfl, rfl, rfl⟩
    exact ⟨s₁, space s₁, s₃, space s₃, s₅, s₆, space s₆, s₈, s₉, space s₉, sep, rest, h1,
      space_eq_iff.mp rfl, hsep, space_eq_iff.mp rfl, h2, space_eq_iff.mp hcomma,
      space_eq_iff.mp rfl, hlevel, space_eq_iff.mp hcomma', space_eq_iff.mp rfl, hname⟩
  · rintro ⟨s₁, s₂, s₃, s₄, s₅, s₆, s₇, s₈, s₉, s₁₀, sep, rest, h1, hs₁, hsep, hs₃, h2, hs₅, hs₆,
      hlevel, hs₈, hs₉, hname⟩
    obtain rfl := space_eq_iff.mpr hs₁
    obtain rfl := space_eq_iff.mpr hs₃
    obtain rfl := space_eq_iff.mpr hs₆
    obtain rfl := space_eq_iff.mpr hs₉
    exact ⟨ip1, s₁, h1, sep, s₃, hsep, ip2, s₅, h2, s₆, space_eq_iff.mpr hs₅, level, s₈, hlevel, s₉,
      space_eq_iff.mpr hs₈, name, rest, hname, rfl, rfl, rfl, rfl⟩

theorem p2pLine_eq_none_iff {line : Text} :
    p2pLine line = none ↔ ∀ name ip1 ip2, ¬ P2pForm line name ip1 ip2 := by
  simp only [Option.eq_none_iff_forall_ne_some, Prod.forall, ne_eq, p2pLine_eq_some_iff]

theorem datLine_eq_none_iff {line : Text} :
    datLine line = none ↔ ∀ ip1 ip2 level name, ¬ DatForm line ip1 ip2 level name := by
  simp only [Option.eq_none_iff_forall_ne_some, Prod.forall, ne_eq, datLine_eq_some_iff]

theorem readAs_iff {line name : Text} {ip1 ip2 : Quad} :
    ReadAs line name ip1 ip2 ↔ p2pLine line = some (name, ip1, ip2) ∨
      (p2pLine line = none ∧ ∃ level, datLine line = some (ip1, ip2, level, name) ∧
        intValue level ≤ 127) ∨
      (p2pLine line = none ∧ datLine line = none ∧ rangeLine line = some (ip1, ip2) ∧
        name = []) := by
  constructor
  · intro h
    cases h with
    | p2p h => exact Or.inl (p2pLine_eq_some_iff.mpr h)
    | dat hnone h hlevel =>
        exact Or.inr (Or.inl ⟨p2pLine_eq_none_iff.mpr hnone, _, datLine_eq_some_iff.mpr h, hlevel⟩)
    | range hnone hnone' h =>
        exact Or.inr (Or.inr ⟨p2pLine_eq_none_iff.mpr hnone, datLine_eq_none_iff.mpr hnone',
          rangeLine_eq_some_iff.mpr h, rfl⟩)
  · rintro (h | ⟨hnone, level, h, hlevel⟩ | ⟨hnone, hnone', h, rfl⟩)
    · exact .p2p (p2pLine_eq_some_iff.mp h)
    · exact .dat (p2pLine_eq_none_iff.mp hnone) (datLine_eq_some_iff.mp h) hlevel
    · exact .range (p2pLine_eq_none_iff.mp hnone) (datLine_eq_none_iff.mp hnone')
        (rangeLine_eq_some_iff.mp h)

/-- The parser appends a range exactly for the lines that have one of the forms. -/
theorem lineEntry_eq_some_iff {line : Text} {r : Range} :
    lineEntry line = some r ↔
      ∃ name ip1 ip2, ReadAs line name ip1 ip2 ∧ r = ⟨ip2int ip1, ip2int ip2, name⟩ := by
  simp only [readAs_iff, lineEntry]
  cases p2pLine line with
  | some p =>
      obtain ⟨name, ip1, ip2⟩ := p
      constructor
      · intro h
        exact ⟨name, ip1, ip2, Or.inl rfl, (Option.some.inj h).symm⟩
      · rintro ⟨name', ip1', ip2', h | ⟨h, -⟩ | ⟨h, -⟩, rfl⟩
        · cases h
          rfl
        · cases h
        · cases h
  | none =>
      cases datLine line with
      | some d =>
          obtain ⟨ip1, ip2, level, name⟩ := d
          dsimp only
          constructor
          · intro h
            split_ifs at h with hlevel
            exact ⟨name, ip1, ip2, Or.inr (Or.inl ⟨rfl, level, rfl, hlevel⟩),
              (Option.some.inj h).symm⟩
          · rintro ⟨name', ip1', ip2', h | ⟨-, level', h, hlevel⟩ | ⟨-, h, -⟩, rfl⟩
            · cases h
            · cases h
              rw [if_pos hlevel]
            · cases h
      | none =>
          dsimp only
          rw [Option.map_eq_some_iff]
          constructor
          · rintro ⟨⟨ip1, ip2⟩, h, rfl⟩
            exact ⟨[], ip1, ip2, Or.inr (Or.inr ⟨rfl, rfl, h, rfl⟩), rfl⟩
          · rintro ⟨name', ip1', ip2', h | ⟨-, level, h, -⟩ | ⟨-, -, h, rfl⟩, rfl⟩
            · cases h
            · cases h
            · exact ⟨(ip1', ip2'), h, rfl⟩

/-- A line is read in one way. -/
theorem ReadAs.unique {line name name' : Text} {ip1 ip2 ip1' ip2' : Quad}
    (h : ReadAs line name ip1 ip2) (h' : ReadAs line name' ip1' ip2') :
    name = name' ∧ ip1 = ip1' ∧ ip2 = ip2' := by
  rw [readAs_iff] at h h'
  grind

end Forms

section Values

theorem Octet.intValue {t : Text} (h : Octet t) : intValue t = decimal t := by
  have hstrtol := strtol_digits h.digits h.ne_nil (t := []) rfl
  rw [List.append_nil] at hstrtol
  have hclamp : (clamp (decimal t) []).value = decimal t := by
    have hle := h.le
    rw [clamp, if_neg, if_neg]
    · unfold longMin
      omega
    · unfold longMax
      omega
  rw [Scanf.intValue, hstrtol, hclamp, Int.bmod_eq_of_le]
  · omega
  · have := h.le
    omega

/-- The stored address is the number that plain octets stand for. -/
theorem Quad.Plain.ip2int {q : Quad} (h : q.Plain) : (ip2int q).toNat = q.value := by
  obtain ⟨ha, hb, hc, hd⟩ := h
  have hale := ha.le
  have hble := hb.le
  have hcle := hc.le
  have hdle := hd.le
  rw [Pgld.ip2int, ha.intValue, hb.intValue, hc.intValue, hd.intValue, UInt32.ofInt,
    UInt32.toNat_ofNat', Quad.value]
  omega

end Values

/-- What is appended for a line are the 32-bit values of two addresses of four decimal octets up
to 255, and nothing is appended for other lines, if and only if in the form that the line has
each octet is such a number. -/
theorem lineEntry_plain_iff (line : Text) :
    ((∀ r, lineEntry line = some r → ∃ name ip1 ip2, ReadAs line name ip1 ip2 ∧ ip1.Plain ∧
        ip2.Plain ∧ r.ipMin.toNat = ip1.value ∧ r.ipMax.toNat = ip2.value) ∧
      ((¬ ∃ name ip1 ip2, ReadAs line name ip1 ip2 ∧ ip1.Plain ∧ ip2.Plain) →
        lineEntry line = none)) ↔
    ∀ name ip1 ip2, ReadAs line name ip1 ip2 → ip1.Plain ∧ ip2.Plain := by
  constructor
  · rintro ⟨happended, -⟩ name ip1 ip2 hread
    obtain ⟨name', ip1', ip2', hread', h1, h2, -⟩ :=
      happended _ (lineEntry_eq_some_iff.mpr ⟨name, ip1, ip2, hread, rfl⟩)
    obtain ⟨-, rfl, rfl⟩ := hread.unique hread'
    exact ⟨h1, h2⟩
  · intro hplain
    constructor
    · intro r hr
      obtain ⟨name, ip1, ip2, hread, rfl⟩ := lineEntry_eq_some_iff.mp hr
      obtain ⟨h1, h2⟩ := hplain name ip1 ip2 hread
      exact ⟨name, ip1, ip2, hread, h1, h2, h1.ip2int, h2.ip2int⟩
    · intro hnone
      rw [Option.eq_none_iff_forall_ne_some]
      intro r hr
      obtain ⟨name, ip1, ip2, hread, -⟩ := lineEntry_eq_some_iff.mp hr
      exact hnone ⟨name, ip1, ip2, hread, hplain name ip1 ip2 hread⟩

/-- The octet 300 is accepted, and the range starts at 44.0.0.1. -/
theorem octet_wraps :
    lineEntry "a:300.0.0.1-44.0.0.9".toList = some ⟨738197505, 738197513, ['a']⟩ := by
  decide

end Dowse.Pgld
