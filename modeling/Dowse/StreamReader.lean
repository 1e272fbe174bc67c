import Dowse.Stdio

/-!
# Reading lines from plain and compressed lists

`stream_getline` is `fgets` for a plain file. For a compressed one it keeps a window of
decompressed bytes, which it fills until it is full or the stream ends, cuts a line off its front
and moves the rest down. Bytes are characters here, those of the compressed file as well.

The decompressor is zlib's. What is asked of it is that it delivers the content in order and then
reports the end of the stream, in calls that may each deliver as little as they like.
-/
namespace Dowse.Pgld
open CStrings Stdio

namespace Streams

def chunk : ℕ := 1024

/-- What `inflate` returns, as far as the loop tells it apart. -/
inductive Ret
  | ok
  | bufError
  | streamEnd
  | needDict
  | dataError
  | memError
  deriving DecidableEq, Repr

structure Inflated (σ : Type*) where
  strm : σ
  input : Text
  output : Text
  ret : Ret

/-- A decompressor, called with its input and the room for the output. -/
structure Zlib (σ : Type*) where
  inflate : σ → Text → ℕ → Inflated σ

/-- A stream. `file` is what has not been read of it, `input` the part of `in` that has not been
used and `out` the part of the window that has been filled. -/
structure Stream (σ : Type*) where
  file : Text
  compressed : Bool
  eos : Bool
  strm : σ
  input : Text
  out : Text

variable {σ : Type*}

def Stream.availOut (s : Stream σ) : ℕ := chunk - s.out.length

def refill (s : Stream σ) : Stream σ :=
  if s.input = [] then { s with input := s.file.take chunk, file := s.file.drop chunk } else s

def Stream.inflate (z : Zlib σ) (s : Stream σ) : Stream σ × Ret :=
  let r := z.inflate s.strm s.input s.availOut
  ({ s with strm := r.strm, input := r.input, out := s.out ++ r.output }, r.ret)

/-- The loop that fills the window; `none` means that the rounds did not suffice. -/
def fill (z : Zlib σ) : ℕ → Stream σ → Option (Stream σ)
  | 0, _ => none
  | fuel + 1, s =>
      let s := refill s
      if s.input = [] then some { s with eos := true }
      else
        let r := s.inflate z
        match r.2 with
        | .streamEnd | .needDict | .dataError | .memError => some { r.1 with eos := true }
        | .ok | .bufError => if r.1.availOut ≠ 0 then fill z fuel r.1 else some r.1

/-- The number of bytes that are copied, if there is a line. -/
def copied (max : ℕ) (out : Text) (eos : Bool) : Option ℕ :=
  let avail := out.length
  let ptr := out.findIdx? (· = '\n')
  let ptr := if ptr = none ∧ avail > max - 1 then some (max - 1) else ptr
  let ptr := if ptr = none ∧ avail ≠ 0 ∧ eos then some (avail - 1) else ptr
  ptr.map fun ptr => if ptr + 1 ≥ max - 1 then max - 1 else ptr + 1

/-- One call. The line is `none` for a null pointer. -/
def streamGetline (z : Zlib σ) (fuel max : ℕ) (s : Stream σ) :
    Option (Option Text × Stream σ) :=
  if s.compressed then
    (if !s.eos ∧ s.availOut ≠ 0 then fill z fuel s else some s).map fun s =>
      match copied max s.out s.eos with
      | none => (none, s)
      | some n => (some (s.out.take n), { s with out := s.out.drop n })
  else if s.file = [] then some (none, s)
  else
    let r := fgets (max - 1) s.file
    some (some r.1, { s with file := r.2 })

/-- The lines up to the null pointer; `none` if it was not reached in so many calls. -/
def readLines (z : Zlib σ) (fuel max : ℕ) : ℕ → Stream σ → Option (List Text)
  | 0, _ => none
  | calls + 1, s =>
      (streamGetline z fuel max s).bind fun r =>
        match r.1 with
        | none => some []
        | some line => (readLines z fuel max calls r.2).map (line :: ·)

def Stream.opened (file : Text) (compressed : Bool) (strm : σ) : Stream σ :=
  { file, compressed, eos := false, strm, input := [], out := [] }

/-- What is assumed of zlib. `Due calls strm compressed pending` says that, with this input, the
decompressor has `pending` still to deliver, and that `calls` bounds the number of calls to
come. The checksum behind the data is used up by the call that reports the end only, so there
is input up to then. -/
structure Delivers (z : Zlib σ) (Due : ℕ → σ → Text → Text → Prop) : Prop where
  input : ∀ {calls strm compressed pending}, Due calls strm compressed pending → compressed ≠ []
  call : ∀ {calls strm input file pending room}, Due calls strm (input ++ file) pending →
    input ≠ [] → 0 < room →
    let r := z.inflate strm input room
    r.output.length ≤ room ∧ ∃ later, pending = r.output ++ later ∧
      (r.ret = .streamEnd ∧ later = [] ∨
        (r.ret = .ok ∨ r.ret = .bufError) ∧
          ∃ calls' < calls, Due calls' r.strm (r.input ++ file) later)

theorem fgets_window {m n : ℕ} {out : Text} (hn : n ≤ out.length) (pending : Text)
    (h : min m ((out ++ pending).findIdx (· = '\n') + 1) = n) :
    fgets m (out ++ pending) = (out.take n, out.drop n ++ pending) := by
  rw [fgets_eq, h, List.take_append_of_le_length hn, List.drop_append_of_le_length hn]

/-- When the window is full or holds all that is left, a line is cut off it where `fgets` would
stop. -/
theorem copied_spec {max : ℕ} {out pending : Text} {eos : Bool} (hmin : 2 ≤ max)
    (hmax : max ≤ chunk) (h : eos = true ∧ pending = [] ∨ out.length = chunk) :
    match copied max out eos with
    | none => out ++ pending = []
    | some n => n ≠ 0 ∧ n ≤ out.length ∧
        fgets (max - 1) (out ++ pending) = (out.take n, out.drop n ++ pending) := by
  unfold copied
  dsimp only
  cases hfind : out.findIdx? (· = '\n') with
  | some i =>
      obtain ⟨hlt, hidx⟩ := List.findIdx?_eq_some_iff_findIdx_eq.mp hfind
      have hfirst : (out ++ pending).findIdx (· = '\n') = i := by
        rw [List.findIdx_append, if_pos (hidx ▸ hlt), hidx]
      simp only [reduceCtorEq, false_and, if_false, Option.map_some]
      split_ifs <;>
        exact ⟨by omega, by omega, fgets_window (by omega) pending (by rw [hfirst]; omega)⟩
  | none =>
      have hidx := List.findIdx?_eq_none_iff_findIdx_eq.mp hfind
      have hfirst : out.length ≤ (out ++ pending).findIdx (· = '\n') := by
        rw [List.findIdx_append, hidx, if_neg (lt_irrefl _)]
        exact Nat.le_add_left _ _
      by_cases hlong : out.length > max - 1
      · have hroom : max - 1 + 1 ≥ max - 1 := Nat.le_succ _
        simp only [hlong, hroom, true_and, if_true, reduceCtorEq, false_and, if_false,
          Option.map_some]
        exact ⟨by omega, by omega, fgets_window (by omega) pending (by omega)⟩
      · obtain ⟨heos, rfl⟩ := h.resolve_right (by omega)
        rw [List.append_nil] at hfirst ⊢
        by_cases hnil : out = []
        · simp [hnil]
        · have hpos := List.length_pos_iff.mpr hnil
          simp only [hlong, and_false, if_false, heos, hpos.ne', ne_eq, not_false_eq_true,
            and_self, if_true, Option.map_some]
          -- both ways the whole window is copied
          have hcopied : (if out.length - 1 + 1 ≥ max - 1 then max - 1 else out.length - 1 + 1) =
              out.length := by
            split_ifs <;> omega
          rw [hcopied, fgets_eq, List.take_of_length_le (by omega),
            List.drop_of_length_le (by omega), List.take_length, List.drop_length]
          exact ⟨hpos.ne', le_rfl, rfl⟩

/-- The stream has still this content to give: what is in the window, and what the decompressor
will deliver. -/
structure Holds (Due : ℕ → σ → Text → Text → Prop) (calls : ℕ) (s : Stream σ) (content : Text) :
    Prop where
  compressed : s.compressed = true
  window : s.out.length ≤ chunk
  due : ∃ pending, content = s.out ++ pending ∧
    (s.eos = true ∧ pending = [] ∨ s.eos = false ∧ Due calls s.strm (s.input ++ s.file) pending)

variable {z : Zlib σ} {Due : ℕ → σ → Text → Text → Prop}

theorem Holds.refill (hz : Delivers z Due) {calls : ℕ} {s : Stream σ} {content : Text}
    (h : Holds Due calls s content) (heos : s.eos = false) :
    Holds Due calls (refill s) content ∧ (refill s).eos = false ∧
      (refill s).availOut = s.availOut ∧ (refill s).input ≠ [] := by
  unfold Streams.refill
  split_ifs with hnil
  · obtain ⟨hcompressed, hwindow, pending, hcontent, hdue⟩ := h
    obtain ⟨-, hdue⟩ := hdue.resolve_left (by simp [heos])
    rw [hnil, List.nil_append] at hdue
    refine ⟨⟨hcompressed, hwindow, pending, hcontent, .inr ⟨heos, ?_⟩⟩, heos, rfl, ?_⟩
    · rwa [List.take_append_drop]
    · simp [chunk, hz.input hdue]
  · exact ⟨h, heos, rfl, hnil⟩

theorem Holds.inflate (hz : Delivers z Due) {calls : ℕ} {s : Stream σ} {content : Text}
    (h : Holds Due calls s content) (heos : s.eos = false) (hroom : s.availOut ≠ 0)
    (hinput : s.input ≠ []) :
    let r := s.inflate z
    r.2 = .streamEnd ∧ Holds Due calls { r.1 with eos := true } content ∨
      (r.2 = .ok ∨ r.2 = .bufError) ∧ r.1.eos = false ∧
        ∃ calls' < calls, Holds Due calls' r.1 content := by
  obtain ⟨hcompressed, hwindow, pending, rfl, hdue⟩ := h
  obtain ⟨-, hdue⟩ := hdue.resolve_left (by simp [heos])
  obtain ⟨hlen, later, rfl, hret⟩ := hz.call hdue hinput (Nat.pos_of_ne_zero hroom)
  have hfits : (s.out ++ (z.inflate s.strm s.input s.availOut).output).length ≤ chunk := by
    have hroomEq : s.availOut = chunk - s.out.length := rfl
    rw [List.length_append]
    omega
  rw [← List.append_assoc]
  rcases hret with ⟨hend, rfl⟩ | ⟨hmore, calls', hlt, hdue⟩
  · exact .inl ⟨hend, hcompressed, hfits, [], rfl, .inl ⟨rfl, rfl⟩⟩
  · exact .inr ⟨hmore, heos, calls', hlt, hcompressed, hfits, later, rfl, .inr ⟨heos, hdue⟩⟩

theorem fill_holds (hz : Delivers z Due) {calls fuel : ℕ} {s : Stream σ} {content : Text}
    (h : Holds Due calls s content) (heos : s.eos = false) (hroom : s.availOut ≠ 0)
    (hfuel : calls < fuel) :
    ∃ s' calls', fill z fuel s = some s' ∧ calls' ≤ calls ∧ Holds Due calls' s' content ∧
      (s'.eos = true ∨ s'.out.length = chunk) := by
  induction fuel generalizing s calls with
  | zero => exact absurd hfuel (Nat.not_lt_zero _)
  | succ fuel ih =>
      obtain ⟨h, heos, hsame, hinput⟩ := h.refill hz heos
      rw [← hsame] at hroom
      rw [fill, if_neg hinput]
      dsimp only
      rcases h.inflate hz heos hroom hinput with ⟨hret, hend⟩ | ⟨hret, heos, calls', hlt, hmore⟩
      · rw [hret]
        exact ⟨_, calls, rfl, le_rfl, hend, .inl rfl⟩
      · by_cases hfull : ((refill s).inflate z).1.availOut = 0
        · refine ⟨((refill s).inflate z).1, calls', ?_, hlt.le, hmore, .inr ?_⟩
          · rcases hret with hret | hret <;> simp [hret, hfull]
          · have hwindow := hmore.window
            unfold Stream.availOut at hfull
            omega
        · obtain ⟨s', calls'', hfill, hle, hholds, hdone⟩ := ih hmore heos hfull (by omega)
          refine ⟨s', calls'', ?_, hle.trans hlt.le, hholds, hdone⟩
          rcases hret with hret | hret <;> simpa [hret, hfull] using hfill

/-- What `fgets` returns for the content of a plain file, and what it leaves. -/
def plainLine (max : ℕ) (content : Text) : Option Text × Text :=
  if content = [] then (none, []) else ((fgets (max - 1) content).map some id)

theorem filled_holds (hz : Delivers z Due) {calls fuel : ℕ} {s : Stream σ} {content : Text}
    (h : Holds Due calls s content) (hfuel : calls < fuel) :
    ∃ s' calls', (if !s.eos ∧ s.availOut ≠ 0 then fill z fuel s else some s) = some s' ∧
      calls' ≤ calls ∧ Holds Due calls' s' content ∧ (s'.eos = true ∨ s'.out.length = chunk) := by
  split_ifs with hmore
  · exact fill_holds hz h (by simpa using hmore.1) hmore.2 hfuel
  · refine ⟨s, calls, rfl, le_rfl, h, ?_⟩
    by_cases heos : s.eos = true
    · exact .inl heos
    · have hfull : s.availOut = 0 := by simpa [heos] using hmore
      have hwindow := h.window
      unfold Stream.availOut at hfull
      exact .inr (by omega)

theorem streamGetline_holds (hz : Delivers z Due) {calls fuel max : ℕ} {s : Stream σ}
    {content : Text} (h : Holds Due calls s content) (hmin : 2 ≤ max) (hmax : max ≤ chunk)
    (hfuel : calls < fuel) :
    ∃ s' calls', streamGetline z fuel max s = some ((plainLine max content).1, s') ∧
      calls' ≤ calls ∧ Holds Due calls' s' (plainLine max content).2 := by
  obtain ⟨s', calls', hfill, hle, hholds, hdone⟩ := filled_holds hz h hfuel
  obtain ⟨hcompressed, hwindow, pending, rfl, hdue⟩ := hholds
  have hcut : s'.eos = true ∧ pending = [] ∨ s'.out.length = chunk := by
    rcases hdue with hend | ⟨heos, -⟩
    · exact .inl hend
    · exact .inr (hdone.resolve_left (by simp [heos]))
  have hspec := copied_spec hmin hmax hcut
  unfold streamGetline
  rw [if_pos h.compressed, hfill, Option.map_some]
  cases hcopied : copied max s'.out s'.eos with
  | none =>
      rw [hcopied] at hspec
      refine ⟨s', calls', ?_, hle, ?_⟩
      · simp [plainLine, hspec]
      · rw [plainLine, if_pos hspec]
        exact ⟨hcompressed, hwindow, pending, hspec.symm, hdue⟩
  | some n =>
      rw [hcopied] at hspec
      obtain ⟨hpos, hn, hfgets⟩ := hspec
      have hne : s'.out ++ pending ≠ [] := by
        intro hnil
        rw [List.append_eq_nil_iff.mp hnil |>.1, List.length_nil] at hn
        omega
      rw [plainLine, if_neg hne, hfgets]
      refine ⟨_, calls', rfl, hle, hcompressed, ?_, pending, rfl, hdue⟩
      exact (List.drop_sublist ..).length_le.trans hwindow

theorem streamGetline_plain {fuel max : ℕ} {s : Stream σ} (h : s.compressed = false) :
    streamGetline z fuel max s =
      some ((plainLine max s.file).1, { s with file := (plainLine max s.file).2 }) := by
  obtain ⟨file, _, eos, strm, input, out⟩ := s
  obtain rfl := h
  by_cases hnil : file = [] <;> simp [streamGetline, plainLine, hnil]

/-- Two streams that step alike with the content of a plain file give its lines, and then a null
pointer. -/
theorem readLines_of_simulation {R : Stream σ → Text → Prop} {fuel max : ℕ} (hmin : 2 ≤ max)
    (hstep : ∀ s content, R s content → ∃ s',
      streamGetline z fuel max s = some ((plainLine max content).1, s') ∧
        R s' (plainLine max content).2)
    {calls : ℕ} {s : Stream σ} {content : Text} (h : R s content)
    (hcalls : content.length ≤ calls) :
    readLines z fuel max (calls + 1) s = some (lines (max - 1) calls content) := by
  induction calls generalizing s content with
  | zero =>
      obtain rfl := List.length_eq_zero_iff.mp (Nat.le_zero.mp hcalls)
      obtain ⟨s', hline, -⟩ := hstep s [] h
      rw [readLines, hline]
      rfl
  | succ calls ih =>
      obtain ⟨s', hline, hrest⟩ := hstep s content h
      rw [readLines, hline, Option.bind_some]
      by_cases hnil : content = []
      · subst hnil
        rfl
      · rw [plainLine, if_neg hnil] at hrest ⊢
        rw [lines, if_neg hnil]
        dsimp only [Prod.map, id]
        have hshorter : (fgets (max - 1) content).2.length ≤ calls := by
          have hpos := List.length_pos_iff.mpr hnil
          rw [fgets_eq, List.length_drop]
          omega
        rw [ih hrest hshorter]
        rfl

/-- For every decompressor that delivers a content, repeated calls give the lines that they give
for a plain file with this content, and both end with a null pointer. -/
theorem readLines_compressed_eq_plain (z : Zlib σ) (Due : ℕ → σ → Text → Text → Prop)
    (hz : Delivers z Due) (fuel calls max : ℕ) {due : ℕ} {strm : σ} {file content : Text}
    (hdue : Due due strm file content) (hfuel : due < fuel) (hcalls : content.length < calls)
    (hmin : 2 ≤ max) (hmax : max ≤ 1024) :
    ∃ lines, readLines z fuel max calls (.opened file true strm) = some lines ∧
      readLines z fuel max calls (.opened content false strm) = some lines := by
  obtain ⟨calls, rfl⟩ := Nat.exists_eq_succ_of_ne_zero (Nat.ne_zero_of_lt hcalls)
  have hlen : content.length ≤ calls := Nat.lt_succ_iff.mp hcalls
  refine ⟨lines (max - 1) calls content, ?_, ?_⟩
  · have hopened : Holds Due due (.opened file true strm) content :=
      ⟨rfl, Nat.zero_le _, content, rfl, .inr ⟨rfl, hdue⟩⟩
    refine readLines_of_simulation (R := fun s content => ∃ n < fuel, Holds Due n s content) hmin
      ?_ ⟨due, hfuel, hopened⟩ hlen
    rintro s content ⟨n, hn, h⟩
    obtain ⟨s', n', hline, hle, h'⟩ := streamGetline_holds hz h hmin hmax hn
    exact ⟨s', hline, n', hle.trans_lt hn, h'⟩
  · refine readLines_of_simulation
      (R := fun s content => s.compressed = false ∧ s.file = content) hmin ?_ ⟨rfl, rfl⟩ hlen
    rintro s content ⟨hplain, rfl⟩
    exact ⟨_, streamGetline_plain hplain, hplain, rfl⟩

/-- A decompressor for a file that is the content itself and a checksum of one byte. The state
is the number of bytes to come. -/
def storedZlib : Zlib ℕ where
  inflate n input room :=
    let k := min room (min n input.length)
    if k = n ∧ k < input.length then ⟨0, input.drop (k + 1), input.take k, .streamEnd⟩
    else ⟨n - k, input.drop k, input.take k, .ok⟩

def StoredDue (calls n : ℕ) (compressed pending : Text) : Prop :=
  compressed = pending ++ ['x'] ∧ n = pending.length ∧ calls = pending.length

theorem delivers_stored : Delivers storedZlib StoredDue where
  input h := by simp [h.1]
  call := by
    rintro calls n input file pending room ⟨hcompressed, rfl, rfl⟩ hinput hroom
    set k := min room (min pending.length input.length) with hk
    have hpos := List.length_pos_iff.mpr hinput
    have htake : input.take k = pending.take k := by
      have hboth := congrArg (List.take k) hcompressed
      rwa [List.take_append_of_le_length (by omega), List.take_append_of_le_length (by omega)]
        at hboth
    have hdrop : input.drop k ++ file = pending.drop k ++ ['x'] := by
      have hboth := congrArg (List.drop k) hcompressed
      rwa [List.drop_append_of_le_length (by omega), List.drop_append_of_le_length (by omega)]
        at hboth
    have hsplit := List.take_append_drop k pending
    simp only [storedZlib, ← hk]
    split_ifs with hend
    · refine ⟨?_, [], ?_, .inl ⟨rfl, rfl⟩⟩
      · rw [List.length_take]
        omega
      · rw [htake, List.append_nil, hend.1, List.take_length]
    · refine ⟨?_, pending.drop k, ?_, .inr ⟨.inl rfl, (pending.drop k).length, ?_, hdrop, ?_, rfl⟩⟩
      · rw [List.length_take]
        omega
      · rw [htake, hsplit]
      · rw [List.length_drop]
        omega
      · rw [List.length_drop]

/-- A long line is cut, and the last one has no newline. -/
theorem readLines_stored :
    readLines storedZlib 10 4 10 (.opened "dyne.\norgx".toList true 9) =
      some ["dyn".toList, "e.\n".toList, "org".toList] := by
  have hplain : readLines storedZlib 10 4 10 (.opened "dyne.\norg".toList false 9) =
      some ["dyn".toList, "e.\n".toList, "org".toList] := by decide +kernel
  obtain ⟨lines, hcompressed, hlines⟩ := readLines_compressed_eq_plain storedZlib StoredDue
    delivers_stored 10 10 4
    (⟨rfl, rfl, rfl⟩ : StoredDue 9 9 "dyne.\norgx".toList "dyne.\norg".toList) (by decide)
    (by decide) (by decide) (by decide)
  rw [hcompressed, ← hlines, hplain]

end Streams

end Dowse.Pgld
