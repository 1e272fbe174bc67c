import Dowse.CrontabMeaning

/-!
# The memory that a crontab field uses

`Crontab.parsefield` returns a field with its values, or says that memory was misused. Here
the same function works on `struct field` itself: a pointer and a length that are unset when it
is called, an array of the size that was asked for, whose elements start with whatever the
allocator left in them, and a check of every access. A run stops at the first access that is
not allowed, since nothing can be said about what comes after it.

The two are compared at the end: an accepted text leaves exactly the values of the field in
memory, a rejected one returns without a fault, and a fault is a fault.
-/
namespace Dowse.CrontabMemory
open CStrings Strtol Crontab

inductive FieldType
  | error
  | wildcard
  | number
  | range
  | repeated
  | list
  deriving DecidableEq, Repr

/-- `struct field`, with the array that `val` points to. Both pointer and length are `none`
until they are assigned; a null pointer has no elements. -/
structure FieldMem where
  type : FieldType
  val : Option (List ℤ)
  len : Option ℕ
  deriving DecidableEq, Repr

inductive Fault
  | unassigned
  | outside
  | errorType
  | divisionByZero
  deriving DecidableEq, Repr

abbrev Run := StateT FieldMem (Except Fault)

def setType (type : FieldType) : Run Unit := modify fun f => { f with type := type }

def setVal (block : List ℤ) : Run Unit := modify fun f => { f with val := some block }

def setLen (len : ℕ) : Run Unit := modify fun f => { f with len := some len }

def getType : Run FieldType := FieldMem.type <$> get

def getVal : Run (List ℤ) := do
  match (← get).val with
  | some block => pure block
  | none => throw .unassigned

def getLen : Run ℕ := do
  match (← get).len with
  | some len => pure len
  | none => throw .unassigned

def load (i : ℕ) : Run ℤ := do
  match (← getVal)[i]? with
  | some v => pure v
  | none => throw .outside

def store (i : ℕ) (v : ℤ) : Run Unit := do
  let block ← getVal
  if i < block.length then setVal (block.set i v) else throw .outside

/-- A freed block is not used again, so that only the read of the pointer counts. -/
def free : Run Unit := do
  let _ ← getVal

/-- What the allocator leaves in a new block. -/
def emalloc (junk : ℕ → ℤ) (size : ℕ) : List ℤ := (List.range size).map junk

/-- The loop that fills a list. -/
def listLoop : ℕ → Text → Bool → ℕ → Run (Text × Bool)
  | fuel + 1, ',' :: e1, false, i => do
      let c := strtol e1
      store i c.value
      listLoop fuel c.rest c.erange (i + 1)
  | _, e1, errno, _ => pure (e1, errno)

/-- The switch; false is the `default` case, which returns at once. -/
def parseBranch (junk : ℕ → ℤ) (field : Text) (low high : ℤ) : Run Bool :=
  match field.dropWhile Char.isDigit with
  | '*' :: _ =>
      if field = ['*'] then do
        setVal []
        setLen 0
        setType .wildcard
        return true
      else if field.take 2 = ['*', '/'] then do
        setVal (emalloc junk 1)
        setLen 1
        let c := strtol (field.drop 2)
        store 0 c.value
        if c.rest ≠ [] ∨ c.erange then return true
        if (← load 0) = 0 then return true
        setType .repeated
        return true
      else return true
  | [] => do
      setVal (emalloc junk 1)
      setLen 1
      let c := strtol field
      store 0 c.value
      if c.rest ≠ [] ∨ c.erange then return true
      setType .number
      return true
  | '-' :: _ => do
      setVal (emalloc junk 2)
      setLen 2
      let c := strtol field
      store 0 c.value
      match c.rest, c.erange with
      | '-' :: e1, false => do
          let d := strtol e1
          store 1 d.value
          if d.rest ≠ [] ∨ d.erange then return true
          setType .range
          return true
      | _, _ => return true
  | ',' :: p => do
      setVal (emalloc junk (listLength (',' :: p)))
      setLen (listLength (',' :: p))
      let c := strtol field
      store 0 c.value
      let first ← load 0
      if first < low ∨ first > high then return true
      let (e1, errno) ← listLoop field.length c.rest c.erange 1
      if e1 ≠ [] ∨ errno then return true
      setType .list
      return true
  | _ => return false

/-- The last loop, over the elements from `i` on. -/
def checkLimits (low high : ℤ) : ℕ → ℕ → Run Unit
  | 0, _ => pure ()
  | left + 1, i => do
      let v ← load i
      if v < low ∨ v > high then setType .error
      checkLimits low high left (i + 1)

/-- What follows the switch. -/
def fieldResult (low high : ℤ) : Run ℤ := do
  let len ← getLen
  checkLimits low high len 0
  if (← getType) = .error then
    free
    return -1
  return 0

def parsefield (junk : ℕ → ℤ) (field : Text) (low high : ℤ) : Run ℤ := do
  setType .error
  if ← parseBranch junk field low high then fieldResult low high else return -1

/-- The field as the caller hands it over: nothing of it has been assigned. -/
def unset (type : FieldType) : FieldMem := ⟨type, none, none⟩

section Primitives
variable {type : FieldType} {val : Option (List ℤ)} {len : Option ℕ} {block : List ℤ}

@[simp] theorem ok_bind {ε α β : Type} (a : α) (f : α → Except ε β) :
    (Except.ok a >>= f) = f a := rfl

@[simp] theorem error_bind {ε α β : Type} (e : ε) (f : α → Except ε β) :
    (Except.error e >>= f) = .error e := rfl

@[simp] theorem setType_run (t : FieldType) :
    (setType t).run ⟨type, val, len⟩ = .ok ((), ⟨t, val, len⟩) := rfl

@[simp] theorem setVal_run (b : List ℤ) :
    (setVal b).run ⟨type, val, len⟩ = .ok ((), ⟨type, some b, len⟩) := rfl

@[simp] theorem setLen_run (n : ℕ) :
    (setLen n).run ⟨type, val, len⟩ = .ok ((), ⟨type, val, some n⟩) := rfl

@[simp] theorem getType_run : getType.run ⟨type, val, len⟩ = .ok (type, ⟨type, val, len⟩) := rfl

@[simp] theorem getVal_run :
    getVal.run ⟨type, some block, len⟩ = .ok (block, ⟨type, some block, len⟩) := rfl

@[simp] theorem getLen_run (n : ℕ) :
    getLen.run ⟨type, val, some n⟩ = .ok (n, ⟨type, val, some n⟩) := rfl

@[simp] theorem free_run :
    free.run ⟨type, some block, len⟩ = .ok ((), ⟨type, some block, len⟩) := rfl

theorem load_run {i : ℕ} (h : i < block.length) :
    (load i).run ⟨type, some block, len⟩ = .ok (block[i], ⟨type, some block, len⟩) := by
  simp only [load, StateT.run_bind, getVal_run, ok_bind, List.getElem?_eq_getElem h]
  rfl

theorem store_run {i : ℕ} (v : ℤ) (h : i < block.length) :
    (store i v).run ⟨type, some block, len⟩ = .ok ((), ⟨type, some (block.set i v), len⟩) := by
  simp [store, h]

theorem store_run_outside {i : ℕ} (v : ℤ) (h : block.length ≤ i) :
    (store i v).run ⟨type, some block, len⟩ = .error .outside := by
  simp only [store, StateT.run_bind, getVal_run, ok_bind, if_neg (Nat.not_lt.mpr h)]
  rfl

end Primitives

section Loops
variable {type : FieldType} {len : Option ℕ} {block : List ℤ} {low high : ℤ}

theorem checkLimits_run {left i : ℕ} (h : i + left = block.length) :
    (checkLimits low high left i).run ⟨type, some block, len⟩ =
      .ok ((), ⟨if (block.drop i).all fun v => low ≤ v ∧ v ≤ high then type else .error,
        some block, len⟩) := by
  induction left generalizing i type with
  | zero =>
      rw [List.drop_eq_nil_of_le (by omega)]
      rfl
  | succ left ih =>
      have hi : i < block.length := by omega
      have hv := List.drop_eq_getElem_cons hi
      simp only [checkLimits, StateT.run_bind, load_run hi, ok_bind, hv, List.all_cons]
      by_cases hout : block[i] < low ∨ block[i] > high
      · have hnot : ¬ (low ≤ block[i] ∧ block[i] ≤ high) := by omega
        simp only [hout, if_true, StateT.run_bind, setType_run, ok_bind, hnot, decide_false,
          Bool.false_and, Bool.false_eq_true, if_false]
        rw [ih (by omega)]
        simp
      · have hin : low ≤ block[i] ∧ block[i] ≤ high := by omega
        simp only [hout, if_false, hin]
        exact ih (by omega)

/-- The loop writes what `readList` reads, and faults where `readList` finds no room. -/
theorem listLoop_run {size fuel : ℕ} {e1 : Text} {errno : Bool} {vals rest : List ℤ}
    (hsize : vals.length + rest.length = size) :
    match readList size fuel e1 errno vals with
    | none => (listLoop fuel e1 errno vals.length).run ⟨type, some (vals ++ rest), len⟩ =
        .error .outside
    | some (vals', e1', errno') => ∃ rest', vals'.length + rest'.length = size ∧
        (listLoop fuel e1 errno vals.length).run ⟨type, some (vals ++ rest), len⟩ =
          .ok ((e1', errno'), ⟨type, some (vals' ++ rest'), len⟩) := by
  fun_induction readList size fuel e1 errno vals generalizing rest with
  | case1 fuel e1 vals hlt c =>
      rename_i ih
      obtain ⟨r, rest, rfl⟩ := List.exists_cons_of_length_pos (l := rest) (by omega)
      have hstore : (store vals.length c.value).run ⟨type, some (vals ++ r :: rest), len⟩ =
          .ok ((), ⟨type, some (vals ++ [c.value] ++ rest), len⟩) := by
        rw [store_run c.value (by simp)]
        simp
      have hstep : (listLoop (fuel + 1) (',' :: e1) false vals.length).run
          ⟨type, some (vals ++ r :: rest), len⟩ =
          (listLoop fuel c.rest c.erange (vals ++ [c.value]).length).run
            ⟨type, some (vals ++ [c.value] ++ rest), len⟩ := by
        rw [listLoop, StateT.run_bind, hstore, ok_bind, List.length_append, List.length_singleton]
      rw [hstep]
      refine ih ?_
      simp only [List.length_append, List.length_cons, List.length_nil] at hsize ⊢
      omega
  | case2 fuel e1 vals hge =>
      rw [listLoop, StateT.run_bind, store_run_outside _ (by rw [List.length_append]; omega),
        error_bind]
  | case3 fuel e1 errno vals hother =>
      refine ⟨rest, hsize, ?_⟩
      rw [listLoop]
      · rfl
      · exact hother

end Loops

section Refinement
variable {low high : ℤ} {text : Text} {junk : ℕ → ℤ} {type : FieldType}

/-- The memory of a parsed field. -/
def image : Field → FieldMem
  | .error => ⟨.error, some [], some 0⟩
  | .wildcard => ⟨.wildcard, some [], some 0⟩
  | .number n => ⟨.number, some [n], some 1⟩
  | .range a b => ⟨.range, some [a, b], some 2⟩
  | .repeated n => ⟨.repeated, some [n], some 1⟩
  | .list vals => ⟨.list, some vals, some vals.length⟩

/-- The run on memory ends as the parser says. -/
def Agrees : Parsed → Except Fault (ℤ × FieldMem) → Prop
  | .accept f, r => r = .ok (0, image f)
  | .reject, r => ∃ mem, r = .ok (-1, mem)
  | .fault, r => ∃ fault, r = .error fault

theorem fieldResult_run (block : List ℤ) :
    (fieldResult low high).run ⟨type, some block, some block.length⟩ =
      if type ≠ .error ∧ block.all fun v => low ≤ v ∧ v ≤ high then
        .ok (0, ⟨type, some block, some block.length⟩)
      else .ok (-1, ⟨.error, some block, some block.length⟩) := by
  simp only [fieldResult, StateT.run_bind, getLen_run, ok_bind,
    checkLimits_run (Nat.zero_add block.length), List.drop_zero, getType_run]
  by_cases hall : block.all fun v => low ≤ v ∧ v ≤ high
  · by_cases htype : type = .error
    · simp only [hall, htype, if_true, ne_eq, not_true_eq_false, false_and, if_false]
      rfl
    · simp only [hall, htype, if_true, ne_eq, not_false_eq_true, true_and, if_false]
      rfl
  · simp only [hall, Bool.false_eq_true, if_false, if_true, and_false]
    rfl

theorem agrees_reject (block : List ℤ) :
    Agrees .reject ((fieldResult low high).run ⟨.error, some block, some block.length⟩) := by
  rw [fieldResult_run, if_neg (by simp)]
  exact ⟨_, rfl⟩

theorem agrees_withinLimits {f : Field} {block : List ℤ} (hblock : block = f.vals)
    (himage : image f = ⟨type, some block, some block.length⟩) (htype : type ≠ .error) :
    Agrees (withinLimits low high f)
      ((fieldResult low high).run ⟨type, some block, some block.length⟩) := by
  rw [fieldResult_run, withinLimits, ← hblock]
  split_ifs with h h'
  · rw [Agrees, himage]
  · exact absurd ⟨htype, h⟩ h'
  · exact absurd ‹_ ∧ _›.2 h
  · exact ⟨_, rfl⟩

theorem parsefield_run :
    (parsefield junk text low high).run (unset type) =
      (parseBranch junk text low high).run ⟨.error, none, none⟩ >>= fun r =>
        (if r.1 then fieldResult low high else pure (-1)).run r.2 := rfl

theorem emalloc_length (size : ℕ) : (emalloc junk size).length = size := by simp [emalloc]

theorem agrees_star {rest : Text} (hp : text.dropWhile Char.isDigit = '*' :: rest) :
    Agrees (Crontab.parsefield text low high)
      ((parsefield junk text low high).run (unset type)) := by
  simp only [Crontab.parsefield, parsefield_run, parseBranch, hp]
  by_cases hstar : text = ['*']
  · simp only [hstar, if_true]
    change Agrees (withinLimits low high .wildcard) _
    exact agrees_withinLimits (f := .wildcard) rfl rfl (by decide)
  · by_cases hslash : text.take 2 = ['*', '/']
    · simp only [hstar, hslash, if_true, if_false]
      generalize strtol (text.drop 2) = c
      by_cases hbad : c.rest ≠ [] ∨ c.erange
      · rw [if_pos (by tauto), if_pos hbad]
        exact agrees_reject [c.value]
      · rw [if_neg hbad]
        change Agrees _ ((if c.value = 0 then (pure true : Run Bool) else do
          setType .repeated
          return true).run ⟨.error, some [c.value], some 1⟩ >>= _)
        by_cases hzero : c.value = 0
        · rw [if_pos (by tauto), if_pos hzero]
          exact agrees_reject [c.value]
        · rw [if_neg (by tauto), if_neg hzero]
          exact agrees_withinLimits (f := .repeated c.value) rfl rfl (by decide)
    · simp only [hstar, hslash, if_false]
      exact ⟨.unassigned, rfl⟩

theorem agrees_number (hp : text.dropWhile Char.isDigit = []) :
    Agrees (Crontab.parsefield text low high)
      ((parsefield junk text low high).run (unset type)) := by
  simp only [Crontab.parsefield, parsefield_run, parseBranch, hp]
  generalize strtol text = c
  by_cases hbad : c.rest ≠ [] ∨ c.erange
  · rw [if_pos hbad, if_pos hbad]
    exact agrees_reject [c.value]
  · rw [if_neg hbad, if_neg hbad]
    exact agrees_withinLimits (f := .number c.value) rfl rfl (by decide)

/-- A dash that does not stand behind the first number, or a number out of range. -/
theorem parsefield_no_range {rest : Text} (hp : text.dropWhile Char.isDigit = '-' :: rest)
    (hother : ∀ e1, (strtol text).rest = '-' :: e1 → (strtol text).erange = false → False) :
    Crontab.parsefield text low high = .reject := by
  simp only [Crontab.parsefield, hp]

theorem parseBranch_no_range {rest : Text} (hp : text.dropWhile Char.isDigit = '-' :: rest)
    (hother : ∀ e1, (strtol text).rest = '-' :: e1 → (strtol text).erange = false → False) :
    (parseBranch junk text low high).run ⟨.error, none, none⟩ =
      .ok (true, ⟨.error, some [(strtol text).value, junk 1], some 2⟩) := by
  simp only [parseBranch, hp]
  rfl

theorem agrees_range {rest : Text} (hp : text.dropWhile Char.isDigit = '-' :: rest) :
    Agrees (Crontab.parsefield text low high)
      ((parsefield junk text low high).run (unset type)) := by
  by_cases hdash : ∃ e1, (strtol text).rest = '-' :: e1 ∧ (strtol text).erange = false
  · obtain ⟨e1, hrest, herr⟩ := hdash
    simp only [Crontab.parsefield, parsefield_run, parseBranch, hp, hrest, herr]
    generalize strtol e1 = d
    by_cases hbad : d.rest ≠ [] ∨ d.erange
    · rw [if_pos hbad, if_pos hbad]
      exact agrees_reject [(strtol text).value, d.value]
    · rw [if_neg hbad, if_neg hbad]
      exact agrees_withinLimits (f := .range (strtol text).value d.value) rfl rfl (by decide)
  · have hother : ∀ e1, (strtol text).rest = '-' :: e1 → (strtol text).erange = false → False :=
      fun e1 hrest herr => hdash ⟨e1, hrest, herr⟩
    rw [parsefield_no_range hp hother, parsefield_run, parseBranch_no_range hp hother]
    exact agrees_reject [(strtol text).value, junk 1]

theorem count_comma_flatten {ts : List Text} {ns : List ℤ} (h : List.Forall₂ Numeral ts ns) :
    (ts.map (',' :: ·)).flatten.count ',' = ns.length := by
  induction h with
  | nil => rfl
  | @cons t n ts ns hn _ ih =>
      have hcomma : t.count ',' = 0 :=
        List.count_eq_zero.mpr (numeral_reading.not_mem hn (by decide))
      rw [List.map_cons, List.flatten_cons, List.count_append, List.count_cons_self, hcomma, ih,
        List.length_cons]
      omega

/-- An accepted list fills its array. -/
theorem listLength_le {p : Text} {size fuel : ℕ} {vals : List ℤ}
    (hp : text.dropWhile Char.isDigit = ',' :: p)
    (h : readList size fuel (strtol text).rest (strtol text).erange [(strtol text).value] =
      some (vals, [], false)) : listLength (',' :: p) ≤ vals.length := by
  obtain ⟨herr, ts, ns, hts, hns, rfl⟩ := readList_spec h rfl
  obtain ⟨t, ht, hn⟩ := numeral_used_up herr
  have hcount : text.count ',' = ns.length := by
    rw [ht, hts, List.count_append, count_comma_flatten hns,
      List.count_eq_zero.mpr (numeral_reading.not_mem hn (by decide)), Nat.zero_add]
  have hsub : ((',' :: p).takeWhile fun c => c.isDigit || c = ',').count ',' ≤ text.count ',' := by
    refine ((List.takeWhile_sublist _).trans ?_).count_le _
    rw [← hp]
    exact List.dropWhile_sublist _
  rw [listLength, List.length_append, List.length_singleton]
  omega

theorem emalloc_set (size : ℕ) (v : ℤ) :
    (emalloc junk (size + 1)).set 0 v = v :: (emalloc junk (size + 1)).tail := by
  rw [emalloc, List.range_succ_eq_map]
  rfl

theorem agrees_list {rest : Text} (hp : text.dropWhile Char.isDigit = ',' :: rest) :
    Agrees (Crontab.parsefield text low high)
      ((parsefield junk text low high).run (unset type)) := by
  obtain ⟨size, hsize⟩ : ∃ size, listLength (',' :: rest) = size + 1 := ⟨_, Nat.add_comm _ _⟩
  have hfilled : ∀ {vals}, readList (size + 1) text.length (strtol text).rest (strtol text).erange
      [(strtol text).value] = some (vals, [], false) → size + 1 ≤ vals.length :=
    fun h => hsize ▸ listLength_le hp h
  simp only [Crontab.parsefield, parsefield_run, parseBranch, hp, hsize]
  generalize strtol text = c at hfilled ⊢
  have htail : [c.value].length + (emalloc junk (size + 1)).tail.length = size + 1 := by
    simp [emalloc_length, Nat.add_comm]
  have hstore : (store 0 c.value).run ⟨.error, some (emalloc junk (size + 1)), some (size + 1)⟩ =
      .ok ((), ⟨.error, some ([c.value] ++ (emalloc junk (size + 1)).tail), some (size + 1)⟩) := by
    rw [store_run c.value (by simp [emalloc_length]), emalloc_set]
    rfl
  have hload : (load 0).run ⟨.error, some ([c.value] ++ (emalloc junk (size + 1)).tail),
      some (size + 1)⟩ = .ok (c.value, ⟨.error, some ([c.value] ++ (emalloc junk (size + 1)).tail),
        some (size + 1)⟩) := load_run (by simp)
  have hloop := @listLoop_run .error (some (size + 1)) (size + 1) text.length c.rest c.erange
    [c.value] (emalloc junk (size + 1)).tail htail
  simp only [StateT.run_bind, setVal_run, setLen_run, ok_bind, hstore, hload]
  by_cases hfirst : c.value < low ∨ c.value > high
  · rw [if_pos hfirst, if_pos hfirst]
    have hlen : size + 1 = ([c.value] ++ (emalloc junk (size + 1)).tail).length := by
      rw [List.length_append, htail]
    have hreject := @agrees_reject low high ([c.value] ++ (emalloc junk (size + 1)).tail)
    rw [← hlen] at hreject
    exact hreject
  · rw [if_neg hfirst, if_neg hfirst]
    cases hread : readList (size + 1) text.length c.rest c.erange [c.value] with
    | none =>
        simp only [hread, List.length_singleton] at hloop
        simp only [StateT.run_bind, hloop, error_bind]
        exact ⟨.outside, rfl⟩
    | some out =>
        obtain ⟨vals, e1, errno⟩ := out
        simp only [hread, List.length_singleton] at hloop
        obtain ⟨junks, hlen, hloop⟩ := hloop
        simp only [StateT.run_bind, hloop, ok_bind]
        rw [← List.length_append] at hlen
        by_cases hbad : e1 ≠ [] ∨ errno
        · rw [if_pos hbad, if_pos hbad, ← hlen]
          exact agrees_reject _
        · rw [if_neg hbad, if_neg hbad]
          simp only [not_or, not_not, Bool.not_eq_true] at hbad
          obtain ⟨rfl, rfl⟩ := hbad
          have hfull := hfilled hread
          obtain rfl : junks = [] := by
            rw [List.length_append] at hlen
            exact List.length_eq_zero_iff.mp (by omega)
          rw [List.append_nil] at hlen ⊢
          rw [← hlen]
          exact agrees_withinLimits (f := .list vals) rfl rfl (by decide)

theorem parsefield_agrees (junk : ℕ → ℤ) (text : Text) (low high : ℤ) (type : FieldType) :
    Agrees (Crontab.parsefield text low high)
      ((parsefield junk text low high).run (unset type)) := by
  cases hp : text.dropWhile Char.isDigit with
  | nil => exact agrees_number hp
  | cons c rest =>
      by_cases hstar : c = '*'
      · exact agrees_star (hstar ▸ hp)
      by_cases hdash : c = '-'
      · exact agrees_range (hdash ▸ hp)
      by_cases hcomma : c = ','
      · exact agrees_list (hcomma ▸ hp)
      have hreject : Crontab.parsefield text low high = .reject := by
        simp only [Crontab.parsefield, hp]
        split <;> simp_all
      have hreturn : parseBranch junk text low high = pure false := by
        simp only [parseBranch, hp]
        split <;> simp_all
      rw [hreject, parsefield_run, hreturn]
      exact ⟨_, rfl⟩

end Refinement

end Dowse.CrontabMemory
