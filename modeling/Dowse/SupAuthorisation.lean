import Dowse.Sup
import Mathlib

/-!
# What sup executes

The first rule that speaks about a command decides alone. When the process reaches
`execv` this rule has accepted the path, the caller, the mode of the file and its hash.
The file was looked up from the working directory of the caller, though, and a daemon
starts its command from the root directory. A relative name may stand for another
file there, which nobody has checked. The hash itself is taken of the whole file, whichever way
its loop is left.
-/
namespace Dowse.Sup
open CStrings Std.Do

set_option mvcgen.warning false

/-- The basename of the requested command, cut to the buffer. -/
def requested (args : List Text) : Text :=
  (basename (snprintf maxCmd (printed (getopt args).2.head?))).1

def firstRule (rules : List Rule) (args : List Text) : Option Rule :=
  rules.find? (·.concerns (requested args))

/-- The file that is asked for: the command itself when it has a path, and what `getpath`
finds otherwise. -/
def resolvedFrom (sys : System) (p : Process) (cmd fullcmd : Text) : Text :=
  if hasPath fullcmd then fullcmd
  else snprintf maxCmd (printed ((getpath sys cmd).run p).1)

def resolved (sys : System) (p : Process) (args : List Text) : Text :=
  resolvedFrom sys p (requested args)
    (basename (snprintf maxCmd (printed (getopt args).2.head?))).2

/-- The rule leaves the path open or names the file. -/
def Rule.opens (rule : Rule) (file : Text) : Prop :=
  ∃ path, rule.path = some path ∧ (path.head? = some '*' ∨ path = file)

/-- The file that the name denotes from a directory is what the rule is about. -/
structure Permits (sys : System) (rule : Rule) (caller : Ids) (cwd file : Text) : Prop where
  path : rule.opens file
  uid : uidAllowed rule caller.uid
  gid : gidAllowed rule caller.gid
  binary : ∃ e, sys.files.entry cwd file = some e ∧ ¬ othersCanWrite e.mode ∧
    ∀ hash, rule.hash = some hash → hash ≠ [] → hexDigest (sys.sha256 e.content) = hash

/-- The tests that sup makes of a file: the mode, and the start of the hash. -/
def PassesChecks (sys : System) (rule : Rule) (e : Entry) : Prop :=
  ¬ othersCanWrite e.mode ∧
    ∀ hash, rule.hash = some hash → hash ≠ [] → hash.take 64 = hexDigest (sys.sha256 e.content)

/-- The hash is not longer than a digest, and a daemon's command is an absolute name or
stands for a file in the root directory that would pass as well. -/
def Sound (sys : System) (rule : Rule) (args : List Text) (p : Process) : Prop :=
  (∀ hash, rule.hash = some hash → hash.length ≤ 64) ∧
    (.daemon ∈ (getopt args).1 → isAbsolute (resolved sys p args) ∨
      ∃ e, sys.files.entry ['/'] (resolved sys p args) = some e ∧ PassesChecks sys rule e)

theorem hashedBytes_eq (content : List UInt8) : hashedBytes content = content := by
  induction content using hashedBytes.induct with
  | case1 content buf h =>
      rw [hashedBytes, if_pos h]
      refine List.take_of_length_le ?_
      rw [List.length_take] at h
      omega
  | case2 content buf h ih =>
      rw [hashedBytes, if_neg h, ih, List.take_append_drop]

theorem length_hexDigest (digest : Digest) : (hexDigest digest).length = 64 := by
  have hbyte : ∀ b, (hexByte b).length = 2 := fun _ => rfl
  simp [hexDigest, List.length_flatten, Function.comp_def, hbyte, digest.length_octets]

theorem matches_of_hashCheck {sys : System} {rule : Rule} {e : Entry}
    (h : hashCheck sys rule e = .ok ()) {hash : Text} (hrule : rule.hash = some hash)
    (hne : hash ≠ []) : hash.take 64 = hexDigest (sys.sha256 e.content) := by
  simp only [hashCheck, hrule, List.length_eq_zero_iff, hne, if_false] at h
  split at h
  · cases h
  · rename_i sizeread digest hsha
    have hdigest : digest = sys.sha256 e.content := by
      unfold getsha at hsha
      split_ifs at hsha
      rw [hashedBytes_eq] at hsha
      cases hsha
      rfl
    by_contra hdiff
    rw [← hdigest] at hdiff
    split_ifs at h

/-- What the second half of the checks has established about the caller and the file. -/
theorem passes_of_binaryCheck {sys : System} {rule : Rule} {caller : Ids} {fullcmd cwd : Text}
    (h : binaryCheck sys rule caller fullcmd cwd = .ok ()) :
    uidAllowed rule caller.uid ∧ gidAllowed rule caller.gid ∧
      ∃ e, sys.files.entry cwd fullcmd = some e ∧ PassesChecks sys rule e := by
  unfold binaryCheck at h
  split at h
  · cases h
  · rename_i st hst
    split_ifs at h with hmode huid hgid
    exact ⟨huid, hgid, st, hst, hmode,
      fun _ hrule hne => matches_of_hashCheck h hrule hne⟩

def Unmoved (c s : Process) : Prop := s.cwd = c.cwd ∧ s.creds = c.creds

theorem getpath_unmoved (sys : System) (str : Text) (c : Process) :
    ⦃fun s => ⌜s = c⌝⦄ getpath sys str ⦃⇓ _ s => ⌜Unmoved c s⌝⦄ := by
  unfold getpath
  mvcgen
  all_goals subst_vars
  all_goals exact ⟨rfl, rfl⟩

@[spec] theorem getpath_spec (sys : System) (str : Text) (c : Process) :
    ⦃fun s => ⌜s = c⌝⦄ getpath sys str
    ⦃⇓ r s => ⌜r = ((getpath sys str).run c).1 ∧ Unmoved c s⌝⦄ := by
  rintro _ ⟨⟩
  exact ⟨rfl, getpath_unmoved sys str c c rfl⟩

theorem opens_of_not_mismatch {rule : Rule} {path file : Text} (hpath : rule.path = some path)
    (h : ¬ (path.head? ≠ some '*' ∧ path ≠ file)) : rule.opens file := by
  refine ⟨path, hpath, ?_⟩
  by_contra hnot
  exact h (not_or.mp hnot)

@[spec] theorem pathCheck_spec (sys : System) (rule : Rule) (cmd fullcmd : Text) (c : Process) :
    ⦃fun s => ⌜s = c⌝⦄ pathCheck sys rule cmd fullcmd
    ⦃⇓ r s => ⌜Unmoved c s ∧ ∀ file, r = .ok file →
      file = resolvedFrom sys c cmd fullcmd ∧ rule.opens file⌝⦄ := by
  unfold pathCheck
  mvcgen
  all_goals subst_vars
  case vc1 hpath => exact ⟨hpath.2, nofun⟩
  case vc2 hrule _ hno _ _ h _ hpath =>
    refine ⟨hpath.2, ?_⟩
    rintro _ ⟨⟩
    refine ⟨?_, opens_of_not_mismatch hrule h⟩
    rw [hpath.1, resolvedFrom, if_neg (by simpa using hno)]
  case vc3 => exact ⟨⟨rfl, rfl⟩, nofun⟩
  case vc4 hrule _ hgiven h _ =>
    refine ⟨⟨rfl, rfl⟩, ?_⟩
    rintro _ ⟨⟩
    refine ⟨?_, opens_of_not_mismatch hrule h⟩
    rw [resolvedFrom, if_pos (by simpa using hgiven)]
  case vc5 => exact ⟨⟨rfl, rfl⟩, nofun⟩

/-- The process that goes on is in its old directory, or it is a daemon in the root. Its
identities are as before. -/
@[spec] theorem daemonise_spec (sys : System) (settings : Settings) (c : Process) :
    ⦃fun s => ⌜s = c⌝⦄ daemonise sys settings
    ⦃⇓ r s => ⌜s.creds = c.creds ∧
      (r = none → s.cwd = if settings.forkDaemon then ['/'] else c.cwd)⌝⦄ := by
  unfold daemonise
  mvcgen
  all_goals subst_vars
  all_goals refine ⟨rfl, ?_⟩
  case vc1 h => simp_all
  case vc2 => exact nofun
  case vc3 hdaemon _ _ _ => rw [if_pos (by simpa using hdaemon)]
  case vc4 => exact nofun
  case vc5 => exact nofun

/-- What is known of a command that a rule executes. The file was checked from the working
directory of the caller. -/
structure Checked (sys : System) (settings : Settings) (caller : Ids) (rule : Rule)
    (c s : Process) (file : Text) : Prop where
  path : rule.opens file
  uid : uidAllowed rule caller.uid
  gid : gidAllowed rule caller.gid
  binary : ∃ e, sys.files.entry c.cwd file = some e ∧ PassesChecks sys rule e
  cwd : s.cwd = if settings.forkDaemon then ['/'] else c.cwd

@[spec] theorem runRule_spec (sys : System) (settings : Settings) (caller : Ids) (rule : Rule)
    (cmd fullcmd : Text) (argv : List Text) (c : Process) :
    ⦃fun s => ⌜s = c⌝⦄ runRule sys settings caller rule cmd fullcmd argv
    ⦃⇓ r s => ⌜∀ file argv', r = .execv file argv' →
      escalate settings.target c.creds = .ok s.creds ∧
      file = resolvedFrom sys c cmd fullcmd ∧ Checked sys settings caller rule c s file⌝⦄ := by
  unfold runRule
  mvcgen
  all_goals subst_vars
  case vc1 => exact nofun
  case vc2 => exact nofun
  case vc3 => exact nofun
  case vc4 => exact nofun
  case vc5 hpath hbinary _ hescalate _ _ hnone _ hdaemon =>
    rintro _ _ ⟨⟩
    obtain ⟨huid, hgid, hfile⟩ := passes_of_binaryCheck hbinary
    obtain ⟨hmoved, hcreds⟩ := hpath.1
    obtain ⟨hresolved, hopens⟩ := hpath.2 _ rfl
    obtain ⟨hkept, hcwd⟩ := hdaemon
    refine ⟨?_, hresolved, hopens, huid, hgid, hmoved ▸ hfile,
      hmoved ▸ hcwd (Option.eq_none_iff_forall_ne_some.mpr hnone)⟩
    rw [hkept, ← hcreds, hescalate]

theorem checked_of_runRule {sys : System} {settings : Settings} {caller : Ids} {rule : Rule}
    {cmd fullcmd file : Text} {argv argv' : List Text} {p p' : Process}
    (h : (runRule sys settings caller rule cmd fullcmd argv).run p = (.execv file argv', p')) :
    escalate settings.target p.creds = .ok p'.creds ∧
      file = resolvedFrom sys p cmd fullcmd ∧ Checked sys settings caller rule p p' file := by
  have hspec : ∀ file argv', ((runRule sys settings caller rule cmd fullcmd argv).run p).1 =
      .execv file argv' → escalate settings.target p.creds =
          .ok ((runRule sys settings caller rule cmd fullcmd argv).run p).2.creds ∧
        file = resolvedFrom sys p cmd fullcmd ∧ Checked sys settings caller rule p
          ((runRule sys settings caller rule cmd fullcmd argv).run p).2 file :=
    runRule_spec sys settings caller rule cmd fullcmd argv p p rfl
  rw [h] at hspec
  exact hspec file argv' rfl

theorem tryRules_eq (sys : System) (settings : Settings) (caller : Ids) (cmd fullcmd : Text)
    (argv : List Text) (rules : List Rule) :
    tryRules sys settings caller cmd fullcmd argv rules =
      match rules.find? (·.concerns cmd) with
      | some rule => runRule sys settings caller rule cmd fullcmd argv
      | none => return .ended (.exit 1) := by
  induction rules with
  | nil => rfl
  | cons rule rules ih =>
      rw [tryRules, List.find?_cons]
      cases h : rule.concerns cmd
      · simpa using ih
      · rfl

theorem forkDaemon_applyOption {sys : System} {settings settings' : Settings} {opt : Opt}
    (h : applyOption sys settings opt = .ok settings') :
    settings'.forkDaemon = (settings.forkDaemon || opt = .daemon) := by
  cases opt with
  | user name | group name =>
      simp only [applyOption] at h
      split at h <;> cases h <;> simp
  | _ => cases h <;> simp

theorem forkDaemon_foldlM {sys : System} {settings settings' : Settings} {opts : List Opt}
    (h : opts.foldlM (applyOption sys) settings = .ok settings') :
    settings'.forkDaemon = (settings.forkDaemon || decide (.daemon ∈ opts)) := by
  induction opts generalizing settings with
  | nil =>
      cases h
      simp
  | cons opt opts ih =>
      rw [List.foldlM_cons] at h
      cases hopt : applyOption sys settings opt with
      | error ending => simp [hopt, bind, Except.bind] at h
      | ok next =>
          simp only [hopt, bind, Except.bind] at h
          rw [ih h, forkDaemon_applyOption hopt]
          cases settings.forkDaemon <;> simp [eq_comm]

/-- A run that reaches `execv` went through the first rule for its command. -/
theorem checked_of_execv {rules : List Rule} {sys : System} {args argv : List Text}
    {p p' : Process} {file : Text}
    (h : run rules sys args p = (.execv file argv, p')) :
    ∃ rule settings, firstRule rules args = some rule ∧
      (getopt args).1.foldlM (applyOption sys) ⟨⟨0, 0⟩, false, []⟩ = .ok settings ∧
      escalate settings.target p.creds = .ok p'.creds ∧
      file = resolved sys p args ∧ Checked sys settings p.creds.real rule p p' file := by
  cases hopts : (getopt args).1.foldlM (applyOption sys) ⟨⟨0, 0⟩, false, []⟩ with
  | error ending =>
      have hend : run rules sys args p = (.ended ending, p) := by
        simp only [run, main, hopts]
        rfl
      rw [hend] at h
      cases h
  | ok settings =>
      have hrun : run rules sys args p = (tryRules sys settings p.creds.real
          (requested args) (basename (snprintf maxCmd (printed (getopt args).2.head?))).2
          (getopt args).2 rules).run p := by
        simp only [run, main, hopts]
        rfl
      rw [hrun, tryRules_eq] at h
      cases hrule : rules.find? (·.concerns (requested args)) with
      | none =>
          rw [hrule] at h
          cases h
      | some rule =>
          rw [hrule] at h
          exact ⟨rule, settings, hrule, rfl, checked_of_runRule h⟩

/-- A file that passes the tests is the one of the rule unless the rule's hash is too long
to be compared in full. -/
theorem permitted_binary_iff (sys : System) (rule : Rule) (cwd file : Text) :
    (∃ e, sys.files.entry cwd file = some e ∧ ¬ othersCanWrite e.mode ∧
      ∀ hash, rule.hash = some hash → hash ≠ [] → hexDigest (sys.sha256 e.content) = hash) ↔
    (∀ hash, rule.hash = some hash → hash.length ≤ 64) ∧
      ∃ e, sys.files.entry cwd file = some e ∧ PassesChecks sys rule e := by
  have hfull : ∀ e : Entry, ∀ hash : Text, hash.take 64 = hexDigest (sys.sha256 e.content) →
      hash.length ≤ 64 → hexDigest (sys.sha256 e.content) = hash := by
    intro e hash htake hle
    rw [← htake, List.take_of_length_le hle]
  constructor
  · rintro ⟨e, hentry, hmode, hhash⟩
    constructor
    · intro hash hrule
      by_cases hne : hash = []
      · simp [hne]
      · rw [← hhash hash hrule hne, length_hexDigest]
    · refine ⟨e, hentry, hmode, fun hash hrule hne => ?_⟩
      rw [hhash hash hrule hne]
      refine List.take_of_length_le ?_
      rw [← hhash hash hrule hne, length_hexDigest]
  · rintro ⟨hle, e, hentry, hmode, htake⟩
    exact ⟨e, hentry, hmode, fun hash hrule hne =>
      hfull e hash (htake hash hrule hne) (hle hash hrule)⟩

/-- The file that is executed passes the tests: it is the one that was tested, or it has
another directory. -/
theorem executed_passes_iff {sys : System} {settings : Settings} {caller : Ids} {rule : Rule}
    {p p' : Process} {file : Text} (h : Checked sys settings caller rule p p' file) :
    (∃ e, sys.files.entry p'.cwd file = some e ∧ PassesChecks sys rule e) ↔
      (settings.forkDaemon → isAbsolute file ∨
        ∃ e, sys.files.entry ['/'] file = some e ∧ PassesChecks sys rule e) := by
  rw [h.cwd]
  cases settings.forkDaemon with
  | false => simpa using h.binary
  | true =>
      simp only [if_true, true_implies]
      constructor
      · exact .inr
      · rintro (habs | hroot)
        · rw [sys.files.absolute file habs ['/'] p.cwd]
          exact h.binary
        · exact hroot

/-- Whenever a run reaches `execv`, the first rule for the command permits the file that
the name stands for at that moment, if and only if the rule's hash is not too long and a
daemon's command is absolute or stands for a file in the root directory that would have
passed the tests. -/
theorem execv_permits_iff {rules : List Rule} {sys : System} {args argv : List Text}
    {p p' : Process} {file : Text}
    (h : run rules sys args p = (.execv file argv, p')) :
    ∃ rule, firstRule rules args = some rule ∧
      (Permits sys rule p.creds.real p'.cwd file ↔ Sound sys rule args p) := by
  obtain ⟨rule, settings, hrule, hopts, -, rfl, hchecked⟩ := checked_of_execv h
  have hdaemon : settings.forkDaemon = decide (.daemon ∈ (getopt args).1) := by
    simpa using forkDaemon_foldlM hopts
  have hpermits : Permits sys rule p.creds.real p'.cwd (resolved sys p args) ↔
      ∃ e, sys.files.entry p'.cwd (resolved sys p args) = some e ∧ ¬ othersCanWrite e.mode ∧
        ∀ hash, rule.hash = some hash → hash ≠ [] → hexDigest (sys.sha256 e.content) = hash :=
    ⟨Permits.binary, fun hbinary => ⟨hchecked.path, hchecked.uid, hchecked.gid, hbinary⟩⟩
  refine ⟨rule, hrule, ?_⟩
  rw [hpermits, permitted_binary_iff, executed_passes_iff hchecked, hdaemon, decide_eq_true_iff]
  rfl

/-- A user whose home has a directory `tmp` with a copy of `id`, and a file of the same name
in `/tmp` that everybody can write. -/
def homeFiles : FileSystem where
  entry cwd path :=
    if path = "tmp/id".toList then
      if cwd = ['/'] then some ⟨511, 1, [1], true, false⟩ else some ⟨493, 1, [0], true, false⟩
    else none
  absolute path habs cwd cwd' := by
    have hne : path ≠ "tmp/id".toList := by
      rintro rfl
      exact absurd habs (by decide)
    rw [if_neg hne, if_neg hne]

def homeSystem : System :=
  ⟨homeFiles, fun _ => .absent, .child, true, fun _ => ⟨List.replicate 32 0, rfl⟩⟩

def homeProcess : Process :=
  ⟨⟨⟨1000, 1000⟩, ⟨0, 1000⟩, ⟨0, 1000⟩⟩, "/home/user".toList, some "tmp:".toList⟩

def idRule : Rule := ⟨1000, -1, "id".toList, some ['*'], some []⟩

theorem execv_permits_iff_foreground :
    run [idRule] homeSystem ["id".toList] homeProcess =
      (.execv "tmp/id".toList ["id".toList],
        ⟨⟨⟨0, 0⟩, ⟨0, 0⟩, ⟨0, 0⟩⟩, "/home/user".toList, some "tmp".toList⟩) ∧
    ∃ rule, firstRule [idRule] ["id".toList] = some rule ∧
      (Permits homeSystem rule ⟨1000, 1000⟩ "/home/user".toList "tmp/id".toList ↔
        Sound homeSystem rule ["id".toList] homeProcess) := by
  have hrun : run [idRule] homeSystem ["id".toList] homeProcess =
      (.execv "tmp/id".toList ["id".toList],
        ⟨⟨⟨0, 0⟩, ⟨0, 0⟩, ⟨0, 0⟩⟩, "/home/user".toList, some "tmp".toList⟩) := by decide
  exact ⟨hrun, execv_permits_iff hrun⟩

/-- The daemon executes the file in `/tmp`. -/
theorem daemon_executes_unchecked_file :
    ∃ p', run [idRule] homeSystem ["-d".toList, "id".toList] homeProcess =
        (.execv "tmp/id".toList ["id".toList], p') ∧
      firstRule [idRule] ["-d".toList, "id".toList] = some idRule ∧
      (homeSystem.files.entry p'.cwd "tmp/id".toList).any (othersCanWrite ·.mode) ∧
      ¬ Permits homeSystem idRule homeProcess.creds.real p'.cwd "tmp/id".toList := by
  refine ⟨⟨⟨⟨0, 0⟩, ⟨0, 0⟩, ⟨0, 0⟩⟩, ['/'], some "tmp".toList⟩, by decide, by decide, by decide, ?_⟩
  rintro ⟨-, -, -, e, hentry, hmode, -⟩
  have he : homeSystem.files.entry ['/'] "tmp/id".toList = some ⟨511, 1, [1], true, false⟩ := by
    decide
  rw [he] at hentry
  cases hentry
  exact hmode (by decide)

section Hashing

/-- The loop over a file: what `sha256_update` has been given, the size so far, in an
`unsigned long`, and what the last `fread` left in the buffer. -/
def readChunks (updates : List (List UInt8)) (tot : ℕ) (content : List UInt8) :
    List (List UInt8) × ℕ × List UInt8 :=
  let buf := content.take chunk
  if buf.length = 0 then (updates, tot, buf)
  else
    let tot := (tot + buf.length) % 2 ^ 64
    if buf.length < chunk then (updates, tot, buf)
    else readChunks (updates ++ [buf]) tot (content.drop chunk)
termination_by content.length
decreasing_by
  have hlen : buf.length ≤ content.length := List.length_take_le' _ _
  have hpos : 0 < chunk := Nat.succ_pos _
  rw [List.length_drop]
  omega

/-- All calls of `sha256_update`, the one behind the loop included. -/
def shaUpdates (content : List UInt8) : List (List UInt8) :=
  let r := readChunks [] 0 content
  if 0 < r.2.2.length then r.1 ++ [r.2.2] else r.1

/-- A read that fills less than the buffer has come to the end of the file. -/
theorem take_of_short {content : List UInt8} (h : (content.take chunk).length < chunk) :
    content.take chunk = content := by
  refine List.take_of_length_le ?_
  rw [List.length_take] at h
  omega

theorem readChunks_spec (updates : List (List UInt8)) {tot : ℕ} (htot : tot < 2 ^ 64)
    (content : List UInt8) :
    let r := readChunks updates tot content
    r.1.flatten ++ r.2.2 = updates.flatten ++ content ∧
      r.2.1 = (tot + content.length) % 2 ^ 64 := by
  induction updates, tot, content using readChunks.induct with
  | case1 updates tot content buf h =>
      have hbuf : buf = content := take_of_short (by rw [h]; exact Nat.succ_pos _)
      have hlen : content.length = 0 := by rwa [← hbuf]
      rw [readChunks, if_pos h, hlen, Nat.add_zero, Nat.mod_eq_of_lt htot]
      exact ⟨congrArg (updates.flatten ++ ·) hbuf, rfl⟩
  | case2 updates tot content buf h hlast =>
      have hbuf : buf = content := take_of_short hlast
      rw [readChunks, if_neg h]
      dsimp only
      rw [if_pos hlast]
      exact ⟨congrArg (updates.flatten ++ ·) hbuf,
        congrArg (fun read => (tot + read.length) % 2 ^ 64) hbuf⟩
  | case3 updates tot content buf h tot' hfull ih =>
      obtain ⟨hbytes, hsize⟩ := ih (Nat.mod_lt _ (Nat.two_pow_pos 64))
      rw [readChunks, if_neg h]
      dsimp only
      rw [if_neg hfull]
      refine ⟨hbytes.trans ?_, hsize.trans ?_⟩
      · rw [List.flatten_append, List.flatten_singleton, List.append_assoc,
          List.take_append_drop]
      · rw [Nat.mod_add_mod, Nat.add_assoc, ← List.length_append, List.take_append_drop]

/-- The calls pass on every byte of the file once, and in order. -/
theorem flatten_shaUpdates (content : List UInt8) : (shaUpdates content).flatten = content := by
  obtain ⟨hbytes, -⟩ := readChunks_spec [] (Nat.two_pow_pos 64) content
  unfold shaUpdates
  dsimp only
  split_ifs with hlast
  · rw [List.flatten_append, List.flatten_singleton]
    exact hbytes
  · rw [Nat.not_lt, Nat.le_zero, List.length_eq_zero_iff] at hlast
    rw [hlast, List.append_nil] at hbytes
    exact hbytes

def offMax : ℕ := 2 ^ 63 - 1

/-- A file that can be read is hashed from its first byte to its last, in the calls that the loop
makes and the one behind it, and its size is returned. -/
theorem getsha_whole_file (sys : System) (entry : Entry) (hopens : entry.opens = true)
    (hread : entry.readError = false) (hsize : entry.content.length ≤ offMax) :
    (shaUpdates entry.content).flatten = entry.content ∧
      (readChunks [] 0 entry.content).2.1 = entry.content.length ∧
      getsha sys entry = .ok ((readChunks [] 0 entry.content).2.1,
        sys.sha256 (shaUpdates entry.content).flatten) := by
  obtain ⟨-, htot⟩ := readChunks_spec [] (Nat.two_pow_pos 64) entry.content
  have hlt : entry.content.length < 2 ^ 64 := hsize.trans_lt (by decide)
  rw [Nat.zero_add, Nat.mod_eq_of_lt hlt] at htot
  refine ⟨flatten_shaUpdates entry.content, htot, ?_⟩
  rw [htot, flatten_shaUpdates, getsha, hopens, hread, hashedBytes_eq]
  dsimp only
  rw [Nat.mod_eq_of_lt hlt]
  rfl

/-- Two chunks, and nothing behind them. -/
theorem getsha_two_chunks :
    getsha homeSystem ⟨493, 2 * chunk, List.replicate (2 * chunk) 0, true, false⟩ =
      .ok (2 * chunk, homeSystem.sha256 (List.replicate (2 * chunk) 0)) := by
  have hsize : (List.replicate (2 * chunk) (0 : UInt8)).length ≤ offMax := by
    rw [List.length_replicate]
    decide
  obtain ⟨hbytes, htot, hsha⟩ := getsha_whole_file homeSystem
    ⟨493, 2 * chunk, List.replicate (2 * chunk) 0, true, false⟩ rfl rfl hsize
  rw [hsha, hbytes, htot, List.length_replicate]

end Hashing

end Dowse.Sup
