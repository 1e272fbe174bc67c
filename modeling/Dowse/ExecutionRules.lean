import Dowse.Sha256Refinement
import Dowse.SupAuthorisation

/-!
# The rules that sup is built with

`checksum.sh` writes the table of sup at the end of a build: for each program that is to
run as root, its name and the checksum of its binary. `launch` calls sup with the
path of a program. A program is then executed exactly when a rule was made for the last component
of its path, and the file has the digest that the standard gives for the binary
that was there at build time.

The names of programs are words of letters, digits and dashes. `sha256sum` marks a line with
a backslash when it has to escape the name of the file, and the mark would start an escape of the C
string that the checksum becomes. No path of a build has a character that is escaped.
-/
namespace Dowse.ExecutionRules
open CStrings Sup Sha256 Sha256Standard

/-- A name that `sha256sum` escapes. -/
def escapes (name : Text) : Bool := name.any fun c => c = '\\' ∨ c = '\n' ∨ c = '\r'

/-- What the script finds. `readable` is the outcome of the test `-r`, and `content` is what
`sha256sum` can read. -/
structure Build where
  home : Text
  execmap : List (Text × Text)
  execrules : Text → Text
  readable : Text → Bool
  content : Text → Option (List UInt8)
  uid : ℕ
  gid : ℕ
  nodup : (execmap.map Prod.fst).Nodup
  names : ∀ x ∈ execmap.map Prod.fst, ∀ c ∈ x, c.isAlphanum ∨ c = '-'
  plainHome : escapes home = false
  plainPaths : ∀ path ∈ execmap.map Prod.snd, escapes path = false

def hexText (bytes : List UInt8) : Text := (bytes.map hexByte).flatten

/-- The first word of what `sha256sum` prints for a file, nothing if it fails. -/
def sha256sum (b : Build) (name : Text) : Text :=
  match b.content name with
  | some bytes => (if escapes name then ['\\'] else []) ++ hexText (digest bytes)
  | none => []

/-- The binary of a program, in the build or else where it is installed. -/
def binary (b : Build) (x path : Text) : Option Text :=
  let built := b.home ++ "/build/bin/".toList ++ x
  if b.readable built then some built
  else if b.readable path then some path
  else none

/-- One turn of the loop over the map. -/
def ruleFor (b : Build) (entry : Text × Text) : Option Rule :=
  if b.execrules entry.1 = "root".toList then
    match binary b entry.1 entry.2 with
    | none => none
    | some file =>
        let cksum := sha256sum b file
        if cksum = [] then none
        else some ⟨b.uid, b.gid, entry.1, some ['*'], some cksum⟩
  else none

/-- The table in `config.h` without its terminator. -/
def generate (b : Build) : List Rule := b.execmap.filterMap (ruleFor b)

/-- The branch of `launch` for a program that runs as root. -/
def launchRoot (b : Build) (sys : System) (path : Text) (args : List Text) (p : Process) :
    Outcome × Process :=
  run (generate b) sys (path :: args) p

/-- A path as the map has them, which sup takes as it is. -/
structure Given (path : Text) : Prop where
  absolute : isAbsolute path
  last : path.getLast? ≠ some '/'
  fits : path.length < maxCmd
  text : '\x00' ∉ path

def component (path : Text) : Text := path.rtakeWhile (· ≠ '/')

section Table
variable {b : Build} {rule : Rule}

theorem cmd_of_ruleFor {entry : Text × Text} (h : ruleFor b entry = some rule) :
    rule.cmd = entry.1 := by
  unfold ruleFor at h
  split_ifs at h
  split at h
  · cases h
  · dsimp only at h
    split_ifs at h
    cases h
    rfl

theorem eq_of_cmd_eq {r r' : Rule} (h : r ∈ generate b) (h' : r' ∈ generate b)
    (heq : r.cmd = r'.cmd) : r = r' := by
  obtain ⟨entry, hmem, hr⟩ := List.mem_filterMap.mp h
  obtain ⟨entry', hmem', hr'⟩ := List.mem_filterMap.mp h'
  have hkey : entry.1 = entry'.1 := by rw [← cmd_of_ruleFor hr, heq, cmd_of_ruleFor hr']
  have hentry : entry = entry' := List.inj_on_of_nodup_map b.nodup hmem hmem' hkey
  rw [hentry, hr'] at hr
  exact (Option.some.inj hr).symm

/-- No name in the table is a wildcard. -/
theorem concerns_iff (h : rule ∈ generate b) (name : Text) :
    rule.concerns name ↔ name = rule.cmd := by
  obtain ⟨entry, hmem, hrule⟩ := List.mem_filterMap.mp h
  have hstar : rule.cmd.head? ≠ some '*' := by
    intro hhead
    have hc : '*' ∈ entry.1 := cmd_of_ruleFor hrule ▸ List.mem_of_head? hhead
    exact absurd (b.names _ (List.mem_map_of_mem hmem) _ hc) (by decide)
  simp [Rule.concerns, hstar]

theorem find?_generate (name : Text) :
    (generate b).find? (·.concerns name) = some rule ↔ rule ∈ generate b ∧ rule.cmd = name := by
  constructor
  · intro h
    have hmem := List.mem_of_find?_eq_some h
    have hconcerns : rule.concerns name := List.find?_some (p := fun r : Rule => r.concerns name) h
    exact ⟨hmem, ((concerns_iff hmem name).mp hconcerns).symm⟩
  · rintro ⟨hmem, rfl⟩
    have hsome : ((generate b).find? (·.concerns rule.cmd)).isSome :=
      List.find?_isSome.mpr ⟨rule, hmem, (concerns_iff hmem _).mpr rfl⟩
    obtain ⟨r, hr⟩ := Option.isSome_iff_exists.mp hsome
    have hrmem := List.mem_of_find?_eq_some hr
    have hconcerns : r.concerns rule.cmd :=
      List.find?_some (p := fun r : Rule => r.concerns rule.cmd) hr
    rw [hr, eq_of_cmd_eq hrmem hmem ((concerns_iff hrmem _).mp hconcerns).symm]

end Table

section Run
variable {sys : System} {path : Text} {args : List Text} {p : Process}

theorem basename_given (h : Given path) : basename path = (component path, path) := by
  have hne : path ≠ [] := by
    rintro rfl
    exact absurd h.absolute (by decide)
  have hlast : path.rdropWhile (· = '/') = path := by
    rw [List.rdropWhile_eq_self_iff]
    intro hpath hlast
    refine h.last ?_
    rw [List.getLast?_eq_getLast_of_ne_nil hpath, of_decide_eq_true hlast]
  simp only [basename, hlast, hne, if_false]
  rfl

theorem getopt_given (h : Given path) (args : List Text) :
    getopt (path :: args) = ([], path :: args) := by
  have hhead : path.head? = some '/' := of_decide_eq_true h.absolute
  cases path with
  | nil => cases hhead
  | cons c rest =>
      cases hhead
      rw [getopt]
      · simp
      · intro c letters heq
        cases heq

theorem run_given (rules : List Rule) (h : Given path) :
    run rules sys (path :: args) p =
      (tryRules sys ⟨⟨0, 0⟩, false, []⟩ p.creds.real (component path) path (path :: args) rules).run
        p := by
  have hname : snprintf maxCmd (printed (path :: args).head?) = path := by
    rw [List.head?_cons, printed, cstr_eq_self h.text, snprintf_of_length_lt h.fits]
  simp only [run, main, getopt_given h, hname, basename_given h]
  rfl

/-- With an effective root identity the switch to the root user succeeds. -/
theorem escalate_root (h : p.creds.effective.uid = 0) :
    escalate ⟨0, 0⟩ p.creds = .ok ⟨⟨0, 0⟩, ⟨0, 0⟩, ⟨0, 0⟩⟩ := by
  simp [escalate, Creds.setuid, Creds.setgid, Creds.seteuid, Creds.setegid, h]
  rfl

theorem runRule_given {rule : Rule} (hpath : rule.path = some ['*']) (h : Given path)
    (hroot : p.creds.effective.uid = 0) (cmd : Text) :
    ((runRule sys ⟨⟨0, 0⟩, false, []⟩ p.creds.real rule cmd path (path :: args)).run p).1 =
      match binaryCheck sys rule p.creds.real path p.cwd with
      | .error ending => .ended ending
      | .ok () => .execv path (path :: args) := by
  have hcheck : pathCheck sys rule cmd path = pure (.ok path) := by
    have habs : hasPath path = true := by simp [hasPath, h.absolute]
    simp [pathCheck, hpath, habs]
  have hescalate := escalate_root hroot
  simp only [runRule, hcheck, pure_bind]
  cases hbinary : binaryCheck sys rule p.creds.real path p.cwd with
  | error ending =>
      simp [hbinary]
      rfl
  | ok _ =>
      simp [hbinary, hescalate, daemonise]
      rfl

end Run

section Hash

theorem hexByte_injective : Function.Injective hexByte := by
  have hdigit : ∀ m < 16, ∀ n < 16, Nat.digitChar m = Nat.digitChar n → m = n := by decide
  intro a b h
  have ha := a.toNat_lt
  have hb := b.toNat_lt
  rw [hexByte, hexByte, List.cons.injEq, List.cons.injEq] at h
  have hhigh := hdigit _ (by omega) _ (by omega) h.1
  have hlow := hdigit _ (by omega) _ (by omega) h.2.1
  exact UInt8.toNat_inj.mp (by omega)

theorem hexText_injective : Function.Injective hexText := by
  intro l l' h
  induction l generalizing l' with
  | nil =>
      cases l' with
      | nil => rfl
      | cons a l' => cases h
  | cons a l ih =>
      cases l' with
      | nil => cases h
      | cons a' l' =>
          have hbytes : hexByte a ++ hexText l = hexByte a' ++ hexText l' := h
          obtain ⟨hhead, htail⟩ := List.append_inj hbytes rfl
          rw [hexByte_injective hhead, ih htail]

theorem length_sha256Finish {w : ℕ} (ctx : Context w) : (sha256Finish ctx).length = 32 := by
  simp [sha256Finish, putUint32]

/-- What `getsha` computes with the functions of `sha256.c`, on a static context. -/
def codeDigest {w : ℕ} (ctx : Context w) (content : List UInt8) : Digest :=
  ⟨sha256Finish ((shaUpdates content).foldl sha256Update (sha256Starts ctx)),
    length_sha256Finish _⟩

def withCode {w : ℕ} (ctx : Context w) (sys : System) : System :=
  { sys with sha256 := codeDigest ctx }

theorem length_of_mem_readChunks (updates : List (List UInt8)) (tot : ℕ) (content : List UInt8)
    (h : ∀ c ∈ updates, c.length ≤ chunk) :
    (∀ c ∈ (readChunks updates tot content).1, c.length ≤ chunk) ∧
      (readChunks updates tot content).2.2.length ≤ chunk := by
  induction updates, tot, content using readChunks.induct with
  | case1 updates tot content buf hnil =>
      rw [readChunks, if_pos hnil]
      exact ⟨h, List.length_take_le _ _⟩
  | case2 updates tot content buf hnil hlast =>
      rw [readChunks, if_neg hnil]
      dsimp only
      rw [if_pos hlast]
      exact ⟨h, List.length_take_le _ _⟩
  | case3 updates tot content buf hnil tot' hfull ih =>
      rw [readChunks, if_neg hnil]
      dsimp only
      rw [if_neg hfull]
      refine ih fun c hc => ?_
      rcases List.mem_append.mp hc with hold | hnew
      · exact h c hold
      · rw [List.mem_singleton.mp hnew]
        exact List.length_take_le _ _

theorem length_of_mem_shaUpdates {content c : List UInt8} (h : c ∈ shaUpdates content) :
    c.length < 2 ^ 32 := by
  obtain ⟨hloop, hlast⟩ := length_of_mem_readChunks [] 0 content
    (fun c hc => absurd hc List.not_mem_nil)
  have hchunk : chunk < 2 ^ 32 := by decide
  unfold shaUpdates at h
  dsimp only at h
  split_ifs at h
  · rcases List.mem_append.mp h with hc | hc
    · exact (hloop c hc).trans_lt hchunk
    · rw [List.mem_singleton.mp hc]
      exact hlast.trans_lt hchunk
  · exact (hloop c h).trans_lt hchunk

/-- The hexadecimal text that sup compares is that of the digest of the standard. -/
theorem hexDigest_codeDigest {w : ℕ} (hw : 32 ≤ w) {ctx : Context w}
    (hbuffer : ctx.buffer.length = 64) (content : List UInt8) :
    hexDigest (codeDigest ctx content) = hexText (digest content) := by
  have hshort : ∀ c ∈ shaUpdates content, c.length < 2 ^ 32 :=
    fun _ hc => length_of_mem_shaUpdates hc
  have hfinish := (holds_updates hw hshort (holds_starts hw hbuffer)).finish hw
  rw [List.nil_append, flatten_shaUpdates] at hfinish
  exact congrArg hexText hfinish

end Hash

section Checks
variable {sys : System} {rule : Rule}

theorem hashCheck_iff {hash : Text} (hrule : rule.hash = some hash) (hne : hash ≠ []) (e : Entry) :
    hashCheck sys rule e = .ok () ↔
      e.opens = true ∧ e.readError = false ∧ e.content.length % 2 ^ 64 = e.size ∧
        hash.take 64 = hexDigest (sys.sha256 e.content) := by
  simp only [hashCheck, hrule, List.length_eq_zero_iff, hne, if_false, getsha, hashedBytes_eq]
  cases e.opens
  · simp
  cases e.readError
  · simp
    split_ifs <;> simp_all
  · simp

theorem binaryCheck_iff (caller : Ids) (fullcmd cwd : Text) :
    binaryCheck sys rule caller fullcmd cwd = .ok () ↔
      ∃ e, sys.files.entry cwd fullcmd = some e ∧ ¬ othersCanWrite e.mode ∧
        uidAllowed rule caller.uid ∧ gidAllowed rule caller.gid ∧
        hashCheck sys rule e = .ok () := by
  unfold binaryCheck
  cases sys.files.entry cwd fullcmd with
  | none => simp
  | some e =>
      simp only [Option.some.injEq, exists_eq_left']
      split_ifs <;> simp_all

end Checks

/-- The caller and the file are those that the build has made a rule for. -/
structure Admits (b : Build) (caller : Ids) (path : Text) (e : Entry) : Prop where
  mode : ¬ othersCanWrite e.mode
  uid : caller.uid = 0 ∨ caller.uid = b.uid
  gid : caller.gid = 0 ∨ caller.gid = b.gid
  reads : e.opens = true ∧ e.readError = false ∧ e.content.length % 2 ^ 64 = e.size
  locked : ∃ installed file bytes, (component path, installed) ∈ b.execmap ∧
    b.execrules (component path) = "root".toList ∧
    binary b (component path) installed = some file ∧ b.content file = some bytes ∧
    digest e.content = digest bytes

section Lock
variable {b : Build}

theorem length_hexText_digest (bytes : List UInt8) : (hexText (digest bytes)).length = 64 := rfl

theorem escapes_binary {x path file : Text} (hmem : (x, path) ∈ b.execmap)
    (h : binary b x path = some file) : escapes file = false := by
  simp only [binary] at h
  split_ifs at h
  · have hname : escapes x = false := by
      refine List.any_eq_false.mpr fun c hc => ?_
      rcases b.names x (List.mem_map_of_mem hmem) c hc with hc | rfl
      · rintro hescaped
        rcases of_decide_eq_true hescaped with rfl | rfl | rfl <;> exact absurd hc (by decide)
      · decide
    have hdir : escapes "/build/bin/".toList = false := by decide
    have happend : ∀ s t, escapes s = false → escapes t = false → escapes (s ++ t) = false := by
      intro s t hs ht
      rw [escapes, List.any_append, ← escapes, ← escapes, hs, ht, Bool.or_false]
    obtain rfl := Option.some.inj h
    exact happend _ _ (happend _ _ b.plainHome hdir) hname
  · exact Option.some.inj h ▸ b.plainPaths _ (List.mem_map_of_mem hmem)

theorem take_sha256sum_iff {file : Text} {bytes : List UInt8} (hplain : escapes file = false)
    (h : b.content file = some bytes) (content : List UInt8) :
    (sha256sum b file).take 64 = hexText (digest content) ↔ digest content = digest bytes := by
  have hsum : sha256sum b file = hexText (digest bytes) := by
    simp only [sha256sum, h, hplain, Bool.false_eq_true, if_false, List.nil_append]
  rw [hsum, List.take_of_length_le (length_hexText_digest bytes).le]
  exact ⟨fun heq => (hexText_injective heq).symm, fun heq => by rw [heq]⟩

theorem sha256sum_ne_nil {file : Text} {bytes : List UInt8} (h : b.content file = some bytes) :
    sha256sum b file ≠ [] := by
  have hne : hexText (digest bytes) ≠ [] := List.ne_nil_of_length_pos (by
    rw [length_hexText_digest]
    decide)
  simp [sha256sum, h, hne]

/-- A rule stands for a binary that could be read. -/
theorem mem_generate_iff {rule : Rule} :
    rule ∈ generate b ↔ ∃ installed file bytes, (rule.cmd, installed) ∈ b.execmap ∧
      b.execrules rule.cmd = "root".toList ∧ binary b rule.cmd installed = some file ∧
      b.content file = some bytes ∧
      rule = ⟨b.uid, b.gid, rule.cmd, some ['*'], some (sha256sum b file)⟩ := by
  rw [generate, List.mem_filterMap]
  constructor
  · rintro ⟨⟨x, installed⟩, hmem, hrule⟩
    have hcmd : rule.cmd = x := cmd_of_ruleFor hrule
    subst hcmd
    simp only [ruleFor] at hrule
    split_ifs at hrule with hroot
    cases hfile : binary b rule.cmd installed with
    | none =>
        rw [hfile] at hrule
        cases hrule
    | some file =>
        simp only [hfile] at hrule
        split_ifs at hrule with hsum
        cases hcontent : b.content file with
        | none => exact absurd (by rw [sha256sum, hcontent]) hsum
        | some bytes =>
            exact ⟨installed, file, bytes, hmem, hroot, hfile, hcontent,
              (Option.some.inj hrule).symm⟩
  · rintro ⟨installed, file, bytes, hmem, hroot, hfile, hcontent, hrule⟩
    refine ⟨_, hmem, ?_⟩
    simp only [ruleFor, if_pos hroot, hfile, if_neg (sha256sum_ne_nil hcontent)]
    rw [← hrule]

end Lock

theorem admits_of_check {w : ℕ} (hw : 32 ≤ w) {ctx : Context w} (hbuffer : ctx.buffer.length = 64)
    {b : Build} {sys : System} {rule : Rule} (hmem : rule ∈ generate b) {path cwd : Text}
    (hcmd : rule.cmd = component path) (caller : Ids) :
    binaryCheck (withCode ctx sys) rule caller path cwd = .ok () ↔
      ∃ e, sys.files.entry cwd path = some e ∧ Admits b caller path e := by
  obtain ⟨installed, file, bytes, hentry, hrule, hfile, hcontent, heq⟩ := mem_generate_iff.mp hmem
  have hhash : rule.hash = some (sha256sum b file) := by rw [heq]
  have hid (n : ℕ) (id : ℤ) : (id = 0 ∨ (n : ℤ) = -1 ∨ (n : ℤ) = id) ↔ id = 0 ∨ id = n := by
    omega
  have huid (uid : ℤ) : uidAllowed rule uid ↔ uid = 0 ∨ uid = b.uid := by
    rw [heq]
    exact hid b.uid uid
  have hgid (gid : ℤ) : gidAllowed rule gid ↔ gid = 0 ∨ gid = b.gid := by
    rw [heq]
    exact hid b.gid gid
  rw [binaryCheck_iff]
  refine exists_congr fun e => and_congr_right fun _ => ?_
  have hdigest : hexDigest ((withCode ctx sys).sha256 e.content) = hexText (digest e.content) :=
    hexDigest_codeDigest hw hbuffer e.content
  rw [hashCheck_iff hhash (sha256sum_ne_nil hcontent), hdigest,
    take_sha256sum_iff (escapes_binary hentry hfile) hcontent, huid, hgid]
  constructor
  · rintro ⟨hmode, hu, hg, hopens, hread, hsize, hsame⟩
    rw [hcmd] at hentry hrule hfile
    exact ⟨hmode, hu, hg, ⟨hopens, hread, hsize⟩, installed, file, bytes, hentry, hrule, hfile,
      hcontent, hsame⟩
  · rintro ⟨hmode, hu, hg, ⟨hopens, hread, hsize⟩, installed', file', bytes', hentry', -, hfile',
      hcontent', hsame⟩
    rw [hcmd] at hentry hfile
    have hpair := List.inj_on_of_nodup_map b.nodup hentry hentry' rfl
    cases hpair
    rw [hfile, Option.some_inj] at hfile'
    subst hfile'
    rw [hcontent, Option.some_inj] at hcontent'
    subst hcontent'
    exact ⟨hmode, hu, hg, hopens, hread, hsize, hsame⟩

/-- A program that is launched as root is executed exactly when the build has made a rule for
it and the file is the one of the build, as far as the digest of the standard can tell. -/
theorem launchRoot_iff {w : ℕ} (hw : 32 ≤ w) {ctx : Context w} (hbuffer : ctx.buffer.length = 64)
    (b : Build) (sys : System) {path : Text} (hpath : Given path) (args : List Text) {p : Process}
    (hroot : p.creds.effective.uid = 0) :
    (launchRoot b (withCode ctx sys) path args p).1 = .execv path (path :: args) ↔
      ∃ e, sys.files.entry p.cwd path = some e ∧ Admits b p.creds.real path e := by
  rw [launchRoot, run_given _ hpath, tryRules_eq]
  cases hfind : (generate b).find? (·.concerns (component path)) with
  | none =>
      refine iff_of_false (fun h => by cases h) ?_
      rintro ⟨e, -, hadmits⟩
      obtain ⟨installed, file, bytes, hentry, hrule, hfile, hcontent, -⟩ := hadmits.locked
      have hmem : (⟨b.uid, b.gid, component path, some ['*'], some (sha256sum b file)⟩ : Rule) ∈
          generate b :=
        mem_generate_iff.mpr ⟨installed, file, bytes, hentry, hrule, hfile, hcontent, rfl⟩
      rw [(find?_generate _).mpr ⟨hmem, rfl⟩] at hfind
      cases hfind
  | some rule =>
      obtain ⟨hmem, hcmd⟩ := (find?_generate _).mp hfind
      obtain ⟨_, _, _, _, _, _, _, hrule⟩ := mem_generate_iff.mp hmem
      rw [← admits_of_check hw hbuffer hmem hcmd]
      change ((runRule _ _ _ _ _ _ _).run p).1 = _ ↔ _
      rw [runRule_given (by rw [hrule]) hpath hroot]
      cases binaryCheck (withCode ctx sys) rule p.creds.real path p.cwd with
      | error ending => exact iff_of_false (fun h => by cases h) (fun h => by cases h)
      | ok _ => exact iff_of_true rfl rfl

/-- A build with one program. -/
def killBuild : Build where
  home := "/home/dowse".toList
  execmap := [("kill".toList, "/bin/kill".toList)]
  execrules _ := "root".toList
  readable file := file = "/bin/kill".toList
  content _ := some [0x7f, 0x45, 0x4c, 0x46]
  uid := 1000
  gid := 1000
  nodup := by decide
  names := by simp
  plainHome := by decide
  plainPaths := by decide

def killFiles : FileSystem where
  entry _ _ := some ⟨493, 4, [0x7f, 0x45, 0x4c, 0x46], true, false⟩
  absolute _ _ _ _ := rfl

/-- The process of a setuid program that the user of the build has started. -/
def setuidProcess : Process :=
  ⟨⟨⟨1000, 1000⟩, ⟨0, 1000⟩, ⟨0, 1000⟩⟩, "/".toList, none⟩

theorem launchRoot_kill :
    (launchRoot killBuild (withCode dirty { homeSystem with files := killFiles })
      "/bin/kill".toList ["1".toList] setuidProcess).1 =
        .execv "/bin/kill".toList ["/bin/kill".toList, "1".toList] := by
  have hgiven : Given "/bin/kill".toList := ⟨by decide, by decide, by decide, by decide⟩
  refine (launchRoot_iff (by decide) rfl killBuild _ hgiven ["1".toList] rfl).mpr ⟨_, rfl, ?_⟩
  exact ⟨by decide, .inr rfl, .inr rfl, ⟨rfl, rfl, rfl⟩, "/bin/kill".toList, "/bin/kill".toList,
    [0x7f, 0x45, 0x4c, 0x46], List.mem_singleton_self _, rfl, by decide, rfl, rfl⟩

end Dowse.ExecutionRules
