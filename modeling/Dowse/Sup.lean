import Dowse.CStrings
import Mathlib.Algebra.Group.Nat.Defs
import Mathlib.Data.List.DropRight

/-!
# The privilege escalation tool sup

One run of `main`, from the argument vector to the point where the process ends or
becomes another program. The process carries its credentials, its working directory
and its `PATH`; everything else it meets is a fixed system. A relative name denotes a
file only together with a directory, so the file system is asked for a name from a
directory. The rules are those before the terminator of the table. `CHROOT` and
`CHRDIR` are empty in the configuration, and the block for them is left out.
-/
namespace Dowse.Sup
open CStrings

/-- What `lstat` and reading say about a file. `opens` and `readError` are the outcome of
`fopen` and `ferror`. -/
structure Entry where
  mode : ℕ
  size : ℕ
  content : List UInt8
  opens : Bool
  readError : Bool
  deriving DecidableEq, Repr

def isAbsolute (path : Text) : Bool := path.head? = some '/'

/-- The files by directory and name. The directory does not matter for an absolute name. -/
structure FileSystem where
  entry : Text → Text → Option Entry
  absolute : ∀ path, isAbsolute path → ∀ cwd cwd', entry cwd path = entry cwd' path

structure Ids where
  uid : ℤ
  gid : ℤ
  deriving DecidableEq, Repr

/-- A user, no such user, or an error of the lookup. -/
inductive Passwd
  | found (ids : Ids)
  | absent
  | failed
  deriving DecidableEq, Repr

/-- What `fork` returns to the process that is followed. -/
inductive Fork
  | failed
  | child
  | parent (pid : ℕ)
  deriving DecidableEq, Repr

structure Digest where
  octets : List UInt8
  length_octets : octets.length = 32
  deriving DecidableEq, Repr

structure System where
  files : FileSystem
  getpwnam : Text → Passwd
  fork : Fork
  pidfileOpens : Bool
  sha256 : List UInt8 → Digest

structure Rule where
  uid : ℤ
  gid : ℤ
  cmd : Text
  path : Option Text
  hash : Option Text
  deriving DecidableEq, Repr

/-- Real, effective and saved identities. -/
structure Creds where
  real : Ids
  effective : Ids
  saved : Ids
  deriving DecidableEq, Repr

structure Process where
  creds : Creds
  cwd : Text
  path : Option Text
  deriving DecidableEq, Repr

/-- How a process ends. `error` is the function of that name, with the reason it prints in
place of the one for `errno`; `crash` reads through a null pointer. -/
inductive Ending
  | exit (status : ℕ)
  | error (code : Text) (reason : Option Text)
  | crash
  deriving DecidableEq, Repr

/-- The process has ended, or it calls `execv`. -/
inductive Outcome
  | ended (ending : Ending)
  | execv (file : Text) (argv : List Text)
  deriving DecidableEq, Repr

def maxCmd : ℕ := 512
def maxFilePath : ℕ := 4096
def superUid : ℤ := 0
def superGid : ℤ := 0

def fail (code reason : String) : Ending := .error code.toList (some reason.toList)

def failErrno (code : String) : Ending := .error code.toList none

/-- The options of `getopt` with their arguments; `other` is one that `main` ignores. -/
inductive Opt
  | help
  | version
  | daemon
  | list
  | user (name : Text)
  | group (name : Text)
  | pidfile (file : Text)
  | other
  deriving DecidableEq, Repr

/-- An option letter that takes an argument. -/
def argumentOf : Char → Option (Text → Opt)
  | 'u' => some .user
  | 'g' => some .group
  | 'p' => some .pidfile
  | _ => none

def flagOf : Char → Opt
  | 'h' => .help
  | 'v' => .version
  | 'd' => .daemon
  | 'l' => .list
  | _ => .other

/-- The letters of one word. The argument of a letter is the rest of the word, or the next
word when nothing is left; the second result says that the next word was wanted. -/
def getoptWord (next : Option Text) : Text → List Opt × Bool
  | [] => ([], false)
  | c :: rest =>
      match argumentOf c with
      | some opt =>
          if rest ≠ [] then ([opt rest], false)
          else
            match next with
            | some argument => ([opt argument], true)
            | none => ([.other], false)
      | none =>
          let others := getoptWord next rest
          (flagOf c :: others.1, others.2)

/-- All options before the first word that is none, and the words from there on. -/
def getopt : List Text → List Opt × List Text
  | [] => ([], [])
  | word :: rest =>
      if word = "--".toList then ([], rest)
      else
        match word with
        | '-' :: c :: letters =>
            let here := getoptWord rest.head? (c :: letters)
            match rest with
            | [] => (here.1, [])
            | next :: rest' =>
                let others := if here.2 then getopt rest' else getopt (next :: rest')
                (here.1 ++ others.1, others.2)
        | _ => ([], word :: rest)

structure Settings where
  target : Ids
  forkDaemon : Bool
  pidfile : Text
  deriving DecidableEq, Repr

def applyOption (sys : System) (settings : Settings) : Opt → Except Ending Settings
  | .help | .version | .list => .error (.exit 0)
  | .daemon => .ok { settings with forkDaemon := true }
  | .pidfile file => .ok { settings with pidfile := snprintf maxFilePath file }
  | .user name =>
      match sys.getpwnam name with
      | .failed => .error (failErrno "uid_getpwnam")
      | .absent => .ok settings
      | .found ids => .ok { settings with target := ⟨ids.uid, settings.target.gid⟩ }
  | .group name =>
      match sys.getpwnam name with
      | .failed => .error (failErrno "gid_getpwnam")
      | .absent => .ok settings
      | .found ids => .ok { settings with target := ⟨settings.target.uid, ids.gid⟩ }
  | .other => .ok settings

/-- The last component of a path, and the path as the call leaves it, without its
trailing slashes. -/
def basename (path : Text) : Text × Text :=
  let stripped := path.rdropWhile (· = '/')
  if path = [] then (['.'], path)
  else if stripped = [] then (['/'], path)
  else (stripped.rtakeWhile (· ≠ '/'), stripped)

/-- The scan of `PATH`. A component ends at a colon that neither opens it nor follows a
backslash, so the part behind the last colon is never tried. The second result is what
the terminator leaves of `PATH` when a file is found. -/
def getpathLoop (present : Text → Bool) (str : Text) :
    (scanned component rest : Text) → Option (Text × Text)
  | _, _, [] => none
  | scanned, component, c :: rest =>
      if c = ':' ∧ component ≠ [] ∧ component.getLast? ≠ some '\\' then
        let file := snprintf (maxFilePath - 1) (component ++ '/' :: str)
        if present file then some (file, scanned)
        else getpathLoop present str (scanned ++ [c]) [] rest
      else getpathLoop present str (scanned ++ [c]) (component ++ [c]) rest

def getpath (sys : System) (str : Text) : StateM Process (Option Text) := do
  let process ← get
  match process.path with
  | none => return none
  | some path =>
      let present := fun file => (sys.files.entry process.cwd file).isSome
      match getpathLoop present str [] [] path with
      | none => return none
      | some (file, scanned) =>
          set (Process.mk process.creds process.cwd (some scanned))
          return some file

def chunk : ℕ := 1048576

/-- The bytes that are passed on to the hash, one full chunk after the other, and then what
the last read left in the buffer. -/
def hashedBytes (content : List UInt8) : List UInt8 :=
  let buf := content.take chunk
  if buf.length < chunk then buf
  else buf ++ hashedBytes (content.drop chunk)
termination_by content.length
decreasing_by
  have hpos : 0 < chunk := Nat.succ_pos _
  have hlen : buf.length ≤ content.length := List.length_take_le' _ _
  rw [List.length_drop]
  omega

/-- The size that was read, in an `unsigned long`, and the digest. -/
def getsha (sys : System) (entry : Entry) : Except Ending (ℕ × Digest) :=
  if !entry.opens then .error (fail "fopen" "cannot read binary file")
  else if entry.readError then .error (fail "fread" "error reading binary file")
  else
    let bytes := hashedBytes entry.content
    .ok (bytes.length % 2 ^ 64, sys.sha256 bytes)

def hexDigest (digest : Digest) : Text := (digest.octets.map hexByte).flatten

/-- The rule speaks about the command. -/
def Rule.concerns (rule : Rule) (cmd : Text) : Bool := rule.cmd.head? = some '*' || cmd = rule.cmd

/-- The command starts with a dot or a slash. -/
def hasPath (fullcmd : Text) : Bool := fullcmd.head? = some '.' || isAbsolute fullcmd

/-- The path of the command, looked up when it is not given and compared when the rule
locks it. -/
def pathCheck (sys : System) (rule : Rule) (cmd fullcmd : Text) :
    StateM Process (Except Ending Text) := do
  let some path := rule.path | return .error .crash
  let mut fullcmd := fullcmd
  if !hasPath fullcmd then
    fullcmd := snprintf maxCmd (printed (← getpath sys cmd))
  if path.head? ≠ some '*' ∧ path ≠ fullcmd then
    return .error (fail "path" "path not matching")
  return .ok fullcmd

def uidAllowed (rule : Rule) (uid : ℤ) : Prop := uid = superUid ∨ rule.uid = -1 ∨ rule.uid = uid

def gidAllowed (rule : Rule) (gid : ℤ) : Prop := gid = superGid ∨ rule.gid = -1 ∨ rule.gid = gid

instance (rule : Rule) (uid : ℤ) : Decidable (uidAllowed rule uid) :=
  inferInstanceAs (Decidable (_ ∨ _))

instance (rule : Rule) (gid : ℤ) : Decidable (gidAllowed rule gid) :=
  inferInstanceAs (Decidable (_ ∨ _))

/-- The bits of `0022`. -/
def othersCanWrite (mode : ℕ) : Bool := mode &&& 18 ≠ 0

def hashCheck (sys : System) (rule : Rule) (entry : Entry) : Except Ending Unit :=
  match rule.hash with
  | none => .error .crash
  | some hash =>
      if hash.length = 0 then .ok ()
      else
        match getsha sys entry with
        | .error ending => .error ending
        | .ok (sizeread, digest) =>
            if sizeread ≠ entry.size then
              .error (fail "getsha" "binary file size differs from size read")
            else if hash.take 64 ≠ hexDigest digest then
              .error (fail "hash" "hash does not match")
            else .ok ()

/-- The checks of the binary and of the caller. -/
def binaryCheck (sys : System) (rule : Rule) (caller : Ids) (fullcmd cwd : Text) :
    Except Ending Unit :=
  match sys.files.entry cwd fullcmd with
  | none => .error (fail "lstat" "cannot stat program")
  | some st =>
      if othersCanWrite st.mode then .error (fail "perm" "cannot run binaries others can write.")
      else if ¬ uidAllowed rule caller.uid then .error (fail "uid" "user does not match")
      else if ¬ gidAllowed rule caller.gid then .error (fail "gid" "group id does not match")
      else hashCheck sys rule st

/-- With an effective root identity all three are set, otherwise only the effective one, and
only to one of the other two. -/
def Creds.setuid (creds : Creds) (uid : ℤ) : Option Creds :=
  if creds.effective.uid = 0 then
    some ⟨⟨uid, creds.real.gid⟩, ⟨uid, creds.effective.gid⟩, ⟨uid, creds.saved.gid⟩⟩
  else if uid = creds.real.uid ∨ uid = creds.saved.uid then
    some { creds with effective := ⟨uid, creds.effective.gid⟩ }
  else none

def Creds.setgid (creds : Creds) (gid : ℤ) : Option Creds :=
  if creds.effective.uid = 0 then
    some ⟨⟨creds.real.uid, gid⟩, ⟨creds.effective.uid, gid⟩, ⟨creds.saved.uid, gid⟩⟩
  else if gid = creds.real.gid ∨ gid = creds.saved.gid then
    some { creds with effective := ⟨creds.effective.uid, gid⟩ }
  else none

def Creds.seteuid (creds : Creds) (uid : ℤ) : Option Creds :=
  if creds.effective.uid = 0 ∨ uid = creds.real.uid ∨ uid = creds.effective.uid ∨
      uid = creds.saved.uid then
    some { creds with effective := ⟨uid, creds.effective.gid⟩ }
  else none

def Creds.setegid (creds : Creds) (gid : ℤ) : Option Creds :=
  if creds.effective.uid = 0 ∨ gid = creds.real.gid ∨ gid = creds.effective.gid ∨
      gid = creds.saved.gid then
    some { creds with effective := ⟨creds.effective.uid, gid⟩ }
  else none

/-- The four calls in the order of the source, with the one that failed. -/
def escalate (target : Ids) (creds : Creds) : Except Ending Creds := do
  let some creds := creds.setuid target.uid | .error (failErrno "setuid")
  let some creds := creds.setgid target.gid | .error (failErrno "setgid")
  let some creds := creds.seteuid target.uid | .error (failErrno "seteuid")
  let some creds := creds.setegid target.gid | .error (failErrno "setegid")
  return creds

/-- The daemon mode. The child goes on from the root directory, the parent saves its pid. -/
def daemonise (sys : System) (settings : Settings) : StateM Process (Option Ending) := do
  if !settings.forkDaemon then
    return none
  match sys.fork with
  | .failed => return some (failErrno "fork")
  | .child =>
      modify fun process => { process with cwd := ['/'] }
      return none
  | .parent _ =>
      if settings.pidfile ≠ [] ∧ !sys.pidfileOpens then
        return some (failErrno "pidfile")
      return some (.exit 0)

/-- What a rule does that speaks about the command. No later rule is looked at. -/
def runRule (sys : System) (settings : Settings) (caller : Ids) (rule : Rule)
    (cmd fullcmd : Text) (argv : List Text) : StateM Process Outcome := do
  match ← pathCheck sys rule cmd fullcmd with
  | .error ending => return .ended ending
  | .ok fullcmd =>
      match binaryCheck sys rule caller fullcmd (← get).cwd with
      | .error ending => return .ended ending
      | .ok () =>
          match escalate settings.target (← get).creds with
          | .error ending => return .ended ending
          | .ok creds =>
              modify fun process => { process with creds }
              if let some ending ← daemonise sys settings then
                return .ended ending
              return .execv fullcmd argv

def tryRules (sys : System) (settings : Settings) (caller : Ids) (cmd fullcmd : Text)
    (argv : List Text) : List Rule → StateM Process Outcome
  | [] => return .ended (.exit 1)
  | rule :: rules =>
      if rule.concerns cmd then runRule sys settings caller rule cmd fullcmd argv
      else tryRules sys settings caller cmd fullcmd argv rules

/-- The words after the name of the program are the arguments. -/
def main (rules : List Rule) (sys : System) (args : List Text) : StateM Process Outcome := do
  let (opts, operands) := getopt args
  match opts.foldlM (applyOption sys) ⟨⟨0, 0⟩, false, []⟩ with
  | .error ending => return .ended ending
  | .ok settings =>
      let caller := (← get).creds.real
      let (cmd, fullcmd) := basename (snprintf maxCmd (printed operands.head?))
      tryRules sys settings caller cmd fullcmd operands rules

/-- The run of a process from its start. -/
def run (rules : List Rule) (sys : System) (args : List Text) (p : Process) : Outcome × Process :=
  (main rules sys args).run p

end Dowse.Sup
