import Dowse.SupAuthorisation

/-!
# The identity under which sup runs a command

The user asks for an identity with `-u` and `-g`. The ids to change to start as those of
the superuser, and a name that the user database does not have leaves them as they are.
The user id is given up before the group id is changed, so a group can only be taken
by a process that is still the superuser, or that was in the group from the start.
-/
namespace Dowse.Sup
open CStrings

def Opt.userName : Opt → Option Text
  | .user name => some name
  | _ => none

def Opt.groupName : Opt → Option Text
  | .group name => some name
  | _ => none

def userNames (args : List Text) : List Text := (getopt args).1.filterMap Opt.userName

def groupNames (args : List Text) : List Text := (getopt args).1.filterMap Opt.groupName

def Passwd.ids : Passwd → Option Ids
  | .found ids => some ids
  | _ => none

/-- The entry of the last name in the list that is in the user database. -/
def lastKnown (sys : System) (names : List Text) : Option Ids :=
  (names.filterMap fun name => (sys.getpwnam name).ids).getLast?

/-- The user to change to: the last one that is known, or the superuser. -/
def targetUid (sys : System) (args : List Text) : ℤ :=
  ((lastKnown sys (userNames args)).map Ids.uid).getD 0

/-- The last name of `-u` and the last name of `-g` are known, and the process has their
ids. -/
structure RunsAs (sys : System) (args : List Text) (creds : Creds) : Prop where
  user : ∀ name, (userNames args).getLast? = some name →
    ∃ ids, sys.getpwnam name = .found ids ∧ creds.real.uid = ids.uid ∧
      creds.effective.uid = ids.uid
  group : ∀ name, (groupNames args).getLast? = some name →
    ∃ ids, sys.getpwnam name = .found ids ∧ creds.real.gid = ids.gid ∧
      creds.effective.gid = ids.gid

/-- The last name of `-u` is known, and the caller runs sup with the rights of the superuser
or is this user already. The last name of `-g` is known as well, and the target is the
superuser or the caller is in the group already. -/
structure MayBecome (sys : System) (args : List Text) (creds : Creds) : Prop where
  user : ∀ name, (userNames args).getLast? = some name →
    ∃ ids, sys.getpwnam name = .found ids ∧
      (creds.effective.uid = 0 ∨ creds.real.uid = ids.uid)
  group : ∀ name, (groupNames args).getLast? = some name →
    ∃ ids, sys.getpwnam name = .found ids ∧
      (targetUid sys args = 0 ∨ creds.real.gid = ids.gid)

theorem lastKnown_of_found {sys : System} {names : List Text} {name : Text} {ids : Ids}
    (hlast : names.getLast? = some name) (hfound : sys.getpwnam name = .found ids) :
    lastKnown sys names = some ids := by
  obtain ⟨before, rfl⟩ := List.getLast?_eq_some_iff.mp hlast
  simp [lastKnown, List.filterMap_append, hfound, Passwd.ids]

/-- A later name that is known replaces the ones before. -/
theorem lastKnown_cons (sys : System) (name : Text) (names : List Text) :
    lastKnown sys (name :: names) = (lastKnown sys names).or (sys.getpwnam name).ids := by
  cases h : (sys.getpwnam name).ids with
  | none => simp [lastKnown, h]
  | some ids =>
      simp only [lastKnown, List.filterMap_cons, h, List.getLast?_cons]
      cases (names.filterMap fun name => (sys.getpwnam name).ids).getLast? <;> rfl

theorem target_foldlM {sys : System} {settings settings' : Settings} {opts : List Opt}
    (h : opts.foldlM (applyOption sys) settings = .ok settings') :
    settings'.target =
      ⟨((lastKnown sys (opts.filterMap Opt.userName)).map Ids.uid).getD settings.target.uid,
        ((lastKnown sys (opts.filterMap Opt.groupName)).map Ids.gid).getD
          settings.target.gid⟩ := by
  induction opts generalizing settings with
  | nil =>
      cases h
      rfl
  | cons opt opts ih =>
      rw [List.foldlM_cons] at h
      cases hopt : applyOption sys settings opt with
      | error ending => simp [hopt, bind, Except.bind] at h
      | ok next =>
          simp only [hopt, bind, Except.bind] at h
          rw [ih h]
          cases opt with
          | user name | group name =>
              simp only [applyOption] at hopt
              split at hopt <;> cases hopt <;>
                simp_all [List.filterMap_cons, Opt.userName, Opt.groupName, lastKnown_cons,
                  Passwd.ids]
          | _ => cases hopt <;> rfl

theorem setuid_eq_some {creds creds' : Creds} {uid : ℤ} (h : creds.setuid uid = some creds') :
    creds'.effective = ⟨uid, creds.effective.gid⟩ ∧
      creds'.real = ⟨if creds.effective.uid = 0 then uid else creds.real.uid, creds.real.gid⟩ := by
  unfold Creds.setuid at h
  split_ifs at h <;> cases h <;> simp_all

theorem setgid_eq_some {creds creds' : Creds} {gid : ℤ} (h : creds.setgid gid = some creds') :
    creds'.effective = ⟨creds.effective.uid, gid⟩ ∧
      creds'.real = ⟨creds.real.uid, if creds.effective.uid = 0 then gid else creds.real.gid⟩ := by
  unfold Creds.setgid at h
  split_ifs at h <;> cases h <;> simp_all

theorem seteuid_eq_some {creds creds' : Creds} {uid : ℤ} (h : creds.seteuid uid = some creds') :
    creds'.effective = ⟨uid, creds.effective.gid⟩ ∧ creds'.real = creds.real := by
  unfold Creds.seteuid at h
  split_ifs at h
  cases h
  exact ⟨rfl, rfl⟩

theorem setegid_eq_some {creds creds' : Creds} {gid : ℤ} (h : creds.setegid gid = some creds') :
    creds'.effective = ⟨creds.effective.uid, gid⟩ ∧ creds'.real = creds.real := by
  unfold Creds.setegid at h
  split_ifs at h
  cases h
  exact ⟨rfl, rfl⟩

/-- When the four calls succeed the effective identity is the target. The real user id follows
from the rights at the start, the real group id from those that the target user has. -/
theorem escalate_eq_ok {target : Ids} {creds creds' : Creds}
    (h : escalate target creds = .ok creds') :
    creds'.effective = target ∧
      creds'.real.uid = (if creds.effective.uid = 0 then target.uid else creds.real.uid) ∧
      creds'.real.gid = (if target.uid = 0 then target.gid else creds.real.gid) := by
  unfold escalate at h
  cases h₁ : creds.setuid target.uid with
  | none => simp [h₁] at h
  | some c₁ =>
      simp only [h₁] at h
      cases h₂ : c₁.setgid target.gid with
      | none => simp [h₂] at h
      | some c₂ =>
          simp only [h₂] at h
          cases h₃ : c₂.seteuid target.uid with
          | none => simp [h₃] at h
          | some c₃ =>
              simp only [h₃] at h
              cases h₄ : c₃.setegid target.gid with
              | none => simp [h₄] at h
              | some c₄ =>
                  simp only [h₄] at h
                  cases h
                  obtain ⟨he₁, hr₁⟩ := setuid_eq_some h₁
                  obtain ⟨he₂, hr₂⟩ := setgid_eq_some h₂
                  obtain ⟨he₃, hr₃⟩ := seteuid_eq_some h₃
                  obtain ⟨he₄, hr₄⟩ := setegid_eq_some h₄
                  simp only [he₄, he₃, hr₄, hr₃, hr₂, hr₁, he₁, and_self]

/-- A run that reaches `execv` has made the four calls with the last names that are known. -/
theorem escalated_of_execv {rules : List Rule} {sys : System} {args argv : List Text}
    {p p' : Process} {file : Text}
    (h : run rules sys args p = (.execv file argv, p')) :
    escalate ⟨targetUid sys args, ((lastKnown sys (groupNames args)).map Ids.gid).getD 0⟩
      p.creds = .ok p'.creds := by
  obtain ⟨-, settings, -, hopts, hescalate, -⟩ := checked_of_execv h
  rw [target_foldlM hopts] at hescalate
  exact hescalate

/-- Whenever a run reaches `execv`, the command runs under the identity that was asked for
last, if and only if the names are known and the calls are made with the rights that they
need. -/
theorem execv_runsAs_iff {rules : List Rule} {sys : System} {args argv : List Text}
    {p p' : Process} {file : Text}
    (h : run rules sys args p = (.execv file argv, p')) :
    RunsAs sys args p'.creds ↔ MayBecome sys args p.creds := by
  obtain ⟨heffective, huid, hgid⟩ := escalate_eq_ok (escalated_of_execv h)
  have huser : ∀ name, (userNames args).getLast? = some name →
      ((∃ ids, sys.getpwnam name = .found ids ∧ p'.creds.real.uid = ids.uid ∧
          p'.creds.effective.uid = ids.uid) ↔
        ∃ ids, sys.getpwnam name = .found ids ∧
          (p.creds.effective.uid = 0 ∨ p.creds.real.uid = ids.uid)) := by
    intro name hlast
    refine exists_congr fun ids => and_congr_right fun hfound => ?_
    have htarget : targetUid sys args = ids.uid := by
      rw [targetUid, lastKnown_of_found hlast hfound]
      rfl
    rw [heffective, huid, htarget]
    by_cases hroot : p.creds.effective.uid = 0 <;> simp [hroot]
  have hgroup : ∀ name, (groupNames args).getLast? = some name →
      ((∃ ids, sys.getpwnam name = .found ids ∧ p'.creds.real.gid = ids.gid ∧
          p'.creds.effective.gid = ids.gid) ↔
        ∃ ids, sys.getpwnam name = .found ids ∧
          (targetUid sys args = 0 ∨ p.creds.real.gid = ids.gid)) := by
    intro name hlast
    refine exists_congr fun ids => and_congr_right fun hfound => ?_
    rw [heffective, hgid, lastKnown_of_found hlast hfound]
    by_cases hroot : targetUid sys args = 0 <;> simp [hroot]
  constructor
  · intro hruns
    exact ⟨fun name hlast => (huser name hlast).mp (hruns.user name hlast),
      fun name hlast => (hgroup name hlast).mp (hruns.group name hlast)⟩
  · intro hmay
    exact ⟨fun name hlast => (huser name hlast).mpr (hmay.user name hlast),
      fun name hlast => (hgroup name hlast).mpr (hmay.group name hlast)⟩

/-- The system of before with one more user. -/
def webSystem : System :=
  { homeSystem with
    getpwnam := fun name => if name = "www-data".toList then .found ⟨33, 33⟩ else .absent }

theorem execv_runsAs_iff_webGroup :
    run [idRule] webSystem ["-g".toList, "www-data".toList, "id".toList] homeProcess =
      (.execv "tmp/id".toList ["id".toList],
        ⟨⟨⟨0, 33⟩, ⟨0, 33⟩, ⟨0, 33⟩⟩, "/home/user".toList, some "tmp".toList⟩) ∧
    (RunsAs webSystem ["-g".toList, "www-data".toList, "id".toList]
        ⟨⟨0, 33⟩, ⟨0, 33⟩, ⟨0, 33⟩⟩ ↔
      MayBecome webSystem ["-g".toList, "www-data".toList, "id".toList] homeProcess.creds) := by
  have hrun : run [idRule] webSystem ["-g".toList, "www-data".toList, "id".toList] homeProcess =
      (.execv "tmp/id".toList ["id".toList],
        ⟨⟨⟨0, 33⟩, ⟨0, 33⟩, ⟨0, 33⟩⟩, "/home/user".toList, some "tmp".toList⟩) := by decide
  exact ⟨hrun, execv_runsAs_iff hrun⟩

/-- Nobody is called `ghost`, and the command runs as the superuser. -/
theorem unknown_user_runs_as_root :
    ∃ p', run [idRule] webSystem ["-u".toList, "ghost".toList, "id".toList] homeProcess =
        (.execv "tmp/id".toList ["id".toList], p') ∧
      (userNames ["-u".toList, "ghost".toList, "id".toList]).getLast? = some "ghost".toList ∧
      webSystem.getpwnam "ghost".toList = .absent ∧
      p'.creds.real = ⟨0, 0⟩ ∧ p'.creds.effective = ⟨0, 0⟩ ∧
      ¬ RunsAs webSystem ["-u".toList, "ghost".toList, "id".toList] p'.creds := by
  have habsent : webSystem.getpwnam "ghost".toList = .absent := by decide
  refine ⟨⟨⟨⟨0, 0⟩, ⟨0, 0⟩, ⟨0, 0⟩⟩, "/home/user".toList, some "tmp".toList⟩, by decide, by decide,
    habsent, rfl, rfl, ?_⟩
  intro hruns
  obtain ⟨ids, hfound, -⟩ := hruns.user "ghost".toList (by decide)
  rw [habsent] at hfound
  cases hfound

end Dowse.Sup
