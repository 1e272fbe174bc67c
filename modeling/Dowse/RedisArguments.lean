import Dowse.DnsGate
import Dowse.RedisFormat

/-!
# The arguments that reach redis

The plugin puts a name into the text of a command, `cmd_redis` cuts the text to its
buffer, and hiredis takes the result as a format. The arguments are those that were meant
if and only if the name leaves enough room in the buffer and has no percent sign that hiredis
would read as a conversion. A percent sign at the very end of a command is none.
-/
namespace Dowse.DnsPlugin
open CStrings RedisFormat

/-- The commands of the plugin that carry a name of the question. -/
inductive NameCommand
  | getLease
  | incrQuery
  | expireQuery
  | getReverse
  deriving DecidableEq, Repr

/-- The format before the name. -/
def NameCommand.before : NameCommand → Text
  | .getLease => "GET dns-lease-".toList
  | .incrQuery => "INCR dns-query-".toList
  | .expireQuery => "EXPIRE dns-query-".toList
  | .getReverse => "GET dns-reverse-".toList

/-- What follows the name. -/
def NameCommand.behind : NameCommand → Text
  | .expireQuery => ' ' :: Nat.toDigits 10 dnsHitExpire
  | _ => []

def NameCommand.text (cmd : NameCommand) (name : Text) : Text := cmd.before ++ name ++ cmd.behind

def NameCommand.verb : NameCommand → Text
  | .getLease => "GET".toList
  | .incrQuery => "INCR".toList
  | .expireQuery => "EXPIRE".toList
  | .getReverse => "GET".toList

def NameCommand.stem : NameCommand → Text
  | .getLease => "dns-lease-".toList
  | .incrQuery => "dns-query-".toList
  | .expireQuery => "dns-query-".toList
  | .getReverse => "dns-reverse-".toList

def NameCommand.operands : NameCommand → List Text
  | .expireQuery => ["21600".toList]
  | _ => []

/-- The verb, the key with the unchanged name, and the number. -/
def NameCommand.argv (cmd : NameCommand) (name : Text) : List Text :=
  cmd.verb :: (cmd.stem ++ name) :: cmd.operands

/-- The arguments that are sent for the text of a command. -/
def sentArguments (env : Env) (conn : Conn) (call : Call) (command : Text) :
    Option (List Text) :=
  ((cmdRedis env conn command).run call).2.sent.getLast?.bind fun e => format e.command

/-- A name as ldns prints it. -/
def Graphic (name : Text) : Prop := ∀ c ∈ name, '!' ≤ c ∧ c ≤ '~'

/-- What the other characters of a command leave of 510. -/
def NameCommand.room : NameCommand → ℕ
  | .getLease => 496
  | .incrQuery => 495
  | .expireQuery => 487
  | .getReverse => 494

/-- The name fits into the buffer, and it has no percent sign, except that it may end in one
when the command ends with the name. -/
def NameCommand.Fits (cmd : NameCommand) (name : Text) : Prop :=
  name.length ≤ cmd.room ∧ '%' ∉ name.dropLast ∧ (cmd = .expireQuery → '%' ∉ name)

instance (cmd : NameCommand) (name : Text) : Decidable (cmd.Fits name) :=
  inferInstanceAs (Decidable (_ ∧ _))

theorem Graphic.space_notMem {name : Text} (h : Graphic name) : ' ' ∉ name :=
  fun hmem => absurd (h ' ' hmem).1 (by decide)

theorem sentArguments_eq (env : Env) (conn : Conn) (call : Call) (command : Text) :
    sentArguments env conn call command = format (command.take 510) := by
  have hcall : ((cmdRedis env conn command).run call).2 =
      ⟨call.data, call.sent ++ [⟨conn, snprintf 511 command,
        ((cmdRedis env conn command).run call).1⟩]⟩ :=
    cmdRedis_spec env conn command call call rfl
  rw [sentArguments, hcall, List.getLast?_concat]
  rfl

theorem NameCommand.text_eq (cmd : NameCommand) (name : Text) :
    cmd.text name = [' '].intercalate (cmd.argv name) := by
  have hbefore : cmd.before = cmd.verb ++ ' ' :: cmd.stem := by cases cmd <;> decide
  have hbehind : cmd.behind = (cmd.operands.map (' ' :: ·)).flatten := by cases cmd <;> decide
  have hargv : ∀ ws : List Text, ∀ w : Text,
      [' '].intercalate (w :: ws) = w ++ (ws.map (' ' :: ·)).flatten := by
    intro ws
    induction ws with
    | nil => simp
    | cons v ws ih =>
        intro w
        rw [List.intercalate_cons_cons, ih]
        simp
  rw [NameCommand.text, NameCommand.argv, List.intercalate_cons_cons, hargv, hbefore, hbehind]
  simp

theorem NameCommand.words (cmd : NameCommand) {name : Text} (h : ' ' ∉ name) :
    Words (cmd.argv name) := by
  have hverb : cmd.verb ≠ [] ∧ ' ' ∉ cmd.verb := by cases cmd <;> decide
  have hstem : cmd.stem ≠ [] ∧ ' ' ∉ cmd.stem := by cases cmd <;> decide
  have hoperands : ∀ w ∈ cmd.operands, w ≠ [] ∧ ' ' ∉ w := by cases cmd <;> decide
  refine ⟨List.cons_ne_nil _ _, ?_⟩
  simp only [NameCommand.argv, List.forall_mem_cons]
  exact ⟨hverb, ⟨List.append_ne_nil_of_left_ne_nil hstem.1 name,
    fun hmem => (List.mem_append.mp hmem).elim hstem.2 h⟩, hoperands⟩

/-- A percent sign before the end of a text comes from the part that may have one. -/
theorem notMem_dropLast_append {stem name : Text} {c : Char} (h : c ∉ stem) :
    c ∉ (stem ++ name).dropLast ↔ c ∉ name.dropLast := by
  cases name with
  | nil => simpa using fun hmem => h (List.mem_of_mem_dropLast hmem)
  | cons d name =>
      rw [List.dropLast_append_of_ne_nil (List.cons_ne_nil d name), List.mem_append, not_or]
      exact and_iff_right h

theorem NameCommand.fits_iff (cmd : NameCommand) (name : Text) :
    cmd.Fits name ↔ (cmd.text name).length ≤ 510 ∧ '%' ∉ (cmd.text name).dropLast := by
  have hroom : cmd.before.length + cmd.room + cmd.behind.length = 510 := by cases cmd <;> decide
  have hbefore : '%' ∉ cmd.before := by cases cmd <;> decide
  rw [NameCommand.Fits, NameCommand.text, List.append_assoc, notMem_dropLast_append hbefore,
    List.length_append, List.length_append]
  refine and_congr (by omega) ?_
  cases cmd with
  | expireQuery =>
      have hnumber : NameCommand.expireQuery.behind ≠ [] := by decide
      have hclean : '%' ∉ NameCommand.expireQuery.behind.dropLast := by decide
      rw [List.dropLast_append_of_ne_nil hnumber, List.mem_append, not_or]
      constructor
      · rintro ⟨-, hname⟩
        exact ⟨hname rfl, hclean⟩
      · rintro ⟨hname, -⟩
        exact ⟨fun hmem => hname (List.mem_of_mem_dropLast hmem), fun _ => hname⟩
  | getLease | incrQuery | getReverse =>
      change _ ↔ '%' ∉ (name ++ []).dropLast
      rw [List.append_nil]
      exact and_iff_left nofun

/-- The text of a command whose name comes last. -/
theorem NameCommand.text_of_last {cmd : NameCommand} (h : cmd ≠ .expireQuery) (name : Text) :
    cmd.text name = cmd.before ++ name := by
  cases cmd with
  | expireQuery => exact absurd rfl h
  | getLease | incrQuery | getReverse => exact List.append_nil _

/-- A name without spaces is read back from the buffer if and only if it fits. -/
theorem format_text_iff {cmd : NameCommand} {name : Text} (h : ' ' ∉ name) :
    format (snprintf 511 (cmd.text name)) = some (cmd.argv name) ↔ cmd.Fits name := by
  rw [NameCommand.fits_iff, NameCommand.text_eq]
  exact format_take_eq_iff (cmd.words h) 510

/-- For every name that ldns prints, a command of the plugin reaches redis with the intended
arguments if and only if the name fits, and two names that fit are never sent as one. -/
theorem sentArguments_exact_iff (env : Env) (conn : Conn) (call : Call) (cmd : NameCommand)
    {name : Text} (h : Graphic name) :
    (sentArguments env conn call (cmd.text name) = some (cmd.argv name) ↔ cmd.Fits name) ∧
      ∀ other, Graphic other → cmd.Fits name → cmd.Fits other →
        sentArguments env conn call (cmd.text name) =
          sentArguments env conn call (cmd.text other) → name = other := by
  have hexact : ∀ name, Graphic name →
      (sentArguments env conn call (cmd.text name) = some (cmd.argv name) ↔ cmd.Fits name) := by
    intro name h
    rw [sentArguments_eq]
    exact format_text_iff h.space_notMem
  refine ⟨hexact name h, ?_⟩
  intro other hother hfits hfits' hsame
  rw [(hexact name h).mpr hfits, (hexact other hother).mpr hfits', Option.some_inj,
    NameCommand.argv, NameCommand.argv, List.cons_inj_right] at hsame
  exact List.append_cancel_left (List.cons.inj hsame).1

theorem sentArguments_exact_iff_hostname :
    Graphic "www.dyne.org".toList ∧ NameCommand.getLease.Fits "www.dyne.org".toList ∧
      ∀ env conn call,
        sentArguments env conn call (NameCommand.getLease.text "www.dyne.org".toList) =
          some (NameCommand.getLease.argv "www.dyne.org".toList) := by
  have hgraphic : Graphic "www.dyne.org".toList := by simp [Graphic]
  have hfits : NameCommand.getLease.Fits "www.dyne.org".toList := by decide
  exact ⟨hgraphic, hfits, fun env conn call =>
    (sentArguments_exact_iff env conn call .getLease hgraphic).1.mpr hfits⟩

/-- Two percent signs in a name become one, and the query for one name is answered with the
lease of the other. -/
theorem percent_names_share_key :
    Graphic "x%%".toList ∧ Graphic "x%".toList ∧ ∀ env conn call,
      sentArguments env conn call (NameCommand.getLease.text "x%%".toList) =
          some ["GET".toList, "dns-lease-x%".toList] ∧
        sentArguments env conn call (NameCommand.getLease.text "x%".toList) =
          some ["GET".toList, "dns-lease-x%".toList] := by
  refine ⟨by simp [Graphic], by simp [Graphic], fun env conn call => ?_⟩
  rw [sentArguments_eq, sentArguments_eq]
  exact ⟨by decide +kernel, by decide +kernel⟩

end Dowse.DnsPlugin
