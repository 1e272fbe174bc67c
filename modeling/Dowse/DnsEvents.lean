import Dowse.RedisServer

/-!
# The events of the DNS plugin

For every query the plugin publishes a line with the identity of the client, the number of
hits, the time, the domain and its TLD, and the group of the domain if the list has one. The
line is written into a buffer, the group is appended, and the result goes through the
format of a redis command. A line arrives as it was meant if and only if nothing is cut and
hiredis finds nothing in it to interpret.
-/
namespace Dowse.DnsPlugin
open CStrings RedisFormat Hashmap Std.Do

set_option mvcgen.warning false

/-- The values that are written into an event. -/
structure Written where
  who : Text
  hits : ℤ
  epoch : ℕ
  domain : Text
  tld : Text
  group : Option Text
  deriving DecidableEq, Repr

/-- The event without a group, as long as it takes. -/
def Written.ungrouped (w : Written) : Text :=
  "DNS,".toList ++ w.who ++ [','] ++ intText w.hits ++ [','] ++ Nat.toDigits 10 w.epoch ++ [','] ++
    w.domain ++ [','] ++ w.tld

/-- `DNS,WHO,HITS,EPOCH,DOMAIN,TLD[,GROUP]`. -/
def Written.line (w : Written) : Text := w.ungrouped ++ w.group.elim [] (',' :: ·)

/-- The buffer that is published; `none` when the group runs over its end. -/
def Written.outnew (w : Written) : Option Text :=
  match w.group with
  | none => some (snprintf maxOutput w.ungrouped)
  | some group =>
      let grouped := snprintf maxOutput w.ungrouped ++ [','] ++ group.take (maxOutput - 128)
      if grouped.length < maxOutput then some grouped else none

def publishCommand (outnew : Text) : Text := "PUBLISH dns-query-channel ".toList ++ outnew

/-- What the subscribers of the channel get when the command is sent. -/
def message (command : Text) : Option Text :=
  match format command with
  | some [verb, channel, msg] =>
      if verb = "PUBLISH".toList ∧ channel = "dns-query-channel".toList then some msg else none
  | _ => none

def Written.delivered (w : Written) : Option Text :=
  w.outnew.bind fun outnew => message (snprintf 511 (publishCommand outnew))

theorem message_eq_some_iff {command msg : Text} : message command = some msg ↔
    format command = some ["PUBLISH".toList, "dns-query-channel".toList, msg] := by
  unfold message
  split
  · rename_i verb channel msg' hformat
    rw [hformat, Option.ite_none_right_eq_some]
    constructor
    · rintro ⟨⟨rfl, rfl⟩, hmsg⟩
      rw [Option.some.inj hmsg]
    · intro h
      simp only [Option.some.injEq, List.cons.injEq, and_true] at h
      exact ⟨⟨h.1, h.2.1⟩, congrArg some h.2.2⟩
  · rename_i hnot
    refine iff_of_false nofun fun h => hnot _ _ _ h

theorem publishCommand_eq (outnew : Text) : publishCommand outnew =
    [' '].intercalate ["PUBLISH".toList, "dns-query-channel".toList, outnew] := by
  have hverb : "PUBLISH dns-query-channel ".toList =
      "PUBLISH".toList ++ [' '] ++ ("dns-query-channel".toList ++ [' ']) := by decide
  unfold publishCommand
  rw [hverb, List.intercalate_cons_cons, List.intercalate_cons_cons, List.intercalate_singleton,
    List.append_assoc]

/-- Of a command with a longer line 484 characters of the line are left. -/
theorem snprintf_publishCommand (outnew : Text) :
    snprintf 511 (publishCommand outnew) = publishCommand (outnew.take 484) := by
  have hlength : "PUBLISH dns-query-channel ".toList.length = 26 := by decide
  unfold snprintf publishCommand
  rw [List.take_append, hlength, List.take_of_length_le (by omega)]

theorem notMem_publishCommand_dropLast {outnew : Text}
    (h : '%' ∉ (publishCommand outnew).dropLast) : '%' ∉ outnew.dropLast := by
  cases outnew with
  | nil => exact List.not_mem_nil
  | cons c rest =>
      unfold publishCommand at h
      rw [List.dropLast_append_of_ne_nil (List.cons_ne_nil c rest), List.mem_append, not_or] at h
      exact h.2

/-- A line is delivered as it is if it has no space, no percent sign before its end, and not
more than 484 characters. -/
theorem message_publishCommand {line : Text} (hne : line ≠ []) (hlength : line.length ≤ 484)
    (hspace : ' ' ∉ line) (hpercent : '%' ∉ line.dropLast) :
    message (snprintf 511 (publishCommand line)) = some line := by
  have hwords : Words ["PUBLISH".toList, "dns-query-channel".toList, line] := by
    refine ⟨List.cons_ne_nil _ _, ?_⟩
    simp only [List.forall_mem_cons]
    exact ⟨by decide, by decide, ⟨hne, hspace⟩, nofun⟩
  have hclean : '%' ∉ (publishCommand line).dropLast := by
    have hverb : '%' ∉ "PUBLISH dns-query-channel ".toList := by decide
    unfold publishCommand
    rw [List.dropLast_append_of_ne_nil hne, List.mem_append, not_or]
    exact ⟨hverb, hpercent⟩
  rw [message_eq_some_iff, snprintf_publishCommand, List.take_of_length_le hlength]
  rw [publishCommand_eq] at hclean ⊢
  exact formatLoop_intercalate hwords hclean

/-- What arrives is at most as long as what was sent, and if it is as long then nothing was
cut or interpreted. -/
theorem length_of_message {outnew msg : Text}
    (h : message (snprintf 511 (publishCommand outnew)) = some msg) :
    msg.length ≤ outnew.length ∧ (msg.length = outnew.length →
      outnew.length ≤ 484 ∧ ' ' ∉ outnew ∧ '%' ∉ outnew.dropLast) := by
  rw [snprintf_publishCommand, message_eq_some_iff] at h
  obtain ⟨hle, heq⟩ := formatLoop_length h
  have hwords : ["PUBLISH".toList, "dns-query-channel".toList, msg].flatten.length =
      24 + msg.length := by
    have hverb : "PUBLISH".toList.length = 7 := by decide
    have hchannel : "dns-query-channel".toList.length = 17 := by decide
    simp only [List.flatten_cons, List.flatten_nil, List.length_append, List.length_nil, hverb,
      hchannel]
    omega
  have hink : ink (publishCommand (outnew.take 484)) = 24 + ink (outnew.take 484) := by
    have hverb : ink "PUBLISH dns-query-channel ".toList = 24 := by decide
    unfold publishCommand
    rw [ink_append, hverb]
  have hshort := ink_le_length (outnew.take 484)
  have htake := List.length_take (i := 484) (l := outnew)
  rw [hwords, hink, List.length_nil, Nat.zero_add] at hle heq
  refine ⟨by omega, fun hfull => ?_⟩
  have hlength : outnew.length ≤ 484 := by omega
  rw [List.take_of_length_le hlength] at heq hle hshort
  exact ⟨hlength, notMem_of_ink_eq (by omega), notMem_publishCommand_dropLast (heq (by omega))⟩

namespace Written
variable (w : Written)

theorem line_ne_nil : w.line ≠ [] := by
  have hverb : "DNS,".toList ≠ [] := by decide
  unfold line ungrouped
  simp only [List.append_assoc]
  exact List.append_ne_nil_of_left_ne_nil hverb _

theorem line_of_none (h : w.group = none) : w.line = w.ungrouped := by
  unfold line
  rw [h, Option.elim_none, List.append_nil]

theorem line_of_some {group : Text} (h : w.group = some group) :
    w.line = w.ungrouped ++ ',' :: group := by
  unfold line
  rw [h, Option.elim_some]

theorem length_line : w.line.length = w.ungrouped.length + w.group.elim 0 (·.length + 1) := by
  unfold line
  rw [List.length_append]
  cases w.group with
  | none => rw [Option.elim_none, Option.elim_none, List.length_nil]
  | some group => rw [Option.elim_some, Option.elim_some, List.length_cons]

/-- The buffer is at most as long as the line, and the same text when it is as long. -/
theorem length_outnew {outnew : Text} (h : w.outnew = some outnew) :
    outnew.length ≤ w.line.length ∧ (outnew.length = w.line.length →
      outnew = w.line ∧ ∀ group, w.group = some group → group.length ≤ 384) := by
  have hcut : (snprintf maxOutput w.ungrouped).length = min 511 w.ungrouped.length :=
    List.length_take
  rw [length_line]
  unfold Written.outnew at h
  cases hgroup : w.group with
  | none =>
      rw [hgroup] at h
      cases h
      simp only [Option.elim_none, Nat.add_zero]
      refine ⟨by omega, fun hall => ⟨?_, nofun⟩⟩
      rw [snprintf_of_length_lt (by simp only [maxOutput]; omega), w.line_of_none hgroup]
  | some group =>
      rw [hgroup] at h
      simp only [Option.ite_none_right_eq_some, Option.some_inj] at h
      obtain ⟨-, rfl⟩ := h
      have htake : (group.take (maxOutput - 128)).length = min 384 group.length := List.length_take
      simp only [List.length_append, List.length_singleton, Option.elim_some, hcut, htake]
      refine ⟨by omega, fun hall => ?_⟩
      have hfits : group.length ≤ maxOutput - 128 := by
        simp only [maxOutput]
        omega
      refine ⟨?_, fun _ hsome => Option.some.inj hsome ▸ hfits⟩
      rw [snprintf_of_length_lt (by simp only [maxOutput]; omega), List.take_of_length_le hfits,
        w.line_of_some hgroup, List.append_assoc, List.singleton_append]

theorem outnew_of_length_le (hlength : w.line.length ≤ 484)
    (hgroup : ∀ group, w.group = some group → group.length ≤ 384) : w.outnew = some w.line := by
  have hline := w.length_line
  unfold Written.outnew
  cases hsome : w.group with
  | none =>
      rw [hsome] at hline
      simp only [Option.elim_none, Nat.add_zero] at hline
      rw [snprintf_of_length_lt (by simp only [maxOutput]; omega), w.line_of_none hsome]
  | some group =>
      have hfits : group.length ≤ maxOutput - 128 := hgroup group hsome
      rw [hsome] at hline
      simp only [Option.elim_some] at hline
      have heq : snprintf maxOutput w.ungrouped ++ [','] ++ group.take (maxOutput - 128) =
          w.line := by
        rw [snprintf_of_length_lt (by simp only [maxOutput]; omega), List.take_of_length_le hfits,
          w.line_of_some hsome, List.append_assoc, List.singleton_append]
      simp only [heq]
      rw [if_pos (by simp only [maxOutput]; omega)]

/-- Nothing is cut from the line, and hiredis interprets nothing in it. -/
structure Arrives : Prop where
  length : w.line.length ≤ 484
  group : ∀ group, w.group = some group → group.length ≤ 384
  space : ' ' ∉ w.line
  percent : '%' ∉ w.line.dropLast

theorem delivered_eq_line_iff : w.delivered = some w.line ↔ w.Arrives := by
  constructor
  · intro h
    unfold delivered at h
    rw [Option.bind_eq_some_iff] at h
    obtain ⟨outnew, houtnew, hmessage⟩ := h
    obtain ⟨hle, heq⟩ := length_of_message hmessage
    obtain ⟨hle', heq'⟩ := w.length_outnew houtnew
    obtain ⟨rfl, hgroup⟩ := heq' (by omega)
    obtain ⟨hlength, hspace, hpercent⟩ := heq rfl
    exact ⟨hlength, hgroup, hspace, hpercent⟩
  · intro h
    unfold delivered
    rw [w.outnew_of_length_le h.length h.group, Option.bind_some]
    exact message_publishCommand w.line_ne_nil h.length h.space h.percent

end Written

/-- The domain that was extracted, and the names after it. -/
def extraction (data : PluginData) : Option (Option Text × Names) :=
  match extractDomain data with
  | .crash => none
  | .null => some (none, data.names)
  | .found position names => some (some (names.stringAt position), names)

/-- The name of the thing if the storage has one, and otherwise what is in `from`. -/
def identity (reply : Reply) (names : Names) : Text :=
  match reply.str with
  | some name => cstr name
  | none => names.stringAt fromOffset

def hitCount : Option Reply → ℤ
  | some reply => reply.integer.bmod (2 ^ 32)
  | none => 1

/-- The group that the list of domains has for a domain. -/
def groupOf (data : PluginData) (extracted : Option Text) : Option Text :=
  if data.listpath.isSome then
    extracted.bind fun key =>
      match hashmapGet data.domainlist key with
      | (.ok, some sval) => some (cstr sval)
      | _ => none
  else none

/-- The event for a reply to the question for the name of the thing. -/
def writtenFor (env : Env) (data : PluginData) (extracted : Option Text) (incr : Option Reply)
    (named : Reply) : Written where
  who := identity named data.names
  hits := hitCount incr
  epoch := env.time
  domain := printed extracted
  tld := data.names.stringAt tldOffset
  group := groupOf data extracted

def nameCommand (mac : Text) : Text := "HGET thing_".toList ++ mac ++ " name".toList

/-- The commands before the publication. -/
def counted (extracted : Option Text) (mac : Text) (incr expire named : Option Reply) :
    List Exchange :=
  [⟨.dynamic, snprintf 511 ("INCR dns-query-".toList ++ printed extracted), incr⟩,
    ⟨.dynamic, snprintf 511 ("EXPIRE dns-query-".toList ++ printed extracted ++ [' '] ++
      Nat.toDigits 10 dnsHitExpire), expire⟩,
    ⟨.storage, snprintf 511 (nameCommand mac), named⟩]

/-- The first two are commands of the table in `NameCommand`. -/
theorem counted_eq (extracted : Option Text) (mac : Text) (incr expire named : Option Reply) :
    counted extracted mac incr expire named =
      [⟨.dynamic, snprintf 511 (NameCommand.incrQuery.text (printed extracted)), incr⟩,
        ⟨.dynamic, snprintf 511 (NameCommand.expireQuery.text (printed extracted)), expire⟩,
        ⟨.storage, snprintf 511 (nameCommand mac), named⟩] := by
  rw [counted, NameCommand.text_of_last (by decide), List.append_assoc _ [' ']]
  rfl

/-- The buffer `outnew` for the replies to the counter and to the question for the name. -/
def eventBuffer (env : Env) (extracted : Option Text) (names : Names) (incr named : Option Reply) :
    Text :=
  match named with
  | some reply =>
      match reply.str with
      | some name => eventText (cstr name) (hitCount incr) env.time (printed extracted)
          (names.stringAt tldOffset)
      | none => eventText (names.stringAt fromOffset) (hitCount incr) env.time (printed extracted)
          (names.stringAt tldOffset)
  | none => env.outnewBuffer

def incrReply (env : Env) (extracted : Option Text) : Option Reply :=
  received env .dynamic (snprintf 511 ("INCR dns-query-".toList ++ printed extracted))

theorem incrReply_eq_received (env : Env) (extracted : Option Text) : incrReply env extracted =
    received env .dynamic (snprintf 511 (NameCommand.incrQuery.text (printed extracted))) := by
  rw [NameCommand.text_of_last (by decide)]
  rfl

def nameReply (env : Env) (mac : Text) : Option Reply :=
  received env .storage (snprintf 511 (nameCommand mac))

/-- The event before its group is added. -/
def outnewFor (env : Env) (c : Call) (extracted : Option Text) (names : Names) : Text :=
  eventBuffer env extracted names (incrReply env extracted) (nameReply env c.data.mac)

/-- The publication returns: `extract_domain` does not read through a null token, and with a
list of domains there is a key for it and room for the group. -/
def Publishable (env : Env) (c : Call) : Prop :=
  ∃ extracted names, extraction c.data = some (extracted, names) ∧
    (addGroup { c.data with names } extracted (outnewFor env c extracted names)).isSome

/-- What a publication does: the commands that were sent, and the event if the storage could
be asked for the name. -/
structure Publishes (env : Env) (c s : Call) (domain : Option Text) (names : Names) : Prop where
  extracted : extraction c.data = some (domain, names)
  data : s.data = { c.data with names }
  sent : ∃ incr expire named outnew reply, s.sent = c.sent ++
      (counted domain c.data.mac incr expire named ++
        [⟨.dynamic, snprintf 511 (publishCommand outnew), reply⟩]) ∧
    named = nameReply env c.data.mac ∧
    ∀ r, named = some r → (writtenFor env s.data domain incr r).outnew = some outnew

attribute [local irreducible] snprintf

/-- The buffer with the group is that of the event. -/
theorem outnew_of_addGroup {data : PluginData} {extracted : Option Text} {w : Written}
    {outnew : Text} (hgroup : w.group = groupOf data extracted)
    (h : addGroup data extracted (snprintf maxOutput w.ungrouped) = some outnew) :
    w.outnew = some outnew := by
  unfold addGroup at h
  unfold groupOf at hgroup
  unfold Written.outnew
  split_ifs at h hgroup
  · cases extracted with
    | none => cases h
    | some key =>
        rw [Option.bind_some] at hgroup
        dsimp only at h
        split at h
        · rename_i sval hget
          rw [hgroup, hget]
          exact h
        · rename_i hnot
          have hnone : w.group = none := by
            rw [hgroup]
            split
            · rename_i sval hget
              exact absurd hget (hnot sval)
            · rfl
          rw [hnone]
          exact h
  · rw [hgroup]
    exact h

/-- The event text of the source is the event without a group. -/
theorem outnew_writtenFor {env : Env} {data : PluginData} {extracted : Option Text}
    {incr : Option Reply} {named : Reply} {outnew : Text}
    (h : addGroup data extracted (match named.str with
      | some name => eventText (cstr name) (hitCount incr) env.time (printed extracted)
          (data.names.stringAt tldOffset)
      | none => eventText (data.names.stringAt fromOffset) (hitCount incr) env.time
          (printed extracted) (data.names.stringAt tldOffset)) = some outnew) :
    (writtenFor env data extracted incr named).outnew = some outnew := by
  refine outnew_of_addGroup rfl ?_
  have hwho : (writtenFor env data extracted incr named).who = identity named data.names := rfl
  unfold identity at hwho
  unfold Written.ungrouped
  rw [hwho]
  split at h <;> exact h

theorem append_three {α : Type} (l : List α) (x y z : α) :
    l ++ [x] ++ [y] ++ [z] = l ++ [x, y, z] := by simp

theorem append_four {α : Type} (l : List α) (x y z u : α) :
    l ++ [x] ++ [y] ++ [z] ++ [u] = l ++ ([x, y, z] ++ [u]) := by simp

theorem extraction_of_null {data : PluginData} (h : extractDomain data = .null) :
    extraction data = some (none, data.names) := by
  unfold extraction
  rw [h]

theorem extraction_of_found {data : PluginData} {position : ℕ} {names : Names}
    (h : extractDomain data = .found position names) :
    extraction data = some (some (names.stringAt position), names) := by
  unfold extraction
  rw [h]

theorem publishable_iff {env : Env} {c : Call} {extracted : Option Text} {names : Names}
    (h : extraction c.data = some (extracted, names)) : Publishable env c ↔
      (addGroup { c.data with names } extracted (outnewFor env c extracted names)).isSome := by
  constructor
  · rintro ⟨extracted', names', h', hsome⟩
    rw [h] at h'
    cases h'
    exact hsome
  · exact fun hsome => ⟨extracted, names, h, hsome⟩

theorem extraction_of_crash {data : PluginData} (h : extractDomain data = .crash) :
    extraction data = none := by
  unfold extraction
  rw [h]

/-- The ways in which a publication ends, with the commands that it has sent. -/
inductive PublishRun (env : Env) (c : Call) : Bool → Call → Prop
  | crash (hextraction : extraction c.data = none) : PublishRun env c false c
  | full {extracted : Option Text} {names : Names} {expire : Option Reply} {s : Call}
      (hextraction : extraction c.data = some (extracted, names))
      (hgroup : addGroup { c.data with names } extracted (outnewFor env c extracted names) = none)
      (hdata : s.data = { c.data with names })
      (hsent : s.sent = c.sent ++ counted extracted c.data.mac (incrReply env extracted) expire
        (nameReply env c.data.mac)) :
      PublishRun env c false s
  | done {extracted : Option Text} {names : Names} {outnew : Text} {expire reply : Option Reply}
      {s : Call} (hextraction : extraction c.data = some (extracted, names))
      (hgroup : addGroup { c.data with names } extracted (outnewFor env c extracted names) =
        some outnew)
      (hdata : s.data = { c.data with names })
      (hsent : s.sent = c.sent ++ (counted extracted c.data.mac (incrReply env extracted) expire
        (nameReply env c.data.mac) ++
          [⟨.dynamic, snprintf 511 (publishCommand outnew), reply⟩])) :
      PublishRun env c true s

section Run
attribute [local spec high] cmdRedis_received

theorem publishQuery_run (env : Env) (c : Call) :
    ⦃fun s => ⌜s = c⌝⦄ publishQuery env ⦃⇓ r s => ⌜PublishRun env c r s⌝⦄ := by
  unfold publishQuery
  mvcgen
  all_goals subst_vars
  case vc1 hcrash => exact .crash (extraction_of_crash hcrash)
  case vc2 s _ hnull incr _ s1 h1 expire s2 h2 _ named _ _ hgroup s3 h3 =>
    obtain ⟨rfl, rfl⟩ := h1
    obtain ⟨rfl, -⟩ := h2
    obtain ⟨rfl, rfl⟩ := h3
    exact .full (extraction_of_null hnull) hgroup rfl (append_three _ _ _ _)
  case vc3 s _ hnull incr _ s1 h1 expire s2 h2 _ named _ _ key hgroup s3 h3 reply s4 h4 =>
    obtain ⟨rfl, rfl⟩ := h1
    obtain ⟨rfl, -⟩ := h2
    obtain ⟨rfl, rfl⟩ := h3
    obtain ⟨rfl, -⟩ := h4
    exact .done (extraction_of_null hnull) hgroup rfl (append_four _ _ _ _ _)
  case vc4 s _ position names hfound _ incr _ s1 expire s2 h2 _ named _ _ hgroup s3 h3 h1 =>
    obtain ⟨rfl, rfl⟩ := h1
    obtain ⟨rfl, -⟩ := h2
    obtain ⟨rfl, rfl⟩ := h3
    exact .full (extraction_of_found hfound) hgroup rfl (append_three _ _ _ _)
  case vc5 s _ position names hfound _ incr _ s1 expire s2 h2 _ named _ _ key hgroup s3 h3 reply s4
      h4 h1 =>
    obtain ⟨rfl, rfl⟩ := h1
    obtain ⟨rfl, -⟩ := h2
    obtain ⟨rfl, rfl⟩ := h3
    obtain ⟨rfl, -⟩ := h4
    exact .done (extraction_of_found hfound) hgroup rfl (append_four _ _ _ _ _)

end Run

theorem PublishRun.publishes {env : Env} {c s : Call} (h : PublishRun env c true s) :
    ∃ extracted names, Publishes env c s extracted names := by
  cases h with
  | @done extracted names outnew expire reply s hextraction hgroup hdata hsent =>
      refine ⟨extracted, names, hextraction, hdata, _, expire, _, outnew, reply, hsent, rfl, ?_⟩
      intro r hnamed
      unfold outnewFor at hgroup
      rw [hnamed] at hgroup
      rw [hdata]
      exact outnew_writtenFor hgroup

theorem PublishRun.unpublished {env : Env} {c s : Call} (h : PublishRun env c false s) :
    s.data.mac = c.data.mac ∧ (s.sent = c.sent ∨ ∃ extracted incr expire named,
      s.sent = c.sent ++ counted extracted c.data.mac incr expire named) := by
  cases h with
  | crash => exact ⟨rfl, .inl rfl⟩
  | full _ _ hdata hsent =>
      refine ⟨?_, .inr ⟨_, _, _, _, hsent⟩⟩
      rw [hdata]

theorem PublishRun.publishable {env : Env} {c s : Call} {r : Bool} (h : PublishRun env c r s) :
    r = true ↔ Publishable env c := by
  cases h with
  | crash hextraction =>
      refine iff_of_false nofun ?_
      rintro ⟨extracted, names, hsome, -⟩
      exact nomatch hextraction.symm.trans hsome
  | full hextraction hgroup =>
      rw [publishable_iff hextraction, hgroup]
      exact iff_of_false nofun nofun
  | done hextraction hgroup =>
      rw [publishable_iff hextraction, hgroup]
      exact iff_of_true rfl rfl

end Dowse.DnsPlugin
