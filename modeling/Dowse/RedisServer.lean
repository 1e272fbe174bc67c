import Dowse.RedisArguments

/-!
# What the redis servers answer

A server holds strings and hashes of strings. It answers the arguments of a command and
not its text, so that a text which hiredis cannot read as the command that was meant gets
no answer from here. The texts with a hardware address are always read as meant.
-/
namespace Dowse.DnsPlugin
open CStrings RedisFormat Std.Do

set_option mvcgen.warning false

/-- The strings by key, and the fields of the hashes by key. -/
structure Database where
  get : Text → Option Text
  hget : Text → Text → Option Text

/-- A value, or the reply for a missing one. -/
def bulk : Option Text → Reply
  | some value => ⟨.string, 0, value.length, some value⟩
  | none => ⟨.nil, 0, 0, none⟩

/-- The server behind a connection answers from the database while a packet is filtered. -/
structure Serves (env : Env) (conn : Conn) (db : Database) : Prop where
  get : ∀ command key, format command = some ["GET".toList, key] →
    env.redis conn command = some (bulk (db.get key))
  hget : ∀ command key field, format command = some ["HGET".toList, key, field] →
    env.redis conn command = some (bulk (db.hget key field))

/-- The answers of a server that knows no other commands. -/
def Database.reply (db : Database) (command : Text) : Option Reply :=
  match format command with
  | some [verb, key] => if verb = "GET".toList then some (bulk (db.get key)) else none
  | some [verb, key, field] =>
      if verb = "HGET".toList then some (bulk (db.hget key field)) else none
  | _ => none

theorem serves_of_reply {env : Env} {conn : Conn} {db : Database}
    (h : ∀ command, env.redis conn command = db.reply command) : Serves env conn db where
  get command key hformat := by
    rw [h, Database.reply, hformat]
    exact if_pos rfl
  hget command key field hformat := by
    rw [h, Database.reply, hformat]
    exact if_pos rfl

@[simp] theorem okredis_bulk (value : Option Text) : okredis (some (bulk value)) = true := by
  cases value <;> rfl

theorem mem_of_mem_intercalate {separator c : Char} {words : List Text}
    (h : c ∈ [separator].intercalate words) : c = separator ∨ ∃ w ∈ words, c ∈ w := by
  induction words with
  | nil => simp at h
  | cons w words ih =>
      cases words with
      | nil => exact .inr ⟨w, List.mem_cons_self, by simpa using h⟩
      | cons w' words =>
          rw [List.intercalate_cons_cons, List.mem_append, List.mem_append, List.mem_singleton] at h
          rcases h with (hw | hsep) | hrest
          · exact .inr ⟨w, List.mem_cons_self, hw⟩
          · exact .inl hsep
          · exact (ih hrest).imp_right fun ⟨v, hv, hc⟩ => ⟨v, List.mem_cons_of_mem w hv, hc⟩

theorem mem_ethernetMactoa {addr : Hwaddr} {c : Char} (h : c ∈ ethernetMactoa addr) :
    c = ':' ∨ ∃ n < 16, c = Nat.digitChar n := by
  refine (mem_of_mem_intercalate h).imp_right ?_
  rintro ⟨w, hw, hc⟩
  obtain ⟨b, -, rfl⟩ := List.mem_map.mp hw
  have hlt := b.toNat_lt
  rw [hexByte, List.mem_pair] at hc
  rcases hc with rfl | rfl
  · exact ⟨b.toNat / 16, by omega, rfl⟩
  · exact ⟨b.toNat % 16, by omega, rfl⟩

/-- A hardware address has nothing that hiredis would interpret. -/
theorem clean_ethernetMactoa (addr : Hwaddr) :
    ' ' ∉ ethernetMactoa addr ∧ '%' ∉ ethernetMactoa addr := by
  have hdigit : ∀ n < 16, Nat.digitChar n ≠ ' ' ∧ Nat.digitChar n ≠ '%' := by decide
  constructor
  · intro h
    obtain hcolon | ⟨n, hn, hc⟩ := mem_ethernetMactoa h
    · exact absurd hcolon (by decide)
    · exact (hdigit n hn).1 hc.symm
  · intro h
    obtain hcolon | ⟨n, hn, hc⟩ := mem_ethernetMactoa h
    · exact absurd hcolon (by decide)
    · exact (hdigit n hn).2 hc.symm

/-- The MAC in the plugin data: empty at the start, and a printed address later. -/
def PrintedMac (mac : Text) : Prop := mac = [] ∨ ∃ addr, mac = ethernetMactoa addr

theorem PrintedMac.clean {mac : Text} (h : PrintedMac mac) : ' ' ∉ mac ∧ '%' ∉ mac := by
  obtain rfl | ⟨addr, rfl⟩ := h
  · simp
  · exact clean_ethernetMactoa addr

theorem PrintedMac.length_le {mac : Text} (h : PrintedMac mac) : mac.length ≤ 17 := by
  obtain rfl | ⟨addr, rfl⟩ := h
  · simp
  · exact (length_ethernetMactoa addr).le

/-- The arguments of a command that reads a field of a thing. -/
theorem format_hgetThing {mac field : Text} (hmac : PrintedMac mac) (hfield : field ≠ [])
    (hspace : ' ' ∉ field) (hpercent : '%' ∉ field) (hlen : field.length ≤ 400) :
    format (snprintf 511 ("HGET thing_".toList ++ mac ++ ' ' :: field)) =
      some ["HGET".toList, "thing_".toList ++ mac, field] := by
  have hwords : Words ["HGET".toList, "thing_".toList ++ mac, field] := by
    refine ⟨List.cons_ne_nil _ _, ?_⟩
    simp [hmac.clean.1, hfield, hspace]
  have htext : "HGET thing_".toList ++ mac ++ ' ' :: field =
      [' '].intercalate ["HGET".toList, "thing_".toList ++ mac, field] := by
    simp
  have hclean : '%' ∉ "HGET thing_".toList ++ mac ++ ' ' :: field := by
    have hverb : '%' ∉ "HGET thing_".toList := by decide
    simp only [List.mem_append, List.mem_cons, not_or]
    exact ⟨⟨hverb, hmac.clean.2⟩, by decide, hpercent⟩
  have hlength : ("HGET thing_".toList ++ mac ++ ' ' :: field).length ≤ 510 := by
    have hverb : "HGET thing_".toList.length = 11 := by decide
    have hshort := hmac.length_le
    rw [List.length_append, List.length_append, List.length_cons, hverb]
    omega
  rw [htext] at hclean hlength ⊢
  exact (format_take_eq_iff hwords 510).mpr
    ⟨hlength, fun hmem => hclean (List.mem_of_mem_dropLast hmem)⟩

theorem format_browseCommand (addr : Hwaddr) : format (snprintf 511 ("HGET thing_".toList ++
    ethernetMactoa addr ++ " enable_to_browse".toList)) = some ["HGET".toList,
      "thing_".toList ++ ethernetMactoa addr, "enable_to_browse".toList] :=
  format_hgetThing (.inr ⟨addr, rfl⟩) (by decide) (by decide) (by decide) (by decide)

theorem format_partyCommand : format (snprintf 511 "GET party_mode".toList) =
    some ["GET".toList, "party_mode".toList] := by decide +kernel

attribute [local irreducible] snprintf

/-- What `cmd_redis` returns for a command. -/
def received (env : Env) (conn : Conn) (command : Text) : Option Reply :=
  if okredis (env.redis conn command) then env.redis conn command else none

theorem Serves.received_get {env : Env} {conn : Conn} {db : Database} (h : Serves env conn db)
    {command key : Text} (hformat : format command = some ["GET".toList, key]) :
    received env conn command = some (bulk (db.get key)) := by
  rw [received, h.get _ _ hformat, if_pos (okredis_bulk _)]

theorem Serves.received_hget {env : Env} {conn : Conn} {db : Database} (h : Serves env conn db)
    {command key field : Text} (hformat : format command = some ["HGET".toList, key, field]) :
    received env conn command = some (bulk (db.hget key field)) := by
  rw [received, h.hget _ _ _ hformat, if_pos (okredis_bulk _)]

theorem cmdRedis_received (env : Env) (conn : Conn) (command : Text) (c : Call) :
    ⦃fun s => ⌜s = c⌝⦄ cmdRedis env conn command
    ⦃⇓ r s => ⌜s = ⟨c.data, c.sent ++ [⟨conn, snprintf 511 command, r⟩]⟩ ∧
      r = received env conn (snprintf 511 command)⌝⦄ := by
  unfold cmdRedis
  mvcgen
  subst_vars
  exact ⟨rfl, rfl⟩

def reverseCommand (env : Env) (text : Text) : Text :=
  snprintf 511 ("GET dns-reverse-".toList ++
    (snprintf maxQuery (printed (env.reversed text))).dropLast)

def leaseCommand (query : Text) : Text := snprintf 511 ("GET dns-lease-".toList ++ query)

/-- Both are commands of the table in `NameCommand`. -/
theorem reverseCommand_eq (env : Env) (text : Text) :
    reverseCommand env text = snprintf 511 (NameCommand.getReverse.text
      (snprintf maxQuery (printed (env.reversed text))).dropLast) := by
  rw [NameCommand.text_of_last (by decide)]
  rfl

theorem leaseCommand_eq (query : Text) :
    leaseCommand query = snprintf 511 (NameCommand.getLease.text query) := by
  rw [NameCommand.text_of_last (by decide)]
  rfl

/-- The answer for a reply, if it has a value. -/
def replyAnswer (env : Env) (id : UInt16) (question : Question) (kind : Text → Answer)
    (record : Option Text → Text) : Option Reply → Option Result
  | some reply =>
      if reply.len ≠ 0 then
        some (respond env id question (kind (record reply.str)) (record reply.str))
      else none
  | none => none

/-- How a question under `arpa.` ends, if it does not go on as another one. -/
def reverseOutcome (env : Env) (id : UInt16) (question : Question) (text : Text) :
    Option Result :=
  if isReverse env text then
    match env.dname text with
    | none => some .crash
    | some false => some .kill
    | some true => replyAnswer env id question .reverse (ptrRecord text)
        (received env .storage (reverseCommand env text))
  else none

def reverseSent (env : Env) (text : Text) : List Exchange :=
  if isReverse env text ∧ env.dname text = some true then
    [⟨.storage, reverseCommand env text, received env .storage (reverseCommand env text)⟩]
  else []

def leaseOutcome (env : Env) (id : UInt16) (question : Question) (query : Text) :
    Option Result :=
  replyAnswer env id question .lease (fun str => aRecord query (printed str))
    (received env .dynamic (leaseCommand query))

/-- The address that the ARP table has for the client. -/
def derived (env : Env) (data : PluginData) : Option Hwaddr :=
  env.arp (data.interface.take 15) data.ip4Addr

theorem ip4DeriveMac_exact (env : Env) (c : Call) :
    ⦃fun s => ⌜s = c⌝⦄ ip4DeriveMac env
    ⦃⇓ r s => ⌜(r = 0 ↔ (derived env c.data).isSome) ∧ s = ⟨{ c.data with
      mac := ((derived env c.data).map ethernetMactoa).getD c.data.mac }, c.sent⟩⌝⦄ := by
  unfold ip4DeriveMac
  mvcgen
  all_goals subst_vars
  case vc1 s _ harp =>
    have hnone : derived env s.data = none := harp
    rw [hnone]
    exact ⟨by simp, rfl⟩
  case vc2 s _ addr harp _ =>
    have hsome : derived env s.data = some addr := harp
    rw [hsome]
    exact ⟨by simp, rfl⟩

/-- The storage lets a client browse: it answers the question for the party mode, or for the
field of the client's thing, with a text that begins with `yes`. -/
def LetsBrowse (env : Env) (addr : Hwaddr) : Prop :=
  beginsYes (received env .storage partyCommand) ∨
    beginsYes (received env .storage (browseCommand addr))

/-- The client is the host itself, or the ARP table has its address and the storage lets it
browse. -/
def Permitted (env : Env) (interface : Text) (client : InAddr) : Prop :=
  client = localhost ∨
    ∃ addr, env.arp (interface.take 15) client = some addr ∧ LetsBrowse env addr

/-- The party mode, or the field of a client's thing, begins with `yes` in the storage. -/
def Open (db : Database) (addr : Hwaddr) : Prop :=
  beginsYes (some (bulk (db.get "party_mode".toList))) ∨
    beginsYes (some (bulk (db.hget ("thing_".toList ++ ethernetMactoa addr)
      "enable_to_browse".toList)))

theorem Serves.letsBrowse_iff {env : Env} {db : Database} (h : Serves env .storage db)
    (addr : Hwaddr) : LetsBrowse env addr ↔ Open db addr := by
  have hparty := format_partyCommand
  have hbrowse := format_browseCommand addr
  change format (snprintf 511 partyCommand) = _ at hparty
  change format (snprintf 511 (browseCommand addr)) = _ at hbrowse
  rw [snprintf_partyCommand] at hparty
  rw [snprintf_browseCommand] at hbrowse
  unfold LetsBrowse Open
  rw [h.received_get hparty, h.received_hget hbrowse]

/-- The command for the thing of the address that was found. -/
theorem snprintf_browse {env : Env} {data : PluginData} {addr : Hwaddr} {mac : Text}
    (harp : derived env data = some addr)
    (hmac : mac = ((derived env data).map ethernetMactoa).getD data.mac) :
    snprintf 511 ("HGET thing_".toList ++ mac ++ " enable_to_browse".toList) =
      browseCommand addr := by
  rw [harp, Option.map_some, Option.getD_some] at hmac
  rw [hmac]
  exact snprintf_browseCommand addr

attribute [local spec high] cmdRedis_received ip4DeriveMac_exact

/-- The decision of the portal in terms of the ARP table and the replies. -/
theorem captivePortal_permits (env : Env) (id : UInt16) (question : Question) (ip4 : Text)
    (c : Call) :
    ⦃fun s => ⌜s = c⌝⦄ captivePortal env id question ip4
    ⦃⇓ r _ => ⌜r = none ↔ ip4 = "127.0.0.1".toList ∨
      ∃ addr, derived env c.data = some addr ∧ LetsBrowse env addr⌝⦄ := by
  have hparty' : snprintf 511 "GET party_mode".toList = partyCommand := snprintf_partyCommand
  unfold captivePortal
  mvcgen
  all_goals subst_vars
  case vc1 => exact iff_of_true trivial (.inl rfl)
  case vc2 hip _ _ _ hmac _ _ hzero =>
    refine iff_of_false nofun ?_
    rintro (hlocal | ⟨addr, harp, -⟩)
    · exact hip hlocal
    · exact hzero (hmac.1.mpr (by rw [harp]; rfl))
  case vc3 hip _ _ _ hmac _ _ hzero _ hyes _ hparty =>
    obtain ⟨addr, harp⟩ := Option.isSome_iff_exists.mp (hmac.1.mp (not_not.mp hzero))
    rw [hparty.2, hparty'] at hyes
    exact iff_of_true trivial (.inr ⟨addr, harp, .inl hyes⟩)
  case vc4 hip _ _ _ hmac _ _ hzero _ _ _ _ _ hyes _ hbrowse =>
    obtain ⟨addr, harp⟩ := Option.isSome_iff_exists.mp (hmac.1.mp (not_not.mp hzero))
    rw [hbrowse.2, snprintf_browse harp (congrArg (·.data.mac) hmac.2)] at hyes
    exact iff_of_true trivial (.inr ⟨addr, harp, .inr hyes⟩)
  case vc5 hip _ _ _ hmac _ _ hzero _ hno _ hparty _ hno' _ hbrowse =>
    obtain ⟨addr, harp⟩ := Option.isSome_iff_exists.mp (hmac.1.mp (not_not.mp hzero))
    rw [hparty.2, hparty'] at hno
    rw [hbrowse.2, snprintf_browse harp (congrArg (·.data.mac) hmac.2)] at hno'
    refine iff_of_false nofun ?_
    rintro (hlocal | ⟨addr', harp', hopen⟩)
    · exact hip hlocal
    · rw [harp, Option.some_inj] at harp'
      subst harp'
      exact hopen.elim hno hno'

/-- The decision of the portal in terms of what the storage holds. -/
theorem captivePortal_exact {env : Env} {db : Database} (h : Serves env .storage db)
    (id : UInt16) (question : Question) (ip4 : Text) (c : Call) :
    ⦃fun s => ⌜s = c⌝⦄ captivePortal env id question ip4
    ⦃⇓ r _ => ⌜r = none ↔ ip4 = "127.0.0.1".toList ∨
      ∃ addr, derived env c.data = some addr ∧ Open db addr⌝⦄ := by
  simp only [← h.letsBrowse_iff]
  exact captivePortal_permits env id question ip4 c

theorem reverseOutcome_of_dname {env : Env} {text : Text} (h : isReverse env text = true)
    (hname : env.dname text = some true) (id : UInt16) (question : Question) :
    reverseOutcome env id question text = replyAnswer env id question .reverse
      (ptrRecord text) (received env .storage (reverseCommand env text)) := by
  rw [reverseOutcome, if_pos h, hname]

theorem reverseSent_of_dname {env : Env} {text : Text} (h : isReverse env text = true)
    (hname : env.dname text = some true) :
    reverseSent env text = [⟨.storage, reverseCommand env text,
      received env .storage (reverseCommand env text)⟩] := if_pos ⟨h, hname⟩

theorem reverseSent_of_not {env : Env} {text : Text}
    (h : ¬ (isReverse env text ∧ env.dname text = some true)) :
    reverseSent env text = [] := if_neg h

/-- What the stage of the reverse queries returns and leaves behind. -/
def AfterReverse (env : Env) (id : UInt16) (question : Question) (text : Text) (c : Call)
    (r : Option Result) (s : Call) : Prop :=
  r = reverseOutcome env id question text ∧
    s = ⟨{ c.data with reverse := isReverse env text }, c.sent ++ reverseSent env text⟩

theorem afterReverse_asked {env : Env} {id : UInt16} {question : Question} {text : Text} {c : Call}
    {reply : Option Reply} {r : Option Result} (h : isReverse env text = true)
    (hname : env.dname text = some true)
    (hreply : reply = received env .storage (reverseCommand env text))
    (hr : r = replyAnswer env id question .reverse (ptrRecord text) reply) :
    AfterReverse env id question text c r ⟨{ c.data with reverse := true },
      c.sent ++ [⟨.storage, reverseCommand env text, reply⟩]⟩ := by
  unfold AfterReverse
  rw [reverseOutcome_of_dname h hname, reverseSent_of_dname h hname, h, ← hreply]
  exact ⟨hr, rfl⟩

theorem afterReverse_stopped {env : Env} {id : UInt16} {question : Question} {text : Text}
    {c : Call} {r : Option Result} (h : ¬ (isReverse env text ∧ env.dname text = some true))
    (hr : r = reverseOutcome env id question text) :
    AfterReverse env id question text c r
      ⟨{ c.data with reverse := isReverse env text }, c.sent⟩ := by
  unfold AfterReverse
  rw [reverseSent_of_not h, List.append_nil]
  exact ⟨hr, rfl⟩

theorem reverseResolution_exact (env : Env) (id : UInt16) (question : Question) (text : Text)
    (c : Call) :
    ⦃fun s => ⌜s = c⌝⦄ reverseResolution env id question text
    ⦃⇓ r s => ⌜AfterReverse env id question text c r s⌝⦄ := by
  unfold reverseResolution
  mvcgen
  all_goals subst_vars
  case vc1 s _ hnot =>
    have hfalse : isReverse env text = false := by simpa using hnot
    have hstopped : AfterReverse env id question text s none
        ⟨{ s.data with reverse := isReverse env text }, s.sent⟩ := by
      refine afterReverse_stopped (by simp [hfalse]) ?_
      rw [reverseOutcome, hfalse]
      rfl
    rw [hfalse] at hstopped
    exact hstopped
  case vc2 s _ hnot _ hname =>
    have htrue : isReverse env text = true := by simpa using hnot
    have hstopped : AfterReverse env id question text s (some .crash)
        ⟨{ s.data with reverse := isReverse env text }, s.sent⟩ := by
      refine afterReverse_stopped (by simp [hname]) ?_
      rw [reverseOutcome, htrue, hname]
      rfl
    rw [htrue] at hstopped
    exact hstopped
  case vc3 s _ hnot _ hname =>
    have htrue : isReverse env text = true := by simpa using hnot
    have hstopped : AfterReverse env id question text s (some .kill)
        ⟨{ s.data with reverse := isReverse env text }, s.sent⟩ := by
      refine afterReverse_stopped (by simp [hname]) ?_
      rw [reverseOutcome, htrue, hname]
      rfl
    rw [htrue] at hstopped
    exact hstopped
  case vc4 s _ hnot _ hname reply hlen _ s' hreply =>
    have htrue : isReverse env text = true := by simpa using hnot
    obtain ⟨rfl, hreceived⟩ := hreply
    exact afterReverse_asked htrue hname hreceived (if_pos hlen).symm
  case vc5 s _ hnot _ hname reply hlen s' hreply =>
    have htrue : isReverse env text = true := by simpa using hnot
    obtain ⟨rfl, hreceived⟩ := hreply
    exact afterReverse_asked htrue hname hreceived (if_neg hlen).symm
  case vc6 s _ hnot _ hname s' hreply =>
    have htrue : isReverse env text = true := by simpa using hnot
    obtain ⟨rfl, hreceived⟩ := hreply
    exact afterReverse_asked htrue hname hreceived rfl

/-- What the lookup of a lease returns and leaves behind. -/
theorem localLease_exact (env : Env) (id : UInt16) (question : Question) (c : Call) :
    ⦃fun s => ⌜s = c⌝⦄ localLease env id question
    ⦃⇓ r s => ⌜r = leaseOutcome env id question c.data.query ∧
      s = ⟨c.data, c.sent ++ [⟨.dynamic, leaseCommand c.data.query,
        received env .dynamic (leaseCommand c.data.query)⟩]⟩⌝⦄ := by
  unfold localLease leaseOutcome leaseCommand
  mvcgen
  all_goals subst_vars
  case vc1 reply hlen _ s hreply =>
    rw [← hreply.2]
    exact ⟨(if_pos hlen).symm, hreply.1⟩
  case vc2 reply hlen s hreply =>
    rw [← hreply.2]
    exact ⟨(if_neg hlen).symm, hreply.1⟩
  case vc3 s hreply =>
    rw [← hreply.2]
    exact ⟨rfl, hreply.1⟩

end Dowse.DnsPlugin
