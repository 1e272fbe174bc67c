import Dowse.DnsPlugin
import Dowse.GuardedRuns
import Mathlib

/-!
# The captive portal of the DNS plugin

A query leaves the filter, or is answered from the leases, only for the host itself and
for a client whose hardware address was found and that is enabled to browse, or while
the party mode is on. Everything else the filter does with a packet for which it returns
is to drop it, to point it to the portal, or to answer it with a stored reverse name.

The filter is a sequence of stages, each of which may end the call. A triple for each
stage says what it keeps of the plugin data and what it has learnt when it goes on.
-/
namespace Dowse.DnsPlugin
open CStrings GuardedRuns Std.Do

set_option mvcgen.warning false

attribute [local irreducible] snprintf

/-- The storage has answered a command of this call with a text that begins with `yes`. -/
def Affirmed (sent : List Exchange) (command : Text) : Prop :=
  ∃ r s, ⟨.storage, command, some r⟩ ∈ sent ∧ r.str = some s ∧ "yes".toList <+: cstr s

def partyCommand : Text := "GET party_mode".toList

def browseCommand (addr : Hwaddr) : Text :=
  "HGET thing_".toList ++ ethernetMactoa addr ++ " enable_to_browse".toList

/-- A hardware address was found for the client, and the storage lets it browse. -/
def MayBrowse (env : Env) (interface : Text) (client : InAddr) (sent : List Exchange) : Prop :=
  ∃ addr, env.arp (interface.take 15) client = some addr ∧
    (Affirmed sent partyCommand ∨ Affirmed sent (browseCommand addr))

def Authorised (env : Env) (packet : Packet) (interface : Text) (sent : List Exchange) : Prop :=
  packet.client = localhost ∨ MayBrowse env interface packet.client sent

def Result.fromLease : Result → Prop
  | .direct (.lease _) _ => True
  | _ => False

/-- The wire data is an address record of the query that points to the plugin's own
address, in full when that is no longer than an IPv4 address can be. -/
def Redirected (env : Env) (id : UInt16) (question : Question) (call : Call) (r : Result) : Prop :=
  ∃ record wire, r = .direct (.portal record) wire ∧
    answerToQuestion env id question record = some (some wire) ∧
    record = aRecord call.data.query call.data.ownip4 ∧
    (call.data.ownip4.length ≤ 15 →
      record = call.data.query ++ " 0 IN A ".toList ++ call.data.ownip4)

/-- The wire data is a pointer record with a name that the storage holds. -/
def StoredReverse (env : Env) (id : UInt16) (question : Question) (call : Call) (r : Result) :
    Prop :=
  ∃ text name reply wire, r = .direct (.reverse (ptrRecord text reply.str)) wire ∧
    answerToQuestion env id question (ptrRecord text reply.str) = some (some wire) ∧
    reply.len ≠ 0 ∧
    ⟨.storage, snprintf 511 ("GET dns-reverse-".toList ++ name), some reply⟩ ∈ call.sent

/-- The gate, for one call that ends with a result. -/
structure Gated (env : Env) (packet : Packet) (call : Call) (r : Result) : Prop where
  authorised : r = .ok ∨ r.fromLease → Authorised env packet call.data.interface call.sent
  otherwise : ¬ (r = .ok ∨ r.fromLease) → r = .kill ∨
    ∃ pkt question, env.wire2pkt packet.wire = some pkt ∧ pkt.question = some question ∧
      (Redirected env pkt.id question call r ∨ StoredReverse env pkt.id question call r)

/-- The question, the configuration and the mode stay, and commands are only added. -/
structure Kept (c c' : Call) : Prop where
  query : c'.data.query = c.data.query
  ip4Addr : c'.data.ip4Addr = c.data.ip4Addr
  ownip4 : c'.data.ownip4 = c.data.ownip4
  interface : c'.data.interface = c.data.interface
  listpath : c'.data.listpath = c.data.listpath
  cache : c'.data.cache = c.data.cache
  reverse : c'.data.reverse = c.data.reverse
  offline : c'.data.offline = c.data.offline
  sent : c.sent <+: c'.sent

theorem Kept.refl (c : Call) : Kept c c :=
  ⟨rfl, rfl, rfl, rfl, rfl, rfl, rfl, rfl, List.prefix_rfl⟩

theorem Kept.trans {a b c : Call} (h : Kept a b) (h' : Kept b c) : Kept a c :=
  ⟨h'.query.trans h.query, h'.ip4Addr.trans h.ip4Addr, h'.ownip4.trans h.ownip4,
    h'.interface.trans h.interface, h'.listpath.trans h.listpath, h'.cache.trans h.cache,
    h'.reverse.trans h.reverse, h'.offline.trans h.offline, h.sent.trans h'.sent⟩

theorem Kept.send {c s : Call} (h : Kept c s) (l : List Exchange) :
    Kept c ⟨s.data, s.sent ++ l⟩ :=
  { h with sent := h.sent.trans (List.prefix_append _ _) }

theorem Kept.setNames {c s : Call} (h : Kept c s) (names : Names) :
    Kept c ⟨{ s.data with names }, s.sent⟩ := { h with }

theorem Kept.setMac {c s : Call} (h : Kept c s) (mac : Text) :
    Kept c ⟨{ s.data with mac }, s.sent⟩ := { h with }

/-- A command is recorded with what came back, and nothing else changes. -/
@[spec] theorem cmdRedis_spec (env : Env) (conn : Conn) (command : Text) (c : Call) :
    ⦃fun s => ⌜s = c⌝⦄ cmdRedis env conn command
    ⦃⇓ r s => ⌜s = ⟨c.data, c.sent ++ [⟨conn, snprintf 511 command, r⟩]⟩⌝⦄ := by
  mvcgen [cmdRedis]
  subst_vars
  rfl

@[spec] theorem modifyData_spec (f : PluginData → PluginData) (c : Call) :
    ⦃fun s => ⌜s = c⌝⦄ modifyData f ⦃⇓ _ s => ⌜s = ⟨f c.data, c.sent⟩⌝⦄ := by
  mvcgen [modifyData]
  subst_vars
  rfl

@[spec] theorem publishQuery_spec (env : Env) (c : Call) :
    ⦃fun s => ⌜s = c⌝⦄ publishQuery env ⦃⇓ _ s => ⌜Kept c s⌝⦄ := by
  mvcgen [publishQuery]
  all_goals subst_vars
  case vc1 => exact .refl _
  case vc2 => exact ((Kept.refl _).send _).send _ |>.send _
  case vc3 => exact (((Kept.refl _).send _).send _ |>.send _).send _
  case vc4 => exact ((((Kept.refl _).setNames _).send _).send _).send _
  case vc5 => exact (((((Kept.refl _).setNames _).send _).send _).send _).send _

/-- A record that ldns cannot parse, a dropped packet, or a rendered record. -/
theorem respond_cases (env : Env) (id : UInt16) (question : Question) (answer : Answer)
    (record : Text) :
    respond env id question answer record = .crash ∨
      respond env id question answer record = .kill ∨
      ∃ wire, respond env id question answer record = .direct answer wire ∧
        answerToQuestion env id question record = some (some wire) := by
  unfold respond
  split
  · exact .inl rfl
  · exact .inr (.inl rfl)
  · exact .inr (.inr ⟨_, rfl, ‹_›⟩)

theorem offlineAnswer_cases (env : Env) (id : UInt16) (question : Question) (record : Text) :
    offlineAnswer env id question record = .crash ∨
      offlineAnswer env id question record = .kill := by
  unfold offlineAnswer
  split
  · exact .inl rfl
  · exact .inr rfl

@[spec] theorem ip4DeriveMac_spec (env : Env) (c : Call) :
    ⦃fun s => ⌜s = c⌝⦄ ip4DeriveMac env
    ⦃⇓ r s => ⌜Kept c s ∧ (r = 0 → ∃ addr,
      env.arp (c.data.interface.take 15) c.data.ip4Addr = some addr ∧
        s.data.mac = ethernetMactoa addr)⌝⦄ := by
  mvcgen [ip4DeriveMac]
  all_goals subst_vars
  case vc1 => exact ⟨.refl _, nofun⟩
  case vc2 => exact ⟨(Kept.refl _).setMac _, _, ‹_›, rfl⟩

theorem affirmed_of_beginsYes {sent : List Exchange} {command : Text} {r : Option Reply}
    (hmem : ⟨.storage, command, r⟩ ∈ sent) (h : beginsYes r) : Affirmed sent command := by
  unfold beginsYes at h
  split at h
  · split at h
    · rename_i hs
      refine ⟨_, _, hmem, hs, ?_⟩
      rw [← of_decide_eq_true h]
      exact List.take_prefix 3 _
    · contradiction
  · contradiction

theorem length_ethernetMactoa (addr : Hwaddr) : (ethernetMactoa addr).length = 17 := by
  obtain ⟨octets, h⟩ := addr
  match octets, h with
  | [_, _, _, _, _, _], _ => rfl

theorem snprintf_browseCommand (addr : Hwaddr) :
    snprintf 511 (browseCommand addr) = browseCommand addr := by
  refine snprintf_of_length_lt ?_
  have hverb : "HGET thing_".toList.length = 11 := by decide
  have hfield : " enable_to_browse".toList.length = 17 := by decide
  unfold browseCommand
  rw [List.length_append, List.length_append, length_ethernetMactoa, hverb, hfield]
  omega

theorem snprintf_partyCommand : snprintf 511 partyCommand = partyCommand := by
  refine snprintf_of_length_lt ?_
  decide

/-- A client that passes is the host itself or may browse; any other is answered with the
portal's record. -/
@[spec] theorem captivePortal_spec (env : Env) (id : UInt16) (question : Question) (ip4 : Text)
    (c : Call) :
    ⦃fun s => ⌜s = c⌝⦄ captivePortal env id question ip4
    ⦃⇓ r s => ⌜Kept c s ∧ match r with
      | none => ip4 = "127.0.0.1".toList ∨ MayBrowse env c.data.interface c.data.ip4Addr s.sent
      | some res => res = respond env id question
          (.portal (aRecord c.data.query c.data.ownip4))
          (aRecord c.data.query c.data.ownip4)⌝⦄ := by
  unfold captivePortal
  mvcgen
  all_goals subst_vars
  case vc1 => exact ⟨.refl _, .inl rfl⟩
  case vc2 hmac _ _ _ =>
    refine ⟨hmac.1, ?_⟩
    rw [← hmac.1.query, ← hmac.1.ownip4]
  case vc3 hmac _ _ hzero r hyes =>
    obtain ⟨addr, harp, -⟩ := hmac.2 (not_not.mp hzero)
    refine ⟨hmac.1.send _, .inr ⟨addr, harp, .inl (affirmed_of_beginsYes ?_ hyes)⟩⟩
    rw [← snprintf_partyCommand]
    exact List.mem_concat_self
  case vc4 hmac _ _ hzero _ _ r hyes =>
    obtain ⟨addr, harp, htext⟩ := hmac.2 (not_not.mp hzero)
    refine ⟨(hmac.1.send _).send _, .inr ⟨addr, harp, .inr (affirmed_of_beginsYes ?_ hyes)⟩⟩
    rw [← snprintf_browseCommand]
    unfold browseCommand
    rw [← htext]
    exact List.mem_concat_self
  case vc5 hmac _ _ _ _ _ _ _ =>
    refine ⟨(hmac.1.send _).send _, ?_⟩
    rw [← hmac.1.query, ← hmac.1.ownip4]

/-- A reverse query that is not passed on was answered from the storage or dropped. -/
@[spec] theorem reverseResolution_spec (env : Env) (id : UInt16) (question : Question)
    (text : Text) (c : Call) :
    ⦃fun s => ⌜s = c⌝⦄ reverseResolution env id question text
    ⦃⇓ r s => ⌜Kept ⟨{ c.data with reverse := isReverse env text }, c.sent⟩ s ∧
      ∀ res, r = some res → res = .crash ∨ res = .kill ∨
        StoredReverse env id question s res⌝⦄ := by
  unfold reverseResolution
  mvcgen
  all_goals subst_vars
  case vc1 s _ hnot =>
    have hfalse : isReverse env text = false := by simpa using hnot
    rw [hfalse]
    exact ⟨.refl _, nofun⟩
  all_goals
    have htrue : isReverse env text = true := by simp_all
    rw [htrue]
  case vc2 =>
    refine ⟨.refl _, ?_⟩
    rintro _ ⟨⟩
    exact .inl rfl
  case vc3 =>
    refine ⟨.refl _, ?_⟩
    rintro _ ⟨⟩
    exact .inr (.inl rfl)
  case vc4 hlen _ =>
    refine ⟨(Kept.refl _).send _, ?_⟩
    rintro _ ⟨⟩
    obtain hcrash | hkill | ⟨wire, hdirect, hwire⟩ := respond_cases env id question _ _
    · exact .inl hcrash
    · exact .inr (.inl hkill)
    · exact .inr (.inr ⟨_, _, _, wire, hdirect, hwire, hlen,
        List.mem_concat_self⟩)
  case vc5 => exact ⟨(Kept.refl _).send _, nofun⟩
  case vc6 => exact ⟨(Kept.refl _).send _, nofun⟩

@[spec] theorem localLease_spec (env : Env) (id : UInt16) (question : Question) (c : Call) :
    ⦃fun s => ⌜s = c⌝⦄ localLease env id question
    ⦃⇓ r s => ⌜Kept c s ∧ ∀ res, r = some res → res = .crash ∨ res = .kill ∨ res.fromLease⌝⦄ := by
  unfold localLease
  mvcgen
  all_goals subst_vars
  case vc1 =>
    refine ⟨(Kept.refl _).send _, ?_⟩
    rintro _ ⟨⟩
    obtain hcrash | hkill | ⟨wire, hdirect, -⟩ := respond_cases env id question _ _
    · exact .inl hcrash
    · exact .inr (.inl hkill)
    · exact .inr (.inr (hdirect ▸ trivial))
  case vc2 => exact ⟨(Kept.refl _).send _, nofun⟩
  case vc3 => exact ⟨(Kept.refl _).send _, nofun⟩

@[spec] theorem cachedAnswer_spec (env : Env) (wire : Wire) (c : Call) :
    ⦃fun s => ⌜s = c⌝⦄ cachedAnswer env wire
    ⦃⇓ r s => ⌜Kept c s ∧ (c.data.cache = none → r = none)⌝⦄ := by
  unfold cachedAnswer
  mvcgen
  all_goals subst_vars
  case vc1 => exact ⟨.refl _, fun _ => trivial⟩
  case vc2 hconn _ _ =>
    refine ⟨(Kept.refl _).send _, fun hnone => ?_⟩
    exact absurd (hconn.symm.trans hnone) nofun
  case vc3 => exact ⟨(Kept.refl _).send _, fun _ => trivial⟩
  case vc4 => exact ⟨(Kept.refl _).send _, fun _ => trivial⟩

/-- Without a cache, a query that has passed is dropped, answered from a lease or forwarded. -/
@[spec] theorem directEndpoint_spec (env : Env) (id : UInt16) (question : Question) (text : Text)
    (wire : Wire) (c : Call) :
    ⦃fun s => ⌜s = c⌝⦄ directEndpoint env id question text wire
    ⦃⇓ r s => ⌜Kept c s ∧
      (c.data.cache = none → r = .crash ∨ r = .kill ∨ r = .ok ∨ r.fromLease)⌝⦄ := by
  unfold directEndpoint
  mvcgen
  all_goals subst_vars
  case vc1 hlease =>
    exact ⟨hlease.1, fun _ => (hlease.2 _ rfl).imp_right (Or.imp_right .inr)⟩
  case vc2 hlease _ _ hcached =>
    refine ⟨hlease.1.trans hcached.1, fun hcache => ?_⟩
    exact absurd (hcached.2 (hlease.1.cache.trans hcache)) nofun
  case vc3 hlease _ _ _ hcached _ _ =>
    refine ⟨hlease.1.trans hcached.1, fun _ => ?_⟩
    exact (offlineAnswer_cases env id question _).imp_right .inl
  case vc4 hlease _ _ _ hcached _ _ =>
    exact ⟨hlease.1.trans hcached.1, fun _ => .inr (.inr (.inl trivial))⟩

theorem takeWhile_byteText_dot (b : UInt8) (s : Text) :
    (byteText b ++ '.' :: s).takeWhile (· ≠ '.') = byteText b := by
  have h : ∀ c ∈ byteText b, decide (c ≠ '.') := by
    intro c hc
    have hdigit := Nat.isDigit_of_mem_toDigits (by decide) (by decide) hc
    refine decide_eq_true ?_
    rintro rfl
    contradiction
  rw [List.takeWhile_append_of_pos h]
  simp

theorem byteText_injective : Function.Injective byteText := by
  have h : ∀ b, Nat.ofDigitChars 10 (byteText b) 0 = b.toNat :=
    fun _ => Nat.ofDigitChars_toDigits (by decide) (by decide)
  intro b b' heq
  rw [← UInt8.toNat_inj, ← h b, ← h b', heq]

/-- A byte and what follows its dot can be read back. -/
theorem byteText_dot_inj {b b' : UInt8} {s s' : Text}
    (h : byteText b ++ '.' :: s = byteText b' ++ '.' :: s') : b = b' ∧ s = s' := by
  have hb : byteText b = byteText b' := by
    rw [← takeWhile_byteText_dot b s, h, takeWhile_byteText_dot]
  obtain rfl := byteText_injective hb
  exact ⟨rfl, List.cons.inj (List.append_cancel_left h) |>.2⟩

theorem inetNtoa_injective : Function.Injective inetNtoa := by
  intro addr addr' h
  obtain ⟨ha, h⟩ := byteText_dot_inj (Option.some.inj h)
  obtain ⟨hb, h⟩ := byteText_dot_inj h
  obtain ⟨hc, h⟩ := byteText_dot_inj h
  have hd := byteText_injective h
  cases addr
  cases addr'
  simp_all

theorem length_byteText_le (b : UInt8) : (byteText b).length ≤ 3 := by
  have hlt : b.toNat < 10 ^ 3 := b.toNat_lt.trans (by decide)
  exact Nat.toDigits_length 10 b.toNat 3 (by decide) hlt

theorem mem_inetNtoa {addr : InAddr} {ip4 : Text} (h : inetNtoa addr = some ip4) {c : Char}
    (hc : c ∈ ip4) : c = '.' ∨ c.isDigit = true := by
  have hbyte : ∀ b, c ∈ byteText b → c.isDigit = true :=
    fun _ hmem => Nat.isDigit_of_mem_toDigits (by decide) (by decide) hmem
  unfold inetNtoa at h
  cases h
  simp only [List.mem_append, List.mem_cons] at hc
  rcases hc with ha | rfl | hb | rfl | hc | rfl | hd
  · exact .inr (hbyte _ ha)
  · exact .inl rfl
  · exact .inr (hbyte _ hb)
  · exact .inl rfl
  · exact .inr (hbyte _ hc)
  · exact .inl rfl
  · exact .inr (hbyte _ hd)

theorem notMem_inetNtoa {addr : InAddr} {ip4 : Text} (h : inetNtoa addr = some ip4) {c : Char}
    (hdot : c ≠ '.') (hdigit : c.isDigit = false) : c ∉ ip4 := by
  intro hmem
  rcases mem_inetNtoa h hmem with hc | hc
  · exact hdot hc
  · exact Bool.false_ne_true (hdigit.symm.trans hc)

theorem length_inetNtoa_le {addr : InAddr} {ip4 : Text} (h : inetNtoa addr = some ip4) :
    ip4.length ≤ 15 := by
  have ha := length_byteText_le addr.a
  have hb := length_byteText_le addr.b
  have hc := length_byteText_le addr.c
  have hd := length_byteText_le addr.d
  unfold inetNtoa at h
  cases h
  simp only [List.length_append, List.length_cons]
  omega

theorem Authorised.mono {env : Env} {packet : Packet} {c s : Call} (hkept : Kept c s)
    (h : Authorised env packet c.data.interface c.sent) :
    Authorised env packet s.data.interface s.sent := by
  have haffirmed : ∀ command, Affirmed c.sent command → Affirmed s.sent command :=
    fun _ ⟨r, t, hmem, hr⟩ => ⟨r, t, hkept.sent.subset hmem, hr⟩
  rw [hkept.interface]
  exact h.imp_right fun ⟨addr, harp, hyes⟩ =>
    ⟨addr, harp, hyes.imp (haffirmed _) (haffirmed _)⟩

theorem authorised_of_passed {env : Env} {packet : Packet} {ip4 : Text} {c s : Call}
    (hip : inetNtoa packet.client = some ip4) (haddr : c.data.ip4Addr = packet.client)
    (hkept : Kept c s) (h : ip4 = "127.0.0.1".toList ∨
      MayBrowse env c.data.interface c.data.ip4Addr s.sent) :
    Authorised env packet s.data.interface s.sent := by
  rw [hkept.interface]
  rw [haddr] at h
  refine h.imp_left fun hlocal => inetNtoa_injective ?_
  rw [hip, hlocal]
  decide

theorem gated_kill (env : Env) (packet : Packet) (call : Call) : Gated env packet call .kill :=
  ⟨by simp [Result.fromLease], fun _ => .inl rfl⟩

theorem not_gated_crash (env : Env) (packet : Packet) (call : Call) :
    ¬ Gated env packet call .crash := by
  intro h
  obtain hkill | ⟨_, _, -, -, ⟨_, _, hdirect, -⟩ | ⟨_, _, _, _, hdirect, -⟩⟩ :=
    h.otherwise (by simp [Result.fromLease])
  · cases hkill
  · cases hdirect
  · cases hdirect

theorem gated_local {env : Env} {packet : Packet} {call : Call} {r : Result} {pkt : LdnsPkt}
    {question : Question} (hpkt : env.wire2pkt packet.wire = some pkt)
    (hquestion : pkt.question = some question)
    (h : Redirected env pkt.id question call r ∨ StoredReverse env pkt.id question call r) :
    Gated env packet call r := by
  have hr : ¬ (r = .ok ∨ r.fromLease) := by
    obtain ⟨_, _, rfl, -⟩ | ⟨_, _, _, _, rfl, -⟩ := h <;> simp [Result.fromLease]
  exact ⟨fun hpass => absurd hpass hr, fun _ => .inr ⟨pkt, question, hpkt, hquestion, h⟩⟩

theorem gated_passed {env : Env} {packet : Packet} {call : Call} {r : Result}
    (h : Authorised env packet call.data.interface call.sent) (hr : r = .ok ∨ r.fromLease) :
    Gated env packet call r :=
  ⟨fun _ => h, fun hnot => absurd hr hnot⟩

theorem aRecord_full {query address : Text} (hq : query.length < maxQuery)
    (ha : address.length ≤ 15) : aRecord query address = query ++ " 0 IN A ".toList ++ address := by
  have hmiddle : " 0 IN A ".toList.length = 8 := by decide
  refine snprintf_of_length_lt ?_
  rw [List.length_append, List.length_append, hmiddle]
  unfold maxQuery at hq
  omega

theorem length_savedQuery (text ip4 : Text) (client : InAddr) (data : PluginData) :
    (saveFrom ip4 (saveQuery text client data)).query.length < maxQuery := by
  have h : (text.take maxQuery).length ≤ maxQuery := List.length_take_le _ _
  change (text.take maxQuery).dropLast.length < maxQuery
  rw [List.length_dropLast]
  unfold maxQuery at h ⊢
  omega

theorem gated_portal {env : Env} {packet : Packet} {c s : Call} {r : Result} {pkt : LdnsPkt}
    {question : Question} (hpkt : env.wire2pkt packet.wire = some pkt)
    (hquestion : pkt.question = some question) (hq : c.data.query.length < maxQuery)
    (hkept : Kept c s) (h : r = respond env pkt.id question
      (.portal (aRecord c.data.query c.data.ownip4)) (aRecord c.data.query c.data.ownip4)) :
    r = .crash ∨ Gated env packet s r := by
  obtain hcrash | hkill | ⟨wire, hdirect, hwire⟩ := respond_cases env pkt.id question
    (.portal (aRecord c.data.query c.data.ownip4)) (aRecord c.data.query c.data.ownip4)
  · exact .inl (h.trans hcrash)
  · rw [h, hkill]
    exact .inr (gated_kill env packet s)
  · refine .inr (gated_local hpkt hquestion (.inl ⟨_, wire, h.trans hdirect, hwire, ?_⟩))
    rw [hkept.query, hkept.ownip4]
    exact ⟨rfl, aRecord_full hq⟩

/-- Each way out of the filter is behind the gate. -/
theorem preFilter_spec (env : Env) (packet : Packet) (c : Call) (hcache : c.data.cache = none) :
    ⦃fun s => ⌜s = c⌝⦄ dcpluginSyncPreFilter env packet
    ⦃⇓ r s => ⌜(r = .crash ∨ Gated env packet s r) ∧ s.data.cache = none⌝⦄ := by
  unfold dcpluginSyncPreFilter
  mvcgen
  all_goals subst_vars
  case vc1 => exact ⟨.inr (gated_kill _ _ _), hcache⟩
  case vc2 => exact ⟨.inr (gated_kill _ _ _), hcache⟩
  case vc3 pkt hpkt question hquestion _ _ _ result _ hreverse =>
    refine ⟨?_, hreverse.1.cache.trans hcache⟩
    obtain rfl | rfl | hstored := hreverse.2 _ rfl
    · exact .inl rfl
    · exact .inr (gated_kill _ _ _)
    · exact .inr (gated_local hpkt hquestion (.inr hstored))
  case vc4 hreverse _ _ _ _ _ _ _ hpublish =>
    exact ⟨.inl trivial, hpublish.cache.trans (hreverse.1.cache.trans hcache)⟩
  case vc5 hpkt _ hquestion _ _ _ _ _ _ hreverse _ _ _ _ _ _ _ _ _ hportal hpublish =>
    have hkept := hpublish.trans hportal.1
    refine ⟨gated_portal hpkt hquestion ?_ hportal.1 hportal.2,
      hkept.cache.trans (hreverse.1.cache.trans hcache)⟩
    rw [hpublish.query]
    exact length_savedQuery _ _ _ _
  case vc6 hreverse _ _ hip _ _ _ _ _ hnone _ hportal _ _ hpublish =>
    intro hkept hend
    obtain rfl := Option.eq_none_iff_forall_ne_some.mpr hnone
    have hcache' := hpublish.cache.trans (hreverse.1.cache.trans hcache)
    refine ⟨?_, (hportal.1.trans hkept).cache.trans hcache'⟩
    have hauth := (authorised_of_passed hip hpublish.ip4Addr hportal.1 hportal.2).mono hkept
    obtain rfl | rfl | hpass := hend (hportal.1.cache.trans hcache')
    · exact .inl rfl
    · exact .inr (gated_kill _ _ _)
    · exact .inr (gated_passed hauth hpass)
  case vc7 hreverse _ _ => exact ⟨.inr (gated_kill _ _ _), hreverse.1.cache.trans hcache⟩
  case vc8 => exact ⟨.inl trivial, hcache⟩
  case vc9 => exact ⟨.inr (gated_kill _ _ _), hcache⟩

/-- One packet, with the environment it meets. A run may go on after a call that does not
return, which only adds runs. -/
abbrev Event := Env × Packet

def call (data : PluginData) (ev : Event) : Result × Call :=
  (dcpluginSyncPreFilter ev.1 ev.2).run ⟨data, []⟩

def step (data : PluginData) (ev : Event) : PluginData := (call data ev).2.data

theorem call_gated {data : PluginData} (hcache : data.cache = none) (ev : Event) :
    ((call data ev).1 = .crash ∨ Gated ev.1 ev.2 (call data ev).2 (call data ev).1) ∧
      (step data ev).cache = none :=
  preFilter_spec ev.1 ev.2 ⟨data, []⟩ hcache ⟨data, []⟩ rfl

/-- A plugin starts without a cache and without a hardware address. -/
theorem dcpluginInit_fresh {argv : List Text} {getenv : String → Option Text}
    {loadDomainlist : Text → Hashmap.Map Text} {sock redis redisStor : Bool} {data : PluginData}
    (h : dcpluginInit argv getenv loadDomainlist sock redis redisStor = some data) :
    data.cache = none ∧ data.mac = [] := by
  simp only [dcpluginInit, Option.bind_eq_bind, Option.bind_eq_some_iff] at h
  obtain ⟨_, -, _, -, hdata⟩ := h
  rw [← Option.some.inj hdata]
  exact ⟨rfl, rfl⟩

def lanVariables : String → Option Text
  | "interface" => some "eth0".toList
  | "DOWSE_LAN_ADDRESS_IP4" => some "192.168.0.1".toList
  | _ => none

def lanData : PluginData :=
  ⟨[], 0, fun _ => '\x00', [], [], ⟨0, 0, 0, 0⟩, "192.168.0.1".toList, "eth0".toList, none,
    Hashmap.hashmapNew, none, false, false⟩

/-- One client is in the ARP table, and it is enabled to browse. -/
def lanEnv : Env where
  redis _ command :=
    if command = "HGET thing_02:00:00:00:00:07 enable_to_browse".toList then
      some ⟨.string, 0, 3, some "yes".toList⟩
    else some ⟨.nil, 0, 0, none⟩
  arp _ addr :=
    if addr = ⟨192, 168, 0, 7⟩ then some ⟨[2, 0, 0, 0, 0, 7], rfl⟩ else none
  wire2pkt _ := some ⟨1, some ⟨some "dyne.org.".toList, 1, 1⟩⟩
  dname _ := some true
  reversed := some
  rrNewFrmStr _ := some []
  pkt2wire _ := some [0]
  time := 0
  questionBuffer := []
  belowQuestion _ := '\x00'
  outnewBuffer := []

end Dowse.DnsPlugin
