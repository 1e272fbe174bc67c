import Dowse.DnsEvents

/-!
# Who an event is about

The second field of an event is to be the name of the thing that has asked, or its address
when it has no name. The filter asks for the name with the hardware address in the plugin
data, and only later, in the checks of the portal, derives the hardware address of the
client. The event of a packet therefore has the name of the client that was derived last.

A packet is attributed to its client when both things go by the same name, the name survives
the event and the command, and no question is so long that it runs over into the address.
-/
namespace Dowse.DnsPlugin
open CStrings RedisFormat GuardedRuns Std.Do

set_option mvcgen.warning false

/-- The messages that went out with a list of commands. -/
def published (sent : List Exchange) : List Text :=
  sent.filterMap fun e => if e.conn = .dynamic then message e.command else none

/-- The field of an event that says who has asked. -/
def attribution (msg : Text) : Option Text := (msg.splitOn ',')[1]?

/-- The stored name of the thing whose hardware address the ARP table has for the client. -/
def clientName (db : Database) (data : PluginData) (ev : Event) : Option Text :=
  (ev.1.arp (data.interface.take 15) ev.2.client).bind fun addr =>
    db.hget ("thing_".toList ++ ethernetMactoa addr) "name".toList

/-- Every event of a packet is about the client that has sent the packet. -/
def Attributed (db : Event → Database) (data : PluginData) (ev : Event) : Prop :=
  ∀ msg ∈ published (call data ev).2.sent,
    attribution msg = (clientName (db ev) data ev).or (inetNtoa ev.2.client)

/-- The question as the filter prints it. -/
def questionText (env : Env) (question : Question) : Text :=
  match question.owner with
  | some tmp => snprintf maxQuery (cstr tmp)
  | none => cstr env.questionBuffer

/-- A text that is one field of an event and passes through the command as it is. -/
structure Fieldable (text : Text) : Prop where
  comma : ',' ∉ text
  space : ' ' ∉ text
  percent : '%' ∉ text
  nul : '\x00' ∉ text
  length : text.length ≤ 479

/-- The hardware address of an earlier packet makes no difference. -/
structure Settled (db : Event → Database) (data : PluginData) (ev : Event) : Prop where
  storage : Serves ev.1 .storage (db ev)
  same : (db ev).hget ("thing_".toList ++ data.mac) "name".toList = clientName (db ev) data ev
  name : ∀ name, clientName (db ev) data ev = some name → Fieldable name
  question : clientName (db ev) data ev = none → ∀ pkt question,
    ev.1.wire2pkt ev.2.wire = some pkt → pkt.question = some question →
      (questionText ev.1 question).length < fromOffset

theorem fieldable_inetNtoa {addr : InAddr} {ip4 : Text} (h : inetNtoa addr = some ip4) :
    Fieldable ip4 := by
  have hlength := length_inetNtoa_le h
  exact ⟨notMem_inetNtoa h (by decide) (by decide), notMem_inetNtoa h (by decide) (by decide),
    notMem_inetNtoa h (by decide) (by decide), notMem_inetNtoa h (by decide) (by decide), by omega⟩

section Region
variable {m m' : Names}

theorem stringAt_congr {i : ℕ} (h : ∀ j, i ≤ j → m j = m' j) : m.stringAt i = m'.stringAt i := by
  unfold Names.stringAt
  congr 1
  refine List.map_congr_left fun j hj => h j ?_
  rw [List.mem_range'_1] at hj
  exact hj.1

/-- The characters of a string and its terminator make up what is read. -/
theorem stringAt_eq {i : ℕ} {s : Text} (hnul : '\x00' ∉ s) (hfits : i + s.length < namesEnd)
    (htext : ∀ k ≤ s.length, m (i + k) = s.getD k '\x00') : m.stringAt i = s := by
  have hsize : namesEnd - i = s.length + ((namesEnd - i - s.length - 1) + 1) := by omega
  have hchars : (List.range' i s.length).map m = s := by
    refine List.ext_getElem (by simp) fun k hk hk' => ?_
    rw [List.getElem_map, List.getElem_range', Nat.one_mul, htext k (by omega),
      List.getD_eq_getElem _ _ hk']
  have hend : m (i + s.length) = '\x00' := by
    rw [htext _ (Nat.le_refl _)]
    exact List.getD_eq_default _ _ (Nat.le_refl _)
  have hplain : ∀ c ∈ s, decide (c ≠ '\x00') = true := by
    intro c hc
    refine decide_eq_true ?_
    rintro rfl
    exact hnul hc
  unfold Names.stringAt cstr
  rw [hsize, ← List.range'_append_1, List.range'_succ, List.map_append, List.map_cons, hchars, hend,
    List.takeWhile_append_of_pos hplain]
  simp

/-- A string that was written is read back. -/
theorem stringAt_write (m : Names) {i : ℕ} {s : Text} (hnul : '\x00' ∉ s)
    (hfits : i + s.length < namesEnd) : (m.write i s).stringAt i = s := by
  refine stringAt_eq hnul hfits fun k hk => ?_
  rw [Names.write, Names.strncpy, if_pos ⟨by omega, by omega⟩, Nat.add_sub_cancel_left]

/-- One round of `extract_domain`: the loop stops behind the position, or goes on with the
character written there. The array `tld` is written only before the first dot. -/
theorem extractLoop_step {x : Extraction} {c position : ℕ} {names : Names}
    (h : extractLoop x (c + 1) = some (position, names)) :
    ∃ before : Names, (before = x.names ∨
        x.first = true ∧ ∃ tld, before = x.names.strncpy tldOffset maxTld tld) ∧
      (position = c + 1 ∧ names = before ∨
        ∃ y : Extraction, y.names = before.poke c (x.address.getD c '\x00') ∧
          (x.first = false → y.first = false) ∧ extractLoop y c = some (position, names)) := by
  unfold extractLoop at h
  extract_lets last dots before first at h
  have hfirst : x.first = false → first = false := by
    intro hx
    unfold first
    rw [hx, Bool.false_and]
  refine ⟨before, ?_, ?_⟩
  · unfold before
    split_ifs with hdot
    · exact .inr ⟨hdot.2, _, rfl⟩
    · exact .inl rfl
  · split at h
    · split at h
      · cases h
      · split at h
        · obtain ⟨rfl, rfl⟩ := Prod.mk.inj (Option.some.inj h)
          exact .inl ⟨rfl, rfl⟩
        · exact .inr ⟨_, rfl, hfirst, h⟩
    · exact .inr ⟨_, rfl, hfirst, h⟩

/-- The rounds of `extract_domain` for a short name stay below `from`. -/
theorem extractLoop_frame {x : Extraction} {c position : ℕ} {names : Names} (hc : c ≤ fromOffset)
    (h : extractLoop x c = some (position, names)) {j : ℕ} (hj : fromOffset ≤ j) :
    names j = x.names j := by
  induction c generalizing x with
  | zero =>
      cases h
      rfl
  | succ c ih =>
      obtain ⟨before, hbefore, hround⟩ := extractLoop_step h
      have hsame : before j = x.names j := by
        obtain rfl | ⟨-, tld, rfl⟩ := hbefore
        · rfl
        · refine if_neg ?_
          simp only [tldOffset, maxTld, fromOffset, maxDomain] at *
          omega
      obtain ⟨-, rfl⟩ | ⟨y, hy, -, hloop⟩ := hround
      · exact hsame
      · rw [ih (by omega) hloop, hy, Names.poke, if_neg (by omega), hsame]

theorem extraction_from {data : PluginData} {extracted : Option Text} {names : Names}
    (hshort : data.query.length + 1 < fromOffset)
    (h : extraction data = some (extracted, names)) :
    names.stringAt fromOffset = data.names.stringAt fromOffset := by
  refine stringAt_congr fun j hj => ?_
  unfold extraction extractDomain at h
  dsimp only at h
  split at h
  · cases h
  · cases h
    rfl
  · rename_i hfound
    cases h
    split at hfound
    · cases hfound
    · split at hfound
      · rename_i hloop
        cases hfound
        rw [extractLoop_frame (by omega) hloop hj]
        exact if_neg (by omega)
      · cases hfound

end Region

section Messages

/-- The event begins with the identity. -/
theorem prefix_outnew {w : Written} {outnew : Text} (hlength : w.who.length ≤ 479)
    (h : w.outnew = some outnew) : "DNS,".toList ++ w.who ++ [','] <+: outnew := by
  have hbegin : "DNS,".toList ++ w.who ++ [','] <+: snprintf maxOutput w.ungrouped := by
    have hverb : "DNS,".toList.length = 4 := by decide
    unfold snprintf
    refine List.prefix_take_iff.mpr ⟨?_, ?_⟩
    · refine ⟨intText w.hits ++ [','] ++ Nat.toDigits 10 w.epoch ++ [','] ++ w.domain ++ [','] ++
        w.tld, ?_⟩
      unfold Written.ungrouped
      simp only [List.append_assoc]
    · rw [List.length_append, List.length_append, hverb, List.length_singleton]
      unfold maxOutput
      omega
  unfold Written.outnew at h
  split at h
  · cases h
    exact hbegin
  · dsimp only at h
    split at h
    · obtain rfl := Option.some.inj h
      exact (hbegin.trans (List.prefix_append _ _)).trans (List.prefix_append _ _)
    · cases h

/-- A clean beginning of the line is the beginning of the message. -/
theorem prefix_message {first outnew msg : Text} (hne : first ≠ []) (hspace : ' ' ∉ first)
    (hpercent : '%' ∉ first) (hlength : first.length ≤ 484) (hbegins : first <+: outnew)
    (h : message (snprintf 511 (publishCommand outnew)) = some msg) : first <+: msg := by
  obtain ⟨rest, rfl⟩ := hbegins
  have hcut : (first ++ rest).take 484 = first ++ rest.take (484 - first.length) := by
    rw [List.take_append, List.take_of_length_le hlength]
  rw [snprintf_publishCommand, message_eq_some_iff, hcut, publishCommand_eq,
    List.intercalate_cons_cons, List.intercalate_cons_cons, List.intercalate_singleton] at h
  have hverb : ' ' ∉ "PUBLISH".toList ∧ '%' ∉ "PUBLISH".toList := by decide
  have hchannel : ' ' ∉ "dns-query-channel".toList ∧ '%' ∉ "dns-query-channel".toList := by decide
  unfold format at h
  simp only [List.append_assoc, List.singleton_append] at h
  rw [formatLoop_append hverb.1 hverb.2, formatLoop_space, formatLoop_append hchannel.1 hchannel.2,
    formatLoop_space, formatLoop_append hspace hpercent, List.nil_append, List.nil_append,
    List.nil_append, Option.map_map, Option.map_eq_some_iff] at h
  obtain ⟨args, hargs, heq⟩ := h
  obtain ⟨more, others, rfl⟩ := formatLoop_argument hne hargs
  have hmsg : (first ++ more) :: others = [msg] :=
    (List.cons.inj (List.cons.inj heq).2).2
  rw [← (List.cons.inj hmsg).1]
  exact List.prefix_append _ _

/-- A message that begins with an identity is attributed to it. -/
theorem attribution_of_begins {who msg : Text} (hcomma : ',' ∉ who)
    (h : "DNS,".toList ++ who ++ [','] <+: msg) : attribution msg = some who := by
  obtain ⟨rest, rfl⟩ := h
  have htext : "DNS,".toList ++ who ++ [','] ++ rest =
      "DNS".toList ++ ',' :: (who ++ ',' :: rest) := by
    have hsplit : "DNS,".toList = "DNS".toList ++ [','] := by decide
    rw [hsplit]
    simp only [List.append_assoc, List.cons_append, List.nil_append]
  have hverb : ',' ∉ "DNS".toList := by decide
  unfold attribution
  rw [htext, List.splitOn_append_cons_self, List.splitOn_append_cons_self,
    List.splitOn_eq_singleton hverb, List.splitOn_eq_singleton hcomma]
  rfl

end Messages

section Silence

/-- A command with another verb publishes nothing. -/
theorem message_of_verb (verb rest : Text) (hspace : ' ' ∉ verb) (hpercent : '%' ∉ verb)
    (hlength : verb.length ≤ 509) (hne : verb ≠ []) (hverb : verb ≠ "PUBLISH".toList) :
    message (snprintf 511 (verb ++ ' ' :: rest)) = none := by
  have hcut : snprintf 511 (verb ++ ' ' :: rest) =
      verb ++ ' ' :: rest.take (509 - verb.length) := by
    have hroom : 511 - 1 - verb.length = (509 - verb.length) + 1 := by omega
    unfold snprintf
    rw [List.take_append, List.take_of_length_le (by omega), hroom, List.take_succ_cons]
  refine Option.eq_none_iff_forall_ne_some.mpr fun msg h => ?_
  rw [hcut, message_eq_some_iff] at h
  unfold format at h
  rw [formatLoop_append hspace hpercent, formatLoop_space, Option.map_eq_some_iff] at h
  obtain ⟨args, -, heq⟩ := h
  rw [List.nil_append, closed, if_neg hne] at heq
  exact hverb (List.cons.inj heq).1

theorem published_append (sent more : List Exchange) :
    published (sent ++ more) = published sent ++ published more := List.filterMap_append

theorem published_storage (sent : List Exchange) (command : Text) (r : Option Reply) :
    published (sent ++ [⟨.storage, command, r⟩]) = published sent := by
  rw [published_append]
  exact List.append_nil _

theorem published_silent (sent : List Exchange) (conn : Conn) {command : Text} (r : Option Reply)
    (h : message command = none) :
    published (sent ++ [⟨conn, command, r⟩]) = published sent := by
  rw [published_append]
  unfold published
  simp [h]

/-- Nothing was published, and the hardware address is still a printed one. -/
structure Silent (c s : Call) : Prop where
  published : published s.sent = published c.sent
  mac : PrintedMac c.data.mac → PrintedMac s.data.mac

theorem Silent.refl (c : Call) : Silent c c := ⟨rfl, id⟩

theorem Silent.trans {a b c : Call} (h : Silent a b) (h' : Silent b c) : Silent a c :=
  ⟨h'.published.trans h.published, h'.mac ∘ h.mac⟩

theorem Silent.send {c s : Call} (h : Silent c s) {e : Exchange}
    (hnone : message e.command = none) : Silent c ⟨s.data, s.sent ++ [e]⟩ :=
  ⟨(published_silent s.sent e.conn e.reply hnone).trans h.published, h.mac⟩

theorem Silent.ask {c s : Call} (h : Silent c s) (command : Text) (r : Option Reply) :
    Silent c ⟨s.data, s.sent ++ [⟨.storage, command, r⟩]⟩ :=
  ⟨(published_storage s.sent command r).trans h.published, h.mac⟩

theorem message_get (key : Text) : message (snprintf 511 ("GET ".toList ++ key)) = none :=
  message_of_verb "GET".toList key (by decide) (by decide) (by decide) (by decide) (by decide)

attribute [local irreducible] snprintf
attribute [local spec high] ip4DeriveMac_exact

theorem Silent.derive (env : Env) (c : Call) : Silent c ⟨{ c.data with
    mac := ((derived env c.data).map ethernetMactoa).getD c.data.mac }, c.sent⟩ := by
  refine ⟨rfl, fun hmac => ?_⟩
  cases hderived : derived env c.data with
  | none => exact hmac
  | some addr => exact .inr ⟨addr, rfl⟩

theorem captivePortal_silent (env : Env) (id : UInt16) (question : Question) (ip4 : Text)
    (c : Call) :
    ⦃fun s => ⌜s = c⌝⦄ captivePortal env id question ip4 ⦃⇓ _ s => ⌜Silent c s⌝⦄ := by
  unfold captivePortal
  mvcgen
  all_goals subst_vars
  case vc1 => exact .refl _
  case vc2 hmac _ _ _ => exact hmac.2 ▸ Silent.derive _ _
  case vc3 hmac _ _ _ _ _ => exact hmac.2 ▸ (Silent.derive _ _).ask _ _
  case vc4 hmac _ _ _ _ _ _ _ => exact hmac.2 ▸ ((Silent.derive _ _).ask _ _).ask _ _
  case vc5 hmac _ _ _ _ _ _ _ => exact hmac.2 ▸ ((Silent.derive _ _).ask _ _).ask _ _

theorem localLease_silent (env : Env) (id : UInt16) (question : Question) (c : Call) :
    ⦃fun s => ⌜s = c⌝⦄ localLease env id question ⦃⇓ _ s => ⌜Silent c s⌝⦄ := by
  mvcgen [-localLease_spec, localLease_exact]
  subst_vars
  rintro - rfl
  exact (Silent.refl _).send (message_get _)

theorem cachedAnswer_silent (env : Env) (wire : Wire) (c : Call) :
    ⦃fun s => ⌜s = c⌝⦄ cachedAnswer env wire ⦃⇓ _ s => ⌜Silent c s⌝⦄ := by
  unfold cachedAnswer
  mvcgen
  all_goals subst_vars
  case vc1 => exact .refl _
  all_goals exact (Silent.refl _).send (message_get _)

attribute [local spec high] captivePortal_silent localLease_silent cachedAnswer_silent

theorem directEndpoint_silent (env : Env) (id : UInt16) (question : Question) (text : Text)
    (wire : Wire) (c : Call) :
    ⦃fun s => ⌜s = c⌝⦄ directEndpoint env id question text wire ⦃⇓ _ s => ⌜Silent c s⌝⦄ := by
  unfold directEndpoint
  mvcgen
  all_goals subst_vars
  case vc1 hlease => exact hlease
  case vc2 hlease _ _ hcached => exact hlease.trans hcached
  case vc3 hlease _ _ _ hcached _ _ => exact hlease.trans hcached
  case vc4 hlease _ _ _ hcached _ _ => exact hlease.trans hcached

/-- The stage of the reverse queries asks the storage at most. -/
theorem published_reverseSent (env : Env) (text : Text) :
    published (reverseSent env text) = [] := by
  unfold reverseSent
  split
  · exact published_storage [] _ _
  · rfl

end Silence

section Publication
variable {env : Env} {c s : Call} {domain : Option Text} {names : Names}

theorem format_nameCommand {mac : Text} (h : PrintedMac mac) :
    format (snprintf 511 (nameCommand mac)) =
      some ["HGET".toList, "thing_".toList ++ mac, "name".toList] :=
  format_hgetThing h (by decide) (by decide) (by decide) (by decide)

theorem published_counted (extracted : Option Text) (mac : Text)
    (incr expire named : Option Reply) :
    published (counted extracted mac incr expire named) = [] := by
  have hincr : "INCR dns-query-".toList = "INCR".toList ++ ' ' :: "dns-query-".toList := by decide
  have hexpire : "EXPIRE dns-query-".toList = "EXPIRE".toList ++ ' ' :: "dns-query-".toList := by
    decide
  unfold counted
  rw [hincr, hexpire]
  simp only [List.append_assoc, List.cons_append]
  unfold published
  rw [List.filterMap_cons_none, List.filterMap_cons_none]
  · rfl
  · rw [if_pos rfl]
    exact message_of_verb _ _ (by decide) (by decide) (by decide) (by decide) (by decide)
  · rw [if_pos rfl]
    exact message_of_verb _ _ (by decide) (by decide) (by decide) (by decide) (by decide)

/-- Every message of a publication is attributed to the identity that was written. -/
theorem attribution_of_publishes {db : Database} (h : Publishes env c s domain names)
    (hserves : Serves env .storage db) (hmac : PrintedMac c.data.mac)
    (hsilent : published c.sent = []) {who : Text} (hfield : Fieldable who)
    (hwho : identity (bulk (db.hget ("thing_".toList ++ c.data.mac) "name".toList)) names = who) :
    ∀ msg ∈ published s.sent, attribution msg = some who := by
  obtain ⟨incr, expire, named, outnew, reply, hsent, hnamed, houtnew⟩ := h.sent
  rw [nameReply, hserves.received_hget (format_nameCommand hmac)] at hnamed
  have hwritten := houtnew _ hnamed
  have hname : (writtenFor env s.data domain incr
      (bulk (db.hget ("thing_".toList ++ c.data.mac) "name".toList))).who = who := by
    rw [h.data]
    exact hwho
  have hbegin : "DNS,".toList ++ who ++ [','] <+: outnew := by
    rw [← hname] at hfield ⊢
    exact prefix_outnew hfield.length hwritten
  intro msg hmsg
  rw [hsent, published_append, published_append, hsilent, published_counted, List.nil_append,
    List.nil_append] at hmsg
  have hmessage : message (snprintf 511 (publishCommand outnew)) = some msg := by
    obtain ⟨e, he, hsome⟩ := List.mem_filterMap.mp hmsg
    rwa [List.mem_singleton.mp he, if_pos rfl] at hsome
  have hlength : ("DNS,".toList ++ who ++ [',']).length ≤ 484 := by
    have hverb : "DNS,".toList.length = 4 := by decide
    have hshort := hfield.length
    rw [List.length_append, List.length_append, hverb, List.length_singleton]
    omega
  have hclean : ∀ a, a ∉ "DNS,".toList → a ∉ who → a ∉ "DNS,".toList ++ who ++ [','] := by
    intro a hverb hnot hmem
    rw [List.mem_append, List.mem_append, List.mem_singleton] at hmem
    rcases hmem with (hmem | hmem) | rfl
    · exact hverb hmem
    · exact hnot hmem
    · exact hverb (by decide)
  exact attribution_of_begins hfield.comma (prefix_message (by simp)
    (hclean _ (by decide) hfield.space) (hclean _ (by decide) hfield.percent) hlength hbegin
    hmessage)

end Publication

section Packets
variable {db : Event → Database} {data : PluginData} {ev : Event}

/-- What is written for a settled packet is the identity of its client. -/
theorem Settled.identity (h : Settled db data ev) {ip4 : Text}
    (hip : inetNtoa ev.2.client = some ip4) (names : Names)
    (hfrom : clientName (db ev) data ev = none → names.stringAt fromOffset = ip4) :
    ∃ who, Fieldable who ∧ (clientName (db ev) data ev).or (inetNtoa ev.2.client) = some who ∧
      identity (bulk ((db ev).hget ("thing_".toList ++ data.mac) "name".toList)) names = who := by
  rw [h.same]
  cases hname : clientName (db ev) data ev with
  | none => exact ⟨ip4, fieldable_inetNtoa hip, hip, hfrom hname⟩
  | some name =>
      have hfield := h.name name hname
      refine ⟨name, hfield, rfl, List.takeWhile_eq_self_iff.mpr fun c hc => ?_⟩
      refine decide_eq_true ?_
      rintro rfl
      exact hfield.nul hc

theorem stringAt_saved {question : Question} {ip4 : Text} (hip : inetNtoa ev.2.client = some ip4)
    (hshort : (questionText ev.1 question).length < fromOffset) {domain : Option Text}
    {names : Names} (h : extraction (saveFrom ip4
      (saveQuery (questionText ev.1 question) ev.2.client data)) = some (domain, names)) :
    names.stringAt fromOffset = ip4 := by
  have hquery : ((questionText ev.1 question).take maxQuery).dropLast.length + 1 < fromOffset := by
    rw [List.length_dropLast, List.length_take]
    unfold fromOffset maxDomain maxTld at *
    omega
  have hfield := fieldable_inetNtoa hip
  have hlength := length_inetNtoa_le hip
  rw [extraction_from hquery h]
  refine stringAt_write _ hfield.nul ?_
  unfold fromOffset namesEnd niMaxhost
  omega

attribute [local irreducible] snprintf
attribute [local spec high] reverseResolution_exact publishQuery_run captivePortal_silent
  directEndpoint_silent

/-- What is known after the publication: all messages are about one client. -/
structure About (who : Option Text) (s : Call) : Prop where
  messages : ∀ msg ∈ published s.sent, attribution msg = who
  mac : PrintedMac s.data.mac

theorem about_of_silent {who : Option Text} {s : Call} (hsent : published s.sent = [])
    (hmac : PrintedMac s.data.mac) : About who s := by
  refine ⟨fun msg hmsg => ?_, hmac⟩
  rw [hsent] at hmsg
  cases hmsg

theorem About.silent {who : Option Text} {c s : Call} (h : About who c) (hsilent : Silent c s) :
    About who s := ⟨hsilent.published ▸ h.messages, hsilent.mac h.mac⟩

/-- The publication after the flag of the reverse queries and the question were stored. -/
theorem about_of_publishes (hmac : PrintedMac data.mac) (h : Settled db data ev) {pkt : LdnsPkt}
    {question : Question} {ip4 : Text} (hpkt : ev.1.wire2pkt ev.2.wire = some pkt)
    (hquestion : pkt.question = some question) (hip : inetNtoa ev.2.client = some ip4)
    {sent : List Exchange} (hsent : published sent = []) {reverse : Bool} {s : Call}
    {domain : Option Text} {names : Names}
    (hpublishes : Publishes ev.1 ⟨saveFrom ip4 (saveQuery (questionText ev.1 question) ev.2.client
      { data with reverse }), sent⟩ s domain names) :
    About ((clientName (db ev) data ev).or (inetNtoa ev.2.client)) s := by
  obtain ⟨who, hfield, hclient, hwho⟩ := h.identity hip names fun hnone =>
    stringAt_saved hip (h.question hnone pkt question hpkt hquestion) hpublishes.extracted
  refine ⟨?_, ?_⟩
  · rw [hclient]
    exact attribution_of_publishes hpublishes h.storage hmac hsent hfield hwho
  · rw [hpublishes.data]
    exact hmac

/-- The filter publishes only events about the client of a settled packet. -/
theorem preFilter_about (hmac : PrintedMac data.mac) (h : Settled db data ev) :
    ⦃fun s => ⌜s = ⟨data, []⟩⌝⦄ dcpluginSyncPreFilter ev.1 ev.2
    ⦃⇓ _ s => ⌜About ((clientName (db ev) data ev).or (inetNtoa ev.2.client)) s⌝⦄ := by
  have hstart : About ((clientName (db ev) data ev).or (inetNtoa ev.2.client)) ⟨data, []⟩ :=
    about_of_silent rfl hmac
  unfold dcpluginSyncPreFilter
  mvcgen
  all_goals subst_vars
  case vc1 => exact hstart
  case vc2 => exact hstart
  case vc3 hreverse =>
    obtain ⟨-, rfl⟩ := hreverse
    exact about_of_silent (published_reverseSent _ _) hmac
  case vc4 c _ ip4 _ _ r hfail s hreverse hpublish =>
    obtain ⟨-, rfl⟩ := hreverse
    obtain rfl : r = false := by simpa using hfail
    obtain ⟨hkept, hcommands⟩ := hpublish.unpublished
    refine about_of_silent ?_ ?_
    · obtain heq | ⟨extracted, incr, expire, named, heq⟩ := hcommands
      · rw [heq]
        exact published_reverseSent _ _
      · rw [heq, published_append, published_counted, List.append_nil]
        exact published_reverseSent _ _
    · rw [hkept]
      exact hmac
  case vc5 pkt hpkt question hquestion _ _ _ _ c _ ip4 hip _ r hpublished s _ _ hportal hreverse
      hpublish =>
    obtain ⟨-, rfl⟩ := hreverse
    obtain rfl : r = true := by simpa using hpublished
    obtain ⟨domain, names, hpublishes⟩ := hpublish.publishes
    exact (about_of_publishes hmac h hpkt hquestion hip (published_reverseSent _ _)
      hpublishes).silent hportal
  case vc6 pkt hpkt question hquestion _ _ _ _ c _ ip4 hip _ r hpublished s _ _ _ hportal _ _
      hreverse hpublish =>
    intro hdirect
    obtain ⟨-, rfl⟩ := hreverse
    obtain rfl : r = true := by simpa using hpublished
    obtain ⟨domain, names, hpublishes⟩ := hpublish.publishes
    exact ((about_of_publishes hmac h hpkt hquestion hip (published_reverseSent _ _)
      hpublishes).silent hportal).silent hdirect
  case vc7 hreverse _ =>
    obtain ⟨-, rfl⟩ := hreverse
    exact about_of_silent (published_reverseSent _ _) hmac
  case vc8 => exact hstart
  case vc9 => exact hstart

theorem call_about (hmac : PrintedMac data.mac) (h : Settled db data ev) :
    About ((clientName (db ev) data ev).or (inetNtoa ev.2.client)) (call data ev).2 :=
  preFilter_about hmac h ⟨data, []⟩ rfl

end Packets

/-- In every run of the plugin whose packets are all settled, every event is about the client
of its packet. -/
theorem every_event_attributed {argv : List Text} {getenv : String → Option Text}
    {loadDomainlist : Text → Hashmap.Map Text} {sock redis redisStor : Bool} {data : PluginData}
    (h : dcpluginInit argv getenv loadDomainlist sock redis redisStor = some data)
    {db : Event → Database} {evs : List Event} (hevs : Along step (Settled db) data evs) :
    Along step (Attributed db) data evs :=
  Along.imp (I := fun data => PrintedMac data.mac)
    (fun _ _ hmac hsettled => (call_about hmac hsettled).mac)
    (fun _ _ hmac hsettled => (call_about hmac hsettled).messages)
    (.inl (dcpluginInit_fresh h).2) hevs

/-- One device may have a name. -/
def phoneDatabase (name : Option Text) : Database where
  get _ := none
  hget key field :=
    if key = "thing_02:00:00:00:00:07".toList ∧ field = "name".toList then name else none

/-- A network with that device and another one. -/
def phoneEnv (name : Option Text) (time : ℕ) : Env :=
  { lanEnv with
    redis := fun _ command => (phoneDatabase name).reply command
    arp := fun interface addr =>
      if addr = ⟨192, 168, 0, 8⟩ then some ⟨[2, 0, 0, 0, 0, 8], rfl⟩
      else lanEnv.arp interface addr
    time }

def fromPhone : Packet := ⟨[], ⟨192, 168, 0, 7⟩⟩

def fromTablet : Packet := ⟨[], ⟨192, 168, 0, 8⟩⟩

theorem serves_phoneEnv (name : Option Text) (time : ℕ) :
    Serves (phoneEnv name time) .storage (phoneDatabase name) := serves_of_reply fun _ => rfl

theorem short_phoneEnv {name : Option Text} {time : ℕ} {packet : Packet} {pkt : LdnsPkt}
    {question : Question} (hpkt : (phoneEnv name time).wire2pkt packet.wire = some pkt)
    (hquestion : pkt.question = some question) :
    (questionText (phoneEnv name time) question).length < fromOffset := by
  cases hpkt
  cases hquestion
  change (snprintf maxQuery (cstr "dyne.org.".toList)).length < fromOffset
  decide

theorem fieldable_phone : Fieldable "phone".toList :=
  ⟨by decide, by decide, by decide, by decide, by decide⟩

/-- The device gets its name between two of its packets, and both are attributed to it. -/
theorem every_event_attributed_phone :
    let db : Event → Database := fun ev =>
      phoneDatabase (if ev.1.time = 0 then none else some "phone".toList)
    let evs : List Event :=
      [(phoneEnv none 0, fromPhone), (phoneEnv (some "phone".toList) 1, fromPhone)]
    dcpluginInit [] lanVariables (fun _ => Hashmap.hashmapNew) true true true = some lanData ∧
      published (call (step lanData (phoneEnv none 0, fromPhone))
        (phoneEnv (some "phone".toList) 1, fromPhone)).2.sent =
          ["DNS,phone,1,1,dyne.org,.org".toList] ∧
      Along step (Settled db) lanData evs ∧ Along step (Attributed db) lanData evs := by
  intro db evs
  have hinit : dcpluginInit [] lanVariables (fun _ => Hashmap.hashmapNew) true true true =
      some lanData := rfl
  have hnone : clientName (phoneDatabase none) lanData (phoneEnv none 0, fromPhone) = none := by
    decide +kernel
  have hphone : clientName (phoneDatabase (some "phone".toList))
      (step lanData (phoneEnv none 0, fromPhone)) (phoneEnv (some "phone".toList) 1, fromPhone) =
        some "phone".toList := by
    decide +kernel
  have hsettled : Along step (Settled db) lanData evs := by
    refine ⟨⟨serves_phoneEnv _ _, by decide +kernel, ?_, fun _ _ _ => short_phoneEnv⟩,
      ⟨serves_phoneEnv _ _, by decide +kernel, ?_, fun _ _ _ => short_phoneEnv⟩, trivial⟩
    · intro name hname
      exact absurd (hnone.symm.trans hname) nofun
    · intro name hname
      rw [← Option.some.inj (hphone.symm.trans hname)]
      exact fieldable_phone
  exact ⟨hinit, by decide +kernel, hsettled, every_event_attributed hinit hsettled⟩

/-- The tablet has no name, and its event is published under the name of the phone, which had
sent the packet before. -/
theorem tablet_named_phone :
    let env := phoneEnv (some "phone".toList) 0
    let db : Event → Database := fun _ => phoneDatabase (some "phone".toList)
    Serves env .storage (phoneDatabase (some "phone".toList)) ∧
      (clientName (db (env, fromTablet)) (step lanData (env, fromPhone)) (env, fromTablet)).or
        (inetNtoa fromTablet.client) = some "192.168.0.8".toList ∧
      published (call (step lanData (env, fromPhone)) (env, fromTablet)).2.sent =
        ["DNS,phone,1,0,dyne.org,.org".toList] ∧
      ¬ Along step (Attributed db) lanData [(env, fromPhone), (env, fromTablet)] := by
  intro env db
  have hclient : (clientName (db (env, fromTablet)) (step lanData (env, fromPhone))
      (env, fromTablet)).or (inetNtoa fromTablet.client) = some "192.168.0.8".toList := by
    decide +kernel
  have hpublished : published (call (step lanData (env, fromPhone)) (env, fromTablet)).2.sent =
      ["DNS,phone,1,0,dyne.org,.org".toList] := by decide +kernel
  refine ⟨serves_phoneEnv _ _, hclient, hpublished, ?_⟩
  rintro ⟨-, hattributed, -⟩
  have hfield := hattributed "DNS,phone,1,0,dyne.org,.org".toList (by rw [hpublished]; decide)
  rw [hclient] at hfield
  exact absurd hfield (by decide +kernel)

end Dowse.DnsPlugin
