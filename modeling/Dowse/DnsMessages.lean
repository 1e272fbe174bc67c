import Dowse.DnsCommands

/-!
# The event of a packet

What a call publishes is the event of its packet, as far as the buffer and the command leave it
whole. The domain, the TLD and the group of two events for one query are then compared on the
messages that arrive: they agree, and the TLD is what follows the last dot of the name, exactly
when both events arrive whole and the TLD in the plugin data is a fresh one for both.
-/
namespace Dowse.DnsPlugin
open CStrings RedisFormat

/-- The event that a publication writes, when the storage could be asked for the name of the
thing and the publication returns. -/
def writtenEvent (env : Env) (c : Call) : Option Written :=
  (extraction c.data).bind fun (extracted, names) =>
    (nameReply env c.data.mac).bind fun named =>
      if (addGroup { c.data with names } extracted (outnewFor env c extracted names)).isSome then
        some (writtenFor env { c.data with names } extracted (incrReply env extracted) named)
      else none

/-- The fields of an event that describe the name. -/
def Written.nameFields (w : Written) : Text × Text × Option Text := (w.domain, w.tld, w.group)

theorem exists_of_writtenEvent {env : Env} {c : Call} {w : Written}
    (h : writtenEvent env c = some w) :
    ∃ extracted names, extraction c.data = some (extracted, names) ∧
      w.nameFields = (printed extracted, names.stringAt tldOffset,
        groupOf { c.data with names } extracted) := by
  obtain ⟨⟨extracted, names⟩, hextraction, h⟩ := Option.bind_eq_some_iff.mp h
  obtain ⟨named, -, h⟩ := Option.bind_eq_some_iff.mp h
  rw [Option.ite_none_right_eq_some] at h
  obtain rfl := Option.some.inj h.2
  exact ⟨extracted, names, hextraction, rfl⟩

/-- Two events for one query say the same about the name, with what follows its last dot as the
TLD, if and only if the TLD was fresh for both. -/
theorem nameFields_iff {env env' : Env} {c c' : Call} {w w' : Written}
    (hquery : c'.data.query = c.data.query) (hlistpath : c'.data.listpath = c.data.listpath)
    (hdomainlist : c'.data.domainlist = c.data.domainlist) (hnul : '\x00' ∉ c.data.query)
    (hlength : c.data.query.length ≤ 511) (hfrom : HasFrom c.data.names)
    (hfrom' : HasFrom c'.data.names) (hw : writtenEvent env c = some w)
    (hw' : writtenEvent env' c' = some w') :
    (w.nameFields = w'.nameFields ∧ w.tld = (topLevel c.data.query).getD [] ∧
        w'.tld = (topLevel c.data.query).getD []) ↔
      TldFresh c.data.query c.data.names ∧ TldFresh c.data.query c'.data.names := by
  obtain ⟨extracted, names, hextraction, hfields⟩ := exists_of_writtenEvent hw
  obtain ⟨extracted', names', hextraction', hfields'⟩ := exists_of_writtenEvent hw'
  have htld : w.tld = names.stringAt tldOffset := congrArg (·.2.1) hfields
  have htld' : w'.tld = names'.stringAt tldOffset := congrArg (·.2.1) hfields'
  have hfresh := stringAt_tld_iff hnul hlength hfrom hextraction
  have hfresh' := stringAt_tld_iff (hquery ▸ hnul) (hquery ▸ hlength) hfrom' hextraction'
  rw [hquery] at hfresh'
  rw [htld, htld', hfresh, hfresh', and_iff_right_iff_imp]
  rintro ⟨h, h'⟩
  obtain rfl := extracted_eq hquery hnul hlength h hextraction hextraction'
  rw [hfields, hfields', hfresh.mpr h, hfresh'.mpr h']
  unfold groupOf
  rw [hlistpath, hdomainlist]

def event (data : PluginData) (ev : Event) : Option Written :=
  (publication data ev).bind (writtenEvent ev.1)

section Messages
variable {data : PluginData} {ev : Event} {c t : Call} {w : Written} {r : Bool}

attribute [local irreducible] snprintf

/-- The message of a publication is that of the event that it writes. -/
theorem PublishRun.published_eq {env : Env} (h : PublishRun env c r t)
    (hread : ∀ e ∈ c.sent, Read e) (hw : writtenEvent env c = some w) :
    published t.sent = w.delivered.toList := by
  obtain ⟨⟨extracted, names⟩, hextraction, hw⟩ := Option.bind_eq_some_iff.mp hw
  obtain ⟨named, hnamed, hw⟩ := Option.bind_eq_some_iff.mp hw
  rw [Option.ite_none_right_eq_some] at hw
  obtain ⟨hsome, hw⟩ := hw
  obtain rfl := Option.some.inj hw
  cases h with
  | crash hnone => cases hnone.symm.trans hextraction
  | full hfound hgroup _ _ =>
      cases hfound.symm.trans hextraction
      rw [hgroup] at hsome
      cases hsome
  | @done extracted names outnew _ _ _ hfound hgroup _ hsent =>
      cases hfound.symm.trans hextraction
      unfold outnewFor at hgroup
      rw [hnamed] at hgroup
      have houtnew := outnew_writtenFor hgroup
      rw [Written.delivered, houtnew, Option.bind_some, hsent, published_append,
        published_append, published_of_read hread, published_counted, List.nil_append,
        List.nil_append, published, List.filterMap_cons, List.filterMap_nil, if_pos rfl]
      cases message (snprintf 511 (publishCommand outnew)) <;> rfl

theorem published_call (hw : event data ev = some w) :
    published (call data ev).2.sent = w.delivered.toList := by
  obtain ⟨c, hc, hw⟩ := Option.bind_eq_some_iff.mp hw
  cases call_run data ev with
  | silent hnone _ => cases hnone.symm.trans hc
  | publishes hsome hread hrun hadds =>
      obtain rfl := Option.some.inj (hsome.symm.trans hc)
      obtain ⟨more, hsent, hmore⟩ := hadds
      rw [hsent, published_append, published_of_read hmore, List.append_nil]
      exact hrun.published_eq hread hw

/-- The event is the message of a call if and only if it arrives as it was written. -/
theorem published_eq_line_iff (hw : event data ev = some w) :
    published (call data ev).2.sent = [w.line] ↔ w.Arrives := by
  rw [published_call hw, ← w.delivered_eq_line_iff]
  cases w.delivered with
  | none => simp
  | some msg => simp

end Messages

section Names
variable {data data' : PluginData} {ev ev' : Event} {c c' : Call}

theorem exists_of_publication (h : publication data ev = some c) :
    ∃ question ip4, inetNtoa ev.2.client = some ip4 ∧
      c = savedCall ev.1 ev.2 (questionText ev.1 question) ip4 data := by
  unfold publication at h
  split_ifs at h
  obtain ⟨pkt, -, h⟩ := Option.bind_eq_some_iff.mp h
  obtain ⟨question, -, h⟩ := Option.bind_eq_some_iff.mp h
  split_ifs at h
  obtain ⟨ip4, hip, hc⟩ := Option.map_eq_some_iff.mp h
  exact ⟨question, ip4, hip, hc.symm⟩

theorem publication_of_accepted {pkt : LdnsPkt} {question : Question} {ip4 : Text}
    (h : acceptedQuestion ev.1 ev.2 = some (pkt, question))
    (hreverse : reverseOutcome ev.1 pkt.id question (questionText ev.1 question) = none)
    (hip : inetNtoa ev.2.client = some ip4) (data : PluginData) :
    publication data ev = some (savedCall ev.1 ev.2 (questionText ev.1 question) ip4 data) := by
  obtain ⟨hshort, hpkt, hquestion, hne⟩ := acceptedQuestion_eq_some_iff.mp h
  have hlength : ¬ (questionText ev.1 question).length = 0 := mt List.length_eq_zero_iff.mp hne
  rw [publication, if_neg (Nat.not_lt.mpr hshort), hpkt, Option.bind_some, hquestion,
    Option.bind_some, if_neg hlength, hreverse, if_neg (by simp), hip, Option.map_some]

theorem nul_notMem_publication (h : publication data ev = some c) : '\x00' ∉ c.data.query := by
  obtain ⟨question, ip4, -, rfl⟩ := exists_of_publication h
  exact nul_notMem_savedCall ev.1 ev.2 question ip4 data

theorem length_publication (h : publication data ev = some c) : c.data.query.length ≤ 511 := by
  obtain ⟨question, ip4, -, rfl⟩ := exists_of_publication h
  change ((questionText ev.1 question).take maxQuery).dropLast.length ≤ 511
  rw [List.length_dropLast, List.length_take]
  unfold maxQuery
  omega

theorem hasFrom_publication (h : publication data ev = some c) : HasFrom c.data.names := by
  obtain ⟨question, ip4, hip, rfl⟩ := exists_of_publication h
  exact hasFrom_write _ (address_of_inetNtoa hip)

theorem event_eq (h : publication data ev = some c) : event data ev = writtenEvent ev.1 c := by
  rw [event, h, Option.bind_some]

/-- The events of two packets arrive, they say the same about the name of the query, and their
TLD is what follows its last dot. -/
def AgreeOnName (query : Text) (data data' : PluginData) (ev ev' : Event) : Prop :=
  ∃ w w', event data ev = some w ∧ event data' ev' = some w' ∧
    published (call data ev).2.sent = [w.line] ∧ published (call data' ev').2.sent = [w'.line] ∧
    w.nameFields = w'.nameFields ∧ w.tld = (topLevel query).getD [] ∧
    w'.tld = (topLevel query).getD []

/-- The event of a publication is written, and nothing of it is cut or interpreted on its way. -/
def ArrivesWhole (env : Env) (c : Call) : Prop := ∃ w, writtenEvent env c = some w ∧ w.Arrives

/-- Whatever earlier packets have left in the plugin data, the events that arrive for one name and
one list of domains agree on the name, and have what follows its last dot for the TLD, if and only
if both arrive whole and the TLD is a fresh one in both states. -/
theorem name_fields_from_query_iff (hc : publication data ev = some c)
    (hc' : publication data' ev' = some c') (hquery : c'.data.query = c.data.query)
    (hlistpath : c'.data.listpath = c.data.listpath)
    (hdomainlist : c'.data.domainlist = c.data.domainlist) :
    AgreeOnName c.data.query data data' ev ev' ↔
      (ArrivesWhole ev.1 c ∧ ArrivesWhole ev'.1 c') ∧
        TldFresh c.data.query c.data.names ∧ TldFresh c.data.query c'.data.names := by
  have hfields := fun {w w'} (hw : writtenEvent ev.1 c = some w)
    (hw' : writtenEvent ev'.1 c' = some w') => nameFields_iff hquery hlistpath hdomainlist
      (nul_notMem_publication hc) (length_publication hc) (hasFrom_publication hc)
      (hasFrom_publication hc') hw hw'
  constructor
  · rintro ⟨w, w', hw, hw', hline, hline', hname⟩
    rw [published_eq_line_iff hw] at hline
    rw [published_eq_line_iff hw'] at hline'
    rw [event_eq hc] at hw
    rw [event_eq hc'] at hw'
    exact ⟨⟨⟨w, hw, hline⟩, ⟨w', hw', hline'⟩⟩, (hfields hw hw').mp hname⟩
  · rintro ⟨⟨⟨w, hw, hline⟩, ⟨w', hw', hline'⟩⟩, hfresh⟩
    have hname := (hfields hw hw').mpr hfresh
    rw [← event_eq hc] at hw
    rw [← event_eq hc'] at hw'
    rw [← published_eq_line_iff hw] at hline
    rw [← published_eq_line_iff hw'] at hline'
    exact ⟨w, w', hw, hw', hline, hline', hname⟩

end Names

def askingEnv (name : Text) : Env :=
  { lanEnv with wire2pkt := fun _ => some ⟨1, some ⟨some name, 1, 1⟩⟩ }

/-- A name with a dot is described in the same way at the start and after one with another
TLD. -/
theorem name_fields_from_query_dyne_org :
    let ev : Event := (askingEnv "www.dyne.org.".toList, ⟨[], ⟨192, 168, 0, 7⟩⟩)
    let later := { lanData with names := lanData.names.strncpy tldOffset maxTld ".com".toList }
    AgreeOnName "www.dyne.org".toList lanData later ev ev := by
  intro ev later
  have hfresh : ∀ old, TldFresh "www.dyne.org".toList old := fun old =>
    .inr (.inr ⟨by decide, .inl (by decide)⟩)
  have hpublication := @publication_of_accepted ev ⟨1, some ⟨some "www.dyne.org.".toList, 1, 1⟩⟩
    ⟨some "www.dyne.org.".toList, 1, 1⟩ "192.168.0.7".toList (by decide) (by decide) (by decide)
  have hwhole : ∀ c, writtenEvent ev.1 c = some ⟨"192.168.0.7".toList, 0, 0, "dyne.org".toList,
      ".org".toList, none⟩ → ArrivesWhole ev.1 c :=
    fun _ h => ⟨_, h, by decide, nofun, by decide, by decide⟩
  exact (name_fields_from_query_iff (hpublication lanData) (hpublication later) rfl rfl rfl).mpr
    ⟨⟨hwhole _ (by decide +kernel), hwhole _ (by decide +kernel)⟩, hfresh _, hfresh _⟩

/-- After a name with a dot, the event for a name without one has its TLD. -/
theorem printer_dot_org :
    let ev : Event := (askingEnv "printer.".toList, ⟨[], ⟨192, 168, 0, 7⟩⟩)
    let later := step lanData (askingEnv "dyne.org.".toList, ⟨[], ⟨192, 168, 0, 7⟩⟩)
    dcpluginInit [] lanVariables (fun _ => Hashmap.hashmapNew) true true true = some lanData ∧
      published (call lanData ev).2.sent = ["DNS,192.168.0.7,0,0,printer,".toList] ∧
      published (call later ev).2.sent = ["DNS,192.168.0.7,0,0,printer,.org".toList] ∧
      ¬ AgreeOnName "printer".toList lanData later ev ev := by
  intro ev later
  have hevent : event later ev = some ⟨"192.168.0.7".toList, 0, 0, "printer".toList,
      ".org".toList, none⟩ := by decide +kernel
  refine ⟨rfl, by decide +kernel, by decide +kernel, ?_⟩
  rintro ⟨w, w', -, hw', -, -, -, -, htld⟩
  obtain rfl := Option.some.inj (hevent.symm.trans hw')
  exact absurd htld (by decide)

end Dowse.DnsPlugin
