import Dowse.DnsAnswers
import Dowse.LeaseTable

/-!
# The names of the leases, both ways

A lease is to be found under its host name, under the host name in `dowse.it`, and the host
name under the address. The writer puts all three entries into the volatile redis. The plugin
looks for the names there, but it asks the permanent redis for the address, and without the
dot that the writer leaves behind it. No pointer record comes from a lease.
-/
namespace Dowse.Leases
open CStrings RedisFormat DnsPlugin

inductive Kind
  | host
  | dowse
  | reverse
  deriving DecidableEq, Repr

/-- The name of the address under `in-addr.arpa`. -/
def Lease.reverseName (l : Lease) : Text :=
  byteText l.addr.d ++ '.' :: (byteText l.addr.c ++ '.' :: (byteText l.addr.b ++ '.' ::
    (byteText l.addr.a ++ ".in-addr.arpa".toList)))

/-- The name that is asked for. -/
def Kind.name (l : Lease) : Kind → Text
  | .host => l.host
  | .dowse => l.host ++ dowseIt
  | .reverse => l.reverseName

/-- The record that is expected. -/
def Kind.record (l : Lease) : Kind → Text
  | .reverse => l.reverseName ++ ['.'] ++ " 0 IN PTR ".toList ++ l.host
  | kind => kind.name l ++ " 0 IN A ".toList ++ l.address

def Kind.answer (l : Lease) : Kind → Answer
  | .reverse => .reverse (Kind.record l .reverse)
  | kind => .lease (kind.record l)

/-- An authorised client asks for a name of the lease, while the redis servers answer from
their databases. ldns reads the name and renders the expected record. -/
structure Asks (volatile : Text → Option Text) (permanent : Database) (data : PluginData)
    (l : Lease) (kind : Kind) (ev : Event) : Prop where
  short : ev.2.wire.length ≤ maxDns
  question : ∃ pkt question, ev.1.wire2pkt ev.2.wire = some pkt ∧
    pkt.question = some question ∧ question.owner = some (kind.name l ++ ['.']) ∧
      ∃ wire, answerToQuestion ev.1 pkt.id question (kind.record l) = some (some wire)
  reversed : kind = .reverse → ev.1.dname (l.reverseName ++ ['.']) = some true ∧
    ev.1.reversed (l.reverseName ++ ['.']) = some (l.address ++ ['.'])
  dynamic : ∃ db, Serves ev.1 .dynamic db ∧ db.get = volatile
  storage : Serves ev.1 .storage permanent
  client : ev.2.client = localhost ∨
    ∃ addr, ev.1.arp (data.interface.take 15) ev.2.client = some addr ∧ Open permanent addr

/-- The call answers with the expected record. -/
def Resolved (data : PluginData) (l : Lease) (kind : Kind) (ev : Event) : Prop :=
  ∃ pkt question wire, ev.1.wire2pkt ev.2.wire = some pkt ∧ pkt.question = some question ∧
    answerToQuestion ev.1 pkt.id question (kind.record l) = some (some wire) ∧
      (call data ev).1 = .direct (kind.answer l) wire

/-- The call gets as far as the leases. -/
structure Reaches (data : PluginData) (ev : Event) (text : Text) : Prop where
  passes : PastReverse ev.1 text
  publishable : ∀ ip4, inetNtoa ev.2.client = some ip4 →
    Publishable ev.1 (savedCall ev.1 ev.2 text ip4 data)

section Texts

/-- A name that passes through a command and a record as it is. -/
structure Clean (name : Text) : Prop where
  plain : Plain name
  percent : '%' ∉ name
  length : name.length ≤ 262

theorem HostName.percent {text : Text} (h : HostName text) : '%' ∉ text := by
  intro hmem
  obtain halnum | hmark := h.chars _ hmem
  · exact absurd halnum (by decide)
  · exact absurd hmark (by decide)

theorem Lease.clean_host (l : Lease) : Clean l.host :=
  ⟨l.hostName.plain, l.hostName.percent, l.hostName.length.trans (by decide)⟩

theorem Lease.clean_dowse (l : Lease) : Clean (l.host ++ dowseIt) := by
  have hdowse : '%' ∉ dowseIt ∧ dowseIt.length = 9 := by decide
  refine ⟨l.hostName.plain.append plain_dowseIt, ?_, ?_⟩
  · rw [List.mem_append, not_or]
    exact ⟨l.hostName.percent, hdowse.1⟩
  · have hlength := l.hostName.length
    rw [List.length_append, hdowse.2]
    exact Nat.add_le_add_right hlength 9

theorem Lease.clean_address (l : Lease) : Clean l.address :=
  ⟨l.plain_address, notMem_inetNtoa l.address_eq (by decide) (by decide),
    (length_inetNtoa_le l.address_eq).trans (by decide)⟩

/-- The name is an address, backwards, under `in-addr.arpa`. -/
theorem Lease.reverseName_eq (l : Lease) : ∃ text,
    inetNtoa ⟨l.addr.d, l.addr.c, l.addr.b, l.addr.a⟩ = some text ∧
      l.reverseName = text ++ ".in-addr.arpa".toList := by
  refine ⟨_, rfl, ?_⟩
  unfold reverseName
  simp only [List.append_assoc, List.cons_append]

theorem Lease.clean_reverseName (l : Lease) : Clean l.reverseName := by
  obtain ⟨text, htext, hname⟩ := l.reverseName_eq
  have harpa : Plain ".in-addr.arpa".toList := List.all_eq_true.mp (by decide)
  have hpercent : '%' ∉ ".in-addr.arpa".toList ∧ ".in-addr.arpa".toList.length = 13 := by decide
  have hlength := length_inetNtoa_le htext
  rw [hname]
  refine ⟨(plain_inetNtoa htext).append harpa, ?_, ?_⟩
  · rw [List.mem_append, not_or]
    exact ⟨notMem_inetNtoa htext (by decide) (by decide), hpercent.1⟩
  · rw [List.length_append, hpercent.2]
    omega

theorem Plain.cstr_eq {text : Text} (h : Plain text) : cstr text = text :=
  cstr_eq_self (h.notMem (by decide))

/-- The question is read back with its dot, and the query without. -/
theorem questionText_owner {env : Env} {question : Question} {name : Text} (h : Clean name)
    (howner : question.owner = some (name ++ ['.'])) :
    questionText env question = name ++ ['.'] := by
  have hlength := h.length
  unfold questionText
  rw [howner]
  dsimp only
  rw [(h.plain.append plain_dot).cstr_eq]
  refine snprintf_of_length_lt ?_
  rw [List.length_append, List.length_singleton]
  unfold maxQuery
  omega

theorem query_eq {name : Text} (h : Clean name) :
    ((name ++ ['.']).take maxQuery).dropLast = name := by
  have hlength := h.length
  rw [List.take_of_length_le, List.dropLast_concat]
  rw [List.length_append, List.length_singleton]
  unfold maxQuery
  omega

/-- A command with a clean name has the arguments that were meant. -/
theorem format_nameText (cmd : NameCommand) {name : Text} (h : Clean name) :
    format (snprintf 511 (cmd.text name)) = some (cmd.argv name) := by
  have hspace : ' ' ∉ name := h.plain.notMem (by decide)
  have hroom : 262 ≤ cmd.room := by cases cmd <;> decide
  have hfits : cmd.Fits name := ⟨h.length.trans hroom,
    fun hmem => h.percent (List.mem_of_mem_dropLast hmem), fun _ => h.percent⟩
  exact (format_text_iff hspace).mpr hfits

/-- A text behind a common beginning can be read from a buffer that it fits. -/
theorem snprintf_append_eq_iff {n : ℕ} {s t u : Text} (h : s.length + u.length < n - 1) :
    snprintf n (s ++ t) = s ++ u ↔ t = u := by
  unfold snprintf
  constructor
  · intro heq
    rw [List.take_append, List.take_of_length_le (by omega), List.append_right_inj] at heq
    have hlength := congrArg List.length heq
    rw [List.length_take] at hlength
    rwa [List.take_of_length_le (by omega)] at heq
  · rintro rfl
    exact List.take_of_length_le (by rw [List.length_append]; omega)

end Texts

section Answers
variable {env : Env} {id : UInt16} {question : Question}

theorem respond_eq_direct_iff {answer answer' : Answer} {record : Text} {wire : Wire} :
    respond env id question answer record = .direct answer' wire ↔
      answer = answer' ∧ answerToQuestion env id question record = some (some wire) := by
  unfold respond
  split
  · rename_i hnone
    simp [hnone]
  · rename_i hnone
    simp [hnone]
  · rename_i wire' hwire
    simp [hwire]

/-- The answer for a value, which must not be empty. -/
theorem replyAnswer_bulk (kind : Text → Answer) (record : Option Text → Text)
    (value : Option Text) :
    replyAnswer env id question kind record (some (bulk value)) =
      (value.filter (· ≠ [])).map fun v =>
        respond env id question (kind (record (some v))) (record (some v)) := by
  cases value with
  | none => rfl
  | some v =>
      cases v with
      | nil => rfl
      | cons c v => rfl

/-- A record that is sent for a reply is of the kind that was looked for. -/
theorem answer_of_replyAnswer {kind : Text → Answer} {record : Option Text → Text}
    {reply : Option Reply} {answer : Answer} {wire : Wire}
    (h : replyAnswer env id question kind record reply = some (.direct answer wire)) :
    ∃ text, kind text = answer := by
  unfold replyAnswer at h
  split at h
  · split_ifs at h
    exact ⟨_, (respond_eq_direct_iff.mp (Option.some.inj h)).1⟩
  · cases h

/-- A reverse query never ends with the record of a lease. -/
theorem reverseOutcome_ne_lease {text : Text} {record : Text} {wire : Wire} :
    reverseOutcome env id question text ≠ some (.direct (.lease record) wire) := by
  intro h
  unfold reverseOutcome at h
  split_ifs at h
  split at h
  · cases h
  · cases h
  · obtain ⟨text, hanswer⟩ := answer_of_replyAnswer h
    cases hanswer

theorem questionAt_append (name last : Text) {back : ℕ} (h : back ≤ last.length) :
    questionAt env (name ++ last) back = last.getD (last.length - back) '\x00' := by
  unfold questionAt
  rw [List.length_append, if_pos (by omega), List.getD_append_right _ _ _ _ (by omega)]
  congr 1
  omega

theorem isReverse_arpa (env : Env) (name : Text) :
    isReverse env (name ++ "arpa.".toList) = true := by
  unfold isReverse
  rw [questionAt_append _ _ (by decide), questionAt_append _ _ (by decide),
    questionAt_append _ _ (by decide), questionAt_append _ _ (by decide),
    questionAt_append _ _ (by decide)]
  decide

end Answers

section Queries
variable {volatile : Text → Option Text} {permanent : Database} {data : PluginData} {l : Lease}
  {kind : Kind} {ev : Event}

theorem Kind.clean (l : Lease) (kind : Kind) : Clean (kind.name l) := by
  cases kind with
  | host => exact l.clean_host
  | dowse => exact l.clean_dowse
  | reverse => exact l.clean_reverseName

/-- A question for a name of a lease, as the call has parsed it. -/
structure Parsed (data : PluginData) (l : Lease) (kind : Kind) (ev : Event) (pkt : LdnsPkt)
    (question : Question) (ip4 : Text) : Prop where
  client : inetNtoa ev.2.client = some ip4
  outcome : Outcome ev.1 ev.2 pkt.id question (kind.name l ++ ['.']) ip4 data (call data ev).1
  renders : ∃ wire, answerToQuestion ev.1 pkt.id question (kind.record l) = some (some wire)
  resolved : Resolved data l kind ev ↔ ∃ wire,
    answerToQuestion ev.1 pkt.id question (kind.record l) = some (some wire) ∧
      (call data ev).1 = .direct (kind.answer l) wire

theorem Asks.parsed (h : Asks volatile permanent data l kind ev) :
    ∃ pkt question ip4, Parsed data l kind ev pkt question ip4 := by
  obtain ⟨pkt, question, hpkt, hquestion, howner, hrenders⟩ := h.question
  obtain ⟨ip4, hip⟩ : ∃ ip4, inetNtoa ev.2.client = some ip4 := ⟨_, rfl⟩
  have htext : questionText ev.1 question = kind.name l ++ ['.'] :=
    questionText_owner (kind.clean l) howner
  have hne : questionText ev.1 question ≠ [] := by
    rw [htext]
    exact List.append_ne_nil_of_right_ne_nil _ (List.cons_ne_nil _ _)
  have haccepted := acceptedQuestion_eq_some_iff.mpr ⟨h.short, hpkt, hquestion, hne⟩
  have houtcome := preFilter_outcome haccepted hip ⟨data, []⟩ rfl
  rw [htext] at houtcome
  refine ⟨pkt, question, ip4, hip, houtcome, hrenders, ?_⟩
  constructor
  · rintro ⟨pkt', question', wire, hpkt', hquestion', hwire, hdirect⟩
    obtain rfl := Option.some.inj (hpkt.symm.trans hpkt')
    obtain rfl := Option.some.inj (hquestion.symm.trans hquestion')
    exact ⟨wire, hwire, hdirect⟩
  · rintro ⟨wire, hwire, hdirect⟩
    exact ⟨pkt, question, wire, hpkt, hquestion, hwire, hdirect⟩

/-- The permanent redis is asked for the address without a dot behind it. -/
theorem Asks.received_reverse (h : Asks volatile permanent data l .reverse ev) :
    received ev.1 .storage (reverseCommand ev.1 (l.reverseName ++ ['.'])) =
      some (bulk (permanent.get ("dns-reverse-".toList ++ l.address))) := by
  have hreverse : reverseCommand ev.1 (l.reverseName ++ ['.']) =
      snprintf 511 (NameCommand.getReverse.text l.address) := by
    have hlength := l.clean_address.length
    have hprinted : snprintf maxQuery (printed (ev.1.reversed (l.reverseName ++ ['.']))) =
        l.address ++ ['.'] := by
      rw [(h.reversed rfl).2]
      unfold printed
      dsimp only
      rw [(l.clean_address.plain.append plain_dot).cstr_eq]
      refine snprintf_of_length_lt ?_
      rw [List.length_append, List.length_singleton]
      unfold maxQuery
      omega
    rw [reverseCommand_eq, hprinted, List.dropLast_concat]
  rw [hreverse]
  exact h.storage.received_get (format_nameText .getReverse l.clean_address)

theorem Asks.permitted (h : Asks volatile permanent data l kind ev) :
    Permitted ev.1 data.interface ev.2.client := by
  refine h.client.imp_right ?_
  rintro ⟨addr, harp, hopen⟩
  exact ⟨addr, harp, (h.storage.letsBrowse_iff addr).mpr hopen⟩

theorem Asks.received_lease (h : Asks volatile permanent data l kind ev) :
    received ev.1 .dynamic (leaseCommand (kind.name l)) =
      some (bulk (volatile (Stem.lease.text ++ kind.name l))) := by
  obtain ⟨db, hserves, rfl⟩ := h.dynamic
  rw [leaseCommand_eq]
  exact hserves.received_get (format_nameText .getLease (kind.clean l))

/-- Without a lease, a query that has passed the portal is not answered with a record. -/
theorem endpointOutcome_ne_record {env : Env} {id : UInt16} {question : Question} {text : Text}
    {wire : Wire} (hlease : leaseOutcome env id question data.query = none) {answer : Answer}
    (hanswer : answer ≠ .cached) (stored : Wire) :
    endpointOutcome env id question text wire data ≠ .direct answer stored := by
  intro h
  cases hcache : cacheOutcome env data wire with
  | some r =>
      rw [endpointOutcome_cached hlease hcache] at h
      obtain ⟨conn, reply, -, -, hr⟩ := cacheOutcome_eq_some_iff.mp hcache
      unfold cachedPacket at hr
      split at hr
      · cases h.symm.trans hr
      · cases h.symm.trans hr
        exact hanswer rfl
  | none =>
      rw [endpointOutcome_end hlease hcache] at h
      split_ifs at h
      obtain hcrash | hkill := offlineAnswer_cases env id question
        (offlineRecord data.reverse text data.query)
      · cases hcrash.symm.trans h
      · cases hkill.symm.trans h

/-- The outcome for a text that passes the reverse queries is never a pointer record. -/
theorem Outcome.ne_reverse {env : Env} {packet : Packet} {id : UInt16} {question : Question}
    {text ip4 : Text} {r : Result} (h : Outcome env packet id question text ip4 data r)
    (hpermitted : Permitted env data.interface packet.client)
    (hnone : reverseOutcome env id question text = none) (record : Text) (wire : Wire) :
    r ≠ .direct (.reverse record) wire := by
  intro hdirect
  by_cases hpublishable : Publishable env (savedCall env packet text ip4 data)
  · have hend := (h.endpoint hnone hpublishable hpermitted).symm.trans hdirect
    cases houtcome :
        leaseOutcome env id question (savedCall env packet text ip4 data).data.query with
    | none =>
        have hkind : Answer.reverse record ≠ .cached := nofun
        exact endpointOutcome_ne_record houtcome hkind wire hend
    | some res =>
        rw [← endpointOutcome_lease houtcome, hend] at houtcome
        obtain ⟨record', hanswer⟩ := answer_of_replyAnswer houtcome
        cases hanswer
  · cases (h.crash hnone hpublishable).symm.trans hdirect

/-- The address of a lease leads to its host name if and only if the permanent redis says so. -/
theorem resolved_reverse_iff (h : Asks volatile permanent data l .reverse ev) :
    Resolved data l .reverse ev ↔
      ∃ value, permanent.get ("dns-reverse-".toList ++ l.address) = some value ∧
        cstr value = l.host := by
  obtain ⟨pkt, question, ip4, hparsed⟩ := h.parsed
  have hreverse : isReverse ev.1 (l.reverseName ++ ['.']) = true := by
    obtain ⟨text, -, hname⟩ := l.reverseName_eq
    have harpa : ".in-addr.arpa".toList ++ ['.'] = ".in-addr.".toList ++ "arpa.".toList := by
      decide
    rw [hname, List.append_assoc, harpa, ← List.append_assoc]
    exact isReverse_arpa _ _
  have houtcome : reverseOutcome ev.1 pkt.id question (l.reverseName ++ ['.']) =
      ((permanent.get ("dns-reverse-".toList ++ l.address)).filter (· ≠ [])).map fun value =>
        respond ev.1 pkt.id question
          (.reverse (ptrRecord (l.reverseName ++ ['.']) (some value)))
          (ptrRecord (l.reverseName ++ ['.']) (some value)) := by
    rw [reverseOutcome_of_dname hreverse (h.reversed rfl).1, h.received_reverse, replyAnswer_bulk]
  have hrecord : ∀ value, ptrRecord (l.reverseName ++ ['.']) (some value) =
      Kind.record l .reverse ↔ cstr value = l.host := by
    intro value
    refine snprintf_append_eq_iff ?_
    have hptr : " 0 IN PTR ".toList.length = 10 := by decide
    have hname := l.clean_reverseName.length
    have hhost := l.clean_host.length
    rw [List.length_append, List.length_append, List.length_singleton, hptr]
    omega
  rw [hparsed.resolved]
  constructor
  · rintro ⟨wire, hwire, hdirect⟩
    cases hvalue : (permanent.get ("dns-reverse-".toList ++ l.address)).filter (· ≠ []) with
    | none =>
        rw [hvalue, Option.map_none] at houtcome
        exact absurd hdirect (Outcome.ne_reverse hparsed.outcome h.permitted houtcome _ _)
    | some value =>
        rw [hvalue, Option.map_some] at houtcome
        obtain ⟨hget, -⟩ := Option.filter_eq_some_iff.mp hvalue
        have hanswer := (hparsed.outcome.reverse _ houtcome).symm.trans hdirect
        obtain ⟨hsame, -⟩ := respond_eq_direct_iff.mp hanswer
        exact ⟨value, hget, (hrecord value).mp (Answer.reverse.inj hsame)⟩
  · rintro ⟨value, hget, hhost⟩
    obtain ⟨wire, hwire⟩ := hparsed.renders
    have hne : value ≠ [] := by
      rintro rfl
      exact l.hostName.ne_nil hhost.symm
    rw [hget, Option.filter_some, if_pos (decide_eq_true hne), Option.map_some,
      (hrecord value).mpr hhost] at houtcome
    refine ⟨wire, hwire, (hparsed.outcome.reverse _ houtcome).trans ?_⟩
    exact respond_eq_direct_iff.mpr ⟨rfl, hwire⟩

/-- A name of a lease leads to its address if and only if the call gets as far as the leases
and the volatile redis has the address for the name. -/
theorem resolved_forward_iff (hkind : kind ≠ .reverse)
    (h : Asks volatile permanent data l kind ev) :
    Resolved data l kind ev ↔ Reaches data ev (kind.name l ++ ['.']) ∧
      ∃ value, volatile (Stem.lease.text ++ kind.name l) = some value ∧
        cstr value = l.address := by
  obtain ⟨pkt, question, ip4, hparsed⟩ := h.parsed
  have hquery : (savedCall ev.1 ev.2 (kind.name l ++ ['.']) ip4 data).data.query = kind.name l :=
    query_eq (kind.clean l)
  have hlease : leaseOutcome ev.1 pkt.id question
      (savedCall ev.1 ev.2 (kind.name l ++ ['.']) ip4 data).data.query =
        ((volatile (Stem.lease.text ++ kind.name l)).filter (· ≠ [])).map fun value =>
          respond ev.1 pkt.id question
            (.lease (aRecord (kind.name l) (cstr value))) (aRecord (kind.name l) (cstr value)) := by
    rw [hquery, leaseOutcome, h.received_lease, replyAnswer_bulk]
    rfl
  obtain ⟨hkindRecord, hanswer⟩ : kind.record l = kind.name l ++ " 0 IN A ".toList ++ l.address ∧
      kind.answer l = .lease (kind.record l) := by
    cases kind with
    | host => exact ⟨rfl, rfl⟩
    | dowse => exact ⟨rfl, rfl⟩
    | reverse => exact absurd rfl hkind
  have hrecord : ∀ value, aRecord (kind.name l) (cstr value) = kind.record l ↔
      cstr value = l.address := by
    intro value
    rw [hkindRecord]
    refine snprintf_append_eq_iff ?_
    have ha : " 0 IN A ".toList.length = 8 := by decide
    have hname := (kind.clean l).length
    have haddress := l.clean_address.length
    rw [List.length_append, ha]
    omega
  rw [hparsed.resolved, hanswer]
  constructor
  · rintro ⟨wire, hwire, hdirect⟩
    have hnone : reverseOutcome ev.1 pkt.id question (kind.name l ++ ['.']) = none := by
      by_contra hsome
      obtain ⟨res, hres⟩ := Option.ne_none_iff_exists'.mp hsome
      rw [← hparsed.outcome.reverse res hres, hdirect] at hres
      exact reverseOutcome_ne_lease hres
    have hpublishable :
        Publishable ev.1 (savedCall ev.1 ev.2 (kind.name l ++ ['.']) ip4 data) := by
      by_contra hnot
      cases hdirect.symm.trans (hparsed.outcome.crash hnone hnot)
    refine ⟨⟨reverseOutcome_eq_none_iff.mp hnone, fun ip4' hip' => ?_⟩, ?_⟩
    · obtain rfl := Option.some.inj (hparsed.client.symm.trans hip')
      exact hpublishable
    have hend := (hparsed.outcome.endpoint hnone hpublishable h.permitted).symm.trans hdirect
    cases hvalue : (volatile (Stem.lease.text ++ kind.name l)).filter (· ≠ []) with
    | none =>
        rw [hvalue, Option.map_none] at hlease
        have hkind : Answer.lease (kind.record l) ≠ .cached := nofun
        exact absurd hend (endpointOutcome_ne_record hlease hkind wire)
    | some value =>
        rw [hvalue, Option.map_some] at hlease
        obtain ⟨hget, -⟩ := Option.filter_eq_some_iff.mp hvalue
        rw [endpointOutcome_lease hlease] at hend
        obtain ⟨hsame, -⟩ := respond_eq_direct_iff.mp hend
        exact ⟨value, hget, (hrecord value).mp (Answer.lease.inj hsame)⟩
  · rintro ⟨⟨hpasses, hpublishable⟩, value, hget, haddress⟩
    obtain ⟨wire, hwire⟩ := hparsed.renders
    have hne : value ≠ [] := by
      rintro rfl
      exact l.address_ne_nil haddress.symm
    have hend := hparsed.outcome.endpoint (reverseOutcome_eq_none_iff.mpr hpasses)
      (hpublishable ip4 hparsed.client) h.permitted
    rw [hget, Option.filter_some, if_pos (decide_eq_true hne), Option.map_some,
      (hrecord value).mpr haddress] at hlease
    rw [endpointOutcome_lease hlease] at hend
    exact ⟨wire, hwire, hend.trans (respond_eq_direct_iff.mpr ⟨rfl, hwire⟩)⟩

end Queries

/-- When all names of all leases can be resolved: the names are apart and left to the leases,
the permanent redis has the host names for the addresses, and no call ends before it comes to
the leases. -/
structure Resolvable {config : Config} (table : Table config) (permanent : Database)
    (data : Lease → Kind → PluginData) (ask : Lease → Kind → Event) : Prop where
  apart : table.Apart
  unclaimed : table.Unclaimed
  reversed : ∀ l ∈ table.leases, ∃ value,
    permanent.get ("dns-reverse-".toList ++ l.address) = some value ∧ cstr value = l.host
  reaches : ∀ l ∈ table.leases, ∀ kind : Kind, kind ≠ .reverse →
    Reaches (data l kind) (ask l kind) (kind.name l ++ ['.'])

/-- For every table of leases and every configuration, the queries of authorised clients for
all names of the leases are answered from the leases if and only if they are resolvable. -/
theorem resolved_iff_resolvable {config : Config} (table : Table config)
    {cli : Text → Option (List Text)} (hcli : Reads cli) (before : Text → Option Text)
    (permanent : Database) (data : Lease → Kind → PluginData) (ask : Lease → Kind → Event)
    (hask : ∀ l ∈ table.leases, ∀ kind,
      Asks (table.loaded cli before) permanent (data l kind) l kind (ask l kind)) :
    (∀ l ∈ table.leases, ∀ kind, Resolved (data l kind) l kind (ask l kind)) ↔
      Resolvable table permanent data ask := by
  constructor
  · intro h
    have hforward : ∀ l ∈ table.leases, ∀ kind : Kind, kind ≠ .reverse →
        table.loaded cli before (Stem.lease.text ++ kind.name l) = some l.address := by
      intro l hl kind hkind
      obtain ⟨-, value, hvalue, haddress⟩ :=
        (resolved_forward_iff hkind (hask l hl kind)).mp (h l hl kind)
      have hname : kind.name l = l.host ∨ kind.name l = l.host ++ dowseIt := by
        cases kind with
        | host => exact .inl rfl
        | dowse => exact .inr rfl
        | reverse => exact absurd rfl hkind
      obtain ⟨value', hvalue', hplain⟩ := table.loaded_plain hcli before hl hname
      obtain rfl := Option.some.inj (hvalue.symm.trans hvalue')
      rw [hvalue, ← haddress, hplain.cstr_eq]
    have hnames : table.Apart ∧ table.Unclaimed := by
      refine (loaded_iff table hcli before).mp fun l hl name hname => ?_
      rcases hname with rfl | rfl
      · exact hforward l hl .host nofun
      · exact hforward l hl .dowse nofun
    exact ⟨hnames.1, hnames.2,
      fun l hl => (resolved_reverse_iff (hask l hl .reverse)).mp (h l hl .reverse),
      fun l hl kind hkind => ((resolved_forward_iff hkind (hask l hl kind)).mp (h l hl kind)).1⟩
  · intro h l hl kind
    have hloaded := (loaded_iff table hcli before).mpr ⟨h.apart, h.unclaimed⟩ l hl
    have hvalue : ∀ name, name = l.host ∨ name = l.host ++ dowseIt → ∃ value,
        table.loaded cli before (Stem.lease.text ++ name) = some value ∧ cstr value = l.address :=
      fun name hname => ⟨l.address, hloaded name hname, l.plain_address.cstr_eq⟩
    cases kind with
    | host =>
        exact (resolved_forward_iff (by decide) (hask l hl .host)).mpr
          ⟨h.reaches l hl .host nofun, hvalue _ (.inl rfl)⟩
    | dowse =>
        exact (resolved_forward_iff (by decide) (hask l hl .dowse)).mpr
          ⟨h.reaches l hl .dowse nofun, hvalue _ (.inr rfl)⟩
    | reverse => exact (resolved_reverse_iff (hask l hl .reverse)).mpr (h.reversed l hl)

def printerLine : Text := "1500000000 02:00:00:00:00:07 192.168.0.7 printer *".toList

theorem word_printerLine :
    word printerLine 3 = "192.168.0.7".toList ∧ word printerLine 4 = "printer".toList := by
  decide +kernel

/-- The lease of a printer. -/
def printerLease : Lease where
  line := printerLine
  addr := ⟨192, 168, 0, 7⟩
  four := by decide +kernel
  address_eq := by
    rw [word_printerLine.1]
    decide +kernel
  hostName := by
    rw [word_printerLine.2]
    exact ⟨by decide, by decide, by simp⟩

/-- A host without a network file. -/
def officeConfig : Config where
  hostname := "dowse".toList
  address := "192.168.0.1".toList
  wan := "10.0.0.2".toList
  gateway := "10.0.0.1".toList
  network := []
  plain_hostname := List.all_eq_true.mp (by decide)
  plain_address := List.all_eq_true.mp (by decide)
  plain_wan := List.all_eq_true.mp (by decide)
  plain_network := nofun

def officeTable : Table officeConfig where
  leases := [printerLease]
  addrs := List.nodup_singleton _
  hosts := List.nodup_singleton _
  notLocal := by
    intro l hl
    rw [List.mem_singleton.mp hl]
    decide +kernel

def blankCli (line : Text) : Option (List Text) := some (Splitting.words ' ' line)

theorem reads_blankCli : Reads blankCli := fun _ _ => rfl

/-- A permanent redis that may know the printer. -/
def officeStorage (name : Option Text) : Database where
  get key := if key = "dns-reverse-192.168.0.7".toList then name else none
  hget _ _ := none

/-- The host itself asks for a name of a lease. -/
def officeAsk (name : Option Text) (l : Lease) (kind : Kind) : Event :=
  ({ lanEnv with
      redis := fun conn command =>
        if conn = .storage then (officeStorage name).reply command
        else (Database.mk (officeTable.loaded blankCli fun _ => none) fun _ _ => none).reply command
      wire2pkt := fun _ => some ⟨1, some ⟨some (kind.name l ++ ['.']), 1, 1⟩⟩
      reversed := fun _ => some (l.address ++ ['.']) },
    ⟨[], localhost⟩)

theorem asks_office (name : Option Text) (l : Lease) (kind : Kind) :
    Asks (officeTable.loaded blankCli fun _ => none) (officeStorage name) lanData l kind
      (officeAsk name l kind) where
  short := Nat.zero_le _
  question := ⟨_, _, rfl, rfl, rfl, _, rfl⟩
  reversed _ := ⟨rfl, rfl⟩
  dynamic := ⟨_, serves_of_reply fun _ => rfl, rfl⟩
  storage := serves_of_reply fun _ => rfl
  client := .inl rfl

theorem resolved_iff_resolvable_office :
    Reads blankCli ∧ (∀ l ∈ officeTable.leases, ∀ kind,
      Asks (officeTable.loaded blankCli fun _ => none) (officeStorage (some "printer".toList))
        lanData l kind (officeAsk (some "printer".toList) l kind)) ∧
    ∀ l ∈ officeTable.leases, ∀ kind,
      Resolved lanData l kind (officeAsk (some "printer".toList) l kind) := by
  refine ⟨reads_blankCli, fun l _ kind => asks_office _ l kind,
    (resolved_iff_resolvable officeTable reads_blankCli (fun _ => none) _ (fun _ _ => lanData)
      (officeAsk (some "printer".toList)) fun l _ kind => asks_office _ l kind).mpr ?_⟩
  refine ⟨?_, ?_, ?_, ?_⟩
  · intro l hl m hm
    rw [List.mem_singleton.mp hl, List.mem_singleton.mp hm]
    decide +kernel
  · intro l hl value hvalue
    have hnone : assigned officeConfig.localLines .lease (printerLease.host ++ dowseIt) = none := by
      decide +kernel
    rw [List.mem_singleton.mp hl, hnone] at hvalue
    cases hvalue
  · intro l hl
    rw [List.mem_singleton.mp hl]
    exact ⟨"printer".toList, by decide +kernel, by decide +kernel⟩
  · intro l hl kind hkind
    rw [List.mem_singleton.mp hl]
    refine ⟨fun hreverse => ?_, fun ip4 hip => ?_⟩
    · cases kind with
      | host => exact absurd hreverse (by decide +kernel)
      | dowse => exact absurd hreverse (by decide +kernel)
      | reverse => exact absurd rfl hkind
    · rw [← Option.some.inj hip]
      refine (PublishRun.publishable (publishQuery_run _ _ _ rfl)).mp ?_
      cases kind with
      | host => decide +kernel
      | dowse => decide +kernel
      | reverse => exact absurd rfl hkind

/-- After the configuration the storage has nothing for the address of the printer, and a query
for its name is passed on to the internet. -/
theorem printer_has_no_reverse :
    printerLease ∈ officeTable.leases ∧
      Asks (officeTable.loaded blankCli fun _ => none) (officeStorage none) lanData printerLease
        .reverse (officeAsk none printerLease .reverse) ∧
      officeTable.loaded blankCli (fun _ => none) "dns-reverse-192.168.0.7.".toList =
        some "printer".toList ∧
      (call lanData (officeAsk none printerLease .reverse)).1 = .ok ∧
      ¬ Resolved lanData printerLease .reverse (officeAsk none printerLease .reverse) := by
  have hok : (call lanData (officeAsk none printerLease .reverse)).1 = .ok := by decide +kernel
  refine ⟨List.mem_singleton_self _, asks_office none _ _, by decide +kernel, hok, ?_⟩
  rintro ⟨pkt, question, wire, -, -, -, hdirect⟩
  cases hok.symm.trans hdirect

end Dowse.Leases
