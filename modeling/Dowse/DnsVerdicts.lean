import Dowse.DnsBuffers

/-!
# What a packet is answered, and when a call does not return

The filter is to drop a packet for an error only, and to send the local answer for a packet
whenever it could be rendered. What the local answer is follows from the packet, the client,
the replies of the stores and the mode of the plugin, and is said here in these terms: a name
that is stored for a question under `arpa.`, the portal for a client that may not browse, a
lease, a cached packet, or the local host for an offline plugin.

Two things keep the filter from this. The branch for the offline mode has no braces, and drops
the packet although its answer was rendered. And a call may not return at all. The causes are a
packet without a question, a question under `arpa.` that ldns cannot read, a query that cannot
be published, and a record that ldns cannot parse, whose pointer was never set. With the same
causes excluded, and no others, every packet is behind the gate of the portal.
-/
namespace Dowse.DnsPlugin
open CStrings Hashmap GuardedRuns

section Publication

/-- The arrays after the extraction of a domain with these labels. -/
def extractedNames (c : Call) (labels : List Text) : Names :=
  c.data.names.extracted c.data.query (domainStart c.data.query labels)

def extractedText (c : Call) (labels : List Text) : Text :=
  (extractedNames c labels).stringAt (domainStart c.data.query labels)

/-- Why the publication of a query does not return: the query ends with two dots, or there is
a list of domains and the query has no domain or its group does not fit behind the event. -/
inductive Unpublishable (env : Env) (c : Call) : Prop
  | dots (hmin : 3 ≤ c.data.query.length) (h : ['.', '.'] <:+ c.data.query)
  | noDomain (hlist : c.data.listpath.isSome) (h : c.data.query.length < 3)
  | group {labels : List Text} {group : Text} (hmin : 3 ≤ c.data.query.length)
      (hlabels : scannedLabels (c.data.query.splitOn '.') = some labels)
      (hgroup : groupOf c.data (some (extractedText c labels)) = some group)
      (h : maxOutput ≤ (outnewFor env c (some (extractedText c labels))
        (extractedNames c labels)).length + 1 + min (maxOutput - 128) group.length)

theorem extraction_eq {c : Call} (hnul : '\x00' ∉ c.data.query) (hmin : 3 ≤ c.data.query.length) :
    extraction c.data = (scannedLabels (c.data.query.splitOn '.')).map fun labels =>
      (some (extractedText c labels), extractedNames c labels) := by
  unfold extraction
  rw [extractDomain_eq hnul hmin]
  cases scannedLabels (c.data.query.splitOn '.') <;> rfl

theorem unpublishable_iff {env : Env} {c : Call} (hnul : '\x00' ∉ c.data.query) :
    Unpublishable env c ↔ ¬ Publishable env c := by
  by_cases hmin : 3 ≤ c.data.query.length
  · have hextraction := extraction_eq hnul hmin
    cases hlabels : scannedLabels (c.data.query.splitOn '.') with
    | none =>
        rw [hlabels, Option.map_none] at hextraction
        refine iff_of_true (.dots hmin ((scannedLabels_eq_none_iff _).mp hlabels)) ?_
        rintro ⟨extracted, names, hsome, -⟩
        cases hextraction.symm.trans hsome
    | some labels =>
        rw [hlabels, Option.map_some] at hextraction
        rw [publishable_iff hextraction, @addGroup_isSome_iff 0, groupTrace_inside_iff]
        have hdots : ¬ ['.', '.'] <:+ c.data.query := by
          rw [← scannedLabels_eq_none_iff, hlabels]
          nofun
        constructor
        · intro h hroom
          cases h with
          | dots _ h => exact hdots h
          | noDomain _ h => omega
          | @group labels' group _ hlabels' hgroup h =>
              obtain rfl := Option.some.inj (hlabels.symm.trans hlabels')
              exact Nat.not_lt.mpr h (hroom group hgroup)
        · intro h
          push Not at h
          obtain ⟨group, hgroup, h⟩ := h
          exact .group hmin hlabels hgroup h
  · have hshort : c.data.query.length < 3 := by omega
    rw [publishable_iff (extraction_of_null (if_pos hshort))]
    constructor
    · intro h
      cases h with
      | dots h => exact absurd h hmin
      | noDomain hlist => simp [addGroup, hlist]
      | group h => exact absurd h hmin
    · intro h
      refine .noDomain ?_ hshort
      by_contra hlist
      simp [addGroup, hlist] at h

end Publication

def savedQuery (text : Text) : Text := (text.take maxQuery).dropLast

/-- A query has passed the portal, and there is no lease for it. -/
structure Unleased (env : Env) (packet : Packet) (data : PluginData) (pkt : LdnsPkt)
    (question : Question) : Prop where
  accepted : acceptedQuestion env packet = some (pkt, question)
  pastReverse : PastReverse env (questionText env question)
  permitted : Permitted env data.interface packet.client
  unleased : ∀ reply,
    ¬ Holds env .dynamic (leaseCommand (savedQuery (questionText env question))) reply

structure Cached (env : Env) (packet : Packet) (data : PluginData) (pkt : LdnsPkt)
    (question : Question) (conn : Conn) (reply : Reply) : Prop
    extends Unleased env packet data pkt question where
  cache : data.cache = some conn
  holds : Holds env conn (cacheCommand (savedQuery (questionText env question))) reply

/-- A query comes to the end of the filter without a local answer. -/
structure Unanswered (env : Env) (packet : Packet) (data : PluginData) (pkt : LdnsPkt)
    (question : Question) : Prop extends Unleased env packet data pkt question where
  uncached : ∀ conn reply, data.cache = some conn →
    ¬ Holds env conn (cacheCommand (savedQuery (questionText env question))) reply

/-- What an offline plugin is to answer with. -/
def localhostRecord (env : Env) (question : Question) : Text :=
  offlineRecord (isReverse env (questionText env question)) (questionText env question)
    (savedQuery (questionText env question))

/-- The record with which a packet is to be answered: the stored name for a question under
`arpa.`, the portal for a client that may not browse, the lease for a name that has one. -/
inductive LocalRecord (env : Env) (packet : Packet) (data : PluginData) (pkt : LdnsPkt)
    (question : Question) : Text → Prop
  | reverse {reply : Reply} (haccepted : acceptedQuestion env packet = some (pkt, question))
      (hreverse : isReverse env (questionText env question) = true)
      (hname : env.dname (questionText env question) = some true)
      (h : Holds env .storage (reverseCommand env (questionText env question)) reply) :
      LocalRecord env packet data pkt question (ptrRecord (questionText env question) reply.str)
  | portal (haccepted : acceptedQuestion env packet = some (pkt, question))
      (hpast : PastReverse env (questionText env question))
      (h : ¬ Permitted env data.interface packet.client) :
      LocalRecord env packet data pkt question
        (aRecord (savedQuery (questionText env question)) data.ownip4)
  | lease {reply : Reply} (haccepted : acceptedQuestion env packet = some (pkt, question))
      (hpast : PastReverse env (questionText env question))
      (hpermitted : Permitted env data.interface packet.client)
      (h : Holds env .dynamic (leaseCommand (savedQuery (questionText env question))) reply) :
      LocalRecord env packet data pkt question
        (aRecord (savedQuery (questionText env question)) (printed reply.str))

/-- Why the filter does not return for a packet. -/
inductive NoReturn (env : Env) (packet : Packet) (data : PluginData) : Prop
  | noQuestion {pkt : LdnsPkt} (hshort : packet.wire.length ≤ maxDns)
      (hpkt : env.wire2pkt packet.wire = some pkt) (h : pkt.question = none)
  | unreadable {pkt : LdnsPkt} {question : Question}
      (haccepted : acceptedQuestion env packet = some (pkt, question))
      (hreverse : isReverse env (questionText env question) = true)
      (h : env.dname (questionText env question) = none)
  | unpublished {pkt : LdnsPkt} {question : Question} {ip4 : Text}
      (haccepted : acceptedQuestion env packet = some (pkt, question))
      (hpast : PastReverse env (questionText env question))
      (hip : inetNtoa packet.client = some ip4)
      (h : Unpublishable env (savedCall env packet (questionText env question) ip4 data))
  | unparsed {pkt : LdnsPkt} {question : Question} {record : Text}
      (hrecord : LocalRecord env packet data pkt question record)
      (h : env.rrNewFrmStr record = none)
  | unparsedLocalhost {pkt : LdnsPkt} {question : Question}
      (hend : Unanswered env packet data pkt question) (hoffline : data.offline = true)
      (h : env.rrNewFrmStr (localhostRecord env question) = none)
  | nullPacket {pkt : LdnsPkt} {question : Question} {conn : Conn} {reply : Reply}
      (hcached : Cached env packet data pkt question conn reply) (h : reply.str = none)

section Calls
variable {env : Env} {packet : Packet} {pkt : LdnsPkt} {question : Question} {data : PluginData}
  {record : Text}

theorem answerToQuestion_eq_none_iff {id : UInt16} :
    answerToQuestion env id question record = none ↔ env.rrNewFrmStr record = none := by
  unfold answerToQuestion
  split <;> simp [*]

theorem respond_eq_crash_iff {id : UInt16} {answer : Answer} :
    respond env id question answer record = .crash ↔ env.rrNewFrmStr record = none := by
  rw [← @answerToQuestion_eq_none_iff env question record id]
  unfold respond
  split <;> simp [*]

theorem offlineAnswer_eq_crash_iff {id : UInt16} :
    offlineAnswer env id question record = .crash ↔ env.rrNewFrmStr record = none := by
  rw [← @answerToQuestion_eq_none_iff env question record id]
  unfold offlineAnswer
  split <;> simp [*]

theorem crash_or_publishable {ip4 : Text}
    (haccepted : acceptedQuestion env packet = some (pkt, question))
    (hpast : PastReverse env (questionText env question))
    (hip : inetNtoa packet.client = some ip4) :
    (call data (env, packet)).1 = .crash ∨
      Publishable env (savedCall env packet (questionText env question) ip4 data) := by
  have houtcome := @call_outcome _ _ _ _ data haccepted _ hip
  refine or_iff_not_imp_right.mpr fun hnot => ?_
  exact houtcome.crash (hpast.outcome_eq pkt.id question) hnot

theorem call_endpoint (haccepted : acceptedQuestion env packet = some (pkt, question))
    (hpast : PastReverse env (questionText env question))
    (hpermitted : Permitted env data.interface packet.client) :
    (call data (env, packet)).1 = .crash ∨ ∃ ip4, (call data (env, packet)).1 =
      endpointOutcome env pkt.id question (questionText env question) packet.wire
        (savedCall env packet (questionText env question) ip4 data).data := by
  obtain ⟨ip4, hip⟩ := exists_inetNtoa packet.client
  have houtcome := @call_outcome _ _ _ _ data haccepted _ hip
  refine (crash_or_publishable haccepted hpast hip).imp_right fun hpublishable => ⟨ip4, ?_⟩
  exact houtcome.endpoint (hpast.outcome_eq pkt.id question) hpublishable hpermitted

/-- A record is rendered and sent, unless the publication has not returned. -/
theorem LocalRecord.call_eq (h : LocalRecord env packet data pkt question record) :
    (call data (env, packet)).1 = .crash ∨
      ∃ kind, (call data (env, packet)).1 = respond env pkt.id question kind record := by
  obtain ⟨ip4, hip⟩ := exists_inetNtoa packet.client
  cases h with
  | @reverse reply haccepted hreverse hname hholds =>
      have houtcome := @call_outcome _ _ _ _ data haccepted _ hip
      exact .inr ⟨_, houtcome.reverse _ (reverseOutcome_of_holds hreverse hname hholds)⟩
  | portal haccepted hpast hnot =>
      have houtcome := @call_outcome _ _ _ _ data haccepted _ hip
      refine (crash_or_publishable haccepted hpast hip).imp_right fun hpublishable => ?_
      exact ⟨_, houtcome.portal (hpast.outcome_eq pkt.id question) hpublishable hnot⟩
  | @lease reply haccepted hpast hpermitted hholds =>
      refine (call_endpoint haccepted hpast hpermitted).imp_right ?_
      rintro ⟨ip4, hcall⟩
      refine ⟨.lease (aRecord (savedQuery (questionText env question)) (printed reply.str)), ?_⟩
      rw [hcall]
      exact endpointOutcome_lease (leaseOutcome_eq_some_iff.mpr ⟨reply, hholds, rfl⟩)

theorem Cached.call_eq {conn : Conn} {reply : Reply}
    (h : Cached env packet data pkt question conn reply) :
    (call data (env, packet)).1 = .crash ∨
      (call data (env, packet)).1 = cachedPacket packet.wire reply := by
  refine (call_endpoint h.accepted h.pastReverse h.permitted).imp_right ?_
  rintro ⟨ip4, hcall⟩
  rw [hcall]
  refine endpointOutcome_cached (leaseOutcome_eq_none_iff.mpr h.unleased) ?_
  exact cacheOutcome_eq_some_iff.mpr ⟨conn, reply, h.cache, h.holds, rfl⟩

theorem Unanswered.call_eq (h : Unanswered env packet data pkt question) :
    (call data (env, packet)).1 = .crash ∨ (call data (env, packet)).1 =
      if data.offline then offlineAnswer env pkt.id question (localhostRecord env question)
      else .ok := by
  refine (call_endpoint h.accepted h.pastReverse h.permitted).imp_right ?_
  rintro ⟨ip4, hcall⟩
  rw [hcall]
  exact endpointOutcome_end (leaseOutcome_eq_none_iff.mpr h.unleased)
    (cacheOutcome_eq_none_iff.mpr h.uncached)

/-- What becomes of a question that is accepted. -/
inductive Fate (env : Env) (packet : Packet) (data : PluginData) (pkt : LdnsPkt)
    (question : Question) : Result → Prop
  | unreadable (hreverse : isReverse env (questionText env question) = true)
      (h : env.dname (questionText env question) = none) : Fate env packet data pkt question .crash
  | notName (hreverse : isReverse env (questionText env question) = true)
      (h : env.dname (questionText env question) = some false) :
      Fate env packet data pkt question .kill
  | unpublished {ip4 : Text} (hpast : PastReverse env (questionText env question))
      (hip : inetNtoa packet.client = some ip4)
      (h : Unpublishable env (savedCall env packet (questionText env question) ip4 data)) :
      Fate env packet data pkt question .crash
  | record {record : Text} {kind : Answer} (h : LocalRecord env packet data pkt question record) :
      Fate env packet data pkt question (respond env pkt.id question kind record)
  | cached {conn : Conn} {reply : Reply} (h : Cached env packet data pkt question conn reply) :
      Fate env packet data pkt question (cachedPacket packet.wire reply)
  | forwarded (h : Unanswered env packet data pkt question) (hoffline : data.offline = false) :
      Fate env packet data pkt question .ok
  | offline (h : Unanswered env packet data pkt question) (hoffline : data.offline = true) :
      Fate env packet data pkt question
        (offlineAnswer env pkt.id question (localhostRecord env question))

theorem fate_of_accepted (haccepted : acceptedQuestion env packet = some (pkt, question)) :
    Fate env packet data pkt question (call data (env, packet)).1 := by
  obtain ⟨ip4, hip⟩ := exists_inetNtoa packet.client
  have houtcome := @call_outcome _ _ _ _ data haccepted _ hip
  cases hreverse : reverseOutcome env pkt.id question (questionText env question) with
  | some r =>
      rw [houtcome.reverse r hreverse]
      obtain ⟨harpa, ⟨hname, rfl⟩ | ⟨hname, rfl⟩ | ⟨hname, reply, hholds, rfl⟩⟩ :=
        reverseOutcome_eq_some_iff.mp hreverse
      · exact .unreadable harpa hname
      · exact .notName harpa hname
      · exact .record (.reverse haccepted harpa hname hholds)
  | none =>
      have hpast := reverseOutcome_eq_none_iff.mp hreverse
      by_cases hpublishable :
          Publishable env (savedCall env packet (questionText env question) ip4 data)
      swap
      · rw [houtcome.crash hreverse hpublishable]
        exact .unpublished hpast hip
          ((unpublishable_iff (nul_notMem_savedCall _ _ _ ip4 data)).mpr hpublishable)
      by_cases hpermitted : Permitted env data.interface packet.client
      swap
      · rw [houtcome.portal hreverse hpublishable hpermitted]
        exact .record (.portal haccepted hpast hpermitted)
      rw [houtcome.endpoint hreverse hpublishable hpermitted]
      cases hlease : leaseOutcome env pkt.id question
          (savedCall env packet (questionText env question) ip4 data).data.query with
      | some r =>
          rw [endpointOutcome_lease hlease]
          obtain ⟨reply, hholds, rfl⟩ := leaseOutcome_eq_some_iff.mp hlease
          exact .record (.lease haccepted hpast hpermitted hholds)
      | none =>
          have hunleased : Unleased env packet data pkt question :=
            ⟨haccepted, hpast, hpermitted, leaseOutcome_eq_none_iff.mp hlease⟩
          cases hcache : cacheOutcome env
              (savedCall env packet (questionText env question) ip4 data).data packet.wire with
          | some r =>
              rw [endpointOutcome_cached hlease hcache]
              obtain ⟨conn, reply, hconn, hholds, rfl⟩ := cacheOutcome_eq_some_iff.mp hcache
              exact .cached ⟨hunleased, hconn, hholds⟩
          | none =>
              have hend : Unanswered env packet data pkt question :=
                ⟨hunleased, cacheOutcome_eq_none_iff.mp hcache⟩
              rw [endpointOutcome_end hlease hcache]
              split_ifs with hoffline
              · exact .offline hend hoffline
              · exact .forwarded hend (Bool.eq_false_iff.mpr hoffline)

/-- A call does not return exactly for these causes. -/
theorem call_eq_crash_iff :
    (call data (env, packet)).1 = .crash ↔ NoReturn env packet data := by
  constructor
  · intro hcrash
    obtain hlong | hnone | ⟨pkt, hshort, hpkt, hnone | ⟨question, hquestion, hempty⟩⟩ |
      ⟨pkt, question, haccepted⟩ := packet_cases env packet
    · cases (call_tooLong hlong).symm.trans hcrash
    · cases (call_unparsed hnone).symm.trans hcrash
    · exact .noQuestion hshort hpkt hnone
    · cases (call_empty hshort hpkt hquestion hempty).symm.trans hcrash
    · have hfate := @fate_of_accepted _ _ _ _ data haccepted
      rw [hcrash] at hfate
      generalize hr : Result.crash = r at hfate
      cases hfate with
      | unreadable hreverse h => exact .unreadable haccepted hreverse h
      | notName => cases hr
      | unpublished hpast hip h => exact .unpublished haccepted hpast hip h
      | record h => exact .unparsed h (respond_eq_crash_iff.mp hr.symm)
      | cached h =>
          refine .nullPacket h ?_
          unfold cachedPacket at hr
          split at hr
          · assumption
          · cases hr
      | forwarded => cases hr
      | offline h hoffline =>
          exact .unparsedLocalhost h hoffline (offlineAnswer_eq_crash_iff.mp hr.symm)
  · intro h
    cases h with
    | noQuestion hshort hpkt h => exact call_noQuestion hshort hpkt h
    | unreadable haccepted hreverse h =>
        obtain ⟨ip4, hip⟩ := exists_inetNtoa packet.client
        exact (call_outcome haccepted hip).reverse _
          (reverseOutcome_eq_some_iff.mpr ⟨hreverse, .inl ⟨h, rfl⟩⟩)
    | unpublished haccepted hpast hip h =>
        exact (call_outcome haccepted hip).crash (reverseOutcome_eq_none_iff.mpr hpast)
          ((unpublishable_iff (nul_notMem_savedCall _ _ _ _ data)).mp h)
    | unparsed hrecord h =>
        obtain hcrash | ⟨kind, hcall⟩ := hrecord.call_eq
        · exact hcrash
        · exact hcall.trans (respond_eq_crash_iff.mpr h)
    | unparsedLocalhost hend hoffline h =>
        obtain hcrash | hcall := hend.call_eq
        · exact hcrash
        · rw [hcall, if_pos hoffline]
          exact offlineAnswer_eq_crash_iff.mpr h
    | nullPacket hcached h =>
        obtain hcrash | hcall := hcached.call_eq
        · exact hcrash
        · rw [hcall, cachedPacket, h]

end Calls

/-- A packet has an error of its own, whatever the plugin knows. -/
inductive Faulty (env : Env) (packet : Packet) : Prop
  | tooLong (h : packet.wire.length > maxDns)
  | unparsed (h : env.wire2pkt packet.wire = none)
  | empty {pkt : LdnsPkt} {question : Question} (hpkt : env.wire2pkt packet.wire = some pkt)
      (hquestion : pkt.question = some question) (h : questionText env question = [])
  | notName {pkt : LdnsPkt} {question : Question} (hpkt : env.wire2pkt packet.wire = some pkt)
      (hquestion : pkt.question = some question)
      (hreverse : isReverse env (questionText env question) = true)
      (h : env.dname (questionText env question) ≠ some true)
  | badClient (h : inetNtoa packet.client = none)

/-- The local answer for a packet, as it is rendered, or `none` if it cannot be. -/
inductive LocalAnswer (env : Env) (packet : Packet) (data : PluginData) : Option Wire → Prop
  | record {pkt : LdnsPkt} {question : Question} {record : Text}
      (h : LocalRecord env packet data pkt question record) :
      LocalAnswer env packet data (answerToQuestion env pkt.id question record).join
  | cached {pkt : LdnsPkt} {question : Question} {conn : Conn} {reply : Reply} {wire : Wire}
      (h : Cached env packet data pkt question conn reply)
      (hwire : cachedPacket packet.wire reply = .direct .cached wire) :
      LocalAnswer env packet data (some wire)
  | localhost {pkt : LdnsPkt} {question : Question}
      (h : Unanswered env packet data pkt question) (hoffline : data.offline = true) :
      LocalAnswer env packet data
        (answerToQuestion env pkt.id question (localhostRecord env question)).join

/-- A call returns. It drops the packet for an error or because its answer cannot be rendered,
and it sends an answer that can be. -/
structure DropsErrorsOnly (env : Env) (packet : Packet) (data : PluginData) : Prop where
  returns : (call data (env, packet)).1 ≠ .crash
  kill : (call data (env, packet)).1 = .kill ↔
    Faulty env packet ∨ LocalAnswer env packet data none
  direct : ∀ wire, LocalAnswer env packet data (some wire) →
    ∃ kind, (call data (env, packet)).1 = .direct kind wire

section Verdicts
variable {env : Env} {packet : Packet} {pkt : LdnsPkt} {question : Question} {data : PluginData}
  {record : Text}

theorem respond_of_join_none {id : UInt16} {kind : Answer}
    (hreturns : respond env id question kind record ≠ .crash)
    (h : (answerToQuestion env id question record).join = none) :
    respond env id question kind record = .kill := by
  unfold respond at hreturns ⊢
  cases hanswer : answerToQuestion env id question record with
  | none => simp [hanswer] at hreturns
  | some rendered =>
      rw [hanswer, Option.join_some] at h
      rw [h]

theorem join_of_respond_kill {id : UInt16} {kind : Answer}
    (h : respond env id question kind record = .kill) :
    (answerToQuestion env id question record).join = none := by
  unfold respond at h
  split at h
  · cases h
  · rename_i hanswer
    rw [hanswer, Option.join_some]
  · cases h

theorem respond_of_join_some {id : UInt16} {kind : Answer} {wire : Wire}
    (h : (answerToQuestion env id question record).join = some wire) :
    respond env id question kind record = .direct kind wire := by
  unfold respond
  rw [Option.join_eq_some_iff.mp h]

theorem Faulty.call_eq (h : Faulty env packet) (hreturns : ¬ NoReturn env packet data) :
    (call data (env, packet)).1 = .kill := by
  by_cases hlong : packet.wire.length > maxDns
  · exact call_tooLong hlong
  have hshort := Nat.le_of_not_lt hlong
  cases h with
  | tooLong h => exact call_tooLong h
  | unparsed h => exact call_unparsed h
  | empty hpkt hquestion h => exact call_empty hshort hpkt hquestion h
  | @notName pkt question hpkt hquestion hreverse h =>
      by_cases hempty : questionText env question = []
      · exact call_empty hshort hpkt hquestion hempty
      have haccepted := acceptedQuestion_eq_some_iff.mpr ⟨hshort, hpkt, hquestion, hempty⟩
      obtain ⟨ip4, hip⟩ := exists_inetNtoa packet.client
      refine (call_outcome haccepted hip).reverse _ (reverseOutcome_eq_some_iff.mpr ⟨hreverse, ?_⟩)
      cases hname : env.dname (questionText env question) with
      | none => exact absurd (.unreadable haccepted hreverse hname) hreturns
      | some named =>
          cases named with
          | false => exact .inr (.inl ⟨rfl, rfl⟩)
          | true => exact absurd hname h
  | badClient h =>
      obtain ⟨ip4, hip⟩ := exists_inetNtoa packet.client
      cases hip.symm.trans h

/-- A packet is dropped for an error, or because its answer cannot be rendered, when an offline
plugin has rendered none. -/
theorem faulty_of_kill
    (hend : ∀ pkt question wire, Unanswered env packet data pkt question → data.offline = true →
      answerToQuestion env pkt.id question (localhostRecord env question) ≠ some (some wire))
    (hkill : (call data (env, packet)).1 = .kill) :
    Faulty env packet ∨ LocalAnswer env packet data none := by
  obtain hlong | hnone | ⟨pkt, hshort, hpkt, hnone | ⟨question, hquestion, hempty⟩⟩ |
    ⟨pkt, question, haccepted⟩ := packet_cases env packet
  · exact .inl (.tooLong hlong)
  · exact .inl (.unparsed hnone)
  · cases (call_noQuestion hshort hpkt hnone).symm.trans hkill
  · exact .inl (.empty hpkt hquestion hempty)
  · obtain ⟨-, hpkt, hquestion, -⟩ := acceptedQuestion_eq_some_iff.mp haccepted
    have hfate := @fate_of_accepted _ _ _ _ data haccepted
    rw [hkill] at hfate
    generalize hr : Result.kill = r at hfate
    cases hfate with
    | unreadable => cases hr
    | notName hreverse h =>
        refine .inl (.notName hpkt hquestion hreverse ?_)
        rw [h]
        nofun
    | unpublished => cases hr
    | record h =>
        have hrecord := LocalAnswer.record h
        rw [join_of_respond_kill hr.symm] at hrecord
        exact .inr hrecord
    | cached h =>
        unfold cachedPacket at hr
        split at hr <;> cases hr
    | forwarded => cases hr
    | offline h hoffline =>
        have hlocalhost := LocalAnswer.localhost h hoffline
        have hnone : (answerToQuestion env pkt.id question (localhostRecord env question)).join =
            none := by
          refine Option.eq_none_iff_forall_ne_some.mpr fun wire hwire => ?_
          exact hend pkt question wire h hoffline (Option.join_eq_some_iff.mp hwire)
        rw [hnone] at hlocalhost
        exact .inr hlocalhost

theorem LocalAnswer.call_eq {rendered : Option Wire} (h : LocalAnswer env packet data rendered)
    (hreturns : (call data (env, packet)).1 ≠ .crash) :
    (rendered = none → (call data (env, packet)).1 = .kill) ∧
      ∀ wire, rendered = some wire → (∃ kind, (call data (env, packet)).1 = .direct kind wire) ∨
        ∃ pkt question, Unanswered env packet data pkt question ∧ data.offline = true ∧
          answerToQuestion env pkt.id question (localhostRecord env question) =
            some (some wire) := by
  cases h with
  | record h =>
      obtain ⟨kind, hcall⟩ := h.call_eq.resolve_left hreturns
      rw [hcall] at hreturns ⊢
      exact ⟨respond_of_join_none hreturns, fun wire hwire =>
        .inl ⟨kind, respond_of_join_some hwire⟩⟩
  | cached h hwire =>
      rw [h.call_eq.resolve_left hreturns, hwire]
      refine ⟨nofun, fun wire' h => .inl ⟨.cached, ?_⟩⟩
      rw [Option.some.inj h]
  | @localhost pkt question h hoffline =>
      have hcall := h.call_eq.resolve_left hreturns
      rw [if_pos hoffline] at hcall
      rw [hcall] at hreturns ⊢
      refine ⟨fun _ => (offlineAnswer_cases _ _ _ _).resolve_left hreturns, fun wire hwire => ?_⟩
      exact .inr ⟨pkt, question, h, hoffline, Option.join_eq_some_iff.mp hwire⟩

end Verdicts

/-- The filter returns, drops a packet for an error only and sends its local answer, if and only
if there is no cause for it not to return, and an offline plugin does not come to render the local
host. -/
theorem dropsErrorsOnly_iff (env : Env) (packet : Packet) (data : PluginData) :
    DropsErrorsOnly env packet data ↔ ¬ NoReturn env packet data ∧
      ∀ pkt question wire, Unanswered env packet data pkt question → data.offline = true →
        answerToQuestion env pkt.id question (localhostRecord env question) ≠
          some (some wire) := by
  constructor
  · intro h
    refine ⟨mt call_eq_crash_iff.mpr h.returns, fun pkt question wire hend hoffline hwire => ?_⟩
    have hanswer := LocalAnswer.localhost hend hoffline
    rw [hwire] at hanswer
    obtain ⟨kind, hdirect⟩ := h.direct wire hanswer
    have hcall := hend.call_eq.resolve_left h.returns
    rw [if_pos hoffline, offlineAnswer, hwire] at hcall
    cases hcall.symm.trans hdirect
  · rintro ⟨hreturns, hend⟩
    have hcrash := mt call_eq_crash_iff.mp hreturns
    refine ⟨hcrash, ⟨faulty_of_kill hend, ?_⟩, fun wire hanswer => ?_⟩
    · rintro (hfaulty | hanswer)
      · exact hfaulty.call_eq hreturns
      · exact (hanswer.call_eq hcrash).1 rfl
    · refine ((hanswer.call_eq hcrash).2 wire rfl).resolve_right ?_
      rintro ⟨pkt, question, h, hoffline, hwire⟩
      exact hend pkt question wire h hoffline hwire

/-- An offline plugin drops the query of a client that may browse, although the answer with the
local host was rendered. -/
theorem offline_answer_dropped :
    let offline := { lanData with offline := true }
    let packet : Packet := ⟨[], ⟨192, 168, 0, 7⟩⟩
    dcpluginInit ["offline".toList] lanVariables (fun _ => Hashmap.hashmapNew) true true true =
        some offline ∧
      LocalAnswer lanEnv packet offline (some [0]) ∧
      (call offline (lanEnv, packet)).1 = .kill ∧ ¬ DropsErrorsOnly lanEnv packet offline := by
  intro offline packet
  have hpast : PastReverse lanEnv (questionText lanEnv ⟨some "dyne.org.".toList, 1, 1⟩) :=
    fun h => absurd h (by decide)
  have hlease : leaseOutcome lanEnv 1 ⟨some "dyne.org.".toList, 1, 1⟩
      (savedQuery (questionText lanEnv ⟨some "dyne.org.".toList, 1, 1⟩)) = none := by
    decide +kernel
  have hend : Unanswered lanEnv packet offline ⟨1, some ⟨some "dyne.org.".toList, 1, 1⟩⟩
      ⟨some "dyne.org.".toList, 1, 1⟩ :=
    ⟨⟨by decide, hpast, .inr ⟨⟨[2, 0, 0, 0, 0, 7], rfl⟩, rfl, .inr (by decide +kernel)⟩,
      leaseOutcome_eq_none_iff.mp hlease⟩, nofun⟩
  have hanswer : LocalAnswer lanEnv packet offline (some [0]) := .localhost hend rfl
  have hkill : (call offline (lanEnv, packet)).1 = .kill := by decide +kernel
  refine ⟨rfl, hanswer, hkill, fun h => ?_⟩
  obtain ⟨kind, hdirect⟩ := h.direct [0] hanswer
  cases hkill.symm.trans hdirect

/-- Every packet that a plugin filters after its start is behind the gate, if and only if there is
no cause for the filter not to return. -/
theorem every_packet_gated {argv : List Text} {getenv : String → Option Text}
    {loadDomainlist : Text → Map Text} {sock redis redisStor : Bool} {data : PluginData}
    (h : dcpluginInit argv getenv loadDomainlist sock redis redisStor = some data)
    (evs : List Event) :
    Along step (fun data ev => Gated ev.1 ev.2 (call data ev).2 (call data ev).1 ↔
      ¬ NoReturn ev.1 ev.2 data) data evs := by
  refine Along.imp (I := fun data => data.cache = none) (P := fun _ _ => True)
    (fun _ ev hcache _ => (call_gated hcache ev).2) (fun data ev hcache _ => ?_)
    (dcpluginInit_fresh h).1 (along_of_forall (fun _ _ => trivial) data evs)
  rw [← call_eq_crash_iff]
  constructor
  · intro hgated hcrash
    rw [hcrash] at hgated
    exact not_gated_crash _ _ _ hgated
  · exact (call_gated hcache ev).1.resolve_left

theorem every_packet_gated_lan :
    dcpluginInit [] lanVariables (fun _ => Hashmap.hashmapNew) true true true = some lanData ∧
    (call lanData (lanEnv, ⟨[], ⟨192, 168, 0, 7⟩⟩)).1 = .ok ∧
    Along step (fun data ev => Gated ev.1 ev.2 (call data ev).2 (call data ev).1 ↔
      ¬ NoReturn ev.1 ev.2 data) lanData
      [(lanEnv, ⟨[], ⟨192, 168, 0, 7⟩⟩), (lanEnv, ⟨[], ⟨192, 168, 0, 8⟩⟩)] := by
  have hinit : dcpluginInit [] lanVariables (fun _ => Hashmap.hashmapNew) true true true =
      some lanData := rfl
  exact ⟨hinit, by decide +kernel, every_packet_gated hinit _⟩

def headerOnly : Packet := ⟨[0, 1, 1, 0, 0, 0, 0, 0, 0, 0, 0, 0], ⟨192, 168, 0, 8⟩⟩

/-- The owner of a question that is not there is asked for. -/
theorem header_not_gated :
    let env := { lanEnv with wire2pkt := fun _ => some ⟨1, none⟩ }
    dcpluginInit [] lanVariables (fun _ => Hashmap.hashmapNew) true true true = some lanData ∧
      (call lanData (env, headerOnly)).1 = .crash ∧
      ¬ Gated env headerOnly (call lanData (env, headerOnly)).2
        (call lanData (env, headerOnly)).1 := by
  intro env
  have hcrash : (call lanData (env, headerOnly)).1 = .crash := by decide +kernel
  refine ⟨rfl, hcrash, ?_⟩
  rw [hcrash]
  exact not_gated_crash _ _ _

end Dowse.DnsPlugin
